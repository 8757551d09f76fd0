import Mathlib.Logic.Function.Iterate
import KeyLeak.Lib.Replace

/-!
# The script that patches the stdexec headers

`patch_stdexec_clang15.sh` copies two headers to `.bak` files and then replaces one
line in each of them. A header that does not contain its line is left alone, so the
script can be run again on headers it has already patched.
-/
namespace PatchScript

open Replace

abbrev Text := List Char

/-- What `read()` of a file opened in text mode makes of the stored characters. -/
def universalNewlines : Text → Text
  | '\r' :: '\n' :: cs => '\n' :: universalNewlines cs
  | '\r' :: cs => '\n' :: universalNewlines cs
  | c :: cs => c :: universalNewlines cs
  | [] => []

example : universalNewlines ['a', '\r', '\n', 'b', '\r'] = ['a', '\n', 'b', '\n'] := rfl

def typeTraitsOld : Text :=
  "  using __copy_cvref_t = __copy_cvref_fn<_From>::template __f<_To>;".toList

def typeTraitsNew : Text :=
  "  using __copy_cvref_t = typename __copy_cvref_fn<_From>::template __f<_To>;".toList

/-- `for i, line in enumerate(content.split('\n')): if 'copy_cvref_t' in line: ...` -/
def typeTraitsSkip (content : Text) : List String :=
  "  SKIP: pattern not found (already patched?)" ::
    ((content.splitOn '\n').zipIdx.filter
      (fun l => "copy_cvref_t".toList <:+: l.1)).map
      (fun l => "  Line " ++ toString (l.2 + 1) ++ ": " ++ String.ofList l.1)

def metaOld : Text :=
  "#include <source_location> // IWYU pragma: keep for std::source_location::current".toList

def metaNewLines : List String :=
  ["// source_location: Clang 15 / OHOS NDK libc++ 15 compatibility",
   "#if __has_include(<source_location>)",
   "#  include <source_location>",
   "#elif __has_include(<experimental/source_location>)",
   "#  include <experimental/source_location>",
   "namespace std \x7b using source_location = std::experimental::source_location; \x7d",
   "#else",
   "// Provide a minimal stub for compilers that lack source_location entirely",
   "#  include <cstdint>",
   "namespace std \x7b",
   "struct source_location \x7b",
   "    static constexpr source_location current(",
   "        const char* file = __builtin_FILE(),",
   "        const char* func = __builtin_FUNCTION(),",
   "        uint_least32_t line = __builtin_LINE(),",
   "        uint_least32_t col  = 0) noexcept \x7b",
   "        source_location loc;",
   "        loc._file = file; loc._func = func;",
   "        loc._line = line; loc._col  = col;",
   "        return loc;",
   "    \x7d",
   "    constexpr const char*     file_name()     const noexcept \x7b return _file; \x7d",
   "    constexpr const char*     function_name() const noexcept \x7b return _func; \x7d",
   "    constexpr uint_least32_t  line()          const noexcept \x7b return _line; \x7d",
   "    constexpr uint_least32_t  column()        const noexcept \x7b return _col;  \x7d",
   "private:",
   "    const char*     _file = \"\";",
   "    const char*     _func = \"\";",
   "    uint_least32_t  _line = 0;",
   "    uint_least32_t  _col  = 0;",
   "\x7d;",
   "\x7d // namespace std",
   "#endif // source_location"]

/-- The lines joined by newlines, with none at the end. -/
def metaNew : Text := List.intercalate ['\n'] (metaNewLines.map String.toList)

/-- A pair of texts whose replacement leaves nothing to search for, in the file as
stored and in the file as read. -/
structure Final (old new : Text) : Prop where
  separated : Separated old new
  oneLine : '\r' ∉ old ∧ '\n' ∉ old
  noReturn : '\r' ∉ new

instance (old new : Text) : Decidable (Final old new) :=
  decidable_of_iff (Separated old new ∧ ('\r' ∉ old ∧ '\n' ∉ old) ∧ '\r' ∉ new)
    ⟨fun h => ⟨h.1, h.2.1, h.2.2⟩, fun h => ⟨h.separated, h.oneLine, h.noReturn⟩⟩

/-- String literals are compared as lists of characters. -/
theorem final_ofList {old new : Text} (h : Final old new) :
    Final (String.ofList old).toList (String.ofList new).toList := by
  rw [String.toList_ofList, String.toList_ofList]
  exact h

theorem map_toList_cons {line : Text} {strings : List String} {lines : List Text}
    (h : strings.map String.toList = lines) :
    (String.ofList line :: strings).map String.toList = line :: lines := by
  rw [List.map_cons, String.toList_ofList, h]

theorem final_lines {old : Text} {strings : List String} {lines : List Text}
    (hlines : strings.map String.toList = lines)
    (h : Final old (List.intercalate ['\n'] lines)) :
    Final (String.ofList old).toList (List.intercalate ['\n'] (strings.map String.toList)) := by
  rw [String.toList_ofList, hlines]
  exact h

theorem typeTraits_final : Final typeTraitsOld typeTraitsNew := final_ofList (by decide +kernel)

theorem meta_final : Final metaOld metaNew := by
  apply final_lines
  case hlines =>
    repeat apply map_toList_cons
    exact List.map_nil
  case h => decide +kernel

/-- What one of the two embedded programs searches, writes and prints. -/
structure Edit where
  old : Text
  new : Text
  ok : String
  skip : Text → List String
  final : Final old new

/-- Both embedded programs: the file they leave behind and the lines they print. -/
def applyEdit (e : Edit) (file : Text) : Text × List String :=
  let content := universalNewlines file
  if e.old <:+: content then (replaceAll e.old e.new content, [e.ok])
  else (file, e.skip content)

def typeTraitsEdit : Edit where
  old := typeTraitsOld
  new := typeTraitsNew
  ok := "  OK: __copy_cvref_t patched"
  skip := typeTraitsSkip
  final := typeTraits_final

def metaEdit : Edit where
  old := metaOld
  new := metaNew
  ok := "  OK: source_location patched"
  skip := fun _ => ["  SKIP: already patched"]
  final := meta_final

def patchTypeTraits (file : Text) : Text × List String := applyEdit typeTraitsEdit file

def patchMeta (file : Text) : Text × List String := applyEdit metaEdit file

/-- The two live headers and the two copies. -/
structure Tree where
  typeTraitsHpp : Text
  metaHpp : Text
  typeTraitsBak : Option Text
  metaBak : Option Text

def headers (t : Tree) : Text × Text := (t.typeTraitsHpp, t.metaHpp)

/-- `cp "$header" "$header.bak"`, for both headers and on every run. -/
def backup (t : Tree) : Tree :=
  { t with typeTraitsBak := some t.typeTraitsHpp, metaBak := some t.metaHpp }

def runScript (t : Tree) : Tree × List String :=
  let t := backup t
  let (typeTraits, out₂) := patchTypeTraits t.typeTraitsHpp
  let (stdMeta, out₃) := patchMeta t.metaHpp
  ({ t with typeTraitsHpp := typeTraits, metaHpp := stdMeta },
    ["[1/3] 备份原始文件...",
      "[2/3] patch __type_traits.hpp: 修复 __copy_cvref_t (Clang 15 不支持 dependent template alias)..."]
      ++ out₂
      ++ ["[3/3] patch __meta.hpp: 修复 source_location (OHOS NDK libc++15 缺少此头文件)..."]
      ++ out₃ ++ ["", "Done. 验证 patch 结果："])

/-- The files after a number of runs. -/
def runs (n : Nat) (t : Tree) : Tree := (fun t => (runScript t).1)^[n] t

/-- Both copies are copied back; a copy that is missing changes nothing. -/
def restore (t : Tree) : Tree :=
  { t with
    typeTraitsHpp := t.typeTraitsBak.getD t.typeTraitsHpp
    metaHpp := t.metaBak.getD t.metaHpp }

theorem universalNewlines_cons {c : Char} (hc : c ≠ '\r') (cs : Text) :
    universalNewlines (c :: cs) = c :: universalNewlines cs := by
  rw [universalNewlines]
  · intro _ h
    exact absurd h hc
  · exact hc

theorem return_not_mem_universalNewlines (file : Text) : '\r' ∉ universalNewlines file := by
  fun_induction universalNewlines file with
  | case1 cs ih => simpa using ih
  | case2 cs _ ih => simpa using ih
  | case3 c cs _ hc ih =>
    intro h
    rcases List.mem_cons.mp h with h | h
    · exact hc h.symm
    · exact ih h
  | case4 => simp

theorem universalNewlines_of_not_mem {file : Text} (h : '\r' ∉ file) :
    universalNewlines file = file := by
  induction file with
  | nil => rfl
  | cons c cs ih =>
    have hc : c ≠ '\r' := fun hc => h (by simp [hc])
    rw [universalNewlines_cons hc, ih (fun hcs => h (List.mem_cons_of_mem c hcs))]

/-- Reading keeps every word without line ends where it was. -/
theorem prefix_universalNewlines {word file : Text} (hr : '\r' ∉ word) (h : word <+: file) :
    word <+: universalNewlines file := by
  induction word generalizing file with
  | nil => exact List.nil_prefix
  | cons a word ih =>
    obtain ⟨rest, rfl⟩ := h
    have ha : a ≠ '\r' := fun ha => hr (by simp [ha])
    rw [List.cons_append, universalNewlines_cons ha]
    exact List.cons_prefix_cons.mpr
      ⟨rfl, ih (fun h => hr (List.mem_cons_of_mem a h)) (List.prefix_append word rest)⟩

theorem eq_nil_of_prefix_cons {word cs : Text} {c : Char} (hc : c ∉ word)
    (h : word <+: c :: cs) : word = [] := by
  cases word with
  | nil => rfl
  | cons a word =>
    have hac := (List.cons_prefix_cons.mp h).1
    exact absurd (by simp [hac]) hc

theorem infix_universalNewlines {word file : Text} (hr : '\r' ∉ word) (hn : '\n' ∉ word)
    (h : word <:+: file) : word <:+: universalNewlines file := by
  fun_induction universalNewlines file with
  | case1 cs ih =>
    rcases List.infix_cons_iff.mp h with hp | h
    · simp [eq_nil_of_prefix_cons hr hp]
    · rcases List.infix_cons_iff.mp h with hp | h
      · simp [eq_nil_of_prefix_cons hn hp]
      · exact List.infix_cons (ih h)
  | case2 cs _ ih =>
    rcases List.infix_cons_iff.mp h with hp | h
    · simp [eq_nil_of_prefix_cons hr hp]
    · exact List.infix_cons (ih h)
  | case3 c cs _ hc ih =>
    rcases List.infix_cons_iff.mp h with hp | h
    · have hread := (prefix_universalNewlines hr hp).isInfix
      rwa [universalNewlines_cons hc] at hread
    · exact List.infix_cons (ih h)
  | case4 => exact h

/-- The searched text is absent from a file as it is read, and so as it is stored. -/
def Absent (word file : Text) : Prop := ¬ word <:+: universalNewlines file

theorem Edit.absent_stored (e : Edit) {file : Text} (h : Absent e.old file) :
    ¬ e.old <:+: file :=
  fun hi => h (infix_universalNewlines e.final.oneLine.1 e.final.oneLine.2 hi)

theorem applyEdit_of_absent (e : Edit) {file : Text} (h : Absent e.old file) :
    applyEdit e file = (file, e.skip (universalNewlines file)) := by
  have hc : ¬ e.old <:+: universalNewlines file := h
  simp [applyEdit, hc]

/-- Whatever the file held, one pass leaves nothing for the next one to find. -/
theorem absent_applyEdit (e : Edit) (file : Text) : Absent e.old (applyEdit e file).1 := by
  by_cases h : Absent e.old file
  · rw [applyEdit_of_absent e h]
    exact h
  · have hread : e.old <:+: universalNewlines file := not_not.mp h
    have hnone : '\r' ∉ replaceAll e.old e.new (universalNewlines file) := by
      intro hr
      rcases mem_replaceAll hr with hr | hr
      · exact e.final.noReturn hr
      · exact return_not_mem_universalNewlines file hr
    simp only [applyEdit, hread, if_true, Absent, universalNewlines_of_not_mem hnone]
    exact not_infix_replaceAll e.final.separated _

theorem applyEdit_idem (e : Edit) (file : Text) :
    (applyEdit e (applyEdit e file).1).1 = (applyEdit e file).1 := by
  rw [applyEdit_of_absent e (absent_applyEdit e file)]

/-- A pass changes a file exactly when it finds its text there. -/
theorem applyEdit_eq_self_iff (e : Edit) (file : Text) :
    (applyEdit e file).1 = file ↔ Absent e.old file := by
  constructor
  · intro h
    rw [← h]
    exact absent_applyEdit e file
  · intro h
    rw [applyEdit_of_absent e h]

theorem typeTraitsEdit_old : typeTraitsEdit.old = typeTraitsOld := by rw [typeTraitsEdit]

theorem metaEdit_old : metaEdit.old = metaOld := by rw [metaEdit]

theorem runs_zero (t : Tree) : runs 0 t = t := rfl

theorem runs_succ (n : Nat) (t : Tree) : runs (n + 1) t = (runScript (runs n t)).1 :=
  Function.iterate_succ_apply' _ n t

theorem headers_runScript (t : Tree) :
    headers (runScript t).1 =
      ((applyEdit typeTraitsEdit t.typeTraitsHpp).1, (applyEdit metaEdit t.metaHpp).1) := by
  simp only [headers, runScript, backup, patchTypeTraits, patchMeta]

/-- The copies hold what the live headers held before the last run. -/
theorem headers_restore_runScript (t : Tree) :
    headers (restore (runScript t).1) = headers t := by
  simp only [headers, restore, runScript, backup, Option.getD_some]

theorem runs_one (t : Tree) :
    (runs 1 t).typeTraitsHpp = (applyEdit typeTraitsEdit t.typeTraitsHpp).1 ∧
    (runs 1 t).metaHpp = (applyEdit metaEdit t.metaHpp).1 := by
  have h := headers_runScript t
  rw [← runs_zero t, ← runs_succ] at h
  exact Prod.mk.inj h

/-- A further run finds nothing in either header. -/
theorem headers_runs_succ (n : Nat) (t : Tree) : headers (runs (n + 1) t) = headers (runs 1 t) := by
  induction n with
  | zero => rfl
  | succ n ih =>
    have hlive := Prod.mk.inj ih
    obtain ⟨htraits, hmeta⟩ := runs_one t
    rw [runs_succ, headers_runScript, hlive.1, hlive.2, headers, htraits, hmeta,
      applyEdit_idem, applyEdit_idem]

/-- From the first run on the two live headers stay as they are, and neither of them
holds its searched text, whether the file is looked at as stored or as read. -/
theorem rerun_keeps_headers (t : Tree) (n : Nat) :
    headers (runs (n + 1) t) = headers (runs 1 t) ∧
    (Absent typeTraitsOld (runs 1 t).typeTraitsHpp ∧ Absent metaOld (runs 1 t).metaHpp) ∧
    ¬ typeTraitsOld <:+: (runs 1 t).typeTraitsHpp ∧ ¬ metaOld <:+: (runs 1 t).metaHpp := by
  obtain ⟨htraits, hmeta⟩ := runs_one t
  have hreadTraits := absent_applyEdit typeTraitsEdit t.typeTraitsHpp
  have hreadMeta := absent_applyEdit metaEdit t.metaHpp
  have hstoredTraits := typeTraitsEdit.absent_stored hreadTraits
  have hstoredMeta := metaEdit.absent_stored hreadMeta
  rw [← htraits, typeTraitsEdit_old] at hreadTraits hstoredTraits
  rw [← hmeta, metaEdit_old] at hreadMeta hstoredMeta
  exact ⟨headers_runs_succ n t, ⟨hreadTraits, hreadMeta⟩, hstoredTraits, hstoredMeta⟩

theorem headers_restore_runs_succ (n : Nat) (t : Tree) :
    headers (restore (runs (n + 1) t)) = headers (runs n t) := by
  rw [runs_succ, headers_restore_runScript]

/-- One run keeps both headers exactly when it has nothing to replace in either. -/
theorem headers_runs_one_iff (t : Tree) :
    headers (runs 1 t) = headers t ↔
      Absent typeTraitsOld t.typeTraitsHpp ∧ Absent metaOld t.metaHpp := by
  obtain ⟨htraits, hmeta⟩ := runs_one t
  rw [headers, headers, htraits, hmeta, Prod.mk.injEq, applyEdit_eq_self_iff,
    applyEdit_eq_self_iff, typeTraitsEdit_old, metaEdit_old]

/-- A header that is nothing but the searched line. -/
def unpatched : Tree := ⟨typeTraitsOld, [], none, none⟩

/-- The second run copies the patched header over the copy of the original one. -/
theorem second_backup_overwrites :
    ¬ ∀ (t : Tree) (n : Nat), 1 ≤ n → headers (restore (runs n t)) = headers t := by
  intro h
  have htwice := h unpatched 2 (by decide)
  rw [headers_restore_runs_succ, headers_runs_one_iff] at htwice
  have hread : typeTraitsOld <:+: universalNewlines typeTraitsOld :=
    infix_universalNewlines typeTraits_final.oneLine.1 typeTraits_final.oneLine.2 List.infix_rfl
  exact htwice.1 hread

/-- The copies restore the two headers after one run, and after more runs only if the
first one had nothing to replace. -/
theorem backup_restores_iff (t : Tree) (n : Nat) :
    headers (restore (runs (n + 1) t)) = headers t ↔
      n = 0 ∨ (Absent typeTraitsOld t.typeTraitsHpp ∧ Absent metaOld t.metaHpp) := by
  rw [headers_restore_runs_succ]
  cases n with
  | zero => simp [runs_zero]
  | succ n => simp [headers_runs_succ, headers_runs_one_iff]

end PatchScript
