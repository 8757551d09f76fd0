import KeyLeak.EvenShare
import KeyLeak.PoolRest

/-!
# A bulk operation on the pool

`bulk_task` takes its share by the index that the pool passes to `__execute`, and the tasks of
one bulk operation are otherwise alike. So the pool has to run every task once and with the index
of the queue it went to.
-/
namespace Pool

open Runs EvenShare RunPlugin

variable {T : Nat} {σ : Type}

variable [DecidableEq σ] {numaNode : Fin T → Int}

end Pool
