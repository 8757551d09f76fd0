import KeyLeak.Lib.Runs
import KeyLeak.Lib.CInt
import KeyLeak.KeyTable
import KeyLeak.Probe
import KeyLeak.PluginKeys
import KeyLeak.PluginFini
import KeyLeak.PluginOwnership
import KeyLeak.Driver
import KeyLeak.DriverReport
import KeyLeak.CrashEstimate
import KeyLeak.FixMode
import KeyLeak.Lib.Workers
import KeyLeak.RunPlugin
import KeyLeak.TaskPath
import KeyLeak.Lib.Replace
import KeyLeak.PatchScript
import KeyLeak.CleanLib
import KeyLeak.CleanKeys
import KeyLeak.CleanBlocks
import KeyLeak.ReloadDriver
import KeyLeak.ReloadLibraries
import KeyLeak.EvenShare
import KeyLeak.BulkState
import KeyLeak.Lib.StealDeque
import KeyLeak.LifoBlock
import KeyLeak.LifoDeque
import KeyLeak.LifoSteps
import KeyLeak.LifoOnce
import KeyLeak.LifoWhole
import KeyLeak.Pool
import KeyLeak.PoolActive
import KeyLeak.PoolBulk
import KeyLeak.AtomicQueue
import KeyLeak.SyncWait
import KeyLeak.Lib.DoubleLink
import KeyLeak.LocalObjects
import KeyLeak.ThrowLib
