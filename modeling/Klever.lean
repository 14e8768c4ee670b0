import Klever.Lib.Dict
import Klever.Lib.Run
import Klever.Lib.Except
import Klever.Lib.Loop
import Klever.Lib.Slice
import Klever.Lib.Booking
import Klever.Lib.Lts
import Klever.Lib.Goto
import Klever.Lib.Prune
import Klever.Lib.Nesting
import Klever.Lib.Antichain
import Klever.Lib.Merge
import Klever.Lib.Memo
import Klever.Scheduler.Accounting
import Klever.Scheduler.Deadlock
import Klever.Scheduler.Cores
import Klever.Scheduler.Speculative
import Klever.Scheduler.Pending
import Klever.Scheduler.Suitable
import Klever.Scheduler.Shrink
import Klever.Emg.Refinement
import Klever.Emg.Reloading
import Klever.Emg.Insmod
import Klever.Emg.LoadOrder
import Klever.Emg.Unused
import Klever.Emg.Signals
import Klever.Emg.WeakRequirements
import Klever.Emg.ModelNames
import Klever.Emg.Dependencies
import Klever.Emg.InstanceLimit
import Klever.Emg.InterfaceCache
import Klever.Emg.Headers
import Klever.Core.TotalCoverage
import Klever.Core.Watching
import Klever.Core.VtgLoop
import Klever.Core.Vrp
import Klever.Core.Weaver
import Klever.Core.QueueWorkers
import Klever.Core.Fragmentation
import Klever.Core.CoverageReports
import Klever.Bridge.Verdicts
import Klever.Bridge.Lightweight
import Klever.Bridge.Caches
import Klever.Bridge.Finish
import Klever.ErrorTrace.Orderly
import Klever.Core.Selection
