import Exios.Base.Cursor
import Exios.Base.Search
import Exios.Base.Transition
import Exios.Base.Component
import Exios.Base.Response
import Exios.Base.Loop
import Exios.Base.Ring
import Exios.Base.Iterator
import Exios.Base.Placement
import Exios.Base.Tokens
import Exios.Base.Bytes
import Exios.Base.Integral
import Exios.Base.Chrono
import Exios.Contracts
import Exios.IntrusiveList
import Exios.IntrusiveList.Heap
import Exios.IntrusiveList.Calls
import Exios.IntrusiveList.SameList
import Exios.IntrusiveList.Moves
import Exios.Operation
import Exios.Result
import Exios.FileDescriptor
import Exios.Scheduler.Basic
import Exios.Scheduler.Sections
import Exios.Scheduler.Polling
import Exios.Scheduler.Runs
import Exios.Scheduler.Cancellation
import Exios.Scheduler.Attempts
import Exios.Scheduler.Interest
import Exios.Scheduler.Registrations
import Exios.Scheduler.Reference
import Exios.Scheduler.Ordering
import Exios.Scheduler.Readiness
import Exios.Scheduler.Commuting
import Exios.Context.Basic
import Exios.Context.Steps
import Exios.Context.Results
import Exios.Context.Places
import Exios.Context.Linked
import Exios.Context.LinkedSections
import Exios.Context.LinkedPolling
import Exios.Context.LinkedSteps
import Exios.Context.Lives
import Exios.Context.Counts
import Exios.Context.Mutexes
import Exios.Context.MutexViews
import Exios.Context.Work
import Exios.Context.Accounting
import Exios.Context.Destruction
import Exios.Context.WakeUps
import Exios.Context.Sleepers
import Exios.Context.Blocking
import Exios.Context.Dispatch
import Exios.Context.StaleBatches
import Exios.Objects.Basic
import Exios.Objects.Steps
import Exios.Objects.Generations
import Exios.Objects.NonBlocking
import Exios.Objects.Event
import Exios.Objects.Stream
import Exios.Objects.Timer
import Exios.Objects.TimerWaits
import Exios.Context.Accepting
import Exios.Objects.Delivery
import Exios.Utils
import Exios.Addresses.Inet
import Exios.Addresses.Unix
import Exios.Context.Response
