import TrashDb.Lib.Lts
import TrashDb.Lib.Word
import TrashDb.Lib.Sum
import TrashDb.Lib.Prog
import TrashDb.Lib.Assoc
import TrashDb.Lib.Block
import TrashDb.Lib.ByteBlock
import TrashDb.Lib.Lend
import TrashDb.Lib.Fifo
import TrashDb.Lib.Ledger
import TrashDb.Lib.Handoff
import TrashDb.Lib.Tally
import TrashDb.Lib.WaitFor
import TrashDb.Lib.Reach
import TrashDb.Lib.Mutex
import TrashDb.Lib.FileSystem
import TrashDb.Lib.Tree
import TrashDb.Lib.Ring
import TrashDb.Lib.SingleWriter
import TrashDb.Il
import TrashDb.Il.Impl
import TrashDb.Il.Lemmas.Refine
import TrashDb.Il.Lemmas.Lists
import TrashDb.Il.Lemmas.Rotate
import TrashDb.Utilities.Impl
import TrashDb.Utilities.Lemmas.Mkdir
import TrashDb.Utilities.Lemmas.Filename
import TrashDb.Message.Impl
import TrashDb.Message.Lemmas.Bounds
import TrashDb.Message.Lemmas.Fifo
import TrashDb.Message.Lemmas.Growth
import TrashDb.Pool.Basic
import TrashDb.Pool.Impl
import TrashDb.Pool.Step
import TrashDb.Pool.Lemmas.Locks
import TrashDb.Pool.Lemmas.Manager
import TrashDb.Pool.Lemmas.Groups
import TrashDb.Pool.Lemmas.Linked
import TrashDb.Pool.Lemmas.Budget
import TrashDb.Pool.Lemmas.Threads
import TrashDb.Pool.Lemmas.Drain
import TrashDb.Pool.Lemmas.Works
import TrashDb.Pool.Lemmas.Once
import TrashDb.Pool.Lemmas.Refuse
import TrashDb.Pool.Lemmas.Wait
import TrashDb.Pool.Lemmas.GroupLocks
import TrashDb.Pool.Lemmas.Lists
import TrashDb.Pool.Lemmas.Order
import TrashDb.Pool.Lemmas.Table
import TrashDb.Pool.Lemmas.Joins
import TrashDb.Pool.Lemmas.Wakes
import TrashDb.Pool.Lemmas.Shutdown
import TrashDb.Pool.Lemmas.Running
import TrashDb.Pool.Nest
import TrashDb.Pool.Worker
import TrashDb.Pool.Lemmas.Loop
import TrashDb.Pool.Watch
import TrashDb.Pool.Lemmas.Handshake
import TrashDb.Pool.Lemmas.Accounting
import TrashDb.Pool.Lemmas.Deadlock
import TrashDb.Pool.Lemmas.SelfBlock
import TrashDb.Pool.Lemmas.Progress
import TrashDb.Pool.Lemmas.Destroy
import TrashDb.Pool.Lemmas.Calls
import TrashDb.Pool.Lemmas.Waiting
import TrashDb.Db.Basic
import TrashDb.Db.Lmdb
import TrashDb.Db.Impl
import TrashDb.Db.Lemmas.Run
import TrashDb.Db.Lemmas.Frame
import TrashDb.Db.Lemmas.Record
import TrashDb.Db.Lemmas.Count
import TrashDb.Db.Lemmas.Alike
import TrashDb.Db.Lemmas.Handles
import TrashDb.Db.Lemmas.Similar
import TrashDb.Db.Lemmas.OpenEnv
import TrashDb.Db.Lemmas.Begin
import TrashDb.Db.Lemmas.Discipline
import TrashDb.Db.Lemmas.Writes
import TrashDb.Db.Lemmas.Registry
import TrashDb.Db.Lemmas.Scan
import TrashDb.Db.Lemmas.Readers
import TrashDb.Db.Lemmas.Neutral
import TrashDb.Db.Lemmas.Cursors
import TrashDb.Db.Lemmas.Keys
import TrashDb.Db.Lemmas.Effects
import TrashDb.Db.Lemmas.Sound
import TrashDb.Db.Lemmas.Persist
import TrashDb.Db.Lemmas.Backed
import TrashDb.Db.Lemmas.Closed
import TrashDb.Db.Lemmas.Isolation
import TrashDb.Db.Lemmas.Snapshot
import TrashDb.Db.Lemmas.Store
import TrashDb.Db.Lemmas.Catalog
import TrashDb.Db.Directory
import TrashDb.Db.Lemmas.Directory
import TrashDb.Cook.Impl
import TrashDb.Cook.Lemmas.RoundRobin
import TrashDb.Logger.Impl
import TrashDb.Logger.Step
import TrashDb.Logger.Lemmas.Mutex
import TrashDb.Logger.Lemmas.Complete
import TrashDb.Logger.Lemmas.Wakeup
import TrashDb.Logger.Lemmas.Progress
import TrashDb.Logger.Lemmas.Discipline
import TrashDb.Buffy.Impl
import TrashDb.Buffy.Lemmas.Framing
import TrashDb.Buffy.Lemmas.Window
import TrashDb.Buffy.Send
import TrashDb.Buffy.Lemmas.Send
import TrashDb.Server.Impl
import TrashDb.Server.Lemmas.Candidates
import TrashDb.Server.Unix
import TrashDb.Server.Lemmas.Unix
import TrashDb.Server.Listen
import TrashDb.Server.Lemmas.Descriptors
