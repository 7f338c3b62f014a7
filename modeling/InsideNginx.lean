import InsideNginx.Cycle.Descriptors
import InsideNginx.Cycle.OldCycles
import InsideNginx.Cycle.Reopen
import InsideNginx.Cycle.Rollback
import InsideNginx.Cycle.SharedMemory
import InsideNginx.EventTimer.Expiry
import InsideNginx.HttpUpstream.Busy
import InsideNginx.HttpUpstream.Credits
import InsideNginx.HttpUpstream.FirstProbe
import InsideNginx.HttpUpstream.Layout
import InsideNginx.HttpUpstream.LeastConnTies
import InsideNginx.HttpUpstream.Resolved
import InsideNginx.HttpUpstream.Revival
import InsideNginx.HttpUpstream.Sticky
import InsideNginx.HttpUpstream.WordTotals
import InsideNginx.Palloc.Cleanup
import InsideNginx.Palloc.Create
import InsideNginx.Palloc.Failures
import InsideNginx.Palloc.Handlers
import InsideNginx.Palloc.RoomTest
import InsideNginx.Process.Channels
import InsideNginx.Process.Children
import InsideNginx.Process.Live
import InsideNginx.Process.Messages
import InsideNginx.Process.Reload
import InsideNginx.Process.Status
import InsideNginx.Process.Escalation
import InsideNginx.Process.Voyage
import InsideNginx.Queue.Middle
import InsideNginx.Queue.Sort
import InsideNginx.Radix.Answers
import InsideNginx.Radix.Canonical
import InsideNginx.Radix.Carvings
import InsideNginx.Rbtree.LeftRotation
import InsideNginx.Rbtree.TimerInsert
import InsideNginx.Rbtree.Traverse
import InsideNginx.ThreadPool.Refusal
import InsideNginx.ThreadPool.Shutdown
import InsideNginx.ThreadPool.Start
import InsideNginx.Process.Working
import InsideNginx.Process.Inherited
import InsideNginx.Cycle.Handover
import InsideNginx.Cycle.Lineage
