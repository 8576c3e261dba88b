import CoEpoll.Transition.Machine
import CoEpoll.Transition.Tally
import CoEpoll.Transition.Census
import CoEpoll.Transition.LinkedChain
import CoEpoll.Utils.MpmcQueue
import CoEpoll.Utils.MpmcQueue.Chains
import CoEpoll.Utils.MpmcQueue.Steps
import CoEpoll.Utils.MpmcQueue.Transfers
import CoEpoll.Utils.MpmcQueue.Delivery
import CoEpoll.CoKernel.MuCore
import CoEpoll.CoKernel.MuCore.Exclusion
import CoEpoll.CoKernel.MuCore.HandOver
import CoEpoll.AFuture
import CoEpoll.AFuture.Continuation
import CoEpoll.CoKernel.MuCore.WrongUnlock
import CoEpoll.CoKernel.LoadOrder
import CoEpoll.CoKernel.LoadOrder.Balance
import CoEpoll.CoKernel.ICU
import CoEpoll.CoKernel.ICU.QueueInLoop
import CoEpoll.Bits.Mask
import CoEpoll.CoKernel.Irq.FileWQ
import CoEpoll.ASocket
import CoEpoll.CoKernel.ICU.EventLoop
import CoEpoll.CoKernel.ICU.Readiness
import CoEpoll.Serial.Turns
import CoEpoll.CoKernel.ICU.WriteOrder
import CoEpoll.CoKernel.FileAwaiter
import CoEpoll.CoKernel.FileAwaiter.Timeout
import CoEpoll.CoKernel.Registry
import CoEpoll.CoKernel.Registry.Owners
import CoEpoll.Conn.Buffer
import CoEpoll.Conn.Buffer.Contents
import CoEpoll.Conn.Buffer.Fifo
import CoEpoll.ASocket.Bookkeeping
import CoEpoll.Conn.Connection
import CoEpoll.EchoCtx
import CoEpoll.ASocket.Connect
import CoEpoll.CoKernel.Registry.Closing
import CoEpoll.CoKernel.Schedule
import CoEpoll.CoKernel.Schedule.NoStall
import CoEpoll.CoKernel.Irq.TimeWQ.Arming
import CoEpoll.Sock5Ctxt
import CoEpoll.Sock5Ctxt.Handlers
import CoEpoll.Sock5Ctxt.Refusal
import CoEpoll.Sock5Ctxt.Truthful
import CoEpoll.Sock5Ctxt.Splitting
import CoEpoll.ASocket.Send
import CoEpoll.Conn.Connection.Unsent
import CoEpoll.CoKernel.Irq.TimeWQ.Deadlines
import CoEpoll.ASocket.Callbacks
import CoEpoll.CoKernel.Irq.FileWQ.Walk
import CoEpoll.CoKernel.Irq.FileWQ.Ending
import CoEpoll.Sock5Ctxt.Decoding
import CoEpoll.Sock5Ctxt.Incomplete
import CoEpoll.Utils.MpmcQueue.Sequential
import CoEpoll.CoKernel.LoadOrder.Masks
import CoEpoll.CoKernel.LoadOrder.Slot
import CoEpoll.Conn.Connection.EndOfStream
import CoEpoll.Conn.Connection.Segments
import CoEpoll.CoRo.Generator
import CoEpoll.CoKernel.Registry.Requests
import CoEpoll.Assoc.Cells
import CoEpoll.CoRo.Lazy
import CoEpoll.CoRo.Lazy.Activities
import CoEpoll.CoRo.Lazy.Steps
import CoEpoll.CoRo.Lazy.Ownership
import CoEpoll.CoRo.Lazy.Refinement
import CoEpoll.CoKernel.Calls
import CoEpoll.CoKernel.Calls.Atomic
import CoEpoll.CoKernel.Calls.Progress
import CoEpoll.ASocket.Descriptors
import CoEpoll.Sock5Ctxt.Relay
import CoEpoll.AFuture.Delivery
import CoEpoll.CoKernel.TimeAwaiter
import CoEpoll.CoKernel.CompStarter
import CoEpoll.CoKernel.CompStarter.Shutdown
import CoEpoll.Conn.Acceptor
import CoEpoll.Sock5Ctxt.Connections
