/-
Whose a message is.  A mailbox and the outbound queue hold bare messages; the trace knows
who handed each of them over.
-/
import Zeptobeam.Scheduler
import Zeptobeam.Lib.TaggedQueue

namespace Zeptobeam

open TaggedQueue

/-- What an event is to the outbound queue. -/
def Event.outboundStep : Event → Step (AgentPid × Message) Origin
  | .handed dest msg origin => .announce (dest, msg) origin
  | .put _ _ => .pass
  | .queuedOutbound dest msg => .enter (dest, msg)
  | .drainedOutbound _ _ => .leave true
  | _ => .other

/-- What an event is to the mailbox of a process. -/
def Event.mailboxStep (pid : AgentPid) : Event → Step (AgentPid × Message) Origin
  | .handed dest msg origin => .announce (dest, msg) origin
  | .put dest msg => if dest = pid then .enter (dest, msg) else .pass
  | .queuedOutbound _ _ => .pass
  | .direct dest msg delivered =>
      if dest = pid && delivered then .stray (dest, msg) else .other
  | .handled dest _ => if dest = pid then .leave true else .other
  | .discarded dest _ => if dest = pid then .leave false else .other
  | _ => .other

/-- The outbound queue with the origins of its messages. -/
def outboundBook (trace : List Event) : Book (AgentPid × Message) Origin :=
  .replay .scheduler (trace.map Event.outboundStep)

/-- The mailbox of a process with the origins of its messages. -/
def mailboxBook (pid : AgentPid) (trace : List Event) : Book (AgentPid × Message) Origin :=
  .replay .scheduler (trace.map (Event.mailboxStep pid))

/-- A Send action keeps its sender on the way to another partition. -/
def Origin.routedFrom (partition : Nat) : Origin → Origin
  | .action sender => .routed partition sender
  | _ => .scheduler

end Zeptobeam
