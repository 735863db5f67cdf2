/-
The approval registry: requests that wait for a decision, and decisions that wait to be
taken.  When a request was made is not read anywhere and left out.
-/
import Zeptobeam.Types
import Mathlib.Data.List.AList

namespace Zeptobeam

structure ApprovalRequest where
  message : String
  task : Json
deriving DecidableEq

inductive ApprovalDecision where
  | approved
  | rejected (reason : String)
deriving DecidableEq, Repr

/-- Both maps go by orchestrator and task. -/
structure ApprovalRegistry where
  pending : AList fun _ : String × String => ApprovalRequest
  decisions : AList fun _ : String × String => ApprovalDecision

namespace ApprovalRegistry

def new : ApprovalRegistry := ⟨∅, ∅⟩

def requestApproval (registry : ApprovalRegistry) (orchId taskId message : String)
    (task : Json) : ApprovalRegistry :=
  { registry with pending := registry.pending.insert (orchId, taskId) ⟨message, task⟩ }

def submitDecision (registry : ApprovalRegistry) (orchId taskId : String)
    (decision : ApprovalDecision) : Bool × ApprovalRegistry :=
  match registry.pending.lookup (orchId, taskId) with
  | none => (false, registry)
  | some _ =>
      (true,
        { pending := registry.pending.erase (orchId, taskId)
          decisions := registry.decisions.insert (orchId, taskId) decision })

def takeDecision (registry : ApprovalRegistry) (orchId taskId : String) :
    Option ApprovalDecision × ApprovalRegistry :=
  (registry.decisions.lookup (orchId, taskId),
    { registry with decisions := registry.decisions.erase (orchId, taskId) })

end ApprovalRegistry

def taskRequiresApproval (task : Json) : Bool :=
  ((task.get? "requires_approval").bind Json.toBool?).getD false

def approvalMessage (task : Json) : String :=
  ((task.get? "approval_message").bind Json.toString?).getD "Approval required"

end Zeptobeam
