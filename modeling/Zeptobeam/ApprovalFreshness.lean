/-
Which submission a decision that is taken comes from.  A run is looked at by positions: every
decision has been submitted at one, and what has happened at the positions since says whether
it is fresh, and that it was not taken before.
-/
import Zeptobeam.ApprovalGate
import Zeptobeam.Lib.GuardedRun
import Zeptobeam.Lib.PastTime

namespace Zeptobeam

inductive ApprovalCall where
  | request (orchId taskId message : String) (task : Json)
  | submit (orchId taskId : String) (decision : ApprovalDecision)
  | take (orchId taskId : String)

namespace ApprovalRegistry

def step (registry : ApprovalRegistry) : ApprovalCall → ApprovalRegistry
  | .request orchId taskId message task => registry.requestApproval orchId taskId message task
  | .submit orchId taskId decision => (registry.submitDecision orchId taskId decision).2
  | .take orchId taskId => (registry.takeDecision orchId taskId).2

/-- The registry that the call at a position meets. -/
def before (calls : List ApprovalCall) (i : Nat) : ApprovalRegistry :=
  (calls.take i).foldl step new

/-! ## What happens at a position -/

def Requests (calls : List ApprovalCall) (key : String × String) (i : Nat) : Prop :=
  ∃ message task, calls[i]? = some (.request key.1 key.2 message task)

/-- A decision is submitted and accepted. -/
def Submits (calls : List ApprovalCall) (key : String × String) (decision : ApprovalDecision)
    (i : Nat) : Prop :=
  calls[i]? = some (.submit key.1 key.2 decision) ∧
    ((before calls i).submitDecision key.1 key.2 decision).1 = true

/-- A decision is returned. -/
def Takes (calls : List ApprovalCall) (key : String × String) (decision : ApprovalDecision)
    (i : Nat) : Prop :=
  calls[i]? = some (.take key.1 key.2) ∧
    ((before calls i).takeDecision key.1 key.2).1 = some decision

/-- Every decision that is returned was submitted after the latest request for its key, and no
submission is returned twice. -/
def FreshAndSingleUse (calls : List ApprovalCall) : Prop :=
  ∃ source : Nat → Nat,
    (∀ key decision i, Takes calls key decision i →
      source i < i ∧ Submits calls key decision (source i) ∧
        ∀ l, source i < l → l < i → ¬ Requests calls key l) ∧
    ∀ key decision key' decision' i i', Takes calls key decision i →
      Takes calls key' decision' i' → source i = source i' → i = i'

/-- Not a take while the key's request waits for a decision and an older decision is there. -/
def Settled (registry : ApprovalRegistry) : ApprovalCall → Prop
  | .take orchId taskId =>
      ¬ ((orchId, taskId) ∈ registry.pending ∧ (orchId, taskId) ∈ registry.decisions)
  | _ => True

/-! ## One call -/

section Calls

variable {registry : ApprovalRegistry} {orchId taskId : String} {key : String × String}
  {decision : ApprovalDecision}

theorem mem_pending_requestApproval {message : String} {task : Json} :
    key ∈ (registry.requestApproval orchId taskId message task).pending ↔
      key = (orchId, taskId) ∨ key ∈ registry.pending := by
  rw [requestApproval, AList.mem_insert]

theorem submitDecision_fst :
    (registry.submitDecision orchId taskId decision).1 = true ↔
      (orchId, taskId) ∈ registry.pending := by
  rw [submitDecision, ← AList.lookup_isSome]
  cases registry.pending.lookup (orchId, taskId) <;> simp

theorem mem_pending_submitDecision :
    key ∈ (registry.submitDecision orchId taskId decision).2.pending ↔
      key ≠ (orchId, taskId) ∧ key ∈ registry.pending := by
  rw [submitDecision]
  cases hfound : registry.pending.lookup (orchId, taskId) with
  | none =>
      have habsent := AList.lookup_eq_none.mp hfound
      refine ⟨fun hmem => ⟨?_, hmem⟩, fun h => h.2⟩
      rintro rfl
      exact habsent hmem
  | some request => exact AList.mem_erase

theorem lookup_submitDecision :
    (registry.submitDecision orchId taskId decision).2.decisions.lookup key =
      if key = (orchId, taskId) ∧ (orchId, taskId) ∈ registry.pending then some decision
      else registry.decisions.lookup key := by
  rw [submitDecision]
  cases hfound : registry.pending.lookup (orchId, taskId) with
  | none =>
      have habsent := AList.lookup_eq_none.mp hfound
      rw [if_neg fun h => habsent h.2]
  | some request =>
      have hmem : (orchId, taskId) ∈ registry.pending := by
        rw [← AList.lookup_isSome, hfound]
        rfl
      by_cases hkey : key = (orchId, taskId)
      · rw [if_pos ⟨hkey, hmem⟩, hkey]
        exact AList.lookup_insert registry.decisions
      · rw [if_neg fun h => hkey h.1]
        exact AList.lookup_insert_ne hkey

theorem lookup_takeDecision :
    (registry.takeDecision orchId taskId).2.decisions.lookup key =
      if key = (orchId, taskId) then none else registry.decisions.lookup key := by
  by_cases hkey : key = (orchId, taskId)
  · rw [if_pos hkey, hkey]
    exact AList.lookup_erase _ _
  · rw [if_neg hkey]
    exact AList.lookup_erase_ne hkey

end Calls

/-! ## One position -/

variable {calls : List ApprovalCall} {key : String × String} {decision : ApprovalDecision}
  {i : Nat}

theorem before_succ {call : ApprovalCall} (hcall : calls[i]? = some call) :
    before calls (i + 1) = (before calls i).step call := by
  rw [before, List.take_add_one, hcall, List.foldl_append]
  rfl

theorem before_succ_of_none (hnone : calls[i]? = none) :
    before calls (i + 1) = before calls i := by
  rw [before, List.take_add_one, hnone]
  simp [before]

theorem submit_eq_iff {orchId taskId : String} {other : ApprovalDecision} :
    ApprovalCall.submit orchId taskId other = .submit key.1 key.2 decision ↔
      key = (orchId, taskId) ∧ other = decision := by
  rw [ApprovalCall.submit.injEq, Prod.ext_iff, and_assoc, eq_comm, @eq_comm _ taskId]

theorem take_eq_iff {orchId taskId : String} :
    ApprovalCall.take orchId taskId = .take key.1 key.2 ↔ key = (orchId, taskId) := by
  rw [ApprovalCall.take.injEq, Prod.ext_iff, eq_comm, @eq_comm _ taskId]

theorem submits_iff : Submits calls key decision i ↔
    calls[i]? = some (.submit key.1 key.2 decision) ∧ key ∈ (before calls i).pending :=
  and_congr_right fun _ => submitDecision_fst

/-- A request waits from when it was made until a decision is accepted. -/
theorem pending_succ (calls : List ApprovalCall) (key : String × String) (i : Nat) :
    key ∈ (before calls (i + 1)).pending ↔
      Requests calls key i ∨ (key ∈ (before calls i).pending ∧
        ¬ ∃ decision, Submits calls key decision i) := by
  simp only [submits_iff, Requests]
  cases hcall : calls[i]? with
  | none =>
      rw [before_succ_of_none hcall]
      simp
  | some call =>
      rw [before_succ hcall]
      cases call with
      | request orchId taskId message task =>
          rw [step, mem_pending_requestApproval]
          simp [Prod.ext_iff, eq_comm]
      | submit orchId taskId decision =>
          rw [step, mem_pending_submitDecision]
          simp only [Option.some.injEq, reduceCtorEq, exists_false, false_or, submit_eq_iff]
          by_cases hkey : key = (orchId, taskId)
          · simp [hkey]
          · simp [hkey]
      | take orchId taskId => simp [step, takeDecision]

/-- A decision is there from when it was accepted until another one is, or it is taken. -/
theorem decisions_succ (calls : List ApprovalCall) (key : String × String)
    (decision : ApprovalDecision) (i : Nat) :
    (before calls (i + 1)).decisions.lookup key = some decision ↔
      Submits calls key decision i ∨ ((before calls i).decisions.lookup key = some decision ∧
        ¬ ((∃ other, Submits calls key other i) ∨ calls[i]? = some (.take key.1 key.2))) := by
  simp only [submits_iff]
  cases hcall : calls[i]? with
  | none =>
      rw [before_succ_of_none hcall]
      simp
  | some call =>
      rw [before_succ hcall]
      cases call with
      | request orchId taskId message task => simp [step, requestApproval]
      | submit orchId taskId other =>
          rw [step, lookup_submitDecision]
          simp only [Option.some.injEq, reduceCtorEq, or_false, submit_eq_iff]
          by_cases hkey : key = (orchId, taskId)
          · by_cases hwaits : (orchId, taskId) ∈ (before calls i).pending
            · simp [hkey, hwaits]
            · simp [hkey, hwaits]
          · simp [hkey]
      | take orchId taskId =>
          rw [step, lookup_takeDecision]
          simp only [Option.some.injEq, take_eq_iff]
          by_cases hkey : key = (orchId, taskId)
          · simp [hkey]
          · simp [hkey]

/-! ## Runs -/

theorem pending_iff_since (calls : List ApprovalCall) (key : String × String) (i : Nat) :
    key ∈ (before calls i).pending ↔
      PastTime.Since (Requests calls key) (fun j => ∃ decision, Submits calls key decision j)
        i := by
  have hzero : key ∉ (before calls 0).pending := AList.notMem_empty key
  exact PastTime.iff_since (fun i => key ∈ (before calls i).pending) hzero
    (pending_succ calls key) i

theorem decisions_iff_since (calls : List ApprovalCall) (key : String × String)
    (decision : ApprovalDecision) (i : Nat) :
    (before calls i).decisions.lookup key = some decision ↔
      PastTime.Since (Submits calls key decision) (fun j =>
        (∃ other, Submits calls key other j) ∨ calls[j]? = some (.take key.1 key.2)) i := by
  have hzero : ¬ (before calls 0).decisions.lookup key = some decision := by
    have hnone : (before calls 0).decisions.lookup key = none := AList.lookup_empty key
    simp [hnone]
  exact PastTime.iff_since
    (fun i => (before calls i).decisions.lookup key = some decision) hzero
    (decisions_succ calls key decision) i

/-- A decision that is taken was submitted, and not taken since; when no request waits, it was
submitted after every request. -/
theorem source_of_takes (htakes : Takes calls key decision i) :
    ∃ j, j < i ∧ Submits calls key decision j ∧
      (∀ l, j < l → l < i → calls[l]? ≠ some (.take key.1 key.2)) ∧
      (key ∉ (before calls i).pending → ∀ l, j < l → l < i → ¬ Requests calls key l) := by
  obtain ⟨j, hji, hsubmits, hsince⟩ := (decisions_iff_since calls key decision i).mp htakes.2
  refine ⟨j, hji, hsubmits, fun l hjl hli htake => hsince l hjl hli (.inr htake), ?_⟩
  intro hsettled l hjl hli hrequests
  apply hsettled
  apply (pending_iff_since calls key i).mpr
  refine ⟨l, hli, hrequests, fun m hlm hmi hsubmitted => ?_⟩
  exact hsince m (hjl.trans hlm) hmi (.inl hsubmitted)

/-- A decision that is taken while a request waits is older than the request. -/
theorem no_source_of_pending (hpending : key ∈ (before calls i).pending) {j : Nat}
    (hji : j < i) (hsubmits : Submits calls key decision j) :
    ∃ l, j < l ∧ l < i ∧ Requests calls key l := by
  obtain ⟨l, hli, hrequests, hsince⟩ := (pending_iff_since calls key i).mp hpending
  refine ⟨l, ?_, hli, hrequests⟩
  rcases Nat.lt_trichotomy j l with hlt | rfl | hgt
  · exact hlt
  · obtain ⟨message, task, hcall⟩ := hrequests
    rw [hsubmits.1] at hcall
    cases hcall
  · exact absurd ⟨decision, hsubmits⟩ (hsince j hgt hji)

/-- Two takes of one submission are the same take. -/
theorem takes_unique {key' : String × String} {decision' : ApprovalDecision} {i' j : Nat}
    (htakes : Takes calls key decision i) (htakes' : Takes calls key' decision' i')
    (hsubmits : Submits calls key decision j) (hsubmits' : Submits calls key' decision' j)
    (hj : j < i) (hj' : j < i')
    (honce : ∀ l, j < l → l < i → calls[l]? ≠ some (.take key.1 key.2))
    (honce' : ∀ l, j < l → l < i' → calls[l]? ≠ some (.take key'.1 key'.2)) : i = i' := by
  obtain ⟨rfl, -⟩ : key = key' ∧ decision = decision' := by
    have hcall := hsubmits.1.symm.trans hsubmits'.1
    simp only [Option.some.injEq, ApprovalCall.submit.injEq] at hcall
    exact ⟨Prod.ext hcall.1 hcall.2.1, hcall.2.2⟩
  rcases Nat.lt_trichotomy i i' with hlt | heq | hgt
  · exact absurd htakes.1 (honce' i hj hlt)
  · exact heq
  · exact absurd htakes'.1 (honce i' hj' hgt)

theorem Takes.unique {key' : String × String} {decision' : ApprovalDecision}
    (htakes : Takes calls key decision i) (htakes' : Takes calls key' decision' i) :
    key' = key ∧ decision' = decision := by
  have hcall := htakes'.1.symm.trans htakes.1
  simp only [Option.some.injEq, ApprovalCall.take.injEq] at hcall
  obtain rfl : key' = key := Prod.ext hcall.1 hcall.2
  exact ⟨rfl, Option.some.inj (htakes'.2.symm.trans htakes.2)⟩

/-- Every take has a submission of its own. -/
theorem exists_source (calls : List ApprovalCall) : ∃ source : Nat → Nat,
    (∀ key decision i, Takes calls key decision i →
      source i < i ∧ Submits calls key decision (source i) ∧
        (key ∉ (before calls i).pending →
          ∀ l, source i < l → l < i → ¬ Requests calls key l)) ∧
    ∀ key decision key' decision' i i', Takes calls key decision i →
      Takes calls key' decision' i' → source i = source i' → i = i' := by
  have hsource : ∀ i, ∃ j, ∀ key decision, Takes calls key decision i →
      j < i ∧ Submits calls key decision j ∧
        (∀ l, j < l → l < i → calls[l]? ≠ some (.take key.1 key.2)) ∧
        (key ∉ (before calls i).pending → ∀ l, j < l → l < i → ¬ Requests calls key l) := by
    intro i
    by_cases htaken : ∃ key decision, Takes calls key decision i
    · obtain ⟨key, decision, htakes⟩ := htaken
      obtain ⟨j, hj⟩ := source_of_takes htakes
      refine ⟨j, fun key' decision' htakes' => ?_⟩
      obtain ⟨rfl, rfl⟩ := htakes.unique htakes'
      exact hj
    · exact ⟨0, fun key decision htakes => absurd ⟨key, decision, htakes⟩ htaken⟩
  choose source hall using hsource
  refine ⟨source, fun key decision i htakes => ?_, ?_⟩
  · obtain ⟨hlt, hsubmits, -, hfresh⟩ := hall i key decision htakes
    exact ⟨hlt, hsubmits, hfresh⟩
  · intro key decision key' decision' i i' htakes htakes' hsame
    obtain ⟨hlt, hsubmits, honce, -⟩ := hall i key decision htakes
    obtain ⟨hlt', hsubmits', honce', -⟩ := hall i' key' decision' htakes'
    rw [← hsame] at hlt' hsubmits' honce'
    exact takes_unique htakes htakes' hsubmits hsubmits' hlt hlt' honce honce'

/-- In every run of calls on any keys, the decisions taken are fresh and single-use exactly if
none is taken while a request for its key waits. -/
theorem freshAndSingleUse_iff (calls : List ApprovalCall) :
    FreshAndSingleUse calls ↔ GuardedRun.Guarded step Settled new calls := by
  rw [GuardedRun.guarded_iff_getElem?]
  constructor
  · rintro ⟨source, hsource, -⟩ i call hcall
    cases call with
    | request orchId taskId message task => trivial
    | submit orchId taskId decision => trivial
    | take orchId taskId =>
        rintro ⟨hpending, hmem⟩
        obtain ⟨decision, hfound⟩ := Option.isSome_iff_exists.mp (AList.lookup_isSome.mpr hmem)
        obtain ⟨hlt, hsubmits, hfresh⟩ := hsource (orchId, taskId) decision i ⟨hcall, hfound⟩
        obtain ⟨l, hl, hli, hrequests⟩ := no_source_of_pending hpending hlt hsubmits
        exact hfresh l hl hli hrequests
  · intro hsettled
    obtain ⟨source, hsource, hunique⟩ := exists_source calls
    refine ⟨source, fun key decision i htakes => ?_, hunique⟩
    obtain ⟨hlt, hsubmits, hfresh⟩ := hsource key decision i htakes
    refine ⟨hlt, hsubmits, hfresh ?_⟩
    intro hpending
    apply hsettled i _ htakes.1
    refine ⟨hpending, AList.lookup_isSome.mp ?_⟩
    exact Option.isSome_iff_exists.mpr ⟨decision, htakes.2⟩

/-- A decision outlives the request it answered: asked again, the task has its approval. -/
theorem stale_decision_taken :
    ¬ FreshAndSingleUse [.request "o" "t" "" .null, .submit "o" "t" .approved,
      .request "o" "t" "" .null, .take "o" "t"] := by
  rintro ⟨source, hsource, -⟩
  obtain ⟨hlt, hsubmits, hfresh⟩ := hsource ("o", "t") .approved 3 ⟨rfl, rfl⟩
  generalize source 3 = j at hlt hsubmits hfresh
  obtain rfl | rfl | rfl : j = 0 ∨ j = 1 ∨ j = 2 := by omega
  · cases hsubmits.1
  · exact hfresh 2 (by decide) (by decide) ⟨"", .null, rfl⟩
  · cases hsubmits.1

end ApprovalRegistry

end Zeptobeam
