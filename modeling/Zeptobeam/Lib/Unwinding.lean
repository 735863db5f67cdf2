/-
Noninterference by unwinding.  Some steps are hidden from an observer.  If a hidden step
leaves a state that agrees with the one before, and any other step gives states that agree
the same answer and keeps their agreement, then runs that differ in hidden steps only look
the same.
-/
import Zeptobeam.Lib.GuardedRun
import Mathlib.Data.List.Basic

namespace Unwinding

universe u v w

variable {S : Type u} {Op : Type v} {R : Type w}

/-- The operations of a run that are not hidden. -/
def purge (step : S → Op → S) (hidden : S → Op → Bool) : S → List Op → List Op
  | _, [] => []
  | s, op :: ops =>
      if hidden s op then purge step hidden (step s op) ops
      else op :: purge step hidden (step s op) ops

/-- The answers to them. -/
def observed (step : S → Op → S) (answer : S → Op → R) (hidden : S → Op → Bool) :
    S → List Op → List R
  | _, [] => []
  | s, op :: ops =>
      if hidden s op then observed step answer hidden (step s op) ops
      else answer s op :: observed step answer hidden (step s op) ops

/-- The unwinding conditions. -/
structure Unwinds (step : S → Op → S) (answer : S → Op → R) (hidden : S → Op → Bool)
    (Agree : S → S → Prop) : Prop where
  equivalence : Equivalence Agree
  hides : ∀ {s op}, hidden s op = true → Agree s (step s op)
  answers : ∀ {s s' op}, Agree s s' → hidden s op = false → answer s op = answer s' op
  keeps : ∀ {s s' op}, Agree s s' → hidden s op = false → Agree (step s op) (step s' op)

variable {step : S → Op → S} {answer : S → Op → R} {hidden : S → Op → Bool}
  {Agree : S → S → Prop}

/-- Up to the first operation that is seen, all are hidden. -/
theorem Unwinds.of_purge_cons (h : Unwinds step answer hidden Agree) {s : S} {op : Op}
    {ops seen : List Op} (hpurge : purge step hidden s ops = op :: seen) :
    ∃ t rest, Agree s t ∧ hidden t op = false ∧ purge step hidden (step t op) rest = seen ∧
      observed step answer hidden s ops =
        answer t op :: observed step answer hidden (step t op) rest ∧
      ops.foldl step s = rest.foldl step (step t op) := by
  induction ops generalizing s with
  | nil => simp [purge] at hpurge
  | cons first rest ih =>
      by_cases hfirst : hidden s first
      · simp only [purge, hfirst, if_true] at hpurge
        obtain ⟨t, others, hagree, ht, hseen, hobserved, hrun⟩ := ih hpurge
        refine ⟨t, others, h.equivalence.trans (h.hides hfirst) hagree, ht, hseen, ?_, hrun⟩
        simpa only [observed, hfirst, if_true] using hobserved
      · simp only [purge, hfirst, if_false, List.cons.injEq, Bool.false_eq_true] at hpurge
        obtain ⟨rfl, hseen⟩ := hpurge
        refine ⟨s, rest, h.equivalence.refl s, by simpa using hfirst, hseen, ?_, rfl⟩
        simp only [observed, hfirst, if_false, Bool.false_eq_true]

theorem Unwinds.of_purge_nil (h : Unwinds step answer hidden Agree) {s : S} {ops : List Op}
    (hpurge : purge step hidden s ops = []) :
    Agree s (ops.foldl step s) ∧ observed step answer hidden s ops = [] := by
  induction ops generalizing s with
  | nil => exact ⟨h.equivalence.refl s, rfl⟩
  | cons first rest ih =>
      by_cases hfirst : hidden s first
      · simp only [purge, hfirst, if_true] at hpurge
        obtain ⟨hagree, hobserved⟩ := ih hpurge
        refine ⟨h.equivalence.trans (h.hides hfirst) hagree, ?_⟩
        simpa only [observed, hfirst, if_true] using hobserved
      · simp [purge, hfirst] at hpurge

/-- Runs that differ in hidden operations only, from states that agree, are answered the
same and end in states that agree. -/
theorem Unwinds.observed_eq (h : Unwinds step answer hidden Agree) {s s' : S}
    (hagree : Agree s s') {ops ops' : List Op}
    (hpurge : purge step hidden s ops = purge step hidden s' ops') :
    observed step answer hidden s ops = observed step answer hidden s' ops' ∧
      Agree (ops.foldl step s) (ops'.foldl step s') := by
  have hkeep : ∀ (seen : List Op) {s s' : S} {ops ops' : List Op}, Agree s s' →
      purge step hidden s ops = seen → purge step hidden s' ops' = seen →
      observed step answer hidden s ops = observed step answer hidden s' ops' ∧
        Agree (ops.foldl step s) (ops'.foldl step s') := by
    intro seen
    induction seen with
    | nil =>
        intro s s' ops ops' hagree hops hops'
        obtain ⟨hlast, hnone⟩ := h.of_purge_nil hops
        obtain ⟨hlast', hnone'⟩ := h.of_purge_nil hops'
        refine ⟨hnone.trans hnone'.symm, ?_⟩
        exact h.equivalence.trans (h.equivalence.symm hlast)
          (h.equivalence.trans hagree hlast')
    | cons op seen ih =>
        intro s s' ops ops' hagree hops hops'
        obtain ⟨t, rest, ht, hshown, hrest, hobserved, hrun⟩ := h.of_purge_cons hops
        obtain ⟨t', rest', ht', _, hrest', hobserved', hrun'⟩ := h.of_purge_cons hops'
        have hboth : Agree t t' := h.equivalence.trans (h.equivalence.symm ht)
          (h.equivalence.trans hagree ht')
        have hanswer := h.answers hboth hshown
        obtain ⟨hsame, hend⟩ := ih (h.keeps hboth hshown) hrest hrest'
        rw [hobserved, hobserved', hrun, hrun', hanswer, hsame]
        exact ⟨rfl, hend⟩
  exact hkeep _ hagree hpurge rfl

/-! ## The purged run -/

/-- Everything that a run is answered, in order. -/
def allAnswers (step : S → Op → S) (answer : S → Op → List R) : S → List Op → List R
  | _, [] => []
  | s, op :: ops => answer s op ++ allAnswers step answer (step s op) ops

/-- Where hidden operations have no answer, the run without them is answered the same, and
ends in a state that agrees. -/
theorem Unwinds.purged {answer : S → Op → List R} (h : Unwinds step answer hidden Agree)
    (hsilent : ∀ {s op}, hidden s op = true → answer s op = []) {s s' : S}
    (hagree : Agree s s') (ops : List Op) :
    allAnswers step answer s ops = allAnswers step answer s' (purge step hidden s ops) ∧
      Agree (ops.foldl step s) ((purge step hidden s ops).foldl step s') := by
  induction ops generalizing s s' with
  | nil => exact ⟨rfl, hagree⟩
  | cons op rest ih =>
      cases hop : hidden s op with
      | true =>
          have hafter : Agree (step s op) s' :=
            h.equivalence.trans (h.equivalence.symm (h.hides hop)) hagree
          simp only [purge, hop, if_true, allAnswers, hsilent hop, List.nil_append,
            List.foldl_cons]
          exact ih hafter
      | false =>
          obtain ⟨hsame, hend⟩ := ih (h.keeps hagree hop)
          simp only [purge, hop, if_false, Bool.false_eq_true, allAnswers, List.foldl_cons,
            h.answers hagree hop, hsame]
          exact ⟨trivial, hend⟩

/-- When the operation alone decides in this run whether it is hidden. -/
theorem purge_eq_filter {shown : Op → Bool} {s : S} {ops : List Op}
    (h : GuardedRun.Guarded step (fun s op => hidden s op = !shown op) s ops) :
    purge step hidden s ops = ops.filter shown := by
  induction ops generalizing s with
  | nil => rfl
  | cons op rest ih =>
      have hop := h [] op (List.prefix_append [op] rest)
      have hrest : GuardedRun.Guarded step (fun s op => hidden s op = !shown op) (step s op)
          rest :=
        fun pre other hpre => h (op :: pre) other (List.cons_prefix_cons.mpr ⟨rfl, hpre⟩)
      rw [List.foldl_nil] at hop
      unfold purge
      rw [hop, ih hrest]
      cases hshown : shown op with
      | true => rw [List.filter_cons_of_pos hshown]; rfl
      | false => rw [List.filter_cons_of_neg (by simpa using hshown)]; rfl

end Unwinding
