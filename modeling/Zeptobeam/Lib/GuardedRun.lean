/-
Runs of a step function over a list of operations.  An invariant is kept along a
run whose operations all meet a guard, a run of fallible steps refines a run of
total ones, and where every step that misses the guard breaks a property, the
guard is exactly what the property needs.
-/
import Mathlib.Data.List.Infix

namespace GuardedRun

universe u v w

variable {S : Type u} {Op : Type v} {E : Type u}

/-! ## Fallible steps -/

/-- Every operation that succeeds in the run meets the guard in the state it is
taken in. -/
def GuardedOk (step : S → Op → Except E S) (guard : S → Op → Prop) (start : S)
    (ops : List Op) : Prop :=
  ∀ pre op, pre ++ [op] <+: ops → ∀ s s', pre.foldlM step start = .ok s →
    step s op = .ok s' → guard s op

/-- The property holds in every state the run reaches. -/
def ThroughoutOk (step : S → Op → Except E S) (P : S → Prop) (start : S)
    (ops : List Op) : Prop :=
  ∀ pre, pre <+: ops → ∀ s, pre.foldlM step start = .ok s → P s

section Fallible

variable {step : S → Op → Except E S} {guard : S → Op → Prop} {Inv P : S → Prop}
  {start : S}

theorem foldlM_concat_eq_ok {ops : List Op} {op : Op} {s' : S} :
    (ops ++ [op]).foldlM step start = .ok s' ↔
      ∃ s, ops.foldlM step start = .ok s ∧ step s op = .ok s' := by
  rw [List.foldlM_append]
  cases hops : ops.foldlM step start with
  | error e => simp [bind, Except.bind]
  | ok s =>
      simp only [bind, Except.bind, List.foldlM_cons, List.foldlM_nil, Except.ok.injEq,
        exists_eq_left']
      cases hop : step s op with
      | error e => simp
      | ok s' => simp [pure, Except.pure]

theorem GuardedOk.shorten {pre ops : List Op} (hpre : pre <+: ops)
    (hguarded : GuardedOk step guard start ops) : GuardedOk step guard start pre := by
  intro first op hfirst
  exact hguarded first op (hfirst.trans hpre)

theorem GuardedOk.nil : GuardedOk step guard start [] := by
  intro pre op hpre
  exact absurd hpre (by simp)

theorem GuardedOk.cons {op : Op} {ops : List Op} (hop : guard start op)
    (hrest : ∀ s, step start op = .ok s → GuardedOk step guard s ops) :
    GuardedOk step guard start (op :: ops) := by
  intro pre other hpre s s' hs hs'
  cases pre with
  | nil =>
      obtain ⟨rfl, _⟩ := List.cons_prefix_cons.mp hpre
      obtain rfl : start = s := by simpa [pure, Except.pure] using hs
      exact hop
  | cons first pre =>
      obtain ⟨rfl, hshort⟩ := List.cons_prefix_cons.mp hpre
      rw [List.foldlM_cons] at hs
      cases hfirst : step start first with
      | error e => simp [hfirst, bind, Except.bind] at hs
      | ok next =>
          simp only [hfirst, bind, Except.bind] at hs
          exact hrest next hfirst pre other hshort s s' hs hs'

variable (Inv) in
/-- The run lemma: an invariant that guarded steps keep holds at the end of a
guarded run. -/
theorem invariant_of_guardedOk (hstart : Inv start)
    (hstep : ∀ s op s', Inv s → guard s op → step s op = .ok s' → Inv s')
    {ops : List Op} (hguarded : GuardedOk step guard start ops) {s : S}
    (hs : ops.foldlM step start = .ok s) : Inv s := by
  induction ops using List.reverseRecOn generalizing s with
  | nil =>
      obtain rfl : start = s := by simpa [pure, Except.pure] using hs
      exact hstart
  | append_singleton ops op ih =>
      obtain ⟨before, hbefore, hop⟩ := foldlM_concat_eq_ok.mp hs
      have hinv := ih (hguarded.shorten (List.prefix_append ops [op])) hbefore
      have hguard := hguarded ops op List.prefix_rfl before s hbefore hop
      exact hstep before op s hinv hguard hop

variable (guard P) in
/-- When the invariant implies the property, and every step off the guard breaks
it, the property holds throughout a run exactly when the run is guarded. -/
theorem throughoutOk_iff_guardedOk (hstart : Inv start)
    (hstep : ∀ s op s', Inv s → guard s op → step s op = .ok s' → Inv s')
    (hgood : ∀ s, Inv s → P s)
    (hbad : ∀ s op s', Inv s → ¬ guard s op → step s op = .ok s' → ¬ P s')
    (ops : List Op) :
    ThroughoutOk step P start ops ↔ GuardedOk step guard start ops := by
  constructor
  · intro hP
    induction ops using List.reverseRecOn with
    | nil =>
        intro pre op hpre
        exact absurd hpre (by simp)
    | append_singleton ops op ih =>
        have hops : GuardedOk step guard start ops := by
          apply ih
          intro pre hpre
          exact hP pre (hpre.trans (List.prefix_append ops [op]))
        intro pre other hpre s s' hs hs'
        rcases List.prefix_concat_iff.mp hpre with heq | hshort
        · obtain ⟨rfl, hop⟩ := List.append_inj' heq rfl
          obtain rfl : other = op := by simpa using hop
          by_contra hmiss
          have hinv := invariant_of_guardedOk Inv hstart hstep hops hs
          apply hbad s other s' hinv hmiss hs'
          exact hP _ List.prefix_rfl s' (foldlM_concat_eq_ok.mpr ⟨s, hs, hs'⟩)
        · exact hops pre other hshort s s' hs hs'
  · intro hguarded pre hpre s hs
    exact hgood s (invariant_of_guardedOk Inv hstart hstep (hguarded.shorten hpre) hs)

/-- Fallible steps that never fail on abstract states run like the abstract
steps. -/
theorem foldlM_refines {A : Type w} (concrete : A → S) (astep : A → Op → A)
    (hrefines : ∀ a op, step (concrete a) op = .ok (concrete (astep a op)))
    (ops : List Op) (a : A) :
    ops.foldlM step (concrete a) = .ok (concrete (ops.foldl astep a)) := by
  induction ops generalizing a with
  | nil => rfl
  | cons op ops ih =>
      rw [List.foldlM_cons, hrefines]
      exact ih (astep a op)

end Fallible

/-! ## Total steps -/

/-- Every operation of the run meets the guard in the state it is taken in. -/
def Guarded (step : S → Op → S) (guard : S → Op → Prop) (start : S)
    (ops : List Op) : Prop :=
  ∀ pre op, pre ++ [op] <+: ops → guard (pre.foldl step start) op

/-- The property holds in every state of the run. -/
def Throughout (step : S → Op → S) (P : S → Prop) (start : S) (ops : List Op) : Prop :=
  ∀ pre, pre <+: ops → P (pre.foldl step start)

section Total

variable {step : S → Op → S} {guard : S → Op → Prop} {Inv P : S → Prop} {start : S}

theorem Guarded.shorten {pre ops : List Op} (hpre : pre <+: ops)
    (hguarded : Guarded step guard start ops) : Guarded step guard start pre := by
  intro first op hfirst
  exact hguarded first op (hfirst.trans hpre)

theorem Guarded.nil : Guarded step guard start [] := by
  intro pre op hpre
  exact absurd hpre (by simp)

theorem Guarded.cons {op : Op} {ops : List Op} (hop : guard start op)
    (hrest : Guarded step guard (step start op) ops) :
    Guarded step guard start (op :: ops) := by
  intro pre other hpre
  cases pre with
  | nil =>
      obtain ⟨rfl, _⟩ := List.cons_prefix_cons.mp hpre
      exact hop
  | cons first pre =>
      obtain ⟨rfl, hshort⟩ := List.cons_prefix_cons.mp hpre
      exact hrest pre other hshort

theorem Guarded.head {op : Op} {ops : List Op}
    (hguarded : Guarded step guard start (op :: ops)) : guard start op :=
  hguarded [] op (List.cons_prefix_cons.mpr ⟨rfl, List.nil_prefix⟩)

theorem Guarded.tail {op : Op} {ops : List Op}
    (hguarded : Guarded step guard start (op :: ops)) :
    Guarded step guard (step start op) ops := by
  intro pre other hpre
  exact hguarded (op :: pre) other (List.cons_prefix_cons.mpr ⟨rfl, hpre⟩)

theorem Guarded.append {first second : List Op} (hfirst : Guarded step guard start first)
    (hsecond : Guarded step guard (first.foldl step start) second) :
    Guarded step guard start (first ++ second) := by
  induction first generalizing start with
  | nil => exact hsecond
  | cons op rest ih => exact .cons hfirst.head (ih hfirst.tail hsecond)

/-- A guarded run by the positions of its operations. -/
theorem guarded_iff_getElem? {ops : List Op} : Guarded step guard start ops ↔
    ∀ (i : Nat) (op : Op), ops[i]? = some op → guard ((ops.take i).foldl step start) op := by
  constructor
  · intro hguarded i op hop
    apply hguarded (ops.take i) op
    have hnext := List.take_prefix (i + 1) ops
    rwa [List.take_add_one, hop] at hnext
  · rintro hall pre op ⟨rest, rfl⟩
    have hguard := hall pre.length op (by simp)
    rwa [List.append_assoc, List.take_left] at hguard

/-- The run lemma for total steps. -/
theorem Guarded.keeps (hstart : Inv start)
    (hstep : ∀ s op, Inv s → guard s op → Inv (step s op)) {ops : List Op}
    (hguarded : Guarded step guard start ops) : Inv (ops.foldl step start) := by
  induction ops using List.reverseRecOn with
  | nil => exact hstart
  | append_singleton ops op ih =>
      rw [List.foldl_concat]
      apply hstep
      · exact ih (hguarded.shorten (List.prefix_append ops [op]))
      · exact hguarded ops op List.prefix_rfl

variable (guard P) in
theorem throughout_iff_guarded (hstart : Inv start)
    (hstep : ∀ s op, Inv s → guard s op → Inv (step s op))
    (hgood : ∀ s, Inv s → P s)
    (hbad : ∀ s op, Inv s → ¬ guard s op → ¬ P (step s op)) (ops : List Op) :
    Throughout step P start ops ↔ Guarded step guard start ops := by
  have hrun : ∀ pre : List Op, pre.foldlM (fun s op => (.ok (step s op) : Except S S)) start =
      .ok (pre.foldl step start) :=
    fun pre => foldlM_refines id step (fun _ _ => rfl) pre start
  have hiff := throughoutOk_iff_guardedOk guard P (E := S) hstart
    (by
      intro s op s' hinv hguard (hs' : (.ok (step s op) : Except S S) = .ok s')
      obtain rfl : step s op = s' := Except.ok.inj hs'
      exact hstep s op hinv hguard)
    hgood
    (by
      intro s op s' hinv hguard hs'
      obtain rfl : step s op = s' := Except.ok.inj hs'
      exact hbad s op hinv hguard) ops
  simpa [ThroughoutOk, GuardedOk, Throughout, Guarded, hrun] using hiff

section Map

variable {Op' : Type w} (f : Op' → Op)

/-- A run over operations that other ones stand for. -/
theorem throughout_map (ops : List Op') :
    Throughout (fun s op => step s (f op)) P start ops ↔
      Throughout step P start (ops.map f) := by
  constructor
  · intro hP pre hpre
    obtain ⟨front, hfront, rfl⟩ := List.prefix_map_iff.mp hpre
    rw [List.foldl_map]
    exact hP front hfront
  · intro hP pre hpre
    have hmap := hP (pre.map f) (hpre.map f)
    rwa [List.foldl_map] at hmap

theorem guarded_map (ops : List Op') :
    Guarded (fun s op => step s (f op)) (fun s op => guard s (f op)) start ops ↔
      Guarded step guard start (ops.map f) := by
  constructor
  · intro hguarded pre op hpre
    obtain ⟨front, hfront, hmap⟩ := List.prefix_map_iff.mp hpre
    obtain ⟨first, last, rfl, rfl, hlast⟩ := List.append_eq_map_iff.mp hmap
    obtain ⟨other, rfl, rfl⟩ := List.map_eq_singleton_iff.mp hlast
    rw [List.foldl_map]
    exact hguarded first other hfront
  · intro hguarded pre op hpre
    have hmap := hguarded (pre.map f) (f op) (by simpa using hpre.map f)
    rwa [List.foldl_map] at hmap

end Map

variable (guard P) in
/-- The same for operations of some kind, when those of the run are all of it. -/
theorem throughout_iff_guarded_on {A : Op → Prop} (hstart : Inv start)
    (hstep : ∀ s op, A op → Inv s → guard s op → Inv (step s op))
    (hgood : ∀ s, Inv s → P s)
    (hbad : ∀ s op, A op → Inv s → ¬ guard s op → ¬ P (step s op)) {ops : List Op}
    (hops : ∀ op ∈ ops, A op) :
    Throughout step P start ops ↔ Guarded step guard start ops := by
  have hval : (ops.attachWith A hops).map Subtype.val = ops := List.attachWith_map_subtype_val hops
  rw [← hval, ← throughout_map, ← guarded_map]
  exact throughout_iff_guarded (fun s (op : {op // A op}) => guard s op.1) P hstart
    (fun s op => hstep s op.1 op.2) hgood (fun s op => hbad s op.1 op.2) _

end Total

/-! ## Steps that may give no result -/

section Partial

variable {step : S → Op → Option S} {Inv : S → Prop}

/-- What every step that gives a result keeps is kept by the run. -/
theorem foldlM_keeps (ops : List Op)
    (hstep : ∀ s op s', op ∈ ops → step s op = some s' → Inv s → Inv s')
    {s s' : S} (hrun : ops.foldlM step s = some s') (hs : Inv s) : Inv s' := by
  induction ops generalizing s with
  | nil =>
      obtain rfl : s = s' := by simpa [pure] using hrun
      exact hs
  | cons op rest ih =>
      simp only [List.foldlM_cons, Option.bind_eq_bind, Option.bind_eq_some_iff] at hrun
      obtain ⟨next, hop, hrest⟩ := hrun
      apply ih
      · intro s op' s' hop'
        exact hstep s op' s' (List.mem_cons_of_mem op hop')
      · exact hrest
      · exact hstep s op next List.mem_cons_self hop hs

end Partial

end GuardedRun
