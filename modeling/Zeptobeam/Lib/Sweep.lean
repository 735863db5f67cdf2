/-
A sweep takes a node out of a set of nodes and then, one after the other, the nodes it
leads to that are still there.  It ends, on any graph, and takes out exactly the nodes
that can be reached inside the set.
-/
import Mathlib.Data.Finset.Card
import Mathlib.Logic.Relation

namespace Zeptobeam

namespace Sweep

variable {V : Type} (next : V → List V)

/-! ## Reachability inside a set -/

def Step (alive : Finset V) (a b : V) : Prop :=
  b ∈ next a ∧ b ∈ alive

def Reach (alive : Finset V) (v u : V) : Prop :=
  v ∈ alive ∧ Relation.ReflTransGen (Step next alive) v u

def ReachAny (alive : Finset V) (roots : List V) (u : V) : Prop :=
  ∃ v ∈ roots, Reach next alive v u

variable {next} {alive alive' : Finset V} {u v w : V}

theorem Reach.mem (h : Reach next alive v u) : u ∈ alive := by
  obtain ⟨hv, hpath⟩ := h
  induction hpath with
  | refl => exact hv
  | tail _ hstep _ => exact hstep.2

theorem Reach.mono (h : Reach next alive v u) (hsubset : alive ⊆ alive') :
    Reach next alive' v u := by
  have hsteps : Step next alive ≤ Step next alive' :=
    fun _ _ hstep => ⟨hstep.1, hsubset hstep.2⟩
  exact ⟨hsubset h.1, Relation.ReflTransGen.mono hsteps _ _ h.2⟩

theorem Reach.trans (h : Reach next alive v w) (h' : Reach next alive w u) :
    Reach next alive v u :=
  ⟨h.1, h.2.trans h'.2⟩

/-- What the first root does not reach is reached by the others without it. -/
theorem reachAny_cons_iff {rest : Finset V} {roots : List V}
    (hrest : ∀ x, x ∈ rest ↔ x ∈ alive ∧ ¬ Reach next alive v x) :
    ReachAny next alive (v :: roots) u ↔
      Reach next alive v u ∨ ReachAny next rest roots u := by
  constructor
  · rintro ⟨w, hroot, hreach⟩
    rcases List.mem_cons.mp hroot with rfl | hw
    · exact .inl hreach
    · by_cases hfirst : Reach next alive v u
      · exact .inl hfirst
      · right
        have hinside : ∀ x, x ∈ alive → Relation.ReflTransGen (Step next alive) x u →
            x ∈ rest := by
          intro x hx hpath
          refine (hrest x).mpr ⟨hx, ?_⟩
          exact fun hreached => hfirst (hreached.trans ⟨hx, hpath⟩)
        obtain ⟨hwalive, hpath⟩ := hreach
        refine ⟨w, hw, hinside w hwalive hpath, ?_⟩
        clear hroot hw
        induction hpath using Relation.ReflTransGen.head_induction_on with
        | refl => exact .refl
        | head hstep hpath ih =>
            exact .head ⟨hstep.1, hinside _ hstep.2 hpath⟩ (ih hstep.2)
  · have hsubset : rest ⊆ alive := fun x hx => ((hrest x).mp hx).1
    rintro (hfirst | ⟨w, hw, hreach⟩)
    · exact ⟨v, List.mem_cons_self, hfirst⟩
    · exact ⟨w, List.mem_cons_of_mem v hw, hreach.mono hsubset⟩

/-! ## The sweep -/

variable [DecidableEq V]

variable (next) in
def sweep : Nat → Finset V → V → Option (Finset V)
  | 0, _, _ => none
  | fuel + 1, alive, v =>
      if v ∈ alive then
        ((next v).filter (· ∈ alive.erase v)).foldlM (sweep fuel) (alive.erase v)
      else some alive

/-- A path leaves its first node for the last time. -/
theorem reach_iff_erase (hv : v ∈ alive) :
    Reach next alive v u ↔ u = v ∨ ReachAny next (alive.erase v) (next v) u := by
  constructor
  · rintro ⟨_, hpath⟩
    induction hpath with
    | refl => exact .inl rfl
    | @tail x y _ hstep ih =>
        by_cases hy : y = v
        · exact .inl hy
        · have hmem : y ∈ alive.erase v := Finset.mem_erase.mpr ⟨hy, hstep.2⟩
          right
          rcases ih with rfl | ⟨w, hw, hwx, hpath⟩
          · exact ⟨y, hstep.1, hmem, .refl⟩
          · exact ⟨w, hw, hwx, hpath.tail ⟨hstep.1, hmem⟩⟩
  · rintro (rfl | ⟨w, hw, hreach⟩)
    · exact ⟨hv, .refl⟩
    · have hwider := hreach.mono (Finset.erase_subset v alive)
      exact ⟨hv, .head ⟨hw, hwider.1⟩ hwider.2⟩

/-! ## What a sweep leaves -/

/-- The sweep of several roots, given what the sweep of one leaves. -/
theorem mem_foldlM_sweep {fuel : Nat}
    (ih : ∀ {alive rest : Finset V} {v : V}, sweep next fuel alive v = some rest →
      ∀ u, u ∈ rest ↔ u ∈ alive ∧ ¬ Reach next alive v u)
    {roots : List V} {rest : Finset V}
    (h : roots.foldlM (sweep next fuel) alive = some rest) (u : V) :
    u ∈ rest ↔ u ∈ alive ∧ ¬ ReachAny next alive roots u := by
  induction roots generalizing alive with
  | nil =>
      obtain rfl : alive = rest := by simpa using h
      simp [ReachAny]
  | cons v roots ihroots =>
      rw [List.foldlM_cons, Option.bind_eq_bind, Option.bind_eq_some_iff] at h
      obtain ⟨middle, hfirst, hothers⟩ := h
      have hmiddle := ih hfirst
      rw [ihroots hothers, hmiddle u, reachAny_cons_iff hmiddle, not_or, and_assoc]

theorem mem_sweep {fuel : Nat} {rest : Finset V} (h : sweep next fuel alive v = some rest)
    (u : V) : u ∈ rest ↔ u ∈ alive ∧ ¬ Reach next alive v u := by
  induction fuel generalizing alive v rest u with
  | zero => contradiction
  | succ fuel ih =>
      unfold sweep at h
      split at h
      · rename_i hv
        have hcascade := mem_foldlM_sweep (fun hfirst u => ih hfirst u) h u
        have hroots : ReachAny next (alive.erase v)
            ((next v).filter (· ∈ alive.erase v)) u ↔
              ReachAny next (alive.erase v) (next v) u := by
          constructor
          · rintro ⟨w, hw, hreach⟩
            exact ⟨w, List.mem_of_mem_filter hw, hreach⟩
          · rintro ⟨w, hw, hreach⟩
            exact ⟨w, List.mem_filter.mpr ⟨hw, by simpa using hreach.1⟩, hreach⟩
        rw [hcascade, hroots, reach_iff_erase hv, Finset.mem_erase, not_or]
        constructor
        · rintro ⟨⟨hne, hmem⟩, hnot⟩
          exact ⟨hmem, hne, hnot⟩
        · rintro ⟨hmem, hne, hnot⟩
          exact ⟨⟨hne, hmem⟩, hnot⟩
      · rename_i hv
        cases h
        have hnot : ¬ Reach next alive v u := fun hreach => hv hreach.1
        simp [hnot]

theorem sweep_subset {fuel : Nat} {rest : Finset V}
    (h : sweep next fuel alive v = some rest) : rest ⊆ alive :=
  fun u hu => ((mem_sweep h u).mp hu).1

/-! ## It ends -/

variable (next) in
/-- More fuel than there are nodes is enough: each level takes out a node. -/
theorem exists_sweep {fuel : Nat} (hfuel : alive.card < fuel) (v : V) :
    ∃ rest, sweep next fuel alive v = some rest := by
  induction fuel generalizing alive v with
  | zero => exact absurd hfuel (Nat.not_lt_zero _)
  | succ fuel ih =>
      unfold sweep
      split
      · rename_i hv
        have hcard : (alive.erase v).card < fuel := by
          have hless := Finset.card_erase_lt_of_mem hv
          omega
        generalize (next v).filter (· ∈ alive.erase v) = roots
        generalize alive.erase v = left at hcard
        induction roots generalizing left with
        | nil => exact ⟨left, by simp⟩
        | cons w roots ihroots =>
            obtain ⟨middle, hmiddle⟩ := ih hcard w
            have hless := Finset.card_le_card (sweep_subset hmiddle)
            obtain ⟨rest, hrest⟩ := ihroots middle (by omega)
            exact ⟨rest, by rw [List.foldlM_cons, hmiddle]; exact hrest⟩
      · exact ⟨alive, rfl⟩

end Sweep

end Zeptobeam
