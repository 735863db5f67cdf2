/-
Moves between places: each takes a key from a place, fetches what is under it and puts that
into another place.  Made in turn, a move may read what an earlier one put down; made at once,
all of them read the places as they were.
-/
import Mathlib.Data.List.Basic
import Mathlib.Data.List.Induction
import Mathlib.Logic.Function.Basic

namespace MovesInTurn

universe u

variable {R W V : Type u}

/-- A place that is read, or a value that is at hand. -/
inductive Source (R V : Type u) where
  | place (r : R)
  | value (v : V)
deriving DecidableEq, Repr

structure Move (R V : Type u) where
  src : Source R V
  dst : R
deriving DecidableEq, Repr

/-- How a place is read, what there is under a key, and how a place holds a value; each of
them may fail. -/
structure Rules (R W V : Type u) where
  read : R → W → Option V
  fetch : V → Option V
  hold : R → V → Option W

/-- What a source comes to where the places hold so much. -/
def Rules.key (rules : Rules R W V) (held : R → Option W) : Source R V → Option V
  | .place r => (held r).bind (rules.read r)
  | .value v => some v

/-- What a move puts down. -/
def Rules.moved (rules : Rules R W V) (held : R → Option W) (m : Move R V) : Option W :=
  ((rules.key held m.src).bind rules.fetch).bind (rules.hold m.dst)

variable [DecidableEq R] (rules : Rules R W V)

/-- Each move reads the places as the moves before it left them. -/
def inTurn (env : R → W) : List (Move R V) → Option (R → W)
  | [] => some env
  | m :: ms =>
      (rules.moved (fun r => some (env r)) m).bind fun w => inTurn (Function.update env m.dst w) ms

/-- Each move reads the places as they were at the start. -/
def atOnce (start env : R → W) : List (Move R V) → Option (R → W)
  | [] => some env
  | m :: ms =>
      (rules.moved (fun r => some (start r)) m).bind fun w =>
        atOnce start (Function.update env m.dst w) ms

/-- What a place comes to hold, followed back through the moves; the last move stands first. -/
def traced (env : R → W) : List (Move R V) → R → Option W
  | [], r => some (env r)
  | m :: ms, r => if m.dst = r then rules.moved (traced env ms) m else traced env ms r

section Runs

variable {rules} {start env env' : R → W} {ms later : List (Move R V)} {m : Move R V}

theorem inTurn_append :
    inTurn rules env (ms ++ later) =
      (inTurn rules env ms).bind fun env => inTurn rules env later := by
  induction ms generalizing env with
  | nil => rfl
  | cons m ms ih =>
      rw [List.cons_append, inTurn, inTurn, Option.bind_assoc]
      congr 1
      funext w
      exact ih

theorem atOnce_append :
    atOnce rules start env (ms ++ later) =
      (atOnce rules start env ms).bind fun env => atOnce rules start env later := by
  induction ms generalizing env with
  | nil => rfl
  | cons m ms ih =>
      rw [List.cons_append, atOnce, atOnce, Option.bind_assoc]
      congr 1
      funext w
      exact ih

theorem inTurn_concat_eq_some_iff :
    inTurn rules env (ms ++ [m]) = some env' ↔
      ∃ between w, inTurn rules env ms = some between ∧
        rules.moved (fun r => some (between r)) m = some w ∧
        Function.update between m.dst w = env' := by
  rw [inTurn_append]
  simp only [inTurn, Option.bind_eq_some_iff, Option.some.injEq, exists_and_left]

/-- The places hold what they come to when they are followed back. -/
theorem traced_of_inTurn (h : inTurn rules env ms = some env') :
    traced rules env ms.reverse = fun r => some (env' r) := by
  induction ms using List.reverseRecOn generalizing env' with
  | nil =>
      cases h
      rfl
  | append_singleton ms m ih =>
      obtain ⟨between, w, hms, hw, rfl⟩ := inTurn_concat_eq_some_iff.mp h
      funext r
      rw [List.reverse_append, List.reverse_singleton, List.singleton_append, traced, ih hms]
      by_cases hr : m.dst = r
      · rw [if_pos hr, hw, ← hr, Function.update_self]
      · rw [if_neg hr, Function.update_of_ne (Ne.symm hr)]

/-- The moves can be made in turn when each of them, followed back, puts something down. -/
theorem inTurn_isSome_iff :
    (∃ env', inTurn rules env ms = some env') ↔ ∀ earlier m, earlier ++ [m] <+: ms →
      ∃ w, rules.moved (traced rules env earlier.reverse) m = some w := by
  induction ms using List.reverseRecOn with
  | nil => simp [inTurn]
  | append_singleton ms m ih =>
      constructor
      · rintro ⟨env', h⟩ earlier m' hprefix
        obtain ⟨between, w, hms, hw, -⟩ := inTurn_concat_eq_some_iff.mp h
        rcases List.prefix_concat_iff.mp hprefix with hall | hbefore
        · obtain ⟨rfl, rfl⟩ := List.append_inj' hall rfl |>.imp_right List.singleton_inj.mp
          exact ⟨w, by rw [traced_of_inTurn hms, hw]⟩
        · exact ih.mp ⟨between, hms⟩ earlier m' hbefore
      · intro h
        obtain ⟨between, hms⟩ := ih.mpr fun earlier m' hbefore =>
          h earlier m' (hbefore.trans (List.prefix_append ms [m]))
        obtain ⟨w, hw⟩ := h ms m List.prefix_rfl
        rw [traced_of_inTurn hms] at hw
        exact ⟨_, inTurn_concat_eq_some_iff.mpr ⟨between, w, hms, hw, rfl⟩⟩

theorem atOnce_kept {r : R} (h : atOnce rules start env ms = some env')
    (hnone : ∀ m ∈ ms, m.dst ≠ r) : env' r = env r := by
  induction ms generalizing env with
  | nil =>
      cases h
      rfl
  | cons m ms ih =>
      obtain ⟨w, -, hrest⟩ := Option.bind_eq_some_iff.mp h
      rw [ih hrest fun m' hm' => hnone m' (List.mem_cons_of_mem m hm'),
        Function.update_of_ne (Ne.symm (hnone m List.mem_cons_self))]

/-- The last move to a place puts down what the place holds at the end. -/
theorem atOnce_last {earlier : List (Move R V)}
    (h : atOnce rules start env (earlier ++ m :: later) = some env')
    (hlast : ∀ m' ∈ later, m'.dst ≠ m.dst) :
    rules.moved (fun r => some (start r)) m = some (env' m.dst) := by
  rw [atOnce_append] at h
  obtain ⟨between, -, h⟩ := Option.bind_eq_some_iff.mp h
  obtain ⟨w, hw, hrest⟩ := Option.bind_eq_some_iff.mp h
  rw [hw, atOnce_kept hrest hlast, Function.update_self]

/-- A place that some move goes to has a last such move. -/
theorem exists_last {r : R} (h : ∃ m ∈ ms, m.dst = r) :
    ∃ earlier m later, ms = earlier ++ m :: later ∧ m.dst = r ∧ ∀ m' ∈ later, m'.dst ≠ r := by
  induction ms with
  | nil => simp at h
  | cons m ms ih =>
      by_cases hms : ∃ m ∈ ms, m.dst = r
      · obtain ⟨earlier, m', later, rfl, hdst, hlast⟩ := ih hms
        exact ⟨m :: earlier, m', later, rfl, hdst, hlast⟩
      · refine ⟨[], m, ms, rfl, ?_, fun m' hm' hr => hms ⟨m', hm', hr⟩⟩
        obtain ⟨m', hm', hr⟩ := h
        rcases List.mem_cons.mp hm' with rfl | hm'
        · exact hr
        · exact absurd ⟨m', hm', hr⟩ hms

/-- A place that no move goes to. -/
theorem traced_of_not_mem {r : R} (h : ∀ m ∈ ms, m.dst ≠ r) :
    traced rules env ms r = some (env r) := by
  induction ms with
  | nil => rfl
  | cons m ms ih =>
      rw [traced, if_neg (h m List.mem_cons_self)]
      exact ih fun m' hm' => h m' (List.mem_cons_of_mem m hm')

/-- The last move to a place. -/
theorem traced_last {earlier : List (Move R V)} (hlast : ∀ m' ∈ later, m'.dst ≠ m.dst) :
    traced rules env (earlier ++ m :: later).reverse m.dst =
      rules.moved (traced rules env earlier.reverse) m := by
  rw [List.reverse_append, List.reverse_cons, List.append_assoc, List.singleton_append]
  have hlast : ∀ m' ∈ later.reverse, m'.dst ≠ m.dst := fun m' hm' =>
    hlast m' (List.mem_reverse.mp hm')
  generalize later.reverse = after at hlast
  induction after with
  | nil => rw [List.nil_append, traced, if_pos rfl]
  | cons m' after ih =>
      rw [List.cons_append, traced, if_neg (hlast m' List.mem_cons_self)]
      exact ih fun m'' hm'' => hlast m'' (List.mem_cons_of_mem m' hm'')

end Runs

/-- Each move puts something down where it reads what the earlier ones left, and the last move
to a place puts down what it does where the places are as they were. -/
def SameLast (env : R → W) (ms : List (Move R V)) : Prop :=
  ∀ earlier m later, ms = earlier ++ m :: later →
    ∃ w, rules.moved (traced rules env earlier.reverse) m = some w ∧
      ((∀ m' ∈ later, m'.dst ≠ m.dst) → rules.moved (fun r => some (env r)) m = some w)

variable {rules} {env env' : R → W} {ms : List (Move R V)}

/-- Moves that can be made at once come to the same when they are made in turn. -/
theorem inTurn_eq_iff (h : atOnce rules env env ms = some env') :
    inTurn rules env ms = some env' ↔ SameLast rules env ms := by
  constructor
  · rintro hturn earlier m later rfl
    obtain ⟨w, hw⟩ := inTurn_isSome_iff.mp ⟨env', hturn⟩ earlier m ⟨later, by simp⟩
    refine ⟨w, hw, fun hlast => ?_⟩
    have htraced := congrFun (traced_of_inTurn hturn) m.dst
    rw [traced_last hlast, hw] at htraced
    rw [atOnce_last h hlast, htraced]
  · intro hsame
    obtain ⟨env'', hturn⟩ : ∃ env'', inTurn rules env ms = some env'' := by
      refine inTurn_isSome_iff.mpr fun earlier m hprefix => ?_
      obtain ⟨later, hsplit⟩ := hprefix
      obtain ⟨w, hw, -⟩ := hsame earlier m later (by rw [← hsplit]; simp)
      exact ⟨w, hw⟩
    have heq : env'' = env' := by
      funext r
      have htraced := congrFun (traced_of_inTurn hturn) r
      by_cases hr : ∃ m ∈ ms, m.dst = r
      · obtain ⟨earlier, m, later, rfl, rfl, hlast⟩ := exists_last hr
        obtain ⟨w, hw, heach⟩ := hsame earlier m later rfl
        have hput := atOnce_last h hlast
        rw [heach hlast] at hput
        rw [traced_last hlast, hw, hput] at htraced
        exact (Option.some.inj htraced).symm
      · have hnone : ∀ m ∈ ms, m.dst ≠ r := fun m hm hdst => hr ⟨m, hm, hdst⟩
        rw [traced_of_not_mem fun m hm => hnone m (List.mem_reverse.mp hm)] at htraced
        rw [atOnce_kept h hnone]
        exact (Option.some.inj htraced).symm
    rw [hturn, heq]

end MovesInTurn
