/-
The loop that compares two terms, against the reading of their places.  From any pair on,
after so many rounds, the loop has come to the result that the places show, and resumes
what was left on its stack; so, with fuel enough, the comparison ends as the reading does.
-/
import Zeptobeam.TermPlaces

namespace Zeptobeam

open SideBySide

/-- How a comparison ends whose places are seen so. -/
def Outcome (seen : List Sight) (r : Except Fault Ordering) : Prop :=
  r.toOption = forward seen ∧ r ≠ .error .outOfFuel

/-- A result and, if it is equal, the next one. -/
def thenResult (r r' : Except Fault Ordering) : Except Fault Ordering :=
  match r with
  | .ok .eq => r'
  | other => other

theorem Outcome.append {front back : List Sight} {r r' : Except Fault Ordering}
    (h : Outcome front r) (h' : Outcome back r') :
    Outcome (front ++ back) (thenResult r r') := by
  rw [Outcome, forward_append, ← h.1, ← h'.1]
  cases r with
  | error fault => exact ⟨rfl, h.2⟩
  | ok order =>
      cases order with
      | lt => exact ⟨rfl, by simp [thenResult]⟩
      | eq => exact ⟨rfl, h'.2⟩
      | gt => exact ⟨rfl, by simp [thenResult]⟩

theorem Outcome.nil : Outcome [] (.ok .eq) :=
  ⟨rfl, by simp⟩

theorem outcome_ofOrdering (order : Ordering) : Outcome [.ofOrdering order] (.ok order) :=
  ⟨(forward_ofOrdering order).symm, by simp⟩

theorem TBinary.outcome_cmpBinary (a b : TBinary) : Outcome [a.sight b] (a.cmpBinary b) :=
  ⟨a.toOption_cmpBinary b, a.cmpBinary_ne_outOfFuel b⟩

/-- Two equal results in turn are the first one. -/
theorem thenResult_self (r : Except Fault Ordering) : thenResult r r = r := by
  cases r with
  | error fault => rfl
  | ok order => cases order <;> rfl

/-- The nested comparisons of a loop with so much fuel left. -/
def nested (fuel : Nat) (x y : Term) : Except Fault Ordering :=
  cmpTerms fuel x y true

/-- The loop after a comparison that ended so. -/
def resume (fuel : Nat) (stack : List ContinueCompare) (exact : Bool)
    (r : Except Fault Ordering) : Except Fault Ordering :=
  match r, stack with
  | .ok .eq, next :: stack => cmpTerms1 fuel stack next exact
  | r, _ => r

/-- From the comparison of the two terms on, the loop comes to the result, after so many
rounds, and resumes the stack. -/
def Compares (exact : Bool) (a b : Term) (r : Except Fault Ordering) : Prop :=
  ∃ rounds least, ∀ fuel, least ≤ fuel → ∀ stack,
    cmpTerms1 (rounds + 1 + fuel) stack (.anyType a b) exact = resume fuel stack exact r

theorem cmpTerms1_succ (fuel : Nat) (stack : List ContinueCompare) (a b : Term)
    (exact : Bool) :
    cmpTerms1 (fuel + 1) stack (.anyType a b) exact =
      match cmpTermsAnyType (nested fuel) a b exact with
      | .ok (.concluded .eq) =>
          match stack with
          | [] => .ok .eq
          | next :: stack => cmpTerms1 fuel stack next exact
      | .ok (.concluded result) => .ok result
      | .ok (.compareNested x y state) => cmpTerms1 fuel (state :: stack) (.anyType x y) exact
      | .error fault => .error fault :=
  rfl

/-- A continuation is compared as any other pair of terms is. -/
theorem cmpTerms1_cons (fuel : Nat) (stack : List ContinueCompare) (a b : Term)
    (exact : Bool) :
    cmpTerms1 fuel stack (.cons a b) exact = cmpTerms1 fuel stack (.anyType a b) exact := by
  cases fuel with
  | zero => rfl
  | succ fuel => rfl

theorem Compares.of_concluded {exact : Bool} {a b : Term} {r : Except Fault Ordering}
    (least : Nat) (h : ∀ fuel, least ≤ fuel →
      cmpTermsAnyType (nested fuel) a b exact = EqResult.concluded <$> r) :
    Compares exact a b r := by
  refine ⟨0, least, fun fuel hfuel stack => ?_⟩
  rw [Nat.zero_add, Nat.add_comm, cmpTerms1_succ, h fuel hfuel]
  cases r with
  | error fault => rfl
  | ok order =>
      cases order with
      | lt => rfl
      | eq => cases stack <;> rfl
      | gt => rfl

/-- The parts are compared first, then the continuation. -/
theorem Compares.of_nested {exact : Bool} {a b x y x' y' : Term}
    {r r' : Except Fault Ordering} {state : ContinueCompare}
    (hstate : state = .anyType x' y' ∨ state = .cons x' y')
    (h : ∀ fuel, cmpTermsAnyType (nested fuel) a b exact = .ok (.compareNested x y state))
    (hxy : Compares exact x y r) (hxy' : Compares exact x' y' r') :
    Compares exact a b (thenResult r r') := by
  obtain ⟨rounds, least, hrounds⟩ := hxy
  obtain ⟨rounds', least', hrounds'⟩ := hxy'
  refine ⟨rounds + 1 + (rounds' + 1), max least least', fun fuel hfuel stack => ?_⟩
  have hfirst := hrounds (rounds' + 1 + fuel) (by omega) (state :: stack)
  have hthen := hrounds' fuel (by omega) stack
  have hresumed : cmpTerms1 (rounds' + 1 + fuel) stack state exact
      = resume fuel stack exact r' := by
    rcases hstate with rfl | rfl
    · exact hthen
    · rw [cmpTerms1_cons, hthen]
  rw [show rounds + 1 + (rounds' + 1) + 1 + fuel
      = (rounds + 1 + (rounds' + 1 + fuel)) + 1 by omega, cmpTerms1_succ, h]
  simp only [hfirst]
  cases r with
  | error fault => rfl
  | ok order =>
      cases order with
      | lt => rfl
      | eq => exact hresumed
      | gt => rfl

/-- A round that is the round of another pair. -/
theorem Compares.of_eq {exact : Bool} {a b x y : Term} {r : Except Fault Ordering}
    (h : ∀ fuel, cmpTermsAnyType (nested fuel) a b exact
      = cmpTermsAnyType (nested fuel) x y exact)
    (hxy : Compares exact x y r) : Compares exact a b r := by
  obtain ⟨rounds, least, hrounds⟩ := hxy
  refine ⟨rounds, least, fun fuel hfuel stack => ?_⟩
  rw [← hrounds fuel hfuel stack, show rounds + 1 + fuel = rounds + fuel + 1 by omega,
    cmpTerms1_succ, cmpTerms1_succ, h]

/-- `cmp_terms` ends with the result of its loop, with fuel enough. -/
theorem Compares.cmpTerms {exact : Bool} {a b : Term} {r : Except Fault Ordering}
    (hraw : a.raw ≠ b.raw) (h : Compares exact a b r) :
    ∃ least, ∀ fuel, least ≤ fuel → cmpTerms fuel a b exact = r := by
  obtain ⟨rounds, least, hrounds⟩ := h
  refine ⟨rounds + 1 + least + 1, fun fuel hfuel => ?_⟩
  obtain ⟨rest, rfl⟩ := Nat.exists_eq_add_of_le hfuel
  have hloop := hrounds (least + rest) (by omega) []
  rw [show rounds + 1 + least + 1 + rest = rounds + 1 + (least + rest) + 1 by omega,
    Zeptobeam.cmpTerms, if_neg hraw, hloop]
  cases r with
  | error fault => rfl
  | ok order => cases order <;> rfl

/-- The comparison of two plain terms that it does not go into. -/
def leafResult : Term → Term → Except Fault Ordering
  | .small x, .small y => .ok (compare x y)
  | .atom x, .atom y => .ok (cmpAtoms x y)
  | .tuple _ _ restA, .tuple _ _ restB => .ok (compare (restA.length + 1) (restB.length + 1))
  | .binary _ x, .binary _ y => x.1.cmpBinary y.1
  | .tuple _ _ _, .binary _ _ => .error (.unimplemented "cmp_mixed_types")
  | .binary _ _, .tuple _ _ _ => .error (.unimplemented "cmp_mixed_types")
  | a, b => .ok (cmpTypeOrder a b)

theorem cmpTermsAnyType_cons (cmp : Term → Term → Except Fault Ordering) (addr addr' : Nat)
    (aHead atl bHead btl : Term) (exact : Bool) :
    cmpTermsAnyType cmp (.cons addr aHead atl) (.cons addr' bHead btl) exact
      = cmpCons (.cons addr aHead atl) (.cons addr' bHead btl) := by
  cases exact <;> rfl

theorem cmpTermsAnyType_binary (cmp : Term → Term → Except Fault Ordering) (addr addr' : Nat)
    (x y : Binary) (exact : Bool) :
    cmpTermsAnyType cmp (.binary addr x) (.binary addr' y) exact
      = EqResult.concluded <$> x.1.cmpBinary y.1 := by
  cases exact <;> rfl

theorem cmpTermsAnyType_tuple (cmp : Term → Term → Except Fault Ordering) (addr addr' : Nat)
    (a0 b0 : Term) (restA restB : List Term) (exact : Bool) :
    cmpTermsAnyType cmp (.tuple addr a0 restA) (.tuple addr' b0 restB) exact
      = EqResult.concluded <$>
        if restA.length = restB.length then cmpElements cmp (a0 :: restA) (b0 :: restB)
        else .ok (compare (restA.length + 1) (restB.length + 1)) := by
  have hround : cmpTermsAnyType cmp (.tuple addr a0 restA) (.tuple addr' b0 restB) exact
      = EqResult.concluded <$>
        cmpTermsImmedBox cmp (.tuple addr a0 restA) (.tuple addr' b0 restB) := by
    cases exact <;> rfl
  have hcompare : compare (restA.length + 1) (restB.length + 1) = .eq
      ↔ restA.length = restB.length := by
    rw [Nat.compare_eq_eq, Nat.add_right_cancel_iff]
  rw [hround, cmpTermsImmedBox]
  cases hc : compare (restA.length + 1) (restB.length + 1) with
  | lt => rw [if_neg (by simp [← hcompare, hc])]
  | eq => rw [if_pos (hcompare.mp hc)]
  | gt => rw [if_neg (by simp [← hcompare, hc])]

theorem cmpTermsAnyType_leaf {a b : Term} (ha : Plain a) (hb : Plain b)
    (hraw : a.raw ≠ b.raw) (hleaf : ¬ goesInto a b)
    (cmp : Term → Term → Except Fault Ordering) (exact : Bool) :
    cmpTermsAnyType cmp a b exact = EqResult.concluded <$> leafResult a b := by
  cases ha with
  | tuple hdata0 hrest =>
      cases hb with
      | tuple hdata0' hrest' =>
          rw [goesInto] at hleaf
          rw [cmpTermsAnyType_tuple, if_neg hleaf, leafResult]
      | _ => cases exact <;> rfl
  | cons hhd htl =>
      cases hb with
      | cons hhd' htl' => exact (hleaf trivial).elim
      | _ => cases exact <;> rfl
  | _ => cases hb <;> cases exact <;> first | rfl | exact (hraw rfl).elim

theorem outcome_leafResult {a b : Term} (ha : Plain a) (hb : Plain b)
    (hraw : a.raw ≠ b.raw) :
    Outcome [termSight a b] (leafResult a b) := by
  cases ha <;> cases hb <;> first
    | exact outcome_ofOrdering _
    | exact TBinary.outcome_cmpBinary _ _
    | exact ⟨rfl, by simp [leafResult]⟩
    | exact (hraw rfl).elim

theorem cmpAtoms_self (name : String) : cmpAtoms name name = .eq := by
  simp [cmpAtoms]

theorem TBinary.cmpBinary_self (b : TBinary) : b.cmpBinary b = .ok .eq := by
  have hbytes : ∀ n i, i + n = b.reader.contents.length →
      DataReader.cmpBytes b.reader b.reader i n = .ok .eq := by
    intro n
    induction n with
    | zero => exact fun _ _ => rfl
    | succ n ih =>
        intro i hi
        have hread : b.reader.read i = .ok b.reader.contents[i] :=
          DataReader.read_of_getElem? (List.getElem?_eq_getElem (by omega))
        simp [DataReader.cmpBytes, hread, ih (i + 1) (by omega)]
  rw [cmpBinary, if_neg (by simp), DataReader.cmpReaderVsReader]
  exact hbytes _ 0 (by rw [DataReader.length_contents, Nat.zero_add])

theorem cmpElements_self (fuel : Nat) (ts : List Term) :
    cmpElements (nested (fuel + 1)) ts ts = .ok .eq := by
  induction ts with
  | nil => rfl
  | cons t ts ih =>
      have ht : nested (fuel + 1) t t = .ok .eq := by simp [nested, cmpTerms]
      simp only [cmpElements, ht, ih]

/-- A term is equal to itself, also where its word is not looked at first. -/
theorem compares_self {a : Term} (ha : Plain a) (exact : Bool) : Compares exact a a (.ok .eq) := by
  apply Compares.of_concluded 1
  intro fuel hfuel
  obtain ⟨fuel, rfl⟩ := Nat.exists_eq_add_of_le' hfuel
  cases ha with
  | small value => simp [cmpTermsAnyType]
  | atom name => simp [cmpTermsAnyType, cmpAtoms_self]
  | cons hhd htl => simp [cmpTermsAnyType_cons, cmpCons]
  | tuple hdata0 hrest => simp [cmpTermsAnyType_tuple, cmpElements_self]
  | binary addr data =>
      rw [cmpTermsAnyType_binary, TBinary.cmpBinary_self]
  | _ => cases exact <;> rfl

/-- The comparison of two terms, with fuel enough, ends as their places are seen. -/
def CallEnds (exact : Bool) (a b : Term) : Prop :=
  ∃ r least, Outcome (sights a b) r ∧
    ∀ fuel, least ≤ fuel → cmpTerms fuel a b exact = r

theorem Compares.callEnds {exact : Bool} {a b : Term} {r : Except Fault Ordering}
    (h : Compares exact a b r) (hr : Outcome (sights a b) r) : CallEnds exact a b := by
  by_cases hraw : a.raw = b.raw
  · refine ⟨.ok .eq, 1, ?_, fun fuel hfuel => ?_⟩
    · rw [sights, places_of_raw_eq hraw]
      exact Outcome.nil
    · obtain ⟨fuel, rfl⟩ := Nat.exists_eq_add_of_le' hfuel
      rw [Zeptobeam.cmpTerms, if_pos hraw]
  · obtain ⟨least, hleast⟩ := h.cmpTerms hraw
    exact ⟨r, least, hr, hleast⟩

/-- The loop over the elements of two tuples. -/
theorem cmpElements_ends {as bs : List Term} (hlength : as.length = bs.length)
    (hends : ∀ a ∈ as, ∀ b ∈ bs, CallEnds true a b) :
    ∃ r least, Outcome (sightsOfAll as bs) r ∧
      ∀ fuel, least ≤ fuel → cmpElements (nested fuel) as bs = r := by
  induction as generalizing bs with
  | nil =>
      have hbs : bs = [] := List.eq_nil_of_length_eq_zero hlength.symm
      rw [hbs]
      exact ⟨.ok .eq, 0, Outcome.nil, fun _ _ => rfl⟩
  | cons a as ih =>
      cases bs with
      | nil => simp at hlength
      | cons b bs =>
          obtain ⟨r, least, hr, hleast⟩ :=
            hends a List.mem_cons_self b List.mem_cons_self
          obtain ⟨r', least', hr', hleast'⟩ := ih (by simpa using hlength)
            (fun x hx y hy => hends x (List.mem_cons_of_mem a hx) y (List.mem_cons_of_mem b hy))
          refine ⟨thenResult r r', max least least', ?_, fun fuel hfuel => ?_⟩
          · rw [sightsOfAll, placesOfAll, List.map_append]
            exact hr.append hr'
          · rw [cmpElements, nested, hleast fuel (by omega), hleast' fuel (by omega)]
            cases r with
            | error fault => rfl
            | ok order => cases order <;> rfl

/-- The loop, from the comparison of two terms on, ends as their places are seen. -/
def LoopEnds (exact : Bool) (a b : Term) : Prop :=
  ∃ r, Compares exact a b r ∧ Outcome (sights a b) r

theorem LoopEnds.callEnds {exact : Bool} {a b : Term} (h : LoopEnds exact a b) :
    CallEnds exact a b := by
  obtain ⟨r, hr, houtcome⟩ := h
  exact hr.callEnds houtcome

theorem loopEnds_self {a : Term} (ha : Plain a) (exact : Bool) : LoopEnds exact a a := by
  refine ⟨.ok .eq, compares_self ha exact, ?_⟩
  rw [sights, places_of_raw_eq rfl]
  exact Outcome.nil

theorem loopEnds_leaf {a b : Term} (ha : Plain a) (hb : Plain b) (hraw : a.raw ≠ b.raw)
    (hleaf : ¬ goesInto a b) (exact : Bool) : LoopEnds exact a b := by
  refine ⟨leafResult a b, Compares.of_concluded 0 fun fuel _ => ?_, ?_⟩
  · exact cmpTermsAnyType_leaf ha hb hraw hleaf (nested fuel) exact
  · rw [sights, places_leaf hraw hleaf]
    exact outcome_leafResult ha hb hraw

theorem Term.isList_iff {t : Term} :
    t.isList = true ↔ t = .nil ∨ ∃ addr hd tl, t = .cons addr hd tl := by
  cases t <;> simp [isList, isCons, getTermTag, raw]

/-- The walk along two lists past equal heads, where one list has ended: the pointer to a
list cell is taken of nil. -/
theorem cmpCons_of_oneEnds {addr addr' : Nat} {aHead atl bHead btl : Term}
    (hheads : aHead.raw = bHead.raw) (hends : oneEnds atl btl) :
    cmpCons (.cons addr aHead atl) (.cons addr' bHead btl) = .error .invalidDereference := by
  obtain ⟨rfl, addr₁, hd, tl, rfl⟩ | ⟨⟨addr₁, hd, tl, rfl⟩, rfl⟩ := oneEnds_cases hends
  · have hraw : Term.nil.raw ≠ (Term.cons addr₁ hd tl).raw := Word.noConfusion
    simp [cmpCons, hheads, hraw, Term.isList_iff]
  · have hraw : (Term.cons addr₁ hd tl).raw ≠ Term.nil.raw := Word.noConfusion
    simp [cmpCons, hheads, hraw, Term.isList_iff]

theorem loopEnds_cons {addr addr' : Nat} {aHead atl bHead btl : Term} {exact : Bool}
    (haddr : addr ≠ addr') (hhead : LoopEnds exact aHead bHead)
    (htail : LoopEnds exact atl btl) :
    LoopEnds exact (.cons addr aHead atl) (.cons addr' bHead btl) := by
  obtain ⟨r, hr, houtcome⟩ := hhead
  obtain ⟨r', hr', houtcome'⟩ := htail
  have hround := fun fuel =>
    cmpTermsAnyType_cons (nested fuel) addr addr' aHead atl bHead btl exact
  by_cases hheads : aHead.raw = bHead.raw
  · by_cases hends : oneEnds atl btl
    · refine ⟨.error .invalidDereference, Compares.of_concluded 0 fun fuel _ => ?_, ?_⟩
      · rw [hround, cmpCons_of_oneEnds hheads hends]
        rfl
      · rw [sights, places_cons haddr, if_pos ⟨hheads, hends⟩]
        exact ⟨rfl, by simp⟩
    · have hsights : sights (.cons addr aHead atl) (.cons addr' bHead btl) = sights atl btl := by
        rw [sights, places_cons haddr, if_neg (by simp [hends]), places_of_raw_eq hheads,
          List.nil_append, sights]
      rw [LoopEnds, hsights]
      by_cases htails : atl.raw = btl.raw
      · refine ⟨.ok .eq, Compares.of_concluded 0 fun fuel _ => ?_, ?_⟩
        · simp [hround, cmpCons, hheads, htails]
        · rw [sights, places_of_raw_eq htails]
          exact Outcome.nil
      · by_cases hlist : atl.isList ∧ btl.isList
        · -- the walk goes on inside the same round
          have hnext : cmpCons (.cons addr aHead atl) (.cons addr' bHead btl)
              = cmpCons atl btl := by
            simp [cmpCons, hheads, htails, hlist]
          refine ⟨r', Compares.of_eq (fun fuel => ?_) hr', houtcome'⟩
          rw [hround, hnext]
          obtain rfl | ⟨addr₁, hd₁, tl₁, rfl⟩ := Term.isList_iff.mp hlist.1
          · obtain rfl | ⟨addr₂, hd₂, tl₂, rfl⟩ := Term.isList_iff.mp hlist.2
            · exact (htails rfl).elim
            · exact (hends rfl).elim
          · obtain rfl | ⟨addr₂, hd₂, tl₂, rfl⟩ := Term.isList_iff.mp hlist.2
            · exact (hends rfl).elim
            · rw [cmpTermsAnyType_cons]
        · -- improper tails are compared, and compared again when they are equal
          have hnext : cmpCons (.cons addr aHead atl) (.cons addr' bHead btl)
              = .ok (.compareNested atl btl (.anyType atl btl)) := by
            have himproper : (!atl.isList || !btl.isList) = true := by
              simpa [Decidable.imp_iff_not_or] using hlist
            simp only [cmpCons, hheads, htails, himproper, ne_eq, not_true_eq_false, ↓reduceIte]
          refine ⟨r', ?_, houtcome'⟩
          rw [← thenResult_self r']
          exact Compares.of_nested (.inl rfl) (fun fuel => by rw [hround, hnext]) hr' hr'
  · refine ⟨thenResult r r', Compares.of_nested (.inr rfl) (fun fuel => ?_) hr hr', ?_⟩
    · rw [hround, cmpCons, if_pos hheads]
    · rw [sights, places_cons haddr, if_neg (by simp [hheads]), List.map_append]
      exact houtcome.append houtcome'

theorem loopEnds_tuple {addr addr' : Nat} {a0 b0 : Term} {restA restB : List Term}
    (haddr : addr ≠ addr') (hlength : restA.length = restB.length)
    (helements : ∀ a ∈ a0 :: restA, ∀ b ∈ b0 :: restB, LoopEnds true a b) (exact : Bool) :
    LoopEnds exact (.tuple addr a0 restA) (.tuple addr' b0 restB) := by
  obtain ⟨r, least, houtcome, hleast⟩ := cmpElements_ends (by simp [hlength])
    (fun a ha b hb => (helements a ha b hb).callEnds)
  refine ⟨r, Compares.of_concluded least fun fuel hfuel => ?_, ?_⟩
  · rw [cmpTermsAnyType_tuple, if_pos hlength, hleast fuel hfuel]
  · rw [sights, places_tuple haddr hlength]
    exact houtcome

/-- The loop ends, on any two plain terms, as the reading of their places does. -/
theorem loopEnds (memory : Memory) {a : Term} (ha : Plain a) (hmem : a ∈ memory.terms)
    {b : Term} (hb : Plain b) (hmem' : b ∈ memory.terms) (exact : Bool) :
    LoopEnds exact a b := by
  refine memory.pair_induction (R := fun a b => ∀ exact, LoopEnds exact a b)
    ?same ?leaf ?cons ?tuple ha hmem hb hmem' exact
  case same => exact fun a ha => loopEnds_self ha
  case leaf => exact fun a b ha hb hraw hleaf => loopEnds_leaf ha hb hraw hleaf
  case cons =>
    intro addr addr' aHead atl bHead btl haddr _ hheads htails exact
    exact loopEnds_cons haddr (hheads exact) (htails exact)
  case tuple =>
    intro addr addr' a0 b0 restA restB haddr hlength helements
    exact loopEnds_tuple haddr hlength fun a ha b hb => helements a ha b hb true

/-- With fuel enough, the comparison returns the order. -/
def Ends (exact : Bool) (a b : Term) (order : Ordering) : Prop :=
  ∃ least, ∀ fuel, least ≤ fuel → cmpTerms fuel a b exact = .ok order

/-- The comparison of two plain terms returns what the reading of their places finds, and
does not return where that fails. -/
theorem ends_iff (memory : Memory) {a b : Term} (ha : Plain a) (hmem : a ∈ memory.terms)
    (hb : Plain b) (hmem' : b ∈ memory.terms) (exact : Bool) (order : Ordering) :
    Ends exact a b order ↔ forward (sights a b) = some order := by
  obtain ⟨r, least, houtcome, hleast⟩ :=
    (loopEnds memory ha hmem hb hmem' exact).callEnds
  rw [← houtcome.1]
  constructor
  · rintro ⟨least', hleast'⟩
    rw [← hleast (max least least') (by omega), hleast' (max least least') (by omega)]
    rfl
  · intro hr
    refine ⟨least, fun fuel hfuel => ?_⟩
    rw [hleast fuel hfuel]
    cases r with
    | error fault => simp [Except.toOption] at hr
    | ok order' => simpa [Except.toOption] using hr

end Zeptobeam
