/-
What the comparison of two terms looks at, place by place.  The places are the pairs of
parts that it compares without going into them, in the order in which it comes to them:
heads before tails, the elements of tuples in turn, and nothing inside two equal words.
-/
import Zeptobeam.TermCompare

namespace Zeptobeam

open SideBySide

/-- Terms built from small integers, atoms, nil, lists, tuples and binaries. -/
inductive Plain : Term → Prop where
  | small (value : Int) : Plain (.small value)
  | atom (name : String) : Plain (.atom name)
  | emptyTuple : Plain .emptyTuple
  | nil : Plain .nil
  | emptyBinary : Plain .emptyBinary
  | cons {addr : Nat} {hd tl : Term} (hhd : Plain hd) (htl : Plain tl) :
      Plain (.cons addr hd tl)
  | tuple {addr : Nat} {data0 : Term} {rest : List Term} (hdata0 : Plain data0)
      (hrest : ∀ t ∈ rest, Plain t) : Plain (.tuple addr data0 rest)
  | binary (addr : Nat) (data : Binary) : Plain (.binary addr data)

theorem Plain.element {addr : Nat} {data0 t : Term} {rest : List Term}
    (h : Plain (.tuple addr data0 rest)) (ht : t ∈ data0 :: rest) : Plain t := by
  cases h with
  | tuple hdata0 hrest =>
      rcases List.mem_cons.mp ht with rfl | htail
      · exact hdata0
      · exact hrest t htail

/-- The terms of a memory: what a term points to is there as well, and one word is one
term. -/
structure Memory where
  terms : Set Term
  cons {addr : Nat} {hd tl : Term} :
    .cons addr hd tl ∈ terms → hd ∈ terms ∧ tl ∈ terms
  tuple {addr : Nat} {data0 : Term} {rest : List Term} :
    .tuple addr data0 rest ∈ terms → ∀ t ∈ data0 :: rest, t ∈ terms
  coherent {s t : Term} : s ∈ terms → t ∈ terms → s.raw = t.raw → s = t

/-- A memory that holds a list and its parts. -/
def oneList : Memory where
  terms := {t | t = .small 1 ∨ t = .nil ∨ t = .cons 0 (.small 1) .nil}
  cons := by
    rintro addr hd tl (h | h | h)
    · cases h
    · cases h
    · cases h
      exact ⟨.inl rfl, .inr (.inl rfl)⟩
  tuple := by
    rintro addr data0 rest (h | h | h) <;> cases h
  coherent := by
    rintro s t (rfl | rfl | rfl) (rfl | rfl | rfl) hraw <;> first
      | rfl
      | cases hraw

/-- Two terms that are compared, or the tails of two lists of which one has ended. -/
inductive Place where
  | between (a b : Term)
  | tails (a b : Term)

/-- One list ends where the other goes on. -/
def oneEnds : Term → Term → Bool
  | .nil, .cons _ _ _ => true
  | .cons _ _ _, .nil => true
  | _, _ => false

mutual

def places (a b : Term) : List Place :=
  if a.raw = b.raw then []
  else
    match a, b with
    | .cons _ aHead atl, .cons _ bHead btl =>
        if aHead.raw = bHead.raw ∧ oneEnds atl btl then [.tails atl btl]
        else places aHead bHead ++ places atl btl
    | .tuple addr a0 restA, .tuple addr' b0 restB =>
        if restA.length = restB.length then places a0 b0 ++ placesOfAll restA restB
        else [.between (.tuple addr a0 restA) (.tuple addr' b0 restB)]
    | a, b => [.between a b]

def placesOfAll (as bs : List Term) : List Place :=
  match as, bs with
  | a :: as, b :: bs => places a b ++ placesOfAll as bs
  | _, _ => []

end

/-- What the comparison of two terms that it does not go into sees. -/
def termSight : Term → Term → Sight
  | .small x, .small y => .ofOrdering (compare x y)
  | .atom x, .atom y => .ofOrdering (cmpAtoms x y)
  | .tuple _ _ restA, .tuple _ _ restB =>
      .ofOrdering (compare (restA.length + 1) (restB.length + 1))
  | .binary _ x, .binary _ y => x.1.sight y.1
  | .tuple _ _ _, .binary _ _ => .broken
  | .binary _ _, .tuple _ _ _ => .broken
  | .emptyTuple, .tuple _ _ _ => .overlooked .left
  | .tuple _ _ _, .emptyTuple => .overlooked .right
  | .nil, .cons _ _ _ => .overlooked .left
  | .cons _ _ _, .nil => .overlooked .right
  | .emptyBinary, .binary _ _ => .overlooked .left
  | .binary _ _, .emptyBinary => .overlooked .right
  | a, b => .ofOrdering (compare a.classifyTerm b.classifyTerm)

def Place.sight : Place → Sight
  | between a b => termSight a b
  | tails _ _ => .broken

def sights (a b : Term) : List Sight :=
  (places a b).map Place.sight

def sightsOfAll (as bs : List Term) : List Sight :=
  (placesOfAll as bs).map Place.sight

/-- The comparison goes into two lists, and into two tuples of the same size. -/
def goesInto : Term → Term → Prop
  | .cons _ _ _, .cons _ _ _ => True
  | .tuple _ _ restA, .tuple _ _ restB => restA.length = restB.length
  | _, _ => False

/-- Induction on two plain terms of a memory: they are one term, or are compared as a
whole, or are two lists or two tuples of the same size, compared part by part. -/
theorem Memory.pair_induction (memory : Memory) {R : Term → Term → Prop}
    (same : ∀ a, Plain a → R a a)
    (leaf : ∀ a b, Plain a → Plain b → a.raw ≠ b.raw → ¬ goesInto a b → R a b)
    (cons : ∀ addr addr' aHead atl bHead btl, addr ≠ addr' →
      (aHead.raw = bHead.raw → aHead = bHead) → R aHead bHead → R atl btl →
      R (.cons addr aHead atl) (.cons addr' bHead btl))
    (tuple : ∀ addr addr' a0 b0 restA restB, addr ≠ addr' → restA.length = restB.length →
      (∀ a ∈ a0 :: restA, ∀ b ∈ b0 :: restB, R a b) →
      R (.tuple addr a0 restA) (.tuple addr' b0 restB))
    {a : Term} (ha : Plain a) (hmem : a ∈ memory.terms) {b : Term} (hb : Plain b)
    (hmem' : b ∈ memory.terms) : R a b := by
  -- what is left for two terms that are gone into
  have hparts : ∀ {a b : Term}, Plain a → a ∈ memory.terms → Plain b → b ∈ memory.terms →
      (a.raw ≠ b.raw → goesInto a b → R a b) → R a b := by
    intro a b ha hmem hb hmem' hinto
    by_cases hraw : a.raw = b.raw
    · rw [← memory.coherent hmem hmem' hraw]
      exact same a ha
    · by_cases hleaf : goesInto a b
      · exact hinto hraw hleaf
      · exact leaf a b ha hb hraw hleaf
  induction ha generalizing b with
  | cons hhd htl ihhd ihtl =>
      apply hparts (.cons hhd htl) hmem hb hmem'
      intro hraw hinto
      cases hb with
      | cons hhd' htl' =>
          obtain ⟨hmemhd, hmemtl⟩ := memory.cons hmem
          obtain ⟨hmemhd', hmemtl'⟩ := memory.cons hmem'
          exact cons _ _ _ _ _ _ (by simpa [Term.raw] using hraw)
            (memory.coherent hmemhd hmemhd') (ihhd hmemhd hhd' hmemhd')
            (ihtl hmemtl htl' hmemtl')
      | _ => exact hinto.elim
  | tuple hdata0 hrest ihdata0 ihrest =>
      apply hparts (.tuple hdata0 hrest) hmem hb hmem'
      intro hraw hinto
      cases hb with
      | tuple hdata0' hrest' =>
          refine tuple _ _ _ _ _ _ (by simpa [Term.raw] using hraw) hinto ?_
          intro s hs t ht
          have hmems := memory.tuple hmem s hs
          have hmemt := memory.tuple hmem' t ht
          have hplain := List.forall_mem_cons.mpr ⟨hdata0', hrest'⟩ t ht
          rcases List.mem_cons.mp hs with rfl | htail
          · exact ihdata0 hmems hplain hmemt
          · exact ihrest s htail hmems hplain hmemt
      | _ => exact hinto.elim
  | _ =>
      apply hparts (by constructor) hmem hb hmem'
      intro _ hinto
      cases hb <;> exact hinto.elim

theorem places_of_raw_eq {a b : Term} (hraw : a.raw = b.raw) : places a b = [] := by
  rw [places.eq_def, if_pos hraw]

theorem places_leaf {a b : Term} (hraw : a.raw ≠ b.raw) (hleaf : ¬ goesInto a b) :
    places a b = [.between a b] := by
  rw [places.eq_def, if_neg hraw]
  split
  · exact (hleaf trivial).elim
  · rw [goesInto] at hleaf
    rw [if_neg hleaf]
  · rfl

theorem places_cons {addr addr' : Nat} {aHead atl bHead btl : Term} (haddr : addr ≠ addr') :
    places (.cons addr aHead atl) (.cons addr' bHead btl) =
      if aHead.raw = bHead.raw ∧ oneEnds atl btl then [.tails atl btl]
      else places aHead bHead ++ places atl btl := by
  have hraw : (Term.cons addr aHead atl).raw ≠ (Term.cons addr' bHead btl).raw := by
    simpa [Term.raw] using haddr
  rw [places.eq_def, if_neg hraw]

theorem places_tuple {addr addr' : Nat} {a0 b0 : Term} {restA restB : List Term}
    (haddr : addr ≠ addr') (hlength : restA.length = restB.length) :
    places (.tuple addr a0 restA) (.tuple addr' b0 restB)
      = placesOfAll (a0 :: restA) (b0 :: restB) := by
  have hraw : (Term.tuple addr a0 restA).raw ≠ (Term.tuple addr' b0 restB).raw := by
    simpa [Term.raw] using haddr
  rw [places.eq_def, if_neg hraw, placesOfAll]
  simp only [if_pos hlength]

theorem cmpAtoms_swap (x y : String) : (cmpAtoms x y).swap = cmpAtoms y x := by
  simp only [cmpAtoms]
  by_cases hlength : (nameBytes x).length = (nameBytes y).length
  · rw [if_pos hlength, if_pos hlength.symm, ← Std.OrientedOrd.eq_swap]
  · rw [if_neg hlength, if_neg (Ne.symm hlength), ← Std.OrientedOrd.eq_swap]

theorem termSight_swap {a b : Term} (ha : Plain a) (hb : Plain b) :
    (termSight a b).swap = termSight b a := by
  cases ha <;> cases hb <;> first
    | rfl
    | exact TBinary.sight_swap _ _
    | simp [termSight, ← Std.OrientedOrd.eq_swap, cmpAtoms_swap]

theorem oneEnds_comm (a b : Term) : oneEnds a b = oneEnds b a := by
  cases a <;> cases b <;> rfl

theorem oneEnds_cases {a b : Term} (h : oneEnds a b) :
    (a = .nil ∧ ∃ addr hd tl, b = .cons addr hd tl) ∨
      (∃ addr hd tl, a = .cons addr hd tl) ∧ b = .nil := by
  rw [oneEnds.eq_def] at h
  split at h
  · exact .inl ⟨rfl, _, _, _, rfl⟩
  · exact .inr ⟨⟨_, _, _, rfl⟩, rfl⟩
  · cases h

theorem goesInto_comm {a b : Term} : goesInto a b ↔ goesInto b a := by
  cases a <;> cases b <;> first
    | exact Iff.rfl
    | exact eq_comm

theorem sights_leaf {a b : Term} (hraw : a.raw ≠ b.raw) (hleaf : ¬ goesInto a b) :
    sights a b = [termSight a b] := by
  rw [sights, places_leaf hraw hleaf]
  rfl

theorem sightsOfAll_cons (a b : Term) (as bs : List Term) :
    sightsOfAll (a :: as) (b :: bs) = sights a b ++ sightsOfAll as bs := by
  rw [sightsOfAll, placesOfAll, List.map_append]
  rfl

theorem sightsOfAll_swap {as bs : List Term}
    (hswap : ∀ a ∈ as, ∀ b ∈ bs, (sights a b).map Sight.swap = sights b a) :
    (sightsOfAll as bs).map Sight.swap = sightsOfAll bs as := by
  induction as generalizing bs with
  | nil => cases bs <;> rfl
  | cons a as ih =>
      cases bs with
      | nil => rfl
      | cons b bs =>
          have hrest := ih fun x hx y hy =>
            hswap x (List.mem_cons_of_mem a hx) y (List.mem_cons_of_mem b hy)
          rw [sightsOfAll_cons, sightsOfAll_cons, List.map_append, hrest,
            hswap a List.mem_cons_self b List.mem_cons_self]

theorem sights_cons {addr addr' : Nat} {aHead atl bHead btl : Term} (haddr : addr ≠ addr') :
    sights (.cons addr aHead atl) (.cons addr' bHead btl) =
      if aHead.raw = bHead.raw ∧ oneEnds atl btl then [.broken]
      else sights aHead bHead ++ sights atl btl := by
  rw [sights, places_cons haddr]
  split
  · rfl
  · rw [List.map_append]
    rfl

theorem sights_tuple {addr addr' : Nat} {a0 b0 : Term} {restA restB : List Term}
    (haddr : addr ≠ addr') (hlength : restA.length = restB.length) :
    sights (.tuple addr a0 restA) (.tuple addr' b0 restB)
      = sightsOfAll (a0 :: restA) (b0 :: restB) := by
  rw [sights, places_tuple haddr hlength]
  rfl

/-- The places are seen from the other side in the same order. -/
theorem sights_swap (memory : Memory) {a : Term} (ha : Plain a) (hmem : a ∈ memory.terms)
    {b : Term} (hb : Plain b) (hmem' : b ∈ memory.terms) :
    (sights a b).map Sight.swap = sights b a := by
  refine memory.pair_induction (R := fun a b => (sights a b).map Sight.swap = sights b a)
    ?same ?leaf ?cons ?tuple ha hmem hb hmem'
  case same =>
    intro a _
    rw [sights, places_of_raw_eq rfl]
    rfl
  case leaf =>
    intro a b ha hb hraw hleaf
    have hleaf' : ¬ goesInto b a := fun h => hleaf (goesInto_comm.mp h)
    rw [sights_leaf hraw hleaf, sights_leaf (Ne.symm hraw) hleaf', List.map_singleton,
      termSight_swap ha hb]
  case cons =>
    intro addr addr' aHead atl bHead btl haddr _ hheads htails
    rw [sights_cons haddr, sights_cons (Ne.symm haddr)]
    by_cases hends : aHead.raw = bHead.raw ∧ oneEnds atl btl
    · rw [if_pos hends, if_pos ⟨hends.1.symm, oneEnds_comm atl btl ▸ hends.2⟩]
      rfl
    · have hends' : ¬ (bHead.raw = aHead.raw ∧ oneEnds btl atl) := fun h =>
        hends ⟨h.1.symm, oneEnds_comm btl atl ▸ h.2⟩
      rw [if_neg hends, if_neg hends', List.map_append, hheads, htails]
  case tuple =>
    intro addr addr' a0 b0 restA restB haddr hlength helements
    rw [sights_tuple haddr hlength, sights_tuple (Ne.symm haddr) hlength.symm]
    exact sightsOfAll_swap helements

/-- A term that the other one is built from, or the term itself. -/
inductive PartOf (s : Term) : Term → Prop where
  | refl : PartOf s s
  | head {addr : Nat} {hd tl : Term} (h : PartOf s hd) : PartOf s (.cons addr hd tl)
  | tail {addr : Nat} {hd tl : Term} (h : PartOf s tl) : PartOf s (.cons addr hd tl)
  | element {addr : Nat} {data0 t : Term} {rest : List Term} (ht : t ∈ data0 :: rest)
      (h : PartOf s t) : PartOf s (.tuple addr data0 rest)

theorem Plain.part {s t : Term} (ht : Plain t) (hpart : PartOf s t) : Plain s := by
  induction hpart with
  | refl => exact ht
  | head _ ih => cases ht with | cons hhd htl => exact ih hhd
  | tail _ ih => cases ht with | cons hhd htl => exact ih htl
  | element hmem _ ih => exact ih (ht.element hmem)

/-- What the places are of two terms: parts that are different words and are not gone
into, or the tails of two lists after equal heads, of which one has ended. -/
def Place.Of (a b : Term) : Place → Prop
  | between x y => PartOf x a ∧ PartOf y b ∧ x.raw ≠ y.raw ∧ ¬ goesInto x y
  | tails x y => PartOf x a ∧ PartOf y b ∧ oneEnds x y

theorem Place.Of.trans {a b c d : Term} {place : Place} (h : place.Of a b)
    (hac : ∀ x, PartOf x a → PartOf x c) (hbd : ∀ y, PartOf y b → PartOf y d) :
    place.Of c d := by
  cases place with
  | between x y => exact ⟨hac x h.1, hbd y h.2.1, h.2.2⟩
  | tails x y => exact ⟨hac x h.1, hbd y h.2.1, h.2.2⟩

theorem mem_placesOfAll {as bs : List Term} {place : Place}
    (hplace : place ∈ placesOfAll as bs) : ∃ a ∈ as, ∃ b ∈ bs, place ∈ places a b := by
  induction as generalizing bs with
  | nil => cases hplace
  | cons a as ih =>
      cases bs with
      | nil => cases hplace
      | cons b bs =>
          rw [placesOfAll, List.mem_append] at hplace
          rcases hplace with hhead | hrest
          · exact ⟨a, List.mem_cons_self, b, List.mem_cons_self, hhead⟩
          · obtain ⟨x, hx, y, hy, hxy⟩ := ih hrest
            exact ⟨x, List.mem_cons_of_mem a hx, y, List.mem_cons_of_mem b hy, hxy⟩

theorem of_mem_places (memory : Memory) {a : Term} (ha : Plain a) (hmem : a ∈ memory.terms)
    {b : Term} (hb : Plain b) (hmem' : b ∈ memory.terms) :
    ∀ place ∈ places a b, place.Of a b := by
  refine memory.pair_induction (R := fun a b => ∀ place ∈ places a b, place.Of a b)
    ?same ?leaf ?cons ?tuple ha hmem hb hmem'
  case same =>
    intro a _ place hplace
    rw [places_of_raw_eq rfl] at hplace
    cases hplace
  case leaf =>
    intro a b _ _ hraw hleaf place hplace
    rw [places_leaf hraw hleaf, List.mem_singleton] at hplace
    rw [hplace]
    exact ⟨.refl, .refl, hraw, hleaf⟩
  case cons =>
    intro addr addr' aHead atl bHead btl haddr _ hheads htails place hplace
    rw [places_cons haddr] at hplace
    split at hplace
    · rename_i hends
      rw [List.mem_singleton] at hplace
      rw [hplace]
      exact ⟨.tail .refl, .tail .refl, hends.2⟩
    · rcases List.mem_append.mp hplace with hhead | htail
      · exact (hheads place hhead).trans (fun _ => .head) (fun _ => .head)
      · exact (htails place htail).trans (fun _ => .tail) (fun _ => .tail)
  case tuple =>
    intro addr addr' a0 b0 restA restB haddr hlength helements place hplace
    rw [places_tuple haddr hlength] at hplace
    obtain ⟨x, hx, y, hy, hxy⟩ := mem_placesOfAll hplace
    exact (helements x hx y hy place hxy).trans (fun _ => .element hx) (fun _ => .element hy)

end Zeptobeam
