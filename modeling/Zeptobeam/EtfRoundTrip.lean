/-
Which encodings come back as the terms that they encode: when what is built denotes the
term, and nothing of it is written over afterwards.
-/
import Zeptobeam.CompactIntegers
import Zeptobeam.EtfTotal

namespace Zeptobeam

open Fuelled ExtTermFormat Loading BinaryReader
open CompactInteger (limbsValue)

/-! ## The limbs of a big integer -/

theorem littleEndian_append (bytes more : List UInt8) :
    littleEndian (bytes ++ more)
      = littleEndian bytes + 256 ^ bytes.length * littleEndian more := by
  induction bytes with
  | nil => simp [littleEndian]
  | cons b bytes ih =>
      rw [List.cons_append, littleEndian, littleEndian, ih, List.length_cons, Nat.pow_succ]
      ring

theorem littleEndian_zeros (n : Nat) : littleEndian (List.replicate n 0) = 0 := by
  induction n with
  | zero => rfl
  | succ n ih => simp [List.replicate_succ, littleEndian, ih]

theorem littleEndian_append_zeros (bytes : List UInt8) (n : Nat) :
    littleEndian (bytes ++ List.replicate n 0) = littleEndian bytes := by
  rw [littleEndian_append, littleEndian_zeros, Nat.mul_zero, Nat.add_zero]

/-- The words of a memory are the number that its bytes are. -/
theorem limbsValue_wordsOf (n : Nat) (bytes : List UInt8) (hlength : 8 * n ≤ bytes.length) :
    limbsValue (wordsOf n bytes) = littleEndian (bytes.take (8 * n)) := by
  induction n generalizing bytes with
  | zero => rfl
  | succ n ih =>
      have htake : bytes.take (8 * (n + 1)) = bytes.take 8 ++ (bytes.drop 8).take (8 * n) := by
        rw [Nat.mul_succ, Nat.add_comm, List.take_add]
      have hword : (bytes.take 8).length = 8 := List.length_take_of_le (by omega)
      rw [wordsOf, limbsValue, ih (bytes.drop 8) (by rw [List.length_drop]; omega), htake,
        littleEndian_append, hword]
      norm_num

/-- Digits are copied into a memory that is zero behind them. -/
theorem makeLimbsFromBytes_eq {digits : List UInt8} (h : digits.length % 64 ≤ 8) :
    ∃ n zeros, makeLimbsFromBytes .little digits
        = .ok (wordsOf n (digits ++ List.replicate zeros 0)) ∧
      digits.length ≤ 8 * n ∧ 8 * n ≤ digits.length + zeros := by
  simp only [makeLimbsFromBytes, Endianness.default, ne_eq, not_true_eq_false, ↓reduceIte]
  split
  next hleft =>
    have hindex : ((digits.length + 8 - 1) / 8 - 1) * 8
        = digits.length - digits.length % 64 := by omega
    rw [if_neg (by omega), hindex]
    refine ⟨(digits.length + 8 - 1) / 8, 8, ?_, by omega, by omega⟩
    have hwhole : (digits.take (digits.length - digits.length % 64)).length
        = digits.length - digits.length % 64 := List.length_take_of_le (by omega)
    have hback : (digits.drop (digits.length - digits.length % 64)).take (digits.length % 64)
        = digits.drop (digits.length - digits.length % 64) := by
      refine List.take_of_length_le ?_
      rw [List.length_drop]
      omega
    rw [List.take_append_of_le_length (by omega), List.take_take, Nat.min_self, hback,
      List.take_append_drop]
  next hwhole =>
    have hnone : digits.length % 64 = 0 := by omega
    refine ⟨(digits.length + 8 - 1) / 8, 8 * ((digits.length + 8 - 1) / 8)
      - (digits.length - digits.length % 64), ?_, by omega, by omega⟩
    rw [hnone, Nat.sub_zero, List.take_length]

theorem limbsValue_limbsOf {digits : List UInt8} (h : digits.length % 64 ≤ 8) :
    limbsValue (limbsOf digits) = littleEndian digits := by
  obtain ⟨n, zeros, hlimbs, hdigits, hbytes⟩ := makeLimbsFromBytes_eq h
  have hlength : 8 * n ≤ (digits ++ List.replicate zeros 0).length := by
    rwa [List.length_append, List.length_replicate]
  have htake : (digits ++ List.replicate zeros 0).take (8 * n)
      = digits ++ List.replicate (8 * n - digits.length) 0 := by
    rw [List.take_append, List.take_of_length_le hdigits, List.take_replicate,
      Nat.min_eq_left (by omega)]
  simp only [limbsOf, hlimbs]
  rw [limbsValue_wordsOf n _ hlength, htake, littleEndian_append_zeros]

theorem littleEndian_lt (bytes : List UInt8) : littleEndian bytes < 256 ^ bytes.length := by
  induction bytes with
  | nil => exact Nat.one_pos
  | cons b bytes ih =>
      have hbyte := b.toNat_lt
      rw [littleEndian, List.length_cons, Nat.pow_succ]
      omega

theorem lt_of_mem_wordsOf {n limb : Nat} {bytes : List UInt8} (h : limb ∈ wordsOf n bytes) :
    limb < 2 ^ 64 := by
  induction n generalizing bytes with
  | zero => cases h
  | succ n ih =>
      rcases List.mem_cons.mp h with rfl | hrest
      · calc littleEndian (bytes.take 8) < 256 ^ (bytes.take 8).length := littleEndian_lt _
          _ ≤ 256 ^ 8 := Nat.pow_le_pow_right (by decide) (List.length_take_le 8 bytes)
          _ = 2 ^ 64 := by norm_num
      · exact ih hrest

/-- The number that the bytes are in their order. -/
def Endianness.value : Endianness → List UInt8 → Nat
  | .little => littleEndian
  | .big => bigEndian

/-- The limbs are words and the same number as the bytes, and nothing outside of the input and
the output is touched. -/
def LimbsPreserve (inputEndian : Endianness) (b : List UInt8) : Prop :=
  ∃ limbs, makeLimbsFromBytes inputEndian b = .ok limbs ∧ (∀ limb ∈ limbs, limb < 2 ^ 64) ∧
    limbsValue limbs = inputEndian.value b

/-- The limbs are right for bytes in the order of the machine, when at most eight of them are
left over by runs of `WORD_BITS` bytes. -/
theorem limbsPreserve_iff (inputEndian : Endianness) (b : List UInt8) :
    LimbsPreserve inputEndian b ↔ inputEndian = .little ∧ b.length % 64 ≤ 8 := by
  constructor
  · rintro ⟨limbs, hlimbs, -⟩
    cases inputEndian with
    | big => cases hlimbs
    | little =>
        refine ⟨rfl, Nat.le_of_not_lt fun hlong => ?_⟩
        rw [makeLimbsFromBytes_of_lt hlong] at hlimbs
        cases hlimbs
  · rintro ⟨rfl, hshort⟩
    obtain ⟨n, zeros, hlimbs, -⟩ := makeLimbsFromBytes_eq hshort
    refine ⟨_, hlimbs, fun limb => lt_of_mem_wordsOf, ?_⟩
    have hvalue := limbsValue_limbsOf hshort
    simp only [limbsOf, hlimbs] at hvalue
    exact hvalue

/-- Nine bytes: they are read and written past the end. -/
theorem not_limbsPreserve_nine : makeLimbsFromBytes .little [1, 2, 3, 4, 5, 6, 7, 8, 9] =
    .error .outsideAllocation ∧ ¬ LimbsPreserve .little [1, 2, 3, 4, 5, 6, 7, 8, 9] := by
  refine ⟨by decide, ?_⟩
  rintro ⟨limbs, hlimbs, -⟩
  have hfails : makeLimbsFromBytes .little [1, 2, 3, 4, 5, 6, 7, 8, 9] =
      .error .outsideAllocation := by decide
  rw [hfails] at hlimbs
  cases hlimbs

/-! ## What the term that was built has to be -/

/-- The integer of a sign and a size. -/
def Sign.apply : Sign → Nat → Int
  | .positive, n => n
  | .negative, n => -n
  | .zero, _ => 0

namespace Etf

/-- The integer of a sign byte and digits. -/
def bigValue (sign : UInt8) (digits : List UInt8) : Int :=
  if sign = 0 then littleEndian digits else -littleEndian digits

mutual

/-- A term that was built is the encoded one; of integers, a small one if it can be. -/
def Denotes : Etf → Built → Prop
  | .smallInteger value, built => built = .small value.toNat
  | .integer value, built => built = .small value
  | .atomLatin1 name, built => built = .atom (latin1Text name)
  | .atomUtf8 _ name, built => built = .atom name
  | .nil, built | .noList, built => built = .nil
  | .string bytes, built => ∃ cells, built = linkCells cells .nil ∧
      cells.map Prod.snd = bytes.map fun b => .small b.toNat
  | .list elements tail, built => ∃ cells tl, built = linkCells cells tl ∧
      DenotesAll elements (cells.map Prod.snd) ∧ Denotes tail tl
  | .tuple _ elements, built =>
      if elements.length = 0 then built = .emptyTuple
      else ∃ addr data, built = .tuple addr data ∧ DenotesAll elements data
  | .binary data, built =>
      if data.length = 0 then built = .emptyBinary else ∃ addr, built = .binary addr data
  | .big _ sign digits, built =>
      if smallFits (bigValue sign digits) then built = .small (bigValue sign digits)
      else ∃ addr s limbs, built = .bignum addr s limbs ∧
        s.apply (limbsValue limbs) = bigValue sign digits
  | .map pairs, built => ∃ addr entries data, built = .map addr entries ∧
      DenotesAll pairs data ∧ (pairUp data).Perm entries

def DenotesAll : List Etf → List Built → Prop
  | [], built => built = []
  | t :: rest, built => ∃ first others, built = first :: others ∧ Denotes t first ∧
      DenotesAll rest others

end

section

variable (boxHeader : Nat)

mutual

/-- Every big integer is one that needs to be, and no key of a map is found among those
before it. -/
noncomputable def Faithful (addr : Nat) : Etf → Prop
  | .smallInteger _ | .integer _ | .atomLatin1 _ | .atomUtf8 _ _ | .nil | .string _ | .noList
  | .binary _ => True
  | .list elements tail =>
      FaithfulCells addr elements ∧
        Faithful (addr + wordsOfAll boxHeader elements + 2 * elements.length) tail
  | .tuple _ elements => FaithfulAll (addr + (boxHeader + elements.length)) elements
  | .big _ sign digits => ¬ smallFits (bigValue sign digits)
  | .map pairs =>
      FaithfulAll (addr + FlatMap.storageSize boxHeader (pairs.length / 2)) pairs ∧
        ((pairsAt boxHeader addr pairs).getD []).length = pairs.length / 2

noncomputable def FaithfulAll (addr : Nat) : List Etf → Prop
  | [] => True
  | t :: rest => Faithful addr t ∧ FaithfulAll (addr + words boxHeader t) rest

noncomputable def FaithfulCells (addr : Nat) : List Etf → Prop
  | [] => True
  | t :: rest => Faithful addr t ∧ FaithfulCells (addr + words boxHeader t + 2) rest

end

end

end Etf

/-! ## Pairs that are added -/

namespace Built

mutual

/-- How many terms there are in a term, itself included. -/
def nodes : Built → Nat
  | .small _ | .atom _ | .nil | .emptyTuple | .emptyBinary | .binary _ _ | .bignum _ _ _ => 1
  | .cons _ hd tl => 1 + nodes hd + nodes tl
  | .tuple _ elements => 1 + nodesOfAll elements
  | .map _ pairs => 1 + nodesOfPairs pairs

def nodesOfAll : List Built → Nat
  | [] => 0
  | t :: rest => nodes t + nodesOfAll rest

def nodesOfPairs : List (Built × Built) → Nat
  | [] => 0
  | (key, value) :: rest => nodes key + nodes value + nodesOfPairs rest

end

mutual

/-- No big integer would fit in a small one. -/
def Canonical : Built → Prop
  | .small _ | .atom _ | .nil | .emptyTuple | .emptyBinary | .binary _ _ => True
  | .bignum _ s limbs => ¬ smallFits (s.apply (limbsValue limbs))
  | .cons _ hd tl => Canonical hd ∧ Canonical tl
  | .tuple _ elements => CanonicalAll elements
  | .map _ pairs => CanonicalPairs pairs

def CanonicalAll : List Built → Prop
  | [] => True
  | t :: rest => Canonical t ∧ CanonicalAll rest

def CanonicalPairs : List (Built × Built) → Prop
  | [] => True
  | (key, value) :: rest => (Canonical key ∧ Canonical value) ∧ CanonicalPairs rest

end

theorem nodes_pos (t : Built) : 0 < t.nodes := by
  cases t <;> simp only [nodes] <;> omega

theorem nodesOfPairs_eq_sum (pairs : List (Built × Built)) :
    nodesOfPairs pairs = (pairs.map fun p => p.1.nodes + p.2.nodes).sum := by
  induction pairs with
  | nil => rfl
  | cons p pairs ih => rw [nodesOfPairs, ih, List.map_cons, List.sum_cons]

theorem nodesOfPairs_perm {pairs pairs' : List (Built × Built)} (h : pairs.Perm pairs') :
    nodesOfPairs pairs = nodesOfPairs pairs' := by
  rw [nodesOfPairs_eq_sum, nodesOfPairs_eq_sum]
  exact (h.map _).sum_nat

theorem nodesOfPairs_append (pairs pairs' : List (Built × Built)) :
    nodesOfPairs (pairs ++ pairs') = nodesOfPairs pairs + nodesOfPairs pairs' := by
  rw [nodesOfPairs_eq_sum, nodesOfPairs_eq_sum, nodesOfPairs_eq_sum, List.map_append,
    List.sum_append]

theorem canonicalPairs_iff (pairs : List (Built × Built)) :
    CanonicalPairs pairs ↔ ∀ p ∈ pairs, p.1.Canonical ∧ p.2.Canonical := by
  induction pairs with
  | nil => simp [CanonicalPairs]
  | cons p pairs ih => rw [CanonicalPairs, ih, List.forall_mem_cons]

theorem canonicalPairs_perm {pairs pairs' : List (Built × Built)} (h : pairs.Perm pairs')
    (hcanonical : CanonicalPairs pairs) : CanonicalPairs pairs' := by
  rw [canonicalPairs_iff] at hcanonical ⊢
  exact fun p hp => hcanonical p (h.mem_iff.mpr hp)

/-- A pair that takes the place of another one. -/
theorem nodesOfPairs_set_lt (pairs : List (Built × Built)) (pos : Nat) (key value : Built) :
    nodesOfPairs (pairs.set pos (key, value))
      < nodesOfPairs pairs + (key.nodes + value.nodes) := by
  have hpos := key.nodes_pos
  induction pairs generalizing pos with
  | nil =>
      rw [List.set_nil]
      omega
  | cons p pairs ih =>
      have hp := p.1.nodes_pos
      cases pos with
      | zero =>
          rw [List.set_cons_zero, nodesOfPairs, nodesOfPairs]
          omega
      | succ pos =>
          have h := ih pos
          rw [List.set_cons_succ, nodesOfPairs, nodesOfPairs]
          omega

/-- Keys and values in turn are the terms of their pairs. -/
theorem nodesOfPairs_pairUp_le (data : List Built) :
    nodesOfPairs (pairUp data) ≤ nodesOfAll data := by
  match data with
  | [] => exact Nat.le_refl _
  | [_] => exact Nat.zero_le _
  | key :: value :: rest =>
      have h := nodesOfPairs_pairUp_le rest
      simp only [pairUp, nodesOfPairs, nodesOfAll]
      omega

theorem nodesOfPairs_pairUp {data : List Built} (heven : data.length % 2 = 0) :
    nodesOfPairs (pairUp data) = nodesOfAll data := by
  match data, heven with
  | [], _ => rfl
  | key :: value :: rest, heven =>
      have hrest : rest.length % 2 = 0 := by
        rw [List.length_cons, List.length_cons] at heven
        omega
      have h := nodesOfPairs_pairUp hrest
      simp only [pairUp, nodesOfPairs, nodesOfAll, h]
      omega

theorem length_pairUp (data : List Built) : (pairUp data).length = data.length / 2 := by
  match data with
  | [] => simp [pairUp]
  | [_] => simp [pairUp]
  | _ :: _ :: rest =>
      have h := length_pairUp rest
      simp only [pairUp, List.length_cons, h]
      omega

theorem canonicalPairs_pairUp {data : List Built} (heven : data.length % 2 = 0) :
    CanonicalPairs (pairUp data) ↔ CanonicalAll data := by
  match data, heven with
  | [], _ => exact Iff.rfl
  | key :: value :: rest, heven =>
      have hrest : rest.length % 2 = 0 := by
        rw [List.length_cons, List.length_cons] at heven
        omega
      have h := canonicalPairs_pairUp hrest
      simp only [pairUp, CanonicalPairs, CanonicalAll, h, and_assoc]

/-! ## Cells -/

theorem nodes_linkCells (cells : List (Nat × Built)) (tl : Built) :
    (linkCells cells tl).nodes
      = cells.length + nodesOfAll (cells.map Prod.snd) + tl.nodes := by
  induction cells with
  | nil => simp [linkCells, nodesOfAll]
  | cons cell cells ih =>
      have hlink : linkCells (cell :: cells) tl = .cons cell.1 cell.2 (linkCells cells tl) := rfl
      rw [hlink, nodes, ih, List.map_cons, nodesOfAll, List.length_cons]
      omega

theorem canonical_linkCells (cells : List (Nat × Built)) (tl : Built) :
    (linkCells cells tl).Canonical ↔ CanonicalAll (cells.map Prod.snd) ∧ tl.Canonical := by
  induction cells with
  | nil => simp [linkCells, CanonicalAll]
  | cons cell cells ih =>
      have hlink : linkCells (cell :: cells) tl = .cons cell.1 cell.2 (linkCells cells tl) := rfl
      rw [hlink, Canonical, ih, List.map_cons, CanonicalAll, and_assoc]

end Built

/-- A pair is added beside the others, or in the place of one of them. -/
theorem addToMap_cases {fuel capacity : Nat} {built built' : List (Built × Built)}
    {key value : Built} (h : addToMap fuel capacity built key value = .ok built') :
    built'.Perm (built ++ [(key, value)]) ∨ built'.length ≤ built.length ∧
      Built.nodesOfPairs built' < Built.nodesOfPairs built + (key.nodes + value.nodes) := by
  unfold addToMap at h
  cases hget : FlatMap.getFlatmap fuel ⟨capacity, built.map fun p => (p.1.term, p.2.term)⟩
      key.term with
  | error p => simp [hget, bind, Except.bind] at h
  | ok r =>
      simp only [hget, bind, Except.bind] at h
      cases r with
      | foundAt pos =>
          cases h
          exact .inr ⟨by rw [List.length_set], Built.nodesOfPairs_set_lt built pos key value⟩
      | closestLarger pos =>
          dsimp only at h
          split at h
          next => cases h
          next =>
            cases h
            by_cases hpos : pos ≤ built.length
            · exact .inl ((List.perm_insertIdx _ _ hpos).trans
                (List.perm_append_singleton _ _).symm)
            · rw [List.insertIdx_of_length_lt (Nat.not_le.mp hpos)]
              have hnodes := key.nodes_pos
              exact .inr ⟨Nat.le_refl _, by omega⟩

/-- All pairs are added beside the others, or one of them took another one's place. -/
theorem addAll_cases {capacity : Nat} {built pairs result : List (Built × Built)}
    (h : addAll capacity built pairs = some result) :
    result.Perm (built ++ pairs) ∨ result.length < built.length + pairs.length ∧
      Built.nodesOfPairs result < Built.nodesOfPairs built + Built.nodesOfPairs pairs := by
  induction pairs generalizing built with
  | nil =>
      cases h
      exact .inl (by rw [List.append_nil])
  | cons p pairs ih =>
      obtain ⟨key, value⟩ := p
      rw [addAll] at h
      obtain ⟨built', hsettled, hrest⟩ := Option.bind_eq_some_iff.mp h
      obtain ⟨least, hleast⟩ := settled_eq_some_iff.mp hsettled
      have hadded := addToMap_cases (hleast least (Nat.le_refl least))
      have hresult := ih hrest
      rw [List.length_cons, Built.nodesOfPairs]
      rcases hadded with hperm | ⟨hlength, hnodes⟩
      · have hlength := hperm.length_eq
        have hnodes := Built.nodesOfPairs_perm hperm
        rw [List.length_append, List.length_singleton] at hlength
        rw [Built.nodesOfPairs_append] at hnodes
        simp only [Built.nodesOfPairs] at hnodes
        rcases hresult with hperm' | ⟨hless, hnodes'⟩
        · left
          have happend := hperm'.trans (hperm.append_right pairs)
          rwa [List.append_assoc] at happend
        · exact .inr ⟨by omega, by omega⟩
      · right
        rcases hresult with hperm' | ⟨hless, hnodes'⟩
        · have hlength' := hperm'.length_eq
          have hnodes' := Built.nodesOfPairs_perm hperm'
          rw [List.length_append] at hlength'
          rw [Built.nodesOfPairs_append] at hnodes'
          exact ⟨by omega, by omega⟩
        · exact ⟨by omega, by omega⟩

/-! ## What is built, and what was encoded -/

namespace Etf

open Built (nodesOfAll nodesOfPairs CanonicalAll CanonicalPairs)

mutual

/-- How many terms there are in the term that is encoded. -/
def nodes : Etf → Nat
  | .smallInteger _ | .integer _ | .atomLatin1 _ | .atomUtf8 _ _ | .nil | .noList | .binary _
  | .big _ _ _ => 1
  | .string bytes => 2 * bytes.length + 1
  | .list elements tail => elements.length + nodesAll elements + nodes tail
  | .tuple _ elements => 1 + nodesAll elements
  | .map pairs => 1 + nodesAll pairs

def nodesAll : List Etf → Nat
  | [] => 0
  | t :: rest => nodes t + nodesAll rest

end

theorem nodesOfAll_smalls (bytes : List UInt8) :
    nodesOfAll (bytes.map fun b => .small b.toNat) = bytes.length ∧
      CanonicalAll (bytes.map fun b => .small b.toNat) := by
  induction bytes with
  | nil => exact ⟨rfl, trivial⟩
  | cons b bytes ih =>
      refine ⟨?_, trivial, ih.2⟩
      rw [List.map_cons, nodesOfAll, ih.1, List.length_cons, Built.nodes, Nat.add_comm]

/-- What denotes a term has as many terms, and integers that are big only if they need to be. -/
def Alike (t : Etf) : Prop :=
  ∀ built, t.Denotes built → built.nodes = t.nodes ∧ built.Canonical

theorem alike_all {ts : List Etf} (hts : ∀ t ∈ ts, t.Alike) {data : List Built}
    (h : DenotesAll ts data) :
    data.length = ts.length ∧ nodesOfAll data = nodesAll ts ∧ CanonicalAll data := by
  induction ts generalizing data with
  | nil =>
      obtain rfl : data = [] := h
      exact ⟨rfl, rfl, trivial⟩
  | cons t ts ih =>
      obtain ⟨first, others, rfl, hfirst, hothers⟩ := h
      obtain ⟨ht, hts⟩ := List.forall_mem_cons.mp hts
      obtain ⟨hnodes, hcanonical⟩ := ht first hfirst
      obtain ⟨hlength, hnodesRest, hcanonicalRest⟩ := ih hts hothers
      exact ⟨by rw [List.length_cons, List.length_cons, hlength],
        by rw [nodesOfAll, nodesAll, hnodes, hnodesRest], hcanonical, hcanonicalRest⟩

theorem alike {t : Etf} (ht : t.WellFormed) : t.Alike := by
  induction ht with
  | smallInteger | integer | atomLatin1 | atomUtf8 | nil | noList =>
      rintro built rfl
      exact ⟨rfl, trivial⟩
  | @string bytes hsize =>
      rintro built ⟨cells, rfl, hcells⟩
      obtain ⟨hnodes, hcanonical⟩ := nodesOfAll_smalls bytes
      have hlength := congrArg List.length hcells
      rw [List.length_map, List.length_map] at hlength
      rw [Built.nodes_linkCells, Built.canonical_linkCells, hcells, hnodes, hlength, nodes]
      exact ⟨by simp only [Built.nodes]; omega, hcanonical, trivial⟩
  | list hne hsize _ _ helements htail =>
      rintro built ⟨cells, tl, rfl, hcells, htl⟩
      obtain ⟨hlength, hnodes, hcanonical⟩ := alike_all helements hcells
      obtain ⟨hnodesTail, hcanonicalTail⟩ := htail tl htl
      rw [List.length_map] at hlength
      rw [Built.nodes_linkCells, Built.canonical_linkCells, hnodes, hlength, hnodesTail, nodes]
      exact ⟨rfl, hcanonical, hcanonicalTail⟩
  | @tuple wide elements hsize _ helements =>
      intro built h
      rw [Denotes] at h
      split at h
      next hzero =>
        obtain rfl := List.eq_nil_of_length_eq_zero hzero
        obtain rfl := h
        exact ⟨rfl, trivial⟩
      next =>
        obtain ⟨addr, data, rfl, hdata⟩ := h
        obtain ⟨-, hnodes, hcanonical⟩ := alike_all helements hdata
        exact ⟨by rw [Built.nodes, nodes, hnodes], hcanonical⟩
  | binary hsize =>
      intro built h
      rw [Denotes] at h
      split at h
      next =>
        obtain rfl := h
        exact ⟨rfl, trivial⟩
      next =>
        obtain ⟨addr, rfl⟩ := h
        exact ⟨rfl, trivial⟩
  | big hsize =>
      intro built h
      rw [Denotes] at h
      split at h
      next =>
        obtain rfl := h
        exact ⟨rfl, trivial⟩
      next hlarge =>
        obtain ⟨addr, s, limbs, rfl, hvalue⟩ := h
        exact ⟨rfl, by rwa [Built.Canonical, hvalue]⟩
  | map heven hsize _ hpairs =>
      rintro built ⟨addr, entries, data, rfl, hdata, hperm⟩
      obtain ⟨hlength, hnodes, hcanonical⟩ := alike_all hpairs hdata
      rw [← hlength] at heven
      have hentries := Built.nodesOfPairs_perm hperm
      rw [Built.nodesOfPairs_pairUp heven] at hentries
      refine ⟨by rw [Built.nodes, nodes, ← hentries, hnodes], ?_⟩
      exact Built.canonicalPairs_perm hperm ((Built.canonicalPairs_pairUp heven).mpr hcanonical)

section Place

variable (boxHeader : Nat)

theorem map_snd_cellsFrom (addr : Nat) (values : List Built) :
    (cellsFrom addr values).map Prod.snd = values := by
  induction values generalizing addr with
  | nil => rfl
  | cons value values ih => rw [cellsFrom, List.map_cons, ih]

/-- The keys and values of a map, where they are placed. -/
noncomputable def dataAt (addr : Nat) (pairs : List Etf) : List Built :=
  placeAll boxHeader (addr + FlatMap.storageSize boxHeader (pairs.length / 2)) pairs

theorem pairsAt_cases {addr : Nat} {pairs : List Etf} {entries : List (Built × Built)}
    (h : pairsAt boxHeader addr pairs = some entries) :
    entries.Perm (pairUp (dataAt boxHeader addr pairs)) ∨
      entries.length < (pairUp (dataAt boxHeader addr pairs)).length ∧
        nodesOfPairs entries < nodesOfPairs (pairUp (dataAt boxHeader addr pairs)) := by
  have hcases := addAll_cases h
  simp only [List.nil_append, List.length_nil, Nat.zero_add, nodesOfPairs] at hcases
  exact hcases

theorem nodesOfPairs_pairsAt_le (addr : Nat) (pairs : List Etf) :
    nodesOfPairs ((pairsAt boxHeader addr pairs).getD [])
      ≤ nodesOfAll (dataAt boxHeader addr pairs) := by
  refine Nat.le_trans ?_ (Built.nodesOfPairs_pairUp_le _)
  cases hpairs : pairsAt boxHeader addr pairs with
  | none => exact Nat.zero_le _
  | some entries =>
      rcases pairsAt_cases boxHeader hpairs with hperm | ⟨-, hless⟩
      · exact Nat.le_of_eq (Built.nodesOfPairs_perm hperm)
      · exact Nat.le_of_lt hless

mutual

/-- What is built has no more terms than there are: maps may lose pairs. -/
theorem nodes_place_le (t : Etf) (addr : Nat) : (place boxHeader addr t).nodes ≤ t.nodes := by
  cases t with
  | smallInteger | integer | atomLatin1 | atomUtf8 | nil | noList | big => exact Nat.le_refl _
  | string bytes =>
      have hlength := congrArg List.length
        (map_snd_cellsFrom addr (bytes.map fun b => .small b.toNat))
      rw [List.length_map, List.length_map] at hlength
      rw [place, Built.nodes_linkCells, map_snd_cellsFrom, (nodesOfAll_smalls bytes).1, hlength,
        nodes, Built.nodes]
      omega
  | list elements tail =>
      have hcells := nodes_placeCells_le elements addr
      have htail := nodes_place_le tail
        (addr + wordsOfAll boxHeader elements + 2 * elements.length)
      rw [place, Built.nodes_linkCells, nodes]
      omega
  | tuple wide elements =>
      have hall := nodes_placeAll_le elements (addr + (boxHeader + elements.length))
      rw [place, nodes]
      split
      next => exact Nat.le_add_right 1 _
      next =>
        rw [Built.nodes]
        omega
  | binary data =>
      rw [place]
      split <;> exact Nat.le_refl _
  | map pairs =>
      have hall : nodesOfAll (dataAt boxHeader addr pairs) ≤ nodesAll pairs :=
        nodes_placeAll_le pairs (addr + FlatMap.storageSize boxHeader (pairs.length / 2))
      have hentries := nodesOfPairs_pairsAt_le boxHeader addr pairs
      change 1 + nodesOfPairs ((pairsAt boxHeader addr pairs).getD []) ≤ 1 + nodesAll pairs
      omega

theorem nodes_placeAll_le (ts : List Etf) (addr : Nat) :
    nodesOfAll (placeAll boxHeader addr ts) ≤ nodesAll ts := by
  cases ts with
  | nil => exact Nat.le_refl _
  | cons t rest =>
      have hfirst := nodes_place_le t addr
      have hrest := nodes_placeAll_le rest (addr + words boxHeader t)
      rw [placeAll, nodesOfAll, nodesAll]
      omega

theorem nodes_placeCells_le (ts : List Etf) (addr : Nat) :
    (placeCells boxHeader addr ts).length = ts.length ∧
      nodesOfAll ((placeCells boxHeader addr ts).map Prod.snd) ≤ nodesAll ts := by
  cases ts with
  | nil => exact ⟨rfl, Nat.le_refl _⟩
  | cons t rest =>
      have hfirst := nodes_place_le t addr
      have hrest := nodes_placeCells_le rest (addr + words boxHeader t + 2)
      rw [placeCells, List.map_cons, nodesOfAll, nodesAll, List.length_cons, List.length_cons]
      dsimp only
      omega

end

variable {boxHeader} {limit : Nat}

/-- Where a term fits, it comes back if it is faithful; and it is, if what comes back has as
many terms and integers that are big only if they need to be. -/
structure Returned (boxHeader limit : Nat) (t : Etf) : Prop where
  denotes : ∀ addr, t.Fits boxHeader limit addr → t.Faithful boxHeader addr →
    t.Denotes (t.place boxHeader addr)
  faithful : ∀ addr, t.Fits boxHeader limit addr →
    (t.place boxHeader addr).nodes = t.nodes → (t.place boxHeader addr).Canonical →
    t.Faithful boxHeader addr

section Many

variable {ts : List Etf} (hts : ∀ t ∈ ts, t.Returned boxHeader limit)

include hts

theorem denotes_placeAll {addr : Nat} (hfits : FitsAll boxHeader limit addr ts)
    (hfaithful : FaithfulAll boxHeader addr ts) :
    DenotesAll ts (placeAll boxHeader addr ts) := by
  induction ts generalizing addr with
  | nil => rfl
  | cons t ts ih =>
      obtain ⟨ht, hts⟩ := List.forall_mem_cons.mp hts
      exact ⟨_, _, rfl, ht.denotes addr hfits.1 hfaithful.1, ih hts hfits.2 hfaithful.2⟩

theorem denotes_placeCells {addr : Nat} (hfits : FitsCells boxHeader limit addr ts)
    (hfaithful : FaithfulCells boxHeader addr ts) :
    DenotesAll ts ((placeCells boxHeader addr ts).map Prod.snd) := by
  induction ts generalizing addr with
  | nil => rfl
  | cons t ts ih =>
      obtain ⟨ht, hts⟩ := List.forall_mem_cons.mp hts
      exact ⟨_, _, rfl, ht.denotes addr hfits.1 hfaithful.1, ih hts hfits.2.2 hfaithful.2⟩

theorem faithful_placeAll {addr : Nat} (hfits : FitsAll boxHeader limit addr ts)
    (hnodes : nodesOfAll (placeAll boxHeader addr ts) = nodesAll ts)
    (hcanonical : CanonicalAll (placeAll boxHeader addr ts)) :
    FaithfulAll boxHeader addr ts := by
  induction ts generalizing addr with
  | nil => trivial
  | cons t ts ih =>
      obtain ⟨ht, hts⟩ := List.forall_mem_cons.mp hts
      have hfirst := nodes_place_le boxHeader t addr
      have hrest := nodes_placeAll_le boxHeader ts (addr + words boxHeader t)
      rw [placeAll, nodesOfAll, nodesAll] at hnodes
      exact ⟨ht.faithful addr hfits.1 (by omega) hcanonical.1,
        ih hts hfits.2 (by omega) hcanonical.2⟩

theorem faithful_placeCells {addr : Nat} (hfits : FitsCells boxHeader limit addr ts)
    (hnodes : nodesOfAll ((placeCells boxHeader addr ts).map Prod.snd) = nodesAll ts)
    (hcanonical : CanonicalAll ((placeCells boxHeader addr ts).map Prod.snd)) :
    FaithfulCells boxHeader addr ts := by
  induction ts generalizing addr with
  | nil => trivial
  | cons t ts ih =>
      obtain ⟨ht, hts⟩ := List.forall_mem_cons.mp hts
      have hfirst := nodes_place_le boxHeader t addr
      have hrest := (nodes_placeCells_le boxHeader ts (addr + words boxHeader t + 2)).2
      rw [placeCells, List.map_cons, nodesOfAll, nodesAll] at hnodes
      dsimp only at hnodes
      exact ⟨ht.faithful addr hfits.1 (by omega) hcanonical.1,
        ih hts hfits.2.2 (by omega) hcanonical.2⟩

end Many

theorem returned_list {elements : List Etf} {tail : Etf}
    (helements : ∀ t ∈ elements, t.Returned boxHeader limit)
    (htail : tail.Returned boxHeader limit) : (list elements tail).Returned boxHeader limit := by
  refine ⟨fun addr hfits hfaithful => ?_, fun addr hfits hnodes hcanonical => ?_⟩
  · exact ⟨_, _, rfl, denotes_placeCells helements hfits.1 hfaithful.1,
      htail.denotes _ hfits.2 hfaithful.2⟩
  · obtain ⟨hlength, hcells⟩ := nodes_placeCells_le boxHeader elements addr
    have htl := nodes_place_le boxHeader tail
      (addr + wordsOfAll boxHeader elements + 2 * elements.length)
    rw [place, Built.canonical_linkCells] at hcanonical
    rw [place, Built.nodes_linkCells, nodes, hlength] at hnodes
    exact ⟨faithful_placeCells helements hfits.1 (by omega) hcanonical.1,
      htail.faithful _ hfits.2 (by omega) hcanonical.2⟩

theorem returned_tuple {wide : Bool} {elements : List Etf}
    (helements : ∀ t ∈ elements, t.Returned boxHeader limit) :
    (tuple wide elements).Returned boxHeader limit := by
  by_cases hzero : elements.length = 0
  · obtain rfl := List.eq_nil_of_length_eq_zero hzero
    exact ⟨fun _ _ _ => rfl, fun _ _ _ _ => trivial⟩
  · refine ⟨fun addr hfits hfaithful => ?_, fun addr hfits hnodes hcanonical => ?_⟩
    · have hall := (hfits.resolve_left hzero).2
      simp only [Denotes, place, hzero, ↓reduceIte]
      exact ⟨_, _, rfl, denotes_placeAll helements hall hfaithful⟩
    · have hall := (hfits.resolve_left hzero).2
      simp only [place, hzero, ↓reduceIte, Built.nodes, Built.Canonical, nodes] at hnodes hcanonical
      exact faithful_placeAll helements hall (by omega) hcanonical

theorem returned_big {wide : Bool} {sign : UInt8} {digits : List UInt8} :
    (big wide sign digits).Returned boxHeader limit := by
  have hvalue : ∀ addr, (big wide sign digits).Fits boxHeader limit addr →
      (if sign = 0 then Sign.positive else .negative).apply (limbsValue (limbsOf digits))
        = bigValue sign digits := by
    intro addr hfits
    rw [limbsValue_limbsOf hfits.1, bigValue]
    split <;> rfl
  refine ⟨fun addr hfits hfaithful => ?_, fun addr hfits _ hcanonical => ?_⟩
  · rw [Denotes, if_neg hfaithful]
    exact ⟨_, _, _, rfl, hvalue addr hfits⟩
  · rwa [place, Built.Canonical, hvalue addr hfits] at hcanonical

theorem length_placeAll (addr : Nat) (ts : List Etf) :
    (placeAll boxHeader addr ts).length = ts.length := by
  induction ts generalizing addr with
  | nil => rfl
  | cons t ts ih => rw [placeAll, List.length_cons, List.length_cons, ih]

theorem returned_map {pairs : List Etf} (heven : pairs.length % 2 = 0)
    (hpairs : ∀ t ∈ pairs, t.Returned boxHeader limit) :
    (map pairs).Returned boxHeader limit := by
  have hlength : ∀ addr, (dataAt boxHeader addr pairs).length = pairs.length :=
    fun addr => length_placeAll _ pairs
  have hplace : ∀ addr, place boxHeader addr (.map pairs)
      = .map addr ((pairsAt boxHeader addr pairs).getD []) := fun _ => rfl
  refine ⟨fun addr hfits hfaithful => ?_, fun addr hfits hnodes hcanonical => ?_⟩
  · obtain ⟨entries, hentries⟩ := Option.isSome_iff_exists.mp hfits.2.2
    have hfull := hfaithful.2
    rw [hplace]
    rw [hentries, Option.getD_some] at hfull ⊢
    rcases pairsAt_cases boxHeader hentries with hperm | ⟨hless, -⟩
    · exact ⟨addr, entries, dataAt boxHeader addr pairs, rfl,
        denotes_placeAll hpairs hfits.2.1 hfaithful.1, hperm.symm⟩
    · rw [Built.length_pairUp, hlength, hfull] at hless
      exact absurd hless (Nat.lt_irrefl _)
  · obtain ⟨entries, hentries⟩ := Option.isSome_iff_exists.mp hfits.2.2
    rw [hplace, hentries, Option.getD_some] at hnodes hcanonical
    rw [Built.nodes, nodes] at hnodes
    rw [Built.Canonical] at hcanonical
    have hplaced : nodesOfAll (dataAt boxHeader addr pairs) ≤ nodesAll pairs :=
      nodes_placeAll_le boxHeader pairs _
    have hpaired : nodesOfPairs (pairUp (dataAt boxHeader addr pairs))
        = nodesOfAll (dataAt boxHeader addr pairs) :=
      Built.nodesOfPairs_pairUp (by rwa [hlength])
    rcases pairsAt_cases boxHeader hentries with hperm | ⟨-, hless⟩
    · have hkept := Built.nodesOfPairs_perm hperm
      have hall := (Built.canonicalPairs_pairUp (by rwa [hlength])).mp
        (Built.canonicalPairs_perm hperm hcanonical)
      refine ⟨faithful_placeAll hpairs hfits.2.1 ?_ hall, ?_⟩
      · change nodesOfAll (dataAt boxHeader addr pairs) = nodesAll pairs
        omega
      · rw [hentries, Option.getD_some, hperm.length_eq, Built.length_pairUp, hlength]
    · omega

theorem returned {t : Etf} (ht : t.WellFormed) : t.Returned boxHeader limit := by
  induction ht with
  | smallInteger | integer | atomLatin1 | atomUtf8 | nil | noList =>
      exact ⟨fun _ _ _ => rfl, fun _ _ _ _ => trivial⟩
  | string hsize =>
      exact ⟨fun addr _ _ => ⟨_, rfl, map_snd_cellsFrom addr _⟩, fun _ _ _ _ => trivial⟩
  | list _ _ _ _ helements htail => exact returned_list helements htail
  | tuple _ _ helements => exact returned_tuple helements
  | binary hsize =>
      refine ⟨fun addr _ _ => ?_, fun _ _ _ _ => trivial⟩
      rw [Denotes, place]
      split
      next => rfl
      next => exact ⟨addr, rfl⟩
  | big hsize => exact returned_big
  | map heven _ _ hpairs => exact returned_map heven hpairs

/-- What is built from an encoding that fits is the encoded term exactly if the encoding is
faithful. -/
theorem denotes_place_iff {ts : List Etf} (hts : ∀ t ∈ ts, t.WellFormed) {addr : Nat}
    (hfits : FitsAll boxHeader limit addr ts) :
    DenotesAll ts (placeAll boxHeader addr ts) ↔ FaithfulAll boxHeader addr ts := by
  have hreturned : ∀ t ∈ ts, t.Returned boxHeader limit := fun t ht => returned (hts t ht)
  constructor
  · intro hdenotes
    obtain ⟨-, hnodes, hcanonical⟩ := alike_all (fun t ht => alike (hts t ht)) hdenotes
    exact faithful_placeAll hreturned hfits hnodes hcanonical
  · exact denotes_placeAll hreturned hfits

end Place

end Etf

end Zeptobeam
