/-
The comparison of terms against the order of Erlang's terms, for atoms, for binaries and for
terms of different classes.  Names and binaries are compared by their lengths before they
are compared by their bytes, the empty map has no class of its own, and two boxed terms of
different classes are not compared at all.
-/
import Mathlib.Algebra.Ring.Int.Defs
import Mathlib.Algebra.Ring.Nat
import Zeptobeam.TermEquality

namespace Zeptobeam

open SideBySide LexCode

/-! ## Erlang's order -/

/-- The classes of terms, the least one first. -/
inductive ErlangClass where
  | number
  | atom
  | reference
  | function
  | port
  | pid
  | tuple
  | map
  | list
  | bitstring
deriving DecidableEq, Repr

def ErlangClass.rank : ErlangClass → Nat
  | number => 0
  | atom => 1
  | reference => 2
  | function => 3
  | port => 4
  | pid => 5
  | tuple => 6
  | map => 7
  | list => 8
  | bitstring => 9

/-- The class of a term; match states and jump tables are no terms of Erlang. -/
def erlangClass : Term → Option ErlangClass
  | .small _ | .boxed _ .bigInteger | .boxed _ (.float _) => some .number
  | .atom _ => some .atom
  | .boxed _ .closure | .boxed _ .importFun | .boxed _ .exportFun => some .function
  | .localPid _ | .boxed _ .externalPid => some .pid
  | .emptyTuple | .tuple _ _ _ => some .tuple
  | .emptyMap | .boxed _ (.map _) => some .map
  | .nil | .cons _ _ _ => some .list
  | .emptyBinary | .binary _ _ => some .bitstring
  | .boxed _ .binaryMatchState | .boxed _ .jumpTable => none

/-- The byte at a bit position of the data, zeros behind it. -/
def byteAt (data : List UInt8) (position : Nat) : UInt8 :=
  UInt8.ofNat ((data[position / 8]?.getD 0).toNat * 2 ^ (position % 8)
    + (data[position / 8 + 1]?.getD 0).toNat / 2 ^ (8 - position % 8))

namespace TBinary

def WholeBytes (b : TBinary) : Prop :=
  b.bitSize % 8 = 0

instance (b : TBinary) : Decidable b.WholeBytes :=
  inferInstanceAs (Decidable (_ = _))

/-- The bytes of a binary, which may begin at any bit of its buffer. -/
def byteList (b : TBinary) : List UInt8 :=
  (List.range (b.bitSize / 8)).map fun i =>
    byteAt b.bitReader.data (b.bitReader.offset + i * 8)

end TBinary

/-- What Erlang makes of the two terms, if they are two atoms, two binaries, or of different
classes. -/
def erlangOrder (a b : Term) : Option Ordering :=
  match a, b with
  | .atom x, .atom y => some (compare (nameBytes x) (nameBytes y))
  | .emptyBinary, .emptyBinary => some .eq
  | .emptyBinary, .binary _ y => if y.1.WholeBytes then some (compare [] y.1.byteList) else none
  | .binary _ x, .emptyBinary => if x.1.WholeBytes then some (compare x.1.byteList []) else none
  | .binary _ x, .binary _ y =>
      if x.1.WholeBytes ∧ y.1.WholeBytes then some (compare x.1.byteList y.1.byteList)
      else none
  | a, b =>
      match erlangClass a, erlangClass b with
      | some classA, some classB =>
          if classA = classB then none else some (compare classA.rank classB.rank)
      | _, _ => none

/-! ## Binaries -/

/-- The bits of two bytes that are shifted together. -/
theorem shift_or (b0 b1 : UInt8) {shift : Nat} (hpos : shift ≠ 0) (hlt : shift < 8) :
    (b0 <<< shift.toUInt8) ||| (b1 >>> (8 - shift).toUInt8)
      = UInt8.ofNat (b0.toNat * 2 ^ shift + b1.toNat / 2 ^ (8 - shift)) := by
  have hshift : ∀ n, n < 8 → n.toUInt8.toNat % 8 = n := by
    intro n hn
    rw [Nat.toUInt8, UInt8.toNat_ofNat_of_lt' (Nat.lt_trans hn (by decide))]
    omega
  have hsmall : b1.toNat / 2 ^ (8 - shift) < 2 ^ shift := by
    have hbyte : b1.toNat < 2 ^ (shift + (8 - shift)) := by
      rw [Nat.add_sub_cancel' (Nat.le_of_lt hlt)]
      exact UInt8.toNat_lt b1
    rw [Nat.div_lt_iff_lt_mul (Nat.two_pow_pos _), ← Nat.pow_add]
    exact hbyte
  have hlow : b1.toNat / 2 ^ (8 - shift) < 2 ^ 8 :=
    Nat.lt_trans hsmall (Nat.pow_lt_pow_right (by decide) hlt)
  apply UInt8.toNat_inj.mp
  rw [UInt8.toNat_or, UInt8.toNat_shiftLeft, UInt8.toNat_shiftRight, hshift _ hlt,
    hshift _ (by omega), UInt8.toNat_ofNat', Nat.shiftRight_eq_div_pow, ← Nat.shiftLeft_eq,
    Nat.shiftLeft_add_eq_or_of_lt hsmall, Nat.or_mod_two_pow, Nat.mod_eq_of_lt hlow]

theorem byteAt_aligned {data : List UInt8} {position : Nat} (haligned : position % 8 = 0) :
    byteAt data position = data[position / 8]?.getD 0 := by
  have hnext := UInt8.toNat_lt (data[position / 8 + 1]?.getD 0)
  rw [byteAt, haligned, Nat.pow_zero, Nat.mul_one, Nat.div_eq_of_lt hnext, Nat.add_zero,
    UInt8.ofNat_toNat]

theorem BitReader.read_eq_byteAt (reader : BitReader) (n : Nat) :
    reader.read n = byteAt reader.data (reader.offset + n * 8) := by
  unfold BitReader.read
  generalize reader.offset + n * 8 = position
  cases hdata : reader.data[position / 8]? with
  | none =>
      have hlength := List.getElem?_eq_none_iff.mp hdata
      have hnext : reader.data[position / 8 + 1]? = none :=
        List.getElem?_eq_none (by omega)
      simp [byteAt, hdata, hnext]
  | some b0 =>
      by_cases haligned : position % 8 = 0
      · rw [byteAt_aligned haligned, hdata]
        simp [haligned, hdata]
      · simp only [haligned, if_false, hdata]
        rw [shift_or b0 _ haligned (by omega), byteAt, hdata, Option.getD_some]

namespace TBinary

theorem length_byteList (b : TBinary) : b.byteList.length = b.bitSize / 8 := by
  simp [byteList]

/-- Whatever reads a binary begins with its bytes. -/
theorem byteList_prefix {b : TBinary} (hb : b.WellFormed) :
    b.byteList <+: b.reader.contents := by
  have hinside := inside_buffer hb
  rw [List.prefix_iff_eq_take, length_byteList]
  apply List.ext_getElem?
  intro i
  by_cases hi : i < b.bitSize / 8
  · rw [List.getElem?_take_of_lt hi, byteList, List.getElem?_map,
      List.getElem?_range hi, Option.map_some]
    rw [reader]
    cases hdata : b.byteReader with
    | none =>
        have hcount : i < byteSizeRoundedUp b.bitReader.bitSize := by
          rw [byteSizeRoundedUp, BitReader.bitSize]
          omega
        rw [DataReader.contents, List.getElem?_map, List.getElem?_range hcount,
          Option.map_some, BitReader.read_eq_byteAt]
    | some data =>
        obtain ⟨haligned, hsize, hbegins⟩ := byteReader_eq_some hb hdata
        obtain ⟨more, hmore⟩ := hbegins
        have hbyte : data[i]? = b.bitReader.data[b.bitReader.offset / 8 + i]? := by
          rw [← List.getElem?_drop, ← hmore, List.getElem?_append_left (by omega)]
        have hposition : (b.bitReader.offset + i * 8) / 8 = b.bitReader.offset / 8 + i := by
          omega
        rw [DataReader.contents, byteAt_aligned (by omega), hposition, ← hbyte,
          List.getElem?_eq_getElem (by omega), Option.getD_some]
  · rw [List.getElem?_take_eq_none (by omega), List.getElem?_eq_none]
    rw [length_byteList]
    omega

end TBinary

namespace DataReader

/-- Where the two readers first differ in what they begin with, they are told apart. -/
theorem sightBytes_append (a b : DataReader) {xs ys : List UInt8}
    (hlength : xs.length = ys.length) (hne : xs ≠ ys) (restA restB : List UInt8) :
    sightBytes a b (xs ++ restA) (ys ++ restB) = .ofOrdering (compare xs ys) := by
  induction xs generalizing ys with
  | nil => exact absurd (List.eq_nil_of_length_eq_zero hlength.symm).symm hne
  | cons x xs ih =>
      cases ys with
      | nil => simp at hlength
      | cons y ys =>
          rw [List.cons_append, List.cons_append, sightBytes, List.compare_cons_cons]
          by_cases hxy : x = y
          · have hrest : xs ≠ ys := fun h => hne (by rw [hxy, h])
            rw [if_pos hxy, ih (by simpa using hlength) hrest, hxy, Std.compare_self]
            rfl
          · rw [if_neg hxy]
            cases hcompare : compare x y with
            | eq => exact absurd (Std.LawfulEqOrd.eq_of_compare hcompare) hxy
            | lt => rfl
            | gt => rfl

theorem cmpReaderVsReader_eq_eq_iff (a b : DataReader) :
    a.cmpReaderVsReader b = .ok .eq ↔ a.SameBytes b := by
  rw [cmpReaderVsReader, ← length_contents, cmpBytes_eq_iff a b _ 0 (by omega), SameBytes]
  simp

end DataReader

namespace TBinary

/-- The shorter of the two binaries is the lesser one as well, and what the first reader has
behind equal bytes the second one reads as well. -/
structure Agree (a b : TBinary) : Prop where
  shorter : a.bitSize < b.bitSize → compare a.byteList b.byteList = .lt
  longer : b.bitSize < a.bitSize → compare a.byteList b.byteList = .gt
  behind : a.byteList = b.byteList → a.reader.SameBytes b.reader

theorem cmpBinary_iff {a b : TBinary} (ha : a.WellFormed) (hwhole : a.WholeBytes)
    (hb : b.WellFormed) (hwhole' : b.WholeBytes) :
    a.cmpBinary b = .ok (compare a.byteList b.byteList) ↔ a.Agree b := by
  have hbytes : a.bitSize ≠ b.bitSize → a.byteList ≠ b.byteList := by
    intro hsize heq
    have hlength := congrArg List.length heq
    rw [length_byteList, length_byteList] at hlength
    unfold WholeBytes at hwhole hwhole'
    omega
  by_cases hsize : a.bitSize = b.bitSize
  · have hlength : a.byteList.length = b.byteList.length := by
      rw [length_byteList, length_byteList, hsize]
    obtain ⟨restA, hrestA⟩ := byteList_prefix ha
    obtain ⟨restB, hrestB⟩ := byteList_prefix hb
    rw [cmpBinary, if_neg (not_not.mpr hsize)]
    by_cases heq : a.byteList = b.byteList
    · rw [heq, Std.compare_self, DataReader.cmpReaderVsReader_eq_eq_iff]
      exact ⟨fun hsame => ⟨fun h => by omega, fun h => by omega, fun _ => hsame⟩,
        fun hagree => hagree.behind heq⟩
    · have hforward := DataReader.toOption_cmpReaderVsReader a.reader b.reader
      rw [DataReader.sight, ← hrestA, ← hrestB, DataReader.sightBytes_append _ _ hlength heq,
        forward_ofOrdering] at hforward
      refine iff_of_true ?_ ⟨fun h => by omega, fun h => by omega, fun h => absurd h heq⟩
      cases hcmp : a.reader.cmpReaderVsReader b.reader with
      | error fault => simp [hcmp, Except.toOption] at hforward
      | ok order =>
          rw [hcmp] at hforward
          simpa [Except.toOption] using hforward
  · rw [cmpBinary, if_pos hsize, Except.ok.injEq]
    rcases Nat.lt_or_gt_of_ne hsize with hlt | hgt
    · rw [Nat.compare_eq_lt.mpr hlt]
      exact ⟨fun h => ⟨fun _ => h.symm, fun h => by omega, fun h => absurd h (hbytes hsize)⟩,
        fun h => (h.shorter hlt).symm⟩
    · rw [Nat.compare_eq_gt.mpr hgt]
      exact ⟨fun h => ⟨fun h => by omega, fun _ => h.symm, fun h => absurd h (hbytes hsize)⟩,
        fun h => (h.longer hgt).symm⟩

end TBinary

/-! ## Names -/

/-- Of two names the shorter one is the lesser one as well. -/
structure NamesAgree (x y : String) : Prop where
  shorter : (nameBytes x).length < (nameBytes y).length →
    compare (nameBytes x) (nameBytes y) = .lt
  longer : (nameBytes y).length < (nameBytes x).length →
    compare (nameBytes x) (nameBytes y) = .gt

theorem cmpAtoms_iff (x y : String) :
    cmpAtoms x y = compare (nameBytes x) (nameBytes y) ↔ NamesAgree x y := by
  unfold cmpAtoms
  by_cases hlength : (nameBytes x).length = (nameBytes y).length
  · simp only [if_pos hlength, true_iff]
    exact ⟨fun h => by omega, fun h => by omega⟩
  · simp only [if_neg hlength]
    rcases Nat.lt_or_gt_of_ne hlength with hlt | hgt
    · rw [Nat.compare_eq_lt.mpr hlt]
      exact ⟨fun h => ⟨fun _ => h.symm, fun h => by omega⟩, fun h => (h.shorter hlt).symm⟩
    · rw [Nat.compare_eq_gt.mpr hgt]
      exact ⟨fun h => ⟨fun h => by omega, fun _ => h.symm⟩, fun h => (h.longer hgt).symm⟩

/-! ## Classes -/

/-- One of the terms is the empty map, and the other one of a later class. -/
def MapBeforeLater (a b : Term) : Prop :=
  a.raw = Term.emptyMap.raw ∧ (b.isList ∨ b.isBinary) ∨
    b.raw = Term.emptyMap.raw ∧ (a.isList ∨ a.isBinary)

/-- When the comparison of two terms gives Erlang's order. -/
def AgreesWithErlang (a b : Term) : Prop :=
  match a, b with
  | .atom x, .atom y => NamesAgree x y
  | .emptyBinary, .emptyBinary => True
  | .emptyBinary, .binary _ y => ¬ y.1.WholeBytes
  | .binary _ _, .emptyBinary => True
  | .binary _ x, .binary _ y => x.1.WholeBytes → y.1.WholeBytes → x.1.Agree y.1
  | a, b => ∀ classA classB, erlangClass a = some classA → erlangClass b = some classB →
      classA ≠ classB → ¬ (a.isBoxed ∧ b.isBoxed) ∧ ¬ MapBeforeLater a b

/-- The comparison gives Erlang's order, for the terms that it is looked at for. -/
def ComparesAsErlang (exact : Bool) (a b : Term) : Prop :=
  ∀ order, erlangOrder a b = some order → Ends exact a b order

/-- A comparison that is concluded at once. -/
theorem ends_iff_of_concluded {exact : Bool} {a b : Term} (hraw : a.raw ≠ b.raw)
    {r : Except Fault Ordering}
    (h : ∀ cmp, cmpTermsAnyType cmp a b exact = EqResult.concluded <$> r) (order : Ordering) :
    Ends exact a b order ↔ r = .ok order := by
  obtain ⟨least, hleast⟩ := (Compares.of_concluded 0 fun fuel _ => h (nested fuel)).cmpTerms hraw
  constructor
  · rintro ⟨least', hleast'⟩
    rw [← hleast (max least least') (by omega), hleast' (max least least') (by omega)]
  · rintro rfl
    exact ⟨least, hleast⟩

section Classes

variable {a b : Term} {classA classB : ErlangClass}

/-- The class numbers of the code follow the classes, but for the empty map. -/
theorem classifyTerm_eq (ha : erlangClass a = some classA) (hmap : a.raw ≠ Term.emptyMap.raw) :
    a.classifyTerm = 10 * (classA.rank + 1) := by
  cases a with
  | emptyMap => exact absurd rfl hmap
  | boxed addr object =>
      cases object <;> simp only [erlangClass, Option.some.injEq, reduceCtorEq] at ha <;>
        (rw [← ha]; rfl)
  | _ =>
      simp only [erlangClass, Option.some.injEq] at ha
      rw [← ha]
      rfl

theorem compare_classes (m n : Nat) :
    compare (10 * (m + 1)) (10 * (n + 1)) = compare m n := by
  rcases Nat.lt_trichotomy m n with hlt | rfl | hgt
  · rw [Nat.compare_eq_lt.mpr hlt, Nat.compare_eq_lt.mpr (by omega)]
  · rw [Std.compare_self, Std.compare_self]
  · rw [Nat.compare_eq_gt.mpr hgt, Nat.compare_eq_gt.mpr (by omega)]

theorem Term.eq_of_raw_special {t : Term} :
    (t.raw = Term.emptyMap.raw → t = .emptyMap) ∧ (t.raw = Term.nil.raw → t = .nil) ∧
      (t.raw = Term.emptyTuple.raw → t = .emptyTuple) ∧
      (t.raw = Term.emptyBinary.raw → t = .emptyBinary) := by
  cases t <;> simp [Term.raw]

theorem erlangClass_of_number (h : (a.isFloat || a.isSmall) = true) :
    erlangClass a = some .number := by
  cases a with
  | boxed addr object =>
      cases object <;> first
        | rfl
        | exact absurd h (by simp [Term.isFloat, Term.isSmall, Term.boxType, Boxed.boxType,
            Term.getTermTag, Term.raw])
  | small value => rfl
  | _ => exact absurd h (by simp [Term.isFloat, Term.isSmall, Term.boxType, Term.getTermTag,
      Term.raw])

theorem not_both (ha : erlangClass a = some classA) (hb : erlangClass b = some classB)
    (hne : classA ≠ classB) (c : ErlangClass) :
    ¬ (erlangClass a = some c ∧ erlangClass b = some c) := by
  rintro ⟨hac, hbc⟩
  rw [ha, Option.some.injEq] at hac
  rw [hb, Option.some.injEq] at hbc
  exact hne (hac.trans hbc.symm)

/-- The two terms are compared by their tags first. -/
theorem cmpTermsAnyType_of_class_ne (ha : erlangClass a = some classA)
    (hb : erlangClass b = some classB) (hne : classA ≠ classB)
    (cmp : Term → Term → Except Fault Ordering) (exact : Bool) :
    cmpTermsAnyType cmp a b exact = cmpTermsPrimary cmp a b := by
  have hdiffer := not_both ha hb hne
  unfold cmpTermsAnyType
  split
  · exact absurd ⟨rfl, rfl⟩ (hdiffer .atom)
  · exact absurd ⟨rfl, rfl⟩ (hdiffer .number)
  · split
    next hnumbers =>
      rw [Bool.and_eq_true, Bool.and_eq_true] at hnumbers
      exact absurd ⟨erlangClass_of_number hnumbers.1.2, erlangClass_of_number hnumbers.2⟩
        (hdiffer .number)
    next =>
      split
      · exact absurd ⟨rfl, rfl⟩ (hdiffer .number)
      · rfl

theorem erlangClass_of_list (h : a.isList = true) : erlangClass a = some .list := by
  cases a with
  | nil | cons => rfl
  | _ => exact absurd h (by simp [Term.isList, Term.isCons, Term.getTermTag, Term.raw])

theorem erlangClass_of_tuple (h : a.isTuple = true) : erlangClass a = some .tuple := by
  cases a with
  | emptyTuple | tuple => rfl
  | boxed addr object =>
      cases object <;> exact absurd h (by simp [Term.isTuple, Term.boxType, Boxed.boxType,
        Term.raw])
  | _ => exact absurd h (by simp [Term.isTuple, Term.boxType, Term.raw])

theorem erlangClass_of_binary (h : a.isBinary = true) : erlangClass a = some .bitstring := by
  cases a with
  | emptyBinary | binary => rfl
  | boxed addr object =>
      cases object <;> exact absurd h (by simp [Term.isBinary, Term.boxType, Boxed.boxType,
        Term.raw])
  | _ => exact absurd h (by simp [Term.isBinary, Term.boxType, Term.raw])

/-- Terms of different classes are compared by their class numbers. -/
theorem cmpTypeOrder_of_class_ne (ha : erlangClass a = some classA)
    (hb : erlangClass b = some classB) (hne : classA ≠ classB) :
    cmpTypeOrder a b = compare a.classifyTerm b.classifyTerm := by
  have hdiffer := not_both ha hb hne
  unfold cmpTypeOrder
  rw [if_neg]
  intro hempty
  simp only [Bool.or_eq_true, Bool.and_eq_true, decide_eq_true_eq] at hempty
  rcases hempty with (⟨hcons, hnil⟩ | ⟨htuple, hempty⟩) | ⟨hbinary, hempty⟩
  · rw [Term.eq_of_raw_special.2.1 hnil] at hdiffer
    exact hdiffer .list ⟨erlangClass_of_list (by simp [Term.isList, hcons]), rfl⟩
  · rw [Term.eq_of_raw_special.2.2.1 hempty] at hdiffer
    exact hdiffer .tuple ⟨erlangClass_of_tuple htuple, rfl⟩
  · rw [Term.eq_of_raw_special.2.2.2 hempty] at hdiffer
    exact hdiffer .bitstring ⟨erlangClass_of_binary hbinary, rfl⟩

theorem isList_or_isBinary_iff (ha : erlangClass a = some classA) :
    a.isList ∨ a.isBinary ↔ ErlangClass.map.rank < classA.rank := by
  constructor
  · rintro (hlist | hbinary)
    · cases (erlangClass_of_list hlist).symm.trans ha
      decide
    · cases (erlangClass_of_binary hbinary).symm.trans ha
      decide
  · intro hrank
    cases a with
    | nil | cons => exact .inl rfl
    | emptyBinary | binary => exact .inr rfl
    | boxed addr object =>
        cases object <;> simp only [erlangClass, Option.some.injEq, reduceCtorEq] at ha <;>
          (rw [← ha] at hrank; exact absurd hrank (by decide))
    | _ =>
        simp only [erlangClass, Option.some.injEq] at ha
        rw [← ha] at hrank
        exact absurd hrank (by decide)

theorem compare_classifyTerm_iff (ha : erlangClass a = some classA)
    (hb : erlangClass b = some classB) (hne : classA ≠ classB) :
    compare a.classifyTerm b.classifyTerm = compare classA.rank classB.rank ↔
      ¬ MapBeforeLater a b := by
  have hclassMap : ∀ t : Term, t.raw = Term.emptyMap.raw → erlangClass t = some .map ∧
      t.classifyTerm = 500 := by
    intro t ht
    rw [Term.eq_of_raw_special.1 ht]
    exact ⟨rfl, rfl⟩
  have hrank : ∀ c : ErlangClass, 10 * (c.rank + 1) < 500 := by
    intro c
    cases c <;> decide
  unfold MapBeforeLater
  rw [isList_or_isBinary_iff ha, isList_or_isBinary_iff hb]
  by_cases hmap : a.raw = Term.emptyMap.raw
  · obtain ⟨hclass, hcode⟩ := hclassMap a hmap
    cases ha.symm.trans hclass
    have hother : b.raw ≠ Term.emptyMap.raw := by
      intro hmap'
      exact hne (Option.some.inj ((hclassMap b hmap').1.symm.trans hb))
    rw [hcode, classifyTerm_eq hb hother, Nat.compare_eq_gt.mpr (hrank classB), eq_comm,
      Nat.compare_eq_gt]
    have hapart : ErlangClass.map.rank ≠ classB.rank := by
      intro heq
      apply hne
      cases classB <;> first | rfl | (exact absurd heq (by decide))
    simp only [hmap, hother, true_and, false_and, or_false]
    omega
  · by_cases hmap' : b.raw = Term.emptyMap.raw
    · obtain ⟨hclass, hcode⟩ := hclassMap b hmap'
      cases hb.symm.trans hclass
      rw [hcode, classifyTerm_eq ha hmap, Nat.compare_eq_lt.mpr (hrank classA), eq_comm,
        Nat.compare_eq_lt]
      have hapart : ErlangClass.map.rank ≠ classA.rank := by
        intro heq
        apply hne
        cases classA <;> first | rfl | (exact absurd heq (by decide))
      simp only [hmap, hmap', true_and, false_and, false_or]
      omega
    · rw [classifyTerm_eq ha hmap, classifyTerm_eq hb hmap', compare_classes]
      simp [hmap, hmap']

/-- No two boxed terms of different classes are compared. -/
theorem cmpTermsImmedBox_of_class_ne (ha : erlangClass a = some classA)
    (hb : erlangClass b = some classB) (hne : classA ≠ classB)
    (hbox : a.isBoxed = true) (hbox' : b.isBoxed = true) :
    ∃ fault, ∀ cmp, cmpTermsImmedBox cmp a b = .error fault := by
  have hdiffer := not_both ha hb hne
  cases a with
  | tuple addr data0 rest =>
      cases b with
      | tuple => exact absurd ⟨rfl, rfl⟩ (hdiffer .tuple)
      | binary | boxed => exact ⟨_, fun _ => rfl⟩
      | _ => exact absurd hbox' (by simp [Term.isBoxed, Term.getTermTag, Term.raw])
  | binary addr data =>
      cases b with
      | binary => exact absurd ⟨rfl, rfl⟩ (hdiffer .bitstring)
      | tuple | boxed => exact ⟨_, fun _ => rfl⟩
      | _ => exact absurd hbox' (by simp [Term.isBoxed, Term.getTermTag, Term.raw])
  | boxed addr object =>
      cases b with
      | tuple | binary => cases object <;> exact ⟨_, fun _ => rfl⟩
      | boxed addr' object' =>
          cases object <;> cases object' <;> exact ⟨_, fun _ => rfl⟩
      | _ => exact absurd hbox' (by simp [Term.isBoxed, Term.getTermTag, Term.raw])
  | _ => exact absurd hbox (by simp [Term.isBoxed, Term.getTermTag, Term.raw])

/-- Constants are compared by their values. -/
theorem cmpTermsImmed_of_class_ne (ha : erlangClass a = some classA)
    (hb : erlangClass b = some classB) (hne : classA ≠ classB)
    (htag : a.getTermTag = .special) (htag' : b.getTermTag = .special) :
    ∃ order, (∀ cmp, cmpTermsImmed cmp a b = .ok order) ∧
      (order = compare classA.rank classB.rank ↔ ¬ MapBeforeLater a b) := by
  have hconst : ∀ t : Term, t.getTermTag = .special →
      t = .emptyTuple ∨ t = .nil ∨ t = .emptyBinary ∨ t = .emptyMap := by
    intro t ht
    cases t <;> simp [Term.getTermTag, Term.raw] at ht ⊢
  rw [MapBeforeLater, isList_or_isBinary_iff ha, isList_or_isBinary_iff hb]
  rcases hconst a htag with rfl | rfl | rfl | rfl <;>
    rcases hconst b htag' with rfl | rfl | rfl | rfl <;>
    obtain rfl := Option.some.inj ha <;> obtain rfl := Option.some.inj hb <;> first
      | exact absurd rfl hne
      | exact ⟨_, fun _ => rfl, by decide⟩

theorem erlangClass_of_tag (t : Term) :
    (t.getTermTag = .smallInt → erlangClass t = some .number) ∧
      (t.getTermTag = .atom → erlangClass t = some .atom) ∧
      (t.getTermTag = .localPid → erlangClass t = some .pid) ∧
      (t.getTermTag = .consPtr → erlangClass t = some .list) := by
  cases t <;> simp [Term.getTermTag, Term.raw, erlangClass]

/-- How two terms of different classes are compared. -/
theorem cmpTermsPrimary_of_class_ne (ha : erlangClass a = some classA)
    (hb : erlangClass b = some classB) (hne : classA ≠ classB) :
    ∃ r, (∀ cmp, cmpTermsPrimary cmp a b = EqResult.concluded <$> r) ∧
      (r = .ok (compare classA.rank classB.rank) ↔
        ¬ (a.isBoxed ∧ b.isBoxed) ∧ ¬ MapBeforeLater a b) := by
  by_cases htag : a.getTermTag = b.getTermTag
  · have hbox : ∀ t : Term, t.isBoxed = true ↔ t.getTermTag = .boxPtr := fun t =>
      decide_eq_true_iff
    rw [hbox, hbox, ← htag]
    cases ha' : a.getTermTag with
    | boxPtr =>
        obtain ⟨fault, hfault⟩ := cmpTermsImmedBox_of_class_ne ha hb hne
          ((hbox a).mpr ha') ((hbox b).mpr (htag ▸ ha'))
        refine ⟨.error fault, fun cmp => ?_, by simp⟩
        rw [cmpTermsPrimary, if_neg (not_not.mpr htag), ha']
        simp only [hfault]
    | special =>
        obtain ⟨order, horder, hiff⟩ := cmpTermsImmed_of_class_ne ha hb hne ha' (htag ▸ ha')
        refine ⟨.ok order, fun cmp => ?_, by simpa using hiff⟩
        rw [cmpTermsPrimary, if_neg (not_not.mpr htag), ha']
        simp only [horder]
    | smallInt =>
        have hclass := fun t => (erlangClass_of_tag t).1
        exact absurd ⟨hclass a ha', hclass b (htag ▸ ha')⟩ (not_both ha hb hne _)
    | atom =>
        have hclass := fun t => (erlangClass_of_tag t).2.1
        exact absurd ⟨hclass a ha', hclass b (htag ▸ ha')⟩ (not_both ha hb hne _)
    | localPid =>
        have hclass := fun t => (erlangClass_of_tag t).2.2.1
        exact absurd ⟨hclass a ha', hclass b (htag ▸ ha')⟩ (not_both ha hb hne _)
    | consPtr =>
        have hclass := fun t => (erlangClass_of_tag t).2.2.2
        exact absurd ⟨hclass a ha', hclass b (htag ▸ ha')⟩ (not_both ha hb hne _)
  · refine ⟨.ok (cmpTypeOrder a b), fun cmp => by rw [cmpTermsPrimary, if_pos htag]; rfl, ?_⟩
    have hbox : ¬ (a.isBoxed ∧ b.isBoxed) := by
      rintro ⟨hbox, hbox'⟩
      exact htag ((of_decide_eq_true hbox).trans (of_decide_eq_true hbox').symm)
    rw [cmpTypeOrder_of_class_ne ha hb hne, Except.ok.injEq,
      compare_classifyTerm_iff ha hb hne]
    simp [hbox]

end Classes

/-! ## The comparison -/

theorem ends_of_raw_eq {exact : Bool} {a b : Term} (hraw : a.raw = b.raw) (order : Ordering) :
    Ends exact a b order ↔ order = .eq := by
  have heq : ∀ fuel, cmpTerms (fuel + 1) a b exact = .ok .eq := fun fuel => by
    rw [cmpTerms, if_pos hraw]
  constructor
  · rintro ⟨least, hleast⟩
    have h := hleast (least + 1) (by omega)
    rw [heq, Except.ok.injEq] at h
    exact h.symm
  · rintro rfl
    refine ⟨1, fun fuel hfuel => ?_⟩
    obtain ⟨fuel, rfl⟩ := Nat.exists_eq_add_of_le' hfuel
    exact heq fuel

theorem comparesAsErlang_atoms (exact : Bool) (x y : String) :
    ComparesAsErlang exact (.atom x) (.atom y) ↔ NamesAgree x y := by
  have horder : ComparesAsErlang exact (.atom x) (.atom y) ↔
      Ends exact (.atom x) (.atom y) (compare (nameBytes x) (nameBytes y)) := by
    simp [ComparesAsErlang, erlangOrder]
  rw [horder, ← cmpAtoms_iff]
  by_cases hraw : (Term.atom x).raw = (Term.atom y).raw
  · obtain rfl : x = y := by simpa [Term.raw] using hraw
    rw [ends_of_raw_eq hraw, cmpAtoms_self, eq_comm]
  · rw [ends_iff_of_concluded hraw (r := .ok (cmpAtoms x y)) (fun _ => rfl), Except.ok.injEq]

theorem comparesAsErlang_binaries {exact : Bool} {addr addr' : Nat} {x y : Binary}
    (hsame : addr = addr' → x = y) :
    ComparesAsErlang exact (.binary addr x) (.binary addr' y) ↔
      (x.1.WholeBytes → y.1.WholeBytes → x.1.Agree y.1) := by
  have horder : ComparesAsErlang exact (.binary addr x) (.binary addr' y) ↔
      (x.1.WholeBytes → y.1.WholeBytes →
        Ends exact (.binary addr x) (.binary addr' y) (compare x.1.byteList y.1.byteList)) := by
    simp [ComparesAsErlang, erlangOrder]
  rw [horder]
  apply forall_congr'
  intro hwhole
  apply forall_congr'
  intro hwhole'
  rw [← TBinary.cmpBinary_iff x.2 hwhole y.2 hwhole']
  by_cases haddr : addr = addr'
  · obtain rfl := hsame haddr
    have hraw : (Term.binary addr x).raw = (Term.binary addr' x).raw := congrArg Word.boxPtr haddr
    rw [ends_of_raw_eq hraw, TBinary.cmpBinary_self, Except.ok.injEq, eq_comm]
  · have hraw : (Term.binary addr x).raw ≠ (Term.binary addr' y).raw := by
      simpa [Term.raw] using haddr
    exact ends_iff_of_concluded hraw
      (fun cmp => cmpTermsAnyType_binary cmp addr addr' x y exact) _

theorem compare_byteList_nil {y : Binary} (hwhole : y.1.WholeBytes) :
    compare ([] : List UInt8) y.1.byteList = .lt ∧ compare y.1.byteList [] = .gt := by
  have hne : y.1.byteList ≠ [] := by
    intro hnil
    have hlength := congrArg List.length hnil
    have hpos := TBinary.bitSize_pos y.2
    rw [TBinary.length_byteList, List.length_nil] at hlength
    unfold TBinary.WholeBytes at hwhole
    omega
  cases hbytes : y.1.byteList with
  | nil => exact absurd hbytes hne
  | cons byte bytes => exact ⟨rfl, rfl⟩

theorem comparesAsErlang_empty_binary {exact : Bool} {addr : Nat} {y : Binary} :
    ComparesAsErlang exact .emptyBinary (.binary addr y) ↔ ¬ y.1.WholeBytes := by
  have hraw : Term.emptyBinary.raw ≠ (Term.binary addr y).raw := by simp [Term.raw]
  have hends := ends_iff_of_concluded hraw (r := .ok .eq)
    (fun cmp => show cmpTermsAnyType cmp _ _ exact = _ by cases exact <;> rfl)
  by_cases hwhole : y.1.WholeBytes
  · simp [ComparesAsErlang, erlangOrder, hwhole, (compare_byteList_nil hwhole).1, hends]
  · simp [ComparesAsErlang, erlangOrder, hwhole]

theorem comparesAsErlang_binary_empty {exact : Bool} {addr : Nat} {x : Binary} :
    ComparesAsErlang exact (.binary addr x) .emptyBinary := by
  have hraw : (Term.binary addr x).raw ≠ Term.emptyBinary.raw := by simp [Term.raw]
  have hends := ends_iff_of_concluded hraw (r := .ok .gt)
    (fun cmp => show cmpTermsAnyType cmp _ _ exact = _ by cases exact <;> rfl)
  by_cases hwhole : x.1.WholeBytes
  · simp [ComparesAsErlang, erlangOrder, hwhole, (compare_byteList_nil hwhole).2, hends]
  · simp [ComparesAsErlang, erlangOrder, hwhole]

theorem comparesAsErlang_classes {exact : Bool} {a b : Term} {classA classB : ErlangClass}
    (horder : erlangOrder a b = some (compare classA.rank classB.rank))
    (ha : erlangClass a = some classA) (hb : erlangClass b = some classB)
    (hne : classA ≠ classB) (hraw : a.raw ≠ b.raw) :
    ComparesAsErlang exact a b ↔ ¬ (a.isBoxed ∧ b.isBoxed) ∧ ¬ MapBeforeLater a b := by
  obtain ⟨r, hr, hiff⟩ := cmpTermsPrimary_of_class_ne ha hb hne
  have hround : ∀ cmp, cmpTermsAnyType cmp a b exact = EqResult.concluded <$> r := fun cmp => by
    rw [cmpTermsAnyType_of_class_ne ha hb hne, hr]
  rw [← hiff, ← ends_iff_of_concluded hraw hround, ComparesAsErlang, horder]
  exact ⟨fun h => h _ rfl, fun h order hsome => Option.some.inj hsome ▸ h⟩

end Zeptobeam
