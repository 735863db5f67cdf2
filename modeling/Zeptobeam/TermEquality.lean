/-
Exact equality of terms against equality of the values they denote.  The comparison goes
past a place where the values are the same, and past one where an empty container stands
against another one of its kind; and it may not go past two binaries of the same bytes,
where one is read by a bit reader and other bytes follow it in its buffer.
-/
import Zeptobeam.TermLoop
import Mathlib.Data.List.Infix

namespace Zeptobeam

open SideBySide

namespace TBinary

/-- The binary begins with a whole byte of its buffer and has whole bytes. -/
def ByteAligned (b : TBinary) : Prop :=
  b.bitReader.offset % 8 = 0 ∧ b.bitSize % 8 = 0

/-- The bytes of a byte-aligned binary. -/
def bytes (b : TBinary) : List UInt8 :=
  (b.bitReader.data.drop (b.bitReader.offset / 8)).take (b.bitSize / 8)

theorem inside_buffer {b : TBinary} (hb : b.WellFormed) :
    b.bitReader.offset + b.bitSize ≤ b.bitReader.data.length * 8 := by
  induction b with
  | processHeap size data =>
      have hlength := hb.2
      rw [byteSizeRoundedUp] at hlength
      simp only [bitReader, bitSize]
      omega
  | slice orig offset size ih =>
      have horig := ih hb.1
      have hinside := hb.2.2
      simp only [bitReader, BitReader.addBitOffset, bitSize]
      omega

theorem length_bytes {b : TBinary} (hb : b.WellFormed) : b.bytes.length = b.bitSize / 8 := by
  have hinside := inside_buffer hb
  rw [bytes, List.length_take, List.length_drop]
  omega

/-- What a byte reader has is whole bytes of the buffer, and the binary at least. -/
theorem byteReader_eq_some {b : TBinary} (hb : b.WellFormed) {data : List UInt8}
    (hdata : b.byteReader = some data) :
    b.bitReader.offset % 8 = 0 ∧ b.bitSize / 8 ≤ data.length ∧
      data <+: b.bitReader.data.drop (b.bitReader.offset / 8) := by
  induction b generalizing data with
  | processHeap size bytes =>
      have hlength := hb.2
      rw [byteReader, Option.some.injEq] at hdata
      rw [byteSizeRoundedUp] at hlength
      rw [← hdata]
      refine ⟨rfl, ?_, by simp [bitReader]⟩
      rw [bitSize]
      omega
  | slice orig offset size ih =>
      rw [byteReader] at hdata
      split at hdata
      · rename_i haligned
        obtain ⟨origData, horigData, hset⟩ := Option.map_eq_some_iff.mp hdata
        obtain ⟨hoffset, hsize, hbegins⟩ := ih hb.1 horigData
        have hinside := hb.2.2
        rw [lastByteBits] at haligned
        rw [setOffsetAndSize, byteSizeRoundedDown, byteSizeRoundedDown] at hset
        simp only [bitReader, BitReader.addBitOffset, bitSize]
        refine ⟨by omega, ?_, ?_⟩
        · rw [← hset, List.length_take, List.length_drop]
          omega
        · have hadd : (orig.bitReader.offset + offset) / 8
              = orig.bitReader.offset / 8 + offset / 8 := by omega
          rw [← hset, hadd, ← List.drop_drop]
          exact (List.take_prefix _ _).trans (hbegins.drop (offset / 8))
      · cases hdata

/-- A bit reader at a whole byte has the rest of the buffer. -/
theorem contents_bits {reader : BitReader} (haligned : reader.offset % 8 = 0) :
    (DataReader.bits reader).contents = reader.data.drop (reader.offset / 8) := by
  apply List.ext_getElem?
  intro i
  have hix : (reader.offset + i * 8) / 8 = reader.offset / 8 + i := by omega
  have hshift : (reader.offset + i * 8) % 8 = 0 := by omega
  have hcount : byteSizeRoundedUp reader.bitSize
      = reader.data.length - reader.offset / 8 := by
    rw [byteSizeRoundedUp, BitReader.bitSize]
    omega
  rw [DataReader.contents, List.getElem?_map, List.getElem?_drop, hcount]
  by_cases hi : reader.offset / 8 + i < reader.data.length
  · rw [List.getElem?_range (by omega), Option.map_some, BitReader.read, hix, hshift,
      List.getElem?_eq_getElem hi]
    rfl
  · rw [List.getElem?_eq_none (by rw [List.length_range]; omega),
      List.getElem?_eq_none (by omega)]
    rfl

/-- Whatever reads a byte-aligned binary begins with its bytes. -/
theorem begins_with_bytes {b : TBinary} (hb : b.WellFormed) (haligned : b.ByteAligned) :
    b.bytes <+: b.reader.contents := by
  have hread : b.reader.contents <+: b.bitReader.data.drop (b.bitReader.offset / 8)
      ∧ b.bitSize / 8 ≤ b.reader.contents.length := by
    rw [reader]
    cases hdata : b.byteReader with
    | none =>
        have hinside := inside_buffer hb
        simp only [contents_bits haligned.1, List.length_drop]
        exact ⟨List.prefix_rfl, by omega⟩
    | some data =>
        obtain ⟨-, hsize, hbegins⟩ := byteReader_eq_some hb hdata
        exact ⟨hbegins, hsize⟩
  have htake : b.bytes = b.reader.contents.take (b.bitSize / 8) := by
    rw [bytes, List.prefix_iff_eq_take.mp hread.1, List.take_take, Nat.min_eq_left hread.2]
  rw [htake]
  exact List.take_prefix _ _

end TBinary

namespace DataReader

/-- Two readers are equal where the first one has bytes. -/
def SameBytes (a b : DataReader) : Prop :=
  ∀ i, i < a.contents.length → b.read i = a.read i

theorem cmpBytes_eq_iff (a b : DataReader) (n i : Nat) (hn : i + n ≤ a.contents.length) :
    cmpBytes a b i n = .ok .eq ↔ ∀ j, i ≤ j → j < i + n → b.read j = a.read j := by
  induction n generalizing i with
  | zero =>
      refine ⟨fun _ j hi hj => ?_, fun _ => rfl⟩
      omega
  | succ n ih =>
      have hread : a.read i = .ok a.contents[i] :=
        read_of_getElem? (List.getElem?_eq_getElem (by omega))
      have hrange : (∀ j, i ≤ j → j < i + (n + 1) → b.read j = a.read j) ↔
          b.read i = a.read i ∧ ∀ j, i + 1 ≤ j → j < i + 1 + n → b.read j = a.read j := by
        constructor
        · intro h
          exact ⟨h i (by omega) (by omega), fun j hi hj => h j (by omega) (by omega)⟩
        · rintro ⟨hi, hrest⟩ j hij hj
          by_cases hji : j = i
          · rw [hji, hi]
          · exact hrest j (by omega) (by omega)
      rw [hrange, ← ih (i + 1) (by omega), cmpBytes, hread]
      cases hb : b.read i with
      | error fault => simp
      | ok y =>
          by_cases hxy : a.contents[i] = y
          · simp [hxy]
          · have hne : compare a.contents[i] y ≠ .eq := fun h =>
              hxy (Std.LawfulEqOrd.eq_of_compare h)
            simp [hxy, Ne.symm hxy, hne]

theorem sight_passes_iff (a b : DataReader) : (a.sight b).Passes ↔ a.SameBytes b := by
  have hforward : (a.sight b).Passes ↔ a.cmpReaderVsReader b = .ok .eq := by
    rw [← List.forall_mem_singleton (p := Sight.Passes), ← forward_eq_eq_iff,
      ← toOption_cmpReaderVsReader]
    cases a.cmpReaderVsReader b <;> simp [Except.toOption]
  rw [hforward, cmpReaderVsReader, ← length_contents, cmpBytes_eq_iff a b _ 0 (by omega),
    SameBytes]
  simp

end DataReader

namespace TBinary

/-- The reader of `a` goes on behind the bytes of `a`, to a byte that `b` is not read to
have there. -/
def Trailing (a b : TBinary) : Prop :=
  ∃ i, a.bitSize / 8 ≤ i ∧ i < a.reader.contents.length ∧ b.reader.read i ≠ a.reader.read i

theorem read_bytes {b : TBinary} (hb : b.WellFormed) (haligned : b.ByteAligned) {i : Nat}
    {x : UInt8} (hx : b.bytes[i]? = some x) : b.reader.read i = .ok x := by
  obtain ⟨more, hmore⟩ := begins_with_bytes hb haligned
  have hi : i < b.bytes.length := (List.getElem?_eq_some_iff.mp hx).1
  apply DataReader.read_of_getElem?
  rw [← hmore, List.getElem?_append_left hi, hx]

theorem bytes_eq_of_sameBytes {a b : TBinary} (ha : a.WellFormed) (haligned : a.ByteAligned)
    (hb : b.WellFormed) (haligned' : b.ByteAligned) (hsize : a.bitSize = b.bitSize)
    (hsame : a.reader.SameBytes b.reader) : a.bytes = b.bytes := by
  have hlength : a.bytes.length = b.bytes.length := by
    rw [length_bytes ha, length_bytes hb, hsize]
  apply List.ext_getElem hlength
  intro i hi hi'
  have hreadA := read_bytes ha haligned (List.getElem?_eq_getElem hi)
  have hreadB := read_bytes hb haligned' (List.getElem?_eq_getElem hi')
  have hinside : i < a.reader.contents.length :=
    Nat.lt_of_lt_of_le hi (begins_with_bytes ha haligned).length_le
  rw [hsame i hinside, hreadA] at hreadB
  exact Except.ok.inj hreadB

/-- The comparison goes past two byte-aligned binaries when they have the same bytes and
the reader of the first one finds the same behind them. -/
theorem sight_passes_iff {a b : TBinary} (ha : a.WellFormed) (haligned : a.ByteAligned)
    (hb : b.WellFormed) (haligned' : b.ByteAligned) :
    (a.sight b).Passes ↔ a.bytes = b.bytes ∧ ¬ a.Trailing b := by
  have hsize_of_bytes : a.bytes = b.bytes → a.bitSize = b.bitSize := by
    intro hbytes
    have hlength := congrArg List.length hbytes
    rw [length_bytes ha, length_bytes hb] at hlength
    have hwhole := haligned.2
    have hwhole' := haligned'.2
    omega
  by_cases hsize : a.bitSize = b.bitSize
  · rw [sight, if_neg (not_not.mpr hsize), DataReader.sight_passes_iff]
    constructor
    · intro hsame
      refine ⟨bytes_eq_of_sameBytes ha haligned hb haligned' hsize hsame, ?_⟩
      rintro ⟨i, -, hi, hne⟩
      exact hne (hsame i hi)
    · rintro ⟨hbytes, htrailing⟩ i hi
      by_cases hin : i < a.bytes.length
      · have hx := List.getElem?_eq_getElem hin
        rw [read_bytes ha haligned hx, read_bytes hb haligned' (by rw [← hbytes, hx])]
      · by_contra hne
        exact htrailing ⟨i, by rw [length_bytes ha] at hin; omega, hi, hne⟩
  · rw [sight, if_pos hsize, Sight.passes_ofOrdering]
    constructor
    · intro hcompare
      exact (hsize (Std.LawfulEqOrd.eq_of_compare hcompare)).elim
    · rintro ⟨hbytes, -⟩
      exact (hsize (hsize_of_bytes hbytes)).elim

end TBinary

/-- What terms denote; process identifiers and other boxed objects are not looked into. -/
inductive Value where
  | integer (value : Int)
  | atom (name : String)
  | nil
  | cons (hd tl : Value)
  | tuple (elements : List Value)
  | binary (bytes : List UInt8)
  | other (word : Word)

mutual

def Term.value : Term → Value
  | .small value => .integer value
  | .atom name => .atom name
  | .nil => .nil
  | .cons _ hd tl => .cons hd.value tl.value
  | .emptyTuple => .tuple []
  | .tuple _ data0 rest => .tuple (data0.value :: valueOfAll rest)
  | .emptyBinary => .binary []
  | .binary _ data => .binary data.1.bytes
  | t => .other t.raw

def valueOfAll : List Term → List Value
  | [] => []
  | t :: ts => t.value :: valueOfAll ts

end

/-- Every binary in the term is byte-aligned. -/
def ByteAligned (t : Term) : Prop :=
  ∀ addr data, PartOf (.binary addr data) t → data.1.ByteAligned

namespace Place

/-- The values at the place are the same. -/
def SameValue : Place → Prop
  | between a b => a.value = b.value
  | tails a b => a.value = b.value

/-- An empty tuple, list or binary stands against another one that is not empty. -/
def EmptyAgainstFull : Place → Prop
  | between .emptyTuple (.tuple _ _ _) => True
  | between .nil (.cons _ _ _) => True
  | between .emptyBinary (.binary _ _) => True
  | _ => False

/-- Two binaries, of which the reader of the first one goes on behind its bytes, to other
bytes than the second one has there. -/
def Trailing : Place → Prop
  | between (.binary _ x) (.binary _ y) => x.1.Trailing y.1
  | _ => False

end Place

theorem valueOfAll_eq_iff {as bs : List Term} (hlength : as.length = bs.length)
    (hvalue : ∀ a ∈ as, ∀ b ∈ bs,
      (a.value = b.value ↔ ∀ place ∈ places a b, place.SameValue)) :
    valueOfAll as = valueOfAll bs ↔ ∀ place ∈ placesOfAll as bs, place.SameValue := by
  induction as generalizing bs with
  | nil =>
      have hbs : bs = [] := List.eq_nil_of_length_eq_zero hlength.symm
      simp [hbs, placesOfAll]
  | cons a as ih =>
      cases bs with
      | nil => simp at hlength
      | cons b bs =>
          have hrest := ih (by simpa using hlength) fun x hx y hy =>
            hvalue x (List.mem_cons_of_mem a hx) y (List.mem_cons_of_mem b hy)
          rw [valueOfAll, valueOfAll, List.cons.injEq, hrest, placesOfAll,
            hvalue a List.mem_cons_self b List.mem_cons_self, List.forall_mem_append]

/-- Two terms denote the same value when they do at each of their places. -/
theorem value_eq_iff (memory : Memory) {a : Term} (ha : Plain a) (hmem : a ∈ memory.terms)
    {b : Term} (hb : Plain b) (hmem' : b ∈ memory.terms) :
    a.value = b.value ↔ ∀ place ∈ places a b, place.SameValue := by
  refine memory.pair_induction
    (R := fun a b => a.value = b.value ↔ ∀ place ∈ places a b, place.SameValue)
    ?same ?leaf ?cons ?tuple ha hmem hb hmem'
  case same =>
    intro a _
    simp [places_of_raw_eq (Eq.refl a.raw)]
  case leaf =>
    intro a b _ _ hraw hleaf
    rw [places_leaf hraw hleaf, List.forall_mem_singleton, Place.SameValue]
  case cons =>
    intro addr addr' aHead atl bHead btl haddr hsame hheads htails
    rw [Term.value, Term.value, Value.cons.injEq, places_cons haddr]
    split
    · rename_i hends
      rw [hsame hends.1, List.forall_mem_singleton, Place.SameValue]
      exact and_iff_right rfl
    · rw [List.forall_mem_append, hheads, htails]
  case tuple =>
    intro addr addr' a0 b0 restA restB haddr hlength helements
    rw [places_tuple haddr hlength, ← valueOfAll_eq_iff (by simp [hlength]) helements,
      Term.value, Term.value, Value.tuple.injEq]
    rfl

/-- Terms of different classes are told apart, and denote different values. -/
theorem passes_of_class_ne {a b : Term} (ha : Plain a) (hb : Plain b)
    (hclass : a.classifyTerm ≠ b.classifyTerm) :
    ¬ (termSight a b).Passes ∧ ¬ (Place.between a b).EmptyAgainstFull ∧ a.value ≠ b.value := by
  cases ha <;> cases hb <;> first
    | exact (hclass rfl).elim
    | exact ⟨id, id, fun h => by cases h⟩

theorem nameBytes_injective {x y : String} (h : nameBytes x = nameBytes y) : x = y := by
  have hdata : x.toByteArray.data = y.toByteArray.data := Array.toList_inj.mp h
  exact String.toByteArray_inj.mp (ByteArray.ext hdata)

theorem cmpAtoms_eq_iff (x y : String) : cmpAtoms x y = .eq ↔ x = y := by
  constructor
  · intro hcmp
    rw [cmpAtoms] at hcmp
    split at hcmp
    · exact nameBytes_injective (Std.LawfulEqOrd.eq_of_compare hcmp)
    · rename_i hlength
      exact (hlength (Std.LawfulEqOrd.eq_of_compare hcmp)).elim
  · rintro rfl
    exact cmpAtoms_self x

/-- A byte-aligned binary is a whole number of bytes, and one byte at least. -/
theorem TBinary.bytes_ne_nil {b : TBinary} (hb : b.WellFormed) (haligned : b.ByteAligned) :
    b.bytes ≠ [] := by
  intro hnil
  have hlength := length_bytes hb
  have hpos := bitSize_pos hb
  have hwhole := haligned.2
  rw [hnil, List.length_nil] at hlength
  omega

theorem length_valueOfAll (ts : List Term) : (valueOfAll ts).length = ts.length := by
  induction ts with
  | nil => rfl
  | cons t ts ih => rw [valueOfAll, List.length_cons, List.length_cons, ih]

/-- What the comparison goes past: the same value, or an empty container against another
one of its kind. -/
theorem passes_between_iff {a b : Term} (ha : Plain a) (hb : Plain b) (hraw : a.raw ≠ b.raw)
    (hleaf : ¬ goesInto a b)
    (haligned : ∀ addr data, a = .binary addr data → data.1.ByteAligned)
    (haligned' : ∀ addr data, b = .binary addr data → data.1.ByteAligned) :
    (termSight a b).Passes ↔
      (Place.between a b).EmptyAgainstFull ∨
        a.value = b.value ∧ ¬ (Place.between a b).Trailing := by
  by_cases hclass : a.classifyTerm = b.classifyTerm
  · cases ha with
    | small x =>
        cases hb with
        | small y =>
            simp [termSight, Place.EmptyAgainstFull, Place.Trailing, Term.value]
        | _ => exact absurd hclass (Nat.ne_of_beq_eq_false rfl)
    | atom x =>
        cases hb with
        | atom y =>
            simp [termSight, Place.EmptyAgainstFull, Place.Trailing, Term.value, cmpAtoms_eq_iff]
        | _ => exact absurd hclass (Nat.ne_of_beq_eq_false rfl)
    | emptyTuple =>
        cases hb with
        | emptyTuple => exact (hraw rfl).elim
        | tuple hdata0 hrest => exact iff_of_true rfl (.inl trivial)
        | _ => exact absurd hclass (Nat.ne_of_beq_eq_false rfl)
    | nil =>
        cases hb with
        | nil => exact (hraw rfl).elim
        | cons hhd htl => exact iff_of_true rfl (.inl trivial)
        | _ => exact absurd hclass (Nat.ne_of_beq_eq_false rfl)
    | emptyBinary =>
        cases hb with
        | emptyBinary => exact (hraw rfl).elim
        | binary addr data => exact iff_of_true rfl (.inl trivial)
        | _ => exact absurd hclass (Nat.ne_of_beq_eq_false rfl)
    | cons hhd htl =>
        cases hb with
        | nil =>
            simp [termSight, Sight.Passes, Place.EmptyAgainstFull, Term.value]
        | cons hhd' htl' => exact (hleaf trivial).elim
        | _ => exact absurd hclass (Nat.ne_of_beq_eq_false rfl)
    | @tuple addr data0 rest hdata0 hrest =>
        cases hb with
        | emptyTuple =>
            simp [termSight, Sight.Passes, Place.EmptyAgainstFull, Term.value]
        | @tuple addr' data0' rest' hdata0' hrest' =>
            have hlength : rest.length ≠ rest'.length := hleaf
            have hvalue : valueOfAll rest ≠ valueOfAll rest' := by
              intro heq
              have hlengths := congrArg List.length heq
              rw [length_valueOfAll, length_valueOfAll] at hlengths
              exact hlength hlengths
            simp [termSight, Place.EmptyAgainstFull, Term.value, hlength, hvalue]
        | _ => exact absurd hclass (Nat.ne_of_beq_eq_false rfl)
    | binary addr data =>
        cases hb with
        | emptyBinary =>
            have hne := TBinary.bytes_ne_nil data.2 (haligned addr data rfl)
            simp [termSight, Sight.Passes, Place.EmptyAgainstFull, Term.value, hne]
        | binary addr' data' =>
            have hpasses := TBinary.sight_passes_iff data.2 (haligned addr data rfl) data'.2
              (haligned' addr' data' rfl)
            simpa [termSight, Place.EmptyAgainstFull, Place.Trailing, Term.value] using hpasses
        | _ => exact absurd hclass (Nat.ne_of_beq_eq_false rfl)
  · obtain ⟨hpasses, hempty, hvalue⟩ := passes_of_class_ne ha hb hclass
    simp [hpasses, hempty, hvalue]

theorem passes_iff {a b : Term} (ha : Plain a) (hb : Plain b) (haligned : ByteAligned a)
    (haligned' : ByteAligned b) {place : Place} (hof : place.Of a b) :
    place.sight.Passes ↔ place.EmptyAgainstFull ∨ place.SameValue ∧ ¬ place.Trailing := by
  cases place with
  | between x y =>
      obtain ⟨hx, hy, hraw, hleaf⟩ := hof
      refine passes_between_iff (ha.part hx) (hb.part hy) hraw hleaf ?_ ?_
      · rintro addr data rfl
        exact haligned addr data hx
      · rintro addr data rfl
        exact haligned' addr data hy
  | tails x y =>
      have hne : x.value ≠ y.value := by
        obtain ⟨rfl, addr, hd, tl, rfl⟩ | ⟨⟨addr, hd, tl, rfl⟩, rfl⟩ := oneEnds_cases hof.2.2
        · simp [Term.value]
        · simp [Term.value]
      simp [Place.sight, Sight.Passes, Place.EmptyAgainstFull, Place.SameValue, hne]

/-- An empty container and one that is not empty denote different values. -/
theorem not_sameValue_of_emptyAgainstFull {a b : Term} (haligned : ByteAligned b)
    {place : Place} (hof : place.Of a b) (hempty : place.EmptyAgainstFull) :
    ¬ place.SameValue := by
  cases place with
  | tails x y => exact hempty.elim
  | between x y =>
      cases x with
      | emptyTuple =>
          cases y with
          | tuple addr data0 rest => simp [Place.SameValue, Term.value]
          | _ => exact hempty.elim
      | nil =>
          cases y with
          | cons addr hd tl => simp [Place.SameValue, Term.value]
          | _ => exact hempty.elim
      | emptyBinary =>
          cases y with
          | binary addr data =>
              have hne := TBinary.bytes_ne_nil data.2 (haligned addr data hof.2.1)
              simpa [Place.SameValue, Term.value] using hne.symm
          | _ => exact hempty.elim
      | _ => exact hempty.elim

/-- The comparison finds two terms equal exactly where each of their places is one that it
goes past. -/
theorem ends_eq_iff (memory : Memory) {a : Term} (ha : Plain a) (hmem : a ∈ memory.terms)
    {b : Term} (hb : Plain b) (hmem' : b ∈ memory.terms) (haligned : ByteAligned a)
    (haligned' : ByteAligned b) :
    Ends true a b .eq ↔ ∀ place ∈ places a b,
      place.EmptyAgainstFull ∨ place.SameValue ∧ ¬ place.Trailing := by
  have hof := of_mem_places memory ha hmem hb hmem'
  rw [ends_iff memory ha hmem hb hmem', forward_eq_eq_iff, sights, List.forall_mem_map]
  constructor
  · intro hall place hplace
    exact (passes_iff ha hb haligned haligned' (hof place hplace)).mp (hall place hplace)
  · intro hall place hplace
    exact (passes_iff ha hb haligned haligned' (hof place hplace)).mpr (hall place hplace)

/-- `cmp_terms` finds two terms exactly equal if and only if they denote the same value,
unless it overlooks an empty container and nothing else tells the terms apart, or looks at
bytes that do not belong to the binaries. -/
theorem equal_iff_sameValue_iff (memory : Memory) {a : Term} (ha : Plain a)
    (hmem : a ∈ memory.terms) {b : Term} (hb : Plain b) (hmem' : b ∈ memory.terms)
    (haligned : ByteAligned a) (haligned' : ByteAligned b) :
    (Ends true a b .eq ↔ a.value = b.value) ↔
      ((∃ place ∈ places a b, place.EmptyAgainstFull) →
        ∃ place ∈ places a b,
          ¬ place.EmptyAgainstFull ∧ (place.SameValue → place.Trailing)) ∧
      (a.value = b.value → ∀ place ∈ places a b, ¬ place.Trailing) := by
  rw [ends_eq_iff memory ha hmem hb hmem' haligned haligned',
    value_eq_iff memory ha hmem hb hmem']
  have hdiffer : ∀ place ∈ places a b, place.EmptyAgainstFull → ¬ place.SameValue :=
    fun place hplace =>
      not_sameValue_of_emptyAgainstFull haligned'
        (of_mem_places memory ha hmem hb hmem' place hplace)
  constructor
  · intro hiff
    refine ⟨fun ⟨place, hplace, hempty⟩ => ?_, fun hsame place hplace => ?_⟩
    · have hnot : ¬ ∀ place ∈ places a b, place.SameValue := fun hsame =>
        hdiffer place hplace hempty (hsame place hplace)
      rw [← hiff] at hnot
      push Not at hnot
      obtain ⟨other, hother, hfull, htold⟩ := hnot
      exact ⟨other, hother, hfull, htold⟩
    · rcases hiff.mpr hsame place hplace with hempty | hpasses
      · exact (hdiffer place hplace hempty (hsame place hplace)).elim
      · exact hpasses.2
  · rintro ⟨hmissed, htrailing⟩
    constructor
    · intro hpasses place hplace
      rcases hpasses place hplace with hempty | hsame
      · obtain ⟨other, hother, hfull, htold⟩ := hmissed ⟨place, hplace, hempty⟩
        rcases hpasses other hother with hother' | hother'
        · exact (hfull hother').elim
        · exact (hother'.2 (htold hother'.1)).elim
      · exact hsame.1
    · intro hsame place hplace
      exact .inr ⟨hsame place hplace, htrailing hsame place hplace⟩

theorem equal_iff_sameValue_iff_oneList :
    Ends true (.small 1) (.cons 0 (.small 1) .nil) .eq ↔
      (Term.small 1).value = (Term.cons 0 (.small 1) .nil).value := by
  have haligned : ByteAligned (.small 1) := by
    intro addr data hpart
    cases hpart
  have haligned' : ByteAligned (.cons 0 (.small 1) .nil) := by
    intro addr data hpart
    cases hpart with
    | head h => cases h
    | tail h => cases h
  have hplaces : places (.small 1) (.cons 0 (.small 1) .nil)
      = [.between (.small 1) (.cons 0 (.small 1) .nil)] := rfl
  refine (equal_iff_sameValue_iff oneList (.small 1) (.inl rfl) (.cons (.small 1) .nil)
    (.inr (.inr rfl)) haligned haligned').mpr ?_
  rw [hplaces]
  refine ⟨?_, fun _ => ?_⟩
  · rintro ⟨place, hplace, hempty⟩
    rw [List.mem_singleton.mp hplace] at hempty
    exact hempty.elim
  · rw [List.forall_mem_singleton]
    exact id

/-- `[]` and `[1]` compare exactly equal. -/
theorem empty_equals_full :
    Ends true .nil (.cons 0 (.small 1) .nil) .eq ∧
      Term.nil.value ≠ (Term.cons 0 (.small 1) .nil).value := by
  refine ⟨⟨2, fun fuel hfuel => ?_⟩, by simp [Term.value]⟩
  obtain ⟨rest, rfl⟩ := Nat.exists_eq_add_of_le' hfuel
  rfl

end Zeptobeam
