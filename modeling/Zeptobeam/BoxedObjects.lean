/-
The words that boxed objects write.  What is allotted for an object and what is written is
counted each on its own: a map has no room for its count, a big integer has room for one limb,
and the first value of a jump table is written even where it has no pairs.
-/
import Zeptobeam.CopyTerm
import Zeptobeam.FlatMap

namespace Zeptobeam

open Emulator Copying StateExcept

namespace BoxedObjects

def boxHeader : Copying Nat := do
  return (← get).heap.boxHeader

/-- A number of words that was computed: too large a one is a panic in a debug build, and wraps
in a release build. -/
def machineWords (debug : Bool) (n : Nat) : Copying Nat := do
  if debug ∧ 2 ^ 64 ≤ n then throw .arithmeticOverflow
  return n % 2 ^ 64

/-- A map of no pairs, with the words that its header says. -/
def emptyMap (words : Nat) : FlatMap where
  capacity := words
  pairs := []

/-- `Map::create_into`; the kind of map takes no room. -/
def createMap (debug : Bool) (numPairs : Nat) : Copying (Nat × FlatMap) := do
  let header ← boxHeader
  let words ← machineWords debug (FlatMap.storageSize header numPairs)
  let p ← alloc words
  write p (header + 1)
  return (p, emptyMap words)

/-- A key and its value, from the word `p` on. -/
def writePair (p pos : Nat) : Copying Unit :=
  write (p + 2 * pos) 2

/-- `Map::add`, of the map at `this`. -/
def addPair (fuel this : Nat) (m : FlatMap) (key value : Term) : Copying FlatMap := do
  let header ← boxHeader
  let p := this + (header + 1)
  match FlatMap.getFlatmap fuel m key with
  | .error panic => throw panic
  | .ok (.foundAt pos) =>
      writePair p pos
      return { m with pairs := m.pairs.set pos (key, value) }
  | .ok (.closestLarger pos) =>
      -- for now just assert that it can grow
      if m.capacity ≤ m.getCount then throw .assertion
      write (p + 2 * pos + 2) (2 * (m.getCount - pos))
      -- the count
      write (this + header) 1
      writePair p pos
      return { m with pairs := m.pairs.insertIdx pos (key, value) }

def addPairs (fuel this : Nat) : FlatMap → List (Term × Term) → Copying FlatMap
  | m, [] => return m
  | m, (key, value) :: rest => do
      let m ← addPair fuel this m key value
      addPairs fuel this m rest

def makeMap (debug : Bool) (fuel numPairs : Nat) (pairs : List (Term × Term)) :
    Copying (Nat × FlatMap) := do
  let (this, m) ← createMap debug numPairs
  return (this, ← addPairs fuel this m pairs)

/-- In words, with the size and one limb. -/
def bignumSize (header : Nat) : Nat :=
  header + 2

/-- `Bignum::create_into`. -/
def createBignumInto (limbs : List Nat) : Copying Nat := do
  let header ← boxHeader
  let this ← alloc (bignumSize header)
  write this (header + 2)
  write (this + header + 1) limbs.length
  return this

/-- Minus one because the first value already consumes one word. -/
def jumpTableSize (header nPairs : Nat) : Nat :=
  header + 1 - 1 + nPairs * 2

def createJumpTable (debug : Bool) (nPairs : Nat) : Copying Nat := do
  let header ← boxHeader
  let p ← alloc (← machineWords debug (jumpTableSize header nPairs))
  write p (header + 1)
  return p

/-- `get_count`, of the size in the header. -/
def jumpTableCount (header nPairs : Nat) : Nat :=
  (jumpTableSize header nPairs % 2 ^ 64 - header) / 2

/-- `set_pair`, which looks at the index in a debug build; in a release build it is multiplied
as a word. -/
def setPair (debug : Bool) (this nPairs index : Nat) : Copying Unit := do
  let header ← boxHeader
  if debug ∧ jumpTableCount header nPairs ≤ index then throw .assertion
  write (this + header + index * 2 % 2 ^ 64) 1
  write (this + header + index * 2 % 2 ^ 64 + 1) 1

def setPairs (debug : Bool) (this nPairs : Nat) : List Nat → Copying Unit
  | [] => return
  | index :: rest => do
      setPair debug this nPairs index
      setPairs debug this nPairs rest

def makeJumpTable (debug : Bool) (nPairs : Nat) (indexes : List Nat) : Copying Nat := do
  let this ← createJumpTable debug nPairs
  setPairs debug this nPairs indexes
  return this

/-! ## What was allotted -/

/-- All the words that were written lie in a block. -/
def Inside (s : CopyState) (p words : Nat) : Prop :=
  ∀ a ∈ s.written, p ≤ a ∧ a < p + words

/-- The pairs that the words allotted for a map come to: those that it is made for, unless
these overflow a word. -/
def pairsAllotted (header numPairs : Nat) : Nat :=
  (FlatMap.storageSize header numPairs % 2 ^ 64 - header) / 2

/-- Each pair has a key that is there, or comes to a map of fewer pairs than were allotted, even
with this one. -/
def AddsFit (fuel allotted : Nat) : FlatMap → List (Term × Term) → Prop
  | _, [] => True
  | m, (key, value) :: rest =>
      (m.getCount + 1 < allotted ∨
        ∃ pos, FlatMap.getFlatmap fuel m key = .ok (.foundAt pos)) ∧
      ∀ m', FlatMap.add fuel m key value = .ok m' → AddsFit fuel allotted m' rest

section Words

variable {s s' : CopyState} {p words addr n : Nat}

theorem inside_write (p words : Nat) (h : write addr n s = .ok ((), s')) :
    s'.heap = s.heap ∧
      (Inside s' p words ↔ Inside s p words ∧ (0 < n → p ≤ addr ∧ addr + n ≤ p + words)) := by
  obtain ⟨-, rfl⟩ := Prod.mk.inj (Except.ok.inj h)
  refine ⟨rfl, ?_⟩
  simp only [Inside, List.forall_mem_append, List.mem_range'_1]
  refine and_congr_right fun _ => ⟨fun hall hn => ?_, fun hrange a ha => ?_⟩
  · have hfirst := hall addr ⟨Nat.le_refl _, by omega⟩
    have hlast := hall (addr + n - 1) ⟨by omega, by omega⟩
    omega
  · have hrange := hrange (by omega)
    omega

/-- Nothing is written where a new object comes to lie. -/
theorem alloc_fresh {heap : ProcessHeap} (words : Nat) (h : alloc n ⟨heap, []⟩ = .ok (addr, s')) :
    s'.heap.boxHeader = heap.boxHeader ∧ Inside s' addr words := by
  unfold alloc at h
  split at h
  · cases h
  · cases h
    exact ⟨rfl, fun _ ha => absurd ha List.not_mem_nil⟩

end Words

/-! ## Maps -/

/-- A key was found at one of the pairs, or can be put before one of them or behind all. -/
def WithinPairs (count : Nat) : MapGetResult → Prop
  | .foundAt pos => pos < count
  | .closestLarger pos => pos ≤ count

section Maps

variable {fuel n this : Nat} {m m' : FlatMap} {key value : Term} {r : MapGetResult}
  {s s' : CopyState}

theorem searchLoop_within {cmp : Term → Term → Except Fault Ordering} {a b : Nat}
    (h : FlatMap.searchLoop cmp m key fuel a b = .ok r) : WithinPairs m.getCount r := by
  induction fuel generalizing a b with
  | zero => cases h
  | succ fuel ih =>
      simp only [FlatMap.searchLoop] at h
      split at h
      · cases h
      next medianValue _ hmedian =>
        have hin := (List.getElem?_eq_some_iff.mp hmedian).1
        split at h
        · cases h
        · split at h
          next hone =>
            cases h
            change a + 1 ≤ m.getCount
            rw [FlatMap.getCount]
            omega
          next => exact ih h
        · split at h
          next hone =>
            cases h
            change a ≤ m.getCount
            rw [FlatMap.getCount]
            omega
          next => exact ih h
        · cases h
          exact hin

theorem getFlatmap_within (h : FlatMap.getFlatmap fuel m key = .ok r) :
    WithinPairs m.getCount r := by
  unfold FlatMap.getFlatmap at h
  split at h
  · cases h
    exact Nat.zero_le _
  · exact searchLoop_within h

/-- What an addition writes: a pair in its place, or all the pairs behind it as well. -/
theorem addPair_ok (words : Nat) (h : addPair fuel this m key value s = .ok (m', s')) :
    s'.heap = s.heap ∧ FlatMap.add fuel m key value = .ok m' ∧
    ((∃ pos, FlatMap.getFlatmap fuel m key = .ok (.foundAt pos) ∧ pos < m.getCount ∧
        m'.getCount = m.getCount ∧
        (Inside s' this words ↔
          Inside s this words ∧ s.heap.boxHeader + 2 * pos + 3 ≤ words)) ∨
      ((∀ pos, FlatMap.getFlatmap fuel m key ≠ .ok (.foundAt pos)) ∧
        m'.getCount = m.getCount + 1 ∧
        (Inside s' this words ↔
          Inside s this words ∧ s.heap.boxHeader + 2 * m.getCount + 3 ≤ words))) := by
  rw [addPair, boxHeader, bind_eq_of_ok rfl] at h
  dsimp only at h
  rw [FlatMap.add]
  cases hget : FlatMap.getFlatmap fuel m key with
  | error panic =>
      rw [hget] at h
      cases h
  | ok r =>
      have hwithin := getFlatmap_within hget
      rw [hget] at h
      cases r with
      | foundAt pos =>
          obtain ⟨_, s₁, hwrite, h⟩ := bind_eq_ok_iff.mp h
          cases h
          obtain ⟨hheap, hinside⟩ := inside_write this words hwrite
          refine ⟨hheap, rfl, .inl ⟨pos, rfl, hwithin, List.length_set, ?_⟩⟩
          rw [hinside]
          exact and_congr_right fun _ => ⟨fun h => by have := h (by omega); omega,
            fun h _ => by omega⟩
      | closestLarger pos =>
          have hpos : pos ≤ m.getCount := hwithin
          dsimp only at h
          by_cases hfull : m.capacity ≤ m.getCount
          · rw [if_pos hfull] at h
            cases h
          rw [if_neg hfull] at h
          obtain ⟨_, s₁, hshift, h⟩ := bind_eq_ok_iff.mp h
          obtain ⟨_, s₂, hcount, h⟩ := bind_eq_ok_iff.mp h
          obtain ⟨_, s₃, hpair, h⟩ := bind_eq_ok_iff.mp h
          cases h
          obtain ⟨hheap₁, hinside₁⟩ := inside_write this words hshift
          obtain ⟨hheap₂, hinside₂⟩ := inside_write this words hcount
          obtain ⟨hheap₃, hinside₃⟩ := inside_write this words hpair
          refine ⟨by rw [hheap₃, hheap₂, hheap₁], ?_, .inr ⟨nofun, ?_, ?_⟩⟩
          · change (if _ then _ else _) = _
            rw [if_neg hfull]
          · exact List.length_insertIdx_of_le_length hpos _
          · rw [hinside₃, hinside₂, hinside₁, and_assoc, and_assoc]
            refine and_congr_right fun _ => ⟨fun ⟨hshift, _, hpair⟩ => ?_, fun h => ?_⟩
            -- the last of the words is the pair's own where it comes behind all others
            · have := hpair (by omega)
              by_cases hlast : pos = m.getCount
              · omega
              · have := hshift (by omega)
                omega
            · exact ⟨fun _ => by omega, fun _ => by omega, fun _ => by omega⟩

/-- What was written outside stays so. -/
theorem addPairs_inside {words : Nat} {pairs : List (Term × Term)}
    (h : addPairs fuel this m pairs s = .ok (m', s')) (hin : Inside s' this words) :
    Inside s this words := by
  induction pairs generalizing m s with
  | nil =>
      cases h
      exact hin
  | cons pair rest ih =>
      obtain ⟨m₁, s₁, hadd, h⟩ := bind_eq_ok_iff.mp h
      obtain ⟨-, -, ⟨_, -, -, -, hiff⟩ | ⟨-, -, hiff⟩⟩ := addPair_ok words hadd
      · exact (hiff.mp (ih h)).1
      · exact (hiff.mp (ih h)).1

/-- A map that has a word more than its pairs takes up stays in its block as long as this is
so. -/
theorem addPairs_inside_iff {words : Nat} {pairs : List (Term × Term)}
    (hwords : words = s.heap.boxHeader + 2 * n) (hcount : m.getCount < n)
    (h : addPairs fuel this m pairs s = .ok (m', s')) :
    Inside s' this words ↔ Inside s this words ∧ AddsFit fuel n m pairs := by
  induction pairs generalizing m s with
  | nil =>
      cases h
      exact (and_iff_left trivial).symm
  | cons pair rest ih =>
      obtain ⟨m₁, s₁, hadd, h⟩ := bind_eq_ok_iff.mp h
      obtain ⟨hheap, hmap, ⟨pos, hfound, hpos, hlength, hiff⟩ | ⟨hnew, hlength, hiff⟩⟩ :=
        addPair_ok words hadd
      · rw [ih (by rw [hheap]; exact hwords) (by omega) h, hiff,
          and_iff_left (show s.heap.boxHeader + 2 * pos + 3 ≤ words by omega)]
        refine and_congr_right fun _ => ⟨fun hfit => ⟨.inr ⟨pos, hfound⟩, ?_⟩, fun hfit => ?_⟩
        · intro m₂ hm₂
          rwa [← Except.ok.inj (hmap.symm.trans hm₂)]
        · exact hfit.2 m₁ hmap
      · by_cases hroom : m.getCount + 1 < n
        · rw [ih (by rw [hheap]; exact hwords) (by omega) h, hiff,
            and_iff_left (show s.heap.boxHeader + 2 * m.getCount + 3 ≤ words by omega)]
          refine and_congr_right fun _ => ⟨fun hfit => ⟨.inl hroom, ?_⟩, fun hfit => ?_⟩
          · intro m₂ hm₂
            rwa [← Except.ok.inj (hmap.symm.trans hm₂)]
          · exact hfit.2 m₁ hmap
        · refine iff_of_false (fun hin => ?_) ?_
          · have := (hiff.mp (addPairs_inside h hin)).2
            omega
          · rintro ⟨-, hfits | ⟨pos, hfound⟩, -⟩
            · exact hroom hfits
            · exact hnew pos hfound

end Maps

section Objects

variable {heap : ProcessHeap} {s' : CopyState} {p n : Nat} {debug : Bool}

theorem machineWords_ok {words : Nat} {s : CopyState}
    (h : machineWords debug n s = .ok (words, s')) : words = n % 2 ^ 64 ∧ s' = s := by
  unfold machineWords at h
  split at h
  · cases h
  · cases h
    exact ⟨rfl, rfl⟩

theorem createMap_ok {m : FlatMap} (words : Nat)
    (h : createMap debug n ⟨heap, []⟩ = .ok ((p, m), s')) :
    m = emptyMap (FlatMap.storageSize heap.boxHeader n % 2 ^ 64) ∧
      s'.heap.boxHeader = heap.boxHeader ∧ (Inside s' p words ↔ heap.boxHeader + 1 ≤ words) := by
  rw [createMap, boxHeader, bind_eq_of_ok rfl] at h
  obtain ⟨_, s₁, hwords, h⟩ := bind_eq_ok_iff.mp h
  obtain ⟨rfl, rfl⟩ := machineWords_ok hwords
  obtain ⟨this, s₂, halloc, h⟩ := bind_eq_ok_iff.mp h
  obtain ⟨_, s₃, hwrite, h⟩ := bind_eq_ok_iff.mp h
  obtain ⟨hreturned, rfl⟩ := Prod.mk.inj (Except.ok.inj h)
  obtain ⟨rfl, rfl⟩ := Prod.mk.inj hreturned
  obtain ⟨hheader, hfresh⟩ := alloc_fresh words halloc
  obtain ⟨hheap, hinside⟩ := inside_write this words hwrite
  refine ⟨rfl, by rw [hheap, hheader], ?_⟩
  rw [hinside, and_iff_right hfresh]
  dsimp only
  omega

theorem makeMap_inside_iff {fuel : Nat} {pairs : List (Term × Term)} {m : FlatMap}
    (h : makeMap debug fuel n pairs ⟨heap, []⟩ = .ok ((p, m), s')) :
    Inside s' p (FlatMap.storageSize heap.boxHeader n % 2 ^ 64) ↔
      0 < pairsAllotted heap.boxHeader n ∧ AddsFit fuel (pairsAllotted heap.boxHeader n)
        (emptyMap (FlatMap.storageSize heap.boxHeader n % 2 ^ 64)) pairs := by
  obtain ⟨⟨this, m₀⟩, s₁, hcreate, h⟩ := bind_eq_ok_iff.mp h
  obtain ⟨m₁, s₂, hadds, h⟩ := bind_eq_ok_iff.mp h
  obtain ⟨hreturned, rfl⟩ := Prod.mk.inj (Except.ok.inj h)
  obtain ⟨rfl, rfl⟩ := Prod.mk.inj hreturned
  obtain ⟨rfl, hheader, hinside⟩ := createMap_ok
    (FlatMap.storageSize heap.boxHeader n % 2 ^ 64) hcreate
  by_cases hroom : 0 < pairsAllotted heap.boxHeader n
  · have hwords : FlatMap.storageSize heap.boxHeader n % 2 ^ 64 =
        s₁.heap.boxHeader + 2 * pairsAllotted heap.boxHeader n := by
      rw [hheader]
      unfold pairsAllotted FlatMap.storageSize at *
      omega
    have hcount : (emptyMap (FlatMap.storageSize heap.boxHeader n % 2 ^ 64)).getCount <
        pairsAllotted heap.boxHeader n := hroom
    rw [addPairs_inside_iff hwords hcount hadds, hinside]
    refine and_congr_left fun _ => iff_of_true ?_ hroom
    omega
  · refine iff_of_false (fun hin => ?_) fun hfits => hroom hfits.1
    have := hinside.mp (addPairs_inside hadds hin)
    unfold pairsAllotted FlatMap.storageSize at *
    omega

theorem createBignumInto_inside_iff {limbs : List Nat}
    (h : createBignumInto limbs ⟨heap, []⟩ = .ok (p, s')) :
    Inside s' p (bignumSize heap.boxHeader) ↔ limbs.length ≤ 1 := by
  rw [createBignumInto, boxHeader, bind_eq_of_ok rfl] at h
  obtain ⟨this, s₁, halloc, h⟩ := bind_eq_ok_iff.mp h
  obtain ⟨_, s₂, hobject, h⟩ := bind_eq_ok_iff.mp h
  obtain ⟨_, s₃, hlimbs, h⟩ := bind_eq_ok_iff.mp h
  cases h
  rw [(inside_write _ _ hlimbs).2, (inside_write _ _ hobject).2, bignumSize]
  constructor
  · rintro ⟨-, hlimbs⟩
    by_contra hmore
    have := hlimbs (by omega)
    dsimp only at this
    omega
  · intro hone
    exact ⟨⟨(alloc_fresh _ halloc).2, fun _ => by dsimp only; omega⟩, fun _ => by dsimp only; omega⟩

theorem setPair_ok {this index : Nat} {s : CopyState} (words : Nat)
    (h : setPair debug this n index s = .ok ((), s')) :
    s'.heap = s.heap ∧ (Inside s' this words ↔ Inside s this words ∧
      s.heap.boxHeader + index * 2 % 2 ^ 64 + 2 ≤ words) := by
  rw [setPair, boxHeader, bind_eq_of_ok rfl] at h
  split at h
  · cases h
  · obtain ⟨_, s₁, hvalue, hlocation⟩ := bind_eq_ok_iff.mp h
    obtain ⟨hheap₁, hinside₁⟩ := inside_write this words hvalue
    obtain ⟨hheap₂, hinside₂⟩ := inside_write this words hlocation
    refine ⟨by rw [hheap₂, hheap₁], ?_⟩
    rw [hinside₂, hinside₁, and_assoc]
    refine and_congr_right fun _ => ?_
    omega

theorem setPairs_inside_iff {this : Nat} {indexes : List Nat} {s : CopyState} (words : Nat)
    (h : setPairs debug this n indexes s = .ok ((), s')) :
    Inside s' this words ↔ Inside s this words ∧
      ∀ index ∈ indexes, s.heap.boxHeader + index * 2 % 2 ^ 64 + 2 ≤ words := by
  induction indexes generalizing s with
  | nil =>
      obtain ⟨-, rfl⟩ := Prod.mk.inj (Except.ok.inj h)
      exact (and_iff_left nofun).symm
  | cons index rest ih =>
      obtain ⟨_, s₁, hset, h⟩ := bind_eq_ok_iff.mp h
      obtain ⟨hheap, hinside⟩ := setPair_ok words hset
      rw [ih h, hinside, hheap, and_assoc, List.forall_mem_cons]

theorem makeJumpTable_inside_iff {indexes : List Nat}
    (h : makeJumpTable debug n indexes ⟨heap, []⟩ = .ok (p, s')) :
    Inside s' p (jumpTableSize heap.boxHeader n % 2 ^ 64) ↔
      0 < jumpTableCount heap.boxHeader n ∧
      ∀ index ∈ indexes, index % 2 ^ 63 < jumpTableCount heap.boxHeader n := by
  obtain ⟨this, s₁, hcreate, h⟩ := bind_eq_ok_iff.mp h
  obtain ⟨_, s₂, hsets, h⟩ := bind_eq_ok_iff.mp h
  cases h
  rw [createJumpTable, boxHeader, bind_eq_of_ok rfl] at hcreate
  obtain ⟨_, s₃, hwords, hcreate⟩ := bind_eq_ok_iff.mp hcreate
  obtain ⟨rfl, rfl⟩ := machineWords_ok hwords
  obtain ⟨this, s₄, halloc, hcreate⟩ := bind_eq_ok_iff.mp hcreate
  obtain ⟨_, s₅, hwrite, hcreate⟩ := bind_eq_ok_iff.mp hcreate
  obtain ⟨rfl, rfl⟩ := Prod.mk.inj (Except.ok.inj hcreate)
  obtain ⟨hheader, hfresh⟩ := alloc_fresh
    (jumpTableSize heap.boxHeader n % 2 ^ 64) halloc
  obtain ⟨hheap, hinside⟩ := inside_write this
    (jumpTableSize heap.boxHeader n % 2 ^ 64) hwrite
  rw [setPairs_inside_iff _ hsets, hinside, and_iff_right hfresh, hheap, hheader]
  dsimp only
  have hcreated : (0 < heap.boxHeader + 1 →
      this ≤ this ∧ this + (heap.boxHeader + 1) ≤
        this + jumpTableSize heap.boxHeader n % 2 ^ 64) ↔
      0 < jumpTableCount heap.boxHeader n := by
    unfold jumpTableCount jumpTableSize
    omega
  rw [hcreated]
  refine and_congr_right fun hcount => forall₂_congr fun index _ => ?_
  unfold jumpTableCount jumpTableSize at *
  omega

end Objects

/-- A heap of a release build. -/
def smallHeap : ProcessHeap where
  base := 0
  boxHeader := 2
  heapTop := 0
  stackTop := 16
  capacity := 16
  heapTop_le := by decide
  stackTop_le := by decide

end BoxedObjects

end Zeptobeam
