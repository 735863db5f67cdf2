/-
Encodings that lie one after the other, decoded one after the other.  Big integers of more
than one limb and maps that are full reach behind the words that were allotted for them:
what was built stays as it is as long as nothing is allotted behind such an object.
-/
import Zeptobeam.EtfRoundTrip

namespace Zeptobeam

open Fuelled ExtTermFormat Loading BinaryReader

/-! ## Objects that reach behind their words -/

/-- How far the last of the objects reaches behind its words, and whether one was written
over, after objects that reach so far each. -/
def overlay : List Nat → Nat × Bool → Nat × Bool
  | [], s => s
  | k :: ks, s => overlay ks (k, s.2 || 0 < s.1)

theorem overlay_append (ks ks' : List Nat) (s : Nat × Bool) :
    overlay (ks ++ ks') s = overlay ks' (overlay ks s) := by
  induction ks generalizing s with
  | nil => rfl
  | cons k ks ih => exact ih _

theorem overlay_true (ks : List Nat) (k : Nat) (damaged : Bool) :
    overlay ks (k, true) = ((overlay ks (k, damaged)).1, true) := by
  induction ks generalizing k damaged with
  | nil => rfl
  | cons k' ks ih =>
      simp only [overlay, Bool.true_or]
      exact ih k' _

/-- Nothing is written over as long as only the last object reaches behind its words. -/
theorem overlay_undamaged_iff (ks : List Nat) (k : Nat) (damaged : Bool) :
    (overlay ks (k, damaged)).2 = false ↔
      damaged = false ∧ ∀ k' ∈ (k :: ks).dropLast, k' = 0 := by
  induction ks generalizing k damaged with
  | nil => simp [overlay]
  | cons k' ks ih =>
      rw [overlay, ih, List.dropLast_cons_of_ne_nil (List.cons_ne_nil k' ks),
        List.forall_mem_cons]
      simp only [Bool.or_eq_false_iff, decide_eq_false_iff_not, Nat.not_lt, Nat.le_zero,
        and_assoc]

namespace Heap

def reach (heap : Heap) : Nat × Bool :=
  (heap.behindTop, heap.damaged)

theorem reach_allotted (nWords : Nat) (heap : Heap) :
    (heap.allotted nWords).reach = overlay [0] heap.reach := rfl

end Heap

namespace Etf

section

variable (boxHeader : Nat)

mutual

/-- How far each object of a term reaches behind its words, in the order in which they are
allotted. -/
noncomputable def overhangs (addr : Nat) : Etf → List Nat
  | .smallInteger _ | .integer _ | .atomLatin1 _ | .atomUtf8 _ _ | .nil | .noList => []
  | .string bytes => bytes.map fun _ => 0
  | .list elements tail =>
      overhangsCells addr elements ++
        overhangs (addr + wordsOfAll boxHeader elements + 2 * elements.length) tail
  | .tuple _ elements =>
      if elements.length = 0 then []
      else 0 :: overhangsAll (addr + (boxHeader + elements.length)) elements
  | .binary data => if data.length = 0 then [] else [0]
  | .big _ _ digits => [(digits.length + 7) / 8 - 1]
  | .map pairs =>
      (if ((pairsAt boxHeader addr pairs).getD []).length = pairs.length / 2 then 1 else 0) ::
        overhangsAll (addr + FlatMap.storageSize boxHeader (pairs.length / 2)) pairs

noncomputable def overhangsAll (addr : Nat) : List Etf → List Nat
  | [] => []
  | t :: rest => overhangs addr t ++ overhangsAll (addr + words boxHeader t) rest

noncomputable def overhangsCells (addr : Nat) : List Etf → List Nat
  | [] => []
  | t :: rest => overhangs addr t ++ 0 :: overhangsCells (addr + words boxHeader t + 2) rest

end

variable {boxHeader}

mutual

/-- A term without words has no objects. -/
theorem overhangs_eq_nil_iff (hbox : 0 < boxHeader) (t : Etf) (addr : Nat) :
    overhangs boxHeader addr t = [] ↔ words boxHeader t = 0 := by
  cases t with
  | smallInteger | integer | atomLatin1 | atomUtf8 | nil | noList => exact iff_of_true rfl rfl
  | string bytes => simp [overhangs, words]
  | list elements tail =>
      have hcells := overhangsCells_eq_nil_iff elements addr
      have htail := overhangs_eq_nil_iff hbox tail
        (addr + wordsOfAll boxHeader elements + 2 * elements.length)
      rw [overhangs, words, List.append_eq_nil_iff, hcells, htail]
      omega
  | tuple wide elements =>
      rw [overhangs, words]
      split
      next => exact iff_of_true rfl rfl
      next => exact iff_of_false (List.cons_ne_nil _ _) (by omega)
  | binary data =>
      rw [overhangs, words]
      split
      next => exact iff_of_true rfl rfl
      next => exact iff_of_false (List.cons_ne_nil _ _) (by rw [binaryWords]; omega)
  | big wide sign digits =>
      exact iff_of_false (List.cons_ne_nil _ _) (by rw [words]; omega)
  | map pairs =>
      exact iff_of_false (List.cons_ne_nil _ _) (by rw [words, FlatMap.storageSize]; omega)

theorem overhangsAll_eq_nil_iff (hbox : 0 < boxHeader) (ts : List Etf) (addr : Nat) :
    overhangsAll boxHeader addr ts = [] ↔ wordsOfAll boxHeader ts = 0 := by
  cases ts with
  | nil => exact iff_of_true rfl rfl
  | cons t rest =>
      have hfirst := overhangs_eq_nil_iff hbox t addr
      have hrest := overhangsAll_eq_nil_iff hbox rest (addr + words boxHeader t)
      rw [overhangsAll, wordsOfAll, List.append_eq_nil_iff, hfirst, hrest]
      omega

theorem overhangsCells_eq_nil_iff (ts : List Etf) (addr : Nat) :
    overhangsCells boxHeader addr ts = [] ↔ wordsOfAll boxHeader ts + 2 * ts.length = 0 := by
  cases ts with
  | nil => exact iff_of_true rfl rfl
  | cons t rest =>
      rw [overhangsCells, List.length_cons]
      exact iff_of_false (by simp) (by omega)

end

end

theorem reach_foldl_allotted (bytes : List UInt8) (heap : Heap) :
    (bytes.foldl (fun heap _ => heap.allotted 2) heap).reach
      = overlay (bytes.map fun _ => 0) heap.reach := by
  induction bytes generalizing heap with
  | nil => rfl
  | cons b bytes ih => exact ih (heap.allotted 2)

/-- The count or the last value of a map that is full, past its end. -/
theorem reach_past {filled : Heap} {objectEnd : Nat} {ks : List Nat} {damaged : Bool}
    (hfilled : filled.reach = overlay ks (0, damaged))
    (hend : ks = [] ↔ filled.heapTop = objectEnd) :
    (filled.past objectEnd).reach = overlay ks (1, damaged) := by
  unfold Heap.past
  split
  next htop =>
    obtain rfl := hend.mpr htop
    have hbehind : filled.behindTop = 0 := congrArg Prod.fst hfilled
    have hdamaged : filled.damaged = damaged := congrArg Prod.snd hfilled
    rw [Heap.reach, Heap.reaching, hbehind, hdamaged]
    rfl
  next htop =>
    cases ks with
    | nil => exact absurd (hend.mp rfl) htop
    | cons k ks =>
        have hbehind : filled.behindTop = (overlay (k :: ks) (0, damaged)).1 :=
          congrArg Prod.fst hfilled
        rw [Heap.reach, hbehind]
        simp only [overlay, Nat.lt_irrefl, Nat.zero_lt_one, decide_true, decide_false,
          Bool.or_true, Bool.or_false]
        exact (overlay_true ks k damaged).symm

mutual

theorem reach_after (t : Etf) (heap : Heap) (hbox : 0 < heap.boxHeader) :
    (after t heap).reach = overlay (overhangs heap.boxHeader heap.heapTop t) heap.reach := by
  cases t with
  | smallInteger | integer | atomLatin1 | atomUtf8 | nil | noList => rfl
  | string bytes => exact reach_foldl_allotted bytes heap
  | list elements tail =>
      have hgrown := afterCells_grown elements heap
      have hcells := reach_afterCells elements heap hbox
      have htail := reach_after tail (afterCells elements heap) (by rwa [hgrown.boxHeader])
      rw [hgrown.boxHeader, hgrown.heapTop, hcells, ← Nat.add_assoc] at htail
      rw [after, htail, overhangs, overlay_append]
  | tuple wide elements =>
      rw [after, overhangs]
      split
      next => rfl
      next => exact reach_afterAll elements _ hbox
  | binary data =>
      rw [after, overhangs]
      split <;> rfl
  | big wide sign digits =>
      rw [after, overhangs, Heap.reach, Heap.reaching, Heap.allotted]
      simp only [Nat.zero_max]
      rfl
  | map pairs =>
      have hgrown := afterAll_grown pairs
        (heap.allotted (FlatMap.storageSize heap.boxHeader (pairs.length / 2)))
      have hfilled := reach_afterAll pairs
        (heap.allotted (FlatMap.storageSize heap.boxHeader (pairs.length / 2))) hbox
      rw [after, overhangs, overlay]
      split
      next hfull =>
        refine reach_past hfilled ?_
        rw [hgrown.heapTop]
        refine (overhangsAll_eq_nil_iff hbox pairs _).trans ?_
        simp only [Heap.allotted]
        omega
      next => exact hfilled

theorem reach_afterAll (ts : List Etf) (heap : Heap) (hbox : 0 < heap.boxHeader) :
    (afterAll ts heap).reach
      = overlay (overhangsAll heap.boxHeader heap.heapTop ts) heap.reach := by
  cases ts with
  | nil => rfl
  | cons t rest =>
      have hgrown := after_grown t heap
      have hfirst := reach_after t heap hbox
      have hrest := reach_afterAll rest (after t heap) (by rwa [hgrown.boxHeader])
      rw [hgrown.boxHeader, hgrown.heapTop, hfirst] at hrest
      rw [afterAll, hrest, overhangsAll, overlay_append]

theorem reach_afterCells (ts : List Etf) (heap : Heap) (hbox : 0 < heap.boxHeader) :
    (afterCells ts heap).reach
      = overlay (overhangsCells heap.boxHeader heap.heapTop ts) heap.reach := by
  cases ts with
  | nil => rfl
  | cons t rest =>
      have hgrown := cell_grown t heap
      have hfirst := reach_after t heap hbox
      have hrest := reach_afterCells rest ((after t heap).allotted 2)
        (by rwa [hgrown.boxHeader])
      rw [hgrown.boxHeader, hgrown.heapTop, Heap.reach_allotted, hfirst,
        ← Nat.add_assoc] at hrest
      rw [afterCells, hrest, overhangsCells, overlay_append]
      rfl

end

end Etf

/-! ## Encodings one after the other -/

/-- Encodings, each after the byte of the format. -/
def encodings (ts : List Etf) : List UInt8 :=
  ts.flatMap fun t => 131 :: t.bytes

/-- The encodings between other bytes are decoded to their terms, one after the other, with
the reader behind the last one and nothing of the terms written over. -/
def DecodesAll (ts : List Etf) (before rest : List UInt8) (heap : Heap) : Prop :=
  ∃ built heap', Etf.DenotesAll ts built ∧ heap'.damaged = false ∧
    ∃ least, ∀ fuel, least ≤ fuel →
      times ts.length (decode fuel) (start before (encodings ts ++ rest) heap)
        = .ok (built, ⟨⟨before ++ (encodings ts ++ rest),
          before.length + (encodings ts).length⟩, heap'⟩)

theorem builds_encodings {ts : List Etf} (hts : ∀ t ∈ ts, t.WellFormed) (heap : Heap)
    (rest : List UInt8) :
    Builds (fun fuel => times ts.length (decode fuel)) heap (encodings ts) rest
      (Etf.FitsAll heap.boxHeader heap.stackTop heap.heapTop ts)
      (Etf.placeAll heap.boxHeader heap.heapTop ts) (Etf.afterAll ts heap) := by
  induction ts generalizing heap with
  | nil => exact Builds.pure _ heap rest
  | cons t ts ih =>
      obtain ⟨ht, hts⟩ := List.forall_mem_cons.mp hts
      have hgrown := Etf.after_grown t heap
      have hrest := ih hts (Etf.after t heap)
      simp only [hgrown.boxHeader, hgrown.stackTop, hgrown.heapTop] at hrest
      exact (builds_decode ht heap _).bind fun _ => hrest.making fun _ => rfl

/-- Where the encodings do not fit, the decoder panics; where they do, this is what it comes
to. -/
theorem decodesAll_iff_of_builds {ts : List Etf} (hts : ∀ t ∈ ts, t.WellFormed)
    (before rest : List UInt8) (heap : Heap) :
    DecodesAll ts before rest heap ↔
      Etf.FitsAll heap.boxHeader heap.stackTop heap.heapTop ts ∧
        Etf.DenotesAll ts (Etf.placeAll heap.boxHeader heap.heapTop ts) ∧
        (Etf.afterAll ts heap).damaged = false := by
  have hbuilds := builds_encodings hts heap rest
  have hreads := reads_start before (encodings ts) rest heap
  constructor
  · rintro ⟨built, heap', hdenotes, hdamaged, least', hdecoded⟩
    by_cases hfits : Etf.FitsAll heap.boxHeader heap.stackTop heap.heapTop ts
    · obtain ⟨least, hends⟩ := hbuilds.returns hfits
      have hresult := hends (max least least') (by omega) _ rfl hreads
      replace hresult := (hdecoded (max least least') (by omega)).symm.trans hresult
      injection hresult with hresult
      injection hresult with hbuilt hstate
      injection hstate with hreader hheap
      rw [hbuilt] at hdenotes
      rw [hheap] at hdamaged
      exact ⟨hfits, hdenotes, hdamaged⟩
    · obtain ⟨least, hends⟩ := hbuilds.panics hfits
      obtain ⟨p, hp⟩ := hends (max least least') (by omega) _ rfl hreads
      cases (hdecoded (max least least') (by omega)).symm.trans hp
  · rintro ⟨hfits, hdenotes, hdamaged⟩
    obtain ⟨least, hends⟩ := hbuilds.returns hfits
    exact ⟨_, _, hdenotes, hdamaged, least, fun fuel hfuel => hends fuel hfuel _ rfl hreads⟩

end Zeptobeam
