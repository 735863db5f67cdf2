/-
What it takes for a read of the loader to answer: to return, or to report an error.  Each
read asks for the bytes that it goes through without looking whether they are there.
-/
import Zeptobeam.BeamFile
import Zeptobeam.Lib.FuelledState
import Zeptobeam.LoadingFuel

namespace Zeptobeam

/-- The function returned an error. -/
def Stop.IsErr : Stop → Prop
  | .err _ => True
  | .panic _ => False

namespace Loading

open BinaryReader

/-- With enough fuel, the decoder reports an error, or returns what the postcondition
holds of. -/
abbrev Answers {α : Type} (x : Nat → Loading α) (s : LoadState)
    (post : α → LoadState → Prop) : Prop :=
  FuelledState.Answers Stop.IsErr x s post

abbrev Decided {α : Type} (x : Nat → Loading α) (s : LoadState) : Prop :=
  FuelledState.Decided Stop.IsErr x s

/-- So many bytes are before the reader. -/
def Has (s : LoadState) (n : Nat) : Prop :=
  s.reader.pos + n ≤ s.reader.buf.length

@[simp]
theorem has_advance {s : LoadState} {m n : Nat} : Has (s.advance m) n ↔ Has s (m + n) := by
  simp [Has, BinaryReader.advance, Nat.add_assoc]

theorem has_iff {s : LoadState} {n : Nat} (h : Has s 0 ∨ 0 < n) :
    Has s n ↔ n ≤ s.reader.rest.length := by
  rw [length_rest]
  simp only [Has] at h ⊢
  omega

/-- A postcondition of the file and the heap, whatever the position is. -/
def leaving {α : Type} (post : List UInt8 → Heap → Prop) (_ : α) (s : LoadState) : Prop :=
  post s.reader.buf s.heap

section

variable {α β : Type} {s : LoadState} {x : Nat → Loading α} {post : α → LoadState → Prop}

theorem answers_of_ok {x : Loading α} {a : α} {s' : LoadState} (h : x s = .ok (a, s')) :
    Answers (fun _ => x) s post ↔ post a s' :=
  FuelledState.answers_of_comes ⟨0, fun _ _ => h⟩

theorem answers_of_err {x : Loading α} {e : RtErr} (h : x s = .error (.err e)) :
    Answers (fun _ => x) s post :=
  ⟨_, ⟨0, fun _ _ => h⟩, trivial⟩

theorem not_answers_of_panic {x : Loading α} {p : Panic} (h : x s = .error (.panic p)) :
    ¬ Answers (fun _ => x) s post :=
  (FuelledState.answers_of_comes ⟨0, fun _ _ => h⟩).mp

theorem answers_err (e : RtErr) : Answers (fun _ => err e) s post :=
  answers_of_err rfl

theorem not_answers_panic (p : Panic) : ¬ Answers (fun _ => panic p) s post :=
  not_answers_of_panic rfl

theorem answers_bind_const {x : Loading α} {f : Nat → α → Loading β}
    {post : β → LoadState → Prop} :
    Answers (fun fuel => x >>= f fuel) s post ↔
      Answers (fun _ => x) s fun a s' => Answers (fun fuel => f fuel a) s' post :=
  FuelledState.answers_bind (x := fun _ => x) (FuelledState.decided_const x s)

theorem decided_of_below (h : ∀ fuel, Below (x fuel) (x (fuel + 1))) (s : LoadState) :
    Decided x s :=
  FuelledState.decided_of_agrees id fun fuel => (h fuel).agrees s

/-- Something is made of a result that the postcondition does not look at. -/
theorem answers_making (h : Decided x s) (g : α → β) {post : LoadState → Prop} :
    Answers (fun fuel => x fuel >>= fun a => pure (g a)) s (fun _ => post) ↔
      Answers x s (fun _ => post) :=
  (FuelledState.answers_bind h).trans
    (FuelledState.answers_congr fun _ _ => FuelledState.answers_pure)

end

section Reads

variable {α : Type} {s : LoadState} {n : Nat}

theorem reading_of_ok {x : Reading α} {a : α} {r : BinaryReader} (h : x s.reader = .ok (a, r)) :
    reading x s = .ok (a, { s with reader := r }) := by
  rw [reading, h]

theorem reading_of_error {x : Reading α} {stop : Stop} (h : x s.reader = .error stop) :
    reading x s = .error stop := by
  rw [reading, h]

/-- A read that goes through the bytes without looking. -/
theorem answers_slice (f : List UInt8 → α) {post : α → LoadState → Prop} :
    Answers (fun _ => reading (do return f (← slice n))) s post ↔
      Has s n ∧ post (f (s.reader.rest.take n)) (s.advance n) := by
  by_cases h : Has s n
  · have hslice : slice n s.reader = .ok (s.reader.rest.take n, s.reader.advance n) := if_pos h
    exact (answers_of_ok (reading_of_ok (StateExcept.bind_eq_of_ok hslice))).trans
      (and_iff_right h).symm
  · have hslice : slice n s.reader = .error (.panic .indexOutOfBounds) := if_neg h
    have hpanic := reading_of_error (s := s)
      (StateExcept.bind_eq_of_error (f := fun bytes => pure (f bytes)) hslice)
    exact iff_of_false (not_answers_of_panic hpanic) fun hand => h hand.1

theorem answers_readU32be {post : Nat → LoadState → Prop} :
    Answers (fun _ => reading readU32be) s post ↔
      Has s 4 ∧ post (bigEndian (s.reader.rest.take 4)) (s.advance 4) :=
  answers_slice bigEndian

theorem answers_readU16be {post : Nat → LoadState → Prop} :
    Answers (fun _ => reading readU16be) s post ↔
      Has s 2 ∧ post (bigEndian (s.reader.rest.take 2)) (s.advance 2) :=
  answers_slice bigEndian

theorem has_of_rest {b : UInt8} {rest : List UInt8} (h : s.reader.rest = b :: rest) :
    Has s 1 := by
  have hlength := congrArg List.length h
  rw [length_rest, List.length_cons] at hlength
  rw [Has]
  omega

theorem answers_readU8 {post : UInt8 → LoadState → Prop} :
    Answers (fun _ => reading readU8) s post ↔
      ∃ b rest, s.reader.rest = b :: rest ∧ post b (s.advance 1) := by
  cases hrest : s.reader.rest with
  | nil =>
      have hlength := congrArg List.length hrest
      rw [length_rest, List.length_nil] at hlength
      have hread : readU8 s.reader = .error (.panic .indexOutOfBounds) := by
        rw [readU8, List.getElem?_eq_none (by omega)]
      refine iff_of_false (not_answers_of_panic (reading_of_error hread)) ?_
      rintro ⟨b, rest, hcons, _⟩
      cases hcons
  | cons b rest =>
      have hpos : s.reader.pos ≤ s.reader.buf.length := by
        have h := has_of_rest hrest
        rw [Has] at h
        omega
      have hreads : s.reader.Reads (b :: rest) [] := ⟨hpos, by rw [hrest, List.append_nil]⟩
      refine (answers_of_ok (reading_readU8 hreads)).trans ⟨fun h => ⟨b, rest, rfl, h⟩, ?_⟩
      rintro ⟨b', rest', hcons, hpost⟩
      cases hcons
      exact hpost

theorem readBytes_of_has (h : Has s n) :
    readBytes n s.reader = .ok (s.reader.rest.take n, s.reader.advance n) :=
  if_neg (Nat.not_lt.mpr h)

theorem readBytes_of_not_has (h : ¬ Has s n) :
    readBytes n s.reader = .error (.err (.readError .prematureEOF)) :=
  if_pos (Nat.not_le.mp h)

theorem answers_unwrap_readBytes {post : List UInt8 → LoadState → Prop} :
    Answers (fun _ => reading (unwrap (readBytes n))) s post ↔
      Has s n ∧ post (s.reader.rest.take n) (s.advance n) := by
  by_cases h : Has s n
  · have hread : unwrap (readBytes n) s.reader =
        .ok (s.reader.rest.take n, s.reader.advance n) := by
      rw [unwrap, readBytes_of_has h]
    exact (answers_of_ok (reading_of_ok hread)).trans (and_iff_right h).symm
  · have hread : unwrap (readBytes n) s.reader = .error (.panic .unwrap) := by
      rw [unwrap, readBytes_of_not_has h]
    exact iff_of_false (not_answers_of_panic (reading_of_error hread)) fun hand => h hand.1

theorem answers_skip {post : List UInt8 → Heap → Prop} :
    Answers (fun _ => reading (skip n)) s (leaving post) ↔
      s.reader.buf ≠ [] ∧ post s.reader.buf s.heap := by
  by_cases h : s.reader.buf.length = 0
  · have hread : skip n s.reader = .error (.panic .arithmeticOverflow) := if_pos h
    exact iff_of_false (not_answers_of_panic (reading_of_error hread)) fun hand =>
      hand.1 (List.eq_nil_of_length_eq_zero h)
  · have hread : skip n s.reader = .ok ((), ⟨s.reader.buf,
        min (s.reader.pos + n) (s.reader.buf.length - 1)⟩) := if_neg h
    exact (answers_of_ok (reading_of_ok hread)).trans
      (and_iff_right (mt List.length_eq_zero_iff.mpr h)).symm

theorem answers_seek {p : Nat} {post : Unit → LoadState → Prop} :
    Answers (fun _ => reading (seek p)) s post ↔
      p ≤ s.reader.buf.length ∧ post () ⟨⟨s.reader.buf, p⟩, s.heap⟩ := by
  by_cases h : p ≤ s.reader.buf.length
  · exact (answers_of_ok (reading_of_ok (if_pos h))).trans (and_iff_right h).symm
  · exact iff_of_false (not_answers_of_panic (reading_of_error (if_neg h))) fun hand => h hand.1

end Reads

/-! ## Entries of a fixed width -/

/-- The read goes through so many bytes without looking, and whatever they are. -/
def Goes {α : Type} (x : Loading α) (width : Nat) : Prop :=
  ∀ (s : LoadState) (post : LoadState → Prop),
    Answers (fun _ => x) s (fun _ => post) ↔ Has s width ∧ post (s.advance width)

section Goes

variable {α β : Type} {x : Loading α} {m n : Nat}

theorem goes_readU32be : Goes (reading readU32be) 4 :=
  fun _ _ => answers_readU32be

theorem Goes.bind {f : α → Loading β} (hx : Goes x m) (hf : ∀ a, Goes (f a) n) :
    Goes (x >>= f) (m + n) := by
  intro s post
  refine answers_bind_const.trans ?_
  refine (FuelledState.answers_congr fun a s' => hf a s' post).trans ?_
  refine (hx s _).trans ?_
  rw [has_advance, LoadState.advance_advance]
  constructor
  · exact fun h => h.2
  · intro h
    refine ⟨?_, h⟩
    have hhas := h.1
    rw [Has] at hhas ⊢
    omega

theorem Goes.making (hx : Goes x n) (g : α → β) : Goes (x >>= fun a => pure (g a)) n :=
  fun s post => answers_bind_const.trans
    ((FuelledState.answers_congr fun _ _ => FuelledState.answers_pure).trans (hx s post))

theorem Goes.times (hx : Goes x m) (n : Nat) {s : LoadState} (hs : Has s 0)
    {post : LoadState → Prop} :
    Answers (fun _ => times n x) s (fun _ => post) ↔ Has s (n * m) ∧ post (s.advance (n * m)) := by
  induction n generalizing s with
  | zero =>
      rw [Nat.zero_mul]
      exact FuelledState.answers_pure.trans (and_iff_right hs).symm
  | succ n ih =>
      refine answers_bind_const.trans ?_
      refine (FuelledState.answers_congr fun a s' => answers_bind_const.trans
        (FuelledState.answers_congr fun _ _ => FuelledState.answers_pure)).trans ?_
      refine (hx s _).trans ?_
      have hwidth : m + n * m = (n + 1) * m := by
        rw [Nat.succ_mul, Nat.add_comm]
      have hrest : Has s m →
          ((Answers (fun _ => Loading.times n x) (s.advance m) fun _ => post) ↔
            Has s ((n + 1) * m) ∧ post (s.advance ((n + 1) * m))) := by
        intro hhas
        rw [← hwidth, ← has_advance, ← LoadState.advance_advance]
        exact ih (has_advance.mpr hhas)
      constructor
      · exact fun h => (hrest h.1).mp h.2
      · intro h
        have hfirst : Has s m := by
          have hhas := h.1
          rw [Has] at hhas ⊢
          rw [← hwidth] at hhas
          omega
        exact ⟨hfirst, (hrest hfirst).mpr h⟩

end Goes

end Loading

end Zeptobeam
