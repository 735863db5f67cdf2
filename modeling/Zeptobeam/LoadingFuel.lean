/-
More fuel leaves what a decoder does, unless it ran out of fuel; and a decoder stays in its
file.  Both are kept by the ways in which decoders are put together, and hold of the
reader of compact terms.
-/
import Zeptobeam.CompactTerm

namespace Zeptobeam

namespace Loading

open BinaryReader

variable {α β : Type}

/-- The second decoder does what the first one does, unless that runs out of fuel; and the
first one stays in its file. -/
structure Below (x y : Loading α) : Prop where
  agrees : ∀ s, x s = .error (.panic .outOfFuel) ∨ x s = y s
  keepsFile : ∀ s a s', x s = .ok (a, s') → s'.reader.buf = s.reader.buf

/-- A decoder without fuel that stays in its file. -/
abbrev Stays (x : Loading α) : Prop :=
  Below x x

theorem Stays.intro {x : Loading α}
    (h : ∀ s a s', x s = .ok (a, s') → s'.reader.buf = s.reader.buf) : Stays x :=
  ⟨fun _ => .inr rfl, h⟩

theorem below_outOfFuel (y : Loading α) : Below (panic .outOfFuel) y :=
  ⟨fun _ => .inl rfl, fun _ _ _ h => by cases h⟩

theorem stays_pure (a : α) : Stays (pure a : Loading α) := by
  refine .intro fun s a' s' h => ?_
  cases h
  rfl

theorem stays_panic (p : Panic) : Stays (panic p : Loading α) :=
  .intro fun _ _ _ h => by cases h

theorem stays_err (e : RtErr) : Stays (err e : Loading α) :=
  .intro fun _ _ _ h => by cases h

theorem stays_get : Stays (get : Loading LoadState) := by
  refine .intro fun s a s' h => ?_
  cases h
  rfl

theorem Below.bind {x y : Loading α} {f g : α → Loading β} (h : Below x y)
    (hf : ∀ a, Below (f a) (g a)) : Below (x >>= f) (y >>= g) := by
  refine ⟨fun s => ?_, fun s b s' hok => ?_⟩
  · rcases h.agrees s with hx | hx
    · exact .inl (StateExcept.bind_eq_of_error hx)
    · cases hresult : x s with
      | error e =>
          right
          rw [StateExcept.bind_eq_of_error hresult, StateExcept.bind_eq_of_error (hx ▸ hresult)]
      | ok p =>
          have hfx : (x >>= f) s = f p.1 p.2 := StateExcept.bind_eq_of_ok hresult
          have hgy : (y >>= g) s = g p.1 p.2 := StateExcept.bind_eq_of_ok (hx ▸ hresult)
          rw [hfx, hgy]
          exact (hf p.1).agrees p.2
  · obtain ⟨a, s₁, hx, hfa⟩ := StateExcept.bind_eq_ok_iff.mp hok
    rw [(hf a).keepsFile s₁ b s' hfa, h.keepsFile s a s₁ hx]

/-- One of two decoders, and then the same. -/
theorem Below.ite_bind {c : Prop} [Decidable c] {x y x' y' : Loading α} {f g : α → Loading β}
    (h : Below x y) (h' : Below x' y') (hf : ∀ a, Below (f a) (g a)) :
    Below (if c then x >>= f else x' >>= f) (if c then y >>= g else y' >>= g) := by
  split
  next => exact h.bind hf
  next => exact h'.bind hf

theorem Below.times {x y : Loading α} (h : Below x y) (n : Nat) :
    Below (times n x) (times n y) := by
  induction n with
  | zero => exact stays_pure []
  | succ n ih => exact h.bind fun _ => ih.bind fun _ => stays_pure _

/-! ## Reads and allotments -/

theorem stays_reading {x : Reading α}
    (h : ∀ r a r', x r = .ok (a, r') → r'.buf = r.buf) : Stays (reading x) := by
  refine .intro fun s a s' hok => ?_
  rw [reading] at hok
  split at hok
  next a' r' hx =>
    cases hok
    exact h _ _ _ hx
  next => cases hok

theorem stays_readU8 : Stays (reading readU8) := by
  refine stays_reading fun r a r' hok => ?_
  rw [readU8] at hok
  split at hok <;> cases hok
  rfl

theorem stays_readBytes (n : Nat) : Stays (reading (readBytes n)) := by
  refine stays_reading fun r a r' hok => ?_
  rw [readBytes] at hok
  split at hok <;> cases hok
  rfl

theorem stays_alloc (n : Nat) : Stays (Heap.alloc n) := by
  refine .intro fun s a s' hok => ?_
  rw [Heap.alloc] at hok
  split at hok <;> cases hok
  rfl

theorem stays_writeBehind (n : Nat) : Stays (Heap.writeBehind n) := by
  refine .intro fun s a s' hok => ?_
  rw [Heap.writeBehind] at hok
  split at hok <;> cases hok
  rfl

theorem stays_createBignum (limbs : List Nat) : Stays (createBignum limbs) := by
  refine stays_get.bind fun _ => (stays_alloc _).bind fun _ => ?_
  split
  next => exact stays_writeBehind _
  next => exact stays_pure ()

end Loading

/-! ## Compact terms -/

namespace CompactTerm

open Loading

theorem stays_getSmallUnsigned (value : Int) : Stays (getSmallUnsigned value) := by
  rw [getSmallUnsigned]
  split
  next => exact stays_panic _
  next => exact stays_pure _

theorem stays_readLong (n : Nat) : Stays (readLong n) := by
  refine (stays_readBytes n).bind fun longBytes => ?_
  dsimp only
  split
  next => exact stays_pure _
  next =>
    split
    next => exact stays_panic _
    next => exact (stays_createBignum _).bind fun _ => stays_pure _

theorem below_readWord (fuel : Nat) (b : UInt8) :
    Below (readWord fuel b) (readWord (fuel + 1) b) := by
  induction fuel generalizing b with
  | zero => exact below_outOfFuel _
  | succ fuel ih =>
      rw [readWord, readWord]
      split_ifs
      · exact stays_pure _
      · exact stays_readU8.bind fun _ => stays_pure _
      · refine stays_readU8.bind fun bnext => (ih bnext).bind fun word => ?_
        split
        next => exact (stays_getSmallUnsigned _).bind fun _ => stays_readLong _
        next => exact stays_panic _
      · exact stays_readLong _

theorem below_readInt (fuel : Nat) : Below (readInt fuel) (readInt (fuel + 1)) := by
  refine stays_readU8.bind fun b => ?_
  dsimp only
  split
  next =>
    refine (stays_panic _).bind fun _ => (below_readWord fuel b).bind fun word => ?_
    split
    next => exact stays_pure _
    next => exact stays_panic _
  next =>
    refine (below_readWord fuel b).bind fun word => ?_
    split
    next => exact stays_pure _
    next => exact stays_panic _

theorem below_readIndex (fuel : Nat) (make : Nat → LtTerm) (text : String) :
    Below (readIndex fuel make text) (readIndex (fuel + 1) make text) := by
  refine stays_readU8.bind fun b => (below_readWord fuel b).bind fun word => ?_
  split
  next => exact (stays_getSmallUnsigned _).bind fun _ => stays_pure _
  next => exact stays_err _

theorem below_addAmounts (fuel n totalWords : Nat) :
    Below (addAmounts fuel n totalWords) (addAmounts (fuel + 1) n totalWords) := by
  induction n generalizing totalWords with
  | zero => exact stays_pure _
  | succ n ih =>
      refine (below_readInt fuel).bind fun _ => (below_readInt fuel).bind fun amount => ?_
      dsimp only
      split
      next => exact (stays_panic _).bind fun _ => ih _
      next => exact ih _

theorem below_parseExtAllocList (fuel : Nat) :
    Below (parseExtAllocList fuel) (parseExtAllocList (fuel + 1)) :=
  (below_readInt fuel).bind fun _ => (below_addAmounts fuel _ 0).bind fun _ => stays_pure _

section

variable {read read' : Loading LtTerm} (hread : Below read read') (fuel : Nat)

include hread

theorem below_parseExtTypedRegister :
    Below (parseExtTypedRegister read) (parseExtTypedRegister read') :=
  hread.bind fun _ => hread.bind fun _ => stays_pure _

theorem below_parseListAsTupleInitializer :
    Below (parseListAsTupleInitializer read fuel)
      (parseListAsTupleInitializer read' (fuel + 1)) := by
  refine (below_readInt fuel).bind fun arity => ?_
  dsimp only
  split
  next => exact stays_pure _
  next =>
    exact stays_get.bind fun _ => (stays_alloc _).bind fun _ => (hread.times _).bind fun _ =>
      stays_pure _

theorem below_parseListAsJumpTable :
    Below (parseListAsJumpTable read fuel) (parseListAsJumpTable read' (fuel + 1)) := by
  have hpair : Below (read >>= fun value => read >>= fun loc => pure (value, loc))
      (read' >>= fun value => read' >>= fun loc => pure (value, loc)) :=
    hread.bind fun _ => hread.bind fun _ => stays_pure _
  exact (below_readInt fuel).bind fun _ => stays_get.bind fun _ => (stays_alloc _).bind fun _ =>
    (hpair.times _).bind fun _ => stays_pure _

theorem below_parseExtTag (mode : ListParseMode) (b : UInt8) :
    Below (parseExtTag read mode fuel b) (parseExtTag read' mode (fuel + 1) b) := by
  unfold parseExtTag
  split
  next =>
    cases mode with
    | asJumpTable => exact below_parseListAsJumpTable hread fuel
    | asTuple2Initializer => exact below_parseListAsTupleInitializer hread fuel
  next => exact below_parseExtAllocList fuel
  next => exact below_readIndex fuel _ _
  next => exact below_readIndex fuel _ _
  next => exact below_parseExtTypedRegister hread
  next => exact stays_err _

end

theorem stays_onSmall {bword : LtTerm} {e : CompactTermError} {make : Int → Loading LtTerm}
    (hmake : ∀ value, Stays (make value)) : Stays (onSmall bword e make) := by
  unfold onSmall
  split
  next => exact hmake _
  next => exact stays_err _

theorem stays_onSmall_index {bword : LtTerm} {e : CompactTermError} {make : Nat → LtTerm} :
    Stays (onSmall bword e fun value => do return make (← getSmallUnsigned value)) :=
  stays_onSmall fun value => (stays_getSmallUnsigned value).bind fun _ => stays_pure _

theorem below_read (mode : ListParseMode) (fuel : Nat) :
    Below (read mode fuel) (read mode (fuel + 1)) := by
  induction fuel with
  | zero => exact below_outOfFuel _
  | succ fuel ih =>
      rw [read, read]
      refine stays_readU8.bind fun b =>
        Below.ite_bind (below_readWord fuel b) (stays_pure _) fun bword => ?_
      split
      next => exact stays_onSmall fun _ => stays_pure _
      next => exact stays_pure _
      next => exact stays_onSmall_index
      next => exact stays_onSmall_index
      next => exact stays_onSmall_index
      next => exact stays_onSmall_index
      next => exact stays_onSmall fun _ => stays_pure _
      next => exact below_parseExtTag ih fuel mode b

end CompactTerm

end Zeptobeam
