/-
The integers that `bs_match` takes from a binary.  It reads the bits as a number without a sign,
the first bit on top, and does not look at the flags of the command.
-/
import Zeptobeam.BinaryConstruction
import Zeptobeam.BsMatch
import Zeptobeam.IntegersPlaced

namespace Zeptobeam

namespace BsMatch

open BitString BitsPaste Matching MatchContexts

/-! ## The integers that bits denote -/

/-- The flags of a command: a mask, or a list of names. -/
def commandFlags : CommandTerm → BsFlags
  | .small value => .fromBitsTruncate (value % 2 ^ 61).toNat
  | .cons (.atom name) tl => (Building.flagNamed name).union (commandFlags tl)
  | .cons _ tl => commandFlags tl
  | _ => .empty

/-- The integer under the flags; what is native is so on machines with the low byte first. -/
def denoted (flags : BsFlags) (bs : List Bool) : Int :=
  let ordered :=
    if flags.contains .little ∨ flags.contains .native then bytesReversed bs else bs
  if flags.contains .signed then signedValue ordered else unsignedValue ordered

/-- The integer in a register; `big` says which one the big integer at an address is. -/
def IntegerIs (big : Nat → Int → Prop) (n : Int) : RegValue → Prop
  | .small value => smallFits n ∧ value = n
  | .other addr => ¬ smallFits n ∧ big addr n
  | _ => False

/-- The bits that a command takes. -/
def taken (s : MatchProcess) (width : Nat) : List Bool :=
  (rest s).take width

/-- The command puts the integer into the register, goes behind the bits, and changes nothing
else. -/
def Extracts (debug : Bool) (big : Nat → Int → Prop) (s : MatchProcess) (live : Nat)
    (flags : CommandTerm) (bits unit : Nat) (dst : Reg) : Prop :=
  let command := Command.integer (.small live) flags (.small bits) (.small unit) (.reg dst)
  let result := run (runOne debug command.toTuple) s
  result.1 = .ok true ∧
    result.2.context = s.context.increaseOffset (bits * unit) ∧
      Takes s dst ∧
        ∃ v, IntegerIs big (denoted (commandFlags flags) (taken s (bits * unit))) v ∧
          SameRegisters (put s v dst) result.2

/-- The integer is a small, and is the one that the bits denote without flags, up to the bits
that a small does not have. -/
def Readable (flags : BsFlags) (bs : List Bool) : Prop :=
  smallFits (denoted flags bs) ∧ 2 ^ 61 ∣ denoted flags bs - unsignedValue bs

/-! ## The extraction -/

section Extraction

variable {s : MatchProcess}

/-- The loop makes the number of the bits, without those that leave the word at the top. -/
theorem foldl_word (bs : List Bool) (value : Nat) :
    bs.foldl (fun value b => (value * 2 + b.toNat) % 2 ^ 64) (value % 2 ^ 64) =
      bs.foldl (fun value b => value * 2 + b.toNat) value % 2 ^ 64 := by
  induction bs generalizing value with
  | nil => rfl
  | cons b bs ih =>
      rw [List.foldl_cons, List.foldl_cons, ← ih]
      congr 1
      omega

theorem bitAt_eq (reader : BitReader) (i : Nat) :
    bitAt reader i = (byteBit (reader.read (i / 8)) (i % 8)).toNat := by
  have hmod : (7 - i % 8).toUInt8.toNat % 8 = 7 - i % 8 := by
    simp only [Nat.toUInt8, UInt8.toNat_ofNat']
    omega
  have hone : (1 : UInt8).toNat = 1 := rfl
  rw [bitAt, byteBit, UInt8.toNat_and, UInt8.toNat_shiftRight, hmod, hone, Nat.and_one_is_mod,
    Nat.testBit_eq_decide_div_mod_eq, Nat.shiftRight_eq_div_pow]
  rcases Nat.mod_two_eq_zero_or_one ((reader.read (i / 8)).toNat / 2 ^ (7 - i % 8)) with h | h
  · simp [h]
  · simp [h]

/-- The context is one of its whole binary. -/
structure OfBinary (s : MatchProcess) : Prop where
  wellFormed : s.context.orig.WellFormed
  stopAt : s.context.stopAt = s.context.orig.bitSize
  inBounds : s.context.readPosition ≤ s.context.orig.bitSize
  /-- Sizes are words. -/
  word : s.context.orig.bitSize < 2 ^ 64

theorem OfBinary.length_rest (h : OfBinary s) :
    (rest s).length = s.context.orig.bitSize - s.context.readPosition := by
  rw [rest, List.length_drop, TBinary.length_bits h.wellFormed]

theorem taken_eq_map (h : OfBinary s) {width : Nat} (hwidth : width ≤ (rest s).length) :
    taken s width =
      (List.range width).map fun i => byteBit (s.context.reader.read (i / 8)) (i % 8) := by
  rw [h.length_rest] at hwidth
  have hin := h.inBounds
  refine List.ext_getElem? fun i => ?_
  rw [taken, rest, List.getElem?_take]
  split
  next hi =>
    have hplace : s.context.readPosition + i =
        s.context.readPosition + 8 * (i / 8) + i % 8 := by omega
    rw [List.getElem?_drop, hplace,
      TBinary.getElem?_bits_of_lt h.wellFormed (by omega) (by omega)]
    simp only [List.getElem?_map, List.getElem?_range hi, Option.map_some]
    rfl
  next hi => rw [List.getElem?_eq_none (by simpa using hi)]

theorem bitsValue_eq (h : OfBinary s) {width : Nat} (hwidth : width ≤ (rest s).length) :
    bitsValue s.context.reader width = unsignedValue (taken s width) % 2 ^ 64 := by
  rw [unsignedValue, ← foldl_word, taken_eq_map h hwidth, List.foldl_map, bitsValue]
  simp only [bitAt_eq]
  rfl

theorem run_getBitsRemaining_rest (h : OfBinary s) (debug : Bool) :
    run (getBitsRemaining debug) s = (.ok (rest s).length, s) := by
  have hvalid : Valid s.context.orig ⟨s, []⟩ :=
    ⟨rfl, h.stopAt, h.inBounds, fun _ hp => absurd hp List.not_mem_nil⟩
  exact hvalid.run_getBitsRemaining h.wellFormed debug

theorem run_toUsize {n : Nat} (hn : smallFits n) (debug : Bool) :
    run (toUsize debug (.small n)) s = (.ok (some n), s) := by
  obtain ⟨-, hhigh⟩ := hn
  have hsize : getSmallUnsigned debug n = .ok n := by
    rw [getSmallUnsigned, if_neg (by omega)]
    congr 1
    omega
  rw [toUsize, run_bind_ok (run_lift_ok hsize s)]
  rfl

/-- What the command does to a register that takes integers. -/
theorem run_integer (h : OfBinary s) {debug : Bool} {live bits unit : Nat} {dst : Reg}
    (flags : CommandTerm) (hlive : smallFits live) (hbits : smallFits bits)
    (hunit : smallFits unit) (hwidth : bits * unit ≤ (rest s).length) (hdst : Takes s dst) :
    run (runOne debug
        (Command.integer (.small live) flags (.small bits) (.small unit) (.reg dst)).toTuple) s =
      (.ok true, put { s with context := s.context.increaseOffset (bits * unit) }
        (.small (smallBits (unsignedValue (taken s (bits * unit)) % 2 ^ 64 : Nat))) dst) := by
  have hless : bits * unit < 2 ^ 64 := by
    have hword := h.word
    rw [h.length_rest] at hwidth
    omega
  have hproduct : mulWords debug bits unit = .ok (bits * unit) := by
    rw [mulWords, if_neg (by omega), Nat.mod_eq_of_lt hless]
  have hremaining : run (ensureRemaining debug (bits * unit)) s = (.ok true, s) := by
    rw [ensureRemaining, run_bind_ok (run_getBitsRemaining_rest h debug), run_pure,
      decide_eq_true hwidth]
  have hcontext : run getContext s = (.ok s.context, s) := rfl
  have hstore : Takes { s with context := s.context.increaseOffset (bits * unit) } dst := hdst
  simp only [Command.toTuple, Command.operands, Command.name, runOne]
  rw [run_bind_ok (run_toUsize hlive debug)]
  dsimp only
  rw [run_bind_ok (run_toUsize hbits debug)]
  dsimp only
  rw [run_bind_ok (run_toUsize hunit debug)]
  dsimp only
  rw [extractInteger, run_bind_ok (run_lift_ok hproduct s), run_bind_ok hremaining]
  simp only [Bool.not_true, Bool.false_eq_true, if_false]
  rw [run_bind_ok hcontext, bitsValue_eq h hwidth, run_bind_ok (run_increaseOffset _ s),
    storeTerm, run_bind_ok (run_storeValue _ hstore), run_pure]

/-- The bits of a word that a small has. -/
theorem smallBits_word_eq_iff {value : Nat} {n : Int} (hn : smallFits n) :
    smallBits (value % 2 ^ 64 : Nat) = n ↔ 2 ^ 61 ∣ n - value := by
  obtain ⟨hlow, hhigh⟩ := hn
  rw [smallBits, Int.bmod_def]
  omega

theorem put_inj {v w : RegValue} {dst : Reg} (hdst : Takes s dst) (context : BinaryMatchState)
    (hsame : SameRegisters (put s v dst) (put { s with context } w dst)) : v = w := by
  obtain ⟨hx, -, hstack⟩ := hsame
  cases dst with
  | x n =>
      have hn : n < s.x.length := hdst
      have hread := congrArg (fun l => l[n]?) hx
      simpa [put, hn] using hread.symm
  | y n =>
      have hn : n + 1 < s.stack.length := hdst
      have hread := congrArg (fun l => l[n + 1]?) hstack
      simpa [put, hn] using hread.symm
  | float n => exact hdst.elim

theorem sameRegisters_put (v : RegValue) (dst : Reg) (context : BinaryMatchState) :
    SameRegisters (put s v dst) (put { s with context } v dst) := by
  cases dst <;> exact ⟨rfl, rfl, rfl⟩

end Extraction

/-- An integer is taken as it is denoted where it is a small and the bits denote the same without
flags, up to the bits that a small does not have. -/
theorem extracts_iff (debug : Bool) (big : Nat → Int → Prop) (s : MatchProcess) (h : OfBinary s)
    (live : Nat) (flags : CommandTerm) (bits unit : Nat) (dst : Reg) (hlive : smallFits live)
    (hbits : smallFits bits) (hunit : smallFits unit) (hwidth : bits * unit ≤ (rest s).length) :
    Extracts debug big s live flags bits unit dst ↔
      Takes s dst ∧ Readable (commandFlags flags) (taken s (bits * unit)) := by
  constructor
  · rintro ⟨-, -, hdst, v, hv, hsame⟩
    rw [run_integer h flags hlive hbits hunit hwidth hdst] at hsame
    cases put_inj hdst _ hsame
    obtain ⟨hfits, hvalue⟩ := hv
    exact ⟨hdst, hfits, (smallBits_word_eq_iff hfits).mp hvalue⟩
  · rintro ⟨hdst, hfits, hdvd⟩
    have hvalue : IntegerIs big (denoted (commandFlags flags) (taken s (bits * unit)))
        (.small (smallBits (unsignedValue (taken s (bits * unit)) % 2 ^ 64 : Nat))) :=
      ⟨hfits, (smallBits_word_eq_iff hfits).mpr hdvd⟩
    rw [Extracts, run_integer h flags hlive hbits hunit hwidth hdst]
    exact ⟨rfl, context_put .., hdst, _, hvalue, sameRegisters_put _ dst _⟩

section Instance

/-- One byte, all of whose bits are set. -/
private def oneByte : MatchProcess := ⟨.new (.processHeap 8 [255]), [.small 0], [], [], 0, 64, 0⟩

private theorem ofBinary_oneByte : OfBinary oneByte where
  wellFormed := ⟨by decide, rfl⟩
  stopAt := rfl
  inBounds := by decide
  word := by decide

private theorem takes_oneByte : Takes oneByte (.x 0) := Nat.zero_lt_one

private def signedFlag : CommandTerm := .cons (.atom "signed") .nil

theorem extracts_iff_oneByte :
    smallFits (1 : Nat) ∧ smallFits (8 : Nat) ∧ 8 * 1 ≤ (rest oneByte).length ∧
      (Extracts true (fun _ _ => False) oneByte 1 .nil 8 1 (.x 0) ↔
        Takes oneByte (.x 0) ∧ Readable (commandFlags .nil) (taken oneByte (8 * 1))) :=
  ⟨by decide, by decide, by decide,
    extracts_iff true _ oneByte ofBinary_oneByte 1 .nil 8 1 (.x 0) (by decide) (by decide)
      (by decide) (by decide)⟩

/-- A byte with a sign is read without it. -/
theorem not_extracts_signed :
    ¬ ∀ (debug : Bool) (big : Nat → Int → Prop) (s : MatchProcess), OfBinary s →
      ∀ (live : Nat) (flags : CommandTerm) (bits unit : Nat) (dst : Reg), smallFits live →
        smallFits bits → smallFits unit → bits * unit ≤ (rest s).length → Takes s dst →
          Extracts debug big s live flags bits unit dst := by
  intro hall
  obtain ⟨-, -, hdst, v, hv, hsame⟩ := hall true (fun _ _ => False) oneByte ofBinary_oneByte 1
    signedFlag 8 1 (.x 0) (by decide) (by decide) (by decide) (by decide) takes_oneByte
  rw [run_integer ofBinary_oneByte signedFlag (by decide) (by decide) (by decide) (by decide)
    hdst] at hsame
  cases put_inj hdst _ hsame
  exact absurd hv.2 (by decide)

end Instance

/-! ## What was put -/

section Put

variable {data data' : List UInt8} {val : Int} {flags : BsFlags}

theorem puts_of_when {width offset : Nat} (hval : smallFits val)
    (hwhen : PutsSmallWhen flags val width data offset)
    (hbig : ¬ (flags.contains .little ∨ flags.contains .native))
    (hroom : offset + width ≤ 8 * data.length) (hword : offset + width < 2 ^ 64) :
    PutsInteger debug flags (.small val) val width data offset := by
  by_cases hzero : width = 0
  · subst hzero
    exact ⟨data, putInteger_zero _ _, by rw [integerBits_zero]; exact PutsOnly.nil data offset⟩
  rcases hwhen.resolve_left hzero with ⟨hfit, hbyte⟩ | ⟨hover, hwhole⟩
  · have hold := List.getElem?_eq_getElem (show offset / 8 < data.length by omega)
    refine ⟨_, (putInteger_small_oneByte hzero hfit).trans (putBitsOneByte_eq hfit hold), ?_⟩
    rw [integerBits, if_neg hbig]
    exact (putsOnly_oneByte_iff hfit hold).mpr hbyte
  · exact (putsInteger_whole_iff hval hover hroom hword).mpr hwhole

/-- A small integer that was put where the context stands, the high byte first, is taken from
there, up to the bits that a small does not have. -/
theorem run_integer_of_put {s : MatchProcess} (h : OfBinary s) (debug : Bool)
    {total live size unit : Nat} {dst : Reg} (options : CommandTerm)
    (horig : s.context.orig = .processHeap total data') (hval : smallFits val)
    (hput : BitsPaste.putInteger debug (.small val) (size * unit) data s.context.readPosition
      flags = .ok data')
    (hwhen : PutsSmallWhen flags val (size * unit) data s.context.readPosition)
    (hbig : ¬ (flags.contains .little ∨ flags.contains .native)) (hlive : smallFits live)
    (hsize : smallFits size) (hunit : smallFits unit) (hwidth : size * unit ≤ (rest s).length)
    (hroom : s.context.readPosition + size * unit ≤ 8 * data.length) (hdst : Takes s dst) :
    run (runOne debug
        (Command.integer (.small live) options (.small size) (.small unit) (.reg dst)).toTuple) s =
      (.ok true, put { s with context := s.context.increaseOffset (size * unit) }
        (.small (smallBits (val % 2 ^ (size * unit)))) dst) := by
  have hrest := h.length_rest
  have hbound := h.inBounds
  have htotal := h.word
  have hputs : PutsInteger debug flags (.small val) val (size * unit) data _ :=
    puts_of_when hval hwhen hbig hroom (by omega)
  obtain ⟨_, hrun, hwritten⟩ := hputs
  cases hput.symm.trans hrun
  rw [integerBits, if_neg hbig] at hwritten
  have htaken : taken s (size * unit) = intBits val (size * unit) := by
    refine List.ext_getElem? fun i => ?_
    have hhere := hwritten.here i
    rw [rest, horig, TBinary.bits] at hwidth
    rw [taken, rest, horig, TBinary.bits]
    grind [length_intBits]
  have hword (n : Nat) : smallBits (n % 2 ^ 64 : Nat) = smallBits n := by
    rw [smallBits, smallBits, Int.bmod_def, Int.bmod_def]
    omega
  rw [run_integer h options hlive hsize hunit hwidth hdst, htaken, hword, unsignedValue_intBits]

/-- A byte below zero is put, and comes back without its sign. -/
theorem run_integer_of_put_oneByte :
    run (runOne true
        (Command.integer (.small 1) .nil (.small 8) (.small 1) (.reg (.x 0))).toTuple) oneByte =
      (.ok true, put { oneByte with context := oneByte.context.increaseOffset (8 * 1) }
        (.small (smallBits (-1 % 2 ^ (8 * 1)))) (.x 0)) :=
  @run_integer_of_put [0] [255] (-1) .empty _ ofBinary_oneByte true 8 1 8 1 (.x 0) .nil rfl
    (by decide) rfl (.inr (.inr ⟨by decide, rfl, Or.inr (by decide)⟩)) (by decide) (by decide)
    (by decide) (by decide) (by decide) (by decide) takes_oneByte

end Put

end BsMatch

end Zeptobeam
