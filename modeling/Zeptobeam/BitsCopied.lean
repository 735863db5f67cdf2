/-
What the routines that copy bits do where they work: whole bytes to the start of a byte, and
bits to the inside of the first byte, from where the bytes of the source are shifted.
-/
import Zeptobeam.BitsPlaced

namespace Zeptobeam

namespace BitsPaste

open BitString StateExcept

variable {debug : Bool} {dst src : List UInt8}

/-! ## Whole bytes -/

theorem puts_pasteBytes {bytes : List UInt8} {i : Nat} (hin : i + bytes.length ≤ dst.length) :
    Puts dst (pasteBytes dst i bytes) (8 * i) (bits bytes) := by
  refine ⟨length_pasteBytes dst bytes i, fun j hj => ?_, fun j hj => ?_, fun k hk => ?_⟩
  · rw [getElem?_bits, getElem?_bits, getElem?_pasteBytes, if_neg (by omega)]
  · rw [length_bits] at hj
    rw [getElem?_bits, getElem?_bits, getElem?_pasteBytes, if_pos (by omega),
      show (8 * i + j) / 8 - i = j / 8 by omega, show (8 * i + j) % 8 = j % 8 by omega]
  · rw [length_bits] at hk
    rw [getElem?_pasteBytes, if_neg (by omega)]

theorem copyBitsFromOffset0_of_aligned {offset size : Nat} (hoffset : 8 ∣ offset)
    (hsize : 8 ∣ size) (hsrc : size ≤ 8 * src.length) (hdst : offset + size ≤ 8 * dst.length) :
    ∃ dst', copyBitsFromOffset0BytealignedDst src size dst offset = .ok dst' ∧
      Puts dst dst' offset ((bits src).take size) := by
  obtain ⟨i, rfl⟩ := hoffset
  obtain ⟨n, rfl⟩ := hsize
  have hbytes : byteSizeRoundedDown (8 * n) = n := Nat.mul_div_cancel_left n (by decide)
  have hstart : byteSizeRoundedDown (8 * i) = i := Nat.mul_div_cancel_left i (by decide)
  have hlast : lastByteBits (8 * n) = 0 := Nat.mul_mod_right 8 n
  refine ⟨pasteBytes dst i (src.take n), ?_, ?_⟩
  · rw [copyBitsFromOffset0BytealignedDst]
    simp only [hbytes, hstart, hlast]
    rw [if_neg (by omega), if_neg (fun hne => hne rfl)]
  · rw [← bits_take]
    apply puts_pasteBytes
    rw [List.length_take]
    omega

/-! ## Shifted bytes -/

theorem readPtr_of_lt {i : Nat} (hi : i < src.length) : readPtr src i = .ok src[i] := by
  rw [readPtr, List.getElem?_eq_getElem hi, Option.elim_some]

theorem writePtr_of_lt {i : Nat} (hi : i < dst.length) (b : UInt8) :
    writePtr dst i b = .ok (dst.set i b) :=
  if_pos hi

/-- A byte of the source that lies across two, as it is read with one of them at hand. -/
theorem getElem?_drop_bits {o k : Nat} {prev next : UInt8} (hpos : 0 < o) (ho : o < 8)
    (hprev : src[k]? = some prev) (hnext : src[k + 1]? = some next) {i : Nat} (hi : i < 8) :
    ((bits src).drop (8 * k + (8 - o)))[i]? =
      some (byteBit ((prev <<< (8 - o).toUInt8) ||| (next >>> o.toUInt8)) i) := by
  have hacross := @byteBit_across prev next (8 - o) i (by omega) (by omega) hi
  rw [show 8 - (8 - o) = o by omega] at hacross
  rw [List.getElem?_drop, getElem?_bits, hacross]
  split
  next hlow =>
    rw [show (8 * k + (8 - o) + i) / 8 = k by omega,
      show (8 * k + (8 - o) + i) % 8 = 8 - o + i by omega, hprev, Option.map_some]
  next hhigh =>
    rw [show (8 * k + (8 - o) + i) / 8 = k + 1 by omega,
      show (8 * k + (8 - o) + i) % 8 = 8 - o + i - 8 by omega, hnext, Option.map_some]

theorem length_slice {p n : Nat} (h : p + n ≤ 8 * src.length) :
    (((bits src).drop p).take n).length = n := by
  rw [List.length_take, List.length_drop, length_bits]
  omega

theorem copyShifted_of_fit {o k i count : Nat} {prev : UInt8} (hpos : 0 < o) (ho : o < 8)
    (hprev : src[k]? = some prev) (hsrc : k + count < src.length)
    (hdst : i + count ≤ dst.length) :
    ∃ dst' last, copyShifted (8 - o) o src dst (k + 1) i prev count = .ok (dst', last) ∧
      src[k + count]? = some last ∧
      Puts dst dst' (8 * i) (((bits src).drop (8 * k + (8 - o))).take (8 * count)) := by
  induction count generalizing dst k i prev with
  | zero => exact ⟨dst, prev, rfl, hprev, by rw [Nat.mul_zero, List.take_zero]; exact Puts.nil _ _⟩
  | succ count ih =>
      have hnext : src[k + 1]? = some src[k + 1] := List.getElem?_eq_getElem (by omega)
      obtain ⟨b, hb⟩ : ∃ b, b = (prev <<< (8 - o).toUInt8) ||| (src[k + 1] >>> o.toUInt8) :=
        ⟨_, rfl⟩
      have hbyte : ∀ j < 8, ((bits src).drop (8 * k + (8 - o)))[j]? = some (byteBit b j) := by
        intro j hj
        rw [hb]
        exact getElem?_drop_bits hpos ho hprev hnext hj
      obtain ⟨dst', last, hrun, hlast, hputs⟩ := @ih (dst.set i b) (k + 1) (i + 1) _
        hnext (by omega) (by rw [List.length_set]; omega)
      refine ⟨dst', last, ?_, by rw [← hlast]; congr 1; omega, ?_⟩
      · rw [copyShifted, readPtr_of_lt (by omega)]
        simp only [bind, Except.bind]
        rw [← hb, writePtr_of_lt (by omega)]
        exact hrun
      · have hlength : (((bits src).drop (8 * k + (8 - o))).take 8).length = 8 :=
          length_slice (by omega)
        have hfirst : Puts dst (dst.set i b) (8 * i)
            (((bits src).drop (8 * k + (8 - o))).take 8) := by
          have hputs := @puts_set dst (8 * i) (((bits src).drop (8 * k + (8 - o))).take 8) b dst[i]
            (by
              rw [Nat.mul_div_cancel_left i (by decide)]
              exact List.getElem?_eq_getElem (by omega))
            (List.ne_nil_of_length_pos (by omega)) (by omega)
            (fun j hj => by omega)
            (fun j hj => by
              rw [List.getElem?_take, if_pos (by omega), hbyte j (by omega)]
              congr 2
              omega)
          rwa [Nat.mul_div_cancel_left i (by decide)] at hputs
        rw [show 8 * (count + 1) = 8 + 8 * count by omega, List.take_add]
        apply hfirst.trans
        rw [hlength, List.drop_drop, show 8 * i + 8 = 8 * (i + 1) by omega,
          show 8 * k + (8 - o) + 8 = 8 * (k + 1) + (8 - o) by omega]
        exact hputs

theorem byteBit_maskBits (s d m : UInt8) {i : Nat} (hi : i < 8) :
    byteBit (maskBits s d m) i = if byteBit m i then byteBit s i else byteBit d i := by
  rw [maskBits, byteBit_or, byteBit_and, byteBit_and, byteBit_not m hi]
  cases byteBit m i <;> simp

theorem byteBit_rmask : ∀ e < 8, ∀ i < 8,
    byteBit (makeMask e <<< (8 - e)).toUInt8 i = decide (i < e) := by
  decide +kernel

theorem byteBit_lmask : ∀ o < 8, ∀ i < 8,
    byteBit (makeMask (8 - o)).toUInt8 i = decide (o ≤ i) := by
  decide +kernel

/-- Of a byte, the bits in the mask are written. -/
theorem putsOnly_maskBits {b old mask : UInt8} {k o : Nat} {bs : List Bool}
    (hold : dst[k]? = some old) (hfit : o + bs.length ≤ 8)
    (hmask : ∀ i < 8, byteBit mask i = decide (o ≤ i ∧ i < o + bs.length))
    (hhere : ∀ i < bs.length, bs[i]? = some (byteBit b (o + i))) :
    PutsOnly dst (dst.set k (maskBits b old mask)) (8 * k + o) bs := by
  refine putsOnly_set hold hfit (fun i hi => ?_) fun i hi hout => ?_
  · have hin : decide (o ≤ o + i ∧ o + i < o + bs.length) = true := decide_eq_true (by omega)
    rw [byteBit_maskBits _ _ _ (by omega), hmask _ (by omega), hin, if_pos rfl, hhere i hi]
  · have hnot : decide (o ≤ i ∧ i < o + bs.length) = false := decide_eq_false (by omega)
    rw [byteBit_maskBits _ _ _ hi, hmask i hi, hnot, if_neg Bool.false_ne_true]

/-- One more byte of the source is read for the last bits when they reach into it. -/
theorem rmask_reaches : ∀ e < 8, ∀ o < 8, 0 < o →
    ((makeMask e <<< (8 - e)) <<< o % 256 ≠ 0 ↔ o < e) := by
  decide +kernel

theorem rmask_ne_zero {e : Nat} (hpos : e ≠ 0) (he : e < 8) : makeMask e <<< (8 - e) ≠ 0 := by
  intro hnone
  have hbit := byteBit_rmask e he 0 (by decide)
  rw [hnone] at hbit
  simp [byteBit, Nat.pos_of_ne_zero hpos] at hbit

/-- The bits of the last byte; whatever lies behind them, those in front of the mask's end are of
the source. -/
theorem putsOnly_rmask {b : UInt8} {e p i : Nat} (hi : i < dst.length) (he : e < 8)
    (hsrc : p + e ≤ 8 * src.length) (hbits : ∀ j < e, (bits src)[p + j]? = some (byteBit b j)) :
    PutsOnly dst (dst.set i (maskBits b dst[i] (makeMask e <<< (8 - e)).toUInt8)) (8 * i)
      (((bits src).drop p).take e) := by
  have hlength := length_slice hsrc
  refine putsOnly_maskBits (o := 0) (List.getElem?_eq_getElem hi) (by omega)
    (fun j hj => ?_) fun j hj => ?_
  · rw [byteBit_rmask e he j hj, hlength]
    simp
  · rw [List.getElem?_take, if_pos (by omega), List.getElem?_drop, hbits j (by omega),
      Nat.zero_add]

theorem copyTail_of_fit {o e k i : Nat} {prev : UInt8} (hpos : 0 < o) (ho : o < 8) (he : e < 8)
    (hprev : src[k]? = some prev) (hsrc : 8 * k + (8 - o) + e ≤ 8 * src.length)
    (hdst : 8 * i + e ≤ 8 * dst.length) :
    ∃ dst', copyTricky.copyTail src dst (8 - o) o (k + 1) i prev
        (if e ≠ 0 then makeMask e <<< (8 - e) else 0) = .ok dst' ∧
      PutsOnly dst dst' (8 * i) (((bits src).drop (8 * k + (8 - o))).take e) := by
  by_cases hzero : e = 0
  · subst hzero
    refine ⟨dst, rfl, ?_⟩
    rw [List.take_zero]
    exact PutsOnly.nil dst _
  · have hin : i < dst.length := by omega
    have hmask := rmask_ne_zero hzero he
    rw [if_pos hzero, copyTricky.copyTail, if_neg hmask]
    by_cases hreach : o < e
    · have hnext : src[k + 1]? = some src[k + 1] := List.getElem?_eq_getElem (by omega)
      refine ⟨_, ?_, putsOnly_rmask (b := (prev <<< (8 - o).toUInt8) ||| (src[k + 1] >>> o.toUInt8))
        hin he hsrc fun j hj => ?_⟩
      rotate_left
      · rw [← List.getElem?_drop]
        exact getElem?_drop_bits hpos ho hprev hnext (by omega)
      rw [if_pos ((rmask_reaches e he o ho hpos).mpr hreach), readPtr_of_lt (by omega)]
      simp only [bind, Except.bind, readPtr_of_lt hin, writePtr_of_lt hin]
    · refine ⟨_, ?_, putsOnly_rmask (b := prev <<< (8 - o).toUInt8) hin he hsrc fun j hj => ?_⟩
      · rw [if_neg (fun hmore => hreach ((rmask_reaches e he o ho hpos).mp hmore))]
        simp only [bind, Except.bind, readPtr_of_lt hin, writePtr_of_lt hin]
      · rw [byteBit_shiftLeft prev (by omega), getElem?_bits,
          show (8 * k + (8 - o) + j) / 8 = k by omega,
          show (8 * k + (8 - o) + j) % 8 = 8 - o + j by omega, hprev, Option.map_some]

/-- The bytes behind the first one, and the bits of the last one. -/
theorem copyRest_of_fit {o e k i count : Nat} {prev : UInt8} (hpos : 0 < o) (ho : o < 8)
    (he : e < 8) (hprev : src[k]? = some prev)
    (hsrc : 8 * k + (8 - o) + (8 * count + e) ≤ 8 * src.length)
    (hdst : 8 * i + (8 * count + e) ≤ 8 * dst.length) :
    ∃ dst', (do
        let (dst, bits) ← copyShifted (8 - o) o src dst (k + 1) i prev count
        copyTricky.copyTail src dst (8 - o) o (k + 1 + count) (i + count) bits
          (if e ≠ 0 then makeMask e <<< (8 - e) else 0)) = .ok dst' ∧
      PutsOnly dst dst' (8 * i) (((bits src).drop (8 * k + (8 - o))).take (8 * count + e)) := by
  obtain ⟨middle, last, hmiddle, hlast, hputs⟩ := @copyShifted_of_fit dst src o k i count prev hpos
    ho hprev (by omega) (by omega)
  obtain ⟨dst', htail, hputs'⟩ := @copyTail_of_fit middle src o e (k + count) (i + count) last hpos
    ho he hlast (by omega) (by rw [hputs.length]; omega)
  have hlength : (((bits src).drop (8 * k + (8 - o))).take (8 * count)).length = 8 * count :=
    length_slice (by omega)
  refine ⟨dst', ?_, ?_⟩
  · rw [hmiddle, show k + 1 + count = k + count + 1 by omega]
    exact htail
  · rw [List.take_add]
    refine (hputs.only (by omega)).trans ?_
    rw [hlength, List.drop_drop, show 8 * i + 8 * count = 8 * (i + count) by omega,
      show 8 * k + (8 - o) + 8 * count = 8 * (k + count) + (8 - o) by omega]
    exact hputs'

theorem lmask_ne_zero {d : Nat} (hd : d < 8) : makeMask (8 - d) ≠ 0 := by
  have hlow : 2 ^ 1 ≤ 2 ^ (8 - d) := Nat.pow_le_pow_right (by decide) (by omega)
  unfold makeMask
  omega

/-- The bits of the first byte, from the offset on. -/
theorem putsOnly_lmask {b old : UInt8} {d base p : Nat} (hd : d < 8)
    (hold : dst[base]? = some old) (hsrc : p + (8 - d) ≤ 8 * src.length)
    (hbits : ∀ j, d ≤ j → j < 8 → (bits src)[p + (j - d)]? = some (byteBit b j)) :
    PutsOnly dst (dst.set base (maskBits b old (makeMask (8 - d)).toUInt8)) (8 * base + d)
      (((bits src).drop p).take (8 - d)) := by
  have hlength := length_slice hsrc
  refine putsOnly_maskBits hold (by omega) (fun i hi => ?_) fun i hi => ?_
  · rw [byteBit_lmask d hd i hi, hlength]
    congr 1
    apply propext
    omega
  · rw [hlength] at hi
    rw [List.getElem?_take, if_pos hi, List.getElem?_drop, ← hbits (d + i) (by omega) (by omega)]
    congr 2
    omega

/-- A first byte, and the others behind it. -/
theorem putsOnly_append_slice {dst' dst'' : List UInt8} {p q m n : Nat}
    (hfirst : PutsOnly dst dst' q (((bits src).drop p).take m))
    (hrest : PutsOnly dst' dst'' (q + m) (((bits src).drop (p + m)).take n))
    (hsrc : p + m ≤ 8 * src.length) :
    PutsOnly dst dst'' q (((bits src).drop p).take (m + n)) := by
  rw [List.take_add]
  refine hfirst.trans ?_
  rw [length_slice hsrc, List.drop_drop]
  exact hrest

section Tricky

variable {base s d n count e : Nat} (hd : d < 8) (he : e < 8) (hn : 8 ≤ d + n)
  (hsize : n = (if d ≠ 0 then 8 - d else 0) + (8 * count + e))
  (hsrc : 8 * base + s + n ≤ 8 * src.length) (hdst : 8 * base + d + n ≤ 8 * dst.length)

/-- The bits are copied, shifted, with a mask for the first byte and one for the last. -/
def TrickyCopied (dst src : List UInt8) (base s d n count e : Nat) : Prop :=
  ∃ dst', copyTricky src dst base s d n count (if d ≠ 0 then makeMask (8 - d) else 0)
      (if e ≠ 0 then makeMask e <<< (8 - e) else 0) = .ok dst' ∧
    PutsOnly dst dst' (8 * base + d) (((bits src).drop (8 * base + s)).take n)

include hd he hn hsize hsrc hdst

theorem copyTricky_right (hless : s < d) : TrickyCopied dst src base s d n count e := by
  have hbase : base < dst.length := by omega
  have hbase' : base < src.length := by omega
  have hmask := lmask_ne_zero hd
  have hold : dst[base]? = some dst[base] := List.getElem?_eq_getElem hbase
  obtain ⟨o, ho, hod⟩ : ∃ o, 0 < o ∧ o = d - s := ⟨d - s, by omega, rfl⟩
  have hd0 : d ≠ 0 := by omega
  rw [if_pos hd0] at hsize
  obtain ⟨b, hb⟩ : ∃ b, b = ((0 : UInt8) <<< (8 - o).toUInt8) ||| (src[base] >>> o.toUInt8) :=
    ⟨_, rfl⟩
  have hfirst := @putsOnly_lmask dst src b dst[base] d base (8 * base + s) hd hold (by omega)
    fun j hdj hj => by
      rw [hb, byteBit_or, byteBit_shiftRight _ (by omega) hj, getElem?_bits,
        show (8 * base + s + (j - d)) / 8 = base by omega,
        show (8 * base + s + (j - d)) % 8 = j - o by omega,
        List.getElem?_eq_getElem hbase', Option.map_some]
      simp [byteBit, show o ≤ j by omega]
  obtain ⟨dst', hrest, hputs⟩ := @copyRest_of_fit
    (dst.set base (maskBits b dst[base] (makeMask (8 - d)).toUInt8)) src o e base (base + 1) count
    src[base] ho (by omega) he (List.getElem?_eq_getElem hbase') (by omega)
    (by rw [List.length_set]; omega)
  have hrshift : byteShift (d - s) = o := by
    unfold byteShift
    omega
  have hlshift : byteShift (8 - o) = 8 - o := Nat.mod_eq_of_lt (by omega)
  have hnot : ¬ s > d := by omega
  refine ⟨dst', ?_, ?_⟩
  · rw [← hrest, hb, copyTricky]
    simp only [bind, Except.bind, hnot, hrshift, hlshift, hd0, hmask, if_true, if_false,
      false_and, ne_eq, not_false_eq_true, readPtr_of_lt hbase', readPtr_of_lt hbase,
      writePtr_of_lt hbase]
  · rw [hsize]
    refine putsOnly_append_slice hfirst ?_ (by omega)
    rw [show 8 * base + d + (8 - d) = 8 * (base + 1) by omega,
      show 8 * base + s + (8 - d) = 8 * base + (8 - o) by omega]
    exact hputs

theorem copyTricky_left (hs : s < 8) (hmore : d < s) :
    TrickyCopied dst src base s d n count e := by
  have hbase : base < dst.length := by omega
  have hbase' : base < src.length := by omega
  have hmask := lmask_ne_zero hd
  have hold : dst[base]? = some dst[base] := List.getElem?_eq_getElem hbase
  obtain ⟨o, ho, hod⟩ : ∃ o, o < 8 ∧ s - d = 8 - o := ⟨8 - (s - d), by omega, by omega⟩
  have hlshift : byteShift (8 - o) = 8 - o := Nat.mod_eq_of_lt (by omega)
  have hrshift : byteShift (8 - (8 - o)) = o := by
    unfold byteShift
    omega
  have hreach : s + n > 8 := by omega
  have hprev : src[base]? = some src[base] := List.getElem?_eq_getElem hbase'
  by_cases hd0 : d = 0
  · subst hd0
    rw [if_neg (by simp)] at hsize
    obtain ⟨dst', hrest, hputs⟩ := @copyRest_of_fit dst src o e base base count src[base]
      (by omega) ho he hprev (by omega) (by omega)
    refine ⟨dst', ?_, ?_⟩
    · rw [← hrest, copyTricky]
      simp only [bind, Except.bind, hmore, hod, hrshift, hreach, if_true, and_self, ne_eq,
        not_true_eq_false, if_false, readPtr_of_lt hbase']
    · rw [hsize, show 8 * base + s = 8 * base + (8 - o) by omega]
      rw [Nat.zero_add, Nat.add_zero]
      exact hputs
  · rw [if_pos hd0] at hsize
    have hnextIn : base + 1 < src.length := by omega
    have hnext : src[base + 1]? = some src[base + 1] := List.getElem?_eq_getElem hnextIn
    obtain ⟨b, hb⟩ : ∃ b,
        b = (src[base] <<< (8 - o).toUInt8) ||| (src[base + 1] >>> o.toUInt8) := ⟨_, rfl⟩
    have hfirst := @putsOnly_lmask dst src b dst[base] d base (8 * base + s) hd hold (by omega)
      fun j hdj hj => by
        have hbit := getElem?_drop_bits (by omega) ho hprev hnext hj
        rw [List.getElem?_drop] at hbit
        rw [hb, ← hbit]
        congr 1
        omega
    obtain ⟨dst', hrest, hputs⟩ := @copyRest_of_fit
      (dst.set base (maskBits b dst[base] (makeMask (8 - d)).toUInt8)) src o e (base + 1)
      (base + 1) count src[base + 1] (by omega) ho he hnext (by omega)
      (by rw [List.length_set]; omega)
    refine ⟨dst', ?_, ?_⟩
    · rw [← hrest, hb, copyTricky]
      simp only [bind, Except.bind, hmore, hod, hrshift, hreach, hd0, hmask, if_true, and_self,
        ne_eq, not_false_eq_true, readPtr_of_lt hbase', readPtr_of_lt hnextIn,
        readPtr_of_lt hbase, writePtr_of_lt hbase]
    · rw [hsize]
      refine putsOnly_append_slice hfirst ?_ (by omega)
      rw [show 8 * base + d + (8 - d) = 8 * (base + 1) by omega,
        show 8 * base + s + (8 - d) = 8 * (base + 1) + (8 - o) by omega]
      exact hputs

theorem copyTricky_of_fit (hs : s < 8) (hne : s ≠ d) :
    TrickyCopied dst src base s d n count e := by
  rcases Nat.lt_or_gt_of_ne hne with hless | hmore
  · exact copyTricky_right hd he hn hsize hsrc hdst hless
  · exact copyTricky_left hd he hn hsize hsrc hdst hs hmore

end Tricky

/-! ## Bytes that lie alike -/

theorem copyWhole_of_fit {k i count : Nat} (hsrc : k + count ≤ src.length)
    (hdst : i + count ≤ dst.length) :
    ∃ dst', copyWhole src dst k i count = .ok dst' ∧
      PutsOnly dst dst' (8 * i) (((bits src).drop (8 * k)).take (8 * count)) := by
  induction count generalizing dst k i with
  | zero =>
      refine ⟨dst, rfl, ?_⟩
      rw [Nat.mul_zero, List.take_zero]
      exact PutsOnly.nil dst _
  | succ count ih =>
      have hk : k < src.length := by omega
      have hi : i < dst.length := by omega
      have hlength : (((bits src).drop (8 * k)).take 8).length = 8 := length_slice (by omega)
      have hfirst : PutsOnly dst (dst.set i src[k]) (8 * i) (((bits src).drop (8 * k)).take 8) := by
        refine putsOnly_set (o := 0) (List.getElem?_eq_getElem hi) (by omega)
          (fun j hj => ?_) fun j hj hout => by omega
        rw [hlength] at hj
        rw [List.getElem?_take, if_pos hj, List.getElem?_drop, getElem?_bits,
          show (8 * k + j) / 8 = k by omega, show (8 * k + j) % 8 = j by omega,
          List.getElem?_eq_getElem hk, Option.map_some, Nat.zero_add]
      obtain ⟨dst', hrun, hputs⟩ := @ih (dst.set i src[k]) (k + 1) (i + 1) (by omega)
        (by rw [List.length_set]; omega)
      refine ⟨dst', ?_, ?_⟩
      · rw [copyWhole, readPtr_of_lt hk]
        simp only [bind, Except.bind, writePtr_of_lt hi]
        exact hrun
      · rw [show 8 * (count + 1) = 8 + 8 * count by omega]
        exact putsOnly_append_slice hfirst hputs (by omega)

theorem getElem?_bits_of_byte {p k i : Nat} (hi : p % 8 + i < 8) (hk : p / 8 = k)
    (hlt : k < src.length) : (bits src)[p + i]? = some (byteBit src[k] (p % 8 + i)) := by
  rw [getElem?_bits, show (p + i) / 8 = k by omega, show (p + i) % 8 = p % 8 + i by omega,
    List.getElem?_eq_getElem hlt, Option.map_some]

theorem copyEnd_of_fit {k e : Nat} (he : e < 8) (hsrc : 8 * k + e ≤ 8 * src.length)
    (hdst : 8 * k + e ≤ 8 * dst.length) :
    ∃ dst', copyBits.copyEnd src dst k (if e ≠ 0 then makeMask e <<< (8 - e) else 0) = .ok dst' ∧
      PutsOnly dst dst' (8 * k) (((bits src).drop (8 * k)).take e) := by
  by_cases hzero : e = 0
  · subst hzero
    refine ⟨dst, rfl, ?_⟩
    rw [List.take_zero]
    exact PutsOnly.nil dst _
  · have hk : k < src.length := by omega
    have hk' : k < dst.length := by omega
    refine ⟨_, ?_, putsOnly_rmask (b := src[k]) hk' he hsrc fun j hj => ?_⟩
    · rw [if_pos hzero, copyBits.copyEnd, if_neg (rmask_ne_zero hzero he)]
      simp only [bind, Except.bind, readPtr_of_lt hk, readPtr_of_lt hk', writePtr_of_lt hk']
    · rw [getElem?_bits_of_byte (by omega) (by omega : 8 * k / 8 = k) hk, Nat.mul_mod_right,
        Nat.zero_add]

theorem copyAligned_of_fit {base d n count e : Nat} (hd : d < 8) (he : e < 8)
    (hsize : n = (if d ≠ 0 then 8 - d else 0) + (8 * count + e)) (hpos : 0 < n)
    (hsrc : 8 * base + d + n ≤ 8 * src.length) (hdst : 8 * base + d + n ≤ 8 * dst.length) :
    ∃ dst', (if (if d ≠ 0 then makeMask (8 - d) else 0) ≠ 0 then do
          let dst ← writePtr dst base (maskBits (← readPtr src base) (← readPtr dst base)
            (if d ≠ 0 then makeMask (8 - d) else 0).toUInt8)
          copyBits.copyEnd src (← copyWhole src dst (base + 1) (base + 1) count)
            (base + 1 + count) (if e ≠ 0 then makeMask e <<< (8 - e) else 0)
        else do
          copyBits.copyEnd src (← copyWhole src dst base base count) (base + count)
            (if e ≠ 0 then makeMask e <<< (8 - e) else 0)) = .ok dst' ∧
      PutsOnly dst dst' (8 * base + d) (((bits src).drop (8 * base + d)).take n) := by
  have hbase : base < src.length := by omega
  have hbase' : base < dst.length := by omega
  -- the whole bytes and the last one, from byte `k` on
  have hrest (dst : List UInt8) (k : Nat) (hsrc : 8 * k + (8 * count + e) ≤ 8 * src.length)
      (hdst : 8 * k + (8 * count + e) ≤ 8 * dst.length) :
      ∃ dst', (do
          let middle ← copyWhole src dst k k count
          copyBits.copyEnd src middle (k + count)
            (if e ≠ 0 then makeMask e <<< (8 - e) else 0)) = .ok dst' ∧
        PutsOnly dst dst' (8 * k) (((bits src).drop (8 * k)).take (8 * count + e)) := by
    obtain ⟨middle, hmiddle, hputs⟩ := @copyWhole_of_fit dst src k k count (by omega) (by omega)
    obtain ⟨dst', hend, hputs'⟩ := @copyEnd_of_fit middle src (k + count) e he (by omega)
      (by rw [hputs.length]; omega)
    refine ⟨dst', ?_, ?_⟩
    · rw [hmiddle]
      exact hend
    · rw [Nat.mul_add] at hputs'
      exact putsOnly_append_slice hputs hputs' (by omega)
  by_cases hd0 : d = 0
  · subst hd0
    rw [if_neg (by simp)] at hsize
    obtain ⟨dst', hrun, hputs⟩ := hrest dst base (by omega) (by omega)
    refine ⟨dst', ?_, ?_⟩
    · simp only [ne_eq, not_true_eq_false, if_false]
      exact hrun
    · rw [hsize, Nat.zero_add]
      exact hputs
  · rw [if_pos hd0] at hsize
    have hmask := lmask_ne_zero hd
    have hfirst := @putsOnly_lmask dst src src[base] dst[base] d base (8 * base + d) hd
      (List.getElem?_eq_getElem hbase') (by omega) fun j hdj hj => by
        rw [getElem?_bits_of_byte (by omega) (by omega : (8 * base + d) / 8 = base) hbase]
        congr 2
        omega
    obtain ⟨dst', hrun, hputs⟩ := hrest
      (dst.set base (maskBits src[base] dst[base] (makeMask (8 - d)).toUInt8)) (base + 1)
      (by omega) (by rw [List.length_set]; omega)
    refine ⟨dst', ?_, ?_⟩
    · rw [if_pos hd0, if_pos hmask, readPtr_of_lt hbase, readPtr_of_lt hbase']
      simp only [bind, Except.bind, writePtr_of_lt hbase']
      exact hrun
    · rw [hsize]
      refine putsOnly_append_slice hfirst ?_ (by omega)
      rw [show 8 * base + d + (8 - d) = 8 * (base + 1) by omega]
      exact hputs

/-! ## Inside of one byte -/

theorem byteBit_inByteMask : ∀ d < 8, ∀ n < 8, 0 < n → d + n < 8 → ∀ i < 8,
    let lmask := if d ≠ 0 then makeMask (8 - d) else 0
    let rmask := if d + n ≠ 0 then makeMask (d + n) <<< (8 - (d + n)) else 0
    byteBit (if lmask &&& rmask ≠ 0 then lmask &&& rmask else lmask ||| rmask).toUInt8 i =
      decide (d ≤ i ∧ i < d + n) := by
  decide +kernel

/-- The bits that a shift to the right by `shift` puts at the place `d` of a byte. -/
def shiftedRight (src : List UInt8) (base shift d n : Nat) : List Bool :=
  (List.range n).map fun j =>
    if shift ≤ d + j then ((bits src)[8 * base + (d + j - shift)]?).getD false else false

theorem copyInByte_of_fit {base s d n : Nat} {mask : UInt8} (hs : s < 8) (hpos : 0 < n)
    (hin : d + n < 8) (hmask : ∀ i < 8, byteBit mask i = decide (d ≤ i ∧ i < d + n))
    (hsrc : 8 * base + s + n ≤ 8 * src.length) (hdst : base < dst.length)
    (hdebug : s < d → debug = false) :
    ∃ dst', copyInByte debug src dst base s d n mask = .ok dst' ∧
      PutsOnly dst dst' (8 * base + d)
        (if s < d then shiftedRight src base (8 - (d - s)) d n
          else ((bits src).drop (8 * base + s)).take n) := by
  have hbase : base < src.length := by omega
  have hold : dst[base]? = some dst[base] := List.getElem?_eq_getElem hdst
  have hlength := length_slice hsrc
  -- what is written, when its bits at their places are those of the source
  have hwrite (b : UInt8)
      (hbits : ∀ j < n, (bits src)[8 * base + s + j]? = some (byteBit b (d + j))) :
      PutsOnly dst (dst.set base (maskBits b dst[base] mask)) (8 * base + d)
        (((bits src).drop (8 * base + s)).take n) := by
    refine putsOnly_maskBits hold (by omega) (by rwa [hlength]) fun j hj => ?_
    rw [List.getElem?_take, if_pos (by omega), List.getElem?_drop, hbits j (by omega)]
  rw [copyInByte]
  rcases Nat.lt_trichotomy s d with hless | heq | hmore
  · -- the difference of the offsets wraps
    have hwrap : lastByteBits (2 ^ 64 + s - d) = 8 - (d - s) := by
      unfold lastByteBits
      omega
    rw [if_neg (Nat.ne_of_lt hless), if_neg (by omega), hdebug hless, if_pos hless]
    have hshifted : (shiftedRight src base (8 - (d - s)) d n).length = n := by
      simp [shiftedRight]
    refine ⟨_, ?_, @putsOnly_maskBits dst (src[base] >>> (8 - (d - s)).toUInt8) dst[base] mask
      base d _ hold (by omega) (by rwa [hshifted]) fun j hj => ?_⟩
    · simp only [Bool.false_eq_true, if_false, bind, Except.bind, hwrap, readPtr_of_lt hbase,
        readPtr_of_lt hdst, writePtr_of_lt hdst]
    · rw [hshifted] at hj
      rw [shiftedRight, List.getElem?_map, List.getElem?_range hj, Option.map_some,
        byteBit_shiftRight _ (by omega) (by omega)]
      by_cases hle : 8 - (d - s) ≤ d + j
      · rw [if_pos hle, getElem?_bits_of_byte (by omega) (by omega : 8 * base / 8 = base) hbase,
          Nat.mul_mod_right, Nat.zero_add]
        simp [hle]
      · simp [hle]
  · subst heq
    rw [if_pos rfl, if_neg (Nat.lt_irrefl s)]
    refine ⟨_, ?_, hwrite src[base] fun j hj => ?_⟩
    · simp only [bind, Except.bind, readPtr_of_lt hbase, readPtr_of_lt hdst, writePtr_of_lt hdst]
    · rw [getElem?_bits_of_byte (by omega) (by omega : (8 * base + s) / 8 = base) hbase]
      congr 2
      omega
  · have hdiff : lastByteBits (s - d) = s - d := Nat.mod_eq_of_lt (by omega)
    rw [if_neg (by omega), if_pos hmore, if_neg (by omega)]
    by_cases hover : s + n > 8
    · have hnextIn : base + 1 < src.length := by omega
      refine ⟨_, ?_, hwrite ((src[base] <<< (s - d).toUInt8) |||
        (src[base + 1] >>> (8 - (s - d)).toUInt8)) fun j hj => ?_⟩
      · simp only [bind, Except.bind, hdiff, if_pos hover, readPtr_of_lt hbase,
          readPtr_of_lt hnextIn, readPtr_of_lt hdst, writePtr_of_lt hdst]
      · have hbit := @getElem?_drop_bits src (8 - (s - d)) base src[base] src[base + 1] (by omega)
          (by omega) (List.getElem?_eq_getElem hbase) (List.getElem?_eq_getElem hnextIn) (d + j)
          (by omega)
        rw [List.getElem?_drop, show 8 - (8 - (s - d)) = s - d by omega] at hbit
        rw [← hbit]
        congr 1
        omega
    · refine ⟨_, ?_, hwrite (src[base] <<< (s - d).toUInt8) fun j hj => ?_⟩
      · simp only [bind, Except.bind, hdiff, if_neg hover, readPtr_of_lt hbase,
          readPtr_of_lt hdst, writePtr_of_lt hdst]
      · rw [byteBit_shiftLeft _ (by omega),
          getElem?_bits_of_byte (by omega) (by omega : (8 * base + s) / 8 = base) hbase]
        congr 2
        omega

/-! ## The copy -/

/-- Where the bits go: the pointer is moved by the whole bytes of the other offset. -/
def writtenAt (srcOffset dstOffset : Nat) : Nat :=
  8 * (srcOffset / 8) + dstOffset % 8

/-- The bits stay in one byte, and move to the right there. -/
def MovesRight (srcOffset dstOffset size : Nat) : Prop :=
  dstOffset % 8 + size < 8 ∧ srcOffset % 8 < dstOffset % 8

instance (srcOffset dstOffset size : Nat) : Decidable (MovesRight srcOffset dstOffset size) :=
  inferInstanceAs (Decidable (_ ∧ _))

/-- The bits of a range. -/
def slice (src : List UInt8) (offset size : Nat) : List Bool :=
  ((bits src).drop offset).take size

/-- Which bits are written: inside of one byte those that move to the right move too far or not
far enough, unless it is by four places. -/
def writtenBits (src : List UInt8) (srcOffset dstOffset size : Nat) : List Bool :=
  if MovesRight srcOffset dstOffset size then
    shiftedRight src (srcOffset / 8) (8 - (dstOffset % 8 - srcOffset % 8)) (dstOffset % 8) size
  else slice src srcOffset size

theorem copyBits_writes {srcOffset dstOffset size : Nat} (hpos : 0 < size)
    (hword : dstOffset + size < 2 ^ 64) (hsrc : srcOffset + size ≤ 8 * src.length)
    (hdst : writtenAt srcOffset dstOffset + size ≤ 8 * dst.length)
    (hdebug : MovesRight srcOffset dstOffset size → debug = false) :
    ∃ dst', copyBits debug src srcOffset dst dstOffset size = .ok dst' ∧
      PutsOnly dst dst' (writtenAt srcOffset dstOffset)
        (writtenBits src srcOffset dstOffset size) := by
  obtain ⟨base, hbase⟩ : ∃ base, srcOffset / 8 = base := ⟨_, rfl⟩
  obtain ⟨s, hs⟩ : ∃ s, srcOffset % 8 = s := ⟨_, rfl⟩
  obtain ⟨d, hd⟩ : ∃ d, dstOffset % 8 = d := ⟨_, rfl⟩
  have hs8 : s < 8 := by omega
  have hd8 : d < 8 := by omega
  have hoffset : srcOffset = 8 * base + s := by omega
  unfold writtenAt at hdst
  have hsum : addWords debug d size = .ok (d + size) := addWords_of_lt (by omega)
  rw [writtenAt, writtenBits, slice]
  simp only [MovesRight, hbase, hs, hd] at hdst hdebug ⊢
  rw [copyBits, if_neg (Nat.ne_of_gt hpos)]
  simp only [byteSizeRoundedDown, lastByteBits, hbase, hs, hd, hsum, bind, Except.bind]
  by_cases hbyte : d + size < 8
  · have hend : (d + size) % 8 = d + size := Nat.mod_eq_of_lt hbyte
    simp only [hend, true_and, hbyte] at hdebug ⊢
    rw [hoffset] at hsrc ⊢
    exact copyInByte_of_fit hs8 hpos hbyte
      (byteBit_inByteMask d hd8 size (by omega) hpos hbyte) hsrc (by omega) hdebug
  · have hmask := lmask_ne_zero hd8
    obtain ⟨count, hcount, hsize⟩ : ∃ count,
        (if (if d ≠ 0 then makeMask (8 - d) else 0) ≠ 0 then (size - (8 - d)) / 8
          else size / 8) = count ∧
        size = (if d ≠ 0 then 8 - d else 0) + (8 * count + (d + size) % 8) := by
      refine ⟨_, rfl, ?_⟩
      by_cases hd0 : d = 0
      · simp only [hd0, ne_eq, not_true_eq_false, if_false]
        omega
      · simp only [hd0, hmask, ne_eq, not_false_eq_true, if_true]
        omega
    have he : (d + size) % 8 < 8 := Nat.mod_lt _ (by decide)
    simp only [hbyte, false_and, if_false, hcount]
    rw [hoffset] at hsrc ⊢
    by_cases heq : s = d
    · subst heq
      simp only [if_true]
      exact copyAligned_of_fit hs8 he hsize hpos hsrc hdst
    · simp only [heq, if_false]
      exact copyTricky_of_fit hd8 he (Nat.not_lt.mp hbyte) hsize hsrc hdst hs8 heq

/-! ## Copies that stay inside of the destination -/

section Inside

variable {dst' : List UInt8}

theorem writePtr_eq_ok_iff {i : Nat} {b : UInt8} :
    writePtr dst i b = .ok dst' ↔ i < dst.length ∧ dst' = dst.set i b := by
  unfold writePtr
  split
  next hi => simp [hi, eq_comm]
  next hi => simp [hi, panic]

theorem length_of_writePtr {i : Nat} {b : UInt8} (h : writePtr dst i b = .ok dst') :
    i < dst.length ∧ dst'.length = dst.length := by
  obtain ⟨hi, rfl⟩ := writePtr_eq_ok_iff.mp h
  exact ⟨hi, List.length_set⟩

theorem length_of_copyWhole {k i count : Nat} (h : copyWhole src dst k i count = .ok dst') :
    dst'.length = dst.length ∧ (count ≠ 0 → i + count ≤ dst.length) := by
  induction count generalizing dst k i with
  | zero =>
      cases h
      exact ⟨rfl, fun hne => absurd rfl hne⟩
  | succ count ih =>
      rw [copyWhole] at h
      obtain ⟨b, -, h⟩ := except_bind_eq_ok_iff.mp h
      obtain ⟨middle, hwrite, h⟩ := except_bind_eq_ok_iff.mp h
      obtain ⟨hi, hmiddle⟩ := length_of_writePtr hwrite
      obtain ⟨hlength, hcount⟩ := ih h
      refine ⟨hlength.trans hmiddle, fun _ => ?_⟩
      by_cases hzero : count = 0
      · omega
      · have := hcount hzero
        omega

theorem length_of_copyShifted {l r k i count : Nat} {prev last : UInt8}
    (h : copyShifted l r src dst k i prev count = .ok (dst', last)) :
    dst'.length = dst.length ∧ (count ≠ 0 → i + count ≤ dst.length) := by
  induction count generalizing dst k i prev with
  | zero =>
      cases h
      exact ⟨rfl, fun hne => absurd rfl hne⟩
  | succ count ih =>
      rw [copyShifted] at h
      obtain ⟨b, -, h⟩ := except_bind_eq_ok_iff.mp h
      obtain ⟨middle, hwrite, h⟩ := except_bind_eq_ok_iff.mp h
      obtain ⟨hi, hmiddle⟩ := length_of_writePtr hwrite
      obtain ⟨hlength, hcount⟩ := ih h
      refine ⟨hlength.trans hmiddle, fun _ => ?_⟩
      by_cases hzero : count = 0
      · omega
      · have := hcount hzero
        omega

theorem lt_of_write {i : Nat} {b : UInt8} (h : writePtr dst i b = .ok dst') : i < dst.length :=
  (length_of_writePtr h).1

/-- What is read first does not matter. -/
theorem lt_of_bind {α : Type} {i : Nat} {x : Except BuildStop α}
    {next : α → Except BuildStop (List UInt8)}
    (hnext : ∀ a, next a = .ok dst' → i < dst.length) (h : x >>= next = .ok dst') :
    i < dst.length := by
  obtain ⟨a, -, h⟩ := except_bind_eq_ok_iff.mp h
  exact hnext a h

theorem lt_of_copyTail {l r k i rmask : Nat} {prev : UInt8} (hmask : rmask ≠ 0)
    (h : copyTricky.copyTail src dst l r k i prev rmask = .ok dst') : i < dst.length := by
  rw [copyTricky.copyTail, if_neg hmask] at h
  split at h
  · exact lt_of_bind (fun _ => lt_of_bind fun _ => lt_of_write) h
  · exact lt_of_bind (fun _ => lt_of_write) h

theorem lt_of_copyEnd {k rmask : Nat} (hmask : rmask ≠ 0)
    (h : copyBits.copyEnd src dst k rmask = .ok dst') : k < dst.length := by
  rw [copyBits.copyEnd, if_neg hmask] at h
  exact lt_of_bind (fun _ => lt_of_bind fun _ => lt_of_write) h

theorem lt_of_copyInByte {base s d n : Nat} {mask : UInt8}
    (h : copyInByte debug src dst base s d n mask = .ok dst') : base < dst.length := by
  rw [copyInByte] at h
  split at h
  · exact lt_of_bind (fun _ => lt_of_bind fun _ => lt_of_write) h
  · split at h
    · refine lt_of_bind (fun b h => ?_) h
      dsimp only at h
      split at h
      · exact lt_of_bind (fun _ => lt_of_bind fun _ => lt_of_write) h
      · exact lt_of_bind (fun _ => lt_of_write) h
    · split at h
      · cases h
      · exact lt_of_bind (fun _ => lt_of_bind fun _ => lt_of_write) h

/-- The first byte, the whole ones behind it and the last one lie inside, if they are written. -/
def WrittenInside (dst : List UInt8) (base count lmask rmask : Nat) : Prop :=
  (lmask ≠ 0 → base < dst.length) ∧
    (count ≠ 0 → base + (if lmask ≠ 0 then 1 else 0) + count ≤ dst.length) ∧
    (rmask ≠ 0 → base + (if lmask ≠ 0 then 1 else 0) + count < dst.length)

theorem le_of_trickyBytes {base l r srcAt count lmask rmask : Nat} {bits : UInt8}
    (h : (if lmask ≠ 0 then do
        let next ← readPtr src srcAt
        let bits1 := (bits <<< l.toUInt8) ||| (next >>> r.toUInt8)
        let dst ← writePtr dst base (maskBits bits1 (← readPtr dst base) lmask.toUInt8)
        let (dst, bits) ← copyShifted l r src dst (srcAt + 1) (base + 1) next count
        copyTricky.copyTail src dst l r (srcAt + 1 + count) (base + 1 + count) bits rmask
      else do
        let (dst, bits) ← copyShifted l r src dst srcAt base bits count
        copyTricky.copyTail src dst l r (srcAt + count) (base + count) bits rmask) = .ok dst') :
    WrittenInside dst base count lmask rmask := by
  unfold WrittenInside
  by_cases hmask : lmask ≠ 0
  · rw [if_pos hmask] at h ⊢
    obtain ⟨_, -, h⟩ := except_bind_eq_ok_iff.mp h
    obtain ⟨_, -, h⟩ := except_bind_eq_ok_iff.mp h
    obtain ⟨first, hfirst, h⟩ := except_bind_eq_ok_iff.mp h
    obtain ⟨⟨middle, last⟩, hmiddle, h⟩ := except_bind_eq_ok_iff.mp h
    obtain ⟨hbase, hlength⟩ := length_of_writePtr hfirst
    obtain ⟨hlength', hcount⟩ := length_of_copyShifted hmiddle
    refine ⟨fun _ => hbase, fun hne => ?_, fun hne => ?_⟩
    · have := hcount hne
      omega
    · have := lt_of_copyTail hne h
      omega
  · rw [if_neg hmask] at h ⊢
    obtain ⟨⟨middle, last⟩, hmiddle, h⟩ := except_bind_eq_ok_iff.mp h
    obtain ⟨hlength', hcount⟩ := length_of_copyShifted hmiddle
    refine ⟨fun hne => absurd hne hmask, fun hne => ?_, fun hne => ?_⟩
    · have := hcount hne
      omega
    · have := lt_of_copyTail hne h
      omega

theorem le_of_alignedBytes {base count lmask rmask : Nat}
    (h : (if lmask ≠ 0 then do
        let dst ← writePtr dst base
          (maskBits (← readPtr src base) (← readPtr dst base) lmask.toUInt8)
        copyBits.copyEnd src (← copyWhole src dst (base + 1) (base + 1) count)
          (base + 1 + count) rmask
      else do
        copyBits.copyEnd src (← copyWhole src dst base base count) (base + count) rmask) =
          .ok dst') :
    WrittenInside dst base count lmask rmask := by
  unfold WrittenInside
  by_cases hmask : lmask ≠ 0
  · rw [if_pos hmask] at h ⊢
    obtain ⟨_, -, h⟩ := except_bind_eq_ok_iff.mp h
    obtain ⟨_, -, h⟩ := except_bind_eq_ok_iff.mp h
    obtain ⟨first, hfirst, h⟩ := except_bind_eq_ok_iff.mp h
    obtain ⟨middle, hmiddle, h⟩ := except_bind_eq_ok_iff.mp h
    obtain ⟨hbase, hlength⟩ := length_of_writePtr hfirst
    obtain ⟨hlength', hcount⟩ := length_of_copyWhole hmiddle
    refine ⟨fun _ => hbase, fun hne => ?_, fun hne => ?_⟩
    · have := hcount hne
      omega
    · have := lt_of_copyEnd hne h
      omega
  · rw [if_neg hmask] at h ⊢
    obtain ⟨middle, hmiddle, h⟩ := except_bind_eq_ok_iff.mp h
    obtain ⟨hlength', hcount⟩ := length_of_copyWhole hmiddle
    refine ⟨fun hne => absurd hne hmask, fun hne => ?_, fun hne => ?_⟩
    · have := hcount hne
      omega
    · have := lt_of_copyEnd hne h
      omega

theorem le_of_copyTricky {base s d n count lmask rmask : Nat}
    (h : copyTricky src dst base s d n count lmask rmask = .ok dst') :
    WrittenInside dst base count lmask rmask := by
  rw [copyTricky] at h
  dsimp only at h
  split at h
  next =>
    obtain ⟨bits, -, h⟩ := except_bind_eq_ok_iff.mp h
    exact le_of_trickyBytes h
  next =>
    obtain ⟨bits, -, h⟩ := except_bind_eq_ok_iff.mp h
    exact le_of_trickyBytes h

theorem le_of_copyBits {srcOffset dstOffset size : Nat} (hpos : 0 < size)
    (hword : dstOffset + size < 2 ^ 64)
    (h : copyBits debug src srcOffset dst dstOffset size = .ok dst') :
    writtenAt srcOffset dstOffset + size ≤ 8 * dst.length := by
  obtain ⟨base, hbase⟩ : ∃ base, srcOffset / 8 = base := ⟨_, rfl⟩
  obtain ⟨s, hs⟩ : ∃ s, srcOffset % 8 = s := ⟨_, rfl⟩
  obtain ⟨d, hd⟩ : ∃ d, dstOffset % 8 = d := ⟨_, rfl⟩
  have hd8 : d < 8 := by omega
  have hsum : addWords debug d size = .ok (d + size) := addWords_of_lt (by omega)
  rw [writtenAt, hbase, hd]
  rw [copyBits, if_neg (Nat.ne_of_gt hpos)] at h
  simp only [byteSizeRoundedDown, lastByteBits, hbase, hs, hd, hsum, bind, Except.bind] at h
  by_cases hbyte : d + size < 8
  · rw [if_pos hbyte] at h
    have := lt_of_copyInByte h
    omega
  · rw [if_neg hbyte] at h
    have hmask := lmask_ne_zero hd8
    have he : (d + size) % 8 < 8 := Nat.mod_lt _ (by decide)
    obtain ⟨hfirst, hwhole, hlast⟩ : WrittenInside dst base _ _ _ := by
      split at h
      next => exact le_of_alignedBytes h
      next => exact le_of_copyTricky h
    by_cases hd0 : d = 0
    · simp only [hd0, ne_eq, not_true_eq_false, if_false] at hwhole hlast
      by_cases hzero : (0 + size) % 8 = 0
      · have := hwhole (by omega)
        omega
      · simp only [hzero, not_false_eq_true, if_true] at hlast
        have := hlast (rmask_ne_zero hzero (by omega))
        omega
    · simp only [hd0, hmask, ne_eq, not_false_eq_true, if_true] at hfirst hwhole hlast
      have := hfirst trivial
      by_cases hzero : (d + size) % 8 = 0
      · by_cases hcount : (size - (8 - d)) / 8 = 0
        · omega
        · have := hwhole hcount
          omega
      · simp only [hzero, not_false_eq_true, if_true] at hlast
        have := hlast (rmask_ne_zero hzero he)
        omega

end Inside

/-! ## Exact copies -/

/-- The copy ends, and puts the bits at the offset and changes nothing else. -/
def Copies (debug : Bool) (src : List UInt8) (srcOffset : Nat) (dst : List UInt8)
    (dstOffset size : Nat) : Prop :=
  ∃ dst', copyBits debug src srcOffset dst dstOffset size = .ok dst' ∧
    PutsOnly dst dst' dstOffset (slice src srcOffset size)

/-- When the copy is exact: the place where the bits go lies inside, what is written there makes
the same of the destination as the bits at their offset do, and a debug build does not come to
an offset below zero. -/
def CopiesWhen (debug : Bool) (src : List UInt8) (srcOffset : Nat) (dst : List UInt8)
    (dstOffset size : Nat) : Prop :=
  size = 0 ∨
    writtenAt srcOffset dstOffset + size ≤ 8 * dst.length ∧
      (MovesRight srcOffset dstOffset size → debug = false) ∧
      overwrite (bits dst) (writtenAt srcOffset dstOffset)
          (writtenBits src srcOffset dstOffset size) =
        overwrite (bits dst) dstOffset (slice src srcOffset size)

theorem length_writtenBits {srcOffset dstOffset size : Nat}
    (hsrc : srcOffset + size ≤ 8 * src.length) :
    (writtenBits src srcOffset dstOffset size).length = size := by
  rw [writtenBits]
  split
  · rw [shiftedRight, List.length_map, List.length_range]
  · exact length_slice hsrc

/-- A debug build panics where the bits move to the right inside of a byte. -/
theorem copyBits_of_movesRight {srcOffset dstOffset size : Nat} (hpos : 0 < size)
    (h : MovesRight srcOffset dstOffset size) :
    copyBits true src srcOffset dst dstOffset size = .error (.panic .arithmeticOverflow) := by
  obtain ⟨hbyte, hless⟩ := h
  have hsum : addWords true (dstOffset % 8) size = .ok (dstOffset % 8 + size) :=
    addWords_of_lt (by omega)
  rw [copyBits, if_neg (Nat.ne_of_gt hpos)]
  simp only [lastByteBits, hsum, bind, Except.bind, if_pos hbyte]
  rw [copyInByte, if_neg (Nat.ne_of_lt hless), if_neg (by omega), if_pos rfl]
  rfl

theorem copies_of_copiesWhen {srcOffset dstOffset size : Nat}
    (hsrc : srcOffset + size ≤ 8 * src.length) (hdst : dstOffset + size ≤ 8 * dst.length)
    (hword : dstOffset + size < 2 ^ 64) (h : CopiesWhen debug src srcOffset dst dstOffset size) :
    Copies debug src srcOffset dst dstOffset size := by
  have hslice : (slice src srcOffset size).length = size := length_slice hsrc
  by_cases hzero : size = 0
  · subst hzero
    refine ⟨dst, rfl, ?_⟩
    rw [slice, List.take_zero]
    exact PutsOnly.nil dst dstOffset
  · obtain ⟨hin, hdebug, hsame⟩ := h.resolve_left hzero
    have hwritten := @length_writtenBits src srcOffset dstOffset size hsrc
    obtain ⟨dst', hrun, hputs⟩ :=
      copyBits_writes (Nat.pos_of_ne_zero hzero) hword hsrc hin hdebug
    refine ⟨dst', hrun, ?_⟩
    rw [putsOnly_iff (by omega)] at hputs ⊢
    exact hputs.trans hsame

theorem copies_iff (debug : Bool) (src : List UInt8) (srcOffset : Nat) (dst : List UInt8)
    (dstOffset size : Nat) (hsrc : srcOffset + size ≤ 8 * src.length)
    (hdst : dstOffset + size ≤ 8 * dst.length) (hword : dstOffset + size < 2 ^ 64) :
    Copies debug src srcOffset dst dstOffset size ↔
      CopiesWhen debug src srcOffset dst dstOffset size := by
  refine ⟨fun h => ?_, copies_of_copiesWhen hsrc hdst hword⟩
  obtain ⟨dst', hrun, hputs⟩ := h
  by_cases hzero : size = 0
  · exact .inl hzero
  · have hpos : 0 < size := Nat.pos_of_ne_zero hzero
    have hslice : (slice src srcOffset size).length = size := length_slice hsrc
    have hwritten := @length_writtenBits src srcOffset dstOffset size hsrc
    have hin := le_of_copyBits hpos hword hrun
    have hdebug : MovesRight srcOffset dstOffset size → debug = false := by
      intro hright
      by_contra htrue
      rw [Bool.not_eq_false] at htrue
      rw [htrue, copyBits_of_movesRight hpos hright] at hrun
      cases hrun
    obtain ⟨dst'', hrun', hputs'⟩ := copyBits_writes hpos hword hsrc hin hdebug
    rw [hrun'] at hrun
    cases hrun
    rw [putsOnly_iff (by omega)] at hputs hputs'
    exact .inr ⟨hin, hdebug, hputs'.symm.trans hputs⟩

/-- Five bits from inside of a byte to the start of another one. -/
theorem copies_iff_fiveBits :
    3 + 5 ≤ 8 * [(0xff : UInt8)].length ∧ 0 + 5 ≤ 8 * [(0 : UInt8)].length ∧
      (Copies true [0xff] 3 [0] 0 5 ↔ CopiesWhen true [0xff] 3 [0] 0 5) :=
  ⟨by decide, by decide, copies_iff true [0xff] 3 [0] 0 5 (by decide) (by decide) (by decide)⟩

/-- Bits from the second byte of the source to the first one of the destination go to its second
one. -/
theorem not_copies_second_byte :
    ¬ ∀ (debug : Bool) (src : List UInt8) (srcOffset : Nat) (dst : List UInt8)
      (dstOffset size : Nat), srcOffset + size ≤ 8 * src.length →
        dstOffset + size ≤ 8 * dst.length → dstOffset + size < 2 ^ 64 →
          Copies debug src srcOffset dst dstOffset size := by
  intro hall
  obtain ⟨dst', hrun, hputs⟩ := hall false [0, 0xff] 8 [0, 0] 0 8 (by decide) (by decide)
    (by decide)
  cases hrun
  exact absurd (hputs.here 0 (by decide)) (by decide)

/-- To the inside of the first byte; the bits go on into the next one, or to the end of
this one. -/
theorem copyBits_of_fit {o size : Nat} (ho : o < 8) (hover : 8 ≤ o + size)
    (hword : o + size < 2 ^ 64) (hsrc : size ≤ 8 * src.length)
    (hdst : o + size ≤ 8 * dst.length) :
    ∃ dst', copyBits debug src 0 dst o size = .ok dst' ∧
      Puts dst dst' o ((bits src).take size) := by
  have hsame : writtenAt 0 o = o := by
    unfold writtenAt
    omega
  have hright : ¬ MovesRight 0 o size := fun h => by
    have := h.1
    omega
  obtain ⟨dst', hrun, hputs⟩ := @copyBits_writes debug dst src 0 o size (by omega) hword (by omega)
    (by rw [hsame]; exact hdst) fun h => absurd h hright
  rw [hsame, writtenBits, if_neg hright] at hputs
  exact ⟨dst', hrun, hputs.puts⟩

end BitsPaste

end Zeptobeam
