/-
Laws of the JSON text: what is printed fits on one line, is read back, is not
read when it is cut short, and is not read when another value follows it.
-/
import Zeptobeam.Lib.Json

namespace Json

/-! ## Printed characters -/

/-- Anything but an ASCII control character. -/
def Printable (c : Char) : Prop :=
  32 ≤ c.toNat

instance : DecidablePred Printable :=
  fun c => inferInstanceAs (Decidable (32 ≤ c.toNat))

theorem hexDigit_printable : ∀ n, n < 16 → Printable (hexDigit n) := by
  decide

theorem printable_of_all {cs : List Char} (h : cs.all fun c => 32 ≤ c.toNat) :
    ∀ c ∈ cs, Printable c := by
  intro c hc
  exact of_decide_eq_true (List.all_eq_true.mp h c hc)

/-- A character is printed as an escape of two characters, by its code, or as itself. -/
theorem printChar_cases (c : Char) :
    (∃ e, Printable e ∧ unescape e = some c ∧ printChar c = ['\\', e]) ∨
      (c.toNat < 32 ∧ printChar c =
        ['\\', 'u', '0', '0', hexDigit (c.toNat / 16), hexDigit (c.toNat % 16)]) ∨
      (c ≠ '"' ∧ c ≠ '\\' ∧ ¬ c.toNat < 32 ∧ printChar c = [c]) := by
  have hchar : ∀ n, c.toNat = n → c = Char.ofNat n := by
    rintro n rfl
    exact (Char.ofNat_toNat c).symm
  unfold printChar
  by_cases h₁ : c = '"'
  · exact .inl ⟨'"', by decide, by rw [h₁]; decide, if_pos h₁⟩
  rw [if_neg h₁]
  by_cases h₂ : c = '\\'
  · exact .inl ⟨'\\', by decide, by rw [h₂]; decide, if_pos h₂⟩
  rw [if_neg h₂]
  by_cases h₃ : c.toNat = 8
  · exact .inl ⟨'b', by decide, by rw [hchar 8 h₃]; decide, if_pos h₃⟩
  rw [if_neg h₃]
  by_cases h₄ : c.toNat = 9
  · exact .inl ⟨'t', by decide, by rw [hchar 9 h₄]; decide, if_pos h₄⟩
  rw [if_neg h₄]
  by_cases h₅ : c.toNat = 10
  · exact .inl ⟨'n', by decide, by rw [hchar 10 h₅]; decide, if_pos h₅⟩
  rw [if_neg h₅]
  by_cases h₆ : c.toNat = 12
  · exact .inl ⟨'f', by decide, by rw [hchar 12 h₆]; decide, if_pos h₆⟩
  rw [if_neg h₆]
  by_cases h₇ : c.toNat = 13
  · exact .inl ⟨'r', by decide, by rw [hchar 13 h₇]; decide, if_pos h₇⟩
  rw [if_neg h₇]
  by_cases h₈ : c.toNat < 32
  · exact .inr (.inl ⟨h₈, if_pos h₈⟩)
  · exact .inr (.inr ⟨h₁, h₂, h₈, if_neg h₈⟩)

theorem printChar_printable (c : Char) : ∀ d ∈ printChar c, Printable d := by
  rcases printChar_cases c with ⟨e, he, _, hprint⟩ | ⟨hcode, hprint⟩ | ⟨_, _, hcode, hprint⟩
  · rw [hprint, List.forall_mem_cons, List.forall_mem_singleton]
    exact ⟨by decide, he⟩
  · have hhigh := hexDigit_printable (c.toNat / 16) (by omega)
    have hlow := hexDigit_printable (c.toNat % 16) (by omega)
    rw [hprint]
    simp only [List.forall_mem_cons, hhigh, hlow]
    exact ⟨by decide, by decide, by decide, by decide, trivial, trivial, by simp⟩
  · rw [hprint, List.forall_mem_singleton]
    exact Nat.le_of_not_lt hcode

theorem printString_printable (s : String) :
    ∀ c ∈ printString s, Printable c := by
  intro c hc
  simp only [printString, List.mem_cons, List.mem_append, List.mem_flatMap,
    List.not_mem_nil, or_false] at hc
  rcases hc with rfl | ⟨d, _, hc⟩ | rfl
  · decide
  · exact printChar_printable d c hc
  · decide

theorem numberChar_printable {c : Char} (h : JsonNumber.isNumberChar c = true) :
    Printable c := by
  simp only [JsonNumber.isNumberChar, Char.isDigit, Bool.or_eq_true,
    Bool.and_eq_true, decide_eq_true_eq, beq_iff_eq] at h
  rcases h with ((((h | rfl) | rfl) | rfl) | rfl) | rfl
  · have hlow : (48 : UInt32).toNat ≤ c.val.toNat := UInt32.le_iff_toNat_le.mp h.1
    change 32 ≤ c.val.toNat
    exact le_trans (by decide) hlow
  all_goals decide

theorem number_printable (number : JsonNumber) :
    ∀ c ∈ number.text, Printable c := by
  have hvalid := number.valid
  simp only [JsonNumber.literalOk, Bool.and_eq_true, List.all_eq_true] at hvalid
  exact fun c hc => numberChar_printable (hvalid.1.1 c hc)

mutual

theorem print_printable : ∀ v : Json, ∀ c ∈ v.print, Printable c
  | .null => by rw [print]; exact printable_of_all (by decide)
  | .bool true | .bool false => by rw [print]; exact printable_of_all (by decide)
  | .num number => by rw [print]; exact number_printable number
  | .str value => by rw [print]; exact printString_printable value
  | .arr [] => by rw [print]; exact printable_of_all (by decide)
  | .arr (item :: items) => by
      rw [print, List.forall_mem_cons, List.forall_mem_append]
      exact ⟨by decide, print_printable item, printItems_printable items⟩
  | .obj [] => by rw [print]; exact printable_of_all (by decide)
  | .obj ((key, value) :: fields) => by
      rw [print, List.forall_mem_cons, List.forall_mem_append,
        List.forall_mem_cons, List.forall_mem_append]
      exact ⟨by decide, printString_printable key, by decide,
        print_printable value, printFields_printable fields⟩

theorem printItems_printable :
    ∀ items : List Json, ∀ c ∈ printItems items, Printable c
  | [] => by rw [printItems]; exact printable_of_all (by decide)
  | item :: items => by
      rw [printItems, List.forall_mem_cons, List.forall_mem_append]
      exact ⟨by decide, print_printable item, printItems_printable items⟩

theorem printFields_printable :
    ∀ fields : List (String × Json), ∀ c ∈ printFields fields, Printable c
  | [] => by rw [printFields]; exact printable_of_all (by decide)
  | (key, value) :: fields => by
      rw [printFields, List.forall_mem_cons, List.forall_mem_append,
        List.forall_mem_cons, List.forall_mem_append]
      exact ⟨by decide, printString_printable key, by decide,
        print_printable value, printFields_printable fields⟩

end

/-! ## Reading back -/

theorem hexValue_hexDigit : ∀ n, n < 16 → hexValue (hexDigit n) = some n := by
  decide

theorem parseString_plain {c : Char} (rest : List Char) (hquote : c ≠ '"')
    (hslash : c ≠ '\\') :
    parseString (c :: rest) =
      if c.toNat < 32 then none
      else (parseString rest).map fun p => (c :: p.1, p.2) := by
  rw [parseString]
  · simp only [hslash, or_false]
    split_ifs
    · rfl
    · cases parseString rest <;> rfl
  · exact hquote
  · exact fun _ _ _ _ _ h => absurd h hslash
  · exact fun _ _ h => absurd h hslash

theorem parseString_escape {e : Char} {rest : List Char}
    (hne : ∀ a b c d tail, e = 'u' → rest = a :: b :: c :: d :: tail → False) :
    parseString ('\\' :: e :: rest) =
      (unescape e).bind fun ch => (parseString rest).map fun p => (ch :: p.1, p.2) := by
  rw [parseString]
  · cases unescape e <;> cases parseString rest <;> rfl
  · exact hne

theorem parseString_unescape {e c : Char} (hc : unescape e = some c) (rest : List Char) :
    parseString ('\\' :: e :: rest) = (parseString rest).map fun p => (c :: p.1, p.2) := by
  have he : e ≠ 'u' := by
    rintro rfl
    have hnone : unescape 'u' = none := by decide
    rw [hnone] at hc
    cases hc
  rw [parseString_escape fun _ _ _ _ _ h => absurd h he, hc]
  rfl

theorem parseString_printChar (c : Char) (rest : List Char) :
    parseString (printChar c ++ rest) =
      (parseString rest).map fun p => (c :: p.1, p.2) := by
  rcases printChar_cases c with ⟨e, _, he, hprint⟩ | ⟨hcode, hprint⟩ |
    ⟨hquote, hslash, hcode, hprint⟩
  · rw [hprint]
    exact parseString_unescape he rest
  · have hhigh := hexValue_hexDigit (c.toNat / 16) (by omega)
    have hlow := hexValue_hexDigit (c.toNat % 16) (by omega)
    have hsum : 16 * (c.toNat / 16) + c.toNat % 16 = c.toNat := by omega
    have hzero : hexValue '0' = some 0 := by decide
    have hrange : ¬ (0xd800 ≤ c.toNat ∧ c.toNat ≤ 0xdfff) := by omega
    rw [hprint]
    cases h : parseString rest <;>
      simp [parseString, hzero, hhigh, hlow, hsum, h, Char.ofNat_toNat]
    omega
  · rw [hprint, List.singleton_append, parseString_plain rest hquote hslash, if_neg hcode]

theorem parseString_print (chars rest : List Char) :
    parseString (chars.flatMap printChar ++ '"' :: rest) = some (chars, rest) := by
  induction chars with
  | nil => simp [parseString]
  | cons c chars ih =>
      rw [List.flatMap_cons, List.append_assoc, parseString_printChar, ih]
      rfl

/-- What may stand behind a number: nothing that could continue it. -/
def EndsNumber (rest : List Char) : Prop :=
  rest.head?.all (fun c => !JsonNumber.isNumberChar c) = true

theorem number_text_head (number : JsonNumber) :
    ∃ c cs, number.text = c :: cs ∧ (c.isDigit = true ∨ c = '-') := by
  have hvalid := number.valid
  simp only [JsonNumber.literalOk, Bool.and_eq_true] at hvalid
  cases htext : number.text with
  | nil => simp [htext, JsonNumber.unsigned] at hvalid
  | cons c cs =>
      refine ⟨c, cs, rfl, ?_⟩
      by_cases hsign : c = '-'
      · exact Or.inr hsign
      · left
        simpa [htext, JsonNumber.unsigned, hsign] using hvalid.1.2

theorem parseNumber_print (number : JsonNumber) {rest : List Char}
    (hrest : EndsNumber rest) :
    parseNumber (number.text ++ rest) = some (.num number, rest) := by
  have hvalid := number.valid
  have hchars : ∀ c ∈ number.text, JsonNumber.isNumberChar c = true := by
    simp only [JsonNumber.literalOk, Bool.and_eq_true, List.all_eq_true] at hvalid
    exact hvalid.1.1
  have htake : rest.takeWhile JsonNumber.isNumberChar = [] := by
    cases rest with
    | nil => rfl
    | cons c cs =>
        have hc : JsonNumber.isNumberChar c = false := by simpa [EndsNumber] using hrest
        simp [hc]
  have hdrop : rest.dropWhile JsonNumber.isNumberChar = rest := by
    cases rest with
    | nil => rfl
    | cons c cs =>
        have hc : JsonNumber.isNumberChar c = false := by simpa [EndsNumber] using hrest
        simp [hc]
  simp [parseNumber, List.takeWhile_append_of_pos hchars,
    List.dropWhile_append_of_pos hchars, htake, hdrop, hvalid]

theorem skipSpace_cons {c : Char} (rest : List Char) (hc : isSpace c = false) :
    skipSpace (c :: rest) = c :: rest := by
  simp [skipSpace, hc]

/-- The first character of a number is none of those that decide what kind of
value is read. -/
theorem number_head_ne {c : Char} (hc : c.isDigit = true ∨ c = '-') :
    isSpace c = false ∧ c ≠ '"' ∧ c ≠ '[' ∧ c ≠ '{' ∧ c ≠ 'n' ∧ c ≠ 't' ∧
      c ≠ 'f' ∧ c ≠ ']' ∧ c ≠ '}' := by
  rcases hc with hc | rfl
  · refine ⟨?_, ?_, ?_, ?_, ?_, ?_, ?_, ?_, ?_⟩
    · by_contra hspace
      simp only [isSpace, Bool.not_eq_false, Bool.or_eq_true, beq_iff_eq] at hspace
      rcases hspace with ((rfl | rfl) | rfl) | rfl <;> exact absurd hc (by decide)
    all_goals
      rintro rfl
      exact absurd hc (by decide)
  · decide

/-- The first character of a printed value is no space and closes nothing. -/
theorem print_head (v : Json) :
    ∃ c cs, v.print = c :: cs ∧ isSpace c = false ∧ c ≠ ']' ∧ c ≠ '}' := by
  match v with
  | .null => exact ⟨_, _, by rw [print], by decide⟩
  | .bool true => exact ⟨_, _, by rw [print], by decide⟩
  | .bool false => exact ⟨_, _, by rw [print], by decide⟩
  | .num number =>
      obtain ⟨c, cs, htext, hc⟩ := number_text_head number
      have hne := number_head_ne hc
      exact ⟨c, cs, by rw [print, htext], hne.1, hne.2.2.2.2.2.2.2⟩
  | .str value => exact ⟨_, _, by rw [print, printString], by decide⟩
  | .arr [] => exact ⟨_, _, by rw [print], by decide⟩
  | .arr (item :: items) => exact ⟨_, _, by rw [print], by decide⟩
  | .obj [] => exact ⟨_, _, by rw [print], by decide⟩
  | .obj ((key, value) :: fields) => exact ⟨_, _, by rw [print], by decide⟩

theorem endsNumber_printItems (items : List Json) (rest : List Char) :
    EndsNumber (printItems items ++ rest) := by
  cases items with
  | nil => simp [printItems, EndsNumber]; decide
  | cons item items => simp [printItems, EndsNumber]; decide

theorem endsNumber_printFields (fields : List (String × Json)) (rest : List Char) :
    EndsNumber (printFields fields ++ rest) := by
  cases fields with
  | nil => simp [printFields, EndsNumber]; decide
  | cons field fields => simp [printFields, EndsNumber]; decide

theorem parseField_print (key : String) {value : Json} {fuel : Nat}
    {rest : List Char}
    (hvalue : parseValue fuel (value.print ++ rest) = some (value, rest)) :
    parseField (fuel + 1)
        (printString key ++ ':' :: (value.print ++ rest)) =
      some ((key, value), rest) := by
  simp [printString, parseField, skipSpace, isSpace, parseString_print, expect,
    hvalue]

mutual

theorem parseValue_print : ∀ (v : Json) (fuel : Nat) (rest : List Char),
    2 * v.print.length ≤ fuel → EndsNumber rest →
      parseValue fuel (v.print ++ rest) = some (v, rest)
  | v, 0, rest, hfuel, _ => by
      obtain ⟨c, cs, hprint, _⟩ := print_head v
      simp [hprint] at hfuel
  | .null, fuel + 1, rest, _, _ | .bool true, fuel + 1, rest, _, _
  | .bool false, fuel + 1, rest, _, _ => by
      simp [print, parseValue, skipSpace, isSpace, expect]
  | .num number, fuel + 1, rest, _, hrest => by
      obtain ⟨c, cs, htext, hc⟩ := number_text_head number
      obtain ⟨hspace, h₁, h₂, h₃, h₄, h₅, h₆, _⟩ := number_head_ne hc
      have hnumber := parseNumber_print number hrest
      rw [htext, List.cons_append] at hnumber
      simp [print, htext, parseValue, skipSpace_cons _ hspace, h₁, h₂, h₃, h₄, h₅,
        h₆, hnumber]
  | .str value, fuel + 1, rest, _, _ => by
      simp [print, printString, parseValue, skipSpace, isSpace, parseString_print]
  | .arr [], fuel + 1, rest, _, _ => by
      simp [print, parseValue, skipSpace, isSpace]
  | .arr (item :: items), fuel + 1, rest, hfuel, _ => by
      obtain ⟨c, cs, hprint, hspace, hclose, _⟩ := print_head item
      simp only [print, List.length_cons, List.length_append] at hfuel
      have hitem := parseValue_print item fuel (printItems items ++ rest)
        (by omega) (endsNumber_printItems items rest)
      have hitems := parseItems_print items fuel rest (by omega)
      rw [hprint, List.cons_append] at hitem
      rw [print, List.cons_append, List.append_assoc, hprint, List.cons_append,
        parseValue, skipSpace_cons _ (by decide)]
      simp [skipSpace_cons _ hspace, hclose, hitem, hitems]
  | .obj [], fuel + 1, rest, _, _ => by
      simp [print, parseValue, skipSpace, isSpace]
  | .obj ((key, value) :: fields), fuel + 1, rest, hfuel, _ => by
      simp only [print, printString, List.length_cons, List.length_append] at hfuel
      obtain ⟨fuel, rfl⟩ : ∃ n, fuel = n + 1 := ⟨fuel - 1, by omega⟩
      have hvalue := parseValue_print value fuel (printFields fields ++ rest)
        (by omega) (endsNumber_printFields fields rest)
      have hfield := parseField_print key hvalue
      have hfields := parseFields_print fields (fuel + 1) rest (by omega)
      rw [printString, List.cons_append] at hfield
      rw [print, List.cons_append, printString, List.cons_append, List.cons_append,
        parseValue, skipSpace_cons _ (by decide)]
      simp only [List.append_assoc, List.cons_append, List.nil_append] at hfield ⊢
      simp [skipSpace_cons _ (show isSpace '"' = false by decide), hfield, hfields]

theorem parseItems_print : ∀ (items : List Json) (fuel : Nat) (rest : List Char),
    2 * (printItems items).length ≤ fuel →
      parseItems fuel (printItems items ++ rest) = some (items, rest)
  | [], 0, rest, hfuel => by simp [printItems] at hfuel
  | _ :: _, 0, rest, hfuel => by simp [printItems] at hfuel
  | [], fuel + 1, rest, _ => by
      simp [printItems, parseItems, skipSpace, isSpace]
  | item :: items, fuel + 1, rest, hfuel => by
      simp only [printItems, List.length_cons, List.length_append] at hfuel
      have hitem := parseValue_print item fuel (printItems items ++ rest)
        (by omega) (endsNumber_printItems items rest)
      have hitems := parseItems_print items fuel rest (by omega)
      simp [printItems, parseItems, skipSpace, isSpace, hitem, hitems]

theorem parseFields_print :
    ∀ (fields : List (String × Json)) (fuel : Nat) (rest : List Char),
    2 * (printFields fields).length ≤ fuel →
      parseFields fuel (printFields fields ++ rest) = some (fields, rest)
  | [], 0, rest, hfuel => by simp [printFields] at hfuel
  | _ :: _, 0, rest, hfuel => by simp [printFields] at hfuel
  | [], fuel + 1, rest, _ => by
      simp [printFields, parseFields, skipSpace, isSpace]
  | (key, value) :: fields, fuel + 1, rest, hfuel => by
      simp only [printFields, printString, List.length_cons,
        List.length_append] at hfuel
      obtain ⟨fuel, rfl⟩ : ∃ n, fuel = n + 1 := ⟨fuel - 1, by omega⟩
      have hvalue := parseValue_print value fuel (printFields fields ++ rest)
        (by omega) (endsNumber_printFields fields rest)
      have hfield := parseField_print key hvalue
      have hfields := parseFields_print fields (fuel + 1) rest (by omega)
      rw [printFields, List.cons_append, parseFields, skipSpace_cons _ (by decide)]
      simp [hfield, hfields]

end

/-- What is printed is read back. -/
theorem parse_print (v : Json) : parse v.print = some v := by
  have h := parseValue_print v (2 * v.print.length + 1) [] (by omega) rfl
  rw [List.append_nil] at h
  rw [parse, h]
  rfl

theorem print_injective : Function.Injective print := by
  intro v w h
  have hv := parse_print v
  rw [h, parse_print w] at hv
  exact (Option.some.inj hv).symm

instance : DecidableEq Json :=
  fun v w => decidable_of_iff (v.print = w.print) print_injective.eq_iff

/-! ## Reading more text

A reader that stopped before the end of its text stops at the same place when
the text goes on.  Only a number can grow. -/

def isNum : Json → Bool
  | .num _ => true
  | _ => false

theorem skipSpace_append {text : List Char} (more : List Char)
    (h : skipSpace text ≠ []) : skipSpace (text ++ more) = skipSpace text ++ more := by
  simp only [skipSpace] at h ⊢
  rw [List.dropWhile_append]
  simp [h]

theorem parseString_append {text chars rest : List Char} (more : List Char)
    (h : parseString text = some (chars, rest)) :
    parseString (text ++ more) = some (chars, rest ++ more) := by
  induction text using parseString.induct generalizing chars rest with
  | case1 => simp [parseString] at h
  | case2 after =>
      simp only [parseString, Option.some.injEq, Prod.mk.injEq] at h
      obtain ⟨rfl, rfl⟩ := h
      simp [parseString]
  | case3 a b c d after ih =>
      simp only [parseString, Option.bind_eq_bind, Option.bind_eq_some_iff] at h
      obtain ⟨va, ha, vb, hb, vc, hc, vd, hd, h⟩ := h
      split_ifs at h with hrange
      simp only [Option.bind_eq_some_iff, Prod.exists] at h
      obtain ⟨tail, left, htail, h⟩ := h
      simp only [Option.some.injEq, Prod.mk.injEq] at h
      obtain ⟨rfl, rfl⟩ := h
      simp [parseString, ha, hb, hc, hd, hrange, ih htail]
  | case4 e after hne ih =>
      rw [parseString_escape hne, Option.bind_eq_some_iff] at h
      obtain ⟨ch, hch, h⟩ := h
      simp only [Option.map_eq_some_iff, Prod.exists, Prod.mk.injEq] at h
      obtain ⟨tail, left, htail, rfl, rfl⟩ := h
      rw [List.cons_append, List.cons_append, parseString_unescape hch, ih htail]
      rfl
  | case5 c after h₁ _ h₃ h₄ =>
      by_cases hslash : c = '\\'
      · cases after with
        | nil => simp [hslash, parseString] at h
        | cons e after => exact absurd rfl (h₃ e after hslash)
      · rw [parseString_plain _ h₁ hslash,
          if_pos (h₄.resolve_right hslash)] at h
        exact absurd h (by simp)
  | case6 c after h₁ _ _ h₄ ih =>
      simp only [not_or] at h₄
      rw [parseString_plain _ h₁ h₄.2, if_neg h₄.1] at h
      simp only [Option.map_eq_some_iff, Prod.exists, Prod.mk.injEq] at h
      obtain ⟨tail, left, htail, rfl, rfl⟩ := h
      rw [List.cons_append, parseString_plain _ h₁ h₄.2, if_neg h₄.1, ih htail]
      rfl

theorem expect_append {word text rest : List Char} (more : List Char)
    (h : expect word text = some rest) :
    expect word (text ++ more) = some (rest ++ more) := by
  induction word generalizing text with
  | nil =>
      simp only [expect, Option.some.injEq] at h
      simp [expect, h]
  | cons w word ih =>
      cases text with
      | nil => simp [expect] at h
      | cons c text =>
          simp only [List.cons_append, expect] at h ⊢
          split_ifs at h ⊢
          exact ih h

theorem parseNumber_append {text rest : List Char} {v : Json} (more : List Char)
    (h : parseNumber text = some (v, rest)) (hrest : rest ≠ []) :
    parseNumber (text ++ more) = some (v, rest ++ more) := by
  unfold parseNumber at h ⊢
  dsimp only at h ⊢
  have hdrop : text.dropWhile JsonNumber.isNumberChar ≠ [] := by
    split_ifs at h with hok
    simp only [Option.some.injEq, Prod.mk.injEq] at h
    rw [h.2]
    exact hrest
  have htake : (text ++ more).takeWhile JsonNumber.isNumberChar =
      text.takeWhile JsonNumber.isNumberChar := by
    rw [List.takeWhile_append, if_neg]
    intro hlen
    have := List.takeWhile_append_dropWhile (p := JsonNumber.isNumberChar) (l := text)
    have hcount := congrArg List.length this
    rw [List.length_append, hlen] at hcount
    exact hdrop (List.length_eq_zero_iff.mp (by omega))
  have hdropMore : (text ++ more).dropWhile JsonNumber.isNumberChar =
      text.dropWhile JsonNumber.isNumberChar ++ more := by
    rw [List.dropWhile_append]
    simp [hdrop]
  rw [htake, hdropMore]
  split_ifs at h ⊢ with hok
  simp only [Option.some.injEq, Prod.mk.injEq] at h ⊢
  exact ⟨h.1, by rw [h.2]⟩

theorem parseItems_rest_ne_nil {fuel : Nat} {text rest : List Char}
    {items : List Json} (h : parseItems fuel text = some (items, rest)) :
    text ≠ [] := by
  rintro rfl
  cases fuel <;> simp [parseItems, skipSpace] at h

theorem parseFields_rest_ne_nil {fuel : Nat} {text rest : List Char}
    {fields : List (String × Json)}
    (h : parseFields fuel text = some (fields, rest)) : text ≠ [] := by
  rintro rfl
  cases fuel <;> simp [parseFields, skipSpace] at h

/-- With more fuel, and with more text behind, the four readers read the same and
stop at the same place. -/
structure Extends (fuel extra : Nat) (more : List Char) : Prop where
  value : ∀ {text rest v}, parseValue fuel text = some (v, rest) →
    (rest ≠ [] ∨ isNum v = false) →
      parseValue (fuel + extra) (text ++ more) = some (v, rest ++ more)
  items : ∀ {text rest xs}, parseItems fuel text = some (xs, rest) →
    parseItems (fuel + extra) (text ++ more) = some (xs, rest ++ more)
  field : ∀ {text rest f}, parseField fuel text = some (f, rest) → rest ≠ [] →
    parseField (fuel + extra) (text ++ more) = some (f, rest ++ more)
  fields : ∀ {text rest fs}, parseFields fuel text = some (fs, rest) →
    parseFields (fuel + extra) (text ++ more) = some (fs, rest ++ more)

section Extends

variable {fuel extra : Nat} {more : List Char}

theorem parseValue_append (ih : Extends fuel extra more) {text rest : List Char} {v : Json}
    (h : parseValue (fuel + 1) text = some (v, rest))
    (hrest : rest ≠ [] ∨ isNum v = false) :
    parseValue (fuel + extra + 1) (text ++ more) = some (v, rest ++ more) := by
  rw [parseValue] at h ⊢
  cases hskip : skipSpace text with
  | nil => simp [hskip] at h
  | cons c after =>
      rw [skipSpace_append more (by simp [hskip]), hskip, List.cons_append]
      simp only [hskip] at h ⊢
      split_ifs at h ⊢ with hstr harr hobj hn ht hf
      · -- a string
        simp only [Option.bind_eq_bind, Option.bind_eq_some_iff, Prod.exists] at h
        obtain ⟨chars, left, hchars, h⟩ := h
        simp only [Option.some.injEq, Prod.mk.injEq] at h
        obtain ⟨rfl, rfl⟩ := h
        simp [parseString_append more hchars]
      · -- an array
        cases hinner : skipSpace after with
        | nil => simp [hinner] at h
        | cons d inner =>
            rw [skipSpace_append more (by simp [hinner]), hinner, List.cons_append]
            simp only [hinner] at h ⊢
            split_ifs at h ⊢ with hclose
            · simp only [Option.some.injEq, Prod.mk.injEq] at h ⊢
              exact ⟨h.1, by rw [h.2]⟩
            · simp only [Option.bind_eq_bind, Option.bind_eq_some_iff,
                Prod.exists] at h
              obtain ⟨item, mid, hitem, tail, left, htail, h⟩ := h
              simp only [Option.some.injEq, Prod.mk.injEq] at h
              obtain ⟨rfl, rfl⟩ := h
              have hitem' := ih.value hitem (Or.inl (parseItems_rest_ne_nil htail))
              rw [List.cons_append] at hitem'
              simp [hitem', ih.items htail]
      · -- an object
        cases hinner : skipSpace after with
        | nil => simp [hinner] at h
        | cons d inner =>
            rw [skipSpace_append more (by simp [hinner]), hinner, List.cons_append]
            simp only [hinner] at h ⊢
            split_ifs at h ⊢ with hclose
            · simp only [Option.some.injEq, Prod.mk.injEq] at h ⊢
              exact ⟨h.1, by rw [h.2]⟩
            · simp only [Option.bind_eq_bind, Option.bind_eq_some_iff,
                Prod.exists] at h
              obtain ⟨key, value, mid, hfield, tail, left, htail, h⟩ := h
              simp only [Option.some.injEq, Prod.mk.injEq] at h
              obtain ⟨rfl, rfl⟩ := h
              have hfield' := ih.field hfield (parseFields_rest_ne_nil htail)
              rw [List.cons_append] at hfield'
              simp [hfield', ih.fields htail]
      · -- the three literal words
        simp only [Option.map_eq_some_iff, Prod.mk.injEq] at h
        obtain ⟨left, hleft, rfl, rfl⟩ := h
        simp [expect_append more hleft]
      · simp only [Option.map_eq_some_iff, Prod.mk.injEq] at h
        obtain ⟨left, hleft, rfl, rfl⟩ := h
        simp [expect_append more hleft]
      · simp only [Option.map_eq_some_iff, Prod.mk.injEq] at h
        obtain ⟨left, hleft, rfl, rfl⟩ := h
        simp [expect_append more hleft]
      · -- a number ends only at a character that is still there
        have hne : rest ≠ [] := by
          refine hrest.resolve_right ?_
          unfold parseNumber at h
          dsimp only at h
          split_ifs at h
          simp only [Option.some.injEq, Prod.mk.injEq] at h
          rw [← h.1]
          simp [isNum]
        simpa using parseNumber_append more h hne

theorem parseItems_append (ih : Extends fuel extra more) {text rest : List Char}
    {xs : List Json} (h : parseItems (fuel + 1) text = some (xs, rest)) :
    parseItems (fuel + extra + 1) (text ++ more) = some (xs, rest ++ more) := by
  rw [parseItems] at h ⊢
  cases hskip : skipSpace text with
  | nil => simp [hskip] at h
  | cons c after =>
      rw [skipSpace_append more (by simp [hskip]), hskip, List.cons_append]
      simp only [hskip] at h ⊢
      split_ifs at h ⊢ with hclose hcomma
      · simp only [Option.some.injEq, Prod.mk.injEq] at h ⊢
        exact ⟨h.1, by rw [h.2]⟩
      · simp only [Option.bind_eq_bind, Option.bind_eq_some_iff, Prod.exists] at h
        obtain ⟨item, mid, hitem, tail, left, htail, h⟩ := h
        simp only [Option.some.injEq, Prod.mk.injEq] at h
        obtain ⟨rfl, rfl⟩ := h
        simp [ih.value hitem (Or.inl (parseItems_rest_ne_nil htail)),
          ih.items htail]

theorem parseField_append (ih : Extends fuel extra more) {text rest : List Char}
    {f : String × Json} (h : parseField (fuel + 1) text = some (f, rest))
    (hrest : rest ≠ []) :
    parseField (fuel + extra + 1) (text ++ more) = some (f, rest ++ more) := by
  rw [parseField] at h ⊢
  cases hskip : skipSpace text with
  | nil => simp [hskip] at h
  | cons c after =>
      rw [skipSpace_append more (by simp [hskip]), hskip, List.cons_append]
      simp only [hskip] at h ⊢
      split_ifs at h ⊢ with hquote
      simp only [Option.bind_eq_bind, Option.bind_eq_some_iff, Prod.exists] at h
      obtain ⟨key, mid, hkey, colon, hcolon, value, left, hvalue, h⟩ := h
      simp only [Option.some.injEq, Prod.mk.injEq] at h
      obtain ⟨rfl, rfl⟩ := h
      have hmid : skipSpace mid ≠ [] := by
        intro hnil
        rw [hnil] at hcolon
        simp [expect] at hcolon
      simp [parseString_append more hkey, skipSpace_append more hmid,
        expect_append more hcolon, ih.value hvalue (Or.inl hrest)]

theorem parseFields_append (ih : Extends fuel extra more) {text rest : List Char}
    {fs : List (String × Json)}
    (h : parseFields (fuel + 1) text = some (fs, rest)) :
    parseFields (fuel + extra + 1) (text ++ more) = some (fs, rest ++ more) := by
  rw [parseFields] at h ⊢
  cases hskip : skipSpace text with
  | nil => simp [hskip] at h
  | cons c after =>
      rw [skipSpace_append more (by simp [hskip]), hskip, List.cons_append]
      simp only [hskip] at h ⊢
      split_ifs at h ⊢ with hclose hcomma
      · simp only [Option.some.injEq, Prod.mk.injEq] at h ⊢
        exact ⟨h.1, by rw [h.2]⟩
      · simp only [Option.bind_eq_bind, Option.bind_eq_some_iff, Prod.exists] at h
        obtain ⟨key, value, mid, hfield, tail, left, htail, h⟩ := h
        simp only [Option.some.injEq, Prod.mk.injEq] at h
        obtain ⟨rfl, rfl⟩ := h
        simp [ih.field hfield (parseFields_rest_ne_nil htail), ih.fields htail]

end Extends

theorem extends_append (fuel extra : Nat) (more : List Char) :
    Extends fuel extra more := by
  induction fuel with
  | zero => constructor <;> simp [parseValue, parseItems, parseField, parseFields]
  | succ fuel ih =>
      constructor <;> rw [Nat.add_right_comm fuel 1 extra]
      · exact parseValue_append ih
      · exact parseItems_append ih
      · exact parseField_append ih
      · exact parseFields_append ih

/-- Reading an accepted text with something behind it. -/
theorem parseValue_of_parse {text : List Char} {v : Json}
    (h : parse text = some v) (hv : isNum v = false) (more : List Char) (fuel : Nat)
    (hfuel : 2 * text.length + 1 ≤ fuel) :
    ∃ rest, skipSpace rest = [] ∧
      parseValue fuel (text ++ more) = some (v, rest ++ more) := by
  simp only [parse, Option.bind_eq_bind, Option.bind_eq_some_iff, Prod.exists] at h
  obtain ⟨w, rest, hread, h⟩ := h
  split_ifs at h with hspace
  simp only [Option.some.injEq] at h
  subst h
  obtain ⟨extra, rfl⟩ := Nat.exists_eq_add_of_le hfuel
  exact ⟨rest, by simpa using hspace,
    (extends_append _ extra more).value hread (Or.inr hv)⟩

theorem isNum_of_parseValue_brace {fuel : Nat} {text rest : List Char} {v : Json}
    (h : parseValue fuel ('{' :: text) = some (v, rest)) : isNum v = false := by
  cases fuel with
  | zero => simp [parseValue] at h
  | succ fuel =>
      rw [parseValue, skipSpace_cons _ (by decide)] at h
      simp only [Char.reduceEq, ↓reduceIte] at h
      cases hinner : skipSpace text with
      | nil => simp [hinner] at h
      | cons d inner =>
          simp only [hinner] at h
          split_ifs at h with hclose
          · simp only [Option.some.injEq, Prod.mk.injEq] at h
            rw [← h.1, isNum]
            simp
          · simp only [Option.bind_eq_bind, Option.bind_eq_some_iff, Prod.exists,
              Option.some.injEq, Prod.mk.injEq] at h
            obtain ⟨_, _, _, _, _, _, _, rfl, _⟩ := h
            rfl

theorem print_obj_head (fields : List (String × Json)) :
    ∃ cs, (Json.obj fields).print = '{' :: cs := by
  match fields with
  | [] => exact ⟨_, by rw [print]⟩
  | (key, value) :: fields => exact ⟨_, by rw [print]⟩

/-- An object that is cut short is not read: if it were, reading on would stop
inside the object's own text. -/
theorem parse_torn {fields : List (String × Json)} {text : List Char}
    (hfront : text <+: (Json.obj fields).print)
    (hne : text ≠ (Json.obj fields).print) : parse text = none := by
  obtain ⟨more, hmore⟩ := hfront
  obtain ⟨cs, hprint⟩ := print_obj_head fields
  cases hparse : parse text with
  | none => rfl
  | some w =>
      exfalso
      have hhead : ∃ tail, text = '{' :: tail := by
        cases text with
        | nil => simp [parse, parseValue, skipSpace] at hparse
        | cons c tail =>
            rw [hprint, List.cons_append, List.cons.injEq] at hmore
            exact ⟨tail, by rw [hmore.1]⟩
      obtain ⟨tail, rfl⟩ := hhead
      have hobj : isNum w = false := by
        simp only [parse, Option.bind_eq_bind, Option.bind_eq_some_iff,
          Prod.exists] at hparse
        obtain ⟨v, rest, hread, h⟩ := hparse
        split_ifs at h
        simp only [Option.some.injEq] at h
        subst h
        exact isNum_of_parseValue_brace hread
      have hlength := congrArg List.length hmore
      rw [List.length_append] at hlength
      obtain ⟨rest, _, hread⟩ := parseValue_of_parse hparse hobj more
        (2 * (Json.obj fields).print.length + 1) (by omega)
      have hwhole := parseValue_print (.obj fields)
        (2 * (Json.obj fields).print.length + 1) [] (by omega) rfl
      rw [List.append_nil] at hwhole
      rw [hmore, hwhole] at hread
      simp only [Option.some.injEq, Prod.mk.injEq, List.nil_eq,
        List.append_eq_nil_iff] at hread
      apply hne
      rw [← hmore, hread.2.2, List.append_nil]

/-- A text with a second object behind a first one is not read. -/
theorem parse_trailing (first second : List (String × Json)) :
    parse ((Json.obj first).print ++ (Json.obj second).print) = none := by
  obtain ⟨cs, hprint⟩ := print_obj_head second
  have hread := parseValue_print (.obj first)
    (2 * ((Json.obj first).print ++ (Json.obj second).print).length + 1)
    (Json.obj second).print (by rw [List.length_append]; omega)
    (by simp [hprint, EndsNumber, show JsonNumber.isNumberChar '{' = false by decide])
  rw [parse, hread, hprint]
  rfl

end Json
