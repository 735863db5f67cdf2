/-
The text layer of `serde_json`, the crate every file of the runtime is written
with.  It is a parameter of the model: values go to text and back, and the laws
are the ones the file formats rely on.  The derived `Serialize` and
`Deserialize` code of the repository's own types works on `Json` values.
-/
import Zeptobeam.Lib.JsonLaws
import Zeptobeam.Lib.LineFile

namespace Zeptobeam

/-- `serde_json::to_string` and `serde_json::from_str`.  `Json` stands for the
values the crate reads back: finite numbers, nested below its recursion limit. -/
structure SerdeJson where
  toString : Json → List Char
  fromStr : List Char → Option Json
  /-- What is written is read back. -/
  fromStr_toString : ∀ v, fromStr (toString v) = some v
  /-- Control characters are escaped, so a value takes one line. -/
  toString_printable : ∀ v, ∀ c ∈ toString v, Json.Printable c
  toString_obj : ∀ fields, ∃ cs, toString (.obj fields) = '{' :: cs
  /-- An object that ends too early is an error. -/
  fromStr_torn : ∀ {fields text}, text <+: toString (.obj fields) →
    text ≠ toString (.obj fields) → fromStr text = none
  /-- Characters behind an object are an error. -/
  fromStr_trailing : ∀ first second,
    fromStr (toString (.obj first) ++ toString (.obj second)) = none

namespace SerdeJson

/-- The compact printer and its reader satisfy the laws. -/
def compact : SerdeJson where
  toString := Json.print
  fromStr := Json.parse
  fromStr_toString := Json.parse_print
  toString_printable := Json.print_printable
  toString_obj := Json.print_obj_head
  fromStr_torn := Json.parse_torn
  fromStr_trailing := Json.parse_trailing

variable (serde : SerdeJson)

theorem toString_oneLine (v : Json) : LineFile.OneLine (serde.toString v) := by
  constructor
  · intro hmem
    exact absurd (serde.toString_printable v _ hmem) (by decide)
  · intro hmem
    exact absurd (serde.toString_printable v _ hmem) (by decide)

theorem toString_obj_not_blank (fields : List (String × Json)) :
    LineFile.isBlank (serde.toString (.obj fields)) = false := by
  obtain ⟨cs, hcs⟩ := serde.toString_obj fields
  rw [hcs]
  simp [LineFile.isBlank, LineFile.isWhiteSpace]

/-! ## The text of an object at the end of a file -/

open LineFile

variable {serde} {fields : List (String × Json)} {text : List Char} {k : Nat}

theorem encode_take_ne_nil (serde : SerdeJson) (fields : List (String × Json)) (hk : k ≠ 0) :
    (encode (serde.toString (.obj fields))).take k ≠ [] := by
  obtain ⟨cs, hcs⟩ := serde.toString_obj fields
  have hhead : encode ('{' :: cs) = 123 :: encode cs := rfl
  rw [hcs, hhead]
  cases k with
  | zero => exact absurd rfl hk
  | succ k => exact List.cons_ne_nil _ _

/-- What is left of a cut text is one line. -/
theorem readLines_torn (serde : SerdeJson) (fields : List (String × Json)) (hk : k ≠ 0) :
    readLines ((encode (serde.toString (.obj fields))).take k) =
      [decode ((encode (serde.toString (.obj fields))).take k)] := by
  have hn : newline ∉ (encode (serde.toString (.obj fields))).take k := fun hmem =>
    newline_not_mem_encode (serde.toString_oneLine _) (List.mem_of_mem_take hmem)
  rw [readLines, splitLines_of_tail hn (serde.encode_take_ne_nil fields hk)]
  rfl

theorem readLines_obj (serde : SerdeJson) (fields : List (String × Json)) :
    readLines (encode (serde.toString (.obj fields))) = [some (serde.toString (.obj fields))] := by
  have hk : (encode (serde.toString (.obj fields))).length ≠ 0 := by
    intro hzero
    apply serde.encode_take_ne_nil fields Nat.one_ne_zero
    rw [List.length_eq_zero_iff.mp hzero, List.take_nil]
  have hline := serde.readLines_torn fields hk
  rwa [List.take_length, decode_encode] at hline

/-- It reads as nothing, unless only the newline is lost. -/
theorem fromStr_of_decode_torn (hk : k ≠ 0)
    (hdecode : decode ((encode (serde.toString (.obj fields))).take k) = some text) :
    isBlank text = false ∧
      (text = serde.toString (.obj fields) ∨ serde.fromStr text = none) := by
  have hpiece := eq_encode_of_decode hdecode
  have hfront : text <+: serde.toString (.obj fields) := by
    apply prefix_of_encode_append ((encode (serde.toString (.obj fields))).drop k)
    rw [← hpiece, List.take_append_drop]
  constructor
  · obtain ⟨cs, hcs⟩ := serde.toString_obj fields
    cases text with
    | nil => exact absurd hpiece (serde.encode_take_ne_nil fields hk)
    | cons c rest =>
        rw [hcs, List.cons_prefix_cons] at hfront
        rw [hfront.1]
        simp [isBlank, isWhiteSpace]
  · by_cases hwhole : text = serde.toString (.obj fields)
    · exact .inl hwhole
    · exact .inr (serde.fromStr_torn hfront hwhole)

/-- A line written behind a text that lost its newline is on the same line. -/
theorem readLines_glued (serde : SerdeJson) (first second : Json) :
    readLines (encode (serde.toString first) ++ (encode (serde.toString second) ++ [newline])) =
      [some (serde.toString first ++ serde.toString second)] := by
  have hfirst := serde.toString_oneLine first
  have hsecond := serde.toString_oneLine second
  have hone : OneLine (serde.toString first ++ serde.toString second) :=
    ⟨by simp [hfirst.1, hsecond.1], by simp [hfirst.2, hsecond.2]⟩
  have hfile : encode (serde.toString first) ++ (encode (serde.toString second) ++ [newline]) =
      writeLines [serde.toString first ++ serde.toString second] := by
    simp [writeLines]
  rw [hfile, readLines_writeLines (by simpa using hone)]
  rfl

end SerdeJson

end Zeptobeam
