/-
JSON values, their compact text and a reader for it.  A number is kept as the
literal it is written with, so that integers and decimal fractions of any size
are covered by one constructor.
-/
import Mathlib.Data.List.TakeWhile

namespace JsonNumber

def isNumberChar (c : Char) : Bool :=
  c.isDigit || c == '-' || c == '+' || c == '.' || c == 'e' || c == 'E'

/-- A literal without its minus sign. -/
def unsigned : List Char → List Char
  | [] => []
  | c :: rest => if c = '-' then rest else c :: rest

def exponentOk : List Char → Bool
  | [] => true
  | c :: rest =>
      let digits := match rest with
        | '+' :: ds => ds
        | ds => unsigned ds
      (c == 'e' || c == 'E') && !digits.isEmpty && digits.all Char.isDigit

def fractionOk : List Char → Bool
  | '.' :: rest =>
      rest.head?.any Char.isDigit && exponentOk (rest.dropWhile Char.isDigit)
  | rest => exponentOk rest

/-- The literal grammar: a sign, digits, a fraction and an exponent. -/
def literalOk (text : List Char) : Bool :=
  text.all isNumberChar && (unsigned text).head?.any Char.isDigit &&
    fractionOk ((unsigned text).dropWhile Char.isDigit)

end JsonNumber

/-- A JSON number, by its literal. -/
structure JsonNumber where
  text : List Char
  valid : JsonNumber.literalOk text = true
deriving DecidableEq

namespace JsonNumber

theorem isDigit_of_mem {n : Nat} {c : Char} (hc : c ∈ Nat.toDigits 10 n) :
    c.isDigit = true :=
  Nat.isDigit_of_mem_toDigits (by decide) (by decide) hc

theorem unsigned_toDigits (n : Nat) :
    unsigned (Nat.toDigits 10 n) = Nat.toDigits 10 n := by
  cases hds : Nat.toDigits 10 n with
  | nil => rfl
  | cons d ds =>
      have hd : d.isDigit = true := isDigit_of_mem (by rw [hds]; simp)
      have hsign : d ≠ '-' := by
        rintro rfl
        exact absurd hd (by decide)
      simp [unsigned, hsign]

theorem literalOk_of_unsigned {text : List Char} {n : Nat}
    (hchars : text.all isNumberChar = true)
    (hunsigned : unsigned text = Nat.toDigits 10 n) : literalOk text = true := by
  have hrest : (Nat.toDigits 10 n).dropWhile Char.isDigit = [] := by
    rw [List.dropWhile_eq_nil_iff]
    exact fun c hc => isDigit_of_mem hc
  have hhead : (Nat.toDigits 10 n).head?.any Char.isDigit = true := by
    cases hds : Nat.toDigits 10 n with
    | nil => exact absurd hds Nat.toDigits_ne_nil
    | cons d ds => exact isDigit_of_mem (n := n) (by rw [hds]; simp)
  simp [literalOk, hchars, hunsigned, hrest, hhead, fractionOk, exponentOk]

theorem toDigits_all_numberChar (n : Nat) :
    (Nat.toDigits 10 n).all isNumberChar = true := by
  rw [List.all_eq_true]
  intro c hc
  simp [isNumberChar, isDigit_of_mem hc]

def ofNat (n : Nat) : JsonNumber :=
  ⟨Nat.toDigits 10 n, literalOk_of_unsigned (toDigits_all_numberChar n)
    (unsigned_toDigits n)⟩

def ofInt : Int → JsonNumber
  | .ofNat n => ofNat n
  | .negSucc n =>
      ⟨'-' :: Nat.toDigits 10 (n + 1),
        literalOk_of_unsigned (n := n + 1)
          (by simpa [isNumberChar] using toDigits_all_numberChar (n + 1))
          (by simp [unsigned])⟩

/-- The number as a natural number, when its literal is digits only. -/
def toNat? (number : JsonNumber) : Option Nat :=
  if number.text.all Char.isDigit then
    some (Nat.ofDigitChars 10 number.text 0)
  else none

def toInt? (number : JsonNumber) : Option Int :=
  if (unsigned number.text).all Char.isDigit then
    let magnitude : Int := Nat.ofDigitChars 10 (unsigned number.text) 0
    some (if number.text.head? = some '-' then -magnitude else magnitude)
  else none

theorem toDigits_all_isDigit (n : Nat) :
    (Nat.toDigits 10 n).all Char.isDigit = true := by
  rw [List.all_eq_true]
  exact fun c hc => isDigit_of_mem hc

@[simp]
theorem toNat?_ofNat (n : Nat) : (ofNat n).toNat? = some n := by
  simp [toNat?, ofNat, toDigits_all_isDigit]

@[simp]
theorem toInt?_ofInt (i : Int) : (ofInt i).toInt? = some i := by
  cases i with
  | ofNat n =>
      have hhead : (Nat.toDigits 10 n).head? ≠ some '-' := by
        intro h
        exact absurd (isDigit_of_mem (n := n) (List.mem_of_mem_head? h)) (by decide)
      simp [toInt?, ofInt, ofNat, unsigned_toDigits, toDigits_all_isDigit, hhead]
  | negSucc n =>
      simp [toInt?, ofInt, unsigned, toDigits_all_isDigit, Int.negSucc_eq]

end JsonNumber

inductive Json where
  | null
  | bool (value : Bool)
  | num (number : JsonNumber)
  | str (value : String)
  | arr (items : List Json)
  | obj (fields : List (String × Json))

namespace Json

/-! ## Typed access -/

/-- A required field of a record: missing and repeated fields are errors. -/
def field? (fields : List (String × Json)) (key : String) : Option Json :=
  match fields.filter fun field => field.1 == key with
  | [field] => some field.2
  | _ => none

/-- An optional field of a record: it may be missing, and `null` reads as
absent. -/
def optionField? (fields : List (String × Json)) (key : String) :
    Option (Option Json) :=
  match fields.filter fun field => field.1 == key with
  | [] => some none
  | [field] =>
      match field.2 with
      | .null => some none
      | value => some (some value)
  | _ => none

/-- The value of a key, when the value is an object that has it. -/
def get? (value : Json) (key : String) : Option Json :=
  match value with
  | .obj fields => (fields.find? fun field => field.1 == key).map Prod.snd
  | _ => none

def toBool? : Json → Option Bool
  | .bool value => some value
  | _ => none

def toArray? : Json → Option (List Json)
  | .arr items => some items
  | _ => none

def toString? : Json → Option String
  | .str value => some value
  | _ => none

def ofNat (n : Nat) : Json := .num (.ofNat n)

def ofInt (i : Int) : Json := .num (.ofInt i)

def toNat? : Json → Option Nat
  | .num number => number.toNat?
  | _ => none

def toInt? : Json → Option Int
  | .num number => number.toInt?
  | _ => none

@[simp]
theorem toNat?_ofNat (n : Nat) : (ofNat n).toNat? = some n :=
  JsonNumber.toNat?_ofNat n

@[simp]
theorem toInt?_ofInt (i : Int) : (ofInt i).toInt? = some i :=
  JsonNumber.toInt?_ofInt i

/-! ## The compact text -/

def hexDigit (n : Nat) : Char :=
  if n < 10 then Char.ofNat (48 + n) else Char.ofNat (87 + n)

/-- A character inside a string literal. -/
def printChar (c : Char) : List Char :=
  if c = '"' then ['\\', '"']
  else if c = '\\' then ['\\', '\\']
  else if c.toNat = 8 then ['\\', 'b']
  else if c.toNat = 9 then ['\\', 't']
  else if c.toNat = 10 then ['\\', 'n']
  else if c.toNat = 12 then ['\\', 'f']
  else if c.toNat = 13 then ['\\', 'r']
  else if c.toNat < 32 then
    ['\\', 'u', '0', '0', hexDigit (c.toNat / 16), hexDigit (c.toNat % 16)]
  else [c]

def printString (s : String) : List Char :=
  '"' :: (s.toList.flatMap printChar ++ ['"'])

mutual

/-- The compact text of a value, with no space between tokens. -/
def print : Json → List Char
  | .null => ['n', 'u', 'l', 'l']
  | .bool true => ['t', 'r', 'u', 'e']
  | .bool false => ['f', 'a', 'l', 's', 'e']
  | .num number => number.text
  | .str value => printString value
  | .arr [] => ['[', ']']
  | .arr (item :: items) => '[' :: (item.print ++ printItems items)
  | .obj [] => ['{', '}']
  | .obj ((key, value) :: fields) =>
      '{' :: (printString key ++ ':' :: (value.print ++ printFields fields))

def printItems : List Json → List Char
  | [] => [']']
  | item :: items => ',' :: (item.print ++ printItems items)

def printFields : List (String × Json) → List Char
  | [] => ['}']
  | (key, value) :: fields =>
      ',' :: (printString key ++ ':' :: (value.print ++ printFields fields))

end

/-! ## The reader -/

def isSpace (c : Char) : Bool :=
  c == ' ' || c == '\t' || c == '\n' || c == '\r'

def skipSpace (text : List Char) : List Char :=
  text.dropWhile isSpace

def hexValue (c : Char) : Option Nat :=
  if c.isDigit then some (c.toNat - 48)
  else if 'a' ≤ c ∧ c ≤ 'f' then some (c.toNat - 87)
  else if 'A' ≤ c ∧ c ≤ 'F' then some (c.toNat - 55)
  else none

def unescape (c : Char) : Option Char :=
  if c = '"' then some '"'
  else if c = '\\' then some '\\'
  else if c = '/' then some '/'
  else if c = 'b' then some (Char.ofNat 8)
  else if c = 't' then some '\t'
  else if c = 'n' then some '\n'
  else if c = 'f' then some (Char.ofNat 12)
  else if c = 'r' then some '\r'
  else none

/-- The rest of a string literal, after its opening quote.  Escaped surrogates
are refused; the printer never writes one. -/
def parseString : List Char → Option (List Char × List Char)
  | [] => none
  | '"' :: rest => some ([], rest)
  | '\\' :: 'u' :: a :: b :: c :: d :: rest => do
      let n := 4096 * (← hexValue a) + 256 * (← hexValue b) +
        16 * (← hexValue c) + (← hexValue d)
      if 0xd800 ≤ n ∧ n ≤ 0xdfff then none
      else
        let (chars, rest) ← parseString rest
        some (Char.ofNat n :: chars, rest)
  | '\\' :: e :: rest => do
      let ch ← unescape e
      let (chars, rest) ← parseString rest
      some (ch :: chars, rest)
  | c :: rest =>
      if c.toNat < 32 ∨ c = '\\' then none
      else do
        let (chars, rest) ← parseString rest
        some (c :: chars, rest)

def parseNumber (text : List Char) : Option (Json × List Char) :=
  let literal := text.takeWhile JsonNumber.isNumberChar
  if h : JsonNumber.literalOk literal = true then
    some (.num ⟨literal, h⟩, text.dropWhile JsonNumber.isNumberChar)
  else none

/-- Read exactly the characters of `word`. -/
def expect : List Char → List Char → Option (List Char)
  | [], text => some text
  | _ :: _, [] => none
  | w :: word, c :: text => if w = c then expect word text else none

mutual

/-- Read one value off the front of a text. -/
def parseValue : Nat → List Char → Option (Json × List Char)
  | 0, _ => none
  | fuel + 1, text =>
      match skipSpace text with
      | [] => none
      | c :: rest =>
          if c = '"' then do
            let (chars, rest) ← parseString rest
            some (.str (String.ofList chars), rest)
          else if c = '[' then
            match skipSpace rest with
            | [] => none
            | d :: after =>
                if d = ']' then some (.arr [], after)
                else do
                  let (item, rest) ← parseValue fuel (d :: after)
                  let (items, rest) ← parseItems fuel rest
                  some (.arr (item :: items), rest)
          else if c = '{' then
            match skipSpace rest with
            | [] => none
            | d :: after =>
                if d = '}' then some (.obj [], after)
                else do
                  let (field, rest) ← parseField fuel (d :: after)
                  let (fields, rest) ← parseFields fuel rest
                  some (.obj (field :: fields), rest)
          else if c = 'n' then (expect ['u', 'l', 'l'] rest).map (.null, ·)
          else if c = 't' then (expect ['r', 'u', 'e'] rest).map (.bool true, ·)
          else if c = 'f' then
            (expect ['a', 'l', 's', 'e'] rest).map (.bool false, ·)
          else parseNumber (c :: rest)

/-- Read the items behind the first one, and the closing bracket. -/
def parseItems : Nat → List Char → Option (List Json × List Char)
  | 0, _ => none
  | fuel + 1, text =>
      match skipSpace text with
      | [] => none
      | c :: rest =>
          if c = ']' then some ([], rest)
          else if c = ',' then do
            let (item, rest) ← parseValue fuel rest
            let (items, rest) ← parseItems fuel rest
            some (item :: items, rest)
          else none

def parseField : Nat → List Char → Option ((String × Json) × List Char)
  | 0, _ => none
  | fuel + 1, text =>
      match skipSpace text with
      | [] => none
      | c :: rest =>
          if c = '"' then do
            let (key, rest) ← parseString rest
            let rest ← expect [':'] (skipSpace rest)
            let (value, rest) ← parseValue fuel rest
            some ((String.ofList key, value), rest)
          else none

def parseFields : Nat → List Char → Option (List (String × Json) × List Char)
  | 0, _ => none
  | fuel + 1, text =>
      match skipSpace text with
      | [] => none
      | c :: rest =>
          if c = '}' then some ([], rest)
          else if c = ',' then do
            let (field, rest) ← parseField fuel rest
            let (fields, rest) ← parseFields fuel rest
            some (field :: fields, rest)
          else none

end

/-- Read a text that is one value and nothing else. -/
def parse (text : List Char) : Option Json := do
  let (value, rest) ← parseValue (2 * text.length + 1) text
  if (skipSpace rest).isEmpty then some value else none

end Json
