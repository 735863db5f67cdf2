/-
UTF-8 text files that are read line by line.  A file is a list of bytes, a line
is decoded on its own, and the laws say what a reader sees of a file to which
whole lines were appended, and of one whose last line was cut.
-/
import Mathlib.Data.List.Basic

namespace LineFile

abbrev Bytes := List UInt8

def newline : UInt8 := 10

def carriageReturn : UInt8 := 13

/-- The UTF-8 bytes of a text. -/
def encode (text : List Char) : Bytes :=
  text.flatMap String.utf8EncodeChar

/-- The text of a byte string, when the bytes are valid UTF-8. -/
def decode (bytes : Bytes) : Option (List Char) :=
  bytes.toByteArray.utf8Decode?.map Array.toList

@[simp]
theorem encode_nil : encode [] = [] := rfl

@[simp]
theorem encode_append (left right : List Char) :
    encode (left ++ right) = encode left ++ encode right := by
  simp [encode]

theorem toByteArray_encode (text : List Char) :
    (encode text).toByteArray = text.utf8Encode := by
  simp [encode, List.utf8Encode]

@[simp]
theorem decode_encode (text : List Char) : decode (encode text) = some text := by
  simp [decode, toByteArray_encode]

theorem encode_ne_nil {text : List Char} (htext : text ≠ []) : encode text ≠ [] := by
  intro hnil
  have hdecode := decode_encode text
  rw [hnil, ← encode_nil, decode_encode] at hdecode
  exact htext (Option.some.inj hdecode).symm

theorem eq_encode_of_decode {bytes : Bytes} {text : List Char}
    (h : decode bytes = some text) : bytes = encode text := by
  simp only [decode, Option.map_eq_some_iff] at h
  obtain ⟨chars, hchars, rfl⟩ := h
  have hget : bytes.toByteArray.utf8Decode?.get (by simp [hchars]) = chars := by
    simp [hchars]
  have hutf8 : chars.toList.utf8Encode = bytes.toByteArray := by
    rw [← hget, ByteArray.utf8Encode_get_utf8Decode?]
  rw [← toByteArray_encode] at hutf8
  simpa using (congrArg (fun array => array.data.toList) hutf8).symm

/-- A decodable piece at the front of an encoded text is a piece of the text. -/
theorem prefix_of_encode_append {piece text : List Char} (rest : Bytes)
    (h : encode piece ++ rest = encode text) : piece <+: text := by
  apply List.isPrefix_of_utf8Encode_append_eq_utf8Encode rest.toByteArray
  rw [← toByteArray_encode, ← toByteArray_encode, ← h]
  simp

/-- An ASCII byte only occurs in the encoding of its own character: every byte
of a longer encoding has its top bit set. -/
theorem toNat_of_mem_encodeChar {b : UInt8} {c : Char} (hb : b.toNat < 128)
    (h : b ∈ String.utf8EncodeChar c) : c.toNat = b.toNat := by
  revert h
  fun_cases String.utf8EncodeChar c with
  | case1 =>
      intro h
      have hnat := congrArg UInt8.toNat (List.mem_singleton.mp h)
      simp only [UInt8.toNat_ofNat'] at hnat
      change c.val.toNat = b.toNat
      omega
  | case2 | case3 | case4 =>
      intro h
      simp only [List.mem_cons, List.not_mem_nil, or_false, ← UInt8.toNat_inj,
        UInt8.toNat_ofNat'] at h
      omega

theorem not_mem_encode {b : UInt8} {c : Char} {text : List Char}
    (hb : b.toNat < 128) (hbc : c.toNat = b.toNat) (h : c ∉ text) :
    b ∉ encode text := by
  intro hmem
  simp only [encode, List.mem_flatMap] at hmem
  obtain ⟨d, hd, hbyte⟩ := hmem
  have hnat := toNat_of_mem_encodeChar hb hbyte
  have hchar : d = c := Char.toNat_inj.mp (hnat.trans hbc.symm)
  exact h (hchar ▸ hd)

/-- The lines of a file.  A line ends at a newline byte, a carriage return right
before the newline is dropped with it, and bytes after the last newline are a
line of their own. -/
def splitLines : Bytes → List Bytes
  | [] => []
  | b :: rest =>
      if b = newline then [] :: splitLines rest
      else if b = carriageReturn ∧ rest.head? = some newline then
        splitLines rest
      else
        match splitLines rest with
        | [] => [[b]]
        | line :: lines => (b :: line) :: lines

/-- What a line reader yields: `none` stands for a line that is not UTF-8. -/
def readLines (file : Bytes) : List (Option (List Char)) :=
  (splitLines file).map decode

/-- A text that can stand on a line of its own. -/
def OneLine (text : List Char) : Prop :=
  '\n' ∉ text ∧ '\r' ∉ text

theorem newline_not_mem_encode {text : List Char} (htext : OneLine text) :
    newline ∉ encode text :=
  not_mem_encode (c := '\n') (by decide) (by decide) htext.1

theorem carriageReturn_not_mem_encode {text : List Char} (htext : OneLine text) :
    carriageReturn ∉ encode text :=
  not_mem_encode (c := '\r') (by decide) (by decide) htext.2

/-- The bytes of whole lines, each ended by a newline. -/
def writeLines (texts : List (List Char)) : Bytes :=
  texts.flatMap fun text => encode text ++ [newline]

theorem splitLines_of_line {line : Bytes} (rest : Bytes) (hn : newline ∉ line)
    (hr : carriageReturn ∉ line) :
    splitLines (line ++ newline :: rest) = line :: splitLines rest := by
  induction line with
  | nil => simp [splitLines]
  | cons b line ih =>
      simp only [List.mem_cons, not_or] at hn hr
      have hb : b ≠ newline := Ne.symm hn.1
      have hb' : b ≠ carriageReturn := Ne.symm hr.1
      simp [splitLines, hb, hb', ih hn.2 hr.2]

/-- Bytes after the last newline are one more line. -/
theorem splitLines_of_tail {tail : Bytes} (hn : newline ∉ tail) (hne : tail ≠ []) :
    splitLines tail = [tail] := by
  induction tail with
  | nil => exact absurd rfl hne
  | cons b tail ih =>
      simp only [List.mem_cons, not_or] at hn
      have hb : b ≠ newline := Ne.symm hn.1
      have hhead : tail.head? ≠ some newline := by
        intro h
        exact hn.2 (List.mem_of_mem_head? h)
      rw [splitLines, if_neg hb, if_neg fun h => hhead h.2]
      cases tail with
      | nil => rfl
      | cons b' tail => rw [ih hn.2 (by simp)]

@[simp]
theorem writeLines_nil : writeLines [] = [] := rfl

@[simp]
theorem writeLines_append (first last : List (List Char)) :
    writeLines (first ++ last) = writeLines first ++ writeLines last := by
  simp [writeLines]

theorem writeLines_singleton (text : List Char) :
    writeLines [text] = encode text ++ [newline] := by
  simp [writeLines]

/-- A reader gets back the whole lines that were written, and then whatever the
bytes behind them read as. -/
theorem readLines_writeLines_append {texts : List (List Char)}
    (htexts : ∀ text ∈ texts, OneLine text) (rest : Bytes) :
    readLines (writeLines texts ++ rest) = texts.map some ++ readLines rest := by
  induction texts with
  | nil => simp
  | cons text texts ih =>
      have htext := htexts text List.mem_cons_self
      have hsplit := splitLines_of_line (writeLines texts ++ rest)
        (newline_not_mem_encode htext) (carriageReturn_not_mem_encode htext)
      have htail := ih fun other hother =>
        htexts other (List.mem_cons_of_mem text hother)
      have hbytes : writeLines (text :: texts) ++ rest =
          encode text ++ newline :: (writeLines texts ++ rest) := by
        simp [writeLines]
      rw [readLines, hbytes, hsplit, List.map_cons, decode_encode]
      simpa [readLines] using htail

theorem readLines_writeLines {texts : List (List Char)}
    (htexts : ∀ text ∈ texts, OneLine text) :
    readLines (writeLines texts) = texts.map some := by
  simpa [readLines, splitLines] using readLines_writeLines_append htexts []

/-- The file cut inside its last line, `k` bytes behind the line's start; its final
newline is gone in any case. -/
def cutLastLine (file : Bytes) (k : Nat) : Bytes :=
  let body := file.dropLast
  let lastLine := (body.reverse.takeWhile fun b => b ≠ newline).reverse
  body.take (body.length - lastLine.length) ++ lastLine.take k

theorem cutLastLine_writeLines {text : List Char} (texts : List (List Char))
    (htext : OneLine text) (k : Nat) :
    cutLastLine (writeLines (texts ++ [text])) k =
      writeLines texts ++ (encode text).take k := by
  have hbody : (writeLines (texts ++ [text])).dropLast =
      writeLines texts ++ encode text := by
    rw [writeLines_append, writeLines_singleton, ← List.append_assoc,
      List.dropLast_concat]
  have hline : ∀ b ∈ (encode text).reverse, (decide (b ≠ newline)) = true := by
    intro b hb
    have hne : b ≠ newline := by
      rintro rfl
      exact newline_not_mem_encode htext (List.mem_reverse.mp hb)
    simpa using hne
  have hstop : (writeLines texts).reverse.takeWhile (fun b => b ≠ newline) = [] := by
    rcases List.eq_nil_or_concat texts with rfl | ⟨first, last, rfl⟩
    · rfl
    · rw [List.concat_eq_append, writeLines_append, writeLines_singleton,
        ← List.append_assoc, List.reverse_concat, List.takeWhile_cons]
      simp
  have hlast : ((writeLines texts ++ encode text).reverse.takeWhile
      fun b => b ≠ newline).reverse = encode text := by
    rw [List.reverse_append, List.takeWhile_append_of_pos hline, hstop, List.append_nil,
      List.reverse_reverse]
  simp only [cutLastLine, hbody, hlast, List.length_append, Nat.add_sub_cancel,
    List.take_left']

/-- The Unicode `White_Space` characters, the ones a text is trimmed of. -/
def isWhiteSpace (c : Char) : Bool :=
  let v := c.toNat
  (9 ≤ v && v ≤ 13) || v == 32 || v == 0x85 || v == 0xa0 || v == 0x1680 ||
    (0x2000 ≤ v && v ≤ 0x200a) || v == 0x2028 || v == 0x2029 || v == 0x202f ||
    v == 0x205f || v == 0x3000

/-- Nothing is left of the text after trimming. -/
def isBlank (text : List Char) : Bool :=
  text.all isWhiteSpace

/-- The text without the white space at both its ends. -/
def trim (text : List Char) : List Char :=
  ((text.dropWhile isWhiteSpace).reverse.dropWhile isWhiteSpace).reverse

theorem dropWhile_isWhiteSpace {text : List Char}
    (htext : ∀ c ∈ text, isWhiteSpace c = false) :
    text.dropWhile isWhiteSpace = text := by
  cases text with
  | nil => rfl
  | cons c text => simp [htext c List.mem_cons_self]

/-- Trimming leaves a text alone that has no white space. -/
theorem trim_eq_self {text : List Char} (htext : ∀ c ∈ text, isWhiteSpace c = false) :
    trim text = text := by
  have hreverse : ∀ c ∈ text.reverse, isWhiteSpace c = false := by
    intro c hc
    exact htext c (List.mem_reverse.mp hc)
  rw [trim, dropWhile_isWhiteSpace htext, dropWhile_isWhiteSpace hreverse,
    List.reverse_reverse]

end LineFile
