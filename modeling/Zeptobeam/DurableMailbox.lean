/-
The durable mailbox: a write-ahead log of messages with a header line, and an
ack mark in a file of its own.  Each operation works on the bytes of the files
as the source does; every system call succeeds, so what is left of the errors
are the ones about what the files hold.  The log's writer is always open.
-/
import Zeptobeam.Types

namespace Zeptobeam

open LineFile

structure WalHeader where
  schemaVersion : Nat
  fileType : String
  stableId : String

def WalHeader.toJson (header : WalHeader) : Json :=
  .obj [("schema_version", .ofNat header.schemaVersion),
    ("type", .str header.fileType), ("stable_id", .str header.stableId)]

structure WalEntry where
  seq : Nat
  ts : Int
  msg : Message
deriving DecidableEq

namespace WalEntry

def toJson (entry : WalEntry) : Json :=
  .obj [("seq", .ofNat entry.seq), ("ts", .ofInt entry.ts), ("msg", entry.msg.toJson)]

def fromJson : Json → Option WalEntry
  | .obj fields => do
      let seq ← (← Json.field? fields "seq").toNat?
      let ts ← (← Json.field? fields "ts").toInt?
      let msg ← Message.fromJson (← Json.field? fields "msg")
      some ⟨seq, ts, msg⟩
  | _ => none

@[simp]
theorem fromJson_toJson (entry : WalEntry) : fromJson entry.toJson = some entry := by
  simp [toJson, fromJson, Json.field?]

end WalEntry

/-- The files of one stable id in the mailbox directory. -/
structure MailboxDir where
  wal : Option Bytes
  ack : Option Bytes
  walTmp : Option Bytes
  ackTmp : Option Bytes

namespace MailboxDir

def empty : MailboxDir := ⟨none, none, none, none⟩

/-- `rename` of `{stable_id}.ack.tmp` over `{stable_id}.ack`. -/
def renameAckTmp (dir : MailboxDir) : MailboxDir :=
  { dir with ack := dir.ackTmp, ackTmp := none }

/-- `rename` of `{stable_id}.wal.tmp` over `{stable_id}.wal`. -/
def renameWalTmp (dir : MailboxDir) : MailboxDir :=
  { dir with wal := dir.walTmp, walTmp := none }

end MailboxDir

structure DurableMailbox where
  stableId : String
  sequence : Nat
  lastAckedSeq : Nat
deriving DecidableEq

/-- `str::parse::<u64>`: decimal digits with an optional plus sign. -/
def parseU64 (text : List Char) : Option Nat :=
  let digits := match text with
    | '+' :: rest => rest
    | digits => digits
  if digits ≠ [] ∧ digits.all Char.isDigit then
    some (Nat.ofDigitChars 10 digits 0)
  else none

theorem isDigit_of_mem_toDigits {n : Nat} {c : Char} (hc : c ∈ Nat.toDigits 10 n) :
    c.isDigit = true :=
  Nat.isDigit_of_mem_toDigits (by decide) (by decide) hc

theorem isWhiteSpace_of_isDigit {c : Char} (hc : c.isDigit = true) :
    isWhiteSpace c = false := by
  have hrange : 48 ≤ c.toNat ∧ c.toNat ≤ 57 := Char.isDigit_iff_toNat.mp hc
  simp only [isWhiteSpace, Bool.or_eq_false_iff, Bool.and_eq_false_iff,
    decide_eq_false_iff_not, beq_eq_false_iff_ne]
  omega

theorem parseU64_toDigits (n : Nat) : parseU64 (Nat.toDigits 10 n) = some n := by
  have hall : (Nat.toDigits 10 n).all Char.isDigit = true := by
    rw [List.all_eq_true]
    intro c hc
    exact isDigit_of_mem_toDigits hc
  have hne : Nat.toDigits 10 n ≠ [] := Nat.toDigits_ne_nil
  have hdigits : Nat.ofDigitChars 10 (Nat.toDigits 10 n) 0 = n := by simp
  revert hall hne hdigits
  cases Nat.toDigits 10 n with
  | nil =>
      intro _ hne _
      exact absurd rfl hne
  | cons c rest =>
      intro hall hne hdigits
      by_cases hplus : c = '+'
      · subst hplus
        exact absurd hall (by simp)
      · simp [parseU64, hplus, hall, hdigits]

namespace DurableMailbox

variable (serde : SerdeJson)

def schemaVersion : Nat := 1

/-- One record and its newline, as `writeln!` puts them. -/
def line (value : Json) : Bytes := encode (serde.toString value) ++ [newline]

def headerLine (stableId : String) : Bytes :=
  line serde (WalHeader.toJson ⟨schemaVersion, "wal", stableId⟩)

/-- `serde_json::from_str::<WalEntry>`. -/
def readEntry (text : List Char) : Option WalEntry :=
  (serde.fromStr text).bind WalEntry.fromJson

/-- The recovery scan of `open`: the highest sequence of the entries that parse. -/
def scanMaxSeq : Bool → Nat → List (Option (List Char)) → Except AgentRtError Nat
  | _, maxSeq, [] => .ok maxSeq
  | _, _, none :: _ => .error (.durableMailbox "read wal: ")
  | first, maxSeq, some text :: rest =>
      if isBlank text then scanMaxSeq first maxSeq rest
      else if first then scanMaxSeq false maxSeq rest
      else
        match readEntry serde text with
        | some entry =>
            scanMaxSeq false (if entry.seq > maxSeq then entry.seq else maxSeq) rest
        | none => scanMaxSeq false maxSeq rest

def readAck : Option Bytes → Except AgentRtError Nat
  | none => .ok 0
  | some content =>
      match decode content with
      | none => .error (.durableMailbox "read ack: ")
      | some text =>
          match parseU64 (trim text) with
          | none => .error (.durableMailbox "bad ack file: ")
          | some seq => .ok seq

def «open» (stableId : String) (dir : MailboxDir) :
    Except AgentRtError (DurableMailbox × MailboxDir) := do
  let lastAckedSeq ← readAck dir.ack
  match dir.wal with
  | some file => do
      let maxSeq ← scanMaxSeq serde true 0 (readLines file)
      .ok (⟨stableId, maxSeq, lastAckedSeq⟩, dir)
  | none =>
      .ok (⟨stableId, 0, lastAckedSeq⟩,
        { dir with wal := some (headerLine serde stableId) })

/-- `append` at the time `now`, in seconds. -/
def append (mailbox : DurableMailbox) (dir : MailboxDir) (now : Int) (msg : Message) :
    Nat × DurableMailbox × MailboxDir :=
  let sequence := mailbox.sequence + 1
  let entry : WalEntry := ⟨sequence, now, msg⟩
  (sequence, { mailbox with sequence },
    { dir with wal := dir.wal.map (· ++ line serde entry.toJson) })

/-- The loop of `replay`: a line that is no entry is an error. -/
def replayLines (lastAckedSeq : Nat) :
    Bool → List (Option (List Char)) → Except AgentRtError (List WalEntry)
  | _, [] => .ok []
  | _, none :: _ => .error (.durableMailbox "read replay: ")
  | first, some text :: rest =>
      if isBlank text then replayLines lastAckedSeq first rest
      else if first then replayLines lastAckedSeq false rest
      else
        match readEntry serde text with
        | none => .error (.durableMailbox "bad entry: ")
        | some entry => do
            let entries ← replayLines lastAckedSeq false rest
            .ok (if entry.seq > lastAckedSeq then entry :: entries else entries)

def replay (mailbox : DurableMailbox) (dir : MailboxDir) :
    Except AgentRtError (List WalEntry) :=
  match dir.wal with
  | none => .ok []
  | some file => replayLines serde mailbox.lastAckedSeq true (readLines file)

def ack (mailbox : DurableMailbox) (dir : MailboxDir) (seq : Nat) :
    Except AgentRtError (DurableMailbox × MailboxDir) :=
  if seq ≤ mailbox.lastAckedSeq then
    .error (.durableMailbox
      s!"ack seq {seq} must be greater than last acked {mailbox.lastAckedSeq}")
  else if seq > mailbox.sequence then
    .error (.durableMailbox s!"ack seq {seq} exceeds current seq {mailbox.sequence}")
  else
    let dir := { dir with ackTmp := some (encode (Nat.toDigits 10 seq)) }
    .ok ({ mailbox with lastAckedSeq := seq }, dir.renameAckTmp)

/-- The loop of `replay_all`: a line that is no entry is passed over. -/
def replayAllLines :
    Bool → List (Option (List Char)) → Except AgentRtError (List WalEntry)
  | _, [] => .ok []
  | _, none :: _ => .error (.durableMailbox "read: ")
  | first, some text :: rest =>
      if isBlank text then replayAllLines first rest
      else if first then replayAllLines false rest
      else do
        let entries ← replayAllLines false rest
        .ok ((readEntry serde text).toList ++ entries)

def replayAll (dir : MailboxDir) : Except AgentRtError (List WalEntry) :=
  match dir.wal with
  | none => .ok []
  | some file => replayAllLines serde true (readLines file)

def truncate (mailbox : DurableMailbox) (dir : MailboxDir) :
    Except AgentRtError (DurableMailbox × MailboxDir) := do
  let entries ← replayAll serde dir
  let kept := entries.filter fun entry => entry.seq > mailbox.lastAckedSeq
  let file := headerLine serde mailbox.stableId ++
    kept.flatMap fun entry => line serde entry.toJson
  let dir := { dir with walTmp := some file }
  .ok (mailbox, dir.renameWalTmp)

end DurableMailbox

end Zeptobeam
