/-
What the files of a durable mailbox stand for.  A journal is the list of entries
in the log together with the ack mark; the operations on files refine simple
operations on journals, one equation for each, and so do runs of operations.
-/
import Zeptobeam.DurableMailbox
import Zeptobeam.Lib.GuardedRun

namespace Zeptobeam

open LineFile

namespace DurableMailbox

variable (serde : SerdeJson)

def entryText (entry : WalEntry) : List Char := serde.toString entry.toJson

def headerText (stableId : String) : List Char :=
  serde.toString (WalHeader.toJson ⟨schemaVersion, "wal", stableId⟩)

/-- The entries as a reader of the log sees them. -/
def entryLines (entries : List WalEntry) : List (Option (List Char)) :=
  entries.map fun entry => some (entryText serde entry)

def walTexts (stableId : String) (entries : List WalEntry) : List (List Char) :=
  headerText serde stableId :: entries.map (entryText serde)

/-- The log file that holds the given entries. -/
def walBytes (stableId : String) (entries : List WalEntry) : Bytes :=
  writeLines (walTexts serde stableId entries)

/-- The ack file for a mark; nothing is written before the first ack. -/
def ackBytes (acked : Nat) : Option Bytes :=
  if acked = 0 then none else some (encode (Nat.toDigits 10 acked))

def files (stableId : String) (entries : List WalEntry) (acked : Nat) : MailboxDir :=
  ⟨some (walBytes serde stableId entries), ackBytes acked, none, none⟩

/-- The highest sequence among the entries, 0 when there is none. -/
def maxSeq (entries : List WalEntry) : Nat :=
  (entries.map WalEntry.seq).foldl max 0

theorem walTexts_oneLine (stableId : String) (entries : List WalEntry) :
    ∀ text ∈ walTexts serde stableId entries, OneLine text := by
  intro text htext
  simp only [walTexts, List.mem_cons, List.mem_map] at htext
  rcases htext with rfl | ⟨entry, _, rfl⟩
  · exact serde.toString_oneLine _
  · exact serde.toString_oneLine _

theorem walBytes_append (stableId : String) (entries : List WalEntry) (entry : WalEntry) :
    walBytes serde stableId (entries ++ [entry]) =
      walBytes serde stableId entries ++ line serde entry.toJson := by
  simp [walBytes, walTexts, writeLines, line, entryText]

theorem walBytes_eq (stableId : String) (entries : List WalEntry) :
    walBytes serde stableId entries =
      headerLine serde stableId ++
        entries.flatMap fun entry => line serde entry.toJson := by
  simp [walBytes, walTexts, writeLines, line, headerLine, headerText, entryText,
    List.flatMap_map]

@[simp]
theorem headerText_not_blank (stableId : String) :
    isBlank (headerText serde stableId) = false :=
  serde.toString_obj_not_blank _

@[simp]
theorem entryText_not_blank (entry : WalEntry) :
    isBlank (entryText serde entry) = false :=
  serde.toString_obj_not_blank _

@[simp]
theorem readEntry_entryText (entry : WalEntry) :
    readEntry serde (entryText serde entry) = some entry := by
  simp [readEntry, entryText, serde.fromStr_toString]

/-! ## The loops over the lines -/

@[simp]
theorem entryLines_nil : entryLines serde [] = [] := rfl

@[simp]
theorem entryLines_cons (entry : WalEntry) (entries : List WalEntry) :
    entryLines serde (entry :: entries) =
      some (entryText serde entry) :: entryLines serde entries := rfl

theorem readLines_walBytes_append (stableId : String) (entries : List WalEntry)
    (rest : Bytes) :
    readLines (walBytes serde stableId entries ++ rest) =
      some (headerText serde stableId) :: (entryLines serde entries ++ readLines rest) := by
  rw [walBytes, readLines_writeLines_append (walTexts_oneLine serde stableId entries)]
  simp [walTexts, entryLines, List.map_map, Function.comp_def]

theorem readLines_walBytes (stableId : String) (entries : List WalEntry) :
    readLines (walBytes serde stableId entries) =
      some (headerText serde stableId) :: entryLines serde entries := by
  simpa [readLines, splitLines] using readLines_walBytes_append serde stableId entries []

theorem scanMaxSeq_entries (entries : List WalEntry) (start : Nat)
    (rest : List (Option (List Char))) :
    scanMaxSeq serde false start (entryLines serde entries ++ rest) =
      scanMaxSeq serde false ((entries.map WalEntry.seq).foldl max start) rest := by
  induction entries generalizing start with
  | nil => rfl
  | cons entry entries ih =>
      have hmax : (if entry.seq > start then entry.seq else start) =
          max start entry.seq := by
        by_cases hgt : entry.seq > start
        · rw [if_pos hgt, max_eq_right (Nat.le_of_lt hgt)]
        · rw [if_neg hgt, max_eq_left (Nat.le_of_not_lt hgt)]
      simp [scanMaxSeq, hmax, ih]

theorem replayLines_entries (acked : Nat) (entries : List WalEntry)
    (rest : List (Option (List Char))) :
    replayLines serde acked false (entryLines serde entries ++ rest) =
      (replayLines serde acked false rest).map
        (entries.filter (fun entry => acked < entry.seq) ++ ·) := by
  induction entries with
  | nil =>
      simp only [entryLines_nil, List.nil_append, List.filter_nil]
      cases replayLines serde acked false rest <;> rfl
  | cons entry entries ih =>
      simp only [entryLines_cons, List.cons_append, replayLines, entryText_not_blank,
        readEntry_entryText, ih]
      cases replayLines serde acked false rest with
      | error e => rfl
      | ok tail =>
          by_cases hgt : acked < entry.seq
          · simp [Except.map, bind, Except.bind, hgt]
          · simp [Except.map, bind, Except.bind, hgt]

theorem replayAllLines_entries (entries : List WalEntry) :
    replayAllLines serde false (entryLines serde entries) = .ok entries := by
  induction entries with
  | nil => rfl
  | cons entry entries ih => simp [replayAllLines, ih, bind, Except.bind]

/-! ## One equation for each operation -/

theorem readAck_ackBytes (acked : Nat) : readAck (ackBytes acked) = .ok acked := by
  by_cases hzero : acked = 0
  · simp [ackBytes, readAck, hzero]
  · have htrim : trim (Nat.toDigits 10 acked) = Nat.toDigits 10 acked := by
      apply trim_eq_self
      intro c hc
      exact isWhiteSpace_of_isDigit (isDigit_of_mem_toDigits hc)
    simp [ackBytes, readAck, hzero, htrim, parseU64_toDigits]

theorem open_empty (stableId : String) :
    «open» serde stableId .empty = .ok (⟨stableId, 0, 0⟩, files serde stableId [] 0) := by
  simp [«open», MailboxDir.empty, readAck, files, walBytes_eq, ackBytes, bind, Except.bind]

theorem open_files (stableId : String) (entries : List WalEntry) (acked : Nat) :
    «open» serde stableId (files serde stableId entries acked) =
      .ok (⟨stableId, maxSeq entries, acked⟩, files serde stableId entries acked) := by
  have hscan := scanMaxSeq_entries serde entries 0 []
  simp only [List.append_nil] at hscan
  simp [«open», files, readAck_ackBytes, readLines_walBytes, scanMaxSeq, hscan, maxSeq,
    bind, Except.bind]

theorem append_files (stableId : String) (entries : List WalEntry) (acked sequence : Nat)
    (now : Int) (msg : Message) :
    append serde ⟨stableId, sequence, acked⟩ (files serde stableId entries acked) now msg =
      (sequence + 1, ⟨stableId, sequence + 1, acked⟩,
        files serde stableId (entries ++ [⟨sequence + 1, now, msg⟩]) acked) := by
  simp [append, files, walBytes_append]

theorem replay_files (stableId : String) (entries : List WalEntry) (acked sequence : Nat) :
    replay serde ⟨stableId, sequence, acked⟩ (files serde stableId entries acked) =
      .ok (entries.filter fun entry => acked < entry.seq) := by
  have hlines := replayLines_entries serde acked entries []
  simp only [List.append_nil] at hlines
  simp [replay, files, readLines_walBytes, replayLines, hlines, Except.map]

theorem ack_files (stableId : String) (entries : List WalEntry) {acked sequence seq : Nat}
    (hgt : acked < seq) (hle : seq ≤ sequence) :
    ack ⟨stableId, sequence, acked⟩ (files serde stableId entries acked) seq =
      .ok (⟨stableId, sequence, seq⟩, files serde stableId entries seq) := by
  have hpos : seq ≠ 0 := by omega
  simp [ack, files, MailboxDir.renameAckTmp, ackBytes, Nat.not_le.mpr hgt,
    Nat.not_lt.mpr hle, hpos]

theorem truncate_files (stableId : String) (entries : List WalEntry)
    (acked sequence : Nat) :
    truncate serde ⟨stableId, sequence, acked⟩ (files serde stableId entries acked) =
      .ok (⟨stableId, sequence, acked⟩,
        files serde stableId (entries.filter fun entry => acked < entry.seq) acked) := by
  have hall : replayAll serde (files serde stableId entries acked) = .ok entries := by
    simp [replayAll, files, readLines_walBytes, replayAllLines, replayAllLines_entries]
  simp only [truncate, hall, bind, Except.bind]
  simp [files, walBytes_eq, MailboxDir.renameWalTmp]

end DurableMailbox

/-! ## Runs -/

/-- The calls a mailbox sees; `reopen` drops it and opens the directory again. -/
inductive MailboxOp where
  | append (now : Int) (msg : Message)
  | ack (seq : Nat)
  | truncate
  | reopen

/-- A mailbox in a run, with what the run has appended, and under which sequence
numbers, and the highest sequence it has acknowledged. -/
structure MailboxRun where
  mailbox : DurableMailbox
  dir : MailboxDir
  appended : List (Nat × Message)
  acked : Nat

namespace MailboxRun

variable (serde : SerdeJson)

def start (stableId : String) : Except AgentRtError MailboxRun := do
  let (mailbox, dir) ← DurableMailbox.open serde stableId .empty
  .ok ⟨mailbox, dir, [], 0⟩

/-- One call.  A refused ack is an answer, not a failure of the run. -/
def step (s : MailboxRun) : MailboxOp → Except AgentRtError MailboxRun
  | .append now msg =>
      let (seq, mailbox, dir) := s.mailbox.append serde s.dir now msg
      .ok { s with mailbox, dir, appended := s.appended ++ [(seq, msg)] }
  | .ack seq =>
      match s.mailbox.ack s.dir seq with
      | .ok (mailbox, dir) => .ok { s with mailbox, dir, acked := max s.acked seq }
      | .error _ => .ok s
  | .truncate => do
      let (mailbox, dir) ← s.mailbox.truncate serde s.dir
      .ok { s with mailbox, dir }
  | .reopen => do
      let (mailbox, dir) ← DurableMailbox.open serde s.mailbox.stableId s.dir
      .ok { s with mailbox, dir }

/-- A run from an empty directory. -/
def run (stableId : String) (ops : List MailboxOp) : Except AgentRtError MailboxRun := do
  let s ← start serde stableId
  ops.foldlM (step serde) s

end MailboxRun

/-- The journal behind a run: the entries in the log, the ack mark, the last
sequence the open mailbox knows of, and the history. -/
structure MailboxJournal where
  entries : List WalEntry
  acked : Nat
  sequence : Nat
  appended : List (Nat × Message)

namespace MailboxJournal

def empty : MailboxJournal := ⟨[], 0, 0, []⟩

def step (j : MailboxJournal) : MailboxOp → MailboxJournal
  | .append now msg =>
      { j with
        entries := j.entries ++ [⟨j.sequence + 1, now, msg⟩]
        sequence := j.sequence + 1
        appended := j.appended ++ [(j.sequence + 1, msg)] }
  | .ack seq => if j.acked < seq ∧ seq ≤ j.sequence then { j with acked := seq } else j
  | .truncate => { j with entries := j.entries.filter fun entry => j.acked < entry.seq }
  | .reopen => { j with sequence := DurableMailbox.maxSeq j.entries }

/-- The mailbox and the files a journal stands for. -/
def concrete (serde : SerdeJson) (stableId : String) (j : MailboxJournal) : MailboxRun :=
  ⟨⟨stableId, j.sequence, j.acked⟩, DurableMailbox.files serde stableId j.entries j.acked,
    j.appended, j.acked⟩

variable (serde : SerdeJson) (stableId : String)

/-- The calls on the files refine the operations on the journal. -/
theorem step_concrete (j : MailboxJournal) (op : MailboxOp) :
    (j.concrete serde stableId).step serde op =
      .ok ((j.step op).concrete serde stableId) := by
  cases op with
  | append now msg =>
      simp [MailboxRun.step, concrete, step, DurableMailbox.append_files]
  | ack seq =>
      by_cases hok : j.acked < seq ∧ seq ≤ j.sequence
      · simp [MailboxRun.step, concrete, step, hok,
          DurableMailbox.ack_files serde stableId j.entries hok.1 hok.2,
          Nat.max_eq_right (Nat.le_of_lt hok.1)]
      · have hrefused : ∃ e, DurableMailbox.ack ⟨stableId, j.sequence, j.acked⟩
            (DurableMailbox.files serde stableId j.entries j.acked) seq = .error e := by
          by_cases hgt : j.acked < seq
          · have hseq : seq > j.sequence := Nat.lt_of_not_le fun hle => hok ⟨hgt, hle⟩
            simp [DurableMailbox.ack, Nat.not_le.mpr hgt, hseq]
          · simp [DurableMailbox.ack, Nat.not_lt.mp hgt]
        obtain ⟨e, he⟩ := hrefused
        simp [MailboxRun.step, concrete, step, hok, he]
  | truncate =>
      simp [MailboxRun.step, concrete, step, DurableMailbox.truncate_files, bind,
        Except.bind]
  | reopen =>
      simp [MailboxRun.step, concrete, step, DurableMailbox.open_files, bind, Except.bind]

/-- Every run succeeds, and ends in the files of the journal's run. -/
theorem run_concrete (ops : List MailboxOp) :
    MailboxRun.run serde stableId ops =
      .ok ((ops.foldl step empty).concrete serde stableId) := by
  have hstart : MailboxRun.start serde stableId = .ok (empty.concrete serde stableId) := by
    simp [MailboxRun.start, DurableMailbox.open_empty, empty, concrete, bind, Except.bind]
  rw [MailboxRun.run, hstart]
  exact GuardedRun.foldlM_refines (concrete serde stableId) step
    (step_concrete serde stableId) ops empty

end MailboxJournal

end Zeptobeam
