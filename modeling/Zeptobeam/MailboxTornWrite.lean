/-
A crash can leave the last line of a log cut at any byte.  `open` passes over a
line that does not parse and `append` writes on behind it, while `replay` stops
at it: the mailbox is usable after a cut only when no byte of the last line is
left, and then the sequence of the lost entry must not be acknowledged.
-/
import Zeptobeam.MailboxDelivery

namespace Zeptobeam

open LineFile

namespace MailboxOp

/-- A write of the log before the crash: an append, or an ack of a sequence. -/
def ofWrite : (Int × Message) ⊕ Nat → MailboxOp
  | .inl (now, msg) => .append now msg
  | .inr seq => .ack seq

/-- A step after the crash: an append, or one more reopening. -/
def ofLater : Option (Int × Message) → MailboxOp
  | some (now, msg) => .append now msg
  | none => .reopen

end MailboxOp

/-- The directory after a crash that cut the log's last line to `k` bytes. -/
def MailboxDir.cutWal (dir : MailboxDir) (k : Nat) : MailboxDir :=
  { dir with wal := dir.wal.map fun file => cutLastLine file k }

namespace MailboxRun

variable (serde : SerdeJson)

/-- Open a directory that an earlier run has left. -/
def resume (stableId : String) (dir : MailboxDir) : Except AgentRtError MailboxRun := do
  let (mailbox, dir) ← DurableMailbox.open serde stableId dir
  .ok ⟨mailbox, dir, [], mailbox.lastAckedSeq⟩

/-- `replay` succeeds and returns every one of the pairs. -/
def Replays (s : MailboxRun) (pairs : List (Nat × Message)) : Prop :=
  ∃ entries, s.mailbox.replay serde s.dir = .ok entries ∧
    ∀ pair ∈ pairs, pair ∈ entries.map fun entry => (entry.seq, entry.msg)

/-- What is asked of a mailbox after a crash: the directory opens, what was fully
written is replayed, and so is whatever is appended from then on. -/
def Survives (stableId : String) (dir : MailboxDir) (written : List (Nat × Message)) :
    Prop :=
  ∃ s, resume serde stableId dir = .ok s ∧ s.Replays serde written ∧
    ∀ later : List (Option (Int × Message)), ∃ s',
      (later.map MailboxOp.ofLater).foldlM (step serde) s = .ok s' ∧
        s'.Replays serde s'.appended

end MailboxRun

namespace MailboxJournal

/-- Before the crash: the log holds all that was appended. -/
structure Recorded (j : MailboxJournal) : Prop where
  log : j.entries.map (fun entry => (entry.seq, entry.msg)) = j.appended
  numbered : j.appended.map Prod.fst = List.range' 1 j.appended.length
  sequence : j.sequence = j.appended.length
  acked_le : j.acked ≤ j.appended.length

theorem Recorded.step {j : MailboxJournal} (h : j.Recorded)
    (write : (Int × Message) ⊕ Nat) : (j.step (.ofWrite write)).Recorded := by
  rcases write with ⟨now, msg⟩ | seq
  · have hacked := h.acked_le
    constructor
    · simp [MailboxOp.ofWrite, MailboxJournal.step, h.log]
    · simp only [MailboxOp.ofWrite, MailboxJournal.step, List.map_append, h.numbered,
        List.length_append, List.length_singleton, List.map_cons, List.map_nil, h.sequence,
        List.range'_concat, Nat.one_mul]
      rw [Nat.add_comm]
    · simp [MailboxOp.ofWrite, MailboxJournal.step, h.sequence]
    · simp only [MailboxOp.ofWrite, MailboxJournal.step, List.length_append,
        List.length_singleton]
      omega
  · by_cases hok : j.acked < seq ∧ seq ≤ j.sequence
    · simp only [MailboxOp.ofWrite, MailboxJournal.step, hok, and_self, ↓reduceIte]
      exact ⟨h.log, h.numbered, h.sequence, hok.2.trans (Nat.le_of_eq h.sequence)⟩
    · simpa only [MailboxOp.ofWrite, MailboxJournal.step, hok, ↓reduceIte] using h

theorem recorded_run (writes : List ((Int × Message) ⊕ Nat)) :
    ((writes.map MailboxOp.ofWrite).foldl step empty).Recorded := by
  induction writes using List.reverseRecOn with
  | nil => exact ⟨rfl, rfl, rfl, le_rfl⟩
  | append_singleton writes write ih =>
      rw [List.map_append, List.foldl_append]
      exact ih.step write

/-- After the crash: the next sequence, and the one a reopening finds, are not
behind the ack mark, and what was appended is in the log above it. -/
structure Growing (j : MailboxJournal) : Prop where
  acked_le : j.acked ≤ j.sequence
  acked_le_maxSeq : j.acked ≤ DurableMailbox.maxSeq j.entries
  logged : ∀ pair ∈ j.appended, j.acked < pair.1 ∧
    pair ∈ j.entries.map fun entry => (entry.seq, entry.msg)

theorem maxSeq_append (entries : List WalEntry) (entry : WalEntry) :
    DurableMailbox.maxSeq (entries ++ [entry]) =
      max (DurableMailbox.maxSeq entries) entry.seq := by
  simp [DurableMailbox.maxSeq]

theorem Growing.step {j : MailboxJournal} (h : j.Growing)
    (later : Option (Int × Message)) : (j.step (.ofLater later)).Growing := by
  cases later with
  | none => exact ⟨h.acked_le_maxSeq, h.acked_le_maxSeq, h.logged⟩
  | some write =>
      obtain ⟨now, msg⟩ := write
      have hacked := h.acked_le
      constructor
      · exact Nat.le_succ_of_le h.acked_le
      · simp only [MailboxOp.ofLater, MailboxJournal.step, maxSeq_append]
        exact h.acked_le_maxSeq.trans (Nat.le_max_left _ _)
      · intro pair hpair
        simp only [MailboxOp.ofLater, MailboxJournal.step, List.mem_append,
          List.mem_singleton, List.map_append, List.map_cons, List.map_nil] at hpair ⊢
        rcases hpair with hold | rfl
        · exact ⟨(h.logged pair hold).1, Or.inl (h.logged pair hold).2⟩
        · exact ⟨Nat.lt_succ_of_le hacked, Or.inr rfl⟩

theorem Growing.run {j : MailboxJournal} (h : j.Growing)
    (later : List (Option (Int × Message))) :
    ((later.map MailboxOp.ofLater).foldl MailboxJournal.step j).Growing := by
  induction later generalizing j with
  | nil => exact h
  | cons op later ih => exact ih (h.step op)

theorem Growing.replays {j : MailboxJournal} (h : j.Growing) (serde : SerdeJson)
    (stableId : String) :
    (j.concrete serde stableId).Replays serde j.appended := by
  refine ⟨_, DurableMailbox.replay_files serde stableId j.entries j.acked j.sequence, ?_⟩
  intro pair hpair
  obtain ⟨hgt, hmem⟩ := h.logged pair hpair
  obtain ⟨entry, hentry, rfl⟩ := List.mem_map.mp hmem
  apply List.mem_map_of_mem
  exact List.mem_filter.mpr ⟨hentry, by simpa using hgt⟩

end MailboxJournal

namespace DurableMailbox

open MailboxJournal

variable (serde : SerdeJson) (stableId : String)

/-! ## What the cut leaves -/

theorem cutWal_of_nil (acked k : Nat) :
    (files serde stableId [] acked).cutWal k =
      ⟨some ((encode (headerText serde stableId)).take k), ackBytes acked, none, none⟩ := by
  have hcut := cutLastLine_writeLines []
    (serde.toString_oneLine (WalHeader.toJson ⟨schemaVersion, "wal", stableId⟩)) k
  simpa [MailboxDir.cutWal, files, walBytes, walTexts, headerText] using hcut

theorem cutWal_of_concat (front : List WalEntry) (last : WalEntry) (acked k : Nat) :
    (files serde stableId (front ++ [last]) acked).cutWal k =
      ⟨some (walBytes serde stableId front ++ (encode (entryText serde last)).take k),
        ackBytes acked, none, none⟩ := by
  have hcut := cutLastLine_writeLines (walTexts serde stableId front)
    (serde.toString_oneLine last.toJson) k
  simpa [MailboxDir.cutWal, files, walBytes, walTexts, entryText] using hcut

/-- Opening an existing log reads every line and leaves the files alone. -/
theorem resume_of_wal {dir : MailboxDir} {file : Bytes} {s : MailboxRun}
    (hwal : dir.wal = some file) (h : MailboxRun.resume serde stableId dir = .ok s) :
    s.dir = dir ∧ s.appended = [] ∧
      ∃ maxSeq, scanMaxSeq serde true 0 (readLines file) = .ok maxSeq := by
  simp only [MailboxRun.resume, «open», hwal] at h
  cases hack : readAck dir.ack with
  | error e => simp [hack, bind, Except.bind] at h
  | ok acked =>
      cases hscan : scanMaxSeq serde true 0 (readLines file) with
      | error e => simp [hack, hscan, bind, Except.bind] at h
      | ok maxSeq =>
          simp only [hack, hscan, bind, Except.bind, Except.ok.injEq] at h
          subst h
          exact ⟨rfl, rfl, maxSeq, rfl⟩

/-- The mailbox does not survive when the next append is not replayed. -/
theorem not_survives_of_append {dir : MailboxDir} {written : List (Nat × Message)}
    (now : Int) (msg : Message)
    (h : ∀ s, MailboxRun.resume serde stableId dir = .ok s →
      s.Replays serde written → ∀ entries,
      replay serde (append serde s.mailbox s.dir now msg).2.1
        (append serde s.mailbox s.dir now msg).2.2 = .ok entries →
      (s.mailbox.sequence + 1, msg) ∉ entries.map fun entry => (entry.seq, entry.msg)) :
    ¬ MailboxRun.Survives serde stableId dir written := by
  rintro ⟨s, hs, hwritten, hlater⟩
  obtain ⟨s', hs', entries, hreplay, hall⟩ := hlater [some (now, msg)]
  simp only [List.map_cons, List.map_nil, List.foldlM_cons, List.foldlM_nil,
    MailboxOp.ofLater, MailboxRun.step, bind, Except.bind, pure, Except.pure,
    Except.ok.injEq] at hs'
  subst hs'
  apply h s hs hwritten entries hreplay
  apply hall
  exact List.mem_append_right _ (List.mem_singleton_self _)

/-! ## The cases of the cut -/

/-- With the header torn, the next entry completes the first line, which every
reader takes for the header. -/
theorem not_survives_of_torn_header {tail : Bytes} (hn : newline ∉ tail)
    (hr : carriageReturn ∉ tail) (ack : Option Bytes) (written : List (Nat × Message)) :
    ¬ MailboxRun.Survives serde stableId ⟨some tail, ack, none, none⟩ written := by
  apply not_survives_of_append serde stableId 0 (.text "")
  intro s hs _ entries hreplay
  obtain ⟨hdir, _, _⟩ := resume_of_wal serde stableId rfl hs
  have hline := serde.toString_oneLine
    (WalEntry.toJson ⟨s.mailbox.sequence + 1, 0, .text ""⟩)
  have hsplit := splitLines_of_line []
    (show newline ∉ tail ++ encode (serde.toString
        (WalEntry.toJson ⟨s.mailbox.sequence + 1, 0, .text ""⟩)) by
      simpa using ⟨hn, newline_not_mem_encode hline⟩)
    (by simpa using ⟨hr, carriageReturn_not_mem_encode hline⟩)
  simp only [append, hdir, replay, Option.map_some, line, readLines,
    ← List.append_assoc, hsplit, splitLines, List.map_cons, List.map_nil] at hreplay
  have hnil : entries = [] := by
    cases hdecode : decode (tail ++ encode (serde.toString
        (WalEntry.toJson ⟨s.mailbox.sequence + 1, 0, .text ""⟩))) with
    | none => simp [hdecode, replayLines] at hreplay
    | some text =>
        by_cases hblank : isBlank text = true
        · simpa [hdecode, replayLines, hblank] using hreplay.symm
        · simpa [hdecode, replayLines, hblank] using hreplay.symm
  simp [hnil]

theorem entryText_head (entry : WalEntry) : ∃ cs, entryText serde entry = '{' :: cs :=
  serde.toString_obj _

/-- A line that is no entry stops `replay`. -/
theorem replayLines_of_bad_line (acked : Nat) (front : List WalEntry) {text : List Char}
    (hblank : isBlank text = false) (hbad : readEntry serde text = none) :
    replayLines serde acked true (some (headerText serde stableId) ::
        (entryLines serde front ++ [some text])) =
      .error (.durableMailbox "bad entry: ") := by
  have hentries := replayLines_entries serde acked front [some text]
  simp only [replayLines, hblank, hbad, Bool.false_eq_true, ↓reduceIte,
    Except.map] at hentries
  simp [replayLines, hentries]

theorem readEntry_of_glued (first second : WalEntry) :
    readEntry serde (entryText serde first ++ entryText serde second) = none := by
  have htrailing := serde.fromStr_trailing
    [("seq", .ofNat first.seq), ("ts", .ofInt first.ts), ("msg", first.msg.toJson)]
    [("seq", .ofNat second.seq), ("ts", .ofInt second.ts), ("msg", second.msg.toJson)]
  simp [readEntry, entryText, WalEntry.toJson, htrailing]

/-- A log whose last line was cut, but not away. -/
theorem readLines_torn (front : List WalEntry) (last : WalEntry) {k : Nat} (hk : k ≠ 0) :
    readLines (walBytes serde stableId front ++ (encode (entryText serde last)).take k) =
      some (headerText serde stableId) ::
        (entryLines serde front ++ [decode ((encode (entryText serde last)).take k)]) := by
  have htorn := serde.readLines_torn
    [("seq", .ofNat last.seq), ("ts", .ofInt last.ts), ("msg", last.msg.toJson)] hk
  rw [readLines_walBytes_append]
  exact congrArg (fun lines => some (headerText serde stableId) ::
    (entryLines serde front ++ lines)) htorn

/-- An entry written behind one that lost its newline is on the same line. -/
theorem readLines_glued (front : List WalEntry) (last next : WalEntry) :
    readLines ((walBytes serde stableId front ++ encode (entryText serde last)) ++
        line serde next.toJson) =
      some (headerText serde stableId) ::
        (entryLines serde front ++ [some (entryText serde last ++ entryText serde next)]) := by
  rw [List.append_assoc, readLines_walBytes_append]
  exact congrArg (fun lines => some (headerText serde stableId) ::
    (entryLines serde front ++ lines)) (serde.readLines_glued last.toJson next.toJson)

/-- A torn entry is an error for `replay`, and a whole one without its newline
becomes one when the next entry is written behind it. -/
theorem not_survives_of_torn_entry (front : List WalEntry) (last : WalEntry)
    (ack : Option Bytes) {k : Nat} (hk : k ≠ 0) (written : List (Nat × Message)) :
    ¬ MailboxRun.Survives serde stableId
      ⟨some (walBytes serde stableId front ++ (encode (entryText serde last)).take k),
        ack, none, none⟩ written := by
  have hlines := readLines_torn serde stableId front last hk
  apply not_survives_of_append serde stableId 0 (.text "")
  intro s hs hwritten entries hreplay
  obtain ⟨hdir, _, maxSeq, hscan⟩ := resume_of_wal serde stableId rfl hs
  rw [hlines] at hscan
  cases hdecode : decode ((encode (entryText serde last)).take k) with
  | none =>
      -- the cut fell inside a character, and `open` fails
      rw [hdecode] at hscan
      simp [scanMaxSeq, scanMaxSeq_entries] at hscan
  | some piece =>
      obtain ⟨hblank, hwhole | hnone⟩ := SerdeJson.fromStr_of_decode_torn hk hdecode
      · have hpiece := eq_encode_of_decode hdecode
        have hglued := readEntry_of_glued serde last ⟨s.mailbox.sequence + 1, 0, .text ""⟩
        have hgluedBlank : isBlank (entryText serde last ++
            entryText serde ⟨s.mailbox.sequence + 1, 0, .text ""⟩) = false := by
          obtain ⟨cs, hcs⟩ := entryText_head serde last
          rw [hcs]
          simp [isBlank, isWhiteSpace]
        have htext : piece = entryText serde last := hwhole
        rw [htext] at hpiece
        simp only [append, hdir, replay, Option.map_some, hpiece, readLines_glued] at hreplay
        rw [replayLines_of_bad_line serde stableId _ _ hgluedBlank hglued] at hreplay
        exact absurd hreplay (by simp)
      · obtain ⟨before, hbefore, _⟩ := hwritten
        have hbad : readEntry serde piece = none := by rw [readEntry, hnone, Option.bind_none]
        simp only [replay, hdir, hlines, hdecode] at hbefore
        rw [replayLines_of_bad_line serde stableId _ _ hblank hbad] at hbefore
        exact absurd hbefore (by simp)

/-- The last entry is lost and was acknowledged: its sequence is given again, and
replay passes over the message that gets it. -/
theorem not_survives_of_acked (front : List WalEntry) (written : List (Nat × Message))
    {acked : Nat} (hacked : maxSeq front < acked) :
    ¬ MailboxRun.Survives serde stableId (files serde stableId front acked) written := by
  apply not_survives_of_append serde stableId 0 (.text "")
  intro s hs _ entries hreplay
  simp only [MailboxRun.resume, open_files, bind, Except.bind, Except.ok.injEq] at hs
  subst hs
  simp only [append_files, replay_files, Except.ok.injEq] at hreplay
  subst hreplay
  intro hmem
  obtain ⟨entry, hentry, heq⟩ := List.mem_map.mp hmem
  have hgt := (List.mem_filter.mp hentry).2
  simp only [decide_eq_true_eq, Prod.mk.injEq] at hgt heq
  omega

theorem survives_of_whole (front : List WalEntry) {acked : Nat}
    (hacked : acked ≤ maxSeq front) (written : List (Nat × Message))
    (hwritten : ∀ pair ∈ written, acked < pair.1 ∧
      pair ∈ front.map fun entry => (entry.seq, entry.msg)) :
    MailboxRun.Survives serde stableId (files serde stableId front acked) written := by
  have hgrowing : Growing ⟨front, acked, maxSeq front, []⟩ := by
    constructor
    · exact hacked
    · exact hacked
    · intro pair hpair
      simp at hpair
  have hlogged : Growing ⟨front, acked, maxSeq front, written⟩ :=
    ⟨hacked, hacked, hwritten⟩
  refine ⟨concrete serde stableId ⟨front, acked, maxSeq front, []⟩, ?_, ?_, ?_⟩
  · simp [MailboxRun.resume, open_files, concrete, bind, Except.bind]
  · exact hlogged.replays serde stableId
  · intro later
    refine ⟨_, GuardedRun.foldlM_refines (concrete serde stableId) MailboxJournal.step
      (step_concrete serde stableId) _ _, ?_⟩
    exact (hgrowing.run later).replays serde stableId

/-- A mailbox survives a cut of its last line exactly when the whole line is gone
and the entry on it was not acknowledged yet. -/
theorem survives_cut_iff (writes : List ((Int × Message) ⊕ Nat)) (k : Nat) :
    ∃ s, MailboxRun.run serde stableId (writes.map MailboxOp.ofWrite) = .ok s ∧
      (MailboxRun.Survives serde stableId (s.dir.cutWal k)
          (s.appended.dropLast.filter fun pair => s.acked < pair.1) ↔
        k = 0 ∧ s.acked < s.appended.length) := by
  have h := recorded_run writes
  refine ⟨_, run_concrete serde stableId _, ?_⟩
  revert h
  generalize (writes.map MailboxOp.ofWrite).foldl MailboxJournal.step empty = j
  intro h
  obtain ⟨entries, acked, sequence, appended⟩ := j
  have hlog : entries.map (fun entry => (entry.seq, entry.msg)) = appended := h.log
  have hseqs : entries.map WalEntry.seq = List.range' 1 appended.length := by
    rw [← h.numbered, ← h.log, List.map_map]
    rfl
  have hacked : acked ≤ appended.length := h.acked_le
  simp only [concrete]
  rcases List.eq_nil_or_concat entries with rfl | ⟨front, last, rfl⟩
  · rw [cutWal_of_nil]
    have hheader := serde.toString_oneLine (WalHeader.toJson ⟨schemaVersion, "wal", stableId⟩)
    have hn := fun hmem => newline_not_mem_encode hheader (List.mem_of_mem_take (i := k) hmem)
    have hr := fun hmem =>
      carriageReturn_not_mem_encode hheader (List.mem_of_mem_take (i := k) hmem)
    constructor
    · intro hsurvives
      exact absurd hsurvives (not_survives_of_torn_header serde stableId hn hr _ _)
    · rintro ⟨_, hlt⟩
      simp [← hlog] at hlt
  · rw [List.concat_eq_append] at hlog hseqs ⊢
    have hlen : appended.length = front.length + 1 := by simp [← hlog]
    have hfront : front.map WalEntry.seq = List.range' 1 front.length := by
      rw [hlen, List.range'_concat, List.map_append, List.map_singleton] at hseqs
      exact (List.append_inj' hseqs rfl).1
    have hmax : maxSeq front = front.length := by
      rw [maxSeq, hfront, foldl_max_range' 0 _ 0 le_rfl]
      by_cases hzero : front.length = 0
      · simp [hzero]
      · simp [hzero]
    have hdropLast : appended.dropLast =
        front.map fun entry => (entry.seq, entry.msg) := by
      simp [← hlog]
    by_cases hk : k = 0
    · have hcut : (files serde stableId (front ++ [last]) acked).cutWal k =
          files serde stableId front acked := by
        rw [cutWal_of_concat, hk]
        simp [files]
      rw [hcut, hdropLast]
      by_cases hlt : acked < appended.length
      · have hsurvives := survives_of_whole serde stableId front
          (show acked ≤ maxSeq front by omega)
          ((front.map fun entry => (entry.seq, entry.msg)).filter
            fun pair => acked < pair.1) (by
              intro pair hpair
              obtain ⟨hmem, hgt⟩ := List.mem_filter.mp hpair
              exact ⟨by simpa using hgt, hmem⟩)
        exact iff_of_true hsurvives ⟨hk, hlt⟩
      · have hstale : maxSeq front < acked := by omega
        exact iff_of_false (not_survives_of_acked serde stableId front _ hstale)
          fun h => hlt h.2
    · rw [cutWal_of_concat]
      exact iff_of_false (not_survives_of_torn_entry serde stableId front last _ hk _)
        fun h => hk h.1

/-- One message was appended, and only the opening brace of its line is left. -/
theorem not_survives_cut_after_first_byte :
    ∃ s, MailboxRun.run .compact "proc-1" [.append 0 (.text "a")] = .ok s ∧
      ¬ MailboxRun.Survives .compact "proc-1" (s.dir.cutWal 1) [] := by
  refine ⟨_, run_concrete .compact "proc-1" _, ?_⟩
  have hcut := cutWal_of_concat .compact "proc-1" [] ⟨1, 0, .text "a"⟩ 0 1
  simp only [concrete, List.foldl_cons, List.foldl_nil, MailboxJournal.step, empty]
  rw [List.nil_append] at hcut
  rw [List.nil_append, hcut]
  exact not_survives_of_torn_entry .compact "proc-1" [] _ _ (by decide) []

end DurableMailbox

end Zeptobeam
