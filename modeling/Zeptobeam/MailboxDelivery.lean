/-
Delivery by the durable mailbox over whole runs: replay returns exactly the
unacknowledged messages as long as every append is given a fresh sequence, and
that is so exactly when no append is made with the ack mark ahead of the
sequence.  A log that was acknowledged, truncated and reopened is in that state.
-/
import Zeptobeam.MailboxJournal

namespace Zeptobeam

namespace MailboxRun

variable (serde : SerdeJson)

/-- `replay` returns the messages above the highest acknowledged sequence, in
append order, and no two appends were given one sequence. -/
def Faithful (s : MailboxRun) : Prop :=
  (∃ entries, s.mailbox.replay serde s.dir = .ok entries ∧
    entries.map (fun entry => (entry.seq, entry.msg)) =
      s.appended.filter fun pair => s.acked < pair.1) ∧
  (s.appended.map Prod.fst).Nodup

end MailboxRun

namespace MailboxJournal

/-- Where the appended sequences count up from `start + 1`, the part above a
sequence is the part behind its position. -/
theorem filter_eq_drop {appended : List (Nat × Message)} (start : Nat)
    (hseqs : appended.map Prod.fst = List.range' (start + 1) appended.length)
    (m : Nat) : (appended.filter fun pair => start + m < pair.1) = appended.drop m := by
  induction appended generalizing start m with
  | nil => simp
  | cons pair appended ih =>
      simp only [List.map_cons, List.length_cons, List.range'_succ,
        List.cons.injEq] at hseqs
      cases m with
      | zero =>
          rw [List.drop_zero, List.filter_eq_self]
          intro other hother
          have hmem : other.1 = start + 1 ∨
              other.1 ∈ List.range' (start + 1 + 1) appended.length := by
            rcases List.mem_cons.mp hother with rfl | hmem
            · exact Or.inl hseqs.1
            · exact Or.inr (hseqs.2 ▸ List.mem_map_of_mem hmem)
          simp only [List.mem_range'_1] at hmem
          simp only [decide_eq_true_eq]
          omega
      | succ m =>
          have hhead : ¬ start + (m + 1) < pair.1 := by omega
          have htail := ih (start + 1) hseqs.2 m
          simp only [List.filter_cons, hhead, decide_false, Bool.false_eq_true,
            ↓reduceIte, List.drop_succ_cons]
          rw [← htail, Nat.add_assoc, Nat.add_comm 1 m]

theorem foldl_max_range' (start len init : Nat) (hinit : init ≤ start) :
    (List.range' (start + 1) len).foldl max init =
      if len = 0 then init else start + len := by
  induction len generalizing start init with
  | zero => simp
  | succ len ih =>
      have hmax : max init (start + 1) = start + 1 := by omega
      rw [List.range'_succ, List.foldl_cons, hmax, ih (start + 1) (start + 1) le_rfl]
      by_cases hlen : len = 0
      · simp [hlen]
      · rw [if_neg hlen, if_neg (Nat.succ_ne_zero len)]
        omega

/-- The sequences of the run are `1, …, n`, the log holds those behind some
acknowledged position, and the next sequence is either the right one or was lost
with the log: nothing is in it and everything is acknowledged. -/
structure Consistent (j : MailboxJournal) : Prop where
  numbered : j.appended.map Prod.fst = List.range' 1 j.appended.length
  acked_le : j.acked ≤ j.appended.length
  log : ∃ dropped ≤ j.acked,
    j.entries.map (fun entry => (entry.seq, entry.msg)) = j.appended.drop dropped
  sequence : j.sequence = j.appended.length ∨
    (j.sequence = 0 ∧ j.acked = j.appended.length ∧ j.entries = [])

/-- An append is given a fresh sequence. -/
def Fresh (j : MailboxJournal) : MailboxOp → Prop
  | .append _ _ => j.acked ≤ j.sequence
  | _ => True

theorem consistent_empty : Consistent empty where
  numbered := rfl
  acked_le := le_rfl
  log := ⟨0, le_rfl, rfl⟩
  sequence := Or.inl rfl

namespace Consistent

variable {j : MailboxJournal}

theorem filter_appended (h : j.Consistent) (m : Nat) :
    (j.appended.filter fun pair => m < pair.1) = j.appended.drop m := by
  have hdrop := filter_eq_drop 0 h.numbered m
  simpa using hdrop

theorem nodup (h : j.Consistent) : (j.appended.map Prod.fst).Nodup := by
  rw [h.numbered]
  exact List.nodup_range'

theorem filter_entries (h : j.Consistent) :
    ((j.entries.filter fun entry => j.acked < entry.seq).map
        fun entry => (entry.seq, entry.msg)) = j.appended.drop j.acked := by
  obtain ⟨dropped, hdropped, hlog⟩ := h.log
  have hswap : ((j.entries.filter fun entry => j.acked < entry.seq).map
        fun entry => (entry.seq, entry.msg)) =
      (j.entries.map fun entry => (entry.seq, entry.msg)).filter
        fun pair => j.acked < pair.1 := by
    rw [List.filter_map]
    rfl
  have hseqs : (j.appended.drop dropped).map Prod.fst =
      List.range' (dropped + 1) (j.appended.drop dropped).length := by
    rw [List.map_drop, h.numbered, List.drop_range', List.length_drop, Nat.add_comm]
    simp
  have hdrop := filter_eq_drop dropped hseqs (j.acked - dropped)
  rw [Nat.add_sub_cancel' hdropped, List.drop_drop, Nat.add_sub_cancel' hdropped] at hdrop
  rw [hswap, hlog, hdrop]

/-- What `open` finds is the last sequence, unless the log is empty. -/
theorem maxSeq_entries (h : j.Consistent) :
    DurableMailbox.maxSeq j.entries =
      if j.entries = [] then 0 else j.appended.length := by
  obtain ⟨dropped, hdropped, hlog⟩ := h.log
  have hlen : j.entries.length = j.appended.length - dropped := by
    rw [← List.length_drop, ← hlog, List.length_map]
  have hseqs : j.entries.map WalEntry.seq =
      List.range' (dropped + 1) j.entries.length := by
    have hfst := congrArg (List.map Prod.fst) hlog
    rw [List.map_map, List.map_drop, h.numbered, List.drop_range', ← hlen] at hfst
    rw [Nat.add_comm dropped 1, ← Nat.mul_one dropped]
    exact hfst
  rw [DurableMailbox.maxSeq, hseqs, foldl_max_range' _ _ _ (Nat.zero_le _)]
  have hacked := h.acked_le
  by_cases hnil : j.entries = []
  · simp [hnil]
  · have hpos : j.entries.length ≠ 0 := fun hzero => hnil (List.eq_nil_of_length_eq_zero hzero)
    rw [if_neg hpos, if_neg hnil]
    omega

theorem sequence_of_fresh (h : j.Consistent) (hfresh : j.acked ≤ j.sequence) :
    j.sequence = j.appended.length := by
  rcases h.sequence with hseq | ⟨hzero, hall, _⟩
  · exact hseq
  · omega

theorem append (h : j.Consistent) (hfresh : j.acked ≤ j.sequence) (now : Int)
    (msg : Message) : (j.step (.append now msg)).Consistent := by
  have hseq := h.sequence_of_fresh hfresh
  obtain ⟨dropped, hdropped, hlog⟩ := h.log
  have hacked := h.acked_le
  constructor
  · simp only [step, List.map_append, h.numbered, List.length_append, List.length_singleton,
      List.map_cons, List.map_nil, hseq, List.range'_concat, Nat.one_mul]
    rw [Nat.add_comm]
  · simp only [step, List.length_append, List.length_singleton]
    omega
  · refine ⟨dropped, hdropped, ?_⟩
    have hle : dropped ≤ j.appended.length := hdropped.trans hacked
    simp [step, hlog, List.drop_append_of_le_length hle]
  · left
    simp [step, hseq]

theorem ack (h : j.Consistent) (seq : Nat) : (j.step (.ack seq)).Consistent := by
  by_cases hok : j.acked < seq ∧ seq ≤ j.sequence
  · obtain ⟨dropped, hdropped, hlog⟩ := h.log
    have hseq := h.sequence_of_fresh (by omega)
    simp only [step, hok, and_self, ↓reduceIte]
    constructor
    · exact h.numbered
    · exact hok.2.trans (Nat.le_of_eq hseq)
    · exact ⟨dropped, hdropped.trans (Nat.le_of_lt hok.1), hlog⟩
    · exact Or.inl hseq
  · simpa only [step, hok, ↓reduceIte] using h

theorem truncate (h : j.Consistent) : (j.step .truncate).Consistent := by
  constructor
  · exact h.numbered
  · exact h.acked_le
  · exact ⟨j.acked, le_rfl, h.filter_entries⟩
  · rcases h.sequence with hseq | ⟨hzero, hall, hnil⟩
    · exact Or.inl hseq
    · right
      refine ⟨hzero, hall, ?_⟩
      simp [step, hnil]

theorem reopen (h : j.Consistent) : (j.step .reopen).Consistent := by
  have hmax := h.maxSeq_entries
  constructor
  · exact h.numbered
  · exact h.acked_le
  · exact h.log
  · by_cases hnil : j.entries = []
    · right
      obtain ⟨dropped, hdropped, hlog⟩ := h.log
      have hlen : j.appended.length ≤ dropped := by
        rw [hnil, List.map_nil] at hlog
        exact List.drop_eq_nil_iff.mp hlog.symm
      refine ⟨?_, ?_, hnil⟩
      · simpa [step, hnil] using hmax
      · exact Nat.le_antisymm h.acked_le (hlen.trans hdropped)
    · left
      simpa [step, hnil] using hmax

theorem step (h : j.Consistent) (op : MailboxOp) (hfresh : j.Fresh op) :
    (j.step op).Consistent := by
  cases op with
  | append now msg => exact h.append hfresh now msg
  | ack seq => exact h.ack seq
  | truncate => exact h.truncate
  | reopen => exact h.reopen

variable (serde : SerdeJson) (stableId : String)

theorem faithful (h : j.Consistent) : (j.concrete serde stableId).Faithful serde := by
  constructor
  · refine ⟨_, DurableMailbox.replay_files serde stableId j.entries j.acked j.sequence, ?_⟩
    exact h.filter_entries.trans (h.filter_appended j.acked).symm
  · exact h.nodup

/-- With the ack mark ahead, the next append is given sequence 1 again. -/
theorem not_faithful_of_stale (h : j.Consistent) (op : MailboxOp)
    (hstale : ¬ j.Fresh op) : ¬ ((j.step op).concrete serde stableId).Faithful serde := by
  cases op with
  | append now msg =>
      simp only [Fresh, Nat.not_le] at hstale
      rintro ⟨_, hnodup⟩
      have hzero : j.sequence = 0 := by
        rcases h.sequence with hseq | ⟨hzero, _⟩
        · have hacked := h.acked_le
          omega
        · exact hzero
      have hone : 1 ∈ j.appended.map Prod.fst := by
        have hacked := h.acked_le
        rw [h.numbered, List.mem_range'_1]
        omega
      simp only [concrete, MailboxJournal.step, hzero, List.map_append, List.map_cons,
        List.map_nil, Nat.zero_add] at hnodup
      exact (List.nodup_append.mp hnodup).2.2 1 hone 1 (List.mem_singleton_self 1) rfl
  | ack seq => exact absurd trivial hstale
  | truncate => exact absurd trivial hstale
  | reopen => exact absurd trivial hstale

end Consistent

end MailboxJournal

namespace DurableMailbox

open MailboxJournal

/-- Over every run, replay is faithful at every point exactly when each append is
made with the ack mark not ahead of the mailbox's sequence. -/
theorem faithful_iff_append_fresh (serde : SerdeJson) (stableId : String)
    (ops : List MailboxOp) :
    (∀ pre, pre <+: ops → ∃ s, MailboxRun.run serde stableId pre = .ok s ∧
      s.Faithful serde) ↔
    ∀ pre now msg, pre ++ [.append now msg] <+: ops →
      ∀ s, MailboxRun.run serde stableId pre = .ok s →
        s.mailbox.lastAckedSeq ≤ s.mailbox.sequence := by
  have hguard := GuardedRun.throughout_iff_guarded Fresh
    (fun j => (j.concrete serde stableId).Faithful serde) consistent_empty
    (fun _ op h hfresh => h.step op hfresh) (fun _ h => h.faithful serde stableId)
    (fun _ op h hstale => h.not_faithful_of_stale serde stableId op hstale) ops
  simp only [run_concrete, Except.ok.injEq, exists_eq_left', forall_eq']
  apply hguard.trans
  constructor
  · intro hguarded pre now msg hpre
    exact hguarded pre (.append now msg) hpre
  · intro hfresh pre op hpre
    cases op with
    | append now msg => exact hfresh pre now msg hpre
    | ack seq => trivial
    | truncate => trivial
    | reopen => trivial

/-- The mailbox is drained and reopened, and the next message gets sequence 1 a
second time and is not replayed. -/
theorem reopen_after_drain_reuses_sequence :
    ∃ s, MailboxRun.run .compact "proc-1"
        [.append 0 (.text "a"), .ack 1, .truncate, .reopen, .append 0 (.text "b")] =
          .ok s ∧
      s.appended = [(1, .text "a"), (1, .text "b")] ∧ s.acked = 1 ∧
      s.mailbox.replay .compact s.dir = .ok [] ∧ ¬ s.Faithful .compact := by
  refine ⟨_, run_concrete .compact "proc-1" _, by decide, by decide, ?_, ?_⟩
  · exact DurableMailbox.replay_files .compact "proc-1" _ _ _
  · rintro ⟨_, hnodup⟩
    exact absurd hnodup (by decide)

end DurableMailbox

end Zeptobeam
