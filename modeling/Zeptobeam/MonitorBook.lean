/-
Monitors as they should be kept: a book of what is installed, of the references that
were cancelled, of the notices that ended targets owe, and of those that were sent.
The scheduler's records at both ends agree with the book its trace gives.
-/
import Zeptobeam.SchedulerTermination

namespace Zeptobeam

structure Monitor where
  monitorRef : MonitorRef
  watcher : AgentPid
  target : AgentPid
deriving DecidableEq

structure MonitorBook where
  installed : List Monitor
  cancelled : List MonitorRef
  owed : List Monitor
  sent : List Monitor

namespace MonitorBook

def empty : MonitorBook := ⟨[], [], [], []⟩

def install (book : MonitorBook) (monitor : Monitor) : MonitorBook :=
  { book with installed := book.installed ++ [monitor] }

def cancel (book : MonitorBook) (monitorRef : MonitorRef) : MonitorBook :=
  { book with
    installed := book.installed.filter fun m => m.monitorRef ≠ monitorRef
    cancelled := book.cancelled ++ [monitorRef] }

/-- An ended process owes a notice for each monitor on it; it watches nobody now. -/
def ended (book : MonitorBook) (pid : AgentPid) : MonitorBook :=
  { book with
    installed := book.installed.filter fun m => m.watcher ≠ pid ∧ m.target ≠ pid
    owed := book.owed ++ book.installed.filter fun m => m.target = pid }

def send (book : MonitorBook) (monitor : Monitor) : MonitorBook :=
  { book with sent := book.sent ++ [monitor] }

/-- What an event of the scheduler means for the book. -/
def record (book : MonitorBook) : Event → MonitorBook
  | .monitored monitorRef watcher target => book.install ⟨monitorRef, watcher, target⟩
  | .demonitored monitorRef _ => book.cancel monitorRef
  | .removed pid => book.ended pid
  | .handed dest (.system (.down monitorRef target _)) (.monitor _ _) =>
      book.send ⟨monitorRef, dest, target⟩
  | _ => book

def ofTrace (trace : List Event) : MonitorBook :=
  trace.foldl record empty

/-- The records of the monitors on a process. -/
def watchersOf (book : MonitorBook) (pid : AgentPid) : List (MonitorRef × AgentPid) :=
  (book.installed.filter fun m => m.target = pid).map fun m => (m.monitorRef, m.watcher)

theorem record_ofMessage (book : MonitorBook) {event : Event} (h : event.ofMessage) :
    book.record event = book := by
  cases event with
  | handed dest msg origin =>
      unfold record
      split
      · contradiction
      · contradiction
      · contradiction
      · rename_i heq
        simp only [Event.handed.injEq] at heq
        rw [heq.2.2] at h
        contradiction
      · rfl
  | monitored | demonitored | removed | terminating | handlerAdded | handlerInvoked =>
      simp [Event.ofMessage] at h
  | _ => rfl

@[simp]
theorem ofTrace_append (trace events : List Event) :
    ofTrace (trace ++ events) = events.foldl record (ofTrace trace) :=
  List.foldl_append

theorem foldl_ofMessage (book : MonitorBook) {events : List Event}
    (h : ∀ event ∈ events, event.ofMessage) : events.foldl record book = book := by
  induction events with
  | nil => rfl
  | cons event rest ih =>
      rw [List.foldl_cons, record_ofMessage book (h event List.mem_cons_self)]
      exact ih fun other hother => h other (List.mem_cons_of_mem event hother)

/-! ## A sound book -/

/-- No reference is used twice, and none that was not given out. -/
structure Sound (book : MonitorBook) (next : MonitorRef) : Prop where
  installed : (book.installed.map Monitor.monitorRef).Nodup
  owed : (book.owed.map Monitor.monitorRef).Nodup
  apart : ∀ m ∈ book.installed, ∀ m' ∈ book.owed, m.monitorRef ≠ m'.monitorRef
  cancelled : ∀ m ∈ book.installed ++ book.owed, m.monitorRef ∉ book.cancelled
  below : ∀ m ∈ book.installed ++ book.owed, m.monitorRef < next
  cancelledBelow : ∀ monitorRef ∈ book.cancelled, monitorRef < next

namespace Sound

variable {book : MonitorBook} {next : MonitorRef}

theorem empty (next : MonitorRef) : MonitorBook.empty.Sound next := by
  constructor <;> simp [MonitorBook.empty]

theorem mono (h : book.Sound next) {later : MonitorRef} (hle : next ≤ later) :
    book.Sound later :=
  { h with
    below := fun m hm => Nat.lt_of_lt_of_le (h.below m hm) hle
    cancelledBelow := fun ref href => Nat.lt_of_lt_of_le (h.cancelledBelow ref href) hle }

theorem install (h : book.Sound next) (watcher target : AgentPid) :
    (book.install ⟨next, watcher, target⟩).Sound (next + 1) := by
  have hfresh : ∀ m ∈ book.installed ++ book.owed, m.monitorRef ≠ next :=
    fun m hm => Nat.ne_of_lt (h.below m hm)
  have hnext : next ∉ book.cancelled :=
    fun hmem => Nat.lt_irrefl _ (h.cancelledBelow next hmem)
  refine ⟨?_, h.owed, ?_, ?_, ?_, ?_⟩
  · rw [MonitorBook.install, List.map_append, List.nodup_append]
    refine ⟨h.installed, by simp, ?_⟩
    intro ref href other hother
    obtain ⟨m, hm, rfl⟩ := List.mem_map.mp href
    obtain rfl : other = next := by simpa using hother
    exact hfresh m (List.mem_append_left _ hm)
  · intro m hm m' hm'
    rcases List.mem_append.mp hm with hm | hm
    · exact h.apart m hm m' hm'
    · obtain rfl := List.mem_singleton.mp hm
      exact (hfresh m' (List.mem_append_right _ hm')).symm
  · intro m hm
    simp only [MonitorBook.install, List.append_assoc, List.mem_append,
      List.mem_singleton] at hm
    rcases hm with hm | rfl | hm
    · exact h.cancelled m (List.mem_append_left _ hm)
    · exact hnext
    · exact h.cancelled m (List.mem_append_right _ hm)
  · intro m hm
    simp only [MonitorBook.install, List.append_assoc, List.mem_append,
      List.mem_singleton] at hm
    rcases hm with hm | rfl | hm
    · exact Nat.lt_succ_of_lt (h.below m (List.mem_append_left _ hm))
    · exact Nat.lt_succ_self _
    · exact Nat.lt_succ_of_lt (h.below m (List.mem_append_right _ hm))
  · intro ref href
    exact Nat.lt_succ_of_lt (h.cancelledBelow ref href)

theorem cancel (h : book.Sound next) {m : Monitor} (hm : m ∈ book.installed) :
    (book.cancel m.monitorRef).Sound next := by
  have hsub : ∀ m' ∈ (book.cancel m.monitorRef).installed,
      m' ∈ book.installed ∧ m'.monitorRef ≠ m.monitorRef := by
    intro m' hm'
    simpa [MonitorBook.cancel] using hm'
  refine ⟨?_, h.owed, ?_, ?_, ?_, ?_⟩
  · exact h.installed.sublist (List.filter_sublist.map _)
  · intro m' hm' m'' hm''
    exact h.apart m' (hsub m' hm').1 m'' hm''
  · intro m' hm' hmem
    rcases List.mem_append.mp hmem with hmem | hmem
    · apply h.cancelled m' _ hmem
      rcases List.mem_append.mp hm' with hm' | hm'
      · exact List.mem_append_left _ (hsub m' hm').1
      · exact List.mem_append_right _ hm'
    · have heq : m'.monitorRef = m.monitorRef := List.mem_singleton.mp hmem
      rcases List.mem_append.mp hm' with hm' | hm'
      · exact (hsub m' hm').2 heq
      · exact h.apart m hm m' hm' heq.symm
  · intro m' hm'
    apply h.below m'
    rcases List.mem_append.mp hm' with hm' | hm'
    · exact List.mem_append_left _ (hsub m' hm').1
    · exact List.mem_append_right _ hm'
  · intro ref href
    rcases List.mem_append.mp href with href | href
    · exact h.cancelledBelow ref href
    · rw [List.mem_singleton.mp href]
      exact h.below m (List.mem_append_left _ hm)

theorem ended (h : book.Sound next) (pid : AgentPid) : (book.ended pid).Sound next := by
  have hkept : ∀ m ∈ (book.ended pid).installed, m ∈ book.installed ∧ m.target ≠ pid := by
    intro m hm
    simp only [MonitorBook.ended, List.mem_filter, decide_eq_true_eq] at hm
    exact ⟨hm.1, hm.2.2⟩
  have howed : ∀ m ∈ (book.ended pid).owed,
      m ∈ book.owed ∨ m ∈ book.installed ∧ m.target = pid := by
    intro m hm
    simpa [MonitorBook.ended] using hm
  have hall : ∀ m ∈ (book.ended pid).installed ++ (book.ended pid).owed,
      m ∈ book.installed ++ book.owed := by
    intro m hm
    rcases List.mem_append.mp hm with hm | hm
    · exact List.mem_append_left _ (hkept m hm).1
    · rcases howed m hm with hm | ⟨hm, _⟩
      · exact List.mem_append_right _ hm
      · exact List.mem_append_left _ hm
  refine ⟨?_, ?_, ?_, ?_, ?_, h.cancelledBelow⟩
  · exact h.installed.sublist (List.filter_sublist.map _)
  · rw [MonitorBook.ended, List.map_append, List.nodup_append]
    refine ⟨h.owed, h.installed.sublist (List.filter_sublist.map _), ?_⟩
    intro ref href other hother
    obtain ⟨m', hm', rfl⟩ := List.mem_map.mp href
    obtain ⟨m, hm, rfl⟩ := List.mem_map.mp hother
    exact (h.apart m (List.mem_filter.mp hm).1 m' hm').symm
  · intro m hm m' hm'
    rcases howed m' hm' with hm' | ⟨hm', htarget⟩
    · exact h.apart m (hkept m hm).1 m' hm'
    · intro heq
      have hsame := List.inj_on_of_nodup_map h.installed (hkept m hm).1 hm' heq
      exact (hkept m hm).2 (hsame ▸ htarget)
  · intro m hm
    exact h.cancelled m (hall m hm)
  · intro m hm
    exact h.below m (hall m hm)

theorem send (h : book.Sound next) (m : Monitor) : (book.send m).Sound next :=
  ⟨h.installed, h.owed, h.apart, h.cancelled, h.below, h.cancelledBelow⟩

/-- A reference stands for one monitor. -/
theorem eq_of_ref (h : book.Sound next) {m m' : Monitor} (hm : m ∈ book.installed)
    (hm' : m' ∈ book.installed) (heq : m.monitorRef = m'.monitorRef) : m = m' :=
  List.inj_on_of_nodup_map h.installed hm hm' heq

/-- Cancelling a monitor takes its record from its target, and no other. -/
theorem watchersOf_cancel (h : book.Sound next) {m : Monitor} (hm : m ∈ book.installed)
    (q : AgentPid) :
    (book.cancel m.monitorRef).watchersOf q =
      if q = m.target then
        (book.watchersOf q).filter (· ≠ (m.monitorRef, m.watcher))
      else book.watchersOf q := by
  simp only [watchersOf, MonitorBook.cancel, List.filter_filter, List.filter_map]
  by_cases hq : q = m.target
  · rw [if_pos hq]
    congr 1
    apply List.filter_congr
    intro other hother
    by_cases heq : other.monitorRef = m.monitorRef
    · obtain rfl := h.eq_of_ref hother hm heq
      simp
    · simp [heq, Bool.and_comm]
  · rw [if_neg hq]
    congr 1
    apply List.filter_congr
    intro other hother
    by_cases heq : other.monitorRef = m.monitorRef
    · obtain rfl := h.eq_of_ref hother hm heq
      simp [Ne.symm hq]
    · simp [heq]

end Sound

@[simp]
theorem mem_watchersOf {book : MonitorBook} {q : AgentPid} {x : MonitorRef × AgentPid} :
    x ∈ book.watchersOf q ↔ ⟨x.1, x.2, q⟩ ∈ book.installed := by
  obtain ⟨ref, watcher⟩ := x
  constructor
  · intro hx
    obtain ⟨m, hm, heq⟩ := List.mem_map.mp hx
    obtain ⟨hm, htarget⟩ := List.mem_filter.mp hm
    simp only [Prod.mk.injEq, decide_eq_true_eq] at heq htarget
    obtain ⟨rfl, rfl⟩ := heq
    exact htarget ▸ hm
  · intro hm
    exact List.mem_map.mpr ⟨_, List.mem_filter.mpr ⟨hm, by simp⟩, rfl⟩

theorem watchersOf_install (book : MonitorBook) (m : Monitor) (q : AgentPid) :
    (book.install m).watchersOf q =
      if q = m.target then book.watchersOf q ++ [(m.monitorRef, m.watcher)]
      else book.watchersOf q := by
  by_cases hq : q = m.target
  · simp [watchersOf, install, hq]
  · simp [watchersOf, install, hq, Ne.symm hq]

theorem watchersOf_ended (book : MonitorBook) {pid q : AgentPid} (hq : q ≠ pid) :
    (book.ended pid).watchersOf q = (book.watchersOf q).filter (·.2 ≠ pid) := by
  simp only [watchersOf, ended, List.filter_filter, List.filter_map]
  congr 1
  apply List.filter_congr
  intro m _
  by_cases htarget : m.target = q
  · simp [htarget, hq]
  · simp [htarget]

end MonitorBook

end Zeptobeam
