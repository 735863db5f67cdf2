/-
Logs of events, read from the left.  A log is lawful when each event is allowed after
the events before it, and an ended thing is renewed when its renewal follows every end.
Both are kept event by event, so a step lemma has to look at the last event only.
-/
import Mathlib.Data.List.Induction

namespace EventLog

universe u

variable {E : Type u}

theorem concat_eq_append_cons_iff {log before after : List E} {event last : E} :
    log ++ [last] = before ++ event :: after ↔
      (log = before ∧ event = last ∧ after = []) ∨
        ∃ front, log = before ++ event :: front ∧ after = front ++ [last] := by
  constructor
  · intro h
    rcases List.eq_nil_or_concat after with rfl | ⟨front, other, rfl⟩
    · obtain ⟨hlog, hlast⟩ := List.append_inj' h rfl
      exact .inl ⟨hlog, (List.singleton_inj.mp hlast).symm, rfl⟩
    · rw [List.concat_eq_append, ← List.cons_append, ← List.append_assoc] at h
      obtain ⟨hlog, hlast⟩ := List.append_inj' h rfl
      exact .inr ⟨front, hlog, by simp [List.singleton_inj.mp hlast]⟩
  · rintro (⟨rfl, rfl, rfl⟩ | ⟨front, rfl, rfl⟩)
    · rfl
    · simp

/-- Each event is allowed, given the events before it. -/
def Lawful (allowed : List E → E → Prop) (log : List E) : Prop :=
  ∀ before event after, log = before ++ event :: after → allowed before event

section Lawful

variable {allowed : List E → E → Prop} {log more : List E} {event : E}

theorem lawful_nil : Lawful allowed [] := by
  intro before event after h
  simp at h

theorem lawful_concat_iff :
    Lawful allowed (log ++ [event]) ↔ Lawful allowed log ∧ allowed log event := by
  constructor
  · intro h
    refine ⟨fun before other after hlog => ?_, h log event [] rfl⟩
    exact h before other (after ++ [event]) (by simp [hlog])
  · rintro ⟨h, hevent⟩ before other after hlog
    rcases concat_eq_append_cons_iff.mp hlog with ⟨rfl, rfl, rfl⟩ | ⟨front, rfl, rfl⟩
    · exact hevent
    · exact h before other front rfl

theorem Lawful.append (h : Lawful allowed log)
    (hmore : ∀ event ∈ more, ∀ before, allowed before event) : Lawful allowed (log ++ more) := by
  induction more using List.reverseRecOn with
  | nil => simpa using h
  | append_singleton more event ih =>
      rw [← List.append_assoc, lawful_concat_iff]
      constructor
      · exact ih fun other hother => hmore other (List.mem_append_left _ hother)
      · exact hmore event (List.mem_append_right _ List.mem_cons_self) _

end Lawful

/-- Every end is followed by a renewal. -/
def Renewed (ended renewed : E) (log : List E) : Prop :=
  ∀ before after, log = before ++ ended :: after → renewed ∈ after

section Renewed

variable {ended renewed event : E} {log more : List E}

theorem Renewed.concat (h : Renewed ended renewed log) (hevent : event ≠ ended) :
    Renewed ended renewed (log ++ [event]) := by
  intro before after hlog
  rcases concat_eq_append_cons_iff.mp hlog with ⟨_, hended, _⟩ | ⟨front, hfront, rfl⟩
  · exact absurd hended.symm hevent
  · exact List.mem_append_left _ (h before front hfront)

theorem renewed_concat_renewed (hne : renewed ≠ ended) :
    Renewed ended renewed (log ++ [renewed]) := by
  intro before after hlog
  rcases concat_eq_append_cons_iff.mp hlog with ⟨_, hended, _⟩ | ⟨front, _, rfl⟩
  · exact absurd hended.symm hne
  · exact List.mem_append_right _ List.mem_cons_self

theorem Renewed.append (h : Renewed ended renewed log) (hmore : ended ∉ more) :
    Renewed ended renewed (log ++ more) := by
  induction more using List.reverseRecOn with
  | nil => simpa using h
  | append_singleton more event ih =>
      obtain ⟨hmore, hevent⟩ := not_or.mp (List.mem_append.not.mp hmore)
      rw [← List.append_assoc]
      apply (ih hmore).concat
      rintro rfl
      exact hevent List.mem_cons_self

end Renewed

/-- The second event comes after an occurrence of the first. -/
def Followed (first second : E) (log : List E) : Prop :=
  ∃ before after, log = before ++ first :: after ∧ second ∈ after

section Followed

variable {first second event : E} {log : List E}

theorem Followed.mem (h : Followed first second log) : first ∈ log := by
  obtain ⟨before, after, rfl, _⟩ := h
  exact List.mem_append_right _ List.mem_cons_self

theorem followed_concat_iff :
    Followed first second (log ++ [event]) ↔
      Followed first second log ∨ (first ∈ log ∧ event = second) := by
  constructor
  · rintro ⟨before, after, hlog, hsecond⟩
    rcases concat_eq_append_cons_iff.mp hlog with ⟨_, _, rfl⟩ | ⟨front, rfl, rfl⟩
    · cases hsecond
    · rcases List.mem_append.mp hsecond with hfront | hlast
      · exact .inl ⟨before, front, rfl, hfront⟩
      · exact .inr ⟨by simp, (List.mem_singleton.mp hlast).symm⟩
  · rintro (⟨before, after, rfl, hsecond⟩ | ⟨hfirst, rfl⟩)
    · exact ⟨before, after ++ [event], by simp, List.mem_append_left _ hsecond⟩
    · obtain ⟨before, after, rfl⟩ := List.append_of_mem hfirst
      exact ⟨before, after ++ [event], by simp, by simp⟩

end Followed

end EventLog
