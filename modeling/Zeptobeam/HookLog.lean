/-
What a message hook knows.  An automaton reads the trace: a message that the hook has
accepted is placed by the very next event.  From it, a log that the hook writes is the
list of deliveries exactly when no message goes another way.
-/
import Zeptobeam.SchedulerTermination

namespace Zeptobeam

namespace Event

/-- The message that goes into a mailbox at this event. -/
def delivery : Event → Option (AgentPid × Message)
  | .put dest msg => some (dest, msg)
  | .direct dest msg true => some (dest, msg)
  | _ => none

/-- The message the hook accepts at this event. -/
def acceptance : Event → Option (AgentPid × Message)
  | .offered dest msg true => some (dest, msg)
  | _ => none

/-- The message `send` places at this event, after the hook. -/
def placement : Event → Option (AgentPid × Message)
  | .put dest msg => some (dest, msg)
  | .deadLetter dest msg _ => some (dest, msg)
  | .queuedOutbound dest msg => some (dest, msg)
  | _ => none

/-- A message goes into a mailbox without `send`, or past all mailboxes after it. -/
def bypasses : Event → Bool
  | .direct _ _ delivered => delivered
  | .deadLetter _ _ _ => true
  | .queuedOutbound _ _ => true
  | _ => false

end Event

def deliveries (trace : List Event) : List (AgentPid × Message) :=
  trace.filterMap Event.delivery

def acceptances (trace : List Event) : List (AgentPid × Message) :=
  trace.filterMap Event.acceptance

def placements (trace : List Event) : List (AgentPid × Message) :=
  trace.filterMap Event.placement

/-! ## The automaton -/

/-- The state is the message the hook has accepted and `send` has not placed yet. -/
def hookStep (waiting : Option (AgentPid × Message)) (event : Event) :
    Option (Option (AgentPid × Message)) :=
  match waiting, event.acceptance, event.placement with
  | none, accepted, none => some accepted
  | some message, none, some placed => if placed = message then some none else none
  | _, _, _ => none

/-- Nobody waits and nobody is placed, or who waits is placed. -/
theorem hookStep_eq_some {w w' : Option (AgentPid × Message)} {event : Event} :
    hookStep w event = some w' ↔
      (w = none ∧ event.placement = none ∧ event.acceptance = w') ∨
      (∃ message, w = some message ∧ event.placement = some message ∧
        event.acceptance = none ∧ w' = none) := by
  unfold hookStep
  cases w with
  | none =>
      cases hplaced : event.placement with
      | none => simp
      | some placed => simp
  | some message =>
      cases haccepted : event.acceptance with
      | some accepted => simp
      | none =>
          cases hplaced : event.placement with
          | none => simp
          | some placed =>
              by_cases hsame : placed = message
              · simp [hsame, eq_comm]
              · simp [hsame]

def hookScan (trace : List Event) : Option (Option (AgentPid × Message)) :=
  trace.foldlM hookStep none

theorem hookScan_append (trace events : List Event) :
    hookScan (trace ++ events) = (hookScan trace).bind fun w => events.foldlM hookStep w :=
  List.foldlM_append

theorem hookScan_concat_eq_some {trace : List Event} {event : Event}
    {w : Option (AgentPid × Message)} :
    hookScan (trace ++ [event]) = some w ↔
      ∃ before, hookScan trace = some before ∧ hookStep before event = some w := by
  rw [hookScan_append, Option.bind_eq_some_iff]
  simp

theorem hookScan_of_prefix {pre trace : List Event} (hpre : pre <+: trace)
    {w : Option (AgentPid × Message)} (h : hookScan trace = some w) :
    ∃ before, hookScan pre = some before := by
  obtain ⟨events, rfl⟩ := hpre
  rw [hookScan_append, Option.bind_eq_some_iff] at h
  obtain ⟨before, hbefore, _⟩ := h
  exact ⟨before, hbefore⟩

theorem acceptance_eq_some {event : Event} {message : AgentPid × Message}
    (h : event.acceptance = some message) :
    event = .offered message.1 message.2 true := by
  cases event with
  | offered dest msg accepted =>
      cases accepted with
      | false => contradiction
      | true => rw [← Option.some.inj h]
  | _ => contradiction

/-- Who waits was accepted by the last event. -/
theorem accepted_of_hookScan {trace : List Event} {message : AgentPid × Message}
    (h : hookScan trace = some (some message)) :
    ∃ before, trace = before ++ [.offered message.1 message.2 true] := by
  rcases List.eq_nil_or_concat trace with rfl | ⟨before, event, rfl⟩
  · simp [hookScan] at h
  · rw [List.concat_eq_append] at h ⊢
    obtain ⟨w, _, hstep⟩ := hookScan_concat_eq_some.mp h
    rcases hookStep_eq_some.mp hstep with ⟨_, _, haccepted⟩ | ⟨_, _, _, _, hnone⟩
    · exact ⟨before, by rw [acceptance_eq_some haccepted]⟩
    · contradiction

/-- The hook accepts what `send` places, in the same order. -/
theorem acceptances_eq {trace : List Event} {w : Option (AgentPid × Message)}
    (h : hookScan trace = some w) : acceptances trace = placements trace ++ w.toList := by
  induction trace using List.reverseRecOn generalizing w with
  | nil =>
      obtain rfl : none = w := by simpa [hookScan] using h
      rfl
  | append_singleton before event ih =>
      obtain ⟨w', hbefore, hstep⟩ := hookScan_concat_eq_some.mp h
      have hprevious := ih hbefore
      simp only [acceptances, placements] at hprevious
      rw [acceptances, placements, List.filterMap_append, List.filterMap_append, hprevious]
      rcases hookStep_eq_some.mp hstep with ⟨rfl, hplaced, rfl⟩ |
        ⟨message, rfl, hplaced, haccepted, rfl⟩
      · cases haccepted : event.acceptance with
        | none => simp [hplaced, haccepted]
        | some message => simp [hplaced, haccepted]
      · simp [hplaced, haccepted]

/-! ## What the hook's log is worth -/

/-- The hook's log is the list of deliveries, and each delivery follows at once on the
hook's acceptance of that very message for that very process. -/
structure HookCovers (trace : List Event) : Prop where
  logged : deliveries trace = acceptances trace
  offered : ∀ pre event message, pre ++ [event] <+: trace →
    event.delivery = some message →
    ∃ before, pre = before ++ [.offered message.1 message.2 true]

theorem deliveries_eq_placements {trace : List Event}
    (h : ∀ event ∈ trace, event.bypasses = false) :
    deliveries trace = placements trace := by
  apply List.filterMap_congr
  intro event hevent
  have hstraight := h event hevent
  cases event with
  | direct dest msg delivered =>
      cases delivered with
      | false => rfl
      | true => contradiction
  | deadLetter => contradiction
  | queuedOutbound => contradiction
  | _ => rfl

/-- Where one filter keeps no more than another, and the results agree, the filters
agree. -/
theorem filterMap_agree {α β : Type} {f g : α → Option β} {items : List α}
    (hle : ∀ a ∈ items, f a = none ∨ f a = g a)
    (h : items.filterMap f = items.filterMap g) : ∀ a ∈ items, f a = g a := by
  have hlength : ∀ rest : List α, (∀ a ∈ rest, f a = none ∨ f a = g a) →
      (rest.filterMap f).length ≤ (rest.filterMap g).length := by
    intro rest
    induction rest with
    | nil => exact fun _ => Nat.le_refl _
    | cons a rest ih =>
        intro hrest
        have htail := ih fun b hb => hrest b (List.mem_cons_of_mem a hb)
        rcases hrest a List.mem_cons_self with hnone | hsame
        · rw [List.filterMap_cons_none hnone]
          apply htail.trans
          exact ((List.sublist_cons_self a rest).filterMap g).length_le
        · cases hg : g a with
          | none =>
              rw [List.filterMap_cons_none hg, List.filterMap_cons_none (hsame.trans hg)]
              exact htail
          | some b =>
              rw [List.filterMap_cons_some hg, List.filterMap_cons_some (hsame.trans hg)]
              exact Nat.succ_le_succ htail
  induction items with
  | nil => exact fun a ha => absurd ha List.not_mem_nil
  | cons a rest ih =>
      have hrest : ∀ b ∈ rest, f b = none ∨ f b = g b :=
        fun b hb => hle b (List.mem_cons_of_mem a hb)
      have hhead : f a = g a := by
        rcases hle a List.mem_cons_self with hnone | hsame
        · cases hg : g a with
          | none => exact hnone
          | some b =>
              rw [List.filterMap_cons_none hnone, List.filterMap_cons_some hg] at h
              have hshort := hlength rest hrest
              rw [h, List.length_cons] at hshort
              exact absurd hshort (Nat.not_succ_le_self _)
        · exact hsame
      have htail : rest.filterMap f = rest.filterMap g := by
        cases hg : g a with
        | none =>
            rwa [List.filterMap_cons_none hg, List.filterMap_cons_none (hhead.trans hg)] at h
        | some b =>
            rw [List.filterMap_cons_some hg, List.filterMap_cons_some (hhead.trans hg)] at h
            exact (List.cons.inj h).2
      intro b hb
      rcases List.mem_cons.mp hb with rfl | hb
      · exact hhead
      · exact ih hrest htail b hb

/-- A trace the automaton reads is covered by the hook exactly when no message goes
into a mailbox without `send`, nor past the mailboxes after the hook. -/
theorem hookCovers_iff {trace : List Event} (h : hookScan trace = some none) :
    HookCovers trace ↔ ∀ event ∈ trace, event.bypasses = false := by
  have haccepted : acceptances trace = placements trace := by
    simpa using acceptances_eq h
  constructor
  · intro hcovers
    have hdirect : ∀ event ∈ trace, ∀ dest msg, event ≠ .direct dest msg true := by
      rintro event hevent dest msg rfl
      obtain ⟨pre, post, rfl⟩ := List.append_of_mem hevent
      have hpre : pre ++ [.direct dest msg true] <+: pre ++ .direct dest msg true :: post :=
        ⟨post, by simp⟩
      obtain ⟨before, rfl⟩ := hcovers.offered pre _ (dest, msg) hpre rfl
      obtain ⟨w, hw⟩ := hookScan_of_prefix hpre h
      obtain ⟨w', hw', hstep⟩ := hookScan_concat_eq_some.mp hw
      obtain ⟨w'', _, hoffer⟩ := hookScan_concat_eq_some.mp hw'
      rcases hookStep_eq_some.mp hoffer with ⟨_, _, rfl⟩ | ⟨_, _, hplaced, _, _⟩
      · rcases hookStep_eq_some.mp hstep with ⟨hnone, _, _⟩ | ⟨_, _, hplaced, _, _⟩
        · contradiction
        · contradiction
      · contradiction
    have hagree : ∀ event ∈ trace, event.delivery = event.placement := by
      apply filterMap_agree
      · intro event hevent
        cases event with
        | put => exact .inr rfl
        | direct dest msg delivered =>
            cases delivered with
            | false => exact .inl rfl
            | true => exact absurd rfl (hdirect _ hevent dest msg)
        | _ => exact .inl rfl
      · exact hcovers.logged.trans haccepted
    intro event hevent
    have hsame := hagree event hevent
    cases event with
    | direct dest msg delivered =>
        cases delivered with
        | false => rfl
        | true => exact absurd rfl (hdirect _ hevent dest msg)
    | deadLetter => contradiction
    | queuedOutbound => contradiction
    | _ => rfl
  · intro hstraight
    have hsame := deliveries_eq_placements hstraight
    refine ⟨hsame.trans haccepted.symm, ?_⟩
    intro pre event message hpre hdelivery
    obtain ⟨w, hw⟩ := hookScan_of_prefix hpre h
    obtain ⟨w', hw', hstep⟩ := hookScan_concat_eq_some.mp hw
    have hmem : event ∈ trace := hpre.subset (by simp)
    have hplaced : event.placement = some message := by
      have hnot := hstraight event hmem
      cases event with
      | put => exact hdelivery
      | direct dest msg delivered =>
          cases delivered with
          | false => contradiction
          | true => contradiction
      | _ => contradiction
    rcases hookStep_eq_some.mp hstep with ⟨_, hnone, _⟩ | ⟨other, rfl, hother, _, _⟩
    · rw [hplaced] at hnone
      contradiction
    · cases hplaced.symm.trans hother
      exact accepted_of_hookScan hw'

end Zeptobeam
