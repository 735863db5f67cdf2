/-
A queue whose items carry tags that only its history knows: an item is announced with its
tag, and enters right after that.  Items of one tag leave in the order they were announced
in, and none of them twice.
-/
import Mathlib.Data.List.Sublists

namespace TaggedQueue

universe u v

variable {α : Type u} {τ : Type v}

/-- What happens to the queue. -/
inductive Step (α : Type u) (τ : Type v) where
  | announce (item : α) (tag : τ)
  /-- The item announced last enters. -/
  | enter (item : α)
  /-- The item announced last goes elsewhere. -/
  | pass
  /-- An item enters that nobody announced. -/
  | stray (item : α)
  /-- The first item leaves; it is taken, or lost. -/
  | leave (taken : Bool)
  | other

structure Book (α : Type u) (τ : Type v) where
  last : Option (α × τ)
  queue : List (α × τ)
  taken : List (α × τ)

namespace Book

def empty : Book α τ := ⟨none, [], []⟩

variable [DecidableEq α] (strayTag : τ)

def record (book : Book α τ) : Step α τ → Book α τ
  | .announce item tag => { book with last := some (item, tag) }
  | .enter item =>
      let tag := ((book.last.filter (·.1 = item)).map Prod.snd).getD strayTag
      { book with last := none, queue := book.queue ++ [(item, tag)] }
  | .pass => { book with last := none }
  | .stray item => { book with queue := book.queue ++ [(item, strayTag)] }
  | .leave taken =>
      match book.queue with
      | [] => book
      | entry :: rest =>
          { book with
            queue := rest
            taken := if taken then book.taken ++ [entry] else book.taken }
  | .other => book

def replay (steps : List (Step α τ)) : Book α τ :=
  steps.foldl (record strayTag) empty

theorem replay_append (steps new : List (Step α τ)) :
    replay strayTag (steps ++ new) = new.foldl (record strayTag) (replay strayTag steps) :=
  List.foldl_append

/-! ## The order -/

/-- The items that were announced, with their tags. -/
def announced (steps : List (Step α τ)) : List (α × τ) :=
  steps.filterMap fun
    | .announce item tag => some (item, tag)
    | _ => none

/-- What was taken, is in the queue, or was just announced, in that order. -/
def known (book : Book α τ) : List (α × τ) :=
  book.taken ++ book.queue ++ book.last.toList

/-- One step, for entries that are no strays. -/
theorem filter_known_record {p : α × τ → Bool} (hstray : ∀ item, p (item, strayTag) = false)
    (book : Book α τ) (step : Step α τ) :
    ((book.record strayTag step).known.filter p).Sublist
      (book.known.filter p ++ (announced [step]).filter p) := by
  cases step with
  | announce item tag =>
      have hknown : (book.record strayTag (.announce item tag)).known =
          book.taken ++ book.queue ++ [(item, tag)] := rfl
      rw [hknown, known, List.filter_append, List.filter_append (book.taken ++ book.queue)]
      exact ((List.sublist_append_left _ _).append (List.Sublist.refl _))
  | enter item =>
      have hnone : (announced [(.enter item : Step α τ)]).filter p = [] := rfl
      rw [hnone, List.append_nil]
      have hknown : (book.record strayTag (.enter item)).known = book.taken ++ book.queue ++
          [(item, ((book.last.filter (·.1 = item)).map Prod.snd).getD strayTag)] := by
        simp [record, known]
      rw [hknown, known, List.filter_append, List.filter_append (book.taken ++ book.queue)]
      apply (List.Sublist.refl _).append
      cases hlast : book.last with
      | none =>
          rw [Option.filter_none, Option.map_none, Option.getD_none,
            List.filter_cons_of_neg (by simp [hstray])]
          exact List.nil_sublist _
      | some entry =>
          obtain ⟨other, tag⟩ := entry
          by_cases hitem : other = item
          · rw [Option.filter_some_pos (by simpa using hitem), Option.map_some,
              Option.getD_some, ← hitem]
            exact List.Sublist.refl _
          · rw [Option.filter_some_neg (by simpa using hitem), Option.map_none,
              Option.getD_none, List.filter_cons_of_neg (by simp [hstray])]
            exact List.nil_sublist _
  | pass =>
      have hnone : (announced [(.pass : Step α τ)]).filter p = [] := rfl
      have hknown : (book.record strayTag .pass).known = book.taken ++ book.queue ++ [] := rfl
      rw [hnone, List.append_nil, hknown, List.append_nil]
      exact (List.sublist_append_left _ _).filter p
  | stray item =>
      have hnone : (announced [(.stray item : Step α τ)]).filter p = [] := rfl
      have hknown : (book.record strayTag (.stray item)).known =
          book.taken ++ (book.queue ++ [(item, strayTag)]) ++ book.last.toList := rfl
      rw [hnone, List.append_nil, hknown, known]
      simp [List.filter_append, hstray]
  | leave taken =>
      have hnone : (announced [(.leave taken : Step α τ)]).filter p = [] := rfl
      rw [hnone, List.append_nil]
      apply List.Sublist.filter
      unfold record known
      dsimp only
      split
      · exact List.Sublist.refl _
      · rename_i entry rest hqueue
        rw [hqueue]
        dsimp only
        apply List.Sublist.append _ (List.Sublist.refl _)
        split
        · rw [List.append_assoc]
          exact List.Sublist.refl _
        · exact (List.Sublist.refl _).append (List.sublist_cons_self _ _)
  | other =>
      have hnone : (announced [(.other : Step α τ)]).filter p = [] := rfl
      rw [hnone, List.append_nil]
      exact List.Sublist.refl _

/-- Whatever entries are picked by their item and tag, strays apart: those taken and those
still in the queue come in the order they were announced in, each at most once. -/
theorem filter_known_replay {p : α × τ → Bool} (hstray : ∀ item, p (item, strayTag) = false)
    (steps : List (Step α τ)) :
    ((replay strayTag steps).known.filter p).Sublist ((announced steps).filter p) := by
  induction steps using List.reverseRecOn with
  | nil => exact List.Sublist.refl _
  | append_singleton steps step ih =>
      have happend : announced (steps ++ [step]) = announced steps ++ announced [step] :=
        List.filterMap_append
      rw [replay_append, happend, List.filter_append]
      exact (filter_known_record strayTag hstray _ step).trans
        (ih.append (List.Sublist.refl _))

theorem filter_taken_replay {p : α × τ → Bool} (hstray : ∀ item, p (item, strayTag) = false)
    (steps : List (Step α τ)) :
    ((replay strayTag steps).taken.filter p).Sublist ((announced steps).filter p) := by
  have htaken : (replay strayTag steps).taken.Sublist (replay strayTag steps).known := by
    rw [known, List.append_assoc]
    exact List.sublist_append_left _ _
  exact (htaken.filter p).trans (filter_known_replay strayTag hstray steps)

theorem taken_record_grows (book : Book α τ) (step : Step α τ) :
    book.taken <+: (book.record strayTag step).taken := by
  cases step with
  | leave taken =>
      unfold record
      cases hqueue : book.queue with
      | nil => exact List.prefix_refl _
      | cons entry rest => cases taken with
        | false => exact List.prefix_refl _
        | true => exact List.prefix_append _ _
  | _ => exact List.prefix_refl _

/-- What was taken stays taken. -/
theorem taken_replay_grows (steps new : List (Step α τ)) :
    (replay strayTag steps).taken <+: (replay strayTag (steps ++ new)).taken := by
  rw [replay_append]
  generalize replay strayTag steps = book
  induction new generalizing book with
  | nil => exact List.prefix_refl _
  | cons step rest ih => exact (taken_record_grows strayTag book step).trans (ih _)

/-! ## How often -/

/-- How often an entry is in a list. -/
def times [DecidableEq τ] (entry : α × τ) (entries : List (α × τ)) : Nat :=
  entries.countP (· = entry)

/-- How often an entry has come in, and was not lost. -/
def kept [DecidableEq τ] (book : Book α τ) (entry : α × τ) : Nat :=
  times entry (book.taken ++ book.queue)

variable [DecidableEq τ]

omit strayTag in
theorem times_append (entry : α × τ) (entries more : List (α × τ)) :
    times entry (entries ++ more) = times entry entries + times entry more :=
  List.countP_append

theorem times_stray {entry : α × τ} (hentry : entry.2 ≠ strayTag) (item : α) :
    times entry [(item, strayTag)] = 0 := by
  apply List.countP_eq_zero.mpr
  intro other hother
  rw [List.mem_singleton.mp hother, decide_eq_true_eq]
  rintro rfl
  exact hentry rfl

/-- Only what was announced comes in with its tag. -/
theorem kept_enter {entry : α × τ} (hentry : entry.2 ≠ strayTag) (book : Book α τ) (item : α) :
    (book.record strayTag (.enter item)).kept entry ≤
      book.kept entry + times entry book.last.toList := by
  have hkept : (book.record strayTag (.enter item)).kept entry = book.kept entry +
      times entry [(item, ((book.last.filter (·.1 = item)).map Prod.snd).getD strayTag)] := by
    rw [kept, kept, ← times_append, List.append_assoc]
    rfl
  rw [hkept]
  apply Nat.add_le_add_left
  cases hlast : book.last with
  | none =>
      rw [Option.filter_none, Option.map_none, Option.getD_none, times_stray strayTag hentry]
      exact Nat.zero_le _
  | some last =>
      obtain ⟨other, tag⟩ := last
      by_cases hitem : other = item
      · rw [Option.filter_some_pos (by simpa using hitem), Option.map_some,
          Option.getD_some, ← hitem]
        exact Nat.le_refl _
      · rw [Option.filter_some_neg (by simpa using hitem), Option.map_none,
          Option.getD_none, times_stray strayTag hentry]
        exact Nat.zero_le _

theorem kept_stray {entry : α × τ} (hentry : entry.2 ≠ strayTag) (book : Book α τ) (item : α) :
    (book.record strayTag (.stray item)).kept entry = book.kept entry := by
  have hkept : (book.record strayTag (.stray item)).kept entry =
      book.kept entry + times entry [(item, strayTag)] := by
    rw [kept, kept, ← times_append, List.append_assoc]
    rfl
  rw [hkept, times_stray strayTag hentry, Nat.add_zero]

theorem kept_leave (book : Book α τ) (taken : Bool) (entry : α × τ) :
    (book.record strayTag (.leave taken)).kept entry ≤ book.kept entry := by
  unfold record kept
  dsimp only
  split
  · exact Nat.le_refl _
  · rename_i first rest hqueue
    apply List.Sublist.countP_le
    rw [hqueue]
    cases taken with
    | true =>
        simp only [if_true, List.append_assoc]
        exact List.Sublist.refl _
    | false => exact (List.Sublist.refl _).append (List.sublist_cons_self _ _)

omit [DecidableEq τ] in
theorem last_leave (book : Book α τ) (taken : Bool) :
    (book.record strayTag (.leave taken)).last = book.last := by
  unfold record
  dsimp only
  split
  · rfl
  · rfl

end Book

/-! ## The items -/

/-- What a step does to a queue of bare items. -/
def Step.onItems (items : List α) : Step α τ → List α
  | .enter item => items ++ [item]
  | .stray item => items ++ [item]
  | .leave _ => items.tail
  | _ => items

/-- The item that a step takes from a queue of bare items. -/
def Step.takes (items : List α) : Step α τ → List α
  | .leave true => items.head?.toList
  | _ => []

namespace Book

variable [DecidableEq α] (strayTag : τ)

def items (book : Book α τ) : List α := book.queue.map Prod.fst

/-- The items do not depend on what was announced. -/
theorem items_record (book : Book α τ) (step : Step α τ) :
    (book.record strayTag step).items = step.onItems book.items := by
  cases step with
  | announce item tag => rfl
  | enter item => simp [record, items, Step.onItems]
  | pass => rfl
  | stray item => simp [record, items, Step.onItems]
  | leave taken =>
      unfold record items Step.onItems
      cases hqueue : book.queue with
      | nil => simp [hqueue]
      | cons entry rest => rfl
  | other => rfl

theorem taken_record (book : Book α τ) (step : Step α τ) :
    (book.record strayTag step).taken.map Prod.fst =
      book.taken.map Prod.fst ++ step.takes book.items := by
  cases step with
  | announce item tag => exact (List.append_nil _).symm
  | enter item => exact (List.append_nil _).symm
  | pass => exact (List.append_nil _).symm
  | stray item => exact (List.append_nil _).symm
  | leave taken =>
      unfold record items Step.takes
      cases hqueue : book.queue with
      | nil => cases taken with
        | false => simp
        | true => simp
      | cons entry rest => cases taken with
        | false => simp
        | true => simp
  | other => exact (List.append_nil _).symm

theorem items_foldl (book : Book α τ) (steps : List (Step α τ)) :
    (steps.foldl (record strayTag) book).items = steps.foldl Step.onItems book.items := by
  induction steps generalizing book with
  | nil => rfl
  | cons step rest ih => rw [List.foldl_cons, List.foldl_cons, ih, items_record]

/-- Steps that take nothing. -/
theorem taken_foldl_of_none {steps : List (Step α τ)} (h : ∀ step ∈ steps, step ≠ .leave true)
    (book : Book α τ) : (steps.foldl (record strayTag) book).taken = book.taken := by
  induction steps generalizing book with
  | nil => rfl
  | cons step rest ih =>
      rw [List.foldl_cons, ih fun later hlater => h later (.tail _ hlater)]
      have hstep := h step List.mem_cons_self
      cases step with
      | leave taken =>
          cases taken with
          | true => contradiction
          | false =>
              unfold record
              cases book.queue with
              | nil => rfl
              | cons entry queue => rfl
      | _ => rfl

/-- All items leave. -/
theorem taken_leaveAll (book : Book α τ) (n : Nat) (hn : book.queue.length = n) :
    ((List.replicate n (.leave true)).foldl (record strayTag) book).taken =
      book.taken ++ book.queue ∧
    ((List.replicate n (.leave true)).foldl (record strayTag) book).queue = [] := by
  induction n generalizing book with
  | zero =>
      obtain hqueue := List.length_eq_zero_iff.mp hn
      simp [hqueue]
  | succ n ih =>
      cases hqueue : book.queue with
      | nil => simp [hqueue] at hn
      | cons entry rest =>
          have hstep : book.record strayTag (.leave true) =
              { book with queue := rest, taken := book.taken ++ [entry] } := by
            simp [record, hqueue]
          rw [List.replicate_succ, List.foldl_cons, hstep]
          rw [hqueue] at hn
          obtain ⟨htaken, hempty⟩ := ih { book with
            queue := rest, taken := book.taken ++ [entry] } (Nat.succ.inj hn)
          refine ⟨?_, hempty⟩
          rw [htaken, List.append_assoc]
          rfl

end Book

end TaggedQueue
