/-
Searching a list for a pattern: where it occurs first, where an element occurs last, and when
the search of two lists that are put together is the search of the second.
-/
import Mathlib.Data.List.Infix

namespace TextSearch

universe u

variable {A : Type u} {pattern before text : List A}

/-! ## Occurrences that begin in the first of two lists -/

/-- No occurrence of the pattern begins in the first of the two lists. -/
def Clear (pattern before text : List A) : Prop :=
  ∀ front, front <:+ before → front ≠ [] → ¬ pattern <+: front ++ text

/-- A longer pattern occurs in fewer places. -/
theorem Clear.mono {short : List A} (h : Clear short before text) (hshort : short <+: pattern) :
    Clear pattern before text :=
  fun front hfront hne hbegins => h front hfront hne (hshort.trans hbegins)

/-- An occurrence that begins in the first list is over there, or goes on into the second. -/
theorem goes_on_of_prefix {front : List A} (hbefore : ¬ pattern <:+: before)
    (hfront : front <:+ before) (hbegins : pattern <+: front ++ text) :
    ∃ c more, pattern = front ++ c :: more ∧ text.head? = some c := by
  rcases List.prefix_or_prefix_of_prefix hbegins (List.prefix_append front text) with h | h
  · exact absurd (h.isInfix.trans hfront.isInfix) hbefore
  · obtain ⟨more, rfl⟩ := h
    rw [List.prefix_append_right_inj] at hbegins
    cases more with
    | nil =>
        rw [List.append_nil] at hbefore
        exact absurd hfront.isInfix hbefore
    | cons c more =>
        obtain ⟨rest, rfl⟩ := hbegins
        exact ⟨c, more, rfl, rfl⟩

theorem clear_of_head (hbefore : ¬ pattern <:+: before) (hhead : ∀ c ∈ text.head?, c ∉ pattern) :
    Clear pattern before text := by
  intro front hfront hne hbegins
  obtain ⟨c, more, hpattern, hc⟩ := goes_on_of_prefix hbefore hfront hbegins
  apply hhead c hc
  rw [hpattern]
  exact List.mem_append_right front List.mem_cons_self

theorem clear_of_last (hbefore : ¬ pattern <:+: before)
    (hlast : ∀ c ∈ before.getLast?, c ∉ pattern) : Clear pattern before text := by
  intro front hfront hne hbegins
  obtain ⟨c, more, hpattern, -⟩ := goes_on_of_prefix hbefore hfront hbegins
  have hsame : before.getLast? = some (front.getLast hne) := by
    obtain ⟨start, rfl⟩ := hfront
    rw [List.getLast?_append_of_ne_nil start hne, List.getLast?_eq_some_getLast hne]
  apply hlast _ hsame
  rw [hpattern]
  exact List.mem_append_left _ (List.getLast_mem hne)

theorem clear_singleton {c : A} (h : c ∉ before) : Clear [c] before text := by
  apply clear_of_last
  · rintro ⟨front, back, rfl⟩
    simp at h
  · intro d hd hmem
    rw [List.mem_singleton.mp hmem] at hd
    exact h (List.mem_of_getLast? hd)

variable [DecidableEq A] {n : Nat}

/-! ## The first place -/

/-- The first place where the pattern occurs. -/
def find (pattern : List A) : List A → Option Nat
  | [] => if pattern = [] then some 0 else none
  | c :: text =>
      if pattern.isPrefixOf (c :: text) then some 0 else (find pattern text).map (· + 1)

theorem find_at_front (h : pattern <+: text) : find pattern text = some 0 := by
  cases text with
  | nil => rw [find, if_pos (List.prefix_nil.mp h)]
  | cons c text => rw [find, if_pos (List.isPrefixOf_iff_prefix.mpr h)]

theorem find_cons {c : A} (h : ¬ pattern <+: c :: text) :
    find pattern (c :: text) = (find pattern text).map (· + 1) := by
  rw [find, if_neg (mt List.isPrefixOf_iff_prefix.mp h)]

theorem find_eq_none_iff : find pattern text = none ↔ ¬ pattern <:+: text := by
  induction text with
  | nil =>
      rw [find, List.infix_nil]
      split <;> simp_all
  | cons c text ih =>
      rw [List.infix_cons_iff, not_or, ← ih]
      by_cases h : pattern <+: c :: text
      · simp [find_at_front h, h]
      · simp [find_cons h, h]

/-- The pattern is at the place that is found. -/
theorem prefix_of_find (h : find pattern text = some n) : pattern <+: text.drop n := by
  induction text generalizing n with
  | nil =>
      rw [find] at h
      split at h
      · rename_i hnil
        rw [hnil]
        exact List.nil_prefix
      · contradiction
  | cons c text ih =>
      by_cases hhere : pattern <+: c :: text
      · rw [find_at_front hhere] at h
        cases h
        exact hhere
      · rw [find_cons hhere] at h
        obtain ⟨m, hm, rfl⟩ := Option.map_eq_some_iff.mp h
        exact ih hm

/-- The place that is found is the first one. -/
theorem find_le (h : pattern <+: text.drop n) : ∃ m ≤ n, find pattern text = some m := by
  induction text generalizing n with
  | nil =>
      rw [List.drop_nil] at h
      exact ⟨0, Nat.zero_le n, find_at_front h⟩
  | cons c text ih =>
      by_cases hhere : pattern <+: c :: text
      · exact ⟨0, Nat.zero_le n, find_at_front hhere⟩
      · cases n with
        | zero => exact absurd h hhere
        | succ n =>
            obtain ⟨m, hm, hfind⟩ := ih h
            exact ⟨m + 1, Nat.succ_le_succ hm, by rw [find_cons hhere, hfind]; rfl⟩

theorem find_append (h : Clear pattern before text) :
    find pattern (before ++ text) = (find pattern text).map (before.length + ·) := by
  induction before with
  | nil => simp
  | cons c before ih =>
      have hrest : Clear pattern before text := fun front hfront =>
        h front (hfront.trans (List.suffix_cons c before))
      have hhere := h (c :: before) List.suffix_rfl (List.cons_ne_nil c before)
      rw [List.cons_append] at hhere ⊢
      rw [find_cons hhere, ih hrest, Option.map_map, List.length_cons]
      congr 1
      funext n
      exact Nat.add_right_comm before.length n 1

theorem find_append_self (h : Clear pattern before (pattern ++ text)) :
    find pattern (before ++ (pattern ++ text)) = some before.length := by
  rw [find_append h, find_at_front (List.prefix_append pattern text)]
  rfl

theorem length_le_of_find (h : find pattern text = some n) (hpattern : pattern ≠ []) :
    n + pattern.length ≤ text.length := by
  have hlength := (prefix_of_find h).length_le
  have hpos := List.length_pos_iff.mpr hpattern
  rw [List.length_drop] at hlength
  omega

/-- What is found stays the first occurrence when more follows. -/
theorem find_append_left (h : find pattern text = some n) (hpattern : pattern ≠ [])
    (more : List A) : find pattern (text ++ more) = some n := by
  induction text generalizing n with
  | nil =>
      have hbegins := prefix_of_find h
      rw [List.drop_nil, List.prefix_nil] at hbegins
      contradiction
  | cons c text ih =>
      by_cases hhere : pattern <+: c :: text
      · rw [find_at_front hhere] at h
        rw [find_at_front (hhere.trans (List.prefix_append _ more)), h]
      · rw [find_cons hhere] at h
        obtain ⟨m, hm, rfl⟩ := Option.map_eq_some_iff.mp h
        have hlength := length_le_of_find hm hpattern
        have hnot : ¬ pattern <+: c :: (text ++ more) := by
          intro hbegins
          apply hhere
          apply List.prefix_of_prefix_length_le hbegins (List.prefix_append (c :: text) more)
          rw [List.length_cons]
          omega
        rw [List.cons_append, find_cons hnot, ih hm]
        rfl

/-- A pattern that is in the second list neither, nor begins in the first, is not in both. -/
theorem not_infix_append (h : Clear pattern before text) (htext : ¬ pattern <:+: text) :
    ¬ pattern <:+: before ++ text := by
  rw [← find_eq_none_iff, find_append h, find_eq_none_iff.mpr htext]
  rfl

theorem find_singleton {c : A} {after : List A} (h : c ∉ before) :
    find [c] (before ++ c :: after) = some before.length :=
  find_append_self (clear_singleton h)

/-! ## The last place of an element -/

def rfind (c : A) (text : List A) : Option Nat :=
  (find [c] text.reverse).map fun n => text.length - 1 - n

theorem rfind_append_cons {c : A} (before : List A) {after : List A} (h : c ∉ after) :
    rfind c (before ++ c :: after) = some before.length := by
  have hfind : find [c] (before ++ c :: after).reverse = some after.length := by
    rw [List.reverse_append, List.reverse_cons, List.append_assoc, List.singleton_append,
      find_singleton (by simpa using h), List.length_reverse]
  rw [rfind, hfind, Option.map_some, List.length_append, List.length_cons]
  exact congrArg some (by omega)

end TextSearch
