/-
Breadth-first walks.  A walk discovers what comes after each node it visits, and visits a
node once.  With fuel for every mention of a node it discovers exactly what is reachable.
-/
import Mathlib.Data.List.Count
import Mathlib.Logic.Relation

namespace BreadthFirst

universe u

variable {α : Type u} [DecidableEq α]

/-- What a walk discovers, in this order; what is discovered waits in the queue. -/
def discovered (next : α → List α) : Nat → List α → List α → List α
  | 0, _, _ => []
  | _ + 1, _, [] => []
  | fuel + 1, visited, current :: queue =>
      if current ∈ visited then discovered next fuel visited queue
      else next current ++ discovered next fuel (current :: visited) (queue ++ next current)

/-- The mentions that are left for a walk. -/
def unvisited (mentions visited : List α) : List α :=
  mentions.filter fun node => node ∉ visited

/-- A node that is visited takes its mentions away. -/
theorem length_unvisited_cons (mentions : List α) {visited : List α} {node : α}
    (hnew : node ∉ visited) :
    (unvisited mentions (node :: visited)).length + mentions.count node =
      (unvisited mentions visited).length := by
  unfold unvisited
  induction mentions with
  | nil => rfl
  | cons mention rest ih =>
      simp only [List.mem_cons] at ih ⊢
      by_cases hnode : mention = node
      · subst hnode
        simp only [List.filter_cons, true_or, not_true_eq_false, decide_false,
          Bool.false_eq_true, if_false, List.count_cons_self, hnew, not_false_eq_true,
          decide_true, if_true, List.length_cons]
        omega
      · have hcount : (mention :: rest).count node = rest.count node :=
          List.count_cons_of_ne hnode
        rw [hcount]
        by_cases hvisited : mention ∈ visited
        · simpa [hvisited, hnode] using ih
        · simp only [List.filter_cons, hnode, hvisited, or_self,
            not_false_eq_true, decide_true, if_true, List.length_cons]
          omega

section Walk

variable {next : α → List α}

/-- What is discovered is reachable from the queue. -/
theorem reachable_of_mem_discovered {fuel : Nat} {visited queue : List α} {found : α}
    (h : found ∈ discovered next fuel visited queue) :
    ∃ node ∈ queue, Relation.TransGen (fun v w => w ∈ next v) node found := by
  induction fuel generalizing visited queue with
  | zero => contradiction
  | succ fuel ih =>
      cases queue with
      | nil => contradiction
      | cons current queue =>
          unfold discovered at h
          split at h
          · obtain ⟨node, hnode, hreach⟩ := ih h
            exact ⟨node, List.mem_cons_of_mem current hnode, hreach⟩
          · rcases List.mem_append.mp h with hnext | hlater
            · exact ⟨current, List.mem_cons_self, .single hnext⟩
            · obtain ⟨node, hnode, hreach⟩ := ih hlater
              rcases List.mem_append.mp hnode with hqueued | hnext
              · exact ⟨node, List.mem_cons_of_mem current hqueued, hreach⟩
              · exact ⟨current, List.mem_cons_self, .head hnext hreach⟩

/-- A walk that does not run out of fuel visits all it queues and all it discovers, so
that it discovers what comes after them. -/
theorem next_discovered {mentions : List α}
    (hmentions : ∀ node, (next node).length ≤ mentions.count node) (fuel : Nat)
    (visited queue : List α)
    (hfuel : queue.length + (unvisited mentions visited).length ≤ fuel) :
    ∀ node, node ∉ visited → node ∈ queue ∨ node ∈ discovered next fuel visited queue →
      ∀ after ∈ next node, after ∈ discovered next fuel visited queue := by
  induction fuel generalizing visited queue with
  | zero =>
      intro node _ hnode
      have hempty : queue = [] := List.eq_nil_of_length_eq_zero (by omega)
      rcases hnode with hqueued | hfound
      · rw [hempty] at hqueued
        contradiction
      · contradiction
  | succ fuel ih =>
      cases queue with
      | nil =>
          intro node _ hnode
          rcases hnode with hqueued | hfound
          · contradiction
          · contradiction
      | cons current queue =>
          have hlength : (current :: queue).length = queue.length + 1 := rfl
          intro node hnew hnode after hafter
          unfold discovered at hnode ⊢
          split
          · rename_i hvisited
            rw [if_pos hvisited] at hnode
            apply ih visited queue (by omega) node hnew
            · rcases hnode with hqueued | hfound
              · rcases List.mem_cons.mp hqueued with rfl | hqueued
                · exact absurd hvisited hnew
                · exact .inl hqueued
              · exact .inr hfound
            · exact hafter
          · rename_i hfresh
            rw [if_neg hfresh] at hnode
            by_cases hcurrent : node = current
            · subst hcurrent
              exact List.mem_append_left _ hafter
            · have hleft := length_unvisited_cons mentions hfresh
              have hqueue : (queue ++ next current).length =
                  queue.length + (next current).length := List.length_append
              have hbound := hmentions current
              have hlater := ih (current :: visited) (queue ++ next current) (by omega)
              apply List.mem_append_right
              apply hlater node (List.not_mem_cons_of_ne_of_not_mem hcurrent hnew)
              · rcases hnode with hqueued | hfound
                · rcases List.mem_cons.mp hqueued with heq | hqueued
                  · exact absurd heq hcurrent
                  · exact .inl (List.mem_append_left _ hqueued)
                · rcases List.mem_append.mp hfound with hnext | hfound
                  · exact .inl (List.mem_append_right _ hnext)
                  · exact .inr hfound
              · exact hafter

/-- From one node, a walk discovers exactly what is reachable over an edge or more. -/
theorem mem_discovered_iff {mentions : List α}
    (hmentions : ∀ node, (next node).length ≤ mentions.count node) {fuel : Nat}
    (hfuel : mentions.length + 1 ≤ fuel) (start found : α) :
    found ∈ discovered next fuel [] [start] ↔
      Relation.TransGen (fun v w => w ∈ next v) start found := by
  constructor
  · intro h
    obtain ⟨node, hnode, hreach⟩ := reachable_of_mem_discovered h
    rwa [List.mem_singleton.mp hnode] at hreach
  · have hle : (unvisited mentions []).length ≤ mentions.length :=
      List.length_filter_le _ mentions
    have hone : [start].length = 1 := rfl
    have hafter := next_discovered hmentions fuel [] [start] (by omega)
    intro h
    induction h with
    | single hnext =>
        exact hafter start List.not_mem_nil (.inl (List.mem_singleton_self start)) _ hnext
    | tail _ hnext ih => exact hafter _ List.not_mem_nil (.inr ih) _ hnext

end Walk

end BreadthFirst
