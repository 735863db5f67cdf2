/-
Two records read side by side, place by place, until a place tells them apart.  A reader
that goes from the left record to the right one may see another thing at a place than a
reader that goes the other way: one of them may see no difference, or may fail.  The
module says when the two readings are each other's reverse.
-/
import Mathlib.Data.Ordering.Basic

namespace SideBySide

inductive Side where
  | left
  | right
deriving DecidableEq, Repr

def Side.swap : Side → Side
  | left => right
  | right => left

/-- The order in which the side is the smaller one. -/
def Side.order : Side → Ordering
  | left => .lt
  | right => .gt

/-- What the two readings see at a place. -/
inductive Sight where
  /-- Neither sees a difference. -/
  | alike
  /-- Both see which side is the smaller one. -/
  | apart (lesser : Side)
  /-- The reading from the smaller side sees no difference. -/
  | overlooked (lesser : Side)
  /-- The reading from the side that has ended sees no difference, the other one fails. -/
  | cut (ended : Side)
  /-- Both fail. -/
  | broken
deriving DecidableEq, Repr

def Sight.swap : Sight → Sight
  | alike => alike
  | apart lesser => apart lesser.swap
  | overlooked lesser => overlooked lesser.swap
  | cut ended => cut ended.swap
  | broken => broken

/-- Both readings see the order. -/
def Sight.ofOrdering : Ordering → Sight
  | .lt => apart .left
  | .eq => alike
  | .gt => apart .right

/-- The reading from the left, until it sees a difference or fails. -/
def forward : List Sight → Option Ordering
  | [] => some .eq
  | .alike :: rest => forward rest
  | .apart lesser :: _ => some lesser.order
  | .overlooked .left :: rest => forward rest
  | .overlooked .right :: _ => some .gt
  | .cut .left :: rest => forward rest
  | .cut .right :: _ => none
  | .broken :: _ => none

/-- The reading from the left goes on past a place. -/
def Sight.Passes : Sight → Prop
  | alike => True
  | apart _ => False
  | overlooked lesser => lesser = .left
  | cut ended => ended = .left
  | broken => False

@[simp] theorem Sight.passes_ofOrdering (order : Ordering) :
    (ofOrdering order).Passes ↔ order = .eq := by
  cases order <;> simp [ofOrdering, Passes]

/-- The first place that the reading from the left does not go past puts the left first. -/
def Below : List Sight → Prop
  | [] => False
  | .alike :: rest => Below rest
  | .apart lesser :: _ => lesser = .left
  | .overlooked .left :: rest => Below rest
  | .overlooked .right :: _ => False
  | .cut .left :: rest => Below rest
  | .cut .right :: _ => False
  | .broken :: _ => False

/-- At the first place that is not alike both readings see the difference; or the one from
the smaller side overlooks it, and what follows puts that side first all the same. -/
def Orderly : List Sight → Prop
  | [] => True
  | .alike :: rest => Orderly rest
  | .apart _ :: _ => True
  | .overlooked .left :: rest => Below rest
  | .overlooked .right :: rest => Below (rest.map Sight.swap)
  | .cut _ :: _ => False
  | .broken :: _ => False

@[simp] theorem Side.order_swap (side : Side) : side.swap.order = side.order.swap := by
  cases side <;> rfl

@[simp] theorem Side.order_ne_eq (side : Side) : side.order ≠ .eq := by
  cases side <;> decide

@[simp] theorem Sight.ofOrdering_swap (order : Ordering) :
    (ofOrdering order).swap = ofOrdering order.swap := by
  cases order <;> rfl

@[simp] theorem forward_ofOrdering (order : Ordering) :
    forward [.ofOrdering order] = some order := by
  cases order <;> rfl

theorem forward_append (front back : List Sight) :
    forward (front ++ back) =
      if forward front = some .eq then forward back else forward front := by
  induction front with
  | nil => simp [forward]
  | cons sight rest ih =>
      cases sight with
      | alike => exact ih
      | apart lesser => simp [forward]
      | overlooked lesser =>
          cases lesser with
          | left => exact ih
          | right => simp [forward]
      | cut ended =>
          cases ended with
          | left => exact ih
          | right => simp [forward]
      | broken => simp [forward]

theorem forward_eq_eq_iff (sights : List Sight) :
    forward sights = some .eq ↔ ∀ sight ∈ sights, sight.Passes := by
  induction sights with
  | nil => simp [forward]
  | cons sight rest ih =>
      cases sight with
      | alike => simpa [forward, Sight.Passes] using ih
      | apart lesser => simp [forward, Sight.Passes]
      | overlooked lesser => cases lesser <;> simp [forward, Sight.Passes, ih]
      | cut ended => cases ended <;> simp [forward, Sight.Passes, ih]
      | broken => simp [forward, Sight.Passes]

theorem forward_eq_lt_iff (sights : List Sight) :
    forward sights = some .lt ↔ Below sights := by
  induction sights with
  | nil => simp [forward, Below]
  | cons sight rest ih =>
      cases sight with
      | alike => simpa [forward, Below] using ih
      | apart lesser => cases lesser <;> simp [forward, Below, Side.order]
      | overlooked lesser => cases lesser <;> simp [forward, Below, ih]
      | cut ended => cases ended <;> simp [forward, Below, ih]
      | broken => simp [forward, Below]

/-- The two readings both end, one as the reverse of the other. -/
theorem orderly_iff (sights : List Sight) :
    Orderly sights ↔
      ∃ o, forward sights = some o ∧ forward (sights.map Sight.swap) = some o.swap := by
  induction sights with
  | nil => exact ⟨fun _ => ⟨.eq, rfl, rfl⟩, fun _ => trivial⟩
  | cons sight rest ih =>
      cases sight with
      | alike => simpa [Orderly, forward, Sight.swap] using ih
      | apart lesser => simp [Orderly, forward, Sight.swap]
      | overlooked lesser =>
          cases lesser with
          | left =>
              -- the reading from the right sees that the left is smaller
              rw [Orderly, ← forward_eq_lt_iff]
              constructor
              · intro hlt
                exact ⟨.lt, hlt, rfl⟩
              · rintro ⟨o, hforward, hback⟩
                cases o with
                | lt => exact hforward
                | eq => simp [forward, Sight.swap, Side.swap] at hback
                | gt => simp [forward, Sight.swap, Side.swap] at hback
          | right =>
              rw [Orderly, ← forward_eq_lt_iff]
              constructor
              · intro hlt
                exact ⟨.gt, rfl, hlt⟩
              · rintro ⟨o, hforward, hback⟩
                have ho : o = .gt := by simpa [forward] using hforward.symm
                subst ho
                exact hback
      | cut ended => cases ended <;> simp [Orderly, forward, Sight.swap, Side.swap]
      | broken => simp [Orderly, forward]

/-- The order at the first place whose order is not equal. -/
def firstOrder (orders : List Ordering) : Ordering :=
  orders.foldr Ordering.then .eq

@[simp] theorem firstOrder_singleton (order : Ordering) : firstOrder [order] = order := by
  cases order <;> rfl

theorem firstOrder_append (front back : List Ordering) :
    firstOrder (front ++ back) = (firstOrder front).then (firstOrder back) := by
  induction front with
  | nil => rfl
  | cons order rest ih =>
      have hcons : ∀ orders, firstOrder (order :: orders) = order.then (firstOrder orders) :=
        fun _ => rfl
      rw [List.cons_append, hcons, hcons, ih]
      cases order <;> rfl

/-- What is seen at a place that is neither cut nor broken is the order there. -/
def Sight.Shows : Sight → Ordering → Prop
  | alike, order => order = .eq
  | apart lesser, order => order = lesser.order
  | overlooked lesser, order => order = lesser.order
  | cut _, _ => True
  | broken, _ => True

theorem Sight.shows_ofOrdering (order : Ordering) : (ofOrdering order).Shows order := by
  cases order <;> rfl

/-- Readings that are each other's reverse find the order of the first difference. -/
theorem Orderly.forward_eq {P : Type*} {sight : P → Sight} {order : P → Ordering}
    {places : List P} (hshows : ∀ place ∈ places, (sight place).Shows (order place))
    (horderly : Orderly (places.map sight)) :
    forward (places.map sight) = some (firstOrder (places.map order)) := by
  induction places with
  | nil => rfl
  | cons place rest ih =>
      have hrest := fun h => ih (fun p hp => hshows p (List.mem_cons_of_mem place hp)) h
      have hplace := hshows place List.mem_cons_self
      simp only [List.map_cons, firstOrder, List.foldr_cons] at horderly ⊢
      cases hsight : sight place with
      | alike =>
          rw [hsight] at horderly hplace
          rw [Sight.Shows] at hplace
          rw [hplace]
          exact hrest horderly
      | apart lesser =>
          rw [hsight, Sight.Shows] at hplace
          cases lesser <;> simp [forward, hplace, Side.order]
      | overlooked lesser =>
          rw [hsight, Sight.Shows] at hplace
          rw [hsight] at horderly
          cases lesser with
          | left =>
              rw [Orderly, ← forward_eq_lt_iff] at horderly
              simp [forward, hplace, Side.order, horderly]
          | right => simp [forward, hplace, Side.order]
      | cut ended => rw [hsight] at horderly; exact horderly.elim
      | broken => rw [hsight] at horderly; exact horderly.elim

end SideBySide
