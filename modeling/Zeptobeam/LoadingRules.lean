/-
Rules for what a decoder does with the bytes before it: from a heap it returns, having read
exactly these bytes, or reports an error, or panics.  Decoders are given fuel, of which
enough is assumed; they are put together by bind.
-/
import Zeptobeam.ExtTermFormat

namespace Zeptobeam

namespace Loading

open ExtTermFormat BinaryReader

variable {α β : Type}

/-- How a decoder ends. -/
inductive Outcome (α : Type) where
  | returns (a : α) (heap : Heap)
  | reports
  | panics

/-- A result of the outcome, from a state and after so many bytes. -/
def Outcome.Holds (s : LoadState) (nBytes : Nat) (result : Except Stop (α × LoadState)) :
    Outcome α → Prop
  | .returns a heap => result = .ok (a, ⟨s.reader.advance nBytes, heap⟩)
  | .reports => ∃ e, result = .error (.err e)
  | .panics => ∃ p, result = .error (.panic p)

/-- With enough fuel, on this heap and with these bytes before it, the decoder ends so. -/
def Ends (x : Nat → Loading α) (heap : Heap) (bytes rest : List UInt8)
    (outcome : Outcome α) : Prop :=
  ∃ least, ∀ fuel, least ≤ fuel → ∀ s : LoadState, s.heap = heap →
    s.reader.Reads bytes rest → outcome.Holds s bytes.length (x fuel s)

/-- The decoder returns under a condition, and panics otherwise. -/
structure Builds (x : Nat → Loading α) (heap : Heap) (bytes rest : List UInt8) (fits : Prop)
    (a : α) (heap' : Heap) : Prop where
  returns : fits → Ends x heap bytes rest (.returns a heap')
  panics : ¬ fits → Ends x heap bytes rest .panics

/-- The decoder reports an error under a condition, and panics otherwise. -/
structure Stops (x : Nat → Loading α) (heap : Heap) (bytes rest : List UInt8)
    (reported : Prop) : Prop where
  reports : reported → Ends x heap bytes rest .reports
  panics : ¬ reported → Ends x heap bytes rest .panics

section Ends

variable {x : Nat → Loading α} {f : Nat → α → Loading β} {heap heap' : Heap}
  {bytes more rest : List UInt8}

theorem Ends.succ {outcome : Outcome α}
    (h : Ends (fun fuel => x (fuel + 1)) heap bytes rest outcome) :
    Ends x heap bytes rest outcome := by
  obtain ⟨least, h⟩ := h
  refine ⟨least + 1, fun fuel hfuel s => ?_⟩
  obtain ⟨fuel, rfl⟩ := Nat.exists_eq_add_of_le' (Nat.one_le_of_lt hfuel)
  exact h fuel (by omega) s

theorem Ends.bind {a : α} {outcome : Outcome β}
    (hx : Ends x heap bytes (more ++ rest) (.returns a heap'))
    (hf : Ends (fun fuel => f fuel a) heap' more rest outcome) :
    Ends (fun fuel => x fuel >>= f fuel) heap (bytes ++ more) rest outcome := by
  obtain ⟨least, hx⟩ := hx
  obtain ⟨least', hf⟩ := hf
  refine ⟨max least least', fun fuel hfuel s hheap hreads => ?_⟩
  have hresult : (x fuel >>= f fuel) s = f fuel a ⟨s.reader.advance bytes.length, heap'⟩ :=
    StateExcept.bind_eq_of_ok (hx fuel (by omega) s hheap hreads.assoc)
  have hholds := hf fuel (by omega) ⟨s.reader.advance bytes.length, heap'⟩ rfl hreads.advance
  dsimp only at hholds ⊢
  rw [hresult]
  cases outcome with
  | returns b heap'' =>
      simp only [Outcome.Holds, advance_advance] at hholds ⊢
      rw [hholds, List.length_append]
  | reports => exact hholds
  | panics => exact hholds

theorem Ends.bind_reports (hx : Ends x heap bytes (more ++ rest) .reports) :
    Ends (fun fuel => x fuel >>= f fuel) heap (bytes ++ more) rest .reports := by
  obtain ⟨least, hx⟩ := hx
  refine ⟨least, fun fuel hfuel s hheap hreads => ?_⟩
  obtain ⟨e, he⟩ := hx fuel hfuel s hheap hreads.assoc
  exact ⟨e, StateExcept.bind_eq_of_error he⟩

theorem Ends.bind_panics (hx : Ends x heap bytes (more ++ rest) .panics) :
    Ends (fun fuel => x fuel >>= f fuel) heap (bytes ++ more) rest .panics := by
  obtain ⟨least, hx⟩ := hx
  refine ⟨least, fun fuel hfuel s hheap hreads => ?_⟩
  obtain ⟨p, hp⟩ := hx fuel hfuel s hheap hreads.assoc
  exact ⟨p, StateExcept.bind_eq_of_error hp⟩

end Ends

section Builds

variable {x : Nat → Loading α} {f : Nat → α → Loading β} {heap heap' heap'' : Heap}
  {bytes more rest : List UInt8} {fits fits' : Prop} {a : α} {b : β}

theorem Builds.iff (h : Builds x heap bytes rest fits a heap') (hfits : fits ↔ fits') :
    Builds x heap bytes rest fits' a heap' :=
  ⟨fun h' => h.returns (hfits.mpr h'), fun h' => h.panics fun hf => h' (hfits.mp hf)⟩

theorem Builds.succ (h : Builds (fun fuel => x (fuel + 1)) heap bytes rest fits a heap') :
    Builds x heap bytes rest fits a heap' :=
  ⟨fun hfits => (h.returns hfits).succ, fun hfits => (h.panics hfits).succ⟩

/-- One decoder after the other. -/
theorem Builds.bind (hx : Builds x heap bytes (more ++ rest) fits a heap')
    (hf : fits → Builds (fun fuel => f fuel a) heap' more rest fits' b heap'') :
    Builds (fun fuel => x fuel >>= f fuel) heap (bytes ++ more) rest (fits ∧ fits') b
      heap'' := by
  refine ⟨fun h => (hx.returns h.1).bind ((hf h.1).returns h.2), fun h => ?_⟩
  by_cases hfits : fits
  · exact (hx.returns hfits).bind ((hf hfits).panics fun hfits' => h ⟨hfits, hfits'⟩)
  · exact (hx.panics hfits).bind_panics

theorem Builds.bind_nil (hx : Builds x heap bytes rest fits a heap')
    (hf : fits → Builds (fun fuel => f fuel a) heap' [] rest fits' b heap'') :
    Builds (fun fuel => x fuel >>= f fuel) heap bytes rest (fits ∧ fits') b heap'' := by
  have h : Builds _ heap (bytes ++ []) rest _ b heap'' := Builds.bind hx hf
  rwa [List.append_nil] at h

/-- The first decoder always returns. -/
theorem Builds.then (hx : Builds x heap bytes (more ++ rest) True a heap')
    (hf : Builds (fun fuel => f fuel a) heap' more rest fits b heap'') :
    Builds (fun fuel => x fuel >>= f fuel) heap (bytes ++ more) rest fits b heap'' :=
  (hx.bind fun _ => hf).iff (iff_of_eq (true_and _))

theorem Builds.pure (a : α) (heap : Heap) (rest : List UInt8) :
    Builds (fun _ => pure a) heap [] rest True a heap := by
  refine ⟨fun _ => ⟨0, fun fuel _ s hheap _ => ?_⟩, fun h => absurd trivial h⟩
  subst hheap
  rfl

/-- The second decoder reads nothing, and always returns. -/
theorem Builds.followed (hx : Builds x heap bytes rest fits a heap')
    (hf : fits → Builds (fun fuel => f fuel a) heap' [] rest True b heap'') :
    Builds (fun fuel => x fuel >>= f fuel) heap bytes rest fits b heap'' :=
  (hx.bind_nil hf).iff (iff_of_eq (and_true _))

/-- Something is made of what the decoder returns. -/
theorem Builds.making (hx : Builds x heap bytes rest fits a heap')
    (hf : ∀ fuel, f fuel a = Pure.pure b) :
    Builds (fun fuel => x fuel >>= f fuel) heap bytes rest fits b heap' := by
  refine hx.followed fun _ => ?_
  simp only [hf]
  exact .pure b heap' rest

theorem Ends.get_bind {g : Nat → LoadState → Loading α} {outcome : Outcome α}
    (h : Ends x heap bytes rest outcome) (hg : ∀ fuel s, s.heap = heap → g fuel s = x fuel) :
    Ends (fun fuel => get >>= g fuel) heap bytes rest outcome := by
  obtain ⟨least, h⟩ := h
  refine ⟨least, fun fuel hfuel s hheap hreads => ?_⟩
  change outcome.Holds s bytes.length (g fuel s s)
  rw [hg fuel s hheap]
  exact h fuel hfuel s hheap hreads

/-- A decoder that looks at the heap first. -/
theorem Builds.get_bind {g : Nat → LoadState → Loading α}
    (h : Builds x heap bytes rest fits a heap')
    (hg : ∀ fuel s, s.heap = heap → g fuel s = x fuel) :
    Builds (fun fuel => get >>= g fuel) heap bytes rest fits a heap' :=
  ⟨fun hfits => (h.returns hfits).get_bind hg, fun hfits => (h.panics hfits).get_bind hg⟩

/-- With enough fuel the decoder is another one. -/
theorem Ends.congr {y : Nat → Loading α} {outcome : Outcome α}
    (h : Ends y heap bytes rest outcome)
    (hxy : ∃ least, ∀ fuel, least ≤ fuel → x fuel = y fuel) :
    Ends x heap bytes rest outcome := by
  obtain ⟨least', h⟩ := h
  obtain ⟨least, hxy⟩ := hxy
  refine ⟨max least least', fun fuel hfuel s => ?_⟩
  rw [hxy fuel (by omega)]
  exact h fuel (by omega) s

theorem Ends.of_panics (hx : ∀ fuel, ∃ p, x fuel = Loading.panic p) :
    Ends x heap bytes rest .panics := by
  refine ⟨0, fun fuel _ s _ _ => ?_⟩
  obtain ⟨p, hp⟩ := hx fuel
  exact ⟨p, congrFun hp s⟩

theorem Builds.panic {p : Panic} (hnot : ¬ fits) :
    Builds (fun _ => Loading.panic p) heap bytes rest fits a heap' :=
  ⟨fun h => absurd h hnot, fun _ => ⟨0, fun _ _ _ _ _ => ⟨p, rfl⟩⟩⟩

/-- Nothing comes after a panic. -/
theorem Builds.panic_bind {p : Panic} {g : Nat → α → Loading β} (hg : ¬ fits) :
    Builds (fun fuel => Loading.panic p >>= g fuel) heap bytes rest fits b heap' :=
  ⟨fun h => absurd h hg, fun _ => ⟨0, fun _ _ _ _ _ => ⟨p, rfl⟩⟩⟩

end Builds

section Stops

variable {x : Nat → Loading α} {f : Nat → α → Loading β} {heap heap' : Heap}
  {bytes more rest : List UInt8} {fits reported reported' : Prop} {a : α}

theorem Stops.iff (h : Stops x heap bytes rest reported) (hiff : reported ↔ reported') :
    Stops x heap bytes rest reported' :=
  ⟨fun h' => h.reports (hiff.mpr h'), fun h' => h.panics fun hr => h' (hiff.mp hr)⟩

theorem Stops.succ (h : Stops (fun fuel => x (fuel + 1)) heap bytes rest reported) :
    Stops x heap bytes rest reported :=
  ⟨fun hr => (h.reports hr).succ, fun hr => (h.panics hr).succ⟩

theorem Stops.bind (h : Stops x heap bytes rest reported) :
    Stops (fun fuel => x fuel >>= f fuel) heap bytes rest reported := by
  constructor
  · intro hr
    have h : Ends (fun fuel => x fuel >>= f fuel) heap (bytes ++ []) rest .reports :=
      Ends.bind_reports (h.reports hr)
    rwa [List.append_nil] at h
  · intro hr
    have h : Ends (fun fuel => x fuel >>= f fuel) heap (bytes ++ []) rest .panics :=
      Ends.bind_panics (h.panics hr)
    rwa [List.append_nil] at h

theorem Stops.get_bind {g : Nat → LoadState → Loading α}
    (h : Stops x heap bytes rest reported)
    (hg : ∀ fuel s, s.heap = heap → g fuel s = x fuel) :
    Stops (fun fuel => get >>= g fuel) heap bytes rest reported :=
  ⟨fun hr => (h.reports hr).get_bind hg, fun hr => (h.panics hr).get_bind hg⟩

/-- The second decoder stops, if the first one returns. -/
theorem Builds.stops (hx : Builds x heap bytes (more ++ rest) fits a heap')
    (hf : fits → Stops (fun fuel => f fuel a) heap' more rest reported) :
    Stops (fun fuel => x fuel >>= f fuel) heap (bytes ++ more) rest (fits ∧ reported) := by
  refine ⟨fun h => (hx.returns h.1).bind ((hf h.1).reports h.2), fun h => ?_⟩
  by_cases hfits : fits
  · exact (hx.returns hfits).bind ((hf hfits).panics fun hr => h ⟨hfits, hr⟩)
  · exact (hx.panics hfits).bind_panics

/-- The first decoder always returns, and the second one stops. -/
theorem Builds.then_stops (hx : Builds x heap bytes (more ++ rest) True a heap')
    (hf : Stops (fun fuel => f fuel a) heap' more rest reported) :
    Stops (fun fuel => x fuel >>= f fuel) heap (bytes ++ more) rest reported :=
  (hx.stops fun _ => hf).iff (iff_of_eq (true_and _))

end Stops

end Loading

end Zeptobeam
