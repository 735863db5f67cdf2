/-
Reading the tasks out of an answer: the answer is text with an object in it, printed as it is or
in a fenced code block.
-/
import Zeptobeam.Lib.TextSearch
import Zeptobeam.SerdeJson

namespace Zeptobeam

namespace Decomposition

open TextSearch LineFile

def fence : List Char := ['\x60', '\x60', '\x60']

def jsonFence : List Char := ['\x60', '\x60', '\x60', 'j', 's', 'o', 'n']

/-! ## `extract_json_block` -/

/-- What stands between the opening and the next fence, if both are there. -/
def fenced (opening text : List Char) : Option (List Char) :=
  (find opening text).bind fun start =>
    let afterFence := text.drop (start + opening.length)
    (find fence afterFence).map fun stop => trim (afterFence.take stop)

/-- From the first opening to the last closing delimiter. -/
def range (opening closing : Char) (text : List Char) : Option (Nat × Nat) :=
  (find [opening] text).bind fun start =>
    ((rfind closing text).filter (start < ·)).map (start, ·)

def slice (text : List Char) (range : Nat × Nat) : List Char :=
  (text.take (range.2 + 1)).drop range.1

/-- The object or the array in the text, whichever starts first. -/
def bare (text : List Char) : List Char :=
  match range '{' '}' text, range '[' ']' text with
  | some obj, some arr => if arr.1 < obj.1 then slice text arr else slice text obj
  | some obj, none => slice text obj
  | none, some arr => slice text arr
  | none, none => trim text

def extractJsonBlock (text : List Char) : List Char :=
  match fenced jsonFence text with
  | some block => block
  | none =>
      match fenced fence text with
      | some block => block
      | none => bare text

/-! ## `parse_decomposition_response` -/

/-- The tasks of an object that has some, or an array that is not empty. -/
def tasksOf (parsed : Json) : Option Json :=
  match parsed.get? "tasks" with
  | some (.arr (task :: tasks)) => some (.arr (task :: tasks))
  | _ =>
      match parsed with
      | .arr (task :: tasks) => some (.arr (task :: tasks))
      | _ => none

/-- A single task with the goal. -/
def fallback (goal : Json) : Json :=
  .arr [.obj [("task_id", .str "task-0"), ("goal", goal)]]

def parseDecompositionResponse (serde : SerdeJson) (response : List Char) (goal : Json) : Json :=
  .obj [("tasks", ((serde.fromStr (extractJsonBlock response)).bind tasksOf).getD (fallback goal))]

/-! ## What an answer is made of -/

/-- The text around the object. -/
structure Prose (text : List Char) : Prop where
  delimiters : ∀ c ∈ text, c ∉ ['{', '}', '[', ']']
  unfenced : ¬ fence <:+: text

/-- A text of an object: it is read as the object and is between braces. -/
structure Prints (serde : SerdeJson) (text : List Char) (fields : List (String × Json)) : Prop where
  reads : serde.fromStr text = some (.obj fields)
  braces : ∃ mid, text = '{' :: (mid ++ ['}'])

/-- There is no second fence behind the first one. -/
def OneFence (text : List Char) : Prop :=
  ∀ n, find fence text = some n → ¬ fence <:+: text.drop (n + fence.length)

variable {text before after mid opening gap gap' : List Char} {n : Nat}

/-! ## Printed as it is -/

theorem fenced_eq_none
    (h : ∀ start, find opening text = some start →
      ¬ fence <:+: text.drop (start + opening.length)) : fenced opening text = none := by
  rw [fenced]
  cases hfind : find opening text with
  | none => rfl
  | some start =>
      rw [Option.bind_some]
      simp only [find_eq_none_iff.mpr (h start hfind), Option.map_none]

theorem fenced_of_oneFence (hopening : fence <+: opening) (h : OneFence text) :
    fenced opening text = none := by
  apply fenced_eq_none
  intro start hfind hpart
  obtain ⟨first, hle, hfirst⟩ := find_le (hopening.trans (prefix_of_find hfind))
  have hlength := hopening.length_le
  have hdrop : text.drop (start + opening.length) =
      (text.drop (first + fence.length)).drop
        (start + opening.length - (first + fence.length)) := by
    rw [List.drop_drop]
    congr 1
    omega
  rw [hdrop] at hpart
  exact h first hfirst (hpart.trans (List.drop_suffix _ _).isInfix)

theorem fence_prefix_jsonFence : fence <+: jsonFence :=
  ⟨['j', 's', 'o', 'n'], rfl⟩

theorem extractJsonBlock_of_oneFence (h : OneFence text) : extractJsonBlock text = bare text := by
  rw [extractJsonBlock, fenced_of_oneFence fence_prefix_jsonFence h,
    fenced_of_oneFence List.prefix_rfl h]

theorem not_mem_of_delimiters {c : Char} (h : ∀ d ∈ text, d ∉ ['{', '}', '[', ']'])
    (hc : c ∈ ['{', '}', '[', ']']) : c ∉ text :=
  fun hmem => h c hmem hc

theorem find_of_range {o c : Char} {found : Nat × Nat} (h : range o c text = some found) :
    find [o] text = some found.1 := by
  obtain ⟨start, hstart, hstop⟩ := Option.bind_eq_some_iff.mp h
  obtain ⟨stop, -, rfl⟩ := Option.map_eq_some_iff.mp hstop
  exact hstart

/-- The object is what is between the first and the last brace. -/
theorem bare_braces (hbefore : Prose before) (hafter : Prose after) :
    bare (before ++ ('{' :: (mid ++ ['}'])) ++ after) = '{' :: (mid ++ ['}']) := by
  have hopen : '{' ∉ before := not_mem_of_delimiters hbefore.delimiters (by decide)
  have hbracket : '[' ∉ before := not_mem_of_delimiters hbefore.delimiters (by decide)
  have hclose : '}' ∉ after := not_mem_of_delimiters hafter.delimiters (by decide)
  have hfront : before ++ ('{' :: (mid ++ ['}'])) ++ after =
      before ++ '{' :: (mid ++ '}' :: after) := by simp
  have hback : before ++ ('{' :: (mid ++ ['}'])) ++ after =
      (before ++ '{' :: mid) ++ '}' :: after := by simp
  have hless : before.length < (before ++ '{' :: mid).length := by simp
  have hobj : range '{' '}' (before ++ ('{' :: (mid ++ ['}'])) ++ after) =
      some (before.length, (before ++ '{' :: mid).length) := by
    rw [range, hfront, find_singleton hopen, ← hfront, hback, rfind_append_cons _ hclose,
      Option.bind_some, Option.filter_some, if_pos (decide_eq_true hless)]
    rfl
  have hslice : slice (before ++ ('{' :: (mid ++ ['}'])) ++ after)
      (before.length, (before ++ '{' :: mid).length) = '{' :: (mid ++ ['}']) := by
    have hlength : (before ++ '{' :: mid).length + 1 =
        (before ++ ('{' :: (mid ++ ['}']))).length := by
      simp only [List.length_append, List.length_cons, List.length_nil]
      omega
    rw [slice, hlength, List.take_left, List.drop_left]
  -- a bracket in front of the object would be in the prose
  have hlate : ∀ arr, range '[' ']' (before ++ ('{' :: (mid ++ ['}'])) ++ after) = some arr →
      ¬ arr.1 < before.length := by
    intro arr harr
    have hfind := find_of_range harr
    rw [hfront, find_append (clear_singleton hbracket)] at hfind
    obtain ⟨n, -, hn⟩ := Option.map_eq_some_iff.mp hfind
    omega
  rw [bare, hobj]
  cases harr : range '[' ']' (before ++ ('{' :: (mid ++ ['}'])) ++ after) with
  | none => exact hslice
  | some arr => exact (if_neg (hlate arr harr)).trans hslice

theorem not_mem_fence {c : Char} (hc : c ≠ '\x60') : c ∉ fence := by
  intro hmem
  simp only [fence, List.mem_cons, List.not_mem_nil, or_false, or_self] at hmem
  exact hc hmem

theorem clear_braces_right (hunfenced : ¬ fence <:+: before) :
    Clear fence before ('{' :: text) :=
  clear_of_head hunfenced fun _ hc => by
    rw [← Option.some.inj hc]
    exact not_mem_fence (by decide)

theorem clear_braces_left (hunfenced : ¬ fence <:+: '{' :: (mid ++ ['}'])) :
    Clear fence ('{' :: (mid ++ ['}'])) text := by
  apply clear_of_last hunfenced
  intro c hc
  rw [← List.cons_append, List.getLast?_append_of_ne_nil _ (List.cons_ne_nil _ _)] at hc
  rw [← Option.some.inj hc]
  exact not_mem_fence (by decide)

/-- The prose adds no fence to the object. -/
theorem OneFence.prose (h : OneFence ('{' :: (mid ++ ['}']))) (hbefore : Prose before)
    (hafter : Prose after) : OneFence (before ++ ('{' :: (mid ++ ['}'])) ++ after) := by
  intro n hn
  rw [List.append_assoc, List.cons_append,
    find_append (clear_braces_right hbefore.unfenced), ← List.cons_append] at hn
  obtain ⟨m, hm, rfl⟩ := Option.map_eq_some_iff.mp hn
  cases hobject : find fence ('{' :: (mid ++ ['}'])) with
  | none =>
      have hclear : Clear fence ('{' :: (mid ++ ['}'])) after :=
        clear_braces_left (find_eq_none_iff.mp hobject)
      rw [find_append hclear, find_eq_none_iff.mpr hafter.unfenced] at hm
      contradiction
  | some k =>
      have hfence : fence ≠ [] := List.cons_ne_nil _ _
      cases hm.symm.trans (find_append_left hobject hfence after)
      have hlength := length_le_of_find hobject hfence
      rw [List.append_assoc, Nat.add_assoc, List.drop_length_add_append,
        List.drop_append_of_le_length hlength]
      refine not_infix_append (clear_of_last (h m hobject) fun c hc => ?_) hafter.unfenced
      rw [List.getLast?_drop] at hc
      split at hc
      · contradiction
      · rw [← List.cons_append, List.getLast?_append_of_ne_nil _ (List.cons_ne_nil _ _)] at hc
        rw [← Option.some.inj hc]
        exact not_mem_fence (by decide)

/-! ## Printed in a fenced code block -/

/-- The fences that open a block; a backtick before a plain one would make it longer. -/
inductive Opens (before : List Char) : List Char → Prop where
  | json : Opens before jsonFence
  | plain : before.getLast? ≠ some '\x60' → Opens before fence

def Blank (text : List Char) : Prop :=
  ∀ c ∈ text, isWhiteSpace c = true

theorem not_mem_of_blank {c : Char} (h : Blank text) (hc : isWhiteSpace c = false) :
    c ∉ text := by
  intro hmem
  rw [h c hmem] at hc
  contradiction

theorem unfenced_of_blank (h : Blank text) : ¬ fence <:+: text := by
  intro hpart
  have hmem : '\x60' ∈ text := hpart.mem List.mem_cons_self
  exact not_mem_of_blank h (by decide) hmem

theorem trim_block (hgap : Blank gap) (hgap' : Blank gap') :
    trim (gap ++ (('{' :: (mid ++ ['}'])) ++ gap')) = '{' :: (mid ++ ['}']) := by
  have hfront : (gap ++ (('{' :: (mid ++ ['}'])) ++ gap')).dropWhile isWhiteSpace =
      ('{' :: (mid ++ ['}'])) ++ gap' := by
    rw [List.dropWhile_append_of_pos hgap]
    exact List.dropWhile_cons_of_neg (by decide)
  have hback : Blank gap'.reverse := fun c hc => hgap' c (List.mem_reverse.mp hc)
  rw [trim, hfront, List.reverse_append, List.dropWhile_append_of_pos hback]
  rw [← List.cons_append, List.reverse_append, List.reverse_singleton, List.singleton_append,
    List.dropWhile_cons_of_neg (by decide), List.reverse_cons, List.reverse_reverse]

section Block

variable (hgap : Blank gap) (hgap' : Blank gap') (hobject : ¬ fence <:+: '{' :: (mid ++ ['}']))
include hgap hgap' hobject

/-- There is no fence in the block before the one that closes it. -/
theorem clear_block (rest : List Char) :
    Clear fence (gap ++ (('{' :: (mid ++ ['}'])) ++ gap')) rest := by
  apply clear_of_last
  · apply not_infix_append (clear_braces_right (unfenced_of_blank hgap))
    exact not_infix_append (clear_braces_left hobject) (unfenced_of_blank hgap')
  · intro c hc
    have hsplit : gap ++ (('{' :: (mid ++ ['}'])) ++ gap') =
        (gap ++ '{' :: mid) ++ '}' :: gap' := by
      simp
    rw [hsplit, List.getLast?_append_of_ne_nil _ (List.cons_ne_nil _ _)] at hc
    apply not_mem_fence
    rintro rfl
    rcases List.mem_cons.mp (List.mem_of_getLast? hc) with h | h
    · exact absurd h (by decide)
    · exact not_mem_of_blank hgap' (by decide) h

theorem fenced_block {rest : List Char}
    (hbefore : Clear opening before
      (opening ++ (gap ++ (('{' :: (mid ++ ['}'])) ++ gap') ++ (fence ++ rest)))) :
    fenced opening
        (before ++ (opening ++ (gap ++ (('{' :: (mid ++ ['}'])) ++ gap') ++ (fence ++ rest)))) =
      some ('{' :: (mid ++ ['}'])) := by
  rw [fenced, find_append_self hbefore, Option.bind_some]
  simp only [← List.append_assoc before opening, ← List.length_append, List.drop_left]
  rw [find_append_self (clear_block hgap hgap' hobject (fence ++ rest)), Option.map_some,
    List.take_left, trim_block hgap hgap']

end Block

/-- A plain fence is found behind prose that does not end in a backtick. -/
theorem clear_fence (hbefore : ¬ fence <:+: before) (hlast : before.getLast? ≠ some '\x60')
    (rest : List Char) : Clear fence before (fence ++ rest) := by
  refine clear_of_last hbefore fun c hc => not_mem_fence ?_
  rintro rfl
  exact hlast hc

/-- A `json` fence is found behind any prose. -/
theorem clear_jsonFence (hbefore : ¬ fence <:+: before) (rest : List Char) :
    Clear jsonFence before (jsonFence ++ rest) := by
  intro front hfront hne hprefix
  match front with
  | [] => exact hne rfl
  | [a] => simp [jsonFence] at hprefix
  | [a, b] => simp [jsonFence] at hprefix
  | a :: b :: c :: front =>
      apply hbefore
      refine List.IsInfix.trans ?_ hfront.isInfix
      have hfence : fence <+: a :: b :: c :: front := by
        have hstart := fence_prefix_jsonFence.trans hprefix
        simpa [fence] using hstart
      exact hfence.isInfix

section Block

variable (hgap : Blank gap) (hgap' : Blank gap') (hobject : ¬ fence <:+: '{' :: (mid ++ ['}']))
include hgap hgap' hobject

/-- Behind a plain fence only the closing one may be followed by `json`, and none comes after. -/
theorem fenced_json_of_plain (hlast : before.getLast? ≠ some '\x60') (hbefore : ¬ fence <:+: before)
    (hafter : ¬ fence <:+: after) :
    fenced jsonFence
        (before ++ (fence ++ (gap ++ (('{' :: (mid ++ ['}'])) ++ gap') ++ (fence ++ after)))) =
      none := by
  apply fenced_eq_none
  intro start hfind
  have hopen : Clear jsonFence fence
      (gap ++ (('{' :: (mid ++ ['}'])) ++ gap') ++ (fence ++ after)) := by
    apply clear_of_head (by decide)
    intro c hc hmem
    cases gap with
    | nil =>
        rw [← Option.some.inj hc] at hmem
        exact absurd hmem (by decide)
    | cons d gap =>
        have hblank := hgap d List.mem_cons_self
        rw [Option.some.inj hc] at hblank
        have hmiss : jsonFence.all (fun d => !isWhiteSpace d) = true := by decide
        have hchar := List.all_eq_true.mp hmiss c hmem
        rw [hblank] at hchar
        contradiction
  have hblock := clear_block hgap hgap' hobject (fence ++ after)
  rw [find_append ((clear_fence hbefore hlast _).mono fence_prefix_jsonFence), find_append hopen,
    find_append (hblock.mono fence_prefix_jsonFence)] at hfind
  obtain ⟨m, hm, rfl⟩ := Option.map_eq_some_iff.mp hfind
  obtain ⟨k, hk, rfl⟩ := Option.map_eq_some_iff.mp hm
  obtain ⟨q, -, rfl⟩ := Option.map_eq_some_iff.mp hk
  have hbehind : fence.length + (q + 4) = q + jsonFence.length := Nat.add_comm 3 (q + 4)
  rw [Nat.add_assoc, List.drop_length_add_append, Nat.add_assoc, List.drop_length_add_append,
    Nat.add_assoc, List.drop_length_add_append, ← hbehind, List.drop_length_add_append]
  exact fun hpart => hafter (hpart.trans (List.drop_suffix _ _).isInfix)

/-- The block is found behind each of the two fences. -/
theorem extractJsonBlock_block (hopens : Opens before opening) (hbefore : ¬ fence <:+: before)
    (hafter : ¬ fence <:+: after) :
    extractJsonBlock
        (before ++ (opening ++ (gap ++ (('{' :: (mid ++ ['}'])) ++ gap') ++ (fence ++ after)))) =
      '{' :: (mid ++ ['}']) := by
  cases hopens with
  | json =>
      rw [extractJsonBlock,
        fenced_block hgap hgap' hobject (clear_jsonFence hbefore _)]
  | plain hlast =>
      rw [extractJsonBlock, fenced_json_of_plain hgap hgap' hobject hlast hbefore hafter,
        fenced_block hgap hgap' hobject (clear_fence hbefore hlast _)]

end Block

/-! ## The tasks -/

variable {serde : SerdeJson} {goal : Json} {fields : List (String × Json)} {items : List Json}

theorem parseDecompositionResponse_of_extract {response : List Char}
    (htext : Prints serde text fields) (htasks : (Json.obj fields).get? "tasks" = some (.arr items))
    (hitems : items ≠ []) (hextract : extractJsonBlock response = text) :
    parseDecompositionResponse serde response goal = .obj [("tasks", .arr items)] := by
  cases items with
  | nil => exact absurd rfl hitems
  | cons task tasks =>
      have htasksOf : tasksOf (.obj fields) = some (.arr (task :: tasks)) := by
        simp only [tasksOf, htasks]
      rw [parseDecompositionResponse, hextract, htext.reads, Option.bind_some, htasksOf]
      rfl

/-- The tasks of an object that has some are read back: the object may be printed as it is, with
one fence in it at most, or in a fenced code block, with no fence in it. -/
theorem parseDecompositionResponse_recovers (htext : Prints serde text fields)
    (htasks : (Json.obj fields).get? "tasks" = some (.arr items)) (hitems : items ≠ [])
    (hbefore : Prose before) (hafter : Prose after) :
    (OneFence text →
        parseDecompositionResponse serde (before ++ text ++ after) goal =
          .obj [("tasks", .arr items)]) ∧
      (¬ fence <:+: text → ∀ opening gap gap', Opens before opening → Blank gap → Blank gap' →
        parseDecompositionResponse serde
            (before ++ (opening ++ (gap ++ (text ++ gap') ++ (fence ++ after)))) goal =
          .obj [("tasks", .arr items)]) := by
  obtain ⟨mid, rfl⟩ := htext.braces
  refine ⟨fun hone => ?_, fun hobject opening gap gap' hopens hgap hgap' => ?_⟩
  · apply parseDecompositionResponse_of_extract htext htasks hitems
    rw [extractJsonBlock_of_oneFence (hone.prose hbefore hafter), bare_braces hbefore hafter]
  · apply parseDecompositionResponse_of_extract htext htasks hitems
    exact extractJsonBlock_block hgap hgap' hobject hopens hbefore.unfenced hafter.unfenced

/-! ## The compact text of an object -/

theorem printFields_ends (fields : List (String × Json)) :
    ∃ mid, Json.printFields fields = mid ++ ['}'] := by
  induction fields with
  | nil => exact ⟨[], rfl⟩
  | cons field fields ih =>
      obtain ⟨key, value⟩ := field
      obtain ⟨mid, hmid⟩ := ih
      exact ⟨',' :: (Json.printString key ++ ':' :: (value.print ++ mid)), by
        simp [Json.printFields, hmid]⟩

/-- Every object has a text. -/
theorem prints_compact (fields : List (String × Json)) :
    Prints .compact (Json.obj fields).print fields where
  reads := Json.parse_print _
  braces := by
    cases fields with
    | nil => exact ⟨[], by rw [Json.print]; rfl⟩
    | cons field fields =>
        obtain ⟨key, value⟩ := field
        obtain ⟨mid, hmid⟩ := printFields_ends fields
        exact ⟨Json.printString key ++ ':' :: (value.print ++ mid), by simp [Json.print, hmid]⟩

/-- An object with one task, whose text has a fence, braces, quotes and a backslash in it. -/
def oneTask (goal : String) : List (String × Json) :=
  [("tasks", .arr [.str goal])]

theorem prose_of_all (h : text.all (fun c => decide (c ∉ ['{', '}', '[', ']'])) = true)
    (hfence : ¬ fence <:+: text) : Prose text where
  delimiters c hc := of_decide_eq_true (List.all_eq_true.mp h c hc)
  unfenced := hfence

theorem parseDecompositionResponse_recovers_oneTask :
    parseDecompositionResponse .compact
        (['o', 'k', '\x60'] ++ (Json.obj (oneTask "``` \x7b\"]\\")).print ++ ['.']) .null =
      .obj [("tasks", .arr [.str "``` \x7b\"]\\"])] ∧
    parseDecompositionResponse .compact
        (['\n'] ++ (fence ++ (['\n'] ++ ((Json.obj (oneTask "`` [\x7d")).print ++ ['\n']) ++
          (fence ++ ['j', 's', 'o', 'n'])))) .null =
      .obj [("tasks", .arr [.str "`` [\x7d"])] := by
  refine ⟨(parseDecompositionResponse_recovers (prints_compact _) rfl (List.cons_ne_nil _ _)
      (prose_of_all (by decide) (by decide)) (prose_of_all (by decide) (by decide))).1 ?_,
    (parseDecompositionResponse_recovers (prints_compact _) rfl (List.cons_ne_nil _ _)
      (prose_of_all (by decide) (by decide)) (prose_of_all (by decide) (by decide))).2
      (by decide) fence ['\n'] ['\n'] (.plain (by decide))
      (List.all_eq_true.mp (by decide)) (List.all_eq_true.mp (by decide))⟩
  intro n hn
  have hfind : find fence (Json.obj (oneTask "``` \x7b\"]\\")).print = some 11 := by decide
  rw [hfind] at hn
  obtain rfl := Option.some.inj hn
  decide

/-- An object without tasks counts as an answer without an object, and a fence in a task ends the
block around it. -/
theorem not_recovered_empty_or_fenced :
    parseDecompositionResponse .compact (Json.obj [("tasks", .arr [])]).print .null =
        .obj [("tasks", fallback .null)] ∧
      parseDecompositionResponse .compact
          (jsonFence ++ ((Json.obj (oneTask "```")).print ++ fence)) .null =
        .obj [("tasks", fallback .null)] := by
  constructor
  · rfl
  · rfl

end Decomposition

end Zeptobeam
