/-
The vote over the results of workers: the values of one field are counted by their texts, and
the texts lose their quotes in the report.  The numbers of votes are `Nat`, since a slice is
shorter than an `i64` counts.
-/
import Zeptobeam.SerdeJson
import Zeptobeam.Lib.Tally
import Mathlib.Algebra.BigOperators.Group.Finset.Basic

namespace Zeptobeam

open Tally

structure VoteAggregator where
  field : String

/-- The two fields of the report; a `serde_json` map is a map from keys to values. -/
structure VoteReport where
  winner : List Char
  votes : Finmap fun _ : List Char => Nat

/-- `trim_matches('"')`. -/
def trimQuotes (text : List Char) : List Char :=
  ((text.dropWhile (· = '"')).reverse.dropWhile (· = '"')).reverse

namespace VoteAggregator

variable (serde : SerdeJson) (aggregator : VoteAggregator)

/-- The `counts` of `aggregate`. -/
def counts (results : List Json) : AList fun _ : List Char => Nat :=
  results.foldl (fun counts result =>
    match result.get? aggregator.field with
    | some value => add counts (serde.toString value)
    | none => counts) ∅

/-- The rest of `aggregate`, with the entries of `counts` as the hash map yields them. -/
def report (entries : List (Entry (List Char))) : VoteReport where
  winner := ((lastMax entries).map fun e => trimQuotes e.1).getD []
  votes := relabel trimQuotes entries

/-- What `aggregate` may answer, in one order of the results and of the hash map. -/
def Answers (results : List Json) (answer : VoteReport) : Prop :=
  ∃ entries, entries.Perm (aggregator.counts serde results).entries ∧ report entries = answer

/-- The values of the field, in the results that carry it. -/
def values (results : List Json) : List Json :=
  results.filterMap (·.get? aggregator.field)

end VoteAggregator

/-- What a vote over some values should report: a number for each value, under a label of its
own, and the label of a value with a greatest number. -/
structure VoteReport.Counts (values : List Json) (answer : VoteReport) : Prop where
  partition : ∃ label : Json → List Char,
    Set.InjOn label {v | v ∈ values} ∧ answer.votes.keys = (values.map label).toFinset ∧
      (∀ v ∈ values, answer.votes.lookup (label v) = some (values.count v)) ∧
      (values ≠ [] → ∃ v ∈ values, answer.winner = label v ∧
        ∀ w ∈ values, values.count w ≤ values.count v)
  total : ∑ key ∈ answer.votes.keys, (answer.votes.lookup key).getD 0 = values.length

namespace VoteAggregator

variable (serde : SerdeJson) (aggregator : VoteAggregator)

/-- One answer, whatever the order of the results and of the hash map, and it counts the
values. -/
def Votes (results : List Json) : Prop :=
  ∃ answer : VoteReport, answer.Counts (aggregator.values results) ∧
    ∀ shuffled other, shuffled.Perm results → aggregator.Answers serde shuffled other →
      other = answer

/-- No other value has as many votes. -/
def Leads (values : List Json) (v : Json) : Prop :=
  ∀ w ∈ values, values.count w ≤ values.count v

/-- Different values have texts that differ without their quotes, and one value leads. -/
structure Apart (values : List Json) : Prop where
  texts : ∀ v ∈ values, ∀ w ∈ values,
    trimQuotes (serde.toString v) = trimQuotes (serde.toString w) → v = w
  leader : ∀ v ∈ values, ∀ w ∈ values, Leads values v → Leads values w → v = w

/-! ## The counts -/

variable {serde} {aggregator} {results : List Json} {values : List Json}

theorem toString_injective (serde : SerdeJson) : Function.Injective serde.toString := by
  intro v w h
  have hread := congrArg serde.fromStr h
  rw [serde.fromStr_toString, serde.fromStr_toString] at hread
  exact Option.some.inj hread

theorem counts_eq_tally (results : List Json) :
    aggregator.counts serde results = tally ((aggregator.values results).map serde.toString) := by
  have hfold : ∀ counts : AList fun _ : List Char => Nat,
      results.foldl (fun counts result =>
        match result.get? aggregator.field with
        | some value => add counts (serde.toString value)
        | none => counts) counts =
      ((aggregator.values results).map serde.toString).foldl add counts := by
    induction results with
    | nil => exact fun _ => rfl
    | cons result rest ih =>
        intro counts
        rw [List.foldl_cons, ih]
        unfold values
        rw [List.filterMap_cons]
        cases result.get? aggregator.field <;> rfl
  exact hfold ∅

theorem count_text (values : List Json) (v : Json) :
    @List.count _ instBEqOfDecidableEq (serde.toString v) (values.map serde.toString) =
      values.count v :=
  @List.count_map_of_injective Json (List Char) _ _ instBEqOfDecidableEq _ values serde.toString
    (toString_injective serde) v

/-- A value of the field with the number of its votes. -/
theorem mem_entries_counts {e : Entry (List Char)} :
    e ∈ (aggregator.counts serde results).entries ↔
      ∃ v ∈ aggregator.values results,
        e = ⟨serde.toString v, (aggregator.values results).count v⟩ := by
  rw [counts_eq_tally, mem_entries_tally]
  constructor
  · rintro ⟨hkey, hcount⟩
    obtain ⟨v, hv, htext⟩ := List.mem_map.mp hkey
    refine ⟨v, hv, ?_⟩
    rw [← htext, count_text] at hcount
    exact Sigma.ext htext.symm (heq_of_eq hcount)
  · rintro ⟨v, hv, rfl⟩
    exact ⟨List.mem_map_of_mem hv, (count_text _ v).symm⟩

theorem nodup_keys {entries : List (Entry (List Char))}
    (hentries : entries.Perm (aggregator.counts serde results).entries) :
    (entries.map Sigma.fst).Nodup :=
  (hentries.map Sigma.fst).nodup_iff.mpr (aggregator.counts serde results).nodupKeys

/-- The labels of the report are the texts of the values, without their quotes. -/
theorem keys_votes {entries : List (Entry (List Char))}
    (hentries : entries.Perm (aggregator.counts serde results).entries) :
    (report entries).votes.keys =
      ((aggregator.values results).map fun v => trimQuotes (serde.toString v)).toFinset := by
  ext label
  rw [Finmap.mem_keys, report, mem_relabel, List.mem_toFinset, List.mem_map]
  constructor
  · rintro ⟨e, he, rfl⟩
    obtain ⟨v, hv, rfl⟩ := mem_entries_counts.mp (hentries.mem_iff.mp he)
    exact ⟨v, hv, rfl⟩
  · rintro ⟨v, hv, rfl⟩
    exact ⟨_, hentries.mem_iff.mpr (mem_entries_counts.mpr ⟨v, hv, rfl⟩), rfl⟩

/-- When the labels keep the values apart, each value has the number of its votes. -/
theorem lookup_votes {entries : List (Entry (List Char))}
    (hentries : entries.Perm (aggregator.counts serde results).entries)
    (htexts : ∀ v ∈ aggregator.values results, ∀ w ∈ aggregator.values results,
      trimQuotes (serde.toString v) = trimQuotes (serde.toString w) → v = w)
    {v : Json} (hv : v ∈ aggregator.values results) :
    (report entries).votes.lookup (trimQuotes (serde.toString v)) =
      some ((aggregator.values results).count v) := by
  have hmem := hentries.mem_iff.mpr (mem_entries_counts.mpr ⟨v, hv, rfl⟩)
  refine lookup_relabel (nodup_keys hentries) ?_ hmem
  intro key hkey other hother hname
  obtain ⟨e, he, rfl⟩ := List.mem_map.mp hkey
  obtain ⟨f, hf, rfl⟩ := List.mem_map.mp hother
  obtain ⟨x, hx, rfl⟩ := mem_entries_counts.mp (hentries.mem_iff.mp he)
  obtain ⟨y, hy, rfl⟩ := mem_entries_counts.mp (hentries.mem_iff.mp hf)
  exact congrArg serde.toString (htexts x hx y hy hname)

/-- The winner is the label of a value that leads. -/
theorem winner_leads {entries : List (Entry (List Char))}
    (hentries : entries.Perm (aggregator.counts serde results).entries)
    (hsome : aggregator.values results ≠ []) :
    ∃ v ∈ aggregator.values results, (report entries).winner = trimQuotes (serde.toString v) ∧
      Leads (aggregator.values results) v := by
  cases hmax : lastMax entries with
  | none =>
      obtain ⟨v, hv⟩ := List.exists_mem_of_ne_nil _ hsome
      have hmem := hentries.mem_iff.mpr (mem_entries_counts.mpr ⟨v, hv, rfl⟩)
      rw [lastMax_eq_none_iff.mp hmax] at hmem
      contradiction
  | some e =>
      obtain ⟨he, hgreatest⟩ := lastMax_spec hmax
      obtain ⟨v, hv, rfl⟩ := mem_entries_counts.mp (hentries.mem_iff.mp he)
      refine ⟨v, hv, by rw [report, hmax]; rfl, fun w hw => ?_⟩
      exact hgreatest _ (hentries.mem_iff.mpr (mem_entries_counts.mpr ⟨w, hw, rfl⟩))

/-- Any value that leads wins in some order of the hash map. -/
theorem exists_winner {v : Json} (hv : v ∈ aggregator.values results)
    (hleads : Leads (aggregator.values results) v) :
    ∃ answer, aggregator.Answers serde results answer ∧
      answer.winner = trimQuotes (serde.toString v) := by
  have hmem : (⟨serde.toString v, (aggregator.values results).count v⟩ : Entry (List Char)) ∈
      (aggregator.counts serde results).entries := mem_entries_counts.mpr ⟨v, hv, rfl⟩
  obtain ⟨front, back, hsplit⟩ := List.append_of_mem hmem
  generalize hentry : (⟨serde.toString v, (aggregator.values results).count v⟩ :
    Entry (List Char)) = entry at hsplit
  have hperm : (front ++ back ++ [entry]).Perm (aggregator.counts serde results).entries := by
    rw [hsplit, List.append_assoc]
    exact (List.perm_append_comm).append_left front
  have hlast : lastMax (front ++ back ++ [entry]) = some entry := by
    apply lastMax_concat
    intro e he
    obtain ⟨w, hw, rfl⟩ := mem_entries_counts.mp (hperm.mem_iff.mp (List.mem_append_left _ he))
    rw [← hentry]
    exact hleads w hw
  refine ⟨report (front ++ back ++ [entry]), ⟨_, hperm, rfl⟩, ?_⟩
  rw [report, hlast, ← hentry]
  rfl

/-! ## The order of the results and of the hash map -/

theorem answers_of_perm {shuffled : List Json} {answer : VoteReport}
    (hshuffled : shuffled.Perm results) (h : aggregator.Answers serde shuffled answer) :
    aggregator.Answers serde results answer := by
  obtain ⟨entries, hentries, rfl⟩ := h
  have hvalues : (aggregator.values shuffled).Perm (aggregator.values results) :=
    hshuffled.filterMap _
  refine ⟨entries, hentries.trans ?_, rfl⟩
  apply (List.perm_ext_iff_of_nodup (aggregator.counts serde shuffled).nodupKeys.nodup
    (aggregator.counts serde results).nodupKeys.nodup).mpr
  intro e
  rw [mem_entries_counts, mem_entries_counts]
  constructor
  · rintro ⟨v, hv, rfl⟩
    exact ⟨v, hvalues.mem_iff.mp hv, by rw [hvalues.count_eq]⟩
  · rintro ⟨v, hv, rfl⟩
    exact ⟨v, hvalues.mem_iff.mpr hv, by rw [hvalues.count_eq]⟩

/-- Labels that keep the values apart and a single leader leave one answer. -/
theorem answer_unique (hapart : Apart serde (aggregator.values results)) {first second : VoteReport}
    (hfirst : aggregator.Answers serde results first)
    (hsecond : aggregator.Answers serde results second) : first = second := by
  obtain ⟨entries, hentries, rfl⟩ := hfirst
  obtain ⟨others, hothers, rfl⟩ := hsecond
  have hkeys := (keys_votes hentries).trans (keys_votes hothers).symm
  have hvotes : (report entries).votes = (report others).votes := by
    apply Finmap.ext_lookup
    intro label
    by_cases hlabel : label ∈ (report entries).votes
    · have hmem := Finmap.mem_keys.mpr hlabel
      rw [keys_votes hentries, List.mem_toFinset, List.mem_map] at hmem
      obtain ⟨v, hv, rfl⟩ := hmem
      rw [lookup_votes hentries hapart.texts hv, lookup_votes hothers hapart.texts hv]
    · have hother : label ∉ (report others).votes := by
        rwa [← Finmap.mem_keys, ← hkeys, Finmap.mem_keys]
      rw [Finmap.lookup_eq_none.mpr hlabel, Finmap.lookup_eq_none.mpr hother]
  have hwinner : (report entries).winner = (report others).winner := by
    by_cases hnone : aggregator.values results = []
    · have hempty : (aggregator.counts serde results).entries = [] := by
        rw [counts_eq_tally, hnone]
        rfl
      rw [hempty] at hentries hothers
      rw [hentries.eq_nil, hothers.eq_nil]
    · obtain ⟨v, hv, hwins, hleads⟩ := winner_leads hentries hnone
      obtain ⟨w, hw, hwins', hleads'⟩ := winner_leads hothers hnone
      rw [hwins, hwins', hapart.leader v hv w hw hleads hleads']
  cases hreport : report entries
  cases hother : report others
  rw [hreport, hother] at hvotes hwinner
  rw [VoteReport.mk.injEq]
  exact ⟨hwinner, hvotes⟩

theorem counts_report {entries : List (Entry (List Char))}
    (hentries : entries.Perm (aggregator.counts serde results).entries)
    (hapart : Apart serde (aggregator.values results)) :
    (report entries).Counts (aggregator.values results) := by
  have hinj : Set.InjOn (fun v => trimQuotes (serde.toString v))
      {v | v ∈ aggregator.values results} :=
    fun v hv w hw hsame => hapart.texts v hv w hw hsame
  refine ⟨⟨_, hinj, keys_votes hentries, fun v hv => lookup_votes hentries hapart.texts hv,
    fun hsome => winner_leads hentries hsome⟩, ?_⟩
  have himage : (report entries).votes.keys = (aggregator.values results).toFinset.image
      fun v => trimQuotes (serde.toString v) := by
    rw [keys_votes hentries]
    ext label
    simp
  rw [himage, Finset.sum_image (fun v hv w hw hsame => hinj (List.mem_toFinset.mp hv)
    (List.mem_toFinset.mp hw) hsame), ← List.sum_toFinset_count_eq_length]
  apply Finset.sum_congr rfl
  intro v hv
  rw [lookup_votes hentries hapart.texts (List.mem_toFinset.mp hv)]
  rfl

/-- As many labels as values keep the values apart. -/
theorem texts_apart {answer : VoteReport} (hcounts : answer.Counts (aggregator.values results))
    (h : aggregator.Answers serde results answer) :
    ∀ v ∈ aggregator.values results, ∀ w ∈ aggregator.values results,
      trimQuotes (serde.toString v) = trimQuotes (serde.toString w) → v = w := by
  obtain ⟨entries, hentries, rfl⟩ := h
  obtain ⟨label, hlabel, hkeys, -⟩ := hcounts.partition
  have hlabels : ((aggregator.values results).toFinset.image label).card =
      (aggregator.values results).toFinset.card :=
    Finset.card_image_iff.mpr fun v hv w hw hsame =>
      hlabel (List.mem_toFinset.mp hv) (List.mem_toFinset.mp hw) hsame
  have hsame : (aggregator.values results).toFinset.image
      (fun v => trimQuotes (serde.toString v)) =
      (aggregator.values results).toFinset.image label := by
    have hboth := (keys_votes hentries).symm.trans hkeys
    ext key
    have hkey := Finset.ext_iff.mp hboth key
    simpa using hkey
  rw [← hsame] at hlabels
  intro v hv w hw htext
  exact Finset.card_image_iff.mp hlabels (List.mem_toFinset.mpr hv) (List.mem_toFinset.mpr hw) htext

theorem apart_of_votes (h : aggregator.Votes serde results) :
    Apart serde (aggregator.values results) := by
  obtain ⟨answer, hcounts, hone⟩ := h
  have hself : aggregator.Answers serde results answer := by
    have hanswer : aggregator.Answers serde results
        (report (aggregator.counts serde results).entries) := ⟨_, .refl _, rfl⟩
    rwa [hone results _ (.refl _) hanswer] at hanswer
  have htexts := texts_apart hcounts hself
  refine ⟨htexts, fun v hv w hw hleads hleads' => ?_⟩
  obtain ⟨first, hfirst, hwins⟩ := exists_winner hv hleads
  obtain ⟨second, hsecond, hwins'⟩ := exists_winner hw hleads'
  apply htexts v hv w hw
  rw [← hwins, ← hwins', hone results first (.refl _) hfirst,
    hone results second (.refl _) hsecond]

/-- The vote reports the values exactly if their texts differ without their quotes and one of
them leads. -/
theorem votes_iff (serde : SerdeJson) (aggregator : VoteAggregator) (results : List Json) :
    aggregator.Votes serde results ↔ Apart serde (aggregator.values results) := by
  refine ⟨apart_of_votes, fun hapart => ?_⟩
  refine ⟨report (aggregator.counts serde results).entries,
    counts_report (.refl _) hapart, fun shuffled other hshuffled hother => ?_⟩
  exact answer_unique hapart (answers_of_perm hshuffled hother) ⟨_, .refl _, rfl⟩

def decision : VoteAggregator := ⟨"decision"⟩

/-- The number 1 and the text "1" are one label; and two values with one vote each both win. -/
theorem not_votes_one_and_one :
    ¬ decision.Votes .compact [.obj [("decision", .ofNat 1)], .obj [("decision", .str "1")]] ∧
      ¬ decision.Votes .compact
        [.obj [("decision", .str "approve")], .obj [("decision", .str "reject")]] := by
  constructor
  · intro h
    have hsame := (apart_of_votes h).texts (.ofNat 1) (by decide) (.str "1") (by decide)
      (by decide)
    contradiction
  · intro h
    have hsame := (apart_of_votes h).leader (.str "approve") (by decide) (.str "reject")
      (by decide) (by unfold Leads; decide) (by unfold Leads; decide)
    exact absurd hsame (by decide)

end VoteAggregator

end Zeptobeam
