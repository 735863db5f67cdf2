/-
The two checkpoint stores: a map in memory, and a directory with one JSON file for
each key.  The directory holds its files by name, with every file operation
succeeding; the order in which keys are listed means nothing in either store.
-/
import Zeptobeam.Types
import Zeptobeam.Lib.GuardedRun
import Mathlib.Data.List.AList

namespace Zeptobeam

open GuardedRun LineFile

/-- `serde_json::to_vec_pretty` and `serde_json::from_slice`. -/
structure PrettyJson where
  toVecPretty : Json → Bytes
  fromSlice : Bytes → Option Json
  /-- What is written is read back. -/
  fromSlice_toVecPretty : ∀ value, fromSlice (toVecPretty value) = some value

/-- Printing without the blanks satisfies the law. -/
def PrettyJson.compact : PrettyJson where
  toVecPretty value := encode (Json.print value)
  fromSlice bytes := (decode bytes).bind Json.parse
  fromSlice_toVecPretty value := by
    rw [decode_encode]
    exact Json.parse_print value

/-! ## File names -/

abbrev FileName := List Char

/-- `rsplit_file_at_dot`: what stands before the last dot and what behind it; a name
that only begins with a dot has no extension. -/
def rsplitFileAtDot (name : FileName) : FileName × Option FileName :=
  if name = "..".toList then (name, none)
  else
    match name.reverse.dropWhile (· ≠ '.') with
    | [] | [_] => (name, none)
    | _ :: before => (before.reverse, some (name.reverse.takeWhile (· ≠ '.')).reverse)

def fileStem (name : FileName) : FileName := (rsplitFileAtDot name).1

def extension (name : FileName) : Option FileName := (rsplitFileAtDot name).2

def withExtension (name ext : FileName) : FileName := fileStem name ++ '.' :: ext

theorem rsplitFileAtDot_of_dot {stem ext : FileName} (hstem : stem ≠ []) (hext : ext ≠ [])
    (hdot : '.' ∉ ext) : rsplitFileAtDot (stem ++ '.' :: ext) = (stem, some ext) := by
  have hreverse : (stem ++ '.' :: ext).reverse = ext.reverse ++ '.' :: stem.reverse := by simp
  have hplain : ∀ c ∈ ext.reverse, (decide (c ≠ '.')) = true := by
    intro c hc
    have hne : c ≠ '.' := by
      rintro rfl
      exact hdot (List.mem_reverse.mp hc)
    simpa using hne
  have hdrop : (stem ++ '.' :: ext).reverse.dropWhile (· ≠ '.') = '.' :: stem.reverse := by
    rw [hreverse, List.dropWhile_append_of_pos hplain]
    simp
  have htake : (stem ++ '.' :: ext).reverse.takeWhile (· ≠ '.') = ext.reverse := by
    rw [hreverse, List.takeWhile_append_of_pos hplain]
    simp
  have hdots : stem ++ '.' :: ext ≠ "..".toList := by
    intro h
    have hlength := congrArg List.length h
    have hstemLength := List.length_pos_iff.mpr hstem
    have hextLength := List.length_pos_iff.mpr hext
    simp only [List.length_append, List.length_cons] at hlength
    change stem.length + (ext.length + 1) = 2 at hlength
    omega
  have hsplit : stem.reverse ≠ [] := by simpa using hstem
  obtain ⟨c, rest, hcons⟩ := List.exists_cons_of_ne_nil hsplit
  have hback : stem = rest.reverse ++ [c] := by
    have := congrArg List.reverse hcons
    simpa using this
  simp only [rsplitFileAtDot, if_neg hdots, hdrop, htake, hcons, List.reverse_reverse]
  simp [hback]

theorem eq_of_rsplitFileAtDot {name stem ext : FileName}
    (h : rsplitFileAtDot name = (stem, some ext)) : name = stem ++ '.' :: ext := by
  have hsplit := List.takeWhile_append_dropWhile (p := (· ≠ '.')) (l := name.reverse)
  unfold rsplitFileAtDot at h
  split at h
  · simp at h
  · split at h
    · simp at h
    · simp at h
    · rename_i dot before _ hdrop
      have hdot : dot = '.' := by
        have hhead := List.head?_dropWhile_not (fun c => decide (c ≠ '.')) name.reverse
        rw [hdrop] at hhead
        simpa using hhead
      obtain ⟨rfl, rfl⟩ : before.reverse = stem ∧ _ = ext := by simpa using h
      have hname := congrArg List.reverse hsplit
      rw [hdrop, hdot] at hname
      simpa using hname.symm

/-! ## The store in memory -/

structure InMemoryCheckpointStore where
  inner : AList fun _ : String => Json

namespace InMemoryCheckpointStore

def new : InMemoryCheckpointStore := ⟨∅⟩

def save (store : InMemoryCheckpointStore) (key : String) (checkpoint : Json) :
    Except AgentRtError Unit × InMemoryCheckpointStore :=
  (.ok (), ⟨store.inner.insert key checkpoint⟩)

def load (store : InMemoryCheckpointStore) (key : String) :
    Except AgentRtError (Option Json) :=
  .ok (store.inner.lookup key)

def delete (store : InMemoryCheckpointStore) (key : String) :
    Except AgentRtError Unit × InMemoryCheckpointStore :=
  (.ok (), ⟨store.inner.erase key⟩)

def listKeys (store : InMemoryCheckpointStore) : Except AgentRtError (List String) :=
  .ok store.inner.keys

end InMemoryCheckpointStore

/-! ## The store in files -/

/-- The files of the store's directory. -/
structure FileCheckpointStore where
  dir : AList fun _ : FileName => Bytes

namespace FileCheckpointStore

variable (json : PrettyJson)

/-- The directory is created, with nothing in it. -/
def new : FileCheckpointStore := ⟨∅⟩

def safeChar (c : Char) : Char :=
  if c.isAlphanum || c == '-' || c == '_' then c else '_'

def safeName (key : String) : FileName := key.toList.map safeChar

def checkpointPath (key : String) : FileName := safeName key ++ ".json".toList

def write (store : FileCheckpointStore) (name : FileName) (bytes : Bytes) :
    FileCheckpointStore :=
  ⟨store.dir.insert name bytes⟩

def rename (store : FileCheckpointStore) (old new : FileName) : FileCheckpointStore :=
  match store.dir.lookup old with
  | none => store
  | some bytes => ⟨(store.dir.erase old).insert new bytes⟩

def save (store : FileCheckpointStore) (key : String) (checkpoint : Json) :
    Except AgentRtError Unit × FileCheckpointStore :=
  let path := checkpointPath key
  let tmp := withExtension path "json.tmp".toList
  (.ok (), (store.write tmp (json.toVecPretty checkpoint)).rename tmp path)

def load (store : FileCheckpointStore) (key : String) :
    Except AgentRtError (Option Json) :=
  match store.dir.lookup (checkpointPath key) with
  | none => .ok none
  | some bytes =>
      match json.fromSlice bytes with
      | none => .error (.serialization "")
      | some value => .ok (some value)

def delete (store : FileCheckpointStore) (key : String) :
    Except AgentRtError Unit × FileCheckpointStore :=
  (.ok (), ⟨store.dir.erase (checkpointPath key)⟩)

def listKeys (store : FileCheckpointStore) : Except AgentRtError (List String) :=
  .ok (store.dir.keys.filterMap fun name =>
    if extension name = some "json".toList then some (String.ofList (fileStem name)) else none)

/-! ### Names of checkpoints -/

variable {json} {key other : String} {store : FileCheckpointStore}

theorem safeChar_safeChar (c : Char) : safeChar (safeChar c) = safeChar c := by
  unfold safeChar
  split
  · rfl
  · rfl

theorem safeName_idem (key : String) : (safeName key).map safeChar = safeName key := by
  simp [safeName, safeChar_safeChar]

theorem safeName_eq_nil_iff : safeName key = [] ↔ key = "" := by
  simp [safeName]

theorem checkpointPath_inj :
    checkpointPath key = checkpointPath other ↔ safeName key = safeName other :=
  List.append_left_inj _

theorem rsplitFileAtDot_checkpointPath (hkey : key ≠ "") :
    rsplitFileAtDot (checkpointPath key) = (safeName key, some "json".toList) :=
  rsplitFileAtDot_of_dot (mt safeName_eq_nil_iff.mp hkey) (by decide) (by decide)

theorem extension_checkpointPath_empty : extension (checkpointPath "") = none := by decide

/-- A file that is being written has no checkpoint's name. -/
theorem withExtension_tmp_ne (name : FileName) (key : String) :
    withExtension name "json.tmp".toList ≠ checkpointPath key := by
  intro h
  have hlast := congrArg List.getLast? h
  have htmp : (withExtension name "json.tmp".toList).getLast? = some 'p' := by
    simp [withExtension, List.getLast?_append]
  have hjson : (checkpointPath key).getLast? = some 'n' := by
    simp [checkpointPath, List.getLast?_append]
  rw [htmp, hjson] at hlast
  exact absurd hlast (by decide)

/-! ### What the operations do to the files -/

/-- Every file is a checkpoint's. -/
def Settled (store : FileCheckpointStore) : Prop :=
  ∀ name ∈ store.dir, ∃ key, name = checkpointPath key

theorem lookup_save (hsettled : store.Settled) (key : String) (checkpoint : Json)
    (name : FileName) :
    (store.save json key checkpoint).2.dir.lookup name =
      if name = checkpointPath key then some (json.toVecPretty checkpoint)
      else store.dir.lookup name := by
  have htmp : store.dir.lookup (withExtension (checkpointPath key) "json.tmp".toList) = none := by
    rw [AList.lookup_eq_none]
    intro hmem
    obtain ⟨other, hother⟩ := hsettled _ hmem
    exact withExtension_tmp_ne _ other hother
  simp only [save, write, rename, AList.lookup_insert]
  by_cases hname : name = checkpointPath key
  · rw [if_pos hname, hname, AList.lookup_insert]
  · rw [if_neg hname, AList.lookup_insert_ne hname]
    by_cases hother : name = withExtension (checkpointPath key) "json.tmp".toList
    · rw [hother, AList.lookup_erase, htmp]
    · rw [AList.lookup_erase_ne hother, AList.lookup_insert_ne hother]

theorem load_save (hsettled : store.Settled) (key : String) (checkpoint : Json)
    (other : String) :
    (store.save json key checkpoint).2.load json other =
      if checkpointPath other = checkpointPath key then .ok (some checkpoint)
      else store.load json other := by
  unfold load
  rw [lookup_save hsettled]
  by_cases hpath : checkpointPath other = checkpointPath key
  · simp [hpath, json.fromSlice_toVecPretty]
  · simp [hpath]

theorem load_delete (key other : String) :
    (store.delete key).2.load json other =
      if checkpointPath other = checkpointPath key then .ok none
      else store.load json other := by
  unfold load
  by_cases hpath : checkpointPath other = checkpointPath key
  · rw [hpath, if_pos rfl]
    simp [delete]
  · simp [delete, hpath, AList.lookup_erase_ne hpath]

/-- The listed keys are the safe names of the checkpoints, the empty one left out. -/
theorem mem_listKeys (hsettled : store.Settled) {keys : List String}
    (hkeys : store.listKeys = .ok keys) (listed : String) :
    listed ∈ keys ↔
      ∃ key, checkpointPath key ∈ store.dir ∧ key ≠ "" ∧
        String.ofList (safeName key) = listed := by
  obtain rfl : _ = keys := Except.ok.inj hkeys
  rw [List.mem_filterMap]
  constructor
  · rintro ⟨name, hname, hlisted⟩
    obtain ⟨key, rfl⟩ := hsettled name hname
    have hne : key ≠ "" := by
      rintro rfl
      simp [extension_checkpointPath_empty] at hlisted
    refine ⟨key, hname, hne, ?_⟩
    simpa [extension, fileStem, rsplitFileAtDot_checkpointPath hne] using hlisted
  · rintro ⟨key, hname, hne, rfl⟩
    exact ⟨checkpointPath key, hname,
      by simp [extension, fileStem, rsplitFileAtDot_checkpointPath hne]⟩

theorem nodup_listKeys {keys : List String}
    (hkeys : store.listKeys = .ok keys) : keys.Nodup := by
  obtain rfl : _ = keys := Except.ok.inj hkeys
  refine List.Nodup.filterMap ?_ store.dir.keys_nodup
  intro name name' listed hname hname'
  simp only [Option.mem_def, Option.ite_none_right_eq_some, Option.some.injEq] at hname hname'
  have hstem : fileStem name = fileStem name' :=
    String.ofList_injective (hname.2.trans hname'.2.symm)
  have hleft := eq_of_rsplitFileAtDot (Prod.ext_iff.mpr ⟨hstem, hname.1⟩)
  have hright := eq_of_rsplitFileAtDot (Prod.ext_iff.mpr ⟨rfl, hname'.1⟩)
  exact hleft.trans hright.symm

end FileCheckpointStore

/-! ## The same calls on both stores -/

inductive CheckpointOp where
  | save (key : String) (checkpoint : Json)
  | load (key : String)
  | delete (key : String)
  | listKeys

inductive CheckpointAnswer where
  | done (result : Except AgentRtError Unit)
  | loaded (result : Except AgentRtError (Option Json))
  | keys (result : Except AgentRtError (List String))

/-- Equal answers; the order of listed keys does not count. -/
inductive CheckpointAnswer.Alike : CheckpointAnswer → CheckpointAnswer → Prop
  | refl (answer : CheckpointAnswer) : Alike answer answer
  | keys {listed listed' : List String} :
      listed.Perm listed' → Alike (.keys (.ok listed)) (.keys (.ok listed'))

theorem CheckpointAnswer.Alike.loaded {left right : Except AgentRtError (Option Json)}
    (h : Alike (.loaded left) (.loaded right)) : left = right := by
  cases h
  rfl

theorem CheckpointAnswer.Alike.perm {left right : List String}
    (h : Alike (.keys (.ok left)) (.keys (.ok right))) : left.Perm right := by
  cases h with
  | refl => exact .refl _
  | keys hperm => exact hperm

def InMemoryCheckpointStore.perform (store : InMemoryCheckpointStore) :
    CheckpointOp → CheckpointAnswer × InMemoryCheckpointStore
  | .save key checkpoint => ((store.save key checkpoint).map .done id)
  | .load key => (.loaded (store.load key), store)
  | .delete key => ((store.delete key).map .done id)
  | .listKeys => (.keys store.listKeys, store)

def FileCheckpointStore.perform (json : PrettyJson) (store : FileCheckpointStore) :
    CheckpointOp → CheckpointAnswer × FileCheckpointStore
  | .save key checkpoint => ((store.save json key checkpoint).map .done id)
  | .load key => (.loaded (store.load json key), store)
  | .delete key => ((store.delete key).map .done id)
  | .listKeys => (.keys store.listKeys, store)

/-- Both stores, and what they have answered so far. -/
structure CheckpointStores where
  memory : InMemoryCheckpointStore
  files : FileCheckpointStore
  answers : List (CheckpointAnswer × CheckpointAnswer)

namespace CheckpointStores

open FileCheckpointStore

variable {json : PrettyJson} {s : CheckpointStores} {other : String}

def new : CheckpointStores := ⟨.new, .new, []⟩

def step (json : PrettyJson) (s : CheckpointStores) (op : CheckpointOp) : CheckpointStores :=
  let inMemory := s.memory.perform op
  let inFiles := s.files.perform json op
  ⟨inMemory.2, inFiles.2, s.answers ++ [(inMemory.1, inFiles.1)]⟩

/-- The stores have answered alike, no two keys share a file, and what is loaded under
a key in memory is loaded from its file. -/
structure Agree (json : PrettyJson) (s : CheckpointStores) : Prop where
  answers : ∀ answer ∈ s.answers, answer.1.Alike answer.2
  own : ∀ key ∈ s.memory.inner, ∀ other ∈ s.memory.inner,
    checkpointPath other = checkpointPath key → other = key
  kept : ∀ key ∈ s.memory.inner, s.files.load json key = s.memory.load key

/-- No other key with the same safe name has a checkpoint; and when keys are listed,
those with one are their own safe names, and not empty. -/
def KeysApart (s : CheckpointStores) : CheckpointOp → Prop
  | .save key _ | .load key | .delete key =>
      ∀ other ∈ s.memory.inner, checkpointPath other = checkpointPath key → other = key
  | .listKeys => ∀ key ∈ s.memory.inner, safeName key = key.toList ∧ key ≠ ""

/-- There is a file for every key in memory, and no other. -/
structure Mirrors (json : PrettyJson) (s : CheckpointStores) : Prop extends Agree json s where
  filed : ∀ name, name ∈ s.files.dir ↔ ∃ key ∈ s.memory.inner, name = checkpointPath key

theorem Mirrors.settled (h : s.Mirrors json) : s.files.Settled := by
  intro name hname
  obtain ⟨key, -, hkey⟩ := (h.filed name).mp hname
  exact ⟨key, hkey⟩

theorem new_mirrors (json : PrettyJson) : new.Mirrors json where
  answers answer hanswer := by cases hanswer
  own key hkey := by cases hkey
  kept key hkey := by cases hkey
  filed name := by simp [new, InMemoryCheckpointStore.new, FileCheckpointStore.new]

/-! ### What one call keeps -/

theorem mem_dir_iff_load_ne {store : FileCheckpointStore} {key : String} :
    checkpointPath key ∈ store.dir ↔ store.load json key ≠ .ok none := by
  rw [← AList.lookup_isSome]
  unfold FileCheckpointStore.load
  cases store.dir.lookup (checkpointPath key) with
  | none => simp
  | some bytes => cases hvalue : json.fromSlice bytes <;> simp [hvalue]

/-- A key without a checkpoint and apart from those with one is loaded as such. -/
theorem Mirrors.load_eq (h : s.Mirrors json) {key : String}
    (hapart : ∀ other ∈ s.memory.inner, checkpointPath other = checkpointPath key → other = key) :
    s.files.load json key = s.memory.load key := by
  by_cases hkey : key ∈ s.memory.inner
  · exact h.kept key hkey
  · have hfile : checkpointPath key ∉ s.files.dir := by
      intro hmem
      obtain ⟨other, hother, hpath⟩ := (h.filed _).mp hmem
      exact hkey (hapart other hother hpath.symm ▸ hother)
    have hnone : s.files.load json key = .ok none := by
      by_contra hne
      exact hfile (mem_dir_iff_load_ne.mpr hne)
    rw [hnone, InMemoryCheckpointStore.load, AList.lookup_eq_none.mpr hkey]

theorem answers_concat {answer : CheckpointAnswer × CheckpointAnswer}
    (h : ∀ answer ∈ s.answers, answer.1.Alike answer.2) (hnew : answer.1.Alike answer.2) :
    ∀ other ∈ s.answers ++ [answer], other.1.Alike other.2 := by
  intro other hother
  rcases List.mem_append.mp hother with hold | hlast
  · exact h other hold
  · rw [List.mem_singleton.mp hlast]
    exact hnew

theorem Mirrors.save (h : s.Mirrors json) (key : String) (checkpoint : Json)
    (hapart : s.KeysApart (.save key checkpoint)) :
    (s.step json (.save key checkpoint)).Mirrors json where
  answers := answers_concat h.answers (.refl _)
  own first hfirst second hsecond hpath := by
    rcases (AList.mem_insert _).mp hfirst with hfirst | hfirst
    · rcases (AList.mem_insert _).mp hsecond with hsecond | hsecond
      · rw [hfirst, hsecond]
      · rw [hfirst] at hpath ⊢
        exact hapart second hsecond hpath
    · rcases (AList.mem_insert _).mp hsecond with hsecond | hsecond
      · rw [hsecond] at hpath ⊢
        exact (hapart first hfirst hpath.symm).symm
      · exact h.own first hfirst second hsecond hpath
  kept other hother := by
    refine (load_save h.settled key checkpoint other).trans ?_
    by_cases hkey : other = key
    · rw [hkey, if_pos rfl]
      exact congrArg Except.ok (AList.lookup_insert s.memory.inner).symm
    · have hold : other ∈ s.memory.inner := ((AList.mem_insert _).mp hother).resolve_left hkey
      rw [if_neg fun hpath => hkey (hapart other hold hpath), h.kept other hold]
      exact congrArg Except.ok (AList.lookup_insert_ne hkey).symm
  filed name := by
    rw [← AList.lookup_isSome]
    change ((s.files.save json key checkpoint).2.dir.lookup name).isSome ↔ _
    rw [lookup_save h.settled]
    have hold := h.filed name
    rw [← AList.lookup_isSome] at hold
    have hmem : ∀ other, other ∈ (s.step json (.save key checkpoint)).memory.inner ↔
        other = key ∨ other ∈ s.memory.inner := fun other => AList.mem_insert _
    simp only [hmem, or_and_right, exists_or, exists_eq_left]
    split
    · simp_all
    · simp_all

theorem Mirrors.delete (h : s.Mirrors json) (key : String)
    (hapart : s.KeysApart (.delete key)) :
    (s.step json (.delete key)).Mirrors json where
  answers := answers_concat h.answers (.refl _)
  own first hfirst second hsecond hpath :=
    h.own first (AList.mem_erase.mp hfirst).2 second (AList.mem_erase.mp hsecond).2 hpath
  kept other hother := by
    obtain ⟨hkey, hold⟩ := AList.mem_erase.mp hother
    refine (load_delete key other).trans ?_
    rw [if_neg fun hpath => hkey (hapart other hold hpath), h.kept other hold]
    exact congrArg Except.ok (AList.lookup_erase_ne hkey).symm
  filed name := by
    change name ∈ s.files.dir.erase (checkpointPath key) ↔
      ∃ other ∈ s.memory.inner.erase key, name = checkpointPath other
    rw [AList.mem_erase, h.filed]
    constructor
    · rintro ⟨hname, other, hother, rfl⟩
      have hkey : other ≠ key := by
        rintro rfl
        exact hname rfl
      exact ⟨other, AList.mem_erase.mpr ⟨hkey, hother⟩, rfl⟩
    · rintro ⟨other, hother, rfl⟩
      obtain ⟨hkey, hold⟩ := AList.mem_erase.mp hother
      exact ⟨fun hpath => hkey (hapart other hold hpath), other, hold, rfl⟩

theorem Mirrors.load (h : s.Mirrors json) (key : String) (hapart : s.KeysApart (.load key)) :
    (s.step json (.load key)).Mirrors json where
  answers := by
    refine answers_concat h.answers ?_
    change CheckpointAnswer.Alike (.loaded (s.memory.load key)) (.loaded (s.files.load json key))
    rw [h.load_eq hapart]
    exact .refl _
  own := h.own
  kept := h.kept
  filed := h.filed

/-- The files list the safe names of the keys in memory. -/
theorem Mirrors.mem_listKeys (h : s.Mirrors json) {listed : String} {keys : List String}
    (hkeys : s.files.listKeys = .ok keys) :
    listed ∈ keys ↔ ∃ key ∈ s.memory.inner, key ≠ "" ∧ String.ofList (safeName key) = listed := by
  rw [FileCheckpointStore.mem_listKeys h.settled hkeys]
  constructor
  · rintro ⟨key, hfile, hne, rfl⟩
    obtain ⟨owner, howner, hpath⟩ := (h.filed _).mp hfile
    have hname : safeName key = safeName owner := checkpointPath_inj.mp hpath
    refine ⟨owner, howner, ?_, by rw [hname]⟩
    rintro rfl
    exact hne (safeName_eq_nil_iff.mp hname)
  · rintro ⟨key, hkey, hne, rfl⟩
    exact ⟨key, (h.filed _).mpr ⟨key, hkey, rfl⟩, hne, rfl⟩

theorem Mirrors.listKeys (h : s.Mirrors json) (hapart : s.KeysApart .listKeys) :
    (s.step json .listKeys).Mirrors json where
  answers := by
    refine answers_concat h.answers (.keys ?_)
    refine (List.perm_ext_iff_of_nodup s.memory.inner.keys_nodup (nodup_listKeys rfl)).mpr ?_
    intro listed
    rw [h.mem_listKeys rfl, ← AList.mem_keys]
    constructor
    · intro hlisted
      obtain ⟨hsafe, hne⟩ := hapart listed hlisted
      exact ⟨listed, hlisted, hne, by rw [hsafe, String.ofList_toList]⟩
    · rintro ⟨key, hkey, -, rfl⟩
      rwa [(hapart key hkey).1, String.ofList_toList]
  own := h.own
  kept := h.kept
  filed := h.filed

theorem Mirrors.step (h : s.Mirrors json) (op : CheckpointOp) (hapart : s.KeysApart op) :
    (s.step json op).Mirrors json := by
  cases op with
  | save key checkpoint => exact h.save key checkpoint hapart
  | load key => exact h.load key hapart
  | delete key => exact h.delete key hapart
  | listKeys => exact h.listKeys hapart

/-! ### What goes wrong otherwise -/

/-- The key has no checkpoint of its own when another one with its file has one. -/
theorem Mirrors.not_mem_of_shared (h : s.Mirrors json) {key other : String}
    (hother : other ∈ s.memory.inner) (hpath : checkpointPath other = checkpointPath key)
    (hne : other ≠ key) : key ∉ s.memory.inner :=
  fun hkey => hne (h.own key hkey other hother hpath)

theorem alike_of_agree {op : CheckpointOp} (hagree : (s.step json op).Agree json) :
    (s.memory.perform op).1.Alike (s.files.perform json op).1 :=
  hagree.answers ((s.memory.perform op).1, (s.files.perform json op).1)
    (List.mem_append_right _ (List.mem_singleton.mpr rfl))

theorem Mirrors.not_agree (h : s.Mirrors json) (op : CheckpointOp)
    (hapart : ¬ s.KeysApart op) : ¬ (s.step json op).Agree json := by
  intro hagree
  cases op with
  | save key checkpoint =>
      refine hapart fun other hother hpath => ?_
      exact hagree.own key ((AList.mem_insert _).mpr (.inl rfl)) other
        ((AList.mem_insert _).mpr (.inr hother)) hpath
  | load key =>
      refine hapart fun other hother hpath => ?_
      by_contra hne
      have hmemory : s.memory.load key = .ok none :=
        congrArg Except.ok (AList.lookup_eq_none.mpr (h.not_mem_of_shared hother hpath hne))
      have hfile : s.files.load json key ≠ .ok none :=
        mem_dir_iff_load_ne.mp ((h.filed _).mpr ⟨other, hother, hpath.symm⟩)
      exact hfile ((alike_of_agree hagree).loaded.symm.trans hmemory)
  | delete key =>
      refine hapart fun other hother hpath => ?_
      by_contra hne
      have hold : other ∈ s.memory.inner.erase key := AList.mem_erase.mpr ⟨hne, hother⟩
      have hgone : (s.files.delete key).2.load json other = .ok none := by
        rw [load_delete, if_pos hpath]
      have hkept : (s.files.delete key).2.load json other =
          .ok ((s.memory.inner.erase key).lookup other) := hagree.kept other hold
      rw [hgone] at hkept
      exact AList.lookup_eq_none.mp (Except.ok.inj hkept).symm hold
  | listKeys =>
      refine hapart fun key hkey => ?_
      have hlisted := ((alike_of_agree hagree).perm.mem_iff (a := key)).mp hkey
      obtain ⟨owner, -, hne, hsafe⟩ := (h.mem_listKeys rfl).mp hlisted
      have hname : safeName owner = key.toList := by rw [← hsafe, String.toList_ofList]
      constructor
      · rw [safeName, ← hname, safeName_idem]
      · rintro rfl
        exact hne (safeName_eq_nil_iff.mp hname)

/-! ### Runs -/

/-- The file store answers as the store in memory does, with a file for each key,
throughout exactly those runs that keep the keys apart. -/
theorem fileStore_agrees_iff (json : PrettyJson) (ops : List CheckpointOp) :
    Throughout (step json) (Agree json) new ops ↔ Guarded (step json) KeysApart new ops :=
  throughout_iff_guarded KeysApart (Agree json) (new_mirrors json)
    (fun _ op hmirrors hapart => Mirrors.step hmirrors op hapart)
    (fun _ hmirrors => hmirrors.toAgree)
    (fun _ op hmirrors hapart => hmirrors.not_agree op hapart) ops

/-- A checkpoint saved under one key is loaded under another one. -/
theorem fileStore_shares_file :
    ¬ ∀ ops : List CheckpointOp, Throughout (step .compact) (Agree .compact) new ops := by
  intro h
  have hagree := h [.save "goal/1" (.ofNat 1), .load "goal_1"] _ List.prefix_rfl
  have hsettled : FileCheckpointStore.new.Settled := (new_mirrors .compact).settled
  have hfile : (FileCheckpointStore.new.save .compact "goal/1" (.ofNat 1)).2.load .compact
      "goal_1" = .ok (some (.ofNat 1)) := by
    rw [load_save hsettled, if_pos (by decide)]
  have hmemory : (InMemoryCheckpointStore.new.save "goal/1" (.ofNat 1)).2.load "goal_1" =
      .ok none := rfl
  have halike := (alike_of_agree (s := new.step .compact (.save "goal/1" (.ofNat 1)))
    hagree).loaded
  exact absurd (hmemory.symm.trans (halike.trans hfile)) (by simp)

end CheckpointStores

end Zeptobeam
