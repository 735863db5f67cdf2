/-
Reloading the configuration: the agents that are resolved from it, the hash that tells that it
changed, and the agents the daemon removes and adds.  The hasher is a parameter; the file may
be one that cannot be read.  A running agent is known by the settings it was started with.
-/
import Zeptobeam.Types
import Zeptobeam.Lib.GuardedRun
import Mathlib.Data.List.Perm.Basic

namespace Zeptobeam

open GuardedRun

structure AgentConfig where
  name : String
  provider : String
  model : Option String
  systemPrompt : Option String
  tools : List String
  autoStart : Bool
  maxIterations : Option Nat
  timeoutMs : Option Nat
deriving DecidableEq

structure AgentAdapterConfig where
  name : String
  provider : String
  model : Option String
  systemPrompt : Option String
  tools : List String
  maxIterations : Option Nat
  timeoutMs : Option Nat
deriving DecidableEq

structure ConfigError where
  agentName : String
  message : String
deriving DecidableEq, Repr

structure ResolvedAgents where
  agents : List AgentAdapterConfig
  configHash : UInt64

/-- What a field of an agent feeds the hasher. -/
inductive HashedValue where
  | text (value : String)
  | optionText (value : Option String)
  | texts (values : List String)
  | bool (value : Bool)
  | optionNumber (value : Option Nat)
deriving DecidableEq

namespace AgentConfig

def convertAgent (cfg : AgentConfig) : AgentAdapterConfig where
  name := cfg.name
  provider := cfg.provider
  model := cfg.model
  systemPrompt := cfg.systemPrompt
  tools := cfg.tools
  maxIterations := cfg.maxIterations
  timeoutMs := cfg.timeoutMs

def validateAgent (cfg : AgentConfig) : List ConfigError :=
  let name := if cfg.name = "" then "<unnamed>" else cfg.name
  (if LineFile.isBlank cfg.name.toList then [⟨name, "name must not be empty"⟩] else []) ++
  (if LineFile.isBlank cfg.provider.toList then
    [⟨name, "provider must not be empty"⟩] else []) ++
  (if cfg.maxIterations = some 0 then [⟨name, "max_iterations must be > 0"⟩] else [])

def hashedFields (agent : AgentConfig) : List HashedValue :=
  [.text agent.name, .text agent.provider, .optionText agent.model,
    .optionText agent.systemPrompt, .texts agent.tools, .bool agent.autoStart,
    .optionNumber agent.maxIterations, .optionNumber agent.timeoutMs]

end AgentConfig

/-- The agents a configuration starts. -/
def autoStartAgents (agents : List AgentConfig) : List AgentAdapterConfig :=
  (agents.filter (·.autoStart)).map AgentConfig.convertAgent

/-- What all agents feed the hasher. -/
def hashedValues (agents : List AgentConfig) : List HashedValue :=
  agents.flatMap AgentConfig.hashedFields

section Hasher

variable (defaultHasher : List HashedValue → UInt64)

def computeConfigHash (agents : List AgentConfig) : UInt64 :=
  defaultHasher (hashedValues agents)

def resolveAgents (agents : List AgentConfig) : Except (List ConfigError) ResolvedAgents :=
  let errors := agents.flatMap AgentConfig.validateAgent
  if errors ≠ [] then .error errors
  else .ok ⟨autoStartAgents agents, computeConfigHash defaultHasher agents⟩

/-- `check_for_changes`: the agents and the hash of a change, and the last hash after it. -/
def checkForChanges (lastHash : UInt64) (file : Option (List AgentConfig)) :
    Option ResolvedAgents × UInt64 :=
  match file with
  | none => (none, lastHash)
  | some agents =>
      match resolveAgents defaultHasher agents with
      | .error _ => (none, lastHash)
      | .ok resolved =>
          if resolved.configHash = lastHash then (none, lastHash)
          else (some resolved, resolved.configHash)

end Hasher

structure AgentDiff where
  toAdd : List AgentAdapterConfig
  toRemove : List String
deriving DecidableEq

def diffAgents (running : List String) (newAgents : List AgentAdapterConfig) : AgentDiff where
  toAdd := newAgents.filter fun agent => agent.name ∉ running
  toRemove := running.filter fun name => name ∉ newAgents.map AgentAdapterConfig.name

/-- The first agent of a name is removed and killed. -/
def removeAgent (handles : List AgentAdapterConfig) (name : String) :
    List AgentAdapterConfig :=
  handles.eraseP (·.name = name)

/-- What the daemon loop does about a change. -/
def applyChange (handles newAgents : List AgentAdapterConfig) : List AgentAdapterConfig :=
  let diff := diffAgents (handles.map AgentAdapterConfig.name) newAgents
  diff.toRemove.foldl removeAgent handles ++ diff.toAdd

/-- The watcher and the daemon, with the last valid configuration that was read.  Changes go
through a channel, which keeps their order. -/
structure ReloadState where
  config : List AgentConfig
  lastHash : UInt64
  handles : List AgentAdapterConfig

namespace ReloadState

variable (defaultHasher : List HashedValue → UInt64)

def start (config : List AgentConfig) : ReloadState :=
  ⟨config, computeConfigHash defaultHasher config, autoStartAgents config⟩

def valid (agents : List AgentConfig) : Bool :=
  agents.flatMap AgentConfig.validateAgent = []

def reload (s : ReloadState) (file : Option (List AgentConfig)) : ReloadState :=
  let (change, lastHash) := checkForChanges defaultHasher s.lastHash file
  { config := (file.filter valid).getD s.config
    lastHash
    handles := match change with
      | none => s.handles
      | some resolved => applyChange s.handles resolved.agents }

/-- The running agents are those of the configuration, each as often and with its settings. -/
def Converged (s : ReloadState) : Prop :=
  s.handles.Perm (autoStartAgents s.config)

/-- A name that is running and stays in the configuration has the agents that are running. -/
def Unedited (running newAgents : List AgentAdapterConfig) : Prop :=
  ∀ name ∈ running.map AgentAdapterConfig.name, name ∈ newAgents.map AgentAdapterConfig.name →
    (newAgents.filter (·.name = name)).Perm (running.filter (·.name = name))

/-- A valid configuration does not edit an agent that is running. -/
def NoEdit (s : ReloadState) (file : Option (List AgentConfig)) : Prop :=
  ∀ agents, file = some agents → valid agents = true →
    Unedited s.handles (autoStartAgents agents)

/-- The valid configurations that were read. -/
def versions (files : List (Option (List AgentConfig))) : List (List AgentConfig) :=
  files.filterMap (·.filter valid)

/-- What is fed to the hasher for different configurations of a list has different hashes. -/
def NoCollision (configs : List (List AgentConfig)) : Prop :=
  ∀ first ∈ configs, ∀ second ∈ configs,
    defaultHasher (hashedValues first) = defaultHasher (hashedValues second) →
      hashedValues first = hashedValues second

end ReloadState

/-! ## The hashed values -/

theorem hashedFields_injective {first second : AgentConfig}
    (h : first.hashedFields = second.hashedFields) : first = second := by
  cases first
  cases second
  simpa [AgentConfig.hashedFields] using h

/-- Every setting of every agent is hashed. -/
theorem hashedValues_injective : Function.Injective hashedValues := by
  intro first second h
  induction first generalizing second with
  | nil =>
      cases second with
      | nil => rfl
      | cons agent rest => exact absurd h (by simp [hashedValues, AgentConfig.hashedFields])
  | cons agent rest ih =>
      cases second with
      | nil => exact absurd h (by simp [hashedValues, AgentConfig.hashedFields])
      | cons other others =>
          rw [hashedValues, List.flatMap_cons, hashedValues, List.flatMap_cons] at h
          obtain ⟨hagent, hrest⟩ := List.append_inj h rfl
          rw [hashedFields_injective hagent, ih hrest]

/-! ## One change -/

section Change

variable {handles newAgents : List AgentAdapterConfig} {agent : AgentAdapterConfig}
  {names : List String}

theorem foldl_removeAgent_cons (hnames : ∀ name ∈ names, name ≠ agent.name) :
    names.foldl removeAgent (agent :: handles) = agent :: names.foldl removeAgent handles := by
  induction names generalizing handles with
  | nil => rfl
  | cons name rest ih =>
      have hhead : removeAgent (agent :: handles) name = agent :: removeAgent handles name := by
        rw [removeAgent, List.eraseP_cons_of_neg]
        · rfl
        · simpa using Ne.symm (hnames name List.mem_cons_self)
      rw [List.foldl_cons, hhead, List.foldl_cons]
      exact ih fun other hother => hnames other (List.mem_cons_of_mem name hother)

/-- A name is removed as often as it is running. -/
theorem foldl_removeAgent (names : List String) (handles : List AgentAdapterConfig) :
    ((handles.map AgentAdapterConfig.name).filter fun name => name ∉ names).foldl removeAgent
      handles = handles.filter fun agent => agent.name ∈ names := by
  induction handles with
  | nil => rfl
  | cons agent rest ih =>
      rw [List.map_cons]
      by_cases hstays : agent.name ∈ names
      · rw [List.filter_cons_of_neg (by simpa using hstays),
          List.filter_cons_of_pos (by simpa using hstays), foldl_removeAgent_cons, ih]
        intro name hname hsame
        rw [hsame, List.mem_filter] at hname
        simp [hstays] at hname
      · rw [List.filter_cons_of_pos (by simpa using hstays),
          List.filter_cons_of_neg (by simpa using hstays), List.foldl_cons, removeAgent,
          List.eraseP_cons_of_pos (by simp)]
        exact ih

/-- Who stays keeps the settings it has, and only who is not running is added. -/
theorem applyChange_eq (handles newAgents : List AgentAdapterConfig) :
    applyChange handles newAgents =
      (handles.filter fun agent => agent.name ∈ newAgents.map AgentAdapterConfig.name) ++
        newAgents.filter fun agent => agent.name ∉ handles.map AgentAdapterConfig.name := by
  rw [applyChange, diffAgents, foldl_removeAgent]

theorem filter_applyChange {name : String}
    (hrunning : name ∈ handles.map AgentAdapterConfig.name)
    (hnew : name ∈ newAgents.map AgentAdapterConfig.name) :
    (applyChange handles newAgents).filter (·.name = name) = handles.filter (·.name = name) := by
  have hnone : (newAgents.filter fun agent =>
      agent.name ∉ handles.map AgentAdapterConfig.name).filter (·.name = name) = [] := by
    rw [List.filter_eq_nil_iff]
    intro agent hagent hname
    rw [List.mem_filter] at hagent
    rw [of_decide_eq_true hname] at hagent
    exact of_decide_eq_true hagent.2 hrunning
  have hall : (handles.filter fun agent =>
      agent.name ∈ newAgents.map AgentAdapterConfig.name).filter (·.name = name) =
      handles.filter (·.name = name) := by
    rw [List.filter_filter]
    apply List.filter_congr
    intro agent _
    by_cases hname : agent.name = name
    · simp only [hname, hnew, decide_true, Bool.and_true]
    · simp only [hname, decide_false, Bool.false_and]
  rw [applyChange_eq, List.filter_append, hall, hnone, List.append_nil]

/-- The agents of a change are running afterwards exactly if nobody who was running is edited. -/
theorem applyChange_perm_iff :
    (applyChange handles newAgents).Perm newAgents ↔
      ReloadState.Unedited handles newAgents := by
  constructor
  · intro hperm name hrunning hnew
    have hname := hperm.filter (·.name = name)
    rw [filter_applyChange hrunning hnew] at hname
    exact hname.symm
  · intro hunedited
    rw [List.perm_iff_count]
    intro agent
    by_cases hrunning : agent.name ∈ handles.map AgentAdapterConfig.name
    · by_cases hnew : agent.name ∈ newAgents.map AgentAdapterConfig.name
      · have hcount := (hunedited agent.name hrunning hnew).count_eq agent
        rw [← filter_applyChange hrunning hnew, List.count_filter (by simp),
          List.count_filter (by simp)] at hcount
        exact hcount.symm
      · have hgone : agent ∉ newAgents := fun hmem => hnew (List.mem_map_of_mem hmem)
        rw [List.count_eq_zero_of_not_mem hgone, List.count_eq_zero_of_not_mem]
        rw [applyChange_eq]
        simp only [List.mem_append, List.mem_filter, hgone, hnew]
        simp
    · have hgone : agent ∉ handles := fun hmem => hrunning (List.mem_map_of_mem hmem)
      have hstay : (handles.filter fun agent =>
          agent.name ∈ newAgents.map AgentAdapterConfig.name).count agent = 0 :=
        List.count_eq_zero_of_not_mem fun hmem => hgone (List.mem_of_mem_filter hmem)
      have hadd : (newAgents.filter fun agent =>
          agent.name ∉ handles.map AgentAdapterConfig.name).count agent = newAgents.count agent :=
        List.count_filter (by simpa using hrunning)
      rw [applyChange_eq, List.count_append, hstay, hadd, Nat.zero_add]

end Change

/-! ## Configurations read one after another -/

namespace ReloadState

variable {defaultHasher : List HashedValue → UInt64} {s : ReloadState}
  {file : Option (List AgentConfig)} {agents : List AgentConfig}

theorem resolveAgents_of_valid (hvalid : valid agents = true) :
    resolveAgents defaultHasher agents =
      .ok ⟨autoStartAgents agents, computeConfigHash defaultHasher agents⟩ := by
  rw [valid, decide_eq_true_eq] at hvalid
  rw [resolveAgents, hvalid]
  rfl

/-- A file without a valid configuration changes nothing. -/
theorem reload_of_none (hnone : file.filter valid = none) : s.reload defaultHasher file = s := by
  have hcheck : checkForChanges defaultHasher s.lastHash file = (none, s.lastHash) := by
    cases file with
    | none => rfl
    | some agents =>
        rw [Option.filter_eq_none_iff] at hnone
        have hinvalid := hnone agents rfl
        rw [valid, decide_eq_true_eq] at hinvalid
        rw [checkForChanges, resolveAgents, if_pos hinvalid]
  rw [reload, hcheck, hnone]
  rfl

theorem reload_of_same (hvalid : valid agents = true)
    (hsame : computeConfigHash defaultHasher agents = s.lastHash) :
    s.reload defaultHasher (some agents) = { s with config := agents } := by
  have hcheck : checkForChanges defaultHasher s.lastHash (some agents) = (none, s.lastHash) := by
    rw [checkForChanges, resolveAgents_of_valid hvalid]
    exact if_pos hsame
  rw [reload, hcheck, Option.filter_some_pos hvalid]
  rfl

theorem reload_of_change (hvalid : valid agents = true)
    (hchange : computeConfigHash defaultHasher agents ≠ s.lastHash) :
    s.reload defaultHasher (some agents) =
      ⟨agents, computeConfigHash defaultHasher agents,
        applyChange s.handles (autoStartAgents agents)⟩ := by
  have hcheck : checkForChanges defaultHasher s.lastHash (some agents) =
      (some ⟨autoStartAgents agents, computeConfigHash defaultHasher agents⟩,
        computeConfigHash defaultHasher agents) := by
    rw [checkForChanges, resolveAgents_of_valid hvalid]
    exact if_neg hchange
  rw [reload, hcheck, Option.filter_some_pos hvalid]
  rfl

/-- The last hash is that of the last valid configuration, which is one of the list. -/
structure Watched (defaultHasher : List HashedValue → UInt64) (configs : List (List AgentConfig))
    (s : ReloadState) : Prop where
  known : s.config ∈ configs
  lastHash : s.lastHash = computeConfigHash defaultHasher s.config
  converged : s.Converged

/-- Nobody is edited by the configuration that is running. -/
theorem Converged.unedited (h : s.Converged) : Unedited s.handles (autoStartAgents s.config) :=
  fun _ _ _ => h.symm.filter _

section Step

variable {configs : List (List AgentConfig)}

theorem Watched.eq_of_hash (hcollision : NoCollision defaultHasher configs)
    (h : Watched defaultHasher configs s) (hagents : agents ∈ configs)
    (hsame : computeConfigHash defaultHasher agents = s.lastHash) : agents = s.config := by
  apply hashedValues_injective
  exact hcollision agents hagents s.config h.known (hsame.trans h.lastHash)

/-- The step lemma: a configuration that edits nobody is what is running afterwards. -/
theorem Watched.reload (hcollision : NoCollision defaultHasher configs)
    (hfile : ∀ agents, file = some agents → valid agents = true → agents ∈ configs)
    (h : Watched defaultHasher configs s) (hedit : s.NoEdit file) :
    Watched defaultHasher configs (s.reload defaultHasher file) := by
  cases hread : file.filter valid with
  | none => rwa [reload_of_none hread]
  | some agents =>
      obtain ⟨rfl, hvalid⟩ := Option.filter_eq_some_iff.mp hread
      have hagents := hfile agents rfl hvalid
      by_cases hsame : computeConfigHash defaultHasher agents = s.lastHash
      · rw [reload_of_same hvalid hsame, h.eq_of_hash hcollision hagents hsame]
        exact h
      · rw [reload_of_change hvalid hsame]
        exact ⟨hagents, rfl, applyChange_perm_iff.mpr (hedit agents rfl hvalid)⟩

/-- Whoever is edited goes on running with the settings from before. -/
theorem Watched.not_converged (hcollision : NoCollision defaultHasher configs)
    (hfile : ∀ agents, file = some agents → valid agents = true → agents ∈ configs)
    (h : Watched defaultHasher configs s) (hedit : ¬ s.NoEdit file) :
    ¬ (s.reload defaultHasher file).Converged := by
  intro hconverged
  apply hedit
  rintro agents rfl hvalid
  by_cases hsame : computeConfigHash defaultHasher agents = s.lastHash
  · rw [h.eq_of_hash hcollision (hfile agents rfl hvalid) hsame]
    exact h.converged.unedited
  · rw [reload_of_change hvalid hsame] at hconverged
    exact applyChange_perm_iff.mp hconverged

end Step

theorem mem_versions {files : List (Option (List AgentConfig))} (hmem : some agents ∈ files)
    (hvalid : valid agents = true) : agents ∈ versions files :=
  List.mem_filterMap.mpr ⟨some agents, hmem, Option.filter_some_pos hvalid⟩

/-- After each valid configuration its agents are what is running, exactly if none of them edits
an agent that is running. -/
theorem converged_iff_noEdit (defaultHasher : List HashedValue → UInt64)
    (first : List AgentConfig) (files : List (Option (List AgentConfig)))
    (hcollision : NoCollision defaultHasher (first :: versions files)) :
    Throughout (reload defaultHasher) Converged (start defaultHasher first) files ↔
      Guarded (reload defaultHasher) NoEdit (start defaultHasher first) files := by
  have hstart : Watched defaultHasher (first :: versions files) (start defaultHasher first) :=
    ⟨List.mem_cons_self, rfl, .refl _⟩
  refine throughout_iff_guarded_on NoEdit Converged
    (A := fun file => ∀ agents, file = some agents → valid agents = true →
      agents ∈ first :: versions files)
    hstart (fun s file hfile h hedit => h.reload hcollision hfile hedit) (fun s h => h.converged)
    (fun s file hfile h hedit => h.not_converged hcollision hfile hedit) ?_
  rintro _ hmem agents rfl hvalid
  exact List.mem_cons_of_mem first (mem_versions hmem hvalid)

/-- One agent, with its provider left open. -/
def agentWith (provider : String) : AgentConfig :=
  ⟨"a", provider, none, none, [], true, none, none⟩

/-- The hashes of no agent and of one agent with either of two providers. -/
def threeHashes (values : List HashedValue) : UInt64 :=
  if values = hashedValues [] then 15130871412783076140
  else if values = hashedValues [agentWith "openai"] then 2315540022873272528
  else 18321737374562313870

theorem noCollision_two :
    NoCollision threeHashes [[agentWith "openai"], [agentWith "anthropic"]] := by
  unfold NoCollision
  decide

theorem converged_iff_noEdit_two :
    Throughout (reload threeHashes) Converged (start threeHashes [agentWith "openai"])
        [some [agentWith "anthropic"]] ↔
      Guarded (reload threeHashes) NoEdit (start threeHashes [agentWith "openai"])
        [some [agentWith "anthropic"]] := by
  apply converged_iff_noEdit
  have hversions : versions [some [agentWith "anthropic"]] = [[agentWith "anthropic"]] := by
    decide
  rw [hversions]
  exact noCollision_two

/-- Another provider for a running agent is read, and the agent keeps the one it has. -/
theorem not_converged_edited :
    ¬ Throughout (reload threeHashes) Converged (start threeHashes [agentWith "openai"])
        [some [agentWith "anthropic"]] ∧
      ((start threeHashes [agentWith "openai"]).reload threeHashes
        (some [agentWith "anthropic"])).handles = [(agentWith "openai").convertAgent] := by
  have hhandles : ((start threeHashes [agentWith "openai"]).reload threeHashes
      (some [agentWith "anthropic"])).handles = [(agentWith "openai").convertAgent] := by
    decide
  refine ⟨fun h => ?_, hhandles⟩
  have hconverged := h [some [agentWith "anthropic"]] List.prefix_rfl
  rw [Converged, List.foldl_cons, List.foldl_nil, hhandles] at hconverged
  exact absurd hconverged (by decide)

end ReloadState

end Zeptobeam
