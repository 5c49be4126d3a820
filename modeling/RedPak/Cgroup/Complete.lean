import RedPak.Cgroup.Enabled
import RedPak.Cgroup.Naming

/-!
# Cgroup.Complete

Which settings reach the cgroup of a node. The schema has eighteen of them, of which
`set_cgroup_node_conf` writes thirteen.

* `getNode_member`: the admin config comes first, setting by setting.
* `prepareCgroups_writes`: the settings that a run writes, node by node.
* `settings_complete_iff`: the settings of a node are complete when it sets none of the other five.
-/

namespace RedPak
namespace Cgroup

open Conf Layered Layered.Action

/-! ## The schema -/

/-- A setting of `CgroupsSchema`. -/
inductive Setting where
  | cpusetCpus
  | cpusetMems
  | cpusetCpusPartition
  | cpuWeight
  | cpuWeightNice
  | cpuMax
  | memMax
  | memHigh
  | memMin
  | memLow
  | memOomGroup
  | memSwapHigh
  | memSwapMax
  | ioCostQos
  | ioCostModel
  | ioWeight
  | ioMax
  | pidsMax
deriving DecidableEq

namespace Setting

def controller : Setting → Ctrlid
  | cpusetCpus | cpusetMems | cpusetCpusPartition => .cpuset
  | cpuWeight | cpuWeightNice | cpuMax => .cpu
  | memMax | memHigh | memMin | memLow | memOomGroup | memSwapHigh | memSwapMax => .memory
  | ioCostQos | ioCostModel | ioWeight | ioMax => .io
  | pidsMax => .pids

def file : Setting → CStr
  | cpusetCpus => .lit "cpus"
  | cpusetMems => .lit "mems"
  | cpusetCpusPartition => .lit "cpus.partition"
  | cpuWeight => .lit "weight"
  | cpuWeightNice => .lit "weight.nice"
  | cpuMax => .lit "max"
  | memMax => .lit "max"
  | memHigh => .lit "high"
  | memMin => .lit "min"
  | memLow => .lit "low"
  | memOomGroup => .lit "oom.group"
  | memSwapHigh => .lit "swap.high"
  | memSwapMax => .lit "swap.max"
  | ioCostQos => .lit "cost.qos"
  | ioCostModel => .lit "cost.model"
  | ioWeight => .lit "weight"
  | ioMax => .lit "max"
  | pidsMax => .lit "max"

def get (cgroups : RedConfCgroup) : Setting → Option CStr
  | cpusetCpus => cgroups.cpuset.bind (·.cpus)
  | cpusetMems => cgroups.cpuset.bind (·.mems)
  | cpusetCpusPartition => cgroups.cpuset.bind (·.cpusPartition)
  | cpuWeight => cgroups.cpu.bind (·.weight)
  | cpuWeightNice => cgroups.cpu.bind (·.weightNice)
  | cpuMax => cgroups.cpu.bind (·.max)
  | memMax => cgroups.mem.bind (·.max)
  | memHigh => cgroups.mem.bind (·.high)
  | memMin => cgroups.mem.bind (·.min)
  | memLow => cgroups.mem.bind (·.low)
  | memOomGroup => cgroups.mem.bind (·.oomGroup)
  | memSwapHigh => cgroups.mem.bind (·.swapHigh)
  | memSwapMax => cgroups.mem.bind (·.swapMax)
  | ioCostQos => cgroups.io.bind (·.costQos)
  | ioCostModel => cgroups.io.bind (·.costModel)
  | ioWeight => cgroups.io.bind (·.weight)
  | ioMax => cgroups.io.bind (·.max)
  | pidsMax => cgroups.pids.bind (·.max)

def schema : List Setting :=
  [cpusetCpus, cpusetMems, cpusetCpusPartition, cpuWeight, cpuWeightNice, cpuMax, memMax,
    memHigh, memMin, memLow, memOomGroup, memSwapHigh, memSwapMax, ioCostQos, ioCostModel,
    ioWeight, ioMax, pidsMax]

/-- In the order of the writes. -/
def written : List Setting :=
  [cpusetCpus, cpusetMems, cpusetCpusPartition, cpuWeight, cpuMax, memMin, memMax, memHigh,
    memSwapMax, memSwapHigh, ioMax, ioWeight, pidsMax]

def unwritten : List Setting := [cpuWeightNice, memLow, memOomGroup, ioCostQos, ioCostModel]

theorem schema_perm : schema.Perm (written ++ unwritten) := by decide

/-- The value of the admin config, if it has one. -/
def merged (n : RedNode) (s : Setting) : Option CStr :=
  ((adminCgroups n).bind s.get).or ((configCgroups n).bind s.get)

end Setting

structure SettingWrite where
  controller : Ctrlid
  file : CStr
  value : CStr
deriving DecidableEq

def Setting.write (n : RedNode) (s : Setting) : Option SettingWrite :=
  (s.merged n).map fun value => ⟨s.controller, s.file, value⟩

/-- What the configs of a node ask for. -/
def configured (n : RedNode) : List SettingWrite := Setting.schema.filterMap (Setting.write n)

/-- What of this is written. -/
def writes (n : RedNode) : List SettingWrite := Setting.written.filterMap (Setting.write n)

/-! ## Merged values -/

variable {n : RedNode}

/-- **One member** of a group that is merged. -/
theorem getNode_member {α : Type} {getConf : α → Option α → α} {zero : α}
    {group : RedConfCgroup → Option α} (member : α → Option CStr) (hzero : member zero = none)
    (hnone : ∀ dest, getConf dest none = dest)
    (hsome : ∀ dest src, member (getConf dest (some src)) = (member src).or (member dest)) :
    member (getNode getConf zero group n) =
      ((adminCgroups n).bind fun g => (group g).bind member).or
        ((configCgroups n).bind fun g => (group g).bind member) := by
  have hconf : ∀ dest src, member (getConf dest src) = (src.bind member).or (member dest) := by
    intro dest src
    cases src with
    | none => rw [hnone]; rfl
    | some src => exact hsome dest src
  unfold getNode
  cases configCgroups n with
  | none =>
    cases adminCgroups n with
    | none => exact hzero
    | some admin => simp [hconf, hzero]
  | some config =>
    cases adminCgroups n with
    | none => simp [hconf, hzero]
    | some admin => simp [hconf, hzero]

theorem nodeConfEntries_eq (n : RedNode) :
    nodeConfEntries n = Setting.written.map fun s => (s.controller, s.file, s.merged n) := by
  have hcpuset := @getNode_member n _ getConfCpuset {} (·.cpuset)
  have hcpu := @getNode_member n _ getConfCpu {} (·.cpu)
  have hmem := @getNode_member n _ getConfMem {} (·.mem)
  have hio := @getNode_member n _ getConfIo {} (·.io)
  have hpids := @getNode_member n _ getConfPids {} (·.pids)
  rw [nodeConfEntries, getNodeCpuset, getNodeCpu, getNodeMem, getNodeIo, getNodePids]
  rw [hcpuset (·.cpus) rfl (fun _ => rfl) (fun _ _ => rfl),
    hcpuset (·.mems) rfl (fun _ => rfl) (fun _ _ => rfl),
    hcpuset (·.cpusPartition) rfl (fun _ => rfl) (fun _ _ => rfl),
    hcpu (·.weight) rfl (fun _ => rfl) (fun _ _ => rfl),
    hcpu (·.max) rfl (fun _ => rfl) (fun _ _ => rfl),
    hmem (·.min) rfl (fun _ => rfl) (fun _ _ => rfl),
    hmem (·.max) rfl (fun _ => rfl) (fun _ _ => rfl),
    hmem (·.high) rfl (fun _ => rfl) (fun _ _ => rfl),
    hmem (·.swapMax) rfl (fun _ => rfl) (fun _ _ => rfl),
    hmem (·.swapHigh) rfl (fun _ => rfl) (fun _ _ => rfl),
    hio (·.max) rfl (fun _ => rfl) (fun _ _ => rfl),
    hio (·.weight) rfl (fun _ => rfl) (fun _ _ => rfl),
    hpids (·.max) rfl (fun _ => rfl) (fun _ _ => rfl)]
  rfl

/-! ## Complete settings -/

def Setting.Set (n : RedNode) (s : Setting) : Prop :=
  (configCgroups n).bind s.get ≠ none ∨ (adminCgroups n).bind s.get ≠ none

theorem Setting.merged_eq_none {s : Setting} : s.merged n = none ↔ ¬ s.Set n := by
  rw [merged, Option.or_eq_none_iff, Set, not_or, not_not, not_not, and_comm]

/-- The settings in a cgroup are those that the configs of its node ask for. -/
def SettingsComplete (n : RedNode) (ws : List SettingWrite) : Prop := ws.Perm (configured n)

/-- **The settings of a node are complete** exactly when it sets none of those that are not written.
-/
theorem writes_complete_iff (n : RedNode) :
    SettingsComplete n (writes n) ↔ ∀ s ∈ Setting.unwritten, ¬ s.Set n := by
  have hschema : (configured n).Perm
      (writes n ++ Setting.unwritten.filterMap (Setting.write n)) := by
    have hperm := Setting.schema_perm.filterMap (Setting.write n)
    rwa [List.filterMap_append] at hperm
  have hnone : Setting.unwritten.filterMap (Setting.write n) = [] ↔
      ∀ s ∈ Setting.unwritten, ¬ s.Set n := by
    simp [List.filterMap_eq_nil_iff, Setting.write, ← Setting.merged_eq_none]
  rw [← hnone]
  constructor
  · intro h
    have hlen := (h.trans hschema).length_eq
    rw [List.length_append] at hlen
    exact List.eq_nil_of_length_eq_zero (by omega)
  · intro h
    rw [h, List.append_nil] at hschema
    exact hschema.symm

/-! ## The settings in the calls -/

/-- The settings that were written, with their cgroups, the last one first. -/
def settingsWritten (calls : List (Tree × Call)) : List (Dir × SettingWrite) :=
  calls.filterMap fun
    | (_, .write dir (.setting controller file) value) => some (dir, ⟨controller, file, value⟩)
    | _ => none

def settingsIn (d : Dir) (ws : List SettingWrite) : List (Dir × SettingWrite) :=
  ws.reverse.map fun x => (d, x)

variable {k : Kernel} {p : Process} {w : World} {d : Dir}

theorem settingsWritten_cons {c : Call} (h : c.NoSetting) (t : Tree) (calls : List (Tree × Call)) :
    settingsWritten ((t, c) :: calls) = settingsWritten calls := by
  cases c with
  | write dir entry value =>
    cases entry with
    | setting ctrl file => exact absurd rfl (h dir ctrl file value)
    | _ => rfl
  | _ => rfl

theorem stable_settingsWritten (k : Kernel) (ws : List (Dir × SettingWrite)) :
    k.Stable Call.NoSetting fun w => settingsWritten w.calls = ws := by
  rintro w c t hc hw _
  rw [settingsWritten_cons hc]
  exact hw

theorem writeEntries_writes {entries : List (Ctrlid × CStr × Option CStr)}
    {Q : Int → World → Prop} {E : Stop → World → Prop}
    (h : ∀ nerr w', settingsWritten w'.calls = settingsIn d (entries.filterMap fun e =>
      e.2.2.map fun value => ⟨e.1, e.2.1, value⟩) ++ settingsWritten w.calls → Q nerr w') :
    wp (writeEntries k d entries) Q E w := by
  induction entries generalizing w Q with
  | nil => exact h 0 w rfl
  | cons entry entries ih =>
    obtain ⟨c, file, value⟩ := entry
    rw [writeEntries, wp_bind]
    cases value with
    | none =>
      rw [Kernel.writeEntry, wp_pure, wp_bind]
      exact ih fun nerr w' hw' => h _ w' hw'
    | some v =>
      have hrest : ∀ (rc : Int) t, wp (do let nerr ← writeEntries k d entries; pure (rc + nerr))
          Q E ⟨t, (w.tree, .write d (.setting c file) v) :: w.calls⟩ := by
        intro rc t
        rw [wp_bind]
        refine ih fun nerr w' hw' => h _ w' ?_
        rw [hw']
        simp [settingsIn, settingsWritten]
      exact wp_writeEntry (fun t _ _ => hrest 0 t) (hrest (-1) w.tree)

theorem setCgroupNodeConf_writes {Q : Int → World → Prop} {E : Stop → World → Prop}
    (h : ∀ nerr w', settingsWritten w'.calls = settingsIn d (writes n) ++ settingsWritten w.calls →
      Q nerr w') : wp (setCgroupNodeConf k n d) Q E w := by
  refine writeEntries_writes fun nerr w' hw' => h nerr w' ?_
  rw [hw', nodeConfEntries_eq, List.filterMap_map]
  rfl

/-! ## The nodes of a run -/

/-- The settings that were written since a state are those of some nodes from the root down. -/
structure WrittenFor (k : Kernel) (p : Process) (w : World) (above : List RedNode)
    (root : Option Dir) (reached : List (RedNode × Dir)) (w' : World) : Prop where
  nodes : reached.map (·.1) <:+ above
  descends : Descends k p root reached
  calls : settingsWritten w'.calls =
    reached.flatMap (fun x => settingsIn x.2 (writes x.1)) ++ settingsWritten w.calls

theorem keeps_prepareRoot {I : World → Prop} {state : CgroupT} {mask : Ctrlmask}
    (hI : k.Stable Call.NoSetting I) : Keeps I (prepareRootCgroup k p state mask) := by
  refine .ite (fun _ => keeps_pure _) fun _ => ?_
  refine (keeps_makeRootPath hI Call.noSetting_readSelf).bind fun state₁ => ?_
  refine keeps_get.bind fun w => ?_
  split
  · exact keeps_throw _
  split
  · exact keeps_throw _
  rename_i dirfd _
  refine (keeps_openCgroupAtDir hI fun _ d n _ _ => Call.noSetting_mkdirat d n).bind fun x => ?_
  refine (keeps_moveProcs hI (Call.noSetting_read _ _) fun v => Call.noSetting_procs _ v).bind
    fun _ => ?_
  exact (keeps_ensure hI (fun up _ => Call.noSetting_read up _)
    fun up v _ => Call.noSetting_subtreeControl up v).bind fun _ => keeps_pure _

theorem prepareMiddle_writes {state : CgroupT} {mask : Ctrlmask} (hfinal : state.final ≠ 0) :
    wp (prepareMiddleCgroup k p state n mask)
      (fun state' w' => ∃ prev d, state.dirfd = some prev ∧ Opens k p n prev d ∧
        state'.dirfd = some d ∧
        settingsWritten w'.calls = settingsIn d (writes n) ++ settingsWritten w.calls)
      (fun _ w' => settingsWritten w'.calls = settingsWritten w.calls ∨
        ∃ prev d, state.dirfd = some prev ∧ Opens k p n prev d ∧
          settingsWritten w'.calls = settingsIn d (writes n) ++ settingsWritten w.calls) w := by
  have hstable := stable_settingsWritten k (settingsWritten w.calls)
  rw [prepareMiddleCgroup, if_neg hfinal]
  dsimp only
  split
  · rename_i len path prev htranslated hdirfd
    split
    · exact .inl rfl
    rename_i name hstring
    rw [wp_bind]
    refine wp_mono ((keeps_openCgroupAtDir hstable fun _ e n _ _ =>
      Call.noSetting_mkdirat e n).also rfl openCgroupAtDir_spec) ?_ (fun _ _ h => .inl h)
    rintro ⟨d, created⟩ w₁ ⟨hw₁, _, hopened⟩
    have hopens : Opens k p n prev d := ⟨_, _, _, _, _, _, htranslated, hstring, hopened⟩
    rw [wp_bind]
    refine wp_mono (keeps_mkdirat hstable (fun _ e n _ _ => Call.noSetting_mkdirat e n) w₁ hw₁) ?_
      (fun _ _ h => .inl h)
    intro _ w₂ hw₂
    rw [wp_bind]
    refine setCgroupNodeConf_writes fun nerr w₃ hw₃ => ?_
    rw [hw₂] at hw₃
    have hdone : ∃ prev d, state.dirfd = some prev ∧ Opens k p n prev d ∧
        settingsWritten w₃.calls = settingsIn d (writes n) ++ settingsWritten w.calls :=
      ⟨prev, d, hdirfd, hopens, hw₃⟩
    rw [wp_bind]
    refine wp_check (fun _ => ?_) (.inr hdone)
    rw [wp_bind]
    refine wp_mono (keeps_ensure (stable_settingsWritten k _) (fun up _ => Call.noSetting_read up _)
      (fun up v _ => Call.noSetting_subtreeControl up v) w₃ hw₃) ?_
      (fun _ _ h => .inr ⟨prev, d, hdirfd, hopens, h⟩)
    intro _ w₄ hw₄
    exact ⟨prev, d, hdirfd, hopens, rfl, hw₄⟩
  · exact .inl rfl

theorem WrittenFor.refl (above : List RedNode) (root : Option Dir) {w' : World}
    (h : settingsWritten w'.calls = settingsWritten w.calls) :
    WrittenFor k p w above root [] w' :=
  ⟨List.nil_suffix, trivial, h⟩

theorem WrittenFor.cons {above : List RedNode} {root : Option Dir} {reached : List (RedNode × Dir)}
    {w₁ w' : World} {prev : Dir} (h : WrittenFor k p w above root reached w₁)
    (hall : reached.map (·.1) = above) (hprev : lastOpened root reached = some prev)
    (hopens : Opens k p n prev d)
    (hcalls : settingsWritten w'.calls = settingsIn d (writes n) ++ settingsWritten w₁.calls) :
    WrittenFor k p w (n :: above) root ((n, d) :: reached) w' := by
  refine ⟨?_, ⟨⟨prev, hprev, hopens⟩, h.descends⟩, ?_⟩
  · rw [List.map_cons, hall]
  · rw [hcalls, h.calls, List.flatMap_cons, List.append_assoc]

theorem WrittenFor.weaken {above : List RedNode} {root : Option Dir}
    {reached : List (RedNode × Dir)} {w₁ w' : World} (h : WrittenFor k p w above root reached w₁)
    (hcalls : settingsWritten w'.calls = settingsWritten w₁.calls) :
    WrittenFor k p w (n :: above) root reached w' :=
  ⟨h.nodes.trans (List.suffix_cons n above), h.descends, hcalls.trans h.calls⟩

/-- **The settings of a run**, node by node: all nodes are reached in a run that goes on. -/
theorem prepareCgroups_writes {start : CgroupT} {mask : Ctrlmask} {above : List RedNode} :
    wp (prepareCgroups k p start mask above)
      (fun state w' => ∃ root reached, WrittenFor k p w above root reached w' ∧
        (state.final = 0 ∨ reached.map (·.1) = above ∧ state.dirfd = lastOpened root reached))
      (fun _ w' => ∃ root reached, WrittenFor k p w above root reached w') w := by
  induction above generalizing mask with
  | nil =>
    refine wp_mono (keeps_prepareRoot (stable_settingsWritten k _) w rfl) (fun state w' h => ?_)
      (fun _ w' h => ⟨none, [], .refl _ _ h⟩)
    exact ⟨state.dirfd, [], .refl _ _ h, .inr ⟨rfl, rfl⟩⟩
  | cons n above ih =>
    rw [prepareCgroups]
    split
    · exact ⟨none, [], .refl _ _ rfl⟩
    rw [wp_bind]
    refine wp_mono ih ?_ ?_
    · rintro state w₁ ⟨root, reached, hwritten, hstate⟩
      by_cases hfinal : state.final = 0
      · rw [prepareMiddleCgroup, if_pos hfinal]
        exact ⟨root, reached, hwritten.weaken rfl, .inl hfinal⟩
      obtain ⟨hall, hdirfd⟩ := hstate.resolve_left hfinal
      refine wp_mono (prepareMiddle_writes hfinal) ?_ ?_
      · rintro state' w' ⟨prev, d, hprev, hopens, hnext, hcalls⟩
        exact ⟨root, (n, d) :: reached,
          hwritten.cons hall (hdirfd.symm.trans hprev) hopens hcalls, .inr ⟨by simp [hall], hnext⟩⟩
      · rintro _ w' (hcalls | ⟨prev, d, hprev, hopens, hcalls⟩)
        · exact ⟨root, reached, hwritten.weaken hcalls⟩
        · exact ⟨root, (n, d) :: reached,
            hwritten.cons hall (hdirfd.symm.trans hprev) hopens hcalls⟩
    · rintro _ w' ⟨root, reached, hwritten⟩
      exact ⟨root, reached, hwritten.weaken rfl⟩

/-! ## A run -/

/-- **The settings of a chain.** What a run writes are the settings of its nodes, each in the cgroup
of the node, and of all nodes when the run ends well with controllers to be enabled. They are those
that the configs of the node ask for exactly when these set none of `Setting.unwritten`. -/
theorem settings_complete_iff (k : Kernel) (p : Process) (node : Family)
    (rootpath : Option CStr) (w : World) :
    (∃ root reached,
      WrittenFor k p w (node.node :: node.parents) root reached
        (after (setCgroups k p node rootpath) w) ∧
      ∀ state w', setCgroups k p node rootpath w = .ok state w' →
        maskOf (node.node :: node.parents) ≠ 0 →
        reached.map (·.1) = node.node :: node.parents) ∧
    ∀ n, SettingsComplete n (writes n) ↔ ∀ s ∈ Setting.unwritten, ¬ s.Set n := by
  refine ⟨?_, writes_complete_iff⟩
  have hrun : wp (setCgroups k p node rootpath)
      (fun _ w' => ∃ root reached,
        WrittenFor k p w (node.node :: node.parents) root reached w' ∧
          (maskOf (node.node :: node.parents) ≠ 0 →
            reached.map (·.1) = node.node :: node.parents))
      (fun _ w' => ∃ root reached,
        WrittenFor k p w (node.node :: node.parents) root reached w') w := by
    rw [setCgroups, wp_bind]
    refine wp_mono (wp_run prepareCgroups_writes) ?_ (fun _ _ h => h)
    rintro state w₁ ⟨hprepared, root, reached, hwritten, hstate⟩
    have hfinal : state.final = maskOf (node.node :: node.parents) :=
      prepareCgroups_final (show prepareCgroups k p _ (maskOf []) _ w = _ from hprepared)
    have henter : Keeps _ (enterLeafCgroup k p state) :=
      keeps_enterLeaf (stable_settingsWritten k (settingsWritten w₁.calls)) Call.noSetting_procs
    rw [wp_bind]
    refine wp_mono (henter w₁ rfl) (fun _ w' hw' => ?_) (fun _ w' hw' => ?_)
    · refine ⟨root, reached, ⟨hwritten.nodes, hwritten.descends, hw'.trans hwritten.calls⟩, ?_⟩
      intro hmask
      exact (hstate.resolve_left (by rw [hfinal]; exact hmask)).1
    · exact ⟨root, reached, hwritten.nodes, hwritten.descends, hw'.trans hwritten.calls⟩
  unfold wp at hrun
  unfold after
  cases hresult : setCgroups k p node rootpath w with
  | ok state w' =>
    rw [hresult] at hrun
    obtain ⟨root, reached, hwritten, hall⟩ := hrun
    exact ⟨root, reached, hwritten, fun _ _ _ hmask => hall hmask⟩
  | error e w' =>
    rw [hresult] at hrun
    obtain ⟨root, reached, hwritten⟩ := hrun
    exact ⟨root, reached, hwritten, fun _ _ h => (by cases h)⟩

def lowFamily : Family where
  node := {
    config := some {
      headers := { nodeAlias := .lit "app" }
      conftag := { cgroups := some { mem := some { low := some (.lit "64M") } } } }
    redpath := .lit "/rednode/app" }
  parents := []

/-- The run ends well, with nothing written of what is configured. -/
theorem memoryLow_unwritten : ∃ state w',
    setCgroups sysKernel sysProcess lowFamily none sysWorld = .ok state w' ∧ state.final ≠ 0 ∧
      settingsWritten w'.calls = [] ∧
      configured lowFamily.node = [⟨.memory, .lit "low", .lit "64M"⟩] := by
  have hends : endsIn (setCgroups sysKernel sysProcess lowFamily none) sysWorld
      (fun state w' => decide (state.final ≠ 0) && decide (settingsWritten w'.calls = [])) =
        true := by decide +kernel
  obtain ⟨state, w', hrun, htest⟩ := of_endsIn hends
  rw [Bool.and_eq_true, decide_eq_true_eq, decide_eq_true_eq] at htest
  exact ⟨state, w', hrun, htest.1, htest.2, by decide +kernel⟩

end Cgroup
end RedPak
