import RedPak.Conf.ConfTags
import RedPak.Conf.Exports
import RedPak.Conf.Paths
import RedPak.Conf.Variables
import RedPak.Layered.Action

/-!
# Conf.MergedNode

The merged node (`get_merged_node`): all merges of a node, copied into one node. Memory is always
there; a copy of NULL is undefined behaviour.

* `getMergedNode_nullString`: a string that is not there is copied exactly when the headers of the
  leaf have no name or no info.
-/

namespace RedPak
namespace Conf

open Layered (Buffer)
open Layered.Action (except_bind_eq_ok except_bind_eq_error)

/-! ## Copies -/

/-- What stops a merge: a status is returned, NULL is copied, NULL is compared or an expansion has
no end. -/
inductive MergeStop where
  | returned (rc : Int)
  | nullString
  | fault
deriving DecidableEq

/-- `strdup` -/
def strdup : Option CStr → Except MergeStop CStr
  | some s => .ok s
  | none => .error .nullString

/-- `cpstrinn`: the destination, overwritten if the source is not NULL -/
def cpstrinn (dst src : Option CStr) : Option CStr := src.or dst

def copyShare (dst src : RedConfShare) : RedConfShare where
  all := cpstrinn dst.all src.all
  user := cpstrinn dst.user src.user
  cgroup := cpstrinn dst.cgroup src.cgroup
  ipc := cpstrinn dst.ipc src.ipc
  pid := cpstrinn dst.pid src.pid
  net := cpstrinn dst.net src.net
  time := cpstrinn dst.time src.time

/-- `mixconftag_cb` of `redconf-merge.c` -/
def mergeConftagCb : MixConftagCb RedConfTag := fun ctag conftag =>
  (0, { ctag with
    gpgcheck := conftag.gpgcheck
    unsafeNode := conftag.unsafeNode
    inheritenv := conftag.inheritenv
    maprootuser := conftag.maprootuser
    verbose := conftag.verbose
    diewithparent := conftag.diewithparent
    newsession := conftag.newsession
    capabilities := conftag.capabilities
    rpmdir := cpstrinn ctag.rpmdir conftag.rpmdir
    persistdir := cpstrinn ctag.persistdir conftag.persistdir
    cachedir := cpstrinn ctag.cachedir conftag.cachedir
    path := cpstrinn ctag.path conftag.path
    ldpath := cpstrinn ctag.ldpath conftag.ldpath
    hostname := cpstrinn ctag.hostname conftag.hostname
    umask := cpstrinn ctag.umask conftag.umask
    chdir := cpstrinn ctag.chdir conftag.chdir
    cgrouproot := cpstrinn ctag.cgrouproot conftag.cgrouproot
    setuser := cpstrinn ctag.setuser conftag.setuser
    setgroup := cpstrinn ctag.setgroup conftag.setgroup
    smack := cpstrinn ctag.smack conftag.smack
    share := copyShare ctag.share conftag.share })

/-- `set_env_path` and `set_env_ldpath` of `redconf-merge.c` -/
def mergePathCb : MixPathCb (Option CStr) := fun path value _ => (0, cpstrinn path (some value))

/-- `copy_cgroups`: every group and every string is copied if it is there. -/
def copyCgroups : Option RedConfCgroup → Option RedConfCgroup :=
  Option.map fun s => {
    cpuset := s.cpuset.map fun g => {
      cpus := cpstrinn none g.cpus
      mems := cpstrinn none g.mems
      cpusPartition := cpstrinn none g.cpusPartition }
    mem := s.mem.map fun g => {
      max := cpstrinn none g.max
      high := cpstrinn none g.high
      min := cpstrinn none g.min
      low := cpstrinn none g.low
      oomGroup := cpstrinn none g.oomGroup
      swapHigh := cpstrinn none g.swapHigh
      swapMax := cpstrinn none g.swapMax }
    cpu := s.cpu.map fun g => {
      weight := cpstrinn none g.weight
      max := cpstrinn none g.max
      weightNice := cpstrinn none g.weightNice }
    io := s.io.map fun g => {
      costQos := cpstrinn none g.costQos
      costModel := cpstrinn none g.costModel
      weight := cpstrinn none g.weight
      max := cpstrinn none g.max }
    pids := s.pids.map fun g => { max := cpstrinn none g.max } }

@[simp] theorem cpstrinn_none (src : Option CStr) : cpstrinn none src = src := by
  cases src <;> rfl

theorem copyCgroups_eq (cgroups : Option RedConfCgroup) : copyCgroups cgroups = cgroups := by
  simp only [copyCgroups, cpstrinn_none]
  simp

/-! ## The merge -/

/-- What follows a merge: `if (rc) goto error;`. -/
def afterMerge {α : Type*} : Option (Int × α) → Except MergeStop α
  | none => .error .fault
  | some (rc, value) => if rc ≠ 0 then .error (.returned rc) else .ok value

def afterMergePaths {α : Type*} : PathsOutcome α → Except MergeStop α
  | .ret rc value => afterMerge (some (rc, value))
  | .endless => .error .fault
  | .fault => .error .fault

theorem afterMerge_ok {α : Type*} {out : Option (Int × α)} {value : α} :
    afterMerge out = .ok value ↔ out = some (0, value) := by
  unfold afterMerge
  cases out with
  | none => simp
  | some p =>
    obtain ⟨rc, v⟩ := p
    by_cases hrc : rc = 0 <;> simp [hrc]

theorem afterMergePaths_ok {α : Type*} {out : PathsOutcome α} {value : α} :
    afterMergePaths out = .ok value ↔ out = .ret 0 value := by
  cases out with
  | ret rc v => simp [afterMergePaths, afterMerge_ok]
  | endless => simp [afterMergePaths]
  | fault => simp [afterMergePaths]

theorem afterMerge_nullString {α : Type*} (out : Option (Int × α)) :
    afterMerge out ≠ .error .nullString := by
  unfold afterMerge
  split
  · simp
  · split <;> simp

theorem afterMergePaths_nullString {α : Type*} (out : PathsOutcome α) :
    afterMergePaths out ≠ .error .nullString := by
  cases out with
  | ret rc value => exact afterMerge_nullString (some (rc, value))
  | endless => simp [afterMergePaths]
  | fault => simp [afterMergePaths]

section

variable (expand : ExpandCtx → CStr → Option CStr) (env : RedEnv) (depth : Nat)

/-- The headers that the merged node gets. -/
def mergedHeaders (headers : RedConfHeader) : Except MergeStop RedConfHeader := do
  let name ← strdup headers.name
  let info ← strdup headers.info
  pure ⟨headers.nodeAlias, name, info⟩

/-- The config that the merged node gets. The buffers are what lies on the stack where `mixPaths`
has its array. -/
def mergedConfig (pathBuffer ldpathBuffer : Buffer UInt8) (leaf : Family) (config : RedConfig) :
    Except MergeStop RedConfig := do
  let headers ← mergedHeaders config.headers
  let ctag ← afterMerge (mixConfTags expand leaf mergeConftagCb {}).result
  let exports ← afterMerge (mixExports expand leaf mergeExpCb []).result
  let confvar ← afterMerge (mixVariables leaf mergeVarCb []).result
  let path ← afterMergePaths
    (mixPaths env depth leaf (fun _ config => config.conftag.path) mergePathCb ctag.path pathBuffer)
  let ldpath ← afterMergePaths
    (mixPaths env depth leaf (fun _ config => config.conftag.ldpath) mergePathCb ctag.ldpath
      ldpathBuffer)
  pure {
    headers := headers
    conftag := { ctag with
      path := path
      ldpath := ldpath
      cgroups := copyCgroups config.conftag.cgroups }
    confvar := confvar
    exports := exports }

/-- `get_merged_node`; the leaf has a config, whose headers are read first. -/
def getMergedNode (pathBuffer ldpathBuffer : Buffer UInt8) (leaf : Family) :
    Except MergeStop RedNode :=
  match leaf.node.config with
  | none => .error .fault
  | some config => do
    let merged ← mergedConfig expand env depth pathBuffer ldpathBuffer leaf config
    pure { config := some merged, redpath := leaf.node.redpath }

/-! ## Absent strings -/

theorem mergedHeaders_nullString (headers : RedConfHeader) :
    mergedHeaders headers = .error .nullString ↔ headers.name = none ∨ headers.info = none := by
  obtain ⟨nodeAlias, name, info⟩ := headers
  cases name with
  | none => simp [mergedHeaders, strdup, bind, Except.bind]
  | some name => cases info <;> simp [mergedHeaders, strdup, bind, Except.bind, pure, Except.pure]

/-- **Absent strings.** The merge copies a string that is not there exactly when it copies the
headers of a leaf without a name or without an info. -/
theorem getMergedNode_nullString {pathBuffer ldpathBuffer : Buffer UInt8} {leaf : Family}
    {config : RedConfig} (hconf : leaf.node.config = some config) :
    getMergedNode expand env depth pathBuffer ldpathBuffer leaf = .error .nullString ↔
      config.headers.name = none ∨ config.headers.info = none := by
  rw [getMergedNode, hconf, ← mergedHeaders_nullString]
  constructor
  · intro h
    rcases except_bind_eq_error.mp h with h | ⟨_, -, h⟩
    · simp only [mergedConfig, except_bind_eq_error, afterMerge_nullString,
        afterMergePaths_nullString, false_or] at h
      rcases h with h | ⟨_, -, _, -, _, -, _, -, _, -, _, -, h⟩
      · exact h
      · cases h
    · cases h
  · intro h
    exact except_bind_eq_error.mpr (.inl (except_bind_eq_error.mpr (.inl h)))

end

end Conf
end RedPak
