import RedPak.Cgroup.Controllers
import RedPak.Conf.Schema

/-!
# Cgroup.Settings

The settings of a node: which controllers they need (`get_expected_controllers`), how the normal and
the admin config are put together and what is written (`set_cgroup_node_conf`).

* `nodeConfEntries_required`: a setting that is written is one of a controller that the node needs.
* `setCgroupNodeConf_calls`: the calls that the settings lead to.
-/

namespace RedPak
namespace Cgroup

open Conf Layered Layered.Action

/-- `get_expected_controllers` -/
def getExpectedControllers : Option RedConfCgroup → Ctrlmask
  | none => 0
  | some cgroups =>
    (if cgroups.cpuset.isSome then Ctrlid.cpuset.bit else 0) |||
    (if cgroups.cpu.isSome then Ctrlid.cpu.bit else 0) |||
    (if cgroups.mem.isSome then Ctrlid.memory.bit else 0) |||
    (if cgroups.io.isSome then Ctrlid.io.bit else 0) |||
    (if cgroups.pids.isSome then Ctrlid.pids.bit else 0)

def configCgroups (n : RedNode) : Option RedConfCgroup := n.config.bind (·.conftag.cgroups)

def adminCgroups (n : RedNode) : Option RedConfCgroup := n.confadmin.bind (·.conftag.cgroups)

/-! ## Merged values -/

def getConfCpuset (dest : RedCpuset) : Option RedCpuset → RedCpuset
  | none => dest
  | some src => {
      cpus := src.cpus.or dest.cpus
      mems := src.mems.or dest.mems
      cpusPartition := src.cpusPartition.or dest.cpusPartition }

def getConfCpu (dest : RedCpu) : Option RedCpu → RedCpu
  | none => dest
  | some src => {
      weight := src.weight.or dest.weight
      max := src.max.or dest.max
      weightNice := src.weightNice.or dest.weightNice }

def getConfMem (dest : RedMem) : Option RedMem → RedMem
  | none => dest
  | some src => {
      max := src.max.or dest.max
      high := src.high.or dest.high
      min := src.min.or dest.min
      low := src.low.or dest.low
      oomGroup := src.oomGroup.or dest.oomGroup
      swapHigh := src.swapHigh.or dest.swapHigh
      swapMax := src.swapMax.or dest.swapMax }

def getConfIo (dest : RedIo) : Option RedIo → RedIo
  | none => dest
  | some src => {
      costQos := src.costQos.or dest.costQos
      costModel := src.costModel.or dest.costModel
      weight := src.weight.or dest.weight
      max := src.max.or dest.max }

def getConfPids (dest : RedPids) : Option RedPids → RedPids
  | none => dest
  | some src => { max := src.max.or dest.max }

/-- The common part of `get_node_cpuset` and its siblings. -/
def getNode {α : Type} (getConf : α → Option α → α) (zero : α) (group : RedConfCgroup → Option α)
    (n : RedNode) : α :=
  let dest := match configCgroups n with
    | none => zero
    | some cgroups => getConf zero (group cgroups)
  match adminCgroups n with
  | none => dest
  | some cgroups => getConf dest (group cgroups)

def getNodeCpuset : RedNode → RedCpuset := getNode getConfCpuset {} (·.cpuset)
def getNodeCpu : RedNode → RedCpu := getNode getConfCpu {} (·.cpu)
def getNodeMem : RedNode → RedMem := getNode getConfMem {} (·.mem)
def getNodeIo : RedNode → RedIo := getNode getConfIo {} (·.io)
def getNodePids : RedNode → RedPids := getNode getConfPids {} (·.pids)

/-! ## Writing -/

/-- The writes of `set_cgroup_node_conf`. -/
def nodeConfEntries (n : RedNode) : List (Ctrlid × CStr × Option CStr) :=
  let cpuset := getNodeCpuset n
  let cpu := getNodeCpu n
  let mem := getNodeMem n
  let io := getNodeIo n
  let pids := getNodePids n
  [(.cpuset, .lit "cpus", cpuset.cpus),
    (.cpuset, .lit "mems", cpuset.mems),
    (.cpuset, .lit "cpus.partition", cpuset.cpusPartition),
    (.cpu, .lit "weight", cpu.weight),
    (.cpu, .lit "max", cpu.max),
    (.memory, .lit "min", mem.min),
    (.memory, .lit "max", mem.max),
    (.memory, .lit "high", mem.high),
    (.memory, .lit "swap.max", mem.swapMax),
    (.memory, .lit "swap.high", mem.swapHigh),
    (.io, .lit "max", io.max),
    (.io, .lit "weight", io.weight),
    (.pids, .lit "max", pids.max)]

variable (k : Kernel)

/-- The writes are all tried. The result counts those that failed. -/
def writeEntries (gfd : Dir) : List (Ctrlid × CStr × Option CStr) → Sys Int
  | [] => pure 0
  | (c, file, value) :: entries => do
    let rc ← k.writeEntry gfd (.setting c file) value
    let nerr ← writeEntries gfd entries
    pure (rc + nerr)

def setCgroupNodeConf (n : RedNode) (gfd : Dir) : Sys Int :=
  writeEntries k gfd (nodeConfEntries n)

/-! ## Needed controllers -/

variable {k : Kernel} {w : World}

/-- What a node adds to the mask of its parents. -/
def requiredBy (n : RedNode) : Ctrlmask :=
  getExpectedControllers (configCgroups n) ||| getExpectedControllers (adminCgroups n)

/-- A group without settings in both configs leaves the merged values at zero. -/
theorem getNode_eq_zero {α : Type} {getConf : α → Option α → α} {zero : α}
    {group : RedConfCgroup → Option α} {n : RedNode} (hconf : ∀ dest, getConf dest none = dest)
    (hconfig : ∀ cgroups, configCgroups n = some cgroups → group cgroups = none)
    (hadmin : ∀ cgroups, adminCgroups n = some cgroups → group cgroups = none) :
    getNode getConf zero group n = zero := by
  unfold getNode
  cases hc : configCgroups n with
  | none =>
    cases ha : adminCgroups n with
    | none => rfl
    | some cgroups => simp [hadmin cgroups ha, hconf]
  | some cgroups =>
    cases ha : adminCgroups n with
    | none => simp [hconfig cgroups hc, hconf]
    | some cgroups' => simp [hconfig cgroups hc, hadmin cgroups' ha, hconf]

/-- The group of settings of a controller is there. -/
def hasGroup (cgroups : RedConfCgroup) : Ctrlid → Bool
  | .cpuset => cgroups.cpuset.isSome
  | .cpu => cgroups.cpu.isSome
  | .memory => cgroups.mem.isSome
  | .io => cgroups.io.isSome
  | .pids => cgroups.pids.isSome
  | _ => false

theorem has_ite (b : Bool) (a c : Ctrlid) :
    Ctrlmask.has (if b then a.bit else 0) c = (b && decide (a = c)) := by
  cases b with
  | true => simp [has_bit]
  | false => exact has_zero c

theorem has_expected (cgroups : RedConfCgroup) (c : Ctrlid) :
    Ctrlmask.has (getExpectedControllers (some cgroups)) c = hasGroup cgroups c := by
  simp only [getExpectedControllers, has_or, has_ite]
  cases c <;> simp [hasGroup]

theorem has_requiredBy (n : RedNode) (c : Ctrlid) (h : (requiredBy n).has c = false) :
    (∀ cgroups, configCgroups n = some cgroups → hasGroup cgroups c = false) ∧
      ∀ cgroups, adminCgroups n = some cgroups → hasGroup cgroups c = false := by
  rw [requiredBy, has_or, Bool.or_eq_false_iff] at h
  refine ⟨fun cgroups hc => ?_, fun cgroups hc => ?_⟩
  · rw [← has_expected, ← hc]; exact h.1
  · rw [← has_expected, ← hc]; exact h.2

/-- A setting that is written is one of a controller that the node needs. -/
theorem nodeConfEntries_required {n : RedNode} {c : Ctrlid} {file value : CStr}
    (h : (c, file, some value) ∈ nodeConfEntries n) : (requiredBy n).has c = true := by
  by_contra hno
  obtain ⟨hconfig, hadmin⟩ := has_requiredBy n c (by simpa using hno)
  have hcpuset : c = .cpuset → getNodeCpuset n = {} := fun hc => getNode_eq_zero (fun _ => rfl)
    (fun g hg => by simpa [hasGroup, hc] using hconfig g hg)
    (fun g hg => by simpa [hasGroup, hc] using hadmin g hg)
  have hcpu : c = .cpu → getNodeCpu n = {} := fun hc => getNode_eq_zero (fun _ => rfl)
    (fun g hg => by simpa [hasGroup, hc] using hconfig g hg)
    (fun g hg => by simpa [hasGroup, hc] using hadmin g hg)
  have hmem : c = .memory → getNodeMem n = {} := fun hc => getNode_eq_zero (fun _ => rfl)
    (fun g hg => by simpa [hasGroup, hc] using hconfig g hg)
    (fun g hg => by simpa [hasGroup, hc] using hadmin g hg)
  have hio : c = .io → getNodeIo n = {} := fun hc => getNode_eq_zero (fun _ => rfl)
    (fun g hg => by simpa [hasGroup, hc] using hconfig g hg)
    (fun g hg => by simpa [hasGroup, hc] using hadmin g hg)
  have hpids : c = .pids → getNodePids n = {} := fun hc => getNode_eq_zero (fun _ => rfl)
    (fun g hg => by simpa [hasGroup, hc] using hconfig g hg)
    (fun g hg => by simpa [hasGroup, hc] using hadmin g hg)
  simp only [nodeConfEntries, List.mem_cons, Prod.mk.injEq, List.not_mem_nil, or_false] at h
  rcases h with h | h | h | h | h | h | h | h | h | h | h | h | h <;>
    obtain ⟨rfl, _, hv⟩ := h <;>
    simp_all

/-! ## The calls -/

/-- What the settings change is the list of calls. Every one of them writes one of the entries. -/
theorem writeEntries_spec {gfd : Dir} {entries : List (Ctrlid × CStr × Option CStr)}
    {Q : Int → World → Prop} {E : Stop → World → Prop}
    (h : ∀ nerr calls, (∀ x ∈ calls, ∃ c file value, (c, file, some value) ∈ entries ∧
      x = (w.tree, Call.write gfd (.setting c file) value)) → Q nerr ⟨w.tree, calls ++ w.calls⟩) :
    wp (writeEntries k gfd entries) Q E w := by
  induction entries generalizing w Q with
  | nil => exact h 0 [] (by simp)
  | cons entry entries ih =>
    obtain ⟨c, file, value⟩ := entry
    rw [writeEntries, wp_bind]
    cases value with
    | none =>
      rw [Kernel.writeEntry, wp_pure, wp_bind]
      refine ih fun nerr calls hcalls => h _ _ fun x hx => ?_
      obtain ⟨c', file', v, hmem, rfl⟩ := hcalls x hx
      exact ⟨c', file', v, List.mem_cons_of_mem _ hmem, rfl⟩
    | some v =>
      have hrest : ∀ rc : Int, wp (do let nerr ← writeEntries k gfd entries; pure (rc + nerr))
          Q E ⟨w.tree, (w.tree, .write gfd (.setting c file) v) :: w.calls⟩ := by
        intro rc
        rw [wp_bind]
        refine ih fun nerr calls hcalls => ?_
        rw [wp_pure, List.append_cons]
        refine h _ _ fun x hx => ?_
        rcases List.mem_append.mp hx with hx | hx
        · obtain ⟨c', file', v', hmem, rfl⟩ := hcalls x hx
          exact ⟨c', file', v', List.mem_cons_of_mem _ hmem, rfl⟩
        · exact ⟨c, file, v, by simp, List.mem_singleton.mp hx⟩
      exact wp_writeEntry (fun t _ ht => by cases ht; exact hrest 0) (hrest (-1))

theorem keeps_writeEntries {allowed : Call → Prop} {I : World → Prop} {gfd : Dir}
    {entries : List (Ctrlid × CStr × Option CStr)} (hI : k.Stable allowed I)
    (h : ∀ c file v, allowed (.write gfd (.setting c file) v)) :
    Keeps I (writeEntries k gfd entries) := by
  induction entries with
  | nil => exact keeps_pure _
  | cons entry entries ih =>
    exact (keeps_writeEntry hI fun v _ => h _ _ v).bind fun _ => ih.bind fun _ => keeps_pure _

theorem setCgroupNodeConf_spec {n : RedNode} {gfd : Dir} {Q : Int → World → Prop}
    {E : Stop → World → Prop}
    (h : ∀ nerr calls, (∀ x ∈ calls, ∃ c file value, (c, file, some value) ∈ nodeConfEntries n ∧
      x = (w.tree, Call.write gfd (.setting c file) value)) → Q nerr ⟨w.tree, calls ++ w.calls⟩) :
    wp (setCgroupNodeConf k n gfd) Q E w := writeEntries_spec h

end Cgroup
end RedPak
