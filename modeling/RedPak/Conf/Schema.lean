import RedPak.Conf.CString

/-!
# Conf.Schema

The configuration of a rednode (`redconf-schema.h`) and the nodes themselves (`redconf-node.h`),
with the fields that the modelled functions read. A field left out of a YAML file is NULL or 0.

A node is met through its position in a family: the node with the nodes that its field `parent`
leads to, nearest first. Two pointers to nodes of one family are equal exactly when these are, for
then the same nodes lie between them and the root.
-/

namespace RedPak
namespace Conf

/-! ## Configuration -/

structure RedConfHeader where
  nodeAlias : CStr
  name : Option CStr := none
  info : Option CStr := none
deriving DecidableEq

inductive RedExportFlag where
  | exportPrivate
  | exportRestricted
  | exportPrivateRestricted
  | exportPublic
  | exportPrivateFile
  | exportRestrictedFile
  | exportPublicFile
  | exportAnonymous
  | exportSymlink
  | exportExecfd
  | exportInternal
  | exportDevfs
  | exportTmpfs
  | exportMquefs
  | exportProcfs
  | exportLock
deriving DecidableEq

namespace RedExportFlag

/-- The value of the enumerator: modes are OR-able bits. -/
def bits : RedExportFlag → Nat
  | exportPrivate => 1 <<< 0
  | exportRestricted => 1 <<< 1
  | exportPrivateRestricted => 1 <<< 2
  | exportPublic => 1 <<< 3
  | exportPrivateFile => 1 <<< 4
  | exportRestrictedFile => 1 <<< 5
  | exportPublicFile => 1 <<< 6
  | exportAnonymous => 1 <<< 7
  | exportSymlink => 1 <<< 8
  | exportExecfd => 1 <<< 9
  | exportInternal => 1 <<< 10
  | exportDevfs => 1 <<< 11
  | exportTmpfs => 1 <<< 12
  | exportMquefs => 1 <<< 13
  | exportProcfs => 1 <<< 14
  | exportLock => 1 <<< 15

end RedExportFlag

open RedExportFlag

/-- `RED_EXPORT_PRIVATES`: for querying if a mode is private -/
def redExportPrivates : Nat := exportPrivate.bits ||| exportPrivateFile.bits

/-- `RED_EXPORT_FILES`: for querying if a mode is for file -/
def redExportFiles : Nat :=
  exportPrivateFile.bits ||| exportRestrictedFile.bits ||| exportPublicFile.bits

/-- `RED_EXPORT_DIRS`: for querying if a mode is for directory -/
def redExportDirs : Nat := exportPrivate.bits ||| exportRestricted.bits ||| exportPublic.bits

structure RedConfExportPath where
  mount : CStr
  path : Option CStr := none
  mode : RedExportFlag
  info : Option CStr := none
  warn : Option CStr := none
deriving DecidableEq

inductive RedVarEnvFlag where
  | deflt
  | static
  | execfd
  | remove
  | inherit
deriving DecidableEq

structure RedConfVar where
  mode : RedVarEnvFlag := .deflt
  key : CStr
  value : Option CStr := none
  info : Option CStr := none
  warn : Option CStr := none
deriving DecidableEq

structure RedConfCap where
  cap : CStr
  add : Int
  info : Option CStr := none
  warn : Option CStr := none
deriving DecidableEq

structure RedConfShare where
  all : Option CStr := none
  user : Option CStr := none
  cgroup : Option CStr := none
  ipc : Option CStr := none
  pid : Option CStr := none
  net : Option CStr := none
  time : Option CStr := none
deriving DecidableEq

inductive RedConfOptFlag where
  | unset
  | disabled
  | enabled
deriving DecidableEq

structure RedMem where
  max : Option CStr := none
  high : Option CStr := none
  min : Option CStr := none
  low : Option CStr := none
  oomGroup : Option CStr := none
  swapHigh : Option CStr := none
  swapMax : Option CStr := none
deriving DecidableEq

structure RedCpu where
  weight : Option CStr := none
  max : Option CStr := none
  weightNice : Option CStr := none
deriving DecidableEq

structure RedIo where
  costQos : Option CStr := none
  costModel : Option CStr := none
  weight : Option CStr := none
  max : Option CStr := none
deriving DecidableEq

structure RedPids where
  max : Option CStr := none
deriving DecidableEq

structure RedCpuset where
  cpus : Option CStr := none
  mems : Option CStr := none
  cpusPartition : Option CStr := none
deriving DecidableEq

structure RedConfCgroup where
  cpuset : Option RedCpuset := none
  mem : Option RedMem := none
  cpu : Option RedCpu := none
  io : Option RedIo := none
  pids : Option RedPids := none
deriving DecidableEq

structure RedConfTag where
  rpmdir : Option CStr := none
  persistdir : Option CStr := none
  cachedir : Option CStr := none
  path : Option CStr := none
  ldpath : Option CStr := none
  hostname : Option CStr := none
  umask : Option CStr := none
  chdir : Option CStr := none
  cgrouproot : Option CStr := none
  setuser : Option CStr := none
  setgroup : Option CStr := none
  smack : Option CStr := none
  gpgcheck : Nat := 0
  unsafeNode : Nat := 0
  inheritenv : Nat := 0
  maprootuser : Nat := 0
  diewithparent : RedConfOptFlag := .unset
  newsession : RedConfOptFlag := .unset
  share : RedConfShare := {}
  cgroups : Option RedConfCgroup := none
  capabilities : List RedConfCap := []
  verbose : Int := 0
deriving DecidableEq

structure RedConfig where
  headers : RedConfHeader
  conftag : RedConfTag := {}
  confvar : List RedConfVar := []
  exports : List RedConfExportPath := []
deriving DecidableEq

/-! ## Nodes -/

structure EarlyConf where
  setuser : Option CStr := none
  setgroup : Option CStr := none
  smack : Option CStr := none
deriving DecidableEq

/-- What a node reads through its field `leaf`. -/
structure RedLeaf where
  headers : Option RedConfHeader
  redpath : CStr
  earlyconf : EarlyConf := {}
deriving DecidableEq

structure RedNode where
  config : Option RedConfig
  confadmin : Option RedConfig := none
  leaf : Option RedLeaf := none
  redpath : CStr
deriving DecidableEq

/-- What the expansion of a string reads in its node: the values of `NODE_*` and `LEAF_*`. -/
structure ExpandCtx where
  headers : Option RedConfHeader
  redpath : CStr
  leaf : Option RedLeaf
deriving DecidableEq

def RedNode.ctx (n : RedNode) : ExpandCtx :=
  ⟨n.config.map (·.headers), n.redpath, n.leaf⟩

/-- A node with the nodes that its field `parent` leads to. -/
structure Family where
  node : RedNode
  parents : List RedNode := []
deriving DecidableEq

def Family.parent (f : Family) : Option Family :=
  match f.parents with
  | [] => none
  | p :: ps => some ⟨p, ps⟩

theorem Family.parents_lt_of_parent {f p : Family} (h : f.parent = some p) :
    p.parents.length < f.parents.length := by
  obtain ⟨n, ns⟩ := f
  cases ns with
  | nil => cases h
  | cons m ms => cases h; exact Nat.lt_succ_self _

def families : List RedNode → List Family
  | [] => []
  | n :: ns => ⟨n, ns⟩ :: families ns

/-- The strict ancestors of a node, nearest first. -/
def Family.ancestors (f : Family) : List Family := families f.parents

/-- The nodes from a node to the root. -/
def Family.toRoot (f : Family) : List Family := f :: f.ancestors

def Family.child (f : Family) (n : RedNode) : Family := ⟨n, f.node :: f.parents⟩

/-- No node of the family has an admin config. -/
def Family.NoAdmin (f : Family) : Prop := ∀ g ∈ f.toRoot, g.node.confadmin = none

instance (f : Family) : Decidable f.NoAdmin :=
  inferInstanceAs (Decidable (∀ g ∈ f.toRoot, g.node.confadmin = none))

theorem Family.toRoot_of_parent {f p : Family} (h : f.parent = some p) :
    f.toRoot = f :: p.toRoot := by
  obtain ⟨n, ns⟩ := f
  cases ns with
  | nil => cases h
  | cons m ms => cases h; rfl

theorem Family.toRoot_of_parent_none {f : Family} (h : f.parent = none) : f.toRoot = [f] := by
  obtain ⟨n, ns⟩ := f
  cases ns with
  | nil => rfl
  | cons m ms => cases h

@[simp] theorem Family.toRoot_child (f : Family) (n : RedNode) :
    (f.child n).toRoot = f.child n :: f.toRoot := rfl

theorem Family.NoAdmin.parent {f : Family} {n : RedNode} (h : (f.child n).NoAdmin) : f.NoAdmin :=
  fun g hg => h g (by simp [hg])

theorem Family.not_mem_ancestors (f : Family) : f ∉ f.ancestors := by
  have hlt : ∀ (ns : List RedNode) (g : Family), g ∈ families ns →
      g.parents.length < ns.length := by
    intro ns
    induction ns with
    | nil => intro g hg; cases hg
    | cons n ns ih =>
      intro g hg
      rcases List.mem_cons.mp hg with rfl | hg
      · simp
      · have := ih g hg; simp only [List.length_cons]; omega
  intro h
  exact Nat.lt_irrefl _ (hlt _ _ h)

end Conf
end RedPak
