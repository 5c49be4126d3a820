import RedPak.Node.Relation
import RedPak.Wrap.Identity
import RedPak.Wrap.Options

/-!
# Wrap.Whole

`redwrapExecBwrap` from the start: the node of the command line is scanned, it and its parents are
checked (`validateNode`, and `RwrapValidateNode` in `redwrap-node.c`), and then comes the launch.

* `validateNode_eq_zero`: the check is passed exactly if all of them are enabled.
* `redwrapExecNode_launched`: what there is on the disk when `bwrap` is called.
-/

namespace RedPak
namespace Wrap

open Conf
open Node (FileOs Loaded RedStatus digToRoot_above digToRoot_parents redNodesDigToRoot redNodesLoad
  redNodesScan slash stripSlash)

/-! ## The check of the nodes -/

/-- The comparison of the realpath is switched off. -/
def rwrapValidateNode (status : RedStatus) : Int := if status.state ≠ .enable then 1 else 0

/-- The statuses of a node and its parents, as long as they are valid. -/
def validateNode : List RedStatus → Int
  | [] => 0
  | status :: parents =>
    let result := rwrapValidateNode status
    if result = 0 then validateNode parents else result

theorem rwrapValidateNode_eq_zero {status : RedStatus} :
    rwrapValidateNode status = 0 ↔ status.state = .enable := by
  unfold rwrapValidateNode
  split
  · rename_i h
    exact iff_of_false (by decide) h
  · rename_i h
    exact iff_of_true rfl (not_not.mp h)

theorem validateNode_eq_zero {statuses : List RedStatus} :
    validateNode statuses = 0 ↔ ∀ status ∈ statuses, status.state = .enable := by
  induction statuses with
  | nil => exact iff_of_true rfl fun _ h => (by cases h)
  | cons status parents ih =>
    rw [List.forall_mem_cons, ← ih, ← rwrapValidateNode_eq_zero, validateNode]
    split
    · rename_i h
      exact (and_iff_right h).symm
    · rename_i h
      exact iff_of_false h fun hand => h hand.1

/-! ## The launch -/

section

variable {ω φ : Type} (a : Accounts) (os : ExecOs ω) (files : FileOs φ) (w : φ)
  (expand : ExpandCtx → CStr → Option CStr) (env : RedEnv) (depth : Nat) (commandName : CStr)
  (cliarg : ParsedArgs) (subargv : List CStr) (o : ω) (stack : Stack)

/-- The node of the command line. -/
def ParsedArgs.path : CStr := cliarg.redpath.get cliarg.hasRedpath

/-- The statuses that a scan loads, that of the leaf first. -/
def scannedStatuses (load : CStr → Except Node.NotLoaded Loaded) (redpath : CStr) :
    List RedStatus :=
  match load redpath with
  | .error _ => []
  | .ok leaf => leaf.status :: (redNodesDigToRoot load redpath).parents.map (·.status)

/-- `redwrapExecBwrap` -/
def redwrapExecNode : Except Ended Exec :=
  let load := fun path => redNodesLoad files w path cliarg.isadmin
  match redNodesScan load cliarg.path with
  | none => .error .fault
  | some none => .error (.returned 1)
  | some (some rednode) =>
    if validateNode (scannedStatuses load cliarg.path) ≠ 0 then .error (.returned 1)
    else
      redwrapExecEarly a cliarg.toRWrapConfig os expand env depth commandName subargv rednode {} o
        stack

/-- What is so when `bwrap` is called: the directory of the command line holds an enabled node, so
does every directory above it that has a status, and its arguments are read as the options of the
launch. -/
structure Launched (arity : CStr → Option Nat) (exec : Exec) : Prop where
  leaf : ∃ leaf, redNodesLoad files w cliarg.path cliarg.isadmin = .ok leaf ∧
    leaf.status.state = .enable
  above : ∀ u, u ++ [slash] <+: stripSlash cliarg.path.bytes → 1 < u.length →
    redNodesLoad files w (CStr.ofBytes (u ++ [slash])) cliarg.isadmin = .error .missing ∨
      ∃ parent, redNodesLoad files w (CStr.ofBytes (u ++ [slash])) cliarg.isadmin = .ok parent ∧
        parent.status.state = .enable
  reads : ∃ rednode earlyconf,
    redNodesScan (redNodesLoad files w · cliarg.isadmin) cliarg.path = some (some rednode) ∧
    leafEarlyConf a cliarg.toRWrapConfig rednode {} = .ok (some earlyconf) ∧
    ReadsBack arity exec (launchOptions os (credentials a earlyconf) expand env depth commandName
      cliarg.toRWrapConfig
      ⟨withEarlyConf earlyconf rednode.node, rednode.parents.map (withEarlyConf earlyconf)⟩ o stack)
      subargv

variable {a os files w expand env depth commandName cliarg subargv o stack}

theorem node_mem_of_toRoot {f g : Family} (h : g ∈ f.toRoot) : g.node ∈ f.node :: f.parents := by
  have hancestors : ∀ ns : List RedNode, ∀ g ∈ families ns, g.node ∈ ns := by
    intro ns
    induction ns with
    | nil => exact fun _ hg => (by cases hg)
    | cons n ns ih =>
      intro g hg
      rcases List.mem_cons.mp hg with rfl | hg
      · exact List.mem_cons_self
      · exact List.mem_cons_of_mem _ (ih g hg)
  rcases List.mem_cons.mp h with rfl | h
  · exact List.mem_cons_self
  · exact List.mem_cons_of_mem _ (hancestors f.parents g h)

theorem configs_of_scan {rednode : Family} (earlyconf : EarlyConf)
    (h : redNodesScan (redNodesLoad files w · cliarg.isadmin) cliarg.path = some (some rednode)) :
    ∀ f ∈ (⟨withEarlyConf earlyconf rednode.node,
      rednode.parents.map (withEarlyConf earlyconf)⟩ : Family).toRoot, f.node.config ≠ none := by
  have hconfig : ∀ {path : CStr} {loaded : Loaded},
      redNodesLoad files w path cliarg.isadmin = .ok loaded → loaded.node.config ≠ none := by
    intro path loaded hload hnone
    obtain ⟨_, config, -, -, hconfig⟩ := ((Node.redNodesLoad_ok files w).mp hload).normal
    rw [hconfig] at hnone
    cases hnone
  obtain ⟨leaf, hleaf, -, rfl⟩ := Node.redNodesScan_eq_some.mp h
  intro f hf
  have hmem := node_mem_of_toRoot hf
  rcases List.mem_cons.mp hmem with heq | hparent
  · rw [heq]
    exact hconfig hleaf
  · simp only [Node.withLeaf, List.map_map, List.mem_map, Function.comp_apply] at hparent
    obtain ⟨parent, hparent, heq⟩ := hparent
    obtain ⟨u, -, hload⟩ := digToRoot_parents _ parent hparent
    rw [← heq]
    exact hconfig hload

/-- **A launch** is of an enabled node below enabled nodes, with the options of that node. -/
theorem redwrapExecNode_launched {arity : CStr → Option Nat} (hknows : Knows arity) {exec : Exec}
    (h : redwrapExecNode a os files w expand env depth commandName cliarg subargv o stack =
      .ok exec) :
    Launched a os files w expand env depth commandName cliarg subargv o stack arity exec := by
  unfold redwrapExecNode at h
  dsimp only at h
  cases hscan : redNodesScan (redNodesLoad files w · cliarg.isadmin) cliarg.path with
  | none => rw [hscan] at h; cases h
  | some result =>
    rw [hscan] at h
    cases result with
    | none => cases h
    | some rednode =>
      dsimp only at h
      split at h
      · cases h
      rename_i hvalid
      obtain ⟨leaf, hleaf, hdone, -⟩ := Node.redNodesScan_eq_some.mp hscan
      have henabled := validateNode_eq_zero.mp (not_not.mp hvalid)
      rw [scannedStatuses, hleaf] at henabled
      obtain ⟨hfirst, hparents⟩ := List.forall_mem_cons.mp henabled
      refine ⟨⟨leaf, hleaf, hfirst⟩, fun u hu hlt => ?_, ?_⟩
      · have hroom := Node.length_of_loaded files w hleaf
        have hwhole : cliarg.path.bytes.take Node.redMaxpathlen = cliarg.path.bytes :=
          List.take_of_length_le (Nat.le_of_lt hroom)
        rw [redNodesDigToRoot, hwhole] at hdone hparents
        rcases digToRoot_above _ hdone hu hlt with hmissing | ⟨parent, hmem, hload⟩
        · exact .inl hmissing
        · exact .inr ⟨parent, hload, hparents _ (List.mem_map_of_mem hmem)⟩
      · obtain ⟨earlyconf, hearly, hexec⟩ := redwrapExecEarly_ok h
        exact ⟨rednode, earlyconf, hscan, hearly,
          redwrapExec_reads (configs_of_scan earlyconf hscan) hknows hexec⟩

end

/-! ## A node in a node -/

/-- `--redpath=/r/n` -/
def linkedArgs : ParsedArgs where
  redpath := CStr.lit "/r/n"
  bwrap := bwrapCmdPath
  index := 3
  hasRedpath := rfl

def linkedNode (path : String) : RedNode where
  config := some { headers := ⟨CStr.lit "node", none, none⟩ }
  redpath := CStr.lit path

def linkedFamily : Family := Node.withLeaf (linkedNode "/r/n") [linkedNode "/r/"]

theorem scan_linked : redNodesScan (redNodesLoad Factory.diskOs.toFileOs Node.linkedDisk ·
    linkedArgs.isadmin) linkedArgs.path = some (some linkedFamily) ∧
      validateNode (scannedStatuses (redNodesLoad Factory.diskOs.toFileOs Node.linkedDisk ·
        linkedArgs.isadmin) linkedArgs.path) = 0 := by
  have hleaf : redNodesLoad Factory.diskOs.toFileOs Node.linkedDisk (CStr.lit "/r/n") false =
      .ok ⟨linkedNode "/r/n", ⟨.enable, .lit "/r/n", 0, none⟩⟩ := by decide +kernel
  have hparent : redNodesLoad Factory.diskOs.toFileOs Node.linkedDisk
      (CStr.ofBytes ([0x2F, 0x72] ++ [slash])) false =
        .ok ⟨linkedNode "/r/", ⟨.enable, .lit "/r", 0, none⟩⟩ := by decide +kernel
  have hdig : redNodesDigToRoot (redNodesLoad Factory.diskOs.toFileOs Node.linkedDisk · false)
      (CStr.lit "/r/n") = ⟨.done, [[0x2F, 0x72] ++ [slash]],
        [⟨linkedNode "/r/", ⟨.enable, .lit "/r", 0, none⟩⟩]⟩ := by
    rw [redNodesDigToRoot, Node.digToRoot_cut (v := [0x2F, 0x72]) (w := [0x6E]) (by decide)
      (by decide) (by decide) (by decide), hparent]
    dsimp only
    rw [Node.digToRoot_top (v := []) (w := [0x72]) (by decide) (by decide) (by decide) (by decide)]
    rfl
  refine ⟨Node.redNodesScan_eq_some.mpr ⟨_, hleaf, ?_, ?_⟩, ?_⟩
  · exact congrArg (·.result) hdig
  · exact congrArg (fun dug => Node.withLeaf (linkedNode "/r/n") (dug.parents.map (·.node)))
      hdig.symm
  · have hpath : linkedArgs.path = CStr.lit "/r/n" := rfl
    have hadmin : linkedArgs.isadmin = false := rfl
    rw [hpath, hadmin, scannedStatuses, hleaf]
    dsimp only
    rw [hdig]
    rfl

theorem redwrapExecNode_linked : ∃ exec, redwrapExecNode twoAccounts readyOs
      Factory.diskOs.toFileOs Node.linkedDisk silentExpand silentEnv 1 (CStr.lit "redwrap")
      linkedArgs [CStr.lit "sh"] () clearStack = .ok exec ∧
    Launched twoAccounts readyOs Factory.diskOs.toFileOs Node.linkedDisk silentExpand silentEnv 1
      (CStr.lit "redwrap") linkedArgs [CStr.lit "sh"] () clearStack plainBwrap exec := by
  obtain ⟨exec, hexec⟩ : ∃ exec, redwrapExecNode twoAccounts readyOs Factory.diskOs.toFileOs
      Node.linkedDisk silentExpand silentEnv 1 (CStr.lit "redwrap") linkedArgs [CStr.lit "sh"] ()
        clearStack = .ok exec := by
    rw [redwrapExecNode, scan_linked.1]
    dsimp only
    rw [if_neg (not_not.mpr scan_linked.2), redwrapExecEarly]
    have hearly : leafEarlyConf twoAccounts linkedArgs.toRWrapConfig linkedFamily {} =
      .ok (some {}) := rfl
    rw [hearly]
    dsimp only
    rw [redwrapExec, collectArguments_eq silentExpand silentEnv 1 _ (by decide),
      launchTurns_of_no_exports silentExpand silentEnv 1 (by decide) rfl (by decide)]
    exact ⟨_, rfl⟩
  exact ⟨exec, hexec, redwrapExecNode_launched knows_plainBwrap hexec⟩

end Wrap
end RedPak
