import RedPak.Node.Scan
import Mathlib.Data.List.Forall2

/-!
# Node.DownScan

The downward scan of rednodes (`RedChildrenNodesLoad`, `RedNodesDigToChilds` and `RedNodesDownScan`
in `redconf-node.c`). The recursion of the scan is bounded: a path gets longer on each level, and
one of `RED_MAXPATHLEN` bytes does not load.

* `redChildrenNodesLoad_ok`, `digToChilds_ok`: one level, when no load fails.
* `digToChilds_ends`: the bound is never reached.
-/

namespace RedPak
namespace Node

open Conf Layered

/-! ## Directories -/

/-- `struct dirent`: `isDir` tells if `d_type` is `DT_DIR`. -/
structure Entry where
  name : CStr
  isDir : Bool
deriving DecidableEq

/-- `readdir` gives what a directory holds in some order, if it can be opened. -/
structure DirOs (ω : Type) extends FileOs ω where
  readdir : ω → CStr → Option (List Entry)

/-- A node with the children that its field `first_child` leads to. -/
inductive NodeTree where
  | node (loaded : Loaded) (children : List NodeTree)

def NodeTree.root : NodeTree → Loaded
  | node loaded _ => loaded

def NodeTree.children : NodeTree → List NodeTree
  | node _ children => children

/-- A scan ends with an error or in a fault, unless its recursion has no end. -/
inductive ScanFailure where
  | error
  | fault
  | endless
deriving DecidableEq

/-- `d_name[0] == '.'`; the second test, for `..`, adds nothing. -/
def isHidden (name : CStr) : Bool := name.bytes.head? = some 0x2E

/-- `(void)snprintf(..)`: what does not fit is left out. -/
def snprintfCut (text : CStr) (size : Nat) : CStr := CStr.ofBytes (text.bytes.take (size - 1))

section

variable {ω : Type} (os : DirOs ω) (w : ω) (admin : Bool)

def childPath (redpath name : CStr) : CStr := snprintfCut (joinPath redpath name) redMaxpathlen

/-- The loop of `RedChildrenNodesLoad` over the entries of a directory; every child comes first. -/
def childrenLoad (redpath : CStr) : List Entry → List Loaded → Except ScanFailure (List Loaded)
  | [], children => .ok children
  | de :: entries, children =>
    if de.isDir = false ∨ isHidden de.name then childrenLoad redpath entries children
    else
      match redNodesLoad os.toFileOs w (childPath redpath de.name) admin with
      | .ok child => childrenLoad redpath entries (child :: children)
      | .error .missing => childrenLoad redpath entries children
      | .error .fx => .error .error
      | .error .fault => .error .fault

def redChildrenNodesLoad (node : Loaded) : Except ScanFailure (List Loaded) :=
  match os.readdir w node.node.redpath with
  | none => .error .error
  | some entries => childrenLoad os w admin node.node.redpath entries []

/-- `for (redNodeT *child_node = ..; child_node ; child_node = child_node->next_sibling)` -/
def digAll (dig : Loaded → Except ScanFailure NodeTree) :
    List Loaded → Except ScanFailure (List NodeTree)
  | [] => .ok []
  | child :: siblings =>
    match dig child with
    | .error e => .error e
    | .ok tree =>
      match digAll dig siblings with
      | .error e => .error e
      | .ok trees => .ok (tree :: trees)

/-- `RedNodesDigToChilds`, at most as deep as the first argument. -/
def redNodesDigToChilds : Nat → Loaded → Except ScanFailure NodeTree
  | 0, _ => .error .endless
  | depth + 1, node =>
    match redChildrenNodesLoad os w admin node with
    | .error e => .error e
    | .ok children =>
      match digAll (redNodesDigToChilds depth) children with
      | .error e => .error e
      | .ok trees => .ok (.node node trees)

def redNodesDownScan (redroot : CStr) : Except ScanFailure NodeTree :=
  match redNodesLoad os.toFileOs w redroot admin with
  | .error .fault => .error .fault
  | .error _ => .error .error
  | .ok root => redNodesDigToChilds os w admin redMaxpathlen root

/-! ## Children -/

/-- The child that an entry gives, if it is looked at and is a node. -/
def childOf (redpath : CStr) (de : Entry) : Option Loaded :=
  if de.isDir = false ∨ isHidden de.name then none
  else (redNodesLoad os.toFileOs w (childPath redpath de.name) admin).toOption

/-- The load of a directory that is looked at fails. -/
def childFails (redpath : CStr) (de : Entry) : Bool :=
  de.isDir && !isHidden de.name &&
    match redNodesLoad os.toFileOs w (childPath redpath de.name) admin with
    | .ok _ => false
    | .error .missing => false
    | .error _ => true

variable {os w admin} {redpath : CStr}

theorem childrenLoad_of_good : ∀ {entries : List Entry} {children : List Loaded},
    (∀ de ∈ entries, childFails os w admin redpath de = false) →
      childrenLoad os w admin redpath entries children =
        .ok ((entries.filterMap (childOf os w admin redpath)).reverse ++ children) := by
  intro entries
  induction entries with
  | nil => intro children _; rfl
  | cons de entries ih =>
    intro children h
    have hde := h de (by simp)
    have hrest := fun children => @ih children fun d hd => h d (by simp [hd])
    rw [childrenLoad]
    by_cases hskip : de.isDir = false ∨ isHidden de.name = true
    · rw [if_pos hskip, hrest, List.filterMap_cons_none (by rw [childOf, if_pos hskip])]
    · have hlook : de.isDir = true ∧ isHidden de.name = false := by simpa using hskip
      rw [if_neg hskip]
      rw [childFails, hlook.1, hlook.2] at hde
      cases hload : redNodesLoad os.toFileOs w (childPath redpath de.name) admin with
      | ok child =>
        have hchild : childOf os w admin redpath de = some child := by
          rw [childOf, if_neg hskip, hload]; rfl
        dsimp only
        rw [hrest, List.filterMap_cons_some hchild, List.reverse_cons, List.append_assoc]
        rfl
      | error e =>
        have hnone : childOf os w admin redpath de = none := by
          rw [childOf, if_neg hskip, hload]; rfl
        rw [hload] at hde
        cases e with
        | missing => dsimp only; rw [hrest, List.filterMap_cons_none hnone]
        | fx => cases hde
        | fault => cases hde

theorem childrenLoad_of_bad : ∀ {entries : List Entry} {children : List Loaded},
    (∃ de ∈ entries, childFails os w admin redpath de = true) → ∀ result,
      childrenLoad os w admin redpath entries children ≠ .ok result := by
  intro entries
  induction entries with
  | nil => rintro children ⟨de, hmem, -⟩; exact absurd hmem List.not_mem_nil
  | cons de entries ih =>
    rintro children ⟨bad, hmem, hbad⟩ result h
    rw [childrenLoad] at h
    by_cases hskip : de.isDir = false ∨ isHidden de.name = true
    · rw [if_pos hskip] at h
      rcases List.mem_cons.mp hmem with rfl | hmem
      · rcases hskip with hskip | hskip <;> simp [childFails, hskip] at hbad
      · exact ih ⟨bad, hmem, hbad⟩ result h
    · rw [if_neg hskip] at h
      cases hload : redNodesLoad os.toFileOs w (childPath redpath de.name) admin with
      | ok child =>
        rw [hload] at h
        rcases List.mem_cons.mp hmem with rfl | hmem
        · simp [childFails, hload] at hbad
        · exact ih ⟨bad, hmem, hbad⟩ result h
      | error e =>
        rw [hload] at h
        cases e with
        | missing =>
          rcases List.mem_cons.mp hmem with rfl | hmem
          · simp [childFails, hload] at hbad
          · exact ih ⟨bad, hmem, hbad⟩ result h
        | fx => cases h
        | fault => cases h

/-- The children of a node: the directory is read, and no load fails. -/
theorem redChildrenNodesLoad_ok {node : Loaded} {children : List Loaded} :
    redChildrenNodesLoad os w admin node = .ok children ↔
      ∃ entries, os.readdir w node.node.redpath = some entries ∧
        (∀ de ∈ entries, childFails os w admin node.node.redpath de = false) ∧
        children = (entries.filterMap (childOf os w admin node.node.redpath)).reverse := by
  unfold redChildrenNodesLoad
  cases hread : os.readdir w node.node.redpath with
  | none => simp
  | some entries =>
    dsimp only
    by_cases hgood : ∀ de ∈ entries, childFails os w admin node.node.redpath de = false
    · rw [childrenLoad_of_good hgood, List.append_nil]
      constructor
      · intro h
        exact ⟨entries, rfl, hgood, (Except.ok.inj h).symm⟩
      · rintro ⟨_, hsame, -, rfl⟩
        cases hsame
        rfl
    · have hbad : ∃ de ∈ entries, childFails os w admin node.node.redpath de = true := by
        simpa using hgood
      constructor
      · intro h
        exact absurd h (childrenLoad_of_bad hbad children)
      · rintro ⟨_, hsame, hgood', -⟩
        cases hsame
        exact absurd hgood' hgood

theorem digAll_ok {dig : Loaded → Except ScanFailure NodeTree} :
    ∀ {children : List Loaded} {trees : List NodeTree}, digAll dig children = .ok trees ↔
      List.Forall₂ (fun child tree => dig child = .ok tree) children trees := by
  intro children
  induction children with
  | nil =>
    intro trees
    rw [digAll, List.forall₂_nil_left_iff, Except.ok.injEq]
    exact ⟨fun h => h.symm, fun h => h.symm⟩
  | cons child siblings ih =>
    intro trees
    rw [digAll, List.forall₂_cons_left_iff]
    cases hdig : dig child with
    | error e => simp
    | ok tree =>
      dsimp only
      cases hrest : digAll dig siblings with
      | error e =>
        refine iff_of_false (fun h => by cases h) ?_
        rintro ⟨_, trees, -, hrest', -⟩
        rw [← ih, hrest] at hrest'
        cases hrest'
      | ok trees' =>
        constructor
        · intro h
          cases h
          exact ⟨tree, trees', rfl, ih.mp hrest, rfl⟩
        · rintro ⟨_, trees, htree, hrest', rfl⟩
          rw [← ih, hrest] at hrest'
          cases htree
          cases hrest'
          rfl

theorem digToChilds_ok {depth : Nat} {node : Loaded} {tree : NodeTree} :
    redNodesDigToChilds os w admin (depth + 1) node = .ok tree ↔
      ∃ children trees, redChildrenNodesLoad os w admin node = .ok children ∧
        List.Forall₂ (fun child tree => redNodesDigToChilds os w admin depth child = .ok tree)
          children trees ∧ tree = .node node trees := by
  rw [redNodesDigToChilds]
  cases hchildren : redChildrenNodesLoad os w admin node with
  | error e => simp
  | ok children =>
    dsimp only
    cases hall : digAll (redNodesDigToChilds os w admin depth) children with
    | error e =>
      refine iff_of_false (fun h => by cases h) ?_
      rintro ⟨_, trees, hsame, hrest, -⟩
      cases hsame
      rw [← digAll_ok, hall] at hrest
      cases hrest
    | ok trees =>
      constructor
      · intro h
        cases h
        exact ⟨children, trees, rfl, digAll_ok.mp hall, rfl⟩
      · rintro ⟨_, trees', hsame, hrest, rfl⟩
        cases hsame
        rw [← digAll_ok, hall] at hrest
        cases hrest
        rfl

theorem mem_childOf {entries : List Entry} {child : Loaded} :
    child ∈ (entries.filterMap (childOf os w admin redpath)).reverse ↔
      ∃ de ∈ entries, de.isDir = true ∧ isHidden de.name = false ∧
        redNodesLoad os.toFileOs w (childPath redpath de.name) admin = .ok child := by
  rw [List.mem_reverse, List.mem_filterMap]
  refine exists_congr fun de => and_congr_right fun _ => ?_
  unfold childOf
  by_cases hskip : de.isDir = false ∨ isHidden de.name = true
  · rw [if_pos hskip]
    refine iff_of_false (fun h => by cases h) fun h => ?_
    rcases hskip with hskip | hskip
    · rw [hskip] at h; cases h.1
    · rw [hskip] at h; cases h.2.1
  · have hlook : de.isDir = true ∧ isHidden de.name = false := by simpa using hskip
    rw [if_neg hskip]
    cases redNodesLoad os.toFileOs w (childPath redpath de.name) admin with
    | ok loaded => simp [Except.toOption, hlook]
    | error e => simp [Except.toOption]

/-! ## The end of the recursion -/

theorem length_childPath (redpath name : CStr) : (childPath redpath name).bytes.length =
    min (redMaxpathlen - 1) (redpath.bytes.length + 1 + name.bytes.length) := by
  rw [childPath, snprintfCut, ← length_joinPath]
  have hfree : ∀ n, (CStr.ofBytes ((joinPath redpath name).bytes.take n)).bytes =
      (joinPath redpath name).bytes.take n := fun n =>
    congrArg CStr.bytes (CStr.ofBytes_bytes ⟨_, fun h =>
      (joinPath redpath name).nulFree (List.mem_of_mem_take h)⟩)
  rw [hfree, List.length_take]

theorem length_lt_of_child {name : CStr} {child : Loaded}
    (h : redNodesLoad os.toFileOs w (childPath redpath name) admin = .ok child) :
    redpath.bytes.length < child.node.redpath.bytes.length := by
  have hloads := (redNodesLoad_ok os.toFileOs w).mp h
  have hroom := hloads.room
  have hlen := length_childPath redpath name
  rw [length_joinPath, show rednodeStatus.bytes.length = 13 by decide +kernel] at hroom
  rw [hloads.redpath_eq]
  simp only [redMaxpathlen] at hroom hlen
  omega

theorem digAll_error {dig : Loaded → Except ScanFailure NodeTree} {e : ScanFailure} :
    ∀ {children : List Loaded}, digAll dig children = .error e →
      ∃ child ∈ children, dig child = .error e := by
  intro children
  induction children with
  | nil => intro h; cases h
  | cons child siblings ih =>
    intro h
    rw [digAll] at h
    cases hdig : dig child with
    | error e' =>
      rw [hdig] at h
      cases h
      exact ⟨child, by simp, hdig⟩
    | ok tree =>
      rw [hdig] at h
      dsimp only at h
      cases hrest : digAll dig siblings with
      | error e' =>
        rw [hrest] at h
        cases h
        obtain ⟨c, hc, he⟩ := ih hrest
        exact ⟨c, by simp [hc], he⟩
      | ok trees => rw [hrest] at h; cases h

theorem childrenLoad_endless {entries : List Entry} : ∀ {children : List Loaded},
    childrenLoad os w admin redpath entries children ≠ .error .endless := by
  induction entries with
  | nil => intro children h; cases h
  | cons de entries ih =>
    intro children h
    rw [childrenLoad] at h
    split at h
    · exact ih h
    · split at h
      · exact ih h
      · exact ih h
      · cases h
      · cases h

/-- **Termination.** The bound on the recursion is not reached. -/
theorem digToChilds_ends : ∀ {depth : Nat} {node : Loaded},
    redMaxpathlen ≤ node.node.redpath.bytes.length + depth →
      node.node.redpath.bytes.length < redMaxpathlen →
        redNodesDigToChilds os w admin depth node ≠ .error .endless := by
  intro depth
  induction depth with
  | zero => intro node hdepth hlen; omega
  | succ depth ih =>
    intro node hdepth hlen h
    rw [redNodesDigToChilds] at h
    cases hchildren : redChildrenNodesLoad os w admin node with
    | error e =>
      rw [hchildren] at h
      cases h
      unfold redChildrenNodesLoad at hchildren
      split at hchildren
      · cases hchildren
      · exact childrenLoad_endless hchildren
    | ok children =>
      rw [hchildren] at h
      dsimp only at h
      cases hall : digAll (redNodesDigToChilds os w admin depth) children with
      | ok trees => rw [hall] at h; cases h
      | error e =>
        rw [hall] at h
        cases h
        obtain ⟨child, hmem, hend⟩ := digAll_error hall
        obtain ⟨entries, -, -, rfl⟩ := redChildrenNodesLoad_ok.mp hchildren
        obtain ⟨de, -, -, -, hload⟩ := mem_childOf.mp hmem
        have hlonger := length_lt_of_child hload
        have hshort := length_of_loaded os.toFileOs w hload
        rw [← ((redNodesLoad_ok os.toFileOs w).mp hload).redpath_eq] at hshort
        exact ih (by omega) hshort hend

theorem redNodesDownScan_ends (redroot : CStr) :
    redNodesDownScan os w admin redroot ≠ .error .endless := by
  unfold redNodesDownScan
  split
  · simp
  · simp
  · rename_i root hload
    have hshort := length_of_loaded os.toFileOs w hload
    rw [← ((redNodesLoad_ok os.toFileOs w).mp hload).redpath_eq] at hshort
    exact digToChilds_ends (by omega) hshort

end

end Node
end RedPak
