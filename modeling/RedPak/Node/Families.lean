import RedPak.Layered.Forest
import RedPak.Node.AllOrNothing
import RedPak.Node.DownScan

/-!
# Node.Families

Families of nodes in memory: the scans with the links that they set (`RedNodesScan` and
`RedNodesDownScan` in `redconf-node.c`), and what gives them back (`freeNode`, `freeRedRoot` and
`freeRedLeaf`). A cell of the heap is a node with all that was allocated for it; `calloc` and
`strdup` succeed.

* `freeRedRoot_spec`, `freeRedLeaf_spec`: a tree is given back from its root, and from any node.
* `digToChilds_spec`: what the downward scan leaves in the heap, whether it succeeds or not.
-/

namespace RedPak
namespace Node

open Conf Layered Layered.Action

/-- What was loaded, and the link to the leaf that was scanned. -/
structure NodeData where
  loaded : Loaded
  leaf : Option Addr := none

abbrev Families := HeapM (Cell NodeData)

/-- All that was allocated for a node is given back with it. -/
theorem freeNode_memory {ω : Type} {os : FileOs ω} {w : ω} {redpath : CStr} {admin : Bool}
    {loaded : Loaded} (h : redNodesLoad os w redpath admin = .ok loaded) {node : RedNodeT}
    (hnode : loaded.memory.pnode = some node) : freeNode node loaded.memory.live = [] := by
  obtain ⟨_, config, _, _, hconfig⟩ := ((redNodesLoad_ok os w).mp h).normal
  cases hnode
  obtain ⟨⟨_, confadmin, leaf, redpath⟩, status⟩ := loaded
  cases hconfig
  cases confadmin <;> rfl

namespace Families

/-! ## Release -/

/-- All that is allocated for a node is in its cell. -/
def freeNode (node : Addr) : Families Unit := free node

mutual

/-- `freeRedRoot`, and the loop over its children. Of the nodes that are met, the first argument is
a bound. -/
def freeRedRootIn : Nat → Option Addr → Families Unit
  | _, none => pure ()
  | 0, some _ => throw .endless
  | n + 1, some redroot => do
    let c ← load redroot
    freeChildrenIn n c.firstChild
    freeNode redroot

/-- `while(child)` -/
def freeChildrenIn : Nat → Option Addr → Families Unit
  | _, none => pure ()
  | 0, some _ => throw .endless
  | n + 1, some child => do
    let c ← load child
    freeRedRootIn n (some child)
    freeChildrenIn n c.nextSibling

end

/-- A tree has no more nodes than addresses have been given away. -/
def freeRedRoot (redroot : Option Addr) : Families Unit := do
  let h ← get
  freeRedRootIn (2 * h.next) redroot

/-- `while (node->parent != NULL)` -/
def topIn : Nat → Addr → Families Addr
  | 0, _ => throw .endless
  | n + 1, node => do
    let c ← load node
    match c.parent with
    | none => pure node
    | some parent => topIn n parent

def freeRedLeaf : Option Addr → Families Unit
  | none => pure ()
  | some redleaf => do
    let h ← get
    let node ← topIn h.next redleaf
    freeRedRoot (some node)

/-- `for (redNodeT *node=familyTree; node != NULL; node=node->parent)`: the nodes that the loop of
`RedDumpFamilyNodeHandle` meets. -/
def familyIn : Nat → Option Addr → Families (List NodeData)
  | _, none => pure []
  | 0, some _ => throw .endless
  | n + 1, some node => do
    let c ← load node
    let rest ← familyIn n c.parent
    pure (c.data :: rest)

def familyFrom (familyTree : Option Addr) : Families (List NodeData) := do
  let h ← get
  familyIn h.next familyTree

/-! ## The upward scan -/

/-- The loop of `RedNodesDigToRoot`. -/
def digToRoot (loadNode : CStr → Except NotLoaded Loaded) (leafNode : Addr)
    (nodepath : List UInt8) (childNode : Addr) : Families Bool :=
  match _h : popDownRedpath nodepath with
  | none => throw .fault
  | some (index, path) =>
    if index ≤ 1 then do
      store childNode fun c => { c with parent := none }
      pure true
    else
      match loadNode (CStr.ofBytes path) with
      | .ok loaded => do
        let parentNode ← alloc { data := ⟨loaded, none⟩ }
        store childNode fun c => { c with parent := some parentNode }
        store parentNode fun c => { c with firstChild := some childNode }
        store parentNode fun c => { c with data := { c.data with leaf := some leafNode } }
        digToRoot loadNode leafNode path parentNode
      | .error .missing => digToRoot loadNode leafNode path childNode
      | .error .fx => pure false
      | .error .fault => throw .fault
termination_by nodepath.length
decreasing_by all_goals exact popDownRedpath_length _h

def redNodesDigToRoot (loadNode : CStr → Except NotLoaded Loaded) (redpath : CStr)
    (leafNode : Addr) : Families Bool :=
  digToRoot loadNode leafNode (redpath.bytes.take redMaxpathlen) leafNode

def redNodesScan (loadNode : CStr → Except NotLoaded Loaded) (redpath : CStr) :
    Families (Option Addr) :=
  match loadNode redpath with
  | .error .fault => throw .fault
  | .error _ => pure none
  | .ok leaf => do
    let redleaf ← alloc { data := ⟨leaf, none⟩ }
    store redleaf fun c => { c with data := { c.data with leaf := some redleaf } }
    let done ← redNodesDigToRoot loadNode redpath redleaf
    if done then pure (some redleaf)
    else do
      freeRedLeaf (some redleaf)
      pure none

/-! ## The downward scan -/

section

variable {ω : Type} (os : DirOs ω) (w : ω) (admin : Bool)

/-- The loop of `RedChildrenNodesLoad` over the entries of a directory. -/
def childrenLoad (node : Addr) (redpath : CStr) : List Entry → Families Bool
  | [] => pure true
  | de :: entries =>
    if de.isDir = false ∨ isHidden de.name then childrenLoad node redpath entries
    else
      match redNodesLoad os.toFileOs w (childPath redpath de.name) admin with
      | .ok loaded => do
        let child ← alloc { data := ⟨loaded, none⟩ }
        store child fun c => { c with parent := some node }
        let current ← load node
        store child fun c => { c with nextSibling := current.firstChild }
        store node fun c => { c with firstChild := some child }
        childrenLoad node redpath entries
      | .error .missing => childrenLoad node redpath entries
      | .error .fx => pure false
      | .error .fault => throw .fault

def redChildrenNodesLoad (node : Addr) : Families Bool := do
  let c ← load node
  match os.readdir w c.data.loaded.node.redpath with
  | none => pure false
  | some entries => childrenLoad os w admin node c.data.loaded.node.redpath entries

/-- `for (redNodeT *child_node = ..; child_node ; child_node = child_node->next_sibling)` -/
def digSiblings (dig : Addr → Families Bool) : Nat → Option Addr → Families Bool
  | _, none => pure true
  | 0, some _ => throw .endless
  | n + 1, some child => do
    let done ← dig child
    if done then do
      let c ← load child
      digSiblings dig n c.nextSibling
    else pure false

/-- `RedNodesDigToChilds`, at most as deep as the first argument. -/
def redNodesDigToChilds : Nat → Addr → Families Bool
  | 0, _ => throw .endless
  | depth + 1, currentNode => do
    let done ← redChildrenNodesLoad os w admin currentNode
    if done then do
      let c ← load currentNode
      let h ← get
      digSiblings (redNodesDigToChilds depth) h.next c.firstChild
    else pure false

/-- A failure gives nothing back. -/
def redNodesDownScan (redroot : CStr) : Families (Option Addr) :=
  match redNodesLoad os.toFileOs w redroot admin with
  | .error .fault => throw .fault
  | .error _ => pure none
  | .ok root => do
    let redrootNode ← alloc { data := ⟨root, none⟩ }
    store redrootNode fun c => { c with parent := none }
    let done ← redNodesDigToChilds os w admin redMaxpathlen redrootNode
    if done then pure (some redrootNode) else pure none

end

/-! ## What is given back -/

variable {h h' : Heap (Cell NodeData)} {f : Forest NodeData} {parent : Option Addr} {a : Addr}
  {data : NodeData} {children siblings : Forest NodeData}

theorem freeRedRootIn_of {c : Cell NodeData} {n : Nat} {as : List Addr} (hcell : h.cell a = some c)
    (ha : a ∉ as) (hchildren : wp (freeChildrenIn n c.firstChild) (fun _ h' => h.Releases h' as)
      (fun _ _ => False) h) :
    wp (freeRedRootIn (n + 1) (some a)) (fun _ h' => h.Releases h' (a :: as))
      (fun _ _ => False) h := by
  rw [freeRedRootIn, wp_bind]
  refine wp_load hcell ?_
  rw [wp_bind]
  refine wp_mono hchildren ?_ (fun _ _ h => h)
  intro _ h₁ h₁'
  have hcell₁ := (h₁'.others a ha).trans hcell
  refine wp_free hcell₁ ((h₁'.trans (h₁.releases_update (Heap.lt_next hcell₁))).congr fun b => ?_)
  rw [List.mem_append, List.mem_singleton, List.mem_cons, or_comm]

/-- The bound is large enough for all that the recursion meets. -/
theorem freeChildrenIn_spec (hf : h.Holds parent f) {n : Nat} (hn : 2 * f.addrs.length ≤ n) :
    wp (freeChildrenIn n f.ptr) (fun _ h' => h.Releases h' f.addrs) (fun _ _ => False) h := by
  induction f generalizing n h parent with
  | nil => cases n <;> exact Heap.releases_nil h
  | cons a data children siblings ihc ihs =>
    obtain ⟨hcell, hchildren, hsiblings, hac, has, hdisjoint⟩ := Heap.holds_cons.mp hf
    simp only [Forest.addrs_cons, List.length_cons, List.length_append] at hn
    obtain ⟨n, rfl⟩ := Nat.exists_eq_add_of_le' (show 2 ≤ n by omega)
    rw [Forest.ptr_cons, freeChildrenIn, wp_bind]
    refine wp_load hcell ?_
    rw [wp_bind]
    refine wp_mono (freeRedRootIn_of hcell hac (ihc hchildren (by omega))) ?_ (fun _ _ h => h)
    intro _ h₁ h₁'
    have hsiblings₁ : h₁.Holds parent siblings := hsiblings.frame fun b hb => by
      refine h₁'.others b ?_
      rw [List.mem_cons, not_or]
      exact ⟨fun hba => has (hba ▸ hb), fun hc => hdisjoint hc hb⟩
    exact wp_mono (ihs hsiblings₁ (by omega)) (fun _ _ h₂' => h₁'.trans h₂') (fun _ _ h => h)

/-- **From its root**, a tree is given back. -/
theorem freeRedRoot_spec (hf : h.Holds parent (.cons a data children siblings)) :
    wp (freeRedRoot (some a)) (fun _ h' => h.Releases h' (a :: children.addrs))
      (fun _ _ => False) h := by
  obtain ⟨hcell, hchildren, -, hac, -, -⟩ := Heap.holds_cons.mp hf
  have hsize := hf.size_le
  simp only [Forest.addrs_cons, List.length_cons, List.length_append] at hsize
  obtain ⟨n, hn⟩ := Nat.exists_eq_add_of_le' (show 1 ≤ 2 * h.next by omega)
  rw [freeRedRoot, wp_bind, wp_get, hn]
  exact freeRedRootIn_of hcell hac (freeChildrenIn_spec hchildren (by omega))

/-- The way up from a node leads to its root, past the parent of its siblings. -/
theorem topIn_parent {p : Addr} (hf : h.Holds (some p) f) (ha : a ∈ f.addrs) :
    ∃ k, 1 ≤ k ∧ k ≤ f.addrs.length ∧ ∀ n, topIn (n + k) a h = topIn n p h := by
  induction f generalizing p with
  | nil => cases ha
  | cons r data children siblings ihc ihs =>
    obtain ⟨hcell, hchildren, hsiblings, -⟩ := Heap.holds_cons.mp hf
    have hroot : ∀ n, topIn (n + 1) r h = topIn n p h := fun n => by
      rw [topIn]
      exact bind_of_ok (load_eq hcell)
    rcases List.mem_cons.mp ha with rfl | ha
    · exact ⟨1, Nat.le_refl 1, by simp, hroot⟩
    rcases List.mem_append.mp ha with ha | ha
    · obtain ⟨k, hk, hle, hup⟩ := ihc hchildren ha
      refine ⟨k + 1, by omega, by simp; omega, fun n => ?_⟩
      rw [← hroot n, ← hup (n + 1), Nat.add_right_comm, Nat.add_assoc]
    · obtain ⟨k, hk, hle, hup⟩ := ihs hsiblings ha
      exact ⟨k, hk, by simp; omega, hup⟩

theorem topIn_root (hf : h.Holds none (.cons a data children .nil)) {b : Addr}
    (hb : b ∈ a :: children.addrs) {n : Nat} (hn : children.addrs.length + 1 ≤ n) :
    topIn n b h = .ok a h := by
  obtain ⟨hcell, hchildren, -⟩ := Heap.holds_cons.mp hf
  have hroot : ∀ n, topIn (n + 1) a h = .ok a h := fun n => by
    rw [topIn]
    exact bind_of_ok (load_eq hcell)
  rcases List.mem_cons.mp hb with rfl | hb
  · obtain ⟨n, rfl⟩ := Nat.exists_eq_add_of_le' (show 1 ≤ n by omega)
    exact hroot n
  · obtain ⟨k, hk, hle, hup⟩ := topIn_parent hchildren hb
    obtain ⟨n, rfl⟩ := Nat.exists_eq_add_of_le' (show 1 + k ≤ n by omega)
    rw [← Nat.add_assoc, hup, hroot]

/-- **From any of its nodes**, a tree is given back. -/
theorem freeRedLeaf_spec (hf : h.Holds none (.cons a data children .nil)) {b : Addr}
    (hb : b ∈ a :: children.addrs) :
    wp (freeRedLeaf (some b)) (fun _ h' => h.Releases h' (a :: children.addrs))
      (fun _ _ => False) h := by
  have hsize := hf.size_le
  simp only [Forest.addrs_cons, Forest.addrs_nil, List.append_nil, List.length_cons] at hsize
  rw [freeRedLeaf, wp_bind, wp_get, wp, bind_of_ok (topIn_root hf hb hsize)]
  exact freeRedRoot_spec hf

/-! ## What the downward scan leaves -/

/-- The trees of a forest, without their addresses. -/
def trees : Forest NodeData → List NodeTree
  | .nil => []
  | .cons _ data children siblings => .node data.loaded (trees children) :: trees siblings

/-- In memory a scan ends as it does without. -/
def Agrees {α : Type} (out : Except ScanFailure α) (done : Bool) (Q : α → Prop) : Prop :=
  match out with
  | .ok a => done = true ∧ Q a
  | .error .error => done = false
  | .error _ => False

def Crashes {α : Type} (out : Except ScanFailure α) : Crash → Prop
  | .fault => out = .error .fault
  | .endless => out = .error .endless

theorem Agrees.cases {α : Type} {out : Except ScanFailure α} {done : Bool} {Q : α → Prop}
    (h : Agrees out done Q) :
    (∃ a, out = .ok a ∧ done = true ∧ Q a) ∨ (out = .error .error ∧ done = false) := by
  cases out with
  | ok a => exact .inl ⟨a, rfl, h⟩
  | error e =>
    cases e with
    | error => exact .inr ⟨rfl, h⟩
    | fault => exact h.elim
    | endless => exact h.elim

theorem Crashes.of {α β : Type} {out : Except ScanFailure α} {out' : Except ScanFailure β}
    {e : Crash} (h : Crashes out e) (hout : ∀ e, out = .error e → out' = .error e) :
    Crashes out' e := by
  cases e <;> exact hout _ h

section

variable {ω : Type} {os : DirOs ω} {w : ω} {admin : Bool} {c : Cell NodeData} {node : Addr}
  {xs : List (Addr × NodeData)} {redpath : CStr}

theorem wp_addChild {Q : Bool → Heap (Cell NodeData) → Prop}
    {E : Crash → Heap (Cell NodeData) → Prop} {x : Families Bool} {loaded : Loaded}
    (hcell : h.cell node = some c)
    (hx : ∀ h', h'.cell node = some { c with firstChild := some h.next } →
      h'.cell h.next = some ⟨⟨loaded, none⟩, some node, none, c.firstChild⟩ →
      h.Extends h' [node, h.next] → wp x Q E h') :
    wp (do
      let child ← alloc { data := ⟨loaded, none⟩ }
      store child fun c => { c with parent := some node }
      let current ← load node
      store child fun c => { c with nextSibling := current.firstChild }
      store node fun c => { c with firstChild := some child }
      x) Q E h := by
  have hlt := Heap.lt_next hcell
  have hne : node ≠ h.next := Nat.ne_of_lt hlt
  rw [wp_bind]
  refine wp_alloc ?_
  rw [wp_bind]
  refine wp_store (h.cell_push_self _) ?_
  rw [wp_bind]
  refine wp_load (c := c) (by rw [Heap.cell_update_ne _ _ _ hne, h.cell_push_ne _ hne, hcell]) ?_
  rw [wp_bind]
  refine wp_store (Heap.cell_update_self ..) ?_
  rw [wp_bind]
  refine wp_store (c := c) (by rw [Heap.cell_update_ne _ _ _ hne, Heap.cell_update_ne _ _ _ hne,
    h.cell_push_ne _ hne, hcell]) ?_
  refine hx _ (Heap.cell_update_self ..) ?_ ⟨fun b hb => ?_, Nat.le_succ _⟩
  · rw [Heap.cell_update_ne _ _ _ hne.symm, Heap.cell_update_self]
  · simp only [List.mem_cons, List.not_mem_nil, or_false, not_or] at hb
    rw [Heap.cell_update_ne _ _ _ hb.1, Heap.cell_update_ne _ _ _ hb.2,
      Heap.cell_update_ne _ _ _ hb.2, h.cell_push_ne _ hb.2]

theorem childrenLoad_spec (entries : List Entry)
    (hcell : h.cell node = some { c with firstChild := (Forest.row xs).ptr })
    (hrow : h.Holds (some node) (.row xs)) (hnode : node ∉ xs.map Prod.fst) :
    wp (childrenLoad os w admin node redpath entries)
      (fun done h' => ∃ ys,
        h'.cell node = some { c with firstChild := (Forest.row (ys ++ xs)).ptr } ∧
        h'.Holds (some node) (.row (ys ++ xs)) ∧ (∀ y ∈ ys, h.next ≤ y.1) ∧
        h.Extends h' (node :: ys.map Prod.fst) ∧
        Agrees (Node.childrenLoad os w admin redpath entries (xs.map (·.2.loaded))) done
          fun children => children = (ys ++ xs).map (·.2.loaded))
      (fun e _ => Crashes (Node.childrenLoad os w admin redpath entries (xs.map (·.2.loaded))) e)
      h := by
  induction entries generalizing h xs with
  | nil => exact ⟨[], hcell, hrow, fun _ h => (by cases h), .refl h _, rfl, rfl⟩
  | cons de entries ih =>
    rw [childrenLoad, Node.childrenLoad]
    by_cases hskip : de.isDir = false ∨ isHidden de.name = true
    · rw [if_pos hskip, if_pos hskip]
      exact ih hcell hrow hnode
    rw [if_neg hskip, if_neg hskip]
    cases hload : redNodesLoad os.toFileOs w (childPath redpath de.name) admin with
    | error e =>
      cases e with
      | missing => exact ih hcell hrow hnode
      | fx => exact ⟨[], hcell, hrow, fun _ h => (by cases h), .refl h _, rfl⟩
      | fault => exact rfl
    | ok loaded =>
      refine wp_addChild hcell fun h' hnode' hchild hext => ?_
      have hfresh : ∀ b ∈ xs.map Prod.fst, b < h.next := fun b hb =>
        hrow.lt_next (by rwa [Forest.addrs_row])
      have hrow' : h'.Holds (some node) (.row ((h.next, ⟨loaded, none⟩) :: xs)) := by
        refine Heap.holds_cons.mpr ⟨hchild, Heap.holds_nil _ _, hrow.frame fun b hb => ?_,
          List.not_mem_nil, ?_, fun _ hb => (by cases hb)⟩
        · rw [Forest.addrs_row] at hb
          refine hext.frame b ?_
          simp only [List.mem_cons, List.not_mem_nil, or_false, not_or]
          exact ⟨fun hbn => hnode (hbn ▸ hb), Nat.ne_of_lt (hfresh b hb)⟩
        · rw [Forest.addrs_row]
          exact fun hb => absurd (hfresh _ hb) (Nat.lt_irrefl _)
      have hnode₁ : node ∉ ((h.next, (⟨loaded, none⟩ : NodeData)) :: xs).map Prod.fst := by
        rw [List.map_cons, List.mem_cons, not_or]
        exact ⟨Nat.ne_of_lt (Heap.lt_next hcell), hnode⟩
      have hcell' : h'.cell node = some { c with
          firstChild := (Forest.row ((h.next, ⟨loaded, none⟩) :: xs)).ptr } := hnode'
      have hrest := ih hcell' hrow' hnode₁
      refine wp_mono hrest ?_ (fun _ _ he => he)
      rintro done h'' ⟨ys, hcell'', hrow'', hys, hext', hagrees⟩
      refine ⟨ys ++ [(h.next, ⟨loaded, none⟩)], ?_, ?_, ?_, hext.trans hext' ?_ ?_, ?_⟩
      · rwa [List.append_assoc]
      · rwa [List.append_assoc]
      · intro y hy
        rcases List.mem_append.mp hy with hy | hy
        · exact Nat.le_trans hext.next (hys y hy)
        · rw [List.mem_singleton.mp hy]
      · simp
      · simp
      · rwa [List.append_assoc]

/-- Below a node without children the search leaves a forest, also when it fails. -/
def DigsAs (dig : Addr → Families Bool) (out : Loaded → Except ScanFailure NodeTree) : Prop :=
  ∀ (h : Heap (Cell NodeData)) (a : Addr) (c : Cell NodeData), h.cell a = some c →
    c.firstChild = none → wp (dig a)
      (fun done h' => ∃ f, h'.cell a = some { c with firstChild := f.ptr } ∧
        h'.Holds (some a) f ∧ (∀ b ∈ f.addrs, h.next ≤ b) ∧ h.Extends h' (a :: f.addrs) ∧
        Agrees (out c.data.loaded) done fun tree => tree = .node c.data.loaded (trees f))
      (fun e _ => Crashes (out c.data.loaded) e) h

theorem digSiblings_spec {dig : Addr → Families Bool} {out : Loaded → Except ScanFailure NodeTree}
    (hdig : DigsAs dig out) {n : Nat} (hn : xs.length ≤ n) (hrow : h.Holds parent (.row xs)) :
    wp (digSiblings dig n (Forest.row xs).ptr)
      (fun done h' => ∃ f, f.ptr = (Forest.row xs).ptr ∧ h'.Holds parent f ∧
        xs.map Prod.fst ⊆ f.addrs ∧ (∀ b ∈ f.addrs, b ∈ xs.map Prod.fst ∨ h.next ≤ b) ∧
        h.Extends h' f.addrs ∧
        Agrees (digAll out (xs.map (·.2.loaded))) done fun ts => ts = trees f)
      (fun e _ => Crashes (digAll out (xs.map (·.2.loaded))) e) h := by
  induction xs generalizing n h with
  | nil =>
    cases n <;> exact ⟨.nil, rfl, hrow, List.nil_subset _, fun _ h => (by cases h), .refl h _,
      rfl, rfl⟩
  | cons x xs ih =>
    obtain ⟨a, data⟩ := x
    obtain ⟨hcell, -, hrest, -, ha, -⟩ := Heap.holds_cons.mp hrow
    rw [Forest.addrs_row] at ha
    have hold : ∀ b ∈ xs.map Prod.fst, b < h.next := fun b hb =>
      hrest.lt_next (by rwa [Forest.addrs_row])
    have halt := Heap.lt_next hcell
    obtain ⟨n, rfl⟩ := Nat.exists_eq_add_of_le' (show 1 ≤ n from Nat.le_trans (by simp) hn)
    simp only [List.map_cons, digAll]
    rw [Forest.row, Forest.ptr_cons, digSiblings, wp_bind]
    refine wp_mono (hdig h a _ hcell rfl) ?_ fun e _ he => he.of fun _ hout => by rw [hout]
    rintro done h₁ ⟨f₁, hcell₁, hf₁, hnew₁, hext₁, hagrees₁⟩
    have hrest₁ : h₁.Holds parent (.row xs) := hrest.frame fun b hb => by
      rw [Forest.addrs_row] at hb
      refine hext₁.frame b (List.mem_cons.not.mpr (not_or.mpr ⟨fun hba => ha (hba ▸ hb), ?_⟩))
      exact fun hmem => absurd (hold b hb) (Nat.not_lt.mpr (hnew₁ b hmem))
    rcases hagrees₁.cases with ⟨tree, hout, rfl, rfl⟩ | ⟨hout, rfl⟩
    · rw [hout]
      dsimp only
      rw [if_pos rfl, wp_bind]
      refine wp_load hcell₁ (wp_mono (ih (Nat.le_of_succ_le_succ hn) hrest₁) ?_ fun e _ he =>
        he.of fun _ hout => by rw [hout])
      rintro done h₂ ⟨f₂, hptr₂, hf₂, hsub₂, hnew₂, hext₂, hagrees₂⟩
      have hgrown := hf₂.grow hf₁ (hptr₂ ▸ hcell₁) halt hold ha hnew₁ hnew₂ hext₁ hext₂
      have hsub := List.cons_subset_cons a
        (List.Subset.trans hsub₂ (List.subset_append_right f₁.addrs _))
      refine ⟨.cons a data f₁ f₂, rfl, hgrown.1, hsub, hgrown.2.1, hgrown.2.2, ?_⟩
      rcases hagrees₂.cases with ⟨ts, hall, rfl, rfl⟩ | ⟨hall, rfl⟩
      · rw [hall]
        exact ⟨rfl, rfl⟩
      · rw [hall]
        exact rfl
    · have hknown : ∀ b ∈ (Forest.row xs).addrs, b ∈ xs.map Prod.fst ∨ h₁.next ≤ b :=
        fun b hb => .inl (by rwa [Forest.addrs_row] at hb)
      have hgrown := hrest₁.grow hf₁ hcell₁ halt hold ha hnew₁ hknown hext₁ (.refl h₁ _)
      rw [hout]
      have hsub : a :: xs.map Prod.fst ⊆ (Forest.cons a data f₁ (.row xs)).addrs := by
        rw [Forest.addrs_cons, Forest.addrs_row]
        exact List.cons_subset_cons a (List.subset_append_right f₁.addrs _)
      exact ⟨.cons a data f₁ (.row xs), rfl, hgrown.1, hsub, hgrown.2.1, hgrown.2.2, rfl⟩

/-- **The downward search**: below the node it leaves a forest, which is all of the tree unless it
fails. -/
theorem digToChilds_spec (depth : Nat) : DigsAs (redNodesDigToChilds os w admin depth)
    (Node.redNodesDigToChilds os w admin depth) := by
  induction depth with
  | zero => exact fun h a c _ _ => rfl
  | succ depth ih =>
    intro h a c hcell hfirst
    have hbare : c = { c with firstChild := (Forest.row ([] : List (Addr × NodeData))).ptr } := by
      rw [Forest.row, Forest.ptr_nil, ← hfirst]
    rw [redNodesDigToChilds, Node.redNodesDigToChilds, Node.redChildrenNodesLoad, wp_bind,
      redChildrenNodesLoad, wp_bind]
    refine wp_load hcell ?_
    cases hread : os.readdir w c.data.loaded.node.redpath with
    | none => exact ⟨.nil, hbare ▸ hcell, Heap.holds_nil _ _, fun _ h => (by cases h),
        .refl h _, rfl⟩
    | some entries =>
      dsimp only
      refine wp_mono (childrenLoad_spec entries (hbare ▸ hcell) (Heap.holds_nil _ _)
        List.not_mem_nil) ?_ fun e _ he => he.of fun _ hload => by
          rw [List.map_nil] at hload
          rw [hload]
      rintro done h₁ ⟨ys, hcell₁, hrow₁, hnew₁, hext₁, hagrees₁⟩
      simp only [List.append_nil, List.map_nil] at hcell₁ hrow₁ hagrees₁
      have hnew₁' : ∀ b ∈ ys.map Prod.fst, h.next ≤ b := List.forall_mem_map.mpr hnew₁
      rcases hagrees₁.cases with ⟨children, hload, rfl, rfl⟩ | ⟨hload, rfl⟩
      swap
      · rw [hload]
        exact ⟨.row ys, hcell₁, hrow₁, by rwa [Forest.addrs_row], by rwa [Forest.addrs_row], rfl⟩
      rw [hload]
      dsimp only
      rw [if_pos rfl, wp_bind]
      refine wp_load hcell₁ ?_
      rw [wp_bind, wp_get]
      have hle : ys.length ≤ h₁.next := by simpa using hrow₁.size_le
      refine wp_mono (digSiblings_spec ih hle hrow₁) ?_ fun e _ he =>
        he.of fun _ hall => by rw [hall]
      rintro done h₂ ⟨f, hptr, hf, hsub, hnew₂, hext₂, hagrees₂⟩
      have hnew : ∀ b ∈ f.addrs, h.next ≤ b := fun b hb =>
        (hnew₂ b hb).elim (hnew₁' b) (Nat.le_trans hext₁.next)
      have ha : a ∉ f.addrs := fun hb => absurd (Heap.lt_next hcell) (Nat.not_lt.mpr (hnew a hb))
      refine ⟨f, ?_, hf, hnew, hext₁.trans hext₂ (List.cons_subset_cons a hsub)
        (List.subset_cons_self a _), ?_⟩
      · rw [hext₂.frame a ha, hcell₁, hptr]
      · rcases hagrees₂.cases with ⟨ts, hall, rfl, rfl⟩ | ⟨hall, rfl⟩
        · rw [hall]
          exact ⟨rfl, rfl⟩
        · rw [hall]
          exact rfl

end

end Families
end Node
end RedPak
