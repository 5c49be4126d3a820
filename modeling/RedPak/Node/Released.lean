import RedPak.Node.Families

/-!
# Node.Released

What a scan has allocated, and what becomes of it.

* `familyIn_chain`: the links to the parents lead through the family.
* `redNodesScan_released`: an upward scan leaves a family or nothing, and a family is given back
  from any of its nodes.
* `redNodesDownScan_released`: a downward scan leaves a tree. One that fails leaves the part that it
  has loaded, which nothing leads to any more.
-/

namespace RedPak
namespace Node

open Conf Layered Layered.Action

namespace Families

variable {h h' : Heap (Cell NodeData)} {data : NodeData} {xs : List (Addr × NodeData)}
  {loadNode : CStr → Except NotLoaded Loaded} {leafNode childNode : Addr}

/-! ## The upward scan -/

def dugOut (dug : Dug) : Except ScanFailure (List Loaded) :=
  match dug.result with
  | .done => .ok dug.parents
  | .error => .error .error
  | .fault => .error .fault

theorem dugOut_after (path : List UInt8) (found : List Loaded) (dug : Dug) :
    dugOut (dug.after path found) = (dugOut dug).map (found ++ ·) := by
  obtain ⟨result, tried, parents⟩ := dug
  cases result <;> rfl

theorem wp_addParent {Q : Bool → Heap (Cell NodeData) → Prop}
    {E : Crash → Heap (Cell NodeData) → Prop} {c : Cell NodeData} {x : Addr → Families Bool}
    {loaded : Loaded} (hcell : h.cell childNode = some c)
    (hx : ∀ h', h'.cell childNode = some { c with parent := some h.next } →
      h'.cell h.next = some ⟨⟨loaded, some leafNode⟩, none, some childNode, none⟩ →
      h.Extends h' [h.next, childNode] → wp (x h.next) Q E h') :
    wp (do
      let parentNode ← alloc { data := ⟨loaded, none⟩ }
      store childNode fun c => { c with parent := some parentNode }
      store parentNode fun c => { c with firstChild := some childNode }
      store parentNode fun c => { c with data := { c.data with leaf := some leafNode } }
      x parentNode) Q E h := by
  have hne : childNode ≠ h.next := Nat.ne_of_lt (Heap.lt_next hcell)
  rw [wp_bind]
  refine wp_alloc ?_
  rw [wp_bind]
  refine wp_store ((h.cell_push_ne _ hne).trans hcell) ?_
  rw [wp_bind]
  refine wp_store ((Heap.cell_update_ne _ _ _ hne.symm).trans (h.cell_push_self _)) ?_
  rw [wp_bind]
  refine wp_store (Heap.cell_update_self ..) ?_
  refine hx _ ?_ (Heap.cell_update_self ..) ⟨fun b hb => ?_, Nat.le_succ _⟩
  · rw [Heap.cell_update_ne _ _ _ hne, Heap.cell_update_ne _ _ _ hne, Heap.cell_update_self]
  · simp only [List.mem_cons, List.not_mem_nil, or_false, not_or] at hb
    rw [Heap.cell_update_ne _ _ _ hb.1, Heap.cell_update_ne _ _ _ hb.1,
      Heap.cell_update_ne _ _ _ hb.2, h.cell_push_ne _ hb.1]

theorem digToRoot_eq (s : List UInt8) : Node.digToRoot loadNode s =
    match popDownRedpath s with
    | none => ⟨.fault, [], []⟩
    | some (index, path) =>
      if index ≤ 1 then ⟨.done, [], []⟩
      else
        match loadNode (CStr.ofBytes path) with
        | .ok parent => (Node.digToRoot loadNode path).after path [parent]
        | .error .missing => (Node.digToRoot loadNode path).after path []
        | .error .fx => ⟨.error, [path], []⟩
        | .error .fault => ⟨.fault, [path], []⟩ := by
  rw [Node.digToRoot]
  split
  · rename_i hpop
    exact hpop ▸ rfl
  · rename_i hpop
    exact hpop ▸ rfl

/-- **The walk to the root** puts a chain of new nodes on top, also when it fails. -/
theorem digToRoot_spec (s : List UInt8)
    (hchain : h.Holds none (.chain ((childNode, data) :: xs))) :
    wp (digToRoot loadNode leafNode s childNode)
      (fun done h' => ∃ ys, h'.Holds none (.chain (ys ++ (childNode, data) :: xs)) ∧
        (∀ y ∈ ys, h.next ≤ y.1 ∧ y.2.leaf = some leafNode) ∧
        h.Extends h' (ys.map Prod.fst ++ [childNode]) ∧
        Agrees (dugOut (Node.digToRoot loadNode s)) done fun parents =>
          ys.map (·.2.loaded) = parents.reverse)
      (fun e _ => Crashes (dugOut (Node.digToRoot loadNode s)) e) h := by
  induction hlen : s.length using Nat.strong_induction_on
    generalizing s h data xs childNode with
  | _ n ih =>
    subst hlen
    obtain ⟨hcell, hrest, -, hnot, -, -⟩ := Heap.holds_cons.mp hchain
    rw [digToRoot_eq, digToRoot]
    split <;> rename_i hpop <;> rw [hpop]
    · exact rfl
    rename_i index path
    have hlt := popDownRedpath_length hpop
    dsimp only
    by_cases hindex : index ≤ 1
    · rw [if_pos hindex, if_pos hindex, wp_bind]
      refine wp_store hcell ⟨[], ?_, fun _ h => (by cases h), ⟨fun b hb => ?_, Nat.le_refl _⟩,
        rfl, rfl⟩
      · refine Heap.holds_cons.mpr ⟨Heap.cell_update_self .., hrest.frame fun b hb => ?_,
          Heap.holds_nil _ _, hnot, List.not_mem_nil, fun _ _ hb => (by cases hb)⟩
        exact Heap.cell_update_ne _ _ _ fun hba => hnot (hba ▸ hb)
      · exact Heap.cell_update_ne _ _ _ (List.mem_singleton.not.mp hb)
    rw [if_neg hindex, if_neg hindex]
    cases hload : loadNode (CStr.ofBytes path) with
    | error e =>
      cases e with
      | missing =>
        dsimp only
        rw [dugOut_after]
        have hsame : (dugOut (Node.digToRoot loadNode path)).map ([] ++ ·) =
            dugOut (Node.digToRoot loadNode path) := by
          cases dugOut (Node.digToRoot loadNode path) <;> rfl
        rw [hsame]
        exact ih path.length hlt path hchain rfl
      | fx => exact ⟨[], hchain, fun _ h => (by cases h), .refl h _, rfl⟩
      | fault => exact rfl
    | ok loaded =>
      dsimp only
      rw [dugOut_after]
      refine wp_addParent hcell fun h₁ hcell₁ htop₁ hext₁ => ?_
      have hrest₁ : h₁.Holds (some childNode) (.chain xs) := hrest.frame fun b hb => by
        refine hext₁.frame b ?_
        simp only [List.mem_cons, List.not_mem_nil, or_false, not_or]
        exact ⟨Nat.ne_of_lt (hrest.lt_next hb), fun hba => hnot (hba ▸ hb)⟩
      have hchain₁ : h₁.Holds none (.chain ((h.next, ⟨loaded, some leafNode⟩) ::
          (childNode, data) :: xs)) :=
        Heap.holds_cons.mpr ⟨htop₁, Heap.holds_cons.mpr ⟨hcell₁, hrest₁, Heap.holds_nil _ _, hnot,
          List.not_mem_nil, fun _ _ hb => (by cases hb)⟩, Heap.holds_nil _ _,
          fun hb => absurd (hchain.lt_next hb) (Nat.lt_irrefl _), List.not_mem_nil,
          fun _ _ hb => (by cases hb)⟩
      refine wp_mono (ih path.length hlt path hchain₁ rfl) ?_ fun e _ he => he.of fun _ hout => by
        rw [hout]
        rfl
      rintro done h₂ ⟨ys, hchain₂, hys, hext₂, hagrees⟩
      refine ⟨ys ++ [(h.next, ⟨loaded, some leafNode⟩)], by rwa [List.append_assoc], ?_, ?_, ?_⟩
      · rintro y hy
        rcases List.mem_append.mp hy with hy | hy
        · exact ⟨Nat.le_trans hext₁.next (hys y hy).1, (hys y hy).2⟩
        · rw [List.mem_singleton.mp hy]
          exact ⟨Nat.le_refl _, rfl⟩
      · exact hext₁.trans hext₂ (by simp) (by simp)
      · rcases hagrees.cases with ⟨parents, hout, rfl, hparents⟩ | ⟨hout, rfl⟩
        · rw [hout]
          refine ⟨rfl, ?_⟩
          rw [List.map_append, hparents]
          simp
        · rw [hout]
          exact rfl

theorem familyIn_chain {parent : Option Addr} (hchain : h.Holds parent (.chain xs)) {a : Addr}
    (hlast : xs.getLast? = some (a, data)) {n : Nat} {rest : List NodeData}
    (hrest : familyIn n parent h = .ok rest h) :
    familyIn (n + xs.length) (some a) h = .ok ((xs.map Prod.snd).reverse ++ rest) h := by
  induction xs generalizing parent n rest with
  | nil => cases hlast
  | cons x xs ih =>
    obtain ⟨hcell, hbelow, -⟩ := Heap.holds_cons.mp hchain
    have htop : familyIn (n + 1) (some x.1) h = .ok (x.2 :: rest) h := by
      rw [familyIn, bind_of_ok (load_eq hcell), bind_of_ok hrest]
      rfl
    cases xs with
    | nil =>
      cases hlast
      exact htop
    | cons y ys =>
      have hlow := ih hbelow (by rwa [List.getLast?_cons_cons] at hlast) htop
      rw [Nat.add_assoc, Nat.add_comm 1] at hlow
      rw [List.length_cons, hlow]
      simp

/-- A family in memory, the root first: its cells are new, and all that is new. -/
structure Scanned (h h' : Heap (Cell NodeData)) (redleaf : Addr) (nodes : List (Addr × NodeData)) :
    Prop where
  holds : h'.Holds none (.chain nodes)
  changed : h.Extends h' (nodes.map Prod.fst)
  fresh : ∀ x ∈ nodes, h.next ≤ x.1
  leaves : ∀ x ∈ nodes, x.2.leaf = some redleaf
  last : ∃ data, nodes.getLast? = some (redleaf, data)

theorem Scanned.freeRedLeaf {redleaf b : Addr} {nodes : List (Addr × NodeData)}
    (hs : Scanned h h' redleaf nodes) (hb : b ∈ nodes.map Prod.fst) :
    wp (freeRedLeaf (some b)) (fun _ h'' => h''.cell = h.cell) (fun _ _ => False) h' := by
  cases nodes with
  | nil => cases hb
  | cons x xs =>
    have hfree := freeRedLeaf_spec hs.holds (by rwa [Forest.addrs_chain])
    rw [Forest.addrs_chain] at hfree
    exact wp_mono hfree (fun _ _ hreleases => hs.changed.restored
      (List.forall_mem_map.mpr hs.fresh) hreleases) (fun _ _ h => h)

theorem redNodesScan_spec (loadNode : CStr → Except NotLoaded Loaded) (redpath : CStr)
    (h : Heap (Cell NodeData)) :
    wp (redNodesScan loadNode redpath)
      (fun found h' => match found with
        | none => Node.redNodesScan loadNode redpath = some none ∧ h'.cell = h.cell
        | some redleaf => ∃ leaf parents nodes,
          Node.redNodesScan loadNode redpath = some (some (withLeaf leaf parents)) ∧
          Scanned h h' redleaf nodes ∧
          (nodes.map (·.2.loaded.node)).reverse = leaf :: parents)
      (fun e _ => e = .fault ∧ Node.redNodesScan loadNode redpath = none) h := by
  rw [redNodesScan, Node.redNodesScan]
  cases hload : loadNode redpath with
  | error e => cases e <;> exact ⟨rfl, rfl⟩
  | ok leaf =>
    dsimp only
    refine wp_alloc_store fun h₁ hcell₁ hext₁ => ?_
    have hchain₁ : h₁.Holds none (.chain [(h.next, ⟨leaf, some h.next⟩)]) :=
      Heap.holds_cons.mpr ⟨hcell₁, Heap.holds_nil _ _, Heap.holds_nil _ _, List.not_mem_nil,
        List.not_mem_nil, fun _ hb => (by cases hb)⟩
    have hspec := @digToRoot_spec _ _ _ loadNode h.next h.next
      (redpath.bytes.take redMaxpathlen) hchain₁
    rw [wp_bind]
    refine wp_mono hspec ?_ ?_
    · rintro done h₂ ⟨ys, hchain₂, hys, hext₂, hagrees⟩
      have hscanned : Scanned h h₂ h.next (ys ++ [(h.next, ⟨leaf, some h.next⟩)]) := by
        refine ⟨hchain₂, hext₁.trans hext₂ (by simp) (by simp), fun x hx => ?_, fun x hx => ?_, ?_⟩
        · rcases List.mem_append.mp hx with hx | hx
          · exact Nat.le_trans hext₁.next (hys x hx).1
          · rw [List.mem_singleton.mp hx]
        · rcases List.mem_append.mp hx with hx | hx
          · exact (hys x hx).2
          · rw [List.mem_singleton.mp hx]
        · exact ⟨_, List.getLast?_concat⟩
      change Agrees (dugOut (Node.redNodesDigToRoot loadNode redpath)) _ _ at hagrees
      generalize Node.redNodesDigToRoot loadNode redpath = dug at hagrees ⊢
      obtain ⟨result, tried, parents⟩ := dug
      cases result with
      | done =>
        obtain ⟨rfl, hparents⟩ := hagrees
        rw [if_pos rfl]
        refine ⟨leaf.node, parents.map (·.node), _, rfl, hscanned, ?_⟩
        have hnodes : ys.map (·.2.loaded.node) = (parents.map (·.node)).reverse := by
          rw [← List.map_reverse, ← hparents, List.map_map]
          rfl
        simp [hnodes]
      | error =>
        obtain rfl : done = false := hagrees
        rw [if_neg (by decide), wp_bind]
        refine wp_mono (hscanned.freeRedLeaf (by simp)) ?_ (fun _ _ h => h.elim)
        exact fun _ _ hcells => ⟨rfl, hcells⟩
      | fault => exact hagrees.elim
    · intro e _ he
      change Crashes (dugOut (Node.redNodesDigToRoot loadNode redpath)) e at he
      generalize Node.redNodesDigToRoot loadNode redpath = dug at he ⊢
      obtain ⟨result, tried, parents⟩ := dug
      cases result <;> cases e <;> cases he
      exact ⟨rfl, rfl⟩

/-- **The life of a family.** A scan upwards ends as it does without a memory: in a fault; or
without a node, and then nothing stays allocated; or with the leaf of a family. From the leaf the
links to the parents lead through the family, up to its root, and all of its nodes have a link to
the leaf. From any of the nodes that are new `freeRedLeaf` gives back what the scan has allocated.
-/
theorem redNodesScan_released (loadNode : CStr → Except NotLoaded Loaded) (redpath : CStr)
    (h : Heap (Cell NodeData)) :
    match Node.redNodesScan loadNode redpath with
    | none => ∃ h', redNodesScan loadNode redpath h = .error .fault h'
    | some none => ∃ h', redNodesScan loadNode redpath h = .ok none h' ∧ h'.cell = h.cell
    | some (some family) => ∃ redleaf h' nodes leaf parents,
      redNodesScan loadNode redpath h = .ok (some redleaf) h' ∧
      familyFrom (some redleaf) h' = .ok nodes h' ∧
      nodes.map (·.loaded.node) = leaf :: parents ∧ family = withLeaf leaf parents ∧
      (∀ n ∈ nodes, n.leaf = some redleaf) ∧
      ∀ b, h'.cell b ≠ h.cell b →
        ∃ h'', freeRedLeaf (some b) h' = .ok () h'' ∧ h''.cell = h.cell := by
  have hspec := redNodesScan_spec loadNode redpath h
  cases hrun : redNodesScan loadNode redpath h with
  | error e h' =>
    obtain ⟨rfl, hnone⟩ := wp_error hspec hrun
    rw [hnone]
    exact ⟨h', rfl⟩
  | ok found h' =>
    have hok := wp_ok hspec hrun
    cases found with
    | none =>
      rw [hok.1]
      exact ⟨h', rfl, hok.2⟩
    | some redleaf =>
      obtain ⟨leaf, parents, xs, hfamily, hscanned, hnodes⟩ := hok
      obtain ⟨data, hlast⟩ := hscanned.last
      rw [hfamily]
      have hsize : xs.length ≤ h'.next := by simpa using hscanned.holds.size_le
      have hread : familyIn (h'.next - xs.length + xs.length) (some redleaf) h' =
          .ok ((xs.map Prod.snd).reverse ++ []) h' :=
        familyIn_chain hscanned.holds hlast (by cases h'.next - xs.length <;> rfl)
      rw [Nat.sub_add_cancel hsize, List.append_nil] at hread
      refine ⟨redleaf, h', (xs.map Prod.snd).reverse, leaf, parents, rfl, hread, ?_, rfl, ?_, ?_⟩
      · rw [List.map_reverse, List.map_map]
        exact hnodes
      · intro n hn
        obtain ⟨x, hx, rfl⟩ := List.mem_map.mp (List.mem_reverse.mp hn)
        exact hscanned.leaves x hx
      · intro b hb
        have hmem := hscanned.changed.mem_of_ne hb
        obtain ⟨_, h'', hrun', hcells⟩ := exists_ok (hscanned.freeRedLeaf hmem)
        exact ⟨h'', hrun', hcells⟩

/-! ## The downward scan -/

section

variable {ω : Type} {os : DirOs ω} {w : ω} {admin : Bool}

/-- A tree in memory: its cells are new, and all that is new. -/
structure Grown (h h' : Heap (Cell NodeData)) (root : Addr) (data : NodeData)
    (f : Forest NodeData) : Prop where
  holds : h'.Holds none (.cons root data f .nil)
  changed : h.Extends h' (root :: f.addrs)
  fresh : ∀ b ∈ root :: f.addrs, h.next ≤ b

theorem Grown.freeRedRoot {root : Addr} {f : Forest NodeData} (hg : Grown h h' root data f) :
    ∃ h'', freeRedRoot (some root) h' = .ok () h'' ∧ h''.cell = h.cell := by
  obtain ⟨_, h'', hrun, hreleases⟩ := exists_ok (freeRedRoot_spec hg.holds)
  exact ⟨h'', hrun, hg.changed.restored hg.fresh hreleases⟩

theorem Grown.cell_ne {root : Addr} {f : Forest NodeData} (hg : Grown h h' root data f) :
    h'.cell ≠ h.cell := fun hcells => by
  have hroot := (Heap.holds_cons.mp hg.holds).1
  rw [hcells, h.fresh root (hg.fresh root List.mem_cons_self)] at hroot
  cases hroot

theorem redNodesDownScan_spec (redroot : CStr) (h : Heap (Cell NodeData)) :
    wp (redNodesDownScan os w admin redroot)
      (fun found h' =>
        (found = none ∧ Node.redNodesDownScan os w admin redroot = .error .error ∧
          h'.cell = h.cell ∧ ∀ root, redNodesLoad os.toFileOs w redroot admin ≠ .ok root) ∨
        ∃ root loaded f, redNodesLoad os.toFileOs w redroot admin = .ok loaded ∧
          Grown h h' root ⟨loaded, none⟩ f ∧
          (found = none ∧ Node.redNodesDownScan os w admin redroot = .error .error ∨
            found = some root ∧
              Node.redNodesDownScan os w admin redroot = .ok (.node loaded (trees f))))
      (fun e _ => Crashes (Node.redNodesDownScan os w admin redroot) e) h := by
  rw [redNodesDownScan, Node.redNodesDownScan]
  cases hload : redNodesLoad os.toFileOs w redroot admin with
  | error e =>
    cases e with
    | fault => exact rfl
    | fx => exact .inl ⟨rfl, rfl, rfl, fun _ h => (by cases h)⟩
    | missing => exact .inl ⟨rfl, rfl, rfl, fun _ h => (by cases h)⟩
  | ok root =>
    dsimp only
    refine wp_alloc_store fun h₁ hcell₁ hext₁ => ?_
    rw [wp_bind]
    refine wp_mono (digToChilds_spec redMaxpathlen h₁ h.next _ hcell₁ rfl) ?_ (fun _ _ h => h)
    rintro done h₂ ⟨f, hcell₂, hf, hnew, hext₂, hagrees⟩
    have hnot : h.next ∉ f.addrs := fun hb =>
      absurd (Heap.lt_next hcell₁) (Nat.not_lt.mpr (hnew _ hb))
    have hgrown : Grown h h₂ h.next ⟨root, none⟩ f := by
      refine ⟨Heap.holds_cons.mpr ⟨hcell₂, hf, Heap.holds_nil _ _, hnot, List.not_mem_nil,
        fun _ _ hb => (by cases hb)⟩, hext₁.trans hext₂ (by simp) (List.Subset.refl _), ?_⟩
      refine List.forall_mem_cons.mpr ⟨Nat.le_refl _, fun b hb => ?_⟩
      exact Nat.le_trans hext₁.next (hnew b hb)
    rcases hagrees.cases with ⟨tree, hout, rfl, rfl⟩ | ⟨hout, rfl⟩
    · exact .inr ⟨h.next, root, f, rfl, hgrown, .inr ⟨rfl, hout⟩⟩
    · exact .inr ⟨h.next, root, f, rfl, hgrown, .inl ⟨rfl, hout⟩⟩

/-- **The life of a tree.** A downward scan ends as it does without a memory. The tree that it
leaves is given back from any of its nodes. When it fails behind its first node, what has been
loaded stays allocated, as a tree that `freeRedRoot` would have given back. -/
theorem redNodesDownScan_released (redroot : CStr) (h : Heap (Cell NodeData)) :
    match Node.redNodesDownScan os w admin redroot with
    | .ok tree => ∃ root h' f, redNodesDownScan os w admin redroot h = .ok (some root) h' ∧
      f.ptr = some root ∧ h'.Holds none f ∧ trees f = [tree] ∧
      ∀ b, h'.cell b ≠ h.cell b →
        ∃ h'', freeRedLeaf (some b) h' = .ok () h'' ∧ h''.cell = h.cell
    | .error .error => ∃ h', redNodesDownScan os w admin redroot h = .ok none h' ∧
      (h'.cell = h.cell ↔ ∀ root, redNodesLoad os.toFileOs w redroot admin ≠ .ok root) ∧
      (h'.cell ≠ h.cell → ∃ root h'', freeRedRoot (some root) h' = .ok () h'' ∧
        h''.cell = h.cell)
    | .error .fault => ∃ h', redNodesDownScan os w admin redroot h = .error .fault h'
    | .error .endless => False := by
  have hspec := @redNodesDownScan_spec ω os w admin redroot h
  cases hrun : redNodesDownScan os w admin redroot h with
  | error e h' =>
    have he := wp_error hspec hrun
    cases e with
    | fault =>
      rw [show Node.redNodesDownScan os w admin redroot = .error .fault from he]
      exact ⟨h', rfl⟩
    | endless => exact absurd he (redNodesDownScan_ends redroot)
  | ok found h' =>
    rcases wp_ok hspec hrun with ⟨rfl, hout, hcells, hload⟩ | ⟨root, loaded, f, hload, hgrown, hend⟩
    · rw [hout]
      exact ⟨h', rfl, iff_of_true hcells hload, fun hne => absurd hcells hne⟩
    rcases hend with ⟨rfl, hout⟩ | ⟨rfl, hout⟩
    · rw [hout]
      exact ⟨h', rfl, iff_of_false hgrown.cell_ne fun hnot => hnot loaded hload,
        fun _ => ⟨root, hgrown.freeRedRoot⟩⟩
    · rw [hout]
      refine ⟨root, h', _, rfl, rfl, hgrown.holds, rfl, fun b hb => ?_⟩
      obtain ⟨_, h'', hrun', hreleases⟩ :=
        exists_ok (freeRedLeaf_spec hgrown.holds (hgrown.changed.mem_of_ne hb))
      exact ⟨h'', hrun', hgrown.changed.restored hgrown.fresh hreleases⟩

end

end Families
end Node
end RedPak
