import Mathlib.Data.List.Nodup
import Mathlib.Data.List.Perm.Subperm
import Mathlib.Data.List.Lattice
import Mathlib.Logic.Function.Basic
import RedPak.Layered.Action

/-!
# Layered.Forest

Trees in a heap: every cell has links to its parent, to its first child and to its next sibling. A
`Forest` says what the cells are, and where; the trees are apart from the rest of the heap.

* `wp_alloc`, `wp_load`, `wp_store`, `wp_free`: the operations on a heap.
* `Heap.Holds`: a forest is in the heap.
* `Heap.Holds.frame`, `Heap.Extends`: what is elsewhere does not change it.
* `Heap.Holds.size_le`: a bound for all walks along the links.
-/

namespace Layered

open Layered.Action

variable {γ δ : Type}

/-! ## Heaps -/

abbrev Addr := Nat

/-- What ends a computation on a heap: an access to what is not allocated, or links without an
end. -/
inductive Crash where
  | fault
  | endless
deriving DecidableEq

/-- The addresses from `next` on have not been given away. -/
structure Heap (γ : Type) where
  cell : Addr → Option γ
  next : Nat
  fresh : ∀ a : Nat, next ≤ a → cell a = none

abbrev HeapM (γ : Type) := EStateM Crash (Heap γ)

namespace Heap

def empty : Heap γ := ⟨fun _ => none, 0, fun _ _ => rfl⟩

theorem lt_next {h : Heap γ} {a : Addr} {c : γ} (hc : h.cell a = some c) : a < h.next := by
  by_contra hle
  rw [h.fresh a (Nat.le_of_not_lt hle)] at hc
  cases hc

/-- An allocated cell gets another content, or is given back. -/
def update (h : Heap γ) (a : Addr) (c : Option γ) (ha : a < h.next) : Heap γ where
  cell := Function.update h.cell a c
  next := h.next
  fresh b hb := by
    rw [Function.update_of_ne (Nat.ne_of_gt (Nat.lt_of_lt_of_le ha hb)), h.fresh b hb]

def push (h : Heap γ) (c : γ) : Heap γ where
  cell := Function.update h.cell h.next (some c)
  next := h.next + 1
  fresh b hb := by
    rw [Function.update_of_ne (Nat.ne_of_gt hb), h.fresh b (Nat.le_of_succ_le hb)]

@[simp] theorem cell_update_self (h : Heap γ) (a : Addr) (c : Option γ) (ha : a < h.next) :
    (h.update a c ha).cell a = c := Function.update_self ..

theorem cell_update_ne (h : Heap γ) {a b : Addr} (c : Option γ) (ha : a < h.next) (hne : b ≠ a) :
    (h.update a c ha).cell b = h.cell b := Function.update_of_ne hne ..

@[simp] theorem cell_push_self (h : Heap γ) (c : γ) : (h.push c).cell h.next = some c :=
  Function.update_self ..

theorem cell_push_ne (h : Heap γ) (c : γ) {b : Addr} (hb : b ≠ h.next) :
    (h.push c).cell b = h.cell b := Function.update_of_ne hb ..

end Heap

def alloc (c : γ) : HeapM γ Addr := fun h => .ok h.next (h.push c)

def load (a : Addr) : HeapM γ γ := fun h =>
  match h.cell a with
  | some c => .ok c h
  | none => .error .fault h

def change (a : Addr) (f : γ → Option γ) : HeapM γ Unit := fun h =>
  match hc : h.cell a with
  | some c => .ok () (h.update a (f c) (Heap.lt_next hc))
  | none => .error .fault h

def store (a : Addr) (f : γ → γ) : HeapM γ Unit := change a fun c => some (f c)

/-- `free`; what is given back is not given away again. -/
def free (a : Addr) : HeapM γ Unit := change a fun _ => none

section

variable {h : Heap γ} {a : Addr} {c : γ} {E : Crash → Heap γ → Prop}

theorem wp_alloc {Q : Addr → Heap γ → Prop} (hq : Q h.next (h.push c)) : wp (alloc c) Q E h := hq

theorem load_eq (hc : h.cell a = some c) : load a h = .ok c h := by
  rw [load, hc]

theorem wp_load {Q : γ → Heap γ → Prop} (hc : h.cell a = some c) (hq : Q c h) :
    wp (load a) Q E h := by
  rw [wp, load_eq hc]
  exact hq

theorem wp_change {f : γ → Option γ} {Q : Unit → Heap γ → Prop} (hc : h.cell a = some c)
    (hq : Q () (h.update a (f c) (Heap.lt_next hc))) : wp (change a f) Q E h := by
  unfold wp change
  split <;> rename_i hrun <;> split at hrun
  · rename_i c' hc'
    obtain rfl : c' = c := Option.some.inj (hc'.symm.trans hc)
    cases hrun
    exact hq
  · cases hrun
  · cases hrun
  · rename_i hnone
    rw [hc] at hnone
    cases hnone

theorem wp_store {f : γ → γ} {Q : Unit → Heap γ → Prop} (hc : h.cell a = some c)
    (hq : Q () (h.update a (some (f c)) (Heap.lt_next hc))) : wp (store a f) Q E h :=
  wp_change hc hq

theorem wp_free {Q : Unit → Heap γ → Prop} (hc : h.cell a = some c)
    (hq : Q () (h.update a none (Heap.lt_next hc))) : wp (free a) Q E h :=
  wp_change hc hq

end

/-! ## Forests -/

structure Cell (δ : Type) where
  data : δ
  parent : Option Addr := none
  firstChild : Option Addr := none
  nextSibling : Option Addr := none

/-- Trees that are siblings: the first one, with what is below it, and those behind. -/
inductive Forest (δ : Type) where
  | nil
  | cons (a : Addr) (data : δ) (children siblings : Forest δ)

namespace Forest

/-- The link that leads to the forest. -/
def ptr : Forest δ → Option Addr
  | nil => none
  | cons a _ _ _ => some a

def addrs : Forest δ → List Addr
  | nil => []
  | cons a _ children siblings => a :: (children.addrs ++ siblings.addrs)

/-- The cells of the forest below a parent. -/
def cells (parent : Option Addr) : Forest δ → List (Addr × Cell δ)
  | nil => []
  | cons a data children siblings =>
    (a, ⟨data, parent, children.ptr, siblings.ptr⟩) ::
      (children.cells (some a) ++ siblings.cells parent)

/-- Siblings without children. -/
def row : List (Addr × δ) → Forest δ
  | [] => nil
  | x :: xs => cons x.1 x.2 nil (row xs)

/-- A node, its only child, and so on. -/
def chain : List (Addr × δ) → Forest δ
  | [] => nil
  | x :: xs => cons x.1 x.2 (chain xs) nil

@[simp] theorem ptr_nil : (nil : Forest δ).ptr = none := rfl

@[simp] theorem ptr_cons (a : Addr) (data : δ) (children siblings : Forest δ) :
    (cons a data children siblings).ptr = some a := rfl

@[simp] theorem addrs_nil : (nil : Forest δ).addrs = [] := rfl

@[simp] theorem addrs_cons (a : Addr) (data : δ) (children siblings : Forest δ) :
    (cons a data children siblings).addrs = a :: (children.addrs ++ siblings.addrs) := rfl

@[simp] theorem addrs_row (xs : List (Addr × δ)) : (row xs).addrs = xs.map Prod.fst := by
  induction xs with
  | nil => rfl
  | cons x xs ih => simp [row, ih]

@[simp] theorem addrs_chain (xs : List (Addr × δ)) : (chain xs).addrs = xs.map Prod.fst := by
  induction xs with
  | nil => rfl
  | cons x xs ih => simp [chain, ih]

theorem map_cells (parent : Option Addr) (f : Forest δ) :
    (f.cells parent).map Prod.fst = f.addrs := by
  induction f generalizing parent with
  | nil => rfl
  | cons a data children siblings ihc ihs => simp [cells, ihc, ihs]

end Forest

open Forest

namespace Heap

variable {h h' h'' : Heap (Cell δ)} {f : Forest δ} {parent : Option Addr} {a : Addr} {data : δ}
  {children siblings : Forest δ}

/-- The forest is in the heap. -/
structure Holds (h : Heap (Cell δ)) (parent : Option Addr) (f : Forest δ) : Prop where
  cells : ∀ x ∈ f.cells parent, h.cell x.1 = some x.2
  nodup : f.addrs.Nodup

theorem holds_nil (h : Heap (Cell δ)) (parent : Option Addr) : h.Holds parent .nil :=
  ⟨fun _ hx => (by cases hx), List.nodup_nil⟩

theorem holds_cons : h.Holds parent (.cons a data children siblings) ↔
    h.cell a = some ⟨data, parent, children.ptr, siblings.ptr⟩ ∧
    h.Holds (some a) children ∧ h.Holds parent siblings ∧
    a ∉ children.addrs ∧ a ∉ siblings.addrs ∧ children.addrs.Disjoint siblings.addrs := by
  constructor
  · rintro ⟨hcells, hnodup⟩
    simp only [Forest.cells, List.forall_mem_cons, List.forall_mem_append] at hcells
    simp only [addrs_cons, List.nodup_cons, List.mem_append, not_or, List.nodup_append'] at hnodup
    exact ⟨hcells.1, ⟨hcells.2.1, hnodup.2.1⟩, ⟨hcells.2.2, hnodup.2.2.1⟩, hnodup.1.1, hnodup.1.2,
      hnodup.2.2.2⟩
  · rintro ⟨hcell, hchildren, hsiblings, hc, hs, hdisjoint⟩
    refine ⟨?_, ?_⟩
    · simp only [Forest.cells, List.forall_mem_cons, List.forall_mem_append]
      exact ⟨hcell, hchildren.cells, hsiblings.cells⟩
    · simp only [addrs_cons, List.nodup_cons, List.mem_append, not_or, List.nodup_append']
      exact ⟨⟨hc, hs⟩, hchildren.nodup, hsiblings.nodup, hdisjoint⟩

theorem Holds.exists_cell (hf : h.Holds parent f) (ha : a ∈ f.addrs) :
    ∃ c, h.cell a = some c := by
  rw [← map_cells parent, List.mem_map] at ha
  obtain ⟨x, hx, rfl⟩ := ha
  exact ⟨x.2, hf.cells x hx⟩

theorem Holds.lt_next (hf : h.Holds parent f) (ha : a ∈ f.addrs) : a < h.next :=
  have ⟨_, hc⟩ := hf.exists_cell ha
  Heap.lt_next hc

theorem Holds.frame (hf : h.Holds parent f) (hsame : ∀ a ∈ f.addrs, h'.cell a = h.cell a) :
    h'.Holds parent f := by
  refine ⟨fun x hx => ?_, hf.nodup⟩
  have hmem : x.1 ∈ f.addrs := map_cells parent f ▸ List.mem_map_of_mem hx
  rw [hsame x.1 hmem, hf.cells x hx]

/-- Along the links of a forest there are no more cells than addresses have been given away. -/
theorem Holds.size_le (hf : h.Holds parent f) : f.addrs.length ≤ h.next := by
  have hsub : f.addrs ⊆ List.range h.next := fun a ha => List.mem_range.mpr (hf.lt_next ha)
  have hle := (hf.nodup.subperm hsub).length_le
  rwa [List.length_range] at hle

/-- Nothing but these cells has changed, and addresses are given away only once. -/
structure Extends (h h' : Heap γ) (as : List Addr) : Prop where
  frame : ∀ b, b ∉ as → h'.cell b = h.cell b
  next : h.next ≤ h'.next

theorem Extends.refl (h : Heap γ) (as : List Addr) : h.Extends h as :=
  ⟨fun _ _ => rfl, Nat.le_refl _⟩

theorem Extends.trans {h h' h'' : Heap γ} {as bs cs : List Addr} (h₁ : h.Extends h' as)
    (h₂ : h'.Extends h'' bs) (has : as ⊆ cs) (hbs : bs ⊆ cs) : h.Extends h'' cs :=
  ⟨fun b hb => (h₂.frame b fun hmem => hb (hbs hmem)).trans
    (h₁.frame b fun hmem => hb (has hmem)), Nat.le_trans h₁.next h₂.next⟩

/-- One sibling after the other: below the first of them a forest of new cells has grown, and then
those behind, which were at known addresses, have got new cells, too. -/
theorem Holds.grow {f₁ f₂ : Forest δ} {as : List Addr} (hf₂ : h''.Holds parent f₂)
    (hf₁ : h'.Holds (some a) f₁) (hcell : h'.cell a = some ⟨data, parent, f₁.ptr, f₂.ptr⟩)
    (ha : a < h.next) (has : ∀ b ∈ as, b < h.next) (hne : a ∉ as)
    (hnew₁ : ∀ b ∈ f₁.addrs, h.next ≤ b) (hnew₂ : ∀ b ∈ f₂.addrs, b ∈ as ∨ h'.next ≤ b)
    (h₁ : h.Extends h' (a :: f₁.addrs)) (h₂ : h'.Extends h'' f₂.addrs) :
    h''.Holds parent (.cons a data f₁ f₂) ∧
      (∀ b ∈ (Forest.cons a data f₁ f₂).addrs, b ∈ a :: as ∨ h.next ≤ b) ∧
      h.Extends h'' (Forest.cons a data f₁ f₂).addrs := by
  have hnot₁ : a ∉ f₁.addrs := fun hb => absurd ha (Nat.not_lt.mpr (hnew₁ a hb))
  have hnot₂ : a ∉ f₂.addrs := fun hb =>
    (hnew₂ a hb).elim hne fun hle => absurd (Heap.lt_next hcell) (Nat.not_lt.mpr hle)
  have hdisjoint : f₁.addrs.Disjoint f₂.addrs := fun b hb hb' => by
    rcases hnew₂ b hb' with hmem | hle
    · exact absurd (has b hmem) (Nat.not_lt.mpr (hnew₁ b hb))
    · exact absurd (hf₁.lt_next hb) (Nat.not_lt.mpr hle)
  have hcell' := (h₂.frame a hnot₂).trans hcell
  have hf₁' := hf₁.frame fun b hb => h₂.frame b (hdisjoint hb)
  refine ⟨holds_cons.mpr ⟨hcell', hf₁', hf₂, hnot₁, hnot₂, hdisjoint⟩, fun b hb => ?_,
    h₁.trans h₂ ?_ ?_⟩
  · rcases List.mem_cons.mp hb with rfl | hb
    · exact .inl List.mem_cons_self
    rcases List.mem_append.mp hb with hb | hb
    · exact .inr (hnew₁ b hb)
    · exact (hnew₂ b hb).imp (List.mem_cons_of_mem _) (Nat.le_trans h₁.next)
  · exact List.cons_subset_cons a (List.subset_append_left _ _)
  · exact List.subset_cons_of_subset a (List.subset_append_right _ _)

/-- These cells are given back, and nothing else has changed. -/
structure Releases (h h' : Heap γ) (as : List Addr) : Prop where
  gone : ∀ a ∈ as, h'.cell a = none
  others : ∀ b, b ∉ as → h'.cell b = h.cell b
  next : h'.next = h.next

theorem releases_nil (h : Heap γ) : h.Releases h [] :=
  ⟨fun _ ha => (by cases ha), fun _ _ => rfl, rfl⟩

theorem Releases.trans {h h' h'' : Heap γ} {as bs : List Addr} (h₁ : h.Releases h' as)
    (h₂ : h'.Releases h'' bs) : h.Releases h'' (as ++ bs) where
  gone a ha := by
    by_cases hb : a ∈ bs
    · exact h₂.gone a hb
    · rw [h₂.others a hb]
      exact h₁.gone a ((List.mem_append.mp ha).resolve_right hb)
  others b hb := by
    rw [List.mem_append, not_or] at hb
    exact (h₂.others b hb.2).trans (h₁.others b hb.1)
  next := h₂.next.trans h₁.next

theorem Releases.congr {h h' : Heap γ} {as bs : List Addr} (hr : h.Releases h' as)
    (hmem : ∀ a, a ∈ as ↔ a ∈ bs) : h.Releases h' bs :=
  ⟨fun a ha => hr.gone a ((hmem a).mpr ha), fun b hb => hr.others b ((hmem b).not.mpr hb), hr.next⟩

theorem extends_new (h : Heap γ) (c d : γ) (hlt : h.next < (h.push c).next) :
    h.Extends ((h.push c).update h.next (some d) hlt) [h.next] :=
  ⟨fun b hb => by
    rw [List.mem_singleton] at hb
    rw [cell_update_ne _ _ _ hb, cell_push_ne _ _ hb], Nat.le_succ _⟩

theorem Extends.restored {h h' h'' : Heap γ} {as : List Addr} (h₁ : h.Extends h' as)
    (hnew : ∀ a ∈ as, h.next ≤ a) (h₂ : h'.Releases h'' as) : h''.cell = h.cell := by
  funext b
  by_cases hb : b ∈ as
  · rw [h₂.gone b hb, h.fresh b (hnew b hb)]
  · rw [h₂.others b hb, h₁.frame b hb]

theorem Extends.mem_of_ne {h h' : Heap γ} {as : List Addr} (h₁ : h.Extends h' as) {b : Addr}
    (hb : h'.cell b ≠ h.cell b) : b ∈ as :=
  Classical.byContradiction fun hnot => hb (h₁.frame b hnot)

theorem releases_update (h : Heap γ) {a : Addr} (ha : a < h.next) :
    h.Releases (h.update a none ha) [a] :=
  ⟨fun b hb => by rw [List.mem_singleton.mp hb, cell_update_self],
    fun _ hb => cell_update_ne _ _ _ (List.mem_singleton.not.mp hb), rfl⟩

end Heap

theorem wp_alloc_store {β : Type} {h : Heap γ} {c : γ} {f : Addr → γ → γ}
    {x : Addr → HeapM γ β} {Q : β → Heap γ → Prop} {E : Crash → Heap γ → Prop}
    (hx : ∀ h', h'.cell h.next = some (f h.next c) → h.Extends h' [h.next] → wp (x h.next) Q E h') :
    wp (do
      let a ← alloc c
      store a (f a)
      x a) Q E h := by
  rw [wp_bind]
  refine wp_alloc ?_
  rw [wp_bind]
  exact wp_store (h.cell_push_self c) (hx _ (Heap.cell_update_self ..) (h.extends_new c _ _))

end Layered
