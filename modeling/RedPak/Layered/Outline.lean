import Mathlib.Data.List.Basic
import RedPak.Layered.Lines

/-!
# Layered.Outline

Trees of labels, and their rows: what is listed when a tree is printed from its root, each label
with its depth.

* `rows_injective`: the rows determine the trees.
* `append_sep_unique`, `append_sep_unique_last`: a text is cut at its first or at its last separator
  in one way.
-/

namespace Layered

variable {α : Type*}

/-- Trees that are siblings: the first one, with what is below it, and those behind. -/
inductive Outline (α : Type*) where
  | nil
  | cons (label : α) (children siblings : Outline α)
deriving DecidableEq

namespace Outline

def isNil : Outline α → Bool
  | nil => true
  | cons .. => false

def labels : Outline α → List α
  | nil => []
  | cons label children siblings => label :: (children.labels ++ siblings.labels)

def rows (depth : Nat) : Outline α → List (Nat × α)
  | nil => []
  | cons label children siblings =>
    (depth, label) :: (children.rows (depth + 1) ++ siblings.rows depth)

theorem le_rows {depth : Nat} {o : Outline α} : ∀ row ∈ o.rows depth, depth ≤ row.1 := by
  induction o generalizing depth with
  | nil => exact fun _ h => by cases h
  | cons label children siblings ihc ihs =>
    intro row hrow
    rcases List.mem_cons.mp hrow with rfl | hrow
    · exact Nat.le_refl depth
    rcases List.mem_append.mp hrow with hrow | hrow
    · exact Nat.le_of_succ_le (ihc row hrow)
    · exact ihs row hrow

theorem takeWhile_rows (depth : Nat) (children siblings : Outline α) :
    (children.rows (depth + 1) ++ siblings.rows depth).takeWhile (fun row => depth < row.1) =
      children.rows (depth + 1) := by
  have hdeep : ∀ row ∈ children.rows (depth + 1), decide (depth < row.1) = true :=
    fun row hrow => decide_eq_true (le_rows row hrow)
  rw [List.takeWhile_append_of_pos hdeep]
  cases siblings <;> simp [rows]

/-- **The rows determine the trees.** -/
theorem rows_injective {depth : Nat} {o o' : Outline α} (h : o.rows depth = o'.rows depth) :
    o = o' := by
  induction o generalizing depth o' with
  | nil => cases o' with
    | nil => rfl
    | cons label' children' siblings' => cases h
  | cons label children siblings ihc ihs =>
    cases o' with
    | nil => cases h
    | cons label' children' siblings' =>
      rw [rows, rows] at h
      obtain ⟨hrow, hrest⟩ := List.cons.inj h
      have hchildren := takeWhile_rows depth children siblings
      rw [hrest, takeWhile_rows] at hchildren
      rw [← hchildren] at hrest
      have hsiblings := List.append_cancel_left hrest
      rw [(Prod.mk.inj hrow).2, ihc hchildren.symm, ihs hsiblings]

end Outline

theorem append_sep_unique {sep : α} {pre pre' post post' : List α} (h : sep ∉ pre)
    (h' : sep ∉ pre') (heq : pre ++ sep :: post = pre' ++ sep :: post') :
    pre = pre' ∧ post = post' := by
  induction pre generalizing pre' with
  | nil =>
    cases pre' with
    | nil => exact ⟨rfl, (List.cons.inj heq).2⟩
    | cons c pre' => exact absurd ((List.cons.inj heq).1 ▸ List.mem_cons_self) h'
  | cons c pre ih =>
    cases pre' with
    | nil => exact absurd ((List.cons.inj heq).1 ▸ List.mem_cons_self) h
    | cons c' pre' =>
      obtain ⟨hc, hrest⟩ := List.cons.inj heq
      rw [List.mem_cons, not_or] at h h'
      obtain ⟨hpre, hpost⟩ := ih h.2 h'.2 hrest
      exact ⟨by rw [hc, hpre], hpost⟩

theorem append_sep_unique_last {sep : α} {pre pre' post post' : List α} (h : sep ∉ post)
    (h' : sep ∉ post') (heq : pre ++ sep :: post = pre' ++ sep :: post') :
    pre = pre' ∧ post = post' := by
  have hreverse : post.reverse ++ sep :: pre.reverse = post'.reverse ++ sep :: pre'.reverse := by
    simpa using congrArg List.reverse heq
  obtain ⟨hpost, hpre⟩ := append_sep_unique (by simpa using h) (by simpa using h') hreverse
  exact ⟨List.reverse_injective hpre, List.reverse_injective hpost⟩

theorem map_unique {β : Type*} {f : α → β} {xs ys : List α}
    (hf : ∀ x ∈ xs, ∀ y ∈ ys, f x = f y → x = y) (h : xs.map f = ys.map f) : xs = ys := by
  induction xs generalizing ys with
  | nil => exact (List.map_eq_nil_iff.mp h.symm).symm
  | cons x xs ih =>
    cases ys with
    | nil => cases h
    | cons y ys =>
      obtain ⟨hhead, htail⟩ := List.cons.inj h
      rw [hf x List.mem_cons_self y List.mem_cons_self hhead, ih (fun x hx y hy =>
        hf x (List.mem_cons_of_mem _ hx) y (List.mem_cons_of_mem _ hy)) htail]

end Layered
