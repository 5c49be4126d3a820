import Mathlib.Data.List.Basic
import Mathlib.Data.List.Infix

/-!
# Layered.Tree

Places in a tree, given by the names that lead to them from the root. The parent of a place is
`dropLast`, and a place lies at or below another one that is a prefix of it.

* `ancestry_concat`: the proper ancestors of a place, from the parent upward.
* `cons_eq_ancestry`: what makes a list of places the ancestry of a place.
-/

namespace Layered

variable {α : Type*}

/-- The proper ancestors of a place, the nearest first. The root is left out. -/
def ancestry (place : List α) : List (List α) :=
  ((List.range' 1 (place.length - 1)).map place.take).reverse

theorem ancestry_eq_nil {place : List α} : ancestry place = [] ↔ place.length ≤ 1 := by
  rw [ancestry, List.reverse_eq_nil_iff, List.map_eq_nil_iff, List.range'_eq_nil_iff]
  omega

theorem ancestry_concat {place : List α} (h : place ≠ []) (name : α) :
    ancestry (place ++ [name]) = place :: ancestry place := by
  have hpos : 0 < place.length := List.length_pos_iff.mpr h
  have hlen : (place ++ [name]).length - 1 = place.length - 1 + 1 := by
    rw [List.length_append, List.length_singleton]
    omega
  have hbefore : ∀ n ∈ List.range' 1 (place.length - 1),
      (place ++ [name]).take n = place.take n := by
    intro n hn
    rw [List.mem_range'_1] at hn
    exact List.take_append_of_le_length (by omega)
  rw [ancestry, hlen, List.range'_concat, List.map_append, List.reverse_append,
    List.map_congr_left hbefore]
  have hlast : (place ++ [name]).take (1 + 1 * (place.length - 1)) = place := by
    rw [show 1 + 1 * (place.length - 1) = place.length by omega, List.take_left]
  simp only [List.map_cons, List.map_nil, hlast, List.reverse_singleton, List.singleton_append,
    ancestry]

/-- The first of the ancestors is the parent, and the others are its ancestors. -/
theorem cons_eq_ancestry {a place : List α} {rest : List (List α)} :
    a :: rest = ancestry place ↔
      (∃ name, place = a ++ [name]) ∧ a ≠ [] ∧ rest = ancestry a := by
  rcases List.eq_nil_or_concat place with rfl | ⟨parent, name, rfl⟩
  · simp [ancestry]
  · rw [List.concat_eq_append]
    by_cases hparent : parent = []
    · subst hparent
      rw [show ancestry ([] ++ [name]) = [] from rfl]
      constructor
      · intro h
        cases h
      · rintro ⟨⟨x, hx⟩, ha, -⟩
        exact absurd (List.append_inj_left' hx rfl).symm ha
    · rw [ancestry_concat hparent, List.cons.injEq]
      constructor
      · rintro ⟨rfl, rfl⟩
        exact ⟨⟨name, rfl⟩, hparent, rfl⟩
      · rintro ⟨⟨x, hx⟩, -, rfl⟩
        obtain rfl := List.append_inj_left' hx rfl
        exact ⟨rfl, rfl⟩

theorem mem_ancestry {a : List α} : ∀ {place : List α},
    a ∈ ancestry place ↔ a ≠ [] ∧ a <+: place ∧ a ≠ place := by
  intro place
  induction place using List.reverseRecOn with
  | nil =>
    refine ⟨fun h => (by simp [ancestry] at h), fun ⟨_, hprefix, hne⟩ => ?_⟩
    exact absurd (List.prefix_nil.mp hprefix) hne
  | append_singleton place name ih =>
    by_cases hplace : place = []
    · subst hplace
      rw [show ancestry ([] ++ [name]) = [] from rfl]
      refine ⟨fun h => absurd h List.not_mem_nil, fun ⟨hne, hprefix, hother⟩ => ?_⟩
      rcases List.prefix_concat_iff.mp hprefix with h | h
      · exact absurd h hother
      · exact absurd (List.prefix_nil.mp h) hne
    · rw [ancestry_concat hplace, List.mem_cons, ih, List.prefix_concat_iff]
      constructor
      · rintro (rfl | ⟨hne, hprefix, -⟩)
        · exact ⟨hplace, .inr (List.prefix_refl _), fun h => by simpa using congrArg List.length h⟩
        · refine ⟨hne, .inr hprefix, ?_⟩
          rintro rfl
          have hlen := hprefix.length_le
          rw [List.length_append, List.length_singleton] at hlen
          omega
      · rintro ⟨hne, rfl | hprefix, hother⟩
        · exact absurd rfl hother
        · by_cases ha : a = place
          · exact .inl ha
          · exact .inr ⟨hne, hprefix, ha⟩

theorem not_mem_ancestry (place : List α) : place ∉ ancestry place :=
  fun h => (mem_ancestry.mp h).2.2 rfl

end Layered
