import Mathlib.Data.List.Basic
import Mathlib.Data.List.DropRight

/-!
# Layered.Trim

A list without the elements of a kind at both of its ends.

* `trim_eq_self_iff`: what is left as it is.
* `rdropWhile_append`: the end of an append.
-/

namespace Layered

variable {α : Type*} {q : α → Bool} {l : List α}

def trim (q : α → Bool) (l : List α) : List α := (l.dropWhile q).rdropWhile q

/-- No element of the kind is at an end. -/
structure Trimmed (q : α → Bool) (l : List α) : Prop where
  head : ∀ c ∈ l.head?, q c = false
  last : ∀ c ∈ l.getLast?, q c = false

theorem getLast?_rdropWhile (l : List α) : ∀ c ∈ (l.rdropWhile q).getLast?, q c = false := by
  intro c hc
  have hne : l.rdropWhile q ≠ [] := by
    rintro hnil
    rw [hnil] at hc
    cases hc
  rw [List.getLast?_eq_some_getLast hne] at hc
  rw [← Option.some.inj hc]
  simpa using List.rdropWhile_last_not q l hne

theorem head?_dropWhile (l : List α) : ∀ c ∈ (l.dropWhile q).head?, q c = false := by
  intro c hc
  have hne : l.dropWhile q ≠ [] := by
    rintro hnil
    rw [hnil] at hc
    cases hc
  rw [List.head?_eq_some_head hne] at hc
  rw [← Option.some.inj hc]
  simpa using List.head_dropWhile_not q hne

theorem rdropWhile_eq_self (h : ∀ c ∈ l.getLast?, q c = false) : l.rdropWhile q = l := by
  refine List.rdropWhile_eq_self_iff.mpr fun hne => ?_
  rw [h _ (List.getLast?_eq_some_getLast hne)]
  exact Bool.false_ne_true

theorem dropWhile_eq_self (h : ∀ c ∈ l.head?, q c = false) : l.dropWhile q = l := by
  cases l with
  | nil => rfl
  | cons c l => exact List.dropWhile_cons_of_neg (by simp [h c rfl])

theorem trimmed_trim (q : α → Bool) (l : List α) : Trimmed q (trim q l) := by
  refine ⟨fun c hc => ?_, getLast?_rdropWhile _⟩
  obtain ⟨rest, hrest⟩ := List.rdropWhile_prefix q (l.dropWhile q)
  refine head?_dropWhile l c ?_
  rw [← hrest]
  cases h : (l.dropWhile q).rdropWhile q with
  | nil =>
    rw [trim, h] at hc
    cases hc
  | cons a as =>
    rw [trim, h] at hc
    exact hc

theorem Trimmed.trim_eq (h : Trimmed q l) : trim q l = l := by
  rw [trim, dropWhile_eq_self h.head, rdropWhile_eq_self h.last]

theorem trim_cons {c : α} (h : q c = true) (l : List α) : trim q (c :: l) = trim q l := by
  rw [trim, List.dropWhile_cons_of_pos h, trim]

theorem trim_eq_nil : trim q l = [] ↔ ∀ c ∈ l, q c = true := by
  constructor
  · intro h c hc
    have hall := List.rdropWhile_eq_nil_iff.mp h
    rcases List.mem_append.mp ((List.takeWhile_append_dropWhile (p := q) (l := l)) ▸ hc) with
      hc | hc
    · exact List.mem_takeWhile_imp hc
    · exact hall c hc
  · exact fun h =>
      List.rdropWhile_eq_nil_iff.mpr fun c hc => h c ((List.dropWhile_sublist q).subset hc)

theorem trim_ne_nil : trim q l ≠ [] ↔ ∃ c ∈ l, q c = false := by
  simp [ne_eq, trim_eq_nil]

theorem dropped_of_last {c : α} (hq : ∀ d, q d = true → d = c) (h : l.getLast? = some c)
    (hc : q c = true) : l.rdropWhile q ++ [c] <+: l := by
  induction l using List.reverseRecOn with
  | nil => cases h
  | append_singleton l d ih =>
    obtain rfl : d = c := by simpa using h
    rw [List.rdropWhile_concat_pos _ _ _ hc]
    by_cases hlast : l.getLast? = some d
    · exact (ih hlast).trans (List.prefix_append l [d])
    · have hself : l.rdropWhile q = l := rdropWhile_eq_self fun e he =>
        Bool.eq_false_iff.mpr fun hqe => hlast (hq e hqe ▸ he)
      exact ⟨[], (List.append_nil _).trans (congrArg (· ++ [d]) hself)⟩

/-- What is dropped at the end of an append: all of the second part and some of the first one, or
some of the second one. -/
theorem rdropWhile_append (l m : List α) : (l ++ m).rdropWhile q =
    if m.rdropWhile q = [] then l.rdropWhile q else l ++ m.rdropWhile q := by
  induction m using List.reverseRecOn with
  | nil => simp
  | append_singleton m c ih =>
    rw [← List.append_assoc, List.rdropWhile_concat, List.rdropWhile_concat]
    cases hc : q c with
    | true => simpa using ih
    | false => simp

end Layered
