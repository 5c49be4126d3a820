import Mathlib.Data.List.Basic

/-!
# Layered.Filled

Arrays of a fixed size that are filled from their start.

* `pushAll_eq_some`, `pushAll_eq_none`: what storing some values leaves, and when one of the stores
  is outside of the array.
-/

namespace Layered

structure Filled (α : Type*) (size : Nat) where
  entries : List α
  fits : entries.length ≤ size

namespace Filled

variable {α : Type*} {size : Nat}

def empty : Filled α size := ⟨[], Nat.zero_le _⟩

/-- A store behind the entries, at the index of their number; there is none outside of the array. -/
def push (f : Filled α size) (a : α) : Option (Filled α size) :=
  if h : f.entries.length < size then
    some ⟨f.entries ++ [a], by rw [List.length_append]; exact h⟩
  else none

def pushAll (f : Filled α size) : List α → Option (Filled α size)
  | [] => some f
  | a :: as => (f.push a).bind fun f => f.pushAll as

theorem push_eq_none {f : Filled α size} {a : α} : f.push a = none ↔ f.entries.length = size := by
  unfold push
  have hfits := f.fits
  split
  · exact ⟨fun h => (by cases h), fun h => by omega⟩
  · exact ⟨fun _ => by omega, fun _ => rfl⟩

theorem push_eq_some {f g : Filled α size} {a : α} (h : f.push a = some g) :
    g.entries = f.entries ++ [a] := by
  unfold push at h
  split at h
  · cases h
    rfl
  · cases h

theorem pushAll_append (as bs : List α) : ∀ f : Filled α size,
    f.pushAll (as ++ bs) = (f.pushAll as).bind fun g => g.pushAll bs := by
  induction as with
  | nil => intro f; rfl
  | cons a as ih =>
    intro f
    rw [List.cons_append, pushAll, pushAll]
    cases f.push a with
    | none => rfl
    | some g => exact ih g

theorem pushAll_eq (as : List α) : ∀ f : Filled α size, f.pushAll as =
    if h : f.entries.length + as.length ≤ size then
      some ⟨f.entries ++ as, by rwa [List.length_append]⟩
    else none := by
  induction as with
  | nil =>
    intro f
    simp [pushAll, f.fits]
  | cons a as ih =>
    intro f
    rw [pushAll, push]
    by_cases h : f.entries.length < size
    · rw [dif_pos h, Option.bind_some, ih]
      simp only [List.length_append, List.length_cons, List.length_nil, Nat.add_assoc,
        Nat.add_comm 1, Nat.zero_add, List.append_assoc, List.cons_append, List.nil_append]
    · rw [dif_neg h, dif_neg (by rw [List.length_cons]; omega)]
      rfl

theorem pushAll_eq_some {f g : Filled α size} {as : List α} (h : f.pushAll as = some g) :
    g.entries = f.entries ++ as := by
  rw [pushAll_eq] at h
  split at h
  · cases h
    rfl
  · cases h

theorem pushAll_eq_none {f : Filled α size} {as : List α} :
    f.pushAll as = none ↔ size < f.entries.length + as.length := by
  rw [pushAll_eq]
  split
  · exact ⟨fun h => (by cases h), fun h => by omega⟩
  · exact ⟨fun _ => by omega, fun _ => rfl⟩

end Filled

end Layered
