import Mathlib.Data.List.Basic

/-!
# Layered.Last

The rule of settings that are set by the last item: from the farthest level to the nearest one, a
strong setting replaces what is there, and a weak setting replaces what is not strong.

* `lastFold_value`: the fold gives the nearest strong setting or, without one, the nearest weak one.
* `foldl_keepFirst`: a value that is kept once it is not the default is the first such value.
-/

namespace Layered

variable {α : Type*}

/-- What is set at a level once the levels beyond it are taken into account. -/
inductive Setting (α : Type*) where
  | unset
  | weak (v : α)
  | strong (v : α)
deriving DecidableEq

def Setting.value : Setting α → Option α
  | .unset => none
  | .weak v => some v
  | .strong v => some v

/-- The rows of the matrix: the setting of the parent, and the weak and the strong setting of the
level. -/
def lastRow : Setting α → Option α → Option α → Setting α
  | p, none, none => p
  | .unset, some n, none => .weak n
  | .weak _, some n, none => .weak n
  | .strong p, some _, none => .strong p
  | _, _, some a => .strong a

/-- The setting of the nearest level, computed from the farthest one. The levels come nearest
first. -/
def lastFold : List (Option α × Option α) → Setting α
  | [] => .unset
  | l :: ls => lastRow (lastFold ls) l.1 l.2

def strongValues (ls : List (Option α × Option α)) : List α := ls.filterMap (·.2)

def weakValues (ls : List (Option α × Option α)) : List α := ls.filterMap (·.1)

/-- The setting that counts: the nearest strong one or, without one, the nearest weak one. -/
def nearest (ls : List (Option α × Option α)) : Setting α :=
  match strongValues ls, weakValues ls with
  | a :: _, _ => .strong a
  | [], n :: _ => .weak n
  | [], [] => .unset

theorem lastRow_nearest (w s : Option α) (ls : List (Option α × Option α)) :
    lastRow (nearest ls) w s = nearest ((w, s) :: ls) := by
  cases s with
  | some a => cases hn : nearest ls <;> cases w <;> rfl
  | none =>
    have hs : strongValues ((w, none) :: ls) = strongValues ls := rfl
    cases w with
    | none => cases hn : nearest ls <;> exact hn.symm
    | some n =>
      have hw : weakValues ((some n, none) :: ls) = n :: weakValues ls := rfl
      rw [nearest, nearest, hs, hw]
      cases strongValues ls with
      | cons a as => rfl
      | nil => cases weakValues ls <;> rfl

theorem lastFold_eq (ls : List (Option α × Option α)) : lastFold ls = nearest ls := by
  induction ls with
  | nil => rfl
  | cons l ls ih => rw [lastFold, ih, lastRow_nearest]

/-- **The fold** gives the nearest strong setting or, without one, the nearest weak one. -/
theorem lastFold_value (ls : List (Option α × Option α)) :
    (lastFold ls).value = (strongValues ls ++ weakValues ls).head? := by
  rw [lastFold_eq, nearest]
  cases strongValues ls with
  | cons a as => rfl
  | nil => cases weakValues ls <;> rfl

/-! ## The first value that is not the default -/

variable [DecidableEq α]

/-- A value is kept unless it is the default. -/
def keepFirst (z d s : α) : α := if d = z then s else d

theorem foldl_keepFirst_of_ne {z d : α} (h : d ≠ z) (l : List α) :
    l.foldl (keepFirst z) d = d := by
  induction l with
  | nil => rfl
  | cons a l ih => rw [List.foldl_cons, keepFirst, if_neg h, ih]

theorem foldl_keepFirst (z : α) (l : List α) :
    l.foldl (keepFirst z) z = (l.find? (· ≠ z)).getD z := by
  induction l with
  | nil => rfl
  | cons a l ih =>
    rw [List.foldl_cons, keepFirst, if_pos rfl]
    by_cases ha : a = z
    · rw [ha, ih, List.find?_cons_of_neg (by simp)]
    · rw [foldl_keepFirst_of_ne ha, List.find?_cons_of_pos (by simpa using ha)]
      rfl

/-- The first value is kept exactly when it is not the default, or all values are. -/
theorem keepFirst_eq_head_iff (z : α) (l : List α) :
    l.foldl (keepFirst z) z = l.head?.getD z ↔ (l.head? = some z → ∀ a ∈ l, a = z) := by
  rw [foldl_keepFirst]
  cases l with
  | nil => simp
  | cons a l =>
    by_cases ha : a = z
    · subst ha
      rw [List.find?_cons_of_neg (by simp)]
      cases hfind : l.find? (· ≠ a) with
      | none =>
        have hall := List.find?_eq_none.mp hfind
        refine ⟨fun _ _ b hb => ?_, fun _ => rfl⟩
        rcases List.mem_cons.mp hb with rfl | hb
        · rfl
        · simpa using hall b hb
      | some b =>
        have hb : b ≠ a := by simpa using List.find?_some hfind
        refine ⟨fun h => absurd h hb, fun h => ?_⟩
        exact absurd (h rfl b (by simp [List.mem_of_find?_eq_some hfind])) hb
    · rw [List.find?_cons_of_pos (by simpa using ha)]
      simp [ha]

end Layered
