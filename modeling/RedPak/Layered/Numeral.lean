import Mathlib.Algebra.Order.Ring.Nat
import Mathlib.Data.List.Basic

/-!
# Layered.Numeral

Numbers as texts of digits. `fill` prints a number from its lowest digit on, in front of what is
there already, as long as there is room.

* `fill_spec`: what is printed stands for the number.
-/

namespace Layered

variable {α : Type*}

/-- The number that a text stands for, the highest digit first. -/
def numeral (b : Nat) (val : α → Nat) (ds : List α) : Nat :=
  ds.foldl (fun n d => b * n + val d) 0

/-- The lowest digit is stored first; `room` is the number of places in front of `rest`. -/
def fill (b : Nat) (digit : Nat → α) : (room n : Nat) → (rest : List α) → Option (List α)
  | 0, _, _ => none
  | room + 1, n, rest =>
    if n / b ≠ 0 then fill b digit room (n / b) (digit (n % b) :: rest)
    else some (digit (n % b) :: rest)

variable {b : Nat} {digit : Nat → α} {val : α → Nat}

theorem numeral_concat (ds : List α) (d : α) :
    numeral b val (ds ++ [d]) = b * numeral b val ds + val d := by
  rw [numeral, List.foldl_append]
  rfl

/-- **What is printed** stands for the number, and it fits if the number is below the power. -/
theorem fill_spec (room n : Nat) (hval : ∀ d < b, val (digit d) = d) (hpos : 0 < b)
    (hroom : 0 < room) (hn : n < b ^ room) (rest : List α) :
    ∃ ds, fill b digit room n rest = some (ds ++ rest) ∧ ds ≠ [] ∧ numeral b val ds = n ∧
      ∀ c ∈ ds, ∃ d < b, c = digit d := by
  induction room generalizing n rest with
  | zero => exact absurd hroom (Nat.lt_irrefl 0)
  | succ room ih =>
    have hlow : n % b < b := Nat.mod_lt n hpos
    have hdigit := hval (n % b) hlow
    rw [fill]
    by_cases hmore : n / b ≠ 0
    · have hquot : n / b < b ^ room := by
        rw [pow_succ'] at hn
        exact Nat.div_lt_of_lt_mul hn
      have hroom' : 0 < room := Nat.pos_of_ne_zero fun hzero => by
        subst hzero
        rw [pow_zero] at hquot
        exact hmore (Nat.lt_one_iff.mp hquot)
      obtain ⟨ds, hfill, hne, hnum, hdigits⟩ := ih (n / b) hroom' hquot (digit (n % b) :: rest)
      refine ⟨ds ++ [digit (n % b)], ?_, by simp, ?_, fun c hc => ?_⟩
      · rw [if_pos hmore, hfill, List.append_assoc]
        rfl
      · rw [numeral_concat, hnum, hdigit]
        exact Nat.div_add_mod n b
      · rcases List.mem_append.mp hc with hc | hc
        · exact hdigits c hc
        · exact ⟨n % b, hlow, List.mem_singleton.mp hc⟩
    · rw [if_neg hmore]
      refine ⟨[digit (n % b)], rfl, List.cons_ne_nil _ _, ?_, fun c hc => ?_⟩
      · have hsum := Nat.div_add_mod n b
        rw [not_not.mp hmore, Nat.mul_zero, Nat.zero_add] at hsum
        show b * 0 + val (digit (n % b)) = n
        rw [hdigit, Nat.mul_zero, Nat.zero_add, hsum]
      · exact ⟨n % b, hlow, List.mem_singleton.mp hc⟩

end Layered
