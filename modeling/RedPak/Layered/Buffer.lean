import Mathlib.Data.List.Range
import Mathlib.Data.List.TakeWhile

/-!
# Layered.Buffer

Buffers that are read and written at indices. The lemmas turn what a loop does with its indices
into what happens to the part of the buffer between two of them.

* `scan_spec`: a loop that runs over the elements of one kind.
* `slice_writeAll`: what a copy of several elements leaves.
-/

namespace Layered

/-- The memory behind a pointer. -/
abbrev Buffer (α : Type*) := Nat → α

namespace Buffer

variable {α : Type*}

def store (b : Buffer α) (i : Nat) (v : α) : Buffer α := fun j => if j = i then v else b j

/-- The elements from an index to before another one. -/
def slice (b : Buffer α) (i j : Nat) : List α := (List.range' i (j - i)).map b

def writeAll (b : Buffer α) (i : Nat) (vs : List α) : Buffer α := fun j =>
  if i ≤ j then (vs[j - i]?).getD (b j) else b j

/-- `while (i < limit && p(b[i])) i++;` -/
def scan (p : α → Bool) (b : Buffer α) (limit i : Nat) : Nat :=
  if i < limit ∧ p (b i) then scan p b limit (i + 1) else i
termination_by limit - i
decreasing_by omega

/-! ## Slices -/

variable {b b' : Buffer α} {i j k : Nat}

@[simp] theorem length_slice (b : Buffer α) (i j : Nat) : (b.slice i j).length = j - i := by
  simp [slice]

@[simp] theorem slice_self (b : Buffer α) (i : Nat) : b.slice i i = [] := by
  simp [slice]

theorem slice_cons (h : i < j) : b.slice i j = b i :: b.slice (i + 1) j := by
  have hlen : j - i = (j - (i + 1)) + 1 := by omega
  rw [slice, hlen, List.range'_succ]
  rfl

theorem slice_append (h : i ≤ j) (h' : j ≤ k) : b.slice i j ++ b.slice j k = b.slice i k := by
  have hlen : k - i = (j - i) + (k - j) := by omega
  have hj : j = i + (j - i) := by omega
  rw [slice, slice, slice, ← List.map_append, hlen, ← List.range'_append_1]
  rw [← hj]

theorem slice_concat (h : i ≤ j) : b.slice i (j + 1) = b.slice i j ++ [b j] := by
  rw [← slice_append h (Nat.le_succ j), slice_cons (Nat.lt_succ_self j), slice_self]

theorem slice_congr (h : ∀ n, i ≤ n → n < j → b n = b' n) : b.slice i j = b'.slice i j := by
  refine List.map_congr_left fun n hn => ?_
  rw [List.mem_range'_1] at hn
  exact h n hn.1 (by omega)

theorem getElem?_slice (n : Nat) (h : i + n < j) : (b.slice i j)[n]? = some (b (i + n)) := by
  have hn : n < j - i := by omega
  simp [slice, hn]

theorem drop_slice (b : Buffer α) (i j n : Nat) : (b.slice i j).drop n = b.slice (i + n) j := by
  rw [slice, slice, ← List.map_drop, List.drop_range']
  congr 2 <;> omega

theorem take_slice (b : Buffer α) (n : Nat) (h : i + n ≤ j) :
    (b.slice i j).take n = b.slice i (i + n) := by
  rw [← slice_append (Nat.le_add_right i n) h, List.take_left' (by simp)]

theorem head?_slice_eq_some {v : α} : (b.slice i j).head? = some v ↔ i < j ∧ b i = v := by
  by_cases h : i < j
  · simp [slice_cons h, h]
  · have hlen : j - i = 0 := by omega
    simp [slice, hlen, h]

theorem slice_eq_nil (h : j ≤ i) : b.slice i j = [] := by
  have hlen : j - i = 0 := by omega
  simp [slice, hlen]

/-! ## Stores -/

@[simp] theorem store_same (b : Buffer α) (i : Nat) (v : α) : b.store i v i = v := by
  simp [store]

theorem store_other {v : α} (h : j ≠ i) : b.store i v j = b j := by
  simp [store, h]

theorem slice_store {v : α} (h : k < i ∨ j ≤ k) : (b.store k v).slice i j = b.slice i j :=
  slice_congr fun n _ _ => store_other (by omega)

theorem slice_writeAll (b : Buffer α) (i : Nat) (vs : List α) :
    (b.writeAll i vs).slice i (i + vs.length) = vs := by
  refine List.ext_getElem? fun n => ?_
  by_cases hn : n < vs.length
  · rw [getElem?_slice n (by omega), writeAll, if_pos (Nat.le_add_right i n),
      Nat.add_sub_cancel_left, List.getElem?_eq_getElem hn]
    rfl
  · rw [List.getElem?_eq_none (by simp; omega), List.getElem?_eq_none (by omega)]

theorem writeAll_of_ge {vs : List α} (h : i + vs.length ≤ j) : b.writeAll i vs j = b j := by
  rw [writeAll, if_pos (by omega), List.getElem?_eq_none (by omega)]
  rfl

theorem slice_writeAll_of_le {vs : List α} (h : j ≤ k) :
    (b.writeAll k vs).slice i j = b.slice i j :=
  slice_congr fun n _ hn => by rw [writeAll, if_neg (by omega)]

@[simp] theorem writeAll_nil (b : Buffer α) (i : Nat) : b.writeAll i [] = b := by
  funext j
  simp [writeAll]

theorem writeAll_cons {v : α} {vs : List α} :
    (b.store i v).writeAll (i + 1) vs = b.writeAll i (v :: vs) := by
  funext j
  simp only [writeAll, store]
  rcases Nat.lt_trichotomy j i with h | rfl | h
  · rw [if_neg (by omega), if_neg (by omega), if_neg (by omega)]
  · simp
  · obtain ⟨m, rfl⟩ : ∃ m, j = i + 1 + m := ⟨j - (i + 1), by omega⟩
    have h₁ : i + 1 + m - (i + 1) = m := by omega
    have h₂ : i + 1 + m - i = m + 1 := by omega
    have hne : ¬ i + 1 + m = i := by omega
    rw [if_pos (Nat.le_add_right (i + 1) m), if_pos (Nat.le_of_lt h), h₁, h₂, if_neg hne,
      List.getElem?_cons_succ]

theorem writeAll_apply (b : Buffer α) (i j : Nat) (vs : List α) :
    b.writeAll i vs (i + j) = (vs[j]?).getD (b (i + j)) := by
  rw [writeAll, if_pos (Nat.le_add_right i j), Nat.add_sub_cancel_left]

theorem slice_writeAll_left (b : Buffer α) (i : Nat) (vs ws : List α) :
    (b.writeAll i (vs ++ ws)).slice i (i + vs.length) = vs := by
  refine List.ext_getElem? fun n => ?_
  by_cases hn : n < vs.length
  · rw [getElem?_slice n (by omega), writeAll_apply, List.getElem?_append_left hn,
      List.getElem?_eq_getElem hn]
    rfl
  · rw [List.getElem?_eq_none (by simp; omega), List.getElem?_eq_none (by omega)]

theorem slice_writeAll_append {vs : List α} (h : i ≤ k) :
    (b.writeAll k vs).slice i (k + vs.length) = b.slice i k ++ vs := by
  rw [← slice_append h (Nat.le_add_right k vs.length), slice_writeAll,
    slice_writeAll_of_le (Nat.le_refl k)]

theorem slice_writeAll_one {v : α} (h : i ≤ k) :
    (b.writeAll k [v]).slice i (k + 1) = b.slice i k ++ [v] := by
  have hone : k + 1 = k + [v].length := rfl
  rw [hone, slice_writeAll_append h]

theorem slice_writeAll_over {vs : List α} (h : i + vs.length ≤ j) :
    (b.writeAll i vs).slice i j = vs ++ b.slice (i + vs.length) j := by
  rw [← slice_append (Nat.le_add_right i vs.length) h, slice_writeAll]
  refine congrArg (vs ++ ·) (slice_congr fun n hn _ => ?_)
  exact writeAll_of_ge hn

theorem slice_store_concat {v : α} (h : i ≤ k) :
    (b.store k v).slice i (k + 1) = b.slice i k ++ [v] := by
  rw [slice_concat h, slice_store (.inr (Nat.le_refl k)), store_same]

/-! ## Scans -/

/-- **A scan** takes the elements of its kind and stops before the first other one. -/
theorem scan_spec (p : α → Bool) (b : Buffer α) {limit : Nat} (h : i ≤ limit) :
    i ≤ scan p b limit i ∧ scan p b limit i ≤ limit ∧
      b.slice i (scan p b limit i) = (b.slice i limit).takeWhile p ∧
      b.slice (scan p b limit i) limit = (b.slice i limit).dropWhile p := by
  fun_induction scan p b limit i with
  | case1 i hcond ih =>
    obtain ⟨h₁, h₂, htake, hdrop⟩ := ih hcond.1
    refine ⟨by omega, h₂, ?_, ?_⟩
    · rw [slice_cons (by omega : i < scan p b limit (i + 1)), htake, slice_cons hcond.1,
        List.takeWhile_cons_of_pos hcond.2]
    · rw [hdrop, slice_cons hcond.1, List.dropWhile_cons_of_pos hcond.2]
  | case2 i hcond =>
    refine ⟨Nat.le_refl _, h, ?_, ?_⟩
    · rcases Nat.eq_or_lt_of_le h with rfl | hlt
      · simp
      · have hp : ¬ p (b i) = true := fun hp => hcond ⟨hlt, hp⟩
        rw [slice_self, slice_cons hlt, List.takeWhile_cons_of_neg hp]
    · rcases Nat.eq_or_lt_of_le h with rfl | hlt
      · simp
      · have hp : ¬ p (b i) = true := fun hp => hcond ⟨hlt, hp⟩
        rw [slice_cons hlt, List.dropWhile_cons_of_neg hp]

theorem le_scan (p : α → Bool) (b : Buffer α) (limit i : Nat) : i ≤ scan p b limit i := by
  fun_induction scan p b limit i with
  | case1 i hcond ih => omega
  | case2 i hcond => exact Nat.le_refl _

theorem scan_stops {p : α → Bool} {limit : Nat} (h : scan p b limit i < limit) :
    p (b (scan p b limit i)) = false := by
  fun_induction scan p b limit i with
  | case1 i hcond ih => exact ih h
  | case2 i hcond =>
    cases hp : p (b i) with
    | false => rfl
    | true => exact absurd ⟨h, hp⟩ hcond

end Buffer

end Layered
