import Mathlib.Data.List.Basic

/-!
# Layered.Deliver

Handing the elements of a list to a callback that carries a closure: the callback gets the index
of the element and the count of elements, and the first value other than 0 that it returns stops
the calls and is the result.

* `deliver`: the loop.
* `deliver_spec`: either all calls return 0, or the result is that of the first one that does not
  (`StopsAtFirst`).
* `deliver_foldl`, `deliver_fill`: a callback that always returns 0 gets all elements, in order.
-/

namespace Layered

variable {α β σ : Type*}

/-- Calls the callback on the elements, the first of which has the given index. -/
def deliver (callback : σ → α → Nat → Nat → Int × σ) (count : Nat) :
    Nat → List α → σ → Int × σ
  | _, [], c => (0, c)
  | i, a :: as, c =>
    match callback c a i count with
    | (rc, c') => if rc = 0 then deliver callback count (i + 1) as c' else (rc, c')

section Calls

variable (callback : σ → α → Nat → Nat → Int × σ) (count : Nat)

/-- The closure after `n` calls, were none of them to stop the calls. -/
def afterCalls : Nat → List α → σ → Nat → σ
  | _, _, c, 0 => c
  | _, [], c, _ => c
  | i, a :: as, c, n + 1 => afterCalls (i + 1) as (callback c a i count).2 n

/-- What call number `n` returns, were no call before it to stop the calls. -/
def callResult : Nat → List α → σ → Nat → Int
  | _, [], _, _ => 0
  | i, a :: _, c, 0 => (callback c a i count).1
  | i, a :: as, c, n + 1 => callResult (i + 1) as (callback c a i count).2 n

/-- A result of the calls: 0 when all of them return 0, otherwise what the first call returns that
does not, which is the last one made. -/
def StopsAtFirst (i : Nat) (as : List α) (c : σ) (result : Int × σ) : Prop :=
  ((∀ n < as.length, callResult callback count i as c n = 0) ∧
    result = (0, afterCalls callback count i as c as.length)) ∨
  ∃ n < as.length, (∀ m < n, callResult callback count i as c m = 0) ∧
    callResult callback count i as c n ≠ 0 ∧
    result = (callResult callback count i as c n, afterCalls callback count i as c (n + 1))

theorem deliver_spec (as : List α) : ∀ (i : Nat) (c : σ),
    StopsAtFirst callback count i as c (deliver callback count i as c) := by
  induction as with
  | nil => intro i c; exact .inl ⟨fun n hn => absurd hn (Nat.not_lt_zero n), rfl⟩
  | cons a as ih =>
    intro i c
    by_cases h0 : (callback c a i count).1 = 0
    · have hd : deliver callback count i (a :: as) c =
          deliver callback count (i + 1) as (callback c a i count).2 := by simp [deliver, h0]
      rw [hd]
      rcases ih (i + 1) (callback c a i count).2 with ⟨hall, hr⟩ | ⟨n, hn, hm, hne, hr⟩
      · refine .inl ⟨fun n hn => ?_, hr⟩
        cases n with
        | zero => exact h0
        | succ n => exact hall n (by simpa using hn)
      · refine .inr ⟨n + 1, by simpa using hn, fun m hm' => ?_, hne, hr⟩
        cases m with
        | zero => exact h0
        | succ m => exact hm m (by omega)
    · refine .inr ⟨0, by simp, fun m hm => absurd hm (Nat.not_lt_zero m), h0, ?_⟩
      simp [deliver, h0, callResult, afterCalls]

theorem deliver_map (f : β → α) (bs : List β) : ∀ (i : Nat) (c : σ),
    deliver callback count i (bs.map f) c =
      deliver (fun c b i n => callback c (f b) i n) count i bs c := by
  induction bs with
  | nil => intro i c; rfl
  | cons b bs ih => intro i c; simp only [List.map_cons, deliver, ih]

end Calls

theorem deliver_foldl (f : σ → α → σ) (as : List α) (count : Nat) : ∀ (i : Nat) (c : σ),
    deliver (fun c a _ _ => (0, f c a)) count i as c = (0, as.foldl f c) := by
  induction as with
  | nil => intro i c; rfl
  | cons a as ih => intro i c; simp only [deliver, ih, if_true, List.foldl_cons]

theorem deliver_fill {γ : Type*} (get : σ → List γ) (put : σ → List γ → σ)
    (hget : ∀ c l, get (put c l) = l) (hput : ∀ c l l', put (put c l) l' = put c l')
    (hself : ∀ c, put c (get c) = c) (f : α → γ) (as : List α) (count : Nat) :
    ∀ (i : Nat) (c : σ), (get c).length = i →
      deliver (fun c a i _ => (0, put c ((get c).take i ++ [f a]))) count i as c =
        (0, put c (get c ++ as.map f)) := by
  induction as with
  | nil => intro i c _; simp [deliver, hself]
  | cons a as ih =>
    intro i c h
    subst h
    rw [deliver]
    simp only [List.take_length, if_true]
    rw [ih _ _ (by rw [hget]; simp), hget, hput]
    simp

end Layered
