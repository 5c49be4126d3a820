import RedPak.Layered.Turns

/-!
# Layered.Demand

Runs whose turns ask for room. What a turn asks for is determined by a view of the state in which
what is held is not seen.

* `total_of_turns`, `turns_of_total`: when a run goes through, and what it holds then.
* `turns_of_reached`: a turn that is reached and stops ends the run.
-/

namespace Layered

variable {κ σ τ α ε : Type*} (step : κ → σ → α → Except ε σ)

/-- A turn that the run comes to, with the state in which it does. -/
def Reached (k : κ) : σ → List α → σ → α → Prop
  | _, [], _, _ => False
  | s, a :: as, s', b => s' = s ∧ b = a ∨ ∃ s₁, step k s a = .ok s₁ ∧ Reached k s₁ as s' b

theorem turns_of_reached {k : κ} {s' : σ} {b : α} {e : ε} (hend : step k s' b = .error e)
    {as : List α} : ∀ {s : σ}, Reached step k s as s' b → turns step k s as = .error e := by
  induction as with
  | nil => intro s h; exact h.elim
  | cons a as ih =>
    intro s h
    rcases h with ⟨rfl, rfl⟩ | ⟨s₁, hstep, hrest⟩
    · exact turns_cons_error step hend as
    · rw [turns_cons_ok step hstep]
      exact ih hrest

variable {step} in
theorem mem_of_reached {k : κ} {s' : σ} {b : α} {as : List α} :
    ∀ {s : σ}, Reached step k s as s' b → b ∈ as := by
  induction as with
  | nil => intro s h; exact h.elim
  | cons a as ih =>
    intro s h
    rcases h with ⟨-, rfl⟩ | ⟨s₁, -, hrest⟩
    · exact List.mem_cons_self
    · exact List.mem_cons_of_mem _ (ih hrest)

variable (demand : τ → α → Option Nat) (next : τ → α → τ)

/-- What the turns ask for together, unless one of them stops whatever room there is. -/
def total : τ → List α → Option Nat
  | _, [] => some 0
  | v, a :: as => do
    let n ← demand v a
    let m ← total (next v a) as
    return n + m

/-- A turn that goes on takes what it asks for, and with what is hidden being `k₀` it stops only
for want of room. -/
structure Asks (view : σ → τ) (held : σ → Nat) (size : Nat) (k₀ : κ) (a : α) : Prop where
  taken : ∀ k s s', step k s a = .ok s' → demand (view s) a = some (held s' - held s) ∧
    held s ≤ held s' ∧ view s' = next (view s) a
  given : ∀ s n, demand (view s) a = some n → held s + n ≤ size → ∃ s', step k₀ s a = .ok s'

variable {step demand next} {view : σ → τ} {held : σ → Nat} {size : Nat} {k₀ : κ} {as : List α}

theorem total_of_turns (hasks : ∀ a ∈ as, Asks step demand next view held size k₀ a) {k : κ}
    {t : σ} : ∀ {s : σ}, turns step k s as = .ok t →
      total demand next (view s) as = some (held t - held s) ∧ held s ≤ held t ∧
        view t = as.foldl next (view s) := by
  induction as with
  | nil =>
    intro s ht
    cases ht
    exact ⟨by rw [Nat.sub_self]; rfl, Nat.le_refl _, rfl⟩
  | cons a as ih =>
    intro s ht
    cases hstep : step k s a with
    | error e => rw [turns_cons_error step hstep] at ht; cases ht
    | ok s₁ =>
      rw [turns_cons_ok step hstep] at ht
      obtain ⟨hdemand, hle, hview⟩ := (hasks a (by simp)).taken k s s₁ hstep
      obtain ⟨htotal, hle', hviews⟩ := ih (fun b hb => hasks b (by simp [hb])) ht
      refine ⟨?_, Nat.le_trans hle hle', by rw [List.foldl_cons, ← hview, hviews]⟩
      rw [total, hdemand, ← hview, htotal]
      have hsum : held s₁ - held s + (held t - held s₁) = held t - held s := by omega
      exact congrArg some hsum

/-- **A run goes through** when there is room for what its turns ask for. -/
theorem turns_of_total (hasks : ∀ a ∈ as, Asks step demand next view held size k₀ a) :
    ∀ {s : σ} {n : Nat}, total demand next (view s) as = some n → held s + n ≤ size →
      ∃ t, turns step k₀ s as = .ok t := by
  induction as with
  | nil => intro s n _ _; exact ⟨s, rfl⟩
  | cons a as ih =>
    intro s n htotal hfits
    rw [total] at htotal
    obtain ⟨m, hdemand, hrest⟩ := Option.bind_eq_some_iff.mp htotal
    obtain ⟨m', htotal', hsum⟩ := Option.bind_eq_some_iff.mp hrest
    have hn : m + m' = n := Option.some.inj hsum
    obtain ⟨s₁, hstep⟩ := (hasks a (by simp)).given s m hdemand (by omega)
    obtain ⟨htaken, hle, hview⟩ := (hasks a (by simp)).taken k₀ s s₁ hstep
    have hm : m = held s₁ - held s := Option.some.inj (hdemand.symm.trans htaken)
    rw [turns_cons_ok step hstep]
    exact ih (fun b hb => hasks b (by simp [hb])) (hview ▸ htotal') (by omega)

end Layered
