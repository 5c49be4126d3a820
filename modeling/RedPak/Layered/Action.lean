import Mathlib.Logic.Basic

/-!
# Layered.Action

Computations that change a state and may stop: `EStateM`, where what was changed before a stop
stays. `wp` is their weakest precondition, with one condition for the result and one for the stop.

* `wp_bind` and the other rules go through a computation step by step.
* `wp_mono`: what one function does is proved once and used by those that call it.
* `Ends`: what holds if a computation ends.
* `Keeps`: a computation that keeps an invariant, stopped or not.
-/

universe u

namespace Layered
namespace Action

variable {ε σ α β : Type u}

/-- From the state, the computation ends with a result of which `Q` holds, or stops with an error
of which `E` holds. -/
def wp (x : EStateM ε σ α) (Q : α → σ → Prop) (E : ε → σ → Prop) (s : σ) : Prop :=
  match x s with
  | .ok a t => Q a t
  | .error e t => E e t

variable {x : EStateM ε σ α} {Q Q' : α → σ → Prop} {E E' : ε → σ → Prop} {s t : σ}

/-! ## Rules -/

@[simp] theorem wp_pure (a : α) : wp (pure a : EStateM ε σ α) Q E s ↔ Q a s := Iff.rfl

@[simp] theorem wp_throw (e : ε) : wp (throw e : EStateM ε σ α) Q E s ↔ E e s := Iff.rfl

@[simp] theorem wp_get {Q : σ → σ → Prop} : wp (get : EStateM ε σ σ) Q E s ↔ Q s s := Iff.rfl

@[simp] theorem wp_set {Q : PUnit.{u + 1} → σ → Prop} (t : σ) :
    wp (set t : EStateM ε σ PUnit) Q E s ↔ Q ⟨⟩ t := Iff.rfl

@[simp] theorem wp_modify {Q : PUnit.{u + 1} → σ → Prop} (f : σ → σ) :
    wp (modify f : EStateM ε σ PUnit) Q E s ↔ Q ⟨⟩ (f s) := Iff.rfl

@[simp] theorem wp_bind {f : α → EStateM ε σ β} {Q : β → σ → Prop} :
    wp (x >>= f) Q E s ↔ wp x (fun a => wp (f a) Q E) E s := by
  show (match EStateM.bind x f s with | .ok a t => Q a t | .error e t => E e t) ↔ _
  unfold wp EStateM.bind
  cases x s <;> rfl

theorem wp_ite {p : Prop} [Decidable p] {y : EStateM ε σ α} :
    wp (if p then x else y) Q E s ↔ if p then wp x Q E s else wp y Q E s := by
  split <;> rfl

theorem wp_mono (h : wp x Q E s) (hQ : ∀ a t, Q a t → Q' a t) (hE : ∀ e t, E e t → E' e t) :
    wp x Q' E' s := by
  unfold wp at *
  cases hx : x s with
  | ok a t => rw [hx] at h; exact hQ a t h
  | error e t => rw [hx] at h; exact hE e t h

theorem wp_and (h : wp x Q E s) (h' : wp x Q' E' s) :
    wp x (fun a t => Q a t ∧ Q' a t) (fun e t => E e t ∧ E' e t) s := by
  unfold wp at *
  cases hx : x s <;> rw [hx] at h h' <;> exact ⟨h, h'⟩

theorem bind_eq_ok {f : α → EStateM ε σ β} {b : β} :
    (x >>= f) s = .ok b t ↔ ∃ a r, x s = .ok a r ∧ f a r = .ok b t := by
  change EStateM.bind x f s = _ ↔ _
  unfold EStateM.bind
  cases hx : x s with
  | ok a r => exact ⟨fun h => ⟨a, r, rfl, h⟩, fun ⟨_, _, h, h'⟩ => by cases h; exact h'⟩
  | error e r => exact ⟨nofun, fun ⟨_, _, h, _⟩ => nomatch h⟩

theorem bind_of_ok {f : α → EStateM ε σ β} {a : α} (h : x s = .ok a t) :
    (x >>= f) s = f a t := by
  change EStateM.bind x f s = _
  rw [EStateM.bind, h]

theorem get_bind (f : σ → EStateM ε σ β) : (get >>= f) s = f s s := rfl

theorem bind_of_error {f : α → EStateM ε σ β} {e : ε} (h : x s = .error e t) :
    (x >>= f) s = .error e t := by
  change EStateM.bind x f s = _
  rw [EStateM.bind, h]

theorem wp_ok {a : α} (h : wp x Q E s) (hx : x s = .ok a t) : Q a t := by
  rw [wp, hx] at h
  exact h

theorem wp_error {e : ε} (h : wp x Q E s) (hx : x s = .error e t) : E e t := by
  rw [wp, hx] at h
  exact h

theorem exists_ok (h : wp x Q (fun _ _ => False) s) : ∃ a t, x s = .ok a t ∧ Q a t := by
  unfold wp at h
  cases hx : x s with
  | ok a t => exact ⟨a, t, rfl, by rwa [hx] at h⟩
  | error e t => rw [hx] at h; exact h.elim

theorem wp_run (h : wp x Q E s) : wp x (fun a t => x s = .ok a t ∧ Q a t) E s := by
  unfold wp at *
  cases hx : x s <;> rw [hx] at h
  · exact ⟨rfl, h⟩
  · exact h

theorem wp_of_ok (h : ∀ a t, x s = .ok a t → Q a t) : wp x Q (fun _ _ => True) s := by
  unfold wp
  cases hx : x s with
  | ok a t => exact h a t hx
  | error e t => trivial

/-- A test of the end of a run. -/
def endsIn (x : EStateM ε σ α) (s : σ) (test : α → σ → Bool) : Bool :=
  match x s with
  | .ok a t => test a t
  | .error _ _ => false

theorem of_endsIn {test : α → σ → Bool} (h : endsIn x s test = true) :
    ∃ a t, x s = .ok a t ∧ test a t = true := by
  unfold endsIn at h
  split at h
  · exact ⟨_, _, by assumption, h⟩
  · cases h

/-- A test of what stops a run. -/
def stopsWith (x : EStateM ε σ α) (s : σ) (test : ε → Bool) : Bool :=
  match x s with
  | .ok _ _ => false
  | .error e _ => test e

theorem of_stopsWith {test : ε → Bool} (h : stopsWith x s test = true) :
    ∃ e t, x s = .error e t ∧ test e = true := by
  unfold stopsWith at h
  split at h
  · cases h
  · exact ⟨_, _, by assumption, h⟩

/-- The state that is left, whether the computation ended or stopped. -/
def after (x : EStateM ε σ α) (s : σ) : σ :=
  match x s with
  | .ok _ t => t
  | .error _ t => t

theorem after_of_wp {R : σ → Prop} (h : wp x (fun _ => R) (fun _ => R) s) : R (after x s) := by
  unfold wp at h
  unfold after
  cases hx : x s <;> rw [hx] at h <;> exact h

/-! ## Without a state -/

theorem except_bind_eq_ok {x : Except ε α} {f : α → Except ε β} {b : β} :
    (x >>= f) = .ok b ↔ ∃ a, x = .ok a ∧ f a = .ok b := by
  cases x with
  | ok a => exact ⟨fun h => ⟨a, rfl, h⟩, fun ⟨_, h, h'⟩ => by cases h; exact h'⟩
  | error e => exact ⟨fun h => (by cases h), fun ⟨_, h, _⟩ => (by cases h)⟩

theorem except_bind_eq_error {x : Except ε α} {f : α → Except ε β} {e : ε} :
    (x >>= f) = .error e ↔ x = .error e ∨ ∃ a, x = .ok a ∧ f a = .error e := by
  cases x with
  | ok a => exact ⟨fun h => .inr ⟨a, rfl, h⟩, by rintro (h | ⟨_, h, h'⟩) <;> cases h; exact h'⟩
  | error e' =>
    exact ⟨fun h => (by cases h; exact .inl rfl), by rintro (h | ⟨_, h, -⟩) <;> cases h; rfl⟩

/-! ## Runs that end -/

/-- If the computation ends, then so that `Q` holds. -/
def Ends (x : EStateM ε σ α) (Q : α → σ → Prop) (s : σ) : Prop := wp x Q (fun _ _ => True) s

@[simp] theorem ends_pure (a : α) : Ends (pure a : EStateM ε σ α) Q s ↔ Q a s := Iff.rfl

@[simp] theorem ends_throw (e : ε) : Ends (throw e : EStateM ε σ α) Q s := trivial

theorem ends_get_bind {f : σ → EStateM ε σ β} {Q : β → σ → Prop} :
    Ends (get >>= f) Q s ↔ Ends (f s) Q s := Iff.rfl

theorem ends_bind {f : α → EStateM ε σ β} {Q : β → σ → Prop} :
    Ends (x >>= f) Q s ↔ Ends x (fun a t => Ends (f a) Q t) s := wp_bind

theorem ends_and : Ends x (fun a t => Q a t ∧ Q' a t) s ↔ Ends x Q s ∧ Ends x Q' s := by
  unfold Ends wp
  cases x s with
  | ok a t => exact Iff.rfl
  | error e t => exact (and_self_iff).symm

theorem ends_congr (h : ∀ a t, Q a t ↔ Q' a t) : Ends x Q s ↔ Ends x Q' s := by
  unfold Ends wp
  cases x s with
  | ok a t => exact h a t
  | error e t => exact Iff.rfl

/-! ## Invariants -/

/-- The computation keeps the invariant, whether it ends or stops. -/
def Keeps (I : σ → Prop) (x : EStateM ε σ α) : Prop :=
  ∀ s, I s → wp x (fun _ => I) (fun _ => I) s

variable {I : σ → Prop}

theorem keeps_pure (a : α) : Keeps I (pure a : EStateM ε σ α) := fun _ hs => hs

theorem keeps_throw (e : ε) : Keeps I (throw e : EStateM ε σ α) := fun _ hs => hs

theorem keeps_get : Keeps I (get : EStateM ε σ σ) := fun _ hs => hs

theorem Keeps.bind {f : α → EStateM ε σ β} (hx : Keeps I x) (hf : ∀ a, Keeps I (f a)) :
    Keeps I (x >>= f) :=
  fun s hs => wp_bind.mpr (wp_mono (hx s hs) (fun a t ht => hf a t ht) (fun _ _ ht => ht))

theorem Keeps.also (hx : Keeps I x) (hs : I s) (hQ : wp x Q (fun _ _ => True) s) :
    wp x (fun a t => I t ∧ Q a t) (fun _ => I) s :=
  wp_mono (wp_and (hx s hs) hQ) (fun _ _ h => h) (fun _ _ h => h.1)

theorem Keeps.ite {p : Prop} [Decidable p] {y : EStateM ε σ α} (hx : p → Keeps I x)
    (hy : ¬ p → Keeps I y) : Keeps I (if p then x else y) := by
  split
  · exact hx ‹_›
  · exact hy ‹_›

/-- The computation keeps the invariant while it runs, and stops only as `E` allows. -/
def KeepsOr (I : σ → Prop) (E : ε → σ → Prop) (x : EStateM ε σ α) : Prop :=
  ∀ s, I s → wp x (fun _ => I) E s

theorem keepsOr_pure (a : α) : KeepsOr I E (pure a : EStateM ε σ α) := fun _ hs => hs

theorem KeepsOr.bind {f : α → EStateM ε σ β} (hx : KeepsOr I E x) (hf : ∀ a, KeepsOr I E (f a)) :
    KeepsOr I E (x >>= f) :=
  fun s hs => wp_bind.mpr (wp_mono (hx s hs) (fun a t ht => hf a t ht) (fun _ _ he => he))

/-- The state that is read is one in which the invariant holds. -/
theorem KeepsOr.get_bind {f : σ → EStateM ε σ β} (hf : ∀ t, I t → KeepsOr I E (f t)) :
    KeepsOr I E (get >>= f) :=
  fun s hs => wp_bind.mpr (hf s hs s hs)

theorem KeepsOr.ite {p : Prop} [Decidable p] {y : EStateM ε σ α} (hx : p → KeepsOr I E x)
    (hy : ¬ p → KeepsOr I E y) : KeepsOr I E (if p then x else y) := by
  split
  · exact hx ‹_›
  · exact hy ‹_›

end Action
end Layered
