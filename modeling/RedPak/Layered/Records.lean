import Mathlib.Data.Set.Insert
import RedPak.Layered.Threads

/-!
# Layered.Records

Records of several parts, each in a file of its own, that many threads write and read. A record
counts once it is published, and it is published when its parts are there.

* `Ledger`: what the saves of files amount to, besides what is in the files.
* `Records.Keeps`: what no thread undoes, for threads to rely on.
* `Records.Sound.step`: a step that publishes only what is whole keeps all published records whole.
-/

namespace Layered

variable {σ κ π φ : Type}

/-! ## Files -/

/-- How often each file was opened or written, which files are open to be saved, and which were left
unfinished or opened twice at a time. -/
structure Ledger (σ φ : Type) where
  version : σ → φ → Nat
  busy : σ → Set φ
  spoilt : σ → Set φ

namespace Ledger

variable (L : Ledger σ φ)

/-- Nothing is saved. -/
structure Same (s t : σ) : Prop where
  version : L.version t = L.version s
  busy : L.busy t = L.busy s
  spoilt : L.spoilt t = L.spoilt s

/-- The file is opened or written. -/
structure Step (f : φ) (busy spoilt : Set φ) (s t : σ) : Prop where
  version : L.version s f < L.version t f
  others : ∀ g, g ≠ f → L.version t g = L.version s g
  busy : L.busy t = busy
  spoilt : L.spoilt t = spoilt

/-- A save begins. It may run into another one. -/
def Opens (f : φ) (s t : σ) : Prop :=
  L.Step f (insert f (L.busy s)) (L.spoilt s ∪ {g | g = f ∧ f ∈ L.busy s}) s t

/-- A save ends. -/
def Ends (f : φ) (s t : σ) : Prop := L.Step f (L.busy s \ {f}) (L.spoilt s) s t

/-- A save fails midway. -/
def Fails (f : φ) (s t : σ) : Prop := L.Step f (L.busy s \ {f}) (insert f (L.spoilt s)) s t

/-- One of the steps of a save. -/
structure Moves (f : φ) (s t : σ) : Prop where
  version : L.version s f < L.version t f
  others : ∀ g, g ≠ f → L.version t g = L.version s g
  busy : ∀ g, g ≠ f → g ∈ L.busy s → g ∈ L.busy t
  spoilt : L.spoilt s ⊆ L.spoilt t

variable {L} {f : φ} {s t : σ}

theorem Opens.moves (h : L.Opens f s t) : L.Moves f s t where
  version := h.version
  others := h.others
  busy g _ hg := by
    rw [h.busy]
    exact .inr hg
  spoilt g hg := by
    rw [h.spoilt]
    exact .inl hg

theorem Ends.moves (h : L.Ends f s t) : L.Moves f s t where
  version := h.version
  others := h.others
  busy g hne hg := by
    rw [h.busy]
    exact ⟨hg, hne⟩
  spoilt g hg := by
    rw [h.spoilt]
    exact hg

theorem Fails.moves (h : L.Fails f s t) : L.Moves f s t where
  version := h.version
  others := h.others
  busy g hne hg := by
    rw [h.busy]
    exact ⟨hg, hne⟩
  spoilt g hg := by
    rw [h.spoilt]
    exact .inr hg

end Ledger

/-! ## Records -/

/-- What there is to tell of the part of a record, and of a record. -/
structure Records (σ κ π : Type) where
  readable : σ → κ → π → Prop
  busy : σ → κ → π → Prop
  damaged : σ → κ → π → Prop
  published : σ → κ → Prop

namespace Records

variable (A : Records σ κ π)

/-- The part can be read, unless it is just saved or was damaged. -/
def Has (s : σ) (k : κ) (part : π) : Prop :=
  A.readable s k part ∨ A.busy s k part ∨ A.damaged s k part

def Whole (s : σ) (k : κ) : Prop := ∀ part, A.Has s k part

/-- What is published is whole. -/
def Sound (s : σ) : Prop := ∀ k, A.published s k → A.Whole s k

/-- A record that is published, none of whose parts is saved or was damaged. -/
structure Complete (s : σ) (k : κ) : Prop where
  published : A.published s k
  idle : ∀ part, ¬ A.busy s k part
  intact : ∀ part, ¬ A.damaged s k part

/-- No part gets lost. -/
structure Keeps (s t : σ) : Prop where
  damaged : ∀ {k part}, A.damaged s k part → A.damaged t k part
  has : ∀ {k part}, A.Has s k part → A.Has t k part

variable {A} {s t u : σ} {k : κ} {part : π}

theorem Keeps.whole (h : A.Keeps s t) (hs : A.Whole s k) : A.Whole t k := fun part =>
  h.has (hs part)

theorem Sound.readable (h : A.Sound s) (hk : A.Complete s k) (part : π) : A.readable s k part :=
  (h k hk.published part).resolve_right fun hor => hor.elim (hk.idle part) (hk.intact part)

instance : Rely A.Keeps where
  refl _ := ⟨fun h => h, fun h => h⟩
  trans h h' := ⟨fun hs => h'.damaged (h.damaged hs), fun hs => h'.has (h.has hs)⟩

/-- **A step** of any thread. -/
theorem Sound.step (hs : A.Sound s) (h : A.Keeps s t)
    (hnew : ∀ k, A.published t k → A.published s k ∨ A.Whole t k) : A.Sound t := by
  intro k hk
  rcases hnew k hk with hold | hwhole
  · exact h.whole (hs k hold)
  · exact hwhole

end Records
end Layered
