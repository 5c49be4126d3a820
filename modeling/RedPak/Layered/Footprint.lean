import Mathlib.Data.Set.Basic

/-!
# Layered.Footprint

What is left of a store: all that is seen under other keys than those that were written is as it
was, but something may have come into being under some of them.

* `Touches.trans`: the footprint of steps that follow one another.
-/

namespace Layered

variable {σ κ β : Type} {see : σ → κ → β} {comes : β → β → Prop} {written made : Set κ} {s t u : σ}

/-- Outside of `written`, each key shows what it did, or it is one of `made` and shows what has come
into being. -/
def Touches (see : σ → κ → β) (comes : β → β → Prop) (written made : Set κ) (s t : σ) : Prop :=
  ∀ k, k ∉ written → see t k = see s k ∨ comes (see s k) (see t k) ∧ k ∈ made

theorem Touches.refl (s : σ) : Touches see comes written made s s := fun _ _ => .inl rfl

theorem Touches.mono {written' made' : Set κ} (h : Touches see comes written made s t)
    (hwritten : written ⊆ written') (hmade : made ⊆ made') :
    Touches see comes written' made' s t := fun k hk =>
  (h k fun hmem => hk (hwritten hmem)).imp_right fun hcomes => ⟨hcomes.1, hmade hcomes.2⟩

/-- What comes into being comes from nothing, so it comes once. -/
theorem Touches.trans (honce : ∀ a b c, comes a b → ¬ comes b c)
    (h : Touches see comes written made s t) (h' : Touches see comes written made t u) :
    Touches see comes written made s u := by
  intro k hk
  rcases h k hk with hsame | ⟨hcomes, hmade⟩
  · rcases h' k hk with hsame' | ⟨hcomes', hmade'⟩
    · exact .inl (hsame'.trans hsame)
    · rw [hsame] at hcomes'
      exact .inr ⟨hcomes', hmade'⟩
  · rcases h' k hk with hsame' | ⟨hcomes', -⟩
    · rw [← hsame'] at hcomes
      exact .inr ⟨hcomes, hmade⟩
    · exact absurd hcomes' (honce _ _ _ hcomes)

theorem Touches.same (h : Touches see comes written made s t) {k : κ} (hwritten : k ∉ written)
    (hmade : k ∉ made) : see t k = see s k :=
  (h k hwritten).elim id fun hcomes => absurd hcomes.2 hmade

/-- What shows something that can't come into being from nothing was there. -/
theorem Touches.kept (h : Touches see comes written made s t) {k : κ} (hwritten : k ∉ written)
    (hthere : ∀ b, ¬ comes (see s k) b) : see t k = see s k :=
  (h k hwritten).elim id fun hcomes => absurd hcomes.1 (hthere _)

end Layered
