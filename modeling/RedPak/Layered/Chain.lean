import Mathlib.Data.List.Basic
import Mathlib.Data.List.Infix

/-!
# Layered.Chain

Going along a chain of places, each of which lies in the ones before it: those that are there are
passed, and from the first one that is missing on they are made.

* `advance`: the walk, which looks no more once it has found a place missing.
* `advance_spec`: what is passed and what is made.
-/

namespace Layered

variable {σ κ β : Type*}

/-- What is seen of a place, how one is made, and what a place has to be. -/
structure Maker (σ κ β : Type*) where
  look : σ → κ → Option β
  make : σ → κ → Bool × σ
  good : β

/-- How a walk ends, and the places that were passed and made. -/
structure Progress (σ κ : Type*) where
  ok : Bool
  state : σ
  passed : List κ := []
  made : List κ := []

namespace Maker

variable (M : Maker σ κ β)

/-- Places are made as long as that succeeds. -/
def makeAll : σ → List κ → Progress σ κ
  | s, [] => ⟨true, s, [], []⟩
  | s, k :: ks =>
    if (M.make s k).1 then
      let rest := makeAll (M.make s k).2 ks
      { rest with made := k :: rest.made }
    else ⟨false, (M.make s k).2, [], []⟩

def advance [DecidableEq β] (s : σ) : List κ → Progress σ κ
  | [] => ⟨true, s, [], []⟩
  | k :: ks =>
    match M.look s k with
    | none => M.makeAll s (k :: ks)
    | some b =>
      if b = M.good then
        let rest := advance s ks
        { rest with passed := k :: rest.passed }
      else ⟨false, s, [], []⟩

/-- `above j k`: the place `k` lies in `j`. -/
structure Lawful (above : κ → κ → Prop) : Prop where
  closed : ∀ {s j k}, above j k → M.look s k ≠ none → M.look s j = some M.good
  made : ∀ {s k}, (M.make s k).1 = true → M.look s k = none ∧ M.look (M.make s k).2 k = some M.good
  kept : ∀ {s j k}, M.look s j ≠ none → M.look (M.make s k).2 j = M.look s j

variable {M} {above : κ → κ → Prop} {s : σ} {ks : List κ}

theorem makeAll_kept (h : M.Lawful above) {j : κ} (hj : M.look s j ≠ none) :
    M.look (M.makeAll s ks).state j = M.look s j := by
  induction ks generalizing s with
  | nil => rfl
  | cons k ks ih =>
    have hkept : M.look (M.make s k).2 j = M.look s j := h.kept hj
    rw [makeAll]
    split
    · exact (ih (hkept ▸ hj)).trans hkept
    · exact hkept

theorem makeAll_prefix : (M.makeAll s ks).made <+: ks := by
  induction ks generalizing s with
  | nil => exact List.prefix_rfl
  | cons k ks ih =>
    rw [makeAll]
    split
    · exact (List.prefix_cons_inj k).mpr ih
    · exact List.nil_prefix

theorem makeAll_all (hok : (M.makeAll s ks).ok = true) : (M.makeAll s ks).made = ks := by
  induction ks generalizing s with
  | nil => rfl
  | cons k ks ih =>
    rw [makeAll] at hok ⊢
    split at hok
    · rename_i hmake
      rw [if_pos hmake]
      exact congrArg (k :: ·) (ih hok)
    · cases hok

theorem makeAll_append (s : σ) (ks js : List κ) : M.makeAll s (ks ++ js) =
    if (M.makeAll s ks).ok then
      let rest := M.makeAll (M.makeAll s ks).state js
      { rest with made := (M.makeAll s ks).made ++ rest.made }
    else M.makeAll s ks := by
  induction ks generalizing s with
  | nil => rfl
  | cons k ks ih =>
    rw [List.cons_append, makeAll, makeAll]
    by_cases hmake : (M.make s k).1 = true
    · rw [if_pos hmake, if_pos hmake, ih]
      dsimp only
      split <;> rfl
    · rw [if_neg hmake, if_neg hmake]
      rfl

/-- **The places that are made** are good, and stay so. -/
theorem makeAll_good (h : M.Lawful above) :
    ∀ k ∈ (M.makeAll s ks).made, M.look (M.makeAll s ks).state k = some M.good := by
  induction ks generalizing s with
  | nil => exact fun k hk => (by cases hk)
  | cons k ks ih =>
    rw [makeAll]
    by_cases hmake : (M.make s k).1 = true
    · have hmade := (h.made hmake).2
      rw [if_pos hmake]
      intro j hj
      rcases List.mem_cons.mp hj with rfl | hj
      · exact (makeAll_kept h (by rw [hmade]; exact Option.some_ne_none _)).trans hmade
      · exact ih j hj
    · rw [if_neg hmake]
      exact fun j hj => (by cases hj)

theorem makeAll_passed : (M.makeAll s ks).passed = [] := by
  induction ks generalizing s with
  | nil => rfl
  | cons k ks ih =>
    rw [makeAll]
    split
    · exact ih
    · rfl

variable [DecidableEq β]

theorem advance_kept (h : M.Lawful above) {j : κ} (hj : M.look s j ≠ none) :
    M.look (M.advance s ks).state j = M.look s j := by
  induction ks with
  | nil => rfl
  | cons k ks ih =>
    rw [advance]
    split
    · exact makeAll_kept h hj
    · split
      · exact ih
      · rfl

/-- What a walk has to leave. -/
structure Exact (M : Maker σ κ β) (s : σ) (ks : List κ) (o : Progress σ κ) : Prop where
  made : o.made <+: ks.filter fun k => (M.look s k).isNone
  all : o.ok = true → o.made = ks.filter fun k => (M.look s k).isNone
  passed : o.ok = true → o.passed = ks.filter fun k => (M.look s k).isSome
  good : o.ok = true → ∀ k ∈ ks, M.look o.state k = some M.good
  blocked : (∃ k ∈ ks, ∃ b, M.look s k = some b ∧ b ≠ M.good) → o.made = []

/-- **A walk** along a chain makes the missing places one after the other, and none if a place that
is there is no good. -/
theorem advance_spec (h : M.Lawful above) (hks : ks.Pairwise above) :
    Exact M s ks (M.advance s ks) := by
  induction ks with
  | nil =>
    exact ⟨List.prefix_rfl, fun _ => rfl, fun _ => rfl, fun _ k hk => (by cases hk), fun _ => rfl⟩
  | cons k ks ih =>
    obtain ⟨habove, hks'⟩ := List.pairwise_cons.mp hks
    have hrest := ih hks'
    rw [advance]
    cases hlook : M.look s k with
    | none =>
      -- all the places behind it are missing, too
      have hmissing : ∀ j ∈ k :: ks, M.look s j = none := by
        intro j hj
        rcases List.mem_cons.mp hj with rfl | hj
        · exact hlook
        · by_contra hthere
          cases hlook.symm.trans (h.closed (habove j hj) hthere)
      have hnone : (k :: ks).filter (fun k => (M.look s k).isNone) = k :: ks :=
        List.filter_eq_self.mpr fun j hj => by rw [hmissing j hj]; rfl
      have hsome : (k :: ks).filter (fun k => (M.look s k).isSome) = [] :=
        List.filter_eq_nil_iff.mpr fun j hj => by rw [hmissing j hj]; exact Bool.false_ne_true
      refine ⟨by rw [hnone]; exact makeAll_prefix, fun hok => by rw [hnone]; exact makeAll_all hok,
        fun hok => by rw [hsome]; exact makeAll_passed, fun hok j hj => ?_, ?_⟩
      · exact makeAll_good h j (by rw [makeAll_all hok]; exact hj)
      · rintro ⟨j, hj, b, hb, -⟩
        cases (hmissing j hj).symm.trans hb
    | some b =>
      have hnone : (k :: ks).filter (fun k => (M.look s k).isNone) =
          ks.filter fun k => (M.look s k).isNone :=
        List.filter_cons_of_neg (by rw [hlook]; exact Bool.false_ne_true)
      have hsome : (k :: ks).filter (fun k => (M.look s k).isSome) =
          k :: ks.filter fun k => (M.look s k).isSome :=
        List.filter_cons_of_pos (by rw [hlook]; rfl)
      dsimp only
      by_cases hb : b = M.good
      · rw [if_pos hb]
        refine ⟨by rw [hnone]; exact hrest.made, fun hok => by rw [hnone]; exact hrest.all hok,
          fun hok => by rw [hsome]; exact congrArg (k :: ·) (hrest.passed hok),
          fun hok j hj => ?_, ?_⟩
        · rcases List.mem_cons.mp hj with rfl | hj
          · rw [← hb, ← hlook]
            exact advance_kept h (by rw [hlook]; exact Option.some_ne_none b)
          · exact hrest.good hok j hj
        · rintro ⟨j, hj, b', hb', hbad⟩
          rcases List.mem_cons.mp hj with rfl | hj
          · exact absurd (hb ▸ Option.some.inj (hlook.symm.trans hb') ▸ rfl) hbad
          · exact hrest.blocked ⟨j, hj, b', hb', hbad⟩
      · rw [if_neg hb]
        exact ⟨List.nil_prefix, fun hok => (by cases hok), fun hok => (by cases hok),
          fun hok => (by cases hok), fun _ => rfl⟩

end Maker

end Layered
