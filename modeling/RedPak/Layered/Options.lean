import Mathlib.Data.List.Basic

/-!
# Layered.Options

Words that a program is called with. Some words are options, and each of these takes a number of
arguments; the first word that is no option, where one is looked for, ends the options. The words
are passed as an array of pointers, and the program sees those before the first NULL.

* `readOpts_written`: options that are written into the array are read again, whatever their
  arguments are.
* `readOpts_cut`: when an argument is NULL, an option is found to miss arguments.
* `settle_eq`: of the options that set the same thing, the last one decides.
-/

namespace Layered

/-- An option with its arguments. -/
structure Opt (τ α : Type*) where
  word : τ
  args : List α

variable {τ α : Type*}

/-- The number of arguments is that of the option. -/
def Opt.Fits (arity : τ → Option Nat) (g : Opt τ α) : Prop := arity g.word = some g.args.length

/-- The entries of an option in the array. -/
def Opt.entries (g : Opt τ (Option τ)) : List (Option τ) := some g.word :: g.args

/-- Options in the array, one after the other. -/
def written (gs : List (Opt τ (Option τ))) : List (Option τ) := gs.flatMap Opt.entries

/-- What the program sees of an array: the entries before the first NULL. -/
def seen : List (Option τ) → List τ
  | some w :: ws => w :: seen ws
  | _ => []

/-- An option none of whose arguments is NULL, as it is seen. -/
def Opt.plain (g : Opt τ (Option τ)) : Opt τ τ := ⟨g.word, seen g.args⟩

section

variable (arity : τ → Option Nat)

/-- The options at the start of some words of which the first ones are arguments that were taken,
and the words behind the options; or an option that misses arguments. -/
def readOptsFrom : Nat → List τ → Except τ (List (Opt τ τ) × List τ)
  | _, [] => .ok ([], [])
  | taken + 1, _ :: ws => readOptsFrom taken ws
  | 0, w :: ws =>
    match arity w with
    | none => .ok ([], w :: ws)
    | some n =>
      if n ≤ ws.length then (readOptsFrom n ws).map fun r => (⟨w, ws.take n⟩ :: r.1, r.2)
      else .error w

def readOpts (ws : List τ) : Except τ (List (Opt τ τ) × List τ) := readOptsFrom arity 0 ws

theorem readOptsFrom_append (as ws : List τ) :
    readOptsFrom arity as.length (as ++ ws) = readOpts arity ws := by
  induction as with
  | nil => rfl
  | cons a as ih => exact ih

theorem readOpts_cons {w : τ} {as : List τ} (h : arity w = some as.length) (ws : List τ) :
    readOpts arity (w :: (as ++ ws)) = (readOpts arity ws).map fun r => (⟨w, as⟩ :: r.1, r.2) := by
  have hle : as.length ≤ (as ++ ws).length := by
    rw [List.length_append]
    exact Nat.le_add_right _ _
  rw [readOpts, readOptsFrom, h]
  simp only [if_pos hle, readOptsFrom_append, List.take_left]

theorem readOpts_short {w : τ} {n : Nat} {ws : List τ} (h : arity w = some n)
    (hlt : ws.length < n) :
    readOpts arity (w :: ws) = .error w := by
  rw [readOpts, readOptsFrom, h]
  exact if_neg (Nat.not_le.mpr hlt)

theorem readOpts_stop {w : τ} (h : arity w = none) (ws : List τ) :
    readOpts arity (w :: ws) = .ok ([], w :: ws) := by
  rw [readOpts, readOptsFrom, h]

end

/-! ## NULL -/

theorem seen_append_of_present {as : List (Option τ)} (h : none ∉ as) (rest : List (Option τ)) :
    seen (as ++ rest) = seen as ++ seen rest := by
  induction as with
  | nil => rfl
  | cons a as ih =>
    rw [List.mem_cons, not_or] at h
    obtain ⟨w, rfl⟩ := Option.ne_none_iff_exists'.mp (Ne.symm h.1)
    exact congrArg (w :: ·) (ih h.2)

theorem seen_append_of_cut {as : List (Option τ)} (h : none ∈ as) (rest : List (Option τ)) :
    seen (as ++ rest) = seen as := by
  induction as with
  | nil => cases h
  | cons a as ih =>
    cases a with
    | none => rfl
    | some w =>
      have htail := (List.mem_cons.mp h).resolve_left fun h => (by cases h)
      exact congrArg (w :: ·) (ih htail)

theorem length_seen_of_present {as : List (Option τ)} (h : none ∉ as) :
    (seen as).length = as.length := by
  induction as with
  | nil => rfl
  | cons a as ih =>
    rw [List.mem_cons, not_or] at h
    obtain ⟨w, rfl⟩ := Option.ne_none_iff_exists'.mp (Ne.symm h.1)
    exact congrArg (· + 1) (ih h.2)

theorem length_seen_of_cut {as : List (Option τ)} (h : none ∈ as) :
    (seen as).length < as.length := by
  induction as with
  | nil => cases h
  | cons a as ih =>
    cases a with
    | none => exact Nat.succ_pos _
    | some w =>
      have htail := (List.mem_cons.mp h).resolve_left fun h => (by cases h)
      exact Nat.succ_lt_succ (ih htail)

@[simp] theorem seen_map_some (ws : List τ) : seen (ws.map some) = ws := by
  induction ws with
  | nil => rfl
  | cons w ws ih => exact congrArg (w :: ·) ih

/-! ## Options that are written -/

section

variable {arity : τ → Option Nat} {gs : List (Opt τ (Option τ))}

theorem readOpts_entries {g : Opt τ (Option τ)} (hfits : g.Fits arity) (hpresent : none ∉ g.args)
    (rest : List (Option τ)) :
    readOpts arity (seen (g.entries ++ rest)) =
      (readOpts arity (seen rest)).map fun r => (g.plain :: r.1, r.2) := by
  have hseen : seen (g.entries ++ rest) = g.word :: (seen g.args ++ seen rest) :=
    congrArg (g.word :: ·) (seen_append_of_present hpresent rest)
  have hlen := congrArg some (length_seen_of_present hpresent)
  rw [hseen, readOpts_cons arity (hfits.trans hlen.symm)]
  rfl

theorem readOpts_entries_cut {g : Opt τ (Option τ)} (hfits : g.Fits arity) (hcut : none ∈ g.args)
    (rest : List (Option τ)) : readOpts arity (seen (g.entries ++ rest)) = .error g.word := by
  have hseen : seen (g.entries ++ rest) = g.word :: seen g.args :=
    congrArg (g.word :: ·) (seen_append_of_cut hcut rest)
  rw [hseen]
  exact readOpts_short arity hfits (length_seen_of_cut hcut)

/-- **Options** whose arguments are all present are read again. -/
theorem readOpts_written (hfits : ∀ g ∈ gs, g.Fits arity) (hpresent : ∀ g ∈ gs, none ∉ g.args)
    (rest : List (Option τ)) :
    readOpts arity (seen (written gs ++ rest)) =
      (readOpts arity (seen rest)).map fun r => (gs.map Opt.plain ++ r.1, r.2) := by
  induction gs with
  | nil => cases h : readOpts arity (seen rest) <;> exact h
  | cons g gs ih =>
    have htail := ih (fun g hg => hfits g (List.mem_cons_of_mem _ hg))
      fun g hg => hpresent g (List.mem_cons_of_mem _ hg)
    rw [written, List.flatMap_cons, List.append_assoc,
      readOpts_entries (hfits g List.mem_cons_self) (hpresent g List.mem_cons_self)]
    rw [show gs.flatMap Opt.entries = written gs from rfl, htail]
    cases readOpts arity (seen rest) <;> rfl

/-- **A NULL** among the arguments of an option ends the reading at an option that misses
arguments, whatever is written behind it. -/
theorem readOpts_cut (hfits : ∀ g ∈ gs, g.Fits arity) (hcut : ∃ g ∈ gs, none ∈ g.args)
    (rest : List (Option τ)) :
    ∃ g ∈ gs, none ∈ g.args ∧ readOpts arity (seen (written gs ++ rest)) = .error g.word := by
  induction gs with
  | nil =>
    obtain ⟨g, hg, -⟩ := hcut
    cases hg
  | cons g gs ih =>
    rw [written, List.flatMap_cons, List.append_assoc]
    by_cases hhead : none ∈ g.args
    · exact ⟨g, List.mem_cons_self, hhead,
        readOpts_entries_cut (hfits g List.mem_cons_self) hhead _⟩
    · have hlater : ∃ g ∈ gs, none ∈ g.args := by
        obtain ⟨g', hg', hnone⟩ := hcut
        rcases List.mem_cons.mp hg' with rfl | hg'
        · exact absurd hnone hhead
        · exact ⟨g', hg', hnone⟩
      obtain ⟨g', hg', hnone, hread⟩ :=
        ih (fun g hg => hfits g (List.mem_cons_of_mem _ hg)) hlater
      refine ⟨g', List.mem_cons_of_mem _ hg', hnone, ?_⟩
      rw [readOpts_entries (hfits g List.mem_cons_self) hhead,
        show gs.flatMap Opt.entries = written gs from rfl, hread]
      rfl

end

/-! ## What options set -/

section

variable {κ β : Type*}

/-- The options one after the other, each setting the things that it is about. -/
def settle (sets : κ → Opt τ τ → Option β) (base : κ → β) (gs : List (Opt τ τ)) : κ → β :=
  gs.foldl (fun env g k => (sets k g).getD (env k)) base

/-- What the last option about something sets it to. -/
def lastSet (sets : Opt τ τ → Option β) : List (Opt τ τ) → Option β
  | [] => none
  | g :: gs => (lastSet sets gs).or (sets g)

/-- **The last option decides**, and what no option is about stays as it is. -/
theorem settle_eq (sets : κ → Opt τ τ → Option β) (gs : List (Opt τ τ)) (k : κ) :
    ∀ base : κ → β, settle sets base gs k = (lastSet (sets k) gs).getD (base k) := by
  induction gs with
  | nil => intro base; rfl
  | cons g gs ih =>
    intro base
    rw [settle, List.foldl_cons, ← settle, ih, lastSet]
    cases lastSet (sets k) gs <;> rfl

variable {sets : Opt τ τ → Option β} {gs : List (Opt τ τ)}

theorem lastSet_append (gs gs' : List (Opt τ τ)) :
    lastSet sets (gs ++ gs') = (lastSet sets gs').or (lastSet sets gs) := by
  induction gs with
  | nil => exact Option.or_none.symm
  | cons g gs ih => rw [List.cons_append, lastSet, ih, lastSet, Option.or_assoc]

theorem lastSet_eq_none : lastSet sets gs = none ↔ ∀ g ∈ gs, sets g = none := by
  induction gs with
  | nil => exact ⟨fun _ g hg => (by cases hg), fun _ => rfl⟩
  | cons g gs ih => rw [lastSet, Option.or_eq_none_iff, ih, List.forall_mem_cons, and_comm]

theorem exists_of_lastSet {b : β} (h : lastSet sets gs = some b) : ∃ g ∈ gs, sets g = some b := by
  induction gs with
  | nil => cases h
  | cons g gs ih =>
    rw [lastSet, Option.or_eq_some_iff] at h
    rcases h with h | ⟨-, h⟩
    · obtain ⟨g', hg', hset⟩ := ih h
      exact ⟨g', List.mem_cons_of_mem _ hg', hset⟩
    · exact ⟨g, List.mem_cons_self, h⟩

/-- The options about something come no later than the last of them. -/
theorem lastSet_last {R : Opt τ τ → Opt τ τ → Prop} {p : Opt τ τ → Bool} (hR : gs.Pairwise R)
    {g : Opt τ τ} (h : lastSet (fun g => if p g then some g else none) gs = some g) :
    g ∈ gs ∧ p g = true ∧ ∀ g' ∈ gs, p g' = true → g' = g ∨ R g' g := by
  induction gs with
  | nil => cases h
  | cons g₁ gs ih =>
    rw [List.pairwise_cons] at hR
    rw [lastSet, Option.or_eq_some_iff] at h
    rcases h with h | ⟨hnone, h⟩
    · obtain ⟨hmem, hp, hlast⟩ := ih hR.2 h
      refine ⟨List.mem_cons_of_mem _ hmem, hp, fun g' hg' hp' => ?_⟩
      rcases List.mem_cons.mp hg' with rfl | hg'
      · exact .inr (hR.1 g hmem)
      · exact hlast g' hg' hp'
    · split at h
      · rename_i hp
        cases h
        refine ⟨List.mem_cons_self, hp, fun g' hg' hp' => ?_⟩
        rcases List.mem_cons.mp hg' with rfl | hg'
        · exact .inl rfl
        · have := lastSet_eq_none.mp hnone g' hg'
          rw [if_pos hp'] at this
          cases this
      · cases h

end

end Layered
