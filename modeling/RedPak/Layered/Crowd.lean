import Mathlib.Data.List.Chain
import RedPak.Layered.Chain
import RedPak.Layered.Threads

/-!
# Layered.Crowd

Chains of places that several threads walk along at once, each its own. A thread that found a place
missing makes it, and those behind it. It fails when another one was faster, but then the other one
is ahead.

* `Maker.walk`, `Maker.enter`: the walk of `Maker.advance`, look by look.
* `Maker.Crowd.step`: what one turn keeps.
* `Maker.crowd_ends`: a walk that succeeds has its places, and one walk does succeed.
-/

namespace Layered
namespace Maker

open Layered.Action

variable {ε σ κ β ι : Type} (M : Maker σ κ β)

def seeing (k : κ) : EStateM ε σ (Option β) := do
  let s ← get
  pure (M.look s k)

def making (k : κ) : EStateM ε σ Bool := fun s => .ok (M.make s k).1 (M.make s k).2

def makes : List κ → Thread ε σ Bool
  | [] => .ret true
  | k :: ks => .act (M.making k) fun made => if made then makes ks else .ret false

section

variable [DecidableEq β]

def walk : List κ → Thread ε σ Bool
  | [] => .ret true
  | k :: ks => .act (M.seeing k) fun
    | none => M.makes (k :: ks)
    | some b => if b = M.good then walk ks else .ret false

/-- The walk starts from a place that has to be there. -/
def enter (base : κ) (ks : List κ) : Thread ε σ Bool :=
  .act (M.seeing base) fun seen => if seen = some M.good then M.walk ks else .ret false

end

/-- What a place is does not change. The next place can be made where the one before is, and nothing
else is made then of what lies in it. -/
structure Shared (above next : κ → κ → Prop) : Prop extends M.Lawful above where
  apart : ∀ {s j k}, above j k → M.look s k = none → M.look (M.make s j).2 k = none
  failed : ∀ {s k}, (M.make s k).1 = false → ∀ j, M.look (M.make s k).2 j = M.look s j
  granted : ∀ {s j k}, next j k → M.look s j = some M.good → M.look s k = none →
    (M.make s k).1 = true

/-- Something is in the way at the start. -/
def Blocked (s₀ : σ) (base : κ) (ks : List κ) : Prop :=
  M.look s₀ base ≠ some M.good ∨ ∃ k ∈ ks, ∃ b, M.look s₀ k = some b ∧ b ≠ M.good

/-- A place that was missing at the start is there. -/
def Overtaken (s₀ s : σ) (ks : List κ) : Prop :=
  ∃ k ∈ ks, M.look s₀ k = none ∧ M.look s k ≠ none

/-- The places that a walk has behind it. -/
structure Reached (s : σ) (base : κ) (ks front rest : List κ) : Prop where
  split : base :: ks = front ++ rest
  entered : front ≠ []
  good : ∀ k ∈ front, M.look s k = some M.good

/-- What is there stays. -/
def Grows (s s' : σ) : Prop := ∀ k, M.look s k ≠ none → M.look s' k = M.look s k

variable {M} {s₀ s s' s'' : σ} {base : κ} {ks front rest : List κ} {above next : κ → κ → Prop}

theorem Grows.trans (h : M.Grows s s') (h' : M.Grows s' s'') : M.Grows s s'' := fun k hk =>
  have hkept := h k hk
  (h' k (hkept ▸ hk)).trans hkept

theorem grows_of_same (h : ∀ k, M.look s' k = M.look s k) : M.Grows s s' := fun k _ => h k

theorem Grows.missing (hs : M.Grows s s') {k : κ} (h : M.look s' k = none) :
    M.look s k = none := by
  by_contra hthere
  rw [hs k hthere] at h
  exact hthere h

theorem Overtaken.later (h : M.Overtaken s₀ s ks) (hs : M.Grows s s') : M.Overtaken s₀ s' ks := by
  obtain ⟨k, hk, hnone, hthere⟩ := h
  exact ⟨k, hk, hnone, by rwa [hs k hthere]⟩

theorem Reached.later (h : M.Reached s base ks front rest) (hs : M.Grows s s') :
    M.Reached s' base ks front rest :=
  ⟨h.split, h.entered, fun k hk => by
    have hgood := h.good k hk
    rw [hs k (by rw [hgood]; exact Option.some_ne_none _), hgood]⟩

theorem Reached.pass {k : κ} (h : M.Reached s base ks front (k :: rest))
    (hk : M.look s k = some M.good) : M.Reached s base ks (front ++ [k]) rest := by
  refine ⟨by rw [h.split, List.append_assoc]; rfl, by simp, fun j hj => ?_⟩
  rcases List.mem_append.mp hj with hj | hj
  · exact h.good j hj
  · rw [List.mem_singleton.mp hj]
    exact hk

theorem Reached.suffix (h : M.Reached s base ks front rest) : rest <:+ ks := by
  obtain ⟨split, entered, -⟩ := h
  cases front with
  | nil => exact absurd rfl entered
  | cons j front => exact ⟨front, (List.cons.inj split).2.symm⟩

theorem Reached.granted (h : M.Shared above next) (hks : (base :: ks).IsChain next) {k : κ}
    (hreached : M.Reached s base ks front (k :: rest)) (hnone : M.look s k = none) :
    (M.make s k).1 = true := by
  obtain ⟨split, entered, good⟩ := hreached
  rcases List.eq_nil_or_concat front with rfl | ⟨before, j, rfl⟩
  · exact absurd rfl entered
  · rw [List.concat_eq_append] at split good
    rw [split, List.append_assoc] at hks
    have hnext : next j k := (List.isChain_append_cons_cons.mp hks).2.1
    exact h.granted hnext (good j (by simp)) hnone

theorem Reached.lies (habove : ks.Pairwise above) {k : κ}
    (h : M.Reached s base ks front (k :: rest)) : ∀ j ∈ rest, above k j :=
  (List.pairwise_cons.mp (habove.sublist h.suffix.sublist)).1

theorem Reached.missing (h : M.Shared above next) (habove : ks.Pairwise above) {k : κ}
    (hreached : M.Reached s base ks front (k :: rest)) (hnone : M.look s k = none) :
    ∀ j ∈ k :: rest, M.look s j = none := by
  intro j hj
  rcases List.mem_cons.mp hj with rfl | hj
  · exact hnone
  · by_contra hthere
    rw [h.closed (hreached.lies habove j hj) hthere] at hnone
    cases hnone

theorem makes_ret {rest : List κ} {b : Bool} (h : (M.makes rest : Thread ε σ Bool) = .ret b) :
    rest = [] ∧ b = true := by
  cases rest with
  | nil =>
    cases h
    exact ⟨rfl, rfl⟩
  | cons k rest => cases h

/-! ## Phases -/

/-- Where a walk is, with the places behind it and before it. -/
inductive Phase (κ : Type) where
  | outside
  | passing (front rest : List κ)
  | making (front rest : List κ)
  | failed

namespace Phase

variable (M) (s₀ s : σ) (base : κ) (ks : List κ)

def thread [DecidableEq β] : Phase κ → Thread ε σ Bool
  | outside => M.enter base ks
  | passing _ rest => M.walk rest
  | making _ rest => M.makes rest
  | failed => .ret false

def Sound : Phase κ → Prop
  | outside => True
  | passing front rest => M.Reached s base ks front rest ∧ rest ≠ []
  | making front rest => M.Reached s base ks front rest ∧ ∀ k ∈ rest, M.look s₀ k = none
  | failed => M.Blocked s₀ base ks ∨ M.Overtaken s₀ s ks

/-- All that is left to make is missing. -/
def Ahead : Phase κ → Prop
  | making _ rest => ∀ k ∈ rest, M.look s k = none
  | _ => False

/-- Nothing that is missing has been found yet. -/
def Waiting : Phase κ → Prop
  | making _ _ => False
  | failed => M.Blocked s₀ base ks
  | _ => True

variable {M s₀ s base ks} {p p' : Phase κ}

theorem Sound.later (h : p.Sound M s₀ s base ks) (hs : M.Grows s s') :
    p.Sound M s₀ s' base ks := by
  cases p with
  | outside => trivial
  | passing front rest => exact ⟨h.1.later hs, h.2⟩
  | making front rest => exact ⟨h.1.later hs, h.2⟩
  | failed => exact Or.imp_right (fun h => h.later hs) h

theorem Ahead.same (h : p.Ahead M s) (hs : ∀ k, M.look s' k = M.look s k) : p.Ahead M s' := by
  cases p with
  | making front rest => exact fun k hk => (hs k).trans (h k hk)
  | _ => exact h

/-- Behind the last place that was passed, or before the first one that was found missing. -/
def onward (front : List κ) : List κ → Phase κ
  | [] => making front []
  | k :: rest => passing front (k :: rest)

theorem thread_onward [DecidableEq β] (M : Maker σ κ β) (base : κ) (ks front rest : List κ) :
    ((onward front rest).thread M base ks : Thread ε σ Bool) = M.walk rest := by
  cases rest <;> rfl

theorem sound_onward (h : M.Reached s base ks front rest) :
    (onward front rest).Sound M s₀ s base ks := by
  cases rest with
  | nil => exact ⟨h, fun _ hk => by cases hk⟩
  | cons k rest => exact ⟨h, List.cons_ne_nil k rest⟩

theorem onward_cases (front rest : List κ) :
    (onward front rest).Waiting M s₀ base ks ∨ (onward front rest).Ahead M s := by
  cases rest with
  | nil => exact .inr fun _ hk => by cases hk
  | cons k rest => exact .inl trivial

/-- What a turn leaves of a walk: one that makes something is ahead then. -/
structure Turn (M : Maker σ κ β) (s₀ s s' : σ) (base : κ) (ks : List κ) (p p' : Phase κ) :
    Prop where
  grows : M.Grows s s'
  sound : p'.Sound M s₀ s' base ks
  same : (∀ k, M.look s' k = M.look s k) ∨ p'.Ahead M s'
  ahead : p.Ahead M s → p'.Ahead M s'
  waiting : p.Waiting M s₀ base ks → (∀ k, M.look s k = M.look s₀ k) →
    p'.Waiting M s₀ base ks ∨ p'.Ahead M s'

/-! ## Turns -/

theorem blocked_or_overtaken (hs : M.Grows s₀ s) {k : κ} {b : β} (hk : k ∈ ks)
    (hb : M.look s k = some b) (hbad : b ≠ M.good) :
    M.Blocked s₀ base ks ∨ M.Overtaken s₀ s ks := by
  by_cases hthere : M.look s₀ k = none
  · exact .inr ⟨k, hk, hthere, by rw [hb]; exact Option.some_ne_none b⟩
  · exact .inl (.inr ⟨k, hk, b, by rw [← hs k hthere, hb], hbad⟩)

theorem turn_making (h : M.Shared above next) (hks : (base :: ks).IsChain next)
    (habove : ks.Pairwise above) {k : κ} (hreached : M.Reached s base ks front (k :: rest))
    (hnone : ∀ j ∈ k :: rest, M.look s₀ j = none) :
    Turn M s₀ s (M.make s k).2 base ks (.making front (k :: rest))
      (if (M.make s k).1 then .making (front ++ [k]) rest else .failed) := by
  have hgrows : M.Grows s (M.make s k).2 := fun j hj => h.kept hj
  cases hmake : (M.make s k).1 with
  | true =>
    obtain ⟨hmissing, hmade⟩ := h.made hmake
    have hrest : ∀ j ∈ rest, M.look (M.make s k).2 j = none := fun j hj =>
      h.apart (hreached.lies habove j hj)
        (hreached.missing h habove hmissing j (List.mem_cons_of_mem k hj))
    exact ⟨hgrows, ⟨(hreached.later hgrows).pass hmade,
      fun j hj => hnone j (List.mem_cons_of_mem k hj)⟩, .inr hrest, fun _ => hrest,
      fun h => h.elim⟩
  | false =>
    have hthere : M.look s k ≠ none := fun hmissing => by
      rw [hreached.granted h hks hmissing] at hmake
      cases hmake
    have hsame := h.failed hmake
    refine ⟨hgrows, .inr ⟨k, hreached.suffix.subset List.mem_cons_self,
      hnone k List.mem_cons_self, by rwa [hsame k]⟩, .inl hsame,
      fun hahead => absurd (hahead k List.mem_cons_self) hthere, fun h => h.elim⟩

section

variable [DecidableEq β]

theorem turn_outside (hs : M.Grows s₀ s) : Turn M s₀ s s base ks .outside
    (if M.look s base = some M.good then onward [base] ks else .failed) := by
  by_cases hbase : M.look s base = some M.good
  · rw [if_pos hbase]
    have hreached : M.Reached s base ks [base] ks :=
      ⟨rfl, List.cons_ne_nil base [], fun k hk => by rwa [List.mem_singleton.mp hk]⟩
    exact ⟨grows_of_same fun _ => rfl, sound_onward hreached, .inl fun _ => rfl, fun h => h.elim,
      fun _ _ => onward_cases [base] ks⟩
  · rw [if_neg hbase]
    have hblocked : M.Blocked s₀ base ks := by
      refine .inl fun hgood => hbase ?_
      rw [hs base (by rw [hgood]; exact Option.some_ne_none _), hgood]
    exact ⟨grows_of_same fun _ => rfl, .inl hblocked, .inl fun _ => rfl, fun h => h.elim,
      fun _ _ => .inl hblocked⟩

theorem turn_passing (h : M.Shared above next) (habove : ks.Pairwise above)
    (hs : M.Grows s₀ s) {k : κ} (hreached : M.Reached s base ks front (k :: rest)) :
    ∃ p', (match M.look s k with
      | none => M.makes (k :: rest)
      | some b => if b = M.good then M.walk rest else .ret false : Thread ε σ Bool) =
        p'.thread M base ks ∧ Turn M s₀ s s base ks (.passing front (k :: rest)) p' := by
  have hsame : ∀ j, M.look s j = M.look s j := fun _ => rfl
  cases hk : M.look s k with
  | none =>
    have hmissing := hreached.missing h habove hk
    exact ⟨.making front (k :: rest), rfl, grows_of_same hsame,
      ⟨hreached, fun j hj => hs.missing (hmissing j hj)⟩, .inl hsame, fun h => h.elim,
      fun _ _ => .inr hmissing⟩
  | some b =>
    by_cases hb : b = M.good
    · subst hb
      refine ⟨onward (front ++ [k]) rest, ?_, grows_of_same hsame,
        sound_onward (hreached.pass hk), .inl hsame, fun h => h.elim, fun _ _ => onward_cases _ _⟩
      rw [thread_onward]
      exact if_pos rfl
    · have hmem : k ∈ ks := hreached.suffix.subset List.mem_cons_self
      refine ⟨.failed, if_neg hb, grows_of_same hsame, blocked_or_overtaken hs hmem hk hb,
        .inl hsame, fun h => h.elim, fun _ hstart => .inl (.inr ⟨k, hmem, b, ?_, hb⟩)⟩
      rw [← hstart k, hk]

end

end Phase

/-! ## The crowd -/

variable (M) in
/-- Walks side by side: one of them is ahead, or all are as if they had just begun. -/
structure Crowd [DecidableEq β] (s₀ : σ) (base : ι → κ) (ks : ι → List κ) (c : Pool ι ε σ Bool)
    (phases : ι → Phase κ) : Prop where
  grows : M.Grows s₀ c.state
  threads : ∀ i, c.threads i = (phases i).thread M (base i) (ks i)
  sound : ∀ i, (phases i).Sound M s₀ c.state (base i) (ks i)
  ahead : (∃ i, (phases i).Ahead M c.state) ∨
    (∀ k, M.look c.state k = M.look s₀ k) ∧
      ∀ i, (phases i).Waiting M s₀ (base i) (ks i)

section

variable [DecidableEq β] {c : Pool ι ε σ Bool} {phases : ι → Phase κ} {bases : ι → κ}
  {chains : ι → List κ}

theorem crowd_start (M : Maker σ κ β) (s₀ : σ) (bases : ι → κ) (chains : ι → List κ) :
    Crowd (ε := ε) M s₀ bases chains ⟨s₀, fun i => M.enter (bases i) (chains i)⟩
      fun _ => .outside :=
  ⟨grows_of_same fun _ => rfl, fun _ => rfl, fun _ => trivial,
    .inr ⟨fun _ => rfl, fun _ => trivial⟩⟩

section

variable [DecidableEq ι]

theorem Crowd.turn (hM : M.Shared above next) (hnext : ∀ i, (bases i :: chains i).IsChain next)
    (habove : ∀ i, (chains i).Pairwise above) (hc : Crowd M s₀ bases chains c phases) (i : ι) :
    c.step i = c ∨ ∃ s p, c.step i =
        ⟨s, Function.update c.threads i (p.thread M (bases i) (chains i))⟩ ∧
      Phase.Turn M s₀ c.state s (bases i) (chains i) (phases i) p := by
  have hthread := hc.threads i
  have hsound := hc.sound i
  cases hphase : phases i with
  | outside =>
    rw [hphase] at hthread
    refine .inr ⟨c.state, _, ?_, Phase.turn_outside hc.grows⟩
    rw [Pool.step_ok hthread rfl]
    split
    · rw [Phase.thread_onward]
    · rfl
  | passing front rest =>
    rw [hphase] at hthread hsound
    obtain ⟨hreached, hne⟩ := hsound
    cases rest with
    | nil => exact absurd rfl hne
    | cons k rest =>
      obtain ⟨p, hp, hturn⟩ := Phase.turn_passing (ε := ε) hM (habove i) hc.grows hreached
      exact .inr ⟨c.state, p, (Pool.step_ok hthread rfl).trans (by rw [← hp]), hturn⟩
  | making front rest =>
    rw [hphase] at hthread hsound
    cases rest with
    | nil => exact .inl (Pool.step_ret hthread)
    | cons k rest =>
      refine .inr ⟨_, _, ?_, Phase.turn_making hM (hnext i) (habove i) hsound.1 hsound.2⟩
      rw [Pool.step_ok hthread rfl]
      split <;> rfl
  | failed =>
    rw [hphase] at hthread
    exact .inl (Pool.step_ret hthread)

/-- **One turn** of a crowd. -/
theorem Crowd.step (hM : M.Shared above next) (hnext : ∀ i, (bases i :: chains i).IsChain next)
    (habove : ∀ i, (chains i).Pairwise above) (hc : Crowd M s₀ bases chains c phases) (i : ι) :
    ∃ phases', Crowd M s₀ bases chains (c.step i) phases' := by
  rcases hc.turn hM hnext habove i with hidle | ⟨s, p, hstep, hturn⟩
  · rw [hidle]
    exact ⟨phases, hc⟩
  rw [hstep]
  have hself : Function.update phases i p i = p := Function.update_self i p phases
  have hother : ∀ j, j ≠ i → Function.update phases i p j = phases j := fun j hj =>
    Function.update_of_ne hj p phases
  refine ⟨Function.update phases i p, hc.grows.trans hturn.grows, fun j => ?_, fun j => ?_, ?_⟩
  · by_cases hj : j = i
    · subst hj
      rw [hself]
      exact Function.update_self j _ c.threads
    · rw [hother j hj]
      exact (Function.update_of_ne hj _ c.threads).trans (hc.threads j)
  · by_cases hj : j = i
    · subst hj
      rw [hself]
      exact hturn.sound
    · rw [hother j hj]
      exact (hc.sound j).later hturn.grows
  · -- the thread of the turn gets ahead, or nothing is made
    have hturned : p.Ahead M s → ∃ j, (Function.update phases i p j).Ahead M s := fun h =>
      ⟨i, by rwa [hself]⟩
    rcases hc.ahead with ⟨j, hj⟩ | ⟨hstart, hwaiting⟩
    · by_cases hji : j = i
      · subst hji
        exact .inl (hturned (hturn.ahead hj))
      · rcases hturn.same with hsame | hahead
        · exact .inl ⟨j, by rw [hother j hji]; exact hj.same hsame⟩
        · exact .inl (hturned hahead)
    · rcases hturn.same with hsame | hahead
      · rcases hturn.waiting (hwaiting i) hstart with hwait | hahead
        · refine .inr ⟨fun k => (hsame k).trans (hstart k), fun j => ?_⟩
          by_cases hj : j = i
          · subst hj
            rwa [hself]
          · rw [hother j hj]
            exact hwaiting j
        · exact .inl (hturned hahead)
      · exact .inl (hturned hahead)

theorem Crowd.runs (hM : M.Shared above next) (hnext : ∀ i, (bases i :: chains i).IsChain next)
    (habove : ∀ i, (chains i).Pairwise above) (hc : Crowd M s₀ bases chains c phases)
    (schedule : List ι) : ∃ phases', Crowd M s₀ bases chains (c.runs schedule) phases' := by
  induction schedule generalizing c phases with
  | nil => exact ⟨phases, hc⟩
  | cons i schedule ih =>
    obtain ⟨phases', hc'⟩ := hc.step hM hnext habove i
    exact ih hc'

end

/-- **A crowd at its end**: a walk that succeeds has its places, one that fails was blocked from the
start or overtaken, and one succeeds unless all of them were blocked. -/
theorem Crowd.ends (hc : Crowd M s₀ bases chains c phases) :
    (∀ i, c.threads i = .ret true → ∀ k ∈ bases i :: chains i, M.look c.state k = some M.good) ∧
    (∀ i, c.threads i = .ret false →
      M.Blocked s₀ (bases i) (chains i) ∨ M.Overtaken s₀ c.state (chains i)) ∧
    ((∀ i, ∃ b, c.threads i = .ret b) →
      (∃ i, c.threads i = .ret true) ∨ ∀ i, M.Blocked s₀ (bases i) (chains i)) := by
  have hended : ∀ i b, c.threads i = .ret b →
      (b = true ∧ ∃ front, phases i = .making front []) ∨ (b = false ∧ phases i = .failed) := by
    intro i b hb
    have hthread := (hc.threads i).symm.trans hb
    have hsound := hc.sound i
    cases hphase : phases i with
    | outside => rw [hphase] at hthread; cases hthread
    | passing front rest =>
      rw [hphase] at hthread hsound
      cases rest with
      | nil => exact absurd rfl hsound.2
      | cons k rest => cases hthread
    | making front rest =>
      rw [hphase] at hthread
      obtain ⟨rfl, rfl⟩ := makes_ret hthread
      exact .inl ⟨rfl, front, rfl⟩
    | failed =>
      rw [hphase] at hthread
      cases hthread
      exact .inr ⟨rfl, rfl⟩
  refine ⟨fun i hi k hk => ?_, fun i hi => ?_, fun hall => ?_⟩
  · obtain ⟨-, front, hphase⟩ := (hended i true hi).resolve_right fun h => by cases h.1
    have hsound := hc.sound i
    rw [hphase] at hsound
    have hreached := hsound.1
    rw [hreached.split, List.append_nil] at hk
    exact hreached.good k hk
  · obtain ⟨-, hphase⟩ := (hended i false hi).resolve_left fun h => by cases h.1
    have hsound := hc.sound i
    rw [hphase] at hsound
    exact hsound
  · rcases hc.ahead with ⟨i, hi⟩ | ⟨-, hwaiting⟩
    · obtain ⟨b, hb⟩ := hall i
      rcases hended i b hb with ⟨rfl, -⟩ | ⟨-, hphase⟩
      · exact .inl ⟨i, hb⟩
      · rw [hphase] at hi
        exact hi.elim
    · refine .inr fun i => ?_
      obtain ⟨b, hb⟩ := hall i
      have hwait := hwaiting i
      rcases hended i b hb with ⟨-, front, hphase⟩ | ⟨-, hphase⟩
      · rw [hphase] at hwait
        exact hwait.elim
      · rw [hphase] at hwait
        exact hwait

end

end Maker
end Layered
