import RedPak.Layered.Merge

/-!
# Layered.Matrix

The rule of nested settings, each off or on: what is off at a level cannot be
turned on nearer, within one kind of setting, and a strong setting hides the weak ones.

* `row`, `fold`: the rule level by level, from the farthest level to the nearest, on the state
  reached at the level before.
* `fold_eq`: the fold fails exactly when the strong settings, or the weak ones that lie beyond
  every strong one, hold an on that is nearer than an off (`raised`).
* `mergeClass_none_iff`: the walk from the nearest level, which compares with the recorded item
  only, fails exactly when the nearest strong setting, or the nearest weak one among those that
  lie before every strong one, is on with an off farther (`raisedHead`).
-/

namespace Layered

/-- The weak and the strong setting of a level, if any: off or on. -/
structure Level where
  weak : Option Bool
  strong : Option Bool
deriving DecidableEq

/-- What is set at a level once its ancestors are taken into account: the kind of the setting that
counts (strong or not) and its value. -/
abbrev State := Option (Bool × Bool)

/-- One level below the state of its parent; `none` when the rule is broken. -/
def row : State → Level → Option State
  | some (true, p), ⟨_, none⟩ => some (some (true, p))
  | some (true, false), ⟨_, some true⟩ => none
  | _, ⟨_, some a⟩ => some (some (true, a))
  | some (false, false), ⟨some true, none⟩ => none
  | _, ⟨some b, none⟩ => some (some (false, b))
  | p, ⟨none, none⟩ => some p

/-- The state of the nearest level, computed from the farthest one. -/
def fold : List Level → Option State
  | [] => some none
  | l :: ls =>
    match fold ls with
    | none => none
    | some p => row p l

def strongs (ls : List Level) : List Bool := ls.filterMap (·.strong)

def weaks (ls : List Level) : List Bool := ls.filterMap (·.weak)

/-- The weak settings that are nearer than every strong one. -/
def lows : List Level → List Bool
  | [] => []
  | ⟨w, none⟩ :: ls => w.toList ++ lows ls
  | ⟨_, some _⟩ :: _ => []

/-- The weak settings that are farther than every strong one. -/
def highs : List Level → List Bool
  | [] => []
  | ⟨w, s⟩ :: ls => if s = none ∧ strongs ls = [] then w.toList ++ highs ls else highs ls

/-- Some setting is on and a farther one is off. -/
def raised : List Bool → Bool
  | [] => false
  | a :: l => (a && l.any (!·)) || raised l

/-- The nearest setting is on and a farther one is off. -/
def raisedHead : List Bool → Bool
  | [] => false
  | a :: l => a && l.any (!·)

theorem strongs_cons (l : Level) (ls : List Level) :
    strongs (l :: ls) = l.strong.toList ++ strongs ls := by
  obtain ⟨w, s⟩ := l; cases s <;> rfl

theorem weaks_cons (l : Level) (ls : List Level) :
    weaks (l :: ls) = l.weak.toList ++ weaks ls := by
  obtain ⟨w, s⟩ := l; cases w <;> rfl

theorem highs_of_strongs_nil {ls : List Level} (h : strongs ls = []) : highs ls = weaks ls := by
  induction ls with
  | nil => rfl
  | cons l ls ih =>
    obtain ⟨w, s⟩ := l
    cases s with
    | none =>
      have hs : strongs ls = [] := h
      simp [highs, hs, ih hs, weaks_cons]
    | some a => simp [strongs_cons] at h

theorem lows_of_strongs_nil {ls : List Level} (h : strongs ls = []) : lows ls = weaks ls := by
  induction ls with
  | nil => rfl
  | cons l ls ih =>
    obtain ⟨w, s⟩ := l
    cases s with
    | none =>
      have hs : strongs ls = [] := h
      simp [lows, ih hs, weaks_cons]
    | some a => simp [strongs_cons] at h

theorem raised_of_raisedHead {l : List Bool} (h : raisedHead l = true) : raised l = true := by
  cases l with
  | nil => cases h
  | cons a l => exact Bool.or_eq_true_iff.mpr (.inl h)

theorem raised_cons (a : Bool) (l : List Bool) :
    raised (a :: l) = ((a && l.any (!·)) || raised l) := rfl

/-- Below settings that obey the rule, an on breaks it exactly when the next setting is off. -/
theorem raised_cons_of_not_raised {l : List Bool} (h : raised l = false) (a : Bool) :
    raised (a :: l) = (a && l.head? == some false) := by
  cases l with
  | nil => simp [raised]
  | cons b l =>
    cases b
    · simp [raised_cons] at h ⊢; simp [h]
    · simp only [raised, Bool.true_and, Bool.or_eq_false_iff] at h
      simp [raised, h]

theorem raised_append_of_raised {l : List Bool} (h : raised l = true) (o : Option Bool) :
    raised (o.toList ++ l) = true := by
  cases o <;> simp [raised_cons, h]

/-- The state the rule leads to: the nearest strong setting, otherwise the nearest weak one. -/
def stateOf (ls : List Level) : State :=
  match strongs ls, weaks ls with
  | a :: _, _ => some (true, a)
  | [], b :: _ => some (false, b)
  | [], [] => none

theorem row_strong (ls : List Level) (w : Option Bool) (a : Bool) :
    row (stateOf ls) ⟨w, some a⟩ =
      if a && (strongs ls).head? == some false then none else some (some (true, a)) := by
  unfold stateOf
  cases strongs ls with
  | cons b bs => cases a <;> cases b <;> rfl
  | nil =>
    cases weaks ls with
    | nil => cases a <;> rfl
    | cons b bs => cases a <;> cases b <;> rfl

theorem row_weak {ls : List Level} (h : strongs ls = []) (b : Bool) :
    row (stateOf ls) ⟨some b, none⟩ =
      if b && (weaks ls).head? == some false then none else some (some (false, b)) := by
  unfold stateOf
  rw [h]
  cases weaks ls with
  | nil => cases b <;> rfl
  | cons c cs => cases b <;> cases c <;> rfl

theorem row_none (ls : List Level) : row (stateOf ls) ⟨none, none⟩ = some (stateOf ls) := by
  unfold stateOf
  cases strongs ls with
  | cons a as => cases a <;> rfl
  | nil =>
    cases weaks ls with
    | nil => rfl
    | cons b bs => cases b <;> rfl

/-- **The fold.** It fails exactly when a strong setting, or a weak one beyond every strong one,
is raised above a farther one, and else gives the setting that counts. -/
theorem fold_eq (ls : List Level) :
    fold ls = if raised (strongs ls) || raised (highs ls) then none else some (stateOf ls) := by
  induction ls with
  | nil => rfl
  | cons l ls ih =>
    obtain ⟨w, s⟩ := l
    simp only [fold, ih]
    cases hr : raised (strongs ls) || raised (highs ls)
    · -- the levels beyond obey the rule: only the row of this level can fail
      rw [Bool.or_eq_false_iff] at hr
      simp only [Bool.false_eq_true, if_false]
      cases s with
      | some a =>
        have hh : highs (⟨w, some a⟩ :: ls) = highs ls := by simp [highs]
        rw [row_strong, hh, hr.2, strongs_cons, Bool.or_false]
        simp [raised_cons_of_not_raised hr.1, stateOf, strongs_cons]
      | none =>
        cases hst : strongs ls with
        | cons b bs =>
          have hh : highs (⟨w, none⟩ :: ls) = highs ls := by simp [highs, hst]
          have hrow : row (stateOf ls) ⟨w, none⟩ = some (some (true, b)) := by
            cases b <;> simp [stateOf, hst, row]
          rw [hrow, hh, hr.2, strongs_cons]
          have hst' : raised (b :: bs) = false := hst ▸ hr.1
          simp [hst', stateOf, strongs_cons, hst]
        | nil =>
          have hw := highs_of_strongs_nil hst
          rw [hw] at hr
          rw [strongs_cons, hst]
          cases w with
          | none =>
            rw [row_none]
            simp [highs, hst, hw, hr.2, raised, stateOf, strongs_cons, weaks_cons]
          | some b =>
            rw [row_weak hst]
            simp [highs, hst, hw, raised_cons_of_not_raised hr.2, stateOf, strongs_cons,
              weaks_cons, show raised [] = false from rfl]
    · -- a level beyond breaks the rule, and so does the whole chain
      rw [Bool.or_eq_true] at hr
      have : (raised (strongs (⟨w, s⟩ :: ls)) || raised (highs (⟨w, s⟩ :: ls))) = true := by
        rw [Bool.or_eq_true, strongs_cons]
        rcases hr with hr | hr
        · exact .inl (raised_append_of_raised hr s)
        · refine .inr ?_
          simp only [highs]
          split
          · exact raised_append_of_raised hr w
          · exact hr
      rw [this]; rfl

/-! ## The walk from the nearest level -/

section Walk

variable {ν α : Type*} (dupOk : α → α → Bool) (on : α → Bool)

/-- What is on is not farther off. -/
def keepsOff (near far : α) : Bool := !(on near && !on far)

variable (s w : ν → Option α)

def levelOf (n : ν) : Level := ⟨(w n).map on, (s n).map on⟩

theorem lows_cons (l : Level) (ls : List Level) :
    lows (l :: ls) = match l.strong with
      | none => l.weak.toList ++ lows ls
      | some _ => [] := by
  obtain ⟨wk, st⟩ := l; cases st <;> rfl

/-- The run while a strong item counts, which is at a nearer level than those to come. -/
theorem mergeClass_strong (ns : List ν) : ∀ (d : Nat) (l : Link ν α), l.cur.strong = true →
    l.cur.depth < d →
    (mergeClass dupOk (keepsOff on) (some l)
      (walk (fun n => (s n).toList) (fun n => (w n).toList) d ns) = none ↔
      (on l.cur.val && (strongs (ns.map (levelOf on s w))).any (!·)) = true) := by
  induction ns with
  | nil => intro d l _ _; simp [walk, strongs]
  | cons n ns ih =>
    intro d l hl hd
    have hne : l.cur.depth ≠ d := Nat.ne_of_lt hd
    have hrest := ih (d + 1) l hl (by omega)
    have hweak : mergeClass dupOk (keepsOff on) (some l) (items d false n (w n).toList ++
        walk (fun n => (s n).toList) (fun n => (w n).toList) (d + 1) ns) =
        mergeClass dupOk (keepsOff on) (some l)
          (walk (fun n => (s n).toList) (fun n => (w n).toList) (d + 1) ns) := by
      cases hw : w n <;> simp [mergeClass, Link.meet, meet, hne, hl]
    rw [List.map_cons, strongs_cons]
    cases hs : s n with
    | none => simpa [walk, hs, hweak, levelOf] using hrest
    | some a =>
      simp only [walk, hs, Option.toList_some, items_cons, items_nil, List.cons_append,
        List.nil_append, mergeClass, Link.meet, meet, hne, hl, if_true, if_false]
      by_cases hk : keepsOff on l.cur.val a = true
      · simp only [hk, if_true, Option.map_some, hweak, hrest, levelOf, hs]
        have : (on l.cur.val && !on a) = false := by
          simpa only [keepsOff, Bool.not_eq_true'] using hk
        cases ho : on l.cur.val <;> simp_all
      · have : on l.cur.val = true ∧ on a = false := by simpa [keepsOff] using hk
        simp [hk, levelOf, hs, this]

theorem mergeClass_weak (ns : List ν) : ∀ (d : Nat) (l : Link ν α), l.cur.strong = false →
    l.cur.depth < d →
    (mergeClass dupOk (keepsOff on) (some l)
      (walk (fun n => (s n).toList) (fun n => (w n).toList) d ns) = none ↔
      ((on l.cur.val && (lows (ns.map (levelOf on s w))).any (!·)) ||
        raisedHead (strongs (ns.map (levelOf on s w)))) = true) := by
  induction ns with
  | nil => intro d l _ _; simp [walk, strongs, lows, raisedHead]
  | cons n ns ih =>
    intro d l hl hd
    have hne : l.cur.depth ≠ d := Nat.ne_of_lt hd
    rw [List.map_cons, strongs_cons, lows_cons]
    cases hs : s n with
    | some a =>
      -- the strong item takes the place of the weak one, and hides the weak item of its level
      have hrest := mergeClass_strong dupOk on s w ns (d + 1) ⟨l.first, ⟨d, true, n, a⟩⟩ rfl
        (Nat.lt_succ_self d)
      have hweak : mergeClass dupOk (keepsOff on) (some ⟨l.first, ⟨d, true, n, a⟩⟩)
          (items d false n (w n).toList ++
            walk (fun n => (s n).toList) (fun n => (w n).toList) (d + 1) ns) =
          mergeClass dupOk (keepsOff on) (some ⟨l.first, ⟨d, true, n, a⟩⟩)
            (walk (fun n => (s n).toList) (fun n => (w n).toList) (d + 1) ns) := by
        cases hw : w n <;> simp [mergeClass, Link.meet, meet]
      simp only [walk, hs, Option.toList_some, items_cons, items_nil, List.cons_append,
        List.nil_append, mergeClass, Link.meet, meet, hne, hl, if_true, if_false,
        Bool.false_eq_true, Option.map_some, hweak, hrest, levelOf, raisedHead]
      simp
    | none =>
      have hrest := ih (d + 1) l hl (by omega)
      cases hw : w n with
      | none => simpa [walk, hs, hw, levelOf] using hrest
      | some b =>
        simp only [walk, hs, hw, Option.toList_some, Option.toList_none, items_cons, items_nil,
          List.cons_append, List.nil_append, mergeClass, Link.meet, meet, hne, hl, if_false,
          Bool.false_eq_true]
        by_cases hk : keepsOff on l.cur.val b = true
        · simp only [hk, if_true, Option.map_some, hrest, levelOf, hs, hw]
          have : (on l.cur.val && !on b) = false := by
            simpa only [keepsOff, Bool.not_eq_true'] using hk
          cases ho : on l.cur.val <;> simp_all
        · have : on l.cur.val = true ∧ on b = false := by simpa [keepsOff] using hk
          simp [hk, levelOf, hs, hw, this]

/-- **The walk.** It fails exactly when the nearest strong setting, or the nearest weak one below
every strong one, is on with an off farther. -/
theorem mergeClass_none_iff (ns : List ν) : ∀ d : Nat,
    mergeClass dupOk (keepsOff on) none
      (walk (fun n => (s n).toList) (fun n => (w n).toList) d ns) = none ↔
      (raisedHead (lows (ns.map (levelOf on s w))) ||
        raisedHead (strongs (ns.map (levelOf on s w)))) = true := by
  induction ns with
  | nil => intro d; simp [walk, strongs, lows, raisedHead]
  | cons n ns ih =>
    intro d
    rw [List.map_cons, strongs_cons, lows_cons]
    cases hs : s n with
    | some a =>
      have hrest := mergeClass_strong dupOk on s w ns (d + 1)
        ⟨⟨d, true, n, a⟩, ⟨d, true, n, a⟩⟩ rfl (Nat.lt_succ_self d)
      cases hw : w n <;>
        simpa [walk, hs, hw, mergeClass, Link.meet, meet, levelOf, raisedHead] using hrest
    | none =>
      cases hw : w n with
      | none => simpa [walk, hs, hw, levelOf] using ih (d + 1)
      | some b =>
        have hrest := mergeClass_weak dupOk on s w ns (d + 1)
          ⟨⟨d, false, n, b⟩, ⟨d, false, n, b⟩⟩ rfl (Nat.lt_succ_self d)
        simpa [walk, hs, hw, mergeClass, levelOf, raisedHead] using hrest

end Walk

end Layered
