import RedPak.Conf.Capabilities
import RedPak.Conf.Shares

/-!
# Conf.Matrix

The matrices of the merges of capabilities and of sharings, as the comments of `redconf-mix.c` and
the design document have them, and what the merges refuse.

The matrix computes the state of a node from that of its parent, from the root down; the merges
walk up from the leaf.

* `matrix_eq_row`: the matrix is `Layered.row`.
* `capsRefused_levels`, `sharesRefused_levels`: what the merges refuse, in terms of levels.
* `rejection_iff`: when the merges fail exactly as the matrix says; `rejection_differs`: they do not
  always.
-/

namespace RedPak
namespace Conf

open Layered (Level levelOf raised raisedHead strongs lows highs)

/-- The column PARENT: unset, or disabled or enabled by a normal or an admin config. -/
inductive MatrixState where
  | unset
  | n0
  | n1
  | a0
  | a1
deriving DecidableEq

/-- The rows of the matrix, with the columns PARENT, NORMAL and ADMIN; `none` is ERROR. -/
def matrix : MatrixState → Option Bool → Option Bool → Option MatrixState
  | .unset, none, none => some .unset
  | .unset, some false, none => some .n0
  | .unset, some true, none => some .n1
  | .unset, _, some false => some .a0
  | .unset, _, some true => some .a1
  | .n0, none, none => some .n0
  | .n0, some false, none => some .n0
  | .n0, some true, none => none
  | .n0, _, some false => some .a0
  | .n0, _, some true => some .a1
  | .n1, none, none => some .n1
  | .n1, some false, none => some .n0
  | .n1, some true, none => some .n1
  | .n1, _, some false => some .a0
  | .n1, _, some true => some .a1
  | .a0, _, none => some .a0
  | .a0, _, some false => some .a0
  | .a0, _, some true => none
  | .a1, _, none => some .a1
  | .a1, _, some false => some .a0
  | .a1, _, some true => some .a1

/-- The final state of a node: the matrix from the root down. The levels come leaf first. -/
def matrixFold : List Level → Option MatrixState
  | [] => some .unset
  | l :: ls =>
    match matrixFold ls with
    | none => none
    | some parent => matrix parent l.weak l.strong

def MatrixState.state : MatrixState → Layered.State
  | .unset => none
  | .n0 => some (false, false)
  | .n1 => some (false, true)
  | .a0 => some (true, false)
  | .a1 => some (true, true)

theorem matrix_eq_row (p : MatrixState) (l : Level) :
    (matrix p l.weak l.strong).map MatrixState.state = Layered.row p.state l := by
  obtain ⟨w, s⟩ := l
  rcases p <;> rcases w with _ | _ | _ <;> rcases s with _ | _ | _ <;> rfl

theorem matrixFold_eq_fold (ls : List Level) :
    (matrixFold ls).map MatrixState.state = Layered.fold ls := by
  induction ls with
  | nil => rfl
  | cons l ls ih =>
    simp only [matrixFold, Layered.fold, ← ih]
    cases matrixFold ls with
    | none => rfl
    | some p => exact matrix_eq_row p l

theorem matrixFold_eq_none_iff (ls : List Level) :
    matrixFold ls = none ↔ (raised (strongs ls) || raised (highs ls)) = true := by
  rw [← Option.map_eq_none_iff (f := MatrixState.state), matrixFold_eq_fold, Layered.fold_eq]
  split <;> simp_all

theorem matrixFold_unset {ls : List Level} (h : ∀ l ∈ ls, l = ⟨none, none⟩) :
    matrixFold ls = some .unset := by
  induction ls with
  | nil => rfl
  | cons l ls ih =>
    rw [matrixFold, ih fun x hx => h x (by simp [hx]), h l (by simp)]; rfl

/-! ## Capabilities -/

def capLevels (node : Family) (k : Option (List UInt8)) : List Level :=
  node.toRoot.map (levelOf RedConfCap.adds (mixCapa.definedIn node k true)
    (mixCapa.definedIn node k false))

def capsError (node : Family) : Prop := ∃ k, matrixFold (capLevels node k) = none

theorem capsError_iff (node : Family) :
    capsError node ↔ ∃ k ∈ mixCapa.names node, matrixFold (capLevels node k) = none := by
  refine ⟨fun ⟨k, hk⟩ => ⟨k, ?_, hk⟩, fun ⟨k, _, hk⟩ => ⟨k, hk⟩⟩
  by_contra hmem
  have hnone : ∀ f ∈ node.toRoot, ∀ admin, mixCapa.definedIn node k admin f = none := by
    intro f hf admin
    refine List.find?_eq_none.mpr fun d hd hname => hmem ?_
    refine List.mem_flatMap.mpr ⟨f, hf, List.mem_map.mpr ⟨d, ?_, by simpa using hname⟩⟩
    cases admin
    · exact List.mem_append_right _ hd
    · exact List.mem_append_left _ hd
  rw [matrixFold_unset] at hk
  · cases hk
  · intro l hl
    obtain ⟨f, hf, rfl⟩ := List.mem_map.mp hl
    simp [levelOf, hnone f hf]

instance (node : Family) : Decidable (capsError node) :=
  decidable_of_iff _ (capsError_iff node).symm

theorem capsRefused_levels {node : Family} (hdup : mixCapa.Distinct node) : capsRefused node ↔
    ∃ k, (raisedHead (lows (capLevels node k)) ||
      raisedHead (strongs (capLevels node k))) = true := by
  rw [capsRefused_iff]
  refine exists_congr fun k => ?_
  rw [Mix.Lawful.acceptedName_eq_false, mixCapa.found_filter_of_distinct hdup k]
  exact Layered.mergeClass_none_iff _ _ _ _ _ _

/-! ## Sharings -/

def shareLevels (node : Family) (k : ShareKey) : List Level :=
  node.toRoot.map (levelOf shareOn (shareSetting k true) (shareSetting k false))

def sharesError (node : Family) : Prop := ∃ k, matrixFold (shareLevels node k) = none

instance (node : Family) : Decidable (sharesError node) :=
  decidable_of_iff (∃ k ∈ ShareKey.keys, matrixFold (shareLevels node k) = none)
    ⟨fun ⟨k, _, hk⟩ => ⟨k, hk⟩, fun ⟨k, hk⟩ => ⟨k, k.mem_keys, hk⟩⟩

theorem sharesRefused_levels (node : Family) : sharesRefused node ↔
    ∃ k, (raisedHead (lows (shareLevels node k)) ||
      raisedHead (strongs (shareLevels node k))) = true := by
  rw [sharesRefused_iff]
  exact exists_congr fun k => Layered.mergeClass_none_iff _ _ _ _ _ _

/-! ## Exact rejection -/

section

variable {κ : Type} (levels : κ → List Level)

/-- The walk refuses what the matrix accepts. No name breaks the rule, but for one with admin
settings the nearest normal setting below all of them is on, with one farther that is off and also
below all of them. -/
def FalseAlarm : Prop :=
  (∃ k, strongs (levels k) ≠ [] ∧ raisedHead (lows (levels k)) = true) ∧
    ∀ k, raised (strongs (levels k)) = false ∧ raised (highs (levels k)) = false

/-- The walk accepts what the matrix refuses. Some admin setting, or normal one above all admin
ones, is on with one of its kind farther that is off, but the nearest admin setting is not, nor the
nearest normal one below all admin ones. -/
def Missed : Prop :=
  (∃ k, raised (strongs (levels k)) = true ∨ raised (highs (levels k)) = true) ∧
    ∀ k, raisedHead (strongs (levels k)) = false ∧ raisedHead (lows (levels k)) = false

theorem walk_rule_iff :
    ((∃ k, (raisedHead (lows (levels k)) || raisedHead (strongs (levels k))) = true) ↔
      ∃ k, matrixFold (levels k) = none) ↔ ¬ FalseAlarm levels ∧ ¬ Missed levels := by
  simp only [matrixFold_eq_none_iff, Bool.or_eq_true]
  constructor
  · intro h
    refine ⟨?_, ?_⟩
    · rintro ⟨⟨k, -, hk⟩, hrule⟩
      obtain ⟨k', hk'⟩ := h.mp ⟨k, .inl hk⟩
      have := hrule k'
      rcases hk' with hk' | hk' <;> simp [hk'] at this
    · rintro ⟨hrule, hwalk⟩
      obtain ⟨k, hk⟩ := h.mpr hrule
      have := hwalk k
      rcases hk with hk | hk <;> simp [hk] at this
  · rintro ⟨halarm, hmissed⟩
    constructor
    · rintro ⟨k, hk⟩
      by_contra hrule
      simp only [not_exists, not_or, Bool.not_eq_true] at hrule
      rcases hk with hk | hk
      · -- without strong settings, the low ones are all weak ones, and so are the high ones
        refine halarm ⟨⟨k, fun hs => ?_, hk⟩, hrule⟩
        have hr := Layered.raised_of_raisedHead hk
        rw [Layered.lows_of_strongs_nil hs, ← Layered.highs_of_strongs_nil hs, (hrule k).2] at hr
        cases hr
      · have hr := Layered.raised_of_raisedHead hk
        rw [(hrule k).1] at hr
        cases hr
    · intro hrule
      by_contra hwalk
      simp only [not_exists, not_or, Bool.not_eq_true] at hwalk
      exact hmissed ⟨hrule, fun k => (hwalk k).symm⟩

end

/-- **Rejection.** The merges of capabilities and of sharings fail exactly when the matrix reaches
ERROR, but for false alarms and misses. -/
theorem rejection_iff (node : Family) (hdup : mixCapa.Distinct node) :
    ((capsRefused node ↔ capsError node) ↔
      ¬ FalseAlarm (capLevels node) ∧ ¬ Missed (capLevels node)) ∧
    ((sharesRefused node ↔ sharesError node) ↔
      ¬ FalseAlarm (shareLevels node) ∧ ¬ Missed (shareLevels node)) := by
  rw [capsRefused_levels hdup, sharesRefused_levels]
  exact ⟨walk_rule_iff _, walk_rule_iff _⟩

def settingNode (value : Int) (share : CStr) : RedNode where
  config := some {
    headers := { nodeAlias := CStr.lit "node" }
    conftag := {
      share := { net := share }
      capabilities := [{ cap := CStr.lit "cap_kill", add := value }] } }
  redpath := CStr.lit "/node"

def settingRoot (value : Int) (share : CStr) : RedNode where
  config := none
  confadmin := (settingNode value share).config
  redpath := CStr.lit "/root"

def nodeOn : RedNode := settingNode 1 (CStr.lit "enabled")
def nodeOff : RedNode := settingNode 0 (CStr.lit "disabled")

/-- An admin on at the root, then off, then on at the leaf: the rows lead to 1A, and the merges
fail. -/
def alarmFamily : Family := ⟨nodeOn, [nodeOff, settingRoot 1 (CStr.lit "enabled")]⟩

/-- Off at the root, then on, then off at the leaf: the node between is an ERROR, and the merges do
not fail. -/
def missedFamily : Family := ⟨nodeOff, [nodeOn, nodeOff]⟩

theorem rejection_iff_alarmFamily :
    ((capsRefused alarmFamily ↔ capsError alarmFamily) ↔
      ¬ FalseAlarm (capLevels alarmFamily) ∧ ¬ Missed (capLevels alarmFamily)) ∧
    ((sharesRefused alarmFamily ↔ sharesError alarmFamily) ↔
      ¬ FalseAlarm (shareLevels alarmFamily) ∧ ¬ Missed (shareLevels alarmFamily)) :=
  rejection_iff alarmFamily (by decide)

/-- The merges and the matrix differ. -/
theorem rejection_differs :
    (capsRefused alarmFamily ∧ ¬ capsError alarmFamily) ∧
    (sharesRefused alarmFamily ∧ ¬ sharesError alarmFamily) ∧
    (¬ capsRefused missedFamily ∧ capsError missedFamily) ∧
    (¬ sharesRefused missedFamily ∧ sharesError missedFamily) := by
  refine ⟨⟨?_, by decide⟩, ⟨by decide, by decide⟩, ⟨?_, by decide⟩, by decide, by decide⟩
  · rw [capsRefused, mixCapabilities_eq]; decide
  · rw [capsRefused, mixCapabilities_eq]; decide

end Conf
end RedPak
