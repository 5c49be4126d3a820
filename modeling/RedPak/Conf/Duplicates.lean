import RedPak.Conf.Variables
import RedPak.Conf.Exports
import RedPak.Conf.Capabilities

/-!
# Conf.Duplicates

Two definitions of one name in one config, which differ. The merges find them only where the first
one counts: a definition is compared with the one that its link holds.

* `Mix.Lawful.mixConf_refused`, `mixConf_notRefused`: what a merge ends with when two definitions
  clash, and when none do.
* `conflictsDetected_iff`: exactly when conflicts are detected.
-/

namespace RedPak
namespace Conf

open Layered (Item deliver)

namespace Mix

variable {δ τ : Type} {m : Mix δ τ} {σ : Type*}

/-- Some config of the chain has two definitions of one name that differ. -/
def Conflict (m : Mix δ τ) (differ : δ → δ → Prop) (leaf : Family) : Prop :=
  ∃ f ∈ leaf.toRoot, ∃ admin, ∃ d ∈ m.visible leaf admin f, ∃ d' ∈ m.visible leaf admin f,
    (m.name f d).isSome ∧ m.name f d = m.name f d' ∧ differ d d'

namespace Lawful

variable (law : m.Lawful) (finish : MixEnd τ σ)

/-- The definitions of a name that are met before one without a name. -/
def met (m : Mix δ τ) (leaf : Family) (k : Option (List UInt8)) : List (Item Family δ) :=
  (namedPart m leaf).filter fun e => m.key e = k

/-- Two definitions of one name disagree, the first of which counts when the other is met. -/
def Clash (leaf : Family) : Prop :=
  ∃ k c, ∃ e ∈ met m leaf k, Layered.CountsAt (met m leaf k) c e ∧
    Layered.agrees law.dupOk law.overOk c e = false

theorem refusedEarly_iff_clash (hrefl : ∀ d, law.dupOk d d = true) {leaf : Family} :
    law.RefusedEarly leaf ↔ law.Clash leaf := by
  have hbefore : ∀ k, (met m leaf k).Pairwise Item.Before := fun k =>
    ((m.found_before leaf).sublist (List.takeWhile_sublist _)).sublist List.filter_sublist
  exact exists_congr fun k =>
    Layered.accepted_eq_false_iff law.dupOk law.overOk (hbefore k) hrefl

theorem namedPart_of_named {leaf : Family} (h : m.Named leaf) :
    namedPart m leaf = m.found leaf :=
  List.takeWhile_eq_self_iff.mpr fun _ he => h _ (m.mem_found he).1 _ _ (m.mem_found he).2

/-- The links are those of the definitions with names, when names can be compared. -/
theorem links_eq_none_iff {leaf : Family} (hcomp : m.Comparable leaf) :
    law.links leaf = none ↔ law.RefusedEarly leaf := by
  rw [refusedEarly_iff, links]
  rcases hcomp with hnamed | hlen
  · rw [namedPart_of_named hnamed]
  · -- one definition at most: nothing is compared
    have hsome : ∀ es : List (Item Family δ), es.length ≤ 1 →
        Layered.mergeAll law.dupOk law.overOk m.key [] es ≠ none := by
      intro es hes
      cases es with
      | nil => simp [Layered.mergeAll]
      | cons e es =>
        obtain rfl : es = [] := List.eq_nil_of_length_eq_zero (by simpa using hes)
        simp [Layered.mergeAll, Layered.mergeStep, Layered.updateLinks]
    have hpart : (namedPart m leaf).length ≤ 1 :=
      Nat.le_trans (List.takeWhile_sublist _).length_le hlen
    exact ⟨fun h => absurd h (hsome _ hlen), fun h => absurd h (hsome _ hpart)⟩

theorem mixConf_refused {leaf : Family} (h : law.RefusedEarly leaf) (closure : σ) :
    (m.mixConf finish leaf closure).result = some (-1, closure) := by
  by_cases hcomp : m.Comparable leaf
  · rw [law.mixConf_eq finish hcomp, (law.links_eq_none_iff hcomp).mpr h]
  · rw [law.mixConf_stops finish hcomp, if_pos (law.refusedEarly_iff.mp h)]

theorem mixConf_notRefused {leaf : Family} (h : ¬ law.RefusedEarly leaf) (closure : σ) :
    (m.mixConf finish leaf closure).result = none ∨ ∃ n head,
      (m.mixConf finish leaf closure).result = some (finish n head closure) := by
  by_cases hcomp : m.Comparable leaf
  · rw [law.mixConf_eq finish hcomp]
    cases hls : law.links leaf with
    | none => exact absurd ((law.links_eq_none_iff hcomp).mp hls) h
    | some ls => exact .inr ⟨_, _, rfl⟩
  · rw [law.mixConf_stops finish hcomp, if_neg fun hn => h (law.refusedEarly_iff.mpr hn)]
    exact .inl rfl

/-- A merge that would accept all calls fails by -1 exactly when two definitions clash. -/
theorem mixConf_fails_iff (hrefl : ∀ d, law.dupOk d d = true)
    {finish : MixEnd τ Unit} (hok : ∀ n head, (finish n head ()).1 = 0) {leaf : Family} :
    (m.mixConf finish leaf ()).result = some (-1, ()) ↔ law.Clash leaf := by
  rw [← law.refusedEarly_iff_clash hrefl]
  constructor
  · intro hrun
    by_contra hnot
    rcases law.mixConf_notRefused finish hnot () with h | ⟨n, head, h⟩
    · rw [hrun] at h
      cases h
    · rw [hrun, Option.some.injEq] at h
      have hrc := hok n head
      rw [← h] at hrc
      exact absurd hrc (by decide)
  · intro h
    exact law.mixConf_refused finish h ()

end Lawful

/-- Conflicts make a merge fail, and a family that fails for a conflict has no descendants that do
not. -/
structure Detects (m : Mix δ τ) (differ : δ → δ → Prop) (fails : Family → Prop) (leaf : Family) :
    Prop where
  detected : Conflict m differ leaf → fails leaf
  inherited : ∀ X ∈ leaf.ancestors, Conflict m differ X → fails X → fails leaf

theorem Detects.congr {differ : δ → δ → Prop} {fails fails' : Family → Prop}
    (h : ∀ X, fails X ↔ fails' X) (leaf : Family) :
    Detects m differ fails leaf ↔ Detects m differ fails' leaf := by
  have hfails : fails = fails' := funext fun X => propext (h X)
  rw [hfails]

end Mix

/-! ## The three merges -/

/-- The merge returns -1, whatever its callback does. -/
def VariablesFail (leaf : Family) : Prop := ∀ {σ : Type} (callback : MixVarCb σ) (closure : σ),
  (mixVariables leaf callback closure).result = some (-1, closure)

def CapabilitiesFail (leaf : Family) : Prop := ∀ {σ : Type} (callback : MixCapaCb σ) (closure : σ),
  (mixCapabilities leaf callback closure).result = some (-1, closure)

def ExportsFail (expand : ExpandCtx → CStr → Option CStr) (leaf : Family) : Prop :=
  ∀ {σ : Type} (callback : MixExpCb σ) (closure : σ),
    (mixExports expand leaf callback closure).result = some (-1, closure)

theorem variablesFail_iff (leaf : Family) : VariablesFail leaf ↔ mixVarLaw.Clash leaf := by
  have hrefl : ∀ d : RedConfVar, mixVarLaw.dupOk d d = true := by
    intro d
    cases hv : d.value <;> simp [mixVarLaw, varsDiffer, hv, strcmp_eq_zero]
  constructor
  · intro h
    exact (mixVarLaw.mixConf_fails_iff hrefl fun n head => by
      simp [mixVarEnd, Layered.deliver_foldl fun c _ => c]).mp
      (h (fun c _ _ _ _ => (0, c)) ())
  · intro h σ callback closure
    exact mixVarLaw.mixConf_refused _ ((mixVarLaw.refusedEarly_iff_clash hrefl).mpr h) closure

theorem capabilitiesFail_iff (leaf : Family) :
    CapabilitiesFail leaf ↔ mixCapaLaw.Clash leaf := by
  have hrefl : ∀ d : RedConfCap, mixCapaLaw.dupOk d d = true := fun d => by simp [mixCapaLaw]
  constructor
  · intro h
    exact (mixCapaLaw.mixConf_fails_iff hrefl fun n head => by
      simp [mixCapaEnd, Layered.deliver_foldl fun c _ => c]).mp
      (h (fun c _ _ _ _ => (0, c)) ())
  · intro h σ callback closure
    exact mixCapaLaw.mixConf_refused _ ((mixCapaLaw.refusedEarly_iff_clash hrefl).mpr h) closure

section

variable (expand : ExpandCtx → CStr → Option CStr)

theorem exportsFail_iff (leaf : Family) :
    ExportsFail expand leaf ↔ (mixExpLaw expand).Clash leaf := by
  have hrefl : ∀ d : RedConfExportPath, (mixExpLaw expand).dupOk d d = true := by
    intro d
    cases hp : d.path <;> simp [mixExpLaw, exportsDiffer, hp, strcmp_eq_zero]
  constructor
  · intro h
    exact ((mixExpLaw expand).mixConf_fails_iff hrefl fun n head => by
      simp [mergeConfExpEnd, Layered.deliver_foldl fun c _ => c]).mp
      (h (fun c _ _ _ _ => (0, c)) ())
  · intro h σ callback closure
    exact (mixExpLaw expand).mixConf_refused _
      (((mixExpLaw expand).refusedEarly_iff_clash hrefl).mpr h) closure

/-- How two definitions of one config differ. -/
def VarsConflict (a b : RedConfVar) : Prop := a.mode ≠ b.mode ∨ a.value ≠ b.value

def ExportsConflict (a b : RedConfExportPath) : Prop := a.mode ≠ b.mode ∨ a.path ≠ b.path

def CapsConflict (a b : RedConfCap) : Prop := a.add ≠ b.add

/-- The three merges detect conflicts. -/
structure ConflictsDetected (leaf : Family) : Prop where
  envvars : mixVar.Detects VarsConflict VariablesFail leaf
  exports : (mixExp expand).Detects ExportsConflict (ExportsFail expand) leaf
  capabilities : mixCapa.Detects CapsConflict CapabilitiesFail leaf

/-- Where there is a conflict, in the chain or in that of an ancestor that clashes, two definitions
clash. -/
structure ConflictsClash (leaf : Family) : Prop where
  envvars : mixVar.Detects VarsConflict mixVarLaw.Clash leaf
  exports : (mixExp expand).Detects ExportsConflict (mixExpLaw expand).Clash leaf
  capabilities : mixCapa.Detects CapsConflict mixCapaLaw.Clash leaf

/-- **Conflicts** are detected exactly when two definitions clash wherever there is one. -/
theorem conflictsDetected_iff (leaf : Family) :
    ConflictsDetected expand leaf ↔ ConflictsClash expand leaf := by
  have hvars : mixVar.Detects VarsConflict VariablesFail leaf ↔
      mixVar.Detects VarsConflict mixVarLaw.Clash leaf := Mix.Detects.congr variablesFail_iff leaf
  have hexports : (mixExp expand).Detects ExportsConflict (ExportsFail expand) leaf ↔
      (mixExp expand).Detects ExportsConflict (mixExpLaw expand).Clash leaf :=
    Mix.Detects.congr (exportsFail_iff expand) leaf
  have hcaps : mixCapa.Detects CapsConflict CapabilitiesFail leaf ↔
      mixCapa.Detects CapsConflict mixCapaLaw.Clash leaf :=
    Mix.Detects.congr capabilitiesFail_iff leaf
  constructor
  · intro h
    exact ⟨hvars.mp h.envvars, hexports.mp h.exports, hcaps.mp h.capabilities⟩
  · intro h
    exact ⟨hvars.mpr h.envvars, hexports.mpr h.exports, hcaps.mpr h.capabilities⟩

end

/-! ## A conflict that is hidden -/

def varNode (redpath : String) (confvar : List RedConfVar) : RedNode where
  config := some { headers := { nodeAlias := CStr.lit "node" }, confvar := confvar }
  redpath := CStr.lit redpath

/-- The root gives two values to a variable. -/
def twiceRoot : Family where
  node := varNode "/root" [{ key := CStr.lit "MODE", value := CStr.lit "fast" },
    { key := CStr.lit "MODE", value := CStr.lit "safe" }]

/-- The leaf gives it a third one. -/
def hidingLeaf : Family :=
  twiceRoot.child (varNode "/root/leaf" [{ key := CStr.lit "MODE", value := CStr.lit "off" }])

/-- The root is refused, and its child is not. -/
theorem conflict_hidden : ¬ ConflictsDetected expandPlain hidingLeaf := by
  intro h
  have hconflict : mixVar.Conflict VarsConflict hidingLeaf := by
    refine ⟨twiceRoot, by decide, false, { key := CStr.lit "MODE", value := CStr.lit "fast" },
      by decide, { key := CStr.lit "MODE", value := CStr.lit "safe" }, by decide, rfl, rfl,
      .inr (by decide)⟩
  have hrun := h.envvars.detected hconflict recordCall []
  rw [mixVariables_eq] at hrun
  exact absurd hrun (by decide)

end Conf
end RedPak
