import RedPak.Wrap.State
import RedPak.Conf.Capabilities

/-!
# Wrap.Capabilities

The emission of the merged capabilities (`set_one_capability`, `set_capabilities`), and what it
means for a child of a node.

* `setCapabilities_eq`: the arguments, `ALL` first.
* `argvCap_merged`: what the arguments say of a capability after a merge.
* `capability_stays_dropped_iff`: when a capability that is dropped for a node is not added for its
  child.
-/

namespace RedPak
namespace Wrap

open Conf

variable {ω : Type}

def allCaps : CStr := CStr.lit "ALL"

/-- `value ? "--cap-add" : "--cap-drop"` -/
def capOption (value : Int) : CStr :=
  if value ≠ 0 then CStr.lit "--cap-add" else CStr.lit "--cap-drop"

def setOneCapability (rs : RedwrapState ω) (capability : CStr) (value : Int) :
    Except Halt (RedwrapState ω) :=
  addAll rs [capOption value, capability]

/-- The first pass of `set_capabilities`: the first entry for `ALL`. -/
def setAllCapability (rs : RedwrapState ω) : List RedConfCap → Except Halt (RedwrapState ω)
  | [] => .ok rs
  | cap :: caps =>
    if strcasecmp cap.cap allCaps = 0 then setOneCapability rs allCaps cap.add
    else setAllCapability rs caps

def setOtherCapabilities (rs : RedwrapState ω) : List RedConfCap → Except Halt (RedwrapState ω)
  | [] => .ok rs
  | cap :: caps =>
    if strcasecmp cap.cap allCaps ≠ 0 then
      match setOneCapability rs cap.cap cap.add with
      | .ok rs => setOtherCapabilities rs caps
      | .error halt => .error halt
    else setOtherCapabilities rs caps

def setCapabilities (rs : RedwrapState ω) (conftag : RedConfTag) : Except Halt (RedwrapState ω) :=
  match setAllCapability rs conftag.capabilities with
  | .ok rs => setOtherCapabilities rs conftag.capabilities
  | .error halt => .error halt

/-! ## The arguments -/

/-- The capabilities and values in the order of their arguments. -/
def capOrder (caps : List (CStr × Int)) : List (CStr × Int) :=
  ((caps.find? fun p => p.1.folded = allCaps.folded).map
    fun p => (allCaps, p.2)).toList ++
  caps.filter fun p => p.1.folded ≠ allCaps.folded

def capArgs (caps : List (CStr × Int)) : List (Option CStr) :=
  caps.flatMap fun p => [some (capOption p.2), some p.1]

theorem capArgs_append (ps qs : List (CStr × Int)) :
    capArgs (ps ++ qs) = capArgs ps ++ capArgs qs := List.flatMap_append

theorem setAllCapability_eq (caps : List RedConfCap) (rs : RedwrapState ω) :
    setAllCapability rs caps = addAll rs (capArgs (((caps.map fun cap => (cap.cap, cap.add)).find?
      fun p => p.1.folded = allCaps.folded).map fun p => (allCaps, p.2)).toList) := by
  induction caps with
  | nil => rfl
  | cons cap caps ih =>
    simp only [setAllCapability, strcasecmp_eq_zero, List.map_cons, List.find?_cons]
    by_cases h : cap.cap.folded = allCaps.folded
    · simp [h, setOneCapability, capArgs]
    · simpa [h] using ih

theorem setOtherCapabilities_eq (caps : List RedConfCap) : ∀ rs : RedwrapState ω,
    setOtherCapabilities rs caps = addAll rs (capArgs ((caps.map fun cap =>
      (cap.cap, cap.add)).filter fun p => p.1.folded ≠ allCaps.folded)) := by
  induction caps with
  | nil => intro rs; rfl
  | cons cap caps ih =>
    intro rs
    simp only [setOtherCapabilities, ne_eq, strcasecmp_eq_zero, List.map_cons, List.filter_cons]
    by_cases h : cap.cap.folded = allCaps.folded
    · simpa [h] using ih rs
    · simp only [h, not_false_eq_true, if_true, decide_true, capArgs, List.flatMap_cons,
        addAll_append, setOneCapability]
      cases addAll rs [some (capOption cap.add), some cap.cap] with
      | ok rs => exact ih rs
      | error halt => rfl

theorem setCapabilities_eq (rs : RedwrapState ω) (conftag : RedConfTag) :
    setCapabilities rs conftag =
      addAll rs (capArgs (capOrder (conftag.capabilities.map fun cap => (cap.cap, cap.add)))) := by
  rw [setCapabilities, setAllCapability_eq, capOrder, capArgs_append, addAll_append]
  cases addAll rs (capArgs (((conftag.capabilities.map fun cap => (cap.cap, cap.add)).find?
      fun p => p.1.folded = allCaps.folded).map fun p => (allCaps, p.2)).toList) with
  | ok rs => exact setOtherCapabilities_eq conftag.capabilities rs
  | error halt => rfl

/-! ## A reading of the arguments -/

/-- What the arguments say of a capability: the last one about it decides, and `ALL` is about every
capability. Names are compared up to the case of letters. -/
def argvCap (c : CStr) : List (Option CStr) → Option Bool
  | some opt :: some name :: args =>
    match argvCap c args with
    | some added => some added
    | none =>
      if strcasecmp name allCaps = 0 ∨ strcasecmp name c = 0 then
        some (decide (opt = capOption 1))
      else none
  | _ => none

def concerns (c : CStr) (p : CStr × Int) : Bool :=
  decide (p.1.folded = allCaps.folded ∨ p.1.folded = c.folded)

theorem capOption_eq_add (v : Int) : capOption v = capOption 1 ↔ v ≠ 0 := by
  by_cases h : v = 0
  · subst h; decide
  · simp [capOption, h]

theorem argvCap_capArgs (c : CStr) (ps : List (CStr × Int)) :
    argvCap c (capArgs ps) = (ps.filter (concerns c)).getLast?.map fun p => decide (p.2 ≠ 0) := by
  induction ps with
  | nil => rfl
  | cons p ps ih =>
    simp only [capArgs, List.flatMap_cons, List.cons_append, List.nil_append, argvCap,
      strcasecmp_eq_zero, capOption_eq_add] at ih ⊢
    rw [ih]
    by_cases hc : p.1.folded = allCaps.folded ∨ p.1.folded = c.folded
    · have hcc : concerns c p = true := by simpa [concerns] using hc
      rw [List.filter_cons_of_pos hcc, List.getLast?_cons]
      cases (ps.filter (concerns c)).getLast? <;> simp [hc]
    · have hcc : ¬ concerns c p = true := by simpa [concerns] using hc
      rw [List.filter_cons_of_neg hcc]
      cases (ps.filter (concerns c)).getLast? <;> simp [hc]

theorem filter_capOrder (c : CStr) (ps : List (CStr × Int)) :
    ((capOrder ps).filter (concerns c)).map (·.2) =
      ((ps.filter fun p => p.1.folded = allCaps.folded).map (·.2)).head?.toList ++
        if c.folded = allCaps.folded then []
        else (ps.filter fun p => p.1.folded = c.folded).map (·.2) := by
  have hall : ∀ o : Option (CStr × Int), ((o.map fun p => (allCaps, p.2)).toList.filter
      (concerns c)).map (·.2) = (o.map (·.2)).toList := by
    intro o
    cases o with
    | none => rfl
    | some p => simp [concerns]
  rw [capOrder, List.filter_append, List.map_append, hall, List.filter_filter, List.head?_map,
    List.head?_filter]
  congr 1
  split
  · rename_i hc
    rw [List.map_eq_nil_iff, List.filter_eq_nil_iff]
    intro p _
    simp [concerns, hc]
  · rename_i hc
    congr 1
    refine List.filter_congr fun p _ => ?_
    by_cases hp : p.1.folded = c.folded
    · simp [concerns, hp, hc]
    · have hc' : ¬ allCaps.folded = c.folded := fun h => hc h.symm
      by_cases ha : p.1.folded = allCaps.folded <;> simp [concerns, hp, ha, hc']

theorem argvCap_merged {node : Family} {ls : List (Layered.Link Family RedConfCap)}
    (h : mixCapaLaw.links node = some ls) (c : CStr) :
    argvCap c (capArgs (capOrder (capCalls ls))) =
      ((capSettings node c).head?.or (capSettings node allCaps).head?).map
        fun v => decide (v ≠ 0) := by
  have hlast : ((capOrder (capCalls ls)).filter (concerns c)).getLast?.map (·.2) =
      (capSettings node c).head?.or (capSettings node allCaps).head? := by
    rw [← List.getLast?_map, filter_capOrder, tag_settings h, tag_settings h]
    split
    · rename_i hc
      have : capSettings node c = capSettings node allCaps := by
        rw [capSettings, capSettings, hc]
      rw [this]
      cases (capSettings node allCaps).head? <;> rfl
    · rw [List.getLast?_append]
      cases (capSettings node c).head? <;> cases (capSettings node allCaps).head? <;> rfl
  rw [argvCap_capArgs, ← hlast, Option.map_map]
  rfl

/-! ## A child of a node -/

theorem argvCap_emitted {node : Family} {tag : RedConfTag}
    (h : (mixCapabilities node mixConftagCapa {}).result = some (0, tag)) {rs rs' : RedwrapState ω}
    (hset : setCapabilities rs tag = .ok rs') (c : CStr) :
    ∃ ls, mixCapaLaw.links node = some ls ∧ argvCap c (emitted rs rs') =
      ((capSettings node c).head?.or (capSettings node allCaps).head?).map
        fun v => decide (v ≠ 0) := by
  obtain ⟨ls, hls, htag⟩ := mixConftagCapa_eq h
  refine ⟨ls, hls, ?_⟩
  rw [setCapabilities_eq] at hset
  have hcaps : tag.capabilities.map (fun cap => (cap.cap, cap.add)) = capCalls ls := by
    rw [htag, List.map_map]; simp [Function.comp_def]
  rw [emitted_addAll hset, hcaps, argvCap_merged hls]

/-- A name that is dropped for a node is not added for a child whose settings are accepted. -/
theorem dropped_child {P : Family} {X : RedNode} (hadmin : (P.child X).NoAdmin)
    {ls : List (Layered.Link Family RedConfCap)} (hls : mixCapaLaw.links (P.child X) = some ls)
    {name : CStr} (hdrop : (capSettings P name).head? = some 0) {v : Int}
    (hv : (capSettings (P.child X) name).head? = some v) : v = 0 := by
  by_contra hadd
  refine capSettings_keep hls hv hadd ?_
  rw [capSettings_child hadmin]
  exact List.mem_append_right _ (List.mem_of_mem_head? hdrop)

/-- **Russian dolls.** Without admin configs, a capability that is dropped for a node is not added
for its child, unless the node drops `ALL` without naming the capability and the child names and
adds it. -/
theorem capability_stays_dropped_iff {P : Family} {X : RedNode} (hadmin : (P.child X).NoAdmin)
    {tagP tagX : RedConfTag} (hP : (mixCapabilities P mixConftagCapa {}).result = some (0, tagP))
    (hX : (mixCapabilities (P.child X) mixConftagCapa {}).result = some (0, tagX))
    {rsP rsP' rsX rsX' : RedwrapState ω} (hsetP : setCapabilities rsP tagP = .ok rsP')
    (hsetX : setCapabilities rsX tagX = .ok rsX') (c : CStr) :
    (argvCap c (emitted rsP rsP') = some false → argvCap c (emitted rsX rsX') ≠ some true) ↔
      ¬ ((capSettings P allCaps).head? = some 0 ∧ capSettings P c = [] ∧
        ∃ v ≠ 0, (ownSettings X c).head? = some v) := by
  obtain ⟨lsP, hlsP, hbP⟩ := argvCap_emitted hP hsetP c
  obtain ⟨lsX, hlsX, hbX⟩ := argvCap_emitted hX hsetX c
  have hchild := fun name => capSettings_child hadmin name
  rw [hbP, hbX]
  constructor
  · rintro hstays ⟨hall, hnone, v, hv, hown⟩
    refine hstays ?_ ?_
    · simp [hnone, hall]
    · simp [hchild, hown, hv, List.head?_append]
  · intro hnot hdrop hadd
    cases hc : (capSettings P c).head? with
    | some u =>
      -- dropped by name
      have hu : u = 0 := by simpa [hc] using hdrop
      subst hu
      obtain ⟨v, hv⟩ : ∃ v, (capSettings (P.child X) c).head? = some v := by
        rw [hchild]
        cases ownSettings X c <;> simp [hc]
      have h0 := dropped_child hadmin hlsX hc hv
      simp [hv, h0] at hadd
    | none =>
      -- dropped through `ALL`
      obtain ⟨z, hall, hz⟩ : ∃ z, (capSettings P allCaps).head? = some z ∧ z = 0 := by
        simpa [hc] using hdrop
      subst hz
      rw [List.head?_eq_none_iff] at hc
      rw [hchild c, hc, List.append_nil] at hadd
      cases hown : (ownSettings X c).head? with
      | some v =>
        rw [hown, Option.some_or, Option.map_some, Option.some.injEq, decide_eq_true_eq] at hadd
        exact hnot ⟨hall, hc, v, hadd, hown⟩
      | none =>
        rw [hown, Option.none_or, Option.map_eq_some_iff] at hadd
        obtain ⟨v, hv, hv0⟩ := hadd
        have h0 := dropped_child hadmin hlsX hall hv
        simp [h0] at hv0

/-! ### A child that adds what is dropped -/

def capNode (name : CStr) (value : Int) : RedNode where
  config := some {
    headers := { nodeAlias := CStr.lit "node" }
    conftag := { capabilities := [{ cap := name, add := value }] } }
  redpath := CStr.lit "/node"

def capKill : CStr := CStr.lit "cap_kill"

def dropsAll : Family := ⟨capNode allCaps 0, []⟩
def addsKill : RedNode := capNode capKill 1

def tagDropsAll : RedConfTag := { capabilities := [{ cap := allCaps, add := 0 }] }
def tagAddsKill : RedConfTag :=
  { capabilities := [{ cap := allCaps, add := 0 }, { cap := capKill, add := 1 }] }

theorem mix_dropsAll :
    (mixCapabilities dropsAll mixConftagCapa {}).result = some (0, tagDropsAll) := by
  rw [mixCapabilities_eq]; decide

theorem mix_addsKill :
    (mixCapabilities (dropsAll.child addsKill) mixConftagCapa {}).result =
      some (0, tagAddsKill) := by
  rw [mixCapabilities_eq]; decide

def capStart (node : Family) : RedwrapState Unit :=
  .start (CStr.lit "redwrap") false 0 () node

theorem capability_stays_dropped_iff_kill : ∃ rsP rsX,
    setCapabilities (capStart dropsAll) tagDropsAll = .ok rsP ∧
    setCapabilities (capStart (dropsAll.child addsKill)) tagAddsKill = .ok rsX ∧
    ((argvCap capKill (emitted (capStart dropsAll) rsP) = some false →
        argvCap capKill (emitted (capStart (dropsAll.child addsKill)) rsX) ≠ some true) ↔
      ¬ ((capSettings dropsAll allCaps).head? = some 0 ∧ capSettings dropsAll capKill = [] ∧
        ∃ v ≠ 0, (ownSettings addsKill capKill).head? = some v)) :=
  ⟨_, _, rfl, rfl,
    capability_stays_dropped_iff (by decide) mix_dropsAll mix_addsKill rfl rfl capKill⟩

/-- The capability is dropped for the node, through `ALL`, and added for its child. -/
theorem capability_added_by_child : ∃ rsP rsX,
    setCapabilities (capStart dropsAll) tagDropsAll = .ok rsP ∧
    setCapabilities (capStart (dropsAll.child addsKill)) tagAddsKill = .ok rsX ∧
    (dropsAll.child addsKill).NoAdmin ∧
    (mixCapabilities dropsAll mixConftagCapa {}).result = some (0, tagDropsAll) ∧
    (mixCapabilities (dropsAll.child addsKill) mixConftagCapa {}).result = some (0, tagAddsKill) ∧
    argvCap capKill (emitted (capStart dropsAll) rsP) = some false ∧
    argvCap capKill (emitted (capStart (dropsAll.child addsKill)) rsX) = some true :=
  ⟨_, _, rfl, rfl, by decide, mix_dropsAll, mix_addsKill, rfl, rfl⟩

end Wrap
end RedPak
