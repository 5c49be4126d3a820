import RedPak.Conf.ConfTags
import RedPak.Layered.Last

/-!
# Conf.Precedence

Which config the settings of the section `config` come from, by the matrix of the other
configuration items: they are set by the last item, and admin settings prevail. The early merge
(`mixEarlyConf`) picks the same settings.

* `mixConfTags_precedence`: the strings and the options with the value Unset follow the matrix.
* `optionKept_iff`: exactly when the options without such a value do.
-/

namespace RedPak
namespace Conf

open Layered (keepFirst lastFold Setting)

/-! ## The early merge -/

def mixConstString (destination source : Option CStr) : Option CStr :=
  match source, destination with
  | some s, none => some s
  | _, _ => destination

/-- `mix_early_conf` -/
def mixEarlyConfOf (conf : EarlyConf) (nodeconf : RedConfig) : EarlyConf where
  setuser := mixConstString conf.setuser nodeconf.conftag.setuser
  setgroup := mixConstString conf.setgroup nodeconf.conftag.setgroup
  smack := mixConstString conf.smack nodeconf.conftag.smack

abbrev MixEarlyConfCb (σ : Type*) := σ → EarlyConf → Family → Int × σ

/-- One of the loops of `mixEarlyConf` over the nodes. -/
def mixEarlyConfigs (admin : Bool) (nodes : List Family) (conf : EarlyConf) : EarlyConf :=
  nodes.foldl (fun conf iter =>
    match iter.conf admin with
    | some config => mixEarlyConfOf conf config
    | none => conf) conf

def mixEarlyConf {σ : Type*} (node : Family) (callback : MixEarlyConfCb σ) (closure : σ) :
    Int × σ :=
  let conf := mixEarlyConfigs true node.toRoot {}
  let conf := mixEarlyConfigs false node.toRoot conf
  callback closure conf node

/-- The early settings, with the strings that hold them in the section. -/
inductive EarlyKey where
  | setuser
  | setgroup
  | smack
deriving DecidableEq

def EarlyKey.get : EarlyKey → EarlyConf → Option CStr
  | setuser, conf => conf.setuser
  | setgroup, conf => conf.setgroup
  | smack, conf => conf.smack

def EarlyKey.string : EarlyKey → ConfString
  | setuser => .setuser
  | setgroup => .setgroup
  | smack => .smack

theorem mixEarlyConfOf_get (k : EarlyKey) (conf : EarlyConf) (nodeconf : RedConfig) :
    k.get (mixEarlyConfOf conf nodeconf) =
      (k.get conf).or (k.string.get nodeconf.conftag) := by
  have hmix : ∀ destination source : Option CStr,
      mixConstString destination source = destination.or source := fun destination source => by
    cases destination <;> cases source <;> rfl
  cases k <;> exact hmix _ _

theorem mixEarlyConfigs_get (k : EarlyKey) (admin : Bool) (nodes : List Family) :
    ∀ conf : EarlyConf, k.get (mixEarlyConfigs admin nodes conf) =
      (k.get conf).or (firstSet k.string
        (nodes.filterMap fun f => (f.conf admin).map (·.conftag))) := by
  induction nodes with
  | nil => intro conf; simp [mixEarlyConfigs, firstSet]
  | cons f nodes ih =>
    intro conf
    rw [mixEarlyConfigs, List.foldl_cons, ← mixEarlyConfigs, ih]
    cases hc : f.conf admin with
    | none => simp [hc]
    | some config =>
      rw [mixEarlyConfOf_get]
      cases hs : k.string.get config.conftag with
      | none => simp [firstSet, hc, hs]
      | some s => cases k.get conf <;> simp [firstSet, hc, hs]

/-- The early settings are those that count, as they are in the configs. -/
theorem mixEarlyConf_get (node : Family) : ∃ conf : EarlyConf,
    (∀ {σ : Type} (callback : MixEarlyConfCb σ) (closure : σ),
      mixEarlyConf node callback closure = callback closure conf node) ∧
    ∀ k : EarlyKey, k.get conf = (selectedString node k.string).map (·.2) := by
  refine ⟨_, fun _ _ => rfl, fun k => ?_⟩
  have hempty : k.get {} = none := by cases k <;> rfl
  have happend : firstSet k.string (conftags node true ++ conftags node false) =
      (firstSet k.string (conftags node true)).or (firstSet k.string (conftags node false)) := by
    rw [firstSet, List.filterMap_append, List.head?_append]
    rfl
  rw [mixEarlyConfigs_get, mixEarlyConfigs_get, hempty, Option.none_or, ← firstSet_conftags,
    happend]
  rfl

/-! ## Options -/

section

variable (expand : ExpandCtx → CStr → Option CStr)

/-- A field of the section that the merge keeps once it is not the default. -/
structure KeptFirst {α : Type*} [DecidableEq α] (z : α) (proj : RedConfTag → α) : Prop where
  set : ∀ (k : ConfString) (tag : RedConfTag) (v : Option CStr), proj (k.set tag v) = proj tag
  mix : ∀ destination source,
    proj (mixOptions destination source) = keepFirst z (proj destination) (proj source)
  start : proj {} = z
  rest : ∀ (tag : RedConfTag) (share : RedConfShare) (capabilities : List RedConfCap),
    proj { tag with share := share, capabilities := capabilities } = proj tag

theorem KeptFirst.merged {α : Type*} [DecidableEq α] {z : α} {proj : RedConfTag → α}
    (h : KeptFirst z proj) (node : Family) : proj (mergedTag expand node) =
      ((conftags node true ++ conftags node false).map proj).foldl (keepFirst z) z := by
  have hmixed : ∀ (configs : List RedConfTag) (tag : RedConfTag),
      proj (mixedStrings expand node.node.ctx tag configs) =
        (configs.map proj).foldl (keepFirst z) (proj tag) := by
    intro configs
    induction configs with
    | nil => intro tag; rfl
    | cons source configs ih =>
      intro tag
      have hstep : proj (mixBasicConftag expand node.node.ctx tag source).2 =
          keepFirst z (proj tag) (proj source) :=
        (mixStrings_keeps expand h.set _ source ConfString.order _).trans (h.mix tag source)
      rw [List.map_cons, List.foldl_cons, ← hstep]
      exact ih _
  rw [mergedTag, h.rest, basicTag, hmixed, h.start]

/-- The options with the value Unset. -/
inductive TriOption where
  | diewithparent
  | newsession
deriving DecidableEq

def TriOption.get : TriOption → RedConfTag → RedConfOptFlag
  | diewithparent, tag => tag.diewithparent
  | newsession, tag => tag.newsession

theorem TriOption.keptFirst (k : TriOption) : KeptFirst .unset k.get where
  set k' tag v := by cases k <;> cases k' <;> rfl
  mix destination source := by cases k <;> rfl
  start := by cases k <;> rfl
  rest tag share capabilities := by cases k <;> rfl

/-- The options that are numbers or truth values, absent ones being 0. -/
inductive ConfOption where
  | verbose
  | gpgcheck
  | unsafeNode
  | inheritenv
  | maprootuser
deriving DecidableEq

def ConfOption.get : ConfOption → RedConfTag → Int
  | verbose, tag => tag.verbose
  | gpgcheck, tag => tag.gpgcheck
  | unsafeNode, tag => tag.unsafeNode
  | inheritenv, tag => tag.inheritenv
  | maprootuser, tag => tag.maprootuser

theorem ConfOption.keptFirst (k : ConfOption) : KeptFirst 0 k.get where
  set k' tag v := by cases k <;> cases k' <;> rfl
  mix destination source := by
    have huint : ∀ d s : Nat, ((mixUintNotNull d s : Nat) : Int) = keepFirst (0 : Int) d s := by
      intro d s
      by_cases hd : d = 0
      · simp [mixUintNotNull, keepFirst, hd]
      · simp [mixUintNotNull, keepFirst, hd]
    cases k with
    | verbose => rfl
    | gpgcheck => exact huint _ _
    | unsafeNode => exact huint _ _
    | inheritenv => exact huint _ _
    | maprootuser => exact huint _ _
  start := by cases k <;> rfl
  rest tag share capabilities := by cases k <;> rfl

/-! ## The matrix -/

/-- What the configs of a node set, the normal one and the admin one. -/
def levelsOf {α : Type*} (setting : RedConfTag → Option α) (node : Family) :
    List (Option α × Option α) :=
  node.toRoot.map fun f => ((f.conf false).bind fun config => setting config.conftag,
    (f.conf true).bind fun config => setting config.conftag)

/-- The setting of an option, unless it is Unset. -/
def TriOption.setting (k : TriOption) (tag : RedConfTag) : Option RedConfOptFlag :=
  if k.get tag = .unset then none else some (k.get tag)

/-- The option that counts: the nearest admin one that is not Unset or, without one, the nearest
normal one. -/
def selectedOption (node : Family) (k : TriOption) : RedConfOptFlag :=
  ((conftags node true).filterMap k.setting ++
    (conftags node false).filterMap k.setting).head?.getD .unset

/-- The section follows the precedence of the settings, and the matrix from the root down. -/
structure Precedence (node : Family) (tag : RedConfTag) : Prop where
  strings : ∀ k : ConfString,
    k.get tag = (selectedString node k).bind fun p => expand node.node.ctx p.2
  options : ∀ k : TriOption, k.get tag = selectedOption node k
  stringMatrix : ∀ k : ConfString,
    k.get tag = (lastFold (levelsOf k.get node)).value.bind (expand node.node.ctx)
  optionMatrix : ∀ k : TriOption,
    k.get tag = (lastFold (levelsOf k.setting node)).value.getD .unset

theorem lastFold_levelsOf {α : Type*} (setting : RedConfTag → Option α) (node : Family) :
    (lastFold (levelsOf setting node)).value =
      ((conftags node true).filterMap setting ++
        (conftags node false).filterMap setting).head? := by
  have hkind : ∀ admin, (conftags node admin).filterMap setting =
      node.toRoot.filterMap fun f => (f.conf admin).bind fun config => setting config.conftag := by
    intro admin
    rw [conftags, List.filterMap_filterMap]
    refine List.filterMap_congr fun f _ => ?_
    cases f.conf admin <;> rfl
  rw [Layered.lastFold_value, Layered.strongValues, Layered.weakValues, levelsOf,
    List.filterMap_map, List.filterMap_map, hkind, hkind]
  rfl

theorem precedence_mergedTag {node : Family} (h : StringsSucceed expand node) :
    Precedence expand node (mergedTag expand node) := by
  have hoptions : ∀ k : TriOption, k.get (mergedTag expand node) = selectedOption node k := by
    intro k
    have hfilter : ∀ l : List RedConfTag, l.filterMap k.setting =
        (l.map k.get).filter fun v => decide (v ≠ .unset) := by
      intro l
      induction l with
      | nil => rfl
      | cons tag l ih =>
        by_cases hu : k.get tag = .unset
        · rw [List.filterMap_cons_none (by simp [TriOption.setting, hu]), ih]
          simp [hu]
        · rw [List.filterMap_cons_some (b := k.get tag) (by simp [TriOption.setting, hu]), ih]
          simp [hu]
    rw [k.keptFirst.merged, Layered.foldl_keepFirst, selectedOption, ← List.filterMap_append,
      hfilter, List.head?_filter]
  refine ⟨mergedTag_get expand h, hoptions, fun k => ?_, fun k => ?_⟩
  · have hselected := firstSet_conftags node k
    rw [firstSet, List.filterMap_append] at hselected
    rw [mergedTag_get expand h, lastFold_levelsOf, hselected]
    cases selectedString node k <;> rfl
  · rw [hoptions, lastFold_levelsOf, selectedOption]

/-- **Precedence.** When the strings that count expand, `mixConfTags` delivers each of them, and
each option with the value Unset, from the nearest admin config that sets it or, without one, from
the nearest normal one, as the matrix has it. The early merge picks the same settings. -/
theorem mixConfTags_precedence {node : Family} (h : StringsSucceed expand node) :
    ∃ tag, (∀ {σ : Type} (callback : MixConftagCb σ) (closure : σ),
        (mixConfTags expand node callback closure).result =
          if sharesRefused node ∨ capsRefused node then some (-1, closure)
          else some (callback closure tag)) ∧
      Precedence expand node tag ∧
      ∃ conf : EarlyConf,
        (∀ {σ : Type} (callback : MixEarlyConfCb σ) (closure : σ),
          mixEarlyConf node callback closure = callback closure conf node) ∧
        ∀ k : EarlyKey, k.get conf = (selectedString node k.string).map (·.2) ∧
          k.string.get tag = (k.get conf).bind (expand node.node.ctx) := by
  obtain ⟨conf, hrun, hconf⟩ := mixEarlyConf_get node
  refine ⟨mergedTag expand node,
    fun callback closure => mixConfTags_eq expand node callback closure,
    precedence_mergedTag expand h, conf, hrun, fun k => ⟨hconf k, ?_⟩⟩
  rw [hconf, mergedTag_get expand h]
  cases selectedString node k.string <;> rfl

/-! ## Options without the value Unset -/

/-- The values that the configs give to an option, absent or not, and what `cyaml` stores for
them: 0 when the option is absent. -/
structure Given (k : ConfOption) (node : Family) where
  value : Family → Bool → Option Int
  absent : ∀ f ∈ node.toRoot, ∀ admin, f.conf admin = none → value f admin = none
  stored : ∀ f ∈ node.toRoot, ∀ admin config, f.conf admin = some config →
    k.get config.conftag = (value f admin).getD 0

/-- The values that are given, from leaf to root, the admin ones first. -/
def Given.values {k : ConfOption} {node : Family} (given : Given k node) : List Int :=
  node.toRoot.filterMap (given.value · true) ++ node.toRoot.filterMap (given.value · false)

/-- The value that counts: the first one that is given, or 0. -/
def Given.selected {k : ConfOption} {node : Family} (given : Given k node) : Int :=
  given.values.head?.getD 0

variable {k : ConfOption} {node : Family}

theorem Given.foldl_values (given : Given k node) :
    ((conftags node true ++ conftags node false).map k.get).foldl (keepFirst 0) 0 =
      given.values.foldl (keepFirst 0) 0 := by
  have hkind : ∀ (admin : Bool) (fs : List Family), (∀ f ∈ fs, f ∈ node.toRoot) → ∀ z : Int,
      ((fs.filterMap fun f => (f.conf admin).map (·.conftag)).map k.get).foldl (keepFirst 0) z =
        (fs.filterMap (given.value · admin)).foldl (keepFirst 0) z := by
    intro admin fs
    induction fs with
    | nil => intro _ z; rfl
    | cons f fs ih =>
      intro hfs z
      have hf := hfs f (by simp)
      have hrest := ih fun g hg => hfs g (by simp [hg])
      cases hc : f.conf admin with
      | none =>
        simpa only [List.filterMap_cons, hc, Option.map_none, given.absent f hf admin hc]
          using hrest z
      | some config =>
        rw [List.filterMap_cons_some (b := config.conftag) (by simp [hc]), List.map_cons,
          List.foldl_cons, given.stored f hf admin config hc]
        cases hv : given.value f admin with
        | none =>
          have hkeep : keepFirst 0 z ((none : Option Int).getD 0) = z := by
            by_cases hz : z = 0
            · rw [hz]; rfl
            · rw [keepFirst, if_neg hz]
          simpa only [List.filterMap_cons, hv, hkeep] using hrest z
        | some v =>
          simpa only [List.filterMap_cons, hv, List.foldl_cons, Option.getD_some]
            using hrest (keepFirst 0 z v)
  rw [List.map_append, List.foldl_append, Given.values, List.foldl_append, conftags, conftags,
    hkind true _ (fun _ h => h), hkind false _ fun _ h => h]

/-- **Options.** The merged value is the one that counts exactly when the merge of the sharings or
of the capabilities is refused, the value that counts is not 0, or no other value is given. -/
theorem optionKept_iff (given : Given k node) :
    (∀ tag, (mixConfTags expand node (fun calls tag => (0, calls ++ [tag])) []).result =
        some (0, [tag]) → k.get tag = given.selected) ↔
      sharesRefused node ∨ capsRefused node ∨
        (given.values.head? = some 0 → ∀ v ∈ given.values, v = 0) := by
  rw [← or_assoc]
  by_cases href : sharesRefused node ∨ capsRefused node
  · refine ⟨fun _ => .inl href, fun _ tag hrun => ?_⟩
    rw [mixConfTags_eq, if_pos href] at hrun
    cases hrun
  · have hvalue : k.get (mergedTag expand node) = given.values.foldl (keepFirst 0) 0 :=
      (k.keptFirst.merged expand node).trans given.foldl_values
    have hiff := Layered.keepFirst_eq_head_iff 0 given.values
    rw [← hvalue] at hiff
    rw [or_iff_right href, ← hiff]
    constructor
    · intro h
      exact h _ (mixConfTags_called expand href)
    · intro h tag hrun
      rw [mixConfTags_called expand href, Option.some.injEq, Prod.mk.injEq] at hrun
      obtain rfl : mergedTag expand node = tag := by simpa using hrun.2
      exact h

end

/-! ## Two nodes -/

/-- The leaf switches the checks of signatures off that its parent switches on, and sets its
hostname and an option. -/
def checkedLeaf : Family where
  node := tagNode "/root/leaf" { hostname := some (CStr.lit "leaf"), newsession := .disabled }
  parents := [{ tagNode "/root" { gpgcheck := 1, newsession := .enabled } with
    confadmin := some {
      headers := { nodeAlias := CStr.lit "root" }
      conftag := { hostname := some (CStr.lit "$NODE_ALIAS") } } }]

theorem stringsSucceed_checkedLeaf : StringsSucceed silentExpand checkedLeaf := by
  intro k X s hsel
  have hhost : k = .hostname := by
    by_contra hk
    have hnone : selectedString checkedLeaf k = none := by
      cases k <;> first | exact absurd rfl hk | rfl
    rw [hnone] at hsel
    cases hsel
  subst hhost
  obtain ⟨-, rfl⟩ := Prod.mk.inj (Option.some.inj hsel)
  decide

theorem mixConfTags_precedence_checkedLeaf :
    ∃ tag, (∀ {σ : Type} (callback : MixConftagCb σ) (closure : σ),
        (mixConfTags silentExpand checkedLeaf callback closure).result =
          if sharesRefused checkedLeaf ∨ capsRefused checkedLeaf then some (-1, closure)
          else some (callback closure tag)) ∧
      Precedence silentExpand checkedLeaf tag ∧
      ∃ conf : EarlyConf,
        (∀ {σ : Type} (callback : MixEarlyConfCb σ) (closure : σ),
          mixEarlyConf checkedLeaf callback closure = callback closure conf checkedLeaf) ∧
        ∀ k : EarlyKey, k.get conf = (selectedString checkedLeaf k.string).map (·.2) ∧
          k.string.get tag = (k.get conf).bind (silentExpand checkedLeaf.node.ctx) :=
  mixConfTags_precedence silentExpand stringsSucceed_checkedLeaf

/-- What the configs of the two nodes say about the checks: no, and yes. -/
def givenChecks : Given .gpgcheck checkedLeaf where
  value f admin := if admin then none else if f = checkedLeaf then some 0 else some 1
  absent := by
    intro f hf admin hnone
    have hmem : f = checkedLeaf ∨ f = ⟨checkedLeaf.parents.head (by decide), []⟩ := by
      simpa [Family.toRoot, Family.ancestors, families, checkedLeaf] using hf
    rcases hmem with rfl | rfl <;> cases admin <;> first | rfl | cases hnone
  stored := by
    intro f hf admin config hconf
    have hmem : f = checkedLeaf ∨ f = ⟨checkedLeaf.parents.head (by decide), []⟩ := by
      simpa [Family.toRoot, Family.ancestors, families, checkedLeaf] using hf
    rcases hmem with rfl | rfl <;> cases admin <;>
      first | (obtain rfl := Option.some.inj hconf; rfl) | cases hconf

/-- The checks stay switched on. -/
theorem check_stays_on : ¬ ∀ tag,
    (mixConfTags silentExpand checkedLeaf (fun calls tag => (0, calls ++ [tag])) []).result =
      some (0, [tag]) → ConfOption.gpgcheck.get tag = givenChecks.selected := by
  intro h
  have href : ¬ (sharesRefused checkedLeaf ∨ capsRefused checkedLeaf) := by
    rw [capsRefused_iff_links]
    decide
  exact absurd (h _ (mixConfTags_called silentExpand href)) (by decide)

end Conf
end RedPak
