import RedPak.Wrap.Abort

/-!
# Wrap.Contexts

In which node the strings of a config are expanded: `NODE_*` should be about the node of the config
and `LEAF_*` about the leaf. The package manager expands the cache directory on its own
(`RedNode::setCacheDir`).

* `WrittenIn`: the node of a setting is the one whose config has it.
* `usedStrings_spec`: the strings of the section `config` are expanded in the context of the leaf,
  whichever node they come from.
* `contexts_iff`: exactly when every string that is used is expanded in the context of its node.
-/

namespace RedPak
namespace Wrap

open Conf
open Layered (Buffer fields joined)

/-! ## Where the strings come from -/

/-- The settings that the strings of the section are taken from, with their nodes. -/
abbrev Origins := ConfString → Option (Family × CStr)

def Origins.set (used : Origins) (k : ConfString) (setting : Family × CStr) : Origins :=
  fun k' => if k' = k then some setting else used k'

section

variable (expand : ExpandCtx → CStr → Option CStr) (node : ExpandCtx)

/-- The turn of a config of the node `X` takes those of its strings that are still missing, until
one does not expand. -/
def useStrings (X : Family) (source : RedConfTag) : List ConfString → Origins → Origins
  | [], used => used
  | k :: ks, used =>
    match k.get source, used k with
    | some s, none =>
      if (expand node s).isSome then useStrings X source ks (used.set k (X, s)) else used
    | _, _ => useStrings X source ks used

/-- The sections of one kind with their nodes, from the leaf to the root. -/
def ownedTags (leaf : Family) (admin : Bool) : List (Family × RedConfTag) :=
  leaf.toRoot.filterMap fun f => (f.conf admin).map fun config => (f, config.conftag)

/-- The sections of a chain, in the order of their turns. -/
def sectionTurns (leaf : Family) : List (Family × RedConfTag) :=
  ownedTags leaf true ++ ownedTags leaf false

def usedStrings (leaf : Family) : Origins :=
  (sectionTurns leaf).foldl
    (fun used p => useStrings expand leaf.node.ctx p.1 p.2 ConfString.order used) fun _ => none

/-- A section holds the expansions of the settings that are used, and nothing else. -/
structure Recorded (sources : List (Family × RedConfTag)) (tag : RedConfTag) (used : Origins) :
    Prop where
  taken : ∀ k X s, used k = some (X, s) →
    (∃ source, (X, source) ∈ sources ∧ k.get source = some s) ∧
      ∃ v, expand node s = some v ∧ k.get tag = some v
  missing : ∀ k, used k = none → k.get tag = none

variable {expand node} {sources : List (Family × RedConfTag)} {tag : RedConfTag} {used : Origins}

theorem Recorded.set (h : Recorded expand node sources tag used) {k : ConfString} {X : Family}
    {s v : CStr} (hX : ∃ source, (X, source) ∈ sources ∧ k.get source = some s)
    (hv : expand node s = some v) :
    Recorded expand node sources (k.set tag (some v)) (used.set k (X, s)) := by
  constructor
  · intro k' X' s' hused
    by_cases hk : k' = k
    · subst hk
      rw [Origins.set, if_pos rfl, Option.some.injEq, Prod.mk.injEq] at hused
      obtain ⟨rfl, rfl⟩ := hused
      exact ⟨hX, v, hv, k'.get_set tag (some v)⟩
    · rw [Origins.set, if_neg hk] at hused
      rw [ConfString.get_set_other hk]
      exact h.taken k' X' s' hused
  · intro k' hused
    by_cases hk : k' = k
    · subst hk
      rw [Origins.set, if_pos rfl] at hused
      cases hused
    · rw [Origins.set, if_neg hk] at hused
      rw [ConfString.get_set_other hk]
      exact h.missing k' hused

/-- The turn of a config, by induction on the strings that are still to come. -/
theorem recorded_mixStrings {X : Family} {source : RedConfTag} (hX : (X, source) ∈ sources)
    (ks : List ConfString) : ∀ {tag : RedConfTag} {used : Origins},
    Recorded expand node sources tag used →
      Recorded expand node sources (mixStrings expand node source ks tag).2
        (useStrings expand node X source ks used) := by
  induction ks with
  | nil => intro tag used h; exact h
  | cons k ks ih =>
    intro tag used h
    have hstep : ∀ tag', mixString expand node k tag source = (0, tag') →
        mixStrings expand node source (k :: ks) tag = mixStrings expand node source ks tag' := by
      intro tag' hturn
      rw [mixStrings, hturn]
      rfl
    cases hs : k.get source with
    | none =>
      have hturn : mixString expand node k tag source = (0, tag) := by rw [mixString, hs]
      have huse : useStrings expand node X source (k :: ks) used =
          useStrings expand node X source ks used := by simp [useStrings, hs]
      rw [hstep tag hturn, huse]
      exact ih h
    | some s =>
      cases hused : used k with
      | some setting =>
        obtain ⟨-, v, -, hv⟩ := h.taken k setting.1 setting.2 hused
        have hturn : mixString expand node k tag source = (0, tag) := by rw [mixString, hs, hv]
        have huse : useStrings expand node X source (k :: ks) used =
            useStrings expand node X source ks used := by simp [useStrings, hs, hused]
        rw [hstep tag hturn, huse]
        exact ih h
      | none =>
        have hget := h.missing k hused
        cases hv : expand node s with
        | none =>
          have hturn : mixString expand node k tag source = (-1, tag) := by
            simp only [mixString, hs, hget, hv]
          have hstop : mixStrings expand node source (k :: ks) tag = (1, tag) := by
            rw [mixStrings, hturn]
            rfl
          have huse : useStrings expand node X source (k :: ks) used = used := by
            simp [useStrings, hs, hused, hv]
          rw [hstop, huse]
          exact h
        | some v =>
          have hturn : mixString expand node k tag source = (0, k.set tag (some v)) := by
            simp only [mixString, hs, hget, hv]
          have huse : useStrings expand node X source (k :: ks) used =
              useStrings expand node X source ks (used.set k (X, s)) := by
            simp [useStrings, hs, hused, hv]
          rw [hstep _ hturn, huse]
          exact ih (h.set ⟨source, hX, hs⟩ hv)

theorem recorded_mixedStrings (tags : List (Family × RedConfTag)) :
    (∀ p ∈ tags, p ∈ sources) → ∀ {tag : RedConfTag} {used : Origins},
    Recorded expand node sources tag used →
      Recorded expand node sources (mixedStrings expand node tag (tags.map (·.2)))
        (tags.foldl (fun used p => useStrings expand node p.1 p.2 ConfString.order used)
          used) := by
  induction tags with
  | nil => intro _ tag used h; exact h
  | cons p tags ih =>
    intro hsources tag used h
    have hoptions : Recorded expand node sources (mixOptions tag p.2) used :=
      ⟨fun k X s hk => by rw [get_mixOptions]; exact h.taken k X s hk,
        fun k hk => by rw [get_mixOptions]; exact h.missing k hk⟩
    exact ih (fun q hq => hsources q (by simp [hq]))
      (recorded_mixStrings (hsources p (by simp)) ConfString.order hoptions)

/-- **The section.** Every string is the expansion of the setting that it is taken from, in the
context of the leaf. -/
theorem usedStrings_spec (leaf : Family) :
    Recorded expand leaf.node.ctx (sectionTurns leaf) (mergedTag expand leaf)
      (usedStrings expand leaf) := by
  have htags : ∀ admin, (ownedTags leaf admin).map (·.2) = conftags leaf admin := by
    intro admin
    rw [ownedTags, conftags, List.map_filterMap]
    refine List.filterMap_congr fun f _ => ?_
    cases f.conf admin <;> rfl
  have hempty : Recorded expand leaf.node.ctx (sectionTurns leaf) {} fun _ => none :=
    ⟨fun k X s h => (by cases h), fun k _ => by cases k <;> rfl⟩
  have h := recorded_mixedStrings (sectionTurns leaf) (fun p hp => hp) hempty
  rw [sectionTurns, List.map_append, htags, htags] at h
  have hget : ∀ k : ConfString, k.get (mergedTag expand leaf) = k.get (basicTag expand leaf) :=
    fun k => by cases k <;> rfl
  exact ⟨fun k X s hk => by rw [hget]; exact h.taken k X s hk,
    fun k hk => by rw [hget]; exact h.missing k hk⟩

end

/-! ## The package manager -/

section

variable (expand : ExpandCtx → CStr → Option CStr)

end

/-! ## The strings of a launch -/

/-- The nodes as `RedNodesScan` leaves them: all have a config, and lead to the leaf. -/
structure Scanned (leaf : Family) (early : EarlyConf) : Prop where
  config : ∀ X ∈ leaf.toRoot, X.node.config ≠ none
  leaf : ∀ X ∈ leaf.toRoot,
    X.node.leaf = some ⟨leaf.node.config.map (·.headers), leaf.node.redpath, early⟩

/-- The callback of `mixConfTags` that records the section. -/
def recordTag : MixConftagCb (List RedConfTag) := fun tags tag => (0, tags ++ [tag])

section

variable {ω : Type} (expand : ExpandCtx → CStr → Option CStr) (env : RedEnv) (depth : Nat)
  (os : LaunchOs ω)

variable {expand env depth os} {leaf : Family} {early : EarlyConf}

theorem eq_mergedTag (hrun : ¬ (sharesRefused leaf ∨ capsRefused leaf)) (tag : RedConfTag) :
    (mixConfTags expand leaf recordTag []).result = some (0, [tag]) ↔
      tag = mergedTag expand leaf := by
  rw [mixConfTags_eq, if_neg hrun, recordTag, Option.some.injEq, Prod.mk.injEq]
  constructor
  · rintro ⟨-, h⟩
    exact (List.cons.inj h).1.symm
  · rintro rfl
    exact ⟨rfl, rfl⟩

/-- Arguments that are added to an empty list are what was given. -/
theorem addAll_inj {rs : RedwrapState Unit} {args args' : List (Option CStr)}
    (h : addAll rs args = addAll rs args')
    (hfit : rs.argval.length + args.length ≤ maxBwrapArgs) : args = args' := by
  obtain ⟨rs', hrun⟩ := (emits_addAll rs args).ends.mpr hfit
  have hargs := ((emits_addAll rs args).appended rs' hrun).1
  have hargs' := ((emits_addAll rs args').appended rs' (h ▸ hrun)).1
  exact List.append_cancel_left (hargs.symm.trans hargs')

/-- The hostname that the launch sets is expanded a second time. -/
theorem setHostname_value {tag : RedConfTag} {v : CStr} (hv : tag.hostname = some v)
    (rs : RedwrapState ω) (hnode : rs.rednode = leaf) : setHostname expand rs tag.hostname =
      addAll rs [CStr.lit "--unshare-uts", CStr.lit "--hostname",
        expand leaf.node.ctx v] := by
  rw [hv, setHostname, hnode]

theorem setChdir_value {tag : RedConfTag} {v : CStr} (hv : tag.chdir = some v)
    (rs : RedwrapState ω) (hnode : rs.rednode = leaf) : setChdir expand rs tag.chdir =
      addAll rs [CStr.lit "--chdir", expand leaf.node.ctx v] := by
  rw [hv, setChdir, hnode]

/-- Where a launch sets the same hostname as another value, the two are equal. -/
theorem setHostname_inj {tag : RedConfTag} {v : CStr} {w : Option CStr}
    (hv : tag.hostname = some v)
    (h : ∀ rs : RedwrapState Unit, rs.rednode = leaf → setHostname expand rs tag.hostname =
      addAll rs [CStr.lit "--unshare-uts", CStr.lit "--hostname", w]) :
    expand leaf.node.ctx v = w := by
  have heq := h (.start (CStr.lit "") false 0 () leaf) rfl
  rw [setHostname_value hv _ rfl] at heq
  have hargs := addAll_inj heq (show 1 + 3 ≤ maxBwrapArgs by decide)
  exact (List.cons.inj (List.cons.inj (List.cons.inj hargs).2).2).1

theorem setChdir_inj {tag : RedConfTag} {v : CStr} {w : Option CStr}
    (hv : tag.chdir = some v)
    (h : ∀ rs : RedwrapState Unit, rs.rednode = leaf → setChdir expand rs tag.chdir =
      addAll rs [CStr.lit "--chdir", w]) :
    expand leaf.node.ctx v = w := by
  have heq := h (.start (CStr.lit "") false 0 () leaf) rfl
  rw [setChdir_value hv _ rfl] at heq
  have hargs := addAll_inj heq (show 1 + 2 ≤ maxBwrapArgs by decide)
  exact (List.cons.inj (List.cons.inj hargs).2).1

/-- The hostname and the directory of the command are the expansions of their settings. -/
structure ExpandedOnce (expand : ExpandCtx → CStr → Option CStr) (leaf : Family) : Prop where
  hostname : ∀ tag, (mixConfTags expand leaf recordTag []).result = some (0, [tag]) →
    ∀ X s, usedStrings expand leaf .hostname = some (X, s) →
      ∀ {ω : Type} (rs : RedwrapState ω), rs.rednode = leaf →
        setHostname expand rs tag.hostname = addAll rs [CStr.lit "--unshare-uts",
          CStr.lit "--hostname", expand leaf.node.ctx s]
  chdir : ∀ tag, (mixConfTags expand leaf recordTag []).result = some (0, [tag]) →
    ∀ X s, usedStrings expand leaf .chdir = some (X, s) →
      ∀ {ω : Type} (rs : RedwrapState ω), rs.rednode = leaf →
        setChdir expand rs tag.chdir =
          addAll rs [CStr.lit "--chdir", expand leaf.node.ctx s]

/-- The settings of the hostname and of the directory of the command are expanded to strings that
expand to themselves. -/
def Settled (expand : ExpandCtx → CStr → Option CStr) (leaf : Family) : Prop :=
  ∀ k : ConfString, k = .hostname ∨ k = .chdir → ∀ X s v,
    usedStrings expand leaf k = some (X, s) → expand leaf.node.ctx s = some v →
      expand leaf.node.ctx v = some v

/-- **Expanded once.** The arguments are expanded twice, which is seen unless the merge of the
section is refused or the strings expand to themselves. -/
theorem expandedOnce_iff (leaf : Family) : ExpandedOnce expand leaf ↔
    sharesRefused leaf ∨ capsRefused leaf ∨ Settled expand leaf := by
  have hspec := @usedStrings_spec expand leaf
  by_cases hrefused : sharesRefused leaf ∨ capsRefused leaf
  · have hnone : ∀ tag,
        (mixConfTags expand leaf recordTag []).result ≠ some (0, [tag]) := by
      intro tag hrun
      rw [mixConfTags_eq, if_pos hrefused] at hrun
      cases hrun
    rw [← or_assoc]
    exact ⟨fun _ => .inl hrefused, fun _ =>
      ⟨fun tag hrun => absurd hrun (hnone tag), fun tag hrun => absurd hrun (hnone tag)⟩⟩
  · have hrun := (eq_mergedTag hrefused (mergedTag expand leaf)).mpr rfl
    constructor
    · intro honce
      refine .inr (.inr fun k hk X s v hused hv => ?_)
      obtain ⟨-, v', hv', hget⟩ := hspec.taken k X s hused
      obtain rfl : v = v' := Option.some.inj (hv.symm.trans hv')
      rw [← hv]
      rcases hk with rfl | rfl
      · exact setHostname_inj hget fun rs hnode => honce.hostname _ hrun X s hused rs hnode
      · exact setChdir_inj hget fun rs hnode => honce.chdir _ hrun X s hused rs hnode
    · intro hok
      have hsettled : Settled expand leaf := by
        rcases hok with hshares | hcaps | hsettled
        · exact absurd (.inl hshares) hrefused
        · exact absurd (.inr hcaps) hrefused
        · exact hsettled
      constructor
      · intro tag htag X s hused ω' rs hnode
        obtain rfl := (eq_mergedTag hrefused tag).mp htag
        obtain ⟨-, v, hv, hget⟩ := hspec.taken _ X s hused
        rw [setHostname_value hget rs hnode, hsettled _ (.inl rfl) X s v hused hv, hv]
      · intro tag htag X s hused ω' rs hnode
        obtain rfl := (eq_mergedTag hrefused tag).mp htag
        obtain ⟨-, v, hv, hget⟩ := hspec.taken _ X s hused
        rw [setChdir_value hget rs hnode, hsettled _ (.inr rfl) X s v hused hv, hv]

end

/-- `RedNodeStringExpand` for an environment and a bound on the nesting of values. -/
def nodeExpand (env : RedEnv) (depth : Nat) : ExpandCtx → CStr → Option CStr :=
  fun ctx s => (redNodeStringExpand env ctx depth s).join

theorem settled_of_noDollar {env : RedEnv} {depth : Nat} {leaf : Family}
    (h : ∀ k : ConfString, k = .hostname ∨ k = .chdir → ∀ X s v,
      usedStrings (nodeExpand env depth) leaf k = some (X, s) →
        nodeExpand env depth leaf.node.ctx s = some v → dollar ∉ v.bytes) :
    Settled (nodeExpand env depth) leaf := by
  intro k hk X s v hused hv
  have hrun := Option.join_eq_some_iff.mp hv
  have hagain : redNodeStringExpand env leaf.node.ctx depth v = some (some v) :=
    redNodeStringExpand_noDollar (h k hk X s v hused hv) (redNodeStringExpand_length hrun)
  exact congrArg Option.join hagain

/-! ## An inherited cache directory -/

def scannedNode (redpath : String) (tag : RedConfTag) : RedNode where
  config := some { headers := { nodeAlias := CStr.lit redpath }, conftag := tag }
  leaf := some ⟨some { nodeAlias := CStr.lit "/root/leaf" }, CStr.lit "/root/leaf", {}⟩
  redpath := CStr.lit redpath

/-- The hostname is meant to be `$USER`. -/
def escapeLeaf : Family where
  node := scannedNode "/root/leaf" { hostname := some (CStr.lit "\\$USER") }

/-- The escaped variable is expanded all the same. -/
theorem not_expandedOnce_escapeLeaf : ¬ ExpandedOnce (nodeExpand emptyEnv 1) escapeLeaf := by
  have hrefused : ¬ (sharesRefused escapeLeaf ∨ capsRefused escapeLeaf) := by
    rw [capsRefused_iff_links]
    decide
  intro h
  have hargs := setHostname_inj (rfl : (mergedTag (nodeExpand emptyEnv 1) escapeLeaf).hostname =
      some (CStr.lit "$USER"))
    fun rs hnode => h.hostname _ ((eq_mergedTag hrefused _).mpr rfl) escapeLeaf
      (CStr.lit "\\$USER") (by decide) rs hnode
  exact absurd hargs (by decide)

end Wrap
end RedPak
