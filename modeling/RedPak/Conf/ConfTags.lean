import RedPak.Conf.Capabilities
import RedPak.Conf.Shares
import RedPak.Conf.Expand

/-!
# Conf.ConfTags

The merge of the section `config` (`mix_basic_conftag`, `mixConfTags`).

The strings of a config are expanded one after the other, and the first one that fails ends the turn
of the config. Its status is 1, which the loops over the nodes do not take for an error.

* `mixConfTags_eq`: the callback gets `mergedTag`, unless the sharings or the capabilities are
  refused.
* `mixedStrings_get`: when no string that counts fails, every string is the expansion of the one
  that counts, in the context of the leaf.
* `failuresReported_iff`: exactly when failures are reported.
-/

namespace RedPak
namespace Conf

/-! ## Strings of a config -/

/-- The strings that `mix_basic_conftag` merges. -/
inductive ConfString where
  | rpmdir
  | persistdir
  | cachedir
  | hostname
  | chdir
  | umask
  | setuser
  | setgroup
  | smack
  | cgrouproot
deriving DecidableEq

namespace ConfString

def get : ConfString → RedConfTag → Option CStr
  | rpmdir, tag => tag.rpmdir
  | persistdir, tag => tag.persistdir
  | cachedir, tag => tag.cachedir
  | hostname, tag => tag.hostname
  | chdir, tag => tag.chdir
  | umask, tag => tag.umask
  | setuser, tag => tag.setuser
  | setgroup, tag => tag.setgroup
  | smack, tag => tag.smack
  | cgrouproot, tag => tag.cgrouproot

def set : ConfString → RedConfTag → Option CStr → RedConfTag
  | rpmdir, tag, v => { tag with rpmdir := v }
  | persistdir, tag, v => { tag with persistdir := v }
  | cachedir, tag, v => { tag with cachedir := v }
  | hostname, tag, v => { tag with hostname := v }
  | chdir, tag, v => { tag with chdir := v }
  | umask, tag, v => { tag with umask := v }
  | setuser, tag, v => { tag with setuser := v }
  | setgroup, tag, v => { tag with setgroup := v }
  | smack, tag, v => { tag with smack := v }
  | cgrouproot, tag, v => { tag with cgrouproot := v }

/-- The strings in the order of the merge. -/
def order : List ConfString :=
  [rpmdir, persistdir, cachedir, hostname, chdir, umask, setuser, setgroup, smack, cgrouproot]

theorem mem_order (k : ConfString) : k ∈ order := by cases k <;> decide

theorem order_nodup : order.Nodup := by decide

@[simp] theorem get_set (k : ConfString) (tag : RedConfTag) (v : Option CStr) :
    k.get (k.set tag v) = v := by cases k <;> rfl

theorem get_set_other {k k' : ConfString} (h : k ≠ k') (tag : RedConfTag) (v : Option CStr) :
    k.get (k'.set tag v) = k.get tag := by
  cases k <;> cases k' <;> first | rfl | exact absurd rfl h

end ConfString

/-! ## The merge of one config -/

def mixOptflagOverwrite (destination source : RedConfOptFlag) : RedConfOptFlag :=
  if destination = .unset then source else destination

def mixIntNotNull (destination source : Int) : Int :=
  if destination = 0 then source else destination

/-- `mix_uint_not_null`, `mix_bool_not_null` -/
def mixUintNotNull (destination source : Nat) : Nat :=
  if destination = 0 then source else destination

def mixOptions (destination source : RedConfTag) : RedConfTag :=
  { destination with
    diewithparent := mixOptflagOverwrite destination.diewithparent source.diewithparent
    newsession := mixOptflagOverwrite destination.newsession source.newsession
    verbose := mixIntNotNull destination.verbose source.verbose
    inheritenv := mixUintNotNull destination.inheritenv source.inheritenv
    gpgcheck := mixUintNotNull destination.gpgcheck source.gpgcheck
    unsafeNode := mixUintNotNull destination.unsafeNode source.unsafeNode
    maprootuser := mixUintNotNull destination.maprootuser source.maprootuser }

@[simp] theorem get_mixOptions (k : ConfString) (destination source : RedConfTag) :
    k.get (mixOptions destination source) = k.get destination := by cases k <;> rfl

section

variable (expand : ExpandCtx → CStr → Option CStr) (node : ExpandCtx)

/-- `mix_string`: the status, and the destination with the string in it. -/
def mixString (k : ConfString) (destination source : RedConfTag) : Int × RedConfTag :=
  match k.get source, k.get destination with
  | some s, none =>
    match expand node s with
    | some v => (0, k.set destination (some v))
    | none => (-1, destination)
  | _, _ => (0, destination)

/-- `mix_string(..) || mix_string(..) || ..` -/
def mixStrings (source : RedConfTag) : List ConfString → RedConfTag → Int × RedConfTag
  | [], destination => (0, destination)
  | k :: ks, destination =>
    let turn := mixString expand node k destination source
    if turn.1 ≠ 0 then (1, turn.2) else mixStrings source ks turn.2

def mixBasicConftag (destination source : RedConfTag) : Int × RedConfTag :=
  mixStrings expand node source ConfString.order (mixOptions destination source)

/-- `for (iter = node ; rc >= 0 && iter != NULL ; iter = iter->parent)` over the configs of one
kind. -/
def mixConfigs (admin : Bool) : List Family → Int × RedConfTag → Int × RedConfTag
  | [], state => state
  | iter :: iters, (rc, conftag) =>
    if rc ≥ 0 then
      match iter.conf admin with
      | some config =>
        mixConfigs admin iters (mixBasicConftag expand node conftag config.conftag)
      | none => mixConfigs admin iters (rc, conftag)
    else (rc, conftag)

end

abbrev MixConftagCb (σ : Type*) := σ → RedConfTag → Int × σ

section

variable (expand : ExpandCtx → CStr → Option CStr) {σ : Type*}

/-- Every string is expanded in the context of `node`, whichever config it comes from. -/
def mixConfTags (node : Family) (callback : MixConftagCb σ) (closure : σ) : Outcome σ :=
  let state := mixConfigs expand node.node.ctx true node.toRoot (0, {})
  let (rc, conftag) := mixConfigs expand node.node.ctx false node.toRoot state
  if rc < 0 then .ret rc closure []
  else
    match mixShares node setConftagShare conftag with
    | .fault => .fault
    | .ret rc conftag log =>
      if rc < 0 then .ret rc closure log
      else
        match mixCapabilities node mixConftagCapa conftag with
        | .fault => .fault
        | .ret rc conftag log' =>
          if rc < 0 then .ret rc closure (log ++ log')
          else
            let (rc, closure) := callback closure conftag
            .ret rc closure (log ++ log')

end

/-! ## Strings without failure -/

section

variable (expand : ExpandCtx → CStr → Option CStr) (node : ExpandCtx)

/-- The first of some configs that sets a string. -/
def firstSet (k : ConfString) (configs : List RedConfTag) : Option CStr :=
  (configs.filterMap k.get).head?

/-- The strings that are still to be set from some configs expand. -/
def StringsExpand (tag : RedConfTag) (configs : List RedConfTag) (ks : List ConfString) : Prop :=
  ∀ k ∈ ks, k.get tag = none → ∀ s, firstSet k configs = some s → expand node s ≠ none

theorem mixString_get {k : ConfString} {tag source : RedConfTag}
    (h : k.get tag = none → ∀ s, k.get source = some s → expand node s ≠ none) :
    (mixString expand node k tag source).1 = 0 ∧
      (∀ k' : ConfString, k'.get (mixString expand node k tag source).2 =
        if k' = k then (k.get tag).or ((k.get source).bind (expand node)) else k'.get tag) := by
  unfold mixString
  cases hs : k.get source with
  | none =>
    refine ⟨rfl, fun k' => ?_⟩
    by_cases hk : k' = k
    · subst hk; simp
    · simp [hk]
  | some s =>
    cases ht : k.get tag with
    | some v =>
      refine ⟨rfl, fun k' => ?_⟩
      by_cases hk : k' = k
      · subst hk; simp [ht]
      · simp [hk]
    | none =>
      dsimp only
      cases hv : expand node s with
      | none => exact absurd hv (h ht s hs)
      | some v =>
        refine ⟨rfl, fun k' => ?_⟩
        by_cases hk : k' = k
        · subst hk; simp [hv]
        · simp [hk, ConfString.get_set_other hk]

theorem mixStrings_get {source : RedConfTag} {ks : List ConfString} (hnodup : ks.Nodup) :
    ∀ tag : RedConfTag, StringsExpand expand node tag [source] ks →
      (mixStrings expand node source ks tag).1 = 0 ∧
      ∀ k : ConfString, k.get (mixStrings expand node source ks tag).2 =
        if k ∈ ks then (k.get tag).or ((k.get source).bind (expand node)) else k.get tag := by
  induction ks with
  | nil => intro tag _; exact ⟨rfl, fun k => by simp [mixStrings]⟩
  | cons k ks ih =>
    intro tag h
    have hk : k.get tag = none → ∀ s, k.get source = some s → expand node s ≠ none :=
      fun ht s hs => h k (by simp) ht s (by simp [firstSet, hs])
    obtain ⟨hrc, hget⟩ := mixString_get expand node hk
    have hnot : k ∉ ks := (List.nodup_cons.mp hnodup).1
    have hother : ∀ k' ∈ ks, k'.get (mixString expand node k tag source).2 = k'.get tag :=
      fun k' hk' => by
        have hne : k' ≠ k := fun e => hnot (e ▸ hk')
        rw [hget, if_neg hne]
    obtain ⟨hrc', hget'⟩ := ih (List.nodup_cons.mp hnodup).2
      (mixString expand node k tag source).2
      fun k' hk' ht s hs => h k' (by simp [hk']) (by rw [← hother k' hk']; exact ht) s hs
    have hstep : mixStrings expand node source (k :: ks) tag =
        mixStrings expand node source ks (mixString expand node k tag source).2 := by
      rw [mixStrings, if_neg (by simp [hrc])]
    rw [hstep]
    refine ⟨hrc', fun k' => ?_⟩
    rw [hget']
    by_cases hmem : k' ∈ ks
    · rw [if_pos hmem, if_pos (by simp [hmem]), hother k' hmem]
    · rw [if_neg hmem, hget]
      by_cases heq : k' = k
      · subst heq; simp
      · simp [heq, hmem]

/-- The turns of some configs, whatever their status. -/
def mixedStrings (tag : RedConfTag) (configs : List RedConfTag) : RedConfTag :=
  configs.foldl (fun tag source => (mixBasicConftag expand node tag source).2) tag

theorem mixBasicConftag_rc (tag source : RedConfTag) :
    0 ≤ (mixBasicConftag expand node tag source).1 := by
  have hstrings : ∀ (ks : List ConfString) (tag : RedConfTag),
      0 ≤ (mixStrings expand node source ks tag).1 := by
    intro ks
    induction ks with
    | nil => intro tag; exact Int.le_refl 0
    | cons k ks ih =>
      intro tag
      rw [mixStrings]
      by_cases hrc : (mixString expand node k tag source).1 ≠ 0
      · simp [hrc]
      · simpa [hrc] using ih _
  exact hstrings _ _

/-- **Failures do not stop the loops.** -/
theorem mixConfigs_eq (admin : Bool) (nodes : List Family) : ∀ state : Int × RedConfTag,
    0 ≤ state.1 → 0 ≤ (mixConfigs expand node admin nodes state).1 ∧
      (mixConfigs expand node admin nodes state).2 = mixedStrings expand node state.2
        (nodes.filterMap fun f => (f.conf admin).map (·.conftag)) := by
  induction nodes with
  | nil => intro state h; exact ⟨h, rfl⟩
  | cons f nodes ih =>
    intro state h
    obtain ⟨rc, tag⟩ := state
    rw [mixConfigs, if_pos h]
    cases hc : f.conf admin with
    | none => simpa [hc] using ih (rc, tag) h
    | some config =>
      have hrc := mixBasicConftag_rc expand node tag config.conftag
      simpa [hc, mixedStrings] using ih _ hrc

/-- **Strings.** When none fails, every string is the expansion of the first one that is set. -/
theorem mixedStrings_get (configs : List RedConfTag) : ∀ tag : RedConfTag,
    StringsExpand expand node tag configs ConfString.order →
      ∀ k : ConfString, k.get (mixedStrings expand node tag configs) =
        (k.get tag).or ((firstSet k configs).bind (expand node)) := by
  induction configs with
  | nil => intro tag _ k; simp [mixedStrings, firstSet]
  | cons source configs ih =>
    intro tag h k
    have hsource : StringsExpand expand node (mixOptions tag source) [source]
        ConfString.order := by
      intro k hk ht s hs
      refine h k hk (by simpa using ht) s ?_
      have hset : k.get source = some s := by simpa [firstSet] using hs
      simp [firstSet, hset]
    have hget : ∀ k : ConfString, k.get (mixBasicConftag expand node tag source).2 =
        (k.get tag).or ((k.get source).bind (expand node)) := fun k => by
      rw [mixBasicConftag, (mixStrings_get expand node ConfString.order_nodup _ hsource).2,
        if_pos k.mem_order, get_mixOptions]
    have hrest : StringsExpand expand node (mixBasicConftag expand node tag source).2 configs
        ConfString.order := by
      intro k hk ht s hs
      rw [hget, Option.or_eq_none_iff] at ht
      cases hset : k.get source with
      | none => exact h k hk ht.1 s (by simpa [firstSet, hset] using hs)
      | some s' =>
        have hfail : expand node s' = none := by simpa [hset] using ht.2
        exact absurd hfail (h k hk ht.1 s' (by simp [firstSet, hset]))
    have hstep : mixedStrings expand node tag (source :: configs) =
        mixedStrings expand node (mixBasicConftag expand node tag source).2 configs := rfl
    rw [hstep, ih _ hrest k, hget]
    cases hset : k.get source with
    | none => simp [firstSet, hset]
    | some s =>
      cases ht : k.get tag with
      | some v => simp
      | none =>
        cases hv : expand node s with
        | none => exact absurd hv (h k k.mem_order ht s (by simp [firstSet, hset]))
        | some v => simp [firstSet, hset, hv]

end

/-! ## The merged tag -/

section

variable (expand : ExpandCtx → CStr → Option CStr)

/-- The configs of one kind from the leaf to the root. -/
def conftags (node : Family) (admin : Bool) : List RedConfTag :=
  node.toRoot.filterMap fun f => (f.conf admin).map (·.conftag)

/-- What the two loops over the nodes leave. -/
def basicTag (node : Family) : RedConfTag :=
  mixedStrings expand node.node.ctx {} (conftags node true ++ conftags node false)

/-- What the callback of `mixConfTags` gets, when it is called. -/
def mergedTag (node : Family) : RedConfTag :=
  { basicTag expand node with
    share := fallback fun k => (shareSettings node k).head?
    capabilities := (((mixCapaLaw.links node).map capCalls).getD []).map fun p =>
      { cap := p.1, add := p.2 } }

theorem mixConfigs_both (node : Family) :
    0 ≤ (mixConfigs expand node.node.ctx false node.toRoot
      (mixConfigs expand node.node.ctx true node.toRoot (0, {}))).1 ∧
    (mixConfigs expand node.node.ctx false node.toRoot
      (mixConfigs expand node.node.ctx true node.toRoot (0, {}))).2 = basicTag expand node := by
  obtain ⟨hrc, htag⟩ := mixConfigs_eq expand node.node.ctx true node.toRoot (0, {})
    (Int.le_refl 0)
  obtain ⟨hrc', htag'⟩ := mixConfigs_eq expand node.node.ctx false node.toRoot _ hrc
  refine ⟨hrc', ?_⟩
  rw [htag', htag, basicTag, mixedStrings, mixedStrings, mixedStrings, List.foldl_append]
  rfl

theorem mixStrings_keeps {α : Type*} {proj : RedConfTag → α}
    (hset : ∀ (k : ConfString) (tag : RedConfTag) (v : Option CStr),
      proj (k.set tag v) = proj tag)
    (ctx : ExpandCtx) (source : RedConfTag) (ks : List ConfString) :
    ∀ tag : RedConfTag, proj (mixStrings expand ctx source ks tag).2 = proj tag := by
  induction ks with
  | nil => intro tag; rfl
  | cons k ks ih =>
    intro tag
    have hturn : proj (mixString expand ctx k tag source).2 = proj tag := by
      unfold mixString
      split
      · split
        · exact hset k tag _
        · rfl
      · rfl
    rw [mixStrings]
    split
    · exact hturn
    · exact (ih _).trans hturn

/-- What neither the strings nor the options set is as at the start. -/
theorem basicTag_keeps {α : Type*} {proj : RedConfTag → α}
    (hset : ∀ (k : ConfString) (tag : RedConfTag) (v : Option CStr),
      proj (k.set tag v) = proj tag)
    (hoptions : ∀ tag source, proj (mixOptions tag source) = proj tag) (node : Family) :
    proj (basicTag expand node) = proj {} := by
  have hmixed : ∀ (configs : List RedConfTag) (tag : RedConfTag),
      proj (mixedStrings expand node.node.ctx tag configs) = proj tag := by
    intro configs
    induction configs with
    | nil => intro tag; rfl
    | cons source configs ih =>
      intro tag
      exact (ih _).trans ((mixStrings_keeps expand hset _ _ _ _).trans (hoptions tag source))
  exact hmixed _ _

theorem capabilities_basicTag (node : Family) : (basicTag expand node).capabilities = [] :=
  basicTag_keeps expand (fun k _ _ => by cases k <;> rfl) (fun _ _ => rfl) node

theorem mixShares_into (node : Family) (tag : RedConfTag) :
    (mixShares node setConftagShare tag).result =
      if sharesRefused node then some (-1, tag)
      else some (0, { tag with share := fallback fun k => (shareSettings node k).head? }) := by
  have hkeys := sharesRefused_iff_keys node
  rcases mixShares_cases node setConftagShare tag with ⟨hacc, h⟩ | ⟨hacc, h⟩
  · rw [h, if_neg fun hr => hkeys.mp hr hacc]
    rfl
  · rw [h, if_pos (hkeys.mpr hacc)]

theorem mixCapabilities_into (node : Family) (tag : RedConfTag) (h : tag.capabilities = []) :
    (mixCapabilities node mixConftagCapa tag).result =
      if capsRefused node then some (-1, tag)
      else some (0, { tag with
        capabilities := (((mixCapaLaw.links node).map capCalls).getD []).map fun p =>
          { cap := p.1, add := p.2 } }) := by
  rw [mixCapabilities_eq]
  cases hls : mixCapaLaw.links node with
  | none => rw [if_pos ((capsRefused_iff_links node).mpr hls)]
  | some ls =>
    have hnot : ¬ capsRefused node := fun hr => by
      rw [capsRefused_iff_links, hls] at hr
      cases hr
    have hfill := Layered.deliver_fill RedConfTag.capabilities
      (fun tag caps => { tag with capabilities := caps }) (fun _ _ => rfl) (fun _ _ _ => rfl)
      (fun _ => rfl) (fun p : CStr × Int => ({ cap := p.1, add := p.2 } : RedConfCap))
      (capCalls ls) ls.length 0 tag (by rw [h]; rfl)
    rw [h, List.nil_append] at hfill
    rw [if_neg hnot]
    exact congrArg some hfill

/-- **The merge of the section.** The callback gets the merged tag, unless the sharings or the
capabilities are refused. No failure of an expansion is reported. -/
theorem mixConfTags_eq {σ : Type*} (node : Family) (callback : MixConftagCb σ) (closure : σ) :
    (mixConfTags expand node callback closure).result =
      if sharesRefused node ∨ capsRefused node then some (-1, closure)
      else some (callback closure (mergedTag expand node)) := by
  obtain ⟨hrc, htag⟩ := mixConfigs_both expand node
  have hshares := mixShares_into node (basicTag expand node)
  have hcaps := mixCapabilities_into node
    { basicTag expand node with share := fallback fun k => (shareSettings node k).head? }
    (capabilities_basicTag expand node)
  simp only [mixConfTags, htag, if_neg (Int.not_lt.mpr hrc)]
  cases hs : mixShares node setConftagShare (basicTag expand node) with
  | fault =>
    rw [hs] at hshares
    split at hshares <;> cases hshares
  | ret rc tag log =>
    rw [hs] at hshares
    by_cases hr : sharesRefused node
    · rw [if_pos hr] at hshares
      obtain ⟨rfl, rfl⟩ := Prod.mk.inj (Option.some.inj hshares)
      rw [if_pos (.inl hr)]
      rfl
    · rw [if_neg hr] at hshares
      obtain ⟨rfl, rfl⟩ := Prod.mk.inj (Option.some.inj hshares)
      simp only [if_neg (Int.lt_irrefl 0), hr, false_or]
      cases hc : mixCapabilities node mixConftagCapa
          { basicTag expand node with
            share := fallback fun k => (shareSettings node k).head? } with
      | fault =>
        rw [hc] at hcaps
        split at hcaps <;> cases hcaps
      | ret rc tag log' =>
        rw [hc] at hcaps
        by_cases hr' : capsRefused node
        · rw [if_pos hr'] at hcaps
          obtain ⟨rfl, rfl⟩ := Prod.mk.inj (Option.some.inj hcaps)
          rw [if_pos hr']
          rfl
        · rw [if_neg hr'] at hcaps
          obtain ⟨rfl, rfl⟩ := Prod.mk.inj (Option.some.inj hcaps)
          rw [if_neg hr']
          rfl

theorem mixConfTags_called {node : Family} (h : ¬ (sharesRefused node ∨ capsRefused node)) :
    (mixConfTags expand node (fun calls tag => (0, calls ++ [tag])) []).result =
      some (0, [mergedTag expand node]) := by
  rw [mixConfTags_eq, if_neg h]
  rfl

/-! ## Failures -/

/-- The settings of a string in the configs of one kind, from the leaf to the root, with their
nodes. -/
def stringSettings (node : Family) (k : ConfString) (admin : Bool) : List (Family × CStr) :=
  node.toRoot.filterMap fun f => ((f.conf admin).bind (k.get ·.conftag)).map fun s => (f, s)

/-- The setting of a string that counts: the nearest admin one or, without one, the nearest normal
one. -/
def selectedString (node : Family) (k : ConfString) : Option (Family × CStr) :=
  (stringSettings node k true ++ stringSettings node k false).head?

theorem firstSet_conftags (node : Family) (k : ConfString) :
    firstSet k (conftags node true ++ conftags node false) =
      (selectedString node k).map (·.2) := by
  have hkind : ∀ admin, (conftags node admin).filterMap k.get =
      (stringSettings node k admin).map (·.2) := by
    intro admin
    rw [conftags, stringSettings, List.filterMap_filterMap, List.map_filterMap]
    refine List.filterMap_congr fun f _ => ?_
    cases f.conf admin <;> simp [Function.comp_def]
  rw [firstSet, List.filterMap_append, hkind, hkind, ← List.map_append, List.head?_map]
  rfl

/-- All strings that count expand, in the context of the leaf. -/
def StringsSucceed (node : Family) : Prop :=
  ∀ k X s, selectedString node k = some (X, s) → expand node.node.ctx s ≠ none

theorem mergedTag_get {node : Family} (h : StringsSucceed expand node) (k : ConfString) :
    k.get (mergedTag expand node) =
      (selectedString node k).bind fun p => expand node.node.ctx p.2 := by
  have hmerged : k.get (mergedTag expand node) = k.get (basicTag expand node) := by
    cases k <;> rfl
  have hempty : k.get {} = none := by cases k <;> rfl
  have hexp : StringsExpand expand node.node.ctx {}
      (conftags node true ++ conftags node false) ConfString.order := by
    intro k' _ _ s hs
    rw [firstSet_conftags, Option.map_eq_some_iff] at hs
    obtain ⟨⟨X, s'⟩, hsel, rfl⟩ := hs
    exact h k' X s' hsel
  rw [hmerged, basicTag, mixedStrings_get expand _ _ _ hexp, firstSet_conftags, hempty]
  cases selectedString node k <;> rfl

/-- A failing expansion makes `mixConfTags` fail without calling its callback. When the callback is
called, every string is the expansion of the setting that counts, and NULL only without a
setting. -/
structure FailuresReported (node : Family) : Prop where
  refused : ¬ StringsSucceed expand node → ∃ rc ≠ 0, ∀ {σ : Type} (callback : MixConftagCb σ)
    (closure : σ), (mixConfTags expand node callback closure).result = some (rc, closure)
  delivered : ∀ rc tag, (mixConfTags expand node (fun calls tag => (0, calls ++ [tag])) []).result =
      some (rc, [tag]) → ∀ k : ConfString,
    k.get tag = ((selectedString node k).bind fun p => expand node.node.ctx p.2) ∧
      (k.get tag = none → ∀ f ∈ node.toRoot, ∀ admin, (f.conf admin).bind (k.get ·.conftag) = none)

theorem unset_of_selectedString {node : Family} {k : ConfString}
    (h : selectedString node k = none) :
    ∀ f ∈ node.toRoot, ∀ admin, (f.conf admin).bind (k.get ·.conftag) = none := by
  rw [selectedString, List.head?_eq_none_iff, List.append_eq_nil_iff] at h
  intro f hf admin
  have hkind : stringSettings node k admin = [] := by
    cases admin
    · exact h.2
    · exact h.1
  rw [stringSettings, List.filterMap_eq_nil_iff] at hkind
  simpa using hkind f hf

theorem not_failuresReported {node : Family} (hfail : ¬ StringsSucceed expand node)
    (href : ¬ (sharesRefused node ∨ capsRefused node)) : ¬ FailuresReported expand node := by
  intro h
  obtain ⟨rc, -, hrun⟩ := h.refused hfail
  have hcalled := mixConfTags_called expand href
  rw [hrun] at hcalled
  simp at hcalled

/-- **Failures of expansions** are reported exactly when there are none, or when the merge of the
sharings or of the capabilities fails anyway. -/
theorem failuresReported_iff (node : Family) : FailuresReported expand node ↔
    StringsSucceed expand node ∨ sharesRefused node ∨ capsRefused node := by
  constructor
  · intro h
    by_contra hnot
    rw [not_or] at hnot
    exact not_failuresReported expand hnot.1 hnot.2 h
  · intro h
    by_cases href : sharesRefused node ∨ capsRefused node
    · refine ⟨fun _ => ⟨-1, by decide, fun callback closure => ?_⟩, fun rc tag hrun => ?_⟩
      · rw [mixConfTags_eq, if_pos href]
      · rw [mixConfTags_eq, if_pos href] at hrun
        simp at hrun
    · have hok : StringsSucceed expand node := h.resolve_right href
      refine ⟨fun hfail => absurd hok hfail, fun rc tag hrun k => ?_⟩
      rw [mixConfTags_called expand href, Option.some.injEq, Prod.mk.injEq] at hrun
      obtain rfl : mergedTag expand node = tag := by simpa using hrun.2
      rw [mergedTag_get expand hok]
      refine ⟨rfl, fun hnone => unset_of_selectedString ?_⟩
      cases hsel : selectedString node k with
      | none => rfl
      | some p => rw [hsel] at hnone; exact absurd hnone (hok k p.1 p.2 hsel)

end

/-! ## A command without output -/

/-- An environment in which no command prints anything. -/
def silentEnv : RedEnv := { emptyEnv with memFdExecCmd := fun _ _ => some [] }

def silentExpand (ctx : ExpandCtx) (s : CStr) : Option CStr :=
  (redNodeStringExpand silentEnv ctx 1 s).join

def tagNode (redpath : String) (tag : RedConfTag) : RedNode where
  config := some { headers := { nodeAlias := CStr.lit "node" }, conftag := tag }
  redpath := CStr.lit redpath

/-- The leaf sets its directory of RPMs by a command, and its hostname. -/
def silentLeaf : Family where
  node := tagNode "/root/leaf" {
    rpmdir := some (CStr.lit "$(false)")
    hostname := some (CStr.lit "leaf") }
  parents := [tagNode "/root" { hostname := some (CStr.lit "root") }]

/-- The failure is swallowed: the directory is NULL, and the hostname is that of the parent. -/
theorem failure_swallowed : ¬ FailuresReported silentExpand silentLeaf ∧
    ∃ tag, (mixConfTags silentExpand silentLeaf (fun calls tag => (0, calls ++ [tag])) []).result =
        some (0, [tag]) ∧
      tag.rpmdir = none ∧ tag.hostname = some (CStr.lit "root") := by
  have href : ¬ (sharesRefused silentLeaf ∨ capsRefused silentLeaf) := by
    rw [capsRefused_iff_links]
    decide
  refine ⟨not_failuresReported silentExpand (fun h => ?_) href, _,
    mixConfTags_called silentExpand href, by decide, by decide⟩
  exact h .rpmdir silentLeaf (CStr.lit "$(false)") (by decide) (by decide)

end Conf
end RedPak
