import RedPak.Conf.MergedNode

/-!
# Conf.Remerge

The merged node, merged again: a chain of one node, with the merges of another chain written into
its config.

* `links_single`: in a chain of one node whose definitions have different names, every definition
  has its own link.
* `sameMerges_iff`: when the merged node delivers what the chain does.
-/

namespace RedPak
namespace Conf

open Layered (Item Buffer items fields joined IsField)
open Layered.Action (except_bind_eq_ok)

/-! ## A chain of one node -/

/-- The chain of a node without parents and without admin config. -/
def single (redpath : CStr) (config : RedConfig) : Family where
  node := { config := some config, redpath := redpath }

section

variable {δ τ : Type} {m : Mix δ τ} (law : m.Lawful) (redpath : CStr) (config : RedConfig)

theorem found_single :
    m.found (single redpath config) =
      items 0 false (single redpath config) (m.defs config) := by
  have hstrong : m.visible (single redpath config) true (single redpath config) = [] := rfl
  have hweak : m.visible (single redpath config) false (single redpath config) =
      m.defs config := by
    show (m.defs config).filter _ = _
    exact List.filter_eq_self.mpr fun d _ => by simp
  have hroot : (single redpath config).toRoot = [single redpath config] := rfl
  rw [Mix.found, hroot, Layered.walk, hstrong, hweak]
  simp [Layered.walk]

/-- The names that definitions have in the node. -/
def namesIn (m : Mix δ τ) (node : Family) (defs : List δ) : List (Option (List UInt8)) :=
  defs.map fun d => (m.name node d).map CStr.folded

theorem links_single (hnodup : (namesIn m (single redpath config) (m.defs config)).Nodup) :
    law.links (single redpath config) =
      some ((m.defs config).map fun d =>
        ⟨⟨0, false, single redpath config, d⟩, ⟨0, false, single redpath config, d⟩⟩).reverse := by
  have hkeys : ((items 0 false (single redpath config) (m.defs config)).map m.key).Nodup := by
    rw [items, List.map_map]
    exact hnodup
  rw [Mix.Lawful.links, found_single, Layered.mergeAll_of_nodup _ _ _ _ _ hkeys
    (fun l hl => absurd hl List.not_mem_nil), items, List.map_map, List.append_nil]
  rfl

end

/-! ## The merged node, written out -/

section

variable (expand : ExpandCtx → CStr → Option CStr) (env : RedEnv) (depth : Nat)

/-- The string that a path is merged into, if it has an element. -/
def mergedPath (getpath : RedConfig → Option CStr) (leaf : Family) : Option CStr :=
  if pathElements env depth leaf getpath = [] then none
  else some (pathValue env depth leaf getpath)

/-- The variables that are delivered, in their order. -/
def mergedVars (leaf : Family) : List RedConfVar :=
  ((mixVarLaw.links leaf).getD []).map (·.cur.val)

/-- What the merged node has for config. -/
def mergedConfigOf (leaf : Family) (config : RedConfig) : RedConfig where
  headers := config.headers
  conftag := { (mergeConftagCb {} (mergedTag expand leaf)).2 with
    path := mergedPath env depth (·.conftag.path) leaf
    ldpath := mergedPath env depth (·.conftag.ldpath) leaf
    cgroups := config.conftag.cgroups }
  confvar := mergedVars leaf
  exports := mergedExports expand leaf

/-- The chain has a merged node. -/
structure Mergeable (leaf : Family) (config : RedConfig) : Prop where
  headers : config.headers.name.isSome ∧ config.headers.info.isSome
  conftag : ¬ (sharesRefused leaf ∨ capsRefused leaf)
  exports : (mixExp expand).Comparable leaf ∧ ((mixExpLaw expand).links leaf).isSome
  confvar : (mixVarLaw.links leaf).isSome
  path : pathsFit env depth (pathSettings (·.conftag.path) (pathTurns leaf)) [] = true
  ldpath : pathsFit env depth (pathSettings (·.conftag.ldpath) (pathTurns leaf)) [] = true

theorem mergedHeaders_ok {headers headers' : RedConfHeader} :
    mergedHeaders headers = .ok headers' ↔
      (headers.name.isSome ∧ headers.info.isSome) ∧ headers' = headers := by
  obtain ⟨nodeAlias, name, info⟩ := headers
  cases name with
  | none => simp [mergedHeaders, strdup, bind, Except.bind]
  | some name =>
    cases info with
    | none => simp [mergedHeaders, strdup, bind, Except.bind]
    | some info =>
      simp [mergedHeaders, strdup, bind, Except.bind, pure, Except.pure, eq_comm]

theorem mergedTag_ok {leaf : Family} {ctag : RedConfTag} :
    afterMerge (mixConfTags expand leaf mergeConftagCb {}).result = .ok ctag ↔
      ¬ (sharesRefused leaf ∨ capsRefused leaf) ∧
        ctag = (mergeConftagCb {} (mergedTag expand leaf)).2 := by
  rw [afterMerge_ok, mixConfTags_eq]
  split
  · rename_i hrefused
    exact ⟨fun h => by simp at h, fun h => absurd hrefused h.1⟩
  · rename_i haccepted
    exact ⟨fun h => ⟨haccepted, (congrArg Prod.snd (Option.some.inj h)).symm⟩,
      fun h => by rw [h.2]; rfl⟩

theorem mergedExports_ok {leaf : Family} {exports : List RedConfExportPath} :
    afterMerge (mixExports expand leaf mergeExpCb []).result = .ok exports ↔
      ((mixExp expand).Comparable leaf ∧ ((mixExpLaw expand).links leaf).isSome) ∧
        exports = mergedExports expand leaf := by
  rw [afterMerge_ok]
  rcases delivered_cases expand leaf with ⟨ls, hcomp, hls, hdel, -⟩ | ⟨hnot, -, -⟩
  · have hrun : (mixExports expand leaf mergeExpCb []).result =
        some (0, mergedExports expand leaf) := by
      have hfill := Layered.deliver_fill id (fun _ l => l) (fun _ _ => rfl) (fun _ _ _ => rfl)
        (fun _ => rfl) (fun p : RedConfExportPath × Family => p.1)
        ((sortedLinks expand ls).map fun l => (l.cur.val, l.cur.level)) ls.length 0 [] rfl
      rw [mergedExports_eq, hdel, mixExports_eq expand hcomp, hls]
      exact congrArg some hfill
    rw [hrun, hls]
    exact ⟨fun h => ⟨⟨hcomp, rfl⟩, (congrArg Prod.snd (Option.some.inj h)).symm⟩,
      fun h => congrArg (fun exports => some (0, exports)) h.2.symm⟩
  · have hno : ¬ ((mixExp expand).Comparable leaf ∧ ((mixExpLaw expand).links leaf).isSome) := by
      rintro ⟨hcomp, hsome⟩
      rcases hnot with hnot | hnot
      · exact hnot hcomp
      · rw [hnot] at hsome
        cases hsome
    refine ⟨fun h => ?_, fun h => absurd h.1 hno⟩
    rcases mixExports_cases expand leaf with ⟨ls, hcomp, hls, -⟩ | ⟨-, hrun⟩
    · exact absurd ⟨hcomp, by rw [hls]; rfl⟩ hno
    · rcases hrun mergeExpCb [] with hrun | hrun <;> rw [hrun] at h <;> cases h

theorem mergedVars_ok {leaf : Family} {vars : List RedConfVar} :
    afterMerge (mixVariables leaf mergeVarCb []).result = .ok vars ↔
      (mixVarLaw.links leaf).isSome ∧ vars = mergedVars leaf := by
  rw [afterMerge_ok, mixVariables_eq, mergedVars]
  cases hls : mixVarLaw.links leaf with
  | none => exact ⟨fun h => (by cases h), fun h => (by cases h.1)⟩
  | some ls =>
    have hfill := Layered.deliver_fill id (fun _ l => l) (fun _ _ => rfl) (fun _ _ _ => rfl)
      (fun _ => rfl) (fun p : RedConfVar × Family => p.1)
      (ls.map fun l => (l.cur.val, l.cur.level)) ls.length 0 [] rfl
    rw [List.map_map] at hfill
    have hrun := congrArg some hfill
    exact ⟨fun h => ⟨rfl, congrArg Prod.snd (Option.some.inj (h.symm.trans hrun))⟩,
      fun h => by rw [h.2]; exact hrun⟩

theorem mergedPath_ok {leaf : Family} {getpath : RedConfig → Option CStr}
    {path : Option CStr} {buffer : Buffer UInt8} :
    afterMergePaths (mixPaths env depth leaf (fun _ => getpath) mergePathCb none buffer) =
        .ok path ↔
      pathsFit env depth (pathSettings getpath (pathTurns leaf)) [] = true ∧
        path = mergedPath env depth getpath leaf := by
  rw [afterMergePaths_ok]
  cases hfit : pathsFit env depth (pathSettings getpath (pathTurns leaf)) [] with
  | true =>
    rw [@mixPaths_of_fit env depth (Option CStr) leaf (fun _ => getpath) none hfit, mergedPath]
    split <;> simp [mergePathCb, cpstrinn, eq_comm]
  | false =>
    have hnot := @mixPaths_of_not_fit env depth (Option CStr) leaf (fun _ => getpath) none hfit
      mergePathCb buffer path
    exact ⟨fun h => absurd h hnot, fun h => (by cases h.1)⟩

theorem mergedTag_paths (leaf : Family) :
    (mergedTag expand leaf).path = none ∧ (mergedTag expand leaf).ldpath = none :=
  ⟨@basicTag_keeps expand _ RedConfTag.path (fun k _ _ => by cases k <;> rfl)
      (fun _ _ => rfl) leaf,
    @basicTag_keeps expand _ RedConfTag.ldpath (fun k _ _ => by cases k <;> rfl)
      (fun _ _ => rfl) leaf⟩

/-- **The merged node.** -/
theorem getMergedNode_ok {pathBuffer ldpathBuffer : Buffer UInt8} {leaf : Family}
    {config : RedConfig} (hconf : leaf.node.config = some config) {merged : RedNode} :
    getMergedNode expand env depth pathBuffer ldpathBuffer leaf = .ok merged ↔
      Mergeable expand env depth leaf config ∧
        merged = { config := some (mergedConfigOf expand env depth leaf config)
                   redpath := leaf.node.redpath } := by
  have hpath : (mergeConftagCb {} (mergedTag expand leaf)).2.path = none := by
    show cpstrinn none _ = none
    rw [(mergedTag_paths expand leaf).1, cpstrinn_none]
  have hldpath : (mergeConftagCb {} (mergedTag expand leaf)).2.ldpath = none := by
    show cpstrinn none _ = none
    rw [(mergedTag_paths expand leaf).2, cpstrinn_none]
  rw [getMergedNode, hconf]
  simp only [mergedConfig, except_bind_eq_ok, mergedHeaders_ok, mergedTag_ok, mergedExports_ok,
    mergedVars_ok]
  constructor
  · rintro ⟨_, ⟨_, ⟨hheaders, rfl⟩, _, ⟨hsection, rfl⟩, _, ⟨hexports, rfl⟩, _, ⟨hvars, rfl⟩,
      _, hp, _, hl, hresult⟩, hmerged⟩
    rw [hpath, mergedPath_ok] at hp
    rw [hldpath, mergedPath_ok] at hl
    obtain ⟨hfit, rfl⟩ := hp
    obtain ⟨hfit', rfl⟩ := hl
    cases hresult
    cases hmerged
    refine ⟨⟨hheaders, hsection, hexports, hvars, hfit, hfit'⟩, ?_⟩
    rw [copyCgroups_eq]
    rfl
  · rintro ⟨⟨hheaders, hsection, hexports, hvars, hfit, hfit'⟩, rfl⟩
    refine ⟨_, ⟨_, ⟨hheaders, rfl⟩, _, ⟨hsection, rfl⟩, _, ⟨hexports, rfl⟩, _, ⟨hvars, rfl⟩, _,
      by rw [hpath]; exact (mergedPath_ok env depth).mpr ⟨hfit, rfl⟩, _,
      by rw [hldpath]; exact (mergedPath_ok env depth).mpr ⟨hfit', rfl⟩, rfl⟩, ?_⟩
    rw [copyCgroups_eq]
    rfl

end

/-! ## What is delivered -/

section

variable (expand : ExpandCtx → CStr → Option CStr) (env : RedEnv) (depth : Nat)

/-- An export as it is in a context: its mode, its source and its mount. -/
def exportIn (ctx : ExpandCtx) (e : RedConfExportPath) :
    RedExportFlag × Option CStr × Option CStr :=
  (e.mode, e.path.bind (expand ctx), expand ctx e.mount)

/-- A variable as it is in a context: its mode, its key and its value. -/
def variableIn (ctx : ExpandCtx) (v : RedConfVar) : RedVarEnvFlag × CStr × Option CStr :=
  (v.mode, v.key, v.value.bind (expand ctx))

/-- The set of what a merge delivers, if it succeeds. -/
def given {γ δ : Type} (read : γ → δ) (result : Option (Int × List γ)) : Option (Set δ) :=
  match result with
  | some (0, calls) => some {x | ∃ p ∈ calls, read p = x}
  | _ => none

def givenExports (node : Family) : Option (Set (RedExportFlag × Option CStr × Option CStr)) :=
  given (fun p : RedConfExportPath × Family => exportIn expand p.2.node.ctx p.1)
    (mixExports expand node recordCall []).result

def givenVariables (node : Family) : Option (Set (RedVarEnvFlag × CStr × Option CStr)) :=
  given (fun p : RedConfVar × Family => variableIn expand p.2.node.ctx p.1)
    (mixVariables node recordCall []).result

def recordCapa : MixCapaCb (List (CStr × Int)) := fun calls capability value _ _ =>
  (0, calls ++ [(capability, value)])

def givenCapabilities (node : Family) : Option (Set (CStr × Int)) :=
  given id (mixCapabilities node recordCapa []).result

def recordShare : MixShareCb (List RedConfShare) := fun calls share => (0, calls ++ [share])

/-- Two chains deliver the same. -/
structure SameMerges (a b : Family) : Prop where
  exports : givenExports expand b = givenExports expand a
  vars : givenVariables expand b = givenVariables expand a
  path : ∀ buffer buffer' : Buffer UInt8,
    mixPaths env depth b (fun _ config => config.conftag.path) recordPath [] buffer =
      mixPaths env depth a (fun _ config => config.conftag.path) recordPath [] buffer'
  ldpath : ∀ buffer buffer' : Buffer UInt8,
    mixPaths env depth b (fun _ config => config.conftag.ldpath) recordPath [] buffer =
      mixPaths env depth a (fun _ config => config.conftag.ldpath) recordPath [] buffer'
  capabilities : givenCapabilities b = givenCapabilities a
  shares : (mixShares b recordShare []).result = (mixShares a recordShare []).result

/-! ## When it is delivered again -/

/-- The context of the merged node: the one of the leaf, without a leaf of its own. -/
def mergedCtx (leaf : Family) : ExpandCtx :=
  ⟨leaf.node.config.map (·.headers), leaf.node.redpath, none⟩

/-- The exports that count are, all together, the same in the merged node as in their own nodes. -/
def ExportsKept (leaf : Family) : Prop :=
  ∀ x, (∃ k f e, ((mixExp expand).deciding leaf k).head? = some (f, e) ∧
      exportIn expand (mergedCtx leaf) e = x) ↔
    ∃ k f e, ((mixExp expand).deciding leaf k).head? = some (f, e) ∧
      exportIn expand f.node.ctx e = x

/-- The value of every variable that counts is the same in the merged node as in its own node. -/
def VariablesKept (leaf : Family) : Prop :=
  ∀ k f v, (mixVar.deciding leaf k).head? = some (f, v) →
    v.value.bind (expand (mergedCtx leaf)) = v.value.bind (expand f.node.ctx)

/-- The elements of a path, expanded once more, are the same. -/
def PathKept (leaf : Family) (getpath : RedConfig → Option CStr) : Prop :=
  pathElements env depth leaf getpath ≠ [] →
    ∃ t, expandedText env (mergedCtx leaf) depth pathsBufferSize
        (pathValue env depth leaf getpath) = some t ∧
      (fields colon t).eraseDups = pathElements env depth leaf getpath

structure KeptWhen (leaf : Family) : Prop where
  exports : ExportsKept expand leaf
  vars : VariablesKept expand leaf
  path : PathKept env depth leaf (·.conftag.path)
  ldpath : PathKept env depth leaf (·.conftag.ldpath)

/-! ## Exports -/

variable {leaf : Family} {config : RedConfig}

theorem mem_delivered_single {redpath : CStr} {p : RedConfExportPath × Family}
    (h : p ∈ delivered expand (single redpath config)) :
    p.2 = single redpath config ∧ p.1 ∈ config.exports := by
  obtain ⟨-, -, k, hk⟩ := (mem_delivered expand).mp h
  obtain ⟨admin, hroot, hvisible⟩ := Mix.visible_of_deciding _ hk
  have hlevel : p.2 = single redpath config := List.mem_singleton.mp hroot
  rw [hlevel] at hvisible
  refine ⟨hlevel, ?_⟩
  cases admin with
  | true => exact absurd hvisible List.not_mem_nil
  | false => exact List.mem_of_mem_filter hvisible

/-- Two lists of one length, the second of which has no doubles, with one set of elements. -/
theorem perm_of_same {γ : Type} {l l' : List γ} (hnodup : l'.Nodup) (hlen : l.length = l'.length)
    (hsub : ∀ x ∈ l', x ∈ l) : l.Perm l' :=
  ((List.subperm_of_subset hnodup hsub).perm_of_length_le (Nat.le_of_eq hlen)).symm

theorem givenExports_eq (node : Family) :
    givenExports expand node = none ∨
    givenExports expand node =
      some {x | ∃ p ∈ delivered expand node, exportIn expand p.2.node.ctx p.1 = x} := by
  rcases delivered_cases expand node with ⟨ls, -, -, -, hrun⟩ | ⟨-, -, hnot⟩
  · right
    rw [givenExports, hrun]
    rfl
  · left
    unfold givenExports given
    split
    · rename_i calls hrun
      exact absurd hrun (hnot calls)
    · rfl

theorem givenExports_of_accepted {node : Family} (hexports : (mixExp expand).Comparable node ∧
      ((mixExpLaw expand).links node).isSome) : givenExports expand node =
      some {x | ∃ p ∈ delivered expand node, exportIn expand p.2.node.ctx p.1 = x} := by
  obtain ⟨ls, hls⟩ := Option.isSome_iff_exists.mp hexports.2
  rw [givenExports, (delivered_of_accepted expand hexports.1 hls).2]
  rfl

theorem counts_iff_delivered (hexports : (mixExp expand).Comparable leaf ∧
      ((mixExpLaw expand).links leaf).isSome)
    (read : Family → RedConfExportPath → RedExportFlag × Option CStr × Option CStr)
    (x : RedExportFlag × Option CStr × Option CStr) :
    (∃ k f e, ((mixExp expand).deciding leaf k).head? = some (f, e) ∧ read f e = x) ↔
      ∃ p ∈ delivered expand leaf, read p.2 p.1 = x := by
  obtain ⟨ls, hls⟩ := Option.isSome_iff_exists.mp hexports.2
  have haccepted := (mixExpLaw expand).links_isSome.mp ⟨ls, hls⟩
  constructor
  · rintro ⟨k, f, e, hk, hx⟩
    exact ⟨(e, f), (mem_delivered expand).mpr ⟨hexports.1, haccepted, k, hk⟩, hx⟩
  · rintro ⟨p, hp, hx⟩
    obtain ⟨-, -, k, hk⟩ := (mem_delivered expand).mp hp
    exact ⟨k, p.2, p.1, hk, hx⟩

/-- The mounts of what is delivered are different, and no more than what was found. -/
theorem delivered_keys (hexports : (mixExp expand).Comparable leaf ∧
      ((mixExpLaw expand).links leaf).isSome) :
    ((delivered expand leaf).map fun p => mountKey expand p.2 p.1).Nodup ∧
      (delivered expand leaf).length ≤ ((mixExp expand).found leaf).length := by
  obtain ⟨ls, hls⟩ := Option.isSome_iff_exists.mp hexports.2
  obtain ⟨hnames, -⟩ := (Mix.Lawful.holds_of_links (mixExpLaw expand) hls).calls
    (sortedLinks_perm expand ls)
  rw [(delivered_of_accepted expand hexports.1 hls).1]
  refine ⟨hnames.nodup_iff.mpr (List.nodup_dedup _), ?_⟩
  have hlen := hnames.length_eq
  have hle := (List.dedup_sublist ((mixExp expand).names leaf)).length_le
  have hfound : ((mixExp expand).names leaf).length = ((mixExp expand).found leaf).length := by
    rw [← Mix.found_key, List.length_map]
  rw [List.length_map] at hlen
  omega

/-- The merged exports in the merged node can be compared. -/
theorem comparable_single {redpath : CStr} (hexports : (mixExp expand).Comparable leaf ∧
      ((mixExpLaw expand).links leaf).isSome)
    (hconfig : config.exports = (delivered expand leaf).map (·.1))
    (hsame : ∀ p ∈ delivered expand leaf, ∃ q ∈ delivered expand leaf,
      exportIn expand q.2.node.ctx q.1 =
        exportIn expand (single redpath config).node.ctx p.1) :
    (mixExp expand).Comparable (single redpath config) := by
  by_cases hlen : (delivered expand leaf).length ≤ 1
  · right
    have hdefs : (mixExp expand).defs config = config.exports := rfl
    rw [found_single, items, List.length_map, hdefs, hconfig, List.length_map]
    exact hlen
  · left
    intro f hf admin d hd
    obtain rfl : f = single redpath config := List.mem_singleton.mp hf
    have hmem : d ∈ config.exports := by
      cases admin with
      | true => exact absurd hd List.not_mem_nil
      | false => exact List.mem_of_mem_filter hd
    rw [hconfig] at hmem
    obtain ⟨p, hp, rfl⟩ := List.mem_map.mp hmem
    obtain ⟨q, hq, heq⟩ := hsame p hp
    have hnamed : (mixExp expand).Named leaf := hexports.1.resolve_right fun h =>
      hlen (Nat.le_trans (delivered_keys expand hexports).2 h)
    obtain ⟨-, -, k, hk⟩ := (mem_delivered expand).mp hq
    obtain ⟨admin, hroot, hvisible⟩ := Mix.visible_of_deciding _ hk
    have hsome := hnamed _ hroot admin _ hvisible
    have hmount : expand q.2.node.ctx q.1.mount =
        expand (single redpath config).node.ctx p.1.mount := congrArg (·.2.2) heq
    show (expand (single redpath config).node.ctx p.1.mount).isSome = true
    rw [← hmount]
    exact hsome

/-- The merged node delivers its exports, if they are mounted in different places. -/
theorem delivered_single {redpath : CStr}
    (hcomp : (mixExp expand).Comparable (single redpath config))
    (hnodup : (namesIn (mixExp expand) (single redpath config) config.exports).Nodup) :
    givenExports expand (single redpath config) =
      some {x | ∃ e ∈ config.exports, exportIn expand (single redpath config).node.ctx e = x} := by
  have hlinks := links_single (mixExpLaw expand) redpath config hnodup
  have hsome : ((mixExpLaw expand).links (single redpath config)).isSome := by
    rw [hlinks]
    rfl
  rw [givenExports_of_accepted expand ⟨hcomp, hsome⟩, Option.some.injEq]
  ext x
  constructor
  · rintro ⟨p, hp, hx⟩
    obtain ⟨hlevel, hval⟩ := mem_delivered_single expand hp
    rw [hlevel] at hx
    exact ⟨p.1, hval, hx⟩
  · rintro ⟨e, he, hx⟩
    refine ⟨(e, single redpath config), ?_, hx⟩
    rw [(delivered_of_accepted expand hcomp hlinks).1]
    refine List.mem_map.mpr ⟨⟨⟨0, false, single redpath config, e⟩,
      ⟨0, false, single redpath config, e⟩⟩, ?_, rfl⟩
    rw [(sortedLinks_perm expand _).mem_iff, List.mem_reverse]
    exact List.mem_map.mpr ⟨e, he, rfl⟩

/-- What is delivered, read in the nodes that it is from. -/
def ownExports (leaf : Family) : List (RedExportFlag × Option CStr × Option CStr) :=
  (delivered expand leaf).map fun p => exportIn expand p.2.node.ctx p.1

/-- What is delivered, read in the merged node. -/
def flatExports (leaf : Family) : List (RedExportFlag × Option CStr × Option CStr) :=
  (delivered expand leaf).map fun p => exportIn expand (mergedCtx leaf) p.1

theorem exportsKept_iff (hexports : (mixExp expand).Comparable leaf ∧
      ((mixExpLaw expand).links leaf).isSome) :
    ExportsKept expand leaf ↔ ∀ x, x ∈ flatExports expand leaf ↔ x ∈ ownExports expand leaf := by
  refine forall_congr' fun x => ?_
  rw [counts_iff_delivered expand hexports fun _ e => exportIn expand (mergedCtx leaf) e,
    counts_iff_delivered expand hexports fun f e => exportIn expand f.node.ctx e,
    ← List.mem_map, ← List.mem_map]
  rfl

theorem nodup_ownExports (hexports : (mixExp expand).Comparable leaf ∧
      ((mixExpLaw expand).links leaf).isSome) :
    ((ownExports expand leaf).map fun x => x.2.2.map CStr.folded).Nodup := by
  rw [ownExports, List.map_map]
  exact (delivered_keys expand hexports).1

/-- Where every own export is one of the merged node, there are no others. -/
theorem flatExports_perm (hexports : (mixExp expand).Comparable leaf ∧
      ((mixExpLaw expand).links leaf).isSome)
    (hsub : ∀ x ∈ ownExports expand leaf, x ∈ flatExports expand leaf) :
    (flatExports expand leaf).Perm (ownExports expand leaf) :=
  perm_of_same (nodup_ownExports expand hexports).of_map
    (by rw [flatExports, ownExports, List.length_map, List.length_map]) hsub

/-- **Exports** are delivered again exactly when, all together, they are kept. -/
theorem givenExports_iff {redpath : CStr} (hexports : (mixExp expand).Comparable leaf ∧
      ((mixExpLaw expand).links leaf).isSome)
    (hconfig : config.exports = (delivered expand leaf).map (·.1))
    (hctx : (single redpath config).node.ctx = mergedCtx leaf) :
    givenExports expand (single redpath config) = givenExports expand leaf ↔
      ExportsKept expand leaf := by
  have hleaf := givenExports_of_accepted expand hexports
  have hflat : ∀ x, (∃ e ∈ config.exports,
      exportIn expand (single redpath config).node.ctx e = x) ↔ x ∈ flatExports expand leaf := by
    intro x
    rw [hconfig, hctx, ← List.mem_map, List.map_map]
    rfl
  rw [exportsKept_iff expand hexports]
  constructor
  · intro hsame
    have hsub : ∀ x ∈ ownExports expand leaf, x ∈ flatExports expand leaf := by
      intro x hx
      rw [hleaf] at hsame
      rcases givenExports_eq expand (single redpath config) with hnone | hgiven
      · rw [hnone] at hsame
        cases hsame
      · rw [hgiven, Option.some.injEq] at hsame
        have hmem : x ∈ {x | ∃ p ∈ delivered expand (single redpath config),
            exportIn expand p.2.node.ctx p.1 = x} := by
          rw [hsame]
          exact List.mem_map.mp hx
        obtain ⟨q, hq, hqx⟩ := hmem
        obtain ⟨hlevel, hval⟩ := mem_delivered_single expand hq
        rw [hlevel] at hqx
        exact (hflat x).mp ⟨q.1, hval, hqx⟩
    exact fun x => (flatExports_perm expand hexports hsub).mem_iff
  · intro hiff
    have hcomp : (mixExp expand).Comparable (single redpath config) := by
      refine comparable_single expand hexports hconfig fun p hp => ?_
      rw [hctx]
      exact List.mem_map.mp ((hiff _).mp (List.mem_map.mpr ⟨p, hp, rfl⟩))
    have hnodup : (namesIn (mixExp expand) (single redpath config) config.exports).Nodup := by
      have hperm := flatExports_perm expand hexports fun x hx => (hiff x).mpr hx
      have hkeys := (hperm.map fun x => x.2.2.map CStr.folded).nodup_iff.mpr
        (nodup_ownExports expand hexports)
      rw [flatExports, List.map_map] at hkeys
      rw [namesIn, hconfig, List.map_map]
      refine Eq.mp (congrArg List.Nodup (List.map_congr_left fun p _ => ?_)) hkeys
      show (expand (mergedCtx leaf) p.1.mount).map CStr.folded = _
      rw [← hctx]
      rfl
    rw [delivered_single expand hcomp hnodup, hleaf, Option.some.injEq]
    ext x
    exact (hflat x).trans ((hiff x).trans List.mem_map)

/-! ## Variables -/

theorem givenVariables_single {redpath : CStr}
    (hnodup : (namesIn mixVar (single redpath config) config.confvar).Nodup) :
    givenVariables expand (single redpath config) = some {x | ∃ v ∈ config.confvar,
      variableIn expand (single redpath config).node.ctx v = x} := by
  rw [givenVariables, mixVariables_eq, links_single mixVarLaw redpath config hnodup]
  dsimp only
  rw [deliver_recordCall, List.map_reverse, List.map_map]
  simp [given, mixVar]

theorem givenVariables_of_links {ls : List (Layered.Link Family RedConfVar)}
    (hls : mixVarLaw.links leaf = some ls) :
    givenVariables expand leaf = some {x | ∃ l ∈ ls,
      variableIn expand l.cur.level.node.ctx l.cur.val = x} := by
  rw [givenVariables, mixVariables_eq, hls]
  dsimp only
  rw [deliver_recordCall]
  simp [given]

/-- **Variables** are delivered again exactly when each of them is kept: their keys are not
expanded. -/
theorem givenVariables_iff {redpath : CStr} (hvars : (mixVarLaw.links leaf).isSome)
    (hconfig : config.confvar = mergedVars leaf)
    (hctx : (single redpath config).node.ctx = mergedCtx leaf) :
    givenVariables expand (single redpath config) = givenVariables expand leaf ↔
      VariablesKept expand leaf := by
  obtain ⟨ls, hls⟩ := Option.isSome_iff_exists.mp hvars
  have hholds := Mix.Lawful.holds_of_links mixVarLaw hls
  have hkeys : (ls.map fun l => some l.cur.val.key.folded).Nodup := by
    have hnames := (hholds.calls (List.Perm.refl ls)).1.nodup_iff.mpr (List.nodup_dedup _)
    rw [List.map_map] at hnames
    exact hnames
  have hdefs : config.confvar = ls.map (·.cur.val) := by rw [hconfig, mergedVars, hls]; rfl
  have hnodup : (namesIn mixVar (single redpath config) config.confvar).Nodup := by
    rw [namesIn, hdefs, List.map_map]
    exact hkeys
  rw [givenVariables_single expand hnodup, givenVariables_of_links expand hls, hdefs, hctx,
    Option.some.injEq]
  constructor
  · intro hsame k f v hk
    obtain ⟨l, hl, hlk⟩ := hholds.exists_link hk
    have hvalue := hholds.value l hl
    rw [hlk, hk, Option.some.injEq, Prod.mk.injEq] at hvalue
    have hmem : variableIn expand (mergedCtx leaf) v ∈ {x | ∃ l ∈ ls,
        variableIn expand l.cur.level.node.ctx l.cur.val = x} := by
      rw [← hsame]
      exact ⟨v, List.mem_map.mpr ⟨l, hl, hvalue.2.symm⟩, rfl⟩
    obtain ⟨l', hl', heq⟩ := hmem
    -- the key leads to the same link
    have hkey : l'.cur.val.key = l.cur.val.key := by
      rw [← hvalue.2]
      exact congrArg (·.2.1) heq
    obtain rfl : l' = l := List.inj_on_of_nodup_map hkeys hl' hl (by rw [hkey])
    rw [hvalue.2] at heq
    rw [hvalue.1, hvalue.2]
    exact (congrArg (·.2.2) heq).symm
  · intro hkept
    have hread : ∀ l ∈ ls, variableIn expand (mergedCtx leaf) l.cur.val =
        variableIn expand l.cur.level.node.ctx l.cur.val := fun l hl => by
      rw [variableIn, variableIn, hkept _ _ _ (hholds.value l hl)]
    ext x
    constructor
    · rintro ⟨v, hv, hx⟩
      obtain ⟨l, hl, rfl⟩ := List.mem_map.mp hv
      exact ⟨l, hl, (hread l hl).symm.trans hx⟩
    · rintro ⟨l, hl, hx⟩
      exact ⟨l.cur.val, List.mem_map.mpr ⟨l, hl, rfl⟩, (hread l hl).trans hx⟩

/-! ## Capabilities and sharings -/

theorem deliver_recordCapa (count i : Nat) (ps : List (CStr × Int)) :
    Layered.deliver (fun c (p : CStr × Int) index count => recordCapa c p.1 p.2 index count) count
      i ps [] = (0, ps) := by
  have hfold : ∀ acc : List (CStr × Int),
      ps.foldl (fun acc p => acc ++ [(p.1, p.2)]) acc = acc ++ ps := by
    induction ps with
    | nil => simp
    | cons p ps ih => simp [ih]
  refine (Layered.deliver_foldl (fun acc (p : CStr × Int) => acc ++ [(p.1, p.2)]) ps count i
    []).trans ?_
  rw [hfold, List.nil_append]

/-- **Capabilities** are always delivered again. -/
theorem givenCapabilities_single {redpath : CStr} {ls : List (Layered.Link Family RedConfCap)}
    (hls : mixCapaLaw.links leaf = some ls)
    (hconfig : config.conftag.capabilities =
      (capCalls ls).map fun p => { cap := p.1, add := p.2 }) :
    givenCapabilities (single redpath config) = givenCapabilities leaf := by
  have hnodup : (namesIn mixCapa (single redpath config) config.conftag.capabilities).Nodup := by
    have hnames := (capCalls_names hls).nodup_iff.mpr (List.nodup_dedup _)
    rw [namesIn, hconfig, List.map_map]
    exact hnames
  rw [givenCapabilities, givenCapabilities, mixCapabilities_eq, mixCapabilities_eq,
    links_single mixCapaLaw redpath config hnodup, hls]
  dsimp only
  rw [deliver_recordCapa, deliver_recordCapa, List.map_reverse, List.map_map]
  have hdefs : mixCapa.defs config = config.conftag.capabilities := rfl
  simp only [given, hdefs, hconfig, Option.some.injEq]
  ext x
  simp [capCalls]

theorem sharingType_of_settings {k : ShareKey} {v : CStr} (h : v ∈ shareSettings leaf k) :
    sharingType (some v) ≠ .unset := by
  have hset : ∀ admin, v ∈ leaf.toRoot.filterMap (shareSetting k admin) →
      sharingType (some v) ≠ .unset := by
    intro admin hv
    obtain ⟨f, -, hf⟩ := List.mem_filterMap.mp hv
    exact of_decide_eq_true (Option.filter_eq_some_iff.mp hf).2
  rw [shareSettings] at h
  split at h
  · exact hset _ h
  · exact hset _ h

theorem fallback_fallback (raw : ShareKey → Option CStr) :
    (fallback fun k => (fallback raw).get k) = fallback raw := by
  simp only [fallback, RedConfShare.get]
  cases raw .all <;> simp

theorem shareSettings_single {redpath : CStr} (k : ShareKey) :
    shareSettings (single redpath config) k =
      ((config.conftag.share.get k).filter fun v => sharingType (some v) ≠ .unset).toList := by
  have hroot : (single redpath config).toRoot = [single redpath config] := rfl
  have hstrong : shareSetting k true (single redpath config) = none := rfl
  have hweak : shareSetting k false (single redpath config) =
      (config.conftag.share.get k).filter fun v => sharingType (some v) ≠ .unset := rfl
  rw [shareSettings, hroot, List.filterMap_cons, hstrong, List.filterMap_nil, if_pos rfl,
    List.filterMap_cons, hweak]
  cases (config.conftag.share.get k).filter fun v => sharingType (some v) ≠ .unset <;> rfl

theorem keysAccepted_single {redpath : CStr} : keysAccepted (single redpath config) := by
  intro k
  have hstrong : shareSetting k true (single redpath config) = none := rfl
  have hroot : (single redpath config).toRoot = [single redpath config] := rfl
  rw [shareItems, hroot, Layered.walk, hstrong]
  cases shareSetting k false (single redpath config) <;> rfl

/-- **Sharings** are always delivered again. -/
theorem mixShares_single {redpath : CStr} (haccepted : keysAccepted leaf)
    (hconfig : config.conftag.share = fallback fun k => (shareSettings leaf k).head?) :
    (mixShares (single redpath config) recordShare []).result =
      (mixShares leaf recordShare []).result := by
  have hset : ∀ k v, config.conftag.share.get k = some v → sharingType (some v) ≠ .unset := by
    have hhead : ∀ k v, (shareSettings leaf k).head? = some v → sharingType (some v) ≠ .unset :=
      fun k v hv => sharingType_of_settings (List.mem_of_mem_head? hv)
    have hor : ∀ k v, ((shareSettings leaf k).head? <|> (shareSettings leaf .all).head?) = some v →
        sharingType (some v) ≠ .unset := by
      intro k v hv
      cases hk : (shareSettings leaf k).head? with
      | some u =>
        rw [hk] at hv
        cases hv
        exact hhead k v hk
      | none =>
        rw [hk] at hv
        exact hhead .all v hv
    intro k v hv
    rw [hconfig] at hv
    cases k with
    | all => exact hhead _ v hv
    | time => exact hhead _ v hv
    | user => exact hor _ v hv
    | cgroup => exact hor _ v hv
    | ipc => exact hor _ v hv
    | pid => exact hor _ v hv
    | net => exact hor _ v hv
  have hkeep : ∀ k, (shareSettings (single redpath config) k).head? =
      config.conftag.share.get k := by
    intro k
    rw [shareSettings_single]
    cases hv : config.conftag.share.get k with
    | none => rfl
    | some v =>
      simp [hset k v hv]
  rcases mixShares_cases (single redpath config) recordShare [] with ⟨-, hrun⟩ | ⟨hnot, -⟩
  · rcases mixShares_cases leaf recordShare [] with ⟨-, hrun'⟩ | ⟨hnot', -⟩
    · have hsame : (fallback fun k => (shareSettings (single redpath config) k).head?) =
          fallback fun k => (shareSettings leaf k).head? := by
        simp only [hkeep]
        rw [hconfig]
        exact fallback_fallback _
      rw [hrun, hrun', hsame]
    · exact absurd haccepted hnot'
  · exact absurd keysAccepted_single hnot

/-! ## Paths -/

theorem expandedText_length {node : ExpandCtx} {size : Nat} {path : CStr} {t : List UInt8}
    (h : expandedText env node depth size path = some t) : t.length ≤ size := by
  have hrun := expandedText_eq_some.mp h
  obtain ⟨t', -, hlen, hout⟩ := (defaultsExpand_text (Nat.zero_le size) (Nat.le_refl size)).mp hrun
  rw [List.nil_append] at hout
  rw [hout]
  simpa using hlen

theorem pathSettings_single {redpath : CStr} (getpath : RedConfig → Option CStr) :
    pathSettings getpath (pathTurns (single redpath config)) =
      (getpath config).toList.map fun path => (single redpath config, path) := by
  have hturns : pathTurns (single redpath config) =
      [(single redpath config, true), (single redpath config, false)] := rfl
  rw [hturns]
  cases h : getpath config <;> simp [pathSettings, single, Family.conf, h]

theorem mixPaths_single_none {redpath : CStr} {getpath : RedConfig → Option CStr}
    (hconfig : getpath config = none) (buffer : Buffer UInt8) :
    mixPaths env depth (single redpath config) (fun _ => getpath) recordPath [] buffer =
      .ret 0 [] := by
  have hsettings : pathSettings getpath (pathTurns (single redpath config)) = [] := by
    rw [pathSettings_single, hconfig]
    rfl
  have hempty : pathElements env depth (single redpath config) getpath = [] := by
    rw [pathElements, hsettings]
    rfl
  rw [@mixPaths_of_fit env depth (List CStr) (single redpath config) (fun _ => getpath) []
    (by rw [hsettings]; rfl) recordPath buffer, if_pos hempty]

section

variable {redpath value : CStr} {getpath : RedConfig → Option CStr} {t : List UInt8}

/-- The merged node has a path of which the text fits the buffer. -/
theorem pathsFit_single (hconfig : getpath config = some value) :
    pathsFit env depth (pathSettings getpath (pathTurns (single redpath config))) [] = true ↔
      ∃ t, expandedText env (single redpath config).node.ctx depth pathsBufferSize value =
        some t ∧ textFits pathsBufferSize [] t = true := by
  rw [pathSettings_single, hconfig]
  show pathsFit env depth [(single redpath config, value)] [] = true ↔ _
  rw [pathsFit_cons]
  exact ⟨fun ⟨t, ht, hroom, _⟩ => ⟨t, ht, hroom⟩, fun ⟨t, ht, hroom⟩ => ⟨t, ht, hroom, rfl⟩⟩

theorem pathElements_single (hconfig : getpath config = some value)
    (ht : expandedText env (single redpath config).node.ctx depth pathsBufferSize value = some t) :
    pathElements env depth (single redpath config) getpath = (fields colon t).eraseDups := by
  rw [pathElements, pathSettings_single, hconfig]
  show (([(single redpath config, value)] : List (Family × CStr)).flatMap _).eraseDups = _
  rw [List.flatMap_singleton, settingElements, ht]
  rfl

theorem mixPaths_single (hconfig : getpath config = some value)
    (ht : expandedText env (single redpath config).node.ctx depth pathsBufferSize value = some t)
    (hroom : textFits pathsBufferSize [] t = true) (buffer : Buffer UInt8) :
    mixPaths env depth (single redpath config) (fun _ => getpath) recordPath [] buffer =
      if (fields colon t).eraseDups = [] then .ret 0 []
      else .ret 0 [pathValue env depth (single redpath config) getpath] := by
  have hfits : pathsFit env depth (pathSettings getpath (pathTurns (single redpath config))) [] =
      true := (pathsFit_single env depth hconfig).mpr ⟨t, ht, hroom⟩
  rw [@mixPaths_of_fit env depth (List CStr) (single redpath config) (fun _ => getpath) []
    hfits recordPath buffer, pathElements_single env depth hconfig ht]
  split <;> rfl

end

/-- The elements that were found once fit the buffer, so a text with these elements does. -/
theorem textFits_again {getpath : RedConfig → Option CStr} {node : ExpandCtx} {t : List UInt8}
    (hfit : pathsFit env depth (pathSettings getpath (pathTurns leaf)) [] = true)
    (ht : expandedText env node depth pathsBufferSize (pathValue env depth leaf getpath) = some t)
    (hsame : (fields colon t).eraseDups = pathElements env depth leaf getpath) :
    textFits pathsBufferSize [] t = true := by
  have hlength := pathsFit_length env depth hfit (by decide)
  rw [pathElements_eq] at hlength
  have hle := expandedText_length env depth ht
  have hzero : pathOffset [] = 0 := rfl
  simp only [textFits, Bool.and_eq_true, decide_eq_true_eq]
  rw [Layered.foldl_addNew_nil, hsame, hzero, Nat.zero_add]
  exact ⟨⟨by decide, hle⟩, hlength⟩

/-- **A path** is delivered again exactly when it is kept. -/
theorem path_iff {redpath : CStr} {getpath : RedConfig → Option CStr}
    (hfit : pathsFit env depth (pathSettings getpath (pathTurns leaf)) [] = true)
    (hconfig : getpath config = mergedPath env depth getpath leaf)
    (hctx : (single redpath config).node.ctx = mergedCtx leaf) :
    (∀ buffer buffer' : Buffer UInt8,
      mixPaths env depth (single redpath config) (fun _ => getpath) recordPath [] buffer =
        mixPaths env depth leaf (fun _ => getpath) recordPath [] buffer') ↔
      PathKept env depth leaf getpath := by
  have hleaf := fun buffer : Buffer UInt8 =>
    @mixPaths_of_fit env depth (List CStr) leaf (fun _ => getpath) [] hfit recordPath buffer
  have hfields := isField_pathElements env depth leaf getpath
  rw [mergedPath] at hconfig
  by_cases hnone : pathElements env depth leaf getpath = []
  · rw [if_pos hnone] at hconfig
    refine ⟨fun _ hne => absurd hnone hne, fun _ buffer buffer' => ?_⟩
    rw [mixPaths_single_none env depth hconfig, hleaf, if_pos hnone]
  · rw [if_neg hnone] at hconfig
    have hleaf' : ∀ buffer : Buffer UInt8,
        mixPaths env depth leaf (fun _ => getpath) recordPath [] buffer =
          .ret 0 [pathValue env depth leaf getpath] := fun buffer => by
      rw [hleaf, if_neg hnone]
      rfl
    constructor
    · intro hsame _
      have hrun := (hsame (fun _ => 0) (fun _ => 0)).trans (hleaf' _)
      cases hfits : pathsFit env depth
          (pathSettings getpath (pathTurns (single redpath config))) [] with
      | false =>
        exact absurd hrun (@mixPaths_of_not_fit env depth (List CStr) (single redpath config)
          (fun _ => getpath) [] hfits recordPath _ _)
      | true =>
        obtain ⟨t, ht, hroom⟩ := (pathsFit_single env depth hconfig).mp hfits
        have helements := pathElements_single env depth hconfig ht
        rw [mixPaths_single env depth hconfig ht hroom] at hrun
        rw [hctx] at ht
        refine ⟨t, ht, ?_⟩
        split at hrun
        · cases hrun
        · have hvalue : pathValue env depth (single redpath config) getpath =
              pathValue env depth leaf getpath := by simpa using hrun
          have hjoined := congrArg (fields colon ·.bytes) hvalue
          rw [← helements]
          exact (Layered.fields_joined (isField_pathElements env depth
            (single redpath config) getpath)).symm.trans
              (hjoined.trans (Layered.fields_joined hfields))
    · intro hkept buffer buffer'
      obtain ⟨t, ht, hsame⟩ := hkept hnone
      have hroom := textFits_again env depth hfit ht hsame
      rw [← hctx] at ht
      have hvalue : pathValue env depth (single redpath config) getpath =
          pathValue env depth leaf getpath := by
        refine CStr.ext ?_
        show joined colon _ = joined colon _
        rw [pathElements_single env depth hconfig ht, hsame]
      rw [mixPaths_single env depth hconfig ht hroom, hleaf', hsame, if_neg hnone, hvalue]

theorem pathKept_of_noDollar {getpath : RedConfig → Option CStr}
    (hfit : pathsFit env depth (pathSettings getpath (pathTurns leaf)) [] = true)
    (hno : dollar ∉ (pathValue env depth leaf getpath).bytes) :
    PathKept env depth leaf getpath := by
  intro _
  have hlength := pathsFit_length env depth hfit (by decide)
  rw [pathElements_eq] at hlength
  refine ⟨(pathValue env depth leaf getpath).bytes, ?_, ?_⟩
  · rw [expandedText_eq_some]
    have hroom : ([] : List UInt8).length + (pathValue env depth leaf getpath).bytes.length ≤
        pathsBufferSize := by
      rw [List.length_nil, Nat.zero_add]
      exact Nat.le_of_lt hlength
    cases depth with
    | zero => exact expandFrom_noDollar _ _ hno none [] hroom
    | succ depth => exact expandFrom_noDollar _ _ hno none [] hroom
  · show (fields colon (joined colon _)).eraseDups = _
    rw [Layered.fields_joined (isField_pathElements env depth leaf getpath), pathElements,
      Layered.eraseDups_eraseDups]

/-! ## The merged node, merged again -/

theorem single_of_merged {pathBuffer ldpathBuffer : Buffer UInt8} {merged : RedNode}
    (h : getMergedNode expand env depth pathBuffer ldpathBuffer leaf = .ok merged) :
    ∃ config, Mergeable expand env depth leaf config ∧
      (single leaf.node.redpath (mergedConfigOf expand env depth leaf config)).node.ctx =
        mergedCtx leaf ∧
      ⟨merged, []⟩ = single leaf.node.redpath (mergedConfigOf expand env depth leaf config) := by
  cases hconf : leaf.node.config with
  | none =>
    rw [getMergedNode, hconf] at h
    cases h
  | some config =>
    obtain ⟨hmerge, rfl⟩ := (getMergedNode_ok expand env depth hconf).mp h
    refine ⟨config, hmerge, ?_, rfl⟩
    rw [mergedCtx, hconf]
    rfl

theorem kept_of_sameMerges {pathBuffer ldpathBuffer : Buffer UInt8} {merged : RedNode}
    (h : getMergedNode expand env depth pathBuffer ldpathBuffer leaf = .ok merged)
    (hsame : SameMerges expand env depth leaf ⟨merged, []⟩) : KeptWhen expand env depth leaf := by
  obtain ⟨config, hmerge, hctx, hsingle⟩ := single_of_merged expand env depth h
  rw [hsingle] at hsame
  exact ⟨(givenExports_iff expand hmerge.exports (mergedExports_eq expand leaf) hctx).mp
      hsame.exports,
    (givenVariables_iff expand hmerge.confvar rfl hctx).mp hsame.vars,
    (path_iff env depth hmerge.path rfl hctx).mp hsame.path,
    (path_iff env depth hmerge.ldpath rfl hctx).mp hsame.ldpath⟩

theorem sameMerges_of_kept {pathBuffer ldpathBuffer : Buffer UInt8} {merged : RedNode}
    (h : getMergedNode expand env depth pathBuffer ldpathBuffer leaf = .ok merged)
    (hkept : KeptWhen expand env depth leaf) :
    SameMerges expand env depth leaf ⟨merged, []⟩ := by
  obtain ⟨config, hmerge, hctx, hsingle⟩ := single_of_merged expand env depth h
  obtain ⟨hshares, hcaps⟩ := not_or.mp hmerge.conftag
  obtain ⟨ls, hls⟩ := Option.ne_none_iff_exists'.mp
    fun hnone => hcaps ((capsRefused_iff_links leaf).mpr hnone)
  rw [hsingle]
  refine ⟨(givenExports_iff expand hmerge.exports (mergedExports_eq expand leaf) hctx).mpr
      hkept.exports,
    (givenVariables_iff expand hmerge.confvar rfl hctx).mpr hkept.vars,
    (path_iff env depth hmerge.path rfl hctx).mpr hkept.path,
    (path_iff env depth hmerge.ldpath rfl hctx).mpr hkept.ldpath,
    givenCapabilities_single hls ?_, mixShares_single ?_ ?_⟩
  · show (mergedTag expand leaf).capabilities = _
    rw [mergedTag, hls]
    rfl
  · exact not_not.mp fun hnot => hshares ((sharesRefused_iff_keys leaf).mpr hnot)
  · show copyShare {} (mergedTag expand leaf).share = _
    simp only [copyShare, cpstrinn_none]
    rfl

/-- **The merged node** delivers what its chain does exactly when what was written for other nodes
means the same in the leaf, and what was expanded is not changed by another expansion. -/
theorem merged_sameMerges_iff {pathBuffer ldpathBuffer : Buffer UInt8} {merged : RedNode}
    (h : getMergedNode expand env depth pathBuffer ldpathBuffer leaf = .ok merged) :
    SameMerges expand env depth leaf ⟨merged, []⟩ ↔ KeptWhen expand env depth leaf :=
  ⟨kept_of_sameMerges expand env depth h, sameMerges_of_kept expand env depth h⟩

/-- Every export and every variable means the same in the merged node. -/
theorem kept_of_visible
    (hexports : ∀ f ∈ leaf.toRoot, ∀ admin, ∀ e ∈ (mixExp expand).visible leaf admin f,
      exportIn expand (mergedCtx leaf) e = exportIn expand f.node.ctx e)
    (hvars : ∀ f ∈ leaf.toRoot, ∀ admin, ∀ v ∈ mixVar.visible leaf admin f,
      v.value.bind (expand (mergedCtx leaf)) = v.value.bind (expand f.node.ctx)) :
    ExportsKept expand leaf ∧ VariablesKept expand leaf := by
  have hread : ∀ k f e, ((mixExp expand).deciding leaf k).head? = some (f, e) →
      exportIn expand (mergedCtx leaf) e = exportIn expand f.node.ctx e := by
    intro k f e hk
    obtain ⟨admin, hroot, hvisible⟩ := Mix.visible_of_deciding _ hk
    exact hexports f hroot admin e hvisible
  refine ⟨fun x => ⟨?_, ?_⟩, fun k f v hk => ?_⟩
  · rintro ⟨k, f, e, hk, hx⟩
    exact ⟨k, f, e, hk, (hread k f e hk).symm.trans hx⟩
  · rintro ⟨k, f, e, hk, hx⟩
    exact ⟨k, f, e, hk, (hread k f e hk).trans hx⟩
  · obtain ⟨admin, hroot, hvisible⟩ := Mix.visible_of_deciding _ hk
    exact hvars f hroot admin v hvisible

end

/-! ## A variable of the parent -/

def homeNode (redpath : String) (confvar : List RedConfVar) : RedNode where
  config := some {
    headers := ⟨CStr.lit "node", some (CStr.lit "name"), some (CStr.lit "info")⟩
    confvar := confvar
    exports := [{ mount := CStr.lit "/data", mode := .exportPublic }] }
  redpath := CStr.lit redpath

/-- The leaf names its home after the alias of the node, which is that of the parent too. -/
def aliasLeaf : Family where
  node := homeNode "/root/leaf" []
  parents := [homeNode "/root" [{ key := CStr.lit "HOME", value := CStr.lit "/home/$NODE_ALIAS" }]]

/-- The home of the parent is in its own directory. -/
def pathLeafHome : Family where
  node := homeNode "/root/leaf" []
  parents := [homeNode "/root" [{ key := CStr.lit "HOME", value := CStr.lit "$NODE_PATH/home" }]]

theorem mergeable_aliasLeaf : ∃ config, aliasLeaf.node.config = some config ∧
    Mergeable silentExpand silentEnv 1 aliasLeaf config :=
  ⟨_, rfl, by decide, by rw [capsRefused_iff_links]; decide, by decide, by decide, by decide,
    by decide⟩

theorem mergeable_pathLeafHome : ∃ config, pathLeafHome.node.config = some config ∧
    Mergeable silentExpand silentEnv 1 pathLeafHome config :=
  ⟨_, rfl, by decide, by rw [capsRefused_iff_links]; decide, by decide, by decide, by decide,
    by decide⟩

theorem merged_sameMerges_aliasLeaf : ∃ merged,
    getMergedNode silentExpand silentEnv 1 (fun _ => 0) (fun _ => 0) aliasLeaf = .ok merged ∧
      SameMerges silentExpand silentEnv 1 aliasLeaf ⟨merged, []⟩ := by
  obtain ⟨config, hconf, hmerge⟩ := mergeable_aliasLeaf
  have hmerged := (@getMergedNode_ok silentExpand silentEnv 1 (fun _ => 0) (fun _ => 0) _ config
    hconf _).mpr ⟨hmerge, rfl⟩
  obtain ⟨hexports, hvars⟩ := @kept_of_visible silentExpand aliasLeaf (by decide) (by decide)
  refine ⟨_, hmerged, (merged_sameMerges_iff silentExpand silentEnv 1 hmerged).mpr
    ⟨hexports, hvars, ?_, ?_⟩⟩
  · exact fun hne => absurd (by decide) hne
  · exact fun hne => absurd (by decide) hne

/-- The variable is written with the string of the parent, and expanded in the leaf. -/
theorem home_moves : ∃ merged,
    getMergedNode silentExpand silentEnv 1 (fun _ => 0) (fun _ => 0) pathLeafHome = .ok merged ∧
      ¬ SameMerges silentExpand silentEnv 1 pathLeafHome ⟨merged, []⟩ := by
  obtain ⟨config, hconf, hmerge⟩ := mergeable_pathLeafHome
  have hmerged := (@getMergedNode_ok silentExpand silentEnv 1 (fun _ => 0) (fun _ => 0) _ config
    hconf _).mpr ⟨hmerge, rfl⟩
  refine ⟨_, hmerged, fun hsame => ?_⟩
  have hkept := (kept_of_sameMerges silentExpand silentEnv 1 hmerged hsame).vars
  have hvalue := hkept (some (CStr.lit "HOME").folded) ⟨homeNode "/root"
    [{ key := CStr.lit "HOME", value := CStr.lit "$NODE_PATH/home" }], []⟩
    { key := CStr.lit "HOME", value := CStr.lit "$NODE_PATH/home" } (by decide)
  exact absurd hvalue (by decide)

end Conf
end RedPak
