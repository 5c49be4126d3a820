import RedPak.Factory.Found

/-!
# Factory.FoundCall

What `rednode_factory_create_node` creates is found by `RedNodesScan`.

* `requireSystem_cases`: the node above exists in legacy mode, or it is created.
* `created_found`: when the scan finds the node with its configs, and in legacy mode its parent.
-/

namespace RedPak
namespace Factory

open Conf Node Layered.Action
open Layered (Buffer fields)
open Layered.Buffer

section

variable {ω φ : Type} {os : FactoryOs ω} {real : CStr → φ} {m m' : Machine ω} {w w' : ω}

/-! ## Before the node itself -/

/-- The alias that is given, or the name of the directory. -/
def aliasOf (fab : RednodeFactory) (given : Option CStr) : CStr :=
  match given with
  | some nodeAlias => if nodeAlias.bytes ≠ [] then nodeAlias else nodeName fab
  | none => nodeName fab

theorem localias_run (F : FileSystem os real) {given : Option CStr} {result : Except Int CStr}
    (h : localias os m.fab given m = .ok result m') :
    Failing result ∧ ∀ nodeAlias, result = .ok nodeAlias → nodeAlias = aliasOf m.fab given ∧
      see os.toFileOs m'.os = see os.toFileOs m.os ∧ m'.fab = m.fab := by
  have hdeduced : ∀ {result : Except Int CStr} {m' : Machine ω},
      localias.deduced os m.fab m = .ok result m' →
      Failing result ∧ ∀ nodeAlias, result = .ok nodeAlias → nodeAlias = nodeName m.fab ∧
        see os.toFileOs m'.os = see os.toFileOs m.os ∧ m'.fab = m.fab := by
    intro result m' h
    unfold localias.deduced at h
    split at h
    · cases h
      exact ⟨(by decide : failed .defaultAliasEmpty ≠ rednodeFactoryOk), nofun⟩
    · obtain ⟨there, m₁, hmalloc, h⟩ := bind_eq_ok.mp h
      cases hmalloc
      split at h
      · cases h
        refine ⟨trivial, fun nodeAlias heq => ?_⟩
        cases heq
        exact ⟨rfl, F.malloc m.os, rfl⟩
      · cases h
        exact ⟨(by decide : failed .allocation ≠ rednodeFactoryOk), nofun⟩
  cases given with
  | none => exact hdeduced h
  | some given =>
    have hrun : localias os m.fab (some given) m =
        (if given.bytes ≠ [] then pure (.ok given) else localias.deduced os m.fab :
          FactoryM ω (Except Int CStr)) m := rfl
    have halias : aliasOf m.fab (some given) =
      if given.bytes ≠ [] then given else nodeName m.fab := rfl
    rw [hrun] at h
    rw [halias]
    by_cases hne : given.bytes ≠ []
    · rw [if_pos hne] at h ⊢
      cases h
      exact ⟨trivial, fun nodeAlias heq => by cases heq; exact ⟨rfl, rfl, rfl⟩⟩
    · rw [if_neg hne] at h ⊢
      exact hdeduced h

/-- In legacy mode the node above is there, or it is created. -/
theorem requireSystem_cases (hready : Ready m.fab) {mode : RednodeFactoryMode}
    {templatedir : CStr} (h : requireSystem os mode templatedir m = .ok rednodeFactoryOk m') :
    (mode ≠ .legacy ∧ m' = m) ∨
    (mode = .legacy ∧ m.fab.rootLength ≤ nodeOffset m.fab ∧
      ((isRednode os m.os m.fab.path (nodeOffset m.fab - 1) = true ∧ m' = m) ∨
        (isRednode os m.os m.fab.path (nodeOffset m.fab - 1) = false ∧
          ∃ m₁, NodeCreated os (systemParam templatedir) false (systemMachine os m) m₁ ∧
            m' = { m₁ with fab := m.fab }))) := by
  have hrun : requireSystem os mode templatedir m =
      (if mode ≠ .legacy then pure rednodeFactoryOk
      else if nodeOffset m.fab < m.fab.rootLength then pure (failed .atRoot)
      else if isRednode os m.os m.fab.path (nodeOffset m.fab - 1) then pure rednodeFactoryOk
      else createRootNode os (nodeOffset m.fab) templatedir : FactoryM ω Int) m := rfl
  rw [hrun] at h
  split at h
  · rename_i hmode
    cases h
    exact .inl ⟨hmode, rfl⟩
  · rename_i hmode
    have hmode := not_not.mp hmode
    split at h
    · cases h
    · rename_i hoff
      have hle := Nat.not_lt.mp hoff
      split at h
      · rename_i hthere
        cases h
        exact .inr ⟨hmode, hle, .inl ⟨hthere, rfl⟩⟩
      · rename_i hnone
        exact .inr ⟨hmode, hle, .inr ⟨by simpa using hnone, (createRootNode_ok_iff templatedir
          (ready_sysfab hready hle)).mp h⟩⟩

/-- The state in which the node itself is created. -/
def NodeDue (os : FactoryOs ω) (params : Option RednodeFactoryParam) (mode : RednodeFactoryMode)
    (m m₁ : Machine ω) : Prop :=
  ∃ m₀, localias os m.fab (params.getD {}).nodeAlias m =
      .ok (.ok (aliasOf m.fab (params.getD {}).nodeAlias)) m₀ ∧
    requireSystem os mode ((params.getD {}).templatedir.getD (getTemplateDir os)) m₀ =
      .ok rednodeFactoryOk m₁

/-- The call is the creation of the node itself, once that is due. -/
theorem createCall_ok (F : FileSystem os real) (hready : Ready m.fab)
    {params : Option RednodeFactoryParam} {mode : RednodeFactoryMode}
    (h : rednodeFactoryCreateNode os params false mode m = .ok rednodeFactoryOk m') :
    ∃ m₁, NodeDue os params mode m m₁ ∧ m₁.fab = m.fab ∧
      NodeCreated os (nodeParam os params mode (aliasOf m.fab (params.getD {}).nodeAlias)) false
        m₁ m' := by
  rw [createCall_run params false mode (Nat.ne_of_gt hready.root_pos)] at h
  cases hlocalias : localias os m.fab (params.getD {}).nodeAlias m with
  | error fault m₀ => rw [hlocalias] at h; cases h
  | ok result m₀ =>
    rw [hlocalias] at h
    cases result with
    | error e =>
      have hne := (localias_run F hlocalias).1
      cases h
      exact absurd rfl hne
    | ok nodeAlias =>
      obtain ⟨rfl, -, hfab⟩ := (localias_run F hlocalias).2 nodeAlias rfl
      obtain ⟨m₁, hsystem, hnode⟩ := andThen_ok_iff.mp h
      have hfab₁ : m₁.fab = m₀.fab := (wp_ok (requireSystem_spec storeKeeps_true
        (by rw [hfab]; exact hready) trivial mode _) hsystem).2
      have hready₁ : Ready m₁.fab := by rw [hfab₁, hfab]; exact hready
      exact ⟨m₁, ⟨m₀, hlocalias, hsystem⟩, hfab₁.trans hfab,
        (createNode_ok_iff hready₁ _ _).mp hnode⟩

/-! ## What is found -/

/-- The paths above a directory that the scan may try. -/
def Above (path : CStr) : Set CStr :=
  {p | ∃ v, p.bytes = v ++ [slash] ∧ 1 < v.length ∧ p.bytes <+: path.bytes}

/-- The directory that directly contains the node is the first parent. -/
def HasParent (fab : RednodeFactory) (family : Family) : Prop :=
  ∃ parent rest, family.parents = parent :: rest ∧ parent.redpath = parentPath fab ∧
    ∃ name, designated [] (nodePath fab).bytes = designated [] (parentPath fab).bytes ++ [name]

/-- The node that the scan is to find: copies of the templates in the directory of the node, and in
legacy mode a parent. -/
structure IsNode (os : FactoryOs ω) (params : Option RednodeFactoryParam)
    (mode : RednodeFactoryMode) (fab : RednodeFactory) (w : ω) (family : Family) : Prop where
  redpath : family.node.redpath = nodePath fab
  normal : ∃ config, family.node.config = some config ∧ Copied os w
    (nodeParam os params mode (aliasOf fab (params.getD {}).nodeAlias)) false config
  admin : ∃ config, family.node.confadmin = some config ∧ Copied os w
    (nodeParam os params mode (aliasOf fab (params.getD {}).nodeAlias)) true config
  parent : mode = .legacy → HasParent fab family

/-- `RedNodesScan` of the directory of the node, after the call that created it, finds the node. -/
def Found (os : FactoryOs ω) (params : Option RednodeFactoryParam) (mode : RednodeFactoryMode)
    (m m' : Machine ω) : Prop :=
  ∃ m₁ family, NodeDue os params mode m m₁ ∧
    redNodesScan (fun path => redNodesLoad os.toFileOs m'.os path true) (nodePath m.fab) =
      some (some family) ∧
    IsNode os params mode m.fab m₁.os family

/-! ## When it is found -/

/-- The loader looks for the files of a node where the factory puts them, and for those of the
directories above elsewhere: no variable sets another sub-path, and no link leads from one file of a
node to another one. -/
structure Linked (os : FactoryOs ω) (real : CStr → φ) (fab : RednodeFactory) (path : CStr)
    (above : Set CStr) : Prop where
  sought : Sought os real fab path
  own : OwnStatus os real fab
  apart : ∀ p ∈ above, Apart os real fab p

structure Links (os : FactoryOs ω) (real : CStr → φ) (mode : RednodeFactoryMode)
    (fab : RednodeFactory) : Prop where
  node : Linked os real fab (nodePath fab) (Above (nodePath fab))
  parent : mode = .legacy → Linked os real (sysfab os fab (nodeOffset fab)) (parentPath fab)
    (Above (nodePath fab))
  clear : mode = .legacy → ClearOf real (nodePlaces os fab) (parentPath fab)

/-- Where the factory looks for the status of the directory above. -/
def parentStatus (os : FactoryOs ω) (fab : RednodeFactory) : CStr :=
  (sysfab os fab (nodeOffset fab)).place (getStatusSubpath os)

/-- The directory above is tried, it contains the node, and it is a rednode if it has a status. If
not, its status is written to a regular file, and no directory is made, on the way to the files of
the system node, that is taken for the config of a rednode above. -/
structure ParentWhen (os : FactoryOs ω) (real : CStr → φ) (m : Machine ω) : Prop where
  deep : 2 < nodeOffset m.fab
  named : Plain (nodeName m.fab).bytes
  regular : os.access m.os (parentStatus os m.fab) = true →
    os.stat m.os (parentStatus os m.fab) = some .regular
  status : os.access m.os (parentStatus os m.fab) = false →
    os.stat m.os (joinPath (parentPath m.fab) rednodeStatus) ≠ some .other
  free : os.access m.os (parentStatus os m.fab) = false → ∀ p ∈ Above (nodePath m.fab),
    NameFree os real (nodeWays os (sysfab os m.fab (nodeOffset m.fab))) m.os p

/-- The node is not `/`, the loader has room for its paths, its status is written to a regular file,
and no directory on the way to its files is taken for the config of a rednode above. -/
structure FoundWhen (os : FactoryOs ω) (real : CStr → φ) (mode : RednodeFactoryMode)
    (m : Machine ω) : Prop where
  notRoot : 1 < m.fab.nodeLength
  fit : (joinPath (nodePath m.fab) rednodeAdmin).bytes.length < redMaxpathlen
  status : os.stat m.os (joinPath (nodePath m.fab) rednodeStatus) ≠ some .other
  free : ∀ p ∈ Above (nodePath m.fab), NameFree os real (nodeWays os m.fab) m.os p
  parent : mode = .legacy → ParentWhen os real m

/-! ## The directories above -/

variable {path p : CStr}

theorem ne_nil_of_above (hp : p ∈ Above path) : p.bytes ≠ [] := by
  obtain ⟨v, hbytes, -, -⟩ := hp
  rw [hbytes]
  simp

theorem fit_of_above (hp : p ∈ Above path)
    (hfit : (joinPath path rednodeAdmin).bytes.length < redMaxpathlen) :
    (joinPath p rednodeAdmin).bytes.length < redMaxpathlen ∧
      (joinPath p rednodeStatus).bytes.length < redMaxpathlen := by
  obtain ⟨v, -, -, hbegins⟩ := hp
  have hlen := hbegins.length_le
  have hlenA : rednodeAdmin.bytes.length = 21 := by decide +kernel
  have hlenS : rednodeStatus.bytes.length = 13 := by decide +kernel
  rw [length_joinPath, hlenA] at hfit ⊢
  rw [length_joinPath, hlenS]
  omega

theorem directory_of_above (F : FileSystem os real) (hp : p ∈ Above path) {sub : CStr}
    (hthere : os.stat w (joinPath path sub) ≠ none) : os.stat w p = some .directory := by
  obtain ⟨v, hbytes, -, rest, hpath⟩ := hp
  rw [hbytes] at hpath
  have hfreeV : (0 : UInt8) ∉ v := fun h => p.nulFree (by rw [hbytes]; simp [h])
  have hfreeR : (0 : UInt8) ∉ rest ++ slash :: sub.bytes := fun h =>
    (joinPath path sub).nulFree (by
      show (0 : UInt8) ∈ path.bytes ++ [slash] ++ sub.bytes
      rw [← hpath]
      simp only [List.append_assoc, List.mem_append, List.mem_cons, List.not_mem_nil,
        or_false] at h ⊢
      tauto)
  have hjoin : joinPath path sub = joinPath ⟨v, hfreeV⟩ ⟨_, hfreeR⟩ := by
    refine CStr.ext ?_
    show path.bytes ++ [slash] ++ sub.bytes = v ++ [slash] ++ (rest ++ slash :: sub.bytes)
    rw [← hpath]
    simp
  have hslashed : Node.slashed ⟨v, hfreeV⟩ = p := CStr.ext hbytes.symm
  rw [hjoin] at hthere
  rw [← hslashed]
  exact F.inside w _ _ hthere

theorem Cut.above {fab : RednodeFactory} {v u : List UInt8} (h : Cut fab v u)
    (hdeep : 2 < nodeOffset fab) : parentPath fab ∈ Above (nodePath fab) := by
  have hlen := congrArg List.length h.parent
  rw [length_slice, List.length_append, List.length_singleton, Nat.sub_zero] at hlen
  refine ⟨v, h.bytes_parent, by omega, ?_⟩
  rw [h.bytes_parent, h.path]
  exact ⟨u, by simp⟩

/-! ## What their paths lead back from -/

theorem Cut.starts_above {fab : RednodeFactory} {v u : List UInt8} (h : Cut fab v u)
    (hp : p ∈ Above (nodePath fab)) : dottedStarts p ⊆ dottedStarts (parentPath fab) := by
  obtain ⟨t, hbytes, -, hbegins⟩ := hp
  refine dottedStarts_subset (by rw [hbytes, List.getLast?_concat]) ?_
  rw [h.bytes_parent]
  rw [h.path, hbytes, List.append_cons v slash u] at hbegins
  rw [hbytes]
  rcases List.prefix_or_prefix_of_prefix hbegins (List.prefix_append _ _) with hinner | houter
  · exact hinner
  -- the name of the node has no slash
  rcases List.prefix_concat_iff.mp houter with heq | ⟨rest, hrest⟩
  · rw [heq]
  · rw [← hrest, List.append_assoc, List.prefix_append_right_inj] at hbegins
    exact absurd (hbegins.subset (by simp)) h.slashFree

theorem Located.starts_node {fab : RednodeFactory} (h : Located fab) (hlt : 1 < fab.nodeLength) :
    dottedStarts (nodePath fab) ⊆ dottedStarts (nodeText fab) := by
  rintro a ⟨hdots, hbegins⟩
  rw [← h.slice_eq hlt, ← h.text.bytes_nodeText] at hbegins
  exact mem_dottedStarts.mpr ⟨hdots, .inr hbegins⟩

theorem Located.starts_parent {fab : RednodeFactory} {v u : List UInt8} (h : Located fab)
    (hlt : 1 < fab.nodeLength) (hcut : Cut fab v u) :
    dottedStarts (parentPath fab) ⊆ dottedStarts (nodeText fab) := by
  refine dottedStarts_subset (by rw [hcut.bytes_parent, List.getLast?_concat]) ?_
  rw [h.text.bytes_nodeText, h.slice_eq hlt, hcut.bytes_parent, hcut.path]
  exact ⟨u ++ [slash], by simp⟩

/-- A node with a name leads back from what its parent does. -/
theorem Cut.starts_node {fab : RednodeFactory} {v u : List UInt8} (h : Cut fab v u)
    (hplain : Plain (nodeName fab).bytes) :
    dottedStarts (nodePath fab) ⊆ dottedStarts (parentPath fab) := by
  have hfreeV : (0 : UInt8) ∉ v := fun hmem => (nodePath fab).nulFree (by rw [h.path]; simp [hmem])
  have hfreeU : (0 : UInt8) ∉ u := fun hmem => (nodePath fab).nulFree (by rw [h.path]; simp [hmem])
  rw [h.name] at hplain
  have hjoin : nodePath fab = joinPath ⟨v, hfreeV⟩ ⟨u, hfreeU⟩ := CStr.ext (by
    rw [h.path]
    simp [joinPath, CStr.append])
  intro a ha
  rw [hjoin] at ha
  have hlast : PlainPath ⟨u, hfreeU⟩ := by
    show ∀ name ∈ fields slash u, Plain name
    rw [hplain.isField.fields_eq]
    exact fun name hname => List.mem_singleton.mp hname ▸ hplain
  obtain ⟨hdots, hbegins⟩ := dottedStarts_joinPath ⟨v, hfreeV⟩ hlast ha
  exact mem_dottedStarts.mpr ⟨hdots, .inr (by rw [h.bytes_parent]; exact hbegins)⟩

theorem nodeText_sysfab (fab : RednodeFactory) :
    nodeText (sysfab os fab (nodeOffset fab)) = parentPath fab :=
  congrArg CStr.ofBytes (slice_sysfab fab _)

/-! ## The call -/

variable {params : Option RednodeFactoryParam} {mode : RednodeFactoryMode}

theorem Remains.trans {w'' : ω} (h : Remains os real p w w') (h' : Remains os real p w' w'') :
    Remains os real p w w'' :=
  ⟨h'.loads, fun names hfree => h'.free names (h.free names hfree)⟩

/-- The system node, which is created in a state that shows what the first one does. -/
structure SystemCreated (os : FactoryOs ω) (fab : RednodeFactory) (w : ω) (m₀ m₁ : Machine ω)
    (params : NodeParam) : Prop where
  seen : see os.toFileOs m₀.os = see os.toFileOs w
  fab_eq : m₀.fab = sysfab os fab (nodeOffset fab)
  root_le : fab.rootLength ≤ nodeOffset fab
  created : NodeCreated os params false m₀ m₁

/-- Before the node is due, nothing happens but that in legacy mode the system node may be
created. -/
theorem NodeDue.cases (F : FileSystem os real) (hloc : Located m.fab) {m₁ : Machine ω}
    (h : NodeDue os params mode m m₁) :
    (see os.toFileOs m₁.os = see os.toFileOs m.os ∧
      (mode = .legacy → os.access m₁.os (parentStatus os m.fab) = true)) ∨
    (mode = .legacy ∧ os.access m.os (parentStatus os m.fab) = false ∧
      ∃ m₀ m₂ params, SystemCreated os m.fab m.os m₀ m₂ params ∧ m₁.os = m₂.os) := by
  obtain ⟨m₀, hlocalias, hsystem⟩ := h
  obtain ⟨-, hsee, hfab⟩ := (localias_run F hlocalias).2 _ rfl
  have hthere : 0 < nodeOffset m.fab → isRednode os m₀.os m₀.fab.path (nodeOffset m₀.fab - 1) =
      os.access m₀.os (parentStatus os m.fab) := fun hpos => by
    rw [hfab]
    exact isRednode_eq hpos m₀.os
  have hready : Ready m₀.fab := by rw [hfab]; exact hloc.ready
  rcases requireSystem_cases hready hsystem with
    ⟨hmode, rfl⟩ | ⟨hmode, hle, ⟨hno, rfl⟩ | ⟨hno, m₂, hcreated, rfl⟩⟩
  · exact .inl ⟨hsee, fun h => absurd h hmode⟩
  · have hpos := Nat.lt_of_lt_of_le hready.root_pos hle
    rw [hfab] at hpos
    rw [hthere hpos] at hno
    exact .inl ⟨hsee, fun _ => hno⟩
  · have hpos := Nat.lt_of_lt_of_le hready.root_pos hle
    rw [hfab] at hpos hle
    rw [hthere hpos, FileOs.access, show os.stat m₀.os _ = os.stat m.os _
      from congrArg Seen.kind (congrFun hsee _)] at hno
    refine .inr ⟨hmode, hno, systemMachine os m₀, m₂, _, ⟨hsee, ?_, hle, hcreated⟩, rfl⟩
    rw [systemMachine, hfab]

/-- What holds above the node when it is due: rednodes load, and in legacy mode the parent is
one. -/
structure DueAbove (os : FactoryOs ω) (real : CStr → φ) (mode : RednodeFactoryMode)
    (fab : RednodeFactory) (w : ω) : Prop where
  loads : ∀ p ∈ Above (nodePath fab), LoadsIfRednode os w p
  free : ∀ p ∈ Above (nodePath fab), NameFree os real (nodeWays os fab) w p
  parent : mode = .legacy → os.stat w (joinPath (parentPath fab) rednodeStatus) = some .regular

variable {m₀ m₂ : Machine ω} {node : NodeParam}

theorem SystemCreated.ready (hloc : Located m.fab)
    (h : SystemCreated os m.fab w m₀ m₂ node) : Ready m₀.fab := by
  rw [h.fab_eq]
  exact ready_sysfab hloc.ready h.root_le

theorem SystemCreated.text (hloc : Located m.fab) (hnotRoot : 1 < m.fab.nodeLength)
    (h : SystemCreated os m.fab w m₀ m₂ node) : Textual m₀.fab := by
  obtain ⟨v, u, hcut⟩ := hloc.cut hnotRoot
  rw [h.fab_eq]
  exact hcut.textual_sysfab

/-- The status of the system node is a regular file, unless it is written to something else. -/
theorem SystemCreated.regular_iff (F : FileSystem os real) (hloc : Located m.fab)
    (hnotRoot : 1 < m.fab.nodeLength) (hlinks : Links os real mode m.fab) (hmode : mode = .legacy)
    (h : SystemCreated os m.fab w m₀ m₂ node) :
    os.stat m₂.os (m₀.fab.place (getStatusSubpath os)) = some .regular ↔
      os.stat w (joinPath (parentPath m.fab) rednodeStatus) ≠ some .other := by
  have hlinked := hlinks.parent hmode
  have hname : rednodeStatus ∈ nodeFileNames := by simp [nodeFileNames]
  rw [h.created.regular_iff F (h.ready hloc) (h.text hloc hnotRoot)
    (by rw [h.fab_eq]; exact hlinked.own) (namesFile_nodeFile (parentPath m.fab) hname)
    (by rw [h.fab_eq, nodeText_sysfab]; exact dottedStarts_nodeFile _ hname)
    (by rw [h.fab_eq]; exact hlinked.sought.status),
    show os.stat m₀.os _ = os.stat w _ from congrArg Seen.kind (congrFun h.seen _)]

theorem SystemCreated.above (F : FileSystem os real) (hloc : Located m.fab)
    (hlinks : Links os real mode m.fab) (hwhen : FoundWhen os real mode m) (hmode : mode = .legacy)
    (hpresent : ∀ p ∈ Above (nodePath m.fab), LoadsIfRednode os m.os p)
    (hnone : os.access m.os (parentStatus os m.fab) = false)
    (h : SystemCreated os m.fab m.os m₀ m₂ node) : DueAbove os real mode m.fab m₂.os := by
  obtain ⟨v, u, hcut⟩ := hloc.cut hwhen.notRoot
  have hparent := hwhen.parent hmode
  have hlinked := hlinks.parent hmode
  have hready := h.ready hloc
  have htext := h.text hloc hwhen.notRoot
  have hown : OwnStatus os real m₀.fab := by rw [h.fab_eq]; exact hlinked.own
  have hregular := (h.regular_iff F hloc hwhen.notRoot hlinks hmode).mpr (hparent.status hnone)
  have hstarts : ∀ p, dottedStarts p ⊆ dottedStarts (parentPath m.fab) →
      dottedStarts p ⊆ dottedStarts (nodeText m₀.fab) := fun p hp => by
    rw [h.fab_eq, nodeText_sysfab]
    exact hp
  have hremains : ∀ p ∈ Above (nodePath m.fab), Remains os real p m.os m₂.os := by
    intro p hp
    have hne := ne_nil_of_above hp
    have hbefore := remains_of_see h.seen F hne (hpresent p hp)
    exact hbefore.trans (h.created.remains F hready htext hown hregular hne
      (fit_of_above hp hwhen.fit).1 (by rw [h.fab_eq]; exact hlinked.apart p hp)
      (hstarts p (hcut.starts_above hp))
      (by rw [h.fab_eq]; exact hbefore.free _ (hparent.free hnone p hp)) hbefore.loads)
  have habove := hcut.above hparent.deep
  obtain ⟨_, _, _, -, -, hload⟩ := h.created.loads F hready htext hown hregular
    (by rw [h.fab_eq]; exact hlinked.sought) (hstarts _ subset_rfl) (ne_nil_of_above habove)
    (fit_of_above habove hwhen.fit).1
  exact ⟨fun p hp => (hremains p hp).loads, fun p hp => (hremains p hp).free _ (hwhen.free p hp),
    fun _ => ((redNodesLoad_ok os.toFileOs m₂.os).mp hload).regular⟩

/-- The status that the factory finds above is the one that the loader looks for. -/
theorem stat_parentStatus (F : FileSystem os real) (hloc : Located m.fab)
    (hnotRoot : 1 < m.fab.nodeLength) (hfile : NamesFile (m.fab.place (getStatusSubpath os)))
    (hsought : Sought os real (sysfab os m.fab (nodeOffset m.fab)) (parentPath m.fab))
    (hthere : os.access w (parentStatus os m.fab) = true) :
    os.stat w (joinPath (parentPath m.fab) rednodeStatus) =
      os.stat w (parentStatus os m.fab) := by
  obtain ⟨v, u, hcut⟩ := hloc.cut hnotRoot
  have hstat := Option.isSome_iff_ne_none.mp hthere
  have hname : rednodeStatus ∈ nodeFileNames := by simp [nodeFileNames]
  have hground : Grounded os.toFileOs w (parentPath m.fab) := by
    refine (F.grounded hstat).mono (dottedStarts_subset ?_ ?_)
    · rw [hcut.bytes_parent, List.getLast?_concat]
    · rw [parentStatus, hcut.bytes_place, hcut.bytes_parent]
      exact List.prefix_append _ _
  have hfileS : NamesFile (parentStatus os m.fab) := by
    rw [hloc.place_eq hnotRoot] at hfile
    exact (namesFile_of_append (hcut.bytes_place _)).mpr
      ((@namesFile_of_append (nodePath m.fab).bytes _ _ rfl).mp hfile)
  exact congrArg Seen.kind
    (F.same (namesFile_nodeFile (parentPath m.fab) hname) hfileS
      (.inr (hground.mono (dottedStarts_nodeFile _ hname))) (.inl hstat) hsought.status)

theorem NodeDue.above (F : FileSystem os real) (hloc : Located m.fab)
    (hlinks : Links os real mode m.fab) (hwhen : FoundWhen os real mode m)
    (hpresent : ∀ p ∈ Above (nodePath m.fab), LoadsIfRednode os m.os p)
    (hfile : NamesFile (m.fab.place (getStatusSubpath os))) {m₁ : Machine ω}
    (h : NodeDue os params mode m m₁) : DueAbove os real mode m.fab m₁.os := by
  rcases h.cases F hloc with
    ⟨hsee, hthere⟩ | ⟨hmode, hnone, m₀, m₂, node, hsystem, hos⟩
  · have hremains : ∀ p ∈ Above (nodePath m.fab), Remains os real p m.os m₁.os := fun p hp =>
      remains_of_see hsee F (ne_nil_of_above hp) (hpresent p hp)
    refine ⟨fun p hp => (hremains p hp).loads,
      fun p hp => (hremains p hp).free _ (hwhen.free p hp), fun hmode => ?_⟩
    have hstat : os.stat m₁.os (parentStatus os m.fab) = os.stat m.os (parentStatus os m.fab) :=
      congrArg Seen.kind (congrFun hsee _)
    have hthere := hthere hmode
    rw [stat_parentStatus F hloc hwhen.notRoot hfile (hlinks.parent hmode).sought hthere, hstat]
    rw [FileOs.access, hstat] at hthere
    exact (hwhen.parent hmode).regular hthere
  · rw [hos]
    exact hsystem.above F hloc hlinks hwhen hmode hpresent hnone

/-- `rednode_factory_set_root` and `rednode_factory_set_node` have accepted the two paths. -/
def Accepted (root node : CStr) (fab : RednodeFactory) : Prop :=
  ∃ (fab₀ : RednodeFactory) (m₁ m₂ : Machine Unit),
    rednodeFactorySetRoot root ⟨fab₀, (), []⟩ = .ok rednodeFactoryOk m₁ ∧
    rednodeFactorySetNode node m₁ = .ok rednodeFactoryOk m₂ ∧ m₂.fab = fab

theorem Accepted.located {root node : CStr} {fab : RednodeFactory} (h : Accepted root node fab) :
    Located fab := by
  obtain ⟨fab₀, m₁, m₂, hroot, hnode, rfl⟩ := h
  have hset := wp_ok (setRootLen_isSet root.bytes ⟨fab₀, (), []⟩) hroot
  rw [if_pos rfl] at hset
  obtain ⟨hset, hstored⟩ := hset
  have hm₁ : m₁ = ⟨m₁.fab, (), []⟩ := by rw [show [] = m₁.stored from hstored.symm]
  rw [hm₁] at hnode
  have hheld : Holds m₁.fab (some ⟨stripRoot root.bytes, []⟩) := hset
  have hsettles := wp_ok (setNodeLen_settles hheld node.bytes ()) hnode
  have hholds : IsSet m₂.fab ⟨stripRoot root.bytes, stripNode node.bytes⟩ := hsettles.1
  exact hholds.located

/-- The status of the node is a regular file, unless it is written to something else. -/
theorem NodeCreated.regular_iff_node (F : FileSystem os real) (hloc : Located m.fab)
    (hnotRoot : 1 < m.fab.nodeLength) (hlinks : Links os real mode m.fab) {m₁ : Machine ω}
    (hfab : m₁.fab = m.fab) (h : NodeCreated os node false m₁ m') :
    os.stat m'.os (m.fab.place (getStatusSubpath os)) = some .regular ↔
      os.stat m₁.os (joinPath (nodePath m.fab) rednodeStatus) ≠ some .other := by
  have hname : rednodeStatus ∈ nodeFileNames := by simp [nodeFileNames]
  rw [← hfab] at hloc hlinks hnotRoot ⊢
  exact h.regular_iff F hloc.ready hloc.text hlinks.node.own (namesFile_nodeFile _ hname)
    ((dottedStarts_nodeFile _ hname).trans (hloc.starts_node hnotRoot)) hlinks.node.sought.status

/-- The files of the system node are not those of the node. -/
theorem Links.apart_system (h : Links os real mode m.fab) (hmode : mode = .legacy) {place : CStr}
    (hplace : place ∈ nodePlaces os (sysfab os m.fab (nodeOffset m.fab))) :
    ∀ p ∈ nodePlaces os m.fab, real place ≠ real p := by
  have hsought := (h.parent hmode).sought
  have hclear := h.clear hmode
  rcases hplace with rfl | rfl | rfl
  · rw [← hsought.normal]
    exact hclear _ (by simp [nodeFileNames])
  · rw [← hsought.admin]
    exact hclear _ (by simp [nodeFileNames])
  · rw [← hsought.status]
    exact hclear _ (by simp [nodeFileNames])

/-- The creation of the system node does not change of what kind the status of the node is. -/
theorem NodeDue.device_iff (F : FileSystem os real) (hloc : Located m.fab)
    (hnotRoot : 1 < m.fab.nodeLength) (hlinks : Links os real mode m.fab)
    (hnamed : mode = .legacy → Plain (nodeName m.fab).bytes) {m₁ : Machine ω}
    (h : NodeDue os params mode m m₁) :
    os.stat m₁.os (joinPath (nodePath m.fab) rednodeStatus) = some .other ↔
      os.stat m.os (joinPath (nodePath m.fab) rednodeStatus) = some .other := by
  rcases h.cases F hloc with ⟨hsee, -⟩ | ⟨hmode, -, m₀, m₂, node, hsystem, hos⟩
  · rw [show os.stat m₁.os _ = os.stat m.os _ from congrArg Seen.kind (congrFun hsee _)]
  obtain ⟨v, u, hcut⟩ := hloc.cut hnotRoot
  have hname : rednodeStatus ∈ nodeFileNames := by simp [nodeFileNames]
  have hready := hsystem.ready hloc
  have htext := hsystem.text hloc hnotRoot
  have hstarts : dottedStarts (joinPath (nodePath m.fab) rednodeStatus) ⊆
      dottedStarts (nodeText (sysfab os m.fab (nodeOffset m.fab))) := by
    rw [nodeText_sysfab]
    exact (dottedStarts_nodeFile _ hname).trans (hcut.starts_node (hnamed hmode))
  rw [← hsystem.fab_eq] at hstarts
  have hground := (hsystem.created.grounded F hready htext).mono hstarts
  have hapart : ∀ p ∈ nodePlaces os m₀.fab,
      real (joinPath (nodePath m.fab) rednodeStatus) ≠ real p := by
    rw [hsystem.fab_eq, hlinks.node.sought.status]
    exact fun p hp => (hlinks.apart_system hmode hp _ (.inr (.inr rfl))).symm
  rw [hos, show os.stat m.os _ = os.stat m₀.os _ from
    congrArg Seen.kind (congrFun hsystem.seen.symm _)]
  rcases (hsystem.created.changes F hready htext).cases (namesFile_nodeFile _ hname) (.inr hground)
    hapart with hsee | ⟨⟨hnone, hdir⟩, -⟩
  · rw [show os.stat m₂.os _ = os.stat m₀.os _ from congrArg Seen.kind hsee]
  · rw [show os.stat m₀.os _ = none from hnone, show os.stat m₂.os _ = some .directory from hdir]
    exact iff_of_false (by decide) (by decide)

/-- The walk up is not stopped where every directory that has a status loads. -/
theorem digToRoot_done_of_loads (F : FileSystem os real) (hhead : path.bytes.head? = some slash)
    (hstrip : stripSlash path.bytes = path.bytes) (hne : path.bytes ≠ [])
    (hfit : (joinPath path rednodeAdmin).bytes.length < redMaxpathlen)
    (hthere : os.stat w (joinPath path rednodeStatus) ≠ none)
    (hloads : ∀ p ∈ Above path, LoadsIfRednode os w p) :
    (digToRoot (fun p => redNodesLoad os.toFileOs w p true) path.bytes).result = .done := by
  refine (digToRoot_done_iff _ hhead (by rw [hstrip]; exact hne)).mpr fun v hbegins hlt => ?_
  rw [hstrip] at hbegins
  have hbytes : (CStr.ofBytes (v ++ [slash])).bytes = v ++ [slash] :=
    congrArg CStr.bytes (CStr.ofBytes_bytes ⟨_, fun hmem => path.nulFree (hbegins.subset hmem)⟩)
  have habove : CStr.ofBytes (v ++ [slash]) ∈ Above path :=
    ⟨v, hbytes, hlt, by rw [hbytes]; exact hbegins⟩
  exact not_stopped (directory_of_above F habove hthere) (fit_of_above habove hfit).2
    (hloads _ habove)

/-- The node loads, and the walk up from it is not stopped. -/
theorem DueAbove.scan (F : FileSystem os real) (hloc : Located m.fab)
    (hlinks : Links os real mode m.fab) (hwhen : FoundWhen os real mode m) {m₁ : Machine ω}
    (hfab : m₁.fab = m.fab) (hdue : DueAbove os real mode m.fab m₁.os)
    (h : NodeCreated os node false m₁ m')
    (hregular : os.stat m'.os (m.fab.place (getStatusSubpath os)) = some .regular) :
    ∃ normal admin parents, Copied os m₁.os node false normal ∧ Copied os m₁.os node true admin ∧
      redNodesScan (fun path => redNodesLoad os.toFileOs m'.os path true) (nodePath m.fab) =
        some (some (withLeaf (nodeOf (nodePath m.fab) normal admin) parents)) ∧
      (mode = .legacy → ∃ parent rest, parents = parent :: rest ∧
        parent.redpath = parentPath m.fab) := by
  obtain ⟨v, u, hcut⟩ := hloc.cut hwhen.notRoot
  have hready : Ready m₁.fab := by rw [hfab]; exact hloc.ready
  have htext : Textual m₁.fab := by rw [hfab]; exact hloc.text
  have hown : OwnStatus os real m₁.fab := by rw [hfab]; exact hlinks.node.own
  have hne : (nodePath m.fab).bytes ≠ [] := by rw [hcut.path]; simp
  have hregular₁ : os.stat m'.os (m₁.fab.place (getStatusSubpath os)) = some .regular := by
    rw [hfab]
    exact hregular
  have hstarts : ∀ p ∈ Above (nodePath m.fab), dottedStarts p ⊆ dottedStarts (nodeText m₁.fab) := by
    rw [hfab]
    exact fun p hp => (hcut.starts_above hp).trans (hloc.starts_parent hwhen.notRoot hcut)
  obtain ⟨normal, admin, redstatus, hnormal, hadmin, hload⟩ := h.loads F hready htext hown hregular₁
    (by rw [hfab]; exact hlinks.node.sought)
    (by rw [hfab]; exact hloc.starts_node hwhen.notRoot) hne hwhen.fit
  have hremains : ∀ p ∈ Above (nodePath m.fab), Remains os real p m₁.os m'.os := fun p hp =>
    h.remains F hready htext hown hregular₁ (ne_nil_of_above hp) (fit_of_above hp hwhen.fit).1
      (by rw [hfab]; exact hlinks.node.apart p hp) (hstarts p hp)
      (by rw [hfab]; exact hdue.free p hp) (hdue.loads p hp)
  have hthere : os.stat m'.os (joinPath (nodePath m.fab) rednodeStatus) ≠ none := by
    rw [((redNodesLoad_ok os.toFileOs m'.os).mp hload).regular]
    exact Option.some_ne_none _
  have hstrip : stripSlash (nodePath m.fab).bytes = (nodePath m.fab).bytes :=
    if_neg (hloc.getLast? hwhen.notRoot)
  have hdone := digToRoot_done_of_loads F (hloc.head? hwhen.notRoot) hstrip hne hwhen.fit hthere
    fun p hp => (hremains p hp).loads
  have hlen : (nodePath m.fab).bytes.length ≤ redMaxpathlen :=
    Nat.le_of_lt (length_of_loaded os.toFileOs m'.os hload)
  have hdig : redNodesDigToRoot (fun path => redNodesLoad os.toFileOs m'.os path true)
      (nodePath m.fab) = digToRoot (fun path => redNodesLoad os.toFileOs m'.os path true)
        (nodePath m.fab).bytes := by
    rw [redNodesDigToRoot, List.take_of_length_le hlen]
  refine ⟨normal, admin, _, hnormal, hadmin,
    redNodesScan_eq_some.mpr ⟨_, hload, by rw [hdig]; exact hdone, rfl⟩, fun hmode => ?_⟩
  have hdeep := (hwhen.parent hmode).deep
  have habove := hcut.above hdeep
  obtain ⟨parent, hparent⟩ := (hremains _ habove).loads (h.status F hready htext hown
    (by rw [hfab]; exact hlinks.node.apart _ habove) (hstarts _ habove) (hdue.parent hmode))
  have hvlen : 1 < v.length := by
    have hlen := congrArg List.length hcut.parent
    rw [length_slice, List.length_append, List.length_singleton, Nat.sub_zero] at hlen
    omega
  have hpath : CStr.ofBytes (v ++ [slash]) = parentPath m.fab := by
    rw [← hcut.parent]
    rfl
  rw [hdig, digToRoot_cut hne (hstrip.trans hcut.path) hcut.slashFree hvlen, hpath]
  simp only [hparent]
  exact ⟨parent.node, _, rfl, ((redNodesLoad_ok os.toFileOs m'.os).mp hparent).redpath_eq⟩

theorem Cut.designated {fab : RednodeFactory} {v u : List UInt8} (h : Cut fab v u)
    (hdeep : 2 < nodeOffset fab) (hplain : Plain (nodeName fab).bytes) :
    ∃ name, Node.designated [] (nodePath fab).bytes =
      Node.designated [] (parentPath fab).bytes ++ [name] := by
  have hv : v ≠ [] := by
    rintro rfl
    have hlen := congrArg List.length h.parent
    rw [length_slice] at hlen
    simp at hlen
    omega
  rw [h.path, h.bytes_parent, designated_concat hv]
  rw [h.name] at hplain
  exact (designated_child hv h.slashFree).mpr hplain

/-- **What the factory creates is found.** -/
theorem found_of_when (F : FileSystem os real) (hloc : Located m.fab)
    (hlinks : Links os real mode m.fab)
    (hpresent : ∀ p ∈ Above (nodePath m.fab), LoadsIfRednode os m.os p)
    (hok : rednodeFactoryCreateNode os params false mode m = .ok rednodeFactoryOk m')
    (hwhen : FoundWhen os real mode m) : Found os params mode m m' := by
  obtain ⟨v, u, hcut⟩ := hloc.cut hwhen.notRoot
  obtain ⟨m₁, hdue, hfab, hcreated⟩ := createCall_ok F hloc.ready hok
  have hready : Ready m₁.fab := by rw [hfab]; exact hloc.ready
  have htext : Textual m₁.fab := by rw [hfab]; exact hloc.text
  have hplace := hcreated.namesFile_status F hready htext
  have hregular := (hcreated.regular_iff_node F hloc hwhen.notRoot hlinks hfab).mpr
    ((hdue.device_iff F hloc hwhen.notRoot hlinks fun hmode => (hwhen.parent hmode).named).not.mpr
      hwhen.status)
  rw [hfab] at hplace
  have habove := hdue.above F hloc hlinks hwhen hpresent hplace
  obtain ⟨normal, admin, parents, hnormal, hadmin, hscan, hparent⟩ :=
    habove.scan F hloc hlinks hwhen hfab hcreated hregular
  refine ⟨m₁, _, hdue, hscan, rfl, ⟨normal, rfl, hnormal⟩, ⟨admin, rfl, hadmin⟩, fun hmode => ?_⟩
  obtain ⟨parent, rest, rfl, hredpath⟩ := hparent hmode
  have hwhere := hwhen.parent hmode
  exact ⟨_, _, rfl, hredpath, hcut.designated hwhere.deep hwhere.named⟩

/-! ## When it is not found -/

/-- What is on the way to an existing file is a directory. -/
theorem directory_of_onTheWay (F : FileSystem os real) {q : CStr} (hq : q ∈ onTheWay path)
    (hthere : os.stat w path ≠ none) : os.stat w q = some .directory :=
  F.onWay hq.1 hq.2.2 hthere

/-- A directory in the place of the normal config stops the walk. -/
theorem stopped_of_directory (F : FileSystem os real)
    (hstatus : os.stat w (joinPath path rednodeStatus) = some .regular)
    (hdir : os.stat w (joinPath path rednodeConf) = some .directory) :
    redNodesLoad os.toFileOs w path true = .error .fx ∨
      redNodesLoad os.toFileOs w path true = .error .fault := by
  cases hload : redNodesLoad os.toFileOs w path true with
  | ok loaded =>
    obtain ⟨p, config, hconf, hconfig, -⟩ := ((redNodesLoad_ok os.toFileOs w).mp hload).normal
    have haccess : os.access w (joinPath path rednodeConf) = true := by
      rw [FileOs.access, hdir]
      rfl
    unfold confPath at hconf
    split at hconf
    · cases hconf
    · rename_i hname
      obtain ⟨-, rfl⟩ := snprintf_eq_some.mp hname
      rw [if_pos haccess] at hconf
      cases hconf
      exact absurd hdir (F.readable_of_loadConf hconfig).2
  | error e =>
    cases e with
    | fx => exact .inl rfl
    | fault => exact .inr rfl
    | missing => exact absurd hstatus ((redNodesLoad_missing os.toFileOs w).mp hload).2.2

theorem fit_of_loaded {loaded : Loaded}
    (h : redNodesLoad os.toFileOs w path true = .ok loaded) :
    (joinPath path rednodeAdmin).bytes.length < redMaxpathlen := by
  have hadmin := ((redNodesLoad_ok os.toFileOs w).mp h).confadmin
  rw [if_pos rfl] at hadmin
  by_contra hlong
  have hnone : snprintf (joinPath path rednodeAdmin) redMaxpathlen = none := by
    rw [snprintf, if_neg hlong]
  rw [loadAdmin, confPath, hnone] at hadmin
  cases hadmin

/-- A rednode above keeps its status until the node is due. -/
theorem NodeDue.status (F : FileSystem os real) (hloc : Located m.fab)
    (hnotRoot : 1 < m.fab.nodeLength) (hlinks : Links os real mode m.fab) {m₁ : Machine ω}
    (h : NodeDue os params mode m m₁) (hp : p ∈ Above (nodePath m.fab))
    (hstatus : os.stat m.os (joinPath p rednodeStatus) = some .regular) :
    os.stat m₁.os (joinPath p rednodeStatus) = some .regular := by
  rcases h.cases F hloc with ⟨hsee, -⟩ | ⟨hmode, -, m₀, m₂, node, hsystem, hos⟩
  · exact (congrArg Seen.kind (congrFun hsee _)).trans hstatus
  · have hlinked := hlinks.parent hmode
    obtain ⟨v, u, hcut⟩ := hloc.cut hnotRoot
    rw [hos]
    exact hsystem.created.status F (hsystem.ready hloc) (hsystem.text hloc hnotRoot)
      (by rw [hsystem.fab_eq]; exact hlinked.own)
      (by rw [hsystem.fab_eq]; exact hlinked.apart p hp)
      (by rw [hsystem.fab_eq, nodeText_sysfab]; exact hcut.starts_above hp)
      ((congrArg Seen.kind (congrFun hsystem.seen _)).trans hstatus)

theorem Found.notRoot (h : Found os params mode m m') :
    1 < m.fab.nodeLength := by
  by_contra hle
  obtain ⟨m₁, family, -, hscan, -⟩ := h
  obtain ⟨leaf, -, hdone, -⟩ := redNodesScan_eq_some.mp hscan
  have hroot : nodePath m.fab = .lit "/" := if_pos (Nat.not_lt.mp hle)
  have hbytes : (CStr.lit "/").bytes.take redMaxpathlen = [slash] := by decide +kernel
  rw [hroot, redNodesDigToRoot, hbytes, digToRoot_none (by decide)] at hdone
  cases hdone

/-- What the scan has done where it found the node. -/
structure Walked (os : FactoryOs ω) (mode : RednodeFactoryMode) (fab : RednodeFactory)
    (w : ω) : Prop where
  fit : (joinPath (nodePath fab) rednodeAdmin).bytes.length < redMaxpathlen
  status : os.stat w (joinPath (nodePath fab) rednodeStatus) = some .regular
  passed : ∀ p ∈ Above (nodePath fab), redNodesLoad os.toFileOs w p true ≠ .error .fx ∧
    redNodesLoad os.toFileOs w p true ≠ .error .fault
  parent : mode = .legacy → ∃ parent rest,
    (digToRoot (fun path => redNodesLoad os.toFileOs w path true)
      (nodePath fab).bytes).parents = parent :: rest ∧
    parent.node.redpath = parentPath fab ∧
    ∃ name, Node.designated [] (nodePath fab).bytes =
      Node.designated [] (parentPath fab).bytes ++ [name]

theorem Found.walked (hloc : Located m.fab) (h : Found os params mode m m') :
    Walked os mode m.fab m'.os := by
  have hnotRoot := h.notRoot
  obtain ⟨m₁, family, -, hscan, hnode⟩ := h
  obtain ⟨leaf, hload, hdone, rfl⟩ := redNodesScan_eq_some.mp hscan
  have hlen : (nodePath m.fab).bytes.length ≤ redMaxpathlen :=
    Nat.le_of_lt (length_of_loaded os.toFileOs m'.os hload)
  have hparent := hnode.parent
  rw [redNodesDigToRoot, List.take_of_length_le hlen] at hdone hparent
  have hstrip : stripSlash (nodePath m.fab).bytes = (nodePath m.fab).bytes :=
    if_neg (hloc.getLast? hnotRoot)
  have hne : (nodePath m.fab).bytes ≠ [] := by
    intro hnil
    have hhead := hloc.head? hnotRoot
    rw [hnil] at hhead
    cases hhead
  refine ⟨fit_of_loaded hload, ((redNodesLoad_ok os.toFileOs m'.os).mp hload).regular,
    fun p hp => ?_, fun hmode => ?_⟩
  · obtain ⟨v, hbytes, hlt, hbegins⟩ := hp
    have hpath : CStr.ofBytes (v ++ [slash]) = p := by rw [← hbytes, CStr.ofBytes_bytes]
    have hpassed := (digToRoot_done_iff _ (hloc.head? hnotRoot) (by rw [hstrip]; exact hne)).mp
      hdone v (by rw [hstrip, ← hbytes]; exact hbegins) hlt
    rwa [hpath] at hpassed
  · obtain ⟨parent, rest, hparents, hredpath, hname⟩ := hparent hmode
    obtain ⟨first, others, hfirst, rfl, -⟩ := List.map_eq_cons_iff.mp hparents
    obtain ⟨loaded, more, hloaded, rfl, -⟩ := List.map_eq_cons_iff.mp hfirst
    exact ⟨loaded, more, hloaded, hredpath, hname⟩

/-- No directory on the way to an existing file is taken for the config of a rednode above. -/
theorem Walked.free (F : FileSystem os real) (h : Walked os mode m.fab w)
    (hp : p ∈ Above (nodePath m.fab))
    (hstatus : os.stat w (joinPath p rednodeStatus) = some .regular) {q : CStr}
    (hq : q ∈ onTheWay path) (hthere : os.stat w path ≠ none) :
    real (joinPath p rednodeConf) ≠ real q := by
  intro heq
  have hdirQ := directory_of_onTheWay F hq hthere
  have hname : rednodeConf ∈ nodeFileNames := by simp [nodeFileNames]
  have hground : Grounded os.toFileOs w p := by
    obtain ⟨v, hbytes, -, -⟩ := hp
    refine (F.grounded (q := joinPath p rednodeStatus) (by
      rw [hstatus]; exact Option.some_ne_none _)).mono (dottedStarts_subset ?_ ?_)
    · rw [hbytes, List.getLast?_concat]
    · exact ⟨[slash] ++ rednodeStatus.bytes, by simp [joinPath, CStr.append]⟩
  have hsee := F.same (w := w) (namesFile_nodeFile p hname) hq.2.1
    (.inr (hground.mono (dottedStarts_nodeFile p hname)))
    (.inl (by rw [hdirQ]; exact Option.some_ne_none _)) heq
  have hdir : os.stat w (joinPath p rednodeConf) = some .directory :=
    (congrArg Seen.kind hsee).trans hdirQ
  rcases stopped_of_directory F hstatus hdir with hstop | hstop
  · exact (h.passed p hp).1 hstop
  · exact (h.passed p hp).2 hstop

/-- The files of the system node are there when the node is created below it. -/
theorem SystemCreated.places (F : FileSystem os real) (hloc : Located m.fab)
    (hnotRoot : 1 < m.fab.nodeLength) (hlinks : Links os real mode m.fab) (hmode : mode = .legacy)
    (h : SystemCreated os m.fab m.os m₀ m₂ node)
    (hstatus : os.stat m₂.os (m₀.fab.place (getStatusSubpath os)) = some .regular)
    (hchanges : Changes os.toFileOs real (nodePlaces os m.fab) (nodeWays os m.fab) m₂.os w) :
    ∀ place ∈ nodePlaces os (sysfab os m.fab (nodeOffset m.fab)), os.stat w place ≠ none := by
  obtain ⟨-, _, _, -, -, hfiles⟩ := h.created.files F (h.ready hloc) (h.text hloc hnotRoot)
    (by rw [h.fab_eq]; exact (hlinks.parent hmode).own) hstatus
  rw [h.fab_eq] at hfiles
  intro place hplace
  refine hchanges.stays place ?_
  rw [(hfiles.regular place hplace).2]
  exact Option.some_ne_none _

/-- The first parent is the directory above: it was tried first, and it is a rednode. -/
theorem Walked.parent_loads (hloc : Located m.fab) (hnotRoot : 1 < m.fab.nodeLength)
    (h : Walked os mode m.fab w) (hmode : mode = .legacy) :
    2 < nodeOffset m.fab ∧ Plain (nodeName m.fab).bytes ∧
      os.stat w (joinPath (parentPath m.fab) rednodeStatus) = some .regular := by
  obtain ⟨v, u, hcut⟩ := hloc.cut hnotRoot
  obtain ⟨parent, rest, hparents, hredpath, hname⟩ := h.parent hmode
  have hstrip : stripSlash (nodePath m.fab).bytes = v ++ slash :: u := by
    rw [stripSlash, if_neg (hloc.getLast? hnotRoot), hcut.path]
  have hne : (nodePath m.fab).bytes ≠ [] := by rw [hcut.path]; simp
  have hoffset : nodeOffset m.fab = v.length + 1 := by
    have hlen := congrArg List.length hcut.parent
    rwa [length_slice, List.length_append, List.length_singleton, Nat.sub_zero] at hlen
  by_cases hv : v.length ≤ 1
  · rw [digToRoot_top hne hstrip hcut.slashFree hv] at hparents
    cases hparents
  have hv' : v ≠ [] := by
    rintro rfl
    exact hv (by decide)
  rw [hcut.path, hcut.bytes_parent, designated_concat hv', designated_child hv' hcut.slashFree,
    ← hcut.name] at hname
  refine ⟨by omega, hname, ?_⟩
  have hpath : CStr.ofBytes (v ++ [slash]) = parentPath m.fab := by
    rw [← hcut.bytes_parent, CStr.ofBytes_bytes]
  rw [digToRoot_cut hne hstrip hcut.slashFree (Nat.lt_of_not_le hv), hpath] at hparents
  cases hload : redNodesLoad os.toFileOs w (parentPath m.fab) true with
  | ok loaded => exact ((redNodesLoad_ok os.toFileOs w).mp hload).regular
  | error e =>
    simp only [hload] at hparents
    cases e with
    | fx => cases hparents
    | fault => cases hparents
    | missing =>
      -- all that is tried later has a shorter path
      have hmem : parent ∈ (digToRoot (fun path => redNodesLoad os.toFileOs w path true)
          (v ++ [slash])).parents := by
        simp only [Dug.after, List.nil_append] at hparents
        rw [hparents]
        exact List.mem_cons_self
      obtain ⟨t, hbegins, htried⟩ := digToRoot_parents _ parent hmem
      rw [stripSlash_concat] at hbegins
      have hbytes : (CStr.ofBytes (t ++ [slash])).bytes = t ++ [slash] :=
        congrArg CStr.bytes (CStr.ofBytes_bytes ⟨_, fun hmem => (nodePath m.fab).nulFree (by
          rw [hcut.path]
          exact List.mem_append_left _ (List.IsPrefix.subset hbegins hmem))⟩)
      have heq := ((redNodesLoad_ok os.toFileOs w).mp htried).redpath_eq.symm.trans hredpath
      have hlen := congrArg (fun path : CStr => path.bytes.length) heq
      simp only [hbytes, hcut.bytes_parent, List.length_append, List.length_singleton] at hlen
      have hle := hbegins.length_le
      rw [List.length_append, List.length_singleton] at hle
      omega

/-- **What the scan needs** to find the node. -/
theorem when_of_found (F : FileSystem os real) (hloc : Located m.fab)
    (hlinks : Links os real mode m.fab)
    (hok : rednodeFactoryCreateNode os params false mode m = .ok rednodeFactoryOk m')
    (h : Found os params mode m m') : FoundWhen os real mode m := by
  have hnotRoot := h.notRoot
  have hwalked := h.walked hloc
  obtain ⟨m₁, hdue, hfab, hcreated⟩ := createCall_ok F hloc.ready hok
  have hready : Ready m₁.fab := by rw [hfab]; exact hloc.ready
  have htext : Textual m₁.fab := by rw [hfab]; exact hloc.text
  have hown : OwnStatus os real m₁.fab := by rw [hfab]; exact hlinks.node.own
  have hchanges := hcreated.changes F hready htext
  have hplace := hcreated.namesFile_status F hready htext
  have hground := hcreated.grounded F hready htext
  obtain ⟨v, u, hcut⟩ := hloc.cut hnotRoot
  have hname : rednodeStatus ∈ nodeFileNames := by simp [nodeFileNames]
  have hregular := hcreated.stat_status F hready htext (namesFile_nodeFile (nodePath m.fab) hname)
    (by rw [hfab]; exact (dottedStarts_nodeFile _ hname).trans (hloc.starts_node hnotRoot))
    (by rw [hfab]; exact hlinks.node.sought.status)
  rw [hwalked.status] at hregular
  obtain ⟨-, _, _, -, -, hfiles⟩ := hcreated.files F hready htext hown hregular.symm
  rw [hfab] at hfiles hchanges hplace hground hregular
  have hstatus : ∀ p ∈ Above (nodePath m.fab),
      os.stat m.os (joinPath p rednodeStatus) = some .regular →
      os.stat m'.os (joinPath p rednodeStatus) = some .regular := fun p hp hstatus =>
    hcreated.status F hready htext hown (by rw [hfab]; exact hlinks.node.apart p hp)
      (by rw [hfab]; exact (hcut.starts_above hp).trans (hloc.starts_parent hnotRoot hcut))
      (hdue.status F hloc hnotRoot hlinks hp hstatus)
  have hthere : ∀ place ∈ nodePlaces os m.fab, os.stat m'.os place ≠ none := fun place hplace => by
    rw [(hfiles.regular place hplace).2]
    exact Option.some_ne_none _
  have hparent : mode = .legacy → 2 < nodeOffset m.fab ∧ Plain (nodeName m.fab).bytes ∧
      os.stat m₁.os (joinPath (parentPath m.fab) rednodeStatus) = some .regular := fun hmode => by
    obtain ⟨hdeep, hplain, hparent⟩ := hwalked.parent_loads hloc hnotRoot hmode
    have hkept := hchanges.files (hlinks.clear hmode)
      (hground.mono (hloc.starts_parent hnotRoot hcut))
    exact ⟨hdeep, hplain, hkept.status.mp hparent⟩
  refine ⟨hnotRoot, hwalked.fit, ?_, ?_, fun hmode => ?_⟩
  · exact (hdue.device_iff F hloc hnotRoot hlinks fun hmode => (hparent hmode).2.1).not.mp
      ((hcreated.regular_iff_node F hloc hnotRoot hlinks hfab).mp hregular.symm)
  · rintro p hp hregular - q ⟨place, hplace, hq⟩
    exact hwalked.free F hp (hstatus p hp hregular) hq (hthere place hplace)
  obtain ⟨hdeep, hplain, hbefore⟩ := hparent hmode
  rcases hdue.cases F hloc with ⟨hsee, haccess⟩ | ⟨-, hnone, m₀, m₂, node, hsystem, hos⟩
  · -- the directory above has a status
    have hsame : os.stat m₁.os (parentStatus os m.fab) = os.stat m.os (parentStatus os m.fab) :=
      congrArg Seen.kind (congrFun hsee _)
    rw [stat_parentStatus F hloc hnotRoot hplace (hlinks.parent hmode).sought (haccess hmode),
      hsame] at hbefore
    have hno : ¬ os.access m.os (parentStatus os m.fab) = false := by
      rw [FileOs.access, hbefore]
      decide
    exact ⟨hdeep, hplain, fun _ => hbefore, fun h => absurd h hno, fun h => absurd h hno⟩
  · -- it gets one
    rw [hos] at hbefore hchanges
    have hsystemS : os.stat m₂.os (m₀.fab.place (getStatusSubpath os)) = some .regular := by
      rw [← hbefore]
      exact (hsystem.created.stat_status F (hsystem.ready hloc) (hsystem.text hloc hnotRoot)
        (namesFile_nodeFile _ hname)
        (by rw [hsystem.fab_eq, nodeText_sysfab]; exact dottedStarts_nodeFile _ hname)
        (by rw [hsystem.fab_eq]; exact (hlinks.parent hmode).sought.status)).symm
    refine ⟨hdeep, hplain, fun haccess => ?_, fun _ => ?_, fun _ => ?_⟩
    · rw [haccess] at hnone
      cases hnone
    · exact (hsystem.regular_iff F hloc hnotRoot hlinks hmode).mp hsystemS
    · rintro p hp hregular - q ⟨place, hplace, hq⟩
      exact hwalked.free F hp (hstatus p hp hregular) hq
        (hsystem.places F hloc hnotRoot hlinks hmode hsystemS hchanges place hplace)

/-- **What the factory creates is found**, if no variable and no link parts what the factory writes
from what the loader reads, exactly under these conditions. -/
theorem created_found_iff (F : FileSystem os real) {root node : CStr}
    (haccepted : Accepted root node m.fab) (params : Option RednodeFactoryParam)
    (mode : RednodeFactoryMode) (hlinks : Links os real mode m.fab)
    (hpresent : ∀ p ∈ Above (nodePath m.fab), LoadsIfRednode os m.os p)
    (hok : rednodeFactoryCreateNode os params false mode m = .ok rednodeFactoryOk m') :
    Found os params mode m m' ↔ FoundWhen os real mode m :=
  ⟨when_of_found F haccepted.located hlinks hok,
    found_of_when F haccepted.located hlinks hpresent hok⟩

end

end Factory
end RedPak
