import RedPak.Factory.Footprint
import RedPak.Node.Ancestors

/-!
# Factory.Found

What the factory creates and what the loader finds. The factory and the loader name the files of a
node on their own.

* `Located`: the path of a factory whose root and node were accepted.
* `loads_of_files`: a directory loads once the files of a node are where the loader looks for them.
-/

namespace RedPak
namespace Factory

open Conf Node Layered.Action
open Layered (Buffer fields)
open Layered.Buffer

/-! ## The path of the node -/

/-- The directory of the node. -/
def nodePath (fab : RednodeFactory) : CStr :=
  if fab.nodeLength ≤ 1 then .lit "/" else CStr.ofBytes (slice fab.path 0 (fab.nodeLength - 1))

/-- The directory above it, up to the slash before the name of the node. -/
def parentPath (fab : RednodeFactory) : CStr := CStr.ofBytes (slice fab.path 0 (nodeOffset fab))

/-- A factory whose root and node were accepted. -/
structure Located (fab : RednodeFactory) : Prop where
  ready : Ready fab
  text : Textual fab
  absolute : fab.path 0 = slash
  last : 1 < fab.nodeLength → (slice fab.path 0 (fab.nodeLength - 1)).getLast? ≠ some slash

theorem getLast?_stripRoot (path : List UInt8) : (stripRoot path).getLast? ≠ some slash := by
  by_cases hnil : stripRoot path = []
  · rw [hnil]
    exact (by decide)
  · have hlast := List.rdropWhile_last_not (· == slash) path hnil
    rw [List.getLast?_eq_getLast_of_ne_nil hnil]
    exact fun heq => hlast (beq_iff_eq.mpr (Option.some.inj heq))

theorem getLast?_stripNode (path : List UInt8) : (stripNode path).getLast? ≠ some slash := by
  obtain ⟨front, hfront⟩ := List.dropWhile_suffix (l := stripRoot path) (· == slash)
  by_cases hnil : stripNode path = []
  · rw [hnil]
    exact (by decide)
  · rw [← List.getLast?_append_of_ne_nil front hnil, stripNode, hfront]
    exact getLast?_stripRoot path

theorem nul_not_mem_stripRoot {path : CStr} : (0 : UInt8) ∉ stripRoot path.bytes := fun h =>
  path.nulFree ((List.rdropWhile_prefix _ _).subset h)

theorem nul_not_mem_stripNode {path : CStr} : (0 : UInt8) ∉ stripNode path.bytes := fun h =>
  nul_not_mem_stripRoot ((List.dropWhile_suffix _).subset h)

/-- The path is what was set, without its superfluous slashes. -/
theorem IsSet.located {fab : RednodeFactory} {root node : CStr}
    (h : IsSet fab ⟨stripRoot root.bytes, stripNode node.bytes⟩) : Located fab := by
  have hslice : slice fab.path 0 fab.nodeLength =
      stripRoot root.bytes ++ [slash] ++ slashed (stripNode node.bytes) := by
    rw [← slice_append (Nat.zero_le fab.rootLength) h.root_le, h.rootBytes, h.nodeBytes]
  have hpos : 0 < fab.nodeLength := Nat.lt_of_lt_of_le h.root_pos h.root_le
  refine ⟨h.ready, ⟨?_, ?_⟩, h.first, fun hlt => ?_⟩
  · rw [hslice, slashed]
    have hslash : (0 : UInt8) ≠ slash := by decide
    split <;> simp [nul_not_mem_stripRoot, nul_not_mem_stripNode, hslash]
  · rw [getLast?_slice hpos, h.nodeEnd]
  · have hconcat := @slice_concat _ fab.path 0 (fab.nodeLength - 1) (Nat.zero_le _)
    rw [Nat.sub_add_cancel hpos, h.nodeEnd, hslice, slashed] at hconcat
    split at hconcat
    · rw [List.append_nil] at hconcat
      rw [← List.append_cancel_right hconcat]
      exact getLast?_stripRoot _
    · rename_i hne
      rw [← List.append_assoc] at hconcat
      rw [← List.append_cancel_right hconcat, List.getLast?_append_of_ne_nil _ hne]
      exact getLast?_stripNode _

section

variable {fab : RednodeFactory}

/-- The node lies in a directory, under a name. -/
structure Cut (fab : RednodeFactory) (v w : List UInt8) : Prop where
  path : (nodePath fab).bytes = v ++ slash :: w
  parent : slice fab.path 0 (nodeOffset fab) = v ++ [slash]
  name : (nodeName fab).bytes = w
  slashFree : slash ∉ w

theorem Located.slice_eq (h : Located fab) (hlt : 1 < fab.nodeLength) :
    slice fab.path 0 fab.nodeLength = (nodePath fab).bytes ++ [slash] := by
  have hconcat := @slice_concat _ fab.path 0 (fab.nodeLength - 1) (Nat.zero_le _)
  have hend := h.text.nodeEnd
  rw [getLast?_slice (by omega)] at hend
  rw [Nat.sub_add_cancel (by omega), Option.some.inj hend] at hconcat
  have hfree : (0 : UInt8) ∉ slice fab.path 0 (fab.nodeLength - 1) := fun hmem =>
    h.text.nulFree (by rw [hconcat]; exact List.mem_append_left _ hmem)
  rw [nodePath, if_neg (by omega), hconcat]
  exact congrArg (· ++ [slash]) (congrArg CStr.bytes (CStr.ofBytes_bytes ⟨_, hfree⟩)).symm

theorem Located.getLast? (h : Located fab) (hlt : 1 < fab.nodeLength) :
    (nodePath fab).bytes.getLast? ≠ some slash := by
  have hslice := h.slice_eq hlt
  have hlast := h.last hlt
  have hconcat := @slice_concat _ fab.path 0 (fab.nodeLength - 1) (Nat.zero_le _)
  rw [Nat.sub_add_cancel (by omega), hslice] at hconcat
  have hend := List.append_inj_left' hconcat rfl
  rwa [hend]

theorem Located.head? (h : Located fab) (hlt : 1 < fab.nodeLength) :
    (nodePath fab).bytes.head? = some slash := by
  have hhead : (slice fab.path 0 fab.nodeLength).head? = some slash :=
    head?_slice_eq_some.mpr ⟨by omega, h.absolute⟩
  rw [h.slice_eq hlt] at hhead
  cases hbytes : (nodePath fab).bytes with
  | nil =>
    have hlen := congrArg List.length (h.slice_eq hlt)
    rw [length_slice, hbytes] at hlen
    simp at hlen
    omega
  | cons c rest =>
    rw [hbytes] at hhead
    exact hhead

theorem rdropWhile_cut (v : List UInt8) {w : List UInt8} (hw : slash ∉ w) :
    (v ++ slash :: w).rdropWhile (· != slash) = v ++ [slash] := by
  induction w using List.reverseRecOn with
  | nil => exact List.rdropWhile_concat_neg _ _ _ (by simp)
  | append_singleton w c ih =>
    have hc : c ≠ slash := fun heq => hw (by simp [heq])
    have hsplit : v ++ slash :: (w ++ [c]) = (v ++ slash :: w) ++ [c] := by simp
    rw [hsplit, List.rdropWhile_concat_pos _ _ _ (by simpa using hc)]
    exact ih fun hmem => hw (by simp [hmem])

theorem Located.nodeBytes_eq (h : Located fab) (hlt : 1 < fab.nodeLength) :
    nodeBytes fab = (nodePath fab).bytes := by
  rw [nodeBytes, h.slice_eq hlt, List.rdropWhile_concat_pos _ _ _ (by simp)]
  refine List.rdropWhile_eq_self_iff.mpr fun hne heq => h.getLast? hlt ?_
  rw [List.getLast?_eq_getLast_of_ne_nil hne]
  simpa using heq

theorem Located.cut (h : Located fab) (hlt : 1 < fab.nodeLength) : ∃ v w, Cut fab v w := by
  have hmem : slash ∈ (nodePath fab).bytes := List.mem_of_mem_head? (h.head? hlt)
  rcases exists_cut (nodePath fab).bytes with hnone | ⟨v, w, hcut, hw⟩
  · exact absurd hmem hnone
  have hoffset : nodeOffset fab = (v ++ [slash]).length := by
    rw [nodeOffset, h.nodeBytes_eq hlt, hcut, rdropWhile_cut v hw]
  have hfront : v ++ slash :: w = (v ++ [slash]) ++ w := by simp
  have hslice : slice fab.path 0 (nodeOffset fab) = v ++ [slash] := by
    rw [← Nat.zero_add (nodeOffset fab), ← take_slice fab.path (nodeOffset fab)
      (j := fab.nodeLength) (by rw [Nat.zero_add]; exact nodeOffset_le fab), h.slice_eq hlt, hcut,
      hoffset, hfront, List.append_assoc, List.take_left]
  have hname : (nodeName fab).bytes = w := by
    have hdrop : (nodeBytes fab).drop (nodeOffset fab) = w := by
      rw [h.nodeBytes_eq hlt, hoffset, hcut, hfront, List.drop_left]
    have hfree : (0 : UInt8) ∉ w := fun hmem => (nodePath fab).nulFree (by
      rw [hcut]
      simp [hmem])
    rw [nodeName, hdrop]
    exact congrArg CStr.bytes (CStr.ofBytes_bytes ⟨w, hfree⟩)
  exact ⟨v, w, hcut, hslice, hname, hw⟩

theorem Cut.bytes_parent {v w : List UInt8} (h : Cut fab v w) :
    (parentPath fab).bytes = v ++ [slash] := by
  have hfree : (0 : UInt8) ∉ v ++ [slash] := fun hmem => (nodePath fab).nulFree (by
    rw [h.path]
    simp only [List.mem_append, List.mem_cons, List.not_mem_nil, or_false] at hmem ⊢
    exact hmem.imp_right .inl)
  rw [parentPath, h.parent]
  exact congrArg CStr.bytes (CStr.ofBytes_bytes ⟨_, hfree⟩)

theorem Located.place_eq (h : Located fab) (hlt : 1 < fab.nodeLength) (subpath : CStr) :
    fab.place subpath = joinPath (nodePath fab) subpath := by
  refine CStr.ext ?_
  rw [h.text.bytes_place, h.slice_eq hlt]
  rfl

theorem namesFile_of_append {front : List UInt8} {path sub : CStr}
    (hpath : path.bytes = front ++ [slash] ++ sub.bytes) :
    NamesFile path ↔ sub.bytes ≠ [] ∧ sub.bytes.getLast? ≠ some slash := by
  rw [NamesFile, hpath]
  by_cases hnil : sub.bytes = []
  · rw [hnil, List.append_nil, List.getLast?_concat]
    exact iff_of_false (fun h => h rfl) fun h => h.1 rfl
  · rw [List.getLast?_append_of_ne_nil _ hnil]
    exact ⟨fun h => ⟨hnil, h⟩, fun h => h.2⟩

theorem namesFile_joinPath (path : CStr) {sub : CStr} (hsub : FileName sub) :
    NamesFile (joinPath path sub) :=
  (@namesFile_of_append path.bytes _ _ rfl).mpr ⟨hsub.ne_nil, hsub.last⟩

/-- The names of the files of a node. -/
def nodeFileNames : List CStr :=
  [rednodeStatus, rednodeConf, legacyRednodeConf, rednodeAdmin, legacyRednodeAdmin]

theorem namesFile_nodeFile (path : CStr) {sub : CStr} (hsub : sub ∈ nodeFileNames) :
    NamesFile (joinPath path sub) := by
  have hnames : ∀ sub ∈ nodeFileNames, sub.bytes ≠ [] ∧ sub.bytes.getLast? ≠ some slash := by
    decide +kernel
  exact namesFile_joinPath path ⟨(hnames sub hsub).1, (hnames sub hsub).2⟩

theorem dottedStarts_nodeFile (path : CStr) {sub : CStr} (hsub : sub ∈ nodeFileNames) :
    dottedStarts (joinPath path sub) ⊆ dottedStarts path := by
  have hplain : ∀ sub ∈ nodeFileNames, PlainPath sub := by decide +kernel
  exact dottedStarts_joinPath path (hplain sub hsub)

/-! ## The system node -/

variable {ω φ : Type} {os : FactoryOs ω} {real : CStr → φ}

/-- The factory of the system node is one with the directory above as its node. -/
theorem Cut.textual_sysfab {v w : List UInt8} (h : Cut fab v w) :
    Textual (sysfab os fab (nodeOffset fab)) := by
  have hslice : slice (sysfab os fab (nodeOffset fab)).path 0
      (sysfab os fab (nodeOffset fab)).nodeLength = (parentPath fab).bytes := by
    rw [h.bytes_parent, ← h.parent]
    exact slice_sysfab fab _
  refine ⟨?_, ?_⟩
  · rw [hslice]
    exact (parentPath fab).nulFree
  · rw [hslice, h.bytes_parent, List.getLast?_concat]

theorem Cut.bytes_place {v w : List UInt8} (h : Cut fab v w) (subpath : CStr) :
    ((sysfab os fab (nodeOffset fab)).place subpath).bytes = v ++ [slash] ++ subpath.bytes := by
  rw [h.textual_sysfab.bytes_place, ← h.parent]
  exact congrArg (· ++ subpath.bytes) (slice_sysfab fab _)

/-! ## Where the loader looks -/

/-- The loader looks for the files of a directory where the factory puts those of the node. -/
structure Sought (os : FactoryOs ω) (real : CStr → φ) (fab : RednodeFactory) (path : CStr) :
    Prop where
  normal : real (joinPath path rednodeConf) = real (fab.place (getNormalConfSubpath os))
  admin : real (joinPath path rednodeAdmin) = real (fab.place (getAdminConfSubpath os))
  status : real (joinPath path rednodeStatus) = real (fab.place (getStatusSubpath os))

variable {w : ω} {path : CStr}

theorem confPath_of_access {name legacy : CStr}
    (hfit : (joinPath path name).bytes.length < redMaxpathlen)
    (hthere : os.stat w (joinPath path name) ≠ none) :
    confPath os.toFileOs w path name legacy = some (joinPath path name) := by
  rw [confPath, snprintf_eq_some.mpr ⟨hfit, rfl⟩]
  exact if_pos (Option.isSome_iff_ne_none.mpr hthere)

theorem loadConf_of_valid {config : RedConfig} (hload : os.redLoadConfig w path = some config)
    (hvalid : isValidAlias config.headers.nodeAlias = true) :
    loadConf os.toFileOs w path = .ok config := by
  rw [loadConf, hload]
  exact if_pos hvalid

theorem FileSystem.isDirectory (F : FileSystem os real) (hne : path.bytes ≠ []) {sub : CStr}
    (hthere : os.stat w (joinPath path sub) ≠ none) : os.stat w path = some .directory :=
  F.directory w path hne (F.inside w path sub hthere)

/-- A rednode as it is loaded, with both configs. -/
def nodeOf (path : CStr) (normal admin : RedConfig) : RedNode :=
  { config := some normal, confadmin := some admin, redpath := path }

/-- **The files of a node load** from a directory for which the loader finds them. -/
theorem loads_of_files (F : FileSystem os real) (hsought : Sought os real fab path)
    (hground : Grounded os.toFileOs w path) (hne : path.bytes ≠ [])
    (hfit : (joinPath path rednodeAdmin).bytes.length < redMaxpathlen)
    {normal admin : RedConfig} (hfiles : NodeFiles os fab normal admin w)
    (hnormal : isValidAlias normal.headers.nodeAlias = true)
    (hadmin : isValidAlias admin.headers.nodeAlias = true) :
    ∃ redstatus, redNodesLoad os.toFileOs w path true =
      .ok ⟨nodeOf path normal admin, redstatus⟩ := by
  obtain ⟨redstatus, hstatus⟩ := hfiles.status
  obtain ⟨hfileN, hregularN⟩ := hfiles.regular _ (.inl rfl)
  obtain ⟨hfileA, hregularA⟩ := hfiles.regular _ (.inr (.inl rfl))
  obtain ⟨hfileS, hregularS⟩ := hfiles.regular _ (.inr (.inr rfl))
  have hsame : ∀ {sub q : CStr}, sub ∈ nodeFileNames → NamesFile q →
      os.stat w q = some .regular → real (joinPath path sub) = real q →
      see os.toFileOs w (joinPath path sub) = see os.toFileOs w q := fun hsub hq hregular =>
    F.same (namesFile_nodeFile path hsub) hq (.inr (hground.mono (dottedStarts_nodeFile path hsub)))
      (.inl (by rw [hregular]; exact Option.some_ne_none _))
  have hseeN := hsame (by simp [nodeFileNames]) hfileN hregularN hsought.normal
  have hseeA := hsame (by simp [nodeFileNames]) hfileA hregularA hsought.admin
  have hseeS := hsame (by simp [nodeFileNames]) hfileS hregularS hsought.status
  have hstatN : os.stat w (joinPath path rednodeConf) = some .regular :=
    (congrArg Seen.kind hseeN).trans hregularN
  have hstatA : os.stat w (joinPath path rednodeAdmin) = some .regular :=
    (congrArg Seen.kind hseeA).trans hregularA
  have hstatS : os.stat w (joinPath path rednodeStatus) = some .regular :=
    (congrArg Seen.kind hseeS).trans hregularS
  have hlenA : rednodeAdmin.bytes.length = 21 := by decide +kernel
  have hlenN : rednodeConf.bytes.length = 15 := by decide +kernel
  have hlenS : rednodeStatus.bytes.length = 13 := by decide +kernel
  rw [length_joinPath, hlenA] at hfit
  refine ⟨redstatus, (redNodesLoad_ok os.toFileOs w).mpr ⟨?_, ?_, hstatS, ?_, ?_, ?_, rfl, rfl⟩⟩
  · exact F.isDirectory hne (by rw [hstatS]; exact Option.some_ne_none _)
  · rw [length_joinPath, hlenS]
    omega
  · exact (congrArg Seen.status hseeS).trans hstatus
  · refine ⟨_, normal, confPath_of_access ?_ (by rw [hstatN]; exact Option.some_ne_none _),
      loadConf_of_valid ((congrArg Seen.config hseeN).trans hfiles.normal) hnormal, rfl⟩
    rw [length_joinPath, hlenN]
    omega
  · rw [if_pos rfl, loadAdmin, confPath_of_access (by rw [length_joinPath, hlenA]; omega)
      (by rw [hstatA]; exact Option.some_ne_none _)]
    dsimp only
    rw [if_neg (not_not.mpr hstatA), loadConf_of_valid
      ((congrArg Seen.config hseeA).trans hfiles.admin) hadmin]
    rfl

/-! ## The rednodes above -/

/-- The directory loads if it is a rednode, that is if it has the status of one. -/
def LoadsIfRednode (os : FactoryOs ω) (w : ω) (path : CStr) : Prop :=
  os.stat w (joinPath path rednodeStatus) = some .regular →
    ∃ loaded, redNodesLoad os.toFileOs w path true = .ok loaded

/-- A rednode whose normal config has the legacy name, or none: nothing of `made` is what the
present name would lead to. -/
def NameFree (os : FactoryOs ω) (real : CStr → φ) (made : Set CStr) (w : ω) (path : CStr) : Prop :=
  os.stat w (joinPath path rednodeStatus) = some .regular →
    os.access w (joinPath path rednodeConf) = false →
      ∀ p ∈ made, real (joinPath path rednodeConf) ≠ real p

/-- No file of the directory is one of `written`. -/
def ClearOf (real : CStr → φ) (written : Set CStr) (path : CStr) : Prop :=
  ∀ sub ∈ nodeFileNames, ∀ p ∈ written, real (joinPath path sub) ≠ real p

variable {w' : ω} {written made : Set CStr}

/-- The files of a directory are as they were, or they are directories of `made` now and were not
there. -/
def FilesKept (os : FactoryOs ω) (real : CStr → φ) (made : Set CStr) (path : CStr) (w w' : ω) :
    Prop :=
  ∀ sub ∈ nodeFileNames, see os.toFileOs w' (joinPath path sub) = see os.toFileOs w
    (joinPath path sub) ∨ Comes (see os.toFileOs w (joinPath path sub))
      (see os.toFileOs w' (joinPath path sub)) ∧ joinPath path sub ∈ leading real made

theorem Changes.files (h : Changes os.toFileOs real written made w w')
    (hclear : ClearOf real written path) (hground : Grounded os.toFileOs w path) :
    FilesKept os real made path w w' := fun sub hsub =>
  h.cases (namesFile_nodeFile path hsub) (.inr (hground.mono (dottedStarts_nodeFile path hsub)))
    (hclear sub hsub)

theorem FilesKept.same (h : FilesKept os real made path w w') {sub : CStr}
    (hsub : sub ∈ nodeFileNames) (hthere : os.stat w (joinPath path sub) ≠ none) :
    see os.toFileOs w' (joinPath path sub) = see os.toFileOs w (joinPath path sub) :=
  (h sub hsub).resolve_right fun hcomes => hthere hcomes.1.1

theorem FilesKept.access (h : FilesKept os real made path w w') {sub : CStr}
    (hsub : sub ∈ nodeFileNames) (hthere : os.access w (joinPath path sub) = true) :
    os.access w' (joinPath path sub) = true := by
  have hkept := h.same hsub (Option.isSome_iff_ne_none.mp hthere)
  exact (congrArg (fun seen : Seen => seen.kind.isSome) hkept).trans hthere

/-- The admin config of a rednode is found again, or none is. -/
theorem FilesKept.loadAdmin (hkept : FilesKept os real made path w w')
    {admin : Option RedConfig} (h : loadAdmin os.toFileOs w path = .ok admin) :
    ∃ admin', loadAdmin os.toFileOs w' path = .ok admin' := by
  have hcasesA := hkept rednodeAdmin (by simp [nodeFileNames])
  have hcasesL := hkept legacyRednodeAdmin (by simp [nodeFileNames])
  have hsame : ∀ {p : CStr}, see os.toFileOs w' p = see os.toFileOs w p →
      os.stat w' p = os.stat w p ∧ loadConf os.toFileOs w' p = loadConf os.toFileOs w p := by
    intro p hsee
    have hload : os.redLoadConfig w' p = os.redLoadConfig w p := congrArg Seen.config hsee
    exact ⟨congrArg Seen.kind hsee, by rw [loadConf, loadConf, hload]⟩
  unfold Node.loadAdmin confPath at h ⊢
  cases hname : snprintf (joinPath path rednodeAdmin) redMaxpathlen with
  | none => rw [hname] at h; cases h
  | some p =>
    obtain ⟨-, rfl⟩ := snprintf_eq_some.mp hname
    rw [hname] at h
    simp only at h ⊢
    rcases hcasesA with hsee | ⟨⟨-, hdir⟩, -⟩
    · have haccess : os.access w' (joinPath path rednodeAdmin) =
          os.access w (joinPath path rednodeAdmin) := congrArg Option.isSome (hsame hsee).1
      rw [haccess]
      by_cases hthere : os.access w (joinPath path rednodeAdmin) = true
      · rw [if_pos hthere] at h ⊢
        simp only [(hsame hsee).1, (hsame hsee).2]
        exact ⟨admin, h⟩
      · rw [if_neg hthere] at h ⊢
        cases hlegacy : snprintf (joinPath path legacyRednodeAdmin) redMaxpathlen with
        | none => rw [hlegacy] at h; cases h
        | some p =>
          obtain ⟨-, rfl⟩ := snprintf_eq_some.mp hlegacy
          rw [hlegacy] at h
          simp only at h ⊢
          rcases hcasesL with hseeL | ⟨⟨-, hdirL⟩, -⟩
          · rw [(hsame hseeL).1, (hsame hseeL).2]
            exact ⟨admin, h⟩
          · have hstatL : os.stat w' (joinPath path legacyRednodeAdmin) = some .directory := hdirL
            exact ⟨none, if_pos (by rw [hstatL]; decide)⟩
    · have hstatA : os.stat w' (joinPath path rednodeAdmin) = some .directory := hdir
      have hthere : os.access w' (joinPath path rednodeAdmin) = true := by
        rw [FileOs.access, hstatA]
        rfl
      rw [if_pos hthere]
      exact ⟨none, if_pos (by rw [hstatA]; decide)⟩

/-- The status of a rednode is not touched, and no other directory gets one. -/
theorem FilesKept.status (hkept : FilesKept os real made path w w') :
    os.stat w' (joinPath path rednodeStatus) = some .regular ↔
      os.stat w (joinPath path rednodeStatus) = some .regular := by
  rcases hkept rednodeStatus (by simp [nodeFileNames]) with hsee | ⟨⟨hnone, hdir⟩, -⟩
  · rw [show os.stat w' (joinPath path rednodeStatus) = os.stat w (joinPath path rednodeStatus)
      from congrArg Seen.kind hsee]
  · rw [show os.stat w (joinPath path rednodeStatus) = none from hnone,
      show os.stat w' (joinPath path rednodeStatus) = some .directory from hdir]
    exact iff_of_false (by decide) (by decide)

theorem loadConf_congr {p : CStr} (h : see os.toFileOs w' p = see os.toFileOs w p) :
    loadConf os.toFileOs w' p = loadConf os.toFileOs w p := by
  rw [loadConf, loadConf, show os.redLoadConfig w' p = os.redLoadConfig w p
    from congrArg Seen.config h]

theorem FileSystem.readable_of_loadConf (F : FileSystem os real) {p : CStr} {config : RedConfig}
    (h : loadConf os.toFileOs w p = .ok config) :
    os.stat w p ≠ none ∧ os.stat w p ≠ some .directory := by
  refine F.readable w p ?_
  unfold loadConf at h
  split at h
  · cases h
  · rename_i hsome
    rw [hsome]
    rfl

theorem FilesKept.normal (F : FileSystem os real) (hkept : FilesKept os real made path w w')
    (hfree : os.access w (joinPath path rednodeConf) = false →
      ∀ p ∈ made, real (joinPath path rednodeConf) ≠ real p) {p : CStr} {config : RedConfig}
    (hconf : confPath os.toFileOs w path rednodeConf legacyRednodeConf = some p)
    (hload : loadConf os.toFileOs w p = .ok config) :
    confPath os.toFileOs w' path rednodeConf legacyRednodeConf = some p ∧
      loadConf os.toFileOs w' p = .ok config := by
  have hthere := (F.readable_of_loadConf hload).1
  unfold confPath at hconf ⊢
  cases hname : snprintf (joinPath path rednodeConf) redMaxpathlen with
  | none => rw [hname] at hconf; cases hconf
  | some q =>
    obtain ⟨-, rfl⟩ := snprintf_eq_some.mp hname
    rw [hname] at hconf
    simp only at hconf ⊢
    by_cases haccess : os.access w (joinPath path rednodeConf) = true
    · rw [if_pos haccess] at hconf
      cases hconf
      have hsame := hkept.same (by simp [nodeFileNames]) hthere
      rw [if_pos (hkept.access (by simp [nodeFileNames]) haccess)]
      exact ⟨rfl, (loadConf_congr hsame).trans hload⟩
    · rw [if_neg haccess] at hconf
      obtain ⟨-, rfl⟩ := snprintf_eq_some.mp hconf
      have hstill : see os.toFileOs w' (joinPath path rednodeConf) =
          see os.toFileOs w (joinPath path rednodeConf) := by
        refine (hkept rednodeConf (by simp [nodeFileNames])).resolve_right ?_
        rintro ⟨-, q, hq, heq⟩
        exact hfree (by simpa using haccess) q hq heq
      have hlegacy : legacyRednodeConf ∈ nodeFileNames := by simp [nodeFileNames]
      have hsame := hkept.same hlegacy hthere
      have haccess' : ¬ os.access w' (joinPath path rednodeConf) = true := by
        rwa [FileOs.access, show os.stat w' (joinPath path rednodeConf) =
          os.stat w (joinPath path rednodeConf) from congrArg Seen.kind hstill]
      rw [if_neg haccess']
      exact ⟨hconf, (loadConf_congr hsame).trans hload⟩

/-- **A rednode loads as before**, if its files are kept. -/
theorem FilesKept.loads (F : FileSystem os real) (hkept : FilesKept os real made path w w')
    (hfree : NameFree os real made w path) (hne : path.bytes ≠ [])
    (hloads : LoadsIfRednode os w path) : LoadsIfRednode os w' path := by
  intro hstatus'
  have hstatus := hkept.status.mp hstatus'
  obtain ⟨loaded, hload⟩ := hloads hstatus
  obtain ⟨-, hroom, -, hredstatus, ⟨p, config, hconf, hconfig, -⟩, hadmin, -, -⟩ :=
    (redNodesLoad_ok os.toFileOs w).mp hload
  obtain ⟨admin', hadmin'⟩ := hkept.loadAdmin hadmin
  obtain ⟨hconf', hconfig'⟩ := hkept.normal F (hfree hstatus) hconf hconfig
  have hnamed : rednodeStatus ∈ nodeFileNames := by simp [nodeFileNames]
  have hseeS := hkept.same hnamed (by rw [hstatus]; exact Option.some_ne_none _)
  exact ⟨⟨{ config := some config, confadmin := admin', redpath := path }, loaded.status⟩,
    (redNodesLoad_ok os.toFileOs w').mpr
      ⟨F.isDirectory hne (by rw [hstatus']; exact Option.some_ne_none _), hroom, hstatus',
        (congrArg Seen.status hseeS).trans hredstatus, ⟨p, config, hconf', hconfig', rfl⟩, hadmin',
        rfl, rfl⟩⟩

theorem FilesKept.nameFree (hkept : FilesKept os real made path w w') {names : Set CStr}
    (hfree : NameFree os real names w path) : NameFree os real names w' path := by
  intro hstatus haccess
  refine hfree (hkept.status.mp hstatus) ?_
  by_contra hthere
  rw [hkept.access (by simp [nodeFileNames]) (by simpa using hthere)] at haccess
  cases haccess

/-- What the creation of a node leaves of a directory above. -/
structure Remains (os : FactoryOs ω) (real : CStr → φ) (path : CStr) (w w' : ω) : Prop where
  loads : LoadsIfRednode os w' path
  free : ∀ names, NameFree os real names w path → NameFree os real names w' path

theorem isValidAlias_aliasFor {nodeAlias : CStr} (h : isValidAlias nodeAlias = true)
    (admin : Bool) : isValidAlias (aliasFor nodeAlias admin) = true := by
  cases admin with
  | false => exact h
  | true => exact isValidAlias_append (by decide +kernel) h

theorem Copied.valid {params : NodeParam} {admin : Bool} {config : RedConfig}
    (h : Copied os w params admin config) (hvalid : isValidAlias params.nodeAlias = true) :
    isValidAlias config.headers.nodeAlias = true := by
  obtain ⟨template, -, hcopy⟩ := h
  rw [hcopy.nodeAlias]
  exact isValidAlias_aliasFor hvalid admin

variable {m m' : Machine ω} {params : NodeParam}

/-- **A new node loads** from each directory for which the loader finds its files. -/
theorem NodeCreated.loads (F : FileSystem os real) (hready : Ready m.fab) (htext : Textual m.fab)
    (hown : OwnStatus os real m.fab) (h : NodeCreated os params false m m')
    (hregular : os.stat m'.os (m.fab.place (getStatusSubpath os)) = some .regular)
    (hsought : Sought os real m.fab path)
    (hstarts : dottedStarts path ⊆ dottedStarts (nodeText m.fab)) (hne : path.bytes ≠ [])
    (hfit : (joinPath path rednodeAdmin).bytes.length < redMaxpathlen) :
    ∃ normal admin redstatus, Copied os m.os params false normal ∧
      Copied os m.os params true admin ∧
      redNodesLoad os.toFileOs m'.os path true =
        .ok ⟨nodeOf path normal admin, redstatus⟩ := by
  obtain ⟨hvalid, normal, admin, hnormal, hadmin, hfiles⟩ := h.files F hready htext hown hregular
  have hground := ((h.grounded F hready htext).mono hstarts).stays (h.changes F hready htext).stays
  obtain ⟨redstatus, hload⟩ := loads_of_files F hsought hground hne hfit hfiles
    (hnormal.valid hvalid) (hadmin.valid hvalid)
  exact ⟨normal, admin, redstatus, hnormal, hadmin, hload⟩

/-- The files of a new node are those of a directory, or none of them is. -/
def Apart (os : FactoryOs ω) (real : CStr → φ) (fab : RednodeFactory) (path : CStr) : Prop :=
  Sought os real fab path ∨ ClearOf real (nodePlaces os fab) path

theorem NodeCreated.status (F : FileSystem os real) (hready : Ready m.fab) (htext : Textual m.fab)
    (hown : OwnStatus os real m.fab) (h : NodeCreated os params false m m')
    (hapart : Apart os real m.fab path)
    (hstarts : dottedStarts path ⊆ dottedStarts (nodeText m.fab))
    (hstatus : os.stat m.os (joinPath path rednodeStatus) = some .regular) :
    os.stat m'.os (joinPath path rednodeStatus) = some .regular := by
  rcases hapart with hsought | hclear
  · have hname : rednodeStatus ∈ nodeFileNames := by simp [nodeFileNames]
    have hfile := namesFile_nodeFile path hname
    have hinside := (dottedStarts_nodeFile path hname).trans hstarts
    rw [h.stat_status F hready htext hfile hinside hsought.status]
    exact (h.regular_iff F hready htext hown hfile hinside hsought.status).mpr
      (by rw [hstatus]; decide)
  · have hground := (h.grounded F hready htext).mono hstarts
    exact ((h.changes F hready htext).files hclear hground).status.mpr hstatus

theorem NodeCreated.remains (F : FileSystem os real) (hready : Ready m.fab)
    (htext : Textual m.fab) (hown : OwnStatus os real m.fab)
    (h : NodeCreated os params false m m')
    (hregular : os.stat m'.os (m.fab.place (getStatusSubpath os)) = some .regular)
    (hne : path.bytes ≠ []) (hfit : (joinPath path rednodeAdmin).bytes.length < redMaxpathlen)
    (hapart : Apart os real m.fab path)
    (hstarts : dottedStarts path ⊆ dottedStarts (nodeText m.fab))
    (hfree : NameFree os real (nodeWays os m.fab) m.os path)
    (hloads : LoadsIfRednode os m.os path) : Remains os real path m.os m'.os := by
  have hchanges := h.changes F hready htext
  have hground := (h.grounded F hready htext).mono hstarts
  rcases hapart with hsought | hclear
  · obtain ⟨_, _, _, _, hfiles⟩ := (h.files F hready htext hown hregular).2
    obtain ⟨normal, admin, redstatus, -, -, hload⟩ :=
      h.loads F hready htext hown hregular hsought hstarts hne hfit
    obtain ⟨hfileN, hregularN⟩ := hfiles.regular _ (.inl rfl)
    have hname : rednodeConf ∈ nodeFileNames := by simp [nodeFileNames]
    have hseeN := F.same (w := m'.os) (namesFile_nodeFile path hname) hfileN
      (.inr ((hground.stays hchanges.stays).mono (dottedStarts_nodeFile path hname)))
      (.inl (by rw [hregularN]; exact Option.some_ne_none _)) hsought.normal
    have hstatN : os.stat m'.os (joinPath path rednodeConf) = some .regular :=
      (congrArg Seen.kind hseeN).trans hregularN
    refine ⟨fun _ => ⟨_, hload⟩, fun names _ _ hnone => ?_⟩
    rw [FileOs.access, hstatN] at hnone
    cases hnone
  · have hkept := hchanges.files hclear hground
    exact ⟨hkept.loads F hfree hne hloads, fun names => hkept.nameFree⟩

theorem remains_of_see (h : see os.toFileOs w' = see os.toFileOs w) (F : FileSystem os real)
    (hne : path.bytes ≠ []) (hloads : LoadsIfRednode os w path) : Remains os real path w w' := by
  have hkept : FilesKept os real ∅ path w w' := fun sub _ => .inl (congrFun h _)
  exact ⟨hkept.loads F (fun _ _ _ hp => hp.elim) hne hloads, fun names => hkept.nameFree⟩

/-- A directory that loads if it is a rednode does not stop the walk. -/
theorem not_stopped (hdir : os.stat w path = some .directory)
    (hroom : (joinPath path rednodeStatus).bytes.length < redMaxpathlen)
    (hloads : LoadsIfRednode os w path) :
    redNodesLoad os.toFileOs w path true ≠ .error .fx ∧
      redNodesLoad os.toFileOs w path true ≠ .error .fault := by
  by_cases hstatus : os.stat w (joinPath path rednodeStatus) = some .regular
  · obtain ⟨loaded, hload⟩ := hloads hstatus
    rw [hload]
    exact ⟨nofun, nofun⟩
  · rw [(redNodesLoad_missing os.toFileOs w).mpr ⟨hdir, hroom, hstatus⟩]
    exact ⟨by decide, by decide⟩

end

end Factory
end RedPak
