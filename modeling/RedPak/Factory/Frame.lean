import RedPak.Factory.Create

/-!
# Factory.Frame

What the functions of the factory leave of it. Directories are created and files stored behind the
node in `path`: the lengths, and the bytes before, are as they were.

* `setSubpathPath_spec`: the sub-path is put behind the node.
* `keepsOr_createNode`: a node is created by a factory that is left untouched.
-/

namespace RedPak
namespace Factory

open Conf Node Layered.Action
open Layered (Buffer)
open Layered.Buffer

/-- The lengths are the same, and the bytes up to the end of the node. -/
structure Untouched (fab fab' : RednodeFactory) : Prop where
  rootLength : fab'.rootLength = fab.rootLength
  nodeLength : fab'.nodeLength = fab.nodeLength
  bytes : slice fab'.path 0 fab.nodeLength = slice fab.path 0 fab.nodeLength

/-- A root is set. -/
structure Ready (fab : RednodeFactory) : Prop where
  root_pos : 0 < fab.rootLength
  root_le : fab.rootLength ≤ fab.nodeLength
  node_lt : fab.nodeLength < rednodeFactoryPathLen
  rootEnd : fab.path (fab.rootLength - 1) = slash

theorem Untouched.refl (fab : RednodeFactory) : Untouched fab fab := ⟨rfl, rfl, rfl⟩

theorem Untouched.trans {a b c : RednodeFactory} (h : Untouched a b) (h' : Untouched b c) :
    Untouched a c :=
  ⟨h'.rootLength.trans h.rootLength, h'.nodeLength.trans h.nodeLength, by
    rw [← h.bytes, ← h.nodeLength, h'.bytes]⟩

theorem Untouched.apply {fab fab' : RednodeFactory} (h : Untouched fab fab') {i : Nat}
    (hi : i < fab.nodeLength) : fab'.path i = fab.path i := by
  have hget : (slice fab'.path 0 fab.nodeLength)[i]? = (slice fab.path 0 fab.nodeLength)[i]? := by
    rw [h.bytes]
  rw [getElem?_slice i (by omega), getElem?_slice i (by omega), Nat.zero_add] at hget
  exact Option.some.inj hget

theorem Ready.untouched {fab fab' : RednodeFactory} (h : Ready fab) (h' : Untouched fab fab') :
    Ready fab' := by
  have hpos := h.root_pos
  have hle := h.root_le
  refine ⟨?_, ?_, ?_, ?_⟩
  · rw [h'.rootLength]; exact hpos
  · rw [h'.rootLength, h'.nodeLength]; exact hle
  · rw [h'.nodeLength]; exact h.node_lt
  · rw [h'.rootLength, h'.apply (by omega)]; exact h.rootEnd

/-! ## The array -/

section

variable {ω : Type} {m : Machine ω} {E : Fault → Machine ω → Prop}

theorem wp_copyPath {i : Nat} {bytes : List UInt8} {Q : Unit → Machine ω → Prop}
    (h : i + bytes.length ≤ rednodeFactoryPathLen) :
    wp (copyPath i bytes) Q E m ↔
      Q () { m with fab := { m.fab with path := writeAll m.fab.path i bytes } } := by
  simp only [copyPath, wp_bind, wp_get, if_pos h, wp_set]

theorem wp_pathString {Q : CStr → Machine ω → Prop}
    (h : (0 : UInt8) ∈ slice m.fab.path 0 rednodeFactoryPathLen) :
    wp pathString Q E m ↔ Q (CStr.ofBytes (slice m.fab.path 0 rednodeFactoryPathLen)) m := by
  simp only [pathString, wp_bind, wp_get, if_pos h, wp_pure]

theorem mem_slice {b : Buffer UInt8} {c : UInt8} {i j n : Nat} (hi : i ≤ n) (hn : n < j)
    (h : b n = c) : c ∈ slice b i j := by
  rw [slice, List.mem_map]
  exact ⟨n, List.mem_range'_1.mpr ⟨hi, by omega⟩, h⟩

theorem writeAll_back {b : Buffer UInt8} {i : Nat} {c d : UInt8} (h : b i = c) :
    writeAll (writeAll b i [d]) i [c] = b := by
  funext j
  by_cases hj : j = i
  · subst hj
    simp [writeAll, h]
  · rcases Nat.lt_or_ge j i with hlt | hge
    · simp [writeAll, Nat.not_le.mpr hlt]
    · rw [writeAll_of_ge (by simp; omega), writeAll_of_ge (by simp; omega)]

/-- The factory with a sub-path behind the node. -/
def RednodeFactory.over (fab : RednodeFactory) (subpath : CStr) : RednodeFactory :=
  { fab with path := writeAll fab.path fab.nodeLength (subpath.bytes ++ [0]) }

theorem untouched_over (fab : RednodeFactory) (subpath : CStr) :
    Untouched fab (fab.over subpath) :=
  ⟨rfl, rfl, slice_writeAll_of_le (Nat.le_refl _)⟩

/-- The path of a file of the node. -/
def RednodeFactory.place (fab : RednodeFactory) (subpath : CStr) : CStr :=
  CStr.ofBytes (slice fab.path 0 fab.nodeLength ++ subpath.bytes)

variable {subpath : CStr}

theorem slice_over {fab : RednodeFactory}
    (h : subpath.bytes.length + fab.nodeLength < rednodeFactoryPathLen) :
    ∃ rest, slice (fab.over subpath).path 0 rednodeFactoryPathLen =
      slice fab.path 0 fab.nodeLength ++ subpath.bytes ++ 0 :: rest := by
  have hfit : fab.nodeLength + (subpath.bytes ++ [0]).length ≤ rednodeFactoryPathLen := by
    rw [List.length_append, List.length_singleton]
    omega
  refine ⟨slice fab.path (fab.nodeLength + (subpath.bytes ++ [0]).length)
    rednodeFactoryPathLen, ?_⟩
  have hover : (fab.over subpath).path =
    writeAll fab.path fab.nodeLength (subpath.bytes ++ [0]) := rfl
  rw [hover, ← slice_append (Nat.zero_le fab.nodeLength) (Nat.le_of_add_right_le hfit),
    slice_writeAll_of_le (Nat.le_refl _), slice_writeAll_over hfit]
  simp

theorem wp_pathString_over {Q : CStr → Machine ω → Prop} {fab : RednodeFactory}
    (h : subpath.bytes.length + fab.nodeLength < rednodeFactoryPathLen)
    (hfab : m.fab = fab.over subpath) :
    wp pathString Q E m ↔ Q (fab.place subpath) m := by
  obtain ⟨rest, hslice⟩ := slice_over h
  rw [wp_pathString (by rw [hfab, hslice]; simp), hfab, hslice, CStr.ofBytes_append_zero]
  rfl

theorem pathString_over {fab : RednodeFactory}
    (h : subpath.bytes.length + fab.nodeLength < rednodeFactoryPathLen)
    (hfab : m.fab = fab.over subpath) : pathString m = .ok (fab.place subpath) m := by
  have hwp : wp pathString (fun path m' => path = fab.place subpath ∧ m' = m)
      (fun _ _ => False) m := (wp_pathString_over h hfab).mpr ⟨rfl, rfl⟩
  obtain ⟨_, _, hrun, rfl, rfl⟩ := exists_ok hwp
  exact hrun

/-! ## Directories -/

variable (os : FactoryOs ω)

/-- What holds of the file system and of the record is kept by all calls that store nothing. -/
structure OsKeeps (R : ω → List CStr → Prop) : Prop where
  mkdir : ∀ w L path, R w L → R (os.mkdir w path).2 L
  malloc : ∀ w L, R w L → R (os.malloc w).2 L
  freshUUID : ∀ w L, R w L → R (os.freshUUID w).2 L

/-- It is kept by the storing of a file too. -/
structure StoreKeeps (R : ω → List CStr → Prop) : Prop extends OsKeeps os R where
  redSaveConfig : ∀ w L path config, R w L → R (os.redSaveConfig w path config).2
    (recorded path (os.redSaveConfig w path config).1 L)
  redSaveStatus : ∀ w L path status, R w L → R (os.redSaveStatus w path status).2
    (recorded path (os.redSaveStatus w path status).1 L)

variable {os} {R : ω → List CStr → Prop} {F : RednodeFactory}

theorem storeKeeps_true : StoreKeeps os fun _ _ => True where
  mkdir _ _ _ _ := trivial
  malloc _ _ _ := trivial
  freshUUID _ _ _ := trivial
  redSaveConfig _ _ _ _ _ := trivial
  redSaveStatus _ _ _ _ _ := trivial

/-- The factory stays, and the property. -/
def Same (R : ω → List CStr → Prop) (F : RednodeFactory) (m : Machine ω) : Prop :=
  R m.os m.stored ∧ m.fab = F

/-- No fault. -/
def never : Fault → Machine ω → Prop := fun _ _ => False

theorem keepsOr_mkdir (hR : OsKeeps os R) (path : CStr) :
    KeepsOr (Same R F) never (mkdir os path) := fun _ hm =>
  ⟨hR.mkdir _ _ path hm.1, hm.2⟩

theorem keepsOr_makeDirectory (hR : OsKeeps os R) (tmp : List UInt8) (chk : Bool) :
    KeepsOr (Same R F) never (makeDirectory os tmp chk) := by
  refine KeepsOr.get_bind fun t _ => ?_
  cases chk with
  | false => exact (keepsOr_mkdir hR _).bind fun made => keepsOr_pure _
  | true =>
    cases os.stat t.os (CStr.ofBytes tmp) with
    | none => exact (keepsOr_mkdir hR _).bind fun made => keepsOr_pure _
    | some kind =>
      cases kind <;> exact keepsOr_pure _

theorem keepsOr_advanceDirectories (hR : OsKeeps os R) (rest : List UInt8) :
    ∀ tmp named chk, KeepsOr (Same R F) never (advanceDirectories os tmp rest named chk) := by
  induction rest with
  | nil =>
    intro tmp named chk
    cases named with
    | false => exact keepsOr_pure _
    | true => exact (keepsOr_makeDirectory hR tmp chk).bind fun made => keepsOr_pure _
  | cons c rest ih =>
    intro tmp named chk
    unfold advanceDirectories
    refine KeepsOr.ite (fun _ => ?_) fun _ => ih _ _ _
    refine (keepsOr_makeDirectory hR tmp chk).bind fun made => ?_
    cases made with
    | none => exact keepsOr_pure _
    | some chk => exact ih _ _ _

theorem keepsOr_makeDirectories (hR : OsKeeps os R) (path : Buffer UInt8) (base length : Nat) :
    KeepsOr (Same R F) never (makeDirectories os path base length) := by
  unfold makeDirectories
  cases directoriesBase path base length with
  | none => exact keepsOr_pure _
  | some idx =>
    refine KeepsOr.get_bind fun t _ => KeepsOr.ite (fun _ => keepsOr_pure _) fun _ => ?_
    exact keepsOr_advanceDirectories hR _ _ _ _

theorem rootExists_spec (h : Ready m.fab) :
    wp (rootExists os m.fab.rootLength) (fun _ m' => m' = m) never m := by
  have hpos := h.root_pos
  have hle := h.root_le
  have hlt := h.node_lt
  unfold rootExists
  rw [wp_ite]
  split
  · have hwrite : m.fab.rootLength - 1 + [(0 : UInt8)].length ≤ rednodeFactoryPathLen := by
      rw [List.length_singleton]
      omega
    have hback : m.fab.rootLength - 1 + [slash].length ≤ rednodeFactoryPathLen := hwrite
    have hzero : writeAll m.fab.path (m.fab.rootLength - 1) [0] (m.fab.rootLength - 1) = 0 := by
      simp [writeAll]
    rw [wp_bind, wp_copyPath hwrite, wp_bind,
      wp_pathString (mem_slice (Nat.zero_le _) (by omega) hzero)]
    simp only [wp_bind, wp_get]
    rw [wp_copyPath hback, wp_pure, writeAll_back h.rootEnd]
  · rfl

theorem createDirectories_spec (hR : OsKeeps os R) (h : Ready m.fab) (hm : R m.os m.stored)
    (length : Nat) :
    wp (createDirectories os m.fab.rootLength length) (fun _ => Same R m.fab) never m := by
  unfold createDirectories
  refine wp_bind.mpr (wp_mono (rootExists_spec h) ?_ fun _ _ he => he)
  rintro exist _ rfl
  rw [wp_ite]
  split
  · rw [wp_bind, wp_get, wp_bind]
    refine wp_mono (keepsOr_makeDirectories hR _ _ _ _ ⟨hm, rfl⟩) ?_ fun _ _ he => he
    intro made m' hm'
    rw [wp_ite]
    split <;> exact hm'
  · exact ⟨hm, rfl⟩

/-- **A sub-path is put behind the node**, if it fits there. -/
theorem setSubpathPath_spec (hR : OsKeeps os R) (h : Ready m.fab) (hm : R m.os m.stored) :
    wp (setSubpathPath os subpath true)
      (fun status m' =>
        (status = failed .pathTooLong ∧ m' = m) ∨
        (subpath.bytes.length + m.fab.nodeLength < rednodeFactoryPathLen ∧
          Same R (m.fab.over subpath) m'))
      never m := by
  unfold setSubpathPath
  rw [wp_bind, wp_get, wp_ite]
  split
  · exact .inl ⟨rfl, rfl⟩
  · rename_i hlen
    have hfit : m.fab.nodeLength + (subpath.bytes ++ [0]).length ≤ rednodeFactoryPathLen := by
      rw [List.length_append, List.length_singleton]
      omega
    rw [wp_bind, wp_copyPath hfit, if_pos rfl, createParentDirectories, wp_bind, wp_get]
    have hready : Ready (m.fab.over subpath) := h.untouched (untouched_over _ _)
    refine wp_mono (createDirectories_spec hR (m := ⟨m.fab.over subpath, m.os, m.stored⟩) hready
      hm _) ?_ fun _ _ he => he
    intro status m' hm'
    exact .inr ⟨by omega, hm'⟩

/-! ## Nodes -/

/-- The only fault: headers that are not there are copied. -/
def nullOnly : Fault → Machine ω → Prop := fun fault _ => fault = .nullString

/-- The factory is left untouched, and the property is kept. -/
def Kept (R : ω → List CStr → Prop) (fab : RednodeFactory) (m : Machine ω) : Prop :=
  R m.os m.stored ∧ Untouched fab m.fab

variable {fab : RednodeFactory}

theorem never_nullOnly (fault : Fault) (m : Machine ω) (h : never fault m) : nullOnly fault m :=
  h.elim

theorem keepsOr_createDirectories (hR : OsKeeps os R) (h : Ready fab) (length : Nat) :
    KeepsOr (Kept R fab) nullOnly (createDirectories os fab.rootLength length) := by
  rintro m ⟨hm, hfab⟩
  have hspec := createDirectories_spec (m := m) hR (h.untouched hfab) hm length
  rw [hfab.rootLength] at hspec
  refine wp_mono hspec (fun status m' hm' => ⟨hm'.1, ?_⟩) never_nullOnly
  rw [hm'.2]
  exact hfab

/-- What is done with the path once the sub-path is behind the node. -/
theorem keepsOr_withPath {α : Type} (hR : OsKeeps os R) (h : Ready fab) (subpath : CStr)
    {bad : Int → α} {good : CStr → FactoryM ω α}
    (hgood : ∀ path, KeepsOr (Kept R fab) nullOnly (good path)) :
    KeepsOr (Kept R fab) nullOnly (do
      let status ← setSubpathPath os subpath true
      if status ≠ rednodeFactoryOk then pure (bad status)
      else
        let path ← pathString
        good path) := by
  rintro m ⟨hm, hfab⟩
  refine wp_bind.mpr (wp_mono (setSubpathPath_spec hR (h.untouched hfab) hm) ?_ never_nullOnly)
  rintro status m' (⟨rfl, rfl⟩ | ⟨hfit, hm', hover⟩)
  · rw [if_pos (by decide)]
    exact ⟨hm, hfab⟩
  · have hkept : Kept R fab m' := by
      refine ⟨hm', ?_⟩
      rw [hover]
      exact hfab.trans (untouched_over _ _)
    rw [wp_ite]
    split
    · exact hkept
    · rw [wp_bind, wp_pathString_over hfit hover]
      exact hgood _ m' hkept

theorem keepsOr_redSaveConfig (hR : StoreKeeps os R) (path : CStr) (redconfig : RedConfig) :
    KeepsOr (Kept R fab) nullOnly (redSaveConfig os path redconfig) :=
  fun _ hm => ⟨hR.redSaveConfig _ _ path redconfig hm.1, hm.2⟩

theorem keepsOr_redSaveStatus (hR : StoreKeeps os R) (path : CStr) (redstatus : RedStatus) :
    KeepsOr (Kept R fab) nullOnly (redSaveStatus os path redstatus) :=
  fun _ hm => ⟨hR.redSaveStatus _ _ path redstatus hm.1, hm.2⟩

theorem keepsOr_storeConfig (hR : StoreKeeps os R) (h : Ready fab) (redconfig : RedConfig)
    (update : Bool) :
    KeepsOr (Kept R fab) nullOnly (storeConfig os subpath redconfig update) := by
  refine keepsOr_withPath hR.toOsKeeps h subpath fun path => KeepsOr.get_bind fun t _ => ?_
  refine KeepsOr.ite (fun _ => keepsOr_pure _) fun _ => ?_
  refine (keepsOr_redSaveConfig hR path redconfig).bind fun saved => ?_
  exact KeepsOr.ite (fun _ => keepsOr_pure _) fun _ => keepsOr_pure _

theorem keepsOr_storeStatus (hR : StoreKeeps os R) (h : Ready fab) (redstatus : RedStatus) :
    KeepsOr (Kept R fab) nullOnly (storeStatus os subpath redstatus) := by
  refine keepsOr_withPath hR.toOsKeeps h subpath fun path => ?_
  refine (keepsOr_redSaveStatus hR path redstatus).bind fun saved => ?_
  exact KeepsOr.ite (fun _ => keepsOr_pure _) fun _ => keepsOr_pure _

theorem keepsOr_malloc (hR : OsKeeps os R) : KeepsOr (Kept R fab) nullOnly (malloc os) :=
  fun _ hm => ⟨hR.malloc _ _ hm.1, hm.2⟩

theorem keepsOr_getFreshUUID (hR : OsKeeps os R) :
    KeepsOr (Kept R fab) nullOnly (getFreshUUID os) :=
  fun _ hm => ⟨hR.freshUUID _ _ hm.1, hm.2⟩

theorem keepsOr_updateConfigHeaders (hR : OsKeeps os R) (h : Ready fab) (config : RedConfig)
    (subpath : CStr) :
    KeepsOr (Kept R fab) nullOnly (updateConfigHeaders os config subpath) := by
  refine keepsOr_withPath hR h subpath fun path => KeepsOr.get_bind fun t _ => ?_
  cases os.redLoadConfig t.os path with
  | none => exact keepsOr_pure _
  | some prvcfg =>
    refine KeepsOr.ite (fun _ => keepsOr_pure _) fun _ => ?_
    cases prvcfg.headers.info with
    | none => exact fun _ _ => rfl
    | some hInfo =>
      cases prvcfg.headers.name with
      | none => exact fun _ _ => rfl
      | some hName =>
        exact (keepsOr_malloc hR).bind fun _ => KeepsOr.ite (fun _ => keepsOr_pure _)
          fun _ => keepsOr_pure _

theorem keepsOr_makeConfigHeaders (hR : OsKeeps os R) (config : RedConfig) (nodeAlias : CStr)
    (admin : Bool) :
    KeepsOr (Kept R fab) nullOnly (makeConfigHeaders os config nodeAlias admin) := by
  refine KeepsOr.get_bind fun t _ => ?_
  cases os.expand t.os freshInfo with
  | none => exact keepsOr_pure _
  | some hInfo =>
    refine (keepsOr_malloc hR).bind fun _ => KeepsOr.ite (fun _ => ?_) fun _ => keepsOr_pure _
    exact (keepsOr_getFreshUUID hR).bind fun _ => keepsOr_pure _

theorem keepsOr_configHeaders (hR : OsKeeps os R) (h : Ready fab) (config : RedConfig)
    (params : NodeParam) (admin update : Bool) :
    KeepsOr (Kept R fab) nullOnly (configHeaders os config params admin update) :=
  KeepsOr.ite (fun _ => keepsOr_updateConfigHeaders hR h config _)
    fun _ => keepsOr_makeConfigHeaders hR config _ admin

theorem keepsOr_prepareNode (hR : OsKeeps os R) (h : Ready fab) (params : NodeParam)
    (update : Bool) :
    KeepsOr (Kept R fab) nullOnly (prepareNode os params update) := by
  refine KeepsOr.get_bind fun t _ => ?_
  cases loadTemplateConfig os t.os params false with
  | error e => exact keepsOr_pure _
  | ok normalConfig =>
    refine (keepsOr_configHeaders hR h normalConfig params false update).bind fun headed => ?_
    cases headed with
    | error e => exact keepsOr_pure _
    | ok normalConfig =>
      refine KeepsOr.get_bind fun t _ => ?_
      cases loadTemplateConfig os t.os params true with
      | error e => exact keepsOr_pure _
      | ok adminConfig =>
        refine (keepsOr_configHeaders hR h adminConfig params true update).bind fun headed => ?_
        cases headed <;> exact keepsOr_pure _

theorem keepsOr_storeNode (hR : StoreKeeps os R) (h : Ready fab)
    (normalConfig adminConfig : RedConfig) (timestamp : Nat) (today : CStr) (update : Bool) :
    KeepsOr (Kept R fab) nullOnly
      (storeNode os normalConfig adminConfig timestamp today update) := by
  refine (keepsOr_storeConfig hR h normalConfig update).bind fun _ =>
    KeepsOr.ite (fun _ => keepsOr_pure _) fun _ => ?_
  refine (keepsOr_storeConfig hR h adminConfig update).bind fun _ =>
    KeepsOr.ite (fun _ => keepsOr_pure _) fun _ => KeepsOr.get_bind fun _ _ => ?_
  exact keepsOr_storeStatus hR h _

/-- **A node is created** by a factory that is left untouched. -/
theorem keepsOr_createNode (hR : StoreKeeps os R) (h : Ready fab) (params : NodeParam)
    (update : Bool) : KeepsOr (Kept R fab) nullOnly (createNode os params update) := by
  refine KeepsOr.ite (fun _ => keepsOr_pure _) fun _ => KeepsOr.get_bind fun t _ =>
    KeepsOr.ite (fun _ => keepsOr_pure _) fun _ => ?_
  refine (keepsOr_prepareNode hR.toOsKeeps h params update).bind fun configs => ?_
  cases configs with
  | error e => exact keepsOr_pure _
  | ok configs =>
    refine KeepsOr.get_bind fun m hm => ?_
    have hdirs := keepsOr_createDirectories hR.toOsKeeps h m.fab.nodeLength
    rw [← hm.2.rootLength] at hdirs
    exact hdirs.bind fun status =>
      KeepsOr.ite (fun _ => keepsOr_pure _) fun _ => keepsOr_storeNode hR h _ _ _ _ update

/-! ## The system node -/

theorem nodeBytes_length_le (fab : RednodeFactory) : (nodeBytes fab).length ≤ fab.nodeLength := by
  have hle := (List.rdropWhile_prefix (· == slash) (slice fab.path 0 fab.nodeLength)).length_le
  rw [length_slice, Nat.sub_zero] at hle
  exact hle

theorem nodeOffset_le (fab : RednodeFactory) : nodeOffset fab ≤ fab.nodeLength :=
  (List.rdropWhile_prefix (· != slash) (nodeBytes fab)).length_le.trans (nodeBytes_length_le fab)

theorem ready_sysfab (h : Ready fab) (hoff : fab.rootLength ≤ nodeOffset fab) :
    Ready (sysfab os fab (nodeOffset fab)) := by
  have hpos := h.root_pos
  have hle := nodeOffset_le fab
  refine ⟨hpos, hoff, Nat.lt_of_le_of_lt hle h.node_lt, ?_⟩
  have hbyte : (slice fab.path 0 (nodeOffset fab))[fab.rootLength - 1]? = some slash := by
    rw [getElem?_slice _ (by omega), Nat.zero_add, h.rootEnd]
  show writeAll os.stack 0 (slice fab.path 0 (nodeOffset fab)) (fab.rootLength - 1) = slash
  rw [writeAll, if_pos (Nat.zero_le _), Nat.sub_zero, hbyte]
  rfl

theorem createRootNode_spec (hR : StoreKeeps os R) (h : Ready m.fab) (hm : R m.os m.stored)
    (hoff : m.fab.rootLength ≤ nodeOffset m.fab) (templatedir : CStr) :
    wp (createRootNode os (nodeOffset m.fab) templatedir) (fun _ => Same R m.fab) nullOnly m := by
  unfold createRootNode
  rw [wp_bind, wp_get, wp_bind, wp_set, wp_bind]
  refine wp_mono (keepsOr_createNode hR (ready_sysfab h hoff) _ false _
    ⟨hm, Untouched.refl _⟩) (fun status m' hm' => ?_) fun _ _ he => he
  rw [wp_bind, wp_modify, wp_pure]
  exact ⟨hm'.1, rfl⟩

theorem requireSystem_spec (hR : StoreKeeps os R) (h : Ready m.fab) (hm : R m.os m.stored)
    (mode : RednodeFactoryMode) (templatedir : CStr) :
    wp (requireSystem os mode templatedir) (fun _ => Same R m.fab) nullOnly m := by
  unfold requireSystem
  simp only [wp_bind, wp_get, wp_ite, wp_pure]
  split
  · exact ⟨hm, rfl⟩
  · split
    · exact ⟨hm, rfl⟩
    · rename_i hoff
      split
      · exact ⟨hm, rfl⟩
      · exact createRootNode_spec hR h hm (Nat.not_lt.mp hoff) templatedir

theorem localias_spec (hR : OsKeeps os R) (hm : R m.os m.stored) (given : Option CStr) :
    wp (localias os m.fab given) (fun _ => Same R m.fab) never m := by
  have hdeduced : wp (localias.deduced os m.fab) (fun _ => Same R m.fab) never m := by
    unfold localias.deduced
    rw [wp_ite]
    split
    · exact ⟨hm, rfl⟩
    · have hmalloc : wp (malloc os) (fun _ => Same R m.fab) never m := ⟨hR.malloc _ _ hm, rfl⟩
      refine wp_bind.mpr (wp_mono hmalloc (fun there m' hm' => ?_) fun _ _ he => he)
      rw [wp_ite]
      split <;> exact hm'
  cases given with
  | none => exact hdeduced
  | some nodeAlias =>
    unfold localias
    rw [wp_ite]
    split
    · exact ⟨hm, rfl⟩
    · exact hdeduced

/-- **`rednode_factory_create_node`** leaves the factory untouched. -/
theorem createNode_untouched (hR : StoreKeeps os R) (h : Ready m.fab) (hm : R m.os m.stored)
    (params : Option RednodeFactoryParam) (update : Bool) (mode : RednodeFactoryMode) :
    wp (rednodeFactoryCreateNode os params update mode) (fun _ => Kept R m.fab) nullOnly m := by
  unfold rednodeFactoryCreateNode
  rw [wp_bind, wp_get, wp_ite, if_neg (Nat.ne_of_gt h.root_pos), wp_bind]
  refine wp_mono (localias_spec hR.toOsKeeps hm _) (fun nodeAlias m₁ hm₁ => ?_) never_nullOnly
  have hkept : ∀ m', Same R m.fab m' → Kept R m.fab m' := fun m' hm' =>
    ⟨hm'.1, by rw [hm'.2]; exact Untouched.refl _⟩
  cases nodeAlias with
  | error e => exact hkept m₁ hm₁
  | ok nodeAlias =>
    have hsystem := requireSystem_spec hR (by rw [hm₁.2]; exact h) hm₁.1 mode
      ((params.getD {}).templatedir.getD (getTemplateDir os))
    refine wp_bind.mpr (wp_mono hsystem (fun status m₂ hm₂ => ?_) fun _ _ he => he)
    rw [hm₁.2] at hm₂
    rw [wp_ite]
    split
    · exact hkept m₂ hm₂
    · exact keepsOr_createNode hR h _ update m₂ (hkept m₂ hm₂)

end

end Factory
end RedPak
