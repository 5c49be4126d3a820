import RedPak.Factory.Atomic
import RedPak.Factory.Disk

/-!
# Factory.AtomicCall

When `rednode_factory_create_node` is atomic. In legacy mode it may create a system node first, and
nothing removes it when the node itself is refused then; the status file is stored without a look
at what is there.

* `create_atomic_iff`: the calls that are atomic.
-/

namespace RedPak
namespace Factory

open Conf Node Layered.Action
open Layered (Buffer)
open Layered.Buffer

section

variable {ω : Type} (os : FactoryOs ω)

/-! ## What is there and what is not -/

/-- No call removes a file or a directory. -/
def Persistent : Prop := ∀ path, StoreKeeps os fun w _ => os.access w path = true

/-- What existed at the start of the call is still there. -/
def Later (w w' : ω) : Prop := ∀ path, os.access w path = true → os.access w' path = true

/-- The headers that an update copies are not there. -/
def HeadersMissing (params : NodeParam) (update : Bool) (m : Machine ω) : Prop :=
  isValidAlias params.nodeAlias = true ∧ (os.dateOfToday m.os).bytes ≠ [] ∧
    ∃ fault m', prepareNode os params update m = .error fault m'

variable {os} {m m' : Machine ω} {w : ω}

theorem Persistent.later (h : Persistent os) : StoreKeeps os fun w' _ => Later os w w' where
  mkdir w' L path hw := fun p hp => (h p).mkdir w' L path (hw p hp)
  malloc w' L hw := fun p hp => (h p).malloc w' L (hw p hp)
  freshUUID w' L hw := fun p hp => (h p).freshUUID w' L (hw p hp)
  redSaveConfig w' L path config hw := fun p hp => (h p).redSaveConfig w' L path config (hw p hp)
  redSaveStatus w' L path status hw := fun p hp => (h p).redSaveStatus w' L path status (hw p hp)

theorem Persistent.later_stored (h : Persistent os) (L₀ : List CStr) :
    OsKeeps os fun w' L => Later os w w' ∧ L = L₀ where
  mkdir w' L path hkept := ⟨h.later.mkdir w' L path hkept.1, hkept.2⟩
  malloc w' L hkept := ⟨h.later.malloc w' L hkept.1, hkept.2⟩
  freshUUID w' L hkept := ⟨h.later.freshUUID w' L hkept.1, hkept.2⟩

theorem Later.not_there {w' : ω} (h : Later os w w') {path : CStr}
    (hpath : os.access w' path = false) : os.access w path = false := by
  by_contra hne
  rw [h path (by simpa using hne)] at hpath
  cases hpath

theorem Untouched.place {fab fab' : RednodeFactory} (h : Untouched fab fab') (subpath : CStr) :
    fab'.place subpath = fab.place subpath := by
  unfold RednodeFactory.place
  rw [h.nodeLength, h.bytes]

/-- A config that may not be overwritten was not there before the call. -/
theorem Stored.fresh (hos : Persistent os) (hready : Ready m.fab) (hm : Later os w m.os)
    {subpath : CStr} {config : RedConfig} {update : Bool}
    (h : Stored os (configFile os subpath config update) m m') :
    Later os w m'.os ∧ (update = false → os.access w (m.fab.place subpath) = false) := by
  obtain ⟨m₁, hdue, -, rfl⟩ := h
  have hlater : Later os w m₁.os :=
    (hdue.frame (R := fun w' _ => Later os w w') hos.later.toOsKeeps hready hm).1
  refine ⟨hos.later.redSaveConfig m₁.os [] _ config hlater, ?_⟩
  rintro rfl
  have hallowed := hdue.allowed
  exact hlater.not_there (by simpa [configFile] using hallowed)

/-- Of the files of a new node, the status alone may have been there. -/
theorem NodeStored.fresh_iff (hos : Persistent os) (hready : Ready m.fab) (hm : Later os w m.os)
    {c : NodeContent} (h : NodeStored os c false m m') :
    (∀ path ∈ m'.stored, os.access w path = false) ↔
      (∀ path ∈ m.stored, os.access w path = false) ∧
        os.access w (m.fab.place (getStatusSubpath os)) = false := by
  obtain ⟨m₁, m₂, hnormal, hadmin, hstatus⟩ := h
  obtain ⟨hlater₁, hfresh₁⟩ := hnormal.fresh hos hready hm
  obtain ⟨hfab₁, hstored₁⟩ := hnormal.frame hready
  have hready₁ := hready.untouched hfab₁
  obtain ⟨hlater₂, hfresh₂⟩ := hadmin.fresh hos hready₁ hlater₁
  obtain ⟨hfab₂, hstored₂⟩ := hadmin.frame hready₁
  obtain ⟨-, hstored₃⟩ := hstatus.frame (hready₁.untouched hfab₂)
  have hplace := (hfab₁.trans hfab₂).place (getStatusSubpath os)
  rw [hstored₃, hstored₂, hstored₁]
  simp only [List.forall_mem_cons]
  constructor
  · rintro ⟨hlast, -, -, hbefore⟩
    refine ⟨hbefore, ?_⟩
    rw [← hplace]
    exact hlast
  · rintro ⟨hbefore, hlast⟩
    rw [← hplace] at hlast
    exact ⟨hlast, hfresh₂ rfl, hfresh₁ rfl, hbefore⟩

theorem NodeCreated.fresh_iff (hos : Persistent os) (hready : Ready m.fab) (hm : Later os w m.os)
    {params : NodeParam} (h : NodeCreated os params false m m') :
    (∀ path ∈ m'.stored, os.access w path = false) ↔
      (∀ path ∈ m.stored, os.access w path = false) ∧
        os.access w (m.fab.place (getStatusSubpath os)) = false := by
  obtain ⟨c, m₁, hprepared, hstored⟩ := h
  obtain ⟨m₂, hconfigs, hdirs⟩ := hprepared.configs
  -- the file system goes on, and nothing is stored
  have hR : OsKeeps os fun w' L => Later os w w' ∧ L = m.stored := hos.later_stored m.stored
  have hkept := wp_ok (keepsOr_prepareNode hR hready params false m
    ⟨⟨hm, rfl⟩, Untouched.refl _⟩) hconfigs
  have hdirs := wp_ok (createDirectories_spec hR (hready.untouched hkept.2) hkept.1 _) hdirs
  have hfab : Untouched m.fab m₁.fab := by
    rw [hdirs.2]
    exact hkept.2
  rw [hstored.fresh_iff hos (hready.untouched hfab) hdirs.1.1, hdirs.1.2, hfab.place]

/-! ## One node -/

theorem storeNode_succeeds_iff (hready : Ready m.fab) (c : NodeContent) (update : Bool) :
    Succeeds (storeNode os c.normal c.admin c.timestamp c.today update) m ↔
      ∃ m', NodeStored os c update m m' := by
  have hconfig : failed .storingConfig ≠ rednodeFactoryOk := by decide
  rw [storeNode_eq, andThen_succeeds_iff, storeConfig_eq, storeFile_succeeds_iff hready hconfig]
  simp only [storeFile_ok_iff hready hconfig]
  constructor
  · rintro ⟨⟨m₁, hnormal⟩, hthen⟩
    have hframe := hnormal.frame hready
    obtain ⟨m₂, m', hadmin, hstatus⟩ := (storeRest_succeeds_iff hframe.1
      (hready.untouched hframe.1) _ _ _ update).mp (hthen m₁ hnormal)
    exact ⟨m', m₁, m₂, hnormal, hadmin, hstatus⟩
  · rintro ⟨m', m₁, m₂, hnormal, hadmin, hstatus⟩
    refine ⟨⟨m₁, hnormal⟩, fun m₃ hnormal' => ?_⟩
    rw [hnormal'.unique hnormal]
    have hframe := hnormal.frame hready
    exact (storeRest_succeeds_iff hframe.1 (hready.untouched hframe.1) _ _ _ update).mpr
      ⟨m₂, m', hadmin, hstatus⟩

theorem createNode_error_iff (params : NodeParam) (update : Bool)
    (hnot : ∀ c m₁, ¬ Prepared os params update c m m₁) (hready : Ready m.fab) :
    (∃ fault m', createNode os params update m = .error fault m') ↔
      HeadersMissing os params update m := by
  rw [createNode_run]
  unfold HeadersMissing
  split
  · rename_i halias
    refine iff_of_false (fun ⟨_, _, h⟩ => by cases h) fun ⟨h, _⟩ => ?_
    rw [h] at halias
    cases halias
  · rename_i halias
    split
    · rename_i hdate
      exact iff_of_false (fun ⟨_, _, h⟩ => by cases h) fun ⟨_, h, _⟩ => h hdate
    · rename_i hdate
      have hvalid : isValidAlias params.nodeAlias = true := by simpa using halias
      cases hprepare : prepareNode os params update m with
      | error fault m₁ => exact iff_of_true ⟨fault, m₁, rfl⟩ ⟨hvalid, hdate, fault, m₁, rfl⟩
      | ok configs m₁ =>
        refine iff_of_false ?_ fun ⟨_, _, _, _, h⟩ => by cases h
        cases configs with
        | error e => exact fun ⟨_, _, h⟩ => by cases h
        | ok configs =>
          rintro ⟨fault, m', hrun⟩
          have hsame : OsKeeps os fun _ _ => True := storeKeeps_true.toOsKeeps
          have hkept := wp_ok (keepsOr_prepareNode hsame hready params update m
            ⟨trivial, Untouched.refl _⟩) hprepare
          obtain ⟨status, m₂, hdirs, -⟩ := exists_ok (createDirectories_spec hsame
            (hready.untouched hkept.2) trivial m₁.fab.nodeLength)
          have hne : status ≠ rednodeFactoryOk := by
            rintro rfl
            exact hnot ⟨configs.1, configs.2, os.redUtcGetTimeMs m.os, os.dateOfToday m.os⟩ m₂
              ⟨hvalid, hdate, rfl, rfl, m₁, hprepare, hdirs⟩
          have heq := (andThen_of_failed hdirs hne).symm.trans hrun
          cases heq

theorem createNode_succeeds_iff (hready : Ready m.fab) (params : NodeParam) (update : Bool) :
    Succeeds (createNode os params update) m ↔
      HeadersMissing os params update m ∨ ∃ m', NodeCreated os params update m m' := by
  rcases @createNode_cases _ os _ hready params update with
    ⟨hnot, hfails⟩ | ⟨c, m₁, hprepared, hfab, -, hrun⟩
  · have hcreated : ¬ ∃ m', NodeCreated os params update m m' := fun ⟨m', c, m₁, h, _⟩ =>
      hnot c m₁ h
    rw [or_iff_left hcreated, ← createNode_error_iff params update hnot hready]
    constructor
    · intro hsucceeds
      cases heq : createNode os params update m with
      | error fault m' => exact ⟨fault, m', rfl⟩
      | ok status m' => exact absurd (hsucceeds status m' heq) (hfails status m' heq).1
    · rintro ⟨fault, m', heq⟩ status m'' heq'
      rw [heq] at heq'
      cases heq'
  · have hmissing : ¬ HeadersMissing os params update m := by
      rintro ⟨-, -, fault, m', hfault⟩
      obtain ⟨m₂, hconfigs, -⟩ := hprepared.configs
      rw [hfault] at hconfigs
      cases hconfigs
    have hsame : Succeeds (createNode os params update) m ↔
        Succeeds (storeNode os c.normal c.admin c.timestamp c.today update) m₁ := by
      refine forall₂_congr fun status m' => ?_
      rw [hrun]
    rw [or_iff_right hmissing, hsame, storeNode_succeeds_iff (hready.untouched hfab)]
    constructor
    · rintro ⟨m', hstored⟩
      exact ⟨m', c, m₁, hprepared, hstored⟩
    · rintro ⟨m', c', m₂, hprepared', hstored⟩
      obtain ⟨rfl, rfl⟩ := hprepared.unique hprepared'
      exact ⟨m', hstored⟩

/-! ## The system node -/

theorem nodeOffset_slash {fab : RednodeFactory} (h : 0 < nodeOffset fab) :
    fab.path (nodeOffset fab - 1) = slash := by
  have hne : (nodeBytes fab).rdropWhile (· != slash) ≠ [] := List.length_pos_iff.mp h
  have hlast : ((nodeBytes fab).rdropWhile (· != slash)).getLast hne = slash := by
    simpa using List.rdropWhile_last_not (· != slash) (nodeBytes fab) hne
  have hstarts : (nodeBytes fab).rdropWhile (· != slash) <+: slice fab.path 0 fab.nodeLength :=
    (List.rdropWhile_prefix _ _).trans (List.rdropWhile_prefix _ _)
  have hget := (List.prefix_iff_getElem?.mp hstarts) (nodeOffset fab - 1) (Nat.sub_one_lt_of_lt h)
  have hlt : nodeOffset fab - 1 < fab.nodeLength :=
    Nat.lt_of_lt_of_le (Nat.sub_one_lt_of_lt h) (nodeOffset_le fab)
  rw [getElem?_slice _ (by omega), Nat.zero_add] at hget
  rw [List.getLast_eq_getElem] at hlast
  exact (Option.some.inj hget).trans hlast

theorem slice_sysfab (fab : RednodeFactory) (off : Nat) :
    slice (sysfab os fab off).path 0 off = slice fab.path 0 off := by
  have hwrite := slice_writeAll os.stack 0 (slice fab.path 0 off)
  rw [length_slice, Nat.sub_zero, Nat.zero_add] at hwrite
  exact hwrite

/-- `is_rednode` looks for the status that `create_root_node` stores. -/
theorem isRednode_eq {fab : RednodeFactory} (h : 0 < nodeOffset fab) (w' : ω) :
    isRednode os w' fab.path (nodeOffset fab - 1) =
      os.access w' ((sysfab os fab (nodeOffset fab)).place (getStatusSubpath os)) := by
  have hslice := @slice_concat _ fab.path 0 (nodeOffset fab - 1) (Nat.zero_le _)
  rw [Nat.sub_add_cancel h, nodeOffset_slash h] at hslice
  have hplace : (sysfab os fab (nodeOffset fab)).place (getStatusSubpath os) =
      CStr.ofBytes (slice fab.path 0 (nodeOffset fab - 1) ++
        slash :: (getStatusSubpath os).bytes) := by
    show CStr.ofBytes (slice (sysfab os fab (nodeOffset fab)).path 0 (nodeOffset fab) ++ _) = _
    rw [slice_sysfab, hslice, List.append_assoc]
    rfl
  rw [isRednode, hplace]

variable (os)

def systemParam (templatedir : CStr) : NodeParam :=
  ⟨.lit "system", rednodeFactoryDeftmplRoot, rednodeFactoryDeftmplRoot, templatedir⟩

/-- The state in which the system node is created. -/
def systemMachine (m : Machine ω) : Machine ω :=
  { m with fab := sysfab os m.fab (nodeOffset m.fab) }

variable {os}

theorem createRootNode_run (templatedir : CStr) :
    createRootNode os (nodeOffset m.fab) templatedir m =
      match createNode os (systemParam templatedir) false (systemMachine os m) with
      | .ok status m₂ => .ok status { m₂ with fab := m.fab }
      | .error fault m₂ => .error fault m₂ := by
  have hrun : createRootNode os (nodeOffset m.fab) templatedir m =
      (createNode os (systemParam templatedir) false >>= fun status =>
        (modify (fun m' => { m' with fab := m.fab }) >>= fun _ => pure status : FactoryM ω Int))
        (systemMachine os m) := rfl
  rw [hrun]
  cases hnode : createNode os (systemParam templatedir) false (systemMachine os m) with
  | ok status m₂ =>
    rw [bind_of_ok hnode]
    rfl
  | error fault m₂ => rw [bind_of_error hnode]

theorem createRootNode_ok_iff (templatedir : CStr) (hready : Ready (systemMachine os m).fab) :
    createRootNode os (nodeOffset m.fab) templatedir m = .ok rednodeFactoryOk m' ↔
      ∃ m₂, NodeCreated os (systemParam templatedir) false (systemMachine os m) m₂ ∧
        m' = { m₂ with fab := m.fab } := by
  rw [createRootNode_run]
  simp only [← createNode_ok_iff hready]
  cases hrun : createNode os (systemParam templatedir) false (systemMachine os m) with
  | ok status m₂ =>
    constructor
    · intro heq
      cases heq
      exact ⟨m₂, rfl, rfl⟩
    · rintro ⟨m₃, heq, rfl⟩
      cases heq
      rfl
  | error fault m₂ => exact iff_of_false (fun h => by cases h) fun ⟨_, h, _⟩ => by cases h

theorem createRootNode_clean_iff (templatedir : CStr) (hready : Ready (systemMachine os m).fab) :
    Clean (createRootNode os (nodeOffset m.fab) templatedir) m ↔
      NodeWhole os (systemParam templatedir) false (systemMachine os m) := by
  rw [← createNode_clean_iff hready]
  unfold Clean
  rw [createRootNode_run]
  cases hrun : createNode os (systemParam templatedir) false (systemMachine os m) with
  | ok status m₂ =>
    constructor
    · intro h status' m₃ heq hne
      cases heq
      exact h status { m₂ with fab := m.fab } rfl hne
    · intro h status' m₃ heq hne
      cases heq
      exact h status m₂ rfl hne
  | error fault m₂ =>
    exact iff_of_true (fun _ _ h => by cases h) fun _ _ h => by cases h

/-! ## The call -/

/-- The parameters that `create_node` gets. -/
def nodeParam (os : FactoryOs ω) (params : Option RednodeFactoryParam) (mode : RednodeFactoryMode)
    (nodeAlias : CStr) : NodeParam :=
  ⟨nodeAlias, templateName (params.getD {}).normal mode, templateName (params.getD {}).admin mode,
    (params.getD {}).templatedir.getD (getTemplateDir os)⟩

variable (os)

/-- A failed call leaves no trace, and one without update that succeeds stores no file that was
there before it. -/
def Atomic (update : Bool) (w : ω) : EStateM.Result Fault (Machine ω) Int → Prop
  | .error _ _ => True
  | .ok status m =>
    if status = rednodeFactoryOk then update = false → ∀ path ∈ m.stored, os.access w path = false
    else m.stored = []

/-- Without update, the status file of a node that gets created was not there. -/
def StatusFresh (node : NodeParam) (update : Bool) (w : ω) (m : Machine ω) : Prop :=
  update = false → (∃ m', NodeCreated os node update m m') →
    os.access w (m.fab.place (getStatusSubpath os)) = false

/-- No system node has to be created. -/
def Direct (mode : RednodeFactoryMode) (m : Machine ω) : Prop :=
  mode ≠ .legacy ∨
    (m.fab.rootLength ≤ nodeOffset m.fab ∧
      isRednode os m.os m.fab.path (nodeOffset m.fab - 1) = true)

def NeedsSystem (mode : RednodeFactoryMode) (m : Machine ω) : Prop :=
  mode = .legacy ∧ m.fab.rootLength ≤ nodeOffset m.fab ∧
    isRednode os m.os m.fab.path (nodeOffset m.fab - 1) = false

/-- The node is created once the system node is, unless the process dies before it stores
anything more. -/
def Followed (node : NodeParam) (update : Bool) (w : ω) (m : Machine ω) : Prop :=
  (HeadersMissing os node update m ∨ ∃ m', NodeCreated os node update m m') ∧
    StatusFresh os node update w m

/-- Of the nodes that are to be created, all files are stored once one of them is touched, none of
the nodes is left without the other, and the status of the node was not there. -/
def NodesWhole (node : NodeParam) (update : Bool) (mode : RednodeFactoryMode) (w : ω)
    (m : Machine ω) : Prop :=
  (Direct os mode m → NodeWhole os node update m ∧ StatusFresh os node update w m) ∧
    (NeedsSystem os mode m →
      NodeWhole os (systemParam node.templatedir) false (systemMachine os m) ∧
        ∀ m₂, NodeCreated os (systemParam node.templatedir) false (systemMachine os m) m₂ →
          Followed os node update w { m₂ with fab := m.fab })

/-- When a call is atomic. -/
def AtomicWhen (params : Option RednodeFactoryParam) (update : Bool) (mode : RednodeFactoryMode)
    (m : Machine ω) : Prop :=
  m.fab.rootLength ≠ 0 →
    ∀ nodeAlias m₁, localias os m.fab (params.getD {}).nodeAlias m = .ok (.ok nodeAlias) m₁ →
      NodesWhole os (nodeParam os params mode nodeAlias) update mode m.os m₁

variable {os}

theorem atomic_of_nil {update : Bool} {status : Int} (h : m.stored = []) :
    Atomic os update w (.ok status m) := by
  rw [Atomic]
  split
  · intro _ path hpath
    rw [h] at hpath
    cases hpath
  · exact h

theorem atomic_iff {x : FactoryM ω Int} {update : Bool} (h : m.stored = []) :
    Atomic os update w (x m) ↔
      Clean x m ∧ (update = false → ∀ m', x m = .ok rednodeFactoryOk m' →
        ∀ path ∈ m'.stored, os.access w path = false) := by
  unfold Clean
  rw [h]
  cases x m with
  | error fault m' =>
    exact iff_of_true trivial ⟨fun _ _ heq => (by cases heq), fun _ _ heq => (by cases heq)⟩
  | ok status m' =>
    rw [Atomic]
    split
    · rename_i hok
      subst hok
      constructor
      · intro hfresh
        refine ⟨fun _ _ heq hne => ?_, fun hupdate m'' heq => ?_⟩
        · cases heq
          exact absurd rfl hne
        · cases heq
          exact hfresh hupdate
      · rintro ⟨-, hfresh⟩ hupdate
        exact hfresh hupdate m' rfl
    · rename_i hne
      constructor
      · intro hnil
        refine ⟨fun _ _ heq _ => ?_, fun _ _ heq => ?_⟩
        · cases heq
          exact hnil
        · cases heq
          exact absurd rfl hne
      · exact fun hclean => hclean.1 status m' rfl hne

theorem not_atomic_of_trace {x : FactoryM ω Int} {update : Bool}
    (h : endsIn x m (fun status m' => status != rednodeFactoryOk && !m'.stored.isEmpty) = true) :
    ¬ Atomic os update w (x m) := by
  obtain ⟨status, m', hrun, htest⟩ := of_endsIn h
  simp only [Bool.and_eq_true, bne_iff_ne, Bool.not_eq_true', List.isEmpty_eq_false_iff] at htest
  rw [hrun, Atomic, if_neg htest.1]
  exact htest.2

theorem createNode_atomic_iff (hos : Persistent os) (hready : Ready m.fab) (hm : Later os w m.os)
    (hnil : m.stored = []) (node : NodeParam) (update : Bool) :
    Atomic os update w (createNode os node update m) ↔
      NodeWhole os node update m ∧ StatusFresh os node update w m := by
  rw [atomic_iff hnil, createNode_clean_iff hready]
  refine and_congr_right fun _ => forall_congr' fun hupdate => ?_
  subst hupdate
  simp only [createNode_ok_iff hready]
  have hiff : ∀ m', NodeCreated os node false m m' →
      ((∀ path ∈ m'.stored, os.access w path = false) ↔
        os.access w (m.fab.place (getStatusSubpath os)) = false) := fun m' hcreated => by
    rw [hcreated.fresh_iff hos hready hm, hnil]
    simp
  constructor
  · rintro h ⟨m', hcreated⟩
    exact (hiff m' hcreated).mp (h m' hcreated)
  · intro h m' hcreated
    exact (hiff m' hcreated).mpr (h ⟨m', hcreated⟩)

theorem NodeCreated.stored_ne_nil {node : NodeParam} {update : Bool} (hready : Ready m.fab)
    (h : NodeCreated os node update m m') : m'.stored ≠ [] := by
  have hrun := (createNode_ok_iff hready node update).mpr h
  obtain ⟨c, m₁, hprepared, m₂, m₃, hnormal, hadmin, hstatus⟩ := h
  rcases @createNode_cases _ os _ hready node update with
    ⟨hnot, -⟩ | ⟨c', m₁', hprepared', hfab, -, -⟩
  · exact absurd hprepared (hnot c m₁)
  · obtain ⟨rfl, rfl⟩ := hprepared.unique hprepared'
    have hready₁ := hready.untouched hfab
    have hready₂ := hready₁.untouched (hnormal.frame hready₁).1
    have hready₃ := hready₂.untouched (hadmin.frame hready₂).1
    rw [(hstatus.frame hready₃).2]
    exact List.cons_ne_nil _ _

theorem createBoth_atomic_iff (hos : Persistent os) (hready : Ready m.fab) (hm : Later os w m.os)
    (hnil : m.stored = []) (hoff : m.fab.rootLength ≤ nodeOffset m.fab)
    (hno : isRednode os m.os m.fab.path (nodeOffset m.fab - 1) = false)
    (node : NodeParam) (update : Bool) :
    Atomic os update w
        (andThen (createRootNode os (nodeOffset m.fab) node.templatedir)
          (createNode os node update) m) ↔
      NodeWhole os (systemParam node.templatedir) false (systemMachine os m) ∧
        ∀ m₂, NodeCreated os (systemParam node.templatedir) false (systemMachine os m) m₂ →
          Followed os node update w { m₂ with fab := m.fab } := by
  have hsystem : Ready (systemMachine os m).fab := ready_sysfab hready hoff
  have hroot : ∀ {m₃}, createRootNode os (nodeOffset m.fab) node.templatedir m =
      .ok rednodeFactoryOk m₃ ↔
      ∃ m₂, NodeCreated os (systemParam node.templatedir) false (systemMachine os m) m₂ ∧
        m₃ = { m₂ with fab := m.fab } := createRootNode_ok_iff _ hsystem
  have hready' : ∀ m₂ : Machine ω, Ready ({ m₂ with fab := m.fab } : Machine ω).fab :=
    fun _ => hready
  have hlater : ∀ m₂, NodeCreated os (systemParam node.templatedir) false
      (systemMachine os m) m₂ → Later os w m₂.os := fun m₂ hcreated =>
    (wp_ok (keepsOr_createNode hos.later hsystem _ false (systemMachine os m)
      ⟨hm, Untouched.refl _⟩) ((createNode_ok_iff hsystem _ false).mpr hcreated)).1
  -- the files of the system node were not there
  have hpos : 0 < nodeOffset m.fab := Nat.lt_of_lt_of_le hready.root_pos hoff
  have hfresh : ∀ m₂, NodeCreated os (systemParam node.templatedir) false
      (systemMachine os m) m₂ → ∀ path ∈ m₂.stored, os.access w path = false := by
    intro m₂ hcreated
    rw [isRednode_eq hpos] at hno
    refine (hcreated.fresh_iff hos hsystem hm).mpr ⟨?_, hm.not_there hno⟩
    show ∀ path ∈ m.stored, os.access w path = false
    rw [hnil]
    exact fun _ hpath => (by cases hpath)
  rw [atomic_iff hnil, andThen_clean_iff, createRootNode_clean_iff _ hsystem, and_assoc]
  · refine and_congr_right fun _ => ?_
    simp only [hroot, andThen_ok_iff]
    constructor
    · rintro ⟨hsucceeds, hstored⟩ m₂ hcreated
      refine ⟨(createNode_succeeds_iff (hready' m₂) _ update).mp
        (hsucceeds _ ⟨m₂, hcreated, rfl⟩), ?_⟩
      rintro rfl ⟨m', hnode⟩
      have hall := hstored rfl m' ⟨_, ⟨m₂, hcreated, rfl⟩,
        (createNode_ok_iff (hready' m₂) _ _).mpr hnode⟩
      exact ((hnode.fresh_iff hos (hready' m₂) (hlater m₂ hcreated)).mp hall).2
    · intro h
      refine ⟨?_, ?_⟩
      · rintro _ ⟨m₂, hcreated, rfl⟩
        exact (createNode_succeeds_iff (hready' m₂) _ update).mpr (h m₂ hcreated).1
      · rintro rfl m' ⟨_, ⟨m₂, hcreated, rfl⟩, hrun⟩
        have hnode := (createNode_ok_iff (hready' m₂) _ _).mp hrun
        exact (hnode.fresh_iff hos (hready' m₂) (hlater m₂ hcreated)).mpr
          ⟨hfresh m₂ hcreated, (h m₂ hcreated).2 rfl ⟨m', hnode⟩⟩
  · intro m₃ hrun status m' hnode
    obtain ⟨m₂, hcreated, rfl⟩ := hroot.mp hrun
    have hkept := wp_ok (keepsOr_createNode (storeKeeps_suffix m₂.stored) hready node update
      { m₂ with fab := m.fab } ⟨List.suffix_rfl, Untouched.refl _⟩) hnode
    rw [hnil]
    intro hnil'
    have hsuffix := hkept.1
    rw [hnil'] at hsuffix
    exact hcreated.stored_ne_nil hsystem (List.suffix_nil.mp hsuffix)

theorem createCall_run (params : Option RednodeFactoryParam) (update : Bool)
    (mode : RednodeFactoryMode) (hroot : m.fab.rootLength ≠ 0) :
    rednodeFactoryCreateNode os params update mode m =
      match localias os m.fab (params.getD {}).nodeAlias m with
      | .error fault m₁ => .error fault m₁
      | .ok (.error e) m₁ => .ok e m₁
      | .ok (.ok nodeAlias) m₁ =>
        andThen (requireSystem os mode (nodeParam os params mode nodeAlias).templatedir)
          (createNode os (nodeParam os params mode nodeAlias) update) m₁ := by
  unfold rednodeFactoryCreateNode
  rw [get_bind, if_neg hroot]
  cases hrun : localias os m.fab (params.getD {}).nodeAlias m with
  | error fault m₁ => rw [bind_of_error hrun]
  | ok nodeAlias m₁ =>
    rw [bind_of_ok hrun]
    cases nodeAlias <;> rfl

theorem requireSystem_atomic_iff (hos : Persistent os) (hready : Ready m.fab)
    (hm : Later os w m.os) (hnil : m.stored = []) (node : NodeParam) (update : Bool)
    (mode : RednodeFactoryMode) :
    Atomic os update w
        (andThen (requireSystem os mode node.templatedir) (createNode os node update) m) ↔
      NodesWhole os node update mode w m := by
  have hrun : requireSystem os mode node.templatedir m =
      (if mode ≠ .legacy then pure rednodeFactoryOk
      else if nodeOffset m.fab < m.fab.rootLength then pure (failed .atRoot)
      else if isRednode os m.os m.fab.path (nodeOffset m.fab - 1) then pure rednodeFactoryOk
      else createRootNode os (nodeOffset m.fab) node.templatedir : FactoryM ω Int) m := rfl
  have hdirect : requireSystem os mode node.templatedir m = .ok rednodeFactoryOk m →
      Direct os mode m → ¬ NeedsSystem os mode m →
      (Atomic os update w
        (andThen (requireSystem os mode node.templatedir) (createNode os node update) m) ↔
        NodesWhole os node update mode w m) := by
    intro h hdirect hneeds
    rw [andThen_of_ok h, createNode_atomic_iff hos hready hm hnil]
    exact ⟨fun hnode => ⟨fun _ => hnode, fun h => absurd h hneeds⟩, fun hnode => hnode.1 hdirect⟩
  by_cases hmode : mode ≠ .legacy
  · rw [if_pos hmode] at hrun
    exact hdirect hrun (.inl hmode) fun h => hmode h.1
  · rw [if_neg hmode] at hrun
    by_cases hoff : nodeOffset m.fab < m.fab.rootLength
    · rw [if_pos hoff] at hrun
      have hfailed : failed .atRoot ≠ rednodeFactoryOk := by decide
      rw [andThen_of_failed hrun hfailed]
      refine iff_of_true (atomic_of_nil hnil) ⟨?_, fun h => absurd h.2.1 (Nat.not_le.mpr hoff)⟩
      rintro (h | h)
      · exact absurd h hmode
      · exact absurd h.1 (Nat.not_le.mpr hoff)
    · rw [if_neg hoff] at hrun
      have hle := Nat.not_lt.mp hoff
      cases hno : isRednode os m.os m.fab.path (nodeOffset m.fab - 1) with
      | true =>
        rw [if_pos hno] at hrun
        refine hdirect hrun (.inr ⟨hle, hno⟩) fun h => ?_
        rw [h.2.2] at hno
        cases hno
      | false =>
        rw [if_neg (by rw [hno]; decide)] at hrun
        have hsame : andThen (requireSystem os mode node.templatedir)
            (createNode os node update) m =
            andThen (createRootNode os (nodeOffset m.fab) node.templatedir)
              (createNode os node update) m := by
          cases hroot : createRootNode os (nodeOffset m.fab) node.templatedir m with
          | error fault m₁ =>
            rw [andThen, andThen, bind_of_error hroot, bind_of_error (hrun.trans hroot)]
          | ok status m₁ => rw [andThen, andThen, bind_of_ok hroot, bind_of_ok (hrun.trans hroot)]
        rw [hsame, createBoth_atomic_iff hos hready hm hnil hle hno]
        refine ⟨fun h => ⟨?_, fun _ => h⟩, fun h => h.2 ⟨not_not.mp hmode, hle, hno⟩⟩
        rintro (h | h)
        · exact absurd h hmode
        · rw [h.2] at hno
          cases hno

/-- **The calls that are atomic**, from any state of the factory. -/
theorem create_atomic_iff (hos : Persistent os) {fab : RednodeFactory} {setting : Option Setting}
    (h : Holds fab setting) (params : Option RednodeFactoryParam) (update : Bool)
    (mode : RednodeFactoryMode) (w : ω) :
    Atomic os update w (rednodeFactoryCreateNode os params update mode ⟨fab, w, []⟩) ↔
      AtomicWhen os params update mode ⟨fab, w, []⟩ := by
  cases setting with
  | none =>
    have hrun : rednodeFactoryCreateNode os params update mode ⟨fab, w, []⟩ =
        .ok (failed .cleared) ⟨fab, w, []⟩ := by
      unfold rednodeFactoryCreateNode
      rw [get_bind, if_pos h.1]
      rfl
    rw [hrun]
    exact iff_of_true (atomic_of_nil rfl) fun hroot => absurd h.1 hroot
  | some s =>
    have hready : Ready fab := h.ready
    have hroot : fab.rootLength ≠ 0 := Nat.ne_of_gt hready.root_pos
    have hR : OsKeeps os fun w' L => Later os w w' ∧ L = [] := hos.later_stored []
    obtain ⟨nodeAlias, m₁, hlocalias, ⟨hlater, hnil⟩, hfab⟩ :=
      exists_ok (localias_spec (m := ⟨fab, w, []⟩) hR ⟨fun _ hp => hp, rfl⟩
        (params.getD {}).nodeAlias)
    rw [createCall_run params update mode hroot, hlocalias]
    cases nodeAlias with
    | error e =>
      refine iff_of_true (atomic_of_nil hnil) fun _ nodeAlias m₂ heq => ?_
      rw [hlocalias] at heq
      cases heq
    | ok nodeAlias =>
      have hready₁ : Ready m₁.fab := by
        rw [hfab]
        exact hready
      refine (requireSystem_atomic_iff hos hready₁ hlater hnil
        (nodeParam os params mode nodeAlias) update mode).trans ⟨?_, ?_⟩
      · intro hnode _ nodeAlias' m₂ heq
        rw [hlocalias] at heq
        cases heq
        exact hnode
      · exact fun hwhen => hwhen hroot nodeAlias m₁ hlocalias

end

/-! ## On a disk -/

theorem persistent_diskOs : Persistent diskOs := fun _ => {
  mkdir := fun d _ path => (Disk.grows_mkdir d path).access
  malloc := fun _ _ h => h
  freshUUID := fun _ _ h => h
  redSaveConfig := fun d _ path config => (Disk.grows_saveConfig d path config).access
  redSaveStatus := fun d _ path status => (Disk.grows_saveStatus d path status).access }

def factoryAt (root path : String) : RednodeFactory :=
  ⟨(CStr.lit root).bytes.length, (CStr.lit path).bytes.length,
    writeAll (fun _ => 0) 0 (CStr.lit path).bytes⟩

/-- The directories of the templates, and the templates of a leaf. -/
def templateDirs : List Names :=
  [[], names (.lit "/etc"), names (.lit "/etc/redpak"), names (.lit "/etc/redpak/templates.d")]

def leafTemplates : List (Names × RedConfig) :=
  [(names (.lit "/etc/redpak/templates.d/leaf-normal.yaml"),
      { headers := ⟨.lit "leaf", none, none⟩ }),
    (names (.lit "/etc/redpak/templates.d/leaf-admin.yaml"),
      { headers := ⟨.lit "leaf", none, none⟩ })]

/-- The directory `/r/n` has an admin config, and no other file of a node. -/
def adminOnly : Disk where
  dirs := templateDirs ++ [names (.lit "/r"), names (.lit "/r/n"), names (.lit "/r/n/etc")]
  configs := leafTemplates ++
    [(names (.lit "/r/n/etc/redpak-admin.yaml"), { headers := ⟨.lit "admin-of-n", none, none⟩ })]
  statuses := []

theorem holds_factoryAt :
    Holds (factoryAt "/r/" "/r/n/") (some ⟨(CStr.lit "/r").bytes, (CStr.lit "n").bytes⟩) :=
  ⟨by decide +kernel, by decide +kernel, by decide +kernel, by decide +kernel, by decide +kernel,
    by decide +kernel, by decide +kernel, by decide +kernel⟩

theorem create_atomic_iff_adminOnly :
    Atomic diskOs false adminOnly (rednodeFactoryCreateNode diskOs none false .deflt
        ⟨factoryAt "/r/" "/r/n/", adminOnly, []⟩) ↔
      AtomicWhen diskOs none false .deflt ⟨factoryAt "/r/" "/r/n/", adminOnly, []⟩ :=
  create_atomic_iff persistent_diskOs holds_factoryAt none false .deflt adminOnly

/-- The normal config is stored before the admin config is found to be there. -/
theorem create_leaves_normal :
    Holds (factoryAt "/r/" "/r/n/") (some ⟨(CStr.lit "/r").bytes, (CStr.lit "n").bytes⟩) ∧
      ¬ Atomic diskOs false adminOnly (rednodeFactoryCreateNode diskOs none false .deflt
        ⟨factoryAt "/r/" "/r/n/", adminOnly, []⟩) :=
  ⟨holds_factoryAt, not_atomic_of_trace (by decide +kernel)⟩

end Factory
end RedPak
