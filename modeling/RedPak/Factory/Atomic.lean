import RedPak.Factory.Invariant

/-!
# Factory.Atomic

What a failed creation of a node leaves behind. The files of a node are stored one after the other:
whatever is refused once the first of them is touched leaves a part of a node, or a system node
without the node that it was made for.

* `storeFile_cases`: how the store of one file ends.
* `createNode_clean_iff`, `createNode_ok_iff`: when a node is created, or not at all.
* `create_atomic_iff`: the same for `rednode_factory_create_node`.
-/

namespace RedPak
namespace Factory

open Conf Node Layered.Action
open Layered (Buffer)
open Layered.Buffer

section

variable {ω : Type} (os : FactoryOs ω)

/-! ## Files of a node -/

/-- A file of a node: its sub-path, what keeps it from being saved although its directories are
there, and its save. -/
structure NodeFile (ω : Type) where
  subpath : CStr
  refused : ω → CStr → Bool
  write : ω → CStr → Saving × ω

def configFile (subpath : CStr) (config : RedConfig) (update : Bool) : NodeFile ω :=
  ⟨subpath, fun w path => !update && os.access w path,
    fun w path => os.redSaveConfig w path config⟩

def statusFile (redstatus : RedStatus) : NodeFile ω :=
  ⟨getStatusSubpath os, fun _ _ => false, fun w path => os.redSaveStatus w path redstatus⟩

/-- The file is about to be saved: its path fits, the directories can be had, and no existing file
refuses it. -/
structure Due (f : NodeFile ω) (m m' : Machine ω) : Prop where
  fits : f.subpath.bytes.length + m.fab.nodeLength < rednodeFactoryPathLen
  directories : createParentDirectories os m.fab.rootLength
    (f.subpath.bytes.length + m.fab.nodeLength) { m with fab := m.fab.over f.subpath } =
      .ok rednodeFactoryOk m'
  allowed : f.refused m'.os (m.fab.place f.subpath) = false

/-- The state after a save. -/
def Machine.written (m : Machine ω) (path : CStr) (result : Saving × ω) : Machine ω :=
  { m with os := result.2, stored := recorded path result.1 m.stored }

def Stored (f : NodeFile ω) (m m' : Machine ω) : Prop :=
  ∃ m₁, Due os f m m₁ ∧ (f.write m₁.os (m.fab.place f.subpath)).1 = .saved ∧
    m' = m₁.written (m.fab.place f.subpath) (f.write m₁.os (m.fab.place f.subpath))

/-- The save fails with the file touched. -/
def Spoilt (f : NodeFile ω) (m : Machine ω) : Prop :=
  ∃ m₁, Due os f m m₁ ∧ (f.write m₁.os (m.fab.place f.subpath)).1 = .spoilt

/-- The store of any file of a node. -/
def storeFile (f : NodeFile ω) (failure : RednodeFactoryError) : FactoryM ω Int := do
  let status ← setSubpathPath os f.subpath true
  if status ≠ rednodeFactoryOk then pure status
  else
    let path ← pathString
    if f.refused (← get).os path then pure (failed .configExist)
    else if ← save path (f.write (← get).os path) then pure rednodeFactoryOk
    else pure (failed failure)

variable {os} {m m' : Machine ω} {f : NodeFile ω}

theorem storeConfig_eq (subpath : CStr) (config : RedConfig) (update : Bool) :
    storeConfig os subpath config update =
      storeFile os (configFile os subpath config update) .storingConfig := by
  unfold storeConfig storeFile configFile redSaveConfig
  cases update <;> simp

theorem storeStatus_eq (redstatus : RedStatus) :
    storeStatus os (getStatusSubpath os) redstatus =
      storeFile os (statusFile os redstatus) .storingStatus := by
  unfold storeStatus storeFile statusFile redSaveStatus
  simp

/-! ## The store of one file -/

theorem setSubpathPath_run (subpath : CStr) :
    setSubpathPath os subpath true m =
      if subpath.bytes.length + m.fab.nodeLength ≥ rednodeFactoryPathLen then
        .ok (failed .pathTooLong) m
      else createParentDirectories os m.fab.rootLength
        (subpath.bytes.length + m.fab.nodeLength) { m with fab := m.fab.over subpath } := by
  unfold setSubpathPath
  rw [get_bind]
  split
  · rfl
  · rename_i hlen
    have hcopy : copyPath m.fab.nodeLength (subpath.bytes ++ [0]) m =
        .ok () { m with fab := m.fab.over subpath } := by
      unfold copyPath
      rw [get_bind, if_pos]
      · rfl
      · rw [List.length_append, List.length_singleton]
        omega
    rw [bind_of_ok hcopy, if_pos rfl]

theorem save_bind {α : Type} (path : CStr) (result : Saving × ω) (k : Bool → FactoryM ω α) :
    (save path result >>= k) m = k (result.1 = .saved) (m.written path result) := rfl

theorem Due.unique {m₁ m₂ : Machine ω} (h₁ : Due os f m m₁) (h₂ : Due os f m m₂) : m₁ = m₂ := by
  have heq := h₁.directories.symm.trans h₂.directories
  cases heq
  rfl

theorem Stored.unique {m₁ m₂ : Machine ω} (h₁ : Stored os f m m₁) (h₂ : Stored os f m m₂) :
    m₁ = m₂ := by
  obtain ⟨m₃, hdue, -, rfl⟩ := h₁
  obtain ⟨m₄, hdue', -, rfl⟩ := h₂
  rw [hdue.unique hdue']

theorem Due.path (h : Due os f m m') :
    setSubpathPath os f.subpath true m = .ok rednodeFactoryOk m' := by
  rw [setSubpathPath_run, if_neg (Nat.not_le.mpr h.fits), h.directories]

theorem due_of_path (h : setSubpathPath os f.subpath true m = .ok rednodeFactoryOk m')
    (hallowed : f.refused m'.os (m.fab.place f.subpath) = false) : Due os f m m' := by
  rw [setSubpathPath_run] at h
  split at h
  · cases h
  · rename_i hlen
    exact ⟨Nat.not_le.mp hlen, h, hallowed⟩

theorem osKeeps_stored (os : FactoryOs ω) (L₀ : List CStr) : OsKeeps os fun _ L => L = L₀ :=
  ⟨fun _ _ _ h => h, fun _ _ h => h, fun _ _ h => h⟩

theorem Due.frame {R : ω → List CStr → Prop} (hR : OsKeeps os R) (hready : Ready m.fab)
    (hm : R m.os m.stored) (h : Due os f m m') : Same R (m.fab.over f.subpath) m' := by
  rcases wp_ok (setSubpathPath_spec hR hready hm) h.path with hlong | hsame
  · exact absurd hlong.1 (by decide)
  · exact hsame.2

/-- How the store of a file ends: it is stored, or it fails, with the file spoilt or untouched. -/
theorem storeFile_cases (hready : Ready m.fab) {failure : RednodeFactoryError}
    (hfailure : failed failure ≠ rednodeFactoryOk) :
    (∃ m', storeFile os f failure m = .ok rednodeFactoryOk m' ∧ Stored os f m m') ∨
    (∃ status m', storeFile os f failure m = .ok status m' ∧ status ≠ rednodeFactoryOk ∧
      (∀ m'', ¬ Stored os f m m'') ∧
      ((Spoilt os f m ∧ m'.stored = m.fab.place f.subpath :: m.stored) ∨
        (¬ Spoilt os f m ∧ m'.stored = m.stored))) := by
  have hsame := osKeeps_stored os m.stored
  obtain ⟨status, m₁, hpath, hend⟩ :=
    exists_ok (@setSubpathPath_spec _ _ f.subpath _ _ hsame hready rfl)
  have hdue : ∀ {m₂}, Due os f m m₂ → status = rednodeFactoryOk ∧ m₂ = m₁ := fun h => by
    have heq := hpath.symm.trans h.path
    cases heq
    exact ⟨rfl, rfl⟩
  unfold storeFile
  rw [bind_of_ok hpath]
  by_cases hok : status = rednodeFactoryOk
  · subst hok
    obtain ⟨hfit, hstored, hfab⟩ : f.subpath.bytes.length + m.fab.nodeLength <
        rednodeFactoryPathLen ∧ Same (fun _ L => L = m.stored) (m.fab.over f.subpath) m₁ := by
      rcases hend with hlong | hover
      · exact absurd hlong.1 (by decide)
      · exact hover
    have hstring := pathString_over hfit hfab
    rw [if_neg (by decide), bind_of_ok hstring, get_bind]
    by_cases hrefused : f.refused m₁.os (m.fab.place f.subpath) = true
    · have hnone : ∀ m₂, ¬ Due os f m m₂ := fun m₂ h => by
        have hallowed := h.allowed
        rw [(hdue h).2, hrefused] at hallowed
        cases hallowed
      rw [if_pos hrefused]
      exact .inr ⟨_, m₁, rfl, by decide, fun m'' ⟨m₂, h, _⟩ => hnone m₂ h,
        .inr ⟨fun ⟨m₂, h, _⟩ => hnone m₂ h, hstored⟩⟩
    · have hdue₁ : Due os f m m₁ := due_of_path hpath (by simpa using hrefused)
      rw [if_neg hrefused, get_bind, save_bind]
      cases hwrite : (f.write m₁.os (m.fab.place f.subpath)).1 with
      | saved => exact .inl ⟨_, rfl, m₁, hdue₁, hwrite, rfl⟩
      | spoilt =>
        refine .inr ⟨_, _, rfl, hfailure, ?_, .inl ⟨⟨m₁, hdue₁, hwrite⟩, ?_⟩⟩
        · rintro m'' ⟨m₂, h, hsaved, -⟩
          rw [(hdue h).2, hwrite] at hsaved
          cases hsaved
        · rw [Machine.written, hwrite, ← hstored]
          rfl
      | untouched =>
        refine .inr ⟨_, _, rfl, hfailure, ?_, .inr ⟨?_, ?_⟩⟩
        · rintro m'' ⟨m₂, h, hsaved, -⟩
          rw [(hdue h).2, hwrite] at hsaved
          cases hsaved
        · rintro ⟨m₂, h, hspoilt⟩
          rw [(hdue h).2, hwrite] at hspoilt
          cases hspoilt
        · rw [Machine.written, hwrite, ← hstored]
          rfl
  · have hstored : m₁.stored = m.stored := by
      rcases hend with ⟨-, rfl⟩ | ⟨-, hsame, -⟩
      · rfl
      · exact hsame
    rw [if_pos hok]
    exact .inr ⟨status, m₁, rfl, hok, fun m'' ⟨m₂, h, _⟩ => hok (hdue h).1,
      .inr ⟨fun ⟨m₂, h, _⟩ => hok (hdue h).1, hstored⟩⟩

/-! ## Steps that follow one another -/

/-- A failure leaves no trace. -/
def Clean (x : FactoryM ω Int) (m : Machine ω) : Prop :=
  ∀ status m', x m = .ok status m' → status ≠ rednodeFactoryOk → m'.stored = m.stored

/-- There is no failure. -/
def Succeeds (x : FactoryM ω Int) (m : Machine ω) : Prop :=
  ∀ status m', x m = .ok status m' → status = rednodeFactoryOk

/-- `y`, if the status of `x` is that of success -/
def andThen (x y : FactoryM ω Int) : FactoryM ω Int := do
  let status ← x
  if status ≠ rednodeFactoryOk then pure status
  else y

variable {x y : FactoryM ω Int}

theorem andThen_ok_iff : andThen x y m = .ok rednodeFactoryOk m' ↔
    ∃ m₁, x m = .ok rednodeFactoryOk m₁ ∧ y m₁ = .ok rednodeFactoryOk m' := by
  unfold andThen
  rw [bind_eq_ok]
  constructor
  · rintro ⟨status, m₁, hx, hy⟩
    split at hy
    · rename_i hne
      cases hy
      exact absurd rfl hne
    · rename_i heq
      rw [not_not.mp heq] at hx
      exact ⟨m₁, hx, hy⟩
  · rintro ⟨m₁, hx, hy⟩
    exact ⟨_, m₁, hx, by rwa [if_neg (by decide)]⟩

theorem andThen_of_ok {m₁ : Machine ω} (hx : x m = .ok rednodeFactoryOk m₁) :
    andThen x y m = y m₁ := by
  unfold andThen
  rw [bind_of_ok hx, if_neg (by decide)]

theorem andThen_of_failed {m₁ : Machine ω} {status : Int} (hx : x m = .ok status m₁)
    (hne : status ≠ rednodeFactoryOk) : andThen x y m = .ok status m₁ := by
  unfold andThen
  rw [bind_of_ok hx, if_pos hne]
  rfl

/-- A step that leaves a trace must not be followed by a failure. -/
theorem andThen_clean_iff
    (hgrows : ∀ m₁, x m = .ok rednodeFactoryOk m₁ → ∀ status m', y m₁ = .ok status m' →
      m'.stored ≠ m.stored) :
    Clean (andThen x y) m ↔
      Clean x m ∧ ∀ m₁, x m = .ok rednodeFactoryOk m₁ → Succeeds y m₁ := by
  constructor
  · intro h
    refine ⟨fun status m' hx hne => h status m' (andThen_of_failed hx hne) hne, ?_⟩
    intro m₁ hx status m' hy
    by_contra hne
    exact hgrows m₁ hx status m' hy (h status m' ((andThen_of_ok hx).trans hy) hne)
  · rintro ⟨hclean, hthen⟩ status m' hrun hne
    cases hx : x m with
    | error fault m₁ =>
      rw [andThen, bind_of_error hx] at hrun
      cases hrun
    | ok status₁ m₁ =>
      by_cases hok : status₁ = rednodeFactoryOk
      · subst hok
        rw [andThen_of_ok hx] at hrun
        exact absurd (hthen m₁ hx status m' hrun) hne
      · rw [andThen_of_failed hx hok] at hrun
        cases hrun
        exact hclean _ _ hx hne

theorem andThen_succeeds_iff : Succeeds (andThen x y) m ↔
    Succeeds x m ∧ ∀ m₁, x m = .ok rednodeFactoryOk m₁ → Succeeds y m₁ := by
  constructor
  · intro h
    refine ⟨fun status m' hx => ?_, fun m₁ hx status m' hy => ?_⟩
    · by_contra hne
      exact hne (h status m' (andThen_of_failed hx hne))
    · exact h status m' ((andThen_of_ok hx).trans hy)
  · rintro ⟨hfirst, hthen⟩ status m' hrun
    cases hx : x m with
    | error fault m₁ =>
      rw [andThen, bind_of_error hx] at hrun
      cases hrun
    | ok status₁ m₁ =>
      have hok := hfirst status₁ m₁ hx
      subst hok
      rw [andThen_of_ok hx] at hrun
      exact hthen m₁ hx status m' hrun

theorem storeFile_ok_iff (hready : Ready m.fab) {failure : RednodeFactoryError}
    (hfailure : failed failure ≠ rednodeFactoryOk) :
    storeFile os f failure m = .ok rednodeFactoryOk m' ↔ Stored os f m m' := by
  rcases @storeFile_cases _ os _ f hready _ hfailure with
    ⟨m₁, hrun, hstored⟩ | ⟨status, m₁, hrun, hne, hnot, -⟩
  · rw [hrun]
    constructor
    · intro heq
      cases heq
      exact hstored
    · intro hstored'
      rw [hstored.unique hstored']
  · rw [hrun]
    constructor
    · intro heq
      cases heq
      exact absurd rfl hne
    · exact fun hstored => absurd hstored (hnot m')

theorem storeFile_clean_iff (hready : Ready m.fab) {failure : RednodeFactoryError}
    (hfailure : failed failure ≠ rednodeFactoryOk) :
    Clean (storeFile os f failure) m ↔ ¬ Spoilt os f m := by
  rcases @storeFile_cases _ os _ f hready _ hfailure with
    ⟨m₁, hrun, m₂, hdue, hsaved, -⟩ | ⟨status, m₁, hrun, hne, -, hend⟩
  · refine iff_of_true (fun status m' heq hne => ?_) ?_
    · rw [hrun] at heq
      cases heq
      exact absurd rfl hne
    · rintro ⟨m₃, hdue', hspoilt⟩
      rw [hdue'.unique hdue, hsaved] at hspoilt
      cases hspoilt
  · rcases hend with ⟨hspoilt, hstored⟩ | ⟨hnot, hstored⟩
    · refine iff_of_false (fun hclean => ?_) (not_not.mpr hspoilt)
      have hsame := hclean status m₁ hrun hne
      rw [hstored] at hsame
      exact List.cons_ne_self _ _ hsame
    · refine iff_of_true (fun status' m' heq _ => ?_) hnot
      rw [hrun] at heq
      cases heq
      exact hstored

theorem storeFile_succeeds_iff (hready : Ready m.fab) {failure : RednodeFactoryError}
    (hfailure : failed failure ≠ rednodeFactoryOk) :
    Succeeds (storeFile os f failure) m ↔ ∃ m', Stored os f m m' := by
  constructor
  · intro h
    rcases @storeFile_cases _ os _ f hready _ hfailure with
      ⟨m₁, -, hstored⟩ | ⟨status, m₁, hrun, hne, -⟩
    · exact ⟨m₁, hstored⟩
    · exact absurd (h status m₁ hrun) hne
  · rintro ⟨m', hstored⟩ status m₁ hrun
    rw [(storeFile_ok_iff hready hfailure).mpr hstored] at hrun
    cases hrun
    rfl

/-! ## The files of a node -/

/-- The file is recorded, and the factory left untouched. -/
theorem Stored.frame (hready : Ready m.fab) (h : Stored os f m m') :
    Untouched m.fab m'.fab ∧ m'.stored = m.fab.place f.subpath :: m.stored := by
  obtain ⟨m₁, hdue, hsaved, rfl⟩ := h
  have hsame := osKeeps_stored os m.stored
  obtain ⟨hstored, hfab⟩ := hdue.frame hsame hready rfl
  refine ⟨?_, ?_⟩
  · show Untouched m.fab m₁.fab
    rw [hfab]
    exact untouched_over _ _
  · rw [Machine.written, hsaved, ← hstored]
    rfl

variable (os)

/-- The status of a new node. -/
def nodeStatus (fab : RednodeFactory) (timestamp : Nat) (today : CStr) : RedStatus :=
  ⟨.enable, CStr.ofBytes (slice fab.path 0 (fab.nodeLength - 1)), timestamp,
    some (createdInfo.append today)⟩

/-- What is stored for a node: two configs and what goes into the status. -/
structure NodeContent where
  normal : RedConfig
  admin : RedConfig
  timestamp : Nat
  today : CStr

/-- The three files are stored. -/
def NodeStored (c : NodeContent) (update : Bool) (m m' : Machine ω) : Prop :=
  ∃ m₁ m₂, Stored os (configFile os (getNormalConfSubpath os) c.normal update) m m₁ ∧
    Stored os (configFile os (getAdminConfSubpath os) c.admin update) m₁ m₂ ∧
    Stored os (statusFile os (nodeStatus m.fab c.timestamp c.today)) m₂ m'

/-- Once the normal config is touched, it is stored, and so are the other files. -/
def Whole (c : NodeContent) (update : Bool) (m : Machine ω) : Prop :=
  ¬ Spoilt os (configFile os (getNormalConfSubpath os) c.normal update) m ∧
    ∀ m₁, Stored os (configFile os (getNormalConfSubpath os) c.normal update) m m₁ →
      ∃ m₂ m', Stored os (configFile os (getAdminConfSubpath os) c.admin update) m₁ m₂ ∧
        Stored os (statusFile os (nodeStatus m.fab c.timestamp c.today)) m₂ m'

variable {os}

theorem Untouched.nodeStatus {fab fab' : RednodeFactory} (h : Untouched fab fab') (timestamp : Nat)
    (today : CStr) : nodeStatus fab' timestamp today = nodeStatus fab timestamp today := by
  unfold Factory.nodeStatus
  rw [h.nodeLength, h.slice (Nat.sub_le _ _)]

variable (os) in
/-- The last store of `storeNode` -/
def storeLast (timestamp : Nat) (today : CStr) : FactoryM ω Int := do
  let m ← get
  storeStatus os (getStatusSubpath os) (nodeStatus m.fab timestamp today)

theorem storeNode_eq (normalConfig adminConfig : RedConfig) (timestamp : Nat) (today : CStr)
    (update : Bool) :
    storeNode os normalConfig adminConfig timestamp today update =
      andThen (storeConfig os (getNormalConfSubpath os) normalConfig update)
        (andThen (storeConfig os (getAdminConfSubpath os) adminConfig update)
          (storeLast os timestamp today)) := rfl

theorem storeLast_run {fab : RednodeFactory} (h : Untouched fab m.fab) (timestamp : Nat)
    (today : CStr) :
    storeLast os timestamp today m =
      storeFile os (statusFile os (nodeStatus fab timestamp today)) .storingStatus m := by
  rw [storeLast, get_bind, storeStatus_eq, h.nodeStatus timestamp today]

theorem storeNode_ok_iff (hready : Ready m.fab) (c : NodeContent) (update : Bool) :
    storeNode os c.normal c.admin c.timestamp c.today update m = .ok rednodeFactoryOk m' ↔
      NodeStored os c update m m' := by
  have hconfig : failed .storingConfig ≠ rednodeFactoryOk := by decide
  have hstatus : failed .storingStatus ≠ rednodeFactoryOk := by decide
  rw [storeNode_eq, andThen_ok_iff]
  constructor
  · rintro ⟨m₁, hnormal, hrest⟩
    obtain ⟨m₂, hadmin, hlast⟩ := andThen_ok_iff.mp hrest
    rw [storeConfig_eq, storeFile_ok_iff hready hconfig] at hnormal
    have hfab₁ := (hnormal.frame hready).1
    rw [storeConfig_eq, storeFile_ok_iff (hready.untouched hfab₁) hconfig] at hadmin
    have hfab₂ := hfab₁.trans (hadmin.frame (hready.untouched hfab₁)).1
    rw [storeLast_run hfab₂, storeFile_ok_iff (hready.untouched hfab₂) hstatus] at hlast
    exact ⟨m₁, m₂, hnormal, hadmin, hlast⟩
  · rintro ⟨m₁, m₂, hnormal, hadmin, hlast⟩
    have hfab₁ := (hnormal.frame hready).1
    have hfab₂ := hfab₁.trans (hadmin.frame (hready.untouched hfab₁)).1
    refine ⟨m₁, ?_, andThen_ok_iff.mpr ⟨m₂, ?_, ?_⟩⟩
    · rw [storeConfig_eq, storeFile_ok_iff hready hconfig]
      exact hnormal
    · rw [storeConfig_eq, storeFile_ok_iff (hready.untouched hfab₁) hconfig]
      exact hadmin
    · rw [storeLast_run hfab₂, storeFile_ok_iff (hready.untouched hfab₂) hstatus]
      exact hlast

theorem storeRest_succeeds_iff {fab : RednodeFactory} (hfab : Untouched fab m.fab)
    (hready : Ready m.fab) (adminConfig : RedConfig) (timestamp : Nat) (today : CStr)
    (update : Bool) :
    Succeeds (andThen (storeConfig os (getAdminConfSubpath os) adminConfig update)
      (storeLast os timestamp today)) m ↔
      ∃ m₂ m', Stored os (configFile os (getAdminConfSubpath os) adminConfig update) m m₂ ∧
        Stored os (statusFile os (nodeStatus fab timestamp today)) m₂ m' := by
  have hconfig : failed .storingConfig ≠ rednodeFactoryOk := by decide
  have hstatus : failed .storingStatus ≠ rednodeFactoryOk := by decide
  have hlast : ∀ {m₂}, Stored os (configFile os (getAdminConfSubpath os) adminConfig update) m m₂ →
      (Succeeds (storeLast os timestamp today) m₂ ↔
        ∃ m', Stored os (statusFile os (nodeStatus fab timestamp today)) m₂ m') := by
    intro m₂ hstored
    have hframe := hstored.frame hready
    rw [← storeFile_succeeds_iff (hready.untouched hframe.1) hstatus]
    refine forall₂_congr fun status m' => ?_
    rw [storeLast_run (hfab.trans hframe.1)]
  rw [storeConfig_eq, andThen_succeeds_iff, storeFile_succeeds_iff hready hconfig]
  simp only [storeFile_ok_iff hready hconfig]
  constructor
  · rintro ⟨⟨m₂, hstored⟩, hthen⟩
    obtain ⟨m', hstatus⟩ := (hlast hstored).mp (hthen m₂ hstored)
    exact ⟨m₂, m', hstored, hstatus⟩
  · rintro ⟨m₂, m', hstored, hstatus⟩
    refine ⟨⟨m₂, hstored⟩, fun m₃ hstored' => (hlast hstored').mpr ⟨m', ?_⟩⟩
    rw [hstored'.unique hstored]
    exact hstatus

theorem storeKeeps_suffix (L : List CStr) : StoreKeeps os fun _ L' => L <:+ L' where
  mkdir _ _ _ h := h
  malloc _ _ h := h
  freshUUID _ _ h := h
  redSaveConfig _ L' path config h := by
    unfold recorded
    split
    · exact h
    · exact h.trans (List.suffix_cons path L')
  redSaveStatus _ L' path status h := by
    unfold recorded
    split
    · exact h
    · exact h.trans (List.suffix_cons path L')

theorem storeNode_clean_iff (hready : Ready m.fab) (c : NodeContent) (update : Bool) :
    Clean (storeNode os c.normal c.admin c.timestamp c.today update) m ↔ Whole os c update m := by
  have hconfig : failed .storingConfig ≠ rednodeFactoryOk := by decide
  have hstatus : failed .storingStatus ≠ rednodeFactoryOk := by decide
  have hfirst : ∀ {m₁}, storeConfig os (getNormalConfSubpath os) c.normal update m =
      .ok rednodeFactoryOk m₁ ↔
      Stored os (configFile os (getNormalConfSubpath os) c.normal update) m m₁ := by
    intro m₁
    rw [storeConfig_eq, storeFile_ok_iff hready hconfig]
  rw [storeNode_eq]
  refine (andThen_clean_iff ?_).trans (and_congr ?_ (forall_congr' fun m₁ => ?_))
  · intro m₁ hnormal status m' hrest
    have hframe := (hfirst.mp hnormal).frame hready
    have hready₁ := hready.untouched hframe.1
    have hkeeps : KeepsOr (Kept (fun _ L => m₁.stored <:+ L) m₁.fab) nullOnly
        (andThen (storeConfig os (getAdminConfSubpath os) c.admin update)
          (storeLast os c.timestamp c.today)) :=
      (keepsOr_storeConfig (storeKeeps_suffix _) hready₁ c.admin update).bind fun _ =>
        KeepsOr.ite (fun _ => keepsOr_pure _) fun _ => KeepsOr.get_bind fun _ _ =>
          keepsOr_storeStatus (storeKeeps_suffix _) hready₁ _
    have hkept := wp_ok (hkeeps m₁ ⟨List.suffix_rfl, Untouched.refl _⟩) hrest
    intro heq
    have hlen := hkept.1.length_le
    rw [heq, hframe.2, List.length_cons] at hlen
    exact Nat.not_succ_le_self _ hlen
  · rw [storeConfig_eq]
    exact storeFile_clean_iff hready hconfig
  · rw [hfirst]
    refine forall_congr' fun hnormal => ?_
    have hframe := hnormal.frame hready
    exact storeRest_succeeds_iff hframe.1 (hready.untouched hframe.1) _ _ _ update

/-! ## The creation of a node -/

variable (os)

/-- Everything before the first store succeeds. -/
structure Prepared (params : NodeParam) (update : Bool) (c : NodeContent) (m m' : Machine ω) :
    Prop where
  validAlias : isValidAlias params.nodeAlias = true
  dated : (os.dateOfToday m.os).bytes ≠ []
  today : c.today = os.dateOfToday m.os
  timestamp : c.timestamp = os.redUtcGetTimeMs m.os
  configs : ∃ m₁, prepareNode os params update m = .ok (.ok (c.normal, c.admin)) m₁ ∧
    createDirectories os m₁.fab.rootLength m₁.fab.nodeLength m₁ = .ok rednodeFactoryOk m'

def NodeCreated (params : NodeParam) (update : Bool) (m m' : Machine ω) : Prop :=
  ∃ c m₁, Prepared os params update c m m₁ ∧ NodeStored os c update m₁ m'

/-- If the node gets to its first store, all of its files are stored once one is touched. -/
def NodeWhole (params : NodeParam) (update : Bool) (m : Machine ω) : Prop :=
  ∀ c m₁, Prepared os params update c m m₁ → Whole os c update m₁

variable {os}

theorem createNode_run {params : NodeParam} {update : Bool} :
    createNode os params update m =
      if isValidAlias params.nodeAlias = false then .ok (failed .invalidAlias) m
      else if (os.dateOfToday m.os).bytes = [] then .ok (failed .fmtDate) m
      else
        match prepareNode os params update m with
        | .error fault m₁ => .error fault m₁
        | .ok (.error e) m₁ => .ok e m₁
        | .ok (.ok configs) m₁ =>
          andThen (createDirectories os m₁.fab.rootLength m₁.fab.nodeLength)
            (storeNode os configs.1 configs.2 (os.redUtcGetTimeMs m.os) (os.dateOfToday m.os)
              update) m₁ := by
  unfold createNode
  split
  · rfl
  · rw [get_bind]
    split
    · rfl
    · cases hprepare : prepareNode os params update m with
      | error fault m₁ => rw [bind_of_error hprepare]
      | ok configs m₁ =>
        rw [bind_of_ok hprepare]
        cases configs with
        | error e => rfl
        | ok configs => rfl

theorem templateFile_error {w : ω} {path : CStr} {admin : Bool} {e : Int}
    (h : templateFile os w path admin = .error e) : e ≠ rednodeFactoryOk := by
  have hext : ∀ {ext e}, addExtension path ext = .error e → e ≠ rednodeFactoryOk := fun h => by
    unfold addExtension at h
    split at h <;> cases h
    decide
  unfold templateFile at h
  split at h
  · cases h
  · split at h
    · cases h
      decide
    · split at h
      · rename_i hyaml
        cases h
        exact hext hyaml
      · split at h
        · cases h
        · split at h
          · rename_i hkind
            cases h
            exact hext hkind
          · split at h <;> cases h
            decide

theorem templatePrefix_error {tmpldir tmplname : CStr} {e : Int}
    (h : templatePrefix tmpldir tmplname = .error e) : e ≠ rednodeFactoryOk := by
  unfold templatePrefix at h
  split at h
  · cases h
  · simp only at h
    split at h <;> cases h
    decide

theorem loadTemplateConfig_error {w : ω} {params : NodeParam} {admin : Bool} {e : Int}
    (h : loadTemplateConfig os w params admin = .error e) : e ≠ rednodeFactoryOk := by
  unfold loadTemplateConfig at h
  generalize (if admin = true then params.admin else params.normal) = tmplname at h
  simp only at h
  cases hfront : templatePrefix params.templatedir tmplname with
  | error e' =>
    rw [hfront] at h
    cases h
    exact templatePrefix_error hfront
  | ok front =>
    rw [hfront] at h
    simp only at h
    split at h
    · cases h
      decide
    · cases hfile : templateFile os w (front.append tmplname) admin with
      | error e' =>
        rw [hfile] at h
        cases h
        exact templateFile_error hfile
      | ok path =>
        rw [hfile] at h
        simp only at h
        split at h <;> cases h
        decide

/-- An error is not the status of success. -/
def Failing {α : Type} : Except Int α → Prop
  | .error e => e ≠ rednodeFactoryOk
  | .ok _ => True

theorem configHeaders_failing {E : Fault → Machine ω → Prop} (hE : ∀ fault m, E fault m)
    (config : RedConfig) (params : NodeParam) (admin update : Bool) :
    wp (configHeaders os config params admin update) (fun r _ => Failing r) E m := by
  have hany : ∀ {α : Type} {x : FactoryM ω α} {m : Machine ω}, wp x (fun _ _ => True) E m := by
    intro α x m
    unfold wp
    cases x m with
    | ok a t => trivial
    | error e t => exact hE e t
  unfold configHeaders
  rw [wp_ite]
  split
  · unfold updateConfigHeaders
    refine wp_bind.mpr (wp_mono hany (fun status m₁ _ => ?_) fun _ _ he => he)
    rw [wp_ite]
    split
    · rename_i hne
      exact hne
    · refine wp_bind.mpr (wp_mono hany (fun path m₂ _ => ?_) fun _ _ he => he)
      rw [wp_bind, wp_get]
      split
      · exact (by decide : failed .configNotExist ≠ rednodeFactoryOk)
      · rw [wp_ite]
        split
        · exact (by decide : failed .invalidAlias ≠ rednodeFactoryOk)
        · split
          · refine wp_bind.mpr (wp_mono hany (fun there m₃ _ => ?_) fun _ _ he => he)
            rw [wp_ite]
            split
            · exact trivial
            · exact (by decide : failed .allocation ≠ rednodeFactoryOk)
          · exact hE _ _
  · unfold makeConfigHeaders
    rw [wp_bind, wp_get]
    split
    · exact (by decide : failed .allocation ≠ rednodeFactoryOk)
    · refine wp_bind.mpr (wp_mono hany (fun there m₃ _ => ?_) fun _ _ he => he)
      rw [wp_ite]
      split
      · exact wp_bind.mpr (wp_mono hany (fun _ _ _ => trivial) fun _ _ he => he)
      · exact (by decide : failed .allocation ≠ rednodeFactoryOk)

theorem prepareNode_failing (params : NodeParam) (update : Bool) :
    wp (prepareNode os params update) (fun r _ => Failing r) (fun _ _ => True) m := by
  unfold prepareNode
  rw [wp_bind, wp_get]
  cases hnormal : loadTemplateConfig os m.os params false with
  | error e => exact loadTemplateConfig_error hnormal
  | ok normalConfig =>
    refine wp_bind.mpr (wp_mono (configHeaders_failing (fun _ _ => trivial) _ _ _ _)
      (fun headed m₁ hheaded => ?_) fun _ _ he => he)
    cases headed with
    | error e => exact hheaded
    | ok normalConfig =>
      show wp _ _ _ _
      rw [wp_bind, wp_get]
      cases hadmin : loadTemplateConfig os m₁.os params true with
      | error e => exact loadTemplateConfig_error hadmin
      | ok adminConfig =>
        refine wp_bind.mpr (wp_mono (configHeaders_failing (fun _ _ => trivial) _ _ _ _)
          (fun headed m₂ hheaded => ?_) fun _ _ he => he)
        cases headed with
        | error e => exact hheaded
        | ok adminConfig => exact trivial

/-- What the creation of a node comes to: it is refused before anything is stored, or it gets to its
first store. -/
theorem createNode_cases (hready : Ready m.fab) (params : NodeParam) (update : Bool) :
    ((∀ c m₁, ¬ Prepared os params update c m m₁) ∧
      ∀ status m', createNode os params update m = .ok status m' →
        status ≠ rednodeFactoryOk ∧ m'.stored = m.stored) ∨
    ∃ c m₁, Prepared os params update c m m₁ ∧ Untouched m.fab m₁.fab ∧ m₁.stored = m.stored ∧
      createNode os params update m =
        storeNode os c.normal c.admin c.timestamp c.today update m₁ := by
  have hsame := osKeeps_stored os m.stored
  rw [createNode_run]
  split
  · rename_i halias
    refine .inl ⟨fun c m₁ h => ?_, fun status m' heq => ?_⟩
    · rw [h.validAlias] at halias
      cases halias
    · cases heq
      exact ⟨by decide, rfl⟩
  · rename_i halias
    split
    · rename_i hdate
      refine .inl ⟨fun c m₁ h => h.dated hdate, fun status m' heq => ?_⟩
      cases heq
      exact ⟨by decide, rfl⟩
    · rename_i hdate
      have hkept := keepsOr_prepareNode hsame hready params update m ⟨rfl, Untouched.refl _⟩
      cases hprepare : prepareNode os params update m with
      | error fault m₁ =>
        refine .inl ⟨fun c m₂ h => ?_, fun status m' heq => by cases heq⟩
        obtain ⟨m₃, hconfigs, -⟩ := h.configs
        rw [hprepare] at hconfigs
        cases hconfigs
      | ok configs m₁ =>
        obtain ⟨hstored, hfab⟩ := wp_ok hkept hprepare
        cases configs with
        | error e =>
          refine .inl ⟨fun c m₂ h => ?_, fun status m' heq => ?_⟩
          · obtain ⟨m₃, hconfigs, -⟩ := h.configs
            rw [hprepare] at hconfigs
            cases hconfigs
          · cases heq
            have hfailing := wp_ok (prepareNode_failing params update) hprepare
            exact ⟨hfailing, hstored⟩
        | ok configs =>
          have hready₁ := hready.untouched hfab
          obtain ⟨status, m₂, hdirs, hstored₂, hfab₂⟩ := exists_ok (createDirectories_spec
            (R := fun _ L => L = m.stored) hsame hready₁ hstored m₁.fab.nodeLength)
          by_cases hok : status = rednodeFactoryOk
          · subst hok
            refine .inr ⟨⟨configs.1, configs.2, os.redUtcGetTimeMs m.os, os.dateOfToday m.os⟩, m₂,
              ⟨by simpa using halias, hdate, rfl, rfl, m₁, hprepare, hdirs⟩, ?_, hstored₂, ?_⟩
            · rw [hfab₂]
              exact hfab
            · exact andThen_of_ok hdirs
          · refine .inl ⟨fun c m₃ h => ?_, fun status' m' heq => ?_⟩
            · obtain ⟨m₄, hconfigs, hdirs'⟩ := h.configs
              rw [hprepare] at hconfigs
              cases hconfigs
              rw [hdirs] at hdirs'
              cases hdirs'
              exact hok rfl
            · have hrun := (andThen_of_failed hdirs hok).symm.trans heq
              cases hrun
              exact ⟨hok, hstored₂⟩

theorem Prepared.unique {params : NodeParam} {update : Bool} {c c' : NodeContent}
    {m₁ m₂ : Machine ω} (h : Prepared os params update c m m₁)
    (h' : Prepared os params update c' m m₂) : c = c' ∧ m₁ = m₂ := by
  obtain ⟨m₃, hconfigs, hdirs⟩ := h.configs
  obtain ⟨m₄, hconfigs', hdirs'⟩ := h'.configs
  have htoday := h.today.trans h'.today.symm
  have htime := h.timestamp.trans h'.timestamp.symm
  obtain ⟨normal, admin, timestamp, today⟩ := c
  obtain ⟨normal', admin', timestamp', today'⟩ := c'
  rw [hconfigs] at hconfigs'
  cases hconfigs'
  rw [hdirs] at hdirs'
  cases hdirs'
  cases htoday
  cases htime
  exact ⟨rfl, rfl⟩

/-- **A node is created** exactly when everything before the stores succeeds, and the stores. -/
theorem createNode_ok_iff (hready : Ready m.fab) (params : NodeParam) (update : Bool) :
    createNode os params update m = .ok rednodeFactoryOk m' ↔
      NodeCreated os params update m m' := by
  rcases @createNode_cases _ os _ hready params update with
    ⟨hnot, hfails⟩ | ⟨c, m₁, hprepared, hfab, -, hrun⟩
  · constructor
    · exact fun heq => absurd rfl (hfails _ _ heq).1
    · rintro ⟨c, m₁, hprepared, -⟩
      exact absurd hprepared (hnot c m₁)
  · rw [hrun, storeNode_ok_iff (hready.untouched hfab)]
    constructor
    · exact fun hstored => ⟨c, m₁, hprepared, hstored⟩
    · rintro ⟨c', m₂, hprepared', hstored⟩
      obtain ⟨rfl, rfl⟩ := hprepared.unique hprepared'
      exact hstored

/-- **A failed creation leaves no trace** exactly when nothing fails after the first store. -/
theorem createNode_clean_iff (hready : Ready m.fab) (params : NodeParam) (update : Bool) :
    Clean (createNode os params update) m ↔ NodeWhole os params update m := by
  rcases @createNode_cases _ os _ hready params update with
    ⟨hnot, hfails⟩ | ⟨c, m₁, hprepared, hfab, hstored, hrun⟩
  · exact iff_of_true (fun status m' heq _ => (hfails status m' heq).2)
      fun c m₁ hprepared => absurd hprepared (hnot c m₁)
  · have hclean : Clean (createNode os params update) m ↔
        Clean (storeNode os c.normal c.admin c.timestamp c.today update) m₁ := by
      refine forall₂_congr fun status m' => ?_
      rw [hrun, hstored]
    rw [hclean, storeNode_clean_iff (hready.untouched hfab)]
    constructor
    · intro hwhole c' m₂ hprepared'
      obtain ⟨rfl, rfl⟩ := hprepared.unique hprepared'
      exact hwhole
    · exact fun hwhole => hwhole c m₁ hprepared

end

end Factory
end RedPak
