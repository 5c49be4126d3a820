import RedPak.Factory.Create

/-!
# Factory.ErrorCode

The results of the factory. Every one is an enumerator with its sign changed, which
`rednode_factory_error_text` turns into its text, but for the one of `create_directories`.

* `ends_status`, `ends_result`: a status that ends a function is its result.
* `errorCodes_iff`: the results are right when all directories can be made.
-/

namespace RedPak
namespace Factory

open Conf Node Layered.Action

/-! ## Texts -/

namespace RednodeFactoryError

/-- `text_of_errors` -/
def text : RednodeFactoryError → CStr
  | ok => .lit "No error"
  | cleared => .lit "Factory cleared"
  | allocation => .lit "Out of memory"
  | rootTooLong => .lit "Root path too long"
  | rootNotAbsolute => .lit "Root path isn't absolute"
  | rootNotExist => .lit "Root path isn't existing"
  | nodeTooLong => .lit "Node path too long"
  | defaultAliasEmpty => .lit "Default alias is empty"
  | mkDir => .lit "Can't create directories"
  | fmtDate => .lit "Can't create current date"
  | templateDirTooLong => .lit "Template directory path too long"
  | templateTooLong => .lit "Config path too long"
  | noTemplate => .lit "No configuration file"
  | loadingTemplate => .lit "Can't load configuration file"
  | configExist => .lit "Configuration file already existing"
  | storingConfig => .lit "Can't store configuration file"
  | pathTooLong => .lit "Path is too long"
  | storingStatus => .lit "Can't store status file"
  | atRoot => .lit "Can't inspect below root path"
  | configNotExist => .lit "Can't update not existing config"
  | invalidAlias => .lit "Invalid alias"

def all : List RednodeFactoryError :=
  [ok, cleared, allocation, rootTooLong, rootNotAbsolute, rootNotExist, nodeTooLong,
    defaultAliasEmpty, mkDir, fmtDate, templateDirTooLong, templateTooLong, noTemplate,
    loadingTemplate, configExist, storingConfig, pathTooLong, storingStatus, atRoot,
    configNotExist, invalidAlias]

end RednodeFactoryError

/-- `rednode_factory_error_text` -/
def rednodeFactoryErrorText (error : Int) : CStr :=
  match RednodeFactoryError.all.find? (·.code = error) with
  | some e => e.text
  | none => .lit "Unexpected error"

/-- The result stands for an error, with its text. -/
def Reports (rc : Int) : Prop :=
  ∃ e : RednodeFactoryError, rc = failed e ∧ rednodeFactoryErrorText (-rc) = e.text

theorem errorText_failed (e : RednodeFactoryError) :
    rednodeFactoryErrorText (-failed e) = e.text := by
  cases e <;> rfl

theorem reports_failed (e : RednodeFactoryError) : Reports (failed e) :=
  ⟨e, rfl, errorText_failed e⟩

theorem reports_ok : Reports rednodeFactoryOk := reports_failed .ok

theorem not_reports_code : ¬ Reports RednodeFactoryError.mkDir.code := by
  rintro ⟨e, he, _⟩
  cases e <;> cases he

/-! ## Sequences -/

variable {ω : Type} {m : Machine ω}

theorem ends_status {x rest : FactoryM ω Int} :
    Ends (do let status ← x; if status ≠ rednodeFactoryOk then pure status else rest)
        (fun rc _ => Reports rc) m ↔
      Ends x (fun rc _ => Reports rc) m ∧
        Ends x (fun rc m' => rc = rednodeFactoryOk → Ends rest (fun rc _ => Reports rc) m') m := by
  rw [ends_bind, ← ends_and]
  refine ends_congr fun status m' => ?_
  by_cases hok : status = rednodeFactoryOk
  · rw [if_neg (not_not.mpr hok), hok]
    exact ⟨fun h => ⟨reports_ok, fun _ => h⟩, fun h => h.2 rfl⟩
  · rw [if_pos hok]
    exact ⟨fun h => ⟨h, fun he => absurd he hok⟩, fun h => h.1⟩

/-- An error is right, or there is none. -/
def ReportsError {α : Type} (r : Except Int α) : Prop := ∀ e, r = .error e → Reports e

theorem reportsError_ok {α : Type} (a : α) : ReportsError (.ok a : Except Int α) :=
  fun _ h => (by cases h)

theorem reportsError_failed {α : Type} (e : RednodeFactoryError) :
    ReportsError (.error (failed e) : Except Int α) := fun _ h => by
  cases h
  exact reports_failed e

theorem ends_result {α : Type} {x : FactoryM ω (Except Int α)}
    {f : Except Int α → FactoryM ω Int} (hf : ∀ e, f (.error e) = pure e) :
    Ends (x >>= f) (fun rc _ => Reports rc) m ↔
      Ends x (fun r _ => ReportsError r) m ∧
        Ends x (fun r m' => ∀ a, r = .ok a → Ends (f (.ok a)) (fun rc _ => Reports rc) m') m := by
  rw [ends_bind, ← ends_and]
  refine ends_congr fun r m' => ?_
  cases r with
  | error e =>
    rw [hf]
    exact ⟨fun h => ⟨fun e' he => (by cases he; exact h), fun _ he => (by cases he)⟩,
      fun h => h.1 e rfl⟩
  | ok a =>
    exact ⟨fun h => ⟨reportsError_ok a, fun _ he => (by cases he; exact h)⟩, fun h => h.2 a rfl⟩

theorem ends_resultError {α β : Type} {x : FactoryM ω (Except Int α)}
    {f : Except Int α → FactoryM ω (Except Int β)} (hf : ∀ e, f (.error e) = pure (.error e)) :
    Ends (x >>= f) (fun r _ => ReportsError r) m ↔
      Ends x (fun r _ => ReportsError r) m ∧
        Ends x (fun r m' => ∀ a, r = .ok a → Ends (f (.ok a)) (fun r _ => ReportsError r) m')
          m := by
  rw [ends_bind, ← ends_and]
  refine ends_congr fun r m' => ?_
  cases r with
  | error e =>
    rw [hf]
    exact ⟨fun h => ⟨fun e' he => (by cases he; exact h _ rfl), fun _ he => (by cases he)⟩,
      fun h e' he => (by cases he; exact h.1 e rfl)⟩
  | ok a =>
    exact ⟨fun h => ⟨reportsError_ok a, fun _ he => (by cases he; exact h)⟩, fun h => h.2 a rfl⟩

/-! ## Directories -/

variable (os : FactoryOs ω)

/-- `make_directories` succeeds when `create_directories` calls it. -/
def DirectoriesMade (rootLength length : Nat) (m : Machine ω) : Prop :=
  Ends (rootExists os rootLength) (fun there m' => there = true →
    Ends (makeDirectories os m'.fab.path rootLength length) (fun made _ => made = true) m') m

/-- The same for the parent directories of a file of the node. -/
def SubpathMade (subpath : CStr) (m : Machine ω) : Prop :=
  subpath.bytes.length + m.fab.nodeLength < rednodeFactoryPathLen →
    Ends (copyPath m.fab.nodeLength (subpath.bytes ++ [0])) (fun _ m' =>
      DirectoriesMade os m.fab.rootLength (parentLength m'.fab.path m.fab.rootLength
        (subpath.bytes.length + m.fab.nodeLength)) m') m

variable {os}

theorem createDirectories_reports {rootLength length : Nat} :
    Ends (createDirectories os rootLength length) (fun rc _ => Reports rc) m ↔
      DirectoriesMade os rootLength length m := by
  rw [createDirectories, ends_bind]
  refine ends_congr fun there m' => ?_
  cases there with
  | false => exact iff_of_true (reports_failed .rootNotExist) fun h => (by cases h)
  | true =>
    rw [if_pos rfl, ends_get_bind, ends_bind, imp_iff_right rfl]
    refine ends_congr fun made m'' => ?_
    cases made with
    | false => exact iff_of_false not_reports_code (by simp)
    | true => exact iff_of_true reports_ok rfl

theorem setSubpathPath_reports {subpath : CStr} :
    Ends (setSubpathPath os subpath true) (fun rc _ => Reports rc) m ↔
      SubpathMade os subpath m := by
  rw [setSubpathPath, ends_get_bind]
  dsimp only
  by_cases hlen : subpath.bytes.length + m.fab.nodeLength ≥ rednodeFactoryPathLen
  · rw [if_pos hlen]
    exact iff_of_true (reports_failed .pathTooLong) fun h => absurd h (by omega)
  · rw [if_neg hlen, ends_bind, SubpathMade, imp_iff_right (Nat.lt_of_not_ge hlen)]
    refine ends_congr fun _ m' => ?_
    rw [if_pos rfl, createParentDirectories, ends_get_bind]
    exact createDirectories_reports

/-! ## Files -/

theorem ends_true {α : Type} {x : FactoryM ω α} {Q : α → Machine ω → Prop}
    (h : ∀ a m', Q a m') : Ends x Q m :=
  wp_of_ok fun a m' _ => h a m'

theorem storeConfig_reports {subpath : CStr} {redconfig : RedConfig} {update : Bool} :
    Ends (storeConfig os subpath redconfig update) (fun rc _ => Reports rc) m ↔
      SubpathMade os subpath m := by
  rw [storeConfig, ends_status, setSubpathPath_reports]
  refine and_iff_left (ends_true fun rc m' _ => ?_)
  rw [ends_bind]
  refine ends_true fun path m' => ?_
  rw [ends_get_bind]
  split
  · exact reports_failed .configExist
  · rw [ends_bind]
    refine ends_true fun stored m' => ?_
    split
    · exact reports_ok
    · exact reports_failed .storingConfig

theorem storeStatus_reports {subpath : CStr} {redstatus : RedStatus} :
    Ends (storeStatus os subpath redstatus) (fun rc _ => Reports rc) m ↔
      SubpathMade os subpath m := by
  rw [storeStatus, ends_status, setSubpathPath_reports]
  refine and_iff_left (ends_true fun rc m' _ => ?_)
  rw [ends_bind]
  refine ends_true fun path m' => ?_
  rw [ends_bind]
  refine ends_true fun stored m' => ?_
  split
  · exact reports_ok
  · exact reports_failed .storingStatus

variable (os)

/-- The directories of the three files can be made, one after the other. -/
def StoresMade (normalConfig adminConfig : RedConfig) (update : Bool) (m : Machine ω) : Prop :=
  SubpathMade os (getNormalConfSubpath os) m ∧
    Ends (storeConfig os (getNormalConfSubpath os) normalConfig update) (fun rc m' =>
      rc = rednodeFactoryOk → SubpathMade os (getAdminConfSubpath os) m' ∧
        Ends (storeConfig os (getAdminConfSubpath os) adminConfig update) (fun rc m'' =>
          rc = rednodeFactoryOk → SubpathMade os (getStatusSubpath os) m'') m') m

/-- An update makes the directories of a config before it reads it. -/
def HeadersMade (admin update : Bool) (m : Machine ω) : Prop :=
  update = true →
    SubpathMade os (if admin then getAdminConfSubpath os else getNormalConfSubpath os) m

def PrepareMade (params : NodeParam) (update : Bool) (m : Machine ω) : Prop :=
  ∀ normalConfig, loadTemplateConfig os m.os params false = .ok normalConfig →
    HeadersMade os false update m ∧
      Ends (configHeaders os normalConfig params false update) (fun r m' => ∀ c, r = .ok c →
        ∀ adminConfig, loadTemplateConfig os m'.os params true = .ok adminConfig →
          HeadersMade os true update m') m

/-- All directories can be made that `create_node` asks for. -/
def NodeMade (params : NodeParam) (update : Bool) (m : Machine ω) : Prop :=
  isValidAlias params.nodeAlias = true → (os.dateOfToday m.os).bytes ≠ [] →
    PrepareMade os params update m ∧
      Ends (prepareNode os params update) (fun r m' => ∀ configs, r = .ok configs →
        DirectoriesMade os m'.fab.rootLength m'.fab.nodeLength m' ∧
          Ends (createDirectories os m'.fab.rootLength m'.fab.nodeLength) (fun rc m'' =>
            rc = rednodeFactoryOk → StoresMade os configs.1 configs.2 update m'') m') m

def SystemMade (mode : RednodeFactoryMode) (templatedir : CStr) (m : Machine ω) : Prop :=
  mode = .legacy → m.fab.rootLength ≤ nodeOffset m.fab →
    isRednode os m.os m.fab.path (nodeOffset m.fab - 1) = false →
      NodeMade os
        ⟨.lit "system", rednodeFactoryDeftmplRoot, rednodeFactoryDeftmplRoot, templatedir⟩ false
        { m with fab := sysfab os m.fab (nodeOffset m.fab) }

/-- All directories can be made that `rednode_factory_create_node` asks for. -/
def CreateMade (params : RednodeFactoryParam) (update : Bool) (mode : RednodeFactoryMode)
    (m : Machine ω) : Prop :=
  m.fab.rootLength ≠ 0 →
    Ends (localias os m.fab params.nodeAlias) (fun r m' => ∀ nodeAlias, r = .ok nodeAlias →
      SystemMade os mode (params.templatedir.getD (getTemplateDir os)) m' ∧
        Ends (requireSystem os mode (params.templatedir.getD (getTemplateDir os))) (fun rc m'' =>
          rc = rednodeFactoryOk →
            NodeMade os ⟨nodeAlias, templateName params.normal mode,
              templateName params.admin mode,
              params.templatedir.getD (getTemplateDir os)⟩ update m'') m') m

variable {os}

theorem storeNode_reports {normalConfig adminConfig : RedConfig} {timestamp : Nat} {today : CStr}
    {update : Bool} :
    Ends (storeNode os normalConfig adminConfig timestamp today update) (fun rc _ => Reports rc) m ↔
      StoresMade os normalConfig adminConfig update m := by
  rw [storeNode, ends_status, storeConfig_reports, StoresMade]
  refine and_congr_right fun _ => ends_congr fun rc m' => imp_congr_right fun _ => ?_
  rw [ends_status, storeConfig_reports]
  refine and_congr_right fun _ => ends_congr fun rc m'' => imp_congr_right fun _ => ?_
  rw [ends_get_bind]
  exact storeStatus_reports

/-! ## Configs -/

theorem addExtension_reports {path ext : CStr} : ReportsError (addExtension path ext) := by
  unfold addExtension
  split
  · exact reportsError_failed .templateTooLong
  · exact reportsError_ok _

theorem templatePrefix_reports {tmpldir tmplname : CStr} :
    ReportsError (templatePrefix tmpldir tmplname) := by
  unfold templatePrefix
  split
  · exact reportsError_ok _
  · dsimp only
    split
    · exact reportsError_failed .templateDirTooLong
    · exact reportsError_ok _

theorem templateFile_reports {w : ω} {path : CStr} {admin : Bool} :
    ReportsError (templateFile os w path admin) := by
  unfold templateFile
  split
  · exact reportsError_ok _
  split
  · exact reportsError_failed .noTemplate
  split
  · rename_i e he
    intro e' h
    cases h
    exact addExtension_reports e he
  split
  · exact reportsError_ok _
  split
  · rename_i e he
    intro e' h
    cases h
    exact addExtension_reports e he
  split
  · exact reportsError_ok _
  · exact reportsError_failed .noTemplate

theorem loadTemplateConfig_reports {w : ω} {params : NodeParam} {admin : Bool} :
    ReportsError (loadTemplateConfig os w params admin) := by
  unfold loadTemplateConfig
  generalize (if admin then params.admin else params.normal) = tmplname
  dsimp only
  split
  · rename_i e he
    intro e' h
    cases h
    exact templatePrefix_reports e he
  split
  · exact reportsError_failed .templateTooLong
  split
  · rename_i e he
    intro e' h
    cases h
    exact templateFile_reports e he
  split
  · exact reportsError_failed .loadingTemplate
  · exact reportsError_ok _

theorem makeConfigHeaders_reports {config : RedConfig} {nodeAlias : CStr} {admin : Bool} :
    Ends (makeConfigHeaders os config nodeAlias admin) (fun r _ => ReportsError r) m := by
  rw [makeConfigHeaders, ends_get_bind]
  split
  · exact reportsError_failed .allocation
  · rw [ends_bind]
    refine ends_true fun there m' => ?_
    split
    · rw [ends_bind]
      exact ends_true fun hName m' => reportsError_ok _
    · exact reportsError_failed .allocation

theorem updateConfigHeaders_reports {config : RedConfig} {subpath : CStr} :
    Ends (updateConfigHeaders os config subpath) (fun r _ => ReportsError r) m ↔
      SubpathMade os subpath m := by
  rw [updateConfigHeaders, ends_bind, ← setSubpathPath_reports]
  refine ends_congr fun status m' => ?_
  by_cases hok : status = rednodeFactoryOk
  · subst hok
    refine iff_of_true ?_ reports_ok
    rw [if_neg (by simp), ends_bind]
    refine ends_true fun path m' => ?_
    rw [ends_get_bind]
    split
    · exact reportsError_failed .configNotExist
    split
    · exact reportsError_failed .invalidAlias
    split
    · rw [ends_bind]
      refine ends_true fun there m' => ?_
      split
      · exact reportsError_ok _
      · exact reportsError_failed .allocation
    · exact ends_throw _
  · rw [if_pos hok]
    exact ⟨fun h => h status rfl, fun h e he => (by cases he; exact h)⟩

theorem configHeaders_reports {config : RedConfig} {params : NodeParam} {admin update : Bool} :
    Ends (configHeaders os config params admin update) (fun r _ => ReportsError r) m ↔
      HeadersMade os admin update m := by
  rw [configHeaders]
  cases update with
  | false =>
    rw [if_neg (by simp)]
    exact iff_of_true makeConfigHeaders_reports fun h => (by cases h)
  | true =>
    rw [if_pos rfl, updateConfigHeaders_reports]
    exact (imp_iff_right rfl).symm

theorem prepareNode_reports {params : NodeParam} {update : Bool} :
    Ends (prepareNode os params update) (fun r _ => ReportsError r) m ↔
      PrepareMade os params update m := by
  rw [prepareNode, ends_get_bind, PrepareMade]
  cases hnormal : loadTemplateConfig os m.os params false with
  | error e =>
    refine iff_of_true (fun e' he => ?_) fun _ h => (by cases h)
    cases he
    exact loadTemplateConfig_reports e hnormal
  | ok normalConfig =>
    dsimp only
    rw [ends_resultError (by exact fun _ => rfl), configHeaders_reports]
    simp only [Except.ok.injEq, forall_eq']
    refine and_congr_right fun _ => ends_congr fun r m' => forall_congr' fun c =>
      imp_congr_right fun _ => ?_
    rw [ends_get_bind]
    cases hadmin : loadTemplateConfig os m'.os params true with
    | error e =>
      refine iff_of_true (fun e' he => ?_) fun _ h => (by cases h)
      cases he
      exact loadTemplateConfig_reports e hadmin
    | ok adminConfig =>
      dsimp only
      rw [ends_resultError (by exact fun _ => rfl), configHeaders_reports]
      simp only [Except.ok.injEq, forall_eq']
      exact and_iff_left (ends_true fun r m'' _ _ => reportsError_ok _)

/-! ## Nodes -/

theorem createNode_reports {params : NodeParam} {update : Bool} :
    Ends (createNode os params update) (fun rc _ => Reports rc) m ↔
      NodeMade os params update m := by
  rw [createNode, NodeMade]
  by_cases halias : isValidAlias params.nodeAlias = false
  · rw [if_pos halias]
    exact iff_of_true (reports_failed .invalidAlias) fun h => (by rw [halias] at h; cases h)
  rw [if_neg halias, ends_get_bind, imp_iff_right (by simpa using halias)]
  dsimp only
  by_cases htoday : (os.dateOfToday m.os).bytes = []
  · rw [if_pos htoday]
    exact iff_of_true (reports_failed .fmtDate) fun h => absurd htoday h
  rw [if_neg htoday, imp_iff_right htoday, ends_result (by exact fun _ => rfl), prepareNode_reports]
  refine and_congr_right fun _ => ends_congr fun r m' => forall_congr' fun configs =>
    imp_congr_right fun _ => ?_
  rw [ends_get_bind, ends_status, createDirectories_reports]
  exact and_congr_right fun _ => ends_congr fun rc m'' => imp_congr_right fun _ =>
    storeNode_reports

theorem createRootNode_reports {nodeLength : Nat} {templatedir : CStr} :
    Ends (createRootNode os nodeLength templatedir) (fun rc _ => Reports rc) m ↔
      NodeMade os
        ⟨.lit "system", rednodeFactoryDeftmplRoot, rednodeFactoryDeftmplRoot, templatedir⟩ false
        { m with fab := sysfab os m.fab nodeLength } := by
  rw [← createNode_reports, createRootNode, ends_get_bind, ends_bind]
  exact ends_bind

theorem requireSystem_reports {mode : RednodeFactoryMode} {templatedir : CStr} :
    Ends (requireSystem os mode templatedir) (fun rc _ => Reports rc) m ↔
      SystemMade os mode templatedir m := by
  rw [requireSystem, ends_get_bind, SystemMade]
  dsimp only
  by_cases hmode : mode ≠ .legacy
  · rw [if_pos hmode]
    exact iff_of_true reports_ok fun h => absurd h hmode
  rw [if_neg hmode, imp_iff_right (not_not.mp hmode)]
  by_cases hoff : nodeOffset m.fab < m.fab.rootLength
  · rw [if_pos hoff]
    exact iff_of_true (reports_failed .atRoot) fun h => absurd hoff (Nat.not_lt.mpr h)
  rw [if_neg hoff, imp_iff_right (Nat.le_of_not_lt hoff)]
  cases hnode : isRednode os m.os m.fab.path (nodeOffset m.fab - 1) with
  | true => exact iff_of_true reports_ok fun h => (by cases h)
  | false =>
    rw [if_neg (by simp), imp_iff_right rfl]
    exact createRootNode_reports

theorem localias_reports {fab : RednodeFactory} {given : Option CStr} :
    Ends (localias os fab given) (fun r _ => ReportsError r) m := by
  have hdeduced : Ends (localias.deduced os fab) (fun r _ => ReportsError r) m := by
    rw [localias.deduced]
    split
    · exact reportsError_failed .defaultAliasEmpty
    · rw [ends_bind]
      refine ends_true fun there m' => ?_
      split
      · exact reportsError_ok _
      · exact reportsError_failed .allocation
  unfold localias
  split
  · split
    · exact reportsError_ok _
    · exact hdeduced
  · exact hdeduced

theorem create_reports {params : Option RednodeFactoryParam} {update : Bool}
    {mode : RednodeFactoryMode} :
    Ends (rednodeFactoryCreateNode os params update mode) (fun rc _ => Reports rc) m ↔
      CreateMade os (params.getD {}) update mode m := by
  rw [rednodeFactoryCreateNode, ends_get_bind, CreateMade]
  dsimp only
  by_cases hroot : m.fab.rootLength = 0
  · rw [if_pos hroot]
    exact iff_of_true (reports_failed .cleared) fun h => absurd hroot h
  rw [if_neg hroot, imp_iff_right hroot, ends_result (by exact fun _ => rfl)]
  refine (and_iff_right localias_reports).trans ?_
  refine ends_congr fun r m' => forall_congr' fun nodeAlias => imp_congr_right fun _ => ?_
  rw [ends_status, requireSystem_reports]
  exact and_congr_right fun _ => ends_congr fun rc m'' => imp_congr_right fun _ =>
    createNode_reports

/-! ## The functions of the factory -/

theorem setRootLen_reports {path : List UInt8} :
    Ends (rednodeFactorySetRootLen path : FactoryM ω Int) (fun rc _ => Reports rc) m := by
  rw [rednodeFactorySetRootLen]
  split
  · exact reports_failed .rootTooLong
  split
  · exact reports_failed .rootNotAbsolute
  rw [ends_bind]
  refine ends_true fun _ m' => ?_
  rw [ends_bind]
  exact ends_true fun _ m' => reports_ok

theorem setNodeLen_reports {path : List UInt8} :
    Ends (rednodeFactorySetNodeLen path : FactoryM ω Int) (fun rc _ => Reports rc) m := by
  rw [rednodeFactorySetNodeLen, ends_get_bind]
  dsimp only
  split
  · exact reports_failed .cleared
  split
  · exact reports_ok
  split
  · exact reports_failed .nodeTooLong
  rw [ends_bind]
  refine ends_true fun _ m' => ?_
  rw [ends_bind]
  exact ends_true fun _ m' => reports_ok

/-- The results stand for the errors that occurred. -/
structure ErrorCodes (os : FactoryOs ω) (root node : CStr) (params : Option RednodeFactoryParam)
    (update : Bool) (mode : RednodeFactoryMode) (m : Machine ω) : Prop where
  setRoot : Ends (rednodeFactorySetRoot root) (fun rc _ => Reports rc) m
  setNode : Ends (rednodeFactorySetNode node) (fun rc _ => Reports rc) m
  createNode : Ends (rednodeFactoryCreateNode os params update mode) (fun rc _ => Reports rc) m

/-- **The error codes** are right exactly when `make_directories` makes all directories that the
creation of the node asks for. -/
theorem errorCodes_iff (os : FactoryOs ω) (root node : CStr) (params : Option RednodeFactoryParam)
    (update : Bool) (mode : RednodeFactoryMode) (m : Machine ω) :
    ErrorCodes os root node params update mode m ↔
      CreateMade os (params.getD {}) update mode m := by
  rw [← create_reports]
  exact ⟨fun h => h.createNode, fun h => ⟨setRootLen_reports, setNodeLen_reports, h⟩⟩

/-- A system where no directory can be made. -/
def fullDiskOs : FactoryOs Unit where
  stat _ path :=
    if path = .lit "/" then some .directory
    else if path = .lit "/etc/redpak/templates.d/leaf" then some .regular else none
  redLoadConfig _ _ := some { headers := { nodeAlias := .lit "leaf" } }
  redLoadStatus _ _ := none
  secureGetenv _ := none
  mkdir _ _ := (false, ())
  redSaveConfig _ _ _ := (.untouched, ())
  redSaveStatus _ _ _ := (.untouched, ())
  malloc _ := (true, ())
  freshUUID _ := (.lit "uuid", ())
  redUtcGetTimeMs _ := 0
  dateOfToday _ := .lit "today"
  expand _ text := some text
  stack _ := 0

/-- The root `/` and the node `/node/`. -/
def nodeFactory : RednodeFactory :=
  ⟨1, 6, Layered.Buffer.writeAll (fun _ => 0) 0 (CStr.lit "/node/").bytes⟩

/-- The error is returned as it is, and its text is not found. -/
theorem mkDir_unexpected :
    ¬ ErrorCodes fullDiskOs (CStr.lit "/") (CStr.lit "node") none false .deflt
      ⟨nodeFactory, (), []⟩ ∧
    ∃ m', rednodeFactoryCreateNode fullDiskOs none false .deflt ⟨nodeFactory, (), []⟩ =
        .ok RednodeFactoryError.mkDir.code m' ∧
      rednodeFactoryErrorText (-RednodeFactoryError.mkDir.code) = .lit "Unexpected error" := by
  have hends : endsIn (rednodeFactoryCreateNode fullDiskOs none false .deflt)
      ⟨nodeFactory, (), []⟩ (fun rc _ => decide (rc = RednodeFactoryError.mkDir.code)) = true := by
    decide +kernel
  obtain ⟨rc, m', hrun, hrc⟩ := of_endsIn hends
  rw [decide_eq_true_eq] at hrc
  subst hrc
  refine ⟨fun h => not_reports_code ?_, m', hrun, rfl⟩
  have hreports := h.createNode
  rw [Ends, Layered.Action.wp, hrun] at hreports
  exact hreports

end Factory
end RedPak
