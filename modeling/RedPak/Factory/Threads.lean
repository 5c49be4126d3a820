import RedPak.Factory.Crowd
import RedPak.Factory.Invariant
import RedPak.Node.Scan

/-!
# Factory.Threads

The factory and the upward scan as the sequences of their system calls, so that several processes
can run side by side on one file system. A process has its own factory. To load a file is one call,
to save it two: another process may come in between when it is open, and empty.

* `alike_session`: alone, a process does what the factory does.
* `reads_redNodesScan`: while nothing changes, the scan is that of one state.
-/

namespace RedPak
namespace Factory

open Conf Node Layered
open Layered.Buffer (slice writeAll)
open Layered.Action

/-- What a process does with a factory of its own, call by call. -/
abbrev FactoryCalls (ω : Type) := StateT RednodeFactory (Calls ω)

/-- How two tries of a save end, if the first one fails. -/
def Saving.again : Saving → Saving → Saving
  | _, .saved => .saved
  | .untouched, second => second
  | _, _ => .spoilt

/-- `SchemaSave`: a save that fails is tried once more. -/
def schemaSave {ω : Type} (save : ω → Saving × ω) (w : ω) : Saving × ω :=
  let first := save w
  if first.1 = .saved then first
  else
    let second := save first.2
    (first.1.again second.1, second.2)

/-- The two halves of a save. -/
structure Saves {ω : Type} (os : FactoryOs ω) where
  openFile : ω → CStr → ω
  writeConfig : ω → CStr → RedConfig → Saving × ω
  writeStatus : ω → CStr → RedStatus → Saving × ω
  redSaveConfig : ∀ w path redconfig, os.redSaveConfig w path redconfig =
    schemaSave (fun w => writeConfig (openFile w path) path redconfig) w
  redSaveStatus : ∀ w path redstatus, os.redSaveStatus w path redstatus =
    schemaSave (fun w => writeStatus (openFile w path) path redstatus) w

namespace Calls

variable {ω : Type} (os : FactoryOs ω)

/-! ## Single calls -/

/-- What one call tells. -/
def look {α : Type} (f : ω → α) : Calls ω α :=
  .once do
    let w ← get
    pure (f w)

def access (path : CStr) : Calls ω Bool := look (os.access · path)

def redLoadConfig (path : CStr) : Calls ω (Option RedConfig) := look (os.redLoadConfig · path)

def redLoadStatus (path : CStr) : Calls ω (Option RedStatus) := look (os.redLoadStatus · path)

def malloc : Calls ω Bool := .once fun w => .ok (os.malloc w).1 (os.malloc w).2

def getFreshUUID : Calls ω CStr := .once fun w => .ok (os.freshUUID w).1 (os.freshUUID w).2

/-! ## The path of the factory -/

def copyPath (i : Nat) (bytes : List UInt8) : FactoryCalls ω Unit := fun fab =>
  if i + bytes.length ≤ rednodeFactoryPathLen then
    pure ((), { fab with path := writeAll fab.path i bytes })
  else .stop .outsidePath

def pathString : FactoryCalls ω CStr := fun fab =>
  if (0 : UInt8) ∈ slice fab.path 0 rednodeFactoryPathLen then
    pure (CStr.ofBytes (slice fab.path 0 rednodeFactoryPathLen), fab)
  else .stop .outsidePath

def setLengths (rootLength nodeLength : Nat) : FactoryCalls ω Unit :=
  modify fun fab => { fab with rootLength := rootLength, nodeLength := nodeLength }

def rednodeFactoryClear : FactoryCalls ω Unit := set (⟨0, 0, fun _ => 0⟩ : RednodeFactory)

def rednodeFactorySetRootLen (path : List UInt8) : FactoryCalls ω Int := do
  let path := path.rdropWhile (· == slash)
  if path ≠ [] ∧ path.length + 1 ≥ rednodeFactoryPathLen then
    pure (failed .rootTooLong)
  else if path ≠ [] ∧ path.head? ≠ some slash then
    pure (failed .rootNotAbsolute)
  else do
    copyPath 0 path
    copyPath path.length [slash]
    setLengths (path.length + 1) (path.length + 1)
    pure rednodeFactoryOk

def rednodeFactorySetNodeLen (path : List UInt8) : FactoryCalls ω Int := do
  let fab ← get
  let rootLength := fab.rootLength
  if rootLength = 0 then
    pure (failed .cleared)
  else do
    let path := (path.rdropWhile (· == slash)).dropWhile (· == slash)
    if path = [] then do
      setLengths rootLength rootLength
      pure rednodeFactoryOk
    else if path.length + 1 + rootLength ≥ rednodeFactoryPathLen then
      pure (failed .nodeTooLong)
    else do
      copyPath rootLength path
      copyPath (rootLength + path.length) [slash]
      setLengths rootLength (rootLength + path.length + 1)
      pure rednodeFactoryOk

/-! ## Directories -/

def rootExists (rootLength : Nat) : FactoryCalls ω Bool :=
  if rootLength > 1 then do
    copyPath (rootLength - 1) [0]
    let root ← pathString
    let exist ← access os root
    copyPath (rootLength - 1) [slash]
    pure exist
  else pure true

def createDirectories (rootLength length : Nat) : FactoryCalls ω Int := do
  let exist ← rootExists os rootLength
  if exist then do
    let fab ← get
    let made ← makeDirectories os fab.path rootLength length
    pure (if made then rednodeFactoryOk else RednodeFactoryError.mkDir.code)
  else pure (failed .rootNotExist)

def createParentDirectories (rootLength length : Nat) : FactoryCalls ω Int := do
  let fab ← get
  createDirectories os rootLength (parentLength fab.path rootLength length)

def setSubpathPath (subpath : CStr) : FactoryCalls ω Int := do
  let fab ← get
  if subpath.bytes.length + fab.nodeLength ≥ rednodeFactoryPathLen then
    pure (failed .pathTooLong)
  else do
    copyPath fab.nodeLength (subpath.bytes ++ [0])
    createParentDirectories os fab.rootLength (subpath.bytes.length + fab.nodeLength)

/-! ## Templates -/

/-- The path is tried again with the extension of its kind. -/
def kindFile (path : CStr) (admin : Bool) : Calls ω (Except Int CStr) :=
  match addExtension path (if admin then admext else stdext) with
  | .error e => pure (.error e)
  | .ok withKind => do
    let there ← access os withKind
    pure (if there then .ok withKind else .error (failed .noTemplate))

def templateFile (path : CStr) (admin : Bool) : Calls ω (Except Int CStr) := do
  let there ← access os path
  if there then pure (.ok path)
  else if path.bytes.length < yamlext.bytes.length ∨ yamlext.bytes <:+ path.bytes then
    pure (.error (failed .noTemplate))
  else
    match addExtension path yamlext with
    | .error e => pure (.error e)
    | .ok withYaml => do
      let there ← access os withYaml
      if there then pure (.ok withYaml) else kindFile os path admin

def loadTemplateConfig (params : NodeParam) (admin : Bool) : Calls ω (Except Int RedConfig) :=
  let tmplname := if admin then params.admin else params.normal
  match templatePrefix params.templatedir tmplname with
  | .error e => pure (.error e)
  | .ok front =>
    if tmplname.bytes.length + front.bytes.length ≥ rednodeFactoryPathLen then
      pure (.error (failed .templateTooLong))
    else do
      match ← templateFile os (front.append tmplname) admin with
      | .error e => pure (.error e)
      | .ok path => do
        match ← redLoadConfig os path with
        | none => pure (.error (failed .loadingTemplate))
        | some redconfig => pure (.ok redconfig)

/-! ## Headers -/

def makeConfigHeaders (config : RedConfig) (nodeAlias : CStr) (admin : Bool) :
    Calls ω (Except Int RedConfig) := do
  match ← look (os.expand · freshInfo) with
  | none => pure (.error (failed .allocation))
  | some hInfo => do
    let there ← malloc os
    if there then do
      let hName ← getFreshUUID os
      let hAlias := if admin then adminAliasPrefix.append nodeAlias else nodeAlias
      pure (.ok { config with headers := ⟨hAlias, some hName, some hInfo⟩ })
    else pure (.error (failed .allocation))

/-- The headers of a config that was loaded. -/
def copyHeaders (config prvcfg : RedConfig) : Calls ω (Except Int RedConfig) :=
  if isValidAlias prvcfg.headers.nodeAlias = false then pure (.error (failed .invalidAlias))
  else
    match prvcfg.headers.info, prvcfg.headers.name with
    | some _, some _ => do
      let there ← malloc os
      pure (if there then .ok { config with headers := prvcfg.headers }
        else .error (failed .allocation))
    | _, _ => .stop .nullString

def updateConfigHeaders (config : RedConfig) (subpath : CStr) :
    FactoryCalls ω (Except Int RedConfig) := do
  let status ← setSubpathPath os subpath
  if status ≠ rednodeFactoryOk then pure (.error status)
  else do
    let path ← pathString
    match ← redLoadConfig os path with
    | none => pure (.error (failed .configNotExist))
    | some prvcfg => copyHeaders os config prvcfg

def configHeaders (config : RedConfig) (params : NodeParam) (admin update : Bool) :
    FactoryCalls ω (Except Int RedConfig) :=
  if update then
    updateConfigHeaders os config
      (if admin then getAdminConfSubpath os else getNormalConfSubpath os)
  else makeConfigHeaders os config params.nodeAlias admin

/-! ## Nodes -/

/-- A template with its headers. -/
def prepareConfig (params : NodeParam) (admin update : Bool) :
    FactoryCalls ω (Except Int RedConfig) := do
  match ← loadTemplateConfig os params admin with
  | .error e => pure (.error e)
  | .ok config => configHeaders os config params admin update

def prepareNode (params : NodeParam) (update : Bool) :
    FactoryCalls ω (Except Int (RedConfig × RedConfig)) := do
  match ← prepareConfig os params false update with
  | .error e => pure (.error e)
  | .ok normalConfig => do
    match ← prepareConfig os params true update with
    | .error e => pure (.error e)
    | .ok adminConfig => pure (.ok (normalConfig, adminConfig))

def localias (fab : RednodeFactory) (given : Option CStr) : Calls ω (Except Int CStr) :=
  match given with
  | some nodeAlias => if nodeAlias.bytes ≠ [] then pure (.ok nodeAlias) else deduced
  | none => deduced
where
  deduced : Calls ω (Except Int CStr) :=
    if fab.nodeLength = fab.rootLength ∨ (nodeBytes fab).length = nodeOffset fab then
      pure (.error (failed .defaultAliasEmpty))
    else do
      let there ← malloc os
      pure (if there then .ok (nodeName fab) else .error (failed .allocation))

/-! ## Files -/

section

variable {os : FactoryOs ω} (saves : Saves os)

def openFile (path : CStr) : Calls ω Unit := .once fun w => .ok () (saves.openFile w path)

def writeConfig (path : CStr) (redconfig : RedConfig) : Calls ω Bool :=
  .once fun w => .ok ((saves.writeConfig w path redconfig).1 = .saved : Bool)
    (saves.writeConfig w path redconfig).2

def writeStatus (path : CStr) (redstatus : RedStatus) : Calls ω Bool :=
  .once fun w => .ok ((saves.writeStatus w path redstatus).1 = .saved : Bool)
    (saves.writeStatus w path redstatus).2

def schemaSave (path : CStr) (write : Calls ω Bool) : Calls ω Bool := do
  openFile saves path
  let saved ← write
  if saved then pure true
  else do
    openFile saves path
    write

def redSaveConfig (path : CStr) (redconfig : RedConfig) : Calls ω Bool :=
  schemaSave saves path (writeConfig saves path redconfig)

def redSaveStatus (path : CStr) (redstatus : RedStatus) : Calls ω Bool :=
  schemaSave saves path (writeStatus saves path redstatus)

def storeFile (path : CStr) (redconfig : RedConfig) : Calls ω Int := do
  let saved ← redSaveConfig saves path redconfig
  pure (if saved then rednodeFactoryOk else failed .storingConfig)

def storeConfig (subpath : CStr) (redconfig : RedConfig) (update : Bool) : FactoryCalls ω Int := do
  let status ← setSubpathPath os subpath
  if status ≠ rednodeFactoryOk then pure status
  else do
    let path ← pathString
    if update then storeFile saves path redconfig
    else do
      let there ← access os path
      if there then pure (failed .configExist) else storeFile saves path redconfig

def storeStatus (subpath : CStr) (redstatus : RedStatus) : FactoryCalls ω Int := do
  let status ← setSubpathPath os subpath
  if status ≠ rednodeFactoryOk then pure status
  else do
    let path ← pathString
    let saved ← redSaveStatus saves path redstatus
    pure (if saved then rednodeFactoryOk else failed .storingStatus)

def storeNode (normalConfig adminConfig : RedConfig) (timestamp : Nat) (today : CStr)
    (update : Bool) : FactoryCalls ω Int := do
  let status ← storeConfig saves (getNormalConfSubpath os) normalConfig update
  if status ≠ rednodeFactoryOk then pure status
  else do
    let status ← storeConfig saves (getAdminConfSubpath os) adminConfig update
    if status ≠ rednodeFactoryOk then pure status
    else do
      let fab ← get
      let realpath := CStr.ofBytes (slice fab.path 0 (fab.nodeLength - 1))
      storeStatus saves (getStatusSubpath os)
        ⟨.enable, realpath, timestamp, some (createdInfo.append today)⟩

def createNode (params : NodeParam) (update : Bool) : FactoryCalls ω Int :=
  if isValidAlias params.nodeAlias = false then pure (failed .invalidAlias)
  else do
    let timestamp ← look os.redUtcGetTimeMs
    let today ← look os.dateOfToday
    if today.bytes = [] then pure (failed .fmtDate)
    else do
      match ← prepareNode os params update with
      | .error e => pure e
      | .ok (normalConfig, adminConfig) => do
        let fab ← get
        let status ← createDirectories os fab.rootLength fab.nodeLength
        if status ≠ rednodeFactoryOk then pure status
        else storeNode saves normalConfig adminConfig timestamp today update

/-- The process has another factory for a while. -/
def createRootNode (nodeLength : Nat) (templatedir : CStr) : FactoryCalls ω Int := do
  let fab ← get
  set (sysfab os fab nodeLength)
  let status ← createNode saves
    ⟨.lit "system", rednodeFactoryDeftmplRoot, rednodeFactoryDeftmplRoot, templatedir⟩ false
  set fab
  pure status

def requireSystem (mode : RednodeFactoryMode) (templatedir : CStr) : FactoryCalls ω Int := do
  let fab ← get
  let off := nodeOffset fab
  if mode ≠ .legacy then pure rednodeFactoryOk
  else if off < fab.rootLength then pure (failed .atRoot)
  else do
    let there ← look (isRednode os · fab.path (off - 1))
    if there then pure rednodeFactoryOk else createRootNode saves off templatedir

def rednodeFactoryCreateNode (params : Option RednodeFactoryParam) (update : Bool)
    (mode : RednodeFactoryMode) : FactoryCalls ω Int := do
  let fab ← get
  if fab.rootLength = 0 then pure (failed .cleared)
  else do
    let params := params.getD {}
    let templatedir := params.templatedir.getD (getTemplateDir os)
    match ← localias os fab params.nodeAlias with
    | .error e => pure e
    | .ok nodeAlias => do
      let status ← requireSystem saves mode templatedir
      if status ≠ rednodeFactoryOk then pure status
      else
        createNode saves ⟨nodeAlias, templateName params.normal mode,
          templateName params.admin mode, templatedir⟩ update

def exec : Call → FactoryCalls ω Int
  | .clear => do
    rednodeFactoryClear
    pure rednodeFactoryOk
  | .setRootLen path => rednodeFactorySetRootLen path
  | .setRoot path => rednodeFactorySetRootLen path.bytes
  | .setNodeLen path => rednodeFactorySetNodeLen path
  | .setNode path => rednodeFactorySetNodeLen path.bytes
  | .createNode params update mode => rednodeFactoryCreateNode saves params update mode

/-- The calls of a process, with what they return. -/
def session : List Call → FactoryCalls ω (List Int)
  | [] => pure []
  | call :: calls => do
    let status ← exec saves call
    let statuses ← session calls
    pure (status :: statuses)

end

/-! ## The scan -/

def confPath (redpath name legacy : CStr) : Calls ω (Option CStr) :=
  match snprintf (joinPath redpath name) redMaxpathlen with
  | none => pure none
  | some path => do
    let there ← access os path
    pure (if there then some path else snprintf (joinPath redpath legacy) redMaxpathlen)

def loadConf (path : CStr) : Calls ω (Except NotLoaded RedConfig) := do
  match ← redLoadConfig os path with
  | none => pure (.error .fx)
  | some config => pure (if isValidAlias config.headers.nodeAlias then .ok config else .error .fx)

def loadAdmin (redpath : CStr) : Calls ω (Except NotLoaded (Option RedConfig)) := do
  match ← confPath os redpath rednodeAdmin legacyRednodeAdmin with
  | none => pure (.error .fx)
  | some path => do
    let kind ← stat os path
    if kind ≠ some .regular then pure (.ok none)
    else do
      match ← loadConf os path with
      | .error e => pure (.error e)
      | .ok config => pure (.ok (some config))

/-- The configs of a node whose status is there. -/
def loadConfigs (redpath : CStr) (admin : Bool) (status : RedStatus) :
    Calls ω (Except NotLoaded Loaded) := do
  match ← confPath os redpath rednodeConf legacyRednodeConf with
  | none => pure (.error .fx)
  | some path => do
    match ← loadConf os path with
    | .error e => pure (.error e)
    | .ok config => do
      match ← (if admin then loadAdmin os redpath else pure (.ok none)) with
      | .error e => pure (.error e)
      | .ok confadmin => pure (.ok
          ⟨{ config := some config, confadmin := confadmin, redpath := redpath }, status⟩)

def redNodesLoad (redpath : CStr) (admin : Bool) : Calls ω (Except NotLoaded Loaded) := do
  let kind ← stat os redpath
  if kind ≠ some .directory then pure (.error .fx)
  else
    match snprintf (joinPath redpath rednodeStatus) redMaxpathlen with
    | none => pure (.error .fault)
    | some path => do
      let kind ← stat os path
      if kind ≠ some .regular then pure (.error .missing)
      else do
        match ← redLoadStatus os path with
        | none => pure (.error .fx)
        | some status => loadConfigs os redpath admin status

/-- The rest of the walk, once a directory above has been loaded. -/
def afterLoad (path : List UInt8) (rest : Calls ω Dug) : Except NotLoaded Loaded → Calls ω Dug
  | .ok parent => do
    let dug ← rest
    pure (dug.after path [parent])
  | .error .missing => do
    let dug ← rest
    pure (dug.after path [])
  | .error .fx => pure ⟨.error, [path], []⟩
  | .error .fault => pure ⟨.fault, [path], []⟩

def digToRoot (admin : Bool) (nodepath : List UInt8) : Calls ω Dug :=
  match _h : popDownRedpath nodepath with
  | none => pure ⟨.fault, [], []⟩
  | some (index, path) =>
    if index ≤ 1 then pure ⟨.done, [], []⟩
    else do
      let found ← redNodesLoad os (CStr.ofBytes path) admin
      afterLoad path (digToRoot admin path) found
termination_by nodepath.length
decreasing_by exact popDownRedpath_length _h

def redNodesScan (redpath : CStr) (admin : Bool) : Calls ω (Option (Option Family)) := do
  match ← redNodesLoad os redpath admin with
  | .error .fault => pure none
  | .error _ => pure (some none)
  | .ok leaf => do
    match ← digToRoot os admin (redpath.bytes.take redMaxpathlen) with
    | ⟨.fault, _, _⟩ => pure none
    | ⟨.error, _, _⟩ => pure (some none)
    | ⟨.done, _, parents⟩ => pure (some (some (withLeaf leaf.node (parents.map (·.node)))))

/-! ## A process that only reads -/

section

variable {ω α β : Type}

/-- Alone, the process leaves everything as it is and tells `f` of it. -/
def Reads (x : Calls ω α) (f : ω → α) : Prop := ∀ w, x.run w = .ok (f w) w

theorem reads_look (f : ω → α) : Reads (look f) f := fun _ => rfl

theorem Reads.run_bind {x : Calls ω α} {f : ω → α} (h : Reads x f) (g : α → Calls ω β) (w : ω) :
    (x >>= g).run w = (g (f w)).run w := by
  rw [Thread.run_bind, bind_of_ok (h w)]

variable (os : FactoryOs ω)

theorem reads_stat (path : CStr) : Reads (stat os path) (os.stat · path) := fun _ => rfl

theorem reads_kindFile (path : CStr) (admin : Bool) : Reads (kindFile os path admin) fun w =>
    match addExtension path (if admin then admext else stdext) with
    | .error e => .error e
    | .ok withKind =>
      if os.access w withKind then .ok withKind else .error (failed .noTemplate) := by
  intro w
  unfold kindFile
  cases addExtension path (if admin then admext else stdext) with
  | error e => rfl
  | ok withKind => rfl

theorem reads_templateFile (path : CStr) (admin : Bool) :
    Reads (templateFile os path admin) (Factory.templateFile os · path admin) := by
  intro w
  dsimp only
  unfold templateFile Factory.templateFile
  rw [access, (reads_look _).run_bind]
  split
  · rfl
  split
  · rfl
  cases addExtension path yamlext with
  | error e => rfl
  | ok withYaml =>
    dsimp only
    rw [access, (reads_look _).run_bind]
    split
    · rfl
    · exact reads_kindFile os path admin w

theorem reads_loadTemplateConfig (params : NodeParam) (admin : Bool) :
    Reads (loadTemplateConfig os params admin)
      (Factory.loadTemplateConfig os · params admin) := by
  intro w
  unfold loadTemplateConfig Factory.loadTemplateConfig
  dsimp only
  generalize (if admin then params.admin else params.normal) = tmplname
  cases templatePrefix params.templatedir tmplname with
  | error e => rfl
  | ok front =>
    dsimp only
    split
    · rfl
    rw [(reads_templateFile os _ admin).run_bind]
    cases Factory.templateFile os w _ admin with
    | error e => rfl
    | ok path =>
      dsimp only
      rw [redLoadConfig, (reads_look _).run_bind]
      cases os.redLoadConfig w path <;> rfl

theorem reads_confPath (redpath name legacy : CStr) : Reads (confPath os redpath name legacy)
    (Node.confPath os.toFileOs · redpath name legacy) := by
  intro w
  unfold confPath Node.confPath
  cases snprintf (joinPath redpath name) redMaxpathlen <;> rfl

theorem reads_loadConf (path : CStr) :
    Reads (loadConf os path) (Node.loadConf os.toFileOs · path) := by
  intro w
  dsimp only
  unfold loadConf Node.loadConf
  rw [redLoadConfig, (reads_look _).run_bind]
  cases os.redLoadConfig w path <;> rfl

theorem reads_loadAdmin (redpath : CStr) :
    Reads (loadAdmin os redpath) (Node.loadAdmin os.toFileOs · redpath) := by
  intro w
  dsimp only
  unfold loadAdmin Node.loadAdmin
  rw [(reads_confPath os _ _ _).run_bind]
  cases Node.confPath os.toFileOs w redpath rednodeAdmin legacyRednodeAdmin with
  | none => rfl
  | some path =>
    dsimp only
    rw [(reads_stat os path).run_bind]
    split
    · rfl
    rw [(reads_loadConf os path).run_bind]
    cases Node.loadConf os.toFileOs w path <;> rfl

/-- **While nothing changes**, the node is that of one state. -/
theorem reads_redNodesLoad (redpath : CStr) (admin : Bool) : Reads (redNodesLoad os redpath admin)
    (Node.redNodesLoad os.toFileOs · redpath admin) := by
  intro w
  dsimp only
  unfold redNodesLoad Node.redNodesLoad
  rw [(reads_stat os redpath).run_bind]
  split
  · rfl
  cases snprintf (joinPath redpath rednodeStatus) redMaxpathlen with
  | none => rfl
  | some path =>
    dsimp only
    rw [(reads_stat os path).run_bind]
    split
    · rfl
    rw [redLoadStatus, (reads_look _).run_bind]
    cases os.redLoadStatus w path with
    | none => rfl
    | some status =>
      dsimp only
      rw [loadConfigs, (reads_confPath os _ _ _).run_bind]
      cases Node.confPath os.toFileOs w redpath rednodeConf legacyRednodeConf with
      | none => rfl
      | some path =>
        dsimp only
        rw [(reads_loadConf os path).run_bind]
        cases Node.loadConf os.toFileOs w path with
        | error e => rfl
        | ok config =>
          cases admin with
          | false => rfl
          | true =>
            dsimp only
            rw [if_pos rfl, if_pos rfl, (reads_loadAdmin os redpath).run_bind]
            cases Node.loadAdmin os.toFileOs w redpath <;> rfl

theorem digToRoot_none {admin : Bool} {s : List UInt8} (h : slash ∉ stripSlash s) :
    digToRoot os admin s = pure ⟨.fault, [], []⟩ := by
  unfold digToRoot
  split
  · rfl
  · rename_i hpop
    rw [popDownRedpath_none h] at hpop
    cases hpop

theorem digToRoot_of_cut {admin : Bool} {s v u : List UInt8} (hs : s ≠ [])
    (hcut : stripSlash s = v ++ slash :: u) (hu : slash ∉ u) : digToRoot os admin s =
      if v.length ≤ 1 then pure ⟨.done, [], []⟩
      else redNodesLoad os (CStr.ofBytes (v ++ [slash])) admin >>=
        afterLoad (v ++ [slash]) (digToRoot os admin (v ++ [slash])) := by
  rw [digToRoot]
  split
  · rename_i hpop
    rw [popDownRedpath_cut hs hcut hu] at hpop
    cases hpop
  · rename_i hpop
    rw [popDownRedpath_cut hs hcut hu] at hpop
    cases hpop
    rfl

theorem reads_digToRoot (admin : Bool) (s : List UInt8) : Reads (digToRoot os admin s)
    fun w => Node.digToRoot (Node.redNodesLoad os.toFileOs w · admin) s := by
  intro w
  dsimp only
  induction s using walk_induction with
  | outside s h =>
    rw [digToRoot_none os h, Node.digToRoot_none h]
    rfl
  | top s v u hs hcut hu hv =>
    rw [digToRoot_of_cut os hs hcut hu, if_pos hv, digToRoot_top hs hcut hu hv]
    rfl
  | cut s v u hs hcut hu hv ih =>
    rw [digToRoot_of_cut os hs hcut hu, if_neg (Nat.not_le.mpr hv), digToRoot_cut hs hcut hu hv,
      (reads_redNodesLoad os _ admin).run_bind]
    cases Node.redNodesLoad os.toFileOs w (CStr.ofBytes (v ++ [slash])) admin with
    | ok parent =>
      rw [afterLoad, Thread.run_bind, bind_of_ok ih]
      rfl
    | error e =>
      cases e with
      | missing =>
        rw [afterLoad, Thread.run_bind, bind_of_ok ih]
        rfl
      | fx => rfl
      | fault => rfl

/-- **While nothing changes**, the scan is that of one state. -/
theorem reads_redNodesScan (redpath : CStr) (admin : Bool) : Reads (redNodesScan os redpath admin)
    fun w => Node.redNodesScan (Node.redNodesLoad os.toFileOs w · admin) redpath := by
  intro w
  dsimp only
  unfold redNodesScan Node.redNodesScan
  rw [(reads_redNodesLoad os redpath admin).run_bind, redNodesDigToRoot]
  dsimp only
  cases Node.redNodesLoad os.toFileOs w redpath admin with
  | error e => cases e <;> rfl
  | ok leaf =>
    dsimp only
    rw [(reads_digToRoot os admin _).run_bind]
    cases Node.digToRoot (Node.redNodesLoad os.toFileOs w · admin)
        (redpath.bytes.take redMaxpathlen) with
    | mk result tried parents => cases result <;> rfl

end

/-! ## A process alone -/

section

variable {ω α β : Type} {m : Machine ω}

/-- Without the record of what was stored. -/
def bare : EStateM.Result Fault (Machine ω) α → EStateM.Result Fault ω (α × RednodeFactory)
  | .ok a m => .ok (a, m.fab) m.os
  | .error e m => .error e m.os

/-- Alone, the process does what the factory does. -/
def Alike (x : FactoryCalls ω α) (y : FactoryM ω α) (m : Machine ω) : Prop :=
  (x m.fab).run m.os = bare (y m)

theorem alike_pure (a : α) : Alike (pure a) (pure a) m := rfl

theorem Alike.bind {x : FactoryCalls ω α} {y : FactoryM ω α} {f : α → FactoryCalls ω β}
    {g : α → FactoryM ω β} (h : Alike x y m) (hf : ∀ a m', Alike (f a) (g a) m') :
    Alike (x >>= f) (y >>= g) m := by
  have hrun : ((x >>= f) m.fab).run = (x m.fab).run >>= fun r => (f r.1 r.2).run :=
    Thread.run_bind _ _
  rw [Alike, hrun]
  cases hy : y m with
  | ok a m' =>
    rw [Alike, hy] at h
    rw [bind_of_ok h, bind_of_ok hy]
    exact hf a m'
  | error e m' =>
    rw [Alike, hy] at h
    rw [bind_of_error h, bind_of_error hy]
    rfl

theorem alike_get {f : RednodeFactory → FactoryCalls ω α} {g : Machine ω → FactoryM ω α}
    (h : Alike (f m.fab) (g m) m) : Alike (get >>= f) (get >>= g) m := h

theorem alike_ite {c : Prop} [Decidable c] {x x' : FactoryCalls ω α} {y y' : FactoryM ω α}
    (h : c → Alike x y m) (h' : ¬ c → Alike x' y' m) :
    Alike (if c then x else x') (if c then y else y') m := by
  split
  · exact h ‹_›
  · exact h' ‹_›

theorem Reads.run_liftM {x : Calls ω α} {f : ω → α} (hx : Reads x f) (k : α → FactoryCalls ω β) :
    ((liftM x >>= k : FactoryCalls ω β) m.fab).run m.os = (k (f m.os) m.fab).run m.os := by
  have hrun : ((liftM x >>= k : FactoryCalls ω β) m.fab).run =
      (x >>= fun a => pure (a, m.fab) : Calls ω (α × RednodeFactory)).run >>=
        fun r => (k r.1 r.2).run := Thread.run_bind _ _
  rw [hrun, Thread.run_bind, bind_assoc, bind_of_ok (hx m.os)]
  rfl

theorem Reads.alike {x : Calls ω α} {f : ω → α} (hx : Reads x f) {k : α → FactoryCalls ω β}
    {y : FactoryM ω β} (h : Alike (k (f m.os)) y m) : Alike (liftM x >>= k) y m :=
  (hx.run_liftM k).trans h

theorem alike_onMachine (x : Calls ω α) : Alike (liftM x) (onMachine x.run) m := by
  have hrun : ((liftM x : FactoryCalls ω α) m.fab).run =
      x.run >>= fun a => pure (a, m.fab) := Thread.run_bind _ _
  rw [Alike, hrun, onMachine]
  cases hx : x.run m.os with
  | ok a w =>
    rw [bind_of_ok hx]
    rfl
  | error e w =>
    rw [bind_of_error hx]
    rfl

theorem alike_copyPath (i : Nat) (bytes : List UInt8) :
    Alike (copyPath i bytes) (Factory.copyPath i bytes) m := by
  unfold Alike copyPath Factory.copyPath
  rw [get_bind]
  split <;> rfl

theorem alike_pathString : Alike pathString Factory.pathString m := by
  unfold Alike pathString Factory.pathString
  rw [get_bind]
  split <;> rfl

theorem alike_setLengths (rootLength nodeLength : Nat) :
    Alike (setLengths rootLength nodeLength) (Factory.setLengths rootLength nodeLength) m := rfl

theorem alike_setRootLen (path : List UInt8) :
    Alike (rednodeFactorySetRootLen path) (Factory.rednodeFactorySetRootLen path) m := by
  refine alike_ite (fun _ => alike_pure _) fun _ => alike_ite (fun _ => alike_pure _) fun _ => ?_
  refine (alike_copyPath _ _).bind fun _ _ => (alike_copyPath _ _).bind fun _ _ => ?_
  exact (alike_setLengths _ _).bind fun _ _ => alike_pure _

theorem alike_setNodeLen (path : List UInt8) :
    Alike (rednodeFactorySetNodeLen path) (Factory.rednodeFactorySetNodeLen path) m := by
  refine alike_get (alike_ite (fun _ => alike_pure _) fun _ => ?_)
  refine alike_ite (fun _ => (alike_setLengths _ _).bind fun _ _ => alike_pure _) fun _ => ?_
  refine alike_ite (fun _ => alike_pure _) fun _ => ?_
  refine (alike_copyPath _ _).bind fun _ _ => (alike_copyPath _ _).bind fun _ _ => ?_
  exact (alike_setLengths _ _).bind fun _ _ => alike_pure _

variable (os : FactoryOs ω)

theorem alike_rootExists (rootLength : Nat) :
    Alike (rootExists os rootLength) (Factory.rootExists os rootLength) m := by
  refine alike_ite (fun _ => ?_) fun _ => alike_pure _
  refine (alike_copyPath _ _).bind fun _ _ => alike_pathString.bind fun root _ => ?_
  exact (reads_look _).alike ((alike_copyPath _ _).bind fun _ _ => alike_pure _)

theorem alike_createDirectories (rootLength length : Nat) :
    Alike (createDirectories os rootLength length)
      (Factory.createDirectories os rootLength length) m := by
  refine (alike_rootExists os rootLength).bind fun exist m' => ?_
  refine alike_ite (fun _ => alike_get ?_) fun _ => alike_pure _
  have hmade := @alike_onMachine ω Bool m' (makeDirectories os m'.fab.path rootLength length)
  rw [onMachine_makeDirectories] at hmade
  refine hmade.bind fun made _ => ?_
  cases made <;> exact alike_pure _

theorem alike_setSubpathPath (subpath : CStr) :
    Alike (setSubpathPath os subpath) (Factory.setSubpathPath os subpath true) m := by
  refine alike_get (alike_ite (fun _ => alike_pure _) fun _ => ?_)
  exact (alike_copyPath _ _).bind fun _ _ => alike_get (alike_createDirectories os _ _)

theorem alike_malloc : Alike (liftM (malloc os)) (Factory.malloc os) m := rfl

theorem alike_getFreshUUID : Alike (liftM (getFreshUUID os)) (Factory.getFreshUUID os) m := rfl

theorem alike_liftM {x : Calls ω α} {y : FactoryM ω α} :
    Alike (liftM x) y m ↔ (x.run >>= fun a => pure (a, m.fab)) m.os = bare (y m) := by
  have hrun : ((liftM x : FactoryCalls ω α) m.fab).run =
      x.run >>= fun a => pure (a, m.fab) := Thread.run_bind _ _
  rw [Alike, hrun]

/-- Calls that leave the factory alone, one after the other. -/
theorem Alike.lift_bind {x : Calls ω α} {y : FactoryM ω α} {f : α → Calls ω β}
    {g : α → FactoryM ω β} (h : Alike (liftM x) y m)
    (hf : ∀ a m', Alike (liftM (f a)) (g a) m') : Alike (liftM (x >>= f)) (y >>= g) m := by
  rw [alike_liftM] at h ⊢
  rw [Thread.run_bind, bind_assoc]
  cases hx : x.run m.os with
  | ok a w =>
    rw [bind_of_ok hx] at h ⊢
    cases hy : y m with
    | ok a' m' =>
      rw [hy] at h
      injection h with hpair hw
      obtain ⟨rfl, hfab⟩ := Prod.mk.inj hpair
      rw [bind_of_ok hy, hw, hfab]
      exact alike_liftM.mp (hf a m')
    | error e m' =>
      rw [hy] at h
      cases h
  | error e w =>
    rw [bind_of_error hx] at h ⊢
    cases hy : y m with
    | ok a' m' =>
      rw [hy] at h
      cases h
    | error e' m' =>
      rw [hy] at h
      cases h
      rw [bind_of_error hy]
      rfl

theorem alike_congr (x' : FactoryCalls ω α) {x : FactoryCalls ω α} {k : α → FactoryCalls ω β}
    {y : FactoryM ω β}
    (h : (x m.fab).run m.os = (x' m.fab).run m.os) (hk : Alike (x' >>= k) y m) :
    Alike (x >>= k) y m := by
  have hrun : ∀ x : FactoryCalls ω α, ((x >>= k) m.fab).run =
      (x m.fab).run >>= fun r => (k r.1 r.2).run := fun x => Thread.run_bind _ _
  have hsame : ((x >>= k) m.fab).run m.os = ((x' >>= k) m.fab).run m.os := by
    rw [hrun, hrun]
    cases hx : (x' m.fab).run m.os with
    | ok r w => rw [bind_of_ok (h.trans hx), bind_of_ok hx]
    | error e w => rw [bind_of_error (h.trans hx), bind_of_error hx]
  exact hsame.trans hk

theorem Reads.lift_alike {x : Calls ω α} {f : ω → α} (hx : Reads x f) {k : α → Calls ω β}
    {y : FactoryM ω β} (h : Alike (liftM (k (f m.os))) y m) : Alike (liftM (x >>= k)) y m := by
  rw [alike_liftM] at h ⊢
  rwa [Thread.run_bind, bind_assoc, bind_of_ok (hx m.os)]

theorem alike_makeConfigHeaders (config : RedConfig) (nodeAlias : CStr) (admin : Bool) :
    Alike (liftM (makeConfigHeaders os config nodeAlias admin))
      (Factory.makeConfigHeaders os config nodeAlias admin) m := by
  refine (reads_look _).lift_alike ?_
  rw [Alike, Factory.makeConfigHeaders, get_bind]
  cases os.expand m.os freshInfo with
  | none => rfl
  | some hInfo =>
    refine (alike_malloc os).lift_bind fun there _ => ?_
    cases there with
    | true => exact (alike_getFreshUUID os).lift_bind fun hName _ => rfl
    | false => rfl

theorem alike_updateConfigHeaders (config : RedConfig) (subpath : CStr) :
    Alike (updateConfigHeaders os config subpath)
      (Factory.updateConfigHeaders os config subpath) m := by
  refine (alike_setSubpathPath os subpath).bind fun status _ => ?_
  refine alike_ite (fun _ => alike_pure _) fun _ => alike_pathString.bind fun path m' => ?_
  refine (reads_look _).alike ?_
  rw [Alike, get_bind]
  cases os.redLoadConfig m'.os path with
  | none => rfl
  | some prvcfg =>
    dsimp only
    rw [copyHeaders]
    split
    · rfl
    · cases prvcfg.headers.info with
      | none => rfl
      | some hInfo =>
        cases prvcfg.headers.name with
        | none => rfl
        | some hName =>
          refine (alike_malloc os).lift_bind fun there _ => ?_
          cases there <;> exact rfl

theorem alike_configHeaders (config : RedConfig) (params : NodeParam) (admin update : Bool) :
    Alike (configHeaders os config params admin update)
      (Factory.configHeaders os config params admin update) m :=
  alike_ite (fun _ => alike_updateConfigHeaders os config _) fun _ =>
    alike_makeConfigHeaders os config params.nodeAlias admin

theorem alike_prepareConfig (params : NodeParam) (admin update : Bool)
    {k : Except Int RedConfig → FactoryCalls ω β} {g : Int → FactoryM ω β}
    {h : RedConfig → FactoryM ω β} (hg : ∀ e m', Alike (k (.error e)) (g e) m')
    (hh : ∀ config m', Alike (k (.ok config)) (h config) m') :
    Alike (prepareConfig os params admin update >>= k) (do
      match Factory.loadTemplateConfig os (← get).os params admin with
      | .error e => g e
      | .ok config =>
        match ← Factory.configHeaders os config params admin update with
        | .error e => g e
        | .ok config => h config) m := by
  have hload := reads_loadTemplateConfig os params admin
  rw [Alike, get_bind]
  cases htemplate : Factory.loadTemplateConfig os m.os params admin with
  | error e =>
    refine alike_congr (pure (.error e)) ?_ (hg e m)
    exact (hload.run_liftM _).trans (by rw [htemplate])
  | ok config =>
    refine alike_congr (configHeaders os config params admin update) ?_ ?_
    · exact (hload.run_liftM _).trans (by rw [htemplate])
    · refine (alike_configHeaders os config params admin update).bind fun headers m' => ?_
      cases headers with
      | error e => exact hg e m'
      | ok config => exact hh config m'

theorem alike_prepareNode (params : NodeParam) (update : Bool) :
    Alike (prepareNode os params update) (Factory.prepareNode os params update) m := by
  refine alike_prepareConfig os params false update (fun _ _ => alike_pure _) fun config _ => ?_
  exact alike_prepareConfig os params true update (fun _ _ => alike_pure _) fun _ _ => alike_pure _

theorem alike_localias (fab : RednodeFactory) (given : Option CStr) :
    Alike (liftM (localias os fab given)) (Factory.localias os fab given) m := by
  have hdeduced : Alike (liftM (localias.deduced os fab)) (Factory.localias.deduced os fab) m := by
    unfold localias.deduced Factory.localias.deduced
    split
    · rfl
    · refine (alike_malloc os).lift_bind fun there _ => ?_
      cases there <;> exact rfl
  unfold localias Factory.localias
  cases given with
  | none => exact hdeduced
  | some nodeAlias =>
    dsimp only
    split
    · rfl
    · exact hdeduced

section

variable {os : FactoryOs ω} (saves : Saves os)

theorem again_eq_saved {first second : Saving} (h : first ≠ .saved) :
    first.again second = .saved ↔ second = .saved := by
  cases first <;> cases second <;> simp_all [Saving.again]

theorem run_schemaSave (path : CStr) {write : Calls ω Bool} (save : ω → Saving × ω)
    (hwrite : ∀ w, write.run w = .ok ((save w).1 = .saved : Bool) (save w).2) (w : ω) :
    (schemaSave saves path write).run w =
      .ok ((Factory.schemaSave (fun w => save (saves.openFile w path)) w).1 = .saved : Bool)
        (Factory.schemaSave (fun w => save (saves.openFile w path)) w).2 := by
  have hopen : ∀ w, (openFile saves path).run w = .ok () (saves.openFile w path) := fun _ => rfl
  rw [schemaSave, Thread.run_bind, bind_of_ok (hopen w), Thread.run_bind, bind_of_ok (hwrite _)]
  unfold Factory.schemaSave
  dsimp only
  by_cases hsaved : (save (saves.openFile w path)).1 = .saved
  · rw [if_pos hsaved, decide_eq_true hsaved]
    rfl
  · rw [if_neg hsaved, decide_eq_false hsaved, if_neg (by decide), Thread.run_bind,
      bind_of_ok (hopen _), hwrite]
    dsimp only
    rw [decide_eq_decide.mpr (again_eq_saved hsaved)]

theorem alike_save {path : CStr} {write : Calls ω Bool} (save : ω → Saving × ω)
    (hwrite : ∀ w, write.run w = .ok ((save w).1 = .saved : Bool) (save w).2) :
    Alike (liftM (schemaSave saves path write))
      (Factory.save path (Factory.schemaSave (fun w => save (saves.openFile w path)) m.os)) m := by
  rw [alike_liftM, bind_of_ok (run_schemaSave saves path save hwrite m.os)]
  rfl

theorem alike_redSaveConfig (path : CStr) (redconfig : RedConfig) :
    Alike (liftM (redSaveConfig saves path redconfig))
      (Factory.redSaveConfig os path redconfig) m := by
  have hsave := saves.redSaveConfig m.os path redconfig
  rw [Alike, Factory.redSaveConfig, get_bind, hsave]
  exact alike_save saves (fun w => saves.writeConfig w path redconfig) fun _ => rfl

theorem alike_redSaveStatus (path : CStr) (redstatus : RedStatus) :
    Alike (liftM (redSaveStatus saves path redstatus))
      (Factory.redSaveStatus os path redstatus) m := by
  have hsave := saves.redSaveStatus m.os path redstatus
  rw [Alike, Factory.redSaveStatus, get_bind, hsave]
  exact alike_save saves (fun w => saves.writeStatus w path redstatus) fun _ => rfl

theorem alike_storeFile (path : CStr) (redconfig : RedConfig) :
    Alike (liftM (storeFile saves path redconfig)) (do
      if ← Factory.redSaveConfig os path redconfig then pure rednodeFactoryOk
      else pure (failed .storingConfig)) m := by
  refine (alike_redSaveConfig saves path redconfig).lift_bind fun saved _ => ?_
  cases saved <;> exact rfl

theorem alike_storeConfig (subpath : CStr) (redconfig : RedConfig) (update : Bool) :
    Alike (storeConfig saves subpath redconfig update)
      (Factory.storeConfig os subpath redconfig update) m := by
  refine (alike_setSubpathPath os subpath).bind fun status _ => ?_
  refine alike_ite (fun _ => alike_pure _) fun _ => alike_pathString.bind fun path m' => ?_
  cases update with
  | true => exact alike_storeFile saves path redconfig
  | false =>
    rw [if_neg (by decide)]
    refine (reads_look _).alike ?_
    cases hthere : os.access m'.os path with
    | true =>
      have hboth : false = false ∧ os.access m'.os path = true := ⟨rfl, hthere⟩
      rw [Alike, get_bind, if_pos hboth]
      rfl
    | false =>
      have hfree : ¬ (false = false ∧ os.access m'.os path = true) := by simp [hthere]
      rw [Alike, get_bind, if_neg hfree]
      exact alike_storeFile saves path redconfig

theorem alike_storeStatus (subpath : CStr) (redstatus : RedStatus) :
    Alike (storeStatus saves subpath redstatus) (Factory.storeStatus os subpath redstatus) m := by
  refine (alike_setSubpathPath os subpath).bind fun status _ => ?_
  refine alike_ite (fun _ => alike_pure _) fun _ => alike_pathString.bind fun path m' => ?_
  refine (alike_redSaveStatus saves path redstatus).bind fun saved _ => ?_
  cases saved <;> exact alike_pure _

theorem alike_storeNode (normalConfig adminConfig : RedConfig) (timestamp : Nat) (today : CStr)
    (update : Bool) : Alike (storeNode saves normalConfig adminConfig timestamp today update)
      (Factory.storeNode os normalConfig adminConfig timestamp today update) m := by
  refine (alike_storeConfig saves _ normalConfig update).bind fun status _ => ?_
  refine alike_ite (fun _ => alike_pure _) fun _ => ?_
  refine (alike_storeConfig saves _ adminConfig update).bind fun status _ => ?_
  exact alike_ite (fun _ => alike_pure _) fun _ => alike_get (alike_storeStatus saves _ _)

theorem alike_createNode (params : NodeParam) (update : Bool) :
    Alike (createNode saves params update) (Factory.createNode os params update) m := by
  refine alike_ite (fun _ => alike_pure _) fun _ => ?_
  refine (reads_look _).alike ((reads_look _).alike ?_)
  rw [Alike, get_bind]
  dsimp only
  split
  · rfl
  · refine (alike_prepareNode os params update).bind fun prepared _ => ?_
    cases prepared with
    | error e => exact alike_pure _
    | ok configs =>
      refine alike_get ((alike_createDirectories os _ _).bind fun status _ => ?_)
      exact alike_ite (fun _ => alike_pure _) fun _ => alike_storeNode saves _ _ _ _ _

theorem alike_createRootNode (nodeLength : Nat) (templatedir : CStr) :
    Alike (createRootNode saves nodeLength templatedir)
      (Factory.createRootNode os nodeLength templatedir) m := by
  have hset : Alike (set (sysfab os m.fab nodeLength))
      (set { m with fab := sysfab os m.fab nodeLength }) m := rfl
  have hback : ∀ m' : Machine ω, Alike (set m.fab)
      (modify fun m' => { m' with fab := m.fab }) m' := fun _ => rfl
  refine alike_get (hset.bind fun _ _ => (alike_createNode saves _ false).bind fun status m' => ?_)
  exact (hback m').bind fun _ _ => alike_pure _

theorem alike_requireSystem (mode : RednodeFactoryMode) (templatedir : CStr) :
    Alike (requireSystem saves mode templatedir) (Factory.requireSystem os mode templatedir) m := by
  refine alike_get (alike_ite (fun _ => alike_pure _) fun _ => ?_)
  refine alike_ite (fun _ => alike_pure _) fun _ => (reads_look _).alike ?_
  exact alike_ite (fun _ => alike_pure _) fun _ => alike_createRootNode saves _ templatedir

theorem alike_createCall (params : Option RednodeFactoryParam) (update : Bool)
    (mode : RednodeFactoryMode) : Alike (rednodeFactoryCreateNode saves params update mode)
      (Factory.rednodeFactoryCreateNode os params update mode) m := by
  refine alike_get (alike_ite (fun _ => alike_pure _) fun _ => ?_)
  refine (alike_localias os m.fab _).bind fun nodeAlias _ => ?_
  cases nodeAlias with
  | error e => exact alike_pure _
  | ok nodeAlias =>
    refine (alike_requireSystem saves mode _).bind fun status _ => ?_
    exact alike_ite (fun _ => alike_pure _) fun _ => alike_createNode saves _ update

theorem alike_exec (call : Call) : Alike (exec saves call) (call.exec os) m := by
  cases call with
  | clear => rfl
  | setRootLen path => exact alike_setRootLen path
  | setRoot path => exact alike_setRootLen path.bytes
  | setNodeLen path => exact alike_setNodeLen path
  | setNode path => exact alike_setNodeLen path.bytes
  | createNode params update mode => exact alike_createCall saves params update mode

/-- The calls one after the other. -/
def inTurn (os : FactoryOs ω) : List Call → FactoryM ω (List Int)
  | [] => pure []
  | call :: calls => do
    let status ← call.exec os
    let statuses ← inTurn os calls
    pure (status :: statuses)

/-- **Alone**, a process does what the factory does. -/
theorem alike_session (calls : List Call) : Alike (session saves calls) (inTurn os calls) m := by
  induction calls generalizing m with
  | nil => exact alike_pure _
  | cons call calls ih =>
    exact (alike_exec saves call).bind fun _ _ => ih.bind fun _ _ => alike_pure _

end

end

end Calls

end Factory
end RedPak
