import RedPak.Factory.State

/-!
# Factory.Create

The creation and the update of a node by the factory (`rednode_factory_create_node` with what it
calls): templates, headers, the three files of a node, and in legacy mode the system node above it.
-/

namespace RedPak
namespace Factory

open Conf Node
open Layered (Buffer)
open Layered.Buffer (slice store writeAll)

/-! ## Parameters -/

/-- `rednode_factory_mode_t` -/
inductive RednodeFactoryMode where
  | deflt
  | legacy
  | legacyNoSys
deriving DecidableEq

/-- `rednode_factory_param_t` as a caller gives it -/
structure RednodeFactoryParam where
  nodeAlias : Option CStr := none
  normal : Option CStr := none
  admin : Option CStr := none
  templatedir : Option CStr := none
deriving DecidableEq

/-- `rednode_factory_param_t` with every member set -/
structure NodeParam where
  nodeAlias : CStr
  normal : CStr
  admin : CStr
  templatedir : CStr
deriving DecidableEq

def rednodeFactoryDeftmplFull : CStr := .lit "full"
def rednodeFactoryDeftmplRoot : CStr := .lit "root"
def rednodeFactoryDeftmplLeaf : CStr := .lit "leaf"

def rednodeTemplateDir : CStr := .lit "/etc/redpak/templates.d"

/-- `ADMIN_ALIAS_PREFIX` -/
def adminAliasPrefix : CStr := .lit "admin-of-"

def yamlext : CStr := .lit ".yaml"
def stdext : CStr := .lit "-normal.yaml"
def admext : CStr := .lit "-admin.yaml"

section

variable {ω : Type} (os : FactoryOs ω)

def getDefaultItem (defvalue varname : CStr) : CStr := (os.secureGetenv varname).getD defvalue

def getTemplateDir : CStr := getDefaultItem os rednodeTemplateDir (.lit "REDNODE_TEMPLATE_DIR")

def getNormalConfSubpath : CStr :=
  getDefaultItem os rednodeConf (.lit "REDNODE_NORMAL_CONF_SUBPATH")

def getAdminConfSubpath : CStr :=
  getDefaultItem os rednodeAdmin (.lit "REDNODE_ADMIN_CONF_SUBPATH")

def getStatusSubpath : CStr := getDefaultItem os rednodeStatus (.lit "REDNODE_STATUS_SUBPATH")

/-! ## Templates -/

/-- What stands before the name of a template in the array `path`: the template directory and a
slash, for a name without a slash. -/
def templatePrefix (tmpldir tmplname : CStr) : Except Int CStr :=
  if slash ∈ tmplname.bytes then .ok (.lit "")
  else
    let dir := tmpldir.bytes.rdropWhile (· == slash)
    if dir.length + 1 ≥ rednodeFactoryPathLen then .error (failed .templateDirTooLong)
    else .ok (CStr.ofBytes (dir ++ [slash]))

/-- The extension is put behind the path, if it fits with its zero. -/
def addExtension (path ext : CStr) : Except Int CStr :=
  if path.bytes.length + (ext.bytes.length + 1) ≥ rednodeFactoryPathLen then
    .error (failed .templateTooLong)
  else .ok (path.append ext)

/-- A path that doesn't exist is tried again with `.yaml`, then with the extension of its kind. -/
def templateFile (w : ω) (path : CStr) (admin : Bool) : Except Int CStr :=
  if os.access w path then .ok path
  else if path.bytes.length < yamlext.bytes.length ∨ yamlext.bytes <:+ path.bytes then
    .error (failed .noTemplate)
  else
    match addExtension path yamlext with
    | .error e => .error e
    | .ok withYaml =>
      if os.access w withYaml then .ok withYaml
      else
        match addExtension path (if admin then admext else stdext) with
        | .error e => .error e
        | .ok withKind => if os.access w withKind then .ok withKind else .error (failed .noTemplate)

def loadTemplateConfig (w : ω) (params : NodeParam) (admin : Bool) : Except Int RedConfig :=
  let tmplname := if admin then params.admin else params.normal
  match templatePrefix params.templatedir tmplname with
  | .error e => .error e
  | .ok front =>
    if tmplname.bytes.length + front.bytes.length ≥ rednodeFactoryPathLen then
      .error (failed .templateTooLong)
    else
      match templateFile os w (front.append tmplname) admin with
      | .error e => .error e
      | .ok path =>
        match os.redLoadConfig w path with
        | none => .error (failed .loadingTemplate)
        | some redconfig => .ok redconfig

/-! ## Files -/

/-- A file is recorded as soon as it is touched. -/
def recorded (path : CStr) (saving : Saving) (stored : List CStr) : List CStr :=
  if saving = .untouched then stored else path :: stored

def save (path : CStr) (result : Saving × ω) : FactoryM ω Bool := do
  modify fun m => { m with os := result.2, stored := recorded path result.1 m.stored }
  pure (result.1 = .saved)

def redSaveConfig (path : CStr) (redconfig : RedConfig) : FactoryM ω Bool := do
  save path (os.redSaveConfig (← get).os path redconfig)

def redSaveStatus (path : CStr) (redstatus : RedStatus) : FactoryM ω Bool := do
  save path (os.redSaveStatus (← get).os path redstatus)

def storeConfig (subpath : CStr) (redconfig : RedConfig) (update : Bool) : FactoryM ω Int := do
  let status ← setSubpathPath os subpath true
  if status ≠ rednodeFactoryOk then pure status
  else
    let path ← pathString
    if update = false ∧ os.access (← get).os path then pure (failed .configExist)
    else if ← redSaveConfig os path redconfig then pure rednodeFactoryOk
    else pure (failed .storingConfig)

def storeStatus (subpath : CStr) (redstatus : RedStatus) : FactoryM ω Int := do
  let status ← setSubpathPath os subpath true
  if status ≠ rednodeFactoryOk then pure status
  else if ← redSaveStatus os (← pathString) redstatus then pure rednodeFactoryOk
  else pure (failed .storingStatus)

/-! ## Headers -/

def malloc : FactoryM ω Bool := do
  let m ← get
  let (there, w) := os.malloc m.os
  set { m with os := w }
  pure there

def getFreshUUID : FactoryM ω CStr := do
  let m ← get
  let (uuid, w) := os.freshUUID m.os
  set { m with os := w }
  pure uuid

def freshInfo : CStr := .lit "Node created by $LOGNAME($HOSTNAME) the $TODAY"

/-- The headers that are set, or the error. -/
def makeConfigHeaders (config : RedConfig) (nodeAlias : CStr) (admin : Bool) :
    FactoryM ω (Except Int RedConfig) := do
  match os.expand (← get).os freshInfo with
  | none => pure (.error (failed .allocation))
  | some hInfo =>
    if ← malloc os then
      let hName ← getFreshUUID os
      let hAlias := if admin then adminAliasPrefix.append nodeAlias else nodeAlias
      pure (.ok { config with headers := ⟨hAlias, some hName, some hInfo⟩ })
    else pure (.error (failed .allocation))

/-- The headers of the config that is there are kept. -/
def updateConfigHeaders (config : RedConfig) (subpath : CStr) :
    FactoryM ω (Except Int RedConfig) := do
  let status ← setSubpathPath os subpath true
  if status ≠ rednodeFactoryOk then pure (.error status)
  else
    let path ← pathString
    match os.redLoadConfig (← get).os path with
    | none => pure (.error (failed .configNotExist))
    | some prvcfg =>
      if isValidAlias prvcfg.headers.nodeAlias = false then pure (.error (failed .invalidAlias))
      else
        -- `strdup` of both, given or not
        match prvcfg.headers.info, prvcfg.headers.name with
        | some _, some _ =>
          if ← malloc os then pure (.ok { config with headers := prvcfg.headers })
          else pure (.error (failed .allocation))
        | _, _ => throw .nullString

def configHeaders (config : RedConfig) (params : NodeParam) (admin update : Bool) :
    FactoryM ω (Except Int RedConfig) := do
  if update then
    updateConfigHeaders os config
      (if admin then getAdminConfSubpath os else getNormalConfSubpath os)
  else makeConfigHeaders os config params.nodeAlias admin

/-! ## Nodes -/

def createdInfo : CStr := .lit "created by red-manager the "

/-- The three files of the node, in the order in which they are stored. -/
def storeNode (normalConfig adminConfig : RedConfig) (timestamp : Nat) (today : CStr)
    (update : Bool) : FactoryM ω Int := do
  let status ← storeConfig os (getNormalConfSubpath os) normalConfig update
  if status ≠ rednodeFactoryOk then pure status
  else
    let status ← storeConfig os (getAdminConfSubpath os) adminConfig update
    if status ≠ rednodeFactoryOk then pure status
    else
      let m ← get
      let realpath := CStr.ofBytes (slice m.fab.path 0 (m.fab.nodeLength - 1))
      storeStatus os (getStatusSubpath os)
        ⟨.enable, realpath, timestamp, some (createdInfo.append today)⟩

/-- The two configs with their headers, before anything is stored. -/
def prepareNode (params : NodeParam) (update : Bool) :
    FactoryM ω (Except Int (RedConfig × RedConfig)) := do
  match loadTemplateConfig os (← get).os params false with
  | .error e => pure (.error e)
  | .ok normalConfig =>
    match ← configHeaders os normalConfig params false update with
    | .error e => pure (.error e)
    | .ok normalConfig =>
      match loadTemplateConfig os (← get).os params true with
      | .error e => pure (.error e)
      | .ok adminConfig =>
        match ← configHeaders os adminConfig params true update with
        | .error e => pure (.error e)
        | .ok adminConfig => pure (.ok (normalConfig, adminConfig))

def createNode (params : NodeParam) (update : Bool) : FactoryM ω Int := do
  if isValidAlias params.nodeAlias = false then pure (failed .invalidAlias)
  else
    let w := (← get).os
    let timestamp := os.redUtcGetTimeMs w
    let today := os.dateOfToday w
    if today.bytes = [] then pure (failed .fmtDate)
    else
      match ← prepareNode os params update with
      | .error e => pure e
      | .ok (normalConfig, adminConfig) =>
        let fab := (← get).fab
        let status ← createDirectories os fab.rootLength fab.nodeLength
        if status ≠ rednodeFactoryOk then pure status
        else storeNode os normalConfig adminConfig timestamp today update

/-- `DIRPATH/STATUS` exists, for the first bytes of a path. -/
def isRednode (w : ω) (dirpath : Buffer UInt8) (length : Nat) : Bool :=
  os.access w (CStr.ofBytes (slice dirpath 0 length ++ slash :: (getStatusSubpath os).bytes))

/-- The factory of the system node: the copied part of the path lies over what the stack holds. -/
def sysfab (rfab : RednodeFactory) (nodeLength : Nat) : RednodeFactory :=
  ⟨rfab.rootLength, nodeLength, writeAll os.stack 0 (slice rfab.path 0 nodeLength)⟩

def createRootNode (nodeLength : Nat) (templatedir : CStr) : FactoryM ω Int := do
  let m ← get
  set { m with fab := sysfab os m.fab nodeLength }
  let status ← createNode os
    ⟨.lit "system", rednodeFactoryDeftmplRoot, rednodeFactoryDeftmplRoot, templatedir⟩ false
  modify fun m' => { m' with fab := m.fab }
  pure status

/-- The path of the node without its last slashes. -/
def nodeBytes (fab : RednodeFactory) : List UInt8 :=
  (slice fab.path 0 fab.nodeLength).rdropWhile (· == slash)

/-- Where the name of the node starts. -/
def nodeOffset (fab : RednodeFactory) : Nat := ((nodeBytes fab).rdropWhile (· != slash)).length

/-- The name of the node. -/
def nodeName (fab : RednodeFactory) : CStr := CStr.ofBytes ((nodeBytes fab).drop (nodeOffset fab))

/-- A template is given, or the default one of the mode is taken. -/
def templateName (given : Option CStr) (mode : RednodeFactoryMode) : CStr :=
  match given with
  | some name => if name.bytes ≠ [] then name else deftmpl
  | none => deftmpl
where
  deftmpl : CStr :=
    if mode = .legacyNoSys then rednodeFactoryDeftmplFull else rednodeFactoryDeftmplLeaf

/-- The alias, given or the name of the directory. -/
def localias (fab : RednodeFactory) (given : Option CStr) : FactoryM ω (Except Int CStr) :=
  match given with
  | some nodeAlias => if nodeAlias.bytes ≠ [] then pure (.ok nodeAlias) else deduced
  | none => deduced
where
  deduced : FactoryM ω (Except Int CStr) := do
    if fab.nodeLength = fab.rootLength ∨ (nodeBytes fab).length = nodeOffset fab then
      pure (.error (failed .defaultAliasEmpty))
    else if ← malloc os then pure (.ok (nodeName fab))
    else pure (.error (failed .allocation))

/-- In legacy mode, the node above has to exist: a system node is created if there is none. -/
def requireSystem (mode : RednodeFactoryMode) (templatedir : CStr) : FactoryM ω Int := do
  let m ← get
  let off := nodeOffset m.fab
  if mode ≠ .legacy then pure rednodeFactoryOk
  else if off < m.fab.rootLength then pure (failed .atRoot)
  else if isRednode os m.os m.fab.path (off - 1) then pure rednodeFactoryOk
  else createRootNode os off templatedir

def rednodeFactoryCreateNode (params : Option RednodeFactoryParam) (update : Bool)
    (mode : RednodeFactoryMode) : FactoryM ω Int := do
  let m ← get
  if m.fab.rootLength = 0 then pure (failed .cleared)
  else
    let params := params.getD {}
    let templatedir := params.templatedir.getD (getTemplateDir os)
    match ← localias os m.fab params.nodeAlias with
    | .error e => pure e
    | .ok nodeAlias =>
      let status ← requireSystem os mode templatedir
      if status ≠ rednodeFactoryOk then pure status
      else
        createNode os ⟨nodeAlias, templateName params.normal mode, templateName params.admin mode,
          templatedir⟩ update

end

end Factory
end RedPak
