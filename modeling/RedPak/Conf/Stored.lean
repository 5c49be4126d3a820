import RedPak.Conf.CArray
import RedPak.Layered.Action

/-!
# Conf.Stored

The expansion of strings with the arrays that it writes to (`redconf-expand.c`): the output, the
value of a variable, the text of a command before and after its own expansion. What an array of the
stack holds before is given as `junk`. A node may be NULL.

A run returns, or it stops: at a store outside of an array, at a NULL that is read through, or at
more nested values than the bound.
-/

namespace RedPak
namespace Conf
namespace Stored

open Layered (Buffer)
open Layered.Buffer (slice store writeAll)

/-! ## Arrays -/

inductive ExpandFault where
  | outside
  | nullNode
deriving DecidableEq

/-- Functions on one array. -/
abbrev ArrayM := EStateM ExpandFault (Buffer UInt8)

/-- Stores into an array of `arr` bytes, from an index on. -/
def putAll (arr i : Nat) (bytes : List UInt8) : ArrayM Unit := do
  if i + bytes.length ≤ arr then modify fun b => writeAll b i bytes else throw .outside

/-- The array as a string. -/
def arrayString (arr : Nat) : ArrayM CStr := do
  let b ← get
  if (0 : UInt8) ∈ slice b 0 arr then pure (CStr.ofBytes (slice b 0 arr)) else throw .outside

/-- `PutString`, of what is left of the value: true for the result 0. -/
def putString (arr output size : Nat) : List UInt8 → (idx : Nat) → ArrayM Bool
  | [], idx =>
    if idx < size then do
      putAll arr (output + idx) [0]
      pure true
    else pure false
  | c :: cs, idx =>
    if idx < size then do
      putAll arr (output + idx) [c]
      putString arr output size cs (idx + 1)
    else pure false

/-- `snprintf(output, size, "%llu", value)` -/
def getDecimal (arr size value : Nat) : ArrayM Bool := do
  let text := (CStr.decimal value).bytes
  if 0 < size then putAll arr 0 (text.take (size - 1) ++ [0]) else pure ()
  pure (text.length < size)

def undef : CStr := .lit "#undef:"

def getUndefined (arr size : Nat) (key : CStr) : ArrayM Bool := do
  if size < undef.bytes.length then pure false
  else do
    putAll arr 0 undef.bytes
    putString arr undef.bytes.length (size - undef.bytes.length) key.bytes 0

/-- `RED_UUID_STR_LEN` -/
def redUuidStrLen : Nat := 37

/-- `strncpy` pads with zeros. -/
def getNewUUID (env : RedEnv) (arr size : Nat) : ArrayM Bool := do
  if size < redUuidStrLen then pure false
  else do
    let uu := env.freshUUID.bytes.take (redUuidStrLen - 1)
    putAll arr 0 (uu ++ List.replicate (size - uu.length) 0)
    pure true

/-- `strftime` writes nothing that is used when the date doesn't fit. -/
def getDateString (env : RedEnv) (arr size : Nat) : ArrayM Bool := do
  let date := env.dateOfToday.bytes
  if date ≠ [] ∧ date.length < size then do
    putAll arr 0 (date ++ [0])
    pure true
  else pure false

/-! ## Default values -/

/-- The functions of type `varcb_t`. -/
inductive Varcb where
  | getEnviron
  | getString
  | getCgroupRoot
  | getPid
  | getUid
  | getGid
  | getDateString
  | getNewUUID
  | getNodeInfo
  | getLeafInfo

/-- `vardef_t` -/
structure Vardef where
  key : CStr
  callback : Varcb
  svalue : Option CStr := none
  ivalue : RednodeInfo := .infoAlias

def environDef (key svalue : String) : Vardef :=
  ⟨.lit key, .getEnviron, some (.lit svalue), .infoAlias⟩

def stringDef (key svalue : String) : Vardef :=
  ⟨.lit key, .getString, some (.lit svalue), .infoAlias⟩

def plainDef (key : String) (callback : Varcb) (ivalue : RednodeInfo := .infoAlias) : Vardef :=
  ⟨.lit key, callback, none, ivalue⟩

def vardefs : List Vardef := [
  environDef "NODE_PREFIX" "",
  environDef "redpak_MAIN" "$NODE_PREFIX/etc/redpak/main.yaml",
  environDef "redpak_TMPL" "$NODE_PREFIX/etc/redpak/templates.d",
  stringDef "REDNODE_CONF" "$NODE_PATH/etc/redpak.yaml",
  stringDef "REDNODE_ADMIN" "$NODE_PATH/etc/redpak-admin.yaml",
  stringDef "REDNODE_STATUS" "$NODE_PATH/.rednode.yaml",
  stringDef "REDNODE_VARDIR" "$NODE_PATH/var/rpm/lib",
  stringDef "REDNODE_REPODIR" "$NODE_PATH/etc/yum.repos.d",
  stringDef "REDNODE_LOCK" "$NODE_PATH/.rpm.lock",
  environDef "USER" "Unknown",
  environDef "LOGNAME" "Unknown",
  environDef "HOSTNAME" "localhost",
  plainDef "CGROUPS_MOUNT_POINT" .getCgroupRoot,
  plainDef "PID" .getPid,
  plainDef "UID" .getUid,
  plainDef "GID" .getGid,
  plainDef "TODAY" .getDateString,
  plainDef "UUID" .getNewUUID,
  plainDef "NODE_ALIAS" .getNodeInfo .infoAlias,
  plainDef "NODE_NAME" .getNodeInfo .infoName,
  plainDef "NODE_PATH" .getNodeInfo .infoPath,
  plainDef "NODE_INFO" .getNodeInfo .infoInfo,
  plainDef "LEAF_ALIAS" .getLeafInfo .infoAlias,
  plainDef "LEAF_NAME" .getLeafInfo .infoName,
  plainDef "LEAF_PATH" .getLeafInfo .infoPath,
  plainDef "LEAF_INFO" .getLeafInfo .infoInfo,
  environDef "REDPESK_VERSION" "agl-redpesk9"]

/-- What `GetThisNodeInfo` reads in a node or in its leaf. -/
structure NodeInfo where
  headers : Option RedConfHeader
  redpath : CStr

def nodeInfo (node : ExpandCtx) : NodeInfo := ⟨node.headers, node.redpath⟩

/-- `node->leaf ?: node` -/
def leafInfo (node : ExpandCtx) : NodeInfo :=
  match node.leaf with
  | some leaf => ⟨leaf.headers, leaf.redpath⟩
  | none => nodeInfo node

def thisNodeValue (node : Option NodeInfo) : RednodeInfo → Option CStr
  | .infoAlias => (node.bind (·.headers)).map (·.nodeAlias)
  | .infoName => (node.bind (·.headers)).bind (·.name)
  | .infoPath => node.map (·.redpath)
  | .infoInfo => (node.bind (·.headers)).bind (·.info)

def putOrUndefined (arr size : Nat) (key : CStr) : Option CStr → ArrayM Bool
  | some value => putString arr 0 size value.bytes 0
  | none => getUndefined arr size key

def getUid (env : RedEnv) (node : Option ExpandCtx) (arr size : Nat) : ArrayM Bool :=
  match (node.bind (·.leaf)).bind (·.earlyconf.setuser) with
  | some setuser => putString arr 0 size setuser.bytes 0
  | none => getDecimal arr size env.getuid

def getGid (env : RedEnv) (node : Option ExpandCtx) (arr size : Nat) : ArrayM Bool :=
  match (node.bind (·.leaf)).bind (·.earlyconf.setgroup) with
  | some setgroup => putString arr 0 size setgroup.bytes 0
  | none => getDecimal arr size env.getgid

/-- The callback of an entry, on an array that it knows the size of. -/
def Vardef.call (env : RedEnv) (node : Option ExpandCtx) (d : Vardef) (size : Nat) : ArrayM Bool :=
  match d.callback with
  | .getEnviron => putOrUndefined size size d.key ((env.secureGetenv d.key).or d.svalue)
  | .getString => putString size 0 size (d.svalue.getD (.lit "")).bytes 0
  | .getCgroupRoot => putString size 0 size env.cgroupRoot.bytes 0
  | .getPid => getDecimal size size env.getpid
  | .getUid => getUid env node size size
  | .getGid => getGid env node size size
  | .getDateString => getDateString env size size
  | .getNewUUID => getNewUUID env size size
  | .getNodeInfo => putOrUndefined size size d.key (thisNodeValue (node.map nodeInfo) d.ivalue)
  | .getLeafInfo =>
    match node with
    | some node => putOrUndefined size size d.key (thisNodeValue (some (leafInfo node)) d.ivalue)
    | none => throw .nullNode

/-! ## Expansion -/

/-- Why a run doesn't return. -/
inductive ExpandStop where
  | deep
  | fault (f : ExpandFault)
deriving DecidableEq

/-- `outputS` and `*idxOut` -/
structure Output where
  outputS : Buffer UInt8
  idxOut : Nat

/-- Functions that write to the output: true for the result 0. -/
abbrev OutputM := EStateM ExpandStop Output

/-- Expands a value into an output of some length, without commands. -/
abbrev NestedExpand := List UInt8 → Nat → OutputM Bool

/-- An array on the stack, for a while. -/
def withArray {α : Type} (junk : Buffer UInt8) (x : ArrayM α) : OutputM α := fun s =>
  match x junk with
  | .ok a _ => .ok a s
  | .error f _ => .error (.fault f) s

/-- Stores into the output, an array of `maxlen` bytes. -/
def storeOutput (maxlen i : Nat) (bytes : List UInt8) : OutputM Unit := do
  if i + bytes.length ≤ maxlen then
    modify fun s => { s with outputS := writeAll s.outputS i bytes }
  else throw (.fault .outside)

/-- `outputS[(*idxOut)++] = c`, if there is room. -/
def putOutput (maxlen : Nat) (c : UInt8) : OutputM Bool := do
  let idxOut := (← get).idxOut
  if idxOut = maxlen then pure false
  else do
    storeOutput maxlen idxOut [c]
    modify fun s => { s with idxOut := idxOut + 1 }
    pure true

section

variable (env : RedEnv) (junk : Buffer UInt8)

/-- `ExecCmd` into what is left of the output, and `*idxOut += strlen(&outputS[*idxOut])` -/
def execCmd (command : CStr) (maxlen : Nat) (restricted : Bool) : OutputM Bool := do
  let idxOut := (← get).idxOut
  if maxlen < idxOut then throw (.fault .outside)
  else
    match env.memFdExecCmd command restricted with
    | none => pure false
    | some output => do
      -- what `read` puts there
      let bytes := output.take (maxlen - idxOut)
      storeOutput maxlen idxOut bytes
      if bytes = [] ∨ bytes.length = maxlen - idxOut then pure false
      else do
        storeOutput maxlen (idxOut + bytes.length) [0]
        modify fun s =>
          { s with idxOut := idxOut + (CStr.ofBytes (slice s.outputS idxOut maxlen)).bytes.length }
        pure true

variable (node : Option ExpandCtx)

def expandEnvvar (nested : NestedExpand) (key : List UInt8) (maxlen : Nat) : OutputM Bool :=
  match env.secureGetenv (CStr.ofBytes key) with
  | none => pure true
  | some value => if value.bytes = [] then pure true else nested value.bytes maxlen

/-- The callback and the value that it leaves, if any. -/
def getValue (d : Vardef) : OutputM (Option CStr) :=
  withArray junk do
    if ← d.call env node maxCyamlFormatStr then return some (← arrayString maxCyamlFormatStr)
    else return none

def getDefault (nested : NestedExpand) (key : List UInt8) (maxlen : Nat) : OutputM Bool := do
  match vardefs.find? fun d => d.key.bytes = key with
  | some d =>
    match ← getValue env junk node d with
    | some value => nested value.bytes maxlen
    | none => pure false
  | none => expandEnvvar env nested key maxlen

/-- `pre_command`, an array of `keylen - 1` bytes: the key without its parentheses. -/
def preCommand (key : List UInt8) : OutputM CStr :=
  withArray junk do
    putAll (key.length - 1) 0 (key.tail.take (key.length - 2))
    putAll (key.length - 1) (key.length - 2) [0]
    arrayString (key.length - 1)

/-- The text of a command: expanded into the array `command`, with its own index. -/
def expandCommand (nested : NestedExpand) (group : CStr) : OutputM (Option CStr) := fun s =>
  match nested group.bytes maxCyamlFormatStr ⟨junk, 0⟩ with
  | .error e _ => .error e s
  | .ok false _ => .ok none s
  | .ok true c =>
    -- `command[lencmd] = '\0'`
    if c.idxOut < maxCyamlFormatStr then
      .ok (some (CStr.ofBytes (slice (c.outputS.store c.idxOut 0) 0 maxCyamlFormatStr))) s
    else .error (.fault .outside) s

def runCommand (nested : NestedExpand) (key : List UInt8) (maxlen : Nat) (restricted : Bool) :
    OutputM Bool := do
  let group ← preCommand junk key
  match ← expandCommand junk nested group with
  | none => pure false
  | some command => execCmd env command maxlen restricted

/-- The loop of `defaultsExpand`: `prev` is the byte before the input, of which the first `skip`
bytes belong to a key. -/
def expandFrom (nested : NestedExpand) (maxlen withcmd : Nat) :
    (inputS : List UInt8) → (prev : Option UInt8) → (skip : Nat) → OutputM Bool
  | [], _, _ => pure true
  | c :: cs, _, skip + 1 => expandFrom nested maxlen withcmd cs (some c) skip
  | c :: cs, prev, 0 =>
    if c = backslash ∧ cs.head? = some dollar then do
      if ← putOutput maxlen dollar then expandFrom nested maxlen withcmd cs (some c) 1
      else pure false
    else if c = dollar ∧ prev ≠ some backslash then do
      let keylen := computeKeyLength cs
      let key := cs.take keylen
      if ← (if 2 ≤ keylen ∧ key.head? = some openParen ∧ 0 < withcmd then
          runCommand env junk nested key maxlen (withcmd == 1)
        else getDefault env junk node nested key maxlen) then
        expandFrom nested maxlen withcmd cs (some c) keylen
      else pure false
    else do
      if ← putOutput maxlen c then expandFrom nested maxlen withcmd cs (some c) 0
      else pure false

def defaultsExpand : (depth : Nat) → (inputS : List UInt8) → (maxlen withcmd : Nat) → OutputM Bool
  | 0, inputS, maxlen, withcmd =>
    expandFrom env junk node (fun _ _ => throw .deep) maxlen withcmd inputS none 0
  | depth + 1, inputS, maxlen, withcmd =>
    expandFrom env junk node (fun value maxlen => defaultsExpand depth value maxlen 0) maxlen
      withcmd inputS none 0

end

end Stored
end Conf
end RedPak
