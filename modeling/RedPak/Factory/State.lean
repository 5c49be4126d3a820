import RedPak.Layered.Action
import RedPak.Layered.Buffer
import RedPak.Node.Load

/-!
# Factory.State

The factory of rednodes (`rednode-factory.c`): the path it is set to and the functions that work on
it, `make_directories` of `redconf-utils.c` included. The functions run in the state of a factory
and of the file system, which any call may change as it likes. What is read or written beyond the
array `path` is a fault. The files that are created or rewritten are recorded.
-/

namespace RedPak
namespace Factory

open Conf Node
open Layered (Buffer)
open Layered.Buffer (slice store writeAll)

/-! ## Errors -/

/-- `rednode_factory_error_e` -/
inductive RednodeFactoryError where
  | ok
  | cleared
  | allocation
  | rootTooLong
  | rootNotAbsolute
  | rootNotExist
  | nodeTooLong
  | defaultAliasEmpty
  | mkDir
  | fmtDate
  | templateDirTooLong
  | templateTooLong
  | noTemplate
  | loadingTemplate
  | configExist
  | storingConfig
  | pathTooLong
  | storingStatus
  | atRoot
  | configNotExist
  | invalidAlias
deriving DecidableEq

/-- The value of the enumerator. -/
def RednodeFactoryError.code (e : RednodeFactoryError) : Int := e.ctorIdx

/-- The functions return the negated value, with one exception in `create_directories`. -/
def failed (e : RednodeFactoryError) : Int := -e.code

/-- `RednodeFactory_OK` -/
def rednodeFactoryOk : Int := 0

/-! ## The system -/

/-- How a save ends: it may fail with the file left as it was, or not. -/
inductive Saving where
  | saved
  | spoilt
  | untouched
deriving DecidableEq

/-- What the functions ask of the system. `mkdir` tells if it succeeded, `malloc` if the memory that
a function needs is there; an empty date is one that could not be made. `expand` is
`RedNodeStringExpand` without a node, `stack` what lies where `create_root_node` has its factory. -/
structure FactoryOs (ω : Type) extends FileOs ω where
  secureGetenv : CStr → Option CStr
  mkdir : ω → CStr → Bool × ω
  redSaveConfig : ω → CStr → RedConfig → Saving × ω
  redSaveStatus : ω → CStr → RedStatus → Saving × ω
  malloc : ω → Bool × ω
  freshUUID : ω → CStr × ω
  redUtcGetTimeMs : ω → Nat
  dateOfToday : ω → CStr
  expand : ω → CStr → Option CStr
  stack : Buffer UInt8

/-! ## The factory -/

/-- `REDNODE_FACTORY_PATH_LEN` -/
def rednodeFactoryPathLen : Nat := redMaxpathlen

structure RednodeFactory where
  rootLength : Nat
  nodeLength : Nat
  path : Buffer UInt8

/-- The state: `stored` holds the paths of the files created or rewritten, latest first. -/
structure Machine (ω : Type) where
  fab : RednodeFactory
  os : ω
  stored : List CStr := []

inductive Fault where
  | outsidePath
  | nullString
deriving DecidableEq

abbrev FactoryM (ω : Type) := EStateM Fault (Machine ω)

section

variable {ω : Type}

/-- `memcpy` into `path` -/
def copyPath (i : Nat) (bytes : List UInt8) : FactoryM ω Unit := do
  let m ← get
  if i + bytes.length ≤ rednodeFactoryPathLen then
    set { m with fab := { m.fab with path := writeAll m.fab.path i bytes } }
  else throw .outsidePath

/-- `path` as a string -/
def pathString : FactoryM ω CStr := do
  let m ← get
  if (0 : UInt8) ∈ slice m.fab.path 0 rednodeFactoryPathLen then
    pure (CStr.ofBytes (slice m.fab.path 0 rednodeFactoryPathLen))
  else throw .outsidePath

def setLengths (rootLength nodeLength : Nat) : FactoryM ω Unit :=
  modify fun m =>
    { m with fab := { m.fab with rootLength := rootLength, nodeLength := nodeLength } }

/-- `rednode_factory_clear` -/
def rednodeFactoryClear : FactoryM ω Unit :=
  modify fun m => { m with fab := ⟨0, 0, fun _ => 0⟩ }

/-- `rednode_factory_set_root_len`, of the bytes from `path` up to `length` -/
def rednodeFactorySetRootLen (path : List UInt8) : FactoryM ω Int := do
  let path := path.rdropWhile (· == slash)
  if path ≠ [] ∧ path.length + 1 ≥ rednodeFactoryPathLen then
    pure (failed .rootTooLong)
  else if path ≠ [] ∧ path.head? ≠ some slash then
    pure (failed .rootNotAbsolute)
  else
    copyPath 0 path
    copyPath path.length [slash]
    setLengths (path.length + 1) (path.length + 1)
    pure rednodeFactoryOk

def rednodeFactorySetRoot (path : CStr) : FactoryM ω Int := rednodeFactorySetRootLen path.bytes

/-- `rednode_factory_set_node_len`, of the bytes from `path` up to `length` -/
def rednodeFactorySetNodeLen (path : List UInt8) : FactoryM ω Int := do
  let rootLength := (← get).fab.rootLength
  if rootLength = 0 then
    pure (failed .cleared)
  else
    let path := (path.rdropWhile (· == slash)).dropWhile (· == slash)
    if path = [] then
      setLengths rootLength rootLength
      pure rednodeFactoryOk
    else if path.length + 1 + rootLength ≥ rednodeFactoryPathLen then
      pure (failed .nodeTooLong)
    else
      copyPath rootLength path
      copyPath (rootLength + path.length) [slash]
      setLengths rootLength (rootLength + path.length + 1)
      pure rednodeFactoryOk

def rednodeFactorySetNode (path : CStr) : FactoryM ω Int := rednodeFactorySetNodeLen path.bytes

/-! ## Directories -/

variable (os : FactoryOs ω)

def mkdir (path : CStr) : FactoryM ω Bool := do
  let m ← get
  let (made, w) := os.mkdir m.os path
  set { m with os := w }
  pure made

/-- One directory of `make_directories`, `none` when it can't be had. It is looked up as long as
`chk` holds, and made from the first one on that is missing. -/
def makeDirectory (tmp : List UInt8) (chk : Bool) : FactoryM ω (Option Bool) := do
  match chk, os.stat (← get).os (CStr.ofBytes tmp) with
  | true, some .directory => pure (some true)
  | true, some _ => pure none
  | _, _ => pure (if ← mkdir os (CStr.ofBytes tmp) then some false else none)

/-- The loop of `make_directories`: `tmp` is what is copied of the path, `rest` what is left of it.
In a name (`named`), the directory is due where the name ends. -/
def advanceDirectories : (tmp rest : List UInt8) → (named chk : Bool) → FactoryM ω Bool
  | _, [], false, _ => pure true
  | tmp, [], true, chk => return (← makeDirectory os tmp chk).isSome
  | tmp, c :: rest, named, chk =>
    if c = slash ∧ named then do
      match ← makeDirectory os tmp chk with
      | none => pure false
      | some chk => advanceDirectories (tmp ++ [c]) rest false chk
    else advanceDirectories (tmp ++ [c]) rest (c ≠ slash) chk

/-- Where the directories start that `make_directories` looks for; what is before has to exist. -/
def directoriesBase (path : Buffer UInt8) (base length : Nat) : Option Nat :=
  let idx := if base > 0 ∧ path (base - 1) = slash then base - 1 else base
  if length = 0 ∨ idx > length ∨ (idx < length ∧ path idx ≠ slash) then none
  else if idx ≠ 0 then some idx
  else if path 0 = slash then some 1
  else some ((slice path 0 length).takeWhile (· != slash)).length

def makeDirectories (path : Buffer UInt8) (base length : Nat) : FactoryM ω Bool := do
  match directoriesBase path base length with
  | none => pure false
  | some idx =>
    if os.stat (← get).os (CStr.ofBytes (slice path 0 idx)) ≠ some .directory then pure false
    else advanceDirectories os (slice path 0 idx) (slice path idx length) false true

/-- The root exists: a zero is put over its last slash for a while. -/
def rootExists (rootLength : Nat) : FactoryM ω Bool := do
  if rootLength > 1 then
    copyPath (rootLength - 1) [0]
    let root ← pathString
    let exist := os.access (← get).os root
    copyPath (rootLength - 1) [slash]
    pure exist
  else pure true

/-- The error of `make_directories` is returned as it is, not negated. -/
def createDirectories (rootLength length : Nat) : FactoryM ω Int := do
  if ← rootExists os rootLength then
    if ← makeDirectories os (← get).fab.path rootLength length then pure rednodeFactoryOk
    else pure RednodeFactoryError.mkDir.code
  else pure (failed .rootNotExist)

def parentLength (path : Buffer UInt8) (rootLength length : Nat) : Nat :=
  min rootLength length + ((slice path rootLength length).rdropWhile (· != slash)).length

def createParentDirectories (rootLength length : Nat) : FactoryM ω Int := do
  createDirectories os rootLength (parentLength (← get).fab.path rootLength length)

/-- `set_subpath_path` -/
def setSubpathPath (subpath : CStr) (createdirs : Bool) : FactoryM ω Int := do
  let fab := (← get).fab
  if subpath.bytes.length + fab.nodeLength ≥ rednodeFactoryPathLen then
    pure (failed .pathTooLong)
  else
    copyPath fab.nodeLength (subpath.bytes ++ [0])
    if createdirs then
      createParentDirectories os fab.rootLength (subpath.bytes.length + fab.nodeLength)
    else pure rednodeFactoryOk

end

end Factory
end RedPak
