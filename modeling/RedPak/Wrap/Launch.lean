import RedPak.Wrap.Capabilities
import RedPak.Wrap.Shares
import RedPak.Wrap.Exports
import RedPak.Conf.Variables
import RedPak.Conf.ConfTags
import RedPak.Conf.Paths

/-!
# Wrap.Launch

The collection of the arguments for `bwrap` (`redwrapExecBwrap` up to the clone, for a rednode that
is scanned and valid): exports, variables, the section `config`, the paths, and the command.

What the stack holds where an array of a function lies is a parameter: nothing initialises these
arrays.
-/

namespace RedPak
namespace Wrap

open Conf
open Layered (Buffer)
open Layered.Buffer (slice writeAll)

/-! ## Outcomes -/

/-- What ends `redwrapExecBwrap` before the clone: its return of an error, a call of `exit`, or
undefined behaviour. -/
inductive Stop where
  | returned
  | exit
  | fault
deriving DecidableEq

def Halt.stop : Halt → Stop
  | .exit => .exit
  | .fault => .fault

/-- The calls into the system, those of `set_one_export` included. What `set_cgroups` returns is
not looked at. `readFile` gives what a file descriptor can be read from its start, unless reading
fails. -/
structure LaunchOs (ω : Type) extends RedOs ω where
  setCgroups : ω → Family → Option CStr → ω
  readFile : ω → Int → Option (List UInt8)

/-- What the stack holds where the arrays `buffer` of `set_one_envvar` and of `mixPaths` lie. The
first one depends on the number of arguments there are. -/
structure Stack where
  envvar : Nat → Buffer UInt8
  path : Buffer UInt8
  ldpath : Buffer UInt8

/-! ## Variables -/

/-- `sizeof(buffer)` in `set_one_envvar` -/
def envvarBufferSize : Nat := 2049

section

variable {ω : Type} (expand : ExpandCtx → CStr → Option CStr) (env : RedEnv) (depth : Nat)
  (os : LaunchOs ω)

/-- `ExecCmd`: the status, and the buffer, which is left as it is when nothing is read. An output
as long as the buffer has no zero put behind it. -/
def execCmd (rs : RedwrapState ω) (tag command : CStr) (res : Buffer UInt8) (size : Nat) :
    Int × Buffer UInt8 × RedwrapState ω :=
  let (fd, o) := os.memFdExecCmd rs.os tag command
  let rs := { rs with os := o }
  if fd < 0 then (3, res, rs)
  else
    match (os.readFile o fd).map (·.take size) with
    | none | some [] =>
      (1, res, { rs with
        log := rs.log ++ [⟨.warning, "Cannot read stdout of command %s", [command]⟩] })
    | some bytes =>
      if bytes.length = size then
        (2, writeAll res 0 bytes, { rs with
          log := rs.log ++ [⟨.warning,
            "Cannot read entire stdout of command %s (max size is=%d)",
            [command, CStr.decimal size]⟩] })
      else (0, writeAll res 0 (bytes ++ [0]), rs)

/-- `strdup` of an array; the copy of one without a zero has no end. -/
def strdup (buffer : Buffer UInt8) (size : Nat) : Option CStr :=
  if (0 : UInt8) ∈ slice buffer 0 size then some (CStr.ofBytes (slice buffer 0 size)) else none

def setOneEnvvar (stack : Stack) (rs : RedwrapState ω) (confvar : RedConfVar) (node : Family) :
    Except Halt (RedwrapState ω) :=
  match confvar.mode with
  | .static => addAll rs [CStr.lit "--setenv", confvar.key, confvar.value]
  | .execfd =>
    -- without a command, bash prints nothing, as for an empty one
    let (_, buffer, rs) := execCmd os rs confvar.key (confvar.value.getD (CStr.lit ""))
      (stack.envvar rs.argval.length) envvarBufferSize
    match strdup buffer envvarBufferSize with
    | none => .error .fault
    | some value => addAll rs [CStr.lit "--setenv", confvar.key, value]
  | .deflt =>
    match confvar.value with
    | none => .error .fault
    | some value => addAll rs [CStr.lit "--setenv", confvar.key, expand node.node.ctx value]
  | .remove => addAll rs [CStr.lit "--unsetenv", confvar.key]
  | .inherit =>
    addAll rs [CStr.lit "--setenv", confvar.key,
      (env.secureGetenv confvar.key).getD (CStr.lit "")]

/-- `mixvar_cb`; nothing runs in a process that has ended. -/
def mixvarCb (stack : Stack) : MixVarCb (Except Halt (RedwrapState ω)) := fun run var node _ _ =>
  (0, match run with
    | .ok rs => setOneEnvvar expand env os stack rs var node
    | .error halt => .error halt)

/-! ## The section `config` -/

def setHostname (rs : RedwrapState ω) : Option CStr → Except Halt (RedwrapState ω)
  | none => .ok rs
  | some hostname =>
    addAll rs [CStr.lit "--unshare-uts", CStr.lit "--hostname",
      expand rs.rednode.node.ctx hostname]

def setChdir (rs : RedwrapState ω) : Option CStr → Except Halt (RedwrapState ω)
  | none => .ok rs
  | some chdir => addAll rs [CStr.lit "--chdir", expand rs.rednode.node.ctx chdir]

/-- `if (option & RED_CONF_OPT_ENABLED) ADD(restate, argument);` -/
def setOption (rs : RedwrapState ω) (option : RedConfOptFlag) (argument : CStr) :
    Except Halt (RedwrapState ω) :=
  if option = .enabled then addAll rs [some argument] else .ok rs

def setConftag (rs : RedwrapState ω) (conftag : RedConfTag) : Except Halt (RedwrapState ω) := do
  let rs ← setCapabilities rs conftag
  let rs := { rs with os := os.setCgroups rs.os rs.rednode conftag.cgrouproot }
  let rs ← setHostname expand rs conftag.hostname
  let rs ← setChdir expand rs conftag.chdir
  let rs ← setOption rs conftag.diewithparent (CStr.lit "--die-with-parent")
  let rs ← setOption rs conftag.newsession (CStr.lit "--new-session")
  -- the environment is cleared unless kept
  let rs := { rs with environ := rs.environ || conftag.inheritenv ≠ 0 }
  setShares rs conftag.share

/-- `mixconftag_cb` -/
def mixconftagCb : MixConftagCb (Except Halt (RedwrapState ω)) := fun run conftag =>
  (0, match run with
    | .ok rs => setConftag expand os rs conftag
    | .error halt => .error halt)

/-! ## Paths -/

/-- `set_env_path`, `set_env_ldpath` -/
def setEnvPath (name : CStr) : MixPathCb (Except Halt (RedwrapState ω)) := fun run value _ =>
  (0, match run with
    | .ok rs => addAll rs [CStr.lit "--setenv", name, value]
    | .error halt => .error halt)

/-! ## The launch -/

/-- What follows a merge: `if (error) goto OnErrorExit;`. -/
def afterMix : Option (Int × Except Halt (RedwrapState ω)) → Except Stop (RedwrapState ω)
  | none => .error .fault
  | some (_, .error halt) => .error halt.stop
  | some (rc, .ok rs) => if rc ≠ 0 then .error .returned else .ok rs

/-- A nesting of values without end overflows the stack. -/
def afterPaths : PathsOutcome (Except Halt (RedwrapState ω)) → Except Stop (RedwrapState ω)
  | .ret rc run => afterMix (some (rc, run))
  | .endless => .error .fault
  | .fault => .error .fault

/-- `set_exports_and_vars` -/
def setExportsAndVars (stack : Stack) (rs : RedwrapState ω) : Except Stop (RedwrapState ω) := do
  let rs ← afterMix (mixExports expand rs.rednode (mixexpCb expand os.toRedOs) (.ok rs)).result
  afterMix (mixVariables rs.rednode (mixvarCb expand env os stack) (.ok rs)).result

/-- `set_for_conftag` -/
def setForConftag (rs : RedwrapState ω) : Except Stop (RedwrapState ω) :=
  afterMix (mixConfTags expand rs.rednode (mixconftagCb expand os) (.ok rs)).result

def pathName : CStr := CStr.lit "PATH"
def ldpathName : CStr := CStr.lit "LD_LIBRARY_PATH"

/-- `set_special_confvar` -/
def setSpecialConfvar (stack : Stack) (rs : RedwrapState ω) : Except Stop (RedwrapState ω) := do
  let rs ← afterPaths (mixPaths env depth rs.rednode (fun _ config => config.conftag.path)
    (setEnvPath pathName) (.ok rs) stack.path)
  afterPaths (mixPaths env depth rs.rednode (fun _ config => config.conftag.ldpath)
    (setEnvPath ldpathName) (.ok rs) stack.ldpath)

/-- add program to execute at tail of arguments -/
def addCommand (rs : RedwrapState ω) (subargv : List CStr) : Except Stop (RedwrapState ω) :=
  afterMix (some (0, addAll rs (subargv.map some)))

/-- The arguments are collected: exports and variables, the section `config`, the paths, and the
command. -/
def collectArguments (commandName : CStr) (strict : Bool) (dump : Int) (subargv : List CStr)
    (rednode : Family) (o : ω) (stack : Stack) : Except Stop (RedwrapState ω) := do
  let rs ← setExportsAndVars expand env os stack (.start commandName strict dump o rednode)
  let rs ← setForConftag expand os rs
  let rs ← setSpecialConfvar env depth stack rs
  addCommand rs subargv

/-- dump the call to bwrap: with `dump` above 1, the first character of every argument is looked
at, and the process exits. -/
def dumpCall (rs : RedwrapState ω) : Except Stop (RedwrapState ω) :=
  if rs.dump > 1 then
    if none ∈ rs.argval.tail then .error .fault else .error .exit
  else .ok rs

theorem dumpCall_ok {rs rs' : RedwrapState ω} (h : dumpCall rs = .ok rs') :
    rs' = rs ∧ ¬ rs.dump > 1 := by
  unfold dumpCall at h
  split at h
  · split at h <;> cases h
  · exact ⟨(Except.ok.inj h).symm, ‹_›⟩

end

end Wrap
end RedPak
