import RedPak.Layered.Filled
import RedPak.Wrap.Config
import RedPak.Wrap.Directory
import RedPak.Wrap.LaunchTurns

/-!
# Wrap.Exec

`redwrapExecBwrap` up to the call of `execve`, for a rednode that is scanned and valid and whose
early config is known: the arguments are collected and dumped, the process is cloned, and the child
sets itself up, ends the arguments with NULL and becomes `bwrap`. The parent only waits.

* `redwrapExec_outside`: when the NULL is stored outside of `argval`.
-/

namespace RedPak
namespace Wrap

open Conf
open Layered (Filled)
open Layered.Action (except_bind_eq_error)

/-- A file that is executed, with the array of its arguments. The environment is that of the
process, or none. -/
structure Exec where
  file : Option CStr
  argv : Filled (Option CStr) maxBwrapArgs
  environ : Bool

/-- The environment that is handed over by a process with the environment `environ`. -/
def Exec.environment (exec : Exec) (environ : CStr → Option CStr) (name : CStr) : Option CStr :=
  if exec.environ then environ name else none

/-- The calls into the system. Those of the child give what they leave, unless they fail:
`writeFile` opens a file and writes all of the text, `setns` opens the file and joins its
namespace. The system after `clone` is that of the child. `isRegular` is `stat` with `S_ISREG`. -/
structure ExecOs (ω : Type) extends DirOs ω where
  isRegular : ω → CStr → Bool
  setCgroups : ω → Family → Option CStr → ω
  readFile : ω → Int → Option (List UInt8)
  clone : ω → (newUser : Bool) → Option ω
  getpid : ω → Nat
  writeFile : ω → (path content : CStr) → Option ω
  setns : ω → (file : Option CStr) → ShareKey → Option ω
  unshareTime : ω → ω
  setgid : ω → Nat → Option ω
  setuid : ω → Nat → Option ω

section

variable {ω : Type} (os : ExecOs ω) (creds : Credentials)

/-- The system as the launch sees it. -/
def ExecOs.launchOs : LaunchOs ω :=
  { os.toDirOs.redOs creds with setCgroups := os.setCgroups, readFile := os.readFile }

/-! ## The child -/

def orEnd {α : Type} (e : Ended) : Option α → Except Ended α
  | some a => .ok a
  | none => .error e

/-- `"%lld %lld 1"` -/
def idMap (inner outer : Nat) : CStr :=
  (((CStr.decimal inner).append (CStr.lit " ")).append (CStr.decimal outer)).append (CStr.lit " 1")

/-- create the mapping of uids and gids -/
def writeUidGidMap (o : ω) (innerUid outerUid innerGid outerGid : Nat) : Option ω := do
  let dir := ((CStr.lit "/proc/").append (CStr.decimal (os.getpid o))).append (CStr.lit "/")
  let o ← os.writeFile o (dir.append (CStr.lit "uid_map")) (idMap innerUid outerUid)
  let o ← os.writeFile o (dir.append (CStr.lit "setgroups")) (CStr.lit "deny")
  os.writeFile o (dir.append (CStr.lit "gid_map")) (idMap innerGid outerGid)

def joinns (o : ω) (shares : RedConfShare) (key : ShareKey) : Except Ended ω :=
  orEnd (.exit 1) (os.setns o (shares.get key) key)

/-- unshare time namespace if required -/
def timeNamespace (o : ω) (shares : RedConfShare) : Except Ended ω :=
  match sharingType shares.time with
  | .join => joinns os o shares .time
  | .disabled => .ok (os.unshareTime o)
  | _ => .ok o

/-- join other namespaces -/
def otherNamespaces (o : ω) (shares : RedConfShare) : Except Ended ω :=
  [ShareKey.cgroup, .ipc, .net, .pid, .user].foldlM
    (fun o key => if sharingType (shares.get key) = .join then joinns os o shares key else .ok o) o

/-- set smack label of current process, if there is one -/
def setsmack (o : ω) : Option CStr → Except Ended ω
  | some label =>
    orEnd (.exit exitFailure) (os.writeFile o (CStr.lit "/proc/self/attr/current") label)
  | none => .ok o

variable (expand : ExpandCtx → CStr → Option CStr) (env : RedEnv) (depth : Nat)

/-- in a new user namespace, set uid/gid maps -/
def mapIds (o : ω) (unshareusr mapUserRoot : Bool) : Except Ended ω :=
  if unshareusr then
    orEnd (.returned exitFailure) (writeUidGidMap os o
      (if mapUserRoot then 0 else creds.uid) creds.uid
      (if mapUserRoot then 0 else creds.gid) creds.gid)
  else .ok o

/-- The clone, and what the child does before it becomes `bwrap`. -/
def childSetup (rs : RedwrapState ω) : Except Ended ω := do
  let o ← orEnd (.returned 1) (os.clone rs.os (cloneNewUser rs))
  let o ← mapIds os creds o (cloneNewUser rs) ((mergedTag expand rs.rednode).maprootuser != 0)
  let o ← timeNamespace os o rs.shares
  let o ← otherNamespaces os o rs.shares
  let o ← setsmack os o creds.smack
  let o ← orEnd (.returned exitFailure) (os.setgid o creds.gid)
  orEnd (.returned exitFailure) (os.setuid o creds.uid)

/-! ## The run -/

/-- The array `argval`. -/
def RedwrapState.vector (rs : RedwrapState ω) : Filled (Option CStr) maxBwrapArgs :=
  ⟨rs.argval, rs.inBounds⟩

/-- `restate.argval[restate.argcount] = NULL;`, and the call of `execve`. -/
def execArgval (bwrap : Option CStr) (rs : RedwrapState ω) : Except Ended Exec :=
  match rs.vector.push none with
  | some argv => .ok ⟨bwrap, argv, rs.environ⟩
  | none => .error .outside

/-- The collection of the arguments: an exit is that of `ADD`. -/
def Stop.collecting : Stop → Ended
  | .returned => .returned 1
  | .exit => .tooManyParameters
  | .fault => .fault

/-- The dump: with `dump` above 1 it ends in `exit(0)`. -/
def Stop.dumping : Stop → Ended
  | .returned => .returned 1
  | .exit => .exit 0
  | .fault => .fault

/-- `redwrapExecBwrap` -/
def redwrapExec (commandName : CStr) (cliarg : RWrapConfig) (subargv : List CStr)
    (rednode : Family) (o : ω) (stack : Stack) : Except Ended Exec := do
  let rs ← (collectArguments expand env depth (os.launchOs creds) commandName cliarg.strict
    cliarg.dump subargv rednode o stack).mapError Stop.collecting
  let rs ← (dumpCall rs).mapError Stop.dumping
  let _ ← childSetup os creds expand rs
  execArgval cliarg.bwrap rs

variable {os creds expand env depth} {commandName : CStr} {cliarg : RWrapConfig}
  {subargv : List CStr} {rednode : Family} {o : ω} {stack : Stack}

theorem quiet_orEnd {α : Type} {e : Ended} (he : e.GivesUp) (a : Option α) :
    Quiet (orEnd e a) := by
  intro e' h
  cases a with
  | some a => cases h
  | none =>
    cases h
    exact he

theorem quiet_joinns (o : ω) (shares : RedConfShare) (key : ShareKey) :
    Quiet (joinns os o shares key) :=
  quiet_orEnd (e := .exit 1) trivial _

theorem quiet_mapIds (o : ω) (unshareusr mapUserRoot : Bool) :
    Quiet (mapIds os creds o unshareusr mapUserRoot) := by
  unfold mapIds
  split
  · exact quiet_orEnd (e := .returned exitFailure) trivial _
  · exact quiet_ok o

theorem quiet_timeNamespace (o : ω) (shares : RedConfShare) :
    Quiet (timeNamespace os o shares) := by
  unfold timeNamespace
  split
  · exact quiet_joinns o shares .time
  · exact quiet_ok _
  · exact quiet_ok o

theorem quiet_otherNamespaces (o : ω) (shares : RedConfShare) :
    Quiet (otherNamespaces os o shares) := by
  refine quiet_foldlM (fun o key => ?_) _ o
  split
  · exact quiet_joinns o shares key
  · exact quiet_ok o

theorem quiet_setsmack (o : ω) (smack : Option CStr) : Quiet (setsmack os o smack) := by
  cases smack with
  | some label => exact quiet_orEnd (e := .exit exitFailure) trivial _
  | none => exact quiet_ok o

theorem quiet_childSetup (rs : RedwrapState ω) : Quiet (childSetup os creds expand rs) := by
  refine Quiet.bind (quiet_orEnd (e := .returned 1) trivial _) fun o => ?_
  refine (quiet_mapIds o _ _).bind fun o => ?_
  refine (quiet_timeNamespace o _).bind fun o => ?_
  refine (quiet_otherNamespaces o _).bind fun o => ?_
  refine (quiet_setsmack o _).bind fun o => ?_
  refine Quiet.bind (quiet_orEnd (e := .returned exitFailure) trivial _) fun o => ?_
  exact quiet_orEnd (e := .returned exitFailure) trivial _

theorem collecting_ne_outside (stop : Stop) : stop.collecting ≠ .outside := by
  cases stop <;> decide

theorem dumping_ne_outside (stop : Stop) : stop.dumping ≠ .outside := by cases stop <;> decide

theorem execArgval_outside {bwrap : Option CStr} {rs : RedwrapState ω} :
    execArgval bwrap rs = .error .outside ↔ rs.argval.length = maxBwrapArgs := by
  rw [← (show rs.vector.entries = rs.argval from rfl), ← Layered.Filled.push_eq_none (a := none)]
  unfold execArgval
  cases rs.vector.push none with
  | some argv => exact ⟨fun h => (by cases h), fun h => (by cases h)⟩
  | none => exact ⟨fun _ => rfl, fun _ => rfl⟩

/-- **The NULL** is stored outside of `argval` when the child is to become `bwrap` with the array
full of arguments. -/
theorem redwrapExec_outside :
    redwrapExec os creds expand env depth commandName cliarg subargv rednode o stack =
        .error .outside ↔
      ∃ rs, collectArguments expand env depth (os.launchOs creds) commandName cliarg.strict
          cliarg.dump subargv rednode o stack = .ok rs ∧ ¬ rs.dump > 1 ∧
        (∃ o', childSetup os creds expand rs = .ok o') ∧ rs.argval.length = maxBwrapArgs := by
  simp only [redwrapExec, except_bind_eq_error, mapError_eq_error, mapError_eq_ok,
    execArgval_outside]
  constructor
  · rintro (⟨stop, -, hstop⟩ | ⟨rs, hrun, ⟨stop, -, hstop⟩ | ⟨rs', hdump, hsetup⟩⟩)
    · exact absurd hstop (collecting_ne_outside stop)
    · exact absurd hstop (dumping_ne_outside stop)
    · obtain ⟨rfl, hle⟩ := dumpCall_ok hdump
      rcases hsetup with hquiet | ⟨o', hready, hfull⟩
      · exact (quiet_childSetup rs' _ hquiet).elim
      · exact ⟨rs', hrun, hle, ⟨o', hready⟩, hfull⟩
  · rintro ⟨rs, hrun, hle, ⟨o', hready⟩, hfull⟩
    exact .inr ⟨rs, hrun, .inr ⟨rs, if_neg hle, .inr ⟨o', hready, hfull⟩⟩⟩

/-- **Too many arguments** for `argval` end the process. -/
theorem redwrapExec_tooMany
    (h : collectArguments expand env depth (os.launchOs creds) commandName cliarg.strict
      cliarg.dump subargv rednode o stack = .error .exit) :
    redwrapExec os creds expand env depth commandName cliarg subargv rednode o stack =
      .error .tooManyParameters := by
  rw [redwrapExec, h]
  rfl

end

end Wrap
end RedPak
