import RedPak.Layered.Demand
import RedPak.Wrap.Abort
import RedPak.Wrap.Commands

/-!
# Wrap.ArgVectors

The arrays of arguments of `redwrap` and `redwrap-dnf`. Each turn of a launch asks for a number of
arguments that does not depend on the arguments that are there already, so that what the turns ask
for together tells when the array `argval` is full before its NULL.

* `launchTurn_asks`: what a turn asks for, and in which system it leaves the launch.
* `exists_redwrapExec_outside`: when the NULL is stored outside of `argval`.
* `vectorsHold_iff`: when every store is inside of its array, and too many arguments end in
  `too_many_parameters`.
-/

namespace RedPak
namespace Wrap

open Conf
open Layered (Buffer turns total Reached Asks)
open Layered.Buffer (slice)
open Layered.Action (except_bind_eq_ok except_bind_eq_error)

variable {ω : Type}

/-! ## What a turn asks for -/

/-- A state without what is collected in it. -/
def RedwrapState.bare (rs : RedwrapState ω) : RedwrapState ω :=
  { rs with argval := [], inBounds := Nat.zero_le _, log := [] }

section

variable (expand : ExpandCtx → CStr → Option CStr) (env : RedEnv) (depth : Nat)
  (os : LaunchOs ω)

/-- The output of the command of a variable fills the buffer, and no zero is in it: the copy has no
end. -/
def fillsBuffer (rs : RedwrapState ω) (var : RedConfVar) : Bool :=
  (commandOutput os rs var).any fun bytes =>
    decide (bytes.length = envvarBufferSize ∧ (0 : UInt8) ∉ bytes)

/-- The number of arguments of a turn, unless the turn stops however many there may be. -/
def turnDemand (rs : RedwrapState ω) (t : Turn) : Option Nat :=
  match t with
  | .refuse | .crash => none
  | .exportPath exp node =>
    match exportState expand os rs exp node with
    | .error _ => none
    | .ok _ => some (argCount expand os rs t)
  | .envvar var _ =>
    match var.mode with
    | .execfd => if fillsBuffer os rs var then none else some (argCount expand os rs t)
    | .deflt => if var.value = none then none else some (argCount expand os rs t)
    | _ => some (argCount expand os rs t)
  | .conftag _ | .words _ => some (argCount expand os rs t)

/-- The system in which an export leaves the launch. -/
def exportOs (rs : RedwrapState ω) (exp : RedConfExportPath) (node : Family) : ω :=
  if exp.mode.isPrivate ∧ node ≠ rs.rednode then rs.os
  else if isDirMode exp.mode then
    match checkDirectory os.toRedOs rs (exportSource expand exp node) with
    | .error _ => rs.os
    | .ok (_, rs') => rs'.os
  else if exp.mode = .exportExecfd then
    (os.memFdExecCmd rs.os exp.mount (exp.path.getD exp.mount)).2
  else rs.os

/-- The state in which a turn leaves the launch, but for what is collected. -/
def turnNext (rs : RedwrapState ω) : Turn → RedwrapState ω
  | .exportPath exp node => { rs with os := exportOs expand os rs exp node }
  | .envvar var _ =>
    if var.mode = .execfd then
      { rs with os := (os.memFdExecCmd rs.os var.key (var.value.getD (CStr.lit ""))).2 }
    else rs
  | .conftag tag =>
    { rs with
      os := os.setCgroups rs.os rs.rednode tag.cgrouproot
      environ := rs.environ || tag.inheritenv ≠ 0
      shares := tag.share }
  | _ => rs

/-- A stack of zeros. -/
def clearStack : Stack := ⟨fun _ _ => 0, fun _ => 0, fun _ => 0⟩

variable {expand env os} {rs rs' : RedwrapState ω} {t : Turn}

/-! ### The number of arguments -/

theorem strdup_ne_none {buffer : Buffer UInt8} {size : Nat} :
    strdup buffer size ≠ none ↔ (0 : UInt8) ∈ slice buffer 0 size := by
  unfold strdup
  split
  · rename_i h
    exact ⟨fun _ => h, fun _ => by simp⟩
  · rename_i h
    exact ⟨fun hne => absurd rfl hne, fun hmem => absurd hmem h⟩

theorem fillsBuffer_iff {var : RedConfVar} : fillsBuffer os rs var = true ↔
    ∃ bytes, commandOutput os rs var = some bytes ∧ bytes.length = envvarBufferSize ∧
      (0 : UInt8) ∉ bytes := by
  unfold fillsBuffer
  cases commandOutput os rs var with
  | none => simp
  | some bytes => simp

theorem strdup_of_fillsBuffer {var : RedConfVar} (h : fillsBuffer os rs var = true)
    (stack : Stack) : strdup (envvarBuffer os stack rs var) envvarBufferSize = none := by
  obtain ⟨bytes, hout, hlen, hzero⟩ := fillsBuffer_iff.mp h
  by_contra hsome
  rw [← ne_eq, strdup_ne_none, envvarBuffer_read os hout (ne_nil_of_full hlen), if_pos hlen,
    Layered.Buffer.slice_writeAll_over (by omega), hlen, Nat.zero_add,
    Layered.Buffer.slice_self, List.append_nil] at hsome
  exact hzero hsome

/-- On a stack of zeros, the copy ends unless the output fills the buffer. -/
theorem strdup_clearStack {var : RedConfVar} (h : ¬ fillsBuffer os rs var = true) :
    ∃ value, strdup (envvarBuffer os clearStack rs var) envvarBufferSize = some value := by
  by_cases hread : CommandReads os rs var
  · obtain ⟨value, hvalue⟩ := strdup_of_read os hread
    exact ⟨value, hvalue clearStack⟩
  · rcases unread_or_full os hread with hunread | hfull
    · refine Option.ne_none_iff_exists'.mp (strdup_ne_none.mpr ?_)
      rw [envvarBuffer_unread os hunread, Layered.Buffer.slice_cons (by decide)]
      exact List.mem_cons.mpr (.inl rfl)
    · exact absurd (fillsBuffer_iff.mpr hfull) h

theorem turnDemand_of_args {stack : Stack} (hrefuse : t ≠ .refuse) {args : List (Option CStr)}
    (h : turnArgs expand env os stack rs t = .ok args) :
    turnDemand expand os rs t = some args.length := by
  cases t with
  | refuse => exact absurd rfl hrefuse
  | crash => cases h
  | exportPath exp node =>
    simp only [turnArgs, exportArgs] at h
    simp only [turnDemand, argCount]
    cases hstate : exportState expand os rs exp node with
    | error halt => rw [hstate] at h; cases h
    | ok state =>
      rw [hstate] at h
      cases state with
      | none =>
        cases h
        rfl
      | some rs₁ =>
        cases h
        exact congrArg some (modeArgs_spec os rs₁ exp _ _).2.symm
  | envvar var node =>
    simp only [turnArgs, varArgs] at h
    simp only [turnDemand, argCount]
    cases hmode : var.mode with
    | static => rw [hmode] at h; cases h; rfl
    | execfd =>
      rw [hmode] at h
      dsimp only at h ⊢
      cases hcopy : strdup (envvarBuffer os stack rs var) envvarBufferSize with
      | none => rw [hcopy] at h; cases h
      | some value =>
        rw [hcopy] at h
        cases h
        have hends : ¬ fillsBuffer os rs var = true := fun hfills => by
          rw [strdup_of_fillsBuffer hfills] at hcopy
          cases hcopy
        rw [if_neg hends]
        rfl
    | deflt =>
      rw [hmode] at h
      dsimp only at h ⊢
      cases hvalue : var.value with
      | none => rw [hvalue] at h; cases h
      | some value =>
        rw [hvalue] at h
        cases h
        rfl
    | remove => rw [hmode] at h; cases h; rfl
    | inherit => rw [hmode] at h; cases h; rfl
  | conftag tag =>
    cases h
    rfl
  | words args =>
    cases h
    exact congrArg some (List.length_map _).symm

theorem args_of_turnDemand {n : Nat} (h : turnDemand expand os rs t = some n) :
    t ≠ .refuse ∧ ∃ args, turnArgs expand env os clearStack rs t = .ok args ∧ args.length = n := by
  -- there are arguments, and the turn asks for as many
  suffices hargs : t ≠ .refuse ∧ ∃ args, turnArgs expand env os clearStack rs t = .ok args by
    obtain ⟨hrefuse, args, hrun⟩ := hargs
    have hsame := turnDemand_of_args hrefuse hrun
    exact ⟨hrefuse, args, hrun, Option.some.inj (hsame.symm.trans h)⟩
  refine ⟨?_, ?_⟩
  · rintro rfl
    cases h
  cases t with
  | refuse => cases h
  | crash => cases h
  | exportPath exp node =>
    simp only [turnDemand] at h
    simp only [turnArgs, exportArgs]
    cases hstate : exportState expand os rs exp node with
    | error halt => rw [hstate] at h; cases h
    | ok state => cases state <;> exact ⟨_, rfl⟩
  | envvar var node =>
    simp only [turnDemand] at h
    simp only [turnArgs, varArgs]
    cases hmode : var.mode with
    | execfd =>
      rw [hmode] at h
      dsimp only at h ⊢
      have hends : ¬ fillsBuffer os rs var = true := fun hfills => by
        rw [if_pos hfills] at h
        cases h
      obtain ⟨value, hvalue⟩ := strdup_clearStack hends
      rw [hvalue]
      exact ⟨_, rfl⟩
    | deflt =>
      rw [hmode] at h
      dsimp only at h ⊢
      cases hvalue : var.value with
      | none => rw [hvalue] at h; cases h
      | some value => exact ⟨_, rfl⟩
    | _ => exact ⟨_, rfl⟩
  | conftag tag => exact ⟨_, rfl⟩
  | words args => exact ⟨_, rfl⟩

/-! ### The state after a turn -/

theorem addAll_bare {values : List (Option CStr)} (h : addAll rs values = .ok rs') :
    rs'.bare = rs.bare := by
  obtain ⟨_, rfl⟩ := addAll_ok h
  rfl

theorem setOneExport_bare {exp : RedConfExportPath} {node : Family}
    (h : setOneExport expand os.toRedOs rs exp node = .ok rs') :
    rs'.bare = { rs.bare with os := exportOs expand os rs exp node } := by
  have hwarn : ∀ {rs₁ : RedwrapState ω} {format : String} {path : CStr},
      warnExport os.toRedOs rs₁ node format path = .ok rs' → rs'.bare = rs₁.bare := by
    intro rs₁ format path hw
    unfold warnExport at hw
    split at hw <;> cases hw
    rfl
  have hemit : ∀ {rs₁ : RedwrapState ω} {source mount : Option CStr}, exp.mode ≠ .exportExecfd →
      emitExport os.toRedOs rs₁ exp.mode exp.mount (exp.path.getD exp.mount) source mount =
        .ok rs' → rs'.bare = rs₁.bare := by
    intro rs₁ source mount hmode he
    unfold emitExport at he
    cases hm : exp.mode with
    | exportExecfd => exact absurd hm hmode
    | _ => rw [hm] at he; exact addAll_bare he
  unfold setOneExport at h
  unfold exportOs
  by_cases hskip : exp.mode.isPrivate = true ∧ node ≠ rs.rednode
  · rw [if_pos hskip] at h ⊢
    cases h
    rfl
  rw [if_neg hskip] at h ⊢
  by_cases hdir : exp.mode.bits &&& redExportDirs ≠ 0
  · have hdir' : isDirMode exp.mode = true := by simpa [isDirMode] using hdir
    have hmode : exp.mode ≠ .exportExecfd := fun hm => absurd hdir' (by rw [hm]; decide)
    simp only [if_pos hdir] at h
    rw [if_pos hdir', exportSource]
    cases hcheck : checkDirectory os.toRedOs rs
        (expand node.node.ctx (exp.path.getD exp.mount)) with
    | error halt => rw [hcheck] at h; cases h
    | ok checked =>
      obtain ⟨err, rs₁⟩ := checked
      rw [hcheck] at h
      have hsame : rs'.bare = rs₁.bare := by
        dsimp only at h
        split at h
        · exact hwarn h
        · exact hemit hmode h
      rw [hsame, checkDirectory_keeps os hcheck]
      rfl
  · have hdir' : ¬ isDirMode exp.mode = true := by simpa [isDirMode] using hdir
    simp only [if_neg hdir] at h
    rw [if_neg hdir']
    split at h
    · rename_i hfile
      have hmode : exp.mode ≠ .exportExecfd := fun hm => absurd hfile.1 (by rw [hm]; decide)
      rw [if_neg hmode, hwarn h]
      rfl
    · by_cases hmode : exp.mode = .exportExecfd
      · rw [if_pos hmode]
        rw [hmode, emitExport] at h
        exact addAll_bare h
      · rw [if_neg hmode, hemit hmode h]
        rfl

theorem execCmd_bare (tag command : CStr) (res : Buffer UInt8) (size : Nat) :
    (execCmd os rs tag command res size).2.2.bare =
      { rs.bare with os := (os.memFdExecCmd rs.os tag command).2 } := by
  simp only [execCmd]
  split
  · rfl
  · split
    · rfl
    · rfl
    · split <;> rfl

theorem setOneEnvvar_bare {stack : Stack} {var : RedConfVar} {node : Family}
    (h : setOneEnvvar expand env os stack rs var node = .ok rs') :
    rs'.bare = if var.mode = .execfd then
      { rs.bare with os := (os.memFdExecCmd rs.os var.key (var.value.getD (CStr.lit ""))).2 }
    else rs.bare := by
  unfold setOneEnvvar at h
  cases hmode : var.mode with
  | execfd =>
    rw [hmode] at h
    dsimp only at h
    split at h
    · cases h
    · rw [addAll_bare h, if_pos rfl, execCmd_bare]
  | deflt =>
    rw [hmode] at h
    rw [if_neg (by decide)]
    dsimp only at h
    split at h
    · cases h
    · exact addAll_bare h
  | _ =>
    rw [hmode] at h
    rw [if_neg (by decide)]
    exact addAll_bare h

theorem setOption_bare {option : RedConfOptFlag} {argument : CStr}
    (h : setOption rs option argument = .ok rs') : rs'.bare = rs.bare := by
  unfold setOption at h
  split at h
  · exact addAll_bare h
  · cases h
    rfl

theorem setHostname_bare {hostname : Option CStr} (h : setHostname expand rs hostname = .ok rs') :
    rs'.bare = rs.bare := by
  cases hostname with
  | none =>
    cases h
    rfl
  | some hostname => exact addAll_bare h

theorem setChdir_bare {chdir : Option CStr} (h : setChdir expand rs chdir = .ok rs') :
    rs'.bare = rs.bare := by
  cases chdir with
  | none =>
    cases h
    rfl
  | some chdir => exact addAll_bare h

theorem setShares_bare {share : RedConfShare} (h : setShares rs share = .ok rs') :
    rs'.bare = { rs.bare with shares := share } := by
  rw [setShares_eq] at h
  obtain ⟨rs₁, hadd, hend⟩ := except_bind_eq_ok.mp h
  rw [← addAll_bare hadd]
  cases hend
  rfl

theorem setConftag_bare {tag : RedConfTag} (h : setConftag expand os rs tag = .ok rs') :
    rs'.bare = { rs.bare with
      os := os.setCgroups rs.os rs.rednode tag.cgrouproot
      environ := rs.environ || tag.inheritenv ≠ 0
      shares := tag.share } := by
  obtain ⟨rs₁, hcaps, h⟩ := except_bind_eq_ok.mp h
  rw [setCapabilities_eq] at hcaps
  obtain ⟨rs₂, hhost, h⟩ := except_bind_eq_ok.mp h
  obtain ⟨rs₃, hdir, h⟩ := except_bind_eq_ok.mp h
  obtain ⟨rs₄, hdie, h⟩ := except_bind_eq_ok.mp h
  obtain ⟨rs₅, hsession, h⟩ := except_bind_eq_ok.mp h
  have hsame : rs₁.bare = rs.bare := addAll_bare hcaps
  have hfive : rs₅.bare =
      { rs₁.bare with os := os.setCgroups rs₁.os rs₁.rednode tag.cgrouproot } := by
    rw [setOption_bare hsession, setOption_bare hdie, setChdir_bare hdir, setHostname_bare hhost]
    rfl
  have henviron : rs₅.environ = rs.environ := by
    show rs₅.bare.environ = rs.bare.environ
    rw [hfive, hsame]
  have hos : rs₁.os = rs.os := by
    show rs₁.bare.os = rs.bare.os
    rw [hsame]
  have hnode : rs₁.rednode = rs.rednode := by
    show rs₁.bare.rednode = rs.bare.rednode
    rw [hsame]
  rw [hos, hnode, hsame] at hfive
  calc rs'.bare
    _ = { rs₅.bare with
          environ := rs₅.environ || tag.inheritenv ≠ 0
          shares := tag.share } := setShares_bare h
    _ = _ := by rw [henviron, hfive]

end

/-! ### Turns of a launch -/

section

variable {expand : ExpandCtx → CStr → Option CStr} {env : RedEnv} {os : ExecOs ω}
  {creds : Credentials} {rs rs' : RedwrapState ω} {t : Turn}

theorem afterMix_eq_ok {x : Except Halt (RedwrapState ω)} :
    afterMix (some (0, x)) = .ok rs ↔ x = .ok rs := by
  cases x with
  | ok rs' => rw [afterMix_ok, Except.ok.injEq, Except.ok.injEq]
  | error halt => exact ⟨fun h => (by cases h), fun h => (by cases h)⟩

/-- Only the system and the options of the command line count. -/
theorem checkDirectory_bare (source : Option CStr) :
    checkDirectory (os.launchOs creds).toRedOs rs.bare source =
      (checkDirectory (os.launchOs creds).toRedOs rs source).map
        fun p => (p.1, p.2.bare) := by
  simp only [checkDirectory]
  have hos : rs.bare.os = rs.os := rfl
  have hstrict : rs.bare.strict = rs.strict := rfl
  have hdump : rs.bare.dump = rs.dump := rfl
  rw [hos, hstrict, hdump]
  split
  · split
    · rfl
    · cases source <;> rfl
  · rfl

theorem exportState_bare (exp : RedConfExportPath) (node : Family) :
    exportState expand (os.launchOs creds) rs.bare exp node =
      (exportState expand (os.launchOs creds) rs exp node).map (Option.map RedwrapState.bare) := by
  have hos : rs.bare.os = rs.os := rfl
  have hnode : rs.bare.rednode = rs.rednode := rfl
  unfold exportState
  rw [hos, hnode, checkDirectory_bare]
  split
  · rfl
  · split
    · cases checkDirectory (os.launchOs creds).toRedOs rs (exportSource expand exp node) with
      | error halt => rfl
      | ok checked =>
        simp only [Except.map]
        split <;> rfl
    · split <;> rfl

theorem exportOs_bare (exp : RedConfExportPath) (node : Family) :
    exportOs expand (os.launchOs creds) rs.bare exp node =
      exportOs expand (os.launchOs creds) rs exp node := by
  unfold exportOs
  rw [checkDirectory_bare]
  cases checkDirectory (os.launchOs creds).toRedOs rs (exportSource expand exp node) <;> rfl

theorem turnDemand_bare (t : Turn) : turnDemand expand (os.launchOs creds) rs.bare t =
    turnDemand expand (os.launchOs creds) rs t := by
  cases t with
  | exportPath exp node =>
    simp only [turnDemand, argCount, exportState_bare]
    cases exportState expand (os.launchOs creds) rs exp node with
    | error halt => rfl
    | ok state => cases state <;> rfl
  | _ => rfl

theorem launchTurn_bare {stack : Stack}
    (h : launchTurn expand env (os.launchOs creds) stack rs t = .ok rs') :
    rs'.bare = turnNext expand (os.launchOs creds) rs.bare t := by
  cases t with
  | refuse => cases h
  | crash => cases h
  | exportPath exp node =>
    rw [setOneExport_bare (afterMix_eq_ok.mp h), turnNext, exportOs_bare]
  | envvar var node => exact setOneEnvvar_bare (afterMix_eq_ok.mp h)
  | conftag tag => exact setConftag_bare (afterMix_eq_ok.mp h)
  | words args => exact addAll_bare (afterMix_eq_ok.mp h)

/-- **A turn** takes what it asks for, and on a stack of zeros stops only for want of room. -/
theorem launchTurn_asks (hconf : t.Configured) :
    Asks (launchTurn expand env (os.launchOs creds)) (turnDemand expand (os.launchOs creds))
      (turnNext expand (os.launchOs creds)) RedwrapState.bare (·.argval.length) maxBwrapArgs
      clearStack t := by
  refine ⟨fun stack rs rs' hrun => ?_, fun rs n hdemand hfits => ?_⟩
  · have hrefuse : t ≠ .refuse := by
      rintro rfl
      cases hrun
    have hspec := launchTurn_spec expand env (os.launchOs creds) stack rs hconf hrefuse
    cases hargs : turnArgs expand env (os.launchOs creds) stack rs t with
    | error halt =>
      rw [hargs, hrun] at hspec
      cases hspec with
      | halts _ h => cases h
    | ok args =>
      rw [hargs, hrun] at hspec
      cases hspec with
      | adds _ _ happ _ =>
        have hlen : rs'.argval.length = rs.argval.length + args.length := by
          rw [(happ rs' rfl).1, List.length_append]
        rw [turnDemand_bare, turnDemand_of_args hrefuse hargs, hlen, Nat.add_sub_cancel_left]
        exact ⟨rfl, Nat.le_add_right _ _, launchTurn_bare hrun⟩
  · rw [turnDemand_bare] at hdemand
    obtain ⟨hrefuse, args, hargs, rfl⟩ := args_of_turnDemand hdemand
    have hspec := launchTurn_spec expand env (os.launchOs creds) clearStack rs hconf hrefuse
    rw [hargs] at hspec
    cases hspec with
    | adds _ _ _ hends => exact hends.mpr hfits

end

/-! ## What a launch asks for -/

section

variable (os : ExecOs ω) (creds : Credentials) (expand : ExpandCtx → CStr → Option CStr)
  (env : RedEnv) (depth : Nat) (commandName : CStr) (cliarg : RWrapConfig) (subargv : List CStr)
  (rednode : Family) (o : ω)

/-- The state in which a launch starts. -/
def launchStart : RedwrapState ω := .start commandName cliarg.strict cliarg.dump o rednode

/-- How many arguments the exports, the variables, the section `config`, the paths and the command
ask for together, unless the launch stops whatever their number is. -/
def launchDemand : Option Nat :=
  total (turnDemand expand (os.launchOs creds)) (turnNext expand (os.launchOs creds))
    (launchStart commandName cliarg rednode o).bare (launchTurns expand env depth rednode subargv)

/-- The state to which the turns lead, but for what is collected. -/
def launchEnd : RedwrapState ω :=
  (launchTurns expand env depth rednode subargv).foldl (turnNext expand (os.launchOs creds))
    (launchStart commandName cliarg rednode o).bare

/-- The array `argval` is full, and the process comes to the NULL behind the arguments. -/
def FillsArgval : Prop :=
  launchDemand os creds expand env depth commandName cliarg subargv rednode o =
      some (maxBwrapArgs - 1) ∧
    ¬ cliarg.dump > 1 ∧
    ∃ o', childSetup os creds expand
      (launchEnd os creds expand env depth commandName cliarg subargv rednode o) = .ok o'

/-- A turn that the launch comes to adds more arguments than `argval` has room for. -/
def Overfull (stack : Stack) : Prop :=
  ∃ rs t args, Reached (launchTurn expand env (os.launchOs creds)) stack
      (launchStart commandName cliarg rednode o) (launchTurns expand env depth rednode subargv) rs
      t ∧
    turnArgs expand env (os.launchOs creds) stack rs t = .ok args ∧
    maxBwrapArgs < rs.argval.length + args.length

variable {os creds expand env depth commandName cliarg subargv rednode o}

theorem turnNext_dump {los : LaunchOs ω} (rs : RedwrapState ω) (t : Turn) :
    (turnNext expand los rs t).dump = rs.dump := by
  cases t with
  | envvar var node =>
    rw [turnNext]
    split <;> rfl
  | _ => rfl

theorem launchEnd_dump :
    (launchEnd os creds expand env depth commandName cliarg subargv rednode o).dump =
      cliarg.dump := by
  have hkeeps : ∀ (ts : List Turn) (rs : RedwrapState ω),
      (ts.foldl (turnNext expand (os.launchOs creds)) rs).dump = rs.dump := by
    intro ts
    induction ts with
    | nil => intro rs; rfl
    | cons t ts ih => intro rs; rw [List.foldl_cons, ih, turnNext_dump]
  exact hkeeps _ _

/-- **The NULL** is stored outside of `argval` for some content of the stack exactly when the turns
fill it. -/
theorem exists_redwrapExec_outside (hconfigs : ∀ f ∈ rednode.toRoot, f.node.config ≠ none) :
    (∃ stack, redwrapExec os creds expand env depth commandName cliarg subargv rednode o stack =
      .error .outside) ↔
    FillsArgval os creds expand env depth commandName cliarg subargv rednode o := by
  have hconf := launchTurns_configured expand env depth hconfigs subargv
  have hasks : ∀ t ∈ launchTurns expand env depth rednode subargv,
      Asks (launchTurn expand env (os.launchOs creds)) (turnDemand expand (os.launchOs creds))
        (turnNext expand (os.launchOs creds)) RedwrapState.bare (·.argval.length) maxBwrapArgs
        clearStack t := fun t ht => launchTurn_asks (hconf t ht)
  have hfirst : (launchStart commandName cliarg rednode o).argval.length = 1 := rfl
  simp only [redwrapExec_outside, collectArguments_eq expand env depth (os.launchOs creds) hconfigs]
  constructor
  · rintro ⟨stack, rs, hrun, hle, hready, hfull⟩
    obtain ⟨htotal, -, hend⟩ := Layered.total_of_turns hasks hrun
    have hlast : rs.bare = launchEnd os creds expand env depth commandName cliarg subargv rednode
      o := hend
    have hdump : rs.bare.dump = cliarg.dump := hlast ▸ launchEnd_dump
    refine ⟨?_, hdump ▸ hle, hlast ▸ hready⟩
    rw [launchDemand, launchStart, htotal, hfull]
    rfl
  · rintro ⟨htotal, hle, hready⟩
    obtain ⟨rs, hrun⟩ := Layered.turns_of_total hasks htotal (by rw [hfirst]; decide)
    obtain ⟨htaken, hlen, hend⟩ := Layered.total_of_turns hasks hrun
    have hlast : rs.bare = launchEnd os creds expand env depth commandName cliarg subargv rednode
      o := hend
    have hdump : rs.bare.dump = cliarg.dump := hlast ▸ launchEnd_dump
    refine ⟨clearStack, rs, hrun, ?_, ?_, ?_⟩
    · exact fun hgt => hle (hdump ▸ hgt)
    · rw [← hlast] at hready
      exact hready
    · have hsame : maxBwrapArgs - 1 = rs.argval.length - 1 :=
        Option.some.inj (htotal.symm.trans htaken)
      have hpos : 1 ≤ rs.argval.length := hlen
      have hmax : maxBwrapArgs = 512 := rfl
      omega

/-- **A turn that does not fit** ends the process in `too_many_parameters`. -/
theorem redwrapExec_of_overfull (hconfigs : ∀ f ∈ rednode.toRoot, f.node.config ≠ none)
    {stack : Stack}
    (h : Overfull os creds expand env depth commandName cliarg subargv rednode o stack) :
    redwrapExec os creds expand env depth commandName cliarg subargv rednode o stack =
      .error .tooManyParameters := by
  obtain ⟨rs, t, args, hreached, hargs, hover⟩ := h
  have hconf := launchTurns_configured expand env depth hconfigs subargv t
    (Layered.mem_of_reached hreached)
  have hrefuse : t ≠ .refuse := by
    rintro rfl
    cases hargs
    exact absurd rs.inBounds (Nat.not_le.mpr hover)
  have hspec := launchTurn_spec expand env (os.launchOs creds) stack rs hconf hrefuse
  have hstop : launchTurn expand env (os.launchOs creds) stack rs t = .error .exit := by
    rw [hargs] at hspec
    cases hspec with
    | adds _ hstops _ hends =>
      cases hrun : launchTurn expand env (os.launchOs creds) stack rs t with
      | ok rs' => exact absurd (hends.mp ⟨rs', hrun⟩) (Nat.not_le.mpr hover)
      | error stop => rw [hstops stop hrun]
  refine redwrapExec_tooMany ?_
  rw [collectArguments_eq expand env depth (os.launchOs creds) hconfigs]
  exact Layered.turns_of_reached _ hstop hreached

end

/-! ## The commands -/

inductive Command where
  | redwrap
  | redwrapDnf
deriving DecidableEq

section

variable (os : ExecOs ω) (creds : Credentials) (expand : ExpandCtx → CStr → Option CStr)
  (env : RedEnv) (depth : Nat) (getopt : List CStr → Getopt) (name : CStr) (args : List CStr)
  (rednode : Family) (o : ω)

def Command.main (stack : Stack) : Command → Except Ended Exec
  | .redwrap => redwrapMain os creds expand env depth getopt name args rednode o stack
  | .redwrapDnf => redwrapDnfMain os creds expand env depth getopt name args rednode o stack

/-- The options under which `_exec_bwrap` runs. -/
def bwrapConfig (cliarg : ParsedArgs) : RWrapConfig :=
  { cliarg.toRWrapConfig with isadmin := true }

/-- An array of arguments of a command is to take more than it has room for. -/
def Command.TooMany (stack : Stack) : Command → Prop
  | .redwrap => ∃ cliarg, rwrapParseArgs getopt (name :: args) = .ok cliarg ∧
      Overfull os creds expand env depth name cliarg.toRWrapConfig
        ((getopt (name :: args)).argv.drop cliarg.index) rednode o stack
  | .redwrapDnf => ∃ position redcmd,
      findRedmicrodnfCmd (name :: args) = some (position, redcmd) ∧
      if redcmd.outnode then
        -- with the NULL
        os.isRegular o redmicrodnfCmdPath = true ∧ maxBwrapArgs < (name :: args).length + 1
      else maxBwrapArgs < position ∨
        ∃ cliarg, rwrapParseArgs getopt ((name :: args).take position) = .ok cliarg ∧
          (maxBwrapArgs < 4 + ((name :: args).length - cliarg.index) ∨
            Overfull os creds expand env depth (CStr.lit "--") (bwrapConfig cliarg)
              (bwrapSubargv (name :: args) cliarg) rednode o stack)

/-- Whatever the stack holds, every store into an array of arguments is inside of it, and too many
arguments end in `too_many_parameters`. -/
structure VectorsHold (command : Command) : Prop where
  inside : ∀ stack, command.main os creds expand env depth getopt name args rednode o stack ≠
    .error .outside
  refused : ∀ stack, command.TooMany os creds expand env depth getopt name args rednode o stack →
    command.main os creds expand env depth getopt name args rednode o stack =
      .error .tooManyParameters

/-- The arguments that are copied fit, and those that are collected do not fill their array. -/
def Command.Fits : Command → Prop
  | .redwrap => ∀ cliarg, rwrapParseArgs getopt (name :: args) = .ok cliarg →
      ¬ FillsArgval os creds expand env depth name cliarg.toRWrapConfig
        ((getopt (name :: args)).argv.drop cliarg.index) rednode o
  | .redwrapDnf => ∀ position redcmd,
      findRedmicrodnfCmd (name :: args) = some (position, redcmd) →
      if redcmd.outnode then
        os.isRegular o redmicrodnfCmdPath = true → (name :: args).length < maxBwrapArgs
      else position ≤ maxBwrapArgs ∧
        ∀ cliarg, rwrapParseArgs getopt ((name :: args).take position) = .ok cliarg →
          4 + ((name :: args).length - cliarg.index) ≤ maxBwrapArgs ∧
            ¬ FillsArgval os creds expand env depth (CStr.lit "--") (bwrapConfig cliarg)
              (bwrapSubargv (name :: args) cliarg) rednode o

variable {os creds expand env depth getopt name args rednode o} {stack : Stack}

theorem redwrapMain_outside :
    redwrapMain os creds expand env depth getopt name args rednode o stack = .error .outside ↔
      ∃ cliarg, rwrapParseArgs getopt (name :: args) = .ok cliarg ∧
        redwrapExec os creds expand env depth name cliarg.toRWrapConfig
          ((getopt (name :: args)).argv.drop cliarg.index) rednode o stack = .error .outside := by
  rw [redwrapMain, mainReturn_outside, except_bind_eq_error]
  exact or_iff_right fun h => quiet_rwrapParseArgs _ _ _ h

theorem redwrapDnfMain_outside :
    redwrapDnfMain os creds expand env depth getopt name args rednode o stack = .error .outside ↔
      ∃ position redcmd, findRedmicrodnfCmd (name :: args) = some (position, redcmd) ∧
        if redcmd.outnode then
          os.isRegular o redmicrodnfCmdPath = true ∧ maxBwrapArgs ≤ (name :: args).length
        else maxBwrapArgs < position ∨
          ∃ cliarg, rwrapParseArgs getopt ((name :: args).take position) = .ok cliarg ∧
            (maxBwrapArgs < 4 + ((name :: args).length - cliarg.index) ∨
              redwrapExec os creds expand env depth (CStr.lit "--") (bwrapConfig cliarg)
                (bwrapSubargv (name :: args) cliarg) rednode o stack = .error .outside) := by
  unfold redwrapDnfMain
  cases hfind : findRedmicrodnfCmd (name :: args) with
  | none => exact ⟨fun h => (by cases h), fun ⟨_, _, h, _⟩ => (by cases h)⟩
  | some found =>
    obtain ⟨position, redcmd⟩ := found
    have hsame : ∀ {p : Nat → RedCmd → Prop},
        (∃ position' redcmd', some (position, redcmd) = some (position', redcmd') ∧
          p position' redcmd') ↔ p position redcmd := by
      intro p
      exact ⟨fun ⟨_, _, h, hp⟩ => (by cases h; exact hp), fun hp => ⟨_, _, rfl, hp⟩⟩
    rw [mainReturn_outside, hsame]
    split
    · exact execRedmicrodnf_outside
    · rw [execBwrap_outside, length_take_position hfind]
      simp only [length_bwrapSubargv]
      rfl

theorem redwrapMain_inside_iff (hconfigs : ∀ f ∈ rednode.toRoot, f.node.config ≠ none) :
    (∀ stack, redwrapMain os creds expand env depth getopt name args rednode o stack ≠
      .error .outside) ↔
    Command.redwrap.Fits os creds expand env depth getopt name args rednode o := by
  constructor
  · intro hinside cliarg hparse hfills
    obtain ⟨stack, hrun⟩ := (exists_redwrapExec_outside hconfigs).mpr hfills
    exact hinside stack (redwrapMain_outside.mpr ⟨cliarg, hparse, hrun⟩)
  · intro hfits stack hrun
    obtain ⟨cliarg, hparse, hexec⟩ := redwrapMain_outside.mp hrun
    exact hfits cliarg hparse ((exists_redwrapExec_outside hconfigs).mp ⟨stack, hexec⟩)

theorem redwrapDnfMain_inside_iff (hconfigs : ∀ f ∈ rednode.toRoot, f.node.config ≠ none) :
    (∀ stack, redwrapDnfMain os creds expand env depth getopt name args rednode o stack ≠
      .error .outside) ↔
    Command.redwrapDnf.Fits os creds expand env depth getopt name args rednode o := by
  constructor
  · intro hinside position redcmd hfind
    have hcopies := fun stack hcopy =>
      hinside stack (redwrapDnfMain_outside.mpr ⟨position, redcmd, hfind, hcopy⟩)
    split
    · rename_i hout
      simp only [if_pos hout] at hcopies
      exact fun hreg => Nat.not_le.mp fun hmany => hcopies clearStack ⟨hreg, hmany⟩
    · rename_i hout
      simp only [if_neg hout] at hcopies
      refine ⟨Nat.not_lt.mp fun h => hcopies clearStack (.inl h), fun cliarg hparse => ⟨?_, ?_⟩⟩
      · exact Nat.not_lt.mp fun h => hcopies clearStack (.inr ⟨cliarg, hparse, .inl h⟩)
      · intro hfills
        obtain ⟨stack, hrun⟩ := (exists_redwrapExec_outside hconfigs).mpr hfills
        exact hcopies stack (.inr ⟨cliarg, hparse, .inr hrun⟩)
  · intro hfits stack hrun
    obtain ⟨position, redcmd, hfind, hcopy⟩ := redwrapDnfMain_outside.mp hrun
    have hroom := hfits position redcmd hfind
    split at hcopy
    · rename_i hout
      rw [if_pos hout] at hroom
      exact absurd hcopy.2 (Nat.not_le.mpr (hroom hcopy.1))
    · rename_i hout
      rw [if_neg hout] at hroom
      rcases hcopy with hfirst | ⟨cliarg, hparse, hsecond | hexec⟩
      · exact absurd hroom.1 (Nat.not_le.mpr hfirst)
      · exact absurd (hroom.2 cliarg hparse).1 (Nat.not_le.mpr hsecond)
      · exact (hroom.2 cliarg hparse).2 ((exists_redwrapExec_outside hconfigs).mp ⟨stack, hexec⟩)

theorem main_inside_iff (hconfigs : ∀ f ∈ rednode.toRoot, f.node.config ≠ none)
    (command : Command) :
    (∀ stack, command.main os creds expand env depth getopt name args rednode o stack ≠
      .error .outside) ↔
    command.Fits os creds expand env depth getopt name args rednode o := by
  cases command with
  | redwrap => exact redwrapMain_inside_iff hconfigs
  | redwrapDnf => exact redwrapDnfMain_inside_iff hconfigs

theorem redwrapMain_refused (hconfigs : ∀ f ∈ rednode.toRoot, f.node.config ≠ none)
    (h : Command.redwrap.TooMany os creds expand env depth getopt name args rednode o stack) :
    redwrapMain os creds expand env depth getopt name args rednode o stack =
      .error .tooManyParameters := by
  obtain ⟨cliarg, hparse, hover⟩ := h
  refine mainReturn_tooMany.mpr (except_bind_eq_error.mpr (.inr ⟨cliarg, hparse, ?_⟩))
  exact redwrapExec_of_overfull hconfigs hover

/-- Once the copies fit, it is the collection that has too many. -/
theorem redwrapDnfMain_refused (hconfigs : ∀ f ∈ rednode.toRoot, f.node.config ≠ none)
    (hfits : Command.redwrapDnf.Fits os creds expand env depth getopt name args rednode o)
    (h : Command.redwrapDnf.TooMany os creds expand env depth getopt name args rednode o stack) :
    redwrapDnfMain os creds expand env depth getopt name args rednode o stack =
      .error .tooManyParameters := by
  obtain ⟨position, redcmd, hfind, hcopy⟩ := h
  have hroom := hfits position redcmd hfind
  split at hcopy
  · rename_i hout
    rw [if_pos hout] at hroom
    exact absurd (hroom hcopy.1) (by omega)
  · rename_i hout
    rw [if_neg hout] at hroom
    rcases hcopy with hfirst | ⟨cliarg, hparse, hsecond | hover⟩
    · exact absurd hroom.1 (Nat.not_le.mpr hfirst)
    · exact absurd (hroom.2 cliarg hparse).1 (Nat.not_le.mpr hsecond)
    · rw [redwrapDnfMain, hfind]
      refine mainReturn_tooMany.mpr ?_
      rw [if_neg hout, execBwrap_of_fits ((length_take_position hfind).symm ▸ hroom.1) hparse
        (length_bwrapSubargv _ _ ▸ (hroom.2 cliarg hparse).1)]
      exact redwrapExec_of_overfull hconfigs hover

/-- **The arrays of arguments.** Every store into them is inside, and too many arguments end in
`too_many_parameters`, exactly when the arguments that are copied fit and those that are collected
do not fill the array before its NULL. -/
theorem vectorsHold_iff (hconfigs : ∀ f ∈ rednode.toRoot, f.node.config ≠ none)
    (command : Command) :
    VectorsHold os creds expand env depth getopt name args rednode o command ↔
      command.Fits os creds expand env depth getopt name args rednode o := by
  refine ⟨fun h => (main_inside_iff hconfigs command).mp h.inside,
    fun hfits => ⟨(main_inside_iff hconfigs command).mpr hfits, fun stack hmany => ?_⟩⟩
  cases command with
  | redwrap => exact redwrapMain_refused hconfigs hmany
  | redwrapDnf => exact redwrapDnfMain_refused hconfigs hfits hmany

end

/-! ## Arrays that overflow -/

/-- A node that asks for nothing. -/
def quietLeaf : Family where
  node := {
    config := some { headers := { nodeAlias := CStr.lit "leaf" } }
    redpath := CStr.lit "/leaf" }

/-- A system in which everything succeeds. -/
def readyOs : ExecOs Unit where
  stat _ _ := 0
  noEntry _ _ := false
  mkdir _ _ := (0, ())
  chown _ _ _ _ := ()
  setxattr _ _ _ := ()
  memFdExecCmd _ _ _ := (3, ())
  strerror _ := CStr.lit "Success"
  isRegular _ _ := true
  setCgroups o _ _ := o
  readFile _ _ := some []
  clone _ _ := some ()
  getpid _ := 2
  writeFile _ _ _ := some ()
  setns _ _ _ := some ()
  unshareTime o := o
  setgid _ _ := some ()
  setuid _ _ := some ()

/-- What `getopt_long` makes of a command line that starts with `--redpath=/leaf --`. -/
def leafGetopt (argv : List CStr) : Getopt := ⟨[('r', CStr.lit "/leaf")], 3, argv⟩

def leafCreds : Credentials := ⟨0, 0, none⟩

/-- `--redpath=/leaf --` and a command -/
def leafArgs (command : List CStr) : List CStr :=
  CStr.lit "--redpath=/leaf" :: CStr.lit "--" :: command

theorem launchTurns_quietLeaf (subargv : List CStr) :
    launchTurns silentExpand silentEnv 1 quietLeaf subargv = [.conftag {}, .words subargv] :=
  launchTurns_of_no_exports silentExpand silentEnv 1 (by decide) rfl (by decide) subargv

theorem launchDemand_quietLeaf (commandName : CStr) (cliarg : RWrapConfig) (subargv : List CStr) :
    launchDemand readyOs leafCreds silentExpand silentEnv 1 commandName cliarg subargv quietLeaf
      () = some (5 + subargv.length) := by
  rw [launchDemand, launchTurns_quietLeaf]
  rfl

theorem childSetup_quietLeaf (commandName : CStr) (cliarg : RWrapConfig) (subargv : List CStr) :
    childSetup readyOs leafCreds silentExpand (launchEnd readyOs leafCreds silentExpand silentEnv 1
      commandName cliarg subargv quietLeaf ()) = .ok () := by
  rw [launchEnd, launchTurns_quietLeaf]
  rfl

theorem findRedmicrodnfCmd_manager (name : CStr) (args : List CStr) :
    findRedmicrodnfCmd (name :: CStr.lit "manager" :: args) =
      some (1, { cmd := CStr.lit "manager", outnode := true }) := by
  have hfind : redmicrodnfCommands.find?
      (fun redcmd => strcmp (CStr.lit "manager") redcmd.cmd = 0) =
        some { cmd := CStr.lit "manager", outnode := true } := by
    decide +kernel
  rw [findRedmicrodnfCmd, List.tail_cons, findCmdFrom, if_neg (by decide), hfind]

theorem overflow_argval {command : List CStr} (h : 5 + command.length = maxBwrapArgs - 1) :
    ¬ VectorsHold readyOs leafCreds silentExpand silentEnv 1 leafGetopt (CStr.lit "redwrap")
      (leafArgs command) quietLeaf () .redwrap := by
  intro hold
  have hdump : ¬ (0 : Int) > 1 := by decide
  refine (main_inside_iff (by decide) .redwrap).mp hold.inside _ rfl
    ⟨?_, hdump, (), childSetup_quietLeaf _ _ _⟩
  rw [launchDemand_quietLeaf]
  exact congrArg some h

theorem overflow_subargv {args : List CStr} (h : maxBwrapArgs ≤ args.length + 2) :
    ¬ VectorsHold readyOs leafCreds silentExpand silentEnv 1 leafGetopt (CStr.lit "redwrap-dnf")
      (CStr.lit "manager" :: args) quietLeaf () .redwrapDnf := by
  intro hold
  have hroom := (main_inside_iff (by decide) .redwrapDnf).mp hold.inside _ _
    (findRedmicrodnfCmd_manager _ _)
  rw [if_pos rfl] at hroom
  exact absurd (hroom rfl) (Nat.not_lt.mpr h)

/-- 506 arguments and those of the launch fill `argval`; 510 arguments and the names of the
commands fill `subargv`. The NULL is stored behind. -/
theorem vectors_overflow :
    ¬ VectorsHold readyOs leafCreds silentExpand silentEnv 1 leafGetopt (CStr.lit "redwrap")
        (leafArgs (List.replicate 506 (CStr.lit "x"))) quietLeaf () .redwrap ∧
      ¬ VectorsHold readyOs leafCreds silentExpand silentEnv 1 leafGetopt (CStr.lit "redwrap-dnf")
        (CStr.lit "manager" :: List.replicate 510 (CStr.lit "x")) quietLeaf () .redwrapDnf :=
  ⟨overflow_argval (by rw [List.length_replicate]; rfl),
    overflow_subargv (by rw [List.length_replicate]; decide)⟩

theorem vectorsHold_iff_leaf :
    VectorsHold readyOs leafCreds silentExpand silentEnv 1 leafGetopt (CStr.lit "redwrap")
        (leafArgs [CStr.lit "sh"]) quietLeaf () .redwrap ↔
      Command.redwrap.Fits readyOs leafCreds silentExpand silentEnv 1 leafGetopt
        (CStr.lit "redwrap") (leafArgs [CStr.lit "sh"]) quietLeaf () :=
  vectorsHold_iff (by decide) .redwrap

end Wrap
end RedPak
