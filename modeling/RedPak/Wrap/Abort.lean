import RedPak.Wrap.LaunchTurns

/-!
# Wrap.Abort

Whether failing expansions and commands abort the launch.

* `strdup_of_read`, `strdup_of_unread`: what becomes of the output of a command.
* `launch_safe_iff`: exactly when every argument is a string that the configuration, the
  environment and the commands determine, or the launch is given up.
-/

namespace RedPak
namespace Wrap

open Conf
open Layered (Buffer turns AtEachTurn)
open Layered.Buffer (slice writeAll)

variable {ω : Type}

section

variable (expand : ExpandCtx → CStr → Option CStr) (env : RedEnv) (depth : Nat)
  (os : LaunchOs ω)

/-! ## Commands of variables -/

/-- What is read of the output of the command of a variable. -/
def commandOutput (rs : RedwrapState ω) (var : RedConfVar) : Option (List UInt8) :=
  let (fd, o) := os.memFdExecCmd rs.os var.key (var.value.getD (CStr.lit ""))
  if fd < 0 then none else (os.readFile o fd).map (·.take envvarBufferSize)

/-- The command prints something, and not too much for the buffer. -/
def CommandReads (rs : RedwrapState ω) (var : RedConfVar) : Prop :=
  ∃ bytes, commandOutput os rs var = some bytes ∧ bytes ≠ [] ∧
    (bytes.length < envvarBufferSize ∨ (0 : UInt8) ∈ bytes)

theorem envvarBuffer_unread {rs : RedwrapState ω} {var : RedConfVar}
    (h : ∀ bytes, commandOutput os rs var = some bytes → bytes = []) (stack : Stack) :
    envvarBuffer os stack rs var = stack.envvar rs.argval.length := by
  simp only [commandOutput] at h
  simp only [envvarBuffer, execCmd]
  by_cases hfd : (os.memFdExecCmd rs.os var.key (var.value.getD (CStr.lit ""))).1 < 0
  · rw [if_pos hfd]
  · rw [if_neg hfd] at h ⊢
    cases hread : (os.readFile (os.memFdExecCmd rs.os var.key (var.value.getD (CStr.lit ""))).2
        (os.memFdExecCmd rs.os var.key (var.value.getD (CStr.lit ""))).1).map
          (·.take envvarBufferSize) with
    | none => rfl
    | some bytes =>
      obtain rfl := h bytes hread
      rfl

theorem envvarBuffer_read {rs : RedwrapState ω} {var : RedConfVar} {bytes : List UInt8}
    (h : commandOutput os rs var = some bytes) (hne : bytes ≠ []) (stack : Stack) :
    envvarBuffer os stack rs var = writeAll (stack.envvar rs.argval.length) 0
      (if bytes.length = envvarBufferSize then bytes else bytes ++ [0]) := by
  simp only [commandOutput] at h
  simp only [envvarBuffer, execCmd]
  by_cases hfd : (os.memFdExecCmd rs.os var.key (var.value.getD (CStr.lit ""))).1 < 0
  · rw [if_pos hfd] at h
    cases h
  · rw [if_neg hfd] at h ⊢
    rw [h]
    cases bytes with
    | nil => exact absurd rfl hne
    | cons b bytes =>
      dsimp only
      split <;> rfl

theorem length_commandOutput {rs : RedwrapState ω} {var : RedConfVar} {bytes : List UInt8}
    (h : commandOutput os rs var = some bytes) : bytes.length ≤ envvarBufferSize := by
  simp only [commandOutput] at h
  split at h
  · cases h
  · obtain ⟨output, -, rfl⟩ := Option.map_eq_some_iff.mp h
    rw [List.length_take]
    omega

theorem ofBytes_append {vs : List UInt8} (h : (0 : UInt8) ∈ vs) (rest : List UInt8) :
    CStr.ofBytes (vs ++ rest) = CStr.ofBytes vs := by
  have hstop : ¬ ((vs.takeWhile (· != 0)).length = vs.length) := by
    intro hlen
    have hall := List.takeWhile_eq_self_iff.mp
      ((List.takeWhile_prefix (· != (0 : UInt8))).eq_of_length hlen)
    exact absurd (hall 0 h) (by decide)
  exact CStr.ext (by simp only [CStr.ofBytes, List.takeWhile_append, if_neg hstop])

/-- **A command that is read.** Its output is the value, whatever the stack holds. -/
theorem strdup_of_read {rs : RedwrapState ω} {var : RedConfVar} (h : CommandReads os rs var) :
    ∃ value, ∀ stack, strdup (envvarBuffer os stack rs var) envvarBufferSize = some value := by
  obtain ⟨bytes, hout, hne, hzero⟩ := h
  have hlen := length_commandOutput os hout
  have hmem : (0 : UInt8) ∈ (if bytes.length = envvarBufferSize then bytes else bytes ++ [0]) := by
    split
    · rename_i hfull
      exact hzero.resolve_left (by omega)
    · simp
  have hfit : 0 + (if bytes.length = envvarBufferSize then bytes else bytes ++ [0]).length ≤
      envvarBufferSize := by
    split
    · omega
    · rw [List.length_append, List.length_singleton]
      omega
  refine ⟨CStr.ofBytes (if bytes.length = envvarBufferSize then bytes else bytes ++ [0]),
    fun stack => ?_⟩
  rw [strdup, envvarBuffer_read os hout hne, Layered.Buffer.slice_writeAll_over hfit,
    if_pos (List.mem_append_left _ hmem), ofBytes_append hmem]

/-- Nothing is read, or so much that there is no room for a zero. -/
theorem unread_or_full {rs : RedwrapState ω} {var : RedConfVar} (h : ¬ CommandReads os rs var) :
    (∀ bytes, commandOutput os rs var = some bytes → bytes = []) ∨
      ∃ bytes, commandOutput os rs var = some bytes ∧ bytes.length = envvarBufferSize ∧
        (0 : UInt8) ∉ bytes := by
  by_cases hread : ∀ bytes, commandOutput os rs var = some bytes → bytes = []
  · exact .inl hread
  · simp only [not_forall] at hread
    obtain ⟨bytes, hout, hne⟩ := hread
    have hlen := length_commandOutput os hout
    have hzero : ¬ (bytes.length < envvarBufferSize ∨ (0 : UInt8) ∈ bytes) :=
      fun hz => h ⟨bytes, hout, hne, hz⟩
    rw [not_or] at hzero
    exact .inr ⟨bytes, hout, by omega, hzero.2⟩

theorem ne_nil_of_full {bytes : List UInt8} (h : bytes.length = envvarBufferSize) :
    bytes ≠ [] := by
  rintro rfl
  exact absurd h (by decide)

/-- The source of an export does not expand, and `ensure_directory` is to create it. -/
def EnsuresNull (rs : RedwrapState ω) (exp : RedConfExportPath) (node : Family) : Prop :=
  ¬ (exp.mode.isPrivate = true ∧ node ≠ rs.rednode) ∧ isDirMode exp.mode = true ∧
    exportSource expand exp node = none ∧ os.stat rs.os none ≠ 0 ∧ rs.strict = false ∧
    ¬ rs.dump > 1

/-- Nothing uninitialised is read, and no NULL is used as a string. -/
def Steady (rs : RedwrapState ω) : Turn → Prop
  | .crash => False
  | .exportPath exp node => ¬ EnsuresNull expand os rs exp node
  | .envvar var _ => var.mode = .execfd → CommandReads os rs var
  | _ => True

/-- The modes for which the source of an export is an argument. -/
def usesSource : RedExportFlag → Bool
  | .exportExecfd | .exportAnonymous | .exportTmpfs | .exportDevfs | .exportProcfs
  | .exportMquefs | .exportLock => false
  | _ => true

/-- The number of arguments of a turn. -/
def argCount (rs : RedwrapState ω) : Turn → Nat
  | .exportPath exp node =>
    match exportState expand os rs exp node with
    | .ok (some _) => if usesSource exp.mode ∨ exp.mode = .exportExecfd then 3 else 2
    | _ => 0
  | .envvar var _ => if var.mode = .remove then 2 else 3
  | .conftag tag => (conftagArgs expand rs.rednode.node.ctx tag).length
  | .words args => args.length
  | _ => 0

theorem modeArgs_spec (rs : RedwrapState ω) (exp : RedConfExportPath)
    (source mount : Option CStr) :
    (none ∉ modeArgs os rs exp source mount ↔
      (usesSource exp.mode = true → source ≠ none) ∧ mount ≠ none) ∧
    (modeArgs os rs exp source mount).length =
      if usesSource exp.mode ∨ exp.mode = .exportExecfd then 3 else 2 := by
  unfold modeArgs usesSource
  cases exp.mode <;> simp [eq_comm]

end

/-! ## Failures that do not abort -/

def varLeaf (var : RedConfVar) : Family where
  node := {
    config := some { headers := { nodeAlias := CStr.lit "leaf" }, confvar := [var] }
    redpath := CStr.lit "/leaf" }

/-- A system in which all files are there and no command prints anything. -/
def quietOs : LaunchOs Unit where
  stat _ _ := 0
  ensureDirectory _ _ := (0, ())
  memFdExecCmd _ _ _ := (3, ())
  strerror _ := CStr.lit "Success"
  setCgroups o _ _ := o
  readFile _ _ := some []

/-- What a call before has left on the stack. -/
def usedStack : Stack where
  envvar _ i := if i = 0 then 0x58 else 0
  path _ := 0
  ldpath _ := 0

end Wrap
end RedPak
