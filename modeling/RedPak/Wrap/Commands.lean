import RedPak.Wrap.Exec

/-!
# Wrap.Commands

The commands `redwrap` and `redwrap-dnf`, up to the call of `execv` or `execve`. `redwrap-dnf`
copies its arguments into arrays `subargv` of `MAX_BWRAP_ARGS` entries.

* `execRedmicrodnf_outside`, `execBwrap_outside`: when a copy is outside of the array.
-/

namespace RedPak
namespace Wrap

open Conf
open Layered (Filled)
open Layered.Action (except_bind_eq_error)

/-! ## `redwrap-dnf` -/

/-- `struct red_cmd`: `outnode` is the context of execution. -/
structure RedCmd where
  cmd : CStr
  outnode : Bool := false
deriving DecidableEq

def redmicrodnfCommands : List RedCmd := [
  { cmd := CStr.lit "install" }, { cmd := CStr.lit "download" }, { cmd := CStr.lit "downgrade" },
  { cmd := CStr.lit "groupinfo" }, { cmd := CStr.lit "grouplist" }, { cmd := CStr.lit "reinstall" },
  { cmd := CStr.lit "remove" }, { cmd := CStr.lit "repo" }, { cmd := CStr.lit "repolist" },
  { cmd := CStr.lit "repoinfo" }, { cmd := CStr.lit "repoquery" }, { cmd := CStr.lit "upgrade" },
  { cmd := CStr.lit "advisory" }, { cmd := CStr.lit "manager", outnode := true }]

/-- `REDMICRODNF_CMD`, `REDMICRODNF_CMD_PATH` -/
def redmicrodnfCmd : CStr := CStr.lit "redmicrodnf"
def redmicrodnfCmdPath : CStr := CStr.lit "/usr/bin/redmicrodnf"

/-- The loop of `_find_redmicrodnf_cmd` from an index on. -/
def findCmdFrom (i : Nat) : List CStr → Option (Nat × RedCmd)
  | [] => none
  | arg :: args =>
    -- '-'
    if arg.bytes.head? = some 0x2D then findCmdFrom (i + 1) args
    else
      match redmicrodnfCommands.find? (fun redcmd => strcmp arg redcmd.cmd = 0) with
      | some redcmd => some (i, redcmd)
      | none => findCmdFrom (i + 1) args

/-- `_find_redmicrodnf_cmd`: the position of the command, and the command. -/
def findRedmicrodnfCmd (argv : List CStr) : Option (Nat × RedCmd) := findCmdFrom 1 argv.tail

/-- Stores into an array of arguments, one after the other, that nothing guards. -/
def storeAll {α : Type} (array : Filled α maxBwrapArgs) (args : List α) :
    Except Ended (Filled α maxBwrapArgs) :=
  orEnd .outside (array.pushAll args)

section

variable {ω : Type} (os : ExecOs ω) (creds : Credentials)
  (expand : ExpandCtx → CStr → Option CStr) (env : RedEnv) (depth : Nat)
  (getopt : List CStr → Getopt)

/-- `_exec_redmicrodnf`, in the child of its fork; `execv` hands the environment over -/
def execRedmicrodnf (argv : List CStr) (o : ω) : Except Ended Exec := do
  let subargv ← storeAll .empty [some redmicrodnfCmd]
  if os.isRegular o redmicrodnfCmdPath then
    let subargv ← storeAll subargv (argv.tail.map some)
    let subargv ← storeAll subargv [none]
    .ok ⟨some redmicrodnfCmdPath, subargv, true⟩
  else .error (.returned (-1))

/-- The arguments for the node: the command, its redpath, and what the options have left. -/
def bwrapSubargv (argv : List CStr) (cliarg : ParsedArgs) : List CStr :=
  [CStr.lit "--", redmicrodnfCmd, CStr.lit "--redpath", cliarg.redpath.get cliarg.hasRedpath] ++
    argv.drop cliarg.index

/-- `_exec_bwrap` -/
def execBwrap (argv : List CStr) (position : Nat) (rednode : Family) (o : ω) (stack : Stack) :
    Except Ended Exec := do
  let subargv ← storeAll .empty (argv.take position)
  let cliarg ← rwrapParseArgs getopt subargv.entries
  let subargv ← storeAll .empty (bwrapSubargv argv cliarg)
  -- admin is needed for redmicrodnf
  redwrapExec os creds expand env depth (CStr.lit "--")
    { cliarg.toRWrapConfig with isadmin := true } subargv.entries rednode o stack

/-! ## The commands -/

/-- What `main` makes of a status that is returned to it. -/
def mainReturn (status : Int → Int) (run : Except Ended Exec) : Except Ended Exec :=
  run.mapError fun
    | .returned rc => .returned (status rc)
    | e => e

/-- `main` of `redwrap` -/
def redwrapMain (name : CStr) (args : List CStr) (rednode : Family) (o : ω) (stack : Stack) :
    Except Ended Exec :=
  mainReturn (fun rc => if rc < 0 then exitFailure else 0) do
    let cliarg ← rwrapParseArgs getopt (name :: args)
    redwrapExec os creds expand env depth name cliarg.toRWrapConfig
      ((getopt (name :: args)).argv.drop cliarg.index) rednode o stack

/-- `main` of `redwrap-dnf` -/
def redwrapDnfMain (name : CStr) (args : List CStr) (rednode : Family) (o : ω) (stack : Stack) :
    Except Ended Exec :=
  match findRedmicrodnfCmd (name :: args) with
  | none => .error (.returned exitFailure)
  | some (position, redcmd) =>
    mainReturn (fun rc => if rc ≠ 0 then exitFailure else 0)
      (if redcmd.outnode then execRedmicrodnf os (name :: args) o
      else execBwrap os creds expand env depth getopt (name :: args) position rednode o stack)

/-! ## Copies outside of the array -/

variable {os creds expand env depth getopt} {argv : List CStr} {position : Nat}
  {rednode : Family} {o : ω} {stack : Stack}

theorem storeAll_error {α : Type} {array : Filled α maxBwrapArgs} {args : List α} {e : Ended} :
    storeAll array args = .error e ↔
      e = .outside ∧ maxBwrapArgs < array.entries.length + args.length := by
  rw [← Layered.Filled.pushAll_eq_none]
  unfold storeAll
  cases array.pushAll args with
  | some array' => exact ⟨fun h => (by cases h), fun h => (by cases h.2)⟩
  | none => exact ⟨fun h => (by cases h; exact ⟨rfl, rfl⟩), fun h => (by rw [h.1]; rfl)⟩

theorem storeAll_ok {α : Type} {array array' : Filled α maxBwrapArgs} {args : List α}
    (h : storeAll array args = .ok array') : array'.entries = array.entries ++ args := by
  unfold storeAll at h
  cases hpush : array.pushAll args with
  | none => rw [hpush] at h; cases h
  | some array'' =>
    rw [hpush] at h
    cases h
    exact Layered.Filled.pushAll_eq_some hpush

theorem storeAll_empty_of_fits {α : Type} {args : List α} (h : args.length ≤ maxBwrapArgs) :
    ∃ array, storeAll (.empty) args = .ok array ∧ array.entries = args := by
  cases hstore : storeAll (.empty) args with
  | ok array => exact ⟨array, rfl, storeAll_ok hstore⟩
  | error e =>
    have hover := (storeAll_error.mp hstore).2
    rw [Filled.empty, List.length_nil, Nat.zero_add] at hover
    exact absurd h (Nat.not_le.mpr hover)

theorem storeAll_append {α : Type} (array : Filled α maxBwrapArgs) (args args' : List α) :
    storeAll array (args ++ args') =
      (storeAll array args >>= fun array => storeAll array args') := by
  unfold storeAll
  rw [Layered.Filled.pushAll_append]
  cases array.pushAll args <;> rfl

@[simp] theorem mainReturn_outside {status : Int → Int} {run : Except Ended Exec} :
    mainReturn status run = .error .outside ↔ run = .error .outside := by
  cases run with
  | ok exec => exact ⟨fun h => (by cases h), fun h => (by cases h)⟩
  | error e => cases e <;> simp [mainReturn, Except.mapError]

@[simp] theorem mainReturn_tooMany {status : Int → Int} {run : Except Ended Exec} :
    mainReturn status run = .error .tooManyParameters ↔ run = .error .tooManyParameters := by
  cases run with
  | ok exec => exact ⟨fun h => (by cases h), fun h => (by cases h)⟩
  | error e => cases e <;> simp [mainReturn, Except.mapError]

theorem execRedmicrodnf_eq (argv : List CStr) : execRedmicrodnf os argv o =
    if os.isRegular o redmicrodnfCmdPath then
      (storeAll .empty (some redmicrodnfCmd :: (argv.tail.map some ++ [none]))).map
        (Exec.mk (some redmicrodnfCmdPath) · true)
    else .error (.returned (-1)) := by
  have hone : [some redmicrodnfCmd].length ≤ maxBwrapArgs := by decide
  obtain ⟨first, hfirst, -⟩ := storeAll_empty_of_fits hone
  have hall : storeAll .empty (some redmicrodnfCmd :: (argv.tail.map some ++ [none])) =
      (storeAll .empty [some redmicrodnfCmd] >>= fun array =>
        storeAll array (argv.tail.map some ++ [none])) := storeAll_append _ [_] _
  rw [execRedmicrodnf, hall, hfirst]
  simp only [bind, Except.bind, storeAll_append]
  split
  · cases storeAll first (argv.tail.map some) with
    | error e => rfl
    | ok second => cases storeAll second [none] <;> rfl
  · rfl

/-- **`_exec_redmicrodnf`** stores an argument or its NULL outside of the array from
`MAX_BWRAP_ARGS` arguments on. -/
theorem execRedmicrodnf_outside {name : CStr} {args : List CStr} :
    execRedmicrodnf os (name :: args) o = .error .outside ↔
      os.isRegular o redmicrodnfCmdPath = true ∧ maxBwrapArgs ≤ (name :: args).length := by
  have hlen : (Filled.empty : Filled (Option CStr) maxBwrapArgs).entries.length +
      (some redmicrodnfCmd :: (args.map some ++ [none])).length = (name :: args).length + 1 := by
    simp [Filled.empty]
  rw [execRedmicrodnf_eq]
  by_cases hreg : os.isRegular o redmicrodnfCmdPath = true
  · rw [if_pos hreg, List.tail_cons]
    cases hstore : storeAll .empty (some redmicrodnfCmd :: (args.map some ++ [none])) with
    | ok subargv =>
      refine ⟨fun h => (by cases h), fun h => ?_⟩
      have hfits := subargv.fits
      rw [storeAll_ok hstore, List.length_append, hlen] at hfits
      exact absurd h.2 (by omega)
    | error e =>
      obtain ⟨rfl, hover⟩ := storeAll_error.mp hstore
      exact ⟨fun _ => ⟨hreg, by omega⟩, fun _ => rfl⟩
  · rw [if_neg hreg]
    exact ⟨fun h => (by cases h), fun h => absurd h.1 hreg⟩

/-- `_exec_bwrap` when there is room in its arrays -/
theorem execBwrap_of_fits {cliarg : ParsedArgs}
    (hfirst : (argv.take position).length ≤ maxBwrapArgs)
    (hparse : rwrapParseArgs getopt (argv.take position) = .ok cliarg)
    (hfits : (bwrapSubargv argv cliarg).length ≤ maxBwrapArgs) :
    execBwrap os creds expand env depth getopt argv position rednode o stack =
      redwrapExec os creds expand env depth (CStr.lit "--")
        { cliarg.toRWrapConfig with isadmin := true } (bwrapSubargv argv cliarg) rednode o
        stack := by
  obtain ⟨subargv, hsub, hentries⟩ := storeAll_empty_of_fits hfirst
  obtain ⟨subargv', hsub', hentries'⟩ := storeAll_empty_of_fits hfits
  have hparse' : rwrapParseArgs getopt subargv.entries = .ok cliarg := hentries ▸ hparse
  rw [execBwrap, hsub]
  simp only [bind, Except.bind]
  rw [hparse']
  dsimp only
  rw [hsub']
  dsimp only
  rw [hentries']

/-- **`_exec_bwrap`** copies outside of the array, or what it runs stores outside. -/
theorem execBwrap_outside :
    execBwrap os creds expand env depth getopt argv position rednode o stack = .error .outside ↔
      maxBwrapArgs < (argv.take position).length ∨
      ∃ cliarg, rwrapParseArgs getopt (argv.take position) = .ok cliarg ∧
        (maxBwrapArgs < (bwrapSubargv argv cliarg).length ∨
          redwrapExec os creds expand env depth (CStr.lit "--")
            { cliarg.toRWrapConfig with isadmin := true } (bwrapSubargv argv cliarg) rednode o
            stack = .error .outside) := by
  have hempty : ∀ {args : List CStr}, storeAll (.empty) args = .error .outside ↔
      maxBwrapArgs < args.length := by
    intro args
    rw [storeAll_error, Filled.empty, List.length_nil, Nat.zero_add]
    exact and_iff_right rfl
  by_cases hfirst : maxBwrapArgs < (argv.take position).length
  · exact ⟨fun _ => .inl hfirst, fun _ => except_bind_eq_error.mpr (.inl (hempty.mpr hfirst))⟩
  rw [or_iff_right hfirst]
  constructor
  · intro h
    rcases except_bind_eq_error.mp h with h | ⟨subargv, hsub, h⟩
    · exact absurd (hempty.mp h) hfirst
    have hentries : subargv.entries = argv.take position := storeAll_ok hsub
    rcases except_bind_eq_error.mp h with h | ⟨cliarg, hparse, h⟩
    · exact (quiet_rwrapParseArgs _ _ _ h).elim
    refine ⟨cliarg, hentries ▸ hparse, ?_⟩
    rcases except_bind_eq_error.mp h with h | ⟨subargv', hsub', h⟩
    · exact .inl (hempty.mp h)
    · have hentries' : subargv'.entries = bwrapSubargv argv cliarg := storeAll_ok hsub'
      exact .inr (hentries' ▸ h)
  · rintro ⟨cliarg, hparse, hrun⟩
    by_cases hfits : maxBwrapArgs < (bwrapSubargv argv cliarg).length
    · obtain ⟨subargv, hsub, hentries⟩ := storeAll_empty_of_fits (Nat.not_lt.mp hfirst)
      refine except_bind_eq_error.mpr (.inr ⟨subargv, hsub, ?_⟩)
      refine except_bind_eq_error.mpr (.inr ⟨cliarg, hentries ▸ hparse, ?_⟩)
      exact except_bind_eq_error.mpr (.inl (hempty.mpr hfits))
    · rw [execBwrap_of_fits (Nat.not_lt.mp hfirst) hparse (Nat.not_lt.mp hfits)]
      exact hrun.resolve_left hfits

theorem length_bwrapSubargv (argv : List CStr) (cliarg : ParsedArgs) :
    (bwrapSubargv argv cliarg).length = 4 + (argv.length - cliarg.index) := by
  rw [bwrapSubargv, List.length_append, List.length_drop]
  rfl

theorem findCmdFrom_lt {args : List CStr} {redcmd : RedCmd} : ∀ {i : Nat},
    findCmdFrom i args = some (position, redcmd) → position < i + args.length := by
  induction args with
  | nil => intro i h; cases h
  | cons arg args ih =>
    intro i h
    rw [findCmdFrom] at h
    rw [List.length_cons]
    split at h
    · have := ih h
      omega
    · split at h
      · cases h
        omega
      · have := ih h
        omega

theorem length_take_position {name : CStr} {args : List CStr} {redcmd : RedCmd}
    (h : findRedmicrodnfCmd (name :: args) = some (position, redcmd)) :
    ((name :: args).take position).length = position := by
  have hlt := findCmdFrom_lt h
  rw [List.tail_cons] at hlt
  rw [List.length_take, List.length_cons]
  omega

end

end Wrap
end RedPak
