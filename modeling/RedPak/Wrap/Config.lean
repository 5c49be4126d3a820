import RedPak.Layered.Action
import RedPak.Wrap.State

/-!
# Wrap.Config

The options of the command line (`RwrapParseArgs`). What `getopt_long` makes of the arguments is a
parameter.

* `quiet_rwrapParseArgs`: an illegal command line ends in an exit.
-/

namespace RedPak
namespace Wrap

open Conf

/-- How a process ends before it executes a file. -/
inductive Ended where
  | returned (status : Int)
  | exit (status : Int)
  /-- the exit of `too_many_parameters` -/
  | tooManyParameters
  /-- undefined behaviour other than the next one -/
  | fault
  /-- a store outside of an array of arguments -/
  | outside
deriving DecidableEq

theorem mapError_eq_error {ε ε' α : Type} {x : Except ε α} {f : ε → ε'} {e' : ε'} :
    x.mapError f = .error e' ↔ ∃ e, x = .error e ∧ f e = e' := by
  cases x <;> simp [Except.mapError]

theorem mapError_eq_ok {ε ε' α : Type} {x : Except ε α} {f : ε → ε'} {a : α} :
    x.mapError f = .ok a ↔ x = .ok a := by
  cases x <;> simp [Except.mapError]

/-- The process returns or exits, and not because of its arguments. -/
def Ended.GivesUp : Ended → Prop
  | .returned _ | .exit _ => True
  | _ => False

/-- All that a computation can end in is giving up. -/
def Quiet {α : Type} (x : Except Ended α) : Prop := ∀ e, x = .error e → e.GivesUp

theorem quiet_ok {α : Type} (a : α) : Quiet (.ok a) := fun _ h => by cases h

theorem Quiet.bind {α β : Type} {x : Except Ended α} {f : α → Except Ended β} (hx : Quiet x)
    (hf : ∀ a, Quiet (f a)) : Quiet (x >>= f) := by
  intro e h
  cases hrun : x with
  | error e' =>
    rw [hrun] at h
    cases h
    exact hx e hrun
  | ok a =>
    rw [hrun] at h
    exact hf a e h

theorem quiet_foldlM {α β : Type} {f : β → α → Except Ended β} (hf : ∀ b a, Quiet (f b a))
    (as : List α) : ∀ b, Quiet (as.foldlM f b) := by
  induction as with
  | nil => intro b; exact quiet_ok b
  | cons a as ih =>
    intro b
    rw [List.foldlM_cons]
    exact (hf b a).bind ih

/-- `EXIT_FAILURE` -/
def exitFailure : Int := 1

/-- `rWrapConfigT` -/
structure RWrapConfig where
  redpath : Option CStr := none
  bwrap : Option CStr := none
  adminpath : Option CStr := none
  setuser : Option CStr := none
  setgroup : Option CStr := none
  smack : Option CStr := none
  index : Nat := 0
  strict : Bool := false
  unsafeNode : Bool := false
  dump : Int := 0
  isadmin : Bool := false
deriving DecidableEq

/-- What `RwrapParseArgs` returns has a redpath. -/
structure ParsedArgs extends RWrapConfig where
  hasRedpath : redpath.isSome

/-- What the calls of `getopt_long` return up to -1, each with `optarg`, then `optind`, and the
arguments in the order that the calls have left them in. -/
structure Getopt where
  options : List (Char × Option CStr)
  optind : Nat
  argv : List CStr

/-- `BWRAP_CMD_PATH` -/
def bwrapCmdPath : CStr := CStr.lit "/usr/bin/bwrap"

def optbool (arg : Option CStr) (deflt : Bool) : Except Ended Bool :=
  match arg with
  | none => .ok deflt
  | some arg =>
    if strcasecmp arg (CStr.lit "yes") = 0 then .ok true
    else if strcasecmp arg (CStr.lit "no") = 0 then .ok false
    else .error (.exit exitFailure)

/-- The `switch` of `RwrapParseArgs`. -/
def parseOption (config : RWrapConfig) : Char × Option CStr → Except Ended RWrapConfig
  | ('a', optarg) => .ok { config with isadmin := true, adminpath := optarg <|> config.adminpath }
  | ('b', optarg) => .ok { config with bwrap := optarg }
  | ('d', _) => .ok { config with dump := 1 }
  | ('D', _) => .ok { config with dump := 2 }
  | ('f', optarg) => (optbool optarg true).map fun force => { config with strict := !force }
  | ('G', optarg) => .ok { config with setgroup := optarg }
  | ('r', optarg) => .ok { config with redpath := optarg }
  | ('s', optarg) => (optbool optarg true).map fun strict => { config with strict := strict }
  | ('S', optarg) => .ok { config with smack := optarg }
  | ('u', optarg) => (optbool optarg true).map fun value => { config with unsafeNode := value }
  | ('U', optarg) => .ok { config with setuser := optarg }
  -- only the log level changes
  | ('v', _) => .ok config
  | _ => .error (.exit exitFailure)

def rwrapParseArgs (getopt : List CStr → Getopt) (argv : List CStr) : Except Ended ParsedArgs := do
  let config ← (getopt argv).options.foldlM parseOption {}
  let config := { config with
    index := (getopt argv).optind
    bwrap := some (config.bwrap.getD bwrapCmdPath) }
  if h : config.redpath.isSome then .ok { config with hasRedpath := h }
  else .error (.exit exitFailure)

theorem quiet_optbool (arg : Option CStr) (deflt : Bool) : Quiet (optbool arg deflt) := by
  intro e h
  unfold optbool at h
  split at h
  · cases h
  · split at h
    · cases h
    · split at h
      · cases h
      · cases h
        trivial

theorem quiet_parseOption (config : RWrapConfig) (option : Char × Option CStr) :
    Quiet (parseOption config option) := by
  have hbool : ∀ (arg : Option CStr) (f : Bool → RWrapConfig),
      Quiet ((optbool arg true).map f) := by
    intro arg f
    have hrun : (optbool arg true).map f = (optbool arg true >>= fun b => .ok (f b)) := by
      cases optbool arg true <;> rfl
    rw [hrun]
    exact (quiet_optbool arg true).bind fun b => quiet_ok (f b)
  unfold parseOption
  split
  case h_5 => exact hbool _ _
  case h_8 => exact hbool _ _
  case h_10 => exact hbool _ _
  case h_13 => exact fun e h => by cases h; trivial
  all_goals exact quiet_ok _

theorem quiet_rwrapParseArgs (getopt : List CStr → Getopt) (argv : List CStr) :
    Quiet (rwrapParseArgs getopt argv) := by
  refine (quiet_foldlM quiet_parseOption (getopt argv).options {}).bind fun config => ?_
  dsimp only
  split
  · exact quiet_ok _
  · intro e h
    cases h
    trivial

end Wrap
end RedPak
