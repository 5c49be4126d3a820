import RedPak.Conf.Mix

/-!
# Wrap.State

The state of `redwrapExecBwrap` and the macro `ADD`, by which the arguments of `bwrap` come into
the array `argval`. The array has `MAX_BWRAP_ARGS` entries, and the state never holds more.

* `emitted_addAll`: what `ADD` after `ADD` leaves, unless the process exits.
* `addAll_of_fit`: arguments that fit are added.
-/

namespace RedPak
namespace Wrap

open Conf

def maxBwrapArgs : Nat := 512

/-- `redwrap_state_t`, with the options `strict` and `dump` of the command line. The array `argval`
has the entries before `argcount`. `environ` is the environment of the process, or else NULL. `os`
is what system calls read and change. -/
structure RedwrapState (ω : Type) where
  rednode : Family
  strict : Bool
  dump : Int
  shares : RedConfShare := {}
  argval : List (Option CStr)
  inBounds : argval.length ≤ maxBwrapArgs
  environ : Bool := false
  os : ω
  log : List LogEntry := []

/-- The state from which `redwrapExecBwrap` collects the arguments: the name of the command is the
first one. -/
def RedwrapState.start {ω : Type} (commandName : CStr) (strict : Bool) (dump : Int) (os : ω)
    (node : Family) : RedwrapState ω where
  rednode := node
  strict := strict
  dump := dump
  argval := [commandName]
  inBounds := (by decide : 1 ≤ maxBwrapArgs)
  os := os

/-- What ends the process: a call of `exit`, or undefined behaviour on a NULL pointer. -/
inductive Halt where
  | exit
  | fault
deriving DecidableEq

variable {ω : Type}

/-- `ADD`: `too_many_parameters` when the array is full. -/
def add (rs : RedwrapState ω) (value : Option CStr) : Except Halt (RedwrapState ω) :=
  if h : rs.argval.length < maxBwrapArgs then
    .ok { rs with
      argval := rs.argval ++ [value]
      inBounds := by rw [List.length_append]; exact h }
  else .error .exit

/-- `ADD2` and `ADD3` -/
def addAll (rs : RedwrapState ω) : List (Option CStr) → Except Halt (RedwrapState ω)
  | [] => .ok rs
  | value :: values =>
    match add rs value with
    | .ok rs => addAll rs values
    | .error halt => .error halt

theorem addAll_singleton (rs : RedwrapState ω) (value : Option CStr) :
    addAll rs [value] = add rs value := by
  unfold addAll
  cases add rs value <;> rfl

theorem addAll_append (values values' : List (Option CStr)) : ∀ rs : RedwrapState ω,
    addAll rs (values ++ values') =
      match addAll rs values with
      | .ok rs => addAll rs values'
      | .error halt => .error halt := by
  induction values with
  | nil => intro rs; rfl
  | cons value values ih =>
    intro rs
    simp only [List.cons_append, addAll]
    cases add rs value with
    | ok rs => exact ih rs
    | error halt => rfl

theorem add_ok {rs rs' : RedwrapState ω} {value : Option CStr} (h : add rs value = .ok rs') :
    ∃ hle, rs' = { rs with argval := rs.argval ++ [value], inBounds := hle } := by
  unfold add at h
  split at h
  · cases h; exact ⟨_, rfl⟩
  · cases h

theorem addAll_ok {values : List (Option CStr)} : ∀ {rs rs' : RedwrapState ω},
    addAll rs values = .ok rs' →
      ∃ hle, rs' = { rs with argval := rs.argval ++ values, inBounds := hle } := by
  induction values with
  | nil =>
    intro rs rs' h
    cases h
    exact ⟨by rw [List.append_nil]; exact rs.inBounds, by simp⟩
  | cons value values ih =>
    intro rs rs' h
    simp only [addAll] at h
    cases hadd : add rs value with
    | error halt => rw [hadd] at h; cases h
    | ok rs₁ =>
      rw [hadd] at h
      obtain ⟨_, rfl⟩ := add_ok hadd
      obtain ⟨hle, rfl⟩ := ih h
      exact ⟨by simpa using hle, by simp⟩

/-- The arguments that lead from a state to a later one. -/
def emitted (rs rs' : RedwrapState ω) : List (Option CStr) := rs'.argval.drop rs.argval.length

theorem emitted_addAll {rs rs' : RedwrapState ω} {values : List (Option CStr)}
    (h : addAll rs values = .ok rs') : emitted rs rs' = values := by
  obtain ⟨_, rfl⟩ := addAll_ok h
  exact List.drop_left

theorem addAll_of_fit {values : List (Option CStr)} : ∀ {rs : RedwrapState ω},
    rs.argval.length + values.length ≤ maxBwrapArgs → ∃ rs', addAll rs values = .ok rs' := by
  induction values with
  | nil => intro rs _; exact ⟨rs, rfl⟩
  | cons value values ih =>
    intro rs h
    rw [List.length_cons] at h
    have hlt : rs.argval.length < maxBwrapArgs := by omega
    have hadd : ∃ rs₁, add rs value = .ok rs₁ := by rw [add, dif_pos hlt]; exact ⟨_, rfl⟩
    obtain ⟨rs₁, hadd⟩ := hadd
    have hlen : rs₁.argval.length + values.length ≤ maxBwrapArgs := by
      obtain ⟨_, rfl⟩ := add_ok hadd
      simp only [List.length_append, List.length_singleton]
      omega
    obtain ⟨rs', hrs'⟩ := ih hlen
    exact ⟨rs', by simp only [addAll, hadd, hrs']⟩

end Wrap
end RedPak
