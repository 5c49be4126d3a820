import RedPak.Conf.Expanders

/-!
# Conf.Termination

When the functions of `redconf-expand.h` return. A value that is found in the environment or in the
node is expanded again, and nothing counts how often; the bound is on the number of expansions that
are nested in each other, for each of which the C stack has a frame.

* `returns_iff`: a call returns within a bound unless it comes to references that are nested as
  deep, or to what stops it.
* `returns_of_acyclic`: without cycles there is such a bound.
-/

namespace RedPak
namespace Conf
namespace Stored

open Layered (Buffer)
open Layered.Buffer (slice)
open Layered.Expansion
open Layered.Action

/-! ## The functions -/

section

variable (env : RedEnv) (junk : Buffer UInt8) (node : Option ExpandCtx)

/-- `idxOut` and `outputS` are on the stack, the result is a copy. -/
def expandOnStack (x : OutputM Bool) : Except ExpandStop (Option CStr) :=
  match x ⟨junk, 0⟩ with
  | .ok true s => .ok (some (CStr.ofBytes (slice s.outputS 0 s.idxOut)))
  | .ok false _ => .ok none
  | .error e _ => .error e

def redGetDefaultExpand (depth : Nat) (key : CStr) : Except ExpandStop (Option CStr) :=
  expandOnStack junk
    (getDefault env junk node (nestedExpand env junk node depth) key.bytes maxCyamlFormatStr)

def redNodeStringExpand (depth : Nat) (inputS : CStr) : Except ExpandStop (Option CStr) :=
  expandOnStack junk (defaultsExpand env junk node depth inputS.bytes maxCyamlFormatStr 1)

end

/-- A call of `RedGetDefaultExpand`, `RedNodeStringExpand` or `RedConfAppendExpandedPath`. -/
inductive Call where
  | defaultExpand (key : CStr)
  | stringExpand (inputS : CStr)
  | appendExpandedPath (inputS : CStr) (maxlen : Nat) (s : Output)

namespace Call

/-- The size of the output. -/
def size : Call → Nat
  | defaultExpand _ => maxCyamlFormatStr
  | stringExpand _ => maxCyamlFormatStr
  | appendExpandedPath _ maxlen _ => maxlen

def output (junk : Buffer UInt8) : Call → Output
  | appendExpandedPath _ _ s => s
  | _ => ⟨junk, 0⟩

/-- The function that writes to the output. -/
def expander : Call → Expander
  | defaultExpand key => .getDefault key
  | stringExpand inputS => .defaultsExpand inputS 1
  | appendExpandedPath inputS _ _ => .appendExpandedPath inputS

/-- The call returns, with success or failure. -/
def Returns (env : RedEnv) (junk : Buffer UInt8) (node : Option ExpandCtx) (depth : Nat) :
    Call → Prop
  | defaultExpand key => ∃ r, redGetDefaultExpand env junk node depth key = .ok r
  | stringExpand inputS => ∃ r, redNodeStringExpand env junk node depth inputS = .ok r
  | appendExpandedPath inputS maxlen s =>
    ∃ ok s', redConfAppendExpandedPath env junk node depth inputS maxlen s = .ok ok s'

end Call

namespace Expander

/-- What stops a run: more than so many expansions nested in each other, a `LEAF_` key without a
node, a command whose text fills its array, a path that fills the output. -/
inductive Breaks (env : RedEnv) (node : Option ExpandCtx) (maxlen depth : Nat) (s : Output)
    (e : Expander) : Prop
  | nested (hstarts : e.Starts maxlen s)
      (h : Nests (e.meanings env node) (depth + 1) (decide (0 < e.withcmd)) (maxlen - e.start s)
        e.tokens)
  | stops {f : ExpandFault} (hstarts : e.Starts maxlen s)
      (h : Stops (e.meanings env node) f (decide (0 < e.withcmd)) (maxlen - e.start s) e.tokens)
  | full {t : List UInt8} (hstarts : e.Starts maxlen s)
      (hexpands : Expands (e.meanings env node) (decide (0 < e.withcmd)) (maxlen - e.start s)
        e.tokens t) (hfull : e.Fills maxlen s t)

variable {env : RedEnv} {junk : Buffer UInt8} {node : Option ExpandCtx} {maxlen depth : Nat}
  {s : Output} {e : Expander}

theorem expansion_broken_iff : (e.expansion env node maxlen depth s).Broken ↔
    Nests (e.meanings env node) (depth + 1) (decide (0 < e.withcmd)) (maxlen - e.start s)
        e.tokens ∨
      ∃ f, Stops (e.meanings env node) f (decide (0 < e.withcmd)) (maxlen - e.start s) e.tokens :=
  eval_broken_iff

theorem outcome_broken_iff :
    (e.outcome env node maxlen depth s).Broken ↔ e.Breaks env node maxlen depth s := by
  constructor
  · intro h
    obtain ⟨hstarts, heq | ⟨-, t, hdone, hfull⟩⟩ := (outcome_eq_iff h).mp rfl
    · rcases expansion_broken_iff.mp (heq ▸ h) with hnests | ⟨f, hstops⟩
      · exact .nested hstarts hnests
      · exact .stops hstarts hstops
    · exact .full hstarts (eval_sound hdone) hfull
  · -- the expansion is broken, or it has a text
    have hbroken : e.Starts maxlen s → (e.expansion env node maxlen depth s).Broken →
        (e.outcome env node maxlen depth s).Broken := by
      intro hstarts h
      rw [(outcome_eq_iff h).mpr ⟨hstarts, .inl rfl⟩]
      exact h
    intro h
    cases h with
    | nested hstarts h => exact hbroken hstarts (expansion_broken_iff.mpr (.inl h))
    | stops hstarts h => exact hbroken hstarts (expansion_broken_iff.mpr (.inr ⟨_, h⟩))
    | full hstarts hexpands hfull =>
      rcases hexpands.eval_eq depth with hdone | hdeep
      · have hstop : (Produced.stop .outside : ExpandOutcome).Broken := .inr ⟨_, rfl⟩
        rw [(outcome_eq_iff hstop).mpr ⟨hstarts, .inr ⟨rfl, _, hdone, hfull⟩⟩]
        exact hstop
      · exact hbroken hstarts (.inl hdeep)

theorem run_returns_iff (hs : e.Starts maxlen s → s.idxOut ≤ maxlen) :
    (∃ ok s', e.run env junk node maxlen depth s = .ok ok s') ↔
      ¬ e.Breaks env node maxlen depth s := by
  rw [(e.run_endsAs hs).returns, outcome_broken_iff]

end Expander

/-! ## Returning -/

variable {env : RedEnv} {junk : Buffer UInt8} {node : Option ExpandCtx}

theorem expandOnStack_ok {x : OutputM Bool} :
    (∃ r, expandOnStack junk x = .ok r) ↔ ∃ ok s', x ⟨junk, 0⟩ = .ok ok s' := by
  unfold expandOnStack
  cases x ⟨junk, 0⟩ with
  | ok ok s' => cases ok <;> simp
  | error e s' => simp

theorem Call.returns_iff_run {depth : Nat} {c : Call} : c.Returns env junk node depth ↔
    ∃ ok s', c.expander.run env junk node c.size depth (c.output junk) = .ok ok s' := by
  cases c with
  | defaultExpand key => exact expandOnStack_ok
  | stringExpand inputS => exact expandOnStack_ok
  | appendExpandedPath inputS maxlen s => exact Iff.rfl

theorem Call.starts_le {c : Call} (h : c.expander.Starts c.size (c.output junk)) :
    (c.output junk).idxOut ≤ c.size := by
  cases c with
  | appendExpandedPath inputS maxlen s => exact Nat.le_of_lt h
  | _ => exact Nat.zero_le _

/-- **A call returns** within a bound on the nesting, which may be any function of the output's
size, unless its references break it. -/
theorem returns_iff (env : RedEnv) (junk : Buffer UInt8) (node : Option ExpandCtx)
    (bound : Nat → Nat) (c : Call) : c.Returns env junk node (bound c.size) ↔
      ¬ c.expander.Breaks env node c.size (bound c.size) (c.output junk) := by
  rw [Call.returns_iff_run, Expander.run_returns_iff Call.starts_le]

/-- An environment with one variable. -/
def variableEnv (key value : CStr) : RedEnv :=
  { emptyEnv with secureGetenv := fun k => if k = key then some value else none }

/-- A variable that refers to itself: no bound is enough. -/
theorem selfReference_endless :
    ¬ ∃ depth, (Call.stringExpand (.lit "$A")).Returns (variableEnv (.lit "A") (.lit "$A"))
      (fun _ => 0) none depth := by
  rintro ⟨depth, hreturns⟩
  rw [Call.returns_iff_run, Expander.run_returns_iff Call.starts_le] at hreturns
  refine hreturns (.nested trivial ?_)
  have htokens : tokensFrom (CStr.lit "$A").bytes 0 = [.ref (CStr.lit "A").bytes] := by
    decide +kernel
  have hmeaning : ∀ c, keyMeaning (variableEnv (.lit "A") (.lit "$A")) none c
      (CStr.lit "A").bytes = .text (CStr.lit "$A").bytes := by
    decide +kernel
  have hnests : ∀ (n : Nat) (c : Bool) (r : Nat), Nests
      (language (variableEnv (.lit "A") (.lit "$A")) none true) n c r
        [.ref (CStr.lit "A").bytes] := by
    intro n
    induction n with
    | zero => exact fun _ _ => trivial
    | succ n ih =>
      intro c r
      refine ⟨_, r, ⟨[], [], [], rfl, .nil, rfl⟩, .inl ⟨_, hmeaning c, ?_⟩⟩
      change Nests _ n false r (tokensFrom (CStr.lit "$A").bytes 0)
      rw [htokens]
      exact ih false r
  change Nests _ (depth + 1) true _ (tokensFrom (CStr.lit "$A").bytes 0)
  rw [htokens]
  exact hnests (depth + 1) true _

/-- **Without cycles** a run returns, but for what stops it. -/
theorem Expander.returns_of_acyclic {maxlen : Nat} {s : Output} {e : Expander}
    (hs : e.Starts maxlen s → s.idxOut ≤ maxlen) (hacyclic : Acyclic (e.meanings env node))
    (hstops : ∀ f, ¬ Stops (e.meanings env node) f (decide (0 < e.withcmd)) (maxlen - e.start s)
      e.tokens)
    (hfills : ∀ t, Expands (e.meanings env node) (decide (0 < e.withcmd)) (maxlen - e.start s)
      e.tokens t → ¬ e.Fills maxlen s t) :
    ∃ depth ok s', e.run env junk node maxlen depth s = .ok ok s' := by
  have hcommands : ∀ key group, (e.meanings env node).meaning false key ≠ .command group := by
    intro key group
    change keyMeaning env node false key ≠ _
    rw [keyMeaning_values]
    exact defaultMeaning_ne_command key group
  obtain ⟨depth, hdepth⟩ :=
    hacyclic.exists_depth hcommands (decide (0 < e.withcmd)) e.tokens
  refine ⟨depth, (run_returns_iff hs).mpr fun hbreaks => ?_⟩
  cases hbreaks with
  | nested _ h => exact hdepth _ (eval_deep_iff.mpr h)
  | stops _ h => exact hstops _ h
  | full _ hexpands hfull => exact hfills _ hexpands hfull

end Stored
end Conf
end RedPak
