import RedPak.Conf.StoredPaths

/-!
# Conf.Expanders

The functions that write an expansion to the output: `defaultsExpand`, `getDefault` and
`RedConfAppendExpandedPath`. Each of them ends like an outcome of the references in its input
(`Expander.run_endsAs`).
-/

namespace RedPak
namespace Conf
namespace Stored

open Layered (Buffer)
open Layered.Buffer (slice)
open Layered.Expansion
open Layered.Action

/-! ## How a run ends -/

def EndsAs (x : OutputM Bool) (o : ExpandOutcome) (s : Output) : Prop :=
  match o with
  | .done _ => ∃ s', x s = .ok true s'
  | .error => ∃ s', x s = .ok false s'
  | .deep => ∃ s', x s = .error .deep s'
  | .stop f => ∃ s', x s = .error (.fault f) s'

variable {x : OutputM Bool} {o : ExpandOutcome} {s : Output}

theorem Agrees.endsAs (h : Agrees x o s) : EndsAs x o s := by
  cases o with
  | done t =>
    obtain ⟨s', hrun, -⟩ := h
    exact ⟨s', hrun⟩
  | _ => exact h

theorem Leaves.endsAs (h : Leaves x o s) : EndsAs x o s := by
  cases o with
  | done t =>
    obtain ⟨s', hrun, -⟩ := h
    exact ⟨s', hrun⟩
  | _ => exact h

theorem EndsAs.returns (h : EndsAs x o s) : (∃ ok s', x s = .ok ok s') ↔ ¬ o.Broken := by
  cases o with
  | done t =>
    obtain ⟨s', hrun⟩ := h
    exact ⟨fun _ hb => hb.not_done t rfl, fun _ => ⟨true, s', hrun⟩⟩
  | error =>
    obtain ⟨s', hrun⟩ := h
    exact ⟨fun _ hb => hb.not_error rfl, fun _ => ⟨false, s', hrun⟩⟩
  | deep =>
    obtain ⟨s', hrun⟩ := h
    refine ⟨?_, fun hb => absurd (.inl rfl) hb⟩
    rintro ⟨ok, s'', hrun'⟩
    cases hrun.symm.trans hrun'
  | stop f =>
    obtain ⟨s', hrun⟩ := h
    refine ⟨?_, fun hb => absurd (.inr ⟨f, rfl⟩) hb⟩
    rintro ⟨ok, s'', hrun'⟩
    cases hrun.symm.trans hrun'

theorem EndsAs.fault_iff (h : EndsAs x o s) (f : ExpandFault) :
    (∃ s', x s = .error (.fault f) s') ↔ o = .stop f := by
  constructor
  · rintro ⟨s', hrun⟩
    cases o with
    | stop f' =>
      obtain ⟨s'', hrun'⟩ := h
      cases hrun.symm.trans hrun'
      rfl
    | _ =>
      obtain ⟨s'', hrun'⟩ := h
      cases hrun.symm.trans hrun'
  · rintro rfl
    exact h

/-! ## The functions -/

/-- The expansion of a value, at most so many of them nested in each other. -/
def nestedExpand (env : RedEnv) (junk : Buffer UInt8) (node : Option ExpandCtx) :
    (depth : Nat) → NestedExpand
  | 0 => fun _ _ => throw .deep
  | depth + 1 => fun value maxlen => defaultsExpand env junk node depth value maxlen 0

inductive Expander where
  | defaultsExpand (inputS : CStr) (withcmd : Nat)
  | getDefault (key : CStr)
  | appendExpandedPath (inputS : CStr)

namespace Expander

def run (env : RedEnv) (junk : Buffer UInt8) (node : Option ExpandCtx) (maxlen depth : Nat) :
    Expander → OutputM Bool
  | defaultsExpand inputS withcmd =>
    Stored.defaultsExpand env junk node depth inputS.bytes maxlen withcmd
  | getDefault key =>
    Stored.getDefault env junk node (nestedExpand env junk node depth) key.bytes maxlen
  | appendExpandedPath inputS => redConfAppendExpandedPath env junk node depth inputS maxlen

def withcmd : Expander → Nat
  | defaultsExpand _ withcmd => withcmd
  | _ => 0

def tokens : Expander → List (Token UInt8)
  | defaultsExpand inputS _ => tokensFrom inputS.bytes 0
  | getDefault key => [.ref key.bytes]
  | appendExpandedPath inputS => tokensFrom inputS.bytes 0

/-- Where the text goes. -/
def start (s : Output) : Expander → Nat
  | appendExpandedPath _ => (pathPrefix (slice s.outputS 0 s.idxOut)).length
  | _ => s.idxOut

/-- A path is not appended to a full output. -/
def Starts (maxlen : Nat) (s : Output) : Expander → Prop
  | appendExpandedPath _ => s.idxOut < maxlen
  | _ => True

/-- The path fills the output, so that its zero is behind it. -/
def Fills (maxlen : Nat) (s : Output) (t : List UInt8) : Expander → Prop
  | appendExpandedPath _ => (appended (slice s.outputS 0 s.idxOut) t).length = maxlen
  | _ => False

section

variable (env : RedEnv) (node : Option ExpandCtx)

def meanings (e : Expander) : Language UInt8 ExpandFault := language env node (e.withcmd == 1)

/-- What the references of the input are replaced by. -/
def expansion (maxlen depth : Nat) (s : Output) (e : Expander) : ExpandOutcome :=
  eval (e.meanings env node) depth (decide (0 < e.withcmd)) e.tokens (maxlen - e.start s)

/-- What the function ends with. -/
def outcome (maxlen depth : Nat) (s : Output) : Expander → ExpandOutcome
  | appendExpandedPath inputS =>
    if s.idxOut < maxlen then
      appendOutcome maxlen (slice s.outputS 0 s.idxOut)
        ((appendExpandedPath inputS).expansion env node maxlen depth s)
    else .error
  | e => e.expansion env node maxlen depth s

end

end Expander

variable {env : RedEnv} {junk : Buffer UInt8} {node : Option ExpandCtx}

theorem nestedExpand_agrees (restricted : Bool) (depth : Nat) :
    AgreesNested (nestedExpand env junk node depth)
      (nestedEval (language env node restricted) depth) := by
  rw [nestedEval_restricted env node restricted false]
  cases depth with
  | zero => exact agreesNested_deep
  | succ depth => exact fun value maxlen s hs => defaultsExpand_agrees depth value maxlen 0 s hs

theorem getDefault_eval (depth : Nat) (key : CStr) {maxlen : Nat} (hs : s.idxOut ≤ maxlen) :
    Agrees (getDefault env junk node (nestedExpand env junk node depth) key.bytes maxlen)
      (eval (language env node false) depth false [.ref key.bytes] (maxlen - s.idxOut)) s := by
  rw [eval_singleton]
  exact getDefault_agrees (nestedExpand_agrees false depth) (keyMeaning_values key.bytes) hs

theorem redConfAppendExpandedPath_full {depth maxlen : Nat} (inputS : CStr)
    (hs : ¬ s.idxOut < maxlen) :
    redConfAppendExpandedPath env junk node depth inputS maxlen s = .ok false s := by
  rw [redConfAppendExpandedPath, get_bind, if_pos (Nat.le_of_not_lt hs)]
  rfl

/-- **A run** ends like the outcome of its references. -/
theorem Expander.run_endsAs {maxlen depth : Nat} (e : Expander)
    (hs : e.Starts maxlen s → s.idxOut ≤ maxlen) :
    EndsAs (e.run env junk node maxlen depth) (e.outcome env node maxlen depth s) s := by
  cases e with
  | defaultsExpand inputS withcmd =>
    exact (defaultsExpand_agrees depth inputS maxlen withcmd s (hs trivial)).endsAs
  | getDefault key => exact (getDefault_eval depth key (hs trivial)).endsAs
  | appendExpandedPath inputS =>
    dsimp only [run, outcome]
    by_cases hfull : s.idxOut < maxlen
    · rw [if_pos hfull]
      exact (redConfAppendExpandedPath_leaves depth inputS hfull).endsAs
    · rw [if_neg hfull]
      exact ⟨s, redConfAppendExpandedPath_full inputS hfull⟩

/-! ## What stops a run -/

theorem length_pathPrefix_le {maxlen : Nat} (hs : s.idxOut < maxlen) :
    (pathPrefix (slice s.outputS 0 s.idxOut)).length ≤ maxlen := by
  have hle : (pathPrefix (slice s.outputS 0 s.idxOut)).length ≤ s.idxOut + 1 := by
    rw [pathPrefix]
    split
    · exact Nat.zero_le _
    · simp
  exact Nat.le_trans hle hs

/-- Appending is stopped by the expansion, or by a path that fills the output. -/
theorem appendOutcome_eq_iff {p : ExpandOutcome} (hp : p.Broken) {maxlen : Nat}
    (hs : s.idxOut < maxlen) (ht : ∀ t, o = .done t →
      t.length ≤ maxlen - (pathPrefix (slice s.outputS 0 s.idxOut)).length) :
    appendOutcome maxlen (slice s.outputS 0 s.idxOut) o = p ↔
      o = p ∨ p = .stop .outside ∧ ∃ t, o = .done t ∧
        (appended (slice s.outputS 0 s.idxOut) t).length = maxlen := by
  cases o with
  | done t =>
    have hroom := length_pathPrefix_le hs
    have happ := length_appended_le (slice s.outputS 0 s.idxOut) t
    have hlen := ht t rfl
    rw [appendOutcome, Layered.Expansion.Produced.andThen_done]
    by_cases hfull : (appended (slice s.outputS 0 s.idxOut) t).length = maxlen
    · rw [if_neg (by omega)]
      refine ⟨fun h => .inr ⟨h.symm, t, rfl, hfull⟩, ?_⟩
      rintro (rfl | ⟨rfl, -⟩)
      · exact absurd rfl (hp.not_done t)
      · rfl
    · rw [if_pos (by omega)]
      constructor
      · rintro rfl
        exact absurd rfl (hp.not_done _)
      · rintro (rfl | ⟨rfl, u, hu, hfull'⟩)
        · exact absurd rfl (hp.not_done t)
        · cases hu
          exact absurd hfull' hfull
  | _ =>
    refine ⟨fun h => .inl h, ?_⟩
    rintro (h | ⟨-, u, hu, -⟩)
    · exact h
    · cases hu

namespace Expander

theorem expansion_length_le {maxlen depth : Nat} {e : Expander} {t : List UInt8}
    (h : e.expansion env node maxlen depth s = .done t) : t.length ≤ maxlen - e.start s :=
  (eval_sound h).length_le

theorem start_le {maxlen : Nat} {e : Expander} (hs : s.idxOut ≤ maxlen)
    (hstarts : e.Starts maxlen s) : e.start s ≤ maxlen := by
  cases e with
  | appendExpandedPath inputS => exact length_pathPrefix_le hstarts
  | _ => exact hs

theorem outcome_error {maxlen depth : Nat} {e : Expander} (h : e.Starts maxlen s →
    e.expansion env node maxlen depth s = .error) :
    e.outcome env node maxlen depth s = .error := by
  cases e with
  | appendExpandedPath inputS =>
    dsimp only [outcome]
    by_cases hs : s.idxOut < maxlen
    · rw [if_pos hs, h hs]
      rfl
    · rw [if_neg hs]
  | _ => exact h trivial

/-- **What stops** a function is the expansion, or a path that fills the output. -/
theorem outcome_eq_iff {p : ExpandOutcome} (hp : p.Broken) {maxlen depth : Nat} {e : Expander} :
    e.outcome env node maxlen depth s = p ↔ e.Starts maxlen s ∧
      (e.expansion env node maxlen depth s = p ∨ p = .stop .outside ∧ ∃ t,
        e.expansion env node maxlen depth s = .done t ∧ e.Fills maxlen s t) := by
  cases e with
  | defaultsExpand inputS withcmd => simp [outcome, Starts, Fills]
  | getDefault key => simp [outcome, Starts, Fills]
  | appendExpandedPath inputS =>
    dsimp only [outcome, Starts, Fills]
    by_cases hs : s.idxOut < maxlen
    · rw [if_pos hs, appendOutcome_eq_iff hp hs (fun t ht => expansion_length_le ht)]
      exact ⟨fun h => ⟨hs, h⟩, fun h => h.2⟩
    · rw [if_neg hs]
      refine ⟨?_, fun h => absurd h.1 hs⟩
      rintro rfl
      exact absurd rfl hp.not_error

end Expander

end Stored
end Conf
end RedPak
