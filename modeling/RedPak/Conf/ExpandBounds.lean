import RedPak.Conf.Termination

/-!
# Conf.ExpandBounds

Where the expansion stores. The output, the value of a variable and the text of a command are arrays
of some size, and a text that doesn't fit is refused.

* `stops_outside`: a store is outside only behind the text of a command that fills its array.
* `inBounds_iff`: when all stores are inside, for any output that isn't overfull already.
-/

namespace RedPak
namespace Conf
namespace Stored

open Layered (Buffer IsField)
open Layered.Buffer (slice)
open Layered.Expansion
open Layered.Action

namespace Expander

section

variable (env : RedEnv) (node : Option ExpandCtx)

/-- The text that the input stands for, in an output of any length. -/
def Text (e : Expander) (t : List UInt8) : Prop :=
  ∃ room, Expands (e.meanings env node) (decide (0 < e.withcmd)) room e.tokens t

/-- What doesn't fit: the text into the output, the value of a variable that is met or the text of a
command into its array. -/
inductive Exceeds (maxlen : Nat) (s : Output) (e : Expander) : Prop
  | output {t : List UInt8} (htext : e.Text env node t) (hlong : maxlen < e.start s + t.length)
  | value {c : Bool} {room : Nat} {key : List UInt8} {d : Vardef} {value : CStr}
      (hmeets : Meets (e.meanings env node) c key room (decide (0 < e.withcmd))
        (maxlen - e.start s) e.tokens)
      (hvalue : keyMeaning env node c key = defaultMeaning env node key)
      (hfind : (vardefs.find? fun d => d.key.bytes = key) = some d)
      (htext : d.text env node = .ok (some value))
      (hlong : maxCyamlFormatStr ≤ value.bytes.length)
  | command {c : Bool} {room room' : Nat} {key group t : List UInt8}
      (hmeets : Meets (e.meanings env node) c key room (decide (0 < e.withcmd))
        (maxlen - e.start s) e.tokens)
      (hkey : keyMeaning env node c key = .command group)
      (hgroup : Expands (e.meanings env node) false room' (tokensFrom group 0) t)
      (hlong : maxCyamlFormatStr < t.length)

/-- What stores outside: a command of the input whose text fills its array, so that the zero is
behind it, and likewise a path that fills the output. -/
inductive Overruns (maxlen : Nat) (s : Output) (e : Expander) : Prop
  | command {room : Nat} {key group t : List UInt8} (hcommands : 0 < e.withcmd)
      (hreach : Reaches (e.meanings env node) true (maxlen - e.start s) e.tokens key room)
      (hkey : keyMeaning env node true key = .command group)
      (hgroup : Expands (e.meanings env node) false maxCyamlFormatStr (tokensFrom group 0) t)
      (hfull : t.length = maxCyamlFormatStr)
  | path {t : List UInt8} (hstarts : e.Starts maxlen s)
      (hexpands : Expands (e.meanings env node) false (maxlen - e.start s) e.tokens t)
      (hfull : e.Fills maxlen s t)

end

/-- Every store is inside of its array, and 1 is returned for what doesn't fit. -/
structure InBounds (env : RedEnv) (junk : Buffer UInt8) (node : Option ExpandCtx) (maxlen : Nat)
    (s : Output) (e : Expander) : Prop where
  inside : ¬ ∃ depth s', e.run env junk node maxlen depth s = .error (.fault .outside) s'
  refused : e.Exceeds env node maxlen s →
    ∃ depth s', e.run env junk node maxlen depth s = .ok false s'

end Expander

/-! ## Stores outside -/

variable {env : RedEnv} {junk : Buffer UInt8} {node : Option ExpandCtx}

theorem text_ne_outside (d : Vardef) : d.text env node ≠ .error .outside := by
  unfold Vardef.text
  cases d.callback <;> cases node <;> exact nofun

theorem keyMeaning_ne_outside (c : Bool) (key : List UInt8) :
    keyMeaning env node c key ≠ .stop .outside := by
  unfold keyMeaning
  split
  · exact nofun
  · unfold defaultMeaning
    cases vardefs.find? fun d => d.key.bytes = key with
    | some d =>
      dsimp only
      cases htext : d.text env node with
      | error f =>
        intro h
        obtain rfl := Meaning.stop.inj h
        exact text_ne_outside d htext
      | ok text =>
        cases text with
        | none => exact nofun
        | some value =>
          dsimp only
          split <;> exact nofun
    | none =>
      dsimp only
      cases env.secureGetenv (CStr.ofBytes key) with
      | none => exact nofun
      | some value =>
        dsimp only
        split <;> exact nofun

/-- **A store outside** comes from a command of the input itself, whose text fills its array. -/
theorem stops_outside {restricted c : Bool} {r : Nat} {ts : List (Token UInt8)}
    (h : Stops (language env node restricted) .outside c r ts) :
    c = true ∧ ∃ key room group t, Reaches (language env node restricted) c r ts key room ∧
      keyMeaning env node c key = .command group ∧
      Expands (language env node restricted) false maxCyamlFormatStr (tokensFrom group 0) t ∧
      t.length = maxCyamlFormatStr := by
  induction h with
  | here hreach hkey => exact absurd hkey (keyMeaning_ne_outside _ _)
  | @overflow c r room ts key group t hreach hkey hgroup hsize he =>
    refine ⟨?_, key, room, group, t, hreach, hkey, hgroup, hsize⟩
    by_contra hc
    rw [Bool.not_eq_true] at hc
    subst hc
    exact defaultMeaning_ne_command key group ((keyMeaning_values key).symm.trans hkey)
  | text hreach hkey h ih => cases ih.1
  | command hreach hkey h ih => cases ih.1

namespace Expander

variable {maxlen : Nat} {s : Output} {e : Expander}

theorem Fills.no_commands {t : List UInt8} (h : e.Fills maxlen s t) : e.withcmd = 0 := by
  cases e with
  | appendExpandedPath inputS => rfl
  | _ => exact h.elim

theorem Overruns.starts (h : e.Overruns env node maxlen s) : e.Starts maxlen s := by
  cases h with
  | command hcommands _ _ _ _ =>
    cases e with
    | appendExpandedPath inputS => exact absurd hcommands (Nat.lt_irrefl 0)
    | _ => trivial
  | path hstarts _ _ => exact hstarts

theorem overruns_of_outcome {depth : Nat}
    (h : e.outcome env node maxlen depth s = .stop .outside) : e.Overruns env node maxlen s := by
  obtain ⟨hstarts, hstop | ⟨-, t, hdone, hfull⟩⟩ := (outcome_eq_iff (.inr ⟨_, rfl⟩)).mp h
  · obtain ⟨hc, key, room, group, t, hreach, hkey, hgroup, hlen⟩ := stops_outside (eval_stop hstop)
    rw [hc] at hreach hkey
    exact .command (of_decide_eq_true hc) hreach hkey hgroup hlen
  · have hexpands := eval_sound hdone
    rw [hfull.no_commands] at hexpands
    exact .path hstarts hexpands hfull

theorem Overruns.outcome (h : e.Overruns env node maxlen s) :
    ∃ depth, e.outcome env node maxlen depth s = .stop .outside := by
  have hstarts := h.starts
  cases h with
  | command hcommands hreach hkey hgroup hfull =>
    have hstops : Stops (e.meanings env node) .outside (decide (0 < e.withcmd))
        (maxlen - e.start s) e.tokens := by
      rw [decide_eq_true hcommands]
      exact .overflow hreach hkey hgroup hfull rfl
    obtain ⟨depth, hd⟩ := hstops.eval
    exact ⟨depth, (outcome_eq_iff (.inr ⟨_, rfl⟩)).mpr ⟨hstarts, .inl hd⟩⟩
  | path _ hexpands hfull =>
    obtain ⟨depth, hd⟩ := hexpands.complete
    refine ⟨depth, (outcome_eq_iff (.inr ⟨_, rfl⟩)).mpr ⟨hstarts, .inr ⟨rfl, _, ?_, hfull⟩⟩⟩
    rw [expansion, hfull.no_commands]
    exact hd

/-- **A store outside** happens at some bound of the nesting exactly when the input overruns. -/
theorem outside_iff (hs : e.Starts maxlen s → s.idxOut ≤ maxlen) :
    (∃ depth s', e.run env junk node maxlen depth s = .error (.fault .outside) s') ↔
      e.Overruns env node maxlen s := by
  constructor
  · rintro ⟨depth, hfault⟩
    exact overruns_of_outcome (((e.run_endsAs hs).fault_iff .outside).mp hfault)
  · intro h
    obtain ⟨depth, hd⟩ := h.outcome
    exact ⟨depth, ((e.run_endsAs hs).fault_iff .outside).mpr hd⟩

/-- With less room a command has the same output, or it is refused. -/
theorem execCmd_narrow {restricted : Bool} {text : List UInt8} {r r' : Nat} {out : List UInt8}
    (h : (language env node restricted).run text r = some out) (_ : r' ≤ r) :
    (language env node restricted).run text r' = none ∨
      (language env node restricted).run text r' = some out := by
  change Conf.execCmd env _ r restricted = some out at h
  change Conf.execCmd env _ r' restricted = none ∨ Conf.execCmd env _ r' restricted = some out
  rw [Conf.execCmd] at h ⊢
  cases hrun : env.memFdExecCmd (CStr.ofBytes text) restricted with
  | none =>
    rw [hrun] at h
    cases h
  | some output =>
    rw [hrun] at h
    dsimp only at h ⊢
    split at h
    · cases h
    · by_cases hlong : output = [] ∨ r' ≤ output.length
      · exact .inl (if_pos hlong)
      · exact .inr ((if_neg hlong).trans h)

theorem Exceeds.expansion (hs : s.idxOut ≤ maxlen) (hstarts : e.Starts maxlen s)
    (h : e.Exceeds env node maxlen s) :
    ∃ depth, e.expansion env node maxlen depth s = .error := by
  cases h with
  | output htext hlong =>
    have hstart := start_le hs hstarts
    obtain ⟨room, hexpands⟩ := htext
    exact hexpands.refused (fun h => execCmd_narrow h) (by omega)
  | @value c room key d value hmeets hvalue hfind htext hlong =>
    have hkey : (e.meanings env node).meaning c key = .error := by
      change keyMeaning env node c key = .error
      rw [hvalue, defaultMeaning, hfind]
      dsimp only
      rw [htext]
      exact if_neg (Nat.not_lt.mpr hlong)
    refine hmeets.eval_error 0 ?_
    rw [evalRef, hkey]
  | @command c room room' key group t hmeets hkey hgroup hlong =>
    have hmeaning : (e.meanings env node).meaning c key = .command group := hkey
    obtain ⟨depth, herror⟩ := hgroup.refused (fun h => execCmd_narrow h) hlong
    have hn : nestedEval (e.meanings env node) (depth + 1) group (e.meanings env node).size =
        .error := herror
    refine hmeets.eval_error (depth + 1) ?_
    rw [evalRef, hmeaning]
    dsimp only
    rw [hn]
    rfl

/-- **What doesn't fit** is refused. -/
theorem refused (hs : s.idxOut ≤ maxlen) (h : e.Exceeds env node maxlen s) :
    ∃ depth s', e.run env junk node maxlen depth s = .ok false s' := by
  have hrefused : ∃ depth, e.Starts maxlen s → e.expansion env node maxlen depth s = .error := by
    by_cases hstarts : e.Starts maxlen s
    · obtain ⟨depth, herror⟩ := h.expansion hs hstarts
      exact ⟨depth, fun _ => herror⟩
    · exact ⟨0, fun h => absurd h hstarts⟩
  obtain ⟨depth, herror⟩ := hrefused
  have hends : EndsAs (e.run env junk node maxlen depth) (e.outcome env node maxlen depth s) s :=
    e.run_endsAs fun _ => hs
  rw [outcome_error herror] at hends
  exact ⟨depth, hends⟩

end Expander

/-- **All stores are inside** unless the input overruns. -/
theorem inBounds_iff (env : RedEnv) (junk : Buffer UInt8) (node : Option ExpandCtx) (maxlen : Nat)
    (s : Output) (hs : s.idxOut ≤ maxlen) (e : Expander) :
    e.InBounds env junk node maxlen s ↔ ¬ e.Overruns env node maxlen s := by
  constructor
  · intro h hoverruns
    exact h.inside ((Expander.outside_iff fun _ => hs).mpr hoverruns)
  · intro h
    exact ⟨fun houtside => h ((Expander.outside_iff fun _ => hs).mp houtside),
      fun hexceeds => Expander.refused hs hexceeds⟩

/-- A variable has a value, and the command of every text has the same output. -/
def datedEnv : RedEnv :=
  { variableEnv (CStr.lit "NAME") (CStr.lit "web") with
    memFdExecCmd := fun _ _ => some (CStr.lit "0901").bytes }

theorem eq_of_expands_chars {L : Language UInt8 ExpandFault} {c : Bool} {l t : List UInt8} {r : Nat}
    (h : Expands L c r (l.map .char) t) : t = l := by
  induction l generalizing r t with
  | nil =>
    cases h
    rfl
  | cons a l ih =>
    cases h with
    | char h => rw [ih h]

theorem inBounds_dated : (Expander.defaultsExpand (.lit "$NAME-$(date)") 1).InBounds datedEnv
    (fun _ => 0) none 512 ⟨fun _ => 0, 0⟩ := by
  refine (inBounds_iff datedEnv _ none 512 ⟨_, 0⟩ (by decide) _).mpr fun h => ?_
  have htokens : tokensFrom (CStr.lit "$NAME-$(date)").bytes 0 =
      [.ref (CStr.lit "NAME").bytes, .char 0x2d, .ref (CStr.lit "(date)").bytes] := by
    decide +kernel
  have hname : keyMeaning datedEnv none true (CStr.lit "NAME").bytes =
      .text (CStr.lit "web").bytes := by
    decide +kernel
  have hdate : keyMeaning datedEnv none true (CStr.lit "(date)").bytes =
      .command (CStr.lit "date").bytes := by
    decide +kernel
  have hletters : tokensFrom (CStr.lit "date").bytes 0 = (CStr.lit "date").bytes.map .char := by
    decide +kernel
  cases h with
  | @command room key group t hcommands hreach hkey hgroup hfull =>
    obtain ⟨pre, post, u, hsplit, -, -⟩ := hreach
    have hmem : .ref key ∈ tokensFrom (CStr.lit "$NAME-$(date)").bytes 0 := by
      show _ ∈ (Expander.defaultsExpand (.lit "$NAME-$(date)") 1).tokens
      rw [hsplit]
      simp
    rw [htokens] at hmem
    have hkeys : key = (CStr.lit "NAME").bytes ∨ key = (CStr.lit "(date)").bytes := by
      simpa using hmem
    rcases hkeys with rfl | rfl
    · rw [hname] at hkey
      cases hkey
    · rw [hdate] at hkey
      cases hkey
      rw [hletters] at hgroup
      rw [eq_of_expands_chars hgroup] at hfull
      revert hfull
      decide
  | path _ _ hfull => exact hfull

/-! ## An environment without cycles -/

def keysOf (ts : List (Token UInt8)) : List (List UInt8) :=
  ts.filterMap fun
    | .ref key => some key
    | .char _ => none

theorem mem_keysOf {ts : List (Token UInt8)} {key : List UInt8} (h : .ref key ∈ ts) :
    key ∈ keysOf ts :=
  List.mem_filterMap.mpr ⟨_, h, rfl⟩

/-- The keys in a default value. -/
def defaultKeys : Except ExpandFault (Option CStr) → List (List UInt8)
  | .ok (some value) => keysOf (tokensFrom value.bytes 0)
  | _ => []

/-- The keys in the text that stands for a key. -/
def meaningKeys : Meaning UInt8 ExpandFault → List (List UInt8)
  | .text w => keysOf (tokensFrom w 0)
  | _ => []

/-- Without variables and node, the values of the keys in a default value have no keys. -/
theorem emptyEnv_values {d : Vardef} (hd : d ∈ vardefs) {value : CStr}
    (hvalue : d.text emptyEnv none = .ok (some value)) {key : List UInt8}
    (hkey : key ∈ keysOf (tokensFrom value.bytes 0)) {w : List UInt8}
    (hw : defaultMeaning emptyEnv none key = .text w) : keysOf (tokensFrom w 0) = [] := by
  have hall : ∀ d ∈ vardefs, ∀ key ∈ defaultKeys (d.text emptyEnv none),
      meaningKeys (defaultMeaning emptyEnv none key) = [] := by
    decide +kernel
  have hnone := hall d hd key
  rw [hvalue] at hnone
  have hkeys := hnone hkey
  rw [hw] at hkeys
  exact hkeys

theorem emptyEnv_text {key w : List UInt8} (h : defaultMeaning emptyEnv none key = .text w) :
    ∃ d ∈ vardefs, ∃ value, d.text emptyEnv none = .ok (some value) ∧ value.bytes = w := by
  unfold defaultMeaning at h
  cases hfind : vardefs.find? fun d => d.key.bytes = key with
  | some d =>
    rw [hfind] at h
    dsimp only at h
    cases htext : d.text emptyEnv none with
    | error f =>
      rw [htext] at h
      cases h
    | ok text =>
      rw [htext] at h
      cases text with
      | none => cases h
      | some value =>
        dsimp only at h
        split at h
        · exact ⟨d, List.mem_of_find?_eq_some hfind, value, htext, Meaning.text.inj h⟩
        · cases h
  | none =>
    rw [hfind] at h
    cases h

theorem acyclic_emptyEnv (restricted : Bool) : Acyclic (language emptyEnv none restricted) := by
  have hmeaning : ∀ {v w}, Refers (language emptyEnv none restricted) v w →
      ∃ key ∈ keysOf (tokensFrom v 0), defaultMeaning emptyEnv none key = .text w := by
    rintro v w ⟨key, hkey, hw⟩
    exact ⟨key, mem_keysOf hkey, (keyMeaning_values key).symm.trans hw⟩
  -- a text, the default value of one of its keys, and a value without keys
  refine ⟨fun v => Acc.intro v fun w hvw => Acc.intro w fun x hwx => Acc.intro x fun y hxy => ?_⟩
  obtain ⟨key, -, hw⟩ := hmeaning hvw
  obtain ⟨key', hkey', hx⟩ := hmeaning hwx
  obtain ⟨key'', hkey'', -⟩ := hmeaning hxy
  obtain ⟨d, hd, value, hvalue, rfl⟩ := emptyEnv_text hw
  rw [emptyEnv_values hd hvalue hkey' hx] at hkey''
  cases hkey''

/-! ## Texts that fill an array -/

theorem expands_chars {L : Language UInt8 ExpandFault} {c : Bool} (l : List UInt8) {r : Nat}
    (h : l.length ≤ r) : Expands L c r (l.map .char) l := by
  induction l generalizing r with
  | nil => exact .nil
  | cons a l ih =>
    obtain ⟨r, rfl⟩ := Nat.exists_eq_succ_of_ne_zero (Nat.ne_zero_of_lt h)
    exact .char (ih (Nat.le_of_succ_le_succ h))

theorem appended_field {f : List UInt8} (hf : IsField colon f) : appended [] f = f := by
  have hnew : newPaths [] f = [f] := by
    rw [newPaths, hf.fields_eq, Layered.fields_nil]
    rfl
  have hfield : ∀ g ∈ [f], IsField colon g := by
    intro g hg
    exact List.mem_singleton.mp hg ▸ hf
  rw [appended, hnew]
  exact (Layered.rdropWhile_joined hfield).trans (Layered.joined_singleton f)

/-- So many letters. -/
def letters (n : Nat) : CStr := ⟨List.replicate n 0x61, fun h => nomatch List.eq_of_mem_replicate h⟩

@[simp] theorem length_letters (n : Nat) : (letters n).bytes.length = n := List.length_replicate

/-- A command of 512 letters. -/
def fullCommand : CStr := .ofBytes (dollar :: openParen :: ((letters 512).bytes ++ [closeParen]))

/-- Neither a command nor a path leaves room for its zero. -/
theorem zero_outside :
    (∀ restricted, Acyclic (language emptyEnv none restricted)) ∧
    ¬ (Expander.defaultsExpand fullCommand 1).InBounds emptyEnv (fun _ => 0) none 512
      ⟨fun _ => 0, 0⟩ ∧
    ¬ (Expander.appendExpandedPath (letters 1024)).InBounds emptyEnv (fun _ => 0) none 1024
      ⟨fun _ => 0, 0⟩ := by
  refine ⟨acyclic_emptyEnv, fun h => ?_, fun h => ?_⟩
  · have htokens : tokensFrom fullCommand.bytes 0 =
        [.ref (openParen :: ((letters 512).bytes ++ [closeParen]))] := by
      decide +kernel
    have hgroup : tokensFrom (letters 512).bytes 0 = (letters 512).bytes.map .char := by
      decide +kernel
    have hkey : keyMeaning emptyEnv none true (openParen :: ((letters 512).bytes ++ [closeParen])) =
        .command (letters 512).bytes := by
      decide +kernel
    have hreach : Reaches ((Expander.defaultsExpand fullCommand 1).meanings emptyEnv none) true 512
        (tokensFrom fullCommand.bytes 0)
        (openParen :: ((letters 512).bytes ++ [closeParen])) 512 :=
      ⟨[], [], [], htokens, .nil, rfl⟩
    refine h.inside ((Expander.outside_iff fun _ => Nat.zero_le _).mpr ?_)
    refine .command Nat.one_pos hreach hkey ?_ (length_letters 512)
    rw [hgroup]
    exact expands_chars _ (Nat.le_of_eq (length_letters 512))
  · have htokens : tokensFrom (letters 1024).bytes 0 = (letters 1024).bytes.map .char := by
      decide +kernel
    have hfield : IsField colon (letters 1024).bytes :=
      ⟨nofun, fun h => nomatch List.eq_of_mem_replicate h⟩
    refine h.inside ((Expander.outside_iff fun _ => Nat.zero_le _).mpr ?_)
    refine .path (t := (letters 1024).bytes) (show 0 < 1024 by decide) ?_ ?_
    · change Expands _ false 1024 (tokensFrom (letters 1024).bytes 0) _
      rw [htokens]
      exact expands_chars _ (Nat.le_of_eq (length_letters 1024))
    · change (appended [] (letters 1024).bytes).length = 1024
      rw [appended_field hfield, length_letters]

end Stored
end Conf
end RedPak
