import RedPak.Conf.MergedNode
import RedPak.Factory.AtomicCall
import RedPak.Wrap.Abort

/-!
# Wrap.Absent

What becomes of the strings that a config may leave out.

* `nothingAbsent_iff`: they are never used as if they were there, exactly when the headers that
  are copied have a name and an info and every variable that counts has a value, unless its mode
  needs none.
-/

namespace RedPak
namespace Wrap

open Conf Node Factory
open Layered (Buffer)
open Layered.Action

/-! ## Variables -/

/-- The use of a string that was left out. -/
inductive Absent where
  | absent
deriving DecidableEq

/-- Gives a string to the expander, to a command or to the arguments. -/
def present : Option CStr → Except Absent CStr
  | some s => .ok s
  | none => .error .absent

section

variable {ω : Type} (expand : ExpandCtx → CStr → Option CStr) (env : RedEnv) (os : LaunchOs ω)

/-- `set_one_envvar`, stopped where it would use a value that was left out. -/
def setOneEnvvarPresent (stack : Stack) (rs : RedwrapState ω) (confvar : RedConfVar)
    (node : Family) : Except Absent (Except Halt (RedwrapState ω)) :=
  match confvar.mode with
  | .static => do
    let value ← present confvar.value
    pure (addAll rs [CStr.lit "--setenv", confvar.key, value])
  | .execfd => do
    let command ← present confvar.value
    let (_, buffer, rs) := execCmd os rs confvar.key command (stack.envvar rs.argval.length)
      envvarBufferSize
    match strdup buffer envvarBufferSize with
    | none => pure (.error .fault)
    | some value => pure (addAll rs [CStr.lit "--setenv", confvar.key, value])
  | .deflt => do
    let value ← present confvar.value
    pure (addAll rs [CStr.lit "--setenv", confvar.key, expand node.node.ctx value])
  | .remove => pure (addAll rs [CStr.lit "--unsetenv", confvar.key])
  | .inherit =>
    pure (addAll rs [CStr.lit "--setenv", confvar.key,
      (env.secureGetenv confvar.key).getD (CStr.lit "")])

/-- The value is given, or the mode needs none. -/
def ValueGiven (confvar : RedConfVar) : Prop :=
  confvar.value ≠ none ∨ confvar.mode = .remove ∨ confvar.mode = .inherit

instance (confvar : RedConfVar) : Decidable (ValueGiven confvar) :=
  inferInstanceAs (Decidable (_ ∨ _ ∨ _))

/-- When nothing is left out, this is `set_one_envvar`. -/
theorem setOneEnvvarPresent_ok {stack : Stack} {rs : RedwrapState ω} {confvar : RedConfVar}
    {node : Family} {run : Except Halt (RedwrapState ω)}
    (h : setOneEnvvarPresent expand env os stack rs confvar node = .ok run) :
    setOneEnvvar expand env os stack rs confvar node = run := by
  obtain ⟨mode, key, value, info, warn⟩ := confvar
  cases mode with
  | static =>
    cases value with
    | none => cases h
    | some value => cases h; rfl
  | execfd =>
    cases value with
    | none => cases h
    | some command =>
      obtain ⟨_, hcommand, h⟩ := except_bind_eq_ok.mp h
      cases hcommand
      simp only [setOneEnvvar, Option.getD_some]
      dsimp only at h
      generalize execCmd os rs key command (stack.envvar rs.argval.length) envvarBufferSize =
        result at h ⊢
      obtain ⟨_, buffer, rs'⟩ := result
      dsimp only at h ⊢
      cases hcopy : strdup buffer envvarBufferSize with
      | none => rw [hcopy] at h; exact Except.ok.inj h
      | some value => rw [hcopy] at h; exact Except.ok.inj h
  | deflt =>
    cases value with
    | none => cases h
    | some value => cases h; rfl
  | remove => cases h; rfl
  | inherit => cases h; rfl

theorem setOneEnvvarPresent_absent {stack : Stack} {rs : RedwrapState ω} {confvar : RedConfVar}
    {node : Family} :
    setOneEnvvarPresent expand env os stack rs confvar node = .error .absent ↔
      ¬ ValueGiven confvar := by
  obtain ⟨mode, key, value, info, warn⟩ := confvar
  cases mode with
  | static => cases value <;> simp [setOneEnvvarPresent, present, ValueGiven, bind, Except.bind,
      pure, Except.pure]
  | execfd =>
    cases value with
    | none => simp [setOneEnvvarPresent, present, ValueGiven, bind, Except.bind]
    | some command =>
      simp only [ValueGiven, ne_eq, reduceCtorEq, not_false_eq_true, true_or, not_true_eq_false,
        iff_false]
      intro h
      rcases except_bind_eq_error.mp h with h | ⟨_, -, h⟩
      · cases h
      · dsimp only at h
        split at h <;> cases h
  | deflt => cases value <;> simp [setOneEnvvarPresent, present, ValueGiven, bind, Except.bind,
      pure, Except.pure]
  | remove => simp [setOneEnvvarPresent, ValueGiven, pure, Except.pure]
  | inherit => simp [setOneEnvvarPresent, ValueGiven, pure, Except.pure]

/-! ## Exports -/

/-- An export without a path is expanded with its mount: NULL is not emitted unless a string that
is there does not expand. -/
theorem setOneExport_present {rs : RedwrapState ω} {exp : RedConfExportPath} {node : Family}
    (hconfig : node.node.config ≠ none) (hsource : exportSource expand exp node ≠ none)
    (hmount : mountIn expand node exp ≠ none) :
    setOneExport expand os.toRedOs rs exp node ≠ .error .fault ∧
      ∀ rs', setOneExport expand os.toRedOs rs exp node = .ok rs' → none ∉ emitted rs rs' := by
  have hdoes := setOneExport_does expand os rs exp hconfig
  have hstate : exportState expand os rs exp node ≠ .error .fault := by
    obtain ⟨source, hsource⟩ := Option.ne_none_iff_exists'.mp hsource
    simp only [exportState, checkDirectory, hsource]
    split_ifs <;> simp
  unfold exportArgs at hdoes
  cases hrun : exportState expand os rs exp node with
  | error halt =>
    rw [hrun] at hdoes hstate
    have hhalt : setOneExport expand os.toRedOs rs exp node = .error halt := hdoes
    rw [hhalt]
    refine ⟨fun h => hstate ?_, fun rs' h => (by cases h)⟩
    rw [Except.error.inj h]
  | ok mounted =>
    rw [hrun] at hdoes
    have hemits : ∃ args, Emits (setOneExport expand os.toRedOs rs exp node) rs args ∧
        none ∉ args := by
      cases mounted with
      | none => exact ⟨[], hdoes, List.not_mem_nil⟩
      | some rs₁ =>
        refine ⟨_, hdoes, ?_⟩
        obtain ⟨source, hsource⟩ := Option.ne_none_iff_exists'.mp hsource
        obtain ⟨mount, hmount⟩ := Option.ne_none_iff_exists'.mp hmount
        rw [hsource, hmount, modeArgs]
        split <;> simp
    obtain ⟨args, hemits, hargs⟩ := hemits
    refine ⟨fun h => (by cases hemits.stops _ h), fun rs' h => ?_⟩
    rw [emitted, (hemits.appended rs' h).1, List.drop_left]
    exact hargs

end

/-! ## Headers -/

/-- The name and the info are given. -/
def HeadersGiven (headers : RedConfHeader) : Prop := headers.name ≠ none ∧ headers.info ≠ none

section

variable {φ : Type} (os : FactoryOs φ) (subpath : CStr) (m : Machine φ)

/-- The config whose headers are kept by an update. -/
def HeadersRead (prvcfg : RedConfig) : Prop :=
  ∃ m', setSubpathPath os subpath true m = .ok rednodeFactoryOk m' ∧
    os.redLoadConfig m'.os (m.fab.place subpath) = some prvcfg ∧
    isValidAlias prvcfg.headers.nodeAlias = true

theorem updateConfigHeaders_nullString (h : Ready m.fab) (config : RedConfig) :
    (∀ m', updateConfigHeaders os config subpath m ≠ .error .nullString m') ↔
      ∀ prvcfg, HeadersRead os subpath m prvcfg → HeadersGiven prvcfg.headers := by
  obtain ⟨status, m', hrun, hend⟩ := exists_ok (@setSubpathPath_spec _ _ subpath _ _
    (@storeKeeps_true _ os).toOsKeeps h trivial)
  have hread : ∀ prvcfg, HeadersRead os subpath m prvcfg ↔ status = rednodeFactoryOk ∧
      os.redLoadConfig m'.os (m.fab.place subpath) = some prvcfg ∧
      isValidAlias prvcfg.headers.nodeAlias = true := by
    intro prvcfg
    constructor
    · rintro ⟨m'', hrun', h⟩
      rw [hrun] at hrun'
      cases hrun'
      exact ⟨rfl, h⟩
    · rintro ⟨rfl, h⟩
      exact ⟨m', hrun, h⟩
  simp only [hread]
  rw [updateConfigHeaders, bind_of_ok hrun]
  by_cases hok : status = rednodeFactoryOk
  · subst hok
    obtain ⟨hfit, -, hover⟩ : subpath.bytes.length + m.fab.nodeLength < rednodeFactoryPathLen ∧
        Same (fun _ _ => True) (m.fab.over subpath) m' := by
      rcases hend with hlong | hover
      · exact absurd hlong.1 (by decide)
      · exact hover
    rw [if_neg (by decide), bind_of_ok (pathString_over hfit hover), get_bind]
    cases hload : os.redLoadConfig m'.os (m.fab.place subpath) with
    | none => simp [pure, EStateM.pure]
    | some prvcfg =>
      by_cases halias : isValidAlias prvcfg.headers.nodeAlias = false
      · simp [halias, pure, EStateM.pure]
      · have halias' : isValidAlias prvcfg.headers.nodeAlias = true := by simpa using halias
        simp only [true_and, Option.some.injEq, if_neg halias]
        constructor
        · rintro hnever _ ⟨rfl, -⟩
          constructor
          · intro hname
            refine hnever m' ?_
            rw [hname]
            cases prvcfg.headers.info <;> rfl
          · intro hinfo
            refine hnever m' ?_
            rw [hinfo]
            rfl
        · intro hgiven m''
          obtain ⟨hname, hinfo⟩ := hgiven prvcfg ⟨rfl, halias'⟩
          obtain ⟨name, hname⟩ := Option.ne_none_iff_exists'.mp hname
          obtain ⟨info, hinfo⟩ := Option.ne_none_iff_exists'.mp hinfo
          have hmalloc : malloc os m' = .ok (os.malloc m'.os).1
            { m' with os := (os.malloc m'.os).2 } := rfl
          rw [hname, hinfo]
          dsimp only
          rw [bind_of_ok hmalloc]
          split <;> exact fun h => by cases h
  · rw [if_pos hok]
    exact iff_of_true (fun _ h => by cases h) fun prvcfg h => absurd h.1 hok

end

/-! ## All uses -/

/-- Strings that are left out are not used: neither by the merge of `leaf` into one node, nor by an
update of the headers in `m`, nor when the variables and exports of `leaf` are emitted. -/
structure NothingAbsent {φ : Type} (leaf : Family) (os : FactoryOs φ) (subpath : CStr)
    (m : Machine φ) : Prop where
  merged : ∀ expand env depth pathBuffer ldpathBuffer,
    getMergedNode expand env depth pathBuffer ldpathBuffer leaf ≠ .error .nullString
  updated : Ready m.fab → ∀ config m', updateConfigHeaders os config subpath m ≠
    .error .nullString m'
  envvars : ∀ calls, (mixVariables leaf recordCall []).result = some (0, calls) → ∀ p ∈ calls,
    ∀ {ω : Type} (expand : ExpandCtx → CStr → Option CStr) env (os : LaunchOs ω) stack rs,
      setOneEnvvarPresent expand env os stack rs p.1 p.2 ≠ .error .absent
  exports : ∀ {ω : Type} (expand : ExpandCtx → CStr → Option CStr) (os : LaunchOs ω) rs,
    ∀ p ∈ delivered expand leaf, p.2.node.config ≠ none → exportSource expand p.1 p.2 ≠ none →
      mountIn expand p.2 p.1 ≠ none →
        setOneExport expand os.toRedOs rs p.1 p.2 ≠ .error .fault ∧
        ∀ rs', setOneExport expand os.toRedOs rs p.1 p.2 = .ok rs' → none ∉ emitted rs rs'

/-- What has to be given. -/
structure StringsGiven {φ : Type} (leaf : Family) (os : FactoryOs φ) (subpath : CStr)
    (m : Machine φ) : Prop where
  headers : ∀ config, leaf.node.config = some config → HeadersGiven config.headers
  read : Ready m.fab → ∀ prvcfg, HeadersRead os subpath m prvcfg → HeadersGiven prvcfg.headers
  values : (∀ k, mixVarLaw.acceptedName leaf k = true) → ∀ k g var,
    (mixVar.deciding leaf k).head? = some (g, var) → ValueGiven var

/-- **Absent strings.** No string that a config leaves out is used, exactly when the headers that
are copied have a name and an info, and every variable that counts has a value or a mode that needs
none. Exports and all other strings may be left out. -/
theorem nothingAbsent_iff {φ : Type} (leaf : Family) (os : FactoryOs φ) (subpath : CStr)
    (m : Machine φ) : NothingAbsent leaf os subpath m ↔ StringsGiven leaf os subpath m := by
  constructor
  · intro h
    refine ⟨fun config hconfig => ?_, fun hready => ?_, fun hacc k g var hk => ?_⟩
    · have hmerged := h.merged silentExpand silentEnv 0 (fun _ => 0) (fun _ => 0)
      rw [ne_eq, getMergedNode_nullString _ _ _ hconfig] at hmerged
      exact not_or.mp hmerged
    · exact (updateConfigHeaders_nullString os subpath m hready { headers := ⟨subpath, none, none⟩ }
        ).mp (h.updated hready _)
    · obtain ⟨calls, hcalls⟩ := mixVariables_accepted.mpr hacc
      have hused := h.envvars calls hcalls (var, g) ((mem_mixVariables hcalls).mpr ⟨k, hk⟩)
        silentExpand silentEnv quietOs usedStack (.start subpath false 0 () leaf)
      by_contra hvalue
      exact hused ((setOneEnvvarPresent_absent _ _ _).mpr hvalue)
  · intro h
    refine ⟨fun expand env depth pathBuffer ldpathBuffer => ?_, fun hready config => ?_,
      fun calls hcalls p hp => ?_, fun expand os rs p hp hconfig hsource hmount => ?_⟩
    · cases hconfig : leaf.node.config with
      | none => simp [getMergedNode, hconfig]
      | some config =>
        obtain ⟨hname, hinfo⟩ := h.headers config hconfig
        rw [ne_eq, getMergedNode_nullString _ _ _ hconfig]
        exact not_or.mpr ⟨hname, hinfo⟩
    · exact (updateConfigHeaders_nullString os subpath m hready config).mpr (h.read hready)
    · intro ω expand env os stack rs hused
      obtain ⟨k, hk⟩ := (mem_mixVariables hcalls).mp hp
      exact (setOneEnvvarPresent_absent expand env os).mp hused
        (h.values (mixVariables_accepted.mp ⟨calls, hcalls⟩) k p.2 p.1 hk)
    · exact setOneExport_present expand os hconfig hsource hmount

/-! ## A node with few strings -/

/-- A variable without a value, and headers without a name. -/
def bareLeaf : Family := varLeaf { key := CStr.lit "LANG" }

def bareMachine : Machine Disk := ⟨factoryAt "/r/" "/r/n/", adminOnly, []⟩

theorem absent_used :
    ¬ NothingAbsent bareLeaf diskOs rednodeAdmin bareMachine ∧
      getMergedNode silentExpand silentEnv 1 (fun _ => 0) (fun _ => 0) bareLeaf =
        .error .nullString ∧
      (∃ m', updateConfigHeaders diskOs { headers := ⟨CStr.lit "n", none, none⟩ } rednodeAdmin
        bareMachine = .error .nullString m') ∧
      setOneEnvvarPresent silentExpand silentEnv quietOs usedStack
        (.start (CStr.lit "redwrap") false 0 () bareLeaf) { key := CStr.lit "LANG" } bareLeaf =
          .error .absent := by
  have hmerged : getMergedNode silentExpand silentEnv 1 (fun _ => 0) (fun _ => 0) bareLeaf =
      .error .nullString :=
    (getMergedNode_nullString silentExpand silentEnv 1 rfl).mpr (.inl rfl)
  refine ⟨fun h => h.merged _ _ _ _ _ hmerged, hmerged, ?_, rfl⟩
  have hstops : stopsWith (updateConfigHeaders diskOs { headers := ⟨CStr.lit "n", none, none⟩ }
      rednodeAdmin) bareMachine (· == .nullString) = true := by decide +kernel
  obtain ⟨fault, m', hrun, hfault⟩ := of_stopsWith hstops
  exact ⟨m', by rw [hrun, eq_of_beq hfault]⟩

end Wrap
end RedPak
