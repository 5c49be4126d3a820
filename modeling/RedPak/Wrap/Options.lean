import RedPak.Layered.Options
import RedPak.Wrap.ArgVectors

/-!
# Wrap.Options

The arguments for `bwrap` as the options they are meant to be: what a launch writes into `argval` is
a list of options, the command behind them, and NULL.

* `turnOptions_spec`: what a turn adds to the arguments is its options.
* `main_reads`: who reads the arguments with these options finds those of the launch, and then the
  command.
-/

namespace RedPak
namespace Wrap

open Conf
open Layered (Opt Filled gathered readOpts seen turns written)
open Layered.Action (except_bind_eq_ok)

/-- An option as it is given to `bwrap`; an argument can be NULL. -/
abbrev LaunchOption := Opt CStr (Option CStr)

/-- The options of exports, each with the number of its arguments; the last one is the mount. -/
def exportOptions : List (CStr × Nat) := [
  (CStr.lit "--bind", 2), (CStr.lit "--ro-bind", 2), (CStr.lit "--symlink", 2),
  (CStr.lit "--file", 2), (CStr.lit "--dir", 1), (CStr.lit "--tmpfs", 1), (CStr.lit "--dev", 1),
  (CStr.lit "--proc", 1), (CStr.lit "--mqueue", 1), (CStr.lit "--lock-file", 1)]

/-- The options of variables and paths. -/
def envOptions : List (CStr × Nat) := [(CStr.lit "--setenv", 2), (CStr.lit "--unsetenv", 1)]

/-- The options of the section `config`. -/
def tagOptions : List (CStr × Nat) := [
  (CStr.lit "--cap-add", 1), (CStr.lit "--cap-drop", 1),
  (CStr.lit "--unshare-uts", 0), (CStr.lit "--hostname", 1), (CStr.lit "--chdir", 1),
  (CStr.lit "--die-with-parent", 0), (CStr.lit "--new-session", 0),
  (CStr.lit "--unshare-user", 0), (CStr.lit "--unshare-cgroup", 0), (CStr.lit "--unshare-ipc", 0),
  (CStr.lit "--unshare-pid", 0), (CStr.lit "--unshare-net", 0), (CStr.lit "--share-net", 0)]

/-- The options that a launch can give. -/
def bwrapOptions : List (CStr × Nat) := exportOptions ++ (envOptions ++ tagOptions)

/-- The option is one of some. -/
def AmongOptions (table : List (CStr × Nat)) (g : LaunchOption) : Prop :=
  (g.word, g.args.length) ∈ table

/-- The options of a reader that has those of a launch; what other options it has is left open. -/
def Knows (arity : CStr → Option Nat) : Prop := ∀ p ∈ bwrapOptions, arity p.1 = some p.2

theorem AmongOptions.fits {arity : CStr → Option Nat} (h : Knows arity) {g : LaunchOption}
    (hg : AmongOptions bwrapOptions g) : g.Fits arity := h _ hg

/-! ## The options of a turn -/

/-- Words as one option. -/
def oneOption : List (Option CStr) → List LaunchOption
  | some word :: args => [⟨word, args⟩]
  | _ => []

section

variable {ω : Type} (expand : ExpandCtx → CStr → Option CStr) (env : RedEnv) (depth : Nat)
  (os : LaunchOs ω)

def hostnameOptions (node : ExpandCtx) : Option CStr → List LaunchOption
  | none => []
  | some hostname =>
    [⟨CStr.lit "--unshare-uts", []⟩, ⟨CStr.lit "--hostname", [expand node hostname]⟩]

def conftagOptions (node : ExpandCtx) (tag : RedConfTag) : List LaunchOption :=
  (capOrder (tag.capabilities.map fun cap => (cap.cap, cap.add))).map
      (fun p => ⟨capOption p.2, [some p.1]⟩) ++
    (hostnameOptions expand node tag.hostname ++ (oneOption (chdirArgs expand node tag.chdir) ++
      (oneOption (optionArgs tag.diewithparent (CStr.lit "--die-with-parent")) ++
        (oneOption (optionArgs tag.newsession (CStr.lit "--new-session")) ++
          (bwrapNamespaces tag.share).flatMap fun ns => oneOption (unshareArg tag.share ns)))))

/-- The option that some words are, if there are any. -/
def optionOf : Except Halt (List (Option CStr)) → List LaunchOption
  | .ok args => oneOption args
  | .error _ => []

/-- Each turn adds one option, but that of the section `config`. -/
def turnOptions (stack : Stack) (rs : RedwrapState ω) : Turn → List LaunchOption
  | .refuse => []
  | .crash => []
  | .exportPath exp node => optionOf (exportArgs expand os rs exp node)
  | .envvar var node => optionOf (varArgs expand env os stack rs var node)
  | .conftag tag => conftagOptions expand rs.rednode.node.ctx tag
  | .words args => oneOption (args.map some)

/-- The turns of a launch but the last one, which adds the command. -/
def sandboxTurns (node : Family) : List Turn :=
  (exportTurns expand node ++ varTurns node) ++ (conftagTurns expand node ++
    (pathTurn pathName (recordedPath env depth node fun config => config.conftag.path) ++
      pathTurn ldpathName (recordedPath env depth node fun config => config.conftag.ldpath)))

theorem launchTurns_eq (node : Family) (subargv : List CStr) :
    launchTurns expand env depth node subargv =
      sandboxTurns expand env depth node ++ [.words subargv] := by
  simp only [launchTurns, sandboxTurns, List.append_assoc]

/-- A turn whose words are an option. -/
def Turn.IsOption : Turn → Prop
  | .words args => ∃ name value, args = [CStr.lit "--setenv", name, value]
  | _ => True

end

section

variable {ω : Type} {expand : ExpandCtx → CStr → Option CStr} {env : RedEnv} {depth : Nat}
  {os : LaunchOs ω}

variable {table : List (CStr × Nat)} {args args' : List (Option CStr)} {gs gs' : List LaunchOption}

/-- Some arguments are options of a table. -/
structure Writes (table : List (CStr × Nat)) (args : List (Option CStr)) (gs : List LaunchOption) :
    Prop where
  eq : args = written gs
  among : ∀ g ∈ gs, AmongOptions table g

theorem writes_nil : Writes table [] [] := ⟨rfl, fun g hg => (by cases hg)⟩

theorem writes_one {word : CStr} (h : (word, args.length) ∈ table) :
    Writes table (some word :: args) [⟨word, args⟩] where
  eq := by simp [written, Opt.entries]
  among g hg := by
    obtain rfl := List.mem_singleton.mp hg
    exact h

theorem writes_flag {word : CStr} (h : (word, 0) ∈ table) :
    Writes table [some word] [⟨word, []⟩] := writes_one h

theorem writes_arg {word : CStr} (h : (word, 1) ∈ table) (a : Option CStr) :
    Writes table [some word, a] [⟨word, [a]⟩] := writes_one h

theorem writes_pair {word : CStr} (h : (word, 2) ∈ table) (a b : Option CStr) :
    Writes table [some word, a, b] [⟨word, [a, b]⟩] := writes_one h

theorem Writes.append (h : Writes table args gs) (h' : Writes table args' gs') :
    Writes table (args ++ args') (gs ++ gs') where
  eq := by rw [h.eq, h'.eq, written, written, written, List.flatMap_append]
  among g hg := (List.mem_append.mp hg).elim (h.among g) (h'.among g)

theorem writes_flatMap {α : Type*} {as : List α} {f : α → List (Option CStr)}
    {k : α → List LaunchOption} (h : ∀ a ∈ as, Writes table (f a) (k a)) :
    Writes table (as.flatMap f) (as.flatMap k) := by
  induction as with
  | nil => exact writes_nil
  | cons a as ih =>
    simp only [List.flatMap_cons]
    exact (h a List.mem_cons_self).append (ih fun b hb => h b (List.mem_cons_of_mem _ hb))

/-- **An export** is an option for its mount. -/
theorem writes_modeArgs (rs : RedwrapState ω) (exp : RedConfExportPath)
    (source mount : Option CStr) : Writes exportOptions (modeArgs os rs exp source mount)
      (oneOption (modeArgs os rs exp source mount)) := by
  unfold modeArgs
  cases exp.mode <;> first | exact writes_pair (by decide) _ _ | exact writes_arg (by decide) _

theorem writes_exportArgs {rs : RedwrapState ω} {exp : RedConfExportPath} {node : Family}
    (h : exportArgs expand os rs exp node = .ok args) :
    Writes exportOptions args (oneOption args) := by
  unfold exportArgs at h
  cases hstate : exportState expand os rs exp node with
  | error halt => rw [hstate] at h; cases h
  | ok state =>
    rw [hstate] at h
    cases state with
    | none => cases h; exact writes_nil
    | some rs => cases h; exact writes_modeArgs rs exp _ _

theorem writes_varArgs {stack : Stack} {rs : RedwrapState ω} {var : RedConfVar} {node : Family}
    (h : varArgs expand env os stack rs var node = .ok args) :
    Writes envOptions args (oneOption args) := by
  unfold varArgs at h
  cases hmode : var.mode with
  | static => rw [hmode] at h; cases h; exact writes_pair (by decide) _ _
  | execfd =>
    rw [hmode] at h
    cases hdup : strdup (envvarBuffer os stack rs var) envvarBufferSize with
    | none => simp only [hdup] at h; cases h
    | some value => simp only [hdup] at h; cases h; exact writes_pair (by decide) _ _
  | deflt =>
    rw [hmode] at h
    cases hvalue : var.value with
    | none => simp only [hvalue] at h; cases h
    | some value => simp only [hvalue] at h; cases h; exact writes_pair (by decide) _ _
  | remove => rw [hmode] at h; cases h; exact writes_arg (by decide) _
  | inherit => rw [hmode] at h; cases h; exact writes_pair (by decide) _ _

theorem writes_capArgs (caps : List (CStr × Int)) : Writes tagOptions (capArgs caps)
    (caps.map fun p => ⟨capOption p.2, [some p.1]⟩) := by
  rw [capArgs, List.map_eq_flatMap]
  refine writes_flatMap fun p _ => writes_arg ?_ _
  unfold capOption
  split <;> decide

theorem writes_unshareArg (shares : RedConfShare) (ns : Namespace) :
    Writes tagOptions (unshareArg shares ns) (oneOption (unshareArg shares ns)) := by
  unfold unshareArg
  split
  · cases ns <;> exact writes_flag (by decide)
  · cases ns <;> exact writes_flag (by decide)
  · cases ns with
    | net => exact writes_flag (by decide)
    | _ => exact writes_nil
  · exact writes_nil

theorem writes_conftagArgs (node : ExpandCtx) (tag : RedConfTag) :
    Writes tagOptions (conftagArgs expand node tag) (conftagOptions expand node tag) := by
  refine (writes_capArgs _).append (Writes.append ?_ (Writes.append ?_ (Writes.append ?_
    (Writes.append ?_ (writes_flatMap fun ns _ => writes_unshareArg tag.share ns)))))
  · cases tag.hostname with
    | none => exact writes_nil
    | some hostname => exact (writes_flag (by decide)).append (writes_arg (by decide) _)
  · cases tag.chdir with
    | none => exact writes_nil
    | some chdir => exact writes_arg (by decide) _
  · unfold optionArgs
    split
    · exact writes_flag (by decide)
    · exact writes_nil
  · unfold optionArgs
    split
    · exact writes_flag (by decide)
    · exact writes_nil

/-- The options that a turn can give. -/
def Turn.options : Turn → List (CStr × Nat)
  | .exportPath _ _ => exportOptions
  | .envvar _ _ => envOptions
  | .conftag _ => tagOptions
  | .words _ => envOptions
  | _ => []

/-- **The options of a turn** are what it adds to the arguments. -/
theorem turnOptions_spec {stack : Stack} {rs : RedwrapState ω} {t : Turn} (hopt : t.IsOption)
    (h : turnArgs expand env os stack rs t = .ok args) :
    Writes t.options args (turnOptions expand env os stack rs t) := by
  cases t with
  | conftag tag =>
    cases h
    exact writes_conftagArgs _ tag
  | refuse => cases h; exact writes_nil
  | crash => cases h
  | exportPath exp node =>
    have hargs : exportArgs expand os rs exp node = .ok args := h
    rw [turnOptions, hargs]
    exact writes_exportArgs hargs
  | envvar var node =>
    have hargs : varArgs expand env os stack rs var node = .ok args := h
    rw [turnOptions, hargs]
    exact writes_varArgs hargs
  | words words =>
    obtain ⟨name, value, rfl⟩ := hopt
    cases h
    have hmem : (CStr.lit "--setenv", 2) ∈ envOptions := by decide
    exact writes_pair hmem _ _

end

/-! ## The options of a launch -/

section

variable {ω : Type} {os : ExecOs ω} {creds : Credentials}
  {expand : ExpandCtx → CStr → Option CStr} {env : RedEnv} {depth : Nat} {commandName : CStr}
  {cliarg : RWrapConfig} {subargv : List CStr} {rednode : Family} {o : ω} {stack : Stack}
  {exec : Exec}

variable (os creds expand env depth commandName cliarg rednode o stack) in
/-- The options of a launch, as far as it gets. -/
def launchOptions : List LaunchOption :=
  gathered (launchTurn expand env (os.launchOs creds))
    (turnOptions expand env (os.launchOs creds)) stack
    (.start commandName cliarg.strict cliarg.dump o rednode) (sandboxTurns expand env depth rednode)

/-- The turn gives options of a table only. -/
def Turn.GivesOnly (t : Turn) (table : List (CStr × Nat)) : Prop :=
  t.IsOption ∧ ∀ p ∈ t.options, p ∈ table

theorem Turn.GivesOnly.mono {t : Turn} {table table' : List (CStr × Nat)} (h : t.GivesOnly table)
    (hsub : ∀ p ∈ table, p ∈ table') : t.GivesOnly table' := ⟨h.1, fun p hp => hsub p (h.2 p hp)⟩

theorem givesOnly_refuse (table : List (CStr × Nat)) : Turn.refuse.GivesOnly table :=
  ⟨trivial, fun _ hp => (by cases hp)⟩

theorem givesOnly_crash (table : List (CStr × Nat)) : Turn.crash.GivesOnly table :=
  ⟨trivial, fun _ hp => (by cases hp)⟩

theorem pathTurn_givesOnly (name : CStr) (out : PathsOutcome (List CStr)) :
    ∀ t ∈ pathTurn name out, t.GivesOnly envOptions := by
  intro t ht
  unfold pathTurn at ht
  split at ht
  · obtain rfl := List.mem_singleton.mp ht
    exact ⟨⟨name, _, rfl⟩, fun _ hp => hp⟩
  · split at ht
    · obtain rfl := List.mem_singleton.mp ht
      exact givesOnly_refuse _
    · cases ht
  · obtain rfl := List.mem_singleton.mp ht
    exact givesOnly_crash _
  · obtain rfl := List.mem_singleton.mp ht
    exact givesOnly_crash _

theorem exportTurns_givesOnly (node : Family) :
    ∀ t ∈ exportTurns expand node, t.GivesOnly exportOptions := by
  intro t ht
  unfold exportTurns at ht
  split at ht
  · split at ht
    · obtain rfl := List.mem_singleton.mp ht
      exact givesOnly_refuse _
    · obtain ⟨p, -, rfl⟩ := List.mem_map.mp ht
      exact ⟨trivial, fun _ hp => hp⟩
  · split at ht <;> obtain rfl := List.mem_singleton.mp ht
    · exact givesOnly_refuse _
    · exact givesOnly_crash _

theorem varTurns_givesOnly (node : Family) : ∀ t ∈ varTurns node, t.GivesOnly envOptions := by
  intro t ht
  unfold varTurns at ht
  split at ht
  · obtain rfl := List.mem_singleton.mp ht
    exact givesOnly_refuse _
  · obtain ⟨l, -, rfl⟩ := List.mem_map.mp ht
    exact ⟨trivial, fun _ hp => hp⟩

theorem conftagTurns_givesOnly (node : Family) :
    ∀ t ∈ conftagTurns expand node, t.GivesOnly tagOptions := by
  intro t ht
  unfold conftagTurns at ht
  split at ht <;> obtain rfl := List.mem_singleton.mp ht
  · exact givesOnly_refuse _
  · exact ⟨trivial, fun _ hp => hp⟩

theorem sandboxTurns_givesOnly (node : Family) :
    ∀ t ∈ sandboxTurns expand env depth node, t.GivesOnly bwrapOptions := by
  have hexport : ∀ p ∈ exportOptions, p ∈ bwrapOptions := fun p => List.mem_append_left _
  have henv : ∀ p ∈ envOptions, p ∈ bwrapOptions := fun p hp =>
    List.mem_append_right _ (List.mem_append_left _ hp)
  have htag : ∀ p ∈ tagOptions, p ∈ bwrapOptions := fun p hp =>
    List.mem_append_right _ (List.mem_append_right _ hp)
  intro t ht
  simp only [sandboxTurns, List.mem_append] at ht
  rcases ht with (ht | ht) | ht | ht | ht
  · exact (exportTurns_givesOnly node t ht).mono hexport
  · exact (varTurns_givesOnly node t ht).mono henv
  · exact (conftagTurns_givesOnly node t ht).mono htag
  · exact (pathTurn_givesOnly _ _ t ht).mono henv
  · exact (pathTurn_givesOnly _ _ t ht).mono henv

theorem launchTurn_writes {los : LaunchOs ω} {rs rs' : RedwrapState ω} {t : Turn}
    (hconf : t.Configured) (hopt : t.IsOption)
    (h : launchTurn expand env los stack rs t = .ok rs') :
    ∃ args, rs'.argval = rs.argval ++ args ∧
      Writes t.options args (turnOptions expand env los stack rs t) := by
  have hrefuse : t ≠ .refuse := fun heq => by
    subst heq
    cases h
  have hspec := launchTurn_spec expand env los stack rs hconf hrefuse
  rw [h] at hspec
  cases hargs : turnArgs expand env los stack rs t with
  | error halt =>
    rw [hargs] at hspec
    cases hspec with
    | halts halt hx => cases hx
  | ok args =>
    rw [hargs] at hspec
    cases hspec with
    | adds args _ happ _ => exact ⟨args, (happ rs' rfl).1, turnOptions_spec hopt hargs⟩

theorem among_turnOptions {los : LaunchOs ω} {rs : RedwrapState ω} {t : Turn}
    (hopt : t.IsOption) :
    ∀ g ∈ turnOptions expand env los stack rs t, AmongOptions t.options g := by
  cases hargs : turnArgs expand env los stack rs t with
  | ok args => exact (turnOptions_spec hopt hargs).among
  | error halt =>
    cases t with
    | exportPath exp node =>
      have hexport : exportArgs expand los rs exp node = .error halt := hargs
      rw [turnOptions, hexport]
      exact fun g hg => (by cases hg)
    | envvar var node =>
      have hvar : varArgs expand env los stack rs var node = .error halt := hargs
      rw [turnOptions, hvar]
      exact fun g hg => (by cases hg)
    | crash => exact fun g hg => (by cases hg)
    | refuse => cases hargs
    | conftag tag => cases hargs
    | words args => cases hargs

theorem among_gathered {los : LaunchOs ω} {rs : RedwrapState ω} {as : List Turn}
    {table : List (CStr × Nat)} (h : ∀ t ∈ as, t.GivesOnly table) :
    ∀ g ∈ gathered (launchTurn expand env los) (turnOptions expand env los) stack rs as,
      AmongOptions table g := by
  intro g hg
  obtain ⟨t, ht, s, hout⟩ := Layered.mem_gathered _ _ _ hg
  exact (h t ht).2 _ (among_turnOptions (h t ht).1 g hout)

/-- What `execve` is called with. -/
theorem redwrapExec_collected
    (h : redwrapExec os creds expand env depth commandName cliarg subargv rednode o stack =
      .ok exec) :
    ∃ rs, collectArguments expand env depth (os.launchOs creds) commandName cliarg.strict
        cliarg.dump subargv rednode o stack = .ok rs ∧ exec.file = cliarg.bwrap ∧
      exec.argv.entries = rs.argval ++ [none] ∧ exec.environ = rs.environ := by
  obtain ⟨rs, hcollect, hrest⟩ := except_bind_eq_ok.mp h
  obtain ⟨rs', hdump, hchild⟩ := except_bind_eq_ok.mp hrest
  obtain ⟨o', -, hexec⟩ := except_bind_eq_ok.mp hchild
  obtain ⟨rfl, -⟩ := dumpCall_ok (mapError_eq_ok.mp hdump)
  refine ⟨rs', mapError_eq_ok.mp hcollect, ?_⟩
  unfold execArgval at hexec
  split at hexec
  · rename_i argv hpush
    cases hexec
    exact ⟨rfl, Layered.Filled.push_eq_some hpush, rfl⟩
  · cases hexec

theorem launchTurn_words {rs rs' : RedwrapState ω}
    (h : launchTurn expand env (os.launchOs creds) stack rs (.words subargv) = .ok rs') :
    rs'.argval = rs.argval ++ subargv.map some ∧ rs'.environ = rs.environ := by
  have hspec := launchTurn_spec expand env (os.launchOs creds) stack rs (t := .words subargv)
    trivial (fun heq => by cases heq)
  rw [h] at hspec
  cases hspec with
  | adds args _ happ _ =>
    refine ⟨(happ rs' rfl).1, ?_⟩
    show rs'.bare.environ = rs.bare.environ
    rw [launchTurn_bare h]
    rfl

/-- A launch that comes to `execve` has gone through its turns. -/
theorem redwrapExec_ok (hconfigs : ∀ f ∈ rednode.toRoot, f.node.config ≠ none)
    (h : redwrapExec os creds expand env depth commandName cliarg subargv rednode o stack =
      .ok exec) :
    ∃ rs, turns (launchTurn expand env (os.launchOs creds)) stack
        (.start commandName cliarg.strict cliarg.dump o rednode)
        (sandboxTurns expand env depth rednode) = .ok rs ∧
      exec.argv.entries = rs.argval ++ (subargv.map some ++ [none]) ∧
      exec.environ = rs.environ := by
  obtain ⟨rs', hcollect, -, hentries, henviron⟩ := redwrapExec_collected h
  rw [collectArguments_eq expand env depth _ hconfigs, launchTurns_eq,
    Layered.turns_append] at hcollect
  cases hrun : turns (launchTurn expand env (os.launchOs creds)) stack
      (.start commandName cliarg.strict cliarg.dump o rednode)
      (sandboxTurns expand env depth rednode) with
  | error stop => rw [hrun] at hcollect; cases hcollect
  | ok rs =>
    rw [hrun] at hcollect
    simp only [turns_one] at hcollect
    obtain ⟨hargval, hkept⟩ := launchTurn_words hcollect
    exact ⟨rs, rfl, by rw [hentries, hargval, List.append_assoc], henviron.trans hkept⟩

/-- **The arguments** are the name of the command, the options of the launch, and the command. -/
theorem redwrapExec_entries (hconfigs : ∀ f ∈ rednode.toRoot, f.node.config ≠ none)
    (h : redwrapExec os creds expand env depth commandName cliarg subargv rednode o stack =
      .ok exec) :
    exec.argv.entries = some commandName :: (written (launchOptions os creds expand env depth
      commandName cliarg rednode o stack) ++ (subargv.map some ++ [none])) := by
  obtain ⟨rs, hrun, hentries, -⟩ := redwrapExec_ok hconfigs h
  have happ : ∀ t ∈ sandboxTurns expand env depth rednode, ∀ s s' : RedwrapState ω,
      launchTurn expand env (os.launchOs creds) stack s t = .ok s' →
      s'.argval = s.argval ++
        (turnOptions expand env (os.launchOs creds) stack s t).flatMap Opt.entries := by
    intro t ht s s' hstep
    have hconf : t.Configured := launchTurns_configured expand env depth hconfigs subargv t
      (launchTurns_eq expand env depth rednode subargv ▸ List.mem_append_left _ ht)
    obtain ⟨args, hargs, hwrites⟩ :=
      launchTurn_writes hconf (sandboxTurns_givesOnly rednode t ht).1 hstep
    rw [hargs, hwrites.eq]
    rfl
  have hshown := Layered.turns_gathered _ _ _ happ hrun
  rw [hentries, hshown]
  rfl

/-! ## What is read from the arguments -/

/-- The options that a reader finds in the arguments, and the command behind them; or the option
that misses arguments, at which it stops. -/
def argvReads (arity : CStr → Option Nat) (exec : Exec) :
    Except CStr (List (Opt CStr CStr) × List CStr) :=
  readOpts arity (seen exec.argv.entries).tail

theorem seen_command (subargv : List CStr) : seen (subargv.map some ++ [none]) = subargv := by
  have hpresent : none ∉ subargv.map some := by simp
  rw [Layered.seen_append_of_present hpresent, Layered.seen_map_some]
  exact List.append_nil _

/-- The options of the launch are read with their arguments, and then the words of the command; when
an argument is NULL, the reader stops at an option that misses it. -/
structure ReadsBack (arity : CStr → Option Nat) (exec : Exec) (gs : List LaunchOption)
    (command : List CStr) : Prop where
  among : ∀ g ∈ gs, AmongOptions bwrapOptions g
  whole : (∀ g ∈ gs, none ∉ g.args) → argvReads arity exec =
    (readOpts arity command).map fun r => (gs.map Opt.plain ++ r.1, r.2)
  cut : (∃ g ∈ gs, none ∈ g.args) → ∃ g ∈ gs, none ∈ g.args ∧
    argvReads arity exec = .error g.word

theorem redwrapExec_reads (hconfigs : ∀ f ∈ rednode.toRoot, f.node.config ≠ none)
    {arity : CStr → Option Nat} (hknows : Knows arity)
    (h : redwrapExec os creds expand env depth commandName cliarg subargv rednode o stack =
      .ok exec) :
    ReadsBack arity exec
      (launchOptions os creds expand env depth commandName cliarg rednode o stack) subargv := by
  have hamong : ∀ g ∈ launchOptions os creds expand env depth commandName cliarg rednode o stack,
    AmongOptions bwrapOptions g := among_gathered (sandboxTurns_givesOnly rednode)
  have hreads : argvReads arity exec = readOpts arity (seen (written (launchOptions os creds expand
      env depth commandName cliarg rednode o stack) ++ (subargv.map some ++ [none]))) := by
    rw [argvReads, redwrapExec_entries hconfigs h]
    rfl
  refine ⟨hamong, fun hpresent => ?_, fun hcut => ?_⟩
  · rw [hreads, Layered.readOpts_written (fun g hg => (hamong g hg).fits hknows) hpresent,
      seen_command]
  · rw [hreads]
    exact Layered.readOpts_cut (fun g hg => (hamong g hg).fits hknows) hcut _

/-- What is read when no argument is missing, and the command does not start with an option. -/
theorem ReadsBack.ok {arity : CStr → Option Nat} {gs : List LaunchOption} {command : List CStr}
    (h : ReadsBack arity exec gs command) (hplain : readOpts arity command = .ok ([], command))
    {got : List (Opt CStr CStr)} {rest : List CStr}
    (hread : argvReads arity exec = .ok (got, rest)) :
    (∀ g ∈ gs, none ∉ g.args) ∧ got = gs.map Opt.plain ∧ rest = command := by
  by_cases hcut : ∃ g ∈ gs, none ∈ g.args
  · obtain ⟨g, -, -, herror⟩ := h.cut hcut
    rw [herror] at hread
    cases hread
  · have hpresent : ∀ g ∈ gs, none ∉ g.args := fun g hg hnone => hcut ⟨g, hg, hnone⟩
    rw [h.whole hpresent, hplain] at hread
    cases hread
    exact ⟨hpresent, List.append_nil _, rfl⟩

/-- What is run in the end: `redmicrodnf` itself, or a program from whose arguments the options of
the launch of the node are read. The command of `redwrap` is what its own options have left; that of
`redwrap-dnf` has no options. -/
def ReadsOptions (os : ExecOs ω) (creds : Credentials) (expand : ExpandCtx → CStr → Option CStr)
    (env : RedEnv) (depth : Nat) (getopt : List CStr → Getopt) (name : CStr) (args : List CStr)
    (rednode : Family) (o : ω) (stack : Stack) (arity : CStr → Option Nat) (exec : Exec) :
    Command → Prop
  | .redwrap => ∃ cliarg, rwrapParseArgs getopt (name :: args) = .ok cliarg ∧
      ReadsBack arity exec
        (launchOptions os creds expand env depth name cliarg.toRWrapConfig rednode o stack)
        ((getopt (name :: args)).argv.drop cliarg.index)
  | .redwrapDnf => ∃ position redcmd,
      findRedmicrodnfCmd (name :: args) = some (position, redcmd) ∧
      if redcmd.outnode then exec.file = some redmicrodnfCmdPath
      else ∃ cliarg, rwrapParseArgs getopt ((name :: args).take position) = .ok cliarg ∧
        ReadsBack arity exec
          (launchOptions os creds expand env depth (CStr.lit "--") (bwrapConfig cliarg) rednode o
            stack) (bwrapSubargv (name :: args) cliarg) ∧
        readOpts arity (bwrapSubargv (name :: args) cliarg) =
          .ok ([], bwrapSubargv (name :: args) cliarg)

theorem execBwrap_reads {getopt : List CStr → Getopt} {argv : List CStr} {position : Nat}
    (hconfigs : ∀ f ∈ rednode.toRoot, f.node.config ≠ none)
    {arity : CStr → Option Nat} (hknows : Knows arity)
    (h : execBwrap os creds expand env depth getopt argv position rednode o stack = .ok exec) :
    ∃ cliarg, rwrapParseArgs getopt (argv.take position) = .ok cliarg ∧
      ReadsBack arity exec (launchOptions os creds expand env depth (CStr.lit "--")
        (bwrapConfig cliarg) rednode o stack) (bwrapSubargv argv cliarg) := by
  obtain ⟨subargv, hsub, hrest⟩ := except_bind_eq_ok.mp h
  obtain ⟨cliarg, hparse, hrest⟩ := except_bind_eq_ok.mp hrest
  obtain ⟨subargv', hsub', hexec⟩ := except_bind_eq_ok.mp hrest
  have hfirst : subargv.entries = argv.take position := storeAll_ok hsub
  have hcommand : subargv'.entries = bwrapSubargv argv cliarg := storeAll_ok hsub'
  exact ⟨cliarg, hfirst ▸ hparse, hcommand ▸ redwrapExec_reads hconfigs hknows hexec⟩

/-- **No value is an option.** Whatever the configs, the environment, the commands and the system
put into the arguments, what is read from them are the options of the launch with these arguments,
then the options at the start of the command, and nothing else; with a NULL among them, the reader
stops there. No word of the command line of `redwrap-dnf` is read as an option. -/
theorem main_reads {getopt : List CStr → Getopt} {name : CStr} {args : List CStr}
    (hconfigs : ∀ f ∈ rednode.toRoot, f.node.config ≠ none)
    {arity : CStr → Option Nat} (hknows : Knows arity) (hends : arity (CStr.lit "--") = none)
    {command : Command}
    (h : command.main os creds expand env depth getopt name args rednode o stack = .ok exec) :
    ReadsOptions os creds expand env depth getopt name args rednode o stack arity exec command := by
  cases command with
  | redwrap =>
    obtain ⟨cliarg, hparse, hexec⟩ := except_bind_eq_ok.mp (mapError_eq_ok.mp h)
    exact ⟨cliarg, hparse, redwrapExec_reads hconfigs hknows hexec⟩
  | redwrapDnf =>
    unfold Command.main redwrapDnfMain at h
    cases hfind : findRedmicrodnfCmd (name :: args) with
    | none => rw [hfind] at h; cases h
    | some found =>
      obtain ⟨position, redcmd⟩ := found
      rw [hfind] at h
      have hrun := mapError_eq_ok.mp h
      refine ⟨position, redcmd, hfind, ?_⟩
      split at hrun
      · rename_i hout
        rw [if_pos hout]
        obtain ⟨subargv, -, hrest⟩ := except_bind_eq_ok.mp hrun
        split at hrest
        · obtain ⟨_, -, hrest⟩ := except_bind_eq_ok.mp hrest
          obtain ⟨_, -, hrest⟩ := except_bind_eq_ok.mp hrest
          cases hrest
          rfl
        · cases hrest
      · rename_i hout
        rw [if_neg hout]
        obtain ⟨cliarg, hparse, hreads⟩ := execBwrap_reads hconfigs hknows hrun
        exact ⟨cliarg, hparse, hreads, Layered.readOpts_stop arity hends _⟩

end

/-! ## A value that looks like an option -/

/-- A reader that has these options only. -/
def plainBwrap (word : CStr) : Option Nat := (bwrapOptions.find? fun p => p.1 = word).map (·.2)

theorem knows_plainBwrap : Knows plainBwrap := by
  unfold Knows plainBwrap
  decide +kernel

def usrExport : RedConfExportPath := { mount := CStr.lit "/usr", mode := .exportPublic }

def shareExport : RedConfExportPath := { mount := CStr.lit "/usr/share", mode := .exportRestricted }

def langVar : RedConfVar := { key := CStr.lit "LANG", mode := .static, value := CStr.lit "C" }

/-- The value looks like an option. -/
def titleVar : RedConfVar :=
  { key := CStr.lit "TITLE", mode := .static, value := CStr.lit "--bind" }

def homeRoot : Family where
  node := {
    config := some {
      headers := { nodeAlias := CStr.lit "root" }
      exports := [usrExport]
      confvar := [langVar] }
    redpath := CStr.lit "/root" }

def homeLeaf : Family := homeRoot.child {
  config := some {
    headers := { nodeAlias := CStr.lit "leaf" }
    exports := [shareExport]
    confvar := [titleVar] }
  redpath := CStr.lit "/root/leaf" }

theorem sandboxTurns_homeLeaf : sandboxTurns expandPlain silentEnv 1 homeLeaf =
    [.exportPath usrExport homeRoot, .exportPath shareExport homeLeaf, .envvar langVar homeRoot,
      .envvar titleVar homeLeaf, .conftag (mergedTag expandPlain homeLeaf)] := by
  have hcomp : (mixExp expandPlain).Comparable homeLeaf := by decide
  have hexports : exportTurns expandPlain homeLeaf =
      [.exportPath usrExport homeRoot, .exportPath shareExport homeLeaf] := by
    obtain ⟨ls, hls⟩ : ∃ ls, (mixExpLaw expandPlain).links homeLeaf = some ls := ⟨_, rfl⟩
    rw [exportTurns, if_pos hcomp, (delivered_of_accepted expandPlain hcomp hls).1]
    cases hls
    rfl
  have haccepted : ¬ (sharesRefused homeLeaf ∨ capsRefused homeLeaf) := by
    rw [capsRefused_iff_links]
    decide
  have hvars : varTurns homeLeaf = [.envvar langVar homeRoot, .envvar titleVar homeLeaf] := rfl
  have hpaths : ∀ getpath ∈ [fun config : RedConfig => config.conftag.path,
      fun config => config.conftag.ldpath],
      recordedPath silentEnv 1 homeLeaf getpath = .ret 0 [] := by
    intro getpath h
    rcases List.mem_pair.mp h with rfl | rfl <;> rfl
  rw [sandboxTurns, hexports, hvars, conftagTurns, if_neg haccepted,
    hpaths _ List.mem_cons_self, hpaths _ (List.mem_cons_of_mem _ List.mem_cons_self)]
  rfl

/-- What `redwrap` makes of `--redpath=/leaf -- sh`. -/
def homeArgs : ParsedArgs where
  redpath := CStr.lit "/leaf"
  bwrap := bwrapCmdPath
  index := 3
  hasRedpath := rfl

def homeArgv : List (Option CStr) := ["redwrap", "--bind", "/usr", "/usr", "--ro-bind",
  "/usr/share", "/usr/share", "--setenv", "LANG", "C", "--setenv", "TITLE", "--bind",
  "--unshare-user", "--unshare-cgroup", "--unshare-ipc", "--unshare-pid", "--unshare-net",
  "sh"].map (fun word => some (CStr.lit word)) ++ [none]

theorem launch_homeLeaf : ∃ exec, redwrapExec readyOs leafCreds expandPlain silentEnv 1
    (CStr.lit "redwrap") homeArgs.toRWrapConfig [CStr.lit "sh"] homeLeaf () clearStack =
      .ok exec ∧ exec.argv.entries = homeArgv := by
  rw [redwrapExec, collectArguments_eq expandPlain silentEnv 1 _ (by decide), launchTurns_eq,
    sandboxTurns_homeLeaf]
  exact ⟨_, rfl, rfl⟩

theorem main_reads_homeLeaf : ∃ exec, Command.redwrap.main readyOs leafCreds expandPlain silentEnv 1
      leafGetopt (CStr.lit "redwrap") (leafArgs [CStr.lit "sh"]) homeLeaf () clearStack = .ok exec ∧
    ReadsOptions readyOs leafCreds expandPlain silentEnv 1 leafGetopt (CStr.lit "redwrap")
      (leafArgs [CStr.lit "sh"]) homeLeaf () clearStack plainBwrap exec .redwrap := by
  obtain ⟨exec, hexec, -⟩ := launch_homeLeaf
  have hparse : rwrapParseArgs leafGetopt (CStr.lit "redwrap" :: leafArgs [CStr.lit "sh"]) =
      .ok homeArgs := rfl
  have hmain : Command.redwrap.main readyOs leafCreds expandPlain silentEnv 1 leafGetopt
      (CStr.lit "redwrap") (leafArgs [CStr.lit "sh"]) homeLeaf () clearStack = .ok exec :=
    mapError_eq_ok.mpr (except_bind_eq_ok.mpr ⟨homeArgs, hparse, hexec⟩)
  exact ⟨exec, hmain, main_reads (by decide) knows_plainBwrap (by decide) hmain⟩

end Wrap
end RedPak
