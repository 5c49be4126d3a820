import RedPak.Wrap.Launch
import RedPak.Layered.Turns

/-!
# Wrap.LaunchTurns

The launch as a run of turns: one for each export and variable that is delivered, one for the
section `config`, one for each path, and one for the command.

* `launchTurn_spec`: what a turn adds to the arguments.
* `redwrapExecBwrap_eq`: the launch goes through the turns of its rednode.
-/

namespace RedPak
namespace Wrap

open Conf
open Layered (Buffer turns)
open Layered.Buffer (slice writeAll)

variable {ω : Type}

/-! ## What is added -/

/-- Some arguments are added, or the process exits because there are too many. -/
structure Emits (x : Except Halt (RedwrapState ω)) (rs : RedwrapState ω)
    (args : List (Option CStr)) : Prop where
  stops : ∀ halt, x = .error halt → halt = .exit
  appended : ∀ rs', x = .ok rs' → rs'.argval = rs.argval ++ args ∧ rs'.rednode = rs.rednode
  ends : (∃ rs', x = .ok rs') ↔ rs.argval.length + args.length ≤ maxBwrapArgs

theorem addAll_error {values : List (Option CStr)} : ∀ {rs : RedwrapState ω} {halt : Halt},
    addAll rs values = .error halt → halt = .exit := by
  induction values with
  | nil => intro rs halt h; cases h
  | cons value values ih =>
    intro rs halt h
    rw [addAll] at h
    cases hadd : add rs value with
    | ok rs₁ => rw [hadd] at h; exact ih h
    | error halt' =>
      rw [hadd, Except.error.injEq] at h
      subst h
      unfold add at hadd
      split at hadd <;> cases hadd
      rfl

theorem emits_addAll (rs : RedwrapState ω) (args : List (Option CStr)) :
    Emits (addAll rs args) rs args := by
  refine ⟨fun halt h => addAll_error h, fun rs' h => ?_, ?_⟩
  · obtain ⟨_, rfl⟩ := addAll_ok h
    exact ⟨rfl, rfl⟩
  constructor
  · rintro ⟨rs', h⟩
    obtain ⟨hle, -⟩ := addAll_ok h
    rwa [List.length_append] at hle
  · intro h
    exact addAll_of_fit h

theorem emits_nil (rs : RedwrapState ω) : Emits (.ok rs) rs [] := emits_addAll rs []

theorem Emits.from {x : Except Halt (RedwrapState ω)} {rs rs' : RedwrapState ω}
    {args : List (Option CStr)} (h : Emits x rs' args) (harg : rs'.argval = rs.argval)
    (hnode : rs'.rednode = rs.rednode) : Emits x rs args :=
  ⟨h.stops, harg ▸ hnode ▸ h.appended, harg ▸ h.ends⟩

theorem Emits.bind {x : Except Halt (RedwrapState ω)} {rs : RedwrapState ω}
    {f : RedwrapState ω → Except Halt (RedwrapState ω)} {args args' : List (Option CStr)}
    (hx : Emits x rs args)
    (hf : ∀ rs', x = .ok rs' → rs'.rednode = rs.rednode → Emits (f rs') rs' args') :
    Emits (x >>= f) rs (args ++ args') := by
  cases h : x with
  | error halt =>
    refine ⟨fun halt' h' => ?_, fun rs' h' => (by cases h'), ?_⟩
    · cases h'
      exact hx.stops halt h
    · refine ⟨fun ⟨rs', h'⟩ => (by cases h'), fun hlen => ?_⟩
      rw [List.length_append] at hlen
      obtain ⟨rs', h'⟩ := hx.ends.mpr (by omega)
      rw [h] at h'
      cases h'
  | ok rs₁ =>
    obtain ⟨harg, hnode⟩ := hx.appended rs₁ h
    have hnext := hf rs₁ h hnode
    have hrun : (Except.ok rs₁ >>= f) = f rs₁ := rfl
    rw [hrun]
    refine ⟨hnext.stops, fun rs' h' => ?_, ?_⟩
    · obtain ⟨harg', hnode'⟩ := hnext.appended rs' h'
      rw [harg', harg, List.append_assoc, hnode']
      exact ⟨rfl, hnode⟩
    · rw [hnext.ends, harg, List.length_append, List.length_append, Nat.add_assoc]

section

variable (expand : ExpandCtx → CStr → Option CStr) (env : RedEnv) (depth : Nat)
  (os : LaunchOs ω)

/-! ### Exports -/

/-- What an export adds, once it is known to be mounted. -/
def modeArgs (rs : RedwrapState ω) (exp : RedConfExportPath) (source mount : Option CStr) :
    List (Option CStr) :=
  match exp.mode with
  | .exportPrivate | .exportPublic | .exportPrivateFile | .exportPublicFile =>
    [CStr.lit "--bind", source, mount]
  | .exportRestrictedFile | .exportRestricted | .exportPrivateRestricted =>
    [CStr.lit "--ro-bind", source, mount]
  | .exportSymlink => [CStr.lit "--symlink", source, mount]
  | .exportExecfd =>
    [CStr.lit "--file",
      CStr.decimal (os.memFdExecCmd rs.os exp.mount (exp.path.getD exp.mount)).1, mount]
  | .exportInternal => [CStr.lit "--file", source, mount]
  | .exportAnonymous => [CStr.lit "--dir", mount]
  | .exportTmpfs => [CStr.lit "--tmpfs", mount]
  | .exportDevfs => [CStr.lit "--dev", mount]
  | .exportProcfs => [CStr.lit "--proc", mount]
  | .exportMquefs => [CStr.lit "--mqueue", mount]
  | .exportLock => [CStr.lit "--lock-file", mount]

theorem emits_emitExport (rs : RedwrapState ω) (exp : RedConfExportPath)
    (source mount : Option CStr) :
    Emits (emitExport os.toRedOs rs exp.mode exp.mount (exp.path.getD exp.mount) source mount) rs
      (modeArgs os rs exp source mount) := by
  unfold emitExport modeArgs
  cases exp.mode with
  | exportExecfd => exact (emits_addAll _ _).from rfl rfl
  | _ => exact emits_addAll rs _

/-- The source of an export, in the context of its node. -/
def exportSource (exp : RedConfExportPath) (node : Family) : Option CStr :=
  expand node.node.ctx (exp.path.getD exp.mount)

/-- `mode & RED_EXPORT_DIRS`, `mode & RED_EXPORT_FILES` -/
def isDirMode (mode : RedExportFlag) : Bool := mode.bits &&& redExportDirs != 0
def isFileMode (mode : RedExportFlag) : Bool := mode.bits &&& redExportFiles != 0

/-- The state in which an export is mounted, if it is. -/
def exportState (rs : RedwrapState ω) (exp : RedConfExportPath) (node : Family) :
    Except Halt (Option (RedwrapState ω)) :=
  if exp.mode.isPrivate ∧ node ≠ rs.rednode then .ok none
  else if isDirMode exp.mode then
    match checkDirectory os.toRedOs rs (exportSource expand exp node) with
    | .error halt => .error halt
    | .ok (err, rs) => .ok (if err ≠ 0 then none else some rs)
  else if isFileMode exp.mode ∧ os.stat rs.os (exportSource expand exp node) ≥ 0 then
    .ok none
  else .ok (some rs)

def exportArgs (rs : RedwrapState ω) (exp : RedConfExportPath) (node : Family) :
    Except Halt (List (Option CStr)) :=
  match exportState expand os rs exp node with
  | .error halt => .error halt
  | .ok none => .ok []
  | .ok (some rs) =>
    .ok (modeArgs os rs exp (exportSource expand exp node) (mountIn expand node exp))

/-- What a computation does that adds these arguments, or stops. -/
def Does (x : Except Halt (RedwrapState ω)) (rs : RedwrapState ω) :
    Except Halt (List (Option CStr)) → Prop
  | .error halt => x = .error halt
  | .ok args => Emits x rs args

theorem checkDirectory_keeps {rs rs' : RedwrapState ω} {source : Option CStr} {err : Int}
    (h : checkDirectory os.toRedOs rs source = .ok (err, rs')) :
    rs' = { rs with os := rs'.os } := by
  simp only [checkDirectory] at h
  by_cases hmissing : os.stat rs.os source ≠ 0 ∧ rs.strict = false
  · rw [if_pos hmissing] at h
    by_cases hdump : rs.dump > 1
    · rw [if_pos hdump] at h
      cases h
      rfl
    · rw [if_neg hdump] at h
      cases source with
      | none => cases h
      | some p => cases h; rfl
  · rw [if_neg hmissing] at h
    cases h
    rfl

theorem setOneExport_does (rs : RedwrapState ω) (exp : RedConfExportPath) {node : Family}
    (hconfig : node.node.config ≠ none) :
    Does (setOneExport expand os.toRedOs rs exp node) rs (exportArgs expand os rs exp node) := by
  obtain ⟨config, hconfig⟩ := Option.ne_none_iff_exists'.mp hconfig
  have hwarn : ∀ (rs' : RedwrapState ω) (format : String) (path : CStr),
      rs'.argval = rs.argval → rs'.rednode = rs.rednode →
        Emits (warnExport os.toRedOs rs' node format path) rs [] := by
    intro rs' format path harg hnode
    rw [warnExport, hconfig]
    exact (emits_nil _).from harg hnode
  unfold setOneExport exportArgs exportState
  by_cases hskip : exp.mode.isPrivate = true ∧ node ≠ rs.rednode
  · simp only [if_pos hskip]
    exact emits_nil rs
  · simp only [if_neg hskip]
    by_cases hdir : exp.mode.bits &&& redExportDirs ≠ 0
    · have hdir' : isDirMode exp.mode = true := by simpa [isDirMode] using hdir
      simp only [if_pos hdir, if_pos hdir', exportSource]
      cases hcheck : checkDirectory os.toRedOs rs
          (expand node.node.ctx (exp.path.getD exp.mount)) with
      | error halt => rfl
      | ok checked =>
        obtain ⟨err, rs'⟩ := checked
        have hkeeps := checkDirectory_keeps os hcheck
        have harg : rs'.argval = rs.argval := hkeeps ▸ rfl
        have hnode : rs'.rednode = rs.rednode := hkeeps ▸ rfl
        by_cases herr : err ≠ 0
        · simp only [if_pos herr]
          exact hwarn rs' _ _ harg hnode
        · simp only [if_neg herr]
          exact (emits_emitExport os rs' exp _ _).from harg hnode
    · have hdir' : ¬ isDirMode exp.mode = true := by
        simpa [isDirMode] using hdir
      have hfile : (isFileMode exp.mode = true ∧
          os.stat rs.os (exportSource expand exp node) ≥ 0) ↔
          (exp.mode.bits &&& redExportFiles ≠ 0 ∧
            os.stat rs.os (expand node.node.ctx (exp.path.getD exp.mount)) ≥ 0) := by
        simp [isFileMode, exportSource]
      simp only [if_neg hdir, if_neg hdir', hfile]
      split
      · exact hwarn rs _ _ rfl rfl
      · exact emits_emitExport os rs exp _ _

/-! ### Variables -/

/-- The buffer of a variable after its command was run. -/
def envvarBuffer (stack : Stack) (rs : RedwrapState ω) (var : RedConfVar) : Buffer UInt8 :=
  (execCmd os rs var.key (var.value.getD (CStr.lit "")) (stack.envvar rs.argval.length)
    envvarBufferSize).2.1

def varArgs (stack : Stack) (rs : RedwrapState ω) (var : RedConfVar) (node : Family) :
    Except Halt (List (Option CStr)) :=
  match var.mode with
  | .static => .ok [CStr.lit "--setenv", var.key, var.value]
  | .execfd =>
    match strdup (envvarBuffer os stack rs var) envvarBufferSize with
    | none => .error .fault
    | some value => .ok [CStr.lit "--setenv", var.key, value]
  | .deflt =>
    match var.value with
    | none => .error .fault
    | some value => .ok [CStr.lit "--setenv", var.key, expand node.node.ctx value]
  | .remove => .ok [CStr.lit "--unsetenv", var.key]
  | .inherit =>
    .ok [CStr.lit "--setenv", var.key, (env.secureGetenv var.key).getD (CStr.lit "")]

theorem execCmd_keeps (rs : RedwrapState ω) (tag command : CStr) (res : Buffer UInt8)
    (size : Nat) : (execCmd os rs tag command res size).2.2.argval = rs.argval ∧
      (execCmd os rs tag command res size).2.2.rednode = rs.rednode := by
  simp only [execCmd]
  split
  · exact ⟨rfl, rfl⟩
  · split
    · exact ⟨rfl, rfl⟩
    · exact ⟨rfl, rfl⟩
    · split <;> exact ⟨rfl, rfl⟩

theorem setOneEnvvar_does (stack : Stack) (rs : RedwrapState ω) (var : RedConfVar)
    (node : Family) : Does (setOneEnvvar expand env os stack rs var node) rs
      (varArgs expand env os stack rs var node) := by
  unfold setOneEnvvar varArgs
  cases var.mode with
  | static => exact emits_addAll rs _
  | execfd =>
    obtain ⟨harg, hnode⟩ := execCmd_keeps os rs var.key (var.value.getD (CStr.lit ""))
      (stack.envvar rs.argval.length) envvarBufferSize
    simp only [envvarBuffer]
    cases strdup (execCmd os rs var.key (var.value.getD (CStr.lit ""))
        (stack.envvar rs.argval.length) envvarBufferSize).2.1 envvarBufferSize with
    | none => rfl
    | some value => exact (emits_addAll _ _).from harg hnode
  | deflt =>
    cases var.value with
    | none => rfl
    | some value => exact emits_addAll rs _
  | remove => exact emits_addAll rs _
  | inherit => exact emits_addAll rs _

/-! ### The section `config` -/

def hostnameArgs (node : ExpandCtx) (hostname : Option CStr) : List (Option CStr) :=
  match hostname with
  | none => []
  | some hostname => [CStr.lit "--unshare-uts", CStr.lit "--hostname", expand node hostname]

def chdirArgs (node : ExpandCtx) (chdir : Option CStr) : List (Option CStr) :=
  match chdir with
  | none => []
  | some chdir => [CStr.lit "--chdir", expand node chdir]

def optionArgs (option : RedConfOptFlag) (argument : CStr) : List (Option CStr) :=
  if option = .enabled then [some argument] else []

def conftagArgs (node : ExpandCtx) (tag : RedConfTag) : List (Option CStr) :=
  capArgs (capOrder (tag.capabilities.map fun cap => (cap.cap, cap.add))) ++
    (hostnameArgs expand node tag.hostname ++ (chdirArgs expand node tag.chdir ++
      (optionArgs tag.diewithparent (CStr.lit "--die-with-parent") ++
        (optionArgs tag.newsession (CStr.lit "--new-session") ++
          (bwrapNamespaces tag.share).flatMap (unshareArg tag.share)))))

theorem emits_setOption (rs : RedwrapState ω) (option : RedConfOptFlag) (argument : CStr) :
    Emits (setOption rs option argument) rs (optionArgs option argument) := by
  unfold setOption optionArgs
  split
  · exact emits_addAll rs _
  · exact emits_nil rs

theorem emits_setShares (rs : RedwrapState ω) (shares : RedConfShare) :
    Emits (setShares rs shares) rs ((bwrapNamespaces shares).flatMap (unshareArg shares)) := by
  have hend := (emits_addAll rs ((bwrapNamespaces shares).flatMap (unshareArg shares))).bind
    (f := fun rs => .ok { rs with shares := shares }) fun rs' _ _ => (emits_nil _).from rfl rfl
  rwa [List.append_nil, ← setShares_eq] at hend

theorem emits_setConftag (rs : RedwrapState ω) (tag : RedConfTag) :
    Emits (setConftag expand os rs tag) rs (conftagArgs expand rs.rednode.node.ctx tag) := by
  refine Emits.bind (setCapabilities_eq rs tag ▸ emits_addAll rs _) fun rs₁ _ hnode₁ => ?_
  suffices hrest : Emits _ { rs₁ with os := os.setCgroups rs₁.os rs₁.rednode tag.cgrouproot } _ from
    hrest.from rfl rfl
  rw [← hnode₁]
  refine Emits.bind ?_ fun rs₂ _ hnode₂ => ?_
  · unfold setHostname hostnameArgs
    cases tag.hostname with
    | none => exact emits_nil _
    | some hostname => exact emits_addAll _ _
  rw [show rs₁.rednode = rs₂.rednode from hnode₂.symm]
  refine Emits.bind ?_ fun rs₃ _ _ => ?_
  · unfold setChdir chdirArgs
    cases tag.chdir with
    | none => exact emits_nil _
    | some chdir => exact emits_addAll _ _
  refine Emits.bind (emits_setOption _ _ _) fun rs₄ _ _ => ?_
  refine Emits.bind (emits_setOption _ _ _) fun rs₅ _ _ => ?_
  exact (emits_setShares _ tag.share).from rfl rfl

/-! ## Turns -/

inductive Turn where
  /-- the launch is given up -/
  | refuse
  /-- undefined behaviour -/
  | crash
  | exportPath (exp : RedConfExportPath) (node : Family)
  | envvar (var : RedConfVar) (node : Family)
  | conftag (tag : RedConfTag)
  | words (args : List CStr)

def launchTurn (stack : Stack) (rs : RedwrapState ω) : Turn → Except Stop (RedwrapState ω)
  | .refuse => .error .returned
  | .crash => .error .fault
  | .exportPath exp node => afterMix (some (0, setOneExport expand os.toRedOs rs exp node))
  | .envvar var node => afterMix (some (0, setOneEnvvar expand env os stack rs var node))
  | .conftag tag => afterMix (some (0, setConftag expand os rs tag))
  | .words args => afterMix (some (0, addAll rs (args.map some)))

/-- What a turn adds to the arguments. -/
def turnArgs (stack : Stack) (rs : RedwrapState ω) : Turn → Except Halt (List (Option CStr))
  | .refuse => .ok []
  | .crash => .error .fault
  | .exportPath exp node => exportArgs expand os rs exp node
  | .envvar var node => varArgs expand env os stack rs var node
  | .conftag tag => .ok (conftagArgs expand rs.rednode.node.ctx tag)
  | .words args => .ok (args.map some)

/-- All optional values of a turn are present. -/
def Turn.Valid : Turn → Prop
  | .exportPath _ node => node.node.config ≠ none
  | .envvar var _ => var.value ≠ none
  | _ => True

/-- The node of an export has its config. -/
def Turn.Configured : Turn → Prop
  | .exportPath _ node => node.node.config ≠ none
  | _ => True

theorem Turn.Valid.configured {t : Turn} (h : t.Valid) : t.Configured := by
  cases t with
  | exportPath exp node => exact h
  | _ => trivial

/-- What a turn does to the launch. -/
inductive Turned (x : Except Stop (RedwrapState ω)) (rs : RedwrapState ω) :
    Except Halt (List (Option CStr)) → Prop
  | halts (halt : Halt) (h : x = .error halt.stop) : Turned x rs (.error halt)
  | adds (args : List (Option CStr))
      (stops : ∀ stop, x = .error stop → stop = .exit)
      (appended : ∀ rs', x = .ok rs' → rs'.argval = rs.argval ++ args ∧ rs'.rednode = rs.rednode)
      (ends : (∃ rs', x = .ok rs') ↔ rs.argval.length + args.length ≤ maxBwrapArgs) :
      Turned x rs (.ok args)

theorem afterMix_ok (rs : RedwrapState ω) : afterMix (some (0, .ok rs)) = .ok rs := by
  simp [afterMix]

theorem Does.turned {x : Except Halt (RedwrapState ω)} {rs : RedwrapState ω}
    {args : Except Halt (List (Option CStr))} (h : Does x rs args) :
    Turned (afterMix (some (0, x))) rs args := by
  cases args with
  | error halt =>
    have hx : x = .error halt := h
    exact .halts halt (hx ▸ rfl)
  | ok args =>
    have hx : Emits x rs args := h
    cases x with
    | error halt =>
      obtain rfl := hx.stops halt rfl
      refine .adds args (fun stop hs => (Except.error.inj hs).symm) (fun _ hr => by cases hr) ?_
      rw [← hx.ends]
      exact ⟨fun ⟨_, hr⟩ => (by cases hr), fun ⟨_, hr⟩ => (by cases hr)⟩
    | ok rs' =>
      rw [afterMix_ok]
      refine .adds args (fun stop hs => by cases hs) (fun rs'' hr => ?_) ?_
      · obtain rfl := Except.ok.inj hr
        exact hx.appended rs' rfl
      · rw [← hx.ends]
        exact ⟨fun _ => ⟨rs', rfl⟩, fun _ => ⟨rs', rfl⟩⟩

theorem Emits.turned {x : Except Halt (RedwrapState ω)} {rs : RedwrapState ω}
    {args : List (Option CStr)} (h : Emits x rs args) :
    Turned (afterMix (some (0, x))) rs (.ok args) :=
  have hdoes : Does x rs (.ok args) := h
  hdoes.turned

theorem launchTurn_spec (stack : Stack) (rs : RedwrapState ω) {t : Turn} (hconf : t.Configured)
    (hrefuse : t ≠ .refuse) :
    Turned (launchTurn expand env os stack rs t) rs (turnArgs expand env os stack rs t) := by
  cases t with
  | refuse => exact absurd rfl hrefuse
  | crash => exact .halts .fault rfl
  | exportPath exp node => exact (setOneExport_does expand os rs exp hconf).turned
  | envvar var node => exact (setOneEnvvar_does expand env os stack rs var node).turned
  | conftag tag => exact (emits_setConftag expand os rs tag).turned
  | words args => exact (emits_addAll rs _).turned

/-! ## The turns of a launch -/

/-- The merge of the exports compares NULL mounts unless it is refused before. -/
def exportTurns (node : Family) : List Turn :=
  if (mixExp expand).Comparable node then
    match (mixExpLaw expand).links node with
    | none => [.refuse]
    | some _ => (delivered expand node).map fun p => .exportPath p.1 p.2
  else if Layered.mergeAll (mixExpLaw expand).dupOk (mixExpLaw expand).overOk (mixExp expand).key []
      (Mix.Lawful.namedPart (mixExp expand) node) = none then [.refuse]
  else [.crash]

def varTurns (node : Family) : List Turn :=
  match mixVarLaw.links node with
  | none => [.refuse]
  | some ls => ls.map fun l => .envvar l.cur.val l.cur.level

def conftagTurns (node : Family) : List Turn :=
  if sharesRefused node ∨ capsRefused node then [.refuse] else [.conftag (mergedTag expand node)]

def pathTurn (name : CStr) : PathsOutcome (List CStr) → List Turn
  | .ret _ (value :: _) => [.words [CStr.lit "--setenv", name, value]]
  | .ret rc [] => if rc ≠ 0 then [.refuse] else []
  | .endless => [.crash]
  | .fault => [.crash]

/-- What `mixPaths` gives to a callback that records it. -/
def recordedPath (node : Family) (getpath : RedConfig → Option CStr) : PathsOutcome (List CStr) :=
  mixPaths env depth node (fun _ => getpath) recordPath [] fun _ => 0

def launchTurns (node : Family) (subargv : List CStr) : List Turn :=
  (exportTurns expand node ++ varTurns node) ++ (conftagTurns expand node ++
    ((pathTurn pathName (recordedPath env depth node fun config => config.conftag.path) ++
      pathTurn ldpathName (recordedPath env depth node fun config => config.conftag.ldpath)) ++
        [.words subargv]))

/-- The turns of a node without exports whose sections are accepted. -/
theorem launchTurns_of_no_exports {node : Family} (hcomp : (mixExp expand).Comparable node)
    (hnone : (mixExpLaw expand).links node = some [])
    (haccepted : ¬ (sharesRefused node ∨ mixCapaLaw.links node = none)) (subargv : List CStr) :
    launchTurns expand env depth node subargv = varTurns node ++ ([.conftag (mergedTag expand node)]
      ++ ((pathTurn pathName (recordedPath env depth node fun config => config.conftag.path) ++
        pathTurn ldpathName (recordedPath env depth node fun config => config.conftag.ldpath)) ++
          [.words subargv])) := by
  have hdel : delivered expand node = [] := by
    rw [delivered, mixExports_eq expand hcomp, hnone]
    rfl
  rw [← capsRefused_iff_links] at haccepted
  rw [launchTurns, exportTurns, if_pos hcomp, hnone, hdel, conftagTurns, if_neg haccepted]
  rfl

/-- A callback that takes one turn for each element that is delivered. -/
theorem deliver_turns {α : Type*} {stack : Stack}
    {f : RedwrapState ω → α → Except Halt (RedwrapState ω)} {turn : α → Turn}
    {callback : Except Halt (RedwrapState ω) → α → Nat → Nat →
      Int × Except Halt (RedwrapState ω)}
    (hok : ∀ rs a i n, callback (.ok rs) a i n = (0, f rs a))
    (herr : ∀ halt a i n, callback (.error halt) a i n = (0, .error halt))
    (hturn : ∀ rs a, launchTurn expand env os stack rs (turn a) = afterMix (some (0, f rs a)))
    (as : List α) (count : Nat) : ∀ (i : Nat) (rs : RedwrapState ω),
    afterMix (some (Layered.deliver callback count i as (.ok rs))) =
      turns (launchTurn expand env os) stack rs (as.map turn) := by
  have hended : ∀ (halt : Halt) (as : List α) (i : Nat),
      Layered.deliver callback count i as (.error halt) = (0, .error halt) := by
    intro halt as
    induction as with
    | nil => intro i; rfl
    | cons a as ih =>
      intro i
      rw [Layered.deliver, herr]
      exact ih (i + 1)
  induction as with
  | nil => intro i rs; exact afterMix_ok rs
  | cons a as ih =>
    intro i rs
    rw [Layered.deliver, hok, List.map_cons]
    simp only [if_true]
    cases hf : f rs a with
    | ok rs' =>
      have hstep : launchTurn expand env os stack rs (turn a) = .ok rs' := by
        rw [hturn, hf, afterMix_ok]
      rw [Layered.turns_cons_ok _ hstep]
      exact ih (i + 1) rs'
    | error halt =>
      have hstep : launchTurn expand env os stack rs (turn a) = .error halt.stop := by
        rw [hturn, hf]
        rfl
      rw [Layered.turns_cons_error _ hstep, hended]
      rfl

section

variable (stack : Stack)

theorem turns_one {rs : RedwrapState ω} {t : Turn} :
    turns (launchTurn expand env os) stack rs [t] = launchTurn expand env os stack rs t := by
  cases h : launchTurn expand env os stack rs t with
  | ok rs' => rw [Layered.turns_cons_ok _ h]; rfl
  | error stop => rw [Layered.turns_cons_error _ h]

theorem mixExports_turns (rs : RedwrapState ω) :
    afterMix (mixExports expand rs.rednode (mixexpCb expand os.toRedOs) (.ok rs)).result =
      turns (launchTurn expand env os) stack rs (exportTurns expand rs.rednode) := by
  unfold exportTurns
  by_cases hcomp : (mixExp expand).Comparable rs.rednode
  · rw [if_pos hcomp]
    rcases delivered_cases expand rs.rednode with ⟨ls, -, hls, hdel, -⟩ | ⟨hnot, -⟩
    · rw [mixExports_eq expand hcomp, hls, hdel]
      exact deliver_turns expand env os (fun _ _ _ _ => rfl) (fun _ _ _ _ => rfl)
        (fun _ _ => rfl) _ _ _ _
    · have hls : (mixExpLaw expand).links rs.rednode = none := hnot.resolve_left (not_not.mpr hcomp)
      rw [mixExports_eq expand hcomp, hls]
      rfl
  · have hrun := (mixExpLaw expand).mixConf_stops
      (mergeConfExpEnd (mixexpCb expand os.toRedOs)) hcomp (.ok rs)
    rw [if_neg hcomp]
    rw [show (mixExports expand rs.rednode (mixexpCb expand os.toRedOs) (.ok rs)).result = _
      from hrun]
    split
    · rfl
    · rfl

theorem mixVariables_turns (rs : RedwrapState ω) :
    afterMix (mixVariables rs.rednode (mixvarCb expand env os stack) (.ok rs)).result =
      turns (launchTurn expand env os) stack rs (varTurns rs.rednode) := by
  rw [mixVariables_eq, varTurns]
  cases mixVarLaw.links rs.rednode with
  | none => rfl
  | some ls =>
    have hturns : (ls.map fun l => Turn.envvar l.cur.val l.cur.level) =
        (ls.map fun l => (l.cur.val, l.cur.level)).map
          fun p : RedConfVar × Family => Turn.envvar p.1 p.2 := by
      rw [List.map_map]
      rfl
    simp only [hturns]
    exact deliver_turns expand env os (fun _ _ _ _ => rfl) (fun _ _ _ _ => rfl) (fun _ _ => rfl)
      _ _ _ _

theorem setForConftag_turns (rs : RedwrapState ω) :
    setForConftag expand os rs =
      turns (launchTurn expand env os) stack rs (conftagTurns expand rs.rednode) := by
  rw [setForConftag, mixConfTags_eq, conftagTurns]
  split
  · rfl
  · rw [turns_one]
    rfl

theorem mixPaths_turns (rs : RedwrapState ω) (name : CStr) (getpath : RedConfig → Option CStr)
    (buffer : Buffer UInt8) :
    afterPaths (mixPaths env depth rs.rednode (fun _ => getpath) (setEnvPath name) (.ok rs)
        buffer) =
      turns (launchTurn expand env os) stack rs
        (pathTurn name (recordedPath env depth rs.rednode getpath)) := by
  rw [mixPaths_recorded, ← recordedPath]
  cases recordedPath env depth rs.rednode getpath with
  | ret rc values =>
    cases values with
    | nil =>
      rw [pathTurn, afterPaths, afterMix]
      split <;> rfl
    | cons value values =>
      rw [pathTurn, turns_one]
      rfl
  | endless => rfl
  | fault => rfl

end

/-! ### The turns are valid -/

theorem exportTurns_valid {leaf : Family} (hconfigs : ∀ f ∈ leaf.toRoot, f.node.config ≠ none) :
    ∀ t ∈ exportTurns expand leaf, t.Valid := by
  unfold exportTurns
  intro t ht
  split at ht
  · split at ht
    · obtain rfl := List.mem_singleton.mp ht
      trivial
    · obtain ⟨p, hp, rfl⟩ := List.mem_map.mp ht
      obtain ⟨-, -, k, hk⟩ := (mem_delivered expand).mp hp
      obtain ⟨-, hmem, -⟩ := (mixExp expand).visible_of_deciding hk
      exact hconfigs p.2 hmem
  · split at ht <;> obtain rfl := List.mem_singleton.mp ht <;> trivial

theorem varTurns_configured (leaf : Family) : ∀ t ∈ varTurns leaf, t.Configured := by
  unfold varTurns
  intro t ht
  split at ht
  · obtain rfl := List.mem_singleton.mp ht
    trivial
  · obtain ⟨l, -, rfl⟩ := List.mem_map.mp ht
    trivial

theorem pathTurn_valid (name : CStr) (out : PathsOutcome (List CStr)) :
    ∀ t ∈ pathTurn name out, t.Valid := by
  intro t ht
  cases out with
  | ret rc values =>
    cases values with
    | nil =>
      rw [pathTurn] at ht
      split at ht
      · obtain rfl := List.mem_singleton.mp ht
        trivial
      · cases ht
    | cons value values =>
      obtain rfl := List.mem_singleton.mp ht
      trivial
  | endless =>
    obtain rfl := List.mem_singleton.mp ht
    trivial
  | fault =>
    obtain rfl := List.mem_singleton.mp ht
    trivial

theorem conftagTurns_valid (leaf : Family) : ∀ t ∈ conftagTurns expand leaf, t.Valid := by
  unfold conftagTurns
  intro t ht
  split at ht <;> obtain rfl := List.mem_singleton.mp ht <;> trivial

theorem launchTurns_configured {leaf : Family}
    (hconfigs : ∀ f ∈ leaf.toRoot, f.node.config ≠ none) (subargv : List CStr) :
    ∀ t ∈ launchTurns expand env depth leaf subargv, t.Configured := by
  intro t ht
  simp only [launchTurns, List.mem_append] at ht
  rcases ht with (ht | ht) | ht | (ht | ht) | ht
  · exact (exportTurns_valid expand hconfigs t ht).configured
  · exact varTurns_configured leaf t ht
  · exact (conftagTurns_valid expand leaf t ht).configured
  · exact (pathTurn_valid _ _ t ht).configured
  · exact (pathTurn_valid _ _ t ht).configured
  · obtain rfl := List.mem_singleton.mp ht
    trivial

theorem launchTurn_rednode {stack : Stack} {rs rs' : RedwrapState ω} {t : Turn}
    (hconf : t.Configured) (h : launchTurn expand env os stack rs t = .ok rs') :
    rs'.rednode = rs.rednode ∧ ∃ args, rs'.argval = rs.argval ++ args := by
  by_cases hrefuse : t = .refuse
  · subst hrefuse
    cases h
  · have hspec := launchTurn_spec expand env os stack rs hconf hrefuse
    rw [h] at hspec
    generalize turnArgs expand env os stack rs t = args at hspec
    cases hspec with
    | halts halt hx => cases hx
    | adds args _ happ _ => exact ⟨(happ rs' rfl).2, args, (happ rs' rfl).1⟩

/-! ### The launch -/

section

variable (stack : Stack) (rednode : Family)

/-- A part of the launch of a rednode takes some turns. -/
def Takes (F : RedwrapState ω → Except Stop (RedwrapState ω)) (as : List Turn) : Prop :=
  (∀ t ∈ as, t.Configured) ∧
    ∀ rs, rs.rednode = rednode → F rs = turns (launchTurn expand env os) stack rs as

variable {expand env os stack rednode} {F : RedwrapState ω → Except Stop (RedwrapState ω)}
  {as bs : List Turn}

theorem Takes.bind {G K : RedwrapState ω → Except Stop (RedwrapState ω)}
    (hF : Takes expand env os stack rednode F as)
    (hG : ∀ rs, rs.rednode = rednode →
      G rs = (turns (launchTurn expand env os) stack rs bs >>= K))
    {rs : RedwrapState ω} (hnode : rs.rednode = rednode) :
    (F rs >>= G) = (turns (launchTurn expand env os) stack rs (as ++ bs) >>= K) := by
  rw [hF.2 rs hnode, Layered.turns_append]
  cases hrun : turns (launchTurn expand env os) stack rs as with
  | error stop => rfl
  | ok rs' =>
    refine hG rs' ?_
    exact Layered.turns_keeps (launchTurn expand env os) (I := fun rs => rs.rednode = rednode)
      (fun t ht k s s' hs hstep =>
        (launchTurn_rednode expand env os (hF.1 t ht) hstep).1.trans hs) hnode hrun

theorem Takes.append {G : RedwrapState ω → Except Stop (RedwrapState ω)}
    (hF : Takes expand env os stack rednode F as) (hG : Takes expand env os stack rednode G bs) :
    Takes expand env os stack rednode (fun rs => F rs >>= G) (as ++ bs) := by
  refine ⟨fun t ht => (List.mem_append.mp ht).elim (hF.1 t) (hG.1 t), fun rs hnode => ?_⟩
  have hG' : ∀ rs, rs.rednode = rednode →
      G rs = (turns (launchTurn expand env os) stack rs bs >>= pure) := fun rs hrs => by
    rw [hG.2 rs hrs, bind_pure]
  have hrun := hF.bind hG' hnode
  rwa [bind_pure] at hrun

end

/-- **The arguments** are collected turn by turn. -/
theorem collectArguments_eq {rednode : Family}
    (hconfigs : ∀ f ∈ rednode.toRoot, f.node.config ≠ none) (commandName : CStr) (strict : Bool)
    (dump : Int) (subargv : List CStr) (o : ω) (stack : Stack) :
    collectArguments expand env depth os commandName strict dump subargv rednode o stack =
      turns (launchTurn expand env os) stack (.start commandName strict dump o rednode)
        (launchTurns expand env depth rednode subargv) := by
  have hexports : Takes expand env os stack rednode
      (fun rs =>
        afterMix (mixExports expand rs.rednode (mixexpCb expand os.toRedOs) (.ok rs)).result)
      (exportTurns expand rednode) :=
    ⟨fun t ht => (exportTurns_valid expand hconfigs t ht).configured,
      fun rs hrs => hrs ▸ mixExports_turns expand env os stack rs⟩
  have hvars : Takes expand env os stack rednode
      (fun rs => afterMix (mixVariables rs.rednode (mixvarCb expand env os stack) (.ok rs)).result)
      (varTurns rednode) :=
    ⟨varTurns_configured rednode, fun rs hrs => hrs ▸ mixVariables_turns expand env os stack rs⟩
  have hconftag : Takes expand env os stack rednode (setForConftag expand os)
      (conftagTurns expand rednode) :=
    ⟨fun t ht => (conftagTurns_valid expand rednode t ht).configured,
      fun rs hrs => hrs ▸ setForConftag_turns expand env os stack rs⟩
  have hpath : ∀ name getpath buffer, Takes expand env os stack rednode
      (fun rs => afterPaths (mixPaths env depth rs.rednode (fun _ => getpath) (setEnvPath name)
        (.ok rs) buffer))
      (pathTurn name (recordedPath env depth rednode getpath)) := fun name getpath buffer =>
    ⟨fun t ht => (pathTurn_valid _ _ t ht).configured, fun rs hrs =>
      hrs ▸ mixPaths_turns expand env depth os stack rs name getpath buffer⟩
  have hcommand : Takes expand env os stack rednode (fun rs => addCommand rs subargv)
      [.words subargv] :=
    ⟨fun t ht => by obtain rfl := List.mem_singleton.mp ht; trivial,
      fun rs _ => by rw [turns_one]; rfl⟩
  have hpaths := (hpath pathName (fun config => config.conftag.path) stack.path).append
    (hpath ldpathName (fun config => config.conftag.ldpath) stack.ldpath)
  have hall := (hexports.append hvars).append (hconftag.append (hpaths.append hcommand))
  exact hall.2 _ rfl

end

end Wrap
end RedPak
