import RedPak.Wrap.Options

/-!
# Wrap.Environment

The environment that a launch asks for: the one that `execve` hands over, changed by the options
`--setenv` and `--unsetenv` of the arguments one after the other.

* `argvEnv_spec`: the paths, then the variables that count, then what is inherited.
-/

namespace RedPak
namespace Wrap

open Conf
open Layered (Opt gathered lastSet readOpts settle turns)

/-! ## Options and variables -/

/-- What an option makes of a variable, if it is about it. -/
def envSetting (name : CStr) (g : Opt CStr CStr) : Option (Option CStr) :=
  match g.args with
  | [key, value] => if g.word = CStr.lit "--setenv" ∧ key = name then some (some value) else none
  | [key] => if g.word = CStr.lit "--unsetenv" ∧ key = name then some none else none
  | _ => none

/-- The environment that the options leave of another one, in their order. -/
def argvEnv : (CStr → Option CStr) → List (Opt CStr CStr) → CStr → Option CStr :=
  settle envSetting

theorem envSetting_setenv (name key value : CStr) :
    envSetting name ⟨CStr.lit "--setenv", [key, value]⟩ =
      if key = name then some (some value) else none := by
  simp [envSetting]

theorem envSetting_unsetenv (name key : CStr) :
    envSetting name ⟨CStr.lit "--unsetenv", [key]⟩ = if key = name then some none else none := by
  simp [envSetting]

theorem envSetting_of_notMem {name : CStr} {g : Opt CStr CStr}
    (h : (g.word, g.args.length) ∉ envOptions) : envSetting name g = none := by
  obtain ⟨word, args⟩ := g
  have hword : ∀ w n, (w, n) ∈ envOptions → args.length = n → word ≠ w := fun w n hmem hlen heq =>
    h (heq ▸ hlen ▸ hmem)
  unfold envSetting
  match args with
  | [] => rfl
  | [key] => exact if_neg fun hand => hword _ 1 (by decide) rfl hand.1
  | [key, value] => exact if_neg fun hand => hword _ 2 (by decide) rfl hand.1
  | _ :: _ :: _ :: _ => rfl

section

variable {ω : Type} {os : ExecOs ω} {creds : Credentials}
  {expand : ExpandCtx → CStr → Option CStr} {env : RedEnv} {depth : Nat} {commandName : CStr}
  {cliarg : RWrapConfig} {subargv : List CStr} {rednode : Family} {o : ω} {stack : Stack}
  {exec : Exec}

/-! ## What a launch means for a variable -/

/-- What the definition of a variable makes of it. The output of a command is that at the time. -/
inductive VarMeans (expand : ExpandCtx → CStr → Option CStr) (env : RedEnv) (los : LaunchOs ω)
    (stack : Stack) (f : Family) (d : RedConfVar) : Option CStr → Prop where
  | static {v : CStr} (hmode : d.mode = .static) (hv : d.value = some v) :
      VarMeans expand env los stack f d (some v)
  | execfd {v : CStr} (hmode : d.mode = .execfd) (rs : RedwrapState ω)
      (hv : strdup (envvarBuffer los stack rs d) envvarBufferSize = some v) :
      VarMeans expand env los stack f d (some v)
  | deflt {s v : CStr} (hmode : d.mode = .deflt) (hs : d.value = some s)
      (hv : expand f.node.ctx s = some v) : VarMeans expand env los stack f d (some v)
  | remove (hmode : d.mode = .remove) : VarMeans expand env los stack f d none
  | inherit (hmode : d.mode = .inherit) :
      VarMeans expand env los stack f d (some ((env.secureGetenv d.key).getD (CStr.lit "")))

/-- What the definition that counts makes of a variable, or that there is none of its name. Names
are compared up to the case of letters, and a definition is about its own name only. -/
def DefinedAs (expand : ExpandCtx → CStr → Option CStr) (env : RedEnv) (los : LaunchOs ω)
    (stack : Stack) (node : Family) (name : CStr) : Option (Option CStr) → Prop
  | some w => ∃ f d, (mixVar.deciding node (some name.folded)).head? = some (f, d) ∧
      d.key = name ∧ VarMeans expand env los stack f d w
  | none => ∀ f d, (mixVar.deciding node (some name.folded)).head? = some (f, d) → d.key ≠ name

/-- The merged path of a node, if it has elements. -/
def mergedPath (env : RedEnv) (depth : Nat) (node : Family) (getpath : RedConfig → Option CStr) :
    Option CStr :=
  if pathElements env depth node getpath = [] then none else some (pathValue env depth node getpath)

/-- The merged path for a variable. -/
def specialPath (env : RedEnv) (depth : Nat) (node : Family) (name : CStr) : Option CStr :=
  if name = ldpathName then mergedPath env depth node fun config => config.conftag.ldpath
  else if name = pathName then mergedPath env depth node fun config => config.conftag.path
  else none

/-! ## The turns -/

section

variable {los : LaunchOs ω} {rs rs' : RedwrapState ω} {name : CStr}

theorem lastSet_otherTurns {as : List Turn} {table : List (CStr × Nat)}
    (hgives : ∀ t ∈ as, t.GivesOnly table) (hother : ∀ p ∈ table, p ∉ envOptions)
    (hpresent : ∀ g ∈ gathered (launchTurn expand env los) (turnOptions expand env los) stack rs as,
      none ∉ g.args) :
    lastSet (envSetting name) ((gathered (launchTurn expand env los) (turnOptions expand env los)
      stack rs as).map Opt.plain) = none := by
  rw [Layered.lastSet_eq_none]
  intro g hg
  obtain ⟨g', hg', rfl⟩ := List.mem_map.mp hg
  refine envSetting_of_notMem (hother _ ?_)
  rw [Opt.plain, Layered.length_seen_of_present (hpresent g' hg')]
  exact among_gathered hgives g' hg'

/-- **A path** sets its variable, if there are elements. -/
theorem gathered_pathTurn {getpath : RedConfig → Option CStr}
    (hrun : turns (launchTurn expand env los) stack rs
      (pathTurn name (recordedPath env depth rednode getpath)) = .ok rs') :
    gathered (launchTurn expand env los) (turnOptions expand env los) stack rs
        (pathTurn name (recordedPath env depth rednode getpath)) =
      if pathElements env depth rednode getpath = [] then []
      else [⟨CStr.lit "--setenv", [some name, some (pathValue env depth rednode getpath)]⟩] := by
  cases hfit : pathsFit env depth (pathSettings getpath (pathTurns rednode)) [] with
  | true =>
    have hrec : recordedPath env depth rednode getpath =
        if pathElements env depth rednode getpath = [] then .ret 0 []
        else .ret 0 [pathValue env depth rednode getpath] :=
      @mixPaths_of_fit env depth (List CStr) rednode (fun _ => getpath) [] hfit recordPath _
    rw [hrec]
    by_cases hnone : pathElements env depth rednode getpath = []
    · rw [if_pos hnone, if_pos hnone]
      rfl
    · rw [if_neg hnone, if_neg hnone]
      simp only [pathTurn, gathered, turnOptions]
      split <;> rfl
  | false =>
    -- the merge fails, so that the turn does not go through
    rw [recordedPath, mixPaths] at hrun
    have hnot := @mixPaths_of_not_fit env depth (List CStr) rednode (fun _ => getpath) [] hfit
      recordPath (fun _ => 0)
    cases hloop : mixPathsLoop env depth (fun _ : List CStr => getpath) [] (pathTurns rednode)
        (fun _ => 0) 0 with
    | done buffer length =>
      have hret : ∃ closure, mixPaths env depth rednode (fun _ : List CStr => getpath) recordPath []
          (fun _ => 0) = .ret 0 closure := by
        rw [mixPaths, hloop]
        dsimp only
        split
        · exact ⟨_, rfl⟩
        · exact ⟨_, rfl⟩
      obtain ⟨closure, hret⟩ := hret
      exact absurd hret (hnot closure)
    | error => rw [hloop] at hrun; cases hrun
    | endless => rw [hloop] at hrun; cases hrun
    | fault => rw [hloop] at hrun; cases hrun

/-- **A variable** is set to what its definition means, once its arguments are there. -/
theorem varOption_means {d : RedConfVar} {f : Family} {g : LaunchOption}
    (hg : g ∈ turnOptions expand env los stack rs (.envvar d f)) (hpresent : none ∉ g.args) :
    ∃ w, VarMeans expand env los stack f d w ∧
      ∀ name, envSetting name g.plain = if d.key = name then some w else none := by
  have hg' : g ∈ optionOf (varArgs expand env los stack rs d f) := hg
  unfold varArgs at hg'
  cases hmode : d.mode with
  | static =>
    rw [hmode] at hg'
    obtain rfl := List.mem_singleton.mp hg'
    cases hv : d.value with
    | none => exact absurd (by simp [hv]) hpresent
    | some v => exact ⟨some v, .static hmode hv, fun name => envSetting_setenv name d.key v⟩
  | execfd =>
    rw [hmode] at hg'
    cases hv : strdup (envvarBuffer los stack rs d) envvarBufferSize with
    | none => rw [hv] at hg'; cases hg'
    | some v =>
      rw [hv] at hg'
      obtain rfl := List.mem_singleton.mp hg'
      exact ⟨some v, .execfd hmode rs hv, fun name => envSetting_setenv name d.key v⟩
  | deflt =>
    rw [hmode] at hg'
    cases hs : d.value with
    | none => rw [hs] at hg'; cases hg'
    | some s =>
      rw [hs] at hg'
      obtain rfl := List.mem_singleton.mp hg'
      cases hv : expand f.node.ctx s with
      | none => exact absurd (by simp [hv]) hpresent
      | some v => exact ⟨some v, .deflt hmode hs hv, fun name => envSetting_setenv name d.key v⟩
  | remove =>
    rw [hmode] at hg'
    obtain rfl := List.mem_singleton.mp hg'
    exact ⟨none, .remove hmode, fun name => envSetting_unsetenv name d.key⟩
  | inherit =>
    rw [hmode] at hg'
    obtain rfl := List.mem_singleton.mp hg'
    exact ⟨_, .inherit hmode, fun name => envSetting_setenv name d.key _⟩

theorem exists_varOption {d : RedConfVar} {f : Family}
    (h : launchTurn expand env los stack rs (.envvar d f) = .ok rs') :
    ∃ g, g ∈ turnOptions expand env los stack rs (.envvar d f) := by
  have hspec := launchTurn_spec expand env los stack rs (t := .envvar d f) trivial
    (fun heq => by cases heq)
  rw [h] at hspec
  have hargs : turnArgs expand env los stack rs (.envvar d f) =
    varArgs expand env los stack rs d f := rfl
  rw [turnOptions]
  cases hvar : varArgs expand env los stack rs d f with
  | error halt =>
    rw [hargs, hvar] at hspec
    cases hspec with
    | halts halt hx => cases hx
  | ok args =>
    unfold varArgs at hvar
    cases hmode : d.mode with
    | execfd =>
      simp only [hmode] at hvar
      split at hvar
      · cases hvar
      · cases hvar
        exact ⟨_, List.mem_singleton_self _⟩
    | deflt =>
      simp only [hmode] at hvar
      split at hvar
      · cases hvar
      · cases hvar
        exact ⟨_, List.mem_singleton_self _⟩
    | _ =>
      rw [hmode] at hvar
      cases hvar
      exact ⟨_, List.mem_singleton_self _⟩

theorem lastSet_varTurns
    (hrun : turns (launchTurn expand env los) stack rs (varTurns rednode) = .ok rs')
    (hpresent : ∀ g ∈ gathered (launchTurn expand env los) (turnOptions expand env los) stack rs
      (varTurns rednode), none ∉ g.args) (name : CStr) :
    DefinedAs expand env los stack rednode name (lastSet (envSetting name) ((gathered
      (launchTurn expand env los) (turnOptions expand env los) stack rs
        (varTurns rednode)).map Opt.plain)) := by
  unfold varTurns at hrun hpresent ⊢
  cases hls : mixVarLaw.links rednode with
  | none => rw [hls] at hrun; cases hrun
  | some ls =>
    rw [hls] at hrun hpresent
    dsimp only at hrun hpresent ⊢
    have hholds := Mix.Lawful.holds_of_links mixVarLaw hls
    have hkey : ∀ l ∈ ls, l.name mixVar.key = some l.cur.val.key.folded :=
      fun l hl => (hholds.key l hl).symm
    cases hlast : lastSet (envSetting name) ((gathered (launchTurn expand env los)
        (turnOptions expand env los) stack rs (ls.map fun l =>
          .envvar l.cur.val l.cur.level)).map Opt.plain) with
    | some w =>
      obtain ⟨g, hg, hset⟩ := Layered.exists_of_lastSet hlast
      obtain ⟨g, hmem, rfl⟩ := List.mem_map.mp hg
      obtain ⟨t, ht, rs₁, hout⟩ := Layered.mem_gathered _ _ _ hmem
      obtain ⟨l, hl, rfl⟩ := List.mem_map.mp ht
      obtain ⟨w', hmeans, hsets⟩ := varOption_means hout (hpresent g hmem)
      rw [hsets] at hset
      split at hset
      · rename_i hname
        cases hset
        refine ⟨l.cur.level, l.cur.val, ?_, hname, hmeans⟩
        rw [← hname, ← hkey l hl]
        exact hholds.value l hl
      · cases hset
    | none =>
      intro f d hdec hname
      obtain ⟨l, hl, hlname⟩ := hholds.exists_link hdec
      have hcur := hholds.value l hl
      rw [hlname, hdec, Option.some.injEq, Prod.mk.injEq] at hcur
      obtain ⟨rfl, rfl⟩ := hcur
      have ht : Turn.envvar l.cur.val l.cur.level ∈ ls.map fun l =>
          Turn.envvar l.cur.val l.cur.level := List.mem_map.mpr ⟨l, hl, rfl⟩
      obtain ⟨rs₁, rs₂, hstep, hout⟩ := Layered.exists_gathered (launchTurn expand env los)
        (turnOptions expand env los) stack ht hrun
      obtain ⟨g, hg⟩ := exists_varOption hstep
      obtain ⟨w, -, hsets⟩ := varOption_means hg (hpresent g (hout g hg))
      have hnone := Layered.lastSet_eq_none.mp hlast _ (List.mem_map_of_mem (hout g hg))
      rw [hsets, if_pos hname] at hnone
      cases hnone

end

/-! ## The environment that is handed over -/

/-- The turn hands the environment over. -/
def Turn.inherits : Turn → Bool
  | .conftag tag => tag.inheritenv ≠ 0
  | _ => false

theorem turns_environ {as : List Turn} : ∀ {rs rs' : RedwrapState ω},
    turns (launchTurn expand env (os.launchOs creds)) stack rs as = .ok rs' →
      rs'.environ = (rs.environ || as.any Turn.inherits) := by
  induction as with
  | nil =>
    intro rs rs' h
    cases h
    exact (Bool.or_false _).symm
  | cons t as ih =>
    intro rs rs' h
    cases hstep : launchTurn expand env (os.launchOs creds) stack rs t with
    | error stop =>
      rw [Layered.turns_cons_error _ hstep] at h
      cases h
    | ok rs₁ =>
      rw [Layered.turns_cons_ok _ hstep] at h
      have hfirst : rs₁.environ = (rs.environ || t.inherits) := by
        show rs₁.bare.environ = _
        rw [launchTurn_bare hstep]
        cases t with
        | envvar var node =>
          rw [turnNext]
          split <;> exact (Bool.or_false _).symm
        | conftag tag => rfl
        | _ => exact (Bool.or_false _).symm
      rw [ih h, hfirst, List.any_cons, Bool.or_assoc]

/-- **The environment is handed over** exactly if the merged config inherits it. -/
theorem environ_sandboxTurns {rs rs' : RedwrapState ω}
    (h : turns (launchTurn expand env (os.launchOs creds)) stack rs
      (sandboxTurns expand env depth rednode) = .ok rs') :
    rs'.environ = (rs.environ || (mergedTag expand rednode).inheritenv ≠ 0) := by
  have hnone : ∀ {table : List (CStr × Nat)} {as : List Turn}, (∀ t ∈ as, t.GivesOnly table) →
      (∀ p ∈ tagOptions, p ∉ table) → as.any Turn.inherits = false := by
    intro table as hgives hother
    refine List.any_eq_false.mpr fun t ht hinherits => ?_
    cases t with
    | conftag tag =>
      have hchdir : (CStr.lit "--chdir", 1) ∈ tagOptions := by decide
      exact hother _ hchdir ((hgives _ ht).2 _ hchdir)
    | _ => cases hinherits
  have htag : (conftagTurns expand rednode).any Turn.inherits =
      decide ((mergedTag expand rednode).inheritenv ≠ 0) := by
    unfold conftagTurns
    split
    · rename_i hrefused
      have hmem : Turn.refuse ∈ sandboxTurns expand env depth rednode := by
        have hconftag : conftagTurns expand rednode = [.refuse] := if_pos hrefused
        simp [sandboxTurns, hconftag]
      obtain ⟨_, _, hstep, -⟩ := Layered.exists_gathered (launchTurn expand env (os.launchOs creds))
        (turnOptions expand env (os.launchOs creds)) stack hmem h
      cases hstep
    · exact Bool.or_false _
  rw [turns_environ h, sandboxTurns]
  simp only [List.any_append, htag, hnone (exportTurns_givesOnly rednode) (by decide),
    hnone (varTurns_givesOnly rednode) (by decide), hnone (pathTurn_givesOnly _ _) (by decide),
    Bool.false_or, Bool.or_false]

/-! ## The environment of a launch -/

/-- What the launch of a node makes of a variable: a path, what the definition that counts means, or
what is handed over. Names of definitions are compared up to the case of letters, and the one that
counts is about its own name only. -/
structure EnvMeans (expand : ExpandCtx → CStr → Option CStr) (env : RedEnv) (depth : Nat)
    (los : LaunchOs ω) (stack : Stack) (node : Family) (base after : CStr → Option CStr)
    (name : CStr) : Prop where
  path : ∀ v, specialPath env depth node name = some v → after name = some v
  defined : specialPath env depth node name = none → ∀ f d,
    (mixVar.deciding node (some name.folded)).head? = some (f, d) → d.key = name →
      VarMeans expand env los stack f d (after name)
  kept : specialPath env depth node name = none → (∀ f d,
    (mixVar.deciding node (some name.folded)).head? = some (f, d) → d.key ≠ name) →
      after name = base name

theorem lastSet_pathTurn {los : LaunchOs ω} {rs rs' : RedwrapState ω} {special : CStr}
    {getpath : RedConfig → Option CStr}
    (hrun : turns (launchTurn expand env los) stack rs
      (pathTurn special (recordedPath env depth rednode getpath)) = .ok rs') (name : CStr) :
    lastSet (envSetting name) ((gathered (launchTurn expand env los)
        (turnOptions expand env los) stack rs
        (pathTurn special (recordedPath env depth rednode getpath))).map Opt.plain) =
      if name = special then (mergedPath env depth rednode getpath).map some else none := by
  rw [gathered_pathTurn hrun, mergedPath]
  by_cases hnone : pathElements env depth rednode getpath = []
  · rw [if_pos hnone, if_pos hnone]
    split <;> rfl
  · have hone : lastSet (envSetting name) ([⟨CStr.lit "--setenv",
        [some special, some (pathValue env depth rednode getpath)]⟩].map Opt.plain) =
        if special = name then some (some (pathValue env depth rednode getpath)) else none :=
      envSetting_setenv name special _
    rw [if_neg hnone, if_neg hnone, hone]
    simp only [eq_comm (a := special), Option.map_some]

theorem specialPath_eq (name : CStr) : (specialPath env depth rednode name).map some =
    (if name = ldpathName then (mergedPath env depth rednode fun config =>
      config.conftag.ldpath).map some else none).or
    (if name = pathName then (mergedPath env depth rednode fun config =>
      config.conftag.path).map some else none) := by
  have hne : ldpathName ≠ pathName := by decide
  unfold specialPath
  by_cases hld : name = ldpathName
  · subst hld
    rw [if_pos rfl, if_pos rfl, if_neg hne, Option.or_none]
  · rw [if_neg hld, if_neg hld, Option.none_or]
    split <;> rfl

/-- The options of a launch about a variable: those of the paths come last. -/
theorem lastSet_launch {rs : RedwrapState ω}
    (hrun : turns (launchTurn expand env (os.launchOs creds)) stack
      (.start commandName cliarg.strict cliarg.dump o rednode)
      (sandboxTurns expand env depth rednode) = .ok rs)
    (hpresent : ∀ g ∈ launchOptions os creds expand env depth commandName cliarg rednode o stack,
      none ∉ g.args) (name : CStr) :
    ∃ setting, DefinedAs expand env (os.launchOs creds) stack rednode name setting ∧
      lastSet (envSetting name) ((launchOptions os creds expand env depth commandName cliarg rednode
        o stack).map Opt.plain) = ((specialPath env depth rednode name).map some).or setting := by
  obtain ⟨u₁, hhead, htail, hsplit⟩ := Layered.exists_gathered_append _
    (turnOptions expand env (os.launchOs creds)) stack hrun
  obtain ⟨u₂, hexports, hvars, hhead⟩ := Layered.exists_gathered_append _
    (turnOptions expand env (os.launchOs creds)) stack hhead
  obtain ⟨u₃, hconftag, htail, htag⟩ := Layered.exists_gathered_append _
    (turnOptions expand env (os.launchOs creds)) stack htail
  obtain ⟨u₄, hpath, hldpath, hpaths⟩ := Layered.exists_gathered_append _
    (turnOptions expand env (os.launchOs creds)) stack htail
  have hall : launchOptions os creds expand env depth commandName cliarg rednode o stack = _ :=
    hsplit.trans (congrArg₂ (· ++ ·) hhead (htag.trans (congrArg _ hpaths)))
  rw [hall] at hpresent ⊢
  simp only [List.mem_append] at hpresent
  refine ⟨_, lastSet_varTurns hvars (fun g hg => hpresent g (.inl (.inr hg))) name, ?_⟩
  simp only [List.map_append, Layered.lastSet_append]
  rw [lastSet_pathTurn hldpath, lastSet_pathTurn hpath,
    lastSet_otherTurns (exportTurns_givesOnly rednode) (by decide) fun g hg =>
      hpresent g (.inl (.inl hg)),
    lastSet_otherTurns (conftagTurns_givesOnly rednode) (by decide) fun g hg =>
      hpresent g (.inr (.inl hg)), Option.or_none, Option.or_none]
  congr 1
  exact (specialPath_eq name).symm

/-- **The environment.** The options that are read from the arguments of a launch leave the
environment that the configs mean: the merged paths, for every other variable what the definition
that counts means, and all the rest of what `execve` hands over, which is nothing unless the merged
config inherits. -/
theorem argvEnv_spec (hconfigs : ∀ f ∈ rednode.toRoot, f.node.config ≠ none)
    {arity : CStr → Option Nat} (hknows : Knows arity)
    (h : redwrapExec os creds expand env depth commandName cliarg subargv rednode o stack =
      .ok exec) (hplain : readOpts arity subargv = .ok ([], subargv))
    {got : List (Opt CStr CStr)} {command : List CStr}
    (hread : argvReads arity exec = .ok (got, command)) (environ : CStr → Option CStr)
    (name : CStr) :
    (exec.environ = true ↔ (mergedTag expand rednode).inheritenv ≠ 0) ∧
    EnvMeans expand env depth (os.launchOs creds) stack rednode (exec.environment environ)
      (argvEnv (exec.environment environ) got) name := by
  obtain ⟨hpresent, rfl, -⟩ := (redwrapExec_reads hconfigs hknows h).ok hplain hread
  obtain ⟨rs, hrun, hentries, henviron⟩ := redwrapExec_ok hconfigs h
  obtain ⟨setting, hdefined, hlast⟩ := lastSet_launch hrun hpresent name
  constructor
  · rw [henviron, environ_sandboxTurns hrun]
    simp [RedwrapState.start]
  generalize exec.environment environ = base
  have hafter : argvEnv base ((launchOptions os creds expand env depth commandName cliarg rednode o
      stack).map Opt.plain) name =
        (((specialPath env depth rednode name).map some).or setting).getD (base name) := by
    rw [← hlast]
    exact Layered.settle_eq _ _ _ _
  cases hpath : specialPath env depth rednode name with
  | some v =>
    rw [hpath] at hafter
    refine ⟨fun w hw => ?_, fun hnone => ?_, fun hnone => ?_⟩
    · rw [hafter, ← hw, hpath]
      rfl
    · rw [hpath] at hnone
      cases hnone
    · rw [hpath] at hnone
      cases hnone
  | none =>
    rw [hpath] at hafter
    refine ⟨fun w hw => (by rw [hpath] at hw; cases hw), fun _ f d hdec hname => ?_,
      fun _ hnone => ?_⟩
    · cases setting with
      | none => exact absurd hname (hdefined f d hdec)
      | some w =>
        obtain ⟨f', d', hdec', -, hmeans⟩ := hdefined
        rw [hdec, Option.some.injEq, Prod.mk.injEq] at hdec'
        obtain ⟨rfl, rfl⟩ := hdec'
        rw [hafter]
        exact hmeans
    · cases setting with
      | none => exact hafter
      | some w =>
        obtain ⟨f, d, hdec, hname, -⟩ := hdefined
        exact absurd hname (hnone f d hdec)

end

/-! ### A value that looks like an option -/

theorem plain_sh : readOpts plainBwrap [CStr.lit "sh"] = .ok ([], [CStr.lit "sh"]) :=
  Layered.readOpts_stop plainBwrap (by decide) []

theorem argvEnv_spec_homeLeaf : ∃ exec got, redwrapExec readyOs leafCreds expandPlain silentEnv 1
      (CStr.lit "redwrap") homeArgs.toRWrapConfig [CStr.lit "sh"] homeLeaf () clearStack =
        .ok exec ∧ argvReads plainBwrap exec = .ok (got, [CStr.lit "sh"]) ∧
    argvEnv (fun _ => none) got (CStr.lit "TITLE") = CStr.lit "--bind" ∧
    ∀ environ name, (exec.environ = true ↔ (mergedTag expandPlain homeLeaf).inheritenv ≠ 0) ∧
      EnvMeans expandPlain silentEnv 1 (readyOs.launchOs leafCreds) clearStack homeLeaf
        (exec.environment environ) (argvEnv (exec.environment environ) got) name := by
  obtain ⟨exec, hexec, hentries⟩ := launch_homeLeaf
  obtain ⟨got, hread, htitle⟩ : ∃ got,
      argvReads plainBwrap exec = .ok (got, [CStr.lit "sh"]) ∧
      argvEnv (fun _ => none) got (CStr.lit "TITLE") = CStr.lit "--bind" := by
    rw [argvReads, hentries]
    exact ⟨_, rfl, rfl⟩
  exact ⟨exec, got, hexec, hread, htitle, fun environ name =>
    argvEnv_spec (by decide) knows_plainBwrap hexec plain_sh hread environ name⟩

end Wrap
end RedPak
