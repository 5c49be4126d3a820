import RedPak.Conf.MountOrder
import RedPak.Wrap.Environment

/-!
# Wrap.View

Which mount the arguments have above a path: options are meant to be carried out in their order, so
that it is the last one of those that mount something there or above. Symbolic links among the
exports are not followed.

* `lastMount_spec`: it is that of the export whose mount is the nearest one above the path.
-/

namespace RedPak
namespace Wrap

open Conf
open Layered (Opt gathered lastSet readOpts turns)

/-- The options that are meant to mount something. -/
def mountWords : List CStr := [CStr.lit "--bind", CStr.lit "--ro-bind", CStr.lit "--tmpfs",
  CStr.lit "--dev", CStr.lit "--proc", CStr.lit "--mqueue"]

/-- Where an option mounts something. -/
def mountPoint (g : Opt CStr CStr) : Option CStr :=
  if g.word ∈ mountWords then g.args.getLast? else none

/-- The option mounts something at a path or above. -/
def covers (path : List (List UInt8)) (g : Opt CStr CStr) : Bool :=
  (mountPoint g).any fun m => decide (components m <+: path)

/-- The last option that mounts something at a path or above. -/
def lastMount (path : List (List UInt8)) : List (Opt CStr CStr) → Option (Opt CStr CStr) :=
  lastSet fun g => if covers path g then some g else none

theorem covers_iff {path : List (List UInt8)} {g : Opt CStr CStr} :
    covers path g = true ↔ ∃ m, mountPoint g = some m ∧ components m <+: path := by
  rw [covers, Option.any_eq_true]
  simp only [decide_eq_true_eq]

/-! ## The option of an export -/

/-- The option of a mode. -/
def modeWord : RedExportFlag → CStr
  | .exportPrivate | .exportPublic | .exportPrivateFile | .exportPublicFile => CStr.lit "--bind"
  | .exportRestrictedFile | .exportRestricted | .exportPrivateRestricted => CStr.lit "--ro-bind"
  | .exportSymlink => CStr.lit "--symlink"
  | .exportExecfd => CStr.lit "--file"
  | .exportInternal => CStr.lit "--file"
  | .exportAnonymous => CStr.lit "--dir"
  | .exportTmpfs => CStr.lit "--tmpfs"
  | .exportDevfs => CStr.lit "--dev"
  | .exportProcfs => CStr.lit "--proc"
  | .exportMquefs => CStr.lit "--mqueue"
  | .exportLock => CStr.lit "--lock-file"

/-- The options with a source in front of the mount. -/
def sourceWords : List CStr := [CStr.lit "--bind", CStr.lit "--ro-bind", CStr.lit "--symlink"]

/-- The option mounts what an export says, in the context of its node. -/
structure MountsExport (expand : ExpandCtx → CStr → Option CStr) (exp : RedConfExportPath)
    (node : Family) (g : Opt CStr CStr) : Prop where
  word : g.word = modeWord exp.mode
  mount : ∃ m, mountIn expand node exp = some m ∧ g.args.getLast? = some m
  source : g.word ∈ sourceWords → ∃ s, exportSource expand exp node = some s ∧ g.args.head? = some s

section

variable {ω : Type} {expand : ExpandCtx → CStr → Option CStr} {env : RedEnv} {depth : Nat}
  {los : LaunchOs ω} {stack : Stack} {rs rs' : RedwrapState ω} {node : Family}

theorem modeArgs_eq (los : LaunchOs ω) (rs : RedwrapState ω) (exp : RedConfExportPath)
    (source mount : Option CStr) :
    ∃ sources, modeArgs los rs exp source mount =
        some (modeWord exp.mode) :: (sources ++ [mount]) ∧
      (modeWord exp.mode ∈ sourceWords → sources = [source]) := by
  unfold modeArgs modeWord
  cases exp.mode <;>
    first
    | exact ⟨[source], rfl, fun _ => rfl⟩
    | exact ⟨[_], rfl, fun hmem => absurd hmem (by decide)⟩
    | exact ⟨[], rfl, fun hmem => absurd hmem (by decide)⟩

/-- **The option of an export** mounts what the export says, once its arguments are there. -/
theorem mountsExport_of_mem {exp : RedConfExportPath} {g : LaunchOption}
    (hg : g ∈ turnOptions expand env los stack rs (.exportPath exp node))
    (hpresent : none ∉ g.args) : MountsExport expand exp node g.plain := by
  have hg' : g ∈ optionOf (exportArgs expand los rs exp node) := hg
  unfold exportArgs at hg'
  cases hstate : exportState expand los rs exp node with
  | error halt => rw [hstate] at hg'; cases hg'
  | ok state =>
    rw [hstate] at hg'
    cases state with
    | none => cases hg'
    | some rs' =>
      obtain ⟨sources, hargs, hsources⟩ := modeArgs_eq los rs' exp (exportSource expand exp node)
        (mountIn expand node exp)
      dsimp only at hg'
      rw [hargs] at hg'
      obtain rfl := List.mem_singleton.mp hg'
      have hfirst : none ∉ sources := fun h => hpresent (List.mem_append_left _ h)
      cases hm : mountIn expand node exp with
      | none => exact absurd (List.mem_append_right _ (by simp [hm])) hpresent
      | some m =>
        have hseen : Layered.seen (sources ++ [some m]) = Layered.seen sources ++ [m] :=
          Layered.seen_append_of_present hfirst _
        refine ⟨rfl, ⟨m, hm, ?_⟩, fun hmem => ?_⟩
        · rw [Opt.plain, hseen]
          exact List.getLast?_concat
        · obtain rfl := hsources hmem
          cases hs : exportSource expand exp node with
          | none => exact absurd (by simp [hs]) hfirst
          | some s => exact ⟨s, rfl, rfl⟩

/-! ## The options of the exports -/

/-- An option that is given later does not mount something above. -/
def LaterBelow (g g' : Opt CStr CStr) : Prop :=
  ∀ m m', mountPoint g = some m → mountPoint g' = some m' → ¬ Below m' m

theorem mountPoint_export {exp : RedConfExportPath} {g : Opt CStr CStr} {m : CStr}
    (h : MountsExport expand exp node g) (hm : mountPoint g = some m) :
    mountIn expand node exp = some m := by
  obtain ⟨m', hin, hlast⟩ := h.mount
  unfold mountPoint at hm
  split at hm
  · rw [hlast] at hm
    exact hin.trans hm
  · cases hm

theorem pairwise_optionOf {S : LaunchOption → LaunchOption → Prop}
    (args : Except Halt (List (Option CStr))) : (optionOf args).Pairwise S := by
  unfold optionOf oneOption
  split
  · split
    · exact List.pairwise_singleton _ _
    · exact .nil
  · exact .nil

theorem pairwise_delivered (h : FirstInOrder expand node) :
    (delivered expand node).Pairwise fun p q => ∀ m m', mountIn expand p.2 p.1 = some m →
      mountIn expand q.2 q.1 = some m' → ¬ Below m' m := by
  rcases delivered_cases expand node with ⟨ls, -, hls, hdel, -⟩ | ⟨-, hdel, -⟩
  · have hout := outerFirst_of_firstInOrder expand
      (Mix.Lawful.holds_of_links (mixExpLaw expand) hls) h
    rw [hdel, List.pairwise_iff_getElem]
    intro i j hi hj hij m m' hm hm' hbelow
    have hji := hout j i _ _ m' m (List.getElem?_eq_getElem hj) (List.getElem?_eq_getElem hi) hm' hm
      hbelow
    omega
  · rw [hdel]
    exact .nil

theorem exportTurns_cases {t : Turn} (ht : t ∈ exportTurns expand node) :
    t = .refuse ∨ t = .crash ∨ ∃ p ∈ delivered expand node, t = .exportPath p.1 p.2 := by
  unfold exportTurns at ht
  split at ht
  · split at ht
    · exact .inl (List.mem_singleton.mp ht)
    · obtain ⟨p, hp, rfl⟩ := List.mem_map.mp ht
      exact .inr (.inr ⟨p, hp, rfl⟩)
  · split at ht
    · exact .inl (List.mem_singleton.mp ht)
    · exact .inr (.inl (List.mem_singleton.mp ht))

theorem exportPath_of_mem {t : Turn} (ht : t ∈ exportTurns expand node) {g : LaunchOption}
    (hg : g ∈ turnOptions expand env los stack rs t) :
    ∃ p ∈ delivered expand node, t = .exportPath p.1 p.2 := by
  rcases exportTurns_cases ht with rfl | rfl | h
  · cases hg
  · cases hg
  · exact h

/-- **The order of the options** is that of the exports. -/
theorem pairwise_exportTurns (h : FirstInOrder expand node) {rs : RedwrapState ω}
    (hpresent : ∀ g ∈ gathered (launchTurn expand env los) (turnOptions expand env los) stack rs
      (exportTurns expand node), none ∉ g.args) :
    ((gathered (launchTurn expand env los) (turnOptions expand env los) stack rs
      (exportTurns expand node)).map Opt.plain).Pairwise LaterBelow := by
  have hturns : (exportTurns expand node).Pairwise fun t t' => ∀ e f e' f',
      t = .exportPath e f → t' = .exportPath e' f' → ∀ m m', mountIn expand f e = some m →
        mountIn expand f' e' = some m' → ¬ Below m' m := by
    unfold exportTurns
    split
    · split
      · exact List.pairwise_singleton _ _
      · refine List.pairwise_map.mpr ((pairwise_delivered h).imp fun {p q} hpq => ?_)
        intro e f e' f' he he' m m' hm hm'
        cases he
        cases he'
        exact hpq m m' hm hm'
    · split <;> exact List.pairwise_singleton _ _
  have hgot : (gathered (launchTurn expand env los) (turnOptions expand env los) stack rs
      (exportTurns expand node)).Pairwise fun g g' => none ∉ g.args → none ∉ g'.args →
        LaterBelow g.plain g'.plain := by
    refine Layered.gathered_pairwise _ _ _ hturns (fun t ht t' ht' hrel s s' g g' hg hg' => ?_)
      fun t ht s => ?_
    · intro hfirst hsecond m m' hm hm'
      obtain ⟨p, -, rfl⟩ := exportPath_of_mem ht hg
      obtain ⟨q, -, rfl⟩ := exportPath_of_mem ht' hg'
      exact hrel _ _ _ _ rfl rfl m m' (mountPoint_export (mountsExport_of_mem hg hfirst) hm)
        (mountPoint_export (mountsExport_of_mem hg' hsecond) hm')
    · rcases exportTurns_cases ht with rfl | rfl | ⟨p, -, rfl⟩
      · exact .nil
      · exact .nil
      · exact pairwise_optionOf _
  refine List.pairwise_map.mpr (hgot.imp_of_mem fun {g g'} hg hg' hrel => ?_)
  exact hrel (hpresent g hg) (hpresent g' hg')

end

/-! ## The mounts of a launch -/

section

variable {ω : Type} {os : ExecOs ω} {creds : Credentials}
  {expand : ExpandCtx → CStr → Option CStr} {env : RedEnv} {depth : Nat} {commandName : CStr}
  {cliarg : RWrapConfig} {subargv : List CStr} {rednode : Family} {o : ω} {stack : Stack}
  {exec : Exec}

/-- The option for a path: that of the delivered export whose mount is the nearest one above it,
among all mounts that are read. -/
structure Shows (expand : ExpandCtx → CStr → Option CStr) (node : Family)
    (got : List (Opt CStr CStr)) (path : List (List UInt8)) (g : Opt CStr CStr) : Prop where
  mem : g ∈ got
  above : covers path g = true
  exported : ∃ p ∈ delivered expand node, MountsExport expand p.1 p.2 g
  nearest : ∀ g' ∈ got, ∀ m m', mountPoint g = some m → mountPoint g' = some m' →
    components m' <+: path → components m' <+: components m

theorem mountPoint_of_notMem {g : Opt CStr CStr} (h : g.word ∉ mountWords) :
    mountPoint g = none := if_neg h

/-- The options of a launch: those of the exports come first. -/
theorem launchOptions_exports {rs : RedwrapState ω}
    (hrun : turns (launchTurn expand env (os.launchOs creds)) stack
      (.start commandName cliarg.strict cliarg.dump o rednode)
      (sandboxTurns expand env depth rednode) = .ok rs) :
    ∃ others, launchOptions os creds expand env depth commandName cliarg rednode o stack =
        gathered (launchTurn expand env (os.launchOs creds))
          (turnOptions expand env (os.launchOs creds)) stack
          (.start commandName cliarg.strict cliarg.dump o rednode) (exportTurns expand rednode) ++
            others ∧
      ∀ g ∈ others, g.word ∉ mountWords := by
  unfold launchOptions
  rw [sandboxTurns, List.append_assoc] at hrun ⊢
  obtain ⟨u, -, -, happ⟩ := Layered.exists_gathered_append _
    (turnOptions expand env (os.launchOs creds)) stack hrun
  refine ⟨_, happ, fun g hg hword => ?_⟩
  have hgives : ∀ t ∈ varTurns rednode ++ (conftagTurns expand rednode ++
      (pathTurn pathName (recordedPath env depth rednode fun config => config.conftag.path) ++
        pathTurn ldpathName (recordedPath env depth rednode fun config => config.conftag.ldpath))),
      t.GivesOnly (envOptions ++ tagOptions) := by
    intro t ht
    simp only [List.mem_append] at ht
    rcases ht with ht | ht | ht | ht
    · exact (varTurns_givesOnly rednode t ht).mono fun p => List.mem_append_left _
    · exact (conftagTurns_givesOnly rednode t ht).mono fun p => List.mem_append_right _
    · exact (pathTurn_givesOnly _ _ t ht).mono fun p => List.mem_append_left _
    · exact (pathTurn_givesOnly _ _ t ht).mono fun p => List.mem_append_left _
  have hdisjoint : ∀ p ∈ envOptions ++ tagOptions, p.1 ∉ mountWords := by decide
  exact hdisjoint _ (among_gathered hgives g hg) hword

/-- Options that mount nothing do not count for the order. -/
theorem pairwise_append_nothing {gs gs' : List (Opt CStr CStr)} (h : gs.Pairwise LaterBelow)
    (hnothing : ∀ g ∈ gs', mountPoint g = none) : (gs ++ gs').Pairwise LaterBelow := by
  refine List.pairwise_append.mpr ⟨h, ?_, fun g _ g' hg' m m' _ hm' => ?_⟩
  · refine List.pairwise_of_forall_mem_list fun g _ g' hg' m m' _ hm' => ?_
    rw [hnothing g' hg'] at hm'
    cases hm'
  · rw [hnothing g' hg'] at hm'
    cases hm'

/-- **The mounts.** When the options of a launch are read from its arguments, the last mount above a
path is that of the delivered export with the nearest mount above it, of those that are mounted: an
option never mounts something above what an earlier one mounts. -/
theorem lastMount_spec (hconfigs : ∀ f ∈ rednode.toRoot, f.node.config ≠ none)
    {arity : CStr → Option Nat} (hknows : Knows arity)
    (h : redwrapExec os creds expand env depth commandName cliarg subargv rednode o stack =
      .ok exec) (hplain : readOpts arity subargv = .ok ([], subargv))
    {got : List (Opt CStr CStr)} {command : List CStr}
    (hread : argvReads arity exec = .ok (got, command))
    (horder : FirstInOrder expand rednode) (path : List (List UInt8)) :
    (∀ g, lastMount path got = some g → Shows expand rednode got path g) ∧
      (lastMount path got = none → ∀ g ∈ got, covers path g = false) := by
  obtain ⟨hpresent, rfl, -⟩ := (redwrapExec_reads hconfigs hknows h).ok hplain hread
  obtain ⟨rs, hrun, -⟩ := redwrapExec_ok hconfigs h
  obtain ⟨others, happ, hothers⟩ := launchOptions_exports hrun
  rw [happ] at hpresent ⊢
  have hfirst : ∀ g ∈ gathered (launchTurn expand env (os.launchOs creds))
      (turnOptions expand env (os.launchOs creds)) stack
      (.start commandName cliarg.strict cliarg.dump o rednode) (exportTurns expand rednode),
      none ∉ g.args := fun g hg => hpresent g (List.mem_append_left _ hg)
  have hnothing : ∀ g ∈ others.map Opt.plain, mountPoint g = none := by
    intro g hg
    obtain ⟨g', hg', rfl⟩ := List.mem_map.mp hg
    exact mountPoint_of_notMem (hothers g' hg')
  rw [List.map_append]
  have hpairs := pairwise_append_nothing (pairwise_exportTurns horder hfirst) hnothing
  refine ⟨fun g hg => ?_, fun hnone g hg => ?_⟩
  · obtain ⟨hmem, habove, hlast⟩ := Layered.lastSet_last hpairs hg
    obtain ⟨m, hm, hmount⟩ := covers_iff.mp habove
    refine ⟨hmem, habove, ?_, fun g' hg' m₁ m' hm₁ hm' habove' => ?_⟩
    · rcases List.mem_append.mp hmem with hmem | hmem
      · obtain ⟨g', hg', rfl⟩ := List.mem_map.mp hmem
        obtain ⟨t, ht, s, hout⟩ := Layered.mem_gathered _ _ _ hg'
        obtain ⟨p, hp, rfl⟩ := exportPath_of_mem ht hout
        exact ⟨p, hp, mountsExport_of_mem hout (hfirst g' hg')⟩
      · rw [hnothing g hmem] at hm
        cases hm
    · obtain rfl : m = m₁ := Option.some.inj (hm.symm.trans hm₁)
      rcases hlast g' hg' (covers_iff.mpr ⟨m', hm', habove'⟩) with rfl | hlater
      · obtain rfl : m = m' := Option.some.inj (hm.symm.trans hm')
        exact List.prefix_rfl
      · rcases List.prefix_or_prefix_of_prefix habove' hmount with hle | hle
        · exact hle
        · have hnot := hlater m' m hm' hm
          by_cases heq : components m = components m'
          · exact heq ▸ List.prefix_rfl
          · exact absurd ⟨hle, heq⟩ hnot
  · have hset := Layered.lastSet_eq_none.mp hnone g hg
    split at hset
    · cases hset
    · exact Bool.eq_false_iff.mpr ‹_›

end

/-! ### A mount below another one -/

theorem firstInOrder_homeLeaf : FirstInOrder expandPlain homeLeaf := by
  obtain ⟨ls, hls, hcalls⟩ : ∃ ls, (mixExpLaw expandPlain).links homeLeaf = some ls ∧
      (sortedLinks expandPlain ls).map (fun l => (l.cur.val, l.cur.level)) =
        [(usrExport, homeRoot), (shareExport, homeLeaf)] := ⟨_, rfl, rfl⟩
  refine firstInOrder_of_outerFirst expandPlain (Mix.Lawful.holds_of_links _ hls) ?_
  rw [hcalls]
  intro i j p q m₁ m₂ hp hq hm₁ hm₂ hbelow
  match i, j with
  | 0, 0 => cases hp; cases hq; cases hm₁; cases hm₂; exact absurd hbelow (not_below_self _)
  | 0, 1 => exact Nat.one_pos
  | 1, 0 => cases hp; cases hq; cases hm₁; cases hm₂; exact absurd hbelow (by decide)
  | 1, 1 => cases hp; cases hq; cases hm₁; cases hm₂; exact absurd hbelow (not_below_self _)
  | _ + 2, _ => cases hp
  | 0, _ + 2 => cases hq
  | 1, _ + 2 => cases hq

theorem lastMount_spec_homeLeaf : ∃ exec got, redwrapExec readyOs leafCreds expandPlain silentEnv 1
      (CStr.lit "redwrap") homeArgs.toRWrapConfig [CStr.lit "sh"] homeLeaf () clearStack =
        .ok exec ∧ argvReads plainBwrap exec = .ok (got, [CStr.lit "sh"]) ∧
    lastMount (components (CStr.lit "/usr/share/doc")) got =
      some ⟨CStr.lit "--ro-bind", [CStr.lit "/usr/share", CStr.lit "/usr/share"]⟩ ∧
    ∀ path, (∀ g, lastMount path got = some g → Shows expandPlain homeLeaf got path g) ∧
      (lastMount path got = none → ∀ g ∈ got, covers path g = false) := by
  obtain ⟨exec, hexec, hentries⟩ := launch_homeLeaf
  obtain ⟨got, hread, hshown⟩ : ∃ got,
      argvReads plainBwrap exec = .ok (got, [CStr.lit "sh"]) ∧
      lastMount (components (CStr.lit "/usr/share/doc")) got =
        some ⟨CStr.lit "--ro-bind", [CStr.lit "/usr/share", CStr.lit "/usr/share"]⟩ := by
    rw [argvReads, hentries]
    exact ⟨_, rfl, rfl⟩
  exact ⟨exec, got, hexec, hread, hshown, fun path =>
    lastMount_spec (by decide) knows_plainBwrap hexec plain_sh hread firstInOrder_homeLeaf path⟩

end Wrap
end RedPak
