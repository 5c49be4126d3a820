import RedPak.Wrap.Directory
import RedPak.Wrap.LaunchTurns

/-!
# Wrap.Sources

The sources of binds. An export of a directory or a file is bound if its source is there, where a
missing directory is created first unless the launch is strict; else there is a warning.

* `setOneExport_directory`, `setOneExport_unchecked`, `setOneExport_file`: what is done with an
  export, by the mask that its mode is in.
* `bindsExisting_iff`: for which exports this is what `set_one_export` does.
-/

namespace RedPak
namespace Wrap

open Conf

variable {ω : Type}

/-! ## What is done with an export -/

/-- The arguments are added in the system, or there are too many. -/
def Adds (x : Except Halt (RedwrapState ω)) (rs : RedwrapState ω) (args : List (Option CStr))
    (o : ω) : Prop :=
  if rs.argval.length + args.length ≤ maxBwrapArgs then
    ∃ rs', x = .ok rs' ∧ rs'.argval = rs.argval ++ args ∧ rs'.os = o
  else x = .error .exit

/-- There is a warning, and nothing else. -/
def Warns (x : Except Halt (RedwrapState ω)) (rs : RedwrapState ω) (o : ω) : Prop :=
  ∃ rs' entry, x = .ok rs' ∧ rs'.argval = rs.argval ∧ rs'.os = o ∧ rs'.log = rs.log ++ [entry] ∧
    entry.level = .warning

theorem adds_addAll (rs : RedwrapState ω) (args : List (Option CStr)) :
    Adds (addAll rs args) rs args rs.os := by
  have hemits := emits_addAll rs args
  unfold Adds
  split
  · rename_i hfits
    obtain ⟨rs', hrun⟩ := hemits.ends.mpr hfits
    obtain ⟨_, rfl⟩ := addAll_ok hrun
    exact ⟨_, hrun, rfl, rfl⟩
  · rename_i hfull
    cases hrun : addAll rs args with
    | ok rs' => exact absurd (hemits.ends.mp ⟨rs', hrun⟩) hfull
    | error halt => rw [hemits.stops halt hrun]

theorem Adds.of_full {x : Except Halt (RedwrapState ω)} {rs : RedwrapState ω}
    {args : List (Option CStr)} {o : ω} (h : Adds x rs args o)
    (hfull : ¬ rs.argval.length + args.length ≤ maxBwrapArgs) (o' : ω) : Adds x rs args o' := by
  unfold Adds at h ⊢
  rwa [if_neg hfull] at h ⊢

theorem Adds.os_unique {x : Except Halt (RedwrapState ω)} {rs : RedwrapState ω}
    {args args' : List (Option CStr)} {o o' : ω} (h : Adds x rs args o) (h' : Adds x rs args' o')
    (hlen : args'.length = args.length) (hfits : rs.argval.length + args.length ≤ maxBwrapArgs) :
    o = o' := by
  unfold Adds at h h'
  rw [if_pos hfits] at h
  rw [hlen, if_pos hfits] at h'
  obtain ⟨rs', hrun, -, rfl⟩ := h
  obtain ⟨rs'', hrun', -, rfl⟩ := h'
  cases hrun.symm.trans hrun'
  rfl

theorem Adds.not_warns {x : Except Halt (RedwrapState ω)} {rs : RedwrapState ω}
    {args : List (Option CStr)} {o o' : ω} (h : Adds x rs args o) (hargs : args ≠ []) :
    ¬ Warns x rs o' := by
  rintro ⟨rs', entry, hrun, hsame, -⟩
  unfold Adds at h
  split at h
  · obtain ⟨rs'', hrun', happended, -⟩ := h
    cases hrun.symm.trans hrun'
    exact hargs (List.append_cancel_left (happended.symm.trans (hsame.trans (by simp))))
  · cases hrun.symm.trans h

section

variable (expand : ExpandCtx → CStr → Option CStr) (os : DirOs ω) (creds : Credentials)

/-- `--bind` for the modes that read and write, `--ro-bind` for the restricted ones. -/
def bindOption : RedExportFlag → Option CStr
  | .exportPrivate | .exportPublic | .exportPrivateFile | .exportPublicFile =>
    some (CStr.lit "--bind")
  | .exportRestricted | .exportPrivateRestricted | .exportRestrictedFile =>
    some (CStr.lit "--ro-bind")
  | _ => none

/-- The modes for directories. -/
def directoryModes : List RedExportFlag :=
  [.exportPrivate, .exportRestricted, .exportPublic, .exportPrivateRestricted]

/-- The directory is created. -/
def created (rs : RedwrapState ω) (path : CStr) : Int × ω :=
  ensureDirectory os creds path path.bytes.length rs.os

/-- The system in which the source is looked for: a missing directory is created first, unless the
launch is strict. -/
def sourceOs (rs : RedwrapState ω) (mode : RedExportFlag) (source : Option CStr) : ω :=
  if mode ∈ directoryModes ∧ os.stat rs.os source ≠ 0 ∧ rs.strict = false then
    match source with
    | some path => (created os creds rs path).2
    | none => rs.os
  else rs.os

/-- A bind is emitted if the source is there, and else there is a warning. -/
structure BindsExisting (rs : RedwrapState ω) (exp : RedConfExportPath) (node : Family) : Prop where
  present : os.stat (sourceOs os creds rs exp.mode (exportSource expand exp node))
      (exportSource expand exp node) = 0 →
    ∃ option source mount, bindOption exp.mode = some option ∧
      exportSource expand exp node = some source ∧ mountIn expand node exp = some mount ∧
      Adds (setOneExport expand (os.redOs creds) rs exp node) rs
        [some option, some source, some mount]
        (sourceOs os creds rs exp.mode (exportSource expand exp node))
  absent : os.stat (sourceOs os creds rs exp.mode (exportSource expand exp node))
      (exportSource expand exp node) ≠ 0 →
    Warns (setOneExport expand (os.redOs creds) rs exp node) rs
      (sourceOs os creds rs exp.mode (exportSource expand exp node))

/-- The array of arguments has no room for a bind. -/
def Full (rs : RedwrapState ω) : Prop := maxBwrapArgs < rs.argval.length + 3

/-- When a bind is emitted as it should be. A source whose creation fails must not be there, the
mount of a source that is there has to expand; the directory of a private and restricted export has
to be there already, unless there is no room anyway; and files never are. -/
def BindsRight (rs : RedwrapState ω) (exp : RedConfExportPath) (node : Family) : Prop :=
  match exp.mode with
  | .exportPrivate | .exportRestricted | .exportPublic =>
    (os.stat rs.os (exportSource expand exp node) ≠ 0 → rs.strict = false →
      ∃ path, exportSource expand exp node = some path ∧
        ((created os creds rs path).1 = 0 ∨
          os.stat (created os creds rs path).2 (some path) ≠ 0)) ∧
    (os.stat (sourceOs os creds rs exp.mode (exportSource expand exp node))
      (exportSource expand exp node) = 0 → mountIn expand node exp ≠ none)
  | .exportPrivateRestricted =>
    (os.stat rs.os (exportSource expand exp node) = 0 ∨
      Full rs ∧ os.stat (sourceOs os creds rs exp.mode (exportSource expand exp node))
        (exportSource expand exp node) = 0) ∧ mountIn expand node exp ≠ none
  | _ => False

end

variable {expand : ExpandCtx → CStr → Option CStr} {os : DirOs ω} {creds : Credentials}
  {rs : RedwrapState ω} {exp : RedConfExportPath} {node : Family}

theorem warnExport_warns {rs' : RedwrapState ω} {redOs : RedOs ω} {format : String} {path : CStr}
    (hconfig : node.node.config ≠ none) (harg : rs'.argval = rs.argval) (hlog : rs'.log = rs.log) :
    Warns (warnExport redOs rs' node format path) rs rs'.os := by
  obtain ⟨config, hconfig⟩ := Option.ne_none_iff_exists'.mp hconfig
  rw [warnExport, hconfig]
  exact ⟨_, _, rfl, harg, rfl, congrArg (· ++ _) hlog, rfl⟩

theorem Adds.from {x : Except Halt (RedwrapState ω)} {rs' : RedwrapState ω}
    {args : List (Option CStr)} {o : ω} (h : Adds x rs' args o) (harg : rs'.argval = rs.argval) :
    Adds x rs args o := by
  unfold Adds at h ⊢
  rwa [harg] at h

theorem emitExport_eq {redOs : RedOs ω} {path : CStr} {source mount : Option CStr} {option : CStr}
    (h : bindOption exp.mode = some option) :
    emitExport redOs rs exp.mode exp.mount path source mount =
      addAll rs [some option, source, mount] := by
  unfold bindOption at h
  unfold emitExport
  cases hmode : exp.mode <;> rw [hmode] at h <;> cases h <;> rfl

/-- The modes that `RED_EXPORT_DIRS` has. -/
def checkedModes : List RedExportFlag := [.exportPrivate, .exportRestricted, .exportPublic]

def fileModes : List RedExportFlag := [.exportPrivateFile, .exportRestrictedFile, .exportPublicFile]

theorem checkedModes_spec : ∀ mode ∈ checkedModes,
    mode.bits &&& redExportDirs ≠ 0 ∧ mode ∈ directoryModes ∧ bindOption mode ≠ none := by
  decide

theorem fileModes_spec : ∀ mode ∈ fileModes, ¬ mode.bits &&& redExportDirs ≠ 0 ∧
    mode.bits &&& redExportFiles ≠ 0 ∧ mode ∉ directoryModes ∧ bindOption mode ≠ none := by
  decide

theorem checkDirectory_found {source : Option CStr} (h : os.stat rs.os source = 0 ∨
    rs.strict = true) :
    checkDirectory (os.redOs creds) rs source = .ok (os.stat rs.os source, rs) := by
  have hcond : ¬ (os.stat rs.os source ≠ 0 ∧ rs.strict = false) := by
    rintro ⟨hstat, hstrict⟩
    rcases h with h | h
    · exact hstat h
    · rw [hstrict] at h
      cases h
  exact if_neg hcond

theorem checkDirectory_missing {path : CStr} (hstat : os.stat rs.os (some path) ≠ 0)
    (hstrict : rs.strict = false) (hdump : rs.dump ≤ 1) :
    checkDirectory (os.redOs creds) rs (some path) = .ok ((created os creds rs path).1,
      { rs with os := (created os creds rs path).2 }) :=
  (if_pos ⟨hstat, hstrict⟩).trans (if_neg (Int.not_lt.mpr hdump))

/-- `strlen` of a NULL path. -/
theorem checkDirectory_null (hstat : os.stat rs.os none ≠ 0) (hstrict : rs.strict = false)
    (hdump : rs.dump ≤ 1) : checkDirectory (os.redOs creds) rs none = .error .fault :=
  (if_pos ⟨hstat, hstrict⟩).trans (if_neg (Int.not_lt.mpr hdump))

/-- What is in `RED_EXPORT_DIRS` is looked for, and created if it is missing. -/
theorem setOneExport_directory (hmode : exp.mode ∈ checkedModes) {option : CStr}
    (hoption : bindOption exp.mode = some option)
    (hown : exp.mode.isPrivate = true → node = rs.rednode) :
    setOneExport expand (os.redOs creds) rs exp node =
      match checkDirectory (os.redOs creds) rs (exportSource expand exp node) with
      | .error halt => .error halt
      | .ok (err, rs) =>
        if err ≠ 0 then
          warnExport (os.redOs creds) rs node
            "*** Node [%s] export expanded path=%s does not exist (error=%s) [--strict mode]"
            (exp.path.getD exp.mount)
        else addAll rs [some option, exportSource expand exp node, mountIn expand node exp] := by
  obtain ⟨hdirs, -⟩ := checkedModes_spec _ hmode
  have hskip : ¬ (exp.mode.isPrivate = true ∧ node ≠ rs.rednode) := fun h => h.2 (hown h.1)
  unfold setOneExport
  dsimp only
  rw [if_neg hskip, if_pos hdirs]
  simp only [emitExport_eq hoption]
  rfl

/-- `RED_EXPORT_PRIVATE_RESTRICTED` is in no mask. -/
theorem setOneExport_unchecked (hmode : exp.mode = .exportPrivateRestricted) :
    setOneExport expand (os.redOs creds) rs exp node =
      addAll rs [CStr.lit "--ro-bind", exportSource expand exp node, mountIn expand node exp] := by
  unfold setOneExport
  rw [hmode]
  rfl

/-- What is in `RED_EXPORT_FILES` is bound if it is missing. -/
theorem setOneExport_file (hmode : exp.mode ∈ fileModes) {option : CStr}
    (hoption : bindOption exp.mode = some option)
    (hown : exp.mode.isPrivate = true → node = rs.rednode) :
    setOneExport expand (os.redOs creds) rs exp node =
      if os.stat rs.os (exportSource expand exp node) ≥ 0 then
        warnExport (os.redOs creds) rs node
          "*** Node [%s] export path=%s Missing file, not mount for now(error=%s)"
          ((exportSource expand exp node).getD (CStr.lit "(null)"))
      else addAll rs [some option, exportSource expand exp node, mountIn expand node exp] := by
  obtain ⟨hdirs, hfiles, -⟩ := fileModes_spec _ hmode
  have hskip : ¬ (exp.mode.isPrivate = true ∧ node ≠ rs.rednode) := fun h => h.2 (hown h.1)
  unfold setOneExport
  dsimp only
  rw [if_neg hskip, if_neg hdirs]
  simp only [emitExport_eq hoption]
  by_cases hstat : os.stat rs.os (exportSource expand exp node) ≥ 0
  · rw [if_pos hstat]
    exact if_pos ⟨hfiles, hstat⟩
  · rw [if_neg hstat]
    exact if_neg fun h => hstat h.2

/-! ## Which sources are bound -/

theorem sourceOs_found {mode : RedExportFlag} {source : Option CStr}
    (h : os.stat rs.os source = 0 ∨ rs.strict = true) :
    sourceOs os creds rs mode source = rs.os := by
  refine if_neg ?_
  rintro ⟨-, hstat, hstrict⟩
  rcases h with h | h
  · exact hstat h
  · rw [hstrict] at h
    cases h

theorem sourceOs_missing {mode : RedExportFlag} {path : CStr} (hmode : mode ∈ directoryModes)
    (hstat : os.stat rs.os (some path) ≠ 0) (hstrict : rs.strict = false) :
    sourceOs os creds rs mode (some path) = (created os creds rs path).2 :=
  if_pos ⟨hmode, hstat, hstrict⟩

theorem sourceOs_null {mode : RedExportFlag} : sourceOs os creds rs mode none = rs.os := by
  rw [sourceOs]
  split <;> rfl

theorem bindsExisting_of_adds {option : CStr} (hoption : bindOption exp.mode = some option)
    (hos : os.Lawful)
    (hstat : os.stat (sourceOs os creds rs exp.mode (exportSource expand exp node))
      (exportSource expand exp node) = 0)
    (hadds : Adds (setOneExport expand (os.redOs creds) rs exp node) rs
      [some option, exportSource expand exp node, mountIn expand node exp]
      (sourceOs os creds rs exp.mode (exportSource expand exp node))) :
    BindsExisting expand os creds rs exp node ↔ mountIn expand node exp ≠ none := by
  constructor
  · intro h
    obtain ⟨_, _, mount, -, -, hmount, -⟩ := h.present hstat
    rw [hmount]
    exact nofun
  · intro h
    obtain ⟨mount, hmount⟩ := Option.ne_none_iff_exists'.mp h
    obtain ⟨source, hsource⟩ : ∃ source, exportSource expand exp node = some source := by
      refine Option.ne_none_iff_exists'.mp fun hnone => ?_
      rw [hnone, hos.stat_null] at hstat
      cases hstat
    refine ⟨fun _ => ⟨option, source, mount, hoption, hsource, hmount, ?_⟩,
      fun hmissing => absurd hstat hmissing⟩
    rw [hsource, hmount] at hadds
    rwa [hsource]

theorem bindsExisting_of_warns
    (hwarns : Warns (setOneExport expand (os.redOs creds) rs exp node) rs
      (sourceOs os creds rs exp.mode (exportSource expand exp node))) :
    BindsExisting expand os creds rs exp node ↔
      os.stat (sourceOs os creds rs exp.mode (exportSource expand exp node))
        (exportSource expand exp node) ≠ 0 := by
  constructor
  · intro h hstat
    obtain ⟨_, _, _, -, -, -, hadds⟩ := h.present hstat
    exact hadds.not_warns (List.cons_ne_nil _ _) hwarns
  · exact fun hmissing => ⟨fun hstat => absurd hstat hmissing, fun _ => hwarns⟩

section

variable (hos : os.Lawful) (hconfig : node.node.config ≠ none)
  (hown : exp.mode.isPrivate = true → node = rs.rednode)

include hos hconfig hown

theorem bindsExisting_directory (hmode : exp.mode ∈ checkedModes) (hdump : rs.dump ≤ 1) :
    BindsExisting expand os creds rs exp node ↔
      (os.stat rs.os (exportSource expand exp node) ≠ 0 → rs.strict = false →
        ∃ path, exportSource expand exp node = some path ∧
          ((created os creds rs path).1 = 0 ∨
            os.stat (created os creds rs path).2 (some path) ≠ 0)) ∧
      (os.stat (sourceOs os creds rs exp.mode (exportSource expand exp node))
        (exportSource expand exp node) = 0 → mountIn expand node exp ≠ none) := by
  obtain ⟨-, hdirectory, hbind⟩ := checkedModes_spec _ hmode
  obtain ⟨option, hoption⟩ := Option.ne_none_iff_exists'.mp hbind
  have hrun := @setOneExport_directory ω expand os creds rs exp node hmode option hoption hown
  by_cases hfound : os.stat rs.os (exportSource expand exp node) = 0
  · -- the source is there
    have hsourceOs : sourceOs os creds rs exp.mode (exportSource expand exp node) = rs.os :=
      sourceOs_found (.inl hfound)
    rw [checkDirectory_found (.inl hfound)] at hrun
    dsimp only at hrun
    rw [if_neg (not_not_intro hfound)] at hrun
    rw [bindsExisting_of_adds hoption hos (by rw [hsourceOs]; exact hfound)
      (by rw [hrun, hsourceOs]; exact adds_addAll _ _), hsourceOs]
    exact ⟨fun h => ⟨fun hmissing => absurd hfound hmissing, fun _ => h⟩, fun h => h.2 hfound⟩
  cases hstrict : rs.strict with
  | true =>
    have hsourceOs : sourceOs os creds rs exp.mode (exportSource expand exp node) = rs.os :=
      sourceOs_found (.inr hstrict)
    rw [checkDirectory_found (.inr hstrict)] at hrun
    dsimp only at hrun
    rw [if_pos hfound] at hrun
    rw [bindsExisting_of_warns (by rw [hrun, hsourceOs]; exact warnExport_warns hconfig rfl rfl),
      hsourceOs]
    exact ⟨fun h => ⟨fun _ h => (by cases h), fun h' => absurd h' h⟩, fun _ => hfound⟩
  | false =>
    cases hsource : exportSource expand exp node with
    | none =>
      rw [hsource] at hfound hrun
      rw [checkDirectory_null hfound hstrict hdump] at hrun
      have hnot : ¬ BindsExisting expand os creds rs exp node := by
        intro h
        obtain ⟨_, _, hok, -⟩ := h.absent (by rw [hsource, sourceOs_null]; exact hfound)
        cases hrun.symm.trans hok
      refine ⟨fun h => absurd h hnot, fun h => ?_⟩
      obtain ⟨_, hpath, -⟩ := h.1 hfound rfl
      cases hpath
    | some path =>
      have hsourceOs : sourceOs os creds rs exp.mode (some path) =
          (created os creds rs path).2 := sourceOs_missing hdirectory (hsource ▸ hfound) hstrict
      have hfound' := hfound
      rw [hsource] at hfound' hrun
      rw [checkDirectory_missing hfound' hstrict hdump] at hrun
      dsimp only at hrun
      by_cases hcreated : (created os creds rs path).1 = 0
      · have hthere := ensureDirectory_exists hos hcreated
        rw [if_neg (not_not_intro hcreated)] at hrun
        rw [bindsExisting_of_adds hoption hos (by rw [hsource, hsourceOs]; exact hthere)
          (by rw [hrun, hsource, hsourceOs]; exact (adds_addAll _ _).from rfl), hsourceOs]
        exact ⟨fun h => ⟨fun _ _ => ⟨path, rfl, .inl hcreated⟩, fun _ => h⟩, fun h => h.2 hthere⟩
      · rw [if_pos hcreated] at hrun
        rw [bindsExisting_of_warns (by
          rw [hrun, hsource, hsourceOs]; exact warnExport_warns hconfig rfl rfl), hsource,
          hsourceOs]
        constructor
        · exact fun h => ⟨fun _ _ => ⟨path, rfl, .inr h⟩, fun h' => absurd h' h⟩
        · rintro ⟨h, -⟩
          obtain ⟨path', hpath, h' | h'⟩ := h hfound' rfl
          · cases hpath
            exact absurd h' hcreated
          · cases hpath
            exact h'

theorem bindsExisting_file (hmode : exp.mode ∈ fileModes) :
    ¬ BindsExisting expand os creds rs exp node := by
  obtain ⟨-, -, hdirectory, hbind⟩ := fileModes_spec _ hmode
  obtain ⟨option, hoption⟩ := Option.ne_none_iff_exists'.mp hbind
  have hsourceOs : sourceOs os creds rs exp.mode (exportSource expand exp node) = rs.os :=
    if_neg fun h => hdirectory h.1
  have hrun := @setOneExport_file ω expand os creds rs exp node hmode option hoption hown
  rcases hos.stat_range rs.os (exportSource expand exp node) with hthere | hmissing
  · -- the polarity of the test: a file that is there
    rw [if_pos (Int.le_of_eq hthere.symm)] at hrun
    rw [bindsExisting_of_warns (by rw [hrun, hsourceOs]; exact warnExport_warns hconfig rfl rfl),
      hsourceOs]
    exact not_not_intro hthere
  · have hneg : ¬ os.stat rs.os (exportSource expand exp node) ≥ 0 := by
      rw [hmissing]
      decide
    rw [if_neg hneg] at hrun
    intro h
    have hwarns := h.absent (by rw [hsourceOs, hmissing]; decide)
    rw [hrun] at hwarns
    exact (adds_addAll rs _).not_warns (List.cons_ne_nil _ _) hwarns

end

theorem bindsExisting_unchecked (hos : os.Lawful) (hmode : exp.mode = .exportPrivateRestricted) :
    BindsExisting expand os creds rs exp node ↔
      (os.stat rs.os (exportSource expand exp node) = 0 ∨
        Full rs ∧ os.stat (sourceOs os creds rs exp.mode (exportSource expand exp node))
          (exportSource expand exp node) = 0) ∧ mountIn expand node exp ≠ none := by
  have hoption : bindOption exp.mode = some (CStr.lit "--ro-bind") := by rw [hmode]; rfl
  have hrun := @setOneExport_unchecked ω expand os creds rs exp node hmode
  have hadds := adds_addAll rs
    [CStr.lit "--ro-bind", exportSource expand exp node, mountIn expand node exp]
  rw [← hrun] at hadds
  by_cases hthere : os.stat (sourceOs os creds rs exp.mode (exportSource expand exp node))
      (exportSource expand exp node) = 0
  · by_cases hfull : Full rs
    · -- the process exits, whatever the system is
      rw [bindsExisting_of_adds hoption hos hthere (hadds.of_full (Nat.not_le.mpr hfull) _)]
      exact ⟨fun h => ⟨.inr ⟨hfull, hthere⟩, h⟩, fun h => h.2⟩
    · by_cases hfound : os.stat rs.os (exportSource expand exp node) = 0
      · have hsourceOs : sourceOs os creds rs exp.mode (exportSource expand exp node) = rs.os :=
          sourceOs_found (.inl hfound)
        rw [bindsExisting_of_adds hoption hos hthere (by rw [hsourceOs]; exact hadds)]
        exact ⟨fun h => ⟨.inl hfound, h⟩, fun h => h.2⟩
      · -- it should have been created
        refine ⟨fun h => absurd ?_ hfound, fun h => ?_⟩
        · obtain ⟨_, _, _, -, -, -, hcreated⟩ := h.present hthere
          have hsame := hadds.os_unique hcreated rfl (Nat.not_lt.mp hfull)
          rwa [← hsame] at hthere
        · rcases h.1 with h | h
          · exact absurd h hfound
          · exact absurd h.1 hfull
  · refine ⟨fun h => ?_, fun h => ?_⟩
    · exact absurd (h.absent hthere) (hadds.not_warns (List.cons_ne_nil _ _))
    · rcases h.1 with hfound | ⟨-, h⟩
      · rw [sourceOs_found (.inl hfound)] at hthere
        exact absurd hfound hthere
      · exact absurd h hthere

theorem delivered_private {leaf : Family} {p : RedConfExportPath × Family}
    (hp : p ∈ delivered expand leaf) (hprivate : p.1.mode.isPrivate = true) : p.2 = leaf := by
  obtain ⟨-, -, k, hk⟩ := (mem_delivered expand).mp hp
  obtain ⟨admin, -, hvis⟩ := (mixExp expand).visible_of_deciding hk
  by_contra hne
  have hinh := (List.mem_filter.mp hvis).2
  simp [hne, mixExp, hprivate] at hinh

/-- **Binds.** Every export of a directory or a file that is merged for a node, in any state of the
launch, is bound as its source is there if and only if it is handled right. -/
theorem bindsExisting_iff (expand : ExpandCtx → CStr → Option CStr) {os : DirOs ω}
    (hos : os.Lawful) (creds : Credentials) {leaf : Family}
    (hconfigs : ∀ f ∈ leaf.toRoot, f.node.config ≠ none) {p : RedConfExportPath × Family}
    (hp : p ∈ delivered expand leaf) (hmode : bindOption p.1.mode ≠ none) {rs : RedwrapState ω}
    (hleaf : rs.rednode = leaf) (hdump : rs.dump ≤ 1) :
    BindsExisting expand os creds rs p.1 p.2 ↔ BindsRight expand os creds rs p.1 p.2 := by
  obtain ⟨-, -, k, hk⟩ := (mem_delivered expand).mp hp
  obtain ⟨-, hmem, -⟩ := (mixExp expand).visible_of_deciding hk
  have hconfig := hconfigs p.2 hmem
  have hown : p.1.mode.isPrivate = true → p.2 = rs.rednode :=
    fun h => (delivered_private hp h).trans hleaf.symm
  unfold BindsRight
  cases hm : p.1.mode with
  | exportPrivate =>
    simpa only [hm] using bindsExisting_directory hos hconfig hown (by rw [hm]; decide) hdump
  | exportRestricted =>
    simpa only [hm] using bindsExisting_directory hos hconfig hown (by rw [hm]; decide) hdump
  | exportPublic =>
    simpa only [hm] using bindsExisting_directory hos hconfig hown (by rw [hm]; decide) hdump
  | exportPrivateRestricted =>
    simpa only [hm] using bindsExisting_unchecked hos hm
  | exportPrivateFile =>
    exact iff_of_false (bindsExisting_file hos hconfig hown (by rw [hm]; decide)) id
  | exportRestrictedFile =>
    exact iff_of_false (bindsExisting_file hos hconfig hown (by rw [hm]; decide)) id
  | exportPublicFile =>
    exact iff_of_false (bindsExisting_file hos hconfig hown (by rw [hm]; decide)) id
  | _ =>
    rw [hm] at hmode
    exact absurd rfl hmode

/-! ## Sources that are not bound as they are there -/

/-- A system that is the list of the paths that are there. -/
def pathsOs : DirOs (List CStr) where
  stat o path := if path.any (· ∈ o) then 0 else -1
  noEntry _ _ := true
  mkdir o path := if path ∈ o then (-1, o) else (0, path :: o)
  chown o _ _ _ := o
  setxattr o _ _ := o
  memFdExecCmd o _ _ := (3, o)
  strerror _ := CStr.lit "No such file or directory"

theorem lawful_pathsOs : pathsOs.Lawful where
  stat_range o path := by
    dsimp only [pathsOs]
    split
    · exact .inl rfl
    · exact .inr rfl
  stat_null _ := rfl
  mkdir_stat o path h := by
    dsimp only [pathsOs] at h ⊢
    by_cases hthere : path ∈ o
    · rw [if_pos hthere] at h
      dsimp only at h
      omega
    · rw [if_neg hthere]
      exact if_pos (by simp)
  chown_stat _ _ _ _ _ := rfl
  setxattr_stat _ _ _ _ := rfl

def rootCreds : Credentials := ⟨0, 0, none⟩

/-- A node with one export, on the source of its name. -/
def exportLeaf (mode : RedExportFlag) : Family where
  node := {
    config := some {
      headers := { nodeAlias := CStr.lit "leaf" }
      exports := [{ mount := CStr.lit "/data", mode := mode }] }
    redpath := CStr.lit "/leaf" }

/-- The launch of the node, once the exports are reached. -/
def exportLaunch (mode : RedExportFlag) (strict : Bool) (there : List CStr) :
    RedwrapState (List CStr) :=
  .start (CStr.lit "redwrap") strict 0 there (exportLeaf mode)

theorem delivered_exportLeaf :
    ∀ mode ∈ [.exportPublic, .exportPrivateRestricted, .exportPublicFile],
      delivered expandPlain (exportLeaf mode) =
        [({ mount := CStr.lit "/data", mode := mode }, exportLeaf mode)] := by
  have hcomp : ∀ mode ∈ [.exportPublic, .exportPrivateRestricted, .exportPublicFile],
      (mixExp expandPlain).Comparable (exportLeaf mode) := by
    decide
  intro mode hmode
  rw [delivered, mixExports_eq expandPlain (hcomp mode hmode)]
  revert mode
  decide

theorem bindsExisting_public : BindsExisting expandPlain pathsOs rootCreds
    (exportLaunch .exportPublic false []) { mount := CStr.lit "/data", mode := .exportPublic }
    (exportLeaf .exportPublic) := by
  have hconfigs : ∀ f ∈ (exportLeaf .exportPublic).toRoot, f.node.config ≠ none := by decide
  have hmem : ({ mount := CStr.lit "/data", mode := .exportPublic }, exportLeaf .exportPublic) ∈
      delivered expandPlain (exportLeaf .exportPublic) := by
    rw [delivered_exportLeaf _ (by decide)]
    exact List.mem_singleton_self _
  refine (bindsExisting_iff expandPlain lawful_pathsOs rootCreds hconfigs hmem (by decide) rfl
    (by decide)).mpr ?_
  refine ⟨fun _ _ => ⟨CStr.lit "/data", rfl, .inl ?_⟩, fun _ => by decide⟩
  decide +kernel

/-- A restricted directory that is missing is bound in a strict launch, a file that is there is
not, and one that is missing is. -/
theorem missing_bound :
    (delivered expandPlain (exportLeaf .exportPrivateRestricted) =
        [({ mount := CStr.lit "/data", mode := .exportPrivateRestricted },
          exportLeaf .exportPrivateRestricted)] ∧
      ¬ BindsExisting expandPlain pathsOs rootCreds (exportLaunch .exportPrivateRestricted true [])
        { mount := CStr.lit "/data", mode := .exportPrivateRestricted }
        (exportLeaf .exportPrivateRestricted)) ∧
    delivered expandPlain (exportLeaf .exportPublicFile) =
        [({ mount := CStr.lit "/data", mode := .exportPublicFile }, exportLeaf .exportPublicFile)] ∧
      (∀ there ∈ [[], [CStr.lit "/data"]],
        ¬ BindsExisting expandPlain pathsOs rootCreds (exportLaunch .exportPublicFile false there)
          { mount := CStr.lit "/data", mode := .exportPublicFile }
          (exportLeaf .exportPublicFile)) := by
  refine ⟨⟨delivered_exportLeaf _ (by decide), ?_⟩, delivered_exportLeaf _ (by decide),
    fun there _ => ?_⟩
  · rw [bindsExisting_unchecked lawful_pathsOs rfl]
    rintro ⟨h | ⟨h, -⟩, -⟩
    · exact absurd h (by decide +kernel)
    · exact absurd h (show ¬ maxBwrapArgs < 4 by decide)
  · exact bindsExisting_file lawful_pathsOs (by decide) (fun _ => rfl) (by decide)

end Wrap
end RedPak
