import RedPak.Wrap.State
import RedPak.Conf.Exports

/-!
# Wrap.Exports

The emission of the arguments of an export (`set_one_export`), run over the merged exports of a
node.

* `mixExports_run`: the exports that are delivered are emitted one after the other, and no other.
* `setOneExport_private`: what `RED_EXPORT_PRIVATES` calls private is not emitted for a child.
-/

namespace RedPak
namespace Wrap

open Conf

/-- The calls of `set_one_export` into the system: `stat`, `ensure_directory` of the same file,
`MemFdExecCmd`, and the text of the last error. -/
structure RedOs (ω : Type) where
  stat : ω → Option CStr → Int
  ensureDirectory : RedwrapState ω → CStr → Int × ω
  memFdExecCmd : ω → CStr → CStr → Int × ω
  strerror : ω → CStr

section

variable {ω : Type} (expand : ExpandCtx → CStr → Option CStr) (os : RedOs ω)

def warnExport (rs : RedwrapState ω) (node : Family) (format : String) (path : CStr) :
    Except Halt (RedwrapState ω) :=
  match node.node.config with
  | none => .error .fault
  | some config =>
    .ok { rs with log := rs.log ++ [⟨.warning, format, [config.headers.nodeAlias, path,
      os.strerror rs.os]⟩] }

/-- The directory of an export is checked, and created unless it has to be there. -/
def checkDirectory (rs : RedwrapState ω) (expandpath : Option CStr) :
    Except Halt (Int × RedwrapState ω) :=
  let err := os.stat rs.os expandpath
  if err ≠ 0 ∧ rs.strict = false then
    if rs.dump > 1 then .ok (0, rs)
    else
      match expandpath with
      | none => .error .fault
      | some p =>
        let (err, o) := os.ensureDirectory rs p
        .ok (err, { rs with os := o })
  else .ok (err, rs)

def emitExport (rs : RedwrapState ω) (mode : RedExportFlag) (mount path : CStr)
    (expandpath expMount : Option CStr) : Except Halt (RedwrapState ω) :=
  match mode with
  | .exportPrivate | .exportPublic | .exportPrivateFile | .exportPublicFile =>
    addAll rs [CStr.lit "--bind", expandpath, expMount]
  | .exportRestrictedFile | .exportRestricted | .exportPrivateRestricted =>
    addAll rs [CStr.lit "--ro-bind", expandpath, expMount]
  | .exportSymlink => addAll rs [CStr.lit "--symlink", expandpath, expMount]
  | .exportExecfd =>
    let (fd, o) := os.memFdExecCmd rs.os mount path
    addAll { rs with os := o } [CStr.lit "--file", CStr.decimal fd, expMount]
  | .exportInternal => addAll rs [CStr.lit "--file", expandpath, expMount]
  | .exportAnonymous => addAll rs [CStr.lit "--dir", expMount]
  | .exportTmpfs => addAll rs [CStr.lit "--tmpfs", expMount]
  | .exportDevfs => addAll rs [CStr.lit "--dev", expMount]
  | .exportProcfs => addAll rs [CStr.lit "--proc", expMount]
  | .exportMquefs => addAll rs [CStr.lit "--mqueue", expMount]
  | .exportLock => addAll rs [CStr.lit "--lock-file", expMount]

def setOneExport (rs : RedwrapState ω) (exp : RedConfExportPath) (node : Family) :
    Except Halt (RedwrapState ω) :=
  let path := exp.path.getD exp.mount
  if exp.mode.isPrivate ∧ node ≠ rs.rednode then .ok rs
  else
    let expandpath := expand node.node.ctx path
    if exp.mode.bits &&& redExportDirs ≠ 0 then
      match checkDirectory os rs expandpath with
      | .error halt => .error halt
      | .ok (err, rs) =>
        if err ≠ 0 then
          warnExport os rs node
            "*** Node [%s] export expanded path=%s does not exist (error=%s) [--strict mode]" path
        else
          emitExport os rs exp.mode exp.mount path expandpath (expand node.node.ctx exp.mount)
    else if exp.mode.bits &&& redExportFiles ≠ 0 ∧ os.stat rs.os expandpath ≥ 0 then
      warnExport os rs node
        "*** Node [%s] export path=%s Missing file, not mount for now(error=%s)"
        (expandpath.getD (CStr.lit "(null)"))
    else
      emitExport os rs exp.mode exp.mount path expandpath (expand node.node.ctx exp.mount)

/-- `mixexp_cb`; nothing runs in a process that has ended. -/
def mixexpCb : MixExpCb (Except Halt (RedwrapState ω)) := fun run exp node _ _ =>
  (0, match run with
    | .ok rs => setOneExport expand os rs exp node
    | .error halt => .error halt)

/-- The emission of some exports, one after the other. -/
def emitAll (rs : RedwrapState ω) : List (RedConfExportPath × Family) →
    Except Halt (RedwrapState ω)
  | [] => .ok rs
  | p :: ps =>
    match setOneExport expand os rs p.1 p.2 with
    | .ok rs => emitAll rs ps
    | .error halt => .error halt

/-! ## The run over the merged exports -/

theorem mixexpCb_deliver (ps : List (RedConfExportPath × Family)) (count : Nat) :
    ∀ (i : Nat) (rs : RedwrapState ω),
      Layered.deliver (fun c p index count => mixexpCb expand os c p.1 p.2 index count) count i ps
        (.ok rs) = (0, emitAll expand os rs ps) := by
  have hended : ∀ (halt : Halt) (ps : List (RedConfExportPath × Family)) (i : Nat),
      Layered.deliver (fun c p index count => mixexpCb expand os c p.1 p.2 index count) count i ps
        (.error halt) = (0, .error halt) := by
    intro halt ps
    induction ps with
    | nil => intro i; rfl
    | cons p ps ih => intro i; exact ih (i + 1)
  induction ps with
  | nil => intro i rs; rfl
  | cons p ps ih =>
    intro i rs
    simp only [Layered.deliver, mixexpCb, if_true, emitAll]
    cases setOneExport expand os rs p.1 p.2 with
    | ok rs' => exact ih (i + 1) rs'
    | error halt => exact hended halt ps (i + 1)

/-- The exports that are delivered are emitted one after the other, and no other. -/
theorem mixExports_run (node : Family) (rs : RedwrapState ω) {rc : Int}
    {run : Except Halt (RedwrapState ω)}
    (h : (mixExports expand node (mixexpCb expand os) (.ok rs)).result = some (rc, run)) :
    run = emitAll expand os rs (delivered expand node) := by
  rcases mixExports_delivered expand node (mixexpCb expand os) (.ok rs) with hrun | ⟨hdel, hrun⟩
  · rw [hrun, mixexpCb_deliver, Option.some.injEq, Prod.mk.injEq] at h
    exact h.2.symm
  · rw [hdel]
    rcases hrun with hrun | hrun
    · rw [hrun] at h; cases h
    · rw [hrun, Option.some.injEq, Prod.mk.injEq] at h
      exact h.2.symm

end

/-! ## Private exports -/

/-- The modes for the current node, not for its children. -/
def privateModes : List RedExportFlag :=
  [.exportPrivate, .exportPrivateFile, .exportPrivateRestricted]

/-- A private export of a strict ancestor. -/
def inheritedPrivate (leaf : Family) (p : RedConfExportPath × Family) : Bool :=
  decide (p.2 ≠ leaf) && decide (p.1.mode ∈ privateModes)

section

variable (expand : ExpandCtx → CStr → Option CStr)

/-- Private exports of strict ancestors are not delivered, and those of the other exports are all
the arguments for `bwrap` and all the exports of the merged node. -/
structure PrivateStays (node : Family) : Prop where
  delivered : ∀ p ∈ delivered expand node, inheritedPrivate node p = false
  emitted : ∀ {ω : Type} (os : RedOs ω) (rs : RedwrapState ω) (rc : Int) (run),
    (mixExports expand node (mixexpCb expand os) (.ok rs)).result = some (rc, run) →
      run = emitAll expand os rs
        ((Conf.delivered expand node).filter fun p => !inheritedPrivate node p)
  merged : mergedExports expand node =
    ((Conf.delivered expand node).filter fun p => !inheritedPrivate node p).map (·.1)

theorem privateStays_of_delivered {node : Family}
    (h : ∀ p ∈ delivered expand node, inheritedPrivate node p = false) :
    PrivateStays expand node := by
  have hfilter : ((delivered expand node).filter fun p => !inheritedPrivate node p) =
      delivered expand node := List.filter_eq_self.mpr fun p hp => by simp [h p hp]
  exact ⟨h, fun os rs rc run hrun => by rw [hfilter]; exact mixExports_run expand os node rs hrun,
    by rw [hfilter]; exact mergedExports_eq expand node⟩

theorem not_isPrivate_iff {mode : RedExportFlag} (h : mode ∈ privateModes) :
    mode.isPrivate = false ↔ mode = .exportPrivateRestricted := by
  cases mode <;> first | decide | exact absurd h (by decide)

/-- **Private exports.** They stay in their node unless the merge goes through and an export of
mode `RED_EXPORT_PRIVATE_RESTRICTED` of a strict ancestor is the one that counts for its mount. -/
theorem privateStays_iff (node : Family) : PrivateStays expand node ↔
    ¬ ((mixExp expand).Comparable node ∧ (∀ k, (mixExpLaw expand).acceptedName node k = true) ∧
      ∃ k f d, ((mixExp expand).deciding node k).head? = some (f, d) ∧ f ≠ node ∧
        d.mode = .exportPrivateRestricted) := by
  constructor
  · rintro hstays ⟨hcomp, hacc, k, f, d, hhead, hne, hmode⟩
    have hmem : (d, f) ∈ delivered expand node := (mem_delivered expand).mpr ⟨hcomp, hacc, k, hhead⟩
    have hstay := hstays.delivered _ hmem
    simp [inheritedPrivate, hne, hmode, privateModes] at hstay
  · intro hnot
    refine privateStays_of_delivered expand fun p hp => ?_
    by_contra hpriv
    rw [Bool.not_eq_false, inheritedPrivate, Bool.and_eq_true, decide_eq_true_eq,
      decide_eq_true_eq] at hpriv
    obtain ⟨hne, hmode⟩ := hpriv
    obtain ⟨hcomp, hacc, k, hhead⟩ := (mem_delivered expand).mp hp
    -- the export is visible in a child, so it is of the mode that the mask misses
    obtain ⟨admin, -, hvis⟩ := (mixExp expand).visible_of_deciding hhead
    have hinh : p.1.mode.isPrivate = false := by
      simpa [hne, mixExp] using (List.mem_filter.mp hvis).2
    exact hnot ⟨hcomp, hacc, k, _, _, hhead, hne, (not_isPrivate_iff hmode).mp hinh⟩

end

def secretExport : RedConfExportPath where
  mount := CStr.lit "/secret"
  mode := .exportPrivateRestricted

def secretRoot : Family where
  node := {
    config := some { headers := { nodeAlias := CStr.lit "root" }, exports := [secretExport] }
    redpath := CStr.lit "/root" }

def secretLeaf : Family :=
  secretRoot.child {
    config := some { headers := { nodeAlias := CStr.lit "leaf" } }
    redpath := CStr.lit "/root/leaf" }

/-- The export is delivered for the child, is mounted there, and is in its merged node. -/
theorem private_restricted_inherited :
    ¬ PrivateStays expandPlain secretLeaf ∧
    delivered expandPlain secretLeaf = [(secretExport, secretRoot)] ∧
    mergedExports expandPlain secretLeaf = [secretExport] ∧
    ∀ os : RedOs Unit, ∃ rs, (mixExports expandPlain secretLeaf (mixexpCb expandPlain os)
        (.ok (.start (CStr.lit "redwrap") false 0 () secretLeaf))).result = some (0, .ok rs) ∧
      rs.argval = [CStr.lit "redwrap", CStr.lit "--ro-bind", CStr.lit "/secret",
        CStr.lit "/secret"].map some := by
  have hdel : delivered expandPlain secretLeaf = [(secretExport, secretRoot)] := by
    rw [delivered, mixExports_eq expandPlain (by decide)]; decide
  refine ⟨fun hstays => ?_, hdel, by rw [mergedExports_eq, hdel]; rfl, fun os => ?_⟩
  · exact absurd (hstays.delivered (secretExport, secretRoot) (by rw [hdel]; simp)) (by decide)
  · rw [mixExports_eq expandPlain (by decide)]
    exact ⟨_, rfl, rfl⟩

end Wrap
end RedPak
