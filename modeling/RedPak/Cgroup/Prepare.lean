import RedPak.Cgroup.Root
import RedPak.Cgroup.Settings

/-!
# Cgroup.Prepare

`set_cgroups`: from the root cgroup down to the cgroup of the leaf, one cgroup for each node, each
with a leaf for pids, and at last the process in the leaf of the last one.

The nodes are given from the leaf to the root, as the field `parent` leads. The recursion of
`prepare_cgroups` adds up the masks on the way to the root and prepares the cgroups on the way back.

* `wp_prepareMiddle`: what a node does, for the properties of a run.
* `keeps_setCgroups`: the calls of a run keep what every one of them keeps.
-/

namespace RedPak
namespace Cgroup

open Conf Layered Layered.Action

variable (k : Kernel) (p : Process)

/-! ## Directories -/

/-- `true` when the cgroup is new. -/
def createCgroupAtDir (dirFd : Dir) (cgroupName : CStr) : Sys Bool :=
  k.mkdirat dirFd cgroupName

/-- `openCgroupAtDir` with `created` NULL -/
def openExistingAtDir (dirFd : Dir) (cgroupName : CStr) : Sys Dir := do
  let w ← get
  match k.openat w.tree dirFd cgroupName with
  | some dir => pure dir
  | none => throw .failed

/-- The cgroup that is open, and what `created` receives. -/
def openCgroupAtDir (dirFd : Dir) (cgroupName : CStr) : Sys (Dir × Bool) := do
  let w ← get
  match k.openat w.tree dirFd cgroupName with
  | some dir => pure (dir, false)
  | none => do
    let _ ← createCgroupAtDir k dirFd cgroupName
    let dir ← openExistingAtDir k dirFd cgroupName
    pure (dir, true)

/-! ## `moveProcs` -/

/-- `sizeof(buffer)` -/
def procsBufferSize : Nat := 200

/-- The loop over the pids of the buffer: the buffer, in which each newline met has become a zero,
and `pidpos`. -/
def scanPids (toFd : Dir) (count : Nat) (buffer : Buffer UInt8) (pidpos rpos : Nat) :
    Sys (Buffer UInt8 × Nat) :=
  if rpos < count then
    if buffer rpos = newline then do
      let buffer := buffer.store rpos 0
      let rc ← k.writeEntry toFd .procs (some (.ofBytes (buffer.slice pidpos procsBufferSize)))
      if rc ≠ 0 then throw .failed
      else scanPids toFd count buffer (rpos + 1) (rpos + 1)
    else scanPids toFd count buffer pidpos (rpos + 1)
  else pure (buffer, pidpos)
termination_by count - rpos

theorem length_drop_chunk {text : List UInt8} {n : Nat} (h : text.take n ≠ []) :
    (text.drop (text.take n).length).length < text.length := by
  have hpos := List.length_pos_iff.mpr h
  have hle := List.length_take_le' n text
  rw [List.length_drop]
  omega

/-- The reads of `moveProcs`: `text` is what was not read yet. Every read stores at the start of the
buffer. -/
def readPids (fromFd toFd : Dir) (text : List UInt8) (buffer : Buffer UInt8) (rpos : Nat) :
    Sys Unit := do
  let granted ← k.call (.read fromFd .procs)
  let w ← get
  let chunk := text.take (min (procsBufferSize - rpos) (max 1 (k.readSize w)))
  if granted = false then throw .failed
  else if _h : chunk = [] then pure ()
  else do
    let count := chunk.length + rpos
    let (buffer, pidpos) ← scanPids k toFd count (buffer.writeAll 0 chunk) 0 rpos
    readPids fromFd toFd (text.drop chunk.length) (buffer.writeAll 0 (buffer.slice pidpos count))
      (count - pidpos)
termination_by text.length
decreasing_by exact length_drop_chunk _h

def moveProcs (fromFd toFd : Dir) : Sys Unit := do
  let text ← k.readEntry fromFd .procs (procsText · fromFd)
  readPids k fromFd toFd text p.procsJunk 0

/-! ## The cgroups of a run -/

def prepareRootCgroup (state : CgroupT) (childmask : Ctrlmask) : Sys CgroupT :=
  let state := { state with final := childmask }
  if childmask = 0 then pure state
  else do
    let state ← makeRootPath k p state
    let w ← get
    match p.string state.path 0 with
    | none => throw .fault
    | some path =>
      match k.openat w.tree k.cwd path with
      | none => throw .failed
      | some dirfd => do
        let (pidfd, _) ← openCgroupAtDir k dirfd pidsLeaf
        -- `created || paranoiac` holds
        moveProcs k p dirfd pidfd
        ensureRequiredControllers k dirfd (childmask ||| Ctrlid.pids.bit)
        pure { state with dirfd := some dirfd }

def dash (c : UInt8) : UInt8 := if c = slash then 0x2D else c

/-- The copy of a string to an index, and the index of the zero that ends it. -/
def replaceSlashDash (source : List UInt8) (dest : PathBuffer) (idx : Nat) (room : Nat) :
    Option (Nat × PathBuffer) :=
  match room, source with
  | 0, _ => none
  | _ + 1, [] => some (idx, dest.store idx (some 0))
  | room + 1, c :: source =>
    replaceSlashDash source (dest.store idx (some (dash c))) (idx + 1) room

/-- `CGROUPS_ADMIN_SUFFIX` -/
def adminSuffix : List UInt8 := (CStr.lit ".admin").bytes

/-- The name of a node behind the path: the length of it and the buffer. The suffix of a node with
an admin config is copied to the start of the name. -/
def translatedName (node : RedNode) (path : PathBuffer) (off : Nat) : Option (Nat × PathBuffer) :=
  match replaceSlashDash node.redpath.bytes path off (pathMax - off) with
  | none => none
  | some (stop, path) =>
    let len := stop - off
    match node.confadmin with
    | none => some (len, path)
    | some _ =>
      if pathMax ≤ off + len + adminSuffix.length then none
      else some (len + adminSuffix.length, path.writeAll off (adminSuffix.map some))

def prepareMiddleCgroup (state : CgroupT) (node : RedNode) (childmask : Ctrlmask) : Sys CgroupT :=
  if state.final = 0 then pure state
  else
    let off := state.pathlen + 1
    match translatedName node state.path off, state.dirfd with
    | some (len, path), some dirfd =>
      match p.string path off with
      | none => throw .fault
      | some name => do
        let (dirfd, _) ← openCgroupAtDir k dirfd name
        -- `created || paranoiac` holds
        let _ ← createCgroupAtDir k dirfd pidsLeaf
        let rc ← setCgroupNodeConf k node dirfd
        check rc
        ensureRequiredControllers k dirfd (childmask ||| Ctrlid.pids.bit)
        pure { state with
          dirfd := some dirfd
          path := path.store state.pathlen (some slash)
          pathlen := off + len }
    | _, _ => throw .failed

def prepareCgroups (state : CgroupT) (childmask : Ctrlmask) : List RedNode → Sys CgroupT
  | [] => prepareRootCgroup k p state childmask
  | node :: parents =>
    if node.config = none then throw .fault
    else do
      let state ← prepareCgroups state (childmask ||| requiredBy node) parents
      prepareMiddleCgroup k p state node childmask

def enterLeafCgroup (state : CgroupT) : Sys Unit :=
  if state.final = 0 then pure ()
  else
    match state.dirfd with
    | none => throw .failed
    | some dirfd => do
      let dirfd ← openExistingAtDir k dirfd pidsLeaf
      let rc ← k.writeEntry dirfd .procs (some (.decimal p.pid))
      check rc

/-- The state with which `set_cgroups` ends. -/
def setCgroups (node : Family) (rootpath : Option CStr) : Sys CgroupT := do
  let state ← prepareCgroups k p { rootpath := rootpath } 0 (node.node :: node.parents)
  enterLeafCgroup k p state
  pure state

/-! ## What the functions keep -/

variable {k : Kernel} {p : Process} {w : World} {d e : Dir} {path : CStr}
  {allowed : Call → Prop} {I : World → Prop}

theorem keeps_openExistingAtDir : Keeps I (openExistingAtDir k d path) := by
  intro w hw
  rw [openExistingAtDir, wp_bind, wp_get]
  split <;> exact hw

theorem keeps_openCgroupAtDir (hI : k.Stable allowed I)
    (h : ∀ w parent n, I w → k.Leads w.tree d path parent n → allowed (.mkdirat parent n)) :
    Keeps I (openCgroupAtDir k d path) := by
  intro w hw
  rw [openCgroupAtDir, wp_bind, wp_get]
  split
  · exact hw
  · refine (keeps_mkdirat hI h).bind (fun _ => ?_) w hw
    exact keeps_openExistingAtDir.bind fun _ => keeps_pure _

theorem keeps_scanPids (hI : k.Stable allowed I) (h : ∀ v, allowed (.write d .procs v))
    (count : Nat) (buffer : Buffer UInt8) (pidpos rpos : Nat) :
    Keeps I (scanPids k d count buffer pidpos rpos) := by
  fun_induction scanPids k d count buffer pidpos rpos with
  | case1 buffer pidpos rpos hlt hnl buffer' ih =>
    refine (keeps_writeEntry hI fun v _ => h v).bind fun rc => ?_
    exact .ite (fun _ => keeps_throw _) fun _ => ih
  | case2 buffer pidpos rpos hlt hnl ih => exact ih
  | case3 buffer pidpos rpos hge => exact keeps_pure _

theorem keeps_call {c : Call} (hI : k.Stable allowed I) (h : allowed c) : Keeps I (k.call c) :=
  fun _ hw => wp_call fun _ => hI _ _ _ h hw (.none _)

theorem keeps_readPids (hI : k.Stable allowed I) (hread : allowed (.read d .procs))
    (hwrite : ∀ v, allowed (.write e .procs v)) (text : List UInt8) (buffer : Buffer UInt8)
    (rpos : Nat) : Keeps I (readPids k d e text buffer rpos) := by
  induction hlen : text.length using Nat.strong_induction_on generalizing text buffer rpos with
  | _ n ih =>
    rw [readPids]
    refine (keeps_call hI hread).bind fun granted => keeps_get.bind fun w => ?_
    refine .ite (fun _ => keeps_throw _) fun _ => ?_
    split
    · exact keeps_pure _
    · rename_i hchunk
      refine (keeps_scanPids hI hwrite _ _ _ _).bind fun scanned => ?_
      exact ih _ (hlen ▸ length_drop_chunk hchunk) _ _ _ rfl

theorem keeps_moveProcs (hI : k.Stable allowed I) (hread : allowed (.read d .procs))
    (hwrite : ∀ v, allowed (.write e .procs v)) : Keeps I (moveProcs k p d e) :=
  (keeps_readEntry hI hread).bind fun _ => keeps_readPids hI hread hwrite _ _ _

theorem keeps_addRequired {mask : Ctrlmask} (hI : k.Stable allowed I)
    (h : ∀ v, allowed (.write d .subtreeControl v)) :
    Keeps I (addRequiredSubcontrollers k d mask) := by
  unfold addRequiredSubcontrollers
  split
  · exact keeps_throw _
  · exact .ite (fun _ => keeps_pure _) fun _ => keeps_writeEntry hI fun v _ => h v

theorem keeps_check (rc : Int) : Keeps I (check rc) :=
  .ite (fun _ => keeps_throw _) fun _ => keeps_pure _

theorem wp_check {rc : Int} {Q : Unit → World → Prop} {E : Stop → World → Prop}
    (hok : 0 ≤ rc → Q () w) (hfail : E .failed w) : wp (check rc) Q E w := by
  rw [check, wp_ite]
  split
  · exact hfail
  · exact hok (by omega)

theorem keeps_ensure {mask : Ctrlmask} (hI : k.Stable allowed I)
    (hread : ∀ up, up <:+ d → allowed (.read up .controllers))
    (hwrite : ∀ up v, up <:+ d → allowed (.write up .subtreeControl v)) :
    Keeps I (ensureRequiredControllers k d mask) := by
  have hstep : ∀ (e : Dir) (mask : Ctrlmask) (parent : Option (Ctrlmask → Sys Unit)), e <:+ d →
      (∀ f m, parent = some f → Keeps I (f m)) → Keeps I (ensureWith k parent e mask) := by
    intro e mask parent he hparent
    refine ((keeps_readEntry hI (hread e he)).bind fun _ => keeps_pure _).bind fun current => ?_
    refine Keeps.bind ?_ fun _ => (keeps_addRequired hI fun v => hwrite e v he).bind keeps_check
    refine .ite (fun _ => keeps_pure _) fun _ => ?_
    split
    · exact keeps_throw _
    · exact hparent _ _ rfl
  induction d generalizing mask with
  | nil =>
    refine hstep [] mask _ (List.suffix_refl _) fun f m hf => ?_
    cases hf
    exact keeps_throw _
  | cons n d ih =>
    refine hstep (n :: d) mask _ (List.suffix_refl _) fun f m hf => ?_
    split at hf
    · cases hf
    cases hf
    exact ih (fun up hup => hread up (hup.trans (List.suffix_cons n d)))
      (fun up v hup => hwrite up v (hup.trans (List.suffix_cons n d)))
      fun e mask parent he => hstep e mask parent (he.trans (List.suffix_cons n d))

theorem keeps_makeRootPath {state : CgroupT} (hI : k.Stable allowed I)
    (hself : allowed .readSelf) : Keeps I (makeRootPath k p state) := by
  have hinitial : Keeps I (initialPath k p state) := by
    unfold initialPath
    split
    · refine (keeps_call hI hself).bind fun granted => keeps_get.bind fun w => ?_
      refine .ite (fun _ => ?_) fun _ => keeps_throw _
      split
      · exact keeps_pure _
      · exact keeps_throw _
    · split
      · exact keeps_pure _
      · exact keeps_throw _
  exact hinitial.bind fun _ => keeps_get.bind fun _ => keeps_pure _

theorem keeps_enterLeaf {state : CgroupT} (hI : k.Stable allowed I)
    (h : ∀ d v, allowed (.write d .procs v)) : Keeps I (enterLeafCgroup k p state) := by
  refine .ite (fun _ => keeps_pure _) fun _ => ?_
  split
  · exact keeps_throw _
  · exact keeps_openExistingAtDir.bind fun d =>
      (keeps_writeEntry hI fun v _ => h d v).bind keeps_check

/-! ## Cgroups that are open -/

theorem openExistingAtDir_spec : wp (openExistingAtDir k d path)
    (fun e w' => w' = w ∧ k.openat w'.tree d path = some e) (fun _ _ => True) w := by
  rw [openExistingAtDir, wp_bind, wp_get]
  split
  · exact ⟨rfl, by assumption⟩
  · trivial

theorem openCgroupAtDir_spec : wp (openCgroupAtDir k d path)
    (fun r w' => w.tree.Grows w'.tree ∧ k.openat w'.tree d path = some r.1)
    (fun _ _ => True) w := by
  have hgrows : wp (openCgroupAtDir k d path) (fun _ w' => w.tree.Grows w'.tree)
      (fun _ w' => w.tree.Grows w'.tree) w :=
    keeps_openCgroupAtDir (stable_grows k w.tree) (fun _ _ _ _ _ => trivial) w (.refl _)
  refine wp_mono (wp_and hgrows (?_ : wp (openCgroupAtDir k d path)
    (fun r w' => k.openat w'.tree d path = some r.1) (fun _ _ => True) w))
    (fun _ _ h => h) (fun _ _ _ => trivial)
  rw [openCgroupAtDir, wp_bind, wp_get]
  split
  · assumption
  · rw [wp_bind]
    refine wp_of_ok fun _ w' _ => ?_
    rw [wp_bind]
    refine wp_mono openExistingAtDir_spec (fun e _ h => ?_) (fun _ _ _ => trivial)
    obtain ⟨rfl, h⟩ := h
    exact h

/-! ## Down the chain -/

/-- The mask with which the parents of the given nodes, leaf first, are prepared. -/
def maskOf (nodes : List RedNode) : Ctrlmask := nodes.foldl (fun m n => m ||| requiredBy n) 0

theorem maskOf_concat (nodes : List RedNode) (n : RedNode) :
    maskOf (nodes ++ [n]) = maskOf nodes ||| requiredBy n := by
  simp [maskOf]

theorem prepareCgroups_cons_ok {start state' : CgroupT} {mask : Ctrlmask} {n : RedNode}
    {above : List RedNode} {w' : World}
    (h : prepareCgroups k p start mask (n :: above) w = .ok state' w') :
    ∃ state w₁, prepareCgroups k p start (mask ||| requiredBy n) above w = .ok state w₁ ∧
      prepareMiddleCgroup k p state n mask w₁ = .ok state' w' := by
  rw [prepareCgroups] at h
  split at h
  · cases h
  · exact bind_eq_ok.mp h

/-- A run over the chain is a run over the parents of any of its nodes first. -/
theorem prepareCgroups_above_ok {start state' : CgroupT} {above : List RedNode} {w' : World}
    {below : List RedNode} {done : List RedNode}
    (h : prepareCgroups k p start (maskOf done) (below ++ above) w = .ok state' w') :
    ∃ state w₁, prepareCgroups k p start (maskOf (done ++ below)) above w = .ok state w₁ := by
  induction below generalizing done state' w' with
  | nil => exact ⟨state', w', by simpa using h⟩
  | cons n below ih =>
    obtain ⟨state, w₁, hrun, _⟩ := prepareCgroups_cons_ok h
    rw [← maskOf_concat] at hrun
    simpa using ih hrun

end Cgroup
end RedPak
