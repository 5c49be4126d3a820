import RedPak.Cgroup.Prepare
import RedPak.Layered.Threads

/-!
# Cgroup.Threads

`set_cgroups` as the sequence of its system calls, so that several processes can run it side by side
in one tree. Each call is one atomic action; the search of the root cgroup looks at the tree with
two calls for each directory.

* `run_setCgroups`: alone, a process does what `Cgroup.setCgroups` does.
-/

namespace RedPak
namespace Cgroup

open Conf Layered Layered.Action

/-- What one process does, call by call. -/
abbrev Calls := Thread Stop World

namespace Calls

variable (k : Kernel) (p : Process)

/-! ## Single calls -/

/-- `openat` with `O_DIRECTORY` -/
def openat (dirFd : Dir) (path : CStr) : Calls (Option Dir) :=
  .once do
    let w ← get
    pure (k.openat w.tree dirFd path)

/-- `faccessat` of the leaf for pids -/
def hasPidsLeaf (dirFd : Dir) : Calls Bool :=
  .once do
    let w ← get
    pure (k.lookup w.tree dirFd pidsLeaf.bytes).isSome

def mkdirat (dirFd : Dir) (path : CStr) : Calls Bool := .once (k.mkdirat dirFd path)

def writeEntry (dfd : Dir) (entry : Entry) (value : Option CStr) : Calls Int :=
  .once (k.writeEntry dfd entry value)

def readEntry (dfd : Dir) (entry : Entry) (content : Tree → List UInt8) : Calls (List UInt8) :=
  .once (k.readEntry dfd entry content)

/-- A further read of `cgroup.procs`: whether it succeeds, and how much it may return. -/
def readProcs (dfd : Dir) : Calls (Bool × Nat) :=
  .once do
    let granted ← k.call (.read dfd .procs)
    let w ← get
    pure (granted, k.readSize w)

/-- `/proc/self/cgroup`, and whether it can be read -/
def readSelf : Calls (Bool × List UInt8) :=
  .once do
    let granted ← k.call .readSelf
    let w ← get
    pure (granted, k.selfText w.tree p.pid)

def check (rc : Int) : Calls Unit := if rc < 0 then .stop .failed else pure ()

/-! ## Directories -/

def openExistingAtDir (dirFd : Dir) (cgroupName : CStr) : Calls Dir := do
  match ← openat k dirFd cgroupName with
  | some dir => pure dir
  | none => .stop .failed

def openCgroupAtDir (dirFd : Dir) (cgroupName : CStr) : Calls (Dir × Bool) := do
  match ← openat k dirFd cgroupName with
  | some dir => pure (dir, false)
  | none => do
    let _ ← mkdirat k dirFd cgroupName
    let dir ← openExistingAtDir k dirFd cgroupName
    pure (dir, true)

/-! ## `moveProcs` -/

def scanPids (toFd : Dir) (count : Nat) (buffer : Buffer UInt8) (pidpos rpos : Nat) :
    Calls (Buffer UInt8 × Nat) :=
  if rpos < count then
    if buffer rpos = newline then do
      let buffer := buffer.store rpos 0
      let rc ← writeEntry k toFd .procs (some (.ofBytes (buffer.slice pidpos procsBufferSize)))
      if rc ≠ 0 then .stop .failed
      else scanPids toFd count buffer (rpos + 1) (rpos + 1)
    else scanPids toFd count buffer pidpos (rpos + 1)
  else pure (buffer, pidpos)
termination_by count - rpos

def readPids (fromFd toFd : Dir) (text : List UInt8) (buffer : Buffer UInt8) (rpos : Nat) :
    Calls Unit := do
  let (granted, size) ← readProcs k fromFd
  let chunk := text.take (min (procsBufferSize - rpos) (max 1 size))
  if granted = false then .stop .failed
  else if _h : chunk = [] then pure ()
  else do
    let count := chunk.length + rpos
    let (buffer, pidpos) ← scanPids k toFd count (buffer.writeAll 0 chunk) 0 rpos
    readPids fromFd toFd (text.drop chunk.length) (buffer.writeAll 0 (buffer.slice pidpos count))
      (count - pidpos)
termination_by text.length
decreasing_by exact length_drop_chunk _h

def moveProcs (fromFd toFd : Dir) : Calls Unit := do
  let text ← readEntry k fromFd .procs (procsText · fromFd)
  readPids k fromFd toFd text p.procsJunk 0

/-! ## Controllers and settings -/

def getEffectiveControllers (dfd : Dir) : Calls Ctrlmask := do
  let text ← readEntry k dfd .controllers (k.controllersText · dfd)
  let buffer := text.take maxCtrlSize
  pure (scanControllers (Buffer.writeAll (fun _ => 0) 0 buffer) buffer.length 0 0)

def addRequiredSubcontrollers (dfd : Dir) (mask : Ctrlmask) : Calls Int :=
  match subcontrollers 0 mask [] ctrlnames with
  | none => .stop .fault
  | some buffer =>
    if buffer = [] then pure 0
    else writeEntry k dfd .subtreeControl (some (.ofBytes buffer))

def ensureMissing (parent : Option (Ctrlmask → Calls Unit)) (missing : Ctrlmask) : Calls Unit :=
  if missing = 0 then pure ()
  else
    match parent with
    | none => .stop .failed
    | some ensureParent => ensureParent missing

def ensureWith (parent : Option (Ctrlmask → Calls Unit)) (dfd : Dir) (expected : Ctrlmask) :
    Calls Unit := do
  let current ← getEffectiveControllers k dfd
  ensureMissing parent (expected &&& ~~~current)
  let rc ← addRequiredSubcontrollers k dfd expected
  check rc

def ensureRequiredControllers : Dir → Ctrlmask → Calls Unit
  | [], expected => ensureWith k (some fun _ => .stop .endless) [] expected
  | n :: up, expected =>
    ensureWith k (if k.denied (n :: up) ∨ k.denied up then none
      else some (ensureRequiredControllers up)) (n :: up) expected

def writeEntries (gfd : Dir) : List (Ctrlid × CStr × Option CStr) → Calls Int
  | [] => pure 0
  | (c, file, value) :: entries => do
    let rc ← writeEntry k gfd (.setting c file) value
    let nerr ← writeEntries gfd entries
    pure (rc + nerr)

def setCgroupNodeConf (n : RedNode) (gfd : Dir) : Calls Int :=
  writeEntries k gfd (nodeConfEntries n)

/-! ## The root cgroup -/

def getCurrentCgroup (dest : PathBuffer) : Calls (Nat × PathBuffer) := do
  let (granted, text) ← readSelf k p
  let buf := text.take pathMax
  if granted ∧ (CStr.lit "0::").bytes <+: buf then
    match setCgroupPath p.cgroupRoot dest ((buf.drop 3).takeWhile (· != newline)) with
    | .ok found => pure found
    | .error stop => .stop stop
  else .stop .failed

def initialPath (state : CgroupT) : Calls (Nat × PathBuffer) :=
  match state.rootpath with
  | none => getCurrentCgroup k p state.path
  | some rootpath =>
    match setCgroupPath p.cgroupRoot state.path rootpath.bytes with
    | .ok found => pure found
    | .error stop => .stop stop

def findRootLoop (b : Buffer UInt8) (length found : Nat) : Calls Nat :=
  if _h : length = 0 then pure found
  else do
    match ← openat k k.cwd (.ofBytes (b.slice 0 length)) with
    | none => pure found
    | some d =>
      match ← hasPidsLeaf k d with
      | false => pure found
      | true => findRootLoop b (stripSlashes b (stripName b length)) length
termination_by length
decreasing_by exact parentLength_lt b _h

def findRednodeRoot (b : Buffer UInt8) (length : Nat) : Calls Nat :=
  let length := lengthWithoutPidsLeaf b (stripSlashes b length)
  findRootLoop k b length length

def makeRootPath (state : CgroupT) : Calls CgroupT := do
  let (rc, path) ← initialPath k p state
  let pathlen ← findRednodeRoot k (p.bytes path) rc
  pure { state with pathlen := pathlen, path := path.store pathlen (some 0) }

/-! ## The cgroups of a run -/

def prepareRootCgroup (state : CgroupT) (childmask : Ctrlmask) : Calls CgroupT :=
  let state := { state with final := childmask }
  if childmask = 0 then pure state
  else do
    let state ← makeRootPath k p state
    match p.string state.path 0 with
    | none => .stop .fault
    | some path => do
      match ← openat k k.cwd path with
      | none => .stop .failed
      | some dirfd => do
        let (pidfd, _) ← openCgroupAtDir k dirfd pidsLeaf
        moveProcs k p dirfd pidfd
        ensureRequiredControllers k dirfd (childmask ||| Ctrlid.pids.bit)
        pure { state with dirfd := some dirfd }

def prepareMiddleCgroup (state : CgroupT) (node : RedNode) (childmask : Ctrlmask) :
    Calls CgroupT :=
  if state.final = 0 then pure state
  else
    let off := state.pathlen + 1
    match translatedName node state.path off, state.dirfd with
    | some (len, path), some dirfd =>
      match p.string path off with
      | none => .stop .fault
      | some name => do
        let (dirfd, _) ← openCgroupAtDir k dirfd name
        let _ ← mkdirat k dirfd pidsLeaf
        let rc ← setCgroupNodeConf k node dirfd
        check rc
        ensureRequiredControllers k dirfd (childmask ||| Ctrlid.pids.bit)
        pure { state with
          dirfd := some dirfd
          path := path.store state.pathlen (some slash)
          pathlen := off + len }
    | _, _ => .stop .failed

def prepareCgroups (state : CgroupT) (childmask : Ctrlmask) : List RedNode → Calls CgroupT
  | [] => prepareRootCgroup k p state childmask
  | node :: parents =>
    if node.config = none then .stop .fault
    else do
      let state ← prepareCgroups state (childmask ||| requiredBy node) parents
      prepareMiddleCgroup k p state node childmask

def enterLeafCgroup (state : CgroupT) : Calls Unit :=
  if state.final = 0 then pure ()
  else
    match state.dirfd with
    | none => .stop .failed
    | some dirfd => do
      let dirfd ← openExistingAtDir k dirfd pidsLeaf
      let rc ← writeEntry k dirfd .procs (some (.decimal p.pid))
      check rc

def setCgroups (node : Family) (rootpath : Option CStr) : Calls CgroupT := do
  let state ← prepareCgroups k p { rootpath := rootpath } 0 (node.node :: node.parents)
  enterLeafCgroup k p state
  pure state

/-! ## Alone -/

variable {k : Kernel} {p : Process}

theorem run_openExistingAtDir (d : Dir) (name : CStr) :
    (openExistingAtDir k d name).run = Cgroup.openExistingAtDir k d name := by
  rw [openExistingAtDir, openat, Thread.run_bind, Thread.run_once, bind_assoc]
  refine congrArg (get >>= ·) (funext fun w => ?_)
  rw [pure_bind]
  cases k.openat w.tree d name <;> rfl

theorem run_openCgroupAtDir (d : Dir) (name : CStr) :
    (openCgroupAtDir k d name).run = Cgroup.openCgroupAtDir k d name := by
  rw [openCgroupAtDir, openat, Thread.run_bind, Thread.run_once, bind_assoc]
  refine congrArg (get >>= ·) (funext fun w => ?_)
  rw [pure_bind]
  cases k.openat w.tree d name with
  | some e => rfl
  | none =>
    simp only [mkdirat, createCgroupAtDir, Thread.run_bind, Thread.run_once,
      run_openExistingAtDir, Thread.run_pure]

theorem run_check (rc : Int) : (check rc).run = Cgroup.check rc := by
  unfold check Cgroup.check
  split <;> rfl

theorem run_scanPids (d : Dir) (count : Nat) (buffer : Buffer UInt8) (pidpos rpos : Nat) :
    (scanPids k d count buffer pidpos rpos).run =
      Cgroup.scanPids k d count buffer pidpos rpos := by
  fun_induction Cgroup.scanPids k d count buffer pidpos rpos with
  | case1 buffer pidpos rpos hlt hnl buffer' ih =>
    rw [scanPids, if_pos hlt, if_pos hnl]
    simp only [writeEntry, Thread.run_bind, Thread.run_once, Thread.run_ite, Thread.run_stop, ih,
      buffer']
  | case2 buffer pidpos rpos hlt hnl ih => rw [scanPids, if_pos hlt, if_neg hnl, ih]
  | case3 buffer pidpos rpos hge => rw [scanPids, if_neg hge, Thread.run_pure]

theorem run_readPids (d e : Dir) (text : List UInt8) (buffer : Buffer UInt8) (rpos : Nat) :
    (readPids k d e text buffer rpos).run = Cgroup.readPids k d e text buffer rpos := by
  induction hlen : text.length using Nat.strong_induction_on generalizing text buffer rpos with
  | _ n ih =>
    subst hlen
    rw [readPids, Cgroup.readPids]
    simp only [readProcs, Thread.run_bind, Thread.run_once, bind_assoc, pure_bind]
    refine congrArg (k.call _ >>= ·) (funext fun granted => ?_)
    refine congrArg (get >>= ·) (funext fun w => ?_)
    rw [Thread.run_ite]
    split
    · rfl
    split
    · rfl
    · rename_i hchunk
      rw [Thread.run_bind, run_scanPids]
      refine congrArg (Cgroup.scanPids k e _ _ _ _ >>= ·) (funext fun scanned => ?_)
      exact ih _ (length_drop_chunk hchunk) _ _ _ rfl

theorem run_moveProcs (d e : Dir) :
    (moveProcs k p d e).run = Cgroup.moveProcs k p d e := by
  simp only [moveProcs, Cgroup.moveProcs, readEntry, Thread.run_bind, Thread.run_once,
    run_readPids]

theorem run_getEffectiveControllers (d : Dir) :
    (getEffectiveControllers k d).run = Cgroup.getEffectiveControllers k d := by
  simp only [getEffectiveControllers, Cgroup.getEffectiveControllers, readEntry, Thread.run_bind,
    Thread.run_once, Thread.run_pure]

theorem run_addRequiredSubcontrollers (d : Dir) (mask : Ctrlmask) :
    (addRequiredSubcontrollers k d mask).run = Cgroup.addRequiredSubcontrollers k d mask := by
  unfold addRequiredSubcontrollers Cgroup.addRequiredSubcontrollers
  cases subcontrollers 0 mask [] ctrlnames with
  | none => rfl
  | some buffer =>
    dsimp only
    rw [Thread.run_ite, writeEntry, Thread.run_once]
    rfl

theorem run_ensureMissing (parent : Option (Ctrlmask → Calls Unit)) (missing : Ctrlmask) :
    (ensureMissing parent missing).run =
      Cgroup.ensureMissing (parent.map fun f mask => (f mask).run) missing := by
  unfold ensureMissing Cgroup.ensureMissing
  rw [Thread.run_ite]
  cases parent <;> rfl

theorem run_ensureWith (parent : Option (Ctrlmask → Calls Unit)) (d : Dir) (mask : Ctrlmask) :
    (ensureWith k parent d mask).run =
      Cgroup.ensureWith k (parent.map fun f mask => (f mask).run) d mask := by
  simp only [ensureWith, Cgroup.ensureWith, Thread.run_bind, run_getEffectiveControllers,
    run_ensureMissing, run_addRequiredSubcontrollers, run_check]

theorem run_ensureRequiredControllers (d : Dir) (mask : Ctrlmask) :
    (ensureRequiredControllers k d mask).run = Cgroup.ensureRequiredControllers k d mask := by
  induction d generalizing mask with
  | nil =>
    rw [ensureRequiredControllers, Cgroup.ensureRequiredControllers, run_ensureWith]
    rfl
  | cons n up ih =>
    rw [ensureRequiredControllers, Cgroup.ensureRequiredControllers, run_ensureWith]
    split
    · rfl
    · rw [Option.map_some, funext ih]

theorem run_writeEntries (d : Dir) (entries : List (Ctrlid × CStr × Option CStr)) :
    (writeEntries k d entries).run = Cgroup.writeEntries k d entries := by
  induction entries with
  | nil => rfl
  | cons entry entries ih =>
    simp only [writeEntries, Cgroup.writeEntries, writeEntry, Thread.run_bind, Thread.run_once, ih,
      Thread.run_pure]

theorem run_initialPath (state : CgroupT) :
    (initialPath k p state).run = Cgroup.initialPath k p state := by
  unfold initialPath Cgroup.initialPath
  cases state.rootpath with
  | none =>
    dsimp only
    simp only [getCurrentCgroup, Cgroup.getCurrentCgroup, readSelf, Thread.run_bind,
      Thread.run_once, bind_assoc, pure_bind]
    refine congrArg (k.call _ >>= ·) (funext fun granted => ?_)
    refine congrArg (get >>= ·) (funext fun w => ?_)
    rw [Thread.run_ite]
    refine if_congr Iff.rfl ?_ rfl
    cases setCgroupPath p.cgroupRoot state.path _ <;> rfl
  | some rootpath =>
    dsimp only
    cases setCgroupPath p.cgroupRoot state.path rootpath.bytes <;> rfl

/-- While nothing else changes the tree, the search is that of one tree. -/
theorem run_findRootLoop (b : Buffer UInt8) (length found : Nat) (w : World) :
    (findRootLoop k b length found).run w =
      .ok (Cgroup.findRootLoop k w.tree b length found) w := by
  induction length using Nat.strong_induction_on generalizing found with
  | _ length ih =>
    rw [findRootLoop, Cgroup.findRootLoop]
    split
    · rfl
    · rename_i hne
      rw [Thread.run_bind, openat, Thread.run_once, bind_assoc, get_bind, pure_bind]
      cases k.openat w.tree k.cwd (.ofBytes (b.slice 0 length)) with
      | none => rfl
      | some d =>
        dsimp only
        rw [Thread.run_bind, hasPidsLeaf, Thread.run_once, bind_assoc, get_bind, pure_bind]
        change (match (k.lookup w.tree d pidsLeafName.bytes).isSome with
          | false => (pure found : Calls Nat)
          | true => findRootLoop k b (stripSlashes b (stripName b length)) length).run w = _
        cases k.lookup w.tree d pidsLeafName.bytes with
        | none => rfl
        | some e => exact ih _ (parentLength_lt b hne) length

theorem run_makeRootPath (state : CgroupT) :
    (makeRootPath k p state).run = Cgroup.makeRootPath k p state := by
  simp only [makeRootPath, Cgroup.makeRootPath, Thread.run_bind, run_initialPath, Thread.run_pure]
  refine congrArg (Cgroup.initialPath k p state >>= ·) (funext fun found => ?_)
  funext w
  rw [get_bind]
  exact bind_of_ok (run_findRootLoop _ _ _ w)

theorem run_prepareRootCgroup (state : CgroupT) (mask : Ctrlmask) :
    (prepareRootCgroup k p state mask).run = Cgroup.prepareRootCgroup k p state mask := by
  unfold prepareRootCgroup Cgroup.prepareRootCgroup
  dsimp only
  rw [Thread.run_ite]
  refine if_congr Iff.rfl rfl ?_
  rw [Thread.run_bind, run_makeRootPath]
  refine congrArg (Cgroup.makeRootPath k p _ >>= ·) (funext fun state => ?_)
  funext w
  rw [get_bind]
  cases p.string state.path 0 with
  | none => rfl
  | some path =>
    dsimp only
    rw [Thread.run_bind, openat, Thread.run_once, bind_assoc, get_bind, pure_bind]
    cases k.openat w.tree k.cwd path with
    | none => rfl
    | some d =>
      simp only [Thread.run_bind, run_openCgroupAtDir, run_moveProcs,
        run_ensureRequiredControllers, Thread.run_pure]

theorem run_prepareMiddleCgroup (state : CgroupT) (n : RedNode) (mask : Ctrlmask) :
    (prepareMiddleCgroup k p state n mask).run = Cgroup.prepareMiddleCgroup k p state n mask := by
  unfold prepareMiddleCgroup Cgroup.prepareMiddleCgroup
  rw [Thread.run_ite]
  refine if_congr Iff.rfl rfl ?_
  dsimp only
  cases translatedName n state.path (state.pathlen + 1) with
  | none => rfl
  | some found =>
    cases state.dirfd with
    | none => rfl
    | some dirfd =>
      dsimp only
      cases p.string found.2 (state.pathlen + 1) with
      | none => rfl
      | some name =>
        simp only [Thread.run_bind, run_openCgroupAtDir, mkdirat, createCgroupAtDir,
          Thread.run_once, setCgroupNodeConf, Cgroup.setCgroupNodeConf, run_writeEntries,
          run_check, run_ensureRequiredControllers, Thread.run_pure]

theorem run_prepareCgroups (state : CgroupT) (mask : Ctrlmask) (chain : List RedNode) :
    (prepareCgroups k p state mask chain).run = Cgroup.prepareCgroups k p state mask chain := by
  induction chain generalizing mask with
  | nil => exact run_prepareRootCgroup state mask
  | cons n above ih =>
    rw [prepareCgroups, Cgroup.prepareCgroups, Thread.run_ite]
    refine if_congr Iff.rfl rfl ?_
    simp only [Thread.run_bind, ih, run_prepareMiddleCgroup]

theorem run_enterLeafCgroup (state : CgroupT) :
    (enterLeafCgroup k p state).run = Cgroup.enterLeafCgroup k p state := by
  unfold enterLeafCgroup Cgroup.enterLeafCgroup
  rw [Thread.run_ite]
  refine if_congr Iff.rfl rfl ?_
  cases state.dirfd with
  | none => rfl
  | some d =>
    simp only [Thread.run_bind, run_openExistingAtDir, writeEntry, Thread.run_once, run_check]

/-- **Alone**, a process does what `set_cgroups` does in one go. -/
theorem run_setCgroups (node : Family) (rootpath : Option CStr) :
    (setCgroups k p node rootpath).run = Cgroup.setCgroups k p node rootpath := by
  simp only [setCgroups, Cgroup.setCgroups, Thread.run_bind, run_prepareCgroups,
    run_enterLeafCgroup, Thread.run_pure]

end Calls
end Cgroup
end RedPak
