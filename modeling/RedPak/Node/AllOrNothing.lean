import RedPak.Node.Load

/-!
# Node.AllOrNothing

`RedNodesLoad` with its labels, the node at `*pnode` while it is built, and what is allocated for
it. `calloc` and `strdup` succeed.

* `redNodesLoadMem_eq`: the results are those of `redNodesLoad`, with nothing left allocated after
  an error.
* `allOrNothing_iff`: when a node is loaded entirely or not at all.
-/

namespace RedPak
namespace Node

open Conf Layered

/-! ## Memory -/

inductive Piece where
  | node
  | status
  | config
  | confadmin
  | redpath
deriving DecidableEq

/-- `redNodeT` while it is built -/
structure RedNodeT where
  status : Option RedStatus := none
  config : Option RedConfig := none
  confadmin : Option RedConfig := none
  redpath : Option CStr := none
deriving DecidableEq

/-- `*pnode` and what is allocated. -/
structure Memory where
  pnode : Option RedNodeT := none
  live : List Piece := []
deriving DecidableEq

/-- What stays allocated. `free` of NULL does nothing. -/
def freeNode (node : RedNodeT) (live : List Piece) : List Piece :=
  let live := if node.status.isSome then live.erase .status else live
  let live := if node.config.isSome then live.erase .config else live
  let live := if node.confadmin.isSome then live.erase .confadmin else live
  let live := if node.redpath.isSome then live.erase .redpath else live
  live.erase .node

/-! ## The function with its labels -/

inductive RedNodeYaml where
  | ok
  | fx
  | missing
deriving DecidableEq

/-- The labels, and a member of NULL. -/
inductive Goto where
  | onErrorFreeExit
  | onErrorExit
  | fault
deriving DecidableEq

abbrev Loading := EStateM Goto Memory

def setMember (piece : Piece) (f : RedNodeT → RedNodeT) : Loading Unit := do
  let m ← get
  match m.pnode with
  | none => throw .fault
  | some node => set (Memory.mk (some (f node)) (piece :: m.live))

section

variable {ω : Type} (os : FileOs ω) (w : ω)

def loadMember (path : CStr) (piece : Piece) (f : RedConfig → RedNodeT → RedNodeT) :
    Loading Unit :=
  match os.redLoadConfig w path with
  | none => throw .onErrorFreeExit
  | some config => do
    setMember piece (f config)
    if isValidAlias config.headers.nodeAlias then pure () else throw .onErrorFreeExit

def loadAdminMember (redpath : CStr) : Loading Unit :=
  match confPath os w redpath rednodeAdmin legacyRednodeAdmin with
  | none => throw .onErrorFreeExit
  | some path =>
    if os.stat w path ≠ some .regular then pure ()
    else loadMember os w path .confadmin fun config node => { node with confadmin := some config }

/-- `RedNodesLoad` before its labels. -/
def loadNode (redpath : CStr) (admin : Bool) : Loading RedNodeYaml :=
  if os.stat w redpath ≠ some .directory then throw .onErrorExit
  else
    match snprintf (joinPath redpath rednodeStatus) redMaxpathlen with
    | none => throw .onErrorFreeExit
    | some path =>
      if os.stat w path ≠ some .regular then pure .missing
      else do
        set (Memory.mk (some {}) [.node])
        match os.redLoadStatus w path with
        | none => throw .onErrorFreeExit
        | some status => do
          setMember .status fun node => { node with status := some status }
          match confPath os w redpath rednodeConf legacyRednodeConf with
          | none => throw .onErrorFreeExit
          | some path => do
            loadMember os w path .config fun config node => { node with config := some config }
            if admin then loadAdminMember os w redpath else pure ()
            setMember .redpath fun node => { node with redpath := some redpath }
            pure .ok

/-- `RedNodesLoad` with `*pnode` NULL: the result and the memory, or nothing when a member of NULL
is met. -/
def redNodesLoadMem (redpath : CStr) (admin : Bool) : Option (RedNodeYaml × Memory) :=
  match loadNode os w redpath admin {} with
  | .ok rc m => some (rc, m)
  | .error .onErrorFreeExit m =>
    match m.pnode with
    | none => none
    | some node => some (.fx, { pnode := none, live := freeNode node m.live })
  | .error .onErrorExit m => some (.fx, { m with pnode := none })
  | .error .fault _ => none

/-! ## The results -/

def Loaded.memory (loaded : Loaded) : Memory where
  pnode := some
    { status := some loaded.status
      config := loaded.node.config
      confadmin := loaded.node.confadmin
      redpath := some loaded.node.redpath }
  live := .redpath :: loaded.node.confadmin.toList.map (fun _ => Piece.confadmin) ++
    [.config, .status, .node]

def memoryOf : Except NotLoaded Loaded → Option (RedNodeYaml × Memory)
  | .ok loaded => some (.ok, loaded.memory)
  | .error .fx => some (.fx, {})
  | .error .missing => some (.missing, {})
  | .error .fault => none

/-- **The labels**: what was allocated before an error is released, whatever part of the node was
there. -/
theorem redNodesLoadMem_eq (redpath : CStr) (admin : Bool) :
    redNodesLoadMem os w redpath admin = memoryOf (redNodesLoad os w redpath admin) := by
  unfold redNodesLoadMem loadNode redNodesLoad
  by_cases hdir : os.stat w redpath ≠ some .directory
  · rw [if_pos hdir, if_pos hdir]
    rfl
  rw [if_neg hdir, if_neg hdir]
  cases snprintf (joinPath redpath rednodeStatus) redMaxpathlen with
  | none => rfl
  | some path =>
    dsimp only
    by_cases hregular : os.stat w path ≠ some .regular
    · rw [if_pos hregular, if_pos hregular]
      rfl
    rw [if_neg hregular, if_neg hregular]
    cases os.redLoadStatus w path with
    | none => rfl
    | some status =>
      dsimp only
      cases confPath os w redpath rednodeConf legacyRednodeConf with
      | none => rfl
      | some path =>
        dsimp only
        unfold loadMember loadConf
        cases os.redLoadConfig w path with
        | none => rfl
        | some config =>
          dsimp only
          by_cases halias : isValidAlias config.headers.nodeAlias = true
          swap
          · rw [if_neg halias, if_neg halias]
            rfl
          rw [if_pos halias, if_pos halias]
          cases admin with
          | false => rfl
          | true =>
            rw [if_pos rfl, if_pos rfl]
            unfold loadAdmin loadAdminMember
            cases confPath os w redpath rednodeAdmin legacyRednodeAdmin with
            | none => rfl
            | some path =>
              dsimp only
              by_cases hadmin : os.stat w path ≠ some .regular
              · rw [if_pos hadmin, if_pos hadmin]
                rfl
              rw [if_neg hadmin, if_neg hadmin]
              unfold loadMember loadConf
              cases os.redLoadConfig w path with
              | none => rfl
              | some config =>
                dsimp only
                by_cases halias : isValidAlias config.headers.nodeAlias = true
                · rw [if_pos halias, if_pos halias]
                  rfl
                · rw [if_neg halias, if_neg halias]
                  rfl

/-! ## All or nothing -/

def StatusFits (redpath : CStr) : Prop :=
  (joinPath redpath rednodeStatus).bytes.length < redMaxpathlen

structure NoNode (redpath : CStr) : Prop where
  directory : os.stat w redpath = some .directory
  fits : StatusFits redpath
  irregular : os.stat w (joinPath redpath rednodeStatus) ≠ some .regular

def AdminFile (redpath : CStr) : Prop :=
  os.stat w (joinPath redpath rednodeAdmin) = some .regular ∨
    os.stat w (joinPath redpath legacyRednodeAdmin) = some .regular

structure Complete (redpath : CStr) (admin : Bool) (node : RedNodeT) : Prop where
  status : node.status.isSome = true
  config : ∃ config, node.config = some config ∧ isValidAlias config.headers.nodeAlias = true
  confadmin : node.confadmin.isSome = true ↔ admin = true ∧ AdminFile os w redpath
  path : node.redpath = some redpath

/-- The ends of `RedNodesLoad` that are meant. -/
def AllOrNothing (redpath : CStr) (admin : Bool) : Option (RedNodeYaml × Memory) → Prop
  | none => False
  | some (.ok, m) => ¬ NoNode os w redpath ∧
    ∃ node, m.pnode = some node ∧ Complete os w redpath admin node
  | some (.missing, m) => NoNode os w redpath ∧ m.pnode = none
  | some (.fx, m) => ¬ NoNode os w redpath ∧ m.pnode = none ∧ m.live = []

/-- Something else than a file has the name of the admin config, and there is a legacy one. -/
structure Shadowed (redpath : CStr) : Prop where
  fits : (joinPath redpath rednodeAdmin).bytes.length < redMaxpathlen
  present : os.access w (joinPath redpath rednodeAdmin) = true
  irregular : os.stat w (joinPath redpath rednodeAdmin) ≠ some .regular
  legacy : os.stat w (joinPath redpath legacyRednodeAdmin) = some .regular

structure NodeFiles (redpath : CStr) : Prop where
  directory : os.stat w redpath = some .directory
  fits : StatusFits redpath
  regular : os.stat w (joinPath redpath rednodeStatus) = some .regular
  status : ∃ status, os.redLoadStatus w (joinPath redpath rednodeStatus) = some status
  normal : ∃ path config, confPath os w redpath rednodeConf legacyRednodeConf = some path ∧
    loadConf os w path = .ok config

variable {os w} {redpath : CStr} {admin : Bool}

theorem confPath_eq_some {name legacy path : CStr} :
    confPath os w redpath name legacy = some path ↔
      (joinPath redpath name).bytes.length < redMaxpathlen ∧
      if os.access w (joinPath redpath name) then path = joinPath redpath name
      else snprintf (joinPath redpath legacy) redMaxpathlen = some path := by
  unfold confPath
  cases hname : snprintf (joinPath redpath name) redMaxpathlen with
  | none =>
    refine ⟨fun h => (by cases h), fun h => ?_⟩
    rw [snprintf_eq_some.mpr ⟨h.1, rfl⟩] at hname
    cases hname
  | some present =>
    obtain ⟨hroom, rfl⟩ := snprintf_eq_some.mp hname
    dsimp only
    split
    · simp only [hroom, true_and, Option.some.injEq, eq_comm]
    · simp only [hroom, true_and]

theorem stat_of_access {path : CStr} (h : os.access w path = false) : os.stat w path = none := by
  simpa [FileOs.access] using h

theorem loadConf_ok {path : CStr} {config : RedConfig} (h : loadConf os w path = .ok config) :
    isValidAlias config.headers.nodeAlias = true := by
  unfold loadConf at h
  split at h
  · cases h
  · split at h
    · cases h
      assumption
    · cases h

/-- The admin config that is loaded is there, and is missed only when it is shadowed. -/
theorem loadAdmin_isSome {confadmin : Option RedConfig}
    (h : loadAdmin os w redpath = .ok confadmin) :
    (confadmin.isSome = true ↔ AdminFile os w redpath) ↔ ¬ Shadowed os w redpath := by
  unfold loadAdmin at h
  cases hpath : confPath os w redpath rednodeAdmin legacyRednodeAdmin with
  | none => rw [hpath] at h; cases h
  | some path =>
    obtain ⟨hroom, hchoice⟩ := confPath_eq_some.mp hpath
    rw [hpath] at h
    dsimp only at h
    have hsome : confadmin.isSome = true ↔ os.stat w path = some .regular := by
      split at h
      · rename_i hirregular
        cases h
        simp [hirregular]
      · rename_i hregular
        split at h
        · cases h
        · cases h
          simpa using hregular
    rw [hsome]
    split at hchoice
    · rename_i hpresent
      subst hchoice
      by_cases hregular : os.stat w (joinPath redpath rednodeAdmin) = some .regular
      · exact iff_of_true (iff_of_true hregular (.inl hregular)) fun hshadow =>
          hshadow.irregular hregular
      · have hlegacy : AdminFile os w redpath ↔
            os.stat w (joinPath redpath legacyRednodeAdmin) = some .regular :=
          or_iff_right hregular
        have hshadow : Shadowed os w redpath ↔
            os.stat w (joinPath redpath legacyRednodeAdmin) = some .regular :=
          ⟨fun h => h.legacy, fun h => ⟨hroom, hpresent, hregular, h⟩⟩
        rw [iff_false_left hregular, hlegacy, hshadow]
    · rename_i habsent
      obtain ⟨_, rfl⟩ := snprintf_eq_some.mp hchoice
      have hnone := stat_of_access (Bool.eq_false_iff.mpr habsent)
      have hlegacy : AdminFile os w redpath ↔
          os.stat w (joinPath redpath legacyRednodeAdmin) = some .regular :=
        or_iff_right (by simp [hnone])
      exact iff_of_true hlegacy.symm fun hshadow => habsent hshadow.present

theorem redNodesLoad_fault :
    redNodesLoad os w redpath admin = .error .fault ↔
      os.stat w redpath = some .directory ∧ ¬ StatusFits redpath := by
  constructor
  · intro h
    rcases redNodesLoad_error h with h | ⟨hdir, hend⟩
    · cases h
    · split at hend
      · cases hend.1
      · exact ⟨hdir, by assumption⟩
  · rintro ⟨hdir, hfits⟩
    have hnone : snprintf (joinPath redpath rednodeStatus) redMaxpathlen = none := if_neg hfits
    rw [redNodesLoad, if_neg (not_not.mpr hdir), hnone]

theorem nodeFiles_of_ok {loaded : Loaded} (h : redNodesLoad os w redpath admin = .ok loaded) :
    NodeFiles os w redpath := by
  have hloads := (redNodesLoad_ok os w).mp h
  obtain ⟨path, config, hpath, hconfig, _⟩ := hloads.normal
  exact ⟨hloads.directory, hloads.room, hloads.regular, ⟨loaded.status, hloads.status⟩, path,
    config, hpath, hconfig⟩

theorem loads_of_shadowed (hfiles : NodeFiles os w redpath) (hshadow : Shadowed os w redpath) :
    ∃ loaded, redNodesLoad os w redpath true = .ok loaded := by
  obtain ⟨status, hstatus⟩ := hfiles.status
  obtain ⟨path, config, hpath, hconfig⟩ := hfiles.normal
  have hadmin : loadAdmin os w redpath = .ok none := by
    have hchosen : confPath os w redpath rednodeAdmin legacyRednodeAdmin =
        some (joinPath redpath rednodeAdmin) :=
      confPath_eq_some.mpr ⟨hshadow.fits, by rw [if_pos hshadow.present]⟩
    rw [loadAdmin, hchosen]
    exact if_pos hshadow.irregular
  exact ⟨⟨{ config := some config, confadmin := none, redpath := redpath }, status⟩,
    (redNodesLoad_ok os w).mpr ⟨hfiles.directory, hfiles.fits, hfiles.regular, hstatus,
      ⟨path, config, hpath, hconfig, rfl⟩, hadmin, rfl, rfl⟩⟩

/-- A node that is loaded is complete unless its legacy admin config is shadowed. -/
theorem complete_iff {loaded : Loaded} (h : redNodesLoad os w redpath admin = .ok loaded) :
    AllOrNothing os w redpath admin (some (.ok, loaded.memory)) ↔
      ¬ (admin = true ∧ Shadowed os w redpath) := by
  have hloads := (redNodesLoad_ok os w).mp h
  have hnode : ¬ NoNode os w redpath := fun hno => hno.irregular hloads.regular
  obtain ⟨path, config, _, hload, hconfig⟩ := hloads.normal
  have hcomplete : (∃ node, loaded.memory.pnode = some node ∧
      Complete os w redpath admin node) ↔
      (loaded.node.confadmin.isSome = true ↔ admin = true ∧ AdminFile os w redpath) := by
    constructor
    · rintro ⟨node, hnode, hcomplete⟩
      cases hnode
      exact hcomplete.confadmin
    · intro hadmin
      exact ⟨_, rfl, rfl, ⟨config, hconfig, loadConf_ok hload⟩, hadmin,
        congrArg some hloads.redpath_eq⟩
  rw [AllOrNothing, hcomplete, and_iff_right hnode]
  have hconfadmin := hloads.confadmin
  cases admin with
  | false =>
    rw [if_neg (by simp)] at hconfadmin
    cases hnone : loaded.node.confadmin with
    | none => simp
    | some config => rw [hnone] at hconfadmin; cases hconfadmin
  | true =>
    rw [if_pos rfl] at hconfadmin
    simpa using loadAdmin_isSome hconfadmin

/-- **A node is loaded entirely or not at all**, unless its status has no room in the buffer or
its legacy admin config is shadowed. -/
theorem allOrNothing_iff (redpath : CStr) (admin : Bool) :
    AllOrNothing os w redpath admin (redNodesLoadMem os w redpath admin) ↔
      ¬ (os.stat w redpath = some .directory ∧ ¬ StatusFits redpath) ∧
      ¬ (admin = true ∧ NodeFiles os w redpath ∧ Shadowed os w redpath) := by
  rw [redNodesLoadMem_eq]
  have hmissing := @redNodesLoad_missing ω os w redpath admin
  have hfault := @redNodesLoad_fault ω os w redpath admin
  have hshadow : (∀ loaded, redNodesLoad os w redpath admin ≠ .ok loaded) →
      ¬ (admin = true ∧ NodeFiles os w redpath ∧ Shadowed os w redpath) := by
    rintro hnot ⟨rfl, hfiles, hshadow⟩
    obtain ⟨loaded, hok⟩ := loads_of_shadowed hfiles hshadow
    exact hnot loaded hok
  cases hresult : redNodesLoad os w redpath admin with
  | ok loaded =>
    have hfits : ¬ (os.stat w redpath = some .directory ∧ ¬ StatusFits redpath) := fun h =>
      h.2 ((redNodesLoad_ok os w).mp hresult).room
    rw [memoryOf, complete_iff hresult, and_iff_right hfits,
      and_iff_right (nodeFiles_of_ok hresult)]
  | error e =>
    rw [hresult] at hmissing hfault
    have hshadow := hshadow (by simp [hresult])
    cases e with
    | fx =>
      have hfits := hfault.not.mp (by simp)
      have hnode := hmissing.not.mp (by simp)
      exact iff_of_true ⟨fun hno => hnode ⟨hno.directory, hno.fits, hno.irregular⟩, rfl, rfl⟩
        ⟨hfits, hshadow⟩
    | missing =>
      obtain ⟨hdir, hroom, hregular⟩ := hmissing.mp rfl
      exact iff_of_true ⟨⟨hdir, hroom, hregular⟩, rfl⟩ ⟨fun h => h.2 hroom, hshadow⟩
    | fault => exact iff_of_false id fun h => h.1 (hfault.mp rfl)

def directoriesOs : FileOs Unit where
  stat _ _ := some .directory
  redLoadConfig _ _ := none
  redLoadStatus _ _ := none

/-- With a long path, the node is freed before there is one. -/
theorem loadMem_longPath :
    redNodesLoadMem directoriesOs () (.ofBytes (List.replicate 500 0x61)) false = none := by
  decide +kernel

end

end Node
end RedPak
