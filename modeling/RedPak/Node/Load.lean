import RedPak.Conf.Expand
import RedPak.Layered.Fields

/-!
# Node.Load

Loading one rednode from its directory (`RedNodesLoad` in `redconf-node.c`, `redconf-valid.c`). The
file system is met through `stat` and through the two loaders of YAML files; `access` with `F_OK`
succeeds where `stat` does.

* `redNodesLoad_ok`: what a directory holds that loads as a node.
* `length_of_loaded`: the path of a node leaves room for that of its status.
-/

namespace RedPak
namespace Node

open Conf Layered

def slash : UInt8 := 0x2F

/-- `RED_MAXPATHLEN` -/
def redMaxpathlen : Nat := 512

def rednodeConf : CStr := .lit "etc/redpak.yaml"
def rednodeAdmin : CStr := .lit "etc/redpak-admin.yaml"
def legacyRednodeConf : CStr := .lit "etc/redpack.yaml"
def legacyRednodeAdmin : CStr := .lit "etc/redpack-admin.yaml"
def rednodeStatus : CStr := .lit ".rednode.yaml"

/-! ## Aliases -/

/-- `ACCEPTED` -/
def accepted : List UInt8 := [0x2B, 0x2D, 0x5F, 0x40, 0x3A]

/-- In the C locale. -/
def isalnum (c : UInt8) : Bool :=
  (0x30 ≤ c && c ≤ 0x39) || (0x41 ≤ c && c ≤ 0x5A) || (0x61 ≤ c && c ≤ 0x7A)

def isValidAlias (nodeAlias : CStr) : Bool :=
  !nodeAlias.bytes.isEmpty && nodeAlias.bytes.all fun c => isalnum c || accepted.contains c

theorem isValidAlias_append {a b : CStr} (ha : isValidAlias a = true)
    (hb : isValidAlias b = true) : isValidAlias (a.append b) = true := by
  simp only [isValidAlias, Bool.and_eq_true, Bool.not_eq_true',
    List.isEmpty_eq_false_iff] at ha hb ⊢
  refine ⟨fun hnil => ha.1 (List.append_eq_nil_iff.mp hnil).1, ?_⟩
  rw [CStr.append, List.all_append, ha.2, hb.2]
  rfl

/-! ## Files -/

inductive FileKind where
  | directory
  | regular
  | other
deriving DecidableEq

inductive RedStatusFlag where
  | disable
  | enable
  | unknown
  | error
deriving DecidableEq

structure RedStatus where
  state : RedStatusFlag
  realpath : CStr
  timestamp : Nat
  info : Option CStr
deriving DecidableEq

/-- What is read of files, in a state `ω` of the file system. -/
structure FileOs (ω : Type) where
  stat : ω → CStr → Option FileKind
  redLoadConfig : ω → CStr → Option RedConfig
  redLoadStatus : ω → CStr → Option RedStatus

/-- `access(path, F_OK) == 0` -/
def FileOs.access {ω : Type} (os : FileOs ω) (w : ω) (path : CStr) : Bool := (os.stat w path).isSome

/-- `"%s/%s"` -/
def joinPath (redpath sub : CStr) : CStr := (redpath.append ⟨[slash], by decide⟩).append sub

/-- What `snprintf` writes, if all of it fits. -/
def snprintf (text : CStr) (size : Nat) : Option CStr :=
  if text.bytes.length < size then some text else none

@[simp] theorem length_joinPath (redpath sub : CStr) :
    (joinPath redpath sub).bytes.length = redpath.bytes.length + 1 + sub.bytes.length := by
  simp only [joinPath, CStr.append, List.length_append, List.length_singleton]

theorem snprintf_eq_some {text path : CStr} {size : Nat} :
    snprintf text size = some path ↔ text.bytes.length < size ∧ path = text := by
  unfold snprintf
  split
  · rename_i h
    exact ⟨fun he => ⟨h, (Option.some.inj he).symm⟩, fun he => by rw [he.2]⟩
  · rename_i h
    exact ⟨fun he => (by cases he), fun he => absurd he.1 h⟩

/-! ## The node -/

/-- `RED_NODE_CONFIG_FX` and `RED_NODE_CONFIG_MISSING`, and `freeNode` of NULL. -/
inductive NotLoaded where
  | fx
  | missing
  | fault
deriving DecidableEq

structure Loaded where
  node : RedNode
  status : RedStatus
deriving DecidableEq

section

variable {ω : Type} (os : FileOs ω) (w : ω)

/-- The path of a config: the legacy name is taken when there is no file of the present one. -/
def confPath (redpath name legacy : CStr) : Option CStr :=
  match snprintf (joinPath redpath name) redMaxpathlen with
  | none => none
  | some path =>
    if os.access w path then some path else snprintf (joinPath redpath legacy) redMaxpathlen

/-- A config is loaded, with a valid alias. -/
def loadConf (path : CStr) : Except NotLoaded RedConfig :=
  match os.redLoadConfig w path with
  | none => .error .fx
  | some config => if isValidAlias config.headers.nodeAlias then .ok config else .error .fx

/-- The admin config, if there is one. -/
def loadAdmin (redpath : CStr) : Except NotLoaded (Option RedConfig) :=
  match confPath os w redpath rednodeAdmin legacyRednodeAdmin with
  | none => .error .fx
  | some path =>
    if os.stat w path ≠ some .regular then .ok none
    else
      match loadConf os w path with
      | .error e => .error e
      | .ok config => .ok (some config)

def redNodesLoad (redpath : CStr) (admin : Bool) : Except NotLoaded Loaded :=
  if os.stat w redpath ≠ some .directory then .error .fx
  else
    match snprintf (joinPath redpath rednodeStatus) redMaxpathlen with
    -- there is no node yet, and it is freed
    | none => .error .fault
    | some path =>
      if os.stat w path ≠ some .regular then .error .missing
      else
        match os.redLoadStatus w path with
        | none => .error .fx
        | some status =>
          match confPath os w redpath rednodeConf legacyRednodeConf with
          | none => .error .fx
          | some path =>
            match loadConf os w path with
            | .error e => .error e
            | .ok config =>
              match if admin then loadAdmin os w redpath else .ok none with
              | .error e => .error e
              | .ok confadmin =>
                .ok ⟨{ config := some config, confadmin := confadmin, redpath := redpath }, status⟩

/-- What a directory holds that loads as a node. -/
structure Loads (redpath : CStr) (admin : Bool) (loaded : Loaded) : Prop where
  directory : os.stat w redpath = some .directory
  room : (joinPath redpath rednodeStatus).bytes.length < redMaxpathlen
  regular : os.stat w (joinPath redpath rednodeStatus) = some .regular
  status : os.redLoadStatus w (joinPath redpath rednodeStatus) = some loaded.status
  normal : ∃ path config, confPath os w redpath rednodeConf legacyRednodeConf = some path ∧
    loadConf os w path = .ok config ∧ loaded.node.config = some config
  confadmin : (if admin then loadAdmin os w redpath else .ok none) = .ok loaded.node.confadmin
  leaf : loaded.node.leaf = none
  redpath_eq : loaded.node.redpath = redpath

theorem redNodesLoad_ok {redpath : CStr} {admin : Bool} {loaded : Loaded} :
    redNodesLoad os w redpath admin = .ok loaded ↔ Loads os w redpath admin loaded := by
  constructor
  · intro h
    unfold redNodesLoad at h
    split at h
    · cases h
    rename_i hdir
    split at h
    · cases h
    rename_i path hpath
    obtain ⟨hroom, rfl⟩ := snprintf_eq_some.mp hpath
    split at h
    · cases h
    rename_i hregular
    split at h
    · cases h
    rename_i status hstatus
    split at h
    · cases h
    rename_i path hconf
    split at h
    · cases h
    rename_i config hload
    split at h
    · cases h
    rename_i confadmin hadmin
    cases h
    exact ⟨not_not.mp hdir, hroom, not_not.mp hregular, hstatus, ⟨path, config, hconf, hload, rfl⟩,
      hadmin, rfl, rfl⟩
  · rintro ⟨hdir, hroom, hregular, hstatus, ⟨path, config, hconf, hload, hconfig⟩, hadmin, hleaf,
      hredpath⟩
    obtain ⟨⟨nodeConfig, confadmin, leaf, nodePath⟩, status⟩ := loaded
    dsimp only at hstatus hconfig hadmin hleaf hredpath
    subst hconfig hleaf hredpath
    rw [redNodesLoad, if_neg (not_not.mpr hdir), snprintf_eq_some.mpr ⟨hroom, rfl⟩]
    dsimp only
    rw [if_neg (not_not.mpr hregular), hstatus]
    dsimp only
    rw [hconf]
    dsimp only
    rw [hload]
    dsimp only
    rw [hadmin]

variable {os w}

theorem loadConf_error {path : CStr} {e : NotLoaded} (h : loadConf os w path = .error e) :
    e = .fx := by
  unfold loadConf at h
  split at h
  · cases h; rfl
  · split at h <;> cases h
    rfl

theorem loadAdmin_error {redpath : CStr} {e : NotLoaded} (h : loadAdmin os w redpath = .error e) :
    e = .fx := by
  unfold loadAdmin at h
  split at h
  · cases h; rfl
  · split at h
    · cases h
    · split at h
      · rename_i hload
        cases h
        exact loadConf_error hload
      · cases h

/-- Other failures than `RED_NODE_CONFIG_FX` show before the files of the node are read. -/
theorem redNodesLoad_error {redpath : CStr} {admin : Bool} {e : NotLoaded}
    (h : redNodesLoad os w redpath admin = .error e) :
    e = .fx ∨ os.stat w redpath = some .directory ∧
      if (joinPath redpath rednodeStatus).bytes.length < redMaxpathlen then
        e = .missing ∧ os.stat w (joinPath redpath rednodeStatus) ≠ some .regular
      else e = .fault := by
  unfold redNodesLoad at h
  split at h
  · cases h; exact .inl rfl
  rename_i hdir
  split at h
  · rename_i hpath
    cases h
    refine .inr ⟨not_not.mp hdir, ?_⟩
    rw [if_neg]
    intro hroom
    rw [snprintf_eq_some.mpr ⟨hroom, rfl⟩] at hpath
    cases hpath
  rename_i path hpath
  obtain ⟨hroom, rfl⟩ := snprintf_eq_some.mp hpath
  split at h
  · rename_i hregular
    cases h
    exact .inr ⟨not_not.mp hdir, by rw [if_pos hroom]; exact ⟨rfl, hregular⟩⟩
  split at h
  · cases h; exact .inl rfl
  split at h
  · cases h; exact .inl rfl
  split at h
  · rename_i hload
    cases h
    exact .inl (loadConf_error hload)
  split at h
  · rename_i hadmin
    cases h
    split at hadmin
    · exact .inl (loadAdmin_error hadmin)
    · cases hadmin
  · cases h

variable (os w)

theorem redNodesLoad_missing {redpath : CStr} {admin : Bool} :
    redNodesLoad os w redpath admin = .error .missing ↔
      os.stat w redpath = some .directory ∧
      (joinPath redpath rednodeStatus).bytes.length < redMaxpathlen ∧
      os.stat w (joinPath redpath rednodeStatus) ≠ some .regular := by
  constructor
  · intro h
    rcases redNodesLoad_error h with h | ⟨hdir, hend⟩
    · cases h
    · split at hend
      · exact ⟨hdir, by assumption, hend.2⟩
      · cases hend
  · rintro ⟨hdir, hroom, hregular⟩
    rw [redNodesLoad, if_neg (not_not.mpr hdir), snprintf_eq_some.mpr ⟨hroom, rfl⟩]
    dsimp only
    rw [if_pos hregular]

/-- The path of a node is shorter than the array that the path of its status is put into. -/
theorem length_of_loaded {redpath : CStr} {admin : Bool} {loaded : Loaded}
    (h : redNodesLoad os w redpath admin = .ok loaded) :
    redpath.bytes.length < redMaxpathlen := by
  have hroom := ((redNodesLoad_ok os w).mp h).room
  rw [length_joinPath] at hroom
  omega

end

end Node
end RedPak
