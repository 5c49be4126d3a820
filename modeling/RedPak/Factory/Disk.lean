import RedPak.Factory.Create
import RedPak.Node.Ancestors

/-!
# Factory.Disk

A disk in memory: directories, configs and statuses by the names that lead to them. A path is
followed from the root, name by name, and `..` leads back to the directory above. There are no
links. What is written last of a file comes first.

* `diskOs`: the system with such a disk, whose calls fail only for what is on the disk.
-/

namespace RedPak
namespace Factory

open Conf Node Layered

/-- The names that lead to a file. -/
abbrev Names := Place

def names (path : CStr) : Names := fields slash path.bytes

structure Disk where
  dirs : List Names
  configs : List (Names × RedConfig)
  statuses : List (Names × RedStatus)

namespace Disk

/-- There is something of the name. -/
def holds (d : Disk) (ns : Names) : Bool :=
  d.dirs.contains ns || (d.configs.lookup ns).isSome || (d.statuses.lookup ns).isSome

/-- A file or a directory of the name may be put there. -/
def admits (d : Disk) (ns : Names) : Bool := !ns.isEmpty && d.dirs.contains ns.dropLast

/-- Where names lead from a place. Each is looked up in a directory. -/
def walk (d : Disk) : Names → Names → Option Names
  | place, [] => some place
  | place, name :: rest =>
    if d.dirs.contains place then walk d (follow place name) rest else none

def find (d : Disk) (path : CStr) : Option Names := d.walk [] (names path)

def kind (d : Disk) (ns : Names) : Option FileKind :=
  if d.dirs.contains ns then some .directory
  else if d.holds ns then some .regular
  else none

def stat (d : Disk) (path : CStr) : Option FileKind := (d.find path).bind d.kind

def mkdir (d : Disk) (path : CStr) : Bool × Disk :=
  match d.find path with
  | none => (false, d)
  | some ns =>
    if d.admits ns && !d.holds ns then (true, { d with dirs := ns :: d.dirs }) else (false, d)

/-- A file can't be written over a directory. -/
def writable (d : Disk) (ns : Names) : Bool := d.admits ns && !d.dirs.contains ns

def putConfig (d : Disk) (ns : Names) (config : RedConfig) : Disk :=
  { d with
    configs := (ns, config) :: d.configs
    statuses := d.statuses.filter (·.1 != ns) }

def putStatus (d : Disk) (ns : Names) (status : RedStatus) : Disk :=
  { d with
    statuses := (ns, status) :: d.statuses
    configs := d.configs.filter (·.1 != ns) }

/-- What is saved, if the path leads to where a file can be written. -/
def save (d : Disk) (path : CStr) (put : Names → Disk) : Saving × Disk :=
  match d.find path with
  | none => (.untouched, d)
  | some ns => if d.writable ns then (.saved, put ns) else (.untouched, d)

def saveConfig (d : Disk) (path : CStr) (config : RedConfig) : Saving × Disk :=
  d.save path (d.putConfig · config)

def saveStatus (d : Disk) (path : CStr) (status : RedStatus) : Saving × Disk :=
  d.save path (d.putStatus · status)

end Disk

/-- Without environment variables. -/
def diskOs : FactoryOs Disk where
  stat := Disk.stat
  redLoadConfig d path := (d.find path).bind (d.configs.lookup ·)
  redLoadStatus d path := (d.find path).bind (d.statuses.lookup ·)
  secureGetenv _ := none
  mkdir := Disk.mkdir
  redSaveConfig := Disk.saveConfig
  redSaveStatus := Disk.saveStatus
  malloc d := (true, d)
  freshUUID d := (CStr.lit "00000000-0000-0000-0000-000000000000", d)
  redUtcGetTimeMs _ := 0
  dateOfToday _ := CStr.lit "01-Jan-2025 00:00 (UTC)"
  expand _ text := some text
  stack := fun _ => 0

namespace Disk

/-! ## Where paths lead -/

variable {d d' : Disk} {path : CStr} {place ns found : Names}

theorem walk_append (d : Disk) (place ns ns' : Names) :
    d.walk place (ns ++ ns') = (d.walk place ns).bind (d.walk · ns') := by
  induction ns generalizing place with
  | nil => rfl
  | cons name ns ih =>
    rw [List.cons_append, walk, walk]
    split
    · exact ih (follow place name)
    · rfl

theorem walk_eq (h : d.walk place ns = some found) : found = ns.foldl follow place := by
  induction ns generalizing place with
  | nil => exact (Option.some.inj h).symm
  | cons name ns ih =>
    rw [walk] at h
    split at h
    · exact ih h
    · cases h

theorem walk_mono (hdirs : ∀ ns ∈ d.dirs, ns ∈ d'.dirs) (h : d.walk place ns = some found) :
    d'.walk place ns = some found := by
  induction ns generalizing place with
  | nil => exact h
  | cons name ns ih =>
    rw [walk] at h ⊢
    split at h
    · rename_i hplace
      rw [if_pos (by simpa using hdirs place (by simpa using hplace))]
      exact ih h
    · cases h

theorem holds_iff : d.holds ns = true ↔
    ns ∈ d.dirs ∨ (d.configs.lookup ns).isSome = true ∨ (d.statuses.lookup ns).isSome = true := by
  simp [holds, or_assoc]

theorem isSome_kind : (d.kind ns).isSome = d.holds ns := by
  unfold kind
  split
  · rename_i h
    rw [holds, h]
    rfl
  · split <;> simp_all

theorem access_iff : diskOs.access d path = true ↔
    ∃ ns, d.find path = some ns ∧ d.holds ns = true := by
  show ((d.find path).bind d.kind).isSome = true ↔ _
  cases d.find path with
  | none => simp
  | some ns => simp [isSome_kind]

theorem mkdir_found (h : d.find path = some ns) : d.mkdir path =
    if d.admits ns && !d.holds ns then (true, { d with dirs := ns :: d.dirs }) else (false, d) := by
  rw [mkdir, h]

theorem mkdir_lost (h : d.find path = none) : d.mkdir path = (false, d) := by rw [mkdir, h]

/-! ## Nothing gets lost -/

/-- What is there stays there, be it with another content. -/
structure Grows (d d' : Disk) : Prop where
  dirs : ∀ ns ∈ d.dirs, ns ∈ d'.dirs
  holds : ∀ ns, d.holds ns = true → d'.holds ns = true

theorem Grows.refl (d : Disk) : Grows d d := ⟨fun _ h => h, fun _ h => h⟩

theorem Grows.access (h : Grows d d') (haccess : diskOs.access d path = true) :
    diskOs.access d' path = true := by
  obtain ⟨ns, hfind, hholds⟩ := access_iff.mp haccess
  exact access_iff.mpr ⟨ns, walk_mono h.dirs hfind, h.holds ns hholds⟩

theorem grows_mkdir (d : Disk) (path : CStr) : Grows d (d.mkdir path).2 := by
  cases hfind : d.find path with
  | none =>
    rw [mkdir_lost hfind]
    exact .refl d
  | some ns =>
    rw [mkdir_found hfind]
    split
    · refine ⟨fun _ h => List.mem_cons_of_mem _ h, fun ns' h => ?_⟩
      rw [holds_iff] at h ⊢
      exact h.imp_left (List.mem_cons_of_mem _)
    · exact .refl d

theorem isSome_lookup_cons {α : Type} {ns ns' : Names} {a : α} {files : List (Names × α)}
    (h : (files.lookup ns).isSome = true) : (((ns', a) :: files).lookup ns).isSome = true := by
  rw [List.lookup_cons]
  cases ns == ns' with
  | true => rfl
  | false => exact h

theorem lookup_filter_ne {α : Type} {ns ns' : Names} {files : List (Names × α)} (hne : ns ≠ ns') :
    (files.filter (·.1 != ns')).lookup ns = files.lookup ns := by
  induction files with
  | nil => rfl
  | cons file files ih =>
    rw [List.filter_cons]
    split
    · rw [List.lookup_cons, List.lookup_cons, ih]
    · rename_i hdrop
      have hfile : file.1 = ns' := by simpa using hdrop
      have hns : (ns == file.1) = false := by simpa [hfile] using hne
      rw [ih, List.lookup_cons, hns]

/-- A file that is written over another one takes its name. -/
theorem lookup_write {α β : Type} {ns ns' : Names} {a : α} {files : List (Names × α)}
    {others : List (Names × β)}
    (h : (files.lookup ns).isSome = true ∨ (others.lookup ns).isSome = true) :
    (((ns', a) :: files).lookup ns).isSome = true ∨
      ((others.filter (·.1 != ns')).lookup ns).isSome = true := by
  rcases eq_or_ne ns ns' with rfl | hne
  · left
    rw [List.lookup_cons]
    simp
  · rw [lookup_filter_ne hne]
    exact h.imp_left isSome_lookup_cons

theorem grows_save {put : Names → Disk} (hput : ∀ ns, Grows d (put ns)) :
    Grows d (d.save path put).2 := by
  unfold save
  split
  · exact .refl d
  · split
    · exact hput _
    · exact .refl d

theorem grows_saveConfig (d : Disk) (path : CStr) (config : RedConfig) :
    Grows d (d.saveConfig path config).2 :=
  grows_save fun _ => ⟨fun _ h => h, fun ns' h => by
    rw [holds_iff] at h ⊢
    exact h.imp_right lookup_write⟩

theorem grows_saveStatus (d : Disk) (path : CStr) (status : RedStatus) :
    Grows d (d.saveStatus path status).2 :=
  grows_save fun _ => ⟨fun _ h => h, fun ns' h => by
    rw [holds_iff] at h ⊢
    exact h.imp_right fun h => (lookup_write h.symm).symm⟩

end Disk

end Factory
end RedPak
