import RedPak.Node.Ancestors
import RedPak.Node.DownScan

/-!
# Node.Tree

A tree of directories without symbolic links and without hidden directories, as the scans meet it
through the system.

* `load_slashed`: a slash at the end of its path changes nothing about a directory.
-/

namespace RedPak
namespace Node

open Conf Layered

/-! ## Normalised paths -/

/-- A place made of names of directories: `.` and `..` are none. -/
def Named (place : Place) : Prop := ∀ name ∈ place, Plain name ∧ (0 : UInt8) ∉ name

instance (place : Place) : Decidable (Named place) :=
  inferInstanceAs (Decidable (∀ name ∈ place, Plain name ∧ (0 : UInt8) ∉ name))

def pathBytes (place : Place) : List UInt8 := slash :: joined slash place

/-- The absolute path of a directory, without superfluous slashes. -/
def pathOf (place : Place) : CStr := CStr.ofBytes (pathBytes place)

theorem slash_nulFree : (0 : UInt8) ∉ [slash] := by decide

/-- A slash at the end. -/
def slashed (path : CStr) : CStr := path.append ⟨[slash], slash_nulFree⟩

theorem Named.parent {place : Place} {name : List UInt8} (h : Named (place ++ [name])) :
    Named place := fun other hother => h other (List.mem_append_left _ hother)

theorem Named.last {place : Place} {name : List UInt8} (h : Named (place ++ [name])) :
    Plain name ∧ (0 : UInt8) ∉ name := h name (by simp)

theorem Named.isField {place : Place} (h : Named place) {name : List UInt8} (hname : name ∈ place) :
    IsField slash name := (h name hname).1.isField

theorem Named.plain {place : Place} (h : Named place) : ∀ name ∈ place, Plain name :=
  fun name hname => (h name hname).1

theorem bytes_pathOf {place : Place} (h : Named place) :
    (pathOf place).bytes = pathBytes place := by
  have hfree : (0 : UInt8) ∉ pathBytes place := by
    intro hmem
    rcases List.mem_cons.mp hmem with hzero | hmem
    · exact absurd hzero (by decide)
    · rcases mem_joined hmem with hslash | ⟨name, hname, hzero⟩
      · exact absurd hslash (by decide)
      · exact (h name hname).2 hzero
  exact congrArg CStr.bytes (CStr.ofBytes_bytes ⟨pathBytes place, hfree⟩)

theorem pathBytes_concat {place : Place} (h : place ≠ []) (name : List UInt8) :
    pathBytes (place ++ [name]) = pathBytes place ++ slash :: name := by
  rw [pathBytes, joined_concat name h]
  rfl

theorem fields_pathBytes {place : Place} (h : Named place) :
    fields slash (pathBytes place) = place := by
  rw [pathBytes, fields_sep_cons, fields_joined fun name hname => h.isField hname]

theorem getLast?_pathBytes {place : Place} (h : Named place) (hne : place ≠ []) :
    (pathBytes place).getLast? ≠ some slash := by
  have hjoined : joined slash place ≠ [] := fun hnil => hne
    ((joined_eq_nil fun name hname => h.isField hname).mp hnil)
  rw [pathBytes, List.getLast?_cons_of_ne_nil hjoined]
  exact getLast_joined_ne fun name hname => h.isField hname

theorem stripSlash_pathBytes {place : Place} (h : Named place) (hne : place ≠ []) :
    stripSlash (pathBytes place) = pathBytes place := by
  rw [stripSlash, if_neg (getLast?_pathBytes h hne)]

theorem designated_pathBytes {place : Place} (h : Named place) (cwd : Place) :
    designated cwd (pathBytes place) = place := by
  rw [designated, fields_pathBytes h, foldl_follow h.plain]
  rfl

/-! ## The tree -/

variable {ω : Type}

def IsDir (os : DirOs ω) (w : ω) (place : Place) : Prop :=
  Named place ∧ os.stat w (pathOf place) = some .directory

/-- A directory that loads as a rednode. -/
def IsRednode (os : DirOs ω) (w : ω) (admin : Bool) (place : Place) : Prop :=
  Named place ∧ ∃ loaded, redNodesLoad os.toFileOs w (pathOf place) admin = .ok loaded

/-- An absolute path of a file that fits in the arrays of the scans. -/
structure FilePath (path : CStr) : Prop where
  absolute : path.bytes.head? = some slash
  file : path.bytes.getLast? ≠ some slash
  fits : path.bytes.length < redMaxpathlen

/-- A file is what the names of its path lead to, and no directory is a symbolic link or hidden. All
rednodes load. A system has a longest path, so nothing is said of paths that do not fit in the
arrays of the scans. -/
structure Tree (os : DirOs ω) (w : ω) (admin : Bool) : Prop where
  file : ∀ {p q : CStr}, FilePath p → FilePath q → fields slash p.bytes = fields slash q.bytes →
    os.stat w p = os.stat w q ∧ os.redLoadConfig w p = os.redLoadConfig w q ∧
      os.redLoadStatus w p = os.redLoadStatus w q
  directory : ∀ p : CStr, p.bytes ≠ [] → (slashed p).bytes.length < redMaxpathlen →
    (os.stat w (slashed p) = some .directory ↔ os.stat w p = some .directory)
  inside : ∀ place name, IsDir os w (place ++ [name]) → IsDir os w place
  shown : ∀ place name, IsDir os w (place ++ [name]) → name.head? ≠ some 0x2E
  listed : ∀ place, IsDir os w place → (pathBytes place).length < redMaxpathlen →
    ∃ entries, os.readdir w (pathOf place) = some entries ∧ ∀ name : CStr, isHidden name = false →
      (⟨name, true⟩ ∈ entries ↔ IsDir os w (place ++ [name.bytes]))
  loadable : ∀ place, IsDir os w place →
    redNodesLoad os.toFileOs w (pathOf place) admin ≠ .error .fx

variable {os : DirOs ω} {w : ω} {admin : Bool}

theorem IsRednode.isDir {place : Place} (h : IsRednode os w admin place) : IsDir os w place := by
  obtain ⟨hnamed, loaded, hload⟩ := h
  exact ⟨hnamed, ((redNodesLoad_ok os.toFileOs w).mp hload).directory⟩

theorem Tree.above (T : Tree os w admin) {place other : Place} (h : IsDir os w place)
    (hother : other <+: place) : IsDir os w other := by
  induction place using List.reverseRecOn with
  | nil => rwa [List.prefix_nil.mp hother]
  | append_singleton place name ih =>
    rcases List.prefix_concat_iff.mp hother with rfl | hother
    · exact h
    · exact ih (T.inside place name h) hother

/-! ## A slash at the end -/

/-- Room for the paths of the files of a node, those of legacy names included. -/
structure Room (admin : Bool) (path : CStr) : Prop where
  normal : path.bytes.length + 17 < redMaxpathlen
  confadmin : admin = true → path.bytes.length + 23 < redMaxpathlen

/-- The name of a file, from the directory of a node. -/
structure FileName (sub : CStr) : Prop where
  ne_nil : sub.bytes ≠ []
  last : sub.bytes.getLast? ≠ some slash

theorem fileName_status : FileName rednodeStatus := ⟨by decide +kernel, by decide +kernel⟩
theorem fileName_conf : FileName rednodeConf := ⟨by decide +kernel, by decide +kernel⟩
theorem fileName_admin : FileName rednodeAdmin := ⟨by decide +kernel, by decide +kernel⟩
theorem fileName_legacyConf : FileName legacyRednodeConf := ⟨by decide +kernel, by decide +kernel⟩
theorem fileName_legacyAdmin : FileName legacyRednodeAdmin := ⟨by decide +kernel, by decide +kernel⟩

theorem filePath_joinPath {path sub : CStr} (hpath : path.bytes.head? = some slash)
    (hsub : FileName sub) (hfits : (joinPath path sub).bytes.length < redMaxpathlen) :
    FilePath (joinPath path sub) := by
  have hne : path.bytes ≠ [] := by rintro h; rw [h] at hpath; cases hpath
  have hjoin : (joinPath path sub).bytes = path.bytes ++ slash :: sub.bytes := by
    simp [joinPath, CStr.append]
  refine ⟨?_, ?_, hfits⟩
  · rw [hjoin, List.head?_append_of_ne_nil _ hne, hpath]
  · rw [hjoin, List.getLast?_append_of_ne_nil _ (by simp), List.getLast?_cons_of_ne_nil hsub.ne_nil]
    exact hsub.last

theorem length_slashed (path : CStr) : (slashed path).bytes.length = path.bytes.length + 1 :=
  List.length_append

theorem Tree.file_slashed (T : Tree os w admin) {path sub : CStr}
    (hpath : path.bytes.head? = some slash) (hsub : FileName sub)
    (hfits : (joinPath (slashed path) sub).bytes.length < redMaxpathlen) :
    os.stat w (joinPath (slashed path) sub) = os.stat w (joinPath path sub) ∧
      os.redLoadConfig w (joinPath (slashed path) sub) = os.redLoadConfig w (joinPath path sub) ∧
      os.redLoadStatus w (joinPath (slashed path) sub) =
        os.redLoadStatus w (joinPath path sub) := by
  have hne : path.bytes ≠ [] := by rintro h; rw [h] at hpath; cases hpath
  have hjoin : ∀ p : CStr, (joinPath p sub).bytes = p.bytes ++ slash :: sub.bytes := fun p => by
    simp [joinPath, CStr.append]
  have hslashed : (slashed path).bytes = path.bytes ++ [slash] := rfl
  have hhead : (slashed path).bytes.head? = some slash := by
    rw [hslashed, List.head?_append_of_ne_nil _ hne, hpath]
  refine T.file (filePath_joinPath hhead hsub hfits) (filePath_joinPath hpath hsub ?_) ?_
  · rw [length_joinPath, length_slashed] at hfits
    rw [length_joinPath]
    omega
  · rw [hjoin, hjoin, hslashed, fields_append_sep, fields_append_sep, fields_append_sep, fields_nil,
      List.append_nil]

theorem confPath_of_fit (fos : FileOs ω) {path name legacy : CStr}
    (hname : (joinPath path name).bytes.length < redMaxpathlen)
    (hlegacy : (joinPath path legacy).bytes.length < redMaxpathlen) :
    confPath fos w path name legacy = some (joinPath path
      (if fos.access w (joinPath path name) then name else legacy)) := by
  rw [confPath, snprintf_eq_some.mpr ⟨hname, rfl⟩]
  dsimp only
  split
  · rfl
  · exact snprintf_eq_some.mpr ⟨hlegacy, rfl⟩

theorem Tree.confPath_slashed (T : Tree os w admin) {path name legacy : CStr}
    (hpath : path.bytes.head? = some slash) (hname : FileName name) (hlegacy : FileName legacy)
    (hfit : (joinPath (slashed path) name).bytes.length < redMaxpathlen)
    (hfit' : (joinPath (slashed path) legacy).bytes.length < redMaxpathlen) :
    ∃ sub, FileName sub ∧ (joinPath (slashed path) sub).bytes.length < redMaxpathlen ∧
      confPath os.toFileOs w path name legacy = some (joinPath path sub) ∧
      confPath os.toFileOs w (slashed path) name legacy = some (joinPath (slashed path) sub) := by
  have hshorter : ∀ sub : CStr, (joinPath (slashed path) sub).bytes.length < redMaxpathlen →
      (joinPath path sub).bytes.length < redMaxpathlen := by
    intro sub hsub
    rw [length_joinPath, length_slashed] at hsub
    rw [length_joinPath]
    omega
  rw [confPath_of_fit os.toFileOs (hshorter _ hfit) (hshorter _ hfit'),
    confPath_of_fit os.toFileOs hfit hfit', FileOs.access, FileOs.access,
    (T.file_slashed hpath hname hfit).1]
  refine ⟨_, ?_, ?_, rfl, rfl⟩
  · split
    · exact hname
    · exact hlegacy
  · split
    · exact hfit
    · exact hfit'

theorem Tree.loadConf_slashed (T : Tree os w admin) {path sub : CStr}
    (hpath : path.bytes.head? = some slash) (hsub : FileName sub)
    (hfits : (joinPath (slashed path) sub).bytes.length < redMaxpathlen) :
    loadConf os.toFileOs w (joinPath (slashed path) sub) =
      loadConf os.toFileOs w (joinPath path sub) := by
  rw [loadConf, loadConf, (T.file_slashed hpath hsub hfits).2.1]

theorem Tree.loadAdmin_slashed (T : Tree os w admin) {path : CStr}
    (hpath : path.bytes.head? = some slash)
    (hroom : (slashed path).bytes.length + 23 < redMaxpathlen) :
    loadAdmin os.toFileOs w (slashed path) = loadAdmin os.toFileOs w path := by
  obtain ⟨sub, hsub, hfits, hconf, hconf'⟩ := T.confPath_slashed hpath fileName_admin
    fileName_legacyAdmin
    (by rw [length_joinPath, show rednodeAdmin.bytes.length = 21 by decide +kernel]; omega)
    (by rw [length_joinPath, show legacyRednodeAdmin.bytes.length = 22 by decide +kernel]; omega)
  rw [loadAdmin, loadAdmin, hconf, hconf']
  dsimp only
  rw [(T.file_slashed hpath hsub hfits).1, T.loadConf_slashed hpath hsub hfits]

/-- **A slash at the end.** A node loads under its path with a slash, and is the same but for its
`redpath`. -/
theorem Tree.loads_slashed (T : Tree os w admin) {path : CStr} {loaded : Loaded}
    (hpath : path.bytes.head? = some slash) (hroom : Room admin (slashed path))
    (h : redNodesLoad os.toFileOs w path admin = .ok loaded) :
    redNodesLoad os.toFileOs w (slashed path) admin =
      .ok { loaded with node := { loaded.node with redpath := slashed path } } := by
  have hne : path.bytes ≠ [] := by rintro h; rw [h] at hpath; cases hpath
  obtain ⟨hdir, -, hregular, hstatus, ⟨cpath, config, hconf, hload, hconfig⟩, hadmin, hleaf, -⟩ :=
    (redNodesLoad_ok os.toFileOs w).mp h
  have hnormal := hroom.normal
  have hfitS : (joinPath (slashed path) rednodeStatus).bytes.length < redMaxpathlen := by
    rw [length_joinPath, show rednodeStatus.bytes.length = 13 by decide +kernel]
    omega
  obtain ⟨hstat, -, hload'⟩ := T.file_slashed hpath fileName_status hfitS
  obtain ⟨sub, hsub, hfits, hsame, hsame'⟩ :=
    T.confPath_slashed hpath fileName_conf fileName_legacyConf
      (by rw [length_joinPath, show rednodeConf.bytes.length = 15 by decide +kernel]; omega)
      (by rw [length_joinPath, show legacyRednodeConf.bytes.length = 16 by decide +kernel]; omega)
  rw [hsame] at hconf
  cases hconf
  refine (redNodesLoad_ok os.toFileOs w).mpr ⟨(T.directory path hne (by omega)).mpr hdir, hfitS,
    hstat.trans hregular, hload'.trans hstatus, ⟨_, config, hsame', ?_, hconfig⟩, ?_, hleaf, rfl⟩
  · rw [T.loadConf_slashed hpath hsub hfits, hload]
  · cases admin with
    | false => exact hadmin
    | true =>
      rw [if_pos rfl] at hadmin ⊢
      rw [T.loadAdmin_slashed hpath (hroom.confadmin rfl)]
      exact hadmin

theorem Tree.missing_slashed (T : Tree os w admin) {path : CStr}
    (hpath : path.bytes.head? = some slash) (hroom : Room admin (slashed path))
    (h : redNodesLoad os.toFileOs w path admin = .error .missing) :
    redNodesLoad os.toFileOs w (slashed path) admin = .error .missing := by
  have hne : path.bytes ≠ [] := by rintro h; rw [h] at hpath; cases hpath
  obtain ⟨hdir, -, hregular⟩ := (redNodesLoad_missing os.toFileOs w).mp h
  have hnormal := hroom.normal
  have hfitS : (joinPath (slashed path) rednodeStatus).bytes.length < redMaxpathlen := by
    rw [length_joinPath, show rednodeStatus.bytes.length = 13 by decide +kernel]
    omega
  refine (redNodesLoad_missing os.toFileOs w).mpr
    ⟨(T.directory path hne (by omega)).mpr hdir, hfitS, ?_⟩
  rwa [(T.file_slashed hpath fileName_status hfitS).1]

end Node
end RedPak
