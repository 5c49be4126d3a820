import RedPak.Factory.SideBySide

/-!
# Factory.SharedDisk

A disk in memory that several processes share. A file that is opened to be saved is empty until it
is written.

* `journal_sharedOs`: the calls on such disks are those that processes rely on.
-/

namespace RedPak
namespace Factory

open Conf Node Layered

/-! ## The disk -/

/-- A tidy disk, with the files that are open, the files opened or written so far, the latest first,
and the files that were opened twice at a time. -/
structure SharedDisk where
  disk : TidyDisk
  opened : List Names := []
  saved : List Names := []
  spoilt : List Names := []

namespace SharedDisk

def openFile (s : SharedDisk) (path : CStr) : SharedDisk :=
  let result := (tidyOs noVariables).redSaveConfig s.disk path { headers := ⟨.lit "", none, none⟩ }
  if result.1 = .saved then
    { disk := result.2
      opened := leadsTo path :: s.opened
      saved := leadsTo path :: s.saved
      spoilt := if leadsTo path ∈ s.opened then leadsTo path :: s.spoilt else s.spoilt }
  else s

def written (s : SharedDisk) (path : CStr) (result : Saving × TidyDisk) : Saving × SharedDisk :=
  if result.1 = .saved then
    (.saved, { disk := result.2
               opened := s.opened.filter (· ≠ leadsTo path)
               saved := leadsTo path :: s.saved
               spoilt := s.spoilt })
  else (.untouched, s)

def writeConfig (s : SharedDisk) (path : CStr) (config : RedConfig) : Saving × SharedDisk :=
  s.written path ((tidyOs noVariables).redSaveConfig s.disk path config)

def writeStatus (s : SharedDisk) (path : CStr) (status : RedStatus) : Saving × SharedDisk :=
  s.written path ((tidyOs noVariables).redSaveStatus s.disk path status)

end SharedDisk

/-- Without environment variables. -/
def sharedOs : FactoryOs SharedDisk where
  stat s path := (tidyOs noVariables).stat s.disk path
  redLoadConfig s path :=
    if leadsTo path ∈ s.opened then none else (tidyOs noVariables).redLoadConfig s.disk path
  redLoadStatus s path :=
    if leadsTo path ∈ s.opened then none else (tidyOs noVariables).redLoadStatus s.disk path
  secureGetenv := noVariables
  mkdir s path := (((tidyOs noVariables).mkdir s.disk path).1,
    { s with disk := ((tidyOs noVariables).mkdir s.disk path).2 })
  redSaveConfig s path config := schemaSave (fun s => (s.openFile path).writeConfig path config) s
  redSaveStatus s path status := schemaSave (fun s => (s.openFile path).writeStatus path status) s
  malloc s := (true, s)
  freshUUID s := (CStr.lit "00000000-0000-0000-0000-000000000000", s)
  redUtcGetTimeMs _ := 0
  dateOfToday _ := CStr.lit "01-Jan-2025 00:00 (UTC)"
  expand _ text := some text
  stack := fun _ => 0

def sharedSaves : Saves sharedOs where
  openFile := SharedDisk.openFile
  writeConfig := SharedDisk.writeConfig
  writeStatus := SharedDisk.writeStatus
  redSaveConfig _ _ _ := rfl
  redSaveStatus _ _ _ := rfl

def sharedLedger : Ledger SharedDisk Names where
  version s f := s.saved.count f
  busy s := {f | f ∈ s.opened}
  spoilt s := {f | f ∈ s.spoilt}

/-! ## The laws -/

variable {s s' : SharedDisk} {p : CStr}

/-- Files that aren't open are seen as they are on the disk. -/
theorem see_sharedOs_congr {q : CStr}
    (h : see (tidyOs noVariables).toFileOs s'.disk q = see (tidyOs noVariables).toFileOs s.disk q)
    (hopened : leadsTo q ∈ s'.opened ↔ leadsTo q ∈ s.opened) :
    see sharedOs.toFileOs s' q = see sharedOs.toFileOs s q := by
  have hkind : sharedOs.stat s' q = sharedOs.stat s q := congrArg Seen.kind h
  have hconfig : sharedOs.redLoadConfig s' q = sharedOs.redLoadConfig s q :=
    if_congr hopened rfl (congrArg Seen.config h)
  have hstatus : sharedOs.redLoadStatus s' q = sharedOs.redLoadStatus s q :=
    if_congr hopened rfl (congrArg Seen.status h)
  rw [see, see, hkind, hconfig, hstatus]

theorem changes_sharedOs {written made : Set CStr}
    (h : Changes (tidyOs noVariables).toFileOs leadsTo written made s.disk s'.disk)
    (hopened : ∀ q, (∀ p ∈ written, leadsTo q ≠ leadsTo p) →
      (leadsTo q ∈ s'.opened ↔ leadsTo q ∈ s.opened)) :
    Changes sharedOs.toFileOs leadsTo written made s s' where
  touches q hq := by
    rcases h.touches q hq with hsame | ⟨hcomes, hmade⟩
    · exact .inl (see_sharedOs_congr hsame (hopened q fun p hp heq => hq (.inr ⟨p, hp, heq⟩)))
    · exact .inr ⟨⟨hcomes.1, hcomes.2⟩, hmade⟩
  stays := h.stays

theorem directories_sharedOs (h : Disk.Grows s.disk.1 s'.disk.1) (q : CStr)
    (hq : sharedOs.stat s q = some .directory) : sharedOs.stat s' q = some .directory := by
  obtain ⟨ns, hfind, hdir⟩ := (@stat_eq_directory noVariables s.disk q).mp hq
  exact (@stat_eq_directory noVariables s'.disk q).mpr
    ⟨ns, Disk.walk_mono h.dirs hfind, h.dirs ns hdir⟩

theorem idle_mkdir (s : SharedDisk) (p : CStr) :
    Idle sharedOs leadsTo sharedLedger {p} s (sharedOs.mkdir s p).2 where
  changes := changes_sharedOs (changes_mkdir s.disk p) fun _ _ => Iff.rfl
  directories := directories_sharedOs (Disk.grows_mkdir s.disk.1 p)
  ledger := ⟨rfl, rfl, rfl⟩

theorem idle_refl (s : SharedDisk) : Idle sharedOs leadsTo sharedLedger ∅ s s :=
  ⟨changes_of_see rfl, fun _ h => h, rfl, rfl, rfl⟩

/-- Without devices, what is written to is a regular file. -/
theorem SavedAt.regular {d d' : TidyDisk}
    (h : SavedAt (tidyOs noVariables).toFileOs leadsTo p d d') :
    (tidyOs noVariables).stat d' p = some .regular := by
  have hbefore := h.before
  refine Eq.trans h.kind ?_
  cases hstat : (tidyOs noVariables).stat d p with
  | none => rfl
  | some kind =>
    obtain ⟨ns, -, hkind⟩ := Option.bind_eq_some_iff.mp hstat
    rcases Disk.kind_cases hkind with rfl | rfl
    · exact absurd hstat hbefore
    · rfl

/-- A file that is saved on the disk is opened or written. -/
theorem touched_sharedOs (hat : SavedAt (tidyOs noVariables).toFileOs leadsTo p s.disk s'.disk)
    (hgrows : Disk.Grows s.disk.1 s'.disk.1)
    (hopened : ∀ ns, ns ≠ leadsTo p → (ns ∈ s'.opened ↔ ns ∈ s.opened)) :
    Touched sharedOs leadsTo p s s' where
  changes := changes_sharedOs hat.changes fun _ hq => hopened _ (hq p rfl)
  directories := directories_sharedOs hgrows
  regular := hat.regular

theorem grows_redSaveConfig (d : TidyDisk) (p : CStr) (config : RedConfig) :
    Disk.Grows d.1 ((tidyOs noVariables).redSaveConfig d p config).2.1 := by
  show Disk.Grows d.1 (if Disk.namesFile p then ((d.1.saveConfig p config).1,
    (⟨_, d.2.saveConfig p config⟩ : TidyDisk)) else (.untouched, d)).2.1
  split
  · exact Disk.grows_saveConfig d.1 p config
  · exact .refl d.1

theorem grows_redSaveStatus (d : TidyDisk) (p : CStr) (status : RedStatus) :
    Disk.Grows d.1 ((tidyOs noVariables).redSaveStatus d p status).2.1 := by
  show Disk.Grows d.1 (if Disk.namesFile p then ((d.1.saveStatus p status).1,
    (⟨_, d.2.saveStatus p status⟩ : TidyDisk)) else (.untouched, d)).2.1
  split
  · exact Disk.grows_saveStatus d.1 p status
  · exact .refl d.1

theorem count_saved_ne {ns : Names} {saved : List Names} (h : ns ≠ leadsTo p) :
    (leadsTo p :: saved).count ns = saved.count ns := List.count_cons_of_ne (Ne.symm h)

theorem count_saved_lt (saved : List Names) :
    saved.count (leadsTo p) < (leadsTo p :: saved).count (leadsTo p) := by
  rw [List.count_cons_self]
  exact Nat.lt_succ_self _

theorem opens_sharedOs (s : SharedDisk) (p : CStr) :
    Idle sharedOs leadsTo sharedLedger ∅ s (s.openFile p) ∨
      Touched sharedOs leadsTo p s (s.openFile p) ∧
        sharedLedger.Opens (leadsTo p) s (s.openFile p) := by
  unfold SharedDisk.openFile
  dsimp only
  split
  · rename_i hsaved
    obtain ⟨hat, -⟩ := (fileSystem_tidyOs noVariables).redSaveConfig _ _ _ hsaved
    refine .inr ⟨touched_sharedOs hat (grows_redSaveConfig _ _ _) fun ns hne => ?_,
      count_saved_lt _, fun ns hne => count_saved_ne hne, ?_, ?_⟩
    · rw [List.mem_cons, or_iff_right hne]
    · ext ns
      exact List.mem_cons
    · ext ns
      show ns ∈ (if leadsTo p ∈ s.opened then leadsTo p :: s.spoilt else s.spoilt) ↔
        ns ∈ s.spoilt ∨ ns = leadsTo p ∧ leadsTo p ∈ s.opened
      split
      · rename_i hopen
        simp [hopen, or_comm]
      · rename_i hfree
        simp [hfree]
  · exact .inl (idle_refl s)

theorem written_sharedOs {loads : SharedDisk → Prop} {result : Saving × TidyDisk}
    (h : result.1 = .saved → SavedAt (tidyOs noVariables).toFileOs leadsTo p s.disk result.2)
    (hgrows : Disk.Grows s.disk.1 result.2.1)
    (hloads : result.1 = .saved → ∀ s' : SharedDisk, s'.disk = result.2 → leadsTo p ∉ s'.opened →
      loads s') :
    Written sharedOs leadsTo sharedLedger p loads s (s.written p result) := by
  unfold SharedDisk.written
  split
  · rename_i hsaved
    refine ⟨touched_sharedOs (h hsaved) hgrows fun ns hne => ?_,
      ⟨count_saved_lt _, fun ns hne => count_saved_ne hne, ?_, rfl⟩, fun _ => ?_⟩
    · simp [hne]
    · ext ns
      simp [sharedLedger]
    · exact hloads hsaved _ rfl (by simp)
  · exact idle_refl s

theorem Part.name_inj {a b : Part} (h : a.name = b.name) : a = b := by
  cases a <;> cases b <;> first | rfl | exact absurd h (by decide +kernel)

/-- **The calls on shared disks** are those that processes rely on. -/
theorem journal_sharedOs : Journal sharedSaves leadsTo sharedLedger where
  same {s p q} hp hq hp' hq' heq := by
    have hsee := @FileSystem.same _ _ _ _ (fileSystem_tidyOs noVariables) s.disk p q hp hq hp' hq'
      heq
    have hconfig : sharedOs.redLoadConfig s p = sharedOs.redLoadConfig s q :=
      if_congr (by rw [heq]) rfl (congrArg Seen.config hsee)
    have hstatus : sharedOs.redLoadStatus s p = sharedOs.redLoadStatus s q :=
      if_congr (by rw [heq]) rfl (congrArg Seen.status hsee)
    rw [see, see, hconfig, hstatus, show sharedOs.stat s p = sharedOs.stat s q from
      congrArg Seen.kind hsee]
  own {p q a b} h := by
    rw [leadsTo_joinPath p (name_mem_nodeFileNames a),
      leadsTo_joinPath q (name_mem_nodeFileNames b)] at h
    obtain ⟨hdir, hname⟩ := names_inj (name_mem_nodeFileNames a) (name_mem_nodeFileNames b) h
    refine ⟨Part.name_inj hname, fun _ _ c => ?_⟩
    rw [leadsTo_joinPath p (name_mem_nodeFileNames c),
      leadsTo_joinPath q (name_mem_nodeFileNames c), hdir]
  mkdir s p _ := idle_mkdir s p
  malloc := idle_refl
  freshUUID := idle_refl
  openFile s d part := opens_sharedOs s (joinPath d part.name)
  writeConfig s d part config := by
    refine written_sharedOs
      (fun hsaved => ((fileSystem_tidyOs noVariables).redSaveConfig _ _ _ hsaved).1)
      (grows_redSaveConfig _ _ _) fun hsaved s' hdisk hfree => ?_
    obtain ⟨hat, hload⟩ := (fileSystem_tidyOs noVariables).redSaveConfig _ _ _ hsaved
    have hload := hload hat.regular
    rw [← hdisk] at hload
    exact (if_neg hfree).trans hload
  writeStatus s d part status := by
    refine written_sharedOs
      (fun hsaved => ((fileSystem_tidyOs noVariables).redSaveStatus _ _ _ hsaved).1)
      (grows_redSaveStatus _ _ _) fun hsaved s' hdisk hfree => ?_
    obtain ⟨hat, hload⟩ := (fileSystem_tidyOs noVariables).redSaveStatus _ _ _ hsaved
    have hload := hload hat.regular
    rw [← hdisk] at hload
    exact (if_neg hfree).trans hload

theorem defaultPlaces_sharedOs : DefaultPlaces sharedOs := ⟨rfl, rfl, rfl⟩

theorem sound_of_noStatus (h : NoStatus s.disk.1) : (nodes sharedOs leadsTo sharedLedger).Sound s :=
  fun d hd => absurd hd.2.2 (@not_regular_of_noStatus noVariables s.disk h d)

end Factory
end RedPak
