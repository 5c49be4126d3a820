import RedPak.Factory.FoundCall

/-!
# Factory.TidyDisk

Disks in memory on which everything lies in a directory, and nothing is a directory and a file. A
path that ends in a slash leads to a directory only, and one with `..` in it back to the directory
above, if it gets there.

* `see_tidyOs`: what is seen under a path is what the disk has under the names that the path leads
  to.
* `fileSystem_tidyOs`: the calls on such disks are those of a file system.
* `links_tidyOs`: without variables, the loader looks where the factory writes.
-/

namespace RedPak
namespace Factory

open Conf Node Layered

/-! ## Disks -/

namespace Disk

structure Tidy (d : Disk) : Prop where
  inside : ∀ ns, d.holds ns = true → ns.dropLast ∈ d.dirs
  apart : ∀ ns, (d.configs.lookup ns).isSome = true → ns ∉ d.dirs

variable {d : Disk} {path : CStr} {ns : Names}

/-- A path that leads to a file. -/
def namesFile (path : CStr) : Bool := path.bytes.getLast? != some slash

theorem admits_iff : d.admits ns = true ↔ ns ≠ [] ∧ ns.dropLast ∈ d.dirs := by
  simp [admits]

theorem writable_iff : d.writable ns = true ↔ (ns ≠ [] ∧ ns.dropLast ∈ d.dirs) ∧ ns ∉ d.dirs := by
  simp [writable, admits_iff]

theorem Tidy.mkdir (h : Tidy d) (path : CStr) : Tidy (d.mkdir path).2 := by
  cases hfind : d.find path with
  | none =>
    rw [mkdir_lost hfind]
    exact h
  | some place =>
    rw [mkdir_found hfind]
    split
    · rename_i hfree
      obtain ⟨hadmits, hnone⟩ := Bool.and_eq_true_iff.mp hfree
      have hparent := (admits_iff.mp hadmits).2
      refine ⟨fun ns hns => ?_, fun ns hns hmem => ?_⟩
      · rcases holds_iff.mp hns with hdir | hfile
        · rcases List.mem_cons.mp hdir with rfl | hdir
          · exact List.mem_cons_of_mem _ hparent
          · exact List.mem_cons_of_mem _ (h.inside ns (holds_iff.mpr (.inl hdir)))
        · exact List.mem_cons_of_mem _ (h.inside ns (holds_iff.mpr (.inr hfile)))
      · rcases List.mem_cons.mp hmem with rfl | hmem
        · have hholds : d.holds ns = true := holds_iff.mpr (.inr (.inl hns))
          rw [hholds] at hnone
          cases hnone
        · exact h.apart ns hns hmem
    · exact h

theorem Tidy.write (h : Tidy d) {place : Names} (hwritable : d.writable place = true) {d' : Disk}
    (hdirs : d'.dirs = d.dirs) (hholds : ∀ ns, ns ≠ place → d'.holds ns = d.holds ns)
    (hconfigs : ∀ ns, ns ≠ place → d'.configs.lookup ns = d.configs.lookup ns) : Tidy d' := by
  obtain ⟨⟨-, hparent⟩, hnone⟩ := writable_iff.mp hwritable
  refine ⟨fun ns hns => ?_, fun ns hns => ?_⟩ <;> rw [hdirs]
  · rcases eq_or_ne ns place with rfl | hne
    · exact hparent
    · exact h.inside ns ((hholds ns hne).symm.trans hns)
  · rcases eq_or_ne ns place with rfl | hne
    · exact hnone
    · rw [hconfigs ns hne] at hns
      exact h.apart ns hns

theorem lookup_saved {α : Type} {ns ns' : Names} {a : α} {files : List (Names × α)}
    (hne : ns ≠ ns') : ((ns', a) :: files).lookup ns = files.lookup ns := by
  rw [List.lookup_cons, beq_eq_false_iff_ne.mpr hne]

theorem save_cases (d : Disk) (path : CStr) (put : Names → Disk) :
    (∃ ns, d.find path = some ns ∧ d.writable ns = true ∧ d.save path put = (.saved, put ns)) ∨
      d.save path put = (.untouched, d) := by
  unfold save
  cases hfind : d.find path with
  | none => exact .inr rfl
  | some ns =>
    by_cases hwritable : d.writable ns = true
    · exact .inl ⟨ns, rfl, hwritable, if_pos hwritable⟩
    · exact .inr (if_neg hwritable)

theorem Tidy.save (h : Tidy d) (path : CStr) {put : Names → Disk}
    (hput : ∀ ns, d.writable ns = true → Tidy (put ns)) : Tidy (d.save path put).2 := by
  rcases save_cases d path put with ⟨ns, -, hwritable, hsave⟩ | hsave
  · rw [hsave]
    exact hput ns hwritable
  · rw [hsave]
    exact h

theorem Tidy.saveConfig (h : Tidy d) (path : CStr) (config : RedConfig) :
    Tidy (d.saveConfig path config).2 :=
  h.save path fun place hwritable => h.write hwritable rfl (fun ns hne => by
    rw [putConfig, holds, holds, lookup_saved hne, lookup_filter_ne hne])
      fun _ hne => lookup_saved hne

theorem Tidy.saveStatus (h : Tidy d) (path : CStr) (status : RedStatus) :
    Tidy (d.saveStatus path status).2 :=
  h.save path fun place hwritable => h.write hwritable rfl (fun ns hne => by
    rw [putStatus, holds, holds, lookup_saved hne, lookup_filter_ne hne])
      fun _ hne => lookup_filter_ne hne

end Disk

/-- A disk, and that it is tidy. -/
abbrev TidyDisk := {d : Disk // d.Tidy}

/-- A path that ends in a slash leads to a directory only. -/
def Disk.reach (d : Disk) (path : CStr) : Option Names :=
  (d.find path).filter fun ns => Disk.namesFile path || d.dirs.contains ns

/-- The system with tidy disks, and the variables of an environment. -/
def tidyOs (env : CStr → Option CStr) : FactoryOs TidyDisk where
  stat d path := (d.1.reach path).bind d.1.kind
  redLoadConfig d path := (d.1.reach path).bind (d.1.configs.lookup ·)
  redLoadStatus d path := (d.1.reach path).bind (d.1.statuses.lookup ·)
  secureGetenv := env
  mkdir d path := ((d.1.mkdir path).1, ⟨_, d.2.mkdir path⟩)
  redSaveConfig d path config :=
    if Disk.namesFile path then ((d.1.saveConfig path config).1, ⟨_, d.2.saveConfig path config⟩)
    else (.untouched, d)
  redSaveStatus d path status :=
    if Disk.namesFile path then ((d.1.saveStatus path status).1, ⟨_, d.2.saveStatus path status⟩)
    else (.untouched, d)
  malloc d := (true, d)
  freshUUID d := (CStr.lit "00000000-0000-0000-0000-000000000000", d)
  redUtcGetTimeMs _ := 0
  dateOfToday _ := CStr.lit "01-Jan-2025 00:00 (UTC)"
  expand _ text := some text
  stack := fun _ => 0

/-! ## Where paths lead -/

variable {env : CStr → Option CStr} {d d' : TidyDisk} {p q : CStr} {ns : Names}

/-- Where a path leads, be it there or not. -/
def leadsTo (path : CStr) : Names := designated [] path.bytes

/-- What a disk shows under names. -/
def Disk.seen (d : Disk) (ns : Names) : Seen :=
  ⟨d.kind ns, d.configs.lookup ns, d.statuses.lookup ns⟩

theorem leadsTo_of_find (h : d.1.find p = some ns) : ns = leadsTo p := by
  have hstart : start [] p.bytes = [] := ite_self _
  rw [leadsTo, designated, hstart]
  exact Disk.walk_eq h

theorem reach_eq_some : d.1.reach p = some ns ↔
    d.1.find p = some ns ∧ (NamesFile p ∨ ns ∈ d.1.dirs) := by
  simp [Disk.reach, Option.filter_eq_some_iff, Disk.namesFile, NamesFile]

theorem reach_of_file (h : NamesFile p) : d.1.reach p = d.1.find p := by
  have hfile : Disk.namesFile p = true := bne_iff_ne.mpr h
  rw [Disk.reach, hfile]
  cases d.1.find p <;> rfl

theorem kind_ne_none {ns : Names} : d.1.kind ns ≠ none ↔ d.1.holds ns = true := by
  rw [← Option.isSome_iff_ne_none, Disk.isSome_kind]

theorem stat_ne_none : (tidyOs env).stat d p ≠ none ↔
    ∃ ns, d.1.reach p = some ns ∧ d.1.holds ns = true := by
  show (d.1.reach p).bind d.1.kind ≠ none ↔ _
  cases d.1.reach p with
  | none => simp
  | some ns => simp [kind_ne_none]

theorem Disk.kind_cases {d : Disk} {kind : FileKind} (h : d.kind ns = some kind) :
    kind = .directory ∨ kind = .regular := by
  unfold Disk.kind at h
  split at h
  · exact .inl (Option.some.inj h).symm
  · split at h
    · exact .inr (Option.some.inj h).symm
    · cases h

theorem kind_eq_directory : d.1.kind ns = some .directory ↔ ns ∈ d.1.dirs := by
  unfold Disk.kind
  by_cases hdir : ns ∈ d.1.dirs
  · simp [hdir]
  · by_cases hholds : d.1.holds ns = true
    · simp [hdir, hholds]
    · simp [hdir, hholds]

theorem stat_eq_directory : (tidyOs env).stat d p = some .directory ↔
    ∃ ns, d.1.find p = some ns ∧ ns ∈ d.1.dirs := by
  show (d.1.reach p).bind d.1.kind = _ ↔ _
  rw [Option.bind_eq_some_iff]
  constructor
  · rintro ⟨ns, hreach, hkind⟩
    exact ⟨ns, (reach_eq_some.mp hreach).1, kind_eq_directory.mp hkind⟩
  · rintro ⟨ns, hfind, hdir⟩
    exact ⟨ns, reach_eq_some.mpr ⟨hfind, .inr hdir⟩, kind_eq_directory.mpr hdir⟩

theorem find_joinPath (p x : CStr) :
    d.1.find (joinPath p x) = (d.1.find p).bind (d.1.walk · (names x)) := by
  have hbytes : (joinPath p x).bytes = p.bytes ++ slash :: x.bytes := by
    simp [joinPath, CStr.append]
  rw [Disk.find, names, hbytes, fields_append_sep]
  exact Disk.walk_append d.1 [] _ _

theorem find_slashed (p : CStr) : d.1.find (Node.slashed p) = d.1.find p :=
  congrArg (d.1.walk []) (fields_append_sep_nil p.bytes)

/-- A path is followed up to its last name in a directory. -/
theorem walk_concat {place found : Names} {names : Names} {name : List UInt8}
    (h : d.1.walk place (names ++ [name]) = some found) :
    ∃ above ∈ d.1.dirs, d.1.walk place names = some above ∧ found = follow above name := by
  rw [Disk.walk_append] at h
  obtain ⟨above, habove, hlast⟩ := Option.bind_eq_some_iff.mp h
  rw [Disk.walk] at hlast
  split at hlast
  · rename_i hdir
    exact ⟨above, by simpa using hdir, habove, (Option.some.inj hlast).symm⟩
  · cases hlast

theorem dirs_of_dots (hdots : EndsInDots p.bytes) (h : d.1.find p = some ns) :
    ns ∈ d.1.dirs := by
  have hup : ∀ above ∈ d.1.dirs, above.dropLast ∈ d.1.dirs := fun above habove =>
    d.2.inside _ (Disk.holds_iff.mpr (.inl habove))
  rcases hdots.2 with hlast | hlast
  · obtain ⟨front, hfront⟩ := List.getLast?_eq_some_iff.mp hlast
    rw [Disk.find, names, hfront] at h
    obtain ⟨place, hplace, -, rfl⟩ := walk_concat h
    exact hplace
  · obtain ⟨front, hfront⟩ := List.getLast?_eq_some_iff.mp hlast
    rw [Disk.find, names, hfront] at h
    obtain ⟨place, hplace, -, rfl⟩ := walk_concat h
    exact hup place hplace

/-- What is found of a path: where it leads, or nothing if there is nothing. -/
def FoundAt (d : TidyDisk) (place : Names) (found : Option Names) : Prop :=
  found = some place ∨ found = none ∧ ¬ d.1.holds place = true

/-- A name is followed in a directory, and there is nothing in what is none. -/
theorem foundAt_name {place front : Names} {name : List UInt8} (hplain : Plain name)
    (h : FoundAt d place (d.1.walk [] front)) :
    FoundAt d (place ++ [name]) (d.1.walk [] (front ++ [name])) := by
  have hinside : d.1.holds (place ++ [name]) = true → place ∈ d.1.dirs := fun hholds => by
    have hinside := d.2.inside _ hholds
    rwa [List.dropLast_concat] at hinside
  rw [Disk.walk_append]
  rcases h with hfront | ⟨hfront, hnot⟩
  · rw [hfront, Option.bind_some, Disk.walk, Disk.walk, follow_plain hplain]
    by_cases hdir : place ∈ d.1.dirs
    · exact .inl (if_pos (by simpa using hdir))
    · exact .inr ⟨if_neg (by simpa using hdir), fun hholds => hdir (hinside hholds)⟩
  · rw [hfront]
    exact .inr ⟨rfl, fun hholds => hnot (Disk.holds_iff.mpr (.inl (hinside hholds)))⟩

theorem leadsTo_eq (p : CStr) : leadsTo p = (names p).foldl follow [] := by
  rw [leadsTo, designated, start, ite_self]
  rfl

/-- The last name of a path that leads back only from what is there. -/
theorem foundAt_last (hground : Grounded (tidyOs env).toFileOs d p) {front : Names}
    {name : List UInt8} (hname : IsField slash name) (hfile : NamesFile p)
    (hnames : names p = front ++ [name])
    (hfront : FoundAt d (front.foldl follow []) (d.1.walk [] front)) :
    FoundAt d (leadsTo p) (d.1.find p) := by
  by_cases hplain : Plain name
  · have hleads : leadsTo p = front.foldl follow [] ++ [name] := by
      rw [leadsTo_eq, hnames, List.foldl_append]
      exact follow_plain hplain _
    rw [hleads, Disk.find, hnames]
    exact foundAt_name hplain hfront
  · -- the path itself ends in dots, so it is there
    have hdots : EndsInDots p.bytes := by
      have hlast : (fields slash p.bytes).getLast? = some name := by
        rw [show fields slash p.bytes = front ++ [name] from hnames, List.getLast?_concat]
      refine ⟨hfile, ?_⟩
      rw [hlast]
      by_contra hnot
      rw [not_or] at hnot
      exact hplain ⟨hname, fun h => hnot.1 (congrArg some h), fun h => hnot.2 (congrArg some h)⟩
    obtain ⟨ns, hreach, -⟩ := stat_ne_none.mp (hground p ⟨hdots, List.prefix_rfl⟩)
    have hfind := (reach_eq_some.mp hreach).1
    exact .inl (leadsTo_of_find hfind ▸ hfind)

/-- **A path that leads back only from what is there** is found, or there is nothing where it
leads. -/
theorem foundAt_grounded (n : Nat) : ∀ p : CStr, p.bytes.length = n →
    Grounded (tidyOs env).toFileOs d p → FoundAt d (leadsTo p) (d.1.find p) := by
  induction n using Nat.strong_induction_on with
  | _ n ih =>
    intro p hlen hground
    have hfile : ∀ {w : List UInt8}, IsField slash w → ∀ front, p.bytes = front ++ w →
        NamesFile p := fun hw front hp hlast => by
        rw [hp, List.getLast?_append_of_ne_nil _ hw.ne_nil] at hlast
        exact hw.sepFree (List.mem_of_mem_getLast? hlast)
    rcases exists_cut p.bytes with hnone | ⟨v, w, hcut, hw⟩
    · by_cases hnil : p.bytes = []
      · have hnames : names p = [] := by rw [names, hnil, fields_nil]
        rw [leadsTo_eq, Disk.find, hnames]
        exact .inl rfl
      · have hname : IsField slash p.bytes := ⟨hnil, hnone⟩
        have hnames : names p = [] ++ [p.bytes] := hname.fields_eq
        exact foundAt_last hground hname (hfile hname [] rfl) hnames (.inl rfl)
    · have hfree : (0 : UInt8) ∉ v := fun h => p.nulFree (by rw [hcut]; simp [h])
      have hnames : names p = names ⟨v, hfree⟩ ++ fields slash w := by
        rw [names, hcut, fields_append_sep]
        rfl
      have hfront := ih v.length (by rw [← hlen, hcut]; simp) ⟨v, hfree⟩ rfl
        (hground.mono fun a ha =>
          mem_dottedStarts.mpr ⟨ha.1, .inr (ha.2.trans ⟨w, by simp [hcut]⟩)⟩)
      by_cases hnil : w = []
      · have hsame : names p = names ⟨v, hfree⟩ := by
          rw [hnames, hnil, fields_nil, List.append_nil]
        rw [leadsTo_eq, Disk.find, hsame]
        rwa [leadsTo_eq, Disk.find] at hfront
      · have hname : IsField slash w := ⟨hnil, hw⟩
        rw [hname.fields_eq] at hnames
        rw [leadsTo_eq] at hfront
        exact foundAt_last hground hname (hfile hname (v ++ [slash]) (by rw [hcut]; simp)) hnames
          hfront

/-- **What is seen under a path** is what the disk has where it leads. -/
theorem see_tidyOs (hfile : NamesFile p) (h : Anchored (tidyOs env).toFileOs d p) :
    see (tidyOs env).toFileOs d p = d.1.seen (leadsTo p) := by
  have hsee : see (tidyOs env).toFileOs d p = ⟨(d.1.find p).bind d.1.kind,
      (d.1.find p).bind (d.1.configs.lookup ·), (d.1.find p).bind (d.1.statuses.lookup ·)⟩ := by
    rw [← reach_of_file hfile]
    rfl
  have hat : FoundAt d (leadsTo p) (d.1.find p) := by
    rcases h with hthere | hground
    · obtain ⟨ns, hreach, -⟩ := stat_ne_none.mp hthere
      have hfind := (reach_eq_some.mp hreach).1
      exact .inl (leadsTo_of_find hfind ▸ hfind)
    · exact foundAt_grounded _ p rfl hground
  rw [hsee]
  rcases hat with hfind | ⟨hfind, hnot⟩
  · rw [hfind]
    rfl
  · rw [hfind]
    have hkind : d.1.kind (leadsTo p) = none := by
      by_contra hthere
      exact hnot (kind_ne_none.mp hthere)
    have hconfigs : d.1.configs.lookup (leadsTo p) = none := by
      by_contra hthere
      exact hnot (Disk.holds_iff.mpr (.inr (.inl (Option.isSome_iff_ne_none.mpr hthere))))
    have hstatuses : d.1.statuses.lookup (leadsTo p) = none := by
      by_contra hthere
      exact hnot (Disk.holds_iff.mpr (.inr (.inr (Option.isSome_iff_ne_none.mpr hthere))))
    rw [Disk.seen, hkind, hconfigs, hstatuses]
    rfl

/-! ## The laws -/

theorem stays_of_grows (h : Disk.Grows d.1 d'.1) (hthere : (tidyOs env).stat d q ≠ none) :
    (tidyOs env).stat d' q ≠ none := by
  obtain ⟨ns, hreach, hholds⟩ := stat_ne_none.mp hthere
  obtain ⟨hfind, hfile⟩ := reach_eq_some.mp hreach
  exact stat_ne_none.mpr ⟨ns, reach_eq_some.mpr ⟨Disk.walk_mono h.dirs hfind,
    hfile.imp_right (h.dirs ns)⟩, h.holds ns hholds⟩

theorem changes_of_seen {written made : Set CStr} (hgrows : Disk.Grows d.1 d'.1)
    (h : ∀ ns, (∀ p ∈ written, ns ≠ leadsTo p) → d'.1.seen ns = d.1.seen ns ∨
      Comes (d.1.seen ns) (d'.1.seen ns) ∧ ∃ p ∈ made, ns = leadsTo p) :
    Changes (tidyOs env).toFileOs leadsTo written made d d' where
  touches q hq := by
    have hstays : ∀ q, (tidyOs env).stat d q ≠ none → (tidyOs env).stat d' q ≠ none :=
      fun _ => stays_of_grows hgrows
    obtain ⟨hfile, hanchored⟩ := not_not.mp fun hnot => hq (.inl hnot)
    rw [see_tidyOs hfile hanchored, see_tidyOs hfile (hanchored.stays hstays)]
    exact h _ fun p hp heq => hq (.inr ⟨p, hp, heq⟩)
  stays _ := stays_of_grows hgrows

theorem changes_mkdir (d : TidyDisk) (p : CStr) :
    Changes (tidyOs env).toFileOs leadsTo ∅ {p} d ((tidyOs env).mkdir d p).2 := by
  refine changes_of_seen (Disk.grows_mkdir d.1 p) fun ns _ => ?_
  show (d.1.mkdir p).2.seen ns = d.1.seen ns ∨ _
  cases hfind : d.1.find p with
  | none =>
    rw [Disk.mkdir_lost hfind]
    exact .inl rfl
  | some place =>
    show (d.1.mkdir p).2.seen ns = d.1.seen ns ∨ Comes (d.1.seen ns) ((d.1.mkdir p).2.seen ns) ∧ _
    rw [Disk.mkdir_found hfind]
    split
    · rename_i hfree
      have hnone : d.1.holds place = false := by simpa using (Bool.and_eq_true_iff.mp hfree).2
      by_cases hsame : ns = place
      · subst hsame
        have hkind : d.1.kind ns = none := by
          by_contra hthere
          rw [kind_ne_none.mp hthere] at hnone
          cases hnone
        refine .inr ⟨⟨hkind, ?_⟩, p, rfl, leadsTo_of_find hfind⟩
        simp [Disk.seen, Disk.kind]
      · have hcons : (place :: d.1.dirs).contains ns = d.1.dirs.contains ns := by simp [hsame]
        simp only [Disk.seen, Disk.kind, Disk.holds, hcons]
        exact .inl rfl
    · exact .inl rfl

/-- What is put at a place is a file there, and nothing else changes. -/
structure Disk.Puts (d : Disk) (put : Names → Disk) : Prop where
  dirs : ∀ ns, (put ns).dirs = d.dirs
  holds : ∀ ns, (put ns).holds ns = true
  configs : ∀ ns ns', ns ≠ ns' → (put ns').configs.lookup ns = d.configs.lookup ns
  statuses : ∀ ns ns', ns ≠ ns' → (put ns').statuses.lookup ns = d.statuses.lookup ns

theorem Disk.puts_putConfig (d : Disk) (config : RedConfig) : d.Puts (d.putConfig · config) where
  dirs _ := rfl
  holds ns := holds_iff.mpr (.inr (.inl (by simp [putConfig])))
  configs _ _ hne := lookup_saved hne
  statuses _ _ hne := lookup_filter_ne hne

theorem Disk.puts_putStatus (d : Disk) (status : RedStatus) : d.Puts (d.putStatus · status) where
  dirs _ := rfl
  holds ns := holds_iff.mpr (.inr (.inr (by simp [putStatus])))
  configs _ _ hne := lookup_filter_ne hne
  statuses _ _ hne := lookup_saved hne

theorem savedAt_tidyOs {put : Names → Disk} (hputs : d.1.Puts put)
    (htidy : Disk.Tidy (d.1.save p put).2) (hgrows : Disk.Grows d.1 (d.1.save p put).2)
    (hfile : NamesFile p) (hsaved : (d.1.save p put).1 = .saved) :
    SavedAt (tidyOs env).toFileOs leadsTo p d ⟨_, htidy⟩ ∧
      ∃ place, (d.1.save p put).2.reach p = some place ∧ (d.1.save p put).2 = put place := by
  rcases Disk.save_cases d.1 p put with ⟨place, hfind, hwritable, hsave⟩ | hsave
  swap
  · rw [hsave] at hsaved
    cases hsaved
  have hput : (d.1.save p put).2 = put place := congrArg Prod.snd hsave
  have hdir := (Disk.writable_iff.mp hwritable).2
  have hstat : (tidyOs env).stat d p = d.1.kind place := by
    show (d.1.reach p).bind d.1.kind = _
    rw [reach_of_file hfile, hfind]
    rfl
  have hreach : (d.1.save p put).2.reach p = some place :=
    (@reach_of_file ⟨_, htidy⟩ p hfile).trans (Disk.walk_mono hgrows.dirs hfind)
  have hstat' : (tidyOs env).stat ⟨_, htidy⟩ p = some .regular := by
    show ((d.1.save p put).2.reach p).bind (d.1.save p put).2.kind = _
    rw [hreach, hput]
    simp [Disk.kind, hputs.dirs, hdir, hputs.holds]
  refine ⟨⟨hfile, ?_, ?_, changes_of_seen hgrows fun ns hns => .inl ?_⟩, place, hreach, hput⟩
  · rw [hstat, Ne, kind_eq_directory]
    exact hdir
  · refine Eq.trans hstat' ?_
    rw [show (tidyOs env).stat d p = _ from hstat, Disk.kind, if_neg (by simpa using hdir)]
    split <;> rfl
  · have hne : ns ≠ place := fun heq => hns p rfl (heq.trans (leadsTo_of_find hfind))
    show (d.1.save p put).2.seen ns = d.1.seen ns
    rw [hput]
    simp only [Disk.seen, Disk.kind, Disk.holds, hputs.dirs, hputs.configs _ _ hne,
      hputs.statuses _ _ hne]
    rfl

theorem dirs_of_walk {place found names : Names} (hne : names ≠ [])
    (h : d.1.walk place names = some found) : place ∈ d.1.dirs := by
  cases names with
  | nil => exact absurd rfl hne
  | cons name rest =>
    rw [Disk.walk] at h
    split at h
    · rename_i hdir
      simpa using hdir
    · cases h

/-- The last part of a path without a slash at its end is a name. -/
theorem names_ne_nil (hfile : NamesFile p) (hne : p.bytes ≠ []) : names p ≠ [] := by
  rw [names, fields_eq_concat hne hfile]
  simp

theorem find_of_stat {x : CStr} (h : (tidyOs env).stat d (joinPath p x) ≠ none) :
    ∃ ns, d.1.find p = some ns ∧ ns ∈ d.1.dirs := by
  obtain ⟨found, hreach, -⟩ := stat_ne_none.mp h
  obtain ⟨hfind, hfile⟩ := reach_eq_some.mp hreach
  rw [find_joinPath] at hfind
  obtain ⟨ns, hns, hwalk⟩ := Option.bind_eq_some_iff.mp hfind
  refine ⟨ns, hns, ?_⟩
  rcases hfile with hfile | hdir
  · obtain ⟨hne, hlast⟩ := (@namesFile_of_append p.bytes _ _ rfl).mp hfile
    exact dirs_of_walk (names_ne_nil hlast hne) hwalk
  · by_cases hnil : names x = []
    · rw [hnil] at hwalk
      cases hwalk
      exact hdir
    · exact dirs_of_walk hnil hwalk

/-- **The calls on tidy disks** are those of a file system. -/
theorem fileSystem_tidyOs (env : CStr → Option CStr) : FileSystem (tidyOs env) leadsTo where
  same hp hq hp' hq' heq := by rw [see_tidyOs hp hp', see_tidyOs hq hq', heq]
  inside d p x h := stat_eq_directory.mpr (by rw [find_slashed]; exact find_of_stat h)
  directory d p _ h := stat_eq_directory.mpr (by
    rw [← find_slashed]
    exact stat_eq_directory.mp h)
  dots d p hdots hthere := by
    obtain ⟨ns, hreach, -⟩ := stat_ne_none.mp hthere
    have hfind := (reach_eq_some.mp hreach).1
    exact stat_eq_directory.mpr ⟨ns, hfind, dirs_of_dots hdots hfind⟩
  readable d p h := by
    have hload : (tidyOs env).redLoadConfig d p = (d.1.reach p).bind (d.1.configs.lookup ·) := rfl
    rw [hload] at h
    obtain ⟨config, hconfig⟩ := Option.isSome_iff_exists.mp h
    obtain ⟨ns, hreach, hlookup⟩ := Option.bind_eq_some_iff.mp hconfig
    have hsome : (d.1.configs.lookup ns).isSome = true := Option.isSome_iff_exists.mpr ⟨_, hlookup⟩
    refine ⟨stat_ne_none.mpr ⟨ns, hreach, Disk.holds_iff.mpr (.inr (.inl hsome))⟩, fun hdir => ?_⟩
    obtain ⟨ns', hfind, hmem⟩ := stat_eq_directory.mp hdir
    rw [(reach_eq_some.mp hreach).1] at hfind
    cases hfind
    exact d.2.apart ns hsome hmem
  mkdir d p _ := changes_mkdir d p
  mkdir_dots d p hdots := by
    show (d.1.mkdir p).1 = false
    cases hfind : d.1.find p with
    | none => rw [Disk.mkdir_lost hfind]
    | some ns =>
      rw [Disk.mkdir_found hfind, Disk.holds_iff.mpr (.inl (dirs_of_dots hdots hfind))]
      simp
  redSaveConfig d p config h := by
    have hsave : (tidyOs env).redSaveConfig d p config = if Disk.namesFile p = true then
      ((d.1.saveConfig p config).1, ⟨_, d.2.saveConfig p config⟩) else (.untouched, d) := rfl
    rw [hsave] at h ⊢
    split at h
    · rename_i hfile
      rw [if_pos hfile]
      obtain ⟨hat, place, hreach, hput⟩ := savedAt_tidyOs (d.1.puts_putConfig config)
        (d.2.saveConfig p config) (Disk.grows_saveConfig d.1 p config) (bne_iff_ne.mp hfile) h
      refine ⟨hat, fun _ => ?_⟩
      show ((d.1.saveConfig p config).2.reach p).bind _ = some config
      rw [show (d.1.saveConfig p config).2.reach p = some place from hreach]
      exact (congrArg (List.lookup place ·.configs) hput).trans List.lookup_cons_self
    · cases h
  redSaveStatus d p status h := by
    have hsave : (tidyOs env).redSaveStatus d p status = if Disk.namesFile p = true then
      ((d.1.saveStatus p status).1, ⟨_, d.2.saveStatus p status⟩) else (.untouched, d) := rfl
    rw [hsave] at h ⊢
    split at h
    · rename_i hfile
      rw [if_pos hfile]
      obtain ⟨hat, place, hreach, hput⟩ := savedAt_tidyOs (d.1.puts_putStatus status)
        (d.2.saveStatus p status) (Disk.grows_saveStatus d.1 p status) (bne_iff_ne.mp hfile) h
      refine ⟨hat, fun _ => ?_⟩
      show ((d.1.saveStatus p status).2.reach p).bind _ = some status
      rw [show (d.1.saveStatus p status).2.reach p = some place from hreach]
      exact (congrArg (List.lookup place ·.statuses) hput).trans List.lookup_cons_self
    · cases h
  malloc _ := rfl
  freshUUID _ := rfl

/-! ## Without variables -/

/-- No variable sets another sub-path. -/
structure Unset (env : CStr → Option CStr) : Prop where
  normal : getNormalConfSubpath (tidyOs env) = rednodeConf
  admin : getAdminConfSubpath (tidyOs env) = rednodeAdmin
  status : getStatusSubpath (tidyOs env) = rednodeStatus

/-- Files of nodes have the same names in the same directory only. -/
theorem names_inj {a b : Names} {sub sub' : CStr} (hsub : sub ∈ nodeFileNames)
    (hsub' : sub' ∈ nodeFileNames) (h : a ++ names sub = b ++ names sub') : a = b ∧ sub = sub' := by
  have hlast : ∀ sub ∈ nodeFileNames, names sub ≠ [] ∧ ∀ sub' ∈ nodeFileNames,
      (names sub).getLast? = (names sub').getLast? → sub = sub' := by decide +kernel
  have heq := congrArg List.getLast? h
  rw [List.getLast?_append_of_ne_nil _ (hlast sub hsub).1,
    List.getLast?_append_of_ne_nil _ (hlast sub' hsub').1] at heq
  have hsame := (hlast sub hsub).2 sub' hsub' heq
  rw [← hsame] at h
  exact ⟨List.append_cancel_right h, hsame⟩

theorem leadsTo_joinPath (path : CStr) {sub : CStr} (hsub : sub ∈ nodeFileNames) :
    leadsTo (joinPath path sub) = leadsTo path ++ names sub := by
  have hplain : ∀ sub ∈ nodeFileNames, ∀ name ∈ names sub, Plain name := by decide +kernel
  have hbytes : (joinPath path sub).bytes = path.bytes ++ slash :: sub.bytes := by
    simp [joinPath, CStr.append]
  rw [leadsTo_eq, leadsTo_eq, names, hbytes, fields_append_sep, List.foldl_append]
  exact foldl_follow (hplain sub hsub) _

section

variable {fab : RednodeFactory} {path dir : CStr}

/-- The factory puts the files of a node into a directory. -/
def Inside (fab : RednodeFactory) (dir : CStr) : Prop :=
  ∀ sub ∈ nodeFileNames, leadsTo (fab.place sub) = leadsTo dir ++ names sub

theorem place_of_mem (henv : Unset env) (hplace : Inside fab dir) {p : CStr}
    (hp : p ∈ nodePlaces (tidyOs env) fab) :
    ∃ sub ∈ nodeFileNames, leadsTo p = leadsTo dir ++ names sub := by
  have hname : ∀ sub ∈ nodeFileNames, p = fab.place sub →
      ∃ sub ∈ nodeFileNames, leadsTo p = leadsTo dir ++ names sub := fun sub hsub hp =>
    ⟨sub, hsub, by rw [hp, hplace sub hsub]⟩
  rcases hp with hp | hp | hp
  · rw [henv.normal] at hp
    exact hname _ (by simp [nodeFileNames]) hp
  · rw [henv.admin] at hp
    exact hname _ (by simp [nodeFileNames]) hp
  · rw [henv.status] at hp
    exact hname _ (by simp [nodeFileNames]) hp

theorem clearOf_names (henv : Unset env) (hplace : Inside fab dir)
    (hne : leadsTo path ≠ leadsTo dir) :
    ClearOf leadsTo (nodePlaces (tidyOs env) fab) path := by
  intro sub hsub p hp heq
  obtain ⟨sub', hsub', hp⟩ := place_of_mem henv hplace hp
  rw [leadsTo_joinPath path hsub, hp] at heq
  exact hne (names_inj hsub hsub' heq).1

theorem sought_names (henv : Unset env) (hplace : Inside fab dir)
    (heq : leadsTo path = leadsTo dir) : Sought (tidyOs env) leadsTo fab path := by
  have hsame : ∀ sub ∈ nodeFileNames, leadsTo (joinPath path sub) = leadsTo (fab.place sub) :=
    fun sub hsub => by rw [leadsTo_joinPath path hsub, hplace sub hsub, heq]
  refine ⟨?_, ?_, ?_⟩
  · rw [henv.normal]
    exact hsame _ (by simp [nodeFileNames])
  · rw [henv.admin]
    exact hsame _ (by simp [nodeFileNames])
  · rw [henv.status]
    exact hsame _ (by simp [nodeFileNames])

theorem linked_names (henv : Unset env) (hplace : Inside fab dir) (above : Set CStr) :
    Linked (tidyOs env) leadsTo fab dir above := by
  have hown : ∀ sub ∈ nodeFileNames, rednodeStatus ≠ sub →
      leadsTo (fab.place rednodeStatus) ≠ leadsTo (fab.place sub) := by
    intro sub hsub hne heq
    rw [hplace _ (by simp [nodeFileNames]), hplace sub hsub] at heq
    exact hne (names_inj (by simp [nodeFileNames]) hsub heq).2
  refine ⟨sought_names henv hplace rfl, ⟨?_, ?_⟩, fun p _ => ?_⟩
  · rw [henv.status, henv.normal]
    exact hown _ (by simp [nodeFileNames]) (by decide +kernel)
  · rw [henv.status, henv.admin]
    exact hown _ (by simp [nodeFileNames]) (by decide +kernel)
  · by_cases heq : leadsTo p = leadsTo dir
    · exact .inl (sought_names henv hplace heq)
    · exact .inr (clearOf_names henv hplace heq)

/-- **Without variables**, the loader looks where the factory writes. The node has a name, if its
parent may get files. -/
theorem links_tidyOs (henv : Unset env) (hloc : Located fab) (hnotRoot : 1 < fab.nodeLength)
    {mode : RednodeFactoryMode} (hnamed : mode = .legacy → Plain (nodeName fab).bytes) :
    Links (tidyOs env) leadsTo mode fab := by
  obtain ⟨v, u, hcut⟩ := hloc.cut hnotRoot
  have hnode : Inside fab (nodePath fab) := fun sub hsub => by
    rw [hloc.place_eq hnotRoot, leadsTo_joinPath _ hsub]
  have hparentNames : names (parentPath fab) = fields slash v := by
    rw [names, hcut.bytes_parent, fields_append_sep_nil]
  have hparent : Inside (sysfab (tidyOs env) fab (nodeOffset fab)) (parentPath fab) :=
    fun sub hsub => by
      rw [← leadsTo_joinPath _ hsub, leadsTo_eq, leadsTo_eq, names, names, hcut.bytes_place]
      refine congrArg (List.foldl follow []) ?_
      show _ = fields slash ((parentPath fab).bytes ++ [slash] ++ sub.bytes)
      rw [hcut.bytes_parent, List.append_assoc, List.append_assoc, List.append_assoc,
        List.singleton_append, List.singleton_append, fields_append_sep, fields_append_sep,
        fields_sep_cons]
  refine ⟨linked_names henv hnode _, fun _ => linked_names henv hparent _, fun hmode => ?_⟩
  have hplain := hnamed hmode
  rw [hcut.name] at hplain
  refine clearOf_names henv hnode fun heq => ?_
  have hnames : names (nodePath fab) = fields slash v ++ [u] := by
    rw [names, hcut.path, fields_append_sep, hplain.isField.fields_eq]
  rw [leadsTo_eq, leadsTo_eq, hparentNames, hnames, List.foldl_append] at heq
  exact absurd (heq.trans (follow_plain hplain _)) (by simp)

end

/-! ## Examples -/

/-- The names of the files of a disk. -/
def Disk.files (d : Disk) : List Names := d.configs.map (·.1) ++ d.statuses.map (·.1)

theorem Disk.mem_files {d : Disk} {ns : Names}
    (h : (d.configs.lookup ns).isSome = true ∨ (d.statuses.lookup ns).isSome = true) :
    ns ∈ d.files := by
  rw [files, List.mem_append, List.mem_map, List.mem_map]
  refine h.imp (fun h => ?_) fun h => ?_ <;>
  · obtain ⟨file, hfile, hns⟩ := List.lookup_isSome_iff.mp h
    exact ⟨file, hfile, (eq_of_beq hns).symm⟩

theorem Disk.tidy_of_files {d : Disk} (hinside : ∀ ns ∈ d.dirs ++ d.files, ns.dropLast ∈ d.dirs)
    (hapart : ∀ ns ∈ d.files, ns ∉ d.dirs) : d.Tidy where
  inside ns h := hinside ns (List.mem_append.mpr ((holds_iff.mp h).imp_right mem_files))
  apart ns h := hapart ns (mem_files (.inl h))

/-- No file of a disk has the name of a status. -/
def NoStatus (d : Disk) : Prop := ∀ ns ∈ d.files, ns.getLast? ≠ (names rednodeStatus).getLast?

instance (d : Disk) : Decidable (NoStatus d) :=
  inferInstanceAs (Decidable (∀ ns ∈ d.files, _))

theorem not_regular_of_noStatus (h : NoStatus d.1) (p : CStr) :
    (tidyOs env).stat d (joinPath p rednodeStatus) ≠ some .regular := by
  intro hregular
  have hname : rednodeStatus ∈ nodeFileNames := by simp [nodeFileNames]
  have hthere : (tidyOs env).stat d (joinPath p rednodeStatus) ≠ none := by
    rw [hregular]
    exact Option.some_ne_none _
  have hsee : (tidyOs env).stat d (joinPath p rednodeStatus) =
      d.1.kind (leadsTo (joinPath p rednodeStatus)) :=
    congrArg Seen.kind (see_tidyOs (namesFile_nodeFile p hname) (.inl hthere))
  have hkind : d.1.kind (leadsTo (joinPath p rednodeStatus)) = some .regular :=
    hsee.symm.trans hregular
  have hholds := kind_ne_none.mp (by rw [hkind]; exact Option.some_ne_none _)
  have hdir : leadsTo (joinPath p rednodeStatus) ∉ d.1.dirs := fun hdir => by
    rw [kind_eq_directory.mpr hdir] at hkind
    cases hkind
  refine h _ (Disk.mem_files ((Disk.holds_iff.mp hholds).resolve_left hdir)) ?_
  rw [leadsTo_joinPath p hname, List.getLast?_append_of_ne_nil _ (by decide +kernel)]

/-- Both paths are set. -/
def setPaths (root node : CStr) : FactoryM Unit Bool := do
  let status ← rednodeFactorySetRoot root
  let status' ← rednodeFactorySetNode node
  pure (status = rednodeFactoryOk ∧ status' = rednodeFactoryOk)

def factoryOf (root node : CStr) : RednodeFactory :=
  (Action.after (setPaths root node) ⟨cleared, (), []⟩).fab

theorem accepted_factoryOf {root node : CStr}
    (h : Action.endsIn (setPaths root node) ⟨cleared, (), []⟩ (fun both _ => both) = true) :
    Accepted root node (factoryOf root node) := by
  obtain ⟨both, m, hrun, hboth⟩ := Action.of_endsIn h
  have hfab : factoryOf root node = m.fab := by
    rw [factoryOf, Action.after, hrun]
  obtain ⟨status, m₁, hroot, hrest⟩ := Action.bind_eq_ok.mp hrun
  obtain ⟨status', m₂, hnode, hlast⟩ := Action.bind_eq_ok.mp hrest
  cases hlast
  obtain ⟨rfl, rfl⟩ := of_decide_eq_true hboth
  exact ⟨cleared, m₁, m, hroot, hnode, hfab.symm⟩

def rootTemplates : List (Names × RedConfig) :=
  [(names (.lit "/etc/redpak/templates.d/root-normal.yaml"),
      { headers := ⟨.lit "root", none, none⟩ }),
    (names (.lit "/etc/redpak/templates.d/root-admin.yaml"),
      { headers := ⟨.lit "root", none, none⟩ })]

/-- Templates for a leaf and for a system node, and an empty directory `/r`. -/
def templatesOnly : TidyDisk where
  val := {
    dirs := templateDirs ++ [names (.lit "/r")]
    configs := leafTemplates ++ rootTemplates
    statuses := [] }
  property := Disk.tidy_of_files (by decide +kernel) (by decide +kernel)

theorem noStatus_templatesOnly : NoStatus templatesOnly.1 := by decide +kernel

def noVariables : CStr → Option CStr := fun _ => none

theorem unset_noVariables : Unset noVariables := ⟨rfl, rfl, rfl⟩

/-- A path that leads back from a missing directory leads somewhere once that is made. -/
example : let template := CStr.lit "/r/n/../../etc/redpak/templates.d/leaf-normal.yaml"
    (tidyOs noVariables).stat templatesOnly template = none ∧
      (tidyOs noVariables).stat ((tidyOs noVariables).mkdir templatesOnly (.lit "/r/n")).2
        template = some .regular := by
  decide +kernel

/-- The node `/r/s/n` is created in legacy mode, with the system node `/r/s`. -/
def systemAndLeaf : Machine TidyDisk := ⟨factoryOf (.lit "/r") (.lit "s/n"), templatesOnly, []⟩

theorem accepted_systemAndLeaf : Accepted (.lit "/r") (.lit "s/n") systemAndLeaf.fab :=
  accepted_factoryOf (by decide +kernel)

theorem found_systemAndLeaf : ∃ m', rednodeFactoryCreateNode (tidyOs noVariables) none false .legacy
    systemAndLeaf = .ok rednodeFactoryOk m' ∧
      Found (tidyOs noVariables) none .legacy systemAndLeaf m' := by
  have hend : Action.endsIn (rednodeFactoryCreateNode (tidyOs noVariables) none false .legacy)
      systemAndLeaf (fun status _ => status = rednodeFactoryOk) = true := by decide +kernel
  obtain ⟨status, m', hrun, hstatus⟩ := Action.of_endsIn hend
  obtain rfl : status = rednodeFactoryOk := of_decide_eq_true hstatus
  have hnone := @not_regular_of_noStatus noVariables templatesOnly noStatus_templatesOnly
  have hnotRoot : 1 < systemAndLeaf.fab.nodeLength := by decide +kernel
  have hnamed : Plain (nodeName systemAndLeaf.fab).bytes := by decide +kernel
  refine ⟨m', hrun, (created_found_iff (fileSystem_tidyOs noVariables) accepted_systemAndLeaf none
    .legacy (links_tidyOs unset_noVariables accepted_systemAndLeaf.located hnotRoot fun _ => hnamed)
    (fun p _ hregular => absurd hregular (hnone p)) hrun).mpr ⟨hnotRoot, by decide +kernel,
      by decide +kernel, fun p _ hregular => absurd hregular (hnone p), fun _ =>
        ⟨by decide +kernel, hnamed, ?_, fun _ => by decide +kernel,
          fun _ p _ hregular => absurd hregular (hnone p)⟩⟩⟩
  · intro haccess
    have hfree : (tidyOs noVariables).access systemAndLeaf.os
      (parentStatus (tidyOs noVariables) systemAndLeaf.fab) = false := by decide +kernel
    rw [hfree] at haccess
    cases haccess

/-- The status is kept under another name. -/
def statusElsewhere : CStr → Option CStr := fun varname =>
  if varname = .lit "REDNODE_STATUS_SUBPATH" then some (.lit ".status.yaml") else none

def leafAlone : Machine TidyDisk := ⟨factoryOf (.lit "/r") (.lit "n"), templatesOnly, []⟩

/-- The loader doesn't look under the name that the factory has the status written to. -/
theorem not_found_statusElsewhere : FileSystem (tidyOs statusElsewhere) leadsTo ∧
    Accepted (.lit "/r") (.lit "n") leafAlone.fab ∧
    (∀ p, LoadsIfRednode (tidyOs statusElsewhere) leafAlone.os p) ∧
    ∃ m', rednodeFactoryCreateNode (tidyOs statusElsewhere) none false .deflt leafAlone =
        .ok rednodeFactoryOk m' ∧
      ¬ Found (tidyOs statusElsewhere) none .deflt leafAlone m' := by
  have hend : Action.endsIn (rednodeFactoryCreateNode (tidyOs statusElsewhere) none false .deflt)
      leafAlone (fun status m' => status = rednodeFactoryOk ∧ (tidyOs statusElsewhere).stat m'.os
        (joinPath (nodePath leafAlone.fab) rednodeStatus) ≠ some .regular) = true := by
    decide +kernel
  obtain ⟨status, m', hrun, hstatus⟩ := Action.of_endsIn hend
  obtain ⟨rfl, hnone⟩ := of_decide_eq_true hstatus
  refine ⟨fileSystem_tidyOs _, accepted_factoryOf (by decide +kernel), fun p hregular => absurd
    hregular (not_regular_of_noStatus noStatus_templatesOnly p), m', hrun, ?_⟩
  rintro ⟨m₁, family, -, hscan, -⟩
  obtain ⟨leaf, hload, -⟩ := redNodesScan_eq_some.mp hscan
  exact hnone ((redNodesLoad_ok _ _).mp hload).regular

end Factory
end RedPak
