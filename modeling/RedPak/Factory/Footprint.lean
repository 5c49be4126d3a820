import RedPak.Layered.Footprint
import RedPak.Factory.AtomicCall
import RedPak.Factory.Grounded

/-!
# Factory.Footprint

What the creation of a node changes in the file system: the three files are written, and directories
come into being on the way to them.

* `FileSystem`: what the factory and the loader rely on.
* `createDirectories_changes`: directories are made on the way to where they are wanted.
* `NodeCreated.changes`: the footprint of the creation of a node.
* `NodeCreated.files`: what the files hold.
-/

namespace RedPak
namespace Factory

open Conf Node Layered.Action
open Layered (Buffer Touches)
open Layered.Buffer

section

variable {ω φ : Type}

/-! ## The file system -/

/-- What is seen of a file. -/
structure Seen where
  kind : Option FileKind
  config : Option RedConfig
  status : Option RedStatus

def see (os : FileOs ω) (w : ω) (path : CStr) : Seen :=
  ⟨os.stat w path, os.redLoadConfig w path, os.redLoadStatus w path⟩

/-- A directory comes into being. -/
def Comes (a b : Seen) : Prop := a.kind = none ∧ b.kind = some .directory

theorem comes_once (a b c : Seen) (h : Comes a b) : ¬ Comes b c := fun h' => by
  have hkind := h.2
  rw [h'.1] at hkind
  cases hkind

/-- A path that may name a file: what is seen under a path that ends in a slash is what is seen of a
directory. -/
def NamesFile (path : CStr) : Prop := path.bytes.getLast? ≠ some slash

/-- The paths that lead to what one of `paths` leads to. -/
def leading (real : CStr → φ) (paths : Set CStr) : Set CStr := {q | ∃ p ∈ paths, real q = real p}

/-- Files are written under the paths `written` and directories made under `made`, and nothing gets
lost. Under other paths nothing changes, but for those that lead back from what is missing. -/
structure Changes (os : FileOs ω) (real : CStr → φ) (written made : Set CStr) (w w' : ω) :
    Prop where
  touches : Touches (see os) Comes ({q | ¬ (NamesFile q ∧ Anchored os w q)} ∪ leading real written)
    (leading real made) w w'
  stays : ∀ q, os.stat w q ≠ none → os.stat w' q ≠ none

/-- A file is saved: the one that is there, or else a regular one. -/
structure SavedAt (os : FileOs ω) (real : CStr → φ) (p : CStr) (w w' : ω) : Prop where
  file : NamesFile p
  before : os.stat w p ≠ some .directory
  kind : os.stat w' p = some ((os.stat w p).getD .regular)
  changes : Changes os real {p} ∅ w w'

/-- What the factory and the loader rely on. `real` is the file that a path leads to, be it there or
not: no call changes that, for no symbolic link leads through a missing directory and back by `..`.
What is saved is loaded again. -/
structure FileSystem (os : FactoryOs ω) (real : CStr → φ) : Prop where
  same : ∀ {w : ω} {p q : CStr}, NamesFile p → NamesFile q → Anchored os.toFileOs w p →
    Anchored os.toFileOs w q → real p = real q → see os.toFileOs w p = see os.toFileOs w q
  inside : ∀ (w : ω) (p x : CStr), os.stat w (joinPath p x) ≠ none →
    os.stat w (Node.slashed p) = some .directory
  directory : ∀ (w : ω) (p : CStr), p.bytes ≠ [] →
    os.stat w (Node.slashed p) = some .directory → os.stat w p = some .directory
  dots : ∀ (w : ω) (p : CStr), EndsInDots p.bytes → os.stat w p ≠ none →
    os.stat w p = some .directory
  readable : ∀ (w : ω) (p : CStr), (os.redLoadConfig w p).isSome →
    os.stat w p ≠ none ∧ os.stat w p ≠ some .directory
  mkdir : ∀ (w : ω) (p : CStr), NamesFile p →
    Changes os.toFileOs real ∅ {p} w (os.mkdir w p).2
  mkdir_dots : ∀ (w : ω) (p : CStr), EndsInDots p.bytes → (os.mkdir w p).1 = false
  redSaveConfig : ∀ (w : ω) (p : CStr) (config : RedConfig),
    (os.redSaveConfig w p config).1 = .saved →
      SavedAt os.toFileOs real p w (os.redSaveConfig w p config).2 ∧
        (os.stat (os.redSaveConfig w p config).2 p = some .regular →
          os.redLoadConfig (os.redSaveConfig w p config).2 p = some config)
  redSaveStatus : ∀ (w : ω) (p : CStr) (status : RedStatus),
    (os.redSaveStatus w p status).1 = .saved →
      SavedAt os.toFileOs real p w (os.redSaveStatus w p status).2 ∧
        (os.stat (os.redSaveStatus w p status).2 p = some .regular →
          os.redLoadStatus (os.redSaveStatus w p status).2 p = some status)
  malloc : ∀ w : ω, see os.toFileOs (os.malloc w).2 = see os.toFileOs w
  freshUUID : ∀ w : ω, see os.toFileOs (os.freshUUID w).2 = see os.toFileOs w

variable {os : FileOs ω} {real : CStr → φ} {written made written' made' : Set CStr} {w w' w'' : ω}

theorem leading_mono {paths paths' : Set CStr} (h : paths ⊆ paths') :
    leading real paths ⊆ leading real paths' := fun _ ⟨p, hp, heq⟩ => ⟨p, h hp, heq⟩

theorem Changes.mono (h : Changes os real written made w w') (hwritten : written ⊆ written')
    (hmade : made ⊆ made') : Changes os real written' made' w w' where
  touches := h.touches.mono (Set.union_subset_union_right _ (leading_mono hwritten))
    (leading_mono hmade)
  stays := h.stays

theorem Changes.trans (h : Changes os real written made w w')
    (h' : Changes os real written made w' w'') : Changes os real written made w w'' where
  touches := by
    refine h.touches.trans comes_once (h'.touches.mono ?_ subset_rfl)
    exact Set.union_subset_union_left _ fun q hq hfirm => hq ⟨hfirm.1, hfirm.2.stays h.stays⟩
  stays q hq := h'.stays q (h.stays q hq)

theorem changes_of_see (h : see os w' = see os w) : Changes os real written made w w' where
  touches := fun k _ => .inl (congrFun h k)
  stays q hq := by
    rw [show os.stat w' q = os.stat w q from congrArg Seen.kind (congrFun h q)]
    exact hq

theorem not_mem_written {q : CStr} (hq : NamesFile q) (hanchored : Anchored os w q)
    (hwritten : ∀ p ∈ written, real q ≠ real p) :
    q ∉ {q | ¬ (NamesFile q ∧ Anchored os w q)} ∪ leading real written := by
  rintro (hnot | ⟨p, hp, heq⟩)
  · exact hnot ⟨hq, hanchored⟩
  · exact hwritten p hp heq

theorem Changes.kept (h : Changes os real written made w w') {q : CStr} (hq : NamesFile q)
    (hwritten : ∀ p ∈ written, real q ≠ real p) (hthere : os.stat w q ≠ none) :
    see os w' q = see os w q :=
  h.touches.kept (not_mem_written hq (.inl hthere) hwritten) fun _ hcomes => hthere hcomes.1

/-- A file that is not written is as it was, or it is a directory now and was not there. -/
theorem Changes.cases (h : Changes os real written made w w') {q : CStr} (hq : NamesFile q)
    (hanchored : Anchored os w q) (hwritten : ∀ p ∈ written, real q ≠ real p) :
    see os w' q = see os w q ∨ Comes (see os w q) (see os w' q) ∧ q ∈ leading real made :=
  h.touches q (not_mem_written hq hanchored hwritten)

end

/-! ## Dots -/

section

variable {ω φ : Type} {os : FactoryOs ω} {real : CStr → φ} {w w' : ω} {p q : CStr}

theorem FileSystem.onWay (F : FileSystem os real) (hne : p.bytes ≠ [])
    (hbegins : p.bytes ++ [slash] <+: q.bytes) (hthere : os.stat w q ≠ none) :
    os.stat w p = some .directory := by
  obtain ⟨rest, hpath⟩ := hbegins
  have hfree : (0 : UInt8) ∉ rest := fun h => q.nulFree (by rw [← hpath]; simp [h])
  have hjoin : q = joinPath p ⟨rest, hfree⟩ := CStr.ext hpath.symm
  rw [hjoin] at hthere
  exact F.directory w p hne (F.inside w p _ hthere)

theorem EndsInDots.ne_nil {l : List UInt8} (h : EndsInDots l) : l ≠ [] := by
  rintro rfl
  exact absurd h (by decide)

/-- What is there does not lead back from what is missing. -/
theorem FileSystem.grounded (F : FileSystem os real) (hthere : os.stat w q ≠ none) :
    Grounded os.toFileOs w q := by
  intro a ha
  obtain ⟨hdots, rfl | hbegins⟩ := mem_dottedStarts.mp ha
  · exact hthere
  · rw [show os.stat w a = _ from F.onWay hdots.ne_nil hbegins hthere]
    exact Option.some_ne_none _

theorem SavedAt.not_dots (F : FileSystem os real) (h : SavedAt os.toFileOs real p w w') :
    ¬ EndsInDots p.bytes := by
  intro hdots
  have hdir := F.dots w' p hdots (by rw [h.kind]; exact Option.some_ne_none _)
  have hbefore := h.before
  rw [h.kind] at hdir
  cases hstat : os.stat w p with
  | none =>
    rw [hstat] at hdir
    cases hdir
  | some kind =>
    rw [hstat] at hdir hbefore
    exact hbefore hdir

/-- A path that leads back only from directories on the way to where it leads. -/
theorem grounded_of_proper (hdots : ¬ EndsInDots q.bytes)
    (h : ∀ a : CStr, EndsInDots a.bytes → a.bytes ++ [slash] <+: q.bytes → os.stat w a ≠ none) :
    Grounded os.toFileOs w q := by
  intro a ha
  obtain ⟨hends, rfl | hbegins⟩ := mem_dottedStarts.mp ha
  · exact absurd hends hdots
  · exact h a hends hbegins

end

/-! ## Directories -/

section

variable {ω φ : Type} {os : FactoryOs ω} {real : CStr → φ} {m m' : Machine ω} {w : ω}

/-- The directories on the way to a file. -/
def onTheWay (path : CStr) : Set CStr :=
  {q | q.bytes ≠ [] ∧ NamesFile q ∧ q.bytes ++ [slash] <+: path.bytes}

/-- The changes since `w` are some of these. -/
def Since (os : FactoryOs ω) (real : CStr → φ) (written made : Set CStr) (w : ω)
    (m : Machine ω) : Prop := Changes os.toFileOs real written made w m.os

theorem keepsOr_mkdir_since (F : FileSystem os real) {made : Set CStr} {q : CStr} (hq : q ∈ made)
    (hfile : NamesFile q) : KeepsOr (Since os real ∅ made w) never (mkdir os q) := fun m hm =>
  Changes.trans hm ((F.mkdir m.os q hfile).mono subset_rfl fun _ hmem => hmem ▸ hq)

theorem keepsOr_makeDirectory_since (F : FileSystem os real) {made : Set CStr}
    {tmp : List UInt8} (hq : CStr.ofBytes tmp ∈ made) (hfile : NamesFile (CStr.ofBytes tmp))
    (chk : Bool) : KeepsOr (Since os real ∅ made w) never (makeDirectory os tmp chk) := by
  refine KeepsOr.get_bind fun t _ => ?_
  have hmkdir : KeepsOr (Since os real ∅ made w) never (do
      pure (if ← mkdir os (CStr.ofBytes tmp) then some false else none)) :=
    (keepsOr_mkdir_since F hq hfile).bind fun made => keepsOr_pure _
  cases chk with
  | false => exact hmkdir
  | true =>
    cases os.stat t.os (CStr.ofBytes tmp) with
    | none => exact hmkdir
    | some kind => cases kind <;> exact keepsOr_pure _

theorem keepsOr_advanceDirectories_since (F : FileSystem os real) (path : CStr)
    (hslash : path.bytes.getLast? = some slash) (rest : List UInt8) :
    ∀ tmp named chk, tmp ++ rest = path.bytes → (rest = [] → named = false) →
      (named = true → tmp ≠ [] ∧ tmp.getLast? ≠ some slash) →
      KeepsOr (Since os real ∅ (onTheWay path) w) never
        (advanceDirectories os tmp rest named chk) := by
  induction rest with
  | nil =>
    intro tmp named chk _ hend _
    rw [hend rfl]
    exact keepsOr_pure _
  | cons c rest ih =>
    intro tmp named chk hpath _ hnamed
    have hstep : (tmp ++ [c]) ++ rest = path.bytes := by rw [← hpath]; simp
    unfold advanceDirectories
    refine KeepsOr.ite (fun hname => ?_) fun _ => ih _ _ _ hstep (fun hnil => ?_) fun hc => ?_
    · obtain ⟨rfl, hname⟩ := hname
      have hbegins : tmp <+: path.bytes := ⟨_, hpath⟩
      have hbytes : (CStr.ofBytes tmp).bytes = tmp :=
        congrArg CStr.bytes (CStr.ofBytes_bytes
          ⟨tmp, fun h => path.nulFree (List.IsPrefix.subset hbegins h)⟩)
      have hfile : NamesFile (CStr.ofBytes tmp) := by
        rw [NamesFile, hbytes]
        exact (hnamed hname).2
      have hway : CStr.ofBytes tmp ∈ onTheWay path :=
        ⟨by rw [hbytes]; exact (hnamed hname).1, hfile, by rw [hbytes]; exact ⟨rest, hstep⟩⟩
      refine (keepsOr_makeDirectory_since F hway hfile chk).bind fun there => ?_
      cases there with
      | none => exact keepsOr_pure _
      | some chk => exact ih _ _ _ hstep (fun _ => rfl) fun h => by cases h
    · subst hnil
      rw [← hstep, List.append_nil, List.getLast?_concat] at hslash
      simpa using hslash
    · refine ⟨List.append_ne_nil_of_right_ne_nil tmp (List.cons_ne_nil c []), ?_⟩
      rw [List.getLast?_concat]
      simpa using hc

theorem getLast?_rdropWhile_ne {l : List UInt8} (h : l.rdropWhile (· != slash) ≠ []) :
    (l.rdropWhile (· != slash)).getLast? = some slash := by
  have hlast := List.rdropWhile_last_not (· != slash) l h
  rw [List.getLast?_eq_getLast_of_ne_nil h]
  simpa using hlast

theorem directoriesBase_le {path : Buffer UInt8} {base length idx : Nat}
    (h : directoriesBase path base length = some idx) : idx ≤ length := by
  unfold directoriesBase at h
  simp only at h
  generalize (if base > 0 ∧ path (base - 1) = slash then base - 1 else base) = i at h
  split at h
  · cases h
  · rename_i hbad
    split at h
    · cases h
      omega
    · split at h
      · cases h
        omega
      · cases h
        exact (List.takeWhile_sublist _).length_le.trans (by rw [length_slice]; omega)

/-- **Directories are made** on the way to where they are wanted. -/
theorem createDirectories_changes (F : FileSystem os real) (hready : Ready m.fab) {length : Nat}
    {path : CStr} (hpath : slice m.fab.path 0 length = path.bytes)
    (hslash : path.bytes.getLast? = some slash) :
    wp (createDirectories os m.fab.rootLength length)
      (fun _ m' => Changes os.toFileOs real ∅ (onTheWay path) m.os m'.os) never m := by
  have hrefl : ∀ made, Changes os.toFileOs real ∅ made m.os m.os := fun _ => changes_of_see rfl
  unfold createDirectories
  refine wp_bind.mpr (wp_mono (rootExists_spec hready) ?_ fun _ _ he => he)
  intro exist m₁ hsame
  rw [hsame, wp_ite]
  split
  · have hmake : KeepsOr (Since os real ∅ (onTheWay path) m.os) never
        (makeDirectories os m.fab.path m.fab.rootLength length) := by
      unfold makeDirectories
      cases hbase : directoriesBase m.fab.path m.fab.rootLength length with
      | none => exact keepsOr_pure _
      | some idx =>
        refine KeepsOr.get_bind fun t _ => KeepsOr.ite (fun _ => keepsOr_pure _) fun _ => ?_
        refine keepsOr_advanceDirectories_since F path hslash _ _ _ _ ?_ (fun _ => rfl) fun h => by
          cases h
        rw [slice_append (Nat.zero_le idx) (directoriesBase_le hbase), hpath]
    rw [wp_bind, wp_get, wp_bind]
    refine wp_mono (hmake m (hrefl _)) ?_ fun _ _ he => he
    intro made m' hm'
    rw [wp_ite]
    split <;> exact hm'
  · exact hrefl _

/-- One directory is there, or it is made and has a name. -/
theorem makeDirectory_some (F : FileSystem os real) {path : CStr} {chk chk' : Bool}
    (h : makeDirectory os path.bytes chk m = .ok (some chk') m') :
    chk = true ∧ chk' = true ∧ os.stat m.os path ≠ none ∧ m' = m ∨
      chk' = false ∧ ¬ EndsInDots path.bytes := by
  have hmkdir : ∀ {r : Option Bool} {m' : Machine ω}, (do
      pure (if ← mkdir os path then some false else none) : FactoryM ω (Option Bool)) m =
        .ok r m' → r = some chk' → chk' = false ∧ ¬ EndsInDots path.bytes := by
    intro r m' hrun hr
    obtain ⟨made, m₁, hmade, hrun⟩ := bind_eq_ok.mp hrun
    cases hmade
    cases hrun
    split at hr
    · rename_i hmade
      cases hr
      refine ⟨rfl, fun hdots => ?_⟩
      rw [F.mkdir_dots m.os path hdots] at hmade
      cases hmade
    · cases hr
  unfold makeDirectory at h
  rw [get_bind, CStr.ofBytes_bytes] at h
  cases chk with
  | false => exact .inr (hmkdir h rfl)
  | true =>
    cases hstat : os.stat m.os path with
    | none =>
      rw [hstat] at h
      exact .inr (hmkdir h rfl)
    | some kind =>
      rw [hstat] at h
      cases kind with
      | directory =>
        cases h
        exact .inl ⟨rfl, rfl, Option.some_ne_none _, rfl⟩
      | regular => cases h
      | other => cases h

/-- A start of the path that is still to be looked for. -/
structure Ahead (path : CStr) (tmp : List UInt8) (named : Bool) (a : CStr) : Prop where
  start : a ∈ dottedStarts path
  behind : tmp <+: a.bytes
  named : a.bytes = tmp → named = true

/-- The byte that comes next of the path is the one that comes next of the start. -/
theorem Ahead.next {path a : CStr} {tmp rest : List UInt8} {c : UInt8} {named : Bool}
    (hpath : tmp ++ c :: rest = path.bytes) (h : Ahead path tmp named a)
    (hother : a.bytes ≠ tmp) : Ahead path (tmp ++ [c]) (c ≠ slash) a := by
  obtain ⟨front, hfront⟩ := h.behind
  cases front with
  | nil => exact absurd (by rw [← hfront, List.append_nil]) hother
  | cons d front =>
    have hbegins := h.start.2
    rw [← hpath, ← hfront, List.append_assoc, List.append_assoc, List.prefix_append_right_inj,
      List.cons_append, List.cons_append, List.cons_prefix_cons] at hbegins
    obtain ⟨rfl, -⟩ := hbegins
    refine ⟨h.start, ⟨front, by rw [← hfront]; simp⟩, fun hself => decide_eq_true ?_⟩
    rintro rfl
    exact h.start.1.1 (by rw [hself, List.getLast?_concat])

theorem Ahead.slash_next {path a : CStr} {tmp rest : List UInt8} {c : UInt8} {named : Bool}
    (hpath : tmp ++ c :: rest = path.bytes) (h : Ahead path tmp named a) (hself : a.bytes = tmp) :
    c = slash ∧ named = true := by
  have hbegins := h.start.2
  rw [← hpath, hself, List.append_assoc, List.prefix_append_right_inj, List.cons_append,
    List.cons_prefix_cons] at hbegins
  exact ⟨hbegins.1.symm, h.named hself⟩

/-- What is made has a name, so all that is led back from was there. -/
theorem advanceDirectories_grounded (F : FileSystem os real) (path : CStr)
    (hslash : path.bytes.getLast? = some slash) (rest : List UInt8) :
    ∀ {m m' : Machine ω} tmp named chk, tmp ++ rest = path.bytes →
      advanceDirectories os tmp rest named chk m = .ok true m' →
      ∀ a, Ahead path tmp named a → chk = true ∧ os.stat m.os a ≠ none := by
  induction rest with
  | nil =>
    intro m m' tmp named chk hpath _ a ha
    rw [List.append_nil] at hpath
    have hwhole := (prefix_of_dottedStart hslash ha.start).length_le
    have hle := ha.behind.length_le
    rw [hpath] at hle
    rw [List.length_append, List.length_singleton] at hwhole
    omega
  | cons c rest ih =>
    intro m m' tmp named chk hpath hrun a ha
    have hstep : (tmp ++ [c]) ++ rest = path.bytes := by rw [← hpath]; simp
    unfold advanceDirectories at hrun
    split at hrun
    · rename_i hname
      obtain ⟨made, m₁, hmade, hrun⟩ := bind_eq_ok.mp hrun
      cases made with
      | none => cases hrun
      | some chk' =>
        have hfree : (0 : UInt8) ∉ tmp := fun h => path.nulFree (by rw [← hpath]; simp [h])
        have hbehind := ih (tmp ++ [c]) false chk' hstep hrun a
        have hnext : a.bytes ≠ tmp → Ahead path (tmp ++ [c]) false a := fun hother => by
          have hnext := ha.next hpath hother
          rwa [decide_eq_false (not_not_intro hname.1)] at hnext
        rcases @makeDirectory_some ω φ os real _ _ F ⟨tmp, hfree⟩ _ _ hmade with
          ⟨rfl, rfl, hthere, rfl⟩ | ⟨rfl, hdots⟩
        · by_cases hself : a.bytes = tmp
          · rw [show a = ⟨tmp, hfree⟩ from CStr.ext hself]
            exact ⟨rfl, hthere⟩
          · exact hbehind (hnext hself)
        · by_cases hself : a.bytes = tmp
          · exact absurd (hself ▸ ha.start.1) hdots
          · cases (hbehind (hnext hself)).1
    · rename_i hname
      exact ih _ _ _ hstep hrun a (ha.next hpath fun hself => hname (ha.slash_next hpath hself))

/-- A directory that is there leads back from nothing that is missing. -/
theorem grounded_behind (F : FileSystem os real) {path : CStr}
    (hslash : path.bytes.getLast? = some slash) {base rest : List UInt8}
    (hsplit : base ++ rest = path.bytes) (hdir : os.stat w (CStr.ofBytes base) = some .directory)
    (hbehind : ∀ a, Ahead path base false a → os.stat w a ≠ none) :
    Grounded os.toFileOs w path := by
  have hfree : (0 : UInt8) ∉ base := fun h => path.nulFree (by rw [← hsplit]; simp [h])
  have hthere : os.stat w ⟨base, hfree⟩ ≠ none := by
    rw [show (⟨base, hfree⟩ : CStr) = CStr.ofBytes base from (CStr.ofBytes_bytes _).symm, hdir]
    exact Option.some_ne_none _
  intro a ha
  have hinner : a.bytes ++ [slash] <+: base → os.stat w a ≠ none := fun hbegins => by
    rw [F.onWay ha.1.ne_nil (q := ⟨base, hfree⟩) hbegins hthere]
    exact Option.some_ne_none _
  rcases List.prefix_or_prefix_of_prefix (prefix_of_dottedStart hslash ha) ⟨rest, hsplit⟩ with
    hbegins | hbegins
  · exact hinner hbegins
  · rcases List.prefix_concat_iff.mp hbegins with heq | hbegins
    · exact hinner (heq ▸ List.prefix_rfl)
    · by_cases hself : a.bytes = base
      · rw [show a = ⟨base, hfree⟩ from CStr.ext hself]
        exact hthere
      · exact hbehind a ⟨ha, hbegins, fun h => absurd h hself⟩

/-- **Directories are made** only where nothing is led back from that was missing. -/
theorem createDirectories_grounded (F : FileSystem os real) (hready : Ready m.fab) {length : Nat}
    {path : CStr} (hpath : slice m.fab.path 0 length = path.bytes)
    (hslash : path.bytes.getLast? = some slash)
    (h : createDirectories os m.fab.rootLength length m = .ok rednodeFactoryOk m') :
    Grounded os.toFileOs m.os path := by
  unfold createDirectories at h
  obtain ⟨exist, m₁, hexist, h⟩ := bind_eq_ok.mp h
  obtain rfl := wp_ok (rootExists_spec hready) hexist
  cases exist with
  | false => cases h
  | true =>
    rw [if_pos rfl, get_bind] at h
    obtain ⟨made, m₂, hmade, h⟩ := bind_eq_ok.mp h
    cases made with
    | false => cases h
    | true =>
      unfold makeDirectories at hmade
      cases hbase : directoriesBase m₁.fab.path m₁.fab.rootLength length with
      | none =>
        rw [hbase] at hmade
        cases hmade
      | some idx =>
        rw [hbase] at hmade
        dsimp only at hmade
        rw [get_bind] at hmade
        split at hmade
        · cases hmade
        · rename_i hdir
          have hsplit : slice m₁.fab.path 0 idx ++ slice m₁.fab.path idx length = path.bytes := by
            rw [slice_append (Nat.zero_le idx) (directoriesBase_le hbase), hpath]
          exact grounded_behind F hslash hsplit (not_not.mp hdir) fun a ha =>
            (advanceDirectories_grounded F path hslash _ _ _ _ hsplit hmade a ha).2

/-! ## The store of a file -/

/-- The path of the node is a string that ends in a slash. -/
structure Textual (fab : RednodeFactory) : Prop where
  nulFree : (0 : UInt8) ∉ slice fab.path 0 fab.nodeLength
  nodeEnd : (slice fab.path 0 fab.nodeLength).getLast? = some slash

theorem Textual.untouched {fab fab' : RednodeFactory} (h : Textual fab) (h' : Untouched fab fab') :
    Textual fab' :=
  ⟨by rw [h'.nodeLength, h'.bytes]; exact h.nulFree,
    by rw [h'.nodeLength, h'.bytes]; exact h.nodeEnd⟩

theorem Textual.bytes_place {fab : RednodeFactory} (h : Textual fab) (subpath : CStr) :
    (fab.place subpath).bytes = slice fab.path 0 fab.nodeLength ++ subpath.bytes := by
  have hfree : (0 : UInt8) ∉ slice fab.path 0 fab.nodeLength ++ subpath.bytes := fun hmem =>
    (List.mem_append.mp hmem).elim h.nulFree subpath.nulFree
  exact congrArg CStr.bytes (CStr.ofBytes_bytes ⟨_, hfree⟩)

theorem slice_over_eq (fab : RednodeFactory) (subpath : CStr) :
    slice (fab.over subpath).path 0 (subpath.bytes.length + fab.nodeLength) =
      slice fab.path 0 fab.nodeLength ++ subpath.bytes := by
  have hover : (fab.over subpath).path =
    writeAll fab.path fab.nodeLength (subpath.bytes ++ [0]) := rfl
  have hfront := @take_slice _ fab.nodeLength (fab.nodeLength + (subpath.bytes ++ [0]).length)
    (fab.over subpath).path subpath.bytes.length (by
      rw [List.length_append]
      omega)
  rw [hover, slice_writeAll, List.take_left] at hfront
  rw [Nat.add_comm, ← slice_append (Nat.zero_le fab.nodeLength) (Nat.le_add_right _ _), hover,
    ← hfront, slice_writeAll_of_le (Nat.le_refl _)]

/-- The directory of a file is cut behind the last slash of its path. -/
theorem slice_parentLength {path : Buffer UInt8} {rootLength length : Nat}
    (hle : rootLength ≤ length) :
    slice path 0 (parentLength path rootLength length) =
      slice path 0 rootLength ++ (slice path rootLength length).rdropWhile (· != slash) := by
  have hbegins := List.rdropWhile_prefix (· != slash) (slice path rootLength length)
  have hlen := hbegins.length_le
  rw [length_slice] at hlen
  rw [parentLength, Nat.min_eq_left hle,
    ← slice_append (Nat.zero_le rootLength) (Nat.le_add_right _ _)]
  refine congrArg (slice path 0 rootLength ++ ·) ?_
  rw [← take_slice path _ (show rootLength + _ ≤ length by omega)]
  exact (List.prefix_iff_eq_take.mp hbegins).symm

theorem getLast?_slice {path : Buffer UInt8} {length : Nat} (hpos : 0 < length) :
    (slice path 0 length).getLast? = some (path (length - 1)) := by
  obtain ⟨n, rfl⟩ := Nat.exists_eq_succ_of_ne_zero (Nat.ne_of_gt hpos)
  rw [slice_concat (Nat.zero_le n), List.getLast?_concat]
  rfl

theorem onTheWay_mono {path path' : CStr} (h : path.bytes <+: path'.bytes) :
    onTheWay path ⊆ onTheWay path' := fun _ hq => ⟨hq.1, hq.2.1, hq.2.2.trans h⟩

/-- The directories of a file that is due are those up to the last slash of its path. -/
theorem Due.parent (hready : Ready m.fab) (htext : Textual m.fab) {f : NodeFile ω}
    (h : Due os f m m') : ∃ (parent : CStr) (name : List UInt8) (length : Nat),
      (m.fab.place f.subpath).bytes = parent.bytes ++ name ∧ slash ∉ name ∧
      parent.bytes.getLast? = some slash ∧ Ready (m.fab.over f.subpath) ∧
      slice (m.fab.over f.subpath).path 0 length = parent.bytes ∧
      createDirectories os (m.fab.over f.subpath).rootLength length
        { m with fab := m.fab.over f.subpath } = .ok rednodeFactoryOk m' := by
  have hover : Ready (m.fab.over f.subpath) := hready.untouched (untouched_over _ _)
  have hle : m.fab.rootLength ≤ f.subpath.bytes.length + m.fab.nodeLength :=
    Nat.le_trans hready.root_le (Nat.le_add_left _ _)
  have hslice := @slice_parentLength (m.fab.over f.subpath).path _ _ hle
  have hrun := h.directories
  rw [createParentDirectories, get_bind] at hrun
  have hsplit : (m.fab.place f.subpath).bytes = slice (m.fab.over f.subpath).path 0
      (parentLength (m.fab.over f.subpath).path m.fab.rootLength
        (f.subpath.bytes.length + m.fab.nodeLength)) ++
      (slice (m.fab.over f.subpath).path m.fab.rootLength
        (f.subpath.bytes.length + m.fab.nodeLength)).rtakeWhile (· != slash) := by
    rw [htext.bytes_place, ← slice_over_eq, hslice, ← slice_append (Nat.zero_le _) hle,
      List.append_assoc, List.rdropWhile_append_rtakeWhile]
  have hfree : (0 : UInt8) ∉ slice (m.fab.over f.subpath).path 0
      (parentLength (m.fab.over f.subpath).path m.fab.rootLength
        (f.subpath.bytes.length + m.fab.nodeLength)) := fun hmem =>
    (m.fab.place f.subpath).nulFree (by rw [hsplit]; exact List.mem_append_left _ hmem)
  refine ⟨⟨_, hfree⟩, _, _, hsplit, fun hmem => ?_, ?_, hover, rfl, hrun⟩
  · simpa using List.mem_rtakeWhile_imp hmem
  · show (slice (m.fab.over f.subpath).path 0 _).getLast? = _
    rw [hslice]
    by_cases hnil : (slice (m.fab.over f.subpath).path m.fab.rootLength
        (f.subpath.bytes.length + m.fab.nodeLength)).rdropWhile (· != slash) = []
    · rw [hnil, List.append_nil, getLast?_slice hready.root_pos]
      exact congrArg some hover.rootEnd
    · rw [List.getLast?_append_of_ne_nil _ hnil, getLast?_rdropWhile_ne hnil]

/-- Directories are made on the way to a file that is due. -/
theorem Due.changes (F : FileSystem os real) (hready : Ready m.fab) (htext : Textual m.fab)
    {f : NodeFile ω} (h : Due os f m m') :
    Changes os.toFileOs real ∅ (onTheWay (m.fab.place f.subpath)) m.os m'.os := by
  obtain ⟨parent, name, length, hplace, -, hlast, hover, hslice, hrun⟩ := h.parent hready htext
  have hmade := wp_ok (createDirectories_changes F (m := { m with fab := m.fab.over f.subpath })
    hover hslice hlast) hrun
  exact hmade.mono subset_rfl (onTheWay_mono ⟨name, hplace.symm⟩)

/-- Where a file is due, its path leads back only from what was there. -/
theorem Due.grounded (F : FileSystem os real) (hready : Ready m.fab) (htext : Textual m.fab)
    {f : NodeFile ω} (h : Due os f m m') (hdots : ¬ EndsInDots (m.fab.place f.subpath).bytes) :
    Grounded os.toFileOs m.os (m.fab.place f.subpath) := by
  obtain ⟨parent, name, length, hplace, hname, hlast, hover, hslice, hrun⟩ := h.parent hready htext
  have hground := createDirectories_grounded F (m := { m with fab := m.fab.over f.subpath })
    hover hslice hlast hrun
  refine grounded_of_proper hdots fun a ha hbegins => hground a (mem_dottedStarts.mpr ⟨ha, .inr ?_⟩)
  rw [hplace] at hbegins
  rcases List.prefix_or_prefix_of_prefix hbegins (List.prefix_append _ _) with hinner | houter
  · exact hinner
  -- the slash behind the start would be in the name of the file
  rcases List.prefix_concat_iff.mp houter with heq | ⟨rest, hrest⟩
  · rw [heq]
  · rw [← hrest, List.append_assoc, List.prefix_append_right_inj] at hbegins
    exact absurd (hbegins.subset (by simp)) hname

/-! ## The creation of a node -/

/-- A template with other headers, of the given alias. -/
structure IsCopy (template : RedConfig) (nodeAlias : CStr) (config : RedConfig) : Prop where
  nodeAlias : config.headers.nodeAlias = nodeAlias
  rest : config = { template with headers := config.headers }

/-- The alias that the normal or the admin config of a node gets. -/
def aliasFor (nodeAlias : CStr) (admin : Bool) : CStr :=
  if admin then adminAliasPrefix.append nodeAlias else nodeAlias

theorem wp_malloc {Q : Bool → Machine ω → Prop} {E : Fault → Machine ω → Prop} :
    wp (malloc os) Q E m ↔ Q (os.malloc m.os).1 { m with os := (os.malloc m.os).2 } := Iff.rfl

theorem wp_getFreshUUID {Q : CStr → Machine ω → Prop} {E : Fault → Machine ω → Prop} :
    wp (getFreshUUID os) Q E m ↔
      Q (os.freshUUID m.os).1 { m with os := (os.freshUUID m.os).2 } := Iff.rfl

theorem makeConfigHeaders_ok (F : FileSystem os real) {config config' : RedConfig}
    {nodeAlias : CStr} {admin : Bool}
    (h : makeConfigHeaders os config nodeAlias admin m = .ok (.ok config') m') :
    IsCopy config (aliasFor nodeAlias admin) config' ∧
      see os.toFileOs m'.os = see os.toFileOs m.os ∧ m'.fab = m.fab := by
  have hwp : wp (makeConfigHeaders os config nodeAlias admin)
      (fun r m' => ∀ config', r = .ok config' →
        IsCopy config (aliasFor nodeAlias admin) config' ∧
          see os.toFileOs m'.os = see os.toFileOs m.os ∧ m'.fab = m.fab)
      (fun _ _ => True) m := by
    unfold makeConfigHeaders
    rw [wp_bind, wp_get]
    split
    · exact fun _ h => by cases h
    · refine wp_bind.mpr (wp_malloc.mpr ?_)
      rw [wp_ite]
      split
      · refine wp_bind.mpr (wp_getFreshUUID.mpr ?_)
        rw [wp_pure]
        intro config' heq
        cases heq
        exact ⟨⟨rfl, rfl⟩, (F.freshUUID _).trans (F.malloc _), rfl⟩
      · exact fun _ h => by cases h
  exact wp_ok hwp h config' rfl

theorem loadTemplateConfig_congr {w' : ω} (h : see os.toFileOs w' = see os.toFileOs w)
    (params : NodeParam) (admin : Bool) :
    loadTemplateConfig os w' params admin = loadTemplateConfig os w params admin := by
  have haccess : ∀ path, os.access w' path = os.access w path := fun path =>
    congrArg (fun seen : Seen => seen.kind.isSome) (congrFun h path)
  have hload : ∀ path, os.redLoadConfig w' path = os.redLoadConfig w path := fun path =>
    congrArg Seen.config (congrFun h path)
  simp only [loadTemplateConfig, templateFile, haccess, hload]

/-- The configs of a new node are copies of the templates, and no file is touched before the first
one is stored. -/
theorem prepareNode_ok (F : FileSystem os real) {params : NodeParam} {normal admin : RedConfig}
    (h : prepareNode os params false m = .ok (.ok (normal, admin)) m') :
    (∃ template, loadTemplateConfig os m.os params false = .ok template ∧
        IsCopy template (aliasFor params.nodeAlias false) normal) ∧
      (∃ template, loadTemplateConfig os m.os params true = .ok template ∧
        IsCopy template (aliasFor params.nodeAlias true) admin) ∧
      see os.toFileOs m'.os = see os.toFileOs m.os ∧ m'.fab = m.fab := by
  unfold prepareNode at h
  rw [get_bind] at h
  cases hnormal : loadTemplateConfig os m.os params false with
  | error e => rw [hnormal] at h; cases h
  | ok template =>
    rw [hnormal] at h
    obtain ⟨headed, m₁, hheaded, h⟩ := bind_eq_ok.mp h
    cases headed with
    | error e => cases h
    | ok config =>
      obtain ⟨hcopy, hsee, hfab⟩ := makeConfigHeaders_ok F hheaded
      simp only [get_bind] at h
      cases hadmin : loadTemplateConfig os m₁.os params true with
      | error e => rw [hadmin] at h; cases h
      | ok template' =>
        rw [hadmin] at h
        obtain ⟨headed', m₂, hheaded', h⟩ := bind_eq_ok.mp h
        cases headed' with
        | error e => cases h
        | ok config' =>
          obtain ⟨hcopy', hsee', hfab'⟩ := makeConfigHeaders_ok F hheaded'
          cases h
          rw [loadTemplateConfig_congr hsee] at hadmin
          exact ⟨⟨template, rfl, hcopy⟩, ⟨template', hadmin, hcopy'⟩, hsee'.trans hsee,
            hfab'.trans hfab⟩

/-- The files of a node, where the factory puts them. -/
def nodePlaces (os : FactoryOs ω) (fab : RednodeFactory) : Set CStr :=
  {p | p = fab.place (getNormalConfSubpath os) ∨ p = fab.place (getAdminConfSubpath os) ∨
    p = fab.place (getStatusSubpath os)}

/-- The directories on the way to them. -/
def nodeWays (os : FactoryOs ω) (fab : RednodeFactory) : Set CStr :=
  {q | ∃ p ∈ nodePlaces os fab, q ∈ onTheWay p}

theorem onTheWay_subset {fab : RednodeFactory} {p : CStr} (hp : p ∈ nodePlaces os fab) :
    onTheWay p ⊆ nodeWays os fab := fun _ hq => ⟨p, hp, hq⟩

theorem Stored.changes (F : FileSystem os real) (hready : Ready m.fab) (htext : Textual m.fab)
    {f : NodeFile ω} (hplace : m.fab.place f.subpath ∈ nodePlaces os m.fab)
    (hwrite : ∀ w', (f.write w' (m.fab.place f.subpath)).1 = .saved →
      SavedAt os.toFileOs real (m.fab.place f.subpath) w' (f.write w' (m.fab.place f.subpath)).2)
    (h : Stored os f m m') :
    Changes os.toFileOs real {m.fab.place f.subpath} (nodeWays os m.fab) m.os m'.os := by
  obtain ⟨m₁, hdue, hsaved, rfl⟩ := h
  have hmade := (hdue.changes F hready htext).mono
    (Set.empty_subset {m.fab.place f.subpath}) (onTheWay_subset hplace)
  exact hmade.trans ((hwrite m₁.os hsaved).changes.mono subset_rfl (Set.empty_subset _))

theorem Untouched.nodePlaces {fab fab' : RednodeFactory} (h : Untouched fab fab') :
    nodePlaces os fab' = nodePlaces os fab := by
  unfold Factory.nodePlaces
  rw [h.place, h.place, h.place]

theorem Untouched.nodeWays {fab fab' : RednodeFactory} (h : Untouched fab fab') :
    nodeWays os fab' = nodeWays os fab := by
  unfold Factory.nodeWays
  rw [h.nodePlaces]

/-- The configs of a node, where the factory puts them. -/
def configPlaces (os : FactoryOs ω) (fab : RednodeFactory) : Set CStr :=
  {p | p = fab.place (getNormalConfSubpath os) ∨ p = fab.place (getAdminConfSubpath os)}

theorem configPlaces_subset (fab : RednodeFactory) : configPlaces os fab ⊆ nodePlaces os fab :=
  fun _ hp => hp.imp_right .inl

/-- Until the status is stored, the configs alone are written. -/
theorem NodeStored.until_status (F : FileSystem os real) (hready : Ready m.fab)
    (htext : Textual m.fab) {c : NodeContent} {update : Bool} (h : NodeStored os c update m m') :
    ∃ m₂ redstatus, Untouched m.fab m₂.fab ∧ Changes os.toFileOs real (configPlaces os m.fab)
      (nodeWays os m.fab) m.os m₂.os ∧ Stored os (statusFile os redstatus) m₂ m' := by
  obtain ⟨m₁, m₂, hnormal, hadmin, hstatus⟩ := h
  have hfab₁ := (hnormal.frame hready).1
  have hready₁ := hready.untouched hfab₁
  have hfirst := hnormal.changes F hready htext (.inl rfl)
    fun w' hsaved => (F.redSaveConfig w' _ _ hsaved).1
  have hsecond := hadmin.changes F hready₁ (htext.untouched hfab₁) (.inr (.inl rfl))
    fun w' hsaved => (F.redSaveConfig w' _ _ hsaved).1
  rw [hfab₁.nodeWays, hfab₁.place] at hsecond
  refine ⟨m₂, _, hfab₁.trans (hadmin.frame hready₁).1, ?_, hstatus⟩
  exact (hfirst.mono (fun _ hp => .inl hp) subset_rfl).trans
    (hsecond.mono (fun _ hp => .inr hp) subset_rfl)

/-- The path of the node, with a slash at its end. -/
def nodeText (fab : RednodeFactory) : CStr := CStr.ofBytes (slice fab.path 0 fab.nodeLength)

theorem Textual.bytes_nodeText {fab : RednodeFactory} (h : Textual fab) :
    (nodeText fab).bytes = slice fab.path 0 fab.nodeLength :=
  congrArg CStr.bytes (CStr.ofBytes_bytes ⟨_, h.nulFree⟩)

/-- Before the first store, directories are made on the way to the node. -/
theorem Prepared.changes (F : FileSystem os real) (hready : Ready m.fab) (htext : Textual m.fab)
    {params : NodeParam} {c : NodeContent} (h : Prepared os params false c m m') :
    Changes os.toFileOs real ∅ (onTheWay (nodeText m.fab)) m.os m'.os ∧
      Grounded os.toFileOs m.os (nodeText m.fab) ∧ m'.fab = m.fab := by
  obtain ⟨m₁, hconfigs, hdirs⟩ := h.configs
  obtain ⟨-, -, hsee, hfab⟩ := prepareNode_ok F hconfigs
  have hready₁ : Ready m₁.fab := by rw [hfab]; exact hready
  have hpath : slice m₁.fab.path 0 m₁.fab.nodeLength = (nodeText m.fab).bytes := by
    rw [hfab, htext.bytes_nodeText]
  have hlast : (nodeText m.fab).bytes.getLast? = some slash := by
    rw [htext.bytes_nodeText]
    exact htext.nodeEnd
  have hmade := wp_ok (createDirectories_changes F hready₁ hpath hlast) hdirs
  have hground := createDirectories_grounded F hready₁ hpath hlast hdirs
  have hspec := wp_ok (createDirectories_spec (R := fun _ _ => True) storeKeeps_true.toOsKeeps
    hready₁ trivial _) hdirs
  refine ⟨(changes_of_see hsee).trans hmade, fun a ha => ?_, hspec.2.trans hfab⟩
  rw [show os.stat m.os a = os.stat m₁.os a from congrArg Seen.kind (congrFun hsee.symm a)]
  exact hground a ha

/-- The path of a node that is created leads back only from what was there. -/
theorem NodeCreated.grounded (F : FileSystem os real) (hready : Ready m.fab)
    (htext : Textual m.fab) {params : NodeParam} (h : NodeCreated os params false m m') :
    Grounded os.toFileOs m.os (nodeText m.fab) := by
  obtain ⟨c, m₁, hprepared, -⟩ := h
  exact (hprepared.changes F hready htext).2.1

theorem NodeCreated.until_status (F : FileSystem os real) (hready : Ready m.fab)
    (htext : Textual m.fab) {params : NodeParam} (h : NodeCreated os params false m m') :
    ∃ m₂ redstatus, Untouched m.fab m₂.fab ∧ Changes os.toFileOs real (configPlaces os m.fab)
      (nodeWays os m.fab) m.os m₂.os ∧ Stored os (statusFile os redstatus) m₂ m' := by
  obtain ⟨c, m₁, hprepared, hstored⟩ := h
  obtain ⟨hmade, -, hfab⟩ := hprepared.changes F hready htext
  have hbegins : (nodeText m.fab).bytes <+: (m.fab.place (getNormalConfSubpath os)).bytes := by
    rw [htext.bytes_place, htext.bytes_nodeText]
    exact List.prefix_append _ _
  have hlast := hstored.until_status F (by rw [hfab]; exact hready) (by rw [hfab]; exact htext)
  rw [hfab] at hlast
  obtain ⟨m₂, redstatus, huntouched, hchanges, hstatus⟩ := hlast
  refine ⟨m₂, redstatus, huntouched, (hmade.mono (Set.empty_subset _) ?_).trans hchanges, hstatus⟩
  exact (onTheWay_mono hbegins).trans (onTheWay_subset (.inl rfl))

/-- **The footprint of a node**: its files, and the directories on the way to them. -/
theorem NodeCreated.changes (F : FileSystem os real) (hready : Ready m.fab)
    (htext : Textual m.fab) {params : NodeParam} (h : NodeCreated os params false m m') :
    Changes os.toFileOs real (nodePlaces os m.fab) (nodeWays os m.fab) m.os m'.os := by
  obtain ⟨m₂, redstatus, huntouched, hchanges, hstatus⟩ := h.until_status F hready htext
  have hlast := hstatus.changes F (hready.untouched huntouched) (htext.untouched huntouched)
    (.inr (.inr rfl)) fun w' hsaved => (F.redSaveStatus w' _ _ hsaved).1
  rw [huntouched.nodeWays, huntouched.place] at hlast
  exact (hchanges.mono (configPlaces_subset _) subset_rfl).trans
    (hlast.mono (fun _ hp => .inr (.inr hp)) subset_rfl)

/-! ## What the files hold -/

/-- The status is a file of its own. -/
structure OwnStatus (os : FactoryOs ω) (real : CStr → φ) (fab : RednodeFactory) : Prop where
  normal : real (fab.place (getStatusSubpath os)) ≠ real (fab.place (getNormalConfSubpath os))
  admin : real (fab.place (getStatusSubpath os)) ≠ real (fab.place (getAdminConfSubpath os))

/-- The files of a node are there, with these configs. -/
structure NodeFiles (os : FactoryOs ω) (fab : RednodeFactory) (normal admin : RedConfig)
    (w : ω) : Prop where
  regular : ∀ p ∈ nodePlaces os fab, NamesFile p ∧ os.stat w p = some .regular
  status : ∃ redstatus, os.redLoadStatus w (fab.place (getStatusSubpath os)) = some redstatus
  normal : os.redLoadConfig w (fab.place (getNormalConfSubpath os)) = some normal
  admin : os.redLoadConfig w (fab.place (getAdminConfSubpath os)) = some admin

theorem Stored.kept (F : FileSystem os real) (hready : Ready m.fab) (htext : Textual m.fab)
    {f : NodeFile ω} (hwrite : ∀ w', (f.write w' (m.fab.place f.subpath)).1 = .saved →
      SavedAt os.toFileOs real (m.fab.place f.subpath) w' (f.write w' (m.fab.place f.subpath)).2)
    (h : Stored os f m m') {q : CStr} (hq : NamesFile q)
    (hne : real q ≠ real (m.fab.place f.subpath)) (hthere : os.stat m.os q ≠ none) :
    see os.toFileOs m'.os q = see os.toFileOs m.os q := by
  obtain ⟨m₁, hdue, hsaved, rfl⟩ := h
  have hmade := (hdue.changes F hready htext).kept hq (fun _ hp => hp.elim) hthere
  have hthere₁ := (hdue.changes F hready htext).stays q hthere
  have hapart : ∀ p ∈ ({m.fab.place f.subpath} : Set CStr), real q ≠ real p := by
    rintro p rfl
    exact hne
  exact ((hwrite m₁.os hsaved).changes.kept hq hapart hthere₁).trans hmade

/-- What a config is stored as is there, under a file name that was free. -/
theorem Stored.config (F : FileSystem os real) (hready : Ready m.fab) (htext : Textual m.fab)
    {subpath : CStr} {config : RedConfig}
    (h : Stored os (configFile os subpath config false) m m') :
    NamesFile (m.fab.place subpath) ∧ os.stat m'.os (m.fab.place subpath) = some .regular ∧
      os.redLoadConfig m'.os (m.fab.place subpath) = some config ∧
      ∃ m₁, Due os (configFile os subpath config false) m m₁ ∧
        os.stat m₁.os (m.fab.place subpath) = none ∧
        Grounded os.toFileOs m₁.os (m.fab.place subpath) := by
  obtain ⟨m₁, hdue, hsaved, rfl⟩ := h
  obtain ⟨hat, hload⟩ := F.redSaveConfig m₁.os _ config hsaved
  have hallowed := hdue.allowed
  have hfree : os.stat m₁.os (m.fab.place subpath) = none := by
    simpa [configFile, FileOs.access] using hallowed
  have hregular := hat.kind.trans (congrArg (fun kind => some (kind.getD FileKind.regular)) hfree)
  exact ⟨hat.file, hregular, hload hregular, m₁, hdue, hfree,
    (hdue.grounded F hready htext (hat.not_dots F)).stays (hdue.changes F hready htext).stays⟩

theorem Stored.status (F : FileSystem os real) {redstatus : RedStatus}
    (h : Stored os (statusFile os redstatus) m m') :
    NamesFile (m.fab.place (getStatusSubpath os)) ∧
      os.stat m'.os (m.fab.place (getStatusSubpath os)) ≠ none ∧
      (os.stat m'.os (m.fab.place (getStatusSubpath os)) = some .regular →
        os.redLoadStatus m'.os (m.fab.place (getStatusSubpath os)) = some redstatus) := by
  obtain ⟨m₁, hdue, hsaved, rfl⟩ := h
  obtain ⟨hat, hload⟩ := F.redSaveStatus m₁.os _ redstatus hsaved
  exact ⟨hat.file, fun hnone => Option.some_ne_none _ (hat.kind.symm.trans hnone), hload⟩

/-- The status that was there is written over, and is of the kind that it was. `q` is another path
of it. -/
theorem Stored.status_kind (F : FileSystem os real) (hready : Ready m.fab) (htext : Textual m.fab)
    {redstatus : RedStatus} (h : Stored os (statusFile os redstatus) m m')
    {written made : Set CStr} (hchanges : Changes os.toFileOs real written made w m.os) {q : CStr}
    (hq : NamesFile q) (hground : Grounded os.toFileOs w q)
    (hwritten : ∀ p ∈ written, real q ≠ real p)
    (hleads : real q = real (m.fab.place (getStatusSubpath os))) :
    os.stat m'.os (m.fab.place (getStatusSubpath os)) = some ((os.stat w q).getD .regular) ∧
      os.stat w q ≠ some .directory := by
  obtain ⟨m₁, hdue, hsaved, rfl⟩ := h
  have hat := (F.redSaveStatus m₁.os _ redstatus hsaved).1
  have hmade := hdue.changes F hready htext
  have hplace := (hdue.grounded F hready htext (hat.not_dots F)).stays hmade.stays
  have hwhole := (hchanges.mono subset_rfl (Set.subset_union_left (t := onTheWay _))).trans
    (hmade.mono (Set.empty_subset _) Set.subset_union_right)
  have hsame := congrArg Seen.kind (F.same hq hat.file (.inr (hground.stays hwhole.stays))
    (.inr hplace) hleads)
  have hkind : os.stat m₁.os (m.fab.place (getStatusSubpath os)) = os.stat m₁.os q := hsame.symm
  rcases hwhole.cases hq (.inr hground) hwritten with hsee | ⟨⟨-, hdir⟩, -⟩
  · rw [show os.stat w q = os.stat m₁.os q from (congrArg Seen.kind hsee).symm, ← hkind]
    exact ⟨hat.kind, hat.before⟩
  · exact absurd (hkind.trans hdir) hat.before

theorem NodeCreated.namesFile_status (F : FileSystem os real) (hready : Ready m.fab)
    (htext : Textual m.fab) {params : NodeParam} (h : NodeCreated os params false m m') :
    NamesFile (m.fab.place (getStatusSubpath os)) := by
  obtain ⟨m₂, redstatus, huntouched, -, hstatus⟩ := h.until_status F hready htext
  rw [← huntouched.place]
  exact (hstatus.status F).1

/-- The status of a new node is seen under another path `q` of it. -/
theorem NodeCreated.stat_status (F : FileSystem os real) (hready : Ready m.fab)
    (htext : Textual m.fab) {params : NodeParam} (h : NodeCreated os params false m m') {q : CStr}
    (hq : NamesFile q) (hstarts : dottedStarts q ⊆ dottedStarts (nodeText m.fab))
    (hleads : real q = real (m.fab.place (getStatusSubpath os))) :
    os.stat m'.os q = os.stat m'.os (m.fab.place (getStatusSubpath os)) := by
  obtain ⟨m₂, redstatus, huntouched, -, hstatus⟩ := h.until_status F hready htext
  obtain ⟨hplace, hthere, -⟩ := hstatus.status F
  rw [huntouched.place] at hplace hthere
  have hground := ((h.grounded F hready htext).mono hstarts).stays (h.changes F hready htext).stays
  exact congrArg Seen.kind (F.same hq hplace (.inr hground) (.inl hthere) hleads)

/-- The status of a new node is a regular file, unless it is written to something else that was
there. `q` is another path of it. -/
theorem NodeCreated.regular_iff (F : FileSystem os real) (hready : Ready m.fab)
    (htext : Textual m.fab) (hown : OwnStatus os real m.fab) {params : NodeParam}
    (h : NodeCreated os params false m m') {q : CStr} (hq : NamesFile q)
    (hstarts : dottedStarts q ⊆ dottedStarts (nodeText m.fab))
    (hleads : real q = real (m.fab.place (getStatusSubpath os))) :
    os.stat m'.os (m.fab.place (getStatusSubpath os)) = some .regular ↔
      os.stat m.os q ≠ some .other := by
  obtain ⟨m₂, redstatus, huntouched, hchanges, hstatus⟩ := h.until_status F hready htext
  have hkind := hstatus.status_kind F (hready.untouched huntouched) (htext.untouched huntouched)
    hchanges hq ((h.grounded F hready htext).mono hstarts)
  rw [huntouched.place] at hkind
  obtain ⟨hkind, hbefore⟩ := hkind (by
    rintro p (rfl | rfl)
    · rw [hleads]
      exact hown.normal
    · rw [hleads]
      exact hown.admin) hleads
  rw [hkind]
  cases hstat : os.stat m.os q with
  | none => exact iff_of_true rfl nofun
  | some kind =>
    cases kind with
    | regular => exact iff_of_true rfl (by decide)
    | other => exact iff_of_false (by decide) (not_not_intro rfl)
    | directory => exact absurd hstat hbefore

theorem NodeStored.files (F : FileSystem os real) (hready : Ready m.fab) (htext : Textual m.fab)
    (hown : OwnStatus os real m.fab) {c : NodeContent} (h : NodeStored os c false m m')
    (hregularS : os.stat m'.os (m.fab.place (getStatusSubpath os)) = some .regular) :
    NodeFiles os m.fab c.normal c.admin m'.os := by
  obtain ⟨m₁, m₂, hnormal, hadmin, hstatus⟩ := h
  have hfab₁ := (hnormal.frame hready).1
  have hready₁ := hready.untouched hfab₁
  have htext₁ := htext.untouched hfab₁
  have hfab₂ := hfab₁.trans (hadmin.frame hready₁).1
  obtain ⟨hfileN, hregularN, hloadN, -⟩ := hnormal.config F hready htext
  have hkeptN : ∀ {q : CStr}, NamesFile q →
      real q ≠ real (m₁.fab.place (getAdminConfSubpath os)) → os.stat m₁.os q ≠ none →
      see os.toFileOs m₂.os q = see os.toFileOs m₁.os q :=
    hadmin.kept F hready₁ htext₁ fun w' hsaved => (F.redSaveConfig w' _ _ hsaved).1
  have hkeptS : ∀ {q : CStr}, NamesFile q → real q ≠ real (m₂.fab.place
      (statusFile os (nodeStatus m.fab c.timestamp c.today)).subpath) → os.stat m₂.os q ≠ none →
      see os.toFileOs m'.os q = see os.toFileOs m₂.os q :=
    hstatus.kept F (hready.untouched hfab₂) (htext.untouched hfab₂)
      fun w' hsaved => (F.redSaveStatus w' _ _ hsaved).1
  obtain ⟨hfileA, hregularA, hloadA, m₃, hdue, hfree, hground⟩ := hadmin.config F hready₁ htext₁
  rw [hfab₁.place] at hfileA hregularA hloadA hfree hkeptN hground
  -- the normal config is there when the place of the admin config is found free
  have hne : real (m.fab.place (getNormalConfSubpath os)) ≠
      real (m.fab.place (getAdminConfSubpath os)) := by
    intro heq
    have hthereN : os.stat m₁.os (m.fab.place (getNormalConfSubpath os)) ≠ none := by
      rw [hregularN]
      exact Option.some_ne_none _
    have hmade := hdue.changes F hready₁ htext₁
    have hsame := hmade.kept hfileN (fun _ hp => hp.elim) hthereN
    have hthere := congrArg Seen.kind ((F.same hfileA hfileN (.inr hground)
      (.inl (hmade.stays _ hthereN)) heq.symm).trans hsame)
    rw [show (see os.toFileOs m₃.os _).kind = none from hfree] at hthere
    exact Option.some_ne_none _ (hregularN.symm.trans hthere.symm)
  have hnormal₂ := hkeptN hfileN hne (by rw [hregularN]; exact Option.some_ne_none _)
  obtain ⟨hfileS, -, hloadS⟩ := hstatus.status F
  rw [show (statusFile os (nodeStatus m.fab c.timestamp c.today)).subpath = getStatusSubpath os
    from rfl, hfab₂.place] at hkeptS
  rw [hfab₂.place] at hfileS hloadS
  have hregularN₂ : os.stat m₂.os (m.fab.place (getNormalConfSubpath os)) = some .regular :=
    (congrArg Seen.kind hnormal₂).trans hregularN
  have hnormal₃ := (hkeptS hfileN hown.normal.symm (by
    rw [hregularN₂]; exact Option.some_ne_none _)).trans hnormal₂
  have hadmin₃ := hkeptS hfileA hown.admin.symm (by rw [hregularA]; exact Option.some_ne_none _)
  refine ⟨?_, ⟨_, hloadS hregularS⟩, (congrArg Seen.config hnormal₃).trans hloadN,
    (congrArg Seen.config hadmin₃).trans hloadA⟩
  rintro p (rfl | rfl | rfl)
  · exact ⟨hfileN, (congrArg Seen.kind hnormal₃).trans hregularN⟩
  · exact ⟨hfileA, (congrArg Seen.kind hadmin₃).trans hregularA⟩
  · exact ⟨hfileS, hregularS⟩

/-- A config of a new node: a copy of the template that is found at the start. -/
def Copied (os : FactoryOs ω) (w : ω) (params : NodeParam) (admin : Bool)
    (config : RedConfig) : Prop :=
  ∃ template, loadTemplateConfig os w params admin = .ok template ∧
    IsCopy template (aliasFor params.nodeAlias admin) config

/-- **The files of a new node** hold copies of the templates. -/
theorem NodeCreated.files (F : FileSystem os real) (hready : Ready m.fab) (htext : Textual m.fab)
    (hown : OwnStatus os real m.fab) {params : NodeParam}
    (h : NodeCreated os params false m m')
    (hregular : os.stat m'.os (m.fab.place (getStatusSubpath os)) = some .regular) :
    isValidAlias params.nodeAlias = true ∧ ∃ normal admin,
      Copied os m.os params false normal ∧ Copied os m.os params true admin ∧
        NodeFiles os m.fab normal admin m'.os := by
  obtain ⟨c, m₁, hprepared, hstored⟩ := h
  obtain ⟨m₂, hconfigs, -⟩ := hprepared.configs
  obtain ⟨hnormal, hadmin, -, -⟩ := prepareNode_ok F hconfigs
  have hfab := (hprepared.changes F hready htext).2.2
  have hfiles := hstored.files F (by rw [hfab]; exact hready) (by rw [hfab]; exact htext)
    (by rw [hfab]; exact hown) (by rw [hfab]; exact hregular)
  rw [hfab] at hfiles
  exact ⟨hprepared.validAlias, c.normal, c.admin, hnormal, hadmin, hfiles⟩

end

end Factory
end RedPak
