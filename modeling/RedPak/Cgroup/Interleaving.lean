import RedPak.Cgroup.Enabled
import RedPak.Cgroup.NoInternal
import RedPak.Cgroup.Threads

/-!
# Cgroup.Interleaving

Any number of processes that run `set_cgroups` side by side in one tree, with any call of one
between two calls of another. Nothing is locked; what is made stays, and what is enabled stays
enabled, so that a process may rely on what it has found.

* `Calls.Gives`: what a process comes to, whatever the others do meanwhile.
* `interleaved_internal`: processes live in leaves.
* `interleaved_ready`: controllers are enabled before they are used.
-/

namespace RedPak
namespace Cgroup

open Conf Layered Layered.Action

variable {k : Kernel} {p : Process} {t t₀ : Tree} {w w' : World} {n : RedNode} {d e : Dir}
  {path : CStr}

/-! ## What every call keeps -/

/-- A setting is written to a cgroup in which its controller is available. -/
def Kernel.Ready (k : Kernel) (t : Tree) : Call → Prop
  | .write d (.setting c _) _ => k.available t d c = true
  | _ => True

structure Kernel.Sound (k : Kernel) (w : World) : Prop where
  internal : k.Internal w
  ready : ∀ x ∈ w.calls, k.Ready x.1 x.2

def World.Grows (w w' : World) : Prop := w.tree.Grows w'.tree

instance : Rely World.Grows where
  refl w := .refl w.tree
  trans h h' := Tree.Grows.trans h h'

theorem Call.NoSetting.ready {c : Call} (h : c.NoSetting) (t : Tree) : k.Ready t c := by
  cases c with
  | write d entry value =>
    cases entry with
    | setting c file => exact absurd rfl (h d c file value)
    | _ => trivial
  | _ => trivial

theorem Kernel.Sound.call {c : Call} (hw : k.Sound w) (hproper : k.Proper c)
    (hready : k.Ready w.tree c) (he : k.Effect w.tree c t) : k.Sound ⟨t, (w.tree, c) :: w.calls⟩ :=
  ⟨stable_internal k w c t hproper hw.internal he, List.forall_mem_cons.mpr ⟨hready, hw.ready⟩⟩

theorem stable_sound (k : Kernel) (t : Tree) :
    k.Stable (fun c => k.Proper c ∧ c.NoSetting) fun w => k.Sound w ∧ t.Grows w.tree :=
  fun _ _ _ hc hw he => ⟨hw.1.call hc.1 (hc.2.ready _) he, hw.2.trans he.grows⟩

/-! ## One process -/

namespace Calls

variable {α β : Type} {x : Calls α} {Q Q' : α → World → Prop} {mask : Ctrlmask} {state : CgroupT}

/-- What the process comes to from here on, whatever the others do meanwhile. -/
def Gives (k : Kernel) (x : Calls α) (w : World) (Q : α → World → Prop) : Prop :=
  Thread.Gives k.Sound World.Grows x w Q

theorem Gives.mono (h : Gives k x w Q) (hQ : ∀ a v, k.Sound v → Q a v → Q' a v) :
    Gives k x w Q' := Thread.Gives.mono h hQ

theorem Gives.since (h : Gives k x w Q) : Gives k x w fun a v => w.Grows v ∧ Q a v :=
  Thread.Gives.since h

theorem Gives.bind {f : α → Calls β} {Q' : β → World → Prop} (hw : k.Sound w)
    (h : Gives k x w Q)
    (hf : ∀ a v, k.Sound v → w.Grows v → Q a v → Gives k (f a) v Q') :
    Gives k (x >>= f) w Q' := Thread.Gives.bind hw h hf

theorem gives_pure {a : α} (h : ∀ v, k.Sound v → w.Grows v → Q a v) :
    Gives k (pure a : Calls α) w Q := h

theorem gives_stop {stop : Stop} : Gives k (.stop stop : Calls α) w Q := Thread.gives_stop

theorem gives_ite {c : Prop} [Decidable c] {y : Calls α} (hx : c → Gives k x w Q)
    (hy : ¬ c → Gives k y w Q) : Gives k (if c then x else y) w Q := Thread.gives_ite hx hy

theorem gives_look {f : Tree → α} (h : ∀ t v, k.Sound t → w.Grows t → k.Sound v → t.Grows v →
    Q (f t.tree) v) :
    Gives k (.once do let w ← get; pure (f w.tree)) w Q := Thread.gives_look h

theorem gives_once {x : Sys α}
    (hkeeps : ∀ t : Tree, Keeps (fun u => k.Sound u ∧ t.Grows u.tree) x)
    (h : ∀ t, k.Sound t → w.Grows t →
      wp x (fun a u => ∀ v, k.Sound v → u.Grows v → Q a v) (fun _ _ => True) t) :
    Gives k (.once x) w Q := by
  intro t ht hr
  refine wp_mono (wp_and (hkeeps t.tree t ⟨ht, .refl _⟩) (h t ht hr)) ?_ ?_
  · rintro a u ⟨⟨hu, hgrows⟩, hq⟩
    exact ⟨hu, hgrows, hq⟩
  · rintro stop u ⟨⟨hu, hgrows⟩, _⟩
    exact ⟨hu, hgrows, fun _ _ _ => trivial⟩

theorem gives_keeps {x : Sys α}
    (hkeeps : ∀ t : Tree, Keeps (fun u => k.Sound u ∧ t.Grows u.tree) x) :
    Gives k (.once x) w fun _ _ => True :=
  gives_once hkeeps fun _ _ _ => wp_of_ok fun _ _ _ _ _ _ => trivial

theorem gives_check {rc : Int} {Q : Unit → World → Prop}
    (h : 0 ≤ rc → ∀ v, k.Sound v → w.Grows v → Q () v) : Gives k (check rc) w Q :=
  gives_ite (fun _ => gives_stop) fun hrc => gives_pure (h (by omega))

/-! ### Directories -/

/-- Directories are made in cgroups that are in no leaf. -/
def Made (k : Kernel) (d : Dir) (path : CStr) : Prop :=
  ∀ t parent n, k.Leads t d path parent n → k.Free parent

theorem made_pidsLeaf (h : k.Free d) : Made k d pidsLeaf := fun _ _ _ hl => by
  rwa [(leads_name pidsLeaf_bytes hl).1]

theorem made_field (h : k.Free d) (hfield : IsField slash path.bytes) : Made k d path :=
  fun _ _ _ hl => by rwa [leads_field hfield hl]

theorem gives_mkdirat (h : Made k d path) : Gives k (mkdirat k d path) w fun _ _ => True :=
  gives_keeps fun t => keeps_mkdirat (stable_sound k t) fun u parent n _ hl =>
    ⟨h u.tree parent n hl, Call.noSetting_mkdirat parent n⟩

theorem gives_openat : Gives k (openat k d path) w
    fun found v => ∀ e, found = some e → k.openat v.tree d path = some e :=
  gives_look (f := fun t => k.openat t d path) fun _ _ _ _ _ hv _ he => openat_grows hv he

theorem gives_openExistingAtDir (hw : k.Sound w) : Gives k (openExistingAtDir k d path) w
    fun e v => k.openat v.tree d path = some e := by
  refine Gives.bind hw gives_openat ?_
  intro found v _ _ hfound
  cases found with
  | none => exact gives_stop
  | some e => exact gives_pure fun u _ hu => openat_grows hu (hfound e rfl)

theorem gives_openCgroupAtDir (hw : k.Sound w) (h : Made k d path) :
    Gives k (openCgroupAtDir k d path) w fun r v => k.openat v.tree d path = some r.1 := by
  refine Gives.bind hw gives_openat ?_
  intro found v hv _ hfound
  cases found with
  | some e => exact gives_pure fun u _ hu => openat_grows hu (hfound e rfl)
  | none =>
    refine Gives.bind hv (gives_mkdirat h) fun _ v₁ hv₁ _ _ => ?_
    refine Gives.bind hv₁ (gives_openExistingAtDir hv₁) fun e v₂ _ _ he => ?_
    exact gives_pure fun u _ hu => openat_grows hu he

theorem openat_pidsLeaf (h : k.openat t d pidsLeaf = some e) :
    e = pidsLeafName :: d ∧ t.dirs (pidsLeafName :: d) = true := by
  rw [openat_name pidsLeaf_bytes] at h
  split at h
  · rename_i hdirs
    exact ⟨(Option.some.inj h).symm, hdirs.2.1⟩
  · cases h

/-! ### Processes -/

theorem gives_writeProcs (h : k.Free d) (v : CStr) :
    Gives k (writeEntry k (pidsLeafName :: d) .procs (some v)) w fun _ _ => True :=
  gives_keeps fun t => keeps_writeEntry (stable_sound k t) fun v' _ =>
    ⟨proper_pidsLeaf h v', Call.noSetting_procs _ v'⟩

theorem gives_scanPids (hw : k.Sound w) (h : k.Free d) (count : Nat) (buffer : Buffer UInt8)
    (pidpos rpos : Nat) :
    Gives k (scanPids k (pidsLeafName :: d) count buffer pidpos rpos) w fun _ _ => True := by
  fun_induction scanPids k (pidsLeafName :: d) count buffer pidpos rpos generalizing w with
  | case1 buffer pidpos rpos hlt hnl buffer' =>
    rename_i ih
    refine Gives.bind hw (gives_writeProcs h _) fun rc v hv _ _ => ?_
    exact gives_ite (fun _ => gives_stop) fun _ => ih hv
  | case2 buffer pidpos rpos hlt hnl ih => exact ih hw
  | case3 buffer pidpos rpos hge => exact gives_pure fun _ _ _ => trivial

theorem gives_readPids (hw : k.Sound w) (h : k.Free d) (text : List UInt8) (buffer : Buffer UInt8)
    (rpos : Nat) :
    Gives k (readPids k e (pidsLeafName :: d) text buffer rpos) w fun _ _ => True := by
  induction hlen : text.length using Nat.strong_induction_on
    generalizing text buffer rpos w with
  | _ m ih =>
    subst hlen
    rw [readPids]
    have hread : Gives k (readProcs k e) w fun _ _ => True :=
      gives_keeps fun t => (keeps_call (c := .read e .procs) (stable_sound k t)
        ⟨trivial, Call.noSetting_read e .procs⟩).bind fun _ => keeps_get.bind fun _ => keeps_pure _
    refine Gives.bind hw hread fun answer v hv _ _ => ?_
    obtain ⟨granted, size⟩ := answer
    refine gives_ite (fun _ => gives_stop) fun _ => ?_
    dsimp only
    split
    · exact gives_pure fun _ _ _ => trivial
    · rename_i hchunk
      refine Gives.bind hv (gives_scanPids hv h _ _ _ _) fun scanned u hu _ _ => ?_
      exact ih _ (length_drop_chunk hchunk) hu _ _ _ rfl

theorem gives_moveProcs (hw : k.Sound w) (h : k.Free d) :
    Gives k (moveProcs k p e (pidsLeafName :: d)) w fun _ _ => True :=
  Gives.bind hw (gives_keeps fun t => keeps_readEntry (stable_sound k t)
    ⟨trivial, Call.noSetting_read e .procs⟩) fun _ _ hv _ _ => gives_readPids hv h _ _ _

/-! ### Controllers -/

/-- The controllers of the mask are enabled in the cgroup. -/
def Enabled (k : Kernel) (d : Dir) (mask : Ctrlmask) (t : Tree) : Prop :=
  ∀ c, mask.has c = true → k.IsCgroup d ∧ t.subtreeControl d c = true

theorem Enabled.grows {t' : Tree} (h : Enabled k d mask t) (hd : t.dirs d = true)
    (hgrows : t.Grows t') : Enabled k d mask t' := fun c hc =>
  ⟨(h c hc).1, hgrows.subtreeControl d c hd (h c hc).2⟩

/-- **Enabling** succeeds with the write that enables all of the mask, whoever has enabled what was
missing above. -/
theorem gives_addRequired (h : k.Free d) (hd : w.tree.dirs d = true) :
    Gives k (addRequiredSubcontrollers k d mask) w fun rc v =>
      0 ≤ rc → Enabled k d mask v.tree := by
  by_cases hknown : mask.Known
  · unfold addRequiredSubcontrollers
    have hspec := fun t : World => @addRequiredSubcontrollers_spec k d t mask
      (fun rc u => ∀ v, k.Sound v → u.Grows v → 0 ≤ rc → u.tree.dirs d = true →
        Enabled k d mask v.tree) (fun _ _ => True) hknown
      (fun hzero v _ _ _ _ c hc => by rw [hzero c] at hc; cases hc)
      (fun value cs hcg hcs _ v _ hgrows _ hdirs c hc =>
        ⟨hcg, hgrows.subtreeControl d c hdirs (by simp [Tree.enable, (hcs c).mpr hc])⟩)
      (fun value v _ _ hrc => absurd hrc (by decide))
    simp only [Cgroup.addRequiredSubcontrollers] at hspec
    cases hsub : subcontrollers 0 mask [] ctrlnames with
    | none => exact gives_stop
    | some buffer =>
      simp only [hsub, wp_ite] at hspec
      refine gives_ite (fun hnil => ?_) fun hne => ?_
      · refine gives_pure fun v hv hr _ => ?_
        have hw := hspec v
        rw [if_pos hnil] at hw
        exact hw v hv (.refl _) (by decide) (hr.dirs d hd)
      · refine gives_once (fun t => keeps_writeEntry (stable_sound k t) fun v _ =>
          ⟨h, Call.noSetting_subtreeControl d v⟩) fun t ht hr => ?_
        have hdirs : t.tree.dirs d = true := hr.dirs d hd
        have hw := hspec t
        rw [if_neg hne] at hw
        refine wp_mono (wp_and (keeps_writeEntry (stable_grows k t.tree) (fun _ _ => trivial) t
          (.refl _)) hw) ?_ (fun _ _ _ => trivial)
        rintro rc u ⟨hgrows, hu⟩ v hv hr' hrc
        exact hu v hv hr' hrc (hgrows.dirs d hdirs)
  · unfold addRequiredSubcontrollers
    rw [subcontrollers_eq_none hknown]
    exact gives_stop

theorem gives_ensure (hw : k.Sound w) (h : k.Free d) (hd : w.tree.dirs d = true) :
    Gives k (ensureRequiredControllers k d mask) w fun _ v => Enabled k d mask v.tree := by
  have hstep : ∀ (e : Dir) (mask : Ctrlmask) (parent : Option (Ctrlmask → Calls Unit)) (w : World),
      k.Free e → k.Sound w → w.tree.dirs e = true →
      (∀ f m v, parent = some f → k.Sound v → w.Grows v → Gives k (f m) v fun _ _ => True) →
      Gives k (ensureWith k parent e mask) w fun _ v => Enabled k e mask v.tree := by
    intro e mask parent w hfree hw he hparent
    have hread : Gives k (getEffectiveControllers k e) w fun _ _ => True :=
      Gives.bind hw (gives_keeps fun t => keeps_readEntry (stable_sound k t)
        ⟨trivial, Call.noSetting_read e .controllers⟩) fun _ _ _ _ _ =>
          gives_pure fun _ _ _ => trivial
    refine Gives.bind hw hread fun current v hv hgrows _ => ?_
    have hmissing : Gives k (ensureMissing parent (mask &&& ~~~current)) v fun _ _ => True := by
      refine gives_ite (fun _ => gives_pure fun _ _ _ => trivial) fun _ => ?_
      cases parent with
      | none => exact gives_stop
      | some f => exact hparent f _ v rfl hv hgrows
    refine Gives.bind hv hmissing fun _ v₁ hv₁ hgrows₁ _ => ?_
    have he₁ : v₁.tree.dirs e = true := hgrows₁.dirs e (hgrows.dirs e he)
    refine Gives.bind hv₁ (gives_addRequired hfree he₁) fun rc v₂ hv₂ hgrows₂ hrc => ?_
    exact gives_check fun hok u _ hu => (hrc hok).grows (hgrows₂.dirs e he₁) hu
  induction d generalizing mask w with
  | nil =>
    refine hstep [] mask _ w h hw hd fun f m v hf _ _ => ?_
    cases hf
    exact gives_stop
  | cons m d ih =>
    refine hstep (m :: d) mask _ w h hw hd fun f mask' v hf hv hgrows => ?_
    split at hf
    · cases hf
    cases hf
    have hd' : v.tree.dirs d = true := hgrows.dirs d (w.tree.closed m d hd)
    exact (ih hv (h.suffix (List.suffix_cons m d)) hd').mono fun _ _ _ _ => trivial

/-! ### Settings -/

/-- The controllers that the settings of a node need are available in its cgroup. -/
theorem available_of_enabled {m : Name} (h : Enabled k d mask t) {c : Ctrlid}
    (hc : mask.has c = true) : k.available t (m :: d) c = true := by
  obtain ⟨hcgroup, hc'⟩ := h c hc
  have hne : m :: d ≠ k.mount := by
    rintro heq
    have hlen := hcgroup.length_le
    rw [← heq, List.length_cons] at hlen
    omega
  rw [Kernel.available, if_neg hne, List.tail_cons]
  exact hc'

theorem gives_writeEntries {m : Name} (hw : k.Sound w) (hfree : k.Free (m :: d))
    (hd : w.tree.dirs d = true) (h : Enabled k d mask w.tree)
    {entries : List (Ctrlid × CStr × Option CStr)}
    (hentries : ∀ c file v, (c, file, some v) ∈ entries → mask.has c = true) :
    Gives k (writeEntries k (m :: d) entries) w fun _ _ => True := by
  induction entries generalizing w with
  | nil => exact gives_pure fun _ _ _ => trivial
  | cons entry entries ih =>
    obtain ⟨c, file, value⟩ := entry
    have hone : Gives k (writeEntry k (m :: d) (.setting c file) value) w fun _ _ => True := by
      intro t ht hr
      cases value with
      | none => exact ⟨ht, .refl _, fun _ _ _ => trivial⟩
      | some v =>
        have hready : k.Ready t.tree (.write (m :: d) (.setting c file) v) :=
          available_of_enabled (h.grows hd hr) (hentries c file v List.mem_cons_self)
        refine wp_writeEntry (fun t' hcg he => ?_) ?_
        · exact ⟨ht.call hfree hready (.write hcg he), (Kernel.Effect.write hcg he).grows,
            fun _ _ _ => trivial⟩
        · exact ⟨ht.call hfree hready (.none _), .refl _, fun _ _ _ => trivial⟩
    refine Gives.bind hw hone fun rc v hv hgrows _ => ?_
    refine Gives.bind hv (ih hv (hgrows.dirs d hd) (h.grows hd hgrows) fun c file v hmem =>
      hentries c file v (List.mem_cons_of_mem _ hmem)) fun _ _ _ _ _ => ?_
    exact gives_pure fun _ _ _ => trivial

/-! ### The root cgroup -/

/-- The search ends where it started, or at a cgroup with a leaf, be it made meanwhile. -/
theorem gives_findRootLoop (hw : k.Sound w) (b : Buffer UInt8) {length found : Nat}
    (hle : length ≤ found) : Gives k (findRootLoop k b length found) w fun m v =>
      m ≤ found ∧ (m = found ∨ ∃ d, k.openat v.tree k.cwd (.ofBytes (b.slice 0 m)) = some d ∧
        k.Free d) := by
  induction length using Nat.strong_induction_on generalizing found w with
  | _ length ih =>
    have hhere : ∀ w, Gives k (pure found : Calls Nat) w fun m v => m ≤ found ∧ (m = found ∨
        ∃ d, k.openat v.tree k.cwd (.ofBytes (b.slice 0 m)) = some d ∧ k.Free d) :=
      fun w => gives_pure fun _ _ _ => ⟨Nat.le_refl _, .inl rfl⟩
    rw [findRootLoop]
    split
    · exact hhere w
    rename_i hne
    refine Gives.bind hw gives_openat fun opened v hv _ hopened => ?_
    cases opened with
    | none => exact hhere v
    | some d =>
      have hleaf : Gives k (hasPidsLeaf k d) v fun has _ => has = true → k.Free d :=
        gives_look (f := fun t => (k.lookup t d pidsLeaf.bytes).isSome) fun t _ ht _ _ _ h => by
          obtain ⟨e, he⟩ := Option.isSome_iff_exists.mp h
          exact free_of_leaf ht.internal he
      refine Gives.bind hv hleaf fun has u hu hgrows hfree => ?_
      cases has with
      | false => exact hhere u
      | true =>
        have hlt := parentLength_lt b hne
        refine (ih _ hlt hu (Nat.le_of_lt hlt)).since.mono ?_
        rintro m v' hv' ⟨hgrows', hm, rfl | hmet⟩
        · exact ⟨hle, .inr ⟨d, openat_grows (hgrows.trans hgrows') (hopened d rfl), hfree rfl⟩⟩
        · exact ⟨hm.trans hle, .inr hmet⟩

theorem gives_initialPath (hw : k.Sound w) : Gives k (initialPath k p state) w fun found _ =>
    ∃ u, k.Sound u ∧ setCgroupPath p.cgroupRoot state.path
      (k.rootSource p state.rootpath u.tree) = .ok found := by
  unfold initialPath Kernel.rootSource
  cases state.rootpath with
  | some rootpath =>
    dsimp only
    cases hset : setCgroupPath p.cgroupRoot state.path rootpath.bytes with
    | ok found => exact gives_pure fun _ _ _ => ⟨w, hw, rfl⟩
    | error stop => exact gives_stop
  | none =>
    have hself : Gives k (readSelf k p) w fun answer _ =>
        ∃ u, k.Sound u ∧ answer.2 = k.selfText u.tree p.pid :=
      gives_once (fun t => (keeps_call (c := .readSelf) (stable_sound k t)
        ⟨trivial, Call.noSetting_readSelf⟩).bind fun _ => keeps_get.bind fun _ => keeps_pure _)
        fun t ht _ => wp_bind.mpr (wp_call fun granted _ _ _ => ⟨t, ht, rfl⟩)
    refine Gives.bind hw hself fun answer v _ _ hanswer => ?_
    obtain ⟨u, hu, htext⟩ := hanswer
    dsimp only
    rw [htext]
    refine gives_ite (fun _ => ?_) fun _ => gives_stop
    split
    · rename_i found hset
      exact gives_pure fun _ _ _ => ⟨u, hu, hset⟩
    · exact gives_stop

/-- **The root cgroup** is not in a leaf for pids, when it is opened at last. -/
theorem gives_makeRootPath (hw : k.Sound w) (hmounted : DotFree p.cgroupRoot)
    (hpath : ∀ r, state.rootpath = some r → DotFree r) :
    Gives k (makeRootPath k p state) w fun state' v => state'.final = state.final ∧
      ∃ text, p.string state'.path 0 = some text ∧ ∀ u d, k.Sound u → v.Grows u →
        k.openat u.tree k.cwd text = some d → k.Free d := by
  refine Gives.bind hw (gives_initialPath hw) fun found v hv _ hfound => ?_
  obtain ⟨rc, path⟩ := found
  obtain ⟨u₀, hu₀, hset⟩ := hfound
  obtain ⟨rfl, hspelled⟩ := setCgroupPath_ok hset
  generalize htext : cgroupPathText p.cgroupRoot (k.rootSource p state.rootpath u₀.tree) = text
    at hspelled
  have hstart := Nat.le_refl (searchStart (p.bytes path) text.length)
  refine Gives.bind hv (gives_findRootLoop hv (p.bytes path) hstart) fun m v₁ _ _ hm => ?_
  obtain ⟨hle, hmet⟩ := hm
  have hlen : m ≤ text.length := hle.trans (searchStart_le _ _)
  have hnul : (0 : UInt8) ∉ text.take m := fun hmem => by
    rw [← htext] at hmem
    exact nulFree_cgroupPathText (nulFree_rootSource _ _) (List.mem_of_mem_take hmem)
  refine gives_pure fun v₂ _ hgrows₂ => ⟨rfl, _, (hspelled.cut hlen).string hnul p, ?_⟩
  intro u d hu hgrows hopen
  rcases hmet with rfl | ⟨d', hd', hfree⟩
  · exact searchStart_free hu₀.internal hu.internal hmounted hpath htext.symm hspelled hopen
  · rw [hspelled.take_eq p hlen] at hopen
    have heq := (openat_grows (hgrows₂.trans hgrows) hd').symm.trans hopen
    exact Option.some.inj heq ▸ hfree

/-! ### The cgroups of a run -/

/-- A cgroup that is ready for those below it: it is in no leaf, and what they need is enabled. -/
structure Base (k : Kernel) (mask : Ctrlmask) (t : Tree) (d : Dir) : Prop where
  free : k.Free d
  dirs : t.dirs d = true
  enabled : Enabled k d mask t

theorem Base.grows {t' : Tree} (h : Base k mask t d) (hgrows : t.Grows t') : Base k mask t' d :=
  ⟨h.free, hgrows.dirs d h.dirs, h.enabled.grows h.dirs hgrows⟩

theorem enabled_or {mask' : Ctrlmask} (h : Enabled k d (mask ||| mask') t) :
    Enabled k d mask t := fun c hc => h c (by simp [hc])

theorem gives_prepareRoot (hw : k.Sound w) (hmounted : DotFree p.cgroupRoot)
    (hpath : ∀ r, state.rootpath = some r → DotFree r) :
    Gives k (prepareRootCgroup k p state mask) w fun state' v => state'.final = mask ∧
      (mask ≠ 0 → ∃ d, state'.dirfd = some d ∧ Base k mask v.tree d) := by
  refine gives_ite (fun hzero => gives_pure fun _ _ _ => ⟨rfl, fun h => absurd hzero h⟩)
    fun _ => ?_
  refine Gives.bind hw (gives_makeRootPath hw hmounted hpath) fun state₁ w₁ hw₁ _ hroot => ?_
  obtain ⟨hfinal, text, hstring, hfree⟩ := hroot
  rw [hstring]
  refine Gives.bind hw₁ ((gives_openat (k := k) (w := w₁)).since) fun found w₂ hw₂ _ hopened => ?_
  cases found with
  | none => exact gives_stop
  | some d =>
    have hopen := hopened.2 d rfl
    have hfree' : k.Free d := hfree w₂ d hw₂ hopened.1 hopen
    have hdirs := openat_dirs hopen
    refine Gives.bind hw₂ (gives_openCgroupAtDir hw₂ (made_pidsLeaf hfree'))
      fun leaf w₃ hw₃ hgrows₃ hleaf => ?_
    obtain ⟨pidfd, created⟩ := leaf
    obtain rfl : pidfd = pidsLeafName :: d := (openat_pidsLeaf hleaf).1
    refine Gives.bind hw₃ (gives_moveProcs hw₃ hfree') fun _ w₄ hw₄ hgrows₄ _ => ?_
    have hdirs₄ : w₄.tree.dirs d = true := hgrows₄.dirs d (hgrows₃.dirs d hdirs)
    refine Gives.bind hw₄ (gives_ensure hw₄ hfree' hdirs₄) fun _ w₅ _ hgrows₅ henabled => ?_
    refine gives_pure fun v _ hgrows => ⟨hfinal, fun _ => ⟨d, rfl, ?_⟩⟩
    exact Base.grows ⟨hfree', hgrows₅.dirs d hdirs₄, enabled_or henabled⟩ hgrows

/-- What is known of the cgroup of a node when its turn is over. -/
structure NodeBase (k : Kernel) (mask : Ctrlmask) (n : RedNode) (t : Tree) (d : Dir) : Prop extends
    Base k mask t d where
  named : ∃ m ∈ d.head?,
    m.bytes = (if n.confadmin.isSome then adminSuffix else []) ++ shown n

theorem gives_prepareMiddle {prev : Dir} (hw : k.Sound w) (hn : Covered n)
    (hfinal : state.final ≠ 0) (hprev : state.dirfd = some prev)
    (hbase : Base k (mask ||| requiredBy n) w.tree prev) :
    Gives k (prepareMiddleCgroup k p state n mask) w fun state' v => state'.final = state.final ∧
      ∃ d, state'.dirfd = some d ∧ NodeBase k mask n v.tree d := by
  rw [prepareMiddleCgroup, if_neg hfinal]
  dsimp only
  rw [hprev]
  cases htranslated : translatedName n state.path (state.pathlen + 1) with
  | none => exact gives_stop
  | some found =>
    obtain ⟨len, path⟩ := found
    dsimp only
    cases hstring : p.string path (state.pathlen + 1) with
    | none => exact gives_stop
    | some name =>
      have hmade := made_field hbase.free (opened_isField hn htranslated hstring)
      refine Gives.bind hw (gives_openCgroupAtDir hw hmade) fun opened w₁ hw₁ hgrows₁ hopen => ?_
      obtain ⟨g, created⟩ := opened
      obtain ⟨m, rfl, hm⟩ := opened_child hn htranslated hstring hopen
      have hfree : k.Free (m :: prev) := hbase.free.cons (name_ne_pidsLeaf hn hm)
      refine Gives.bind hw₁ (gives_mkdirat (made_pidsLeaf hfree)) fun _ w₂ hw₂ hgrows₂ _ => ?_
      -- the controllers have been enabled before, and nobody has disabled them
      have hbase₂ := hbase.grows (hgrows₁.trans hgrows₂)
      refine Gives.bind hw₂ (gives_writeEntries hw₂ hfree hbase₂.dirs hbase₂.enabled
        fun c file v hmem => ?_) fun rc w₃ hw₃ hgrows₃ _ => ?_
      · rw [has_or, nodeConfEntries_required hmem, Bool.or_true]
      have hdirs₃ : w₃.tree.dirs (m :: prev) = true :=
        hgrows₃.dirs _ (hgrows₂.dirs _ (openat_dirs hopen))
      refine Gives.bind hw₃ (gives_check (Q := fun _ v => w₃.Grows v) fun _ _ _ h => h)
        fun _ w₄ hw₄ _ hgrows₄ => ?_
      have hdirs₄ := hgrows₄.dirs _ hdirs₃
      refine Gives.bind hw₄ (gives_ensure hw₄ hfree hdirs₄) fun _ w₅ _ hgrows₅ henabled => ?_
      refine gives_pure fun v _ hgrows => ⟨rfl, m :: prev, rfl, ⟨?_, m, rfl, hm⟩⟩
      exact Base.grows ⟨hfree, hgrows₅.dirs _ hdirs₄, enabled_or henabled⟩ hgrows

variable {rootpath : Option CStr} {chain : List RedNode}

/-- **Down the chain**, each cgroup is ready when the next one is made in it. -/
theorem gives_prepareCgroups (hw : k.Sound w) (hmounted : DotFree p.cgroupRoot)
    (hpath : ∀ r, rootpath = some r → DotFree r) (hcovered : ∀ n ∈ chain, Covered n) :
    Gives k (prepareCgroups k p { rootpath := rootpath } mask chain) w fun state v =>
      state.final ≠ 0 → ∃ d, state.dirfd = some d ∧ Base k mask v.tree d ∧
        ∀ n ∈ chain.head?, NodeBase k mask n v.tree d := by
  induction chain generalizing mask with
  | nil =>
    refine (gives_prepareRoot hw hmounted hpath).mono ?_
    rintro state v _ ⟨hfinal, hdir⟩ hne
    obtain ⟨d, hd, hbase⟩ := hdir (hfinal ▸ hne)
    exact ⟨d, hd, hbase, by simp⟩
  | cons n above ih =>
    refine gives_ite (fun _ => gives_stop) fun _ => ?_
    refine Gives.bind hw (ih fun m hm => hcovered m (List.mem_cons_of_mem n hm))
      fun state w₁ hw₁ _ hdir => ?_
    by_cases hzero : state.final = 0
    · rw [prepareMiddleCgroup, if_pos hzero]
      exact gives_pure fun _ _ _ hne => absurd hzero hne
    · obtain ⟨prev, hprev, hbase, _⟩ := hdir hzero
      refine (gives_prepareMiddle hw₁ (hcovered n List.mem_cons_self) hzero hprev hbase).mono ?_
      rintro state' v _ ⟨_, d, hd, hnode⟩ _
      refine ⟨d, hd, hnode.toBase, fun n' hn' => ?_⟩
      obtain rfl : n = n' := by simpa using hn'
      exact hnode

theorem gives_enterLeaf (hw : k.Sound w) (hfinal : state.final ≠ 0) (hd : state.dirfd = some d)
    (hfree : k.Free d) : Gives k (enterLeafCgroup k p state) w fun _ v =>
      v.tree.dirs (pidsLeafName :: d) = true := by
  rw [enterLeafCgroup, if_neg hfinal, hd]
  refine Gives.bind hw (gives_openExistingAtDir hw) fun leaf w₁ hw₁ _ hleaf => ?_
  obtain ⟨rfl, hdirs⟩ := openat_pidsLeaf hleaf
  refine Gives.bind hw₁ (gives_writeProcs hfree _) fun rc w₂ _ hgrows₂ _ => ?_
  exact gives_check fun _ v _ hgrows => hgrows.dirs _ (hgrows₂.dirs _ hdirs)

/-- What a process that has ended has come to: the cgroup of its node, in no leaf, with a leaf of
its own. -/
def Settled (k : Kernel) (node : RedNode) (state : CgroupT) (t : Tree) : Prop :=
  state.final ≠ 0 → ∃ (m : Name) (d : Dir), state.dirfd = some (m :: d) ∧
    m.bytes = (if node.confadmin.isSome then adminSuffix else []) ++ shown node ∧
    k.Free (m :: d) ∧ t.dirs (pidsLeafName :: m :: d) = true

theorem gives_setCgroups {node : Family} (hw : k.Sound w) (hrun : Admissible p node rootpath) :
    Gives k (setCgroups k p node rootpath) w fun state v => Settled k node.node state v.tree := by
  refine Gives.bind hw (gives_prepareCgroups hw hrun.mounted hrun.rootpath
    fun n hn => ⟨(hrun.redpaths n hn).1, fun _ => (hrun.redpaths n hn).2⟩)
    fun state w₁ hw₁ _ hdir => ?_
  by_cases hzero : state.final = 0
  · rw [enterLeafCgroup, if_pos hzero]
    exact gives_pure fun _ _ _ hne => absurd hzero hne
  · obtain ⟨d, hd, hbase, hnode⟩ := hdir hzero
    obtain ⟨m, hm, hbytes⟩ := (hnode node.node rfl).named
    obtain ⟨d', rfl⟩ : ∃ d', d = m :: d' := by
      cases d with
      | nil => cases hm
      | cons m' d' =>
        cases hm
        exact ⟨d', rfl⟩
    refine Gives.bind hw₁ (gives_enterLeaf hw₁ hzero hd hbase.free) fun _ w₂ _ _ hleaf => ?_
    exact gives_pure fun v _ hgrows _ =>
      ⟨m, d', hd, hbytes, hbase.free, hgrows.dirs _ hleaf⟩

end Calls

/-! ## Processes side by side -/

/-- A process that runs `set_cgroups` for a node. -/
structure Launch where
  process : Process
  node : Family
  rootpath : Option CStr

variable {ι : Type} [DecidableEq ι] {launches : ι → Launch} {c : Pool ι Stop World CgroupT}

/-- Every process is at its start. -/
def Kernel.started (k : Kernel) (launches : ι → Launch) (t₀ : Tree) :
    Pool ι Stop World CgroupT where
  state := ⟨t₀, []⟩
  threads i := Calls.setCgroups k (launches i).process (launches i).node (launches i).rootpath

/-- The states that any order of the calls leads to. Other processes start and move meanwhile, into
cgroups that exist. -/
inductive Kernel.Interleaved (k : Kernel) (launches : ι → Launch) (t₀ : Tree) :
    Pool ι Stop World CgroupT → Prop where
  | start : k.Interleaved launches t₀ (k.started launches t₀)
  | turn {c : Pool ι Stop World CgroupT} (h : k.Interleaved launches t₀ c) (i : ι) :
      k.Interleaved launches t₀ (c.step i)
  | place {c : Pool ι Stop World CgroupT} {procs : List (Nat × Dir)}
      (h : k.Interleaved launches t₀ c)
      (hprocs : k.Placed { c.state.tree with procs := procs }) :
      k.Interleaved launches t₀
        { c with state := ⟨{ c.state.tree with procs := procs }, c.state.calls⟩ }

theorem Kernel.Interleaved.runs (h : k.Interleaved launches t₀ c) (schedule : List ι) :
    k.Interleaved launches t₀ (c.runs schedule) := by
  induction schedule generalizing c with
  | nil => exact h
  | cons i schedule ih => exact ih (h.turn i)

/-- What is asked of the start: no leaf is there, and processes are in cgroups. -/
structure Kernel.Fresh (k : Kernel) (t : Tree) : Prop where
  noLeaf : ∀ d, k.IsCgroup d → t.dirs d = true → d.head? ≠ some pidsLeafName
  placed : k.Placed t

theorem Kernel.Fresh.sound (h : k.Fresh t₀) : k.Sound ⟨t₀, []⟩ := by
  have hdirs : ∀ m d, t₀.dirs (m :: d) = true → k.Free d := fun m d hd e he hcgroup =>
    h.noLeaf e hcgroup (dirs_suffix t₀ (t₀.closed m d hd) he)
  exact ⟨⟨hdirs, h.placed.internal hdirs, by simp⟩, by simp⟩

/-- **The invariant** of any order of calls. -/
theorem interleaved_safe (hfresh : k.Fresh t₀)
    (hruns : ∀ i, Admissible (launches i).process (launches i).node (launches i).rootpath)
    (h : k.Interleaved launches t₀ c) :
    c.Safe k.Sound (fun _ => World.Grows) (fun _ => World.Grows)
      (fun i state v => Calls.Settled k (launches i).node.node state v.tree)
      (fun _ _ _ => True) := by
  induction h with
  | start => exact ⟨hfresh.sound, fun i => Calls.gives_setCgroups hfresh.sound (hruns i)⟩
  | turn h i ih => exact (ih.step (fun _ _ _ _ _ hg => hg) i).1
  | place h hprocs ih =>
    exact ⟨⟨⟨ih.inv.internal.dirs, hprocs.internal ih.inv.internal.dirs, ih.inv.internal.calls⟩,
      ih.inv.ready⟩, fun i => (ih.threads i).later (R := World.Grows)
        ⟨fun _ h => h, fun _ _ _ h => h⟩⟩

/-- **No internal process, in any order.** However the calls of any number of processes come one
after the other, every call respects the leaves, no cgroup is below a leaf and no process is below
one; and a process that has ended with something to do has its cgroup, with a leaf. -/
theorem interleaved_internal (hfresh : k.Fresh t₀)
    (hruns : ∀ i, Admissible (launches i).process (launches i).node (launches i).rootpath)
    (h : k.Interleaved launches t₀ c) :
    (∀ x ∈ c.state.calls, k.Respects x.2) ∧
    (∀ m d, c.state.tree.dirs (m :: d) = true → k.Free d) ∧
    (∀ q ∈ c.state.tree.procs, k.IsCgroup q.2 ∧ k.Free q.2.tail) ∧
    ∀ i state, c.threads i = .ret state →
      Calls.Settled k (launches i).node.node state c.state.tree := by
  have hsafe := interleaved_safe hfresh hruns h
  have hinv := hsafe.inv.internal
  exact ⟨fun x hx => (hinv.calls x hx).respects, hinv.dirs, hinv.procs,
    fun i state hi => hsafe.ended hi⟩

/-- Two processes that run the same node. -/
def twoLaunches (first : Bool) : Launch where
  process := if first then sysProcess else { sysProcess with pid := 43 }
  node := appFamily none
  rootpath := none

def twoTree : Tree := .ofDirs [sysMount] [(42, sysMount), (43, sysMount)]

/-- The first process has all of its turns while the second one is moving processes. -/
def twoRun : Pool Bool Stop World CgroupT :=
  (sysKernel.started twoLaunches twoTree).runs
    (List.replicate 8 false ++ List.replicate 80 true ++ List.replicate 80 false)

theorem twoRun_interleaved : sysKernel.Interleaved twoLaunches twoTree twoRun :=
  Kernel.Interleaved.start.runs _

theorem twoLaunches_admissible (first : Bool) : Admissible (twoLaunches first).process
    (twoLaunches first).node (twoLaunches first).rootpath := by
  cases first <;> exact ⟨by decide, fun _ h => (by cases h), by decide⟩

theorem twoTree_fresh : sysKernel.Fresh twoTree where
  noLeaf d hcgroup hd := by
    have hne : d ≠ [] := fun h => absurd (List.suffix_nil.mp (h ▸ hcgroup)) sysKernel.mountNe
    have hsuffix : d <:+ sysMount := by simpa [twoTree, Tree.ofDirs, hne] using hd
    rw [hsuffix.eq_of_length_le (List.IsSuffix.length_le hcgroup)]
    decide
  placed q hq := by
    have hq' : q = (42, sysMount) ∨ q = (43, sysMount) := by simpa [twoTree, Tree.ofDirs] using hq
    rcases hq' with rfl | rfl <;> exact ⟨List.suffix_refl _, by decide⟩

def ends (x : Calls CgroupT) (test : CgroupT → Bool) : Bool :=
  match x with
  | .ret state => test state
  | _ => false

theorem ret_of_ends {x : Calls CgroupT} {test : CgroupT → Bool} (h : ends x test = true) :
    ∃ state, x = .ret state ∧ test state = true := by
  cases x with
  | ret state => exact ⟨state, rfl, h⟩
  | stop e => cases h
  | act x next => cases h

theorem interleaved_internal_two :
    (∀ x ∈ twoRun.state.calls, sysKernel.Respects x.2) ∧
    (∀ q ∈ twoRun.state.tree.procs, sysKernel.IsCgroup q.2 ∧ sysKernel.Free q.2.tail) ∧
    ∀ first, ∃ state, twoRun.threads first = .ret state ∧ state.final ≠ 0 ∧
      Calls.Settled sysKernel (appFamily none).node state twoRun.state.tree := by
  obtain ⟨hcalls, _, hprocs, hsettled⟩ :=
    interleaved_internal twoTree_fresh twoLaunches_admissible twoRun_interleaved
  refine ⟨hcalls, hprocs, fun first => ?_⟩
  have hends : ends (twoRun.threads first) (fun state => decide (state.final ≠ 0)) = true := by
    cases first <;> decide +kernel
  obtain ⟨state, hret, hfinal⟩ := ret_of_ends hends
  exact ⟨state, hret, of_decide_eq_true hfinal, hsettled first state hret⟩

/-- A process that has ended need not be in its cgroup: the other one has read its pid in the root
cgroup before, and moves it to the leaf of the root cgroup afterwards. -/
theorem launch_stolen : ∃ state, twoRun.threads true = .ret state ∧ state.final ≠ 0 ∧
    state.dirfd ≠ some sysMount ∧ twoRun.state.tree.Holds 42 (pidsLeafName :: sysMount) := by
  have hends : ends (twoRun.threads true) (fun state => decide (state.final ≠ 0 ∧
      state.dirfd ≠ some sysMount ∧ (twoRun.state.tree.procs.filter fun q => q.1 = 42) =
        [(42, pidsLeafName :: sysMount)])) = true := by decide +kernel
  obtain ⟨state, hret, htest⟩ := ret_of_ends hends
  obtain ⟨hfinal, hdir, hprocs⟩ := of_decide_eq_true htest
  refine ⟨state, hret, hfinal, hdir, fun e => ?_⟩
  have hmem : (42, e) ∈ twoRun.state.tree.procs.filter (fun q => q.1 = 42) ↔
      (42, e) ∈ twoRun.state.tree.procs := by simp
  exact hmem.symm.trans (hprocs ▸ by simp)

/-- **Enabled before used, in any order.** Whenever a setting is written, its controller is
available in the cgroup, however the calls of the processes come one after the other. -/
theorem interleaved_ready (hfresh : k.Fresh t₀)
    (hruns : ∀ i, Admissible (launches i).process (launches i).node (launches i).rootpath)
    (h : k.Interleaved launches t₀ c) {t : Tree} {g : Dir} {ctrl : Ctrlid} {file value : CStr}
    (hcall : (t, Call.write g (.setting ctrl file) value) ∈ c.state.calls) :
    k.available t g ctrl = true :=
  (interleaved_safe hfresh hruns h).inv.ready _ hcall

theorem interleaved_ready_two : ∃ t g ctrl file value,
    (t, Call.write g (.setting ctrl file) value) ∈ twoRun.state.calls ∧
    sysKernel.available t g ctrl = true := by
  have hany : twoRun.state.calls.any (fun x => match x.2 with
      | .write _ (.setting _ _) _ => true
      | _ => false) = true := by decide +kernel
  obtain ⟨⟨t, call⟩, hmem, hcall⟩ := List.any_eq_true.mp hany
  cases call with
  | write g entry value =>
    cases entry with
    | setting ctrl file =>
      exact ⟨t, g, ctrl, file, value, hmem,
        interleaved_ready twoTree_fresh twoLaunches_admissible twoRun_interleaved hmem⟩
    | _ => cases hcall
  | _ => cases hcall

end Cgroup
end RedPak
