import RedPak.Cgroup.RootText
import RedPak.Cgroup.Separate

/-!
# Cgroup.NoInternal

Processes live in leaves. Over any sequence of runs, pids are written to the leaves for pids only,
and nothing else is done to a leaf.

* `stable_internal`: what every allowed call keeps.
* `root_free`: the root cgroup is not in a leaf.
* `no_internal_process`: the invariant over all runs, and where a run leaves its process.
-/

namespace RedPak
namespace Cgroup

open Conf Layered Layered.Action

variable {k : Kernel} {p : Process} {t t₀ : Tree} {w w' : World} {n : RedNode} {d e : Dir}

/-! ## The invariant -/

/-- No cgroup on the way to the directory is a leaf for pids, nor is the directory. -/
def Kernel.Free (k : Kernel) (d : Dir) : Prop :=
  ∀ e, e <:+ d → k.IsCgroup e → e.head? ≠ some pidsLeafName

theorem Kernel.Free.suffix (h : k.Free d) (he : e <:+ d) : k.Free e := fun f hf =>
  h f (hf.trans he)

theorem Kernel.Free.cons (h : k.Free d) {m : Name} (hm : m ≠ pidsLeafName) : k.Free (m :: d) := by
  intro e he hcgroup
  rcases List.suffix_cons_iff.mp he with rfl | he
  · simpa using hm
  · exact h e he hcgroup

/-- A call by which no leaf gets anything but pids, and no other cgroup gets pids. -/
def Kernel.Proper (k : Kernel) : Call → Prop
  | .mkdirat d _ => k.Free d
  | .write d .procs _ => d.head? = some pidsLeafName ∧ k.Free d.tail
  | .write d _ _ => k.Free d
  | _ => True

/-- What holds at every step: no leaf has a child, and no process is below a leaf. -/
structure Kernel.Internal (k : Kernel) (w : World) : Prop where
  dirs : ∀ m d, w.tree.dirs (m :: d) = true → k.Free d
  procs : ∀ q ∈ w.tree.procs, k.IsCgroup q.2 ∧ k.Free q.2.tail
  calls : ∀ c ∈ w.calls, k.Proper c.2

/-- **One call** keeps the invariant. -/
theorem stable_internal (k : Kernel) : k.Stable k.Proper k.Internal := by
  rintro w c t hc ⟨hdirs, hprocs, hcalls⟩ he
  have hcalls' : ∀ c' ∈ (w.tree, c) :: w.calls, k.Proper c'.2 :=
    List.forall_mem_cons.mpr ⟨hc, hcalls⟩
  cases he with
  | none => exact ⟨hdirs, hprocs, hcalls'⟩
  | @mkdirat d m hd hnew =>
    refine ⟨fun m' d' h => ?_, hprocs, hcalls'⟩
    rcases Bool.or_eq_true_iff.mp h with h | h
    · cases eq_of_beq h
      exact hc
    · exact hdirs m' d' h
  | @write d entry value _ hd he =>
    cases entry with
    | controllers => cases he
    | subtreeControl =>
      simp only [Kernel.effect] at he
      split at he
      · split at he
        · cases he
          exact ⟨hdirs, hprocs, hcalls'⟩
        · cases he
      · cases he
    | procs =>
      simp only [Kernel.effect] at he
      split at he
      · split at he
        · cases he
          refine ⟨hdirs, fun q hq => ?_, hcalls'⟩
          rcases List.mem_append.mp hq with hq | hq
          · exact hprocs q (List.mem_of_mem_filter hq)
          · cases List.mem_singleton.mp hq
            exact ⟨hd, hc.2⟩
        · cases he
      · cases he
    | setting c file =>
      cases he
      exact ⟨hdirs, hprocs, hcalls'⟩

/-! ## The root -/

/-- A component of a path that is a name. -/
def Plain (f : List UInt8) : Prop := f ≠ [dot] ∧ f ≠ [dot, dot]

instance (f : List UInt8) : Decidable (Plain f) := by
  unfold Plain
  infer_instance

/-- No component is a directory itself or its parent. -/
def DotFree (path : CStr) : Prop := ∀ f ∈ fields slash path.bytes, Plain f

instance (path : CStr) : Decidable (DotFree path) := by
  unfold DotFree
  infer_instance

theorem Name.plain (m : Name) : Plain m.bytes := ⟨m.valid.2.1, m.valid.2.2.1⟩

theorem below_dropLast_ne (h : k.IsCgroup d) (hfree : k.Free d.tail) {m : Name}
    (hm : m ∈ (k.below d).dropLast) : m ≠ pidsLeafName := by
  obtain ⟨l, rfl⟩ := h
  have hbelow : k.below (l ++ k.mount) = l.reverse := by simp [Kernel.below]
  rw [hbelow, List.dropLast_reverse, List.mem_reverse] at hm
  obtain ⟨a, b, hsplit⟩ := List.append_of_mem hm
  cases l with
  | nil => cases hm
  | cons x l =>
    rw [List.tail_cons] at hsplit
    have hsuffix : m :: b ++ k.mount <:+ (x :: l ++ k.mount).tail := ⟨a, by simp [hsplit]⟩
    have hne := hfree _ hsuffix ⟨m :: b, rfl⟩
    rintro rfl
    exact hne rfl

/-- The components of a path that is searched: names, or the path was cut off in a child of a cgroup
that is no leaf. -/
theorem fields_rootSource (hinv : k.Internal w) {rootpath : Option CStr}
    (hpath : ∀ r, rootpath = some r → DotFree r) :
    (∀ f ∈ fields slash (k.rootSource p rootpath w.tree), Plain f) ∨
      ∃ (above : List (List UInt8)) (m : Name) (cut : List UInt8),
        fields slash (k.rootSource p rootpath w.tree) = above ++ [m.bytes] ++ [cut] ∧
          m ≠ pidsLeafName ∧ ∀ f ∈ above, Plain f := by
  cases rootpath with
  | some r => exact .inl (hpath r rfl)
  | none =>
    rw [Kernel.rootSource]
    cases hfind : w.tree.procs.find? (·.1 = p.pid) with
    | none =>
      have hempty : k.selfPath p w.tree = [] := by
        rw [Kernel.selfPath, Kernel.selfText, hfind]
        rfl
      exact .inl (by simp [hempty])
    | some q =>
      obtain ⟨pid, d⟩ := q
      obtain ⟨hcgroup, hfree⟩ := hinv.procs _ (List.mem_of_find?_eq_some hfind)
      have hnames : ∀ f ∈ (k.below d).map (·.bytes), IsField slash f := by
        intro f hf
        obtain ⟨m, _, rfl⟩ := List.mem_map.mp hf
        exact m.isField
      have htake : fields slash (k.selfPath p w.tree) =
          fields slash ((joined slash ((k.below d).map (·.bytes))).take (pathMax - 4)) := by
        rw [selfPath_eq hfind, relative_eq]
        exact fields_sep_cons _
      rw [htake]
      cases hbelow : k.below d with
      | nil => exact .inl (by simp)
      | cons first names =>
        rw [hbelow] at hnames
        have hlong : first.bytes.length ≤ pathMax - 4 :=
          first.valid.2.2.2.2.2.2.trans (by decide)
        have hplain : ∀ l : List Name, ∀ f ∈ l.map (·.bytes), Plain f := by
          intro l f hf
          obtain ⟨m, _, rfl⟩ := List.mem_map.mp hf
          exact m.plain
        rw [List.map_cons, fields_take_joined_cons (hnames _ (by simp)) hlong]
        obtain ⟨m, hm | ⟨hm, cut, hcut⟩⟩ := fields_take_joined
          (fun f hf => hnames f (List.mem_cons_of_mem _ hf))
          (pathMax - 4 - (first.bytes.length + 1))
        · rw [hm, ← List.map_take, ← List.map_cons]
          exact .inl (hplain _)
        · -- the last whole name is that of a cgroup with a child
          rw [List.length_map] at hm
          obtain ⟨whole, last, hwhole⟩ :
              ∃ whole last, (first :: names).take (m + 1) = whole ++ [last] := by
            rcases List.eq_nil_or_concat ((first :: names).take (m + 1)) with hnil | ⟨l, x, hl⟩
            · simp at hnil
            · exact ⟨l, x, by rw [hl, List.concat_eq_append]⟩
          have hlast : last ∈ (k.below d).dropLast := by
            rw [hbelow, List.dropLast_eq_take]
            refine List.take_subset_take_left _ hm ?_
            rw [Nat.succ_eq_add_one, hwhole]
            simp
          refine .inr ⟨whole.map (·.bytes), last, cut, ?_,
            below_dropLast_ne hcgroup hfree hlast, hplain _⟩
          rw [hcut, ← List.map_take, ← List.cons_append, ← List.map_cons, ← List.take_succ_cons,
            hwhole, List.map_append]
          rfl

/-- The last component of the path of the root, when that is no name. -/
theorem rootComponents_dot {pfx l before : List (List UInt8)} {y : List UInt8}
    (hpfx : ∀ f ∈ pfx, Plain f) (hl : (∀ f ∈ l, Plain f) ∨
      ∃ (above : List (List UInt8)) (m : Name) (cut : List UInt8),
        l = above ++ [m.bytes] ++ [cut] ∧ m ≠ pidsLeafName ∧ ∀ f ∈ above, Plain f)
    (h : (pfx ++ l).rdropWhile (· == pidsLeafName.bytes) = before ++ [y]) (hy : ¬ Plain y) :
    ∃ (above : List (List UInt8)) (m : Name), before = above ++ [m.bytes] ∧ m ≠ pidsLeafName := by
  have hmem : ∀ {xs : List (List UInt8)},
      xs.rdropWhile (· == pidsLeafName.bytes) = before ++ [y] → y ∈ xs := fun {xs} h =>
    (List.rdropWhile_prefix _ xs).subset (by rw [h]; simp)
  rcases hl with hl | ⟨above, m, cut, rfl, hm, habove⟩
  · exact absurd ((List.forall_mem_append.mpr ⟨hpfx, hl⟩) y (hmem h)) hy
  · rw [← List.append_assoc] at h
    by_cases hcut : cut = pidsLeafName.bytes
    · rw [List.rdropWhile_concat_pos _ _ _ (by simpa using hcut)] at h
      have hy' := hmem h
      rw [List.mem_append, List.mem_append, List.mem_singleton] at hy'
      rcases hy' with hy' | hy' | rfl
      · exact absurd (hpfx y hy') hy
      · exact absurd (habove y hy') hy
      · exact absurd m.plain hy
    · rw [List.rdropWhile_concat_neg _ _ _ (by simpa using hcut)] at h
      have hbefore := (List.append_inj' h rfl).1
      exact ⟨pfx ++ above, m, by rw [← hbefore, List.append_assoc], hm⟩

theorem lookup_plain {y : List UInt8} (hy : Plain y) (h : k.lookup t d y = some e) :
    ∃ m : Name, m.bytes = y ∧ e = m :: d ∧ t.dirs e = true := by
  unfold Kernel.lookup at h
  split at h
  · cases h
  rw [if_neg hy.1, if_neg hy.2] at h
  split at h
  · split at h
    · cases h
      exact ⟨_, rfl, rfl, by assumption⟩
    · cases h
  · cases h

theorem lookup_not_plain {y : List UInt8} (hy : ¬ Plain y) (h : k.lookup t d y = some e) :
    e <:+ d := by
  unfold Kernel.lookup at h
  split at h
  · cases h
  split at h
  · cases h
    exact List.suffix_refl d
  split at h
  · cases h
    exact List.tail_suffix d
  rename_i hdot hdots
  exact absurd ⟨hdot, hdots⟩ hy

theorem openat_last {path : CStr} (h : k.openat t d path = some e)
    (hlast : path.bytes.getLast? ≠ some slash) : ∃ above last start d',
      fields slash path.bytes = above ++ [last] ∧ k.walk t start above = some d' ∧
        k.lookup t d' last = some e := by
  unfold Kernel.openat at h
  split at h
  · cases h
  rename_i hne
  have hwalk := (Option.filter_eq_some_iff.mp h).1
  rw [fields_eq_concat hne hlast, walk_append, Option.bind_eq_some_iff] at hwalk
  obtain ⟨d', hd', hl⟩ := hwalk
  rw [walk_singleton] at hl
  exact ⟨_, _, _, d', fields_eq_concat hne hlast, hd', hl⟩

/-- Where the search starts, whatever was made since the path was read. -/
theorem searchStart_free (hinv : k.Internal w) (hinv' : k.Internal w') {rootpath : Option CStr}
    {path : PathBuffer} {text : List UInt8} (hroot : DotFree p.cgroupRoot)
    (hpath : ∀ r, rootpath = some r → DotFree r)
    (htext : text = cgroupPathText p.cgroupRoot (k.rootSource p rootpath w.tree))
    (hspelled : Spelled path text)
    (hopen : k.openat w'.tree k.cwd (.ofBytes
      (text.take (searchStart (p.bytes path) text.length))) = some d) : k.Free d := by
  have hnul : ∀ m, (0 : UInt8) ∉ text.take m := fun m hmem => by
    rw [htext] at hmem
    exact nulFree_cgroupPathText (nulFree_rootSource _ _) (List.mem_of_mem_take hmem)
  obtain ⟨hfields, hlast⟩ := hspelled.fields_searchStart p
  rw [← CStr.bytes_ofBytes (hnul _)] at hfields hlast
  obtain ⟨above, last, start, d', hsplit, hwalk, hlookup⟩ := openat_last hopen hlast
  rw [hsplit] at hfields
  have hleaf : last ≠ pidsLeafName.bytes := by
    simpa using eq_false_of_rdropWhile hfields.symm
  rw [htext, fields_cgroupPathText] at hfields
  by_cases hplain : Plain last
  · obtain ⟨m, rfl, rfl, hdirs⟩ := lookup_plain hplain hlookup
    exact (hinv'.dirs _ _ hdirs).cons fun h => hleaf (by rw [h])
  · -- the path was cut off in a child of a cgroup that is no leaf
    have hpfx : ∀ f ∈ (if Copied p.cgroupRoot (k.rootSource p rootpath w.tree) then
        fields slash p.cgroupRoot.bytes else []), Plain f := by
      split
      · exact hroot
      · simp
    obtain ⟨higher, m, rfl, hm⟩ := rootComponents_dot hpfx (fields_rootSource hinv hpath)
      hfields.symm hplain
    rw [walk_append, Option.bind_eq_some_iff] at hwalk
    obtain ⟨d'', _, hwalk⟩ := hwalk
    rw [walk_singleton] at hwalk
    obtain ⟨_, heq, rfl, hdirs⟩ := lookup_plain m.plain hwalk
    cases Name.ext heq
    exact ((hinv'.dirs _ _ hdirs).cons hm).suffix (lookup_not_plain hplain hlookup)

theorem free_of_leaf (hinv : k.Internal w)
    (h : k.lookup w.tree d pidsLeafName.bytes = some e) : k.Free d := by
  obtain ⟨m, _, rfl, hdirs⟩ := lookup_plain pidsLeafName.plain h
  exact hinv.dirs _ _ hdirs

/-- **The root cgroup** is not in a leaf for pids. -/
theorem root_free (hinv : k.Internal w) {rootpath : Option CStr} {path : PathBuffer}
    {text : List UInt8} (hroot : DotFree p.cgroupRoot)
    (hpath : ∀ r, rootpath = some r → DotFree r)
    (htext : text = cgroupPathText p.cgroupRoot (k.rootSource p rootpath w.tree))
    (hspelled : Spelled path text)
    (hopen : k.openat w.tree k.cwd (.ofBytes
      (text.take (findRednodeRoot k w.tree (p.bytes path) text.length))) = some d) : k.Free d := by
  have hsearch : findRednodeRoot k w.tree (p.bytes path) text.length =
      findRootLoop k w.tree (p.bytes path) (searchStart (p.bytes path) text.length)
        (searchStart (p.bytes path) text.length) := rfl
  rw [hsearch] at hopen
  rcases findRootLoop_spec (k := k) w.tree (p.bytes path) (searchStart (p.bytes path) text.length)
    (searchStart (p.bytes path) text.length) with hstart | ⟨d', e, hd', he⟩
  · -- the search ended where it started
    rw [hstart] at hopen
    exact searchStart_free hinv hinv hroot hpath htext hspelled hopen
  · -- or at a cgroup with a leaf, which is no leaf then
    have hle := @findRednodeRoot_le k w.tree (p.bytes path) text.length
    rw [hsearch] at hle
    rw [hspelled.take_eq p hle, hd', Option.some.injEq] at hopen
    subst hopen
    exact free_of_leaf hinv he

/-! ## One run -/

/-- What is asked of a run: paths without dots for the root, and absolute redpaths that are not too
short. -/
structure Admissible (p : Process) (node : Family) (rootpath : Option CStr) : Prop where
  mounted : DotFree p.cgroupRoot
  rootpath : ∀ r, rootpath = some r → DotFree r
  redpaths : ∀ n ∈ node.node :: node.parents,
    n.redpath.bytes.head? = some slash ∧ 6 ≤ n.redpath.bytes.length

variable {state : CgroupT} {mask : Ctrlmask} {rootpath : Option CStr} {chain : List RedNode}
  {node : Family}

theorem proper_pidsLeaf (hfree : k.Free d) (v : CStr) :
    k.Proper (.write (pidsLeafName :: d) .procs v) := ⟨rfl, hfree⟩

theorem pidsLeaf_bytes : pidsLeaf.bytes = pidsLeafName.bytes := rfl

theorem openPidsLeaf_internal (hfree : k.Free d) (hw : k.Internal w) :
    wp (openCgroupAtDir k d pidsLeaf)
      (fun r w' => k.Internal w' ∧ r.1 = pidsLeafName :: d) (fun _ w' => k.Internal w') w := by
  refine wp_mono ((keeps_openCgroupAtDir (stable_internal k) fun _ parent m _ hl => ?_).also hw
    openCgroupAtDir_spec) ?_ (fun _ _ h => h)
  · obtain ⟨rfl, rfl⟩ := leads_name pidsLeaf_bytes hl
    exact hfree
  · rintro ⟨g, created⟩ w₁ ⟨hw₁, _, hopen⟩
    rw [openat_name pidsLeaf_bytes] at hopen
    split at hopen
    · cases hopen
      exact ⟨hw₁, rfl⟩
    · cases hopen

theorem ensure_internal (hfree : k.Free d) :
    Keeps k.Internal (ensureRequiredControllers k d mask) :=
  keeps_ensure (stable_internal k) (fun _ _ => trivial) fun _ _ hup => hfree.suffix hup

theorem prepareRoot_internal (hmounted : DotFree p.cgroupRoot)
    (hpath : ∀ r, state.rootpath = some r → DotFree r) (hw : k.Internal w) :
    wp (prepareRootCgroup k p state mask)
      (fun state' w' => k.Internal w' ∧ state'.final = mask ∧
        (mask ≠ 0 → ∃ d, state'.dirfd = some d ∧ k.Free d))
      (fun _ w' => k.Internal w') w := by
  rw [prepareRootCgroup, wp_ite]
  split
  · rename_i hzero
    exact ⟨hw, rfl, fun h => absurd hzero h⟩
  rw [wp_bind]
  refine wp_mono ((keeps_makeRootPath (stable_internal k) trivial).also hw makeRootPath_spec) ?_
    (fun _ _ h => h)
  rintro _ w₁ ⟨hw₁, htree, path, hspelled, rfl⟩
  rw [wp_bind, wp_get, (hspelled.cut (findRednodeRoot_le _ _ _)).string fun hmem =>
    nulFree_cgroupPathText (nulFree_rootSource _ _) (List.mem_of_mem_take hmem)]
  dsimp only
  split
  · exact hw₁
  rename_i d hopen
  rw [htree] at hopen
  have hfree : k.Free d := root_free hw hmounted hpath rfl hspelled hopen
  rw [wp_bind]
  refine wp_mono (openPidsLeaf_internal hfree hw₁) ?_ (fun _ _ h => h)
  rintro ⟨pidfd, created⟩ w₂ ⟨hw₂, rfl⟩
  rw [wp_bind]
  refine wp_mono (keeps_moveProcs (stable_internal k) trivial (fun v => proper_pidsLeaf hfree v) w₂
    hw₂) ?_ (fun _ _ h => h)
  intro _ w₃ hw₃
  rw [wp_bind]
  refine wp_mono (ensure_internal hfree w₃ hw₃) ?_ (fun _ _ h => h)
  intro _ w₄ hw₄
  exact ⟨hw₄, rfl, fun _ => ⟨d, rfl, hfree⟩⟩

theorem name_ne_pidsLeaf (hn : Covered n) {m : Name}
    (hm : m.bytes = (if n.confadmin.isSome then adminSuffix else []) ++ shown n) :
    m ≠ pidsLeafName := by
  rintro rfl
  cases hadmin : n.confadmin.isSome with
  | true =>
    rw [hadmin, if_pos rfl] at hm
    have hhead := congrArg List.head? hm
    rw [List.head?_append_of_ne_nil _ (by decide)] at hhead
    exact absurd hhead (by decide)
  | false =>
    rw [hadmin, if_neg (by simp), List.nil_append] at hm
    have hhead := head?_shown hn hadmin
    rw [← hm] at hhead
    exact absurd hhead (by decide)

theorem leads_field {path : CStr} {parent : Dir} {m : Name} (h : IsField slash path.bytes)
    (hl : k.Leads t d path parent m) : parent = d := by
  have hname : path.bytes = m.bytes := by
    obtain ⟨up, hup, _⟩ := hl
    rw [h.fields_eq] at hup
    cases up with
    | nil => simpa using hup
    | cons c up => simp at hup
  exact (leads_name hname hl).1

/-- The text that is opened for a node that covers its suffix is one component. -/
theorem opened_isField {path' : PathBuffer} {off len : Nat} {path : PathBuffer} {name : CStr}
    (hn : Covered n) (htranslated : translatedName n path off = some (len, path'))
    (hstring : p.string path' off = some name) : IsField slash name.bytes := by
  rw [(translatedName_opened htranslated hstring).2.1]
  exact (openedName_component _ _ hn).1

/-- What is opened is then a directory of that name below the last one. -/
theorem opened_child {path' : PathBuffer} {off len : Nat} {path : PathBuffer} {name : CStr}
    {prev g : Dir} (hn : Covered n) (htranslated : translatedName n path off = some (len, path'))
    (hstring : p.string path' off = some name) (hopen : k.openat t prev name = some g) :
    ∃ m : Name, g = m :: prev ∧
      m.bytes = (if n.confadmin.isSome then adminSuffix else []) ++ shown n := by
  have hname := (translatedName_opened htranslated hstring).2.1
  obtain ⟨hfield, hdot, hdots⟩ := openedName_component (p.bytes path) off hn
  rw [← hname] at hfield hdot hdots
  rw [openedName_covered _ _ hn] at hname
  obtain ⟨_, ⟨hd, _⟩ | ⟨hd, _⟩ | ⟨m, hm, rfl⟩⟩ := openat_component hfield.sepFree hopen
  · exact absurd hd hdot
  · exact absurd hd hdots
  · exact ⟨m, rfl, hm.trans hname⟩

theorem prepareMiddle_internal {prev : Dir} (hn : Covered n) (hfinal : state.final ≠ 0)
    (hprev : state.dirfd = some prev) (hfree : k.Free prev) (hw : k.Internal w) :
    wp (prepareMiddleCgroup k p state n mask)
      (fun state' w' => k.Internal w' ∧ ∃ m : Name, state'.dirfd = some (m :: prev) ∧
        m.bytes = (if n.confadmin.isSome then adminSuffix else []) ++ shown n ∧
          k.Free (m :: prev))
      (fun _ w' => k.Internal w') w := by
  have hstable := stable_internal k
  rw [prepareMiddleCgroup, if_neg hfinal]
  dsimp only
  rw [hprev]
  split
  · rename_i len path dirfd htranslated hdirfd
    cases hdirfd
    split
    · exact hw
    rename_i name hstring
    have hfield := opened_isField hn htranslated hstring
    rw [wp_bind]
    refine wp_mono ((keeps_openCgroupAtDir hstable fun _ parent m _ hl => ?_).also hw
      openCgroupAtDir_spec) ?_ (fun _ _ h => h)
    · rw [leads_field hfield hl]
      exact hfree
    rintro ⟨g, created⟩ w₁ ⟨hw₁, _, hopen⟩
    obtain ⟨m, rfl, hm⟩ := opened_child hn htranslated hstring hopen
    have hfree' : k.Free (m :: prev) := hfree.cons (name_ne_pidsLeaf hn hm)
    rw [wp_bind]
    refine wp_mono (keeps_mkdirat hstable (fun _ parent m' _ hl => ?_) w₁ hw₁) ?_ (fun _ _ h => h)
    · rw [(leads_name pidsLeaf_bytes hl).1]
      exact hfree'
    intro _ w₂ hw₂
    rw [wp_bind]
    refine wp_mono (keeps_writeEntries hstable (fun _ _ _ => hfree') w₂ hw₂) ?_ (fun _ _ h => h)
    intro nerr w₃ hw₃
    rw [wp_bind]
    refine wp_check (fun _ => ?_) hw₃
    rw [wp_bind]
    refine wp_mono (ensure_internal hfree' w₃ hw₃) ?_ (fun _ _ h => h)
    intro _ w₄ hw₄
    exact ⟨hw₄, m, rfl, hm, hfree'⟩
  · exact hw

/-- **The cgroups of a run** are made outside of the leaves. -/
theorem prepareCgroups_internal (hmounted : DotFree p.cgroupRoot)
    (hpath : ∀ r, rootpath = some r → DotFree r) (hcovered : ∀ n ∈ chain, Covered n)
    (hw : k.Internal w) :
    wp (prepareCgroups k p { rootpath := rootpath } mask chain)
      (fun state' w' => k.Internal w' ∧ (state'.final ≠ 0 → ∃ d, state'.dirfd = some d ∧ k.Free d ∧
        ∀ n ∈ chain.head?, ∃ m ∈ d.head?,
          m.bytes = (if n.confadmin.isSome then adminSuffix else []) ++ shown n))
      (fun _ w' => k.Internal w') w := by
  induction chain generalizing mask with
  | nil =>
    refine wp_mono (prepareRoot_internal hmounted hpath hw) ?_ (fun _ _ h => h)
    rintro state w₁ ⟨hw₁, hfinal, hdir⟩
    refine ⟨hw₁, fun hne => ?_⟩
    rw [hfinal] at hne
    obtain ⟨d, hd, hfree⟩ := hdir hne
    exact ⟨d, hd, hfree, by simp⟩
  | cons n above ih =>
    rw [prepareCgroups]
    split
    · exact hw
    rw [wp_bind]
    refine wp_mono (ih fun m hm => hcovered m (by simp [hm])) ?_ (fun _ _ h => h)
    rintro state w₁ ⟨hw₁, hdir⟩
    by_cases hzero : state.final = 0
    · rw [prepareMiddleCgroup, if_pos hzero]
      exact ⟨hw₁, fun hne => absurd hzero hne⟩
    · obtain ⟨prev, hprev, hfree, _⟩ := hdir hzero
      refine wp_mono (prepareMiddle_internal (hcovered n (by simp)) hzero hprev hfree hw₁) ?_
        (fun _ _ h => h)
      rintro state' w₂ ⟨hw₂, m, hm, hbytes, hfree'⟩
      exact ⟨hw₂, fun _ => ⟨m :: prev, hm, hfree', by simpa using hbytes⟩⟩

/-! ## The process -/

/-- The process is in one cgroup, and in no other one. -/
def Tree.Holds (t : Tree) (pid : Nat) (d : Dir) : Prop := ∀ e, (pid, e) ∈ t.procs ↔ e = d

theorem holds_move (t : Tree) (pid : Nat) (d : Dir) : (t.move pid d).Holds pid d := by
  intro e
  simp [Tree.move]

theorem effect_procs_decimal {pid : Nat} {t' : Tree}
    (h : k.effect t d .procs (.decimal pid) = some t') : t' = t.move pid d := by
  rw [Kernel.effect, pidOf_decimal] at h
  dsimp only at h
  split at h
  · exact (Option.some.inj h).symm
  · cases h

theorem enterLeaf_internal (hfinal : state.final ≠ 0) (hd : state.dirfd = some d)
    (hfree : k.Free d) (hw : k.Internal w) :
    wp (enterLeafCgroup k p state)
      (fun _ w' => k.Internal w' ∧ w'.tree.Holds p.pid (pidsLeafName :: d))
      (fun _ w' => k.Internal w') w := by
  rw [enterLeafCgroup, if_neg hfinal, hd]
  dsimp only
  rw [wp_bind]
  refine wp_mono (keeps_openExistingAtDir.also hw openExistingAtDir_spec) ?_ (fun _ _ h => h)
  rintro g w₁ ⟨hw₁, rfl, hopen⟩
  rw [openat_name pidsLeaf_bytes] at hopen
  split at hopen
  · cases hopen
    rw [wp_bind]
    have hproper := proper_pidsLeaf hfree (.decimal p.pid)
    refine wp_writeEntry (fun t hcgroup ht => ?_) ?_
    · refine wp_check (fun _ => ⟨?_, ?_⟩) ?_
      · exact stable_internal k _ _ _ hproper hw₁ (.write hcgroup ht)
      · rw [effect_procs_decimal ht]
        exact holds_move _ _ _
      · exact stable_internal k _ _ _ hproper hw₁ (.write hcgroup ht)
    · exact wp_check (fun h => absurd h (by decide))
        (stable_internal k _ _ _ hproper hw₁ (.none _))
  · cases hopen

/-! ## Runs -/

/-- Processes start and move between runs, into cgroups that exist. -/
def Kernel.Placed (k : Kernel) (t : Tree) : Prop :=
  ∀ q ∈ t.procs, k.IsCgroup q.2 ∧ t.dirs q.2 = true

/-- The states that any sequence of runs leads to, the runs that fail included. -/
inductive Kernel.Runs (k : Kernel) (t₀ : Tree) : World → Prop where
  | start : k.Runs t₀ ⟨t₀, []⟩
  | place {w : World} {procs : List (Nat × Dir)} (h : k.Runs t₀ w)
      (hprocs : k.Placed { w.tree with procs := procs }) :
      k.Runs t₀ ⟨{ w.tree with procs := procs }, w.calls⟩
  | run {w : World} {p : Process} {node : Family} {rootpath : Option CStr} (h : k.Runs t₀ w)
      (hrun : Admissible p node rootpath) : k.Runs t₀ (after (setCgroups k p node rootpath) w)

/-- What a call may do to the leaves for pids, and to the other cgroups. -/
def Kernel.Respects (k : Kernel) : Call → Prop
  | .mkdirat d _ => k.IsCgroup d → d.head? ≠ some pidsLeafName
  | .write d .procs _ => d.head? = some pidsLeafName
  | .write d _ _ => k.IsCgroup d → d.head? ≠ some pidsLeafName
  | _ => True

theorem Kernel.Proper.respects {c : Call} (h : k.Proper c) : k.Respects c := by
  cases c with
  | mkdirat d m => exact h d (List.suffix_refl d)
  | read d entry => trivial
  | readSelf => trivial
  | write d entry value =>
    cases entry with
    | procs => exact h.1
    | controllers => exact h d (List.suffix_refl d)
    | subtreeControl => exact h d (List.suffix_refl d)
    | setting c file => exact h d (List.suffix_refl d)

theorem dirs_suffix (t : Tree) (hd : t.dirs d = true) (he : e <:+ d) : t.dirs e = true := by
  obtain ⟨l, rfl⟩ := he
  induction l with
  | nil => exact hd
  | cons m l ih => exact ih (t.closed m _ hd)

/-- Processes in cgroups that exist are not below a leaf. -/
theorem Kernel.Placed.internal (hplaced : k.Placed t)
    (hdirs : ∀ m d, t.dirs (m :: d) = true → k.Free d) :
    ∀ q ∈ t.procs, k.IsCgroup q.2 ∧ k.Free q.2.tail := by
  intro q hq
  obtain ⟨hcgroup, hd⟩ := hplaced q hq
  refine ⟨hcgroup, ?_⟩
  cases hdir : q.2 with
  | nil =>
    rw [hdir] at hcgroup
    exact absurd (List.suffix_nil.mp hcgroup) k.mountNe
  | cons m d =>
    rw [hdir] at hd
    exact hdirs m d hd

theorem setCgroups_internal (hrun : Admissible p node rootpath) (hw : k.Internal w) :
    wp (setCgroups k p node rootpath)
      (fun state w' => k.Internal w' ∧ (state.final ≠ 0 → ∃ (m : Name) (d : Dir),
        state.dirfd = some (m :: d) ∧
          m.bytes = (if node.node.confadmin.isSome then adminSuffix else []) ++ shown node.node ∧
          w'.tree.Holds p.pid (pidsLeafName :: m :: d)))
      (fun _ w' => k.Internal w') w := by
  rw [setCgroups, wp_bind]
  refine wp_mono (prepareCgroups_internal hrun.mounted hrun.rootpath
    (fun n hn => ⟨(hrun.redpaths n hn).1, fun _ => (hrun.redpaths n hn).2⟩) hw) ?_ (fun _ _ h => h)
  rintro state w₁ ⟨hw₁, hdir⟩
  rw [wp_bind]
  by_cases hzero : state.final = 0
  · rw [enterLeafCgroup, if_pos hzero]
    exact ⟨hw₁, fun h => absurd hzero h⟩
  · obtain ⟨d, hd, hfree, hname⟩ := hdir hzero
    refine wp_mono (enterLeaf_internal hzero hd hfree hw₁) ?_ (fun _ _ h => h)
    rintro _ w₂ ⟨hw₂, hholds⟩
    obtain ⟨m, hm, hbytes⟩ := hname node.node rfl
    cases d with
    | nil => cases hm
    | cons m' d =>
      cases hm
      exact ⟨hw₂, fun _ => ⟨m, d, hd, hbytes, hholds⟩⟩

theorem runs_internal (hnoleaf : ∀ d, k.IsCgroup d → t₀.dirs d = true → d.head? ≠ some pidsLeafName)
    (hplaced : k.Placed t₀) (h : k.Runs t₀ w) : k.Internal w := by
  induction h with
  | start =>
    have hdirs : ∀ m d, t₀.dirs (m :: d) = true → k.Free d := fun m d hd e he hcgroup =>
      hnoleaf e hcgroup (dirs_suffix t₀ (t₀.closed m d hd) he)
    exact ⟨hdirs, hplaced.internal hdirs, by simp⟩
  | place h hprocs ih => exact ⟨ih.dirs, hprocs.internal ih.dirs, ih.calls⟩
  | run h hrun ih =>
    exact after_of_wp (wp_mono (setCgroups_internal hrun ih) (fun _ _ h => h.1) (fun _ _ h => h))

/-- **No internal process.** Over any sequence of runs, from a tree without leaves for pids, every
call respects the leaves; and a run that succeeds with something to do leaves its process in the
leaf of the cgroup of the last node. -/
theorem no_internal_process
    (hnoleaf : ∀ d, k.IsCgroup d → t₀.dirs d = true → d.head? ≠ some pidsLeafName)
    (hplaced : k.Placed t₀) (h : k.Runs t₀ w) :
    (∀ c ∈ w.calls, k.Respects c.2) ∧
    ∀ p node rootpath state w', Admissible p node rootpath →
      setCgroups k p node rootpath w = .ok state w' → state.final ≠ 0 →
      ∃ (m : Name) (d : Dir), state.dirfd = some (m :: d) ∧
        m.bytes = (if node.node.confadmin.isSome then adminSuffix else []) ++ shown node.node ∧
        w'.tree.Holds p.pid (pidsLeafName :: m :: d) := by
  have hinv := runs_internal hnoleaf hplaced h
  refine ⟨fun c hc => (hinv.calls c hc).respects, ?_⟩
  intro p node rootpath state w' hrun hok hfinal
  exact (wp_ok (setCgroups_internal hrun hinv) hok).2 hfinal

theorem no_internal_process_app :
    (∀ c ∈ (after (setCgroups sysKernel sysProcess (appFamily none) none) sysWorld).calls,
      sysKernel.Respects c.2) ∧
    ∀ p node rootpath state w', Admissible p node rootpath →
      setCgroups sysKernel p node rootpath
        (after (setCgroups sysKernel sysProcess (appFamily none) none) sysWorld) = .ok state w' →
      state.final ≠ 0 → ∃ (m : Name) (d : Dir), state.dirfd = some (m :: d) ∧
        m.bytes = (if node.node.confadmin.isSome then adminSuffix else []) ++ shown node.node ∧
        w'.tree.Holds p.pid (pidsLeafName :: m :: d) := by
  have hmount : ∀ d, sysKernel.IsCgroup d → sysWorld.tree.dirs d = true → d = sysMount := by
    intro d hcgroup hd
    have hne : d ≠ [] := fun h => absurd (List.suffix_nil.mp (h ▸ hcgroup)) sysKernel.mountNe
    have hsuffix : d <:+ sysMount := by
      simpa [sysWorld, Tree.ofDirs, hne] using hd
    exact hsuffix.eq_of_length_le (List.IsSuffix.length_le hcgroup)
  have hnoleaf : ∀ d, sysKernel.IsCgroup d → sysWorld.tree.dirs d = true →
      d.head? ≠ some pidsLeafName := by
    intro d hcgroup hd
    rw [hmount d hcgroup hd]
    decide
  have hplaced : sysKernel.Placed sysWorld.tree := by
    intro q hq
    cases List.mem_singleton.mp hq
    exact ⟨List.suffix_refl _, by decide⟩
  exact no_internal_process hnoleaf hplaced
    (.run .start ⟨by decide, fun _ h => (by cases h), by decide⟩)

end Cgroup
end RedPak
