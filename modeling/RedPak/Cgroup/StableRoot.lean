import RedPak.Cgroup.NoInternal

/-!
# Cgroup.StableRoot

The root cgroup of a run that starts where another run has left the process.

* `climb`: up from a place while it is marked.
* `findRootLoop_climb`: the search of the root, on the components of the path.
* `root_stable_iff`: when the second run finds the root of the first one.
-/

namespace RedPak
namespace Cgroup

open Conf Layered Layered.Action

/-! ## Climbing -/

section

variable {α : Type*} {marked : List α → Bool}

/-- The last marked place on the way up, while all places are marked; `found` if the first is
not. -/
def climb (marked : List α → Bool) (found : List α) : List α → List α
  | [] => found
  | a :: rs => if marked (a :: rs) then climb marked (a :: rs) rs else found

theorem climb_suffix (found rs : List α) :
    climb marked found rs = found ∨ climb marked found rs <:+ rs := by
  induction rs generalizing found with
  | nil => exact .inl rfl
  | cons a rs ih =>
    rw [climb]
    split
    · rcases ih (a :: rs) with h | h
      · exact .inr (by rw [h])
      · exact .inr (h.trans (List.suffix_cons a rs))
    · exact .inl rfl

/-- All places down from `r` are marked. -/
theorem climb_append {found l r : List α} (hr : r ≠ [])
    (h : ∀ r', r <:+ r' → r' <:+ l ++ r → marked r' = true) :
    climb marked found (l ++ r) = climb marked r r.tail := by
  induction l generalizing found with
  | nil =>
    obtain ⟨a, r, rfl⟩ := List.exists_cons_of_ne_nil hr
    rw [List.nil_append, climb, if_pos (h _ (List.suffix_refl _) (List.suffix_refl _))]
    rfl
  | cons a l ih =>
    rw [List.cons_append, climb,
      if_pos (h (a :: (l ++ r)) ⟨a :: l, rfl⟩ (List.suffix_refl _))]
    exact ih fun r' hr' hl => h r' hr' (hl.trans (List.suffix_cons a _))

theorem climb_eq_iff {r : List α} (hr : r ≠ []) :
    climb marked r r.tail = r ↔ r.tail = [] ∨ marked r.tail = false := by
  obtain ⟨a, r, rfl⟩ := List.exists_cons_of_ne_nil hr
  rw [List.tail_cons]
  cases r with
  | nil => simp [climb]
  | cons b r =>
    cases hmarked : marked (b :: r) with
    | false => simp [climb, hmarked]
    | true =>
      have hlen : (climb marked (b :: r) r).length < (a :: b :: r).length := by
        rcases @climb_suffix _ marked (b :: r) r with h | h
        · simp [h]
        · exact Nat.lt_of_le_of_lt h.length_le (by simp only [List.length_cons]; omega)
      rw [climb, if_pos hmarked]
      refine iff_of_false (fun h => ?_) (by simp)
      rw [h] at hlen
      exact Nat.lt_irrefl _ hlen

end

variable {k : Kernel} {p : Process} {t : Tree} {w w' : World} {d e : Dir} {b : Buffer UInt8}

/-! ## The search on components -/

/-- The directory that the components of a path lead to, from the root of the file system. Without
any the path is empty: it does not end with a slash. -/
def Kernel.reach (k : Kernel) (t : Tree) (components : List (List UInt8)) : Option Dir :=
  if components = [] then none
  else (k.walk t [] components).filter fun e => t.dirs e && !k.denied e

/-- There is a leaf for pids, innermost component first. -/
def Kernel.marked (k : Kernel) (t : Tree) (rs : List (List UInt8)) : Bool :=
  ((k.reach t rs.reverse).bind (k.lookup t · pidsLeafName.bytes)).isSome

theorem openat_absolute {path : CStr} (h : path.bytes = [] ∨ path.bytes.head? = some slash)
    (hlast : path.bytes.getLast? ≠ some slash) :
    k.openat t d path = k.reach t (fields slash path.bytes) := by
  rcases eq_or_ne path.bytes [] with hnil | hne
  · rw [Kernel.openat, if_pos hnil, hnil, fields_nil, Kernel.reach, if_pos rfl]
  · have hfields : fields slash path.bytes ≠ [] := by
      rw [fields_eq_concat hne hlast]
      simp
    rw [Kernel.openat, if_neg hne, if_pos (h.resolve_left hne), Kernel.reach, if_neg hfields]

theorem slice_stripName (b : Buffer UInt8) (n : Nat) :
    b.slice 0 (stripName b n) = (b.slice 0 n).rdropWhile (· != slash) := by
  induction n with
  | zero => rfl
  | succ n ih =>
    rw [stripName, Buffer.slice_concat (Nat.zero_le n)]
    split
    · rename_i h
      rw [List.rdropWhile_concat_pos _ _ _ (by simpa using h), ih]
    · rename_i h
      rw [List.rdropWhile_concat_neg _ _ _ (by simpa using h), Buffer.slice_concat (Nat.zero_le n)]

theorem fields_parent {n : Nat} (hne : b.slice 0 n ≠ []) (h : (b.slice 0 n).getLast? ≠ some slash) :
    ∃ last, fields slash (b.slice 0 n) =
      fields slash (b.slice 0 (stripSlashes b (stripName b n))) ++ [last] := by
  rw [fields_stripSlashes, slice_stripName]
  exact ⟨_, fields_eq_concat hne h⟩

/-- **The search** climbs on the components. -/
theorem findRootLoop_climb {limit length found : Nat} (hhead : b 0 = slash)
    (hnul : (0 : UInt8) ∉ b.slice 0 limit) (hle : length ≤ limit)
    (h : (b.slice 0 length).getLast? ≠ some slash) :
    (fields slash (b.slice 0 (findRootLoop k t b length found))).reverse =
      climb (k.marked t) (fields slash (b.slice 0 found)).reverse
        (fields slash (b.slice 0 length)).reverse := by
  have hmarked : ∀ n, n ≠ 0 → n ≤ limit → (b.slice 0 n).getLast? ≠ some slash →
      k.marked t (fields slash (b.slice 0 n)).reverse =
        ((k.openat t k.cwd (.ofBytes (b.slice 0 n))).bind
          (k.lookup t · pidsLeafName.bytes)).isSome := by
    intro n hn hle hlast
    have hnul' : (0 : UInt8) ∉ b.slice 0 n := by
      intro hmem
      rw [← Buffer.slice_append (Nat.zero_le n) hle] at hnul
      exact hnul (List.mem_append_left _ hmem)
    have hhead' : (b.slice 0 n).head? = some slash :=
      Buffer.head?_slice_eq_some.mpr ⟨Nat.pos_of_ne_zero hn, hhead⟩
    rw [Kernel.marked, List.reverse_reverse, openat_absolute, CStr.bytes_ofBytes hnul']
    · rw [CStr.bytes_ofBytes hnul']
      exact .inr hhead'
    · rwa [CStr.bytes_ofBytes hnul']
  fun_induction findRootLoop k t b length found with
  | case1 found => simp [climb]
  | case2 length found hzero hnone =>
    have hstop := hmarked length hzero hle h
    rw [hnone] at hstop
    cases hrs : (fields slash (b.slice 0 length)).reverse with
    | nil => rfl
    | cons a rs =>
      rw [hrs] at hstop
      rw [climb, hstop]
      rfl
  | case3 length found hzero d hd hnone =>
    have hstop := hmarked length hzero hle h
    rw [hd, Option.bind_some, hnone] at hstop
    cases hrs : (fields slash (b.slice 0 length)).reverse with
    | nil => rfl
    | cons a rs =>
      rw [hrs] at hstop
      rw [climb, hstop]
      rfl
  | case4 length found hzero d hd e he ih =>
    have hup := hmarked length hzero hle h
    rw [hd, Option.bind_some, he, Option.isSome_some] at hup
    have hne : b.slice 0 length ≠ [] := fun hnil =>
      hzero (by simpa using congrArg List.length hnil)
    obtain ⟨last, hlast⟩ := fields_parent hne h
    have hle' := Nat.le_of_lt (parentLength_lt b hzero)
    rw [ih (hle'.trans hle) (getLast?_stripSlashes _ _)]
    rw [hlast, List.reverse_append, List.reverse_singleton, List.singleton_append] at hup ⊢
    rw [climb, if_pos hup]

/-! ## Where a process is -/

theorem setCgroupPath_fits {pfx : CStr} {dest : PathBuffer} {src : List UInt8}
    (h : (cgroupPathText pfx src).length < pathMax) :
    ∃ found, setCgroupPath pfx dest src = .ok found := by
  unfold setCgroupPath
  unfold cgroupPathText at h
  dsimp only at h ⊢
  by_cases hc : src.length < pfx.bytes.length ∨ src.take pfx.bytes.length ≠ pfx.bytes
  · simp only [if_pos hc] at h ⊢
    rw [List.length_append, List.length_append] at h
    rw [if_neg (by omega)]
    by_cases hs : pfx.bytes = [] ∨ pfx.bytes.getLast? ≠ some slash
    · have hs' : pfx.bytes.length = 0 ∨ pfx.bytes.getLast? ≠ some slash := by
        rwa [List.length_eq_zero_iff]
      simp only [if_pos hs, if_pos hs', List.length_singleton] at h ⊢
      rw [if_neg (by omega), if_neg (by omega)]
      exact ⟨_, rfl⟩
    · have hs' : ¬ (pfx.bytes.length = 0 ∨ pfx.bytes.getLast? ≠ some slash) := by
        rwa [List.length_eq_zero_iff]
      simp only [if_neg hs, if_neg hs', List.length_nil] at h ⊢
      rw [if_neg (fun hbad => hs' hbad.1), if_neg (by omega)]
      exact ⟨_, rfl⟩
  · simp only [if_neg hc, true_or, if_true, List.nil_append, List.length_append,
      List.length_singleton] at h ⊢
    rw [if_neg (fun hbad => hc hbad.1), if_neg (by simp [pathMax]), if_neg (by omega)]
    exact ⟨_, rfl⟩

theorem wp_call_iff {c : Call} {Q : Bool → World → Prop} {E : Stop → World → Prop} :
    wp (k.call c) Q E w ↔ Q (!k.refuses w c) ⟨w.tree, (w.tree, c) :: w.calls⟩ := by
  simp only [Kernel.call, wp_bind, wp_get, wp_set, wp_pure]

variable {pid : Nat}

/-- The path of the current cgroup is found when it can be read and fits. -/
theorem makeRootPath_fits (hfind : w.tree.procs.find? (·.1 = p.pid) = some (pid, d))
    (hgranted : k.refuses w .readSelf = false)
    (hfits : (cgroupPathText p.cgroupRoot (k.selfPath p w.tree)).length < pathMax) :
    ∃ state w', makeRootPath k p { rootpath := none } w = .ok state w' := by
  have htext : (CStr.lit "0::").bytes <+: (k.selfText w.tree p.pid).take pathMax := by
    refine List.prefix_take_iff.mpr ⟨?_, by decide⟩
    rw [Kernel.selfText, hfind]
    exact ⟨k.relative d ++ [newline], by simp⟩
  obtain ⟨found, hfound⟩ :=
    @setCgroupPath_fits p.cgroupRoot (fun _ => none) (k.selfPath p w.tree) hfits
  have hok : wp (makeRootPath k p { rootpath := none }) (fun _ _ => True) (fun _ _ => False) w := by
    rw [makeRootPath, wp_bind]
    unfold initialPath
    dsimp only
    rw [getCurrentCgroup, wp_bind, wp_call_iff, wp_bind, wp_get, hgranted]
    dsimp only
    rw [if_pos ⟨rfl, htext⟩]
    unfold Kernel.selfPath at hfound
    rw [hfound]
    trivial
  obtain ⟨state, w', hrun, _⟩ := exists_ok hok
  exact ⟨state, w', hrun⟩

theorem makeRootPath_granted {state : CgroupT}
    (h : makeRootPath k p { rootpath := none } w = .ok state w') :
    k.refuses w .readSelf = false := by
  have hgranted : wp (makeRootPath k p { rootpath := none })
      (fun _ _ => k.refuses w .readSelf = false) (fun _ _ => True) w := by
    rw [makeRootPath, wp_bind]
    unfold initialPath
    dsimp only
    rw [getCurrentCgroup, wp_bind, wp_call_iff, wp_bind, wp_get, wp_ite]
    split
    · rename_i hread
      have hno : k.refuses w .readSelf = false := by simpa using hread.1
      split
      · exact hno
      · trivial
    · trivial
  exact wp_ok (Q := fun _ _ => k.refuses w .readSelf = false) hgranted h

/-! ## The second run -/

/-- The path that a run without a configured root searches, where a process is. -/
def Kernel.searched (k : Kernel) (p : Process) (t : Tree) : List UInt8 :=
  cgroupPathText p.cgroupRoot (k.selfPath p t)

/-- The components of it that the search starts from, innermost first. -/
def Kernel.place (k : Kernel) (p : Process) (t : Tree) : List (List UInt8) :=
  ((fields slash (k.searched p t)).rdropWhile (· == pidsLeafName.bytes)).reverse

/-- `make_root_path` computes the path of this root. -/
def FindsRoot (k : Kernel) (p : Process) (w : World) (root : Dir) : Prop :=
  ∃ state w' path, makeRootPath k p { rootpath := none } w = .ok state w' ∧
    p.string state.path 0 = some path ∧ k.openat w'.tree k.cwd path = some root

theorem head?_cgroupPathText {pfx : CStr} (h : pfx.bytes.head? = some slash) (src : List UInt8) :
    (cgroupPathText pfx src).head? = some slash := by
  have hne : pfx.bytes ≠ [] := by
    rintro hnil
    simp [hnil] at h
  rw [cgroupPathText]
  by_cases hc : src.length < pfx.bytes.length ∨ src.take pfx.bytes.length ≠ pfx.bytes
  · rw [if_pos hc, List.append_assoc, List.head?_append_of_ne_nil _ hne, h]
  · rw [if_neg hc]
    rfl

theorem take_absolute {text : List UInt8} (h : text.head? = some slash) (m : Nat) :
    text.take m = [] ∨ (text.take m).head? = some slash := by
  cases m with
  | zero => exact .inl rfl
  | succ m => exact .inr (by rw [List.head?_take, if_neg (by simp), h])

/-- **The root that is found** is where the way up ends, from the place of the process. -/
theorem findsRoot_iff {root : Dir} (habs : p.cgroupRoot.bytes.head? = some slash)
    (hfind : w.tree.procs.find? (·.1 = p.pid) = some (pid, d)) :
    FindsRoot k p w root ↔ k.refuses w .readSelf = false ∧
      (k.searched p w.tree).length < pathMax ∧
      k.reach w.tree (climb (k.marked w.tree) (k.place p w.tree) (k.place p w.tree)).reverse =
        some root := by
  have hnul : ∀ m, (0 : UInt8) ∉ (k.searched p w.tree).take m := fun m hmem =>
    nulFree_cgroupPathText (nulFree_rootSource none w.tree) (List.mem_of_mem_take hmem)
  -- what a path that is computed opens
  have hopens : ∀ state w', makeRootPath k p { rootpath := none } w = .ok state w' →
      (k.searched p w.tree).length < pathMax ∧ ∃ path, p.string state.path 0 = some path ∧
        k.openat w'.tree k.cwd path =
          k.reach w.tree
            (climb (k.marked w.tree) (k.place p w.tree) (k.place p w.tree)).reverse := by
    intro state w' hrun
    obtain ⟨htree, path, hspelled, rfl⟩ := wp_ok makeRootPath_spec hrun
    change Spelled path (k.searched p w.tree) at hspelled
    have hhead : p.bytes path 0 = slash := by
      have hslice := bytes_slice hspelled.slice p
      have htext : (k.searched p w.tree).head? = some slash := head?_cgroupPathText habs _
      rw [← hslice, Buffer.head?_slice_eq_some] at htext
      exact htext.2
    obtain ⟨hfields, hlast⟩ := hspelled.fields_searchStart p
    -- the search goes up from its start to the root that is found
    have hsearch := @findRootLoop_climb k w.tree (p.bytes path) (k.searched p w.tree).length
      (searchStart (p.bytes path) (k.searched p w.tree).length)
      (searchStart (p.bytes path) (k.searched p w.tree).length) hhead
      (by rw [← hspelled.take_eq p (Nat.le_refl _)]; exact hnul _) (searchStart_le _ _)
      (by rw [← hspelled.take_eq p (searchStart_le _ _)]; exact hlast)
    rw [← hspelled.take_eq p (searchStart_le _ _), hfields] at hsearch
    have hle := @findRednodeRoot_le k w.tree (p.bytes path) (k.searched p w.tree).length
    have hfound : fields slash ((k.searched p w.tree).take
        (findRednodeRoot k w.tree (p.bytes path) (k.searched p w.tree).length)) =
        (climb (k.marked w.tree) (k.place p w.tree) (k.place p w.tree)).reverse := by
      rw [hspelled.take_eq p hle, Kernel.place, ← hsearch, List.reverse_reverse]
      rfl
    refine ⟨hspelled.fits, _, (hspelled.cut hle).string (hnul _) p, ?_⟩
    rw [htree, openat_absolute, CStr.bytes_ofBytes (hnul _)]
    · exact congrArg _ hfound
    · rw [CStr.bytes_ofBytes (hnul _)]
      exact take_absolute (head?_cgroupPathText habs _) _
    · rw [CStr.bytes_ofBytes (hnul _), hspelled.take_eq p hle]
      rw [hspelled.take_eq p (searchStart_le _ _)] at hlast
      exact getLast?_findRootLoop _ _ _ _ hlast hlast
  constructor
  · rintro ⟨state, w', path, hrun, hstring, hopen⟩
    obtain ⟨hfits, path', hstring', hopen'⟩ := hopens state w' hrun
    rw [hstring, Option.some.injEq] at hstring'
    subst hstring'
    exact ⟨makeRootPath_granted hrun, hfits, hopen' ▸ hopen⟩
  · rintro ⟨hgranted, hfits, hreach⟩
    obtain ⟨state, w', hrun⟩ := makeRootPath_fits hfind hgranted hfits
    obtain ⟨_, path, hstring, hopen⟩ := hopens state w' hrun
    exact ⟨state, w', path, hrun, hstring, hopen.trans hreach⟩

/-! ## The first run -/

/-- A directory that can be opened and holds a leaf for pids. -/
def Kernel.Marked (k : Kernel) (t : Tree) (d : Dir) : Prop :=
  k.denied d = false ∧ t.dirs (pidsLeafName :: d) = true

/-- All directories on the way can be searched. -/
def Kernel.Above (k : Kernel) (d : Dir) : Prop := ∀ e, e <:+ d → e ≠ d → k.denied e = false

theorem lookup_denied {component : List UInt8} (h : k.lookup t d component = some e) :
    k.denied d = false := by
  unfold Kernel.lookup at h
  split at h
  · cases h
  · rename_i hdenied
    simpa using hdenied

theorem Kernel.Above.lookup {component : List UInt8} (hd : k.Above d)
    (h : k.lookup t d component = some e) : k.Above e := by
  intro f hf hne
  by_cases hplain : Plain component
  · obtain ⟨m, _, rfl, _⟩ := lookup_plain hplain h
    rcases List.suffix_cons_iff.mp hf with heq | hf
    · exact absurd heq hne
    · rcases eq_or_ne f d with rfl | hfd
      · exact lookup_denied h
      · exact hd f hf hfd
  · have he := lookup_not_plain hplain h
    refine hd f (hf.trans he) fun heq => hne ?_
    subst heq
    exact hf.eq_of_length_le he.length_le

theorem Kernel.Above.walk {components : List (List UInt8)} (hd : k.Above d)
    (h : k.walk t d components = some e) : k.Above e := by
  induction components generalizing d with
  | nil =>
    cases h
    exact hd
  | cons component components ih =>
    rw [Kernel.walk, List.foldlM_cons, Option.bind_eq_bind, Option.bind_eq_some_iff] at h
    obtain ⟨d', hd', hw⟩ := h
    exact ih (hd.lookup hd') hw

theorem above_nil (k : Kernel) : k.Above [] := fun _ he hne => absurd (List.suffix_nil.mp he) hne

/-- **The names** of a directory lead to it. -/
theorem walk_names (hdirs : t.dirs d = true) (h : k.Above d) :
    k.walk t [] (d.map (·.bytes)).reverse = some d := by
  induction d with
  | nil => rfl
  | cons m d ih =>
    have hup : k.Above d := fun e he hne => h e (he.trans (List.suffix_cons m d)) fun heq => by
      subst heq
      exact absurd he.length_le (by simp)
    have hdenied : k.denied d = false := h d (List.suffix_cons m d) (by simp)
    rw [List.map_cons, List.reverse_cons, walk_append, ih (t.closed m d hdirs) hup,
      Option.bind_some, walk_singleton, lookup_name, if_pos ⟨hdenied, hdirs⟩]

theorem reach_names (hne : d ≠ []) (hdirs : t.dirs d = true) (h : k.Above d) :
    k.reach t (d.map (·.bytes)).reverse = if k.denied d = false then some d else none := by
  rw [Kernel.reach, if_neg (by simpa using hne), walk_names hdirs h]
  cases hdenied : k.denied d <;> simp [hdirs, hdenied, Option.filter]

theorem marked_names (hne : d ≠ []) (hdirs : t.dirs d = true) (h : k.Above d) :
    k.marked t (d.map (·.bytes)) = true ↔ k.Marked t d := by
  rw [Kernel.marked, reach_names hne hdirs h, Kernel.Marked]
  cases hdenied : k.denied d with
  | true => simp
  | false => simp [lookup_name, hdenied]

theorem moveProcs_cgroup : wp (moveProcs k p d e)
    (fun _ w' => k.IsCgroup d ∧ w.tree.Grows w'.tree) (fun _ _ => True) w := by
  rw [moveProcs, wp_bind]
  refine wp_readEntry (fun hcgroup => ?_) trivial
  refine wp_mono (keeps_readPids (stable_grows k w.tree) trivial (fun _ => trivial) _ _ _ _
    (.refl _)) (fun _ _ h => ⟨hcgroup, h⟩) (fun _ _ _ => trivial)

theorem mkdirat_pidsLeaf : wp (k.mkdirat d pidsLeaf)
    (fun _ w' => w'.tree.dirs (pidsLeafName :: d) = true) (fun _ _ => True) w := by
  refine wp_mkdirat (fun hold => ?_) trivial fun parent n hl _ => ⟨fun h => ?_, trivial⟩
  · exact hold d pidsLeafName ⟨[], by rw [pidsLeaf_bytes, pidsLeafName.isField.fields_eq]; rfl,
      by rw [pidsLeaf_bytes, if_neg pidsLeafName.head?_ne]; rfl⟩
  · obtain ⟨rfl, rfl⟩ := leads_name pidsLeaf_bytes hl
    simp [Tree.mkdir]

theorem Kernel.Marked.grows {t' : Tree} (h : k.Marked t d) (ht : t.Grows t') : k.Marked t' d :=
  ⟨h.1, ht.dirs _ h.2⟩

theorem marked_of_open (h : k.openat t d pidsLeaf = some e) : k.Marked t d := by
  rw [openat_name pidsLeaf_bytes] at h
  split at h
  · rename_i hopen
    exact ⟨hopen.1, hopen.2.1⟩
  · cases h

theorem openat_denied {path : CStr} (h : k.openat t d path = some e) : k.denied e = false := by
  unfold Kernel.openat at h
  split at h
  · cases h
  have hfilter := (Option.filter_eq_some_iff.mp h).2
  rw [Bool.and_eq_true] at hfilter
  simpa using hfilter.2

theorem openat_above {path : CStr} (h : path.bytes = [] ∨ path.bytes.head? = some slash)
    (hopen : k.openat t d path = some e) : k.Above e := by
  unfold Kernel.openat at hopen
  split at hopen
  · cases hopen
  rename_i hne
  have hwalk := (Option.filter_eq_some_iff.mp hopen).1
  rw [if_pos (h.resolve_left hne)] at hwalk
  exact (above_nil k).walk hwalk

/-- The root cgroup of a run. -/
structure Kernel.RootOf (k : Kernel) (t : Tree) (d : Dir) : Prop where
  cgroup : k.IsCgroup d
  above : k.Above d
  marked : k.Marked t d

variable {state base : CgroupT} {mask : Ctrlmask} {rootpath : Option CStr} {n : RedNode}

theorem prepareRoot_rootOf (habs : p.cgroupRoot.bytes.head? = some slash) :
    wp (prepareRootCgroup k p state mask)
      (fun base w' => mask ≠ 0 → ∃ root, base.dirfd = some root ∧ k.RootOf w'.tree root)
      (fun _ _ => True) w := by
  rw [prepareRootCgroup, wp_ite]
  split
  · rename_i hzero
    exact fun h => absurd hzero h
  rw [wp_bind]
  refine wp_mono makeRootPath_spec ?_ (fun _ _ _ => trivial)
  rintro _ w₁ ⟨htree, path, hspelled, rfl⟩
  have hnul := fun m (hmem : (0 : UInt8) ∈ (cgroupPathText p.cgroupRoot
      (k.rootSource p state.rootpath w.tree)).take m) =>
    nulFree_cgroupPathText (nulFree_rootSource _ _) (List.mem_of_mem_take hmem)
  rw [wp_bind, wp_get, (hspelled.cut (findRednodeRoot_le _ _ _)).string (hnul _)]
  dsimp only
  split
  · trivial
  rename_i root hopen
  have habove : k.Above root := by
    refine openat_above ?_ hopen
    rw [CStr.bytes_ofBytes (hnul _)]
    exact take_absolute (head?_cgroupPathText habs _) _
  rw [wp_bind]
  refine wp_mono openCgroupAtDir_spec ?_ (fun _ _ _ => trivial)
  rintro ⟨pidfd, created⟩ w₂ ⟨_, hleaf⟩
  rw [wp_bind]
  refine wp_mono moveProcs_cgroup ?_ (fun _ _ _ => trivial)
  rintro _ w₃ ⟨hcgroup, hgrows⟩
  rw [wp_bind]
  refine wp_mono (keeps_ensure (stable_grows k w₃.tree) (fun _ _ => trivial) (fun _ _ _ => trivial)
    w₃ (.refl _)) ?_ (fun _ _ _ => trivial)
  intro _ w₄ hgrows'
  exact fun _ => ⟨root, rfl, hcgroup, habove, ((marked_of_open hleaf).grows hgrows).grows hgrows'⟩

theorem prepareMiddle_marked {prev : Dir} (hn : Covered n) (hfinal : state.final ≠ 0)
    (hprev : state.dirfd = some prev) :
    wp (prepareMiddleCgroup k p state n mask)
      (fun state' w' => w.tree.Grows w'.tree ∧ ∃ m : Name, state'.dirfd = some (m :: prev) ∧
        m.bytes = (if n.confadmin.isSome then adminSuffix else []) ++ shown n ∧
          k.Marked w'.tree (m :: prev))
      (fun _ _ => True) w := by
  rw [prepareMiddleCgroup, if_neg hfinal]
  dsimp only
  rw [hprev]
  split
  · rename_i len path dirfd htranslated hdirfd
    cases hdirfd
    split
    · trivial
    rename_i name hstring
    rw [wp_bind]
    refine wp_mono openCgroupAtDir_spec ?_ (fun _ _ _ => trivial)
    rintro ⟨g, created⟩ w₁ ⟨hgrows, hopen⟩
    obtain ⟨m, rfl, hm⟩ := opened_child hn htranslated hstring hopen
    have hdenied := openat_denied hopen
    have hstable := stable_grows k w₁.tree
    rw [wp_bind]
    refine wp_mono (wp_and (keeps_mkdirat hstable (fun _ _ _ _ _ => trivial) w₁ (.refl _))
      mkdirat_pidsLeaf) ?_ (fun _ _ _ => trivial)
    rintro _ w₂ ⟨h₂, hleaf⟩
    have hstable' := stable_grows k w₂.tree
    rw [wp_bind]
    refine wp_mono (keeps_writeEntries hstable' (fun _ _ _ => trivial) w₂ (.refl _)) ?_
      (fun _ _ _ => trivial)
    intro nerr w₃ h₃
    rw [wp_bind]
    refine wp_check (fun _ => ?_) trivial
    rw [wp_bind]
    refine wp_mono (keeps_ensure hstable' (fun _ _ => trivial) (fun _ _ _ => trivial) w₃ h₃) ?_
      (fun _ _ _ => trivial)
    intro _ w₄ h₄
    exact ⟨hgrows.trans (h₂.trans h₄), m, rfl, hm, hdenied, h₄.dirs _ hleaf⟩
  · trivial

/-- **The cgroups of a run** are marked, from the root cgroup down to that of the last node. -/
theorem prepareCgroups_marked {start : CgroupT} {below above : List RedNode} {w₀ : World}
    {root : Dir} (hmask : maskOf (below ++ above) ≠ 0) (hcovered : ∀ n ∈ above, Covered n)
    (hbase : prepareCgroups k p start (maskOf (below ++ above)) [] w = .ok base w₀)
    (hroot : base.dirfd = some root) (hrootOf : k.RootOf w₀.tree root)
    (h : prepareCgroups k p start (maskOf below) above w = .ok state w') :
    w₀.tree.Grows w'.tree ∧ ∃ names : List Name, state.dirfd = some (names ++ root) ∧
      names.map (·.bytes) =
        above.map (fun n => (if n.confadmin.isSome then adminSuffix else []) ++ shown n) ∧
      ∀ e, root <:+ e → e <:+ names ++ root → k.Marked w'.tree e := by
  induction above generalizing below state w' with
  | nil =>
    rw [List.append_nil, h] at hbase
    cases hbase
    refine ⟨.refl _, [], hroot, rfl, fun e he he' => ?_⟩
    have heq : e = root := he'.eq_of_length_le he.length_le
    rw [heq]
    exact hrootOf.marked
  | cons n above ih =>
    obtain ⟨state₁, w₁, habove, hmiddle⟩ := prepareCgroups_cons_ok h
    rw [← maskOf_concat] at habove
    have hsplit : below ++ n :: above = (below ++ [n]) ++ above := by simp
    rw [hsplit] at hmask hbase
    have hfinal : state₁.final ≠ 0 := by
      rw [prepareCgroups_final habove]
      exact hmask
    obtain ⟨hgrows, names, hprev, hnames, hmarked⟩ :=
      ih hmask (fun m hm => hcovered m (by simp [hm])) hbase habove
    obtain ⟨hgrows', m, hd, hm, hmarked'⟩ :=
      wp_ok (prepareMiddle_marked (hcovered n (by simp)) hfinal hprev) hmiddle
    refine ⟨hgrows.trans hgrows', m :: names, hd, by rw [List.map_cons, hm, hnames]; rfl, ?_⟩
    intro e he he'
    rcases List.suffix_cons_iff.mp he' with rfl | he'
    · exact hmarked'
    · exact (hmarked e he he').grows hgrows'

/-! ## Two runs -/

/-- A run without a configured root: its root cgroup, and the cgroup of its last node. -/
structure Ran (k : Kernel) (p : Process) (node : Family) (w w' : World) (root d : Dir) : Prop where
  rooted : ∃ base w₀, prepareRootCgroup k p { rootpath := none }
    (maskOf (node.node :: node.parents)) w = .ok base w₀ ∧ base.dirfd = some root
  settled : ∃ state, setCgroups k p node none w = .ok state w' ∧ state.final ≠ 0 ∧
    state.dirfd = some d

/-- A process can read where it is, in the leaf of a cgroup, and the path of it can be searched. -/
structure Readable (k : Kernel) (p : Process) (w : World) (d : Dir) : Prop where
  granted : k.refuses w .readSelf = false
  read : (k.relative (pidsLeafName :: d)).length ≤ pathMax - 3
  fits : (cgroupPathText p.cgroupRoot (k.relative (pidsLeafName :: d))).length < pathMax
  below : Copied p.cgroupRoot (k.relative (pidsLeafName :: d))

/-- The path of the mount point. -/
structure Mounted (k : Kernel) (p : Process) : Prop where
  absolute : p.cgroupRoot.bytes.head? = some slash
  names : fields slash p.cgroupRoot.bytes = (k.mount.map (·.bytes)).reverse

/-- Where the second search starts: at the cgroup in whose leaf the process is. -/
theorem place_leaf (hmounted : Mounted k p) (hreadable : Readable k p w d)
    (hcgroup : k.IsCgroup d) (hleaf : d.head? ≠ some pidsLeafName)
    (hfind : w.tree.procs.find? (·.1 = p.pid) = some (pid, pidsLeafName :: d)) :
    (k.searched p w.tree).length < pathMax ∧ k.place p w.tree = d.map (·.bytes) := by
  have hself : k.selfPath p w.tree = k.relative (pidsLeafName :: d) := by
    rw [selfPath_eq hfind, List.take_of_length_le hreadable.read]
  have hfields : fields slash (k.searched p w.tree) =
      (d.map (·.bytes)).reverse ++ [pidsLeafName.bytes] := by
    have hnames : ∀ f ∈ (k.below (pidsLeafName :: d)).map (·.bytes), IsField slash f := by
      intro f hf
      obtain ⟨m, _, rfl⟩ := List.mem_map.mp hf
      exact m.isField
    have hsplit := congrArg (fun l => (l.map (·.bytes)).reverse)
      (eq_below_append (hcgroup.trans (List.suffix_cons pidsLeafName d)))
    rw [Kernel.searched, hself, fields_cgroupPathText, if_pos hreadable.below, hmounted.names,
      relative_eq, fields_sep_cons, fields_joined hnames]
    simpa using hsplit.symm
  refine ⟨by rw [Kernel.searched, hself]; exact hreadable.fits, ?_⟩
  have hstop : ((d.map (·.bytes)).reverse).rdropWhile (· == pidsLeafName.bytes) =
      (d.map (·.bytes)).reverse := by
    rw [List.rdropWhile_reverse]
    refine congrArg _ ?_
    cases d with
    | nil => rfl
    | cons m d =>
      have hm : m ≠ pidsLeafName := fun h => hleaf (by rw [h]; rfl)
      exact List.dropWhile_cons_of_neg (by simpa using fun h => hm (Name.ext h))
  rw [Kernel.place, hfields, List.rdropWhile_concat_pos _ _ _ (by simp), hstop,
    List.reverse_reverse]

/-- What a run leaves between its root cgroup and the cgroup of its last node. -/
structure Kernel.Lined (k : Kernel) (t : Tree) (root d : Dir) : Prop where
  cgroup : k.IsCgroup root
  below : root <:+ d
  above : k.Above d
  noLeaf : d.head? ≠ some pidsLeafName
  marked : ∀ e, root <:+ e → e <:+ d → k.Marked t e

theorem Ran.lined {node : Family} {root : Dir} (hmounted : Mounted k p)
    (h : Ran k p node w w' root d) (hcovered : ∀ n ∈ node.node :: node.parents, Covered n) :
    k.Lined w'.tree root d := by
  obtain ⟨⟨base, w₀, hbase, hroot⟩, state, hrun, hfinal, hd⟩ := h
  obtain ⟨w₁, hprepared, henter⟩ := setCgroups_ok hrun
  have hmask : maskOf ([] ++ node.node :: node.parents) ≠ 0 := by
    rw [← prepareCgroups_final hprepared]
    exact hfinal
  obtain ⟨root', hroot', hrootOf⟩ := wp_ok (prepareRoot_rootOf hmounted.absolute) hbase hmask
  rw [hroot, Option.some.injEq] at hroot'
  subst hroot'
  obtain ⟨_, names, hstate, hnames, hmarked⟩ :=
    prepareCgroups_marked hmask hcovered hbase hroot hrootOf hprepared
  rw [hd, Option.some.injEq] at hstate
  subst hstate
  have hkeeps : Keeps (w₁.tree.Grows ·.tree) (enterLeafCgroup k p state) :=
    keeps_enterLeaf (stable_grows k w₁.tree) fun _ _ => trivial
  have hgrows : w₁.tree.Grows w'.tree := wp_ok (Q := fun _ w' => w₁.tree.Grows w'.tree)
    (hkeeps w₁ (.refl _)) henter
  refine ⟨hrootOf.cgroup, List.suffix_append _ _, fun e he hne => ?_, ?_, fun e he he' =>
    (hmarked e he he').grows hgrows⟩
  · -- below the root the cgroups are marked, above it the path of the root was searched
    rcases List.suffix_or_suffix_of_suffix (List.suffix_append names root) he with hbelow | habove
    · exact (hmarked e hbelow he).1
    · rcases eq_or_ne e root with rfl | hroot
      · exact hrootOf.marked.1
      · exact hrootOf.above e habove hroot
  · cases names with
    | nil => simp at hnames
    | cons m names =>
      rw [List.map_cons, List.map_cons, List.cons.injEq] at hnames
      have hne := name_ne_pidsLeaf (hcovered node.node (by simp)) hnames.1
      simpa using hne

theorem exists_suffix_map {α β : Type*} {f : α → β} {l : List α} {m : List β} (h : m <:+ l.map f) :
    ∃ e, e <:+ l ∧ e.map f = m := by
  obtain ⟨before, hl⟩ := h
  obtain ⟨l₁, l₂, rfl, _, hm⟩ := List.append_eq_map_iff.mp hl
  exact ⟨l₂, List.suffix_append _ _, hm⟩

/-- **A stable root.** A run that starts in the leaf where another run has left its process finds
the root of that run: when the path of the leaf can be read, exactly if the parent of the root has
no leaf for pids, or is not searched. -/
theorem root_stable_iff {node : Family} {p' : Process} {root : Dir} {w₂ : World}
    (hmounted : Mounted k p) (hran : Ran k p node w w' root d)
    (hsame : p'.cgroupRoot = p.cgroupRoot)
    (hdirs : w₂.tree.dirs = w'.tree.dirs)
    (hfind : w₂.tree.procs.find? (·.1 = p'.pid) = some (pid, pidsLeafName :: d)) :
    (FindsRoot k p' w₂ root ↔ k.refuses w₂ .readSelf = false ∧
      (k.searched p' w₂.tree).length < pathMax ∧
      k.reach w₂.tree (climb (k.marked w₂.tree) (k.place p' w₂.tree) (k.place p' w₂.tree)).reverse =
        some root) ∧
    ((∀ n ∈ node.node :: node.parents, Covered n) → Readable k p' w₂ d →
      (FindsRoot k p' w₂ root ↔ root.tail = [] ∨ ¬ k.Marked w₂.tree root.tail)) := by
  have hmounted' : Mounted k p' :=
    ⟨by rw [hsame]; exact hmounted.absolute, by rw [hsame]; exact hmounted.names⟩
  have hfinds := @findsRoot_iff k p' w₂ _ _ root hmounted'.absolute hfind
  refine ⟨hfinds, fun hcovered hreadable => ?_⟩
  have hlined := hran.lined hmounted hcovered
  have hmarked : ∀ e, root <:+ e → e <:+ d → k.Marked w₂.tree e := fun e he he' =>
    ⟨(hlined.marked e he he').1, hdirs ▸ (hlined.marked e he he').2⟩
  obtain ⟨hfits, hplace⟩ := place_leaf hmounted' hreadable (hlined.cgroup.trans hlined.below)
    hlined.noLeaf hfind
  have hroot : root ≠ [] := fun h => absurd (List.suffix_nil.mp (h ▸ hlined.cgroup)) k.mountNe
  have hexists : ∀ e, e <:+ d → w₂.tree.dirs e = true := fun e he =>
    dirs_suffix _ (w₂.tree.closed _ _ (hmarked d hlined.below (List.suffix_refl d)).2) he
  have habove : ∀ e, e <:+ d → k.Above e := fun e he f hf hne =>
    hlined.above f (hf.trans he) fun h => hne (hf.eq_of_length_le (h ▸ he.length_le))
  have hreach : ∀ e, e <:+ d → k.reach w₂.tree (e.map (·.bytes)).reverse = some root →
      e = root := by
    intro e he h
    rcases eq_or_ne e [] with rfl | hne
    · cases h
    · rw [reach_names hne (hexists e he) (habove e he)] at h
      split at h
      · exact Option.some.inj h
      · cases h
  -- up to the root all are marked
  have hclimb : climb (k.marked w₂.tree) (k.place p' w₂.tree) (k.place p' w₂.tree) =
      climb (k.marked w₂.tree) (root.map (·.bytes)) (root.map (·.bytes)).tail := by
    obtain ⟨names, hd⟩ := hlined.below
    rw [hplace, ← hd, List.map_append]
    refine climb_append (by simpa using hroot) fun r' hr' hl => ?_
    rw [← List.map_append, hd] at hl
    obtain ⟨e, he, rfl⟩ := exists_suffix_map hl
    obtain ⟨f, hf, hmap⟩ := exists_suffix_map hr'
    have hfr : f = root := Dir.ext hmap
    rw [hfr] at hf
    have he' : e ≠ [] := fun h => hroot (List.suffix_nil.mp (h ▸ hf))
    exact (marked_names he' (hexists e he) (habove e he)).mpr (hmarked e hf he)
  have htail : root.tail <:+ d := (List.tail_suffix root).trans hlined.below
  have hstops : (root.map (·.bytes)).tail = [] ∨
      k.marked w₂.tree (root.map (·.bytes)).tail = false ↔
        root.tail = [] ∨ ¬ k.Marked w₂.tree root.tail := by
    rw [← List.map_tail, List.map_eq_nil_iff]
    by_cases hnil : root.tail = []
    · simp [hnil]
    · rw [← marked_names hnil (hexists _ htail) (habove _ htail), Bool.not_eq_true]
  rw [hfinds, hclimb, ← hstops, ← climb_eq_iff (by simpa using hroot)]
  constructor
  · rintro ⟨_, _, hfound⟩
    by_contra hno
    rcases @climb_suffix _ (k.marked w₂.tree) (root.map (·.bytes))
      (root.map (·.bytes)).tail with heq | hup
    · exact hno heq
    · -- above the root another directory is found
      rw [← List.map_tail] at hup hfound
      obtain ⟨e, he, hmap⟩ := exists_suffix_map hup
      rw [← hmap] at hfound
      have heq := hreach e (he.trans htail) hfound
      rw [heq] at he
      have hlen := he.length_le
      have hpos := List.length_pos_iff.mpr hroot
      rw [List.length_tail] at hlen
      omega
  · intro heq
    refine ⟨hreadable.granted, hfits, ?_⟩
    rw [heq, reach_names hroot (hexists _ hlined.below) (habove _ hlined.below),
      if_pos (hmarked root (List.suffix_refl _) hlined.below).1]

/-! ## Two runs on a system -/

theorem ran_of_endsIn {node : Family} {root : Dir} {test : World → Bool}
    (hroot : endsIn (prepareRootCgroup k p { rootpath := none }
      (maskOf (node.node :: node.parents))) w
      (fun base _ => decide (base.dirfd = some root)) = true)
    (hrun : endsIn (setCgroups k p node none) w (fun state w' =>
      decide (state.final ≠ 0 ∧ state.dirfd = some d ∧
        w'.tree.procs.find? (·.1 = p.pid) = some (p.pid, pidsLeafName :: d)) && test w') = true) :
    ∃ w', Ran k p node w w' root d ∧
      w'.tree.procs.find? (·.1 = p.pid) = some (p.pid, pidsLeafName :: d) ∧ test w' = true := by
  obtain ⟨base, w₀, hbase, hroot⟩ := of_endsIn hroot
  obtain ⟨state, w', hrun, htest⟩ := of_endsIn hrun
  rw [Bool.and_eq_true, decide_eq_true_eq] at htest
  obtain ⟨⟨hfinal, hd, hfind⟩, htest⟩ := htest
  exact ⟨w', ⟨⟨base, w₀, hbase, of_decide_eq_true hroot⟩, state, hrun, hfinal, hd⟩, hfind, htest⟩

theorem userNames_valid : ValidName (CStr.lit "user").bytes ∧
    ValidName (CStr.lit "-rednode-").bytes ∧ ValidName (CStr.lit "-rednode-app").bytes := by
  decide

/-- A cgroup for a user, with no leaf for pids. -/
def userDir : Dir := ⟨_, userNames_valid.1⟩ :: sysMount

/-- The cgroup of `/rednode/app` below a root cgroup. -/
def appDir (root : Dir) : Dir := ⟨_, userNames_valid.2.2⟩ :: ⟨_, userNames_valid.2.1⟩ :: root

/-- The process is in the cgroup of the user. There are leaves for pids in the cgroups `marked`. -/
def userWorld (marked : List Dir) : World :=
  ⟨.ofDirs (userDir :: marked.map (pidsLeafName :: ·)) [(42, userDir)], []⟩

theorem root_stable_iff_user : ∃ w',
    (FindsRoot sysKernel sysProcess w' userDir ↔ sysKernel.refuses w' .readSelf = false ∧
      (sysKernel.searched sysProcess w'.tree).length < pathMax ∧
      sysKernel.reach w'.tree (climb (sysKernel.marked w'.tree) (sysKernel.place sysProcess w'.tree)
        (sysKernel.place sysProcess w'.tree)).reverse = some userDir) ∧
    ((∀ n ∈ (appFamily none).node :: (appFamily none).parents, Covered n) →
      Readable sysKernel sysProcess w' (appDir userDir) →
      (FindsRoot sysKernel sysProcess w' userDir ↔
        userDir.tail = [] ∨ ¬ sysKernel.Marked w'.tree userDir.tail)) := by
  obtain ⟨w', hran, hfind, _⟩ := @ran_of_endsIn sysKernel sysProcess (userWorld [])
    (appDir userDir) (appFamily none) userDir (fun _ => true) (by decide +kernel)
    (by decide +kernel)
  exact ⟨w', root_stable_iff ⟨by decide, by decide⟩ hran rfl rfl hfind⟩

/-- The cgroup of the user has no leaf for pids, but the one above it has: the first run stays below
the cgroup of the user, the second one goes above it. -/
theorem root_not_stable : ∃ w', Ran sysKernel sysProcess (appFamily none) (userWorld [sysMount]) w'
      userDir (appDir userDir) ∧
    w'.tree.procs.find? (·.1 = sysProcess.pid) = some (42, pidsLeafName :: appDir userDir) ∧
    FindsRoot sysKernel sysProcess w' sysMount ∧ ¬ FindsRoot sysKernel sysProcess w' userDir := by
  obtain ⟨w', hran, hfind, htest⟩ := @ran_of_endsIn sysKernel sysProcess (userWorld [sysMount])
    (appDir userDir) (appFamily none) userDir
    (fun w' => endsIn (makeRootPath sysKernel sysProcess { rootpath := none }) w' fun state w₂ =>
      decide ((sysProcess.string state.path 0).bind (sysKernel.openat w₂.tree sysKernel.cwd ·) =
        some sysMount)) (by decide +kernel) (by decide +kernel)
  obtain ⟨state, w₂, hroot, hopen⟩ := of_endsIn htest
  obtain ⟨path, hstring, hopen⟩ := Option.bind_eq_some_iff.mp (of_decide_eq_true hopen)
  refine ⟨w', hran, hfind, ⟨state, w₂, path, hroot, hstring, hopen⟩, ?_⟩
  rintro ⟨state', w₂', path', hroot', hstring', hopen'⟩
  rw [hroot] at hroot'
  cases hroot'
  rw [hstring] at hstring'
  cases hstring'
  rw [hopen, Option.some.injEq] at hopen'
  exact absurd hopen' (by decide)

end Cgroup
end RedPak
