import Mathlib.Data.List.Forall2
import RedPak.Cgroup.Naming

/-!
# Cgroup.Separate

Which chains of nodes get one cgroup. The names under which the nodes are opened decide: the bytes
of the cgroup that a run ends in are computed from them (`cgroupOf`).

* `prepareCgroups_reached`: a run ends in the cgroup of its names.
* `cgroups_separate_iff`: two chains with one cgroup are the same chain exactly when their names
  tell them apart.
-/

namespace RedPak
namespace Cgroup

open Conf Layered Layered.Action

variable {k : Kernel} {p : Process} {t : Tree} {w w' : World} {n : RedNode} {path : PathBuffer}
  {off : Nat} {d e : Dir} {component : List UInt8}

/-! ## The cgroup at the end of a path -/

/-- One component of a path, on the names. -/
def enter (d : List (List UInt8)) (component : List UInt8) : List (List UInt8) :=
  if component = [dot] then d
  else if component = [dot, dot] then d.tail
  else component :: d

theorem lookup_bytes (h : k.lookup t d component = some e) :
    e.map (·.bytes) = enter (d.map (·.bytes)) component := by
  unfold Kernel.lookup at h
  unfold enter
  split at h
  · cases h
  split
  · rename_i hdot
    rw [if_pos hdot] at h
    cases h
    rfl
  rename_i hdot
  rw [if_neg hdot] at h
  split
  · rename_i hdots
    rw [if_pos hdots] at h
    cases h
    exact List.map_tail
  rename_i hdots
  rw [if_neg hdots] at h
  split at h
  · split at h
    · cases h
      rfl
    · cases h
  · cases h

theorem walk_bytes {components : List (List UInt8)} (h : k.walk t d components = some e) :
    e.map (·.bytes) = components.foldl enter (d.map (·.bytes)) := by
  induction components generalizing d with
  | nil =>
    cases h
    rfl
  | cons component components ih =>
    rw [Kernel.walk, List.foldlM_cons, Option.bind_eq_bind, Option.bind_eq_some_iff] at h
    obtain ⟨d', hd', hw⟩ := h
    rw [List.foldl_cons, ← lookup_bytes hd']
    exact ih hw

/-- Where a relative path leads is decided by its components. -/
theorem openat_bytes {name : CStr} (hrel : name.bytes.head? ≠ some slash)
    (h : k.openat t d name = some e) :
    e.map (·.bytes) = (fields slash name.bytes).foldl enter (d.map (·.bytes)) := by
  unfold Kernel.openat at h
  split at h
  · cases h
  exact walk_bytes (Option.filter_eq_some_iff.mp h).1

theorem Dir.ext {d e : Dir} (h : d.map (·.bytes) = e.map (·.bytes)) : d = e :=
  List.map_injective_iff.mpr (fun _ _ => Name.ext) h

/-! ## The name of a node -/

/-- What the buffer held from an index on, up to a zero. -/
def stale (b : Buffer UInt8) (i : Nat) : List UInt8 := (b.slice i pathMax).takeWhile (· != 0)

/-- The name under which a node is opened, when it is put into the buffer at `off`. A redpath that
is shorter than the suffix loses its zero to it. -/
def openedName (b : Buffer UInt8) (off : Nat) (n : RedNode) : List UInt8 :=
  match n.confadmin with
  | none => dashed n
  | some _ => adminSuffix ++
    if 6 ≤ n.redpath.bytes.length then (dashed n).drop 6 else stale b (off + 6)

def nameLength (n : RedNode) : Nat :=
  n.redpath.bytes.length + if n.confadmin.isSome then 6 else 0

theorem bytes_writeAll (p : Process) (path : PathBuffer) (i : Nat) (vs : List UInt8) :
    p.bytes (path.writeAll i (vs.map some)) = (p.bytes path).writeAll i vs := by
  funext j
  simp only [Process.bytes, Buffer.writeAll]
  split
  · rw [List.getElem?_map]
    cases vs[j - i]? <;> rfl
  · rfl

theorem bytes_of_string {name : CStr} (h : p.string path off = some name) :
    name.bytes = stale (p.bytes path) off := by
  unfold Process.string at h
  split at h
  · cases h
    rfl
  · cases h

theorem stale_writeAll {b : Buffer UInt8} {vs : List UInt8} (hfits : off + vs.length ≤ pathMax)
    (hnul : (0 : UInt8) ∉ vs) :
    stale (b.writeAll off vs) off = vs ++ stale b (off + vs.length) := by
  rw [stale, Buffer.slice_writeAll_over hfits, List.takeWhile_append_of_pos, stale]
  intro c hc
  simpa using fun h : c = 0 => hnul (h ▸ hc)

/-- Behind the start of a copied string: the rest of it, if there is one. -/
theorem stale_copied_long {b : Buffer UInt8} {vs : List UInt8} {i : Nat} (hi : i ≤ vs.length)
    (hfits : off + vs.length < pathMax) (hnul : (0 : UInt8) ∉ vs) :
    stale (b.writeAll off (vs ++ [0])) (off + i) = vs.drop i := by
  have hslice := @Buffer.slice_writeAll_over _ b off pathMax (vs ++ [0]) (by simp; omega)
  rw [stale, ← Buffer.drop_slice, hslice, List.append_assoc, List.drop_append_of_le_length hi,
    List.takeWhile_append_of_pos]
  · simp
  · intro c hc
    simpa using fun h : c = 0 => hnul (h ▸ List.mem_of_mem_drop hc)

theorem stale_copied_short {b : Buffer UInt8} {vs : List UInt8} {i : Nat}
    (hi : vs.length < i) : stale (b.writeAll off (vs ++ [0])) (off + i) = stale b (off + i) := by
  refine congrArg (List.takeWhile _) (Buffer.slice_congr fun j hj _ => Buffer.writeAll_of_ge ?_)
  simp
  omega

theorem nulFree_adminSuffix : (0 : UInt8) ∉ adminSuffix := by decide

/-- **What a node is opened under**, and what of the buffer stays as it was. -/
theorem translatedName_opened {path' : PathBuffer} {len : Nat} {name : CStr}
    (h : translatedName n path off = some (len, path')) (hname : p.string path' off = some name) :
    len = nameLength n ∧ name.bytes = openedName (p.bytes path) off n ∧
      ∀ j, off + len < j → path' j = path j := by
  rw [translatedName_eq] at h
  split at h
  · rename_i hroom
    have hrest : ∀ j, off + n.redpath.bytes.length < j →
        path.writeAll off ((dashed n).map some ++ [some 0]) j = path j := by
      intro j hj
      refine Buffer.writeAll_of_ge ?_
      simp
      omega
    cases hadmin : n.confadmin with
    | none =>
      simp only [hadmin, Option.some.injEq, Prod.mk.injEq] at h
      obtain ⟨rfl, rfl⟩ := h
      have hstring := @copied_string n off p path (by omega)
      rw [hname, Option.some.injEq] at hstring
      refine ⟨by simp [nameLength, hadmin], ?_, hrest⟩
      rw [hstring, CStr.bytes_ofBytes (nulFree_dashed n), openedName, hadmin]
    | some conf =>
      simp only [hadmin] at h
      split at h
      · cases h
      rename_i hfits
      simp only [Option.some.injEq, Prod.mk.injEq] at h
      obtain ⟨rfl, rfl⟩ := h
      refine ⟨by simp [nameLength, hadmin], ?_, fun j hj => ?_⟩
      · have hzero : (dashed n).map some ++ [some 0] = (dashed n ++ [0]).map some := by simp
        rw [bytes_of_string hname, bytes_writeAll, hzero, bytes_writeAll,
          stale_writeAll (by rw [length_adminSuffix]; omega) nulFree_adminSuffix,
          length_adminSuffix, openedName, hadmin]
        congr 1
        split
        · rename_i hlong
          exact stale_copied_long (by simpa using hlong) (by simp; omega) (nulFree_dashed n)
        · rename_i hshort
          exact stale_copied_short (by simp; omega)
      · rw [Buffer.writeAll_of_ge (by rw [List.length_map, length_adminSuffix]; omega)]
        exact hrest j (by omega)
  · cases h

/-! ## The chain -/

/-- The length of the path after the given nodes, leaf first. -/
def pathLength (start : Nat) : List RedNode → Nat
  | [] => start
  | n :: above => pathLength start above + 1 + nameLength n

/-- The names that lead to the cgroup of the given nodes, leaf first, from the root cgroup. -/
def cgroupOf (b : Buffer UInt8) (start : Nat) (root : List (List UInt8)) :
    List RedNode → List (List UInt8)
  | [] => root
  | n :: above => (fields slash (openedName b (pathLength start above + 1) n)).foldl enter
      (cgroupOf b start root above)

variable {base state state' : CgroupT} {root : Dir} {above : List RedNode} {len : Nat}
  {name : CStr} {prev : Dir}

/-- What holds after the given nodes, when the first one was prepared with `base`. -/
structure Reached (p : Process) (base : CgroupT) (root : Dir) (above : List RedNode)
    (state : CgroupT) : Prop where
  pathlen : state.pathlen = pathLength base.pathlen above
  rest : ∀ j, state.pathlen < j → state.path j = base.path j
  cgroup : ∃ d, state.dirfd = some d ∧
    d.map (·.bytes) = cgroupOf (p.bytes base.path) base.pathlen (root.map (·.bytes)) above

theorem openedName_relative (b : Buffer UInt8) (off : Nat) (n : RedNode) :
    (openedName b off n).head? ≠ some slash := by
  unfold openedName
  split
  · exact fun h => slash_notMem_dashed n (List.mem_of_mem_head? h)
  · rw [List.head?_append_of_ne_nil _ (by decide)]
    decide

theorem openedName_congr {b b' : Buffer UInt8} (h : ∀ j, off + 6 ≤ j → b j = b' j) :
    openedName b off n = openedName b' off n := by
  have hstale : stale b (off + 6) = stale b' (off + 6) :=
    congrArg (List.takeWhile _) (Buffer.slice_congr fun j hj _ => h j hj)
  unfold openedName
  rw [hstale]

theorem Reached.step (h : Reached p base root above state)
    (he : Entered k p n state w state' w' len path name prev d) :
    Reached p base root (n :: above) state' := by
  obtain ⟨htranslated, hstring, hdirfd, hopened, hgrows, rfl⟩ := he
  obtain ⟨rfl, hname, hrest⟩ := translatedName_opened htranslated hstring
  obtain ⟨d₀, hd₀, hbytes⟩ := h.cgroup
  rw [hdirfd, Option.some.injEq] at hd₀
  subst hd₀
  refine ⟨by simp only [pathLength, h.pathlen], fun j hj => ?_, d, rfl, ?_⟩
  · dsimp only at hj ⊢
    rw [Buffer.store_other (by omega), hrest j hj, h.rest j (by omega)]
  · have hcongr : openedName (p.bytes state.path) (state.pathlen + 1) n =
        openedName (p.bytes base.path) (state.pathlen + 1) n := by
      refine openedName_congr fun j hj => ?_
      rw [Process.bytes, h.rest j (by omega)]
      rfl
    have hrel : name.bytes.head? ≠ some slash := by
      rw [hname]
      exact openedName_relative _ _ _
    rw [openat_bytes hrel hopened, hname, hcongr, hbytes, h.pathlen, cgroupOf]

/-- **The nodes of a run** are entered one after the other, under their names. -/
theorem prepareCgroups_reached {start : CgroupT} {below : List RedNode} {w₀ : World}
    (hmask : maskOf (below ++ above) ≠ 0)
    (hbase : prepareCgroups k p start (maskOf (below ++ above)) [] w = .ok base w₀)
    (hroot : base.dirfd = some root)
    (h : prepareCgroups k p start (maskOf below) above w = .ok state w') :
    Reached p base root above state := by
  induction above generalizing below state w' with
  | nil =>
    rw [List.append_nil, h] at hbase
    cases hbase
    exact ⟨rfl, fun _ _ => rfl, root, hroot, rfl⟩
  | cons n above ih =>
    obtain ⟨state₁, w₁, habove, hmiddle⟩ := prepareCgroups_cons_ok h
    rw [← maskOf_concat] at habove
    have hsplit : below ++ n :: above = (below ++ [n]) ++ above := by simp
    rw [hsplit] at hmask hbase
    have hfinal : state₁.final ≠ 0 := by
      rw [prepareCgroups_final habove]
      exact hmask
    obtain ⟨_, _, _, _, _, he⟩ := wp_ok (prepareMiddle_entered hfinal) hmiddle
    exact (ih hmask hbase habove).step he

/-! ## Two chains -/

/-- A run puts the chain into a control cgroup. `base` is the state below the root cgroup. -/
structure Settles (k : Kernel) (p : Process) (node : Family) (rootpath : Option CStr) (w : World)
    (base : CgroupT) (root d : Dir) : Prop where
  rooted : ∃ w₀, prepareRootCgroup k p { rootpath := rootpath }
    (maskOf (node.node :: node.parents)) w = .ok base w₀ ∧ base.dirfd = some root
  settled : ∃ state w', setCgroups k p node rootpath w = .ok state w' ∧ state.final ≠ 0 ∧
    state.dirfd = some d

def SameChain (node node' : Family) : Prop :=
  List.Forall₂ (fun n n' => n.redpath = n'.redpath ∧ n.confadmin.isSome = n'.confadmin.isSome)
    (node.node :: node.parents) (node'.node :: node'.parents)

/-- What is left of a redpath in the name of its cgroup. -/
def shown (n : RedNode) : List UInt8 :=
  if n.confadmin.isSome then (dashed n).drop 6 else dashed n

/-- The chains show the same, node by node. -/
def Alike (node node' : Family) : Prop :=
  List.Forall₂ (fun n n' => shown n = shown n' ∧ n.confadmin.isSome = n'.confadmin.isSome)
    (node.node :: node.parents) (node'.node :: node'.parents)

/-- An absolute redpath, not shorter than a suffix that is put over it. -/
def Covered (n : RedNode) : Prop :=
  n.redpath.bytes.head? = some slash ∧ (n.confadmin.isSome → 6 ≤ n.redpath.bytes.length)

def Process.cgroupOf (p : Process) (base : CgroupT) (root : Dir) (node : Family) :
    List (List UInt8) :=
  Cgroup.cgroupOf (p.bytes base.path) base.pathlen (root.map (·.bytes)) (node.node :: node.parents)

variable {node node' : Family} {rootpath rootpath' : Option CStr} {p' : Process} {base' : CgroupT}
  {d' : Dir}

theorem Settles.bytes (h : Settles k p node rootpath w base root d) :
    d.map (·.bytes) = p.cgroupOf base root node := by
  obtain ⟨⟨w₀, hbase, hroot⟩, state, w', hrun, hfinal, hd⟩ := h
  obtain ⟨w₁, hprepared, _⟩ := setCgroups_ok hrun
  have hmask : maskOf ([] ++ node.node :: node.parents) ≠ 0 := by
    rw [← prepareCgroups_final hprepared]
    exact hfinal
  obtain ⟨d₀, hd₀, hbytes⟩ := (prepareCgroups_reached hmask hbase hroot hprepared).cgroup
  rw [hd, Option.some.injEq] at hd₀
  rw [hd₀, hbytes, Process.cgroupOf]

/-- The name of a node when nothing of it depends on what the buffer held. -/
theorem openedName_covered (b : Buffer UInt8) (off : Nat) (h : Covered n) :
    openedName b off n = (if n.confadmin.isSome then adminSuffix else []) ++ shown n := by
  unfold openedName shown
  cases hadmin : n.confadmin with
  | none => simp
  | some conf => simp [h.2 (by simp [hadmin])]

theorem head?_shown (h : Covered n) (hadmin : n.confadmin.isSome = false) :
    (shown n).head? = some (dash slash) := by
  rw [shown, hadmin, if_neg (by simp), dashed, List.head?_map, h.1]
  rfl

theorem openedName_component (b : Buffer UInt8) (off : Nat) (h : Covered n) :
    IsField slash (openedName b off n) ∧ openedName b off n ≠ [dot] ∧
      openedName b off n ≠ [dot, dot] := by
  have hshown : slash ∉ shown n := by
    unfold shown
    split
    · exact fun hmem => slash_notMem_dashed n (List.mem_of_mem_drop hmem)
    · exact slash_notMem_dashed n
  rw [openedName_covered b off h]
  cases hadmin : n.confadmin.isSome with
  | true =>
    rw [if_pos rfl]
    have hlen : 6 ≤ (adminSuffix ++ shown n).length := by
      rw [List.length_append, length_adminSuffix]
      omega
    have hslash : slash ∉ adminSuffix ++ shown n := by
      rw [List.mem_append, not_or]
      exact ⟨by decide, hshown⟩
    refine ⟨⟨?_, hslash⟩, ?_, ?_⟩ <;> intro heq <;> rw [heq] at hlen
    · exact absurd hlen (by decide)
    · exact absurd hlen (by decide)
    · exact absurd hlen (by decide)
  | false =>
    rw [if_neg (by simp), List.nil_append]
    have hhead := head?_shown h hadmin
    refine ⟨⟨?_, hshown⟩, ?_, ?_⟩ <;> intro heq <;> rw [heq] at hhead
    · cases hhead
    · exact absurd hhead (by decide)
    · exact absurd hhead (by decide)

theorem cgroupOf_covered (b : Buffer UInt8) (start : Nat) (root : List (List UInt8))
    {chain : List RedNode} (h : ∀ n ∈ chain, Covered n) :
    cgroupOf b start root chain =
      chain.map (fun n => (if n.confadmin.isSome then adminSuffix else []) ++ shown n) ++ root := by
  induction chain with
  | nil => rfl
  | cons n above ih =>
    have hn : Covered n := h n (by simp)
    obtain ⟨hfield, hdot, hdots⟩ := openedName_component b (pathLength start above + 1) hn
    rw [cgroupOf, hfield.fields_eq, List.foldl_cons, List.foldl_nil, enter, if_neg hdot,
      if_neg hdots, ih fun m hm => h m (by simp [hm]), openedName_covered _ _ hn]
    rfl

/-- A suffix in front tells admin configs from redpaths, which start with a dash. -/
theorem covered_name_eq {n' : RedNode} (h : Covered n) (h' : Covered n') :
    (if n.confadmin.isSome then adminSuffix else []) ++ shown n =
      (if n'.confadmin.isSome then adminSuffix else []) ++ shown n' ↔
    shown n = shown n' ∧ n.confadmin.isSome = n'.confadmin.isSome := by
  have hne : ∀ {m m' : RedNode}, Covered m → m.confadmin.isSome = false →
      adminSuffix ++ shown m' ≠ shown m := by
    intro m m' hm hnone heq
    have hhead := head?_shown hm hnone
    rw [← heq, List.head?_append_of_ne_nil _ (by decide)] at hhead
    exact absurd hhead (by decide)
  cases hadmin : n.confadmin.isSome <;> cases hadmin' : n'.confadmin.isSome
  · simp
  · simpa using fun heq => hne h hadmin heq.symm
  · simpa using hne h' hadmin'
  · simp

theorem forall₂_congr {α β : Type*} {R S : α → β → Prop} {l : List α} {l' : List β}
    (h : ∀ a ∈ l, ∀ b ∈ l', R a b ↔ S a b) : List.Forall₂ R l l' ↔ List.Forall₂ S l l' := by
  induction l generalizing l' with
  | nil => simp
  | cons a l ih =>
    cases l' with
    | nil => simp
    | cons b l' =>
      rw [List.forall₂_cons, List.forall₂_cons, h a (by simp) b (by simp),
        ih fun x hx y hy => h x (by simp [hx]) y (by simp [hy])]

theorem cgroupOf_alike (hcovered : ∀ n ∈ node.node :: node.parents ++ node'.node :: node'.parents,
    Covered n) : p.cgroupOf base root node = p'.cgroupOf base' root node' ↔ Alike node node' := by
  have h : ∀ n ∈ node.node :: node.parents, Covered n := fun n hn =>
    hcovered n (List.mem_append_left _ hn)
  have h' : ∀ n ∈ node'.node :: node'.parents, Covered n := fun n hn =>
    hcovered n (List.mem_append_right _ hn)
  rw [Process.cgroupOf, Process.cgroupOf, cgroupOf_covered _ _ _ h, cgroupOf_covered _ _ _ h',
    List.append_left_inj, ← List.forall₂_eq_eq_eq, List.forall₂_map_left_iff,
    List.forall₂_map_right_iff, Alike]
  exact forall₂_congr fun n hn n' hn' => covered_name_eq (h n hn) (h' n' hn')

/-- **One cgroup, one chain**: this holds of two runs below one root cgroup exactly when the names
of their nodes tell the chains apart. For absolute redpaths that cover the suffix put over them,
that is when the chains do not show the same. -/
theorem cgroups_separate_iff (h : Settles k p node rootpath w base root d)
    (h' : Settles k p' node' rootpath' w' base' root d') :
    ((d = d' → SameChain node node') ↔
      (p.cgroupOf base root node = p'.cgroupOf base' root node' → SameChain node node')) ∧
    ((∀ n ∈ node.node :: node.parents ++ node'.node :: node'.parents, Covered n) →
      ((d = d' → SameChain node node') ↔ (Alike node node' → SameChain node node'))) := by
  have hcgroup : d = d' ↔ p.cgroupOf base root node = p'.cgroupOf base' root node' := by
    rw [← h.bytes, ← h'.bytes]
    exact ⟨congrArg _, Dir.ext⟩
  refine ⟨by rw [hcgroup], fun hcovered => ?_⟩
  rw [hcgroup, cgroupOf_alike hcovered]

/-! ## Runs from the root cgroup -/

def soloFamily (redpath : CStr) (confadmin : Option RedConfig) : Family :=
  ⟨limitedNode redpath confadmin, []⟩

theorem settles_solo (redpath : CStr) (confadmin : Option RedConfig) (d : Dir)
    (hroot : endsIn (prepareRootCgroup sysKernel sysProcess { rootpath := none }
      (maskOf [limitedNode redpath confadmin])) sysWorld
      (fun base _ => decide (base.dirfd = some sysMount)) = true)
    (hrun : endsIn (setCgroups sysKernel sysProcess (soloFamily redpath confadmin) none) sysWorld
      (fun state _ => decide (state.final ≠ 0) && decide (state.dirfd = some d)) = true) :
    ∃ base, Settles sysKernel sysProcess (soloFamily redpath confadmin) none sysWorld base
      sysMount d := by
  obtain ⟨base, w₀, hbase, hroot⟩ := of_endsIn hroot
  obtain ⟨state, w', hrun, htest⟩ := of_endsIn hrun
  rw [Bool.and_eq_true, decide_eq_true_eq, decide_eq_true_eq] at htest
  exact ⟨base, ⟨w₀, hbase, of_decide_eq_true hroot⟩, state, w', hrun, htest⟩

theorem adminWeb_valid : ValidName (CStr.lit ".admin-web").bytes := by
  decide

theorem dashedPair_valid : ValidName (CStr.lit "-a-b").bytes := by
  decide

/-- The cgroup of `/alpha/web` with an admin config, and that of `/gamma/web` with one. -/
def adminWeb : Dir := ⟨(CStr.lit ".admin-web").bytes, adminWeb_valid⟩ :: sysMount

/-- The cgroup of `/a/b`, and that of `/a-b`. -/
def dashedPair : Dir := ⟨(CStr.lit "-a-b").bytes, dashedPair_valid⟩ :: sysMount

def alphaWeb : Family := soloFamily (.lit "/alpha/web") (some adminConfig)

def gammaWeb : Family := soloFamily (.lit "/gamma/web") (some adminConfig)

def slashed : Family := soloFamily (.lit "/a/b") none

def unslashed : Family := soloFamily (.lit "/a-b") none

theorem alphaWeb_settles :
    ∃ base, Settles sysKernel sysProcess alphaWeb none sysWorld base sysMount adminWeb :=
  settles_solo _ _ _ (by decide +kernel) (by decide +kernel)

theorem gammaWeb_settles :
    ∃ base, Settles sysKernel sysProcess gammaWeb none sysWorld base sysMount adminWeb :=
  settles_solo _ _ _ (by decide +kernel) (by decide +kernel)

theorem slashed_settles :
    ∃ base, Settles sysKernel sysProcess slashed none sysWorld base sysMount dashedPair :=
  settles_solo _ _ _ (by decide +kernel) (by decide +kernel)

theorem unslashed_settles :
    ∃ base, Settles sysKernel sysProcess unslashed none sysWorld base sysMount dashedPair :=
  settles_solo _ _ _ (by decide +kernel) (by decide +kernel)

theorem cgroups_separate_iff_web : ∃ base base',
    ((adminWeb = adminWeb → SameChain alphaWeb gammaWeb) ↔
      (sysProcess.cgroupOf base sysMount alphaWeb = sysProcess.cgroupOf base' sysMount gammaWeb →
        SameChain alphaWeb gammaWeb)) ∧
    ((∀ n ∈ alphaWeb.node :: alphaWeb.parents ++ gammaWeb.node :: gammaWeb.parents, Covered n) →
      ((adminWeb = adminWeb → SameChain alphaWeb gammaWeb) ↔
        (Alike alphaWeb gammaWeb → SameChain alphaWeb gammaWeb))) := by
  obtain ⟨base, h⟩ := alphaWeb_settles
  obtain ⟨base', h'⟩ := gammaWeb_settles
  exact ⟨base, base', cgroups_separate_iff h h'⟩

/-- Two nodes share a cgroup: under the suffix of the admin configs, or when one redpath has a dash
where the other one has a slash. -/
theorem cgroups_shared :
    (∃ base base', Settles sysKernel sysProcess alphaWeb none sysWorld base sysMount adminWeb ∧
      Settles sysKernel sysProcess gammaWeb none sysWorld base' sysMount adminWeb ∧
      ¬ SameChain alphaWeb gammaWeb) ∧
    (∃ base base', Settles sysKernel sysProcess slashed none sysWorld base sysMount dashedPair ∧
      Settles sysKernel sysProcess unslashed none sysWorld base' sysMount dashedPair ∧
      ¬ SameChain slashed unslashed) := by
  have hne : ∀ {redpath redpath' : CStr} {confadmin : Option RedConfig}, redpath ≠ redpath' →
      ¬ SameChain (soloFamily redpath confadmin) (soloFamily redpath' confadmin) := by
    intro redpath redpath' confadmin hne hsame
    rw [SameChain, List.forall₂_cons] at hsame
    exact hne hsame.1.1
  obtain ⟨base₁, h₁⟩ := alphaWeb_settles
  obtain ⟨base₂, h₂⟩ := gammaWeb_settles
  obtain ⟨base₃, h₃⟩ := slashed_settles
  obtain ⟨base₄, h₄⟩ := unslashed_settles
  exact ⟨⟨base₁, base₂, h₁, h₂, hne (by decide)⟩, ⟨base₃, base₄, h₃, h₄, hne (by decide)⟩⟩

end Cgroup
end RedPak
