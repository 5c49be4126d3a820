import Mathlib.Tactic.IntervalCases
import RedPak.Cgroup.Prepare

/-!
# Cgroup.Naming

The names of the cgroups of a run, and the path that is built up with them in the buffer.

* `translatedName_eq`: the bytes that the name of a node leaves in the buffer.
* `cgroupsNamed_iff`: the cgroups of a run have the names of their nodes, exactly when no node has
  an admin config.
-/

namespace RedPak
namespace Cgroup

open Conf Layered Layered.Action

variable {k : Kernel} {p : Process} {w : World} {n : RedNode} {path : PathBuffer} {off : Nat}

/-! ## The name in the buffer -/

/-- The redpath with every slash replaced. -/
def dashed (n : RedNode) : List UInt8 := n.redpath.bytes.map dash

theorem dash_ne_zero {c : UInt8} (h : c ≠ 0) : dash c ≠ 0 := by
  unfold dash
  split
  · decide
  · exact h

theorem dash_ne_slash (c : UInt8) : dash c ≠ slash := by
  unfold dash
  split
  · decide
  · assumption

theorem nulFree_dashed (n : RedNode) : (0 : UInt8) ∉ dashed n := by
  intro h
  obtain ⟨c, hc, hd⟩ := List.mem_map.mp h
  exact dash_ne_zero (fun e => n.redpath.nulFree (e ▸ hc)) hd

theorem slash_notMem_dashed (n : RedNode) : slash ∉ dashed n := by
  intro h
  obtain ⟨c, _, hd⟩ := List.mem_map.mp h
  exact dash_ne_slash c hd

@[simp] theorem length_dashed (n : RedNode) : (dashed n).length = n.redpath.bytes.length := by
  simp [dashed]

/-- The copy of a string with its slashes replaced, when there is room for it. -/
theorem replaceSlashDash_eq (source : List UInt8) (dest : PathBuffer) (idx room : Nat) :
    replaceSlashDash source dest idx room =
      if source.length < room then
        some (idx + source.length,
          dest.writeAll idx (source.map (fun c => some (dash c)) ++ [some 0]))
      else none := by
  induction room generalizing source dest idx with
  | zero => simp [replaceSlashDash]
  | succ room ih =>
    cases source with
    | nil =>
      have hstore : dest.store idx (some 0) = dest.writeAll idx [some 0] := by
        rw [← Buffer.writeAll_cons, Buffer.writeAll_nil]
      simp [replaceSlashDash, hstore]
    | cons c source =>
      rw [replaceSlashDash, ih]
      by_cases h : source.length < room
      · rw [if_pos h, if_pos (by simpa using h), Buffer.writeAll_cons]
        simp
        omega
      · rw [if_neg h, if_neg (by simpa using h)]

theorem length_adminSuffix : adminSuffix.length = 6 := by decide

theorem translatedName_eq (n : RedNode) (path : PathBuffer) (off : Nat) :
    translatedName n path off =
      if n.redpath.bytes.length < pathMax - off then
        let copied := path.writeAll off ((dashed n).map some ++ [some 0])
        match n.confadmin with
        | none => some (n.redpath.bytes.length, copied)
        | some _ =>
          if pathMax ≤ off + n.redpath.bytes.length + 6 then none
          else some (n.redpath.bytes.length + 6, copied.writeAll off (adminSuffix.map some))
      else none := by
  have hdashed : n.redpath.bytes.map (fun c => some (dash c)) = (dashed n).map some := by
    rw [dashed, List.map_map]
    rfl
  rw [translatedName, replaceSlashDash_eq]
  by_cases h : n.redpath.bytes.length < pathMax - off
  · cases n.confadmin <;>
      simp only [if_pos h, Nat.add_sub_cancel_left, hdashed, length_adminSuffix]
  · simp only [if_neg h]

theorem dash_eq_dot {c : UInt8} (h : dash c = dot) : c = dot := by
  unfold dash at h
  split at h
  · cases h
  · exact h

theorem dashed_ne_dot (h : n.redpath.bytes ≠ [dot]) : dashed n ≠ [dot] := by
  intro hd
  obtain ⟨c, hc, hdot⟩ := List.map_eq_singleton_iff.mp hd
  rw [dash_eq_dot hdot] at hc
  exact h hc

theorem dashed_ne_dots (h : n.redpath.bytes ≠ [dot, dot]) : dashed n ≠ [dot, dot] := by
  intro hd
  rw [dashed] at hd
  match hr : n.redpath.bytes with
  | [] => simp [hr] at hd
  | [a] => simp [hr] at hd
  | [a, b] =>
    simp only [hr, List.map_cons, List.map_nil, List.cons.injEq, and_true] at hd
    exact h (by rw [hr, dash_eq_dot hd.1, dash_eq_dot hd.2])
  | a :: b :: c :: rest => simp [hr] at hd

theorem copied_slice (path : PathBuffer) (off : Nat) (n : RedNode) :
    (path.writeAll off ((dashed n).map some ++ [some 0])).slice off (off + (dashed n).length) =
      (dashed n).map some := by
  simpa using Buffer.slice_writeAll_left path off ((dashed n).map some) [some 0]

theorem copied_zero (path : PathBuffer) (off : Nat) (n : RedNode) :
    path.writeAll off ((dashed n).map some ++ [some 0]) (off + (dashed n).length) = some 0 := by
  simp [Buffer.writeAll_apply]

theorem copied_string (p : Process) (path : PathBuffer)
    (hfits : off + n.redpath.bytes.length < pathMax) :
    p.string (path.writeAll off ((dashed n).map some ++ [some 0])) off =
      some (.ofBytes (dashed n)) := by
  refine string_of_slice (bytes_slice (copied_slice path off n) p) ?_ (by simpa using hfits)
    (nulFree_dashed n)
  rw [Process.bytes, copied_zero]
  rfl

/-! ## One node -/

/-- What the preparation of a node did: the name was put behind the path and opened in the cgroup of
the previous node. -/
structure Entered (k : Kernel) (p : Process) (n : RedNode) (state : CgroupT) (w : World)
    (state' : CgroupT) (w' : World) (len : Nat) (path : PathBuffer) (name : CStr) (prev d : Dir) :
    Prop where
  translated : translatedName n state.path (state.pathlen + 1) = some (len, path)
  string : p.string path (state.pathlen + 1) = some name
  dirfd : state.dirfd = some prev
  opened : k.openat w'.tree prev name = some d
  grows : w.tree.Grows w'.tree
  state : state' = { state with
    dirfd := some d
    path := path.store state.pathlen (some slash)
    pathlen := state.pathlen + 1 + len }

theorem prepareMiddle_entered {state : CgroupT} {mask : Ctrlmask} (hfinal : state.final ≠ 0) :
    wp (prepareMiddleCgroup k p state n mask)
      (fun state' w' => ∃ len path name prev d,
        Entered k p n state w state' w' len path name prev d)
      (fun _ _ => True) w := by
  rw [prepareMiddleCgroup, if_neg hfinal]
  dsimp only
  split
  · rename_i len path prev htranslated hdirfd
    split
    · trivial
    rename_i name hstring
    rw [wp_bind]
    refine wp_mono openCgroupAtDir_spec ?_ (fun _ _ _ => trivial)
    rintro ⟨d, created⟩ w₁ ⟨hgrows, hopened⟩
    have hstable := stable_grows k w₁.tree
    rw [wp_bind]
    refine wp_mono (keeps_mkdirat hstable (fun _ _ _ _ _ => trivial) w₁ (.refl _)) ?_
      (fun _ _ _ => trivial)
    intro _ w₂ h₂
    rw [wp_bind]
    refine wp_mono (keeps_writeEntries hstable (fun _ _ _ => trivial) w₂ h₂) ?_
      (fun _ _ _ => trivial)
    intro nerr w₃ h₃
    rw [wp_bind]
    refine wp_check (fun _ => ?_) trivial
    rw [wp_bind]
    refine wp_mono (keeps_ensure hstable (fun _ _ => trivial) (fun _ _ _ => trivial) w₃ h₃) ?_
      (fun _ _ _ => trivial)
    intro _ w₄ h₄
    exact ⟨len, path, name, prev, d, htranslated, hstring, hdirfd, openat_grows h₄ hopened,
      hgrows.trans h₄, rfl⟩
  · trivial

/-! ## The root -/

/-- The state with which the first node is prepared: the path is the text that was opened. -/
structure Rooted (k : Kernel) (state : CgroupT) (w : World) (text : List UInt8) (root : Dir) :
    Prop where
  spelled : Spelled state.path text
  pathlen : state.pathlen = text.length
  nulFree : (0 : UInt8) ∉ text
  dirfd : state.dirfd = some root
  opened : k.openat w.tree k.cwd (.ofBytes text) = some root

theorem makeRootPath_spelled {state : CgroupT} : wp (makeRootPath k p state)
    (fun state' _ => state'.final = state.final ∧ ∃ text, Spelled state'.path text ∧
      state'.pathlen = text.length ∧ (0 : UInt8) ∉ text)
    (fun _ _ => True) w := by
  refine wp_mono makeRootPath_spec ?_ (fun _ _ _ => trivial)
  rintro _ _ ⟨_, path, hspelled, rfl⟩
  refine ⟨rfl, _, hspelled.cut (findRednodeRoot_le _ _ _), ?_, fun hmem => ?_⟩
  · simp [findRednodeRoot_le]
  · exact nulFree_cgroupPathText (nulFree_rootSource _ _) (List.mem_of_mem_take hmem)

theorem prepareRoot_rooted {state : CgroupT} {mask : Ctrlmask} :
    wp (prepareRootCgroup k p state mask)
      (fun state' w' => state'.final = mask ∧
        (mask ≠ 0 → ∃ text root, Rooted k state' w' text root))
      (fun _ _ => True) w := by
  rw [prepareRootCgroup, wp_ite]
  split
  · rename_i hzero
    exact ⟨rfl, fun h => absurd hzero h⟩
  rw [wp_bind]
  refine wp_mono makeRootPath_spelled ?_ (fun _ _ _ => trivial)
  rintro state₁ w₁ ⟨hfinal, text, hspelled, hlen, hnul⟩
  rw [wp_bind, wp_get, hspelled.string hnul]
  dsimp only
  split
  · trivial
  rename_i root hopened
  have hstable := stable_grows k w₁.tree
  rw [wp_bind]
  refine wp_mono (keeps_openCgroupAtDir hstable (fun _ _ _ _ _ => trivial) w₁ (.refl _)) ?_
    (fun _ _ _ => trivial)
  rintro ⟨pidfd, created⟩ w₂ h₂
  rw [wp_bind]
  refine wp_mono (keeps_moveProcs hstable trivial (fun _ => trivial) w₂ h₂) ?_
    (fun _ _ _ => trivial)
  intro _ w₃ h₃
  rw [wp_bind]
  refine wp_mono (keeps_ensure hstable (fun _ _ => trivial) (fun _ _ _ => trivial) w₃ h₃) ?_
    (fun _ _ _ => trivial)
  intro _ w₄ h₄
  exact ⟨hfinal, fun _ => ⟨text, root, hspelled, hlen, hnul, rfl, openat_grows h₄ hopened⟩⟩

/-! ## The chain -/

/-- The name that a node is meant to have. -/
def nodeCgroupName (n : RedNode) : List UInt8 :=
  dashed n ++ if n.confadmin.isSome then adminSuffix else []

/-- The path from the text of the root down to the given nodes, leaf first. -/
def chainPath (text : List UInt8) (above : List RedNode) : List UInt8 :=
  text ++ (above.reverse.map nodeCgroupName).flatMap (slash :: ·)

/-- After the given nodes, the path spells the cgroup that is open, which lies below the root under
the names of the nodes. -/
structure Named (k : Kernel) (text : List UInt8) (root : Dir) (above : List RedNode)
    (state : CgroupT) (w : World) : Prop where
  path : state.path.slice 0 state.pathlen = (chainPath text above).map some
  nulFree : (0 : UInt8) ∉ chainPath text above
  fits : state.pathlen < pathMax
  cgroup : ∃ d, state.dirfd = some d ∧
    d.map (·.bytes) = above.map nodeCgroupName ++ root.map (·.bytes) ∧
    k.openat w.tree k.cwd (.ofBytes (chainPath text above)) = some d

/-- Every node of the chain is prepared under its name. -/
def CgroupsNamed (k : Kernel) (p : Process) (node : Family) (rootpath : Option CStr) (w : World) :
    Prop :=
  ∃ text root, ∀ below above state w₁, node.node :: node.parents = below ++ above →
    prepareCgroups k p { rootpath := rootpath } (maskOf below) above w = .ok state w₁ →
      Named k text root above state w₁

theorem chainPath_cons (text : List UInt8) (n : RedNode) (above : List RedNode) :
    chainPath text (n :: above) = chainPath text above ++ slash :: nodeCgroupName n := by
  simp [chainPath]

variable {text : List UInt8} {root : Dir} {above : List RedNode} {state state' : CgroupT}
  {w' : World} {len : Nat} {name : CStr} {prev d : Dir}

theorem Named.length (h : Named k text root above state w) :
    (chainPath text above).length = state.pathlen := by
  simpa using (congrArg List.length h.path).symm

theorem Rooted.named (h : Rooted k state w text root) : Named k text root [] state w := by
  have hpath : chainPath text [] = text := by simp [chainPath]
  refine ⟨?_, by rw [hpath]; exact h.nulFree, by rw [h.pathlen]; exact h.spelled.fits,
    root, h.dirfd, by simp, by rw [hpath]; exact h.opened⟩
  rw [hpath, h.pathlen]
  exact h.spelled.slice

/-- Without an admin config the name is the dashed redpath, in the buffer and in the tree. -/
theorem Named.step (h : Named k text root above state w)
    (he : Entered k p n state w state' w' len path name prev d) (hadmin : n.confadmin = none)
    (hdot : n.redpath.bytes ≠ [dot] ∧ n.redpath.bytes ≠ [dot, dot]) :
    Named k text root (n :: above) state' w' := by
  obtain ⟨htranslated, hstring, hdirfd, hopened, hgrows, rfl⟩ := he
  rw [translatedName_eq] at htranslated
  split at htranslated
  · rename_i hroom
    simp only [hadmin, Option.some.injEq, Prod.mk.injEq] at htranslated
    obtain ⟨rfl, rfl⟩ := htranslated
    have hname : nodeCgroupName n = dashed n := by simp [nodeCgroupName, hadmin]
    have hoff : state.pathlen + 1 + n.redpath.bytes.length < pathMax := by omega
    have hcstr := copied_string p state.path hoff
    rw [hcstr, Option.some.injEq] at hstring
    subst hstring
    have hbytes : (CStr.ofBytes (dashed n)).bytes = dashed n :=
      CStr.bytes_ofBytes (nulFree_dashed n)
    have hslash : slash ∉ (CStr.ofBytes (dashed n)).bytes := by
      rw [hbytes]
      exact slash_notMem_dashed n
    obtain ⟨d₀, hd₀, hdir, hopen₀⟩ := h.cgroup
    rw [hdirfd, Option.some.injEq] at hd₀
    subst hd₀
    have hnul : (0 : UInt8) ∉ chainPath text (n :: above) := by
      rw [chainPath_cons, hname]
      simp [h.nulFree, nulFree_dashed, slash]
    refine ⟨?_, hnul, hoff, d, rfl, ?_, ?_⟩
    · dsimp only
      have hend : state.pathlen + 1 + n.redpath.bytes.length =
          state.pathlen + 1 + (dashed n).length := by simp
      rw [hend, ← Buffer.slice_append (Nat.zero_le (state.pathlen + 1)) (Nat.le_add_right _ _),
        Buffer.slice_store_concat (Nat.zero_le _), Buffer.slice_store (.inl (by omega)),
        Buffer.slice_writeAll_of_le (by omega), h.path, copied_slice, chainPath_cons, hname]
      simp
    · rcases (openat_component hslash hopened).2 with ⟨hd, _⟩ | ⟨hd, _⟩ | ⟨m, hm, rfl⟩
      · exact absurd hd (by rw [hbytes]; exact dashed_ne_dot hdot.1)
      · exact absurd hd (by rw [hbytes]; exact dashed_ne_dots hdot.2)
      · simp [hm, hbytes, hname, hdir]
    · refine openat_append (openat_grows hgrows hopen₀) hslash hopened ?_
      rw [CStr.bytes_ofBytes hnul, CStr.bytes_ofBytes h.nulFree, hbytes, chainPath_cons, hname]
  · cases htranslated

/-- With an admin config the name in the buffer is another one: its suffix lies over its start. -/
theorem admin_misnamed (he : Entered k p n state w state' w' len path name prev d)
    (hadmin : n.confadmin ≠ none) (hne : n.redpath.bytes ≠ [])
    (h : Named k text root above state w) : ¬ Named k text root (n :: above) state' w' := by
  intro h'
  obtain ⟨conf, hconf⟩ := Option.ne_none_iff_exists'.mp hadmin
  obtain ⟨htranslated, hstring, hdirfd, hopened, hgrows, rfl⟩ := he
  rw [translatedName_eq] at htranslated
  split at htranslated
  · simp only [hconf] at htranslated
    split at htranslated
    · cases htranslated
    rename_i hfits
    simp only [Option.some.injEq, Prod.mk.injEq] at htranslated
    obtain ⟨rfl, rfl⟩ := htranslated
    have hlen := List.length_pos_iff.mpr hne
    -- the byte behind the redpath should be the dot of the suffix
    have hexpected : ((chainPath text (n :: above)).map some)[
        state.pathlen + 1 + n.redpath.bytes.length]? = some (some dot) := by
      have hlast : chainPath text (n :: above) =
          (chainPath text above ++ slash :: dashed n) ++ adminSuffix := by
        simp [chainPath_cons, nodeCgroupName, hconf]
      have hidx : state.pathlen + 1 + n.redpath.bytes.length =
          (chainPath text above ++ slash :: dashed n).length := by
        simp [h.length]
        omega
      rw [hlast, hidx, List.getElem?_map, List.getElem?_append_right (Nat.le_refl _), Nat.sub_self]
      rfl
    have hactual := Buffer.getElem?_slice
      (b := ((state.path.writeAll (state.pathlen + 1) ((dashed n).map some ++ [some 0])).writeAll
        (state.pathlen + 1) (adminSuffix.map some)).store state.pathlen (some slash))
      (i := 0) (j := state.pathlen + 1 + (n.redpath.bytes.length + 6))
      (state.pathlen + 1 + n.redpath.bytes.length) (by omega)
    have hpath := h'.path
    dsimp only at hpath
    have hzero := copied_zero state.path (state.pathlen + 1) n
    rw [length_dashed] at hzero
    rw [hpath, hexpected, Nat.zero_add, Buffer.store_other (by omega), Buffer.writeAll_apply,
      hzero, Option.some.injEq] at hactual
    -- but it is a later byte of the suffix or the zero of the copy
    have hnot : ∀ j, 0 < j → ((adminSuffix.map some)[j]?).getD (some 0) ≠ some dot := by
      intro j hj
      by_cases hlt : j < 6
      · interval_cases j <;> decide
      · rw [List.getElem?_eq_none (by rw [List.length_map, length_adminSuffix]; omega)]
        decide
    exact hnot _ hlen hactual.symm
  · cases htranslated

theorem prepareMiddle_final {mask : Ctrlmask}
    (h : prepareMiddleCgroup k p state n mask w = .ok state' w') : state'.final = state.final := by
  by_cases hzero : state.final = 0
  · rw [prepareMiddleCgroup, if_pos hzero] at h
    cases h
    rfl
  · obtain ⟨_, _, _, _, _, he⟩ := wp_ok (prepareMiddle_entered hzero) h
    rw [he.state]

theorem prepareCgroups_final {start : CgroupT} {below above : List RedNode}
    (h : prepareCgroups k p start (maskOf below) above w = .ok state w') :
    state.final = maskOf (below ++ above) := by
  induction above generalizing below state w' with
  | nil =>
    rw [List.append_nil]
    exact (wp_ok prepareRoot_rooted h).1
  | cons n above ih =>
    obtain ⟨state₁, w₁, hrun, hmiddle⟩ := prepareCgroups_cons_ok h
    rw [← maskOf_concat] at hrun
    rw [prepareMiddle_final hmiddle, ih hrun, List.append_assoc, List.singleton_append]

/-! ## A run -/

theorem setCgroups_ok {node : Family} {rootpath : Option CStr}
    (h : setCgroups k p node rootpath w = .ok state w') :
    ∃ w₁, prepareCgroups k p { rootpath := rootpath } (maskOf []) (node.node :: node.parents) w =
      .ok state w₁ ∧ enterLeafCgroup k p state w₁ = .ok () w' := by
  obtain ⟨state₁, w₁, hrun, h⟩ := bind_eq_ok.mp h
  obtain ⟨_, w₂, henter, h⟩ := bind_eq_ok.mp h
  cases h
  exact ⟨w₁, hrun, henter⟩

/-- **The cgroups of a run have the names of their nodes** exactly when no node of the chain has an
admin config, and none has a redpath that stands for a directory itself or for its parent. The
redpaths are not empty: `RedNodesLoad` has found a directory there. -/
theorem cgroupsNamed_iff {node : Family} {rootpath : Option CStr}
    (hloaded : ∀ n ∈ node.node :: node.parents, n.redpath.bytes ≠ [])
    (hrun : setCgroups k p node rootpath w = .ok state w') (hfinal : state.final ≠ 0) :
    CgroupsNamed k p node rootpath w ↔
      ∀ n ∈ node.node :: node.parents, n.confadmin = none ∧
        n.redpath.bytes ≠ [dot] ∧ n.redpath.bytes ≠ [dot, dot] := by
  obtain ⟨w₁, hprepared, _⟩ := setCgroups_ok hrun
  have hmask : maskOf (node.node :: node.parents) ≠ 0 := by
    rw [prepareCgroups_final hprepared] at hfinal
    exact hfinal
  have hnonzero : ∀ {below above : List RedNode} {state : CgroupT} {w₂ : World},
      node.node :: node.parents = below ++ above →
      prepareCgroups k p { rootpath := rootpath } (maskOf below) above w = .ok state w₂ →
      state.final ≠ 0 := fun hchain h => by
    rw [prepareCgroups_final h, ← hchain]
    exact hmask
  constructor
  · rintro ⟨text, root, hnamed⟩ n hn
    obtain ⟨below, above, hchain⟩ := List.append_of_mem hn
    rw [hchain] at hprepared
    obtain ⟨state', w₂, hnode⟩ := prepareCgroups_above_ok hprepared
    rw [List.nil_append] at hnode
    obtain ⟨state₁, w₃, habove, hmiddle⟩ := prepareCgroups_cons_ok hnode
    rw [← maskOf_concat] at habove
    have hchain' : node.node :: node.parents = (below ++ [n]) ++ above := by simp [hchain]
    obtain ⟨_, _, _, _, _, he⟩ := wp_ok (prepareMiddle_entered (hnonzero hchain' habove)) hmiddle
    have hN := hnamed _ _ _ _ hchain hnode
    have hadmin : n.confadmin = none := by
      by_contra hno
      exact admin_misnamed he hno (hloaded n hn) (hnamed _ _ _ _ hchain' habove) hN
    refine ⟨hadmin, ?_⟩
    obtain ⟨d, _, hd, _⟩ := hN.cgroup
    have hname : nodeCgroupName n = dashed n := by simp [nodeCgroupName, hadmin]
    cases d with
    | nil => simp at hd
    | cons m d =>
      simp only [List.map_cons, List.cons_append, List.cons.injEq, hname] at hd
      have hvalid := m.valid
      rw [hd.1] at hvalid
      refine ⟨fun h => hvalid.2.1 ?_, fun h => hvalid.2.2.1 ?_⟩ <;> rw [dashed, h] <;> rfl
  · intro hall
    have hroot := hprepared
    rw [← List.append_nil (node.node :: node.parents)] at hroot
    obtain ⟨state₀, w₀, hroot⟩ := prepareCgroups_above_ok hroot
    obtain ⟨_, hrooted⟩ := wp_ok prepareRoot_rooted hroot
    obtain ⟨text, root, hrooted⟩ := hrooted (by rw [List.nil_append]; exact hmask)
    refine ⟨text, root, fun below above => ?_⟩
    induction above generalizing below with
    | nil =>
      intro state w₂ hchain h
      rw [List.append_nil] at hchain
      rw [← hchain] at h
      rw [List.nil_append] at hroot
      rw [hroot] at h
      cases h
      exact hrooted.named
    | cons n above ih =>
      intro state w₂ hchain h
      obtain ⟨state₁, w₃, habove, hmiddle⟩ := prepareCgroups_cons_ok h
      rw [← maskOf_concat] at habove
      have hchain' : node.node :: node.parents = (below ++ [n]) ++ above := by simp [hchain]
      obtain ⟨_, _, _, _, _, he⟩ := wp_ok (prepareMiddle_entered (hnonzero hchain' habove)) hmiddle
      obtain ⟨hadmin, hdot⟩ := hall n (by simp [hchain])
      exact (ih _ _ _ hchain' habove).step he hadmin hdot

/-! ## Runs from the root cgroup -/

/-- A node with a limit on its pids. -/
def limitedNode (path : CStr) (confadmin : Option RedConfig) : RedNode where
  config := some {
    headers := { nodeAlias := .lit "app" }
    conftag := { cgroups := some { pids := some { max := some (.lit "10") } } } }
  confadmin := confadmin
  redpath := path

def adminConfig : RedConfig where
  headers := { nodeAlias := .lit "admin" }

def appFamily (confadmin : Option RedConfig) : Family :=
  ⟨limitedNode (.lit "/rednode/app") confadmin, [limitedNode (.lit "/rednode/") none]⟩

/-- The process is in the root cgroup. -/
def sysWorld : World := ⟨.ofDirs [sysMount] [(42, sysMount)], []⟩

theorem cgroupsNamed_iff_app :
    CgroupsNamed sysKernel sysProcess (appFamily none) none sysWorld ↔
      ∀ n ∈ [limitedNode (.lit "/rednode/app") none, limitedNode (.lit "/rednode/") none],
        n.confadmin = none ∧ n.redpath.bytes ≠ [dot] ∧ n.redpath.bytes ≠ [dot, dot] := by
  have hends : endsIn (setCgroups sysKernel sysProcess (appFamily none) none) sysWorld
      (fun state _ => decide (state.final ≠ 0)) = true := by decide +kernel
  obtain ⟨state, w', hrun, hfinal⟩ := of_endsIn hends
  exact cgroupsNamed_iff (by decide) hrun (by simpa using hfinal)

/-- The cgroup of `/rednode/app` with an admin config is `.adminde-app`. -/
theorem admin_cgroup_misnamed : ∃ state w',
    setCgroups sysKernel sysProcess (appFamily (some adminConfig)) none sysWorld = .ok state w' ∧
      state.final ≠ 0 ∧
      ¬ CgroupsNamed sysKernel sysProcess (appFamily (some adminConfig)) none sysWorld := by
  have hends : endsIn (setCgroups sysKernel sysProcess (appFamily (some adminConfig)) none) sysWorld
      (fun state _ => decide (state.final ≠ 0) && decide (state.dirfd.map (·.map (·.bytes)) =
        some ((CStr.lit ".adminde-app").bytes :: (CStr.lit "-rednode-").bytes ::
          sysMount.map (·.bytes)))) = true := by decide +kernel
  obtain ⟨state, w', hrun, htest⟩ := of_endsIn hends
  rw [Bool.and_eq_true, decide_eq_true_eq, decide_eq_true_eq] at htest
  refine ⟨state, w', hrun, htest.1, ?_⟩
  rintro ⟨text, root, hnamed⟩
  obtain ⟨w₁, hprepared, _⟩ := setCgroups_ok hrun
  obtain ⟨d, hd, hbytes, _⟩ := (hnamed [] _ state w₁ rfl hprepared).cgroup
  rw [hd, Option.map_some, Option.some.injEq, hbytes] at htest
  have hname := (List.cons.inj htest.2).1
  exact absurd hname (by decide)

end Cgroup
end RedPak
