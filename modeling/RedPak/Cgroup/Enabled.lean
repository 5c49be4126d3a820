import RedPak.Cgroup.Prepare

/-!
# Cgroup.Enabled

Controllers are enabled before they are used: whenever a setting of a node is written, its
controller is enabled in the cgroup in which that of the node was opened.

* `prepareMiddle_ready`: one node, whose controllers are enabled before and whose children find
  theirs enabled after.
* `prepareCgroups_ready`: the recursion over the chain.
* `controllers_enabled_before_use`: a whole run, and `ensure_required_controllers` by itself.
-/

namespace RedPak
namespace Cgroup

open Conf Layered Layered.Action

variable {k : Kernel} {p : Process} {w : World}

/-! ## The cgroups of a chain -/

/-- The cgroup of a node: it was opened under the name of the node in that of the parent. -/
def Opens (k : Kernel) (p : Process) (n : RedNode) (prev d : Dir) : Prop :=
  ∃ path off len path' name t, translatedName n path off = some (len, path') ∧
    p.string path' off = some name ∧ k.openat t prev name = some d

/-- The cgroup in which the next node is opened. -/
def lastOpened (root : Option Dir) : List (RedNode × Dir) → Option Dir
  | [] => root
  | (_, d) :: _ => some d

/-- Nodes with their cgroups, leaf first, from the root cgroup down. -/
def Descends (k : Kernel) (p : Process) (root : Option Dir) : List (RedNode × Dir) → Prop
  | [] => True
  | (n, d) :: above =>
    (∃ prev, lastOpened root above = some prev ∧ Opens k p n prev d) ∧ Descends k p root above

/-- The cgroup in which the first node below is opened: that of the last node above, or the root. -/
def CgroupAbove (k : Kernel) (p : Process) (start : CgroupT) (chain above : List RedNode)
    (w₀ : World) (prev : Dir) : Prop :=
  ∃ base w₁ reached, prepareRootCgroup k p start (maskOf chain) w₀ = .ok base w₁ ∧
    reached.map (·.1) = above ∧ Descends k p base.dirfd reached ∧
    lastOpened base.dirfd reached = some prev

theorem CgroupAbove.cons {start : CgroupT} {chain above : List RedNode} {w₀ : World} {n : RedNode}
    {prev d : Dir} (h : CgroupAbove k p start chain above w₀ prev) (hopens : Opens k p n prev d) :
    CgroupAbove k p start chain (n :: above) w₀ d := by
  obtain ⟨base, w₁, reached, hbase, rfl, hdescends, hlast⟩ := h
  exact ⟨base, w₁, (n, d) :: reached, hbase, rfl, ⟨⟨prev, hlast, hopens⟩, hdescends⟩, rfl⟩

/-! ## Settings -/

/-- A setting that is written in the cgroup `g` while the tree is `t` is one of the node, and `g` is
the cgroup of the node: it was opened in the one of the previous node under the name that stands
behind the path then. -/
structure OwnSetting (k : Kernel) (p : Process) (n : RedNode) (state : CgroupT) (prev : Dir)
    (t : Tree) (g : Dir) (c : Ctrlid) (file value : CStr) : Prop where
  entry : (c, file, some value) ∈ nodeConfEntries n
  opened : ∃ len path name, translatedName n state.path (state.pathlen + 1) = some (len, path) ∧
    p.string path (state.pathlen + 1) = some name ∧ k.openat t prev name = some g

/-- The setting is one of a node of the chain, the parents of which were prepared before: its cgroup
was opened in the cgroup of the previous node, or in the root, and the controller is needed by the
node and enabled there. -/
def SettingReady (k : Kernel) (p : Process) (start : CgroupT) (chain : List RedNode) (w₀ : World)
    (t : Tree) (g : Dir) (c : Ctrlid) (file value : CStr) : Prop :=
  ∃ below n above state w₁ prev, chain = below ++ n :: above ∧
    prepareCgroups k p start (maskOf (below ++ [n])) above w₀ = .ok state w₁ ∧
    state.dirfd = some prev ∧ CgroupAbove k p start chain above w₀ prev ∧
    OwnSetting k p n state prev t g c file value ∧
    (requiredBy n).has c = true ∧ t.subtreeControl prev c = true

/-- Since a state, the tree has grown and every setting was written when `P` held. -/
def SettingsSince (w₀ : World) (P : Tree → Dir → Ctrlid → CStr → CStr → Prop) (w : World) : Prop :=
  w₀.tree.Grows w.tree ∧ ∃ new, w.calls = new ++ w₀.calls ∧
    ∀ t g c file value, (t, Call.write g (.setting c file) value) ∈ new → P t g c file value

variable {P : Tree → Dir → Ctrlid → CStr → CStr → Prop} {w₀ w₁ : World}

theorem SettingsSince.refl (w₀ : World) : SettingsSince w₀ P w₀ :=
  ⟨.refl _, [], rfl, fun _ _ _ _ _ h => by cases h⟩

theorem SettingsSince.trans (h : SettingsSince w₀ P w₁) (h' : SettingsSince w₁ P w) :
    SettingsSince w₀ P w := by
  obtain ⟨hgrows, new, hnew, hP⟩ := h
  obtain ⟨hgrows', new', hnew', hP'⟩ := h'
  refine ⟨hgrows.trans hgrows', new' ++ new, by rw [hnew', hnew, List.append_assoc], ?_⟩
  intro t g c file value hmem
  exact (List.mem_append.mp hmem).elim (hP' t g c file value) (hP t g c file value)

theorem SettingsSince.mono {P' : Tree → Dir → Ctrlid → CStr → CStr → Prop}
    (h : SettingsSince w₀ P w) (hP : ∀ t g c file value, P t g c file value → P' t g c file value) :
    SettingsSince w₀ P' w := by
  obtain ⟨hgrows, new, hnew, hall⟩ := h
  exact ⟨hgrows, new, hnew, fun t g c file value hmem => hP _ _ _ _ _ (hall t g c file value hmem)⟩

def Call.NoSetting (c : Call) : Prop := ∀ g ctrl file value, c ≠ .write g (.setting ctrl file) value

namespace Call

theorem noSetting_readSelf : readSelf.NoSetting := fun _ _ _ _ h => by cases h

theorem noSetting_mkdirat (d : Dir) (n : Name) : (mkdirat d n).NoSetting :=
  fun _ _ _ _ h => by cases h

theorem noSetting_read (d : Dir) (e : Entry) : (read d e).NoSetting := fun _ _ _ _ h => by cases h

theorem noSetting_procs (d : Dir) (v : CStr) : (write d .procs v).NoSetting :=
  fun _ _ _ _ h => by cases h

theorem noSetting_subtreeControl (d : Dir) (v : CStr) : (write d .subtreeControl v).NoSetting :=
  fun _ _ _ _ h => by cases h

end Call

theorem stable_settingsSince (k : Kernel) (w₀ : World)
    (P : Tree → Dir → Ctrlid → CStr → CStr → Prop) :
    k.Stable Call.NoSetting (SettingsSince w₀ P) := by
  rintro w c t hc ⟨hgrows, new, hnew, hP⟩ he
  refine ⟨hgrows.trans he.grows, (w.tree, c) :: new, by rw [hnew]; rfl, ?_⟩
  intro t' g ctrl file value hmem
  rcases List.mem_cons.mp hmem with h | h
  · cases h
    exact absurd rfl (hc g ctrl file value)
  · exact hP t' g ctrl file value h

/-! ## One node -/

/-- Nothing is to be done, or the controllers of the mask are enabled in the last cgroup. -/
def Prepared (state : CgroupT) (mask : Ctrlmask) (w : World) : Prop :=
  state.final = 0 ∨ ∃ prev, state.dirfd = some prev ∧ w.tree.dirs prev = true ∧
    ∀ c, mask.has c = true → w.tree.subtreeControl prev c = true

theorem prepareRoot_ready (state : CgroupT) (mask : Ctrlmask) (w : World) :
    wp (prepareRootCgroup k p state mask)
      (fun state' w' => SettingsSince w P w' ∧ Prepared state' mask w')
      (fun _ w' => SettingsSince w P w') w := by
  have hstable := stable_settingsSince k w P
  rw [prepareRootCgroup, wp_ite]
  split
  · exact ⟨.refl w, .inl (by assumption)⟩
  rw [wp_bind]
  refine wp_mono (keeps_makeRootPath hstable Call.noSetting_readSelf w (.refl w)) ?_
    (fun _ _ h => h)
  intro state₁ w₁ hw₁
  rw [wp_bind, wp_get]
  split
  · exact hw₁
  split
  · exact hw₁
  rename_i dirfd hopen
  rw [wp_bind]
  refine wp_mono ((keeps_openCgroupAtDir hstable fun _ e n _ _ =>
    Call.noSetting_mkdirat e n).also hw₁ openCgroupAtDir_spec) ?_ (fun _ _ h => h)
  rintro ⟨pidfd, created⟩ w₂ ⟨hw₂, hgrows₂, _⟩
  rw [wp_bind]
  refine wp_mono ((keeps_moveProcs (stable_and hstable (stable_grows k w₁.tree))
    (Call.noSetting_read _ _) fun v => Call.noSetting_procs _ v) w₂ ⟨hw₂, hgrows₂⟩) ?_
    (fun _ _ h => h.1)
  rintro _ w₃ ⟨hw₃, hgrows₃⟩
  rw [wp_bind]
  have hdirs : w₃.tree.dirs dirfd = true := hgrows₃.dirs _ (openat_dirs hopen)
  refine wp_mono ((keeps_ensure hstable (fun up _ => Call.noSetting_read up _)
    fun up v _ => Call.noSetting_subtreeControl up v).also hw₃
    (ensureRequiredControllers_spec _ hdirs)) ?_ (fun _ _ h => h)
  rintro _ w₄ ⟨hw₄, hgrows₄, hensured, _⟩
  exact ⟨hw₄, .inr ⟨dirfd, rfl, hgrows₄.dirs _ hdirs, fun c hc => (hensured c (by simp [hc])).2⟩⟩

/-- A setting of the node, the controller of which is enabled in the cgroup of the previous one. -/
def ReadyIn (k : Kernel) (p : Process) (n : RedNode) (state : CgroupT) (prev : Dir) (t : Tree)
    (g : Dir) (c : Ctrlid) (file value : CStr) : Prop :=
  OwnSetting k p n state prev t g c file value ∧ t.subtreeControl prev c = true

theorem prepareMiddle_ready {state : CgroupT} {n : RedNode} {mask : Ctrlmask} {prev : Dir}
    (hprev : state.dirfd = some prev) (hdirs : w.tree.dirs prev = true)
    (hready : ∀ c, (requiredBy n).has c = true → w.tree.subtreeControl prev c = true) :
    wp (prepareMiddleCgroup k p state n mask)
      (fun state' w' => SettingsSince w (ReadyIn k p n state prev) w' ∧ Prepared state' mask w' ∧
        (state'.final = 0 ∨ ∃ d, state'.dirfd = some d ∧ Opens k p n prev d))
      (fun _ w' => SettingsSince w (ReadyIn k p n state prev) w') w := by
  have hstable := stable_settingsSince k w (ReadyIn k p n state prev)
  rw [prepareMiddleCgroup, wp_ite]
  split
  · rename_i hzero
    exact ⟨.refl w, .inl hzero, .inl hzero⟩
  dsimp only
  rw [hprev]
  split
  · rename_i len path dirfd hname hdirfd
    cases hdirfd
    split
    · exact .refl w
    rename_i name hstring
    rw [wp_bind]
    refine wp_mono ((keeps_openCgroupAtDir hstable fun _ e n _ _ =>
      Call.noSetting_mkdirat e n).also (.refl w)
      openCgroupAtDir_spec) ?_ (fun _ _ h => h)
    rintro ⟨g, created⟩ w₁ ⟨hw₁, hgrows₁, hopen⟩
    rw [wp_bind]
    refine wp_mono ((keeps_mkdirat (stable_and hstable (stable_grows k w₁.tree))
      fun _ e n _ _ => Call.noSetting_mkdirat e n) w₁ ⟨hw₁, .refl _⟩) ?_ (fun _ _ h => h.1)
    rintro _ w₂ ⟨hw₂, hgrows₂⟩
    -- the settings are written now, in a tree that has grown since the start
    rw [wp_bind]
    refine setCgroupNodeConf_spec fun nerr calls hcalls => ?_
    have hw₃ : SettingsSince w (ReadyIn k p n state prev) ⟨w₂.tree, calls ++ w₂.calls⟩ := by
      refine hw₂.trans ⟨.refl _, calls, rfl, fun t g' c file value hmem => ?_⟩
      obtain ⟨c', file', value', hentry, heq⟩ := hcalls _ hmem
      cases heq
      exact ⟨⟨hentry, len, path, name, hname, hstring, openat_grows hgrows₂ hopen⟩,
        hw₂.1.subtreeControl prev c hdirs (hready c (nodeConfEntries_required hentry))⟩
    rw [wp_bind]
    refine wp_check (fun _ => ?_) hw₃
    rw [wp_bind]
    have hg : w₂.tree.dirs g = true := hgrows₂.dirs _ (openat_dirs hopen)
    refine wp_mono ((keeps_ensure hstable (fun up _ => Call.noSetting_read up _)
      fun up v _ => Call.noSetting_subtreeControl up v).also hw₃
      (ensureRequiredControllers_spec _ hg)) ?_ (fun _ _ h => h)
    rintro _ w₄ ⟨hw₄, hgrows₄, hensured, _⟩
    exact ⟨hw₄, .inr ⟨g, rfl, hgrows₄.dirs _ hg, fun c hc => (hensured c (by simp [hc])).2⟩,
      .inr ⟨g, rfl, _, _, _, _, _, _, hname, hstring, hopen⟩⟩
  · exact .refl w

/-! ## The chain -/

theorem prepareCgroups_ready {start : CgroupT} {chain below above : List RedNode}
    (hchain : chain = below ++ above) :
    wp (prepareCgroups k p start (maskOf below) above)
      (fun state w' => SettingsSince w (SettingReady k p start chain w) w' ∧
        Prepared state (maskOf below) w' ∧
        ∀ d, state.final ≠ 0 → state.dirfd = some d → CgroupAbove k p start chain above w d)
      (fun _ w' => SettingsSince w (SettingReady k p start chain w) w') w := by
  induction above generalizing below with
  | nil =>
    rw [List.append_nil] at hchain
    subst hchain
    refine wp_mono (wp_run (prepareRoot_ready start (maskOf chain) w)) ?_ (fun _ _ h => h)
    rintro base w₁ ⟨hrun, hsince, hprepared⟩
    exact ⟨hsince, hprepared, fun d _ hd => ⟨base, w₁, [], hrun, rfl, trivial, hd⟩⟩
  | cons n above ih =>
    rw [prepareCgroups]
    split
    · exact .refl w
    have hrest := @ih (below ++ [n]) (by simp [hchain])
    rw [maskOf_concat] at hrest
    rw [wp_bind]
    refine wp_mono (wp_run hrest) ?_ (fun _ _ h => h)
    rintro state w₁ ⟨hrun, hsince, hprepared, habove⟩
    rcases hprepared with hzero | ⟨prev, hprev, hdirs, henabled⟩
    · rw [prepareMiddleCgroup, if_pos hzero]
      exact ⟨hsince, .inl hzero, fun _ hfinal _ => absurd hzero hfinal⟩
    by_cases hzero : state.final = 0
    · rw [prepareMiddleCgroup, if_pos hzero]
      exact ⟨hsince, .inl hzero, fun _ hfinal _ => absurd hzero hfinal⟩
    have hcgroup := habove prev hzero hprev
    have hmiddle := @prepareMiddle_ready k p w₁ state n (maskOf below) prev hprev hdirs
      fun c hc => henabled c (by simp [hc])
    have hlift : ∀ w', SettingsSince w₁ (ReadyIn k p n state prev) w' →
        SettingsSince w (SettingReady k p start chain w) w' := by
      refine fun w' h => hsince.trans (h.mono ?_)
      rintro t g c file value ⟨hown, hen⟩
      rw [← maskOf_concat] at hrun
      exact ⟨below, n, above, state, w₁, prev, hchain, hrun, hprev, hcgroup, hown,
        nodeConfEntries_required hown.entry, hen⟩
    refine wp_mono hmiddle ?_ (fun _ w' h => hlift w' h)
    rintro state' w' ⟨hsettings, hprepared', hopened⟩
    refine ⟨hlift w' hsettings, hprepared', fun d hfinal hd => ?_⟩
    obtain ⟨d', hd', hopens⟩ := hopened.resolve_left hfinal
    rw [hd, Option.some.injEq] at hd'
    subst hd'
    exact hcgroup.cons hopens

/-! ## A run -/

/-- Every setting that a run of `set_cgroups` writes. -/
def ControllersReady (k : Kernel) (p : Process) (t₀ : Tree) (node : Family)
    (rootpath : Option CStr) : Prop :=
  ∀ t g c file value,
    (t, Call.write g (.setting c file) value) ∈
      (after (setCgroups k p node rootpath) ⟨t₀, []⟩).calls →
      SettingReady k p { rootpath := rootpath } (node.node :: node.parents) ⟨t₀, []⟩ t g c file
        value

/-- A success of `ensure_required_controllers`. -/
def EnsureReady (k : Kernel) (w : World) (d : Dir) (mask : Ctrlmask) (w' : World) : Prop :=
  w.tree.dirs d = true → ensureRequiredControllers k d mask w = .ok () w' →
    (∀ c, mask.has c = true →
      k.available w'.tree d c = true ∧ w'.tree.subtreeControl d c = true) ∧
    ∃ up, k.Supplied w.tree d (fun c => mask.has c = true) up

/-- **Controllers are enabled before they are used**, in every run over every tree, and a success of
`ensure_required_controllers` stands for what it says. -/
theorem controllers_enabled_before_use (k : Kernel) (p : Process) :
    (∀ t₀ node rootpath, ControllersReady k p t₀ node rootpath) ∧
      ∀ w d mask w', EnsureReady k w d mask w' := by
  refine ⟨fun t₀ node rootpath => ?_, fun w d mask w' hd hrun => ?_⟩
  · have hrun : wp (setCgroups k p node rootpath)
        (fun _ => SettingsSince ⟨t₀, []⟩ (SettingReady k p { rootpath := rootpath }
          (node.node :: node.parents) ⟨t₀, []⟩))
        (fun _ => SettingsSince ⟨t₀, []⟩ (SettingReady k p { rootpath := rootpath }
          (node.node :: node.parents) ⟨t₀, []⟩)) ⟨t₀, []⟩ := by
      rw [setCgroups, wp_bind]
      refine wp_mono (@prepareCgroups_ready k p ⟨t₀, []⟩ _ _ [] _ rfl) ?_ (fun _ _ h => h)
      rintro state w₁ ⟨hw₁, -⟩
      exact (keeps_enterLeaf (stable_settingsSince _ _ _) Call.noSetting_procs).bind
        (fun _ => keeps_pure _) w₁ hw₁
    obtain ⟨_, new, hnew, hall⟩ := after_of_wp hrun
    intro t g c file value hmem
    rw [hnew, List.append_nil] at hmem
    exact hall t g c file value hmem
  · exact (wp_ok (ensureRequiredControllers_spec mask hd) hrun).2

end Cgroup
end RedPak
