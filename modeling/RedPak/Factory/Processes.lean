import RedPak.Factory.SharedDisk

/-!
# Factory.Processes

Whole processes on one file system: some of them use a factory, the others scan.

* `leaves_exec`, `leaves_session`: what the calls of a process leave while the others go on.
* `factories_keep`: nodes that can be seen are whole in every state that the processes come to.
-/

namespace RedPak
namespace Factory

open Conf Node Layered
open Layered.Buffer (slice writeAll)
open Layered.Buffer

variable {ω φ : Type} {os : FactoryOs ω} {saves : Saves os} {real : CStr → φ} {ledger : Ledger ω φ}
  {w w' : ω}
  {J : Journal saves real ledger} {fab fab' : RednodeFactory} {setting : Option Setting}

/-! ## Settings -/

/-- Without bytes that are zero. -/
def Setting.NulFree (s : Setting) : Prop := (0 : UInt8) ∉ s.root ++ s.node

/-- The directory of the node. -/
def Setting.directory (s : Setting) : CStr :=
  CStr.ofBytes (s.root ++ [slash] ++ slashed s.node).dropLast

/-- The factory has the setting. -/
structure Settled (fab : RednodeFactory) (setting : Option Setting) : Prop where
  holds : Holds fab setting
  nulFree : ∀ s, setting = some s → s.NulFree

/-- The bytes that a call sets are those of a string. -/
def Call.NulFree : Call → Prop
  | .setRootLen path => (0 : UInt8) ∉ path
  | .setNodeLen path => (0 : UInt8) ∉ path
  | _ => True

theorem IsSet.slice_eq {s : Setting} (h : IsSet fab s) :
    slice fab.path 0 fab.nodeLength = s.root ++ [slash] ++ slashed s.node := by
  rw [← slice_append (Nat.zero_le fab.rootLength) h.root_le, h.rootBytes, h.nodeBytes]

theorem IsSet.textual {s : Setting} (h : IsSet fab s) (hfree : s.NulFree) : Textual fab := by
  have hpos : 0 < fab.nodeLength := Nat.lt_of_lt_of_le h.root_pos h.root_le
  refine ⟨?_, by rw [getLast?_slice hpos, h.nodeEnd]⟩
  have hslash : (0 : UInt8) ≠ slash := by decide
  have hparts : (0 : UInt8) ∉ s.root ∧ (0 : UInt8) ∉ s.node := by
    simpa [Setting.NulFree] using hfree
  rw [h.slice_eq, slashed]
  split <;> simp [hparts, hslash]

theorem IsSet.dir_eq {s : Setting} (h : IsSet fab s) : fab.dir = s.directory := by
  have hpos : 0 < fab.nodeLength := Nat.lt_of_lt_of_le h.root_pos h.root_le
  have hconcat := @slice_concat _ fab.path 0 (fab.nodeLength - 1) (Nat.zero_le _)
  rw [Nat.sub_add_cancel hpos, h.slice_eq] at hconcat
  rw [RednodeFactory.dir, Setting.directory, hconcat, List.dropLast_concat]

theorem Settled.untouched (h : Settled fab setting) (h' : Untouched fab fab') :
    Settled fab' setting := ⟨h.holds.untouched h', h.nulFree⟩

theorem nulFree_strip {path : List UInt8} (h : (0 : UInt8) ∉ path) :
    (0 : UInt8) ∉ stripRoot path ∧ (0 : UInt8) ∉ stripNode path := by
  have hroot : (0 : UInt8) ∉ stripRoot path := fun hmem =>
    h ((List.rdropWhile_prefix _ _).subset hmem)
  exact ⟨hroot, fun hmem => hroot ((List.dropWhile_suffix _).subset hmem)⟩

/-! ## Calls that set the path -/

section

variable {α : Type} {P : α → RednodeFactory → ω → Prop} {f : Unit → FactoryCalls ω α}

theorem leaves_set (h : J.Leaves (f ()) fab' w P) : J.Leaves (set fab' >>= f) fab w P := h

theorem leaves_setLengths {rootLength nodeLength : Nat}
    (h : J.Leaves (f ()) ⟨rootLength, nodeLength, fab.path⟩ w P) :
    J.Leaves (Calls.setLengths rootLength nodeLength >>= f) fab w P := h

end

theorem leaves_setRootLen (hw : (nodes os real ledger).Sound w) (path : List UInt8) :
    J.Leaves (Calls.rednodeFactorySetRootLen path) fab w fun status fab' _ =>
      if status = rednodeFactoryOk then IsSet fab' ⟨stripRoot path, []⟩ else fab' = fab := by
  refine leaves_ite (fun _ => leaves_pure fun _ _ _ => rfl) fun hlen => ?_
  refine leaves_ite (fun _ => leaves_pure fun _ _ _ => rfl) fun habs => ?_
  have hlen' : (stripRoot path).length + 1 < rednodeFactoryPathLen := by
    rcases eq_or_ne (stripRoot path) [] with hnil | hne
    · rw [hnil]
      decide
    · exact Nat.not_le.mp fun hge => hlen ⟨hne, hge⟩
  have habs' : stripRoot path ≠ [] → (stripRoot path).head? = some slash := fun hne =>
    not_not.mp fun hhead => habs ⟨hne, hhead⟩
  refine Leaves.bind hw leaves_copyPath fun _ fab₁ t₁ ht₁ _ h₁ => ?_
  refine Leaves.bind ht₁ leaves_copyPath fun _ fab₂ t₂ _ _ h₂ => ?_
  subst h₁ h₂
  refine leaves_setLengths (leaves_pure fun _ _ _ => ?_)
  rw [if_pos rfl]
  exact isSet_root habs' hlen'

theorem leaves_setNodeLen (hw : (nodes os real ledger).Sound w) (h : Holds fab setting)
    (path : List UInt8) :
    J.Leaves (Calls.rednodeFactorySetNodeLen path) fab w fun status fab' _ =>
      if status = rednodeFactoryOk then
        Holds fab' (setting.map fun s => ⟨s.root, stripNode path⟩) else fab' = fab := by
  refine leaves_get (leaves_ite (fun _ => leaves_pure fun _ _ _ => rfl) fun hroot => ?_)
  cases setting with
  | none => exact absurd h.1 hroot
  | some s =>
    refine leaves_ite (fun hnil => leaves_setLengths (leaves_pure fun _ _ _ => ?_)) fun hne => ?_
    · have hnode : slashed (stripNode path) = [] := if_pos hnil
      rw [if_pos rfl]
      exact ⟨h.root_pos, Nat.le_refl _, Nat.lt_of_le_of_lt h.root_le h.node_lt, h.first,
        h.rootEnd, h.rootEnd, h.rootBytes, (slice_self _ _).trans hnode.symm⟩
    · refine leaves_ite (fun _ => leaves_pure fun _ _ _ => rfl) fun hlen => ?_
      refine Leaves.bind hw leaves_copyPath fun _ fab₁ t₁ ht₁ _ h₁ => ?_
      refine Leaves.bind ht₁ leaves_copyPath fun _ fab₂ t₂ _ _ h₂ => ?_
      subst h₁ h₂
      refine leaves_setLengths (leaves_pure fun _ _ _ => ?_)
      rw [if_pos rfl]
      exact isSet_node h hne (Nat.not_le.mp hlen)

/-! ## Calls that create a node -/

theorem textual_sysfab (htext : Textual fab) (hoff : 0 < nodeOffset fab) :
    Textual (sysfab os fab (nodeOffset fab)) := by
  have hle := nodeOffset_le fab
  have hslice : slice (sysfab os fab (nodeOffset fab)).path 0
      (sysfab os fab (nodeOffset fab)).nodeLength = slice fab.path 0 (nodeOffset fab) :=
    slice_sysfab fab _
  refine ⟨fun hmem => htext.nulFree ?_, ?_⟩
  · rw [hslice] at hmem
    rw [← slice_append (Nat.zero_le _) hle]
    exact List.mem_append_left _ hmem
  · rw [hslice, getLast?_slice hoff, nodeOffset_slash hoff]

/-- The factory of the parent is gone after it, whatever became of the parent. -/
theorem leaves_createRootNode (hdefault : DefaultPlaces os) (hready : Ready fab)
    (htext : Textual fab) (hw : (nodes os real ledger).Sound w)
    (hoff : fab.rootLength ≤ nodeOffset fab) (templatedir : CStr) :
    J.Leaves (Calls.createRootNode saves (nodeOffset fab) templatedir) fab w
      fun _ fab' _ => fab' = fab := by
  have hsystem := @leaves_createNode _ _ _ _ _ _ _ J _ hdefault (@ready_sysfab _ os _ hready hoff)
    (textual_sysfab htext (Nat.lt_of_lt_of_le hready.root_pos hoff)) hw
    ⟨.lit "system", rednodeFactoryDeftmplRoot, rednodeFactoryDeftmplRoot, templatedir⟩ false
  refine leaves_get (leaves_set ?_)
  exact Leaves.bind hw hsystem fun _ _ _ _ _ _ => leaves_set (leaves_pure fun _ _ _ => rfl)

theorem leaves_requireSystem (hdefault : DefaultPlaces os) (hready : Ready fab)
    (htext : Textual fab) (hw : (nodes os real ledger).Sound w) (mode : RednodeFactoryMode)
    (templatedir : CStr) :
    J.Leaves (Calls.requireSystem saves mode templatedir) fab w fun _ fab' _ => fab' = fab := by
  refine leaves_get (leaves_ite (fun _ => leaves_pure fun _ _ _ => rfl) fun _ => ?_)
  refine leaves_ite (fun _ => leaves_pure fun _ _ _ => rfl) fun hoff => ?_
  refine Leaves.bind hw (leaves_any gives_any) fun there fab₁ t₁ ht₁ _ hfab₁ => ?_
  subst hfab₁
  refine leaves_ite (fun _ => leaves_pure fun _ _ _ => rfl) fun _ => ?_
  exact leaves_createRootNode hdefault hready htext ht₁ (Nat.not_lt.mp hoff) templatedir

theorem gives_localias (hw : (nodes os real ledger).Sound w) (given : Option CStr) :
    J.Gives (Calls.localias os fab given) w fun result _ => Failing result := by
  have hdeduced : J.Gives (Calls.localias.deduced os fab) w fun result _ => Failing result := by
    refine gives_ite (fun _ => gives_pure fun _ _ _ => failed_ne (by decide)) fun _ => ?_
    refine Gives.bind hw gives_malloc fun there _ _ _ _ => gives_pure fun _ _ _ => ?_
    cases there with
    | true => trivial
    | false => exact failed_ne (by decide)
  unfold Calls.localias
  cases given with
  | none => exact hdeduced
  | some nodeAlias => exact gives_ite (fun _ => gives_pure fun _ _ _ => trivial) fun _ => hdeduced

theorem leaves_createCall (hdefault : DefaultPlaces os) (hready : Ready fab) (htext : Textual fab)
    (hw : (nodes os real ledger).Sound w) (params : Option RednodeFactoryParam) (update : Bool)
    (mode : RednodeFactoryMode) :
    J.Leaves (Calls.rednodeFactoryCreateNode saves params update mode) fab w fun status fab' t =>
      Untouched fab fab' ∧
        (status = rednodeFactoryOk → (nodes os real ledger).Whole t fab.dir) := by
  refine leaves_get (leaves_ite (fun _ => leaves_pure fun _ _ _ =>
    ⟨.refl _, fun hok => absurd hok (failed_ne (by decide))⟩) fun _ => ?_)
  have hnamed : J.Leaves (liftM (Calls.localias os fab (params.getD {}).nodeAlias)) fab w
      fun result fab' _ => fab' = fab ∧ Failing result :=
    leaves_liftM (Gives.mono (gives_localias hw _) fun _ _ _ h => ⟨rfl, h⟩)
  refine Leaves.bind hw hnamed fun nodeAlias fab₁ t₁ ht₁ _ h₁ => ?_
  obtain ⟨rfl, hfailing⟩ := h₁
  cases nodeAlias with
  | error e => exact leaves_pure fun _ _ _ => ⟨.refl _, fun hok => absurd hok hfailing⟩
  | ok nodeAlias =>
    refine Leaves.bind ht₁ (leaves_requireSystem hdefault hready htext ht₁ mode _)
      fun status fab₂ t₂ ht₂ _ hfab₂ => ?_
    subst hfab₂
    refine leaves_ite (fun hbad => leaves_pure fun _ _ _ => ⟨.refl _, fun hok => absurd hok hbad⟩)
      fun _ => ?_
    exact leaves_createNode hdefault hready htext ht₂ _ update

/-! ## Sequences of calls -/

/-- The node that a call has created, if it returned success. -/
def Call.created (setting : Option Setting) (status : Int) : Call → List CStr
  | .createNode _ _ _ =>
    if status = rednodeFactoryOk then (setting.map Setting.directory).toList else []
  | _ => []

/-- The nodes that the calls of a process have created. -/
def createdNodes : Option Setting → List Call → List Int → List CStr
  | setting, call :: calls, status :: statuses =>
    call.created setting status ++ createdNodes (Setting.next setting status call) calls statuses
  | _, _, _ => []

/-- What a call leaves: its setting, and its node. -/
structure CallLeaves (A : Records ω CStr Part) (setting : Option Setting) (call : Call)
    (status : Int) (fab : RednodeFactory) (t : ω) : Prop where
  settled : Settled fab (Setting.next setting status call)
  whole : ∀ d ∈ call.created setting status, A.Whole t d

theorem settled_root {path : List UInt8} (hfree : (0 : UInt8) ∉ path)
    (h : IsSet fab ⟨stripRoot path, []⟩) : Settled fab (some ⟨stripRoot path, []⟩) := by
  refine ⟨h, fun s hs => ?_⟩
  cases hs
  simpa [Setting.NulFree] using (nulFree_strip hfree).1

theorem settled_node {path : List UInt8} (hfree : (0 : UInt8) ∉ path) (h : Settled fab setting)
    (hnode : Holds fab' (setting.map fun s => ⟨s.root, stripNode path⟩)) :
    Settled fab' (setting.map fun s => ⟨s.root, stripNode path⟩) := by
  refine ⟨hnode, fun s hs => ?_⟩
  obtain ⟨s₀, rfl, rfl⟩ := Option.map_eq_some_iff.mp hs
  have hparts : (0 : UInt8) ∉ s₀.root ∧ (0 : UInt8) ∉ s₀.node := by
    simpa [Setting.NulFree] using h.nulFree s₀ rfl
  simpa [Setting.NulFree] using ⟨hparts.1, (nulFree_strip hfree).2⟩

/-- A call of `rednode_factory_set_root` that accepts the path sets it. -/
theorem leaves_rootCall (h : Settled fab setting) (hw : (nodes os real ledger).Sound w)
    {path : List UInt8} (hfree : (0 : UInt8) ∉ path) :
    J.Leaves (Calls.rednodeFactorySetRootLen path) fab w fun status fab' _ =>
      Settled fab' (if status = rednodeFactoryOk then some ⟨stripRoot path, []⟩ else setting) := by
  refine Gives.mono (leaves_setRootLen hw path) fun r _ _ hr => ?_
  dsimp only at hr ⊢
  by_cases hok : r.1 = rednodeFactoryOk
  · rw [if_pos hok] at hr ⊢
    exact settled_root hfree hr
  · rw [if_neg hok] at hr ⊢
    rw [hr]
    exact h

theorem leaves_nodeCall (h : Settled fab setting) (hw : (nodes os real ledger).Sound w)
    {path : List UInt8} (hfree : (0 : UInt8) ∉ path) :
    J.Leaves (Calls.rednodeFactorySetNodeLen path) fab w fun status fab' _ =>
      Settled fab' (if status = rednodeFactoryOk then
        setting.map fun s => ⟨s.root, stripNode path⟩ else setting) := by
  refine Gives.mono (leaves_setNodeLen hw h.holds path) fun r _ _ hr => ?_
  dsimp only at hr ⊢
  by_cases hok : r.1 = rednodeFactoryOk
  · rw [if_pos hok] at hr ⊢
    exact settled_node hfree h hr
  · rw [if_neg hok] at hr ⊢
    rw [hr]
    exact h

/-- **One call** of a process, while the others go on. -/
theorem leaves_exec (hdefault : DefaultPlaces os) (h : Settled fab setting)
    (hw : (nodes os real ledger).Sound w) {call : Call} (hfree : call.NulFree) :
    J.Leaves (Calls.exec saves call) fab w (CallLeaves (nodes os real ledger) setting call) := by
  cases call with
  | clear =>
    refine leaves_pure fun _ _ _ => ⟨⟨⟨rfl, rfl⟩, fun s hs => ?_⟩, fun d hd => ?_⟩
    · cases hs
    · cases hd
  | setRootLen path =>
    exact Gives.mono (leaves_rootCall h hw hfree) fun _ _ _ hr => ⟨hr, fun _ hd => by cases hd⟩
  | setRoot path =>
    exact Gives.mono (leaves_rootCall h hw path.nulFree) fun _ _ _ hr =>
      ⟨hr, fun _ hd => by cases hd⟩
  | setNodeLen path =>
    exact Gives.mono (leaves_nodeCall h hw hfree) fun _ _ _ hr => ⟨hr, fun _ hd => by cases hd⟩
  | setNode path =>
    exact Gives.mono (leaves_nodeCall h hw path.nulFree) fun _ _ _ hr =>
      ⟨hr, fun _ hd => by cases hd⟩
  | createNode params update mode =>
    cases setting with
    | none =>
      refine leaves_get (leaves_ite (fun _ => leaves_pure fun _ _ _ => ⟨h, fun d hd => ?_⟩)
        fun hroot => absurd h.holds.1 hroot)
      rw [Call.created, if_neg (failed_ne (by decide))] at hd
      cases hd
    | some s =>
      have hset : IsSet fab s := h.holds
      refine Gives.mono (leaves_createCall hdefault hset.ready (hset.textual (h.nulFree s rfl)) hw
        params update mode) fun r t _ hr => ⟨h.untouched hr.1, fun d hd => ?_⟩
      obtain ⟨hok, rfl⟩ : r.1 = rednodeFactoryOk ∧ d = s.directory := by
        simpa [Call.created] using hd
      rw [← hset.dir_eq]
      exact hr.2 hok

/-- **A process** with a factory, while the others go on: the nodes it has created are there. -/
theorem leaves_session (hdefault : DefaultPlaces os) {calls : List Call}
    (hfree : ∀ call ∈ calls, call.NulFree) :
    ∀ {fab : RednodeFactory} {setting : Option Setting} {w : ω}, Settled fab setting →
      (nodes os real ledger).Sound w → J.Leaves (Calls.session saves calls) fab w
        fun statuses _ t => ∀ d ∈ createdNodes setting calls statuses,
          (nodes os real ledger).Whole t d := by
  induction calls with
  | nil => exact fun _ _ => leaves_pure fun _ _ _ d hd => by cases hd
  | cons call calls ih =>
    intro fab setting w h hw
    refine Leaves.bind hw (leaves_exec hdefault h hw (hfree call List.mem_cons_self))
      fun status fab₁ t₁ ht₁ _ h₁ => ?_
    refine Leaves.bind ht₁ (ih (fun c hc => hfree c (List.mem_cons_of_mem _ hc)) h₁.settled ht₁)
      fun statuses fab₂ t₂ _ hlater₂ h₂ => ?_
    refine leaves_pure fun t _ hlater d hd => hlater.keeps.whole ?_
    rcases List.mem_append.mp hd with hfirst | hrest
    · exact hlater₂.keeps.whole (h₁.whole d hfirst)
    · exact h₂ d hrest

/-! ## A scan -/

section

variable (os) (redpath : CStr) (admin : Bool)

theorem looks_confPath (name legacy : CStr) : (Calls.confPath os redpath name legacy).Looks := by
  unfold Calls.confPath
  cases snprintf (joinPath redpath name) redMaxpathlen with
  | none => exact Thread.looks_pure _
  | some path => exact (Thread.looks_look _).bind fun _ => Thread.looks_pure _

theorem looks_loadConf (path : CStr) : (Calls.loadConf os path).Looks :=
  (Thread.looks_look _).bind fun config => by cases config <;> exact Thread.looks_pure _

theorem looks_loadAdmin : (Calls.loadAdmin os redpath).Looks := by
  refine (looks_confPath os redpath _ _).bind fun path => ?_
  cases path with
  | none => exact Thread.looks_pure _
  | some path =>
    refine (Thread.looks_look _).bind fun kind => ?_
    refine Thread.looks_ite (fun _ => Thread.looks_pure _) fun _ => ?_
    exact (looks_loadConf os path).bind fun config => by cases config <;> exact Thread.looks_pure _

theorem looks_loadConfigs (status : RedStatus) :
    (Calls.loadConfigs os redpath admin status).Looks := by
  refine (looks_confPath os redpath _ _).bind fun path => ?_
  cases path with
  | none => exact Thread.looks_pure _
  | some path =>
    refine (looks_loadConf os path).bind fun config => ?_
    cases config with
    | error e => exact Thread.looks_pure _
    | ok config =>
      refine (Thread.looks_ite (fun _ => looks_loadAdmin os redpath) fun _ =>
        Thread.looks_pure _).bind fun confadmin => ?_
      cases confadmin <;> exact Thread.looks_pure _

theorem looks_redNodesLoad : (Calls.redNodesLoad os redpath admin).Looks := by
  refine (Thread.looks_look _).bind fun kind => ?_
  refine Thread.looks_ite (fun _ => Thread.looks_pure _) fun _ => ?_
  cases snprintf (joinPath redpath rednodeStatus) redMaxpathlen with
  | none => exact Thread.looks_pure _
  | some path =>
    refine (Thread.looks_look _).bind fun kind => ?_
    refine Thread.looks_ite (fun _ => Thread.looks_pure _) fun _ => ?_
    refine (Thread.looks_look _).bind fun status => ?_
    cases status with
    | none => exact Thread.looks_pure _
    | some status => exact looks_loadConfigs os redpath admin status

theorem looks_digToRoot (s : List UInt8) : (Calls.digToRoot os admin s).Looks := by
  induction s using walk_induction with
  | outside s h =>
    rw [Calls.digToRoot_none os h]
    exact Thread.looks_pure _
  | top s v u hs hcut hu hv =>
    rw [Calls.digToRoot_of_cut os hs hcut hu, if_pos hv]
    exact Thread.looks_pure _
  | cut s v u hs hcut hu hv ih =>
    rw [Calls.digToRoot_of_cut os hs hcut hu, if_neg (Nat.not_le.mpr hv)]
    refine (looks_redNodesLoad os _ admin).bind fun found => ?_
    cases found with
    | ok parent => exact ih.bind fun _ => Thread.looks_pure _
    | error e =>
      cases e with
      | missing => exact ih.bind fun _ => Thread.looks_pure _
      | fx => exact Thread.looks_pure _
      | fault => exact Thread.looks_pure _

theorem looks_redNodesScan : (Calls.redNodesScan os redpath admin).Looks := by
  refine (looks_redNodesLoad os redpath admin).bind fun leaf => ?_
  cases leaf with
  | error e => cases e <;> exact Thread.looks_pure _
  | ok leaf =>
    refine (looks_digToRoot os admin _).bind fun dug => ?_
    obtain ⟨result, tried, parents⟩ := dug
    cases result <;> exact Thread.looks_pure _

end

/-! ## Processes side by side -/

/-- A process makes the calls of a factory of its own, or it scans. -/
inductive Process where
  | factory (calls : List Call)
  | scan (redpath : CStr) (admin : Bool)

/-- What a process comes to. -/
inductive Outcome where
  | statuses (statuses : List Int)
  | family (result : Option (Option Family))
deriving DecidableEq

def Process.thread (saves : Saves os) : Process → Calls ω Outcome
  | .factory calls => do
    let ended ← Calls.session saves calls cleared
    pure (.statuses ended.1)
  | .scan redpath admin => do
    let result ← Calls.redNodesScan os redpath admin
    pure (.family result)

def Process.NulFree : Process → Prop
  | .factory calls => ∀ call ∈ calls, call.NulFree
  | .scan _ _ => True

/-- The nodes that a process has created. -/
def Process.created : Process → Outcome → List CStr
  | .factory calls, .statuses statuses => createdNodes none calls statuses
  | _, _ => []

/-- Processes that begin together. -/
def crew {ι : Type} (saves : Saves os) (processes : ι → Process) (w : ω) :
    Pool ι Fault ω Outcome := ⟨w, fun i => (processes i).thread saves⟩

theorem settled_cleared : Settled cleared none := ⟨⟨rfl, rfl⟩, fun _ h => by cases h⟩

theorem gives_process (hdefault : DefaultPlaces os) {process : Process} (hfree : process.NulFree)
    (hw : (nodes os real ledger).Sound w) : J.Gives (process.thread saves) w
      fun outcome t => ∀ d ∈ process.created outcome, (nodes os real ledger).Whole t d := by
  cases process with
  | factory calls =>
    refine Gives.bind hw (leaves_session hdefault hfree settled_cleared hw) fun ended t _ _ h => ?_
    exact gives_pure fun u _ hlater d hd => hlater.keeps.whole (h d hd)
  | scan redpath admin =>
    have hscan : J.Gives (Calls.redNodesScan os redpath admin) w fun _ _ => True :=
      Thread.Gives.mono (Thread.Looks.gives (looks_redNodesScan os redpath admin) (Rely.refl w))
        fun _ _ _ _ => trivial
    exact Gives.bind hw hscan fun _ _ _ _ _ => gives_pure fun _ _ _ _ hd => by cases hd

/-- What the processes come to after some of their steps. -/
theorem crew_gives {ι : Type} [DecidableEq ι] (J : Journal saves real ledger)
    (hdefault : DefaultPlaces os) {processes : ι → Process} (hfree : ∀ i, (processes i).NulFree)
    (hw : (nodes os real ledger).Sound w) (schedule : List ι) :
    (nodes os real ledger).Sound ((crew saves processes w).runs schedule).state ∧
      Onward os real ledger w ((crew saves processes w).runs schedule).state ∧
      ∀ i, (((crew saves processes w).runs schedule).threads i).Gives
        (nodes os real ledger).Sound (Onward os real ledger)
        ((crew saves processes w).runs schedule).state fun outcome t =>
          ∀ d ∈ (processes i).created outcome, (nodes os real ledger).Whole t d :=
  Pool.gives_runs (c := crew saves processes w) hw
    (fun i => @gives_process _ _ _ _ _ _ _ J hdefault (processes i) (hfree i) hw) schedule

/-- **Nodes that can be seen are whole**, in whatever order the processes take their steps, and
whichever of them get stuck or are killed on the way. The nodes that a process has created are
there. -/
theorem factories_keep {ι : Type} [DecidableEq ι] (J : Journal saves real ledger)
    (hdefault : DefaultPlaces os) {processes : ι → Process} (hfree : ∀ i, (processes i).NulFree)
    (hw : (nodes os real ledger).Sound w) (schedule : List ι) :
    (nodes os real ledger).Sound ((crew saves processes w).runs schedule).state ∧
      ∀ i outcome, ((crew saves processes w).runs schedule).threads i = .ret outcome →
        ∀ d ∈ (processes i).created outcome,
          (nodes os real ledger).Whole ((crew saves processes w).runs schedule).state d := by
  obtain ⟨hsound, -, hgives⟩ := crew_gives J hdefault hfree hw schedule
  exact ⟨hsound, fun i outcome hi => Pool.gives_ended hsound hgives hi⟩

/-- One process creates `/r/n`, the other one scans it. -/
def creatorAndReader : Bool → Process
  | true => .factory [.setRoot (.lit "/r"), .setNode (.lit "n"), .createNode none false .deflt]
  | false => .scan (.lit "/r/n") false

theorem nulFree_creatorAndReader (i : Bool) : (creatorAndReader i).NulFree := by
  cases i with
  | true => exact (by simp [creatorAndReader, Process.NulFree, Call.NulFree])
  | false => trivial

/-- There are templates, and the directory `/r`. -/
def sharedTemplates : SharedDisk := { disk := templatesOnly }

theorem sound_sharedTemplates : (nodes sharedOs leadsTo sharedLedger).Sound sharedTemplates :=
  sound_of_noStatus noStatus_templatesOnly

/-- The node is there, and nothing is saved. -/
def nodeCreated (s : SharedDisk) : Bool :=
  s.opened.isEmpty && s.spoilt.isEmpty &&
    decide (sharedOs.stat s (.lit "/r/n") = some .directory) &&
    decide (sharedOs.stat s (joinPath (.lit "/r/n") rednodeStatus) = some .regular) &&
    decide (sharedOs.stat s (.lit "/r/") = some .directory) &&
    decide (sharedOs.stat s (joinPath (.lit "/r/") rednodeStatus) = none)

theorem runs_creator : ∃ n, ((crew sharedSaves creatorAndReader sharedTemplates).runs
    (List.replicate n true)).threads true =
      .ret (.statuses [rednodeFactoryOk, rednodeFactoryOk, rednodeFactoryOk]) ∧
    nodeCreated ((crew sharedSaves creatorAndReader sharedTemplates).runs
      (List.replicate n true)).state = true := by
  have hend : Action.endsIn ((creatorAndReader true).thread sharedSaves).run sharedTemplates
      (fun outcome s => decide (outcome = .statuses [rednodeFactoryOk, rednodeFactoryOk,
        rednodeFactoryOk]) && nodeCreated s) = true := by decide +kernel
  obtain ⟨outcome, s, hrun, htest⟩ := Action.of_endsIn hend
  obtain ⟨houtcome, hcreated⟩ := Bool.and_eq_true_iff.mp htest
  obtain rfl := of_decide_eq_true houtcome
  obtain ⟨n, hstate, hthread⟩ := Pool.runs_alone
    (crew sharedSaves creatorAndReader sharedTemplates) (i := true) rfl hrun
  exact ⟨n, hthread, by rw [hstate]; exact hcreated⟩

theorem factories_keep_creator : ∃ n, (nodes sharedOs leadsTo sharedLedger).Whole
    ((crew sharedSaves creatorAndReader sharedTemplates).runs (List.replicate n true)).state
      (.lit "/r/n") := by
  obtain ⟨n, hended, -⟩ := runs_creator
  exact ⟨n, (factories_keep journal_sharedOs defaultPlaces_sharedOs nulFree_creatorAndReader
    sound_sharedTemplates _).2 true _ hended _ (by decide +kernel)⟩

end Factory
end RedPak
