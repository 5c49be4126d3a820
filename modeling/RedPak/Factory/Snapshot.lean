import RedPak.Factory.Processes

/-!
# Factory.Snapshot

A scan beside processes that create and update nodes. It looks for many files, one after the other.

* `scan_beside`: what it tells is what it would have told when it began, in one go, if until its end
  no file is saved of the nodes that were there, and no other directory on its way becomes a node.
* `scan_created`: it finds the nodes that were created before it began.
-/

namespace RedPak
namespace Factory

open Conf Node Layered

variable {ω φ : Type} {os : FactoryOs ω} {saves : Saves os} {real : CStr → φ} {ledger : Ledger ω φ}
  {w t : ω} {d : CStr} {admin : Bool}

variable (os real ledger) in
/-- From `w` to `t`, a node that is there stays as it is, or the directory does not become one. -/
structure Steady (w t : ω) (d : CStr) : Prop where
  directory : os.stat w d = some .directory
  files : ((nodes os real ledger).Complete w d ∧ ∀ part : Part,
      ledger.version t (real (joinPath d part.name)) =
        ledger.version w (real (joinPath d part.name))) ∨
    os.stat t (joinPath d rednodeStatus) = none

variable (os real ledger) in
/-- The states from `w` to `t`. -/
def Between (w t u : ω) : Prop := Onward os real ledger w u ∧ Onward os real ledger u t

/-! ## What a load looks for -/

/-- The files of the node are there, and at all states in `U` as they are at `w`. -/
structure Fixed (os : FactoryOs ω) (U : ω → Prop) (w : ω) (d : CStr) : Prop where
  there : ∀ part : Part, os.access w (joinPath d part.name) = true
  same : ∀ (part : Part) (u : ω), U u →
    see os.toFileOs u (joinPath d part.name) = see os.toFileOs w (joinPath d part.name)

variable {U : ω → Prop}

theorem Fixed.tells_stat (h : Fixed os U w d) (part : Part) :
    (Calls.stat os (joinPath d part.name)).Tells U w :=
  Thread.tells_look fun u hu => congrArg Seen.kind (h.same part u hu)

theorem Fixed.tells_confPath (h : Fixed os U w d) (part : Part) (legacy : CStr) :
    (Calls.confPath os d part.name legacy).Tells U w := by
  unfold Calls.confPath
  cases hpath : snprintf (joinPath d part.name) redMaxpathlen with
  | none => exact Thread.tells_pure _
  | some path =>
    obtain ⟨-, rfl⟩ := snprintf_eq_some.mp hpath
    refine (Thread.tells_look fun u hu => ?_).bind fun _ _ => Thread.tells_pure _
    exact congrArg (Option.isSome ·.kind) (h.same part u hu)

/-- The file is there, so that the legacy one is not looked for. -/
theorem Fixed.confPath_eq (h : Fixed os U w d) {part : Part} {legacy : CStr} {found : Option CStr}
    (hrun : (Calls.confPath os d part.name legacy).run w = .ok found w) {path : CStr}
    (hfound : found = some path) : path = joinPath d part.name := by
  rw [Calls.reads_confPath os d part.name legacy w] at hrun
  have heq : Node.confPath os.toFileOs w d part.name legacy = some path := by
    injection hrun with heq
    exact heq.trans hfound
  unfold Node.confPath at heq
  cases hpath : snprintf (joinPath d part.name) redMaxpathlen with
  | none =>
    rw [hpath] at heq
    cases heq
  | some path' =>
    rw [hpath] at heq
    obtain ⟨-, rfl⟩ := snprintf_eq_some.mp hpath
    dsimp only at heq
    rw [h.there part, if_pos rfl] at heq
    exact (Option.some.inj heq).symm

theorem Fixed.tells_loadConf (h : Fixed os U w d) (part : Part) :
    (Calls.loadConf os (joinPath d part.name)).Tells U w := by
  refine (Thread.tells_look fun u hu => congrArg Seen.config (h.same part u hu)).bind
    fun config _ => ?_
  cases config <;> exact Thread.tells_pure _

theorem Fixed.tells_loadAdmin (h : Fixed os U w d) : (Calls.loadAdmin os d).Tells U w := by
  refine (h.tells_confPath .admin _).bind fun found hfound => ?_
  cases found with
  | none => exact Thread.tells_pure _
  | some path =>
    obtain rfl := h.confPath_eq hfound rfl
    refine (h.tells_stat .admin).bind fun kind _ => ?_
    refine Thread.tells_ite (fun _ => Thread.tells_pure _) fun _ => ?_
    exact (h.tells_loadConf .admin).bind fun config _ => by
      cases config <;> exact Thread.tells_pure _

theorem Fixed.tells_loadConfigs (h : Fixed os U w d) (status : RedStatus) :
    (Calls.loadConfigs os d admin status).Tells U w := by
  refine (h.tells_confPath .normal _).bind fun found hfound => ?_
  cases found with
  | none => exact Thread.tells_pure _
  | some path =>
    obtain rfl := h.confPath_eq hfound rfl
    refine (h.tells_loadConf .normal).bind fun config _ => ?_
    cases config with
    | error e => exact Thread.tells_pure _
    | ok config =>
      refine (Thread.tells_ite (fun _ => h.tells_loadAdmin) fun _ => Thread.tells_pure _).bind
        fun confadmin _ => ?_
      cases confadmin <;> exact Thread.tells_pure _

/-! ## Steady directories -/

theorem fixed_of_complete (hw : (nodes os real ledger).Sound w)
    (hcomplete : (nodes os real ledger).Complete w d)
    (hversion : ∀ part : Part, ledger.version t (real (joinPath d part.name)) =
      ledger.version w (real (joinPath d part.name))) :
    Fixed os (Between os real ledger w t) w d := by
  have hthere : ∀ part : Part, os.stat w (joinPath d part.name) ≠ none := fun part =>
    readable_there (hw.readable hcomplete part)
  refine ⟨fun part => Option.isSome_iff_ne_none.mpr (hthere part), fun part u hu => ?_⟩
  have hfirst := hu.1.version (real (joinPath d part.name))
  have hsecond := hu.2.version (real (joinPath d part.name))
  have hwhole := hversion part
  exact hu.1.steady _ (namesFile_part d part) (hthere part) (by omega)

theorem Steady.tells_redNodesLoad (h : Steady os real ledger w t d)
    (hw : (nodes os real ledger).Sound w) (ht : Onward os real ledger w t) :
    (Calls.redNodesLoad os d admin).Tells (Between os real ledger w t) w := by
  refine (Thread.tells_look fun u hu => ?_).bind fun _ _ => ?_
  · rw [h.directory]
    exact hu.1.directories d h.directory
  refine Thread.tells_ite (fun _ => Thread.tells_pure _) fun _ => ?_
  cases hpath : snprintf (joinPath d rednodeStatus) redMaxpathlen with
  | none => exact Thread.tells_pure _
  | some path =>
    obtain ⟨-, rfl⟩ := snprintf_eq_some.mp hpath
    rcases h.files with ⟨hcomplete, hversion⟩ | hnone
    · have hfixed := fixed_of_complete hw hcomplete hversion
      refine (hfixed.tells_stat .status).bind fun _ _ => ?_
      refine Thread.tells_ite (fun _ => Thread.tells_pure _) fun _ => ?_
      refine (Thread.tells_look fun u hu =>
        congrArg Seen.status (hfixed.same .status u hu)).bind fun status _ => ?_
      cases status with
      | none => exact Thread.tells_pure _
      | some status => exact hfixed.tells_loadConfigs status
    · have hnever : ∀ u, Onward os real ledger u t →
          os.stat u (joinPath d rednodeStatus) = none := fun u hu =>
        not_not.mp fun hsome => hu.there _ hsome hnone
      have hstart := hnever w ht
      refine (Thread.tells_look fun u hu => (hnever u hu.2).trans hstart.symm).bind
        fun kind hkind => ?_
      have hkind : kind = none := by
        have hrun := Calls.reads_stat os (joinPath d rednodeStatus) w
        have heq := hkind.symm.trans hrun
        injection heq with heq
        exact heq.trans hstart
      rw [hkind]
      exact Thread.tells_pure _

/-- The directories that a scan of the path tries. -/
def triedBy (redpath : CStr) : List CStr :=
  redpath :: (dryDig (redpath.bytes.take redMaxpathlen)).tried.map CStr.ofBytes

theorem tells_digToRoot (hw : (nodes os real ledger).Sound w) (ht : Onward os real ledger w t)
    (s : List UInt8) (hsteady : ∀ path ∈ (dryDig s).tried,
      Steady os real ledger w t (CStr.ofBytes path)) :
    (Calls.digToRoot os admin s).Tells (Between os real ledger w t) w := by
  induction s using walk_induction with
  | outside s h =>
    rw [Calls.digToRoot_none os h]
    exact Thread.tells_pure _
  | top s v u hs hcut hu hv =>
    rw [Calls.digToRoot_of_cut os hs hcut hu, if_pos hv]
    exact Thread.tells_pure _
  | cut s v u hs hcut hu hv ih =>
    rw [dryDig, digToRoot_cut hs hcut hu hv] at hsteady
    have hrest := ih fun path hpath => hsteady path (List.mem_cons_of_mem _ hpath)
    rw [Calls.digToRoot_of_cut os hs hcut hu, if_neg (Nat.not_le.mpr hv)]
    refine ((hsteady _ List.mem_cons_self).tells_redNodesLoad hw ht).bind fun found _ => ?_
    cases found with
    | ok parent => exact hrest.bind fun _ _ => Thread.tells_pure _
    | error e =>
      cases e with
      | missing => exact hrest.bind fun _ _ => Thread.tells_pure _
      | fx => exact Thread.tells_pure _
      | fault => exact Thread.tells_pure _

theorem tells_redNodesScan (hw : (nodes os real ledger).Sound w) (ht : Onward os real ledger w t)
    {redpath : CStr} (hsteady : ∀ d ∈ triedBy redpath, Steady os real ledger w t d) :
    (Calls.redNodesScan os redpath admin).Tells (Between os real ledger w t) w := by
  have hleaf := hsteady redpath List.mem_cons_self
  refine (hleaf.tells_redNodesLoad hw ht).bind fun leaf _ => ?_
  cases leaf with
  | error e => cases e <;> exact Thread.tells_pure _
  | ok leaf =>
    refine (tells_digToRoot hw ht _ fun path hpath => hsteady _
      (List.mem_cons_of_mem _ (List.mem_map_of_mem hpath))).bind fun dug _ => ?_
    obtain ⟨result, tried, parents⟩ := dug
    cases result <;> exact Thread.tells_pure _

/-! ## What is found -/

theorem confPath_there {part : Part} (hroom : Room d)
    (h : os.stat w (joinPath d part.name) = some .regular) (legacy : CStr) :
    Node.confPath os.toFileOs w d part.name legacy = some (joinPath d part.name) := by
  have haccess : os.access w (joinPath d part.name) = true := by rw [FileOs.access, h]; rfl
  rw [Node.confPath, snprintf_eq_some.mpr ⟨hroom part, rfl⟩]
  dsimp only
  rw [if_pos haccess]

theorem loadConf_fit {path : CStr} {config : RedConfig}
    (hload : os.redLoadConfig w path = some config)
    (hvalid : isValidAlias config.headers.nodeAlias = true) :
    Node.loadConf os.toFileOs w path = .ok config := by
  rw [Node.loadConf, hload]
  dsimp only
  rw [if_pos hvalid]

theorem loads_of_complete (hw : (nodes os real ledger).Sound w)
    (hcomplete : (nodes os real ledger).Complete w d) (hdir : os.stat w d = some .directory)
    (hroom : Room d) (admin : Bool) :
    ∃ loaded, Node.redNodesLoad os.toFileOs w d admin = .ok loaded := by
  obtain ⟨hregular, hstatus⟩ := hw.readable hcomplete .status
  obtain ⟨hnormal, config, hload, hvalid⟩ := hw.readable hcomplete .normal
  obtain ⟨hkind, confadmin, hloadAdmin, hvalidAdmin⟩ := hw.readable hcomplete .admin
  obtain ⟨status, hstatus⟩ := Option.isSome_iff_exists.mp hstatus
  have hadmin : Node.loadAdmin os.toFileOs w d = .ok (some confadmin) := by
    have hpath := @confPath_there _ os w d .admin hroom hkind legacyRednodeAdmin
    rw [Node.loadAdmin, show rednodeAdmin = Part.admin.name from rfl, hpath]
    have hregular : os.stat w (joinPath d Part.admin.name) = some .regular := hkind
    dsimp only
    rw [if_neg (not_not.mpr hregular), loadConf_fit hloadAdmin hvalidAdmin]
  have hconf := @confPath_there _ os w d .normal hroom hnormal legacyRednodeConf
  let node : RedNode :=
    { config := some config
      confadmin := if admin then some confadmin else none
      redpath := d }
  refine ⟨⟨node, status⟩, (redNodesLoad_ok _ _).mpr ⟨hdir, hroom .status, hregular, hstatus,
    ⟨_, config, hconf, loadConf_fit hload hvalid, rfl⟩, ?_, rfl, rfl⟩⟩
  cases admin with
  | true => exact hadmin
  | false => rfl

theorem digToRoot_finds (load : CStr → Except NotLoaded Loaded) (s : List UInt8)
    (hdone : (dryDig s).result = .done) (hload : ∀ path ∈ (dryDig s).tried,
      load (CStr.ofBytes path) = .error .missing ∨
        ∃ loaded, load (CStr.ofBytes path) = .ok loaded) :
    (Node.digToRoot load s).result = .done ∧
      (∀ path ∈ (dryDig s).tried, ∀ loaded, load (CStr.ofBytes path) = .ok loaded →
        loaded ∈ (Node.digToRoot load s).parents) ∧
      ∀ loaded ∈ (Node.digToRoot load s).parents,
        ∃ path ∈ (dryDig s).tried, load (CStr.ofBytes path) = .ok loaded := by
  induction s using walk_induction with
  | outside s h =>
    rw [dryDig, Node.digToRoot_none h] at hdone
    cases hdone
  | top s v u hs hcut hu hv =>
    rw [dryDig, digToRoot_top hs hcut hu hv, digToRoot_top hs hcut hu hv]
    exact ⟨rfl, fun _ hmem => (by cases hmem), fun _ hmem => (by cases hmem)⟩
  | cut s v u hs hcut hu hv ih =>
    rw [dryDig, digToRoot_cut hs hcut hu hv] at hdone hload ⊢
    rw [digToRoot_cut hs hcut hu hv]
    obtain ⟨hrest, hall, hback⟩ := ih hdone fun path hpath =>
      hload path (List.mem_cons_of_mem _ hpath)
    have hback' : ∀ loaded ∈ (Node.digToRoot load (v ++ [slash])).parents, ∃ path ∈
        (v ++ [slash]) :: (dryDig (v ++ [slash])).tried, load (CStr.ofBytes path) = .ok loaded := by
      intro loaded hmem
      obtain ⟨path, hpath, hok⟩ := hback loaded hmem
      exact ⟨path, List.mem_cons_of_mem _ hpath, hok⟩
    rcases hload _ List.mem_cons_self with hmissing | ⟨first, hok⟩
    · rw [hmissing]
      refine ⟨hrest, fun path hpath loaded hloaded => ?_, hback'⟩
      rcases List.mem_cons.mp hpath with rfl | hpath
      · rw [hmissing] at hloaded
        cases hloaded
      · exact hall path hpath loaded hloaded
    · rw [hok]
      refine ⟨hrest, fun path hpath loaded hloaded => ?_, fun loaded hmem => ?_⟩
      · rcases List.mem_cons.mp hpath with rfl | hpath
        · rw [hok] at hloaded
          cases hloaded
          exact List.mem_cons_self
        · exact List.mem_cons_of_mem _ (hall path hpath loaded hloaded)
      · rcases List.mem_cons.mp hmem with rfl | hmem
        · exact ⟨_, List.mem_cons_self, hok⟩
        · exact hback' loaded hmem

theorem Steady.load_cases (h : Steady os real ledger w t d) (hw : (nodes os real ledger).Sound w)
    (ht : Onward os real ledger w t) (hroom : Room d) (admin : Bool) :
    (nodes os real ledger).Complete w d ∧
        (∃ loaded, Node.redNodesLoad os.toFileOs w d admin = .ok loaded) ∨
      ¬ (nodes os real ledger).Complete w d ∧
        Node.redNodesLoad os.toFileOs w d admin = .error .missing := by
  rcases h.files with ⟨hcomplete, -⟩ | hnone
  · exact .inl ⟨hcomplete, loads_of_complete hw hcomplete h.directory hroom admin⟩
  · have hstart : os.stat w (joinPath d rednodeStatus) = none := not_not.mp fun hsome =>
      ht.there _ hsome hnone
    have hnot : os.stat w (joinPath d rednodeStatus) ≠ some .regular := by
      rw [hstart]
      exact (by decide)
    exact .inr ⟨fun hcomplete => hnot hcomplete.published.2.2,
      (redNodesLoad_missing _ _).mpr ⟨h.directory, hroom .status, hnot⟩⟩

/-- What a scan at once finds of steady directories: the nodes that are complete. -/
theorem scan_complete {redpath : CStr} (hw : (nodes os real ledger).Sound w)
    (ht : Onward os real ledger w t)
    (hsteady : ∀ d ∈ triedBy redpath, Steady os real ledger w t d)
    (hroom : ∀ d ∈ triedBy redpath, Room d)
    (hwalk : (dryDig (redpath.bytes.take redMaxpathlen)).result = .done)
    (hleaf : (nodes os real ledger).Complete w redpath) (admin : Bool) :
    ∃ family, Node.redNodesScan (Node.redNodesLoad os.toFileOs w · admin) redpath =
        some (some family) ∧
      ∀ d ∈ triedBy redpath, (∃ node ∈ family.node :: family.parents, node.redpath = d) ↔
        (nodes os real ledger).Complete w d := by
  have hcases : ∀ d ∈ triedBy redpath, _ := fun d hd =>
    (hsteady d hd).load_cases hw ht (hroom d hd) admin
  have hpath : ∀ {d loaded}, Node.redNodesLoad os.toFileOs w d admin = .ok loaded →
      loaded.node.redpath = d := fun h => ((redNodesLoad_ok _ _).mp h).redpath_eq
  have hcomplete : ∀ {d loaded}, d ∈ triedBy redpath →
      Node.redNodesLoad os.toFileOs w d admin = .ok loaded →
        (nodes os real ledger).Complete w d := by
    intro d loaded hd hok
    rcases hcases d hd with ⟨hcomplete, -⟩ | ⟨-, hmissing⟩
    · exact hcomplete
    · rw [hmissing] at hok
      cases hok
  obtain ⟨leaf, hload⟩ := loads_of_complete hw hleaf (hsteady _ List.mem_cons_self).directory
    (hroom _ List.mem_cons_self) admin
  obtain ⟨hdone, hall, hback⟩ := digToRoot_finds (Node.redNodesLoad os.toFileOs w · admin) _
    hwalk fun path hpath => by
      rcases hcases _ (List.mem_cons_of_mem _ (List.mem_map_of_mem hpath)) with ⟨-, hok⟩ | ⟨-, hno⟩
      · exact .inr hok
      · exact .inl hno
  refine ⟨_, redNodesScan_eq_some.mpr ⟨leaf, hload, hdone, rfl⟩, fun d hd => ⟨?_, fun hd' => ?_⟩⟩
  · rintro ⟨node, hnode, rfl⟩
    rcases List.mem_cons.mp hnode with rfl | hnode
    · exact (hpath hload).symm ▸ hleaf
    · obtain ⟨node', hnode', rfl⟩ := List.mem_map.mp hnode
      obtain ⟨loaded, hloaded, rfl⟩ := List.mem_map.mp hnode'
      obtain ⟨path, hmem, hok⟩ := hback loaded hloaded
      have heq : loaded.node.redpath = CStr.ofBytes path := hpath hok
      exact heq.symm ▸ hcomplete (List.mem_cons_of_mem _ (List.mem_map_of_mem hmem)) hok
  · rcases List.mem_cons.mp hd with rfl | hd
    · exact ⟨_, List.mem_cons_self, hpath hload⟩
    · obtain ⟨path, hmem, rfl⟩ := List.mem_map.mp hd
      rcases hcases _ (List.mem_cons_of_mem _ hd) with ⟨-, loaded, hok⟩ | ⟨hnot, -⟩
      · exact ⟨_, List.mem_cons_of_mem _ (List.mem_map_of_mem (List.mem_map_of_mem
          (hall path hmem loaded hok))), hpath hok⟩
      · exact absurd hd' hnot

/-! ## A scan beside other processes -/

section

variable {ι : Type} [DecidableEq ι] {processes : ι → Process} {before after : List ι} {j : ι}
  {redpath : CStr} {result : Option (Option Family)}

/-- What a scan that begins after some steps of the others comes to. -/
theorem scan_from (J : Journal saves real ledger) (hdefault : DefaultPlaces os)
    (hfree : ∀ i, (processes i).NulFree) (hw : (nodes os real ledger).Sound w)
    (hscan : processes j = .scan redpath admin) (hbegin : j ∉ before)
    (hend : ((crew saves processes w).runs (before ++ after)).threads j = .ret (.family result)) :
    Onward os real ledger ((crew saves processes w).runs before).state
        ((crew saves processes w).runs (before ++ after)).state ∧
      ((∀ d ∈ triedBy redpath, Steady os real ledger
        ((crew saves processes w).runs before).state
        ((crew saves processes w).runs (before ++ after)).state d) →
          result = Node.redNodesScan (Node.redNodesLoad os.toFileOs
            ((crew saves processes w).runs before).state · admin) redpath) := by
  obtain ⟨hsound, -, hothers⟩ := crew_gives J hdefault hfree hw before
  have hstart : ((crew saves processes w).runs before).threads j =
      (Calls.redNodesScan os redpath admin >>= fun result => pure (.family result)) := by
    rw [Pool.threads_runs_of_notMem hbegin]
    show (processes j).thread saves = _
    rw [hscan]
    rfl
  rw [Pool.runs_append] at hend ⊢
  generalize (crew saves processes w).runs before = c at *
  have hlooked : J.Gives (c.threads j) c.state fun outcome t => outcome = .family result →
      (∀ d ∈ triedBy redpath, Steady os real ledger c.state t d) →
        Onward os real ledger c.state t →
          (Calls.redNodesScan os redpath admin).run c.state = .ok result c.state := by
    rw [hstart]
    have hlooks := looks_redNodesScan os redpath admin
    refine Thread.Gives.map (Thread.Gives.mono (hlooks.gives (Rely.refl c.state))
      fun found t _ h heq hsteady ht => ?_)
    cases heq
    exact h (tells_redNodesScan hsound ht hsteady)
  have hall : ∀ i, (c.threads i).Gives (nodes os real ledger).Sound (Onward os real ledger) c.state
      fun outcome t => i = j → outcome = .family result →
        (∀ d ∈ triedBy redpath, Steady os real ledger c.state t d) →
          Onward os real ledger c.state t →
            (Calls.redNodesScan os redpath admin).run c.state = .ok result c.state := by
    intro i
    by_cases hi : i = j
    · subst hi
      exact Gives.mono hlooked fun _ _ _ h _ => h
    · exact Thread.Gives.mono (hothers i) fun _ _ _ _ heq => absurd heq hi
  obtain ⟨hsound', honward, hgives⟩ := Pool.gives_runs hsound hall after
  refine ⟨honward, fun hsteady => ?_⟩
  have hrun := Pool.gives_ended hsound' hgives hend rfl rfl hsteady honward
  rw [Calls.reads_redNodesScan os redpath admin c.state] at hrun
  injection hrun with heq
  exact heq.symm

/-- **A scan beside other processes** tells what it would have told at once when it began, if what
it tries is steady to its end: it finds the nodes that were complete then. -/
theorem scan_beside (J : Journal saves real ledger) (hdefault : DefaultPlaces os)
    (hfree : ∀ i, (processes i).NulFree) (hw : (nodes os real ledger).Sound w)
    (hscan : processes j = .scan redpath admin) (hbegin : j ∉ before)
    (hend : ((crew saves processes w).runs (before ++ after)).threads j = .ret (.family result))
    (hsteady : ∀ d ∈ triedBy redpath, Steady os real ledger
      ((crew saves processes w).runs before).state
      ((crew saves processes w).runs (before ++ after)).state d) :
    result = Node.redNodesScan (Node.redNodesLoad os.toFileOs
        ((crew saves processes w).runs before).state · admin) redpath ∧
      ((∀ d ∈ triedBy redpath, Room d) →
        (dryDig (redpath.bytes.take redMaxpathlen)).result = .done →
        (nodes os real ledger).Complete ((crew saves processes w).runs before).state redpath →
          ∃ family, result = some (some family) ∧ ∀ d ∈ triedBy redpath,
            (∃ node ∈ family.node :: family.parents, node.redpath = d) ↔
              (nodes os real ledger).Complete ((crew saves processes w).runs before).state d) := by
  obtain ⟨honward, htold⟩ := scan_from J hdefault hfree hw hscan hbegin hend
  have hresult := htold hsteady
  refine ⟨hresult, fun hroom hwalk hleaf => ?_⟩
  obtain ⟨family, hfamily, hfound⟩ := scan_complete (crew_gives J hdefault hfree hw before).1
    honward hsteady hroom hwalk hleaf admin
  exact ⟨family, hresult.trans hfamily, hfound⟩

end

/-- The reader runs after the creator. -/
structure CreatedThenRead (before after : List Bool) (result : Option (Option Family)) : Prop where
  begins : false ∉ before
  created : ((crew sharedSaves creatorAndReader sharedTemplates).runs before).threads true =
    .ret (.statuses [rednodeFactoryOk, rednodeFactoryOk, rednodeFactoryOk])
  reads : ((crew sharedSaves creatorAndReader sharedTemplates).runs
    (before ++ after)).threads false = .ret (.family result)
  unchanged : ((crew sharedSaves creatorAndReader sharedTemplates).runs (before ++ after)).state =
    ((crew sharedSaves creatorAndReader sharedTemplates).runs before).state
  found : nodeCreated ((crew sharedSaves creatorAndReader sharedTemplates).runs before).state = true

theorem exists_createdThenRead : ∃ before after result, CreatedThenRead before after result := by
  obtain ⟨n, hcreator, hfound⟩ := runs_creator
  have hreader : ((crew sharedSaves creatorAndReader sharedTemplates).runs
      (List.replicate n true)).threads false = (creatorAndReader false).thread sharedSaves :=
    Pool.threads_runs_of_notMem (by simp)
  have hrun : ∀ s, ((creatorAndReader false).thread sharedSaves).run s =
      .ok (.family (Node.redNodesScan (Node.redNodesLoad sharedOs.toFileOs s · false)
        (.lit "/r/n"))) s := fun s =>
    (Calls.reads_redNodesScan sharedOs (.lit "/r/n") false).run_bind _ s
  obtain ⟨m, hstate, hread⟩ := Pool.runs_alone _ hreader (hrun _)
  rw [← Pool.runs_append] at hstate hread
  exact ⟨_, _, _, by simp, hcreator, hread, hstate, hfound⟩

theorem nodeCreated_iff {s : SharedDisk} : nodeCreated s = true ↔
    (s.opened = [] ∧ s.spoilt = []) ∧ sharedOs.stat s (.lit "/r/n") = some .directory ∧
      sharedOs.stat s (joinPath (.lit "/r/n") rednodeStatus) = some .regular ∧
      sharedOs.stat s (.lit "/r/") = some .directory ∧
      sharedOs.stat s (joinPath (.lit "/r/") rednodeStatus) = none := by
  simp [nodeCreated, and_assoc]

theorem triedBy_reader : triedBy (.lit "/r/n") = [.lit "/r/n", .lit "/r/"] := by decide +kernel

theorem room_reader : ∀ d ∈ triedBy (.lit "/r/n"), Room d := by
  intro d hd
  rw [triedBy_reader, List.mem_cons, List.mem_singleton] at hd
  rcases hd with rfl | rfl
  · exact room_of_fits (by decide +kernel)
  · exact room_of_fits (by decide +kernel)

namespace CreatedThenRead

variable {before after : List Bool} {result : Option (Option Family)}

theorem complete (h : CreatedThenRead before after result) :
    (nodes sharedOs leadsTo sharedLedger).Complete
      ((crew sharedSaves creatorAndReader sharedTemplates).runs before).state (.lit "/r/n") := by
  obtain ⟨⟨hopened, hspoilt⟩, -, hregular, -⟩ := nodeCreated_iff.mp h.found
  refine ⟨⟨by decide +kernel, room_reader _ (by rw [triedBy_reader]; exact List.mem_cons_self),
    hregular⟩, fun part hbusy => ?_, fun part hdamaged => ?_⟩
  · have hmem : _ ∈ SharedDisk.opened _ := hbusy.2
    rw [hopened] at hmem
    cases hmem
  · have hmem : _ ∈ SharedDisk.spoilt _ := hdamaged.2
    rw [hspoilt] at hmem
    cases hmem

theorem steady (h : CreatedThenRead before after result) (d : CStr)
    (hd : d ∈ triedBy (.lit "/r/n")) : Steady sharedOs leadsTo sharedLedger
      ((crew sharedSaves creatorAndReader sharedTemplates).runs before).state
      ((crew sharedSaves creatorAndReader sharedTemplates).runs (before ++ after)).state d := by
  obtain ⟨-, hnode, -, hroot, hnone⟩ := nodeCreated_iff.mp h.found
  rw [h.unchanged]
  rw [triedBy_reader, List.mem_cons, List.mem_singleton] at hd
  rcases hd with rfl | rfl
  · exact ⟨hnode, .inl ⟨h.complete, fun _ => rfl⟩⟩
  · exact ⟨hroot, .inr hnone⟩

end CreatedThenRead

/-- The reader finds the node. -/
theorem scan_beside_creator : ∃ before after result, CreatedThenRead before after result ∧
    ∃ family, result = some (some family) ∧
      ∃ node ∈ family.node :: family.parents, node.redpath = .lit "/r/n" := by
  obtain ⟨before, after, result, h⟩ := exists_createdThenRead
  have hscan := (scan_beside journal_sharedOs defaultPlaces_sharedOs nulFree_creatorAndReader
    sound_sharedTemplates (j := false) rfl h.begins h.reads h.steady).2 room_reader
      (by decide +kernel) h.complete
  obtain ⟨family, hfamily, hfound⟩ := hscan
  exact ⟨before, after, result, h, family, hfamily,
    (hfound _ List.mem_cons_self).mpr h.complete⟩

section

variable {ι : Type} [DecidableEq ι] {processes : ι → Process} {before after : List ι} {j : ι}
  {redpath : CStr} {result : Option (Option Family)}

variable (real ledger) in
/-- A process has created the node and ended, be it under another path, and no file of the node is
saved or was damaged. -/
structure Created (processes : ι → Process) (c : Pool ι Fault ω Outcome) (d : CStr) : Prop where
  plain : PlainPath d
  byProcess : ∃ i outcome, c.threads i = .ret outcome ∧ ∃ e ∈ (processes i).created outcome,
    ∀ part : Part, real (joinPath e part.name) = real (joinPath d part.name)
  idle : ∀ part : Part, real (joinPath d part.name) ∉ ledger.busy c.state
  intact : ∀ part : Part, real (joinPath d part.name) ∉ ledger.spoilt c.state

/-- **Nodes that were created** are found by the scans that begin later. -/
theorem scan_created (J : Journal saves real ledger) (hdefault : DefaultPlaces os)
    (hfree : ∀ i, (processes i).NulFree) (hw : (nodes os real ledger).Sound w)
    (hscan : processes j = .scan redpath admin) (hbegin : j ∉ before)
    (hend : ((crew saves processes w).runs (before ++ after)).threads j = .ret (.family result))
    (hsteady : ∀ d ∈ triedBy redpath, Steady os real ledger
      ((crew saves processes w).runs before).state
      ((crew saves processes w).runs (before ++ after)).state d)
    (hroom : ∀ d ∈ triedBy redpath, Room d)
    (hwalk : (dryDig (redpath.bytes.take redMaxpathlen)).result = .done)
    (hleaf : Created real ledger processes ((crew saves processes w).runs before) redpath) :
    ∃ family, result = some (some family) ∧ ∀ d ∈ triedBy redpath,
      Created real ledger processes ((crew saves processes w).runs before) d →
        ∃ node ∈ family.node :: family.parents, node.redpath = d := by
  obtain ⟨hsound, -, hgives⟩ := crew_gives J hdefault hfree hw before
  have hcomplete : ∀ {d}, d ∈ triedBy redpath →
      Created real ledger processes ((crew saves processes w).runs before) d →
        (nodes os real ledger).Complete ((crew saves processes w).runs before).state d := by
    rintro d hd ⟨hplain, ⟨i, outcome, hi, e, he, hsame⟩, hidle, hintact⟩
    have hwhole := Pool.gives_ended hsound hgives hi e he
    have hstatus := J.has_congr (hsame .status) (anchored_part hplain .status) (hwhole .status)
    have hreadable := hstatus.resolve_right fun hor =>
      hor.elim (fun hbusy => hidle .status hbusy.2) fun hdamaged => hintact .status hdamaged.2
    exact ⟨⟨hplain, hroom d hd, readable_regular hreadable⟩, fun part hbusy => hidle part hbusy.2,
      fun part hdamaged => hintact part hdamaged.2⟩
  obtain ⟨honward, htold⟩ := scan_from J hdefault hfree hw hscan hbegin hend
  obtain ⟨family, hfamily, hfound⟩ := scan_complete hsound honward hsteady hroom hwalk
    (hcomplete List.mem_cons_self hleaf) admin
  exact ⟨family, (htold hsteady).trans hfamily, fun d hd hcreated =>
    (hfound d hd).mpr (hcomplete hd hcreated)⟩

end

theorem scan_created_reader : ∃ before after result, CreatedThenRead before after result ∧
    ∃ family, result = some (some family) := by
  obtain ⟨before, after, result, h⟩ := exists_createdThenRead
  have hcreated : Created leadsTo sharedLedger creatorAndReader
      ((crew sharedSaves creatorAndReader sharedTemplates).runs before) (.lit "/r/n") :=
    ⟨by decide +kernel, ⟨true, _, h.created, .lit "/r/n", by decide +kernel, fun _ => rfl⟩,
      fun part hbusy => h.complete.idle part ⟨anchored_part (by decide +kernel) part, hbusy⟩,
      fun part hdamaged =>
        h.complete.intact part ⟨anchored_part (by decide +kernel) part, hdamaged⟩⟩
  obtain ⟨family, hfamily, -⟩ := scan_created journal_sharedOs defaultPlaces_sharedOs
    nulFree_creatorAndReader sound_sharedTemplates (j := false) rfl h.begins h.reads h.steady
    room_reader (by decide +kernel) hcreated
  exact ⟨before, after, result, h, family, hfamily⟩

end Factory
end RedPak
