import RedPak.Factory.Disk
import RedPak.Node.Tree

/-!
# Node.Relation

The parent relation of rednodes, as the two scans find it.

* `upParent_iff`: upward, the parent is the nearest rednode above.
* `downChild_iff`: downward, the children are the rednodes that lie directly in the directory, if
  no directory that is met has too long a path.
* `agree_iff`: when both are the relation of lying directly in a directory.
-/

namespace RedPak
namespace Node

open Conf Layered

section

variable {ω : Type} (os : DirOs ω) (w : ω) (admin : Bool)

/-! ## The relations -/

/-- `RedNodesScan(X)` sets `P` as parent. -/
def UpParent (X P : Place) : Prop :=
  ∃ family parent, redNodesScan (fun path => redNodesLoad os.toFileOs w path admin) (pathOf X) =
      some (some family) ∧ family.parent = some parent ∧
    designated [] parent.node.redpath.bytes = P

/-- `RedNodesDownScan(P)` links `X` as a child of `P`. -/
def DownChild (P X : Place) : Prop :=
  ∃ tree, redNodesDownScan os w admin (pathOf P) = .ok tree ∧
    ∃ child ∈ tree.children, designated [] child.root.node.redpath.bytes = X

/-- `P` is the directory that directly contains `X`. -/
def Contains (P X : Place) : Prop := ∃ name, X = P ++ [name]

/-- Both scans find the directories that directly contain a rednode, the root aside. -/
def Agree : Prop :=
  ∀ X P, IsRednode os w admin X → IsRednode os w admin P → X ≠ [] → P ≠ [] →
    (UpParent os w admin X P ↔ Contains P X) ∧ (DownChild os w admin P X ↔ Contains P X)

end

variable {ω : Type} {os : DirOs ω} {w : ω} {admin : Bool}

/-! ## Upward -/

/-- The node of a place as it is loaded on the way up. -/
def loadedAt (os : DirOs ω) (w : ω) (admin : Bool) (place : Place) : Option Loaded :=
  (redNodesLoad os.toFileOs w (slashed (pathOf place)) admin).toOption

theorem room_of_loaded {path : CStr} {loaded : Loaded}
    (h : redNodesLoad os.toFileOs w path admin = .ok loaded) :
    path.bytes.length + 16 < redMaxpathlen ∧
      (admin = true → path.bytes.length + 22 < redMaxpathlen) := by
  obtain ⟨-, -, -, -, ⟨cpath, config, hconf, -, -⟩, hadmin, -, -⟩ :=
    (redNodesLoad_ok os.toFileOs w).mp h
  have hfit : ∀ {name legacy cpath : CStr}, confPath os.toFileOs w path name legacy = some cpath →
      (joinPath path name).bytes.length < redMaxpathlen := by
    intro name legacy cpath hconf
    unfold confPath at hconf
    split at hconf
    · cases hconf
    · rename_i hpath
      exact (snprintf_eq_some.mp hpath).1
  constructor
  · have hlen := hfit hconf
    rwa [length_joinPath, show rednodeConf.bytes.length = 15 by decide +kernel] at hlen
  · rintro rfl
    rw [if_pos rfl] at hadmin
    unfold loadAdmin at hadmin
    split at hadmin
    · cases hadmin
    · rename_i hconf
      have hlen := hfit hconf
      rwa [length_joinPath, show rednodeAdmin.bytes.length = 21 by decide +kernel] at hlen

theorem pathBytes_ancestor {X P : Place} (hX : Named X) (h : P ∈ ancestry X) :
    (pathBytes P).length + 2 ≤ (pathBytes X).length := by
  induction X using List.reverseRecOn with
  | nil => exact absurd h List.not_mem_nil
  | append_singleton Y name ih =>
    by_cases hY : Y = []
    · subst hY
      exact absurd h List.not_mem_nil
    · have hname := List.length_pos_iff.mpr hX.last.1.isField.ne_nil
      rw [ancestry_concat hY] at h
      rw [pathBytes_concat hY, List.length_append, List.length_cons]
      rcases List.mem_cons.mp h with rfl | h
      · omega
      · have := ih hX.parent h
        omega

theorem head?_pathOf {place : Place} (h : Named place) :
    (pathOf place).bytes.head? = some slash := by
  rw [bytes_pathOf h]
  rfl

/-- Above a rednode, every directory is a rednode or is found not to be one. -/
theorem Tree.load_above (T : Tree os w admin) {X P : Place} (hX : IsRednode os w admin X)
    (hP : P ∈ ancestry X) :
    (∃ loaded, redNodesLoad os.toFileOs w (slashed (pathOf P)) admin = .ok loaded ∧
      loaded.node.redpath = slashed (pathOf P) ∧ IsRednode os w admin P) ∨
    (redNodesLoad os.toFileOs w (slashed (pathOf P)) admin = .error .missing ∧
      ¬ IsRednode os w admin P) := by
  have hdir : IsDir os w P := T.above hX.isDir (mem_ancestry.mp hP).2.1
  have hlen := pathBytes_ancestor hX.1 hP
  obtain ⟨hnamed, loaded, hload⟩ := hX
  obtain ⟨hnormal, hadmin⟩ := room_of_loaded hload
  rw [bytes_pathOf hnamed] at hnormal hadmin
  have hroom : Room admin (slashed (pathOf P)) := by
    constructor
    · rw [length_slashed, bytes_pathOf hdir.1]
      omega
    · intro h
      have := hadmin h
      rw [length_slashed, bytes_pathOf hdir.1]
      omega
  cases hP' : redNodesLoad os.toFileOs w (pathOf P) admin with
  | ok loaded' =>
    exact .inl ⟨_, T.loads_slashed (head?_pathOf hdir.1) hroom hP', rfl, hdir.1, loaded', hP'⟩
  | error e =>
    have hnot : ¬ IsRednode os w admin P := by
      rintro ⟨-, loaded', h⟩
      rw [hP'] at h
      cases h
    cases e with
    | missing => exact .inr ⟨T.missing_slashed (head?_pathOf hdir.1) hroom hP', hnot⟩
    | fx => exact absurd hP' (T.loadable P hdir)
    | fault =>
      rcases redNodesLoad_error hP' with h | ⟨-, hend⟩
      · cases h
      · rw [length_joinPath, bytes_pathOf hdir.1, show rednodeStatus.bytes.length = 13 by
          decide +kernel, if_pos (by omega)] at hend
        cases hend.1

theorem digToRoot_pathBytes {load : CStr → Except NotLoaded Loaded} {X : Place} (hX : Named X)
    (hne : X ≠ []) (hgood : ∀ P ∈ ancestry X, load (slashed (pathOf P)) ≠ .error .fx ∧
      load (slashed (pathOf P)) ≠ .error .fault) :
    (digToRoot load (pathBytes X)).result = .done ∧ (digToRoot load (pathBytes X)).parents =
      (ancestry X).filterMap fun P => (load (slashed (pathOf P))).toOption := by
  induction X using List.reverseRecOn with
  | nil => exact absurd rfl hne
  | append_singleton P name ih =>
    have hcons : pathBytes (P ++ [name]) ≠ [] := List.cons_ne_nil _ _
    by_cases hP : P = []
    · subst hP
      have hcut : stripSlash (pathBytes ([] ++ [name])) = [] ++ slash :: name := by
        rw [stripSlash_pathBytes hX (by simp)]
        simp [pathBytes]
      rw [digToRoot_top hcons hcut hX.last.1.isField.sepFree (Nat.zero_le 1)]
      exact ⟨rfl, rfl⟩
    · have hcut : stripSlash (pathBytes (P ++ [name])) = pathBytes P ++ slash :: name := by
        rw [stripSlash_pathBytes hX hne, pathBytes_concat hP]
      have hlong : 1 < (pathBytes P).length := by
        have hjoined : joined slash P ≠ [] := fun hnil => hP
          ((joined_eq_nil fun n hn => hX.parent.isField hn).mp hnil)
        rw [pathBytes, List.length_cons]
        exact Nat.succ_lt_succ (List.length_pos_iff.mpr hjoined)
      have hpath : CStr.ofBytes (pathBytes P ++ [slash]) = slashed (pathOf P) := by
        rw [← bytes_pathOf hX.parent]
        exact CStr.ofBytes_bytes (slashed (pathOf P))
      have hrest : digToRoot load (pathBytes P ++ [slash]) = digToRoot load (pathBytes P) :=
        digToRoot_congr (by simp) (List.cons_ne_nil _ _) (by
          rw [stripSlash_concat, stripSlash_pathBytes hX.parent hP])
      rw [ancestry_concat hP] at hgood ⊢
      obtain ⟨hdone, hparents⟩ := ih hX.parent hP fun Q hQ => hgood Q (List.mem_cons_of_mem _ hQ)
      rw [digToRoot_cut hcons hcut hX.last.1.isField.sepFree hlong, hpath, hrest]
      cases hload : load (slashed (pathOf P)) with
      | ok parent =>
        rw [List.filterMap_cons_some (by rw [hload]; rfl)]
        exact ⟨hdone, congrArg _ hparents⟩
      | error e =>
        rw [List.filterMap_cons_none (by rw [hload]; rfl)]
        cases e with
        | missing => exact ⟨hdone, hparents⟩
        | fx => exact absurd hload (hgood P (by simp)).1
        | fault => exact absurd hload (hgood P (by simp)).2

/-- The nearest rednode above. -/
def NearestAbove (os : DirOs ω) (w : ω) (admin : Bool) (X P : Place) : Prop :=
  ∃ before after, ancestry X = before ++ P :: after ∧ IsRednode os w admin P ∧
    ∀ Q ∈ before, ¬ IsRednode os w admin Q

/-- What is known of the places above a rednode. -/
def Settled (os : DirOs ω) (w : ω) (admin : Bool) (P : Place) : Prop :=
  (∃ loaded, loadedAt os w admin P = some loaded ∧
      designated [] loaded.node.redpath.bytes = P ∧ IsRednode os w admin P) ∨
    (loadedAt os w admin P = none ∧ ¬ IsRednode os w admin P)

theorem Tree.settled (T : Tree os w admin) {X P : Place} (hX : IsRednode os w admin X)
    (hP : P ∈ ancestry X) : Settled os w admin P := by
  have hdir : IsDir os w P := T.above hX.isDir (mem_ancestry.mp hP).2.1
  rcases T.load_above hX hP with ⟨loaded, hload, hredpath, hnode⟩ | ⟨hload, hnot⟩
  · refine .inl ⟨loaded, by rw [loadedAt, hload]; rfl, ?_, hnode⟩
    rw [hredpath]
    show designated [] ((pathOf P).bytes ++ [slash]) = P
    have hcons : pathBytes P ≠ [] := List.cons_ne_nil _ _
    rw [bytes_pathOf hdir.1, designated_concat hcons]
    exact designated_pathBytes hdir.1 []
  · exact .inr ⟨by rw [loadedAt, hload]; rfl, hnot⟩

theorem head_filterMap_settled {P : Place} : ∀ {places : List Place},
    (∀ Q ∈ places, Settled os w admin Q) →
      ((∃ loaded rest, places.filterMap (loadedAt os w admin) = loaded :: rest ∧
          designated [] loaded.node.redpath.bytes = P) ↔
        ∃ before after, places = before ++ P :: after ∧ IsRednode os w admin P ∧
          ∀ Q ∈ before, ¬ IsRednode os w admin Q) := by
  intro places
  induction places with
  | nil => intro _; simp
  | cons Q places ih =>
    intro h
    rcases h Q (by simp) with ⟨loaded, hload, hplace, hnode⟩ | ⟨hload, hnot⟩
    · rw [List.filterMap_cons_some hload]
      constructor
      · rintro ⟨_, _, hsame, rfl⟩
        cases hsame
        exact ⟨[], places, by rw [hplace]; rfl, hplace.symm ▸ hnode, fun _ hQ =>
          absurd hQ List.not_mem_nil⟩
      · rintro ⟨before, after, hsplit, hP, hbefore⟩
        cases before with
        | nil =>
          obtain ⟨rfl, -⟩ := List.cons.inj hsplit
          exact ⟨loaded, _, rfl, hplace⟩
        | cons R before =>
          obtain ⟨rfl, -⟩ := List.cons.inj hsplit
          exact absurd hnode (hbefore Q (by simp))
    · rw [List.filterMap_cons_none hload, ih fun R hR => h R (by simp [hR])]
      constructor
      · rintro ⟨before, after, rfl, hP, hbefore⟩
        refine ⟨Q :: before, after, rfl, hP, fun R hR => ?_⟩
        rcases List.mem_cons.mp hR with rfl | hR
        · exact hnot
        · exact hbefore R hR
      · rintro ⟨before, after, hsplit, hP, hbefore⟩
        cases before with
        | nil =>
          obtain ⟨rfl, -⟩ := List.cons.inj hsplit
          exact absurd hP hnot
        | cons R before =>
          obtain ⟨-, rfl⟩ := List.cons.inj hsplit
          exact ⟨before, after, rfl, hP, fun R hR => hbefore R (by simp [hR])⟩

/-- **Upward.** The parent is the nearest rednode above. -/
theorem Tree.upParent_iff (T : Tree os w admin) {X P : Place} (hX : IsRednode os w admin X)
    (hne : X ≠ []) : UpParent os w admin X P ↔ NearestAbove os w admin X P := by
  rw [NearestAbove, ← head_filterMap_settled fun Q hQ => T.settled hX hQ]
  obtain ⟨hnamed, leaf, hload⟩ := hX
  have hcopy : (pathOf X).bytes.take redMaxpathlen = pathBytes X := by
    have hlen := length_of_loaded os.toFileOs w hload
    rw [List.take_of_length_le (by omega), bytes_pathOf hnamed]
  obtain ⟨hdone, hparents⟩ := @digToRoot_pathBytes
    (fun path => redNodesLoad os.toFileOs w path admin) X hnamed hne fun Q hQ => by
      rcases T.load_above ⟨hnamed, leaf, hload⟩ hQ with ⟨_, h, -⟩ | ⟨h, -⟩ <;>
        rw [h] <;> exact ⟨by simp, by simp⟩
  have hscan : redNodesScan (fun path => redNodesLoad os.toFileOs w path admin) (pathOf X) =
      some (some (withLeaf leaf.node
        (((ancestry X).filterMap (loadedAt os w admin)).map (·.node)))) := by
    rw [redNodesScan, hload]
    dsimp only
    rw [redNodesDigToRoot, hcopy]
    generalize hdig : digToRoot (fun path => redNodesLoad os.toFileOs w path admin) (pathBytes X) =
      dug at hdone hparents ⊢
    obtain ⟨result, tried, parents⟩ := dug
    obtain rfl : result = .done := hdone
    obtain rfl : parents = (ancestry X).filterMap (loadedAt os w admin) := hparents
    rfl
  constructor
  · rintro ⟨family, parent, hfamily, hparent, hplace⟩
    rw [hscan] at hfamily
    cases hfamily
    cases hall : (ancestry X).filterMap (loadedAt os w admin) with
    | nil => rw [hall] at hparent; cases hparent
    | cons loaded rest => rw [hall] at hparent; cases hparent; exact ⟨loaded, rest, rfl, hplace⟩
  · rintro ⟨loaded, rest, hall, hplace⟩
    rw [hall] at hscan
    exact ⟨_, _, hscan, rfl, hplace⟩

/-! ## Downward -/

/-- The path of a directory leaves room for the path of a status. -/
def Fits (place : Place) : Prop := (pathBytes place).length + 14 < redMaxpathlen

/-- A rednode that is reached from another one over rednodes. -/
inductive Below (os : DirOs ω) (w : ω) (admin : Bool) : Place → Place → Prop
  | here (place : Place) : Below os w admin place place
  | down {place lower : Place} {name : List UInt8}
      (h : IsRednode os w admin (place ++ [name]))
      (hlower : Below os w admin (place ++ [name]) lower) :
      Below os w admin place lower

theorem bytes_childPath {place : Place} {name : CStr} (hplace : Named (place ++ [name.bytes]))
    (hne : place ≠ []) : childPath (pathOf place) name =
      CStr.ofBytes ((pathBytes (place ++ [name.bytes])).take (redMaxpathlen - 1)) := by
  have hjoin : (joinPath (pathOf place) name).bytes = pathBytes (place ++ [name.bytes]) := by
    rw [pathBytes_concat hne, ← bytes_pathOf hplace.parent]
    simp [joinPath, CStr.append]
  rw [childPath, snprintfCut, hjoin]

theorem childPath_of_fit {place : Place} {name : CStr} (hplace : Named (place ++ [name.bytes]))
    (hne : place ≠ []) (hfit : (pathBytes (place ++ [name.bytes])).length < redMaxpathlen) :
    childPath (pathOf place) name = pathOf (place ++ [name.bytes]) := by
  rw [bytes_childPath hplace hne, List.take_of_length_le (by omega)]
  rfl

/-- A child that is met is loaded or found to be no node, exactly if its path fits. -/
theorem Tree.childFails_iff (T : Tree os w admin) {place : Place} {name : CStr} (hne : place ≠ [])
    (hshown : isHidden name = false) (hdir : IsDir os w (place ++ [name.bytes])) :
    childFails os w admin (pathOf place) ⟨name, true⟩ = false ↔ Fits (place ++ [name.bytes]) := by
  have hstatus : rednodeStatus.bytes.length = 13 := by decide +kernel
  by_cases hfit : Fits (place ++ [name.bytes])
  · refine iff_of_true ?_ hfit
    have hpath := childPath_of_fit hdir.1 hne (by unfold Fits at hfit; omega)
    rw [childFails, hpath]
    cases hload : redNodesLoad os.toFileOs w (pathOf (place ++ [name.bytes])) admin with
    | ok loaded => simp
    | error e =>
      rcases redNodesLoad_error hload with rfl | ⟨-, hend⟩
      · exact absurd hload (T.loadable _ hdir)
      · unfold Fits at hfit
        rw [length_joinPath, bytes_pathOf hdir.1, hstatus, if_pos (by omega)] at hend
        rw [hend.1]
        simp
  · refine iff_of_false ?_ hfit
    rw [childFails, hshown]
    have hlen := length_childPath (pathOf place) name
    rw [bytes_pathOf hdir.1.parent] at hlen
    unfold Fits at hfit
    rw [pathBytes_concat hne, List.length_append, List.length_cons] at hfit
    have hlong : ¬ (joinPath (childPath (pathOf place) name) rednodeStatus).bytes.length <
        redMaxpathlen := by
      rw [length_joinPath, hstatus]
      simp only [redMaxpathlen] at hfit hlen ⊢
      omega
    cases hload : redNodesLoad os.toFileOs w (childPath (pathOf place) name) admin with
    | ok loaded => exact absurd ((redNodesLoad_ok os.toFileOs w).mp hload).room hlong
    | error e =>
      rcases redNodesLoad_error hload with rfl | ⟨-, hend⟩
      · simp
      · rw [if_neg hlong] at hend
        rw [hend]
        simp

/-- All directories in a directory fit. -/
def AllFit (os : DirOs ω) (w : ω) (place : Place) : Prop :=
  ∀ name, IsDir os w (place ++ [name]) → Fits (place ++ [name])

theorem Tree.children_iff (T : Tree os w admin) {place : Place} (hplace : IsDir os w place)
    (hne : place ≠ []) (hlen : (pathBytes place).length < redMaxpathlen) {node : Loaded}
    (hnode : node.node.redpath = pathOf place) :
    (∃ children, redChildrenNodesLoad os w admin node = .ok children) ↔ AllFit os w place := by
  obtain ⟨entries, hread, hentries⟩ := T.listed place hplace hlen
  have hbad : (∀ de ∈ entries, childFails os w admin (pathOf place) de = false) ↔
      AllFit os w place := by
    constructor
    · intro h name hdir
      have hshown : isHidden ⟨name, hdir.1.last.2⟩ = false := by
        simpa [isHidden] using T.shown place name hdir
      have hde := h _ ((hentries ⟨name, hdir.1.last.2⟩ hshown).mpr hdir)
      exact (T.childFails_iff hne hshown hdir).mp hde
    · rintro h ⟨name, isDir⟩ hde
      cases isDir with
      | false => rfl
      | true =>
        cases hshown : isHidden name with
        | true => simp [childFails, hshown]
        | false =>
          have hdir := (hentries name hshown).mp hde
          exact (T.childFails_iff hne hshown hdir).mpr (h name.bytes hdir)
  rw [← hbad]
  constructor
  · rintro ⟨children, h⟩
    obtain ⟨_, hsame, hgood, -⟩ := redChildrenNodesLoad_ok.mp h
    rw [hnode] at hsame hgood
    rw [hread] at hsame
    cases hsame
    exact hgood
  · intro h
    exact ⟨_, redChildrenNodesLoad_ok.mpr ⟨entries, by rw [hnode]; exact hread, by
      rw [hnode]; exact h, rfl⟩⟩

theorem Tree.mem_children (T : Tree os w admin) {place : Place} (hplace : IsDir os w place)
    (hne : place ≠ []) (hlen : (pathBytes place).length < redMaxpathlen) {node : Loaded}
    (hnode : node.node.redpath = pathOf place)
    {children : List Loaded} (h : redChildrenNodesLoad os w admin node = .ok children)
    {child : Loaded} : child ∈ children ↔ ∃ name, Named (place ++ [name]) ∧
      redNodesLoad os.toFileOs w (pathOf (place ++ [name])) admin = .ok child := by
  have hfit := (T.children_iff hplace hne hlen hnode).mp ⟨children, h⟩
  obtain ⟨entries, hread, hentries⟩ := T.listed place hplace hlen
  obtain ⟨_, hsame, -, rfl⟩ := redChildrenNodesLoad_ok.mp h
  rw [hnode] at hsame ⊢
  rw [hread] at hsame
  cases hsame
  have hpath : ∀ name : CStr, IsDir os w (place ++ [name.bytes]) →
      childPath (pathOf place) name = pathOf (place ++ [name.bytes]) := fun name hdir => by
    have hfits : Fits (place ++ [name.bytes]) := hfit name.bytes hdir
    exact childPath_of_fit hdir.1 hne (by unfold Fits at hfits; omega)
  rw [mem_childOf]
  constructor
  · rintro ⟨⟨name, isDir⟩, hde, rfl, hshown, hload⟩
    have hdir := (hentries name hshown).mp hde
    dsimp only at hload
    rw [hpath name hdir] at hload
    exact ⟨name.bytes, hdir.1, hload⟩
  · rintro ⟨name, hnamed, hload⟩
    have hdir : IsDir os w (place ++ [name]) := IsRednode.isDir ⟨hnamed, child, hload⟩
    have hshown : isHidden ⟨name, hnamed.last.2⟩ = false := by
      simpa [isHidden] using T.shown place name hdir
    refine ⟨⟨⟨name, hnamed.last.2⟩, true⟩, (hentries _ hshown).mpr hdir, rfl, hshown, ?_⟩
    dsimp only
    rw [hpath ⟨name, hnamed.last.2⟩ hdir]
    exact hload

theorem exists_forall₂ {α β : Type} {R : α → β → Prop} : ∀ {as : List α},
    (∀ a ∈ as, ∃ b, R a b) → ∃ bs, List.Forall₂ R as bs := by
  intro as
  induction as with
  | nil => intro _; exact ⟨[], .nil⟩
  | cons a as ih =>
    intro h
    obtain ⟨b, hb⟩ := h a (by simp)
    obtain ⟨bs, hbs⟩ := ih fun a' ha' => h a' (by simp [ha'])
    exact ⟨b :: bs, .cons hb hbs⟩

theorem forall₂_partner {α β : Type} {R : α → β → Prop} {as : List α} {bs : List β}
    (h : List.Forall₂ R as bs) : ∀ a ∈ as, ∃ b ∈ bs, R a b := by
  induction h with
  | nil => exact fun _ hmem => absurd hmem List.not_mem_nil
  | @cons a b as bs hab _ ih =>
    intro c hc
    rcases List.mem_cons.mp hc with rfl | hc
    · exact ⟨b, by simp, hab⟩
    · obtain ⟨d, hd, hcd⟩ := ih c hc
      exact ⟨d, by simp [hd], hcd⟩

/-- The scan below a rednode succeeds, if all directories that it meets fit. -/
theorem Tree.digToChilds_iff (T : Tree os w admin) :
    ∀ {depth : Nat} {place : Place} {node : Loaded},
    place ≠ [] → redNodesLoad os.toFileOs w (pathOf place) admin = .ok node → Named place →
      redMaxpathlen ≤ (pathBytes place).length + depth →
      ((∃ tree, redNodesDigToChilds os w admin depth node = .ok tree) ↔
        ∀ lower, Below os w admin place lower → AllFit os w lower) := by
  intro depth
  induction depth with
  | zero =>
    intro place node _ hload hnamed hdepth
    have hlen := length_of_loaded os.toFileOs w hload
    rw [bytes_pathOf hnamed] at hlen
    omega
  | succ depth ih =>
    intro place node hne hload hnamed hdepth
    have hdir : IsDir os w place := IsRednode.isDir ⟨hnamed, node, hload⟩
    have hlen := length_of_loaded os.toFileOs w hload
    rw [bytes_pathOf hnamed] at hlen
    have hnode : node.node.redpath = pathOf place :=
      ((redNodesLoad_ok os.toFileOs w).mp hload).redpath_eq
    have hchild : ∀ name child, Named (place ++ [name]) →
        redNodesLoad os.toFileOs w (pathOf (place ++ [name])) admin = .ok child →
          ((∃ tree, redNodesDigToChilds os w admin depth child = .ok tree) ↔
            ∀ lower, Below os w admin (place ++ [name]) lower → AllFit os w lower) :=
      fun name child hname hload' => ih (by simp) hload' hname (by
        rw [pathBytes_concat hne, List.length_append, List.length_cons]
        omega)
    constructor
    · rintro ⟨tree, htree⟩ lower hlower
      obtain ⟨children, trees, hchildren, hall, -⟩ := digToChilds_ok.mp htree
      cases hlower with
      | here => exact (T.children_iff hdir hne hlen hnode).mp ⟨children, hchildren⟩
      | down hrednode hlower =>
        obtain ⟨hname, child, hload'⟩ := hrednode
        have hmem := (T.mem_children hdir hne hlen hnode hchildren).mpr ⟨_, hname, hload'⟩
        obtain ⟨tree', -, htree'⟩ := forall₂_partner hall _ hmem
        exact (hchild _ child hname hload').mp ⟨tree', htree'⟩ lower hlower
    · intro h
      obtain ⟨children, hchildren⟩ :=
        (T.children_iff hdir hne hlen hnode).mpr (h place (.here place))
      obtain ⟨trees, hall⟩ := @exists_forall₂ _ _
          (fun child tree => redNodesDigToChilds os w admin depth child = .ok tree)
          children fun child hmem => by
        obtain ⟨name, hname, hload'⟩ := (T.mem_children hdir hne hlen hnode hchildren).mp hmem
        exact (hchild name child hname hload').mpr fun lower hlower =>
          h lower (.down ⟨hname, child, hload'⟩ hlower)
      exact ⟨_, digToChilds_ok.mpr ⟨children, trees, hchildren, hall, rfl⟩⟩

theorem root_digToChilds {depth : Nat} {node : Loaded} {tree : NodeTree}
    (h : redNodesDigToChilds os w admin depth node = .ok tree) : tree.root = node := by
  cases depth with
  | zero => cases h
  | succ depth =>
    obtain ⟨children, trees, -, -, rfl⟩ := digToChilds_ok.mp h
    rfl

/-- **Downward.** The children are the rednodes directly in the directory, if the scan succeeds. -/
theorem Tree.downChild_iff (T : Tree os w admin) {X P : Place} (hX : IsRednode os w admin X)
    (hP : IsRednode os w admin P) (hne : P ≠ []) : DownChild os w admin P X ↔
      (∀ lower, Below os w admin P lower → AllFit os w lower) ∧ Contains P X := by
  have hdirP := hP.isDir
  obtain ⟨hnamed, root, hload⟩ := hP
  have hlen := length_of_loaded os.toFileOs w hload
  rw [bytes_pathOf hnamed] at hlen
  have hroot : root.node.redpath = pathOf P :=
    ((redNodesLoad_ok os.toFileOs w).mp hload).redpath_eq
  have hscan : redNodesDownScan os w admin (pathOf P) =
      redNodesDigToChilds os w admin redMaxpathlen root := by rw [redNodesDownScan, hload]
  have hplace : ∀ name child, Named (P ++ [name]) →
      redNodesLoad os.toFileOs w (pathOf (P ++ [name])) admin = .ok child →
        designated [] child.node.redpath.bytes = P ++ [name] := fun name child hname hload' => by
    rw [((redNodesLoad_ok os.toFileOs w).mp hload').redpath_eq, bytes_pathOf hname]
    exact designated_pathBytes hname []
  rw [← T.digToChilds_iff hne hload hnamed (Nat.le_add_left _ _)]
  unfold DownChild
  rw [hscan]
  constructor
  · rintro ⟨tree, htree, child, hchild, hX'⟩
    refine ⟨⟨tree, htree⟩, ?_⟩
    obtain ⟨children, trees, hchildren, hall, rfl⟩ := digToChilds_ok.mp htree
    obtain ⟨loaded, hmem, hdig⟩ := forall₂_partner hall.flip child hchild
    obtain ⟨name, hname, hload'⟩ := (T.mem_children hdirP hne hlen hroot hchildren).mp hmem
    rw [root_digToChilds hdig, hplace name loaded hname hload'] at hX'
    exact ⟨name, hX'.symm⟩
  · rintro ⟨⟨tree, htree⟩, name, rfl⟩
    obtain ⟨hname, loaded, hload'⟩ := hX
    refine ⟨tree, htree, ?_⟩
    obtain ⟨children, trees, hchildren, hall, rfl⟩ := digToChilds_ok.mp htree
    have hmem := (T.mem_children hdirP hne hlen hroot hchildren).mpr ⟨name, hname, hload'⟩
    obtain ⟨child, hchild, hdig⟩ := forall₂_partner hall loaded hmem
    exact ⟨child, hchild, by rw [root_digToChilds hdig, hplace name loaded hname hload']⟩

/-! ## Agreement -/

/-- A rednode below another one, the root aside, lies directly in a rednode. -/
def NoGap (os : DirOs ω) (w : ω) (admin : Bool) : Prop :=
  ∀ X P, IsRednode os w admin X → IsRednode os w admin P → P ∈ ancestry X →
    IsRednode os w admin X.dropLast

/-- In a rednode that has a parent or a child, the root aside, all directories fit. -/
def RelatedFit (os : DirOs ω) (w : ω) (admin : Bool) : Prop :=
  ∀ P, IsRednode os w admin P → P ≠ [] →
    (P.dropLast ≠ [] ∧ IsRednode os w admin P.dropLast ∨
      ∃ name, IsRednode os w admin (P ++ [name])) → AllFit os w P

theorem allFit_below {P lower : Place} (hrelated : RelatedFit os w admin)
    (hP : IsRednode os w admin P) (hne : P ≠ []) (hfit : AllFit os w P)
    (h : Below os w admin P lower) : AllFit os w lower := by
  induction h with
  | here => exact hfit
  | @down place lower name hrednode _ ih =>
    refine ih hrednode (by simp) (hrelated _ hrednode (by simp) (.inl ?_))
    rw [List.dropLast_concat]
    exact ⟨hne, hP⟩

/-- The nearest rednode above is the containing directory, without gaps. -/
theorem nearest_iff_contains (hgap : NoGap os w admin) {X P : Place}
    (hX : IsRednode os w admin X) (hP : IsRednode os w admin P) (hne : P ≠ []) :
    NearestAbove os w admin X P ↔ Contains P X := by
  constructor
  · rintro ⟨before, after, hsplit, -, hbefore⟩
    have hparent := hgap X P hX hP (by rw [hsplit]; simp)
    rcases List.eq_nil_or_concat X with rfl | ⟨Y, name, rfl⟩
    · exact absurd hsplit (by simp [ancestry])
    · rw [List.concat_eq_append] at hsplit hparent ⊢
      rw [List.dropLast_concat] at hparent
      by_cases hY : Y = []
      · subst hY
        exact absurd hsplit (by simp [ancestry])
      · rw [ancestry_concat hY] at hsplit
        cases before with
        | nil =>
          obtain ⟨rfl, -⟩ := List.cons.inj hsplit
          exact ⟨name, rfl⟩
        | cons Q before =>
          obtain ⟨rfl, -⟩ := List.cons.inj hsplit
          exact absurd hparent (hbefore Y (by simp))
  · rintro ⟨name, rfl⟩
    exact ⟨[], ancestry P, ancestry_concat hne name, hP, fun _ h => absurd h List.not_mem_nil⟩

theorem Tree.agree_of (T : Tree os w admin) (hgap : NoGap os w admin)
    (hfit : RelatedFit os w admin) : Agree os w admin := by
  intro X P hX hP hneX hne
  rw [T.upParent_iff hX hneX, T.downChild_iff hX hP hne]
  refine ⟨nearest_iff_contains hgap hX hP hne, fun h => h.2, fun h => ⟨fun lower hlower => ?_, h⟩⟩
  obtain ⟨name, rfl⟩ := h
  exact allFit_below hfit hP hne (hfit P hP hne (.inr ⟨name, hX⟩)) hlower

theorem exists_first {α : Type} {p : α → Prop} : ∀ {l : List α}, (∃ a ∈ l, p a) →
    ∃ before a after, l = before ++ a :: after ∧ p a ∧ ∀ b ∈ before, ¬ p b := by
  intro l
  induction l with
  | nil => rintro ⟨a, ha, -⟩; exact absurd ha List.not_mem_nil
  | cons a l ih =>
    intro h
    by_cases ha : p a
    · exact ⟨[], a, l, rfl, ha, fun _ hb => absurd hb List.not_mem_nil⟩
    · obtain ⟨c, hc, hpc⟩ := h
      rcases List.mem_cons.mp hc with rfl | hc
      · exact absurd hpc ha
      · obtain ⟨before, d, after, rfl, hd, hbefore⟩ := ih ⟨c, hc, hpc⟩
        refine ⟨a :: before, d, after, rfl, hd, fun b hb => ?_⟩
        rcases List.mem_cons.mp hb with rfl | hb
        · exact ha
        · exact hbefore b hb

theorem Tree.noGap_of (T : Tree os w admin) (h : Agree os w admin) : NoGap os w admin := by
  intro X P hX hP hmem
  have hneX : X ≠ [] := by
    rintro rfl
    exact absurd hmem List.not_mem_nil
  -- the first rednode above is the parent that the upward scan sets
  obtain ⟨before, Q, after, hsplit, hQ, hbefore⟩ := exists_first ⟨P, hmem, hP⟩
  have hneQ : Q ≠ [] := (mem_ancestry.mp (show Q ∈ ancestry X by rw [hsplit]; simp)).1
  have hup := (T.upParent_iff hX hneX).mpr ⟨before, after, hsplit, hQ, hbefore⟩
  obtain ⟨name, rfl⟩ := ((h X Q hX hQ hneX hneQ).1).mp hup
  rwa [List.dropLast_concat]

theorem Tree.relatedFit_of (T : Tree os w admin) (h : Agree os w admin) :
    RelatedFit os w admin := by
  intro P hP hne hrelated
  rcases hrelated with ⟨hroot, hparent⟩ | ⟨name, hchild⟩
  · have hsplit := List.dropLast_append_getLast hne
    have hdown := ((h P P.dropLast hP hparent hne hroot).2).mpr ⟨P.getLast hne, hsplit.symm⟩
    have hbelow : Below os w admin P.dropLast (P.dropLast ++ [P.getLast hne]) :=
      .down (hsplit.symm ▸ hP) (.here _)
    rw [hsplit] at hbelow
    exact ((T.downChild_iff hP hparent hroot).mp hdown).1 P hbelow
  · have hdown := ((h _ P hchild hP (by simp) hne).2).mpr ⟨name, rfl⟩
    exact ((T.downChild_iff hchild hP hne).mp hdown).1 P (.here P)

/-- **One parent relation.** Both scans find the directory that directly contains a rednode, exactly
if no directory that is no rednode lies between rednodes, and no path gets too long. -/
theorem agree_iff (T : Tree os w admin) :
    Agree os w admin ↔ NoGap os w admin ∧ RelatedFit os w admin :=
  ⟨fun h => ⟨T.noGap_of h, T.relatedFit_of h⟩, fun h => T.agree_of h.1 h.2⟩

/-! ## Disks -/

/-- What a directory of a disk holds, in the order of the disk. -/
def entriesIn (place : Place) (isDir : Bool) (paths : List Place) : List Entry :=
  (paths.filter fun path => path ≠ [] ∧ path.dropLast = place).map fun path =>
    ⟨CStr.ofBytes (path.getLast?.getD []), isDir⟩

/-- The entries that lead to the directory itself and to the one above. -/
def dotEntries : List Entry := [⟨CStr.ofBytes here, true⟩, ⟨CStr.ofBytes above, true⟩]

/-- A disk whose directories can be read. -/
def diskDirOs : DirOs Factory.Disk where
  toFileOs := Factory.diskOs.toFileOs
  readdir d path :=
    match d.find path with
    | none => none
    | some place =>
      if d.dirs.contains place then
        some (dotEntries ++ entriesIn place true d.dirs ++
          entriesIn place false ((d.configs.map (·.1)) ++ d.statuses.map (·.1)))
      else none

/-- The names of the directories of a disk, and the loads. -/
structure TreeDisk (d : Factory.Disk) (admin : Bool) : Prop where
  named : ∀ place ∈ d.dirs, Named place
  inside : ∀ place ∈ d.dirs, place.dropLast ∈ d.dirs
  shown : ∀ place ∈ d.dirs, place.getLast?.bind List.head? ≠ some 0x2E
  loadable : ∀ place ∈ d.dirs,
    redNodesLoad Factory.diskOs.toFileOs d (pathOf place) admin ≠ .error .fx

theorem names_pathOf {place : Place} (h : Named place) :
    Factory.names (pathOf place) = place := by
  rw [Factory.names, bytes_pathOf h, fields_pathBytes h]

theorem find_pathOf {d : Factory.Disk} {place found : Place} (h : Named place)
    (hfind : d.find (pathOf place) = some found) : found = place := by
  rw [Factory.Disk.find, names_pathOf h] at hfind
  rw [Factory.Disk.walk_eq hfind, foldl_follow h.plain, List.nil_append]

theorem TreeDisk.find_of_mem {d : Factory.Disk} {admin : Bool} (h : TreeDisk d admin)
    {place : Place} (hmem : place ∈ d.dirs) : d.find (pathOf place) = some place := by
  rw [Factory.Disk.find, names_pathOf (h.named _ hmem)]
  induction place using List.reverseRecOn with
  | nil => rfl
  | append_singleton place name ih =>
    have hinside := h.inside _ hmem
    rw [List.dropLast_concat] at hinside
    have hlast : Plain name := (h.named _ hmem).last.1
    rw [Factory.Disk.walk_append, ih hinside, Option.bind_some, Factory.Disk.walk,
      if_pos (by simpa using hinside), follow_plain hlast, Factory.Disk.walk]

theorem isDir_disk {d : Factory.Disk} {admin : Bool} (h : TreeDisk d admin) {place : Place} :
    IsDir diskDirOs d place ↔ place ∈ d.dirs := by
  show Named place ∧ (d.find (pathOf place)).bind d.kind = some .directory ↔ _
  constructor
  · rintro ⟨hnamed, hdir⟩
    obtain ⟨found, hfind, hkind⟩ := Option.bind_eq_some_iff.mp hdir
    rw [← find_pathOf hnamed hfind]
    by_contra hnot
    simp [Factory.Disk.kind, hnot] at hkind
  · intro hmem
    refine ⟨h.named _ hmem, ?_⟩
    rw [h.find_of_mem hmem, Option.bind_some, Factory.Disk.kind]
    exact if_pos (by simpa using hmem)

theorem isDir_of_mem {place : Place} {paths : List Place} {de : Entry} {isDir : Bool}
    (h : de ∈ entriesIn place isDir paths) : de.isDir = isDir := by
  obtain ⟨path, -, rfl⟩ := List.mem_map.mp h
  rfl

theorem mem_entriesIn {place : Place} {paths : List Place} {name : CStr} {isDir : Bool}
    (hnamed : ∀ path ∈ paths, Named path) :
    (⟨name, isDir⟩ : Entry) ∈ entriesIn place isDir paths ↔ place ++ [name.bytes] ∈ paths := by
  rw [entriesIn, List.mem_map]
  constructor
  · rintro ⟨path, hmem, hentry⟩
    obtain ⟨hpath, hcond⟩ := List.mem_filter.mp hmem
    obtain ⟨hne, rfl⟩ := of_decide_eq_true hcond
    obtain ⟨last, hlast⟩ := Option.ne_none_iff_exists'.mp (mt List.getLast?_eq_none_iff.mp hne)
    have hsplit := List.dropLast_append_getLast? last hlast
    have hfree : (0 : UInt8) ∉ last := (hnamed path hpath last (List.mem_of_getLast? hlast)).2
    have hname : CStr.ofBytes last = name := by
      rw [hlast] at hentry
      exact congrArg Entry.name hentry
    rw [← hname, show (CStr.ofBytes last).bytes = last from
      congrArg CStr.bytes (CStr.ofBytes_bytes ⟨last, hfree⟩), hsplit]
    exact hpath
  · intro hmem
    refine ⟨place ++ [name.bytes], List.mem_filter.mpr ⟨hmem, ?_⟩, ?_⟩
    · exact decide_eq_true ⟨by simp, List.dropLast_concat⟩
    · simp [CStr.ofBytes_bytes]

theorem tree_disk {d : Factory.Disk} {admin : Bool} (h : TreeDisk d admin) :
    Tree diskDirOs d admin := by
  refine ⟨fun _ _ hsame => ?_, fun p _ _ => ?_, fun place name hdir => ?_,
    fun place name hdir => ?_, fun place hdir _ => ?_, fun place hdir => ?_⟩
  · have hfind : d.find _ = d.find _ := congrArg (d.walk []) hsame
    refine ⟨?_, ?_, ?_⟩
    · exact congrArg (·.bind d.kind) hfind
    · exact congrArg (·.bind (d.configs.lookup ·)) hfind
    · exact congrArg (·.bind (d.statuses.lookup ·)) hfind
  · have hfind : d.find (slashed p) = d.find p :=
      congrArg (d.walk []) (fields_append_sep_nil p.bytes)
    exact Eq.congr_left (congrArg (·.bind d.kind) hfind)
  · have hinside := h.inside _ ((isDir_disk h).mp hdir)
    rw [List.dropLast_concat] at hinside
    exact (isDir_disk h).mpr hinside
  · have hshown := h.shown _ ((isDir_disk h).mp hdir)
    rwa [List.getLast?_concat] at hshown
  · have hmem := (isDir_disk h).mp hdir
    refine ⟨dotEntries ++ entriesIn place true d.dirs ++
      entriesIn place false (d.configs.map (·.1) ++ d.statuses.map (·.1)), ?_, fun name hname => ?_⟩
    · have hfind := h.find_of_mem hmem
      simp only [diskDirOs, hfind]
      exact if_pos (by simpa using hmem)
    · have hdots : (⟨name, true⟩ : Entry) ∉ dotEntries := by
        intro hdot
        rcases List.mem_cons.mp hdot with hhere | hdot
        · cases hhere
          exact absurd hname (by decide +kernel)
        · cases List.mem_singleton.mp hdot
          exact absurd hname (by decide +kernel)
      rw [List.mem_append, List.mem_append, mem_entriesIn h.named, isDir_disk h]
      constructor
      · rintro ((hdot | hname) | hname)
        · exact absurd hdot hdots
        · exact hname
        · cases isDir_of_mem hname
      · exact fun hname => .inl (.inr hname)
  · exact h.loadable place ((isDir_disk h).mp hdir)

/-- Some directories, and nodes in some of them. -/
def nodesDisk (dirs nodes : List String) : Factory.Disk where
  dirs := dirs.map fun path => Factory.names (.lit path)
  configs := nodes.map fun path => (Factory.names (joinPath (.lit path) rednodeConf),
    { headers := ⟨CStr.lit "node", none, none⟩ })
  statuses := nodes.map fun path => (Factory.names (joinPath (.lit path) rednodeStatus),
    ⟨.enable, .lit path, 0, none⟩)

/-- A node in a node. -/
def linkedDisk : Factory.Disk := nodesDisk ["/", "/r", "/r/etc", "/r/n", "/r/n/etc"] ["/r", "/r/n"]

/-- A node below a node, in a directory that is none. -/
def gapDisk : Factory.Disk :=
  nodesDisk ["/", "/r", "/r/etc", "/r/gap", "/r/gap/n", "/r/gap/n/etc"] ["/r", "/r/gap/n"]

theorem treeDisk_linkedDisk : TreeDisk linkedDisk true :=
  ⟨by decide +kernel, by decide +kernel, by decide +kernel, by decide +kernel⟩

theorem treeDisk_gapDisk : TreeDisk gapDisk true :=
  ⟨by decide +kernel, by decide +kernel, by decide +kernel, by decide +kernel⟩

theorem agree_iff_linkedDisk : Agree diskDirOs linkedDisk true ↔
    NoGap diskDirOs linkedDisk true ∧ RelatedFit diskDirOs linkedDisk true :=
  agree_iff (tree_disk treeDisk_linkedDisk)

theorem isRednode_of_loads {d : Factory.Disk} {place : Place} (hnamed : Named place)
    (h : (redNodesLoad diskDirOs.toFileOs d (pathOf place) true).toOption.isSome = true) :
    IsRednode diskDirOs d true place := by
  refine ⟨hnamed, ?_⟩
  cases hload : redNodesLoad diskDirOs.toFileOs d (pathOf place) true with
  | ok loaded => exact ⟨loaded, rfl⟩
  | error e => rw [hload] at h; cases h

/-- The upward scan takes the node above the gap for the parent. -/
theorem not_agree_gapDisk :
    Tree diskDirOs gapDisk true ∧ ¬ Agree diskDirOs gapDisk true := by
  refine ⟨tree_disk treeDisk_gapDisk, fun h => ?_⟩
  have hgap := (tree_disk treeDisk_gapDisk).noGap_of h (Factory.names (.lit "/r/gap/n"))
    (Factory.names (.lit "/r")) (isRednode_of_loads (by decide +kernel) (by decide +kernel))
    (isRednode_of_loads (by decide +kernel) (by decide +kernel)) (by decide +kernel)
  obtain ⟨-, loaded, hload⟩ := hgap
  have hnone : (redNodesLoad diskDirOs.toFileOs gapDisk
      (pathOf (Factory.names (.lit "/r/gap/n")).dropLast) true).toOption.isSome = false := by
    decide +kernel
  rw [hload] at hnone
  cases hnone

end Node
end RedPak
