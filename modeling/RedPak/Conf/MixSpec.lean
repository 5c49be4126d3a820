import RedPak.Conf.Mix
import RedPak.Layered.Links
import RedPak.Layered.Deliver
import Mathlib.Data.List.Dedup

/-!
# Conf.MixSpec

What the merge of named definitions computes.

* `mergeConf_eq_mixItems`: the loop goes through the definitions in the order of `Layered.walk`.
* `mixItems_eq`: going through them is `Layered.mergeAll`, for a lawful `Mix`.
* `mixConf_eq`, `links_eq_none`: the whole merge. It is refused when the definitions of one name
  are.
* `holds_of_links`: otherwise it ends with one link for each name, which holds the definition that
  `decisive` selects.
-/

namespace RedPak
namespace Conf

open Layered (Item items walk mergeAll)

namespace Mix

variable {δ τ : Type} (m : Mix δ τ) {σ : Type*} (finish : MixEnd τ σ)

/-! ## The loop goes through the items of the walk -/

def mixItems (merger : MixRoot τ σ) : List (Item Family δ) → Outcome σ
  | [] => merger.send finish
  | i :: is =>
    match m.mixStep merger i.level i.strong i.depth i.val with
    | .inl out => out
    | .inr merger' => mixItems merger' is

/-- Is the definition of an item taken into account? -/
def taken (i : Item Family δ) : Bool := i.depth == 0 || m.inherited i.val

theorem taken_iff {i : Item Family δ} :
    m.taken i = true ↔ ¬ (0 < i.depth ∧ m.inherited i.val = false) := by
  cases h : m.inherited i.val <;> simp [taken, h]

/-- What the loop has still to go through. -/
def upcoming (node : Family) (admin : Bool) (index depth : Nat) : List (Item Family δ) :=
  (items depth admin node ((m.defsOf node admin).drop index) ++
    ((if admin then items depth false node (m.defsOf node false) else []) ++
      walk (m.defsOf · true) (m.defsOf · false) (depth + 1) node.ancestors)).filter m.taken

theorem upcoming_of_some {node : Family} {admin : Bool} {index : Nat} {d : δ} (depth : Nat)
    (h : (m.defsOf node admin)[index]? = some d) : m.upcoming node admin index depth =
      (if m.taken ⟨depth, admin, node, d⟩ then [⟨depth, admin, node, d⟩] else []) ++
        m.upcoming node admin (index + 1) depth := by
  obtain ⟨hi, rfl⟩ := List.getElem?_eq_some_iff.mp h
  simp only [upcoming, List.drop_eq_getElem_cons hi, Layered.items_cons, List.cons_append,
    List.filter_cons]
  split <;> rfl

theorem upcoming_of_none {node : Family} {index : Nat} (depth : Nat)
    (h : (m.defsOf node true)[index]? = none) :
    m.upcoming node true index depth = m.upcoming node false 0 depth := by
  have hd : (m.defsOf node true).drop index = [] :=
    List.drop_eq_nil_iff.mpr (List.getElem?_eq_none_iff.mp h)
  simp [upcoming, hd]

theorem upcoming_of_parent {node parent : Family} {index : Nat} (depth : Nat)
    (h : (m.defsOf node false)[index]? = none) (hp : node.parent = some parent) :
    m.upcoming node false index depth = m.upcoming parent true 0 (depth + 1) := by
  have hd : (m.defsOf node false).drop index = [] :=
    List.drop_eq_nil_iff.mpr (List.getElem?_eq_none_iff.mp h)
  have ha : node.ancestors = parent :: parent.ancestors := by
    have := Family.toRoot_of_parent hp
    exact (List.cons.inj this).2
  simp [upcoming, hd, ha, walk]

theorem upcoming_of_no_parent {node : Family} {index : Nat} (depth : Nat)
    (h : (m.defsOf node false)[index]? = none) (hp : node.parent = none) :
    m.upcoming node false index depth = [] := by
  have hd : (m.defsOf node false).drop index = [] :=
    List.drop_eq_nil_iff.mpr (List.getElem?_eq_none_iff.mp h)
  have ha : node.ancestors = [] := (List.cons.inj (Family.toRoot_of_parent_none hp)).2
  simp [upcoming, hd, ha, walk]

theorem mergeConf_eq_mixItems (merger : MixRoot τ σ) (node : Family) (admin : Bool)
    (index depth : Nat) : m.mergeConf finish merger node admin index depth =
      m.mixItems finish merger (m.upcoming node admin index depth) := by
  fun_induction mergeConf m finish merger node admin index depth with
  | case1 merger node admin index depth d h hskip ih =>
    rw [ih, m.upcoming_of_some depth h, if_neg fun ht => m.taken_iff.mp ht hskip, List.nil_append]
  | case2 merger node admin index depth d h htake out hstep =>
    rw [m.upcoming_of_some depth h, if_pos (m.taken_iff.mpr htake)]
    simp [mixItems, hstep]
  | case3 merger node admin index depth d h htake merger' hstep ih =>
    rw [m.upcoming_of_some depth h, if_pos (m.taken_iff.mpr htake), ih]
    simp [mixItems, hstep]
  | case4 merger node index depth h ih => rw [ih, m.upcoming_of_none depth h]
  | case5 merger node admin index depth h hadmin hp =>
    rw [Bool.not_eq_true] at hadmin
    subst hadmin
    rw [m.upcoming_of_no_parent depth h hp]; rfl
  | case6 merger node admin index depth h hadmin parent hp ih =>
    rw [Bool.not_eq_true] at hadmin
    subst hadmin
    rw [ih, m.upcoming_of_parent depth h hp]

/-- The definitions of a node that the merge from `leaf` takes into account. -/
def visible (leaf : Family) (admin : Bool) (f : Family) : List δ :=
  (m.defsOf f admin).filter fun d => decide (f = leaf) || m.inherited d

def found (leaf : Family) : List (Item Family δ) :=
  walk (m.visible leaf true) (m.visible leaf false) 0 leaf.toRoot

theorem found_before (leaf : Family) : (m.found leaf).Pairwise Item.Before :=
  Layered.walk_before _ _

theorem depth_eq_zero_iff {leaf : Family} {s w : Family → List δ} {i : Item Family δ}
    (h : i ∈ walk s w 0 leaf.toRoot) : i.depth = 0 ↔ i.level = leaf := by
  obtain ⟨-, hget, -⟩ := Layered.mem_walk.mp h
  rw [Nat.sub_zero] at hget
  constructor
  · intro h0
    rw [h0] at hget
    exact (Option.some.inj hget).symm
  · intro hl
    cases hd : i.depth with
    | zero => rfl
    | succ n =>
      rw [hd, hl, Family.toRoot, List.getElem?_cons_succ] at hget
      exact absurd (List.mem_of_getElem? hget) leaf.not_mem_ancestors

theorem upcoming_eq_found (leaf : Family) : m.upcoming leaf true 0 0 = m.found leaf := by
  have hall : m.upcoming leaf true 0 0 =
      (walk (m.defsOf · true) (m.defsOf · false) 0 leaf.toRoot).filter m.taken := by
    simp [upcoming, Family.toRoot, walk]
  have hwalk : m.found leaf = (walk (m.defsOf · true) (m.defsOf · false) 0 leaf.toRoot).filter
      (fun i => decide (i.level = leaf) || m.inherited i.val) :=
    (Layered.walk_filter (fun f d => decide (f = leaf) || m.inherited d) _ _).symm
  rw [hall, hwalk]
  refine List.filter_congr fun i hi => ?_
  simp only [taken, beq_eq_decide, depth_eq_zero_iff hi]

theorem mixConf_eq_mixItems (leaf : Family) (closure : σ) : m.mixConf finish leaf closure =
    m.mixItems finish ⟨0, [], closure, []⟩ (m.found leaf) := by
  rw [mixConf, mergeConf_eq_mixItems, upcoming_eq_found]

theorem mem_found {leaf : Family} {i : Item Family δ} (h : i ∈ m.found leaf) :
    i.level ∈ leaf.toRoot ∧ i.val ∈ m.visible leaf i.strong i.level := by
  obtain ⟨-, hget, hval⟩ := Layered.mem_walk.mp h
  refine ⟨List.mem_of_getElem? hget, ?_⟩
  cases hs : i.strong <;> simpa [hs] using hval

theorem exists_found {leaf f : Family} {admin : Bool} {d : δ} (hf : f ∈ leaf.toRoot)
    (hd : d ∈ m.visible leaf admin f) : ∃ i ∈ m.found leaf, i.level = f ∧ i.val = d := by
  have hmem : (f, d) ∈ (m.found leaf).map fun i => (i.level, i.val) := by
    rw [found, Layered.walk_map]
    refine List.mem_flatMap.mpr ⟨f, hf, List.mem_map.mpr ⟨d, ?_, rfl⟩⟩
    cases admin
    · exact List.mem_append_right _ hd
    · exact List.mem_append_left _ hd
  obtain ⟨i, hi, h⟩ := List.mem_map.mp hmem
  exact ⟨i, hi, congrArg Prod.fst h, congrArg Prod.snd h⟩

/-- All definitions that the merge from a node takes into account have a name. -/
def Named (leaf : Family) : Prop :=
  ∀ f ∈ leaf.toRoot, ∀ admin, ∀ d ∈ m.visible leaf admin f, (m.name f d).isSome

instance (leaf : Family) : Decidable (m.Named leaf) :=
  inferInstanceAs (Decidable (∀ f ∈ leaf.toRoot, ∀ admin, ∀ d ∈ m.visible leaf admin f,
    (m.name f d).isSome))

/-- No NULL name is compared: all definitions have a name, or there is one at most. -/
def Comparable (leaf : Family) : Prop := m.Named leaf ∨ (m.found leaf).length ≤ 1

instance (leaf : Family) : Decidable (m.Comparable leaf) :=
  inferInstanceAs (Decidable (_ ∨ _))

/-- The name under which an item is merged: names are compared up to the case of letters. -/
def key (i : Item Family δ) : Option (List UInt8) := (m.name i.level i.val).map CStr.folded

/-- A merge whose links say what `Layered.Link` says. -/
structure Lawful where
  dupOk : δ → δ → Bool
  overOk : δ → δ → Bool
  held : Layered.Link Family δ → τ
  record_eq : ∀ e, m.record e.val (m.name e.level e.val) = held ⟨e, e⟩
  replace_eq : ∀ l e, m.replace (held l) e.val = held ⟨l.first, e⟩
  differs_eq : ∀ l d, m.differs (held l) d = !dupOk l.cur.val d
  forbids_eq : ∀ l d, m.forbids (held l) d = !overOk l.cur.val d
  linkName_eq : ∀ l, m.key l.cur = m.key l.first →
    (m.linkName (held l)).map CStr.folded = m.key l.first

theorem mixItems_single (e : Item Family δ) (closure : σ) :
    (m.mixItems finish ⟨0, [], closure, []⟩ [e]).result = some (finish 1
      [⟨m.record e.val (m.name e.level e.val), e.level, e.depth, e.strong⟩] closure) := rfl

namespace Lawful

variable {m} (law : m.Lawful)

def link (l : Layered.Link Family δ) : MixLink τ :=
  ⟨law.held l, l.cur.level, l.cur.depth, l.cur.strong⟩

theorem backMerge_eq (l : Layered.Link Family δ) (e : Item Family δ) :
    (m.backMerge (law.link l) e.level e.strong e.depth e.val).1 =
      (l.meet law.dupOk law.overOk e).map law.link := by
  simp only [backMerge, link, law.differs_eq, law.forbids_eq, law.replace_eq, Layered.Link.meet,
    Layered.meet]
  split
  · split
    · cases law.dupOk l.cur.val e.val <;> simp [link]
    · simp [link]
  · cases he : e.strong <;> cases hl : l.cur.strong <;>
      cases law.overOk l.cur.val e.val <;> simp [link, hl, he]

theorem search_cases {links : List (Layered.Link Family δ)}
    (hkey : ∀ l ∈ links, m.key l.cur = m.key l.first)
    {e : Item Family δ} {b : CStr} (hb : m.name e.level e.val = some b)
    (hsome : ∀ l ∈ links, (m.key l.first).isSome)
    (f : Layered.Link Family δ → Option (Layered.Link Family δ)) :
    (m.search (some b) (links.map law.link) = .absent ∧
      Layered.updateLinks (fun l => decide (l.name m.key = m.key e)) f links = .absent) ∨
    ∃ pre l post, links = pre ++ l :: post ∧ l.name m.key = m.key e ∧
      m.search (some b) (links.map law.link) =
        .found (pre.map law.link) (law.link l) (post.map law.link) ∧
      Layered.updateLinks (fun l => decide (l.name m.key = m.key e)) f links =
        match f l with
        | some l' => .updated (pre ++ l' :: post)
        | none => .refused := by
  induction links with
  | nil => exact .inl ⟨rfl, rfl⟩
  | cons l links ih =>
    have hname := law.linkName_eq l (hkey l (by simp))
    obtain ⟨k, hk⟩ := Option.isSome_iff_exists.mp (hsome l (by simp))
    rw [hk, Option.map_eq_some_iff] at hname
    obtain ⟨a, ha, hak⟩ := hname
    have he : m.key e = some b.folded := by simp [key, hb]
    have hhit : l.name m.key = m.key e ↔ strcasecmp a b = 0 := by
      rw [strcasecmp_eq_zero, Layered.Link.name, hk, he, Option.some.injEq, hak]
    by_cases hc : strcasecmp a b = 0
    · refine .inr ⟨[], l, links, rfl, hhit.mpr hc, ?_, ?_⟩
      · simp [search, link, ha, hc]
      · simp only [Layered.updateLinks, hhit.mpr hc, decide_true, if_true, List.nil_append]
        cases f l <;> rfl
    · have hmiss : ¬ l.name m.key = m.key e := fun h => hc (hhit.mp h)
      have hsearch : m.search (some b) ((l :: links).map law.link) =
          (m.search (some b) (links.map law.link)).skip (law.link l) := by
        simp [search, link, ha, hc]
      rcases ih (fun x hx => hkey x (by simp [hx])) (fun x hx => hsome x (by simp [hx])) with
        ⟨hs, hu⟩ | ⟨pre, x, post, rfl, hx, hs, hu⟩
      · exact .inl ⟨by rw [hsearch, hs]; rfl, by simp [Layered.updateLinks, hmiss, hu,
          Layered.Update.cons]⟩
      · refine .inr ⟨l :: pre, x, post, rfl, hx, by rw [hsearch, hs]; rfl, ?_⟩
        simp only [Layered.updateLinks, hmiss, decide_false, Bool.false_eq_true, if_false, hu]
        cases f x <;> rfl

/-- The links of a run: all of them named, under the name that their current item has too. -/
def KeepsName (links : List (Layered.Link Family δ)) : Prop :=
  ∀ l ∈ links, m.key l.cur = m.key l.first ∧ (m.key l.first).isSome

theorem keepsName_meet {pre post : List (Layered.Link Family δ)} {l l' : Layered.Link Family δ}
    {e : Item Family δ} (hn : KeepsName (m := m) (pre ++ l :: post)) (hle : l.name m.key = m.key e)
    (h : l.meet law.dupOk law.overOk e = some l') : KeepsName (m := m) (pre ++ l' :: post) := by
  obtain ⟨hfirst, hcur⟩ := Layered.Link.meet_cases _ _ h
  have hl := hn l (by simp)
  intro x hx
  simp only [List.mem_append, List.mem_cons] at hx
  rcases hx with hx | rfl | hx
  · exact hn x (by simp [hx])
  · rw [hfirst]
    refine ⟨?_, hl.2⟩
    rcases hcur with hcur | hcur
    · rw [hcur]; exact hl.1
    · rw [hcur, ← hle]; rfl
  · exact hn x (by simp [hx])

def root (links : List (Layered.Link Family δ)) (closure : σ) (log : List LogEntry) :
    MixRoot τ σ :=
  ⟨links.length, links.map law.link, closure, log⟩

theorem mixStep_eq {links : List (Layered.Link Family δ)} (hn : KeepsName (m := m) links)
    {e : Item Family δ} (he : (m.name e.level e.val).isSome) (closure : σ) (log : List LogEntry) :
    ∃ log', match Layered.mergeStep law.dupOk law.overOk m.key links e with
      | none => m.mixStep (law.root links closure log) e.level e.strong e.depth e.val =
          .inl (.ret (-1) closure log')
      | some ls => m.mixStep (law.root links closure log) e.level e.strong e.depth e.val =
          .inr (law.root ls closure log') ∧ KeepsName (m := m) ls := by
  obtain ⟨b, hb⟩ := Option.isSome_iff_exists.mp he
  have hkey : m.key e = some b.folded := by simp [key, hb]
  rcases law.search_cases (fun l hl => (hn l hl).1) hb (fun l hl => (hn l hl).2)
      (fun l => l.meet law.dupOk law.overOk e) with ⟨hs, hu⟩ | ⟨pre, l, post, rfl, hle, hs, hu⟩
  · refine ⟨log, ?_⟩
    simp only [Layered.mergeStep, hu]
    refine ⟨?_, ?_⟩
    · have := law.record_eq e
      rw [hb] at this
      simp [mixStep, root, hb, hs, this, link]
    · intro l hl
      rcases List.mem_cons.mp hl with rfl | hl
      · exact ⟨rfl, by simp [hkey]⟩
      · exact hn l hl
  · have hback := law.backMerge_eq l e
    simp only [Layered.mergeStep, hu]
    cases hbm : m.backMerge (law.link l) e.level e.strong e.depth e.val with
    | mk link' log' =>
      refine ⟨log ++ log', ?_⟩
      rw [hbm] at hback
      cases hm : l.meet law.dupOk law.overOk e with
      | none =>
        simp only [hm, Option.map_none] at hback ⊢
        subst hback
        simp only [mixStep, root, hb, hs, hbm]
      | some l' =>
        simp only [hm, Option.map_some] at hback ⊢
        subst hback
        refine ⟨?_, law.keepsName_meet hn hle hm⟩
        simp only [mixStep, root, hb, hs, hbm]
        simp

theorem mixItems_eq (es : List (Item Family δ)) (closure : σ) :
    ∀ {links : List (Layered.Link Family δ)}, KeepsName (m := m) links →
      (∀ e ∈ es, (m.name e.level e.val).isSome) → ∀ log, ∃ log',
        m.mixItems finish (law.root links closure log) es =
          match mergeAll law.dupOk law.overOk m.key links es with
          | none => .ret (-1) closure log'
          | some ls => (law.root ls closure log').send finish := by
  induction es with
  | nil => intro links _ _ log; exact ⟨log, rfl⟩
  | cons e es ih =>
    intro links hn he log
    obtain ⟨log', hstep⟩ := law.mixStep_eq hn (he e (by simp)) closure log
    cases hs : Layered.mergeStep law.dupOk law.overOk m.key links e with
    | none =>
      rw [hs] at hstep
      exact ⟨log', by simp only [mixItems, hstep, mergeAll, hs]⟩
    | some ls =>
      rw [hs] at hstep
      obtain ⟨log'', hrun⟩ := ih hstep.2 (fun x hx => he x (by simp [hx])) log'
      exact ⟨log'', by simp only [mixItems, hstep.1, mergeAll, hs, hrun]⟩

/-- The links that the merge ends with, when it is not refused. -/
def links (leaf : Family) : Option (List (Layered.Link Family δ)) :=
  mergeAll law.dupOk law.overOk m.key [] (m.found leaf)

theorem mixConf_named {leaf : Family} (hnames : m.Named leaf) (closure : σ) :
    (m.mixConf finish leaf closure).result =
      match law.links leaf with
      | none => some (-1, closure)
      | some ls => some (finish ls.length (ls.map law.link) closure) := by
  have hnil : KeepsName (m := m) ([] : List (Layered.Link Family δ)) :=
    fun l hl => absurd hl List.not_mem_nil
  obtain ⟨log, h⟩ := law.mixItems_eq finish (m.found leaf) closure hnil
    (fun e he => hnames _ (m.mem_found he).1 _ _ (m.mem_found he).2) []
  have hrun : m.mixConf finish leaf closure =
      m.mixItems finish (law.root [] closure []) (m.found leaf) := mixConf_eq_mixItems ..
  rw [hrun, h, links]
  cases mergeAll law.dupOk law.overOk m.key [] (m.found leaf) <;> rfl

theorem mixConf_eq {leaf : Family} (h : m.Comparable leaf) (closure : σ) :
    (m.mixConf finish leaf closure).result =
      match law.links leaf with
      | none => some (-1, closure)
      | some ls => some (finish ls.length (ls.map law.link) closure) := by
  rcases h with h | h
  · exact law.mixConf_named finish h closure
  · cases hf : m.found leaf with
    | nil =>
      refine law.mixConf_named finish (fun f hfr admin d hd => ?_) closure
      obtain ⟨i, hi, -⟩ := m.exists_found hfr hd
      rw [hf] at hi; cases hi
    | cons e es =>
      rw [hf] at h
      obtain rfl : es = [] := List.eq_nil_of_length_eq_zero (by simpa using h)
      have hlinks : law.links leaf = some [⟨e, e⟩] := by rw [links, hf]; rfl
      have hlink : law.link ⟨e, e⟩ =
          ⟨m.record e.val (m.name e.level e.val), e.level, e.depth, e.strong⟩ := by
        rw [link, ← law.record_eq e]
      rw [mixConf_eq_mixItems, hf, hlinks, m.mixItems_single]
      simp only [List.map_cons, List.map_nil, hlink, List.length_singleton]

def acceptedName (leaf : Family) (k : Option (List UInt8)) : Bool :=
  Layered.accepted law.dupOk law.overOk ((m.found leaf).filter (fun e => m.key e = k))

theorem acceptedName_eq_false {leaf : Family} {k : Option (List UInt8)} :
    law.acceptedName leaf k = false ↔ Layered.mergeClass law.dupOk law.overOk none
      ((m.found leaf).filter (fun e => m.key e = k)) = none := by
  rw [Layered.mergeClass_eq _ _ ((m.found_before leaf).filter _), acceptedName]
  split <;> simp_all

theorem links_isSome {leaf : Family} :
    (∃ ls, law.links leaf = some ls) ↔ ∀ k, law.acceptedName leaf k = true :=
  Layered.mergeAll_isSome _ _ _ (m.found_before leaf)

theorem links_eq_none {leaf : Family} :
    law.links leaf = none ↔ ∃ k, law.acceptedName leaf k = false := by
  rw [← Option.not_isSome_iff_eq_none, Option.isSome_iff_exists, links_isSome]
  simp

end Lawful

/-! ## What the links hold -/

/-- The definitions of a name in the configs of one kind, nearest first. -/
def defined (leaf : Family) (admin : Bool) (k : Option (List UInt8)) : List (Family × δ) :=
  leaf.toRoot.flatMap fun f =>
    ((m.visible leaf admin f).filter fun d => (m.name f d).map CStr.folded = k).map (f, ·)

def names (leaf : Family) : List (Option (List UInt8)) :=
  leaf.toRoot.flatMap fun f =>
    (m.visible leaf true f ++ m.visible leaf false f).map fun d => (m.name f d).map CStr.folded

theorem found_key (leaf : Family) : (m.found leaf).map m.key = m.names leaf := by
  have hkey : m.key = (fun p : Family × δ => (m.name p.1 p.2).map CStr.folded) ∘
      (fun i : Item Family δ => (i.level, i.val)) := rfl
  rw [hkey, ← List.map_map, found, Layered.walk_map, List.map_flatMap, names]
  simp [Function.comp_def]

theorem found_filter (leaf : Family) (k : Option (List UInt8)) :
    (m.found leaf).filter (fun e => m.key e = k) =
      walk (fun f => (m.visible leaf true f).filter fun d => (m.name f d).map CStr.folded = k)
        (fun f => (m.visible leaf false f).filter fun d => (m.name f d).map CStr.folded = k)
        0 leaf.toRoot :=
  Layered.walk_filter (fun f d => decide ((m.name f d).map CStr.folded = k)) _ _

theorem found_filter_strong (leaf : Family) (k : Option (List UInt8)) (admin : Bool) :
    (((m.found leaf).filter (fun e => m.key e = k)).filter (fun i => i.strong == admin)).map
      (fun i => (i.level, i.val)) = m.defined leaf admin k := by
  rw [found_filter, Layered.walk_filter_strong]
  cases admin <;> rfl

/-- The definitions of a name that count: those of the admin configs if there is one, otherwise
those of the normal configs. -/
def deciding (leaf : Family) (k : Option (List UInt8)) : List (Family × δ) :=
  if m.defined leaf true k = [] then m.defined leaf false k else m.defined leaf true k

theorem deciding_eq (leaf : Family) (k : Option (List UInt8)) : m.deciding leaf k =
    (Layered.counting ((m.found leaf).filter (fun e => m.key e = k))).map
      (fun i => (i.level, i.val)) := by
  simp only [deciding, Layered.counting, ← found_filter_strong, List.map_eq_nil_iff]
  split <;> rfl

theorem decisive_found (leaf : Family) (k : Option (List UInt8)) :
    (Layered.decisive ((m.found leaf).filter (fun e => m.key e = k))).map
      (fun i => (i.level, i.val)) = (m.deciding leaf k).head? := by
  rw [deciding_eq, List.head?_map, Layered.decisive_eq_head?]

theorem mem_deciding {leaf : Family} {k : Option (List UInt8)} {c : Item Family δ}
    (hc : Layered.decisive ((m.found leaf).filter (fun e => m.key e = k)) = some c)
    {p : Family × δ} (hp : p ∈ m.deciding leaf k) :
    ∃ e ∈ (m.found leaf).filter (fun e => m.key e = k),
      e.strong = c.strong ∧ (e.level, e.val) = p := by
  rw [deciding_eq] at hp
  obtain ⟨e, he, rfl⟩ := List.mem_map.mp hp
  obtain ⟨hmem, hs⟩ := Layered.mem_counting hc he
  exact ⟨e, hmem, hs, rfl⟩

theorem visible_of_deciding {leaf f : Family} {k : Option (List UInt8)} {d : δ}
    (h : (m.deciding leaf k).head? = some (f, d)) :
    ∃ admin, f ∈ leaf.toRoot ∧ d ∈ m.visible leaf admin f := by
  rw [← decisive_found, Option.map_eq_some_iff] at h
  obtain ⟨c, hc, hfd⟩ := h
  obtain ⟨rfl, rfl⟩ := Prod.mk.inj hfd
  have hfound := List.mem_of_mem_filter (Layered.decisive_mem hc)
  exact ⟨c.strong, m.mem_found hfound⟩

/-- No config defines a name twice. -/
def Distinct (leaf : Family) : Prop := ∀ f ∈ leaf.toRoot, ∀ admin,
  ((m.visible leaf admin f).map fun d => (m.name f d).map CStr.folded).Nodup

instance (leaf : Family) : Decidable (m.Distinct leaf) :=
  inferInstanceAs (Decidable (∀ f ∈ leaf.toRoot, ∀ admin,
    ((m.visible leaf admin f).map fun d => (m.name f d).map CStr.folded).Nodup))

/-- The definitions of a name in one node, when there is one at most. -/
def definedIn (leaf : Family) (k : Option (List UInt8)) (admin : Bool) (f : Family) : Option δ :=
  (m.visible leaf admin f).find? fun d => (m.name f d).map CStr.folded = k

theorem found_filter_of_distinct {leaf : Family} (h : m.Distinct leaf)
    (k : Option (List UInt8)) : (m.found leaf).filter (fun e => m.key e = k) =
      walk (fun f => (m.definedIn leaf k true f).toList)
        (fun f => (m.definedIn leaf k false f).toList) 0 leaf.toRoot := by
  have hone : ∀ f ∈ leaf.toRoot, ∀ admin,
      ((m.visible leaf admin f).filter fun d => (m.name f d).map CStr.folded = k) =
        (m.definedIn leaf k admin f).toList := by
    intro f hf admin
    have := Layered.filter_eq_find?_toList (h f hf admin) k
    simpa only [definedIn] using this
  rw [found_filter]
  exact Layered.walk_congr (fun f hf => hone f hf true) (fun f hf => hone f hf false) 0

namespace Lawful

variable {m} (law : m.Lawful)

theorem acceptedName_of_distinct {leaf : Family} (h : m.Distinct leaf)
    (hover : ∀ a b, law.overOk a b = true) (k : Option (List UInt8)) :
    law.acceptedName leaf k = true := by
  rw [acceptedName, found_filter_of_distinct m h]
  exact Layered.accepted_of_sooner _ _ (Layered.walk_sooner _ 0) hover

/-- What the links of a merge hold: each the decisive definition of its name. -/
structure Holds (leaf : Family) (ls : List (Layered.Link Family δ)) : Prop where
  names : (ls.map (Layered.Link.name m.key)).Perm (m.names leaf).dedup
  first : ∀ l ∈ ls, ((m.found leaf).filter (fun e => m.key e = l.name m.key)).head? = some l.first
  decisive : ∀ l ∈ ls, Layered.decisive
    ((m.found leaf).filter (fun e => m.key e = l.name m.key)) = some l.cur
  key : ∀ l ∈ ls, m.key l.cur = l.name m.key
  value : ∀ l ∈ ls, (m.deciding leaf (l.name m.key)).head? = some (l.cur.level, l.cur.val)

theorem Holds.calls {leaf : Family} {ls ls' : List (Layered.Link Family δ)}
    (h : Holds (m := m) leaf ls) (hperm : ls'.Perm ls) :
    ((ls'.map fun l => (l.cur.val, l.cur.level)).map
      fun p => (m.name p.2 p.1).map CStr.folded).Perm (m.names leaf).dedup ∧
    ∀ p ∈ ls'.map fun l => (l.cur.val, l.cur.level),
      (m.deciding leaf ((m.name p.2 p.1).map CStr.folded)).head? = some (p.2, p.1) := by
  refine ⟨?_, fun p hp => ?_⟩
  · rw [List.map_map]
    have hkeys : ls'.map ((fun p : δ × Family => (m.name p.2 p.1).map CStr.folded) ∘
        fun l => (l.cur.val, l.cur.level)) = ls'.map (Layered.Link.name m.key) :=
      List.map_congr_left fun l hl => h.key l (hperm.mem_iff.mp hl)
    rw [hkeys]
    exact (hperm.map _).trans h.names
  · obtain ⟨l, hl, rfl⟩ := List.mem_map.mp hp
    have hl' := hperm.mem_iff.mp hl
    have hv := h.value l hl'
    rw [← h.key l hl'] at hv
    exact hv

theorem Holds.exists_link {leaf : Family} {ls : List (Layered.Link Family δ)}
    (h : Holds (m := m) leaf ls) {k : Option (List UInt8)} {p : Family × δ}
    (hp : (m.deciding leaf k).head? = some p) : ∃ l ∈ ls, l.name m.key = k := by
  rw [← decisive_found, Option.map_eq_some_iff] at hp
  obtain ⟨c, hc, -⟩ := hp
  obtain ⟨hmem, hk⟩ := List.mem_filter.mp (Layered.decisive_mem hc)
  have hname : k ∈ (m.names leaf).dedup := by
    rw [List.mem_dedup, ← found_key]
    exact List.mem_map.mpr ⟨c, hmem, by simpa using hk⟩
  obtain ⟨l, hl, hlk⟩ := List.mem_map.mp (h.names.mem_iff.mpr hname)
  exact ⟨l, hl, hlk⟩

theorem Holds.filter_calls {leaf : Family} {ls ls' : List (Layered.Link Family δ)}
    (h : Holds (m := m) leaf ls) (hperm : ls'.Perm ls) (k : Option (List UInt8)) :
    ((ls'.map fun l => (l.cur.val, l.cur.level)).filter
      fun p => (m.name p.2 p.1).map CStr.folded = k) =
      ((m.deciding leaf k).head?.map Prod.swap).toList := by
  obtain ⟨hnames, hvalues⟩ := h.calls hperm
  have hnd := hnames.nodup_iff.mpr (List.nodup_dedup _)
  rw [Layered.filter_eq_find?_toList hnd]
  congr 1
  cases hp : (ls'.map fun l => (l.cur.val, l.cur.level)).find?
      fun p => (m.name p.2 p.1).map CStr.folded = k with
  | some p =>
    have hk : (m.name p.2 p.1).map CStr.folded = k := by simpa using List.find?_some hp
    rw [← hk, hvalues p (List.mem_of_find?_eq_some hp)]; rfl
  | none =>
    cases hd : (m.deciding leaf k).head? with
    | none => rfl
    | some q =>
      obtain ⟨l, hl, hlk⟩ := h.exists_link hd
      have hmiss := List.find?_eq_none.mp hp _
        (List.mem_map.mpr ⟨l, hperm.mem_iff.mpr hl, rfl⟩)
      have hkey : (m.name l.cur.level l.cur.val).map CStr.folded = k := (h.key l hl).trans hlk
      simp [hkey] at hmiss

theorem Holds.eq_of_name {leaf : Family} {ls : List (Layered.Link Family δ)}
    (h : Holds (m := m) leaf ls) {l l' : Layered.Link Family δ} (hl : l ∈ ls) (hl' : l' ∈ ls)
    (hname : l.name m.key = l'.name m.key) : l = l' :=
  List.inj_on_of_nodup_map (h.names.nodup_iff.mpr (List.nodup_dedup _)) hl hl' hname

theorem holds_of_links {leaf : Family} {ls : List (Layered.Link Family δ)}
    (h : law.links leaf = some ls) : Holds (m := m) leaf ls := by
  obtain ⟨hnd, hmem, -, hset⟩ :=
    Layered.mergeAll_spec _ _ _ (m.found_before leaf) h
  refine ⟨?_, fun l hl => (Layered.settled_eq_some.mp (hset l hl)).1,
    fun l hl => (Layered.settled_eq_some.mp (hset l hl)).2, fun l hl => ?_, fun l hl => ?_⟩
  · refine (List.perm_ext_iff_of_nodup hnd (List.nodup_dedup _)).mpr fun k => ?_
    rw [List.mem_dedup, ← found_key, hmem]; simp
  · have := Layered.decisive_mem (Layered.settled_eq_some.mp (hset l hl)).2
    simpa using (List.mem_filter.mp this).2
  · rw [← decisive_found, (Layered.settled_eq_some.mp (hset l hl)).2]; rfl

end Lawful

/-! ## Definitions without a name -/

theorem mixStep_fault {merger : MixRoot τ σ} (hne : merger.head ≠ []) {node : Family} {d : δ}
    (hd : m.name node d = none) (admin : Bool) (depth : Nat) :
    m.mixStep merger node admin depth d = .inl .fault := by
  have hsearch : m.search none merger.head = .fault := by
    cases hh : merger.head with
    | nil => exact absurd hh hne
    | cons l ls => cases hl : m.linkName l.held <;> simp [search, hl]
  simp [mixStep, hd, hsearch]

namespace Lawful

variable {m} (law : m.Lawful)

theorem linkName_record (law : m.Lawful) {e : Item Family δ} (he : m.name e.level e.val = none) :
    m.linkName (m.record e.val none) = none := by
  have h := law.linkName_eq ⟨e, e⟩ rfl
  rw [← law.record_eq e, he, show m.key e = none by simp [key, he]] at h
  exact Option.map_eq_none_iff.mp h

/-- The items before the first one without a name. -/
def namedPart (m : Mix δ τ) (leaf : Family) : List (Item Family δ) :=
  (m.found leaf).takeWhile fun e => (m.name e.level e.val).isSome

/-- The merge is refused before it comes to a definition without a name. -/
def RefusedEarly (leaf : Family) : Prop :=
  ∃ k, Layered.accepted law.dupOk law.overOk
    ((namedPart m leaf).filter fun e => m.key e = k) = false

/-- The induction is on the named items: each of them leaves links, with whose name that of `u` is
compared. -/
theorem mixItems_stops (pre : List (Item Family δ)) {u : Item Family δ}
    (hu : m.name u.level u.val = none) (post : List (Item Family δ)) (closure : σ) :
    ∀ {links : List (Layered.Link Family δ)}, KeepsName (m := m) links →
      (links ≠ [] ∨ pre ≠ []) → (∀ e ∈ pre, (m.name e.level e.val).isSome) → ∀ log,
        (m.mixItems finish (law.root links closure log) (pre ++ u :: post)).result =
          if mergeAll law.dupOk law.overOk m.key links pre = none then some (-1, closure)
          else none := by
  induction pre with
  | nil =>
    intro links _ hne _ log
    have hhead : (law.root links closure log).head ≠ [] := by simpa [root] using hne
    simp [mixItems, m.mixStep_fault hhead hu, mergeAll, Outcome.result]
  | cons e pre ih =>
    intro links hn _ hnames log
    obtain ⟨log', hstep⟩ := law.mixStep_eq hn (hnames e (by simp)) closure log
    cases hs : Layered.mergeStep law.dupOk law.overOk m.key links e with
    | none =>
      rw [hs] at hstep
      simp [mixItems, hstep, mergeAll, hs, Outcome.result]
    | some ls =>
      rw [hs] at hstep
      have hrun := ih hstep.2 (.inl (Layered.mergeStep_ne_nil _ _ _ hs))
        (fun x hx => hnames x (by simp [hx])) log'
      simpa only [List.cons_append, mixItems, hstep.1, mergeAll, hs] using hrun

theorem refusedEarly_iff {leaf : Family} : law.RefusedEarly leaf ↔
    mergeAll law.dupOk law.overOk m.key [] (namedPart m leaf) = none := by
  have hbefore : (namedPart m leaf).Pairwise Item.Before :=
    (m.found_before leaf).sublist (List.takeWhile_sublist _)
  have hsome := Layered.mergeAll_isSome law.dupOk law.overOk m.key hbefore
  rw [← Option.not_isSome_iff_eq_none, Option.isSome_iff_exists, hsome, RefusedEarly]
  simp

/-- **A NULL name** is compared, unless the merge is refused before. -/
theorem mixConf_stops {leaf : Family} (h : ¬ m.Comparable leaf) (closure : σ) :
    (m.mixConf finish leaf closure).result =
      if mergeAll law.dupOk law.overOk m.key [] (namedPart m leaf) = none then some (-1, closure)
      else none := by
  have hnamed : ¬ m.Named leaf := fun hn => h (.inl hn)
  have hlen : 2 ≤ (m.found leaf).length := by
    have : ¬ (m.found leaf).length ≤ 1 := fun hl => h (.inr hl)
    omega
  have hnil : KeepsName (m := m) ([] : List (Layered.Link Family δ)) :=
    fun l hl => absurd hl List.not_mem_nil
  have hsplit := List.takeWhile_append_dropWhile
    (p := fun e => (m.name e.level e.val).isSome) (l := m.found leaf)
  have hrun : m.mixConf finish leaf closure =
      m.mixItems finish (law.root [] closure []) (m.found leaf) := mixConf_eq_mixItems ..
  cases hrest : (m.found leaf).dropWhile fun e => (m.name e.level e.val).isSome with
  | nil =>
    refine absurd (fun f hf admin d hd => ?_) hnamed
    obtain ⟨i, hi, rfl, rfl⟩ := m.exists_found hf hd
    exact List.dropWhile_eq_nil_iff.mp hrest i hi
  | cons u post =>
    have hu : m.name u.level u.val = none := by
      have := List.head?_dropWhile_not (fun e => (m.name e.level e.val).isSome) (m.found leaf)
      rw [hrest] at this
      simpa using this
    rw [hrest] at hsplit
    by_cases hpre : namedPart m leaf = []
    · -- `u` comes first: its link is the one that the next name is compared with
      have hfound : m.found leaf = u :: post := by rw [← hsplit, ← namedPart, hpre]; rfl
      cases post with
      | nil => rw [hfound] at hlen; simp at hlen
      | cons v post =>
        let first : MixLink τ :=
          ⟨m.record u.val (m.name u.level u.val), u.level, u.depth, u.strong⟩
        have hstep : m.mixItems finish (law.root [] closure []) (u :: v :: post) =
            m.mixItems finish ⟨1, [first], closure, []⟩ (v :: post) := rfl
        have hsearch : m.search (m.name v.level v.val) [first] = .fault := by
          simp [search, first, hu, law.linkName_record hu]
        rw [hrun, hfound, hstep, hpre]
        simp [mixItems, mixStep, hsearch, mergeAll, Outcome.result]
    · have hpart : ∀ e ∈ namedPart m leaf, (m.name e.level e.val).isSome :=
        fun _ he => List.mem_takeWhile_imp
          (p := fun i : Item Family δ => (m.name i.level i.val).isSome) he
      rw [hrun, ← hsplit]
      exact law.mixItems_stops finish _ hu post closure hnil (.inr hpre)
        hpart []

theorem mixConf_unnamed (law : m.Lawful) {leaf : Family} (h : ¬ m.Comparable leaf) (closure : σ) :
    (m.mixConf finish leaf closure).result = none ∨
    (m.mixConf finish leaf closure).result = some (-1, closure) := by
  rw [law.mixConf_stops finish h]
  split
  · exact .inr rfl
  · exact .inl rfl

end Lawful

end Mix

/-! ## Recording calls -/

/-- The callback that accepts every definition and records it. -/
def recordCall {δ : Type} (calls : List (δ × Family)) (d : δ) (node : Family) (_ _ : Nat) :
    Int × List (δ × Family) := (0, calls ++ [(d, node)])

theorem deliver_recordCall {δ : Type} (count i : Nat) (ps : List (δ × Family)) :
    Layered.deliver (fun c (p : δ × Family) index count => recordCall c p.1 p.2 index count) count i
      ps [] = (0, ps) := by
  have hfold : ∀ acc : List (δ × Family),
      ps.foldl (fun acc p => acc ++ [(p.1, p.2)]) acc = acc ++ ps := by
    induction ps with
    | nil => simp
    | cons p ps ih => simp [ih]
  refine (Layered.deliver_foldl (fun acc (p : δ × Family) => acc ++ [(p.1, p.2)]) ps count i
    []).trans ?_
  rw [hfold, List.nil_append]

end Conf
end RedPak
