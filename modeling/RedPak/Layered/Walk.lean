import Mathlib.Data.List.Basic

/-!
# Layered.Walk

A chain of levels, nearest first, where every level holds two lists of definitions: the strong
ones, which take precedence over the weak ones. `walk` visits the chain level by level, the strong
list of a level before its weak list, and records with each definition where it was found.

* `Item.Before`: the order in which the walk meets two items (`walk_before`).
* `Item.Sooner`: the same for items that are not in one list of one level
  (`walk_sooner`, when no list holds two definitions).
* `decisive`: the nearest strong item, otherwise the nearest weak one.
-/

namespace Layered

/-- A definition with the place where the walk met it. -/
structure Item (ν α : Type*) where
  depth : Nat
  strong : Bool
  level : ν
  val : α

variable {ν α : Type*}

/-- `i` is not met after `j`: levels come in order, and strong items first in a level. -/
def Item.Before (i j : Item ν α) : Prop :=
  i.depth < j.depth ∨ i.depth = j.depth ∧ (j.strong = true → i.strong = true)

/-- `i` is met in a list that comes before the list of `j`. -/
def Item.Sooner (i j : Item ν α) : Prop :=
  i.depth < j.depth ∨ i.depth = j.depth ∧ i.strong = true ∧ j.strong = false

def items (d : Nat) (strong : Bool) (n : ν) (vals : List α) : List (Item ν α) :=
  vals.map (⟨d, strong, n, ·⟩)

@[simp] theorem items_nil (d : Nat) (strong : Bool) (n : ν) :
    items d strong n ([] : List α) = [] := rfl

@[simp] theorem items_cons (d : Nat) (strong : Bool) (n : ν) (a : α) (as : List α) :
    items d strong n (a :: as) = ⟨d, strong, n, a⟩ :: items d strong n as := rfl

theorem mem_items {d : Nat} {strong : Bool} {n : ν} {vals : List α} {i : Item ν α} :
    i ∈ items d strong n vals ↔
      i.depth = d ∧ i.strong = strong ∧ i.level = n ∧ i.val ∈ vals := by
  obtain ⟨d', s', n', a⟩ := i
  simp only [items, List.mem_map, Item.mk.injEq]
  constructor
  · rintro ⟨x, hx, rfl, rfl, rfl, rfl⟩; exact ⟨rfl, rfl, rfl, hx⟩
  · rintro ⟨rfl, rfl, rfl, hx⟩; exact ⟨a, hx, rfl, rfl, rfl, rfl⟩

/-- All items of the levels `ns`, the first of which is at depth `d`. -/
def walk (s w : ν → List α) : Nat → List ν → List (Item ν α)
  | _, [] => []
  | d, n :: ns => items d true n (s n) ++ (items d false n (w n) ++ walk s w (d + 1) ns)

variable {s w : ν → List α}

theorem mem_walk {i : Item ν α} : ∀ {ns : List ν} {d : Nat}, i ∈ walk s w d ns ↔
    d ≤ i.depth ∧ ns[i.depth - d]? = some i.level ∧
      i.val ∈ (if i.strong then s i.level else w i.level) := by
  intro ns
  induction ns with
  | nil => intro d; simp [walk]
  | cons n ns ih =>
    intro d
    simp only [walk, List.mem_append, mem_items, ih]
    constructor
    · rintro (⟨rfl, hs, rfl, hv⟩ | ⟨rfl, hs, rfl, hv⟩ | ⟨hd, hn, hv⟩)
      · simp [hs, hv]
      · simp [hs, hv]
      · refine ⟨by omega, ?_, hv⟩
        have e : i.depth - d = (i.depth - (d + 1)) + 1 := by omega
        rw [e, List.getElem?_cons_succ]; exact hn
    · rintro ⟨hd, hn, hv⟩
      rcases Nat.eq_or_lt_of_le hd with rfl | hlt
      · simp only [Nat.sub_self, List.getElem?_cons_zero, Option.some.injEq] at hn
        subst hn
        cases hs : i.strong <;> simp only [hs, if_true, if_false, Bool.false_eq_true] at hv
        · exact .inr (.inl ⟨rfl, rfl, rfl, hv⟩)
        · exact .inl ⟨rfl, rfl, rfl, hv⟩
      · refine .inr (.inr ⟨hlt, ?_, hv⟩)
        have e : i.depth - d = (i.depth - (d + 1)) + 1 := by omega
        rw [e, List.getElem?_cons_succ] at hn; exact hn

theorem le_depth_of_mem_walk {i : Item ν α} {ns : List ν} {d : Nat} (h : i ∈ walk s w d ns) :
    d ≤ i.depth := (mem_walk.mp h).1

theorem walk_before (ns : List ν) : ∀ d, (walk s w d ns).Pairwise Item.Before := by
  induction ns with
  | nil => intro d; exact .nil
  | cons n ns ih =>
    intro d
    have hsame : ∀ strong, ∀ l : List α, (items d strong n l).Pairwise Item.Before := by
      intro strong l
      refine List.pairwise_of_forall_mem_list fun i hi j hj => ?_
      rw [mem_items] at hi hj
      exact .inr ⟨by rw [hi.1, hj.1], fun _ => by rw [hi.2.1, ← hj.2.1]; assumption⟩
    refine List.pairwise_append.mpr ⟨hsame _ _, List.pairwise_append.mpr
      ⟨hsame _ _, ih (d + 1), fun i hi j hj => ?_⟩, fun i hi j hj => ?_⟩
    · have := le_depth_of_mem_walk hj
      rw [mem_items] at hi
      exact .inl (by omega)
    · rw [mem_items] at hi
      rcases List.mem_append.mp hj with hj | hj
      · rw [mem_items] at hj
        exact .inr ⟨by rw [hi.1, hj.1], fun _ => hi.2.1⟩
      · have := le_depth_of_mem_walk hj
        exact .inl (by omega)

theorem walk_sooner {s w : ν → Option α} (ns : List ν) :
    ∀ d, (walk (fun n => (s n).toList) (fun n => (w n).toList) d ns).Pairwise Item.Sooner := by
  induction ns with
  | nil => intro d; exact .nil
  | cons n ns ih =>
    intro d
    have hone : ∀ strong, ∀ o : Option α, (items d strong n o.toList).Pairwise Item.Sooner := by
      intro strong o; cases o <;> simp
    refine List.pairwise_append.mpr ⟨hone _ _, List.pairwise_append.mpr
      ⟨hone _ _, ih (d + 1), fun i hi j hj => ?_⟩, fun i hi j hj => ?_⟩
    · have := le_depth_of_mem_walk hj
      rw [mem_items] at hi
      exact .inl (by omega)
    · rw [mem_items] at hi
      rcases List.mem_append.mp hj with hj | hj
      · rw [mem_items] at hj
        exact .inr ⟨by rw [hi.1, hj.1], hi.2.1, hj.2.1⟩
      · have := le_depth_of_mem_walk hj
        exact .inl (by omega)

theorem filter_eq_find?_toList {κ : Type*} [DecidableEq κ] {key : α → κ} {l : List α}
    (h : (l.map key).Nodup) (k : κ) :
    l.filter (fun a => key a = k) = (l.find? (fun a => key a = k)).toList := by
  induction l with
  | nil => rfl
  | cons a l ih =>
    obtain ⟨ha, hl⟩ := List.nodup_cons.mp h
    by_cases hk : key a = k
    · have hnone : ∀ b ∈ l, ¬ key b = k := fun b hb hbk =>
        ha (List.mem_map.mpr ⟨b, hb, hbk.trans hk.symm⟩)
      simpa [hk] using hnone
    · simpa [hk] using ih hl

theorem walk_filter (p : ν → α → Bool) (ns : List ν) : ∀ d,
    (walk s w d ns).filter (fun i => p i.level i.val) =
      walk (fun n => (s n).filter (p n)) (fun n => (w n).filter (p n)) d ns := by
  have hitems : ∀ d strong n (l : List α), (items d strong n l).filter (fun i => p i.level i.val) =
      items d strong n (l.filter (p n)) := by
    intro d strong n l
    simp only [items, List.filter_map]; rfl
  induction ns with
  | nil => intro d; rfl
  | cons n ns ih => intro d; simp only [walk, List.filter_append, hitems, ih]

theorem walk_congr {s' w' : ν → List α} {ns : List ν} (hs : ∀ n ∈ ns, s n = s' n)
    (hw : ∀ n ∈ ns, w n = w' n) : ∀ d, walk s w d ns = walk s' w' d ns := by
  induction ns with
  | nil => intro d; rfl
  | cons n ns ih =>
    intro d
    simp only [walk]
    rw [hs n (by simp), hw n (by simp), ih (fun m hm => hs m (by simp [hm]))
      (fun m hm => hw m (by simp [hm]))]

theorem walk_filter_strong (b : Bool) (ns : List ν) : ∀ d,
    ((walk s w d ns).filter (fun i => i.strong == b)).map (fun i => (i.level, i.val)) =
      ns.flatMap (fun n => (if b then s n else w n).map (n, ·)) := by
  induction ns with
  | nil => intro d; rfl
  | cons n ns ih =>
    intro d
    simp only [walk, List.filter_append, List.map_append, ih, List.flatMap_cons]
    cases b <;> simp [items, List.filter_map, Function.comp_def]

theorem walk_map (ns : List ν) : ∀ d, (walk s w d ns).map (fun i => (i.level, i.val)) =
    ns.flatMap fun n => (s n ++ w n).map (n, ·) := by
  induction ns with
  | nil => intro d; rfl
  | cons n ns ih => intro d; simp [walk, items, ih, Function.comp_def]

/-- The item with a label of its level in the place of the level. -/
def Item.relabel {μ : Type*} (g : ν → μ) (i : Item ν α) : Item μ α :=
  ⟨i.depth, i.strong, g i.level, i.val⟩

theorem walk_relabel {μ : Type*} (g : ν → μ) {s' w' : μ → List α} (hs : ∀ n, s n = s' (g n))
    (hw : ∀ n, w n = w' (g n)) (ns : List ν) : ∀ d,
    (walk s w d ns).map (Item.relabel g) = walk s' w' d (ns.map g) := by
  have hitems : ∀ d strong n (l : List α), (items d strong n l).map (Item.relabel g) =
      items d strong (g n) l := by
    intro d strong n l
    simp only [items, List.map_map]; rfl
  induction ns with
  | nil => intro d; rfl
  | cons n ns ih =>
    intro d
    simp only [walk, List.map_append, List.map_cons, hitems, ih, hs, hw]

/-! ## The decisive item -/

/-- The nearest strong item, otherwise the nearest weak one. -/
def decisive (es : List (Item ν α)) : Option (Item ν α) :=
  (es.filter (fun i => i.strong == true) ++ es.filter (fun i => i.strong == false)).head?

@[simp] theorem decisive_nil : decisive ([] : List (Item ν α)) = none := rfl

@[simp] theorem decisive_singleton (e : Item ν α) : decisive [e] = some e := by
  cases h : e.strong <;> simp [decisive, h]

theorem decisive_eq_none {es : List (Item ν α)} : decisive es = none ↔ es = [] := by
  constructor
  · intro h
    cases es with
    | nil => rfl
    | cons e es => cases he : e.strong <;> simp [decisive, he] at h
  · rintro rfl; rfl

theorem decisive_mem {es : List (Item ν α)} {c : Item ν α} (h : decisive es = some c) : c ∈ es := by
  have := List.mem_of_mem_head? h
  simp only [List.mem_append, List.mem_filter] at this
  rcases this with h | h <;> exact h.1

theorem decisive_relabel {μ : Type*} (g : ν → μ) (es : List (Item ν α)) :
    decisive (es.map (Item.relabel g)) = (decisive es).map (Item.relabel g) := by
  have hkind : ∀ b, (es.map (Item.relabel g)).filter (fun i => i.strong == b) =
      (es.filter (fun i => i.strong == b)).map (Item.relabel g) :=
    fun b => List.filter_map
  rw [decisive, hkind, hkind, ← List.map_append, List.head?_map]; rfl

theorem strong_of_decisive {es : List (Item ν α)} {c i : Item ν α} (h : decisive es = some c)
    (hi : i ∈ es) (hs : i.strong = true) : c.strong = true := by
  have hmem : i ∈ es.filter (fun i => i.strong == true) := List.mem_filter.mpr ⟨hi, by simp [hs]⟩
  cases hst : es.filter (fun i => i.strong == true) with
  | nil => rw [hst] at hmem; cases hmem
  | cons x xs =>
    simp only [decisive, hst, List.cons_append, List.head?_cons, Option.some.injEq] at h
    subst h
    have : x ∈ es.filter (fun i => i.strong == true) := by rw [hst]; simp
    simpa using List.of_mem_filter this

/-- The items that count: the strong ones if there is one, otherwise the weak ones. -/
def counting (es : List (Item ν α)) : List (Item ν α) :=
  if es.filter (fun i => i.strong == true) = [] then es.filter (fun i => i.strong == false)
  else es.filter (fun i => i.strong == true)

theorem decisive_eq_head? (es : List (Item ν α)) : decisive es = (counting es).head? := by
  unfold decisive counting
  cases es.filter (fun i => i.strong == true) with
  | nil => simp
  | cons x xs => simp

theorem mem_counting {es : List (Item ν α)} {c e : Item ν α} (hc : decisive es = some c)
    (he : e ∈ counting es) : e ∈ es ∧ e.strong = c.strong := by
  have hcc : c ∈ counting es := List.mem_of_mem_head? (decisive_eq_head? es ▸ hc)
  unfold counting at he hcc
  split at he
  · rename_i hnil
    rw [if_pos hnil] at hcc
    obtain ⟨hmem, hs⟩ := List.mem_filter.mp he
    have hcs := (List.mem_filter.mp hcc).2
    rw [beq_iff_eq] at hs hcs
    exact ⟨hmem, hs.trans hcs.symm⟩
  · rename_i hnil
    rw [if_neg hnil] at hcc
    obtain ⟨hmem, hs⟩ := List.mem_filter.mp he
    have hcs := (List.mem_filter.mp hcc).2
    rw [beq_iff_eq] at hs hcs
    exact ⟨hmem, hs.trans hcs.symm⟩

/-- What becomes of the decisive item when one more item is met. -/
def supersede (c e : Item ν α) : Item ν α := if e.strong && !c.strong then e else c

theorem decisive_append_singleton {es : List (Item ν α)} {c : Item ν α}
    (h : decisive es = some c) (e : Item ν α) : decisive (es ++ [e]) = some (supersede c e) := by
  simp only [decisive, List.filter_append] at h ⊢
  cases hst : es.filter (fun i => i.strong == true) with
  | nil =>
    rw [hst] at h
    have hc : c.strong = false := by
      simpa using List.of_mem_filter (List.mem_of_mem_head? h)
    cases hwk : es.filter (fun i => i.strong == false) with
    | nil => rw [hwk] at h; cases h
    | cons x xs =>
      simp only [hwk, List.nil_append, List.head?_cons, Option.some.injEq] at h
      subst h
      cases he : e.strong <;> simp [supersede, he, hc]
  | cons x xs =>
    have hx : x.strong = true := by
      have : x ∈ es.filter (fun i => i.strong == true) := by rw [hst]; simp
      simpa using List.of_mem_filter this
    simp only [hst, List.cons_append, List.head?_cons, Option.some.injEq] at h
    subst h
    simp [supersede, hx]

end Layered
