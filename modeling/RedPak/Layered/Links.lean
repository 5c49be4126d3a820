import RedPak.Layered.Merge
import Mathlib.Data.List.Nodup

/-!
# Layered.Links

Merging the items of all names in one walk: a list of links, one for each name, searched by name.
A new name puts a link in front, an item of a known name changes the link in place.

* `updateLinks`: the search with the update in place.
* `mergeStep`, `mergeAll`: one item, and the run.
* `mergeAll_find`, `mergeAll_none`: the names do not see each other. Every link is what
  `mergeClass` makes of the items of its name, and the run is refused exactly when the run of one
  name is.
* `mergeAll_spec`: what an accepted run from no link ends with.
-/

namespace Layered

/-- The outcome of searching a list of links for one to change. -/
inductive Update (β : Type*) where
  | absent
  | refused
  | updated (links : List β)

def Update.cons {β : Type*} (l : β) : Update β → Update β
  | .updated ls => .updated (l :: ls)
  | u => u

/-- Changes the first link that satisfies `hit`. -/
def updateLinks {β : Type*} (hit : β → Bool) (f : β → Option β) : List β → Update β
  | [] => .absent
  | l :: ls =>
    if hit l then
      match f l with
      | some l' => .updated (l' :: ls)
      | none => .refused
    else (updateLinks hit f ls).cons l

theorem updateLinks_cases {β : Type*} (hit : β → Bool) (f : β → Option β) (ls : List β) :
    (updateLinks hit f ls = .absent ∧ ls.find? hit = none) ∨
    (∃ l, ls.find? hit = some l ∧ f l = none ∧ updateLinks hit f ls = .refused) ∨
    (∃ pre l post l', ls = pre ++ l :: post ∧ (∀ x ∈ pre, hit x = false) ∧ hit l = true ∧
      f l = some l' ∧ updateLinks hit f ls = .updated (pre ++ l' :: post)) := by
  induction ls with
  | nil => exact .inl ⟨rfl, rfl⟩
  | cons x ls ih =>
    cases hx : hit x
    · rcases ih with ⟨h, hf⟩ | ⟨l, hf, hl, h⟩ | ⟨pre, l, post, l', rfl, hpre, hl, hl', h⟩
      · exact .inl ⟨by simp [updateLinks, hx, h, Update.cons], by simp [hx, hf]⟩
      · exact .inr (.inl ⟨l, by simp [hx, hf], hl, by simp [updateLinks, hx, h, Update.cons]⟩)
      · exact .inr (.inr ⟨x :: pre, l, post, l', rfl, by simpa [hx] using hpre, hl, hl',
          by simp [updateLinks, hx, h, Update.cons]⟩)
    · cases hl : f x with
      | none => exact .inr (.inl ⟨x, by simp [hx], hl, by simp [updateLinks, hx, hl]⟩)
      | some l' =>
        exact .inr (.inr ⟨[], x, ls, l', rfl, by simp, hx, hl, by simp [updateLinks, hx, hl]⟩)

variable {ν α κ : Type*}

/-- The name of a link is the name of its first item. -/
def Link.name (key : Item ν α → κ) (l : Link ν α) : κ := key l.first

theorem Link.meet_name {dupOk overOk : α → α → Bool} (key : Item ν α → κ) {l l' : Link ν α}
    {e : Item ν α} (h : l.meet dupOk overOk e = some l') : l'.name key = l.name key := by
  rw [name, name, (Link.meet_cases dupOk overOk h).1]

section MergeAll

variable [DecidableEq κ] (dupOk overOk : α → α → Bool) (key : Item ν α → κ)

def mergeStep (links : List (Link ν α)) (e : Item ν α) : Option (List (Link ν α)) :=
  match updateLinks (fun l => l.name key = key e) (fun l => l.meet dupOk overOk e) links with
  | .absent => some (⟨e, e⟩ :: links)
  | .refused => none
  | .updated ls => some ls

def mergeAll (links : List (Link ν α)) : List (Item ν α) → Option (List (Link ν α))
  | [] => some links
  | e :: es =>
    match mergeStep dupOk overOk key links e with
    | none => none
    | some ls => mergeAll ls es

theorem mergeStep_ne_nil {links ls : List (Link ν α)} {e : Item ν α}
    (h : mergeStep dupOk overOk key links e = some ls) : ls ≠ [] := by
  unfold mergeStep at h
  rcases updateLinks_cases (fun l : Link ν α => decide (l.name key = key e))
      (fun l => l.meet dupOk overOk e) links with
    ⟨hu, -⟩ | ⟨l, -, -, hu⟩ | ⟨pre, l, post, l', -, -, -, -, hu⟩
  · rw [hu, Option.some.injEq] at h
    exact h ▸ List.cons_ne_nil _ _
  · rw [hu] at h
    cases h
  · rw [hu, Option.some.injEq] at h
    exact h ▸ List.append_ne_nil_of_right_ne_nil _ (List.cons_ne_nil _ _)

theorem mergeAll_of_nodup (es : List (Item ν α)) : ∀ links : List (Link ν α),
    (es.map key).Nodup → (∀ l ∈ links, ∀ e ∈ es, l.name key ≠ key e) →
      mergeAll dupOk overOk key links es = some ((es.map fun e => ⟨e, e⟩).reverse ++ links) := by
  induction es with
  | nil => intro links _ _; rfl
  | cons e es ih =>
    intro links hnd hne
    obtain ⟨he, hes⟩ := List.nodup_cons.mp hnd
    have hstep : mergeStep dupOk overOk key links e = some (⟨e, e⟩ :: links) := by
      have hmiss : links.find? (fun l => decide (l.name key = key e)) = none := by
        rw [List.find?_eq_none]
        intro l hl hhit
        exact hne l hl e List.mem_cons_self (of_decide_eq_true hhit)
      rcases updateLinks_cases (fun l : Link ν α => decide (l.name key = key e))
          (fun l => l.meet dupOk overOk e) links with
        ⟨hu, -⟩ | ⟨l, hfind, -⟩ | ⟨pre, l, post, l', rfl, -, hhit, -⟩
      · rw [mergeStep, hu]
      · rw [hmiss] at hfind
        cases hfind
      · exact absurd (of_decide_eq_true hhit) (hne l (by simp) e List.mem_cons_self)
    rw [mergeAll, hstep]
    refine (ih _ hes fun l hl e' he' => ?_).trans ?_
    · rcases List.mem_cons.mp hl with rfl | hl
      · exact fun heq => he (List.mem_map.mpr ⟨e', he', heq.symm⟩)
      · exact hne l hl e' (List.mem_cons_of_mem _ he')
    · simp

def findLink (k : κ) (links : List (Link ν α)) : Option (Link ν α) :=
  links.find? (fun l => l.name key = k)

theorem findLink_name {k : κ} {links : List (Link ν α)} {l : Link ν α}
    (h : findLink key k links = some l) : l.name key = k := by
  simpa using List.find?_some h

theorem findLink_cons (k : κ) (l : Link ν α) (links : List (Link ν α)) :
    findLink key k (l :: links) = if l.name key = k then some l else findLink key k links := by
  by_cases h : l.name key = k <;> simp [findLink, h]

theorem findLink_append_cons {k : κ} {pre post : List (Link ν α)} {l : Link ν α}
    (hpre : ∀ x ∈ pre, x.name key ≠ l.name key) :
    findLink key k (pre ++ l :: post) =
      if l.name key = k then some l else findLink key k (pre ++ post) := by
  induction pre with
  | nil => exact findLink_cons key k l post
  | cons x pre ih =>
    have hx : x.name key ≠ l.name key := hpre x (by simp)
    simp only [List.cons_append, findLink_cons, ih fun y hy => hpre y (by simp [hy])]
    by_cases hk : l.name key = k
    · rw [hk] at hx; simp [hk, hx]
    · simp [hk]

/-- One item against the link of its name. -/
def meetLink : Option (Link ν α) → Item ν α → Option (Link ν α)
  | none, e => some ⟨e, e⟩
  | some l, e => l.meet dupOk overOk e

theorem meetLink_cur {l? : Option (Link ν α)} {e : Item ν α} {l' : Link ν α}
    (h : meetLink dupOk overOk l? e = some l') : l'.cur = e ∨ ∃ l ∈ l?, l'.cur = l.cur := by
  cases l? with
  | none => cases h; exact .inl rfl
  | some l =>
    rcases (Link.meet_cases dupOk overOk h).2 with hcur | hcur
    · exact .inr ⟨l, rfl, hcur⟩
    · exact .inl hcur

theorem mergeClass_cons (l? : Option (Link ν α)) (e : Item ν α) (es : List (Item ν α)) :
    mergeClass dupOk overOk l? (e :: es) =
      match meetLink dupOk overOk l? e with
      | none => none
      | some l => mergeClass dupOk overOk (some l) es := by
  cases l? <;> rfl

theorem mergeStep_cases (links : List (Link ν α)) (e : Item ν α) :
    (meetLink dupOk overOk (findLink key (key e) links) e = none ∧
      mergeStep dupOk overOk key links e = none) ∨
    ∃ l ls, meetLink dupOk overOk (findLink key (key e) links) e = some l ∧
      mergeStep dupOk overOk key links e = some ls ∧
      (∀ k, findLink key k ls = if key e = k then some l else findLink key k links) ∧
      ls.map (Link.name key) = (if (findLink key (key e) links).isSome then [] else [key e]) ++
        links.map (Link.name key) := by
  unfold mergeStep
  rcases updateLinks_cases (fun l => decide (l.name key = key e))
      (fun l => l.meet dupOk overOk e) links with
    ⟨h, hf⟩ | ⟨l, hf, hl, h⟩ | ⟨pre, l, post, l', rfl, hpre, hit, hl, h⟩
  · have hf' : findLink key (key e) links = none := hf
    refine .inr ⟨⟨e, e⟩, ⟨e, e⟩ :: links, by simp [hf', meetLink], by rw [h], fun k => ?_,
      by simp [hf', Link.name]⟩
    rw [findLink_cons]; rfl
  · have hf' : findLink key (key e) links = some l := hf
    exact .inl ⟨by simp [hf', meetLink, hl], by rw [h]⟩
  · have hname : l.name key = key e := by simpa using hit
    have hname' : l'.name key = key e := (Link.meet_name key hl).trans hname
    have hpre' : ∀ x ∈ pre, x.name key ≠ l.name key := by
      intro x hx; rw [hname]; simpa using hpre x hx
    have hpre'' : ∀ x ∈ pre, x.name key ≠ l'.name key := by rw [hname', ← hname]; exact hpre'
    have hf' : findLink key (key e) (pre ++ l :: post) = some l := by
      rw [findLink_append_cons key hpre', if_pos hname]
    refine .inr ⟨l', pre ++ l' :: post, by simp [hf', meetLink, hl], by rw [h], fun k => ?_,
      by simp [hf', hname, hname']⟩
    rw [findLink_append_cons key hpre'', findLink_append_cons key hpre', hname, hname']
    split <;> rfl

/-- The names do not see each other: the link of a name is what its own items make of it. -/
theorem mergeAll_find {es : List (Item ν α)} {links ls : List (Link ν α)}
    (h : mergeAll dupOk overOk key links es = some ls) (k : κ) :
    mergeClass dupOk overOk (findLink key k links) (es.filter (fun e => key e = k)) =
      some (findLink key k ls) := by
  induction es generalizing links with
  | nil => cases h; simp
  | cons e es ih =>
    rcases mergeStep_cases dupOk overOk key links e with ⟨-, hn⟩ | ⟨l, ls', hl, hs, hfind, -⟩
    · simp [mergeAll, hn] at h
    · simp only [mergeAll, hs] at h
      have := ih h
      rw [hfind] at this
      by_cases hk : key e = k
      · subst hk
        simp only [List.filter_cons, decide_true, if_true, mergeClass_cons, hl]
        simpa using this
      · simpa [List.filter_cons, hk] using this

/-- The run is refused exactly when the run of one name is. -/
theorem mergeAll_none (es : List (Item ν α)) (links : List (Link ν α)) :
    mergeAll dupOk overOk key links es = none ↔
      ∃ k, mergeClass dupOk overOk (findLink key k links) (es.filter (fun e => key e = k)) =
        none := by
  constructor
  · intro h
    induction es generalizing links with
    | nil => cases h
    | cons e es ih =>
      rcases mergeStep_cases dupOk overOk key links e with ⟨hl, -⟩ | ⟨l, ls, hl, hs, hfind, -⟩
      · exact ⟨key e, by simp [mergeClass_cons, hl]⟩
      · simp only [mergeAll, hs] at h
        obtain ⟨k, hk⟩ := ih ls h
        refine ⟨k, ?_⟩
        rw [hfind] at hk
        by_cases he : key e = k
        · subst he
          simp only [List.filter_cons, decide_true, if_true, mergeClass_cons, hl]
          simpa using hk
        · simpa [List.filter_cons, he] using hk
  · rintro ⟨k, hk⟩
    cases h : mergeAll dupOk overOk key links es with
    | none => rfl
    | some ls => rw [mergeAll_find dupOk overOk key h k] at hk; cases hk

theorem mergeAll_names {es : List (Item ν α)} {links ls : List (Link ν α)}
    (h : mergeAll dupOk overOk key links es = some ls)
    (hn : (links.map (Link.name key)).Nodup) :
    (ls.map (Link.name key)).Nodup ∧ ∀ k, k ∈ ls.map (Link.name key) ↔
      k ∈ links.map (Link.name key) ∨ ∃ e ∈ es, key e = k := by
  induction es generalizing links with
  | nil => cases h; simpa using hn
  | cons e es ih =>
    rcases mergeStep_cases dupOk overOk key links e with ⟨-, hs⟩ | ⟨l, ls', -, hs, -, hnames⟩
    · simp [mergeAll, hs] at h
    · simp only [mergeAll, hs] at h
      have hmem : (findLink key (key e) links).isSome = true ↔
          key e ∈ links.map (Link.name key) := by
        simp [findLink, List.find?_isSome]
      have hn' : (ls'.map (Link.name key)).Nodup := by
        rw [hnames]
        split
        · exact hn
        · rename_i hne
          exact List.nodup_cons.mpr ⟨fun hm => hne (hmem.mpr hm), hn⟩
      obtain ⟨hnd, hk⟩ := ih h hn'
      refine ⟨hnd, fun k => ?_⟩
      rw [hk, hnames]
      split
      · rename_i hsome
        have hin := hmem.mp hsome
        simp only [List.nil_append, List.mem_cons, exists_eq_or_imp]
        constructor
        · rintro (hl | hr)
          · exact .inl hl
          · exact .inr (.inr hr)
        · rintro (hl | rfl | hr)
          · exact .inl hl
          · exact .inl hin
          · exact .inr hr
      · simp only [List.singleton_append, List.mem_cons, exists_eq_or_imp, eq_comm (a := k)]
        tauto

theorem mergeAll_spec {es : List (Item ν α)} {ls : List (Link ν α)}
    (hb : es.Pairwise Item.Before) (h : mergeAll dupOk overOk key [] es = some ls) :
    (ls.map (Link.name key)).Nodup ∧
    (∀ k, k ∈ ls.map (Link.name key) ↔ ∃ e ∈ es, key e = k) ∧
    (∀ k, accepted dupOk overOk (es.filter (fun e => key e = k)) = true) ∧
    ∀ l ∈ ls, settled (es.filter (fun e => key e = l.name key)) = some l := by
  obtain ⟨hnd, hnames⟩ := mergeAll_names dupOk overOk key h List.nodup_nil
  have hclass : ∀ k, accepted dupOk overOk (es.filter (fun e => key e = k)) = true ∧
      settled (es.filter (fun e => key e = k)) = findLink key k ls := by
    intro k
    have := mergeAll_find dupOk overOk key h k
    rw [show findLink key k ([] : List (Link ν α)) = none from rfl,
      mergeClass_eq _ _ (hb.filter _)] at this
    split at this
    · rename_i hacc; exact ⟨hacc, by simpa using this⟩
    · cases this
  refine ⟨hnd, by simpa using hnames, fun k => (hclass k).1, fun l hl => ?_⟩
  rw [(hclass _).2]
  -- the names are distinct, so the search for the name of `l` stops at `l`
  cases hf : findLink key (l.name key) ls with
  | none =>
    have := List.find?_eq_none.mp hf l hl
    simp at this
  | some l' =>
    have hl' : l' ∈ ls := List.mem_of_find?_eq_some hf
    exact congrArg some (List.inj_on_of_nodup_map hnd hl' hl (findLink_name key hf))

theorem mergeAll_isSome {es : List (Item ν α)} (hb : es.Pairwise Item.Before) :
    (∃ ls, mergeAll dupOk overOk key [] es = some ls) ↔
      ∀ k, accepted dupOk overOk (es.filter (fun e => key e = k)) = true := by
  have hnone := mergeAll_none dupOk overOk key es []
  have hclass : ∀ k, mergeClass dupOk overOk (findLink key k ([] : List (Link ν α)))
      (es.filter (fun e => key e = k)) = none ↔
      accepted dupOk overOk (es.filter (fun e => key e = k)) = false := by
    intro k
    rw [show findLink key k ([] : List (Link ν α)) = none from rfl,
      mergeClass_eq _ _ (hb.filter _)]
    cases accepted dupOk overOk (es.filter (fun e => key e = k)) <;> simp
  simp only [hclass] at hnone
  rw [← Option.isSome_iff_exists, Option.isSome_iff_ne_none, ne_eq, hnone]
  simp

end MergeAll

end Layered
