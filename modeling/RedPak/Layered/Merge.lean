import RedPak.Layered.Walk
import Mathlib.Data.List.Induction

/-!
# Layered.Merge

Merging the items of one name while walking: the first item met is recorded, and every later item
either leaves the record alone, replaces it or is refused.

* `meet`: one more item against the recorded one. `dupOk` decides for two definitions of one list,
  `overOk` for two definitions of one kind at different levels.
* `mergeClass`: the whole run.
* `mergeClass_eq`: the run accepts exactly when every item agrees with the item that is decisive
  among those before it (`accepted`), and ends with the first and the decisive item (`settled`).
-/

namespace Layered

variable {ν α : Type*}

/-- What is recorded for a name: the first item met and the item that counts at present. -/
structure Link (ν α : Type*) where
  first : Item ν α
  cur : Item ν α

section Meet

variable (dupOk overOk : α → α → Bool)

/-- The item that counts after `e` is met while `cur` counts; `none` when `e` is refused. -/
def meet (cur e : Item ν α) : Option (Item ν α) :=
  if cur.depth = e.depth then
    if cur.strong = e.strong then
      if dupOk cur.val e.val then some cur else none
    else some cur
  else if e.strong then
    if cur.strong then
      if overOk cur.val e.val then some cur else none
    else some e
  else if cur.strong then some cur
  else if overOk cur.val e.val then some cur else none

/-- Two items of one kind have to agree. -/
def agrees (cur e : Item ν α) : Bool :=
  if cur.strong = e.strong then
    if cur.depth = e.depth then dupOk cur.val e.val else overOk cur.val e.val
  else true

theorem meet_eq {cur e : Item ν α} (h : cur.Before e) :
    meet dupOk overOk cur e =
      if agrees dupOk overOk cur e then some (supersede cur e) else none := by
  unfold meet agrees supersede
  rcases h with h | ⟨h, hs⟩
  · have hne : cur.depth ≠ e.depth := Nat.ne_of_lt h
    cases hc : cur.strong <;> cases he : e.strong <;> simp [hne]
  · cases hc : cur.strong <;> cases he : e.strong <;> simp_all

def Link.meet (l : Link ν α) (e : Item ν α) : Option (Link ν α) :=
  (Layered.meet dupOk overOk l.cur e).map (⟨l.first, ·⟩)

theorem meet_cases {cur e c : Item ν α} (h : Layered.meet dupOk overOk cur e = some c) :
    c = cur ∨ c = e := by
  unfold Layered.meet at h
  repeat' split at h
  all_goals cases h
  all_goals simp

theorem Link.meet_cases {l l' : Link ν α} {e : Item ν α} (h : l.meet dupOk overOk e = some l') :
    l'.first = l.first ∧ (l'.cur = l.cur ∨ l'.cur = e) := by
  obtain ⟨c, hc, rfl⟩ := Option.map_eq_some_iff.mp h
  exact ⟨rfl, Layered.meet_cases dupOk overOk hc⟩

/-- The run over the items of one name, from what is recorded so far. -/
def mergeClass : Option (Link ν α) → List (Item ν α) → Option (Option (Link ν α))
  | l?, [] => some l?
  | none, e :: es => mergeClass (some ⟨e, e⟩) es
  | some l, e :: es =>
    match l.meet dupOk overOk e with
    | none => none
    | some l' => mergeClass (some l') es

@[simp] theorem mergeClass_nil (l? : Option (Link ν α)) :
    mergeClass dupOk overOk l? [] = some l? := by
  cases l? <;> rfl

/-- Every item of `es` agrees with the item that is decisive among those before it, where `pre`
comes before `es`. -/
def acceptedAfter (pre : List (Item ν α)) : List (Item ν α) → Bool
  | [] => true
  | e :: es => (decisive pre).all (agrees dupOk overOk · e) && acceptedAfter (pre ++ [e]) es

def accepted (es : List (Item ν α)) : Bool := acceptedAfter dupOk overOk [] es

/-- What a name ends with: its first and its decisive item. -/
def settled (es : List (Item ν α)) : Option (Link ν α) :=
  es.head?.bind fun f => (decisive es).map fun c => ⟨f, c⟩

@[simp] theorem settled_nil : settled ([] : List (Item ν α)) = none := rfl

theorem settled_eq_some {es : List (Item ν α)} {l : Link ν α} :
    settled es = some l ↔ es.head? = some l.first ∧ decisive es = some l.cur := by
  obtain ⟨f, c⟩ := l
  simp only [settled, Option.bind_eq_some_iff, Option.map_eq_some_iff, Link.mk.injEq]
  constructor
  · rintro ⟨f', hf, c', hc, rfl, rfl⟩; exact ⟨hf, hc⟩
  · rintro ⟨hf, hc⟩; exact ⟨f, hf, c, hc, rfl, rfl⟩

theorem settled_eq_none {es : List (Item ν α)} : settled es = none ↔ es = [] := by
  constructor
  · intro h
    cases es with
    | nil => rfl
    | cons e es =>
      have hd : decisive (e :: es) ≠ none := fun hn => by simp [decisive_eq_none] at hn
      simp [settled, hd] at h
  · rintro rfl; rfl

theorem settled_append_singleton {es : List (Item ν α)} {l : Link ν α}
    (h : settled es = some l) (e : Item ν α) :
    settled (es ++ [e]) = some ⟨l.first, supersede l.cur e⟩ := by
  rw [settled_eq_some] at h ⊢
  refine ⟨?_, decisive_append_singleton h.2 e⟩
  rw [List.head?_append, h.1]; rfl

theorem mergeClass_settled (pre es : List (Item ν α)) (h : (pre ++ es).Pairwise Item.Before) :
    mergeClass dupOk overOk (settled pre) es =
      if acceptedAfter dupOk overOk pre es then some (settled (pre ++ es)) else none := by
  induction es generalizing pre with
  | nil => simp [acceptedAfter]
  | cons e es ih =>
    have e' : pre ++ e :: es = (pre ++ [e]) ++ es := by simp
    rw [e'] at h ⊢
    specialize ih _ h
    cases hp : settled pre with
    | none =>
      rw [settled_eq_none] at hp
      subst hp
      simpa [mergeClass, acceptedAfter, settled] using ih
    | some l =>
      have hs := settled_append_singleton hp e
      have hc : decisive pre = some l.cur := (settled_eq_some.mp hp).2
      have hb : l.cur.Before e :=
        (List.pairwise_append.mp (List.pairwise_append.mp h).1).2.2 _ (decisive_mem hc) _ (by simp)
      simp only [mergeClass, Link.meet, meet_eq _ _ hb, acceptedAfter, hc, Option.all_some]
      cases hag : agrees dupOk overOk l.cur e
      · simp
      · rw [hs] at ih
        simpa using ih

/-- **One name.** The run accepts exactly the accepted items, and ends with the first and the
decisive one. -/
theorem mergeClass_eq {es : List (Item ν α)} (h : es.Pairwise Item.Before) :
    mergeClass dupOk overOk none es =
      if accepted dupOk overOk es then some (settled es) else none :=
  mergeClass_settled dupOk overOk [] es h

theorem acceptedAfter_iff (pre es : List (Item ν α)) : acceptedAfter dupOk overOk pre es = true ↔
    ∀ mid e post c, es = mid ++ e :: post → decisive (pre ++ mid) = some c →
      agrees dupOk overOk c e = true := by
  induction es generalizing pre with
  | nil => simp [acceptedAfter]
  | cons x es ih =>
    simp only [acceptedAfter, Bool.and_eq_true, ih]
    constructor
    · rintro ⟨hx, hr⟩ mid e post c he hc
      cases mid with
      | nil =>
        simp only [List.nil_append, List.cons.injEq, List.append_nil] at he hc
        obtain ⟨rfl, -⟩ := he
        simpa [hc] using hx
      | cons m mid =>
        simp only [List.cons_append, List.cons.injEq] at he
        obtain ⟨rfl, he⟩ := he
        exact hr mid e post c he (by simpa using hc)
    · intro h
      refine ⟨?_, fun mid e post c he hc =>
        h (x :: mid) e post c (by simp [he]) (by simpa using hc)⟩
      cases hd : decisive pre with
      | none => rfl
      | some c => simpa using h [] x es c rfl (by simpa using hd)

theorem acceptedAfter_append (pre es : List (Item ν α)) (e : Item ν α) :
    acceptedAfter dupOk overOk pre (es ++ [e]) = (acceptedAfter dupOk overOk pre es &&
      (decisive (pre ++ es)).all (agrees dupOk overOk · e)) := by
  induction es generalizing pre with
  | nil => simp [acceptedAfter]
  | cons x es ih => simp [acceptedAfter, ih, Bool.and_assoc]

theorem acceptedAfter_relabel {μ : Type*} (g : ν → μ) (pre es : List (Item ν α)) :
    acceptedAfter dupOk overOk (pre.map (Item.relabel g)) (es.map (Item.relabel g)) =
      acceptedAfter dupOk overOk pre es := by
  induction es generalizing pre with
  | nil => rfl
  | cons e es ih =>
    have hpre : pre.map (Item.relabel g) ++ [e.relabel g] = (pre ++ [e]).map (Item.relabel g) := by
      simp
    simp only [List.map_cons, acceptedAfter, decisive_relabel, hpre, ih]
    cases decisive pre <;> rfl

theorem accepted_relabel {μ : Type*} (g : ν → μ) (es : List (Item ν α)) :
    accepted dupOk overOk (es.map (Item.relabel g)) = accepted dupOk overOk es :=
  acceptedAfter_relabel dupOk overOk g [] es

/-- The items of the kind of the decisive one agree with it. -/
theorem agrees_of_accepted {es : List (Item ν α)} {c e : Item ν α}
    (h : accepted dupOk overOk es = true) (hc : decisive es = some c) (he : e ∈ es)
    (hs : e.strong = c.strong) : e = c ∨ agrees dupOk overOk c e = true := by
  induction es using List.reverseRecOn generalizing c with
  | nil => cases he
  | append_singleton es x ih =>
    rw [accepted, acceptedAfter_append, Bool.and_eq_true] at h
    obtain ⟨hacc, hx⟩ := h
    cases hd : decisive es with
    | none =>
      rw [decisive_eq_none] at hd
      subst hd
      rw [List.nil_append, decisive_singleton, Option.some.injEq] at hc
      subst hc
      exact .inl (by simpa using he)
    | some c₀ =>
      rw [decisive_append_singleton hd, Option.some.injEq] at hc
      have hagree : agrees dupOk overOk c₀ x = true := by simpa [hd] using hx
      rcases List.mem_append.mp he with he | he
      · unfold supersede at hc
        split at hc
        · -- `x` is the first strong item: `e` is not strong
          rename_i hst
          subst hc
          simp only [Bool.and_eq_true, Bool.not_eq_true'] at hst
          have := strong_of_decisive hd he (hs.trans hst.1)
          rw [this] at hst; cases hst.2
        · subst hc
          exact ih hacc hd he hs
      · have : e = x := by simpa using he
        subst this
        unfold supersede at hc
        split at hc
        · exact .inl hc
        · subst hc; exact .inr hagree

theorem accepted_iff {es : List (Item ν α)} : accepted dupOk overOk es = true ↔
    ∀ mid e post c, es = mid ++ e :: post → decisive mid = some c →
      agrees dupOk overOk c e = true := by
  simpa [accepted] using acceptedAfter_iff dupOk overOk [] es

theorem accepted_of_sooner {es : List (Item ν α)} (h : es.Pairwise Item.Sooner)
    (hover : ∀ a b, overOk a b = true) : accepted dupOk overOk es = true := by
  rw [accepted_iff]
  rintro mid e post c rfl hc
  have hs : c.Sooner e := (List.pairwise_append.mp h).2.2 c (decisive_mem hc) e (by simp)
  unfold agrees
  rcases hs with hs | ⟨hs, hcs, hes⟩
  · simp [Nat.ne_of_lt hs, hover]
  · simp [hcs, hes]

/-- The item `c` counts when `e`, which is of its kind, is met: it is the first strong item, or the
first item of all, with no strong item up to the level of `e`. -/
def CountsAt (es : List (Item ν α)) (c e : Item ν α) : Prop :=
  if c.strong then (es.filter (fun i => i.strong == true)).head? = some c
  else es.head? = some c ∧ ∀ s ∈ es, s.strong = true → e.depth < s.depth

omit dupOk overOk in
theorem countsAt_of_decisive {mid post : List (Item ν α)} {c e : Item ν α}
    (hb : (mid ++ e :: post).Pairwise Item.Before) (hs : c.strong = e.strong)
    (hc : decisive mid = some c) : CountsAt (mid ++ e :: post) c e := by
  unfold CountsAt
  unfold decisive at hc
  split
  · rename_i hst
    rw [List.filter_append]
    cases hmid : mid.filter (fun i => i.strong == true) with
    | nil =>
      rw [hmid, List.nil_append] at hc
      have hweak := List.of_mem_filter (List.mem_of_mem_head? hc)
      rw [hst] at hweak
      cases hweak
    | cons x xs =>
      rw [hmid] at hc
      exact hc
  · rename_i hst
    have hnone : ∀ s ∈ mid, ¬ s.strong = true := fun s hsm hss =>
      hst (strong_of_decisive hc hsm hss)
    have hstrong : mid.filter (fun i => i.strong == true) = [] :=
      List.filter_eq_nil_iff.mpr fun s hsm => by simpa using hnone s hsm
    have hweak : mid.filter (fun i => i.strong == false) = mid :=
      List.filter_eq_self.mpr fun s hsm => by simpa using hnone s hsm
    rw [hstrong, hweak, List.nil_append] at hc
    refine ⟨by rw [List.head?_append, hc]; rfl, fun s hsm hss => ?_⟩
    rcases List.mem_append.mp hsm with hsm | hsm
    · exact absurd hss (hnone s hsm)
    · rcases List.mem_cons.mp hsm with rfl | hsm
      · exact absurd (hs.trans hss) hst
      · rcases (List.pairwise_cons.mp (List.pairwise_append.mp hb).2.1).1 s hsm with
          hlt | ⟨-, himp⟩
        · exact hlt
        · exact absurd (hs.trans (himp hss)) hst

omit dupOk overOk in
theorem decisive_of_countsAt {mid post : List (Item ν α)} {c e : Item ν α}
    (hb : (mid ++ e :: post).Pairwise Item.Before) (hs : c.strong = e.strong) (hne : c ≠ e)
    (hc : CountsAt (mid ++ e :: post) c e) : decisive mid = some c := by
  unfold CountsAt at hc
  unfold decisive
  split at hc
  · rename_i hst
    rw [List.filter_append] at hc
    cases hmid : mid.filter (fun i => i.strong == true) with
    | nil =>
      rw [hmid, List.nil_append, List.filter_cons_of_pos (by simp [← hs, hst])] at hc
      exact absurd (Option.some.inj hc).symm hne
    | cons x xs =>
      rw [hmid] at hc
      exact hc
  · rename_i hst
    obtain ⟨hhead, hfar⟩ := hc
    have hnone : ∀ s ∈ mid, ¬ s.strong = true := by
      intro s hsm hss
      have hlt := hfar s (List.mem_append_left _ hsm) hss
      rcases (List.pairwise_append.mp hb).2.2 s hsm e (by simp) with hbefore | ⟨heq, -⟩
      · omega
      · omega
    have hstrong : mid.filter (fun i => i.strong == true) = [] :=
      List.filter_eq_nil_iff.mpr fun s hsm => by simpa using hnone s hsm
    have hweak : mid.filter (fun i => i.strong == false) = mid :=
      List.filter_eq_self.mpr fun s hsm => by simpa using hnone s hsm
    rw [hstrong, hweak, List.nil_append]
    cases mid with
    | nil => exact absurd (Option.some.inj hhead).symm hne
    | cons x xs => exact hhead

/-- **Refusal.** Some item disagrees with the item that counts when it is met. -/
theorem accepted_eq_false_iff {es : List (Item ν α)} (hb : es.Pairwise Item.Before)
    (hrefl : ∀ a, dupOk a a = true) : accepted dupOk overOk es = false ↔
      ∃ c, ∃ e ∈ es, CountsAt es c e ∧ agrees dupOk overOk c e = false := by
  have hsame : ∀ {c e : Item ν α}, agrees dupOk overOk c e = false →
      c.strong = e.strong ∧ c ≠ e := by
    intro c e h
    unfold agrees at h
    split at h
    · rename_i hs
      refine ⟨hs, fun hce => ?_⟩
      subst hce
      rw [if_pos rfl, hrefl] at h
      cases h
    · cases h
  rw [← Bool.not_eq_true, accepted_iff]
  constructor
  · intro h
    by_contra hnone
    refine h fun mid e post c he hc => ?_
    by_contra hag
    rw [Bool.not_eq_true] at hag
    subst he
    exact hnone ⟨c, e, by simp, countsAt_of_decisive hb (hsame hag).1 hc, hag⟩
  · rintro ⟨c, e, he, hc, hag⟩ h
    obtain ⟨mid, post, rfl⟩ := List.append_of_mem he
    obtain ⟨hs, hne⟩ := hsame hag
    rw [h mid e post c rfl (decisive_of_countsAt hb hs hne hc)] at hag
    cases hag

end Meet

end Layered
