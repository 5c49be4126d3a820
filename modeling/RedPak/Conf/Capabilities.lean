import RedPak.Conf.MixSpec
import RedPak.Layered.Matrix

/-!
# Conf.Capabilities

The merge of capabilities (`mergeConfCapa`, `mixCapabilities`).

* `mixCapabilities_eq`: the merge is refused, or hands its links to the callback.
* `mixCapabilities_spec`: unless it is refused, every capability is delivered once, with the value
  of its nearest admin setting or else of its nearest normal one, and what is delivered as added is
  dropped by no setting of that kind.
-/

namespace RedPak
namespace Conf

open Layered (deliver)

abbrev MixCapaCb (σ : Type*) := σ → CStr → Int → Nat → Nat → Int × σ

/-- The fields of `mix_capa_link_s` that the other links do not have. -/
structure MixCapaHeld where
  name : CStr
  value : Int

def mixCapa : Mix RedConfCap MixCapaHeld where
  what := "Capability"
  defs c := c.conftag.capabilities
  inherited _ := true
  name _ d := some d.cap
  linkName h := some h.name
  record d _ := ⟨d.cap, d.add⟩
  replace h d := { h with value := d.add }
  differs h d := h.value != d.add
  forbids h d := h.value != 0 && d.add == 0
  warn := (·.warn)
  shown := (·.cap)
  shownTwice h _ := h.name

variable {σ : Type*}

/-- The callback loop at the end of `mergeConfCapa`. -/
def mixCapaEnd (callback : MixCapaCb σ) : MixEnd MixCapaHeld σ := fun count head closure =>
  deliver (fun c link index count => callback c link.held.name link.held.value index count)
    count 0 head closure

def mergeConfCapa (callback : MixCapaCb σ) (merger : MixRoot MixCapaHeld σ) (node : Family)
    (admin : Bool) (index depth : Nat) : Outcome σ :=
  mixCapa.mergeConf (mixCapaEnd callback) merger node admin index depth

def mixCapabilities (node : Family) (callback : MixCapaCb σ) (closure : σ) : Outcome σ :=
  mergeConfCapa callback ⟨0, [], closure, []⟩ node true 0 0

def RedConfCap.adds (c : RedConfCap) : Bool := c.add != 0

/-- A link keeps the name it was found by first, and the value that counts. -/
def mixCapaLaw : mixCapa.Lawful where
  dupOk a b := a.add == b.add
  overOk := Layered.keepsOff RedConfCap.adds
  held l := ⟨l.first.val.cap, l.cur.val.add⟩
  record_eq _ := rfl
  replace_eq _ _ := rfl
  differs_eq _ _ := rfl
  forbids_eq l d := by
    cases h : d.add == 0 <;> simp [mixCapa, Layered.keepsOff, RedConfCap.adds, bne, h]
  linkName_eq _ _ := rfl

theorem mixCapabilities_eq (node : Family) (callback : MixCapaCb σ) (closure : σ) :
    (mixCapabilities node callback closure).result =
      match mixCapaLaw.links node with
      | none => some (-1, closure)
      | some ls => some (deliver (fun c p index count => callback c p.1 p.2 index count) ls.length 0
          (ls.map fun l => (l.first.val.cap, l.cur.val.add)) closure) := by
  have hcomp : mixCapa.Comparable node := .inl fun _ _ _ _ _ => rfl
  have h := mixCapaLaw.mixConf_eq (mixCapaEnd callback) hcomp closure
  rw [show mixCapabilities node callback closure =
    mixCapa.mixConf (mixCapaEnd callback) node closure from rfl, h]
  cases mixCapaLaw.links node with
  | none => rfl
  | some ls => simp only [mixCapaEnd, Layered.deliver_map]; rfl

/-- The merge fails by itself: the callback would accept all it gets. -/
def capsRefused (node : Family) : Prop :=
  (mixCapabilities node (fun c _ _ _ _ => (0, c)) ()).result = some (-1, ())

instance (node : Family) : Decidable (capsRefused node) :=
  inferInstanceAs (Decidable (_ = some _))

theorem capsRefused_iff_links (node : Family) :
    capsRefused node ↔ mixCapaLaw.links node = none := by
  rw [capsRefused, mixCapabilities_eq]
  cases mixCapaLaw.links node with
  | none => simp
  | some ls => simp [Layered.deliver_foldl (fun c _ => c)]

theorem capsRefused_iff (node : Family) :
    capsRefused node ↔ ∃ k, mixCapaLaw.acceptedName node k = false := by
  rw [← Mix.Lawful.links_eq_none, capsRefused_iff_links]

/-- The settings of a capability that count, nearest first: those of the admin configs if there is
one, otherwise those of the normal configs. -/
def capSettings (node : Family) (name : CStr) : List Int :=
  (mixCapa.deciding node (some name.folded)).map (·.2.add)

theorem adds_of_accepted {es : List (Layered.Item Family RedConfCap)}
    {c e : Layered.Item Family RedConfCap}
    (h : Layered.accepted mixCapaLaw.dupOk mixCapaLaw.overOk es = true)
    (hc : Layered.decisive es = some c) (he : e ∈ es) (hs : e.strong = c.strong)
    (hadd : c.val.add ≠ 0) : e.val.add ≠ 0 := by
  rcases Layered.agrees_of_accepted _ _ h hc he hs with rfl | hag
  · exact hadd
  · intro h0
    simp only [Layered.agrees, hs, if_true] at hag
    split at hag
    · have : c.val.add = e.val.add := by simpa [mixCapaLaw] using hag
      exact hadd (this.trans h0)
    · simp [mixCapaLaw, Layered.keepsOff, RedConfCap.adds, hadd, h0] at hag

def capCalls (ls : List (Layered.Link Family RedConfCap)) : List (CStr × Int) :=
  ls.map fun l => (l.first.val.cap, l.cur.val.add)

section

variable {node : Family} {ls : List (Layered.Link Family RedConfCap)}
  (h : mixCapaLaw.links node = some ls)

include h

theorem capCalls_names :
    ((capCalls ls).map fun p => some p.1.folded).Perm (mixCapa.names node).dedup := by
  have := (Mix.Lawful.holds_of_links mixCapaLaw h).names
  rwa [capCalls, List.map_map]

theorem capCalls_value : ∀ p ∈ capCalls ls, (capSettings node p.1).head? = some p.2 := by
  intro p hp
  obtain ⟨l, hl, rfl⟩ := List.mem_map.mp hp
  rw [capSettings, List.head?_map]
  exact congrArg (Option.map (·.2.add)) ((Mix.Lawful.holds_of_links mixCapaLaw h).value l hl)

theorem capCalls_keep : ∀ p ∈ capCalls ls, p.2 ≠ 0 → 0 ∉ capSettings node p.1 := by
  intro p hp hadd hmem
  obtain ⟨l, hl, rfl⟩ := List.mem_map.mp hp
  obtain ⟨q, hq, h0⟩ := List.mem_map.mp hmem
  have hd := (Mix.Lawful.holds_of_links mixCapaLaw h).decisive l hl
  obtain ⟨e, he, hs, rfl⟩ := mixCapa.mem_deciding hd hq
  exact adds_of_accepted (mixCapaLaw.links_isSome.mp ⟨ls, h⟩ _) hd he hs hadd h0

end

/-- **Capabilities.** Unless the merge is refused, it delivers every capability once, with the
value of its nearest admin setting or, without one, of its nearest normal setting. When this value
is not 0, no setting of the capability of that kind is 0. -/
theorem mixCapabilities_spec (node : Family) :
    (∀ (callback : MixCapaCb σ) (closure : σ),
      (mixCapabilities node callback closure).result = some (-1, closure)) ∨
    ∃ calls : List (CStr × Int),
      (calls.map fun p => some p.1.folded).Perm (mixCapa.names node).dedup ∧
      (∀ p ∈ calls, (capSettings node p.1).head? = some p.2 ∧
        (p.2 ≠ 0 → 0 ∉ capSettings node p.1)) ∧
      ∀ (callback : MixCapaCb σ) (closure : σ),
        (mixCapabilities node callback closure).result = some (deliver
          (fun c p index count => callback c p.1 p.2 index count) calls.length 0 calls
            closure) := by
  cases hls : mixCapaLaw.links node with
  | none => exact .inl fun callback closure => by rw [mixCapabilities_eq, hls]
  | some ls =>
    exact .inr ⟨capCalls ls, capCalls_names hls,
      fun p hp => ⟨capCalls_value hls p hp, capCalls_keep hls p hp⟩,
      fun callback closure => by rw [mixCapabilities_eq, hls, capCalls, List.length_map]⟩

theorem capSettings_keep {node : Family} {ls : List (Layered.Link Family RedConfCap)}
    (h : mixCapaLaw.links node = some ls) {c : CStr} {v : Int}
    (hv : (capSettings node c).head? = some v) (hadd : v ≠ 0) : 0 ∉ capSettings node c := by
  have hv' := hv
  rw [capSettings, List.head?_map, Option.map_eq_some_iff] at hv'
  obtain ⟨q, hq, -⟩ := hv'
  obtain ⟨l, hl, hname⟩ := (Mix.Lawful.holds_of_links mixCapaLaw h).exists_link hq
  have hmem : (l.first.val.cap, l.cur.val.add) ∈ capCalls ls := List.mem_map.mpr ⟨l, hl, rfl⟩
  have hsame : capSettings node l.first.val.cap = capSettings node c := by
    rw [capSettings, capSettings, ← Option.some.inj hname]
  have hvalue := capCalls_value h _ hmem
  have hkeep := capCalls_keep h _ hmem
  rw [hsame] at hvalue hkeep
  rw [hv, Option.some.injEq] at hvalue
  exact hkeep (hvalue ▸ hadd)

/-! ## Without admin configs -/

/-- The settings of a capability in the normal config of a node. -/
def ownSettings (n : RedNode) (c : CStr) : List Int :=
  (((n.config.map (·.conftag.capabilities)).getD []).filter
    fun d => d.cap.folded = c.folded).map (·.add)

theorem capSettings_noAdmin {node : Family} (h : node.NoAdmin) (c : CStr) :
    capSettings node c = node.toRoot.flatMap fun f => ownSettings f.node c := by
  have hvis : ∀ admin f, mixCapa.visible node admin f = mixCapa.defsOf f admin := by
    intro admin f; simp [Mix.visible, mixCapa]
  have hadmin : mixCapa.defined node true (some c.folded) = [] := by
    rw [Mix.defined, List.flatMap_eq_nil_iff]
    intro f hf
    simp [hvis, Mix.defsOf, Family.conf, h f hf]
  rw [capSettings, Mix.deciding, if_pos hadmin, Mix.defined, List.map_flatMap]
  refine List.flatMap_congr fun f _ => ?_
  rw [List.map_map, hvis]
  simp [ownSettings, Mix.defsOf, Family.conf, mixCapa, Function.comp_def]

theorem capSettings_child {node : Family} {n : RedNode} (h : (node.child n).NoAdmin) (c : CStr) :
    capSettings (node.child n) c = ownSettings n c ++ capSettings node c := by
  rw [capSettings_noAdmin h, capSettings_noAdmin h.parent, Family.toRoot_child, List.flatMap_cons]
  rfl

/-! ## Into the merged tag -/

/-- `mix_conftag_capa`: the entry at `index` is written. -/
def mixConftagCapa : MixCapaCb RedConfTag := fun conftag capability value index _ =>
  (0, { conftag with
    capabilities := conftag.capabilities.take index ++ [{ cap := capability, add := value }] })

theorem mixConftagCapa_eq {node : Family} {tag : RedConfTag}
    (h : (mixCapabilities node mixConftagCapa {}).result = some (0, tag)) :
    ∃ ls, mixCapaLaw.links node = some ls ∧
      tag.capabilities = (capCalls ls).map fun p => { cap := p.1, add := p.2 } := by
  rw [mixCapabilities_eq] at h
  cases hls : mixCapaLaw.links node with
  | none => rw [hls] at h; cases h
  | some ls =>
    refine ⟨ls, rfl, ?_⟩
    have hfill := Layered.deliver_fill RedConfTag.capabilities
      (fun tag caps => { tag with capabilities := caps }) (fun _ _ => rfl) (fun _ _ _ => rfl)
      (fun _ => rfl) (fun p : CStr × Int => ({ cap := p.1, add := p.2 } : RedConfCap))
      (capCalls ls) ls.length 0 {} rfl
    rw [hls] at h
    have htag := congrArg Prod.snd (hfill.symm.trans (Option.some.inj h))
    exact (congrArg RedConfTag.capabilities htag).symm

theorem tag_settings {node : Family} {ls : List (Layered.Link Family RedConfCap)}
    (h : mixCapaLaw.links node = some ls) (c : CStr) :
    ((capCalls ls).filter fun p => p.1.folded = c.folded).map (·.2) =
      (capSettings node c).head?.toList := by
  have hnodup : ((capCalls ls).map fun p => p.1.folded).Nodup := by
    have := (capCalls_names h).nodup_iff.mpr (List.nodup_dedup _)
    rw [← Function.comp_def some, ← List.map_map] at this
    exact this.of_map _
  rw [Layered.filter_eq_find?_toList hnodup]
  cases hf : (capCalls ls).find? fun p => p.1.folded = c.folded with
  | some p =>
    have hname : p.1.folded = c.folded := by simpa using List.find?_some hf
    have hsame : capSettings node c = capSettings node p.1 := by
      rw [capSettings, capSettings, hname]
    rw [hsame, capCalls_value h p (List.mem_of_find?_eq_some hf)]
    rfl
  | none =>
    cases hs : (capSettings node c).head? with
    | none => rfl
    | some v =>
      rw [capSettings, List.head?_map, Option.map_eq_some_iff] at hs
      obtain ⟨q, hq, -⟩ := hs
      obtain ⟨l, hl, hname⟩ := (Mix.Lawful.holds_of_links mixCapaLaw h).exists_link hq
      have hmem : (l.first.val.cap, l.cur.val.add) ∈ capCalls ls := List.mem_map.mpr ⟨l, hl, rfl⟩
      have := List.find?_eq_none.mp hf _ hmem
      exact absurd (Option.some.inj hname) (by simpa using this)

end Conf
end RedPak
