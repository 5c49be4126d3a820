import RedPak.Conf.MixSpec
import Mathlib.Data.List.Sort

/-!
# Conf.Exports

The merge of exports (`mergeConfExp`, `mergeConfExpEnd`, `mixExports`). Exports are named by their
expanded mount, and a private export of a parent is skipped.

The expansion of a string in a node, `RedNodeStringExpand`, is a parameter: it fails when the
result is too long, and a mount that does not expand is NULL.

* `mixExports_eq`: the merge is refused, or hands its links to the callback, sorted.
* `mixExports_spec`: without doubled exports it is not refused, and every mount is delivered once,
  with its nearest admin export or else its nearest normal one.
-/

namespace RedPak
namespace Conf

open Layered (deliver)

abbrev MixExpCb (σ : Type*) := σ → RedConfExportPath → Family → Nat → Nat → Int × σ

/-- The fields of `mix_exp_link_s` that the other links do not have. -/
structure MixExpHeld where
  exp : RedConfExportPath
  mount : Option CStr

/-- `link->exp->mode != dexp->mode || (...->path != NULL && ... && strcmp(...) != 0)` -/
def exportsDiffer (a b : RedConfExportPath) : Bool :=
  a.mode != b.mode ||
    match a.path, b.path with
    | some x, some y => strcmp x y != 0
    | _, _ => false

/-- `(mode & RED_EXPORT_PRIVATES) != 0` -/
def RedExportFlag.isPrivate (mode : RedExportFlag) : Bool := mode.bits &&& redExportPrivates != 0

section

variable (expand : ExpandCtx → CStr → Option CStr)

def mixExp : Mix RedConfExportPath MixExpHeld where
  what := "Export"
  defs := (·.exports)
  inherited d := !d.mode.isPrivate
  name f d := expand f.node.ctx d.mount
  linkName h := h.mount
  record d mount := ⟨d, mount⟩
  replace h d := { h with exp := d }
  differs h d := exportsDiffer h.exp d
  forbids _ _ := false
  warn := (·.warn)
  shown := (·.mount)
  shownTwice _ d := d.mount

/-- A NULL mount is not compared: its link is the only one. -/
def cmpExpLink (a b : Option CStr) : Int := strcmp (a.getD (CStr.lit "")) (b.getD (CStr.lit ""))

variable {σ : Type*}

/-- The links come in the order of their mounts. No two mounts are equal, so that it does not
matter by which algorithm `qsort` sorts. -/
def mergeConfExpEnd (callback : MixExpCb σ) : MixEnd MixExpHeld σ := fun count head closure =>
  let links := head.insertionSort fun a b => cmpExpLink a.held.mount b.held.mount ≤ 0
  deliver (fun c link index count => callback c link.held.exp link.node index count)
    count 0 links closure

def mergeConfExp (callback : MixExpCb σ) (merger : MixRoot MixExpHeld σ) (node : Family)
    (admin : Bool) (index depth : Nat) : Outcome σ :=
  (mixExp expand).mergeConf (mergeConfExpEnd callback) merger node admin index depth

def mixExports (node : Family) (callback : MixExpCb σ) (closure : σ) : Outcome σ :=
  mergeConfExp expand callback ⟨0, [], closure, []⟩ node true 0 0

abbrev mountIn (f : Family) (d : RedConfExportPath) : Option CStr :=
  expand f.node.ctx d.mount

/-- A link keeps the mount it was found by first, and the export that counts. -/
def mixExpLaw : (mixExp expand).Lawful where
  dupOk a b := !exportsDiffer a b
  overOk _ _ := true
  held l := ⟨l.cur.val, mountIn expand l.first.level l.first.val⟩
  record_eq _ := rfl
  replace_eq _ _ := rfl
  differs_eq _ _ := (Bool.not_not _).symm
  forbids_eq _ _ := rfl
  linkName_eq _ _ := rfl

def mountLe (a b : Layered.Link Family RedConfExportPath) : Prop :=
  cmpExpLink (mountIn expand a.first.level a.first.val)
    (mountIn expand b.first.level b.first.val) ≤ 0

instance : DecidableRel (mountLe expand) :=
  fun _ _ => inferInstanceAs (Decidable (_ ≤ _))

def sortedLinks (ls : List (Layered.Link Family RedConfExportPath)) :
    List (Layered.Link Family RedConfExportPath) :=
  ls.insertionSort (mountLe expand)

theorem sortedLinks_perm (ls : List (Layered.Link Family RedConfExportPath)) :
    (sortedLinks expand ls).Perm ls := List.perm_insertionSort _ _

theorem mergeConfExpEnd_eq (callback : MixExpCb σ) (count : Nat)
    (ls : List (Layered.Link Family RedConfExportPath)) (closure : σ) :
    mergeConfExpEnd callback count (ls.map (mixExpLaw expand).link) closure =
      deliver (fun c p index count => callback c p.1 p.2 index count) count 0
        ((sortedLinks expand ls).map fun l => (l.cur.val, l.cur.level)) closure := by
  have hsort : (ls.map (mixExpLaw expand).link).insertionSort
      (fun a b => cmpExpLink a.held.mount b.held.mount ≤ 0) =
      (sortedLinks expand ls).map (mixExpLaw expand).link := by
    symm
    exact List.map_insertionSort _ _ (mixExpLaw expand).link ls fun _ _ _ _ => Iff.rfl
  simp only [mergeConfExpEnd, hsort, Layered.deliver_map]
  rfl

theorem mixExports_eq {node : Family} (hcomp : (mixExp expand).Comparable node)
    (callback : MixExpCb σ) (closure : σ) :
    (mixExports expand node callback closure).result =
      match (mixExpLaw expand).links node with
      | none => some (-1, closure)
      | some ls => some (deliver (fun c p index count => callback c p.1 p.2 index count) ls.length 0
          ((sortedLinks expand ls).map fun l => (l.cur.val, l.cur.level)) closure) := by
  have h := (mixExpLaw expand).mixConf_eq (mergeConfExpEnd callback) hcomp closure
  rw [show mixExports expand node callback closure =
    (mixExp expand).mixConf (mergeConfExpEnd callback) node closure from rfl, h]
  cases (mixExpLaw expand).links node with
  | none => rfl
  | some ls => simp only [mergeConfExpEnd_eq]

/-- The name of an export: its mount up to the case of letters. -/
abbrev mountKey (f : Family) (d : RedConfExportPath) : Option (List UInt8) :=
  (mountIn expand f d).map CStr.folded

/-- **Exports.** When all mounts expand and no config has two exports of one mount, the merge
delivers every mount once, with its nearest admin export or, without one, its nearest normal
export, and with the node of that export. -/
theorem mixExports_spec (node : Family) (hnamed : (mixExp expand).Named node)
    (hdup : (mixExp expand).Distinct node) :
    ∃ calls : List (RedConfExportPath × Family),
      (calls.map fun p => mountKey expand p.2 p.1).Perm
        ((mixExp expand).names node).dedup ∧
      (∀ p ∈ calls, ((mixExp expand).deciding node
        (mountKey expand p.2 p.1)).head? = some (p.2, p.1)) ∧
      ∀ (callback : MixExpCb σ) (closure : σ),
        (mixExports expand node callback closure).result = some (deliver
          (fun c p index count => callback c p.1 p.2 index count) calls.length 0 calls
            closure) := by
  obtain ⟨ls, hls⟩ := (mixExpLaw expand).links_isSome.mpr fun k =>
    (mixExpLaw expand).acceptedName_of_distinct hdup (fun _ _ => rfl) k
  have hperm := sortedLinks_perm expand ls
  obtain ⟨hnames, hvalues⟩ := (Mix.Lawful.holds_of_links _ hls).calls hperm
  refine ⟨_, hnames, hvalues, fun callback closure => ?_⟩
  rw [mixExports_eq expand (.inl hnamed), hls, List.length_map, hperm.length_eq]

/-! ## What is delivered -/

/-- What is delivered to a callback that accepts every export. -/
def delivered (node : Family) : List (RedConfExportPath × Family) :=
  match (mixExports expand node recordCall []).result with
  | some (_, calls) => calls
  | none => []

theorem mixExports_cases (node : Family) :
    (∃ ls, (mixExp expand).Comparable node ∧ (mixExpLaw expand).links node = some ls ∧
      ∀ (callback : MixExpCb σ) (closure : σ),
        (mixExports expand node callback closure).result = some (deliver
          (fun c p index count => callback c p.1 p.2 index count) ls.length 0
          ((sortedLinks expand ls).map fun l => (l.cur.val, l.cur.level)) closure)) ∨
    (¬ (mixExp expand).Comparable node ∨ (mixExpLaw expand).links node = none) ∧
      ∀ (callback : MixExpCb σ) (closure : σ),
        (mixExports expand node callback closure).result = none ∨
        (mixExports expand node callback closure).result = some (-1, closure) := by
  by_cases hcomp : (mixExp expand).Comparable node
  · cases hls : (mixExpLaw expand).links node with
    | none =>
      exact .inr ⟨.inr rfl, fun callback closure => .inr (by rw [mixExports_eq expand hcomp, hls])⟩
    | some ls =>
      exact .inl ⟨ls, hcomp, rfl, fun callback closure => by rw [mixExports_eq expand hcomp, hls]⟩
  · exact .inr ⟨.inl hcomp, fun callback closure =>
      (mixExpLaw expand).mixConf_unnamed (mergeConfExpEnd callback) hcomp closure⟩

theorem delivered_cases (node : Family) :
    (∃ ls, (mixExp expand).Comparable node ∧ (mixExpLaw expand).links node = some ls ∧
      delivered expand node = (sortedLinks expand ls).map (fun l => (l.cur.val, l.cur.level)) ∧
      (mixExports expand node recordCall []).result = some (0, delivered expand node)) ∨
    (¬ (mixExp expand).Comparable node ∨ (mixExpLaw expand).links node = none) ∧
      delivered expand node = [] ∧
      ∀ calls, (mixExports expand node recordCall []).result ≠ some (0, calls) := by
  rcases mixExports_cases expand node with ⟨ls, hcomp, hls, hrun⟩ | ⟨hnot, hrun⟩
  · have h : (mixExports expand node recordCall []).result =
        some (0, (sortedLinks expand ls).map fun l => (l.cur.val, l.cur.level)) :=
      (hrun recordCall []).trans (congrArg some (deliver_recordCall _ _ _))
    have hdel : delivered expand node =
        (sortedLinks expand ls).map fun l => (l.cur.val, l.cur.level) := by rw [delivered, h]
    exact .inl ⟨ls, hcomp, hls, hdel, by rw [hdel]; exact h⟩
  · refine .inr ⟨hnot, ?_⟩
    rcases hrun recordCall [] with h | h
    · exact ⟨by rw [delivered, h], fun calls hc => by rw [h] at hc; cases hc⟩
    · exact ⟨by rw [delivered, h], fun calls hc => by rw [h] at hc; cases hc⟩

theorem delivered_of_accepted {node : Family} {ls : List (Layered.Link Family RedConfExportPath)}
    (hcomp : (mixExp expand).Comparable node) (hls : (mixExpLaw expand).links node = some ls) :
    delivered expand node = (sortedLinks expand ls).map (fun l => (l.cur.val, l.cur.level)) ∧
      (mixExports expand node recordCall []).result = some (0, delivered expand node) := by
  rcases delivered_cases expand node with ⟨ls', -, hls', hdel, hrun⟩ | ⟨hnot, -⟩
  · rw [hls, Option.some.injEq] at hls'
    subst hls'
    exact ⟨hdel, hrun⟩
  · rcases hnot with hnot | hnot
    · exact absurd hcomp hnot
    · rw [hls] at hnot
      cases hnot

/-- The delivered exports are those that count, when the merge goes through. -/
theorem mem_delivered {node : Family} {p : RedConfExportPath × Family} :
    p ∈ delivered expand node ↔ (mixExp expand).Comparable node ∧
      (∀ k, (mixExpLaw expand).acceptedName node k = true) ∧
      ∃ k, ((mixExp expand).deciding node k).head? = some (p.2, p.1) := by
  rcases delivered_cases expand node with ⟨ls, hcomp, hls, hdel, -⟩ | ⟨hnot, hdel, -⟩
  · have hholds := Mix.Lawful.holds_of_links (mixExpLaw expand) hls
    have hperm := sortedLinks_perm expand ls
    rw [hdel]
    constructor
    · intro hp
      exact ⟨hcomp, (mixExpLaw expand).links_isSome.mp ⟨ls, hls⟩, _, (hholds.calls hperm).2 p hp⟩
    · rintro ⟨-, -, k, hk⟩
      obtain ⟨l, hl, rfl⟩ := hholds.exists_link hk
      rw [hholds.value l hl, Option.some.injEq, Prod.mk.injEq] at hk
      exact List.mem_map.mpr ⟨l, hperm.mem_iff.mpr hl, Prod.ext hk.2 hk.1⟩
  · rw [hdel]
    refine ⟨fun hp => (List.not_mem_nil hp).elim, fun ⟨hcomp, hacc, _⟩ => ?_⟩
    rcases hnot with hnot | hnot
    · exact absurd hcomp hnot
    · obtain ⟨ls, hls⟩ := (mixExpLaw expand).links_isSome.mpr hacc
      rw [hls] at hnot; cases hnot

theorem mixExports_delivered (node : Family) (callback : MixExpCb σ) (closure : σ) :
    (mixExports expand node callback closure).result = some (deliver
        (fun c p index count => callback c p.1 p.2 index count) (delivered expand node).length 0
        (delivered expand node) closure) ∨
    delivered expand node = [] ∧
      ((mixExports expand node callback closure).result = none ∨
        (mixExports expand node callback closure).result = some (-1, closure)) := by
  rcases delivered_cases expand node with ⟨ls, hcomp, hls, hdel, -⟩ | ⟨hnot, hdel, -⟩
  · refine .inl ?_
    rw [mixExports_eq expand hcomp, hls, hdel, List.length_map,
      (sortedLinks_perm expand ls).length_eq]
  · rcases mixExports_cases expand node with ⟨ls, hcomp, hls, -⟩ | ⟨-, hrun⟩
    · rcases hnot with hnot | hnot
      · exact absurd hcomp hnot
      · rw [hls] at hnot; cases hnot
    · exact .inr ⟨hdel, hrun callback closure⟩

/-- `mixexp_cb` of `redconf-merge.c`: the exports of the merged node, with the entry at `index`
written. -/
def mergeExpCb : MixExpCb (List RedConfExportPath) := fun exports exp _ index _ =>
  (0, exports.take index ++ [exp])

def mergedExports (node : Family) : List RedConfExportPath :=
  match (mixExports expand node mergeExpCb []).result with
  | some (_, exports) => exports
  | none => []

theorem mergedExports_eq (node : Family) :
    mergedExports expand node = (delivered expand node).map (·.1) := by
  rcases mixExports_delivered expand node mergeExpCb [] with h | ⟨hdel, h⟩
  · have hfill := Layered.deliver_fill id (fun _ l => l) (fun _ _ => rfl) (fun _ _ _ => rfl)
      (fun _ => rfl) (fun p : RedConfExportPath × Family => p.1) (delivered expand node)
      (delivered expand node).length 0 [] rfl
    rw [mergedExports, h]
    exact congrArg Prod.snd hfill
  · rw [hdel, mergedExports]
    rcases h with h | h <;> rw [h] <;> rfl

end

/-! ## An example -/

/-- Strings without variables expand to themselves. -/
def expandPlain : ExpandCtx → CStr → Option CStr := fun _ s => some s

def mountFamily : Family where
  node := {
    config := some {
      headers := { nodeAlias := CStr.lit "leaf" }
      exports := [{ mount := CStr.lit "/data", mode := .exportPublic },
        { mount := CStr.lit "/tmp", mode := .exportTmpfs }] }
    redpath := CStr.lit "/root/leaf" }
  parents := [{
    config := none
    confadmin := some {
      headers := { nodeAlias := CStr.lit "root" }
      exports := [{ mount := CStr.lit "/data", mode := .exportRestricted }] }
    redpath := CStr.lit "/root" }]

theorem mixExports_spec_mountFamily :
    ∃ calls : List (RedConfExportPath × Family),
      (calls.map fun p => mountKey expandPlain p.2 p.1).Perm
        ((mixExp expandPlain).names mountFamily).dedup ∧
      (∀ p ∈ calls, ((mixExp expandPlain).deciding mountFamily
        (mountKey expandPlain p.2 p.1)).head? = some (p.2, p.1)) ∧
      ∀ (callback : MixExpCb Nat) (closure : Nat),
        (mixExports expandPlain mountFamily callback closure).result = some (deliver
          (fun c p index count => callback c p.1 p.2 index count) calls.length 0 calls closure) :=
  mixExports_spec expandPlain mountFamily (by decide) (by decide)

end Conf
end RedPak
