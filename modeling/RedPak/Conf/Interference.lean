import RedPak.Conf.Variables
import RedPak.Conf.Exports

/-!
# Conf.Interference

Which definitions decide what is delivered for a name. Two families are compared that agree on the
definitions of one name, node by node, and differ in others.

* `Mix.Lawful.separates`: names are separate from each other, up to the case of letters.
* `separate_up_to_case`: for the variables and the exports.
* `case_variants_interfere`: not so for names as they are written.
-/

namespace RedPak
namespace Conf

open Layered (Item walk)

namespace Mix

variable {δ τ : Type} (m : Mix δ τ) {μ : Type} (label : Family → μ)

/-- The definitions of a name, node by node: the label of the node, its admin definitions and its
normal ones. -/
def byName (leaf : Family) (k : Option (List UInt8)) : List (μ × List δ × List δ) :=
  leaf.toRoot.map fun f => (label f,
    (m.visible leaf true f).filter (fun d => (m.name f d).map CStr.folded = k),
    (m.visible leaf false f).filter (fun d => (m.name f d).map CStr.folded = k))

/-- What is handed over for a name, the nodes told by their labels. -/
def callsFor (k : Option (List UInt8)) (calls : List (δ × Family)) : List (δ × μ) :=
  (calls.filter fun p => (m.name p.2 p.1).map CStr.folded = k).map fun p => (p.1, label p.2)

/-- A merge with `recordCall` is refused, or faults. -/
def Fails (result : Option (Int × List (δ × Family))) : Prop := ∀ calls, result ≠ some (0, calls)

/-- The definitions of a name decide what is handed over for it, and the merge fails exactly when
those of one name make it fail, or a NULL name is compared. -/
structure Separates (merge : Family → Option (Int × List (δ × Family))) : Prop where
  same : ∀ {node node' k calls calls'}, m.byName label node k = m.byName label node' k →
    merge node = some (0, calls) → merge node' = some (0, calls') →
    m.callsFor label k calls = m.callsFor label k calls'
  fails : ∀ node, Fails (merge node) ↔ ¬ m.Comparable node ∨
    ∃ k, ∀ node', m.byName label node' k = m.byName label node k → Fails (merge node')

variable {m label}

theorem found_filter_congr {node node' : Family} {k : Option (List UInt8)}
    (h : m.byName label node k = m.byName label node' k) :
    ((m.found node).filter (fun e => m.key e = k)).map (Item.relabel label) =
      ((m.found node').filter (fun e => m.key e = k)).map (Item.relabel label) := by
  have hwalk : ∀ leaf : Family, ((m.found leaf).filter (fun e => m.key e = k)).map
      (Item.relabel label) = (walk (·.2.1) (·.2.2) 0 (m.byName label leaf k)).map
        (Item.relabel Prod.fst) := by
    intro leaf
    rw [found_filter, byName, ← Layered.walk_relabel (fun f => (label f,
        (m.visible leaf true f).filter (fun d => (m.name f d).map CStr.folded = k),
        (m.visible leaf false f).filter (fun d => (m.name f d).map CStr.folded = k)))
      (fun _ => rfl) (fun _ => rfl), List.map_map]
    rfl
  rw [hwalk, hwalk, h]

theorem deciding_congr {node node' : Family} {k : Option (List UInt8)}
    (h : m.byName label node k = m.byName label node' k) :
    (m.deciding node k).head?.map (fun p => (p.2, label p.1)) =
      (m.deciding node' k).head?.map (fun p => (p.2, label p.1)) := by
  have hdec : ∀ leaf : Family, (m.deciding leaf k).head?.map (fun p => (p.2, label p.1)) =
      (Layered.decisive (((m.found leaf).filter (fun e => m.key e = k)).map
        (Item.relabel label))).map fun i => (i.val, i.level) := by
    intro leaf
    rw [← decisive_found, Layered.decisive_relabel, Option.map_map, Option.map_map]
    rfl
  rw [hdec, hdec, found_filter_congr h]

namespace Lawful

variable (law : m.Lawful)

theorem acceptedName_congr {node node' : Family} {k : Option (List UInt8)}
    (h : m.byName label node k = m.byName label node' k) :
    law.acceptedName node k = law.acceptedName node' k := by
  have hacc : ∀ leaf : Family, law.acceptedName leaf k =
      Layered.accepted law.dupOk law.overOk
        (((m.found leaf).filter (fun e => m.key e = k)).map (Item.relabel label)) :=
    fun leaf => (Layered.accepted_relabel _ _ label _).symm
  rw [hacc, hacc, found_filter_congr h]

/-- **Names are separate**, for a merge that hands over its links or fails. -/
theorem separates {merge : Family → Option (Int × List (δ × Family))}
    (hmerge : ∀ node, (∃ ls ls' : List (Layered.Link Family δ), m.Comparable node ∧
        law.links node = some ls ∧ ls'.Perm ls ∧
        merge node = some (0, ls'.map fun l => (l.cur.val, l.cur.level))) ∨
      (¬ m.Comparable node ∨ law.links node = none) ∧ Fails (merge node)) :
    m.Separates label merge where
  same := by
    have hfor : ∀ {node calls} k, merge node = some (0, calls) → m.callsFor label k calls =
        ((m.deciding node k).head?.map fun p => (p.2, label p.1)).toList := by
      intro node calls k hrun
      rcases hmerge node with ⟨ls, ls', -, hls, hperm, h⟩ | ⟨-, hfails⟩
      · rw [hrun, Option.some.injEq, Prod.mk.injEq] at h
        rw [h.2, callsFor, (holds_of_links law hls).filter_calls hperm]
        cases (m.deciding node k).head? <;> rfl
      · exact absurd hrun (hfails calls)
    intro node node' k calls calls' h hrun hrun'
    rw [hfor k hrun, hfor k hrun', deciding_congr h]
  fails node := by
    constructor
    · intro hfails
      rcases hmerge node with ⟨ls, ls', -, -, -, h⟩ | ⟨hcomp | hnone, -⟩
      · exact absurd h (hfails _)
      · exact .inl hcomp
      · obtain ⟨k, hk⟩ := law.links_eq_none.mp hnone
        refine .inr ⟨k, fun node' h => ?_⟩
        rw [← law.acceptedName_congr h] at hk
        have hnone' := law.links_eq_none.mpr ⟨k, hk⟩
        rcases hmerge node' with ⟨ls, ls', -, hls, -, -⟩ | ⟨-, hfails'⟩
        · rw [hls] at hnone'; cases hnone'
        · exact hfails'
    · rintro (hcomp | ⟨k, h⟩)
      · rcases hmerge node with ⟨ls, ls', hcomp', -⟩ | ⟨-, hfails⟩
        · exact absurd hcomp' hcomp
        · exact hfails
      · exact h node rfl

end Lawful

end Mix

def Family.place (f : Family) : Nat := f.parents.length

theorem mixVar_comparable (node : Family) : mixVar.Comparable node := .inl fun _ _ _ _ _ => rfl

/-- **Names up to the case of letters are separate.** The definitions of a key decide which one is
delivered for it and from which node, and the visible exports of an expanded mount decide which one
is delivered for it. Definitions of other names matter only in that they can make the merge fail,
and then those of one name do so by themselves. -/
theorem separate_up_to_case (expand : ExpandCtx → CStr → Option CStr) :
    mixVar.Separates Family.place (fun node => (mixVariables node recordCall []).result) ∧
    (mixExp expand).Separates (fun f => (f.place, f.node.ctx))
      (fun node => (mixExports expand node recordCall []).result) := by
  refine ⟨mixVarLaw.separates fun node => ?_, (mixExpLaw expand).separates fun node => ?_⟩
  · have h := mixVariables_eq node recordCall []
    cases hls : mixVarLaw.links node with
    | none =>
      rw [hls] at h
      exact .inr ⟨.inr rfl, fun calls hc => by rw [h] at hc; cases hc⟩
    | some ls =>
      rw [hls] at h
      refine .inl ⟨ls, ls, mixVar_comparable node, rfl, .refl ls, h.trans ?_⟩
      exact congrArg some (deliver_recordCall _ _ _)
  · rcases delivered_cases expand node with ⟨ls, hcomp, hls, hdel, hrun⟩ | ⟨hnot, -, hfails⟩
    · refine .inl ⟨ls, sortedLinks expand ls, hcomp, hls, sortedLinks_perm expand ls, ?_⟩
      rw [hrun, hdel]
    · exact .inr ⟨hnot, hfails⟩

/-! ## Names as they are written -/

/-- The definitions of which the name is written in one way, node by node. -/
def Mix.written {δ τ : Type} (m : Mix δ τ) (leaf : Family) (k : CStr) : List (List δ × List δ) :=
  leaf.toRoot.map fun f => ((m.visible leaf true f).filter (fun d => m.name f d = some k),
    (m.visible leaf false f).filter (fun d => m.name f d = some k))

def upperLeaf : RedNode where
  config := some {
    headers := { nodeAlias := CStr.lit "leaf" }
    confvar := [{ key := CStr.lit "PATH", value := CStr.lit "/bin" }]
    exports := [{ mount := CStr.lit "/data", mode := .exportRestricted }] }
  redpath := CStr.lit "/root/leaf"

def plainRoot : RedNode where
  config := some { headers := { nodeAlias := CStr.lit "root" } }
  redpath := CStr.lit "/root"

def variantRoot : RedNode where
  config := plainRoot.config
  confadmin := some {
    headers := { nodeAlias := CStr.lit "admin" }
    confvar := [{ key := CStr.lit "Path", value := CStr.lit "/opt" }]
    exports := [{ mount := CStr.lit "/Data", mode := .exportRestricted }] }
  redpath := CStr.lit "/root"

/-- A leaf that also sets `HOME`, twice and differently. -/
def doubledLeaf : RedNode where
  config := some {
    headers := { nodeAlias := CStr.lit "leaf" }
    confvar := [{ key := CStr.lit "PATH", value := CStr.lit "/bin" },
      { key := CStr.lit "HOME", value := CStr.lit "/home" },
      { key := CStr.lit "HOME", value := CStr.lit "/root" }] }
  redpath := CStr.lit "/root/leaf"

/-- A definition of a name that is written in another case takes the place of the definition, and
definitions of another name make the merge fail. -/
theorem case_variants_interfere :
    (¬ ∀ (node node' : Family) (k : CStr) (calls calls' : List (RedConfVar × Family)),
      mixVar.written node k = mixVar.written node' k →
      (mixVariables node recordCall []).result = some (0, calls) →
      (mixVariables node' recordCall []).result = some (0, calls') →
      (calls.map (·.1)).filter (·.key = k) = (calls'.map (·.1)).filter (·.key = k)) ∧
    (¬ ∀ (node node' : Family) (k : CStr) (calls calls' : List (RedConfExportPath × Family)),
      (mixExp expandPlain).written node k = (mixExp expandPlain).written node' k →
      (mixExports expandPlain node recordCall []).result = some (0, calls) →
      (mixExports expandPlain node' recordCall []).result = some (0, calls') →
      (calls.map (·.1)).filter (·.mount = k) = (calls'.map (·.1)).filter (·.mount = k)) ∧
    ¬ ∀ (node node' : Family) (k : CStr) (calls : List (RedConfVar × Family)),
      mixVar.written node k = mixVar.written node' k →
      (mixVariables node recordCall []).result = some (0, calls) →
      ∃ calls', (mixVariables node' recordCall []).result = some (0, calls') := by
  have hplain : (mixVariables ⟨upperLeaf, [plainRoot]⟩ recordCall []).result = some (0,
      [(⟨.deflt, CStr.lit "PATH", CStr.lit "/bin", none, none⟩, ⟨upperLeaf, [plainRoot]⟩)]) := by
    rw [mixVariables_eq]; decide
  refine ⟨?_, ?_, ?_⟩
  · intro h
    have hvariant : (mixVariables ⟨upperLeaf, [variantRoot]⟩ recordCall []).result = some (0,
        [(⟨.deflt, CStr.lit "Path", CStr.lit "/opt", none, none⟩, ⟨variantRoot, []⟩)]) := by
      rw [mixVariables_eq]; decide
    have := h _ _ (CStr.lit "PATH") _ _ (by decide) hvariant hplain
    revert this
    decide
  · intro h
    have hvariant : (mixExports expandPlain ⟨upperLeaf, [variantRoot]⟩ recordCall []).result =
        some (0, [(⟨CStr.lit "/Data", none, .exportRestricted, none, none⟩,
          ⟨variantRoot, []⟩)]) := by
      rw [mixExports_eq expandPlain (by decide)]; decide
    have hplain : (mixExports expandPlain ⟨upperLeaf, [plainRoot]⟩ recordCall []).result =
        some (0, [(⟨CStr.lit "/data", none, .exportRestricted, none, none⟩,
          ⟨upperLeaf, [plainRoot]⟩)]) := by
      rw [mixExports_eq expandPlain (by decide)]; decide
    have := h _ _ (CStr.lit "/data") _ _ (by decide) hvariant hplain
    revert this
    decide
  · intro h
    obtain ⟨calls', hdoubled⟩ :=
      h _ ⟨doubledLeaf, [plainRoot]⟩ (CStr.lit "PATH") _ (by decide) hplain
    have hrefused : (mixVariables ⟨doubledLeaf, [plainRoot]⟩ recordCall []).result =
        some (-1, []) := by
      rw [mixVariables_eq]; decide
    rw [hrefused] at hdoubled
    cases hdoubled

end Conf
end RedPak
