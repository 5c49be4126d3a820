import RedPak.Conf.MixSpec

/-!
# Conf.Variables

The merge of environment variables (`mergeConfVar`, `mixVariables`).

* `mixVariables_eq`: the merge is refused, or hands its links to the callback.
* `mixVariables_spec`: without doubled definitions it is not refused, and every key is delivered
  once, with its nearest admin definition or else its nearest normal one.
* `mergeVarCb_eq`: the variables of the merged node are those delivered.
-/

namespace RedPak
namespace Conf

open Layered (deliver StopsAtFirst)

abbrev MixVarCb (σ : Type*) := σ → RedConfVar → Family → Nat → Nat → Int × σ

/-- `link->var->mode != dvar->mode || (...->value != NULL && ... && strcmp(...) != 0)` -/
def varsDiffer (a b : RedConfVar) : Bool :=
  a.mode != b.mode ||
    match a.value, b.value with
    | some x, some y => strcmp x y != 0
    | _, _ => false

def mixVar : Mix RedConfVar RedConfVar where
  what := "Variable"
  defs := (·.confvar)
  inherited _ := true
  name _ d := some d.key
  linkName v := some v.key
  record d _ := d
  replace _ d := d
  differs := varsDiffer
  forbids _ _ := false
  warn := (·.warn)
  shown := (·.key)
  shownTwice _ d := d.key

variable {σ : Type*}

/-- The callback loop at the end of `mergeConfVar`. -/
def mixVarEnd (callback : MixVarCb σ) : MixEnd RedConfVar σ := fun count head closure =>
  deliver (fun c link index count => callback c link.held link.node index count)
    count 0 head closure

def mergeConfVar (callback : MixVarCb σ) (merger : MixRoot RedConfVar σ) (node : Family)
    (admin : Bool) (index depth : Nat) : Outcome σ :=
  mixVar.mergeConf (mixVarEnd callback) merger node admin index depth

def mixVariables (node : Family) (callback : MixVarCb σ) (closure : σ) : Outcome σ :=
  mergeConfVar callback ⟨0, [], closure, []⟩ node true 0 0

/-- A link holds the definition that counts. -/
def mixVarLaw : mixVar.Lawful where
  dupOk a b := !varsDiffer a b
  overOk _ _ := true
  held l := l.cur.val
  record_eq _ := rfl
  replace_eq _ _ := rfl
  differs_eq _ _ := (Bool.not_not _).symm
  forbids_eq _ _ := rfl
  linkName_eq _ h := h

theorem mixVariables_eq (node : Family) (callback : MixVarCb σ) (closure : σ) :
    (mixVariables node callback closure).result =
      match mixVarLaw.links node with
      | none => some (-1, closure)
      | some ls => some (deliver (fun c p index count => callback c p.1 p.2 index count) ls.length 0
          (ls.map fun l => (l.cur.val, l.cur.level)) closure) := by
  have hcomp : mixVar.Comparable node := .inl fun _ _ _ _ _ => rfl
  have h := mixVarLaw.mixConf_eq (mixVarEnd callback) hcomp closure
  rw [show mixVariables node callback closure = mixVar.mixConf (mixVarEnd callback) node closure
    from rfl, h]
  cases mixVarLaw.links node with
  | none => rfl
  | some ls => simp only [mixVarEnd, Layered.deliver_map]; rfl

/-- **Variables.** When no config defines a key twice, the merge delivers every key once, with its
nearest admin definition or, without one, its nearest normal definition, and with the node of
that definition; the first value other than 0 stops the calls and is the result. -/
theorem mixVariables_spec (node : Family) (hdup : mixVar.Distinct node) :
    ∃ calls : List (RedConfVar × Family),
      (calls.map fun p => some p.1.key.folded).Perm (mixVar.names node).dedup ∧
      (∀ p ∈ calls, (mixVar.deciding node (some p.1.key.folded)).head? = some (p.2, p.1)) ∧
      ∀ (callback : MixVarCb σ) (closure : σ),
        let callback' := fun c (p : RedConfVar × Family) index count =>
          callback c p.1 p.2 index count
        let result := deliver callback' calls.length 0 calls closure
        (mixVariables node callback closure).result = some result ∧
          StopsAtFirst callback' calls.length 0 calls closure result := by
  obtain ⟨ls, hls⟩ := mixVarLaw.links_isSome.mpr
    fun k => mixVarLaw.acceptedName_of_distinct hdup (fun _ _ => rfl) k
  obtain ⟨hnames, hvalues⟩ := (Mix.Lawful.holds_of_links mixVarLaw hls).calls (List.Perm.refl ls)
  refine ⟨_, hnames, hvalues, fun callback closure => ⟨?_, Layered.deliver_spec _ _ _ _ _⟩⟩
  rw [mixVariables_eq, hls, List.length_map]

/-- The variables that are delivered are those that count. -/
theorem mem_mixVariables {node : Family} {calls : List (RedConfVar × Family)}
    (h : (mixVariables node recordCall []).result = some (0, calls)) {p : RedConfVar × Family} :
    p ∈ calls ↔ ∃ k, (mixVar.deciding node k).head? = some (p.2, p.1) := by
  rw [mixVariables_eq] at h
  cases hls : mixVarLaw.links node with
  | none => rw [hls] at h; cases h
  | some ls =>
    rw [hls] at h
    simp only [deliver_recordCall, Option.some.injEq, Prod.mk.injEq, true_and] at h
    subst h
    have hholds := Mix.Lawful.holds_of_links mixVarLaw hls
    constructor
    · intro hp
      exact ⟨_, (hholds.calls (List.Perm.refl ls)).2 p hp⟩
    · rintro ⟨k, hk⟩
      obtain ⟨l, hl, rfl⟩ := hholds.exists_link hk
      rw [hholds.value l hl, Option.some.injEq, Prod.mk.injEq] at hk
      exact List.mem_map.mpr ⟨l, hl, Prod.ext hk.2 hk.1⟩

theorem mixVariables_accepted {node : Family} :
    (∃ calls, (mixVariables node recordCall []).result = some (0, calls)) ↔
      ∀ k, mixVarLaw.acceptedName node k = true := by
  rw [← mixVarLaw.links_isSome, mixVariables_eq]
  cases mixVarLaw.links node with
  | none => simp
  | some ls => simp [deliver_recordCall]

/-- `mixvar_cb` of `redconf-merge.c`: the variables of the merged node, with the entry at `index`
written. -/
def mergeVarCb : MixVarCb (List RedConfVar) := fun vars var _ index _ =>
  (0, vars.take index ++ [var])

/-- The merged node has the variables that are delivered. -/
theorem mergeVarCb_eq {node : Family} {calls : List (RedConfVar × Family)}
    (h : (mixVariables node recordCall []).result = some (0, calls)) :
    (mixVariables node mergeVarCb []).result = some (0, calls.map (·.1)) := by
  rw [mixVariables_eq] at h ⊢
  cases hls : mixVarLaw.links node with
  | none => rw [hls] at h; cases h
  | some ls =>
    rw [hls] at h
    simp only [deliver_recordCall, Option.some.injEq, Prod.mk.injEq, true_and] at h
    subst h
    have hfill := Layered.deliver_fill id (fun _ l => l) (fun _ _ => rfl) (fun _ _ _ => rfl)
      (fun _ => rfl) (fun p : RedConfVar × Family => p.1)
      (ls.map fun l => (l.cur.val, l.cur.level)) ls.length 0 [] rfl
    exact congrArg some hfill

def varFamily : Family where
  node := {
    config := some {
      headers := { nodeAlias := CStr.lit "leaf" }
      confvar := [{ key := CStr.lit "PATH", value := CStr.lit "/bin" },
        { key := CStr.lit "HOME", value := CStr.lit "/home" }] }
    redpath := CStr.lit "/root/leaf" }
  parents := [{
    config := none
    confadmin := some {
      headers := { nodeAlias := CStr.lit "root" }
      confvar := [{ key := CStr.lit "PATH", value := CStr.lit "/usr/bin" }] }
    redpath := CStr.lit "/root" }]

theorem mixVariables_spec_varFamily :
    ∃ calls : List (RedConfVar × Family),
      (calls.map fun p => some p.1.key.folded).Perm (mixVar.names varFamily).dedup ∧
      (∀ p ∈ calls, (mixVar.deciding varFamily (some p.1.key.folded)).head? = some (p.2, p.1)) ∧
      ∀ (callback : MixVarCb Nat) (closure : Nat),
        let callback' := fun c (p : RedConfVar × Family) index count =>
          callback c p.1 p.2 index count
        let result := deliver callback' calls.length 0 calls closure
        (mixVariables varFamily callback closure).result = some result ∧
          StopsAtFirst callback' calls.length 0 calls closure result :=
  mixVariables_spec varFamily (by decide)

end Conf
end RedPak
