import RedPak.Wrap.State
import RedPak.Conf.Shares

/-!
# Wrap.Shares

The emission of the merged sharings (`do_unshare`, `set_shares`), the flag of the clone, and what
they mean for a child of a node.

* `unshared_of_disabled`: a disabled namespace is unshared, by `bwrap` or by the clone.
* `namespace_stays_disabled_iff`: when a namespace that is disabled for a node is disabled for its
  child.
-/

namespace RedPak
namespace Wrap

open Conf

variable {ω : Type}

def doUnshare (rs : RedwrapState ω) (setting : Option CStr) (all : RedConfSharing) (unshare : CStr)
    (share : Option CStr) : Except Halt (RedwrapState ω) :=
  match if sharingType setting = .unset then all else sharingType setting with
  | .unset | .disabled => add rs unshare
  | .enabled =>
    match share with
    | some share => add rs share
    | none => .ok rs
  | .join => .ok rs

def shouldUnshare (target all : RedConfSharing) : Bool :=
  target = .disabled || (target = .unset && all ≠ .enabled)

def shouldUnshareTime (time : RedConfSharing) : Bool := time = .disabled || time = .join

/-- The namespaces that `bwrap` unshares. -/
inductive Namespace where
  | user
  | cgroup
  | ipc
  | pid
  | net
deriving DecidableEq

namespace Namespace

def key : Namespace → ShareKey
  | user => .user
  | cgroup => .cgroup
  | ipc => .ipc
  | pid => .pid
  | net => .net

def unshare : Namespace → CStr
  | user => CStr.lit "--unshare-user"
  | cgroup => CStr.lit "--unshare-cgroup"
  | ipc => CStr.lit "--unshare-ipc"
  | pid => CStr.lit "--unshare-pid"
  | net => CStr.lit "--unshare-net"

def share : Namespace → Option CStr
  | net => CStr.lit "--share-net"
  | _ => none

end Namespace

/-- The calls of `do_unshare` in `set_shares`, one after the other. -/
def doUnshares (rs : RedwrapState ω) (shares : RedConfShare) :
    List Namespace → Except Halt (RedwrapState ω)
  | [] => .ok rs
  | ns :: nss =>
    match doUnshare rs (shares.get ns.key) (sharingType shares.all) ns.unshare ns.share with
    | .ok rs => doUnshares rs shares nss
    | .error halt => .error halt

/-- `set_shares`: the user namespace is left to the clone when the time namespace is unshared. -/
def setShares (rs : RedwrapState ω) (shares : RedConfShare) : Except Halt (RedwrapState ω) :=
  let user := if shouldUnshareTime (sharingType shares.time) then [] else [Namespace.user]
  match doUnshares rs shares (user ++ [.cgroup, .ipc, .pid, .net]) with
  | .ok rs => .ok { rs with shares := shares }
  | .error halt => .error halt

/-- The flag `CLONE_NEWUSER` of the clone in `redwrapExecBwrap`. -/
def cloneNewUser (rs : RedwrapState ω) : Bool :=
  shouldUnshareTime (sharingType rs.shares.time) &&
    shouldUnshare (sharingType rs.shares.user) (sharingType rs.shares.all)

/-! ## Disabled namespaces are unshared -/

/-- The type of a namespace in what the merge delivers, `all` being taken into account. -/
def effective (shares : RedConfShare) (ns : Namespace) : RedConfSharing :=
  sharingType (shares.get ns.key)

/-- A namespace is unshared: by an argument of `bwrap` or, for the user namespace, by the clone. -/
def Unshared (rs rs' : RedwrapState ω) (ns : Namespace) : Prop :=
  some ns.unshare ∈ emitted rs rs' ∨ ns = .user ∧ cloneNewUser rs' = true

def unshareArg (shares : RedConfShare) (ns : Namespace) : List (Option CStr) :=
  match if effective shares ns = .unset then sharingType shares.all else effective shares ns with
  | .unset | .disabled => [some ns.unshare]
  | .enabled => ns.share.toList.map some
  | .join => []

theorem doUnshare_eq (shares : RedConfShare) (rs : RedwrapState ω) (ns : Namespace) :
    doUnshare rs (shares.get ns.key) (sharingType shares.all) ns.unshare ns.share =
      addAll rs (unshareArg shares ns) := by
  unfold doUnshare unshareArg effective
  cases if sharingType (shares.get ns.key) = .unset then sharingType shares.all
      else sharingType (shares.get ns.key) with
  | unset => exact (addAll_singleton _ _).symm
  | disabled => exact (addAll_singleton _ _).symm
  | enabled =>
    cases ns.share with
    | none => rfl
    | some share => exact (addAll_singleton _ _).symm
  | join => rfl

theorem doUnshares_eq (shares : RedConfShare) (nss : List Namespace) : ∀ rs : RedwrapState ω,
    doUnshares rs shares nss = addAll rs (nss.flatMap (unshareArg shares)) := by
  induction nss with
  | nil => intro rs; rfl
  | cons ns nss ih =>
    intro rs
    rw [doUnshares, doUnshare_eq, List.flatMap_cons, addAll_append]
    cases addAll rs (unshareArg shares ns) with
    | ok rs => exact ih rs
    | error halt => rfl

/-- The namespaces that `set_shares` has `bwrap` look at. -/
def bwrapNamespaces (shares : RedConfShare) : List Namespace :=
  (if shouldUnshareTime (sharingType shares.time) then [] else [.user]) ++
    [.cgroup, .ipc, .pid, .net]

theorem setShares_eq (rs : RedwrapState ω) (shares : RedConfShare) : setShares rs shares =
    (addAll rs ((bwrapNamespaces shares).flatMap (unshareArg shares)) >>=
      fun rs => .ok { rs with shares := shares }) := by
  rw [← doUnshares_eq]
  simp only [setShares, bwrapNamespaces]
  generalize doUnshares rs shares _ = x
  cases x <;> rfl

theorem setShares_ok {shares : RedConfShare} {rs rs' : RedwrapState ω}
    (h : setShares rs shares = .ok rs') :
    emitted rs rs' = (bwrapNamespaces shares).flatMap (unshareArg shares) ∧
      rs'.shares = shares := by
  rw [setShares_eq] at h
  cases hadd : addAll rs ((bwrapNamespaces shares).flatMap (unshareArg shares)) with
  | error halt => rw [hadd] at h; cases h
  | ok rs₁ =>
    rw [hadd] at h
    cases h
    have harg : emitted rs rs₁ = _ := emitted_addAll hadd
    exact ⟨harg, rfl⟩

theorem unshared_of_disabled {shares : RedConfShare} {rs rs' : RedwrapState ω}
    (h : setShares rs shares = .ok rs') {ns : Namespace} (hns : effective shares ns = .disabled) :
    Unshared rs rs' ns := by
  obtain ⟨harg, hshares⟩ := setShares_ok h
  have hunshare : some ns.unshare ∈ unshareArg shares ns := by simp [unshareArg, hns]
  by_cases hmem : ns ∈ bwrapNamespaces shares
  · exact .inl (harg ▸ List.mem_flatMap.mpr ⟨ns, hmem, hunshare⟩)
  · have htime : shouldUnshareTime (sharingType shares.time) = true := by
      by_contra hfalse
      cases ns <;> simp [bwrapNamespaces, hfalse] at hmem
    have huser : ns = .user := by
      cases ns <;> simp [bwrapNamespaces] at hmem ⊢
    subst huser
    refine .inr ⟨rfl, ?_⟩
    have hd : sharingType shares.user = .disabled := hns
    simp [cloneNewUser, hshares, htime, shouldUnshare, hd]

/-! ## A child of a node -/

theorem effective_fallback (raw : ShareKey → Option CStr) (ns : Namespace) :
    effective (fallback raw) ns = sharingType (raw ns.key <|> raw .all) := by
  cases ns <;> rfl

theorem disabled_child {P : Family} {X : RedNode} (hadmin : (P.child X).NoAdmin)
    (hacc : keysAccepted (P.child X)) {k : ShareKey} {u : CStr}
    (hu : (shareSettings P k).head? = some u) (hdis : sharingType (some u) = .disabled) :
    sharingType (shareSettings (P.child X) k).head? = .disabled := by
  have hmem : u ∈ shareSettings (P.child X) k := by
    rw [shareSettings_child hadmin]
    exact List.mem_append_right _ (List.mem_of_mem_head? hu)
  cases hv : (shareSettings (P.child X) k).head? with
  | none =>
    rw [List.head?_eq_none_iff] at hv
    rw [hv] at hmem
    cases hmem
  | some v =>
    by_contra hne
    have hon := shareOn_of_accepted (hacc k) hv (by simpa [shareOn] using hne) u hmem
    simp [shareOn, hdis] at hon

/-- **Russian dolls.** Without admin configs, a namespace that is disabled for a node is disabled
for its child, and unshared, unless the node disables it through `all` only and the child enables
or joins it. -/
theorem namespace_stays_disabled_iff {P : Family} {X : RedNode} (hadmin : (P.child X).NoAdmin)
    {tagP tagX : RedConfTag} (hP : (mixShares P setConftagShare {}).result = some (0, tagP))
    (hX : (mixShares (P.child X) setConftagShare {}).result = some (0, tagX)) (ns : Namespace) :
    (effective tagP.share ns = .disabled → effective tagX.share ns = .disabled ∧
      ∀ rs rs' : RedwrapState ω, setShares rs tagX.share = .ok rs' → Unshared rs rs' ns) ↔
    ¬ (shareSettings P ns.key = [] ∧
      (∃ v, (shareSettings P .all).head? = some v ∧ sharingType (some v) = .disabled) ∧
      ∃ v, ownShare X ns.key = some v ∧ sharingType (some v) ≠ .disabled) := by
  obtain ⟨-, htagP⟩ := setConftagShare_eq hP
  obtain ⟨haccX, htagX⟩ := setConftagShare_eq hX
  have hchild := fun k => shareSettings_child hadmin k
  constructor
  · rintro hstays ⟨hnone, ⟨v, hall, hdis⟩, u, hown, hne⟩
    have hdown := (hstays (by rw [htagP, effective_fallback, hnone, hall]; exact hdis)).1
    rw [htagX, effective_fallback, hchild, hown] at hdown
    exact hne hdown
  · intro hnot hdis
    suffices heff : effective tagX.share ns = .disabled from
      ⟨heff, fun rs rs' h => unshared_of_disabled h heff⟩
    rw [htagP, effective_fallback] at hdis
    rw [htagX, effective_fallback]
    cases hkey : (shareSettings P ns.key).head? with
    | some u =>
      -- disabled by the key itself
      rw [hkey] at hdis
      have hdown := disabled_child hadmin haccX hkey hdis
      cases hv : (shareSettings (P.child X) ns.key).head? with
      | none => rw [hv] at hdown; cases hdown
      | some v => rw [hv] at hdown; exact hdown
    | none =>
      -- disabled through `all`
      rw [hkey] at hdis
      cases hall : (shareSettings P .all).head? with
      | none => rw [hall] at hdis; cases hdis
      | some v =>
        rw [hall] at hdis
        rw [List.head?_eq_none_iff] at hkey
        have hown : (shareSettings (P.child X) ns.key).head? = ownShare X ns.key := by
          rw [hchild, hkey, List.append_nil]
          cases ownShare X ns.key <;> rfl
        rw [hown]
        cases hu : ownShare X ns.key with
        | none => exact disabled_child hadmin haccX hall hdis
        | some u =>
          by_contra hne
          exact hnot ⟨hkey, ⟨v, hall, hdis⟩, u, hu, hne⟩

/-! ### A child that shares what is disabled -/

def shareNode (share : RedConfShare) : RedNode where
  config := some { headers := { nodeAlias := CStr.lit "node" }, conftag := { share := share } }
  redpath := CStr.lit "/node"

def disablesAll : Family := ⟨shareNode { all := CStr.lit "disabled" }, []⟩
def enablesNet : RedNode := shareNode { net := CStr.lit "enabled" }

def tagDisablesAll : RedConfTag where
  share := fallback fun k => if k = .all then CStr.lit "disabled" else none
def tagEnablesNet : RedConfTag where
  share := { tagDisablesAll.share with net := CStr.lit "enabled" }

theorem mix_disablesAll :
    (mixShares disablesAll setConftagShare {}).result = some (0, tagDisablesAll) := by decide

theorem mix_enablesNet :
    (mixShares (disablesAll.child enablesNet) setConftagShare {}).result =
      some (0, tagEnablesNet) := by decide

theorem namespace_stays_disabled_iff_net :
    (effective tagDisablesAll.share .net = .disabled →
      effective tagEnablesNet.share .net = .disabled ∧
      ∀ rs rs' : RedwrapState Unit, setShares rs tagEnablesNet.share = .ok rs' →
        Unshared rs rs' .net) ↔
    ¬ (shareSettings disablesAll .net = [] ∧
      (∃ v, (shareSettings disablesAll .all).head? = some v ∧
        sharingType (some v) = .disabled) ∧
      ∃ v, ownShare enablesNet .net = some v ∧ sharingType (some v) ≠ .disabled) :=
  namespace_stays_disabled_iff (by decide) mix_disablesAll mix_enablesNet .net

/-- The network is disabled for the node, through `all`, and enabled for its child, and `bwrap` is
told to share it. -/
theorem namespace_enabled_by_child : ∃ rs : RedwrapState Unit,
    (disablesAll.child enablesNet).NoAdmin ∧
    (mixShares disablesAll setConftagShare {}).result = some (0, tagDisablesAll) ∧
    (mixShares (disablesAll.child enablesNet) setConftagShare {}).result =
      some (0, tagEnablesNet) ∧
    effective tagDisablesAll.share .net = .disabled ∧
    effective tagEnablesNet.share .net = .enabled ∧
    setShares (.start (CStr.lit "redwrap") false 0 () disablesAll) tagEnablesNet.share = .ok rs ∧
    some (CStr.lit "--share-net") ∈ rs.argval ∧ some (CStr.lit "--unshare-net") ∉ rs.argval :=
  ⟨_, by decide, mix_disablesAll, mix_enablesNet, by decide, by decide, rfl, by decide, by decide⟩

end Wrap
end RedPak
