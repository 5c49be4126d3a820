import RedPak.Conf.Mix
import RedPak.Layered.Links
import RedPak.Layered.Matrix

/-!
# Conf.Shares

The merge of sharings (`mix_share`, `mix_sharings`, `mixShares`, and `sharing_type` of
`redconf-sharing.c`). Seven settings are merged in one walk, which stops at the first refusal.

* `shareRun_eq`: one key alone is `Layered.mergeClass` on its settings.
* `mixSharesLoop_eq`: the keys do not see each other.
* `mixShares_spec`: unless the merge is refused, every key gets its nearest admin setting or else
  its nearest normal one, and what is shared is disabled by no setting of that kind.
-/

namespace RedPak
namespace Conf

open Layered (Item items walk mergeClass keepsOff)

inductive RedConfSharing where
  | unset
  | disabled
  | enabled
  | join
deriving DecidableEq

def sharingType (value : Option CStr) : RedConfSharing :=
  match value with
  | none => .unset
  | some v =>
    if strcasecmp v (CStr.lit "enabled") = 0 then .enabled
    else if strcasecmp v (CStr.lit "disabled") = 0 then .disabled
    else if strcasecmp v (CStr.lit "unset") = 0 then .unset
    else .join

/-- The keys of `redConfShareT` and `mix_sharings_t`. -/
inductive ShareKey where
  | all
  | user
  | cgroup
  | ipc
  | pid
  | net
  | time
deriving DecidableEq

def ShareKey.name : ShareKey → CStr
  | .all => CStr.lit "all"
  | .user => CStr.lit "user"
  | .cgroup => CStr.lit "cgroup"
  | .ipc => CStr.lit "ipc"
  | .pid => CStr.lit "pid"
  | .net => CStr.lit "net"
  | .time => CStr.lit "time"

/-- All keys, in the order in which `mix_sharings` goes through them. -/
def ShareKey.keys : List ShareKey := [.all, .user, .cgroup, .ipc, .pid, .net, .time]

theorem ShareKey.mem_keys (k : ShareKey) : k ∈ keys := by cases k <;> decide

def RedConfShare.get (s : RedConfShare) : ShareKey → Option CStr
  | .all => s.all
  | .user => s.user
  | .cgroup => s.cgroup
  | .ipc => s.ipc
  | .pid => s.pid
  | .net => s.net
  | .time => s.time

structure MixShare where
  value : Option CStr := none
  type : RedConfSharing := .unset
  admin : Bool := false
  node : Option Family := none

/-- `mix_sharings_t`, as `init_mix_sharings` leaves it. -/
structure MixSharings where
  all : MixShare := {}
  user : MixShare := {}
  cgroup : MixShare := {}
  ipc : MixShare := {}
  pid : MixShare := {}
  net : MixShare := {}
  time : MixShare := {}

namespace MixSharings

def get (s : MixSharings) : ShareKey → MixShare
  | .all => s.all
  | .user => s.user
  | .cgroup => s.cgroup
  | .ipc => s.ipc
  | .pid => s.pid
  | .net => s.net
  | .time => s.time

def set (s : MixSharings) (k : ShareKey) (x : MixShare) : MixSharings :=
  match k with
  | .all => { s with all := x }
  | .user => { s with user := x }
  | .cgroup => { s with cgroup := x }
  | .ipc => { s with ipc := x }
  | .pid => { s with pid := x }
  | .net => { s with net := x }
  | .time => { s with time := x }

@[simp] theorem get_set_self (s : MixSharings) (k : ShareKey) (x : MixShare) :
    (s.set k x).get k = x := by
  cases k <;> rfl

theorem get_set_ne (s : MixSharings) {k k' : ShareKey} (x : MixShare) (h : k' ≠ k) :
    (s.set k x).get k' = s.get k' := by
  cases k <;> cases k' <;> first | rfl | exact absurd rfl h

end MixSharings

def mixSharingsGet (s : MixSharings) : RedConfShare where
  all := s.all.value
  user := s.user.value <|> s.all.value
  cgroup := s.cgroup.value <|> s.all.value
  ipc := s.ipc.value <|> s.all.value
  pid := s.pid.value <|> s.all.value
  net := s.net.value <|> s.all.value
  time := s.time.value

/-- `strcasecmp(value, share->value) == 0`, for values that are there. -/
def sameValue (a b : Option CStr) : Bool :=
  match a, b with
  | some x, some y => strcasecmp x y == 0
  | _, _ => false

/-- `mix_share`: the share, unless it is refused, and the log. -/
def mixShare (share : MixShare) (value : Option CStr) (node : Family) (admin : Bool)
    (name : CStr) : Option MixShare × List LogEntry :=
  let type := sharingType value
  if type = .unset then (some share, [])
  else if share.type = .unset ∨ (admin ∧ ¬ share.admin) then
    (some ⟨value, type, admin, some node⟩, [])
  else if ¬ admin ∧ share.admin then (some share, [])
  else if share.type = type ∧ (type ≠ .join ∨ sameValue value share.value) then (some share, [])
  else if type ≠ .disabled then (some share, [])
  else
    (none, [⟨.error, "Can't share %s in %s%s because forbidden in %s%s",
      [name] ++ (share.node.map (·.node.redpath)).toList ++ [adminMark admin,
        node.node.redpath, adminMark admin]⟩])

/-- `mix_sharings`, from a key on: the first refusal ends it. -/
def mixSharingsFrom (consha : RedConfShare) (node : Family) (admin : Bool) :
    List ShareKey → MixSharings → Option MixSharings × List LogEntry
  | [], sharings => (some sharings, [])
  | k :: ks, sharings =>
    match mixShare (sharings.get k) (consha.get k) node admin k.name with
    | (some share, _) => mixSharingsFrom consha node admin ks (sharings.set k share)
    | (none, log) => (none, log)

def mixSharings (sharings : MixSharings) (consha : RedConfShare) (node : Family) (admin : Bool) :
    Option MixSharings × List LogEntry :=
  mixSharingsFrom consha node admin ShareKey.keys sharings

/-- One config of a node, if it is there. -/
def mixConfig (sharings : MixSharings) (node : Family) (admin : Bool) :
    Option MixSharings × List LogEntry :=
  match node.conf admin with
  | some config => mixSharings sharings config.conftag.share node admin
  | none => (some sharings, [])

/-- The loop of `mixShares` over the nodes. -/
def mixSharesLoop : List Family → MixSharings → Option MixSharings × List LogEntry
  | [], sharings => (some sharings, [])
  | node :: nodes, sharings =>
    match mixConfig sharings node true with
    | (none, log) => (none, log)
    | (some sharings, _) =>
      match mixConfig sharings node false with
      | (none, log) => (none, log)
      | (some sharings, _) => mixSharesLoop nodes sharings

abbrev MixShareCb (σ : Type*) := σ → RedConfShare → Int × σ

def mixShares {σ : Type*} (node : Family) (callback : MixShareCb σ) (closure : σ) : Outcome σ :=
  match mixSharesLoop node.toRoot {} with
  | (none, log) => .ret (-1) closure log
  | (some sharings, log) =>
    let (rc, closure) := callback closure (mixSharingsGet sharings)
    .ret rc closure log

/-! ## One key -/

/-- The setting of a key in a config of a node, unless it is unset. -/
def shareSetting (k : ShareKey) (admin : Bool) (f : Family) : Option CStr :=
  ((f.conf admin).bind (·.conftag.share.get k)).filter fun v => sharingType (some v) ≠ .unset

/-- Is a setting something else than disabled? -/
def shareOn (v : CStr) : Bool := sharingType (some v) != .disabled

/-- What `mix_share` records for a link. -/
def shareOf : Option (Layered.Link Family CStr) → MixShare
  | none => {}
  | some l => ⟨some l.cur.val, sharingType (some l.cur.val), l.cur.strong, some l.cur.level⟩

theorem mixShare_unset {value : Option CStr} (h : sharingType value = .unset) (share : MixShare)
    (node : Family) (admin : Bool) (name : CStr) :
    (mixShare share value node admin name).1 = some share := by
  simp [mixShare, h]

theorem mixShare_same_kind {near far : CStr} (hnear : sharingType (some near) ≠ .unset)
    (hfar : sharingType (some far) ≠ .unset) (admin : Bool) (f node : Family) (name : CStr) :
    (mixShare ⟨some near, sharingType (some near), admin, some f⟩ (some far) node admin name).1 =
      if keepsOff shareOn near far
      then some ⟨some near, sharingType (some near), admin, some f⟩ else none := by
  unfold mixShare keepsOff shareOn
  cases hn : sharingType (some near) <;> cases hf : sharingType (some far) <;>
    cases admin <;> simp_all

theorem mixShare_eq {l? : Option (Layered.Link Family CStr)} {e : Item Family CStr}
    (he : sharingType (some e.val) ≠ .unset)
    (hl : ∀ l ∈ l?, l.cur.Before e ∧ sharingType (some l.cur.val) ≠ .unset) (name : CStr) :
    (mixShare (shareOf l?) (some e.val) e.level e.strong name).1 =
      (Layered.meetLink (keepsOff shareOn) (keepsOff shareOn) l? e).map (shareOf ∘ some) := by
  cases l? with
  | none => simp [mixShare, shareOf, he, Layered.meetLink]
  | some l =>
    obtain ⟨hb, hset⟩ := hl l rfl
    simp only [Layered.meetLink, Layered.Link.meet, Layered.meet_eq _ _ hb, Layered.agrees,
      Layered.supersede, ite_self]
    cases hs : e.strong <;> cases hc : l.cur.strong
    · have := mixShare_same_kind hset he false l.cur.level e.level name
      cases hk : keepsOff shareOn l.cur.val e.val <;> simp [shareOf, hc, this, hk]
    · simp [mixShare, shareOf, he, hset, hc]
    · simp [mixShare, shareOf, he, hset, hc, hs]
    · have := mixShare_same_kind hset he true l.cur.level e.level name
      cases hk : keepsOff shareOn l.cur.val e.val <;> simp [shareOf, hc, this, hk]

/-- The settings of one key, run alone from a node to the root. -/
def shareRun (k : ShareKey) : List Family → MixShare → Option MixShare
  | [], share => some share
  | f :: fs, share =>
    match (mixShare share ((f.conf true).bind (·.conftag.share.get k)) f true k.name).1 with
    | none => none
    | some share =>
      match (mixShare share ((f.conf false).bind (·.conftag.share.get k)) f false k.name).1 with
      | none => none
      | some share => shareRun k fs share

/-- The setting that counts lies nearer than depth `d`, and is none that is ignored. -/
def SetWithin (d : Nat) (l? : Option (Layered.Link Family CStr)) : Prop :=
  ∀ l ∈ l?, l.cur.depth < d ∧ sharingType (some l.cur.val) ≠ .unset

theorem mixShare_conf (k : ShareKey) (admin : Bool) (f : Family) {d : Nat}
    {l? : Option (Layered.Link Family CStr)} (hl : SetWithin (if admin then d else d + 1) l?)
    (es : List (Item Family CStr)) :
    ((mixShare (shareOf l?) ((f.conf admin).bind (·.conftag.share.get k)) f admin k.name).1 = none ∧
      mergeClass (keepsOff shareOn) (keepsOff shareOn) l?
        (items d admin f (shareSetting k admin f).toList ++ es) = none) ∨
    ∃ l', (mixShare (shareOf l?) ((f.conf admin).bind (·.conftag.share.get k)) f admin k.name).1 =
        some (shareOf l') ∧
      mergeClass (keepsOff shareOn) (keepsOff shareOn) l?
        (items d admin f (shareSetting k admin f).toList ++ es) =
          mergeClass (keepsOff shareOn) (keepsOff shareOn) l' es ∧
      SetWithin (d + 1) l' := by
  have hle : SetWithin (d + 1) l? := by
    intro l h
    refine ⟨?_, (hl l h).2⟩
    have := (hl l h).1
    split at this <;> omega
  cases hval : (f.conf admin).bind (·.conftag.share.get k) with
  | none =>
    have hs : shareSetting k admin f = none := by simp [shareSetting, hval]
    exact .inr ⟨l?, mixShare_unset rfl _ _ _ _, by simp [hs], hle⟩
  | some v =>
    by_cases hv : sharingType (some v) = .unset
    · have hs : shareSetting k admin f = none := by simp [shareSetting, hval, hv]
      exact .inr ⟨l?, mixShare_unset hv _ _ _ _, by simp [hs], hle⟩
    · have hs : shareSetting k admin f = some v := by simp [shareSetting, hval, hv]
      have hbefore : ∀ l ∈ l?, l.cur.Before ⟨d, admin, f, v⟩ := by
        intro l h
        have := (hl l h).1
        cases admin
        · rcases Nat.lt_succ_iff_lt_or_eq.mp this with h | h
          · exact .inl h
          · exact .inr ⟨h, fun ht => absurd ht Bool.false_ne_true⟩
        · exact .inl this
      have hmix := mixShare_eq (e := ⟨d, admin, f, v⟩) hv
        (fun l h => ⟨hbefore l h, (hl l h).2⟩) k.name
      simp only [hs, Option.toList_some, Layered.items_cons, Layered.items_nil,
        List.singleton_append, Layered.mergeClass_cons]
      cases hm : Layered.meetLink (keepsOff shareOn) (keepsOff shareOn) l? ⟨d, admin, f, v⟩ with
      | none => rw [hm] at hmix; exact .inl ⟨hmix, rfl⟩
      | some l' =>
        rw [hm] at hmix
        refine .inr ⟨some l', hmix, rfl, fun x hx => ?_⟩
        obtain rfl := Option.some.inj hx
        rcases Layered.meetLink_cur _ _ hm with hcur | ⟨l, hl', hcur⟩
        · rw [hcur]; exact ⟨Nat.lt_succ_self d, hv⟩
        · rw [hcur]; exact hle l hl'

theorem shareRun_eq (k : ShareKey) (fs : List Family) :
    ∀ {d : Nat} {l? : Option (Layered.Link Family CStr)}, SetWithin d l? →
      shareRun k fs (shareOf l?) = (mergeClass (keepsOff shareOn) (keepsOff shareOn) l?
        (walk (fun f => (shareSetting k true f).toList) (fun f => (shareSetting k false f).toList)
          d fs)).map shareOf := by
  induction fs with
  | nil => intro d l? _; simp [shareRun, walk]
  | cons f fs ih =>
    intro d l? hl
    simp only [shareRun, walk]
    rcases mixShare_conf k true f hl _ with ⟨hmix, hclass⟩ | ⟨l', hmix, hclass, hl'⟩
    · rw [hmix, hclass]; rfl
    · rw [hmix, hclass]
      dsimp only
      rcases mixShare_conf k false f hl' _ with ⟨hmix', hclass'⟩ | ⟨l'', hmix', hclass', hl''⟩
      · rw [hmix', hclass']; rfl
      · rw [hmix', hclass']
        exact ih hl''

/-! ## All keys -/

/-- The outcome of a run over all keys: each key goes its own way, and one refusal is enough. -/
def RunsTo (one : ShareKey → Option MixShare) : Option MixSharings → Prop
  | none => ∃ k, one k = none
  | some sharings => ∀ k, one k = some (sharings.get k)

theorem mixSharingsFrom_eq (consha : RedConfShare) (node : Family) (admin : Bool)
    (ks : List ShareKey) (hks : ks.Nodup) : ∀ sharings : MixSharings,
    RunsTo (fun k => if k ∈ ks then
        (mixShare (sharings.get k) (consha.get k) node admin k.name).1 else some (sharings.get k))
      (mixSharingsFrom consha node admin ks sharings).1 := by
  induction ks with
  | nil => intro sharings; simp [RunsTo, mixSharingsFrom]
  | cons k ks ih =>
    intro sharings
    obtain ⟨hk, hks⟩ := List.nodup_cons.mp hks
    simp only [mixSharingsFrom]
    cases hm : mixShare (sharings.get k) (consha.get k) node admin k.name with
    | mk share? log =>
      cases share? with
      | none => exact ⟨k, by simp [hm]⟩
      | some share =>
        -- what the other keys do does not depend on the new share of `k`
        have hother : ∀ k', k' ≠ k → (sharings.set k share).get k' = sharings.get k' :=
          fun k' h => sharings.get_set_ne share h
        have hone : (fun k' => if k' ∈ ks then (mixShare ((sharings.set k share).get k')
            (consha.get k') node admin k'.name).1 else some ((sharings.set k share).get k')) =
            fun k' => if k' ∈ k :: ks then (mixShare (sharings.get k') (consha.get k') node admin
              k'.name).1 else some (sharings.get k') := by
          funext k'
          by_cases hkk : k' = k
          · subst hkk; simp [hk, hm]
          · simp [hkk, hother k' hkk]
        have := ih hks (sharings.set k share)
        rwa [hone] at this

theorem mixSharings_eq (consha : RedConfShare) (node : Family) (admin : Bool)
    (sharings : MixSharings) :
    RunsTo (fun k => (mixShare (sharings.get k) (consha.get k) node admin k.name).1)
      (mixSharings sharings consha node admin).1 := by
  have h := mixSharingsFrom_eq consha node admin ShareKey.keys (by decide) sharings
  simp only [ShareKey.mem_keys, if_true] at h
  exact h

theorem mixConfig_eq (node : Family) (admin : Bool) (sharings : MixSharings) :
    RunsTo (fun k => (mixShare (sharings.get k)
        ((node.conf admin).bind (·.conftag.share.get k)) node admin k.name).1)
      (mixConfig sharings node admin).1 := by
  unfold mixConfig
  cases hc : node.conf admin with
  | none => exact fun k => mixShare_unset rfl _ _ _ _
  | some config => exact mixSharings_eq config.conftag.share node admin sharings

theorem mixSharesLoop_eq (fs : List Family) : ∀ sharings : MixSharings,
    RunsTo (fun k => shareRun k fs (sharings.get k)) (mixSharesLoop fs sharings).1 := by
  induction fs with
  | nil => intro sharings k; rfl
  | cons f fs ih =>
    intro sharings
    have hadmin := mixConfig_eq f true sharings
    simp only [mixSharesLoop]
    rcases hc : mixConfig sharings f true with ⟨_ | sharings', log⟩
    all_goals rw [hc] at hadmin
    · obtain ⟨k, hk⟩ := hadmin
      exact ⟨k, by simp only [shareRun, hk]⟩
    · have hnormal := mixConfig_eq f false sharings'
      dsimp only
      rcases hc' : mixConfig sharings' f false with ⟨_ | sharings'', log'⟩
      all_goals rw [hc'] at hnormal
      · obtain ⟨k, hk⟩ := hnormal
        exact ⟨k, by simp only [shareRun, hadmin k, hk]⟩
      · have hone : (fun k => shareRun k (f :: fs) (sharings.get k)) =
            fun k => shareRun k fs (sharings''.get k) := by
          funext k
          simp only [shareRun, hadmin k, hnormal k]
        rw [hone]
        exact ih sharings''

def shareItems (node : Family) (k : ShareKey) : List (Item Family CStr) :=
  walk (fun f => (shareSetting k true f).toList) (fun f => (shareSetting k false f).toList) 0
    node.toRoot

theorem shareItems_before (node : Family) (k : ShareKey) :
    (shareItems node k).Pairwise Item.Before := Layered.walk_before _ _

/-- **The loop over the nodes.** Every key is `Layered.mergeClass` on its settings. -/
theorem mixShares_keys (node : Family) :
    RunsTo (fun k => (mergeClass (keepsOff shareOn) (keepsOff shareOn) none
      (shareItems node k)).map shareOf) (mixSharesLoop node.toRoot {}).1 := by
  have h := mixSharesLoop_eq node.toRoot {}
  have hone : (fun k => shareRun k node.toRoot (MixSharings.get {} k)) = fun k =>
      (mergeClass (keepsOff shareOn) (keepsOff shareOn) none (shareItems node k)).map shareOf := by
    funext k
    have hget : MixSharings.get {} k = shareOf none := by cases k <;> rfl
    rw [hget]
    exact shareRun_eq k node.toRoot (d := 0) (fun l hl => by cases hl)
  rwa [hone] at h

/-! ## The whole merge -/

/-- The settings of a key that count, nearest first: those of the admin configs if there is one,
otherwise those of the normal configs. -/
def shareSettings (node : Family) (k : ShareKey) : List CStr :=
  if node.toRoot.filterMap (shareSetting k true) = [] then
    node.toRoot.filterMap (shareSetting k false)
  else node.toRoot.filterMap (shareSetting k true)

/-- What is delivered for the merged settings: all but `time` fall back to `all`. -/
def fallback (raw : ShareKey → Option CStr) : RedConfShare where
  all := raw .all
  user := raw .user <|> raw .all
  cgroup := raw .cgroup <|> raw .all
  ipc := raw .ipc <|> raw .all
  pid := raw .pid <|> raw .all
  net := raw .net <|> raw .all
  time := raw .time

theorem shareSettings_eq (node : Family) (k : ShareKey) :
    shareSettings node k = (Layered.counting (shareItems node k)).map (·.val) := by
  have hkind : ∀ admin, ((shareItems node k).filter (fun i => i.strong == admin)).map (·.val) =
      node.toRoot.filterMap (shareSetting k admin) := by
    intro admin
    have h := congrArg (List.map Prod.snd) (Layered.walk_filter_strong
      (s := fun f => (shareSetting k true f).toList) (w := fun f => (shareSetting k false f).toList)
      admin node.toRoot 0)
    rw [List.map_map, List.map_flatMap] at h
    rw [List.filterMap_eq_flatMap_toList]
    refine Eq.trans h ?_
    cases admin <;> simp [Function.comp_def]
  simp only [shareSettings, Layered.counting, ← hkind, List.map_eq_nil_iff]
  split <;> rfl

theorem shareOf_value {node : Family} {k : ShareKey} {share : MixShare}
    (h : (mergeClass (keepsOff shareOn) (keepsOff shareOn) none (shareItems node k)).map shareOf =
      some share) :
    Layered.accepted (keepsOff shareOn) (keepsOff shareOn) (shareItems node k) = true ∧
      share.value = (shareSettings node k).head? := by
  rw [Layered.mergeClass_eq _ _ (shareItems_before node k)] at h
  split at h
  · rename_i hacc
    refine ⟨hacc, ?_⟩
    rw [Option.map_some, Option.some.injEq] at h
    rw [shareSettings_eq, List.head?_map, ← Layered.decisive_eq_head?, ← h]
    cases hs : Layered.settled (shareItems node k) with
    | none =>
      rw [Layered.settled_eq_none] at hs
      rw [hs]; rfl
    | some l =>
      rw [(Layered.settled_eq_some.mp hs).2]; rfl
  · cases h

theorem shareOn_of_accepted {node : Family} {k : ShareKey}
    (h : Layered.accepted (keepsOff shareOn) (keepsOff shareOn) (shareItems node k) = true)
    {v : CStr} (hv : (shareSettings node k).head? = some v) (hon : shareOn v = true) :
    ∀ u ∈ shareSettings node k, shareOn u = true := by
  rw [shareSettings_eq] at hv ⊢
  rw [List.head?_map, ← Layered.decisive_eq_head?, Option.map_eq_some_iff] at hv
  obtain ⟨c, hc, rfl⟩ := hv
  intro u hu
  obtain ⟨e, he, rfl⟩ := List.mem_map.mp hu
  obtain ⟨hmem, hs⟩ := Layered.mem_counting hc he
  rcases Layered.agrees_of_accepted _ _ h hc hmem hs with rfl | hag
  · exact hon
  · simpa [Layered.agrees, hs, keepsOff, hon] using hag

def keysAccepted (node : Family) : Prop :=
  ∀ k, Layered.accepted (keepsOff shareOn) (keepsOff shareOn) (shareItems node k) = true

theorem mixShares_cases {σ : Type*} (node : Family) (callback : MixShareCb σ) (closure : σ) :
    keysAccepted node ∧ (mixShares node callback closure).result =
      some (callback closure (fallback fun k => (shareSettings node k).head?)) ∨
    ¬ keysAccepted node ∧ (mixShares node callback closure).result = some (-1, closure) := by
  have hkeys := mixShares_keys node
  rcases hrun : mixSharesLoop node.toRoot {} with ⟨_ | sharings, log⟩
  · rw [hrun] at hkeys
    obtain ⟨k, hk⟩ := hkeys
    refine .inr ⟨fun hacc => ?_, by simp [mixShares, hrun, Outcome.result]⟩
    have hk' := Option.map_eq_none_iff.mp hk
    rw [Layered.mergeClass_eq _ _ (shareItems_before node k), if_pos (hacc k)] at hk'
    cases hk'
  · rw [hrun] at hkeys
    refine .inl ⟨fun k => (shareOf_value (hkeys k)).1, ?_⟩
    have hvalue : ∀ k, (sharings.get k).value = (shareSettings node k).head? :=
      fun k => (shareOf_value (hkeys k)).2
    have hget : mixSharingsGet sharings = fallback fun k => (shareSettings node k).head? := by
      simp only [fallback, ← hvalue]; rfl
    simp [mixShares, hrun, Outcome.result, hget]

def sharesRefused (node : Family) : Prop :=
  (mixShares node (fun c _ => (0, c)) ()).result = some (-1, ())

instance (node : Family) : Decidable (sharesRefused node) :=
  inferInstanceAs (Decidable (_ = some _))

theorem sharesRefused_iff_keys (node : Family) : sharesRefused node ↔ ¬ keysAccepted node := by
  rcases mixShares_cases node (fun c _ => (0, c)) () with ⟨hacc, h⟩ | ⟨hacc, h⟩
  · exact ⟨fun hr => by rw [sharesRefused, h] at hr; simp at hr, fun hr => absurd hacc hr⟩
  · exact ⟨fun _ => hacc, fun _ => h⟩

theorem sharesRefused_iff (node : Family) : sharesRefused node ↔
    ∃ k, mergeClass (keepsOff shareOn) (keepsOff shareOn) none (shareItems node k) = none := by
  have hclass : ∀ k,
      mergeClass (keepsOff shareOn) (keepsOff shareOn) none (shareItems node k) = none ↔
        ¬ Layered.accepted (keepsOff shareOn) (keepsOff shareOn) (shareItems node k) = true := by
    intro k
    rw [Layered.mergeClass_eq _ _ (shareItems_before node k)]
    split <;> simp_all
  simp only [hclass, ← not_forall]
  exact sharesRefused_iff_keys node

/-- **Sharings.** Unless the merge is refused, every key gets its nearest admin setting or, without
one, its nearest normal setting. When this enables or joins, no setting of the key of that kind
disables. -/
theorem mixShares_spec {σ : Type*} (node : Family) :
    (∀ (callback : MixShareCb σ) (closure : σ),
      (mixShares node callback closure).result = some (-1, closure)) ∨
    (∀ k v, (shareSettings node k).head? = some v → sharingType (some v) ≠ .disabled →
      ∀ u ∈ shareSettings node k, sharingType (some u) ≠ .disabled) ∧
    ∀ (callback : MixShareCb σ) (closure : σ), (mixShares node callback closure).result =
      some (callback closure (fallback fun k => (shareSettings node k).head?)) := by
  by_cases hacc : keysAccepted node
  · refine .inr ⟨fun k v hv hne u hu => ?_, fun callback closure => ?_⟩
    · have hon : shareOn v = true := by simpa [shareOn] using hne
      have := shareOn_of_accepted (hacc k) hv hon u hu
      simpa [shareOn] using this
    · rcases mixShares_cases node callback closure with ⟨-, h⟩ | ⟨hnot, -⟩
      · exact h
      · exact absurd hacc hnot
  · refine .inl fun callback closure => ?_
    rcases mixShares_cases node callback closure with ⟨hacc', -⟩ | ⟨-, h⟩
    · exact absurd hacc' hacc
    · exact h

/-! ## Into the merged tag -/

def setConftagShare : MixShareCb RedConfTag := fun conftag shares =>
  (0, { conftag with share := shares })

theorem setConftagShare_eq {node : Family} {tag : RedConfTag}
    (h : (mixShares node setConftagShare {}).result = some (0, tag)) :
    keysAccepted node ∧ tag.share = fallback fun k => (shareSettings node k).head? := by
  rcases mixShares_cases node setConftagShare {} with ⟨hacc, hrun⟩ | ⟨-, hrun⟩
  · rw [hrun] at h
    obtain rfl := congrArg Prod.snd (Option.some.inj h)
    exact ⟨hacc, rfl⟩
  · rw [hrun] at h; cases h

/-! ## Without admin configs -/

theorem shareSettings_noAdmin {node : Family} (h : node.NoAdmin) (k : ShareKey) :
    shareSettings node k = node.toRoot.filterMap (shareSetting k false) := by
  have hadmin : node.toRoot.filterMap (shareSetting k true) = [] := by
    rw [List.filterMap_eq_nil_iff]
    intro f hf
    simp [shareSetting, Family.conf, h f hf]
  rw [shareSettings, if_pos hadmin]

/-- The setting of a key in the normal config of a node, unless it is unset. -/
def ownShare (n : RedNode) (k : ShareKey) : Option CStr :=
  (n.config.bind (·.conftag.share.get k)).filter fun v => sharingType (some v) ≠ .unset

theorem shareSettings_child {node : Family} {n : RedNode} (h : (node.child n).NoAdmin)
    (k : ShareKey) :
    shareSettings (node.child n) k = (ownShare n k).toList ++ shareSettings node k := by
  have hown : shareSetting k false (node.child n) = ownShare n k := rfl
  rw [shareSettings_noAdmin h, shareSettings_noAdmin h.parent, Family.toRoot_child,
    List.filterMap_cons, hown]
  cases ownShare n k <;> rfl

end Conf
end RedPak
