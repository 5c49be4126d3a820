import RedPak.Conf.StoredSpec

/-!
# Conf.StoredRefines

The expansion with its arrays and the one whose output is a list of bytes: they end alike, and the
array holds the list.

* `defaultsExpand_outcome`: the list gets what the tokens are replaced by.
* `defaultsExpand_refines`: the two models of `defaultsExpand`.
-/

namespace RedPak
namespace Conf
namespace Stored

open Layered.Buffer (slice)
open Layered.Expansion

/-! ## Default values -/

/-- The entry with its callback as a function of the size. -/
def Vardef.plain (d : Vardef) : VarDef where
  key := d.key
  callback :=
    match d.callback with
    | .getEnviron => Conf.getEnviron d.key d.svalue
    | .getString => Conf.getString (d.svalue.getD (.lit ""))
    | .getCgroupRoot => Conf.getCgroupRoot
    | .getPid => Conf.getPid
    | .getUid => Conf.getUid
    | .getGid => Conf.getGid
    | .getDateString => Conf.getDateString
    | .getNewUUID => Conf.getNewUUID
    | .getNodeInfo => Conf.getNodeInfo d.key d.ivalue
    | .getLeafInfo => Conf.getLeafInfo d.key d.ivalue

theorem vardefs_plain : Conf.vardefs = vardefs.map Vardef.plain := rfl

theorem find_plain (key : List UInt8) :
    (Conf.vardefs.find? fun d => d.key.bytes = key) =
      (vardefs.find? fun d => d.key.bytes = key).map Vardef.plain := by
  rw [vardefs_plain, List.find?_map]
  rfl

variable {env : RedEnv} {node : ExpandCtx}

theorem getThisNodeInfo_eq (headers : Option RedConfHeader) (redpath key : CStr)
    (info : RednodeInfo) (size : Nat) :
    getThisNodeInfo headers redpath key info size =
      Conf.putString (textOrUndefined key (thisNodeValue (some ⟨headers, redpath⟩) info)) size := by
  cases headers with
  | none => cases info <;> rfl
  | some h =>
    cases info with
    | infoName => cases hname : h.name <;> simp [getThisNodeInfo, thisNodeValue, hname] <;> rfl
    | infoInfo => cases hinfo : h.info <;> simp [getThisNodeInfo, thisNodeValue, hinfo] <;> rfl
    | _ => rfl

/-- The values are the same; the text of a UUID has 36 characters. -/
theorem plain_callback (huuid : env.freshUUID.bytes.length < redUuidStrLen) (d : Vardef) :
    d.plain.callback env node maxCyamlFormatStr =
      match d.text env (some node) with
      | .ok (some text) => Conf.putString text maxCyamlFormatStr
      | _ => none := by
  unfold Vardef.plain Vardef.text
  cases hcb : d.callback with
  | getEnviron =>
    dsimp only [Conf.getEnviron]
    cases env.secureGetenv d.key with
    | some value => rfl
    | none => cases d.svalue <;> rfl
  | getString => rfl
  | getCgroupRoot => rfl
  | getPid => rfl
  | getUid =>
    dsimp only [Conf.getUid, Option.bind]
    cases node.leaf with
    | none => rfl
    | some leaf =>
      cases hset : leaf.earlyconf.setuser with
      | none => simp [hset]; rfl
      | some value => simp [hset]
  | getGid =>
    dsimp only [Conf.getGid, Option.bind]
    cases node.leaf with
    | none => rfl
    | some leaf =>
      cases hset : leaf.earlyconf.setgroup with
      | none => simp [hset]; rfl
      | some value => simp [hset]
  | getDateString =>
    dsimp only [Conf.getDateString]
    split <;> rfl
  | getNewUUID =>
    have huu : uuidText env = env.freshUUID :=
      CStr.ext (List.take_of_length_le (by rw [redUuidStrLen] at huuid ⊢; omega))
    have hfits : env.freshUUID.bytes.length < maxCyamlFormatStr :=
      Nat.lt_trans huuid (by decide)
    dsimp only [Conf.getNewUUID]
    rw [huu, if_neg (by decide), Conf.putString, if_pos hfits]
  | getNodeInfo =>
    exact getThisNodeInfo_eq _ _ _ _ _
  | getLeafInfo =>
    dsimp only [Conf.getLeafInfo, leafInfo]
    cases node.leaf with
    | some leaf => exact getThisNodeInfo_eq _ _ _ _ _
    | none => exact getThisNodeInfo_eq _ _ _ _ _

theorem text_ne_error (d : Vardef) (f : ExpandFault) : d.text env (some node) ≠ .error f := by
  unfold Vardef.text
  cases d.callback <;> exact nofun

/-! ## The list -/

/-- What an outcome makes of the list that is there. -/
def onList (o : List UInt8) : Produced UInt8 ExpandFault → Expansion
  | .done t => .done (o ++ t)
  | .error => .error
  | .deep => .deep
  | .stop _ => .fault

theorem onList_after (o t : List UInt8) (r : Produced UInt8 ExpandFault) :
    onList o (r.after t) = onList (o ++ t) r := by
  cases r <;> simp [onList, Produced.after, Produced.andThen]

/-- A nested expansion of a list and its outcome in the language. -/
def OnList (nested : Conf.NestedExpand)
    (outcome : List UInt8 → Nat → Produced UInt8 ExpandFault) : Prop :=
  ∀ value : CStr, ∀ (o : List UInt8) (maxlen : Nat), o.length ≤ maxlen →
    nested value.bytes o maxlen = onList o (outcome value.bytes (maxlen - o.length))

variable {nested : Conf.NestedExpand} {outcome : List UInt8 → Nat → Produced UInt8 ExpandFault}

theorem getDefault_onList (huuid : env.freshUUID.bytes.length < redUuidStrLen)
    (hnested : OnList nested outcome) {L : Language UInt8 ExpandFault} {commands : Bool}
    {key : List UInt8} (hkey : L.meaning commands key = defaultMeaning env (some node) key)
    {o : List UInt8} {maxlen : Nat} (ho : o.length ≤ maxlen) :
    Conf.getDefault env node nested key o maxlen =
      onList o (evalRef L outcome commands key (maxlen - o.length)) := by
  unfold Conf.getDefault evalRef
  rw [hkey, find_plain]
  unfold defaultMeaning
  cases vardefs.find? fun d => d.key.bytes = key with
  | some d =>
    dsimp only [Option.map]
    rw [plain_callback huuid]
    cases htext : d.text env (some node) with
    | error f => exact absurd htext (text_ne_error d f)
    | ok text =>
      cases text with
      | none => rfl
      | some text =>
        dsimp only
        unfold Conf.putString
        by_cases hfits : text.bytes.length < maxCyamlFormatStr
        · rw [if_pos hfits, if_pos hfits]
          exact hnested text o maxlen ho
        · rw [if_neg hfits, if_neg hfits]
          rfl
  | none =>
    dsimp only [Option.map]
    unfold Conf.expandEnvvar
    cases env.secureGetenv (CStr.ofBytes key) with
    | none => simp [onList]
    | some value =>
      dsimp only
      by_cases hnil : value.bytes = []
      · rw [if_pos hnil, if_pos hnil]
        simp [onList]
      · rw [if_neg hnil, if_neg hnil]
        exact hnested value o maxlen ho

theorem runCommand_onList (hnested : OnList nested outcome) {restricted commands : Bool}
    {key : List UInt8} (hfree : (0 : UInt8) ∉ key)
    (hkey : keyMeaning env (some node) commands key = .command key.tail.dropLast)
    {o : List UInt8} {maxlen : Nat} :
    (match nested key.tail.dropLast [] maxCyamlFormatStr with
      | .done command =>
        if command.length = maxCyamlFormatStr then .fault
        else
          match Conf.execCmd env (CStr.ofBytes command) (maxlen - o.length) restricted with
          | some text => .done (o ++ text)
          | none => .error
      | other => other) =
      onList o (evalRef (language env (some node) restricted) outcome commands key
        (maxlen - o.length)) := by
  have hgroup : (0 : UInt8) ∉ key.tail.dropLast :=
    fun h => hfree (List.mem_of_mem_tail (List.dropLast_subset _ h))
  have hmeaning : (language env (some node) restricted).meaning commands key =
      .command key.tail.dropLast := hkey
  have h := hnested ⟨key.tail.dropLast, hgroup⟩ [] maxCyamlFormatStr (Nat.zero_le _)
  unfold evalRef
  rw [hmeaning]
  dsimp only at h ⊢
  change _ = onList o ((outcome key.tail.dropLast maxCyamlFormatStr).andThen _)
  rw [h, List.length_nil, Nat.sub_zero]
  cases outcome key.tail.dropLast maxCyamlFormatStr with
  | done t =>
    rw [onList, List.nil_append, Produced.andThen_done]
    dsimp only
    by_cases hfull : t.length = maxCyamlFormatStr
    · have hsize : t.length = (language env (some node) restricted).size := hfull
      rw [if_pos hfull, if_pos hsize]
      rfl
    · have hsize : ¬ t.length = (language env (some node) restricted).size := hfull
      have hrun : ∀ room, (language env (some node) restricted).run t room =
          Conf.execCmd env (CStr.ofBytes t) room restricted := fun _ => rfl
      rw [if_neg hfull, if_neg hsize, hrun]
      cases Conf.execCmd env (CStr.ofBytes t) (maxlen - o.length) restricted <;> rfl
  | _ => rfl

theorem onList_andThen {x : Expansion} {o : List UInt8} {r : Produced UInt8 ExpandFault}
    {rest : Nat → Produced UInt8 ExpandFault} {maxlen : Nat} {next : List UInt8 → Expansion}
    (ho : o.length ≤ maxlen) (hx : x = onList o r)
    (hfits : ∀ t, r = .done t → t.length ≤ maxlen - o.length)
    (hnext : ∀ o', o'.length ≤ maxlen → next o' = onList o' (rest (maxlen - o'.length))) :
    (match x with
      | .done o' => next o'
      | other => other) =
      onList o (r.andThen fun t => (rest (maxlen - o.length - t.length)).after t) := by
  subst hx
  cases r with
  | done t =>
    have hlen := hfits t rfl
    have hroom : (o ++ t).length ≤ maxlen := by
      rw [List.length_append]
      omega
    rw [onList, Produced.andThen_done, onList_after]
    dsimp only
    rw [hnext _ hroom, List.length_append, Nat.sub_sub]
  | _ => rfl

/-- **The loop** on a list gets what the tokens are replaced by. -/
theorem expandFrom_onList (huuid : env.freshUUID.bytes.length < redUuidStrLen)
    (hnested : OnList nested outcome)
    (hbound : ∀ {v r t}, outcome v r = .done t → t.length ≤ r) {withcmd maxlen : Nat} :
    ∀ (inputS : List UInt8), (0 : UInt8) ∉ inputS → ∀ (prev : Option UInt8) (skip : Nat),
      LookBehind prev skip inputS → ∀ o : List UInt8, o.length ≤ maxlen →
        Conf.expandFrom env node nested maxlen withcmd inputS prev skip o =
          onList o (evalTokens (language env (some node) (withcmd == 1)) outcome
            (decide (0 < withcmd)) (tokensFrom inputS skip) (maxlen - o.length)) := by
  intro inputS
  induction inputS with
  | nil => intro _ prev skip _ o _; simp [Conf.expandFrom, tokensFrom, evalTokens, onList]
  | cons c cs ih =>
    intro hfree prev skip hback o ho
    have hcs : (0 : UInt8) ∉ cs := fun h => hfree (List.mem_cons_of_mem c h)
    -- a byte that is written, and what follows
    have hput : ∀ (a : UInt8) (skip : Nat), LookBehind (some c) skip cs →
        (if o.length = maxlen then .error else
          Conf.expandFrom env node nested maxlen withcmd cs (some c) skip (o ++ [a])) =
          onList o (evalTokens (language env (some node) (withcmd == 1)) outcome
            (decide (0 < withcmd)) (.char a :: tokensFrom cs skip) (maxlen - o.length)) := by
      intro a skip hnext
      rw [evalTokens]
      by_cases hfull : o.length = maxlen
      · rw [if_pos hfull, if_pos (by omega)]
        rfl
      · rw [if_neg hfull, if_neg (by omega), onList_after,
          ih hcs _ _ hnext _ (by rw [List.length_append, List.length_singleton]; omega),
          List.length_append, List.length_singleton, Nat.sub_sub]
    cases skip with
    | succ skip => exact ih hcs (some c) skip hback.skip o ho
    | zero =>
      rw [Conf.expandFrom, tokensFrom]
      by_cases hesc : c = backslash ∧ cs.head? = some dollar
      · rw [if_pos hesc, if_pos hesc]
        exact hput dollar 1 (hesc.1 ▸ lookBehind_escape hesc.2)
      rw [if_neg hesc, if_neg hesc]
      by_cases hdollar : c = dollar
      · rw [if_pos ⟨hdollar, hback.unescaped hdollar⟩, if_pos hdollar]
        have hlen := length_key cs
        have hkeyfree : ¬ (0 : UInt8) ∈ cs.take (computeKeyLength cs) :=
          fun h => hcs (List.mem_of_mem_take h)
        have hnext := fun o' ho' =>
          ih hcs (some c) (computeKeyLength cs) (hdollar ▸ lookBehind_key cs) o' ho'
        dsimp only
        rw [evalTokens]
        generalize cs.take (computeKeyLength cs) = key at hlen hkeyfree ⊢
        generalize computeKeyLength cs = keylen at hlen hnext ⊢
        subst hlen
        by_cases hcmd : 2 ≤ key.length ∧ key.head? = some openParen ∧ 0 < withcmd
        · have hkey : keyMeaning env (some node) (decide (0 < withcmd)) key =
              .command key.tail.dropLast := if_pos ⟨hcmd.1, hcmd.2.1, decide_eq_true hcmd.2.2⟩
          have hrun := @runCommand_onList env node nested outcome hnested (withcmd == 1) _ _
            hkeyfree hkey o maxlen
          rw [if_pos hcmd, ← onList_andThen ho hrun
            (fun t ht => evalRef_length_le _ _ _ hbound ht) hnext]
          cases nested key.tail.dropLast [] maxCyamlFormatStr with
          | done command =>
            dsimp only
            by_cases hfull : command.length = maxCyamlFormatStr
            · rw [if_pos hfull, if_pos hfull]
            · rw [if_neg hfull, if_neg hfull]
              cases Conf.execCmd env (CStr.ofBytes command) (maxlen - o.length) (withcmd == 1) <;>
                rfl
          | _ => rfl
        · have hkey : keyMeaning env (some node) (decide (0 < withcmd)) key =
              defaultMeaning env (some node) key :=
            if_neg fun h => hcmd ⟨h.1, h.2.1, of_decide_eq_true h.2.2⟩
          have hget := getDefault_onList (L := language env (some node) (withcmd == 1)) huuid
            hnested hkey ho
          rw [if_neg hcmd]
          exact onList_andThen ho hget (fun t ht => evalRef_length_le _ _ _ hbound ht) hnext
      · rw [if_neg (fun h => hdollar h.1), if_neg hdollar]
        exact hput c 0 (lookBehind_char hesc)

/-- **The expansion** of a string into a list. -/
theorem defaultsExpand_outcome (huuid : env.freshUUID.bytes.length < redUuidStrLen) (depth : Nat) :
    ∀ (inputS : CStr) (o : List UInt8) (maxlen withcmd : Nat), o.length ≤ maxlen →
      Conf.defaultsExpand env node depth inputS.bytes o maxlen withcmd =
        onList o (eval (language env (some node) (withcmd == 1)) depth (decide (0 < withcmd))
          (tokensFrom inputS.bytes 0) (maxlen - o.length)) := by
  have hstart : ∀ cs : List UInt8, LookBehind none 0 cs := fun cs h => nomatch h
  induction depth with
  | zero =>
    intro inputS o maxlen withcmd ho
    rw [eval, nestedEval_restricted env (some node) _ false]
    exact expandFrom_onList huuid (fun _ _ _ _ => rfl) nestedEval_length_le inputS.bytes
      inputS.nulFree none 0 (hstart _) o ho
  | succ depth ih =>
    intro inputS o maxlen withcmd ho
    rw [eval, nestedEval_restricted env (some node) _ false]
    exact expandFrom_onList huuid (fun value o maxlen ho => ih value o maxlen 0 ho)
      nestedEval_length_le inputS.bytes inputS.nulFree none 0 (hstart _) o ho

/-- **The two models** end alike, and the array holds the list. -/
theorem defaultsExpand_refines (huuid : env.freshUUID.bytes.length < redUuidStrLen)
    (junk : Layered.Buffer UInt8) (depth : Nat) (inputS : CStr) {maxlen withcmd : Nat} {s : Output}
    (hs : s.idxOut ≤ maxlen) :
    match defaultsExpand env junk (some node) depth inputS.bytes maxlen withcmd s with
    | .ok true s' => Conf.defaultsExpand env node depth inputS.bytes (slice s.outputS 0 s.idxOut)
        maxlen withcmd = .done (slice s'.outputS 0 s'.idxOut)
    | .ok false _ => Conf.defaultsExpand env node depth inputS.bytes (slice s.outputS 0 s.idxOut)
        maxlen withcmd = .error
    | .error .deep _ => Conf.defaultsExpand env node depth inputS.bytes
        (slice s.outputS 0 s.idxOut) maxlen withcmd = .deep
    | .error (.fault _) _ => Conf.defaultsExpand env node depth inputS.bytes
        (slice s.outputS 0 s.idxOut) maxlen withcmd = .fault := by
  have hlen : (slice s.outputS 0 s.idxOut).length = s.idxOut := by simp
  have hagrees := @defaultsExpand_agrees env (some node) junk depth inputS maxlen withcmd s hs
  rw [defaultsExpand_outcome huuid depth inputS _ maxlen withcmd (by rw [hlen]; exact hs), hlen]
  unfold Agrees at hagrees
  split at hagrees
  · rename_i t hout
    obtain ⟨s', hrun, hwrote⟩ := hagrees
    rw [hrun, hout]
    exact congrArg Expansion.done hwrote.outputS.symm
  · rename_i hout
    obtain ⟨s', hrun⟩ := hagrees
    rw [hrun, hout]
    rfl
  · rename_i hout
    obtain ⟨s', hrun⟩ := hagrees
    rw [hrun, hout]
    rfl
  · rename_i f hout
    obtain ⟨s', hrun⟩ := hagrees
    rw [hrun, hout]
    rfl

end Stored
end Conf
end RedPak
