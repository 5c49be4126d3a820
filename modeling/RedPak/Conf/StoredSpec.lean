import RedPak.Conf.Stored
import RedPak.Conf.Tokens

/-!
# Conf.StoredSpec

What `defaultsExpand` writes. The references have a meaning in the environment and the node
(`language`), and the array gets what the tokens are replaced by.

* `call_puts`: the callbacks put their text into the array, if it fits.
* `defaultsExpand_agrees`: the run and the outcome in the language agree.
-/

namespace RedPak
namespace Conf
namespace Stored

open Layered (Buffer)
open Layered.Buffer (slice writeAll)
open Layered.Expansion
open Layered.Action

/-! ## The callbacks -/

/-- The text is put into the array with its zero, or else the result is 1. -/
def Puts (size : Nat) (x : ArrayM Bool) (text : CStr) : Prop :=
  ∀ b, if text.bytes.length < size then ∃ b', x b = .ok true b' ∧ Holds size text b'
    else ∃ b', x b = .ok false b'

theorem putAll_eq {arr i : Nat} {bytes : List UInt8} (h : i + bytes.length ≤ arr)
    (b : Buffer UInt8) : putAll arr i bytes b = .ok () (writeAll b i bytes) := by
  rw [putAll, if_pos h]
  rfl

/-- `PutString` behind a front part. -/
theorem putString_eq {arr output size : Nat} (hroom : output + size ≤ arr) :
    ∀ (value : List UInt8) (idx : Nat) (b : Buffer UInt8),
      if idx + value.length < size then
        ∃ b', putString arr output size value idx b = .ok true b' ∧
          slice b' 0 (output + idx + value.length + 1) =
            slice b 0 (output + idx) ++ (value ++ [0])
      else ∃ b', putString arr output size value idx b = .ok false b' := by
  intro value
  induction value with
  | nil =>
    intro idx b
    rw [List.length_nil, Nat.add_zero, putString]
    by_cases hidx : idx < size
    · rw [if_pos hidx, if_pos hidx, bind_of_ok (putAll_eq (by simp; omega) b)]
      refine ⟨_, rfl, ?_⟩
      exact Layered.Buffer.slice_writeAll_one (Nat.zero_le _)
    · rw [if_neg hidx, if_neg hidx]
      exact ⟨b, rfl⟩
  | cons c cs ih =>
    intro idx b
    rw [putString]
    by_cases hidx : idx < size
    · rw [if_pos hidx, bind_of_ok (putAll_eq (by simp; omega) b), List.length_cons]
      have h := ih (idx + 1) (writeAll b (output + idx) [c])
      have hlen : idx + 1 + cs.length = idx + (cs.length + 1) := by omega
      rw [hlen] at h
      split at h
      · obtain ⟨b', hrun, hb'⟩ := h
        rw [if_pos ‹_›]
        refine ⟨b', hrun, ?_⟩
        have hput : slice (writeAll b (output + idx) [c]) 0 (output + idx + 1) =
            slice b 0 (output + idx) ++ [c] :=
          Layered.Buffer.slice_writeAll_one (Nat.zero_le _)
        have hidx' : output + (idx + 1) + cs.length + 1 =
            output + idx + (cs.length + 1) + 1 := by omega
        rw [← hidx', hb', ← Nat.add_assoc, hput, List.append_assoc]
        rfl
      · rw [if_neg ‹_›]
        exact h
    · rw [if_neg hidx, if_neg (by omega)]
      exact ⟨b, rfl⟩

theorem putString_puts (size : Nat) (value : CStr) :
    Puts size (putString size 0 size value.bytes 0) value := by
  intro b
  have hroom : 0 + size ≤ size := by omega
  have h := putString_eq hroom value.bytes 0 b
  rw [Nat.zero_add] at h
  split at h
  · rw [if_pos ‹_›]
    obtain ⟨b', hrun, hb'⟩ := h
    refine ⟨b', hrun, ‹_›, ?_⟩
    simpa using hb'
  · rw [if_neg ‹_›]
    exact h

theorem getUndefined_puts (size : Nat) (key : CStr) :
    Puts size (getUndefined size size key) (undef.append key) := by
  intro b
  rw [getUndefined, bytes_append, List.length_append]
  by_cases hsize : size < undef.bytes.length
  · rw [if_pos hsize, if_neg (by omega)]
    exact ⟨b, rfl⟩
  rw [if_neg hsize, bind_of_ok (putAll_eq (by omega) b)]
  have hroom : undef.bytes.length + (size - undef.bytes.length) ≤ size := by omega
  have h := putString_eq hroom key.bytes 0 (writeAll b 0 undef.bytes)
  rw [Nat.zero_add] at h
  have hundef := Layered.Buffer.slice_writeAll b 0 undef.bytes
  rw [Nat.zero_add] at hundef
  by_cases hfits : undef.bytes.length + key.bytes.length < size
  · rw [if_pos (by omega)] at h
    rw [if_pos hfits]
    obtain ⟨b', hrun, hb'⟩ := h
    refine ⟨b', hrun, by simpa using hfits, ?_⟩
    rw [Nat.add_zero (undef.bytes.length), hundef, ← List.append_assoc] at hb'
    rwa [bytes_append, List.length_append]
  · rw [if_neg (by omega)] at h
    rw [if_neg hfits]
    exact h

theorem getDecimal_puts {size : Nat} (hsize : 0 < size) (value : Nat) :
    Puts size (getDecimal size size value) (CStr.decimal value) := by
  intro b
  have hlen : 0 + ((CStr.decimal value).bytes.take (size - 1) ++ [0]).length ≤ size := by
    simp only [List.length_append, List.length_take, List.length_singleton]
    omega
  rw [getDecimal, if_pos hsize, bind_of_ok (putAll_eq hlen b)]
  by_cases hfits : (CStr.decimal value).bytes.length < size
  · rw [if_pos hfits, decide_eq_true hfits, List.take_of_length_le (by omega)]
    exact ⟨_, rfl, holds_start b hfits⟩
  · rw [if_neg hfits, decide_eq_false hfits]
    exact ⟨_, rfl⟩

/-- The text of a UUID, in an array of 37 bytes. -/
def uuidText (env : RedEnv) : CStr :=
  ⟨env.freshUUID.bytes.take (redUuidStrLen - 1),
    fun h => env.freshUUID.nulFree (List.mem_of_mem_take h)⟩

theorem getNewUUID_puts (env : RedEnv) {size : Nat} (hsize : redUuidStrLen ≤ size) :
    Puts size (getNewUUID env size size) (uuidText env) := by
  intro b
  have huu : (uuidText env).bytes.length < redUuidStrLen := by
    rw [uuidText, List.length_take, redUuidStrLen]
    omega
  have hfits : (uuidText env).bytes.length < size := by omega
  rw [if_pos hfits, getNewUUID, if_neg (by omega)]
  change ∃ b', (putAll size 0 ((uuidText env).bytes ++
    List.replicate (size - (uuidText env).bytes.length) 0) >>= fun _ => pure true) b = _ ∧ _
  have hlen : 0 + ((uuidText env).bytes ++
      List.replicate (size - (uuidText env).bytes.length) (0 : UInt8)).length ≤ size := by
    rw [List.length_append, List.length_replicate]
    omega
  rw [bind_of_ok (putAll_eq hlen b)]
  refine ⟨_, rfl, hfits, ?_⟩
  obtain ⟨k, hk⟩ : ∃ k, size - (uuidText env).bytes.length = k + 1 :=
    ⟨size - (uuidText env).bytes.length - 1, by omega⟩
  have hleft := Layered.Buffer.slice_writeAll_left b 0 ((uuidText env).bytes ++ [0])
    (List.replicate k 0)
  rw [Nat.zero_add, List.append_assoc, List.length_append, List.length_singleton] at hleft
  rw [hk, List.replicate_succ]
  exact hleft

theorem getDateString_puts (env : RedEnv) (size : Nat) (hdate : env.dateOfToday.bytes ≠ []) :
    Puts size (getDateString env size size) env.dateOfToday := by
  intro b
  rw [getDateString]
  by_cases hfits : env.dateOfToday.bytes.length < size
  · have hlen : 0 + (env.dateOfToday.bytes ++ [0]).length ≤ size := by simp; omega
    rw [if_pos hfits, if_pos ⟨hdate, hfits⟩, bind_of_ok (putAll_eq hlen b)]
    exact ⟨_, rfl, holds_start b hfits⟩
  · rw [if_neg hfits, if_neg (fun h => hfits h.2)]
    exact ⟨b, rfl⟩

/-! ## The values -/

/-- The text that `putOrUndefined` puts. -/
def textOrUndefined (key : CStr) (value : Option CStr) : CStr := value.getD (undef.append key)

theorem putOrUndefined_puts (size : Nat) (key : CStr) (value : Option CStr) :
    Puts size (putOrUndefined size size key value) (textOrUndefined key value) := by
  cases value with
  | some value => exact putString_puts size value
  | none => exact getUndefined_puts size key

/-- The text of an entry, which may not be there; or the node is read through and is NULL. -/
def Vardef.text (env : RedEnv) (node : Option ExpandCtx) (d : Vardef) :
    Except ExpandFault (Option CStr) :=
  match d.callback with
  | .getEnviron => .ok (some (textOrUndefined d.key ((env.secureGetenv d.key).or d.svalue)))
  | .getString => .ok (some (d.svalue.getD (.lit "")))
  | .getCgroupRoot => .ok (some env.cgroupRoot)
  | .getPid => .ok (some (CStr.decimal env.getpid))
  | .getUid => .ok (some (((node.bind (·.leaf)).bind (·.earlyconf.setuser)).getD
      (CStr.decimal env.getuid)))
  | .getGid => .ok (some (((node.bind (·.leaf)).bind (·.earlyconf.setgroup)).getD
      (CStr.decimal env.getgid)))
  | .getDateString => .ok (if env.dateOfToday.bytes = [] then none else some env.dateOfToday)
  | .getNewUUID => .ok (some (uuidText env))
  | .getNodeInfo => .ok (some (textOrUndefined d.key (thisNodeValue (node.map nodeInfo) d.ivalue)))
  | .getLeafInfo =>
    match node with
    | some node =>
      .ok (some (textOrUndefined d.key (thisNodeValue (some (leafInfo node)) d.ivalue)))
    | none => .error .nullNode

theorem call_puts {env : RedEnv} {node : Option ExpandCtx} {d : Vardef} {size : Nat}
    (hsize : redUuidStrLen ≤ size) {text : CStr} (h : d.text env node = .ok (some text)) :
    Puts size (d.call env node size) text := by
  have hpos : 0 < size := Nat.lt_of_lt_of_le (by decide) hsize
  unfold Vardef.text at h
  unfold Vardef.call
  cases hcb : d.callback with
  | getEnviron =>
    rw [hcb] at h
    cases h
    exact putOrUndefined_puts _ _ _
  | getString =>
    rw [hcb] at h
    cases h
    exact putString_puts _ _
  | getCgroupRoot =>
    rw [hcb] at h
    cases h
    exact putString_puts _ _
  | getPid =>
    rw [hcb] at h
    cases h
    exact getDecimal_puts hpos _
  | getUid =>
    rw [hcb] at h
    cases h
    dsimp only [getUid]
    cases (node.bind (·.leaf)).bind (·.earlyconf.setuser) with
    | some setuser => exact putString_puts _ _
    | none => exact getDecimal_puts hpos _
  | getGid =>
    rw [hcb] at h
    cases h
    dsimp only [getGid]
    cases (node.bind (·.leaf)).bind (·.earlyconf.setgroup) with
    | some setgroup => exact putString_puts _ _
    | none => exact getDecimal_puts hpos _
  | getDateString =>
    rw [hcb] at h
    dsimp only at h
    split at h
    · cases h
    · cases h
      exact getDateString_puts env size ‹_›
  | getNewUUID =>
    rw [hcb] at h
    cases h
    exact getNewUUID_puts env hsize
  | getNodeInfo =>
    rw [hcb] at h
    cases h
    exact putOrUndefined_puts _ _ _
  | getLeafInfo =>
    rw [hcb] at h
    cases node with
    | some node =>
      cases h
      exact putOrUndefined_puts _ _ _
    | none => cases h

theorem call_none {env : RedEnv} {node : Option ExpandCtx} {d : Vardef} {size : Nat}
    (h : d.text env node = .ok none) (b : Buffer UInt8) :
    d.call env node size b = .ok false b := by
  unfold Vardef.text at h
  unfold Vardef.call
  cases hcb : d.callback with
  | getDateString =>
    rw [hcb] at h
    dsimp only at h ⊢
    split at h
    · rename_i hdate
      rw [getDateString, if_neg (fun hd => hd.1 hdate)]
      rfl
    · cases h
  | getLeafInfo =>
    rw [hcb] at h
    cases node <;> cases h
  | _ =>
    rw [hcb] at h
    cases h

theorem call_error {env : RedEnv} {node : Option ExpandCtx} {d : Vardef} {size : Nat}
    {f : ExpandFault} (h : d.text env node = .error f) (b : Buffer UInt8) :
    d.call env node size b = .error f b := by
  unfold Vardef.text at h
  unfold Vardef.call
  cases hcb : d.callback with
  | getLeafInfo =>
    rw [hcb] at h
    cases node with
    | some node => cases h
    | none =>
      cases h
      rfl
  | _ =>
    rw [hcb] at h
    cases h

/-! ## The language -/

section

variable (env : RedEnv) (node : Option ExpandCtx)

/-- The meaning of a key: a default value, or else a variable of the environment. -/
def defaultMeaning (key : List UInt8) : Meaning UInt8 ExpandFault :=
  match vardefs.find? fun d => d.key.bytes = key with
  | some d =>
    match d.text env node with
    | .error f => .stop f
    | .ok none => .error
    | .ok (some value) =>
      if value.bytes.length < maxCyamlFormatStr then .text value.bytes else .error
  | none =>
    match env.secureGetenv (CStr.ofBytes key) with
    | none => .nothing
    | some value => if value.bytes = [] then .nothing else .text value.bytes

/-- Where commands are allowed, a key of parentheses is one. -/
def keyMeaning (commands : Bool) (key : List UInt8) : Meaning UInt8 ExpandFault :=
  if 2 ≤ key.length ∧ key.head? = some openParen ∧ commands = true then
    .command key.tail.dropLast
  else defaultMeaning env node key

def language (restricted : Bool) : Language UInt8 ExpandFault where
  tokens text := tokensFrom text 0
  meaning := keyMeaning env node
  run text room := Conf.execCmd env (CStr.ofBytes text) room restricted
  size := maxCyamlFormatStr
  overflow := .outside
  run_lt := execCmd_length

end

/-! ## Agreement -/

/-- The text is behind what was there. -/
structure Wrote (s : Output) (t : List UInt8) (s' : Output) : Prop where
  idxOut : s'.idxOut = s.idxOut + t.length
  outputS : slice s'.outputS 0 s'.idxOut = slice s.outputS 0 s.idxOut ++ t

theorem wrote_nil (s : Output) : Wrote s [] s := ⟨rfl, by simp⟩

theorem Wrote.append {s s' s'' : Output} {t u : List UInt8} (h : Wrote s t s')
    (h' : Wrote s' u s'') : Wrote s (t ++ u) s'' := by
  refine ⟨?_, ?_⟩
  · rw [h'.idxOut, h.idxOut, List.length_append, Nat.add_assoc]
  · rw [h'.outputS, h.outputS, List.append_assoc]

/-- The run ends like the outcome. -/
def Agrees (x : OutputM Bool) (o : Produced UInt8 ExpandFault) (s : Output) : Prop :=
  match o with
  | .done t => ∃ s', x s = .ok true s' ∧ Wrote s t s'
  | .error => ∃ s', x s = .ok false s'
  | .deep => ∃ s', x s = .error .deep s'
  | .stop f => ∃ s', x s = .error (.fault f) s'

theorem Agrees.of_eq {x y : OutputM Bool} {o : Produced UInt8 ExpandFault} {s : Output}
    (h : Agrees y o s) (hxy : x s = y s) : Agrees x o s := by
  unfold Agrees at h ⊢
  rwa [hxy]

theorem Agrees.bind {x y : OutputM Bool} {o : Produced UInt8 ExpandFault} {s : Output}
    {f : List UInt8 → Produced UInt8 ExpandFault} (h : Agrees x o s)
    (hy : ∀ t s', o = .done t → Wrote s t s' → Agrees y (f t) s') :
    Agrees (do if ← x then y else pure false) (o.andThen fun t => (f t).after t) s := by
  cases o with
  | done t =>
    obtain ⟨s', hx, hwrote⟩ := h
    have hy := hy t s' rfl hwrote
    have hrun : (do if ← x then y else pure false : OutputM Bool) s = y s' := bind_of_ok hx
    rw [Produced.andThen_done]
    cases hf : f t with
    | done u =>
      rw [hf] at hy
      obtain ⟨s'', hrest, hwrote'⟩ := hy
      exact ⟨s'', hrun.trans hrest, hwrote.append hwrote'⟩
    | error =>
      rw [hf] at hy
      obtain ⟨s'', hrest⟩ := hy
      exact ⟨s'', hrun.trans hrest⟩
    | deep =>
      rw [hf] at hy
      obtain ⟨s'', hrest⟩ := hy
      exact ⟨s'', hrun.trans hrest⟩
    | stop e =>
      rw [hf] at hy
      obtain ⟨s'', hrest⟩ := hy
      exact ⟨s'', hrun.trans hrest⟩
  | error =>
    obtain ⟨s', hx⟩ := h
    exact ⟨s', bind_of_ok hx⟩
  | deep =>
    obtain ⟨s', hx⟩ := h
    exact ⟨s', bind_of_error hx⟩
  | stop e =>
    obtain ⟨s', hx⟩ := h
    exact ⟨s', bind_of_error hx⟩

theorem storeOutput_eq {maxlen i : Nat} {bytes : List UInt8} (h : i + bytes.length ≤ maxlen)
    (s : Output) : storeOutput maxlen i bytes s =
      .ok () { s with outputS := writeAll s.outputS i bytes } := by
  rw [storeOutput, if_pos h]
  rfl

theorem putOutput_agrees {maxlen : Nat} {s : Output} (hs : s.idxOut ≤ maxlen) (c : UInt8) :
    Agrees (putOutput maxlen c) (if maxlen - s.idxOut = 0 then .error else .done [c]) s := by
  have hrun : putOutput maxlen c s = (if s.idxOut = maxlen then pure false else do
      storeOutput maxlen s.idxOut [c]
      modify fun r => { r with idxOut := s.idxOut + 1 }
      pure true : OutputM Bool) s := rfl
  by_cases hfull : s.idxOut = maxlen
  · rw [if_pos (by omega)]
    exact ⟨s, by rw [hrun, if_pos hfull]; rfl⟩
  · rw [if_neg (by omega)]
    refine ⟨⟨writeAll s.outputS s.idxOut [c], s.idxOut + 1⟩, ?_, rfl, ?_⟩
    · rw [hrun, if_neg hfull, bind_of_ok (storeOutput_eq (by simp; omega) s)]
      rfl
    · exact Layered.Buffer.slice_writeAll_one (Nat.zero_le _)

variable {env : RedEnv} {node : Option ExpandCtx} {junk : Buffer UInt8}

/-- What the output holds once the command's output and a zero are there. -/
theorem slice_command {maxlen idxOut : Nat} (b : Buffer UInt8) {out : List UInt8}
    (hfits : idxOut + out.length < maxlen) : ∃ rest,
      slice (writeAll (writeAll b idxOut out) (idxOut + out.length) [0]) idxOut maxlen =
        out ++ 0 :: rest := by
  set b' := writeAll (writeAll b idxOut out) (idxOut + out.length) [0] with hb'
  refine ⟨slice b' (idxOut + out.length + 1) maxlen, ?_⟩
  have hfront : slice b' idxOut (idxOut + out.length) = out := by
    rw [hb', Layered.Buffer.slice_writeAll_of_le (Nat.le_refl _), Layered.Buffer.slice_writeAll]
  have hzero : b' (idxOut + out.length) = 0 := by
    have h := Layered.Buffer.writeAll_apply (writeAll b idxOut out) (idxOut + out.length) 0 [0]
    exact h
  rw [← Layered.Buffer.slice_append (Nat.le_add_right _ _) (Nat.le_of_lt hfits), hfront,
    Layered.Buffer.slice_cons hfits, hzero]

/-- `ExecCmd` and the output of the command. -/
theorem execCmd_agrees {maxlen : Nat} {s : Output} (hs : s.idxOut ≤ maxlen) (command : CStr)
    (restricted : Bool) :
    Agrees (execCmd env command maxlen restricted)
      (match Conf.execCmd env command (maxlen - s.idxOut) restricted with
        | none => .error
        | some out => .done out) s := by
  rw [execCmd, Conf.execCmd]
  have hget : ∀ f : Output → OutputM Bool, (get >>= f) s = f s s := fun _ => rfl
  cases env.memFdExecCmd command restricted with
  | none => exact ⟨s, by rw [hget, if_neg (by omega)]; rfl⟩
  | some output =>
    dsimp only
    have hbytes : s.idxOut + (output.take (maxlen - s.idxOut)).length ≤ maxlen := by
      rw [List.length_take]
      omega
    have hrun := storeOutput_eq hbytes s
    by_cases hbad : output = [] ∨ maxlen - s.idxOut ≤ output.length
    · have hread : output.take (maxlen - s.idxOut) = [] ∨
          (output.take (maxlen - s.idxOut)).length = maxlen - s.idxOut := by
        rcases hbad with hnil | hlong
        · exact .inl (by rw [hnil, List.take_nil])
        · exact .inr (by rw [List.length_take, Nat.min_eq_left hlong])
      rw [if_pos hbad]
      refine ⟨{ s with outputS := writeAll s.outputS s.idxOut (output.take (maxlen - s.idxOut)) },
        ?_⟩
      rw [hget, if_neg (by omega), bind_of_ok hrun, if_pos hread]
      rfl
    · have hlong : output.length < maxlen - s.idxOut := by
        rw [not_or] at hbad
        omega
      have htake : output.take (maxlen - s.idxOut) = output :=
        List.take_of_length_le (Nat.le_of_lt hlong)
      rw [htake] at hbytes hrun
      have hzero : s.idxOut + output.length + [(0 : UInt8)].length ≤ maxlen := by
        rw [List.length_singleton]
        omega
      have hread : ¬ (output = [] ∨ output.length = maxlen - s.idxOut) := by
        rw [not_or] at hbad ⊢
        exact ⟨hbad.1, by omega⟩
      obtain ⟨rest, hslice⟩ :=
        slice_command s.outputS (by omega : s.idxOut + output.length < maxlen)
      have htext : CStr.ofBytes (output ++ 0 :: rest) = CStr.ofBytes output :=
        CStr.ofBytes_append_zero output rest
      rw [if_neg hbad]
      refine ⟨⟨writeAll (writeAll s.outputS s.idxOut output) (s.idxOut + output.length) [0],
        s.idxOut + (CStr.ofBytes output).bytes.length⟩, ?_, rfl, ?_⟩
      · rw [hget, if_neg (by omega), htake, bind_of_ok hrun, if_neg hread,
          bind_of_ok (storeOutput_eq hzero _)]
        change EStateM.Result.ok true (⟨_, _⟩ : Output) = _
        dsimp only
        rw [hslice, htext]
      · -- the text of the command is what stands before the first zero
        have hprefix : (CStr.ofBytes output).bytes <+: output := List.takeWhile_prefix _
        have hle := hprefix.length_le
        have hpart := Layered.Buffer.take_slice
          (writeAll (writeAll s.outputS s.idxOut output) (s.idxOut + output.length) [0])
          (i := s.idxOut) (j := maxlen) (CStr.ofBytes output).bytes.length (by omega)
        rw [hslice, List.take_append_of_le_length hle,
          ← List.prefix_iff_eq_take.mp hprefix] at hpart
        dsimp only
        rw [← Layered.Buffer.slice_append (Nat.zero_le _) (Nat.le_add_right _ _), ← hpart,
          Layered.Buffer.slice_writeAll_of_le (by omega),
          Layered.Buffer.slice_writeAll_of_le (by omega)]
        rfl

/-- A nested expansion and its outcome in the language. -/
def AgreesNested (nested : NestedExpand) (outcome : List UInt8 → Nat → Produced UInt8 ExpandFault) :
    Prop :=
  ∀ value : CStr, ∀ (maxlen : Nat) (s : Output), s.idxOut ≤ maxlen →
    Agrees (nested value.bytes maxlen) (outcome value.bytes (maxlen - s.idxOut)) s

theorem getValue_eq {d : Vardef} (s : Output) :
    getValue env junk node d s = match d.text env node with
      | .error f => .error (.fault f) s
      | .ok none => .ok none s
      | .ok (some text) =>
        if text.bytes.length < maxCyamlFormatStr then .ok (some text) s else .ok none s := by
  unfold getValue withArray
  cases htext : d.text env node with
  | error f =>
    rw [bind_of_error (call_error htext junk)]
  | ok text =>
    cases text with
    | none => rw [bind_of_ok (call_none htext junk)]; rfl
    | some text =>
      have hsize : redUuidStrLen ≤ maxCyamlFormatStr := by decide
      have hputs := call_puts hsize htext junk
      dsimp only
      split at hputs
      · obtain ⟨b', hrun, hholds⟩ := hputs
        rw [if_pos ‹_›, bind_of_ok hrun, if_pos rfl]
        have hstring : arrayString maxCyamlFormatStr b' = .ok text b' := by
          rw [arrayString, get_bind, if_pos hholds.zero_mem, hholds.ofBytes]
          rfl
        rw [bind_of_ok hstring]
        rfl
      · obtain ⟨b', hrun⟩ := hputs
        rw [if_neg ‹_›, bind_of_ok hrun]
        rfl

theorem getDefault_agrees {nested : NestedExpand}
    {outcome : List UInt8 → Nat → Produced UInt8 ExpandFault}
    (hnested : AgreesNested nested outcome) {L : Language UInt8 ExpandFault} {commands : Bool}
    {key : List UInt8} (hkey : L.meaning commands key = defaultMeaning env node key) {maxlen : Nat}
    {s : Output} (hs : s.idxOut ≤ maxlen) :
    Agrees (getDefault env junk node nested key maxlen)
      (evalRef L outcome commands key (maxlen - s.idxOut)) s := by
  unfold getDefault evalRef
  rw [hkey]
  unfold defaultMeaning
  cases vardefs.find? fun d => d.key.bytes = key with
  | some d =>
    have hvalue := @getValue_eq env node junk d s
    dsimp only
    cases htext : d.text env node with
    | error f =>
      rw [htext] at hvalue
      exact ⟨s, bind_of_error hvalue⟩
    | ok text =>
      rw [htext] at hvalue
      cases text with
      | none => exact ⟨s, bind_of_ok hvalue⟩
      | some text =>
        dsimp only at hvalue ⊢
        by_cases hfits : text.bytes.length < maxCyamlFormatStr
        · rw [if_pos hfits] at hvalue ⊢
          exact (hnested text maxlen s hs).of_eq (bind_of_ok hvalue)
        · rw [if_neg hfits] at hvalue ⊢
          exact ⟨s, bind_of_ok hvalue⟩
  | none =>
    unfold expandEnvvar
    dsimp only
    cases env.secureGetenv (CStr.ofBytes key) with
    | none => exact ⟨s, rfl, wrote_nil s⟩
    | some value =>
      by_cases hnil : value.bytes = []
      · dsimp only
        rw [if_pos hnil, if_pos hnil]
        exact ⟨s, rfl, wrote_nil s⟩
      · dsimp only
        rw [if_neg hnil, if_neg hnil]
        exact hnested value maxlen s hs

theorem preCommand_eq {key : List UInt8} (hlen : 2 ≤ key.length) (hfree : (0 : UInt8) ∉ key)
    (s : Output) : ∃ group : CStr, group.bytes = key.tail.dropLast ∧
      preCommand junk key s = .ok group s := by
  have hgroup : (0 : UInt8) ∉ key.tail.dropLast :=
    fun h => hfree (List.mem_of_mem_tail (List.dropLast_subset _ h))
  refine ⟨⟨key.tail.dropLast, hgroup⟩, rfl, ?_⟩
  have htake : key.tail.take (key.length - 2) = key.tail.dropLast := by
    rw [List.dropLast_eq_take, List.length_tail]
    congr 1
  have hglen : key.tail.dropLast.length = key.length - 2 := by
    rw [List.length_dropLast, List.length_tail]
    omega
  have hroom : 0 + key.tail.dropLast.length ≤ key.length - 1 := by omega
  have hroom' : key.length - 2 + [(0 : UInt8)].length ≤ key.length - 1 := by
    rw [List.length_singleton]
    omega
  have hfirst := putAll_eq hroom junk
  have hsecond := putAll_eq hroom' (writeAll junk 0 key.tail.dropLast)
  have hholds : Holds (key.length - 1) ⟨key.tail.dropLast, hgroup⟩
      (writeAll (writeAll junk 0 key.tail.dropLast) (key.length - 2) [0]) := by
    refine ⟨by dsimp only; omega, ?_⟩
    have hslice : slice (writeAll (writeAll junk 0 key.tail.dropLast) (key.length - 2) [0]) 0
        (key.length - 2 + 1) = slice (writeAll junk 0 key.tail.dropLast) 0 (key.length - 2) ++
          [0] := Layered.Buffer.slice_writeAll_one (Nat.zero_le _)
    have hfront := Layered.Buffer.slice_writeAll junk 0 key.tail.dropLast
    rw [Nat.zero_add, hglen] at hfront
    rw [hfront] at hslice
    dsimp only
    rw [hglen]
    exact hslice
  have hstring : arrayString (key.length - 1)
      (writeAll (writeAll junk 0 key.tail.dropLast) (key.length - 2) [0]) =
        .ok ⟨key.tail.dropLast, hgroup⟩
          (writeAll (writeAll junk 0 key.tail.dropLast) (key.length - 2) [0]) := by
    rw [arrayString, get_bind, if_pos hholds.zero_mem, hholds.ofBytes]
    rfl
  unfold preCommand withArray
  rw [htake, bind_of_ok hfirst, bind_of_ok hsecond, hstring]

/-- The text of a command has to leave room for its zero. -/
theorem expandCommand_eq {nested : NestedExpand}
    {outcome : List UInt8 → Nat → Produced UInt8 ExpandFault}
    (hnested : AgreesNested nested outcome) (group : CStr) (s : Output) :
    match outcome group.bytes maxCyamlFormatStr with
    | .done t => expandCommand junk nested group s =
        if t.length < maxCyamlFormatStr then .ok (some (CStr.ofBytes t)) s
        else .error (.fault .outside) s
    | .error => expandCommand junk nested group s = .ok none s
    | .deep => expandCommand junk nested group s = .error .deep s
    | .stop f => expandCommand junk nested group s = .error (.fault f) s := by
  have h := hnested group maxCyamlFormatStr ⟨junk, 0⟩ (Nat.zero_le _)
  rw [Nat.sub_zero] at h
  unfold Agrees at h
  unfold expandCommand
  cases hout : outcome group.bytes maxCyamlFormatStr with
  | done t =>
    rw [hout] at h
    obtain ⟨c, hrun, hidx, hslice⟩ := h
    rw [Nat.zero_add] at hidx
    rw [Layered.Buffer.slice_self, List.nil_append, hidx] at hslice
    dsimp only
    rw [hrun]
    dsimp only
    rw [hidx]
    by_cases hfits : t.length < maxCyamlFormatStr
    · rw [if_pos hfits, if_pos hfits, ← Layered.Buffer.slice_append (Nat.zero_le _)
        (Nat.le_of_lt hfits), Layered.Buffer.slice_store (.inr (Nat.le_refl _)), hslice,
        Layered.Buffer.slice_cons hfits, Layered.Buffer.store_same, CStr.ofBytes_append_zero]
    · rw [if_neg hfits, if_neg hfits]
  | error =>
    rw [hout] at h
    obtain ⟨c, hrun⟩ := h
    dsimp only
    rw [hrun]
  | deep =>
    rw [hout] at h
    obtain ⟨c, hrun⟩ := h
    dsimp only
    rw [hrun]
  | stop f =>
    rw [hout] at h
    obtain ⟨c, hrun⟩ := h
    dsimp only
    rw [hrun]

theorem runCommand_agrees {nested : NestedExpand}
    {outcome : List UInt8 → Nat → Produced UInt8 ExpandFault}
    (hnested : AgreesNested nested outcome)
    (hbound : ∀ {v r t}, outcome v r = .done t → t.length ≤ r) {restricted commands : Bool}
    {key : List UInt8} (hlen : 2 ≤ key.length) (hfree : (0 : UInt8) ∉ key)
    (hkey : keyMeaning env node commands key = .command key.tail.dropLast) {maxlen : Nat}
    {s : Output} (hs : s.idxOut ≤ maxlen) :
    Agrees (runCommand env junk nested key maxlen restricted)
      (evalRef (language env node restricted) outcome commands key (maxlen - s.idxOut)) s := by
  obtain ⟨group, hgroup, hpre⟩ : ∃ group : CStr, group.bytes = key.tail.dropLast ∧
      preCommand junk key s = .ok group s := preCommand_eq hlen hfree s
  have hmeaning : (language env node restricted).meaning commands key =
      .command key.tail.dropLast := hkey
  have hcommand := @expandCommand_eq junk nested outcome hnested group s
  unfold runCommand evalRef
  rw [hmeaning, ← hgroup]
  dsimp only
  change Agrees _ ((outcome group.bytes maxCyamlFormatStr).andThen _) s
  cases hout : outcome group.bytes maxCyamlFormatStr with
  | done t =>
    rw [hout] at hcommand
    dsimp only at hcommand
    rw [Produced.andThen_done]
    by_cases hfull : t.length = maxCyamlFormatStr
    · rw [if_neg (by omega)] at hcommand
      have hsize : t.length = (language env node restricted).size := hfull
      rw [if_pos hsize]
      exact ⟨s, (bind_of_ok hpre).trans (bind_of_error hcommand)⟩
    · rw [if_pos (Nat.lt_of_le_of_ne (hbound hout) hfull)] at hcommand
      have hsize : ¬ t.length = (language env node restricted).size := hfull
      rw [if_neg hsize]
      have hexec := @execCmd_agrees env maxlen s hs (CStr.ofBytes t) restricted
      have hrun : ∀ room, (language env node restricted).run t room =
          Conf.execCmd env (CStr.ofBytes t) room restricted := fun _ => rfl
      rw [hrun]
      refine Agrees.of_eq (y := execCmd env (CStr.ofBytes t) maxlen restricted) ?_ ?_
      · cases hout : Conf.execCmd env (CStr.ofBytes t) (maxlen - s.idxOut) restricted with
        | none =>
          rw [hout] at hexec
          exact hexec
        | some out =>
          rw [hout] at hexec
          exact hexec
      · rw [bind_of_ok hpre, bind_of_ok hcommand]
  | error =>
    rw [hout] at hcommand
    exact ⟨s, by rw [bind_of_ok hpre, bind_of_ok hcommand]; rfl⟩
  | deep =>
    rw [hout] at hcommand
    exact ⟨s, by rw [bind_of_ok hpre, bind_of_error hcommand]⟩
  | stop f =>
    rw [hout] at hcommand
    exact ⟨s, by rw [bind_of_ok hpre, bind_of_error hcommand]⟩

theorem ref_agrees {nested : NestedExpand}
    {outcome : List UInt8 → Nat → Produced UInt8 ExpandFault}
    (hnested : AgreesNested nested outcome)
    (hbound : ∀ {v r t}, outcome v r = .done t → t.length ≤ r) {withcmd maxlen : Nat}
    {cs : List UInt8} (hfree : (0 : UInt8) ∉ cs) {s : Output} (hs : s.idxOut ≤ maxlen) :
    Agrees (if 2 ≤ computeKeyLength cs ∧
        (cs.take (computeKeyLength cs)).head? = some openParen ∧ 0 < withcmd then
        runCommand env junk nested (cs.take (computeKeyLength cs)) maxlen (withcmd == 1)
      else getDefault env junk node nested (cs.take (computeKeyLength cs)) maxlen)
      (evalRef (language env node (withcmd == 1)) outcome (decide (0 < withcmd))
        (cs.take (computeKeyLength cs)) (maxlen - s.idxOut)) s := by
  have hlen := length_key cs
  have hkey : ¬ (0 : UInt8) ∈ cs.take (computeKeyLength cs) :=
    fun h => hfree (List.mem_of_mem_take h)
  generalize cs.take (computeKeyLength cs) = key at hlen hkey ⊢
  rw [← hlen]
  by_cases hcmd : 2 ≤ key.length ∧ key.head? = some openParen ∧ 0 < withcmd
  · rw [if_pos hcmd]
    refine runCommand_agrees hnested hbound hcmd.1 hkey ?_ hs
    exact if_pos ⟨hcmd.1, hcmd.2.1, decide_eq_true hcmd.2.2⟩
  · rw [if_neg hcmd]
    refine getDefault_agrees hnested ?_ hs
    exact if_neg fun h => hcmd ⟨h.1, h.2.1, of_decide_eq_true h.2.2⟩

theorem Agrees.next {x y : OutputM Bool} {o : Produced UInt8 ExpandFault} {s : Output}
    {rest : Nat → Produced UInt8 ExpandFault} {maxlen : Nat} (hs : s.idxOut ≤ maxlen)
    (hx : Agrees x o s) (hfits : ∀ t, o = .done t → t.length ≤ maxlen - s.idxOut)
    (hy : ∀ s', s'.idxOut ≤ maxlen → Agrees y (rest (maxlen - s'.idxOut)) s') :
    Agrees (do if ← x then y else pure false)
      (o.andThen fun t => (rest (maxlen - s.idxOut - t.length)).after t) s := by
  refine hx.bind (f := fun t => rest (maxlen - s.idxOut - t.length)) fun t s' ho hwrote => ?_
  have hlen := hfits t ho
  have h := hy s' (by rw [hwrote.idxOut]; omega)
  rwa [hwrote.idxOut, ← Nat.sub_sub] at h

section

variable {nested : NestedExpand} {outcome : List UInt8 → Nat → Produced UInt8 ExpandFault}

/-- **The loop** writes what the tokens are replaced by. -/
theorem expandFrom_agrees (hnested : AgreesNested nested outcome)
    (hbound : ∀ {v r t}, outcome v r = .done t → t.length ≤ r) {withcmd maxlen : Nat} :
    ∀ (inputS : List UInt8), (0 : UInt8) ∉ inputS → ∀ (prev : Option UInt8) (skip : Nat),
      LookBehind prev skip inputS → ∀ s : Output, s.idxOut ≤ maxlen →
        Agrees (expandFrom env junk node nested maxlen withcmd inputS prev skip)
          (evalTokens (language env node (withcmd == 1)) outcome (decide (0 < withcmd))
            (tokensFrom inputS skip) (maxlen - s.idxOut)) s := by
  intro inputS
  induction inputS with
  | nil => intro _ prev skip _ s _; exact ⟨s, rfl, wrote_nil s⟩
  | cons c cs ih =>
    intro hfree prev skip hback s hs
    have hcs : (0 : UInt8) ∉ cs := fun h => hfree (List.mem_cons_of_mem c h)
    -- a byte that is written, and what follows
    have hput : ∀ (a : UInt8) (skip : Nat), LookBehind (some c) skip cs →
        Agrees (do if ← putOutput maxlen a then
            expandFrom env junk node nested maxlen withcmd cs (some c) skip else pure false)
          (evalTokens (language env node (withcmd == 1)) outcome (decide (0 < withcmd))
            (.char a :: tokensFrom cs skip) (maxlen - s.idxOut)) s := by
      intro a skip hnext
      have h := (putOutput_agrees hs a).next hs (fun t ht => ?_) (ih hcs (some c) skip hnext)
      · rw [evalTokens]
        split at h
        · rw [if_pos ‹_›]
          exact h
        · rw [if_neg ‹_›]
          exact h
      · split at ht
        · cases ht
        · cases ht
          rw [List.length_singleton]
          omega
    cases skip with
    | succ skip => exact ih hcs (some c) skip hback.skip s hs
    | zero =>
      rw [expandFrom, tokensFrom]
      by_cases hesc : c = backslash ∧ cs.head? = some dollar
      · rw [if_pos hesc, if_pos hesc]
        exact hput dollar 1 (hesc.1 ▸ lookBehind_escape hesc.2)
      rw [if_neg hesc, if_neg hesc]
      by_cases hdollar : c = dollar
      · rw [if_pos ⟨hdollar, hback.unescaped hdollar⟩, if_pos hdollar]
        refine Agrees.next hs (ref_agrees hnested hbound hcs hs) (fun t ht => ?_)
          (ih hcs (some c) _ (hdollar ▸ lookBehind_key cs))
        exact evalRef_length_le _ _ _ hbound ht
      · rw [if_neg (fun h => hdollar h.1), if_neg hdollar]
        exact hput c 0 (lookBehind_char hesc)

end

theorem nestedEval_length_le {restricted : Bool} {depth : Nat} {v t : List UInt8} {r : Nat}
    (h : nestedEval (language env node restricted) depth v r = .done t) : t.length ≤ r :=
  (nestedEval_sound h).length_le

theorem keyMeaning_values (key : List UInt8) :
    keyMeaning env node false key = defaultMeaning env node key :=
  if_neg fun h => Bool.false_ne_true h.2.2

theorem defaultMeaning_ne_command (key group : List UInt8) :
    defaultMeaning env node key ≠ .command group := by
  unfold defaultMeaning
  split
  · split
    · exact nofun
    · exact nofun
    · split <;> exact nofun
  · split
    · exact nofun
    · split <;> exact nofun

/-- Values are expanded without commands, so that it doesn't matter how commands are run. -/
theorem evalTokens_restricted (a b : Bool) (N : List UInt8 → Nat → Produced UInt8 ExpandFault)
    (ts : List (Token UInt8)) : ∀ room, evalTokens (language env node a) N false ts room =
      evalTokens (language env node b) N false ts room := by
  induction ts with
  | nil => exact fun _ => rfl
  | cons tok ts ih =>
    intro room
    cases tok with
    | char c => rw [evalTokens, evalTokens, ih]
    | ref key =>
      have href : evalRef (language env node a) N false key room =
          evalRef (language env node b) N false key room := by
        have hkey : ∀ r, (language env node r).meaning false key = defaultMeaning env node key :=
          fun _ => keyMeaning_values key
        unfold evalRef
        rw [hkey a, hkey b]
        cases hm : defaultMeaning env node key with
        | command group => exact absurd hm (defaultMeaning_ne_command key group)
        | _ => rfl
      rw [evalTokens, evalTokens, href]
      exact congrArg _ (funext fun u => by rw [ih])

theorem nestedEval_restricted (env : RedEnv) (node : Option ExpandCtx) (a b : Bool) (depth : Nat) :
    nestedEval (language env node a) depth = nestedEval (language env node b) depth := by
  induction depth with
  | zero => rfl
  | succ depth ih =>
    funext v room
    rw [nestedEval, nestedEval, ih]
    exact evalTokens_restricted a b _ _ room

theorem agreesNested_deep :
    AgreesNested (fun _ _ => throw .deep) (nestedEval (language env node false) 0) :=
  fun _ _ s _ => ⟨s, rfl⟩

/-- **The expansion** of a string, at any bound of the nesting. -/
theorem defaultsExpand_agrees (depth : Nat) : ∀ (inputS : CStr) (maxlen withcmd : Nat) (s : Output),
    s.idxOut ≤ maxlen →
      Agrees (defaultsExpand env junk node depth inputS.bytes maxlen withcmd)
        (eval (language env node (withcmd == 1)) depth (decide (0 < withcmd))
          (tokensFrom inputS.bytes 0) (maxlen - s.idxOut)) s := by
  have hstart : ∀ cs : List UInt8, LookBehind none 0 cs := fun cs h => nomatch h
  induction depth with
  | zero =>
    intro inputS maxlen withcmd s hs
    rw [eval, nestedEval_restricted env node _ false]
    exact expandFrom_agrees agreesNested_deep nestedEval_length_le inputS.bytes inputS.nulFree
      none 0 (hstart _) s hs
  | succ depth ih =>
    intro inputS maxlen withcmd s hs
    rw [eval, nestedEval_restricted env node _ false]
    exact expandFrom_agrees (fun value maxlen s hs => ih value maxlen 0 s hs) nestedEval_length_le
      inputS.bytes inputS.nulFree none 0 (hstart _) s hs

end Stored
end Conf
end RedPak
