import RedPak.Conf.Schema

/-!
# Conf.Expand

The expansion of strings (`redconf-expand.c`). `$KEY` stands for a default value or for an
environment variable, whose own value is expanded too, and `$(COMMAND)` for the output of a command.

An expansion writes behind what the output buffer holds already, here a list of bytes. The nesting
of values is not bounded in the source: `defaultsExpand` takes a bound, and says when it is met.

* `defaultsExpand_text`: without commands, the text that is written depends neither on what the
  buffer holds already nor on its length, as long as it fits.
* `expandedText_nulFree`: it has no zero byte.
-/

namespace RedPak
namespace Conf

/-! ## Bytes -/

def colon : UInt8 := 0x3A
def dollar : UInt8 := 0x24
def backslash : UInt8 := 0x5C
def openParen : UInt8 := 0x28
def closeParen : UInt8 := 0x29

def CStr.append (a b : CStr) : CStr := ⟨a.bytes ++ b.bytes, by simp [a.nulFree, b.nulFree]⟩

/-! ## Default values -/

/-- `MAX_CYAML_FORMAT_STR` -/
def maxCyamlFormatStr : Nat := 512

/-- What a process reads outside of its memory. A command gives the content of the file that takes
its output, unless it could not be run. -/
structure RedEnv where
  secureGetenv : CStr → Option CStr
  cgroupRoot : CStr
  getuid : Nat
  getgid : Nat
  getpid : Nat
  dateOfToday : CStr
  freshUUID : CStr
  memFdExecCmd : CStr → Bool → Option (List UInt8)

/-- An entry of `vardefs`, with its callback applied to the entry. -/
structure VarDef where
  key : CStr
  callback : RedEnv → ExpandCtx → Nat → Option CStr

def putString (value : CStr) (size : Nat) : Option CStr :=
  if value.bytes.length < size then some value else none

def getDecimal (value : Nat) (size : Nat) : Option CStr := putString (CStr.decimal value) size

def getUndefined (key : CStr) (size : Nat) : Option CStr :=
  putString ((CStr.lit "#undef:").append key) size

def getNewUUID : RedEnv → ExpandCtx → Nat → Option CStr := fun env _ size =>
  if size < 37 then none else some env.freshUUID

def getDateString : RedEnv → ExpandCtx → Nat → Option CStr := fun env _ size =>
  if env.dateOfToday.bytes = [] then none else putString env.dateOfToday size

def getUid : RedEnv → ExpandCtx → Nat → Option CStr := fun env node size =>
  match node.leaf.bind (·.earlyconf.setuser) with
  | some setuser => putString setuser size
  | none => getDecimal env.getuid size

def getGid : RedEnv → ExpandCtx → Nat → Option CStr := fun env node size =>
  match node.leaf.bind (·.earlyconf.setgroup) with
  | some setgroup => putString setgroup size
  | none => getDecimal env.getgid size

def getPid : RedEnv → ExpandCtx → Nat → Option CStr := fun env _ size => getDecimal env.getpid size

def getString (svalue : CStr) : RedEnv → ExpandCtx → Nat → Option CStr := fun _ _ size =>
  putString svalue size

def getEnviron (key : CStr) (svalue : Option CStr) : RedEnv → ExpandCtx → Nat → Option CStr :=
  fun env _ size =>
    match env.secureGetenv key, svalue with
    | some value, _ => putString value size
    | none, some value => putString value size
    | none, none => getUndefined key size

def getCgroupRoot : RedEnv → ExpandCtx → Nat → Option CStr := fun env _ size =>
  putString env.cgroupRoot size

inductive RednodeInfo where
  | infoAlias
  | infoName
  | infoPath
  | infoInfo

/-- `GetThisNodeInfo` -/
def getThisNodeInfo (headers : Option RedConfHeader) (redpath : CStr) (key : CStr)
    (info : RednodeInfo) (size : Nat) : Option CStr :=
  let value := match info with
    | .infoAlias => headers.map (·.nodeAlias)
    | .infoName => headers.bind (·.name)
    | .infoPath => some redpath
    | .infoInfo => headers.bind (·.info)
  match value with
  | some value => putString value size
  | none => getUndefined key size

def getNodeInfo (key : CStr) (info : RednodeInfo) : RedEnv → ExpandCtx → Nat → Option CStr :=
  fun _ node size => getThisNodeInfo node.headers node.redpath key info size

/-- `node->leaf ?: node` -/
def getLeafInfo (key : CStr) (info : RednodeInfo) : RedEnv → ExpandCtx → Nat → Option CStr :=
  fun _ node size =>
    match node.leaf with
    | some leaf => getThisNodeInfo leaf.headers leaf.redpath key info size
    | none => getThisNodeInfo node.headers node.redpath key info size

def environEntry (key : String) (svalue : String) : VarDef :=
  ⟨CStr.lit key, getEnviron (CStr.lit key) (some (CStr.lit svalue))⟩

def stringEntry (key : String) (svalue : String) : VarDef :=
  ⟨CStr.lit key, getString (CStr.lit svalue)⟩

def nodeEntry (key : String) (info : RednodeInfo) : VarDef :=
  ⟨CStr.lit key, getNodeInfo (CStr.lit key) info⟩

def leafEntry (key : String) (info : RednodeInfo) : VarDef :=
  ⟨CStr.lit key, getLeafInfo (CStr.lit key) info⟩

def vardefs : List VarDef := [
  environEntry "NODE_PREFIX" "",
  environEntry "redpak_MAIN" "$NODE_PREFIX/etc/redpak/main.yaml",
  environEntry "redpak_TMPL" "$NODE_PREFIX/etc/redpak/templates.d",
  stringEntry "REDNODE_CONF" "$NODE_PATH/etc/redpak.yaml",
  stringEntry "REDNODE_ADMIN" "$NODE_PATH/etc/redpak-admin.yaml",
  stringEntry "REDNODE_STATUS" "$NODE_PATH/.rednode.yaml",
  stringEntry "REDNODE_VARDIR" "$NODE_PATH/var/rpm/lib",
  stringEntry "REDNODE_REPODIR" "$NODE_PATH/etc/yum.repos.d",
  stringEntry "REDNODE_LOCK" "$NODE_PATH/.rpm.lock",
  environEntry "USER" "Unknown",
  environEntry "LOGNAME" "Unknown",
  environEntry "HOSTNAME" "localhost",
  ⟨CStr.lit "CGROUPS_MOUNT_POINT", getCgroupRoot⟩,
  ⟨CStr.lit "PID", getPid⟩,
  ⟨CStr.lit "UID", getUid⟩,
  ⟨CStr.lit "GID", getGid⟩,
  ⟨CStr.lit "TODAY", getDateString⟩,
  ⟨CStr.lit "UUID", getNewUUID⟩,
  nodeEntry "NODE_ALIAS" .infoAlias,
  nodeEntry "NODE_NAME" .infoName,
  nodeEntry "NODE_PATH" .infoPath,
  nodeEntry "NODE_INFO" .infoInfo,
  leafEntry "LEAF_ALIAS" .infoAlias,
  leafEntry "LEAF_NAME" .infoName,
  leafEntry "LEAF_PATH" .infoPath,
  leafEntry "LEAF_INFO" .infoInfo,
  environEntry "REDPESK_VERSION" "agl-redpesk9"]

/-! ## Keys -/

/-- `[0-9A-Z_a-z]` -/
def isKeyChar (c : UInt8) : Bool :=
  !(c < 0x30 || (0x39 < c && c < 0x41) || (0x5A < c && c < 0x5F) || (0x5F < c && c < 0x61) ||
    0x7A < c)

def computeKeyLengthFrom : List UInt8 → (len npar : Nat) → Nat
  | [], len, npar => if npar = 0 then len else 0
  | c :: cs, len, npar =>
    if c = openParen ∧ (len = 0 ∨ 0 < npar) then computeKeyLengthFrom cs (len + 1) (npar + 1)
    else if 0 < npar then
      if c = closeParen then
        if npar = 1 then len + 1 else computeKeyLengthFrom cs (len + 1) (npar - 1)
      else computeKeyLengthFrom cs (len + 1) npar
    else if isKeyChar c then computeKeyLengthFrom cs (len + 1) npar
    else len

def computeKeyLength (inputS : List UInt8) : Nat := computeKeyLengthFrom inputS 0 0

/-! ## Expansion -/

/-- What an expansion ends with: the content of the output buffer, an error, more nested values
than the bound, or a store outside of a buffer. -/
inductive Expansion where
  | done (outputS : List UInt8)
  | error
  | deep
  | fault
deriving DecidableEq

/-- Expands a value into an output buffer of some length, without commands. -/
abbrev NestedExpand := List UInt8 → List UInt8 → Nat → Expansion

section

variable (env : RedEnv)

/-- `ExecCmd`: the output has to be there, and to fit with a zero behind it. -/
def execCmd (command : CStr) (size : Nat) (restricted : Bool) : Option (List UInt8) :=
  match env.memFdExecCmd command restricted with
  | none => none
  | some output =>
    if output = [] ∨ size ≤ output.length then none else some (output.takeWhile (· != 0))

variable (node : ExpandCtx)

def expandEnvvar (nested : NestedExpand) (key : List UInt8) (outputS : List UInt8)
    (maxlen : Nat) : Expansion :=
  match env.secureGetenv (CStr.ofBytes key) with
  | none => .done outputS
  | some value => if value.bytes = [] then .done outputS else nested value.bytes outputS maxlen

def getDefault (nested : NestedExpand) (key : List UInt8) (outputS : List UInt8)
    (maxlen : Nat) : Expansion :=
  match vardefs.find? fun d => d.key.bytes = key with
  | some d =>
    match d.callback env node maxCyamlFormatStr with
    | some value => nested value.bytes outputS maxlen
    | none => .error
  | none => expandEnvvar env nested key outputS maxlen

/-- The loop of `defaultsExpand`: `prev` is the byte before the input, of which the first `skip`
bytes belong to a key. -/
def expandFrom (nested : NestedExpand) (maxlen withcmd : Nat) :
    (inputS : List UInt8) → (prev : Option UInt8) → (skip : Nat) → (outputS : List UInt8) →
      Expansion
  | [], _, _, outputS => .done outputS
  | c :: cs, _, skip + 1, outputS => expandFrom nested maxlen withcmd cs (some c) skip outputS
  | c :: cs, prev, 0, outputS =>
    if c = backslash ∧ cs.head? = some dollar then
      if outputS.length = maxlen then .error
      else expandFrom nested maxlen withcmd cs (some c) 1 (outputS ++ [dollar])
    else if c = dollar ∧ prev ≠ some backslash then
      let keylen := computeKeyLength cs
      let key := cs.take keylen
      if 2 ≤ keylen ∧ key.head? = some openParen ∧ 0 < withcmd then
        match nested key.tail.dropLast [] maxCyamlFormatStr with
        | .done command =>
          if command.length = maxCyamlFormatStr then .fault
          else
            match execCmd env (CStr.ofBytes command) (maxlen - outputS.length) (withcmd == 1) with
            | some text =>
              expandFrom nested maxlen withcmd cs (some c) keylen (outputS ++ text)
            | none => .error
        | other => other
      else
        match getDefault env node nested key outputS maxlen with
        | .done outputS => expandFrom nested maxlen withcmd cs (some c) keylen outputS
        | other => other
    else if outputS.length = maxlen then .error
    else expandFrom nested maxlen withcmd cs (some c) 0 (outputS ++ [c])

def defaultsExpand : (depth : Nat) → (inputS outputS : List UInt8) → (maxlen withcmd : Nat) →
    Expansion
  | 0, inputS, outputS, maxlen, withcmd =>
    expandFrom env node (fun _ _ _ => .deep) maxlen withcmd inputS none 0 outputS
  | depth + 1, inputS, outputS, maxlen, withcmd =>
    expandFrom env node (fun value outputS maxlen => defaultsExpand depth value outputS maxlen 0)
      maxlen withcmd inputS none 0 outputS

/-- NULL for an expansion that fails; `none` for one that does not end in a string or NULL. -/
def redNodeStringExpand (depth : Nat) (inputS : CStr) : Option (Option CStr) :=
  match defaultsExpand env node depth inputS.bytes [] maxCyamlFormatStr 1 with
  | .done outputS => some (some (CStr.ofBytes outputS))
  | .error => some none
  | .deep => none
  | .fault => none

end

/-! ## The text of an expansion -/

/-- The text `t` is written when it fits. -/
def Writes (f : List UInt8 → Nat → Expansion) (t : List UInt8) : Prop :=
  ∀ o m, o.length ≤ m → f o m = if o.length + t.length ≤ m then .done (o ++ t) else .error

/-- One text is written, or the expansion is never done. -/
def Textual (f : List UInt8 → Nat → Expansion) : Prop :=
  (∃ t, (0 : UInt8) ∉ t ∧ Writes f t) ∨ ∀ o m out, o.length ≤ m → f o m ≠ .done out

theorem writes_nil : Writes (fun o _ => .done o) [] := by
  intro o m h
  simp [h]

theorem textual_nil : Textual fun o _ => .done o := .inl ⟨[], by simp, writes_nil⟩

theorem textual_error : Textual fun _ _ => .error := .inr fun _ _ _ _ h => by cases h

theorem Textual.bind {f g : List UInt8 → Nat → Expansion} (hf : Textual f) (hg : Textual g) :
    Textual fun o m => match f o m with
      | .done o => g o m
      | other => other := by
  rcases hf with ⟨t, ht, hf⟩ | hf
  · rcases hg with ⟨u, hu, hg⟩ | hg
    · refine .inl ⟨t ++ u, by simp [ht, hu], fun o m ho => ?_⟩
      by_cases hfit : o.length + t.length ≤ m
      · simp only [hf o m ho, if_pos hfit, hg (o ++ t) m (by simpa using hfit)]
        simp [Nat.add_assoc]
      · simp only [hf o m ho, if_neg hfit, List.length_append]
        rw [if_neg (by omega)]
    · refine .inr fun o m out ho => ?_
      by_cases hfit : o.length + t.length ≤ m
      · simpa only [hf o m ho, if_pos hfit] using hg (o ++ t) m out (by simpa using hfit)
      · simp [hf o m ho, if_neg hfit]
  · refine .inr fun o m out ho h => ?_
    cases hfo : f o m with
    | done o' => exact hf o m o' ho hfo
    | error => simp [hfo] at h
    | deep => simp [hfo] at h
    | fault => simp [hfo] at h

theorem textual_put {c : UInt8} (hc : c ≠ 0) :
    Textual fun o m => if o.length = m then .error else .done (o ++ [c]) := by
  refine .inl ⟨[c], by simpa using hc.symm, fun o m ho => ?_⟩
  by_cases h : o.length = m
  · simp [h]
  · have hlt : o.length + 1 ≤ m := by omega
    simp [h, hlt]

section

variable (env : RedEnv) (node : ExpandCtx) {nested : NestedExpand}

theorem getDefault_textual (hnested : ∀ value : CStr, Textual (nested value.bytes))
    (key : List UInt8) : Textual (getDefault env node nested key) := by
  unfold getDefault
  cases vardefs.find? fun d => d.key.bytes = key with
  | some d =>
    cases hv : d.callback env node maxCyamlFormatStr with
    | some value => simpa only [hv] using hnested value
    | none => simpa only [hv] using textual_error
  | none =>
    simp only [expandEnvvar]
    cases env.secureGetenv (CStr.ofBytes key) with
    | none => exact textual_nil
    | some value =>
      by_cases h : value.bytes = []
      · simpa only [h, if_true] using textual_nil
      · simpa only [h, if_false] using hnested value

theorem expandFrom_textual (hnested : ∀ value : CStr, Textual (nested value.bytes)) :
    ∀ (inputS : List UInt8), (0 : UInt8) ∉ inputS → ∀ (prev : Option UInt8) (skip : Nat),
      Textual fun o m => expandFrom env node nested m 0 inputS prev skip o := by
  intro inputS
  induction inputS with
  | nil => intro _ prev skip; exact textual_nil
  | cons c cs ih =>
    intro h0 prev skip
    have hc : c ≠ 0 := fun e => h0 (by simp [e])
    have ih := ih fun hm => h0 (by simp [hm])
    cases skip with
    | succ skip => exact ih (some c) skip
    | zero =>
      by_cases hesc : c = backslash ∧ cs.head? = some dollar
      · have hput := (textual_put (c := dollar) (by decide)).bind (ih (some c) 1)
        refine Eq.mp (congrArg Textual ?_) hput
        funext o m
        simp only [expandFrom, if_pos hesc]
        split <;> rename_i hsplit <;> split at hsplit <;> simp_all
      · by_cases hdol : c = dollar ∧ prev ≠ some backslash
        · have hget := (getDefault_textual env node hnested
            (cs.take (computeKeyLength cs))).bind (ih (some c) (computeKeyLength cs))
          refine Eq.mp (congrArg Textual ?_) hget
          funext o m
          have hcmd : ¬ (2 ≤ computeKeyLength cs ∧
              (cs.take (computeKeyLength cs)).head? = some openParen ∧ 0 < 0) :=
            fun h => Nat.lt_irrefl 0 h.2.2
          rw [expandFrom, if_neg hesc, if_pos hdol]
          exact (if_neg hcmd).symm
        · have hput := (textual_put hc).bind (ih (some c) 0)
          refine Eq.mp (congrArg Textual ?_) hput
          funext o m
          simp only [expandFrom, if_neg hesc, if_neg hdol]
          split <;> rename_i hsplit <;> split at hsplit <;> simp_all

theorem defaultsExpand_textual (depth : Nat) : ∀ inputS : CStr,
    Textual fun o m => defaultsExpand env node depth inputS.bytes o m 0 := by
  induction depth with
  | zero =>
    intro inputS
    exact expandFrom_textual env node (fun _ => .inr fun _ _ _ _ h => by cases h) _ inputS.nulFree
      none 0
  | succ depth ih =>
    intro inputS
    exact expandFrom_textual env node ih _ inputS.nulFree none 0

end

/-- The text of a string without commands, unless it fails or is longer than `size`. -/
def expandedText (env : RedEnv) (node : ExpandCtx) (depth size : Nat) (inputS : CStr) :
    Option (List UInt8) :=
  match defaultsExpand env node depth inputS.bytes [] size 0 with
  | .done t => some t
  | _ => none

variable {env : RedEnv} {node : ExpandCtx}

theorem expandedText_eq_some {depth size : Nat} {inputS : CStr} {t : List UInt8} :
    expandedText env node depth size inputS = some t ↔
      defaultsExpand env node depth inputS.bytes [] size 0 = .done t := by
  unfold expandedText
  cases defaultsExpand env node depth inputS.bytes [] size 0 <;> simp

/-- **Expansion without commands.** What is written is the text of the string, which does not
depend on the buffer. -/
theorem defaultsExpand_text {depth maxlen size : Nat} {inputS : CStr} {o out : List UInt8}
    (ho : o.length ≤ maxlen) (hsize : maxlen ≤ size) :
    defaultsExpand env node depth inputS.bytes o maxlen 0 = .done out ↔
      ∃ t, expandedText env node depth size inputS = some t ∧ o.length + t.length ≤ maxlen ∧
        out = o ++ t := by
  simp only [expandedText_eq_some]
  rcases defaultsExpand_textual env node depth inputS with ⟨t, -, hw⟩ | hf
  · have hrun : defaultsExpand env node depth inputS.bytes o maxlen 0 = _ := hw o maxlen ho
    have htext : defaultsExpand env node depth inputS.bytes [] size 0 = _ :=
      hw [] size (Nat.zero_le _)
    rw [List.length_nil, Nat.zero_add, List.nil_append] at htext
    rw [hrun, htext]
    by_cases hfit : o.length + t.length ≤ maxlen
    · have hs : t.length ≤ size := by omega
      rw [if_pos hfit, if_pos hs, Expansion.done.injEq]
      refine ⟨fun h => ⟨t, rfl, hfit, h.symm⟩, ?_⟩
      rintro ⟨u, hu, -, rfl⟩
      rw [Expansion.done.inj hu]
    · rw [if_neg hfit]
      refine ⟨nofun, ?_⟩
      rintro ⟨u, hu, hlen, -⟩
      split at hu
      · exact absurd (Expansion.done.inj hu ▸ hlen) hfit
      · cases hu
  · exact ⟨fun h => absurd h (hf o maxlen out ho),
      fun ⟨t, ht, _⟩ => absurd ht (hf [] size t (Nat.zero_le _))⟩

theorem expandedText_nulFree {depth size : Nat} {inputS : CStr} {t : List UInt8}
    (h : expandedText env node depth size inputS = some t) : (0 : UInt8) ∉ t := by
  rw [expandedText_eq_some] at h
  rcases defaultsExpand_textual env node depth inputS with ⟨u, hu, hw⟩ | hf
  · have htext : defaultsExpand env node depth inputS.bytes [] size 0 = _ :=
      hw [] size (Nat.zero_le _)
    rw [h, List.nil_append] at htext
    split at htext
    · exact Expansion.done.inj htext ▸ hu
    · cases htext
  · exact absurd h (hf [] size t (Nat.zero_le _))

/-- **Text without a dollar** is copied as it is, as long as there is room. -/
theorem expandFrom_noDollar (nested : NestedExpand) {maxlen withcmd : Nat} (inputS : List UInt8) :
    dollar ∉ inputS → ∀ (prev : Option UInt8) (outputS : List UInt8),
      outputS.length + inputS.length ≤ maxlen →
        expandFrom env node nested maxlen withcmd inputS prev 0 outputS =
          .done (outputS ++ inputS) := by
  induction inputS with
  | nil => intro _ prev outputS _; rw [expandFrom, List.append_nil]
  | cons c cs ih =>
    intro hno prev outputS hroom
    have hc : ¬ (c = dollar ∧ prev ≠ some backslash) := fun h => hno (by simp [h.1])
    have hcs : ¬ (c = backslash ∧ cs.head? = some dollar) := fun h =>
      hno (List.mem_cons_of_mem c (List.mem_of_mem_head? h.2))
    have hlen : ¬ outputS.length = maxlen := by
      rw [List.length_cons] at hroom
      omega
    have hroom' : (outputS ++ [c]).length + cs.length ≤ maxlen := by
      rw [List.length_append, List.length_singleton]
      rw [List.length_cons] at hroom
      omega
    rw [expandFrom, if_neg hcs, if_neg hc, if_neg hlen,
      ih (fun h => hno (List.mem_cons_of_mem c h)) (some c) (outputS ++ [c]) hroom',
      List.append_assoc]
    rfl

theorem redNodeStringExpand_noDollar {depth : Nat} {v : CStr} (hno : dollar ∉ v.bytes)
    (hlen : v.bytes.length ≤ maxCyamlFormatStr) :
    redNodeStringExpand env node depth v = some (some v) := by
  have hrun : defaultsExpand env node depth v.bytes [] maxCyamlFormatStr 1 = .done v.bytes := by
    cases depth with
    | zero => exact expandFrom_noDollar _ v.bytes hno none [] (by simpa using hlen)
    | succ depth => exact expandFrom_noDollar _ v.bytes hno none [] (by simpa using hlen)
  rw [redNodeStringExpand, hrun]
  exact congrArg (fun v => some (some v)) (CStr.ofBytes_bytes v)

/-- What is written stays within the room. -/
def Bounded (f : NestedExpand) : Prop :=
  ∀ i o m out, o.length ≤ m → f i o m = .done out → out.length ≤ m

theorem getDefault_bounded {nested : NestedExpand} (hnested : Bounded nested) {key o : List UInt8}
    {m : Nat} {out : List UInt8} (ho : o.length ≤ m)
    (h : getDefault env node nested key o m = .done out) : out.length ≤ m := by
  unfold getDefault at h
  cases hfind : vardefs.find? fun d => d.key.bytes = key with
  | some d =>
    simp only [hfind] at h
    cases hv : d.callback env node maxCyamlFormatStr with
    | some value => rw [hv] at h; exact hnested _ _ _ _ ho h
    | none => rw [hv] at h; cases h
  | none =>
    simp only [hfind, expandEnvvar] at h
    cases hv : env.secureGetenv (CStr.ofBytes key) with
    | none =>
      rw [hv] at h
      obtain rfl := Expansion.done.inj h
      exact ho
    | some value =>
      simp only [hv] at h
      split at h
      · obtain rfl := Expansion.done.inj h
        exact ho
      · exact hnested _ _ _ _ ho h

theorem execCmd_length {command : CStr} {size : Nat} {restricted : Bool} {text : List UInt8}
    (h : execCmd env command size restricted = some text) : text.length < size := by
  unfold execCmd at h
  cases hout : env.memFdExecCmd command restricted with
  | none => rw [hout] at h; cases h
  | some output =>
    simp only [hout] at h
    split at h
    · cases h
    · rename_i hfit
      obtain rfl := Option.some.inj h
      rw [not_or, Nat.not_le] at hfit
      have hprefix := (List.takeWhile_prefix (fun b : UInt8 => b != 0) : _ <+: output).length_le
      omega

theorem expandFrom_bounded {nested : NestedExpand} (hnested : Bounded nested)
    {maxlen withcmd : Nat} (inputS : List UInt8) : ∀ (prev : Option UInt8) (skip : Nat)
      (outputS out : List UInt8), outputS.length ≤ maxlen →
        expandFrom env node nested maxlen withcmd inputS prev skip outputS = .done out →
          out.length ≤ maxlen := by
  induction inputS with
  | nil =>
    intro prev skip outputS out ho h
    rw [expandFrom] at h
    obtain rfl := Expansion.done.inj h
    exact ho
  | cons c cs ih =>
    intro prev skip outputS out ho h
    have hput : ∀ b, outputS.length ≠ maxlen → (outputS ++ [b]).length ≤ maxlen := by
      intro b hne
      rw [List.length_append, List.length_singleton]
      omega
    cases skip with
    | succ skip => exact ih _ _ _ _ ho h
    | zero =>
      rw [expandFrom] at h
      split at h
      · split at h
        · cases h
        · exact ih _ _ _ _ (hput _ (by assumption)) h
      · split at h
        · simp only at h
          split at h
          -- a command, whose output has to fit
          · split at h
            · rename_i command hcommand
              split at h
              · cases h
              · split at h
                · rename_i text hexec
                  have hlen := execCmd_length hexec
                  refine ih _ _ _ _ ?_ h
                  rw [List.length_append]
                  omega
                · cases h
            · rename_i hnot
              exact absurd h (hnot out)
          · split at h
            · rename_i o hget
              exact ih _ _ _ _ (getDefault_bounded hnested ho hget) h
            · rename_i hnot
              exact absurd h (hnot out)
        · split at h
          · cases h
          · exact ih _ _ _ _ (hput _ (by assumption)) h

theorem defaultsExpand_bounded (depth : Nat) : ∀ withcmd,
    Bounded fun i o m => defaultsExpand env node depth i o m withcmd := by
  induction depth with
  | zero =>
    intro withcmd i o m out ho h
    exact expandFrom_bounded (fun _ _ _ _ _ h => (by cases h)) i none 0 o out ho h
  | succ depth ih =>
    intro withcmd i o m out ho h
    exact expandFrom_bounded (ih 0) i none 0 o out ho h

theorem redNodeStringExpand_length {depth : Nat} {s v : CStr}
    (h : redNodeStringExpand env node depth s = some (some v)) :
    v.bytes.length ≤ maxCyamlFormatStr := by
  unfold redNodeStringExpand at h
  cases hrun : defaultsExpand env node depth s.bytes [] maxCyamlFormatStr 1 with
  | done out =>
    rw [hrun] at h
    obtain rfl := Option.some.inj (Option.some.inj h)
    have hout := defaultsExpand_bounded depth 1 _ _ _ _ (Nat.zero_le _) hrun
    exact Nat.le_trans (List.takeWhile_prefix _).length_le hout
  | error => rw [hrun] at h; cases h
  | deep => rw [hrun] at h; cases h
  | fault => rw [hrun] at h; cases h

/-- An environment without variables, in which no command can be run. -/
def emptyEnv : RedEnv where
  secureGetenv _ := none
  cgroupRoot := CStr.lit "/sys/fs/cgroup"
  getuid := 0
  getgid := 0
  getpid := 1
  dateOfToday := CStr.lit "01-Jan-2025 00:00 (UTC)"
  freshUUID := CStr.lit "00000000-0000-0000-0000-000000000000"
  memFdExecCmd _ _ := none

end Conf
end RedPak
