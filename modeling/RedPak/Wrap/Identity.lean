import RedPak.Conf.Precedence
import RedPak.Layered.Numeral
import RedPak.Wrap.Exec

/-!
# Wrap.Identity

The identity that `redwrapExecBwrap` switches to. What is set for the user and the group becomes a
text of digits in the early config of the leaf (`set_early_conf`), which `atoi` reads again.

* `getFinal_cases`: what becomes of a name or a number.
* `identify_cases`: the identity, for every command line, family and database.
* `asAsked_iff`: when it is the one that is asked for.
-/

namespace RedPak
namespace Wrap

open Conf
open Layered (numeral fill)

/-! ## Numbers -/

def isdigit (c : UInt8) : Bool := 0x30 ≤ c && c ≤ 0x39

def isspace (c : UInt8) : Bool := c = 0x20 || 0x09 ≤ c && c ≤ 0x0D

/-- test if str encodes a positive integral number -/
def isnum : List UInt8 → Bool
  | [] => false
  | c :: rest => isdigit c && (rest.isEmpty || isnum rest)

def digitValue (c : UInt8) : Nat := c.toNat - 0x30

def digitOf (rem : Nat) : UInt8 := 0x30 + UInt8.ofNat rem

/-- returns a string encoding the given value, filled in from the end of a buffer of 100 bytes -/
def num2str (value : Int) : Except Halt (Option CStr) :=
  if value < 0 then .ok none
  else
    match fill 10 digitOf 100 value.toNat [] with
    | none => .error .fault
    | some text => .ok (some (.ofBytes text))

/-- `strtol` with the base 10: spaces, a sign and digits; a `long` is of 64 bits, and what does not
fit is the nearest that does. -/
def strtol (s : CStr) : Int :=
  let text := s.bytes.dropWhile isspace
  let negative := text.head? = some 0x2D
  let digits := if negative ∨ text.head? = some 0x2B then text.tail else text
  let value : Int := numeral 10 digitValue (digits.takeWhile isdigit)
  if negative then max (-2 ^ 63) (-value) else min (2 ^ 63 - 1) value

/-- `(int)strtol(s, NULL, 10)` -/
def atoi (s : CStr) : Int := (strtol s).bmod (2 ^ 32)

/-- `(uid_t)atoi(s)`, and likewise `(gid_t)atoi(s)` -/
def idOf (s : CStr) : Nat := (atoi s % 2 ^ 32).toNat

/-! ## `set_early_conf` -/

/-- The databases of users and groups (the `pw_uid` and the `gr_gid` of the entries), and who runs
the process. -/
structure Accounts where
  getpwnam : CStr → Option UInt32
  getgrnam : CStr → Option UInt32
  getuid : UInt32
  getgid : UInt32

/-- The result, and `*dest`. -/
def getFinal (lookup : CStr → Option UInt32) : Option CStr → Except Halt (Int × Option CStr)
  | none => .ok (0, none)
  | some s => do
    let dest ←
      if isnum s.bytes then .ok (some s)
      else
        match lookup s with
        | some id => num2str id.toNat
        | none => .ok none
    .ok (if dest.isNone then 1 else 0, dest)

def getFinalUid (a : Accounts) (user : Option CStr) : Except Halt (Int × Option CStr) :=
  getFinal a.getpwnam user

def getFinalGid (a : Accounts) (group : Option CStr) : Except Halt (Int × Option CStr) :=
  getFinal a.getgrnam group

def getFinalSmk (smk : Option CStr) : Int × Option CStr := (0, smk)

section

variable (a : Accounts) (cliarg : RWrapConfig)

/-- The settings of the command line are taken before those of the configs; what is got is stored
in `final`. -/
def mixFinal (conf final : EarlyConf) : Except Halt (Int × EarlyConf) := do
  let (rc, setuser) ← getFinalUid a (cliarg.setuser.or conf.setuser)
  let final := { final with setuser := setuser }
  if rc ≠ 0 then return (1, final)
  let (rc, setgroup) ← getFinalGid a (cliarg.setgroup.or conf.setgroup)
  let final := { final with setgroup := setgroup }
  if rc ≠ 0 then return (1, final)
  let (rc, smack) := getFinalSmk (cliarg.smack.or conf.smack)
  return (if rc ≠ 0 then 1 else 0, { final with smack := smack })

/-- callback of early config; nothing runs in a process that has ended. -/
def earlymix : MixEarlyConfCb (Except Halt EarlyConf) := fun run conf _ =>
  match run with
  | .error halt => (0, .error halt)
  | .ok final =>
    match mixFinal a cliarg conf final with
    | .error halt => (0, .error halt)
    | .ok (rc, final) => (rc, .ok final)

/-- compute the early config, over the one that the leaf has -/
def setEarlyConf (rednode : Family) (final : EarlyConf) : Int × Except Halt EarlyConf :=
  mixEarlyConf rednode (earlymix a cliarg) (.ok final)

def credentials (earlyconf : EarlyConf) : Credentials where
  uid := earlyconf.setuser.elim a.getuid.toNat idOf
  gid := earlyconf.setgroup.elim a.getgid.toNat idOf
  smack := earlyconf.smack

def leafEarlyConf (rednode : Family) (final : EarlyConf) : Except Halt (Option EarlyConf) :=
  match setEarlyConf a cliarg rednode final with
  | (_, .error halt) => .error halt
  | (error, .ok earlyconf) => .ok (if error ≠ 0 then none else some earlyconf)

/-- The identity that `redwrapExecBwrap` switches to. -/
def identify (rednode : Family) (final : EarlyConf) : Except Halt (Option Credentials) :=
  (leafEarlyConf a cliarg rednode final).map (·.map (credentials a))

def withEarlyConf (earlyconf : EarlyConf) (node : RedNode) : RedNode :=
  { node with leaf := node.leaf.map fun leaf => { leaf with earlyconf := earlyconf } }

/-- `redwrapExecBwrap` for a rednode that is scanned and valid -/
def redwrapExecEarly {ω : Type} (os : ExecOs ω) (expand : ExpandCtx → CStr → Option CStr)
    (env : RedEnv) (depth : Nat) (commandName : CStr) (subargv : List CStr) (rednode : Family)
    (final : EarlyConf) (o : ω) (stack : Stack) : Except Ended Exec :=
  match leafEarlyConf a cliarg rednode final with
  | .error _ => .error .fault
  | .ok none => .error (.returned 1)
  | .ok (some earlyconf) =>
    redwrapExec os (credentials a earlyconf) expand env depth commandName cliarg subargv
      ⟨withEarlyConf earlyconf rednode.node, rednode.parents.map (withEarlyConf earlyconf)⟩ o stack

end

/-! ## Digits -/

theorem isnum_iff {bs : List UInt8} : isnum bs = true ↔ bs ≠ [] ∧ bs.all isdigit = true := by
  induction bs with
  | nil => simp [isnum]
  | cons c rest ih =>
    rw [isnum, Bool.and_eq_true, Bool.or_eq_true, ih]
    cases rest with
    | nil => simp
    | cons d rest => simp

theorem isdigit_iff {c : UInt8} : isdigit c = true ↔ 0x30 ≤ c.toNat ∧ c.toNat ≤ 0x39 := by
  rw [isdigit, Bool.and_eq_true, decide_eq_true_eq, decide_eq_true_eq, UInt8.le_iff_toNat_le,
    UInt8.le_iff_toNat_le]
  rfl

theorem toNat_digitOf {d : Nat} (h : d < 10) : (digitOf d).toNat = 0x30 + d := by
  rw [digitOf, UInt8.toNat_add, UInt8.toNat_ofNat']
  show (48 + d % 256) % 256 = 48 + d
  omega

theorem strtol_isnum {s : CStr} (h : isnum s.bytes = true) :
    strtol s = min (2 ^ 63 - 1) (numeral 10 digitValue s.bytes : Int) := by
  obtain ⟨hne, hdigits⟩ := isnum_iff.mp h
  have hall : s.bytes.takeWhile isdigit = s.bytes :=
    List.takeWhile_eq_self_iff.mpr (List.all_eq_true.mp hdigits)
  cases hbytes : s.bytes with
  | nil => exact absurd hbytes hne
  | cons c rest =>
    rw [hbytes] at hdigits hall
    have hc := isdigit_iff.mp (List.all_eq_true.mp hdigits c List.mem_cons_self)
    have hspace : isspace c = false := by
      rw [isspace, Bool.or_eq_false_iff, Bool.and_eq_false_iff]
      refine ⟨decide_eq_false fun heq => ?_, .inr (decide_eq_false fun hle => ?_)⟩
      · subst heq
        exact absurd hc.1 (by decide)
      · have hle' := UInt8.le_iff_toNat_le.mp hle
        exact absurd (Nat.le_trans hc.1 hle') (by decide)
    have hminus : c ≠ 0x2D := fun heq => by
      subst heq
      exact absurd hc.1 (by decide)
    have hplus : c ≠ 0x2B := fun heq => by
      subst heq
      exact absurd hc.1 (by decide)
    rw [strtol, hbytes, List.dropWhile_cons_of_neg (by rw [hspace]; exact Bool.false_ne_true)]
    simp only [List.head?_cons, Option.some.injEq, hminus, hplus, or_self, if_false, hall]

theorem idOf_isnum {s : CStr} (h : isnum s.bytes = true) :
    idOf s = min (2 ^ 63 - 1) (numeral 10 digitValue s.bytes) % 2 ^ 32 := by
  have hmod : atoi s % 2 ^ 32 = strtol s % 2 ^ 32 := Int.bmod_emod
  rw [idOf, hmod, strtol_isnum h]
  omega

/-- The value of a number is its identity as long as it is below 2^32. -/
theorem idOf_eq_iff {s : CStr} (h : isnum s.bytes = true) :
    idOf s = numeral 10 digitValue s.bytes ↔ numeral 10 digitValue s.bytes < 2 ^ 32 := by
  rw [idOf_isnum h]
  omega

/-- **A printed number** is read again. -/
theorem idOf_num2str (id : UInt32) : ∃ text, num2str id.toNat = .ok (some text) ∧
    idOf text = id.toNat := by
  have hlt : id.toNat < 2 ^ 32 := id.toNat_lt
  have hval : ∀ d < 10, digitValue (digitOf d) = d := by
    intro d hd
    rw [digitValue, toNat_digitOf hd]
    omega
  obtain ⟨ds, hfill, hne, hnum, hdigits⟩ := Layered.fill_spec 100 id.toNat hval
    (by decide) (by decide) (Nat.lt_of_lt_of_le hlt (by decide)) []
  rw [List.append_nil] at hfill
  have hdigit : ∀ c ∈ ds, isdigit c = true := by
    intro c hc
    obtain ⟨d, hd, rfl⟩ := hdigits c hc
    rw [isdigit_iff, toNat_digitOf hd]
    omega
  have hnul : (0 : UInt8) ∉ ds := fun hzero => absurd (hdigit 0 hzero) (by decide)
  have hbytes : (CStr.ofBytes ds).bytes = ds := CStr.bytes_ofBytes hnul
  have hisnum : isnum (CStr.ofBytes ds).bytes = true := by
    rw [hbytes]
    exact isnum_iff.mpr ⟨hne, List.all_eq_true.mpr hdigit⟩
  refine ⟨.ofBytes ds, ?_, ?_⟩
  · rw [num2str, if_neg (by omega), Int.toNat_natCast, hfill]
  · rw [(idOf_eq_iff hisnum).mpr (by rw [hbytes, hnum]; exact hlt), hbytes, hnum]

/-! ## What is asked for -/

/-- The number that a text asks for: its value, if it is made of digits only, or else that of the
entry of the name. -/
def asked (lookup : CStr → Option UInt32) (s : CStr) : Option Nat :=
  if s.bytes ≠ [] ∧ s.bytes.all isdigit = true then some (numeral 10 digitValue s.bytes)
  else (lookup s).map UInt32.toNat

def Unknown (lookup : CStr → Option UInt32) (s : CStr) : Prop :=
  isnum s.bytes = false ∧ lookup s = none

/-- A number has to be below 2^32. -/
def InRange (s : CStr) : Prop := isnum s.bytes = true → numeral 10 digitValue s.bytes < 2 ^ 32

/-- **What becomes of a setting**: it is refused, or kept as a text of the number it asks for. -/
theorem getFinal_cases (lookup : CStr → Option UInt32) (s : Option CStr) :
    (∃ name, s = some name ∧ Unknown lookup name ∧ getFinal lookup s = .ok (1, none)) ∨
    (∀ name, s = some name → ¬ Unknown lookup name) ∧ ∃ dest, getFinal lookup s = .ok (0, dest) ∧
      (s = none → dest = none) ∧ ∀ name, s = some name → ∃ text, dest = some text ∧
        (asked lookup name = some (idOf text) ↔ InRange name) := by
  cases s with
  | none =>
    exact .inr ⟨fun name h => (by cases h), none, rfl, fun _ => rfl, fun name h => (by cases h)⟩
  | some name =>
    by_cases hnum : isnum name.bytes = true
    · right
      refine ⟨?_, some name, ?_, fun h => (by cases h), ?_⟩
      · rintro _ ⟨⟩ ⟨hnot, -⟩
        rw [hnum] at hnot
        cases hnot
      · rw [getFinal, if_pos hnum]
        rfl
      · rintro _ ⟨⟩
        refine ⟨name, rfl, ?_⟩
        rw [asked, if_pos (isnum_iff.mp hnum), Option.some.injEq, eq_comm, idOf_eq_iff hnum]
        exact ⟨fun h _ => h, fun h => h hnum⟩
    · have hnot : isnum name.bytes = false := Bool.eq_false_iff.mpr hnum
      cases hlookup : lookup name with
      | none =>
        refine .inl ⟨name, rfl, ⟨hnot, hlookup⟩, ?_⟩
        rw [getFinal, if_neg hnum, hlookup]
        rfl
      | some id =>
        obtain ⟨text, hprint, hread⟩ := idOf_num2str id
        right
        refine ⟨?_, some text, ?_, fun h => (by cases h), ?_⟩
        · rintro _ ⟨⟩ ⟨-, hnone⟩
          rw [hlookup] at hnone
          cases hnone
        · rw [getFinal, if_neg hnum, hlookup]
          show (num2str id.toNat >>= _) = _
          rw [hprint]
          rfl
        · rintro _ ⟨⟩
          refine ⟨text, rfl, ?_⟩
          rw [asked, if_neg (fun h => hnum (isnum_iff.mpr h)), hlookup, hread]
          exact ⟨fun _ h => absurd h hnum, fun _ => rfl⟩

/-! ## The identity -/

inductive Account where
  | user
  | group
deriving DecidableEq

/-- The command line prevails, or else the setting that counts. -/
def Account.setting (cliarg : RWrapConfig) (rednode : Family) : Account → Option CStr
  | user => cliarg.setuser.or ((selectedString rednode .setuser).map (·.2))
  | group => cliarg.setgroup.or ((selectedString rednode .setgroup).map (·.2))

def Account.lookup (a : Accounts) : Account → CStr → Option UInt32
  | user => a.getpwnam
  | group => a.getgrnam

def Account.used (creds : Credentials) : Account → Nat
  | user => creds.uid
  | group => creds.gid

section

variable (a : Accounts) (cliarg : RWrapConfig) (rednode : Family)

def SomeUnknown : Prop :=
  ∃ (k : Account) (s : CStr), k.setting cliarg rednode = some s ∧ Unknown (k.lookup a) s

/-- The early config fails, or the identity is the one that is asked for. -/
def AsAsked (final : EarlyConf) (k : Account) : Prop :=
  identify a cliarg rednode final = .ok none ∨
  ∃ creds, identify a cliarg rednode final = .ok (some creds) ∧
    ∀ s, k.setting cliarg rednode = some s → asked (k.lookup a) s = some (k.used creds)

variable {a cliarg rednode}

theorem mixFinal_user {conf final : EarlyConf}
    (h : getFinalUid a (cliarg.setuser.or conf.setuser) = .ok (1, none)) :
    mixFinal a cliarg conf final = .ok (1, { final with setuser := none }) := by
  rw [mixFinal, h]
  rfl

theorem mixFinal_group {conf final : EarlyConf} {dest : Option CStr}
    (h : getFinalUid a (cliarg.setuser.or conf.setuser) = .ok (0, dest))
    (h' : getFinalGid a (cliarg.setgroup.or conf.setgroup) = .ok (1, none)) :
    mixFinal a cliarg conf final = .ok (1, { final with setuser := dest, setgroup := none }) := by
  rw [mixFinal, h]
  show (getFinalGid a (cliarg.setgroup.or conf.setgroup) >>= _) = _
  rw [h']
  rfl

theorem mixFinal_ok {conf final : EarlyConf} {dest dest' : Option CStr}
    (h : getFinalUid a (cliarg.setuser.or conf.setuser) = .ok (0, dest))
    (h' : getFinalGid a (cliarg.setgroup.or conf.setgroup) = .ok (0, dest')) :
    mixFinal a cliarg conf final = .ok (0, ⟨dest, dest', cliarg.smack.or conf.smack⟩) := by
  rw [mixFinal, h]
  show (getFinalGid a (cliarg.setgroup.or conf.setgroup) >>= _) = _
  rw [h']
  rfl

/-- **The identity** for every command line, family and database. -/
theorem identify_cases (a : Accounts) (cliarg : RWrapConfig) (rednode : Family)
    (final : EarlyConf) :
    (SomeUnknown a cliarg rednode ∧ identify a cliarg rednode final = .ok none) ∨
    ¬ SomeUnknown a cliarg rednode ∧ ∃ creds,
      identify a cliarg rednode final = .ok (some creds) ∧
      ∀ (k : Account) (s : CStr), k.setting cliarg rednode = some s →
        (asked (k.lookup a) s = some (k.used creds) ↔ InRange s) := by
  obtain ⟨conf, hrun, hconf⟩ := mixEarlyConf_get rednode
  have huser : cliarg.setuser.or conf.setuser = Account.user.setting cliarg rednode :=
    congrArg (cliarg.setuser.or ·) (hconf .setuser)
  have hgroup : cliarg.setgroup.or conf.setgroup = Account.group.setting cliarg rednode :=
    congrArg (cliarg.setgroup.or ·) (hconf .setgroup)
  have hset {rc : Int} {early : EarlyConf} (h : mixFinal a cliarg conf final = .ok (rc, early)) :
      identify a cliarg rednode final =
        .ok ((if rc ≠ 0 then none else some early).map (credentials a)) := by
    have hearly : setEarlyConf a cliarg rednode final =
        earlymix a cliarg (.ok final) conf rednode := hrun _ _
    rw [identify, leafEarlyConf, hearly, earlymix, h]
    rfl
  have huid := getFinal_cases a.getpwnam (Account.user.setting cliarg rednode)
  have hgid := getFinal_cases a.getgrnam (Account.group.setting cliarg rednode)
  rw [← huser] at huid
  rw [← hgroup] at hgid
  rcases huid with ⟨name, hname, hunknown, heq⟩ | ⟨hknown, dest, heq, hnone, hdest⟩
  · exact .inl ⟨⟨.user, name, huser ▸ hname, hunknown⟩, hset (mixFinal_user heq)⟩
  rcases hgid with ⟨name, hname, hunknown, heq'⟩ | ⟨hknown', dest', heq', hnone', hdest'⟩
  · exact .inl ⟨⟨.group, name, hgroup ▸ hname, hunknown⟩, hset (mixFinal_group heq heq')⟩
  · refine .inr ⟨?_, _, hset (mixFinal_ok heq heq'), fun k s hs => ?_⟩
    · rintro ⟨k, s, hs, hunknown⟩
      cases k with
      | user => exact hknown s (huser.trans hs) hunknown
      | group => exact hknown' s (hgroup.trans hs) hunknown
    · cases k with
      | user =>
        obtain ⟨text, rfl, hasked⟩ := hdest s (huser.trans hs)
        exact hasked
      | group =>
        obtain ⟨text, rfl, hasked⟩ := hdest' s (hgroup.trans hs)
        exact hasked

theorem redwrapExecEarly_ok {ω : Type} {os : ExecOs ω}
    {expand : ExpandCtx → CStr → Option CStr} {env : RedEnv} {depth : Nat} {commandName : CStr}
    {subargv : List CStr} {final : EarlyConf} {o : ω} {stack : Stack} {exec : Exec}
    (h : redwrapExecEarly a cliarg os expand env depth commandName subargv rednode final o stack =
      .ok exec) :
    ∃ earlyconf, leafEarlyConf a cliarg rednode final = .ok (some earlyconf) ∧
      redwrapExec os (credentials a earlyconf) expand env depth commandName cliarg subargv
        ⟨withEarlyConf earlyconf rednode.node, rednode.parents.map (withEarlyConf earlyconf)⟩ o
        stack = .ok exec := by
  rw [redwrapExecEarly] at h
  cases hearly : leafEarlyConf a cliarg rednode final with
  | error halt =>
    rw [hearly] at h
    cases h
  | ok early =>
    rw [hearly] at h
    cases early with
    | none => cases h
    | some earlyconf => exact ⟨earlyconf, rfl, h⟩

theorem redwrapExecEarly_identity {ω : Type} {os : ExecOs ω}
    {expand : ExpandCtx → CStr → Option CStr} {env : RedEnv} {depth : Nat} {commandName : CStr}
    {subargv : List CStr} {final : EarlyConf} {o : ω} {stack : Stack} {exec : Exec}
    (h : redwrapExecEarly a cliarg os expand env depth commandName subargv rednode final o stack =
      .ok exec) :
    ∃ (creds : Credentials) (rednode' : Family),
      identify a cliarg rednode final = .ok (some creds) ∧
      redwrapExec os creds expand env depth commandName cliarg subargv rednode' o stack =
        .ok exec := by
  obtain ⟨earlyconf, hearly, hexec⟩ := redwrapExecEarly_ok h
  refine ⟨_, _, ?_, hexec⟩
  rw [identify, hearly]
  rfl

/-- **The identity is the one that is asked for** unless a number of 2^32 or more is set. -/
theorem asAsked_iff (a : Accounts) (cliarg : RWrapConfig) (rednode : Family) (final : EarlyConf)
    (k : Account) : AsAsked a cliarg rednode final k ↔
      SomeUnknown a cliarg rednode ∨ ∀ s, k.setting cliarg rednode = some s → InRange s := by
  rcases identify_cases a cliarg rednode final with ⟨hunknown, heq⟩ | ⟨hknown, creds, heq, hasked⟩
  · exact ⟨fun _ => .inl hunknown, fun _ => .inl heq⟩
  · rw [AsAsked, heq]
    constructor
    · rintro (h | ⟨creds', h, hall⟩)
      · cases h
      · cases h
        exact .inr fun s hs => (hasked k s hs).mp (hall s hs)
    · rintro (h | h)
      · exact absurd h hknown
      · exact .inr ⟨creds, rfl, fun s hs => (hasked k s hs).mpr (h s hs)⟩

end

/-! ## A number beyond -/

/-- The users `root` and `app`, for a process of `root`. -/
def twoAccounts : Accounts where
  getpwnam name :=
    if name = .lit "root" then some 0 else if name = .lit "app" then some 1001 else none
  getgrnam name :=
    if name = .lit "root" then some 0 else if name = .lit "app" then some 1001 else none
  getuid := 0
  getgid := 0

def unsetLeaf : Family := ⟨{ config := none, redpath := .lit "/leaf" }, []⟩

def rootByNumber : RWrapConfig :=
  { setuser := some (.lit "4294967296"), setgroup := some (.lit "app") }

/-- `--setuser 4294967296` is the user 0. -/
theorem setuser_root :
    identify twoAccounts rootByNumber unsetLeaf {} = .ok (some ⟨0, 1001, none⟩) ∧
    ¬ AsAsked twoAccounts rootByNumber unsetLeaf {} .user := by
  have hroot : identify twoAccounts rootByNumber unsetLeaf {} = .ok (some ⟨0, 1001, none⟩) := rfl
  refine ⟨hroot, ?_⟩
  rw [AsAsked, hroot]
  rintro (h | ⟨creds, h, hasked⟩)
  · cases h
  · cases h
    exact absurd (hasked (.lit "4294967296") rfl) (by decide)

end Wrap
end RedPak
