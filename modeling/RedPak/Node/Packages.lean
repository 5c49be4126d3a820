import RedPak.Conf.CString

/-!
# Node.Packages

The packages of a transaction that may be installed in a node (`checkTransactionPkgs`): those that
are not installed, or are in the database of the node itself. The other ones are erased while the
vector is walked.

An iterator is an index. A result of `none` stands for an iterator before the beginning.

* `checkLoop_rejected`: what one rejected package takes away.
* `checkTransactionPkgs_iff`: when the check is exact.
-/

namespace RedPak
namespace Node
namespace Packages

open Conf

/-- `std::string` -/
abbrev Text := List UInt8

/-- What is asked of a package: `get_rpmdbid()`, `get_name()` and `get_full_nevra()`. -/
structure TransactionPackage where
  rpmdbid : Nat
  name : Text
  fullNevra : Text
deriving DecidableEq

/-- The ids that `rpm_installedrpmdbids` queues for a name. -/
abbrev RpmDb := Text → List Nat

/-! ## `checkTransactionPkgs` -/

def checkInNodeDataBase (db : RpmDb) (name : Text) : Bool := (db name).length ≠ 0

/-- The loop over the packages: the vector and `log_pkgs` at its end. -/
def checkLoop (db : RpmDb) (tpkgs : List TransactionPackage) (tpkg : Nat) (logPkgs : Text) :
    Option (List TransactionPackage × Text) :=
  if _h : tpkg < tpkgs.length then
    let package := tpkgs[tpkg]
    -- not installed
    if package.rpmdbid = 0 then checkLoop db tpkgs (tpkg + 1) logPkgs
    else if ¬ checkInNodeDataBase db package.name then
      let logPkgs := logPkgs ++ ((CStr.lit " ").bytes ++ package.fullNevra)
      -- tpkgs.erase(tpkg--); twice, each time an iterator is formed before the one that is erased
      if tpkg = 0 then none
      else if tpkg - 1 = 0 then none
      else checkLoop db ((tpkgs.eraseIdx tpkg).eraseIdx (tpkg - 1)) (tpkg - 1 - 1 + 1) logPkgs
    else checkLoop db tpkgs (tpkg + 1) logPkgs
  else some (tpkgs, logPkgs)
termination_by tpkgs.length - tpkg
decreasing_by
  · omega
  · have h₁ := List.length_eraseIdx_of_lt _h
    rw [List.length_eraseIdx_of_lt (by omega), h₁]
    omega
  · omega

/-- What is written to `std::cout`, and the vector or else what is thrown. -/
structure Outcome where
  out : Text
  result : Except Text (List TransactionPackage)
deriving DecidableEq

def presentMessage (logPkgs : Text) : Text :=
  (CStr.lit "Cannot installed/upgrade because rpms already presents in parent nodes:\n").bytes ++
    logPkgs ++ (CStr.lit "\n").bytes

def abortMessage : Text :=
  (CStr.lit "Aborting... (Use --forcenode to force the installation in the node").bytes

def checkTransactionPkgs (db : RpmDb) (forcenode : Bool) (transaction : List TransactionPackage) :
    Option Outcome :=
  match checkLoop db transaction 0 [] with
  | none => none
  | some (tpkgs, logPkgs) =>
    if logPkgs ≠ [] then
      some ⟨presentMessage logPkgs, if forcenode then .ok tpkgs else .error abortMessage⟩
    else some ⟨[], .ok tpkgs⟩

/-! ## What it is for -/

variable (db : RpmDb)

/-- Not installed, or present in the database of the node. -/
def allowed (p : TransactionPackage) : Bool := p.rpmdbid = 0 || checkInNodeDataBase db p.name

def rejected (p : TransactionPackage) : Bool := !allowed db p

/-- The packages as `log_pkgs` names them. -/
def named (ps : List TransactionPackage) : Text :=
  ps.flatMap fun p => (CStr.lit " ").bytes ++ p.fullNevra

/-- The allowed packages are left in the vector, the rejected ones are named, each once. -/
def ExactLoop (pkgs : List TransactionPackage) : Prop :=
  checkLoop db pkgs 0 [] = some (pkgs.filter (allowed db), named (pkgs.filter (rejected db)))

/-- What a caller sees of it: what is named, and what is returned, if nothing is thrown. -/
def ExactResult (forcenode : Bool) (pkgs : List TransactionPackage) : Prop :=
  ∃ o, checkTransactionPkgs db forcenode pkgs = some o ∧
    (o.out = if pkgs.any (rejected db) then presentMessage (named (pkgs.filter (rejected db)))
      else []) ∧
    ∀ tpkgs, o.result = .ok tpkgs → tpkgs = pkgs.filter (allowed db)

/-- At every rejected package two more packages in front of it are allowed than are rejected, but
for `n` more that are there already. -/
def Room (n : Nat) (pkgs : List TransactionPackage) : Prop :=
  ∀ before p after, pkgs = before ++ p :: after → rejected db p = true →
    before.countP (rejected db) + 2 ≤ n + before.countP (allowed db)

variable {db : RpmDb} {kept rest : List TransactionPackage} {p : TransactionPackage} {log : Text}

/-! ## The turns of the loop -/

theorem getElem_behind (h : kept.length < (kept ++ p :: rest).length) :
    (kept ++ p :: rest)[kept.length] = p := by
  simp

theorem checkLoop_end : checkLoop db kept kept.length log = some (kept, log) := by
  rw [checkLoop, dif_neg (Nat.lt_irrefl _)]

theorem checkLoop_allowed (h : allowed db p = true) :
    checkLoop db (kept ++ p :: rest) kept.length log =
      checkLoop db (kept ++ [p] ++ rest) (kept ++ [p]).length log := by
  have hlt : kept.length < (kept ++ p :: rest).length := by simp
  rw [allowed, Bool.or_eq_true, decide_eq_true_eq] at h
  rw [checkLoop, dif_pos hlt]
  dsimp only
  rw [getElem_behind hlt, List.append_assoc, List.length_append]
  by_cases hzero : p.rpmdbid = 0
  · rw [if_pos hzero]
    rfl
  · rw [if_neg hzero, if_neg (not_not_intro (h.resolve_left hzero))]
    rfl

/-- **A rejected package takes the one before it away**, too. At one of the first two places an
iterator before the beginning is formed. -/
theorem checkLoop_rejected (h : rejected db p = true) :
    checkLoop db (kept ++ p :: rest) kept.length log =
      if kept.length ≤ 1 then none
      else checkLoop db (kept.dropLast ++ rest) kept.dropLast.length (log ++ named [p]) := by
  have hlt : kept.length < (kept ++ p :: rest).length := by simp
  rw [rejected, allowed, Bool.not_eq_true', Bool.or_eq_false_iff, decide_eq_false_iff_not] at h
  have hnamed : named [p] = (CStr.lit " ").bytes ++ p.fullNevra := List.append_nil _
  have herase : (kept ++ p :: rest).eraseIdx kept.length = kept ++ rest := by
    rw [List.eraseIdx_append_of_length_le (Nat.le_refl _), Nat.sub_self]
    rfl
  rw [checkLoop, dif_pos hlt]
  dsimp only
  rw [getElem_behind hlt, if_neg h.1, if_pos (by simp [h.2]), herase, hnamed]
  by_cases hlen : kept.length ≤ 1
  · rw [if_pos hlen]
    split
    · rfl
    · rw [if_pos (by omega)]
  · have hnext : kept.length - 1 - 1 + 1 = kept.length - 1 := by omega
    rw [if_neg hlen, if_neg (by omega), if_neg (by omega), hnext,
      List.eraseIdx_append_of_lt_length (by omega), List.eraseIdx_length_sub_one,
      List.length_dropLast]

/-! ## The whole loop -/

theorem checkLoop_all (h : ∀ p ∈ rest, allowed db p = true) :
    checkLoop db (kept ++ rest) kept.length log = some (kept ++ rest, log) := by
  induction rest generalizing kept with
  | nil => rw [List.append_nil, checkLoop_end]
  | cons p rest ih =>
    rw [checkLoop_allowed (h p List.mem_cons_self), ih fun q hq => h q (List.mem_cons_of_mem p hq),
      List.append_assoc, List.singleton_append]

/-- Every rejected package is named once, and one more is missing in the vector for each of them. -/
theorem checkLoop_spec {tpkgs : List TransactionPackage} {log' : Text}
    (h : checkLoop db (kept ++ rest) kept.length log = some (tpkgs, log')) :
    log' = log ++ named (rest.filter (rejected db)) ∧
      tpkgs.length + rest.countP (rejected db) = kept.length + rest.countP (allowed db) := by
  induction rest generalizing kept log with
  | nil =>
    rw [List.append_nil, checkLoop_end] at h
    cases h
    exact ⟨(List.append_nil _).symm, rfl⟩
  | cons p rest ih =>
    cases hp : allowed db p with
    | true =>
      have hr : rejected db p = false := by rw [rejected, hp]; rfl
      rw [checkLoop_allowed hp] at h
      obtain ⟨hlog, hlen⟩ := ih h
      rw [List.filter_cons_of_neg (by simp [hr]), List.countP_cons_of_neg (by simp [hr]),
        List.countP_cons_of_pos hp]
      rw [List.length_append, List.length_singleton] at hlen
      exact ⟨hlog, by omega⟩
    | false =>
      have hr : rejected db p = true := by rw [rejected, hp]; rfl
      rw [checkLoop_rejected hr] at h
      by_cases hlen : kept.length ≤ 1
      · rw [if_pos hlen] at h
        cases h
      · rw [if_neg hlen] at h
        obtain ⟨hlog, hcount⟩ := ih h
        rw [List.length_dropLast] at hcount
        rw [List.filter_cons_of_pos hr, List.countP_cons_of_pos hr,
          List.countP_cons_of_neg (by simp [hp])]
        exact ⟨by simpa [named] using hlog, by omega⟩

theorem room_nil {n : Nat} : Room db n [] := by
  intro before p after h
  simp at h

theorem room_allowed {n : Nat} (h : allowed db p = true) :
    Room db n (p :: rest) ↔ Room db (n + 1) rest := by
  have hr : rejected db p = false := by rw [rejected, h]; rfl
  constructor
  · rintro hroom before q after rfl hq
    have := hroom (p :: before) q after rfl hq
    rw [List.countP_cons_of_neg (by simp [hr]), List.countP_cons_of_pos h] at this
    omega
  · intro hroom before q after heq hq
    cases before with
    | nil =>
      cases heq
      rw [hr] at hq
      cases hq
    | cons b before =>
      cases heq
      have := hroom before q after rfl hq
      rw [List.countP_cons_of_neg (by simp [hr]), List.countP_cons_of_pos h]
      omega

theorem room_rejected {n : Nat} (h : rejected db p = true) :
    Room db n (p :: rest) ↔ 2 ≤ n ∧ Room db (n - 1) rest := by
  have ha : ¬ allowed db p = true := by
    intro ha
    rw [rejected, ha] at h
    cases h
  constructor
  · intro hroom
    have hfirst := hroom [] p rest rfl h
    rw [List.countP_nil, List.countP_nil] at hfirst
    refine ⟨by omega, ?_⟩
    rintro before q after rfl hq
    have := hroom (p :: before) q after rfl hq
    rw [List.countP_cons_of_pos h, List.countP_cons_of_neg ha] at this
    omega
  · rintro ⟨htwo, hroom⟩ before q after heq hq
    cases before with
    | nil => simpa using htwo
    | cons b before =>
      cases heq
      have := hroom before q after rfl hq
      rw [List.countP_cons_of_pos h, List.countP_cons_of_neg ha]
      omega

/-- The loop ends well if and only if there is room in front of every rejected package. -/
theorem checkLoop_isSome_iff :
    (checkLoop db (kept ++ rest) kept.length log).isSome = true ↔ Room db kept.length rest := by
  induction rest generalizing kept log with
  | nil =>
    rw [List.append_nil, checkLoop_end]
    exact iff_of_true rfl room_nil
  | cons p rest ih =>
    cases hp : allowed db p with
    | true =>
      rw [checkLoop_allowed hp, ih, room_allowed hp, List.length_append, List.length_singleton]
    | false =>
      have hr : rejected db p = true := by rw [rejected, hp]; rfl
      rw [checkLoop_rejected hr, room_rejected hr]
      by_cases hlen : kept.length ≤ 1
      · rw [if_pos hlen]
        exact iff_of_false Bool.false_ne_true fun h => by omega
      · rw [if_neg hlen, ih, List.length_dropLast, and_iff_right (by omega)]

/-! ## When the check is exact -/

variable {pkgs : List TransactionPackage}

theorem named_ne_nil (h : ∃ p ∈ pkgs, rejected db p = true) :
    named (pkgs.filter (rejected db)) ≠ [] := by
  obtain ⟨p, hp, hr⟩ := h
  intro hnil
  have hblank : (CStr.lit " ").bytes ++ p.fullNevra = [] :=
    List.flatMap_eq_nil_iff.mp hnil p (List.mem_filter.mpr ⟨hp, hr⟩)
  exact absurd (List.append_eq_nil_iff.mp hblank).1 (by decide)

theorem exactLoop_iff : ExactLoop db pkgs ↔ ∀ p ∈ pkgs, allowed db p = true := by
  constructor
  · intro h
    have hspec := (@checkLoop_spec db [] pkgs [] _ _ h).2
    rw [List.length_nil, Nat.zero_add, ← List.countP_eq_length_filter] at hspec
    have hzero : pkgs.countP (rejected db) = 0 := by omega
    intro p hp
    simpa [rejected] using List.countP_eq_zero.mp hzero p hp
  · intro h
    have hnone : pkgs.filter (rejected db) = [] := List.filter_eq_nil_iff.mpr fun p hp => by
      simp [rejected, h p hp]
    rw [ExactLoop, hnone, List.filter_eq_self.mpr h]
    exact @checkLoop_all db [] pkgs [] h

theorem any_rejected : pkgs.any (rejected db) = true ↔ ∃ p ∈ pkgs, rejected db p = true :=
  List.any_eq_true

theorem checkTransactionPkgs_eq {forcenode : Bool} {tpkgs : List TransactionPackage}
    (h : checkLoop db pkgs 0 [] = some (tpkgs, log)) :
    log = named (pkgs.filter (rejected db)) ∧ checkTransactionPkgs db forcenode pkgs =
      if pkgs.any (rejected db) then
        some ⟨presentMessage log, if forcenode then .ok tpkgs else .error abortMessage⟩
      else some ⟨[], .ok tpkgs⟩ := by
  have hlog : log = named (pkgs.filter (rejected db)) := (@checkLoop_spec db [] pkgs [] _ _ h).1
  refine ⟨hlog, ?_⟩
  rw [checkTransactionPkgs, h]
  dsimp only
  by_cases hany : pkgs.any (rejected db) = true
  · rw [if_pos hany, if_pos (hlog ▸ named_ne_nil (any_rejected.mp hany))]
  · have hnone : pkgs.filter (rejected db) = [] := by simpa [List.filter_eq_nil_iff] using hany
    rw [hnone] at hlog
    rw [if_neg hany, hlog]
    exact if_neg (not_not_intro rfl)

theorem all_allowed_iff : (∀ p ∈ pkgs, allowed db p = true) ↔ ¬ pkgs.any (rejected db) = true := by
  simp [rejected]

theorem exactResult_iff {forcenode : Bool} : ExactResult db forcenode pkgs ↔
    (∀ p ∈ pkgs, allowed db p = true) ∨ forcenode = false ∧ Room db 0 pkgs := by
  have hsome := @checkLoop_isSome_iff db [] pkgs []
  rw [List.nil_append, List.length_nil] at hsome
  cases hloop : checkLoop db pkgs 0 [] with
  | none =>
    rw [hloop] at hsome
    refine iff_of_false ?_ ?_
    · rintro ⟨o, ho, -⟩
      rw [checkTransactionPkgs, hloop] at ho
      cases ho
    · rintro (hall | ⟨-, hroom⟩)
      · cases (exactLoop_iff.mpr hall).symm.trans hloop
      · exact absurd (hsome.mpr hroom) Bool.false_ne_true
  | some found =>
    obtain ⟨tpkgs, log⟩ := found
    have hroom : Room db 0 pkgs := hsome.mp (by rw [hloop]; rfl)
    obtain ⟨hlog, hcheck⟩ := @checkTransactionPkgs_eq db log pkgs forcenode tpkgs hloop
    rw [and_iff_left hroom, all_allowed_iff, ExactResult, hcheck]
    by_cases hany : pkgs.any (rejected db) = true
    · rw [if_pos hany, if_pos hany, or_iff_right (not_not_intro hany), hlog]
      cases forcenode with
      | false => exact iff_of_true ⟨_, rfl, rfl, fun tpkgs h => (by cases h)⟩ rfl
      | true =>
        refine iff_of_false ?_ (by decide)
        rintro ⟨o, ho, -, hresult⟩
        obtain rfl := Option.some.inj ho
        have hexact : ExactLoop db pkgs := by
          rw [ExactLoop, hloop, hlog, hresult tpkgs rfl]
        exact all_allowed_iff.mp (exactLoop_iff.mp hexact) hany
    · have hexact := exactLoop_iff.mpr (all_allowed_iff.mpr hany)
      have htpkgs : tpkgs = pkgs.filter (allowed db) :=
        congrArg Prod.fst (Option.some.inj (hloop.symm.trans hexact))
      rw [if_neg hany, if_neg hany]
      refine iff_of_true ⟨_, rfl, rfl, fun tpkgs' h => ?_⟩ (.inl hany)
      exact (Except.ok.inj h).symm.trans htpkgs

/-- **The check of the packages** is exact if and only if there is nothing to remove. What a caller
sees of it is right, too, when the removal is followed by the abort of the transaction, and no
iterator was formed before the beginning. -/
theorem checkTransactionPkgs_iff (db : RpmDb) (forcenode : Bool) (pkgs : List TransactionPackage) :
    (ExactLoop db pkgs ↔ ∀ p ∈ pkgs, allowed db p = true) ∧
    (ExactResult db forcenode pkgs ↔ (∀ p ∈ pkgs, allowed db p = true) ∨
      forcenode = false ∧ Room db 0 pkgs) :=
  ⟨exactLoop_iff, exactResult_iff⟩

/-- A package with the id 1 in the databases of the parent nodes only. -/
def parentPackage : TransactionPackage :=
  ⟨1, (CStr.lit "bash").bytes, (CStr.lit "bash-0:5.1.8-2.x86_64").bytes⟩

/-- Two new packages, then one that is rejected. -/
def upgrade : List TransactionPackage :=
  [⟨0, (CStr.lit "acl").bytes, (CStr.lit "acl-0:2.3.1-3.x86_64").bytes⟩,
    ⟨0, (CStr.lit "attr").bytes, (CStr.lit "attr-0:2.5.1-3.x86_64").bytes⟩, parentPackage]

/-- The one in front of the rejected package is erased, too. -/
theorem upgrade_inexact : ¬ ExactLoop (fun _ => []) upgrade ∧
    ¬ ExactResult (fun _ => []) true upgrade := by
  have hnot : ¬ ∀ p ∈ upgrade, allowed (fun _ => []) p = true := by decide
  refine ⟨fun h => hnot (exactLoop_iff.mp h), fun h => ?_⟩
  rcases exactResult_iff.mp h with hall | ⟨hforce, -⟩
  · exact hnot hall
  · cases hforce

end Packages
end Node
end RedPak
