import Mathlib.Data.List.TakeWhile

/-!
# Conf.CString

C strings and the comparisons of `<string.h>`. A `char *` that may be NULL is an `Option CStr`.
No locale is ever set by the programs, so `tolower` is the one of the C locale.

* `strcmp_eq_zero`, `strcasecmp_eq_zero`: when two strings compare as equal.
* `strcmp_total`, `strcmp_trans`, `strcmp_lt_of_prefix`: the order of `strcmp`.
-/

namespace RedPak
namespace Conf

/-- A string: its bytes before the terminating zero. -/
structure CStr where
  bytes : List UInt8
  nulFree : (0 : UInt8) ∉ bytes
deriving DecidableEq

theorem CStr.ext {a b : CStr} (h : a.bytes = b.bytes) : a = b := by
  cases a; cases b; cases h; rfl

/-- The string that starts a buffer. -/
def CStr.ofBytes (bs : List UInt8) : CStr :=
  ⟨bs.takeWhile (· != 0), fun h => by simpa using List.mem_takeWhile_imp h⟩

/-- An ASCII literal. -/
def CStr.lit (s : String) : CStr := .ofBytes (s.toList.map Char.toUInt8)

def CStr.decimal (n : Int) : CStr := .ofBytes ((toString n).toList.map Char.toUInt8)

def tolower (b : UInt8) : UInt8 := if 0x41 ≤ b ∧ b ≤ 0x5A then b + 0x20 else b

/-- The bytes that `strcasecmp` compares. -/
def CStr.folded (a : CStr) : List UInt8 := a.bytes.map tolower

/-- The difference of the first bytes that differ, a string ending with a zero byte. -/
def cmpBytes : List UInt8 → List UInt8 → Int
  | [], [] => 0
  | [], b :: _ => -b.toNat
  | a :: _, [] => a.toNat
  | a :: as, b :: bs => if a = b then cmpBytes as bs else a.toNat - b.toNat

def strcmp (a b : CStr) : Int := cmpBytes a.bytes b.bytes

def strcasecmp (a b : CStr) : Int := cmpBytes a.folded b.folded

theorem CStr.ofBytes_zero {bs rest : List UInt8} (h : (0 : UInt8) ∉ bs) :
    (CStr.ofBytes (bs ++ 0 :: rest)).bytes = bs := by
  have hall : ∀ b ∈ bs, (b != 0) = true := fun b hb => by
    simpa using fun e : b = 0 => h (e ▸ hb)
  simp [CStr.ofBytes, List.takeWhile_append_of_pos hall]

theorem CStr.ofBytes_append_zero (bs rest : List UInt8) :
    CStr.ofBytes (bs ++ 0 :: rest) = CStr.ofBytes bs := by
  refine CStr.ext ?_
  simp only [CStr.ofBytes]
  rw [List.takeWhile_append]
  split
  · rename_i hall
    rw [(List.takeWhile_prefix _).eq_of_length hall]
    simp
  · rfl

theorem CStr.bytes_ofBytes {bs : List UInt8} (h : (0 : UInt8) ∉ bs) :
    (CStr.ofBytes bs).bytes = bs :=
  List.takeWhile_eq_self_iff.mpr fun b hb => by simpa using fun e : b = 0 => h (e ▸ hb)

theorem CStr.ofBytes_bytes (s : CStr) : CStr.ofBytes s.bytes = s :=
  CStr.ext (CStr.bytes_ofBytes s.nulFree)

/-! ## Equality -/

theorem toNat_pos {b : UInt8} (h : b ≠ 0) : 0 < b.toNat := by
  have : b.toNat ≠ 0 := fun e => h (UInt8.toNat_inj.mp e)
  omega

theorem cmpBytes_eq_zero {as : List UInt8} (ha : (0 : UInt8) ∉ as) :
    ∀ {bs : List UInt8}, (0 : UInt8) ∉ bs → (cmpBytes as bs = 0 ↔ as = bs) := by
  induction as with
  | nil =>
    intro bs hb
    cases bs with
    | nil => simp [cmpBytes]
    | cons b bs =>
      have := toNat_pos (fun e => hb (by simp [e]) : b ≠ 0)
      simp [cmpBytes]; omega
  | cons a as ih =>
    intro bs hb
    have ha0 : a ≠ 0 := fun e => ha (by simp [e])
    cases bs with
    | nil => have := toNat_pos ha0; simp [cmpBytes]; omega
    | cons b bs =>
      by_cases hab : a = b
      · subst hab
        simpa [cmpBytes] using ih (fun h => ha (by simp [h])) (fun h => hb (by simp [h]))
      · have : a.toNat ≠ b.toNat := fun e => hab (UInt8.toNat_inj.mp e)
        simp [cmpBytes, hab]; omega

theorem tolower_ne_zero {b : UInt8} (h : b ≠ 0) : tolower b ≠ 0 := by
  unfold tolower
  split
  · rename_i hr
    intro e
    have h1 : (0x41 : UInt8).toNat ≤ b.toNat := UInt8.le_iff_toNat_le.mp hr.1
    have h2 : b.toNat ≤ (0x5A : UInt8).toNat := UInt8.le_iff_toNat_le.mp hr.2
    have e' := congrArg UInt8.toNat e
    simp at h1 h2 e'
    omega
  · exact h

theorem CStr.folded_nulFree (a : CStr) : (0 : UInt8) ∉ a.folded := by
  intro h
  obtain ⟨b, hb, he⟩ := List.mem_map.mp h
  exact tolower_ne_zero (fun e => a.nulFree (e ▸ hb)) he

theorem strcmp_eq_zero {a b : CStr} : strcmp a b = 0 ↔ a = b := by
  rw [strcmp, cmpBytes_eq_zero a.nulFree b.nulFree]
  exact ⟨CStr.ext, fun h => h ▸ rfl⟩

theorem strcasecmp_eq_zero {a b : CStr} : strcasecmp a b = 0 ↔ a.folded = b.folded :=
  cmpBytes_eq_zero a.folded_nulFree b.folded_nulFree

/-! ## Order -/

theorem cmpBytes_neg (as : List UInt8) : ∀ bs, cmpBytes bs as = -cmpBytes as bs := by
  induction as with
  | nil => intro bs; cases bs <;> simp [cmpBytes]
  | cons a as ih =>
    intro bs
    cases bs with
    | nil => simp [cmpBytes]
    | cons b bs =>
      by_cases hab : a = b
      · subst hab; simpa [cmpBytes] using ih bs
      · have hba : ¬ b = a := fun e => hab e.symm
        simp only [cmpBytes, hab, hba, if_false]; omega

theorem cmpBytes_trans {as bs cs : List UInt8} (ha : (0 : UInt8) ∉ as) (hb : (0 : UInt8) ∉ bs)
    (h : cmpBytes as bs ≤ 0) (h' : cmpBytes bs cs ≤ 0) : cmpBytes as cs ≤ 0 := by
  induction as generalizing bs cs with
  | nil => cases cs <;> simp [cmpBytes]
  | cons a as ih =>
    have ha0 := toNat_pos (fun e => ha (by simp [e]) : a ≠ 0)
    cases bs with
    | nil => simp [cmpBytes] at h; omega
    | cons b bs =>
      have hb0 := toNat_pos (fun e => hb (by simp [e]) : b ≠ 0)
      cases cs with
      | nil => simp [cmpBytes] at h'; omega
      | cons c cs =>
        simp only [cmpBytes] at h h' ⊢
        by_cases hab : a = b <;> by_cases hbc : b = c
        · subst hab; subst hbc
          simp only [if_true] at h h' ⊢
          exact ih (fun hm => ha (by simp [hm])) (fun hm => hb (by simp [hm])) h h'
        · subst hab; simpa [hbc] using h'
        · subst hbc; simpa [hab] using h
        · rw [if_neg hab] at h
          rw [if_neg hbc] at h'
          have hab' : a.toNat ≠ b.toNat := fun e => hab (UInt8.toNat_inj.mp e)
          have hac : ¬ a = c := fun e => by subst e; omega
          rw [if_neg hac]; omega

theorem strcmp_trans {a b c : CStr} (h : strcmp a b ≤ 0) (h' : strcmp b c ≤ 0) :
    strcmp a c ≤ 0 := cmpBytes_trans a.nulFree b.nulFree h h'

theorem strcmp_neg (a b : CStr) : strcmp b a = -strcmp a b := cmpBytes_neg _ _

theorem strcmp_total (a b : CStr) : strcmp a b ≤ 0 ∨ strcmp b a ≤ 0 := by
  have := strcmp_neg a b; omega

theorem cmpBytes_append (as : List UInt8) {bs : List UInt8} (hb : (0 : UInt8) ∉ bs)
    (hne : bs ≠ []) : cmpBytes as (as ++ bs) < 0 := by
  induction as with
  | nil =>
    cases bs with
    | nil => exact absurd rfl hne
    | cons b bs =>
      have := toNat_pos (fun e => hb (by simp [e]) : b ≠ 0)
      simp only [cmpBytes, List.nil_append]; omega
  | cons a as ih => simpa [cmpBytes] using ih

theorem strcmp_lt_of_prefix {a b : CStr} (h : a.bytes <+: b.bytes) (hne : a ≠ b) :
    strcmp a b < 0 := by
  obtain ⟨t, ht⟩ := h
  have ht0 : (0 : UInt8) ∉ t := fun hm => b.nulFree (by rw [← ht]; simp [hm])
  have htn : t ≠ [] := by
    rintro rfl
    exact hne (CStr.ext (by simpa using ht))
  rw [strcmp, ← ht]
  exact cmpBytes_append _ ht0 htn

end Conf
end RedPak
