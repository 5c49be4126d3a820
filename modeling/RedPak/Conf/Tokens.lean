import RedPak.Conf.Expand
import RedPak.Layered.Expansion

/-!
# Conf.Tokens

The tokens that `defaultsExpand` reads: bytes, and references with the key that
`computeKeyLength` finds.

* `length_key`, `last_of_key`: a key lies in the input, and no backslash ends it.
* `LookBehind.unescaped`: the test of the byte before a dollar never fails.
-/

namespace RedPak
namespace Conf
namespace Stored

open Layered.Expansion (Token)

/-- The tokens behind the first `skip` bytes. -/
def tokensFrom : List UInt8 → (skip : Nat) → List (Token UInt8)
  | [], _ => []
  | _ :: cs, skip + 1 => tokensFrom cs skip
  | c :: cs, 0 =>
    if c = backslash ∧ cs.head? = some dollar then .char dollar :: tokensFrom cs 1
    else if c = dollar then
      .ref (cs.take (computeKeyLength cs)) :: tokensFrom cs (computeKeyLength cs)
    else .char c :: tokensFrom cs 0

theorem computeKeyLengthFrom_le : ∀ (cs : List UInt8) (len npar : Nat),
    computeKeyLengthFrom cs len npar ≤ len + cs.length := by
  intro cs
  induction cs with
  | nil =>
    intro len npar
    rw [computeKeyLengthFrom]
    split <;> simp
  | cons c cs ih =>
    intro len npar
    have hnext : ∀ npar, computeKeyLengthFrom cs (len + 1) npar ≤ len + (c :: cs).length := by
      intro npar
      have := ih (len + 1) npar
      rw [List.length_cons]
      omega
    rw [computeKeyLengthFrom]
    split
    · exact hnext _
    split
    · split
      · split
        · simp
        · exact hnext _
      · exact hnext _
    split
    · exact hnext _
    · exact Nat.le_add_right _ _

theorem computeKeyLength_le (cs : List UInt8) : computeKeyLength cs ≤ cs.length := by
  have h := computeKeyLengthFrom_le cs 0 0
  rwa [Nat.zero_add] at h

theorem length_key (cs : List UInt8) :
    (cs.take (computeKeyLength cs)).length = computeKeyLength cs := by
  rw [List.length_take]
  exact Nat.min_eq_left (computeKeyLength_le cs)

/-- In a command, the key goes on to the parenthesis that ends it. -/
theorem lt_of_inCommand : ∀ (cs : List UInt8) (len npar : Nat), 0 < npar →
    computeKeyLengthFrom cs len npar = 0 ∨ len < computeKeyLengthFrom cs len npar := by
  intro cs
  induction cs with
  | nil =>
    intro len npar h
    rw [computeKeyLengthFrom, if_neg (by omega)]
    exact .inl rfl
  | cons c cs ih =>
    intro len npar h
    have hnext : ∀ npar, 0 < npar → computeKeyLengthFrom cs (len + 1) npar = 0 ∨
        len < computeKeyLengthFrom cs (len + 1) npar := by
      intro npar hpar
      rcases ih (len + 1) npar hpar with h | h
      · exact .inl h
      · exact .inr (by omega)
    rw [computeKeyLengthFrom]
    split
    · exact hnext _ (Nat.succ_pos _)
    split
    · split
      · exact .inr (Nat.lt_succ_self _)
      · exact hnext _ (by omega)
    · exact hnext _ h

/-- A key ends with a byte of a name or with a parenthesis. -/
theorem last_of_key : ∀ (cs : List UInt8) (len npar n : Nat),
    computeKeyLengthFrom cs len npar = len + n + 1 → cs[n]? ≠ some backslash := by
  intro cs
  induction cs with
  | nil => intro len npar n _; simp
  | cons c cs ih =>
    intro len npar n h
    -- the first byte, or one of the others
    have hnext : ∀ npar, (0 < npar ∨ c ≠ backslash) →
        computeKeyLengthFrom cs (len + 1) npar = len + n + 1 → (c :: cs)[n]? ≠ some backslash := by
      intro npar hc hrest
      cases n with
      | zero =>
        rcases hc with hpar | hc
        · rcases lt_of_inCommand cs (len + 1) npar hpar with h | h <;> omega
        · simpa using hc
      | succ n => exact ih (len + 1) npar n (by omega)
    rw [computeKeyLengthFrom] at h
    split at h
    · exact hnext _ (.inl (Nat.succ_pos _)) h
    split at h
    · split at h
      · rename_i hclose
        split at h
        · have hn : n = 0 := by omega
          rw [hn, hclose]
          exact fun he => absurd (Option.some.inj he) (by decide)
        · exact hnext _ (.inl (by omega)) h
      · rename_i hpar _
        exact hnext _ (.inl hpar) h
    split at h
    · rename_i hkey
      refine hnext _ (.inr fun hc => ?_) h
      rw [hc] at hkey
      exact absurd hkey (by decide)
    · omega

/-- What is known of the byte before the input, or before what follows the key. -/
def LookBehind (prev : Option UInt8) (skip : Nat) (cs : List UInt8) : Prop :=
  match skip with
  | 0 => prev = some backslash → cs.head? ≠ some dollar
  | skip + 1 => cs[skip]? ≠ some backslash

theorem LookBehind.skip {prev : Option UInt8} {skip : Nat} {c : UInt8} {cs : List UInt8}
    (h : LookBehind prev (skip + 1) (c :: cs)) : LookBehind (some c) skip cs := by
  cases skip with
  | zero =>
    intro hc
    exact absurd hc h
  | succ skip => exact h

theorem LookBehind.unescaped {prev : Option UInt8} {c : UInt8} {cs : List UInt8}
    (h : LookBehind prev 0 (c :: cs)) (hc : c = dollar) : prev ≠ some backslash := by
  intro hprev
  exact h hprev (by rw [hc]; rfl)

theorem lookBehind_escape {cs : List UInt8} (h : cs.head? = some dollar) :
    LookBehind (some backslash) 1 cs := by
  change cs[0]? ≠ some backslash
  rw [← List.head?_eq_getElem?, h]
  decide

theorem lookBehind_key (cs : List UInt8) : LookBehind (some dollar) (computeKeyLength cs) cs := by
  cases hlen : computeKeyLength cs with
  | zero => exact fun h => absurd h (by decide)
  | succ n => exact last_of_key cs 0 0 n (by rw [Nat.zero_add]; exact hlen)

theorem lookBehind_char {c : UInt8} {cs : List UInt8}
    (h : ¬ (c = backslash ∧ cs.head? = some dollar)) : LookBehind (some c) 0 cs :=
  fun hc hdollar => h ⟨Option.some.inj hc, hdollar⟩

end Stored
end Conf
end RedPak
