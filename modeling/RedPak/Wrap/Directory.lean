import RedPak.Node.Load
import RedPak.Wrap.Exports

/-!
# Wrap.Directory

The creation of the directory of an export (`ensure_directory`): its missing parents first, then
the credentials of what was created, children first.

* `ensureDirectory_exists`: a directory that was created is there.
-/

namespace RedPak
namespace Wrap

open Conf
open Node (slash)

/-- The system calls on files that `set_one_export` makes. -/
structure DirOs (ω : Type) where
  stat : ω → Option CStr → Int
  /-- `errno == ENOENT` behind a `stat` that failed -/
  noEntry : ω → CStr → Bool
  mkdir : ω → CStr → Int × ω
  chown : ω → CStr → (uid gid : Nat) → ω
  setxattr : ω → CStr → (smack : CStr) → ω
  memFdExecCmd : ω → CStr → CStr → Int × ω
  strerror : ω → CStr

/-- What the calls are documented to do. -/
structure DirOs.Lawful {ω : Type} (os : DirOs ω) : Prop where
  stat_range : ∀ o path, os.stat o path = 0 ∨ os.stat o path = -1
  stat_null : ∀ o, os.stat o none = -1
  mkdir_stat : ∀ o path, 0 ≤ (os.mkdir o path).1 → os.stat (os.mkdir o path).2 (some path) = 0
  chown_stat : ∀ o path uid gid path', os.stat (os.chown o path uid gid) path' = os.stat o path'
  setxattr_stat : ∀ o path smack path', os.stat (os.setxattr o path smack) path' = os.stat o path'

/-- The credentials of the node that is launched. -/
structure Credentials where
  uid : Nat
  gid : Nat
  smack : Option CStr

/-- The first bytes of a path. -/
def cutPath (path : CStr) (length : Nat) : CStr :=
  ⟨path.bytes.take length, fun h => path.nulFree (List.mem_of_mem_take h)⟩

/-- `for (l = n ; l > 0 && p(path[l - 1]) ; l--)` -/
def backWhile (p : UInt8 → Bool) (path : List UInt8) : Nat → Nat
  | 0 => 0
  | l + 1 => if p (path.getD l 0) then backWhile p path l else l + 1

theorem backWhile_le (p : UInt8 → Bool) (path : List UInt8) (n : Nat) : backWhile p path n ≤ n := by
  induction n with
  | zero => exact Nat.le_refl _
  | succ n ih =>
    rw [backWhile]
    split
    · exact Nat.le_succ_of_le ih
    · exact Nat.le_refl _

/-- looks for the parent of the directory -/
def lpar (path : List UInt8) (length : Nat) : Nat :=
  backWhile (· == slash) path (backWhile (· != slash) path length)

theorem lpar_lt {path : List UInt8} {length : Nat} (h : 0 < length) :
    lpar path length < length := by
  obtain ⟨n, rfl⟩ := Nat.exists_eq_succ_of_ne_zero (Nat.ne_of_gt h)
  have hname := backWhile_le (· != slash) path n
  by_cases hslash : path.getD n 0 = slash
  · rw [lpar, backWhile, if_neg (by simpa using hslash), backWhile, if_pos (by simpa using hslash)]
    exact Nat.lt_succ_of_le (backWhile_le _ _ _)
  · rw [lpar, backWhile, if_pos (by simpa using hslash)]
    exact Nat.lt_succ_of_le (Nat.le_trans (backWhile_le _ _ _) hname)

theorem lt_of_lpar {path : List UInt8} {length n : Nat} (h : n < lpar path length) :
    lpar path length < length := by
  refine lpar_lt (Nat.pos_of_ne_zero fun hzero => ?_)
  subst hzero
  exact Nat.not_lt_zero _ h

section

variable {ω : Type} (os : DirOs ω) (creds : Credentials)

/-- creation of the directory, whose parents are there -/
def makeOne (path : CStr) (lroot : Nat) (o : ω) : Int × ω :=
  let (rc, o) := os.mkdir o path
  if rc < 0 then (rc, o) else ((lroot : Int), o)

/-- create the directory of given path and create first its parents if needed -/
def createDirectory (path : CStr) (length : Nat) (o : ω) : Int × ω :=
  if _h : 0 < lpar path.bytes length then
    let parent := cutPath path (lpar path.bytes length)
    if os.stat o (some parent) = 0 then makeOne os path (lpar path.bytes length) o
    else if os.noEntry o parent = false then (os.stat o (some parent), o)
    else
      match createDirectory parent (lpar path.bytes length) o with
      | (rc, o) => if rc < 0 then (rc, o) else makeOne os path rc.toNat o
  else makeOne os path 0 o
termination_by length
decreasing_by exact lt_of_lpar _h

/-- set credentials of directory of path and its parent until the length matches the given root -/
def setupDirectory (path : CStr) (length lroot : Nat) (o : ω) : ω :=
  let o := os.chown o path creds.uid creds.gid
  let o := match creds.smack with
    | some smack => os.setxattr o path smack
    | none => o
  if _h : lroot < lpar path.bytes length then
    setupDirectory (cutPath path (lpar path.bytes length)) (lpar path.bytes length) lroot o
  else o
termination_by length
decreasing_by exact lt_of_lpar _h

/-- The result, and what the calls leave. -/
def ensureDirectory (path : CStr) (length : Nat) (o : ω) : Int × ω :=
  let lenpath := backWhile (· == slash) path.bytes length
  if lenpath = 0 then (-1, o)
  else
    match createDirectory os path lenpath o with
    | (rc, o) => if 0 ≤ rc then (0, setupDirectory os creds path lenpath rc.toNat o) else (rc, o)

/-- The system as `set_one_export` sees it. -/
def DirOs.redOs : RedOs ω where
  stat := os.stat
  ensureDirectory rs path := ensureDirectory os creds path path.bytes.length rs.os
  memFdExecCmd := os.memFdExecCmd
  strerror := os.strerror

variable {os} {creds}

theorem makeOne_exists (hos : os.Lawful) {path : CStr} {lroot : Nat} {o : ω}
    (h : 0 ≤ (makeOne os path lroot o).1) :
    os.stat (makeOne os path lroot o).2 (some path) = 0 := by
  unfold makeOne at h ⊢
  dsimp only at h ⊢
  split
  · rename_i hneg
    rw [if_pos hneg] at h
    exact absurd hneg (Int.not_lt.mpr h)
  · rename_i hpos
    exact hos.mkdir_stat o path (Int.not_lt.mp hpos)

theorem createDirectory_exists (hos : os.Lawful) {path : CStr} {length : Nat} {o : ω}
    (h : 0 ≤ (createDirectory os path length o).1) :
    os.stat (createDirectory os path length o).2 (some path) = 0 := by
  unfold createDirectory at h ⊢
  by_cases hpar : 0 < lpar path.bytes length
  · rw [dif_pos hpar] at h ⊢
    dsimp only at h ⊢
    by_cases hstat : os.stat o (some (cutPath path (lpar path.bytes length))) = 0
    · rw [if_pos hstat] at h ⊢
      exact makeOne_exists hos h
    rw [if_neg hstat] at h ⊢
    by_cases hentry : os.noEntry o (cutPath path (lpar path.bytes length)) = false
    · rw [if_pos hentry] at h
      rcases hos.stat_range o (some (cutPath path (lpar path.bytes length))) with hzero | hneg
      · exact absurd hzero hstat
      · rw [hneg] at h
        dsimp only at h
        omega
    rw [if_neg hentry] at h ⊢
    split at h
    · exact absurd ‹_› (Int.not_lt.mpr h)
    · rw [if_neg ‹_›]
      exact makeOne_exists hos h
  · rw [dif_neg hpar] at h ⊢
    exact makeOne_exists hos h

theorem setupDirectory_stat (hos : os.Lawful) (path : CStr) (length lroot : Nat) (o : ω)
    (path' : Option CStr) :
    os.stat (setupDirectory os creds path length lroot o) path' = os.stat o path' := by
  have hcreds : ∀ (path : CStr) (o : ω), os.stat (match creds.smack with
      | some smack => os.setxattr (os.chown o path creds.uid creds.gid) path smack
      | none => os.chown o path creds.uid creds.gid) path' = os.stat o path' := by
    intro path o
    cases creds.smack with
    | some smack => exact (hos.setxattr_stat _ _ _ _).trans (hos.chown_stat _ _ _ _ _)
    | none => exact hos.chown_stat _ _ _ _ _
  induction length using Nat.strong_induction_on generalizing path o with
  | _ length ih =>
    rw [setupDirectory]
    by_cases hpar : lroot < lpar path.bytes length
    · rw [dif_pos hpar, ih _ (lt_of_lpar hpar)]
      exact hcreds path o
    · rw [dif_neg hpar]
      exact hcreds path o

/-- **A directory** that was created is there. -/
theorem ensureDirectory_exists (hos : os.Lawful) {path : CStr} {length : Nat} {o : ω}
    (h : (ensureDirectory os creds path length o).1 = 0) :
    os.stat (ensureDirectory os creds path length o).2 (some path) = 0 := by
  unfold ensureDirectory at h ⊢
  dsimp only at h ⊢
  by_cases hlen : backWhile (· == slash) path.bytes length = 0
  · rw [if_pos hlen] at h
    dsimp only at h
    omega
  · rw [if_neg hlen] at h ⊢
    by_cases hrc : 0 ≤ (createDirectory os path (backWhile (· == slash) path.bytes length) o).1
    · rw [if_pos hrc]
      exact (setupDirectory_stat hos _ _ _ _ _).trans (createDirectory_exists hos hrc)
    · rw [if_neg hrc] at h
      exact absurd (Int.le_of_eq h.symm) hrc

end

end Wrap
end RedPak
