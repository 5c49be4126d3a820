import Mathlib.Algebra.Order.Ring.Nat
import RedPak.Layered.Chain
import RedPak.Layered.Fields
import RedPak.Wrap.Directory

/-!
# Wrap.Ownership

Whose the directories of an export are. `create_directory` and `setup_directory` cut the path in
its array and put the slash back; the first goes up to a directory that is there, the second as far
as the length that the first returns.

* `ensureDirectory_eq`: the path is restored, and the rest is `Wrap.ensureDirectory`.
* `createDirectory_chain`, `setupDirectory_chain`: both go along one chain of directories.
* `ensureDirectory_owned`: the directories that are made are the ones that are given away.
-/

namespace RedPak
namespace Wrap
namespace InPlace

open Conf
open Layered (Maker)
open Node (slash)

/-! ## `ensure_directory` -/

section

variable {ω : Type} (os : DirOs ω) (creds : Credentials)

/-- creation of the directory, whose parents are there -/
def makeOne (path : List UInt8) (lroot : Nat) (o : ω) : Int × List UInt8 × ω :=
  let (rc, o) := os.mkdir o (.ofBytes path)
  if rc < 0 then (rc, path, o) else ((lroot : Int), path, o)

/-- create the directory of given path and create first its parents if needed -/
def createDirectory (path : List UInt8) (length : Nat) (o : ω) : Int × List UInt8 × ω :=
  if _h : 0 < lpar path length then
    -- test if the parent exists
    let cut := path.set (lpar path length) 0
    let rc := os.stat o (some (.ofBytes cut))
    let noEntry := os.noEntry o (.ofBytes cut)
    let path' := cut.set (lpar path length) slash
    if rc = 0 then makeOne os path' (lpar path length) o
    else if noEntry = false then (rc, path', o)
    else
      -- recursive creation of the parent
      match createDirectory (path'.set (lpar path length) 0) (lpar path length) o with
      | (rc, cut, o) =>
        let path' := cut.set (lpar path length) slash
        if rc < 0 then (rc, path', o) else makeOne os path' rc.toNat o
  else makeOne os path 0 o
termination_by length
decreasing_by exact lt_of_lpar _h

/-- setting of uid/gid, and of smack -/
def give (o : ω) (dir : CStr) : ω :=
  let o := os.chown o dir creds.uid creds.gid
  creds.smack.elim o fun smack => os.setxattr o dir smack

/-- set credentials of directory of path and its parent until the length matches the given root -/
def setupDirectory (path : List UInt8) (length lroot : Nat) (o : ω) : List UInt8 × ω :=
  let o := give os creds o (.ofBytes path)
  if _h : lroot < lpar path length then
    match setupDirectory (path.set (lpar path length) 0) (lpar path length) lroot o with
    | (cut, o) => (cut.set (lpar path length) slash, o)
  else (path, o)
termination_by length
decreasing_by exact lt_of_lpar _h

/-- The result, the path and what the calls leave; `none` when `(int)length` is negative, and a
byte in front of the path is stored to. -/
def ensureDirectory (path : List UInt8) (length : Nat) (o : ω) : Option (Int × List UInt8 × ω) :=
  let length := length % 2 ^ 32
  if 2 ^ 31 ≤ length then none
  else
    let lenpath := backWhile (· == slash) path length
    if lenpath = 0 then some (-1, path, o)
    else
      match createDirectory os path lenpath o with
      | (rc, path, o) =>
        if 0 ≤ rc then
          match setupDirectory os creds path lenpath rc.toNat o with
          | (path, o) => some (0, path, o)
        else some (rc, path, o)

end

/-! ## The path in its array -/

theorem backWhile_append {p : UInt8 → Bool} {bs tail : List UInt8} {n : Nat} (h : n ≤ bs.length) :
    backWhile p (bs ++ tail) n = backWhile p bs n := by
  induction n with
  | zero => rfl
  | succ n ih =>
    have hget : (bs ++ tail).getD n 0 = bs.getD n 0 := by
      rw [List.getD_eq_getElem?_getD, List.getD_eq_getElem?_getD, List.getElem?_append_left h]
    rw [backWhile, backWhile, hget, ih (Nat.le_of_succ_le h)]

theorem lpar_append {bs tail : List UInt8} {n : Nat} (h : n ≤ bs.length) :
    lpar (bs ++ tail) n = lpar bs n := by
  rw [lpar, lpar, backWhile_append h, backWhile_append (Nat.le_trans (backWhile_le _ _ _) h)]

theorem backWhile_stop {p : UInt8 → Bool} {bs : List UInt8} {n : Nat} (h : 0 < backWhile p bs n) :
    p (bs.getD (backWhile p bs n - 1) 0) = false := by
  induction n with
  | zero => exact absurd h (Nat.lt_irrefl 0)
  | succ n ih =>
    rw [backWhile] at h ⊢
    cases hp : p (bs.getD n 0) with
    | true =>
      rw [hp, if_pos rfl] at h
      rw [if_pos rfl]
      exact ih h
    | false =>
      rw [if_neg Bool.false_ne_true]
      exact hp

theorem backWhile_skipped {p : UInt8 → Bool} {bs : List UInt8} {n i : Nat}
    (h : backWhile p bs n ≤ i) (hi : i < n) : p (bs.getD i 0) = true := by
  induction n with
  | zero => exact absurd hi (Nat.not_lt_zero i)
  | succ n ih =>
    rw [backWhile] at h
    cases hp : p (bs.getD n 0) with
    | true =>
      rw [hp, if_pos rfl] at h
      rcases Nat.lt_succ_iff_lt_or_eq.mp hi with hlt | rfl
      · exact ih h hlt
      · exact hp
    | false =>
      rw [hp, if_neg Bool.false_ne_true] at h
      omega

theorem getElem?_lpar {bs : List UInt8} {n : Nat} (h : 0 < lpar bs n) (hlen : n ≤ bs.length) :
    bs[lpar bs n]? = some slash := by
  have hname : 0 < backWhile (· != slash) bs n := Nat.lt_of_lt_of_le h (backWhile_le _ _ _)
  have hslash : bs.getD (backWhile (· != slash) bs n - 1) 0 = slash := by
    simpa using backWhile_stop hname
  have hlast := backWhile_stop (p := (· == slash)) h
  have hle : lpar bs n ≤ backWhile (· != slash) bs n := backWhile_le _ _ _
  have hne : lpar bs n ≠ backWhile (· != slash) bs n := fun heq => by
    have hdiff : (bs.getD (lpar bs n - 1) 0 == slash) = false := hlast
    rw [heq, hslash] at hdiff
    simp at hdiff
  have hlt : lpar bs n < bs.length := Nat.lt_of_lt_of_le (lt_of_lpar h) hlen
  have hget := backWhile_skipped (p := (· == slash)) (Nat.le_refl (lpar bs n))
    (Nat.lt_of_le_of_ne hle hne)
  rw [List.getD_eq_getElem?_getD, List.getElem?_eq_getElem hlt, Option.getD_some] at hget
  rw [List.getElem?_eq_getElem hlt, eq_of_beq hget]

section

variable {path : CStr} {rest : List UInt8} {length : Nat}

theorem set_zero {l : Nat} (h : l < path.bytes.length) :
    (path.bytes ++ 0 :: rest).set l 0 =
      (cutPath path l).bytes ++ 0 :: (path.bytes.drop (l + 1) ++ 0 :: rest) := by
  rw [List.set_append_left l 0 h, List.set_eq_take_append_cons_drop, if_pos h, List.append_assoc]
  rfl

theorem set_slash (rest : List UInt8) {l : Nat} (h : path.bytes[l]? = some slash) :
    ((path.bytes ++ 0 :: rest).set l 0).set l slash = path.bytes ++ 0 :: rest := by
  obtain ⟨hlt, hslash⟩ := List.getElem?_eq_some_iff.mp h
  rw [List.set_set, List.set_append_left l slash hlt, ← hslash, List.set_getElem_self hlt]

theorem lpar_lt_length (hpos : 0 < lpar path.bytes length) (hlen : length ≤ path.bytes.length) :
    lpar path.bytes length < path.bytes.length :=
  Nat.lt_of_lt_of_le (lt_of_lpar hpos) hlen

theorem length_cutPath (hpos : 0 < lpar path.bytes length) (hlen : length ≤ path.bytes.length) :
    (cutPath path (lpar path.bytes length)).bytes.length = lpar path.bytes length := by
  show (path.bytes.take _).length = _
  rw [List.length_take, Nat.min_eq_left (Nat.le_of_lt (lpar_lt_length hpos hlen))]

variable {ω : Type} {os : DirOs ω} {creds : Credentials}

theorem ofBytes_path (path : CStr) (rest : List UInt8) :
    CStr.ofBytes (path.bytes ++ 0 :: rest) = path := by
  rw [CStr.ofBytes_append_zero, CStr.ofBytes_bytes]

theorem makeOne_eq (path : CStr) (rest : List UInt8) (lroot : Nat) (o : ω) :
    makeOne os (path.bytes ++ 0 :: rest) lroot o =
      ((Wrap.makeOne os path lroot o).1, path.bytes ++ 0 :: rest,
        (Wrap.makeOne os path lroot o).2) := by
  rw [makeOne, Wrap.makeOne, ofBytes_path]
  dsimp only
  split <;> rfl

theorem createDirectory_eq (hlen : length ≤ path.bytes.length) (o : ω) :
    createDirectory os (path.bytes ++ 0 :: rest) length o =
      ((Wrap.createDirectory os path length o).1, path.bytes ++ 0 :: rest,
        (Wrap.createDirectory os path length o).2) := by
  induction length using Nat.strong_induction_on generalizing path rest o with
  | _ length ih =>
    rw [createDirectory, Wrap.createDirectory, lpar_append hlen]
    by_cases hpar : 0 < lpar path.bytes length
    · have hlt := lpar_lt_length hpar hlen
      have hcut := length_cutPath hpar hlen
      have hback := set_slash rest (getElem?_lpar hpar hlen)
      rw [dif_pos hpar, dif_pos hpar]
      dsimp only
      rw [hback, set_zero hlt, ofBytes_path,
        ih _ (lt_of_lpar hpar) (Nat.le_of_eq hcut.symm) o, ← set_zero hlt, hback]
      by_cases hstat : os.stat o (some (cutPath path (lpar path.bytes length))) = 0
      · rw [if_pos hstat, if_pos hstat]
        exact makeOne_eq path rest _ o
      rw [if_neg hstat, if_neg hstat]
      by_cases hentry : os.noEntry o (cutPath path (lpar path.bytes length)) = false
      · rw [if_pos hentry, if_pos hentry]
      rw [if_neg hentry, if_neg hentry]
      split
      · rfl
      · exact makeOne_eq path rest _ _
    · rw [dif_neg hpar, dif_neg hpar]
      exact makeOne_eq path rest 0 o

theorem setupDirectory_give (path : CStr) (length lroot : Nat) (o : ω) :
    Wrap.setupDirectory os creds path length lroot o =
      if lroot < lpar path.bytes length then
        Wrap.setupDirectory os creds (cutPath path (lpar path.bytes length))
          (lpar path.bytes length) lroot (give os creds o path)
      else give os creds o path := by
  rw [Wrap.setupDirectory, give]
  cases creds.smack with
  | none => exact dite_eq_ite
  | some smack => exact dite_eq_ite

theorem setupDirectory_eq {lroot : Nat} (hlen : length ≤ path.bytes.length) (o : ω) :
    setupDirectory os creds (path.bytes ++ 0 :: rest) length lroot o =
      (path.bytes ++ 0 :: rest, Wrap.setupDirectory os creds path length lroot o) := by
  induction length using Nat.strong_induction_on generalizing path rest o with
  | _ length ih =>
    rw [setupDirectory, setupDirectory_give, lpar_append hlen, ofBytes_path]
    by_cases hpar : lroot < lpar path.bytes length
    · have hpos := Nat.zero_lt_of_lt hpar
      have hlt := lpar_lt_length hpos hlen
      have hcut := length_cutPath hpos hlen
      rw [dif_pos hpar, if_pos hpar, set_zero hlt,
        ih _ (lt_of_lpar hpar) (Nat.le_of_eq hcut.symm), ← set_zero hlt]
      dsimp only
      rw [set_slash rest (getElem?_lpar hpos hlen)]
    · rw [dif_neg hpar, if_neg hpar]

/-- **The path is restored.** -/
theorem ensureDirectory_eq (path : CStr) (hlen : path.bytes.length < 2 ^ 31) (o : ω) :
    ensureDirectory os creds (path.bytes ++ [0]) path.bytes.length o =
      some ((Wrap.ensureDirectory os creds path path.bytes.length o).1, path.bytes ++ [0],
        (Wrap.ensureDirectory os creds path path.bytes.length o).2) := by
  have hle := backWhile_le (· == slash) path.bytes path.bytes.length
  rw [ensureDirectory, Wrap.ensureDirectory, Nat.mod_eq_of_lt (by omega)]
  dsimp only
  rw [if_neg (Nat.not_le.mpr hlen), backWhile_append (Nat.le_refl _),
    createDirectory_eq hle, setupDirectory_eq hle]
  split
  · rfl
  · dsimp only
    split <;> rfl

end

/-! ## One chain -/

/-- The directories on the path behind the length `lroot`, parents first. -/
def chain (path : CStr) (length lroot : Nat) : List CStr :=
  if _h : lroot < lpar path.bytes length then
    chain (cutPath path (lpar path.bytes length)) (lpar path.bytes length) lroot ++ [path]
  else [path]
termination_by length
decreasing_by exact lt_of_lpar _h

/-- `p` is a parent of `q`, as they are written. -/
def Parent (p q : CStr) : Prop := p.bytes ++ [slash] <+: q.bytes

theorem parent_cutPath {path : CStr} {length : Nat} (hpos : 0 < lpar path.bytes length)
    (hlen : length ≤ path.bytes.length) : Parent (cutPath path (lpar path.bytes length)) path := by
  have htake : path.bytes.take (lpar path.bytes length + 1) =
      path.bytes.take (lpar path.bytes length) ++ [slash] := by
    rw [List.take_add_one, getElem?_lpar hpos hlen]
    rfl
  rw [Parent, cutPath, ← htake]
  exact List.take_prefix _ _

theorem mem_chain {path dir : CStr} {length lroot : Nat} (hlen : length ≤ path.bytes.length)
    (h : dir ∈ chain path length lroot) : dir = path ∨ Parent dir path := by
  induction length using Nat.strong_induction_on generalizing path with
  | _ length ih =>
    rw [chain] at h
    by_cases hpar : lroot < lpar path.bytes length
    · have hpos := Nat.zero_lt_of_lt hpar
      rw [dif_pos hpar, List.mem_append, List.mem_singleton] at h
      rcases h with h | h
      · right
        rcases ih _ (lt_of_lpar hpar) (Nat.le_of_eq (length_cutPath hpos hlen).symm) h with
          rfl | hdir
        · exact parent_cutPath hpos hlen
        · exact hdir.trans (List.take_prefix _ _)
      · exact .inl h
    · rw [dif_neg hpar, List.mem_singleton] at h
      exact .inl h

theorem pairwise_chain {path : CStr} {length lroot : Nat} (hlen : length ≤ path.bytes.length) :
    (chain path length lroot).Pairwise Parent := by
  induction length using Nat.strong_induction_on generalizing path with
  | _ length ih =>
    rw [chain]
    by_cases hpar : lroot < lpar path.bytes length
    · have hpos := Nat.zero_lt_of_lt hpar
      have hcut := Nat.le_of_eq (length_cutPath hpos hlen).symm
      rw [dif_pos hpar]
      refine List.pairwise_append.mpr ⟨ih _ (lt_of_lpar hpar) hcut, List.pairwise_singleton _ _, ?_⟩
      intro p hp q hq
      rw [List.mem_singleton.mp hq]
      rcases mem_chain hcut hp with rfl | hdir
      · exact parent_cutPath hpos hlen
      · exact hdir.trans (List.take_prefix _ _)
    · rw [dif_neg hpar]
      exact List.pairwise_singleton _ _

theorem getLast?_chain (path : CStr) (length lroot : Nat) :
    (chain path length lroot).getLast? = some path := by
  rw [chain]
  split
  · rw [List.getLast?_append_cons]
    rfl
  · rfl

section

variable {ω : Type} {os : DirOs ω} {creds : Credentials}

/-- The directories, as they are looked for and made. -/
def maker (os : DirOs ω) : Maker ω CStr Unit where
  look o dir := if os.stat o (some dir) = 0 then some () else none
  make o dir := (decide (0 ≤ (os.mkdir o dir).1), (os.mkdir o dir).2)
  good := ()

/-- **The second recursion** gives the chain away, children first. -/
theorem setupDirectory_chain (path : CStr) (length lroot : Nat) (o : ω) :
    Wrap.setupDirectory os creds path length lroot o =
      (chain path length lroot).reverse.foldl (give os creds) o := by
  induction length using Nat.strong_induction_on generalizing path o with
  | _ length ih =>
    rw [setupDirectory_give, chain]
    by_cases hpar : lroot < lpar path.bytes length
    · rw [if_pos hpar, dif_pos hpar, ih _ (lt_of_lpar hpar), List.reverse_append]
      rfl
    · rw [if_neg hpar, dif_neg hpar]
      rfl

/-- The directories are made one after the other, which either succeeds, or one can't be made. -/
def Makes (os : DirOs ω) (dirs : List CStr) (lroot : Nat) (o : ω) (result : Int × ω) : Prop :=
  result.2 = ((maker os).makeAll o dirs).state ∧
    (if ((maker os).makeAll o dirs).ok = true then result.1 = lroot else result.1 < 0)

theorem makes_makeOne (os : DirOs ω) (path : CStr) (lroot : Nat) (o : ω) :
    Makes os [path] lroot o (Wrap.makeOne os path lroot o) := by
  rw [Makes, Wrap.makeOne, Maker.makeAll]
  dsimp only
  by_cases hmade : 0 ≤ (os.mkdir o path).1
  · rw [if_neg (Int.not_lt.mpr hmade),
      if_pos (show ((maker os).make o path).1 = true from decide_eq_true hmade)]
    exact ⟨rfl, by simp [Maker.makeAll]⟩
  · rw [if_pos (Int.not_le.mp hmade),
      if_neg (show ¬ ((maker os).make o path).1 = true from fun h => hmade (of_decide_eq_true h))]
    exact ⟨rfl, Int.not_le.mp hmade⟩

theorem Makes.concat {dirs : List CStr} {lroot : Nat} {o : ω} {result : Int × ω} (path : CStr)
    (h : Makes os dirs lroot o result) : Makes os (dirs ++ [path]) lroot o
      (if result.1 < 0 then result else Wrap.makeOne os path result.1.toNat result.2) := by
  obtain ⟨hstate, hrc⟩ := h
  rw [Makes, Maker.makeAll_append]
  by_cases hok : ((maker os).makeAll o dirs).ok = true
  · rw [if_pos hok] at hrc
    have hone := makes_makeOne os path lroot result.2
    rw [hstate] at hone
    rw [if_pos hok, if_neg (by omega), hrc, Int.toNat_natCast, hstate]
    exact hone
  · rw [if_neg hok] at hrc
    rw [if_neg hok, if_pos hrc, if_neg hok]
    exact ⟨hstate, hrc⟩

/-- **The first recursion** makes a chain, and returns where it starts. -/
theorem createDirectory_chain (hos : os.Lawful) (path : CStr) (length : Nat) (o : ω) :
    (∃ rc < 0, Wrap.createDirectory os path length o = (rc, o)) ∨
    ∃ lroot ≤ lpar path.bytes length,
      Makes os (chain path length lroot) lroot o (Wrap.createDirectory os path length o) := by
  induction length using Nat.strong_induction_on generalizing path with
  | _ length ih =>
    have hone (lroot : Nat) (h : ¬ lroot < lpar path.bytes length) : Makes os
        (chain path length lroot) lroot o (Wrap.makeOne os path lroot o) := by
      rw [chain, dif_neg h]
      exact makes_makeOne os path lroot o
    rw [Wrap.createDirectory]
    by_cases hpar : 0 < lpar path.bytes length
    · rw [dif_pos hpar]
      dsimp only
      by_cases hstat : os.stat o (some (cutPath path (lpar path.bytes length))) = 0
      · rw [if_pos hstat]
        exact .inr ⟨_, Nat.le_refl _, hone _ (Nat.lt_irrefl _)⟩
      rw [if_neg hstat]
      have hfailed : os.stat o (some (cutPath path (lpar path.bytes length))) = -1 :=
        (hos.stat_range o _).resolve_left hstat
      by_cases hentry : os.noEntry o (cutPath path (lpar path.bytes length)) = false
      · rw [if_pos hentry]
        exact .inl ⟨_, by rw [hfailed]; decide, rfl⟩
      rw [if_neg hentry]
      rcases ih _ (lt_of_lpar hpar) (cutPath path (lpar path.bytes length)) with
        ⟨rc, hrc, heq⟩ | ⟨lroot, hle, hmakes⟩
      · rw [heq]
        exact .inl ⟨rc, hrc, if_pos hrc⟩
      · -- the parent's chain starts in front of the parent
        have hlt : lroot < lpar path.bytes length := Nat.lt_of_le_of_lt hle (lpar_lt hpar)
        refine .inr ⟨lroot, Nat.le_of_lt hlt, ?_⟩
        rw [chain, dif_pos hlt]
        exact hmakes.concat path
    · rw [dif_neg hpar]
      exact .inr ⟨0, Nat.zero_le _, hone 0 hpar⟩

end

/-! ## What is called -/

/-- The calls that make a directory, and the ones that set its owner and its label. -/
inductive Event where
  | made (dir : CStr)
  | owned (dir : CStr) (uid gid : Nat)
  | labelled (dir : CStr) (smack : CStr)

section

variable {ω : Type}

/-- The system, with the calls in order. -/
def traced (os : DirOs ω) : DirOs (ω × List Event) where
  stat w := os.stat w.1
  noEntry w := os.noEntry w.1
  mkdir w dir :=
    let (rc, o) := os.mkdir w.1 dir
    (rc, o, if rc < 0 then w.2 else w.2 ++ [.made dir])
  chown w dir uid gid := (os.chown w.1 dir uid gid, w.2 ++ [.owned dir uid gid])
  setxattr w dir smack := (os.setxattr w.1 dir smack, w.2 ++ [.labelled dir smack])
  memFdExecCmd w mount path :=
    let (fd, o) := os.memFdExecCmd w.1 mount path
    (fd, o, w.2)
  strerror w := os.strerror w.1

/-- What is called to give a directory away. -/
def given (creds : Credentials) (dir : CStr) : List Event :=
  .owned dir creds.uid creds.gid :: (creds.smack.map (Event.labelled dir)).toList

variable {os : DirOs ω} {creds : Credentials}

theorem lawful_traced (hos : os.Lawful) : (traced os).Lawful where
  stat_range w path := hos.stat_range w.1 path
  stat_null w := hos.stat_null w.1
  mkdir_stat w path h := hos.mkdir_stat w.1 path h
  chown_stat w path uid gid path' := hos.chown_stat w.1 path uid gid path'
  setxattr_stat w path smack path' := hos.setxattr_stat w.1 path smack path'

theorem makeAll_traced (os : DirOs ω) (dirs : List CStr) (w : ω × List Event) :
    ((maker (traced os)).makeAll w dirs).state = (((maker os).makeAll w.1 dirs).state,
      w.2 ++ ((maker os).makeAll w.1 dirs).made.map .made) ∧
    ((maker (traced os)).makeAll w dirs).ok = ((maker os).makeAll w.1 dirs).ok := by
  induction dirs generalizing w with
  | nil => exact ⟨Prod.ext rfl (List.append_nil w.2).symm, rfl⟩
  | cons dir dirs ih =>
    have hmake : ((maker (traced os)).make w dir).1 = ((maker os).make w.1 dir).1 := rfl
    have hfst : ((maker (traced os)).make w dir).2.1 = ((maker os).make w.1 dir).2 := rfl
    have hsnd : ((maker (traced os)).make w dir).2.2 =
      if (os.mkdir w.1 dir).1 < 0 then w.2 else w.2 ++ [.made dir] := rfl
    rw [Maker.makeAll, Maker.makeAll, hmake]
    by_cases hmade : ((maker os).make w.1 dir).1 = true
    · have hpos : 0 ≤ (os.mkdir w.1 dir).1 := of_decide_eq_true hmade
      obtain ⟨hstate, hok⟩ := ih ((maker (traced os)).make w dir).2
      rw [hfst, hsnd, if_neg (Int.not_lt.mpr hpos), List.append_assoc] at hstate
      rw [hfst] at hok
      rw [if_pos hmade, if_pos hmade]
      exact ⟨hstate, hok⟩
    · have hneg : (os.mkdir w.1 dir).1 < 0 :=
        Int.not_le.mp fun hpos => hmade (decide_eq_true hpos)
      rw [if_neg hmade, if_neg hmade]
      refine ⟨Prod.ext hfst ?_, rfl⟩
      rw [hsnd, if_pos hneg]
      exact (List.append_nil w.2).symm

theorem makeOne_traced (path : CStr) (lroot : Nat) (w : ω × List Event) :
    (Wrap.makeOne (traced os) path lroot w).1 = (Wrap.makeOne os path lroot w.1).1 ∧
    (Wrap.makeOne (traced os) path lroot w).2.1 = (Wrap.makeOne os path lroot w.1).2 := by
  rw [Wrap.makeOne, Wrap.makeOne]
  dsimp only [traced]
  split <;> exact ⟨rfl, rfl⟩

theorem createDirectory_traced (os : DirOs ω) (path : CStr) (length : Nat) (w : ω × List Event) :
    (Wrap.createDirectory (traced os) path length w).1 =
      (Wrap.createDirectory os path length w.1).1 ∧
    (Wrap.createDirectory (traced os) path length w).2.1 =
      (Wrap.createDirectory os path length w.1).2 := by
  induction length using Nat.strong_induction_on generalizing path with
  | _ length ih =>
    rw [Wrap.createDirectory, Wrap.createDirectory]
    by_cases hpar : 0 < lpar path.bytes length
    · obtain ⟨hrc, hstate⟩ :=
        ih _ (lt_of_lpar hpar) (cutPath path (lpar path.bytes length))
      rw [dif_pos hpar, dif_pos hpar]
      dsimp only
      have hstat : (traced os).stat w = os.stat w.1 := rfl
      have hentry : (traced os).noEntry w = os.noEntry w.1 := rfl
      rw [hstat, hentry, hrc, ← hstate]
      split
      · exact makeOne_traced path _ w
      split
      · exact ⟨rfl, rfl⟩
      split
      · exact ⟨rfl, rfl⟩
      · exact makeOne_traced path _ _
    · rw [dif_neg hpar, dif_neg hpar]
      exact makeOne_traced path 0 w

theorem give_traced (w : ω × List Event) (dir : CStr) :
    give (traced os) creds w dir = (give os creds w.1 dir, w.2 ++ given creds dir) := by
  rw [give, give, given]
  cases creds.smack with
  | none => rfl
  | some smack => exact Prod.ext rfl (List.append_assoc _ _ _)

theorem giveAll_traced (dirs : List CStr) (w : ω × List Event) :
    dirs.foldl (give (traced os) creds) w =
      (dirs.foldl (give os creds) w.1, w.2 ++ dirs.flatMap (given creds)) := by
  induction dirs generalizing w with
  | nil => exact Prod.ext rfl (List.append_nil w.2).symm
  | cons dir dirs ih =>
    rw [List.foldl_cons, List.foldl_cons, ih, give_traced, List.flatMap_cons, List.append_assoc]

theorem ensureDirectory_traced (os : DirOs ω) (creds : Credentials) (path : CStr) (length : Nat)
    (w : ω × List Event) :
    (Wrap.ensureDirectory (traced os) creds path length w).1 =
      (Wrap.ensureDirectory os creds path length w.1).1 ∧
    (Wrap.ensureDirectory (traced os) creds path length w).2.1 =
      (Wrap.ensureDirectory os creds path length w.1).2 := by
  rw [Wrap.ensureDirectory, Wrap.ensureDirectory]
  dsimp only
  obtain ⟨hrc, hstate⟩ :=
    createDirectory_traced os path (backWhile (· == slash) path.bytes length) w
  rw [hrc, ← hstate, setupDirectory_chain, setupDirectory_chain, giveAll_traced]
  split
  · exact ⟨rfl, rfl⟩
  split
  · exact ⟨rfl, rfl⟩
  · exact ⟨rfl, rfl⟩

end

/-! ## Whose the directories are -/

/-- What paths stand for, and the owner and the label of that, with what the calls are documented
to do to it. -/
structure Inodes {ω : Type} (os : DirOs ω) (ι α : Type) where
  resolve : ω → CStr → Option ι
  attributes : ω → ι → Option α
  there : ∀ {o dir i}, resolve o dir = some i → attributes o i ≠ none
  mkdir_new : ∀ {o dir}, 0 ≤ (os.mkdir o dir).1 → resolve o dir = none ∧
    ∃ i, attributes o i = none ∧ resolve (os.mkdir o dir).2 dir = some i
  mkdir_resolve : ∀ {o dir dir' i}, resolve o dir' = some i →
    resolve (os.mkdir o dir).2 dir' = some i
  mkdir_attributes : ∀ {o dir i}, attributes o i ≠ none →
    attributes (os.mkdir o dir).2 i = attributes o i
  chown_resolve : ∀ {o dir uid gid}, resolve (os.chown o dir uid gid) = resolve o
  chown_attributes : ∀ {o dir uid gid i}, resolve o dir ≠ some i →
    attributes (os.chown o dir uid gid) i = attributes o i
  setxattr_resolve : ∀ {o dir smack}, resolve (os.setxattr o dir smack) = resolve o
  setxattr_attributes : ∀ {o dir smack i}, resolve o dir ≠ some i →
    attributes (os.setxattr o dir smack) i = attributes o i

section

variable {ω ι α : Type} {os : DirOs ω} {creds : Credentials} {dir : CStr} {dirs : List CStr}
  {start o : ω}

/-- The directories are new since the start, and nothing else changed its owner or label. -/
structure New (I : Inodes os ι α) (start : ω) (dirs : List CStr) (o : ω) : Prop where
  others : ∀ i, I.attributes start i ≠ none → I.attributes o i = I.attributes start i
  kept : ∀ dir i, I.resolve start dir = some i → I.resolve o dir = some i
  new : ∀ dir ∈ dirs, I.resolve start dir = none ∧
    ∃ i, I.attributes start i = none ∧ I.resolve o dir = some i

variable {I : Inodes os ι α}

theorem New.refl (I : Inodes os ι α) (o : ω) : New I o [] o :=
  ⟨fun _ _ => rfl, fun _ _ h => h, fun _ h => absurd h List.not_mem_nil⟩

theorem New.absent (h : New I start dirs o) {i : ι} (hnone : I.attributes o i = none) :
    I.attributes start i = none := by
  by_contra hthere
  exact hthere ((h.others i hthere).symm.trans hnone)

theorem New.unresolved (h : New I start dirs o) (hnone : I.resolve o dir = none) :
    I.resolve start dir = none := by
  cases hthere : I.resolve start dir with
  | none => rfl
  | some i => exact absurd ((h.kept dir i hthere).symm.trans hnone) (Option.some_ne_none i)

theorem New.mkdir (h : New I start dirs o) (dir : CStr) : New I start dirs (os.mkdir o dir).2 where
  others i hi := by
    have hkept := h.others i hi
    rw [← hkept] at hi ⊢
    exact I.mkdir_attributes hi
  kept dir' i hi := I.mkdir_resolve (h.kept dir' i hi)
  new dir' hdir' := by
    obtain ⟨hnone, i, hi, hresolve⟩ := h.new dir' hdir'
    exact ⟨hnone, i, hi, I.mkdir_resolve hresolve⟩

theorem New.made (h : New I start dirs o) (hmade : 0 ≤ (os.mkdir o dir).1) :
    New I start (dirs ++ [dir]) (os.mkdir o dir).2 where
  others := (h.mkdir dir).others
  kept := (h.mkdir dir).kept
  new dir' hdir' := by
    rcases List.mem_append.mp hdir' with hdir' | hdir'
    · exact (h.mkdir dir).new dir' hdir'
    · obtain ⟨hnone, i, hi, hresolve⟩ := I.mkdir_new hmade
      rw [List.mem_singleton.mp hdir']
      exact ⟨h.unresolved hnone, i, h.absent hi, hresolve⟩

theorem New.makeAll (more : List CStr) (h : New I start dirs o) :
    New I start (dirs ++ ((maker os).makeAll o more).made) ((maker os).makeAll o more).state := by
  induction more generalizing dirs o with
  | nil => rwa [Maker.makeAll, List.append_nil]
  | cons dir more ih =>
    rw [Maker.makeAll]
    by_cases hmade : ((maker os).make o dir).1 = true
    · have hrest := ih (h.made (of_decide_eq_true hmade))
      rw [List.append_assoc] at hrest
      rw [if_pos hmade]
      exact hrest
    · rw [if_neg hmade, List.append_nil]
      exact h.mkdir dir

/-- Whatever only changes the owner and the label of a new directory -/
theorem New.change {o' : ω} (h : New I start dirs o) (hdir : dir ∈ dirs)
    (hresolve : I.resolve o' = I.resolve o)
    (hattributes : ∀ i, I.resolve o dir ≠ some i → I.attributes o' i = I.attributes o i) :
    New I start dirs o' where
  others i hi := by
    obtain ⟨-, j, hj, hnew⟩ := h.new dir hdir
    have hother : I.resolve o dir ≠ some i := fun heq => by
      obtain rfl := Option.some.inj (hnew.symm.trans heq)
      exact hi hj
    exact (hattributes i hother).trans (h.others i hi)
  kept dir' i hi := by
    rw [hresolve]
    exact h.kept dir' i hi
  new dir' hdir' := by
    rw [hresolve]
    exact h.new dir' hdir'

theorem New.give (h : New I start dirs o) (hdir : dir ∈ dirs) :
    New I start dirs (give os creds o dir) := by
  have howned : New I start dirs (os.chown o dir creds.uid creds.gid) :=
    h.change hdir I.chown_resolve fun _ => I.chown_attributes
  rw [InPlace.give]
  cases creds.smack with
  | none => exact howned
  | some smack => exact howned.change hdir I.setxattr_resolve fun _ => I.setxattr_attributes

theorem New.giveAll (creds : Credentials) {gone : List CStr} (h : New I start dirs o)
    (hgone : ∀ dir ∈ gone, dir ∈ dirs) :
    New I start dirs (gone.foldl (InPlace.give os creds) o) := by
  induction gone generalizing o with
  | nil => exact h
  | cons dir gone ih =>
    exact ih (h.give (hgone dir List.mem_cons_self))
      fun dir' hdir' => hgone dir' (List.mem_cons_of_mem dir hdir')

/-- The directories that are made are exactly the ones that are given away. -/
structure GivenAway (I : Inodes os ι α) (creds : Credentials) (path : CStr) (start : ω) (rc : Int)
    (o : ω) (events : List Event) : Prop where
  success : rc = 0 → ∃ dirs : List CStr, dirs.getLast? = some path ∧ dirs.Pairwise Parent ∧
    events = dirs.map .made ++ dirs.reverse.flatMap (given creds)
  failure : rc ≠ 0 → ∃ dirs : List CStr, events = dirs.map .made
  made : ∀ dir, .made dir ∈ events → I.resolve start dir = none ∧
    ∃ i, I.attributes start i = none ∧ I.resolve o dir = some i
  others : ∀ i, I.attributes start i ≠ none → I.attributes o i = I.attributes start i

theorem givenAway_nothing (I : Inodes os ι α) (creds : Credentials) (path : CStr) (o : ω) {rc : Int}
    (hrc : rc < 0) : GivenAway I creds path o rc o [] where
  success h := absurd h (Int.ne_of_lt hrc)
  failure _ := ⟨[], rfl⟩
  made _ h := absurd h List.not_mem_nil
  others _ _ := rfl

theorem mem_given {dir dir' : CStr} : .made dir ∉ given creds dir' := by
  rw [given]
  cases creds.smack with
  | none => simp
  | some smack => simp

/-- What follows the first recursion. -/
def settle (os : DirOs ω) (creds : Credentials) (path : CStr) (length : Nat) (result : Int × ω) :
    Int × ω :=
  if 0 ≤ result.1 then (0, Wrap.setupDirectory os creds path length result.1.toNat result.2)
  else result

theorem ensureDirectory_settle (path : CStr) (length : Nat) (o : ω) :
    Wrap.ensureDirectory os creds path length o =
      if backWhile (· == slash) path.bytes length = 0 then (-1, o)
      else settle os creds path (backWhile (· == slash) path.bytes length)
        (Wrap.createDirectory os path (backWhile (· == slash) path.bytes length) o) := rfl

theorem givenAway_chain (I : Inodes os ι α) (creds : Credentials) {path : CStr}
    {length lroot : Nat} (hlen : length ≤ path.bytes.length) (o : ω) {result : Int × ω × List Event}
    (hmakes : Makes (traced os) (chain path length lroot) lroot (o, []) result) :
    GivenAway I creds path o (settle (traced os) creds path length result).1
      (settle (traced os) creds path length result).2.1
      (settle (traced os) creds path length result).2.2 := by
  obtain ⟨hstate, hrc⟩ := hmakes
  obtain ⟨hstate', hok'⟩ := makeAll_traced os (chain path length lroot) (o, [])
  rw [hstate', List.nil_append] at hstate
  rw [hok'] at hrc
  have hnew := (New.refl I o).makeAll (chain path length lroot)
  rw [List.nil_append] at hnew
  have hmade : ∀ {dir : CStr} {dirs : List CStr}, Event.made dir ∈ dirs.map .made → dir ∈ dirs := by
    intro dir dirs h
    obtain ⟨dir', hdir', heq⟩ := List.mem_map.mp h
    cases heq
    exact hdir'
  by_cases hok : ((maker os).makeAll o (chain path length lroot)).ok = true
  · rw [if_pos hok] at hrc
    have hall := Maker.makeAll_all hok
    rw [hall] at hstate hnew
    rw [settle, hrc, if_pos (Int.natCast_nonneg lroot), Int.toNat_natCast, setupDirectory_chain,
      giveAll_traced, hstate]
    have hgiven := hnew.giveAll creds fun dir hdir => List.mem_reverse.mp hdir
    refine ⟨fun _ => ⟨_, getLast?_chain path length lroot, pairwise_chain hlen, rfl⟩,
      fun h => absurd rfl h, fun dir hdir => hgiven.new dir ?_, hgiven.others⟩
    rcases List.mem_append.mp hdir with hdir | hdir
    · exact hmade hdir
    · obtain ⟨dir', -, hdir'⟩ := List.mem_flatMap.mp hdir
      exact absurd hdir' mem_given
  · rw [if_neg hok] at hrc
    rw [settle, if_neg (Int.not_le.mpr hrc), hstate]
    exact ⟨fun h => absurd h (Int.ne_of_lt hrc), fun _ => ⟨_, rfl⟩,
      fun dir hdir => hnew.new dir (hmade hdir), hnew.others⟩

/-- **The directories that are made are the ones that are given away**, for every path. Its length
fits an `int`: it comes from an expansion (`redNodeStringExpand_length`). -/
theorem ensureDirectory_owned (os : DirOs ω) (hos : os.Lawful) (I : Inodes os ι α)
    (creds : Credentials) (path : CStr) (hlen : path.bytes.length < 2 ^ 31) (o : ω) :
    ∃ rc o' events,
      ensureDirectory (traced os) creds (path.bytes ++ [0]) path.bytes.length (o, []) =
        some (rc, path.bytes ++ [0], o', events) ∧
      Wrap.ensureDirectory os creds path path.bytes.length o = (rc, o') ∧
      GivenAway I creds path o rc o' events := by
  obtain ⟨hrc, hstate⟩ :=
    ensureDirectory_traced os creds path path.bytes.length (o, [])
  refine ⟨_, _, _, ensureDirectory_eq path hlen (o, []), Prod.ext hrc.symm hstate.symm, ?_⟩
  rw [ensureDirectory_settle]
  have hle := backWhile_le (· == slash) path.bytes path.bytes.length
  generalize backWhile (· == slash) path.bytes path.bytes.length = lenpath at hle
  by_cases hzero : lenpath = 0
  · rw [if_pos hzero]
    exact givenAway_nothing I creds path o (show (-1 : Int) < 0 by decide)
  rw [if_neg hzero]
  rcases createDirectory_chain (lawful_traced hos) path lenpath (o, []) with
    ⟨rc, hrc, heq⟩ | ⟨lroot, -, hmakes⟩
  · rw [heq, settle, if_neg (Int.not_le.mpr hrc)]
    exact givenAway_nothing I creds path o hrc
  · exact givenAway_chain I creds hle o hmakes

end

/-! ## A system -/

/-- The owner and the label of a directory. -/
structure Attributes where
  uid : Nat
  gid : Nat
  smack : Option CStr
deriving DecidableEq

/-- The names on a path. -/
def names (path : CStr) : List (List UInt8) := Layered.fields slash path.bytes

/-- Directories, by the names on the way to them. -/
abbrev Tree := List (List UInt8) → Option Attributes

def changeAt (t : Tree) (ns : List (List UInt8)) (change : Attributes → Attributes) : Tree :=
  fun ns' => if ns' = ns then (t ns).map change else t ns'

/-- A system of directories of root, where relative paths start at the root. -/
def treeOs : DirOs Tree where
  stat t path := if path.any fun path => (t (names path)).isSome then 0 else -1
  noEntry _ _ := true
  mkdir t path :=
    let ns := names path
    if ns ≠ [] ∧ (t ns.dropLast).isSome ∧ t ns = none then
      (0, fun ns' => if ns' = ns then some ⟨0, 0, none⟩ else t ns')
    else (-1, t)
  chown t path uid gid := changeAt t (names path) fun a => { a with uid := uid, gid := gid }
  setxattr t path smack := changeAt t (names path) fun a => { a with smack := some smack }
  memFdExecCmd t _ _ := (-1, t)
  strerror _ := .lit "No such file or directory"

theorem isSome_changeAt (t : Tree) (ns ns' : List (List UInt8)) (change : Attributes → Attributes) :
    (changeAt t ns change ns').isSome = (t ns').isSome := by
  rw [changeAt]
  split
  · rename_i heq
    rw [heq, Option.isSome_map]
  · rfl

theorem mkdir_tree (t : Tree) (path : CStr) :
    treeOs.mkdir t path = (-1, t) ∨ t (names path) = none ∧ treeOs.mkdir t path =
      (0, fun ns' => if ns' = names path then some ⟨0, 0, none⟩ else t ns') := by
  by_cases hfree : names path ≠ [] ∧ (t (names path).dropLast).isSome ∧ t (names path) = none
  · exact .inr ⟨hfree.2.2, if_pos hfree⟩
  · exact .inl (if_neg hfree)

theorem lawful_treeOs : treeOs.Lawful where
  stat_range t path := by
    show (if _ then _ else _) = (0 : Int) ∨ (if _ then _ else _) = (-1 : Int)
    split
    · exact .inl rfl
    · exact .inr rfl
  stat_null t := rfl
  mkdir_stat t path h := by
    rcases mkdir_tree t path with hfailed | ⟨-, hmade⟩
    · rw [hfailed] at h
      exact absurd h (show ¬ (0 : Int) ≤ -1 by decide)
    · rw [hmade]
      simp [treeOs]
  chown_stat t path uid gid path' := by
    cases path' with
    | none => rfl
    | some path' => simp [treeOs, isSome_changeAt]
  setxattr_stat t path smack path' := by
    cases path' with
    | none => rfl
    | some path' => simp [treeOs, isSome_changeAt]

/-- A directory that is there, by its names -/
def resolveTree (t : Tree) (path : CStr) : Option (List (List UInt8)) :=
  if (t (names path)).isSome then some (names path) else none

theorem resolveTree_eq_some {t : Tree} {path : CStr} {ns : List (List UInt8)} :
    resolveTree t path = some ns ↔ ns = names path ∧ t ns ≠ none := by
  rw [resolveTree]
  split
  · rename_i hthere
    rw [Option.some.injEq]
    refine ⟨fun h => ?_, fun h => h.1.symm⟩
    subst h
    exact ⟨rfl, Option.isSome_iff_ne_none.mp hthere⟩
  · rename_i hnone
    refine ⟨fun h => (by cases h), ?_⟩
    rintro ⟨rfl, hthere⟩
    exact absurd (Option.isSome_iff_ne_none.mpr hthere) hnone

theorem resolveTree_changeAt (t : Tree) (ns : List (List UInt8))
    (change : Attributes → Attributes) : resolveTree (changeAt t ns change) = resolveTree t := by
  funext path
  rw [resolveTree, resolveTree, isSome_changeAt]

theorem changeAt_other {t : Tree} {path : CStr} {ns : List (List UInt8)}
    {change : Attributes → Attributes} (h : resolveTree t path ≠ some ns) :
    changeAt t (names path) change ns = t ns := by
  rw [changeAt]
  split
  · rename_i heq
    have hnone : t ns = none := by
      by_contra hthere
      exact h (resolveTree_eq_some.mpr ⟨heq, hthere⟩)
    rw [← heq, hnone]
    rfl
  · rfl

theorem mkdir_tree_kept {t : Tree} {ns : List (List UInt8)} (path : CStr) (h : t ns ≠ none) :
    (treeOs.mkdir t path).2 ns = t ns := by
  rcases mkdir_tree t path with hfailed | ⟨hnone, hmade⟩
  · rw [hfailed]
  · rw [hmade]
    exact if_neg fun heq : ns = names path => h (heq ▸ hnone)

def treeInodes : Inodes treeOs (List (List UInt8)) Attributes where
  resolve := resolveTree
  attributes t ns := t ns
  there h := (resolveTree_eq_some.mp h).2
  mkdir_new {t path} h := by
    rcases mkdir_tree t path with hfailed | ⟨hnone, hmade⟩
    · rw [hfailed] at h
      exact absurd h (show ¬ (0 : Int) ≤ -1 by decide)
    · refine ⟨if_neg (by rw [hnone]; exact Bool.false_ne_true), names path, hnone, ?_⟩
      rw [hmade]
      exact resolveTree_eq_some.mpr ⟨rfl, by simp⟩
  mkdir_resolve {t path path' ns} h := by
    obtain ⟨rfl, hthere⟩ := resolveTree_eq_some.mp h
    exact resolveTree_eq_some.mpr ⟨rfl, by rw [mkdir_tree_kept path hthere]; exact hthere⟩
  mkdir_attributes {t path ns} h := mkdir_tree_kept path h
  chown_resolve := resolveTree_changeAt _ _ _
  chown_attributes h := changeAt_other h
  setxattr_resolve := resolveTree_changeAt _ _ _
  setxattr_attributes h := changeAt_other h

/-- There is the root, and `/srv` of the user 7. -/
def srvTree : Tree := fun ns =>
  if ns = [] then some ⟨0, 0, none⟩
  else if ns = names (.lit "/srv") then some ⟨7, 7, none⟩
  else none

/-- Two directories are made in `/srv` and given to the user 1001. -/
theorem ensureDirectory_srv : ∃ rc o' events,
    ensureDirectory (traced treeOs) ⟨1001, 1001, some (.lit "App")⟩
        ((CStr.lit "/srv//node/data/").bytes ++ [0]) (CStr.lit "/srv//node/data/").bytes.length
        (srvTree, []) =
      some (rc, (CStr.lit "/srv//node/data/").bytes ++ [0], o', events) ∧
    Wrap.ensureDirectory treeOs ⟨1001, 1001, some (.lit "App")⟩ (.lit "/srv//node/data/")
      (CStr.lit "/srv//node/data/").bytes.length srvTree = (rc, o') ∧
    GivenAway treeInodes ⟨1001, 1001, some (.lit "App")⟩ (.lit "/srv//node/data/") srvTree rc o'
      events :=
  ensureDirectory_owned treeOs lawful_treeOs treeInodes ⟨1001, 1001, some (.lit "App")⟩
    (.lit "/srv//node/data/") (by decide) srvTree

end InPlace
end Wrap
end RedPak
