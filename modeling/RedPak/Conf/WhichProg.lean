import RedPak.Conf.CString
import RedPak.Conf.Paths
import RedPak.Layered.Trim
import RedPak.Layered.Words

/-!
# Conf.WhichProg

The lookup of a program (`whichprog`): a variable of the environment that overrides it, the
directories of `PATH`, a default value, the name.

A pointer into `PATH` is the list of the bytes from there to the terminating zero, which is one of
them. A result of `none` stands for a read behind that zero, or for a store outside of the buffer.

* `searchProg_spec`: what the loop over `PATH` finds, and when it reads too far.
* `looksUp_iff`: when the program that is found is the right one.
-/

namespace RedPak
namespace Conf

open Layered (words IsWord)

namespace WhichProg

/-- `PATH_MAX`, the size of the buffer -/
def pathMax : Nat := 4096

/-- `/` -/
def slash : UInt8 := 0x2F

/-- What a process finds around it: `getenv`, `secure_getenv("PATH")`, and
`access(path, X_OK) == 0`. -/
structure Surroundings where
  getenv : CStr → Option CStr
  securePath : Option CStr
  executable : CStr → Bool

/-! ## `whichprog` -/

/-- `for(off = 1 ; path[off] && path[off] != ':' ; off++);` -/
def elementEnd (path : List UInt8) (off : Nat) : Option Nat :=
  if off < path.length then
    if path[off]? = some 0 ∨ path[off]? = some colon then some off
    else elementEnd path (off + 1)
  else none
termination_by path.length - off

variable (o : Surroundings) (name : CStr)

/-- `PATH/NAME` in the buffer, if there is enough space: the result, if it is an executable. -/
def tryElement (path : List UInt8) (off : Nat) : Option (Option CStr) :=
  let lename := 1 + name.bytes.length
  if off + lename < pathMax then
    let buffer := path.take off
    let buffer := if off = 0 ∨ path[off - 1]? ≠ some slash then buffer ++ [slash] else buffer
    let buffer := buffer ++ (name.bytes ++ [0])
    if pathMax < buffer.length then none
    else if o.executable (.ofBytes buffer) then some (some (.ofBytes buffer))
    else some none
  else some none

/-- The search in path: the result, which may be NULL. -/
def searchProg (path : List UInt8) : Option (Option CStr) :=
  -- extract part between colons
  let part := path.dropWhile isColon
  match elementEnd part 1 with
  | none => none
  | some off =>
    match tryElement o name part off with
    | none => none
    | some (some result) => some (some result)
    | some none =>
      if _h : off < part.length then
        if part[off]? = some 0 then some none else searchProg (part.drop (off + 1))
      else none
termination_by path.length
decreasing_by
  have hle : (path.dropWhile isColon).length ≤ path.length := (List.dropWhile_sublist _).length_le
  have hlt : off < (path.dropWhile isColon).length := _h
  rw [List.length_drop]
  omega

def whichprog (evar dflt : Option CStr) : Option CStr :=
  match evar.bind o.getenv with
  | some result => some result
  | none =>
    match o.securePath with
    | none => some (dflt.getD name)
    | some path => (searchProg o name (path.bytes ++ [0])).map fun result =>
        (result.or dflt).getD name

/-! ## What it is for -/

/-- `DIR/NAME`, with one slash between the two -/
def joinedText (dir : List UInt8) : List UInt8 :=
  dir ++ (if dir.getLast? = some slash then [] else [slash]) ++ name.bytes

def program (dir : List UInt8) : CStr := .ofBytes (joinedText name dir)

/-- The path of the program fits the buffer, with its zero. -/
def Fits (dir : List UInt8) : Prop := (joinedText name dir).length + 1 ≤ pathMax

/-- The test of the source, which counts the slash whether or not there is one already. -/
def Tested (dir : List UInt8) : Prop := dir.length + (1 + name.bytes.length) < pathMax

instance (dir : List UInt8) : Decidable (Fits name dir) := inferInstanceAs (Decidable (_ ≤ _))

instance (dir : List UInt8) : Decidable (Tested name dir) := inferInstanceAs (Decidable (_ < _))

/-- The first directory of a path that has the program, of those that are looked at. -/
def firstDir (looked : List UInt8 → Bool) (path : List UInt8) : Option (List UInt8) :=
  (words isColon path).find? fun dir => looked dir && o.executable (program name dir)

/-- The path goes on to its end with a directory. -/
def DirLast (path : List UInt8) : Prop := path ≠ [] ∧ path.getLast? ≠ some colon

instance (path : List UInt8) : Decidable (DirLast path) := inferInstanceAs (Decidable (_ ∧ _))

/-- The directory of the program that is looked for. -/
def programDir : Option (List UInt8) :=
  o.securePath.bind fun path => firstDir o name (fun dir => decide (Fits name dir)) path.bytes

/-- The override, or the first program that is found, or the default, or the name. -/
def LooksUp (evar dflt : Option CStr) : Prop :=
  whichprog o name evar dflt = some ((((evar.bind o.getenv).or
    ((programDir o name).map (program name))).or dflt).getD name)

variable {o : Surroundings} {name : CStr}

/-! ## The loops -/

/-- The element ends with its first separator or with the zero. -/
theorem elementEnd_eq {before w rest : List UInt8} {c : UInt8} (hw : ∀ b ∈ w, b ≠ 0 ∧ b ≠ colon)
    (hc : c = 0 ∨ c = colon) :
    elementEnd (before ++ w ++ c :: rest) before.length = some (before ++ w).length := by
  induction w generalizing before with
  | nil =>
    rw [List.append_nil, elementEnd, if_pos (by simp), if_pos (by simpa using hc)]
  | cons b w ih =>
    have hb := hw b List.mem_cons_self
    have hget : (before ++ b :: w ++ c :: rest)[before.length]? = some b := by simp
    have hnext := @ih (before ++ [b]) fun d hd => hw d (List.mem_cons_of_mem b hd)
    rw [elementEnd, if_pos (by simp), hget, if_neg (by simpa using hb)]
    simpa using hnext

/-- There is no element in front of the zero: the byte behind it is read. -/
theorem elementEnd_empty : elementEnd [0] 1 = none := by
  rw [elementEnd, if_neg (by decide)]

theorem getElem?_behind {c : UInt8} (dir rest : List UInt8) :
    (dir ++ c :: rest)[dir.length]? = some c := by
  simp

theorem fits_of_tested {dir : List UInt8} (h : Tested name dir) : Fits name dir := by
  rw [Tested] at h
  rw [Fits, joinedText]
  split <;> simp only [List.length_append, List.length_nil, List.length_singleton] <;> omega

/-- What is done with an element: no store is outside of the buffer. -/
theorem tryElement_eq {dir rest : List UInt8} (hne : dir ≠ []) :
    tryElement o name (dir ++ rest) dir.length =
      some (if Tested name dir ∧ o.executable (program name dir) then some (program name dir)
        else none) := by
  have hpos := List.length_pos_iff.mpr hne
  have hlast : (dir ++ rest)[dir.length - 1]? = dir.getLast? := by
    rw [List.getElem?_append_left (by omega), List.getLast?_eq_getElem?]
  have htext : (if dir.length = 0 ∨ dir.getLast? ≠ some slash then dir ++ [slash] else dir) ++
      (name.bytes ++ [0]) = joinedText name dir ++ [0] := by
    have hcond : (dir.length = 0 ∨ dir.getLast? ≠ some slash) ↔ dir.getLast? ≠ some slash :=
      or_iff_right (by omega)
    rw [joinedText]
    by_cases h : dir.getLast? = some slash
    · rw [if_neg (by rw [hcond]; exact not_not_intro h), if_pos h]
      simp
    · rw [if_pos (hcond.mpr h), if_neg h]
      simp
  unfold tryElement
  dsimp only
  rw [List.take_left, hlast, htext, CStr.ofBytes_append_zero]
  by_cases htested : Tested name dir
  · have hspace : dir.length + (1 + name.bytes.length) < pathMax := htested
    have hfits := fits_of_tested htested
    rw [Fits] at hfits
    rw [if_pos hspace, if_neg (by rw [List.length_append, List.length_singleton]; omega)]
    by_cases hx : o.executable (program name dir) = true
    · have hfound : Tested name dir ∧ o.executable (program name dir) = true := ⟨htested, hx⟩
      rw [if_pos hfound]
      exact if_pos hx
    · have hnot : ¬ (Tested name dir ∧ o.executable (program name dir) = true) := hx ∘ And.right
      rw [if_neg hnot]
      exact if_neg hx
  · have hnot : ¬ (Tested name dir ∧ o.executable (program name dir) = true) := htested ∘ And.left
    rw [if_neg hnot]
    exact if_neg htested

theorem elementEnd_dir {dir rest : List UInt8} {c : UInt8} (hne : dir ≠ [])
    (hdir : ∀ b ∈ dir, b ≠ 0 ∧ b ≠ colon) (hc : c = 0 ∨ c = colon) :
    elementEnd (dir ++ c :: rest) 1 = some dir.length := by
  obtain ⟨b, w, rfl⟩ := List.exists_cons_of_ne_nil hne
  exact @elementEnd_eq [b] w rest c (fun d hd => hdir d (List.mem_cons_of_mem b hd)) hc

/-- **The turn of the search** for a directory: it is the result, or the search ends with the zero
behind it, or it goes on behind the colon. -/
theorem searchProg_dir {path dir rest : List UInt8} {c : UInt8}
    (hpath : path.dropWhile isColon = dir ++ c :: rest) (hne : dir ≠ [])
    (hdir : ∀ b ∈ dir, b ≠ 0 ∧ b ≠ colon) (hc : c = 0 ∨ c = colon) : searchProg o name path =
      if Tested name dir ∧ o.executable (program name dir) then some (some (program name dir))
      else if c = 0 then some none else searchProg o name rest := by
  rw [searchProg, hpath, elementEnd_dir hne hdir hc]
  dsimp only
  rw [tryElement_eq hne]
  by_cases hfound : Tested name dir ∧ o.executable (program name dir) = true
  · rw [if_pos hfound, if_pos hfound]
  · rw [if_neg hfound, if_neg hfound]
    dsimp only
    rw [dif_pos (by simp), getElem?_behind]
    have hdrop : (dir ++ c :: rest).drop (dir.length + 1) = rest := by simp
    rw [hdrop]
    simp only [Option.some.injEq]

theorem dropWhile_zero (rest : List UInt8) :
    (rest ++ [0]).dropWhile isColon = rest.dropWhile isColon ++ [0] := by
  induction rest with
  | nil => rfl
  | cons c rest ih =>
    rw [List.cons_append, List.dropWhile_cons, List.dropWhile_cons]
    split
    · exact ih
    · rfl

theorem getLast?_dropWhile {rest : List UInt8} (hne : rest.dropWhile isColon ≠ []) :
    rest.getLast? = (rest.dropWhile isColon).getLast? := by
  conv_lhs => rw [← List.takeWhile_append_dropWhile (p := isColon) (l := rest)]
  exact List.getLast?_append_of_ne_nil _ hne

theorem not_dirLast_colons {rest : List UInt8} (h : rest.dropWhile isColon = []) :
    ¬ DirLast rest := by
  rintro ⟨hrest, hother⟩
  refine hother ?_
  rw [List.getLast?_eq_some_getLast hrest]
  simpa using List.dropWhile_eq_nil_iff.mp h _ (List.getLast_mem hrest)

theorem dirLast_of_dir {rest dir : List UInt8} (hrest : rest ≠ []) (hdir : dir ≠ [])
    (hname : ∀ b ∈ dir, b ≠ colon) (hlast : rest.getLast? = dir.getLast?) : DirLast rest := by
  rw [DirLast, hlast, List.getLast?_eq_some_getLast hdir]
  exact ⟨hrest, fun h => hname _ (List.getLast_mem hdir) (Option.some.inj h)⟩

theorem dirLast_behind {rest dir tail : List UInt8} (hrest : rest ≠ [])
    (hlast : rest.getLast? = (dir ++ colon :: tail).getLast?) :
    DirLast rest ↔ DirLast tail := by
  rw [DirLast, DirLast, and_iff_right hrest, hlast,
    List.getLast?_append_of_ne_nil _ (List.cons_ne_nil _ _)]
  cases tail with
  | nil => simp
  | cons d tail => simp

/-- **The search** stops at the first directory that passes its test. It goes on behind the zero, if
there is none and the path does not end with a directory. -/
theorem searchProg_spec {rest : List UInt8} (hnul : (0 : UInt8) ∉ rest) :
    searchProg o name (rest ++ [0]) =
      match firstDir o name (fun dir => decide (Tested name dir)) rest with
      | some dir => some (some (program name dir))
      | none => if DirLast rest then some none else none := by
  induction hn : rest.length using Nat.strong_induction_on generalizing rest with
  | _ n ih =>
    by_cases hne : rest.dropWhile isColon = []
    · rw [firstDir, ← Layered.words_dropWhile, hne, Layered.words_nil, searchProg, dropWhile_zero,
        hne, List.nil_append, elementEnd_empty, if_neg (not_dirLast_colons hne)]
      rfl
    · obtain ⟨dir, behind, hpart, ⟨hdir, hfree⟩, hcolons, hwords⟩ := Layered.words_split hne
      have hname : ∀ b ∈ dir, b ≠ colon := fun b hb => by simpa using hfree b hb
      have hcolon : ∀ b ∈ behind.head?, b = colon := fun b hb => by simpa using hcolons b hb
      have hlast : rest.getLast? = (dir ++ behind).getLast? := by rw [getLast?_dropWhile hne, hpart]
      have hrest : rest ≠ [] := by
        rintro rfl
        exact hne rfl
      have hpath : (rest ++ [0]).dropWhile isColon = dir ++ (behind ++ [0]) := by
        rw [dropWhile_zero, hpart, List.append_assoc]
      have hbytes : ∀ b ∈ dir, b ≠ 0 ∧ b ≠ colon := by
        refine fun b hb => ⟨?_, hname b hb⟩
        rintro rfl
        exact hnul ((List.dropWhile_sublist _).subset (hpart ▸ List.mem_append_left _ hb))
      have hfirst : firstDir o name (fun dir => decide (Tested name dir)) rest =
          if Tested name dir ∧ o.executable (program name dir) then some dir
          else firstDir o name (fun dir => decide (Tested name dir)) behind.tail := by
        rw [firstDir, hwords, List.find?_cons]
        split <;> simp_all [firstDir]
      rw [hfirst]
      cases behind with
      | nil =>
        rw [List.append_nil] at hlast
        have hend := dirLast_of_dir hrest hdir hname hlast
        rw [searchProg_dir hpath hdir hbytes (.inl rfl)]
        by_cases hfound : Tested name dir ∧ o.executable (program name dir) = true
        · rw [if_pos hfound, if_pos hfound]
        · rw [if_neg hfound, if_neg hfound, if_pos rfl, if_pos hend]
          rfl
      | cons c tail =>
        obtain rfl : c = colon := hcolon c rfl
        have hmem : ∀ b ∈ tail, b ∈ rest := fun b hb => (List.dropWhile_sublist isColon).subset
          (hpart ▸ List.mem_append_right _ (List.mem_cons_of_mem _ hb))
        have hlt : tail.length < n := by
          have hle := (List.dropWhile_sublist (l := rest) isColon).length_le
          rw [hpart, List.length_append, List.length_cons] at hle
          omega
        have hend := dirLast_behind hrest hlast
        rw [List.cons_append] at hpath
        rw [searchProg_dir hpath hdir hbytes (.inr rfl)]
        by_cases hfound : Tested name dir ∧ o.executable (program name dir) = true
        · rw [if_pos hfound, if_pos hfound]
        · rw [if_neg hfound, if_neg hfound, if_neg (by decide), List.tail_cons,
            ih tail.length hlt (fun h => hnul (hmem 0 h)) rfl]
          simp only [hend]

/-! ## When the right program is found -/

/-- The first directory that passes the test of the source. -/
def testedDir (o : Surroundings) (name : CStr) (path : List UInt8) : Option (List UInt8) :=
  firstDir o name (fun dir => decide (Tested name dir)) path

/-- The directory of the program passes the test of the source; or there is none, and the path ends
with a directory. A directory that ends with a slash may fail the test although its program just
fits: then the same directory without the slash is taken, or the default is the same path. -/
inductive Found (o : Surroundings) (name : CStr) (dflt : Option CStr) (path : List UInt8) : Prop
  | tested (dir : List UInt8)
      (first : firstDir o name (fun dir => decide (Fits name dir)) path = some dir)
      (test : Tested name dir)
  | absent (first : firstDir o name (fun dir => decide (Fits name dir)) path = none)
      (last : DirLast path)
  | twin (dir : List UInt8) (noSlash : dir.getLast? ≠ some slash)
      (first : firstDir o name (fun dir => decide (Fits name dir)) path = some (dir ++ [slash]))
      (next : testedDir o name path = some dir)
  | default (dir : List UInt8)
      (first : firstDir o name (fun dir => decide (Fits name dir)) path = some dir)
      (next : testedDir o name path = none) (last : DirLast path)
      (same : dflt.getD name = program name dir)

theorem testedDir_of_first {path dir : List UInt8}
    (h : firstDir o name (fun dir => decide (Fits name dir)) path = some dir)
    (htest : Tested name dir) : testedDir o name path = some dir := by
  rw [firstDir, List.find?_eq_some_iff_append] at h
  obtain ⟨hdir, before, after, hwords, hbefore⟩ := h
  rw [testedDir, firstDir, List.find?_eq_some_iff_append]
  refine ⟨?_, before, after, hwords, fun d hd => ?_⟩
  · simp only [Bool.and_eq_true] at hdir ⊢
    exact ⟨decide_eq_true htest, hdir.2⟩
  · have hnot := hbefore d hd
    simp only [Bool.not_eq_true', Bool.and_eq_false_iff, decide_eq_false_iff_not] at hnot ⊢
    exact hnot.imp_left fun hfits htested => hfits (fits_of_tested htested)

theorem testedDir_of_none {path : List UInt8}
    (h : firstDir o name (fun dir => decide (Fits name dir)) path = none) :
    testedDir o name path = none := by
  rw [firstDir, List.find?_eq_none] at h
  rw [testedDir, firstDir, List.find?_eq_none]
  intro dir hdir htested
  have hnot := h dir hdir
  simp only [Bool.and_eq_true, decide_eq_true_eq] at htested hnot
  exact hnot ⟨fits_of_tested htested.1, htested.2⟩

theorem mem_of_firstDir {looked : List UInt8 → Bool} {path dir : List UInt8}
    (h : firstDir o name looked path = some dir) :
    dir ∈ words isColon path ∧ looked dir = true := by
  have htest := List.find?_some h
  rw [Bool.and_eq_true] at htest
  exact ⟨List.mem_of_find?_eq_some h, htest.1⟩

theorem program_twin {dir : List UInt8} (h : dir.getLast? ≠ some slash) :
    program name (dir ++ [slash]) = program name dir := by
  rw [program, program, joinedText, joinedText, if_pos List.getLast?_concat, if_neg h,
    List.append_nil]

theorem nulFree_joinedText {path dir : List UInt8} (hnul : (0 : UInt8) ∉ path)
    (h : dir ∈ words isColon path) : (0 : UInt8) ∉ joinedText name dir := by
  obtain ⟨-, pre, post, rfl, -, -⟩ := Layered.mem_words_iff.mp h
  have hslash : (0 : UInt8) ≠ slash := by decide
  simp only [List.mem_append, not_or] at hnul
  rw [joinedText, List.mem_append, List.mem_append, not_or, not_or]
  refine ⟨⟨hnul.1.2, ?_⟩, name.nulFree⟩
  split
  · exact List.not_mem_nil
  · simpa using hslash

/-- A directory whose program fits and that fails the test ends with a slash. The directory that
gives the same path is the one without it. -/
theorem eq_of_program {path dir dir' : List UInt8} (hnul : (0 : UInt8) ∉ path)
    (hmem : dir ∈ words isColon path) (hmem' : dir' ∈ words isColon path) (hfits : Fits name dir)
    (htest : ¬ Tested name dir) (htest' : Tested name dir')
    (h : program name dir' = program name dir) :
    dir = dir' ++ [slash] ∧ dir'.getLast? ≠ some slash := by
  have htext := congrArg CStr.bytes h
  rw [program, program, CStr.bytes_ofBytes (nulFree_joinedText hnul hmem),
    CStr.bytes_ofBytes (nulFree_joinedText hnul hmem')] at htext
  by_cases hslash : dir.getLast? = some slash
  · rw [joinedText, joinedText, if_pos hslash, List.append_nil] at htext
    have hdir := List.append_cancel_right htext
    by_cases hslash' : dir'.getLast? = some slash
    · rw [if_pos hslash', List.append_nil] at hdir
      exact absurd (hdir ▸ htest') htest
    · rw [if_neg hslash'] at hdir
      exact ⟨hdir.symm, hslash'⟩
  · rw [Fits, joinedText, if_neg hslash] at hfits
    simp only [List.length_append, List.length_singleton] at hfits
    exact absurd (show Tested name dir by rw [Tested]; omega) htest

/-- What is taken of a path. -/
def taken (o : Surroundings) (name : CStr) (dflt : Option CStr) (path : List UInt8) : CStr :=
  (((testedDir o name path).map (program name)).or dflt).getD name

theorem whichprog_eq (path : CStr) (evar dflt : Option CStr) (hvar : evar.bind o.getenv = none)
    (hpath : o.securePath = some path) : whichprog o name evar dflt =
      if testedDir o name path.bytes = none ∧ ¬ DirLast path.bytes then none
      else some (taken o name dflt path.bytes) := by
  rw [whichprog, hvar, hpath]
  dsimp only
  rw [searchProg_spec path.nulFree, ← testedDir, taken]
  cases testedDir o name path.bytes with
  | some dir => rfl
  | none =>
    by_cases hlast : DirLast path.bytes
    · simp [hlast]
    · simp [hlast]

theorem found_of_taken {dflt : Option CStr} {path dir : List UInt8} (hnul : (0 : UInt8) ∉ path)
    (hfirst : firstDir o name (fun dir => decide (Fits name dir)) path = some dir)
    (hlast : testedDir o name path = none → DirLast path)
    (h : taken o name dflt path = program name dir) : Found o name dflt path := by
  by_cases htest : Tested name dir
  · exact .tested dir hfirst htest
  · rw [taken] at h
    cases hnext : testedDir o name path with
    | none =>
      rw [hnext] at h
      exact .default dir hfirst hnext (hlast hnext) h
    | some dir' =>
      rw [hnext] at h
      obtain ⟨hmem, hfits⟩ := mem_of_firstDir hfirst
      obtain ⟨hmem', htest'⟩ := mem_of_firstDir hnext
      obtain ⟨rfl, hslash⟩ := eq_of_program hnul hmem hmem' (of_decide_eq_true hfits) htest
        (of_decide_eq_true htest') h
      exact .twin dir' hslash hfirst hnext

theorem taken_of_found {dflt : Option CStr} {path : List UInt8} (h : Found o name dflt path) :
    (testedDir o name path = none → DirLast path) ∧ taken o name dflt path =
      (((firstDir o name (fun dir => decide (Fits name dir)) path).map (program name)).or
        dflt).getD name := by
  rw [taken]
  cases h with
  | tested dir first test =>
    rw [testedDir_of_first first test, first]
    exact ⟨fun hnone => (by cases hnone), rfl⟩
  | absent first last =>
    rw [testedDir_of_none first, first]
    exact ⟨fun _ => last, rfl⟩
  | twin dir noSlash first next =>
    rw [next, first]
    exact ⟨fun hnone => (by cases hnone), (program_twin noSlash).symm⟩
  | default dir first next last same =>
    rw [next, first]
    exact ⟨fun _ => last, same⟩

/-- **The lookup of a program** gives the right one, if and only if it does not depend on `PATH`,
or its search stays in `PATH` and the directory of the program passes its test. -/
theorem looksUp_iff (o : Surroundings) (name : CStr) (evar dflt : Option CStr) :
    LooksUp o name evar dflt ↔ evar.bind o.getenv ≠ none ∨
      ∀ path, o.securePath = some path → Found o name dflt path.bytes := by
  rw [LooksUp]
  cases hvar : evar.bind o.getenv with
  | some result =>
    rw [whichprog, hvar]
    exact iff_of_true rfl (.inl (Option.some_ne_none result))
  | none =>
    rw [or_iff_right (not_not_intro rfl), Option.none_or, programDir]
    cases hpath : o.securePath with
    | none =>
      rw [whichprog, hvar, hpath]
      exact iff_of_true rfl fun path h => (by cases h)
    | some path =>
      rw [whichprog_eq path evar dflt hvar hpath, Option.bind_some]
      constructor
      · rintro h path' hpath'
        obtain rfl := Option.some.inj hpath'
        by_cases hbehind : testedDir o name path.bytes = none ∧ ¬ DirLast path.bytes
        · rw [if_pos hbehind] at h
          cases h
        · have hlast (hnext : testedDir o name path.bytes = none) : DirLast path.bytes := by
            by_contra hnot
            exact hbehind ⟨hnext, hnot⟩
          rw [if_neg hbehind] at h
          cases hfirst : firstDir o name (fun dir => decide (Fits name dir)) path.bytes with
          | none => exact .absent hfirst (hlast (testedDir_of_none hfirst))
          | some dir =>
            rw [hfirst] at h
            exact found_of_taken path.nulFree hfirst hlast (Option.some.inj h)
      · intro h
        obtain ⟨hlast, htaken⟩ := taken_of_found (h path rfl)
        rw [if_neg fun hnot => hnot.2 (hlast hnot.1), htaken]

/-- No variable, and a path with a colon at its end. -/
def colonLast : Surroundings where
  getenv _ := none
  securePath := some (.lit "/usr/bin:")
  executable _ := false

/-- The byte behind the zero is read. -/
theorem colon_last : ¬ LooksUp colonLast (.lit "bwrap") none (some (.lit "/usr/bin/bwrap")) := by
  have hnone : testedDir colonLast (.lit "bwrap") (CStr.lit "/usr/bin:").bytes = none := by
    simp [testedDir, firstDir, colonLast]
  rw [LooksUp, whichprog_eq (.lit "/usr/bin:") _ _ rfl rfl, if_pos ⟨hnone, by decide⟩]
  exact fun h => (by cases h)

end WhichProg
end Conf
end RedPak
