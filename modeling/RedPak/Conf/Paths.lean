import RedPak.Conf.Expand
import RedPak.Conf.Mix
import RedPak.Layered.Buffer
import RedPak.Layered.Fields

/-!
# Conf.Paths

The merge of path like values (`mixPaths`). Every setting is appended to one buffer by
`RedConfAppendExpandedPath`, which expands it behind the paths that are there, and then moves those
of its elements that are new to their place.

The loops keep the indices of the source. `dedup_spec` says what they leave in the buffer:

* the part before `idxwr` holds the elements found so far, each with a colon behind it,
* `idxwr` never passes `idxrd`, so that what is still to be read is not overwritten.

Then `mixPaths_eq` follows for the settings of all nodes, one after the other.
-/

namespace RedPak
namespace Conf

open Layered (Buffer fields joined terminated addNew IsField)
open Layered.Buffer (store slice scan writeAll)

/-! ## The loops of RedConfAppendExpandedPath -/

abbrev isColon (c : UInt8) : Bool := c == colon
abbrev isName (c : UInt8) : Bool := c != colon

/-- The number of bytes that an element found before has in common with the one that is read. -/
def matchLength (outputS : Buffer UInt8) (idxse idxwr idxrd idxend idx : Nat) : Nat :=
  if idxse + idx < idxwr ∧ outputS (idxse + idx) ≠ colon ∧ idxrd + idx < idxend ∧
      outputS (idxse + idx) = outputS (idxrd + idx) then
    matchLength outputS idxse idxwr idxrd idxend (idx + 1)
  else idx
termination_by idxwr - (idxse + idx)
decreasing_by omega

theorem lt_scan_name {outputS : Buffer UInt8} {idxse idxwr idx : Nat} (hse : idxse < idxwr)
    (hname : isName (outputS idxse) = true) : idxse < scan isName outputS idxwr (idxse + idx) := by
  cases idx with
  | zero =>
    rw [scan, if_pos ⟨hse, hname⟩]
    have := Layered.Buffer.le_scan isName outputS idxwr (idxse + 0 + 1)
    omega
  | succ idx =>
    have := Layered.Buffer.le_scan isName outputS idxwr (idxse + (idx + 1))
    omega

/-- search any previously existing path: where it starts, or else `idxwr` -/
def searchPath (outputS : Buffer UInt8) (idxwr idxrd idxend idxse : Nat) : Nat :=
  if idxse < idxwr then
    let start := scan isColon outputS idxwr idxse
    if _h : start < idxwr then
      let idx := matchLength outputS start idxwr idxrd idxend 0
      if start + idx < idxwr ∧ outputS (start + idx) = colon ∧
          (idxrd + idx = idxend ∨ outputS (idxrd + idx) = colon) then start
      else searchPath outputS idxwr idxrd idxend (scan isName outputS idxwr (start + idx))
    else start
  else idxse
termination_by idxwr - idxse
decreasing_by
  have hstop := Layered.Buffer.scan_stops _h
  have hname : isName (outputS (scan isColon outputS idxwr idxse)) = true := by
    simpa using hstop
  have hlt := fun idx : Nat => @lt_scan_name outputS _ idxwr idx
    (show scan isColon outputS idxwr idxse < idxwr from _h) hname
  have hle := Layered.Buffer.le_scan isColon outputS idxwr idxse
  exact Nat.sub_lt_sub_left (Nat.lt_of_le_of_lt hle _h) (Nat.lt_of_le_of_lt hle (hlt _))

/-- not found, copy: the buffer, `idxwr` and `idxrd` -/
def copyElement (outputS : Buffer UInt8) (idxwr idxrd idxend : Nat) : Buffer UInt8 × Nat × Nat :=
  if idxrd < idxend then
    if outputS idxrd ≠ colon then
      copyElement (outputS.store idxwr (outputS idxrd)) (idxwr + 1) (idxrd + 1) idxend
    else (outputS.store idxwr (outputS idxrd), idxwr + 1, idxrd + 1)
  else (outputS, idxwr, idxrd)
termination_by idxend - idxrd
decreasing_by omega

/-- found so skip: `idxrd` -/
def skipElement (outputS : Buffer UInt8) (idxrd idxend : Nat) : Nat :=
  if idxrd < idxend then
    if outputS idxrd ≠ colon then skipElement outputS (idxrd + 1) idxend else idxrd + 1
  else idxrd
termination_by idxend - idxrd
decreasing_by omega

theorem lt_copyElement (outputS : Buffer UInt8) (idxwr idxrd idxend : Nat) :
    idxrd ≤ (copyElement outputS idxwr idxrd idxend).2.2 ∧
      (idxrd < idxend → idxrd < (copyElement outputS idxwr idxrd idxend).2.2) := by
  fun_induction copyElement outputS idxwr idxrd idxend with
  | case1 outputS idxwr idxrd hlt hname ih => exact ⟨by omega, fun _ => by omega⟩
  | case2 outputS idxwr idxrd hlt hname =>
    exact ⟨Nat.le_succ _, fun _ => Nat.lt_succ_self _⟩
  | case3 outputS idxwr idxrd hlt => exact ⟨Nat.le_refl _, fun h => absurd h hlt⟩

theorem lt_skipElement (outputS : Buffer UInt8) (idxrd idxend : Nat) :
    idxrd ≤ skipElement outputS idxrd idxend ∧
      (idxrd < idxend → idxrd < skipElement outputS idxrd idxend) := by
  fun_induction skipElement outputS idxrd idxend with
  | case1 idxrd hlt hname ih => exact ⟨by omega, fun _ => by omega⟩
  | case2 idxrd hlt hname => exact ⟨by omega, fun _ => by omega⟩
  | case3 idxrd hlt => exact ⟨Nat.le_refl _, fun h => absurd h hlt⟩

/-- `while (idxrd < idxend)`: the buffer and `idxwr` -/
def dedupPaths (outputS : Buffer UInt8) (idxwr idxrd idxend : Nat) : Buffer UInt8 × Nat :=
  if _h : idxrd < idxend then
    let start := scan isColon outputS idxend idxrd
    let idxse := searchPath outputS idxwr start idxend 0
    if idxse = idxwr then
      let copied := copyElement outputS idxwr start idxend
      dedupPaths copied.1 copied.2.1 copied.2.2 idxend
    else dedupPaths outputS idxwr (skipElement outputS start idxend) idxend
  else (outputS, idxwr)
termination_by idxend - idxrd
decreasing_by
  · have hle := Layered.Buffer.scan_spec isColon outputS (Nat.le_of_lt _h)
    have hlt := lt_copyElement outputS idxwr (scan isColon outputS idxend idxrd) idxend
    exact Nat.sub_lt_sub_left _h (by omega)
  · have hle := Layered.Buffer.scan_spec isColon outputS (Nat.le_of_lt _h)
    have hlt := lt_skipElement outputS (scan isColon outputS idxend idxrd) idxend
    exact Nat.sub_lt_sub_left _h (by omega)

/-- remove tailing colon -/
def stripColons (outputS : Buffer UInt8) : Nat → Nat
  | 0 => 0
  | idxwr + 1 => if outputS idxwr = colon then stripColons outputS idxwr else idxwr + 1

/-! ## What the loops leave -/

/-- The length of the longest name that starts both lists. -/
def commonName : List UInt8 → List UInt8 → Nat
  | a :: as, b :: bs => if a ≠ colon ∧ a = b then commonName as bs + 1 else 0
  | _, _ => 0

theorem commonName_le (as : List UInt8) : ∀ bs,
    commonName as bs ≤ as.length ∧ commonName as bs ≤ bs.length := by
  induction as with
  | nil => intro bs; exact ⟨Nat.zero_le _, Nat.zero_le _⟩
  | cons a as ih =>
    intro bs
    cases bs with
    | nil => exact ⟨Nat.zero_le _, Nat.zero_le _⟩
    | cons b bs =>
      have := ih bs
      rw [commonName, List.length_cons, List.length_cons]
      split <;> omega

theorem matchLength_eq (outputS : Buffer UInt8) (idxse idxwr idxrd idxend idx : Nat) :
    matchLength outputS idxse idxwr idxrd idxend idx = idx +
      commonName (slice outputS (idxse + idx) idxwr) (slice outputS (idxrd + idx) idxend) := by
  fun_induction matchLength outputS idxse idxwr idxrd idxend idx with
  | case1 idx hcond ih =>
    obtain ⟨hse, hname, hrd, heq⟩ := hcond
    rw [ih, Layered.Buffer.slice_cons hse, Layered.Buffer.slice_cons hrd, commonName,
      if_pos ⟨hname, heq⟩]
    simp only [← Nat.add_assoc]
    omega
  | case2 idx hcond =>
    by_cases hse : idxse + idx < idxwr
    · by_cases hrd : idxrd + idx < idxend
      · rw [Layered.Buffer.slice_cons hse, Layered.Buffer.slice_cons hrd, commonName, if_neg]
        · rfl
        · exact fun ⟨hname, heq⟩ => hcond ⟨hse, hname, hrd, heq⟩
      · rw [Layered.Buffer.slice_eq_nil (Nat.le_of_not_lt hrd)]
        cases slice outputS (idxse + idx) idxwr <;> rfl
    · rw [Layered.Buffer.slice_eq_nil (Nat.le_of_not_lt hse)]
      rfl

/-- The test after the comparison finds the name that is read, and no other. -/
theorem found_iff (x : List UInt8) : ∀ y : List UInt8,
    ((x.drop (commonName x y)).head? = some colon ∧
      (y.drop (commonName x y) = [] ∨ (y.drop (commonName x y)).head? = some colon)) ↔
    colon ∈ x ∧ x.takeWhile isName = y.takeWhile isName := by
  induction x with
  | nil => intro y; simp [commonName]
  | cons a x ih =>
    intro y
    cases y with
    | nil =>
      by_cases ha : a = colon
      · subst ha; simp [commonName]
      · have hne : colon ≠ a := fun e => ha e.symm
        simp [commonName, ha]
    | cons b y =>
      by_cases hab : a ≠ colon ∧ a = b
      · obtain ⟨ha, rfl⟩ := hab
        have hne : colon ≠ a := fun e => ha e.symm
        simpa [commonName, ha, hne, List.takeWhile_cons] using ih y
      · by_cases ha : a = colon
        · subst ha
          by_cases hb : b = colon
          · subst hb; simp [commonName]
          · simp [commonName, hb]
        · have hne : ¬ a = b := fun e => hab ⟨ha, e⟩
          by_cases hb : b = colon
          · subst hb; simp [commonName, ha]
          · simp [commonName, ha, hb, hne]

theorem dropWhile_drop_commonName (x : List UInt8) : ∀ y : List UInt8,
    (x.drop (commonName x y)).dropWhile isName = x.dropWhile isName := by
  induction x with
  | nil => intro y; rfl
  | cons a x ih =>
    intro y
    cases y with
    | nil => rfl
    | cons b y =>
      by_cases hab : a ≠ colon ∧ a = b
      · have hname : isName a = true := by simpa using hab.1
        rw [commonName, if_pos hab, List.drop_succ_cons, ih y,
          List.dropWhile_cons_of_pos hname]
      · rw [commonName, if_neg hab, List.drop_zero]

/-- Nothing, or a text that ends with a colon. -/
def Closed (x : List UInt8) : Prop := x = [] ∨ x.getLast? = some colon

theorem Closed.dropWhile {x : List UInt8} (h : Closed x) (p : UInt8 → Bool) :
    Closed (x.dropWhile p) := by
  rcases eq_or_ne (x.dropWhile p) [] with hnil | hne
  · exact .inl hnil
  · rcases h with rfl | h
    · exact absurd rfl hne
    · refine .inr ?_
      rw [← List.takeWhile_append_dropWhile (p := p) (l := x),
        List.getLast?_append_of_ne_nil _ hne] at h
      exact h

theorem Closed.colon_mem {x : List UInt8} (h : Closed x) (hne : x ≠ []) : colon ∈ x := by
  rcases h with rfl | h
  · exact absurd rfl hne
  · exact List.mem_of_getLast? h

theorem closed_terminated (fs : List (List UInt8)) : Closed (terminated colon fs) := by
  rcases List.eq_nil_or_concat fs with rfl | ⟨gs, f, rfl⟩
  · exact .inl rfl
  · exact .inr (by simp [Layered.terminated_concat])

theorem slice_eq_nil_iff {outputS : Buffer UInt8} {i j : Nat} :
    slice outputS i j = [] ↔ j ≤ i := by
  rw [← List.length_eq_zero_iff, Layered.Buffer.length_slice]
  omega

/-- The test of the search at a path that starts at `start`. -/
theorem searchPath_test (outputS : Buffer UInt8) {start idxwr idxrd idxend : Nat}
    (hrd : idxrd ≤ idxend) :
    (start + matchLength outputS start idxwr idxrd idxend 0 < idxwr ∧
      outputS (start + matchLength outputS start idxwr idxrd idxend 0) = colon ∧
      (idxrd + matchLength outputS start idxwr idxrd idxend 0 = idxend ∨
        outputS (idxrd + matchLength outputS start idxwr idxrd idxend 0) = colon)) ↔
    colon ∈ slice outputS start idxwr ∧
      (slice outputS start idxwr).takeWhile isName =
        (slice outputS idxrd idxend).takeWhile isName := by
  have hidx := matchLength_eq outputS start idxwr idxrd idxend 0
  rw [Nat.zero_add, Nat.add_zero, Nat.add_zero] at hidx
  obtain ⟨-, hle⟩ := commonName_le (slice outputS start idxwr) (slice outputS idxrd idxend)
  rw [Layered.Buffer.length_slice] at hle
  rw [hidx, ← found_iff, Layered.Buffer.drop_slice, Layered.Buffer.drop_slice,
    Layered.Buffer.head?_slice_eq_some, Layered.Buffer.head?_slice_eq_some, slice_eq_nil_iff]
  constructor
  · rintro ⟨hwr, hcol, hend⟩
    refine ⟨⟨hwr, hcol⟩, ?_⟩
    rcases hend with hend | hend
    · exact .inl (by omega)
    · by_cases hlt : idxrd + commonName (slice outputS start idxwr) (slice outputS idxrd idxend) <
          idxend
      · exact .inr ⟨hlt, hend⟩
      · exact .inl (by omega)
  · rintro ⟨⟨hwr, hcol⟩, hend⟩
    refine ⟨hwr, hcol, ?_⟩
    rcases hend with hend | hend
    · exact .inl (by omega)
    · exact .inr hend.2

theorem isField_scan (outputS : Buffer UInt8) {idxse idxwr : Nat}
    (hstart : scan isColon outputS idxwr idxse < idxwr) :
    IsField colon
      ((slice outputS (scan isColon outputS idxwr idxse) idxwr).takeWhile isName) := by
  have hname : isName (outputS (scan isColon outputS idxwr idxse)) = true := by
    simpa using Layered.Buffer.scan_stops hstart
  refine Layered.isField_takeWhile ?_
  rw [Layered.Buffer.slice_cons hstart, List.takeWhile_cons_of_pos hname]
  exact List.cons_ne_nil _ _

/-- Behind the colons that are passed first comes a path. -/
theorem fields_scan (outputS : Buffer UInt8) {idxse idxwr : Nat} (hse : idxse ≤ idxwr)
    (hstart : scan isColon outputS idxwr idxse < idxwr) :
    fields colon (slice outputS idxse idxwr) =
      (slice outputS (scan isColon outputS idxwr idxse) idxwr).takeWhile isName ::
        fields colon
          ((slice outputS (scan isColon outputS idxwr idxse) idxwr).dropWhile isName) := by
  obtain ⟨-, -, -, hdrop⟩ := Layered.Buffer.scan_spec isColon outputS hse
  rw [← Layered.fields_dropWhile_sep, ← hdrop]
  exact Layered.fields_eq_cons (isField_scan outputS hstart).ne_nil

/-- The search finds the path that is read among those found before. -/
theorem searchPath_spec (outputS : Buffer UInt8) {idxwr idxrd idxend idxse : Nat}
    (hse : idxse ≤ idxwr) (hrd : idxrd ≤ idxend)
    (hclosed : Closed (slice outputS idxse idxwr)) :
    searchPath outputS idxwr idxrd idxend idxse ≤ idxwr ∧
      (searchPath outputS idxwr idxrd idxend idxse = idxwr ↔
        (slice outputS idxrd idxend).takeWhile isName ∉
          fields colon (slice outputS idxse idxwr)) := by
  fun_induction searchPath outputS idxwr idxrd idxend idxse with
  | case1 idxse hlt start hstart idx hfound =>
    obtain ⟨-, -, -, hdrop⟩ := Layered.Buffer.scan_spec isColon outputS hse
    obtain ⟨-, hname⟩ := (searchPath_test outputS hrd).mp hfound
    have hfields := fields_scan outputS hse hstart
    refine ⟨Nat.le_of_lt hstart, fun heq => absurd heq (Nat.ne_of_lt hstart), fun hnot => ?_⟩
    rw [hfields, hname] at hnot
    simp at hnot
  | case2 idxse hlt start hstart idx hfound ih =>
    obtain ⟨-, hle, -, hdrop⟩ := Layered.Buffer.scan_spec isColon outputS hse
    have hclosed' : Closed (slice outputS start idxwr) := hdrop ▸ hclosed.dropWhile isColon
    have hcol : colon ∈ slice outputS start idxwr :=
      hclosed'.colon_mem fun hnil => by rw [slice_eq_nil_iff] at hnil; omega
    have hne : (slice outputS start idxwr).takeWhile isName ≠
        (slice outputS idxrd idxend).takeWhile isName :=
      fun heq => hfound ((searchPath_test outputS hrd).mpr ⟨hcol, heq⟩)
    have hidx : idx = commonName (slice outputS start idxwr) (slice outputS idxrd idxend) := by
      simpa using matchLength_eq outputS start idxwr idxrd idxend 0
    have hnext : start + idx ≤ idxwr := by
      have := (commonName_le (slice outputS start idxwr) (slice outputS idxrd idxend)).1
      rw [Layered.Buffer.length_slice] at this
      omega
    obtain ⟨-, hle', -, hdrop'⟩ := Layered.Buffer.scan_spec isName outputS hnext
    have hrest : slice outputS (scan isName outputS idxwr (start + idx)) idxwr =
        (slice outputS start idxwr).dropWhile isName := by
      rw [hdrop', ← Layered.Buffer.drop_slice, hidx, dropWhile_drop_commonName]
    obtain ⟨hle'', hiff⟩ := ih hle' (hrest ▸ hclosed'.dropWhile isName)
    refine ⟨hle'', hiff.trans ?_⟩
    rw [hrest, fields_scan outputS hse hstart, List.mem_cons, not_or]
    exact ⟨fun h => ⟨fun heq => hne heq.symm, h⟩, fun h => h.2⟩
  | case3 idxse hlt start hstart =>
    obtain ⟨-, hle, -, hdrop⟩ := Layered.Buffer.scan_spec isColon outputS hse
    have heq : start = idxwr := by omega
    have hnil : (slice outputS idxse idxwr).dropWhile isColon = [] := by
      rw [← hdrop]
      exact Layered.Buffer.slice_eq_nil (Nat.le_of_not_lt hstart)
    refine ⟨hle, fun _ => ?_, fun _ => heq⟩
    rw [← Layered.fields_dropWhile_sep, hnil]
    simp
  | case4 idxse hlt =>
    have heq : idxse = idxwr := by omega
    refine ⟨hse, fun _ => ?_, fun _ => heq⟩
    rw [Layered.Buffer.slice_eq_nil (Nat.le_of_not_lt hlt)]
    simp

theorem copyElement_spec (outputS : Buffer UInt8) {idxwr idxrd idxend : Nat}
    (hwr : idxwr ≤ idxrd) (hrd : idxrd ≤ idxend) :
    let copied := copyElement outputS idxwr idxrd idxend
    copied.2.1 ≤ copied.2.2 ∧ copied.2.2 ≤ idxend ∧
      slice copied.1 0 copied.2.1 = slice outputS 0 idxwr ++
        (slice outputS idxrd idxend).takeWhile isName ++
        ((slice outputS idxrd idxend).dropWhile isName).take 1 ∧
      slice copied.1 copied.2.2 idxend = ((slice outputS idxrd idxend).dropWhile isName).tail := by
  fun_induction copyElement outputS idxwr idxrd idxend with
  | case1 outputS idxwr idxrd hlt hname ih =>
    obtain ⟨h₁, h₂, hwritten, hleft⟩ := ih (by omega) hlt
    have hstored : slice (store outputS idxwr (outputS idxrd)) 0 (idxwr + 1) =
        slice outputS 0 idxwr ++ [outputS idxrd] := by
      rw [Layered.Buffer.slice_concat (Nat.zero_le _), Layered.Buffer.store_same,
        Layered.Buffer.slice_store (.inr (Nat.le_refl _))]
    have hread : slice (store outputS idxwr (outputS idxrd)) (idxrd + 1) idxend =
        slice outputS (idxrd + 1) idxend := Layered.Buffer.slice_store (.inl (by omega))
    have hpos : isName (outputS idxrd) = true := by simpa using hname
    rw [hstored, hread] at hwritten
    rw [hread] at hleft
    refine ⟨h₁, h₂, ?_, ?_⟩
    · rw [hwritten, Layered.Buffer.slice_cons hlt, List.takeWhile_cons_of_pos hpos,
        List.dropWhile_cons_of_pos hpos]
      simp
    · rw [hleft, Layered.Buffer.slice_cons hlt, List.dropWhile_cons_of_pos hpos]
  | case2 outputS idxwr idxrd hlt hname =>
    have hneg : ¬ isName (outputS idxrd) = true := by simpa using hname
    have hcol : outputS idxrd = colon := by simpa using hname
    have hread : slice (store outputS idxwr (outputS idxrd)) (idxrd + 1) idxend =
        slice outputS (idxrd + 1) idxend := Layered.Buffer.slice_store (.inl (by omega))
    have hstored : slice (store outputS idxwr (outputS idxrd)) 0 (idxwr + 1) =
        slice outputS 0 idxwr ++ [outputS idxrd] := by
      rw [Layered.Buffer.slice_concat (Nat.zero_le _), Layered.Buffer.store_same,
        Layered.Buffer.slice_store (.inr (Nat.le_refl _))]
    rw [Layered.Buffer.slice_cons hlt, List.takeWhile_cons_of_neg hneg,
      List.dropWhile_cons_of_neg hneg]
    exact ⟨Nat.succ_le_succ hwr, hlt, by simpa using hstored, hread⟩
  | case3 outputS idxwr idxrd hlt =>
    have hnil : slice outputS idxrd idxend = [] :=
      Layered.Buffer.slice_eq_nil (Nat.le_of_not_lt hlt)
    exact ⟨hwr, hrd, by simp [hnil], by simp [hnil]⟩

theorem skipElement_spec (outputS : Buffer UInt8) {idxrd idxend : Nat} (hrd : idxrd ≤ idxend) :
    skipElement outputS idxrd idxend ≤ idxend ∧
      slice outputS (skipElement outputS idxrd idxend) idxend =
        ((slice outputS idxrd idxend).dropWhile isName).tail := by
  fun_induction skipElement outputS idxrd idxend with
  | case1 idxrd hlt hname ih =>
    have hpos : isName (outputS idxrd) = true := by simpa using hname
    rw [Layered.Buffer.slice_cons hlt, List.dropWhile_cons_of_pos hpos]
    exact ih hlt
  | case2 idxrd hlt hname =>
    have hneg : ¬ isName (outputS idxrd) = true := by simpa using hname
    rw [Layered.Buffer.slice_cons hlt, List.dropWhile_cons_of_neg hneg]
    exact ⟨hlt, rfl⟩
  | case3 idxrd hlt =>
    rw [Layered.Buffer.slice_eq_nil (Nat.le_of_not_lt hlt)]
    exact ⟨hrd, rfl⟩

theorem fields_tail (x : List UInt8) :
    fields colon (x.dropWhile isName).tail = fields colon (x.dropWhile isName) := by
  cases hx : x.dropWhile isName with
  | nil => rfl
  | cons c rest =>
    have hc : c = colon := by
      have := List.head?_dropWhile_not isName x
      rw [hx] at this
      simpa using this
    rw [hc, Layered.fields_sep_cons]
    rfl

theorem searchPath_mem (outputS : Buffer UInt8) {idxwr idxrd idxend : Nat}
    (hrd : idxrd ≤ idxend) (hclosed : Closed (slice outputS 0 idxwr)) :
    searchPath outputS idxwr idxrd idxend 0 ≠ idxwr ↔
      (slice outputS idxrd idxend).takeWhile isName ∈ fields colon (slice outputS 0 idxwr) := by
  rw [ne_eq, (searchPath_spec outputS (Nat.zero_le idxwr) hrd hclosed).2, not_not]

theorem Closed.fields_concat {x f : List UInt8} (h : Closed x) (hf : IsField colon f) :
    fields colon (x ++ f) = fields colon x ++ [f] := by
  rcases h with rfl | h
  · rw [List.nil_append, hf.fields_eq, Layered.fields_nil, List.nil_append]
  · obtain ⟨y, rfl⟩ := List.getLast?_eq_some_iff.mp h
    rw [List.append_assoc, List.singleton_append, Layered.fields_append_sep,
      Layered.fields_append_sep_nil, hf.fields_eq]

/-- The elements stand behind what was there, each closed by a colon but perhaps the last. -/
def Follows (x : List UInt8) (new : List (List UInt8)) (y : List UInt8) : Prop :=
  y = x ++ terminated colon new ∨ y = x ++ joined colon new

theorem Follows.cons {x f y : List UInt8} {new : List (List UInt8)}
    (h : Follows (x ++ f ++ [colon]) new y) : Follows x (f :: new) y := by
  have hterm : terminated colon (f :: new) = f ++ [colon] ++ terminated colon new := rfl
  rcases h with rfl | rfl
  · left
    rw [hterm]
    simp
  · rcases eq_or_ne new [] with rfl | hne
    · left
      rw [hterm]
      simp [terminated]
    · right
      obtain ⟨g, gs, rfl⟩ := List.exists_cons_of_ne_nil hne
      simp [joined, List.intercalate_cons_cons]

/-- **The loop.** What is there, if it is closed by a colon, gets the elements that are new. -/
theorem dedupPaths_new (outputS : Buffer UInt8) {idxwr idxrd idxend : Nat}
    (hwr : idxwr ≤ idxrd) (hrd : idxrd ≤ idxend) (hclosed : Closed (slice outputS 0 idxwr)) :
    let left := dedupPaths outputS idxwr idxrd idxend
    ∃ new, (fields colon (slice outputS idxrd idxend)).foldl addNew
        (fields colon (slice outputS 0 idxwr)) = fields colon (slice outputS 0 idxwr) ++ new ∧
      Follows (slice outputS 0 idxwr) new (slice left.1 0 left.2) := by
  fun_induction dedupPaths outputS idxwr idxrd idxend with
  | case1 outputS idxwr idxrd hlt start idxse hnew copied =>
    rename_i ih
    obtain ⟨hle, hend, -, hdrop⟩ := Layered.Buffer.scan_spec isColon outputS hrd
    obtain ⟨h₁, h₂, hwritten, hleft⟩ := copyElement_spec outputS (Nat.le_trans hwr hle) hend
    have hnot := (searchPath_mem outputS hend hclosed).not.mp (not_not_intro hnew)
    rcases Nat.eq_or_lt_of_le hend with heq | hstart
    · -- only colons were left
      have hnil : slice outputS (scan isColon outputS idxend idxrd) idxend = [] :=
        Layered.Buffer.slice_eq_nil (Nat.le_of_eq heq.symm)
      have hnone : fields colon (slice outputS idxrd idxend) = [] := by
        rw [← Layered.fields_dropWhile_sep, ← hdrop, hnil]
        simp
      rw [hnil] at hwritten hleft
      have hdone : ¬ copied.2.2 < idxend := Nat.not_lt.mpr (slice_eq_nil_iff.mp hleft)
      rw [dedupPaths, dif_neg hdone, hnone]
      exact ⟨[], by simp, .inl (by simpa [terminated] using hwritten)⟩
    · have hfields := fields_scan outputS hrd hstart
      have hname := isField_scan outputS hstart
      rw [hfields, List.foldl_cons, Layered.addNew_of_notMem hnot]
      cases hrest : (slice outputS start idxend).dropWhile isName with
      | nil =>
        -- the last element has no colon behind it
        rw [hrest] at hwritten hleft
        have hdone : ¬ copied.2.2 < idxend := Nat.not_lt.mpr (slice_eq_nil_iff.mp hleft)
        rw [dedupPaths, dif_neg hdone, Layered.fields_nil, List.foldl_nil]
        exact ⟨_, rfl, .inr (by simpa using hwritten)⟩
      | cons c rest =>
        rw [hrest] at hwritten hleft
        have hc : c = colon := by
          have := List.head?_dropWhile_not isName (slice outputS start idxend)
          rw [hrest] at this
          simpa using this
        subst hc
        have hclosed' : Closed (slice copied.1 0 copied.2.1) := by
          rw [hwritten]
          exact .inr (by simp)
        obtain ⟨new, hfound, hfollows⟩ := ih h₁ h₂ hclosed'
        rw [hwritten, List.take_succ_cons, List.take_zero, Layered.fields_append_sep_nil,
          hclosed.fields_concat hname, hleft, List.tail_cons] at hfound
        rw [hwritten, List.take_succ_cons, List.take_zero] at hfollows
        rw [Layered.fields_sep_cons, hfound, List.append_assoc]
        exact ⟨_, rfl, hfollows.cons⟩
  | case2 outputS idxwr idxrd hlt start idxse hfound =>
    rename_i ih
    obtain ⟨hle, hend, -, hdrop⟩ := Layered.Buffer.scan_spec isColon outputS hrd
    obtain ⟨h₂, hleft⟩ := skipElement_spec outputS hend
    have hmem := (searchPath_mem outputS hend hclosed).mp hfound
    have hskip := lt_skipElement outputS (scan isColon outputS idxend idxrd) idxend
    have hstart : scan isColon outputS idxend idxrd < idxend := by
      refine Nat.lt_of_le_of_ne hend fun heq => (Layered.isField_of_mem_fields hmem).ne_nil ?_
      rw [Layered.Buffer.slice_eq_nil (Nat.le_of_eq heq.symm)]
      rfl
    rw [fields_scan outputS hrd hstart, List.foldl_cons, Layered.addNew_of_mem hmem]
    have hleft' := ih (Nat.le_trans (Nat.le_trans hwr hle) hskip.1) h₂ hclosed
    rw [hleft, fields_tail] at hleft'
    exact hleft'
  | case3 outputS idxwr idxrd hlt =>
    rw [Layered.Buffer.slice_eq_nil (Nat.le_of_not_lt hlt)]
    exact ⟨[], by simp, .inl (by simp [terminated])⟩

/-- The paths found so far, each closed by a colon, get those that are new. -/
theorem dedupPaths_spec (outputS : Buffer UInt8) {idxwr idxrd idxend : Nat}
    {fs : List (List UInt8)} (hwr : idxwr ≤ idxrd) (hrd : idxrd ≤ idxend)
    (hfs : ∀ f ∈ fs, IsField colon f) (hacc : slice outputS 0 idxwr = terminated colon fs) :
    let found := (fields colon (slice outputS idxrd idxend)).foldl addNew fs
    let left := dedupPaths outputS idxwr idxrd idxend
    slice left.1 0 left.2 = terminated colon found ∨
      slice left.1 0 left.2 = joined colon found := by
  obtain ⟨new, hfound, hfollows⟩ :=
    dedupPaths_new outputS hwr hrd (hacc ▸ closed_terminated fs)
  rw [hacc, Layered.fields_terminated hfs] at hfound
  rw [hacc] at hfollows
  dsimp only
  rw [hfound]
  rcases hfollows with h | h
  · left
    rw [h, Layered.terminated_append]
  · rcases eq_or_ne new [] with rfl | hne
    · left
      rw [h]
      simp
    · right
      rw [h, Layered.joined_append hne]

theorem stripColons_eq (outputS : Buffer UInt8) (n : Nat) :
    slice outputS 0 (stripColons outputS n) = (slice outputS 0 n).rdropWhile isColon := by
  induction n with
  | zero => rw [stripColons, Layered.Buffer.slice_self, List.rdropWhile_nil]
  | succ n ih =>
    rw [stripColons, Layered.Buffer.slice_concat (Nat.zero_le n)]
    by_cases hcol : outputS n = colon
    · rw [if_pos hcol, List.rdropWhile_concat_pos _ _ _ (by simpa using hcol), ih]
    · rw [if_neg hcol, List.rdropWhile_concat_neg _ _ _ (by simpa using hcol),
        Layered.Buffer.slice_concat (Nat.zero_le n)]

theorem stripColons_spec (outputS : Buffer UInt8) {fs : List (List UInt8)} {n : Nat}
    (hfs : ∀ f ∈ fs, IsField colon f)
    (h : slice outputS 0 n = terminated colon fs ∨ slice outputS 0 n = joined colon fs) :
    slice outputS 0 (stripColons outputS n) = joined colon fs := by
  rw [stripColons_eq]
  rcases h with h | h
  · rw [h]
    exact Layered.rdropWhile_terminated hfs
  · rw [h]
    exact Layered.rdropWhile_joined hfs

/-! ## RedConfAppendExpandedPath -/

/-- What appending a setting ends with: the buffer and `*idxOut`, an error, no end, or a store
outside of the buffer. -/
inductive Appended where
  | done (outputS : Buffer UInt8) (idxOut : Nat)
  | error
  | endless
  | fault

section

variable (env : RedEnv) (depth : Nat)

def redConfAppendExpandedPath (node : ExpandCtx) (outputS : Buffer UInt8) (idxOut maxlen : Nat)
    (inputS : CStr) : Appended :=
  if maxlen ≤ idxOut then .error
  else
    let outputS := if 0 < idxOut then outputS.store idxOut colon else outputS
    let idxbeg := if 0 < idxOut then idxOut + 1 else idxOut
    match defaultsExpand env node depth inputS.bytes (slice outputS 0 idxbeg) maxlen 0 with
    | .done expanded =>
      let outputS := outputS.writeAll idxbeg (expanded.drop idxbeg)
      let found := dedupPaths outputS idxbeg idxbeg expanded.length
      let idxwr := stripColons found.1 found.2
      if idxwr < maxlen then .done (found.1.store idxwr 0) idxwr else .fault
    | .error => .error
    | .deep => .endless
    | .fault => .endless

/-- The length of the paths that are there, with the separator behind them. -/
def pathOffset (fs : List (List UInt8)) : Nat :=
  if fs = [] then 0 else (joined colon fs).length + 1

/-- The buffer from which the expansion starts, and where. -/
theorem prefix_spec {outputS : Buffer UInt8} {idxOut : Nat} {fs : List (List UInt8)}
    (hfs : ∀ f ∈ fs, IsField colon f) (hacc : slice outputS 0 idxOut = joined colon fs) :
    (if 0 < idxOut then idxOut + 1 else idxOut) = pathOffset fs ∧
      slice (if 0 < idxOut then outputS.store idxOut colon else outputS) 0 (pathOffset fs) =
        terminated colon fs := by
  have hlen : idxOut = (joined colon fs).length := by
    rw [← hacc, Layered.Buffer.length_slice, Nat.sub_zero]
  rcases eq_or_ne fs [] with rfl | hne
  · subst hlen
    exact ⟨rfl, rfl⟩
  · have hpos : 0 < idxOut := by
      rw [hlen, List.length_pos_iff]
      exact fun hnil => hne ((Layered.joined_eq_nil hfs).mp hnil)
    have hoff : pathOffset fs = idxOut + 1 := by rw [pathOffset, if_neg hne, hlen]
    rw [hoff, if_pos hpos, if_pos hpos, Layered.Buffer.slice_concat (Nat.zero_le _),
      Layered.Buffer.store_same, Layered.Buffer.slice_store (.inr (Nat.le_refl _)), hacc,
      Layered.joined_append_sep hne]
    exact ⟨rfl, rfl⟩

theorem isField_found {fs : List (List UInt8)} (hfs : ∀ f ∈ fs, IsField colon f)
    (t : List UInt8) : ∀ f ∈ (fields colon t).foldl addNew fs, IsField colon f := by
  intro f hf
  rcases Layered.mem_foldl_addNew hf with hf | hf
  · exact hfs f hf
  · exact Layered.isField_of_mem_fields hf

/-- There is room for a text behind the paths that are there, and for a zero behind the result. -/
def textFits (maxlen : Nat) (fs : List (List UInt8)) (t : List UInt8) : Bool :=
  decide ((joined colon fs).length < maxlen) && decide (pathOffset fs + t.length ≤ maxlen) &&
    decide ((joined colon ((fields colon t).foldl addNew fs)).length < maxlen)

/-- What is left of a text behind the paths, once the known ones are dropped. -/
theorem dedupPaths_stripped {start : Buffer UInt8} {fs : List (List UInt8)}
    (hfs : ∀ f ∈ fs, IsField colon f)
    (hpre : slice start 0 (pathOffset fs) = terminated colon fs) (t : List UInt8) :
    let found := dedupPaths (writeAll start (pathOffset fs) t) (pathOffset fs)
      (pathOffset fs) (pathOffset fs + t.length)
    slice found.1 0 (stripColons found.1 found.2) =
        joined colon ((fields colon t).foldl addNew fs) ∧
      stripColons found.1 found.2 = (joined colon ((fields colon t).foldl addNew fs)).length := by
  intro found
  have hread := dedupPaths_spec (writeAll start (pathOffset fs) t)
    (Nat.le_refl (pathOffset fs)) (Nat.le_add_right _ t.length) hfs
    (by rw [Layered.Buffer.slice_writeAll_of_le (Nat.le_refl _), hpre])
  rw [Layered.Buffer.slice_writeAll] at hread
  have hleft := stripColons_spec found.1 (isField_found hfs t) hread
  have hlast := congrArg List.length hleft
  rw [Layered.Buffer.length_slice, Nat.sub_zero] at hlast
  exact ⟨hleft, hlast⟩

/-- **One setting.** It is appended exactly when its text fits, and leaves the paths that were
there, followed by its own new ones. -/
theorem redConfAppendExpandedPath_done (node : ExpandCtx) (inputS : CStr)
    {outputS : Buffer UInt8} {idxOut maxlen size : Nat} {fs : List (List UInt8)}
    (hsize : maxlen ≤ size) (hfs : ∀ f ∈ fs, IsField colon f)
    (hacc : slice outputS 0 idxOut = joined colon fs) :
    (∀ outputS' idxOut', redConfAppendExpandedPath env depth node outputS idxOut maxlen inputS =
        .done outputS' idxOut' →
      outputS' idxOut' = 0 ∧ ∃ t, expandedText env node depth size inputS = some t ∧
        textFits maxlen fs t = true ∧
        slice outputS' 0 idxOut' = joined colon ((fields colon t).foldl addNew fs)) ∧
    (∀ t, expandedText env node depth size inputS = some t → textFits maxlen fs t = true →
      ∃ outputS' idxOut', redConfAppendExpandedPath env depth node outputS idxOut maxlen inputS =
        .done outputS' idxOut') := by
  obtain ⟨hbeg, hpre⟩ := prefix_spec hfs hacc
  have hidx : idxOut = (joined colon fs).length := by
    rw [← hacc, Layered.Buffer.length_slice, Nat.sub_zero]
  have hoff : idxOut < maxlen → pathOffset fs ≤ maxlen := by
    intro hlt
    rw [← hbeg]
    split <;> omega
  rw [redConfAppendExpandedPath]
  by_cases hfull : maxlen ≤ idxOut
  · simp only [if_pos hfull]
    refine ⟨nofun, fun t _ hfit => ?_⟩
    simp only [textFits, Bool.and_eq_true, decide_eq_true_eq] at hfit
    omega
  · simp only [if_neg hfull, hbeg, hpre]
    generalize (if 0 < idxOut then outputS.store idxOut colon else outputS) = start at hpre
    have hlen : (terminated colon fs).length = pathOffset fs := by
      rw [← hpre, Layered.Buffer.length_slice, Nat.sub_zero]
    have htext : ∀ out, defaultsExpand env node depth inputS.bytes (terminated colon fs) maxlen 0 =
        .done out ↔ ∃ t, expandedText env node depth size inputS = some t ∧
          (terminated colon fs).length + t.length ≤ maxlen ∧ out = terminated colon fs ++ t :=
      fun out => defaultsExpand_text (by rw [hlen]; exact hoff (by omega)) hsize
    constructor
    · intro outputS' idxOut' h
      cases hd : defaultsExpand env node depth inputS.bytes (terminated colon fs) maxlen 0 with
      | done expanded =>
        obtain ⟨t, ht, hfit, rfl⟩ := (htext _).mp hd
        simp only [hd, List.length_append, hlen, List.drop_left' hlen] at h
        split at h
        · rename_i hzero
          rw [Appended.done.injEq] at h
          obtain ⟨rfl, rfl⟩ := h
          refine ⟨Layered.Buffer.store_same _ _ _, t, ht, ?_, ?_⟩
          · simp only [textFits, Bool.and_eq_true, decide_eq_true_eq]
            rw [hlen] at hfit
            exact ⟨⟨by omega, hfit⟩, (dedupPaths_stripped hfs hpre t).2 ▸ hzero⟩
          · rw [Layered.Buffer.slice_store (.inr (Nat.le_refl _))]
            exact (dedupPaths_stripped hfs hpre t).1
        · cases h
      | error => simp [hd] at h
      | deep => simp [hd] at h
      | fault => simp [hd] at h
    · intro t ht hfit
      simp only [textFits, Bool.and_eq_true, decide_eq_true_eq] at hfit
      have hd := (htext (terminated colon fs ++ t)).mpr ⟨t, ht, by rw [hlen]; exact hfit.1.2, rfl⟩
      simp only [hd, List.length_append, hlen, List.drop_left' hlen]
      rw [if_pos (by rw [(dedupPaths_stripped hfs hpre t).2]; exact hfit.2)]
      exact ⟨_, _, rfl⟩

/-! ## mixPaths -/

/-- `sizeof buffer` in `mixPaths` -/
def pathsBufferSize : Nat := 1024

abbrev MixGetPathCb (σ : Type*) := σ → RedConfig → Option CStr

/-- The callback gets the string and its length. -/
abbrev MixPathCb (σ : Type*) := σ → CStr → Nat → Int × σ

/-- What `mixPaths` ends with: its status and the closure, unless an expansion has no end or a store
is outside of the buffer. -/
inductive PathsOutcome (σ : Type*) where
  | ret (rc : Int) (closure : σ)
  | endless
  | fault
deriving DecidableEq

variable {σ : Type*}

/-- The turn of one config. -/
def appendConfig (getpath : MixGetPathCb σ) (closure : σ) (node : Family) (admin : Bool)
    (buffer : Buffer UInt8) (length : Nat) : Appended :=
  match (node.conf admin).bind (getpath closure) with
  | none => .done buffer length
  | some path =>
    redConfAppendExpandedPath env depth node.node.ctx buffer length pathsBufferSize path

/-- The loop of `mixPaths` over the nodes up to the root, with their admin config first. -/
def mixPathsLoop (getpath : MixGetPathCb σ) (closure : σ) :
    List (Family × Bool) → Buffer UInt8 → Nat → Appended
  | [], buffer, length => .done buffer length
  | (node, admin) :: turns, buffer, length =>
    match appendConfig env depth getpath closure node admin buffer length with
    | .done buffer length => mixPathsLoop getpath closure turns buffer length
    | other => other

def pathTurns (node : Family) : List (Family × Bool) :=
  node.toRoot.flatMap fun f => [(f, true), (f, false)]

/-- `buffer` is what the stack holds when the function is entered. -/
def mixPaths (node : Family) (getpath : MixGetPathCb σ) (callback : MixPathCb σ) (closure : σ)
    (buffer : Buffer UInt8) : PathsOutcome σ :=
  match mixPathsLoop env depth getpath closure (pathTurns node) buffer 0 with
  | .done buffer length =>
    if 0 < length then
      let (rc, closure) := callback closure (CStr.ofBytes (slice buffer 0 (length + 1))) length
      .ret rc closure
    else .ret 0 closure
  | .error => .ret 1 closure
  | .endless => .endless
  | .fault => .fault

/-- The settings of a path, from leaf to root and admin before normal, with their nodes. -/
def pathSettings (getpath : RedConfig → Option CStr) (turns : List (Family × Bool)) :
    List (Family × CStr) :=
  turns.filterMap fun turn => ((turn.1.conf turn.2).bind getpath).map fun path => (turn.1, path)

/-- The elements of a setting, expanded in its node. -/
def settingElements (setting : Family × CStr) : List (List UInt8) :=
  fields colon ((expandedText env setting.1.node.ctx depth pathsBufferSize setting.2).getD [])

/-- The elements of all settings, without those that came before. -/
def pathElements (node : Family) (getpath : RedConfig → Option CStr) : List (List UInt8) :=
  ((pathSettings getpath (pathTurns node)).flatMap (settingElements env depth)).eraseDups

/-- Every setting expands and there is room for it. -/
def pathsFit : List (Family × CStr) → List (List UInt8) → Bool
  | [], _ => true
  | setting :: settings, fs =>
    match expandedText env setting.1.node.ctx depth pathsBufferSize setting.2 with
    | none => false
    | some t =>
      textFits pathsBufferSize fs t && pathsFit settings ((fields colon t).foldl addNew fs)

theorem pathsFit_cons {setting : Family × CStr} {settings : List (Family × CStr)}
    {fs : List (List UInt8)} : pathsFit env depth (setting :: settings) fs = true ↔
      ∃ t, expandedText env setting.1.node.ctx depth pathsBufferSize setting.2 = some t ∧
        textFits pathsBufferSize fs t = true ∧
        pathsFit env depth settings ((fields colon t).foldl addNew fs) = true := by
  rw [pathsFit]
  cases expandedText env setting.1.node.ctx depth pathsBufferSize setting.2 with
  | none => simp
  | some t => simp

theorem settingElements_of_text (setting : Family × CStr) {t : List UInt8}
    (h : expandedText env setting.1.node.ctx depth pathsBufferSize setting.2 = some t) :
    settingElements env depth setting = fields colon t := by
  rw [settingElements, h]
  rfl

theorem mixPathsLoop_done (getpath : MixGetPathCb σ) (closure : σ) :
    ∀ (turns : List (Family × Bool)) (buffer : Buffer UInt8) (length : Nat)
      (fs : List (List UInt8)), (∀ f ∈ fs, IsField colon f) →
      slice buffer 0 length = joined colon fs → (length = 0 ∨ buffer length = 0) →
    (∀ buffer' length', mixPathsLoop env depth getpath closure turns buffer length =
        .done buffer' length' →
      pathsFit env depth (pathSettings (getpath closure) turns) fs = true ∧
        (length' = 0 ∨ buffer' length' = 0) ∧
        slice buffer' 0 length' = joined colon (((pathSettings (getpath closure) turns).flatMap
          (settingElements env depth)).foldl addNew fs)) ∧
    (pathsFit env depth (pathSettings (getpath closure) turns) fs = true →
      ∃ buffer' length', mixPathsLoop env depth getpath closure turns buffer length =
        .done buffer' length') := by
  intro turns
  induction turns with
  | nil =>
    intro buffer length fs hfs hacc hzero
    refine ⟨fun buffer' length' h => ?_, fun _ => ⟨buffer, length, rfl⟩⟩
    rw [mixPathsLoop, Appended.done.injEq] at h
    obtain ⟨rfl, rfl⟩ := h
    exact ⟨rfl, hzero, hacc⟩
  | cons turn turns ih =>
    intro buffer length fs hfs hacc hzero
    obtain ⟨node, admin⟩ := turn
    cases hpath : (node.conf admin).bind (getpath closure) with
    | none =>
      have hsettings : pathSettings (getpath closure) ((node, admin) :: turns) =
          pathSettings (getpath closure) turns := by
        rw [pathSettings, List.filterMap_cons_none (by simp [hpath])]
        rfl
      have hturn : appendConfig env depth getpath closure node admin buffer length =
          .done buffer length := by rw [appendConfig, hpath]
      rw [hsettings, mixPathsLoop, hturn]
      exact ih buffer length fs hfs hacc hzero
    | some path =>
      have hsettings : pathSettings (getpath closure) ((node, admin) :: turns) =
          (node, path) :: pathSettings (getpath closure) turns := by
        rw [pathSettings, List.filterMap_cons_some (b := (node, path)) (by simp [hpath])]
        rfl
      have hturn : appendConfig env depth getpath closure node admin buffer length =
          redConfAppendExpandedPath env depth node.node.ctx buffer length pathsBufferSize path := by
        rw [appendConfig, hpath]
      obtain ⟨hdone, hfit⟩ := redConfAppendExpandedPath_done env depth node.node.ctx path
        (Nat.le_refl pathsBufferSize) hfs hacc
      rw [hsettings, mixPathsLoop, hturn]
      constructor
      · intro buffer' length' h
        cases hrun : redConfAppendExpandedPath env depth node.node.ctx buffer length
            pathsBufferSize path with
        | done buffer₁ length₁ =>
          rw [hrun] at h
          obtain ⟨hz, t, ht, hroom, hacc₁⟩ := hdone _ _ hrun
          obtain ⟨hfits, hz', hjoin⟩ := (ih buffer₁ length₁ _ (isField_found hfs t) hacc₁
            (.inr hz)).1 _ _ h
          refine ⟨(pathsFit_cons env depth).mpr ⟨t, ht, hroom, hfits⟩, hz', ?_⟩
          rw [hjoin, List.flatMap_cons, settingElements_of_text env depth (node, path) ht,
            List.foldl_append]
        | error => rw [hrun] at h; cases h
        | endless => rw [hrun] at h; cases h
        | fault => rw [hrun] at h; cases h
      · intro hall
        obtain ⟨t, ht, hroom, hfits⟩ := (pathsFit_cons env depth).mp hall
        obtain ⟨buffer₁, length₁, hrun⟩ := hfit t ht hroom
        obtain ⟨hz, t', ht', -, hacc₁⟩ := hdone _ _ hrun
        rw [ht, Option.some.injEq] at ht'
        subst ht'
        rw [hrun]
        exact (ih buffer₁ length₁ _ (isField_found hfs t) hacc₁ (.inr hz)).2 hfits

theorem pathsFit_isSome : ∀ {settings : List (Family × CStr)} {fs : List (List UInt8)},
    pathsFit env depth settings fs = true → ∀ setting ∈ settings,
      (expandedText env setting.1.node.ctx depth pathsBufferSize setting.2).isSome := by
  intro settings
  induction settings with
  | nil => intro fs _ setting h; cases h
  | cons first settings ih =>
    intro fs h setting hmem
    obtain ⟨t, ht, -, hfit⟩ := (pathsFit_cons env depth).mp h
    rcases List.mem_cons.mp hmem with rfl | hmem
    · rw [ht]; rfl
    · exact ih hfit setting hmem

theorem pathsFit_length : ∀ {settings : List (Family × CStr)} {fs : List (List UInt8)},
    pathsFit env depth settings fs = true → (joined colon fs).length < pathsBufferSize →
      (joined colon ((settings.flatMap (settingElements env depth)).foldl addNew fs)).length <
        pathsBufferSize := by
  intro settings
  induction settings with
  | nil => intro fs _ h; exact h
  | cons setting settings ih =>
    intro fs h _
    obtain ⟨t, ht, hroom, hfit⟩ := (pathsFit_cons env depth).mp h
    simp only [textFits, Bool.and_eq_true, decide_eq_true_eq] at hroom
    rw [List.flatMap_cons, settingElements_of_text env depth setting ht, List.foldl_append]
    exact ih hfit hroom.2

theorem pathElements_eq (node : Family) (getpath : RedConfig → Option CStr) :
    ((pathSettings getpath (pathTurns node)).flatMap (settingElements env depth)).foldl addNew [] =
      pathElements env depth node getpath := Layered.foldl_addNew_nil _

theorem isField_pathElements (node : Family) (getpath : RedConfig → Option CStr) :
    ∀ f ∈ pathElements env depth node getpath, IsField colon f := by
  intro f hf
  rw [pathElements, List.mem_eraseDups, List.mem_flatMap] at hf
  obtain ⟨setting, -, hmem⟩ := hf
  exact Layered.isField_of_mem_fields hmem

/-- The string of the merge has no zero byte, for the texts have none. -/
theorem pathElements_nulFree (node : Family) (getpath : RedConfig → Option CStr) :
    (0 : UInt8) ∉ joined colon (pathElements env depth node getpath) := by
  intro h
  rcases Layered.mem_joined h with h | ⟨f, hf, h⟩
  · exact absurd h (by decide)
  · rw [pathElements, List.mem_eraseDups, List.mem_flatMap] at hf
    obtain ⟨setting, -, hmem⟩ := hf
    have htext := Layered.mem_of_mem_fields hmem h
    cases ht : expandedText env setting.1.node.ctx depth pathsBufferSize setting.2 with
    | none => rw [ht] at htext; exact List.not_mem_nil htext
    | some t => rw [ht] at htext; exact expandedText_nulFree ht htext

/-- The string that `mixPaths` gives to its callback. -/
def pathValue (node : Family) (getpath : RedConfig → Option CStr) : CStr :=
  ⟨joined colon (pathElements env depth node getpath), pathElements_nulFree env depth node getpath⟩

/-- `mixPaths` delivers the join, when all settings fit. -/
theorem mixPaths_of_fit {node : Family} {getpath : MixGetPathCb σ} {closure : σ}
    (hfit : pathsFit env depth (pathSettings (getpath closure) (pathTurns node)) [] = true)
    (callback : MixPathCb σ) (buffer : Buffer UInt8) :
    mixPaths env depth node getpath callback closure buffer =
      if pathElements env depth node (getpath closure) = [] then .ret 0 closure
      else
        let value := pathValue env depth node (getpath closure)
        let (rc, closure) := callback closure value value.bytes.length
        .ret rc closure := by
  obtain ⟨hdone, hrun⟩ := mixPathsLoop_done env depth getpath closure (pathTurns node) buffer 0 []
    (fun _ h => absurd h List.not_mem_nil) rfl (.inl rfl)
  obtain ⟨buffer', length', hloop⟩ := hrun hfit
  obtain ⟨-, hzero, hjoin⟩ := hdone _ _ hloop
  rw [pathElements_eq] at hjoin
  have hlen : length' = (joined colon (pathElements env depth node (getpath closure))).length := by
    rw [← hjoin, Layered.Buffer.length_slice, Nat.sub_zero]
  rw [mixPaths, hloop]
  by_cases hnone : pathElements env depth node (getpath closure) = []
  · have hlen0 : length' = 0 := by rw [hlen, hnone]; rfl
    simp [hnone, hlen0]
  · have hpos : 0 < length' := by
      rw [hlen, List.length_pos_iff]
      exact fun hnil => hnone ((Layered.joined_eq_nil
        (isField_pathElements env depth node (getpath closure))).mp hnil)
    have hvalue : CStr.ofBytes (slice buffer' 0 (length' + 1)) =
        pathValue env depth node (getpath closure) := by
      refine CStr.ext ?_
      have hz : buffer' length' = 0 := by
        rcases hzero with hzero | hzero
        · omega
        · exact hzero
      rw [Layered.Buffer.slice_concat (Nat.zero_le _), hjoin, hz]
      exact CStr.ofBytes_zero (pathElements_nulFree env depth node (getpath closure))
    simp only [if_pos hpos, if_neg hnone, hvalue]
    rw [hlen]
    rfl

theorem mixPaths_of_not_fit {node : Family} {getpath : MixGetPathCb σ} {closure : σ}
    (hfit : pathsFit env depth (pathSettings (getpath closure) (pathTurns node)) [] = false)
    (callback : MixPathCb σ) (buffer : Buffer UInt8) (closure' : σ) :
    mixPaths env depth node getpath callback closure buffer ≠ .ret 0 closure' := by
  obtain ⟨hdone, -⟩ := mixPathsLoop_done env depth getpath closure (pathTurns node) buffer 0 []
    (fun _ h => absurd h List.not_mem_nil) rfl (.inl rfl)
  rw [mixPaths]
  cases hloop : mixPathsLoop env depth getpath closure (pathTurns node) buffer 0 with
  | done buffer' length' =>
    have := (hdone _ _ hloop).1
    rw [hfit] at this
    cases this
  | error => simp
  | endless => simp
  | fault => simp

/-- **Path merge.** When `mixPaths` does not fail, its callback gets the join of the elements that
the settings expand to in their nodes, each where it occurs first, and its length. It is called
exactly when there are elements. A setting that is appended leaves what was there before it. -/
theorem mixPaths_joins (node : Family) (getpath : MixGetPathCb σ) (callback : MixPathCb σ)
    (closure closure' : σ) (buffer : Buffer UInt8)
    (hok : mixPaths env depth node getpath callback closure buffer = .ret 0 closure') :
    (∀ setting ∈ pathSettings (getpath closure) (pathTurns node),
      (expandedText env setting.1.node.ctx depth pathsBufferSize setting.2).isSome) ∧
    (∃ value : CStr,
      value.bytes = joined colon (pathElements env depth node (getpath closure)) ∧
      value.bytes.length < pathsBufferSize ∧
      ∀ callback : MixPathCb σ, mixPaths env depth node getpath callback closure buffer =
        if pathElements env depth node (getpath closure) = [] then .ret 0 closure
        else
          let (rc, closure) := callback closure value value.bytes.length
          .ret rc closure) ∧
    ∀ (ctx : ExpandCtx) (outputS outputS' : Buffer UInt8) (idxOut idxOut' maxlen : Nat)
      (inputS : CStr) (fs : List (List UInt8)), (∀ f ∈ fs, IsField colon f) →
      slice outputS 0 idxOut = joined colon fs →
      redConfAppendExpandedPath env depth ctx outputS idxOut maxlen inputS =
        .done outputS' idxOut' →
      ∃ t, expandedText env ctx depth maxlen inputS = some t ∧ outputS' idxOut' = 0 ∧
        slice outputS' 0 idxOut' =
          joined colon (fs ++ ((fields colon t).removeAll fs).eraseDups) := by
  have hfit : pathsFit env depth (pathSettings (getpath closure) (pathTurns node)) [] = true := by
    by_contra hnot
    exact mixPaths_of_not_fit env depth (by simpa using hnot) callback buffer closure' hok
  refine ⟨fun setting hsetting => pathsFit_isSome env depth hfit setting hsetting,
    ⟨pathValue env depth node (getpath closure), rfl, ?_, fun callback =>
      mixPaths_of_fit env depth hfit callback buffer⟩, ?_⟩
  · have hroom := pathsFit_length env depth hfit (by decide)
    rw [pathElements_eq] at hroom
    exact hroom
  · intro ctx outputS outputS' idxOut idxOut' maxlen inputS fs hfs hacc hrun
    obtain ⟨hzero, t, ht, -, hjoin⟩ := (redConfAppendExpandedPath_done env depth ctx inputS
      (Nat.le_refl maxlen) hfs hacc).1 _ _ hrun
    exact ⟨t, ht, hzero, by rw [hjoin, Layered.foldl_addNew]⟩

/-! ## What the stack holds -/

/-- What appending a setting behind some paths ends with, when it is not appended. -/
def appendStop (node : ExpandCtx) (inputS : CStr) (maxlen : Nat) (fs : List (List UInt8)) :
    Appended :=
  if maxlen ≤ (joined colon fs).length then .error
  else
    match defaultsExpand env node depth inputS.bytes (terminated colon fs) maxlen 0 with
    | .done _ => .fault
    | .error => .error
    | .deep => .endless
    | .fault => .endless

theorem redConfAppendExpandedPath_stop (node : ExpandCtx) (inputS : CStr)
    {outputS : Buffer UInt8} {idxOut maxlen : Nat} {fs : List (List UInt8)}
    (hfs : ∀ f ∈ fs, IsField colon f) (hacc : slice outputS 0 idxOut = joined colon fs)
    (h : ∀ outputS' idxOut', redConfAppendExpandedPath env depth node outputS idxOut maxlen inputS ≠
      .done outputS' idxOut') :
    redConfAppendExpandedPath env depth node outputS idxOut maxlen inputS =
      appendStop env depth node inputS maxlen fs := by
  obtain ⟨hbeg, hpre⟩ := prefix_spec hfs hacc
  have hidx : idxOut = (joined colon fs).length := by
    rw [← hacc, Layered.Buffer.length_slice, Nat.sub_zero]
  simp only [redConfAppendExpandedPath] at h ⊢
  rw [appendStop, ← hidx]
  by_cases hfull : maxlen ≤ idxOut
  · rw [if_pos hfull, if_pos hfull]
  · simp only [if_neg hfull, hbeg, hpre] at h ⊢
    cases hd : defaultsExpand env node depth inputS.bytes (terminated colon fs) maxlen 0 with
    | done expanded =>
      simp only [hd] at h ⊢
      generalize dedupPaths _ _ _ _ = found at h ⊢
      by_cases hroom : stripColons found.1 found.2 < maxlen
      · exact absurd (if_pos hroom) (h _ _)
      · rw [if_neg hroom]
    | error => rfl
    | deep => rfl
    | fault => rfl

/-- The paths that are there decide what the loop ends with, and not what lies behind them. -/
theorem mixPathsLoop_stack (getpath : MixGetPathCb σ) (closure : σ) :
    ∀ (turns : List (Family × Bool)) (buffer buffer' : Buffer UInt8) (length : Nat)
      (fs : List (List UInt8)), (∀ f ∈ fs, IsField colon f) →
      slice buffer 0 length = joined colon fs → slice buffer' 0 length = joined colon fs →
      (∃ out n out' n', mixPathsLoop env depth getpath closure turns buffer length = .done out n ∧
        mixPathsLoop env depth getpath closure turns buffer' length = .done out' n') ∨
      mixPathsLoop env depth getpath closure turns buffer length =
        mixPathsLoop env depth getpath closure turns buffer' length := by
  intro turns
  induction turns with
  | nil => intro buffer buffer' length fs _ _ _; exact .inl ⟨_, _, _, _, rfl, rfl⟩
  | cons turn turns ih =>
    intro buffer buffer' length fs hfs hacc hacc'
    obtain ⟨node, admin⟩ := turn
    cases hpath : (node.conf admin).bind (getpath closure) with
    | none =>
      have hturn : ∀ b, appendConfig env depth getpath closure node admin b length =
          .done b length := fun b => by rw [appendConfig, hpath]
      rw [mixPathsLoop, mixPathsLoop, hturn, hturn]
      exact ih buffer buffer' length fs hfs hacc hacc'
    | some path =>
      have hturn : ∀ b, appendConfig env depth getpath closure node admin b length =
          redConfAppendExpandedPath env depth node.node.ctx b length pathsBufferSize path :=
        fun b => by rw [appendConfig, hpath]
      have hspec := fun {b : Buffer UInt8} (hb : slice b 0 length = joined colon fs) =>
        redConfAppendExpandedPath_done env depth node.node.ctx path
          (Nat.le_refl pathsBufferSize) hfs hb
      rw [mixPathsLoop, mixPathsLoop, hturn, hturn]
      by_cases hdone : ∃ out n, redConfAppendExpandedPath env depth node.node.ctx buffer length
          pathsBufferSize path = .done out n
      · obtain ⟨out, n, hout⟩ := hdone
        obtain ⟨-, t, ht, hroom, hnew⟩ := (hspec hacc).1 out n hout
        obtain ⟨out', n', hout'⟩ := (hspec hacc').2 t ht hroom
        obtain ⟨-, t', ht', -, hnew'⟩ := (hspec hacc').1 out' n' hout'
        obtain rfl : t = t' := Option.some.inj (ht.symm.trans ht')
        have hn : n = n' := by
          have hlen := congrArg List.length (hnew.trans hnew'.symm)
          rwa [Layered.Buffer.length_slice, Layered.Buffer.length_slice, Nat.sub_zero,
            Nat.sub_zero] at hlen
        subst hn
        rw [hout, hout']
        exact ih out out' n _ (isField_found hfs t) hnew hnew'
      · have hnot : ∀ out n, redConfAppendExpandedPath env depth node.node.ctx buffer length
            pathsBufferSize path ≠ .done out n := fun out n h => hdone ⟨out, n, h⟩
        have hnot' : ∀ out n, redConfAppendExpandedPath env depth node.node.ctx buffer' length
            pathsBufferSize path ≠ .done out n := fun out n h => by
          obtain ⟨-, t, ht, hroom, -⟩ := (hspec hacc').1 out n h
          exact hdone ((hspec hacc).2 t ht hroom)
        rw [redConfAppendExpandedPath_stop env depth _ _ hfs hacc hnot,
          redConfAppendExpandedPath_stop env depth _ _ hfs hacc' hnot']
        exact .inr rfl

theorem mixPathsLoop_closure {σ' : Type*} (getpath : RedConfig → Option CStr) (closure : σ)
    (closure' : σ') (turns : List (Family × Bool)) : ∀ (buffer : Buffer UInt8) (length : Nat),
    mixPathsLoop env depth (fun _ => getpath) closure turns buffer length =
      mixPathsLoop env depth (fun _ => getpath) closure' turns buffer length := by
  induction turns with
  | nil => intro buffer length; rfl
  | cons turn turns ih =>
    intro buffer length
    obtain ⟨node, admin⟩ := turn
    have hturn : appendConfig env depth (fun _ => getpath) closure node admin buffer length =
        appendConfig env depth (fun _ => getpath) closure' node admin buffer length := rfl
    rw [mixPathsLoop, mixPathsLoop, hturn]
    cases appendConfig env depth (fun _ => getpath) closure' node admin buffer length with
    | done out n => exact ih out n
    | error => rfl
    | endless => rfl
    | fault => rfl

/-- The callback that accepts a value and records it. -/
def recordPath : MixPathCb (List CStr) := fun values value _ => (0, values ++ [value])

/-- **The stack.** What `mixPaths` gives to its callback, if anything, does not depend on it. -/
theorem mixPaths_recorded (node : Family) (getpath : RedConfig → Option CStr)
    (callback : MixPathCb σ) (closure : σ) (buffer : Buffer UInt8) :
    mixPaths env depth node (fun _ => getpath) callback closure buffer =
      match mixPaths env depth node (fun _ => getpath) recordPath [] (fun _ => 0) with
      | .ret rc [] => .ret rc closure
      | .ret _ (value :: _) =>
        let (rc, closure) := callback closure value value.bytes.length
        .ret rc closure
      | .endless => .endless
      | .fault => .fault := by
  cases hfit : pathsFit env depth (pathSettings getpath (pathTurns node)) [] with
  | true =>
    rw [@mixPaths_of_fit env depth σ node (fun _ => getpath) closure hfit,
      @mixPaths_of_fit env depth (List CStr) node (fun _ => getpath) [] hfit]
    split
    · rfl
    · rfl
  | false =>
    have hnot : ∀ out n, mixPathsLoop env depth (fun _ => getpath) closure (pathTurns node) buffer 0
        ≠ .done out n := by
      intro out n h
      have := ((mixPathsLoop_done env depth (fun _ => getpath) closure (pathTurns node) buffer 0 []
        (fun _ h => absurd h List.not_mem_nil) rfl (.inl rfl)).1 out n h).1
      rw [hfit] at this
      cases this
    rcases mixPathsLoop_stack env depth (fun _ => getpath) closure (pathTurns node) buffer
        (fun _ => 0) 0 [] (fun _ h => absurd h List.not_mem_nil) rfl rfl with
      ⟨out, n, -, -, h, -⟩ | h
    · exact absurd h (hnot out n)
    · rw [mixPaths, mixPaths, ← mixPathsLoop_closure env depth getpath closure ([] : List CStr),
        ← h]
      cases hloop : mixPathsLoop env depth (fun _ => getpath) closure (pathTurns node) buffer 0 with
      | done out n => exact absurd hloop (hnot out n)
      | error => rfl
      | endless => rfl
      | fault => rfl

end

/-! ## A chain of two nodes -/

def pathNode (redpath : String) (admin normal : Option String) : RedNode where
  config := some {
    headers := { nodeAlias := CStr.lit "node" }
    conftag := { path := normal.map CStr.lit } }
  confadmin := admin.map fun path => {
    headers := { nodeAlias := CStr.lit "node" }
    conftag := { path := some (CStr.lit path) } }
  redpath := CStr.lit redpath

/-- The elements come back from the parent, with colons where they do not separate. -/
def pathLeaf : Family where
  node := pathNode "/rednodes/leaf" (some ":$NODE_PATH/bin::/usr/bin") (some "/usr:/usr/bin:")
  parents := [pathNode "/rednodes" none (some "/usr/bin/x:$NODE_PATH/leaf/bin:/bin")]

theorem mixPaths_joins_pathLeaf : ∃ value : CStr,
    value = CStr.lit "/rednodes/leaf/bin:/usr/bin:/usr:/usr/bin/x:/bin" ∧
      mixPaths emptyEnv 1 pathLeaf (fun _ config => config.conftag.path)
        (fun calls value _ => (0, calls ++ [value])) [] (fun _ => 0xAA) = .ret 0 [value] := by
  have hfit : pathsFit emptyEnv 1 (pathSettings (fun config => config.conftag.path)
      (pathTurns pathLeaf)) [] = true := by decide
  obtain ⟨-, ⟨value, hvalue, -, hrun⟩, -⟩ := mixPaths_joins emptyEnv 1 pathLeaf
    (fun (_ : List CStr) config => config.conftag.path)
    (fun calls value _ => (0, calls ++ [value])) [] _ (fun _ => 0xAA)
    (mixPaths_of_fit emptyEnv 1 hfit _ _)
  refine ⟨value, CStr.ext (hvalue.trans (by decide)), ?_⟩
  rw [hrun, if_neg (by decide)]
  rfl

end Conf
end RedPak
