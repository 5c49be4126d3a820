import RedPak.Conf.Paths
import RedPak.Conf.StoredSpec

/-!
# Conf.StoredPaths

`RedConfAppendExpandedPath` with the array that it writes to. The loops are those of `Conf.Paths`,
where every store has to be inside of the array; what the array holds before is arbitrary.

* `dedupWithin_eq`: the loops never store outside.
* `redConfAppendExpandedPath_leaves`: what is left in the array, or where the run ends.
-/

namespace RedPak
namespace Conf
namespace Stored

open Layered (Buffer fields joined terminated addNew IsField)
open Layered.Buffer (slice store scan)
open Layered.Expansion
open Layered.Action

/-! ## The loops -/

/-- not found, copy: the buffer, `idxwr` and `idxrd`; or a store is outside. -/
def copyWithin (maxlen : Nat) (outputS : Buffer UInt8) (idxwr idxrd idxend : Nat) :
    Option (Buffer UInt8 × Nat × Nat) :=
  if idxrd < idxend then
    if idxwr < maxlen then
      if outputS idxrd ≠ colon then
        copyWithin maxlen (outputS.store idxwr (outputS idxrd)) (idxwr + 1) (idxrd + 1) idxend
      else some (outputS.store idxwr (outputS idxrd), idxwr + 1, idxrd + 1)
    else none
  else some (outputS, idxwr, idxrd)
termination_by idxend - idxrd
decreasing_by omega

theorem copyElement_of_copyWithin {maxlen : Nat} (outputS : Buffer UInt8) (idxwr idxrd idxend : Nat)
    {copied : Buffer UInt8 × Nat × Nat}
    (h : copyWithin maxlen outputS idxwr idxrd idxend = some copied) :
    copyElement outputS idxwr idxrd idxend = copied := by
  fun_induction copyElement outputS idxwr idxrd idxend with
  | case1 outputS idxwr idxrd hlt hname ih =>
    rw [copyWithin, if_pos hlt, if_pos hname] at h
    split at h
    · exact ih h
    · cases h
  | case2 outputS idxwr idxrd hlt hname =>
    rw [copyWithin, if_pos hlt, if_neg hname] at h
    split at h
    · exact Option.some.inj h
    · cases h
  | case3 outputS idxwr idxrd hlt =>
    rw [copyWithin, if_neg hlt] at h
    exact Option.some.inj h

/-- `while (idxrd < idxend)`: the buffer and `idxwr` -/
def dedupWithin (maxlen : Nat) (outputS : Buffer UInt8) (idxwr idxrd idxend : Nat) :
    Option (Buffer UInt8 × Nat) :=
  if _h : idxrd < idxend then
    let start := scan isColon outputS idxend idxrd
    let idxse := searchPath outputS idxwr start idxend 0
    if idxse = idxwr then
      match _hcopied : copyWithin maxlen outputS idxwr start idxend with
      | none => none
      | some copied => dedupWithin maxlen copied.1 copied.2.1 copied.2.2 idxend
    else dedupWithin maxlen outputS idxwr (skipElement outputS start idxend) idxend
  else some (outputS, idxwr)
termination_by idxend - idxrd
decreasing_by
  · have hle := Layered.Buffer.scan_spec isColon outputS (Nat.le_of_lt _h)
    have hlt := lt_copyElement outputS idxwr (scan isColon outputS idxend idxrd) idxend
    rw [copyElement_of_copyWithin _ _ _ _ _hcopied] at hlt
    exact Nat.sub_lt_sub_left _h (by omega)
  · have hle := Layered.Buffer.scan_spec isColon outputS (Nat.le_of_lt _h)
    have hlt := lt_skipElement outputS (scan isColon outputS idxend idxrd) idxend
    exact Nat.sub_lt_sub_left _h (by omega)

theorem copyWithin_eq {maxlen : Nat} (outputS : Buffer UInt8) {idxwr idxrd idxend : Nat}
    (hwr : idxwr ≤ idxrd) (hend : idxend ≤ maxlen) :
    copyWithin maxlen outputS idxwr idxrd idxend =
      some (copyElement outputS idxwr idxrd idxend) := by
  fun_induction copyElement outputS idxwr idxrd idxend with
  | case1 outputS idxwr idxrd hlt hname ih =>
    rw [copyWithin, if_pos hlt, if_pos (by omega), if_pos hname]
    exact ih (by omega)
  | case2 outputS idxwr idxrd hlt hname =>
    rw [copyWithin, if_pos hlt, if_pos (by omega), if_neg hname]
  | case3 outputS idxwr idxrd hlt =>
    rw [copyWithin, if_neg hlt]

theorem dedupWithin_new {maxlen : Nat} {outputS : Buffer UInt8} {idxwr idxrd idxend : Nat}
    {copied : Buffer UInt8 × Nat × Nat} (hlt : idxrd < idxend)
    (hnew : searchPath outputS idxwr (scan isColon outputS idxend idxrd) idxend 0 = idxwr)
    (hcopied : copyWithin maxlen outputS idxwr (scan isColon outputS idxend idxrd) idxend =
      some copied) :
    dedupWithin maxlen outputS idxwr idxrd idxend =
      dedupWithin maxlen copied.1 copied.2.1 copied.2.2 idxend := by
  rw [dedupWithin, dif_pos hlt]
  dsimp only
  rw [if_pos hnew]
  generalize copyWithin maxlen outputS idxwr (scan isColon outputS idxend idxrd) idxend = found
    at hcopied ⊢
  subst hcopied
  rfl

/-- **The loops** store inside of the array. -/
theorem dedupWithin_eq {maxlen : Nat} (outputS : Buffer UInt8) {idxwr idxrd idxend : Nat}
    (hwr : idxwr ≤ idxrd) (hrd : idxrd ≤ idxend) (hend : idxend ≤ maxlen) :
    dedupWithin maxlen outputS idxwr idxrd idxend =
      some (dedupPaths outputS idxwr idxrd idxend) := by
  fun_induction dedupPaths outputS idxwr idxrd idxend with
  | case1 outputS idxwr idxrd hlt start idxse hnew copied ih =>
    obtain ⟨hle, hstart, -, -⟩ := Layered.Buffer.scan_spec isColon outputS hrd
    obtain ⟨h₁, h₂, -, -⟩ := copyElement_spec outputS (Nat.le_trans hwr hle) hstart
    rw [dedupWithin_new hlt hnew (copyWithin_eq outputS (Nat.le_trans hwr hle) hend)]
    exact ih h₁ h₂
  | case2 outputS idxwr idxrd hlt start idxse hfound ih =>
    obtain ⟨hle, hstart, -, -⟩ := Layered.Buffer.scan_spec isColon outputS hrd
    obtain ⟨h₂, -⟩ := skipElement_spec outputS hstart
    have hskip := lt_skipElement outputS (scan isColon outputS idxend idxrd) idxend
    rw [dedupWithin, dif_pos hlt]
    dsimp only
    rw [if_neg hfound]
    exact ih (Nat.le_trans (Nat.le_trans hwr hle) hskip.1) h₂
  | case3 outputS idxwr idxrd hlt =>
    rw [dedupWithin, dif_neg hlt]

/-! ## RedConfAppendExpandedPath -/

/-- The text behind which an element goes. -/
def pathPrefix (before : List UInt8) : List UInt8 :=
  if before = [] then [] else before ++ [colon]

/-- The elements of the text that are not there yet. -/
def newPaths (before t : List UInt8) : List (List UInt8) :=
  ((fields colon t).removeAll (fields colon before)).eraseDups

/-- What is there once the text is appended to it. -/
def appended (before t : List UInt8) : List UInt8 :=
  (pathPrefix before ++ joined colon (newPaths before t)).rdropWhile isColon

/-- add default separator -/
def addSeparator (maxlen : Nat) : OutputM Unit := do
  let idxOut := (← get).idxOut
  if 0 < idxOut then do
    storeOutput maxlen idxOut [colon]
    modify fun s => { s with idxOut := idxOut + 1 }
  else pure ()

section

variable (env : RedEnv) (junk : Buffer UInt8) (node : Option ExpandCtx)

def redConfAppendExpandedPath (depth : Nat) (inputS : CStr) (maxlen : Nat) : OutputM Bool := do
  let idxOut := (← get).idxOut
  if maxlen ≤ idxOut then pure false
  else do
    addSeparator maxlen
    let idxbeg := (← get).idxOut
    if ← defaultsExpand env junk node depth inputS.bytes maxlen 0 then do
      let s ← get
      match dedupWithin maxlen s.outputS idxbeg idxbeg s.idxOut with
      | none => throw (.fault .outside)
      | some (outputS, idxwr) => do
        set (⟨outputS, stripColons outputS idxwr⟩ : Output)
        storeOutput maxlen (stripColons outputS idxwr) [0]
        pure true
    else pure false

end

theorem closed_pathPrefix (before : List UInt8) : Closed (pathPrefix before) := by
  rw [pathPrefix]
  split
  · exact .inl rfl
  · exact .inr (by simp)

theorem fields_pathPrefix (before : List UInt8) :
    fields colon (pathPrefix before) = fields colon before := by
  rw [pathPrefix]
  split
  · rw [‹before = []›]
  · exact Layered.fields_append_sep_nil before

theorem rdropWhile_follows {x y : List UInt8} {new : List (List UInt8)} (h : Follows x new y) :
    y.rdropWhile isColon = (x ++ joined colon new).rdropWhile isColon := by
  rcases h with rfl | rfl
  · rcases eq_or_ne new [] with rfl | hne
    · rfl
    · rw [← Layered.joined_append_sep hne, ← List.append_assoc,
        List.rdropWhile_concat_pos _ _ _ (by decide)]
  · rfl

variable {env : RedEnv} {junk : Buffer UInt8} {node : Option ExpandCtx}

theorem addSeparator_run {maxlen : Nat} {s : Output} (hs : s.idxOut < maxlen) :
    ∃ s', addSeparator maxlen s = .ok () s' ∧ s'.idxOut ≤ maxlen ∧
      slice s'.outputS 0 s'.idxOut = pathPrefix (slice s.outputS 0 s.idxOut) := by
  by_cases hpos : 0 < s.idxOut
  · have hne : slice s.outputS 0 s.idxOut ≠ [] := by
      rw [ne_eq, slice_eq_nil_iff]
      omega
    refine ⟨⟨Buffer.writeAll s.outputS s.idxOut [colon], s.idxOut + 1⟩, ?_, hs, ?_⟩
    · rw [addSeparator, get_bind, if_pos hpos,
        bind_of_ok (storeOutput_eq (by simpa using Nat.succ_le_of_lt hs) s)]
      rfl
    · rw [pathPrefix, if_neg hne]
      exact Layered.Buffer.slice_writeAll_one (Nat.zero_le _)
  · have hnil : slice s.outputS 0 s.idxOut = [] := Layered.Buffer.slice_eq_nil (by omega)
    refine ⟨s, by rw [addSeparator, get_bind, if_neg hpos]; rfl, Nat.le_of_lt hs, ?_⟩
    rw [hnil]
    rfl

/-- What the loops and the removal of the trailing colons leave. -/
theorem dedupPaths_appended {s s' : Output} {before t : List UInt8}
    (hstart : slice s.outputS 0 s.idxOut = pathPrefix before) (hwrote : Wrote s t s') :
    let found := dedupPaths s'.outputS s.idxOut s.idxOut s'.idxOut
    slice found.1 0 (stripColons found.1 found.2) = appended before t := by
  have hle : s.idxOut ≤ s'.idxOut := by
    rw [hwrote.idxOut]
    exact Nat.le_add_right _ _
  have hsplit := Layered.Buffer.slice_append (b := s'.outputS) (Nat.zero_le s.idxOut) hle
  rw [hwrote.outputS, hstart] at hsplit
  have hlen : (slice s'.outputS 0 s.idxOut).length = (pathPrefix before).length := by
    rw [Layered.Buffer.length_slice, ← hstart, Layered.Buffer.length_slice]
  obtain ⟨hfront, htext⟩ := List.append_inj hsplit hlen
  obtain ⟨new, hfound, hfollows⟩ := dedupPaths_new s'.outputS (Nat.le_refl s.idxOut) hle
    (hfront ▸ closed_pathPrefix before)
  rw [hfront, htext, fields_pathPrefix, Layered.foldl_addNew] at hfound
  rw [hfront] at hfollows
  dsimp only
  rw [stripColons_eq, rdropWhile_follows hfollows, appended, newPaths,
    List.append_cancel_left hfound]

theorem dedupPaths_le (outputS : Buffer UInt8) {idxwr idxrd idxend : Nat} (hwr : idxwr ≤ idxrd)
    (hrd : idxrd ≤ idxend) : (dedupPaths outputS idxwr idxrd idxend).2 ≤ idxend := by
  fun_induction dedupPaths outputS idxwr idxrd idxend with
  | case1 outputS idxwr idxrd hlt start idxse hnew copied ih =>
    obtain ⟨hle, hstart, -, -⟩ := Layered.Buffer.scan_spec isColon outputS hrd
    obtain ⟨h₁, h₂, -, -⟩ := copyElement_spec outputS (Nat.le_trans hwr hle) hstart
    exact ih h₁ h₂
  | case2 outputS idxwr idxrd hlt start idxse hfound ih =>
    obtain ⟨hle, hstart, -, -⟩ := Layered.Buffer.scan_spec isColon outputS hrd
    obtain ⟨h₂, -⟩ := skipElement_spec outputS hstart
    have hskip := lt_skipElement outputS (scan isColon outputS idxend idxrd) idxend
    exact ih (Nat.le_trans (Nat.le_trans hwr hle) hskip.1) h₂
  | case3 outputS idxwr idxrd hlt => exact Nat.le_trans hwr hrd

theorem stripColons_le (outputS : Buffer UInt8) (n : Nat) : stripColons outputS n ≤ n := by
  induction n with
  | zero => exact Nat.le_refl _
  | succ n ih =>
    rw [stripColons]
    split
    · exact Nat.le_succ_of_le ih
    · exact Nat.le_refl _

theorem length_appended_le (before t : List UInt8) :
    (appended before t).length ≤ (pathPrefix before).length + t.length := by
  let s : Output := ⟨Buffer.writeAll (fun _ => 0) 0 (pathPrefix before), (pathPrefix before).length⟩
  let s' : Output := ⟨Buffer.writeAll s.outputS s.idxOut t, s.idxOut + t.length⟩
  have hstart : slice s.outputS 0 s.idxOut = pathPrefix before := by
    have h := Layered.Buffer.slice_writeAll (fun _ => (0 : UInt8)) 0 (pathPrefix before)
    rwa [Nat.zero_add] at h
  have hwrote : Wrote s t s' := ⟨rfl, Layered.Buffer.slice_writeAll_append (Nat.zero_le _)⟩
  have hleft := congrArg List.length (dedupPaths_appended hstart hwrote)
  rw [Layered.Buffer.length_slice, Nat.sub_zero] at hleft
  rw [← hleft]
  exact Nat.le_trans (stripColons_le _ _)
    (dedupPaths_le s'.outputS (Nat.le_refl _) (Nat.le_add_right _ _))

abbrev ExpandOutcome := Layered.Expansion.Produced UInt8 ExpandFault

/-- What appending a text ends with. -/
def appendOutcome (maxlen : Nat) (before : List UInt8) (o : ExpandOutcome) : ExpandOutcome :=
  o.andThen fun t =>
    if (appended before t).length < maxlen then .done (appended before t) else .stop .outside

/-- The run ends like the outcome, and what it leaves is a text with its zero. -/
def Leaves (x : OutputM Bool) (o : ExpandOutcome) (s : Output) : Prop :=
  match o with
  | .done t => ∃ s', x s = .ok true s' ∧ s'.idxOut = t.length ∧
      slice s'.outputS 0 s'.idxOut = t ∧ s'.outputS s'.idxOut = 0
  | .error => ∃ s', x s = .ok false s'
  | .deep => ∃ s', x s = .error .deep s'
  | .stop f => ∃ s', x s = .error (.fault f) s'

theorem Leaves.of_eq {x y : OutputM Bool} {o : ExpandOutcome} {s s' : Output}
    (h : Leaves y o s') (hxy : x s = y s') : Leaves x o s := by
  unfold Leaves at h ⊢
  rwa [hxy]

theorem appendText_leaves {maxlen : Nat} {s s' : Output} {before t : List UInt8}
    (hstart : slice s.outputS 0 s.idxOut = pathPrefix before) (hwrote : Wrote s t s')
    (hmax : s'.idxOut ≤ maxlen) :
    Leaves (match dedupWithin maxlen s'.outputS s.idxOut s.idxOut s'.idxOut with
      | none => throw (.fault .outside)
      | some (outputS, idxwr) => do
        set (⟨outputS, stripColons outputS idxwr⟩ : Output)
        storeOutput maxlen (stripColons outputS idxwr) [0]
        pure true) (appendOutcome maxlen before (.done t)) s' := by
  have hle : s.idxOut ≤ s'.idxOut := by
    rw [hwrote.idxOut]
    exact Nat.le_add_right _ _
  have hleft := dedupPaths_appended hstart hwrote
  rw [dedupWithin_eq s'.outputS (Nat.le_refl _) hle hmax, appendOutcome,
    Layered.Expansion.Produced.andThen_done]
  generalize dedupPaths s'.outputS s.idxOut s.idxOut s'.idxOut = found at hleft
  dsimp only at hleft ⊢
  have hlen : stripColons found.1 found.2 = (appended before t).length := by
    rw [← hleft, Layered.Buffer.length_slice, Nat.sub_zero]
  have hset : ∀ f : OutputM Bool, (do set (⟨found.1, stripColons found.1 found.2⟩ : Output); f) s' =
      f ⟨found.1, stripColons found.1 found.2⟩ := fun _ => rfl
  by_cases hfits : (appended before t).length < maxlen
  · rw [if_pos hfits]
    refine ⟨_, (hset _).trans (bind_of_ok (storeOutput_eq (by simp; omega) _)), hlen, ?_, ?_⟩
    · dsimp only
      rw [Layered.Buffer.slice_writeAll_of_le (Nat.le_refl _)]
      exact hleft
    · dsimp only
      exact Layered.Buffer.writeAll_apply _ _ 0 [0]
  · have hstore : storeOutput maxlen (stripColons found.1 found.2) [0] =
        (throw (.fault .outside) : OutputM Unit) := by
      rw [storeOutput, if_neg (by simp; omega)]
    rw [if_neg hfits]
    refine ⟨⟨found.1, stripColons found.1 found.2⟩, (hset _).trans (bind_of_error ?_)⟩
    rw [hstore]
    rfl

/-- **Appending**: the outcome of the expansion behind the separator decides how it ends. -/
theorem redConfAppendExpandedPath_leaves (depth : Nat) (inputS : CStr) {maxlen : Nat} {s : Output}
    (hs : s.idxOut < maxlen) :
    Leaves (redConfAppendExpandedPath env junk node depth inputS maxlen)
      (appendOutcome maxlen (slice s.outputS 0 s.idxOut)
        (eval (language env node false) depth false (tokensFrom inputS.bytes 0)
          (maxlen - (pathPrefix (slice s.outputS 0 s.idxOut)).length))) s := by
  obtain ⟨s₁, hsep, hmax, hstart⟩ := addSeparator_run hs
  have hlen : (pathPrefix (slice s.outputS 0 s.idxOut)).length = s₁.idxOut := by
    rw [← hstart, Layered.Buffer.length_slice, Nat.sub_zero]
  have hagrees := @defaultsExpand_agrees env node junk depth inputS maxlen 0 s₁ hmax
  rw [hlen]
  have hrun : redConfAppendExpandedPath env junk node depth inputS maxlen s = (do
      if ← defaultsExpand env junk node depth inputS.bytes maxlen 0 then do
        let s ← get
        match dedupWithin maxlen s.outputS s₁.idxOut s₁.idxOut s.idxOut with
        | none => throw (.fault .outside)
        | some (outputS, idxwr) => do
          set (⟨outputS, stripColons outputS idxwr⟩ : Output)
          storeOutput maxlen (stripColons outputS idxwr) [0]
          pure true
      else pure false : OutputM Bool) s₁ := by
    rw [redConfAppendExpandedPath, get_bind, if_neg (Nat.not_le.mpr hs), bind_of_ok hsep, get_bind]
  refine Leaves.of_eq ?_ hrun
  change Agrees _ (eval (language env node false) depth false _ _) s₁ at hagrees
  cases hout : eval (language env node false) depth false (tokensFrom inputS.bytes 0)
      (maxlen - s₁.idxOut) with
  | done t =>
    rw [hout] at hagrees
    obtain ⟨s₂, hexpand, hwrote⟩ := hagrees
    have hfits : t.length ≤ maxlen - s₁.idxOut := (eval_sound hout).length_le
    refine (appendText_leaves hstart hwrote (by rw [hwrote.idxOut]; omega)).of_eq ?_
    rw [bind_of_ok hexpand, if_pos rfl, get_bind]
  | error =>
    rw [hout] at hagrees
    obtain ⟨s₂, hexpand⟩ := hagrees
    exact ⟨s₂, bind_of_ok hexpand⟩
  | deep =>
    rw [hout] at hagrees
    obtain ⟨s₂, hexpand⟩ := hagrees
    exact ⟨s₂, bind_of_error hexpand⟩
  | stop f =>
    rw [hout] at hagrees
    obtain ⟨s₂, hexpand⟩ := hagrees
    exact ⟨s₂, bind_of_error hexpand⟩

end Stored
end Conf
end RedPak
