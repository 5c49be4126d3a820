import RedPak.Cgroup.Controllers

/-!
# Cgroup.ControllerWords

The words of `cgroup.controllers`, whatever the file holds. `get_effective_controllers` compares a
name with as many bytes as the word has, so a word that is the start of a name is taken for it.

* `readControllers_eq`: only bytes that were read are looked at.
* `bit_scanControllers`: which bits are set.
* `namesRead_iff`: for which contents these are the controllers that are named.
-/

namespace RedPak
namespace Cgroup

open Conf Layered

/-! ## Reads -/

/-- A loop over the bytes that were read. `none`: one is looked at that was not. -/
def scanRead (p : UInt8 → Bool) (bytes : List UInt8) (pos : Nat) : Option { n : Nat // pos ≤ n } :=
  if pos < bytes.length then
    match bytes[pos]? with
    | none => none
    | some b =>
      if p b then (scanRead p bytes (pos + 1)).map fun n => ⟨n.1, Nat.le_of_succ_le n.2⟩
      else some ⟨pos, Nat.le_refl pos⟩
  else some ⟨pos, Nat.le_refl pos⟩
termination_by bytes.length - pos

/-- The bytes that `strncmp` is given. -/
def readWord (bytes : List UInt8) (start stop : Nat) : Option (List UInt8) :=
  if stop ≤ bytes.length then some ((bytes.take stop).drop start) else none

/-- The loop of `get_effective_controllers` over the bytes that were read. -/
def readControllers (bytes : List UInt8) (pos : Nat) (result : Ctrlmask) : Option Ctrlmask :=
  if pos < bytes.length then
    (scanRead blank bytes pos).bind fun start =>
      (scanRead (!blank ·) bytes start.1).bind fun stop =>
        if start.1 < stop.1 then
          (readWord bytes start.1 stop.1).bind fun word =>
            readControllers bytes (stop.1 + 1) (addController result word)
        else readControllers bytes (stop.1 + 1) result
  else some result
termination_by bytes.length - pos
decreasing_by
  · have _hstart := start.2
    have _hstop := stop.2
    omega
  · have _hstart := start.2
    have _hstop := stop.2
    omega

/-- The buffer that `read` has filled. -/
def filled (bytes : List UInt8) : Buffer UInt8 := Buffer.writeAll (fun _ => 0) 0 bytes

theorem filled_slice (bytes : List UInt8) : (filled bytes).slice 0 bytes.length = bytes := by
  rw [filled]
  simpa using Buffer.slice_writeAll (fun _ => 0) 0 bytes

theorem getElem?_filled {bytes : List UInt8} {pos : Nat} (h : pos < bytes.length) :
    bytes[pos]? = some (filled bytes pos) := by
  have hget := Buffer.getElem?_slice (b := filled bytes) (i := 0) (j := bytes.length) pos (by omega)
  rwa [filled_slice, Nat.zero_add] at hget

theorem scanRead_eq (p : UInt8 → Bool) (bytes : List UInt8) (pos : Nat) :
    scanRead p bytes pos =
      some ⟨(filled bytes).scan p bytes.length pos, Buffer.le_scan p (filled bytes) _ pos⟩ := by
  fun_induction scanRead p bytes pos with
  | case1 pos hlt hnone =>
    rw [getElem?_filled hlt] at hnone
    cases hnone
  | case2 pos hlt b hb hp ih =>
    obtain rfl := Option.some.inj (hb.symm.trans (getElem?_filled hlt))
    rw [ih, Option.map_some]
    congr 2
    conv_rhs => rw [Buffer.scan, if_pos ⟨hlt, hp⟩]
  | case3 pos hlt b hb hp =>
    obtain rfl := Option.some.inj (hb.symm.trans (getElem?_filled hlt))
    congr 2
    rw [Buffer.scan, if_neg fun h => hp h.2]
  | case4 pos hge =>
    congr 2
    rw [Buffer.scan, if_neg fun h => hge h.1]

theorem readWord_eq {bytes : List UInt8} {start stop : Nat} (h : stop ≤ bytes.length) :
    readWord bytes start stop = some ((filled bytes).slice start stop) := by
  have hall := congrArg (fun l => (l.take stop).drop start) (filled_slice bytes)
  rw [Buffer.take_slice _ _ (by omega), Nat.zero_add, Buffer.drop_slice, Nat.zero_add] at hall
  rw [readWord, if_pos h, hall]

/-- **No index** is behind the bytes that were read. -/
theorem readControllers_eq (bytes : List UInt8) (pos : Nat) (result : Ctrlmask) :
    readControllers bytes pos result =
      some (scanControllers (filled bytes) bytes.length pos result) := by
  fun_induction scanControllers (filled bytes) bytes.length pos result with
  | case1 pos result hlt start stop ih =>
    obtain ⟨-, hstart, -, -⟩ := Buffer.scan_spec blank (filled bytes) (Nat.le_of_lt hlt)
    obtain ⟨-, hstop, -, -⟩ := Buffer.scan_spec (!blank ·) (filled bytes) hstart
    rw [readControllers, if_pos hlt, scanRead_eq, Option.bind_some, scanRead_eq, Option.bind_some]
    simp only [dite_eq_ite] at ih
    by_cases hword : start < stop
    · rw [if_pos hword] at ih
      rw [if_pos hword, readWord_eq hstop, Option.bind_some, if_pos hword]
      exact ih
    · rw [if_neg hword] at ih
      rw [if_neg hword, if_neg hword]
      exact ih
  | case2 pos result hge => rw [readControllers, if_neg hge]

/-! ## Which bits are set -/

/-- `strncmp` with a word finds a name that starts with the word. -/
theorem strncmp_eq_zero {name : CStr} {word : List UInt8} (h : (0 : UInt8) ∉ word) :
    strncmp name word word.length = 0 ↔ word <+: name.bytes := by
  have htake : (0 : UInt8) ∉ name.bytes.take word.length :=
    fun hmem => name.nulFree (List.mem_of_mem_take hmem)
  rw [strncmp, List.take_length, cmpBytes_eq_zero htake h, List.prefix_iff_eq_take]
  exact eq_comm

/-- The word is the start of a name, and of no name behind it in the table. -/
def TakenFor (word : List UInt8) (i : Nat) : Prop :=
  (∃ name, ctrlnames[i]? = some name ∧ word <+: name.bytes) ∧
    ∀ j name, i < j → ctrlnames[j]? = some name → ¬ word <+: name.bytes

theorem findController_iff {word : List UInt8} (h : (0 : UInt8) ∉ word) {n : Nat}
    (hn : n ≤ ctrlnames.length) (i : Nat) : findController word n = some i ↔
      (∃ name, ctrlnames[i]? = some name ∧ word <+: name.bytes) ∧ i < n ∧
        ∀ j name, i < j → j < n → ctrlnames[j]? = some name → ¬ word <+: name.bytes := by
  induction n with
  | zero => exact ⟨fun hfind => (by cases hfind), fun hall => (by omega)⟩
  | succ n ih =>
    have hget : ctrlnames[n]? = some ctrlnames[n] := List.getElem?_eq_getElem hn
    rw [findController, hget]
    dsimp only
    by_cases hprefix : word <+: (ctrlnames[n]).bytes
    · rw [if_neg (not_not_intro ((strncmp_eq_zero h).mpr hprefix)), Option.some.injEq]
      constructor
      · rintro rfl
        exact ⟨⟨_, hget, hprefix⟩, Nat.lt_succ_self n, fun j _ hlt hle => by omega⟩
      · rintro ⟨-, hlt, hlast⟩
        by_contra hne
        exact hlast n _ (by omega) (Nat.lt_succ_self n) hget hprefix
    · rw [if_pos fun hzero => hprefix ((strncmp_eq_zero h).mp hzero), ih (Nat.le_of_succ_le hn)]
      constructor
      · rintro ⟨hname, hlt, hlast⟩
        refine ⟨hname, by omega, fun j name hij hj hjname => ?_⟩
        rcases Nat.lt_succ_iff_lt_or_eq.mp hj with hj | rfl
        · exact hlast j name hij hj hjname
        · obtain rfl := Option.some.inj (hget.symm.trans hjname)
          exact hprefix
      · rintro ⟨⟨name, hname, hword⟩, hlt, hlast⟩
        refine ⟨⟨name, hname, hword⟩, ?_, fun j name hij hj => hlast j name hij (by omega)⟩
        rcases Nat.lt_succ_iff_lt_or_eq.mp hlt with hlt | rfl
        · exact hlt
        · obtain rfl := Option.some.inj (hget.symm.trans hname)
          exact absurd hword hprefix

theorem findController_eq_some {word : List UInt8} (h : (0 : UInt8) ∉ word) {i : Nat} :
    findController word ctrlnames.length = some i ↔ TakenFor word i := by
  rw [findController_iff h (Nat.le_refl _)]
  constructor
  · rintro ⟨hname, -, hlast⟩
    refine ⟨hname, fun j name hij hj => hlast j name hij ?_ hj⟩
    exact (List.getElem?_eq_some_iff.mp hj).1
  · rintro ⟨⟨name, hname, hword⟩, hlast⟩
    exact ⟨⟨name, hname, hword⟩, (List.getElem?_eq_some_iff.mp hname).1,
      fun j name hij _ => hlast j name hij⟩

theorem lt_of_takenFor {word : List UInt8} {i : Nat} (h : TakenFor word i) : i < 32 := by
  obtain ⟨⟨_, hname, -⟩, -⟩ := h
  exact Nat.lt_trans (List.getElem?_eq_some_iff.mp hname).1 (by decide)

theorem bit_or (result : Ctrlmask) {idx : Nat} (hidx : idx < 32) (i : Nat) :
    (result ||| 1#32 <<< idx).getLsbD i = true ↔ result.getLsbD i = true ∨ idx = i := by
  rw [BitVec.getLsbD_or, Bool.or_eq_true, BitVec.getLsbD_shiftLeft, BitVec.getLsbD_one]
  by_cases h : idx = i
  · subst h
    simp [hidx]
  · rcases Nat.lt_or_gt_of_ne h with hlt | hgt
    · have hpos : ¬ i - idx = 0 := by omega
      simp [h, hpos]
    · simp [h, hgt]

theorem bit_addController {word : List UInt8} (h : (0 : UInt8) ∉ word) (result : Ctrlmask)
    (i : Nat) : (addController result word).getLsbD i = true ↔
      result.getLsbD i = true ∨ TakenFor word i := by
  rw [addController]
  cases hfind : findController word ctrlnames.length with
  | none =>
    refine ⟨.inl, fun hor => hor.resolve_right fun htaken => ?_⟩
    rw [(findController_eq_some h).mpr htaken] at hfind
    cases hfind
  | some idx =>
    dsimp only
    have htaken := (findController_eq_some h).mp hfind
    rw [bit_or result (lt_of_takenFor htaken)]
    refine or_congr Iff.rfl ⟨?_, fun hi => ?_⟩
    · rintro rfl
      exact htaken
    · exact Option.some.inj (hfind.symm.trans ((findController_eq_some h).mpr hi))

theorem bit_foldl {ws : List (List UInt8)} (h : ∀ w ∈ ws, (0 : UInt8) ∉ w) (i : Nat) :
    ∀ result : Ctrlmask, (ws.foldl addController result).getLsbD i = true ↔
      result.getLsbD i = true ∨ ∃ w ∈ ws, TakenFor w i := by
  induction ws with
  | nil =>
    intro result
    simp
  | cons w ws ih =>
    intro result
    rw [List.foldl_cons, ih fun v hv => h v (List.mem_cons_of_mem w hv),
      bit_addController (h w List.mem_cons_self), or_assoc]
    simp

theorem nulFree_of_mem_words {text w : List UInt8} (h : w ∈ words blank text) :
    (0 : UInt8) ∉ w := fun hzero => by
  have hfree := (mem_words_iff.mp h).1.free 0 hzero
  cases hfree

/-- **The bits** of what is read: the names that the words are taken for. -/
theorem bit_scanControllers (bytes : List UInt8) (i : Nat) :
    (scanControllers (filled bytes) bytes.length 0 0).getLsbD i = true ↔
      ∃ w ∈ words blank bytes, TakenFor w i := by
  rw [scanControllers_eq, filled_slice, bit_foldl fun w => nulFree_of_mem_words]
  simp

/-! ## The controllers that are named -/

/-- A control character or a blank. -/
def separator (b : UInt8) : Bool := b ≤ 0x20

theorem blank_of_separator (b : UInt8) (h : separator b = true) : blank b = true := by
  rw [blank, Bool.or_eq_true]
  exact .inl h

/-- All that is looked at has been read, and a bit is set if and only if the name of its
controller is a word. -/
def NamesRead (bytes : List UInt8) : Prop :=
  ∃ mask, readControllers bytes 0 0 = some mask ∧ ∀ i, mask.getLsbD i = true ↔
    ∃ name, ctrlnames[i]? = some name ∧ name.bytes ∈ words separator bytes

/-- What is taken for a name is there as a word too. -/
def WholeNames (bytes : List UInt8) : Prop :=
  ∀ w ∈ words blank bytes, ∀ i, TakenFor w i →
    ∀ name, ctrlnames[i]? = some name → name.bytes ∈ words separator bytes

theorem takenFor_self : ∀ i name, ctrlnames[i]? = some name → TakenFor name.bytes i := by
  have hlast : ∀ i < ctrlnames.length, ∀ j < ctrlnames.length, i < j →
      ¬ (ctrlnames.getD i (.lit "")).bytes <+: (ctrlnames.getD j (.lit "")).bytes := by
    decide
  intro i name hname
  refine ⟨⟨name, hname, List.prefix_rfl⟩, fun j other hij hother => ?_⟩
  have hlt := hlast i (List.getElem?_eq_some_iff.mp hname).1 j
    (List.getElem?_eq_some_iff.mp hother).1 hij
  rwa [List.getD_eq_getElem?_getD, hname, List.getD_eq_getElem?_getD, hother] at hlt

theorem mem_words_blank {bytes : List UInt8} {i : Nat} {name : CStr}
    (hname : ctrlnames[i]? = some name) (h : name.bytes ∈ words separator bytes) :
    name.bytes ∈ words blank bytes := by
  have hgraphic : (ctrlnames.all fun name => name.bytes.all fun b => !blank b) = true := by decide
  have hblank : ∀ b ∈ name.bytes, blank b = false := fun b hb => by
    have hname' := List.all_eq_true.mp hgraphic name (List.mem_of_getElem? hname)
    simpa using List.all_eq_true.mp hname' b hb
  exact mem_words_mono blank_of_separator hblank h

/-- **The words of the controllers** are found, and no other ones, if and only if every word that is
the start of a name is taken for a controller that is named. -/
theorem namesRead_iff (bytes : List UInt8) : NamesRead bytes ↔ WholeNames bytes := by
  constructor
  · rintro ⟨mask, hread, hbits⟩ w hw i htaken name hname
    obtain rfl := Option.some.inj ((readControllers_eq bytes 0 0).symm.trans hread)
    obtain ⟨name', hname', hword⟩ :=
      (hbits i).mp ((bit_scanControllers bytes i).mpr ⟨w, hw, htaken⟩)
    obtain rfl := Option.some.inj (hname.symm.trans hname')
    exact hword
  · intro hwhole
    refine ⟨_, readControllers_eq bytes 0 0, fun i => ?_⟩
    rw [bit_scanControllers]
    constructor
    · rintro ⟨w, hw, htaken⟩
      obtain ⟨name, hname, -⟩ := htaken.1
      exact ⟨name, hname, hwhole w hw i htaken name hname⟩
    · rintro ⟨name, hname, hword⟩
      exact ⟨name.bytes, mem_words_blank hname hword, takenFor_self i name hname⟩

/-- The start of a name is read as the name. -/
theorem start_read : ¬ NamesRead (CStr.lit "cpus\n").bytes := by
  rintro ⟨mask, hread, hbits⟩
  obtain rfl := Option.some.inj ((readControllers_eq _ 0 0).symm.trans hread)
  have hword : (CStr.lit "cpus").bytes ∈ words blank (CStr.lit "cpus\n").bytes := by decide
  have htaken : TakenFor (CStr.lit "cpus").bytes 0 := by
    rw [← findController_eq_some (by decide)]
    decide
  obtain ⟨name, hname, hmem⟩ := (hbits 0).mp ((bit_scanControllers _ 0).mpr ⟨_, hword, htaken⟩)
  obtain rfl := Option.some.inj hname
  exact absurd hmem (by decide)

end Cgroup
end RedPak
