import Mathlib.Data.List.Flatten
import RedPak.Cgroup.Kernel
import RedPak.Layered.Words

/-!
# Cgroup.Controllers

The controllers of a cgroup: reading what is available (`get_effective_controllers`), enabling for
the children (`add_required_subcontrollers`) and both together, from the bottom up
(`ensure_required_controllers`).

* `scanControllers_text`: what is read is what is available.
* `subcontrollers_text`: what is written enables the controllers of the mask.
* `ensureRequiredControllers_spec`: after a success all of the mask is available and enabled.
-/

namespace RedPak
namespace Cgroup

open Conf Layered Layered.Action

/-! ## Masks -/

/-- `ctrlmask_t` -/
abbrev Ctrlmask := BitVec 32

/-- `1u << id` -/
def Ctrlid.bit (c : Ctrlid) : Ctrlmask := 1#32 <<< c.id

def Ctrlmask.has (mask : Ctrlmask) (c : Ctrlid) : Bool := mask.getLsbD c.id

/-- Only bits of controllers are set. -/
def Ctrlmask.Known (mask : Ctrlmask) : Prop := ∀ i, mask.getLsbD i = true → ∃ c : Ctrlid, c.id = i

/-! ## Reading -/

/-- `MAX_CTRL_SIZE` -/
def maxCtrlSize : Nat := 300

/-- `buffer[pos] <= ' '`, where `char` is signed (as on x86-64; on aarch64 it is not) -/
def blank (b : UInt8) : Bool := b ≤ 0x20 || 0x80 ≤ b

/-- `strncmp` of a string with a word of a buffer. -/
def strncmp (a : CStr) (word : List UInt8) (n : Nat) : Int :=
  cmpBytes (a.bytes.take n) (word.take n)

/-- `while (idx-- && strncmp(ctrlnames[idx], word, len) != 0);` -/
def findController (word : List UInt8) : Nat → Option Nat
  | 0 => none
  | idx + 1 =>
    match ctrlnames[idx]? with
    | some name => if strncmp name word word.length ≠ 0 then findController word idx else some idx
    | none => none

def addController (result : Ctrlmask) (word : List UInt8) : Ctrlmask :=
  match findController word ctrlnames.length with
  | some idx => result ||| 1#32 <<< idx
  | none => result

/-- The loop of `get_effective_controllers` over the `sz` bytes that were read. -/
def scanControllers (buffer : Buffer UInt8) (sz pos : Nat) (result : Ctrlmask) : Ctrlmask :=
  if pos < sz then
    let start := buffer.scan blank sz pos
    let stop := buffer.scan (!blank ·) sz start
    scanControllers buffer sz (stop + 1)
      (if start < stop then addController result (buffer.slice start stop) else result)
  else result
termination_by sz - pos
decreasing_by
  have h₁ := Buffer.le_scan blank buffer sz pos
  have h₂ := Buffer.le_scan (!blank ·) buffer sz (buffer.scan blank sz pos)
  omega

variable (k : Kernel)

def getEffectiveControllers (dfd : Dir) : Sys Ctrlmask := do
  let text ← k.readEntry dfd .controllers (k.controllersText · dfd)
  let buffer := text.take maxCtrlSize
  pure (scanControllers (Buffer.writeAll (fun _ => 0) 0 buffer) buffer.length 0 0)

/-! ## Enabling -/

/-- The loop of `add_required_subcontrollers`: the names of the bits from `idx` on, each behind a
plus. `none`: a bit has no name. -/
def subcontrollers (idx : Nat) (mask : Ctrlmask) (buffer : List UInt8) :
    List CStr → Option (List UInt8)
  | [] => if mask = 0 then some buffer else none
  | name :: names =>
    if mask = 0 then some buffer
    else if mask.getLsbD idx then
      subcontrollers (idx + 1) (mask ^^^ 1#32 <<< idx)
        (buffer ++ (if buffer = [] then [] else [space]) ++ plus :: name.bytes) names
    else subcontrollers (idx + 1) mask buffer names

def addRequiredSubcontrollers (dfd : Dir) (mask : Ctrlmask) : Sys Int :=
  match subcontrollers 0 mask [] ctrlnames with
  | none => throw .fault
  | some buffer =>
    if buffer = [] then pure 0
    else k.writeEntry dfd .subtreeControl (some (.ofBytes buffer))

/-- A negative result ends the caller too. -/
def check (rc : Int) : Sys Unit := if rc < 0 then throw .failed else pure ()

/-- Activates missing controllers on the parent, if `..` can be opened. -/
def ensureMissing (parent : Option (Ctrlmask → Sys Unit)) (missing : Ctrlmask) : Sys Unit :=
  if missing = 0 then pure ()
  else
    match parent with
    | none => throw .failed
    | some ensureParent => ensureParent missing

/-- `ensure_required_controllers`, given what it does for the parent. -/
def ensureWith (parent : Option (Ctrlmask → Sys Unit)) (dfd : Dir) (expected : Ctrlmask) :
    Sys Unit := do
  let current ← getEffectiveControllers k dfd
  ensureMissing parent (expected &&& ~~~current)
  let rc ← addRequiredSubcontrollers k dfd expected
  check rc

/-- The parent of a directory is the one that `..` opens. The root is its own parent. -/
def ensureRequiredControllers : Dir → Ctrlmask → Sys Unit
  | [], expected => ensureWith k (some fun _ => throw .endless) [] expected
  | n :: up, expected =>
    ensureWith k (if k.denied (n :: up) ∨ k.denied up then none
      else some (ensureRequiredControllers up)) (n :: up) expected

/-! ## What is read -/

variable {k : Kernel} {t : Tree} {d : Dir} {w : World} {mask : Ctrlmask}

theorem Ctrlid.id_inj {a b : Ctrlid} (h : a.id = b.id) : a = b := by
  cases a <;> cases b <;> first | rfl | (simp [Ctrlid.id] at h)

theorem Ctrlid.id_lt (c : Ctrlid) : c.id < 32 := by
  cases c <;> decide

theorem has_bit (a c : Ctrlid) : Ctrlmask.has a.bit c = decide (a = c) := by
  have hlt := c.id_lt
  by_cases h : a = c
  · subst h
    simp [Ctrlmask.has, Ctrlid.bit, hlt]
  · have hne : c.id ≠ a.id := fun e => h (Ctrlid.id_inj e).symm
    simp only [Ctrlmask.has, Ctrlid.bit, BitVec.getLsbD_shiftLeft, h, decide_false]
    rcases Nat.lt_or_gt_of_ne hne with hl | hl
    · simp [hl]
    · have : ¬ c.id - a.id = 0 := by omega
      simp [BitVec.getLsbD_one, this]

@[simp] theorem has_or (m m' : Ctrlmask) (c : Ctrlid) :
    Ctrlmask.has (m ||| m') c = (m.has c || m'.has c) := by
  simp [Ctrlmask.has]

@[simp] theorem has_zero (c : Ctrlid) : Ctrlmask.has 0#32 c = false := by
  simp [Ctrlmask.has]

theorem has_missing (m m' : Ctrlmask) (c : Ctrlid) :
    Ctrlmask.has (m &&& ~~~m') c = (m.has c && !m'.has c) := by
  simp [Ctrlmask.has, c.id_lt]

theorem Ctrlmask.Known.eq_zero_iff (h : mask.Known) : mask = 0 ↔ ∀ c, mask.has c = false := by
  constructor
  · rintro rfl c
    simp
  · intro hall
    ext i hi
    cases hm : mask.getLsbD i with
    | false => simpa [← BitVec.getLsbD_eq_getElem hi] using hm
    | true =>
      obtain ⟨c, rfl⟩ := h i hm
      exact absurd hm (by simpa [Ctrlmask.has] using hall c)

theorem Ctrlmask.Known.and (h : mask.Known) (m : Ctrlmask) : Ctrlmask.Known (mask &&& m) := by
  intro i hi
  simp only [BitVec.getLsbD_and, Bool.and_eq_true] at hi
  exact h i hi.1

theorem addController_name (result : Ctrlmask) (c : Ctrlid) :
    addController result c.name.bytes = result ||| c.bit := by
  have hfind : findController c.name.bytes ctrlnames.length = some c.id := by
    cases c <;> decide
  rw [addController, hfind]
  rfl

/-- The loop takes in the words of the buffer one by one. -/
theorem scanControllers_eq (buffer : Buffer UInt8) (sz pos : Nat) (result : Ctrlmask) :
    scanControllers buffer sz pos result =
      (words blank (buffer.slice pos sz)).foldl addController result := by
  fun_induction scanControllers buffer sz pos result with
  | case1 pos result hlt start stop ih =>
    simp only [dite_eq_ite] at ih
    rw [words_slice blank buffer hlt.le]
    dsimp only
    rw [ih]
    split
    · rfl
    · rename_i hstop
      obtain ⟨_, hstart, _, _⟩ := Buffer.scan_spec blank buffer hlt.le
      have hle := Buffer.le_scan (!blank ·) buffer sz start
      have hend : sz ≤ stop := by
        by_contra hlt'
        have heq : stop = start := by omega
        have h₁ := Buffer.scan_stops (p := blank) (b := buffer) (i := pos) (by omega : start < sz)
        have h₂ := Buffer.scan_stops (p := (!blank ·)) (by omega : stop < sz)
        change (!blank (buffer stop)) = false at h₂
        rw [heq, show blank (buffer start) = false from h₁] at h₂
        cases h₂
      rw [Buffer.slice_eq_nil (by omega)]
      rfl
  | case2 pos result hge =>
    rw [Buffer.slice_eq_nil (by omega)]
    rfl

theorem foldl_addController (cs : List Ctrlid) (result : Ctrlmask) (c : Ctrlid) :
    Ctrlmask.has ((cs.map (·.name.bytes)).foldl addController result) c =
      (result.has c || decide (c ∈ cs)) := by
  induction cs generalizing result with
  | nil => simp
  | cons a cs ih =>
    rw [List.map_cons, List.foldl_cons, addController_name, ih, has_or, has_bit, Bool.or_assoc]
    simp [eq_comm (a := a)]

theorem Ctrlid.isWord (c : Ctrlid) : IsWord blank c.name.bytes := by
  have hne : c.name.bytes ≠ [] := by
    cases c <;> decide
  have hfree : c.name.bytes.all (!blank ·) = true := by
    cases c <;> decide
  exact ⟨hne, fun b hb => by simpa using List.all_eq_true.mp hfree b hb⟩

theorem Ctrlid.mem_all (c : Ctrlid) : c ∈ Ctrlid.all := by
  cases c <;> simp [Ctrlid.all]

theorem length_controllersText : (k.controllersText t d).length ≤ maxCtrlSize := by
  have hsub := ((List.filter_sublist (p := k.available t d) (l := Ctrlid.all)).map
    (·.name.bytes)).flatMap fun w => w ++ [space]
  have hall : ((Ctrlid.all.map (·.name.bytes)).flatMap (· ++ [space])).length ≤ 60 := by decide
  have hlen : (joined space ((Ctrlid.all.filter (k.available t d)).map (·.name.bytes))).length ≤
      60 := by
    refine Nat.le_trans ?_ (Nat.le_trans hsub.length_le hall)
    rcases eq_or_ne ((Ctrlid.all.filter (k.available t d)).map (·.name.bytes)) [] with h | h
    · simp [h]
    · change _ ≤ (terminated space _).length
      rw [← joined_append_sep h]
      simp
  simp only [Kernel.controllersText, List.length_append, List.length_singleton, maxCtrlSize]
  omega

/-- What is read from `cgroup.controllers` is what is available. -/
theorem scanControllers_text (c : Ctrlid) :
    let text := (k.controllersText t d).take maxCtrlSize
    Ctrlmask.has (scanControllers (Buffer.writeAll (fun _ => 0) 0 text) text.length 0 0) c =
      k.available t d c := by
  intro text
  have htext : text = k.controllersText t d := List.take_of_length_le length_controllersText
  have hslice : (Buffer.writeAll (fun _ => 0) 0 text).slice 0 text.length = text := by
    simpa using Buffer.slice_writeAll (fun _ => 0) 0 text
  have hwords : words blank (k.controllersText t d) =
      (Ctrlid.all.filter (k.available t d)).map (·.name.bytes) := by
    rw [Kernel.controllersText, words_concat_sep (by decide), words_joined (by decide)]
    intro w hw
    obtain ⟨c, _, rfl⟩ := List.mem_map.mp hw
    exact c.isWord
  rw [scanControllers_eq, hslice, htext, hwords, foldl_addController]
  simp [Ctrlid.mem_all]

theorem getEffectiveControllers_spec {Q : Ctrlmask → World → Prop} {E : Stop → World → Prop}
    (hok : ∀ m : Ctrlmask, k.IsCgroup d → (∀ c, m.has c = k.available w.tree d c) →
      Q m ⟨w.tree, (w.tree, .read d .controllers) :: w.calls⟩)
    (hfail : E .failed ⟨w.tree, (w.tree, .read d .controllers) :: w.calls⟩) :
    wp (getEffectiveControllers k d) Q E w := by
  rw [getEffectiveControllers, wp_bind]
  exact wp_readEntry (fun hd => hok _ hd fun c => scanControllers_text c) hfail

/-! ## What is written -/

/-- The controllers in the order of `ctrlnames`. -/
def Ctrlid.table : List Ctrlid := [cpuset, cpu, memory, io, pids, misc, hugetlb, rdma]

theorem xor_bit {idx : Nat} (h : mask.getLsbD idx = true) (i : Nat) :
    (mask ^^^ 1#32 <<< idx).getLsbD i = (mask.getLsbD i && decide (i ≠ idx)) := by
  have hidx : idx < 32 := BitVec.lt_of_getLsbD h
  by_cases hi : i = idx
  · subst hi
    simp [h, hidx]
  · have hone : (1#32 <<< idx).getLsbD i = false := by
      rw [BitVec.getLsbD_shiftLeft, BitVec.getLsbD_one]
      rcases Nat.lt_or_gt_of_ne hi with hl | hl
      · simp [hl]
      · simp [show i - idx ≠ 0 by omega]
    simp [hi, hone]

theorem joined_step {ws : List (List UInt8)} (hws : ∀ w ∈ ws, IsField space w) (w : List UInt8) :
    joined space ws ++ (if joined space ws = [] then [] else [space]) ++ w =
      joined space (ws ++ [w]) := by
  rcases eq_or_ne ws [] with rfl | h
  · simp
  · have hne : joined space ws ≠ [] := fun e => h ((joined_eq_nil hws).mp e)
    rw [if_neg hne, joined_concat w h]
    simp

/-- The words that the loop writes are those of the bits of the mask. -/
theorem subcontrollers_eq {cs : List Ctrlid} {idx : Nat} {ws : List (List UInt8)}
    (hid : cs.map Ctrlid.id = List.range' idx cs.length)
    (hmask : ∀ i, mask.getLsbD i = true → i ∈ cs.map Ctrlid.id)
    (hws : ∀ w ∈ ws, IsField space w) :
    subcontrollers idx mask (joined space ws) (cs.map Ctrlid.name) =
      some (joined space (ws ++ (cs.filter mask.has).map fun c => plus :: c.name.bytes)) := by
  induction cs generalizing idx mask ws with
  | nil =>
    have hzero : mask = 0 := by
      ext i hi
      cases hm : mask.getLsbD i with
      | false => simpa [← BitVec.getLsbD_eq_getElem hi] using hm
      | true => cases hmask i hm
    simp [subcontrollers, hzero]
  | cons c cs ih =>
    simp only [List.map_cons, List.length_cons, List.range'_succ, List.cons.injEq] at hid
    obtain ⟨hc, hid⟩ := hid
    have hgt : ∀ a ∈ cs, idx < a.id := by
      intro a ha
      have := hid ▸ List.mem_map_of_mem (f := Ctrlid.id) ha
      rw [List.mem_range'_1] at this
      omega
    rw [List.map_cons, subcontrollers]
    split
    · rename_i hzero
      subst hzero
      have hnone : Ctrlmask.has 0#32 = fun _ => false := funext has_zero
      simp [hnone]
    split
    · rename_i hbit
      have hfilter : cs.filter (Ctrlmask.has (mask ^^^ 1#32 <<< idx)) = cs.filter mask.has := by
        refine List.filter_congr fun a ha => ?_
        have := hgt a ha
        simp [Ctrlmask.has, xor_bit hbit, show a.id ≠ idx by omega]
      have hfield : IsField space (plus :: c.name.bytes) :=
        ⟨List.cons_ne_nil _ _, by cases c <;> decide⟩
      rw [joined_step hws, ih hid, hfilter,
        List.filter_cons_of_pos (by rw [Ctrlmask.has, hc, hbit])]
      · simp
      · intro i hi
        rw [xor_bit hbit, Bool.and_eq_true, decide_eq_true_eq] at hi
        have := hmask i hi.1
        simp only [List.map_cons, List.mem_cons, hc] at this
        exact this.resolve_left hi.2
      · intro w hw
        rcases List.mem_append.mp hw with hw | hw
        · exact hws w hw
        · rw [List.mem_singleton.mp hw]
          exact hfield
    · rename_i hbit
      rw [ih hid, List.filter_cons_of_neg (by rw [Ctrlmask.has, hc]; exact hbit)]
      · intro i hi
        have := hmask i hi
        simp only [List.map_cons, List.mem_cons, hc] at this
        refine this.resolve_left ?_
        rintro rfl
        exact hbit hi
      · exact hws

theorem subcontrollers_text (h : mask.Known) :
    subcontrollers 0 mask [] ctrlnames =
      some (joined space ((Ctrlid.table.filter mask.has).map fun c => plus :: c.name.bytes)) := by
  refine @subcontrollers_eq mask Ctrlid.table 0 [] rfl (fun i hi => ?_) (by simp)
  obtain ⟨c, rfl⟩ := h i hi
  cases c <;> decide

theorem subcontrollers_bits {names : List CStr} {idx : Nat} {buffer text : List UInt8}
    (h : subcontrollers idx mask buffer names = some text) (i : Nat)
    (hi : mask.getLsbD i = true) : i < idx + names.length := by
  have hne : mask ≠ 0 := by
    rintro rfl
    simp at hi
  induction names generalizing idx mask buffer with
  | nil =>
    rw [subcontrollers, if_neg hne] at h
    cases h
  | cons name names ih =>
    rw [subcontrollers, if_neg hne] at h
    simp only [List.length_cons]
    split at h
    · rename_i hbit
      by_cases hidx : i = idx
      · omega
      · have hi' : (mask ^^^ 1#32 <<< idx).getLsbD i = true := by simp [xor_bit hbit, hi, hidx]
        have := ih h hi' (by rintro e; rw [e] at hi'; simp at hi')
        omega
    · have := ih h hi hne
      omega

/-- A bit without a controller is read beyond the table of names. -/
theorem subcontrollers_eq_none (h : ¬ mask.Known) : subcontrollers 0 mask [] ctrlnames = none := by
  cases hs : subcontrollers 0 mask [] ctrlnames with
  | none => rfl
  | some text =>
    refine absurd (fun i hi => ?_) h
    have hlt : i < 8 := by simpa [ctrlnames] using subcontrollers_bits hs i hi
    have hall : ∀ j < 8, ∃ c ∈ Ctrlid.table, c.id = j := by decide
    obtain ⟨c, _, hc⟩ := hall i hlt
    exact ⟨c, hc⟩

theorem Ctrlid.mem_table (c : Ctrlid) : c ∈ Ctrlid.table := by
  cases c <;> decide

/-- What the kernel takes from the text for some controllers. -/
theorem effect_subtreeControl {cs : List Ctrlid} {value : CStr}
    (h : value.bytes = joined space (cs.map fun c => plus :: c.name.bytes)) :
    k.effect t d .subtreeControl value =
      if cs.all (k.available t d) then some (t.enable d cs) else none := by
  have hfields : fields space value.bytes = cs.map fun c => plus :: c.name.bytes := by
    rw [h]
    refine fields_joined fun w hw => ?_
    obtain ⟨c, _, rfl⟩ := List.mem_map.mp hw
    exact ⟨List.cons_ne_nil _ _, by cases c <;> decide⟩
  have hmap : (cs.map fun c => plus :: c.name.bytes).mapM enabled = some cs := by
    clear h hfields
    induction cs with
    | nil => rfl
    | cons c cs ih =>
      have hc : enabled (plus :: c.name.bytes) = some c := by cases c <;> decide
      rw [List.map_cons, List.mapM_cons, hc, ih]
      rfl
  simp only [Kernel.effect, hfields, hmap]

/-- What enabling has done: nothing for an empty mask, else one write. -/
theorem addRequiredSubcontrollers_spec {Q : Int → World → Prop} {E : Stop → World → Prop}
    (hmask : mask.Known)
    (hzero : (∀ c, mask.has c = false) → Q 0 w)
    (hok : ∀ value cs, k.IsCgroup d → (∀ c, c ∈ cs ↔ mask.has c = true) →
      (∀ c ∈ cs, k.available w.tree d c = true) →
      Q 0 ⟨w.tree.enable d cs, (w.tree, .write d .subtreeControl value) :: w.calls⟩)
    (hfail : ∀ value, Q (-1) ⟨w.tree, (w.tree, .write d .subtreeControl value) :: w.calls⟩) :
    wp (addRequiredSubcontrollers k d mask) Q E w := by
  have hmem : ∀ c, c ∈ Ctrlid.table.filter mask.has ↔ mask.has c = true := fun c => by
    simp [Ctrlid.mem_table]
  have hfields : ∀ v ∈ (Ctrlid.table.filter mask.has).map fun c => plus :: c.name.bytes,
      IsField space v := by
    intro v hv
    obtain ⟨c, _, rfl⟩ := List.mem_map.mp hv
    exact ⟨List.cons_ne_nil _ _, by cases c <;> decide⟩
  simp only [addRequiredSubcontrollers, subcontrollers_text hmask, wp_ite]
  split
  · rename_i hnil
    refine hzero fun c => ?_
    have hempty := (joined_eq_nil hfields).mp hnil
    cases hc : mask.has c with
    | false => rfl
    | true =>
      have hmem' := (hmem c).mpr hc
      rw [List.map_eq_nil_iff.mp hempty] at hmem'
      cases hmem'
  · refine wp_writeEntry (fun t hd ht => ?_) (hfail _)
    have hbytes : (CStr.ofBytes (joined space
        ((Ctrlid.table.filter mask.has).map fun c => plus :: c.name.bytes))).bytes =
        joined space ((Ctrlid.table.filter mask.has).map fun c => plus :: c.name.bytes) := by
      refine List.takeWhile_eq_self_iff.mpr fun b hb => ?_
      rcases mem_joined hb with rfl | ⟨v, hv, hb⟩
      · decide
      · obtain ⟨c, _, rfl⟩ := List.mem_map.mp hv
        have hnul : (0 : UInt8) ∉ plus :: c.name.bytes := by cases c <;> decide
        simpa using fun e : b = 0 => hnul (e ▸ hb)
    rw [effect_subtreeControl hbytes] at ht
    split at ht
    · rename_i hall
      cases ht
      exact hok _ _ hd hmem fun c hc => List.all_eq_true.mp hall c hc
    · cases ht

/-! ## Both together -/

/-- From the cgroup upwards, what is available nowhere on the way is available in the last one. -/
inductive Kernel.Supplied (k : Kernel) (t : Tree) : Dir → (Ctrlid → Prop) → Dir → Prop where
  | here {d : Dir} {wanted : Ctrlid → Prop} (h : ∀ c, wanted c → k.available t d c = true) :
      k.Supplied t d wanted d
  | above {n : Name} {d up : Dir} {wanted : Ctrlid → Prop}
      (h : ∃ c, wanted c ∧ k.available t (n :: d) c = false)
      (hup : k.Supplied t d (fun c => wanted c ∧ k.available t (n :: d) c = false) up) :
      k.Supplied t (n :: d) wanted up

theorem ensureRequiredControllers_known {expected : Ctrlmask} (hknown : expected.Known)
    (hd : w.tree.dirs d = true) :
    wp (ensureRequiredControllers k d expected)
      (fun _ w' => w.tree.Grows w'.tree ∧
        (∀ c, expected.has c = true →
          k.available w'.tree d c = true ∧ w'.tree.subtreeControl d c = true) ∧
        ∃ up, k.Supplied w.tree d (fun c => expected.has c = true) up)
      (fun _ _ => True) w := by
  induction d generalizing expected w with
  | nil =>
    rw [ensureRequiredControllers, ensureWith, wp_bind]
    refine getEffectiveControllers_spec (fun m hcg _ => ?_) trivial
    exact absurd (List.suffix_nil.mp hcg) k.mountNe
  | cons n d ih =>
    rw [ensureRequiredControllers, ensureWith, wp_bind]
    refine getEffectiveControllers_spec (fun m hcg hm => ?_) trivial
    have hmissing : ∀ c, Ctrlmask.has (expected &&& ~~~m) c = true ↔
        expected.has c = true ∧ k.available w.tree (n :: d) c = false := fun c => by
      simp [has_missing, hm]
    -- what the parent has done, if anything was missing
    have hparent : wp (ensureMissing (if k.denied (n :: d) = true ∨ k.denied d = true then none
          else some (ensureRequiredControllers k d)) (expected &&& ~~~m))
        (fun _ w' => w.tree.Grows w'.tree ∧
          ∃ up, k.Supplied w.tree (n :: d) (fun c => expected.has c = true) up)
        (fun _ _ => True) ⟨w.tree, (w.tree, .read (n :: d) .controllers) :: w.calls⟩ := by
      unfold ensureMissing
      rw [wp_ite]
      split
      · rename_i hzero
        refine ⟨.refl _, n :: d, .here fun c hc => ?_⟩
        have hnone := (hmissing c).not.mp (by simp [hzero])
        simpa [hc] using hnone
      · rename_i hne
        split
        · trivial
        rename_i hsome
        split at hsome
        · cases hsome
        cases hsome
        refine wp_mono (ih (hknown.and _) (w.tree.closed n d hd)) ?_ (fun _ _ _ => trivial)
        rintro _ w' ⟨hgrows, _, up, hup⟩
        refine ⟨hgrows, up, .above ?_ (by simpa only [hmissing] using hup)⟩
        by_contra hno
        refine hne ((hknown.and _).eq_zero_iff.mpr fun c => ?_)
        cases hc : Ctrlmask.has (expected &&& ~~~m) c with
        | false => rfl
        | true => exact absurd ⟨c, (hmissing c).mp hc⟩ hno
    rw [wp_bind]
    refine wp_mono hparent ?_ (fun _ _ _ => trivial)
    rintro _ w' ⟨hgrows, hup⟩
    rw [wp_bind]
    refine addRequiredSubcontrollers_spec hknown (fun hzero => ?_) (fun value cs _ hcs hav => ?_)
      (fun value => trivial)
    · refine ⟨hgrows, fun c hc => ?_, hup⟩
      rw [hzero c] at hc
      cases hc
    · have hen := grows_enable w'.tree (n :: d) cs
      refine ⟨hgrows.trans hen, fun c hc => ?_, hup⟩
      have hc' := (hcs c).mpr hc
      exact ⟨available_grows hen (hgrows.dirs _ hd) c (hav c hc'), by simp [Tree.enable, hc']⟩

theorem ensureRequiredControllers_unknown {expected : Ctrlmask} (h : ¬ expected.Known) :
    wp (ensureRequiredControllers k d expected) (fun _ _ => False) (fun _ _ => True) w := by
  have hstep : ∀ parent e,
      wp (ensureWith k parent e expected) (fun _ _ => False) (fun _ _ => True) w := by
    intro parent e
    rw [ensureWith, wp_bind]
    refine wp_of_ok fun current w₁ _ => ?_
    rw [wp_bind]
    refine wp_of_ok fun _ w₂ _ => ?_
    rw [addRequiredSubcontrollers, subcontrollers_eq_none h]
    trivial
  cases d with
  | nil => exact hstep _ _
  | cons n d => exact hstep _ _

/-- After a success all of the mask is available and enabled. -/
theorem ensureRequiredControllers_spec (expected : Ctrlmask) (hd : w.tree.dirs d = true) :
    wp (ensureRequiredControllers k d expected)
      (fun _ w' => w.tree.Grows w'.tree ∧
        (∀ c, expected.has c = true →
          k.available w'.tree d c = true ∧ w'.tree.subtreeControl d c = true) ∧
        ∃ up, k.Supplied w.tree d (fun c => expected.has c = true) up)
      (fun _ _ => True) w := by
  by_cases hknown : expected.Known
  · exact ensureRequiredControllers_known hknown hd
  · exact wp_mono (ensureRequiredControllers_unknown hknown) (fun _ _ h => h.elim)
      (fun _ _ _ => trivial)

end Cgroup
end RedPak
