import Mathlib.Data.List.DropRight
import RedPak.Cgroup.Controllers

/-!
# Cgroup.Root

The path of the root cgroup, in the buffer `path` of `cgroup_t`: the configured one or that of the
current cgroup, below the mount point (`set_cgroup_path`), then without the leaves for pids and up
to the last cgroup that has one (`find_rednode_root`).

A byte of the buffer that was never written reads as `pathJunk`, whatever the stack held.

* `setCgroupPath_ok`: the text that is in the buffer.
* `makeRootPath_spec`: the state with which the first node is prepared.
-/

namespace RedPak
namespace Cgroup

open Conf Layered Layered.Action

/-! ## The state -/

/-- `PATH_MAX` -/
def pathMax : Nat := 4096

abbrev PathBuffer := Buffer (Option UInt8)

/-- `cgroup_t` -/
structure CgroupT where
  rootpath : Option CStr
  final : Ctrlmask := 0
  dirfd : Option Dir := none
  pathlen : Nat := 0
  path : PathBuffer := fun _ => none

/-- What `set_cgroups` meets in its own process. -/
structure Process where
  pid : Nat
  cgroupRoot : CStr
  pathJunk : Buffer UInt8
  procsJunk : Buffer UInt8

def Process.bytes (p : Process) (path : PathBuffer) : Buffer UInt8 := fun i =>
  (path i).getD (p.pathJunk i)

/-- The string that starts at an index. `none`: it does not end in the buffer. -/
def Process.string (p : Process) (path : PathBuffer) (off : Nat) : Option CStr :=
  if 0 ∈ (p.bytes path).slice off pathMax then
    some (.ofBytes ((p.bytes path).slice off pathMax))
  else none

def sysProcess : Process where
  pid := 42
  cgroupRoot := .lit "/sys/fs/cgroup"
  pathJunk _ := 0x41
  procsJunk _ := 0x41

theorem pidsLeafName_valid : ValidName (CStr.lit "redpak-pids-leaf").bytes := by
  decide

/-- `CGROUPS_PIDS_LEAF_NAME` -/
def pidsLeafName : Name := ⟨(CStr.lit "redpak-pids-leaf").bytes, pidsLeafName_valid⟩

def pidsLeaf : CStr := .lit "redpak-pids-leaf"

/-! ## `set_cgroup_path` -/

/-- The given bytes without slashes at both ends. -/
def trimSlashes (src : List UInt8) : List UInt8 :=
  (src.dropWhile (· == slash)).rdropWhile (· == slash)

/-- The length of the path, and the buffer with the path. -/
def setCgroupPath (pfx : CStr) (dest : PathBuffer) (src : List UInt8) :
    Except Stop (Nat × PathBuffer) :=
  let prefixlen := pfx.bytes.length
  -- copy the prefix if needed
  let copied := src.length < prefixlen ∨ src.take prefixlen ≠ pfx.bytes
  if copied ∧ pathMax < prefixlen then .error .fault
  else
    let dest := if copied then dest.writeAll 0 (pfx.bytes.map some) else dest
    let pos := if copied then prefixlen else 0
    -- ensure slash at start (except if copied prefix doesn't)
    let slashed := pos = 0 ∨ pfx.bytes.getLast? ≠ some slash
    if slashed ∧ pathMax ≤ pos then .error .fault
    else
      let dest := if slashed then dest.store pos (some slash) else dest
      let pos := if slashed then pos + 1 else pos
      let src := trimSlashes src
      -- check resulting length
      if pathMax - pos ≤ src.length then .error .failed
      else
        let dest := dest.writeAll pos (src.map some)
        .ok (pos + src.length, dest.store (pos + src.length) (some 0))

/-! ## `find_rednode_root` -/

/-- `while (n > 0 && path[n - 1] == '/') n--;` -/
def stripSlashes (b : Buffer UInt8) : Nat → Nat
  | 0 => 0
  | n + 1 => if b n = slash then stripSlashes b n else n + 1

/-- `while (n > 0 && path[n - 1] != '/') n--;` -/
def stripName (b : Buffer UInt8) : Nat → Nat
  | 0 => 0
  | n + 1 => if b n ≠ slash then stripName b n else n + 1

theorem stripSlashes_le (b : Buffer UInt8) (n : Nat) : stripSlashes b n ≤ n := by
  induction n with
  | zero => exact Nat.le_refl 0
  | succ n ih =>
    rw [stripSlashes]
    split <;> omega

theorem stripName_le (b : Buffer UInt8) (n : Nat) : stripName b n ≤ n := by
  induction n with
  | zero => exact Nat.le_refl 0
  | succ n ih =>
    rw [stripName]
    split <;> omega

theorem parentLength_lt (b : Buffer UInt8) {n : Nat} (h : n ≠ 0) :
    stripSlashes b (stripName b n) < n := by
  obtain ⟨m, rfl⟩ := Nat.exists_eq_succ_of_ne_zero h
  by_cases hs : b m = slash
  · have hname : stripName b (m + 1) = m + 1 := by rw [stripName, if_neg (by simpa using hs)]
    have := stripSlashes_le b m
    rw [hname, stripSlashes, if_pos hs]
    omega
  · have hname : stripName b (m + 1) = stripName b m := by rw [stripName, if_pos hs]
    have := stripName_le b m
    have := stripSlashes_le b (stripName b m)
    rw [hname]
    omega

theorem length_pidsLeafName : pidsLeafName.bytes.length = 16 := rfl

def lengthWithoutPidsLeaf (b : Buffer UInt8) (length : Nat) : Nat :=
  let off := length - pidsLeafName.bytes.length
  if _h : pidsLeafName.bytes.length ≤ length ∧ b.slice off length = pidsLeafName.bytes ∧
      (off = 0 ∨ b (off - 1) = slash) then
    lengthWithoutPidsLeaf b (stripSlashes b off)
  else length
termination_by length
decreasing_by
  have hle := stripSlashes_le b (length - pidsLeafName.bytes.length)
  have hlen := length_pidsLeafName
  omega

variable (k : Kernel) (p : Process)

/-- The loop of `find_rednode_root`. The zero that ends the path while it is opened is taken back
again. -/
def findRootLoop (t : Tree) (b : Buffer UInt8) (length found : Nat) : Nat :=
  if _h : length = 0 then found
  else
    match k.openat t k.cwd (.ofBytes (b.slice 0 length)) with
    | none => found
    | some d =>
      match k.lookup t d pidsLeafName.bytes with
      | none => found
      | some _ => findRootLoop t b (stripSlashes b (stripName b length)) length
termination_by length
decreasing_by exact parentLength_lt b _h

def findRednodeRoot (t : Tree) (b : Buffer UInt8) (length : Nat) : Nat :=
  let length := lengthWithoutPidsLeaf b (stripSlashes b length)
  findRootLoop k t b length length

/-! ## `make_root_path` -/

def getCurrentCgroup (dest : PathBuffer) : Sys (Nat × PathBuffer) := do
  let granted ← k.call .readSelf
  let w ← get
  let buf := (k.selfText w.tree p.pid).take pathMax
  if granted ∧ (CStr.lit "0::").bytes <+: buf then
    match setCgroupPath p.cgroupRoot dest ((buf.drop 3).takeWhile (· != newline)) with
    | .ok found => pure found
    | .error stop => throw stop
  else throw .failed

def initialPath (state : CgroupT) : Sys (Nat × PathBuffer) :=
  match state.rootpath with
  | none => getCurrentCgroup k p state.path
  | some rootpath =>
    match setCgroupPath p.cgroupRoot state.path rootpath.bytes with
    | .ok found => pure found
    | .error stop => throw stop

def makeRootPath (state : CgroupT) : Sys CgroupT := do
  let (rc, path) ← initialPath k p state
  let w ← get
  let pathlen := findRednodeRoot k w.tree (p.bytes path) rc
  pure { state with pathlen := pathlen, path := path.store pathlen (some 0) }

/-! ## The text of the path -/

/-- The text that `set_cgroup_path` makes. -/
def cgroupPathText (pfx : CStr) (src : List UInt8) : List UInt8 :=
  let copied := src.length < pfx.bytes.length ∨ src.take pfx.bytes.length ≠ pfx.bytes
  let start := if copied then pfx.bytes else []
  start ++ (if start = [] ∨ start.getLast? ≠ some slash then [slash] else []) ++ trimSlashes src

variable {k : Kernel} {p : Process} {w : World} {pfx : CStr} {dest path : PathBuffer}
  {src : List UInt8} {n : Nat}

/-- The buffer holds the text, with a zero behind it. -/
structure Spelled (path : PathBuffer) (text : List UInt8) : Prop where
  slice : path.slice 0 text.length = text.map some
  zero : path text.length = some 0
  fits : text.length < pathMax

/-- The end of `set_cgroup_path`, behind what stands in the buffer already. -/
theorem spelled_append {start : List UInt8} (h : dest.slice 0 start.length = start.map some)
    (hfits : ¬ pathMax - start.length ≤ src.length) :
    Spelled ((dest.writeAll start.length (src.map some)).store (start.length + src.length) (some 0))
      (start ++ src) := by
  refine ⟨?_, ?_, ?_⟩
  · rw [Buffer.slice_store (.inr (by simp)), List.length_append]
    have happend := @Buffer.slice_writeAll_append _ dest 0 start.length (src.map some)
      (Nat.zero_le _)
    rw [List.length_map] at happend
    rw [happend, h, List.map_append]
  · simp
  · rw [List.length_append]
    omega

theorem setCgroupPath_ok (h : setCgroupPath pfx dest src = .ok (n, path)) :
    n = (cgroupPathText pfx src).length ∧ Spelled path (cgroupPathText pfx src) := by
  unfold setCgroupPath at h
  dsimp only at h
  split at h
  · cases h
  -- the prefix, if it is copied
  obtain ⟨start, hstart, hlen, hslice⟩ : ∃ start : List UInt8,
      start = (if src.length < pfx.bytes.length ∨ src.take pfx.bytes.length ≠ pfx.bytes then
        pfx.bytes else []) ∧
      start.length = (if src.length < pfx.bytes.length ∨ src.take pfx.bytes.length ≠ pfx.bytes then
        pfx.bytes.length else 0) ∧
      Buffer.slice (if src.length < pfx.bytes.length ∨ src.take pfx.bytes.length ≠ pfx.bytes then
        dest.writeAll 0 (pfx.bytes.map some) else dest) 0 start.length = start.map some := by
    refine ⟨_, rfl, ?_, ?_⟩ <;> split
    · rfl
    · rfl
    · simpa using Buffer.slice_writeAll dest 0 (pfx.bytes.map some)
    · rfl
  have hcond : (start.length = 0 ∨ pfx.bytes.getLast? ≠ some slash) ↔
      (start = [] ∨ start.getLast? ≠ some slash) := by
    rw [List.length_eq_zero_iff]
    split at hstart
    · rw [hstart]
    · simp [hstart]
  have htext : cgroupPathText pfx src =
      start ++ (if start = [] ∨ start.getLast? ≠ some slash then [slash] else []) ++
        trimSlashes src := by
    rw [cgroupPathText, hstart]
  simp only [← hlen] at h
  generalize (if src.length < pfx.bytes.length ∨ src.take pfx.bytes.length ≠ pfx.bytes then
    dest.writeAll 0 (pfx.bytes.map some) else dest) = dest' at h hslice
  simp only [hcond] at h
  rw [htext]
  -- the slash behind it
  split at h
  · cases h
  by_cases hs : start = [] ∨ start.getLast? ≠ some slash
  · simp only [if_pos hs] at h ⊢
    split at h
    · cases h
    rename_i hfits
    cases h
    have hlen' : start.length + 1 = (start ++ [slash]).length := by simp
    have hslice' : (dest'.store start.length (some slash)).slice 0 (start ++ [slash]).length =
        (start ++ [slash]).map some := by
      rw [← hlen', Buffer.slice_store_concat (Nat.zero_le _), hslice, List.map_append]
      rfl
    rw [hlen'] at hfits ⊢
    exact ⟨by simp only [List.length_append], spelled_append hslice' hfits⟩
  · simp only [if_neg hs, List.append_nil] at h ⊢
    split at h
    · cases h
    rename_i hfits
    cases h
    exact ⟨by simp, spelled_append hslice hfits⟩

theorem bytes_slice {xs : List UInt8} {i j : Nat} (h : path.slice i j = xs.map some) (p : Process) :
    (p.bytes path).slice i j = xs := by
  have hlen : j - i = xs.length := by simpa using congrArg List.length h
  refine List.ext_getElem? fun m => ?_
  by_cases hm : m < xs.length
  · have hget := Buffer.getElem?_slice (b := path) (i := i) (j := j) m (by omega)
    rw [h, List.getElem?_map, List.getElem?_eq_getElem hm] at hget
    rw [Buffer.getElem?_slice m (by omega), Process.bytes, ← Option.some.inj hget,
      List.getElem?_eq_getElem hm]
    rfl
  · rw [List.getElem?_eq_none (by simp; omega), List.getElem?_eq_none (by omega)]

/-- A text in the buffer with a zero behind it is read as a string. -/
theorem string_of_slice {text : List UInt8} {off : Nat}
    (h : (p.bytes path).slice off (off + text.length) = text)
    (hzero : p.bytes path (off + text.length) = 0) (hfits : off + text.length < pathMax)
    (hnul : (0 : UInt8) ∉ text) : p.string path off = some (.ofBytes text) := by
  have hslice : (p.bytes path).slice off pathMax =
      text ++ 0 :: (p.bytes path).slice (off + text.length + 1) pathMax := by
    rw [← Buffer.slice_append (Nat.le_add_right off text.length) (Nat.le_of_lt hfits), h,
      Buffer.slice_cons hfits, hzero]
  rw [Process.string, hslice, if_pos (by simp)]
  refine congrArg some (CStr.ext ?_)
  rw [CStr.ofBytes_zero hnul, CStr.bytes_ofBytes hnul]

theorem Spelled.string {text : List UInt8} (h : Spelled path text) (hnul : (0 : UInt8) ∉ text)
    (p : Process) : p.string path 0 = some (.ofBytes text) := by
  refine string_of_slice ?_ ?_ ?_ hnul
  · simpa using bytes_slice h.slice p
  · simp [Process.bytes, h.zero]
  · simpa using h.fits

/-- The text up to an index, once a zero is stored there. -/
theorem Spelled.cut {text : List UInt8} (h : Spelled path text) (hn : n ≤ text.length) :
    Spelled (path.store n (some 0)) (text.take n) := by
  have hlen : (text.take n).length = n := by simp [hn]
  refine ⟨?_, by simp [hlen], by have := h.fits; omega⟩
  have hsplit := Buffer.slice_append (b := path) (Nat.zero_le n) hn
  rw [h.slice] at hsplit
  have htake := congrArg (List.take n) hsplit
  rw [hlen, Buffer.slice_store (.inr (Nat.le_refl n)), List.map_take, ← htake,
    List.take_left' (by simp)]

theorem lengthWithoutPidsLeaf_le (b : Buffer UInt8) (length : Nat) :
    lengthWithoutPidsLeaf b length ≤ length := by
  fun_induction lengthWithoutPidsLeaf b length with
  | case1 length off h ih =>
    have := stripSlashes_le b off
    omega
  | case2 length off h => exact Nat.le_refl length

theorem findRootLoop_le (t : Tree) (b : Buffer UInt8) (length found : Nat) (h : length ≤ found) :
    findRootLoop k t b length found ≤ found := by
  fun_induction findRootLoop k t b length found with
  | case1 found => exact Nat.le_refl found
  | case2 => exact Nat.le_refl _
  | case3 => exact Nat.le_refl _
  | case4 length found hzero d hd e he ih =>
    have hlt := parentLength_lt b hzero
    have := ih (by omega)
    omega

theorem findRednodeRoot_le (t : Tree) (b : Buffer UInt8) (length : Nat) :
    findRednodeRoot k t b length ≤ length := by
  have h₁ := stripSlashes_le b length
  have h₂ := lengthWithoutPidsLeaf_le b (stripSlashes b length)
  have h₃ := @findRootLoop_le k t b _ _
    (Nat.le_refl (lengthWithoutPidsLeaf b (stripSlashes b length)))
  exact Nat.le_trans h₃ (Nat.le_trans h₂ h₁)

/-! ## What `make_root_path` does -/

/-- The path of the current cgroup, as it is read. -/
def Kernel.selfPath (k : Kernel) (p : Process) (t : Tree) : List UInt8 :=
  (((k.selfText t p.pid).take pathMax).drop 3).takeWhile (· != newline)

/-- The path that `set_cgroup_path` is given. -/
def Kernel.rootSource (k : Kernel) (p : Process) (rootpath : Option CStr) (t : Tree) : List UInt8 :=
  match rootpath with
  | none => k.selfPath p t
  | some rootpath => rootpath.bytes

theorem initialPath_spec {state : CgroupT} : wp (initialPath k p state)
    (fun found w' => w'.tree = w.tree ∧
      setCgroupPath p.cgroupRoot state.path (k.rootSource p state.rootpath w.tree) = .ok found)
    (fun _ _ => True) w := by
  unfold initialPath Kernel.rootSource
  cases state.rootpath with
  | none =>
    rw [getCurrentCgroup, wp_bind]
    refine wp_call fun granted => ?_
    rw [wp_bind, wp_get]
    dsimp only
    rw [wp_ite]
    split
    · change wp (match setCgroupPath p.cgroupRoot state.path (k.selfPath p w.tree) with
        | .ok found => (pure found : Sys (Nat × PathBuffer))
        | .error stop => throw stop) _ _ _
      cases hset : setCgroupPath p.cgroupRoot state.path (k.selfPath p w.tree) with
      | ok found => exact ⟨rfl, rfl⟩
      | error stop => trivial
    · trivial
  | some rootpath =>
    dsimp only
    cases hset : setCgroupPath p.cgroupRoot state.path rootpath.bytes with
    | ok found => exact ⟨rfl, rfl⟩
    | error stop => trivial

/-- **What `make_root_path` leaves**: the text that `set_cgroup_path` makes of its source, cut where
`find_rednode_root` says. -/
theorem makeRootPath_spec {state : CgroupT} : wp (makeRootPath k p state)
    (fun state' w' => w'.tree = w.tree ∧
      ∃ path, Spelled path (cgroupPathText p.cgroupRoot (k.rootSource p state.rootpath w.tree)) ∧
        let len := (cgroupPathText p.cgroupRoot (k.rootSource p state.rootpath w.tree)).length
        let found := findRednodeRoot k w.tree (p.bytes path) len
        state' = { state with pathlen := found, path := path.store found (some 0) })
    (fun _ _ => True) w := by
  rw [makeRootPath, wp_bind]
  refine wp_mono initialPath_spec ?_ (fun _ _ _ => trivial)
  rintro ⟨rc, path⟩ w' ⟨htree, hset⟩
  obtain ⟨hrc, hspelled⟩ := setCgroupPath_ok hset
  rw [wp_bind, wp_get, wp_pure, htree, hrc]
  exact ⟨rfl, path, hspelled, rfl⟩

/-! ## Bytes of the text -/

theorem nulFree_relative (d : Dir) : (0 : UInt8) ∉ k.relative d := by
  intro h
  rcases List.mem_cons.mp h with h | h
  · cases h
  · rcases mem_joined h with h | ⟨f, hf, h⟩
    · cases h
    · obtain ⟨n, _, rfl⟩ := List.mem_map.mp hf
      exact n.valid.2.2.2.2.2.1 h

theorem nulFree_rootSource (rootpath : Option CStr) (t : Tree) :
    (0 : UInt8) ∉ k.rootSource p rootpath t := by
  cases rootpath with
  | some rootpath => exact rootpath.nulFree
  | none =>
    intro h
    have hmem := List.mem_of_mem_take (List.mem_of_mem_drop
      ((List.takeWhile_sublist _).subset h))
    unfold Kernel.selfText at hmem
    split at hmem
    · rcases List.mem_append.mp hmem with hmem | hmem
      · rcases List.mem_append.mp hmem with hmem | hmem
        · exact absurd hmem (by decide)
        · exact nulFree_relative _ hmem
      · cases List.mem_singleton.mp hmem
    · cases hmem

theorem nulFree_cgroupPathText (h : (0 : UInt8) ∉ src) :
    (0 : UInt8) ∉ cgroupPathText pfx src := by
  have htrim : (0 : UInt8) ∉ trimSlashes src := fun hmem =>
    h ((List.dropWhile_sublist _).subset ((List.rdropWhile_prefix _ _).subset hmem))
  have hslash : (0 : UInt8) ≠ slash := by decide
  unfold cgroupPathText
  simp only [List.mem_append, not_or]
  refine ⟨⟨?_, ?_⟩, htrim⟩ <;> split
  · exact pfx.nulFree
  · simp
  · split
    · simpa using hslash
    · simp
  · split
    · simpa using hslash
    · simp

end Cgroup
end RedPak
