import RedPak.Cgroup.Root

/-!
# Cgroup.RootText

The search of the root cgroup, on the components of its path.

* `fields_withoutPidsLeaf`: the leaves for pids are taken from the end of the path.
* `findRootLoop_spec`: the search ends where it starts or at a cgroup with a leaf for pids.
* `fields_cgroupPathText`: the components of the path that is searched.
-/

namespace RedPak
namespace Cgroup

open Conf Layered Layered.Action

variable {k : Kernel} {p : Process} {t : Tree} {b : Buffer UInt8} {n : Nat}

theorem Spelled.take_eq {path : PathBuffer} {text : List UInt8} (h : Spelled path text)
    (p : Process) (hn : n ≤ text.length) : text.take n = (p.bytes path).slice 0 n := by
  have hslice : (p.bytes path).slice 0 text.length = text := bytes_slice h.slice p
  have htake := Buffer.take_slice (p.bytes path) n (i := 0) (j := text.length) (by omega)
  rwa [hslice, Nat.zero_add] at htake

/-! ## The end of the path -/

theorem fields_stripSlashes (b : Buffer UInt8) (n : Nat) :
    fields slash (b.slice 0 (stripSlashes b n)) = fields slash (b.slice 0 n) := by
  induction n with
  | zero => rfl
  | succ n ih =>
    rw [stripSlashes]
    split
    · rename_i hslash
      rw [ih, Buffer.slice_concat (Nat.zero_le n), hslash, fields_append_sep_nil]
    · rfl

theorem getLast?_stripSlashes (b : Buffer UInt8) (n : Nat) :
    (b.slice 0 (stripSlashes b n)).getLast? ≠ some slash := by
  induction n with
  | zero => simp [stripSlashes]
  | succ n ih =>
    rw [stripSlashes]
    split
    · exact ih
    · rename_i hslash
      rw [Buffer.slice_concat (Nat.zero_le n), List.getLast?_concat]
      simpa using hslash

/-- **The leaves for pids** at the end of the path are taken away. -/
theorem fields_withoutPidsLeaf (b : Buffer UInt8) (n : Nat)
    (h : (b.slice 0 n).getLast? ≠ some slash) :
    fields slash (b.slice 0 (lengthWithoutPidsLeaf b n)) =
        (fields slash (b.slice 0 n)).rdropWhile (· == pidsLeafName.bytes) ∧
      (b.slice 0 (lengthWithoutPidsLeaf b n)).getLast? ≠ some slash := by
  fun_induction lengthWithoutPidsLeaf b n with
  | case1 length off hleaf ih =>
    obtain ⟨hfields, hlast⟩ := ih (getLast?_stripSlashes b off)
    refine ⟨?_, hlast⟩
    rw [hfields, fields_stripSlashes]
    have hsplit : b.slice 0 length = b.slice 0 off ++ pidsLeafName.bytes := by
      rw [← hleaf.2.1, Buffer.slice_append (Nat.zero_le off) (Nat.sub_le _ _)]
    have hconcat : fields slash (b.slice 0 length) =
        fields slash (b.slice 0 off) ++ [pidsLeafName.bytes] := by
      rcases Nat.eq_zero_or_pos off with hzero | hpos
      · rw [hsplit, hzero]
        simp [pidsLeafName.isField.fields_eq]
      · have hslash := hleaf.2.2.resolve_left (Nat.ne_of_gt hpos)
        have hbefore : b.slice 0 off = b.slice 0 (off - 1) ++ [slash] := by
          rw [← hslash, ← Buffer.slice_concat (Nat.zero_le _), Nat.sub_add_cancel hpos]
        rw [hsplit, hbefore, List.append_assoc, List.singleton_append, fields_append_sep,
          fields_append_sep_nil, pidsLeafName.isField.fields_eq]
    rw [hconcat, List.rdropWhile_concat_pos _ _ _ (by simp)]
  | case2 length off hleaf =>
    refine ⟨?_, h⟩
    symm
    rw [List.rdropWhile_eq_self_iff]
    intro hne heq
    -- a last component of this name would have been seen
    have hend : (fields slash (b.slice 0 length)).getLast? = some pidsLeafName.bytes := by
      rw [List.getLast?_eq_some_getLast hne, eq_of_beq heq]
    obtain ⟨before, hsplit, hbefore⟩ := exists_append_of_getLast?_fields h hend
    have hlen := congrArg List.length hsplit
    rw [List.length_append, Buffer.length_slice, Nat.sub_zero] at hlen
    rw [← Buffer.slice_append (Nat.zero_le off) (Nat.sub_le length _)] at hsplit
    obtain ⟨hstart, hname⟩ := List.append_inj hsplit (by rw [Buffer.length_slice]; omega)
    refine hleaf ⟨by omega, hname, ?_⟩
    rcases Nat.eq_zero_or_pos off with hzero | hpos
    · exact .inl hzero
    · refine .inr ?_
      rw [← hstart, ← Nat.sub_add_cancel hpos, Buffer.slice_concat (Nat.zero_le _)] at hbefore
      simpa using hbefore

/-- Where the search of the root starts. -/
def searchStart (b : Buffer UInt8) (length : Nat) : Nat :=
  lengthWithoutPidsLeaf b (stripSlashes b length)

theorem searchStart_le (b : Buffer UInt8) (length : Nat) : searchStart b length ≤ length :=
  (lengthWithoutPidsLeaf_le _ _).trans (stripSlashes_le _ _)

/-- **The start of the search** is the path without the leaves for pids at its end. -/
theorem Spelled.fields_searchStart {path : PathBuffer} {text : List UInt8} (h : Spelled path text)
    (p : Process) :
    fields slash (text.take (searchStart (p.bytes path) text.length)) =
        (fields slash text).rdropWhile (· == pidsLeafName.bytes) ∧
      (text.take (searchStart (p.bytes path) text.length)).getLast? ≠ some slash := by
  have hspec := fields_withoutPidsLeaf (p.bytes path) _
    (getLast?_stripSlashes (p.bytes path) text.length)
  rw [fields_stripSlashes, ← h.take_eq p (Nat.le_refl _), List.take_length] at hspec
  rw [h.take_eq p (searchStart_le _ _)]
  exact hspec

theorem eq_false_of_rdropWhile {α : Type*} {q : α → Bool} {xs before : List α} {y : α}
    (h : xs.rdropWhile q = before ++ [y]) : q y = false := by
  have hne : xs.rdropWhile q ≠ [] := by simp [h]
  have hnot := List.rdropWhile_last_not q xs hne
  simpa [h] using hnot

/-! ## The search -/

/-- The search ends where it started, or where it met a leaf for pids. -/
theorem findRootLoop_spec (t : Tree) (b : Buffer UInt8) (length found : Nat) :
    findRootLoop k t b length found = found ∨ ∃ d e,
      k.openat t k.cwd (.ofBytes (b.slice 0 (findRootLoop k t b length found))) = some d ∧
        k.lookup t d pidsLeafName.bytes = some e := by
  fun_induction findRootLoop k t b length found with
  | case1 found => exact .inl rfl
  | case2 => exact .inl rfl
  | case3 => exact .inl rfl
  | case4 length found hzero d hd e he ih =>
    rcases ih with heq | hmet
    · rw [heq]
      exact .inr ⟨d, e, hd, he⟩
    · exact .inr hmet

theorem getLast?_findRootLoop (t : Tree) (b : Buffer UInt8) (length found : Nat)
    (h : (b.slice 0 found).getLast? ≠ some slash)
    (hlength : (b.slice 0 length).getLast? ≠ some slash) :
    (b.slice 0 (findRootLoop k t b length found)).getLast? ≠ some slash := by
  fun_induction findRootLoop k t b length found with
  | case1 found => exact h
  | case2 => exact h
  | case3 => exact h
  | case4 length found hzero d hd e he ih => exact ih hlength (getLast?_stripSlashes _ _)

/-! ## The text -/

theorem fields_trimSlashes (src : List UInt8) :
    fields slash (trimSlashes src) = fields slash src := by
  rw [trimSlashes, fields_rdropWhile_sep, fields_dropWhile_sep]

/-- The prefix stands in front of a path that does not start with it. -/
def Copied (pfx : CStr) (src : List UInt8) : Prop :=
  src.length < pfx.bytes.length ∨ src.take pfx.bytes.length ≠ pfx.bytes

instance (pfx : CStr) (src : List UInt8) : Decidable (Copied pfx src) := by
  unfold Copied
  infer_instance

/-- **The components** of the path that is searched: those of the path below the mount point. -/
theorem fields_cgroupPathText (pfx : CStr) (src : List UInt8) :
    fields slash (cgroupPathText pfx src) =
      (if Copied pfx src then fields slash pfx.bytes else []) ++ fields slash src := by
  have hstart : ∀ start : List UInt8,
      fields slash (start ++ (if start = [] ∨ start.getLast? ≠ some slash then [slash] else []) ++
        trimSlashes src) = fields slash start ++ fields slash src := by
    intro start
    rw [← fields_trimSlashes src]
    split
    · rw [List.append_assoc, List.singleton_append, fields_append_sep]
    · rename_i hno
      rw [not_or, not_not] at hno
      obtain ⟨before, rfl⟩ := List.getLast?_eq_some_iff.mp hno.2
      rw [List.append_nil, List.append_assoc, List.singleton_append, fields_append_sep,
        fields_append_sep_nil]
  rw [cgroupPathText, hstart]
  by_cases hc : src.length < pfx.bytes.length ∨ src.take pfx.bytes.length ≠ pfx.bytes
  · have hcopied : Copied pfx src := hc
    rw [if_pos hc, if_pos hcopied]
  · have hcopied : ¬ Copied pfx src := hc
    rw [if_neg hc, if_neg hcopied, fields_nil]

/-! ## The current cgroup -/

/-- The names from the mount point to a cgroup. -/
def Kernel.below (k : Kernel) (d : Dir) : List Name := (d.take (d.length - k.mount.length)).reverse

theorem relative_eq (k : Kernel) (d : Dir) :
    k.relative d = slash :: joined slash ((k.below d).map (·.bytes)) := by
  rw [Kernel.relative, Kernel.below, List.map_reverse, List.map_take]

theorem eq_below_append {d : Dir} (h : k.IsCgroup d) : d = (k.below d).reverse ++ k.mount := by
  obtain ⟨l, rfl⟩ := h
  simp [Kernel.below]

theorem selfPath_eq {d : Dir} {pid : Nat} (h : t.procs.find? (·.1 = p.pid) = some (pid, d)) :
    k.selfPath p t = (k.relative d).take (pathMax - 3) := by
  have hnl : newline ∉ k.relative d := by
    rw [relative_eq, List.mem_cons, not_or]
    refine ⟨by decide, fun hmem => ?_⟩
    rcases mem_joined hmem with hmem | ⟨f, hf, hmem⟩
    · exact absurd hmem (by decide)
    · obtain ⟨n, _, rfl⟩ := List.mem_map.mp hf
      exact n.valid.2.2.2.2.1 hmem
  have htext : k.selfText t p.pid = (CStr.lit "0::").bytes ++ (k.relative d ++ [newline]) := by
    rw [Kernel.selfText, h]
    simp
  have hdrop : ((k.selfText t p.pid).take pathMax).drop 3 =
      (k.relative d ++ [newline]).take (pathMax - 3) := by
    have hlen : (CStr.lit "0::").bytes.length = 3 := by decide
    rw [htext, List.drop_take, List.drop_left' hlen]
  -- the newline is what ends the line, if it was read
  rw [Kernel.selfPath, hdrop, List.take_append, List.takeWhile_append_of_pos]
  · cases pathMax - 3 - (k.relative d).length <;> simp
  · intro c hc
    simpa using fun h : c = newline => hnl (h ▸ List.mem_of_mem_take hc)

end Cgroup
end RedPak
