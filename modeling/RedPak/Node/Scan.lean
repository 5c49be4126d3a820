import RedPak.Layered.Tree
import RedPak.Node.Load

/-!
# Node.Scan

The upward scan of rednodes (`PopDownRedpath`, `RedNodesDigToRoot` and `RedNodesScan` in
`redconf-node.c`). The array `nodepath` is met through the string in it; a read before its first
byte is a fault.

* `popDownRedpath_cut`: the string is cut behind its last slash, one at its end aside.
* `digToRoot_cut`, `digToRoot_top`: one turn of the loop.
-/

namespace RedPak
namespace Node

open Conf Layered

/-! ## One step -/

/-- `for (idx = ..; redpath[idx] != '/' && redpath[idx] != 0; idx--) redpath[idx]=0;`, from the
index below the argument. No byte of a string is 0. -/
def popBack (redpath : List UInt8) : Nat → Option (Nat × List UInt8)
  | 0 => none
  | idx + 1 =>
    if redpath[idx]? ≠ some slash then popBack (redpath.take idx) idx else some (idx, redpath)

/-- A slash at the end is removed. -/
def stripSlash (redpath : List UInt8) : List UInt8 :=
  if redpath.getLast? = some slash then redpath.dropLast else redpath

/-- The index that is returned, and what is left of the string. -/
def popDownRedpath (redpath : List UInt8) : Option (Nat × List UInt8) :=
  if redpath = [] then none
  else popBack (stripSlash redpath) (stripSlash redpath).length

theorem popBack_concat {w : List UInt8} {c : UInt8} (hc : c ≠ slash) :
    popBack (w ++ [c]) (w ++ [c]).length = popBack w w.length := by
  rw [List.length_append, List.length_singleton, popBack, List.getElem?_concat_length,
    if_pos (by simpa using hc), List.take_left]

theorem popBack_cut (v : List UInt8) {w : List UInt8} (h : slash ∉ w) :
    popBack (v ++ slash :: w) (v ++ slash :: w).length = some (v.length, v ++ [slash]) := by
  induction w using List.reverseRecOn with
  | nil =>
    rw [List.length_append, List.length_singleton, popBack, List.getElem?_concat_length]
    rfl
  | append_singleton w c ih =>
    have hsplit : v ++ slash :: (w ++ [c]) = (v ++ slash :: w) ++ [c] := by simp
    rw [hsplit, popBack_concat fun hc => h (by simp [hc])]
    exact ih fun hmem => h (by simp [hmem])

theorem popBack_none {w : List UInt8} (h : slash ∉ w) : popBack w w.length = none := by
  induction w using List.reverseRecOn with
  | nil => rfl
  | append_singleton w c ih =>
    rw [popBack_concat fun hc => h (by simp [hc])]
    exact ih fun hmem => h (by simp [hmem])

theorem exists_cut (s : List UInt8) : slash ∉ s ∨ ∃ v w, s = v ++ slash :: w ∧ slash ∉ w := by
  by_cases h : slash ∈ s
  · obtain ⟨w, v, hrev, hw⟩ := List.eq_append_cons_of_mem (List.mem_reverse.mpr h)
    refine .inr ⟨v.reverse, w.reverse, ?_, fun hmem => hw (List.mem_reverse.mp hmem)⟩
    rw [← List.reverse_reverse s, hrev]
    simp
  · exact .inl h

theorem stripSlash_concat (v : List UInt8) : stripSlash (v ++ [slash]) = v := by
  simp [stripSlash]

theorem stripSlash_cases (s : List UInt8) :
    s = stripSlash s ++ [slash] ∨ s = stripSlash s ∧ s.getLast? ≠ some slash := by
  unfold stripSlash
  split
  · rename_i h
    exact .inl (List.dropLast_append_getLast? slash h).symm
  · exact .inr ⟨rfl, by assumption⟩

theorem popDownRedpath_cut {s v w : List UInt8} (hs : s ≠ [])
    (hcut : stripSlash s = v ++ slash :: w) (hw : slash ∉ w) :
    popDownRedpath s = some (v.length, v ++ [slash]) := by
  rw [popDownRedpath, if_neg hs, hcut, popBack_cut v hw]

theorem popDownRedpath_none {s : List UInt8} (h : slash ∉ stripSlash s) :
    popDownRedpath s = none := by
  unfold popDownRedpath
  split
  · rfl
  · exact popBack_none h

theorem popDownRedpath_length {s path : List UInt8} {index : Nat}
    (h : popDownRedpath s = some (index, path)) : path.length < s.length := by
  have hs : s ≠ [] := by rintro rfl; cases h
  rcases exists_cut (stripSlash s) with hnone | ⟨v, w, hcut, hw⟩
  · rw [popDownRedpath_none hnone] at h
    cases h
  · rw [popDownRedpath_cut hs hcut hw] at h
    cases h
    have hlen := congrArg List.length hcut
    rw [List.length_append, List.length_cons] at hlen
    rw [List.length_append, List.length_singleton]
    rcases stripSlash_cases s with hsplit | ⟨hsame, hlast⟩
    · have hsplit := congrArg List.length hsplit
      rw [List.length_append, List.length_singleton] at hsplit
      omega
    · have hw : w ≠ [] := by
        rintro rfl
        rw [hsame, hcut] at hlast
        simp at hlast
      have hpos := List.length_pos_iff.mpr hw
      have hsame := congrArg List.length hsame
      omega

/-! ## The loop -/

inductive ScanResult where
  | done
  | error
  | fault
deriving DecidableEq

/-- The paths that were given to `RedNodesLoad`, in order, and the ancestors that are nodes, the
nearest first. -/
structure Dug where
  result : ScanResult
  tried : List (List UInt8)
  parents : List Loaded
deriving DecidableEq

def Dug.after (path : List UInt8) (found : List Loaded) (rest : Dug) : Dug :=
  ⟨rest.result, path :: rest.tried, found ++ rest.parents⟩

/-- The loop of `RedNodesDigToRoot`. -/
def digToRoot (load : CStr → Except NotLoaded Loaded) (nodepath : List UInt8) : Dug :=
  match _h : popDownRedpath nodepath with
  | none => ⟨.fault, [], []⟩
  | some (index, path) =>
    if index ≤ 1 then ⟨.done, [], []⟩
    else
      match load (CStr.ofBytes path) with
      | .ok parent => (digToRoot load path).after path [parent]
      | .error .missing => (digToRoot load path).after path []
      | .error .fx => ⟨.error, [path], []⟩
      | .error .fault => ⟨.fault, [path], []⟩
termination_by nodepath.length
decreasing_by all_goals exact popDownRedpath_length _h

/-- `RedNodesDigToRoot`; `strncpy` copies the path, as far as there is room for it. -/
def redNodesDigToRoot (load : CStr → Except NotLoaded Loaded) (redpath : CStr) : Dug :=
  digToRoot load (redpath.bytes.take redMaxpathlen)

variable {load : CStr → Except NotLoaded Loaded} {s v w : List UInt8}

theorem digToRoot_none (h : slash ∉ stripSlash s) : digToRoot load s = ⟨.fault, [], []⟩ := by
  unfold digToRoot
  split
  · rfl
  · rename_i hpop
    rw [popDownRedpath_none h] at hpop
    cases hpop

theorem digToRoot_top (hs : s ≠ []) (hcut : stripSlash s = v ++ slash :: w) (hw : slash ∉ w)
    (hv : v.length ≤ 1) : digToRoot load s = ⟨.done, [], []⟩ := by
  unfold digToRoot
  split
  · rename_i hpop
    rw [popDownRedpath_cut hs hcut hw] at hpop
    cases hpop
  · rename_i hpop
    rw [popDownRedpath_cut hs hcut hw] at hpop
    cases hpop
    rw [if_pos hv]

theorem digToRoot_cut (hs : s ≠ []) (hcut : stripSlash s = v ++ slash :: w) (hw : slash ∉ w)
    (hv : 1 < v.length) : digToRoot load s =
      match load (CStr.ofBytes (v ++ [slash])) with
      | .ok parent => (digToRoot load (v ++ [slash])).after (v ++ [slash]) [parent]
      | .error .missing => (digToRoot load (v ++ [slash])).after (v ++ [slash]) []
      | .error .fx => ⟨.error, [v ++ [slash]], []⟩
      | .error .fault => ⟨.fault, [v ++ [slash]], []⟩ := by
  rw [digToRoot]
  split
  · rename_i hpop
    rw [popDownRedpath_cut hs hcut hw] at hpop
    cases hpop
  · rename_i hpop
    rw [popDownRedpath_cut hs hcut hw] at hpop
    cases hpop
    rw [if_neg (by omega)]

theorem digToRoot_congr {s' : List UInt8} (hs : s ≠ []) (hs' : s' ≠ [])
    (h : stripSlash s = stripSlash s') : digToRoot load s = digToRoot load s' := by
  rcases exists_cut (stripSlash s) with hnone | ⟨v, w, hcut, hw⟩
  · rw [digToRoot_none hnone, digToRoot_none (h ▸ hnone)]
  · by_cases hv : v.length ≤ 1
    · rw [digToRoot_top hs hcut hw hv, digToRoot_top hs' (h ▸ hcut) hw hv]
    · rw [digToRoot_cut hs hcut hw (by omega), digToRoot_cut hs' (h ▸ hcut) hw (by omega)]

/-- Induction along the walk: the string runs out of slashes, it is cut near its start, or it is cut
further behind and the walk goes on. -/
theorem walk_induction {P : List UInt8 → Prop} (outside : ∀ s, slash ∉ stripSlash s → P s)
    (top : ∀ s v w, s ≠ [] → stripSlash s = v ++ slash :: w → slash ∉ w → v.length ≤ 1 → P s)
    (cut : ∀ s v w, s ≠ [] → stripSlash s = v ++ slash :: w → slash ∉ w → 1 < v.length →
      P (v ++ [slash]) → P s) (s : List UInt8) : P s := by
  rcases exists_cut (stripSlash s) with hnone | ⟨v, w, hcut, hw⟩
  · exact outside s hnone
  · have hs : s ≠ [] := by
      rintro rfl
      simp [stripSlash] at hcut
    by_cases hv : v.length ≤ 1
    · exact top s v w hs hcut hw hv
    · have hlt := popDownRedpath_length (popDownRedpath_cut hs hcut hw)
      exact cut s v w hs hcut hw (Nat.lt_of_not_le hv)
        (walk_induction outside top cut (v ++ [slash]))
termination_by s.length
decreasing_by exact hlt

theorem stripSlash_isPrefix (s : List UInt8) : stripSlash s <+: s := by
  unfold stripSlash
  split
  · exact List.dropLast_prefix s
  · exact List.prefix_rfl

/-- The part of a path up to one of its slashes ends at its last slash, or before. -/
theorem prefix_cut {v w u : List UInt8} (hw : slash ∉ w) :
    u ++ [slash] <+: v ++ slash :: w ↔ u = v ∨ u ++ [slash] <+: v := by
  constructor
  · intro h
    have hshort : u ++ [slash] <+: v ++ [slash] := by
      have hfront : v ++ [slash] <+: v ++ slash :: w := ⟨w, by simp⟩
      rcases List.prefix_or_prefix_of_prefix h hfront with hle | ⟨rest, hrest⟩
      · exact hle
      · obtain ⟨rest', hrest'⟩ := h
        have hw' : w = rest ++ rest' := by
          rw [← hrest, List.append_assoc, List.append_assoc] at hrest'
          simpa using (List.append_cancel_left hrest').symm
        rcases List.eq_nil_or_concat rest with rfl | ⟨front, c, rfl⟩
        · rw [← hrest, List.append_nil]
        · rw [List.concat_eq_append, ← List.append_assoc] at hrest
          obtain rfl : c = slash := by simpa using (List.append_inj_right' hrest rfl)
          exact absurd (by rw [hw']; simp) hw
    rcases List.prefix_concat_iff.mp hshort with heq | hlt
    · exact .inl (List.append_cancel_right heq)
    · exact .inr hlt
  · rintro (rfl | h)
    · exact ⟨w, by simp⟩
    · exact h.trans (List.prefix_append v _)

/-- **The walk gets to its end** exactly if no directory above an absolute path stops it. -/
theorem digToRoot_done_iff (s : List UInt8) (habs : s.head? = some slash)
    (hname : stripSlash s ≠ []) : (digToRoot load s).result = .done ↔
      ∀ v, v ++ [slash] <+: stripSlash s → 1 < v.length →
        load (CStr.ofBytes (v ++ [slash])) ≠ .error .fx ∧
          load (CStr.ofBytes (v ++ [slash])) ≠ .error .fault := by
  have hhead : ∀ {s v : List UInt8}, v <+: s → v ≠ [] → s.head? = some slash →
      v.head? = some slash := by
    rintro _ v ⟨rest, rfl⟩ hv h
    rwa [List.head?_append_of_ne_nil _ hv] at h
  induction s using walk_induction with
  | outside s h =>
    exact absurd (List.mem_of_mem_head? (hhead (stripSlash_isPrefix s) hname habs)) h
  | top s v w hs hcut hw hv =>
    rw [digToRoot_top hs hcut hw hv, hcut]
    refine iff_of_true rfl fun u hu hlt => absurd hlt (Nat.not_lt.mpr ?_)
    rcases (prefix_cut hw).mp hu with rfl | hu
    · exact hv
    · have hlen := hu.length_le
      rw [List.length_append, List.length_singleton] at hlen
      omega
  | cut s v w hs hcut hw hv ih =>
    have hv' : v ≠ [] := by
      rintro rfl
      exact absurd hv (by decide)
    have hprefix : v ++ [slash] <+: s := (show v ++ [slash] <+: stripSlash s by
      rw [hcut]
      exact (prefix_cut hw).mpr (.inl rfl)).trans (stripSlash_isPrefix s)
    have hrest := ih (hhead hprefix (by simp) habs) (by rw [stripSlash_concat]; exact hv')
    rw [stripSlash_concat] at hrest
    have hsplit : (∀ u, u ++ [slash] <+: stripSlash s → 1 < u.length →
        load (CStr.ofBytes (u ++ [slash])) ≠ .error .fx ∧
          load (CStr.ofBytes (u ++ [slash])) ≠ .error .fault) ↔
        (load (CStr.ofBytes (v ++ [slash])) ≠ .error .fx ∧
          load (CStr.ofBytes (v ++ [slash])) ≠ .error .fault) ∧
        (digToRoot load (v ++ [slash])).result = .done := by
      rw [hcut]
      constructor
      · exact fun h => ⟨h v ((prefix_cut hw).mpr (.inl rfl)) hv,
          hrest.mpr fun u hu => h u ((prefix_cut hw).mpr (.inr hu))⟩
      · rintro ⟨hfirst, hdone⟩ u hu hlt
        rcases (prefix_cut hw).mp hu with rfl | hu
        · exact hfirst
        · exact hrest.mp hdone u hu hlt
    rw [hsplit, digToRoot_cut hs hcut hw hv]
    cases h : load (CStr.ofBytes (v ++ [slash])) with
    | ok parent => exact ⟨fun hdone => ⟨⟨nofun, nofun⟩, hdone⟩, fun h => h.2⟩
    | error e =>
      cases e with
      | missing => exact ⟨fun hdone => ⟨⟨by decide, by decide⟩, hdone⟩, fun h => h.2⟩
      | fx => exact iff_of_false (fun h => by cases h) fun h => h.1.1 rfl
      | fault => exact iff_of_false (fun h => by cases h) fun h => h.1.2 rfl

theorem digToRoot_parents (s : List UInt8) : ∀ parent ∈ (digToRoot load s).parents,
    ∃ u, u ++ [slash] <+: stripSlash s ∧ load (CStr.ofBytes (u ++ [slash])) = .ok parent := by
  induction s using walk_induction with
  | outside s h => rw [digToRoot_none h]; exact fun _ h => by cases h
  | top s v w hs hcut hw hv => rw [digToRoot_top hs hcut hw hv]; exact fun _ h => by cases h
  | cut s v w hs hcut hw hv ih =>
    rw [stripSlash_concat] at ih
    have hrest : ∀ parent ∈ (digToRoot load (v ++ [slash])).parents, ∃ u,
        u ++ [slash] <+: stripSlash s ∧ load (CStr.ofBytes (u ++ [slash])) = .ok parent := by
      intro parent hparent
      obtain ⟨u, hu, hload⟩ := ih parent hparent
      exact ⟨u, by rw [hcut]; exact (prefix_cut hw).mpr (.inr hu), hload⟩
    rw [digToRoot_cut hs hcut hw hv]
    cases h : load (CStr.ofBytes (v ++ [slash])) with
    | ok first =>
      intro parent hparent
      rcases List.mem_append.mp hparent with hfirst | hparent
      · rw [List.mem_singleton.mp hfirst]
        exact ⟨v, by rw [hcut]; exact (prefix_cut hw).mpr (.inl rfl), h⟩
      · exact hrest parent hparent
    | error e =>
      cases e with
      | missing => exact hrest
      | fx => exact fun _ h => by cases h
      | fault => exact fun _ h => by cases h

/-- When the walk gets to its end, no node above is left out. -/
theorem digToRoot_above (s : List UInt8) (hdone : (digToRoot load s).result = .done)
    {u : List UInt8} (hu : u ++ [slash] <+: stripSlash s) (hlt : 1 < u.length) :
    load (CStr.ofBytes (u ++ [slash])) = .error .missing ∨
      ∃ parent ∈ (digToRoot load s).parents, load (CStr.ofBytes (u ++ [slash])) = .ok parent := by
  induction s using walk_induction with
  | outside s h =>
    rw [digToRoot_none h] at hdone
    cases hdone
  | top s v w hs hcut hw hv =>
    rw [hcut] at hu
    rcases (prefix_cut hw).mp hu with rfl | hu
    · exact absurd hlt (Nat.not_lt.mpr hv)
    · have hlen := hu.length_le
      rw [List.length_append, List.length_singleton] at hlen
      omega
  | cut s v w hs hcut hw hv ih =>
    rw [stripSlash_concat] at ih
    rw [digToRoot_cut hs hcut hw hv] at hdone ⊢
    rw [hcut] at hu
    cases hload : load (CStr.ofBytes (v ++ [slash])) with
    | ok first =>
      rw [hload] at hdone
      rcases (prefix_cut hw).mp hu with rfl | hu
      · exact .inr ⟨first, List.mem_append_left _ (List.mem_singleton_self _), hload⟩
      · rcases ih hdone hu with hmissing | ⟨parent, hmem, hparent⟩
        · exact .inl hmissing
        · exact .inr ⟨parent, List.mem_append_right _ hmem, hparent⟩
    | error e =>
      rw [hload] at hdone
      cases e with
      | missing =>
        rcases (prefix_cut hw).mp hu with rfl | hu
        · exact .inl hload
        · exact ih hdone hu
      | fx => cases hdone
      | fault => cases hdone

/-! ## The scan -/

/-- What a node reads through its field `leaf`. -/
def asLeaf (leaf : RedNode) : RedLeaf := ⟨leaf.config.map (·.headers), leaf.redpath, {}⟩

/-- All nodes get the leaf that was scanned. -/
def withLeaf (leaf : RedNode) (parents : List RedNode) : Family where
  node := { leaf with leaf := some (asLeaf leaf) }
  parents := parents.map fun n => { n with leaf := some (asLeaf leaf) }

/-- `RedNodesScan`; `none` is the end in a fault. -/
def redNodesScan (load : CStr → Except NotLoaded Loaded) (redpath : CStr) :
    Option (Option Family) :=
  match load redpath with
  | .error .fault => none
  | .error _ => some none
  | .ok leaf =>
    match redNodesDigToRoot load redpath with
    | ⟨.fault, _, _⟩ => none
    | ⟨.error, _, _⟩ => some none
    | ⟨.done, _, parents⟩ => some (some (withLeaf leaf.node (parents.map (·.node))))

theorem redNodesScan_eq_some {redpath : CStr} {family : Family} :
    redNodesScan load redpath = some (some family) ↔
      ∃ leaf, load redpath = .ok leaf ∧ (redNodesDigToRoot load redpath).result = .done ∧
        family = withLeaf leaf.node
          ((redNodesDigToRoot load redpath).parents.map (·.node)) := by
  rw [redNodesScan]
  cases hload : load redpath with
  | error e => cases e <;> exact ⟨fun h => (by cases h), fun ⟨_, h, _⟩ => (by cases h)⟩
  | ok leaf =>
    cases hdig : redNodesDigToRoot load redpath with
    | mk result tried parents =>
      cases result with
      | done =>
        constructor
        · intro h
          cases h
          exact ⟨leaf, rfl, rfl, rfl⟩
        · rintro ⟨_, heq, -, rfl⟩
          cases heq
          rfl
      | error => exact ⟨fun h => (by cases h), fun ⟨_, _, h, _⟩ => (by cases h)⟩
      | fault => exact ⟨fun h => (by cases h), fun ⟨_, _, h, _⟩ => (by cases h)⟩

end Node
end RedPak
