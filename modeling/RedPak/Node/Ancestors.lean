import RedPak.Node.Scan

/-!
# Node.Ancestors

Which directories the upward scan tries.

* `exact_iff_spelled`: exactly the ancestors of the directory that a path designates, when the path
  is spelled as the scan expects.
-/

namespace RedPak
namespace Node

open Conf Layered

/-! ## Directories -/

/-- The names that lead from the root to a directory. -/
abbrev Place := List (List UInt8)

/-- `.` and `..` -/
def here : List UInt8 := [0x2E]
def above : List UInt8 := [0x2E, 0x2E]

/-- A name is looked up in a directory. There are no symbolic links. -/
def follow (place : Place) (name : List UInt8) : Place :=
  if name = here then place
  else if name = above then place.dropLast
  else place ++ [name]

def start (cwd : Place) (path : List UInt8) : Place := if path.head? = some slash then [] else cwd

/-- The directory that a path designates, relative to the current directory. -/
def designated (cwd : Place) (path : List UInt8) : Place :=
  (fields slash path).foldl follow (start cwd path)

/-- The name of a directory in another one. -/
structure Plain (name : List UInt8) : Prop where
  isField : IsField slash name
  notHere : name ≠ here
  notAbove : name ≠ above

instance (name : List UInt8) : Decidable (Plain name) :=
  decidable_of_iff ((name ≠ [] ∧ slash ∉ name) ∧ name ≠ here ∧ name ≠ above)
    ⟨fun h => ⟨⟨h.1.1, h.1.2⟩, h.2.1, h.2.2⟩,
      fun h => ⟨⟨h.isField.ne_nil, h.isField.sepFree⟩, h.notHere, h.notAbove⟩⟩

theorem follow_plain {name : List UInt8} (h : Plain name) (place : Place) :
    follow place name = place ++ [name] := by
  rw [follow, if_neg h.notHere, if_neg h.notAbove]

theorem foldl_follow {names : Place} (h : ∀ name ∈ names, Plain name) (place : Place) :
    names.foldl follow place = place ++ names := by
  induction names generalizing place with
  | nil => rw [List.foldl_nil, List.append_nil]
  | cons name names ih =>
    rw [List.foldl_cons, follow_plain (h name (by simp)),
      ih (fun other hother => h other (by simp [hother])), List.append_assoc, List.singleton_append]

theorem designated_cut {v w : List UInt8} (hv : v ≠ []) (cwd : Place) :
    designated cwd (v ++ slash :: w) = (fields slash w).foldl follow (designated cwd v) := by
  have hstart : start cwd (v ++ slash :: w) = start cwd v := by
    rw [start, start, List.head?_append_of_ne_nil _ hv]
  rw [designated, fields_append_sep, List.foldl_append, hstart]
  rfl

theorem designated_concat {v : List UInt8} (hv : v ≠ []) (cwd : Place) :
    designated cwd (v ++ [slash]) = designated cwd v := by
  rw [designated_cut hv, fields_nil]
  rfl

theorem designated_stripSlash {s : List UInt8} (h : stripSlash s ≠ []) (cwd : Place) :
    designated cwd s = designated cwd (stripSlash s) := by
  rcases stripSlash_cases s with hs | ⟨hs, -⟩
  · conv_lhs => rw [hs]
    exact designated_concat h cwd
  · rw [← hs]

theorem designated_of_cut {s v w : List UInt8} (hcut : stripSlash s = v ++ slash :: w)
    (cwd : Place) : designated cwd s = designated cwd (v ++ slash :: w) := by
  rw [designated_stripSlash (by rw [hcut]; simp), hcut]

/-- The parent is one directory above exactly if the last part of the path is the name of a
directory. -/
theorem designated_child {v w : List UInt8} (hv : v ≠ []) (hw : slash ∉ w) {cwd : Place} :
    (∃ name, designated cwd (v ++ slash :: w) = designated cwd v ++ [name]) ↔ Plain w := by
  rw [designated_cut hv]
  by_cases hnil : w = []
  · subst hnil
    refine iff_of_false ?_ fun h => h.isField.ne_nil rfl
    rintro ⟨name, h⟩
    simpa using congrArg List.length h
  · have hfield : IsField slash w := ⟨hnil, hw⟩
    rw [hfield.fields_eq]
    show (∃ name, follow (designated cwd v) w = _) ↔ _
    by_cases hhere : w = here
    · refine iff_of_false ?_ fun h => h.notHere hhere
      rintro ⟨name, h⟩
      rw [follow, if_pos hhere] at h
      simpa using congrArg List.length h
    · by_cases habove : w = above
      · refine iff_of_false ?_ fun h => h.notAbove habove
        rintro ⟨name, h⟩
        rw [follow, if_neg hhere, if_pos habove] at h
        have hlen := congrArg List.length h
        rw [List.length_dropLast, List.length_append, List.length_singleton] at hlen
        omega
      · have hplain : Plain w := ⟨hfield, hhere, habove⟩
        exact iff_of_true ⟨w, follow_plain hplain _⟩ hplain

/-! ## Spelling -/

/-- What stands before the first slash behind the first two bytes, and the parts behind it. -/
def frontOf (path : List UInt8) : List UInt8 :=
  path.take 2 ++ ((path.drop 2).splitOn slash).headD []

def partsOf (path : List UInt8) : List (List UInt8) := ((path.drop 2).splitOn slash).tail

/-- A path as the upward scan takes it to be, less a slash at its end: it has a slash among its
first two bytes; up to the next one, it designates the root or a directory in the root, the latter
if it goes on; it goes on with names of directories, each behind one slash. -/
structure Understood (cwd : Place) (path : List UInt8) : Prop where
  slashed : slash ∈ path.take 2
  top : (designated cwd (frontOf path)).length ≤ 1
  inRoot : partsOf path ≠ [] → designated cwd (frontOf path) ≠ []
  plain : ∀ name ∈ partsOf path, Plain name

theorem joined_cons (f : List UInt8) (fs : List (List UInt8)) :
    joined slash (f :: fs) = f ++ fs.flatMap fun g => slash :: g := by
  induction fs using List.reverseRecOn with
  | nil => simp
  | append_singleton fs g ih =>
    rw [← List.cons_append, joined_concat g (List.cons_ne_nil f fs), ih]
    simp

theorem eq_front_parts (path : List UInt8) :
    path = frontOf path ++ (partsOf path).flatMap fun g => slash :: g := by
  obtain ⟨first, names, hsplit⟩ := List.exists_cons_of_ne_nil
    (List.splitOn_ne_nil slash (path.drop 2))
  have hjoin : [slash].intercalate ((path.drop 2).splitOn slash) = path.drop 2 :=
    List.intercalate_splitOn slash
  rw [hsplit] at hjoin
  have hcons := joined_cons first names
  rw [joined, hjoin] at hcons
  rw [frontOf, partsOf, hsplit, List.headD_cons, List.tail_cons, List.append_assoc, ← hcons,
    List.take_append_drop]

theorem designated_parts {cwd : Place} : ∀ {parts : List (List UInt8)} {front : List UInt8},
    front ≠ [] → (∀ name ∈ parts, Plain name) →
      designated cwd (front ++ parts.flatMap fun g => slash :: g) =
        designated cwd front ++ parts := by
  intro parts
  induction parts with
  | nil => intro front _ _; simp
  | cons name parts ih =>
    intro front hfront hplain
    have hname : Plain name := hplain name (by simp)
    have hstep : designated cwd (front ++ slash :: name) = designated cwd front ++ [name] := by
      rw [designated_cut hfront, hname.isField.fields_eq]
      exact follow_plain hname _
    have hrest := @ih (front ++ slash :: name) (by simp) fun other h => hplain other (by simp [h])
    rw [hstep] at hrest
    simpa using hrest

theorem understood_short {cwd : Place} {v w : List UInt8} (hv : v.length ≤ 1) (hw : slash ∉ w) :
    Understood cwd (v ++ slash :: w) ↔ (designated cwd (v ++ slash :: w)).length ≤ 1 := by
  have hdrop : slash ∉ (v ++ slash :: w).drop 2 ∧ slash ∈ (v ++ slash :: w).take 2 := by
    rcases v with _ | ⟨c, v⟩
    · exact ⟨fun h => hw (List.mem_of_mem_drop (i := 1) h), by simp⟩
    · obtain rfl : v = [] := List.length_eq_zero_iff.mp (by simpa using hv)
      exact ⟨hw, by simp⟩
  have hsplit := List.splitOn_eq_singleton hdrop.1
  have hfront : frontOf (v ++ slash :: w) = v ++ slash :: w := by
    rw [frontOf, hsplit, List.headD_cons, List.take_append_drop]
  have hparts : partsOf (v ++ slash :: w) = [] := by rw [partsOf, hsplit, List.tail_cons]
  constructor
  · intro h
    exact hfront ▸ h.top
  · intro h
    exact ⟨hdrop.2, by rwa [hfront], fun hne => absurd hparts hne, by
      rw [hparts]; exact fun _ h => absurd h List.not_mem_nil⟩

theorem understood_cut {cwd : Place} {v w : List UInt8} (hv : 1 < v.length) (hw : slash ∉ w) :
    Understood cwd (v ++ slash :: w) ↔
      Understood cwd v ∧ designated cwd v ≠ [] ∧ Plain w := by
  have htake : (v ++ slash :: w).take 2 = v.take 2 := List.take_append_of_le_length (by omega)
  obtain ⟨first, names, hsplit⟩ := List.exists_cons_of_ne_nil
    (List.splitOn_ne_nil slash (v.drop 2))
  have hsplit' : ((v ++ slash :: w).drop 2).splitOn slash = first :: names ++ [w] := by
    rw [List.drop_append_of_le_length (by omega), List.splitOn_append_cons_self, hsplit,
      List.splitOn_eq_singleton hw]
  have hfront : frontOf (v ++ slash :: w) = frontOf v := by
    rw [frontOf, frontOf, htake, hsplit, hsplit']
    rfl
  have hparts : partsOf (v ++ slash :: w) = partsOf v ++ [w] := by
    rw [partsOf, partsOf, hsplit, hsplit']
    rfl
  have hfront_ne : frontOf v ≠ [] := by
    rw [frontOf]
    exact List.append_ne_nil_of_left_ne_nil
      (List.ne_nil_of_length_pos (by rw [List.length_take]; omega)) _
  have hplace : (∀ name ∈ partsOf v, Plain name) →
      designated cwd v = designated cwd (frontOf v) ++ partsOf v := fun h => by
    conv_lhs => rw [eq_front_parts v]
    exact designated_parts hfront_ne h
  constructor
  · intro h
    have hroot := h.inRoot (by simp [hparts])
    rw [hfront] at hroot
    have hplain : ∀ name ∈ partsOf v, Plain name := fun name hname => h.plain name (by
      rw [hparts]; exact List.mem_append_left _ hname)
    refine ⟨⟨htake ▸ h.slashed, hfront ▸ h.top, fun _ => hroot, hplain⟩, ?_, h.plain w (by
      simp [hparts])⟩
    rw [hplace hplain]
    exact List.append_ne_nil_of_left_ne_nil hroot _
  · rintro ⟨h, hne, hw⟩
    refine ⟨htake ▸ h.slashed, by rw [hfront]; exact h.top, fun _ => ?_, fun name hname => ?_⟩
    · rw [hfront]
      by_cases hnone : partsOf v = []
      · rwa [hplace h.plain, hnone, List.append_nil] at hne
      · exact h.inRoot hnone
    · rw [hparts, List.mem_append, List.mem_singleton] at hname
      rcases hname with hname | rfl
      · exact h.plain name hname
      · exact hw

/-! ## The walk -/

/-- The walk over directories none of which is a node. -/
def dryDig : List UInt8 → Dug := digToRoot fun _ => .error .missing

/-- No load fails. -/
def NeverFails (load : CStr → Except NotLoaded Loaded) : Prop :=
  ∀ path, load path ≠ .error .fx ∧ load path ≠ .error .fault

/-- What is loaded does not matter, but for failures: these end the walk. -/
theorem digToRoot_dry (load : CStr → Except NotLoaded Loaded) (s : List UInt8) :
    (digToRoot load s).tried <+: (dryDig s).tried ∧
      ((∀ path, load path ≠ .error .fault) → (dryDig s).result ≠ .fault →
        (digToRoot load s).result ≠ .fault) ∧
      (NeverFails load → (digToRoot load s).result = (dryDig s).result ∧
        (digToRoot load s).tried = (dryDig s).tried) := by
  induction s using walk_induction with
  | outside s hnone =>
    rw [dryDig, digToRoot_none hnone, digToRoot_none hnone]
    exact ⟨List.prefix_refl _, fun _ h => h, fun _ => ⟨rfl, rfl⟩⟩
  | top s v w hs hcut hw hv =>
    rw [dryDig, digToRoot_top hs hcut hw hv, digToRoot_top hs hcut hw hv]
    exact ⟨List.prefix_refl _, fun _ h => h, fun _ => ⟨rfl, rfl⟩⟩
  | cut s v w hs hcut hw hv ih =>
    obtain ⟨htried, hsafe, hall⟩ := ih
    rw [dryDig, digToRoot_cut hs hcut hw hv, digToRoot_cut hs hcut hw hv]
    cases hload : load (CStr.ofBytes (v ++ [slash])) with
    | ok parent =>
      exact ⟨List.cons_prefix_cons.mpr ⟨rfl, htried⟩, hsafe,
        fun h => ⟨(hall h).1, congrArg (_ :: ·) (hall h).2⟩⟩
    | error e =>
      cases e with
      | missing =>
        exact ⟨List.cons_prefix_cons.mpr ⟨rfl, htried⟩, hsafe,
          fun h => ⟨(hall h).1, congrArg (_ :: ·) (hall h).2⟩⟩
      | fx =>
        exact ⟨List.cons_prefix_cons.mpr ⟨rfl, List.nil_prefix⟩, fun _ _ => by simp,
          fun h => absurd hload (h _).1⟩
      | fault =>
        exact ⟨List.cons_prefix_cons.mpr ⟨rfl, List.nil_prefix⟩, fun h => absurd hload (h _),
          fun h => absurd hload (h _).2⟩

/-- The walk ends at the root after it has tried the ancestors, and nothing else. -/
def TriesAncestors (cwd : Place) (s : List UInt8) : Prop :=
  (dryDig s).result = .done ∧ (dryDig s).tried.map (designated cwd) = ancestry (designated cwd s)

theorem triesAncestors_iff (cwd : Place) (s : List UInt8) :
    TriesAncestors cwd s ↔ Understood cwd (stripSlash s) := by
  induction s using walk_induction with
  | outside s hnone =>
    rw [TriesAncestors, dryDig, digToRoot_none hnone]
    exact iff_of_false (fun h => by cases h.1) fun h => hnone (List.mem_of_mem_take h.slashed)
  | top s v w hs hcut hw hv =>
    rw [TriesAncestors, dryDig, digToRoot_top hs hcut hw hv, designated_of_cut hcut, hcut,
      understood_short hv hw, ← ancestry_eq_nil]
    exact ⟨fun h => h.2.symm, fun h => ⟨rfl, h.symm⟩⟩
  | cut s v w hs hcut hw hv ih =>
    have hne : v ≠ [] := List.ne_nil_of_length_pos (by omega)
    rw [stripSlash_concat] at ih
    rw [hcut, understood_cut hv hw, ← ih, TriesAncestors, dryDig, digToRoot_cut hs hcut hw hv,
      designated_of_cut hcut]
    show (digToRoot _ (v ++ [slash])).result = _ ∧ designated cwd (v ++ [slash]) ::
      (digToRoot _ (v ++ [slash])).tried.map (designated cwd) = _ ↔ _
    rw [cons_eq_ancestry, designated_concat hne, designated_child hne hw, TriesAncestors,
      designated_concat hne, dryDig]
    constructor
    · rintro ⟨hdone, hplain, hroot, htried⟩
      exact ⟨⟨hdone, htried⟩, hroot, hplain⟩
    · rintro ⟨⟨hdone, htried⟩, hroot, hplain⟩
      exact ⟨hdone, hplain, hroot, htried⟩

/-! ## Exactness -/

/-- The walk up from a path reads nothing outside of the string; it tries the ancestors of the
directory that the path designates, each once and the nearest first, up to a load that fails. -/
structure Exact (cwd : Place) (redpath : CStr) : Prop where
  safe : ∀ load, (∀ path, load path ≠ .error .fault) →
    (redNodesDigToRoot load redpath).result ≠ .fault
  ancestors : ∀ load, NeverFails load → (redNodesDigToRoot load redpath).result = .done ∧
    (redNodesDigToRoot load redpath).tried.map (designated cwd) =
      ancestry (designated cwd redpath.bytes)
  upTo : ∀ load, (redNodesDigToRoot load redpath).tried.map (designated cwd) <+:
    ancestry (designated cwd redpath.bytes)
  notItself : ∀ load, designated cwd redpath.bytes ∉
    (redNodesDigToRoot load redpath).tried.map (designated cwd)

theorem neverFails_missing : NeverFails fun _ => .error .missing :=
  fun _ => ⟨by simp, by simp⟩

section

variable {cwd : Place} {redpath : CStr}

theorem Exact.understood (h : Exact cwd redpath) (hlen : redpath.bytes.length ≤ redMaxpathlen) :
    Understood cwd (stripSlash redpath.bytes) := by
  have hdry := h.ancestors _ neverFails_missing
  rw [redNodesDigToRoot, List.take_of_length_le hlen] at hdry
  exact (triesAncestors_iff cwd _).mp hdry

theorem Understood.exact (h : Understood cwd (stripSlash redpath.bytes))
    (hlen : redpath.bytes.length ≤ redMaxpathlen) : Exact cwd redpath := by
  obtain ⟨hdone, htried⟩ := (triesAncestors_iff cwd _).mpr h
  have hcopy : ∀ load, redNodesDigToRoot load redpath = digToRoot load redpath.bytes := by
    intro load
    rw [redNodesDigToRoot, List.take_of_length_le hlen]
  have hfront : ∀ load, (redNodesDigToRoot load redpath).tried.map (designated cwd) <+:
      ancestry (designated cwd redpath.bytes) := fun load => by
    rw [hcopy, ← htried]
    exact (digToRoot_dry load redpath.bytes).1.map _
  refine ⟨fun load hload => ?_, fun load hload => ?_, hfront, fun load hmem => ?_⟩
  · rw [hcopy]
    exact (digToRoot_dry load redpath.bytes).2.1 hload (by rw [hdone]; simp)
  · obtain ⟨hresult, hsame⟩ := (digToRoot_dry load redpath.bytes).2.2 hload
    rw [hcopy, hresult, hsame]
    exact ⟨hdone, htried⟩
  · exact not_mem_ancestry _ ((hfront load).subset hmem)

end

/-- **Exactness.** The upward scan tries the ancestors of a directory exactly when it understands
how the path is spelled. No longer path loads as a node. -/
theorem exact_iff_understood (cwd : Place) {redpath : CStr}
    (hlen : redpath.bytes.length ≤ redMaxpathlen) :
    Exact cwd redpath ↔ Understood cwd (stripSlash redpath.bytes) :=
  ⟨fun h => h.understood hlen, fun h => h.exact hlen⟩

theorem exact_iff_understood_home : Exact [] (CStr.lit "/home/user/") ↔
    Understood [] (stripSlash (CStr.lit "/home/user/").bytes) :=
  exact_iff_understood [] (by decide +kernel)

/-- The root is left by its front, and a doubled slash gives a directory twice. -/
theorem not_exact_slashes : ¬ Exact [] (CStr.lit "/") ∧ ¬ Exact [] (CStr.lit "/a//b") := by
  refine ⟨fun h => ?_, fun h => ?_⟩
  · have hslash := (h.understood (by decide +kernel)).slashed
    exact absurd hslash (by decide +kernel)
  · have hplain := (h.understood (by decide +kernel)).plain [] (by decide +kernel)
    exact hplain.isField.ne_nil rfl

theorem Exact.same_chain {cwd : Place} {redpath redpath' : CStr} (h : Exact cwd redpath)
    (h' : Exact cwd redpath')
    (hsame : designated cwd redpath.bytes = designated cwd redpath'.bytes)
    {load : CStr → Except NotLoaded Loaded} (hload : NeverFails load) :
    (redNodesDigToRoot load redpath).tried.map (designated cwd) =
      (redNodesDigToRoot load redpath').tried.map (designated cwd) := by
  rw [(h.ancestors load hload).2, (h'.ancestors load hload).2, hsame]

end Node
end RedPak
