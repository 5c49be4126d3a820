import RedPak.Cgroup.Root
import RedPak.Layered.Trim

/-!
# Cgroup.Normalise

The form of the paths that `set_cgroup_path` makes: below the mount point of the cgroups, without a
slash at the end, and such that they are left as they are when they are set again.

* `setCgroupPath_cases`: when a path is stored.
* `cgroupPathText_eq_self_iff`: which paths are left as they are.
* `normalises_iff`: for which mount points and sources the paths have the form.
-/

namespace RedPak
namespace Cgroup

open Conf Layered

/-- `/` and nothing else -/
abbrev isSlash (c : UInt8) : Bool := c == slash

section

variable (pfx : CStr) (src : List UInt8)

/-- The bytes that are stored before the source: the prefix, unless the source has it, and a
slash. -/
def frontText : List UInt8 :=
  if pfx.bytes <+: src then [slash]
  else if pfx.bytes.getLast? = some slash then pfx.bytes else pfx.bytes ++ [slash]

/-- The bytes before the source are more than the buffer has. -/
def Outside : Prop := ¬ pfx.bytes <+: src ∧ pathMax < (frontText pfx src).length

/-- The directory that the prefix names, without a slash at its end: the root has no name. -/
def mountPoint : List UInt8 := pfx.bytes.rdropWhile isSlash

/-- The mount point or a path below it, with no slash at the end. -/
structure BelowMount (text : List UInt8) : Prop where
  below : text = mountPoint pfx ∨ mountPoint pfx ++ [slash] <+: text
  noSlash : text.getLast? ≠ some slash

/-- Nothing is stored outside of the buffer, and what is there at the end is a path of the form,
which is left as it is when it is set again. -/
structure Normalises : Prop where
  inside : ∀ dest, setCgroupPath pfx dest src ≠ .error .fault
  result : ∀ dest n path, setCgroupPath pfx dest src = .ok (n, path) → ∃ text, n = text.length ∧
    text.length < pathMax ∧ Spelled path text ∧ BelowMount pfx text ∧
    ∀ dest', ∃ path', setCgroupPath pfx dest' text = .ok (n, path') ∧ Spelled path' text

/-- There is a name in the source, and the prefix starts with one slash only. A source that starts
with the prefix has a name behind its last slash; or it goes on with a slash, if it goes on. -/
def HasForm : Prop :=
  pfx.bytes.tail.head? ≠ some slash ∧
    if pfx.bytes <+: src then
      if pfx.bytes.getLast? = some slash then ∃ c ∈ src.drop pfx.bytes.length, c ≠ slash
      else src.drop pfx.bytes.length = [] ∨ (src.drop pfx.bytes.length).head? = some slash
    else ∃ c ∈ src, c ≠ slash

instance : Decidable (Outside pfx src) := inferInstanceAs (Decidable (_ ∧ _))

instance : Decidable (HasForm pfx src) := inferInstanceAs (Decidable (_ ∧ _))

end

variable {pfx : CStr} {src : List UInt8} {dest : PathBuffer}

/-! ## When a path is stored -/

theorem not_copied_iff : (src.length < pfx.bytes.length ∨ src.take pfx.bytes.length ≠ pfx.bytes) ↔
    ¬ pfx.bytes <+: src := by
  rw [List.prefix_iff_eq_take, eq_comm (a := pfx.bytes)]
  constructor
  · rintro (h | h)
    · intro heq
      have hlen := congrArg List.length heq
      rw [List.length_take] at hlen
      omega
    · exact h
  · exact .inr

theorem cgroupPathText_eq (hpfx : pfx.bytes ≠ []) :
    cgroupPathText pfx src = frontText pfx src ++ trim isSlash src := by
  rw [cgroupPathText, frontText]
  by_cases h : pfx.bytes <+: src
  · rw [if_neg (not_not_intro h ∘ not_copied_iff.mp), if_pos h]
    rfl
  · rw [if_pos (not_copied_iff.mpr h), if_neg h]
    by_cases hlast : pfx.bytes.getLast? = some slash
    · rw [if_neg (by simp [hpfx, hlast]), if_pos hlast, List.append_nil]
      rfl
    · rw [if_pos (.inr hlast), if_neg hlast]
      rfl

theorem length_cgroupPathText (hpfx : pfx.bytes ≠ []) : (cgroupPathText pfx src).length =
    (frontText pfx src).length + (trim isSlash src).length := by
  rw [cgroupPathText_eq hpfx, List.length_append]

/-- What comes behind the front: the source, if there is room for it. -/
theorem setCgroupPath_eq (hpfx : pfx.bytes ≠ []) (hinside : ¬ Outside pfx src)
    (dest : PathBuffer) : ∃ dest' : PathBuffer, setCgroupPath pfx dest src =
      let pos := (frontText pfx src).length
      let src := trim isSlash src
      if pathMax - pos ≤ src.length then .error .failed
      else .ok (pos + src.length,
        (dest'.writeAll pos (src.map some)).store (pos + src.length) (some 0)) := by
  rw [Outside, frontText] at hinside
  unfold frontText setCgroupPath
  dsimp only
  by_cases h : pfx.bytes <+: src
  · simp only [if_neg (not_not_intro h ∘ not_copied_iff.mp), if_pos h]
    refine ⟨dest.store 0 (some slash), ?_⟩
    rw [if_neg (not_not_intro h ∘ not_copied_iff.mp ∘ And.left),
      if_neg fun hfault => absurd hfault.2 (by decide)]
    rfl
  · have hcopied := not_copied_iff.mpr h
    have hzero : pfx.bytes.length ≠ 0 := by simpa using hpfx
    have hfits := not_and.mp hinside h
    rw [if_neg h] at hfits
    simp only [if_pos hcopied, if_neg h]
    by_cases hlast : pfx.bytes.getLast? = some slash
    · rw [if_pos hlast] at hfits
      simp only [hzero, hlast, ne_eq, not_true_eq_false, or_self, if_false, false_and, if_true]
      refine ⟨dest.writeAll 0 (pfx.bytes.map some), ?_⟩
      rw [if_neg fun hfault => hfits hfault.2]
      rfl
    · rw [if_neg hlast, List.length_append, List.length_singleton] at hfits
      simp only [hlast, ne_eq, not_false_eq_true, or_true, if_true, true_and, if_false,
        List.length_append, List.length_singleton]
      refine ⟨(dest.writeAll 0 (pfx.bytes.map some)).store pfx.bytes.length (some slash), ?_⟩
      rw [if_neg fun hfault => absurd hfault.2 (by omega), if_neg (by omega)]
      rfl

theorem setCgroupPath_outside (hpfx : pfx.bytes ≠ []) (hout : Outside pfx src)
    (dest : PathBuffer) : setCgroupPath pfx dest src = .error .fault := by
  obtain ⟨h, hlen⟩ := hout
  have hcopied := not_copied_iff.mpr h
  have hzero : pfx.bytes.length ≠ 0 := by simpa using hpfx
  rw [frontText, if_neg h] at hlen
  unfold setCgroupPath
  dsimp only
  by_cases hmax : pathMax < pfx.bytes.length
  · rw [if_pos ⟨hcopied, hmax⟩]
  · by_cases hlast : pfx.bytes.getLast? = some slash
    · rw [if_pos hlast] at hlen
      exact absurd hlen hmax
    · rw [if_neg hlast, List.length_append, List.length_singleton] at hlen
      rw [if_neg (hmax ∘ And.right), if_pos]
      rw [if_pos hcopied]
      exact ⟨.inr hlast, by omega⟩

/-- **The end of a call**: a store outside of the buffer, a path that is too long, or the path. -/
theorem setCgroupPath_cases (hpfx : pfx.bytes ≠ []) (dest : PathBuffer) :
    (Outside pfx src ∧ setCgroupPath pfx dest src = .error .fault) ∨
    (¬ Outside pfx src ∧ pathMax ≤ (cgroupPathText pfx src).length ∧
      setCgroupPath pfx dest src = .error .failed) ∨
    (¬ Outside pfx src ∧ (cgroupPathText pfx src).length < pathMax ∧
      ∃ found, setCgroupPath pfx dest src = .ok found) := by
  by_cases hout : Outside pfx src
  · exact .inl ⟨hout, setCgroupPath_outside hpfx hout dest⟩
  · right
    obtain ⟨dest', heq⟩ := setCgroupPath_eq hpfx hout dest
    rw [length_cgroupPathText hpfx, heq]
    by_cases hroom : pathMax - (frontText pfx src).length ≤ (trim isSlash src).length
    · exact .inl ⟨hout, by omega, if_pos hroom⟩
    · exact .inr ⟨hout, by omega, _, if_neg hroom⟩

/-! ## What is left as it is -/

theorem slash_trim_iff {text : List UInt8} : slash :: trim isSlash text = text ↔
    ∃ u, text = slash :: u ∧ Trimmed isSlash u := by
  constructor
  · intro h
    exact ⟨trim isSlash text, h.symm, trimmed_trim isSlash text⟩
  · rintro ⟨u, rfl, hu⟩
    rw [trim_cons (by rfl), hu.trim_eq]

theorem prefix_frontText {src : List UInt8} (h : ¬ pfx.bytes <+: src) :
    pfx.bytes <+: frontText pfx src := by
  rw [frontText, if_neg h]
  split
  · exact List.prefix_rfl
  · exact List.prefix_append _ _

theorem cgroupPathText_eq_self_iff (hpfx : pfx.bytes ≠ []) {text : List UInt8} :
    cgroupPathText pfx text = text ↔
      pfx.bytes <+: text ∧ ∃ u, text = slash :: u ∧ Trimmed isSlash u := by
  rw [cgroupPathText_eq hpfx, ← slash_trim_iff]
  by_cases h : pfx.bytes <+: text
  · rw [frontText, if_pos h]
    exact (and_iff_right h).symm
  · refine ⟨fun heq => absurd ?_ h, fun hfix => absurd hfix.1 h⟩
    rw [← heq]
    exact (prefix_frontText h).trans (List.prefix_append _ _)

/-! ## What is stored -/

theorem Spelled.unique {text text' : List UInt8} {path : PathBuffer} (h : Spelled path text)
    (h' : Spelled path text') (hlen : text.length = text'.length) : text = text' := by
  have hslice := h.slice
  rw [hlen, h'.slice] at hslice
  exact (List.map_injective_iff.mpr (fun _ _ => Option.some.inj) hslice).symm

theorem Normalises.form (h : Normalises pfx src) {found : Nat × PathBuffer}
    (hset : setCgroupPath pfx dest src = .ok found) : BelowMount pfx (cgroupPathText pfx src) ∧
      cgroupPathText pfx (cgroupPathText pfx src) = cgroupPathText pfx src := by
  obtain ⟨n, path⟩ := found
  obtain ⟨hn, hspelled⟩ := setCgroupPath_ok hset
  obtain ⟨text, hlen, -, htext, hbelow, hagain⟩ := h.result dest n path hset
  obtain rfl := htext.unique hspelled (hlen.symm.trans hn)
  refine ⟨hbelow, ?_⟩
  obtain ⟨path', hset', htext'⟩ := hagain dest
  obtain ⟨hn', hspelled'⟩ := setCgroupPath_ok hset'
  exact hspelled'.unique htext' (hn'.symm.trans hlen)

theorem normalises_of_form (hpfx : pfx.bytes ≠ []) (hinside : ¬ Outside pfx src)
    (hbelow : BelowMount pfx (cgroupPathText pfx src))
    (hfixed : cgroupPathText pfx (cgroupPathText pfx src) = cgroupPathText pfx src) :
    Normalises pfx src := by
  constructor
  · intro dest hfault
    rcases setCgroupPath_cases hpfx dest with ⟨hout, -⟩ | ⟨-, -, heq⟩ | ⟨-, -, found, heq⟩
    · exact hinside hout
    · cases hfault.symm.trans heq
    · cases hfault.symm.trans heq
  · intro dest n path hset
    obtain ⟨hn, hspelled⟩ := setCgroupPath_ok hset
    refine ⟨_, hn, hspelled.fits, hspelled, hbelow, fun dest' => ?_⟩
    -- the path is neither too long nor has it a prefix to be stored
    have hpre := ((cgroupPathText_eq_self_iff hpfx).mp hfixed).1
    have hfits := hspelled.fits
    rcases setCgroupPath_cases hpfx dest' with ⟨hout, -⟩ | ⟨-, hlong, -⟩ | ⟨-, -, found, heq⟩
    · exact absurd hpre hout.1
    · rw [hfixed] at hlong
      omega
    · obtain ⟨n', path'⟩ := found
      obtain ⟨hn', hspelled'⟩ := setCgroupPath_ok heq
      rw [hfixed] at hn' hspelled'
      rw [hn, ← hn']
      exact ⟨path', heq, hspelled'⟩

theorem normalises_of_long (hpfx : pfx.bytes ≠ []) (hinside : ¬ Outside pfx src)
    (hlong : pathMax ≤ (cgroupPathText pfx src).length) : Normalises pfx src := by
  have hfailed (dest : PathBuffer) : setCgroupPath pfx dest src = .error .failed := by
    rcases setCgroupPath_cases hpfx dest with ⟨hout, -⟩ | ⟨-, -, heq⟩ | ⟨-, hfits, -⟩
    · exact absurd hout hinside
    · exact heq
    · omega
  constructor
  · intro dest hfault
    cases hfault.symm.trans (hfailed dest)
  · intro dest n path hset
    cases hset.symm.trans (hfailed dest)

/-! ## The form of the text -/

theorem isSlash_iff (c : UInt8) : isSlash c = true ↔ c = slash := beq_iff_eq

theorem not_last_slash_iff {text : List UInt8} :
    text.getLast? ≠ some slash ↔ ∀ c ∈ text.getLast?, isSlash c = false := by
  cases text.getLast? with
  | none => simp
  | some c => simp

theorem mountPoint_slash (h : pfx.bytes.getLast? = some slash) :
    mountPoint pfx ++ [slash] <+: pfx.bytes :=
  dropped_of_last (fun c => (isSlash_iff c).mp) h rfl

theorem mountPoint_eq (h : pfx.bytes.getLast? ≠ some slash) : mountPoint pfx = pfx.bytes :=
  rdropWhile_eq_self (not_last_slash_iff.mp h)

theorem mountPoint_slash_frontText (h : ¬ pfx.bytes <+: src) :
    mountPoint pfx ++ [slash] <+: frontText pfx src := by
  rw [frontText, if_neg h]
  by_cases hlast : pfx.bytes.getLast? = some slash
  · rw [if_pos hlast]
    exact mountPoint_slash hlast
  · rw [if_neg hlast, mountPoint_eq hlast]

theorem getLast?_frontText : (frontText pfx src).getLast? = some slash := by
  unfold frontText
  split
  · rfl
  · split
    · assumption
    · exact List.getLast?_concat

theorem head_frontText {p : List UInt8} (hp : pfx.bytes = slash :: p)
    (hhead : p.head? ≠ some slash) (h : ¬ pfx.bytes <+: src) :
    ∃ front, frontText pfx src = slash :: front ∧ front.head? ≠ some slash := by
  rw [frontText, if_neg h]
  by_cases hlast : pfx.bytes.getLast? = some slash
  · rw [if_pos hlast]
    exact ⟨p, hp, hhead⟩
  · rw [if_neg hlast]
    refine ⟨p ++ [slash], by rw [hp]; rfl, ?_⟩
    cases p with
    | nil => exact absurd (by rw [hp]; rfl) hlast
    | cons c p => exact hhead

theorem trimmed_append {front rest : List UInt8} (hfront : front.head? ≠ some slash)
    (hrest : Trimmed isSlash rest) (hne : rest ≠ []) : Trimmed isSlash (front ++ rest) := by
  constructor
  · cases front with
    | nil => exact hrest.head
    | cons c front => simpa using hfront
  · rw [List.getLast?_append_of_ne_nil _ hne]
    exact hrest.last

theorem trim_ne_nil_iff : trim isSlash src ≠ [] ↔ ∃ c ∈ src, c ≠ slash := by
  simp [trim_ne_nil]

theorem form_of_copied {p : List UInt8} (hp : pfx.bytes = slash :: p)
    (hhead : p.head? ≠ some slash) (h : ¬ pfx.bytes <+: src) :
    (BelowMount pfx (cgroupPathText pfx src) ∧
      cgroupPathText pfx (cgroupPathText pfx src) = cgroupPathText pfx src) ↔
        ∃ c ∈ src, c ≠ slash := by
  have hpfx : pfx.bytes ≠ [] := by simp [hp]
  rw [cgroupPathText_eq_self_iff hpfx, cgroupPathText_eq hpfx, ← trim_ne_nil_iff]
  constructor
  · rintro ⟨⟨-, hlast⟩, -⟩ hnil
    rw [hnil, List.append_nil, getLast?_frontText] at hlast
    exact hlast rfl
  · intro hne
    have htrimmed := trimmed_trim isSlash src
    refine ⟨⟨.inr ((mountPoint_slash_frontText h).trans (List.prefix_append _ _)), ?_⟩,
      (prefix_frontText h).trans (List.prefix_append _ _), ?_⟩
    · rw [List.getLast?_append_of_ne_nil _ hne]
      exact not_last_slash_iff.mpr htrimmed.last
    · obtain ⟨front, hfront, hfirst⟩ := head_frontText hp hhead h
      rw [hfront]
      exact ⟨front ++ trim isSlash src, rfl, trimmed_append hfirst htrimmed hne⟩

theorem mountPoint_cons {p : List UInt8} (hp : pfx.bytes = slash :: p)
    (hhead : p.head? ≠ some slash) (hne : p ≠ []) :
    mountPoint pfx = slash :: p.rdropWhile isSlash := by
  have hname : p.rdropWhile isSlash ≠ [] := by
    rw [ne_eq, List.rdropWhile_eq_nil_iff]
    intro hall
    obtain ⟨c, p', rfl⟩ := List.exists_cons_of_ne_nil hne
    exact hhead (congrArg some ((isSlash_iff c).mp (hall c List.mem_cons_self)))
  rw [mountPoint, hp, ← List.singleton_append, rdropWhile_append, if_neg hname]
  rfl

/-- A source with the prefix is stored without the slashes at its end. -/
theorem text_prefixed {p : List UInt8} (hp : pfx.bytes = slash :: p)
    (hhead : p.head? ≠ some slash) (hne : p ≠ []) (rest : List UInt8) :
    cgroupPathText pfx (pfx.bytes ++ rest) =
      if rest.rdropWhile isSlash = [] then mountPoint pfx
      else pfx.bytes ++ rest.rdropWhile isSlash := by
  have hfirst : ∀ c ∈ (p ++ rest).head?, isSlash c = false := by
    obtain ⟨c, p', rfl⟩ := List.exists_cons_of_ne_nil hne
    simpa using hhead
  rw [cgroupPathText_eq (by simp [hp]), frontText, if_pos (List.prefix_append _ _),
    mountPoint_cons hp hhead hne, hp, List.singleton_append, List.cons_append, trim_cons rfl, trim,
    dropWhile_eq_self hfirst, rdropWhile_append]
  split <;> rfl

theorem belowMount_of_name {text : List UInt8} (h : ∃ c ∈ text, c ≠ slash) :
    BelowMount pfx (pfx.bytes ++ text.rdropWhile isSlash) ↔
      pfx.bytes.getLast? = some slash ∨ text.head? = some slash := by
  have hne : text.rdropWhile isSlash ≠ [] := by
    simpa [List.rdropWhile_eq_nil_iff] using h
  have hlast : (pfx.bytes ++ text.rdropWhile isSlash).getLast? ≠ some slash := by
    rw [List.getLast?_append_of_ne_nil _ hne]
    exact not_last_slash_iff.mpr (getLast?_rdropWhile text)
  have hhead : (text.rdropWhile isSlash).head? = text.head? := by
    obtain ⟨rest, hrest⟩ := List.rdropWhile_prefix isSlash text
    exact (List.head?_append_of_ne_nil _ hne).symm.trans (congrArg List.head? hrest)
  by_cases hpfx : pfx.bytes.getLast? = some slash
  · exact iff_of_true ⟨.inr ((mountPoint_slash hpfx).trans (List.prefix_append _ _)), hlast⟩
      (.inl hpfx)
  · have hmount := mountPoint_eq hpfx
    rw [or_iff_right hpfx, ← hhead, ← List.singleton_prefix_iff_head?_eq_some]
    constructor
    · rintro ⟨heq | hpre, -⟩
      · rw [hmount] at heq
        exact absurd (List.append_right_eq_self.mp heq) hne
      · rwa [hmount, List.prefix_append_right_inj] at hpre
    · intro hslash
      refine ⟨.inr ?_, hlast⟩
      rwa [hmount, List.prefix_append_right_inj]

theorem prefix_mountPoint_iff :
    pfx.bytes <+: mountPoint pfx ↔ pfx.bytes.getLast? ≠ some slash := by
  constructor
  · rintro hpre hlast
    have heq := hpre.eq_of_length_le (List.rdropWhile_prefix isSlash pfx.bytes).length_le
    refine not_last_slash_iff.mpr (getLast?_rdropWhile pfx.bytes) ?_
    rw [← mountPoint, ← heq]
    exact hlast
  · intro hlast
    rw [mountPoint_eq hlast]

theorem form_of_prefix {p rest : List UInt8} (hp : pfx.bytes = slash :: p)
    (hhead : p.head? ≠ some slash) :
    (BelowMount pfx (cgroupPathText pfx (pfx.bytes ++ rest)) ∧
      cgroupPathText pfx (cgroupPathText pfx (pfx.bytes ++ rest)) =
        cgroupPathText pfx (pfx.bytes ++ rest)) ↔
      if pfx.bytes.getLast? = some slash then ∃ c ∈ rest, c ≠ slash
      else rest = [] ∨ rest.head? = some slash := by
  have hpfx : pfx.bytes ≠ [] := by simp [hp]
  have htext : cgroupPathText pfx (pfx.bytes ++ rest) =
      slash :: trim isSlash (pfx.bytes ++ rest) := by
    rw [cgroupPathText_eq hpfx, frontText, if_pos (List.prefix_append _ _)]
    rfl
  have hfixed : ∃ u, cgroupPathText pfx (pfx.bytes ++ rest) = slash :: u ∧ Trimmed isSlash u :=
    ⟨_, htext, trimmed_trim isSlash _⟩
  rw [cgroupPathText_eq_self_iff hpfx, and_iff_left hfixed]
  cases p with
  | nil =>
    have hlast : pfx.bytes.getLast? = some slash := by rw [hp]; rfl
    have hroot : trim isSlash (pfx.bytes ++ rest) = trim isSlash rest := by
      rw [hp, List.singleton_append, trim_cons rfl]
    have hpre : pfx.bytes <+: slash :: trim isSlash rest := by
      rw [hp, List.singleton_prefix_cons_iff]
    rw [htext, hroot, if_pos hlast, and_iff_left hpre, ← trim_ne_nil_iff]
    constructor
    · rintro hbelow hnil
      rw [hnil] at hbelow
      exact hbelow.noSlash rfl
    · intro hne
      have hname : ∃ c ∈ rest.dropWhile isSlash, c ≠ slash := by
        simpa [trim, List.rdropWhile_eq_nil_iff] using hne
      have hbelow : BelowMount pfx (pfx.bytes ++ trim isSlash rest) :=
        (belowMount_of_name hname).mpr (.inl hlast)
      rwa [hp] at hbelow
  | cons c p =>
    rw [text_prefixed hp hhead (List.cons_ne_nil c p)]
    by_cases hrest : rest.rdropWhile isSlash = []
    · -- nothing but slashes behind the prefix
      have hslash := List.rdropWhile_eq_nil_iff.mp hrest
      have hbelow : BelowMount pfx (mountPoint pfx) :=
        ⟨.inl rfl, not_last_slash_iff.mpr (getLast?_rdropWhile pfx.bytes)⟩
      rw [if_pos hrest, prefix_mountPoint_iff, and_iff_right hbelow]
      split
      · rename_i hlast
        simpa [hlast] using hslash
      · rename_i hlast
        refine iff_of_true hlast ?_
        cases rest with
        | nil => exact .inl rfl
        | cons d rest =>
          exact .inr (congrArg some ((isSlash_iff d).mp (hslash d List.mem_cons_self)))
    · have hname : ∃ c ∈ rest, c ≠ slash := by simpa [List.rdropWhile_eq_nil_iff] using hrest
      rw [if_neg hrest, belowMount_of_name hname, and_iff_left (List.prefix_append _ _)]
      split
      · rename_i hlast
        exact iff_of_true (.inl hlast) hname
      · rename_i hlast
        have hne : rest ≠ [] := by
          rintro rfl
          exact hrest rfl
        rw [or_iff_right hlast, or_iff_right hne]

/-! ## The paths that are stored -/

theorem head_of_fixed {p text : List UInt8} (hp : pfx.bytes = slash :: p)
    (h : cgroupPathText pfx text = text) : p.head? ≠ some slash := by
  obtain ⟨hpre, u, rfl, htrimmed⟩ := (cgroupPathText_eq_self_iff (by simp [hp])).mp h
  rw [hp, List.prefix_cons_inj] at hpre
  intro hslash
  obtain ⟨rest, rfl⟩ := hpre
  obtain ⟨p', rfl⟩ := List.head?_eq_some_iff.mp hslash
  cases htrimmed.head slash rfl

theorem form_iff {p : List UInt8} (hp : pfx.bytes = slash :: p) :
    (BelowMount pfx (cgroupPathText pfx src) ∧
      cgroupPathText pfx (cgroupPathText pfx src) = cgroupPathText pfx src) ↔ HasForm pfx src := by
  rw [HasForm, hp, List.tail_cons, ← hp]
  by_cases hhead : p.head? = some slash
  · exact iff_of_false (fun h => head_of_fixed hp h.2 hhead) (fun h => h.1 hhead)
  · rw [and_iff_right hhead]
    by_cases hpre : pfx.bytes <+: src
    · obtain ⟨rest, rfl⟩ := hpre
      rw [if_pos (List.prefix_append _ _), List.drop_left]
      exact form_of_prefix hp hhead
    · rw [if_neg hpre]
      exact form_of_copied hp hhead hpre

/-- **The paths of the cgroups** are all of one form, if and only if the mount point fits and the
source either is too long or has the form itself. -/
theorem normalises_iff (hslash : pfx.bytes.head? = some slash) : Normalises pfx src ↔
    ¬ Outside pfx src ∧
      (pathMax ≤ (frontText pfx src).length + (trim isSlash src).length ∨ HasForm pfx src) := by
  obtain ⟨p, hp⟩ := List.head?_eq_some_iff.mp hslash
  have hpfx : pfx.bytes ≠ [] := by simp [hp]
  rw [← length_cgroupPathText hpfx]
  rcases @setCgroupPath_cases pfx src hpfx fun _ => none with
    ⟨hout, heq⟩ | ⟨hinside, hlong, -⟩ | ⟨hinside, hfits, found, heq⟩
  · exact iff_of_false (fun h => h.inside _ heq) (fun h => h.1 hout)
  · exact iff_of_true (normalises_of_long hpfx hinside hlong) ⟨hinside, .inl hlong⟩
  · rw [and_iff_right hinside, or_iff_right (by omega), ← form_iff hp]
    exact ⟨fun h => h.form heq, fun h => normalises_of_form hpfx hinside h.1 h.2⟩

/-- `/sys/fs/cgroup` and a source below it -/
theorem normalises_user : Normalises (.lit "/sys/fs/cgroup") (CStr.lit "/user.slice/").bytes := by
  rw [normalises_iff (by decide)]
  exact ⟨by decide, .inr (by decide)⟩

/-- A source without a name is stored with a slash at its end. -/
theorem mount_slash : ¬ Normalises (.lit "/sys/fs/cgroup") (CStr.lit "/").bytes := by
  intro h
  have hpfx : (CStr.lit "/sys/fs/cgroup").bytes ≠ [] := by decide
  have hinside : ¬ Outside (.lit "/sys/fs/cgroup") (CStr.lit "/").bytes := by decide
  obtain ⟨dest, heq⟩ := setCgroupPath_eq hpfx hinside fun _ => none
  have hbelow := (h.form (heq.trans (if_neg (by decide)))).1
  exact hbelow.noSlash (by decide)

end Cgroup
end RedPak
