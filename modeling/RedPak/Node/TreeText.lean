import RedPak.Layered.Outline
import RedPak.Node.Relation
import RedPak.Node.Released

/-!
# Node.TreeText

What `redconf tree` prints (`RedDumpRoot` and `RedDumpTree` in `redconf-dump.c`): a line for each
node, behind a prefix of glyphs that shows where it is.

* `redDumpTree_spec`: the text is that of the tree that is scanned, and the memory is given back.
* `treeText_injective`: the text determines the tree, as long as no prefix is cut.
-/

namespace RedPak
namespace Node

open Conf Layered Layered.Action

/-! ## The text -/

def blank : UInt8 := 0x20
def newline : UInt8 := 0x0A

/-- `s_last`, `s_middle` and `s_next` -/
def sLast : List UInt8 := [0xE2, 0x94, 0x94, 0xE2, 0x94, 0x80, 0xE2, 0x94, 0x80]
def sMiddle : List UInt8 := [0xE2, 0x94, 0x9C, 0xE2, 0x94, 0x80, 0xE2, 0x94, 0x80]
def sNext : List UInt8 := [0xE2, 0x94, 0x82]

/-- What is printed of a node: the last part of its path, and its alias. -/
@[ext] structure Label where
  name : List UInt8
  nodeAlias : List UInt8
deriving DecidableEq

/-- `basename` of the C library -/
def basename (path : List UInt8) : List UInt8 :=
  match (fields slash path).getLast? with
  | some name => name
  | none => if path = [] then [0x2E] else [slash]

def stripSlashes (path : List UInt8) : List UInt8 := path.rdropWhile (· = slash)

/-- The path without its last name. -/
def beforeName (path : List UInt8) : List UInt8 :=
  let name := stripSlashes path
  if name = [] then path else name.rdropWhile (· ≠ slash)

/-- `dirname` of the GNU C library, where two slashes in front stay two -/
def dirname (path : List UInt8) : List UInt8 :=
  let front := stripSlashes (beforeName path)
  if front ≠ [] then front
  else if beforeName path = [slash, slash] then [slash, slash]
  else if path.head? = some slash then [slash]
  else [0x2E]

/-- `"%s  %s %s  (%s)\n"`, without its end -/
def line (pre : List UInt8) (last : Bool) (l : Label) : List UInt8 :=
  pre ++ [blank, blank] ++ (if last then sLast else sMiddle) ++ [blank] ++ l.name ++
    [blank, blank, 0x28] ++ l.nodeAlias ++ [0x29]

/-- `"  %s%s "` -/
def fullPrefix (pre : List UInt8) (last : Bool) : List UInt8 :=
  [blank, blank] ++ pre ++ (if last then [blank] else sNext) ++ [blank]

/-- `(void)snprintf(..)`: what does not fit is left out. -/
def subPrefix (pre : List UInt8) (last : Bool) : List UInt8 :=
  (fullPrefix pre last).take (redMaxpathlen - 1)

/-- `RedDumpRoot` of siblings, line by line. -/
def lines (pre : List UInt8) : Outline Label → List (List UInt8)
  | .nil => []
  | .cons l children siblings =>
    line pre siblings.isNil l ::
      (lines (subPrefix pre siblings.isNil) children ++ lines pre siblings)

/-- The printed path and alias of a node. -/
def labelOf (loaded : Loaded) : Label where
  name := basename (loaded.node.redpath.bytes.take redMaxpathlen)
  nodeAlias := (loaded.node.config.elim [] fun config => config.headers.nodeAlias.bytes)

mutual

def treeOutline (siblings : Outline Label) : NodeTree → Outline Label
  | .node loaded children => .cons (labelOf loaded) (outline children) siblings

def outline : List NodeTree → Outline Label
  | [] => .nil
  | tree :: trees => treeOutline (outline trees) tree

end

def treeText (tree : NodeTree) : List UInt8 :=
  terminated newline (dirname (tree.root.node.redpath.bytes.take redMaxpathlen) ::
    lines [] (outline [tree]))

/-! ## What the text determines -/

/-- A prefix that is not cut: for each glyph a bar, or a blank. -/
def glyphs (gs : List Bool) : List UInt8 := gs.flatMap fun g => if g then sNext else [blank]

theorem glyphs_append (gs gs' : List Bool) : glyphs (gs ++ gs') = glyphs gs ++ glyphs gs' :=
  List.flatMap_append

theorem newline_notMem_glyphs (gs : List Bool) : newline ∉ glyphs gs := by
  intro h
  obtain ⟨g, -, hg⟩ := List.mem_flatMap.mp h
  cases g <;> revert hg <;> decide

theorem glyphs_unique {gs gs' : List Bool} {last last' : Bool} {rest rest' : List UInt8}
    (h : glyphs gs ++ ((if last then sLast else sMiddle) ++ rest) =
      glyphs gs' ++ ((if last' then sLast else sMiddle) ++ rest')) :
    gs = gs' ∧ last = last' ∧ rest = rest' := by
  induction gs generalizing gs' with
  | nil =>
    cases gs' with
    | nil => cases last <;> cases last' <;> simp [glyphs, sLast, sMiddle] at h ⊢ <;> exact h
    | cons g' gs' => cases last <;> cases g' <;> simp [glyphs, sLast, sMiddle, sNext, blank] at h
  | cons g gs ih =>
    cases gs' with
    | nil => cases last' <;> cases g <;> simp [glyphs, sLast, sMiddle, sNext, blank] at h
    | cons g' gs' =>
      have hstep : g = g' ∧ glyphs gs ++ ((if last then sLast else sMiddle) ++ rest) =
          glyphs gs' ++ ((if last' then sLast else sMiddle) ++ rest') := by
        cases g <;> cases g' <;> simp [glyphs, sNext, blank] at h ⊢ <;> exact h
      obtain ⟨hgs, hrest⟩ := ih hstep.2
      exact ⟨by rw [hstep.1, hgs], hrest⟩

/-- What can be read back: the name ends where the last parenthesis opens. -/
structure Label.Plain (l : Label) : Prop where
  name : newline ∉ l.name
  nodeAlias : newline ∉ l.nodeAlias
  paren : 0x28 ∉ l.nodeAlias

theorem line_glyphs (gs : List Bool) (last : Bool) (l : Label) :
    line (glyphs gs) last l = glyphs (gs ++ [false, false]) ++
      ((if last then sLast else sMiddle) ++
        (blank :: (l.name ++ [blank, blank]) ++ 0x28 :: (l.nodeAlias ++ [0x29]))) := by
  rw [glyphs_append, line]
  simp [glyphs]

theorem line_unique {gs gs' : List Bool} {last last' : Bool} {l l' : Label}
    (hl : 0x28 ∉ l.nodeAlias) (hl' : 0x28 ∉ l'.nodeAlias)
    (h : line (glyphs gs) last l = line (glyphs gs') last' l') :
    gs = gs' ∧ last = last' ∧ l = l' := by
  rw [line_glyphs, line_glyphs] at h
  obtain ⟨hgs, hlast, hrest⟩ := glyphs_unique h
  refine ⟨List.append_cancel_right hgs, hlast, ?_⟩
  have hparen : ∀ l : Label, 0x28 ∉ l.nodeAlias → 0x28 ∉ l.nodeAlias ++ [0x29] := fun l hl => by
    simpa using hl
  obtain ⟨hname, halias⟩ := append_sep_unique_last (hparen l hl) (hparen l' hl') hrest
  exact Label.ext (List.append_cancel_right (List.cons.inj hname).2)
    (List.append_cancel_right halias)

/-- The lines with the glyphs of their prefixes. -/
def items (gs : List Bool) : Outline Label → List (List Bool × Bool × Label)
  | .nil => []
  | .cons l children siblings =>
    (gs, siblings.isNil, l) ::
      (items ([false, false] ++ gs ++ [!siblings.isNil, false]) children ++ items gs siblings)

/-- No prefix is cut. -/
def Whole (pre : List UInt8) : Outline Label → Prop
  | .nil => True
  | .cons _ children siblings =>
    (children.isNil = false → (fullPrefix pre siblings.isNil).length < redMaxpathlen) ∧
      Whole (subPrefix pre siblings.isNil) children ∧ Whole pre siblings

theorem subPrefix_glyphs {gs : List Bool} {last : Bool}
    (h : (fullPrefix (glyphs gs) last).length < redMaxpathlen) :
    subPrefix (glyphs gs) last = glyphs ([false, false] ++ gs ++ [!last, false]) := by
  rw [subPrefix, List.take_of_length_le (Nat.le_sub_one_of_lt h), fullPrefix, glyphs_append,
    glyphs_append]
  cases last <;> simp [glyphs]

theorem lines_glyphs {gs : List Bool} {o : Outline Label} (h : Whole (glyphs gs) o) :
    lines (glyphs gs) o = (items gs o).map fun x => line (glyphs x.1) x.2.1 x.2.2 := by
  induction o generalizing gs with
  | nil => rfl
  | cons l children siblings ihc ihs =>
    obtain ⟨hfits, hchildren, hsiblings⟩ := h
    have hlines : lines (subPrefix (glyphs gs) siblings.isNil) children =
        (items ([false, false] ++ gs ++ [!siblings.isNil, false]) children).map
          fun x => line (glyphs x.1) x.2.1 x.2.2 := by
      cases children with
      | nil => rfl
      | cons l' below beside =>
        rw [subPrefix_glyphs (hfits rfl)] at hchildren ⊢
        exact ihc hchildren
    rw [lines, items, hlines, ihs hsiblings, List.map_cons, List.map_append]

theorem items_rows {gs : List Bool} {depth : Nat} (hdepth : gs.length = 4 * depth)
    (o : Outline Label) :
    (items gs o).map (fun x => (x.1.length / 4, x.2.2)) = o.rows depth := by
  induction o generalizing gs depth with
  | nil => rfl
  | cons l children siblings ihc ihs =>
    have hbelow : ([false, false] ++ gs ++ [!siblings.isNil, false]).length = 4 * (depth + 1) := by
      simp
      omega
    rw [items, Outline.rows, List.map_cons, List.map_append, ihs hdepth, ihc hbelow, hdepth,
      Nat.mul_div_cancel_left depth (by decide)]

theorem mem_items {gs : List Bool} {o : Outline Label} {x : List Bool × Bool × Label}
    (h : x ∈ items gs o) : x.2.2 ∈ o.labels := by
  induction o generalizing gs with
  | nil => cases h
  | cons l children siblings ihc ihs =>
    rcases List.mem_cons.mp h with rfl | h
    · exact List.mem_cons_self
    rcases List.mem_append.mp h with h | h
    · exact List.mem_cons_of_mem _ (List.mem_append_left _ (ihc h))
    · exact List.mem_cons_of_mem _ (List.mem_append_right _ (ihs h))

theorem newline_notMem_line {gs : List Bool} {last : Bool} {l : Label} (h : l.Plain) :
    newline ∉ line (glyphs gs) last l := by
  have hmarker : newline ∉ if last then sLast else sMiddle := by cases last <;> decide
  simp only [line, List.mem_append, List.mem_cons, List.not_mem_nil, or_false, not_or]
  exact ⟨⟨⟨⟨⟨⟨⟨newline_notMem_glyphs gs, by decide, by decide⟩, hmarker⟩, by decide⟩, h.name⟩,
    by decide, by decide, by decide⟩, h.nodeAlias⟩, by decide⟩

/-- **The text determines the tree**: what is printed of two trees is the same only if they are. -/
theorem lines_injective {o o' : Outline Label} {front front' : List UInt8}
    (hplain : ∀ l ∈ o.labels, l.Plain) (hplain' : ∀ l ∈ o'.labels, l.Plain) (hwhole : Whole [] o)
    (hwhole' : Whole [] o') (hfront : newline ∉ front) (hfront' : newline ∉ front')
    (h : terminated newline (front :: lines [] o) = terminated newline (front' :: lines [] o')) :
    front = front' ∧ o = o' := by
  have hlines := @lines_glyphs [] o hwhole
  have hlines' := @lines_glyphs [] o' hwhole'
  change lines [] o = _ at hlines
  change lines [] o' = _ at hlines'
  have hread : ∀ {o : Outline Label} {front : List UInt8}, (∀ l ∈ o.labels, l.Plain) →
      Whole [] o → newline ∉ front → closeLines newline [] (terminated newline (front ::
        lines [] o)) = (front :: lines [] o, []) := fun hplain hwhole hfront => by
    refine closeLines_terminated (List.forall_mem_cons.mpr ⟨hfront, fun l hl => ?_⟩)
    rw [show lines [] _ = _ from @lines_glyphs [] _ hwhole] at hl
    obtain ⟨x, hx, rfl⟩ := List.mem_map.mp hl
    exact newline_notMem_line (hplain _ (mem_items hx))
  have hboth := hread hplain hwhole hfront
  rw [h, hread hplain' hwhole' hfront'] at hboth
  obtain ⟨hfronts, hall⟩ := List.cons.inj (Prod.mk.inj hboth).1
  refine ⟨hfronts.symm, ?_⟩
  rw [hlines, hlines'] at hall
  have hitems := map_unique (fun x hx y hy hxy => ?_) hall
  · have hrows := congrArg (List.map fun x : List Bool × Bool × Label => (x.1.length / 4, x.2.2))
      hitems
    have hroot : ([] : List Bool).length = 4 * 0 := rfl
    rw [items_rows hroot, items_rows hroot] at hrows
    exact (Outline.rows_injective hrows).symm
  · obtain ⟨hgs, hlast, hl⟩ := line_unique (hplain' _ (mem_items hx)).paren
      (hplain _ (mem_items hy)).paren hxy
    exact Prod.ext hgs (Prod.ext hlast hl)

/-! ## The nodes of a tree -/

mutual

def treeNodes : NodeTree → List Loaded
  | .node loaded children => loaded :: nodes children

def nodes : List NodeTree → List Loaded
  | [] => []
  | tree :: trees => treeNodes tree ++ nodes trees

end

theorem mem_nodes {loaded : Loaded} {trees : List NodeTree} :
    loaded ∈ nodes trees ↔ ∃ tree ∈ trees, loaded ∈ treeNodes tree := by
  induction trees with
  | nil => simp [nodes]
  | cons tree trees ih => simp [nodes, ih]

section

variable {ω : Type} {os : DirOs ω} {w : ω} {admin : Bool}

/-- All nodes of a tree that was scanned are nodes that load. -/
theorem loaded_of_dig {depth : Nat} {node : Loaded} {tree : NodeTree}
    (h : redNodesDigToChilds os w admin depth node = .ok tree)
    (hnode : ∃ path, redNodesLoad os.toFileOs w path admin = .ok node) :
    ∀ loaded ∈ treeNodes tree, ∃ path, redNodesLoad os.toFileOs w path admin = .ok loaded := by
  induction depth generalizing node tree with
  | zero => cases h
  | succ depth ih =>
    obtain ⟨children, trees, hchildren, hall, rfl⟩ := digToChilds_ok.mp h
    obtain ⟨entries, -, -, rfl⟩ := redChildrenNodesLoad_ok.mp hchildren
    intro loaded hmem
    rcases List.mem_cons.mp hmem with rfl | hmem
    · exact hnode
    obtain ⟨below, hbelow, hmem⟩ := mem_nodes.mp hmem
    obtain ⟨child, hchild, hdig⟩ := forall₂_partner hall.flip below hbelow
    obtain ⟨de, -, -, -, hload⟩ := mem_childOf.mp hchild
    exact ih hdig ⟨_, hload⟩ loaded hmem

theorem loaded_of_downScan {redroot : CStr} {tree : NodeTree}
    (h : redNodesDownScan os w admin redroot = .ok tree) :
    ∀ loaded ∈ treeNodes tree, ∃ path, redNodesLoad os.toFileOs w path admin = .ok loaded := by
  unfold redNodesDownScan at h
  split at h
  · cases h
  · cases h
  · exact loaded_of_dig h ⟨redroot, by assumption⟩

end

mutual

theorem labels_treeOutline (siblings : Outline Label) : ∀ tree : NodeTree,
    (treeOutline siblings tree).labels = (treeNodes tree).map labelOf ++ siblings.labels
  | .node loaded children => by
    simp [treeOutline, treeNodes, Outline.labels, labels_outline children]

theorem labels_outline : ∀ trees : List NodeTree,
    (outline trees).labels = (nodes trees).map labelOf
  | [] => rfl
  | tree :: trees => by
    rw [outline, nodes, labels_treeOutline, labels_outline trees, List.map_append]

end

/-! ## Trees that are scanned -/

theorem newline_notMem_alias {config : RedConfig}
    (h : isValidAlias config.headers.nodeAlias = true) :
    newline ∉ config.headers.nodeAlias.bytes ∧ 0x28 ∉ config.headers.nodeAlias.bytes := by
  have hall := List.all_eq_true.mp (Bool.and_eq_true_iff.mp h).2
  exact ⟨fun hmem => absurd (hall _ hmem) (by decide), fun hmem => absurd (hall _ hmem) (by decide)⟩

theorem mem_basename {path : List UInt8} {c : UInt8} (h : c ∈ basename path) :
    c ∈ path ∨ c = 0x2E ∨ c = slash := by
  unfold basename at h
  split at h
  · rename_i name hlast
    exact .inl (mem_of_mem_fields (List.mem_of_mem_getLast? hlast) h)
  · split at h
    · exact .inr (.inl (List.mem_singleton.mp h))
    · exact .inr (.inr (List.mem_singleton.mp h))

theorem beforeName_begins (path : List UInt8) : beforeName path <+: path := by
  unfold beforeName
  dsimp only
  split
  · exact List.prefix_rfl
  · exact (List.rdropWhile_prefix _ _).trans (List.rdropWhile_prefix _ _)

theorem mem_dirname {path : List UInt8} {c : UInt8} (h : c ∈ dirname path) :
    c ∈ path ∨ c = 0x2E ∨ c = slash := by
  unfold dirname at h
  dsimp only at h
  split at h
  · exact .inl ((beforeName_begins path).subset ((List.rdropWhile_prefix _ _).subset h))
  · split at h
    · exact .inr (.inr (by simpa using h))
    · split at h
      · exact .inr (.inr (List.mem_singleton.mp h))
      · exact .inr (.inl (List.mem_singleton.mp h))

theorem plain_labelOf {ω : Type} {os : FileOs ω} {w : ω} {path : CStr} {admin : Bool}
    {loaded : Loaded} (h : redNodesLoad os w path admin = .ok loaded)
    (hpath : newline ∉ loaded.node.redpath.bytes) : (labelOf loaded).Plain := by
  obtain ⟨_, config, _, hload, hconfig⟩ := ((redNodesLoad_ok os w).mp h).normal
  have hvalid := newline_notMem_alias (loadConf_ok hload)
  have halias : (labelOf loaded).nodeAlias = config.headers.nodeAlias.bytes := by
    rw [labelOf, hconfig]
    rfl
  refine ⟨fun hmem => ?_, halias ▸ hvalid.1, halias ▸ hvalid.2⟩
  rcases mem_basename hmem with hmem | hdot | hslash
  · exact hpath (List.mem_of_mem_take hmem)
  · exact absurd hdot (by decide)
  · exact absurd hslash (by decide)

/-- **What `redconf tree` prints determines the tree**: its directory, and the names and aliases of
its nodes with their places. Paths have no newline, and no prefix is cut. -/
theorem treeText_injective {ω ω' : Type} {os : DirOs ω} {os' : DirOs ω'} {w : ω} {w' : ω'}
    {redroot redroot' : CStr} {tree tree' : NodeTree}
    (hscan : redNodesDownScan os w false redroot = .ok tree)
    (hscan' : redNodesDownScan os' w' false redroot' = .ok tree')
    (hpaths : ∀ l ∈ treeNodes tree, newline ∉ l.node.redpath.bytes)
    (hpaths' : ∀ l ∈ treeNodes tree', newline ∉ l.node.redpath.bytes)
    (hwhole : Whole [] (outline [tree])) (hwhole' : Whole [] (outline [tree']))
    (h : treeText tree = treeText tree') :
    dirname (tree.root.node.redpath.bytes.take redMaxpathlen) =
      dirname (tree'.root.node.redpath.bytes.take redMaxpathlen) ∧
    outline [tree] = outline [tree'] := by
  have hplain : ∀ {ω : Type} {os : DirOs ω} {w : ω} {redroot : CStr} {tree : NodeTree},
      redNodesDownScan os w false redroot = .ok tree →
      (∀ l ∈ treeNodes tree, newline ∉ l.node.redpath.bytes) →
      ∀ l ∈ (outline [tree]).labels, l.Plain := fun hscan hpaths l hl => by
    rw [labels_outline, nodes, nodes, List.append_nil, List.mem_map] at hl
    obtain ⟨loaded, hloaded, rfl⟩ := hl
    obtain ⟨path, hload⟩ := loaded_of_downScan hscan loaded hloaded
    exact plain_labelOf hload (hpaths loaded hloaded)
  have hfront : ∀ {tree : NodeTree}, (∀ l ∈ treeNodes tree, newline ∉ l.node.redpath.bytes) →
      newline ∉ dirname (tree.root.node.redpath.bytes.take redMaxpathlen) := by
    intro tree hpaths hmem
    rcases mem_dirname hmem with hmem | hdot | hslash
    · obtain ⟨loaded, children⟩ := tree
      refine hpaths loaded ?_ (List.mem_of_mem_take hmem)
      rw [treeNodes]
      exact List.mem_cons_self
    · exact absurd hdot (by decide)
    · exact absurd hslash (by decide)
  exact lines_injective (hplain hscan hpaths) (hplain hscan' hpaths') hwhole hwhole' (hfront hpaths)
    (hfront hpaths') h

instance decidableWhole (pre : List UInt8) : (o : Outline Label) → Decidable (Whole pre o)
  | .nil => .isTrue trivial
  | .cons _ children siblings =>
    have := decidableWhole (subPrefix pre siblings.isNil) children
    have := decidableWhole pre siblings
    inferInstanceAs (Decidable (_ ∧ _ ∧ _))

/-- The slash behind the path of the root does not show. -/
theorem treeText_injective_linked : ∃ tree tree',
    redNodesDownScan diskDirOs linkedDisk false (.lit "/r") = .ok tree ∧
    redNodesDownScan diskDirOs linkedDisk false (.lit "/r/") = .ok tree' ∧
    treeNodes tree ≠ treeNodes tree' ∧ outline [tree] = outline [tree'] := by
  have htest : ((redNodesDownScan diskDirOs linkedDisk false (.lit "/r")).toOption.any fun tree =>
      (redNodesDownScan diskDirOs linkedDisk false (.lit "/r/")).toOption.any fun tree' =>
        ((treeNodes tree).all fun l => !l.node.redpath.bytes.contains newline) &&
        ((treeNodes tree').all fun l => !l.node.redpath.bytes.contains newline) &&
        decide (Whole [] (outline [tree])) && decide (Whole [] (outline [tree'])) &&
        decide (treeText tree = treeText tree') &&
        decide (treeNodes tree ≠ treeNodes tree')) = true := by decide +kernel
  cases hscan : redNodesDownScan diskDirOs linkedDisk false (.lit "/r") with
  | error e => rw [hscan] at htest; cases htest
  | ok tree =>
    cases hscan' : redNodesDownScan diskDirOs linkedDisk false (.lit "/r/") with
    | error e => rw [hscan, hscan'] at htest; cases htest
    | ok tree' =>
      rw [hscan, hscan'] at htest
      simp only [Except.toOption, Option.any_some, Bool.and_eq_true, decide_eq_true_eq,
        List.all_eq_true, Bool.not_eq_true', List.contains_eq_mem, decide_eq_false_iff_not] at htest
      obtain ⟨⟨⟨⟨⟨hpaths, hpaths'⟩, hwhole⟩, hwhole'⟩, htext⟩, hne⟩ := htest
      exact ⟨tree, tree', rfl, rfl, hne,
        (treeText_injective hscan hscan' hpaths hpaths' hwhole hwhole' htext).2⟩

/-! ## The command -/

namespace Families

mutual

/-- `RedDumpRoot`, and the loop over its children. Of the nodes that are met, the first argument is
a bound. -/
def redDumpRootIn : Nat → Addr → List UInt8 → Bool → Families (List (List UInt8))
  | 0, _, _, _ => throw .endless
  | n + 1, node, pre, last => do
    let c ← load node
    match c.data.loaded.node.config with
    | none => throw .fault
    | some config => do
      let rest ← dumpChildrenIn n c.firstChild (subPrefix pre last)
      let path := c.data.loaded.node.redpath.bytes.take redMaxpathlen
      pure (line pre last ⟨basename path, config.headers.nodeAlias.bytes⟩ :: rest)

/-- `do .. while(child)` -/
def dumpChildrenIn : Nat → Option Addr → List UInt8 → Families (List (List UInt8))
  | _, none, _ => pure []
  | 0, some _, _ => throw .endless
  | n + 1, some child, pre => do
    let c ← load child
    let first ← redDumpRootIn n child pre c.nextSibling.isNone
    let rest ← dumpChildrenIn n c.nextSibling pre
    pure (first ++ rest)

end

def redDumpRoot (node : Addr) (pre : List UInt8) (last : Bool) :
    Families (List (List UInt8)) := do
  let h ← get
  redDumpRootIn (2 * h.next) node pre last

section

variable {ω : Type} (os : DirOs ω) (w : ω)

/-- `RedDumpTree`: the result, and what is printed. -/
def redDumpTree (redrootpath : CStr) : Families (Int × List UInt8) := do
  match ← redNodesDownScan os w false redrootpath with
  | none => pure (-1, [])
  | some redroot => do
    let c ← load redroot
    let path := c.data.loaded.node.redpath.bytes.take redMaxpathlen
    let rows ← redDumpRoot redroot [] true
    freeRedRoot (some redroot)
    pure (0, terminated newline (dirname path :: rows))

end

variable {h : Heap (Cell NodeData)} {f : Forest NodeData} {parent : Option Addr} {a : Addr}
  {data : NodeData} {children : Forest NodeData}

theorem isNone_ptr (f : Forest NodeData) : f.ptr.isNone = (outline (trees f)).isNil := by
  cases f <;> rfl

theorem redDumpRootIn_of {c : Cell NodeData} {n : Nat} {pre : List UInt8} {last : Bool}
    {rows : List (List UInt8)} (hcell : h.cell a = some c)
    (hconf : c.data.loaded.node.config ≠ none)
    (hrows : dumpChildrenIn n c.firstChild (subPrefix pre last) h = .ok rows h) :
    redDumpRootIn (n + 1) a pre last h = .ok (line pre last (labelOf c.data.loaded) :: rows) h := by
  rw [redDumpRootIn, bind_of_ok (load_eq hcell)]
  cases hconfig : c.data.loaded.node.config with
  | none => exact absurd hconfig hconf
  | some config =>
    dsimp only
    rw [bind_of_ok hrows, labelOf, hconfig]
    rfl

theorem dumpChildrenIn_spec (hf : h.Holds parent f) {n : Nat} (hn : 2 * f.addrs.length ≤ n)
    (hconf : ∀ loaded ∈ nodes (trees f), loaded.node.config ≠ none) (pre : List UInt8) :
    dumpChildrenIn n f.ptr pre h = .ok (lines pre (outline (trees f))) h := by
  induction f generalizing n parent pre with
  | nil => cases n <;> rfl
  | cons a data children siblings ihc ihs =>
    obtain ⟨hcell, hchildren, hsiblings, -⟩ := Heap.holds_cons.mp hf
    simp only [Forest.addrs_cons, List.length_cons, List.length_append] at hn
    simp only [trees, nodes, treeNodes, List.mem_cons, List.cons_append, List.mem_append] at hconf
    obtain ⟨n, rfl⟩ := Nat.exists_eq_add_of_le' (show 2 ≤ n by omega)
    have hbelow := ihc hchildren (n := n) (by omega) (fun l hl => hconf l (.inr (.inl hl)))
      (subPrefix pre siblings.ptr.isNone)
    have hbeside := ihs hsiblings (n := n + 1) (by omega) (fun l hl => hconf l (.inr (.inr hl))) pre
    have hfirst := redDumpRootIn_of hcell (hconf data.loaded (.inl rfl)) hbelow
    rw [Forest.ptr_cons, dumpChildrenIn, bind_of_ok (load_eq hcell), bind_of_ok hfirst,
      bind_of_ok hbeside, isNone_ptr]
    rfl

theorem lines_root (loaded : Loaded) (children : List NodeTree) :
    lines [] (outline [.node loaded children]) =
      line [] true (labelOf loaded) :: lines (subPrefix [] true) (outline children) := by
  rw [outline, outline, treeOutline, lines, lines, List.append_nil]
  rfl

/-- **`redconf tree`** prints the text of the tree that is scanned, and gives it back. When the scan
fails behind its first node, what has been loaded stays allocated. -/
theorem redDumpTree_spec {ω : Type} (os : DirOs ω) (w : ω) (redrootpath : CStr)
    (h : Heap (Cell NodeData)) :
    match Node.redNodesDownScan os w false redrootpath with
    | .ok tree => ∃ h', redDumpTree os w redrootpath h = .ok (0, treeText tree) h' ∧
      h'.cell = h.cell
    | .error .error => ∃ h', redDumpTree os w redrootpath h = .ok (-1, []) h' ∧
      (h'.cell = h.cell ↔ ∀ root, redNodesLoad os.toFileOs w redrootpath false ≠ .ok root)
    | .error .fault => ∃ h', redDumpTree os w redrootpath h = .error .fault h'
    | .error .endless => False := by
  have hspec := @redNodesDownScan_spec ω os w false redrootpath h
  cases hrun : redNodesDownScan os w false redrootpath h with
  | error e h' =>
    have he := wp_error hspec hrun
    cases e with
    | fault =>
      rw [show Node.redNodesDownScan os w false redrootpath = .error .fault from he]
      exact ⟨h', bind_of_error hrun⟩
    | endless => exact absurd he (redNodesDownScan_ends redrootpath)
  | ok found h' =>
    rcases wp_ok hspec hrun with ⟨rfl, hout, hcells, hload⟩ | ⟨root, loaded, f, hload, hgrown, hend⟩
    · rw [hout]
      exact ⟨h', bind_of_ok hrun, iff_of_true hcells hload⟩
    rcases hend with ⟨rfl, hout⟩ | ⟨rfl, hout⟩
    · rw [hout]
      exact ⟨h', bind_of_ok hrun, iff_of_false hgrown.cell_ne fun hnot => hnot loaded hload⟩
    · rw [hout]
      obtain ⟨hcell, hchildren, -⟩ := Heap.holds_cons.mp hgrown.holds
      have hconf : ∀ l ∈ loaded :: nodes (trees f), l.node.config ≠ none := by
        intro l hl
        rw [← treeNodes] at hl
        obtain ⟨path, hpath⟩ := loaded_of_downScan hout l hl
        obtain ⟨_, config, _, _, hconfig⟩ := ((redNodesLoad_ok os.toFileOs w).mp hpath).normal
        rw [hconfig]
        exact Option.some_ne_none config
      have hsize := hgrown.holds.size_le
      simp only [Forest.addrs_cons, Forest.addrs_nil, List.append_nil, List.length_cons] at hsize
      obtain ⟨n, hn⟩ := Nat.exists_eq_add_of_le' (show 1 ≤ 2 * h'.next by omega)
      have hbelow := dumpChildrenIn_spec hchildren (n := n) (by omega)
        (fun l hl => hconf l (List.mem_cons_of_mem _ hl)) (subPrefix [] true)
      have hrows : redDumpRoot root [] true h' =
          .ok (lines [] (outline [.node loaded (trees f)])) h' := by
        have hroot := redDumpRootIn_of hcell (hconf loaded List.mem_cons_self) hbelow
        rw [lines_root, redDumpRoot, get_bind, hn, hroot]
      obtain ⟨h'', hfree, hcells⟩ := hgrown.freeRedRoot
      refine ⟨h'', ?_, hcells⟩
      exact (bind_of_ok hrun).trans ((bind_of_ok (load_eq hcell)).trans
        ((bind_of_ok hrows).trans (bind_of_ok hfree)))

end Families

end Node
end RedPak
