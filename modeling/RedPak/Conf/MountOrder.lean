import RedPak.Conf.Exports

/-!
# Conf.MountOrder

The order in which exports are delivered. A mount has to come before those below it; the links are
sorted by the bytes of the mounts they were found by first.

* `delivered_order_iff`: the exports come in the right order exactly when these mounts do.
* `delivered_order_of_plain`: they do when mounts are written without empty components and in one
  way.
* `inner_mount_first`: they do not always.
-/

namespace RedPak
namespace Conf

/-- The components of a path, empty ones ignored. -/
def components (m : CStr) : List (List UInt8) := (m.bytes.splitOn 0x2F).filter (· ≠ [])

/-- `m₂` lies below `m₁`. -/
def Below (m₁ m₂ : CStr) : Prop := components m₁ <+: components m₂ ∧ components m₁ ≠ components m₂

instance (m₁ m₂ : CStr) : Decidable (Below m₁ m₂) := inferInstanceAs (Decidable (_ ∧ _))

theorem not_below_self (m : CStr) : ¬ Below m m := fun h => h.2 rfl

section

variable (expand : ExpandCtx → CStr → Option CStr)

/-- The mount of a name that the walk meets first. -/
def firstMount (node : Family) (k : Option (List UInt8)) : Option CStr :=
  (((mixExp expand).found node).filter fun e => (mixExp expand).key e = k).head?.bind
    fun e => mountIn expand e.level e.val

/-- The mount of the export that counts. -/
def decidingMount (node : Family) (k : Option (List UInt8)) : Option CStr :=
  ((mixExp expand).deciding node k).head?.bind fun p => mountIn expand p.1 p.2

/-- Delivered exports come before those that are mounted below them. -/
def OuterFirst (calls : List (RedConfExportPath × Family)) : Prop :=
  ∀ (i j : Nat) (p q : RedConfExportPath × Family) m₁ m₂, calls[i]? = some p → calls[j]? = some q →
    mountIn expand p.2 p.1 = some m₁ → mountIn expand q.2 q.1 = some m₂ → Below m₁ m₂ → i < j

/-- The mounts found first are in the byte order that the mounts that count ask for. -/
def FirstInOrder (node : Family) : Prop :=
  ∀ k₁ k₂ m₁ m₂ f₁ f₂, decidingMount expand node k₁ = some m₁ →
    decidingMount expand node k₂ = some m₂ → firstMount expand node k₁ = some f₁ →
    firstMount expand node k₂ = some f₂ → Below m₁ m₂ → strcmp f₁ f₂ < 0

theorem mountLe_trans {a b c : Layered.Link Family RedConfExportPath} (h : mountLe expand a b)
    (h' : mountLe expand b c) : mountLe expand a c := strcmp_trans h h'

theorem sortedLinks_pairwise (ls : List (Layered.Link Family RedConfExportPath)) :
    (sortedLinks expand ls).Pairwise (mountLe expand) := by
  have : Std.Total (mountLe expand) := ⟨fun _ _ => strcmp_total _ _⟩
  have : IsTrans _ (mountLe expand) := ⟨fun _ _ _ => mountLe_trans expand⟩
  exact List.pairwise_insertionSort _ _

variable {expand} in
theorem firstMount_link {node : Family} {ls : List (Layered.Link Family RedConfExportPath)}
    (h : Mix.Lawful.Holds (m := mixExp expand) node ls)
    {l : Layered.Link Family RedConfExportPath} (hl : l ∈ ls) :
    firstMount expand node (l.name (mixExp expand).key) =
      mountIn expand l.first.level l.first.val := by
  rw [firstMount, h.first l hl]; rfl

variable {expand} in
theorem decidingMount_link {node : Family} {ls : List (Layered.Link Family RedConfExportPath)}
    (h : Mix.Lawful.Holds (m := mixExp expand) node ls)
    {l : Layered.Link Family RedConfExportPath} (hl : l ∈ ls) :
    decidingMount expand node (l.name (mixExp expand).key) =
      mountIn expand l.cur.level l.cur.val := by
  rw [decidingMount, h.value l hl]; rfl

theorem first_of_cur {node : Family} {ls : List (Layered.Link Family RedConfExportPath)}
    (h : Mix.Lawful.Holds (m := mixExp expand) node ls)
    {l : Layered.Link Family RedConfExportPath} (hl : l ∈ ls) {m : CStr}
    (hm : mountIn expand l.cur.level l.cur.val = some m) :
    ∃ f, mountIn expand l.first.level l.first.val = some f ∧ f.folded = m.folded := by
  have hkey := h.key l hl
  have hcur : (mixExp expand).key l.cur = some m.folded := by
    show (mountIn expand l.cur.level l.cur.val).map CStr.folded = _
    rw [hm]; rfl
  rw [hcur] at hkey
  exact Option.map_eq_some_iff.mp hkey.symm

theorem mountLe_iff {a b : Layered.Link Family RedConfExportPath} {f g : CStr}
    (hf : mountIn expand a.first.level a.first.val = some f)
    (hg : mountIn expand b.first.level b.first.val = some g) :
    mountLe expand a b ↔ strcmp f g ≤ 0 := by
  simp only [mountLe, cmpExpLink, hf, hg, Option.getD_some]

theorem mountLe_of_lt {ls : List (Layered.Link Family RedConfExportPath)} {i j : Nat}
    {a b : Layered.Link Family RedConfExportPath} (ha : (sortedLinks expand ls)[i]? = some a)
    (hb : (sortedLinks expand ls)[j]? = some b) (hij : i < j) : mountLe expand a b := by
  obtain ⟨hi, rfl⟩ := List.getElem?_eq_some_iff.mp ha
  obtain ⟨hj, rfl⟩ := List.getElem?_eq_some_iff.mp hb
  exact List.pairwise_iff_getElem.mp (sortedLinks_pairwise expand ls) i j hi hj hij

theorem link_of_decidingMount {node : Family} {ls : List (Layered.Link Family RedConfExportPath)}
    (h : Mix.Lawful.Holds (m := mixExp expand) node ls) {k : Option (List UInt8)} {m : CStr}
    (hm : decidingMount expand node k = some m) :
    ∃ l ∈ ls, l.name (mixExp expand).key = k ∧ mountIn expand l.cur.level l.cur.val = some m := by
  obtain ⟨p, hp, -⟩ := Option.bind_eq_some_iff.mp hm
  obtain ⟨l, hl, rfl⟩ := h.exists_link hp
  exact ⟨l, hl, rfl, by rw [← decidingMount_link h hl]; exact hm⟩

theorem firstInOrder_of_outerFirst {node : Family}
    {ls : List (Layered.Link Family RedConfExportPath)}
    (h : Mix.Lawful.Holds (m := mixExp expand) node ls)
    (hout : OuterFirst expand ((sortedLinks expand ls).map fun l => (l.cur.val, l.cur.level))) :
    FirstInOrder expand node := by
  intro k₁ k₂ m₁ m₂ f₁ f₂ hm₁ hm₂ hf₁ hf₂ hbelow
  obtain ⟨l₁, hl₁, rfl, hc₁⟩ := link_of_decidingMount expand h hm₁
  obtain ⟨l₂, hl₂, rfl, hc₂⟩ := link_of_decidingMount expand h hm₂
  rw [firstMount_link h hl₁] at hf₁
  rw [firstMount_link h hl₂] at hf₂
  have hperm := sortedLinks_perm expand ls
  obtain ⟨i, hi⟩ := List.mem_iff_getElem?.mp (hperm.mem_iff.mpr hl₁)
  obtain ⟨j, hj⟩ := List.mem_iff_getElem?.mp (hperm.mem_iff.mpr hl₂)
  have hij : i < j := hout i j (l₁.cur.val, l₁.cur.level) (l₂.cur.val, l₂.cur.level) m₁ m₂
    (by rw [List.getElem?_map, hi]; rfl) (by rw [List.getElem?_map, hj]; rfl) hc₁ hc₂ hbelow
  have hle : strcmp f₁ f₂ ≤ 0 := (mountLe_iff expand hf₁ hf₂).mp (mountLe_of_lt expand hi hj hij)
  -- equal bytes would mean one name, hence one link
  have hne : strcmp f₁ f₂ ≠ 0 := by
    intro h0
    have hff : f₁ = f₂ := strcmp_eq_zero.mp h0
    have hname : l₁.name (mixExp expand).key = l₂.name (mixExp expand).key := by
      show (mountIn expand l₁.first.level l₁.first.val).map CStr.folded =
        (mountIn expand l₂.first.level l₂.first.val).map CStr.folded
      rw [hf₁, hf₂, hff]
    obtain rfl := h.eq_of_name hl₁ hl₂ hname
    rw [hc₁, Option.some.injEq] at hc₂
    exact not_below_self m₁ (hc₂ ▸ hbelow)
  omega

theorem outerFirst_of_firstInOrder {node : Family}
    {ls : List (Layered.Link Family RedConfExportPath)}
    (h : Mix.Lawful.Holds (m := mixExp expand) node ls) (hin : FirstInOrder expand node) :
    OuterFirst expand ((sortedLinks expand ls).map fun l => (l.cur.val, l.cur.level)) := by
  intro i j p q m₁ m₂ hp hq hm₁ hm₂ hbelow
  rw [List.getElem?_map, Option.map_eq_some_iff] at hp hq
  obtain ⟨l₁, hi, rfl⟩ := hp
  obtain ⟨l₂, hj, rfl⟩ := hq
  have hl₁ := (sortedLinks_perm expand ls).mem_iff.mp (List.mem_of_getElem? hi)
  have hl₂ := (sortedLinks_perm expand ls).mem_iff.mp (List.mem_of_getElem? hj)
  obtain ⟨f₁, hf₁, -⟩ := first_of_cur expand h hl₁ hm₁
  obtain ⟨f₂, hf₂, -⟩ := first_of_cur expand h hl₂ hm₂
  have hlt : strcmp f₁ f₂ < 0 := hin _ _ m₁ m₂ f₁ f₂
    (by rw [decidingMount_link h hl₁]; exact hm₁) (by rw [decidingMount_link h hl₂]; exact hm₂)
    (by rw [firstMount_link h hl₁]; exact hf₁) (by rw [firstMount_link h hl₂]; exact hf₂) hbelow
  by_contra hij
  rcases Nat.lt_or_eq_of_le (Nat.le_of_not_lt hij) with hji | rfl
  · have hle := (mountLe_iff expand hf₂ hf₁).mp (mountLe_of_lt expand hj hi hji)
    have := strcmp_neg f₁ f₂
    omega
  · rw [hi, Option.some.injEq] at hj
    subst hj
    rw [hm₁, Option.some.injEq] at hm₂
    exact not_below_self m₁ (hm₂ ▸ hbelow)

/-- **The order of mounts.** When the merge is accepted, the exports come in the right order
exactly when the mounts found first are in order. -/
theorem delivered_order_iff (node : Family) (calls : List (RedConfExportPath × Family))
    (h : (mixExports expand node recordCall []).result = some (0, calls)) :
    OuterFirst expand calls ↔ FirstInOrder expand node := by
  rcases delivered_cases expand node with ⟨ls, -, hls, hdel, hrun⟩ | ⟨-, -, hnot⟩
  · have hholds := Mix.Lawful.holds_of_links (mixExpLaw expand) hls
    rw [hrun, Option.some.injEq, Prod.mk.injEq] at h
    obtain ⟨-, rfl⟩ := h
    rw [hdel]
    exact ⟨firstInOrder_of_outerFirst expand hholds, outerFirst_of_firstInOrder expand hholds⟩
  · exact absurd h (hnot calls)

/-- A path without empty components. -/
def Plain (m : CStr) : Prop :=
  m.bytes = [0x2F] ∨ m.bytes = (components m).flatMap (0x2F :: ·)

theorem components_root {m : CStr} (h : m.bytes = [0x2F]) : components m = [] := by
  rw [components, h]; rfl

theorem strcmp_lt_of_below {m₁ m₂ : CStr} (h₁ : Plain m₁) (h₂ : Plain m₂) (h : Below m₁ m₂) :
    strcmp m₁ m₂ < 0 := by
  obtain ⟨hpre, hne⟩ := h
  refine strcmp_lt_of_prefix ?_ fun he => hne (by rw [he])
  rcases h₂ with h₂ | h₂
  · rw [components_root h₂, List.prefix_nil] at hpre
    rw [components_root h₂] at hne
    exact absurd hpre hne
  · rcases h₁ with h₁ | h₁
    · rw [components_root h₁] at hne
      rw [h₁, h₂]
      cases hc : components m₂ with
      | nil => exact absurd hc.symm hne
      | cons c cs => exact ⟨_, rfl⟩
    · obtain ⟨t, ht⟩ := hpre
      rw [h₁, h₂, ← ht, List.flatMap_append]
      exact List.prefix_append _ _

/-- **Plain mounts.** When mounts have no empty components and no two of them differ in the case of
letters only, the exports come in the right order. -/
theorem delivered_order_of_plain (node : Family)
    (hplain : ∀ e ∈ (mixExp expand).found node, ∀ m,
      mountIn expand e.level e.val = some m → Plain m)
    (hcase : ∀ e ∈ (mixExp expand).found node, ∀ e' ∈ (mixExp expand).found node,
      (mixExp expand).key e = (mixExp expand).key e' →
      mountIn expand e.level e.val = mountIn expand e'.level e'.val) :
    OuterFirst expand (delivered expand node) := by
  rcases delivered_cases expand node with ⟨ls, -, hls, -, hrun⟩ | ⟨-, hdel, -⟩
  · have hholds := Mix.Lawful.holds_of_links (mixExpLaw expand) hls
    refine (delivered_order_iff expand node _ hrun).mpr
      fun k₁ k₂ m₁ m₂ f₁ f₂ hm₁ hm₂ hf₁ hf₂ hbelow => ?_
    have hsame : ∀ {k m f}, decidingMount expand node k = some m →
        firstMount expand node k = some f → f = m ∧ Plain m := by
      intro k m f hm hf
      obtain ⟨l, hl, rfl, hc⟩ := link_of_decidingMount expand hholds hm
      rw [firstMount_link hholds hl] at hf
      have hfirst := List.mem_of_mem_head? (hholds.first l hl)
      have hcur := Layered.decisive_mem (hholds.decisive l hl)
      have heq := hcase _ (List.mem_of_mem_filter hfirst) _ (List.mem_of_mem_filter hcur)
        (hholds.key l hl).symm
      rw [hf, hc, Option.some.injEq] at heq
      exact ⟨heq, hplain _ (List.mem_of_mem_filter hcur) m hc⟩
    obtain ⟨rfl, hp₁⟩ := hsame hm₁ hf₁
    obtain ⟨rfl, hp₂⟩ := hsame hm₂ hf₂
    exact strcmp_lt_of_below hp₁ hp₂ hbelow
  · intro i j p q m₁ m₂ hp
    rw [hdel] at hp; simp at hp

end

/-! ## Mounts out of order -/

def mountOf (mount : CStr) : RedConfExportPath := { mount := mount, mode := .exportRestricted }

/-- The admin config of the root mounts `/b` and `/b/c`, where the leaf mounts `/B/c`. -/
def renamedRoot : RedNode where
  config := none
  confadmin := some {
    headers := { nodeAlias := CStr.lit "root" }
    exports := [mountOf (CStr.lit "/b"), mountOf (CStr.lit "/b/c")] }
  redpath := CStr.lit "/root"

def renamedFamily : Family where
  node := {
    config := some {
      headers := { nodeAlias := CStr.lit "leaf" }
      exports := [mountOf (CStr.lit "/B/c")] }
    redpath := CStr.lit "/root/leaf" }
  parents := [renamedRoot]

/-- A node that mounts `/b` and, written with an empty component, `/b/c`. -/
def slashesFamily : Family where
  node := {
    config := some {
      headers := { nodeAlias := CStr.lit "leaf" }
      exports := [mountOf (CStr.lit "/b"), mountOf (CStr.lit "//b/c")] }
    redpath := CStr.lit "/leaf" }

def renamedCalls : List (RedConfExportPath × Family) :=
  [(mountOf (CStr.lit "/b/c"), ⟨renamedRoot, []⟩), (mountOf (CStr.lit "/b"), ⟨renamedRoot, []⟩)]

def slashesCalls : List (RedConfExportPath × Family) :=
  [(mountOf (CStr.lit "//b/c"), slashesFamily), (mountOf (CStr.lit "/b"), slashesFamily)]

theorem mix_renamedFamily :
    (mixExports expandPlain renamedFamily recordCall []).result = some (0, renamedCalls) := by
  rw [mixExports_eq expandPlain (by decide)]; decide

theorem mix_slashesFamily :
    (mixExports expandPlain slashesFamily recordCall []).result = some (0, slashesCalls) := by
  rw [mixExports_eq expandPlain (by decide)]; decide

theorem delivered_order_iff_renamedFamily :
    OuterFirst expandPlain renamedCalls ↔ FirstInOrder expandPlain renamedFamily :=
  delivered_order_iff expandPlain renamedFamily renamedCalls mix_renamedFamily

/-- `/b/c` is delivered before `/b`: it keeps the place of `/B/c`, or has the lesser bytes. -/
theorem inner_mount_first :
    ((mixExports expandPlain renamedFamily recordCall []).result = some (0, renamedCalls) ∧
      ¬ OuterFirst expandPlain renamedCalls) ∧
    (mixExports expandPlain slashesFamily recordCall []).result = some (0, slashesCalls) ∧
      ¬ OuterFirst expandPlain slashesCalls := by
  refine ⟨⟨mix_renamedFamily, fun hout => ?_⟩, mix_slashesFamily, fun hout => ?_⟩
  · exact absurd (hout 1 0 _ _ (CStr.lit "/b") (CStr.lit "/b/c") rfl rfl rfl rfl (by decide))
      (by decide)
  · exact absurd (hout 1 0 _ _ (CStr.lit "/b") (CStr.lit "//b/c") rfl rfl rfl rfl (by decide))
      (by decide)

end Conf
end RedPak
