import Mathlib.Data.List.Infix
import RedPak.Conf.CString
import RedPak.Layered.Action
import RedPak.Layered.Fields

/-!
# Cgroup.Kernel

What `cgroups.c` meets of the system: directories, those at and below the mount point of cgroup v2
being cgroups, and the processes of each cgroup. A directory is the list of the names that lead to
it, innermost first, so that the parent of a directory is its tail.

The kernel may refuse any call for reasons of its own: `refuses` decides from all that happened
before. Every call is recorded with the tree it met.

* `available`: what is enabled in `cgroup.subtree_control` of a cgroup is available in its children.
* `wp_writeEntry`, `wp_readEntry`, `wp_mkdirat`: what a call does.
-/

namespace RedPak
namespace Cgroup

open Conf Layered Layered.Action

/-! ## Names and directories -/

def slash : UInt8 := 0x2F
def dot : UInt8 := 0x2E
def newline : UInt8 := 0x0A
def space : UInt8 := 0x20
def plus : UInt8 := 0x2B

/-- `NAME_MAX` -/
def nameMax : Nat := 255

def ValidName (bytes : List UInt8) : Prop :=
  bytes ≠ [] ∧ bytes ≠ [dot] ∧ bytes ≠ [dot, dot] ∧ slash ∉ bytes ∧ newline ∉ bytes ∧
    (0 : UInt8) ∉ bytes ∧ bytes.length ≤ nameMax

instance (bytes : List UInt8) : Decidable (ValidName bytes) := by
  unfold ValidName
  infer_instance

/-- The name of a cgroup. -/
structure Name where
  bytes : List UInt8
  valid : ValidName bytes
deriving DecidableEq

theorem Name.ext {a b : Name} (h : a.bytes = b.bytes) : a = b := by
  cases a; cases b; cases h; rfl

abbrev Dir := List Name

/-! ## Controllers -/

/-- `ctrlid_t` -/
inductive Ctrlid where
  | cpuset
  | cpu
  | memory
  | io
  | pids
  | misc
  | hugetlb
  | rdma
deriving DecidableEq

/-- The value of the enumerator. -/
def Ctrlid.id : Ctrlid → Nat
  | cpuset => 0
  | cpu => 1
  | memory => 2
  | io => 3
  | pids => 4
  | misc => 5
  | hugetlb => 6
  | rdma => 7

def ctrlnames : List CStr :=
  [.lit "cpuset", .lit "cpu", .lit "memory", .lit "io", .lit "pids", .lit "misc", .lit "hugetlb",
    .lit "rdma"]

def Ctrlid.name : Ctrlid → CStr
  | cpuset => .lit "cpuset"
  | cpu => .lit "cpu"
  | memory => .lit "memory"
  | io => .lit "io"
  | pids => .lit "pids"
  | misc => .lit "misc"
  | hugetlb => .lit "hugetlb"
  | rdma => .lit "rdma"

/-- The controllers in the order in which the kernel lists them. -/
def Ctrlid.all : List Ctrlid := [cpuset, cpu, io, memory, hugetlb, pids, rdma, misc]

/-- A file of a cgroup. Those of a controller have its name in front. -/
inductive Entry where
  | controllers
  | subtreeControl
  | procs
  | setting (controller : Ctrlid) (file : CStr)
deriving DecidableEq

/-! ## The tree -/

structure Tree where
  dirs : Dir → Bool
  subtreeControl : Dir → Ctrlid → Bool
  procs : List (Nat × Dir)
  root : dirs [] = true
  closed : ∀ n d, dirs (n :: d) = true → dirs d = true

/-- A new cgroup, in which nothing is enabled. -/
def Tree.mkdir (t : Tree) (d : Dir) (n : Name) (h : t.dirs d = true) : Tree where
  dirs e := e == n :: d || t.dirs e
  subtreeControl e := if e = n :: d then fun _ => false else t.subtreeControl e
  procs := t.procs
  root := by simp [t.root]
  closed m e he := by
    rcases Bool.or_eq_true_iff.mp he with he | he
    · cases eq_of_beq he
      simp [h]
    · simp [t.closed m e he]

def Tree.enable (t : Tree) (d : Dir) (cs : List Ctrlid) : Tree :=
  { t with
    subtreeControl := fun e c => if e = d then decide (c ∈ cs) || t.subtreeControl e c
      else t.subtreeControl e c }

def Tree.move (t : Tree) (pid : Nat) (d : Dir) : Tree :=
  { t with procs := t.procs.filter (fun p => p.1 != pid) ++ [(pid, d)] }

/-! ## Calls -/

inductive Call where
  | mkdirat (dir : Dir) (name : Name)
  | read (dir : Dir) (entry : Entry)
  | readSelf
  | write (dir : Dir) (entry : Entry) (value : CStr)
deriving DecidableEq

/-- The tree with the calls made so far, the last one first, each with the tree it met. -/
structure World where
  tree : Tree
  calls : List (Tree × Call) := []

structure Kernel where
  mount : Dir
  mountNe : mount ≠ []
  controllers : Ctrlid → Bool
  cwd : Dir
  denied : Dir → Bool
  refuses : World → Call → Bool
  readSize : World → Nat

/-- What ends a function of the source early: a negative result, behaviour that C leaves undefined,
or a recursion without end. -/
inductive Stop where
  | failed
  | fault
  | endless
deriving DecidableEq

abbrev Sys := EStateM Stop World

variable (k : Kernel)

def Kernel.IsCgroup (d : Dir) : Prop := k.mount <:+ d

instance (d : Dir) : Decidable (k.IsCgroup d) := inferInstanceAs (Decidable (k.mount <:+ d))

/-- The controllers that `cgroup.controllers` lists. -/
def Kernel.available (t : Tree) (d : Dir) (c : Ctrlid) : Bool :=
  if d = k.mount then k.controllers c else t.subtreeControl d.tail c

/-! ## Paths -/

/-- One component of a path. -/
def Kernel.lookup (t : Tree) (d : Dir) (component : List UInt8) : Option Dir :=
  if k.denied d then none
  else if component = [dot] then some d
  else if component = [dot, dot] then some d.tail
  else if h : ValidName component then
    if t.dirs (⟨component, h⟩ :: d) then some (⟨component, h⟩ :: d) else none
  else none

def Kernel.walk (t : Tree) (d : Dir) (components : List (List UInt8)) : Option Dir :=
  components.foldlM (k.lookup t) d

/-- `openat` with `O_DIRECTORY`, without what comes from the process. -/
def Kernel.openat (t : Tree) (d : Dir) (path : CStr) : Option Dir :=
  if path.bytes = [] then none
  else
    let start := if path.bytes.head? = some slash then [] else d
    (k.walk t start (fields slash path.bytes)).filter fun e => t.dirs e && !k.denied e

/-! ## Texts of the files -/

def Kernel.controllersText (t : Tree) (d : Dir) : List UInt8 :=
  joined space ((Ctrlid.all.filter (k.available t d)).map (·.name.bytes)) ++ [newline]

def procsText (t : Tree) (d : Dir) : List UInt8 :=
  (t.procs.filter (·.2 = d)).flatMap fun p => (CStr.decimal p.1).bytes ++ [newline]

/-- The path of a cgroup below the mount point. -/
def Kernel.relative (d : Dir) : List UInt8 :=
  slash :: joined slash ((d.take (d.length - k.mount.length)).reverse.map (·.bytes))

/-- `/proc/self/cgroup` -/
def Kernel.selfText (t : Tree) (pid : Nat) : List UInt8 :=
  match t.procs.find? (·.1 = pid) with
  | some (_, d) => (CStr.lit "0::").bytes ++ k.relative d ++ [newline]
  | none => []

/-- A word written to `cgroup.subtree_control`. -/
def enabled : List UInt8 → Option Ctrlid
  | [] => none
  | c :: name => if c = plus then Ctrlid.all.find? (·.name.bytes = name) else none

def digit (b : UInt8) : Option Nat :=
  if 0x30 ≤ b ∧ b ≤ 0x39 then some (b.toNat - 0x30) else none

def pidOf (value : CStr) : Option Nat :=
  if value.bytes = [] then none
  else value.bytes.foldlM (fun n b => (digit b).map (10 * n + ·)) 0

/-- What a write changes. `cgroup.subtree_control` takes only what is available. -/
def Kernel.effect (t : Tree) (d : Dir) (entry : Entry) (value : CStr) : Option Tree :=
  match entry with
  | .controllers => none
  | .subtreeControl =>
    match (fields space value.bytes).mapM enabled with
    | some cs => if cs.all (k.available t d) then some (t.enable d cs) else none
    | none => none
  | .procs =>
    match pidOf value with
    | some pid => if t.procs.any (·.1 = pid) then some (t.move pid d) else none
    | none => none
  | .setting _ _ => some t

/-! ## System calls -/

/-- Records a call and says whether it is granted. -/
def Kernel.call (c : Call) : Sys Bool := do
  let w ← get
  set { w with calls := (w.tree, c) :: w.calls }
  pure (!k.refuses w c)

/-- `openat` and `read` of a file of a cgroup. -/
def Kernel.readEntry (d : Dir) (entry : Entry) (content : Tree → List UInt8) :
    Sys (List UInt8) := do
  let granted ← k.call (.read d entry)
  let w ← get
  if granted ∧ k.IsCgroup d then pure (content w.tree) else throw .failed

/-- `write_entry`: 0 or, on an error, -1 -/
def Kernel.writeEntry (d : Dir) (entry : Entry) : Option CStr → Sys Int
  | none => pure 0
  | some value => do
    let granted ← k.call (.write d entry value)
    let w ← get
    match if granted ∧ k.IsCgroup d then k.effect w.tree d entry value else none with
    | some t => do
      set { w with tree := t }
      pure 0
    | none => pure (-1)

/-- `mkdirat`: `true` when the directory is new, `false` for `EEXIST`. -/
def Kernel.mkdirat (d : Dir) (path : CStr) : Sys Bool := do
  let w ← get
  if path.bytes = [] then throw .failed
  else
    let start := if path.bytes.head? = some slash then [] else d
    match (fields slash path.bytes).reverse with
    | [] => pure false
    | last :: up =>
      match k.walk w.tree start up.reverse with
      | none => throw .failed
      | some parent =>
        if last = [dot] ∨ last = [dot, dot] then pure false
        else if hv : ValidName last then
          if w.tree.dirs (⟨last, hv⟩ :: parent) then pure false
          else do
            let granted ← k.call (.mkdirat parent ⟨last, hv⟩)
            let w ← get
            if hd : granted ∧ w.tree.dirs parent = true then do
              set { w with tree := w.tree.mkdir parent ⟨last, hv⟩ hd.2 }
              pure true
            else throw .failed
        else throw .failed

/-! ## Pids in decimal -/

theorem digit_toUInt8 {c : Char} (h : c.isDigit = true) :
    digit c.toUInt8 = some (c.toNat - '0'.toNat) := by
  rw [Char.isDigit, Bool.and_eq_true, decide_eq_true_eq, decide_eq_true_eq] at h
  have hlow : 48 ≤ c.toNat := h.1
  have hhigh : c.toNat ≤ 57 := h.2
  have hnat : c.toUInt8.toNat = c.toNat := by
    rw [Char.toUInt8, UInt32.toNat_toUInt8]
    change c.toNat % 256 = c.toNat
    exact Nat.mod_eq_of_lt (by omega)
  rw [digit, if_pos, hnat]
  · rfl
  · rw [UInt8.le_iff_toNat_le, UInt8.le_iff_toNat_le, hnat]
    exact ⟨hlow, hhigh⟩

theorem foldlM_digits (cs : List Char) (h : ∀ c ∈ cs, c.isDigit = true) (init : Nat) :
    (cs.map Char.toUInt8).foldlM (fun n b => (digit b).map (10 * n + ·)) init =
      some (Nat.ofDigitChars 10 cs init) := by
  induction cs generalizing init with
  | nil => rfl
  | cons c cs ih =>
    rw [List.map_cons, List.foldlM_cons, digit_toUInt8 (h c (by simp)), Nat.ofDigitChars_cons]
    exact ih (fun c' hc => h c' (by simp [hc])) _

theorem digit_toDigits {pid : Nat} {b : UInt8}
    (h : b ∈ (Nat.toDigits 10 pid).map Char.toUInt8) : (digit b).isSome = true := by
  obtain ⟨c, hc, rfl⟩ := List.mem_map.mp h
  rw [digit_toUInt8 (Nat.isDigit_of_mem_toDigits (by decide) (by decide) hc)]
  rfl

theorem bytes_decimal (pid : Nat) :
    (CStr.decimal pid).bytes = (Nat.toDigits 10 pid).map Char.toUInt8 := by
  have htext : (toString (pid : Int)).toList = Nat.toDigits 10 pid := Nat.toList_repr
  have hfree : (0 : UInt8) ∉ (Nat.toDigits 10 pid).map Char.toUInt8 := fun hmem => by
    simpa [digit] using digit_toDigits hmem
  rw [CStr.decimal, htext]
  exact congrArg CStr.bytes (CStr.ofBytes_bytes ⟨_, hfree⟩)

theorem newline_notMem_decimal (pid : Nat) : newline ∉ (CStr.decimal pid).bytes := fun hmem => by
  rw [bytes_decimal] at hmem
  simpa [digit, newline] using digit_toDigits hmem

theorem pidOf_decimal (pid : Nat) : pidOf (.decimal pid) = some pid := by
  have hdigits : ∀ c ∈ Nat.toDigits 10 pid, c.isDigit = true := fun c hc =>
    Nat.isDigit_of_mem_toDigits (by decide) (by decide) hc
  rw [pidOf, bytes_decimal, if_neg (by simp), foldlM_digits _ hdigits,
    Nat.ofDigitChars_ten_toDigits]

/-! ## What the calls do -/

variable {k : Kernel} {w : World} {t : Tree} {d e : Dir} {path : CStr}

theorem wp_call {c : Call} {Q : Bool → World → Prop} {E : Stop → World → Prop}
    (h : ∀ granted, Q granted ⟨w.tree, (w.tree, c) :: w.calls⟩) : wp (k.call c) Q E w := by
  simp only [Kernel.call, wp_bind, wp_get, wp_set, wp_pure]
  exact h _

theorem wp_readEntry {entry : Entry} {content : Tree → List UInt8} {Q : List UInt8 → World → Prop}
    {E : Stop → World → Prop}
    (hok : k.IsCgroup d → Q (content w.tree) ⟨w.tree, (w.tree, .read d entry) :: w.calls⟩)
    (hfail : E .failed ⟨w.tree, (w.tree, .read d entry) :: w.calls⟩) :
    wp (k.readEntry d entry content) Q E w := by
  rw [Kernel.readEntry, wp_bind]
  refine wp_call fun granted => ?_
  rw [wp_bind, wp_get, wp_ite]
  split
  · rename_i h
    exact hok h.2
  · exact hfail

theorem wp_writeEntry {entry : Entry} {value : CStr} {Q : Int → World → Prop}
    {E : Stop → World → Prop}
    (hok : ∀ t, k.IsCgroup d → k.effect w.tree d entry value = some t →
      Q 0 ⟨t, (w.tree, .write d entry value) :: w.calls⟩)
    (hfail : Q (-1) ⟨w.tree, (w.tree, .write d entry value) :: w.calls⟩) :
    wp (k.writeEntry d entry (some value)) Q E w := by
  rw [Kernel.writeEntry, wp_bind]
  refine wp_call fun granted => ?_
  rw [wp_bind, wp_get]
  by_cases h : granted ∧ k.IsCgroup d
  · rw [if_pos h]
    cases he : k.effect w.tree d entry value with
    | none => exact hfail
    | some t => exact hok t h.2 he
  · rw [if_neg h]
    exact hfail

/-- The path leads to the name in the directory. -/
def Kernel.Leads (k : Kernel) (t : Tree) (d : Dir) (path : CStr) (parent : Dir) (n : Name) : Prop :=
  ∃ up, fields slash path.bytes = up ++ [n.bytes] ∧
    k.walk t (if path.bytes.head? = some slash then [] else d) up = some parent

theorem wp_mkdirat {Q : Bool → World → Prop} {E : Stop → World → Prop}
    (hold : (∀ parent n, k.Leads w.tree d path parent n → w.tree.dirs (n :: parent) = true) →
      Q false w)
    (hfail : E .failed w)
    (hnew : ∀ parent n, k.Leads w.tree d path parent n → w.tree.dirs (n :: parent) = false →
      (∀ h, Q true ⟨w.tree.mkdir parent n h, (w.tree, .mkdirat parent n) :: w.calls⟩) ∧
      E .failed ⟨w.tree, (w.tree, .mkdirat parent n) :: w.calls⟩) :
    wp (k.mkdirat d path) Q E w := by
  rw [Kernel.mkdirat, wp_bind, wp_get, wp_ite]
  split
  · exact hfail
  cases hf : (fields slash path.bytes).reverse with
  | nil =>
    refine hold fun parent n ⟨up, hup, _⟩ => ?_
    rw [hup, List.reverse_append] at hf
    cases hf
  | cons last up =>
    have hfields : fields slash path.bytes = up.reverse ++ [last] := by
      rw [← List.reverse_reverse (fields slash path.bytes), hf, List.reverse_cons]
    cases hw : k.walk w.tree (if path.bytes.head? = some slash then [] else d) up.reverse with
    | none => simpa only [hw, wp_throw] using hfail
    | some parent =>
      -- every way to lead there ends with the last component
      have hleads : ∀ parent' n, k.Leads w.tree d path parent' n →
          parent' = parent ∧ n.bytes = last := by
        rintro parent' n ⟨up', hup', hw'⟩
        rw [hfields] at hup'
        obtain ⟨hup, hlast⟩ := List.append_inj' hup' rfl
        rw [← hup, hw, Option.some.injEq] at hw'
        exact ⟨hw'.symm, (List.cons.inj hlast).1.symm⟩
      simp only [hw, wp_ite]
      split
      · rename_i hdots
        refine hold fun parent' n hl => ?_
        rw [← (hleads parent' n hl).2] at hdots
        exact absurd hdots (not_or.mpr ⟨n.valid.2.1, n.valid.2.2.1⟩)
      split
      · rename_i hv
        rw [wp_ite]
        cases hd : w.tree.dirs (⟨last, hv⟩ :: parent) with
        | true =>
          refine hold fun parent' n hl => ?_
          obtain ⟨rfl, hn⟩ := hleads parent' n hl
          rwa [Name.ext (b := ⟨last, hv⟩) hn]
        | false =>
          obtain ⟨hok, hrefused⟩ := hnew parent ⟨last, hv⟩ ⟨up.reverse, hfields, hw⟩ hd
          rw [if_neg (by simp), wp_bind]
          refine wp_call fun granted => ?_
          rw [wp_bind, wp_get]
          split
          · rename_i h
            exact hok h.2
          · exact hrefused
      · exact hfail

/-! ## Invariants -/

/-- What a call may do to the tree: nothing, unless it is granted. -/
inductive Kernel.Effect (k : Kernel) (t : Tree) : Call → Tree → Prop where
  | none (c : Call) : k.Effect t c t
  | mkdirat {d : Dir} {n : Name} (h : t.dirs d = true) (hnew : t.dirs (n :: d) = false) :
      k.Effect t (.mkdirat d n) (t.mkdir d n h)
  | write {d : Dir} {entry : Entry} {value : CStr} {t' : Tree} (h : k.IsCgroup d)
      (he : k.effect t d entry value = some t') : k.Effect t (.write d entry value) t'

/-- Every allowed call keeps the invariant. -/
def Kernel.Stable (k : Kernel) (allowed : Call → Prop) (I : World → Prop) : Prop :=
  ∀ w c t, allowed c → I w → k.Effect w.tree c t → I ⟨t, (w.tree, c) :: w.calls⟩

variable {allowed : Call → Prop} {I : World → Prop}

theorem keeps_readEntry {entry : Entry} {content : Tree → List UInt8} (hI : k.Stable allowed I)
    (h : allowed (.read d entry)) : Keeps I (k.readEntry d entry content) := fun _ hw =>
  wp_readEntry (fun _ => hI _ _ _ h hw (.none _)) (hI _ _ _ h hw (.none _))

theorem keeps_writeEntry {entry : Entry} {value : Option CStr} (hI : k.Stable allowed I)
    (h : ∀ v, value = some v → allowed (.write d entry v)) :
    Keeps I (k.writeEntry d entry value) := by
  intro w hw
  cases value with
  | none => exact hw
  | some v =>
    exact wp_writeEntry (fun t hd ht => hI _ _ _ (h v rfl) hw (.write hd ht))
      (hI _ _ _ (h v rfl) hw (.none _))

theorem keeps_mkdirat (hI : k.Stable allowed I)
    (h : ∀ w parent n, I w → k.Leads w.tree d path parent n → allowed (.mkdirat parent n)) :
    Keeps I (k.mkdirat d path) := fun w hw =>
  wp_mkdirat (fun _ => hw) hw fun parent n hl hn =>
    ⟨fun hd => hI _ _ _ (h w parent n hw hl) hw (.mkdirat hd hn),
      hI _ _ _ (h w parent n hw hl) hw (.none _)⟩

theorem stable_and {J : World → Prop} (hI : k.Stable allowed I) (hJ : k.Stable (fun _ => True) J) :
    k.Stable allowed (fun w => I w ∧ J w) := fun w c t hc hw he =>
  ⟨hI w c t hc hw.1 he, hJ w c t trivial hw.2 he⟩

/-- Nothing is taken away. -/
structure Tree.Grows (t t' : Tree) : Prop where
  dirs : ∀ d, t.dirs d = true → t'.dirs d = true
  subtreeControl : ∀ d c, t.dirs d = true → t.subtreeControl d c = true →
    t'.subtreeControl d c = true

theorem Tree.Grows.refl (t : Tree) : t.Grows t := ⟨fun _ h => h, fun _ _ _ h => h⟩

theorem Tree.Grows.trans {t t' t'' : Tree} (h : t.Grows t') (h' : t'.Grows t'') : t.Grows t'' :=
  ⟨fun d hd => h'.dirs d (h.dirs d hd),
    fun d c hd hc => h'.subtreeControl d c (h.dirs d hd) (h.subtreeControl d c hd hc)⟩

theorem grows_enable (t : Tree) (d : Dir) (cs : List Ctrlid) : t.Grows (t.enable d cs) := by
  refine ⟨fun _ h => h, fun e c _ hc => ?_⟩
  simp only [Tree.enable]
  split
  · simp [hc]
  · exact hc

theorem Kernel.Effect.grows {c : Call} {t' : Tree} (h : k.Effect t c t') : t.Grows t' := by
  cases h with
  | none => exact .refl t
  | @mkdirat d n h hnew =>
    refine ⟨fun e he => by simp [Tree.mkdir, he], fun e c he hc => ?_⟩
    have hne : e ≠ n :: d := by
      rintro rfl
      rw [hnew] at he
      cases he
    simpa [Tree.mkdir, hne] using hc
  | @write d entry value _ h he =>
    cases entry with
    | controllers => cases he
    | subtreeControl =>
      simp only [Kernel.effect] at he
      split at he
      · split at he
        · cases he; exact grows_enable t d _
        · cases he
      · cases he
    | procs =>
      simp only [Kernel.effect] at he
      split at he
      · split at he
        · cases he; exact ⟨fun _ h => h, fun _ _ _ h => h⟩
        · cases he
      · cases he
    | setting c file => cases he; exact .refl t

theorem stable_grows (k : Kernel) (t : Tree) : k.Stable (fun _ => True) (t.Grows ·.tree) :=
  fun _ _ _ _ hw he => hw.trans he.grows

theorem available_grows {t' : Tree} (h : t.Grows t') (hd : t.dirs d = true) (c : Ctrlid)
    (hc : k.available t d c = true) : k.available t' d c = true := by
  unfold Kernel.available at *
  split
  · rename_i hm
    rwa [if_pos hm] at hc
  · rename_i hm
    rw [if_neg hm] at hc
    refine h.subtreeControl _ c ?_ hc
    cases d with
    | nil => exact t.root
    | cons n d => exact t.closed n d hd

/-! ## Paths to directories -/

@[simp] theorem walk_singleton (component : List UInt8) :
    k.walk t d [component] = k.lookup t d component := by
  simp [Kernel.walk]

theorem walk_append (l m : List (List UInt8)) :
    k.walk t d (l ++ m) = (k.walk t d l).bind (k.walk t · m) := by
  rw [Kernel.walk, List.foldlM_append]
  rfl

theorem openat_dirs (h : k.openat t d path = some e) : t.dirs e = true := by
  unfold Kernel.openat at h
  split at h
  · cases h
  have hfilter := (Option.filter_eq_some_iff.mp h).2
  rw [Bool.and_eq_true] at hfilter
  exact hfilter.1

theorem lookup_grows {t' : Tree} (h : t.Grows t') {component : List UInt8}
    (hl : k.lookup t d component = some e) : k.lookup t' d component = some e := by
  unfold Kernel.lookup at *
  split
  · rename_i hdenied
    rwa [if_pos hdenied] at hl
  rename_i hdenied
  rw [if_neg hdenied] at hl
  split
  · rename_i hdot
    rwa [if_pos hdot] at hl
  rename_i hdot
  rw [if_neg hdot] at hl
  split
  · rename_i hdots
    rwa [if_pos hdots] at hl
  rename_i hdots
  rw [if_neg hdots] at hl
  split
  · rename_i hv
    rw [dif_pos hv] at hl
    by_cases hdirs : t.dirs (⟨component, hv⟩ :: d) = true
    · rw [if_pos hdirs] at hl
      rwa [if_pos (h.dirs _ hdirs)]
    · rw [if_neg hdirs] at hl
      cases hl
  · rename_i hv
    rw [dif_neg hv] at hl
    cases hl

theorem walk_grows {t' : Tree} (h : t.Grows t') {components : List (List UInt8)}
    (hw : k.walk t d components = some e) : k.walk t' d components = some e := by
  induction components generalizing d with
  | nil => exact hw
  | cons component components ih =>
    rw [Kernel.walk, List.foldlM_cons, Option.bind_eq_bind, Option.bind_eq_some_iff] at *
    obtain ⟨d', hd', hw⟩ := hw
    exact ⟨d', lookup_grows h hd', ih hw⟩

theorem openat_grows {t' : Tree} (h : t.Grows t') (ho : k.openat t d path = some e) :
    k.openat t' d path = some e := by
  unfold Kernel.openat at *
  split
  · rename_i hnil
    rwa [if_pos hnil] at ho
  · rename_i hnil
    rw [if_neg hnil] at ho
    obtain ⟨hw, hopen⟩ := Option.filter_eq_some_iff.mp ho
    rw [Bool.and_eq_true] at hopen
    exact Option.filter_eq_some_iff.mpr ⟨walk_grows h hw, by simp [h.dirs _ hopen.1, hopen.2]⟩

theorem lookup_name (n : Name) :
    k.lookup t d n.bytes =
      if k.denied d = false ∧ t.dirs (n :: d) = true then some (n :: d) else none := by
  obtain ⟨bytes, hv⟩ := n
  unfold Kernel.lookup
  cases k.denied d with
  | true => simp
  | false => simp [hv.2.1, hv.2.2.1, hv]

theorem Name.isField (n : Name) : IsField slash n.bytes := ⟨n.valid.1, n.valid.2.2.2.1⟩

theorem Name.head?_ne (n : Name) : n.bytes.head? ≠ some slash := fun h =>
  n.valid.2.2.2.1 (List.mem_of_mem_head? h)

theorem openat_name {n : Name} (h : path.bytes = n.bytes) :
    k.openat t d path =
      if k.denied d = false ∧ t.dirs (n :: d) = true ∧ k.denied (n :: d) = false then
        some (n :: d) else none := by
  rw [Kernel.openat, h, if_neg n.valid.1, n.isField.fields_eq, if_neg n.head?_ne]
  simp only [walk_singleton, lookup_name]
  by_cases hd : k.denied d = false ∧ t.dirs (n :: d) = true
  · simp [hd, Option.filter]
  · rw [if_neg hd, if_neg fun h => hd ⟨h.1, h.2.1⟩]
    rfl

theorem openat_component (hs : slash ∉ path.bytes) (h : k.openat t d path = some e) :
    k.lookup t d path.bytes = some e ∧ (path.bytes = [dot] ∧ e = d ∨
      path.bytes = [dot, dot] ∧ e = d.tail ∨ ∃ n : Name, n.bytes = path.bytes ∧ e = n :: d) := by
  unfold Kernel.openat at h
  split at h
  · cases h
  rename_i hne
  have hhead : path.bytes.head? ≠ some slash := fun hh => hs (List.mem_of_mem_head? hh)
  have hfield : IsField slash path.bytes := ⟨hne, hs⟩
  have hl := (Option.filter_eq_some_iff.mp h).1
  rw [if_neg hhead, hfield.fields_eq, walk_singleton] at hl
  refine ⟨hl, ?_⟩
  unfold Kernel.lookup at hl
  split at hl
  · cases hl
  split at hl
  · cases hl; exact .inl ⟨by assumption, rfl⟩
  split at hl
  · cases hl; exact .inr (.inl ⟨by assumption, rfl⟩)
  split at hl
  · split at hl
    · cases hl; exact .inr (.inr ⟨_, rfl, rfl⟩)
    · cases hl
  · cases hl

theorem openat_append {path' name : CStr} {f : Dir} (ho : k.openat t d path = some e)
    (hs : slash ∉ name.bytes) (hn : k.openat t e name = some f)
    (hp : path'.bytes = path.bytes ++ slash :: name.bytes) : k.openat t d path' = some f := by
  have hl := (openat_component hs hn).1
  unfold Kernel.openat at ho hn ⊢
  split at ho
  · cases ho
  rename_i hpath
  split at hn
  · cases hn
  rename_i hname
  have hfield : IsField slash name.bytes := ⟨hname, hs⟩
  have hw := (Option.filter_eq_some_iff.mp ho).1
  rw [hp, if_neg (by simp), fields_append_sep, hfield.fields_eq,
    List.head?_append_of_ne_nil _ hpath]
  dsimp only
  rw [walk_append, hw]
  refine Option.filter_eq_some_iff.mpr ⟨?_, (Option.filter_eq_some_iff.mp hn).2⟩
  simpa using hl

theorem leads_name {parent : Dir} {n m : Name} (h : path.bytes = n.bytes)
    (hl : k.Leads t d path parent m) : parent = d ∧ m = n := by
  obtain ⟨up, hup, hw⟩ := hl
  rw [h, n.isField.fields_eq] at hup
  cases up with
  | nil =>
    rw [h, if_neg n.head?_ne] at hw
    cases hw
    exact ⟨rfl, Name.ext (by simpa using hup.symm)⟩
  | cons c up => simp at hup

/-! ## A system -/

/-- The tree of the given directories and those that lead to them. -/
def Tree.ofDirs (ds : List Dir) (procs : List (Nat × Dir)) : Tree where
  dirs d := d == [] || ds.any fun e => d.isSuffixOf e
  subtreeControl _ _ := false
  procs := procs
  root := rfl
  closed n d h := by
    simp only [List.any_eq_true, Bool.or_eq_true, List.isSuffixOf_iff_suffix] at h ⊢
    rcases h with h | ⟨e, he, hs⟩
    · cases eq_of_beq h
    · exact .inr ⟨e, he, (List.suffix_cons n d).trans hs⟩

theorem mountNames_valid : ValidName (CStr.lit "sys").bytes ∧ ValidName (CStr.lit "fs").bytes ∧
    ValidName (CStr.lit "cgroup").bytes := by
  decide

/-- `/sys/fs/cgroup` -/
def sysMount : Dir :=
  [⟨_, mountNames_valid.2.2⟩, ⟨_, mountNames_valid.2.1⟩, ⟨_, mountNames_valid.1⟩]

/-- A kernel that refuses nothing. -/
def sysKernel : Kernel where
  mount := sysMount
  mountNe := List.cons_ne_nil _ _
  controllers _ := true
  cwd := []
  denied _ := false
  refuses _ _ := false
  readSize _ := 100

end Cgroup
end RedPak
