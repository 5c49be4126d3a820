import RedPak.Factory.Directories
import RedPak.Layered.Crowd

/-!
# Factory.Crowd

Several processes that make directories at once, each with its own call of `make_directories`. A
process that looks for a directory before another one makes it fails in `mkdir` then. Of all the
processes one succeeds, though.

* `onMachine_makeDirectories`: alone, a process makes what the factory makes.
* `makeDirectories_crowd`: any number of processes, with any order of their calls.
-/

namespace RedPak
namespace Factory

open Conf Node Layered
open Layered.Buffer (slice)
open Layered.Action

/-- What one process does, call by call. -/
abbrev Calls (ω : Type) := Thread Fault ω

namespace Calls

variable {ω : Type} (os : FactoryOs ω)

def stat (path : CStr) : Calls ω (Option FileKind) :=
  .once do
    let w ← get
    pure (os.stat w path)

def mkdir (path : CStr) : Calls ω Bool :=
  .once fun w => .ok (os.mkdir w path).1 (os.mkdir w path).2

def makeMissing (tmp : List UInt8) : Calls ω (Option Bool) := do
  let made ← mkdir os (CStr.ofBytes tmp)
  pure (if made then some false else none)

def makeDirectory (tmp : List UInt8) (chk : Bool) : Calls ω (Option Bool) :=
  if chk then do
    match ← stat os (CStr.ofBytes tmp) with
    | some .directory => pure (some true)
    | some _ => pure none
    | none => makeMissing os tmp
  else makeMissing os tmp

def advanceDirectories : (tmp rest : List UInt8) → (named chk : Bool) → Calls ω Bool
  | _, [], false, _ => pure true
  | tmp, [], true, chk => do
    let made ← makeDirectory os tmp chk
    pure made.isSome
  | tmp, c :: rest, named, chk =>
    if c = slash ∧ named then do
      match ← makeDirectory os tmp chk with
      | none => pure false
      | some chk => advanceDirectories (tmp ++ [c]) rest false chk
    else advanceDirectories (tmp ++ [c]) rest (c ≠ slash) chk

def makeDirectories (path : Buffer UInt8) (base length : Nat) : Calls ω Bool :=
  match directoriesBase path base length with
  | none => pure false
  | some idx => do
    let seen ← stat os (CStr.ofBytes (slice path 0 idx))
    if seen ≠ some .directory then pure false
    else advanceDirectories os (slice path 0 idx) (slice path idx length) false true

end Calls

/-! ## Alone -/

section

variable {ω α β : Type}

/-- The machine of one process. -/
def onMachine (x : EStateM Fault ω α) : FactoryM ω α := fun m =>
  match x m.os with
  | .ok a w => .ok a { m with os := w }
  | .error e w => .error e { m with os := w }

@[simp] theorem onMachine_bind (x : EStateM Fault ω α) (f : α → EStateM Fault ω β) :
    onMachine (x >>= f) = onMachine x >>= fun a => onMachine (f a) := by
  funext m
  cases hx : x m.os with
  | ok a w =>
    have hfirst : onMachine x m = .ok a { m with os := w } := by rw [onMachine, hx]
    rw [bind_of_ok hfirst, onMachine, bind_of_ok hx]
    rfl
  | error e w =>
    have hfirst : onMachine x m = .error e { m with os := w } := by rw [onMachine, hx]
    rw [bind_of_error hfirst, onMachine, bind_of_error hx]

variable (os : FactoryOs ω)

theorem onMachine_makeDirectory (tmp : List UInt8) (chk : Bool) :
    onMachine (Calls.makeDirectory os tmp chk).run = makeDirectory os tmp chk := by
  funext m
  rw [makeDirectory, get_bind]
  cases chk with
  | false => rfl
  | true =>
    have hstat : onMachine (Calls.stat os (CStr.ofBytes tmp)).run m =
        .ok (os.stat m.os (CStr.ofBytes tmp)) m := rfl
    rw [Calls.makeDirectory, if_pos rfl, Thread.run_bind, onMachine_bind, bind_of_ok hstat]
    cases os.stat m.os (CStr.ofBytes tmp) with
    | none => rfl
    | some kind => cases kind <;> rfl

theorem onMachine_advanceDirectories (tmp rest : List UInt8) (named chk : Bool) :
    onMachine (Calls.advanceDirectories os tmp rest named chk).run =
      advanceDirectories os tmp rest named chk := by
  induction rest generalizing tmp named chk with
  | nil =>
    cases named with
    | false => rfl
    | true =>
      rw [Calls.advanceDirectories, Thread.run_bind, onMachine_bind, onMachine_makeDirectory]
      rfl
  | cons c rest ih =>
    rw [Calls.advanceDirectories, advanceDirectories]
    split
    · rw [Thread.run_bind, onMachine_bind, onMachine_makeDirectory]
      refine bind_congr fun made => ?_
      cases made with
      | none => rfl
      | some chk => exact ih _ _ _
    · exact ih _ _ _

/-- **Alone**, a process makes what the factory makes. -/
theorem onMachine_makeDirectories (path : Buffer UInt8) (base length : Nat) :
    onMachine (Calls.makeDirectories os path base length).run =
      makeDirectories os path base length := by
  rw [Calls.makeDirectories, makeDirectories]
  cases directoriesBase path base length with
  | none => rfl
  | some idx =>
    funext m
    have hstat : onMachine (Calls.stat os (CStr.ofBytes (slice path 0 idx))).run m =
        .ok (os.stat m.os (CStr.ofBytes (slice path 0 idx))) m := rfl
    dsimp only
    rw [Thread.run_bind, onMachine_bind, bind_of_ok hstat, get_bind, Thread.run_ite]
    split
    · rfl
    · rw [onMachine_advanceDirectories]

end

/-! ## The chain -/

/-- The directories that are due, by their bytes. -/
def chainFrom : (tmp rest : List UInt8) → (named : Bool) → List (List UInt8)
  | _, [], false => []
  | tmp, [], true => [tmp]
  | tmp, c :: rest, named =>
    if c = slash ∧ named then tmp :: chainFrom (tmp ++ [c]) rest false
    else chainFrom (tmp ++ [c]) rest (c ≠ slash)

/-- The directories as places. -/
def places {ω : Type} (os : FactoryOs ω) : Maker ω CStr FileKind where
  look := os.stat
  make := os.mkdir
  good := .directory

section

variable {ω : Type} (os : FactoryOs ω)

theorem advance_makes (tmp rest : List UInt8) (named : Bool) :
    Calls.advanceDirectories os tmp rest named false =
      (places os).makes ((chainFrom tmp rest named).map CStr.ofBytes) := by
  induction rest generalizing tmp named with
  | nil =>
    cases named with
    | false => rfl
    | true =>
      refine congrArg (Thread.act _) (funext fun made => ?_)
      cases made <;> rfl
  | cons c rest ih =>
    rw [Calls.advanceDirectories, chainFrom]
    split
    · refine congrArg (Thread.act _) (funext fun made => ?_)
      cases made with
      | false => rfl
      | true => exact ih _ _
    · exact ih _ _

theorem advance_walk (tmp rest : List UInt8) (named : Bool) :
    Calls.advanceDirectories os tmp rest named true =
      (places os).walk ((chainFrom tmp rest named).map CStr.ofBytes) := by
  induction rest generalizing tmp named with
  | nil =>
    cases named with
    | false => rfl
    | true =>
      refine congrArg (Thread.act _) (funext fun seen => ?_)
      cases seen with
      | none =>
        refine congrArg (Thread.act _) (funext fun made => ?_)
        cases made <;> rfl
      | some kind => cases kind <;> rfl
  | cons c rest ih =>
    rw [Calls.advanceDirectories, chainFrom]
    split
    · refine congrArg (Thread.act _) (funext fun seen => ?_)
      cases seen with
      | none =>
        refine congrArg (Thread.act _) (funext fun made => ?_)
        cases made with
        | false => rfl
        | true => exact advance_makes os _ _ _
      | some kind =>
        cases kind with
        | directory => exact ih _ _
        | regular => rfl
        | other => rfl
    · exact ih _ _

end

section

variable {path : List UInt8} {idx length : Nat}

theorem ends_step (hidx : idx < length) : Arrays.ends path length idx =
    if Arrays.isEnd path length (idx + 1) then (idx + 1) :: Arrays.ends path length (idx + 1)
    else Arrays.ends path length (idx + 1) := by
  obtain ⟨n, rfl⟩ := Nat.exists_eq_add_of_lt hidx
  have hcount : idx + n + 1 - idx = n + 1 := by omega
  have hrest : idx + n + 1 - (idx + 1) = n := by omega
  rw [Arrays.ends, Arrays.ends, hcount, hrest, List.range'_succ, List.filter_cons]

/-- The directories that are due end where the names of the path do. -/
theorem chainFrom_eq (hlen : length ≤ path.length) (hidx : idx ≤ length) (named : Bool) :
    chainFrom (path.take idx) ((path.take length).drop idx) named =
      (if named = true ∧ (idx = length ∨ path[idx]? = some slash) then [path.take idx] else []) ++
        (Arrays.ends path length idx).map path.take := by
  induction hn : length - idx generalizing idx named with
  | zero =>
    obtain rfl : idx = length := by omega
    have hrest : (path.take idx).drop idx = [] := by simp
    have hends : Arrays.ends path idx idx = [] := by simp [Arrays.ends]
    rw [hrest, hends]
    cases named <;> simp [chainFrom]
  | succ n ih =>
    have hlt : idx < length := by omega
    obtain ⟨c, hget⟩ : ∃ c, path[idx]? = some c := ⟨_, List.getElem?_eq_getElem (by omega)⟩
    have htake : path.take idx ++ [c] = path.take (idx + 1) := by
      rw [List.take_add_one, hget]
      rfl
    have hrest : (path.take length).drop idx = c :: (path.take length).drop (idx + 1) := by
      have hc : (path.take length)[idx]? = some c := by rw [List.getElem?_take_of_lt hlt, hget]
      obtain ⟨hlt', rfl⟩ := List.getElem?_eq_some_iff.mp hc
      exact List.drop_eq_getElem_cons hlt'
    have hnext := @ih (idx + 1) (by omega)
    rw [hrest, chainFrom, htake, ends_step hlt, Arrays.isEnd, Nat.add_sub_cancel, hget]
    by_cases hc : c = slash
    · subst hc
      cases named <;> simp [hnext false (by omega), Nat.ne_of_lt hlt]
    · have hcond : ¬ (named = true ∧ (idx = length ∨ some c = some slash)) := by
        rintro ⟨-, h | h⟩
        · omega
        · exact hc (Option.some.inj h)
      rw [if_neg (fun h => hc h.1), if_neg hcond, decide_eq_true hc, hnext true (by omega)]
      simp [hc]
      split <;> simp

end

/-! ## The file system -/

/-- `q` is a name in the directory `p`. -/
def InDirectory (p q : CStr) : Prop :=
  ∃ n name, q.bytes = p.bytes ++ List.replicate n slash ++ name ∧ name ≠ [] ∧ slash ∉ name ∧
    (0 < n ∨ p.bytes.getLast? = some slash)

/-- One of `dirs` that is not there can be made in a directory that is there: `mkdir` is refused for
nothing else. -/
def Willing {ω : Type} (os : FactoryOs ω) (dirs : Set CStr) : Prop := ∀ {w : ω} {p q : CStr},
  InDirectory p q → q ∈ dirs → os.stat w p = some .directory → os.stat w q = none →
    (os.mkdir w q).1 = true

section

variable {ω φ : Type} {os : FactoryOs ω} {real : CStr → φ}

/-- A directory of the chain that another one lies in. What that leads back from is on the way to
this one. -/
structure Contains (real : CStr → φ) (p q : CStr) : Prop where
  onWay : Arrays.OnWay p q
  outer : NamesFile p
  inner : NamesFile q
  other : real q ≠ real p
  starts : ∀ a ∈ dottedStarts q, Arrays.OnWay a p

theorem shared_places (hos : Arrays.Laws os real) {dirs : Set CStr} (hwill : Willing os dirs) :
    (places os).Shared (Contains real) (fun p q => InDirectory p q ∧ q ∈ dirs) where
  closed h hthere := hos.closed h.onWay hthere
  made h := hos.made h
  kept h := hos.kept h
  failed h j := congrArg Seen.kind (congrFun (hos.failed h) j)
  granted h hthere hnone := hwill h.1 h.2 hthere hnone
  apart {w p q} h hnone := by
    show os.stat (os.mkdir w p).2 q = none
    cases hmade : (os.mkdir w p).1 with
    | false => exact (congrArg Seen.kind (congrFun (hos.failed hmade) q)).trans hnone
    | true =>
      have hground : Grounded os.toFileOs w q := fun a ha => by
        rw [show os.stat w a = _ from hos.parents hmade h.outer (h.starts a ha)]
        exact Option.some_ne_none _
      rcases (hos.changes hmade h.outer).cases h.inner (.inr hground) (fun _ hp => hp.elim) with
        hsee | ⟨-, r, rfl, heq⟩
      · exact (congrArg Seen.kind hsee).trans hnone
      · exact absurd heq h.other

open Arrays

/-- What a process asks for, with the buffer that holds its path. The names behind the base stand
for different directories, and none of them is `.` or `..`. -/
structure Request (real : CStr → φ) where
  path : CStr
  buffer : Buffer UInt8
  base : Nat
  length : Nat
  base_pos : 0 < base
  base_slash : path.bytes[base - 1]? = some slash
  length_pos : 0 < length
  base_le : base - 1 ≤ length
  length_le : length ≤ path.bytes.length
  copied : Arrays.Copied path.bytes buffer (max base length)
  distinct : (ends path.bytes length (baseEnd base)).Pairwise fun i j =>
    real (startOf path j) ≠ real (startOf path i)
  plain : ∀ i ∈ ends path.bytes length (baseEnd base), ¬ EndsInDots (startOf path i).bytes

namespace Request

variable (r : Request real)

/-- The directories behind the base, parents first. -/
def chain : List CStr := (ends r.path.bytes r.length (baseEnd r.base)).map (startOf r.path)

theorem baseEnd_le : baseEnd r.base ≤ r.length := by
  have := r.length_pos
  have := r.base_le
  rw [baseEnd]
  omega

theorem makeDirectories_eq (os : FactoryOs ω) :
    Calls.makeDirectories os r.buffer r.base r.length =
      (places os).enter (startOf r.path (baseEnd r.base)) r.chain := by
  have hle := r.baseEnd_le
  have hargs : ¬ (r.length = 0 ∨ r.length < r.base - 1) := by
    have := r.length_pos
    have := r.base_le
    omega
  have hfront : slice r.buffer 0 (baseEnd r.base) = r.path.bytes.take (baseEnd r.base) :=
    Arrays.Copied.slice fun i hi => r.copied i (by omega)
  have hwhole : slice r.buffer 0 r.length = r.path.bytes.take r.length :=
    Arrays.Copied.slice fun i hi => r.copied i (by omega)
  have hrest : slice r.buffer (baseEnd r.base) r.length =
      (r.path.bytes.take r.length).drop (baseEnd r.base) := by
    have happend := Layered.Buffer.slice_append (b := r.buffer) (Nat.zero_le (baseEnd r.base)) hle
    rw [hfront, hwhole, ← take_append_between r.path.bytes hle] at happend
    exact List.append_cancel_left happend
  have hstart : ∀ n, CStr.ofBytes (r.path.bytes.take n) = startOf r.path n := fun n =>
    CStr.ofBytes_bytes (startOf r.path n)
  have hchain : (chainFrom (r.path.bytes.take (baseEnd r.base))
      ((r.path.bytes.take r.length).drop (baseEnd r.base)) false).map CStr.ofBytes = r.chain := by
    rw [chainFrom_eq r.length_le hle, if_neg (fun h => by cases h.1), List.nil_append,
      List.map_map]
    exact List.map_congr_left fun n _ => hstart n
  rw [Calls.makeDirectories, directoriesBase_eq r.base_pos r.base_slash r.copied, if_neg hargs]
  dsimp only
  rw [hfront, hrest, hstart, advance_walk, hchain]
  refine congrArg (Thread.act _) (funext fun seen => ?_)
  by_cases hseen : seen = some .directory
  · subst hseen
    rfl
  · rw [if_neg (show ¬ seen = some (places os).good from hseen)]
    exact if_pos hseen

end Request

/-- Where a name starts: at the slash that ends the directory, or behind the one that is part of
it. -/
def Opens (path : List UInt8) (idx : Nat) : Prop :=
  path[idx]? = some slash ∨ 0 < idx ∧ path[idx - 1]? = some slash

theorem Arrays.NextName.inDirectory {path : CStr} {length idx start stop : Nat}
    (h : NextName path.bytes length idx start stop) (hlen : length ≤ path.bytes.length)
    (hopens : Opens path.bytes idx) : InDirectory (startOf path idx) (startOf path stop) := by
  obtain ⟨hstart, hname, hstop, hslashes, hbytes, -⟩ := h
  have hsame : (path.bytes.take start).drop idx = List.replicate (start - idx) slash := by
    refine List.eq_replicate_iff.mpr ⟨by rw [List.length_drop, List.length_take]; omega, ?_⟩
    intro c hc
    obtain ⟨n, hlo, hhi, hget⟩ := mem_between hc
    exact Option.some.inj (hget.symm.trans (hslashes n hlo hhi))
  refine ⟨start - idx, (path.bytes.take stop).drop start, ?_, fun hnil => ?_, fun hmem => ?_, ?_⟩
  · show path.bytes.take stop = path.bytes.take idx ++ _ ++ _
    rw [← hsame, take_append_between _ hstart, take_append_between _ (Nat.le_of_lt hname)]
  · have hzero := congrArg List.length hnil
    rw [List.length_drop, List.length_take, List.length_nil] at hzero
    omega
  · obtain ⟨n, hlo, hhi, hget⟩ := mem_between hmem
    obtain ⟨c, hc, hne⟩ := hbytes n hlo hhi
    exact hne (Option.some.inj (hc.symm.trans hget))
  · rcases hopens with hslash | ⟨hpos, hslash⟩
    · left
      by_contra hzero
      obtain ⟨c, hc, hne⟩ := hbytes idx (by omega) (by omega)
      exact hne (Option.some.inj (hc.symm.trans hslash))
    · right
      show (path.bytes.take idx).getLast? = some slash
      rw [List.getLast?_eq_getElem?, List.length_take, Nat.min_eq_left (by omega),
        List.getElem?_take_of_lt (by omega), hslash]

/-- Each directory of the chain is a name in the one before. -/
theorem isChain_ends (os : FactoryOs ω) (w : ω) {path : CStr} {length idx : Nat}
    (hlen : length ≤ path.bytes.length) (hidx : idx ≤ length) (hopens : Opens path.bytes idx) :
    (startOf path idx :: (ends path.bytes length idx).map (startOf path)).IsChain InDirectory := by
  induction hn : length - idx using Nat.strong_induction_on generalizing idx with
  | _ n ih =>
    rcases name_cases os w hlen hidx with hslashes | ⟨start, stop, hname⟩
    · rw [ends_of_slashes hslashes]
      exact List.isChain_singleton _
    · have hlt : idx < stop := Nat.lt_of_le_of_lt hname.from_le hname.lt
      have hle := hname.le
      rw [hname.ends_eq, List.map_cons, List.isChain_cons_cons]
      refine ⟨hname.inDirectory hlen hopens, ?_⟩
      by_cases hend : stop < length
      · exact ih (length - stop) (by omega) hle (.inl (hname.next hend)) rfl
      · obtain rfl : stop = length := by omega
        have hslashes : Slashes path.bytes stop stop := fun i hi hi' => by omega
        rw [ends_of_slashes hslashes]
        exact List.isChain_singleton _

namespace Request

variable (r : Request real)

theorem opens : Opens r.path.bytes (baseEnd r.base) := by
  have hslash := r.base_slash
  have hpos := r.base_pos
  by_cases hroot : r.base - 1 = 0
  · have hend : baseEnd r.base = 1 := by rw [baseEnd]; omega
    rw [hend]
    exact .inr ⟨Nat.one_pos, by rwa [hroot] at hslash⟩
  · have hend : baseEnd r.base = r.base - 1 := by rw [baseEnd]; omega
    rw [hend]
    exact .inl hslash

theorem isChain (os : FactoryOs ω) (w : ω) {dirs : Set CStr} (hdirs : ∀ p ∈ r.chain, p ∈ dirs) :
    (startOf r.path (baseEnd r.base) :: r.chain).IsChain fun p q => InDirectory p q ∧ q ∈ dirs :=
  List.IsChain.imp_of_mem_tail_imp (fun _ q _ hq h => ⟨h, hdirs q hq⟩)
    (isChain_ends os w r.length_le r.baseEnd_le r.opens)

/-- What a directory of the chain leads back from is in front of the base. -/
theorem starts {i j : Nat} (hi : i ∈ ends r.path.bytes r.length (baseEnd r.base))
    (hj : j ∈ ends r.path.bytes r.length (baseEnd r.base)) {a : CStr}
    (ha : a ∈ dottedStarts (startOf r.path j)) : OnWay a (startOf r.path i) := by
  have hlen := r.length_le
  obtain ⟨hdots, rfl | hbegins⟩ := mem_dottedStarts.mp ha
  · exact absurd hdots (r.plain j hj)
  obtain ⟨hlow, hhigh, -⟩ := mem_ends.mp hi
  obtain ⟨-, hle, -⟩ := mem_ends.mp hj
  have hwhole : a.bytes ++ [slash] <+: r.path.bytes := hbegins.trans (List.take_prefix _ _)
  have hbytes : a = startOf r.path a.bytes.length :=
    CStr.ext (List.prefix_iff_eq_take.mp ((List.prefix_append _ _).trans hwhole))
  have hpos : 0 < a.bytes.length := List.length_pos_of_ne_nil hdots.ne_nil
  have hshort : a.bytes.length < j := by
    have hlength := hbegins.length_le
    have htake : (startOf r.path j).bytes.length ≤ j := List.length_take_le _ _
    rw [List.length_append, List.length_singleton] at hlength
    omega
  have hnext : r.path.bytes[a.bytes.length]? = some slash := by
    obtain ⟨rest, hrest⟩ := hwhole
    rw [← hrest]
    simp
  have hlast : r.path.bytes[a.bytes.length - 1]? ≠ some slash := by
    have hlast := hdots.1
    rw [List.getLast?_eq_getElem?, hbytes] at hlast
    rwa [show (startOf r.path a.bytes.length).bytes = r.path.bytes.take a.bytes.length from rfl,
      List.length_take, Nat.min_eq_left (by omega), List.getElem?_take_of_lt (by omega)] at hlast
  have hfront : a.bytes.length ≤ baseEnd r.base := by
    by_contra hbehind
    refine r.plain a.bytes.length (mem_ends.mpr ⟨by omega, by omega, ?_⟩) (hbytes ▸ hdots)
    exact isEnd_iff.mpr ⟨hlast, .inr hnext⟩
  rw [hbytes]
  exact onWay_of_next hpos (by omega) (by omega) hnext

theorem contains : r.chain.Pairwise (Contains real) := by
  have hlen := r.length_le
  have hnames : ∀ i ∈ ends r.path.bytes r.length (baseEnd r.base),
      NamesFile (startOf r.path i) := fun i hi => by
    obtain ⟨hpos, hle, hend⟩ := mem_ends.mp hi
    exact namesFile_startOf (by omega) (by omega) hend
  refine List.pairwise_map.mpr ?_
  refine ((pairwise_ends r.path hlen _).and r.distinct).imp_of_mem ?_
  rintro i j hi hj ⟨⟨-, honWay⟩, hne⟩
  exact ⟨honWay, hnames i hi, hnames j hj, hne, fun _ => r.starts hi hj⟩

/-- Something is in the way at the start. -/
def Hindered (os : FactoryOs ω) (w : ω) : Prop :=
  os.stat w (startOf r.path (baseEnd r.base)) ≠ some .directory ∨
    ∃ i kind, Boundary r.path r.length i ∧ os.stat w (startOf r.path i) = some kind ∧
      kind ≠ .directory

/-- A directory that was missing at the start has been made. -/
def Overtaken (os : FactoryOs ω) (w w' : ω) : Prop :=
  ∃ i, Boundary r.path r.length i ∧ os.stat w (startOf r.path i) = none ∧
    os.stat w' (startOf r.path i) ≠ none

theorem mem_chain {p : CStr} : p ∈ r.chain ↔
    ∃ i ∈ ends r.path.bytes r.length (baseEnd r.base), startOf r.path i = p := List.mem_map

theorem hindered_of_blocked {w : ω}
    (h : (places os).Blocked w (startOf r.path (baseEnd r.base)) r.chain) : r.Hindered os w := by
  refine h.imp_right ?_
  rintro ⟨p, hp, kind, hkind, hbad⟩
  obtain ⟨i, hi, rfl⟩ := r.mem_chain.mp hp
  exact ⟨i, kind, boundary_of_mem_ends hi, hkind, hbad⟩

theorem overtaken {w w' : ω} (h : (places os).Overtaken w w' r.chain) : r.Overtaken os w w' := by
  obtain ⟨p, hp, hnone, hthere⟩ := h
  obtain ⟨i, hi, rfl⟩ := r.mem_chain.mp hp
  exact ⟨i, boundary_of_mem_ends hi, hnone, hthere⟩

/-- All starts of the path are there when those behind the base are. -/
theorem directories (hos : Laws os real) {w : ω}
    (h : ∀ p ∈ startOf r.path (baseEnd r.base) :: r.chain, os.stat w p = some .directory)
    {i : Nat} (hi : Boundary r.path r.length i) :
    os.stat w (startOf r.path i) = some .directory := by
  by_cases hlt : baseEnd r.base < i
  · exact h _ (List.mem_cons_of_mem _ (r.mem_chain.mpr ⟨i, mem_ends_of_boundary hi hlt, rfl⟩))
  · exact boundary_of_base hos hi (Nat.not_lt.mp hlt) r.baseEnd_le r.length_le
      (h _ List.mem_cons_self)

end Request

/-- **Processes that make directories at once**, with their calls of `stat` and `mkdir` in any
order. One that succeeds has all its directories. One that fails was hindered from the start, or
another one has been faster. When all are done, one has succeeded, unless all were hindered. -/
theorem makeDirectories_crowd {ι : Type} [DecidableEq ι] (hos : Laws os real)
    (r : ι → Request real) (hwill : Willing os {p | ∃ i, p ∈ (r i).chain}) (w : ω)
    (schedule : List ι) :
    let c := (⟨w, fun i => Calls.makeDirectories os (r i).buffer (r i).base (r i).length⟩ :
      Pool ι Fault ω Bool).runs schedule
    (∀ i, c.threads i = .ret true → ∀ n, Boundary (r i).path (r i).length n →
      os.stat c.state (startOf (r i).path n) = some .directory) ∧
    (∀ i, c.threads i = .ret false →
      (r i).Hindered os w ∨ (r i).Overtaken os w c.state) ∧
    ((∀ i, ∃ b, c.threads i = .ret b) →
      (∃ i, c.threads i = .ret true) ∨ ∀ i, (r i).Hindered os w) := by
  have hthreads : (fun i => Calls.makeDirectories os (r i).buffer (r i).base (r i).length) =
      fun i => (places os).enter (startOf (r i).path (baseEnd (r i).base)) (r i).chain :=
    funext fun i => (r i).makeDirectories_eq os
  intro c
  obtain ⟨phases, hcrowd⟩ := (Maker.crowd_start (ε := Fault) (places os) w
    (fun i => startOf (r i).path (baseEnd (r i).base)) fun i => (r i).chain).runs
    (shared_places hos hwill) (fun i => (r i).isChain os w fun _ hp => ⟨i, hp⟩)
    (fun i => (r i).contains) schedule
  rw [← hthreads] at hcrowd
  obtain ⟨htrue, hfalse, hall⟩ := hcrowd.ends
  refine ⟨fun i hi n hn => (r i).directories hos (htrue i hi) hn, fun i hi => ?_, fun hended => ?_⟩
  · exact (hfalse i hi).imp (r i).hindered_of_blocked (r i).overtaken
  · exact (hall hended).imp_right fun h i => (r i).hindered_of_blocked (h i)

end

/-! ## Disks -/

theorem names_inDirectory {p q : CStr} (h : InDirectory p q) :
    ∃ name, names q = names p ++ [name] := by
  obtain ⟨n, name, hbytes, hne, hslash, hopens⟩ := h
  have hname : fields slash name = [name] := IsField.fields_eq ⟨hne, hslash⟩
  refine ⟨name, ?_⟩
  have hslashes : ∀ k, fields slash (List.replicate k slash ++ name) = [name] := by
    intro k
    induction k with
    | zero => exact hname
    | succ k ih => rw [List.replicate_succ, List.cons_append, fields_sep_cons, ih]
  rw [names, names, hbytes]
  cases n with
  | succ n =>
    rw [List.append_assoc, List.replicate_succ, List.cons_append, fields_append_sep, hslashes]
  | zero =>
    have hlast := hopens.resolve_left (Nat.lt_irrefl 0)
    obtain ⟨front, hfront⟩ := List.getLast?_eq_some_iff.mp hlast
    rw [hfront, List.replicate_zero, List.append_nil, List.append_assoc, List.singleton_append,
      fields_append_sep, fields_append_sep_nil, hname]

theorem willing_tidyOs (env : CStr → Option CStr) :
    Willing (tidyOs env) {q | ¬ EndsInDots q.bytes} := by
  intro d p q h hdots hdir hnone
  obtain ⟨name, hnames⟩ := names_inDirectory h
  have hfile : NamesFile q := by
    obtain ⟨n, name, hbytes, hne, hslash, -⟩ := h
    rw [NamesFile, hbytes, List.getLast?_append_of_ne_nil _ hne]
    exact fun hlast => hslash (List.mem_of_mem_getLast? hlast)
  have hlast : (fields slash q.bytes).getLast? = some name := by
    rw [show fields slash q.bytes = names p ++ [name] from hnames, List.getLast?_concat]
  have hplain : Plain name := by
    refine ⟨isField_of_mem_fields (List.mem_of_mem_getLast? hlast), fun heq => ?_, fun heq => ?_⟩
    · exact hdots ⟨hfile, .inl (hlast.trans (congrArg some heq))⟩
    · exact hdots ⟨hfile, .inr (hlast.trans (congrArg some heq))⟩
  obtain ⟨place, hfind, hplace⟩ := stat_eq_directory.mp hdir
  have hfound : d.1.find q = some (place ++ [name]) := by
    rw [Disk.find, hnames, Disk.walk_append, show d.1.walk [] (names p) = some place from hfind,
      Option.bind_some, Disk.walk, Disk.walk, follow_plain hplain]
    exact if_pos (by simpa using hplace)
  have hfree : d.1.holds (place ++ [name]) = false := by
    by_contra hholds
    refine stat_ne_none.mpr ⟨_, reach_eq_some.mpr ⟨hfound, .inl hfile⟩, ?_⟩ hnone
    simpa using hholds
  show (d.1.mkdir q).1 = true
  rw [Disk.mkdir_found hfound, hfree, Disk.admits]
  simp [hplace]

/-- An array that holds a path. -/
def bufferOf (path : CStr) : Buffer UInt8 := fun n => path.bytes.getD n 0

theorem copied_bufferOf {path : CStr} {n : Nat} (h : n ≤ path.bytes.length) :
    Arrays.Copied path.bytes (bufferOf path) n := by
  intro i hi
  rw [bufferOf, List.getD_eq_getElem?_getD, List.getElem?_eq_getElem (by omega)]
  rfl

open Arrays in
/-- The directories of the nodes `/r/s/a` and `/r/s/b`. -/
def siblings (first : Bool) : Request leadsTo where
  path := if first then .lit "/r/s/a" else .lit "/r/s/b"
  buffer := bufferOf (if first then .lit "/r/s/a" else .lit "/r/s/b")
  base := 3
  length := 6
  base_pos := by decide
  base_slash := by cases first <;> decide
  length_pos := by decide
  base_le := by decide
  length_le := by cases first <;> decide
  copied := by cases first <;> exact copied_bufferOf (by decide)
  distinct := by cases first <;> exact (by decide +kernel)
  plain := by cases first <;> exact (by decide +kernel)

/-- Both find that `/r/s` is missing, and the second one is too late then. -/
theorem makeDirectories_crowd_siblings :
    let c := (⟨templatesOnly, fun i => Calls.makeDirectories (tidyOs noVariables)
      (siblings i).buffer (siblings i).base (siblings i).length⟩ :
      Pool Bool Fault TidyDisk Bool).runs [true, true, false, false, true, true, false]
    c.threads true = .ret true ∧ c.threads false = .ret false ∧
      ((siblings false).Hindered (tidyOs noVariables) templatesOnly ∨
        (siblings false).Overtaken (tidyOs noVariables) templatesOnly c.state) := by
  have hwill : Willing (tidyOs noVariables) {p | ∃ i, p ∈ (siblings i).chain} := by
    rintro d p q h ⟨i, hq⟩
    obtain ⟨n, hn, rfl⟩ := (siblings i).mem_chain.mp hq
    exact willing_tidyOs noVariables h ((siblings i).plain n hn)
  have hlate := (makeDirectories_crowd (Arrays.laws_tidyOs noVariables) siblings hwill
    templatesOnly [true, true, false, false, true, true, false]).2.1 false rfl
  exact ⟨rfl, rfl, hlate⟩

end Factory
end RedPak
