import RedPak.Factory.TidyDisk
import RedPak.Layered.Chain

/-!
# Factory.Directories

`make_directories` with its arrays: the bytes of the path are copied to `tmp` one after the other,
and at the end of each name a zero is put behind them. A result of `none` stands for an index that
is not in its array; `path` has no more bytes than are given, and `tmp` has one more than `length`.

* `loop_eq`: the loop goes along the chain of the directories that end behind the base.
* `makeDirectories_exact`: what is made, for every path, base and length.
* `makeDirectories_eq`: the factory sees the same of it.
-/

namespace RedPak
namespace Factory
namespace Arrays

open Conf Node
open Layered (Buffer Maker Progress)
open Layered.Buffer (slice store writeAll)

/-! ## `make_directories` -/

section

variable {ω : Type}

/-- `tmp[i] = v` -/
def put (length : Nat) (tmp : Buffer UInt8) (i : Nat) (v : UInt8) : Option (Buffer UInt8) :=
  if i < length + 1 then some (tmp.store i v) else none

/-- `tmp` as a string -/
def string (length : Nat) (tmp : Buffer UInt8) : Option CStr :=
  if 0 ∈ slice tmp 0 (length + 1) then some (.ofBytes (slice tmp 0 (length + 1))) else none

/-- `while(idx < length && p(path[idx])) { tmp[idx] = path[idx]; idx++; }` -/
def copyWhile (p : UInt8 → Bool) (path : List UInt8) (length : Nat) (tmp : Buffer UInt8)
    (idx : Nat) : Option (Buffer UInt8 × Nat) :=
  if idx < length then
    match path[idx]? with
    | none => none
    | some c =>
      if p c then
        match put length tmp idx c with
        | none => none
        | some tmp => copyWhile p path length tmp (idx + 1)
      else some (tmp, idx)
  else some (tmp, idx)
termination_by length - idx

/-- `while (idx < length && path[idx] != '/') idx++;` -/
def nameEnd (path : List UInt8) (length idx : Nat) : Option Nat :=
  if idx < length then
    match path[idx]? with
    | none => none
    | some c => if c ≠ slash then nameEnd path length (idx + 1) else some idx
  else some idx
termination_by length - idx

/-- The end of the call. `existingLength` is what is stored there, `made` the directories that
`mkdir` made, in order. -/
structure Done (ω : Type) where
  rc : Int
  existingLength : Option Nat
  os : ω
  made : List CStr

/-- The variables of the loop. -/
structure Advance (ω : Type) where
  tmp : Buffer UInt8
  idx : Nat
  chk : Bool
  existingLength : Nat
  os : ω
  made : List CStr

def Advance.done (a : Advance ω) (rc : Int) : Done ω := ⟨rc, some a.existingLength, a.os, a.made⟩

inductive Turn (ω : Type) where
  | next (a : Advance ω)
  | stop (d : Done ω)

variable (os : FactoryOs ω)

def makeOne (a : Advance ω) (dir : CStr) : Turn ω :=
  let made := os.mkdir a.os dir
  if made.1 then .next { a with chk := false, os := made.2, made := a.made ++ [dir] }
  else .stop ({ a with os := made.2 }.done (-1))

/-- The directory whose name ends at `idx` -/
def enter (a : Advance ω) (dir : CStr) : Turn ω :=
  if a.chk then
    match os.stat a.os dir with
    | none => makeOne os a dir
    | some .directory => .next { a with existingLength := a.idx }
    | some _ => .stop (a.done (-1))
  else makeOne os a dir

/-- One turn of the loop that advances remaining directories. -/
def turn (path : List UInt8) (length : Nat) (a : Advance ω) : Option (Turn ω) := do
  let (tmp, idx) ← copyWhile (· == slash) path length a.tmp a.idx
  if idx = length then some (.stop (a.done 0))
  else
    let (tmp, idx) ← copyWhile (· != slash) path length tmp idx
    let tmp ← put length tmp idx 0
    let dir ← string length tmp
    some (enter os { a with tmp := tmp, idx := idx } dir)

def loop (path : List UInt8) (length : Nat) : (turns : Nat) → Advance ω → Option (Done ω)
  | 0, _ => none
  | turns + 1, a =>
    match turn os path length a with
    | none => none
    | some (.stop d) => some d
    | some (.next a) => loop path length turns a

/-- check arguments: where the base ends, or else `EINVAL` -/
def checkedBase (path : List UInt8) (base length : Nat) : Option (Option Nat) := do
  let last ← if base > 0 then path[base - 1]? else some 0
  let idx := if base > 0 ∧ last = slash then base - 1 else base
  if length = 0 ∨ idx > length then some none
  else
    let next ← if idx < length then path[idx]? else some slash
    if next ≠ slash then some none
    else if idx ≠ 0 then some (some idx)
    else
      let first ← path[0]?
      if first = slash then some (some 1) else (nameEnd path length idx).map some

/-- `tmp` holds `junk` at the start. -/
def makeDirectories (junk : Buffer UInt8) (path : List UInt8) (base length : Nat) (w : ω) :
    Option (Done ω) := do
  match ← checkedBase path base length with
  | none => some ⟨-1, none, w, []⟩
  | some idx =>
    if path.length < idx ∨ length < idx then none
    else
      let tmp ← put length (junk.writeAll 0 (path.take idx)) idx 0
      let dir ← string length tmp
      if os.stat w dir ≠ some .directory then some ⟨-1, none, w, []⟩
      else loop os path length (length + 1) ⟨tmp, idx, true, idx, w, []⟩

end

/-! ## The ends of the directories -/

/-- A name of the path ends in front of the index. -/
def isEnd (path : List UInt8) (length i : Nat) : Bool :=
  path[i - 1]? ≠ some slash && (i = length || path[i]? = some slash)

theorem isEnd_iff {path : List UInt8} {length i : Nat} : isEnd path length i = true ↔
    path[i - 1]? ≠ some slash ∧ (i = length ∨ path[i]? = some slash) := by
  simp [isEnd]

/-- Where the names end behind an index. -/
def ends (path : List UInt8) (length idx : Nat) : List Nat :=
  (List.range' (idx + 1) (length - idx)).filter (isEnd path length)

variable {path : List UInt8} {length idx : Nat} {tmp : Buffer UInt8}

/-- `tmp` starts with the bytes of the path. -/
def Copied (path : List UInt8) (tmp : Buffer UInt8) (n : Nat) : Prop :=
  ∀ i < n, path[i]? = some (tmp i)

theorem Copied.slice (h : Copied path tmp idx) : slice tmp 0 idx = path.take idx := by
  refine List.ext_getElem? fun n => ?_
  by_cases hn : n < idx
  · rw [Layered.Buffer.getElem?_slice n (by omega), List.getElem?_take_of_lt hn, h n hn,
      Nat.zero_add]
  · rw [List.getElem?_eq_none (by simp; omega), List.getElem?_eq_none (by simp; omega)]

theorem Copied.store {c : UInt8} (h : Copied path tmp idx) (hget : path[idx]? = some c) :
    Copied path (tmp.store idx c) (idx + 1) := by
  intro i hi
  rcases Nat.lt_succ_iff_lt_or_eq.mp hi with hlt | rfl
  · rw [Layered.Buffer.store_other (Nat.ne_of_lt hlt), h i hlt]
  · rw [Layered.Buffer.store_same, hget]

theorem Copied.zero (h : Copied path tmp idx) : Copied path (tmp.store idx 0) idx := fun i hi => by
  rw [Layered.Buffer.store_other (Nat.ne_of_lt hi), h i hi]

theorem copyWhile_spec {p : UInt8 → Bool} (hlen : length ≤ path.length) (hidx : idx ≤ length)
    (hcopied : Copied path tmp idx) : ∃ tmp' idx',
      copyWhile p path length tmp idx = some (tmp', idx') ∧ idx ≤ idx' ∧ idx' ≤ length ∧
        Copied path tmp' idx' ∧
        (∀ i, idx ≤ i → i < idx' → ∃ c, path[i]? = some c ∧ p c = true) ∧
        (idx' < length → ∃ c, path[idx']? = some c ∧ p c = false) := by
  induction hn : length - idx generalizing idx tmp with
  | zero =>
    obtain rfl : idx = length := by omega
    refine ⟨tmp, idx, ?_, Nat.le_refl _, Nat.le_refl _, hcopied, fun i hi hi' => ?_, fun hlt => ?_⟩
    · rw [copyWhile, if_neg (Nat.lt_irrefl _)]
    · omega
    · omega
  | succ n ih =>
    have hlt : idx < length := by omega
    obtain ⟨c, hget⟩ : ∃ c, path[idx]? = some c := ⟨_, List.getElem?_eq_getElem (by omega)⟩
    rw [copyWhile, if_pos hlt, hget]
    dsimp only
    cases hp : p c with
    | true =>
      obtain ⟨tmp', idx', heq, hle, hle', hcopied', hkind, hstop⟩ :=
        @ih (idx + 1) (tmp.store idx c) hlt (hcopied.store hget) (by omega)
      rw [if_pos rfl, put, if_pos (by omega)]
      refine ⟨tmp', idx', heq, by omega, hle', hcopied', fun i hi hi' => ?_, hstop⟩
      rcases Nat.eq_or_lt_of_le hi with rfl | hi
      · exact ⟨c, hget, hp⟩
      · exact hkind i hi hi'
    | false =>
      rw [if_neg Bool.false_ne_true]
      exact ⟨tmp, idx, rfl, Nat.le_refl _, hidx, hcopied, fun i hi hi' => by omega,
        fun _ => ⟨c, hget, hp⟩⟩

theorem nulFree_take (path : CStr) (n : Nat) : (0 : UInt8) ∉ path.bytes.take n :=
  fun h => path.nulFree (List.mem_of_mem_take h)

/-- The first bytes of a path. -/
def startOf (path : CStr) (n : Nat) : CStr := ⟨path.bytes.take n, nulFree_take path n⟩

/-- The string in `tmp`, once a zero is put behind what is copied. -/
theorem string_put {path : CStr} (hidx : idx ≤ length) (h : Copied path.bytes tmp idx) :
    put length tmp idx 0 = some (tmp.store idx 0) ∧
      string length (tmp.store idx 0) = some (startOf path idx) := by
  have hslice : slice (tmp.store idx 0) 0 (length + 1) =
      (startOf path idx).bytes ++ 0 :: slice (tmp.store idx 0) (idx + 1) (length + 1) := by
    rw [← Layered.Buffer.slice_append (Nat.zero_le idx) (by omega : idx ≤ length + 1),
      h.zero.slice, Layered.Buffer.slice_cons (by omega), Layered.Buffer.store_same]
    rfl
  refine ⟨if_pos (by omega), ?_⟩
  rw [string, hslice, if_pos (by simp)]
  exact congrArg some (CStr.ext (CStr.ofBytes_zero (startOf path idx).nulFree))

/-! ## The loop -/

theorem mem_ends {path : List UInt8} {i : Nat} : i ∈ ends path length idx ↔
    idx < i ∧ i ≤ length ∧ isEnd path length i = true := by
  rw [ends, List.mem_filter, List.mem_range'_1]
  constructor
  · rintro ⟨⟨hlo, hhi⟩, hend⟩
    exact ⟨by omega, by omega, hend⟩
  · rintro ⟨hlo, hhi, hend⟩
    exact ⟨⟨by omega, by omega⟩, hend⟩

/-- Only slashes are left. -/
def Slashes (path : List UInt8) (i j : Nat) : Prop := ∀ n, i ≤ n → n < j → path[n]? = some slash

/-- The next name: slashes in front of it, and a slash behind it, if it is not the last one. -/
structure NextName (path : List UInt8) (length idx start stop : Nat) : Prop where
  from_le : idx ≤ start
  lt : start < stop
  le : stop ≤ length
  slashes : Slashes path idx start
  bytes : ∀ n, start ≤ n → n < stop → ∃ c, path[n]? = some c ∧ c ≠ slash
  next : stop < length → path[stop]? = some slash

theorem ends_of_slashes (h : Slashes path idx length) : ends path length idx = [] := by
  refine List.eq_nil_iff_forall_not_mem.mpr fun i hi => ?_
  obtain ⟨hlo, hhi, hend⟩ := mem_ends.mp hi
  exact (isEnd_iff.mp hend).1 (h (i - 1) (by omega) (by omega))

theorem NextName.ends_eq {start stop : Nat} (h : NextName path length idx start stop) :
    ends path length idx = stop :: ends path length stop := by
  obtain ⟨hstart, hname, hstop, hslashes, hbytes, hnext⟩ := h
  have hrange : List.range' (idx + 1) (length - idx) =
      List.range' (idx + 1) (stop - 1 - idx) ++ stop :: List.range' (stop + 1) (length - stop) := by
    have hcount : length - idx = (stop - 1 - idx) + (length - stop + 1) := by omega
    have hfirst : idx + 1 + (stop - 1 - idx) = stop := by omega
    rw [hcount, ← List.range'_append_1, hfirst, List.range'_succ]
  have hbefore : (List.range' (idx + 1) (stop - 1 - idx)).filter (isEnd path length) = [] := by
    refine List.filter_eq_nil_iff.mpr fun i hi hend => ?_
    rw [List.mem_range'_1] at hi
    obtain ⟨hlast, hlen | hslash⟩ := isEnd_iff.mp hend
    · omega
    by_cases his : i ≤ start
    · exact hlast (hslashes (i - 1) (by omega) (by omega))
    · obtain ⟨c, hget, hc⟩ := hbytes i (by omega) (by omega)
      exact hc (Option.some.inj (hget.symm.trans hslash))
  have hend : isEnd path length stop = true := by
    obtain ⟨c, hget, hc⟩ := hbytes (stop - 1) (by omega) (by omega)
    refine isEnd_iff.mpr ⟨by rw [hget]; exact fun h => hc (Option.some.inj h), ?_⟩
    by_cases hlast : stop = length
    · exact .inl hlast
    · exact .inr (hnext (by omega))
  rw [ends, hrange, List.filter_append, hbefore, List.nil_append, List.filter_cons_of_pos hend]
  rfl

variable {ω : Type} {os : FactoryOs ω} {a : Advance ω} {path : CStr}

/-- **A turn** ends behind the last name, or it enters the directory whose name comes next. -/
theorem turn_cases (hlen : length ≤ path.bytes.length) (hidx : a.idx ≤ length)
    (hcopied : Copied path.bytes a.tmp a.idx) :
    (Slashes path.bytes a.idx length ∧
      turn os path.bytes length a = some (.stop (a.done 0))) ∨
    ∃ start idx tmp, NextName path.bytes length a.idx start idx ∧ Copied path.bytes tmp idx ∧
      turn os path.bytes length a =
        some (enter os { a with tmp := tmp, idx := idx } (startOf path idx)) := by
  obtain ⟨tmp, start, heq, hle, hle', hcopied', hslashes, hstop⟩ :=
    @copyWhile_spec path.bytes length a.idx a.tmp (· == slash) hlen hidx hcopied
  have hslashes' : Slashes path.bytes a.idx start := by
    intro i hi hi'
    obtain ⟨c, hget, hc⟩ := hslashes i hi hi'
    rw [hget, eq_of_beq hc]
  by_cases hend : start = length
  · left
    subst hend
    refine ⟨hslashes', ?_⟩
    rw [turn, heq]
    exact if_pos rfl
  · right
    obtain ⟨c, hget, hc⟩ := hstop (by omega)
    obtain ⟨tmp', stop, heq', hname, hlast, hcopied'', hbytes, hnext⟩ :=
      @copyWhile_spec path.bytes length start tmp (· != slash) hlen hle' hcopied'
    have hne : start ≠ stop := by
      rintro rfl
      obtain ⟨c', hget', hc'⟩ := hnext (by omega)
      obtain rfl := Option.some.inj (hget.symm.trans hget')
      simp at hc hc'
      exact hc hc'
    obtain ⟨hput, hstring⟩ := string_put hlast hcopied''
    refine ⟨start, stop, tmp'.store stop 0, ?_, hcopied''.zero, ?_⟩
    · refine ⟨hle, by omega, hlast, hslashes', fun i hi hi' => ?_, fun hlt => ?_⟩
      · obtain ⟨d, hd, hother⟩ := hbytes i hi hi'
        exact ⟨d, hd, by simpa using hother⟩
      · obtain ⟨d, hd, hslash⟩ := hnext hlt
        rw [hd]
        simpa using hslash
    · rw [turn, heq]
      show (if start = length then _ else _) = _
      rw [if_neg hend, heq']
      show (put length tmp' stop 0).bind _ = _
      rw [hput]
      show (string length (tmp'.store stop 0)).bind _ = _
      rw [hstring]
      rfl

/-- The directories on the way, by where their names end. -/
def maker (os : FactoryOs ω) (path : CStr) : Maker ω Nat FileKind where
  look w i := os.stat w (startOf path i)
  make w i := os.mkdir w (startOf path i)
  good := .directory

/-- The end of the call, after a walk along the directories. -/
def Advance.finish (a : Advance ω) (path : CStr) (o : Progress ω Nat) : Done ω where
  rc := if o.ok then 0 else -1
  existingLength := some (o.passed.getLastD a.existingLength)
  os := o.state
  made := a.made ++ o.made.map (startOf path)

theorem finish_nil (a : Advance ω) (path : CStr) :
    a.finish path ⟨true, a.os, [], []⟩ = a.done 0 := by
  rw [Advance.finish, Advance.done, List.map_nil, List.append_nil]
  rfl

theorem makeOne_cases (os : FactoryOs ω) (a : Advance ω) (path : CStr) (ks : List Nat) :
    (∃ b, makeOne os a (startOf path a.idx) = .next b ∧ b.tmp = a.tmp ∧ b.idx = a.idx ∧
      b.chk = false ∧ a.finish path ((maker os path).makeAll a.os (a.idx :: ks)) =
        b.finish path ((maker os path).makeAll b.os ks)) ∨
    ∃ d, makeOne os a (startOf path a.idx) = .stop d ∧
      a.finish path ((maker os path).makeAll a.os (a.idx :: ks)) = d := by
  rw [makeOne, Maker.makeAll]
  by_cases hmade : (os.mkdir a.os (startOf path a.idx)).1 = true
  · left
    refine ⟨_, if_pos hmade, rfl, rfl, rfl, ?_⟩
    rw [if_pos (show ((maker os path).make a.os a.idx).1 = true from hmade)]
    simp only [Advance.finish, List.map_cons, List.append_assoc, List.singleton_append]
    rfl
  · right
    refine ⟨_, if_neg hmade, ?_⟩
    rw [if_neg (show ¬ ((maker os path).make a.os a.idx).1 = true from hmade)]
    rw [Advance.finish, Advance.done, List.map_nil, List.append_nil]
    rfl

/-- A turn that makes a directory, and the loop behind it. -/
theorem loop_of_makeOne {turns : Nat} (hloop : ∀ b : Advance ω, b.tmp = tmp → b.idx = idx →
      b.chk = false → loop os path.bytes length turns b =
        some (b.finish path ((maker os path).makeAll b.os (ends path.bytes length idx))))
    (hturn : turn os path.bytes length a =
      some (makeOne os { a with tmp := tmp, idx := idx } (startOf path idx))) :
    loop os path.bytes length (turns + 1) a = some (a.finish path
      ((maker os path).makeAll a.os (idx :: ends path.bytes length idx))) := by
  rw [loop, hturn]
  rcases makeOne_cases os { a with tmp := tmp, idx := idx } path (ends path.bytes length idx) with
    ⟨b, hmade, htmp, hidx, hchk, hfinish⟩ | ⟨d, hstop, hfinish⟩
  · rw [hmade]
    dsimp only
    rw [hloop b htmp hidx hchk]
    exact congrArg some hfinish.symm
  · rw [hstop]
    exact congrArg some hfinish.symm

theorem loop_make {turns : Nat} (hlen : length ≤ path.bytes.length) (hidx : a.idx ≤ length)
    (hcopied : Copied path.bytes a.tmp a.idx) (hchk : a.chk = false)
    (hturns : length - a.idx < turns) : loop os path.bytes length turns a =
      some (a.finish path ((maker os path).makeAll a.os (ends path.bytes length a.idx))) := by
  induction turns generalizing a with
  | zero => omega
  | succ turns ih =>
    rcases @turn_cases _ _ os a path hlen hidx hcopied with
      ⟨hslashes, hturn⟩ | ⟨start, idx, tmp, hname, hcopied', hturn⟩
    · rw [loop, hturn, ends_of_slashes hslashes, Maker.makeAll, finish_nil]
    · have hlt : a.idx < idx := Nat.lt_of_le_of_lt hname.from_le hname.lt
      have hle := hname.le
      rw [enter, if_neg (by rw [hchk]; exact Bool.false_ne_true)] at hturn
      rw [hname.ends_eq]
      refine loop_of_makeOne (fun b htmp hidx' hchk' => ?_) hturn
      subst htmp hidx'
      exact ih hle hcopied' hchk' (by omega)

/-- **The loop** goes along the directories that end behind the base. -/
theorem loop_eq {turns : Nat} (hlen : length ≤ path.bytes.length) (hidx : a.idx ≤ length)
    (hcopied : Copied path.bytes a.tmp a.idx) (hchk : a.chk = true)
    (hturns : length - a.idx < turns) : loop os path.bytes length turns a =
      some (a.finish path ((maker os path).advance a.os (ends path.bytes length a.idx))) := by
  induction turns generalizing a with
  | zero => omega
  | succ turns ih =>
    rcases @turn_cases _ _ os a path hlen hidx hcopied with
      ⟨hslashes, hturn⟩ | ⟨start, idx, tmp, hname, hcopied', hturn⟩
    · rw [loop, hturn, ends_of_slashes hslashes, Maker.advance, finish_nil]
    · have hlt : a.idx < idx := Nat.lt_of_le_of_lt hname.from_le hname.lt
      have hle := hname.le
      have hlook : (maker os path).look a.os idx = os.stat a.os (startOf path idx) := rfl
      have hgood : (maker os path).good = .directory := rfl
      rw [enter, if_pos hchk] at hturn
      dsimp only at hturn
      rw [hname.ends_eq, Maker.advance, hlook]
      cases hstat : os.stat a.os (startOf path idx) with
      | none =>
        rw [hstat] at hturn
        refine loop_of_makeOne (fun b htmp hidx' hchk' => ?_) hturn
        subst htmp hidx'
        exact loop_make hlen hle hcopied' hchk' (by omega)
      | some kind =>
        rw [hstat] at hturn
        by_cases hkind : kind = .directory
        · subst hkind
          rw [loop, hturn]
          dsimp only
          rw [hgood, if_pos rfl, @ih { a with tmp := tmp, idx := idx, existingLength := idx } hle
            hcopied' hchk (by show length - idx < turns; omega)]
          simp only [Advance.finish, List.getLastD_cons]
        · have henter : turn os path.bytes length a =
              some (.stop (({ a with tmp := tmp, idx := idx } : Advance ω).done (-1))) := by
            rw [hturn]
            cases kind with
            | directory => exact absurd rfl hkind
            | regular => rfl
            | other => rfl
          rw [loop, henter]
          dsimp only
          rw [hgood, if_neg hkind, Advance.finish, List.map_nil, List.append_nil]
          rfl

/-! ## The base -/

/-- Where the base ends, without its slash: the root is one. -/
def baseEnd (base : Nat) : Nat := max 1 (base - 1)

theorem checkedBase_eq {path : List UInt8} {base : Nat} (hpos : 0 < base)
    (hbase : path[base - 1]? = some slash) : checkedBase path base length =
      some (if length = 0 ∨ length < base - 1 then none else some (baseEnd base)) := by
  rw [checkedBase, if_pos hpos, hbase, Option.bind_eq_bind, Option.bind_some]
  dsimp only
  have hslash : base > 0 ∧ slash = slash := ⟨hpos, rfl⟩
  rw [if_pos hslash]
  by_cases hargs : length = 0 ∨ length < base - 1
  · rw [if_pos hargs, if_pos hargs]
  · rw [if_neg hargs, if_neg hargs, hbase, ite_self, Option.bind_some,
      if_neg (not_not_intro rfl), baseEnd]
    by_cases hroot : base - 1 = 0
    · rw [hroot] at hbase
      rw [hroot, if_neg (not_not_intro rfl), hbase]
      rfl
    · rw [if_pos hroot]
      exact congrArg (fun idx => some (some idx)) (by omega)

/-- **The call** for a base that ends at a slash. -/
theorem makeDirectories_walk (os : FactoryOs ω) (junk : Buffer UInt8) {base : Nat} (w : ω)
    (hpos : 0 < base) (hbase : path.bytes[base - 1]? = some slash)
    (hlen : length ≤ path.bytes.length) : makeDirectories os junk path.bytes base length w = some
      (if length = 0 ∨ length < base - 1 then ⟨-1, none, w, []⟩
      else if os.stat w (startOf path (baseEnd base)) ≠ some .directory then ⟨-1, none, w, []⟩
      else (⟨junk, baseEnd base, true, baseEnd base, w, []⟩ : Advance ω).finish path
        ((maker os path).advance w (ends path.bytes length (baseEnd base)))) := by
  have hbelow : base - 1 < path.bytes.length := (List.getElem?_eq_some_iff.mp hbase).1
  rw [makeDirectories, checkedBase_eq hpos hbase, Option.bind_eq_bind, Option.bind_some]
  by_cases hargs : length = 0 ∨ length < base - 1
  · rw [if_pos hargs, if_pos hargs]
  · have hle : baseEnd base ≤ length := by rw [baseEnd]; omega
    have hcopied : Copied path.bytes (junk.writeAll 0 (path.bytes.take (baseEnd base)))
        (baseEnd base) := by
      intro i hi
      have happly := Layered.Buffer.writeAll_apply junk 0 i (path.bytes.take (baseEnd base))
      rw [Nat.zero_add, List.getElem?_take_of_lt hi,
        List.getElem?_eq_getElem (by omega : i < path.bytes.length)] at happly
      rw [happly, List.getElem?_eq_getElem (by omega)]
      rfl
    obtain ⟨hput, hstring⟩ := string_put hle hcopied
    rw [if_neg hargs, if_neg hargs]
    dsimp only
    rw [if_neg (by omega), hput, Option.bind_eq_bind, Option.bind_some, hstring,
      Option.bind_eq_bind, Option.bind_some]
    by_cases hdir : os.stat w (startOf path (baseEnd base)) ≠ some .directory
    · rw [if_pos hdir, if_pos hdir]
    · rw [if_neg hdir, if_neg hdir, loop_eq hlen hle hcopied.zero rfl (by omega)]
      rfl

/-! ## What it is for -/

/-- `p` is the root, or it is named on the way to `q`. -/
def OnWay (p q : CStr) : Prop :=
  p.bytes = [slash] ∧ q.bytes.head? = some slash ∨ p.bytes ≠ [] ∧ p.bytes ++ [slash] <+: q.bytes

/-- What `stat` and `mkdir` are documented to do; `real` is as for `FileSystem`. -/
structure Laws {φ : Type} (os : FactoryOs ω) (real : CStr → φ) : Prop where
  closed : ∀ {w p q}, OnWay p q → os.stat w q ≠ none → os.stat w p = some .directory
  made : ∀ {w p}, (os.mkdir w p).1 = true →
    os.stat w p = none ∧ os.stat (os.mkdir w p).2 p = some .directory
  kept : ∀ {w p q}, os.stat w q ≠ none → os.stat (os.mkdir w p).2 q = os.stat w q
  changes : ∀ {w p}, (os.mkdir w p).1 = true → NamesFile p →
    Changes os.toFileOs real ∅ {p} w (os.mkdir w p).2
  parents : ∀ {w p q}, (os.mkdir w q).1 = true → NamesFile q → OnWay p q →
    os.stat w p = some .directory
  failed : ∀ {w p}, (os.mkdir w p).1 = false →
    see os.toFileOs (os.mkdir w p).2 = see os.toFileOs w

/-- The start of the path up to an index is the root, or ends with a whole name. -/
def Boundary (path : CStr) (length i : Nat) : Prop :=
  i ≤ length ∧ (i = 1 ∧ path.bytes[0]? = some slash ∨ 0 < i ∧ isEnd path.bytes length i = true)

/-- The directories behind the base that are not there, parents first. -/
def missing (os : FactoryOs ω) (path : CStr) (base length : Nat) (w : ω) : List CStr :=
  ((ends path.bytes length (base - 1)).filter fun i => (os.stat w (startOf path i)).isNone).map
    (startOf path)

/-- The longest start of the path that is there, or else the base without its slash. -/
structure Longest (os : FactoryOs ω) (path : CStr) (base length : Nat) (w : ω) (n : Nat) :
    Prop where
  atLeast : base - 1 ≤ n
  longest : ∀ i, Boundary path length i → os.stat w (startOf path i) ≠ none → i ≤ n
  there : n = base - 1 ∨ Boundary path length n ∧ os.stat w (startOf path n) ≠ none

/-- A chain of directories is made exactly. -/
structure MadeExactly {φ : Type} (os : FactoryOs ω) (real : CStr → φ) (path : CStr)
    (base length : Nat) (w : ω) (d : Done ω) : Prop where
  changes : Changes os.toFileOs real ∅ {p | p ∈ d.made} w d.os
  directories : d.rc = 0 → ∀ i, Boundary path length i →
    os.stat d.os (startOf path i) = some .directory
  made : d.rc = 0 → d.made = missing os path base length w
  existing : d.rc = 0 → ∃ n, d.existingLength = some n ∧ Longest os path base length w n
  run : d.rc ≠ 0 → d.made <+: missing os path base length w
  blocked : d.rc ≠ 0 → (∃ i kind, Boundary path length i ∧
    os.stat w (startOf path i) = some kind ∧ kind ≠ .directory) → d.made = []

variable {φ : Type} {real : CStr → φ} {w : ω} {base : Nat}

theorem namesFile_startOf {i : Nat} (hpos : 0 < i) (hlen : i ≤ path.bytes.length)
    (h : isEnd path.bytes length i = true) : NamesFile (startOf path i) := by
  have hlast : (startOf path i).bytes.getLast? = path.bytes[i - 1]? := by
    show (path.bytes.take i).getLast? = _
    rw [List.getLast?_eq_getElem?, List.length_take, Nat.min_eq_left hlen,
      List.getElem?_take_of_lt (by omega)]
  rw [NamesFile, hlast]
  exact (isEnd_iff.mp h).1

theorem onWay_of_next {i j : Nat} (hpos : 0 < i) (hlen : j ≤ path.bytes.length) (hlt : i < j)
    (hnext : path.bytes[i]? = some slash) : OnWay (startOf path i) (startOf path j) := by
  right
  have htake : path.bytes.take (i + 1) = path.bytes.take i ++ [slash] := by
    rw [List.take_add_one, hnext]
    rfl
  refine ⟨fun hnil => ?_, ?_⟩
  · have hzero := congrArg List.length hnil
    rw [startOf, List.length_take, List.length_nil] at hzero
    omega
  · show path.bytes.take i ++ [slash] <+: path.bytes.take j
    rw [← htake]
    exact List.take_prefix_take_left (by omega)

/-- Each of the directories on the way lies in the ones before it. -/
theorem pairwise_ends (path : CStr) (hlen : length ≤ path.bytes.length) (idx : Nat) :
    (ends path.bytes length idx).Pairwise
      fun i j => i < j ∧ OnWay (startOf path i) (startOf path j) := by
  have hsorted : (ends path.bytes length idx).Pairwise (· < ·) :=
    (List.pairwise_lt_range' (s := idx + 1) (n := length - idx)).filter _
  refine hsorted.imp_of_mem fun {i j} hi hj hlt => ⟨hlt, ?_⟩
  obtain ⟨hpos, hle, hend⟩ := mem_ends.mp hi
  obtain ⟨-, hle', -⟩ := mem_ends.mp hj
  exact onWay_of_next (by omega) (by omega) hlt ((isEnd_iff.mp hend).2.resolve_left (by omega))

theorem lawful_maker (hos : Laws os real) (path : CStr) :
    (maker os path).Lawful fun i j => i < j ∧ OnWay (startOf path i) (startOf path j) where
  closed h hthere := hos.closed h.2 hthere
  made h := hos.made h
  kept h := hos.kept h

theorem changes_makeAll (hos : Laws os real) {ks : List Nat}
    (hks : ∀ i ∈ ks, NamesFile (startOf path i)) (w : ω) :
    Changes os.toFileOs real ∅ {p | p ∈ ((maker os path).makeAll w ks).made.map (startOf path)} w
      ((maker os path).makeAll w ks).state := by
  induction ks generalizing w with
  | nil => exact changes_of_see rfl
  | cons k ks ih =>
    rw [Maker.makeAll]
    by_cases hmade : (os.mkdir w (startOf path k)).1 = true
    · rw [if_pos (show ((maker os path).make w k).1 = true from hmade)]
      have hfirst := hos.changes hmade (hks k List.mem_cons_self)
      have hrest :=
        ih (fun i hi => hks i (List.mem_cons_of_mem k hi)) (os.mkdir w (startOf path k)).2
      refine (hfirst.mono Set.Subset.rfl ?_).trans (hrest.mono Set.Subset.rfl fun p hp => ?_)
      · rintro p rfl
        exact List.mem_cons_self
      · exact List.mem_cons_of_mem _ hp
    · rw [if_neg (show ¬ ((maker os path).make w k).1 = true from hmade)]
      exact changes_of_see (hos.failed (Bool.eq_false_iff.mpr hmade))

theorem changes_advance (hos : Laws os real) {ks : List Nat}
    (hks : ∀ i ∈ ks, NamesFile (startOf path i)) :
    Changes os.toFileOs real ∅ {p | p ∈ ((maker os path).advance w ks).made.map (startOf path)} w
      ((maker os path).advance w ks).state := by
  induction ks with
  | nil => exact changes_of_see rfl
  | cons k ks ih =>
    rw [Maker.advance]
    split
    · exact changes_makeAll hos hks w
    · split
      · exact ih fun i hi => hks i (List.mem_cons_of_mem k hi)
      · exact changes_of_see rfl

/-! ## The walk behind the base -/

theorem le_getLastD {l : List Nat} (h : l.Pairwise (· < ·)) {i : Nat} (hi : i ∈ l) (n : Nat) :
    i ≤ l.getLastD n := by
  rcases List.eq_nil_or_concat l with rfl | ⟨front, last, rfl⟩
  · cases hi
  · rw [List.concat_eq_append] at h hi ⊢
    rw [List.getLastD_concat]
    rcases List.mem_append.mp hi with hfront | hlast
    · exact Nat.le_of_lt ((List.pairwise_append.mp h).2.2 i hfront last (List.mem_singleton_self _))
    · exact Nat.le_of_eq (List.mem_singleton.mp hlast)

theorem ends_baseEnd (hbase : path.bytes[base - 1]? = some slash) :
    ends path.bytes length (base - 1) = ends path.bytes length (baseEnd base) := by
  by_cases hroot : base - 1 = 0
  · rw [hroot] at hbase
    have hnot : ¬ isEnd path.bytes length 1 = true := fun h => (isEnd_iff.mp h).1 hbase
    have hone : baseEnd base = 1 := by rw [baseEnd]; omega
    rw [hroot, hone]
    cases length with
    | zero => rfl
    | succ n =>
      rw [ends, ends, Nat.sub_zero, List.range'_succ, List.filter_cons_of_neg hnot]
      rfl
  · have hsame : baseEnd base = base - 1 := by rw [baseEnd]; omega
    rw [hsame]

/-- The starts of the path up to the base are there if the base is. -/
theorem boundary_of_base (hos : Laws os real) {i : Nat} (hi : Boundary path length i)
    (hle : i ≤ baseEnd base) (hlen : baseEnd base ≤ length) (hlen' : length ≤ path.bytes.length)
    (hdir : os.stat w (startOf path (baseEnd base)) = some .directory) :
    os.stat w (startOf path i) = some .directory := by
  rcases Nat.eq_or_lt_of_le hle with rfl | hlt
  · exact hdir
  refine hos.closed ?_ (by rw [hdir]; exact Option.some_ne_none _)
  rcases hi.2 with ⟨rfl, hslash⟩ | ⟨hpos, hend⟩
  · -- the root
    have hfirst (n : Nat) : (path.bytes.take (n + 1)).head? = some slash := by
      rw [List.head?_eq_getElem?, List.getElem?_take_of_lt (Nat.succ_pos n), hslash]
    obtain ⟨rest, hroot⟩ := List.head?_eq_some_iff.mp (hfirst 0)
    refine .inl ⟨?_, ?_⟩
    · have hlen := congrArg List.length hroot
      rw [List.length_take, List.length_cons] at hlen
      rw [List.length_eq_zero_iff.mp (by omega : rest.length = 0)] at hroot
      exact hroot
    · obtain ⟨n, hn⟩ : ∃ n, baseEnd base = n + 1 := ⟨baseEnd base - 1, by omega⟩
      rw [hn]
      exact hfirst n
  · exact onWay_of_next hpos (by omega) hlt ((isEnd_iff.mp hend).2.resolve_left (by omega))

/-- A start of the path is one up to the base or one behind it. -/
theorem mem_ends_of_boundary {i : Nat} (hi : Boundary path length i) (hlt : baseEnd base < i) :
    i ∈ ends path.bytes length (baseEnd base) := by
  rcases hi.2 with ⟨rfl, -⟩ | ⟨-, hend⟩
  · rw [baseEnd] at hlt
    omega
  · exact mem_ends.mpr ⟨hlt, hi.1, hend⟩

theorem boundary_of_mem_ends {i : Nat} (hi : i ∈ ends path.bytes length idx) :
    Boundary path length i := by
  obtain ⟨hlt, hle, hend⟩ := mem_ends.mp hi
  exact ⟨hle, .inr ⟨by omega, hend⟩⟩

/-- The last of the directories that are passed is the longest one that is there. -/
theorem longest_passed (hbase : path.bytes[base - 1]? = some slash)
    (hlen : baseEnd base ≤ length)
    (hdir : os.stat w (startOf path (baseEnd base)) = some .directory) :
    Longest os path base length w (((ends path.bytes length (baseEnd base)).filter fun i =>
      (os.stat w (startOf path i)).isSome).getLastD (baseEnd base)) := by
  have hsorted : ((ends path.bytes length (baseEnd base)).filter fun i =>
      (os.stat w (startOf path i)).isSome).Pairwise (· < ·) :=
    ((List.pairwise_lt_range' (s := baseEnd base + 1) (n := length - baseEnd base)).filter
      _).filter _
  have hmem (i : Nat) : i ∈ ((ends path.bytes length (baseEnd base)).filter fun i =>
      (os.stat w (startOf path i)).isSome) ↔
        i ∈ ends path.bytes length (baseEnd base) ∧ os.stat w (startOf path i) ≠ none := by
    rw [List.mem_filter, Option.isSome_iff_ne_none]
  generalize ((ends path.bytes length (baseEnd base)).filter fun i =>
    (os.stat w (startOf path i)).isSome) = passed at hsorted hmem ⊢
  have hlast : passed.getLastD (baseEnd base) = baseEnd base ∨
      passed.getLastD (baseEnd base) ∈ passed := by
    rcases List.eq_nil_or_concat passed with rfl | ⟨front, last, rfl⟩
    · exact .inl rfl
    · right
      rw [List.concat_eq_append, List.getLastD_concat]
      exact List.mem_append_right _ (List.mem_singleton_self _)
  have hbaseEnd : baseEnd base ≤ passed.getLastD (baseEnd base) := by
    rcases hlast with heq | hin
    · exact Nat.le_of_eq heq.symm
    · exact Nat.le_of_lt (mem_ends.mp ((hmem _).mp hin).1).1
  refine ⟨Nat.le_trans (by rw [baseEnd]; omega) hbaseEnd, fun i hi hthere => ?_, ?_⟩
  · by_cases hlt : baseEnd base < i
    · exact le_getLastD hsorted ((hmem i).mpr ⟨mem_ends_of_boundary hi hlt, hthere⟩) _
    · omega
  · rcases hlast with heq | hin
    · rw [heq]
      by_cases hroot : base - 1 = 0
      · -- the root, which is there
        have hone : baseEnd base = 1 := by rw [baseEnd]; omega
        rw [hroot] at hbase
        rw [hone] at hlen hdir ⊢
        exact .inr ⟨⟨hlen, .inl ⟨rfl, hbase⟩⟩, by rw [hdir]; exact Option.some_ne_none _⟩
      · exact .inl (by rw [baseEnd]; omega)
    · obtain ⟨hends, hthere⟩ := (hmem _).mp hin
      exact .inr ⟨boundary_of_mem_ends hends, hthere⟩

theorem madeExactly_nothing (os : FactoryOs ω) (real : CStr → φ) (path : CStr)
    (base length : Nat) (w : ω) : MadeExactly os real path base length w ⟨-1, none, w, []⟩ where
  changes := changes_of_see rfl
  directories h := absurd h (show ¬ (-1 : Int) = 0 by decide)
  made h := absurd h (show ¬ (-1 : Int) = 0 by decide)
  existing h := absurd h (show ¬ (-1 : Int) = 0 by decide)
  run _ := List.nil_prefix
  blocked _ _ := rfl

theorem madeExactly_walk (hos : Laws os real) (junk : Buffer UInt8)
    (hbase : path.bytes[base - 1]? = some slash) (hlen : baseEnd base ≤ length)
    (hlen' : length ≤ path.bytes.length)
    (hdir : os.stat w (startOf path (baseEnd base)) = some .directory) :
    MadeExactly os real path base length w
      ((⟨junk, baseEnd base, true, baseEnd base, w, []⟩ : Advance ω).finish path
        ((maker os path).advance w (ends path.bytes length (baseEnd base)))) := by
  have hexact := Maker.advance_spec (s := w) (lawful_maker hos path)
    (pairwise_ends path hlen' (baseEnd base))
  have hfiles : ∀ i ∈ ends path.bytes length (baseEnd base), NamesFile (startOf path i) := by
    intro i hi
    obtain ⟨hlt, hle, hend⟩ := mem_ends.mp hi
    exact namesFile_startOf (by omega) (by omega) hend
  have hchanges := changes_advance (w := w) hos hfiles
  have hkept : ∀ i, os.stat w (startOf path i) ≠ none →
      os.stat ((maker os path).advance w (ends path.bytes length (baseEnd base))).state
        (startOf path i) = os.stat w (startOf path i) := fun i hi =>
    Maker.advance_kept (lawful_maker hos path) hi
  generalize (maker os path).advance w (ends path.bytes length (baseEnd base)) = o
    at hexact hchanges hkept ⊢
  have hok (h : (if o.ok then (0 : Int) else -1) = 0) : o.ok = true := by
    by_contra hnot
    rw [if_neg hnot] at h
    exact absurd h (by decide)
  have hmissing : missing os path base length w =
      ((ends path.bytes length (baseEnd base)).filter fun i =>
        ((maker os path).look w i).isNone).map (startOf path) := by
    rw [missing, ends_baseEnd hbase]
    rfl
  constructor
  · exact hchanges
  · intro h i hi
    by_cases hlt : baseEnd base < i
    · exact hexact.good (hok h) i (mem_ends_of_boundary hi hlt)
    · have hthere := boundary_of_base hos hi (Nat.not_lt.mp hlt) hlen hlen' hdir
      exact (hkept i (by rw [hthere]; exact Option.some_ne_none _)).trans hthere
  · intro h
    rw [hmissing, ← hexact.all (hok h)]
    rfl
  · intro h
    refine ⟨_, rfl, ?_⟩
    rw [hexact.passed (hok h)]
    exact longest_passed hbase hlen hdir
  · intro h
    rw [hmissing]
    exact hexact.made.map (startOf path)
  · rintro h ⟨i, kind, hi, hkind, hbad⟩
    have hnone : o.made = [] := by
      by_cases hlt : baseEnd base < i
      · exact hexact.blocked ⟨i, mem_ends_of_boundary hi hlt, kind, hkind, hbad⟩
      · have hthere := boundary_of_base hos hi (Nat.not_lt.mp hlt) hlen hlen' hdir
        exact absurd (Option.some.inj (hkind.symm.trans hthere)) hbad
    rw [Advance.finish, hnone]
    rfl

/-! ## Tidy disks -/

section

variable {env : CStr → Option CStr} {d : TidyDisk} {p q : CStr}

theorem exists_joinPath (h : OnWay p q) : ∃ p' x, q = joinPath p' x ∧ names p' = names p := by
  rcases h with ⟨hroot, hfirst⟩ | ⟨-, rest, hrest⟩
  · obtain ⟨rest, hq⟩ := List.head?_eq_some_iff.mp hfirst
    have hnul : (0 : UInt8) ∉ rest := fun h =>
      q.nulFree (by rw [hq]; exact List.mem_cons_of_mem _ h)
    refine ⟨⟨[], List.not_mem_nil⟩, ⟨rest, hnul⟩, CStr.ext ?_, ?_⟩
    · rw [hq]
      rfl
    · rw [names, names, hroot]
      rfl
  · have hnul : (0 : UInt8) ∉ rest := fun h =>
      q.nulFree (by rw [← hrest]; exact List.mem_append_right _ h)
    exact ⟨p, ⟨rest, hnul⟩, CStr.ext hrest.symm, rfl⟩

theorem mkdir_cases (d : TidyDisk) (p : CStr) : (tidyOs env).mkdir d p = (false, d) ∨
    ∃ ns, d.1.find p = some ns ∧ d.1.holds ns = false ∧ ((tidyOs env).mkdir d p).1 = true ∧
      ((tidyOs env).mkdir d p).2.1.dirs = ns :: d.1.dirs := by
  have hfailed : d.1.mkdir p = (false, d.1) → (tidyOs env).mkdir d p = (false, d) := fun hmade =>
    Prod.ext (congrArg (·.1) hmade) (Subtype.ext (congrArg (·.2) hmade))
  cases hfind : d.1.find p with
  | none => exact .inl (hfailed (Disk.mkdir_lost hfind))
  | some ns =>
    have hmkdir := Disk.mkdir_found hfind
    by_cases hfree : (d.1.admits ns && !d.1.holds ns) = true
    · rw [if_pos hfree] at hmkdir
      have hnone := (Bool.and_eq_true_iff.mp hfree).2
      refine .inr ⟨ns, rfl, by simpa using hnone, congrArg Prod.fst hmkdir, ?_⟩
      exact congrArg (fun made => made.2.dirs) hmkdir
    · rw [if_neg hfree] at hmkdir
      exact .inl (hfailed hmkdir)

theorem directory_of_find (hlast : NamesFile q) (h : OnWay p q) {ns : Names}
    (hfind : d.1.find q = some ns) : (tidyOs env).stat d p = some .directory := by
  obtain ⟨p', x, rfl, hnames⟩ := exists_joinPath h
  have hsame : d.1.find p = d.1.find p' := congrArg (d.1.walk []) hnames.symm
  rw [find_joinPath] at hfind
  obtain ⟨place, hplace, hwalk⟩ := Option.bind_eq_some_iff.mp hfind
  obtain ⟨hne, hslash⟩ := (@namesFile_of_append p'.bytes _ _ rfl).mp hlast
  exact stat_eq_directory.mpr
    ⟨place, hsame.trans hplace, dirs_of_walk (names_ne_nil hslash hne) hwalk⟩

theorem stat_kept {d' : TidyDisk} (hchanges : Changes (tidyOs env).toFileOs leadsTo ∅ {p} d d')
    (hgrows : Disk.Grows d.1 d'.1) (hthere : (tidyOs env).stat d q ≠ none) :
    (tidyOs env).stat d' q = (tidyOs env).stat d q := by
  by_cases hfile : NamesFile q
  · exact congrArg Seen.kind
      (hchanges.kept hfile (fun p hp => absurd hp (Set.notMem_empty p)) hthere)
  · obtain ⟨ns, hreach, -⟩ := stat_ne_none.mp hthere
    obtain ⟨hfind, hdir⟩ := reach_eq_some.mp hreach
    have hdir := hdir.resolve_left hfile
    rw [stat_eq_directory.mpr ⟨ns, hfind, hdir⟩, stat_eq_directory.mpr
      ⟨ns, Disk.walk_mono hgrows.dirs hfind, hgrows.dirs ns hdir⟩]

theorem laws_tidyOs (env : CStr → Option CStr) : Laws (tidyOs env) leadsTo where
  closed {w p q} h hthere := by
    obtain ⟨p', x, rfl, hnames⟩ := exists_joinPath h
    obtain ⟨ns, hfind, hdir⟩ := find_of_stat hthere
    have hsame : w.1.find p = w.1.find p' := congrArg (w.1.walk []) hnames.symm
    exact stat_eq_directory.mpr ⟨ns, hsame.trans hfind, hdir⟩
  made {w p} h := by
    rcases mkdir_cases w p with hfailed | ⟨ns, hfind, hnone, -, hdirs⟩
    · rw [hfailed] at h
      cases h
    · refine ⟨?_, stat_eq_directory.mpr ⟨ns, ?_, by rw [hdirs]; exact List.mem_cons_self⟩⟩
      · by_contra hthere
        obtain ⟨ns', hreach, hholds⟩ := stat_ne_none.mp hthere
        rw [(reach_eq_some.mp hreach).1] at hfind
        cases hfind
        rw [hnone] at hholds
        cases hholds
      · exact Disk.walk_mono (Disk.grows_mkdir w.1 p).dirs hfind
  kept {w p q} hthere := stat_kept (changes_mkdir w p) (Disk.grows_mkdir w.1 p) hthere
  changes _ _ := changes_mkdir _ _
  parents {w p q} h hlast honWay := by
    rcases mkdir_cases w q with hfailed | ⟨ns, hfind, -⟩
    · rw [hfailed] at h
      cases h
    · exact directory_of_find hlast honWay hfind
  failed {w p} h := by
    rcases mkdir_cases w p with hfailed | ⟨-, -, -, hmade, -⟩
    · rw [hfailed]
    · rw [hmade] at h
      cases h

end

/-! ## The call -/

/-- **A chain of directories is made exactly**: for every path, every length within it and every
base that ends at a slash. Bytes of the path behind both are not needed. -/
theorem makeDirectories_exact (os : FactoryOs ω) (real : CStr → φ) (hos : Laws os real)
    (junk : Buffer UInt8) (path : CStr) (base length : Nat) (w : ω) (hpos : 0 < base)
    (hbase : path.bytes[base - 1]? = some slash) (hlen : length ≤ path.bytes.length) :
    (∃ d, makeDirectories os junk path.bytes base length w = some d ∧
      MadeExactly os real path base length w d) ∧
    makeDirectories os junk (path.bytes.take (max base length)) base length w ≠ none := by
  constructor
  · rw [makeDirectories_walk os junk w hpos hbase hlen]
    refine ⟨_, rfl, ?_⟩
    by_cases hargs : length = 0 ∨ length < base - 1
    · rw [if_pos hargs]
      exact madeExactly_nothing os real path base length w
    · rw [if_neg hargs]
      by_cases hdir : os.stat w (startOf path (baseEnd base)) = some .directory
      · rw [if_neg (not_not_intro hdir)]
        exact madeExactly_walk hos junk hbase (by rw [baseEnd]; omega) hlen hdir
      · rw [if_pos hdir]
        exact madeExactly_nothing os real path base length w
  · have hbelow : base - 1 < path.bytes.length := (List.getElem?_eq_some_iff.mp hbase).1
    have hbase' : (startOf path (max base length)).bytes[base - 1]? = some slash :=
      (List.getElem?_take_of_lt (by omega)).trans hbase
    have hlen' : length ≤ (startOf path (max base length)).bytes.length := by
      show length ≤ (path.bytes.take (max base length)).length
      rw [List.length_take]
      omega
    have hwalk := makeDirectories_walk os junk w hpos hbase' hlen'
    intro hnone
    cases hwalk.symm.trans hnone

/-- The directory of the node `s/n` below `/r`. -/
theorem makeDirectories_node :
    (∃ d, makeDirectories (tidyOs noVariables) (fun _ => 0) (CStr.lit "/r/s/n").bytes 3 6
        templatesOnly = some d ∧
      MadeExactly (tidyOs noVariables) leadsTo (.lit "/r/s/n") 3 6 templatesOnly d) ∧
    makeDirectories (tidyOs noVariables) (fun _ => 0) ((CStr.lit "/r/s/n").bytes.take (max 3 6)) 3 6
      templatesOnly ≠ none :=
  makeDirectories_exact (tidyOs noVariables) leadsTo (laws_tidyOs noVariables) (fun _ => 0)
    (.lit "/r/s/n") 3 6 templatesOnly (by decide) (by decide) (by decide)

/-! ## The factory -/

theorem advance_slashes (os : FactoryOs ω) {l : List UInt8} (h : ∀ c ∈ l, c = slash)
    (tmp rest : List UInt8) (chk : Bool) :
    advanceDirectories os tmp (l ++ rest) false chk =
      advanceDirectories os (tmp ++ l) rest false chk := by
  induction l generalizing tmp with
  | nil => rw [List.nil_append, List.append_nil]
  | cons c l ih =>
    obtain rfl : c = slash := h c List.mem_cons_self
    rw [List.cons_append, advanceDirectories, if_neg (by simp), List.append_cons tmp slash l]
    exact ih (fun d hd => h d (List.mem_cons_of_mem _ hd)) (tmp ++ [slash])

theorem advance_name (os : FactoryOs ω) {l rest : List UInt8} (h : ∀ c ∈ l, c ≠ slash)
    (hrest : ∀ c ∈ rest.head?, c = slash) (tmp : List UInt8) {named : Bool} (chk : Bool)
    (hname : named = true ∨ l ≠ []) : advanceDirectories os tmp (l ++ rest) named chk =
      makeDirectory os (tmp ++ l) chk >>= fun made =>
        made.elim (pure false) fun chk => advanceDirectories os (tmp ++ l) rest false chk := by
  induction l generalizing tmp named with
  | nil =>
    obtain rfl := hname.resolve_right (not_not_intro rfl)
    rw [List.nil_append, List.append_nil]
    cases rest with
    | nil =>
      refine bind_congr fun made => ?_
      cases made with
      | none => rfl
      | some chk => rfl
    | cons c rest =>
      obtain rfl : c = slash := hrest c rfl
      rw [advanceDirectories, if_pos ⟨rfl, rfl⟩]
      refine bind_congr fun made => ?_
      cases made with
      | none => rfl
      | some chk => exact (advance_slashes os (l := [slash]) (by simp) tmp rest chk).symm
  | cons c l ih =>
    have hc : c ≠ slash := h c List.mem_cons_self
    have hnamed : decide (c ≠ slash) = true := decide_eq_true hc
    rw [List.cons_append, advanceDirectories, if_neg (fun hslash => hc hslash.1),
      List.append_cons tmp c l, hnamed]
    exact ih (fun d hd => h d (List.mem_cons_of_mem _ hd)) (tmp ++ [c]) (.inl rfl)

section

variable {dir : CStr} {m : Machine ω}

theorem makeDirectory_there (h : os.stat m.os dir = some .directory) :
    makeDirectory os dir.bytes true m = .ok (some true) m := by
  rw [makeDirectory, Layered.Action.get_bind, CStr.ofBytes_bytes, h]
  rfl

theorem makeDirectory_other {kind : FileKind} (h : os.stat m.os dir = some kind)
    (hkind : kind ≠ .directory) : makeDirectory os dir.bytes true m = .ok none m := by
  rw [makeDirectory, Layered.Action.get_bind, CStr.ofBytes_bytes, h]
  cases kind with
  | directory => exact absurd rfl hkind
  | regular => rfl
  | other => rfl

theorem makeDirectory_make {chk : Bool} (h : chk = false ∨ os.stat m.os dir = none) :
    makeDirectory os dir.bytes chk m = .ok (if (os.mkdir m.os dir).1 then some false else none)
      { m with os := (os.mkdir m.os dir).2 } := by
  rw [makeDirectory, Layered.Action.get_bind, CStr.ofBytes_bytes]
  rcases h with rfl | h
  · rfl
  · rw [h]
    cases chk with
    | false => rfl
    | true => rfl

end

theorem mem_between {path : List UInt8} {i j : Nat} {c : UInt8} (h : c ∈ (path.take j).drop i) :
    ∃ n, i ≤ n ∧ n < j ∧ path[n]? = some c := by
  obtain ⟨n, hn⟩ := List.mem_iff_getElem?.mp h
  rw [List.getElem?_drop, List.getElem?_take] at hn
  split at hn
  · exact ⟨i + n, Nat.le_add_right i n, by assumption, hn⟩
  · cases hn

theorem take_append_between (path : List UInt8) {i j : Nat} (h : i ≤ j) :
    path.take i ++ (path.take j).drop i = path.take j := by
  have hsplit := List.take_append_drop i (path.take j)
  rwa [List.take_take, Nat.min_eq_left h] at hsplit

theorem between_append {path : List UInt8} {i j k : Nat} (h : i ≤ j) (h' : j ≤ k)
    (hlen : j ≤ path.length) :
    (path.take j).drop i ++ (path.take k).drop j = (path.take k).drop i := by
  conv_rhs => rw [← take_append_between path h']
  exact (List.drop_append_of_le_length (by rw [List.length_take]; omega)).symm

/-- The factory goes on to the directory whose name comes next. -/
theorem advanceDirectories_name {start stop : Nat} (chk : Bool)
    (h : NextName path.bytes length idx start stop) (hlen : length ≤ path.bytes.length) :
    advanceDirectories os (path.bytes.take idx) ((path.bytes.take length).drop idx) false chk =
      makeDirectory os (startOf path stop).bytes chk >>= fun made =>
        made.elim (pure false) fun chk => advanceDirectories os (path.bytes.take stop)
          ((path.bytes.take length).drop stop) false chk := by
  obtain ⟨hstart, hname, hstop, hslashes, hbytes, hnext⟩ := h
  have hslash : ∀ c ∈ (path.bytes.take start).drop idx, c = slash := by
    intro c hc
    obtain ⟨n, hlo, hhi, hget⟩ := mem_between hc
    exact Option.some.inj (hget.symm.trans (hslashes n hlo hhi))
  have hother : ∀ c ∈ (path.bytes.take stop).drop start, c ≠ slash := by
    intro c hc
    obtain ⟨n, hlo, hhi, hget⟩ := mem_between hc
    obtain ⟨d, hd, hne⟩ := hbytes n hlo hhi
    rwa [Option.some.inj (hget.symm.trans hd)]
  have hrest : ∀ c ∈ ((path.bytes.take length).drop stop).head?, c = slash := by
    intro c hc
    rw [List.head?_drop] at hc
    obtain ⟨hlt, hget⟩ : stop < length ∧ path.bytes[stop]? = some c := by
      rw [List.getElem?_take] at hc
      split at hc
      · exact ⟨by assumption, hc⟩
      · cases hc
    exact Option.some.inj (hget.symm.trans (hnext hlt))
  have hne : (path.bytes.take stop).drop start ≠ [] := fun hnil => by
    have hzero := congrArg List.length hnil
    rw [List.length_drop, List.length_take, List.length_nil] at hzero
    omega
  rw [← between_append hstart (by omega : start ≤ length) (by omega), advance_slashes os hslash,
    take_append_between _ hstart, ← between_append (Nat.le_of_lt hname) hstop (by omega),
    advance_name os hother hrest _ chk (.inr hne), take_append_between _ (Nat.le_of_lt hname)]
  rfl

theorem advanceDirectories_end (chk : Bool) (h : Slashes path.bytes idx length) :
    advanceDirectories os (path.bytes.take idx) ((path.bytes.take length).drop idx) false chk =
      pure true := by
  have hslash : ∀ c ∈ (path.bytes.take length).drop idx, c = slash := by
    intro c hc
    obtain ⟨n, hlo, hhi, hget⟩ := mem_between hc
    exact Option.some.inj (hget.symm.trans (h n hlo hhi))
  have hall := advance_slashes os hslash (path.bytes.take idx) [] chk
  rw [List.append_nil] at hall
  rw [hall]
  rfl

theorem name_cases (os : FactoryOs ω) (w : ω) (hlen : length ≤ path.bytes.length)
    (hidx : idx ≤ length) : Slashes path.bytes idx length ∨
      ∃ start stop, NextName path.bytes length idx start stop := by
  have hcopied : Copied path.bytes (fun i => path.bytes.getD i 0) idx := fun i hi => by
    show path.bytes[i]? = some (path.bytes.getD i 0)
    rw [List.getD_eq_getElem?_getD, List.getElem?_eq_getElem (by omega)]
    rfl
  rcases @turn_cases length ω os ⟨_, idx, true, 0, w, []⟩ path hlen hidx hcopied with
    ⟨hslashes, -⟩ | ⟨start, stop, -, hname, -⟩
  · exact .inl hslashes
  · exact .inr ⟨start, stop, hname⟩

theorem advanceDirectories_make {m : Machine ω} {n : Nat} (hn : length - idx ≤ n)
    (hlen : length ≤ path.bytes.length) (hidx : idx ≤ length) :
    advanceDirectories os (path.bytes.take idx) ((path.bytes.take length).drop idx) false false m =
      .ok ((maker os path).makeAll m.os (ends path.bytes length idx)).ok
        { m with os := ((maker os path).makeAll m.os (ends path.bytes length idx)).state } := by
  induction n generalizing idx m with
  | zero =>
    obtain rfl : idx = length := by omega
    have hslashes : Slashes path.bytes idx idx := fun i hi hi' => by omega
    rw [advanceDirectories_end false hslashes, ends_of_slashes hslashes]
    rfl
  | succ n ih =>
    rcases name_cases os m.os hlen hidx with hslashes | ⟨start, stop, hname⟩
    · rw [advanceDirectories_end false hslashes, ends_of_slashes hslashes]
      rfl
    · have hlt : idx < stop := Nat.lt_of_le_of_lt hname.from_le hname.lt
      rw [advanceDirectories_name false hname hlen,
        Layered.Action.bind_of_ok (makeDirectory_make (.inl rfl)), hname.ends_eq, Maker.makeAll]
      by_cases hmade : (os.mkdir m.os (startOf path stop)).1 = true
      · rw [if_pos hmade, if_pos (show ((maker os path).make m.os stop).1 = true from hmade)]
        exact ih (by omega) hname.le
      · rw [if_neg hmade, if_neg (show ¬ ((maker os path).make m.os stop).1 = true from hmade)]
        rfl

/-- **The factory** goes along the same directories. -/
theorem advanceDirectories_eq {m : Machine ω} {n : Nat} (hn : length - idx ≤ n)
    (hlen : length ≤ path.bytes.length) (hidx : idx ≤ length) :
    advanceDirectories os (path.bytes.take idx) ((path.bytes.take length).drop idx) false true m =
      .ok ((maker os path).advance m.os (ends path.bytes length idx)).ok
        { m with os := ((maker os path).advance m.os (ends path.bytes length idx)).state } := by
  induction n generalizing idx with
  | zero =>
    obtain rfl : idx = length := by omega
    have hslashes : Slashes path.bytes idx idx := fun i hi hi' => by omega
    rw [advanceDirectories_end true hslashes, ends_of_slashes hslashes]
    rfl
  | succ n ih =>
    rcases name_cases os m.os hlen hidx with hslashes | ⟨start, stop, hname⟩
    · rw [advanceDirectories_end true hslashes, ends_of_slashes hslashes]
      rfl
    · have hlt : idx < stop := Nat.lt_of_le_of_lt hname.from_le hname.lt
      have hlook : (maker os path).look m.os stop = os.stat m.os (startOf path stop) := rfl
      have hgood : (maker os path).good = .directory := rfl
      rw [advanceDirectories_name true hname hlen, hname.ends_eq, Maker.advance, hlook, hgood]
      cases hstat : os.stat m.os (startOf path stop) with
      | none =>
        rw [Layered.Action.bind_of_ok (makeDirectory_make (.inr hstat)), Maker.makeAll]
        by_cases hmade : (os.mkdir m.os (startOf path stop)).1 = true
        · rw [if_pos hmade, if_pos (show ((maker os path).make m.os stop).1 = true from hmade)]
          exact advanceDirectories_make (by omega : length - stop ≤ n) hlen hname.le
        · rw [if_neg hmade, if_neg (show ¬ ((maker os path).make m.os stop).1 = true from hmade)]
          rfl
      | some kind =>
        dsimp only
        by_cases hkind : kind = .directory
        · subst hkind
          rw [Layered.Action.bind_of_ok (makeDirectory_there hstat), if_pos rfl]
          exact ih (by omega) hname.le
        · rw [Layered.Action.bind_of_ok (makeDirectory_other hstat hkind), if_neg hkind]
          rfl

theorem directoriesBase_eq {buf : Buffer UInt8} (hpos : 0 < base)
    (hbase : path.bytes[base - 1]? = some slash)
    (hbuf : Copied path.bytes buf (max base length)) : directoriesBase buf base length =
      if length = 0 ∨ length < base - 1 then none else some (baseEnd base) := by
  have hslash : buf (base - 1) = slash :=
    Option.some.inj ((hbuf (base - 1) (by omega)).symm.trans hbase)
  have hcond : base > 0 ∧ buf (base - 1) = slash := ⟨hpos, hslash⟩
  rw [directoriesBase, if_pos hcond]
  by_cases hargs : length = 0 ∨ length < base - 1
  · rw [if_pos hargs, if_pos (by tauto)]
  · rw [if_neg hargs, if_neg (by tauto), baseEnd]
    by_cases hroot : base - 1 = 0
    · rw [hroot] at hslash
      rw [hroot, if_neg (not_not_intro rfl), if_pos hslash]
      rfl
    · rw [if_pos hroot]
      exact congrArg some (by omega)

/-- **What the factory sees** of the call, when its buffer holds the path. -/
theorem makeDirectories_eq (os : FactoryOs ω) (junk : Buffer UInt8) {buf : Buffer UInt8}
    {m : Machine ω} (hpos : 0 < base) (hbase : path.bytes[base - 1]? = some slash)
    (hlen : length ≤ path.bytes.length) (hbuf : Copied path.bytes buf (max base length)) :
    ∃ d, makeDirectories os junk path.bytes base length m.os = some d ∧
      Factory.makeDirectories os buf base length m =
        .ok (decide (d.rc = 0)) { m with os := d.os } := by
  refine ⟨_, makeDirectories_walk os junk m.os hpos hbase hlen, ?_⟩
  rw [Factory.makeDirectories, directoriesBase_eq hpos hbase hbuf]
  by_cases hargs : length = 0 ∨ length < base - 1
  · rw [if_pos hargs, if_pos hargs]
    rfl
  · have hle : baseEnd base ≤ length := by rw [baseEnd]; omega
    have hfront : slice buf 0 (baseEnd base) = path.bytes.take (baseEnd base) :=
      Copied.slice fun i hi => hbuf i (by omega)
    have hwhole : slice buf 0 length = path.bytes.take length :=
      Copied.slice fun i hi => hbuf i (by omega)
    have hrest : slice buf (baseEnd base) length =
        (path.bytes.take length).drop (baseEnd base) := by
      have happend := Layered.Buffer.slice_append (b := buf) (Nat.zero_le (baseEnd base)) hle
      rw [hfront, hwhole, ← take_append_between path.bytes hle] at happend
      exact List.append_cancel_left happend
    have hdir : CStr.ofBytes (path.bytes.take (baseEnd base)) = startOf path (baseEnd base) :=
      CStr.ofBytes_bytes (startOf path (baseEnd base))
    rw [if_neg hargs, if_neg hargs]
    dsimp only
    rw [Layered.Action.get_bind, hfront, hrest, hdir]
    by_cases hthere : os.stat m.os (startOf path (baseEnd base)) = some .directory
    · rw [if_neg (not_not_intro hthere), if_neg (not_not_intro hthere),
        advanceDirectories_eq (Nat.le_refl _) hlen hle]
      cases hok : ((maker os path).advance m.os (ends path.bytes length (baseEnd base))).ok with
      | true => simp [Advance.finish, hok]
      | false => simp [Advance.finish, hok]
    · rw [if_pos hthere, if_pos hthere]
      rfl

end Arrays
end Factory
end RedPak
