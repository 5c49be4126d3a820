import RedPak.Factory.Frame

/-!
# Factory.Invariant

The factory over any sequence of calls, whatever their arguments, and the environment and the file
system that each of them meets.

* `call_settles`: what one call keeps.
* `factory_invariant`: the lengths and the bytes of the path after any sequence of calls.
-/

namespace RedPak
namespace Factory

open Conf Node Layered.Action
open Layered (Buffer)
open Layered.Buffer

variable {ω : Type}

/-! ## Calls -/

inductive Call where
  | clear
  | setRootLen (path : List UInt8)
  | setRoot (path : CStr)
  | setNodeLen (path : List UInt8)
  | setNode (path : CStr)
  | createNode (params : Option RednodeFactoryParam) (update : Bool) (mode : RednodeFactoryMode)

def Call.exec (os : FactoryOs ω) : Call → FactoryM ω Int
  | clear => do
    rednodeFactoryClear
    pure rednodeFactoryOk
  | setRootLen path => rednodeFactorySetRootLen path
  | setRoot path => rednodeFactorySetRoot path
  | setNodeLen path => rednodeFactorySetNodeLen path
  | setNode path => rednodeFactorySetNode path
  | createNode params update mode => rednodeFactoryCreateNode os params update mode

/-- The calls that set nothing: failing ones, and the creation of a node. -/
def Call.Idle (status : Int) : Call → Prop
  | clear => False
  | createNode _ _ _ => True
  | _ => status ≠ rednodeFactoryOk

/-! ## Settings -/

/-- What the factory is set to: a root without trailing slashes, and a node below it without slashes
at its ends. -/
structure Setting where
  root : List UInt8
  node : List UInt8

def stripRoot (path : List UInt8) : List UInt8 := path.rdropWhile (· == slash)

def stripNode (path : List UInt8) : List UInt8 := (stripRoot path).dropWhile (· == slash)

/-- The setting after a call with its status. -/
def Setting.next (setting : Option Setting) (status : Int) : Call → Option Setting
  | .clear => none
  | .setRootLen path => if status = rednodeFactoryOk then some ⟨stripRoot path, []⟩ else setting
  | .setRoot path =>
    if status = rednodeFactoryOk then some ⟨stripRoot path.bytes, []⟩ else setting
  | .setNodeLen path =>
    if status = rednodeFactoryOk then setting.map fun s => ⟨s.root, stripNode path⟩ else setting
  | .setNode path =>
    if status = rednodeFactoryOk then setting.map fun s => ⟨s.root, stripNode path.bytes⟩
    else setting
  | .createNode _ _ _ => setting

/-- A part of the path: with a slash behind it, unless it is empty. -/
def slashed (part : List UInt8) : List UInt8 := if part = [] then [] else part ++ [slash]

/-- A factory with a root. -/
structure IsSet (fab : RednodeFactory) (s : Setting) : Prop where
  root_pos : 1 ≤ fab.rootLength
  root_le : fab.rootLength ≤ fab.nodeLength
  node_lt : fab.nodeLength < rednodeFactoryPathLen
  first : fab.path 0 = slash
  rootEnd : fab.path (fab.rootLength - 1) = slash
  nodeEnd : fab.path (fab.nodeLength - 1) = slash
  rootBytes : slice fab.path 0 fab.rootLength = s.root ++ [slash]
  nodeBytes : slice fab.path fab.rootLength fab.nodeLength = slashed s.node

def Holds (fab : RednodeFactory) : Option Setting → Prop
  | none => fab.rootLength = 0 ∧ fab.nodeLength = 0
  | some s => IsSet fab s

/-! ## What one call keeps -/

variable {fab fab' : RednodeFactory} {setting : Option Setting} {os : FactoryOs ω}

theorem IsSet.ready {s : Setting} (h : IsSet fab s) : Ready fab :=
  ⟨h.root_pos, h.root_le, h.node_lt, h.rootEnd⟩

theorem Untouched.slice {i j : Nat} (h : Untouched fab fab') (hj : j ≤ fab.nodeLength) :
    slice fab'.path i j = slice fab.path i j :=
  slice_congr fun _ _ hn => h.apply (Nat.lt_of_lt_of_le hn hj)

theorem Holds.untouched (h : Holds fab setting) (h' : Untouched fab fab') : Holds fab' setting := by
  cases setting with
  | none => exact ⟨h'.rootLength.trans h.1, h'.nodeLength.trans h.2⟩
  | some s =>
    have hready := h.ready.untouched h'
    have hpos := h.root_pos
    have hle := h.root_le
    refine ⟨hready.root_pos, hready.root_le, hready.node_lt, ?_, hready.rootEnd, ?_, ?_, ?_⟩
    · rw [h'.apply (by omega)]
      exact h.first
    · rw [h'.nodeLength, h'.apply (by omega)]
      exact h.nodeEnd
    · rw [h'.rootLength, h'.slice hle]
      exact h.rootBytes
    · rw [h'.rootLength, h'.nodeLength, h'.slice (Nat.le_refl _)]
      exact h.nodeBytes

/-- What a call leaves: the next setting, and nothing else changed by a call that sets nothing. -/
def Settles (call : Call) (setting : Option Setting) (fab : RednodeFactory) (status : Int)
    (m : Machine ω) : Prop :=
  Holds m.fab (Setting.next setting status call) ∧
    (call.Idle status → Untouched fab m.fab)

theorem isSet_root {b : Buffer UInt8} {root : List UInt8}
    (habs : root ≠ [] → root.head? = some slash)
    (hlen : root.length + 1 < rednodeFactoryPathLen) :
    IsSet ⟨root.length + 1, root.length + 1,
      writeAll (writeAll b 0 root) root.length [slash]⟩ ⟨root, []⟩ := by
  have hend : writeAll (writeAll b 0 root) root.length [slash] root.length = slash := by
    simp [writeAll]
  have hbytes : slice (writeAll (writeAll b 0 root) root.length [slash]) 0 (root.length + 1) =
      root ++ [slash] := by
    have happend := @slice_writeAll_append _ (writeAll b 0 root) 0 root.length [slash]
      (Nat.zero_le _)
    have hroot := slice_writeAll b 0 root
    rw [Nat.zero_add] at hroot
    rw [hroot] at happend
    exact happend
  have hfirst : writeAll (writeAll b 0 root) root.length [slash] 0 = slash := by
    have hhead : (root ++ [slash]).head? = some slash := by
      cases root with
      | nil => rfl
      | cons c root => exact habs (List.cons_ne_nil c root)
    rw [← hbytes, head?_slice_eq_some] at hhead
    exact hhead.2
  exact ⟨Nat.succ_pos _, Nat.le_refl _, hlen, hfirst, hend, hend, hbytes, slice_self _ _⟩

/-- A root that is accepted is set, whatever the factory was. -/
theorem setRootLen_isSet (path : List UInt8) (m : Machine ω) :
    wp (rednodeFactorySetRootLen path)
      (fun status m' => if status = rednodeFactoryOk then
        IsSet m'.fab ⟨stripRoot path, []⟩ ∧ m'.stored = m.stored else m' = m) never m := by
  simp only [rednodeFactorySetRootLen, wp_ite, wp_pure]
  split
  · rw [if_neg (by decide)]
    trivial
  · rename_i hlen
    split
    · rw [if_neg (by decide)]
      trivial
    · rename_i habs
      have hlen' : (stripRoot path).length + 1 < rednodeFactoryPathLen := by
        rcases eq_or_ne (stripRoot path) [] with hnil | hne
        · rw [hnil]
          decide
        · exact Nat.not_le.mp fun hge => hlen ⟨hne, hge⟩
      have habs' : stripRoot path ≠ [] → (stripRoot path).head? = some slash := fun hne =>
        not_not.mp fun hhead => habs ⟨hne, hhead⟩
      rw [wp_bind, wp_copyPath (by show 0 + (stripRoot path).length ≤ _; omega), wp_bind,
        wp_copyPath (by show (stripRoot path).length + 1 ≤ _; omega), wp_bind, setLengths,
        wp_modify, wp_pure, if_pos rfl]
      exact ⟨isSet_root habs' hlen', rfl⟩

theorem setRootLen_settles (h : Holds fab setting) (path : List UInt8) (w : ω) :
    wp (rednodeFactorySetRootLen path)
      (Settles (.setRootLen path) setting fab) never ⟨fab, w, []⟩ := by
  refine wp_mono (setRootLen_isSet path ⟨fab, w, []⟩) (fun status m' hm' => ?_) fun _ _ he => he
  by_cases hok : status = rednodeFactoryOk
  · rw [if_pos hok] at hm'
    exact ⟨by rw [Setting.next, if_pos hok]; exact hm'.1, fun hidle => absurd hok hidle⟩
  · rw [if_neg hok] at hm'
    rw [hm']
    exact ⟨by rw [Setting.next, if_neg hok]; exact h, fun _ => Untouched.refl fab⟩

theorem isSet_node {s : Setting} {node : List UInt8} (h : IsSet fab s) (hne : node ≠ [])
    (hlen : node.length + 1 + fab.rootLength < rednodeFactoryPathLen) :
    IsSet ⟨fab.rootLength, fab.rootLength + node.length + 1,
      writeAll (writeAll fab.path fab.rootLength node) (fab.rootLength + node.length) [slash]⟩
      ⟨s.root, node⟩ := by
  have hpos := h.root_pos
  have hbefore : ∀ i, i < fab.rootLength →
      writeAll (writeAll fab.path fab.rootLength node) (fab.rootLength + node.length) [slash] i =
        fab.path i := fun i hi => by
    rw [writeAll, if_neg (by omega), writeAll, if_neg (by omega)]
  have hend : writeAll (writeAll fab.path fab.rootLength node) (fab.rootLength + node.length)
      [slash] (fab.rootLength + node.length) = slash := by
    simp [writeAll]
  have hle : fab.rootLength ≤ fab.rootLength + node.length + 1 := by omega
  have hlt : fab.rootLength + node.length + 1 < rednodeFactoryPathLen := by omega
  refine ⟨hpos, hle, hlt, ?_, ?_, hend, ?_, ?_⟩
  · exact (hbefore 0 hpos).trans h.first
  · exact (hbefore (fab.rootLength - 1) (by omega)).trans h.rootEnd
  · exact (slice_congr fun n _ hn => hbefore n hn).trans h.rootBytes
  · have happend := @slice_writeAll_append _ (writeAll fab.path fab.rootLength node)
      fab.rootLength (fab.rootLength + node.length) [slash] (Nat.le_add_right _ _)
    rw [slice_writeAll] at happend
    rw [slashed, if_neg hne]
    exact happend

theorem setNodeLen_settles (h : Holds fab setting) (path : List UInt8) (w : ω) :
    wp (rednodeFactorySetNodeLen path)
      (Settles (.setNodeLen path) setting fab) never ⟨fab, w, []⟩ := by
  have hfailed : ∀ e, failed e ≠ rednodeFactoryOk →
      Settles (.setNodeLen path) setting fab (failed e) (⟨fab, w, []⟩ : Machine ω) :=
    fun e he => ⟨by rw [Setting.next, if_neg he]; exact h, fun _ => Untouched.refl fab⟩
  unfold rednodeFactorySetNodeLen
  rw [wp_bind, wp_get, wp_ite]
  split
  · exact hfailed _ (by decide)
  · rename_i hroot
    cases setting with
    | none => exact absurd h.1 hroot
    | some s =>
      have hnext : Setting.next (some s) rednodeFactoryOk (.setNodeLen path) =
        some ⟨s.root, stripNode path⟩ := rfl
      simp only [wp_ite]
      split
      · rename_i hnil
        rw [wp_bind, setLengths, wp_modify, wp_pure]
        refine ⟨?_, fun hidle => absurd rfl hidle⟩
        have hnode : slashed (stripNode path) = [] := if_pos hnil
        rw [hnext]
        exact ⟨h.root_pos, Nat.le_refl _, Nat.lt_of_le_of_lt h.root_le h.node_lt, h.first,
          h.rootEnd, h.rootEnd, h.rootBytes, (slice_self _ _).trans hnode.symm⟩
      · rename_i hne
        split
        · exact hfailed _ (by decide)
        · rename_i hlen
          have hlen' : (stripNode path).length + 1 + fab.rootLength < rednodeFactoryPathLen :=
            Nat.not_le.mp hlen
          rw [wp_bind,
            wp_copyPath (by show fab.rootLength + (stripNode path).length ≤ _; omega), wp_bind,
            wp_copyPath (by show fab.rootLength + (stripNode path).length + 1 ≤ _; omega),
            wp_bind, setLengths, wp_modify, wp_pure]
          refine ⟨?_, fun hidle => absurd rfl hidle⟩
          rw [hnext]
          exact isSet_node h hne hlen'

theorem createNode_settles (h : Holds fab setting) (params : Option RednodeFactoryParam)
    (update : Bool) (mode : RednodeFactoryMode) (w : ω) :
    wp (rednodeFactoryCreateNode os params update mode)
      (Settles (.createNode params update mode) setting fab) nullOnly ⟨fab, w, []⟩ := by
  cases setting with
  | none =>
    unfold rednodeFactoryCreateNode
    rw [wp_bind, wp_get, wp_ite, if_pos h.1]
    exact ⟨h, fun _ => Untouched.refl fab⟩
  | some s =>
    refine wp_mono (createNode_untouched storeKeeps_true h.ready trivial params update mode)
      (fun status m hm => ?_) fun _ _ he => he
    exact ⟨@Holds.untouched _ _ (some s) h hm.2, fun _ => hm.2⟩

/-- **One call.** -/
theorem call_settles (call : Call) (h : Holds fab setting) (w : ω) :
    wp (call.exec os) (Settles call setting fab) nullOnly ⟨fab, w, []⟩ := by
  cases call with
  | clear => exact ⟨⟨rfl, rfl⟩, fun hidle => hidle.elim⟩
  | setRootLen path => exact wp_mono (setRootLen_settles h path w) (fun _ _ hs => hs) never_nullOnly
  | setRoot path =>
    exact wp_mono (setRootLen_settles h path.bytes w) (fun _ _ hs => hs) never_nullOnly
  | setNodeLen path => exact wp_mono (setNodeLen_settles h path w) (fun _ _ hs => hs) never_nullOnly
  | setNode path =>
    exact wp_mono (setNodeLen_settles h path.bytes w) (fun _ _ hs => hs) never_nullOnly
  | createNode params update mode => exact createNode_settles h params update mode w

/-! ## Sequences of calls -/

/-- A call with the system that it meets. -/
structure Event (ω : Type) where
  call : Call
  os : FactoryOs ω
  world : ω

/-- The factory and its setting after the calls, or the fault of one of them. -/
def runCalls : List (Event ω) → RednodeFactory → Option Setting →
    Except Fault (RednodeFactory × Option Setting)
  | [], fab, setting => .ok (fab, setting)
  | e :: events, fab, setting =>
    match e.call.exec e.os ⟨fab, e.world, []⟩ with
    | .error fault _ => .error fault
    | .ok status m => runCalls events m.fab (Setting.next setting status e.call)

/-- A factory that is cleared or set, in which a call that sets nothing changes nothing. -/
def Invariant (fab : RednodeFactory) (setting : Option Setting) : Prop :=
  Holds fab setting ∧
    ∀ (ω : Type) (os : FactoryOs ω) (w : ω) (call : Call),
      wp (call.exec os) (fun status m => call.Idle status → Untouched fab m.fab) nullOnly
        ⟨fab, w, []⟩

/-- No run stores outside of the path. -/
def InvariantAfter : Except Fault (RednodeFactory × Option Setting) → Prop
  | .error fault => fault ≠ .outsidePath
  | .ok (fab, setting) => Invariant fab setting

theorem runCalls_invariant (events : List (Event ω)) : ∀ (fab : RednodeFactory)
    (setting : Option Setting), Holds fab setting →
      InvariantAfter (runCalls events fab setting) := by
  induction events with
  | nil =>
    intro fab setting h
    exact ⟨h, fun ω os w call => wp_mono (call_settles call h w) (fun _ _ hs => hs.2)
      fun _ _ he => he⟩
  | cons e events ih =>
    intro fab setting h
    have hcall := @call_settles _ _ _ e.os e.call h e.world
    unfold runCalls
    cases hexec : e.call.exec e.os ⟨fab, e.world, []⟩ with
    | error fault m =>
      have hnull : nullOnly fault m := wp_error hcall hexec
      intro hfault
      rw [hnull] at hfault
      cases hfault
    | ok status m => exact ih _ _ (wp_ok hcall hexec).1

def cleared : RednodeFactory := ⟨0, 0, fun _ => 0⟩

/-- **The state of the factory** after any sequence of calls to a cleared one. -/
theorem factory_invariant (events : List (Event ω)) :
    InvariantAfter (runCalls events cleared none) :=
  runCalls_invariant events cleared none ⟨rfl, rfl⟩

end Factory
end RedPak
