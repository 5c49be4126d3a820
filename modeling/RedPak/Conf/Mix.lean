import RedPak.Conf.CString
import RedPak.Conf.Schema

/-!
# Conf.Mix

The merge of named definitions along the parents of a node (`redconf-mix.c`). `mergeConfVar`,
`mergeConfCapa` and `mergeConfExp` are one loop over different definitions: `Mix` collects what
differs, `mergeConf` is the loop.

The loop carries the node it has reached, the config it reads there (admin or normal), the index
in that config and the depth. Its links lie in stack frames of the C recursion; here they are a
list, whose elements change in place.
-/

namespace RedPak
namespace Conf

/-! ## Logging -/

inductive RedLogLevel where
  | error
  | warning
deriving DecidableEq

structure LogEntry where
  level : RedLogLevel
  format : String
  args : List CStr
deriving DecidableEq

/-- What a merge ends with: a status, the closure of the callback and the log, or the undefined
behaviour of comparing a NULL string. -/
inductive Outcome (σ : Type*) where
  | ret (rc : Int) (closure : σ) (log : List LogEntry)
  | fault

def Outcome.result {σ : Type*} : Outcome σ → Option (Int × σ)
  | .ret rc closure _ => some (rc, closure)
  | .fault => none

/-! ## Links -/

/-- `mix_var_link_s`, `mix_capa_link_s`, `mix_exp_link_s`: `held` is what only one of them has. -/
structure MixLink (τ : Type) where
  held : τ
  node : Family
  depth : Nat
  admin : Bool

/-- What differs between the merges of definitions `δ` into links that hold `τ`. -/
structure Mix (δ τ : Type) where
  what : String
  defs : RedConfig → List δ
  /-- is a definition of a parent taken into account? -/
  inherited : δ → Bool
  /-- the name of a definition, and the one that a link is found by -/
  name : Family → δ → Option CStr
  linkName : τ → Option CStr
  /-- what a new link holds, and what it holds after an overwrite -/
  record : δ → Option CStr → τ
  replace : τ → δ → τ
  /-- do two definitions of one config differ? -/
  differs : τ → δ → Bool
  /-- is a definition of a parent forbidden to be overwritten by what the link holds? -/
  forbids : τ → δ → Bool
  warn : δ → Option CStr
  shown : δ → CStr
  shownTwice : τ → δ → CStr

inductive Search (τ : Type) where
  | absent
  | found (before : List (MixLink τ)) (link : MixLink τ) (after : List (MixLink τ))
  | fault

def Search.skip {τ : Type} (l : MixLink τ) : Search τ → Search τ
  | .found before link after => .found (l :: before) link after
  | r => r

def Family.conf (f : Family) (admin : Bool) : Option RedConfig :=
  if admin then f.node.confadmin else f.node.config

def adminMark (admin : Bool) : CStr := if admin then CStr.lit " (admin)" else CStr.lit ""

namespace Mix

variable {δ τ : Type} (m : Mix δ τ)

/-- `while (link != NULL && strcasecmp(link->name, name) != 0) link = link->next;` -/
def search (name : Option CStr) : List (MixLink τ) → Search τ
  | [] => .absent
  | l :: ls =>
    match m.linkName l.held, name with
    | some a, some b =>
      if strcasecmp a b = 0 then .found [] l ls else (search name ls).skip l
    | _, _ => .fault

/-- The back-merge of a definition into the link of its name: the link, unless the merge is
refused, and the log. -/
def backMerge (link : MixLink τ) (node : Family) (admin : Bool) (depth : Nat) (d : δ) :
    Option (MixLink τ) × List LogEntry :=
  if link.depth = depth then
    if link.admin = admin then
      let twice : LogEntry := ⟨.warning, m.what ++ " %s is defined twice in %s%s",
        [m.shownTwice link.held d, node.node.redpath, adminMark admin]⟩
      if m.differs link.held d then
        (none, [twice, ⟨.error, m.what ++ " %s is defined twice and differently in %s%s",
          [m.shownTwice link.held d, node.node.redpath, adminMark admin]⟩])
      else (some link, [twice])
    else (some link, [])
  else if admin then
    if link.admin then
      if m.forbids link.held d then
        (none, [⟨.error, m.what ++ " %s of %s (admin) badly redefined in %s (admin)",
          [m.shown d, node.node.redpath, link.node.node.redpath]⟩])
      else
        (some link, (m.warn d).toList.map fun w =>
          ⟨.warning, m.what ++ " %s of %s (admin) redefined in %s (admin): %s",
            [m.shown d, node.node.redpath, link.node.node.redpath, w]⟩)
    else (some ⟨m.replace link.held d, node, depth, admin⟩, [])
  else if link.admin then (some link, [])
  else if m.forbids link.held d then
    (none, [⟨.error, m.what ++ " %s of %s badly redefined in %s",
      [m.shown d, node.node.redpath, link.node.node.redpath]⟩])
  else
    (some link, (m.warn d).toList.map fun w =>
      ⟨.warning, m.what ++ " %s of %s redefined in %s: %s",
        [m.shown d, node.node.redpath, link.node.node.redpath, w]⟩)

end Mix

/-! ## The loop -/

/-- `mix_var_root_t`, `mix_capa_root_t`, `mix_exp_root_t`, less the callback. -/
structure MixRoot (τ : Type) (σ : Type*) where
  count : Nat
  head : List (MixLink τ)
  closure : σ
  log : List LogEntry

/-- The end of a merge: hands the links, which are counted, to the callback. -/
abbrev MixEnd (τ : Type) (σ : Type*) := Nat → List (MixLink τ) → σ → Int × σ

def MixRoot.send {τ : Type} {σ : Type*} (finish : MixEnd τ σ) (merger : MixRoot τ σ) : Outcome σ :=
  let (rc, closure) := finish merger.count merger.head merger.closure
  .ret rc closure merger.log

namespace Mix

variable {δ τ : Type} (m : Mix δ τ) {σ : Type*} (finish : MixEnd τ σ)

def defsOf (f : Family) (admin : Bool) : List δ := ((f.conf admin).map m.defs).getD []

def mixStep (merger : MixRoot τ σ) (node : Family) (admin : Bool) (depth : Nat) (d : δ) :
    Outcome σ ⊕ MixRoot τ σ :=
  let name := m.name node d
  match m.search name merger.head with
  | .absent =>
    .inr { merger with
      head := ⟨m.record d name, node, depth, admin⟩ :: merger.head, count := merger.count + 1 }
  | .found before link after =>
    match m.backMerge link node admin depth d with
    | (some link', log) =>
      .inr { merger with head := before ++ link' :: after, log := merger.log ++ log }
    | (none, log) => .inl (.ret (-1) merger.closure (merger.log ++ log))
  | .fault => .inl .fault

/-- The loop of `mergeConfVar`, `mergeConfCapa` and `mergeConfExp`. -/
def mergeConf (merger : MixRoot τ σ) (node : Family) (admin : Bool) (index depth : Nat) :
    Outcome σ :=
  match _h : (m.defsOf node admin)[index]? with
  | some d =>
    if 0 < depth ∧ m.inherited d = false then mergeConf merger node admin (index + 1) depth
    else
      match m.mixStep merger node admin depth d with
      | .inl out => out
      | .inr merger' => mergeConf merger' node admin (index + 1) depth
  | none =>
    if admin then mergeConf merger node false 0 depth
    else
      match hp : node.parent with
      | none => merger.send finish
      | some parent => mergeConf merger parent true 0 (depth + 1)
termination_by (node.parents.length, admin.toNat, (m.defsOf node admin).length - index)
decreasing_by
  · have := (List.getElem?_eq_some_iff.mp _h).1
    exact .right _ (.right _ (by omega))
  · have := (List.getElem?_eq_some_iff.mp _h).1
    exact .right _ (.right _ (by omega))
  · exact .right _ (.left _ _ (by simp_all))
  · exact .left _ _ (Family.parents_lt_of_parent hp)

def mixConf (node : Family) (closure : σ) : Outcome σ :=
  m.mergeConf finish ⟨0, [], closure, []⟩ node true 0 0

end Mix

end Conf
end RedPak
