import Mathlib.Data.List.Basic
import Mathlib.Order.WellFounded

/-!
# Layered.Expansion

Texts with references that are replaced by what they stand for: a text that is expanded in its turn,
or the output of a command. What is written has to fit into a room.

* `Expands L c r ts t` — the tokens are replaced by `t`, which fits.
* `eval`               — interpreter with a bound on the nesting, proved equivalent to `Expands`.
* `eval_deep_iff`      — the bound is met exactly by references that are nested as deep.
* `eval_stop_iff`      — what stops the interpreter is a reference that it comes to.
* `Expands.refused`    — what doesn't fit is an error.
-/

namespace Layered
namespace Expansion

inductive Token (α : Type*) where
  | char (c : α)
  | ref (key : List α)
deriving DecidableEq

/-- What a reference stands for. -/
inductive Meaning (α ε : Type*) where
  | nothing
  | text (value : List α)
  | command (group : List α)
  | error
  | stop (e : ε)
deriving DecidableEq

/-- Values are expanded without commands. The text of a command has to be shorter than `size`, and
its output shorter than the room that is left. -/
structure Language (α ε : Type*) where
  tokens : List α → List (Token α)
  meaning : (commands : Bool) → (key : List α) → Meaning α ε
  run : (text : List α) → (room : Nat) → Option (List α)
  size : Nat
  overflow : ε
  run_lt : ∀ {text room out}, run text room = some out → out.length < room

inductive Produced (α ε : Type*) where
  | done (t : List α)
  | error
  | deep
  | stop (e : ε)

variable {α ε : Type*}

namespace Produced

def andThen (o : Produced α ε) (f : List α → Produced α ε) : Produced α ε :=
  match o with
  | done t => f t
  | error => error
  | deep => deep
  | stop e => stop e

/-- `t` stands before what is written. -/
def after (t : List α) (o : Produced α ε) : Produced α ε := o.andThen fun u => done (t ++ u)

@[simp] theorem andThen_done (t : List α) (f : List α → Produced α ε) :
    (done t).andThen f = f t := rfl

@[simp] theorem after_done (t u : List α) : (done u : Produced α ε).after t = done (t ++ u) := rfl

@[simp] theorem after_nil (o : Produced α ε) : o.after [] = o := by
  cases o <;> rfl

theorem andThen_assoc (o : Produced α ε) (f g : List α → Produced α ε) :
    (o.andThen f).andThen g = o.andThen fun t => (f t).andThen g := by
  cases o <;> rfl

theorem after_after (t u : List α) (o : Produced α ε) : (o.after u).after t = o.after (t ++ u) := by
  cases o <;> simp [after, andThen]

theorem andThen_eq_done {o : Produced α ε} {f : List α → Produced α ε} {t : List α} :
    o.andThen f = done t ↔ ∃ u, o = done u ∧ f u = done t := by
  cases o <;> simp [andThen]

theorem after_eq_done {o : Produced α ε} {t u : List α} :
    o.after t = done u ↔ ∃ v, o = done v ∧ u = t ++ v := by
  rw [after, andThen_eq_done]
  simp only [done.injEq, eq_comm]

/-- An outcome that is neither a text nor an error. -/
def Broken (o : Produced α ε) : Prop := o = deep ∨ ∃ e, o = stop e

theorem Broken.not_done {o : Produced α ε} (h : o.Broken) (t : List α) : o ≠ done t := by
  rcases h with rfl | ⟨e, rfl⟩ <;> exact nofun

theorem Broken.not_error {o : Produced α ε} (h : o.Broken) : o ≠ error := by
  rcases h with rfl | ⟨e, rfl⟩ <;> exact nofun

theorem Broken.andThen {o : Produced α ε} (h : o.Broken) (f : List α → Produced α ε) :
    o.andThen f = o := by
  rcases h with rfl | ⟨e, rfl⟩ <;> rfl

theorem Broken.of_andThen {o p : Produced α ε} {f : List α → Produced α ε} (h : p.Broken)
    (ho : o.andThen f = p) : o = p ∨ ∃ t, o = done t ∧ f t = p := by
  cases o with
  | done t => exact .inr ⟨t, rfl, ho⟩
  | error => exact absurd ho.symm h.not_error
  | deep => exact .inl ho
  | stop e => exact .inl ho

theorem Broken.of_after {o p : Produced α ε} {t : List α} (h : p.Broken) (ho : o.after t = p) :
    o = p := by
  rcases h.of_andThen ho with h' | ⟨u, -, hu⟩
  · exact h'
  · exact absurd hu.symm (h.not_done _)

end Produced

open Produced

variable (L : Language α ε)

/-! ## The interpreter -/

section

variable (nested : List α → Nat → Produced α ε) (commands : Bool)

def evalRef (key : List α) (room : Nat) : Produced α ε :=
  match L.meaning commands key with
  | .nothing => .done []
  | .text value => nested value room
  | .command group =>
    (nested group L.size).andThen fun text =>
      if text.length = L.size then .stop L.overflow
      else
        match L.run text room with
        | none => .error
        | some out => .done out
  | .error => .error
  | .stop e => .stop e

def evalTokens : List (Token α) → Nat → Produced α ε
  | [], _ => .done []
  | .char c :: ts, room =>
    if room = 0 then .error else (evalTokens ts (room - 1)).after [c]
  | .ref key :: ts, room =>
    (evalRef L nested commands key room).andThen fun u =>
      (evalTokens ts (room - u.length)).after u

theorem evalTokens_chars (t : List α) (ts : List (Token α)) (room : Nat) :
    evalTokens L nested commands (t.map .char ++ ts) room =
      if t.length ≤ room then (evalTokens L nested commands ts (room - t.length)).after t
      else .error := by
  induction t generalizing room with
  | nil => simp
  | cons c t ih =>
    rw [List.map_cons, List.cons_append, evalTokens, List.length_cons]
    cases room with
    | zero => rfl
    | succ room =>
      rw [if_neg (Nat.succ_ne_zero room), Nat.add_sub_cancel, ih]
      by_cases hfit : t.length ≤ room
      · rw [if_pos hfit, if_pos (Nat.succ_le_succ hfit), after_after, Nat.add_sub_add_right]
        rfl
      · rw [if_neg hfit, if_neg (fun h => hfit (Nat.le_of_succ_le_succ h))]
        rfl

theorem evalRef_length_le (hbound : ∀ {v r t}, nested v r = .done t → t.length ≤ r)
    {key : List α} {room : Nat} {t : List α}
    (h : evalRef L nested commands key room = .done t) : t.length ≤ room := by
  unfold evalRef at h
  split at h
  · cases h
    exact Nat.zero_le _
  · exact hbound h
  · obtain ⟨u, -, hout⟩ := andThen_eq_done.mp h
    split at hout
    · cases hout
    · split at hout
      · cases hout
      · rename_i out hrun
        cases hout
        exact Nat.le_of_lt (L.run_lt hrun)
  · cases h
  · cases h

theorem evalTokens_append (pre post : List (Token α)) (room : Nat) :
    evalTokens L nested commands (pre ++ post) room =
      (evalTokens L nested commands pre room).andThen fun t =>
        (evalTokens L nested commands post (room - t.length)).after t := by
  induction pre generalizing room with
  | nil => simp [evalTokens]
  | cons tok pre ih =>
    cases tok with
    | char c =>
      simp only [List.cons_append, evalTokens]
      by_cases hroom : room = 0
      · rw [if_pos hroom, if_pos hroom]
        rfl
      · rw [if_neg hroom, if_neg hroom, ih, after, after, andThen_assoc, andThen_assoc]
        refine congrArg _ (funext fun t => ?_)
        rw [andThen_done, ← after, after_after, List.length_append, List.length_singleton,
          Nat.sub_sub]
    | ref key =>
      simp only [List.cons_append, evalTokens]
      rw [andThen_assoc]
      refine congrArg _ (funext fun u => ?_)
      rw [ih, after, after, andThen_assoc, andThen_assoc]
      refine congrArg _ (funext fun t => ?_)
      rw [andThen_done, ← after, after_after, List.length_append, Nat.sub_sub]

end

/-- At most `depth` texts are nested in each other. -/
def nestedEval : (depth : Nat) → List α → Nat → Produced α ε
  | 0, _, _ => .deep
  | depth + 1, value, room => evalTokens L (nestedEval depth) false (L.tokens value) room

def eval (depth : Nat) (commands : Bool) (ts : List (Token α)) (room : Nat) : Produced α ε :=
  evalTokens L (nestedEval L depth) commands ts room

/-! ## The meaning of a text -/

/-- The tokens are replaced by the text, which fits into the room. -/
inductive Expands : Bool → Nat → List (Token α) → List α → Prop
  | nil {c : Bool} {r : Nat} : Expands c r [] []
  | char {c : Bool} {r : Nat} {a : α} {ts : List (Token α)} {t : List α} (h : Expands c r ts t) :
      Expands c (r + 1) (.char a :: ts) (a :: t)
  | nothing {c : Bool} {r : Nat} {key : List α} {ts : List (Token α)} {t : List α}
      (hkey : L.meaning c key = .nothing) (h : Expands c r ts t) : Expands c r (.ref key :: ts) t
  | text {c : Bool} {r : Nat} {key value u : List α} {ts : List (Token α)} {t : List α}
      (hkey : L.meaning c key = .text value) (hvalue : Expands false r (L.tokens value) u)
      (h : Expands c (r - u.length) ts t) : Expands c r (.ref key :: ts) (u ++ t)
  | command {c : Bool} {r : Nat} {key group u out : List α} {ts : List (Token α)} {t : List α}
      (hkey : L.meaning c key = .command group)
      (hgroup : Expands false L.size (L.tokens group) u) (hsize : u.length ≠ L.size)
      (hrun : L.run u r = some out) (h : Expands c (r - out.length) ts t) :
      Expands c r (.ref key :: ts) (out ++ t)

variable {L}

theorem Expands.length_le {c : Bool} {r : Nat} {ts : List (Token α)} {t : List α}
    (h : Expands L c r ts t) : t.length ≤ r := by
  induction h with
  | nil => exact Nat.zero_le _
  | char _ ih => simpa using ih
  | nothing _ _ ih => exact ih
  | text _ _ _ ihv ih =>
    rw [List.length_append]
    omega
  | command _ _ _ hrun _ _ ih =>
    have := L.run_lt hrun
    rw [List.length_append]
    omega

theorem evalTokens_sound {nested : List α → Nat → Produced α ε}
    (hnested : ∀ {v r u}, nested v r = .done u → Expands L false r (L.tokens v) u) {c : Bool} :
    ∀ {ts : List (Token α)} {r : Nat} {t : List α},
      evalTokens L nested c ts r = .done t → Expands L c r ts t := by
  intro ts
  induction ts with
  | nil =>
    intro r t h
    cases h
    exact .nil
  | cons tok ts ih =>
    intro r t h
    cases tok with
    | char a =>
      rw [evalTokens] at h
      split at h
      · cases h
      · rename_i hroom
        obtain ⟨u, hu, rfl⟩ := after_eq_done.mp h
        obtain ⟨r, rfl⟩ := Nat.exists_eq_succ_of_ne_zero hroom
        exact .char (ih hu)
    | ref key =>
      rw [evalTokens] at h
      obtain ⟨u, hu, hrest⟩ := andThen_eq_done.mp h
      obtain ⟨w, hw, rfl⟩ := after_eq_done.mp hrest
      rw [evalRef] at hu
      cases hkey : L.meaning c key with
      | nothing =>
        rw [hkey] at hu
        cases hu
        exact .nothing hkey (ih hw)
      | text value =>
        rw [hkey] at hu
        exact .text hkey (hnested hu) (ih hw)
      | command group =>
        rw [hkey] at hu
        obtain ⟨text, htext, hout⟩ := andThen_eq_done.mp hu
        split at hout
        · cases hout
        · rename_i hsize
          cases hrun : L.run text r with
          | none =>
            rw [hrun] at hout
            cases hout
          | some out =>
            rw [hrun] at hout
            cases hout
            exact .command hkey (hnested htext) hsize hrun (ih hw)
      | error =>
        rw [hkey] at hu
        cases hu
      | stop e =>
        rw [hkey] at hu
        cases hu

theorem nestedEval_sound : ∀ {depth : Nat} {v u : List α} {r : Nat},
    nestedEval L depth v r = .done u → Expands L false r (L.tokens v) u := by
  intro depth
  induction depth with
  | zero => intro v u r h; cases h
  | succ depth ih => intro v u r h; exact evalTokens_sound (fun h => ih h) h

theorem eval_sound {depth : Nat} {c : Bool} {ts : List (Token α)} {r : Nat} {t : List α}
    (h : eval L depth c ts r = .done t) : Expands L c r ts t :=
  evalTokens_sound (fun h => nestedEval_sound h) h

/-! ## The bound -/

/-- With a larger bound the outcome stays the same, unless the bound was met. -/
theorem evalRef_mono {N N' : List α → Nat → Produced α ε}
    (h : ∀ v r, N v r ≠ .deep → N' v r = N v r) {c : Bool} {key : List α} {r : Nat}
    (hdeep : evalRef L N c key r ≠ .deep) : evalRef L N' c key r = evalRef L N c key r := by
  unfold evalRef at hdeep ⊢
  cases hkey : L.meaning c key with
  | text value =>
    rw [hkey] at hdeep
    exact h _ _ hdeep
  | command group =>
    rw [hkey] at hdeep
    dsimp only at hdeep ⊢
    have hgroup : N group L.size ≠ .deep := by
      intro hd
      rw [hd] at hdeep
      exact hdeep rfl
    rw [h _ _ hgroup]
  | _ => rfl

theorem evalTokens_mono {N N' : List α → Nat → Produced α ε}
    (h : ∀ v r, N v r ≠ .deep → N' v r = N v r) {c : Bool} {ts : List (Token α)} :
    ∀ {r : Nat}, evalTokens L N c ts r ≠ .deep →
      evalTokens L N' c ts r = evalTokens L N c ts r := by
  induction ts with
  | nil => intro r _; rfl
  | cons tok ts ih =>
    intro r hdeep
    cases tok with
    | char a =>
      rw [evalTokens] at hdeep ⊢
      rw [evalTokens]
      by_cases hroom : r = 0
      · rw [if_pos hroom, if_pos hroom]
      · rw [if_neg hroom] at hdeep ⊢
        rw [if_neg hroom, ih fun hd => hdeep (by rw [hd]; rfl)]
    | ref key =>
      rw [evalTokens] at hdeep ⊢
      rw [evalTokens]
      have hfirst : evalRef L N c key r ≠ .deep := fun hd => hdeep (by rw [hd]; rfl)
      rw [evalRef_mono h hfirst]
      cases href : evalRef L N c key r with
      | done u =>
        rw [href] at hdeep
        rw [andThen_done] at hdeep ⊢
        rw [andThen_done, ih fun hd => hdeep (by rw [hd]; rfl)]
      | _ => rfl

theorem nestedEval_succ : ∀ (depth : Nat) (v : List α) (r : Nat),
    nestedEval L depth v r ≠ .deep → nestedEval L (depth + 1) v r = nestedEval L depth v r := by
  intro depth
  induction depth with
  | zero => intro v r h; exact absurd rfl h
  | succ depth ih => intro v r h; exact evalTokens_mono ih h

theorem nestedEval_mono {depth depth' : Nat} (hle : depth ≤ depth') (v : List α) (r : Nat)
    (h : nestedEval L depth v r ≠ .deep) : nestedEval L depth' v r = nestedEval L depth v r := by
  induction hle with
  | refl => rfl
  | @step n _ ih => rw [nestedEval_succ n v r (by rwa [ih]), ih]

theorem eval_mono {depth depth' : Nat} (hle : depth ≤ depth') {c : Bool} {ts : List (Token α)}
    {r : Nat} (h : eval L depth c ts r ≠ .deep) : eval L depth' c ts r = eval L depth c ts r :=
  evalTokens_mono (nestedEval_mono hle) h

theorem Expands.complete {c : Bool} {r : Nat} {ts : List (Token α)} {t : List α}
    (h : Expands L c r ts t) : ∃ depth, eval L depth c ts r = .done t := by
  induction h with
  | nil => exact ⟨0, rfl⟩
  | char h ih =>
    obtain ⟨d, hd⟩ := ih
    refine ⟨d, ?_⟩
    rw [eval] at hd ⊢
    rw [evalTokens, if_neg (Nat.succ_ne_zero _), Nat.add_sub_cancel, hd]
    rfl
  | nothing hkey h ih =>
    obtain ⟨d, hd⟩ := ih
    refine ⟨d, ?_⟩
    rw [eval] at hd ⊢
    rw [evalTokens, evalRef, hkey, andThen_done, List.length_nil, Nat.sub_zero, hd]
    rfl
  | @text c r key value u ts t hkey hvalue h ihv ih =>
    obtain ⟨d₁, hd₁⟩ := ihv
    obtain ⟨d₂, hd₂⟩ := ih
    refine ⟨max (d₁ + 1) d₂, ?_⟩
    have hv : nestedEval L (max (d₁ + 1) d₂) value r = .done u := by
      have hn : nestedEval L (d₁ + 1) value r = .done u := hd₁
      rw [nestedEval_mono (Nat.le_max_left _ _) value r (by rw [hn]; exact nofun), hn]
    have ht : eval L (max (d₁ + 1) d₂) c ts (r - u.length) = .done t := by
      rw [eval_mono (Nat.le_max_right _ _) (by rw [hd₂]; exact nofun), hd₂]
    rw [eval] at ht ⊢
    rw [evalTokens, evalRef, hkey]
    dsimp only
    rw [hv, andThen_done, ht]
    rfl
  | @command c r key group u out ts t hkey hgroup hsize hrun h ihg ih =>
    obtain ⟨d₁, hd₁⟩ := ihg
    obtain ⟨d₂, hd₂⟩ := ih
    refine ⟨max (d₁ + 1) d₂, ?_⟩
    have hv : nestedEval L (max (d₁ + 1) d₂) group L.size = .done u := by
      have hn : nestedEval L (d₁ + 1) group L.size = .done u := hd₁
      rw [nestedEval_mono (Nat.le_max_left _ _) group L.size (by rw [hn]; exact nofun), hn]
    have ht : eval L (max (d₁ + 1) d₂) c ts (r - out.length) = .done t := by
      rw [eval_mono (Nat.le_max_right _ _) (by rw [hd₂]; exact nofun), hd₂]
    rw [eval] at ht ⊢
    rw [evalTokens, evalRef, hkey]
    dsimp only
    rw [hv, andThen_done, if_neg hsize, hrun]
    dsimp only
    rw [andThen_done, ht]
    rfl

/-- At any bound a text is written as it is, or the bound is met. -/
theorem Expands.eval_eq {c : Bool} {r : Nat} {ts : List (Token α)} {t : List α}
    (h : Expands L c r ts t) (depth : Nat) :
    eval L depth c ts r = .done t ∨ eval L depth c ts r = .deep := by
  obtain ⟨d, hd⟩ := h.complete
  by_cases hdeep : eval L depth c ts r = .deep
  · exact .inr hdeep
  · left
    have h₁ := eval_mono (Nat.le_max_left depth d) hdeep
    have h₂ := eval_mono (Nat.le_max_right depth d) (by rw [hd]; exact nofun)
    rw [← h₁, h₂, hd]

theorem eval_singleton {depth : Nat} {c : Bool} {key : List α} {room : Nat} :
    eval L depth c [.ref key] room = evalRef L (nestedEval L depth) c key room := by
  rw [eval, evalTokens]
  cases evalRef L (nestedEval L depth) c key room with
  | done u => simp [evalTokens]
  | _ => rfl

/-! ## References that are reached -/

/-- The expansion comes to the reference, with some room left. -/
def Reaches (L : Language α ε) (c : Bool) (r : Nat) (ts : List (Token α)) (key : List α)
    (room : Nat) : Prop :=
  ∃ pre post t, ts = pre ++ .ref key :: post ∧ Expands L c r pre t ∧ room = r - t.length

/-- An outcome that is neither a text nor an error comes from a reference. -/
theorem evalTokens_broken {N : List α → Nat → Produced α ε} {c : Bool} {o : Produced α ε}
    (ho : o.Broken) {ts : List (Token α)} : ∀ {r : Nat}, evalTokens L N c ts r = o →
      ∃ pre key post t, ts = pre ++ .ref key :: post ∧ evalTokens L N c pre r = .done t ∧
        evalRef L N c key (r - t.length) = o := by
  induction ts with
  | nil => intro r h; exact absurd h.symm (ho.not_done _)
  | cons tok ts ih =>
    intro r h
    cases tok with
    | char a =>
      rw [evalTokens] at h
      split at h
      · exact absurd h.symm ho.not_error
      · rename_i hroom
        obtain ⟨pre, key, post, t, rfl, hpre, href⟩ := ih (ho.of_after h)
        refine ⟨.char a :: pre, key, post, a :: t, rfl, ?_, ?_⟩
        · rw [evalTokens, if_neg hroom, hpre]
          rfl
        · rwa [List.length_cons, Nat.add_comm, ← Nat.sub_sub]
    | ref key =>
      rw [evalTokens] at h
      rcases ho.of_andThen h with href | ⟨u, hu, hrest⟩
      · exact ⟨[], key, ts, [], rfl, rfl, href⟩
      · obtain ⟨pre, key', post, t, rfl, hpre, href⟩ := ih (ho.of_after hrest)
        refine ⟨.ref key :: pre, key', post, u ++ t, rfl, ?_, ?_⟩
        · rw [evalTokens, hu, andThen_done, hpre]
          rfl
        · rwa [List.length_append, ← Nat.sub_sub]

theorem eval_reached {depth : Nat} {c : Bool} {ts : List (Token α)} {r room : Nat} {key : List α}
    {o : Produced α ε} (ho : o.Broken) (hreach : Reaches L c r ts key room)
    (href : evalRef L (nestedEval L depth) c key room = o) :
    eval L depth c ts r = o ∨ eval L depth c ts r = .deep := by
  obtain ⟨pre, post, t, rfl, hpre, rfl⟩ := hreach
  rw [eval, evalTokens_append]
  rcases hpre.eval_eq depth with hdone | hdeep
  · left
    rw [eval] at hdone
    rw [hdone, andThen_done, evalTokens, href, ho.andThen, after, ho.andThen]
  · right
    rw [eval] at hdeep
    rw [hdeep]
    rfl

theorem eval_broken {depth : Nat} {c : Bool} {ts : List (Token α)} {r : Nat} {o : Produced α ε}
    (ho : o.Broken) (h : eval L depth c ts r = o) :
    ∃ key room, Reaches L c r ts key room ∧ evalRef L (nestedEval L depth) c key room = o := by
  obtain ⟨pre, key, post, t, hts, hpre, href⟩ := evalTokens_broken ho h
  exact ⟨key, _, ⟨pre, post, t, hts, eval_sound hpre, rfl⟩, href⟩

/-- So many texts are nested in each other. -/
def Nests (L : Language α ε) : Nat → Bool → Nat → List (Token α) → Prop
  | 0, _, _, _ => True
  | n + 1, c, r, ts => ∃ key room, Reaches L c r ts key room ∧
      ((∃ value, L.meaning c key = .text value ∧ Nests L n false room (L.tokens value)) ∨
        ∃ group, L.meaning c key = .command group ∧ Nests L n false L.size (L.tokens group))

theorem evalRef_deep_iff {N : List α → Nat → Produced α ε} {c : Bool} {key : List α} {room : Nat} :
    evalRef L N c key room = .deep ↔
      (∃ value, L.meaning c key = .text value ∧ N value room = .deep) ∨
        ∃ group, L.meaning c key = .command group ∧ N group L.size = .deep := by
  unfold evalRef
  cases hkey : L.meaning c key with
  | text value => simp
  | command group =>
    simp only [reduceCtorEq, false_and, exists_false, Meaning.command.injEq, exists_eq_left',
      false_or]
    constructor
    · intro h
      rcases Broken.of_andThen (.inl rfl) h with h | ⟨text, -, h⟩
      · exact h
      · split at h
        · cases h
        · split at h <;> cases h
    · intro h
      rw [h]
      rfl
  | _ => simp

theorem eval_deep_step {depth : Nat}
    (hnested : ∀ v r, nestedEval L depth v r = .deep ↔ Nests L depth false r (L.tokens v))
    {c : Bool} {ts : List (Token α)} {r : Nat} :
    eval L depth c ts r = .deep ↔ Nests L (depth + 1) c r ts := by
  constructor
  · intro h
    obtain ⟨key, room, hreach, href⟩ := eval_broken (.inl rfl) h
    refine ⟨key, room, hreach, ?_⟩
    rcases evalRef_deep_iff.mp href with ⟨v, hkey, hv⟩ | ⟨g, hkey, hg⟩
    · exact .inl ⟨v, hkey, (hnested v room).mp hv⟩
    · exact .inr ⟨g, hkey, (hnested g L.size).mp hg⟩
  · rintro ⟨key, room, hreach, hnest⟩
    have href : evalRef L (nestedEval L depth) c key room = .deep := by
      rw [evalRef_deep_iff]
      rcases hnest with ⟨v, hkey, hv⟩ | ⟨g, hkey, hg⟩
      · exact .inl ⟨v, hkey, (hnested v room).mpr hv⟩
      · exact .inr ⟨g, hkey, (hnested g L.size).mpr hg⟩
    exact (eval_reached (.inl rfl) hreach href).elim id id

theorem nestedEval_deep_iff {depth : Nat} : ∀ (v : List α) (r : Nat),
    nestedEval L depth v r = .deep ↔ Nests L depth false r (L.tokens v) := by
  induction depth with
  | zero => exact fun _ _ => ⟨fun _ => trivial, fun _ => rfl⟩
  | succ depth ih => exact fun _ _ => eval_deep_step ih

/-- **The bound** is met exactly by texts that are nested as deep. -/
theorem eval_deep_iff {depth : Nat} {c : Bool} {ts : List (Token α)} {r : Nat} :
    eval L depth c ts r = .deep ↔ Nests L (depth + 1) c r ts :=
  eval_deep_step nestedEval_deep_iff

/-! ## Stops -/

/-- The expansion comes to what stops it. -/
inductive Stops (L : Language α ε) (e : ε) : Bool → Nat → List (Token α) → Prop
  | here {c : Bool} {r room : Nat} {ts : List (Token α)} {key : List α}
      (hreach : Reaches L c r ts key room) (hkey : L.meaning c key = .stop e) : Stops L e c r ts
  | overflow {c : Bool} {r room : Nat} {ts : List (Token α)} {key group u : List α}
      (hreach : Reaches L c r ts key room) (hkey : L.meaning c key = .command group)
      (hgroup : Expands L false L.size (L.tokens group) u) (hsize : u.length = L.size)
      (he : L.overflow = e) : Stops L e c r ts
  | text {c : Bool} {r room : Nat} {ts : List (Token α)} {key value : List α}
      (hreach : Reaches L c r ts key room) (hkey : L.meaning c key = .text value)
      (h : Stops L e false room (L.tokens value)) : Stops L e c r ts
  | command {c : Bool} {r room : Nat} {ts : List (Token α)} {key group : List α}
      (hreach : Reaches L c r ts key room) (hkey : L.meaning c key = .command group)
      (h : Stops L e false L.size (L.tokens group)) : Stops L e c r ts

theorem Stops.of_ref {e : ε} {N : List α → Nat → Produced α ε}
    (hnested : ∀ v r, N v r = .stop e → Stops L e false r (L.tokens v))
    (hsound : ∀ {v r u}, N v r = .done u → Expands L false r (L.tokens v) u) {c : Bool}
    {ts : List (Token α)} {r room : Nat} {key : List α} (hreach : Reaches L c r ts key room)
    (href : evalRef L N c key room = .stop e) : Stops L e c r ts := by
  unfold evalRef at href
  cases hkey : L.meaning c key with
  | nothing =>
    rw [hkey] at href
    cases href
  | text value =>
    rw [hkey] at href
    exact .text hreach hkey (hnested value room href)
  | command group =>
    rw [hkey] at href
    rcases Broken.of_andThen (.inr ⟨e, rfl⟩) href with hgroup | ⟨u, hu, hout⟩
    · exact .command hreach hkey (hnested group L.size hgroup)
    · split at hout
      · rename_i hsize
        exact .overflow hreach hkey (hsound hu) hsize (Produced.stop.inj hout)
      · split at hout <;> cases hout
  | error =>
    rw [hkey] at href
    cases href
  | stop e' =>
    rw [hkey] at href
    cases href
    exact .here hreach hkey

theorem nestedEval_stop {e : ε} {depth : Nat} : ∀ (v : List α) (r : Nat),
    nestedEval L depth v r = .stop e → Stops L e false r (L.tokens v) := by
  induction depth with
  | zero => intro v r h; cases h
  | succ depth ih =>
    intro v r h
    obtain ⟨key, room, hreach, href⟩ := eval_broken (.inr ⟨e, rfl⟩) (h : eval L depth _ _ _ = _)
    exact .of_ref ih (fun h => nestedEval_sound h) hreach href

theorem eval_stop {e : ε} {depth : Nat} {c : Bool} {ts : List (Token α)} {r : Nat}
    (h : eval L depth c ts r = .stop e) : Stops L e c r ts := by
  obtain ⟨key, room, hreach, href⟩ := eval_broken (.inr ⟨e, rfl⟩) h
  exact .of_ref nestedEval_stop (fun h => nestedEval_sound h) hreach href

/-- A reference that stops at some bound does so at every larger one. -/
theorem Stops.eval_of_ref {e : ε} (depth : Nat) {c : Bool} {ts : List (Token α)} {r room : Nat}
    {key : List α} (hreach : Reaches L c r ts key room)
    (href : evalRef L (nestedEval L depth) c key room = .stop e) :
    ∃ depth, eval L depth c ts r = .stop e := by
  obtain ⟨pre, post, t, rfl, hpre, rfl⟩ := hreach
  obtain ⟨d, hd⟩ := hpre.complete
  have hle := nestedEval_mono (L := L) (Nat.le_max_left depth d)
  have hbroken : (Produced.stop e : Produced α ε).Broken := .inr ⟨e, rfl⟩
  refine ⟨max depth d, ?_⟩
  have hdone := eval_mono (Nat.le_max_right depth d) (by rw [hd]; exact nofun)
  rw [hd, eval] at hdone
  rw [eval, evalTokens_append, hdone, andThen_done, evalTokens,
    evalRef_mono hle (by rw [href]; exact nofun), href, hbroken.andThen, after, hbroken.andThen]

theorem Stops.eval {e : ε} {c : Bool} {ts : List (Token α)} {r : Nat} (h : Stops L e c r ts) :
    ∃ depth, eval L depth c ts r = .stop e := by
  induction h with
  | here hreach hkey =>
    refine Stops.eval_of_ref 0 hreach ?_
    rw [evalRef, hkey]
  | overflow hreach hkey hgroup hsize he =>
    obtain ⟨d, hd⟩ := hgroup.complete
    refine Stops.eval_of_ref (d + 1) hreach ?_
    have hn : nestedEval L (d + 1) _ L.size = .done _ := hd
    rw [evalRef, hkey]
    dsimp only
    rw [hn, andThen_done, if_pos hsize, he]
  | text hreach hkey _ ih =>
    obtain ⟨d, hd⟩ := ih
    refine Stops.eval_of_ref (d + 1) hreach ?_
    rw [evalRef, hkey]
    exact hd
  | command hreach hkey _ ih =>
    obtain ⟨d, hd⟩ := ih
    refine Stops.eval_of_ref (d + 1) hreach ?_
    have hn : nestedEval L (d + 1) _ L.size = .stop e := hd
    rw [evalRef, hkey]
    dsimp only
    rw [hn]
    rfl

/-- What an outcome that is neither a text nor an error comes from. -/
theorem eval_broken_iff {depth : Nat} {c : Bool} {ts : List (Token α)} {r : Nat} :
    (eval L depth c ts r).Broken ↔ Nests L (depth + 1) c r ts ∨ ∃ e, Stops L e c r ts := by
  constructor
  · rintro (hdeep | ⟨e, hstop⟩)
    · exact .inl (eval_deep_iff.mp hdeep)
    · exact .inr ⟨e, eval_stop hstop⟩
  · rintro (hnests | ⟨e, hstops⟩)
    · exact .inl (eval_deep_iff.mpr hnests)
    · by_cases hdeep : eval L depth c ts r = .deep
      · exact .inl hdeep
      · obtain ⟨d, hd⟩ := hstops.eval
        refine .inr ⟨e, ?_⟩
        have h₁ := eval_mono (Nat.le_max_left depth d) hdeep
        have h₂ := eval_mono (Nat.le_max_right depth d) (by rw [hd]; exact nofun)
        rw [← h₁, h₂, hd]

/-! ## Less room -/

theorem eval_error_of_ref {depth : Nat} {c : Bool} {ts : List (Token α)} {r : Nat} {key : List α}
    (h : evalRef L (nestedEval L depth) c key r = .error) :
    eval L depth c (.ref key :: ts) r = .error := by
  rw [eval, evalTokens, h]
  rfl

theorem eval_error_of_rest {depth depth' : Nat} {c : Bool} {ts : List (Token α)} {r : Nat}
    {key u : List α} (href : evalRef L (nestedEval L depth) c key r = .done u)
    (h : eval L depth' c ts (r - u.length) = .error) :
    ∃ depth, eval L depth c (.ref key :: ts) r = .error := by
  refine ⟨max depth depth', ?_⟩
  have hends : evalRef L (nestedEval L depth) c key r ≠ .deep := by
    rw [href]
    exact nofun
  have hmax := evalRef_mono (nestedEval_mono (Nat.le_max_left depth depth')) hends
  have hrest := eval_mono (L := L) (Nat.le_max_right depth depth') (by rw [h]; exact nofun)
  rw [h, eval] at hrest
  rw [eval, evalTokens, hmax, href, andThen_done, hrest]
  rfl

/-- **With less room** the text is the same, or it doesn't fit. -/
theorem Expands.narrow
    (hrun : ∀ {text r r' out}, L.run text r = some out → r' ≤ r →
      L.run text r' = none ∨ L.run text r' = some out)
    {c : Bool} {r : Nat} {ts : List (Token α)} {t : List α} (h : Expands L c r ts t) :
    ∀ r' ≤ r, Expands L c r' ts t ∨ ∃ depth, eval L depth c ts r' = .error := by
  induction h with
  | nil => exact fun _ _ => .inl .nil
  | char h ih =>
    intro r' hle
    cases r' with
    | zero => exact .inr ⟨0, rfl⟩
    | succ r' =>
      rcases ih r' (Nat.le_of_succ_le_succ hle) with ht | ⟨depth, hd⟩
      · exact .inl (.char ht)
      · refine .inr ⟨depth, ?_⟩
        rw [eval] at hd ⊢
        rw [evalTokens, if_neg (Nat.succ_ne_zero r'), Nat.add_sub_cancel, hd]
        rfl
  | @nothing c r key ts t hkey h ih =>
    intro r' hle
    rcases ih r' hle with ht | ⟨depth, hd⟩
    · exact .inl (.nothing hkey ht)
    · have href : evalRef L (nestedEval L 0) c key r' = .done [] := by rw [evalRef, hkey]
      exact .inr (eval_error_of_rest href hd)
  | @text c r key value u ts t hkey hvalue h ihv ih =>
    intro r' hle
    rcases ihv r' hle with hv | ⟨depth, hd⟩
    · obtain ⟨d, hv'⟩ := hv.complete
      have hn : nestedEval L (d + 1) value r' = .done u := hv'
      have href : evalRef L (nestedEval L (d + 1)) c key r' = .done u := by
        rw [evalRef, hkey]
        exact hn
      rcases ih (r' - u.length) (Nat.sub_le_sub_right hle _) with ht | ⟨depth, hd⟩
      · exact .inl (.text hkey hv ht)
      · exact .inr (eval_error_of_rest href hd)
    · have hn : nestedEval L (depth + 1) value r' = .error := hd
      refine .inr ⟨depth + 1, eval_error_of_ref ?_⟩
      rw [evalRef, hkey]
      exact hn
  | @command c r key group u out ts t hkey hgroup hsize hout h ihg ih =>
    intro r' hle
    obtain ⟨d, hg⟩ := hgroup.complete
    have hn : nestedEval L (d + 1) group L.size = .done u := hg
    rcases hrun hout hle with hnone | hsome
    · refine .inr ⟨d + 1, eval_error_of_ref ?_⟩
      rw [evalRef, hkey]
      dsimp only
      rw [hn, andThen_done, if_neg hsize, hnone]
    · have href : evalRef L (nestedEval L (d + 1)) c key r' = .done out := by
        rw [evalRef, hkey]
        dsimp only
        rw [hn, andThen_done, if_neg hsize, hsome]
      rcases ih (r' - out.length) (Nat.sub_le_sub_right hle _) with ht | ⟨depth, hd⟩
      · exact .inl (.command hkey hgroup hsize hsome ht)
      · exact .inr (eval_error_of_rest href hd)

/-- **A text that doesn't fit** is an error. -/
theorem Expands.refused
    (hrun : ∀ {text r r' out}, L.run text r = some out → r' ≤ r →
      L.run text r' = none ∨ L.run text r' = some out)
    {c : Bool} {r room : Nat} {ts : List (Token α)} {t : List α} (h : Expands L c r ts t)
    (hroom : room < t.length) : ∃ depth, eval L depth c ts room = .error := by
  have hle := h.length_le
  rcases h.narrow hrun room (by omega) with h' | herror
  · have := h'.length_le
    omega
  · exact herror

/-! ## Errors -/

/-- The expansion comes to the reference, maybe within the text of another one. -/
inductive Meets (L : Language α ε) (c' : Bool) (key' : List α) (room' : Nat) :
    Bool → Nat → List (Token α) → Prop
  | here {r : Nat} {ts : List (Token α)} (hreach : Reaches L c' r ts key' room') :
      Meets L c' key' room' c' r ts
  | text {c : Bool} {r room : Nat} {ts : List (Token α)} {key value : List α}
      (hreach : Reaches L c r ts key room) (hkey : L.meaning c key = .text value)
      (h : Meets L c' key' room' false room (L.tokens value)) : Meets L c' key' room' c r ts
  | command {c : Bool} {r room : Nat} {ts : List (Token α)} {key group : List α}
      (hreach : Reaches L c r ts key room) (hkey : L.meaning c key = .command group)
      (h : Meets L c' key' room' false L.size (L.tokens group)) : Meets L c' key' room' c r ts

theorem eval_error_of_reaches (depth : Nat) {c : Bool} {ts : List (Token α)} {r room : Nat}
    {key : List α} (hreach : Reaches L c r ts key room)
    (href : evalRef L (nestedEval L depth) c key room = .error) :
    ∃ depth, eval L depth c ts r = .error := by
  obtain ⟨pre, post, t, rfl, hpre, rfl⟩ := hreach
  obtain ⟨d, hd⟩ := hpre.complete
  refine ⟨max depth d, ?_⟩
  have hdone := eval_mono (Nat.le_max_right depth d) (by rw [hd]; exact nofun)
  have hends : evalRef L (nestedEval L depth) c key (r - t.length) ≠ .deep := by
    rw [href]
    exact nofun
  have hmax := evalRef_mono (nestedEval_mono (Nat.le_max_left depth d)) hends
  rw [hd, eval] at hdone
  rw [eval, evalTokens_append, hdone, andThen_done, evalTokens, hmax, href]
  rfl

theorem Meets.eval_error {c' c : Bool} {key' : List α} {room' r : Nat} {ts : List (Token α)}
    (depth : Nat) (h : Meets L c' key' room' c r ts)
    (href : evalRef L (nestedEval L depth) c' key' room' = .error) :
    ∃ depth, eval L depth c ts r = .error := by
  induction h with
  | here hreach => exact eval_error_of_reaches depth hreach href
  | text hreach hkey h ih =>
    obtain ⟨d, hd⟩ := ih
    refine eval_error_of_reaches (d + 1) hreach ?_
    rw [evalRef, hkey]
    exact hd
  | command hreach hkey h ih =>
    obtain ⟨d, hd⟩ := ih
    have hn : nestedEval L (d + 1) _ L.size = .error := hd
    refine eval_error_of_reaches (d + 1) hreach ?_
    rw [evalRef, hkey]
    dsimp only
    rw [hn]
    rfl

/-! ## Texts without cycles -/

/-- The first text has a reference to the second one. -/
def Refers (L : Language α ε) (v w : List α) : Prop :=
  ∃ key, .ref key ∈ L.tokens v ∧ L.meaning false key = .text w

/-- No text leads back to itself. -/
def Acyclic (L : Language α ε) : Prop := WellFounded fun w v => Refers L v w

theorem exists_forall_mem {β : Type*} {P : β → Nat → Prop}
    (hmono : ∀ b d d', d ≤ d' → P b d → P b d') (l : List β) (h : ∀ b ∈ l, ∃ d, P b d) :
    ∃ d, ∀ b ∈ l, P b d := by
  induction l with
  | nil => exact ⟨0, nofun⟩
  | cons b l ih =>
    obtain ⟨d, hd⟩ := ih fun b' hb' => h b' (List.mem_cons_of_mem b hb')
    obtain ⟨d', hd'⟩ := h b List.mem_cons_self
    refine ⟨max d d', fun b' hb' => ?_⟩
    rcases List.mem_cons.mp hb' with rfl | hmem
    · exact hmono _ _ _ (Nat.le_max_right d d') hd'
    · exact hmono _ _ _ (Nat.le_max_left d d') (hd b' hmem)

/-- The bound is not met by the texts that a reference stands for. -/
def Within (L : Language α ε) (c : Bool) (key : List α) (depth : Nat) : Prop :=
  ∀ value, L.meaning c key = .text value ∨ L.meaning c key = .command value →
    ∀ r, nestedEval L depth value r ≠ .deep

theorem exists_within {c : Bool} {key : List α}
    (h : ∀ value, L.meaning c key = .text value ∨ L.meaning c key = .command value →
      ∃ depth, ∀ r, nestedEval L depth value r ≠ .deep) : ∃ depth, Within L c key depth := by
  by_cases hsome : ∃ value, L.meaning c key = .text value ∨ L.meaning c key = .command value
  · obtain ⟨value, hvalue⟩ := hsome
    obtain ⟨d, hd⟩ := h value hvalue
    refine ⟨d, fun value' hvalue' => ?_⟩
    have heq : value' = value := by
      rcases hvalue with hv | hv <;> rcases hvalue' with hv' | hv' <;> rw [hv] at hv' <;>
        cases hv' <;> rfl
    rw [heq]
    exact hd
  · exact ⟨0, fun value hvalue => absurd ⟨value, hvalue⟩ hsome⟩

theorem exists_depth {c : Bool} (ts : List (Token α))
    (h : ∀ key value, .ref key ∈ ts →
      L.meaning c key = .text value ∨ L.meaning c key = .command value →
        ∃ depth, ∀ r, nestedEval L depth value r ≠ .deep) :
    ∃ depth, ∀ r, eval L depth c ts r ≠ .deep := by
  have hmono : ∀ (tok : Token α) (d d' : Nat), d ≤ d' →
      (∀ key, tok = .ref key → Within L c key d) → ∀ key, tok = .ref key → Within L c key d' := by
    intro tok d d' hle hd key htok value hvalue r
    rw [nestedEval_mono hle value r (hd key htok value hvalue r)]
    exact hd key htok value hvalue r
  obtain ⟨d, hd⟩ := exists_forall_mem hmono ts fun tok hmem => by
    cases tok with
    | char a => exact ⟨0, nofun⟩
    | ref key =>
      obtain ⟨d, hd⟩ := exists_within fun value hvalue => h key value hmem hvalue
      exact ⟨d, fun key' hkey => by cases hkey; exact hd⟩
  refine ⟨d, fun r hdeep => ?_⟩
  obtain ⟨key, room, ⟨pre, post, t, rfl, -, -⟩, href⟩ := eval_broken (.inl rfl) hdeep
  have hwithin := hd (.ref key) (by simp) key rfl
  rcases evalRef_deep_iff.mp href with ⟨v, hkey, hv⟩ | ⟨g, hkey, hg⟩
  · exact hwithin v (.inl hkey) room hv
  · exact hwithin g (.inr hkey) L.size hg

theorem Acyclic.exists_nested (hacyclic : Acyclic L)
    (hcommands : ∀ key group, L.meaning false key ≠ .command group) (v : List α) :
    ∃ depth, ∀ r, nestedEval L depth v r ≠ .deep := by
  induction v using hacyclic.induction with
  | _ v ih =>
    obtain ⟨d, hd⟩ := exists_depth (L := L) (c := false) (L.tokens v) (by
      intro key value hmem hkey
      rcases hkey with hkey | hkey
      · exact ih value ⟨key, hmem, hkey⟩
      · exact absurd hkey (hcommands key value))
    exact ⟨d + 1, hd⟩

/-- **Without cycles** every expansion ends. -/
theorem Acyclic.exists_depth (hacyclic : Acyclic L)
    (hcommands : ∀ key group, L.meaning false key ≠ .command group) (c : Bool)
    (ts : List (Token α)) : ∃ depth, ∀ r, eval L depth c ts r ≠ .deep :=
  Expansion.exists_depth ts fun _ value _ _ => hacyclic.exists_nested hcommands value

end Expansion
end Layered
