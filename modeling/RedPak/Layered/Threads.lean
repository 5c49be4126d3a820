import Mathlib.Logic.Function.Basic
import RedPak.Layered.Action

/-!
# Layered.Threads

Computations that run side by side on one state. A thread is given by the atomic actions that it
takes one after the other; between two of them the others may do what they are relied on to do.

* `Thread.run`: a thread that runs alone.
* `Pool.step`, `Pool.runs`: the turns of a pool of threads, in any order.
* `Thread.Safe`: what a thread does as long as the others keep to what it relies on.
* `Thread.Looks.gives`: when a thread that only looks has not noticed the others.
* `Pool.Safe.runs`: threads that keep to what the others rely on are safe side by side.
-/

namespace Layered

open Layered.Action

variable {ε σ α β ι : Type}

inductive Thread (ε σ α : Type) : Type 1 where
  | ret (a : α)
  | stop (e : ε)
  | act {β : Type} (x : EStateM ε σ β) (next : β → Thread ε σ α)

namespace Thread

def bind : Thread ε σ α → (α → Thread ε σ β) → Thread ε σ β
  | ret a, f => f a
  | stop e, _ => stop e
  | act x next, f => act x fun b => (next b).bind f

instance : Monad (Thread ε σ) where
  pure := ret
  bind := bind

/-- One atomic action. -/
def once (x : EStateM ε σ α) : Thread ε σ α := act x ret

/-- The thread alone. -/
def run : Thread ε σ α → EStateM ε σ α
  | ret a => pure a
  | stop e => throw e
  | act x next => x >>= fun b => (next b).run

@[simp] theorem run_pure (a : α) : (pure a : Thread ε σ α).run = pure a := rfl

@[simp] theorem run_ret (a : α) : (ret a : Thread ε σ α).run = pure a := rfl

@[simp] theorem run_stop (e : ε) : (stop e : Thread ε σ α).run = throw e := rfl

@[simp] theorem run_once (x : EStateM ε σ α) : (once x).run = x := bind_pure x

@[simp] theorem run_bind (t : Thread ε σ α) (f : α → Thread ε σ β) :
    (t >>= f).run = t.run >>= fun a => (f a).run := by
  induction t with
  | ret a => exact (pure_bind a fun a => (f a).run).symm
  | stop e => rfl
  | act x next ih =>
    change (x >>= fun b => ((next b).bind f).run) = (x >>= fun b => (next b).run) >>= _
    rw [bind_assoc]
    exact congrArg (x >>= ·) (funext ih)

theorem run_ite {p : Prop} [Decidable p] (t t' : Thread ε σ α) :
    (if p then t else t').run = if p then t.run else t'.run := by
  split <;> rfl

end Thread

/-! ## Pools -/

/-- Threads that share a state. -/
structure Pool (ι ε σ α : Type) : Type 1 where
  state : σ
  threads : ι → Thread ε σ α

namespace Pool

variable [DecidableEq ι]

/-- The turn of a thread: its next action, if it has one. -/
def step (c : Pool ι ε σ α) (i : ι) : Pool ι ε σ α :=
  match c.threads i with
  | .ret _ => c
  | .stop _ => c
  | .act x next =>
    match x c.state with
    | .ok b s => ⟨s, Function.update c.threads i (next b)⟩
    | .error e s => ⟨s, Function.update c.threads i (.stop e)⟩

theorem step_ret {c : Pool ι ε σ α} {i : ι} {a : α} (h : c.threads i = .ret a) : c.step i = c := by
  rw [step, h]

theorem step_ok {c : Pool ι ε σ α} {i : ι} {β : Type} {x : EStateM ε σ β} {next : β → Thread ε σ α}
    {b : β} {s : σ} (h : c.threads i = .act x next) (hx : x c.state = .ok b s) :
    c.step i = ⟨s, Function.update c.threads i (next b)⟩ := by
  rw [step, h]
  dsimp only
  rw [hx]

/-- Any order of turns. -/
def runs (c : Pool ι ε σ α) (schedule : List ι) : Pool ι ε σ α := schedule.foldl step c

@[simp] theorem runs_nil (c : Pool ι ε σ α) : c.runs [] = c := rfl

@[simp] theorem runs_cons (c : Pool ι ε σ α) (i : ι) (schedule : List ι) :
    c.runs (i :: schedule) = (c.step i).runs schedule := rfl

theorem runs_append (c : Pool ι ε σ α) (as bs : List ι) :
    c.runs (as ++ bs) = (c.runs as).runs bs := List.foldl_append

/-- The threads whose turn it is not are left as they are. -/
theorem threads_step_ne (c : Pool ι ε σ α) {i j : ι} (h : j ≠ i) :
    (c.step i).threads j = c.threads j := by
  unfold step
  split
  · rfl
  · rfl
  · split <;> exact Function.update_of_ne h _ _

end Pool

namespace Pool

variable [DecidableEq ι]

/-- A thread that has all the turns comes to what it comes to alone. -/
theorem runs_alone (c : Pool ι ε σ α) {i : ι} {x : Thread ε σ α} (hx : c.threads i = x) {a : α}
    {s : σ} (h : x.run c.state = .ok a s) : ∃ n, (c.runs (List.replicate n i)).state = s ∧
      (c.runs (List.replicate n i)).threads i = .ret a := by
  induction x generalizing c with
  | ret b =>
    cases h
    exact ⟨0, rfl, hx⟩
  | stop e => cases h
  | act y next ih =>
    obtain ⟨b, t, hy, hrest⟩ := bind_eq_ok.mp h
    have hstep := step_ok hx hy
    obtain ⟨n, hn⟩ := ih b (c.step i) (by rw [hstep]; exact Function.update_self _ _ _)
      (by rw [hstep]; exact hrest)
    exact ⟨n + 1, hn⟩

end Pool

/-! ## Safety -/

section

variable (I : σ → Prop) (R G : σ → σ → Prop)

/-- From a state on, while the others keep the invariant `I` and to `R`, every action of the thread
keeps the invariant and to `G`; and `Q` or `E` holds once it is at its end. -/
def Thread.Safe (Q : α → σ → Prop) (E : ε → σ → Prop) : Thread ε σ α → σ → Prop
  | .ret a, s => ∀ t, I t → R s t → Q a t
  | .stop e, s => ∀ t, I t → R s t → E e t
  | .act x next, s => ∀ t, I t → R s t →
      wp x (fun b u => I u ∧ G t u ∧ (next b).Safe Q E u)
        (fun e u => I u ∧ G t u ∧ ∀ v, I v → R u v → E e v) t

end

/-- What is relied on is no more than nothing, and what comes behind it. -/
class Rely (R : σ → σ → Prop) : Prop where
  refl : ∀ s, R s s
  trans : ∀ {s t u}, R s t → R t u → R s u

namespace Thread

variable {I : σ → Prop} {R G : σ → σ → Prop} {Q Q' : α → σ → Prop} {E E' : ε → σ → Prop}
  {s t : σ}

theorem Safe.later [Rely R] {x : Thread ε σ α} (h : x.Safe I R G Q E s) (hr : R s t) :
    x.Safe I R G Q E t := by
  cases x with
  | ret a => exact fun u hu hr' => h u hu (Rely.trans hr hr')
  | stop e => exact fun u hu hr' => h u hu (Rely.trans hr hr')
  | act x next => exact fun u hu hr' => h u hu (Rely.trans hr hr')

theorem Safe.mono {x : Thread ε σ α} (h : x.Safe I R G Q E s) (hQ : ∀ a t, I t → Q a t → Q' a t)
    (hE : ∀ e t, I t → E e t → E' e t) : x.Safe I R G Q' E' s := by
  induction x generalizing s with
  | ret a => exact fun t ht hr => hQ a t ht (h t ht hr)
  | stop e => exact fun t ht hr => hE e t ht (h t ht hr)
  | act x next ih =>
    intro t ht hr
    refine wp_mono (h t ht hr) ?_ ?_
    · rintro b u ⟨hu, hg, hsafe⟩
      exact ⟨hu, hg, ih b hsafe⟩
    · rintro e u ⟨hu, hg, he⟩
      exact ⟨hu, hg, fun v hv hr' => hE e v hv (he v hv hr')⟩

/-- A thread that guarantees what the others rely on is at its end within it, too. -/
theorem Safe.since [Rely R] (hG : ∀ s t, G s t → R s t) {x : Thread ε σ α}
    (h : x.Safe I R G Q E s) : x.Safe I R G (fun a t => R s t ∧ Q a t) E s := by
  induction x generalizing s with
  | ret a => exact fun t ht hr => ⟨hr, h t ht hr⟩
  | stop e => exact h
  | act x next ih =>
    intro t ht hr
    refine wp_mono (h t ht hr) ?_ (fun _ _ he => he)
    rintro b u ⟨hu, hg, hsafe⟩
    refine ⟨hu, hg, (ih b hsafe).mono ?_ (fun _ _ _ he => he)⟩
    exact fun a v _ hv => ⟨Rely.trans hr (Rely.trans (hG t u hg) hv.1), hv.2⟩

theorem Safe.bind [Rely R] {x : Thread ε σ α} {f : α → Thread ε σ β} {Q : β → σ → Prop}
    (hs : I s) (h : x.Safe I R G (fun a t => (f a).Safe I R G Q E t) E s) :
    (x >>= f).Safe I R G Q E s := by
  induction x generalizing s with
  | ret a => exact h s hs (Rely.refl s)
  | stop e => exact h
  | act x next ih =>
    intro t ht hr
    refine wp_mono (h t ht hr) ?_ (fun _ _ he => he)
    rintro b u ⟨hu, hg, hsafe⟩
    exact ⟨hu, hg, ih b hu hsafe⟩

end Thread

/-! ## What a thread gives -/

namespace Thread

variable {I : σ → Prop} {R : σ → σ → Prop} {Q Q' : α → σ → Prop} {s : σ} {x y : Thread ε σ α}

/-- What the thread comes to from here on, if all keep to `R`, itself included. -/
def Gives (I : σ → Prop) (R : σ → σ → Prop) (x : Thread ε σ α) (s : σ) (Q : α → σ → Prop) :
    Prop := x.Safe I R R Q (fun _ _ => True) s

theorem Gives.mono (h : x.Gives I R s Q) (hQ : ∀ a t, I t → Q a t → Q' a t) :
    x.Gives I R s Q' := Safe.mono h hQ fun _ _ _ h => h

theorem Gives.since [Rely R] (h : x.Gives I R s Q) : x.Gives I R s fun a t => R s t ∧ Q a t :=
  Safe.since (fun _ _ h => h) h

theorem Gives.bind [Rely R] {f : α → Thread ε σ β} {Q' : β → σ → Prop} (hs : I s)
    (h : x.Gives I R s Q) (hf : ∀ a t, I t → R s t → Q a t → (f a).Gives I R t Q') :
    (x >>= f).Gives I R s Q' :=
  Safe.bind hs (h.since.mono fun a t ht hq => hf a t ht hq.1 hq.2)

theorem Gives.map {f : α → β} {Q : β → σ → Prop} (h : x.Gives I R s fun a => Q (f a)) :
    (x >>= fun a => pure (f a)).Gives I R s Q := by
  induction x generalizing s with
  | ret a => exact h
  | stop e => exact fun _ _ _ => trivial
  | act x next ih =>
    intro t ht hr
    refine wp_mono (h t ht hr) ?_ (fun _ _ he => he)
    rintro b u ⟨hu, hg, hgives⟩
    exact ⟨hu, hg, ih b hgives⟩

theorem gives_pure {a : α} (h : ∀ t, I t → R s t → Q a t) :
    (pure a : Thread ε σ α).Gives I R s Q := h

theorem gives_stop {e : ε} : (stop e : Thread ε σ α).Gives I R s Q := fun _ _ _ => trivial

theorem gives_ite {c : Prop} [Decidable c] (hx : c → x.Gives I R s Q)
    (hy : ¬ c → y.Gives I R s Q) : (if c then x else y).Gives I R s Q := by
  split
  · exact hx ‹_›
  · exact hy ‹_›

theorem gives_look [Rely R] {f : σ → α}
    (h : ∀ t u, I t → R s t → I u → R t u → Q (f t) u) :
    (once do let t ← get; pure (f t) : Thread ε σ α).Gives I R s Q :=
  fun t ht hr => ⟨ht, Rely.refl t, fun u hu hr' => h t u ht hr hu hr'⟩

theorem gives_call {f : σ → α × σ} (h : ∀ t, I t → R s t →
    I (f t).2 ∧ R t (f t).2 ∧ ∀ u, I u → R (f t).2 u → Q (f t).1 u) :
    (once fun t => .ok (f t).1 (f t).2 : Thread ε σ α).Gives I R s Q := h

end Thread

/-! ## Threads that only look -/

namespace Thread

/-- The thread changes nothing and gets to its end. -/
def Looks : Thread ε σ α → Prop
  | .ret _ => True
  | .stop _ => True
  | .act x next => (∀ s, ∃ b, x s = .ok b s) ∧ ∀ b, (next b).Looks

/-- Alone from `s` on, the thread looks only for what is the same at all states in `U`. -/
def Tells (U : σ → Prop) (s : σ) : Thread ε σ α → Prop
  | .ret _ => True
  | .stop _ => True
  | .act x next => ∃ b, x s = .ok b s ∧ (∀ u, U u → x u = .ok b u) ∧ (next b).Tells U s

variable {I U : σ → Prop} {R : σ → σ → Prop} {s w : σ} {x y : Thread ε σ α}

theorem looks_pure (a : α) : (pure a : Thread ε σ α).Looks := trivial

theorem looks_look (f : σ → α) : (once do let t ← get; pure (f t) : Thread ε σ α).Looks :=
  ⟨fun s => ⟨f s, rfl⟩, fun _ => trivial⟩

theorem looks_ite {c : Prop} [Decidable c] (hx : c → x.Looks) (hy : ¬ c → y.Looks) :
    (if c then x else y).Looks := by
  split
  · exact hx ‹_›
  · exact hy ‹_›

theorem Looks.bind {f : α → Thread ε σ β} (h : x.Looks) (hf : ∀ a, (f a).Looks) :
    (x >>= f).Looks := by
  induction x with
  | ret a => exact hf a
  | stop e => trivial
  | act x next ih => exact ⟨h.1, fun b => ih b (h.2 b)⟩

theorem tells_pure (a : α) : (pure a : Thread ε σ α).Tells U s := trivial

theorem tells_look {f : σ → α} (h : ∀ u, U u → f u = f s) :
    (once do let t ← get; pure (f t) : Thread ε σ α).Tells U s :=
  ⟨f s, rfl, fun u hu => congrArg (EStateM.Result.ok · u) (h u hu), trivial⟩

theorem tells_ite {c : Prop} [Decidable c] (hx : c → x.Tells U s) (hy : ¬ c → y.Tells U s) :
    (if c then x else y).Tells U s := by
  split
  · exact hx ‹_›
  · exact hy ‹_›

theorem Tells.bind {f : α → Thread ε σ β} (h : x.Tells U s)
    (hf : ∀ a, x.run s = .ok a s → (f a).Tells U s) : (x >>= f).Tells U s := by
  induction x with
  | ret a => exact hf a rfl
  | stop e => trivial
  | act x next ih =>
    obtain ⟨b, hb, hsame, htells⟩ := h
    refine ⟨b, hb, hsame, ih b htells fun a ha => hf a ?_⟩
    rw [run, bind_of_ok hb]
    exact ha

/-- **A thread that only looks** ends as it would have ended alone at `w`, if what it looks for then
is the same all the way to its end. -/
theorem Looks.gives [Rely R] (h : x.Looks) (hr : R w s) : x.Gives I R s fun a t =>
    x.Tells (fun u => R w u ∧ R u t) w → x.run w = .ok a w := by
  induction x generalizing s with
  | ret a => exact fun _ _ _ _ => rfl
  | stop e => exact fun _ _ _ => trivial
  | act x next ih =>
    intro t ht hst
    have hwt := Rely.trans hr hst
    obtain ⟨b, hb⟩ := h.1 t
    have hnext := (ih b (h.2 b) hwt).since.mono fun a v _ hv (htells :
        (act x next).Tells (fun u => R w u ∧ R u v) w) => (show (act x next).run w = .ok a w by
      obtain ⟨b', hb', hsame, htells⟩ := htells
      have hthen := hsame t ⟨hwt, hv.1⟩
      rw [hb] at hthen
      cases hthen
      rw [run, bind_of_ok hb']
      exact hv.2 htells)
    unfold wp
    rw [hb]
    exact ⟨ht, Rely.refl t, hnext⟩

end Thread

/-! ## Threads side by side -/

namespace Pool

variable {I : σ → Prop} {R G : ι → σ → σ → Prop} {Q : ι → α → σ → Prop} {E : ι → ε → σ → Prop}

/-- The invariant holds, and every thread is safe from the state on. -/
structure Safe (I : σ → Prop) (R G : ι → σ → σ → Prop) (Q : ι → α → σ → Prop)
    (E : ι → ε → σ → Prop) (c : Pool ι ε σ α) : Prop where
  inv : I c.state
  threads : ∀ i, (c.threads i).Safe I (R i) (G i) (Q i) (E i) c.state

variable [∀ i, Rely (R i)] {c : Pool ι ε σ α}

theorem Safe.ended (h : c.Safe I R G Q E) {i : ι} {a : α} (hi : c.threads i = .ret a) :
    Q i a c.state := by
  have hsafe := h.threads i
  rw [hi] at hsafe
  exact hsafe c.state h.inv (Rely.refl (R := R i) c.state)

variable [DecidableEq ι]

/-- **One turn** keeps the invariant, and is within what its thread guarantees unless it is none. -/
theorem Safe.step (h : c.Safe I R G Q E) (hG : ∀ i j, i ≠ j → ∀ s t, G i s t → R j s t) (i : ι) :
    (c.step i).Safe I R G Q E ∧
      ((c.step i).state = c.state ∨ G i c.state (c.step i).state) := by
  have hi := h.threads i
  have hself := Rely.refl (R := R i) c.state
  have hothers : ∀ {s : σ} {x : Thread ε σ α}, G i c.state s → x.Safe I (R i) (G i) (Q i) (E i) s →
      ∀ j, (Function.update c.threads i x j).Safe I (R j) (G j) (Q j) (E j) s := by
    intro s x hg hx j
    rcases eq_or_ne j i with rfl | hne
    · rwa [Function.update_self]
    · rw [Function.update_of_ne hne]
      exact (h.threads j).later (hG i j hne.symm _ _ hg)
  unfold Pool.step
  split
  · exact ⟨h, .inl rfl⟩
  · exact ⟨h, .inl rfl⟩
  · rename_i γ x next hthread
    rw [hthread] at hi
    have hx := hi c.state h.inv hself
    unfold wp at hx
    split <;> rename_i hrun <;> rw [hrun] at hx
    · obtain ⟨hinv, hg, hsafe⟩ := hx
      exact ⟨⟨hinv, hothers hg hsafe⟩, .inr hg⟩
    · obtain ⟨hinv, hg, hend⟩ := hx
      exact ⟨⟨hinv, hothers hg hend⟩, .inr hg⟩

/-- **Any order of turns** keeps the invariant and leaves every thread safe. -/
theorem Safe.runs (h : c.Safe I R G Q E) (hG : ∀ i j, i ≠ j → ∀ s t, G i s t → R j s t)
    (schedule : List ι) : (c.runs schedule).Safe I R G Q E := by
  induction schedule generalizing c with
  | nil => exact h
  | cons i schedule ih => exact ih (h.step hG i).1

theorem Safe.runs_rel (h : c.Safe I R G Q E) (hG : ∀ i j, i ≠ j → ∀ s t, G i s t → R j s t)
    {T : σ → σ → Prop} [Rely T] (hT : ∀ i s t, G i s t → T s t) (schedule : List ι) :
    T c.state (c.runs schedule).state := by
  induction schedule generalizing c with
  | nil => exact Rely.refl _
  | cons i schedule ih =>
    obtain ⟨hsafe, hstep⟩ := h.step hG i
    have hfirst : T c.state (c.step i).state := by
      rcases hstep with heq | hg
      · rw [heq]
        exact Rely.refl _
      · exact hT i _ _ hg
    exact Rely.trans hfirst (ih hsafe)

theorem threads_runs_of_notMem {c : Pool ι ε σ α} {i : ι} {schedule : List ι} (h : i ∉ schedule) :
    (c.runs schedule).threads i = c.threads i := by
  induction schedule generalizing c with
  | nil => rfl
  | cons j schedule ih =>
    rw [List.mem_cons, not_or] at h
    rw [runs_cons, ih h.2, threads_step_ne c h.1]

variable {K : σ → σ → Prop} [Rely K]

/-- **Threads that all keep to the same**, side by side. -/
theorem gives_runs (hinv : I c.state) (h : ∀ i, (c.threads i).Gives I K c.state (Q i))
    (schedule : List ι) : I (c.runs schedule).state ∧ K c.state (c.runs schedule).state ∧
      ∀ i, ((c.runs schedule).threads i).Gives I K (c.runs schedule).state (Q i) := by
  have hsafe : c.Safe I (fun _ => K) (fun _ => K) Q (fun _ _ _ => True) := ⟨hinv, h⟩
  have hkeep : ∀ i j : ι, i ≠ j → ∀ s t, K s t → K s t := fun _ _ _ _ _ hr => hr
  exact ⟨(hsafe.runs hkeep schedule).inv, hsafe.runs_rel hkeep (fun _ _ _ hr => hr) schedule,
    (hsafe.runs hkeep schedule).threads⟩

omit [DecidableEq ι] in
theorem gives_ended (hinv : I c.state) (h : ∀ i, (c.threads i).Gives I K c.state (Q i)) {i : ι}
    {a : α} (hi : c.threads i = .ret a) : Q i a c.state := by
  have hgives := h i
  rw [hi] at hgives
  exact hgives c.state hinv (Rely.refl c.state)

end Pool
end Layered
