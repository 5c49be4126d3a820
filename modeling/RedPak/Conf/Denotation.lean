import RedPak.Conf.StoredSpec

/-!
# Conf.Denotation

What a string with references means: its parts are read one after the other (`Reads`), a variable
stands for the meaning of its value and a command for its output (`Denotes`).

* `Reads.tokens`: the parts are what `defaultsExpand` takes as tokens.
* `Reads.unique`, `Denotes.unique`: a string has one meaning at most.
* `meetsDenotation_iff`: when a successful expansion is the meaning of its input.
-/

namespace RedPak
namespace Conf
namespace Stored

open Layered (Buffer)
open Layered.Buffer (slice)
open Layered.Expansion
open Layered.Action (endsIn of_endsIn)

/-! ## Parts -/

/-- `[0-9A-Za-z_]` -/
def IsNameChar (c : UInt8) : Prop :=
  (0x30 ≤ c ∧ c ≤ 0x39) ∨ (0x41 ≤ c ∧ c ≤ 0x5A) ∨ (0x61 ≤ c ∧ c ≤ 0x7A) ∨ c = 0x5F

inductive Balanced : List UInt8 → Prop
  | nil : Balanced []
  | char {c : UInt8} {g : List UInt8} (hopen : c ≠ openParen) (hclose : c ≠ closeParen)
      (h : Balanced g) : Balanced (c :: g)
  | group {g g' : List UInt8} (h : Balanced g) (h' : Balanced g') :
      Balanced (openParen :: (g ++ closeParen :: g'))

inductive Part where
  | char (c : UInt8)
  | named (name : List UInt8)
  | command (group : List UInt8)
  | nothing

/-- The parts of a text: a literal dollar, a dollar with the longest name behind it, a dollar with
a group in parentheses, a dollar before a parenthesis that isn't closed, or another byte. -/
inductive Reads : List UInt8 → List Part → Prop
  | nil : Reads [] []
  | escaped {s : List UInt8} {ps : List Part} (h : Reads s ps) :
      Reads (backslash :: dollar :: s) (.char dollar :: ps)
  | named {name s : List UInt8} {ps : List Part} (hname : ∀ c ∈ name, IsNameChar c)
      (hend : ∀ c ∈ s.head?, ¬ IsNameChar c) (hparen : name = [] → s.head? ≠ some openParen)
      (h : Reads s ps) : Reads (dollar :: (name ++ s)) (.named name :: ps)
  | command {g s : List UInt8} {ps : List Part} (hgroup : Balanced g) (h : Reads s ps) :
      Reads (dollar :: openParen :: (g ++ closeParen :: s)) (.command g :: ps)
  | nothing {s : List UInt8} {ps : List Part}
      (hopen : ∀ g s', Balanced g → s ≠ g ++ closeParen :: s') (h : Reads (openParen :: s) ps) :
      Reads (dollar :: openParen :: s) (.nothing :: ps)
  | char {c : UInt8} {s : List UInt8} {ps : List Part} (hdollar : c ≠ dollar)
      (hescape : ¬ (c = backslash ∧ s.head? = some dollar)) (h : Reads s ps) :
      Reads (c :: s) (.char c :: ps)

/-- The key of a part, for `computeKeyLength`. -/
def Part.token : Part → Token UInt8
  | .char c => .char c
  | .named name => .ref name
  | .command g => .ref (openParen :: (g ++ [closeParen]))
  | .nothing => .ref []

/-! ## Reading -/

theorem isKeyChar_iff (c : UInt8) : isKeyChar c = true ↔ IsNameChar c := by
  unfold isKeyChar IsNameChar
  simp only [Bool.not_eq_true', Bool.or_eq_false_iff, Bool.and_eq_false_iff,
    decide_eq_false_iff_not, UInt8.lt_iff_toNat_lt, UInt8.le_iff_toNat_le, ← UInt8.toNat_inj]
  simp only [UInt8.reduceToNat]
  omega

theorem not_isNameChar_openParen : ¬ IsNameChar openParen := by
  rw [← isKeyChar_iff]
  decide

theorem tokensFrom_skip (pre s : List UInt8) :
    tokensFrom (pre ++ s) pre.length = tokensFrom s 0 := by
  induction pre with
  | nil => rfl
  | cons c pre ih => exact ih

theorem Balanced.keyLength {g : List UInt8} (h : Balanced g) (rest : List UInt8) :
    ∀ (len npar : Nat), computeKeyLengthFrom (g ++ rest) len (npar + 1) =
      computeKeyLengthFrom rest (len + g.length) (npar + 1) := by
  induction h generalizing rest with
  | nil => exact fun _ _ => rfl
  | @char c g hopen hclose h ih =>
    intro len npar
    rw [List.cons_append, computeKeyLengthFrom, if_neg (fun h => hopen h.1),
      if_pos (Nat.succ_pos npar), if_neg hclose, ih, List.length_cons]
    congr 1
    omega
  | @group g g' h h' ih ih' =>
    intro len npar
    have hassoc : openParen :: (g ++ closeParen :: g') ++ rest =
        openParen :: (g ++ closeParen :: (g' ++ rest)) := by simp
    have hcl : ¬ (closeParen = openParen ∧ (len + 1 + g.length = 0 ∨ 0 < npar + 1 + 1)) :=
      fun h => absurd h.1 (by decide)
    rw [hassoc, computeKeyLengthFrom, if_pos ⟨rfl, .inr (Nat.succ_pos npar)⟩, ih,
      computeKeyLengthFrom, if_neg hcl, if_pos (Nat.succ_pos _), if_pos rfl, if_neg (by omega),
      Nat.add_sub_cancel, ih']
    congr 1
    simp only [List.length_cons, List.length_append]
    omega

/-- In a command, a key ends at a parenthesis that closes it. -/
theorem exists_balanced : ∀ (n : Nat) (cs : List UInt8), cs.length ≤ n → ∀ (len npar : Nat),
    computeKeyLengthFrom cs len (npar + 1) ≠ 0 → ∃ g rest, Balanced g ∧
      cs = g ++ closeParen :: rest ∧
        (npar = 0 ∨ computeKeyLengthFrom rest (len + g.length + 1) npar ≠ 0) := by
  intro n
  induction n with
  | zero =>
    intro cs hn len npar h
    obtain rfl := List.length_eq_zero_iff.mp (Nat.le_zero.mp hn)
    exact absurd (if_neg (Nat.succ_ne_zero npar)) h
  | succ n ih =>
    intro cs hn len npar h
    cases cs with
    | nil => exact absurd (if_neg (Nat.succ_ne_zero npar)) h
    | cons c cs =>
      rw [List.length_cons] at hn
      rw [computeKeyLengthFrom] at h
      by_cases hopen : c = openParen
      · -- an inner group, and what follows it
        rw [if_pos ⟨hopen, .inr (Nat.succ_pos npar)⟩] at h
        obtain ⟨g, rest, hg, rfl, hrest⟩ := ih cs (by omega) (len + 1) (npar + 1) h
        have hrest := hrest.resolve_left (Nat.succ_ne_zero npar)
        rw [List.length_append, List.length_cons] at hn
        obtain ⟨g', rest', hg', rfl, hrest'⟩ := ih rest (by omega) _ npar hrest
        refine ⟨openParen :: (g ++ closeParen :: g'), rest', .group hg hg', by simp [hopen], ?_⟩
        rcases hrest' with h | h
        · exact .inl h
        · right
          have hlen : len + (openParen :: (g ++ closeParen :: g')).length + 1 =
              len + 1 + g.length + 1 + g'.length + 1 := by
            simp only [List.length_cons, List.length_append]
            omega
          rwa [hlen]
      · rw [if_neg (fun h => hopen h.1), if_pos (Nat.succ_pos npar)] at h
        by_cases hclose : c = closeParen
        · refine ⟨[], cs, .nil, by rw [hclose]; rfl, ?_⟩
          rw [if_pos hclose] at h
          by_cases hpar : npar = 0
          · exact .inl hpar
          · rw [if_neg (by omega), Nat.add_sub_cancel] at h
            exact .inr h
        · rw [if_neg hclose] at h
          obtain ⟨g, rest, hg, rfl, hrest⟩ := ih cs (by omega) (len + 1) npar h
          refine ⟨c :: g, rest, .char hopen hclose hg, rfl, ?_⟩
          rcases hrest with h | h
          · exact .inl h
          · right
            have hlen : len + (c :: g).length + 1 = len + 1 + g.length + 1 := by
              rw [List.length_cons]
              omega
            rwa [hlen]

theorem keyLength_name {s : List UInt8} (hend : ∀ c ∈ s.head?, ¬ IsNameChar c) :
    ∀ {name : List UInt8} (len : Nat), (∀ c ∈ name, IsNameChar c) →
      (len = 0 → name = [] → s.head? ≠ some openParen) →
        computeKeyLengthFrom (name ++ s) len 0 = len + name.length := by
  intro name
  induction name with
  | nil =>
    intro len _ hparen
    cases s with
    | nil => rfl
    | cons c s =>
      have hopen : ¬ (c = openParen ∧ (len = 0 ∨ 0 < 0)) := by
        rintro ⟨rfl, hlen | hpos⟩
        · exact hparen hlen rfl rfl
        · exact Nat.lt_irrefl 0 hpos
      have hkey : ¬ isKeyChar c = true := fun h => hend c rfl ((isKeyChar_iff c).mp h)
      rw [List.nil_append, computeKeyLengthFrom, if_neg hopen, if_neg (Nat.lt_irrefl 0),
        if_neg hkey]
      rfl
  | cons c name ih =>
    intro len hname _
    have hc := hname c List.mem_cons_self
    have hopen : ¬ (c = openParen ∧ (len = 0 ∨ 0 < 0)) := by
      rintro ⟨rfl, -⟩
      exact not_isNameChar_openParen hc
    rw [List.cons_append, computeKeyLengthFrom, if_neg hopen, if_neg (Nat.lt_irrefl 0),
      if_pos ((isKeyChar_iff c).mpr hc),
      ih (len + 1) (fun a ha => hname a (List.mem_cons_of_mem c ha))
        (fun h => absurd h (Nat.succ_ne_zero len)), List.length_cons]
    omega

theorem tokens_dollar (cs : List UInt8) : tokensFrom (dollar :: cs) 0 =
    .ref (cs.take (computeKeyLength cs)) :: tokensFrom cs (computeKeyLength cs) := by
  rw [tokensFrom, if_neg (fun h => absurd h.1 (by decide)), if_pos rfl]

/-- **The parts** are what `defaultsExpand` takes as tokens. -/
theorem Reads.tokens {s : List UInt8} {ps : List Part} (h : Reads s ps) :
    ps.map Part.token = tokensFrom s 0 := by
  induction h with
  | nil => rfl
  | @escaped s ps h ih =>
    rw [List.map_cons, ih, tokensFrom, if_pos ⟨rfl, rfl⟩]
    rfl
  | @named name s ps hname hend hparen h ih =>
    have hlen : computeKeyLength (name ++ s) = name.length := by
      have h := keyLength_name hend 0 hname fun _ => hparen
      rwa [Nat.zero_add] at h
    rw [List.map_cons, ih, tokens_dollar, hlen, List.take_left' rfl, tokensFrom_skip]
    rfl
  | @command g s ps hgroup h ih =>
    have hlen : computeKeyLength (openParen :: (g ++ closeParen :: s)) =
        (openParen :: (g ++ [closeParen])).length := by
      have hcl : ¬ (closeParen = openParen ∧ (0 + 1 + g.length = 0 ∨ 0 < 0 + 1)) :=
        fun h => absurd h.1 (by decide)
      rw [computeKeyLength, computeKeyLengthFrom, if_pos ⟨rfl, .inl rfl⟩, hgroup.keyLength,
        computeKeyLengthFrom, if_neg hcl, if_pos (Nat.succ_pos 0), if_pos rfl, if_pos rfl]
      simp only [List.length_cons, List.length_append, List.length_nil]
      omega
    have hsplit : openParen :: (g ++ closeParen :: s) =
        (openParen :: (g ++ [closeParen])) ++ s := by simp
    rw [List.map_cons, ih, tokens_dollar, hlen, hsplit, List.take_left' rfl, tokensFrom_skip]
    rfl
  | @nothing s ps hopen h ih =>
    have hlen : computeKeyLength (openParen :: s) = 0 := by
      rw [computeKeyLength, computeKeyLengthFrom, if_pos ⟨rfl, .inl rfl⟩]
      by_contra hne
      obtain ⟨g, rest, hg, hs, -⟩ := exists_balanced _ s (Nat.le_refl _) 1 0 hne
      exact hopen g rest hg hs
    rw [List.map_cons, ih, tokens_dollar, hlen, List.take_zero]
    rfl
  | @char c s ps hdollar hescape h ih =>
    rw [List.map_cons, ih, tokensFrom, if_neg hescape, if_neg hdollar]
    rfl

theorem exists_reads : ∀ (n : Nat) (s : List UInt8), s.length ≤ n → ∃ ps, Reads s ps := by
  intro n
  induction n with
  | zero =>
    intro s hn
    obtain rfl := List.length_eq_zero_iff.mp (Nat.le_zero.mp hn)
    exact ⟨_, .nil⟩
  | succ n ih =>
    intro s hn
    cases s with
    | nil => exact ⟨_, .nil⟩
    | cons c s =>
      rw [List.length_cons] at hn
      by_cases hdollar : c = dollar
      · subst hdollar
        by_cases hopen : s.head? = some openParen
        · obtain ⟨s, rfl⟩ : ∃ s', s = openParen :: s' := by
            cases s with
            | nil => cases hopen
            | cons a s => cases hopen; exact ⟨s, rfl⟩
          rw [List.length_cons] at hn
          by_cases hgroup : ∃ g s', Balanced g ∧ s = g ++ closeParen :: s'
          · obtain ⟨g, s', hg, rfl⟩ := hgroup
            rw [List.length_append, List.length_cons] at hn
            obtain ⟨ps, h⟩ := ih s' (by omega)
            exact ⟨_, .command hg h⟩
          · obtain ⟨ps, h⟩ := ih (openParen :: s) (by rw [List.length_cons]; omega)
            exact ⟨_, .nothing (fun g s' hg hs => hgroup ⟨g, s', hg, hs⟩) h⟩
        · -- the longest name
          have hsplit := List.takeWhile_append_dropWhile (p := isKeyChar) (l := s)
          have hlen := congrArg List.length hsplit
          rw [List.length_append] at hlen
          obtain ⟨ps, h⟩ := ih (s.dropWhile isKeyChar) (by omega)
          have hname : ∀ a ∈ s.takeWhile isKeyChar, IsNameChar a :=
            fun a ha => (isKeyChar_iff a).mp (List.mem_takeWhile_imp ha)
          have hend : ∀ a ∈ (s.dropWhile isKeyChar).head?, ¬ IsNameChar a := by
            intro a ha hc
            have hnot := List.head?_dropWhile_not isKeyChar s
            rw [Option.mem_def.mp ha] at hnot
            exact absurd ((isKeyChar_iff a).mpr hc) (by simpa using hnot)
          have hparen : s.takeWhile isKeyChar = [] →
              (s.dropWhile isKeyChar).head? ≠ some openParen := by
            intro hnil
            rw [hnil, List.nil_append] at hsplit
            rwa [hsplit]
          have hread := Reads.named hname hend hparen h
          rw [hsplit] at hread
          exact ⟨_, hread⟩
      · by_cases hescape : c = backslash ∧ s.head? = some dollar
        · obtain ⟨rfl, hhead⟩ := hescape
          obtain ⟨s, rfl⟩ : ∃ s', s = dollar :: s' := by
            cases s with
            | nil => cases hhead
            | cons a s => cases hhead; exact ⟨s, rfl⟩
          rw [List.length_cons] at hn
          obtain ⟨ps, h⟩ := ih s (by omega)
          exact ⟨_, .escaped h⟩
        · obtain ⟨ps, h⟩ := ih s (by omega)
          exact ⟨_, .char hdollar hescape h⟩

theorem Balanced.unique {g g' s s' : List UInt8} (h : Balanced g) (h' : Balanced g')
    (heq : g ++ closeParen :: s = g' ++ closeParen :: s') : g = g' ∧ s = s' := by
  have hlen : ∀ {g s : List UInt8}, Balanced g →
      computeKeyLengthFrom (g ++ closeParen :: s) 1 1 = g.length + 2 := by
    intro g s hg
    have hcl : ¬ (closeParen = openParen ∧ (1 + g.length = 0 ∨ 0 < 0 + 1)) :=
      fun h => absurd h.1 (by decide)
    rw [hg.keyLength, computeKeyLengthFrom, if_neg hcl, if_pos (Nat.succ_pos 0), if_pos rfl,
      if_pos rfl]
    omega
  have hsame : g.length = g'.length := by
    have h₁ := hlen (s := s) h
    rw [heq, hlen h'] at h₁
    omega
  obtain ⟨hg, hs⟩ := List.append_inj heq hsame
  exact ⟨hg, (List.cons.inj hs).2⟩

theorem name_unique {s s' : List UInt8} (hend : ∀ c ∈ s.head?, ¬ IsNameChar c)
    (hend' : ∀ c ∈ s'.head?, ¬ IsNameChar c) : ∀ {name name' : List UInt8},
      (∀ c ∈ name, IsNameChar c) → (∀ c ∈ name', IsNameChar c) → name ++ s = name' ++ s' →
        name = name' ∧ s = s' := by
  intro name
  induction name with
  | nil =>
    intro name' _ hname' heq
    cases name' with
    | nil => exact ⟨rfl, heq⟩
    | cons c name' =>
      rw [List.nil_append] at heq
      subst heq
      exact absurd (hname' c List.mem_cons_self) (hend c rfl)
  | cons c name ih =>
    intro name' hname hname' heq
    cases name' with
    | nil =>
      rw [List.nil_append] at heq
      subst heq
      exact absurd (hname c List.mem_cons_self) (hend' c rfl)
    | cons c' name' =>
      rw [List.cons_append, List.cons_append, List.cons.injEq] at heq
      obtain ⟨rfl, hs⟩ := ih (fun a ha => hname a (List.mem_cons_of_mem c ha))
        (fun a ha => hname' a (List.mem_cons_of_mem c' ha)) heq.2
      exact ⟨by rw [heq.1], hs⟩

theorem name_ne_paren {name s rest : List UInt8} (hname : ∀ c ∈ name, IsNameChar c)
    (hparen : name = [] → s.head? ≠ some openParen) : name ++ s ≠ openParen :: rest := by
  intro heq
  cases name with
  | nil =>
    rw [List.nil_append] at heq
    exact hparen rfl (by rw [heq]; rfl)
  | cons c name =>
    rw [List.cons_append, List.cons.injEq] at heq
    exact not_isNameChar_openParen (heq.1 ▸ hname c List.mem_cons_self)

theorem Reads.unique {s : List UInt8} {ps ps' : List Part} (h : Reads s ps) (h' : Reads s ps') :
    ps = ps' := by
  have hne : dollar ≠ backslash := by decide
  generalize hs : s = s' at h'
  induction h generalizing s' ps' with
  | nil =>
    cases h' <;> first | rfl | cases hs
  | escaped h ih =>
    cases h' with
    | nil => cases hs
    | escaped h' =>
      simp only [List.cons.injEq, true_and] at hs
      rw [ih _ hs h']
    | named _ _ _ _ => exact absurd (List.cons.inj hs).1.symm hne
    | command _ _ => exact absurd (List.cons.inj hs).1.symm hne
    | nothing _ _ => exact absurd (List.cons.inj hs).1.symm hne
    | char _ hescape _ =>
      obtain ⟨rfl, rfl⟩ := List.cons.inj hs
      exact absurd ⟨rfl, rfl⟩ hescape
  | named hname hend hparen h ih =>
    cases h' with
    | nil => cases hs
    | escaped _ => exact absurd (List.cons.inj hs).1 hne
    | named hname' hend' _ h' =>
      obtain ⟨rfl, hrest⟩ := name_unique hend hend' hname hname' (List.cons.inj hs).2
      rw [ih _ hrest h']
    | command _ _ => exact absurd (List.cons.inj hs).2 (name_ne_paren hname hparen)
    | nothing _ _ => exact absurd (List.cons.inj hs).2 (name_ne_paren hname hparen)
    | char hdollar _ _ => exact absurd (List.cons.inj hs).1.symm hdollar
  | command hg h ih =>
    cases h' with
    | nil => cases hs
    | escaped _ => exact absurd (List.cons.inj hs).1 hne
    | named hname' _ hparen' _ =>
      exact absurd (List.cons.inj hs).2.symm (name_ne_paren hname' hparen')
    | command hg' h' =>
      simp only [List.cons.injEq, true_and] at hs
      obtain ⟨rfl, hrest⟩ := hg.unique hg' hs
      rw [ih _ hrest h']
    | nothing hopen _ =>
      simp only [List.cons.injEq, true_and] at hs
      exact absurd hs.symm (hopen _ _ hg)
    | char hdollar _ _ => exact absurd (List.cons.inj hs).1.symm hdollar
  | nothing hopen h ih =>
    cases h' with
    | nil => cases hs
    | escaped _ => exact absurd (List.cons.inj hs).1 hne
    | named hname' _ hparen' _ =>
      exact absurd (List.cons.inj hs).2.symm (name_ne_paren hname' hparen')
    | command hg' _ =>
      simp only [List.cons.injEq, true_and] at hs
      exact absurd hs (hopen _ _ hg')
    | nothing _ h' =>
      rw [ih _ (List.cons.inj hs).2 h']
    | char hdollar _ _ => exact absurd (List.cons.inj hs).1.symm hdollar
  | char hdollar hescape h ih =>
    cases h' with
    | nil => cases hs
    | escaped _ =>
      obtain ⟨rfl, rfl⟩ := List.cons.inj hs
      exact absurd ⟨rfl, rfl⟩ hescape
    | named _ _ _ _ => exact absurd (List.cons.inj hs).1 hdollar
    | command _ _ => exact absurd (List.cons.inj hs).1 hdollar
    | nothing _ _ => exact absurd (List.cons.inj hs).1 hdollar
    | char _ _ h' =>
      obtain ⟨rfl, hrest⟩ := List.cons.inj hs
      rw [ih _ hrest h']

/-! ## Meaning -/

section

variable (env : RedEnv) (node : ExpandCtx)

/-- The value of a variable: of the default table, else of the environment, else empty. The date is
not there if it can't be made. -/
def variableValue (name : List UInt8) : Option CStr :=
  match vardefs.find? fun d => d.key.bytes = name with
  | some d =>
    match d.text env (some node) with
    | .ok value => value
    | .error _ => none
  | none => some ((env.secureGetenv (CStr.ofBytes name)).getD (CStr.lit ""))

/-- The meaning of the parts. Commands are allowed if `withcmd` is not 0, and never in the value of
a variable or in the text of a command. -/
inductive Denotes : (withcmd : Nat) → List Part → List UInt8 → Prop
  | nil {w : Nat} : Denotes w [] []
  | char {w : Nat} {c : UInt8} {ps : List Part} {t : List UInt8} (h : Denotes w ps t) :
      Denotes w (.char c :: ps) (c :: t)
  | named {w : Nat} {name u t : List UInt8} {value : CStr} {ps ps' : List Part}
      (hvalue : variableValue env node name = some value) (hread : Reads value.bytes ps')
      (hu : Denotes 0 ps' u) (h : Denotes w ps t) : Denotes w (.named name :: ps) (u ++ t)
  | command {w : Nat} {g u output t : List UInt8} {ps ps' : List Part} (hw : 0 < w)
      (hread : Reads g ps') (hu : Denotes 0 ps' u)
      (hrun : env.memFdExecCmd (CStr.ofBytes u) (w == 1) = some output) (h : Denotes w ps t) :
      Denotes w (.command g :: ps) (output ++ t)
  | refused {g t : List UInt8} {ps : List Part} (h : Denotes 0 ps t) :
      Denotes 0 (.command g :: ps) t
  | nothing {w : Nat} {ps : List Part} {t : List UInt8} (h : Denotes w ps t) :
      Denotes w (.nothing :: ps) t

/-- The meaning of a text. -/
def Denotation (withcmd : Nat) (text t : List UInt8) : Prop :=
  ∃ ps, Reads text ps ∧ Denotes env node withcmd ps t

end

variable {env : RedEnv} {node : ExpandCtx}

theorem Denotes.unique {w : Nat} {ps : List Part} {t t' : List UInt8} (h : Denotes env node w ps t)
    (h' : Denotes env node w ps t') : t = t' := by
  induction h generalizing t' with
  | nil => cases h'; rfl
  | char h ih =>
    cases h' with
    | char h' => rw [ih h']
  | named hvalue hread hu h ihu ih =>
    cases h' with
    | named hvalue' hread' hu' h' =>
      obtain rfl := Option.some.inj (hvalue.symm.trans hvalue')
      obtain rfl := hread.unique hread'
      rw [ihu hu', ih h']
  | command hw hread hu hrun h ihu ih =>
    cases h' with
    | command _ hread' hu' hrun' h' =>
      obtain rfl := hread.unique hread'
      obtain rfl := ihu hu'
      obtain rfl := Option.some.inj (hrun.symm.trans hrun')
      rw [ih h']
    | refused _ => exact absurd hw (Nat.lt_irrefl 0)
  | refused h ih =>
    cases h' with
    | command hw => exact absurd hw (Nat.lt_irrefl 0)
    | refused h' => exact ih h'
  | nothing h ih =>
    cases h' with
    | nothing h' => exact ih h'

theorem Denotation.unique {w : Nat} {text t t' : List UInt8} (h : Denotation env node w text t)
    (h' : Denotation env node w text t') : t = t' := by
  obtain ⟨ps, hread, h⟩ := h
  obtain ⟨ps', hread', h'⟩ := h'
  obtain rfl := hread.unique hread'
  exact h.unique h'

/-! ## Keys -/

/-- The names of variables: not empty, and without parentheses. -/
structure PlainNames (env : RedEnv) : Prop where
  noParen : ∀ name : CStr, openParen ∈ name.bytes ∨ closeParen ∈ name.bytes →
    env.secureGetenv name = none
  notEmpty : env.secureGetenv (CStr.ofBytes []) = none

theorem key_of_vardefs : ∀ d ∈ vardefs, d.key.bytes ≠ [] ∧ openParen ∉ d.key.bytes := by
  decide +kernel

theorem find_none {key : List UInt8} (h : key = [] ∨ openParen ∈ key) :
    (vardefs.find? fun d => d.key.bytes = key) = none := by
  rw [List.find?_eq_none]
  intro d hd hkey
  rw [decide_eq_true_eq] at hkey
  obtain ⟨hne, hparen⟩ := key_of_vardefs d hd
  rw [hkey] at hne hparen
  exact h.elim hne hparen

theorem Reads.name {s : List UInt8} {ps : List Part} (h : Reads s ps) {name : List UInt8}
    (hmem : .named name ∈ ps) : ∀ c ∈ name, IsNameChar c := by
  induction h with
  | nil => cases hmem
  | named hname _ _ _ ih =>
    rcases List.mem_cons.mp hmem with heq | hmem
    · cases heq
      exact hname
    · exact ih hmem
  | _ =>
    rename_i ih
    rcases List.mem_cons.mp hmem with heq | hmem
    · cases heq
    · exact ih hmem

theorem defaultMeaning_empty (henv : PlainNames env) :
    defaultMeaning env (some node) [] = .nothing := by
  rw [defaultMeaning, find_none (.inl rfl)]
  dsimp only
  rw [henv.notEmpty]

/-- Where commands are refused, a group stands for nothing. -/
theorem defaultMeaning_group (henv : PlainNames env) (g : List UInt8) :
    defaultMeaning env (some node) (openParen :: (g ++ [closeParen])) = .nothing := by
  have hparen : openParen ∈ (CStr.ofBytes (openParen :: (g ++ [closeParen]))).bytes := by
    change openParen ∈ (openParen :: (g ++ [closeParen])).takeWhile (· != 0)
    rw [List.takeWhile_cons_of_pos (by decide)]
    exact List.mem_cons_self
  rw [defaultMeaning, find_none (.inr List.mem_cons_self)]
  dsimp only
  rw [henv.noParen _ (.inl hparen)]

theorem keyMeaning_name {c : Bool} {name : List UInt8} (hname : ∀ c ∈ name, IsNameChar c) :
    keyMeaning env (some node) c name = defaultMeaning env (some node) name := by
  refine if_neg fun h => ?_
  cases name with
  | nil => cases h.2.1
  | cons a name =>
    have ha : a = openParen := Option.some.inj h.2.1
    exact not_isNameChar_openParen (ha ▸ hname a List.mem_cons_self)

theorem keyMeaning_group (g : List UInt8) :
    keyMeaning env (some node) true (openParen :: (g ++ [closeParen])) = .command g := by
  rw [keyMeaning, if_pos ⟨by simp, rfl, rfl⟩, List.tail_cons, List.dropLast_concat]

theorem variableValue_of_text {name v : List UInt8}
    (h : defaultMeaning env (some node) name = .text v) :
    ∃ value, variableValue env node name = some value ∧ value.bytes = v := by
  unfold defaultMeaning at h
  unfold variableValue
  cases hfind : vardefs.find? fun d => d.key.bytes = name with
  | some d =>
    rw [hfind] at h
    dsimp only at h ⊢
    cases htext : d.text env (some node) with
    | error f =>
      rw [htext] at h
      cases h
    | ok value =>
      rw [htext] at h
      cases value with
      | none => cases h
      | some value =>
        dsimp only at h
        split at h
        · cases h
          exact ⟨value, rfl, rfl⟩
        · cases h
  | none =>
    rw [hfind] at h
    dsimp only at h ⊢
    cases hvalue : env.secureGetenv (CStr.ofBytes name) with
    | none =>
      rw [hvalue] at h
      cases h
    | some value =>
      rw [hvalue] at h
      dsimp only at h
      split at h
      · cases h
      · cases h
        exact ⟨value, rfl, rfl⟩

theorem variableValue_of_nothing {name : List UInt8}
    (h : defaultMeaning env (some node) name = .nothing) :
    ∃ value, variableValue env node name = some value ∧ value.bytes = [] := by
  unfold defaultMeaning at h
  unfold variableValue
  cases hfind : vardefs.find? fun d => d.key.bytes = name with
  | some d =>
    rw [hfind] at h
    dsimp only at h
    split at h
    · cases h
    · cases h
    · split at h <;> cases h
  | none =>
    rw [hfind] at h
    dsimp only at h ⊢
    cases hvalue : env.secureGetenv (CStr.ofBytes name) with
    | none => exact ⟨_, rfl, rfl⟩
    | some value =>
      rw [hvalue] at h
      dsimp only at h
      split at h
      · exact ⟨value, rfl, ‹_›⟩
      · cases h

/-! ## Successful expansions -/

/-- No command that the parts run puts out a zero byte. -/
def Whole (env : RedEnv) (node : ExpandCtx) (w : Nat) (ps : List Part) : Prop :=
  0 < w → ∀ g ps' u output, .command g ∈ ps → Reads g ps' → Denotes env node 0 ps' u →
    env.memFdExecCmd (CStr.ofBytes u) (w == 1) = some output → (0 : UInt8) ∉ output

theorem Whole.tail {w : Nat} {p : Part} {ps : List Part} (h : Whole env node w (p :: ps)) :
    Whole env node w ps :=
  fun hw g ps' u output hmem => h hw g ps' u output (List.mem_cons_of_mem p hmem)

theorem Whole.cons {w : Nat} {p : Part} {ps : List Part} (h : Whole env node w ps)
    (hp : 0 < w → ∀ g ps' u output, p = .command g → Reads g ps' → Denotes env node 0 ps' u →
      env.memFdExecCmd (CStr.ofBytes u) (w == 1) = some output → (0 : UInt8) ∉ output) :
    Whole env node w (p :: ps) := by
  intro hw g ps' u output hmem
  rcases List.mem_cons.mp hmem with heq | hmem
  · exact hp hw g ps' u output heq.symm
  · exact h hw g ps' u output hmem

theorem whole_zero (ps : List Part) : Whole env node 0 ps := fun h => absurd h (Nat.lt_irrefl 0)

theorem execCmd_eq_some {command : CStr} {room : Nat} {restricted : Bool} {out : List UInt8}
    (h : Conf.execCmd env command room restricted = some out) :
    ∃ output, env.memFdExecCmd command restricted = some output ∧
      out = output.takeWhile (· != 0) := by
  unfold Conf.execCmd at h
  cases hrun : env.memFdExecCmd command restricted with
  | none =>
    rw [hrun] at h
    cases h
  | some output =>
    rw [hrun] at h
    dsimp only at h
    split at h
    · cases h
    · exact ⟨output, rfl, (Option.some.inj h).symm⟩

theorem takeWhile_whole {output : List UInt8} (h : (0 : UInt8) ∉ output) :
    output.takeWhile (· != 0) = output := by
  refine List.takeWhile_eq_self_iff.mpr fun b hb => ?_
  simpa using fun e : b = 0 => h (e ▸ hb)

theorem meaning_part (node : ExpandCtx) (henv : PlainNames env) (c : Bool) {p : Part}
    {key : List UInt8} (hname : ∀ name, p = .named name → ∀ a ∈ name, IsNameChar a)
    (hp : p.token = .ref key) :
    (∃ name, p = .named name ∧ key = name ∧
      keyMeaning env (some node) c key = defaultMeaning env (some node) name) ∨
    (∃ g, p = .command g ∧
      keyMeaning env (some node) c key = if c = true then .command g else .nothing) ∨
    (p = .nothing ∧ keyMeaning env (some node) c key = .nothing) := by
  cases p with
  | char a => cases hp
  | named name =>
    cases hp
    exact .inl ⟨_, rfl, rfl, keyMeaning_name (hname _ rfl)⟩
  | command g =>
    cases hp
    refine .inr (.inl ⟨g, rfl, ?_⟩)
    cases c with
    | true => exact keyMeaning_group g
    | false => exact (keyMeaning_values _).trans (defaultMeaning_group henv g)
  | nothing =>
    cases hp
    refine .inr (.inr ⟨rfl, ?_⟩)
    have hempty : keyMeaning env (some node) c [] = defaultMeaning env (some node) [] :=
      if_neg fun h => absurd h.1 (by decide)
    rw [hempty, defaultMeaning_empty henv]

/-- Parts that are expanded with or without commands. -/
structure Given (env : RedEnv) (node : ExpandCtx) (restricted c : Bool) (w : Nat) (ps : List Part) :
    Prop where
  commands : c = decide (0 < w)
  restricted : 0 < w → restricted = (w == 1)
  names : ∀ name, .named name ∈ ps → ∀ a ∈ name, IsNameChar a

theorem Given.tail {restricted c : Bool} {w : Nat} {p : Part} {ps : List Part}
    (h : Given env node restricted c w (p :: ps)) : Given env node restricted c w ps :=
  ⟨h.commands, h.restricted, fun name hmem => h.names name (List.mem_cons_of_mem p hmem)⟩

theorem Given.head {restricted c : Bool} {w : Nat} {p : Part} {ps : List Part}
    (h : Given env node restricted c w (p :: ps)) :
    ∀ name, p = .named name → ∀ a ∈ name, IsNameChar a :=
  fun name hp => h.names name (hp ▸ List.mem_cons_self)

theorem given_value {restricted : Bool} {s : List UInt8} {ps : List Part} (h : Reads s ps) :
    Given env node restricted false 0 ps :=
  ⟨rfl, fun hw => absurd hw (Nat.lt_irrefl 0), fun _ hmem => h.name hmem⟩

theorem Given.of_command {restricted c : Bool} {w : Nat} {ps : List Part}
    (h : Given env node restricted c w ps) (hc : c = true) : 0 < w ∧ restricted = (w == 1) := by
  have hw : 0 < w := of_decide_eq_true (h.commands ▸ hc)
  exact ⟨hw, h.restricted hw⟩

theorem Given.without {restricted c : Bool} {w : Nat} {ps : List Part}
    (h : Given env node restricted c w ps) (hc : c ≠ true) : w = 0 := by
  by_contra hw
  exact hc (h.commands.trans (decide_eq_true (Nat.pos_of_ne_zero hw)))

/-! ### The front part, by what its key stands for -/

section
variable {restricted c : Bool} {w : Nat} {p : Part} {ps : List Part} {key : List UInt8}

theorem Given.front_nothing (henv : PlainNames env)
    (h : Given env node restricted c w (p :: ps)) (hp : p.token = .ref key)
    (hkey : keyMeaning env (some node) c key = .nothing) :
    (∃ name value, p = .named name ∧ variableValue env node name = some value ∧
      value.bytes = []) ∨ (∃ g, p = .command g ∧ w = 0) ∨ p = .nothing := by
  rcases meaning_part node henv c h.head hp with
      ⟨name, rfl, rfl, hm⟩ | ⟨g, rfl, hm⟩ | ⟨rfl, _⟩
  · obtain ⟨value, hvalue, hnil⟩ := variableValue_of_nothing (hm.symm.trans hkey)
    exact .inl ⟨_, value, rfl, hvalue, hnil⟩
  · refine .inr (.inl ⟨g, rfl, h.without fun hc => ?_⟩)
    rw [if_pos hc] at hm
    cases hm.symm.trans hkey
  · exact .inr (.inr rfl)

theorem Given.front_text (henv : PlainNames env) {v : List UInt8}
    (h : Given env node restricted c w (p :: ps)) (hp : p.token = .ref key)
    (hkey : keyMeaning env (some node) c key = .text v) :
    ∃ name value, p = .named name ∧ variableValue env node name = some value ∧
      value.bytes = v := by
  rcases meaning_part node henv c h.head hp with
      ⟨name, rfl, rfl, hm⟩ | ⟨g, rfl, hm⟩ | ⟨rfl, hm⟩
  · obtain ⟨value, hvalue, hbytes⟩ := variableValue_of_text (hm.symm.trans hkey)
    exact ⟨_, value, rfl, hvalue, hbytes⟩
  · split at hm <;> cases hm.symm.trans hkey
  · cases hm.symm.trans hkey

theorem Given.front_command (henv : PlainNames env) {group : List UInt8}
    (h : Given env node restricted c w (p :: ps)) (hp : p.token = .ref key)
    (hkey : keyMeaning env (some node) c key = .command group) :
    p = .command group ∧ 0 < w ∧ restricted = (w == 1) := by
  rcases meaning_part node henv c h.head hp with
      ⟨name, rfl, rfl, hm⟩ | ⟨g, rfl, hm⟩ | ⟨rfl, hm⟩
  · exact absurd (hm.symm.trans hkey) (defaultMeaning_ne_command _ _)
  · split at hm
    · rename_i hc
      cases hm.symm.trans hkey
      exact ⟨rfl, h.of_command hc⟩
    · cases hm.symm.trans hkey
  · cases hm.symm.trans hkey

end

/-- **What is written** is the meaning, if the commands put out no zero byte. -/
theorem denotes_of_expands (henv : PlainNames env) {restricted c : Bool} {r : Nat}
    {ts : List (Token UInt8)} {t : List UInt8}
    (h : Expands (language env (some node) restricted) c r ts t) :
    ∀ {w : Nat} {ps : List Part}, Given env node restricted c w ps →
      ps.map Part.token = ts → Whole env node w ps → Denotes env node w ps t := by
  induction h with
  | nil =>
    intro w ps _ hts _
    obtain rfl := List.map_eq_nil_iff.mp hts
    exact .nil
  | char h ih =>
    intro w ps hgiven hts hwhole
    obtain ⟨p, ps, rfl, hp, hrests⟩ := List.map_eq_cons_iff.mp hts
    cases p with
    | char a =>
      cases hp
      exact .char (ih hgiven.tail hrests hwhole.tail)
    | _ => cases hp
  | nothing hkey h ih =>
    intro w ps hgiven hts hwhole
    obtain ⟨p, ps, rfl, hp, hrests⟩ := List.map_eq_cons_iff.mp hts
    have hrest := ih hgiven.tail hrests hwhole.tail
    rcases hgiven.front_nothing henv hp hkey with
      ⟨name, value, rfl, hvalue, hnil⟩ | ⟨g, rfl, rfl⟩ | rfl
    · exact .named hvalue (hnil ▸ Reads.nil) .nil hrest
    · exact .refused hrest
    · exact .nothing hrest
  | text hkey hvalue h ihv ih =>
    intro w ps hgiven hts hwhole
    obtain ⟨p, ps, rfl, hp, hrests⟩ := List.map_eq_cons_iff.mp hts
    have hrest := ih hgiven.tail hrests hwhole.tail
    obtain ⟨name, value, rfl, hval, rfl⟩ := hgiven.front_text henv hp hkey
    obtain ⟨ps', hread⟩ := exists_reads _ value.bytes (Nat.le_refl _)
    exact .named hval hread (ihv (given_value hread) hread.tokens (whole_zero ps')) hrest
  | @command c r key group u out ts t hkey hgroup hsize hrun h ihg ih =>
    intro w ps hgiven hts hwhole
    obtain ⟨p, ps, rfl, hp, hrests⟩ := List.map_eq_cons_iff.mp hts
    have hrest := ih hgiven.tail hrests hwhole.tail
    obtain ⟨rfl, hw, hres⟩ := hgiven.front_command henv hp hkey
    obtain ⟨ps', hread⟩ := exists_reads _ group (Nat.le_refl _)
    have hu := ihg (given_value hread) hread.tokens (whole_zero ps')
    obtain ⟨output, hout, rfl⟩ := execCmd_eq_some hrun
    rw [hres] at hout
    rw [takeWhile_whole (hwhole hw group ps' u output List.mem_cons_self hread hu hout)]
    exact .command hw hread hu hout hrest

theorem length_takeWhile_lt {output : List UInt8} (h : (0 : UInt8) ∈ output) :
    (output.takeWhile (· != 0)).length < output.length := by
  refine Nat.lt_of_le_of_ne (List.takeWhile_prefix _).length_le fun heq => ?_
  have hself := (List.takeWhile_prefix (p := (· != 0)) (l := output)).eq_of_length heq
  rw [← hself] at h
  simpa using List.mem_takeWhile_imp h

/-- What is written is shorter than the meaning, unless the commands put out no zero byte. -/
theorem whole_of_length (henv : PlainNames env) {restricted c : Bool} {r : Nat}
    {ts : List (Token UInt8)} {t : List UInt8}
    (h : Expands (language env (some node) restricted) c r ts t) :
    ∀ {w : Nat} {ps : List Part} {t' : List UInt8}, Given env node restricted c w ps →
      ps.map Part.token = ts → Denotes env node w ps t' →
        t.length ≤ t'.length ∧ (t.length = t'.length → Whole env node w ps) := by
  induction h with
  | nil =>
    intro w ps t' _ hts hd
    obtain rfl := List.map_eq_nil_iff.mp hts
    exact ⟨Nat.zero_le _, fun _ _ _ _ _ _ hmem => nomatch hmem⟩
  | char h ih =>
    intro w ps t' hgiven hts hd
    obtain ⟨p, ps, rfl, hp, hrests⟩ := List.map_eq_cons_iff.mp hts
    cases hd with
    | char hd =>
      obtain ⟨hle, hwhole⟩ := ih hgiven.tail hrests hd
      refine ⟨Nat.succ_le_succ hle, fun heq => ?_⟩
      exact (hwhole (Nat.succ.inj heq)).cons fun _ _ _ _ _ h => nomatch h
    | _ => cases hp
  | nothing hkey h ih =>
    intro w ps t' hgiven hts hd
    obtain ⟨p, ps, rfl, hp, hrests⟩ := List.map_eq_cons_iff.mp hts
    rcases hgiven.front_nothing henv hp hkey with
      ⟨name, value, rfl, hvalue, hnil⟩ | ⟨g, rfl, rfl⟩ | rfl
    · cases hd with
      | named hvalue' hread hu hd =>
        obtain rfl := Option.some.inj (hvalue.symm.trans hvalue')
        rw [hnil] at hread
        cases hread
        cases hu
        obtain ⟨hle, hwhole⟩ := ih hgiven.tail hrests hd
        exact ⟨hle, fun heq => (hwhole heq).cons fun _ _ _ _ _ h => nomatch h⟩
    · cases hd with
      | command hw => exact absurd hw (Nat.lt_irrefl 0)
      | refused hd => exact ⟨(ih hgiven.tail hrests hd).1, fun _ => whole_zero _⟩
    · cases hd with
      | nothing hd =>
        obtain ⟨hle, hwhole⟩ := ih hgiven.tail hrests hd
        exact ⟨hle, fun heq => (hwhole heq).cons fun _ _ _ _ _ h => nomatch h⟩
  | text hkey hvalue h ihv ih =>
    intro w ps t' hgiven hts hd
    obtain ⟨p, ps, rfl, hp, hrests⟩ := List.map_eq_cons_iff.mp hts
    obtain ⟨name, value, rfl, hval, rfl⟩ := hgiven.front_text henv hp hkey
    cases hd with
    | named hval' hread hu hd =>
      obtain rfl := Option.some.inj (hval.symm.trans hval')
      obtain rfl := hu.unique (denotes_of_expands henv hvalue (given_value hread) hread.tokens
        (whole_zero _))
      obtain ⟨hle, hwhole⟩ := ih hgiven.tail hrests hd
      rw [List.length_append, List.length_append]
      refine ⟨Nat.add_le_add_left hle _, fun heq => ?_⟩
      exact (hwhole (Nat.add_left_cancel heq)).cons fun _ _ _ _ _ h => nomatch h
  | @command c r key group u out ts t hkey hgroup hsize hrun h ihg ih =>
    intro w ps t' hgiven hts hd
    obtain ⟨p, ps, rfl, hp, hrests⟩ := List.map_eq_cons_iff.mp hts
    obtain ⟨rfl, hw, hres⟩ := hgiven.front_command henv hp hkey
    cases hd with
    | @command _ _ u' output t₁ _ ps' _ hread hu hout hd =>
      have hu' := denotes_of_expands henv hgroup (given_value hread) hread.tokens (whole_zero ps')
      obtain rfl := hu.unique hu'
      obtain ⟨output', hout', rfl⟩ := execCmd_eq_some hrun
      rw [hres] at hout'
      obtain rfl := Option.some.inj (hout.symm.trans hout')
      obtain ⟨hle, hwhole⟩ := ih hgiven.tail hrests hd
      have hcut : (output.takeWhile (· != 0)).length ≤ output.length :=
        (List.takeWhile_prefix _).length_le
      rw [List.length_append, List.length_append]
      refine ⟨Nat.add_le_add hcut hle, fun heq => ?_⟩
      refine (hwhole (by omega)).cons fun _ g' ps'' u'' output'' hg hread' hu'' hout'' h0 => ?_
      cases hg
      obtain rfl := hread.unique hread'
      obtain rfl := hu'.unique hu''
      obtain rfl := Option.some.inj (hout.symm.trans hout'')
      have := length_takeWhile_lt h0
      omega
    | refused _ => exact absurd hw (Nat.lt_irrefl 0)

/-! ## The result -/

theorem Wrote.front {s s' : Output} {t : List UInt8} (h : Wrote s t s') :
    slice s'.outputS 0 s.idxOut = slice s.outputS 0 s.idxOut := by
  have hle : s.idxOut ≤ s'.idxOut := by rw [h.idxOut]; exact Nat.le_add_right _ _
  have htake := Layered.Buffer.take_slice s'.outputS (i := 0) (j := s'.idxOut) s.idxOut
    (by rw [Nat.zero_add]; exact hle)
  rw [h.outputS, Nat.zero_add, List.take_left' (by simp)] at htake
  exact htake.symm

theorem Wrote.text {s s' : Output} {t : List UInt8} (h : Wrote s t s') :
    slice s'.outputS s.idxOut s'.idxOut = t := by
  have hdrop := Layered.Buffer.drop_slice s'.outputS 0 s'.idxOut s.idxOut
  rw [h.outputS, Nat.zero_add, List.drop_left' (by simp)] at hdrop
  exact hdrop.symm

variable {junk : Buffer UInt8}

/-- A run that returns 0 has written what the tokens are replaced by. -/
theorem expands_of_run {node : Option ExpandCtx} {depth maxlen withcmd : Nat} {inputS : CStr}
    {s s' : Output} (hs : s.idxOut ≤ maxlen)
    (h : defaultsExpand env junk node depth inputS.bytes maxlen withcmd s = .ok true s') :
    ∃ t, Expands (language env node (withcmd == 1)) (decide (0 < withcmd)) (maxlen - s.idxOut)
      (tokensFrom inputS.bytes 0) t ∧ Wrote s t s' := by
  have hagrees := @defaultsExpand_agrees env node junk depth inputS maxlen withcmd s hs
  unfold Agrees at hagrees
  rw [h] at hagrees
  split at hagrees
  · rename_i t hout
    obtain ⟨s'', hrun, hwrote⟩ := hagrees
    cases hrun
    exact ⟨t, eval_sound hout, hwrote⟩
  · obtain ⟨s'', hrun⟩ := hagrees
    cases hrun
  · obtain ⟨s'', hrun⟩ := hagrees
    cases hrun
  · obtain ⟨s'', hrun⟩ := hagrees
    cases hrun

theorem run_of_expands {node : Option ExpandCtx} {maxlen withcmd : Nat} {inputS : CStr}
    {s : Output} {t : List UInt8} (hs : s.idxOut ≤ maxlen)
    (h : Expands (language env node (withcmd == 1)) (decide (0 < withcmd)) (maxlen - s.idxOut)
      (tokensFrom inputS.bytes 0) t) :
    ∃ depth s', defaultsExpand env junk node depth inputS.bytes maxlen withcmd s = .ok true s' ∧
      Wrote s t s' := by
  obtain ⟨depth, hout⟩ := h.complete
  have hagrees := @defaultsExpand_agrees env node junk depth inputS maxlen withcmd s hs
  rw [hout] at hagrees
  exact ⟨depth, hagrees⟩

/-- What is expected of `defaultsExpand` where it returns 0. -/
def MeetsDenotation (env : RedEnv) (node : ExpandCtx) (junk : Buffer UInt8) (inputS : CStr)
    (maxlen withcmd : Nat) (s : Output) : Prop :=
  ∀ depth s',
    defaultsExpand env junk (some node) depth inputS.bytes maxlen withcmd s = .ok true s' →
    (∀ t, Denotation env node withcmd inputS.bytes t ↔ t = slice s'.outputS s.idxOut s'.idxOut) ∧
      s.idxOut ≤ s'.idxOut ∧ s'.idxOut ≤ maxlen ∧
        slice s'.outputS 0 s.idxOut = slice s.outputS 0 s.idxOut

/-- Where the expansion fits, no command of the input puts out a zero byte. -/
def WholeCommands (env : RedEnv) (node : ExpandCtx) (inputS : CStr) (room withcmd : Nat) : Prop :=
  ∀ t, Expands (language env (some node) (withcmd == 1)) (decide (0 < withcmd)) room
    (tokensFrom inputS.bytes 0) t → ∀ ps, Reads inputS.bytes ps → Whole env node withcmd ps

theorem given_input {withcmd : Nat} {s : List UInt8} {ps : List Part} (h : Reads s ps) :
    Given env node (withcmd == 1) (decide (0 < withcmd)) withcmd ps :=
  ⟨rfl, fun _ => rfl, fun _ hmem => h.name hmem⟩

/-- **The expansion** of a string is its meaning, exactly when the commands that it runs put out no
zero byte. -/
theorem meetsDenotation_iff (env : RedEnv) (node : ExpandCtx) (junk : Buffer UInt8) (inputS : CStr)
    (maxlen withcmd : Nat) (s : Output) (henv : PlainNames env) (hs : s.idxOut ≤ maxlen) :
    MeetsDenotation env node junk inputS maxlen withcmd s ↔
      WholeCommands env node inputS (maxlen - s.idxOut) withcmd := by
  constructor
  · intro h t hexpands ps hread
    obtain ⟨depth, s', hrun, hwrote⟩ : ∃ depth s',
        defaultsExpand env junk (some node) depth inputS.bytes maxlen withcmd s = .ok true s' ∧
          Wrote s t s' := run_of_expands hs hexpands
    obtain ⟨ps', hread', hdenotes⟩ := ((h depth s' hrun).1 t).mpr hwrote.text.symm
    obtain rfl := hread.unique hread'
    exact (whole_of_length henv hexpands (given_input hread) hread.tokens hdenotes).2 rfl
  · intro h depth s' hrun
    obtain ⟨t, hexpands, hwrote⟩ := expands_of_run hs hrun
    obtain ⟨ps, hread⟩ := exists_reads _ inputS.bytes (Nat.le_refl _)
    have hdenotes := denotes_of_expands henv hexpands (given_input hread) hread.tokens
      (h t hexpands ps hread)
    have hlen := hexpands.length_le
    refine ⟨fun t' => ?_, ?_, ?_, hwrote.front⟩
    · rw [hwrote.text]
      exact ⟨fun h' => h'.unique ⟨ps, hread, hdenotes⟩, fun h' => h' ▸ ⟨ps, hread, hdenotes⟩⟩
    · rw [hwrote.idxOut]
      exact Nat.le_add_right _ _
    · rw [hwrote.idxOut]
      omega

/-- A node `/n` with the alias `a`. -/
def aliasCtx : ExpandCtx := ⟨some { nodeAlias := .lit "a" }, .lit "/n", none⟩

/-- An environment in which every command has the same output. -/
def outputEnv (output : List UInt8) : RedEnv :=
  { emptyEnv with memFdExecCmd := fun _ _ => some output }

theorem plainNames_outputEnv (output : List UInt8) : PlainNames (outputEnv output) :=
  ⟨fun _ _ => rfl, rfl⟩

theorem reads_command : Reads (CStr.lit "$(c)").bytes [.command (CStr.lit "c").bytes] := by
  have htext : (CStr.lit "$(c)").bytes = dollar :: openParen :: ([0x63] ++ closeParen :: []) := by
    decide +kernel
  have hgroup : (CStr.lit "c").bytes = [0x63] := by decide +kernel
  rw [htext, hgroup]
  exact .command (.char (by decide) (by decide) .nil) .nil

theorem meetsDenotation_command :
    MeetsDenotation (outputEnv (CStr.lit "ok").bytes) aliasCtx (fun _ => 0) (.lit "$(c)") 512 1
      ⟨fun _ => 0, 0⟩ := by
  refine (meetsDenotation_iff _ _ _ _ _ _ _ (plainNames_outputEnv _) (by decide)).mpr ?_
  intro t _ ps hread
  obtain rfl := reads_command.unique hread
  intro _ g ps' u output _ _ _ hrun
  obtain rfl := Option.some.inj hrun
  decide +kernel

/-- The output of the command is cut at its zero byte, with the result 0. -/
theorem zeroByte_cut :
    PlainNames (outputEnv [0x61, 0, 0x62]) ∧
    Denotation (outputEnv [0x61, 0, 0x62]) aliasCtx 1 (CStr.lit "$(c)").bytes [0x61, 0, 0x62] ∧
    ¬ MeetsDenotation (outputEnv [0x61, 0, 0x62]) aliasCtx (fun _ => 0) (.lit "$(c)") 512 1
      ⟨fun _ => 0, 0⟩ := by
  have hgroup : (CStr.lit "c").bytes = [0x63] := by decide +kernel
  have hreads : Reads [0x63] [.char 0x63] := .char (by decide) (by decide) .nil
  have hmeaning : Denotation (outputEnv [0x61, 0, 0x62]) aliasCtx 1 (CStr.lit "$(c)").bytes
      ([0x61, 0, 0x62] ++ []) :=
    ⟨_, reads_command, .command Nat.one_pos (hgroup ▸ hreads) (.char .nil) rfl .nil⟩
  refine ⟨plainNames_outputEnv _, hmeaning, fun h => ?_⟩
  have hends : endsIn (defaultsExpand (outputEnv [0x61, 0, 0x62]) (fun _ => 0) (some aliasCtx) 1
      (CStr.lit "$(c)").bytes 512 1) ⟨fun _ => 0, 0⟩ (fun ok s => ok && s.idxOut == 1) = true := by
    decide +kernel
  obtain ⟨ok, s', hrun, htest⟩ := of_endsIn hends
  rw [Bool.and_eq_true, beq_iff_eq] at htest
  obtain ⟨rfl, hidx⟩ := htest
  have hlen := congrArg List.length (((h 1 s' hrun).1 _).mp hmeaning)
  rw [Layered.Buffer.length_slice, hidx] at hlen
  exact absurd hlen (by decide)

end Stored
end Conf
end RedPak
