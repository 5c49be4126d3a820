import RedPak.Layered.Buffer
import RedPak.Layered.Fields
import RedPak.Layered.Trim

/-!
# Layered.Words

The words of a text, between elements of a kind that separates.

* `words_joined`: joined words are found again.
* `mem_words_iff`: a word stands between separators.
* `words_slice`: two scans over a buffer find its next word.
-/

namespace Layered

variable {α : Type*} {p : α → Bool}

/-- The words of a text, in order. -/
def words (p : α → Bool) (text : List α) : List (List α) :=
  (text.splitOnP p).filter fun w => !w.isEmpty

structure IsWord (p : α → Bool) (w : List α) : Prop where
  ne_nil : w ≠ []
  free : ∀ c ∈ w, p c = false

@[simp] theorem words_nil : words p [] = [] := by
  simp [words]

theorem words_append_sep {s : α} (hs : p s = true) (l m : List α) :
    words p (l ++ s :: m) = words p l ++ words p m := by
  rw [words, List.splitOnP_append_cons _ _ hs, List.filter_append]
  rfl

theorem words_sep_cons {s : α} (hs : p s = true) (l : List α) : words p (s :: l) = words p l := by
  simpa using words_append_sep hs [] l

theorem words_concat_sep {s : α} (hs : p s = true) (l : List α) :
    words p (l ++ [s]) = words p l := by
  simpa using words_append_sep hs l []

theorem IsWord.words_eq {w : List α} (h : IsWord p w) : words p w = [w] := by
  rw [words, List.splitOnP_eq_singleton h.free]
  simp [h.ne_nil]

theorem words_dropWhile (l : List α) : words p (l.dropWhile p) = words p l := by
  induction l with
  | nil => rfl
  | cons c l ih =>
    cases hc : p c with
    | true => rw [List.dropWhile_cons_of_pos hc, ih, words_sep_cons hc]
    | false => rw [List.dropWhile_cons_of_neg (by simp [hc])]

theorem words_eq_cons {l : List α} (h : l.takeWhile (!p ·) ≠ []) :
    words p l = l.takeWhile (!p ·) :: words p (l.dropWhile (!p ·)).tail := by
  have hw : IsWord p (l.takeWhile (!p ·)) :=
    ⟨h, fun c hc => by simpa using List.mem_takeWhile_imp hc⟩
  have hl : l.takeWhile (!p ·) ++ l.dropWhile (!p ·) = l := List.takeWhile_append_dropWhile
  cases hd : l.dropWhile (!p ·) with
  | nil =>
    rw [hd, List.append_nil] at hl
    rw [hl] at hw ⊢
    simp [hw.words_eq]
  | cons s rest =>
    have hs : p s = true := by
      have := List.head_dropWhile_not (!p ·) (l := l) (by simp [hd])
      simpa [hd] using this
    rw [hd] at hl
    conv_lhs => rw [← hl]
    rw [words_append_sep hs, hw.words_eq]
    rfl

theorem words_joined {s : α} (hs : p s = true) {ws : List (List α)} (h : ∀ w ∈ ws, IsWord p w) :
    words p (joined s ws) = ws := by
  induction ws with
  | nil => simp
  | cons w ws ih =>
    have hw : IsWord p w := h w (by simp)
    cases ws with
    | nil => simp [hw.words_eq]
    | cons w' ws =>
      have hrest := ih fun v hv => h v (List.mem_cons_of_mem _ hv)
      simp only [joined, List.intercalate_cons_cons] at hrest ⊢
      rw [List.append_assoc, List.singleton_append, words_append_sep hs, hw.words_eq, hrest]
      rfl

theorem mem_words_append {w pre post : List α} (hw : IsWord p w)
    (hpre : ∀ c ∈ pre.getLast?, p c = true) (hpost : ∀ c ∈ post.head?, p c = true) :
    w ∈ words p (pre ++ w ++ post) := by
  have hfirst : w ∈ words p (w ++ post) := by
    cases post with
    | nil => rw [List.append_nil, hw.words_eq]; exact List.mem_singleton_self w
    | cons s post =>
      rw [words_append_sep (hpost s rfl), hw.words_eq]
      exact List.mem_cons_self
  rw [List.append_assoc]
  rcases List.eq_nil_or_concat pre with rfl | ⟨before, s, rfl⟩
  · exact hfirst
  · have hs : p s = true := hpre s (by simp)
    rw [List.concat_eq_append, List.append_assoc, List.singleton_append, words_append_sep hs]
    exact List.mem_append_right _ hfirst

theorem words_split {l : List α} (hne : l.dropWhile p ≠ []) : ∃ w behind,
    l.dropWhile p = w ++ behind ∧ IsWord p w ∧ (∀ c ∈ behind.head?, p c = true) ∧
      words p l = w :: words p behind.tail := by
  have hsplit : (l.dropWhile p).takeWhile (!p ·) ++ (l.dropWhile p).dropWhile (!p ·) =
      l.dropWhile p := List.takeWhile_append_dropWhile
  have hword : (l.dropWhile p).takeWhile (!p ·) ≠ [] := by
    obtain ⟨c, part, hpart⟩ := List.exists_cons_of_ne_nil hne
    have hc : p c = false := head?_dropWhile l c (by rw [hpart]; rfl)
    rw [hpart, List.takeWhile_cons_of_pos (by rw [hc]; rfl)]
    exact List.cons_ne_nil _ _
  refine ⟨_, _, hsplit.symm, ⟨hword, fun c hc => ?_⟩, fun c hc => ?_, ?_⟩
  · simpa using List.mem_takeWhile_imp hc
  · simpa using head?_dropWhile _ c hc
  · rw [← words_dropWhile, words_eq_cons hword]

theorem exists_of_mem_words {w text : List α} (h : w ∈ words p text) : IsWord p w ∧
    ∃ pre post, text = pre ++ w ++ post ∧ (∀ c ∈ pre.getLast?, p c = true) ∧
      ∀ c ∈ post.head?, p c = true := by
  induction hn : text.length using Nat.strong_induction_on generalizing text with
  | _ n ih =>
    by_cases hne : text.dropWhile p = []
    · rw [← words_dropWhile, hne, words_nil] at h
      cases h
    obtain ⟨first, behind, hfirst, hword, hhead, hwords⟩ := words_split hne
    have htext : text = text.takeWhile p ++ (first ++ behind) := by
      rw [← hfirst, List.takeWhile_append_dropWhile]
    rw [hwords] at h
    rcases List.mem_cons.mp h with rfl | h
    · refine ⟨hword, text.takeWhile p, behind, by rw [List.append_assoc, ← htext], ?_, hhead⟩
      exact fun c hc => List.mem_takeWhile_imp (List.mem_of_getLast? hc)
    · cases behind with
      | nil =>
        rw [List.tail_nil, words_nil] at h
        cases h
      | cons s rest =>
        have hlt : rest.length < n := by
          have hle := congrArg List.length htext
          simp only [List.length_append, List.length_cons] at hle
          omega
        obtain ⟨hw, pre, post, hrest, hpre, hpost⟩ := ih rest.length hlt h rfl
        refine ⟨hw, text.takeWhile p ++ first ++ s :: pre, post, ?_, fun c hc => ?_, hpost⟩
        · conv_lhs => rw [htext, List.tail_cons.symm.trans hrest]
          simp
        · rw [List.getLast?_append_of_ne_nil _ (List.cons_ne_nil _ _)] at hc
          cases pre with
          | nil =>
            rw [← Option.some.inj hc]
            exact hhead s rfl
          | cons b pre => exact hpre c (by simpa [List.getLast?_cons_cons] using hc)

theorem mem_words_iff {w text : List α} : w ∈ words p text ↔
    IsWord p w ∧ ∃ pre post, text = pre ++ w ++ post ∧
      (∀ c ∈ pre.getLast?, p c = true) ∧ ∀ c ∈ post.head?, p c = true := by
  constructor
  · exact exists_of_mem_words
  · rintro ⟨hw, pre, post, rfl, hpre, hpost⟩
    exact mem_words_append hw hpre hpost

/-- A word is also one between more separators, if it has none of them. -/
theorem mem_words_mono {q : α → Bool} (hpq : ∀ c, p c = true → q c = true) {w text : List α}
    (hw : ∀ c ∈ w, q c = false) (h : w ∈ words p text) : w ∈ words q text := by
  obtain ⟨hword, pre, post, htext, hpre, hpost⟩ := mem_words_iff.mp h
  exact mem_words_iff.mpr ⟨⟨hword.ne_nil, hw⟩, pre, post, htext, fun c hc => hpq c (hpre c hc),
    fun c hc => hpq c (hpost c hc)⟩

/-- One turn of a loop that collects the words of a buffer. -/
theorem words_slice (p : α → Bool) (b : Buffer α) {limit i : Nat} (h : i ≤ limit) :
    words p (b.slice i limit) =
      let start := b.scan p limit i
      let stop := b.scan (!p ·) limit start
      if start < stop then b.slice start stop :: words p (b.slice (stop + 1) limit) else [] := by
  obtain ⟨_, hstart, _, hdrop⟩ := Buffer.scan_spec p b h
  obtain ⟨hle, hstop, htake, hrest⟩ := Buffer.scan_spec (!p ·) b hstart
  have htail : b.slice (b.scan (!p ·) limit (b.scan p limit i) + 1) limit =
      ((b.slice (b.scan p limit i) limit).dropWhile (!p ·)).tail := by
    rw [← hrest, ← Buffer.drop_slice, List.drop_one]
  rw [← words_dropWhile, ← hdrop]
  dsimp only
  split
  · rename_i hlt
    rw [htail, htake]
    refine words_eq_cons ?_
    rw [← htake, Buffer.slice_cons hlt]
    exact List.cons_ne_nil _ _
  · rename_i hlt
    have heq : b.scan (!p ·) limit (b.scan p limit i) = b.scan p limit i := by omega
    rcases Nat.eq_or_lt_of_le hstart with hend | hend
    · rw [hend, Buffer.slice_self, words_nil]
    · have hp := Buffer.scan_stops (p := p) hend
      have hq := Buffer.scan_stops (p := (!p ·)) (by rw [heq]; exact hend)
      simp [heq, hp] at hq

end Layered
