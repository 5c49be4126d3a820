import RedPak.Layered.Fields

/-!
# Layered.Lines

A text of lines, each with a separator behind it, that comes in parts. Each part closes some lines
and leaves one open.

* `terminated_closed`: no element is lost.
* `closeLines_part`: the lines that a part closes are the first ones of the text.
-/

namespace Layered

variable {α : Type*} {sep : α}

/-! ## Texts of lines -/

@[simp] theorem terminated_nil : terminated sep ([] : List (List α)) = [] := rfl

@[simp] theorem terminated_cons (l : List α) (ls : List (List α)) :
    terminated sep (l :: ls) = l ++ sep :: terminated sep ls := by
  simp [terminated]

theorem terminated_eq_nil {ls : List (List α)} : terminated sep ls = [] ↔ ls = [] := by
  cases ls <;> simp

variable [DecidableEq α]

/-- The lines that a part of a text closes, the first one being open already, and the line that it
leaves open. -/
def closeLines (sep : α) : List α → List α → List (List α) × List α
  | line, [] => ([], line)
  | line, c :: part =>
    if c = sep then (line :: (closeLines sep [] part).1, (closeLines sep [] part).2)
    else closeLines sep (line ++ [c]) part

@[simp] theorem closeLines_nil (line : List α) : closeLines sep line [] = ([], line) := rfl

@[simp] theorem closeLines_sep (line part : List α) :
    closeLines sep line (sep :: part) =
      (line :: (closeLines sep [] part).1, (closeLines sep [] part).2) := by
  simp [closeLines]

theorem closeLines_cons {c : α} (h : c ≠ sep) (line part : List α) :
    closeLines sep line (c :: part) = closeLines sep (line ++ [c]) part := by
  simp [closeLines, h]

theorem closeLines_free {part : List α} (h : sep ∉ part) (line : List α) :
    closeLines sep line part = ([], line ++ part) := by
  induction part generalizing line with
  | nil => simp
  | cons c part ih =>
    have hc : c ≠ sep := fun e => h (by simp [e])
    rw [closeLines_cons hc, ih fun hmem => h (by simp [hmem])]
    simp

theorem closeLines_append_sep {pre : List α} (h : sep ∉ pre) (line post : List α) :
    closeLines sep line (pre ++ sep :: post) =
      ((line ++ pre) :: (closeLines sep [] post).1, (closeLines sep [] post).2) := by
  induction pre generalizing line with
  | nil => simp
  | cons c pre ih =>
    have hc : c ≠ sep := fun e => h (by simp [e])
    rw [List.cons_append, closeLines_cons hc, ih fun hmem => h (by simp [hmem])]
    simp

/-- **Nothing is lost**: the lines closed and the one left open are what there was. -/
theorem terminated_closed (line part : List α) :
    terminated sep (closeLines sep line part).1 ++ (closeLines sep line part).2 = line ++ part := by
  induction part generalizing line with
  | nil => simp
  | cons c part ih =>
    by_cases hc : c = sep
    · subst hc
      simp [ih]
    · rw [closeLines_cons hc, ih]
      simp

/-- What comes behind a part goes on with the line that the part leaves open. -/
theorem closeLines_append (line part rest : List α) :
    closeLines sep line (part ++ rest) =
      ((closeLines sep line part).1 ++ (closeLines sep (closeLines sep line part).2 rest).1,
        (closeLines sep (closeLines sep line part).2 rest).2) := by
  induction part generalizing line with
  | nil => rfl
  | cons c part ih =>
    by_cases hc : c = sep
    · subst hc
      simp [ih]
    · rw [List.cons_append, closeLines_cons hc, closeLines_cons hc, ih]

theorem closeLines_terminated {ls : List (List α)} (h : ∀ l ∈ ls, sep ∉ l) :
    closeLines sep [] (terminated sep ls) = (ls, []) := by
  induction ls with
  | nil => rfl
  | cons l ls ih =>
    rw [terminated_cons, closeLines_append_sep (h l (by simp)),
      ih fun m hm => h m (List.mem_cons_of_mem l hm)]
    rfl

/-- **A part of a text** closes the first of its lines, and what it leaves open starts the others.
-/
theorem closeLines_part {ls : List (List α)} (h : ∀ l ∈ ls, sep ∉ l) {part rest : List α}
    (htext : terminated sep ls = part ++ rest) :
    ∃ later, ls = (closeLines sep [] part).1 ++ later ∧
      (closeLines sep [] part).2 ++ rest = terminated sep later := by
  have hall := closeLines_terminated h
  rw [htext, closeLines_append] at hall
  obtain ⟨hlines, hopen⟩ := Prod.mk.inj hall
  refine ⟨_, hlines.symm, ?_⟩
  rw [← terminated_closed, hopen, List.append_nil]

/-- A part leaves no line open when it ends with a separator. -/
theorem open_eq_nil_iff {part : List α} (hne : part ≠ []) :
    (closeLines sep [] part).2 = [] ↔ part.getLast? = some sep := by
  obtain ⟨front, c, rfl⟩ := (List.eq_nil_or_concat part).resolve_left hne
  rw [List.concat_eq_append, closeLines_append, List.getLast?_concat, Option.some.injEq]
  by_cases hc : c = sep
  · subst hc
    simp
  · simp [closeLines_cons hc, hc]

end Layered
