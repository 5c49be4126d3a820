import Mathlib.Data.List.Basic
import Mathlib.Data.List.DropRight
import Mathlib.Data.List.TakeWhile

/-!
# Layered.Fields

Texts made of fields with separators between them. A field is not empty, so that a separator at
the start, at the end or behind another one is of no effect.

* `fields_joined`: joined fields are found again.
* `foldl_addNew`: adding the fields that are not there yet keeps the first occurrence of each.
-/

namespace Layered

variable {α : Type*}

structure IsField (sep : α) (f : List α) : Prop where
  ne_nil : f ≠ []
  sepFree : sep ∉ f

/-- The fields of a text, in order. -/
def fields [DecidableEq α] (sep : α) (text : List α) : List (List α) :=
  (text.splitOn sep).filter fun f => !f.isEmpty

def joined (sep : α) (fs : List (List α)) : List α := [sep].intercalate fs

/-- Every field with a separator behind it. -/
def terminated (sep : α) (fs : List (List α)) : List α := fs.flatMap fun f => f ++ [sep]

def addNew {β : Type*} [BEq β] (xs : List β) (x : β) : List β :=
  if xs.contains x then xs else xs ++ [x]

variable {sep : α}

/-! ## Joins -/

@[simp] theorem joined_nil : joined sep ([] : List (List α)) = [] := rfl

@[simp] theorem joined_singleton (f : List α) : joined sep [f] = f := by
  simp [joined]

theorem joined_concat {fs : List (List α)} (f : List α) (h : fs ≠ []) :
    joined sep (fs ++ [f]) = joined sep fs ++ sep :: f := by
  induction fs with
  | nil => exact absurd rfl h
  | cons g fs ih =>
    cases fs with
    | nil => simp [joined]
    | cons g' fs =>
      have hstep := ih (List.cons_ne_nil g' fs)
      simp only [joined, List.cons_append, List.intercalate_cons_cons] at hstep ⊢
      rw [hstep]
      simp

theorem joined_append_sep {fs : List (List α)} (h : fs ≠ []) :
    joined sep fs ++ [sep] = terminated sep fs := by
  induction fs with
  | nil => exact absurd rfl h
  | cons f fs ih =>
    cases fs with
    | nil => simp [terminated]
    | cons g fs =>
      have hstep := ih (List.cons_ne_nil g fs)
      simp only [joined, List.intercalate_cons_cons, List.append_assoc] at hstep ⊢
      rw [hstep]
      simp [terminated]

theorem mem_terminated {fs : List (List α)} {c : α} (h : c ∈ terminated sep fs) :
    c = sep ∨ ∃ f ∈ fs, c ∈ f := by
  rw [terminated, List.mem_flatMap] at h
  obtain ⟨f, hf, hc⟩ := h
  rcases List.mem_append.mp hc with hc | hc
  · exact .inr ⟨f, hf, hc⟩
  · exact .inl (List.mem_singleton.mp hc)

theorem mem_joined {fs : List (List α)} {c : α} (h : c ∈ joined sep fs) :
    c = sep ∨ ∃ f ∈ fs, c ∈ f := by
  rcases eq_or_ne fs [] with rfl | hne
  · cases h
  · refine mem_terminated ?_
    rw [← joined_append_sep hne]
    exact List.mem_append_left _ h

theorem terminated_concat (fs : List (List α)) (f : List α) :
    terminated sep (fs ++ [f]) = terminated sep fs ++ f ++ [sep] := by
  simp [terminated]

theorem terminated_append_field (fs : List (List α)) (f : List α) :
    terminated sep fs ++ f = joined sep (fs ++ [f]) := by
  rcases eq_or_ne fs [] with rfl | h
  · simp [terminated]
  · rw [joined_concat f h, ← joined_append_sep h]
    simp

theorem terminated_append (fs gs : List (List α)) :
    terminated sep (fs ++ gs) = terminated sep fs ++ terminated sep gs := by
  simp [terminated]

theorem joined_append {fs gs : List (List α)} (h : gs ≠ []) :
    joined sep (fs ++ gs) = terminated sep fs ++ joined sep gs := by
  rcases List.eq_nil_or_concat gs with rfl | ⟨gs, f, rfl⟩
  · exact absurd rfl h
  · rw [List.concat_eq_append, ← List.append_assoc, ← terminated_append_field,
      ← terminated_append_field, terminated_append, List.append_assoc]

theorem getLast_joined_ne {fs : List (List α)} (h : ∀ f ∈ fs, IsField sep f) :
    (joined sep fs).getLast? ≠ some sep := by
  rcases List.eq_nil_or_concat fs with rfl | ⟨gs, f, rfl⟩
  · simp
  · have hf : IsField sep f := h f (by simp)
    rw [List.concat_eq_append, ← terminated_append_field,
      List.getLast?_append_of_ne_nil _ hf.ne_nil]
    intro hlast
    exact hf.sepFree (List.mem_of_getLast? hlast)

/-! ## Fields -/

variable [DecidableEq α]

theorem rdropWhile_joined {fs : List (List α)} (h : ∀ f ∈ fs, IsField sep f) :
    (joined sep fs).rdropWhile (· == sep) = joined sep fs := by
  refine List.rdropWhile_eq_self_iff.mpr fun hne hlast => getLast_joined_ne h ?_
  rw [List.getLast?_eq_some_getLast hne, eq_of_beq hlast]

theorem rdropWhile_terminated {fs : List (List α)} (h : ∀ f ∈ fs, IsField sep f) :
    (terminated sep fs).rdropWhile (· == sep) = joined sep fs := by
  rcases eq_or_ne fs [] with rfl | hne
  · rfl
  · rw [← joined_append_sep hne, List.rdropWhile_concat_pos _ _ _ (by simp), rdropWhile_joined h]

@[simp] theorem fields_nil : fields sep [] = [] := by
  simp [fields]

theorem fields_append_sep (l m : List α) :
    fields sep (l ++ sep :: m) = fields sep l ++ fields sep m := by
  rw [fields, List.splitOn_append_cons_self, List.filter_append]
  rfl

@[simp] theorem fields_sep_cons (l : List α) : fields sep (sep :: l) = fields sep l := by
  simpa using @fields_append_sep _ sep _ [] l

theorem fields_append_sep_nil (l : List α) : fields sep (l ++ [sep]) = fields sep l := by
  simpa using @fields_append_sep _ sep _ l []

theorem IsField.fields_eq {f : List α} (h : IsField sep f) : fields sep f = [f] := by
  rw [fields, List.splitOn_eq_singleton h.sepFree]
  simp [h.ne_nil]

theorem isField_takeWhile {text : List α} (h : text.takeWhile (· != sep) ≠ []) :
    IsField sep (text.takeWhile (· != sep)) :=
  ⟨h, fun hmem => by simpa using List.mem_takeWhile_imp hmem⟩

theorem fields_dropWhile_sep (text : List α) :
    fields sep (text.dropWhile (· == sep)) = fields sep text := by
  induction text with
  | nil => rfl
  | cons c text ih =>
    by_cases hc : c = sep
    · subst hc
      rw [List.dropWhile_cons_of_pos (by simp), ih, fields_sep_cons]
    · rw [List.dropWhile_cons_of_neg (by simpa using hc)]

/-- The first field is what stands before the first separator, unless the text starts with one. -/
theorem fields_eq_cons {text : List α} (h : text.takeWhile (· != sep) ≠ []) :
    fields sep text =
      text.takeWhile (· != sep) :: fields sep (text.dropWhile (· != sep)) := by
  have hf := isField_takeWhile h
  have hsplit := List.takeWhile_append_dropWhile (p := (· != sep)) (l := text)
  cases hd : text.dropWhile (· != sep) with
  | nil =>
    rw [hd, List.append_nil] at hsplit
    rw [hsplit] at hf ⊢
    rw [hf.fields_eq, fields_nil]
  | cons c rest =>
    have hc : c = sep := by
      have := List.head?_dropWhile_not (· != sep) text
      rw [hd] at this
      simpa using this
    subst hc
    rw [hd] at hsplit
    rw [fields_sep_cons]
    calc fields c text = fields c (text.takeWhile (· != c) ++ c :: rest) := by rw [hsplit]
      _ = text.takeWhile (· != c) :: fields c rest := by
        rw [fields_append_sep, hf.fields_eq]
        rfl

theorem fields_rdropWhile_sep (text : List α) :
    fields sep (text.rdropWhile (· == sep)) = fields sep text := by
  induction text using List.reverseRecOn with
  | nil => rfl
  | append_singleton text c ih =>
    by_cases hc : c = sep
    · subst hc
      rw [List.rdropWhile_concat_pos _ _ _ (by simp), ih, fields_append_sep_nil]
    · rw [List.rdropWhile_concat_neg _ _ _ (by simpa using hc)]

/-- The last field is what stands behind the last separator, unless the text ends with one. -/
theorem fields_eq_concat {text : List α} (hne : text ≠ []) (h : text.getLast? ≠ some sep) :
    fields sep text =
      fields sep (text.rdropWhile (· != sep)) ++ [text.rtakeWhile (· != sep)] := by
  have hsplit := @List.rdropWhile_append_rtakeWhile _ (· != sep) text
  have hlast : text.rtakeWhile (· != sep) ≠ [] := by
    rw [Ne, List.rtakeWhile_eq_nil_iff]
    intro hnil
    refine h ?_
    rw [List.getLast?_eq_some_getLast hne]
    simpa using hnil hne
  have hfield : IsField sep (text.rtakeWhile (· != sep)) :=
    ⟨hlast, fun hmem => by simpa using List.mem_rtakeWhile_imp hmem⟩
  rcases List.eq_nil_or_concat (text.rdropWhile (· != sep)) with hnil | ⟨before, c, hbefore⟩
  · rw [hnil, List.nil_append] at hsplit
    rw [hnil, fields_nil, List.nil_append, ← hfield.fields_eq, hsplit]
  · have hc : c = sep := by
      have hne' : text.rdropWhile (· != sep) ≠ [] := by simp [hbefore]
      have hnot := List.rdropWhile_last_not (· != sep) text hne'
      simpa [hbefore] using hnot
    subst hc
    rw [List.concat_eq_append] at hbefore
    rw [hbefore, List.append_assoc, List.singleton_append] at hsplit
    calc fields c text = fields c (before ++ c :: text.rtakeWhile (· != c)) := by rw [hsplit]
      _ = fields c before ++ [text.rtakeWhile (· != c)] := by
        rw [fields_append_sep, hfield.fields_eq]
      _ = _ := by rw [hbefore, fields_append_sep_nil]

theorem exists_append_of_getLast?_fields {text f : List α} (h : text.getLast? ≠ some sep)
    (hf : (fields sep text).getLast? = some f) :
    ∃ before, text = before ++ f ∧ (before = [] ∨ before.getLast? = some sep) := by
  have hne : text ≠ [] := by
    rintro rfl
    simp at hf
  rw [fields_eq_concat hne h, List.getLast?_concat, Option.some.injEq] at hf
  refine ⟨text.rdropWhile (· != sep), ?_, ?_⟩
  · rw [← hf]
    exact List.rdropWhile_append_rtakeWhile.symm
  · by_cases hnil : text.rdropWhile (· != sep) = []
    · exact .inl hnil
    · have hnot := List.rdropWhile_last_not (· != sep) text hnil
      rw [List.getLast?_eq_some_getLast hnil]
      exact .inr (by simpa using hnot)

theorem splitOn_part (text : List α) :
    ∀ part ∈ text.splitOn sep, sep ∉ part ∧ ∀ c ∈ part, c ∈ text := by
  induction text with
  | nil =>
    intro part hpart
    rw [List.splitOn_nil, List.mem_singleton] at hpart
    simp [hpart]
  | cons x text ih =>
    intro part hpart
    rw [List.splitOn_cons_eq_if_modifyHead] at hpart
    obtain ⟨first, others, hsplit⟩ := List.exists_cons_of_ne_nil (List.splitOn_ne_nil sep text)
    split at hpart
    · rcases List.mem_cons.mp hpart with rfl | hpart
      · simp
      · exact ⟨(ih part hpart).1, fun c hc => List.mem_cons_of_mem _ ((ih part hpart).2 c hc)⟩
    · rename_i hx
      rw [hsplit, List.modifyHead_cons] at hpart
      rcases List.mem_cons.mp hpart with rfl | hpart
      · have hfirst := ih first (by rw [hsplit]; simp)
        refine ⟨?_, fun c hc => ?_⟩
        · rw [List.mem_cons, not_or]
          exact ⟨fun e => hx (beq_iff_eq.mpr e.symm), hfirst.1⟩
        · rcases List.mem_cons.mp hc with rfl | hc
          · exact List.mem_cons_self
          · exact List.mem_cons_of_mem _ (hfirst.2 c hc)
      · have hother := ih part (by rw [hsplit]; simp [hpart])
        exact ⟨hother.1, fun c hc => List.mem_cons_of_mem _ (hother.2 c hc)⟩

theorem isField_of_mem_fields {f text : List α} (h : f ∈ fields sep text) : IsField sep f := by
  rw [fields, List.mem_filter] at h
  exact ⟨by simpa using h.2, (splitOn_part text f h.1).1⟩

theorem mem_of_mem_fields {f text : List α} {c : α} (h : f ∈ fields sep text) (hc : c ∈ f) :
    c ∈ text := by
  rw [fields, List.mem_filter] at h
  exact (splitOn_part text f h.1).2 c hc

theorem fields_terminated {fs : List (List α)} (h : ∀ f ∈ fs, IsField sep f) :
    fields sep (terminated sep fs) = fs := by
  induction fs with
  | nil => exact fields_nil
  | cons f fs ih =>
    have hf : IsField sep f := h f (by simp)
    have hfs := ih fun g hg => h g (by simp [hg])
    have hcons : terminated sep (f :: fs) = f ++ sep :: terminated sep fs := by simp [terminated]
    rw [hcons, fields_append_sep, hf.fields_eq, hfs]
    rfl

/-- **Joined fields are found again.** -/
theorem fields_joined {fs : List (List α)} (h : ∀ f ∈ fs, IsField sep f) :
    fields sep (joined sep fs) = fs := by
  rcases eq_or_ne fs [] with rfl | hne
  · exact fields_nil
  · rw [← fields_append_sep_nil, joined_append_sep hne, fields_terminated h]

theorem fields_take_joined_cons {f : List α} {fs : List (List α)} (hf : IsField sep f) {n : Nat}
    (hn : f.length ≤ n) : fields sep ((joined sep (f :: fs)).take n) =
      f :: fields sep ((joined sep fs).take (n - (f.length + 1))) := by
  obtain ⟨m, rfl⟩ := Nat.exists_eq_add_of_le hn
  cases fs with
  | nil =>
    rw [joined_singleton, List.take_of_length_le (Nat.le_add_right _ _), hf.fields_eq]
    simp
  | cons g fs =>
    have hcons : joined sep (f :: g :: fs) = f ++ sep :: joined sep (g :: fs) := by
      simp [joined, List.intercalate_cons_cons]
    rw [hcons, List.take_length_add_append, Nat.add_sub_add_left]
    cases m with
    | zero => simp [hf.fields_eq]
    | succ m =>
      rw [List.take_succ_cons, fields_append_sep, hf.fields_eq, Nat.add_sub_cancel]
      rfl

/-- A join that is cut off: whole fields, and at most the start of another one. -/
theorem fields_take_joined {fs : List (List α)} (h : ∀ f ∈ fs, IsField sep f) (n : Nat) :
    ∃ m, fields sep ((joined sep fs).take n) = fs.take m ∨
      m < fs.length ∧ ∃ cut, fields sep ((joined sep fs).take n) = fs.take m ++ [cut] := by
  induction fs generalizing n with
  | nil => exact ⟨0, .inl (by simp)⟩
  | cons f fs ih =>
    have hf : IsField sep f := h f (by simp)
    rcases Nat.lt_or_ge n f.length with hn | hn
    · have htake : (joined sep (f :: fs)).take n = f.take n := by
        cases fs with
        | nil => simp
        | cons g fs =>
          rw [joined, List.intercalate_cons_cons, List.append_assoc,
            List.take_append_of_le_length (Nat.le_of_lt hn)]
      rw [htake]
      rcases eq_or_ne (f.take n) [] with hnil | hne
      · exact ⟨0, .inl (by simp [hnil])⟩
      · have hfield : IsField sep (f.take n) :=
          ⟨hne, fun hmem => hf.sepFree (List.mem_of_mem_take hmem)⟩
        exact ⟨0, .inr ⟨by simp, f.take n, by simp [hfield.fields_eq]⟩⟩
    · rw [fields_take_joined_cons hf hn]
      obtain ⟨m, hm | ⟨hm, cut, hcut⟩⟩ := ih (fun g hg => h g (by simp [hg])) (n - (f.length + 1))
      · exact ⟨m + 1, .inl (by simp [hm])⟩
      · exact ⟨m + 1, .inr ⟨by simpa using hm, cut, by simp [hcut]⟩⟩

theorem joined_eq_nil {fs : List (List α)} (h : ∀ f ∈ fs, IsField sep f) :
    joined sep fs = [] ↔ fs = [] := by
  refine ⟨fun hnil => ?_, fun hnil => by rw [hnil]; rfl⟩
  rw [← fields_joined h, hnil, fields_nil]

/-! ## First occurrences -/

section

variable {β : Type*} [BEq β] [LawfulBEq β]

theorem addNew_of_mem {xs : List β} {x : β} (h : x ∈ xs) : addNew xs x = xs :=
  if_pos (List.contains_iff_mem.mpr h)

theorem addNew_of_notMem {xs : List β} {x : β} (h : x ∉ xs) : addNew xs x = xs ++ [x] :=
  if_neg fun hc => h (List.contains_iff_mem.mp hc)

theorem foldl_addNew (xs : List β) : ∀ acc : List β,
    xs.foldl addNew acc = acc ++ (xs.removeAll acc).eraseDups := by
  induction xs with
  | nil => intro acc; simp [List.removeAll]
  | cons x xs ih =>
    intro acc
    rw [List.foldl_cons, ih]
    by_cases hx : x ∈ acc
    · have hskip : (x :: xs).removeAll acc = xs.removeAll acc := by simp [List.removeAll, hx]
      rw [addNew_of_mem hx, hskip]
    · have hkeep : (x :: xs).removeAll acc = x :: xs.removeAll acc := by
        simp [List.removeAll, hx]
      have hfilter : (xs.removeAll acc).filter (fun y => !y == x) =
          xs.removeAll (acc ++ [x]) := by
        rw [List.removeAll, List.removeAll, List.filter_filter]
        exact List.filter_congr fun y _ => by
          rw [List.elem_eq_contains, List.elem_eq_contains, List.contains_append]
          simp [Bool.and_comm]
      rw [addNew_of_notMem hx, hkeep, List.eraseDups_cons, hfilter, List.append_assoc]
      rfl

theorem foldl_addNew_nil (xs : List β) : xs.foldl addNew [] = xs.eraseDups := by
  have hall : xs.removeAll [] = xs := by simp [List.removeAll]
  rw [foldl_addNew, hall, List.nil_append]

theorem eraseDups_eraseDups (xs : List β) : xs.eraseDups.eraseDups = xs.eraseDups := by
  induction hn : xs.length using Nat.strong_induction_on generalizing xs with
  | _ n ih =>
    cases xs with
    | nil => rfl
    | cons x xs =>
      have hlt : (xs.filter fun y => !y == x).length < n := by
        have hle := List.length_filter_le (fun y => !y == x) xs
        rw [List.length_cons] at hn
        omega
      have hkeep : ((xs.filter fun y => !y == x).eraseDups.filter fun y => !y == x) =
          (xs.filter fun y => !y == x).eraseDups := by
        refine List.filter_eq_self.mpr fun y hy => ?_
        exact (List.mem_filter.mp (List.mem_eraseDups.mp hy)).2
      rw [List.eraseDups_cons, List.eraseDups_cons, hkeep, ih _ hlt _ rfl]

theorem mem_foldl_addNew {xs acc : List β} {x : β} (h : x ∈ xs.foldl addNew acc) :
    x ∈ acc ∨ x ∈ xs := by
  rw [foldl_addNew] at h
  rcases List.mem_append.mp h with h | h
  · exact .inl h
  · rw [List.mem_eraseDups, List.removeAll, List.mem_filter] at h
    exact .inr h.1

end

end Layered
