import Mathlib.Data.Set.Basic
import RedPak.Node.Tree

/-!
# Factory.Grounded

Paths with `.` and `..` in them. As long as `/r/n` is missing, `/r/n/../x` leads nowhere, and once
it is made, to `/r/x`. What is seen under such a path can be relied on if the directories are there
that it leads back from.

* `Grounded`: they are there.
* `dottedStarts_joinPath`: a sub-path without dots adds nothing to them.
-/

namespace RedPak
namespace Factory

open Conf Node Layered

/-- A path without `.` and `..`. -/
def PlainPath (path : CStr) : Prop := ∀ name ∈ fields slash path.bytes, Plain name

instance (path : CStr) : Decidable (PlainPath path) :=
  inferInstanceAs (Decidable (∀ name ∈ fields slash path.bytes, Plain name))

/-- The last name of a path is `.` or `..`. -/
def EndsInDots (path : List UInt8) : Prop :=
  path.getLast? ≠ some slash ∧ ((fields slash path).getLast? = some here ∨
    (fields slash path).getLast? = some above)

instance (path : List UInt8) : Decidable (EndsInDots path) :=
  inferInstanceAs (Decidable (_ ∧ _))

/-- The starts of a path that end in dots, the whole path included. -/
def dottedStarts (path : CStr) : Set CStr :=
  {a | EndsInDots a.bytes ∧ a.bytes ++ [slash] <+: path.bytes ++ [slash]}

section

variable {path path' sub a : CStr}

theorem EndsInDots.not_plain {l : List UInt8} (h : EndsInDots l) :
    ∃ name ∈ fields slash l, ¬ Plain name := by
  rcases h.2 with hhere | habove
  · exact ⟨here, List.mem_of_mem_getLast? hhere, fun hplain => hplain.notHere rfl⟩
  · exact ⟨above, List.mem_of_mem_getLast? habove, fun hplain => hplain.notAbove rfl⟩

/-- Such a start is the whole path, or a slash follows it. -/
theorem mem_dottedStarts : a ∈ dottedStarts path ↔ EndsInDots a.bytes ∧
    (a = path ∨ a.bytes ++ [slash] <+: path.bytes) := by
  refine and_congr_right fun _ => ?_
  rw [List.prefix_concat_iff]
  refine or_congr_left ⟨fun h => CStr.ext (List.append_cancel_right h), ?_⟩
  rintro rfl
  rfl

theorem prefix_of_dottedStart (hlast : path.bytes.getLast? = some slash)
    (ha : a ∈ dottedStarts path) : a.bytes ++ [slash] <+: path.bytes := by
  obtain ⟨hdots, rfl | hbegins⟩ := mem_dottedStarts.mp ha
  · exact absurd hlast hdots.1
  · exact hbegins

theorem dottedStarts_subset (hlast : path.bytes.getLast? = some slash)
    (hbegins : path.bytes <+: path'.bytes) : dottedStarts path ⊆ dottedStarts path' := fun _ ha =>
  mem_dottedStarts.mpr ⟨ha.1, .inr ((prefix_of_dottedStart hlast ha).trans hbegins)⟩

theorem fields_begins {l l' : List UInt8} (h : l ++ [slash] <+: l' ++ [slash]) :
    fields slash l <+: fields slash l' := by
  rcases List.prefix_concat_iff.mp h with heq | ⟨rest, hrest⟩
  · rw [List.append_cancel_right heq]
  · rw [← hrest, List.append_assoc, List.singleton_append, fields_append_sep]
    exact List.prefix_append _ _

theorem dottedStarts_plain (h : PlainPath path) : dottedStarts path = ∅ := by
  refine Set.eq_empty_iff_forall_notMem.mpr fun a ⟨hdots, hbegins⟩ => ?_
  obtain ⟨name, hname, hnot⟩ := hdots.not_plain
  exact hnot (h name ((fields_begins hbegins).subset hname))

/-- **A sub-path without dots** adds nothing. -/
theorem dottedStarts_joinPath (path : CStr) (hsub : PlainPath sub) :
    dottedStarts (joinPath path sub) ⊆ dottedStarts path := by
  rintro a ⟨hdots, hbegins⟩
  refine ⟨hdots, ?_⟩
  have hjoin : (joinPath path sub).bytes ++ [slash] =
      path.bytes ++ [slash] ++ (sub.bytes ++ [slash]) := by simp [joinPath, CStr.append]
  rw [hjoin] at hbegins
  rcases List.prefix_or_prefix_of_prefix hbegins (List.prefix_append _ _) with hinner | hbehind
  · exact hinner
  obtain ⟨rest, hrest⟩ := hbehind
  rcases List.eq_nil_or_concat rest with rfl | ⟨front, c, rfl⟩
  · rw [List.append_nil] at hrest
    rw [hrest]
  rw [List.concat_eq_append, ← List.append_assoc] at hrest
  obtain ⟨hfront, hc⟩ := List.append_inj' hrest rfl
  cases hc
  -- the dots are a name of the sub-path
  exfalso
  rw [← hrest, List.append_assoc, List.prefix_append_right_inj] at hbegins
  have hbytes : a.bytes = path.bytes ++ slash :: front := by rw [← hfront]; simp
  have hlast : (fields slash a.bytes).getLast? = (fields slash front).getLast? := by
    by_cases hnil : front = []
    · exact absurd (by rw [hbytes, hnil, List.getLast?_concat]) hdots.1
    · have hslash : front.getLast? ≠ some slash := by
        have hlast := hdots.1
        rwa [hbytes, List.getLast?_append_of_ne_nil _ (List.cons_ne_nil _ _),
          List.getLast?_cons_of_ne_nil hnil] at hlast
      rw [hbytes, fields_append_sep, List.getLast?_append_of_ne_nil]
      rw [fields_eq_concat hnil hslash]
      simp
  have hmem : ∀ name, (fields slash a.bytes).getLast? = some name → Plain name := fun name h =>
    hsub name ((fields_begins hbegins).subset (List.mem_of_mem_getLast? (hlast ▸ h)))
  rcases hdots.2 with hhere | habove
  · exact (hmem _ hhere).notHere rfl
  · exact (hmem _ habove).notAbove rfl

end

/-! ## What is there -/

section

variable {ω : Type} (os : FileOs ω) (w : ω)

/-- What the path leads back from is there. -/
def Grounded (path : CStr) : Prop := ∀ a ∈ dottedStarts path, os.stat w a ≠ none

/-- The path leads to something, or at least it does not lead back from what is missing. -/
def Anchored (path : CStr) : Prop := os.stat w path ≠ none ∨ Grounded os w path

end

variable {ω : Type} {os : FileOs ω} {w w' : ω} {path path' : CStr}

theorem Grounded.mono (h : Grounded os w path') (hsub : dottedStarts path ⊆ dottedStarts path') :
    Grounded os w path := fun a ha => h a (hsub ha)

theorem Grounded.stays (h : Grounded os w path)
    (hstays : ∀ q, os.stat w q ≠ none → os.stat w' q ≠ none) : Grounded os w' path := fun a ha =>
  hstays a (h a ha)

theorem Anchored.stays (h : Anchored os w path)
    (hstays : ∀ q, os.stat w q ≠ none → os.stat w' q ≠ none) : Anchored os w' path :=
  h.imp (hstays path) fun hground => hground.stays hstays

theorem grounded_plain (h : PlainPath path) : Grounded os w path := by
  intro a ha
  rw [dottedStarts_plain h] at ha
  exact ha.elim

end Factory
end RedPak
