import RedPak.Conf.Expand
import RedPak.Layered.Buffer

/-!
# Conf.CArray

Arrays of characters of some size that hold a string.

* `Holds.ofBytes_slice`: what is read from such an array.
* `holds_write`: a string that is put behind what is there.
-/

namespace RedPak
namespace Conf

open Layered (Buffer)
open Layered.Buffer (slice writeAll)

@[simp] theorem bytes_append (a b : CStr) : (a.append b).bytes = a.bytes ++ b.bytes := rfl

/-- The array holds the string, with its zero. -/
structure Holds (size : Nat) (text : CStr) (b : Buffer UInt8) : Prop where
  fits : text.bytes.length < size
  bytes : slice b 0 (text.bytes.length + 1) = text.bytes ++ [0]

variable {size : Nat} {text ext : CStr} {b : Buffer UInt8}

theorem Holds.slice_eq (h : Holds size text b) : ∃ rest,
    slice b 0 size = text.bytes ++ 0 :: rest := by
  refine ⟨slice b (text.bytes.length + 1) size, ?_⟩
  rw [← Layered.Buffer.slice_append (Nat.zero_le _) h.fits, h.bytes, List.append_assoc]
  rfl

theorem Holds.zero_mem (h : Holds size text b) : (0 : UInt8) ∈ slice b 0 size := by
  obtain ⟨rest, hrest⟩ := h.slice_eq
  simp [hrest]

theorem Holds.ofBytes_slice (h : Holds size text b) {i : Nat} (hi : i ≤ text.bytes.length) :
    CStr.ofBytes (slice b i size) = CStr.ofBytes (text.bytes.drop i) := by
  obtain ⟨rest, hrest⟩ := h.slice_eq
  have hdrop : slice b i size = text.bytes.drop i ++ 0 :: rest := by
    rw [← List.drop_append_of_le_length hi, ← hrest, Layered.Buffer.drop_slice, Nat.zero_add]
  rw [hdrop, CStr.ofBytes_append_zero]

theorem Holds.ofBytes (h : Holds size text b) : CStr.ofBytes (slice b 0 size) = text := by
  rw [h.ofBytes_slice (Nat.zero_le _), List.drop_zero, CStr.ofBytes_bytes]

/-- A string with its zero that is put behind what is there. -/
theorem holds_write (hb : slice b 0 text.bytes.length = text.bytes)
    (hfits : text.bytes.length + ext.bytes.length < size) :
    Holds size (text.append ext) (writeAll b text.bytes.length (ext.bytes ++ [0])) := by
  refine ⟨by simpa using hfits, ?_⟩
  have hlen : (text.append ext).bytes.length + 1 =
      text.bytes.length + (ext.bytes ++ [0]).length := by
    simp [Nat.add_assoc]
  rw [hlen, Layered.Buffer.slice_writeAll_append (Nat.zero_le _), hb, bytes_append,
    List.append_assoc]

theorem holds_start (b : Buffer UInt8) (hfits : text.bytes.length < size) :
    Holds size text (writeAll b 0 (text.bytes ++ [0])) := by
  refine ⟨hfits, ?_⟩
  have hslice := Layered.Buffer.slice_writeAll b 0 (text.bytes ++ [0])
  rwa [Nat.zero_add, List.length_append, List.length_singleton] at hslice

theorem Holds.front (h : Holds size (text.append ext) b) :
    slice b 0 text.bytes.length = text.bytes := by
  have hle : 0 + text.bytes.length ≤ (text.append ext).bytes.length + 1 := by
    rw [bytes_append, List.length_append]
    omega
  have htake := Layered.Buffer.take_slice b text.bytes.length hle
  rw [h.bytes, Nat.zero_add] at htake
  rw [← htake, bytes_append, List.append_assoc, List.take_left' rfl]

theorem Holds.self (h : Holds size text b) : slice b 0 text.bytes.length = text.bytes := by
  have hext : Holds size (text.append (.ofBytes [])) b := by
    refine ⟨?_, ?_⟩
    · simpa [CStr.ofBytes] using h.fits
    · simpa [CStr.ofBytes] using h.bytes
  exact hext.front

end Conf
end RedPak
