import RedPak.Cgroup.Prepare
import RedPak.Layered.Lines

/-!
# Cgroup.MoveProcs

What `moveProcs` writes for the answers of the reads. The text of the pids comes in chunks. A chunk
that ends within a line leaves a part of it at the start of the buffer, and the next read stores
over that part.

* `moveProcs_writes`: a run over the kernel that ends well writes what is written here.
* `moveProcs_moves_iff`: the pids are moved exactly when every chunk ends with a line.
-/

namespace RedPak
namespace Cgroup

open Conf Layered Layered.Action

/-! ## The loops -/

/-- The loop over the pids of the buffer: what it writes and, unless a write fails, the buffer and
`pidpos`. -/
def scanWrites (write : CStr → Bool) (count : Nat) (buffer : Buffer UInt8) (pidpos rpos : Nat) :
    List CStr × Option (Buffer UInt8 × Nat) :=
  if rpos < count then
    if buffer rpos = newline then
      let buffer := buffer.store rpos 0
      let pid := .ofBytes (buffer.slice pidpos procsBufferSize)
      if write pid then
        let later := scanWrites write count buffer (rpos + 1) (rpos + 1)
        (pid :: later.1, later.2)
      else ([pid], none)
    else scanWrites write count buffer pidpos (rpos + 1)
  else ([], some (buffer, pidpos))
termination_by count - rpos

/-- The reads: `text` is what was not read yet and `reads` how much each of the reads to come gives
at most. What is written and the result. -/
def readWrites (write : CStr → Bool) (reads : Nat → Nat) (text : List UInt8)
    (buffer : Buffer UInt8) (rpos : Nat) : List CStr × Int :=
  let chunk := text.take (min (procsBufferSize - rpos) (max 1 (reads 0)))
  if _h : chunk = [] then ([], 0)
  else
    let count := chunk.length + rpos
    match scanWrites write count (buffer.writeAll 0 chunk) 0 rpos with
    | (pids, none) => (pids, -1)
    | (pids, some (buffer, pidpos)) =>
      let later := readWrites write (fun n => reads (n + 1)) (text.drop chunk.length)
        (buffer.writeAll 0 (buffer.slice pidpos count)) (count - pidpos)
      (pids ++ later.1, later.2)
termination_by text.length
decreasing_by exact length_drop_chunk _h

/-- `cgroup.procs` of a cgroup with the given pids. -/
def pidsText (pids : List Nat) : List UInt8 :=
  terminated newline (pids.map fun (pid : Nat) => (CStr.decimal pid).bytes)

/-- What `moveProcs` writes, and its result, when both files can be opened. -/
def procsWrites (write : CStr → Bool) (reads : Nat → Nat) (junk : Buffer UInt8) (pids : List Nat) :
    List CStr × Int :=
  readWrites write reads (pidsText pids) junk 0

/-- The chunks of a text when every read asks for the whole buffer. -/
def procsChunks (reads : Nat → Nat) (text : List UInt8) : List (List UInt8) :=
  let chunk := text.take (min procsBufferSize (max 1 (reads 0)))
  if _h : chunk = [] then []
  else chunk :: procsChunks (fun n => reads (n + 1)) (text.drop chunk.length)
termination_by text.length
decreasing_by exact length_drop_chunk _h

/-! ## One chunk -/

variable {write : CStr → Bool} {reads : Nat → Nat} {text : List UInt8} {buffer : Buffer UInt8}
  {count pidpos rpos : Nat}

/-- **The scan** closes the lines of the buffer and leaves the last one open. -/
theorem scanWrites_eq (hw : ∀ pid, write pid = true) (hpid : pidpos ≤ rpos) (hcount : rpos ≤ count)
    (hsize : count ≤ procsBufferSize) :
    ∃ buffer' pidpos', pidpos' ≤ count ∧
      buffer'.slice pidpos' count =
        (closeLines newline (buffer.slice pidpos rpos) (buffer.slice rpos count)).2 ∧
      scanWrites write count buffer pidpos rpos =
        ((closeLines newline (buffer.slice pidpos rpos) (buffer.slice rpos count)).1.map .ofBytes,
          some (buffer', pidpos')) := by
  fun_induction scanWrites write count buffer pidpos rpos with
  | case1 buffer pidpos rpos hlt hnl buffer₁ pid hwrite later ih =>
    obtain ⟨buffer', pidpos', hle, hslice, hrest⟩ := ih (Nat.le_refl _) hlt
    have hopen : buffer₁.slice (rpos + 1) count = buffer.slice (rpos + 1) count :=
      Buffer.slice_store (.inl (Nat.lt_succ_self rpos))
    rw [Buffer.slice_self, hopen] at hslice hrest
    -- the string ends with the zero that took the place of the newline
    have hpidtext : pid = .ofBytes (buffer.slice pidpos rpos) := by
      have hcut : buffer₁.slice pidpos procsBufferSize =
          buffer.slice pidpos rpos ++ 0 :: buffer₁.slice (rpos + 1) procsBufferSize := by
        have hrpos : rpos < procsBufferSize := Nat.lt_of_lt_of_le hlt hsize
        have hzero : buffer₁ rpos = 0 := Buffer.store_same buffer rpos 0
        rw [← Buffer.slice_append hpid (Nat.le_of_lt hrpos), Buffer.slice_cons hrpos, hzero,
          Buffer.slice_store (.inr (Nat.le_refl rpos))]
      exact (congrArg CStr.ofBytes hcut).trans (CStr.ofBytes_append_zero _ _)
    rw [Buffer.slice_cons hlt, hnl, closeLines_sep]
    refine ⟨buffer', pidpos', hle, hslice, ?_⟩
    dsimp only [later]
    rw [hrest, hpidtext]
    rfl
  | case2 buffer pidpos rpos hlt hnl buffer₁ pid hwrite => exact absurd (hw pid) hwrite
  | case3 buffer pidpos rpos hlt hnl ih =>
    obtain ⟨buffer', pidpos', hle, hslice, hrest⟩ := ih (by omega) hlt
    rw [Buffer.slice_concat hpid] at hslice hrest
    rw [Buffer.slice_cons hlt, closeLines_cons hnl]
    exact ⟨buffer', pidpos', hle, hslice, hrest⟩
  | case4 buffer pidpos rpos hge =>
    have hend : rpos = count := by omega
    subst hend
    rw [Buffer.slice_self, closeLines_nil]
    exact ⟨buffer, pidpos, hpid, rfl, rfl⟩

/-- **A chunk**: the buffer after the read, from where the scan starts, closes the lines that are
written. -/
theorem readWrites_chunk (hw : ∀ pid, write pid = true) (hrpos : rpos ≤ procsBufferSize)
    {chunk : List UInt8} (hne : chunk ≠ [])
    (hchunk : text.take (min (procsBufferSize - rpos) (max 1 (reads 0))) = chunk) :
    ∃ buffer' lines left,
      closeLines newline ((buffer.writeAll 0 chunk).slice 0 rpos)
        ((buffer.writeAll 0 chunk).slice rpos (chunk.length + rpos)) = (lines, left) ∧
      left.length ≤ procsBufferSize ∧
      readWrites write reads text buffer rpos =
        let later := readWrites write (fun n => reads (n + 1)) (text.drop chunk.length) buffer'
          left.length
        (lines.map .ofBytes ++ later.1, later.2) := by
  have hlen : chunk.length + rpos ≤ procsBufferSize := by
    have htake := List.length_take_le (min (procsBufferSize - rpos) (max 1 (reads 0))) text
    rw [hchunk] at htake
    omega
  obtain ⟨buffer₁, pidpos, hle, hslice, hscan⟩ := @scanWrites_eq write
    (buffer.writeAll 0 chunk) (chunk.length + rpos) 0 rpos hw (Nat.zero_le rpos)
    (Nat.le_add_left rpos chunk.length) hlen
  generalize hclosed : closeLines newline ((buffer.writeAll 0 chunk).slice 0 rpos)
    ((buffer.writeAll 0 chunk).slice rpos (chunk.length + rpos)) = closed at hslice hscan
  have hleft : chunk.length + rpos - pidpos = closed.2.length := by
    rw [← hslice, Buffer.length_slice]
  refine ⟨buffer₁.writeAll 0 (buffer₁.slice pidpos (chunk.length + rpos)), closed.1, closed.2, rfl,
    by omega, ?_⟩
  rw [readWrites, dif_neg (by rwa [hchunk])]
  dsimp only
  rw [hchunk, hscan, ← hleft]

/-! ## A line in two chunks -/

theorem length_ofBytes_le (bs : List UInt8) : (CStr.ofBytes bs).bytes.length ≤ bs.length :=
  (List.takeWhile_sublist _).length_le

/-- Lines that are as long together as the strings they are read as are these strings. -/
theorem bytes_of_length_le {segs : List (List UInt8)} :
    (terminated newline segs).length ≤
      (terminated newline ((segs.map CStr.ofBytes).map CStr.bytes)).length →
    (segs.map CStr.ofBytes).map CStr.bytes = segs := by
  have hle : ∀ segs : List (List UInt8),
      (terminated newline ((segs.map CStr.ofBytes).map CStr.bytes)).length ≤
        (terminated newline segs).length := by
    intro segs
    induction segs with
    | nil => exact Nat.le_refl _
    | cons seg segs ih =>
      have hseg := length_ofBytes_le seg
      simp only [List.map_cons, terminated_cons, List.length_append, List.length_cons] at ih ⊢
      omega
  induction segs with
  | nil => exact fun _ => rfl
  | cons seg segs ih =>
    intro h
    have hseg := length_ofBytes_le seg
    have hsegs := hle segs
    simp only [List.map_cons, terminated_cons, List.length_append, List.length_cons] at h hsegs ih ⊢
    rw [ih (by omega)]
    exact congrArg (· :: segs) ((List.takeWhile_prefix _).eq_of_length (by
      change (CStr.ofBytes seg).bytes.length = _
      omega))

/-- A line whose start was overwritten by the chunk with its end has that end within. -/
theorem newline_mem_of_cut {chunk rest line after : List UInt8} {b : Buffer UInt8} {n : Nat}
    (hpos : 0 < rpos) (hline : line.length = rpos + n) (hn : n < chunk.length)
    (htext : (line ++ newline :: after).drop rpos = chunk ++ rest) :
    newline ∈ (b.writeAll 0 chunk).slice 0 (rpos + n) := by
  have hend : chunk[n]? = some newline := by
    have hget := congrArg (·[n]?) htext
    simp only [List.getElem?_drop, List.getElem?_append_left hn] at hget
    rw [← hget, ← hline, List.getElem?_append_right (Nat.le_refl _), Nat.sub_self]
    rfl
  refine List.mem_of_getElem? (i := n) ?_
  rw [Buffer.getElem?_slice _ (by omega), Buffer.writeAll_apply, hend]
  rfl

/-- **A line in two chunks** is never written: whatever is written from then on differs from the
lines. -/
theorem exists_segments (hw : ∀ pid, write pid = true) (hrpos : rpos ≤ procsBufferSize) :
    ∃ segs : List (List UInt8),
      readWrites write reads text buffer rpos = (segs.map .ofBytes, 0) ∧
      (terminated newline segs).length ≤ rpos + text.length ∧
      ∀ ls : List (List UInt8), (∀ l ∈ ls, newline ∉ l) → 0 < rpos →
        (terminated newline ls).drop rpos = text →
        (terminated newline ls).length = rpos + text.length → segs ≠ ls := by
  induction hn : text.length using Nat.strong_induction_on generalizing text buffer rpos reads with
  | _ n ih =>
    subst hn
    generalize hchunk : text.take (min (procsBufferSize - rpos) (max 1 (reads 0))) = chunk
    by_cases hne : chunk = []
    · refine ⟨[], ?_, by simp, ?_⟩
      · rw [readWrites, dif_pos (hchunk.trans hne)]
        rfl
      · rintro _ _ hpos _ hlen rfl
        simp only [terminated_nil, List.length_nil] at hlen
        omega
    obtain ⟨buffer', lines, left, hclosed, hleft, hrun⟩ :=
      @readWrites_chunk write reads text buffer rpos hw hrpos chunk hne hchunk
    have htext : text = chunk ++ text.drop chunk.length := by
      rw [← hchunk]
      exact (List.prefix_iff_eq_append.mp (List.take_prefix _ text)).symm
    have hless : (text.drop chunk.length).length < text.length := by
      rw [← hchunk]
      exact length_drop_chunk (by rwa [hchunk])
    obtain ⟨segs, hsegs, hsegsLen, hdiffer⟩ := @ih _ hless
      (fun n => reads (n + 1)) (text.drop chunk.length) buffer' left.length hleft rfl
    have hlost : (terminated newline lines).length + left.length = rpos + chunk.length := by
      have hall := congrArg List.length (@terminated_closed _ newline _
        ((buffer.writeAll 0 chunk).slice 0 rpos)
        ((buffer.writeAll 0 chunk).slice rpos (chunk.length + rpos)))
      rw [hclosed] at hall
      simpa using hall
    have hlen : text.length = chunk.length + (text.drop chunk.length).length := by
      conv_lhs => rw [htext, List.length_append]
    refine ⟨lines ++ segs, ?_, ?_, ?_⟩
    · rw [hrun, hsegs]
      simp
    · rw [terminated_append, List.length_append]
      omega
    · rintro ls hfree hpos hdrop hlength heq
      by_cases hmem : newline ∈ (buffer.writeAll 0 chunk).slice rpos (chunk.length + rpos)
      · -- the first line that is written holds the end that the chunk brought
        obtain ⟨pre, post, hsplit, hpre⟩ := List.eq_append_cons_of_mem hmem
        have hcount : pre.length + (post.length + 1) = chunk.length := by
          have hall := congrArg List.length hsplit
          rw [Buffer.length_slice, List.length_append, List.length_cons] at hall
          omega
        have hseg : (buffer.writeAll 0 chunk).slice 0 rpos ++ pre =
            (buffer.writeAll 0 chunk).slice 0 (rpos + pre.length) := by
          have htake := Buffer.take_slice (buffer.writeAll 0 chunk) (i := rpos)
            (j := chunk.length + rpos) pre.length (by omega)
          rw [hsplit, List.take_left] at htake
          conv_lhs => rw [htake]
          exact Buffer.slice_append (Nat.zero_le rpos) (Nat.le_add_right rpos pre.length)
        rw [hsplit, closeLines_append_sep hpre, Prod.mk.injEq, hseg] at hclosed
        obtain ⟨rfl, rfl⟩ := hclosed
        subst heq
        rw [List.cons_append, terminated_cons] at hdrop
        have htwice : newline ∈ (buffer.writeAll 0 chunk).slice 0 (rpos + pre.length) :=
          newline_mem_of_cut hpos (Buffer.length_slice _ 0 (rpos + pre.length)) (by omega)
            (hdrop.trans htext)
        exact hfree _ (by simp) htwice
      · rw [closeLines_free hmem, Prod.mk.injEq] at hclosed
        obtain ⟨rfl, rfl⟩ := hclosed
        rw [List.nil_append] at heq
        rw [terminated_nil, List.length_nil, Nat.zero_add] at hlost
        refine hdiffer ls hfree (by omega) ?_ (by omega) heq
        rw [hlost, ← List.drop_drop, hdrop]

/-! ## Every chunk -/

theorem map_ofBytes_bytes (ls : List CStr) : (ls.map CStr.bytes).map CStr.ofBytes = ls := by
  rw [List.map_map]
  exact List.map_id'' CStr.ofBytes_bytes ls

/-- From a part of a line on, other pids are written than those of the text. -/
theorem readWrites_open (hw : ∀ pid, write pid = true) {left : List UInt8} {ls : List CStr}
    (hleft : left.length ≤ procsBufferSize) (hne : left ≠ [])
    (hfree : ∀ l ∈ ls, newline ∉ l.bytes)
    (htext : left ++ text = terminated newline (ls.map CStr.bytes)) :
    readWrites write reads text buffer left.length ≠ (ls, 0) := by
  obtain ⟨segs, hsegs, hlen, hdiffer⟩ := @exists_segments write reads text buffer
    left.length hw hleft
  have htotal : left.length + text.length = (terminated newline (ls.map CStr.bytes)).length := by
    rw [← htext, List.length_append]
  intro heq
  rw [hsegs, Prod.mk.injEq] at heq
  have hbytes := @bytes_of_length_le segs (by rw [heq.1]; omega)
  rw [heq.1] at hbytes
  refine hdiffer (ls.map CStr.bytes) ?_ (List.length_pos_iff.mpr hne) ?_ htotal.symm hbytes.symm
  · intro l hl
    obtain ⟨s, hs, rfl⟩ := List.mem_map.mp hl
    exact hfree s hs
  · rw [← htext, List.drop_left]

theorem readWrites_lines (hw : ∀ pid, write pid = true) {ls : List CStr}
    (hfree : ∀ l ∈ ls, newline ∉ l.bytes) (htext : terminated newline (ls.map CStr.bytes) = text) :
    readWrites write reads text buffer 0 = (ls, 0) ↔
      ∀ chunk ∈ procsChunks reads text, chunk.getLast? = some newline := by
  induction hn : text.length using Nat.strong_induction_on generalizing text buffer reads ls with
  | _ n ih =>
    subst hn
    generalize hchunk : text.take (min procsBufferSize (max 1 (reads 0))) = chunk
    by_cases hne : chunk = []
    · have hnil : text = [] := by
        have hsize : min procsBufferSize (max 1 (reads 0)) ≠ 0 := by
          rw [procsBufferSize]
          omega
        simpa [hne, hsize] using hchunk
      subst hnil
      rw [terminated_eq_nil, List.map_eq_nil_iff] at htext
      rw [readWrites, procsChunks]
      simp [htext]
    obtain ⟨buffer', lines, left, hclosed, hleft, hrun⟩ :=
      @readWrites_chunk write reads text buffer 0 hw (Nat.zero_le procsBufferSize) chunk hne hchunk
    have hread : (buffer.writeAll 0 chunk).slice 0 (chunk.length + 0) = chunk := by
      simpa using Buffer.slice_writeAll buffer 0 chunk
    rw [Buffer.slice_self, hread] at hclosed
    have hsplit : text = chunk ++ text.drop chunk.length := by
      rw [← hchunk]
      exact (List.prefix_iff_eq_append.mp (List.take_prefix _ text)).symm
    obtain ⟨later, hls, hlater⟩ := closeLines_part (by simpa using hfree) (htext.trans hsplit)
    rw [hclosed] at hls hlater
    obtain ⟨ls₁, ls₂, rfl, rfl, rfl⟩ := List.map_eq_append_iff.mp hls
    have hfree₂ : ∀ l ∈ ls₂, newline ∉ l.bytes := fun l hl => hfree l (by simp [hl])
    have hchunks : procsChunks reads text =
        chunk :: procsChunks (fun n => reads (n + 1)) (text.drop chunk.length) := by
      rw [procsChunks, dif_neg (by rwa [hchunk])]
      simp only [hchunk]
    have hdone : readWrites write reads text buffer 0 = (ls₁ ++ ls₂, 0) ↔
        readWrites write (fun n => reads (n + 1)) (text.drop chunk.length) buffer' left.length =
          (ls₂, 0) := by
      rw [hrun, map_ofBytes_bytes]
      simp [Prod.ext_iff]
    have hopen := @open_eq_nil_iff _ newline _ chunk hne
    rw [hclosed] at hopen
    rw [hdone, hchunks, List.forall_mem_cons, ← hopen]
    by_cases hnil : left = []
    · subst hnil
      have hless : (text.drop chunk.length).length < text.length := by
        rw [← hchunk]
        exact length_drop_chunk (by rwa [hchunk])
      rw [List.length_nil, ih _ hless hfree₂ (by simpa using hlater.symm) rfl]
      simp
    · exact iff_of_false (readWrites_open hw hleft hnil hfree₂ hlater) fun h => hnil h.1

/-- **The pids are moved**, each once and in order, exactly when every chunk ends with a line. -/
theorem moveProcs_moves_iff (pids : List Nat) (reads : Nat → Nat) (junk : Buffer UInt8)
    {write : CStr → Bool} (hw : ∀ pid, write pid = true) :
    procsWrites write reads junk pids = (pids.map fun (pid : Nat) => CStr.decimal pid, 0) ↔
      ∀ chunk ∈ procsChunks reads (pidsText pids), chunk.getLast? = some newline := by
  refine readWrites_lines hw (fun l hl => ?_) (by simp [pidsText, Function.comp_def])
  obtain ⟨pid, _, rfl⟩ := List.mem_map.mp hl
  exact newline_notMem_decimal pid

/-- Pids that fit the buffer together, read at once. -/
theorem moveProcs_atOnce :
    procsWrites (fun _ => true) (fun _ => 200) (fun _ => 0) [1, 11] =
      ([.decimal 1, .decimal 11], 0) :=
  (moveProcs_moves_iff [1, 11] (fun _ => 200) (fun _ => 0) fun _ => rfl).mpr (by decide +kernel)

/-- The first read ends within the second pid, whose start is lost. -/
theorem moveProcs_movesTwice :
    procsWrites (fun _ => true) (fun n => if n = 0 then 3 else 200) (fun _ => 0) [1, 11] =
      ([.decimal 1, .decimal 1], 0) := by
  decide +kernel

/-! ## Runs over the kernel -/

/-- The pids that were written to a cgroup, the last one first. -/
def pidsWritten (toFd : Dir) (calls : List (Tree × Call)) : List CStr :=
  calls.filterMap fun
    | (_, .write dir .procs value) => if dir = toFd then some value else none
    | _ => none

variable {k : Kernel} {p : Process} {w w' : World} {fromFd toFd : Dir}

@[simp] theorem pidsWritten_read (t : Tree) (d : Dir) (entry : Entry) (calls : List (Tree × Call)) :
    pidsWritten toFd ((t, .read d entry) :: calls) = pidsWritten toFd calls := rfl

@[simp] theorem pidsWritten_write (t : Tree) (value : CStr) (calls : List (Tree × Call)) :
    pidsWritten toFd ((t, .write toFd .procs value) :: calls) =
      value :: pidsWritten toFd calls := by
  simp [pidsWritten]

theorem scanPids_writes :
    wp (scanPids k toFd count buffer pidpos rpos)
      (fun scanned w' => ∃ pids,
        scanWrites (fun _ => true) count buffer pidpos rpos = (pids, some scanned) ∧
          pidsWritten toFd w'.calls = pids.reverse ++ pidsWritten toFd w.calls)
      (fun _ _ => True) w := by
  induction hn : count - rpos generalizing buffer pidpos rpos w with
  | zero =>
    rw [scanPids, if_neg (by omega), scanWrites, if_neg (by omega)]
    exact ⟨[], rfl, rfl⟩
  | succ n ih =>
    have hlt : rpos < count := by omega
    by_cases hnl : buffer rpos = newline
    · rw [scanPids, if_pos hlt, if_pos hnl, wp_bind]
      refine wp_writeEntry (fun t _ _ => ?_) trivial
      rw [if_neg (by simp)]
      refine wp_mono (ih (by omega)) (fun scanned w' h => ?_) (fun _ _ h => h)
      obtain ⟨pids, hpids, hcalls⟩ := h
      refine ⟨.ofBytes ((buffer.store rpos 0).slice pidpos procsBufferSize) :: pids, ?_, ?_⟩
      · rw [scanWrites, if_pos hlt, if_pos hnl]
        dsimp only
        rw [hpids]
        rfl
      · rw [hcalls, pidsWritten_write]
        simp
    · rw [scanPids, if_pos hlt, if_neg hnl, scanWrites, if_pos hlt, if_neg hnl]
      exact ih (by omega)

/-- **A run over the kernel** that ends well writes what `readWrites` does for some sizes of the
reads. -/
theorem readPids_writes :
    wp (readPids k fromFd toFd text buffer rpos)
      (fun _ w' => ∃ reads pids, readWrites (fun _ => true) reads text buffer rpos = (pids, 0) ∧
        pidsWritten toFd w'.calls = pids.reverse ++ pidsWritten toFd w.calls)
      (fun _ _ => True) w := by
  induction hn : text.length using Nat.strong_induction_on generalizing text buffer rpos w with
  | _ n ih =>
    subst hn
    rw [readPids, wp_bind]
    refine wp_call fun granted => ?_
    rw [wp_bind, wp_get]
    dsimp only
    generalize hsize : k.readSize _ = size
    rw [wp_ite]
    split
    · trivial
    split
    · rename_i hchunk
      refine ⟨fun _ => size, [], ?_, by simp⟩
      rw [readWrites, dif_pos hchunk]
    · rename_i hchunk
      rw [wp_bind]
      refine wp_mono scanPids_writes (fun scanned w₁ hscanned => ?_) (fun _ _ h => h)
      obtain ⟨pids, hpids, hcalls⟩ := hscanned
      refine wp_mono (ih _ (length_drop_chunk hchunk) rfl) (fun _ w' h => ?_) (fun _ _ h => h)
      obtain ⟨reads, later, hlater, hcalls'⟩ := h
      refine ⟨fun n => if n = 0 then size else reads (n - 1), pids ++ later, ?_, ?_⟩
      · rw [readWrites]
        simp only [if_true, Nat.add_one_ne_zero, if_false, Nat.add_sub_cancel]
        rw [dif_neg hchunk, hpids]
        dsimp only
        rw [hlater]
      · rw [hcalls', hcalls]
        simp

def Tree.pids (t : Tree) (d : Dir) : List Nat := (t.procs.filter (·.2 = d)).map (·.1)

theorem procsText_eq (t : Tree) (d : Dir) : procsText t d = pidsText (t.pids d) := by
  simp [procsText, pidsText, terminated, Tree.pids, List.flatMap_map]

theorem moveProcs_writes :
    wp (moveProcs k p fromFd toFd)
      (fun _ w' => ∃ reads pids,
        procsWrites (fun _ => true) reads p.procsJunk (w.tree.pids fromFd) = (pids, 0) ∧
          pidsWritten toFd w'.calls = pids.reverse ++ pidsWritten toFd w.calls)
      (fun _ _ => True) w := by
  rw [moveProcs, wp_bind]
  refine wp_readEntry (fun _ => ?_) trivial
  rw [procsText_eq]
  exact readPids_writes

end Cgroup
end RedPak
