import Smerp.Protocol.EndOfData

/-!
# What `getEoD` looks at, and what it leaves behind the mark

`getEoD` scans a block up to its size, not up to its position: `reads_received_iff` says that what
it does depends on the received bytes only exactly for full blocks. `input_survives_iff` says when
the byte that stands for the line end of the mark is this line end.
-/

namespace Smerp.Protocol

open Lib EoD

namespace EoD

/-- The bytes that `getEoD` leaves in front of the new position: those in front of the start, the
bytes kept, and one byte in place of the one that completes the mark. -/
theorem get_eod_left (block : InputBlock) {start : Nat} (hstart : start < block.size) :
    ∃ left, bytesLeft (block.getEoD start) = block.bytes.take start ++ left ∧
      match scan block.eodState.phase (block.bytes.drop start) with
      | .unmarked kept _ => left = kept
      | .marked kept _ rest => ∃ placeholder,
          (block.bytes.drop start)[kept.length]? = some placeholder ∧
            left = kept ++ placeholder :: rest := by
  have hinside : start ≤ block.bytes.length := Nat.le_of_lt hstart
  cases hscan : scan block.eodState.phase (block.bytes.drop start) with
  | unmarked kept final =>
      obtain ⟨state, -, heq⟩ := get_eod_unmarked block hstart hscan
      refine ⟨kept, ?_, rfl⟩
      rw [heq]
      exact Block.store_take kept hinside
  | marked kept terminator rest =>
      obtain ⟨state, placeholder, -, hplace, heq⟩ := get_eod_marked block hstart hscan
      refine ⟨kept ++ placeholder :: rest, ?_, placeholder, hplace, rfl⟩
      rw [heq]
      exact Block.store_take (kept ++ placeholder :: rest) hinside

end EoD

/-! ## Bytes behind the position -/

/-- On this block and any other that agrees with it on the received bytes, those below `pos()`,
`getEoD` returns the same position and leaves the same bytes, the same `pos()` and the same state;
and `pos()` does not grow. -/
def InputBlock.ReadsReceived (block : InputBlock) (start : Nat) : Prop :=
  ∀ other : InputBlock, other.size = block.size → other.pos = block.pos →
    other.eodState = block.eodState → other.bytes.take block.pos = block.bytes.take block.pos →
    (other.getEoD start).1 = (block.getEoD start).1 ∧
      (other.getEoD start).2.pos = (block.getEoD start).2.pos ∧
      bytesLeft (other.getEoD start) = bytesLeft (block.getEoD start) ∧
      (other.getEoD start).2.eodState = (block.getEoD start).2.eodState ∧
      (block.getEoD start).2.pos ≤ block.pos

/-- A byte that neither ends a line nor is a dot is kept in every state. -/
theorem EoD.scan_plain {ch : Byte} (hlf : ch ≠ LF) (hcr : ch ≠ CR) (hdot : ch ≠ DOT)
    (phase : Phase) (count : Nat) :
    ∃ final, scan phase (List.replicate count ch) = .unmarked (List.replicate count ch) final := by
  induction count generalizing phase with
  | zero => exact ⟨phase, scan_nil phase⟩
  | succ count ih =>
      rw [List.replicate_succ]
      cases phase with
      | src =>
          obtain ⟨final, hscan⟩ := ih .src
          exact ⟨final, by simp [scan, hlf, hscan]⟩
      | lf =>
          obtain ⟨final, hscan⟩ := ih .src
          exact ⟨final, by simp [scan, hdot, hscan]⟩
      | lfDot =>
          obtain ⟨final, hscan⟩ := ih .src
          exact ⟨final, by simp [scan, hcr, hlf, hscan]⟩
      | done => exact ⟨.done, scan_done _⟩

/-- The block with every byte from the position on replaced. -/
def InputBlock.staleWith (block : InputBlock) (ch : Byte) : InputBlock :=
  { block with bytes := block.bytes.take block.pos ++ List.replicate (block.size - block.pos) ch }

/-- Replacing the bytes from the position on keeps the size, and the received bytes. -/
theorem stale_with_spec {block : InputBlock} (hpos : block.pos < block.size) (ch : Byte) :
    (block.staleWith ch).size = block.size ∧
      (block.staleWith ch).bytes.take block.pos = block.bytes.take block.pos := by
  have hlen : (block.bytes.take block.pos).length = block.pos := by
    rw [List.length_take]
    exact Nat.min_eq_left (Nat.le_of_lt hpos)
  constructor
  · show (block.bytes.take block.pos ++ List.replicate (block.size - block.pos) ch).length = _
    rw [List.length_append, hlen, List.length_replicate]
    omega
  · exact List.take_left' hlen

/-- Of a block that is not full, the last byte that `getEoD` leaves is a stale one. -/
theorem get_eod_stale {block : InputBlock} {start : Nat} (hstart : start < block.size)
    (hpos : block.pos < block.size) {ch : Byte} (hlf : ch ≠ LF) (hcr : ch ≠ CR) (hdot : ch ≠ DOT) :
    (bytesLeft ((block.staleWith ch).getEoD start)).getLast? = some ch := by
  obtain ⟨hsize, -⟩ := stale_with_spec hpos ch
  obtain ⟨left, hleft, hscan⟩ := get_eod_left (block.staleWith ch) (hsize.symm ▸ hstart)
  -- at least one stale byte lies behind the start
  obtain ⟨front, count, hraw⟩ : ∃ front count,
      (block.staleWith ch).bytes.drop start = front ++ List.replicate (count + 1) ch := by
    have hlen : (block.bytes.take block.pos).length = block.pos := by
      rw [List.length_take]
      exact Nat.min_eq_left (Nat.le_of_lt hpos)
    refine ⟨(block.bytes.take block.pos).drop start,
      block.size - block.pos - (start - block.pos) - 1,
      ?_⟩
    rw [InputBlock.staleWith, List.drop_append, hlen, List.drop_replicate]
    congr 2
    omega
  have hlast (kept : List Byte) : (kept ++ List.replicate (count + 1) ch).getLast? = some ch := by
    rw [List.replicate_succ', ← List.append_assoc, List.getLast?_concat]
  rw [hraw, scan_append] at hscan
  rw [hleft]
  cases hfront : scan (block.staleWith ch).eodState.phase front with
  | unmarked kept final =>
      obtain ⟨last, hplain⟩ := scan_plain hlf hcr hdot final (count + 1)
      simp only [hfront, hplain, Scan.prepend] at hscan
      rw [hscan, ← List.append_assoc]
      exact hlast _
  | marked kept terminator rest =>
      simp only [hfront] at hscan
      obtain ⟨placeholder, -, hscan⟩ := hscan
      have hbytes : kept ++ placeholder :: (rest ++ List.replicate (count + 1) ch) =
          (kept ++ placeholder :: rest) ++ List.replicate (count + 1) ch := by simp
      rw [hscan, hbytes, ← List.append_assoc]
      exact hlast _

/-- **`getEoD` looks only at received bytes if and only if the block is full**, or the scan starts
behind the block. -/
theorem reads_received_iff (block : InputBlock) (start : Nat) :
    block.ReadsReceived start ↔ block.size ≤ block.pos ∨ block.size ≤ start := by
  constructor
  · intro h
    by_contra hnot
    rw [not_or, Nat.not_le, Nat.not_le] at hnot
    obtain ⟨hpos, hstart⟩ := hnot
    -- two blocks that differ in their stale bytes leave different bytes
    have hsame (ch : Byte) (hlf : ch ≠ LF) (hcr : ch ≠ CR) (hdot : ch ≠ DOT) :
        (bytesLeft (block.getEoD start)).getLast? = some ch := by
      obtain ⟨hsize, hfront⟩ := stale_with_spec hpos ch
      obtain ⟨-, -, hleft, -⟩ := h (block.staleWith ch) hsize rfl rfl hfront
      rw [← hleft]
      exact get_eod_stale hstart hpos hlf hcr hdot
    have hfirst := hsame SPACE (by decide) (by decide) (by decide)
    have hsecond := hsame TAB (by decide) (by decide) (by decide)
    exact absurd (Option.some.inj (hfirst.symm.trans hsecond)) (by decide)
  · rintro (hfull | hbehind)
    · intro other hsize hpos hstate hbytes
      -- a full block has no other bytes than the received ones
      have hsame : other = block := by
        have hfull' : other.size ≤ block.pos := hsize.symm ▸ hfull
        rw [List.take_of_length_le hfull, List.take_of_length_le hfull'] at hbytes
        obtain ⟨⟨bytes, pos⟩, state⟩ := block
        obtain ⟨⟨bytes', pos'⟩, state'⟩ := other
        simp only at hpos hstate hbytes
        rw [hpos, hstate, hbytes]
      subst hsame
      refine ⟨rfl, rfl, rfl, rfl, ?_⟩
      by_cases hstart : start < other.size
      · exact Nat.le_trans (get_eod_bounds other hstart).2.2.1 hfull
      · rw [InputBlock.getEoD, if_pos (Nat.le_of_not_lt hstart)]
    · intro other hsize hpos hstate hbytes
      rw [InputBlock.getEoD, InputBlock.getEoD, if_pos hbehind, if_pos (hsize.symm ▸ hbehind)]
      exact ⟨rfl, hpos, by simpa [bytesLeft, hpos] using hbytes, hstate, Nat.le_refl _⟩

/-- **Stale bytes become input**: a block of two bytes into which one byte was read. -/
theorem not_reads_received : ¬ ∀ (block : InputBlock) (start : Nat), block.ReadsReceived start := by
  intro h
  have hsame := h ⟨⟨text "ab", 1⟩, .src⟩ 0 ⟨⟨text "ac", 1⟩, .src⟩ (by decide) rfl rfl (by decide)
  have hleft : text "ac" = text "ab" := hsame.2.2.1
  exact absurd hleft (by decide)

/-! ## Bytes behind the mark -/

/-- The bytes from the returned iterator to `end()`. -/
def bytesBehind (call : Nat × InputBlock) : List Byte := (bytesLeft call).drop call.1

/-- The bytes kept in front of a position. -/
def keptIn (phase : Phase) (front : List Byte) : Nat := (Transducer.feed step phase front).2.length

/-- The scan of a block in which a line end stands behind a dot that follows a line feed. -/
theorem scan_mark {phase : Phase} {front back : List Byte} {terminator : Byte}
    (hdot : (Transducer.feed step phase front).1 = .lfDot) (hend : isLineEnd terminator = true) :
    ∃ kept, kept.length = keptIn phase front ∧
      scan phase (front ++ terminator :: back) = .marked kept terminator back := by
  have hdescribes := scan_describes phase front
  cases hfront : scan phase front with
  | unmarked kept final =>
      rw [hfront] at hdescribes
      obtain ⟨hfeed, -⟩ := hdescribes
      have hfinal : final = .lfDot := by simpa [hfeed] using hdot
      have hends : terminator = CR ∨ terminator = LF := by simpa [isLineEnd] using hend
      refine ⟨kept, by rw [keptIn, hfeed, List.length_map], ?_⟩
      rw [scan_append, hfront, hfinal]
      simp [scan, hends]
  | marked kept other rest =>
      rw [hfront] at hdescribes
      simp [hdescribes.1] at hdot

/-- **Input behind the mark survives if and only if** the byte that the block held at the position
to which the mark moves is the line end of the mark. The bytes from the returned iterator on are
the line end of the mark and what was received behind it exactly if the dots removed from this
block in front of the mark leave such a byte there, and if this position is no negative `int`. -/
theorem input_survives_iff (state : State) (bytes : List Byte) (start : Nat)
    {front back : List Byte} {terminator : Byte}
    (hraw : bytes.drop start = front ++ terminator :: back)
    (hdot : (Transducer.feed step state.phase front).1 = .lfDot)
    (hend : isLineEnd terminator = true) :
    bytesBehind ((filled state bytes).getEoD start) = terminator :: back ↔
      keptIn state.phase front < 2 ^ 31 ∧
        (bytes.drop start)[keptIn state.phase front]? = some terminator := by
  obtain ⟨kept, hkept, hscan⟩ := scan_mark hdot hend
  have hstart : start < (filled state bytes).size := by
    have hlen := congrArg List.length hraw
    rw [List.length_drop, List.length_append, List.length_cons] at hlen
    show start < bytes.length
    omega
  have hscan' : scan (filled state bytes).eodState.phase ((filled state bytes).bytes.drop start) =
      .marked kept terminator back := by
    show scan state.phase (bytes.drop start) = _
    rw [hraw, hscan]
  obtain ⟨after, placeholder, -, hplace, heq⟩ := get_eod_marked (filled state bytes) hstart hscan'
  have hfront : (bytes.take start).length = start := List.length_take_of_le (Nat.le_of_lt hstart)
  have hleft : bytesLeft ((filled state bytes).getEoD start) =
      bytes.take start ++ kept ++ placeholder :: back := by
    rw [heq, List.append_assoc]
    exact Block.store_take (kept ++ placeholder :: back) (Nat.le_of_lt hstart)
  have hplace' : (bytes.drop start)[kept.length]? = some placeholder := hplace
  rw [bytesBehind, hleft, heq, ← hkept, hplace']
  by_cases hshort : kept.length < 2 ^ 31
  · rw [to_int_eq hshort, if_pos (Int.natCast_nonneg _), Int.toNat_natCast,
      List.drop_left' (by rw [List.length_append, hfront]), and_iff_right hshort]
    simp
  · -- the iterator returned is not the position of the mark
    have hsmall := to_int_to_nat_lt kept.length
    refine ⟨?_, fun h ↦ absurd h.1 hshort⟩
    intro hsame
    have hlen := congrArg List.length hsame
    simp only [List.length_drop, List.length_append, List.length_cons, hfront] at hlen
    split at hlen <;> omega

/-- A block in which the dot of the mark was received with an earlier block. -/
theorem input_survives_iff_split :
    bytesBehind ((filled .lfDot (text "\nquit\n")).getEoD 0) = text "\nquit\n" ↔
      keptIn .lfDot [] < 2 ^ 31 ∧ (text "\nquit\n")[keptIn .lfDot []]? = some LF :=
  input_survives_iff .lfDot (text "\nquit\n") 0 rfl rfl rfl

/-- **The line end of the mark is lost**: in its place the iterator stands on the dot. -/
theorem not_input_survives : ¬ ∀ (state : State) (bytes : List Byte) (start : Nat)
    (front back : List Byte) (terminator : Byte), bytes.drop start = front ++ terminator :: back →
    (Transducer.feed step state.phase front).1 = .lfDot → isLineEnd terminator = true →
      bytesBehind ((filled state bytes).getEoD start) = terminator :: back := by
  intro h
  have hquit := h .src (text "a\n.\nquit\n") 0 (text "a\n.") (text "quit\n") LF rfl rfl rfl
  revert hquit
  decide

end Smerp.Protocol
