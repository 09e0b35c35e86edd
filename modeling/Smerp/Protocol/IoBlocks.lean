import Smerp.Lib.Block
import Smerp.Lib.Iteration
import Smerp.Protocol.Chars

/-!
# Input and output blocks

The memory blocks of `include/protocol/ioblocks.hpp` and `src/protocol_ioblocks.cpp`. A block is
its memory together with the position `m_pos`: the number of valid bytes of an input block, the
number of printed bytes of an output block. The iterators of the source hold a pointer to their
block and an index. All iterators of one connection point to the same block, so an iterator is
its index here.
-/

namespace Smerp.Protocol

open Lib

/-- What can go wrong inside a handler call: the exception of `MemBlock::operator[]`, a read
outside of the allocated memory, and a `for (;;)` that does not end. -/
inductive Fault where
  | arrayBoundRead
  | wildRead
  | endless
  deriving DecidableEq, Repr

/-- A memory block for network messages: the bytes `m_ptr[0..m_size)` and the position `m_pos`. -/
structure MemBlock where
  bytes : List Byte
  pos : Nat
  deriving DecidableEq, Repr

/-- The size the block was allocated with. -/
def MemBlock.size (block : MemBlock) : Nat := block.bytes.length

/-- `operator[]`: reading at or behind `pos()` throws. -/
def MemBlock.get (block : MemBlock) (idx : Nat) : Except Fault Byte :=
  if idx ≥ block.pos then .error .arrayBoundRead
  else match block.bytes[idx]? with
    | some ch => .ok ch
    | none => .error .wildRead

/-- A read in front of `pos()` gives the stored byte. -/
theorem MemBlock.get_eq {block : MemBlock} {idx : Nat} {ch : Byte} (hpos : idx < block.pos)
    (hch : block.bytes[idx]? = some ch) : block.get idx = .ok ch := by
  simp [MemBlock.get, hch, Nat.not_le.mpr hpos]

/-- The states of the end-of-data scanner. -/
inductive EoD.State where
  | src
  | lf
  | lfDot
  | lfDotCr
  | lfDotCrLf
  deriving DecidableEq, Repr

/-- An input block: a memory block with the state of the end-of-data scanner. -/
structure InputBlock extends MemBlock where
  eodState : EoD.State
  deriving DecidableEq, Repr

/-- A newly constructed input block over uninitialised memory. -/
def InputBlock.new (memory : List Byte) : InputBlock := ⟨⟨memory, 0⟩, .src⟩

/-- `setPos` -/
def InputBlock.setPos (block : InputBlock) (pos : Nat) : InputBlock := { block with pos := pos }

/-- `resetEoD` -/
def InputBlock.resetEoD (block : InputBlock) : InputBlock := { block with eodState := .src }

/-- The local variables of `getEoD`: the memory from the start offset on, the scan position, the
end of the bytes already copied or dropped, the end of the bytes kept, the mark, and the state. -/
structure EodCursor where
  buf : List Byte
  bufpos : Nat
  eatsize : Nat
  dstsize : Nat
  eodpos : Int
  state : EoD.State
  deriving DecidableEq, Repr

/-- `moveInput`: close the gap in front of the pending bytes `[eatsize, bufpos)`. -/
def moveInput (c : EodCursor) : EodCursor :=
  { c with
    buf := if c.dstsize ≠ c.eatsize then
        Block.memmove c.buf c.dstsize c.eatsize (c.bufpos - c.eatsize) else c.buf
    dstsize := c.dstsize + (c.bufpos - c.eatsize)
    eatsize := c.bufpos }

/-- Keep the bytes in front of `pos` and go to `state`:
`bufpos = pos; if (bufpos == bufsize) moveInput(...); m_eodState = state;` -/
def EodCursor.keepUpTo (bufsize pos : Nat) (state : EoD.State) (c : EodCursor) : EodCursor :=
  let passed := { c with bufpos := pos, state := state }
  if pos = bufsize then moveInput passed else passed

/-- The conversion of an `unsigned int` to `int`. -/
def toInt (value : Nat) : Int := Int.bmod value (2 ^ 32)

/-- The byte at the scan position; the loop only looks at it inside the block. -/
def EodCursor.current (c : EodCursor) : Option Byte := c.buf[c.bufpos]?

/-- `eodpos = (int)dstsize++; bufpos++; eatsize = bufpos;` with the new state. -/
def EodCursor.markEod (c : EodCursor) (state : EoD.State) : EodCursor :=
  { c with
    eodpos := toInt c.dstsize
    dstsize := c.dstsize + 1
    state := state
    bufpos := c.bufpos + 1
    eatsize := c.bufpos + 1 }

/-- One pass of the `while` loop of `getEoD`. -/
def eodPass (bufsize : Nat) (c : EodCursor) : EodCursor :=
  match c.state with
  | .src =>
      match Block.memchr c.buf c.bufpos (bufsize - c.bufpos) LF with
      | some cc => c.keepUpTo bufsize (cc + 1) .lf
      | none => moveInput { c with bufpos := bufsize }
  | .lf =>
      if c.current = some DOT then
        let moved := moveInput { c with state := .lfDot }
        { moved with bufpos := moved.bufpos + 1, eatsize := moved.bufpos + 1 }
      else c.keepUpTo bufsize (c.bufpos + 1) .src
  | .lfDot =>
      if c.current = some CR then c.markEod .lfDotCr
      else if c.current = some LF then c.markEod .lfDotCrLf
      else c.keepUpTo bufsize (c.bufpos + 1) .src
  | .lfDotCr =>
      c.keepUpTo bufsize (if c.current = some LF then c.bufpos + 1 else c.bufpos) .lfDotCrLf
  | .lfDotCrLf => moveInput { c with bufpos := bufsize }

/-- The `while (bufpos < bufsize)` loop of `getEoD`. One transition consumes no byte, and it is
taken at most once, so `bufsize + 1` passes are enough. -/
def eodLoop (bufsize : Nat) (c : EodCursor) : EodCursor :=
  whileDo (fun c ↦ c.bufpos < bufsize) (eodPass bufsize) (bufsize + 1) c

/-- The end of `getEoD`: adjust the position to the bytes kept, and return the end-of-data position
or `end()`. -/
def InputBlock.finishEoD (block : InputBlock) (offset : Nat) (c : EodCursor) : Nat × InputBlock :=
  (if c.eodpos ≥ 0 then offset + c.eodpos.toNat else offset + c.dstsize,
    ⟨⟨block.bytes.take offset ++ c.buf, offset + c.dstsize⟩, c.state⟩)

/-- `InputBlock::getEoD`: scan the block for the end of data from `start` on and remove the leading
dots in place. The block is scanned up to its size, not up to its position. -/
def InputBlock.getEoD (block : InputBlock) (start : Nat) : Nat × InputBlock :=
  if block.size ≤ start then (start, block)
  else block.finishEoD start (eodLoop (block.size - start)
    ⟨block.bytes.drop start, 0, 0, 0, -1, block.eodState⟩)

/-- An output block. -/
structure OutputBlock extends MemBlock where
  deriving DecidableEq, Repr

/-- A newly constructed output block over uninitialised memory. -/
def OutputBlock.new (memory : List Byte) : OutputBlock := ⟨⟨memory, 0⟩⟩

/-- `print`: append one character, or fail on a full block. -/
def OutputBlock.print (block : OutputBlock) (ch : Byte) : Bool × OutputBlock :=
  if block.pos = block.size then (false, block)
  else (true, ⟨⟨block.bytes.set block.pos ch, block.pos + 1⟩⟩)

/-- `restsize` -/
def OutputBlock.restsize (block : OutputBlock) : Nat := block.size - block.pos

/-- `release` -/
def OutputBlock.release (block : OutputBlock) : OutputBlock := ⟨⟨block.bytes, 0⟩⟩

/-- The printed bytes. -/
def OutputBlock.content (block : OutputBlock) : List Byte := block.bytes.take block.pos

/-- Print characters one after the other. -/
def OutputBlock.printAll (block : OutputBlock) (chars : List Byte) : OutputBlock :=
  chars.foldl (fun block ch ↦ (block.print ch).2) block

@[simp] theorem OutputBlock.content_release (block : OutputBlock) : block.release.content = [] := by
  simp [OutputBlock.release, OutputBlock.content]

theorem OutputBlock.content_length {block : OutputBlock} (h : block.pos ≤ block.size) :
    block.content.length = block.pos := by
  rw [OutputBlock.content, List.length_take]
  exact Nat.min_eq_left h

/-- Printing on a block with room appends the character. -/
theorem OutputBlock.print_spec {block : OutputBlock} (ch : Byte) (h : block.pos < block.size) :
    (block.print ch).2.content = block.content ++ [ch] ∧
      (block.print ch).2.pos = block.pos + 1 ∧ (block.print ch).2.size = block.size := by
  rw [OutputBlock.print, if_neg (Nat.ne_of_lt h)]
  refine ⟨?_, rfl, by simp [MemBlock.size]⟩
  simp only [OutputBlock.content]
  rw [List.take_add_one, List.getElem?_set_self h, List.take_set_of_le (Nat.le_refl _)]
  rfl

/-- Printing characters for which there is room appends them. -/
theorem OutputBlock.print_all_spec {block : OutputBlock} (chars : List Byte)
    (h : block.pos + chars.length ≤ block.size) :
    (block.printAll chars).content = block.content ++ chars ∧
      (block.printAll chars).pos = block.pos + chars.length ∧
      (block.printAll chars).size = block.size := by
  induction chars generalizing block with
  | nil => simp [OutputBlock.printAll]
  | cons ch rest ih =>
      simp only [List.length_cons] at h
      obtain ⟨hcontent, hpos, hsize⟩ := OutputBlock.print_spec ch
        (show block.pos < block.size by omega)
      have hroom : (block.print ch).2.pos + rest.length ≤ (block.print ch).2.size := by
        rw [hpos, hsize]
        omega
      obtain ⟨hcontent', hpos', hsize'⟩ := ih hroom
      rw [hcontent, List.append_assoc, List.singleton_append] at hcontent'
      rw [hpos] at hpos'
      rw [hsize] at hsize'
      refine ⟨hcontent', ?_, hsize'⟩
      rw [List.length_cons, Nat.add_comm rest.length, ← Nat.add_assoc]
      exact hpos'

end Smerp.Protocol
