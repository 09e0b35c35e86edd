import Smerp.Protocol.EndOfData

/-!
# Memory safety of the compaction loop

The loop of `InputBlock::getEoD` as a machine over the whole memory of the block, with `unsigned
int` cursors and with a record of each access to the memory. `Machine.view` is the loop of
`Smerp.Protocol.IoBlocks` as long as the cursors are in order. `pass_spec` says that the machine
follows that loop and stays in bounds, and `get_eod_compacts` carries this through all passes.
-/

namespace Smerp.Protocol.Compaction

open Lib EoD

/-- An access to the memory of the block: a read of a range, and a copy inside the block. -/
inductive Access where
  | read (start len : Nat)
  | copy (dst src len : Nat)
  deriving DecidableEq, Repr

/-- The access stays in `[offset, size)`. -/
def Access.Inside (offset size : Nat) : Access → Prop
  | .read start len => offset ≤ start ∧ start + len ≤ size
  | .copy dst src len => (offset ≤ dst ∧ dst + len ≤ size) ∧ offset ≤ src ∧ src + len ≤ size

/-- The memory of the block and the local variables of `getEoD`, with the accesses so far. -/
structure Machine where
  memory : List Byte
  bufpos : UInt32
  eatsize : UInt32
  dstsize : UInt32
  eodpos : Int
  state : State
  accesses : List Access
  deriving DecidableEq, Repr

namespace Machine

/-- The machine at the start of the loop. -/
def initial (block : InputBlock) : Machine := ⟨block.bytes, 0, 0, 0, -1, block.eodState, []⟩

/-- Look at the bytes `buf[bufpos .. bufpos+len)`. -/
def reads (offset : Nat) (len : UInt32) (m : Machine) : Machine :=
  { m with accesses := m.accesses ++ [.read (offset + m.bufpos.toNat) len.toNat] }

/-- `buf[bufpos]` -/
def current (offset : Nat) (m : Machine) : Option Byte := m.memory[offset + m.bufpos.toNat]?

/-- `moveInput` -/
def moveInput (offset : Nat) (m : Machine) : Machine :=
  let dst := offset + m.dstsize.toNat
  let src := offset + m.eatsize.toNat
  let len := m.bufpos - m.eatsize
  let moved := if m.dstsize ≠ m.eatsize then
      { m with
        memory := Block.memmove m.memory dst src len.toNat
        accesses := m.accesses ++ [.copy dst src len.toNat] }
    else m
  { moved with dstsize := m.dstsize + len, eatsize := m.bufpos }

/-- `bufpos = pos; if (bufpos == bufsize) moveInput(...); m_eodState = state;` -/
def keepUpTo (offset : Nat) (bufsize pos : UInt32) (state : State) (m : Machine) : Machine :=
  let passed := { m with bufpos := pos, state := state }
  if pos = bufsize then passed.moveInput offset else passed

/-- `eodpos = (int)dstsize++; bufpos++; eatsize = bufpos;` with the new state. -/
def markEod (state : State) (m : Machine) : Machine :=
  { m with
    eodpos := toInt m.dstsize.toNat
    dstsize := m.dstsize + 1
    state := state
    bufpos := m.bufpos + 1
    eatsize := m.bufpos + 1 }

/-- One pass of the loop. -/
def pass (offset : Nat) (bufsize : UInt32) (m : Machine) : Machine :=
  match m.state with
  | .src =>
      let searched := m.reads offset (bufsize - m.bufpos)
      match Block.memchr m.memory (offset + m.bufpos.toNat) (bufsize - m.bufpos).toNat LF with
      | some cc => searched.keepUpTo offset bufsize (UInt32.ofNat (cc - offset) + 1) .lf
      | none => moveInput offset { searched with bufpos := bufsize }
  | .lf =>
      let looked := m.reads offset 1
      if m.current offset = some DOT then
        let moved := moveInput offset { looked with state := .lfDot }
        { moved with bufpos := moved.bufpos + 1, eatsize := moved.bufpos + 1 }
      else looked.keepUpTo offset bufsize (m.bufpos + 1) .src
  | .lfDot =>
      let looked := m.reads offset 1
      if m.current offset = some CR then looked.markEod .lfDotCr
      else if m.current offset = some LF then looked.markEod .lfDotCrLf
      else looked.keepUpTo offset bufsize (m.bufpos + 1) .src
  | .lfDotCr =>
      let looked := m.reads offset 1
      looked.keepUpTo offset bufsize
        (if m.current offset = some LF then m.bufpos + 1 else m.bufpos) .lfDotCrLf
  | .lfDotCrLf => moveInput offset { m with bufpos := bufsize }

/-- The loop test `bufpos < bufsize`. -/
def goesOn (bufsize : UInt32) (m : Machine) : Bool := m.bufpos < bufsize

/-- The cursors as the loop of `getEoD` has them, over the memory from the offset on. -/
def view (offset : Nat) (m : Machine) : EodCursor :=
  ⟨m.memory.drop offset, m.bufpos.toNat, m.eatsize.toNat, m.dstsize.toNat, m.eodpos, m.state⟩

end Machine

/-- The memory in front of the offset is the received one, and all accesses were behind it and in
front of the end of the block. -/
structure Safe (bytes : List Byte) (offset : Nat) (m : Machine) : Prop where
  size : m.memory.length = bytes.length
  front : m.memory.take offset = bytes.take offset
  inside : ∀ access ∈ m.accesses, access.Inside offset bytes.length

/-- The cursors in their order. -/
structure Ordered (bufsize : UInt32) (m : Machine) : Prop where
  dst_le_eat : m.dstsize ≤ m.eatsize
  eat_le_pos : m.eatsize ≤ m.bufpos
  pos_le : m.bufpos ≤ bufsize

/-- One more access inside of the bounds. -/
theorem inside_append {accesses : List Access} {access : Access} {offset size : Nat}
    (h : ∀ earlier ∈ accesses, earlier.Inside offset size) (hlast : access.Inside offset size) :
    ∀ each ∈ accesses ++ [access], each.Inside offset size := by
  intro each hmem
  rcases List.mem_append.mp hmem with hearlier | heq
  · exact h each hearlier
  · rw [List.mem_singleton.mp heq]
    exact hlast

/-- The sum of positions that is still a position does not overflow. -/
theorem to_nat_add {first second : UInt32} (h : first.toNat + second.toNat < 2 ^ 32) :
    (first + second).toNat = first.toNat + second.toNat := by
  rw [UInt32.toNat_add, Nat.mod_eq_of_lt h]

/-- The byte under the scan position. -/
theorem current_view (offset : Nat) (m : Machine) : m.current offset = (m.view offset).current := by
  simp [Machine.current, EodCursor.current, Machine.view]

/-- Looking at bytes of the block is safe. -/
theorem Safe.reads {bytes : List Byte} {offset : Nat} {m : Machine} (h : Safe bytes offset m)
    {len : UInt32} (hroom : offset + m.bufpos.toNat + len.toNat ≤ bytes.length) :
    Safe bytes offset (m.reads offset len) :=
  ⟨h.size, h.front, inside_append h.inside ⟨Nat.le_add_right _ _, hroom⟩⟩

section Passes

variable {bytes raw : List Byte} {offset : Nat} {bufsize : UInt32} {m : Machine}

/-- The bytes from the offset on, and their number as an `unsigned int`. -/
structure Behind (bytes : List Byte) (offset : Nat) (raw : List Byte) (bufsize : UInt32) :
    Prop where
  drop : bytes.drop offset = raw
  le : offset ≤ bytes.length
  bufsize : bufsize.toNat = raw.length

/-- The number of bytes from the offset on. -/
theorem Behind.length (hraw : Behind bytes offset raw bufsize) :
    offset + raw.length = bytes.length := by
  rw [← hraw.drop, List.length_drop, Nat.add_sub_cancel' hraw.le]

/-- With the cursors in order, `moveInput` copies inside of the block. -/
theorem Safe.move_input (h : Safe bytes offset m) (hraw : Behind bytes offset raw bufsize)
    (hok : CursorOk raw (m.view offset)) :
    Safe bytes offset (m.moveInput offset) ∧
      (m.moveInput offset).view offset = Protocol.moveInput (m.view offset) := by
  have hdst : m.dstsize.toNat ≤ m.eatsize.toNat := hok.dst_le_eat
  have heat : m.eatsize.toNat ≤ m.bufpos.toNat := hok.eat_le_pos
  have hpos : m.bufpos.toNat ≤ raw.length := hok.pos_le
  have hlength := hraw.length
  have hsize := h.size
  have hbound := m.bufpos.toNat_lt
  have hlen : (m.bufpos - m.eatsize).toNat = m.bufpos.toNat - m.eatsize.toNat :=
    UInt32.toNat_sub_of_le _ _ heat
  have hsum : (m.dstsize + (m.bufpos - m.eatsize)).toNat =
      m.dstsize.toNat + (m.bufpos.toNat - m.eatsize.toNat) := by
    rw [to_nat_add (by omega), hlen]
  have hsame : m.dstsize = m.eatsize ↔ m.dstsize.toNat = m.eatsize.toNat := UInt32.toNat_inj.symm
  by_cases hgap : m.dstsize = m.eatsize
  · have heq : m.moveInput offset =
        { m with dstsize := m.dstsize + (m.bufpos - m.eatsize), eatsize := m.bufpos } := by
      simp only [Machine.moveInput, hgap, ne_eq, not_true_eq_false, if_false]
    rw [heq]
    refine ⟨⟨h.size, h.front, h.inside⟩, ?_⟩
    simp only [Machine.view, Protocol.moveInput, hsum, ne_eq, hsame.mp hgap, not_true_eq_false,
      if_false]
  · obtain ⟨hbehind, hfront⟩ := Block.store_behind
      (Block.slice m.memory (offset + m.eatsize.toNat) (m.bufpos.toNat - m.eatsize.toNat))
      (show offset + m.dstsize.toNat ≤ m.memory.length by omega)
    have hwidth : (Block.slice m.memory (offset + m.eatsize.toNat)
        (m.bufpos.toNat - m.eatsize.toNat)).length = m.bufpos.toNat - m.eatsize.toNat := by
      rw [Block.slice_length]
      omega
    have heq : m.moveInput offset =
        { m with
          memory := Block.memmove m.memory (offset + m.dstsize.toNat) (offset + m.eatsize.toNat)
            (m.bufpos.toNat - m.eatsize.toNat)
          accesses := m.accesses ++ [.copy (offset + m.dstsize.toNat) (offset + m.eatsize.toNat)
            (m.bufpos.toNat - m.eatsize.toNat)]
          dstsize := m.dstsize + (m.bufpos - m.eatsize)
          eatsize := m.bufpos } := by
      simp only [Machine.moveInput, ne_eq, hgap, not_false_eq_true, if_true, hlen]
    rw [heq]
    refine ⟨⟨?_, ?_, ?_⟩, ?_⟩
    · exact (Block.store_length (by omega)).trans h.size
    · exact hfront.trans h.front
    · refine inside_append h.inside ⟨⟨?_, ?_⟩, ?_, ?_⟩ <;> omega
    · have hviewgap : m.dstsize.toNat ≠ m.eatsize.toNat := fun heq ↦ hgap (hsame.mpr heq)
      simp only [Machine.view, Protocol.moveInput, hsum, ne_eq, hviewgap, not_false_eq_true,
        if_true,
        Block.memmove, hbehind, Block.slice_drop]

/-- Keeping the bytes up to a position of the block is safe. -/
theorem Safe.keep_up_to (h : Safe bytes offset m) (hraw : Behind bytes offset raw bufsize)
    (hok : CursorOk raw (m.view offset)) {pos : UInt32} (hpos : m.bufpos.toNat ≤ pos.toNat)
    (hle : pos.toNat ≤ raw.length) (state : State) :
    Safe bytes offset (m.keepUpTo offset bufsize pos state) ∧
      (m.keepUpTo offset bufsize pos state).view offset =
        (m.view offset).keepUpTo raw.length pos.toNat state := by
  have hpassed : Safe bytes offset { m with bufpos := pos, state := state } :=
    ⟨h.size, h.front, h.inside⟩
  have hadvanced := hok.advance hpos hle state
  have hsame : pos = bufsize ↔ pos.toNat = raw.length := by
    rw [← hraw.bufsize]
    exact UInt32.toNat_inj.symm
  by_cases hend : pos = bufsize
  · rw [Machine.keepUpTo, if_pos hend, EodCursor.keepUpTo, if_pos (hsame.mp hend)]
    exact hpassed.move_input hraw hadvanced
  · rw [Machine.keepUpTo, if_neg hend, EodCursor.keepUpTo, if_neg fun heq ↦ hend (hsame.mpr heq)]
    exact ⟨hpassed, rfl⟩

/-- Going to the end of the block and moving what is pending is safe. -/
theorem Safe.move_rest (h : Safe bytes offset m) (hraw : Behind bytes offset raw bufsize)
    (hok : CursorOk raw (m.view offset)) :
    Safe bytes offset (Machine.moveInput offset { m with bufpos := bufsize }) ∧
      (Machine.moveInput offset { m with bufpos := bufsize }).view offset =
        Protocol.moveInput { m.view offset with bufpos := raw.length } := by
  have hlast : CursorOk raw (Machine.view offset { m with bufpos := bufsize }) :=
    hok.advance (show m.bufpos.toNat ≤ bufsize.toNat from hraw.bufsize ▸ hok.pos_le)
      (Nat.le_of_eq hraw.bufsize) m.state
  have hcursor : Machine.view offset { m with bufpos := bufsize } =
      { m.view offset with bufpos := raw.length } := by
    rw [← hraw.bufsize]
    rfl
  rw [← hcursor]
  exact Safe.move_input ⟨h.size, h.front, h.inside⟩ hraw hlast

/-- Marking the end of data touches no memory. -/
theorem Safe.mark_eod (h : Safe bytes offset m) (hok : CursorOk raw (m.view offset))
    (hnext : m.bufpos.toNat + 1 < 2 ^ 32) (state : State) :
    Safe bytes offset (m.markEod state) ∧
      (m.markEod state).view offset = (m.view offset).markEod state := by
  have hdst : m.dstsize.toNat ≤ m.eatsize.toNat := hok.dst_le_eat
  have heat : m.eatsize.toNat ≤ m.bufpos.toNat := hok.eat_le_pos
  have hmark : (m.dstsize + 1).toNat = m.dstsize.toNat + 1 :=
    to_nat_add (show m.dstsize.toNat + 1 < 2 ^ 32 by omega)
  have hpos : (m.bufpos + 1).toNat = m.bufpos.toNat + 1 := to_nat_add hnext
  refine ⟨⟨h.size, h.front, h.inside⟩, ?_⟩
  simp only [Machine.view, Machine.markEod, EodCursor.markEod, hmark, hpos]

/-- The pass is safe, and the machine follows the loop of `getEoD`. -/
def Follows (bytes raw : List Byte) (offset : Nat) (bufsize : UInt32) (m : Machine) : Prop :=
  Safe bytes offset (m.pass offset bufsize) ∧
    (m.pass offset bufsize).view offset = eodPass raw.length (m.view offset)

/-- With bytes left, the byte at the scan position is in the block, and behind it the position is
one more. -/
theorem Safe.look (h : Safe bytes offset m) (hraw : Behind bytes offset raw bufsize)
    (hlt : m.bufpos.toNat < raw.length) :
    Safe bytes offset (m.reads offset 1) ∧ m.bufpos.toNat + 1 < 2 ^ 32 ∧
      (m.bufpos + 1).toNat = m.bufpos.toNat + 1 := by
  have hbound : m.bufpos.toNat + 1 < 2 ^ 32 ∨ m.bufpos.toNat + 1 = 2 ^ 32 := by
    have := m.bufpos.toNat_lt
    omega
  have hlarge := bufsize.toNat_lt
  rw [hraw.bufsize] at hlarge
  have hlength := hraw.length
  have hnext : m.bufpos.toNat + 1 < 2 ^ 32 := by omega
  exact ⟨h.reads (show offset + m.bufpos.toNat + 1 ≤ bytes.length by omega), hnext,
    to_nat_add hnext⟩

/-- A pass in the state `SRC` searches the rest of the block. -/
theorem Safe.src_pass (h : Safe bytes offset m) (hraw : Behind bytes offset raw bufsize)
    (hok : CursorOk raw (m.view offset)) (hlt : m.bufpos.toNat < raw.length)
    (hstate : m.state = .src) : Follows bytes raw offset bufsize m := by
  have hlength := hraw.length
  have hlarge := bufsize.toNat_lt
  have hbufsize := hraw.bufsize
  have hrest : (bufsize - m.bufpos).toNat = raw.length - m.bufpos.toNat := by
    rw [UInt32.toNat_sub_of_le _ _ (show m.bufpos.toNat ≤ bufsize.toNat by omega), hbufsize]
  have hsearched : Safe bytes offset (m.reads offset (bufsize - m.bufpos)) := h.reads (by omega)
  have hsearch := Block.memchr_behind m.memory offset m.bufpos.toNat
    (raw.length - m.bufpos.toNat) LF
  cases hfind : Block.memchr (m.memory.drop offset) m.bufpos.toNat
      (raw.length - m.bufpos.toNat) LF with
  | some cc =>
      obtain ⟨front, back, hsplit, -, hcc⟩ := Block.memchr_some hfind
      have hlen := congrArg List.length hsplit
      rw [Block.slice_length, List.length_append, List.length_cons] at hlen
      have hinside : cc + 1 ≤ raw.length := by omega
      have hindex : (UInt32.ofNat cc).toNat = cc :=
        UInt32.toNat_ofNat_of_lt' (show cc < 2 ^ 32 by omega)
      have hpos : (UInt32.ofNat (offset + cc - offset) + 1).toNat = cc + 1 := by
        rw [Nat.add_sub_cancel_left, to_nat_add, hindex]
        · rfl
        · rw [hindex]
          exact show cc + 1 < 2 ^ 32 by omega
      have hpass : m.pass offset bufsize = (m.reads offset (bufsize - m.bufpos)).keepUpTo offset
          bufsize (UInt32.ofNat (offset + cc - offset) + 1) .lf := by
        simp only [Machine.pass, hstate, hrest, hsearch, hfind, Option.map_some]
      have hview : eodPass raw.length (m.view offset) =
          (m.view offset).keepUpTo raw.length (cc + 1) .lf := by
        simp only [eodPass, Machine.view, hstate, hfind]
      rw [Follows, hpass, hview, ← hpos]
      exact hsearched.keep_up_to hraw hok (show m.bufpos.toNat ≤ _ by omega) (by omega) .lf
  | none =>
      have hpass : m.pass offset bufsize = Machine.moveInput offset
          { m.reads offset (bufsize - m.bufpos) with bufpos := bufsize } := by
        simp only [Machine.pass, hstate, hrest, hsearch, hfind, Option.map_none]
      have hview : eodPass raw.length (m.view offset) =
          Protocol.moveInput { m.view offset with bufpos := raw.length } := by
        simp only [eodPass, Machine.view, hstate, hfind]
      rw [Follows, hpass, hview]
      exact hsearched.move_rest hraw hok

/-- A pass in the state `LF` moves the pending bytes in front of a dot. -/
theorem Safe.lf_pass (h : Safe bytes offset m) (hraw : Behind bytes offset raw bufsize)
    (hok : CursorOk raw (m.view offset)) (hlt : m.bufpos.toNat < raw.length)
    (hstate : m.state = .lf) : Follows bytes raw offset bufsize m := by
  obtain ⟨hlooked, hbound, hnext⟩ := h.look hraw hlt
  have hcurrent := current_view offset m
  by_cases hdot : m.current offset = some DOT
  · obtain ⟨hmoved, hmove⟩ := Safe.move_input (m := { m.reads offset 1 with state := .lfDot })
      ⟨hlooked.size, hlooked.front, hlooked.inside⟩ hraw
      (hok.advance (Nat.le_refl _) (Nat.le_of_lt hlt) .lfDot)
    have hstays : (Machine.moveInput offset { m.reads offset 1 with state := .lfDot }).bufpos =
        m.bufpos := by
      simp only [Machine.moveInput]
      split <;> rfl
    have hpass : m.pass offset bufsize =
        { Machine.moveInput offset { m.reads offset 1 with state := .lfDot } with
          bufpos := m.bufpos + 1, eatsize := m.bufpos + 1 } := by
      simp only [Machine.pass, hstate, hdot, if_true, hstays]
    have hview : eodPass raw.length (m.view offset) =
        { Protocol.moveInput { m.view offset with state := .lfDot } with
          bufpos := m.bufpos.toNat + 1, eatsize := m.bufpos.toNat + 1 } := by
      have hviewstate : (m.view offset).state = .lf := hstate
      simp only [eodPass, hviewstate, ← hcurrent, hdot, if_true]
      rfl
    have hcursor : Machine.view offset { m.reads offset 1 with state := .lfDot } =
        { m.view offset with state := .lfDot } := rfl
    rw [Follows, hpass, hview, ← hcursor, ← hmove, ← hnext]
    exact ⟨⟨hmoved.size, hmoved.front, hmoved.inside⟩, rfl⟩
  · have hpass : m.pass offset bufsize =
        (m.reads offset 1).keepUpTo offset bufsize (m.bufpos + 1) .src := by
      simp only [Machine.pass, hstate, hdot, if_false]
    have hview : eodPass raw.length (m.view offset) =
        (m.view offset).keepUpTo raw.length (m.bufpos.toNat + 1) .src := by
      have hviewstate : (m.view offset).state = .lf := hstate
      simp only [eodPass, hviewstate, ← hcurrent, hdot, if_false]
      rfl
    rw [Follows, hpass, hview, ← hnext]
    exact hlooked.keep_up_to hraw hok (show m.bufpos.toNat ≤ _ by omega) (by omega) .src

/-- A pass in the state `LF_DOT` marks the end of data without a move. -/
theorem Safe.lf_dot_pass (h : Safe bytes offset m) (hraw : Behind bytes offset raw bufsize)
    (hok : CursorOk raw (m.view offset)) (hlt : m.bufpos.toNat < raw.length)
    (hstate : m.state = .lfDot) : Follows bytes raw offset bufsize m := by
  obtain ⟨hlooked, hbound, hnext⟩ := h.look hraw hlt
  have hcurrent := current_view offset m
  have hviewstate : (m.view offset).state = .lfDot := hstate
  by_cases hcr : m.current offset = some CR
  · have hpass : m.pass offset bufsize = (m.reads offset 1).markEod .lfDotCr := by
      simp only [Machine.pass, hstate, hcr, if_true]
    have hview : eodPass raw.length (m.view offset) = (m.view offset).markEod .lfDotCr := by
      simp only [eodPass, hviewstate, ← hcurrent, hcr, if_true]
    rw [Follows, hpass, hview]
    exact hlooked.mark_eod hok hbound .lfDotCr
  · by_cases hlf : m.current offset = some LF
    · have hother : ¬ (some LF = some CR) := by decide
      have hpass : m.pass offset bufsize = (m.reads offset 1).markEod .lfDotCrLf := by
        simp only [Machine.pass, hstate, hlf, hother, if_false, if_true]
      have hview : eodPass raw.length (m.view offset) = (m.view offset).markEod .lfDotCrLf := by
        simp only [eodPass, hviewstate, ← hcurrent, hlf, hother, if_false, if_true]
      rw [Follows, hpass, hview]
      exact hlooked.mark_eod hok hbound .lfDotCrLf
    · have hpass : m.pass offset bufsize =
          (m.reads offset 1).keepUpTo offset bufsize (m.bufpos + 1) .src := by
        simp only [Machine.pass, hstate, hcr, hlf, if_false]
      have hview : eodPass raw.length (m.view offset) =
          (m.view offset).keepUpTo raw.length (m.bufpos.toNat + 1) .src := by
        simp only [eodPass, hviewstate, ← hcurrent, hcr, hlf, if_false]
        rfl
      rw [Follows, hpass, hview, ← hnext]
      exact hlooked.keep_up_to hraw hok (show m.bufpos.toNat ≤ _ by omega) (by omega) .src

/-- A pass in the state `LF_DOT_CR` may consume nothing. -/
theorem Safe.lf_dot_cr_pass (h : Safe bytes offset m) (hraw : Behind bytes offset raw bufsize)
    (hok : CursorOk raw (m.view offset)) (hlt : m.bufpos.toNat < raw.length)
    (hstate : m.state = .lfDotCr) : Follows bytes raw offset bufsize m := by
  obtain ⟨hlooked, hbound, hnext⟩ := h.look hraw hlt
  have hcurrent := current_view offset m
  have hviewstate : (m.view offset).state = .lfDotCr := hstate
  have hpass : m.pass offset bufsize = (m.reads offset 1).keepUpTo offset bufsize
      (if m.current offset = some LF then m.bufpos + 1 else m.bufpos) .lfDotCrLf := by
    simp only [Machine.pass, hstate]
  have hview : eodPass raw.length (m.view offset) = (m.view offset).keepUpTo raw.length
      (if m.current offset = some LF then m.bufpos + 1 else m.bufpos).toNat .lfDotCrLf := by
    simp only [eodPass, hviewstate, ← hcurrent]
    split
    · rw [hnext]
      rfl
    · rfl
  rw [Follows, hpass, hview]
  refine hlooked.keep_up_to hraw hok ?_ ?_ .lfDotCrLf
  · show m.bufpos.toNat ≤ _
    split <;> omega
  · split <;> omega

/-- With the cursors in order and bytes left, a pass is safe, and the machine follows the loop. -/
theorem Safe.pass_spec (h : Safe bytes offset m) (hraw : Behind bytes offset raw bufsize)
    (hok : CursorOk raw (m.view offset)) (hlt : m.bufpos.toNat < raw.length) :
    Follows bytes raw offset bufsize m := by
  cases hstate : m.state with
  | src => exact h.src_pass hraw hok hlt hstate
  | lf => exact h.lf_pass hraw hok hlt hstate
  | lfDot => exact h.lf_dot_pass hraw hok hlt hstate
  | lfDotCr => exact h.lf_dot_cr_pass hraw hok hlt hstate
  | lfDotCrLf =>
      have hviewstate : (m.view offset).state = .lfDotCrLf := hstate
      have hpass : m.pass offset bufsize = Machine.moveInput offset { m with bufpos := bufsize } :=
        by
        simp only [Machine.pass, hstate]
      have hview : eodPass raw.length (m.view offset) =
          Protocol.moveInput { m.view offset with bufpos := raw.length } := by
        simp only [eodPass, hviewstate]
      rw [Follows, hpass, hview]
      exact h.move_rest hraw hok

end Passes

/-! ## All passes -/

/-- `unsigned int bufsize = size()-offset;` -/
def bufsize (block : InputBlock) (offset : Nat) : UInt32 := UInt32.ofNat (block.size - offset)

/-- The machine behind this many passes. -/
def after (block : InputBlock) (offset count : Nat) : Machine :=
  (Machine.pass offset (bufsize block offset))^[count] (Machine.initial block)

/-- The loop ends behind this many passes. In front of each of them there are bytes left, the
cursors are always in order, all accesses are in bounds and the memory in front of the offset stays.
-/
structure Compacts (block : InputBlock) (offset count : Nat) : Prop where
  runs : ∀ k < count, (after block offset k).goesOn (bufsize block offset) = true
  ends : (after block offset count).bufpos = bufsize block offset
  moved : (after block offset count).eatsize = bufsize block offset
  ordered : ∀ k ≤ count, Ordered (bufsize block offset) (after block offset k)
  safe : ∀ k ≤ count, Safe block.bytes offset (after block offset k)

/-- The machine starts at the bytes behind the offset. -/
theorem behind_initial {block : InputBlock} {offset : Nat} (hoffset : offset < block.size)
    (hsize : block.size < 2 ^ 32) :
    Behind block.bytes offset (block.bytes.drop offset) (bufsize block offset) := by
  refine ⟨rfl, Nat.le_of_lt hoffset, ?_⟩
  rw [bufsize, UInt32.toNat_ofNat_of_lt' (show block.size - offset < 2 ^ 32 by omega),
    List.length_drop]
  rfl

/-- The invariant of the passes: the machine is safe, and the loop that it follows has its own. -/
def Keeps (block : InputBlock) (offset : Nat) (m : Machine) : Prop :=
  Safe block.bytes offset m ∧
    LoopInv (block.bytes.drop offset) block.eodState.phase (m.view offset)

/-- The passes that the followed loop has left. -/
def left (block : InputBlock) (offset : Nat) (m : Machine) : Nat :=
  passesLeft (block.bytes.drop offset) (m.view offset)

/-- The order of the cursors in the invariant of the loop is that of the machine. -/
theorem ordered_of_cursor {bytes raw : List Byte} {offset : Nat} {bufsize : UInt32} {m : Machine}
    (hraw : Behind bytes offset raw bufsize) (hok : CursorOk raw (m.view offset)) :
    Ordered bufsize m :=
  ⟨hok.dst_le_eat, hok.eat_le_pos, show m.bufpos.toNat ≤ bufsize.toNat from
    hraw.bufsize ▸ hok.pos_le⟩

section Block

variable {block : InputBlock} {offset : Nat}

/-- The machine starts with the invariant. -/
theorem keeps_initial : Keeps block offset (Machine.initial block) :=
  ⟨⟨rfl, rfl, fun _ hmem ↦ absurd hmem List.not_mem_nil⟩,
    loop_inv_initial (block.bytes.drop offset) block.eodState⟩

/-- Every pass keeps the invariant, follows the loop of `getEoD`, and leaves fewer passes. -/
theorem Keeps.pass (hoffset : offset < block.size) (hsize : block.size < 2 ^ 32) {m : Machine}
    (h : Keeps block offset m) (htest : m.goesOn (bufsize block offset) = true) :
    Keeps block offset (m.pass offset (bufsize block offset)) ∧
      (m.pass offset (bufsize block offset)).view offset =
        eodPass (block.size - offset) (m.view offset) ∧
      left block offset (m.pass offset (bufsize block offset)) < left block offset m := by
  have hraw := behind_initial hoffset hsize
  have hlen : (block.bytes.drop offset).length = block.size - offset := List.length_drop
  have hlt : m.bufpos.toNat < (block.bytes.drop offset).length := by
    have hless : m.bufpos < bufsize block offset := of_decide_eq_true htest
    rw [← hraw.bufsize]
    exact hless
  obtain ⟨hnext, hview⟩ := h.1.pass_spec hraw h.2.ok hlt
  obtain ⟨hinv, hless⟩ := eod_pass_spec h.2 hlt
  rw [← hview] at hinv hless
  rw [← hlen]
  exact ⟨⟨hnext, hinv⟩, hview, hless⟩

/-- The test of the machine is that of the loop. -/
theorem goes_on_view (hoffset : offset < block.size) (hsize : block.size < 2 ^ 32) (m : Machine) :
    m.goesOn (bufsize block offset) = decide ((m.view offset).bufpos < block.size - offset) := by
  have hlen : (block.bytes.drop offset).length = block.size - offset := List.length_drop
  have hbufsize := (behind_initial hoffset hsize).bufsize
  rw [hlen] at hbufsize
  rw [← hbufsize]
  rfl

/-- Where the invariant holds and no bytes are left, nothing is pending. -/
theorem Keeps.finished (hoffset : offset < block.size) (hsize : block.size < 2 ^ 32) {m : Machine}
    (h : Keeps block offset m) (htest : m.goesOn (bufsize block offset) = false) :
    m.bufpos = bufsize block offset ∧ m.eatsize = bufsize block offset := by
  have hraw := behind_initial hoffset hsize
  have hlast : m.bufpos = bufsize block offset := by
    have hnot : ¬ m.bufpos < bufsize block offset := of_decide_eq_false htest
    exact UInt32.le_antisymm (ordered_of_cursor hraw h.2.ok).pos_le (UInt32.not_lt.mp hnot)
  have hposition : m.bufpos.toNat = (block.bytes.drop offset).length := by
    rw [hlast, hraw.bufsize]
  have hcaught : m.eatsize.toNat = m.bufpos.toNat := h.2.caught_up hposition
  exact ⟨hlast, (UInt32.toNat_inj.mp hcaught).trans hlast⟩

/-- The loop ends, at most one pass behind the number of its bytes, and it is safe up to there. -/
theorem loop_compacts (hoffset : offset < block.size) (hsize : block.size < 2 ^ 32) :
    ∃ count ≤ block.size - offset + 1, Compacts block offset count ∧
      whileDo (Machine.goesOn (bufsize block offset)) (Machine.pass offset (bufsize block offset))
        (block.size - offset + 1) (Machine.initial block) = after block offset count := by
  have hraw := behind_initial hoffset hsize
  have hbody : ∀ m, Keeps block offset m → m.goesOn (bufsize block offset) = true →
      Keeps block offset (m.pass offset (bufsize block offset)) ∧
        left block offset (m.pass offset (bufsize block offset)) < left block offset m := by
    intro m hm htest
    obtain ⟨hnext, -, hless⟩ := hm.pass hoffset hsize htest
    exact ⟨hnext, hless⟩
  obtain ⟨count, hle, hruns, hends, hkeeps⟩ := while_do_count _ _ (Keeps block offset)
    (left block offset) hbody (Machine.initial block) keeps_initial
  have hcount : count ≤ block.size - offset + 1 := by
    refine Nat.le_trans hle ?_
    have hlen : (block.bytes.drop offset).length = block.size - offset := List.length_drop
    rw [left, passesLeft, ← hlen]
    have hstart : ((Machine.initial block).view offset).bufpos = 0 := rfl
    rw [hstart]
    split <;> omega
  obtain ⟨hlast, hmoved⟩ := (hkeeps count (Nat.le_refl count)).finished hoffset hsize hends
  refine ⟨count, hcount, ⟨hruns, hlast, hmoved, ?_, fun k hk ↦ (hkeeps k hk).1⟩,
    while_do_iterate hruns hends hcount⟩
  intro k hk
  exact ordered_of_cursor hraw (hkeeps k hk).2.ok

/-- The loop of `getEoD` is what the machine shows of the memory behind the offset. -/
theorem loop_view (hoffset : offset < block.size) (hsize : block.size < 2 ^ 32) :
    (whileDo (Machine.goesOn (bufsize block offset)) (Machine.pass offset (bufsize block offset))
        (block.size - offset + 1) (Machine.initial block)).view offset =
      eodLoop (block.size - offset) ⟨block.bytes.drop offset, 0, 0, 0, -1, block.eodState⟩ := by
  have hbody : ∀ m, Keeps block offset m → m.goesOn (bufsize block offset) = true →
      Keeps block offset (m.pass offset (bufsize block offset)) ∧
        (m.pass offset (bufsize block offset)).view offset =
          eodPass (block.size - offset) (m.view offset) := by
    intro m hm htest
    obtain ⟨hnext, hview, -⟩ := hm.pass hoffset hsize htest
    exact ⟨hnext, hview⟩
  exact while_do_simulation (Machine.view offset) (Machine.goesOn (bufsize block offset))
    (Machine.pass offset (bufsize block offset)) (fun c ↦ decide (c.bufpos < block.size - offset))
    (eodPass (block.size - offset)) (Keeps block offset) hbody (goes_on_view hoffset hsize)
    (block.size - offset + 1) (Machine.initial block) keeps_initial

end Block

/-- **The loop is memory safe and ends.** For every block and start offset inside of it, in every
stored state, the loop makes at most one pass more than there are bytes. The block that `getEoD`
leaves has the memory of the machine at the end, and its position is in the block. -/
theorem get_eod_compacts (block : InputBlock) (offset : Nat) (hoffset : offset < block.size)
    (hsize : block.size < 2 ^ 32) :
    ∃ count ≤ block.size - offset + 1, Compacts block offset count ∧
      (block.getEoD offset).2 = ⟨⟨(after block offset count).memory,
        offset + (after block offset count).dstsize.toNat⟩, (after block offset count).state⟩ ∧
      offset ≤ (block.getEoD offset).2.pos ∧ (block.getEoD offset).2.pos ≤ block.size := by
  obtain ⟨count, hcount, hcompacts, hloop⟩ := loop_compacts hoffset hsize
  have hview := loop_view hoffset hsize
  rw [hloop] at hview
  have hfront := (hcompacts.safe count (Nat.le_refl count)).front
  have hmemory : block.bytes.take offset ++ (after block offset count).memory.drop offset =
      (after block offset count).memory := by
    rw [← hfront, List.take_append_drop]
  have hresult : (block.getEoD offset).2 = ⟨⟨(after block offset count).memory,
      offset + (after block offset count).dstsize.toNat⟩, (after block offset count).state⟩ := by
    rw [InputBlock.getEoD, if_neg (Nat.not_le.mpr hoffset), ← hview, InputBlock.finishEoD]
    simp only [Machine.view]
    rw [hmemory]
  have hpos := (get_eod_bounds block hoffset).2.2.1
  refine ⟨count, hcount, hcompacts, hresult, ?_, hpos⟩
  rw [hresult]
  exact Nat.le_add_right _ _

/-- A block in the middle of a stream: a dotted line and the mark. -/
theorem get_eod_compacts_dots :
    ∃ count ≤ 8, Compacts ⟨⟨text "x.a\n.\r\nb", 9⟩, .lf⟩ 1 count ∧
      (InputBlock.getEoD ⟨⟨text "x.a\n.\r\nb", 9⟩, .lf⟩ 1).2 =
        ⟨⟨(after ⟨⟨text "x.a\n.\r\nb", 9⟩, .lf⟩ 1 count).memory,
          1 + (after ⟨⟨text "x.a\n.\r\nb", 9⟩, .lf⟩ 1 count).dstsize.toNat⟩,
          (after ⟨⟨text "x.a\n.\r\nb", 9⟩, .lf⟩ 1 count).state⟩ ∧
      1 ≤ (InputBlock.getEoD ⟨⟨text "x.a\n.\r\nb", 9⟩, .lf⟩ 1).2.pos ∧
      (InputBlock.getEoD ⟨⟨text "x.a\n.\r\nb", 9⟩, .lf⟩ 1).2.pos ≤ 8 :=
  get_eod_compacts ⟨⟨text "x.a\n.\r\nb", 9⟩, .lf⟩ 1 (by decide) (by decide)

end Smerp.Protocol.Compaction
