import Mathlib.Data.List.Forall2
import Smerp.Lib.Runs
import Smerp.Protocol.IoBlocks

/-!
# The end-of-data scan

`InputBlock::getEoD` searches a block for a line that is a single dot and removes the leading
dot of every other line, compacting the block in place. The abstract view is an automaton that
reads one byte at a time. `scan` is that automaton's result on one block, and
`get_eod_unmarked` and `get_eod_marked` say that `getEoD` computes it, for every stored state
and every start offset. `get_eod_refines_automaton` carries this over a stream that is cut into
blocks.
-/

namespace Smerp.Protocol.EoD

open Lib

/-! ## The automaton -/

/-- The states of the automaton: inside a line, behind a line feed, behind a dot that follows a
line feed, and behind the mark. -/
inductive Phase where
  | src
  | lf
  | lfDot
  | done
  deriving DecidableEq, Repr

/-- The output of the automaton: a byte that is kept, or the placeholder at the mark. -/
inductive Symbol where
  | byte (ch : Byte)
  | placeholder
  deriving DecidableEq, Repr

/-- One transition of the automaton. -/
def step : Phase → Byte → Phase × List Symbol
  | .src, ch => (if ch = LF then .lf else .src, [.byte ch])
  | .lf, ch => if ch = DOT then (.lfDot, []) else (.src, [.byte ch])
  | .lfDot, ch => if ch = CR ∨ ch = LF then (.done, [.placeholder]) else (.src, [.byte ch])
  | .done, ch => (.done, [.byte ch])

/-- The automaton state that a scanner state stands for. -/
def State.phase : State → Phase
  | .src => .src
  | .lf => .lf
  | .lfDot => .lfDot
  | .lfDotCr | .lfDotCrLf => .done

/-- The result of scanning one block: the bytes kept and the state reached, or, where the mark is
found, the bytes kept in front of it, the byte that completes it and the bytes behind it. -/
inductive Scan where
  | unmarked (kept : List Byte) (phase : Phase)
  | marked (kept : List Byte) (terminator : Byte) (rest : List Byte)
  deriving DecidableEq, Repr

/-- Put bytes that were kept earlier in front of a result. -/
def Scan.prepend (front : List Byte) : Scan → Scan
  | .unmarked kept phase => .unmarked (front ++ kept) phase
  | .marked kept terminator rest => .marked (front ++ kept) terminator rest

@[simp] theorem Scan.prepend_unmarked (front kept : List Byte) (phase : Phase) :
    (Scan.unmarked kept phase).prepend front = .unmarked (front ++ kept) phase := rfl

@[simp] theorem Scan.prepend_marked (front kept rest : List Byte) (terminator : Byte) :
    (Scan.marked kept terminator rest).prepend front = .marked (front ++ kept) terminator rest :=
  rfl

@[simp] theorem Scan.prepend_nil (result : Scan) : result.prepend [] = result := by
  cases result <;> simp [Scan.prepend]

@[simp] theorem Scan.prepend_prepend (first second : List Byte) (result : Scan) :
    (result.prepend second).prepend first = result.prepend (first ++ second) := by
  cases result <;> simp [Scan.prepend]

/-- Scan a block byte by byte. -/
def scan : Phase → List Byte → Scan
  | phase, [] => .unmarked [] phase
  | .src, ch :: rest => (scan (if ch = LF then .lf else .src) rest).prepend [ch]
  | .lf, ch :: rest => if ch = DOT then scan .lfDot rest else (scan .src rest).prepend [ch]
  | .lfDot, ch :: rest =>
      if ch = CR ∨ ch = LF then .marked [] ch rest else (scan .src rest).prepend [ch]
  | .done, ch :: rest => (scan .done rest).prepend [ch]

@[simp] theorem scan_nil (phase : Phase) : scan phase [] = .unmarked [] phase := by
  cases phase <;> rfl

/-- Behind the mark every byte is kept. -/
@[simp] theorem scan_done (block : List Byte) : scan .done block = .unmarked block .done := by
  induction block with
  | nil => rfl
  | cons ch rest ih => simp [scan, ih]

/-- Bytes without a line feed are kept inside a line. -/
theorem scan_src_of_not_mem {front : List Byte} (h : LF ∉ front) (back : List Byte) :
    scan .src (front ++ back) = (scan .src back).prepend front := by
  induction front with
  | nil => simp
  | cons ch rest ih =>
      simp only [List.mem_cons, not_or] at h
      simp [scan, ih h.2, Ne.symm h.1]

/-! ## The loop of `getEoD` -/

/-- The bytes that the loop has decided to keep so far: those already moved to the front, and
those still pending in front of the scan position. -/
def keptSoFar (raw : List Byte) (c : EodCursor) : List Byte :=
  c.buf.take c.dstsize ++ Block.slice raw c.eatsize (c.bufpos - c.eatsize)

/-- The cursors are ordered, and the loop has not yet written behind `dstsize`. -/
structure CursorOk (raw : List Byte) (c : EodCursor) : Prop where
  dst_le_eat : c.dstsize ≤ c.eatsize
  eat_le_pos : c.eatsize ≤ c.bufpos
  pos_le : c.bufpos ≤ raw.length
  buf_length : c.buf.length = raw.length
  untouched : c.buf.drop c.dstsize = raw.drop c.dstsize

/-- A cell behind `dstsize` still holds the received byte. -/
theorem CursorOk.buf_drop {raw : List Byte} {c : EodCursor} (h : CursorOk raw c) {idx : Nat}
    (hidx : c.dstsize ≤ idx) : c.buf.drop idx = raw.drop idx := by
  obtain ⟨more, rfl⟩ : ∃ more, idx = c.dstsize + more := ⟨idx - c.dstsize, by omega⟩
  rw [← List.drop_drop, h.untouched, List.drop_drop]

/-- The byte under the scan position is the received one. -/
theorem CursorOk.current_eq {raw : List Byte} {c : EodCursor} (h : CursorOk raw c) :
    c.current = raw[c.bufpos]? := by
  have hdrop := h.buf_drop (Nat.le_trans h.dst_le_eat h.eat_le_pos)
  have hfirst := congrArg (·[0]?) hdrop
  simpa only [EodCursor.current, List.getElem?_drop, Nat.add_zero] using hfirst

/-- Moving the scan position over more bytes makes them pending. -/
theorem kept_so_far_advance {raw : List Byte} {c : EodCursor} (h : CursorOk raw c) {pos : Nat}
    (hpos : c.bufpos ≤ pos) (state : State) :
    keptSoFar raw { c with bufpos := pos, state := state } =
      keptSoFar raw c ++ Block.slice raw c.bufpos (pos - c.bufpos) := by
  have hle := h.eat_le_pos
  have hjoin := Block.slice_append_slice raw c.eatsize (c.bufpos - c.eatsize) (pos - c.bufpos)
  rw [show c.eatsize + (c.bufpos - c.eatsize) = c.bufpos by omega,
    show c.bufpos - c.eatsize + (pos - c.bufpos) = pos - c.eatsize by omega] at hjoin
  simp [keptSoFar, hjoin]

/-- Moving the scan position keeps the cursors in order. -/
theorem CursorOk.advance {raw : List Byte} {c : EodCursor} (h : CursorOk raw c) {pos : Nat}
    (hpos : c.bufpos ≤ pos) (hle : pos ≤ raw.length) (state : State) :
    CursorOk raw { c with bufpos := pos, state := state } :=
  ⟨h.dst_le_eat, Nat.le_trans h.eat_le_pos hpos, hle, h.buf_length, h.untouched⟩

/-- `moveInput` closes the gap: the pending bytes are moved, nothing is lost, and the memory
behind the new `dstsize` is untouched. -/
theorem move_input_spec {raw : List Byte} {c : EodCursor} (h : CursorOk raw c) :
    CursorOk raw (moveInput c) ∧ keptSoFar raw (moveInput c) = keptSoFar raw c := by
  obtain ⟨hdst, heat, hpos, hlen, hfree⟩ := h
  have hslice : Block.slice c.buf c.eatsize (c.bufpos - c.eatsize) =
      Block.slice raw c.eatsize (c.bufpos - c.eatsize) := by
    rw [Block.slice, CursorOk.buf_drop ⟨hdst, heat, hpos, hlen, hfree⟩ hdst, Block.slice]
  have hwidth : (Block.slice raw c.eatsize (c.bufpos - c.eatsize)).length =
      c.bufpos - c.eatsize := by
    rw [Block.slice_length]
    omega
  by_cases hgap : c.dstsize = c.eatsize
  · -- without a gap the pending bytes are already in place
    have hplace : c.buf.take (c.dstsize + (c.bufpos - c.eatsize)) =
        c.buf.take c.dstsize ++ Block.slice raw c.eatsize (c.bufpos - c.eatsize) := by
      rw [List.take_add, ← hslice, Block.slice, hgap]
    refine ⟨⟨?_, Nat.le_refl _, hpos, ?_, ?_⟩, ?_⟩
    · simp only [moveInput]
      omega
    · simpa [moveInput, hgap] using hlen
    · simp only [moveInput, hgap, ne_eq, not_true_eq_false, if_false]
      exact CursorOk.buf_drop ⟨hdst, heat, hpos, hlen, hfree⟩ (by omega)
    · simpa [keptSoFar, moveInput, hgap] using hplace
  · have hmoved : (moveInput c).buf = Block.store c.buf c.dstsize
        (Block.slice raw c.eatsize (c.bufpos - c.eatsize)) := by
      simp [moveInput, hgap, Block.memmove, hslice]
    have hroom : c.dstsize ≤ c.buf.length := by omega
    have htake := Block.store_take (Block.slice raw c.eatsize (c.bufpos - c.eatsize)) hroom
    have hdrop := Block.store_drop (Block.slice raw c.eatsize (c.bufpos - c.eatsize)) hroom
    rw [hwidth] at htake hdrop
    refine ⟨⟨?_, Nat.le_refl _, hpos, ?_, ?_⟩, ?_⟩
    · simp only [moveInput]
      omega
    · rw [hmoved, Block.store_length (by omega), hlen]
    · rw [hmoved]
      exact hdrop.trans (CursorOk.buf_drop ⟨hdst, heat, hpos, hlen, hfree⟩ (by omega))
    · rw [keptSoFar, hmoved]
      simpa [moveInput, keptSoFar] using htake

/-- The invariant of the loop: as long as no mark was found, the bytes kept so far followed by the
scan of the rest are the scan of the block. Afterwards the remaining bytes are kept as they are,
and the placeholder is the byte the block held at the mark. -/
structure LoopInv (raw : List Byte) (start : Phase) (c : EodCursor) : Prop where
  ok : CursorOk raw c
  caught_up : c.bufpos = raw.length → c.eatsize = c.bufpos
  dot_dropped : c.state = .lfDot → c.eatsize = c.bufpos
  result : (c.eodpos = -1 ∧
      scan start raw = (scan c.state.phase (raw.drop c.bufpos)).prepend (keptSoFar raw c)) ∨
    (c.state.phase = .done ∧ ∃ kept terminator rest placeholder,
      scan start raw = .marked kept terminator rest ∧ raw[kept.length]? = some placeholder ∧
      c.eodpos = toInt kept.length ∧
      keptSoFar raw c ++ raw.drop c.bufpos = kept ++ placeholder :: rest)

/-- The number of passes that are left. -/
def passesLeft (raw : List Byte) (c : EodCursor) : Nat :=
  raw.length - c.bufpos + if c.state = .lfDotCrLf then 0 else 1

@[simp] theorem keep_up_to_bufpos (bufsize pos : Nat) (state : State) (c : EodCursor) :
    (c.keepUpTo bufsize pos state).bufpos = pos := by
  unfold EodCursor.keepUpTo
  split <;> rfl

@[simp] theorem keep_up_to_state (bufsize pos : Nat) (state : State) (c : EodCursor) :
    (c.keepUpTo bufsize pos state).state = state := by
  unfold EodCursor.keepUpTo
  split <;> rfl

@[simp] theorem keep_up_to_eodpos (bufsize pos : Nat) (state : State) (c : EodCursor) :
    (c.keepUpTo bufsize pos state).eodpos = c.eodpos := by
  unfold EodCursor.keepUpTo
  split <;> rfl

/-- Whether or not the pending bytes are moved at the end of the block, the cursors stay in order
and the bytes passed are kept. -/
theorem keep_up_to_spec {raw : List Byte} {c : EodCursor} (h : CursorOk raw c) {pos : Nat}
    (hpos : c.bufpos ≤ pos) (hle : pos ≤ raw.length) (state : State) :
    CursorOk raw (c.keepUpTo raw.length pos state) ∧
      keptSoFar raw (c.keepUpTo raw.length pos state) =
        keptSoFar raw c ++ Block.slice raw c.bufpos (pos - c.bufpos) ∧
      (pos = raw.length → (c.keepUpTo raw.length pos state).eatsize = pos) := by
  have hok := h.advance hpos hle state
  rw [← kept_so_far_advance h hpos state]
  unfold EodCursor.keepUpTo
  split
  · exact ⟨(move_input_spec hok).1, (move_input_spec hok).2, fun _ ↦ rfl⟩
  · exact ⟨hok, rfl, fun hend ↦ absurd hend ‹_›⟩

/-- A pass that keeps the bytes up to `pos` and goes to a state other than `LF_DOT` keeps the
invariant. The last premise is the automaton's view of the pass. -/
theorem LoopInv.keep {raw : List Byte} {start : Phase} {c : EodCursor} (h : LoopInv raw start c)
    {pos : Nat} {state : State} (hpos : c.bufpos ≤ pos) (hle : pos ≤ raw.length)
    (hstate : state ≠ .lfDot) (hdone : c.state.phase = .done → state.phase = .done)
    (hscan : scan c.state.phase (raw.drop c.bufpos) =
      (scan state.phase (raw.drop pos)).prepend (Block.slice raw c.bufpos (pos - c.bufpos))) :
    LoopInv raw start (c.keepUpTo raw.length pos state) := by
  obtain ⟨hok, hkept, hend⟩ := keep_up_to_spec h.ok hpos hle state
  refine ⟨hok, ?_, fun hdot ↦ absurd ((keep_up_to_state ..).symm.trans hdot) hstate, ?_⟩
  · intro hlast
    rw [keep_up_to_bufpos] at hlast ⊢
    exact hend hlast
  · rw [keep_up_to_state, keep_up_to_bufpos, keep_up_to_eodpos, hkept]
    rcases h.result with ⟨hopen, hres⟩ | ⟨hphase, kept, terminator, rest, placeholder, hres⟩
    · refine .inl ⟨hopen, ?_⟩
      rw [hres, hscan, Scan.prepend_prepend]
    · obtain ⟨hmarked, hplace, hmark, hbytes⟩ := hres
      refine .inr ⟨hdone hphase, kept, terminator, rest, placeholder, hmarked, hplace, hmark, ?_⟩
      have hjoin := Block.slice_append_drop raw c.bufpos (pos - c.bufpos)
      rw [show c.bufpos + (pos - c.bufpos) = pos by omega] at hjoin
      rw [← hbytes, ← hjoin, List.append_assoc]

/-- The scan position of a running loop stands on a received byte. -/
theorem drop_pos_eq_cons {raw : List Byte} {pos : Nat} (h : pos < raw.length) :
    ∃ ch, raw.drop pos = ch :: raw.drop (pos + 1) ∧ raw[pos]? = some ch ∧
      Block.slice raw pos 1 = [ch] := by
  have hdrop := List.drop_eq_getElem_cons h
  exact ⟨raw[pos], hdrop, List.getElem?_eq_getElem h, by rw [Block.slice, hdrop]; rfl⟩

/-- A pass in the state `SRC` keeps the bytes up to the next line feed, or all of them. -/
theorem src_pass {raw : List Byte} {start : Phase} {c : EodCursor} (h : LoopInv raw start c)
    (hlt : c.bufpos < raw.length) (hstate : c.state = .src) :
    LoopInv raw start (eodPass raw.length c) ∧
      passesLeft raw (eodPass raw.length c) < passesLeft raw c := by
  have hrest : Block.slice c.buf c.bufpos (raw.length - c.bufpos) = raw.drop c.bufpos := by
    rw [Block.slice, h.ok.buf_drop (Nat.le_trans h.ok.dst_le_eat h.ok.eat_le_pos)]
    exact List.take_of_length_le (by simp)
  cases hfind : Block.memchr c.buf c.bufpos (raw.length - c.bufpos) LF with
  | some cc =>
      have heq : eodPass raw.length c = c.keepUpTo raw.length (cc + 1) .lf := by
        simp [eodPass, hstate, hfind]
      obtain ⟨front, back, hsplit, hfront, rfl⟩ := Block.memchr_some hfind
      rw [hrest] at hsplit
      have hlen := congrArg List.length hsplit
      simp only [List.length_drop, List.length_append, List.length_cons] at hlen
      have hback : raw.drop (c.bufpos + front.length + 1) = back := by
        rw [Nat.add_assoc, ← List.drop_drop, hsplit]
        simp
      have hslice : Block.slice raw c.bufpos (front.length + 1) = front ++ [LF] := by
        rw [Block.slice, hsplit, List.take_length_add_append]
        rfl
      rw [heq]
      refine ⟨h.keep (by omega) (by omega) (by simp) (by simp [hstate, State.phase]) ?_, ?_⟩
      · rw [show c.bufpos + front.length + 1 - c.bufpos = front.length + 1 by omega, hback,
          hslice, hsplit, hstate, State.phase, scan_src_of_not_mem hfront]
        simp [scan, State.phase]
      · simp only [passesLeft, keep_up_to_bufpos, keep_up_to_state, hstate]
        simp
        omega
  | none =>
      have heq : eodPass raw.length c = c.keepUpTo raw.length raw.length .src := by
        simp [eodPass, hstate, hfind, EodCursor.keepUpTo]
      have habsent : LF ∉ raw.drop c.bufpos := hrest ▸ Block.memchr_none hfind
      rw [heq]
      refine ⟨h.keep (by omega) (Nat.le_refl _) (by simp) (by simp [hstate, State.phase]) ?_, ?_⟩
      · have hall : Block.slice raw c.bufpos (raw.length - c.bufpos) = raw.drop c.bufpos :=
          List.take_of_length_le (by simp)
        have hscan := scan_src_of_not_mem habsent []
        rw [List.append_nil] at hscan
        rw [hall, hstate, State.phase, hscan, List.drop_length]
      · simp only [passesLeft, keep_up_to_bufpos, keep_up_to_state, hstate]
        simp
        omega

/-- A pass in the state `LF` drops a dot and keeps anything else. -/
theorem lf_pass {raw : List Byte} {start : Phase} {c : EodCursor} (h : LoopInv raw start c)
    (hlt : c.bufpos < raw.length) (hstate : c.state = .lf) :
    LoopInv raw start (eodPass raw.length c) ∧
      passesLeft raw (eodPass raw.length c) < passesLeft raw c := by
  obtain ⟨ch, hdrop, hch, hslice⟩ := drop_pos_eq_cons hlt
  have hcurrent := h.ok.current_eq.trans hch
  by_cases hdot : ch = DOT
  · subst hdot
    obtain ⟨hok, hkept⟩ := move_input_spec h.ok
    have heq : eodPass raw.length c =
        { moveInput c with
          state := .lfDot, bufpos := c.bufpos + 1, eatsize := c.bufpos + 1 } := by
      simp [eodPass, hstate, hcurrent, moveInput]
    have hsame : keptSoFar raw (eodPass raw.length c) = keptSoFar raw c := by
      rw [← hkept, heq]
      simp [keptSoFar, moveInput]
    rw [heq] at hsame ⊢
    refine ⟨⟨⟨Nat.le_succ_of_le hok.dst_le_eat, Nat.le_refl _, hlt, hok.buf_length, hok.untouched⟩,
      fun _ ↦ rfl, fun _ ↦ rfl, ?_⟩, ?_⟩
    · rcases h.result with ⟨hopen, hres⟩ | ⟨hphase, _⟩
      · refine .inl ⟨hopen, ?_⟩
        rw [hsame, hres, hstate, State.phase, hdrop]
        simp [scan, State.phase]
      · simp [hstate, State.phase] at hphase
    · simp only [passesLeft, hstate]
      simp
      omega
  · have heq : eodPass raw.length c = c.keepUpTo raw.length (c.bufpos + 1) .src := by
      simp [eodPass, hstate, hcurrent, hdot]
    rw [heq]
    refine ⟨h.keep (by omega) hlt (by simp) (by simp [hstate, State.phase]) ?_, ?_⟩
    · rw [Nat.add_sub_cancel_left, hslice, hdrop, hstate]
      simp [scan, State.phase, hdot]
    · simp only [passesLeft, keep_up_to_bufpos, keep_up_to_state, hstate]
      simp
      omega

/-- Marking the end of data: the placeholder is the byte that stands behind the bytes kept. -/
theorem mark_eod_spec {raw : List Byte} {start : Phase} {c : EodCursor} (h : LoopInv raw start c)
    (hlt : c.bufpos < raw.length) (hstate : c.state = .lfDot) {state : State}
    (hphase : state.phase = .done) {ch : Byte} (hch : raw[c.bufpos]? = some ch)
    (hend : ch = CR ∨ ch = LF) : LoopInv raw start (c.markEod state) := by
  obtain ⟨ch', hdrop, hch', -⟩ := drop_pos_eq_cons hlt
  obtain rfl : ch' = ch := Option.some.inj (hch'.symm.trans hch)
  have heat := h.dot_dropped hstate
  have hle := h.ok.dst_le_eat
  have hdst : c.dstsize < raw.length := by omega
  have hkept : keptSoFar raw c = c.buf.take c.dstsize := by simp [keptSoFar, heat]
  have hlen : (c.buf.take c.dstsize).length = c.dstsize := by
    rw [List.length_take, h.ok.buf_length]
    omega
  have hcell : c.buf[c.dstsize]? = some raw[c.dstsize] := by
    have hfirst := congrArg (·[0]?) h.ok.untouched
    simpa only [List.getElem?_drop, Nat.add_zero, List.getElem?_eq_getElem hdst] using hfirst
  refine ⟨⟨by simp only [EodCursor.markEod]; omega, Nat.le_refl _, hlt, h.ok.buf_length,
    h.ok.buf_drop (Nat.le_succ _)⟩, fun _ ↦ rfl, fun _ ↦ rfl, ?_⟩
  rcases h.result with ⟨-, hres⟩ | ⟨hdone, _⟩
  · refine .inr ⟨hphase, c.buf.take c.dstsize, ch', raw.drop (c.bufpos + 1), raw[c.dstsize], ?_,
      ?_, ?_, ?_⟩
    · rw [hres, hkept, hstate, State.phase, hdrop]
      simp [scan, hend]
    · rw [hlen]
      exact List.getElem?_eq_getElem hdst
    · simp [EodCursor.markEod, hlen]
    · simp [keptSoFar, EodCursor.markEod, List.take_add_one, hcell]
  · simp [hstate, State.phase] at hdone

/-- A pass in the state `LF_DOT` marks the end of data at a line end and keeps anything else. -/
theorem lf_dot_pass {raw : List Byte} {start : Phase} {c : EodCursor} (h : LoopInv raw start c)
    (hlt : c.bufpos < raw.length) (hstate : c.state = .lfDot) :
    LoopInv raw start (eodPass raw.length c) ∧
      passesLeft raw (eodPass raw.length c) < passesLeft raw c := by
  obtain ⟨ch, hdrop, hch, hslice⟩ := drop_pos_eq_cons hlt
  have hcurrent := h.ok.current_eq.trans hch
  by_cases hcr : ch = CR
  · have heq : eodPass raw.length c = c.markEod .lfDotCr := by
      simp [eodPass, hstate, hcurrent, hcr]
    rw [heq]
    refine ⟨mark_eod_spec h hlt hstate rfl hch (.inl hcr), ?_⟩
    simp only [passesLeft, EodCursor.markEod, hstate]
    simp
    omega
  · by_cases hlf : ch = LF
    · have heq : eodPass raw.length c = c.markEod .lfDotCrLf := by
        simp [eodPass, hstate, hcurrent, hlf, show LF ≠ CR by decide]
      rw [heq]
      refine ⟨mark_eod_spec h hlt hstate rfl hch (.inr hlf), ?_⟩
      simp only [passesLeft, EodCursor.markEod, hstate]
      simp
      omega
    · have heq : eodPass raw.length c = c.keepUpTo raw.length (c.bufpos + 1) .src := by
        simp [eodPass, hstate, hcurrent, hcr, hlf]
      rw [heq]
      refine ⟨h.keep (by omega) hlt (by simp) (by simp [hstate, State.phase]) ?_, ?_⟩
      · rw [Nat.add_sub_cancel_left, hslice, hdrop, hstate]
        simp [scan, State.phase, hcr, hlf]
      · simp only [passesLeft, keep_up_to_bufpos, keep_up_to_state, hstate]
        simp
        omega

/-- Behind the mark, passing over bytes is keeping them. -/
theorem scan_done_split (raw : List Byte) {pos next : Nat} (h : pos ≤ next) :
    scan .done (raw.drop pos) =
      (scan .done (raw.drop next)).prepend (Block.slice raw pos (next - pos)) := by
  have hjoin := Block.slice_append_drop raw pos (next - pos)
  rw [show pos + (next - pos) = next by omega] at hjoin
  simp [hjoin]

/-- A pass behind the mark keeps what it passes, and `LF_DOT_CR` may pass nothing. -/
theorem done_pass {raw : List Byte} {start : Phase} {c : EodCursor} (h : LoopInv raw start c)
    (hlt : c.bufpos < raw.length) (hstate : c.state = .lfDotCr ∨ c.state = .lfDotCrLf) :
    LoopInv raw start (eodPass raw.length c) ∧
      passesLeft raw (eodPass raw.length c) < passesLeft raw c := by
  have hphase : c.state.phase = .done := by
    rcases hstate with hstate | hstate <;> rw [hstate, State.phase]
  obtain ⟨pos, hpos, hle, heq, hless⟩ : ∃ pos, c.bufpos ≤ pos ∧ pos ≤ raw.length ∧
      eodPass raw.length c = c.keepUpTo raw.length pos .lfDotCrLf ∧
      (c.state = .lfDotCr ∨ c.bufpos < pos) := by
    rcases hstate with hstate | hstate
    · refine ⟨if c.current = some LF then c.bufpos + 1 else c.bufpos, ?_, ?_, ?_, .inl hstate⟩
      · split <;> omega
      · split <;> omega
      · simp [eodPass, hstate]
    · exact ⟨raw.length, by omega, Nat.le_refl _,
        by simp [eodPass, hstate, EodCursor.keepUpTo], .inr hlt⟩
  rw [heq]
  refine ⟨h.keep hpos hle (by simp) (fun _ ↦ rfl) ?_, ?_⟩
  · rw [hphase]
    exact scan_done_split raw hpos
  · rcases hstate with hstate | hstate
    · simp only [passesLeft, keep_up_to_bufpos, keep_up_to_state, hstate]
      simp
      omega
    · have hmore : c.bufpos < pos := hless.resolve_left (by simp [hstate])
      simp only [passesLeft, keep_up_to_bufpos, keep_up_to_state, hstate]
      simp
      omega

/-- Every pass keeps the invariant and leaves fewer passes to do. -/
theorem eod_pass_spec {raw : List Byte} {start : Phase} {c : EodCursor} (h : LoopInv raw start c)
    (hlt : c.bufpos < raw.length) : LoopInv raw start (eodPass raw.length c) ∧
      passesLeft raw (eodPass raw.length c) < passesLeft raw c := by
  cases hstate : c.state with
  | src => exact src_pass h hlt hstate
  | lf => exact lf_pass h hlt hstate
  | lfDot => exact lf_dot_pass h hlt hstate
  | lfDotCr => exact done_pass h hlt (.inl hstate)
  | lfDotCrLf => exact done_pass h hlt (.inr hstate)

/-- The cursor that `getEoD` starts from satisfies the invariant. -/
theorem loop_inv_initial (raw : List Byte) (state : State) :
    LoopInv raw state.phase ⟨raw, 0, 0, 0, -1, state⟩ :=
  ⟨⟨Nat.le_refl _, Nat.le_refl _, Nat.zero_le _, rfl, rfl⟩, fun _ ↦ rfl, fun _ ↦ rfl,
    .inl ⟨rfl, by simp [keptSoFar]⟩⟩

/-- The loop ends at the end of the block with nothing pending, and the invariant holds there. -/
theorem eod_loop_spec (raw : List Byte) (state : State) :
    LoopInv raw state.phase (eodLoop raw.length ⟨raw, 0, 0, 0, -1, state⟩) ∧
      (eodLoop raw.length ⟨raw, 0, 0, 0, -1, state⟩).bufpos = raw.length := by
  obtain ⟨hinv, htest⟩ := while_do_rule (fun c ↦ c.bufpos < raw.length)
    (eodPass raw.length) (LoopInv raw state.phase) (passesLeft raw)
    (fun c hc htest ↦ eod_pass_spec hc (by simpa using htest)) (raw.length + 1)
    ⟨raw, 0, 0, 0, -1, state⟩ (loop_inv_initial raw state)
    (by simp only [passesLeft]; split <;> omega)
    (fun c hc hzero ↦ by simp only [passesLeft] at hzero; simp; omega)
  exact ⟨hinv, Nat.le_antisymm hinv.ok.pos_le (by simpa [eodLoop] using htest)⟩

/-! ## `getEoD` computes the scan -/

/-- The memory that `getEoD` leaves: the bytes kept, in place, and the rest as received. -/
theorem get_eod_memory {block : InputBlock} {start : Nat} {c : EodCursor}
    (hok : CursorOk (block.bytes.drop start) c) (heat : c.eatsize = c.bufpos) :
    block.bytes.take start ++ c.buf =
        Block.store block.bytes start (keptSoFar (block.bytes.drop start) c) ∧
      (keptSoFar (block.bytes.drop start) c).length = c.dstsize := by
  have hkept : keptSoFar (block.bytes.drop start) c = c.buf.take c.dstsize := by
    simp [keptSoFar, heat]
  have hlen : (c.buf.take c.dstsize).length = c.dstsize := by
    have hdst := hok.dst_le_eat
    have hpos := hok.pos_le
    rw [List.length_take, hok.buf_length]
    omega
  refine ⟨?_, hkept ▸ hlen⟩
  rw [hkept, Block.store, hlen, ← List.drop_drop, ← hok.untouched, List.append_assoc,
    List.take_append_drop]

/-- `getEoD` on a block without the mark keeps what the scan keeps and returns `end()`. -/
theorem get_eod_unmarked (block : InputBlock) {start : Nat} {kept : List Byte} {phase : Phase}
    (hstart : start < block.size)
    (hscan : scan block.eodState.phase (block.bytes.drop start) = .unmarked kept phase) :
    ∃ state : State, state.phase = phase ∧ block.getEoD start = (start + kept.length,
      ⟨⟨Block.store block.bytes start kept, start + kept.length⟩, state⟩) := by
  obtain ⟨hinv, hend⟩ := eod_loop_spec (block.bytes.drop start) block.eodState
  have hsize : (block.bytes.drop start).length = block.size - start := by simp [MemBlock.size]
  rw [hsize] at hinv hend
  set c := eodLoop (block.size - start)
    ⟨block.bytes.drop start, 0, 0, 0, -1, block.eodState⟩ with hc
  have heat := hinv.caught_up (by rw [hend, hsize])
  obtain ⟨hmemory, hlen⟩ := get_eod_memory hinv.ok heat
  rcases hinv.result with ⟨hopen, hres⟩ | ⟨_, _, _, _, _, hmarked, _⟩
  · rw [hend, ← hsize, List.drop_length, scan_nil, hscan, Scan.prepend, List.append_nil] at hres
    obtain ⟨rfl, rfl⟩ : kept = keptSoFar (block.bytes.drop start) c ∧ phase = c.state.phase := by
      simpa using hres
    refine ⟨c.state, rfl, ?_⟩
    rw [InputBlock.getEoD, if_neg (by omega), ← hc, InputBlock.finishEoD,
      if_neg (by rw [hopen]; decide), hmemory, hlen]
  · rw [hscan] at hmarked
    cases hmarked

/-- `getEoD` on a block with the mark keeps what the scan keeps in front of it, leaves one byte in
place of the byte that completes the mark, namely the byte the block held there, and keeps
everything behind it. It returns the position of that byte if the conversion to `int` is not
negative. -/
theorem get_eod_marked (block : InputBlock) {start : Nat} {kept rest : List Byte}
    {terminator : Byte} (hstart : start < block.size)
    (hscan : scan block.eodState.phase (block.bytes.drop start) = .marked kept terminator rest) :
    ∃ (state : State) (placeholder : Byte), state.phase = .done ∧
      (block.bytes.drop start)[kept.length]? = some placeholder ∧
      block.getEoD start =
        (if 0 ≤ toInt kept.length then start + (toInt kept.length).toNat
          else start + (kept ++ placeholder :: rest).length,
        ⟨⟨Block.store block.bytes start (kept ++ placeholder :: rest),
          start + (kept ++ placeholder :: rest).length⟩, state⟩) := by
  obtain ⟨hinv, hend⟩ := eod_loop_spec (block.bytes.drop start) block.eodState
  have hsize : (block.bytes.drop start).length = block.size - start := by simp [MemBlock.size]
  rw [hsize] at hinv hend
  set c := eodLoop (block.size - start)
    ⟨block.bytes.drop start, 0, 0, 0, -1, block.eodState⟩ with hc
  have heat := hinv.caught_up (by rw [hend, hsize])
  obtain ⟨hmemory, hlen⟩ := get_eod_memory hinv.ok heat
  rcases hinv.result with ⟨_, hres⟩ | ⟨hphase, _, _, _, placeholder, hmarked, hplace, hmark, hbytes⟩
  · rw [hend, ← hsize, List.drop_length, scan_nil, hscan] at hres
    cases hres
  · obtain ⟨rfl, rfl, rfl⟩ : _ ∧ _ ∧ _ := by simpa using hscan.symm.trans hmarked
    rw [hend, ← hsize, List.drop_length, List.append_nil] at hbytes
    refine ⟨c.state, placeholder, hphase, hplace, ?_⟩
    rw [InputBlock.getEoD, if_neg (by omega), ← hc, InputBlock.finishEoD, ← hbytes, hmemory,
      hlen, hmark]

/-! ## The scan is the automaton's run -/

/-- The scan of a byte and a rest is one transition: the mark, or a byte kept or dropped in front
of the scan of the rest. -/
theorem scan_cons (phase : Phase) (ch : Byte) (rest : List Byte) :
    (scan phase (ch :: rest) = .marked [] ch rest ∧ phase = .lfDot ∧
        step phase ch = (.done, [.placeholder])) ∨
      ∃ kept : List Byte, scan phase (ch :: rest) = (scan (step phase ch).1 rest).prepend kept ∧
        (step phase ch).2 = kept.map .byte ∧ kept.length ≤ 1 ∧
        ((step phase ch).1 = .done ↔ phase = .done) := by
  cases phase with
  | src =>
      refine .inr ⟨[ch], by simp [scan, step], rfl, Nat.le_refl _, ?_⟩
      simp only [step]
      split <;> simp
  | lf =>
      by_cases hdot : ch = DOT
      · exact .inr ⟨[], by simp [scan, step, hdot], by simp [step, hdot], Nat.zero_le _,
          by simp [step, hdot]⟩
      · exact .inr ⟨[ch], by simp [scan, step, hdot], by simp [step, hdot], Nat.le_refl _,
          by simp [step, hdot]⟩
  | lfDot =>
      by_cases hend : ch = CR ∨ ch = LF
      · exact .inl ⟨by simp [scan, hend], rfl, by simp [step, hend]⟩
      · exact .inr ⟨[ch], by simp [scan, step, hend], by simp [step, hend], Nat.le_refl _,
          by simp [step, hend]⟩
  | done => exact .inr ⟨[ch], rfl, rfl, Nat.le_refl _, by simp [step]⟩

/-- What a scan result says about the run of the automaton from `phase`. -/
def Scan.Describes (phase : Phase) (run : Phase × List Symbol) : Scan → Prop
  | .unmarked kept final => run = (final, kept.map .byte) ∧ (final = .done ↔ phase = .done)
  | .marked kept _ rest =>
      run = (.done, kept.map .byte ++ .placeholder :: rest.map .byte) ∧ phase ≠ .done

/-- The scan of a block is the run of the automaton over it. -/
theorem scan_describes (phase : Phase) (block : List Byte) :
    (scan phase block).Describes phase (Transducer.feed step phase block) := by
  induction block generalizing phase with
  | nil => simp [Scan.Describes]
  | cons ch rest ih =>
      rw [Transducer.feed_cons]
      rcases scan_cons phase ch rest with ⟨hscan, rfl, hstep⟩ | ⟨kept, hscan, hstep, -, hdone⟩
      · have hrest := ih .done
        rw [scan_done] at hrest
        simp [hscan, hstep, Scan.Describes, hrest.1]
      · have hrest := ih (step phase ch).1
        rw [hscan, hstep]
        cases hmore : scan (step phase ch).1 rest with
        | unmarked more final =>
            rw [hmore] at hrest
            simp [Scan.Describes, hrest.1, hrest.2, hdone]
        | marked more terminator back =>
            rw [hmore] at hrest
            simp [Scan.Describes, hrest.1, mt hdone.mpr hrest.2]

/-- Scanning keeps at most the bytes of the block. -/
theorem scan_marked_length {phase : Phase} {raw kept rest : List Byte} {terminator : Byte}
    (h : scan phase raw = .marked kept terminator rest) :
    kept.length + 1 + rest.length ≤ raw.length := by
  induction raw generalizing phase kept with
  | nil => simp at h
  | cons ch more ih =>
      rcases scan_cons phase ch more with ⟨hscan, -, -⟩ | ⟨front, hscan, -, hshort, -⟩
      · cases hscan.symm.trans h
        simp only [List.length_cons, List.length_nil]
        omega
      · rw [hscan] at h
        cases hmore : scan (step phase ch).1 more with
        | unmarked => simp [hmore] at h
        | marked inner _ _ =>
            rw [hmore, Scan.prepend] at h
            cases h
            have hinner := ih hmore
            simp only [List.length_append, List.length_cons]
            omega

/-- A scan without the mark keeps at most the bytes of the block. -/
theorem scan_unmarked_length {phase final : Phase} {raw kept : List Byte}
    (h : scan phase raw = .unmarked kept final) : kept.length ≤ raw.length := by
  induction raw generalizing phase kept with
  | nil =>
      obtain ⟨rfl, -⟩ : kept = [] ∧ _ := by simpa [eq_comm] using h
      exact Nat.le_refl _
  | cons ch more ih =>
      rcases scan_cons phase ch more with ⟨hscan, -, -⟩ | ⟨front, hscan, -, hshort, -⟩
      · cases hscan.symm.trans h
      · rw [hscan] at h
        cases hmore : scan (step phase ch).1 more with
        | marked => simp [hmore] at h
        | unmarked inner =>
            rw [hmore, Scan.prepend] at h
            cases h
            have hinner := ih hmore
            simp only [List.length_append, List.length_cons]
            omega

/-- Scanning a concatenation: behind the mark everything is rest, otherwise the scan goes on. -/
theorem scan_append (phase : Phase) (first second : List Byte) :
    scan phase (first ++ second) = match scan phase first with
      | .unmarked kept final => (scan final second).prepend kept
      | .marked kept terminator rest => .marked kept terminator (rest ++ second) := by
  induction first generalizing phase with
  | nil => simp
  | cons ch rest ih =>
      rcases scan_cons phase ch (rest ++ second) with ⟨hscan, rfl, hstep⟩ |
        ⟨kept, hscan, hstep, -, -⟩
      · have hend : ch = CR ∨ ch = LF := by
          by_contra hkeep
          simp [step, hkeep] at hstep
        simp [scan, hend]
      · rcases scan_cons phase ch rest with ⟨-, -, hmark⟩ | ⟨same, hsame, hstep', -, -⟩
        · have hbad := hstep.symm.trans (congrArg Prod.snd hmark)
          cases kept <;> simp at hbad
        · obtain rfl : kept = same :=
            (List.map_injective_iff.mpr fun _ _ h ↦ Symbol.byte.inj h) (hstep.symm.trans hstep')
          rw [List.cons_append, hscan, hsame, ih]
          cases scan (step phase ch).1 rest <;> simp

/-! ## Streams cut into blocks -/

/-- A completely filled block with a stored scanner state. -/
def filled (state : State) (bytes : List Byte) : InputBlock := ⟨⟨bytes, bytes.length⟩, state⟩

/-- Call `getEoD(begin())` on filled blocks in turn, with the scanner state carried over. -/
def scanBlocks : State → List (List Byte) → List (Nat × InputBlock)
  | _, [] => []
  | state, bytes :: more =>
      let call := (filled state bytes).getEoD 0
      call :: scanBlocks call.2.eodState more

/-- The bytes left in `[begin(), end())` by a call. -/
def bytesLeft (call : Nat × InputBlock) : List Byte := call.2.bytes.take call.2.pos

/-- The bytes are the output of the automaton, with any byte for the placeholder. -/
def Matches (output : List Symbol) (bytes : List Byte) : Prop :=
  List.Forall₂ (fun symbol ch ↦ symbol = .placeholder ∨ symbol = .byte ch) output bytes

theorem matches_map_byte (bytes : List Byte) : Matches (bytes.map .byte) bytes := by
  induction bytes with
  | nil => exact .nil
  | cons ch rest ih => exact .cons (.inr rfl) ih

theorem Matches.append {first second : List Symbol} {front back : List Byte}
    (hfirst : Matches first front) (hsecond : Matches second back) :
    Matches (first ++ second) (front ++ back) :=
  List.rel_append hfirst hsecond

/-- The mark falls in the block that the automaton enters unmarked and leaves marked. -/
def MarkFalls (phase : Phase) (bytes : List Byte) : Prop :=
  phase ≠ .done ∧ (Transducer.feed step phase bytes).1 = .done

/-- An `int` holds every position of a block of less than `2 ^ 31` bytes. -/
theorem to_int_eq {value : Nat} (h : value < 2 ^ 31) : toInt value = value := by
  unfold toInt Int.bmod
  simp only [Nat.reducePow] at *
  omega

/-- The conversion of a position from `2 ^ 31` on to `int` is negative. -/
theorem to_int_neg {value : Nat} (h : 2 ^ 31 ≤ value) (hlt : value < 2 ^ 32) : toInt value < 0 := by
  unfold toInt Int.bmod
  simp only [Nat.reducePow] at *
  omega

/-- The conversion to `int` and back does not increase a position. -/
theorem to_int_to_nat_le (value : Nat) : (toInt value).toNat ≤ value := by
  unfold toInt Int.bmod
  simp only [Nat.reducePow]
  omega

/-- The conversion to `int` and back gives at most `INT_MAX`. -/
theorem to_int_to_nat_lt (value : Nat) : (toInt value).toNat < 2 ^ 31 := by
  unfold toInt Int.bmod
  simp only [Nat.reducePow]
  omega

/-- Whatever the block holds, `getEoD` returns a position between the start and the new end, and the
new end lies inside the block. -/
theorem get_eod_bounds (block : InputBlock) {start : Nat} (hstart : start < block.size) :
    start ≤ (block.getEoD start).1 ∧ (block.getEoD start).1 ≤ (block.getEoD start).2.pos ∧
      (block.getEoD start).2.pos ≤ block.size ∧ (block.getEoD start).2.size = block.size := by
  have hsize : (block.bytes.drop start).length = block.size - start := by simp [MemBlock.size]
  have hblock : block.size = block.bytes.length := rfl
  cases hscan : scan block.eodState.phase (block.bytes.drop start) with
  | unmarked kept final =>
      obtain ⟨state, -, heq⟩ := get_eod_unmarked block hstart hscan
      have hlen := scan_unmarked_length hscan
      rw [heq]
      exact ⟨by simp, Nat.le_refl _, by simp only; omega, Block.store_length (by omega)⟩
  | marked kept terminator rest =>
      obtain ⟨state, placeholder, -, -, heq⟩ := get_eod_marked block hstart hscan
      have hlen := scan_marked_length hscan
      have hmark := to_int_to_nat_le kept.length
      rw [heq]
      simp only [List.length_append, List.length_cons]
      refine ⟨?_, ?_,
        by omega, Block.store_length (by simp only [List.length_append, List.length_cons]; omega)⟩
      · split <;> omega
      · split <;> omega

/-- One call on a filled block: the state reached, the bytes left and the position returned. -/
theorem get_eod_filled (state : State) {bytes : List Byte} (hne : bytes ≠ [])
    (hsize : bytes.length < 2 ^ 31) :
    ((filled state bytes).getEoD 0).2.eodState.phase =
        (Transducer.feed step state.phase bytes).1 ∧
      Matches (Transducer.feed step state.phase bytes).2
        (bytesLeft ((filled state bytes).getEoD 0)) ∧
      (MarkFalls state.phase bytes → ((filled state bytes).getEoD 0).1 <
          ((filled state bytes).getEoD 0).2.pos ∧
        (Transducer.feed step state.phase bytes).2[((filled state bytes).getEoD 0).1]? =
          some .placeholder) ∧
      (¬ MarkFalls state.phase bytes → ((filled state bytes).getEoD 0).1 =
        ((filled state bytes).getEoD 0).2.pos) := by
  have hstart : 0 < (filled state bytes).size := List.length_pos_iff.mpr hne
  have hdescribes := scan_describes state.phase bytes
  cases hscan : scan state.phase bytes with
  | unmarked kept final =>
      rw [hscan] at hdescribes
      obtain ⟨hfeed, hdone⟩ := hdescribes
      obtain ⟨after, rfl, heq⟩ := get_eod_unmarked (filled state bytes) hstart hscan
      simp only [heq, hfeed, bytesLeft, MarkFalls, Nat.zero_add]
      refine ⟨trivial, ?_, fun hmark ↦ absurd (hdone.mp hmark.2) hmark.1, fun _ ↦ trivial⟩
      rw [Block.store_zero_take]
      exact matches_map_byte kept
  | marked kept terminator rest =>
      rw [hscan] at hdescribes
      obtain ⟨hfeed, hphase⟩ := hdescribes
      obtain ⟨after, placeholder, hafter, -, heq⟩ :=
        get_eod_marked (filled state bytes) hstart hscan
      have hlen := scan_marked_length hscan
      rw [to_int_eq (by omega), if_pos (by omega)] at heq
      simp only [heq, hfeed, bytesLeft, MarkFalls, Nat.zero_add]
      refine ⟨hafter, ?_, fun _ ↦ ⟨?_, ?_⟩, fun hmark ↦ absurd ⟨hphase, trivial⟩ hmark⟩
      · rw [Block.store_zero_take]
        exact (matches_map_byte kept).append (.cons (.inl rfl) (matches_map_byte rest))
      · simp
      · simp

/-- **`getEoD` refines the automaton, however the stream is cut into blocks.** The bytes left by
the calls are together the automaton's output on the whole stream. A call returns a position in
front of `end()` exactly when the mark falls in its block, and then the position of the
placeholder; every other call returns `end()`. -/
theorem get_eod_refines_automaton (state : State) (blocks : List (List Byte))
    (hblocks : ∀ bytes ∈ blocks, bytes ≠ [] ∧ bytes.length < 2 ^ 31) :
    Matches (Transducer.feed step state.phase blocks.flatten).2
        ((scanBlocks state blocks).flatMap bytesLeft) ∧
      (scanBlocks state blocks).length = blocks.length ∧
      ∀ (i : Nat) (call : Nat × InputBlock) (bytes : List Byte),
        (scanBlocks state blocks)[i]? = some call → blocks[i]? = some bytes →
        let phase := (Transducer.feed step state.phase (blocks.take i).flatten).1
        (call.1 < call.2.pos ↔ MarkFalls phase bytes) ∧
        (MarkFalls phase bytes → (Transducer.feed step state.phase blocks.flatten).2[
          (((scanBlocks state blocks).take i).flatMap bytesLeft).length + call.1]? =
            some .placeholder) ∧
        (¬ MarkFalls phase bytes → call.1 = call.2.pos) := by
  induction blocks generalizing state with
  | nil => exact ⟨.nil, rfl, by simp [scanBlocks]⟩
  | cons bytes more ih =>
      obtain ⟨hne, hsize⟩ := hblocks bytes (by simp)
      obtain ⟨hstate, hmatches, hmark, hunmarked⟩ := get_eod_filled state hne hsize
      obtain ⟨hrest, hlen, hcalls⟩ := ih ((filled state bytes).getEoD 0).2.eodState
        (fun later hlater ↦ hblocks later (by simp [hlater]))
      rw [hstate] at hrest hcalls
      have hfeed := Transducer.feed_append step state.phase bytes more.flatten
      refine ⟨?_, by simp [scanBlocks, hlen], ?_⟩
      · simpa [scanBlocks, hfeed] using hmatches.append hrest
      · intro i call later hcall hlater
        cases i with
        | zero =>
            obtain rfl : (filled state bytes).getEoD 0 = call := by simpa [scanBlocks] using hcall
            obtain rfl : bytes = later := by simpa using hlater
            refine ⟨⟨?_, fun hfalls ↦ (hmark hfalls).1⟩, ?_, hunmarked⟩
            · intro hlt
              by_contra hfalls
              exact absurd (hunmarked hfalls) (Nat.ne_of_lt hlt)
            · intro hfalls
              have hplace := (hmark hfalls).2
              have hlt := (List.getElem?_eq_some_iff.mp hplace).1
              simpa [hfeed, List.getElem?_append_left hlt] using hplace
        | succ i =>
            obtain ⟨hiff, hplace, hend⟩ := hcalls i call later (by simpa [scanBlocks] using hcall)
              (by simpa using hlater)
            have hprefix := Transducer.feed_append step state.phase bytes (more.take i).flatten
            simp only [List.take_succ_cons, List.flatten_cons, hprefix]
            refine ⟨hiff, ?_, hend⟩
            intro hfalls
            have hfound := hplace hfalls
            rw [hfeed, scanBlocks, List.take_succ_cons, List.flatMap_cons, List.length_append,
              Nat.add_assoc, hmatches.length_eq.symm, List.getElem?_append_right (by omega),
              Nat.add_sub_cancel_left]
            exact hfound

/-- The stream `"a\n.b\n.\r\nquit"`, cut behind both dots. -/
theorem get_eod_refines_automaton_dots :
    Matches (Transducer.feed step State.src.phase
        [text "a\n.", text "b\n.", text "\r\nquit"].flatten).2
      ((scanBlocks .src [text "a\n.", text "b\n.", text "\r\nquit"]).flatMap bytesLeft) :=
  (get_eod_refines_automaton .src [text "a\n.", text "b\n.", text "\r\nquit"] (by decide)).1

end Smerp.Protocol.EoD
