import Smerp.Lib.Splits
import Smerp.Protocol.Buffers

/-!
# Protocol parsing

The functions of `include/protocol/parser.hpp` on a range of characters `[src, stop)`. They read
through `get`, which may throw, and return the new position of `src` beside their result. The
lemmas describe each function on a window, the list of the characters it can read.
-/

namespace Smerp.Protocol

open Lib

/-- The loop `while (src < end && test(*src)) ++src` over `left` characters. -/
def skipWhile (get : Nat → Except Fault Byte) (test : Byte → Bool) :
    (left src : Nat) → Except Fault Nat
  | 0, src => .ok src
  | left + 1, src => do
      let ch ← get src
      if test ch then skipWhile get test left (src + 1) else .ok src

section

variable (get : Nat → Except Fault Byte) (src stop : Nat)

/-- `Parser::skipSpaces` -/
def skipSpaces : Except Fault (Bool × Nat) := do
  let src ← skipWhile get isBlank (stop - src) src
  return (decide (src < stop), src)

/-- `Parser::skipLine` -/
def skipLine : Except Fault (Bool × Nat) := do
  let src ← skipWhile get (fun ch ↦ !isLineEnd ch) (stop - src) src
  return (decide (src < stop), src)

/-- `Parser::consumeEOLN`: a carriage return is consumed even if no line feed follows. -/
def consumeEOLN : Except Fault (Bool × Nat) := do
  if src = stop then return (false, src)
  let src := if (← get src) = CR then src + 1 else src
  if src = stop then return (false, src)
  if (← get src) ≠ LF then return (false, src)
  return (true, src + 1)

/-- `Parser::isEOLN` -/
def isEOLN : Except Fault Bool := do
  let ch ← get src
  return isLineEnd ch

end

/-- The loop of `getCommand` that feeds the command token to the buffer. -/
def scanToken (get : Nat → Except Fault Byte) :
    (left src : Nat) → CmdBuffer → Except Fault (Nat × CmdBuffer)
  | 0, src, buf => .ok (src, buf)
  | left + 1, src, buf => do
      let ch ← get src
      if isTokenChar ch then scanToken get left (src + 1) (buf.pushBack ch) else .ok (src, buf)

/-- `MaxNofCommands` -/
def maxNofCommands : Nat := 32

/-- `CmdParser<CmdBuffer>`: the packed names of the commands. -/
structure CmdParser where
  elem : List UInt64
  size_le : elem.length ≤ maxNofCommands
  deriving DecidableEq, Repr

namespace CmdParser

/-- A parser without commands. -/
def new : CmdParser := ⟨[], Nat.zero_le _⟩

/-- `add`; `none` is the exception `Bad`. -/
def add (parser : CmdParser) (cmd : List Byte) : Option CmdParser :=
  if h : parser.elem.length = maxNofCommands then none
  else some ⟨parser.elem ++ [(CmdBuffer.new.pushAll cmd).value], by
    have := parser.size_le
    simp only [List.length_append, List.length_singleton]
    omega⟩

/-- The constructor over an array of commands. -/
def build (cmds : List (List Byte)) : Option CmdParser := cmds.foldlM add new

/-- The search for the packed name: the index of the first command that has it, or `-1`. -/
def lookup (parser : CmdParser) (value : UInt64) : Int :=
  if value = -1 then -1
  else match parser.elem.findIdx? (· = value) with
    | some ii => ii
    | none => -1

/-- `getCommand`: the index of the command, the new position and the command buffer. -/
def getCommand (parser : CmdParser) (get : Nat → Except Fault Byte) (src stop : Nat)
    (buf : CmdBuffer) : Except Fault (Int × Nat × CmdBuffer) := do
  let (src, buf) ← scanToken get (stop - src) src buf
  if src = stop then return (-1, src, buf)
  return (parser.lookup buf.value, src, buf.init)

/-- The packed names of a parser built from an array of commands, and the limit on their number. -/
theorem build_eq_some_iff {cmds : List (List Byte)} {parser : CmdParser} :
    build cmds = some parser ↔
      parser.elem = cmds.map (fun cmd ↦ (CmdBuffer.new.pushAll cmd).value) := by
  have hfold (parser : CmdParser) (cmds : List (List Byte)) (final : CmdParser) :
      cmds.foldlM add parser = some final ↔ final.elem =
        parser.elem ++ cmds.map (fun cmd ↦ (CmdBuffer.new.pushAll cmd).value) := by
    induction cmds generalizing parser with
    | nil =>
        obtain ⟨elem, hle⟩ := parser
        obtain ⟨elem', hle'⟩ := final
        simp [eq_comm]
    | cons cmd rest ih =>
        rw [List.foldlM_cons, add]
        split
        · have hle := final.size_le
          refine ⟨fun h ↦ by simp at h, ?_⟩
          intro h
          rw [h] at hle
          simp only [List.length_append, List.length_map, List.length_cons] at hle
          omega
        · simp [ih]
  simpa [build, new] using hfold new cmds parser

end CmdParser

/-! ## Windows -/

/-- Reading from `src` on gives these characters. -/
def Window (get : Nat → Except Fault Byte) (src : Nat) (data : List Byte) : Prop :=
  ∀ i ch, data[i]? = some ch → get (src + i) = .ok ch

theorem Window.head {get : Nat → Except Fault Byte} {src : Nat} {ch : Byte} {rest : List Byte}
    (h : Window get src (ch :: rest)) : get src = .ok ch :=
  h 0 ch rfl

theorem Window.tail {get : Nat → Except Fault Byte} {src : Nat} {ch : Byte} {rest : List Byte}
    (h : Window get src (ch :: rest)) : Window get (src + 1) rest := by
  intro i other hother
  have hget := h (i + 1) other (by simpa using hother)
  rwa [show src + 1 + i = src + (i + 1) by omega]

theorem Window.back {get : Nat → Except Fault Byte} {src : Nat} {front back : List Byte}
    (h : Window get src (front ++ back)) : Window get (src + front.length) back := by
  intro i ch hch
  have hget := h (front.length + i) ch (by
    rw [List.getElem?_append_right (by omega), Nat.add_sub_cancel_left, hch])
  rwa [Nat.add_assoc]

/-- The bytes of a block in front of its position are a window. -/
theorem MemBlock.window {block : MemBlock} {src : Nat} {data : List Byte}
    (h : Lib.Block.slice block.bytes src data.length = data)
    (hpos : src + data.length ≤ block.pos) :
    Window block.get src data := by
  intro i ch hch
  have hlt := (List.getElem?_eq_some_iff.mp hch).1
  refine MemBlock.get_eq (by omega) ?_
  rw [← h, Lib.Block.slice, List.getElem?_take_of_lt hlt, List.getElem?_drop] at hch
  exact hch

section

variable {get : Nat → Except Fault Byte} {src : Nat} {data : List Byte}

/-- The loop stops behind the longest front of characters that pass the test. -/
theorem skip_while_window (test : Byte → Bool) (h : Window get src data) :
    skipWhile get test data.length src = .ok (src + (data.takeWhile test).length) := by
  induction data generalizing src with
  | nil => rfl
  | cons ch rest ih =>
      simp only [List.length_cons, skipWhile, h.head, bind, Except.bind, List.takeWhile_cons]
      cases htest : test ch with
      | true => simp [ih h.tail, Nat.add_assoc, Nat.add_comm 1]
      | false => simp

/-- The token loop feeds the longest front of token characters to the buffer. -/
theorem scan_token_window (buf : CmdBuffer) (h : Window get src data) :
    scanToken get data.length src buf = .ok (src + (data.takeWhile isTokenChar).length,
      buf.pushAll (data.takeWhile isTokenChar)) := by
  induction data generalizing src buf with
  | nil => rfl
  | cons ch rest ih =>
      simp only [List.length_cons, scanToken, h.head, bind, Except.bind, List.takeWhile_cons]
      cases htest : isTokenChar ch with
      | true => simp [ih _ h.tail, Nat.add_assoc, Nat.add_comm 1]
      | false => simp

/-- `skipSpaces` over blanks only reaches the end. -/
theorem skip_spaces_all (h : Window get src data) (hblank : ∀ ch ∈ data, isBlank ch = true) :
    skipSpaces get src (src + data.length) = .ok (false, src + data.length) := by
  have hskip := skip_while_window isBlank h
  rw [List.takeWhile_eq_self_iff.mpr hblank] at hskip
  rw [skipSpaces, Nat.add_sub_cancel_left, hskip]
  simp [bind, Except.bind, pure, Except.pure]

/-- `skipSpaces` stops at the first character that is not a blank. -/
theorem skip_spaces_found {blanks more : List Byte} {ch : Byte}
    (h : Window get src (blanks ++ ch :: more)) (hblank : ∀ ch ∈ blanks, isBlank ch = true)
    (hch : isBlank ch = false) :
    skipSpaces get src (src + (blanks ++ ch :: more).length) = .ok (true, src + blanks.length) := by
  have hskip := skip_while_window isBlank h
  rw [take_while_split more hblank hch] at hskip
  rw [skipSpaces, Nat.add_sub_cancel_left, hskip]
  simp [bind, Except.bind, pure, Except.pure]

/-- `skipLine` without a line end reaches the end. -/
theorem skip_line_all (h : Window get src data) (hline : ∀ ch ∈ data, isLineEnd ch = false) :
    skipLine get src (src + data.length) = .ok (false, src + data.length) := by
  have hskip := skip_while_window (fun ch ↦ !isLineEnd ch) h
  rw [List.takeWhile_eq_self_iff.mpr (by simpa using hline)] at hskip
  rw [skipLine, Nat.add_sub_cancel_left, hskip]
  simp [bind, Except.bind, pure, Except.pure]

/-- `skipLine` stops at the first line end. -/
theorem skip_line_found {front more : List Byte} {ch : Byte}
    (h : Window get src (front ++ ch :: more)) (hline : ∀ ch ∈ front, isLineEnd ch = false)
    (hch : isLineEnd ch = true) :
    skipLine get src (src + (front ++ ch :: more).length) = .ok (true, src + front.length) := by
  have hskip := skip_while_window (fun ch ↦ !isLineEnd ch) h
  rw [take_while_split more (by simpa using hline) (by simp [hch])] at hskip
  rw [skipLine, Nat.add_sub_cancel_left, hskip]
  simp [bind, Except.bind, pure, Except.pure]

/-- `skipSpaces` reaches the end or stops in front of a character. -/
theorem skip_spaces_cases (h : Window get src data) :
    ((∀ ch ∈ data, isBlank ch = true) ∧
        skipSpaces get src (src + data.length) = .ok (false, src + data.length)) ∨
      ∃ blanks ch more, data = blanks ++ ch :: more ∧ (∀ ch ∈ blanks, isBlank ch = true) ∧
        isBlank ch = false ∧ skipSpaces get src (src + data.length) =
          .ok (true, src + blanks.length) := by
  rcases split_while isBlank data with hall | ⟨blanks, ch, more, rfl, hblank, hch⟩
  · exact .inl ⟨hall, skip_spaces_all h hall⟩
  · exact .inr ⟨blanks, ch, more, rfl, hblank, hch, skip_spaces_found h hblank hch⟩

/-- `skipLine` reaches the end or stops in front of a line end. -/
theorem skip_line_cases (h : Window get src data) :
    ((∀ ch ∈ data, isLineEnd ch = false) ∧
        skipLine get src (src + data.length) = .ok (false, src + data.length)) ∨
      ∃ line ch more, data = line ++ ch :: more ∧ (∀ ch ∈ line, isLineEnd ch = false) ∧
        isLineEnd ch = true ∧ skipLine get src (src + data.length) =
          .ok (true, src + line.length) := by
  rcases split_while (fun ch ↦ !isLineEnd ch) data with hline | ⟨line, ch, more, rfl, hline, hch⟩
  · have hclear : ∀ ch ∈ data, isLineEnd ch = false := by simpa using hline
    exact .inl ⟨hclear, skip_line_all h hclear⟩
  · have hclear : ∀ ch ∈ line, isLineEnd ch = false := by simpa using hline
    have hend : isLineEnd ch = true := by simpa using hch
    exact .inr ⟨line, ch, more, rfl, hclear, hend, skip_line_found h hclear hend⟩

/-- `consumeEOLN` on a line feed, alone or behind a carriage return. -/
theorem consume_eoln_found {eoln more : List Byte} (heoln : eoln = [LF] ∨ eoln = CRLF)
    (h : Window get src (eoln ++ more)) :
    consumeEOLN get src (src + (eoln ++ more).length) = .ok (true, src + eoln.length) := by
  rcases heoln with rfl | rfl
  · have hlf : get src = .ok LF := h.head
    simp [consumeEOLN, hlf, show LF ≠ CR by decide, bind, Except.bind, pure, Except.pure]
  · have hcr : get src = .ok CR := h.head
    have hlf : get (src + 1) = .ok LF := h.tail.head
    simp [consumeEOLN, hcr, hlf, CRLF, bind, Except.bind, pure, Except.pure]

/-- `consumeEOLN` on a carriage return at the end of the window: it is consumed, but the line end
is not complete. -/
theorem consume_eoln_cut (h : Window get src [CR]) :
    consumeEOLN get src (src + 1) = .ok (false, src + 1) := by
  simp [consumeEOLN, h.head, bind, Except.bind, pure, Except.pure]

/-- `consumeEOLN` on anything else: a carriage return is consumed all the same. -/
theorem consume_eoln_missing {cr more : List Byte} {ch : Byte}
    (hcr : cr = [] ∧ isLineEnd ch = false ∨ cr = [CR] ∧ ch ≠ LF)
    (h : Window get src (cr ++ ch :: more)) :
    consumeEOLN get src (src + (cr ++ ch :: more).length) = .ok (false, src + cr.length) := by
  rcases hcr with ⟨rfl, hline⟩ | ⟨rfl, hlf⟩
  · have hget : get src = .ok ch := h.head
    simp only [isLineEnd, Bool.or_eq_false_iff, beq_eq_false_iff_ne] at hline
    simp [consumeEOLN, hget, hline, bind, Except.bind, pure, Except.pure]
  · have hget : get src = .ok CR := h.head
    have hnext : get (src + 1) = .ok ch := h.tail.head
    simp [consumeEOLN, hget, hnext, hlf, bind, Except.bind, pure, Except.pure]

/-- A window starts with a line end, is a carriage return, or has no line end at its start. -/
theorem eoln_cases (ch : Byte) (more : List Byte) :
    (∃ eoln back, ch :: more = eoln ++ back ∧ (eoln = [LF] ∨ eoln = CRLF)) ∨
      (ch = CR ∧ more = []) ∨
      ∃ cr next back, ch :: more = cr ++ next :: back ∧
        (cr = [] ∧ next = ch ∧ isLineEnd next = false ∨ cr = [CR] ∧ next ≠ LF) := by
  by_cases hlf : ch = LF
  · exact .inl ⟨[LF], more, by simp [hlf], .inl rfl⟩
  · by_cases hcr : ch = CR
    · cases more with
      | nil => exact .inr (.inl ⟨hcr, rfl⟩)
      | cons next back =>
          by_cases hnext : next = LF
          · exact .inl ⟨CRLF, back, by simp [hcr, hnext, CRLF], .inr rfl⟩
          · exact .inr (.inr ⟨[CR], next, back, by simp [hcr], .inr ⟨rfl, hnext⟩⟩)
    · exact .inr (.inr ⟨[], ch, more, rfl, .inl ⟨rfl, rfl, by simp [isLineEnd, hlf, hcr]⟩⟩)

/-- `consumeEOLN` finds a line end, runs out of characters behind a carriage return, or finds
something else. -/
theorem consume_eoln_cases {ch : Byte} {more : List Byte} (h : Window get src (ch :: more)) :
    (∃ eoln back, ch :: more = eoln ++ back ∧ (eoln = [LF] ∨ eoln = CRLF) ∧
        consumeEOLN get src (src + (ch :: more).length) = .ok (true, src + eoln.length)) ∨
      ((¬ ∃ eoln back, ch :: more = eoln ++ back ∧ (eoln = [LF] ∨ eoln = CRLF)) ∧
        ∃ cr, cr ≤ (ch :: more).length ∧
          consumeEOLN get src (src + (ch :: more).length) = .ok (false, src + cr)) := by
  by_cases hfound : ∃ eoln back, ch :: more = eoln ++ back ∧ (eoln = [LF] ∨ eoln = CRLF)
  · obtain ⟨eoln, back, hsplit, heoln⟩ := hfound
    rw [hsplit] at h ⊢
    exact .inl ⟨eoln, back, rfl, heoln, consume_eoln_found heoln h⟩
  · refine .inr ⟨hfound, ?_⟩
    rcases eoln_cases ch more with ⟨eoln, back, hsplit, heoln⟩ | ⟨rfl, rfl⟩ |
      ⟨cr, next, back, hsplit, hbad⟩
    · exact absurd ⟨eoln, back, hsplit, heoln⟩ hfound
    · exact ⟨1, Nat.le_refl _, consume_eoln_cut h⟩
    · rw [hsplit] at h ⊢
      have hmissing : cr = [] ∧ isLineEnd next = false ∨ cr = [CR] ∧ next ≠ LF :=
        hbad.imp_left fun h ↦ ⟨h.1, h.2.2⟩
      refine ⟨cr.length, ?_, consume_eoln_missing hmissing h⟩
      rw [List.length_append]
      omega

/-- The first line end of a text splits it in one way only. -/
theorem line_unique {line line' back back' : List Byte} {ch ch' : Byte}
    (h : line ++ ch :: back = line' ++ ch' :: back') (hline : ∀ ch ∈ line, isLineEnd ch = false)
    (hch : isLineEnd ch = true) (hline' : ∀ ch ∈ line', isLineEnd ch = false)
    (hch' : isLineEnd ch' = true) : line = line' ∧ ch = ch' ∧ back = back' :=
  have hclear {line : List Byte} (hline : ∀ ch ∈ line, isLineEnd ch = false) :
      ∀ ch ∈ line, (!isLineEnd ch) = true := by simpa using hline
  split_unique h (hclear hline) (by simp [hch]) (hclear hline') (by simp [hch'])

/-- The line end at the start of a text is determined. -/
theorem eoln_unique {eoln eoln' back back' : List Byte} (heoln : eoln = [LF] ∨ eoln = CRLF)
    (heoln' : eoln' = [LF] ∨ eoln' = CRLF) (h : eoln ++ back = eoln' ++ back') : back = back' := by
  have hne : LF ≠ CR := by decide
  rcases heoln with rfl | rfl <;> rcases heoln' with rfl | rfl <;>
    simp only [CRLF, List.cons_append, List.nil_append, List.cons.injEq, true_and] at h
  · exact h
  · exact absurd h.1 hne
  · exact absurd h.1.symm hne
  · exact h

/-- `getCommand` on a window of token characters only waits for more. -/
theorem get_command_all (parser : CmdParser) (buf : CmdBuffer) (h : Window get src data)
    (htoken : ∀ ch ∈ data, isTokenChar ch = true) :
    parser.getCommand get src (src + data.length) buf =
      .ok (-1, src + data.length, buf.pushAll data) := by
  have hscan := scan_token_window buf h
  rw [List.takeWhile_eq_self_iff.mpr htoken] at hscan
  rw [CmdParser.getCommand, Nat.add_sub_cancel_left, hscan]
  simp [bind, Except.bind, pure, Except.pure]

/-- `getCommand` on a token and the character behind it looks the token up. -/
theorem get_command_found (parser : CmdParser) (buf : CmdBuffer) {token more : List Byte}
    {ch : Byte} (h : Window get src (token ++ ch :: more))
    (htoken : ∀ ch ∈ token, isTokenChar ch = true) (hch : isTokenChar ch = false) :
    parser.getCommand get src (src + (token ++ ch :: more).length) buf =
      .ok (parser.lookup (buf.pushAll token).value, src + token.length, CmdBuffer.new) := by
  have hscan := scan_token_window buf h
  rw [take_while_split more htoken hch] at hscan
  rw [CmdParser.getCommand, Nat.add_sub_cancel_left, hscan]
  simp [bind, Except.bind, pure, Except.pure, CmdBuffer.init]

end

end Smerp.Protocol
