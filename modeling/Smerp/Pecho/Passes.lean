import Smerp.Pecho.Handler

/-!
# What one pass of `pecho` does

`Outcome` lists every way in which a pass of `nextOperation` can end, in terms of the bytes that
are still to be read. `pass_outcome` says that a pass from a state with its iterators in order
ends in one of these ways: it does not throw.
-/

namespace Smerp.Pecho

open Lib Protocol Network Conn

/-- The reply to a new command line. -/
def greeting : List Byte := text "OK expecting command" ++ CRLF

namespace Conn

/-- The bytes between the iterator and the end of the message. -/
def rest (c : Conn) : List Byte := Block.slice c.input.bytes c.itr (c.eoM - c.itr)

/-- The bytes between the iterator and the end of the data. -/
def data (c : Conn) : List Byte := Block.slice c.input.bytes c.itr (c.eoD - c.itr)

/-- The line buffer after a reply. -/
def lineBuffer (c : Conn) (str : List Byte) : Buffer 128 :=
  (((str ++ CRLF).foldl Buffer.pushBack c.buffer.init).cStr).init

/-- The state after a reply. -/
def replied (c : Conn) (next : State) (str : List Byte) : Conn :=
  { c with state := next, buffer := c.lineBuffer str }

/-- The state after a `READ` was requested, with the iterator behind the bytes read so far. -/
def drained (c : Conn) (count : Nat) : Conn :=
  { c with itr := c.itr + count, input := c.input.setPos 0 }

/-- The operation that requests a `READ`. -/
def readOp (c : Conn) : Operation := .read 0 c.input.size 0

/-- The state after printing the next characters of the input. -/
def echoed (c : Conn) (chars : List Byte) : Conn :=
  { c with output := c.output.printAll (chars.map (convert c.mode)), itr := c.itr + chars.length }

/-- The blocks are not empty, and the output position lies inside the output block. -/
structure Sized (c : Conn) : Prop where
  size_pos : 0 < c.input.size
  room_pos : 0 < c.output.size
  out_le : c.output.pos ≤ c.output.size

/-- The iterators are in order, and no command is pending outside of the two states that parse
one. -/
structure Ready (c : Conn) : Prop extends Sized c where
  itr_le : c.itr ≤ c.eoM
  eom_eq : c.eoM = c.input.pos
  pos_le : c.input.pos ≤ c.input.size
  data_le : c.state = .processing ∨ c.state = .processingAfterWrite →
    c.itr ≤ c.eoD ∧ c.eoD ≤ c.eoM
  token : c.state ≠ .enterCommand → c.state ≠ .enterMode → c.cmdBuffer = .new

end Conn

/-- The reaction to a command, with the iterator behind its name. -/
def commandReaction (c : Conn) : Option Command → Conn × Option Operation
  | some .empty => ({ c with state := .emptyLine }, none)
  | some .caps => (c.replied .enterCommand (text "OK caps echo[tolower|toupper] quit"),
      some (.write (text "OK caps echo[tolower|toupper] quit" ++ CRLF) 0))
  | some .echo => ({ c with state := .enterMode }, none)
  | some .quit => (c.replied .terminate (text "BYE"), some (.write (text "BYE" ++ CRLF) 0))
  | none => (c.replied .handleError (text "BAD unknown command"),
      some (.write (text "BAD unknown command" ++ CRLF) 0))

/-- The reaction to the argument of `echo`, with the iterator behind it. -/
def modeReaction (c : Conn) : Option Mode → Conn × Option Operation
  | some mode => ({ c with mode := mode, state := .startProcessing }, none)
  | none => (c.replied .handleError (text "BAD unknown command argument"),
      some (.write (text "BAD unknown command argument" ++ CRLF) 0))

/-- The states and operations in which a pass can end. -/
inductive Outcome (c : Conn) : Conn → Option Operation → Prop
  | greet (hstate : c.state = .init) :
      Outcome c (replied { c with mode := .ident } .enterCommand (text "OK expecting command"))
        (some (.write greeting 0))
  | commandRead (hstate : c.state = .enterCommand) (htoken : ∀ ch ∈ c.rest, isTokenChar ch = true) :
      Outcome c (drained { c with cmdBuffer := c.cmdBuffer.pushAll c.rest } c.rest.length)
        (some c.readOp)
  | commandEnd (token : List Byte) (ch : Byte) (more : List Byte) (hstate : c.state = .enterCommand)
      (hrest : c.rest = token ++ ch :: more) (htoken : ∀ ch ∈ token, isTokenChar ch = true)
      (hch : isTokenChar ch = false) (next : Conn) (op : Option Operation)
      (hreaction : (next, op) = commandReaction
        { c with itr := c.itr + token.length, cmdBuffer := .new }
        (Command.ofIndex (commandParser.lookup (c.cmdBuffer.pushAll token).value))) :
      Outcome c next op
  | emptyRead (blanks tail : List Byte) (hstate : c.state = .emptyLine)
      (hrest : c.rest = blanks ++ tail) (hblank : ∀ ch ∈ blanks, isBlank ch = true)
      (htail : tail = [] ∨ tail = [CR]) :
      Outcome c (c.drained c.rest.length) (some c.readOp)
  | emptyEnd (blanks eoln more : List Byte) (hstate : c.state = .emptyLine)
      (hrest : c.rest = blanks ++ eoln ++ more) (hblank : ∀ ch ∈ blanks, isBlank ch = true)
      (heoln : eoln = [LF] ∨ eoln = CRLF) :
      Outcome c { c with state := .enterCommand, itr := c.itr + (blanks ++ eoln).length } none
  | emptyBad (blanks cr : List Byte) (ch : Byte) (more : List Byte) (hstate : c.state = .emptyLine)
      (hrest : c.rest = blanks ++ cr ++ ch :: more) (hblank : ∀ ch ∈ blanks, isBlank ch = true)
      (hbad : cr = [] ∧ isBlank ch = false ∧ isLineEnd ch = false ∨ cr = [CR] ∧ ch ≠ LF) :
      Outcome c
        (replied { c with itr := c.itr + (blanks ++ cr).length, buffer := c.buffer.init } .init
        (text "BAD command line")) (some (.write (text "BAD command line" ++ CRLF) 0))
  | modeRead (blanks token : List Byte) (hstate : c.state = .enterMode)
      (hrest : c.rest = blanks ++ token) (hblank : ∀ ch ∈ blanks, isBlank ch = true)
      (htoken : ∀ ch ∈ token, isTokenChar ch = true) :
      Outcome c (drained { c with cmdBuffer := c.cmdBuffer.pushAll token } c.rest.length)
        (some c.readOp)
  | modeEnd (blanks token : List Byte) (ch : Byte) (more : List Byte)
      (hstate : c.state = .enterMode)
      (hrest : c.rest = blanks ++ token ++ ch :: more) (hblank : ∀ ch ∈ blanks, isBlank ch = true)
      (htoken : ∀ ch ∈ token, isTokenChar ch = true) (hch : isTokenChar ch = false)
      (hstart : token = [] → isBlank ch = false) (next : Conn) (op : Option Operation)
      (hreaction : (next, op) = modeReaction
        { c with itr := c.itr + (blanks ++ token).length, cmdBuffer := .new }
        (Mode.ofIndex (modeParser.lookup (c.cmdBuffer.pushAll token).value))) :
      Outcome c next op
  | startRead (hstate : c.state = .startProcessing) (hblank : ∀ ch ∈ c.rest, isBlank ch = true) :
      Outcome c (drained { c with input := c.input.resetEoD } c.rest.length) (some c.readOp)
  | startBad (blanks : List Byte) (ch : Byte) (more : List Byte)
      (hstate : c.state = .startProcessing)
      (hrest : c.rest = blanks ++ ch :: more) (hblank : ∀ ch ∈ blanks, isBlank ch = true)
      (hch : isBlank ch = false) (hline : isLineEnd ch = false) :
      Outcome c (replied { c with input := c.input.resetEoD, itr := c.itr + blanks.length } .init
        (text "BAD too many arguments")) (some (.write (text "BAD too many arguments" ++ CRLF) 0))
  | startScan (blanks : List Byte) (ch : Byte) (more : List Byte)
      (hstate : c.state = .startProcessing) (hrest : c.rest = blanks ++ ch :: more)
      (hblank : ∀ ch ∈ blanks, isBlank ch = true) (hline : isLineEnd ch = true)
      (eoD : Nat) (input : InputBlock)
      (hscan : c.input.resetEoD.getEoD (c.itr + blanks.length) = (eoD, input)) :
      Outcome c (replied
        { c with itr := c.itr + blanks.length, input := input, eoD := eoD, eoM := input.pos }
        .processing (text "OK enter data"))
        (some (.write (text "OK enter data" ++ CRLF) 0))
  | release (hstate : c.state = .processingAfterWrite) :
      Outcome c { c with state := .processing, output := c.output.release } none
  | echoRead (hstate : c.state = .processing) (hroom : c.data.length ≤ c.output.restsize)
      (hend : c.eoD = c.eoM) :
      Outcome c ({ c.echoed c.data with input := c.input.setPos 0 }) (some c.readOp)
  | echoEnd (hstate : c.state = .processing) (hroom : c.data.length ≤ c.output.restsize)
      (hend : c.eoD < c.eoM) (op : Option Operation)
      (hop : op = if (c.echoed c.data).output.pos = 0 then none
        else some (.write (c.echoed c.data).output.content 0)) :
      Outcome c { c.echoed c.data with input := c.input.resetEoD, state := .init } op
  | echoFull (hstate : c.state = .processing) (hroom : c.output.restsize < c.data.length) :
      Outcome c { c.echoed (c.data.take c.output.restsize) with state := .processingAfterWrite }
        (some (.write (c.echoed (c.data.take c.output.restsize)).output.content 0))
  | skipRead (line tail : List Byte) (hstate : c.state = .handleError)
      (hrest : c.rest = line ++ tail) (hline : ∀ ch ∈ line, isLineEnd ch = false)
      (count : Nat) (htail : tail = [] ∧ count = line.length ∨ ∃ more, tail = CR :: more ∧
        more.head? ≠ some LF ∧ count = line.length + 1) :
      Outcome c (c.drained count) (some c.readOp)
  | skipEnd (line eoln more : List Byte) (hstate : c.state = .handleError)
      (hrest : c.rest = line ++ eoln ++ more) (hline : ∀ ch ∈ line, isLineEnd ch = false)
      (heoln : eoln = [LF] ∨ eoln = CRLF) :
      Outcome c { c with state := .init, itr := c.itr + (line ++ eoln).length } none
  | close (hstate : c.state = .terminate) : Outcome c c (some .close)

/-- What the reactions to a command and to its argument have in common: the line is read on without
an operation, or a line is sent, which begins with `BAD` only if the rest of the line is skipped. -/
inductive Reaction (c : Conn) : Conn → Option Operation → Prop
  | goesOn (mode : Mode) (state : State)
      (hstate : state = .emptyLine ∨ state = .enterMode ∨ state = .startProcessing) :
      Reaction c { c with mode := mode, state := state } none
  | replies (state : State) (str : List Byte)
      (hstate : state = .enterCommand ∨ state = .terminate ∨ state = .handleError)
      (hbad : text "BAD" <+: str ++ CRLF → state = .handleError)
      (hlen : (str ++ CRLF).length ≤ 128) :
      Reaction c (c.replied state str) (some (.write (str ++ CRLF) 0))

theorem command_reaction_cases {c next : Conn} {op : Option Operation} {cmd : Option Command}
    (h : (next, op) = commandReaction c cmd) : Reaction c next op := by
  cases cmd with
  | none =>
      cases h
      exact .replies .handleError _ (by simp) (fun _ ↦ rfl) (by decide)
  | some cmd =>
      cases cmd with
      | empty =>
          cases h
          exact .goesOn c.mode .emptyLine (by simp)
      | caps =>
          cases h
          exact .replies .enterCommand _ (by simp) (fun hbad ↦ absurd hbad (by decide)) (by decide)
      | echo =>
          cases h
          exact .goesOn c.mode .enterMode (by simp)
      | quit =>
          cases h
          exact .replies .terminate _ (by simp) (fun hbad ↦ absurd hbad (by decide)) (by decide)

theorem mode_reaction_cases {c next : Conn} {op : Option Operation} {mode : Option Mode}
    (h : (next, op) = modeReaction c mode) : Reaction c next op := by
  cases mode with
  | none =>
      cases h
      exact .replies .handleError _ (by simp) (fun _ ↦ rfl) (by decide)
  | some mode =>
      cases h
      exact .goesOn mode .startProcessing (by simp)

/-! ## The building blocks of a pass -/

namespace Conn

/-- A reply that fits into the line buffer is sent as it is. -/
theorem reply_eq (c : Conn) (next : State) (str : List Byte) (h : str.length + 2 ≤ 128) :
    c.reply next str = .ok (c.replied next str, some (.write (str ++ CRLF) 0)) := by
  have hlen : (str ++ CRLF).length = str.length + 2 := by simp [CRLF]
  have hcontent := Buffer.content_push_all (str ++ CRLF)
    (show c.buffer.init.pos + (str ++ CRLF).length ≤ 128 by
      rw [hlen]
      exact Nat.le_trans (Nat.le_of_eq (Nat.zero_add _)) h)
  have hpos := congrArg List.length hcontent
  rw [Buffer.content_length, Buffer.content_init, List.nil_append, hlen] at hpos
  have hread := Buffer.read_c_str ((str ++ CRLF).foldl Buffer.pushBack c.buffer.init)
  rw [hpos, hcontent, Buffer.content_init, List.nil_append] at hread
  simp only [reply, writeLine, hread, replied, lineBuffer, bind, Except.bind, pure, Except.pure]

theorem Ready.rest_length {c : Conn} (h : c.Ready) : c.itr + c.rest.length = c.eoM := by
  have := h.itr_le
  have := h.eom_eq
  have hle := h.pos_le
  rw [MemBlock.size] at hle
  rw [rest, Block.slice_length]
  omega

/-- The rest of the message can be read. -/
theorem Ready.window {c : Conn} (h : c.Ready) : Window c.input.get c.itr c.rest := by
  have hlen := h.rest_length
  refine MemBlock.window ?_ ?_
  · rw [show c.rest.length = c.eoM - c.itr by omega]
    rfl
  · rw [hlen, h.eom_eq]

/-- `skipSpaces` on the rest of the message. -/
theorem Ready.skip_spaces {c : Conn} (h : c.Ready) :
    ((∀ ch ∈ c.rest, isBlank ch = true) ∧
        skipSpaces c.input.get c.itr c.eoM = .ok (false, c.itr + c.rest.length)) ∨
      ∃ blanks ch more, c.rest = blanks ++ ch :: more ∧ (∀ ch ∈ blanks, isBlank ch = true) ∧
        isBlank ch = false ∧ skipSpaces c.input.get c.itr c.eoM =
          .ok (true, c.itr + blanks.length) ∧
        Window c.input.get (c.itr + blanks.length) (ch :: more) ∧
        c.eoM = c.itr + blanks.length + (ch :: more).length := by
  have hlen := h.rest_length
  have hwindow := h.window
  rw [← hlen]
  rcases skip_spaces_cases hwindow with hall | ⟨blanks, ch, more, hrest, hblank, hch, hskip⟩
  · exact .inl hall
  · rw [hrest] at hwindow
    refine .inr ⟨blanks, ch, more, hrest, hblank, hch, hskip, hwindow.back, ?_⟩
    rw [hrest, List.length_append, Nat.add_assoc]

/-- `skipLine` on the rest of the message. -/
theorem Ready.skip_line {c : Conn} (h : c.Ready) :
    ((∀ ch ∈ c.rest, isLineEnd ch = false) ∧
        skipLine c.input.get c.itr c.eoM = .ok (false, c.itr + c.rest.length)) ∨
      ∃ line ch more, c.rest = line ++ ch :: more ∧ (∀ ch ∈ line, isLineEnd ch = false) ∧
        isLineEnd ch = true ∧ skipLine c.input.get c.itr c.eoM = .ok (true, c.itr + line.length) ∧
        Window c.input.get (c.itr + line.length) (ch :: more) ∧
        c.eoM = c.itr + line.length + (ch :: more).length := by
  have hlen := h.rest_length
  have hwindow := h.window
  rw [← hlen]
  rcases skip_line_cases hwindow with hall | ⟨line, ch, more, hrest, hline, hch, hskip⟩
  · exact .inl hall
  · rw [hrest] at hwindow
    refine .inr ⟨line, ch, more, hrest, hline, hch, hskip, hwindow.back, ?_⟩
    rw [hrest, List.length_append, Nat.add_assoc]

/-! ## The passes of the states -/

theorem pass_enter_command {c : Conn} (h : c.Ready) (hstate : c.state = .enterCommand) :
    ∃ next op, c.passEnterCommand = .ok (next, op) ∧ Outcome c next op := by
  have hwindow := h.window
  rcases split_while isTokenChar c.rest with hall | ⟨token, ch, more, hrest, htoken, hch⟩
  · have hcommand := get_command_all commandParser c.cmdBuffer hwindow hall
    rw [h.rest_length] at hcommand
    refine ⟨_, _, ?_, .commandRead hstate hall⟩
    simp [passEnterCommand, hcommand, Command.ofIndex, readMore, drained, readOp, h.rest_length,
      bind, Except.bind, pure, Except.pure]
  · have hlen := h.rest_length
    rw [hrest] at hwindow hlen
    have hcommand := get_command_found commandParser c.cmdBuffer hwindow
      htoken hch
    rw [hlen] at hcommand
    have hne : ¬ c.itr + token.length = c.eoM := by
      simp only [List.length_append, List.length_cons] at hlen
      omega
    refine ⟨_, _, ?_, .commandEnd token ch more hstate hrest htoken hch _ _ rfl⟩
    simp only [passEnterCommand, hcommand, bind, Except.bind]
    cases Command.ofIndex (commandParser.lookup (c.cmdBuffer.pushAll token).value) with
    | none => rw [if_neg hne]; exact reply_eq _ _ _ (by decide)
    | some cmd =>
        cases cmd with
        | empty => rfl
        | caps => exact reply_eq _ _ _ (by decide)
        | echo => rfl
        | quit => exact reply_eq _ _ _ (by decide)

theorem pass_empty_line {c : Conn} (h : c.Ready) (hstate : c.state = .emptyLine) :
    ∃ next op, c.passEmptyLine = .ok (next, op) ∧ Outcome c next op := by
  rcases h.skip_spaces with ⟨hblank, hskip⟩ |
    ⟨blanks, ch, more, hrest, hblank, hch, hskip, hwindow, hend⟩
  · refine ⟨_, _, ?_, .emptyRead c.rest [] hstate (by simp) hblank (.inl rfl)⟩
    simp [passEmptyLine, hskip, readMore, drained, readOp, bind, Except.bind, pure, Except.pure]
  · rcases eoln_cases ch more with ⟨eoln, back, hsplit, heoln⟩ | ⟨rfl, rfl⟩ |
      ⟨cr, next, back, hsplit, hbad⟩
    · rw [hsplit] at hwindow hend
      have hconsume := consume_eoln_found heoln hwindow
      rw [← hend] at hconsume
      refine ⟨_, _, ?_, .emptyEnd blanks eoln back hstate (by simp [hrest, hsplit]) hblank heoln⟩
      simp [passEmptyLine, hskip, hconsume, bind, Except.bind, pure, Except.pure, Nat.add_assoc]
    · have hconsume := consume_eoln_cut hwindow
      have hcount : c.itr + c.rest.length = c.eoM := h.rest_length
      rw [← List.length_singleton (a := CR), ← hend] at hconsume
      refine ⟨_, _, ?_, .emptyRead blanks [CR] hstate hrest hblank (.inr rfl)⟩
      simp [passEmptyLine, hskip, hconsume, hcount, readMore, drained, readOp, bind, Except.bind,
        pure, Except.pure]
    · rw [hsplit] at hwindow hend
      have hconsume := consume_eoln_missing (hbad.imp_left fun hnext ↦ ⟨hnext.1, hnext.2.2⟩) hwindow
      rw [← hend] at hconsume
      have hne : ¬ c.itr + blanks.length + cr.length = c.eoM := by
        rw [hend]
        simp
      refine ⟨_, _, ?_, .emptyBad blanks cr next back hstate (by simp [hrest, hsplit]) hblank ?_⟩
      · have hreply := reply_eq { c with
          itr := c.itr + blanks.length + cr.length, buffer := c.buffer.init } .init
          (text "BAD command line") (by decide)
        simp only [passEmptyLine, hskip, hconsume, bind, Except.bind, hne, List.length_append,
          ← Nat.add_assoc, Bool.not_false, Bool.not_true, if_true, if_false, Bool.false_eq_true]
        exact hreply
      · exact hbad.imp_left fun ⟨hcr, hnext, hline⟩ ↦ ⟨hcr, hnext ▸ hch, hline⟩

theorem pass_enter_mode {c : Conn} (h : c.Ready) (hstate : c.state = .enterMode) :
    ∃ next op, c.passEnterMode = .ok (next, op) ∧ Outcome c next op := by
  rcases h.skip_spaces with ⟨hblank, hskip⟩ |
    ⟨blanks, first, more, hrest, hblank, hfirst, hskip, hwindow, hend⟩
  · refine ⟨_, _, ?_, .modeRead c.rest [] hstate (by simp) hblank (by simp)⟩
    simp [passEnterMode, hskip, readMore, drained, readOp, bind, Except.bind, pure, Except.pure]
  · have hlen := h.rest_length
    rw [hrest, List.length_append, ← Nat.add_assoc] at hlen
    rcases split_while isTokenChar (first :: more) with hall |
      ⟨token, ch, back, hsplit, htoken, hch⟩
    · have hcommand := get_command_all modeParser c.cmdBuffer hwindow hall
      rw [← hend] at hcommand
      refine ⟨_, _, ?_, .modeRead blanks (first :: more) hstate hrest hblank hall⟩
      have hcount : c.itr + c.rest.length = c.eoM := h.rest_length
      simp [passEnterMode, hskip, hcommand, hcount, Mode.ofIndex, readMore, drained, readOp, bind,
        Except.bind, pure, Except.pure]
    · rw [hsplit] at hwindow hend
      have hcommand := get_command_found modeParser c.cmdBuffer hwindow
        htoken hch
      rw [← hend] at hcommand
      have hne : ¬ c.itr + blanks.length + token.length = c.eoM := by
        rw [hend]
        simp
      have hstart : token = [] → isBlank ch = false := by
        rintro rfl
        obtain ⟨rfl, -⟩ : first = ch ∧ _ := by simpa using hsplit
        exact hfirst
      refine ⟨_, _, ?_, .modeEnd blanks token ch back hstate (by simp [hrest, hsplit]) hblank htoken
        hch hstart _ _ rfl⟩
      simp only [passEnterMode, hskip, hcommand, bind, Except.bind, Bool.not_true,
        Bool.false_eq_true, if_false, List.length_append, ← Nat.add_assoc]
      cases Mode.ofIndex (modeParser.lookup (c.cmdBuffer.pushAll token).value) with
      | none => rw [if_neg hne]; exact reply_eq _ _ _ (by decide)
      | some mode => rfl

/-- Resetting the scanner does not touch the rest of the message. -/
theorem Ready.reset {c : Conn} (h : c.Ready) : Ready { c with input := c.input.resetEoD } :=
  ⟨⟨h.size_pos, h.room_pos, h.out_le⟩, h.itr_le, h.eom_eq, h.pos_le, h.data_le, h.token⟩

theorem pass_start_processing {c : Conn} (h : c.Ready) (hstate : c.state = .startProcessing) :
    ∃ next op, c.passStartProcessing = .ok (next, op) ∧ Outcome c next op := by
  rcases h.reset.skip_spaces with ⟨hblank, hskip⟩ |
    ⟨blanks, ch, more, hrest, hblank, hch, hskip, hwindow, -⟩
  · refine ⟨_, _, ?_, .startRead hstate hblank⟩
    simp only [passStartProcessing, hskip, bind, Except.bind, pure, Except.pure]
    rfl
  · have heoln : isEOLN c.input.resetEoD.get (c.itr + blanks.length) = .ok (isLineEnd ch) := by
      simp [isEOLN, hwindow.head, bind, Except.bind, pure, Except.pure]
    cases hline : isLineEnd ch with
    | false =>
        refine ⟨_, _, ?_, .startBad blanks ch more hstate hrest hblank hch hline⟩
        simp only [passStartProcessing, hskip, heoln, hline, bind, Except.bind, Bool.not_true,
          Bool.not_false, Bool.false_eq_true, if_false, if_true]
        exact reply_eq _ _ _ (by decide)
    | true =>
        refine ⟨_, _, ?_, .startScan blanks ch more hstate hrest hblank hline _ _ rfl⟩
        simp only [passStartProcessing, hskip, heoln, hline, bind, Except.bind, Bool.not_true,
          Bool.false_eq_true, if_false]
        exact reply_eq _ _ _ (by decide)

/-- The end of the data lies inside the valid bytes of the input. -/
def DataOk (c : Conn) : Prop :=
  c.itr ≤ c.eoD ∧ c.eoD ≤ c.input.pos ∧ c.input.pos ≤ c.input.size

theorem DataOk.data_length {c : Conn} (h : c.DataOk) : c.itr + c.data.length = c.eoD := by
  obtain ⟨hitr, hpos, hsize⟩ := h
  rw [MemBlock.size] at hsize
  rw [data, Block.slice_length]
  omega

/-- The state after one character was printed. -/
def printed (c : Conn) (ch : Byte) : Conn := { (c.print ch).2 with itr := c.itr + 1 }

theorem printed_echoed (c : Conn) (ch : Byte) (chars : List Byte) :
    (c.printed ch).echoed chars = c.echoed (ch :: chars) := by
  simp [printed, print, echoed, OutputBlock.printAll, Nat.add_assoc, Nat.add_comm 1]

/-- The loop of `echoInput`, by induction on the data that is left. -/
theorem echo_loop {data : List Byte} {c : Conn} (h : c.DataOk) (hdata : c.data = data)
    (hout : c.output.pos ≤ c.output.size) {fuel : Nat} (hfuel : c.output.restsize < fuel) :
    forEver echoPass fuel c = some (.ok (if data.length ≤ c.output.restsize then
        (c.echoed data, if c.eoD = c.eoM then .eoM else .eoD)
      else (c.echoed (data.take c.output.restsize), .bufferFull))) := by
  induction data generalizing c fuel with
  | nil =>
      obtain ⟨fuel, rfl⟩ : ∃ k, fuel = k + 1 := ⟨fuel - 1, by omega⟩
      have hitr : c.itr = c.eoD := by simpa [hdata] using h.data_length
      have hpass : c.echoPass = .ok (c, some (if c.eoD = c.eoM then .eoM else .eoD)) := by
        rw [echoPass, if_pos hitr, hitr]
      simp only [forEver, hpass, List.length_nil, Nat.zero_le, if_true]
      rfl
  | cons ch rest ih =>
      obtain ⟨fuel, rfl⟩ : ∃ k, fuel = k + 1 := ⟨fuel - 1, by omega⟩
      have hlen := h.data_length
      rw [hdata, List.length_cons] at hlen
      have hne : ¬ c.itr = c.eoD := by omega
      by_cases hfull : c.output.restsize = 0
      · have hpass : c.echoPass = .ok (c, some .bufferFull) := by
          rw [echoPass, if_neg hne, if_pos hfull]
        simp only [forEver, hpass, hfull, List.length_cons, Nat.le_zero, Nat.add_one_ne_zero,
          if_false, List.take_zero]
        rfl
      · obtain ⟨hfirst, hback⟩ := Block.slice_eq_cons hdata
        have hget : c.input.get c.itr = .ok ch :=
          MemBlock.get_eq (by have := h.2.1; omega) hfirst
        have hpass : c.echoPass = .ok (c.printed ch, none) := by
          simp [echoPass, hne, hfull, hget, printed, print, bind, Except.bind, pure, Except.pure]
        have hroom : c.output.pos < c.output.size := by
          rw [OutputBlock.restsize] at hfull
          omega
        obtain ⟨-, hpos, hsize⟩ := OutputBlock.print_spec (convert c.mode ch) hroom
        have hrest : (c.printed ch).output.restsize = c.output.restsize - 1 := by
          simp only [printed, print, OutputBlock.restsize]
          omega
        have hdataOk : (c.printed ch).DataOk :=
          ⟨by simp only [printed, print]; omega, h.2.1, h.2.2⟩
        have hdataEq : (c.printed ch).data = rest := by
          rw [← hback, Nat.sub_sub]
          rfl
        have hfit : (c.printed ch).output.pos ≤ (c.printed ch).output.size := by
          simp only [printed, print]
          omega
        have hnext := ih hdataOk hdataEq hfit (show (c.printed ch).output.restsize < fuel by omega)
        simp only [forEver, hpass, hnext, hrest, printed_echoed]
        obtain ⟨room, hroomEq⟩ : ∃ room, c.output.restsize = room + 1 :=
          ⟨c.output.restsize - 1, by omega⟩
        simp only [hroomEq, Nat.add_sub_cancel, List.length_cons, Nat.add_le_add_iff_right,
          List.take_succ_cons]
        rfl

/-- `echoInput` prints up to the end of the data, or as much as the output has room for. -/
theorem echo_input_eq {c : Conn} (h : c.DataOk) (hout : c.output.pos ≤ c.output.size) :
    c.echoInput = .ok (if c.data.length ≤ c.output.restsize then
        (c.echoed c.data, if c.eoD = c.eoM then .eoM else .eoD)
      else (c.echoed (c.data.take c.output.restsize), .bufferFull)) := by
  rw [echoInput, echo_loop h rfl hout (Nat.lt_succ_self _)]
  rfl

/-- Printing what there is room for. -/
theorem echoed_spec {c : Conn} (chars : List Byte) (hout : c.output.pos ≤ c.output.size)
    (h : chars.length ≤ c.output.restsize) :
    (c.echoed chars).output.content = c.output.content ++ chars.map (convert c.mode) ∧
      (c.echoed chars).output.pos = c.output.pos + chars.length ∧
      (c.echoed chars).output.size = c.output.size := by
  have hspec := OutputBlock.print_all_spec (chars.map (convert c.mode))
    (show c.output.pos + (chars.map (convert c.mode)).length ≤ c.output.size
      by rw [OutputBlock.restsize] at h; rw [List.length_map]; omega)
  rwa [List.length_map] at hspec

theorem pass_processing {c : Conn} (h : c.Ready) (hstate : c.state = .processing) :
    ∃ next op, c.passProcessing = .ok (next, op) ∧ Outcome c next op := by
  obtain ⟨hitr, heod⟩ := h.data_le (.inl hstate)
  have hdata : c.DataOk := ⟨hitr, by have := h.eom_eq; omega, h.pos_le⟩
  have hecho := echo_input_eq hdata h.out_le
  by_cases hroom : c.data.length ≤ c.output.restsize
  · rw [if_pos hroom] at hecho
    by_cases hend : c.eoD = c.eoM
    · refine ⟨_, _, ?_, .echoRead hstate hroom hend⟩
      simp only [passProcessing, hecho, hend, if_true, bind, Except.bind, pure, Except.pure]
      rfl
    · refine ⟨_, _, ?_, .echoEnd hstate hroom (by omega) _ rfl⟩
      simp only [passProcessing, hecho, hend, if_true, if_false, bind, Except.bind, pure,
        Except.pure, reduceCtorEq]
      split <;> rfl
  · rw [if_neg hroom] at hecho
    obtain ⟨-, hpos, -⟩ := echoed_spec (c.data.take c.output.restsize) h.out_le
      (by rw [List.length_take]; omega)
    have hsent : ¬ (c.echoed (c.data.take c.output.restsize)).output.pos = 0 := by
      have := h.room_pos
      have := h.out_le
      rw [hpos, List.length_take, OutputBlock.restsize]
      omega
    refine ⟨_, _, ?_, .echoFull hstate (by omega)⟩
    simp only [passProcessing, hecho, hsent, if_false, bind, Except.bind, pure, Except.pure,
      reduceCtorEq]

theorem pass_handle_error {c : Conn} (h : c.Ready) (hstate : c.state = .handleError) :
    ∃ next op, c.passHandleError = .ok (next, op) ∧ Outcome c next op := by
  rcases h.skip_line with ⟨hline, hskip⟩ |
    ⟨line, ch, more, hrest, hline, hch, hskip, hwindow, hend⟩
  · refine ⟨_, _, ?_, .skipRead c.rest [] hstate (by simp) hline _ (.inl ⟨rfl, rfl⟩)⟩
    simp [passHandleError, hskip, readMore, drained, readOp, bind, Except.bind, pure, Except.pure]
  · rcases eoln_cases ch more with ⟨eoln, back, hsplit, heoln⟩ | ⟨rfl, rfl⟩ |
      ⟨cr, next, back, hsplit, hbad⟩
    · rw [hsplit] at hwindow hend
      have hconsume := consume_eoln_found heoln hwindow
      rw [← hend] at hconsume
      refine ⟨_, _, ?_, .skipEnd line eoln back hstate (by simp [hrest, hsplit]) hline heoln⟩
      simp [passHandleError, hskip, hconsume, bind, Except.bind, pure, Except.pure, Nat.add_assoc]
    · have hconsume := consume_eoln_cut hwindow
      rw [← List.length_singleton (a := CR), ← hend] at hconsume
      have hcount : c.itr + (line.length + 1) = c.eoM := by
        rw [hend, List.length_singleton, Nat.add_assoc]
      refine ⟨_, _, ?_, .skipRead line [CR] hstate hrest hline _ (.inr ⟨[], rfl, by simp, rfl⟩)⟩
      simp [passHandleError, hskip, hconsume, hcount, readMore, drained, readOp, bind, Except.bind,
        pure, Except.pure]
    · rw [hsplit] at hwindow hend
      have hconsume := consume_eoln_missing (hbad.imp_left fun hnext ↦ ⟨hnext.1, hnext.2.2⟩) hwindow
      rw [← hend] at hconsume
      rcases hbad with ⟨-, rfl, hnot⟩ | ⟨rfl, hlf⟩
      · rw [hch] at hnot
        cases hnot
      · refine ⟨_, _, ?_,
          .skipRead line (CR :: next :: back) hstate (by simp [hrest, hsplit]) hline _
          (.inr ⟨next :: back, rfl, by simpa using hlf, rfl⟩)⟩
        simp [passHandleError, hskip, hconsume, readMore, drained, readOp, bind, Except.bind, pure,
          Except.pure, Nat.add_assoc]

/-- **Every pass from a state with its iterators in order ends in one of the listed ways.** It reads
only valid bytes. -/
theorem pass_outcome {c : Conn} (h : c.Ready ∨ c.state = .terminate) :
    ∃ next op, c.pass = .ok (next, op) ∧ Outcome c next op := by
  rcases h with h | hstate
  · cases hstate : c.state with
    | init =>
        refine ⟨_, _, ?_, .greet hstate⟩
        rw [pass, hstate]
        exact reply_eq _ _ _ (by decide)
    | enterCommand => simpa only [pass, hstate] using pass_enter_command h hstate
    | emptyLine => simpa only [pass, hstate] using pass_empty_line h hstate
    | enterMode => simpa only [pass, hstate] using pass_enter_mode h hstate
    | startProcessing => simpa only [pass, hstate] using pass_start_processing h hstate
    | processingAfterWrite => exact ⟨_, _, by rw [pass, hstate], .release hstate⟩
    | processing => simpa only [pass, hstate] using pass_processing h hstate
    | handleError => simpa only [pass, hstate] using pass_handle_error h hstate
    | terminate => exact ⟨_, _, by rw [pass, hstate], .close hstate⟩
  · exact ⟨_, _, by rw [pass, hstate], .close hstate⟩

end Conn

end Smerp.Pecho
