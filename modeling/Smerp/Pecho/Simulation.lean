import Smerp.Pecho.ByteMachine
import Smerp.Pecho.Safety

/-!
# The handler follows the byte machine

`Sees` relates a handler to a control state of the byte machine and to the bytes of the block that
the machine has still to read. For data that was scanned already these are the bytes the block held
before the scan. `Outcome.effect` says what a pass does to the machine's forecast: apart from the
listed exceptions the messages sent, followed by the new forecast, are the old one, whatever bytes
come behind the block.
-/

namespace Smerp.Pecho

open Lib Protocol Network Conn ByteMachine

namespace Conn

/-- The bytes that are printed but not sent. -/
def unsent (c : Conn) : List Byte :=
  if c.state = .processingAfterWrite then [] else c.output.content

/-- A handler in its initial state owes the greeting. -/
def owed (c : Conn) : List Sent := if c.state = .init then [greet] else []

/-- The byte in front of the iterator. -/
def lastPassed (c : Conn) : Option Byte := if c.itr = 0 then none else c.input.bytes[c.itr - 1]?

/-- The handler is among the data of an `echo`. -/
def InData (c : Conn) : Prop := c.state = .processing ∨ c.state = .processingAfterWrite

/-- The handler stands behind the first half of a line end or of an argument. -/
def Cut (c : Conn) : Prop :=
  c.state = .emptyLine ∧ c.lastPassed = some CR ∨
    c.state = .enterMode ∧ ∃ ch, c.lastPassed = some ch ∧ isTokenChar ch = true

/-- A handler that looks for a line end or an argument has something to look at. -/
def Fed (c : Conn) : Prop := c.state = .emptyLine ∨ c.state = .enterMode → c.itr < c.eoM

/-- The control state that a handler is in. Among the data it is the one behind the block. -/
def ctrl (c : Conn) : Ctrl :=
  match c.state with
  | .init => .command .new
  | .enterCommand => .command c.cmdBuffer
  | .emptyLine => .emptyLine
  | .enterMode => .mode c.cmdBuffer
  | .startProcessing => .start c.mode
  | .processingAfterWrite => .processing c.mode c.input.eodState.phase
  | .processing => .processing c.mode c.input.eodState.phase
  | .handleError => .skip
  | .terminate => .terminate

/-- The bytes of the message from the end of the data on. -/
def tail (c : Conn) : List Byte := Block.slice c.input.bytes c.eoD (c.eoM - c.eoD)

/-- What a handler is going to send, if these bytes are still to be read. -/
def forecast (c : Conn) (ctrl : Ctrl) (stream : List Byte) : Forecast :=
  (ByteMachine.forecast c.output.size ctrl c.unsent stream).after c.owed

/-- The state after the data was scanned behind some blanks. -/
def scanned (c : Conn) (blanks : List Byte) : Conn :=
  { c with
    itr := c.itr + blanks.length
    input := (c.input.resetEoD.getEoD (c.itr + blanks.length)).2
    eoD := (c.input.resetEoD.getEoD (c.itr + blanks.length)).1
    eoM := (c.input.resetEoD.getEoD (c.itr + blanks.length)).2.pos }

end Conn

section

variable (Stands : List Byte → List Byte → Prop)

/-- The data between the iterator and the end of the data is what a scan of `raw` has left. Where
the mark was found, the bytes left from the end of the data on stand for those from the byte on that
completed the mark. -/
inductive DataView (c : Conn) (phase : EoD.Phase) (raw : List Byte) : Prop
  | unmarked (hscan : EoD.scan phase raw = .unmarked c.data c.input.eodState.phase)
      (hend : c.eoD = c.eoM)
  | marked (terminator : Byte) (rest : List Byte)
      (hscan : EoD.scan phase raw = .marked c.data terminator rest) (hend : c.eoD < c.eoM)
      (hstands : Stands (terminator :: rest) c.tail)

/-- The control state that a handler is in, and the bytes of its block that are still to be read. -/
inductive Sees (c : Conn) : Ctrl → List Byte → Prop
  | line (raw : List Byte) (hstate : ¬ c.InData) (hrest : c.rest = raw) : Sees c c.ctrl raw
  | data (phase : EoD.Phase) (raw : List Byte) (hstate : c.InData)
      (hview : DataView Stands c phase raw) :
      Sees c (.processing c.mode phase) raw

/-- The control state that a handler waits for input in. -/
inductive Pauses (c : Conn) : Ctrl → Prop
  | whole (hinit : c.state ≠ .init) (hcut : ¬ c.Cut)
      (hreset : c.state = .startProcessing → c.input.eodState = .src) : Pauses c c.ctrl
  | emptyLineCr (hstate : c.state = .emptyLine) (hlast : c.lastPassed = some CR) :
      Pauses c .emptyLineCr
  | modeToken (hstate : c.state = .enterMode) (ch : Byte) (hlast : c.lastPassed = some ch)
      (hch : isTokenChar ch = true) : Pauses c (.modeToken c.cmdBuffer)

/-- What a pass has sent. -/
def sentByPass (next : Conn) : Option Operation → List Sent
  | none => []
  | some op => sentBy next op

/-- What a pass does to the forecast. -/
inductive Effect (c next : Conn) (op : Option Operation) (ctrl : Ctrl) (raw : List Byte) : Prop
  | move (ctrl' : Ctrl) (raw' : List Byte) (hread : op ≠ some c.readOp)
      (hsees : Sees Stands next ctrl' raw')
      (hforecast : ∀ back, c.forecast ctrl (raw ++ back) =
        (next.forecast ctrl' (raw' ++ back)).after (sentByPass next op))
  | read (ctrl' : Ctrl) (hop : op = some c.readOp) (hpause : Pauses next ctrl')
      (hforecast : ∀ back, c.forecast ctrl (raw ++ back) = next.forecast ctrl' back)
  | drop (line more : List Byte) (hstate : c.state = .handleError)
      (hrest : c.rest = line ++ CR :: more) (hline : ∀ ch ∈ line, isLineEnd ch = false)
      (hhead : more.head? ≠ some LF) (hop : op = some c.readOp) (hpause : Pauses next .skip)
      (hforecast : LF ∉ more → ∀ back, c.forecast ctrl (raw ++ back) = next.forecast .skip back)
  | scan (blanks : List Byte) (ch : Byte) (more : List Byte) (hstate : c.state = .startProcessing)
      (hrest : c.rest = blanks ++ ch :: more) (hblank : ∀ ch ∈ blanks, isBlank ch = true)
      (hline : isLineEnd ch = true)
      (hnext : next = replied (c.scanned blanks) .processing (text "OK enter data"))
      (hop : op = some (.write (text "OK enter data" ++ CRLF) 0))
      (hforecast : ∀ back, c.forecast ctrl (raw ++ back) =
        (next.forecast (.processing c.mode .src) (ch :: more ++ back)).after (sentByPass next op))
  | mark (terminator : Byte) (rest : List Byte) (hread : op ≠ some c.readOp)
      (hstate : c.state = .processing) (hnext : next.state = .init)
      (hstands : Stands (terminator :: rest) next.rest)
      (hforecast : ∀ back, c.forecast ctrl (raw ++ back) =
        (next.forecast (.command .new) (terminator :: rest ++ back)).after (sentByPass next op))
  | poison (hnext : next.state = .init)
      (hop : op = some (.write (text "BAD command line" ++ CRLF) 0))
      (hhere : ∀ back, c.forecast ctrl (raw ++ back) = (⟨.poisoned, c.unsent⟩, []))
      (hthere : ∀ back, next.forecast (.command .new) (next.rest ++ back) =
        (⟨.poisoned, c.unsent⟩, [greet]))

end

/-! ## Passing bytes -/

namespace Conn

/-- The rest behind a front that was passed. -/
theorem slice_passed {bytes front back : List Byte} {start stop : Nat}
    (h : Block.slice bytes start (stop - start) = front ++ back) :
    Block.slice bytes (start + front.length) (stop - (start + front.length)) = back := by
  have hdrop := congrArg (List.drop front.length) h
  rw [List.drop_left, Block.slice, List.drop_take, List.drop_drop] at hdrop
  rw [Block.slice, ← Nat.sub_sub]
  exact hdrop

/-- The last byte of a front that was passed. -/
theorem last_passed_eq {bytes front back : List Byte} {start len : Nat} {ch : Byte}
    (h : Block.slice bytes start len = front ++ ch :: back) :
    bytes[start + front.length]? = some ch := by
  have hget : (Block.slice bytes start len)[front.length]? = some ch := by simp [h]
  have hlt : front.length < len := by
    have hlen := congrArg List.length h
    rw [Block.slice_length] at hlen
    simp only [List.length_append, List.length_cons] at hlen
    omega
  rw [Block.slice, List.getElem?_take_of_lt hlt, List.getElem?_drop] at hget
  exact hget

/-- Outside of the initial state and of the state behind a write a handler owes nothing, and all
that is printed is unsent. -/
theorem forecast_eq {c : Conn} (hinit : c.state ≠ .init)
    (hwritten : c.state ≠ .processingAfterWrite) (ctrl : Ctrl) (stream : List Byte) :
    c.forecast ctrl stream = ByteMachine.forecast c.output.size ctrl c.output.content stream := by
  rw [forecast, unsent, owed, if_neg hinit, if_neg hwritten, Forecast.after_nil]

/-- In the initial state a handler owes the greeting. -/
theorem forecast_init {c : Conn} (hinit : c.state = .init) (ctrl : Ctrl) (stream : List Byte) :
    c.forecast ctrl stream =
      (ByteMachine.forecast c.output.size ctrl c.output.content stream).after [greet] := by
  simp only [forecast, unsent, owed, hinit, if_true, reduceCtorEq, if_false]

/-- The byte in front of the iterator, behind a front that ends with it. -/
theorem last_passed_of_front {c next : Conn} {front back : List Byte} {ch : Byte}
    (h : c.rest = front ++ ch :: back) (hinput : next.input.bytes = c.input.bytes)
    (hitr : next.itr = c.itr + (front.length + 1)) : next.lastPassed = some ch := by
  have hpassed := last_passed_eq h
  rw [lastPassed, if_neg (by omega), hinput, hitr, ← Nat.add_assoc, Nat.add_sub_cancel]
  exact hpassed

end Conn

section

variable {Stands : List Byte → List Byte → Prop} {c next : Conn} {op : Option Operation}
  {ctrl : Ctrl} {raw : List Byte}

/-- Outside of the data a handler sees the rest of its message. -/
theorem Sees.line_eq (h : Sees Stands c ctrl raw) (hstate : ¬ c.InData) :
    ctrl = c.ctrl ∧ raw = c.rest := by
  cases h with
  | line _ _ hrest => exact ⟨rfl, hrest.symm⟩
  | data _ _ hdata _ => exact absurd hdata hstate

/-- Among the data a handler sees what the scan has left. -/
theorem Sees.data_eq (h : Sees Stands c ctrl raw) (hstate : c.InData) :
    ∃ phase, ctrl = .processing c.mode phase ∧ DataView Stands c phase raw := by
  cases h with
  | line _ hline _ => exact absurd hstate hline
  | data phase _ _ hview => exact ⟨phase, rfl, hview⟩

/-- Behind a message that ends with blanks the last byte passed is a blank. -/
theorem Conn.Ready.last_blank (h : c.Ready) (hlt : c.itr < c.eoM)
    (hblank : ∀ ch ∈ c.rest, isBlank ch = true) :
    ∃ last, (c.drained c.rest.length).lastPassed = some last ∧ isBlank last = true := by
  have hlen := h.rest_length
  have hne : c.rest ≠ [] := by
    intro hnil
    simp [hnil] at hlen
    omega
  obtain ⟨front, last, hlast⟩ := List.eq_nil_or_concat c.rest |>.resolve_left hne
  rw [List.concat_eq_append] at hlast
  refine ⟨last, ?_, hblank last (by simp [hlast])⟩
  refine last_passed_of_front hlast rfl ?_
  simp [drained, hlast]

/-- A reaction in front of a byte leaves it to be looked at. -/
theorem Reaction.fed (hreaction : Reaction c next op) (hmore : c.itr < c.eoM) : next.Fed := by
  cases hreaction with
  | goesOn mode state hstate => exact fun _ ↦ hmore
  | replies state str hstate hbad hlen => exact fun _ ↦ hmore

/-- Every pass that asks for no input leaves something to look at. -/
theorem Outcome.fed (h : c.Ready) (hout : Outcome c next op) (hread : op ≠ some c.readOp) :
    next.Fed := by
  have hlt {front back : List Byte} {ch : Byte} (hrest : c.rest = front ++ ch :: back) :
      c.itr + front.length < c.eoM := by
    have hlen := h.rest_length
    rw [hrest] at hlen
    simp only [List.length_append, List.length_cons] at hlen
    omega
  cases hout with
  | commandEnd token ch more hstate hrest htoken hch _ _ hreaction =>
      exact (command_reaction_cases hreaction).fed (hlt hrest)
  | modeEnd blanks token ch more hstate hrest hblank htoken hch hstart _ _ hreaction =>
      exact (mode_reaction_cases hreaction).fed (hlt hrest)
  | commandRead => exact absurd rfl hread
  | emptyRead => exact absurd rfl hread
  | modeRead => exact absurd rfl hread
  | startRead => exact absurd rfl hread
  | echoRead => exact absurd rfl hread
  | skipRead => exact absurd rfl hread
  | close hstate => simp [Fed, hstate]
  | _ => simp [Fed, replied]

/-- What follows a command, outside of the data. -/
theorem command_reaction_effect {token more : List Byte} {ch : Byte}
    (hstate : c.state = .enterCommand) (hrest : c.rest = token ++ ch :: more)
    (htoken : ∀ ch ∈ token, isTokenChar ch = true) (hch : isTokenChar ch = false)
    (hreaction :
      (next, op) = commandReaction { c with itr := c.itr + token.length, cmdBuffer := .new }
      (Command.ofIndex (commandParser.lookup (c.cmdBuffer.pushAll token).value))) :
    Effect Stands c next op (.command c.cmdBuffer) c.rest := by
  have hpassed := slice_passed hrest
  have hhere (back : List Byte) : c.forecast (.command c.cmdBuffer) (c.rest ++ back) =
      ByteMachine.forecast c.output.size (.command (c.cmdBuffer.pushAll token)) c.output.content
        (ch :: more ++ back) := by
    rw [forecast_eq (by simp [hstate]) (by simp [hstate]), hrest, List.append_assoc,
      forecast_token htoken]
  cases hcmd : Command.ofIndex (commandParser.lookup (c.cmdBuffer.pushAll token).value) with
  | none =>
      rw [hcmd] at hreaction
      cases hreaction
      refine .move .skip (ch :: more) (by simp [readOp]) ?_ ?_
      · exact .line _ (by simp [InData, replied]) hpassed
      · intro back
        rw [hhere, List.cons_append, forecast_command_end _ hch, hcmd]
        rfl
  | some cmd =>
      rw [hcmd] at hreaction
      cases cmd with
      | empty =>
          cases hreaction
          refine .move .emptyLine (ch :: more) (by simp) ?_ ?_
          · exact .line _ (by simp [InData]) hpassed
          · intro back
            rw [hhere, List.cons_append, forecast_command_end _ hch, hcmd]
            rfl
      | caps =>
          cases hreaction
          refine .move (.command .new) (ch :: more) (by simp [readOp]) ?_ ?_
          · exact .line _ (by simp [InData, replied]) hpassed
          · intro back
            rw [hhere, List.cons_append, forecast_command_end _ hch, hcmd]
            rfl
      | echo =>
          cases hreaction
          refine .move (.mode .new) (ch :: more) (by simp) ?_ ?_
          · exact .line _ (by simp [InData]) hpassed
          · intro back
            rw [hhere, List.cons_append, forecast_command_end _ hch, hcmd]
            rfl
      | quit =>
          cases hreaction
          refine .move .terminate (ch :: more) (by simp [readOp]) ?_ ?_
          · exact .line _ (by simp [InData, replied]) hpassed
          · intro back
            rw [hhere, List.cons_append, forecast_command_end _ hch, hcmd, Conn.forecast,
              forecast_terminate]
            rfl

/-- What follows the argument of `echo`. -/
theorem mode_reaction_effect {blanks token more : List Byte} {ch : Byte}
    (hstate : c.state = .enterMode) (hrest : c.rest = blanks ++ token ++ ch :: more)
    (hblank : ∀ ch ∈ blanks, isBlank ch = true) (htoken : ∀ ch ∈ token, isTokenChar ch = true)
    (hch : isTokenChar ch = false) (hstart : token = [] → isBlank ch = false)
    (hreaction : (next, op) = modeReaction
      { c with itr := c.itr + (blanks ++ token).length, cmdBuffer := .new }
      (Mode.ofIndex (modeParser.lookup (c.cmdBuffer.pushAll token).value))) :
    Effect Stands c next op (.mode c.cmdBuffer) c.rest := by
  have hpassed := slice_passed hrest
  -- the byte behind the argument ends it, whether or not the argument is empty
  have hend (back : List Byte) : c.forecast (.mode c.cmdBuffer) (c.rest ++ back) =
      (Mode.ofIndex (modeParser.lookup (c.cmdBuffer.pushAll token).value)).elim
        ((ByteMachine.forecast c.output.size .skip c.output.content (ch :: (more ++ back))).after
          [line .handleError "BAD unknown command argument"])
        fun mode ↦ ByteMachine.forecast c.output.size (.start mode) c.output.content
          (ch :: (more ++ back)) := by
    rw [forecast_eq (by simp [hstate]) (by simp [hstate]), hrest, List.append_assoc,
      List.append_assoc,
      forecast_mode_blanks _ hblank, List.cons_append]
    cases token with
    | nil => exact forecast_argument _ (by simp [delta, onMode, hch, hstart rfl])
    | cons first rest =>
        rw [List.cons_append, forecast_mode_first _ (htoken first (by simp)),
          forecast_mode_token fun x hx ↦ htoken x (by simp [hx])]
        exact forecast_argument _ (by simp [delta, hch])
  cases hmode : Mode.ofIndex (modeParser.lookup (c.cmdBuffer.pushAll token).value) with
  | none =>
      rw [hmode] at hreaction
      cases hreaction
      refine .move .skip (ch :: more) (by simp [readOp]) ?_ ?_
      · exact .line _ (by simp [InData, replied]) hpassed
      · intro back
        rw [hend, hmode]
        rfl
  | some mode =>
      rw [hmode] at hreaction
      cases hreaction
      refine .move (.start mode) (ch :: more) (by simp) ?_ ?_
      · exact .line _ (by simp [InData]) hpassed
      · intro back
        rw [hend, hmode]
        rfl

/-- Printing a front of the data leaves a view of the data behind it. -/
theorem DataView.advance {phase : EoD.Phase} {front back : List Byte}
    (hview : DataView Stands c phase raw) (hdata : c.data = front ++ back)
    (hnext : next.data = back) (hinput : next.input = c.input) (heoD : next.eoD = c.eoD)
    (heoM : next.eoM = c.eoM) :
    ∃ phase' raw', DataView Stands next phase' raw' ∧
      (∀ room mode out stream,
        ByteMachine.forecast room (.processing mode phase) out (raw ++ stream) =
        (ByteMachine.forecast room (.processing mode phase') (pushAll room mode out front).1
          (raw' ++ stream)).after (pushAll room mode out front).2) ∧
      ∀ ch more, back = ch :: more → ∃ result, EoD.scan phase' raw' =
        EoD.Scan.prepend [ch] result := by
  cases hview with
  | unmarked hscan hend =>
      have hsplit : EoD.scan phase raw =
          (EoD.Scan.unmarked back c.input.eodState.phase).prepend front := by
        rw [hscan, hdata]
        rfl
      obtain ⟨phase', raw', hresult, hforecast⟩ := forecast_data hsplit
      refine ⟨phase', raw', .unmarked ?_ ?_, hforecast, ?_⟩
      · rw [hresult, hnext, hinput]
      · rw [heoD, heoM, hend]
      · intro ch more hback
        exact ⟨.unmarked more c.input.eodState.phase, by rw [hresult, hback]; rfl⟩
  | marked terminator rest hscan hend hstands =>
      have hsplit : EoD.scan phase raw = (EoD.Scan.marked back terminator rest).prepend front := by
        rw [hscan, hdata]
        rfl
      obtain ⟨phase', raw', hresult, hforecast⟩ := forecast_data hsplit
      refine ⟨phase', raw', .marked terminator rest ?_ ?_ ?_, hforecast, ?_⟩
      · rw [hresult, hnext]
      · rw [heoD, heoM]
        exact hend
      · rw [tail, hinput, heoD, heoM]
        exact hstands
      · intro ch more hback
        exact ⟨.marked more terminator rest, by rw [hresult, hback]; rfl⟩

/-- Emptying the output block behind a write changes neither the view nor the forecast. -/
theorem DataView.release {phase : EoD.Phase} (hview : DataView Stands c phase raw)
    (hstate : c.state = .processingAfterWrite)
    (hnext : next = { c with state := .processing, output := c.output.release }) :
    DataView Stands next phase raw ∧ ∀ ctrl stream, c.forecast ctrl stream =
      next.forecast ctrl stream := by
  subst hnext
  constructor
  · cases hview with
    | unmarked hscan hend => exact .unmarked hscan hend
    | marked terminator rest hscan hend hstands => exact .marked terminator rest hscan hend hstands
  · intro ctrl stream
    simp [Conn.forecast, unsent, owed, hstate, OutputBlock.release, OutputBlock.content,
      MemBlock.size]

/-- A full output is sent, and the view goes on behind what was printed. -/
theorem DataView.echo_full {phase : EoD.Phase} (hview : DataView Stands c phase raw) (h : c.Ready)
    (hstate : c.state = .processing) (hroom : c.output.restsize < c.data.length)
    (hnext : next =
      { c.echoed (c.data.take c.output.restsize) with state := .processingAfterWrite }) :
    ∃ phase' raw', DataView Stands next phase' raw' ∧
      ∀ back, c.forecast (.processing c.mode phase) (raw ++ back) =
        (next.forecast (.processing c.mode phase') (raw' ++ back)).after
          [⟨.processingAfterWrite, next.output.content⟩] := by
  subst hnext
  obtain ⟨ch, more, hback⟩ := List.exists_cons_of_length_pos
    (show 0 < (c.data.drop c.output.restsize).length by rw [List.length_drop]; omega)
  have hdata : c.data = c.data.take c.output.restsize ++ c.data.drop c.output.restsize :=
    (List.take_append_drop _ _).symm
  have hlen : (c.data.take c.output.restsize).length = c.output.restsize := by
    rw [List.length_take]
    omega
  obtain ⟨hcontent, hpos, hsize⟩ := echoed_spec (c.data.take c.output.restsize) h.out_le (by omega)
  have hout := OutputBlock.content_length h.out_le
  have hle := h.out_le
  have hcap := h.room_pos
  have hfit : c.output.content.length + (c.data.take c.output.restsize).length = c.output.size := by
    rw [hout, hlen, OutputBlock.restsize]
    omega
  have hdata' : Conn.data { c.echoed (c.data.take c.output.restsize) with
      state := .processingAfterWrite } = c.data.drop c.output.restsize := slice_passed hdata
  obtain ⟨phase', raw', hview', hforecast, hkept⟩ := hview.advance hdata hdata' rfl rfl rfl
  obtain ⟨result, hscan⟩ := hkept ch more hback
  refine ⟨phase', raw', hview', ?_⟩
  intro back
  rw [forecast_eq (by simp [hstate]) (by simp [hstate]), hforecast, push_all_room hfit.le,
    forecast_full hscan hcap (by rw [List.length_append, List.length_map, hfit]),
      Conn.forecast, hsize,
    hcontent]
  rfl

/-- Data without the mark, for which there is room, is printed. -/
theorem DataView.echo_read {phase : EoD.Phase} (hview : DataView Stands c phase raw) (h : c.Ready)
    (hstate : c.state = .processing) (hroom : c.data.length ≤ c.output.restsize)
    (hend : c.eoD = c.eoM) (hnext : next = { c.echoed c.data with input := c.input.setPos 0 })
    (back : List Byte) : c.forecast (.processing c.mode phase) (raw ++ back) =
      next.forecast (.processing c.mode c.input.eodState.phase) back := by
  subst hnext
  obtain ⟨hcontent, hpos, hsize⟩ := echoed_spec c.data h.out_le hroom
  have hle := h.out_le
  have hfit : c.output.content.length + c.data.length ≤ c.output.size := by
    rw [OutputBlock.restsize] at hroom
    rw [OutputBlock.content_length h.out_le]
    omega
  cases hview with
  | marked _ _ _ hlt _ => omega
  | unmarked hscan _ =>
      rw [forecast_eq (by simp [hstate]) (by simp [hstate]),
        forecast_eq (by simp [Conn.echoed, hstate]) (by simp [Conn.echoed, hstate]),
        forecast_unmarked hscan hfit, hcontent, hsize]

/-- Data up to the mark, for which there is room, is sent, and the bytes from the mark on are
left. -/
theorem DataView.echo_end {phase : EoD.Phase} (hview : DataView Stands c phase raw) (h : c.Ready)
    (hstate : c.state = .processing) (hroom : c.data.length ≤ c.output.restsize)
    (hend : c.eoD < c.eoM)
    (hop : op = if (c.echoed c.data).output.pos = 0 then none
      else some (.write (c.echoed c.data).output.content 0))
    (hnext : next = { c.echoed c.data with input := c.input.resetEoD, state := .init }) :
    ∃ terminator rest, Stands (terminator :: rest) next.rest ∧
      ∀ back, c.forecast (.processing c.mode phase) (raw ++ back) =
        (next.forecast (.command .new) (terminator :: rest ++ back)).after
          (sentByPass next op) := by
  subst hnext
  obtain ⟨hcontent, hpos, hsize⟩ := echoed_spec c.data h.out_le hroom
  have hfit : c.output.content.length + c.data.length ≤ c.output.size := by
    have hle := h.out_le
    rw [OutputBlock.restsize] at hroom
    rw [OutputBlock.content_length h.out_le]
    omega
  have hout := OutputBlock.content_length (h.echoed_sized c.data hroom).2
  have hlen := (h.data_ok (.inl hstate)).data_length
  cases hview with
  | unmarked _ heq => omega
  | marked terminator rest hscan _ hstands =>
      refine ⟨terminator, rest, ?_, ?_⟩
      · -- behind the data that was printed stands the end of the data
        have hrest : Conn.rest { c.echoed c.data with input := c.input.resetEoD, state := .init } =
            c.tail := by
          show Block.slice c.input.bytes (c.itr + c.data.length)
            (c.eoM - (c.itr + c.data.length)) = _
          rw [hlen]
          rfl
        rw [hrest]
        exact hstands
      · intro back
        have hsent :
          sentByPass { c.echoed c.data with input := c.input.resetEoD, state := .init } op =
            lastData (c.output.content ++ c.data.map (convert c.mode)) := by
          simp only [hop, ← hcontent, lastData, ← List.length_eq_zero_iff, hout]
          split <;> rfl
        rw [forecast_eq (by simp [hstate]) (by simp [hstate]), forecast_init rfl, hsent,
          forecast_marked hscan hfit, Forecast.after_after]
        show _ = (ByteMachine.forecast (c.echoed c.data).output.size _
          (c.echoed c.data).output.content _).after _
        rw [hcontent, hsize]

/-- A command line that starts with neither a command nor a line end. -/
theorem empty_bad_effect {blanks cr more : List Byte} {ch : Byte} (hstate : c.state = .emptyLine)
    (hrest : c.rest = blanks ++ cr ++ ch :: more) (hblank : ∀ ch ∈ blanks, isBlank ch = true)
    (hbad : cr = [] ∧ isBlank ch = false ∧ isLineEnd ch = false ∨ cr = [CR] ∧ ch ≠ LF) :
    Effect Stands c
      (replied { c with itr := c.itr + (blanks ++ cr).length, buffer := c.buffer.init }
      .init (text "BAD command line")) (some (.write (text "BAD command line" ++ CRLF) 0))
      .emptyLine c.rest := by
  have hpassed := slice_passed hrest
  have hhere (back : List Byte) : c.forecast .emptyLine (c.rest ++ back) =
      ByteMachine.forecast c.output.size .emptyLine c.output.content
        (cr ++ ch :: (more ++ back)) := by
    rw [forecast_eq (by simp [hstate]) (by simp [hstate]), hrest, List.append_assoc,
      List.append_assoc, forecast_empty_blanks _ hblank, List.cons_append]
  cases hpoison : isPoison ch with
  | true =>
      refine .poison rfl rfl ?_ ?_
      · intro back
        rw [hhere, forecast_poison _ (hbad.imp And.left And.left) hpoison, unsent,
          if_neg (by simp [hstate])]
      · intro back
        have hthere : Conn.rest (replied { c with
            itr := c.itr + (blanks ++ cr).length, buffer := c.buffer.init } .init
            (text "BAD command line")) = ch :: more := hpassed
        rw [forecast_init rfl, hthere, List.cons_append, forecast_fresh_poison _ hpoison, unsent,
          if_neg (by simp [hstate])]
        rfl
  | false =>
      have hbad' : cr = [] ∧ isTokenChar ch = true ∨ cr = [CR] ∧ ch ≠ LF ∧ isPoison ch = false := by
        rcases hbad with ⟨hcr, hblank', hline⟩ | ⟨hcr, hlf⟩
        · exact .inl ⟨hcr, by simpa [isPoison, hblank', hline] using hpoison⟩
        · exact .inr ⟨hcr, hlf, hpoison⟩
      refine .move (.command .new) (ch :: more) (by simp [readOp]) ?_ ?_
      · exact .line _ (by simp [InData, replied]) hpassed
      · intro back
        rw [hhere, forecast_empty_bad _ hbad', forecast_init rfl]
        rfl

/-- A command line of which only blanks were received, or a carriage return behind them. -/
theorem empty_read_effect {blanks tail : List Byte} (h : c.Ready) (hfed : c.Fed)
    (hstate : c.state = .emptyLine) (hrest : c.rest = blanks ++ tail)
    (hblank : ∀ ch ∈ blanks, isBlank ch = true) (htail : tail = [] ∨ tail = [CR]) :
    Effect Stands c (c.drained c.rest.length) (some c.readOp) .emptyLine c.rest := by
  have hnext : Conn.ctrl (c.drained c.rest.length) = .emptyLine := by
    simp [Conn.ctrl, drained, hstate]
  have hforecast (back : List Byte) : c.forecast .emptyLine (c.rest ++ back) =
      ByteMachine.forecast c.output.size .emptyLine c.output.content (tail ++ back) := by
    rw [forecast_eq (by simp [hstate]) (by simp [hstate]), hrest, List.append_assoc,
      forecast_empty_blanks _ hblank]
  have hthere (ctrl' : Ctrl) (back : List Byte) : (c.drained c.rest.length).forecast ctrl' back =
      ByteMachine.forecast c.output.size ctrl' c.output.content back :=
    forecast_eq (by simp [drained, hstate]) (by simp [drained, hstate]) _ _
  rcases htail with rfl | rfl
  · refine .read .emptyLine rfl ?_ ?_
    · rw [← hnext]
      obtain ⟨last, hlast, hblank'⟩ :=
        h.last_blank (hfed (.inl hstate)) (by simpa [hrest] using hblank)
      refine .whole (by simp [drained, hstate]) ?_ (by simp [drained, hstate])
      rw [Cut, hlast]
      rintro (⟨-, heq⟩ | ⟨hmode, -⟩)
      · cases heq
        exact absurd hblank' (by decide)
      · simp [drained, hstate] at hmode
    · intro back
      rw [hforecast, hthere]
      rfl
  · refine .read .emptyLineCr rfl (.emptyLineCr (by simp [drained, hstate]) ?_) ?_
    · refine last_passed_of_front hrest rfl ?_
      simp [drained, hrest]
    · intro back
      rw [hforecast, hthere]
      exact forecast_empty_cr back

/-- An argument of which only a part was received. -/
theorem mode_read_effect {blanks token : List Byte} (h : c.Ready) (hfed : c.Fed)
    (hstate : c.state = .enterMode) (hrest : c.rest = blanks ++ token)
    (hblank : ∀ ch ∈ blanks, isBlank ch = true) (htoken : ∀ ch ∈ token, isTokenChar ch = true) :
    Effect Stands c (drained { c with cmdBuffer := c.cmdBuffer.pushAll token } c.rest.length)
      (some c.readOp) (.mode c.cmdBuffer) c.rest := by
  have hforecast (back : List Byte) : c.forecast (.mode c.cmdBuffer) (c.rest ++ back) =
      ByteMachine.forecast c.output.size (.mode c.cmdBuffer) c.output.content (token ++ back) := by
    rw [forecast_eq (by simp [hstate]) (by simp [hstate]), hrest, List.append_assoc,
      forecast_mode_blanks _ hblank]
  cases token with
  | nil =>
      have hnext : Conn.ctrl (drained { c with cmdBuffer := c.cmdBuffer.pushAll [] }
          c.rest.length) = .mode c.cmdBuffer := by
        simp [Conn.ctrl, drained, hstate]
      refine .read (.mode c.cmdBuffer) rfl ?_ ?_
      · rw [← hnext]
        obtain ⟨last, hlast, hblank'⟩ := h.last_blank (hfed (.inr hstate))
          (by simpa [hrest] using hblank)
        have hlast' : Conn.lastPassed (drained { c with cmdBuffer := c.cmdBuffer.pushAll [] }
          c.rest.length) = some last := hlast
        refine .whole (by simp [drained, hstate]) ?_ (by simp [drained, hstate])
        rw [Cut, hlast']
        rintro (⟨hempty, -⟩ | ⟨-, ch, heq, htoken'⟩)
        · simp [drained, hstate] at hempty
        · cases heq
          simp [is_token_char_blank hblank'] at htoken'
      · intro back
        rw [hforecast, forecast_eq (by simp [drained, hstate]) (by simp [drained, hstate])]
        rfl
  | cons first rest =>
      -- the argument is cut behind its last byte
      obtain ⟨front, last, hlast⟩ :=
        List.eq_nil_or_concat (first :: rest) |>.resolve_left (by simp)
      have hcut : c.rest = (blanks ++ front) ++ last :: [] := by
        rw [hrest, hlast, List.append_assoc, List.concat_eq_append]
      refine .read (.modeToken (c.cmdBuffer.pushAll (first :: rest))) rfl ?_ ?_
      · refine .modeToken (by simp [drained, hstate]) last ?_ (htoken last (by simp [hlast]))
        refine last_passed_of_front hcut rfl ?_
        simp only [drained, hcut, List.length_append, List.length_singleton]
      · intro back
        rw [hforecast, List.cons_append, forecast_mode_first _ (htoken first (by simp)),
          forecast_mode_token fun x hx ↦ htoken x (by simp [hx]),
          forecast_eq (by simp [drained, hstate]) (by simp [drained, hstate])]
        rfl

/-- A line that is skipped, of which no line end was received. -/
theorem skip_read_effect {line tail : List Byte} {count : Nat} (hstate : c.state = .handleError)
    (hrest : c.rest = line ++ tail) (hclear : ∀ ch ∈ line, isLineEnd ch = false)
    (htail : tail = [] ∧ count = line.length ∨ ∃ more, tail = CR :: more ∧
      more.head? ≠ some LF ∧ count = line.length + 1) :
    Effect Stands c (c.drained count) (some c.readOp) .skip c.rest := by
  have hpause : Pauses (c.drained count) .skip := by
    have hnext : Conn.ctrl (c.drained count) = .skip := by simp [Conn.ctrl, drained, hstate]
    rw [← hnext]
    exact .whole (by simp [drained, hstate]) (by simp [Cut, drained, hstate])
      (by simp [drained, hstate])
  have hforecast (hlf : LF ∉ c.rest) (back : List Byte) : c.forecast .skip (c.rest ++ back) =
      (c.drained count).forecast .skip back := by
    rw [forecast_eq (by simp [hstate]) (by simp [hstate]), forecast_skip_line _ hlf,
      forecast_eq (by simp [drained, hstate]) (by simp [drained, hstate])]
    rfl
  have hlf : LF ∉ line := fun hmem ↦ by simpa [isLineEnd] using hclear LF hmem
  rcases htail with ⟨rfl, -⟩ | ⟨more, rfl, hhead, -⟩
  · exact .read .skip rfl hpause (hforecast (by simpa [hrest] using hlf))
  · refine .drop line more hstate hrest hclear hhead rfl hpause fun hmore ↦ hforecast ?_
    simp [hrest, hlf, hmore, show LF ≠ CR by decide]

/-- The greeting was owed. -/
theorem greet_effect (hstate : c.state = .init) :
    Effect Stands c
      (replied { c with mode := .ident } .enterCommand (text "OK expecting command"))
      (some (.write greeting 0)) (.command c.cmdBuffer) c.rest := by
  refine .move (.command c.cmdBuffer) c.rest (by simp [readOp]) ?_ ?_
  · exact .line _ (by simp [InData, replied]) rfl
  · intro back
    rw [forecast_init hstate, forecast_eq (by simp [replied]) (by simp [replied])]
    rfl

/-- A command of which the end was not received. -/
theorem command_read_effect (hstate : c.state = .enterCommand)
    (htoken : ∀ ch ∈ c.rest, isTokenChar ch = true) :
    Effect Stands c (drained { c with cmdBuffer := c.cmdBuffer.pushAll c.rest } c.rest.length)
      (some c.readOp) (.command c.cmdBuffer) c.rest := by
  have hnext : Conn.ctrl (drained { c with cmdBuffer := c.cmdBuffer.pushAll c.rest }
      c.rest.length) = .command (c.cmdBuffer.pushAll c.rest) := by
    simp [Conn.ctrl, drained, hstate]
  refine .read (.command (c.cmdBuffer.pushAll c.rest)) rfl ?_ ?_
  · rw [← hnext]
    exact .whole (by simp [drained, hstate]) (by simp [Cut, drained, hstate])
      (by simp [drained, hstate])
  · intro back
    rw [forecast_eq (by simp [hstate]) (by simp [hstate]), forecast_token htoken,
      forecast_eq (by simp [drained, hstate]) (by simp [drained, hstate])]
    rfl

/-- The end of an empty line. -/
theorem empty_end_effect {blanks eoln more : List Byte} (h : c.Ready)
    (hstate : c.state = .emptyLine) (hrest : c.rest = blanks ++ eoln ++ more)
    (hblank : ∀ ch ∈ blanks, isBlank ch = true) (heoln : eoln = [LF] ∨ eoln = CRLF) :
    Effect Stands c
      { c with state := .enterCommand, itr := c.itr + (blanks ++ eoln).length } none
      .emptyLine c.rest := by
  have hnew : c.cmdBuffer = .new := h.token (by simp [hstate]) (by simp [hstate])
  refine .move (.command c.cmdBuffer) more (by simp) ?_ ?_
  · exact .line _ (by simp [InData]) (slice_passed hrest)
  · intro back
    rw [forecast_eq (by simp [hstate]) (by simp [hstate]), hrest, List.append_assoc,
      List.append_assoc, forecast_empty_blanks _ hblank, forecast_empty_eoln _ heoln, hnew,
      forecast_eq (by simp) (by simp)]
    rfl

/-- Blanks behind the command, of which no line end was received. -/
theorem start_read_effect (hstate : c.state = .startProcessing)
    (hblank : ∀ ch ∈ c.rest, isBlank ch = true) :
    Effect Stands c (drained { c with input := c.input.resetEoD } c.rest.length)
      (some c.readOp) (.start c.mode) c.rest := by
  have hnext : Conn.ctrl (drained { c with input := c.input.resetEoD } c.rest.length) =
      .start c.mode := by
    simp [Conn.ctrl, drained, hstate]
  refine .read (.start c.mode) rfl ?_ ?_
  · rw [← hnext]
    exact .whole (by simp [drained, hstate]) (by simp [Cut, drained, hstate]) fun _ ↦ rfl
  · intro back
    rw [forecast_eq (by simp [hstate]) (by simp [hstate]), forecast_start_blanks _ hblank,
      forecast_eq (by simp [drained, hstate]) (by simp [drained, hstate])]
    rfl

/-- An argument too many. -/
theorem start_bad_effect {blanks more : List Byte} {ch : Byte}
    (hstate : c.state = .startProcessing) (hrest : c.rest = blanks ++ ch :: more)
    (hblank : ∀ ch ∈ blanks, isBlank ch = true) (hch : isBlank ch = false)
    (hend : isLineEnd ch = false) :
    Effect Stands c
      (replied { c with input := c.input.resetEoD, itr := c.itr + blanks.length } .init
        (text "BAD too many arguments"))
      (some (.write (text "BAD too many arguments" ++ CRLF) 0)) (.start c.mode) c.rest := by
  refine .move (.command .new) (ch :: more) (by simp [readOp]) ?_ ?_
  · exact .line _ (by simp [InData, replied]) (slice_passed hrest)
  · intro back
    rw [forecast_eq (by simp [hstate]) (by simp [hstate]), hrest, List.append_assoc,
      forecast_start_blanks _ hblank, List.cons_append, forecast_start_bad _ hch hend,
      forecast_init rfl]
    rfl

/-- The scan for the end of the data, from the line end behind the command on. -/
theorem start_scan_effect {blanks more : List Byte} {ch : Byte} {eoD : Nat} {input : InputBlock}
    (hstate : c.state = .startProcessing) (hrest : c.rest = blanks ++ ch :: more)
    (hblank : ∀ ch ∈ blanks, isBlank ch = true) (hend : isLineEnd ch = true)
    (hscan : c.input.resetEoD.getEoD (c.itr + blanks.length) = (eoD, input)) :
    Effect Stands c
      (replied
        { c with itr := c.itr + blanks.length, input := input, eoD := eoD, eoM := input.pos }
        .processing (text "OK enter data"))
      (some (.write (text "OK enter data" ++ CRLF) 0)) (.start c.mode) c.rest := by
  refine .scan blanks ch more hstate hrest hblank hend (by simp [scanned, hscan]) rfl ?_
  intro back
  rw [forecast_eq (by simp [hstate]) (by simp [hstate]), hrest, List.append_assoc,
    forecast_start_blanks _ hblank, List.cons_append, forecast_start_data _ hend,
    forecast_eq (by simp [replied]) (by simp [replied])]
  rfl

/-- The end of a line that is skipped. -/
theorem skip_end_effect {line eoln more : List Byte} (hstate : c.state = .handleError)
    (hrest : c.rest = line ++ eoln ++ more) (hclear : ∀ ch ∈ line, isLineEnd ch = false)
    (heoln : eoln = [LF] ∨ eoln = CRLF) :
    Effect Stands c { c with state := .init, itr := c.itr + (line ++ eoln).length } none .skip
      c.rest := by
  have hlf : LF ∉ line := fun hmem ↦ by simpa [isLineEnd] using hclear LF hmem
  refine .move (.command .new) more (by simp) ?_ ?_
  · exact .line _ (by simp [InData]) (slice_passed hrest)
  · intro back
    rw [forecast_eq (by simp [hstate]) (by simp [hstate]), hrest, List.append_assoc,
      List.append_assoc, forecast_skip_line _ hlf, forecast_skip_eoln _ heoln, forecast_init rfl]
    rfl

/-- **What a pass does to the forecast.** Apart from the scan for the end of the data, the mark, a
dropped line and a poisonous byte, the messages sent and the new forecast are together the old
forecast. -/
theorem Outcome.effect (h : c.Ready) (hfed : c.Fed) (hout : Outcome c next op)
    (hsees : Sees Stands c ctrl raw) : Effect Stands c next op ctrl raw := by
  -- outside of the data the view is the rest of the message, in the state of the handler
  have hline {place : Ctrl} (hstate : ¬ c.InData) (hplace : c.ctrl = place) :
      ctrl = place ∧ raw = c.rest := hplace ▸ hsees.line_eq hstate
  cases hout with
  | greet hstate =>
      have hnew : c.cmdBuffer = .new := h.token (by simp [hstate]) (by simp [hstate])
      have hctrl : c.ctrl = .command c.cmdBuffer := by simp [Conn.ctrl, hstate, hnew]
      obtain ⟨rfl, rfl⟩ := hline (by simp [InData, hstate]) hctrl
      exact greet_effect hstate
  | commandRead hstate htoken =>
      have hctrl : c.ctrl = .command c.cmdBuffer := by simp [Conn.ctrl, hstate]
      obtain ⟨rfl, rfl⟩ := hline (by simp [InData, hstate]) hctrl
      exact command_read_effect hstate htoken
  | commandEnd token ch more hstate hrest htoken hch _ _ hreaction =>
      have hctrl : c.ctrl = .command c.cmdBuffer := by simp [Conn.ctrl, hstate]
      obtain ⟨rfl, rfl⟩ := hline (by simp [InData, hstate]) hctrl
      exact command_reaction_effect hstate hrest htoken hch hreaction
  | emptyRead blanks tail hstate hrest hblank htail =>
      have hctrl : c.ctrl = .emptyLine := by simp [Conn.ctrl, hstate]
      obtain ⟨rfl, rfl⟩ := hline (by simp [InData, hstate]) hctrl
      exact empty_read_effect h hfed hstate hrest hblank htail
  | emptyEnd blanks eoln more hstate hrest hblank heoln =>
      have hctrl : c.ctrl = .emptyLine := by simp [Conn.ctrl, hstate]
      obtain ⟨rfl, rfl⟩ := hline (by simp [InData, hstate]) hctrl
      exact empty_end_effect h hstate hrest hblank heoln
  | emptyBad blanks cr ch more hstate hrest hblank hbad =>
      have hctrl : c.ctrl = .emptyLine := by simp [Conn.ctrl, hstate]
      obtain ⟨rfl, rfl⟩ := hline (by simp [InData, hstate]) hctrl
      exact empty_bad_effect hstate hrest hblank hbad
  | modeRead blanks token hstate hrest hblank htoken =>
      have hctrl : c.ctrl = .mode c.cmdBuffer := by simp [Conn.ctrl, hstate]
      obtain ⟨rfl, rfl⟩ := hline (by simp [InData, hstate]) hctrl
      exact mode_read_effect h hfed hstate hrest hblank htoken
  | modeEnd blanks token ch more hstate hrest hblank htoken hch hstart _ _ hreaction =>
      have hctrl : c.ctrl = .mode c.cmdBuffer := by simp [Conn.ctrl, hstate]
      obtain ⟨rfl, rfl⟩ := hline (by simp [InData, hstate]) hctrl
      exact mode_reaction_effect hstate hrest hblank htoken hch hstart hreaction
  | startRead hstate hblank =>
      have hctrl : c.ctrl = .start c.mode := by simp [Conn.ctrl, hstate]
      obtain ⟨rfl, rfl⟩ := hline (by simp [InData, hstate]) hctrl
      exact start_read_effect hstate hblank
  | startBad blanks ch more hstate hrest hblank hch hend =>
      have hctrl : c.ctrl = .start c.mode := by simp [Conn.ctrl, hstate]
      obtain ⟨rfl, rfl⟩ := hline (by simp [InData, hstate]) hctrl
      exact start_bad_effect hstate hrest hblank hch hend
  | startScan blanks ch more hstate hrest hblank hend eoD input hscan =>
      have hctrl : c.ctrl = .start c.mode := by simp [Conn.ctrl, hstate]
      obtain ⟨rfl, rfl⟩ := hline (by simp [InData, hstate]) hctrl
      exact start_scan_effect hstate hrest hblank hend hscan
  | release hstate =>
      obtain ⟨phase, rfl, hview⟩ := hsees.data_eq (.inr hstate)
      obtain ⟨hview', hforecast⟩ := hview.release hstate rfl
      refine .move (.processing c.mode phase) raw (by simp) (.data _ _ (.inl rfl) hview') ?_
      intro back
      rw [hforecast]
      rfl
  | echoRead hstate hroom hend =>
      obtain ⟨phase, rfl, hview⟩ := hsees.data_eq (.inl hstate)
      have hctrl : Conn.ctrl { c.echoed c.data with input := c.input.setPos 0 } =
          .processing c.mode c.input.eodState.phase := by
        simp [Conn.ctrl, Conn.echoed, hstate, InputBlock.setPos]
      refine .read (.processing c.mode c.input.eodState.phase) rfl ?_
        (hview.echo_read h hstate hroom hend rfl)
      rw [← hctrl]
      exact .whole (by simp [Conn.echoed, hstate]) (by simp [Cut, Conn.echoed, hstate])
        (by simp [Conn.echoed, hstate])
  | echoEnd hstate hroom hend _ hop =>
      obtain ⟨phase, rfl, hview⟩ := hsees.data_eq (.inl hstate)
      obtain ⟨terminator, rest, hstands, hforecast⟩ :=
        hview.echo_end h hstate hroom hend hop rfl
      refine .mark terminator rest ?_ hstate rfl hstands hforecast
      rw [hop]
      split <;> simp [readOp]
  | echoFull hstate hroom =>
      obtain ⟨phase, rfl, hview⟩ := hsees.data_eq (.inl hstate)
      obtain ⟨phase', raw', hview', hforecast⟩ := hview.echo_full h hstate hroom rfl
      exact .move (.processing c.mode phase') raw' (by simp [readOp]) (.data _ _ (.inr rfl) hview')
        hforecast
  | skipRead line tail hstate hrest hclear count htail =>
      have hctrl : c.ctrl = .skip := by simp [Conn.ctrl, hstate]
      obtain ⟨rfl, rfl⟩ := hline (by simp [InData, hstate]) hctrl
      exact skip_read_effect hstate hrest hclear htail
  | skipEnd line eoln more hstate hrest hclear heoln =>
      have hctrl : c.ctrl = .skip := by simp [Conn.ctrl, hstate]
      obtain ⟨rfl, rfl⟩ := hline (by simp [InData, hstate]) hctrl
      exact skip_end_effect hstate hrest hclear heoln
  | close hstate =>
      exact .move ctrl raw (by simp [readOp]) hsees fun _ ↦ rfl

/-- A scan that has just been made gives a view of the data. The bytes behind the mark, and with
them what the block is said to hold, are left open. -/
theorem data_view_of_scan (block : InputBlock) {start : Nat} {ghost : List Byte}
    (hstart : start < block.size) (hinput : c.input = (block.getEoD start).2)
    (heoD : c.eoD = (block.getEoD start).1) (heoM : c.eoM = c.input.pos) (hitr : c.itr = start)
    (hraw : block.bytes.drop start = raw)
    (hopen : ∀ kept final, EoD.scan block.eodState.phase raw = .unmarked kept final →
      EoD.scan block.eodState.phase ghost = .unmarked kept final)
    (hmark : ∀ kept terminator rest placeholder,
      EoD.scan block.eodState.phase raw = .marked kept terminator rest →
      raw[kept.length]? = some placeholder → kept.length < 2 ^ 31 ∧ ∃ rest',
        EoD.scan block.eodState.phase ghost = .marked kept terminator rest' ∧
          Stands (terminator :: rest') (placeholder :: rest)) :
    DataView Stands c block.eodState.phase ghost := by
  have hle : start ≤ block.bytes.length := Nat.le_of_lt hstart
  subst hraw
  cases hscan : EoD.scan block.eodState.phase (block.bytes.drop start) with
  | unmarked kept final =>
      obtain ⟨state, rfl, heq⟩ := EoD.get_eod_unmarked block hstart hscan
      rw [heq] at hinput heoD
      have hdata : c.data = kept := by
        have hread := Block.slice_store [] kept [] hle
        simp only [List.nil_append, List.append_nil, List.length_nil, Nat.add_zero] at hread
        rw [data, hinput, hitr, heoD, Nat.add_sub_cancel_left]
        exact hread
      refine .unmarked ?_ ?_
      · rw [hopen _ _ hscan, hdata, hinput]
      · rw [heoD, heoM, hinput]
  | marked kept terminator rest =>
      obtain ⟨state, placeholder, -, hplace, heq⟩ := EoD.get_eod_marked block hstart hscan
      obtain ⟨hshort, rest', hghost, hstands⟩ := hmark kept terminator rest placeholder hscan hplace
      rw [EoD.to_int_eq hshort, if_pos (by omega), Int.toNat_natCast] at heq
      rw [heq] at hinput heoD
      have hdata : c.data = kept := by
        have hread := Block.slice_store [] kept (placeholder :: rest) hle
        simp only [List.nil_append, List.length_nil, Nat.add_zero] at hread
        rw [data, hinput, hitr, heoD, Nat.add_sub_cancel_left]
        exact hread
      have htail : c.tail = placeholder :: rest := by
        have hread := Block.slice_store kept (placeholder :: rest) [] hle
        rw [List.append_nil] at hread
        rw [tail, heoM, hinput, heoD, ← Nat.sub_sub, Nat.add_sub_cancel_left, List.length_append,
          Nat.add_sub_cancel_left]
        exact hread
      refine .marked terminator rest' (by rw [hghost, hdata]) ?_ (by rw [htail]; exact hstands)
      rw [heoD, heoM, hinput]
      simp

end

/-! ## Receiving bytes -/

/-- Receiving bytes touches the input and the iterators only. -/
theorem network_input_frame (c : Conn) (data : List Byte) :
    (c.networkInput data).state = c.state ∧ (c.networkInput data).mode = c.mode ∧
      (c.networkInput data).cmdBuffer = c.cmdBuffer ∧ (c.networkInput data).output = c.output := by
  unfold networkInput
  split <;> exact ⟨rfl, rfl, rfl, rfl⟩

/-- Receiving bytes does not touch the forecast. -/
theorem network_input_forecast (c : Conn) (data : List Byte) (ctrl : Ctrl) (stream : List Byte) :
    (c.networkInput data).forecast ctrl stream = c.forecast ctrl stream := by
  obtain ⟨hstate, -, -, houtput⟩ := network_input_frame c data
  simp only [Conn.forecast, unsent, owed, hstate, houtput]

/-- Outside of the two states that scan, the bytes received are the rest of the message. -/
theorem network_input_rest {c : Conn}
    (hstate : ¬ (c.state = .processing ∨ c.state = .startProcessing))
    (data : List Byte) : (c.networkInput data).rest = data := by
  have hread := Block.slice_store [] data [] (Nat.zero_le c.input.bytes.length)
  simp only [List.nil_append, List.append_nil, List.length_nil, Nat.add_zero] at hread
  rw [network_input_plain hstate]
  exact hread

/-- Received bytes are something to look at. -/
theorem network_input_fed (c : Conn) {data : List Byte} (hpos : 1 ≤ data.length) :
    (c.networkInput data).Fed := by
  intro hstate
  rw [(network_input_frame c data).1] at hstate
  have hplain : ¬ (c.state = .processing ∨ c.state = .startProcessing) := by
    rcases hstate with hstate | hstate <;> simp [hstate]
  rw [network_input_plain hplain]
  exact hpos

/-- A scan in front of the data that finds nothing leaves the bytes received as they are. -/
theorem network_input_start_rest {c : Conn} {data : List Byte} {phase : EoD.Phase}
    (hstate : c.state = .startProcessing) (hreset : c.input.eodState = .src)
    (hfull : data.length = c.input.size) (hpos : 0 < c.input.size)
    (hscan : EoD.scan .src data = .unmarked data phase) : (c.networkInput data).rest = data := by
  have hbytes : (c.receivedBlock data).bytes = data := Block.store_full hfull
  have hsize : (c.receivedBlock data).size = c.input.size := by rw [MemBlock.size, hbytes, hfull]
  have hscan' : EoD.scan (c.receivedBlock data).eodState.phase
      ((c.receivedBlock data).bytes.drop 0) = .unmarked data phase := by
    rw [hbytes, List.drop_zero, receivedBlock, hreset]
    exact hscan
  obtain ⟨state, -, heq⟩ := EoD.get_eod_unmarked (c.receivedBlock data)
    (show 0 < (c.receivedBlock data).size by rw [hsize]; exact hpos) hscan'
  rw [network_input_scan (.inr hstate), heq, rest, hbytes, Block.store_full rfl]
  simp [Block.slice]

end Smerp.Pecho
