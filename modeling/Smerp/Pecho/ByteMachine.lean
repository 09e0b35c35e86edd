import Smerp.Pecho.Runs

/-!
# The echo protocol byte by byte

What the handler is for, without blocks: a machine that reads one byte at a time and writes the
messages that the byte brings about. The machine knows the size of the output block, because the
echoed data is sent in pieces of that size, and nothing of the input block. The bytes that are
printed but not yet sent survive the end of the data, as they do in the handler.
-/

namespace Smerp.Pecho

open Lib Protocol Network Conn

/-- The control states of the byte machine. The states of the handler that wait for the rest of a
line end or of an argument are told apart here. -/
inductive Ctrl where
  | command (buf : CmdBuffer)
  | emptyLine
  | emptyLineCr
  | mode (buf : CmdBuffer)
  | modeToken (buf : CmdBuffer)
  | start (mode : Mode)
  | processing (mode : Mode) (phase : EoD.Phase)
  | skip
  | terminate
  | poisoned
  deriving DecidableEq, Repr

/-- A control state and the bytes that are printed but not sent. -/
structure ByteState where
  ctrl : Ctrl
  out : List Byte
  deriving DecidableEq, Repr

/-- A state reached and the messages written on the way. -/
abbrev Forecast := ByteState × List Sent

/-- Write messages first. -/
def Forecast.after (front : List Sent) (forecast : Forecast) : Forecast :=
  (forecast.1, front ++ forecast.2)

@[simp] theorem Forecast.after_nil (forecast : Forecast) : forecast.after [] = forecast := rfl

@[simp] theorem Forecast.after_after (first second : List Sent) (forecast : Forecast) :
    (forecast.after second).after first = forecast.after (first ++ second) := by
  simp [Forecast.after]

/-- The greeting. -/
def greet : Sent := ⟨.enterCommand, greeting⟩

/-- A reply line. -/
def line (next : State) (str : String) : Sent := ⟨next, text str ++ CRLF⟩

/-- The printed bytes are sent at the end of the data, if there are any. -/
def lastData (out : List Byte) : List Sent := if out = [] then [] else [⟨.init, out⟩]

/-- Print one character; a full output is sent first. -/
def pushOut (room : Nat) (mode : Mode) (out : List Byte) (ch : Byte) : List Byte × List Sent :=
  if out.length = room then ([convert mode ch], [⟨.processingAfterWrite, out⟩])
  else (out ++ [convert mode ch], [])

/-- A byte that is neither part of an empty line nor of a token. The handler complains about it and
never passes it. -/
def isPoison (ch : Byte) : Bool := !isTokenChar ch && !isBlank ch && !isLineEnd ch

namespace ByteMachine

/-- A byte on an empty command line. -/
def onEmptyLine (out : List Byte) (ch : Byte) : Forecast :=
  if isBlank ch then (⟨.emptyLine, out⟩, [])
  else if ch = CR then (⟨.emptyLineCr, out⟩, [])
  else if ch = LF then (⟨.command .new, out⟩, [])
  else if isTokenChar ch then
    (⟨.command (CmdBuffer.new.pushBack ch), out⟩, [line .init "BAD command line", greet])
  else (⟨.poisoned, out⟩, [])

/-- The first byte of a command line. -/
def onFresh (out : List Byte) (ch : Byte) : Forecast :=
  if isTokenChar ch then (⟨.command (CmdBuffer.new.pushBack ch), out⟩, []) else onEmptyLine out ch

/-- A byte of a line that is skipped. -/
def onSkip (out : List Byte) (ch : Byte) : Forecast :=
  if ch = LF then (⟨.command .new, out⟩, [greet]) else (⟨.skip, out⟩, [])

/-- A byte of the data. -/
def onData (room : Nat) (mode : Mode) (phase : EoD.Phase) (out : List Byte) (ch : Byte) :
    Forecast :=
  match EoD.step phase ch with
  | (next, .byte kept :: _) =>
      (⟨.processing mode next, (pushOut room mode out kept).1⟩, (pushOut room mode out kept).2)
  | (_, .placeholder :: _) => (onEmptyLine out ch).after (lastData out ++ [greet])
  | (next, []) => (⟨.processing mode next, out⟩, [])

/-- A byte behind the argument of `echo`. -/
def onStart (room : Nat) (mode : Mode) (out : List Byte) (ch : Byte) : Forecast :=
  if isBlank ch then (⟨.start mode, out⟩, [])
  else if isLineEnd ch then
    (onData room mode .src out ch).after [line .processing "OK enter data"]
  else (onFresh out ch).after [line .init "BAD too many arguments", greet]

/-- The byte that ends the argument of `echo`. -/
def onArgument (room : Nat) (buf : CmdBuffer) (out : List Byte) (ch : Byte) : Forecast :=
  match Mode.ofIndex (modeParser.lookup buf.value) with
  | some mode => onStart room mode out ch
  | none => (onSkip out ch).after [line .handleError "BAD unknown command argument"]

/-- A byte in front of the argument of `echo`. -/
def onMode (room : Nat) (buf : CmdBuffer) (out : List Byte) (ch : Byte) : Forecast :=
  if isBlank ch then (⟨.mode buf, out⟩, [])
  else if isTokenChar ch then (⟨.modeToken (buf.pushBack ch), out⟩, [])
  else onArgument room buf out ch

/-- The byte that ends a command. -/
def onCommandEnd (room : Nat) (buf : CmdBuffer) (out : List Byte) (ch : Byte) : Forecast :=
  match Command.ofIndex (commandParser.lookup buf.value) with
  | some .empty => onEmptyLine out ch
  | some .caps =>
      (onEmptyLine out ch).after [line .enterCommand "OK caps echo[tolower|toupper] quit"]
  | some .echo => onMode room .new out ch
  | some .quit => (⟨.terminate, out⟩, [line .terminate "BYE"])
  | none => (onSkip out ch).after [line .handleError "BAD unknown command"]

/-- One byte. -/
def delta (room : Nat) (s : ByteState) (ch : Byte) : Forecast :=
  match s.ctrl with
  | .command buf =>
      if isTokenChar ch then (⟨.command (buf.pushBack ch), s.out⟩, [])
      else onCommandEnd room buf s.out ch
  | .emptyLine => onEmptyLine s.out ch
  | .emptyLineCr =>
      if ch = LF then (⟨.command .new, s.out⟩, [])
      else if isPoison ch then (⟨.poisoned, s.out⟩, [])
      else (onFresh s.out ch).after [line .init "BAD command line", greet]
  | .mode buf => onMode room buf s.out ch
  | .modeToken buf =>
      if isTokenChar ch then (⟨.modeToken (buf.pushBack ch), s.out⟩, [])
      else onArgument room buf s.out ch
  | .start mode => onStart room mode s.out ch
  | .processing mode phase => onData room mode phase s.out ch
  | .skip => onSkip s.out ch
  | .terminate => (s, [])
  | .poisoned => (s, [])

/-- What the machine writes on a stream, and the state it reaches. -/
def forecast (room : Nat) (ctrl : Ctrl) (out stream : List Byte) : Forecast :=
  Transducer.feed (delta room) ⟨ctrl, out⟩ stream

variable {room : Nat} {out : List Byte}

@[simp] theorem forecast_nil (ctrl : Ctrl) : forecast room ctrl out [] = (⟨ctrl, out⟩, []) := rfl

/-- A byte that is answered by another state's answer, behind some messages. -/
theorem forecast_react {ctrl next : Ctrl} {ch : Byte} {front : List Sent}
    (h : delta room ⟨ctrl, out⟩ ch = (delta room ⟨next, out⟩ ch).after front) (back : List Byte) :
    forecast room ctrl out (ch :: back) = (forecast room next out (ch :: back)).after front := by
  simp [forecast, Transducer.feed_cons, h, Forecast.after]

/-- A byte that is answered as in another state. -/
theorem forecast_turn {ctrl next : Ctrl} {ch : Byte}
    (h : delta room ⟨ctrl, out⟩ ch = delta room ⟨next, out⟩ ch) (back : List Byte) :
    forecast room ctrl out (ch :: back) = forecast room next out (ch :: back) := by
  simp [forecast, Transducer.feed_cons, h]

/-- A byte that is consumed. -/
theorem forecast_eat {ctrl next : Ctrl} {ch : Byte} {out' : List Byte} {written : List Sent}
    (h : delta room ⟨ctrl, out⟩ ch = (⟨next, out'⟩, written)) (back : List Byte) :
    forecast room ctrl out (ch :: back) = (forecast room next out' back).after written := by
  simp [forecast, Transducer.feed_cons, h, Forecast.after]

/-- A byte that is passed without a message. -/
theorem forecast_pass {ctrl next : Ctrl} {ch : Byte}
    (h : delta room ⟨ctrl, out⟩ ch = (⟨next, out⟩, [])) (back : List Byte) :
    forecast room ctrl out (ch :: back) = forecast room next out back :=
  forecast_eat h back

/-- Bytes that are passed without a change of the state. -/
theorem forecast_skip {ctrl : Ctrl} {front : List Byte}
    (h : ∀ ch ∈ front, delta room ⟨ctrl, out⟩ ch = (⟨ctrl, out⟩, [])) (back : List Byte) :
    forecast room ctrl out (front ++ back) = forecast room ctrl out back := by
  induction front with
  | nil => rfl
  | cons ch rest ih =>
      rw [List.cons_append, forecast_pass (h ch (by simp)), ih fun x hx ↦ h x (by simp [hx])]

/-- Behind `quit` nothing more is foreseen. -/
theorem forecast_terminate (stream : List Byte) :
    forecast room .terminate out stream = (⟨.terminate, out⟩, []) := by
  have hstay : ∀ ch ∈ stream, delta room ⟨.terminate, out⟩ ch = (⟨.terminate, out⟩, []) :=
    fun _ _ ↦ rfl
  simpa using forecast_skip hstay []

/-- Behind a poisonous byte nothing more is foreseen. -/
theorem forecast_poisoned (stream : List Byte) :
    forecast room .poisoned out stream = (⟨.poisoned, out⟩, []) := by
  have hstay : ∀ ch ∈ stream, delta room ⟨.poisoned, out⟩ ch = (⟨.poisoned, out⟩, []) :=
    fun _ _ ↦ rfl
  simpa using forecast_skip hstay []

/-! ## Tokens, blanks and line ends -/

/-- The bytes of a command token are fed to the command buffer. -/
theorem forecast_token {buf : CmdBuffer} {token : List Byte}
    (h : ∀ ch ∈ token, isTokenChar ch = true) (back : List Byte) :
    forecast room (.command buf) out (token ++ back) =
      forecast room (.command (buf.pushAll token)) out back := by
  induction token generalizing buf with
  | nil => rfl
  | cons ch rest ih =>
      have hpass : delta room ⟨.command buf, out⟩ ch = (⟨.command (buf.pushBack ch), out⟩, []) := by
        simp [delta, h ch (by simp)]
      rw [List.cons_append, forecast_pass hpass, ih fun x hx ↦ h x (by simp [hx])]
      rfl

/-- The bytes of an argument are fed to the command buffer. -/
theorem forecast_mode_token {buf : CmdBuffer} {token : List Byte}
    (h : ∀ ch ∈ token, isTokenChar ch = true) (back : List Byte) :
    forecast room (.modeToken buf) out (token ++ back) =
      forecast room (.modeToken (buf.pushAll token)) out back := by
  induction token generalizing buf with
  | nil => rfl
  | cons ch rest ih =>
      have hpass : delta room ⟨.modeToken buf, out⟩ ch =
          (⟨.modeToken (buf.pushBack ch), out⟩, []) := by
        simp [delta, h ch (by simp)]
      rw [List.cons_append, forecast_pass hpass, ih fun x hx ↦ h x (by simp [hx])]
      rfl

/-- The empty token is the empty command, on the command line and as an argument. -/
theorem on_command_end_new (ch : Byte) : onCommandEnd room .new out ch = onEmptyLine out ch := by
  rw [onCommandEnd, empty_command]

/-- The first byte of a command line. -/
theorem delta_fresh (ch : Byte) : delta room ⟨.command .new, out⟩ ch = onFresh out ch := by
  simp only [delta, onFresh, on_command_end_new]

section

variable {ch : Byte} (back : List Byte)

/-- The byte that ends a command brings the command about and is left to the next state. -/
theorem forecast_command_end {buf : CmdBuffer} (hch : isTokenChar ch = false) :
    forecast room (.command buf) out (ch :: back) =
      match Command.ofIndex (commandParser.lookup buf.value) with
      | some .empty => forecast room .emptyLine out (ch :: back)
      | some .caps => (forecast room (.command .new) out (ch :: back)).after
          [line .enterCommand "OK caps echo[tolower|toupper] quit"]
      | some .echo => forecast room (.mode .new) out (ch :: back)
      | some .quit => (⟨.terminate, out⟩, [line .terminate "BYE"])
      | none => (forecast room .skip out (ch :: back)).after
          [line .handleError "BAD unknown command"] := by
  have hdelta : delta room ⟨.command buf, out⟩ ch = onCommandEnd room buf out ch := by
    simp [delta, hch]
  cases hcmd : Command.ofIndex (commandParser.lookup buf.value) with
  | none => exact forecast_react (by rw [hdelta, onCommandEnd, hcmd]; rfl) back
  | some cmd =>
      cases cmd with
      | empty => exact forecast_turn (by rw [hdelta, onCommandEnd, hcmd]; rfl) back
      | caps =>
          refine forecast_react ?_ back
          rw [hdelta, onCommandEnd, hcmd, delta_fresh, onFresh, hch]
          rfl
      | echo => exact forecast_turn (by rw [hdelta, onCommandEnd, hcmd]; rfl) back
      | quit =>
          rw [forecast_eat (by rw [hdelta, onCommandEnd, hcmd]), forecast_terminate]
          rfl

/-- Blanks on an empty command line are passed. -/
theorem forecast_empty_blanks {blanks : List Byte} (h : ∀ ch ∈ blanks, isBlank ch = true) :
    forecast room .emptyLine out (blanks ++ back) = forecast room .emptyLine out back :=
  forecast_skip (fun ch hch ↦ by simp [delta, onEmptyLine, h ch hch]) back

/-- A carriage return on an empty command line. -/
theorem forecast_empty_cr : forecast room .emptyLine out (CR :: back) =
    forecast room .emptyLineCr out back :=
  forecast_pass (by simp [delta, onEmptyLine, show isBlank CR = false by decide]) back

/-- The end of an empty command line. -/
theorem forecast_empty_eoln {eoln : List Byte} (h : eoln = [LF] ∨ eoln = CRLF) :
    forecast room .emptyLine out (eoln ++ back) = forecast room (.command .new) out back := by
  rcases h with rfl | rfl
  · exact forecast_pass
      (by simp [delta, onEmptyLine, show isBlank LF = false by decide, show LF ≠ CR by decide]) back
  · rw [CRLF, List.cons_append, forecast_empty_cr]
    exact forecast_pass (by simp [delta]) back

/-- A command line that starts neither with a command nor with a line end is rejected, and its first
byte is read once more. -/
theorem forecast_empty_bad {cr : List Byte} (h : cr = [] ∧ isTokenChar ch = true ∨
    cr = [CR] ∧ ch ≠ LF ∧ isPoison ch = false) :
    forecast room .emptyLine out (cr ++ ch :: back) =
      (forecast room (.command .new) out (ch :: back)).after [line .init "BAD command line",
        greet] := by
  rcases h with ⟨rfl, htoken⟩ | ⟨rfl, hlf, hpoison⟩
  · have hblank : isBlank ch = false := by
      cases hblank : isBlank ch with
      | false => rfl
      | true => simp [is_token_char_blank hblank] at htoken
    have hline : ch ≠ CR ∧ ch ≠ LF := by
      constructor <;> rintro rfl <;> exact absurd htoken (by decide)
    refine forecast_react ?_ back
    simp [delta, onEmptyLine, hblank, hline, htoken, Forecast.after]
  · rw [List.singleton_append, forecast_empty_cr]
    refine forecast_react ?_ back
    rw [delta_fresh]
    simp [delta, hlf, hpoison]

/-- A poisonous byte on an empty command line. -/
theorem delta_poison (out : List Byte) (hpoison : isPoison ch = true) : onEmptyLine out ch =
    (⟨.poisoned, out⟩, []) ∧
    onFresh out ch = (⟨.poisoned, out⟩, []) ∧ ch ≠ LF := by
  simp only [isPoison, isLineEnd, Bool.and_eq_true, Bool.not_eq_true', Bool.or_eq_false_iff,
    beq_eq_false_iff_ne] at hpoison
  obtain ⟨⟨htoken, hblank⟩, hcr, hlf⟩ := hpoison
  have hempty : onEmptyLine out ch = (⟨.poisoned, out⟩, []) := by
    simp [onEmptyLine, htoken, hblank, hcr, hlf]
  exact ⟨hempty, by simp [onFresh, htoken, hempty], hlf⟩

/-- A poisonous byte on an empty command line, also behind a carriage return. -/
theorem forecast_poison {cr : List Byte} (hcr : cr = [] ∨ cr = [CR])
    (hpoison : isPoison ch = true) :
    forecast room .emptyLine out (cr ++ ch :: back) = (⟨.poisoned, out⟩, []) := by
  obtain ⟨hempty, -, hlf⟩ := delta_poison out hpoison
  rcases hcr with rfl | rfl
  · have hpass : delta room ⟨.emptyLine, out⟩ ch = (⟨.poisoned, out⟩, []) := hempty
    rw [List.nil_append, forecast_pass hpass, forecast_poisoned]
  · have hpass : delta room ⟨.emptyLineCr, out⟩ ch = (⟨.poisoned, out⟩, []) := by
      simp [delta, hlf, hpoison]
    rw [List.singleton_append, forecast_empty_cr, forecast_pass hpass, forecast_poisoned]

/-- A poisonous byte at the start of a command line. -/
theorem forecast_fresh_poison (hpoison : isPoison ch = true) :
    forecast room (.command .new) out (ch :: back) = (⟨.poisoned, out⟩, []) := by
  obtain ⟨-, hfresh, -⟩ := delta_poison out hpoison
  rw [forecast_pass ((delta_fresh ch).trans hfresh), forecast_poisoned]

/-- The end of the argument of `echo`. -/
theorem forecast_argument {ctrl : Ctrl} {buf : CmdBuffer}
    (h : delta room ⟨ctrl, out⟩ ch = onArgument room buf out ch) :
    forecast room ctrl out (ch :: back) =
      (Mode.ofIndex (modeParser.lookup buf.value)).elim
        ((forecast room .skip out (ch :: back)).after
          [line .handleError "BAD unknown command argument"])
        fun mode ↦ forecast room (.start mode) out (ch :: back) := by
  cases hmode : Mode.ofIndex (modeParser.lookup buf.value) with
  | none => exact forecast_react (by rw [h, onArgument, hmode]; rfl) back
  | some mode => exact forecast_turn (by rw [h, onArgument, hmode]; rfl) back

/-- Blanks in front of the argument of `echo` are passed. -/
theorem forecast_mode_blanks {buf : CmdBuffer} {blanks : List Byte}
    (h : ∀ ch ∈ blanks, isBlank ch = true) :
    forecast room (.mode buf) out (blanks ++ back) = forecast room (.mode buf) out back :=
  forecast_skip (fun ch hch ↦ by simp [delta, onMode, h ch hch]) back

/-- The first byte of the argument of `echo`. -/
theorem forecast_mode_first {buf : CmdBuffer} (h : isTokenChar ch = true) :
    forecast room (.mode buf) out (ch :: back) =
      forecast room (.modeToken (buf.pushBack ch)) out back := by
  have hblank : isBlank ch = false := by
    cases hblank : isBlank ch with
    | false => rfl
    | true => simp [is_token_char_blank hblank] at h
  exact forecast_pass (by simp [delta, onMode, h, hblank]) back

/-- Blanks behind the argument of `echo` are passed. -/
theorem forecast_start_blanks {mode : Mode} {blanks : List Byte}
    (h : ∀ ch ∈ blanks, isBlank ch = true) :
    forecast room (.start mode) out (blanks ++ back) = forecast room (.start mode) out back :=
  forecast_skip (fun ch hch ↦ by simp [delta, onStart, h ch hch]) back

/-- The line end behind the argument of `echo` is the first byte of the data. -/
theorem forecast_start_data {mode : Mode} (h : isLineEnd ch = true) :
    forecast room (.start mode) out (ch :: back) =
      (forecast room (.processing mode .src) out (ch :: back)).after
        [line .processing "OK enter data"] := by
  have hblank : isBlank ch = false := by
    cases hblank : isBlank ch with
    | false => rfl
    | true => simp [is_line_end_blank hblank] at h
  exact forecast_react (by simp [delta, onStart, h, hblank]) back

/-- A second argument is rejected, and its first byte is read as a command. -/
theorem forecast_start_bad {mode : Mode} (hblank : isBlank ch = false)
    (hline : isLineEnd ch = false) : forecast room (.start mode) out (ch :: back) =
      (forecast room (.command .new) out (ch :: back)).after
        [line .init "BAD too many arguments", greet] :=
  forecast_react (by rw [delta_fresh]; simp [delta, onStart, hline, hblank]) back

/-- A skipped line. -/
theorem forecast_skip_line {text : List Byte} (h : LF ∉ text) :
    forecast room .skip out (text ++ back) = forecast room .skip out back :=
  forecast_skip (fun ch hch ↦ by
    have hne : ch ≠ LF := fun heq ↦ h (heq ▸ hch)
    simp [delta, onSkip, hne]) back

/-- The end of a skipped line. -/
theorem forecast_skip_eoln {eoln : List Byte} (h : eoln = [LF] ∨ eoln = CRLF) :
    forecast room .skip out (eoln ++ back) =
      (forecast room (.command .new) out back).after [greet] := by
  have hlf : forecast room .skip out (LF :: back) =
      (forecast room (.command .new) out back).after [greet] :=
    forecast_eat (by simp [delta, onSkip]) back
  rcases h with rfl | rfl
  · exact hlf
  · have hcr : LF ∉ [CR] := by decide
    exact (forecast_skip_line (LF :: back) hcr).trans hlf

end

/-! ## Data -/

/-- Print characters; full outputs are sent. -/
def pushAll (room : Nat) (mode : Mode) (out chars : List Byte) : List Byte × List Sent :=
  Transducer.feed (pushOut room mode) out chars

/-- Characters for which there is room are only printed. -/
theorem push_all_room {mode : Mode} {chars : List Byte} (h : out.length + chars.length ≤ room) :
    pushAll room mode out chars = (out ++ chars.map (convert mode), []) := by
  induction chars generalizing out with
  | nil => simp [pushAll]
  | cons ch rest ih =>
      simp only [List.length_cons] at h
      have hpush : pushOut room mode out ch = (out ++ [convert mode ch], []) := by
        rw [pushOut, if_neg (by omega)]
      have hrest := ih (show (out ++ [convert mode ch]).length + rest.length ≤ room by
        simp only [List.length_append, List.length_singleton]
        omega)
      rw [pushAll] at hrest ⊢
      rw [Transducer.feed_cons, hpush, hrest]
      simp

/-- A dot of the data that is dropped. -/
theorem delta_data_drop {phase next : EoD.Phase} {mode : Mode} {ch : Byte}
    (h : EoD.step phase ch = (next, [])) : delta room ⟨.processing mode phase, out⟩ ch =
      (⟨.processing mode next, out⟩, []) := by
  simp only [delta, onData, h]

/-- A byte of the data that is kept. -/
theorem delta_data_keep {phase next : EoD.Phase} {mode : Mode} {ch kept : Byte}
    (h : EoD.step phase ch = (next, [.byte kept])) :
    delta room ⟨.processing mode phase, out⟩ ch =
      (⟨.processing mode next, (pushOut room mode out kept).1⟩,
        (pushOut room mode out kept).2) := by
  simp only [delta, onData, h]

/-- Two results with a byte in front. -/
theorem prepend_cons_inj {first second : Byte} {front : List Byte} {result result' : EoD.Scan}
    (h : result.prepend [first] = result'.prepend (second :: front)) :
    first = second ∧ result = result'.prepend front := by
  cases result <;> cases result' <;> simp_all [EoD.Scan.prepend]

/-- The data that a scan keeps at its front is printed. What is left is a scan of a shorter
block. -/
theorem forecast_data {phase : EoD.Phase} {raw front : List Byte} {result : EoD.Scan}
    (h : EoD.scan phase raw = result.prepend front) :
    ∃ phase' raw', EoD.scan phase' raw' = result ∧ ∀ room mode out back,
      forecast room (.processing mode phase) out (raw ++ back) =
        (forecast room (.processing mode phase') (pushAll room mode out front).1
          (raw' ++ back)).after
          (pushAll room mode out front).2 := by
  induction raw generalizing phase front with
  | nil =>
      obtain rfl : front = [] := by
        cases result <;> simp [EoD.Scan.prepend] at h
        exact h.1.1
      exact ⟨phase, [], by simpa using h, fun _ _ _ _ ↦ rfl⟩
  | cons ch rest ih =>
      cases front with
      | nil => exact ⟨phase, ch :: rest, by simpa using h, fun _ _ _ _ ↦ rfl⟩
      | cons first front =>
          rcases EoD.scan_cons phase ch rest with ⟨hscan, -, -⟩ | ⟨kept, hscan, hstep, hshort, -⟩
          · rw [hscan] at h
            cases result <;> simp at h
          · rw [hscan] at h
            rcases kept with _ | ⟨ch', _ | ⟨_, _⟩⟩
            · -- a dropped dot
              rw [EoD.Scan.prepend_nil] at h
              obtain ⟨phase', raw', hresult, hforecast⟩ := ih h
              refine ⟨phase', raw', hresult, ?_⟩
              intro room mode out back
              rw [← hforecast, List.cons_append,
                forecast_eat (delta_data_drop (Prod.ext rfl hstep))]
              rfl
            · obtain ⟨rfl, hrest⟩ := prepend_cons_inj h
              obtain ⟨phase', raw', hresult, hforecast⟩ := ih hrest
              refine ⟨phase', raw', hresult, ?_⟩
              intro room mode out back
              rw [List.cons_append, forecast_eat (delta_data_keep (Prod.ext rfl hstep)), hforecast,
                Forecast.after_after]
              rfl
            · simp at hshort

/-- A scan that keeps nothing more passes at most a dot. -/
theorem forecast_rest {phase final : EoD.Phase} {raw : List Byte} {mode : Mode}
    (h : EoD.scan phase raw = .unmarked [] final) (back : List Byte) :
    forecast room (.processing mode phase) out (raw ++ back) =
      forecast room (.processing mode final) out back := by
  induction raw generalizing phase with
  | nil =>
      obtain rfl : phase = final := by simpa using h
      rfl
  | cons ch rest ih =>
      rcases EoD.scan_cons phase ch rest with ⟨hscan, -, -⟩ | ⟨kept, hscan, hstep, -, -⟩
      · cases hscan.symm.trans h
      · obtain rfl : kept = [] := by
          rw [hscan] at h
          cases hrest : EoD.scan (EoD.step phase ch).1 rest <;> simp [hrest] at h
          exact h.1.1
        rw [EoD.Scan.prepend_nil] at hscan
        rw [← ih (hscan.symm.trans h), List.cons_append,
          forecast_eat (delta_data_drop (Prod.ext rfl hstep))]
        rfl

/-- At the mark the printed bytes are sent, and the byte that completes it is read as a command. -/
theorem forecast_mark {phase : EoD.Phase} {raw rest : List Byte} {terminator : Byte} {mode : Mode}
    (h : EoD.scan phase raw = .marked [] terminator rest) (back : List Byte) :
    forecast room (.processing mode phase) out (raw ++ back) =
      (forecast room (.command .new) out (terminator :: rest ++ back)).after
        (lastData out ++ [greet]) := by
  induction raw generalizing phase with
  | nil => simp at h
  | cons ch more ih =>
      rcases EoD.scan_cons phase ch more with ⟨hscan, rfl, hstep⟩ | ⟨kept, hscan, hstep, -, -⟩
      · obtain ⟨rfl, rfl⟩ : ch = terminator ∧ more = rest := by simpa using hscan.symm.trans h
        have hend : ch = CR ∨ ch = LF := by
          by_contra hkeep
          simp [EoD.step, hkeep] at hstep
        have htoken : isTokenChar ch = false := by rcases hend with rfl | rfl <;> decide
        refine forecast_react ?_ (more ++ back)
        rw [delta_fresh, onFresh, htoken]
        simp only [delta, onData, hstep]
        rfl
      · obtain rfl : kept = [] := by
          rw [hscan] at h
          cases hrest : EoD.scan (EoD.step phase ch).1 more <;> simp [hrest] at h
          exact h.1.1
        rw [EoD.Scan.prepend_nil] at hscan
        rw [← ih (hscan.symm.trans h), List.cons_append,
          forecast_eat (delta_data_drop (Prod.ext rfl hstep))]
        rfl

section

variable {phase final : EoD.Phase} {raw kept rest : List Byte} {terminator : Byte} {mode : Mode}

/-- Data without the mark, when there is room for it. -/
theorem forecast_unmarked (h : EoD.scan phase raw = .unmarked kept final)
    (hroom : out.length + kept.length ≤ room) (back : List Byte) :
    forecast room (.processing mode phase) out (raw ++ back) =
      forecast room (.processing mode final) (out ++ kept.map (convert mode)) back := by
  have hsplit : EoD.scan phase raw = (EoD.Scan.unmarked [] final).prepend kept := by simpa using h
  obtain ⟨phase', raw', hresult, hforecast⟩ := forecast_data hsplit
  rw [hforecast, push_all_room hroom, forecast_rest hresult]
  rfl

/-- Data up to the mark, when there is room for it. -/
theorem forecast_marked (h : EoD.scan phase raw = .marked kept terminator rest)
    (hroom : out.length + kept.length ≤ room) (back : List Byte) :
    forecast room (.processing mode phase) out (raw ++ back) =
      (forecast room (.command .new) (out ++ kept.map (convert mode))
        (terminator :: rest ++ back)).after
          (lastData (out ++ kept.map (convert mode)) ++ [greet]) := by
  have hsplit : EoD.scan phase raw = (EoD.Scan.marked [] terminator rest).prepend kept := by
    simpa using h
  obtain ⟨phase', raw', hresult, hforecast⟩ := forecast_data hsplit
  rw [hforecast, push_all_room hroom, forecast_mark hresult]
  rfl

/-- A full output is sent in front of the next character of the data. -/
theorem forecast_full {result : EoD.Scan} {ch : Byte} (h : EoD.scan phase raw = result.prepend [ch])
    (hpos : 0 < room) (hfull : out.length = room) (back : List Byte) :
    forecast room (.processing mode phase) out (raw ++ back) =
      (forecast room (.processing mode phase) [] (raw ++ back)).after
        [⟨.processingAfterWrite, out⟩] := by
  obtain ⟨phase', raw', -, hforecast⟩ := forecast_data h
  have hsend : pushAll room mode out [ch] =
    ([convert mode ch], [⟨.processingAfterWrite, out⟩]) := by
    simp [pushAll, Transducer.feed_cons, pushOut, hfull]
  have hprint : pushAll room mode [] [ch] = ([convert mode ch], []) := by
    have hne : ¬ 0 = room := by omega
    simp [pushAll, Transducer.feed_cons, pushOut, hne]
  rw [hforecast, hforecast, hsend, hprint]
  rfl

end

/-! ## Cuts -/

/-- Behind a carriage return an empty command line goes on as if it was not there, unless a blank or
another carriage return follows. -/
theorem forecast_cr_cut {ch : Byte} (hblank : isBlank ch = false) (hcr : ch ≠ CR)
    (back : List Byte) :
    forecast room .emptyLineCr out (ch :: back) = forecast room .emptyLine out (ch :: back) := by
  refine forecast_turn ?_ back
  by_cases hlf : ch = LF
  · simp [delta, onEmptyLine, hlf, show isBlank LF = false by decide, show LF ≠ CR by decide]
  · cases htoken : isTokenChar ch with
    | true =>
        have hpoison : isPoison ch = false := by simp [isPoison, htoken]
        simp [delta, onEmptyLine, onFresh, hlf, hblank, hcr, htoken, hpoison, Forecast.after]
    | false =>
        have hpoison : isPoison ch = true := by simp [isPoison, isLineEnd, htoken, hblank, hcr, hlf]
        simp [delta, onEmptyLine, hlf, hblank, hcr, htoken, hpoison]

/-- A cut argument goes on, unless a blank follows. -/
theorem forecast_argument_cut {buf : CmdBuffer} {ch : Byte} (hblank : isBlank ch = false)
    (back : List Byte) : forecast room (.modeToken buf) out (ch :: back) =
      forecast room (.mode buf) out (ch :: back) :=
  forecast_turn (by simp [delta, onMode, hblank]) back

end ByteMachine

end Smerp.Pecho
