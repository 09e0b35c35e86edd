import Smerp.Network.ConnectionBase
import Smerp.Protocol.Parser

/-!
# The echo protocol handler

The state machine of `examples/pecho/pechoHandler.cpp`. `pass` is one pass of the `for (;;)` loop
of `nextOperation`: it either goes round again or returns a network operation. Both endless loops
of the handler run with a bound on the number of passes, and a loop that reaches its bound is a
fault of its own.
-/

namespace Smerp.Pecho

open Lib Protocol Network

/-- The processor states. -/
inductive State where
  | init
  | enterCommand
  | emptyLine
  | enterMode
  | startProcessing
  | processingAfterWrite
  | processing
  | handleError
  | terminate
  deriving DecidableEq, Repr

/-- The function selected to process the content. -/
inductive Mode where
  | ident
  | uppercase
  | lowercase
  deriving DecidableEq, Repr

/-- The result of `echoInput`. -/
inductive EchoState where
  | eoD
  | eoM
  | bufferFull
  deriving DecidableEq, Repr

/-- The commands of the command line, in the order of the parser's table. -/
inductive Command where
  | empty
  | caps
  | echo
  | quit
  deriving DecidableEq, Repr

/-- The `case` that an index returned by `getCommand` selects; `none` is `default`. -/
def Command.ofIndex : Int → Option Command
  | 0 => some .empty
  | 1 => some .caps
  | 2 => some .echo
  | 3 => some .quit
  | _ => none

/-- The mode selected by an index returned by `getCommand` for the argument of `echo`. The table
holds no argument, `tolower` and `toupper`. -/
def Mode.ofIndex : Int → Option Mode
  | 0 => some .ident
  | 1 => some .lowercase
  | 2 => some .uppercase
  | _ => none

/-- The parser of the command line. -/
def commandParser : CmdParser :=
  (CmdParser.build [text "", text "caps", text "echo", text "quit"]).get (by decide)

/-- The parser of the argument of `echo`. -/
def modeParser : CmdParser :=
  (CmdParser.build [text "", text "tolower", text "toupper"]).get (by decide)

/-- The state variables of the processor. -/
structure Conn where
  state : State
  mode : Mode
  cmdBuffer : CmdBuffer
  buffer : Buffer 128
  input : InputBlock
  output : OutputBlock
  itr : Nat
  eoM : Nat
  eoD : Nat
  deriving DecidableEq, Repr

/-- The constructor, over uninitialised memory for the three buffers. -/
def Conn.new (inputMemory outputMemory : List Byte) (line : Buffer 128) : Conn where
  state := .init
  mode := .ident
  cmdBuffer := .new
  buffer := line
  input := .new inputMemory
  output := .new outputMemory
  itr := 0
  eoM := 0
  eoD := 0

namespace Conn

/-- `WriteLine`: send the string and a line end from the line buffer. -/
def writeLine (c : Conn) (str : List Byte) : Except Fault (Conn × Operation) := do
  let buffer := ((str ++ CRLF).foldl Buffer.pushBack c.buffer.init).cStr
  let msg ← buffer.read (str.length + 2)
  return ({ c with buffer := buffer.init }, .write msg 0)

/-- The function of the mode on one character; negative characters are printed as they are. -/
def convert (mode : Mode) (ch : Byte) : Byte :=
  if signedChar ch < 0 then ch
  else match mode with
    | .ident => ch
    | .uppercase => toupper ch
    | .lowercase => tolower ch

/-- `print` -/
def print (c : Conn) (ch : Byte) : Bool × Conn :=
  let (printed, output) := c.output.print (convert c.mode ch)
  (printed, { c with output := output })

/-- One pass of the loop of `echoInput`. -/
def echoPass (c : Conn) : Except Fault (Conn × Option EchoState) :=
  if c.itr = c.eoD then .ok (c, some (if c.itr = c.eoM then .eoM else .eoD))
  else if c.output.restsize = 0 then .ok (c, some .bufferFull)
  else do
    let ch ← c.input.get c.itr
    let c := (c.print ch).2
    return ({ c with itr := c.itr + 1 }, none)

/-- `echoInput`: print the input up to the end of the data. Every pass but the last one uses up room
in the output. -/
def echoInput (c : Conn) : Except Fault (Conn × EchoState) :=
  (forEver echoPass (c.output.restsize + 1) c).getD (.error .endless)

/-- `networkInput` on the bytes that have been read to the front of the input block. -/
def networkInput (c : Conn) (data : List Byte) : Conn :=
  let received : InputBlock := { c.input with bytes := Block.store c.input.bytes 0 data }
  let input := received.setPos data.length
  if c.state = .processing ∨ c.state = .startProcessing then
    let (eoD, input) := input.getEoD 0
    { c with input := input, itr := 0, eoD := eoD, eoM := input.pos }
  else { c with input := input, itr := 0, eoD := input.pos, eoM := input.pos }

/-- `signalTerminate` -/
def signalTerminate (c : Conn) : Conn := { c with state := .terminate }

/-- `input.setPos( 0); return Network::ReadData( input.ptr(), input.size());` -/
def readMore (c : Conn) : Conn × Option Operation :=
  ({ c with input := c.input.setPos 0 }, some (.read 0 c.input.size 0))

/-- `state = next; return WriteLine( str);` -/
def reply (c : Conn) (next : State) (str : List Byte) : Except Fault (Conn × Option Operation) := do
  let (c, op) ← writeLine { c with state := next } str
  return (c, some op)

/-- `case EnterCommand` -/
def passEnterCommand (c : Conn) : Except Fault (Conn × Option Operation) := do
  let (cmd, itr, cmdBuffer) ← commandParser.getCommand c.input.get c.itr c.eoM c.cmdBuffer
  let c := { c with itr := itr, cmdBuffer := cmdBuffer }
  match Command.ofIndex cmd with
  | some .empty => return ({ c with state := .emptyLine }, none)
  | some .caps => c.reply .enterCommand (text "OK caps echo[tolower|toupper] quit")
  | some .echo => return ({ c with state := .enterMode }, none)
  | some .quit => c.reply .terminate (text "BYE")
  | none =>
      if c.itr = c.eoM then return c.readMore
      else c.reply .handleError (text "BAD unknown command")

/-- `case EmptyLine` -/
def passEmptyLine (c : Conn) : Except Fault (Conn × Option Operation) := do
  let (more, itr) ← skipSpaces c.input.get c.itr c.eoM
  let c := { c with itr := itr }
  if !more then return c.readMore
  let (consumed, itr) ← consumeEOLN c.input.get c.itr c.eoM
  let c := { c with itr := itr }
  if !consumed then
    if c.itr = c.eoM then return c.readMore
    else reply { c with buffer := c.buffer.init } .init (text "BAD command line")
  else return ({ c with state := .enterCommand }, none)

/-- `case EnterMode` -/
def passEnterMode (c : Conn) : Except Fault (Conn × Option Operation) := do
  let (more, itr) ← skipSpaces c.input.get c.itr c.eoM
  let c := { c with itr := itr }
  if !more then return c.readMore
  let (cmd, itr, cmdBuffer) ← modeParser.getCommand c.input.get c.itr c.eoM c.cmdBuffer
  let c := { c with itr := itr, cmdBuffer := cmdBuffer }
  match Mode.ofIndex cmd with
  | some mode => return ({ c with mode := mode, state := .startProcessing }, none)
  | none =>
      if c.itr = c.eoM then return c.readMore
      else c.reply .handleError (text "BAD unknown command argument")

/-- `case StartProcessing` -/
def passStartProcessing (c : Conn) : Except Fault (Conn × Option Operation) := do
  let c := { c with input := c.input.resetEoD }
  let (more, itr) ← skipSpaces c.input.get c.itr c.eoM
  let c := { c with itr := itr }
  if !more then return c.readMore
  if !(← isEOLN c.input.get c.itr) then c.reply .init (text "BAD too many arguments")
  else
    let (eoD, input) := c.input.getEoD c.itr
    reply { c with input := input, eoD := eoD, eoM := input.pos } .processing (text "OK enter data")

/-- `case Processing` -/
def passProcessing (c : Conn) : Except Fault (Conn × Option Operation) := do
  let (c, echoState) ← c.echoInput
  if echoState = .eoM then return c.readMore
  let c :=
    if echoState = .eoD then { c with input := c.input.resetEoD, state := .init }
    else { c with state := .processingAfterWrite }
  if c.output.pos = 0 then return (c, none)
  return (c, some (.write c.output.content 0))

/-- `case HandleError` -/
def passHandleError (c : Conn) : Except Fault (Conn × Option Operation) := do
  let (more, itr) ← skipLine c.input.get c.itr c.eoM
  let c := { c with itr := itr }
  if !more then return c.readMore
  let (consumed, itr) ← consumeEOLN c.input.get c.itr c.eoM
  let c := { c with itr := itr }
  if !consumed then return c.readMore
  return ({ c with state := .init }, none)

/-- One pass of the loop of `nextOperation`. -/
def pass (c : Conn) : Except Fault (Conn × Option Operation) :=
  match c.state with
  | .init => reply { c with mode := .ident } .enterCommand (text "OK expecting command")
  | .enterCommand => c.passEnterCommand
  | .emptyLine => c.passEmptyLine
  | .enterMode => c.passEnterMode
  | .startProcessing => c.passStartProcessing
  | .processingAfterWrite =>
      .ok ({ c with state := .processing, output := c.output.release }, none)
  | .processing => c.passProcessing
  | .handleError => c.passHandleError
  | .terminate => .ok (c, some .close)

/-- A bound on the passes of one call. -/
def passBound (c : Conn) : Nat := 16 * (c.input.size + 1)

/-- `nextOperation` -/
def nextOperation (c : Conn) : Except Fault (Conn × Operation) :=
  (forEver pass c.passBound c).getD (.error .endless)

end Conn

end Smerp.Pecho
