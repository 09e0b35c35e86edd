import Smerp.Lib.Runs
import Smerp.Mtproc.Dispatcher
import Smerp.Network.ConnectionBase

/-!
# The method table handler

The state machine of `examples/mtproc/mtprocHandler.cpp`. `pass` is one pass of the `for (;;)` loop
of `nextOperation`. The command buffer of the processor is left out, since nothing uses it.
-/

namespace Smerp.Mtproc

open Lib Protocol Network

/-- The processor states. -/
inductive State where
  | init
  | enterCommand
  | emptyLine
  | processingAfterWrite
  | processing
  | protocolError
  | discardInput
  | commandOk
  | terminate
  deriving DecidableEq, Repr

/-- The state variables of the processor. -/
structure Conn (δ γ : Type) where
  state : State
  commandDispatcher : CommandDispatcher δ γ
  buffer : Buffer 128
  input : InputBlock
  output : OutputBlock
  itr : Nat
  eoM : Nat
  gotEoD : Bool
  deriving DecidableEq, Repr

/-- The method table and the generators, and the memory behind the line buffer of the processor,
which `WriteLine` sends when a line is too long. -/
structure World (δ γ : Type) where
  mt : List (Method δ γ)
  generator : Generator γ
  behind : List Byte

variable {δ γ : Type}

/-- The constructor, over uninitialised memory for the three buffers. -/
def Conn.new (dispatcher : CommandDispatcher δ γ) (inputMemory outputMemory : List Byte)
    (line : Buffer 128) : Conn δ γ where
  state := .init
  commandDispatcher := dispatcher
  buffer := line
  input := .new inputMemory
  output := .new outputMemory
  itr := 0
  eoM := 0
  gotEoD := false

namespace Conn

variable (W : World δ γ)

/-- The characters that `WriteLine` sends are counted from the start of the last string. -/
def lineLength (str : List Byte) : Option (List Byte) → Nat
  | none => str.length + 2
  | some arg => arg.length + 2

/-- `WriteLine`: send the string, an argument and a line end from the line buffer. -/
def writeLine (c : Conn δ γ) (str : List Byte) (arg : Option (List Byte)) : Conn δ γ × Operation :=
  let line := str ++ arg.elim [] (fun arg ↦ SPACE :: arg) ++ CRLF
  let buffer := (line.foldl Buffer.pushBack c.buffer.init).cStr
  ({ c with buffer := buffer.init },
    .write ((buffer.memory ++ W.behind).take (lineLength str arg)) 0)

/-- `networkInput` on the bytes that have been read to the front of the input block. -/
def networkInput (c : Conn δ γ) (data : List Byte) : Except Failure (Conn δ γ) :=
  let received : InputBlock := { c.input with bytes := Block.store c.input.bytes 0 data }
  let input := received.setPos data.length
  if c.state = .processing then do
    let (eoD, input) := input.getEoD 0
    let gotEoD := decide (eoD < input.pos)
    let d := if gotEoD then c.commandDispatcher.setEoD W.generator else c.commandDispatcher
    -- the generator gets the data in front of the mark, or the whole block
    let d ← d.protocolInput W.generator input 0 eoD
    return { c with
      commandDispatcher := d
      input := input
      itr := eoD + 1
      eoM := input.pos
      gotEoD := gotEoD }
  else if c.state = .discardInput then
    let (eoD, input) := input.getEoD 0
    let gotEoD := decide (eoD < input.pos)
    .ok { c with
      input := input
      itr := if gotEoD then eoD + 1 else input.pos
      eoM := input.pos
      gotEoD := gotEoD }
  else .ok { c with input := input, itr := 0, eoM := input.pos }

/-- `signalTerminate` -/
def signalTerminate (c : Conn δ γ) : Conn δ γ := { c with state := .terminate }

/-- `input.setPos( 0); return Network::ReadData( input.ptr(), input.size());` -/
def readMore (c : Conn δ γ) : Conn δ γ × Option Operation :=
  ({ c with input := c.input.setPos 0 }, some (.read 0 c.input.size 0))

/-- `state = next; return WriteLine( str, arg);` -/
def reply (c : Conn δ γ) (next : State) (str : List Byte) (arg : Option (List Byte)) :
    Conn δ γ × Option Operation :=
  let (c, op) := writeLine W { c with state := next } str arg
  (c, some op)

/-- The output block is sent if it is not empty. -/
def sendOutput (c : Conn δ γ) : Conn δ γ × Option Operation :=
  if c.output.pos = 0 then (c, none) else (c, some (.write c.output.content 0))

/-- `case EnterCommand` -/
def passEnterCommand (c : Conn δ γ) : Except Failure (Conn δ γ × Option Operation) := do
  let (cmd, itr, d) ← c.commandDispatcher.getCommand c.input.get c.itr c.eoM
  let c := { c with itr := itr, commandDispatcher := d }
  match cmd with
  | .empty => return ({ c with state := .emptyLine }, none)
  | .caps =>
      let (caps, d) := c.commandDispatcher.getCaps W.mt
      return reply W { c with commandDispatcher := d } .emptyLine (text "OK") (some caps)
  | .quit => return c.reply W .terminate (text "BYE") none
  | .method =>
      return ({ c with gotEoD := false, input := c.input.resetEoD, state := .processing }, none)
  | .unknown =>
      -- a cut command and a cut argument line both end here
      if c.itr = c.eoM then return c.readMore
      else return c.reply W .protocolError (text "BAD unknown command") none

/-- `case EmptyLine` -/
def passEmptyLine (c : Conn δ γ) : Except Failure (Conn δ γ × Option Operation) := do
  let (more, itr) ← orFault (skipSpaces c.input.get c.itr c.eoM)
  let c := { c with itr := itr }
  if !more then return c.readMore
  let (consumed, itr) ← orFault (consumeEOLN c.input.get c.itr c.eoM)
  let c := { c with itr := itr }
  if !consumed then
    if c.itr = c.eoM then return c.readMore
    else return reply W { c with buffer := c.buffer.init } .init (text "BAD command line") none
  else return ({ c with state := .enterCommand }, none)

/-- `case Processing` -/
def passProcessing (c : Conn δ γ) : Except Failure (Conn δ γ × Option Operation) := do
  let (ioState, returnCode, d) ← c.commandDispatcher.call W.mt W.generator
  let c := { c with commandDispatcher := d }
  match ioState with
  | .readInput => return c.readMore
  | .writeOutput => return sendOutput { c with state := .processingAfterWrite }
  | .close =>
      if returnCode ≠ 0 then
        return c.reply W .discardInput (text "\r\n.\r\nERR") (some (text (toString returnCode)))
      else return sendOutput { c with state := .commandOk }

/-- `case DiscardInput` -/
def passDiscardInput (c : Conn δ γ) : Conn δ γ × Option Operation :=
  if c.gotEoD then ({ c with state := .init, input := c.input.resetEoD, gotEoD := false }, none)
  else c.readMore

/-- `case ProtocolError` -/
def passProtocolError (c : Conn δ γ) : Except Failure (Conn δ γ × Option Operation) := do
  let (more, itr) ← orFault (skipLine c.input.get c.itr c.eoM)
  let c := { c with itr := itr }
  if !more then return c.readMore
  let (consumed, itr) ← orFault (consumeEOLN c.input.get c.itr c.eoM)
  let c := { c with itr := itr }
  if !consumed then return c.readMore
  return ({ c with state := .init }, none)

/-- One pass of the loop of `nextOperation`. -/
def pass (c : Conn δ γ) : Except Failure (Conn δ γ × Option Operation) :=
  match c.state with
  | .init => .ok (c.reply W .enterCommand (text "OK expecting command") none)
  | .enterCommand => c.passEnterCommand W
  | .emptyLine => c.passEmptyLine W
  | .processingAfterWrite =>
      .ok ({ c with state := .processing, output := c.output.release }, none)
  | .processing => c.passProcessing W
  | .commandOk =>
      .ok (c.reply W (if c.gotEoD then .init else .discardInput) (text "\r\n.\r\nOK") none)
  | .discardInput => .ok c.passDiscardInput
  | .protocolError => c.passProtocolError
  | .terminate => .ok (c, some .close)

/-- A bound on the passes of one call. -/
def passBound (c : Conn δ γ) : Nat := 16 * (c.input.size + 1)

/-- `nextOperation` -/
def nextOperation (c : Conn δ γ) : Except Failure (Conn δ γ × Operation) :=
  (forEver (pass W) c.passBound c).getD (.error (.fault .endless))

end Conn

/-! ## Sessions -/

/-- A handler, the size of the `READ` in flight, and what ended the session: an exception or a
fault. -/
structure Session (δ γ : Type) where
  conn : Conn δ γ
  pending : Option Nat
  failed : Option Failure
  deriving DecidableEq, Repr

/-- What can happen to a handler: `nextOperation` is called, a `READ` is answered, and a timeout, a
signal or an error is reported. -/
inductive Action where
  | call
  | input (data : List Byte)
  | terminate
  deriving DecidableEq, Repr

namespace Session

variable (W : World δ γ)

/-- A new connection. -/
def start (c : Conn δ γ) : Session δ γ := ⟨c, none, none⟩

/-- The session after an action; nothing happens any more behind an exception. -/
def act (s : Session δ γ) (action : Action) : Session δ γ :=
  match s.failed, action with
  | some _, _ => s
  | none, .call =>
      match s.conn.nextOperation W with
      | .error failure => { s with failed := some failure }
      | .ok (c, .read _ size _) => { s with conn := c, pending := some size }
      | .ok (c, _) => { s with conn := c }
  | none, .input data =>
      match s.conn.networkInput W data with
      | .error failure => { s with failed := some failure }
      | .ok c => { s with conn := c, pending := none }
  | none, .terminate => { s with conn := s.conn.signalTerminate }

/-- `nextOperation` is called when no `READ` is in flight, or when the session is to be terminated.
A `READ` is answered by at most the requested number of bytes. -/
def Possible (s : Session δ γ) : Action → Prop
  | .call => s.pending = none ∨ s.conn.state = .terminate
  | .input data => ∃ size ∈ s.pending, data.length ≤ size
  | .terminate => True

instance (s : Session δ γ) (action : Action) : Decidable (s.Possible action) := by
  cases action <;> simp only [Possible] <;> infer_instance

end Session

end Smerp.Mtproc
