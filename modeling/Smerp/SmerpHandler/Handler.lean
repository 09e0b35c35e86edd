import Smerp.Lib.Runs
import Smerp.Network.ConnectionBase

/-!
# The handler of the server

`smerpConnection` of `src/smerpHandler.cpp`: it welcomes the client and echoes line by line. The
read buffer keeps old bytes, lines are consumed by moving a start pointer, and the rest of the
buffer is moved to its front before more is read. A pointer into the read buffer is its offset.
-/

namespace Smerp.SmerpHandler

open Lib Network

/-- `ReadBufSize` -/
def readBufSize : Nat := 8192

/-- The states of the processor. -/
inductive State where
  | new
  | helloSent
  | readInput
  | outputMsg
  | timeout
  | signalled
  | terminate
  | finished
  deriving DecidableEq, Repr

/-- The state variables of the processor. `dataStart_` is `NULL` until the first input is read, and
nothing looks at it before. -/
structure Conn where
  state : State
  readBuf : List Byte
  dataStart : Nat
  dataSize : Nat
  idleTimeout : Nat
  outMsg : List Byte
  deriving DecidableEq, Repr

/-- The constructor, over uninitialised memory. -/
def Conn.new (readBuf : List Byte) : Conn where
  state := .new
  readBuf := readBuf
  dataStart := 0
  dataSize := 0
  idleTimeout := 30
  outMsg := []

/-- `"Welcome to SMERP.\n"` -/
def welcome : List Byte := text "Welcome to SMERP.\n"
/-- `"Thanks for using SMERP.\n"` -/
def thanks : List Byte := text "Thanks for using SMERP.\n"
/-- `"Line too long. Bye.\n"` -/
def lineTooLong : List Byte := text "Line too long. Bye.\n"

/-- The position behind the first line feed among so many bytes. -/
def findLineEnd (buf : List Byte) : Nat → Nat → Option Nat
  | _, 0 => none
  | pos, count + 1 => if buf[pos]? =
      some LF then some (pos + 1) else findLineEnd buf (pos + 1) count

namespace Conn

/-- `!strncmp( "quit", dataStart_, 4 )`: four bytes are compared, whatever `dataSize_` is. They can
lie behind the read buffer, so what the memory holds there is an argument. -/
def readsQuit (c : Conn) (behind : List Byte) : Prop :=
  Block.slice (c.readBuf ++ behind) c.dataStart 4 = text "quit"

instance (c : Conn) (behind : List Byte) : Decidable (c.readsQuit behind) :=
  inferInstanceAs (Decidable (_ = _))

/-- `case OUTPUT_MSG` -/
def outputMsg (c : Conn) (behind : List Byte) : Conn × Operation :=
  if c.readsQuit behind then ({ c with state := .terminate }, .write thanks 0)
  else match findLineEnd c.readBuf c.dataStart c.dataSize with
    | some s =>
        let outMsg := Block.slice c.readBuf c.dataStart (s - c.dataStart)
        ({ c with
            outMsg := outMsg
            dataSize := c.dataSize - (s - c.dataStart)
            dataStart := s
            state := .outputMsg }, .write outMsg 0)
    | none =>
        if c.dataSize ≥ readBufSize then ({ c with state := .terminate }, .write lineTooLong 0)
        else
          ({ c with
              readBuf := Block.memmove c.readBuf 0 c.dataStart c.dataSize
              state := .readInput },
            .read c.dataSize (readBufSize - c.dataSize) c.idleTimeout)

/-- `nextOperation` -/
def nextOperation (c : Conn) (behind : List Byte) : Conn × Operation :=
  match c.state with
  | .new => ({ c with state := .helloSent }, .write welcome 0)
  | .helloSent => ({ c with state := .readInput }, .read 0 readBufSize c.idleTimeout)
  -- `case READ_INPUT` continues with `case OUTPUT_MSG`
  | .readInput => outputMsg { c with dataStart := 0 } behind
  | .outputMsg => outputMsg c behind
  | .timeout => ({ c with state := .terminate }, .write (text "Timeout. :P\n") 0)
  | .signalled => ({ c with state := .terminate }, .write (text "Server is shutting down. :P\n") 0)
  | .terminate => ({ c with state := .finished }, .close)
  | .finished => (c, .close)

/-- The bytes that the network has read to an offset of the read buffer. -/
def filled (c : Conn) (offset : Nat) (data : List Byte) : Conn :=
  { c with readBuf := Block.store c.readBuf offset data }

/-- `networkInput` -/
def networkInput (c : Conn) (bytesTransferred : Nat) : Conn :=
  { c with dataSize := c.dataSize + bytesTransferred }

/-- `timeoutOccured` -/
def timeoutOccured (c : Conn) : Conn := { c with state := .timeout }

/-- `signalOccured` -/
def signalOccured (c : Conn) : Conn := { c with state := .signalled }

/-- `errorOccured` -/
def errorOccured (c : Conn) (_signal : NetworkSignal) : Conn := { c with state := .terminate }

end Conn

/-! ## Sessions -/

/-- A message, with the state it leaves the processor in. -/
structure Sent where
  state : State
  message : List Byte
  deriving DecidableEq, Repr

/-- What a call that ended in the state `next` has sent. -/
def sentBy (next : Conn) : Operation → List Sent
  | .write data _ => [⟨next.state, data⟩]
  | _ => []

/-- A handler, the offset and the size of the `READ` in flight, all that was received and sent so
far, and whether the connection was closed. -/
structure Session where
  conn : Conn
  pending : Option (Nat × Nat)
  received : List Byte
  sent : List Sent
  closed : Bool
  deriving DecidableEq, Repr

/-- What can happen to a handler. A call finds the memory behind the read buffer in any state. -/
inductive Action where
  | call (behind : List Byte)
  | input (data : List Byte)
  | timeout
  | signal
  | error (signal : NetworkSignal)
  deriving DecidableEq, Repr

namespace Session

/-- A new connection. -/
def start (c : Conn) : Session := ⟨c, none, [], [], false⟩

/-- The session after a call that returned an operation. -/
def after (s : Session) (next : Conn) (op : Operation) : Session where
  conn := next
  pending := match op with
    | .read offset size _ => some (offset, size)
    | _ => s.pending
  received := s.received
  sent := s.sent ++ sentBy next op
  closed := s.closed || decide (op = .close)

/-- The session after a call of `nextOperation`. -/
def called (s : Session) (behind : List Byte) : Session :=
  s.after (s.conn.nextOperation behind).1 (s.conn.nextOperation behind).2

/-- The session after a `READ` was answered. -/
def fed (s : Session) (data : List Byte) : Session :=
  match s.pending with
  | none => s
  | some (offset, _) =>
      { s with
        conn := (s.conn.filled offset data).networkInput data.length
        pending := none
        received := s.received ++ data }

/-- The session after an action. -/
def act (s : Session) : Action → Session
  | .call behind => s.called behind
  | .input data => s.fed data
  | .timeout => { s with conn := s.conn.timeoutOccured }
  | .signal => { s with conn := s.conn.signalOccured }
  | .error signal => { s with conn := s.conn.errorOccured signal }

/-- The actions without timeouts, signals and errors: `nextOperation` is called, and a `READ` is
answered by at most the requested number of bytes. -/
def Undisturbed (s : Session) : Action → Prop
  | .call _ => True
  | .input data => ∃ request ∈ s.pending, data.length ≤ request.2
  | _ => False

instance (s : Session) (action : Action) : Decidable (s.Undisturbed action) := by
  cases action <;> simp only [Undisturbed] <;> infer_instance

/-- The messages sent so far. -/
def messages (s : Session) : List (List Byte) := s.sent.map Sent.message

/-- The values of `outMsg_` sent so far. -/
def echoed (s : Session) : List (List Byte) :=
  (s.sent.filter fun sent ↦ sent.state = .outputMsg).map Sent.message

end Session

end Smerp.SmerpHandler
