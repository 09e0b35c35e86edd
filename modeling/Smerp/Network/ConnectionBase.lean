import Smerp.Lib.Runs
import Smerp.Protocol.IoBlocks

/-!
# The connection

What a handler tells the network layer to do next, after `include/connectionHandler.hpp`, and
`connectionBase` of `src/connectionBase.hpp`: it checks and starts the operations that its handler
returns, and hands their completions, the expiry of the timer and the signals of the server to the
handler. The strand runs these one after the other, in any order. The operations of the system are
not part of the repository: the model keeps what is in flight, and takes any completion.
-/

namespace Smerp.Network

open Lib Protocol

/-! ## Operations -/

/-- A network operation. A `READ` fills the handler's input buffer from `offset` on with at most
`size` bytes. A `WRITE` sends the bytes that the handler's pointer and size denote. -/
inductive Operation where
  | read (offset size timeout : Nat)
  | write (data : List Byte) (timeout : Nat)
  | close
  deriving DecidableEq, Repr

/-- The signals of `errorOccured`. -/
inductive NetworkSignal where
  | endOfFile
  | operationCancelled
  | brokenPipe
  | unknownError
  deriving DecidableEq, Repr

/-- `connectionBase::nextOperation` aborts the server on a `READ` or `WRITE` of no bytes. -/
def Operation.Accepted : Operation → Prop
  | .read _ size _ => 1 ≤ size
  | .write data _ => 1 ≤ data.length
  | .close => True

instance (op : Operation) : Decidable op.Accepted := by
  cases op <;> simp only [Operation.Accepted] <;> infer_instance

/-- The operation waits for input. -/
def Operation.isRead : Operation → Bool
  | .read .. => true
  | _ => false

/-- The bytes that an operation sends. -/
def Operation.sent : Operation → List Byte
  | .write data _ => data
  | _ => []

/-! ## Handlers -/

/-- The codes that `signalError` tells apart. -/
inductive ErrorCode where
  | eof
  | operationAborted
  | brokenPipe
  | other (value : Int)
  deriving DecidableEq, Repr

/-- The translation of `signalError`. -/
def ErrorCode.signal : ErrorCode → NetworkSignal
  | .eof => .endOfFile
  | .operationAborted => .operationCancelled
  | .brokenPipe => .brokenPipe
  | .other _ => .unknownError

/-- The methods of `connectionHandler`, and the bytes that the network writes to an offset of its
input buffer. What else a call of `nextOperation` reads from memory is an argument. -/
structure ConnectionHandler (χ μ : Type) where
  nextOperation : χ → μ → χ × Operation
  networkInput : χ → Option Nat → Nat → χ
  timeoutOccured : χ → χ
  signalOccured : χ → χ
  errorOccured : χ → NetworkSignal → χ
  filled : χ → Nat → List Byte → χ

/-! ## Connections -/

/-- `connectionBase`, and what the system has in flight for it: the `READ`s with offset and size,
the `WRITE`s, whether a wait of the timer is pending, the waits that have run out but whose handler
has not run yet, the waits that were cancelled in time, and the signals on the strand. `operations`
are all operations that were returned to it. -/
structure ConnectionBase (χ : Type) where
  handler : χ
  readBuffer : Option Nat
  reads : List (Nat × Nat)
  writes : List (List Byte)
  waiting : Bool
  expired : Nat
  cancelled : Nat
  signals : Nat
  isOpen : Bool
  registered : Bool
  aborted : Bool
  operations : List Operation
  deriving DecidableEq, Repr

/-- What can happen to a connection, with the memory that the handler finds meanwhile. Of several
operations in flight any one may complete. -/
inductive ConnectionAction (μ : Type) where
  | handleRead (index : Nat) (result : Except ErrorCode (List Byte)) (memory : μ)
  | handleWrite (index : Nat) (error : Option ErrorCode) (memory : μ)
  | expire
  | handleTimeout (memory : μ)
  | handleTimeoutAborted
  | signal
  | handleSignal (memory : μ)

namespace ConnectionBase

variable {χ μ : Type} (H : ConnectionHandler χ μ)

/-- An accepted connection whose handler is in this state. -/
def new (handler : χ) : ConnectionBase χ where
  handler := handler
  readBuffer := none
  reads := []
  writes := []
  waiting := false
  expired := 0
  cancelled := 0
  signals := 0
  isOpen := true
  registered := true
  aborted := false
  operations := []

/-- `timer_.cancel()`. The handler of a wait that has run out is not held up. -/
def cancel (b : ConnectionBase χ) : ConnectionBase χ :=
  { b with waiting := false, cancelled := if b.waiting then b.cancelled + 1 else b.cancelled }

/-- `setTimeout` -/
def setTimeout (b : ConnectionBase χ) (timeout : Nat) : ConnectionBase χ :=
  if timeout = 0 then b.cancel else { b.cancel with waiting := true }

/-- The switch of `nextOperation`. -/
def perform (b : ConnectionBase χ) : Operation → ConnectionBase χ
  | .read offset size timeout =>
      if size = 0 then { b with aborted := true }
      else
        let b := if timeout > 0 then b.setTimeout timeout else b
        { b with readBuffer := some offset, reads := b.reads ++ [(offset, size)] }
  | .write data timeout =>
      if data.length = 0 then { b with aborted := true }
      else
        let b := if timeout > 0 then b.setTimeout timeout else b
        { b with writes := b.writes ++ [data] }
  | .close => { b.setTimeout 0 with isOpen := false, registered := false }

/-- `nextOperation` -/
def nextOperation (b : ConnectionBase χ) (memory : μ) : ConnectionBase χ :=
  let netOp := H.nextOperation b.handler memory
  perform { b with handler := netOp.1, operations := b.operations ++ [netOp.2] } netOp.2

/-- `signalError` -/
def signalError (b : ConnectionBase χ) (e : ErrorCode) : ConnectionBase χ :=
  { b with handler := H.errorOccured b.handler e.signal }

/-- `handleRead`, for one of the `READ`s in flight. -/
def handleRead (b : ConnectionBase χ) (index : Nat) (result : Except ErrorCode (List Byte))
    (memory : μ) :
    ConnectionBase χ :=
  match b.reads[index]? with
  | none => b
  | some (offset, _) =>
      let b := { b with reads := b.reads.eraseIdx index }.setTimeout 0
      match result with
      | .ok data =>
          nextOperation H
            { b with
              handler :=
                H.networkInput (H.filled b.handler offset data) b.readBuffer data.length } memory
      | .error e => nextOperation H (b.signalError H e) memory

/-- `handleWrite`, for one of the `WRITE`s in flight. -/
def handleWrite (b : ConnectionBase χ) (index : Nat) (error : Option ErrorCode) (memory : μ) :
    ConnectionBase χ :=
  let b := { b with writes := b.writes.eraseIdx index }.setTimeout 0
  match error with
  | none => nextOperation H b memory
  | some e => nextOperation H (b.signalError H e) memory

/-- `handleTimeout`, for a wait that has run out. -/
def handleTimeout (b : ConnectionBase χ) (memory : μ) : ConnectionBase χ :=
  nextOperation H { b with expired := b.expired - 1, handler := H.timeoutOccured b.handler } memory

/-- `handleSignal` -/
def handleSignal (b : ConnectionBase χ) (memory : μ) : ConnectionBase χ :=
  nextOperation H { b with signals := b.signals - 1, handler := H.signalOccured b.handler } memory

/-- The connection after an action; nothing happens any more behind `abort()`. -/
def act (b : ConnectionBase χ) (action : ConnectionAction μ) : ConnectionBase χ :=
  if b.aborted then b
  else match action with
    | .handleRead index result memory => b.handleRead H index result memory
    | .handleWrite index error memory => b.handleWrite H index error memory
    | .expire => { b with waiting := false, expired := b.expired + 1 }
    | .handleTimeout memory => b.handleTimeout H memory
    | .handleTimeoutAborted => { b with cancelled := b.cancelled - 1 }
    | .signal => { b with signals := b.signals + 1 }
    | .handleSignal memory => b.handleSignal H memory

/-- The actions that can happen: the operation is in flight, the wait is pending, has run out or was
cancelled, the signal is on the strand. A `READ` brings at most as many bytes as it asked for. -/
def Possible (b : ConnectionBase χ) : ConnectionAction μ → Prop
  | .handleRead index result _ =>
      ∃ request ∈ b.reads[index]?, ∀ data, result = .ok data → data.length ≤ request.2
  | .handleWrite index _ _ => index < b.writes.length
  | .expire => b.waiting = true
  | .handleTimeout _ => 0 < b.expired
  | .handleTimeoutAborted => 0 < b.cancelled
  | .signal => True
  | .handleSignal _ => 0 < b.signals

/-- An accepted connection is registered, and its first operation is started. -/
def start (handler : χ) (memory : μ) : ConnectionBase χ := (new handler).nextOperation H memory

/-! ## What a step changes -/

/-- Everything but the timer and the signals is the same in both connections. -/
structure Same (b b' : ConnectionBase χ) : Prop where
  handler : b'.handler = b.handler
  reads : b'.reads = b.reads
  writes : b'.writes = b.writes
  isOpen : b'.isOpen = b.isOpen
  aborted : b'.aborted = b.aborted
  operations : b'.operations = b.operations

/-- The timer changes nothing else. -/
theorem set_timeout_same (b : ConnectionBase χ) (timeout : Nat) :
    Same b (b.setTimeout timeout) := by
  unfold setTimeout
  split <;> exact ⟨rfl, rfl, rfl, rfl, rfl, rfl⟩

/-- What an operation does that is accepted. -/
structure Performed (b : ConnectionBase χ) (op : Operation) (b' : ConnectionBase χ) : Prop where
  handler : b'.handler = b.handler
  reads : b'.reads.length = b.reads.length + if op.isRead then 1 else 0
  writes : b'.writes.length = b.writes.length + if op.sent = [] then 0 else 1
  isOpen : b'.isOpen = (b.isOpen && op ≠ .close)
  aborted : b'.aborted = b.aborted
  operations : b'.operations = b.operations

/-- An accepted operation is started. -/
theorem perform_performed (b : ConnectionBase χ) {op : Operation} (haccepted : op.Accepted) :
    Performed b op (b.perform op) := by
  have htimer (timeout : Nat) : Same b (if timeout > 0 then b.setTimeout timeout else b) := by
    split
    · exact set_timeout_same b timeout
    · exact ⟨rfl, rfl, rfl, rfl, rfl, rfl⟩
  cases op with
  | read offset size timeout =>
      obtain ⟨hhandler, hreads, hwrites, hopen, haborted, hoperations⟩ := htimer timeout
      have hsize : size ≠ 0 := Nat.ne_of_gt haccepted
      rw [perform, if_neg hsize]
      refine ⟨hhandler, ?_, ?_, ?_, haborted, hoperations⟩
      · simp [hreads, Operation.isRead]
      · simp [hwrites, Operation.sent]
      · simp [hopen]
  | write data timeout =>
      obtain ⟨hhandler, hreads, hwrites, hopen, haborted, hoperations⟩ := htimer timeout
      have hsize : data.length ≠ 0 := Nat.ne_of_gt haccepted
      have hdata : data ≠ [] := List.length_pos_iff.mp haccepted
      rw [perform, if_neg hsize]
      refine ⟨hhandler, ?_, ?_, ?_, haborted, hoperations⟩
      · simp [hreads, Operation.isRead]
      · simp [hwrites, Operation.sent, hdata]
      · simp [hopen]
  | close =>
      obtain ⟨hhandler, hreads, hwrites, hopen, haborted, hoperations⟩ := set_timeout_same b 0
      unfold perform
      refine ⟨hhandler, ?_, ?_, ?_, haborted, hoperations⟩
      · simp [hreads, Operation.isRead]
      · simp [hwrites, Operation.sent]
      · simp

/-- The connection `front`, in which so many of the operations in flight have completed. -/
structure Completed (b : ConnectionBase χ) (reads writes : Nat) (front : ConnectionBase χ) :
    Prop where
  reads : front.reads.length + reads = b.reads.length
  writes : front.writes.length + writes = b.writes.length
  isOpen : front.isOpen = b.isOpen
  aborted : front.aborted = b.aborted
  operations : front.operations = b.operations

variable {H} {b : ConnectionBase χ}

/-- A read that completes hands its bytes or its error to the handler, and continues. -/
theorem act_handle_read (hrunning : b.aborted = false) {index : Nat}
    {result : Except ErrorCode (List Byte)} {memory : μ}
    (hpossible : b.Possible (.handleRead index result memory)) :
    ∃ front, b.act H (.handleRead index result memory) = front.nextOperation H memory ∧
      Completed b 1 0 front ∧
      ((∃ offset data, front.handler =
          H.networkInput (H.filled b.handler offset data) b.readBuffer data.length) ∨
        ∃ e : ErrorCode, front.handler = H.errorOccured b.handler e.signal) := by
  obtain ⟨⟨offset, size⟩, hrequest, -⟩ := hpossible
  obtain ⟨hindex, -⟩ := List.getElem?_eq_some_iff.mp hrequest
  have hreads : (b.reads.eraseIdx index).length + 1 = b.reads.length := by
    rw [List.length_eraseIdx_of_lt hindex]
    omega
  have hact : b.act H (.handleRead index result memory) = b.handleRead H index result memory := by
    rw [act, hrunning, if_neg Bool.false_ne_true]
  rw [hact, handleRead, hrequest]
  cases result with
  | ok data => exact ⟨_, rfl, ⟨hreads, rfl, rfl, rfl, rfl⟩, .inl ⟨offset, data, rfl⟩⟩
  | error e => exact ⟨_, rfl, ⟨hreads, rfl, rfl, rfl, rfl⟩, .inr ⟨e, rfl⟩⟩

/-- A write that completes hands its error to the handler, and continues. -/
theorem act_handle_write (hrunning : b.aborted = false) {index : Nat} {error : Option ErrorCode}
    {memory : μ} (hpossible : b.Possible (.handleWrite index error memory)) :
    ∃ front, b.act H (.handleWrite index error memory) = front.nextOperation H memory ∧
      Completed b 0 1 front ∧
      (front.handler = b.handler ∨ ∃ e : ErrorCode, front.handler =
        H.errorOccured b.handler e.signal) := by
  have hwrites : (b.writes.eraseIdx index).length + 1 = b.writes.length := by
    rw [List.length_eraseIdx_of_lt hpossible]
    exact Nat.sub_add_cancel (Nat.zero_lt_of_lt hpossible)
  have hact : b.act H (.handleWrite index error memory) = b.handleWrite H index error memory := by
    rw [act, hrunning, if_neg Bool.false_ne_true]
  rw [hact]
  unfold handleWrite
  cases error with
  | none => exact ⟨_, rfl, ⟨rfl, hwrites, rfl, rfl, rfl⟩, .inl rfl⟩
  | some e => exact ⟨_, rfl, ⟨rfl, hwrites, rfl, rfl, rfl⟩, .inr ⟨e, rfl⟩⟩

/-- A timeout is told to the handler, whatever is in flight. -/
theorem act_handle_timeout (hrunning : b.aborted = false) (memory : μ) :
    ∃ front, b.act H (.handleTimeout memory) = front.nextOperation H memory ∧
      Completed b 0 0 front ∧ front.handler = H.timeoutOccured b.handler := by
  have hact : b.act H (.handleTimeout memory) = b.handleTimeout H memory := by
    rw [act, hrunning, if_neg Bool.false_ne_true]
  rw [hact, handleTimeout]
  exact ⟨_, rfl, ⟨rfl, rfl, rfl, rfl, rfl⟩, rfl⟩

/-- A signal is told to the handler, whatever is in flight. -/
theorem act_handle_signal (hrunning : b.aborted = false) (memory : μ) :
    ∃ front, b.act H (.handleSignal memory) = front.nextOperation H memory ∧
      Completed b 0 0 front ∧ front.handler = H.signalOccured b.handler := by
  have hact : b.act H (.handleSignal memory) = b.handleSignal H memory := by
    rw [act, hrunning, if_neg Bool.false_ne_true]
  rw [hact, handleSignal]
  exact ⟨_, rfl, ⟨rfl, rfl, rfl, rfl, rfl⟩, rfl⟩

/-- An action that does not reach the handler. -/
def Silent : ConnectionAction μ → Prop
  | .expire => True
  | .handleTimeoutAborted => True
  | .signal => True
  | _ => False

/-- A silent action changes the timer and the signals. -/
theorem act_silent {action : ConnectionAction μ} (hsilent : Silent action) :
    Same b (b.act H action) := by
  unfold act
  split
  · exact ⟨rfl, rfl, rfl, rfl, rfl, rfl⟩
  · cases action with
    | expire => exact ⟨rfl, rfl, rfl, rfl, rfl, rfl⟩
    | handleTimeoutAborted => exact ⟨rfl, rfl, rfl, rfl, rfl, rfl⟩
    | signal => exact ⟨rfl, rfl, rfl, rfl, rfl, rfl⟩
    | handleRead _ _ _ => cases hsilent
    | handleWrite _ _ _ => cases hsilent
    | handleTimeout _ => cases hsilent
    | handleSignal _ => cases hsilent

end ConnectionBase

end Smerp.Network
