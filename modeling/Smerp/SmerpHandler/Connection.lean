import Smerp.Lib.Logs
import Smerp.Network.ConnectionBase
import Smerp.SmerpHandler.Handler

/-!
# Connections of the server

`connectionBase` with a `smerpConnection`. A timeout or a signal overwrites the state of the
handler, whatever it was, and leads to a farewell message at once. So a second write is started
while one is in flight, and a connection that was closed writes again. `one_write_iff` and
`close_final_iff` say that nothing else does this.
-/

namespace Smerp.SmerpHandler

open Lib Network

/-- `smerpConnection`. Its argument is the memory behind the read buffer. -/
def smerpConnection : ConnectionHandler Conn (List Byte) where
  nextOperation := Conn.nextOperation
  networkInput := fun c _ bytesTransferred ↦ c.networkInput bytesTransferred
  timeoutOccured := Conn.timeoutOccured
  signalOccured := Conn.signalOccured
  errorOccured := Conn.errorOccured
  filled := Conn.filled

/-- A connection of the server. -/
abbrev Connection := ConnectionBase Conn

namespace Connection

/-- The connection after an action. -/
def act (b : Connection) (action : ConnectionAction (List Byte)) : Connection :=
  ConnectionBase.act smerpConnection b action

/-- An accepted connection, whose handler was constructed over uninitialised memory. -/
def start (readBuf behind : List Byte) : Connection :=
  ConnectionBase.start smerpConnection (Conn.new readBuf) behind

/-- A timeout or a signal that reaches the handler. -/
def Interrupts : ConnectionAction (List Byte) → Prop
  | .handleTimeout _ => True
  | .handleSignal _ => True
  | _ => False

instance (action : ConnectionAction (List Byte)) : Decidable (Interrupts action) := by
  cases action <;> simp only [Interrupts] <;> infer_instance

/-- An interrupt is not silent. -/
theorem not_silent {action : ConnectionAction (List Byte)} (h : Interrupts action) :
    ¬ ConnectionBase.Silent action := by
  cases action with
  | handleTimeout behind => exact id
  | handleSignal behind => exact id
  | _ => exact h.elim

end Connection

/-! ## One operation -/

/-- A line end is found behind the start and inside of the buffer. -/
theorem find_line_end_bounds {buf : List Byte} {pos count s : Nat}
    (h : findLineEnd buf pos count = some s) :
    pos < s ∧ s ≤ buf.length := by
  induction count generalizing pos with
  | zero => cases h
  | succ count ih =>
      unfold findLineEnd at h
      by_cases hch : buf[pos]? = some LF
      · rw [if_pos hch, Option.some.injEq] at h
        obtain ⟨hpos, -⟩ := List.getElem?_eq_some_iff.mp hch
        omega
      · rw [if_neg hch] at h
        have hrest := ih h
        omega

namespace Conn

/-- What the handler does next in a state. -/
inductive Turn (state : State) : Conn × Operation → Prop
  | read {next : Conn} {offset size timeout : Nat}
      (hstate : state = .helloSent ∨ state = .readInput ∨ state = .outputMsg) (hsize : 1 ≤ size)
      (hnext : next.state = .readInput) : Turn state (next, .read offset size timeout)
  | write {next : Conn} {data : List Byte} {timeout : Nat}
      (hstate : state = .new ∨ state = .readInput ∨ state = .outputMsg) (hdata : 1 ≤ data.length)
      (hnext : next.state = .helloSent ∨ next.state = .outputMsg ∨ next.state = .terminate) :
      Turn state (next, .write data timeout)
  | farewell {next : Conn} {data : List Byte} {timeout : Nat}
      (hstate : state = .timeout ∨ state = .signalled) (hdata : 1 ≤ data.length)
      (hnext : next.state = .terminate) : Turn state (next, .write data timeout)
  | close {next : Conn} (hstate : state = .terminate ∨ state = .finished)
      (hnext : next.state = .finished) : Turn state (next, .close)

/-- `case OUTPUT_MSG` reads or writes. -/
theorem output_msg_turn {state : State} (hstate : state = .readInput ∨ state = .outputMsg)
    (c : Conn)
    (behind : List Byte) : Turn state (c.outputMsg behind) := by
  unfold outputMsg
  by_cases hquit : c.readsQuit behind
  · rw [if_pos hquit]
    exact .write (.inr hstate) (by decide) (.inr (.inr rfl))
  · rw [if_neg hquit]
    cases hline : findLineEnd c.readBuf c.dataStart c.dataSize with
    | some s =>
        have hbounds := find_line_end_bounds hline
        refine .write (.inr hstate) ?_ (.inr (.inl rfl))
        rw [Block.slice_length]
        omega
    | none =>
        by_cases hsize : c.dataSize ≥ readBufSize
        · simp only [hsize, if_true]
          exact .write (.inr hstate) (by decide) (.inr (.inr rfl))
        · simp only [hsize, if_false]
          exact .read (.inr hstate) (by omega) rfl

/-- `nextOperation` does one of these. -/
theorem next_operation_turn (c : Conn) (behind : List Byte) :
    Turn c.state (c.nextOperation behind) := by
  unfold nextOperation
  cases hstate : c.state with
  | new => exact .write (.inl rfl) (by decide) (.inl rfl)
  | helloSent => exact .read (.inl rfl) (by decide) rfl
  | readInput => exact output_msg_turn (.inl rfl) _ behind
  | outputMsg => exact output_msg_turn (.inr rfl) c behind
  | timeout => exact .farewell (.inl rfl) (by decide) rfl
  | signalled => exact .farewell (.inr rfl) (by decide) rfl
  | terminate => exact .close (.inl rfl) rfl
  | finished => exact .close (.inr rfl) hstate

/-- What the handler does next is accepted. -/
theorem Turn.accepted {state : State} {result : Conn × Operation} (h : Turn state result) :
    result.2.Accepted := by
  cases h with
  | read hstate hsize hnext => exact hsize
  | write hstate hdata hnext => exact hdata
  | farewell hstate hdata hnext => exact hdata
  | close hstate hnext => trivial

end Conn

namespace Connection

/-- What a call of `nextOperation` does to a connection. -/
structure Turn (front b' : Connection) (op : Operation) : Prop where
  conn : Conn.Turn front.handler.state (b'.handler, op)
  reads : b'.reads.length = front.reads.length + if op.isRead then 1 else 0
  writes : b'.writes.length = front.writes.length + if op.sent = [] then 0 else 1
  isOpen : b'.isOpen = (front.isOpen && op ≠ .close)
  aborted : b'.aborted = front.aborted
  operations : b'.operations = front.operations ++ [op]

/-- A call of `nextOperation` performs what the handler does next. -/
theorem next_operation_turn (front : Connection) (behind : List Byte) :
    ∃ op, Turn front (front.nextOperation smerpConnection behind) op := by
  have hturn := Conn.next_operation_turn front.handler behind
  obtain ⟨hhandler, hreads, hwrites, hopen, haborted, hoperations⟩ :=
    ConnectionBase.perform_performed
      { front with
        handler := (front.handler.nextOperation behind).1
        operations := front.operations ++ [(front.handler.nextOperation behind).2] } hturn.accepted
  refine ⟨(front.handler.nextOperation behind).2, ?_, hreads, hwrites, hopen, haborted, hoperations⟩
  rw [show (front.nextOperation smerpConnection behind).handler =
    (front.handler.nextOperation behind).1
    from hhandler]
  exact hturn

/-! ## The operations in flight -/

/-- What is in flight in each state. In the states before `TERMINATE` it is one operation. -/
structure Ordered (b : Connection) : Prop where
  running : b.aborted = false
  resting : b.handler.state ≠ .new ∧ b.handler.state ≠ .timeout ∧ b.handler.state ≠ .signalled
  writing : b.handler.state = .helloSent ∨ b.handler.state = .outputMsg →
    b.writes.length = 1 ∧ b.reads.length = 0
  reading : b.handler.state = .readInput → b.writes.length = 0 ∧ b.reads.length = 1
  reads : b.reads.length ≤ 1

/-- The states in which the next turn closes the connection, or writes before it does. -/
def Closing (state : State) : Prop :=
  state = .timeout ∨ state = .signalled ∨ state = .terminate ∨ state = .finished

/-- A turn in front of which the operation in flight has completed, or in one of the last states. -/
theorem Turn.ordered {front b' : Connection} {op : Operation} (h : Turn front b' op)
    (hrunning : front.aborted = false)
    (hfree : Closing front.handler.state ∨ front.writes.length = 0 ∧ front.reads.length = 0)
    (hreads : front.reads.length ≤ 1) : Ordered b' := by
  obtain ⟨hconn, hreads', hwrites', -, haborted, -⟩ := h
  rw [hrunning] at haborted
  generalize front.handler.state = state at hconn hfree
  generalize hpair : (b'.handler, op) = result at hconn
  cases hconn with
  | read hstate hsize hnext =>
      cases hpair
      obtain ⟨hnoWrite, hnoRead⟩ : front.writes.length = 0 ∧ front.reads.length = 0 := by
        rcases hstate with rfl | rfl | rfl <;> simpa [Closing] using hfree
      have hone : b'.reads.length = 1 := by simpa [Operation.isRead, hnoRead] using hreads'
      have hnone : b'.writes.length = 0 := by rw [hwrites', hnoWrite]; rfl
      exact ⟨haborted, by simp [hnext], by simp [hnext], fun _ ↦ ⟨hnone, hone⟩, Nat.le_of_eq hone⟩
  | write hstate hdata hnext =>
      cases hpair
      obtain ⟨hnoWrite, hnoRead⟩ : front.writes.length = 0 ∧ front.reads.length = 0 := by
        rcases hstate with rfl | rfl | rfl <;> simpa [Closing] using hfree
      rename_i data timeout
      have hone : b'.writes.length = 1 := by
        simpa [Operation.sent, hnoWrite, List.length_pos_iff.mp hdata] using hwrites'
      have hnone : b'.reads.length = 0 := by simpa [Operation.isRead, hnoRead] using hreads'
      refine ⟨haborted, ?_, fun _ ↦ ⟨hone, hnone⟩, ?_, by omega⟩
      · rcases hnext with hnext | hnext | hnext <;> simp [hnext]
      · rcases hnext with hnext | hnext | hnext <;> simp [hnext]
  | farewell hstate hdata hnext =>
      cases hpair
      have hsame : b'.reads.length = front.reads.length := by simpa [Operation.isRead] using hreads'
      exact ⟨haborted, by simp [hnext], by simp [hnext], by simp [hnext], by omega⟩
  | close hstate hnext =>
      cases hpair
      have hsame : b'.reads.length = front.reads.length := by simpa [Operation.isRead] using hreads'
      exact ⟨haborted, by simp [hnext], by simp [hnext], by simp [hnext], by omega⟩

/-- A turn behind the completion of the operation in flight, which may have told the handler to
terminate. -/
theorem Turn.completed {front b' : Connection} {op : Operation} {state : State}
    (h : Turn front b' op) (hrunning : front.aborted = false)
    (hstate : front.handler.state = state ∨ front.handler.state = .terminate)
    (hfree : Closing state ∨ front.writes.length = 0 ∧ front.reads.length = 0)
    (hreads : front.reads.length ≤ 1) : Ordered b' := by
  refine h.ordered hrunning ?_ hreads
  rcases hstate with hstate | hstate
  · rw [hstate]
    exact hfree
  · exact .inl (by simp [Closing, hstate])

/-- What an action does. -/
inductive Acts (b b' : Connection) : ConnectionAction (List Byte) → Prop
  | silent {action : ConnectionAction (List Byte)} (hsilent : ConnectionBase.Silent action)
      (hsame : ConnectionBase.Same b b') : Acts b b' action
  | read {index : Nat} {result : Except ErrorCode (List Byte)} {behind : List Byte}
      {front : Connection}
      {op : Operation} (hfront : ConnectionBase.Completed b 1 0 front)
      (hstate : front.handler.state = b.handler.state ∨ front.handler.state = .terminate)
      (hturn : Turn front b' op) : Acts b b' (.handleRead index result behind)
  | write {index : Nat} {error : Option ErrorCode} {behind : List Byte} {front : Connection}
      {op : Operation} (hfront : ConnectionBase.Completed b 0 1 front)
      (hstate : front.handler.state = b.handler.state ∨ front.handler.state = .terminate)
      (hturn : Turn front b' op) : Acts b b' (.handleWrite index error behind)
  | interrupt {action : ConnectionAction (List Byte)} {front : Connection} {op : Operation}
      (haction : Interrupts action) (hfront : ConnectionBase.Completed b 0 0 front)
      (hstate : front.handler.state = .timeout ∨ front.handler.state = .signalled)
      (hturn : Turn front b' op) : Acts b b' action

/-- An action does one of these. -/
theorem act_acts {b : Connection} (hrunning : b.aborted = false)
    {action : ConnectionAction (List Byte)}
    (hpossible : b.Possible action) : Acts b (b.act action) action := by
  cases action with
  | handleRead index result behind =>
      obtain ⟨front, hact, hfront, hhandler⟩ :=
        ConnectionBase.act_handle_read (H := smerpConnection) hrunning hpossible
      obtain ⟨op, hturn⟩ := next_operation_turn front behind
      refine .read hfront ?_ (hact ▸ hturn)
      rcases hhandler with ⟨offset, data, hhandler⟩ | ⟨e, hhandler⟩
      · exact .inl (by rw [hhandler]; rfl)
      · exact .inr (by rw [hhandler]; rfl)
  | handleWrite index error behind =>
      obtain ⟨front, hact, hfront, hhandler⟩ :=
        ConnectionBase.act_handle_write (H := smerpConnection) hrunning hpossible
      obtain ⟨op, hturn⟩ := next_operation_turn front behind
      refine .write hfront ?_ (hact ▸ hturn)
      rcases hhandler with hhandler | ⟨e, hhandler⟩
      · exact .inl (by rw [hhandler])
      · exact .inr (by rw [hhandler]; rfl)
  | handleTimeout behind =>
      obtain ⟨front, hact, hfront, hhandler⟩ :=
        ConnectionBase.act_handle_timeout (H := smerpConnection) hrunning behind
      obtain ⟨op, hturn⟩ := next_operation_turn front behind
      exact .interrupt trivial hfront (.inl (by rw [hhandler]; rfl)) (hact ▸ hturn)
  | handleSignal behind =>
      obtain ⟨front, hact, hfront, hhandler⟩ :=
        ConnectionBase.act_handle_signal (H := smerpConnection) hrunning behind
      obtain ⟨op, hturn⟩ := next_operation_turn front behind
      exact .interrupt trivial hfront (.inr (by rw [hhandler]; rfl)) (hact ▸ hturn)
  | expire => exact .silent trivial (ConnectionBase.act_silent trivial)
  | handleTimeoutAborted => exact .silent trivial (ConnectionBase.act_silent trivial)
  | signal => exact .silent trivial (ConnectionBase.act_silent trivial)

/-- Every action keeps the order. -/
theorem Ordered.act {b : Connection} (h : b.Ordered) {action : ConnectionAction (List Byte)}
    (hpossible : b.Possible action) : (b.act action).Ordered := by
  obtain ⟨hrunning, hresting, hwriting, hreading, hreads⟩ := h
  have hacts := act_acts hrunning hpossible
  generalize b.act action = b' at hacts ⊢
  -- before the last states the one operation in flight is the one that completes
  have hstates : Closing b.handler.state ∨ b.writes.length + b.reads.length = 1 := by
    cases hstate : b.handler.state with
    | helloSent => simp [hwriting (.inl hstate)]
    | outputMsg => simp [hwriting (.inr hstate)]
    | readInput => simp [hreading hstate]
    | terminate => simp [Closing]
    | finished => simp [Closing]
    | new => exact absurd hstate hresting.1
    | timeout => simp [Closing]
    | signalled => simp [Closing]
  cases hacts with
  | silent hsilent hsame =>
      obtain ⟨hhandler, hreads', hwrites', -, haborted, -⟩ := hsame
      rw [← hhandler] at hresting hwriting hreading
      rw [← hwrites', ← hreads'] at hwriting hreading
      exact ⟨haborted.trans hrunning, hresting, hwriting, hreading, hreads' ▸ hreads⟩
  | read hfront hstate hturn =>
      obtain ⟨hreads', hwrites', -, haborted, -⟩ := hfront
      exact hturn.completed (haborted.trans hrunning) hstate (hstates.imp_right fun hone ↦ by omega)
        (by omega)
  | write hfront hstate hturn =>
      obtain ⟨hreads', hwrites', -, haborted, -⟩ := hfront
      exact hturn.completed (haborted.trans hrunning) hstate (hstates.imp_right fun hone ↦ by omega)
        (by omega)
  | interrupt haction hfront hstate hturn =>
      obtain ⟨hreads', hwrites', -, haborted, -⟩ := hfront
      refine hturn.ordered (haborted.trans hrunning) (.inl ?_) (by omega)
      rcases hstate with hstate | hstate <;> simp [Closing, hstate]

/-- A new connection is in order. -/
theorem ordered_start (readBuf behind : List Byte) : (start readBuf behind).Ordered := by
  obtain ⟨op, hturn⟩ := next_operation_turn (.new (Conn.new readBuf)) behind
  exact hturn.ordered rfl (.inr ⟨rfl, rfl⟩) (Nat.zero_le 1)

/-- A turn starts no second write: none was in flight, or the connection is being closed. -/
theorem Turn.one_write {front b' : Connection} {op : Operation} (h : Turn front b' op)
    (hfree : front.handler.state = .terminate ∨ front.handler.state = .finished ∨
      front.writes.length = 0)
    (hwrites : front.writes.length ≤ 1) : b'.writes.length ≤ 1 := by
  obtain ⟨hconn, -, hwrites', -, -, -⟩ := h
  rw [hwrites']
  generalize front.handler.state = state at hconn hfree
  generalize hpair : (b'.handler, op) = result at hconn
  cases hconn with
  | read _ _ _ =>
      cases hpair
      simpa [Operation.sent] using hwrites
  | write hstate hdata _ =>
      cases hpair
      have hnone : front.writes.length = 0 :=
        by rcases hstate with rfl | rfl | rfl <;> simpa using hfree
      simp [Operation.sent, hnone, List.length_pos_iff.mp hdata]
  | farewell hstate hdata _ =>
      cases hpair
      have hnone : front.writes.length = 0 := by rcases hstate with rfl | rfl <;> simpa using hfree
      simp [Operation.sent, hnone, List.length_pos_iff.mp hdata]
  | close _ _ =>
      cases hpair
      simpa [Operation.sent] using hwrites

/-- An interrupted handler says farewell at once. -/
theorem Turn.interrupted {front b' : Connection} {op : Operation} (h : Turn front b' op)
    (hstate : front.handler.state = .timeout ∨ front.handler.state = .signalled) :
    b'.writes.length = front.writes.length + 1 ∧ op ≠ .close := by
  obtain ⟨hconn, -, hwrites', -, -, -⟩ := h
  generalize front.handler.state = state at hconn hstate
  generalize hpair : (b'.handler, op) = result at hconn
  cases hconn with
  | read hother _ _ => rcases hstate with rfl | rfl <;> simp at hother
  | write hother _ _ => rcases hstate with rfl | rfl <;> simp at hother
  | farewell _ hdata _ =>
      cases hpair
      exact ⟨by simpa [Operation.sent, List.length_pos_iff.mp hdata] using hwrites', by simp⟩
  | close hother _ => rcases hstate with rfl | rfl <;> simp at hother

/-- A step that does not interrupt a write in flight starts no second one. -/
theorem Ordered.one_write {b : Connection} (h : b.Ordered) (hwrites : b.writes.length ≤ 1)
    {action : ConnectionAction (List Byte)} (hpossible : b.Possible action)
    (hquiet : Interrupts action → b.writes = []) : (b.act action).writes.length ≤ 1 := by
  have hacts := act_acts h.running hpossible
  obtain ⟨hrunning, hresting, hwriting, hreading, hreads⟩ := h
  generalize b.act action = b' at hacts ⊢
  cases hacts with
  | silent hsilent hsame => rwa [hsame.writes]
  | read hfront hstate hturn =>
      obtain ⟨hreads', hwrites', -, -, -⟩ := hfront
      refine hturn.one_write ?_ (by omega)
      rcases hstate with hsame | hstate
      · rw [hsame]
        cases hstate : b.handler.state with
        | helloSent => exact absurd (hwriting (.inl hstate)).2 (by omega)
        | outputMsg => exact absurd (hwriting (.inr hstate)).2 (by omega)
        | readInput => exact .inr (.inr (hwrites'.trans (hreading hstate).1))
        | terminate => exact .inl rfl
        | finished => exact .inr (.inl rfl)
        | new => exact absurd hstate hresting.1
        | timeout => exact absurd hstate hresting.2.1
        | signalled => exact absurd hstate hresting.2.2
      · exact .inl hstate
  | write hfront hstate hturn =>
      have hwrites' := hfront.writes
      exact hturn.one_write (.inr (.inr (by omega))) (by omega)
  | interrupt haction hfront hstate hturn =>
      have hnone : b.writes.length = 0 := by rw [hquiet haction, List.length_nil]
      have hwrites' := hfront.writes
      have hone := (hturn.interrupted hstate).1
      omega

/-- A step that interrupts a write in flight starts a second one. -/
theorem Ordered.two_writes {b : Connection} (h : b.Ordered) {action : ConnectionAction (List Byte)}
    (hpossible : b.Possible action) (hinterrupts : Interrupts action) (hwrites : b.writes ≠ []) :
    1 < (b.act action).writes.length := by
  have hacts := act_acts h.running hpossible
  have hsome := List.length_pos_iff.mpr hwrites
  generalize b.act action = b' at hacts ⊢
  cases hacts with
  | silent hsilent hsame => exact absurd hsilent (not_silent hinterrupts)
  | read hfront hstate hturn => cases hinterrupts
  | write hfront hstate hturn => cases hinterrupts
  | interrupt haction hfront hstate hturn =>
      have hwrites' := hfront.writes
      have hone := (hturn.interrupted hstate).1
      omega

/-! ## Closing -/

/-- Behind the first `CLOSE` nothing but `CLOSE` is returned. -/
def Final (operations : List Operation) : Prop :=
  History.After (fun before op ↦ .close ∈ before → op = .close) [] operations

/-- The connection is closed once, at the end of its handler. -/
structure ClosedOnce (b : Connection) : Prop where
  final : Final b.operations
  isOpen : b.isOpen = true ↔ .close ∉ b.operations
  finished : .close ∈ b.operations → b.handler.state = .finished

/-- In the last two states a turn closes the connection. -/
theorem Turn.close {front b' : Connection} {op : Operation} (h : Turn front b' op)
    (hstate : front.handler.state = .terminate ∨ front.handler.state = .finished) : op =
      .close := by
  have hconn := h.conn
  generalize front.handler.state = state at hconn hstate
  generalize hpair : (b'.handler, op) = result at hconn
  cases hconn with
  | read hother _ _ => rcases hstate with rfl | rfl <;> simp at hother
  | write hother _ _ => rcases hstate with rfl | rfl <;> simp at hother
  | farewell hother _ _ => rcases hstate with rfl | rfl <;> simp at hother
  | close _ _ =>
      cases hpair
      rfl

/-- A turn that closes the connection finishes its handler. -/
theorem Turn.finished {front b' : Connection} (h : Turn front b' .close) : b'.handler.state =
    .finished := by
  have hconn := h.conn
  generalize hpair : (b'.handler, Operation.close) = result at hconn
  cases hconn with
  | read _ _ _ => cases hpair
  | write _ _ _ => cases hpair
  | farewell _ _ _ => cases hpair
  | close _ hnext =>
      cases hpair
      exact hnext

/-- A turn behind which the connection is closed once: it was open before, or it is closed again. -/
theorem Turn.closed_once {b front b' : Connection} {op : Operation} (h : Turn front b' op)
    (hb : b.ClosedOnce) (hopen : front.isOpen = b.isOpen)
    (hoperations : front.operations = b.operations)
    (hgoes : b.isOpen = true ∨ op = .close) : b'.ClosedOnce := by
  have hnow : b'.operations = b.operations ++ [op] := h.operations.trans (by rw [hoperations])
  have hnowOpen : b'.isOpen = (b.isOpen && op ≠ .close) := h.isOpen.trans (by rw [hopen])
  refine ⟨?_, ?_, ?_⟩
  · rw [Final, hnow, History.after_append]
    refine ⟨hb.final, ?_, trivial⟩
    intro hclosed
    exact hgoes.resolve_left fun hstill ↦ hb.isOpen.mp hstill hclosed
  · rw [hnowOpen, hnow, Bool.and_eq_true, hb.isOpen, decide_eq_true_eq, List.mem_append, not_or,
      List.mem_singleton]
    exact and_congr_right fun _ ↦ ne_comm
  · rw [hnow, List.mem_append, List.mem_singleton]
    intro hclose
    have hop : op = .close := by
      rcases hclose with hclosed | hclose
      · exact hgoes.resolve_left fun hstill ↦ hb.isOpen.mp hstill hclosed
      · exact hclose.symm
    subst hop
    exact h.finished

/-- A step that does not interrupt a closed connection keeps it closed. -/
theorem ClosedOnce.act {b : Connection} (hb : b.ClosedOnce) (h : b.Ordered)
    {action : ConnectionAction (List Byte)} (hpossible : b.Possible action)
    (hquiet : Interrupts action → b.isOpen = true) : (b.act action).ClosedOnce := by
  have hacts := act_acts h.running hpossible
  generalize b.act action = b' at hacts ⊢
  have hgoes {front : Connection} {op : Operation} (hturn : Turn front b' op)
      (hstate : front.handler.state = b.handler.state ∨ front.handler.state = .terminate) :
      b.isOpen = true ∨ op = .close := by
    by_cases hopen : b.isOpen = true
    · exact .inl hopen
    · have hclosed : .close ∈ b.operations := by
        by_contra hnot
        exact hopen (hb.isOpen.mpr hnot)
      rcases hstate with hstate | hstate
      · exact .inr (hturn.close (.inr (hstate.trans (hb.finished hclosed))))
      · exact .inr (hturn.close (.inl hstate))
  cases hacts with
  | silent hsilent hsame =>
      obtain ⟨hhandler, -, -, hopen, -, hoperations⟩ := hsame
      obtain ⟨hfinal, hb', hfinished⟩ := hb
      rw [← hoperations] at hfinal hfinished hb'
      rw [← hopen] at hb'
      rw [← hhandler] at hfinished
      exact ⟨hfinal, hb', hfinished⟩
  | read hfront hstate hturn =>
      exact hturn.closed_once hb hfront.isOpen hfront.operations (hgoes hturn hstate)
  | write hfront hstate hturn =>
      exact hturn.closed_once hb hfront.isOpen hfront.operations (hgoes hturn hstate)
  | interrupt haction hfront hstate hturn =>
      exact hturn.closed_once hb hfront.isOpen hfront.operations (.inl (hquiet haction))

/-- A step that interrupts a closed connection writes again. -/
theorem ClosedOnce.not_final {b : Connection} (hb : b.ClosedOnce) (h : b.Ordered)
    {action : ConnectionAction (List Byte)} (hpossible : b.Possible action)
    (hinterrupts : Interrupts action) (hclosed : b.isOpen ≠ true) :
    ¬ Final (b.act action).operations := by
  have hacts := act_acts h.running hpossible
  have hbefore : .close ∈ b.operations := by
    by_contra hnot
    exact hclosed (hb.isOpen.mpr hnot)
  generalize b.act action = b' at hacts ⊢
  cases hacts with
  | silent hsilent hsame => exact absurd hsilent (not_silent hinterrupts)
  | read hfront hstate hturn => cases hinterrupts
  | write hfront hstate hturn => cases hinterrupts
  | interrupt haction hfront hstate hturn =>
      intro hfinal
      rw [Final, hturn.operations, hfront.operations, History.after_append] at hfinal
      exact (hturn.interrupted hstate).2 (hfinal.2.1 hbefore)

/-- A new connection is not closed. -/
theorem closed_once_start (readBuf behind : List Byte) : (start readBuf behind).ClosedOnce := by
  have hopen : .close ∉ (start readBuf behind).operations := by
    show .close ∉ [Operation.write welcome 0]
    simp
  exact ⟨⟨by simp, trivial⟩, iff_of_true rfl hopen, fun hclose ↦ absurd hclose hopen⟩

end Connection

variable (readBuf behind : List Byte) (actions : List (ConnectionAction (List Byte)))

/-- No connection has two reads in flight. -/
theorem one_read
    (hrun : Runs.Each Connection.act ConnectionBase.Possible (.start readBuf behind) actions) :
    Runs.Always Connection.act (fun b ↦ b.reads.length ≤ 1) (.start readBuf behind) actions := by
  have hordered : Runs.Always Connection.act Connection.Ordered (.start readBuf behind) actions :=
    Runs.always_rule (fun _ _ h hpossible ↦ Connection.Ordered.act h hpossible)
      (Connection.ordered_start readBuf behind) hrun
  exact hordered.mono fun _ h ↦ h.reads

/-- **A connection has at most one write and one read in flight if and only if no timeout and no
signal is handled while a write is in flight.** -/
theorem one_write_iff
    (hrun : Runs.Each Connection.act ConnectionBase.Possible (.start readBuf behind) actions) :
    Runs.Always Connection.act (fun b ↦ b.writes.length ≤ 1 ∧ b.reads.length ≤ 1)
        (.start readBuf behind) actions ↔
      Runs.Each Connection.act (fun b action ↦ Connection.Interrupts action → b.writes = [])
        (.start readBuf behind) actions := by
  have hstart := Connection.ordered_start readBuf behind
  have hstep (b : Connection) (action : ConnectionAction (List Byte))
      (h : b.Ordered ∧ b.writes.length ≤ 1) (hpossible : b.Possible action)
      (hquiet : Connection.Interrupts action → b.writes = []) :
      (b.act action).Ordered ∧ (b.act action).writes.length ≤ 1 :=
    ⟨h.1.act hpossible, h.1.one_write h.2 hpossible hquiet⟩
  refine Runs.always_iff_rule hstep (fun b h ↦ ⟨h.2, h.1.reads⟩) ?_
    ⟨hstart, Nat.le_of_eq (hstart.writing (.inl rfl)).1⟩ hrun
  intro b action h hpossible hnoisy hgood
  obtain ⟨hinterrupts, hwrites⟩ : Connection.Interrupts action ∧ b.writes ≠ [] := by
    simpa only [Classical.not_imp] using hnoisy
  have htwo := h.1.two_writes hpossible hinterrupts hwrites
  omega

/-- A connection that is welcomed, waits for input, and is told to say farewell. -/
theorem one_write_iff_timeout :
    Runs.Always Connection.act (fun b ↦ b.writes.length ≤ 1 ∧ b.reads.length ≤ 1)
        (.start (List.replicate readBufSize 0) [])
        [.handleWrite 0 none [], .expire, .handleTimeout []] ↔
      Runs.Each Connection.act (fun b action ↦ Connection.Interrupts action → b.writes = [])
        (.start (List.replicate readBufSize 0) [])
        [.handleWrite 0 none [], .expire, .handleTimeout []] :=
  one_write_iff (List.replicate readBufSize 0) [] _ (by
    refine ⟨?_, ?_, ?_, trivial⟩
    · show 0 < _
      decide
    · rfl
    · show 0 < _
      decide)

/-- A signal while the welcome message is being written. -/
theorem not_one_write :
    ¬ ∀ (readBuf behind : List Byte) (actions : List (ConnectionAction (List Byte))),
    Runs.Each Connection.act ConnectionBase.Possible (.start readBuf behind) actions →
      Runs.Always Connection.act (fun b ↦ b.writes.length ≤ 1 ∧ b.reads.length ≤ 1)
        (.start readBuf behind) actions := by
  intro h
  have halways := h (List.replicate readBufSize 0) [] [.signal, .handleSignal []]
    ⟨trivial, Nat.zero_lt_one, trivial⟩
  exact absurd halways.2.2.1 (by decide)

/-- **The close of a connection is final if and only if no timeout and no signal is handled behind
it.** -/
theorem close_final_iff
    (hrun : Runs.Each Connection.act ConnectionBase.Possible (.start readBuf behind) actions) :
    Runs.Always Connection.act (fun b ↦ Connection.Final b.operations)
      (.start readBuf behind) actions ↔
      Runs.Each Connection.act (fun b action ↦ Connection.Interrupts action → b.isOpen = true)
        (.start readBuf behind) actions := by
  have hstart := Connection.ordered_start readBuf behind
  have hstep (b : Connection) (action : ConnectionAction (List Byte)) (h : b.Ordered ∧ b.ClosedOnce)
      (hpossible : b.Possible action) (hquiet : Connection.Interrupts action → b.isOpen = true) :
      (b.act action).Ordered ∧ (b.act action).ClosedOnce :=
    ⟨h.1.act hpossible, h.2.act h.1 hpossible hquiet⟩
  refine Runs.always_iff_rule hstep (fun b h ↦ h.2.final) ?_
    ⟨hstart, Connection.closed_once_start readBuf behind⟩ hrun
  intro b action h hpossible hnoisy
  obtain ⟨hinterrupts, hclosed⟩ : Connection.Interrupts action ∧ b.isOpen ≠ true := by
    simpa only [Classical.not_imp] using hnoisy
  exact h.2.not_final h.1 hpossible hinterrupts hclosed

/-- A client that goes away before the welcome message, and a signal while it does. -/
theorem close_final_iff_gone :
    Runs.Always Connection.act (fun b ↦ Connection.Final b.operations)
        (.start (List.replicate readBufSize 0) []) [.signal, .handleWrite 0 (some .brokenPipe) []] ↔
      Runs.Each Connection.act (fun b action ↦ Connection.Interrupts action → b.isOpen = true)
        (.start (List.replicate readBufSize 0) [])
          [.signal, .handleWrite 0 (some .brokenPipe) []] :=
  close_final_iff (List.replicate readBufSize 0) [] _ ⟨trivial, Nat.zero_lt_one, trivial⟩

/-- The signal was on the strand when the connection was closed: the server writes once more. -/
theorem not_close_final :
    ¬ ∀ (readBuf behind : List Byte) (actions : List (ConnectionAction (List Byte))),
    Runs.Each Connection.act ConnectionBase.Possible (.start readBuf behind) actions →
      Runs.Always Connection.act (fun b ↦ Connection.Final b.operations)
        (.start readBuf behind) actions := by
  intro h
  have halways := h (List.replicate readBufSize 0) []
    [.signal, .handleWrite 0 (some .brokenPipe) [], .handleSignal []]
    ⟨trivial, Nat.zero_lt_one, Nat.zero_lt_one, trivial⟩
  have hwrite : Operation.write (text "Server is shutting down. :P\n") 0 = .close :=
    halways.2.2.2.2.2.1 (by decide)
  cases hwrite

end Smerp.SmerpHandler
