import Smerp.Pecho.Passes
import Smerp.Protocol.EndOfData

/-!
# Runs of the echo protocol handler

A session is a handler under the control of the network layer: `nextOperation` is called, a `READ`
is answered by at least one byte, and timeouts, signals and errors come at any time. The
invariant `Session.Ok` keeps the iterators in order over every run, and `Conn.fuelLeft` counts down
from pass to pass, so every call returns.
-/

namespace Smerp.Pecho

open Lib Protocol Network

/-- A `WRITE`, with the state it leaves the processor in. -/
structure Sent where
  state : State
  message : List Byte
  deriving DecidableEq, Repr

/-- What a call that ended in the state `next` has sent. -/
def sentBy (next : Conn) : Operation → List Sent
  | .write data _ => [⟨next.state, data⟩]
  | _ => []

/-- A handler, the size of the `READ` in flight, and all that was received and sent so far. -/
structure Session where
  conn : Conn
  pending : Option Nat
  received : List Byte
  sent : List Sent
  deriving DecidableEq, Repr

namespace Session

/-- A new connection. -/
def start (c : Conn) : Session := ⟨c, none, [], []⟩

/-- `nextOperation` is not called while the handler waits for input, unless it was notified. -/
def Callable (s : Session) : Prop := s.pending = none ∨ s.conn.state = .terminate

instance (s : Session) : Decidable s.Callable := inferInstanceAs (Decidable (_ ∨ _))

/-- The session after a call. -/
def called (s : Session) (next : Conn) (op : Operation) : Session where
  conn := next
  pending := match op with
    | .read _ size _ => some size
    | _ => s.pending
  received := s.received
  sent := s.sent ++ sentBy next op

/-- The session after a `READ` was answered. -/
def fed (s : Session) (data : List Byte) : Session where
  conn := s.conn.networkInput data
  pending := none
  received := s.received ++ data
  sent := s.sent

/-- One step of a session: a call of `nextOperation`, the answer to a `READ`, or a timeout, a signal
or an error. -/
inductive Step : Session → Session → Prop
  | call (s : Session) (next : Conn) (op : Operation) (hcall : s.Callable)
      (hnext : s.conn.nextOperation = .ok (next, op)) : Step s (s.called next op)
  | input (s : Session) (size : Nat) (data : List Byte) (hpending : s.pending = some size)
      (hpos : 1 ≤ data.length) (hle : data.length ≤ size) : Step s (s.fed data)
  | notify (s : Session) : Step s { s with conn := s.conn.signalTerminate }

end Session

namespace Conn

/-- The state after a `READ` was requested. The iterators are stale. -/
structure Waiting (c : Conn) : Prop extends Sized c where
  reads : c.state ≠ .processingAfterWrite
  token : c.state ≠ .enterCommand → c.state ≠ .enterMode → c.cmdBuffer = .new

/-- The state after a pass that ended with the operation. -/
def After (c : Conn) : Option Operation → Prop
  | some (.read offset size timeout) => .read offset size timeout = c.readOp ∧ c.Waiting
  | _ => c.Ready

/-- Moving the iterator inside of the message keeps the order. -/
theorem Ready.move {c next : Conn} (h : c.Ready)
    (hinput : next.input.toMemBlock = c.input.toMemBlock) (houtput : next.output = c.output)
    (heom : next.eoM = c.eoM) (hitr : next.itr ≤ c.eoM)
    (hstate : next.state ≠ .processing ∧ next.state ≠ .processingAfterWrite)
    (htoken : next.state ≠ .enterCommand → next.state ≠ .enterMode → next.cmdBuffer = .new) :
    next.Ready where
  size_pos := by rw [hinput]; exact h.size_pos
  room_pos := by rw [houtput]; exact h.room_pos
  out_le := by rw [houtput]; exact h.out_le
  itr_le := by rw [heom]; exact hitr
  eom_eq := by rw [heom, hinput]; exact h.eom_eq
  pos_le := by rw [hinput]; exact h.pos_le
  data_le := fun hdata ↦ hdata.elim (absurd · hstate.1) (absurd · hstate.2)
  token := htoken

/-- Passing a front of the rest stays inside of the message. -/
theorem Ready.front_le {c : Conn} (h : c.Ready) {front back : List Byte}
    (hrest : c.rest = front ++ back) : c.itr + front.length ≤ c.eoM := by
  have hlen := h.rest_length
  rw [hrest, List.length_append] at hlen
  omega

/-- Requesting a `READ` keeps the sizes. -/
theorem Sized.read {c next : Conn} (h : c.Sized) (hsize : next.input.size = c.input.size)
    (houtput : next.output = c.output) : next.Sized :=
  ⟨by rw [hsize]; exact h.size_pos, by rw [houtput]; exact h.room_pos,
    by rw [houtput]; exact h.out_le⟩

/-- The data lies inside of the rest of the message. -/
theorem Ready.data_ok {c : Conn} (h : c.Ready)
    (hstate : c.state = .processing ∨ c.state = .processingAfterWrite) : c.DataOk := by
  obtain ⟨hitr, heod⟩ := h.data_le hstate
  exact ⟨hitr, by have := h.eom_eq; omega, h.pos_le⟩

/-- Echoing data for which there is room keeps the output position inside of the output block. -/
theorem Ready.echoed_sized {c : Conn} (h : c.Ready) (chars : List Byte)
    (hroom : chars.length ≤ c.output.restsize) :
    0 < (c.echoed chars).output.size ∧
      (c.echoed chars).output.pos ≤ (c.echoed chars).output.size := by
  obtain ⟨-, hpos, hsize⟩ := echoed_spec chars h.out_le hroom
  have hout := h.out_le
  have hcap := h.room_pos
  rw [OutputBlock.restsize] at hroom
  omega

end Conn

open Conn

/-- A reaction leaves the input alone and sends nonempty lines. -/
theorem Reaction.after {c next : Conn} {op : Option Operation} (hreaction : Reaction c next op)
    (h : c.Ready) (hbuffer : c.cmdBuffer = .new) :
    next.After op ∧ next.input.size = c.input.size ∧
      ∀ result, op = some result → result.Accepted := by
  cases hreaction with
  | goesOn mode state hstate =>
      have hline : state ≠ .processing ∧ state ≠ .processingAfterWrite := by
        rcases hstate with rfl | rfl | rfl <;> simp
      exact ⟨h.move rfl rfl rfl h.itr_le hline fun _ _ ↦ hbuffer, rfl, by simp⟩
  | replies state str hstate hbad hlen =>
      have hline : state ≠ .processing ∧ state ≠ .processingAfterWrite := by
        rcases hstate with rfl | rfl | rfl <;> simp
      refine ⟨h.move rfl rfl rfl h.itr_le hline fun _ _ ↦ hbuffer, rfl, ?_⟩
      rintro _ ⟨⟩
      simp [Operation.Accepted, CRLF]

/-- Requesting a `READ` is accepted. -/
theorem read_after {c next : Conn} (h : c.Ready) (hsize : next.input.size = c.input.size)
    (houtput : next.output = c.output) (hreads : next.state ≠ .processingAfterWrite)
    (htoken : next.state ≠ .enterCommand → next.state ≠ .enterMode → next.cmdBuffer = .new) :
    next.After (some c.readOp) ∧ next.input.size = c.input.size ∧
      ∀ result, some c.readOp = some result → result.Accepted := by
  have hop : c.readOp = next.readOp := by rw [readOp, readOp, hsize]
  refine ⟨⟨hop, h.toSized.read hsize houtput, hreads, htoken⟩, hsize, ?_⟩
  rintro _ ⟨⟩
  exact h.size_pos

/-- The scan for the end of the data keeps the iterators in order. -/
theorem start_scan_after {c : Conn} {blanks more : List Byte} {ch : Byte} {eoD : Nat}
    {input : InputBlock} (h : c.Ready) (hbuffer : c.cmdBuffer = .new)
    (hrest : c.rest = blanks ++ ch :: more)
    (hscan : c.input.resetEoD.getEoD (c.itr + blanks.length) = (eoD, input)) :
    After (replied
        { c with itr := c.itr + blanks.length, input := input, eoD := eoD, eoM := input.pos }
        .processing (text "OK enter data")) (some (.write (text "OK enter data" ++ CRLF) 0)) ∧
      input.size = c.input.size ∧
      ∀ result, some (Operation.write (text "OK enter data" ++ CRLF) 0) = some result →
        result.Accepted := by
  have hlt : c.itr + blanks.length < c.input.resetEoD.size := by
    have hsplit : c.rest = (blanks ++ [ch]) ++ more := by simp [hrest]
    have hfront := h.front_le hsplit
    have := h.eom_eq
    simp only [List.length_append, List.length_singleton] at hfront
    exact Nat.lt_of_lt_of_le (by omega) h.pos_le
  obtain ⟨hle, hpos, hend, hsize⟩ := EoD.get_eod_bounds _ hlt
  rw [hscan] at hle hpos hend hsize
  refine ⟨⟨⟨?_, h.room_pos, h.out_le⟩, ?_, rfl, ?_, fun _ ↦ ⟨hle, hpos⟩, fun _ _ ↦ hbuffer⟩,
    hsize, ?_⟩
  · exact Nat.lt_of_lt_of_eq h.size_pos hsize.symm
  · exact Nat.le_trans hle hpos
  · exact Nat.le_trans hend (Nat.le_of_eq hsize.symm)
  · rintro _ ⟨⟩
    decide

/-- Echoing the last of the data keeps the iterators in order, and sends what was printed. -/
theorem echo_end_after {c : Conn} {op : Option Operation} (h : c.Ready)
    (hbuffer : c.cmdBuffer = .new) (hstate : c.state = .processing)
    (hroom : c.data.length ≤ c.output.restsize) (hend : c.eoD < c.eoM)
    (hop : op = if (c.echoed c.data).output.pos = 0 then none
      else some (.write (c.echoed c.data).output.content 0)) :
    After { c.echoed c.data with input := c.input.resetEoD, state := .init } op ∧
      c.input.resetEoD.size = c.input.size ∧ ∀ result, op = some result → result.Accepted := by
  obtain ⟨hcap, hout⟩ := h.echoed_sized c.data hroom
  have hlen := (h.data_ok (.inl hstate)).data_length
  have hready : Ready { c.echoed c.data with input := c.input.resetEoD, state := .init } := by
    refine ⟨⟨h.size_pos, hcap, hout⟩, ?_, h.eom_eq, h.pos_le, by simp, fun _ _ ↦ hbuffer⟩
    simp only [echoed]
    omega
  rw [hop]
  split
  · exact ⟨hready, rfl, by simp⟩
  · refine ⟨hready, rfl, ?_⟩
    rintro _ ⟨⟩
    rw [Operation.Accepted, OutputBlock.content_length hout]
    omega

/-- Filling the output block keeps the iterators in order, and sends what was printed. -/
theorem echo_full_after {c : Conn} (h : c.Ready) (hbuffer : c.cmdBuffer = .new)
    (hstate : c.state = .processing) (hroom : c.output.restsize < c.data.length) :
    After { c.echoed (c.data.take c.output.restsize) with state := .processingAfterWrite }
        (some (.write (c.echoed (c.data.take c.output.restsize)).output.content 0)) ∧
      c.input.size = c.input.size ∧
      ∀ result, some (Operation.write (c.echoed (c.data.take c.output.restsize)).output.content 0) =
        some result → result.Accepted := by
  have htake : (c.data.take c.output.restsize).length = c.output.restsize := by
    rw [List.length_take]
    omega
  obtain ⟨hcap, hout⟩ := h.echoed_sized (c.data.take c.output.restsize) (by omega)
  obtain ⟨-, hpos, -⟩ := echoed_spec (c.data.take c.output.restsize) h.out_le (by omega)
  have hlen := (h.data_ok (.inl hstate)).data_length
  obtain ⟨hitr, heod⟩ := h.data_le (.inl hstate)
  refine ⟨⟨⟨h.size_pos, hcap, hout⟩, ?_, h.eom_eq, h.pos_le, fun _ ↦ ⟨?_, heod⟩,
    fun _ _ ↦ hbuffer⟩, rfl, ?_⟩
  · simp only [echoed]
    omega
  · simp only [echoed]
    omega
  · rintro _ ⟨⟩
    have := h.room_pos
    have := h.out_le
    rw [Operation.Accepted, OutputBlock.content_length hout, hpos, htake, OutputBlock.restsize]
    omega

/-- **A pass keeps the iterators in order**, or asks for input, and the operation it returns is one
that the network layer accepts. -/
theorem Outcome.after {c next : Conn} {op : Option Operation} (h : c.Ready)
    (hout : Outcome c next op) :
    next.After op ∧ next.input.size = c.input.size ∧
      ∀ result, op = some result → result.Accepted := by
  have hempty (hstate : c.state ≠ .enterCommand ∧ c.state ≠ .enterMode) : c.cmdBuffer = .new :=
    h.token hstate.1 hstate.2
  cases hout with
  | greet hstate =>
      refine ⟨h.move rfl rfl rfl h.itr_le (by simp [replied]) ?_, rfl, ?_⟩
      · intro hne
        exact absurd rfl hne
      · rintro _ ⟨⟩
        decide
  | commandRead hstate htoken =>
      exact read_after h rfl rfl (by simp [drained, hstate]) fun hne ↦ absurd hstate hne
  | commandEnd token ch more hstate hrest htoken hch next op hreaction =>
      have hmoved : Ready { c with itr := c.itr + token.length, cmdBuffer := .new } :=
        h.move rfl rfl rfl (h.front_le hrest) (by simp [hstate]) fun _ _ ↦ rfl
      exact (command_reaction_cases hreaction).after hmoved rfl
  | emptyRead blanks tail hstate hrest hblank htail =>
      exact read_after h rfl rfl (by simp [drained, hstate]) fun _ _ ↦ hempty (by simp [hstate])
  | emptyEnd blanks eoln more hstate hrest hblank heoln =>
      refine ⟨h.move rfl rfl rfl (h.front_le hrest) (by simp) ?_, rfl, by simp⟩
      intro _ _
      exact hempty (by simp [hstate])
  | emptyBad blanks cr ch more hstate hrest hblank hbad =>
      refine ⟨h.move rfl rfl rfl (h.front_le hrest) (by simp [replied]) ?_, rfl, ?_⟩
      · intro _ _
        exact hempty (by simp [hstate])
      · rintro _ ⟨⟩
        decide
  | modeRead blanks token hstate hrest hblank htoken =>
      exact read_after h rfl rfl (by simp [drained, hstate]) fun _ hne ↦ absurd hstate hne
  | modeEnd blanks token ch more hstate hrest hblank htoken hch hstart next op hreaction =>
      have hmoved : Ready { c with itr := c.itr + (blanks ++ token).length, cmdBuffer := .new } :=
        h.move rfl rfl rfl (h.front_le hrest) (by simp [hstate]) fun _ _ ↦ rfl
      exact (mode_reaction_cases hreaction).after hmoved rfl
  | startRead hstate hblank =>
      exact read_after h rfl rfl (by simp [drained, hstate]) fun _ _ ↦ hempty (by simp [hstate])
  | startBad blanks ch more hstate hrest hblank hch hline =>
      refine ⟨h.move rfl rfl rfl (h.front_le hrest) (by simp [replied]) ?_, rfl, ?_⟩
      · intro _ _
        exact hempty (by simp [hstate])
      · rintro _ ⟨⟩
        decide
  | startScan blanks ch more hstate hrest hblank hline eoD input hscan =>
      exact start_scan_after h (hempty (by simp [hstate])) hrest hscan
  | release hstate =>
      obtain ⟨hitr, heod⟩ := h.data_le (.inr hstate)
      refine ⟨⟨⟨h.size_pos, h.room_pos, Nat.zero_le _⟩, h.itr_le, h.eom_eq, h.pos_le,
        fun _ ↦ ⟨hitr, heod⟩, fun _ _ ↦ hempty (by simp [hstate])⟩, rfl, by simp⟩
  | echoRead hstate hroom hend =>
      obtain ⟨hcap, hout⟩ := h.echoed_sized c.data hroom
      refine ⟨⟨rfl, ⟨h.size_pos, hcap, hout⟩, by simp [echoed, hstate],
        fun _ _ ↦ hempty (by simp [hstate])⟩, rfl, ?_⟩
      rintro _ ⟨⟩
      exact h.size_pos
  | echoEnd hstate hroom hend op hop =>
      exact echo_end_after h (hempty (by simp [hstate])) hstate hroom hend hop
  | echoFull hstate hroom =>
      exact echo_full_after h (hempty (by simp [hstate])) hstate hroom
  | skipRead line tail hstate hrest hline count htail =>
      exact read_after h rfl rfl (by simp [drained, hstate]) fun _ _ ↦ hempty (by simp [hstate])
  | skipEnd line eoln more hstate hrest hline heoln =>
      refine ⟨h.move rfl rfl rfl (h.front_le hrest) (by simp) ?_, rfl, by simp⟩
      intro _ _
      exact hempty (by simp [hstate])
  | close hstate => exact ⟨h, rfl, by rintro _ ⟨⟩; exact trivial⟩

/-- A pass that asks for no input leaves the iterators in order. -/
theorem Outcome.ready {c next : Conn} {op : Option Operation} (h : c.Ready)
    (hout : Outcome c next op) (hread : op ≠ some c.readOp) : next.Ready := by
  obtain ⟨hafter, hsize, -⟩ := hout.after h
  cases op with
  | none => exact hafter
  | some result =>
      cases result with
      | read offset size timeout =>
          obtain ⟨hop, -⟩ := hafter
          rw [hop, readOp, hsize] at hread
          exact absurd rfl hread
      | write data timeout => exact hafter
      | close => exact hafter

/-! ## The variant -/

namespace Conn

/-- The handler stands in front of a byte that neither an empty line nor a command can start
with. -/
def Poisoned (c : Conn) : Prop :=
  c.state = .emptyLine ∧ ∃ ch more, c.rest = ch :: more ∧ isTokenChar ch = false ∧
    isBlank ch = false ∧ isLineEnd ch = false

/-- The next byte belongs to a command token. -/
def atToken (c : Conn) : Bool := (c.rest.head?.map isTokenChar).getD false

/-- The order of the states in which a pass can end without passing a byte. It depends on whether
the next byte belongs to a token, whether a command is pending, and whether the output is full. -/
def rankOf (atToken pending full : Bool) : State → Nat
  | .init => if atToken then 1 else 2
  | .enterCommand => if atToken then 0 else if pending then 8 else 1
  | .emptyLine => if atToken then 2 else 0
  | .enterMode => 7
  | .startProcessing => 6
  | .processingAfterWrite => 4
  | .processing => if full then 5 else 3
  | .handleError => 0
  | .terminate => 0

/-- The place of a state in this order. -/
def rank (c : Conn) : Nat :=
  rankOf c.atToken (decide (c.cmdBuffer ≠ .new)) (decide (c.output.restsize = 0)) c.state

/-- The bytes of the block that are still to be passed, and the order of the states. -/
def fuelLeft (c : Conn) : Nat := 16 * (c.input.size - c.itr) + c.rank

theorem rank_of_le (atToken pending full : Bool) (state : State) :
    rankOf atToken pending full state ≤ 8 := by
  cases state <;> revert atToken pending full <;> decide

theorem rank_le (c : Conn) : c.rank ≤ 8 := rank_of_le ..

/-- Passing a byte pays for any change of the state. -/
theorem fuel_left_lt {c next : Conn} (hsize : next.input.size = c.input.size)
    (hle : next.itr ≤ next.input.size) (hlt : c.itr < next.itr) : next.fuelLeft < c.fuelLeft := by
  have := next.rank_le
  rw [fuelLeft, fuelLeft, hsize] at *
  omega

/-- Without passing a byte the state has to go down. -/
theorem fuel_left_lt_of_rank {c next : Conn} (hsize : next.input.size = c.input.size)
    (hitr : next.itr = c.itr) (hrank : next.rank < c.rank) : next.fuelLeft < c.fuelLeft := by
  rw [fuelLeft, fuelLeft, hsize, hitr]
  omega

end Conn

/-- A first byte that is no token byte. -/
theorem at_token_eq {c : Conn} {ch : Byte} {more : List Byte} (hrest : c.rest = ch :: more) :
    c.atToken = isTokenChar ch := by
  simp [atToken, hrest]

/-- The empty token is the empty command, on the command line and as an argument. -/
theorem empty_command : Command.ofIndex (commandParser.lookup CmdBuffer.new.value) =
    some .empty := by
  decide

/-- A command whose name ends at the start of the block goes down in the order of the states. -/
theorem command_rank {c next : Conn} {op : Option Operation} (hstate : c.state = .enterCommand)
    (htoken : c.atToken = false) (hreaction : (next, op) = commandReaction
      { c with itr := c.itr + 0, cmdBuffer := .new }
      (Command.ofIndex (commandParser.lookup c.cmdBuffer.value))) :
    next.itr = c.itr ∧ next.rank < c.rank := by
  have hrank : c.rank = if c.cmdBuffer = .new then 1 else 8 := by
    simp [rank, rankOf, hstate, htoken]
  by_cases hnew : c.cmdBuffer = .new
  · rw [hnew, empty_command] at hreaction
    cases hreaction
    rw [hrank, if_pos hnew]
    exact ⟨rfl, show rankOf c.atToken _ _ .emptyLine < 1 by simp [rankOf, htoken]⟩
  · rw [if_neg hnew] at hrank
    cases hcmd : Command.ofIndex (commandParser.lookup c.cmdBuffer.value) with
    | none =>
        rw [hcmd] at hreaction
        cases hreaction
        exact ⟨rfl, show rankOf c.atToken _ _ .handleError < _ by simp [rankOf, hrank]⟩
    | some cmd =>
        rw [hcmd] at hreaction
        cases cmd with
        | empty =>
            cases hreaction
            exact ⟨rfl, show rankOf c.atToken _ _ .emptyLine < _ by simp [rankOf, hrank, htoken]⟩
        | caps =>
            cases hreaction
            exact ⟨rfl, show rankOf c.atToken (decide (CmdBuffer.new ≠ .new)) _ .enterCommand < _ by
              simp [rankOf, hrank, htoken]⟩
        | echo =>
            cases hreaction
            exact ⟨rfl, show rankOf c.atToken _ _ .enterMode < _ by simp [rankOf, hrank]⟩
        | quit =>
            cases hreaction
            exact ⟨rfl, show rankOf c.atToken _ _ .terminate < _ by simp [rankOf, hrank]⟩

/-- The argument of `echo` leads on to a state further down. -/
theorem mode_reaction_rank {moved next : Conn} {op : Option Operation} {mode : Option Mode}
    (hreaction : (next, op) = modeReaction moved mode) : next.rank ≤ 6 := by
  cases mode with
  | none =>
      cases hreaction
      show rankOf _ _ _ .handleError ≤ 6
      simp [rankOf]
  | some mode =>
      cases hreaction
      show rankOf _ _ _ .startProcessing ≤ 6
      simp [rankOf]

/-- A reaction does not move the iterator. -/
theorem Reaction.itr_eq {c next : Conn} {op : Option Operation} (h : Reaction c next op) :
    next.itr = c.itr := by
  cases h with
  | goesOn => rfl
  | replies => rfl

theorem rank_of_init (atToken pending full : Bool) : rankOf atToken pending full .init ≤ 2 := by
  revert atToken pending full
  decide

theorem eoln_length_pos {eoln : List Byte} (h : eoln = [LF] ∨ eoln = CRLF) : 0 < eoln.length := by
  rcases h with rfl | rfl <;> decide

/-- **Every pass that asks for no input uses up fuel**, except in front of a poisonous byte. -/
theorem Outcome.fuel {c next : Conn} {op : Option Operation} (h : c.Ready)
    (hout : Outcome c next op) (hpoison : ¬ c.Poisoned) (hread : op ≠ some c.readOp)
    (hclose : op ≠ some .close) : next.fuelLeft < c.fuelLeft := by
  have hready := hout.ready h hread
  obtain ⟨-, hsize, -⟩ := hout.after h
  have hmoved (hlt : c.itr < next.itr) : next.fuelLeft < c.fuelLeft := by
    have := hready.itr_le
    have := hready.eom_eq
    have := hready.pos_le
    exact fuel_left_lt hsize (by omega) hlt
  have hstill (hitr : next.itr = c.itr) (bound : Nat) (hnext : next.rank ≤ bound)
      (hrank : bound < c.rank) : next.fuelLeft < c.fuelLeft :=
    fuel_left_lt_of_rank hsize hitr (by omega)
  cases hout with
  | greet hstate =>
      have hbuffer := h.token (by simp [hstate]) (by simp [hstate])
      have hrank : c.rank = if c.atToken then 1 else 2 := by simp [rank, rankOf, hstate]
      refine hstill rfl (if c.atToken then 0 else 1) ?_ (by rw [hrank]; split <;> omega)
      show rankOf c.atToken (decide (c.cmdBuffer ≠ .new)) _ .enterCommand ≤ _
      simp [rankOf, hbuffer]
  | commandRead => exact absurd rfl hread
  | commandEnd token ch more hstate hrest htoken hch next op hreaction =>
      cases token with
      | nil =>
          have hat : c.atToken = false := (at_token_eq hrest).trans hch
          obtain ⟨hitr, hrank⟩ := command_rank hstate hat hreaction
          exact fuel_left_lt_of_rank hsize hitr hrank
      | cons first token =>
          have hitr := (command_reaction_cases hreaction).itr_eq
          simp only [List.length_cons] at hitr
          exact hmoved (by omega)
  | emptyRead => exact absurd rfl hread
  | emptyEnd blanks eoln more hstate hrest hblank heoln =>
      have := eoln_length_pos heoln
      refine hmoved ?_
      simp only [List.length_append]
      omega
  | emptyBad blanks cr ch more hstate hrest hblank hbad =>
      by_cases hpassed : (blanks ++ cr).length = 0
      · obtain ⟨rfl, rfl⟩ : blanks = [] ∧ cr = [] := by simpa using hpassed
        have hline : isBlank ch = false ∧ isLineEnd ch = false := by simpa using hbad
        cases hch : isTokenChar ch with
        | true =>
            have hat : c.atToken = true := (at_token_eq hrest).trans hch
            refine hstill rfl 1 ?_ (by simp [rank, rankOf, hstate, hat])
            show rankOf c.atToken _ _ .init ≤ 1
            simp [rankOf, hat]
        | false => exact absurd ⟨hstate, ch, more, hrest, hch, hline⟩ hpoison
      · refine hmoved ?_
        simp only [replied]
        omega
  | modeRead => exact absurd rfl hread
  | modeEnd blanks token ch more hstate hrest hblank htoken hch hstart next op hreaction =>
      have hitr := (mode_reaction_cases hreaction).itr_eq
      have hrank := mode_reaction_rank hreaction
      by_cases hpassed : (blanks ++ token).length = 0
      · exact hstill (by rw [hitr, hpassed]; rfl) 6 hrank (by simp [rank, rankOf, hstate])
      · exact hmoved (by rw [hitr]; simp only; omega)
  | startRead => exact absurd rfl hread
  | startBad blanks ch more hstate hrest hblank hch hline =>
      cases blanks with
      | nil => exact hstill rfl 2 (rank_of_init ..) (by simp [rank, rankOf, hstate])
      | cons first blanks => exact hmoved (by simp only [replied, List.length_cons]; omega)
  | startScan blanks ch more hstate hrest hblank hline eoD input hscan =>
      cases blanks with
      | nil =>
          refine hstill rfl 5 ?_ (by simp [rank, rankOf, hstate])
          show rankOf _ _ _ .processing ≤ 5
          simp only [rankOf]
          split <;> omega
      | cons first blanks => exact hmoved (by simp only [replied, List.length_cons]; omega)
  | release hstate =>
      refine hstill rfl 3 ?_ (by simp [rank, rankOf, hstate])
      have hroom := h.room_pos
      show rankOf _ _ (decide (c.output.release.restsize = 0)) .processing ≤ 3
      have hfree : ¬ c.output.release.restsize = 0 := Nat.ne_of_gt hroom
      simp [rankOf, hfree]
  | echoRead => exact absurd rfl hread
  | echoEnd hstate hroom hend op hop =>
      by_cases hpassed : c.data.length = 0
      · refine hstill (by simp only [echoed]; omega) 2 (rank_of_init ..) ?_
        simp only [rank, rankOf, hstate]
        split <;> omega
      · exact hmoved (by simp only [echoed]; omega)
  | echoFull hstate hroom =>
      have htake : (c.data.take c.output.restsize).length = c.output.restsize := by
        rw [List.length_take]
        omega
      by_cases hfull : c.output.restsize = 0
      · refine hstill (by simp only [echoed]; omega) 4 ?_ (by simp [rank, rankOf, hstate, hfull])
        show rankOf _ _ _ .processingAfterWrite ≤ 4
        simp [rankOf]
      · exact hmoved (by simp only [echoed]; omega)
  | skipRead => exact absurd rfl hread
  | skipEnd line eoln more hstate hrest hline heoln =>
      have := eoln_length_pos heoln
      refine hmoved ?_
      simp only [List.length_append]
      omega
  | close => exact absurd rfl hclose

end Smerp.Pecho
