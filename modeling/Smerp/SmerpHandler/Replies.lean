import Mathlib.Data.List.TakeWhile
import Smerp.SmerpHandler.Conservation

/-!
# What the server answers

`replies` says what is to be sent for a stream of bytes: every line of it, up to a line that starts
with `quit` or that does not fit into the read buffer. The handler sends that, whatever the reads
are, as long as its test for `quit` does not read bytes of older lines.
-/

namespace Smerp.SmerpHandler

open Lib Network

/-! ## The purpose -/

/-- The messages that are sent, and whether the connection is closed behind them. -/
structure Replies where
  messages : List (List Byte)
  closes : Bool
  deriving DecidableEq, Repr

/-- The bytes that end a session. -/
def quit : List Byte := text "quit"

/-- What is to be sent for bytes that start with a new line. -/
def replies (bytes : List Byte) : Replies :=
  if quit <+: bytes then ⟨[thanks], true⟩
  else if readBufSize ≤ (bytes.takeWhile (· ≠ LF)).length then ⟨[lineTooLong], true⟩
  else if _h : LF ∈ bytes then
    let line := bytes.takeWhile (· ≠ LF) ++ [LF]
    let rest := replies (bytes.drop line.length)
    ⟨line :: rest.messages, rest.closes⟩
  else ⟨[], false⟩
termination_by bytes.length
decreasing_by
  have hpos := List.length_pos_of_mem _h
  simp only [List.length_drop, List.length_append, List.length_singleton]
  omega

/-- A line that starts with `quit` ends the session. -/
theorem replies_quit {bytes : List Byte} (h : quit <+: bytes) : replies bytes =
    ⟨[thanks], true⟩ := by
  rw [replies, if_pos h]

/-- Bytes without a line feed in front of the first one. -/
theorem take_line {body : List Byte} (h : LF ∉ body) (rest : List Byte) :
    (body ++ LF :: rest).takeWhile (· ≠ LF) = body := by
  rw [List.takeWhile_append_of_pos, List.takeWhile_cons_of_neg (by simp), List.append_nil]
  intro ch hch
  have hne : ch ≠ LF := fun heq ↦ h (heq ▸ hch)
  simpa using hne

/-- Bytes without a line feed. -/
theorem take_open {bytes : List Byte} (h : LF ∉ bytes) : bytes.takeWhile (· ≠ LF) = bytes := by
  rw [List.takeWhile_eq_self_iff]
  intro ch hch
  have hne : ch ≠ LF := fun heq ↦ h (heq ▸ hch)
  simpa using hne

/-- A line that fits is echoed. -/
theorem replies_line {body rest : List Byte} (hquit : ¬ quit <+: body ++ LF :: rest)
    (hbody : LF ∉ body) (hlen : body.length < readBufSize) :
    replies (body ++ LF :: rest) =
      ⟨(body ++ [LF]) :: (replies rest).messages, (replies rest).closes⟩ := by
  have hdrop : (body ++ LF :: rest).drop (body ++ [LF]).length = rest := by
    rw [List.append_cons body LF rest, List.drop_left]
  rw [replies, if_neg hquit, take_line hbody, if_neg (by omega), dif_pos (by simp)]
  simp only [hdrop]

/-- A line that does not fit ends the session. -/
theorem replies_long {bytes : List Byte} (hquit : ¬ quit <+: bytes) (hclear : LF ∉ bytes)
    (hlen : readBufSize ≤ bytes.length) : replies bytes = ⟨[lineTooLong], true⟩ := by
  rw [replies, if_neg hquit, take_open hclear, if_pos hlen]

/-- A line that is not complete is not answered. -/
theorem replies_open {bytes : List Byte} (hquit : ¬ quit <+: bytes) (hclear : LF ∉ bytes)
    (hlen : bytes.length < readBufSize) : replies bytes = ⟨[], false⟩ := by
  rw [replies, if_neg hquit, take_open hclear, if_neg (by omega), dif_neg hclear]

/-- Whether a line starts with `quit` does not depend on what follows it. -/
theorem quit_prefix_line {body : List Byte} (rest more : List Byte)
    (h : quit <+: body ++ LF :: more) : quit <+: body ++ LF :: rest := by
  have hline : body ++ [LF] <+: body ++ LF :: more := by
    rw [List.append_cons body LF more]
    exact List.prefix_append _ _
  rcases List.prefix_or_prefix_of_prefix h hline with hshort | hlong
  · rw [List.append_cons body LF rest]
    exact hshort.trans (List.prefix_append _ _)
  · have hmem : LF ∈ quit := hlong.subset (by simp)
    exact absurd hmem (by decide)

/-! ## The test for quit -/

section

variable {buf behind : List Byte} {start size : Nat}

/-- The test reads the front of the line when four bytes of it are there. -/
theorem quit_prefix_of_reads (h : Block.slice (buf ++ behind) start 4 = quit)
    (hfits : start + size ≤ buf.length) (hsize : 4 ≤ size) : quit <+:
      Block.slice buf start size := by
  rw [Block.slice_append_left behind (by omega), Block.slice_take buf start hsize] at h
  rw [← h]
  exact List.take_prefix _ _

/-- A line that starts with `quit` passes the test. -/
theorem reads_of_quit (h : quit <+: Block.slice buf start size) (behind : List Byte) :
    Block.slice (buf ++ behind) start 4 = quit := by
  have hlen := h.length_le
  rw [Block.slice_length] at hlen
  have hfour : quit.length = 4 := by decide
  have hfits : start + 4 ≤ buf.length := by omega
  rw [Block.slice_append_left behind hfits, Block.slice_take buf start (show 4 ≤ size by omega)]
  obtain ⟨rest, hrest⟩ := h
  rw [← hrest, ← hfour, List.take_left]

/-- Fewer than four bytes that pass the test are a front of `quit`. -/
theorem stale_bytes (h : Block.slice (buf ++ behind) start 4 = quit)
    (hfits : start + size ≤ buf.length) (hsize : size < 4) :
    Block.slice buf start size = quit.take size := by
  rw [← Block.slice_append_left behind hfits, ← h]
  exact Block.slice_take (buf ++ behind) start (Nat.le_of_lt hsize)

end

/-! ## Sessions -/

/-- The test for `quit` succeeds although fewer than four bytes of the line were received. -/
def Conn.StaleQuit (c : Conn) (behind : List Byte) : Prop :=
  (c.state = .readInput ∨ c.state = .outputMsg) ∧ c.dataSize < 4 ∧
    Block.slice (c.readBuf ++ behind) c.lineStart 4 = quit

instance (c : Conn) (behind : List Byte) : Decidable (c.StaleQuit behind) :=
  inferInstanceAs (Decidable (_ ∧ _))

namespace Session

/-- An action that is not a call on bytes that were not received. -/
def Fresh (s : Session) : Action → Prop
  | .call behind => ¬ s.conn.StaleQuit behind
  | _ => True

/-- A session, and what its next calls find in the memory behind the read buffer. -/
abbrev Calling := Session × (Nat → List Byte)

/-- The next call. -/
def turn (c : Calling) : Calling := (c.1.called (c.2 0), fun call ↦ c.2 (call + 1))

/-- The handler waits for input, or it has closed the connection. -/
def Rests (s : Session) : Prop := s.pending ≠ none ∨ s.closed = true

/-- What is sent is what is to be sent for the bytes received: never anything else, all of it when
the handler asks for more input or closes the connection, and it does one of the two after finitely
many calls. -/
structure Exact (s : Session) : Prop where
  front : s.messages <+: welcome :: (replies s.received).messages
  waits : s.pending ≠ none → s.messages = welcome :: (replies s.received).messages ∧
    (replies s.received).closes = false
  closes : s.closed = true → s.messages = welcome :: (replies s.received).messages ∧
    (replies s.received).closes = true
  rests : ∀ memory, ∃ calls, Rests (turn^[calls] (s, memory)).1

/-- The invariant of a run whose calls do not test older bytes. -/
structure Faithful (s : Session) : Prop extends Ok s where
  follows : ∀ more, replies (s.echoed.flatten ++ more) =
    ⟨s.echoed ++ (replies more).messages, (replies more).closes⟩
  new : s.conn.state = .new → s.sent = []
  helloSent : s.conn.state = .helloSent → s.sent = [⟨.helloSent, welcome⟩]
  open_line : s.conn.state = .readInput ∨ s.conn.state = .outputMsg →
    s.messages = welcome :: s.echoed
  waits : s.pending ≠ none → s.conn.state = .readInput ∧ replies s.conn.unechoed = ⟨[], false⟩
  ended : s.conn.state = .terminate ∨ s.conn.state = .finished → ∃ last,
    s.messages = welcome :: (s.echoed ++ [last]) ∧ replies s.conn.unechoed = ⟨[last], true⟩
  closed : s.closed = true → s.conn.state = .finished

/-- What is to be sent for the bytes received are the lines echoed so far and what is to be sent for
the bytes not yet echoed. -/
theorem Faithful.replies_received {s : Session} (h : s.Faithful) : replies s.received =
    ⟨s.echoed ++ (replies s.conn.unechoed).messages, (replies s.conn.unechoed).closes⟩ := by
  rw [← h.conserved]
  exact h.follows _

/-- A call that looks at the input, and what it can do. -/
theorem Ok.called_input {s : Session} (h : s.Ok)
    (hstate : s.conn.state = .readInput ∨ s.conn.state = .outputMsg) (behind : List Byte) :
    Conn.Answer { s.conn with dataStart := s.conn.lineStart } behind
      (s.conn.nextOperation behind) := by
  rw [Conn.next_operation_input hstate]
  exact Conn.output_msg_answer _ behind (Nat.le_trans h.fits (Nat.le_of_eq h.buf_length.symm))

/-- The order of the states in which a call does not consume a line. -/
def rank : State → Nat
  | .new => 3
  | .helloSent => 2
  | .terminate => 0
  | .finished => 0
  | _ => 1

/-- One call on the way to a rest. -/
theorem Ok.called_rests {s : Session} (h : s.Ok) (behind : List Byte) :
    (s.called behind).Rests ∨
      2 * (s.called behind).conn.dataSize + rank (s.called behind).conn.state <
      2 * s.conn.dataSize + rank s.conn.state := by
  have hinput (hstate : s.conn.state = .readInput ∨ s.conn.state = .outputMsg) :
      (s.called behind).Rests ∨
        2 * (s.called behind).conn.dataSize + rank (s.called behind).conn.state <
          2 * s.conn.dataSize + rank s.conn.state := by
    have hrank : rank s.conn.state = 1 :=
      by rcases hstate with hstate | hstate <;> rw [hstate] <;> rfl
    have hanswer := h.called_input hstate behind
    rw [Session.called, hrank]
    generalize s.conn.nextOperation behind = outcome at hanswer
    cases hanswer with
    | quit _ => exact .inr (Nat.lt_succ_self _)
    | long _ _ _ => exact .inr (Nat.lt_succ_self _)
    | more _ _ _ => exact .inl (.inl (Option.some_ne_none _))
    | line body rest _ hbytes _ =>
        have hlen := congrArg List.length hbytes
        rw [Block.slice_length, List.length_append, List.length_cons] at hlen
        refine .inr ?_
        show 2 * rest.length + 1 < 2 * s.conn.dataSize + 1
        simp only at hlen
        omega
  cases hstate : s.conn.state with
  | new =>
      refine .inr ?_
      rw [Session.called, Conn.nextOperation, hstate]
      exact Nat.lt_succ_self _
  | helloSent =>
      refine .inl (.inl ?_)
      rw [Session.called, Conn.nextOperation, hstate]
      exact Option.some_ne_none _
  | readInput => exact hstate ▸ hinput (.inl hstate)
  | outputMsg => exact hstate ▸ hinput (.inr hstate)
  | timeout => exact absurd hstate h.calm.1
  | signalled => exact absurd hstate h.calm.2
  | terminate =>
      refine .inl (.inr ?_)
      rw [Session.called, Conn.nextOperation, hstate]
      exact Bool.or_true _
  | finished =>
      refine .inl (.inr ?_)
      rw [Session.called, Conn.nextOperation, hstate]
      exact Bool.or_true _

/-- **Every handler comes to rest**: it asks for more input or closes the connection. -/
theorem Ok.rests {s : Session} (h : s.Ok) (memory : Nat → List Byte) :
    ∃ calls, Rests (turn^[calls] (s, memory)).1 := by
  refine eventually_rule (fun c : Calling ↦ c.1.Ok) (fun c ↦ c.1.Rests) (fun _ ↦ 0)
    (fun c ↦ 2 * c.1.conn.dataSize + rank c.1.conn.state) 1 ?_ (fun _ _ _ ↦ Nat.one_pos)
    (s, memory) h
  intro c hok _
  refine ⟨hok.called (c.2 0), ?_⟩
  exact (hok.called_rests (c.2 0)).imp_right fun hless ↦ .inr ⟨rfl, hless⟩

/-- A faithful session is exact. -/
theorem Faithful.exact {s : Session} (h : s.Faithful) : s.Exact := by
  have hall := h.replies_received
  refine ⟨?_, ?_, ?_, h.rests⟩
  · rw [hall]
    have hecho : welcome :: s.echoed <+: welcome ::
      (s.echoed ++ (replies s.conn.unechoed).messages) :=
      List.prefix_append (welcome :: s.echoed) _
    cases hstate : s.conn.state with
    | new =>
        rw [messages, h.new hstate]
        exact List.nil_prefix
    | helloSent =>
        rw [messages, h.helloSent hstate]
        exact List.prefix_append [welcome] _
    | readInput =>
        rw [h.open_line (.inl hstate)]
        exact hecho
    | outputMsg =>
        rw [h.open_line (.inr hstate)]
        exact hecho
    | timeout => exact absurd hstate h.calm.1
    | signalled => exact absurd hstate h.calm.2
    | terminate =>
        obtain ⟨last, hmessages, hreplies⟩ := h.ended (.inl hstate)
        have hsame : welcome :: (s.echoed ++ (replies s.conn.unechoed).messages) = s.messages := by
          rw [hmessages, hreplies]
        exact hsame ▸ List.prefix_refl s.messages
    | finished =>
        obtain ⟨last, hmessages, hreplies⟩ := h.ended (.inr hstate)
        have hsame : welcome :: (s.echoed ++ (replies s.conn.unechoed).messages) = s.messages := by
          rw [hmessages, hreplies]
        exact hsame ▸ List.prefix_refl s.messages
  · intro hpending
    obtain ⟨hstate, hreplies⟩ := h.waits hpending
    rw [hall, hreplies, h.open_line (.inl hstate), List.append_nil]
    exact ⟨rfl, rfl⟩
  · intro hclosed
    obtain ⟨last, hmessages, hreplies⟩ := h.ended (.inr (h.closed hclosed))
    rw [hall, hreplies, hmessages]
    exact ⟨rfl, rfl⟩

/-- A new connection. -/
theorem faithful_start {readBuf : List Byte} (h : readBuf.length = readBufSize) :
    (start (.new readBuf)).Faithful where
  toOk := ok_start h
  follows := fun _ ↦ rfl
  new := fun _ ↦ rfl
  helloSent := by simp [start, Conn.new]
  open_line := by simp [start, Conn.new]
  waits := by simp [start]
  ended := by simp [start, Conn.new]
  closed := by simp [start]

/-- An answer to a `READ` keeps a session faithful. -/
theorem Faithful.fed {s : Session} (h : s.Faithful) {data : List Byte} {request : Nat × Nat}
    (hpending : request ∈ s.pending) (hle : data.length ≤ request.2) : (s.fed data).Faithful := by
  have hsome : s.pending = some request := hpending
  obtain ⟨hstate, -⟩ := h.waits (by simp [hsome])
  have hfed : s.fed data = { s with
      conn := (s.conn.filled request.1 data).networkInput data.length
      pending := none
      received := s.received ++ data } := by
    unfold Session.fed
    rw [hsome]
  have hstate' : (s.fed data).conn.state = .readInput := by
    rw [hfed]
    exact hstate
  have hsent : (s.fed data).sent = s.sent := by rw [hfed]
  refine ⟨h.toOk.fed hpending hle, ?_, ?_, ?_, ?_, ?_, ?_, ?_⟩
  · rw [echoed, hsent]
    exact h.follows
  · simp [hstate']
  · simp [hstate']
  · intro _
    rw [messages, echoed, hsent]
    exact h.open_line (.inl hstate)
  · rw [hfed]
    exact fun hnone ↦ absurd rfl hnone
  · simp [hstate']
  · intro hclosed
    rw [hfed] at hclosed
    have hfinished := h.closed hclosed
    rw [hstate] at hfinished
    cases hfinished

/-- The messages after a call. -/
theorem messages_after (s : Session) (next : Conn) (op : Operation) :
    (s.after next op).messages = s.messages ++ (sentBy next op).map Sent.message := by
  show (s.sent ++ sentBy next op).map _ = _
  rw [List.map_append]
  rfl

/-- A session in which nothing was closed goes on after a message. -/
theorem Faithful.not_closed {s : Session} (h : s.Faithful) (hstate : s.conn.state ≠ .finished)
    {next : Conn} {op : Operation} (hclose : op ≠ .close) : (s.after next op).closed = false := by
  show (s.closed || decide (op = .close)) = false
  cases hclosed : s.closed with
  | true => exact absurd (h.closed hclosed) hstate
  | false => simp [hclose]

/-- The last message of a session. -/
theorem Faithful.after_last {s : Session} (h : s.Faithful) {next : Conn} {last : List Byte}
    (hok : (s.after next (.write last 0)).Ok)
    (hopen : s.conn.state = .readInput ∨ s.conn.state = .outputMsg)
    (hstate : next.state = .terminate)
    (hbytes : next.unechoed = s.conn.unechoed) (hreplies : replies s.conn.unechoed =
      ⟨[last], true⟩) :
    (s.after next (.write last 0)).Faithful := by
  have hstate' : (s.after next (.write last 0)).conn.state = .terminate := hstate
  have hechoed : (s.after next (.write last 0)).echoed = s.echoed := by
    rw [echoed_after, if_neg (by simp [hstate]), List.append_nil]
  have hopen' : s.conn.state ≠ .finished := by rcases hopen with hopen | hopen <;> simp [hopen]
  refine ⟨hok, ?_, by simp [hstate'], by simp [hstate'], by simp [hstate'], ?_,
    fun _ ↦ ⟨last, ?_, ?_⟩, ?_⟩
  · rw [hechoed]
    exact h.follows
  · intro hpending
    -- a handler that waits for input has nothing to send
    have hwaits := (h.waits hpending).2
    rw [hreplies] at hwaits
    cases hwaits
  · rw [messages_after, hechoed, h.open_line hopen]
    rfl
  · show replies next.unechoed = _
    rw [hbytes]
    exact hreplies
  · intro hclosed
    rw [h.not_closed hopen' (by simp)] at hclosed
    cases hclosed

/-- A line of a session. -/
theorem Faithful.after_line {s : Session} (h : s.Faithful) {next : Conn} {body rest : List Byte}
    (hok : (s.after next (.write (body ++ [LF]) 0)).Ok)
    (hopen : s.conn.state = .readInput ∨ s.conn.state = .outputMsg)
    (hbytes : s.conn.unechoed = body ++ LF :: rest) (hbody : LF ∉ body)
    (hquit : ¬ quit <+: s.conn.unechoed) (hstate : next.state = .outputMsg) :
    (s.after next (.write (body ++ [LF]) 0)).Faithful := by
  have hstate' : (s.after next (.write (body ++ [LF]) 0)).conn.state = .outputMsg := hstate
  have hechoed : (s.after next (.write (body ++ [LF]) 0)).echoed = s.echoed ++ [body ++ [LF]] := by
    rw [echoed_after, if_pos hstate]
    rfl
  have hopen' : s.conn.state ≠ .finished := by rcases hopen with hopen | hopen <;> simp [hopen]
  have hlen : body.length < readBufSize := by
    have hcount := congrArg List.length hbytes
    have hfits := h.fits
    rw [Conn.unechoed, Block.slice_length, List.length_append, List.length_cons] at hcount
    omega
  have hline (more : List Byte) : replies (body ++ LF :: more) =
      ⟨(body ++ [LF]) :: (replies more).messages, (replies more).closes⟩ := by
    refine replies_line (fun hprefix ↦ hquit ?_) hbody hlen
    rw [hbytes]
    exact quit_prefix_line rest more hprefix
  refine ⟨hok, ?_, by simp [hstate'], by simp [hstate'], ?_, ?_, by simp [hstate'], ?_⟩
  · intro more
    have hall := h.follows (body ++ LF :: more)
    rw [hline] at hall
    rw [hechoed, List.flatten_append, List.append_assoc, List.flatten_singleton, List.append_assoc,
      List.singleton_append, hall, List.append_assoc]
    rfl
  · intro _
    rw [messages_after, hechoed, h.open_line hopen]
    rfl
  · intro hpending
    have hwaits := (h.waits hpending).2
    rw [hbytes, hline] at hwaits
    cases hwaits
  · intro hclosed
    rw [h.not_closed hopen' (by simp)] at hclosed
    cases hclosed

/-- The request for more input. -/
theorem Faithful.after_more {s : Session} (h : s.Faithful) {next : Conn} {offset size timeout : Nat}
    (hok : (s.after next (.read offset size timeout)).Ok) (hbusy : s.conn.state ≠ .finished)
    (hstate : next.state = .readInput) (hmessages : s.messages = welcome :: s.echoed)
    (hreplies : replies s.conn.unechoed = ⟨[], false⟩) :
    (s.after next (.read offset size timeout)).Faithful := by
  have hstate' : (s.after next (.read offset size timeout)).conn.state = .readInput := hstate
  have hechoed : (s.after next (.read offset size timeout)).echoed = s.echoed := by
    rw [echoed_after, if_neg (by simp [hstate]), List.append_nil]
  have hbytes : next.unechoed = s.conn.unechoed := by
    have hsame : _ ++ next.unechoed = s.received := hok.conserved
    rw [hechoed, ← h.conserved, List.append_cancel_left_eq] at hsame
    exact hsame
  refine ⟨hok, ?_, by simp [hstate'], by simp [hstate'], ?_, fun _ ↦ ⟨hstate, ?_⟩,
    by simp [hstate'], ?_⟩
  · rw [hechoed]
    exact h.follows
  · intro _
    rw [messages_after, hechoed, hmessages]
    exact List.append_nil _
  · show replies next.unechoed = _
    rw [hbytes]
    exact hreplies
  · intro hclosed
    rw [h.not_closed hbusy (by simp)] at hclosed
    cases hclosed

/-- A call after which nothing more is sent. -/
theorem Faithful.after_close {s : Session} (h : s.Faithful) {next : Conn}
    (hok : (s.after next .close).Ok) (hend : s.conn.state = .terminate ∨ s.conn.state = .finished)
    (hstate : next.state = .finished) (hbytes : next.unechoed = s.conn.unechoed) :
    (s.after next .close).Faithful := by
  have hstate' : (s.after next .close).conn.state = .finished := hstate
  have hmessages : (s.after next .close).messages = s.messages := by
    rw [messages_after]
    exact List.append_nil _
  have hechoed : (s.after next .close).echoed = s.echoed := by
    rw [echoed_after, if_neg (by simp [hstate]), List.append_nil]
  refine ⟨hok, ?_, by simp [hstate'], by simp [hstate'], by simp [hstate'], ?_, ?_, fun _ ↦ hstate⟩
  · rw [hechoed]
    exact h.follows
  · intro hpending
    have hwaits := (h.waits hpending).1
    rcases hend with hend | hend <;> simp [hend] at hwaits
  · intro _
    show ∃ last, _ ∧ replies next.unechoed = _
    rw [hmessages, hechoed, hbytes]
    exact h.ended hend

/-- The welcome message. -/
theorem Faithful.after_welcome {s : Session} (h : s.Faithful) (hnew : s.conn.state = .new)
    {next : Conn} (hok : (s.after next (.write welcome 0)).Ok) (hstate : next.state = .helloSent) :
    (s.after next (.write welcome 0)).Faithful := by
  have hstate' : (s.after next (.write welcome 0)).conn.state = .helloSent := hstate
  have hsent : (s.after next (.write welcome 0)).sent = [⟨.helloSent, welcome⟩] := by
    show s.sent ++ [⟨next.state, welcome⟩] = _
    rw [h.new hnew, hstate]
    rfl
  refine ⟨hok, ?_, by simp [hstate'], fun _ ↦ hsent, by simp [hstate'], ?_, by simp [hstate'], ?_⟩
  · intro more
    rw [echoed, hsent]
    rfl
  · intro hpending
    exact absurd (h.fresh (.inl hnew)).2.2 hpending
  · intro hclosed
    rw [h.not_closed (by simp [hnew]) (by simp)] at hclosed
    cases hclosed

/-- A call that looks at the input. -/
theorem Faithful.called_input {s : Session} (h : s.Faithful)
    (hopen : s.conn.state = .readInput ∨ s.conn.state = .outputMsg) {behind : List Byte}
    (hfresh : ¬ s.conn.StaleQuit behind) : (s.called behind).Faithful := by
  have hok := h.toOk.called behind
  have hfits : s.conn.lineStart + s.conn.dataSize ≤ s.conn.readBuf.length :=
    Nat.le_trans h.fits (Nat.le_of_eq h.buf_length.symm)
  have hbusy : s.conn.state ≠ .finished := by rcases hopen with hopen | hopen <;> simp [hopen]
  have hcount : s.conn.unechoed.length = s.conn.dataSize := by
    rw [Conn.unechoed, Block.slice_length]
    omega
  have hanswer := h.toOk.called_input hopen behind
  rw [Session.called] at hok ⊢
  generalize s.conn.nextOperation behind = outcome at hanswer hok ⊢
  -- a line that starts with `quit` passes the test
  have hnot (hquit : ¬ Conn.readsQuit { s.conn with dataStart := s.conn.lineStart } behind) :
      ¬ quit <+: s.conn.unechoed :=
    fun hprefix ↦ hquit (reads_of_quit hprefix behind)
  cases hanswer with
  | quit hquit =>
      refine h.after_last hok hopen rfl rfl (replies_quit (quit_prefix_of_reads hquit hfits ?_))
      exact Nat.le_of_not_lt fun hsize ↦ hfresh ⟨hopen, hsize, hquit⟩
  | line body rest hquit hbytes hbody =>
      exact h.after_line hok hopen hbytes hbody (hnot hquit) rfl
  | long hquit hclear hsize =>
      exact h.after_last hok hopen rfl rfl
        (replies_long (hnot hquit) hclear (Nat.le_trans hsize (Nat.le_of_eq hcount.symm)))
  | more hquit hclear hsize =>
      exact h.after_more hok hbusy rfl (h.open_line hopen)
        (replies_open (hnot hquit) hclear (Nat.lt_of_le_of_lt (Nat.le_of_eq hcount) hsize))

/-- **A call that tests no older bytes keeps a session faithful.** -/
theorem Faithful.called {s : Session} (h : s.Faithful) {behind : List Byte}
    (hfresh : ¬ s.conn.StaleQuit behind) : (s.called behind).Faithful := by
  have hok := h.toOk.called behind
  cases hstate : s.conn.state with
  | new =>
      rw [Session.called, Conn.nextOperation, hstate] at hok ⊢
      exact h.after_welcome hstate hok rfl
  | helloSent =>
      have hnothing : s.conn.unechoed = [] := by
        rw [Conn.unechoed, (h.fresh (.inr hstate)).2.1, Block.slice_zero]
      have hmessages : s.messages = welcome :: s.echoed := by
        rw [messages, echoed, h.helloSent hstate]
        rfl
      rw [Session.called, Conn.nextOperation, hstate] at hok ⊢
      refine h.after_more hok (by simp [hstate]) rfl hmessages ?_
      rw [hnothing]
      exact replies_open (by decide) (by simp) (by decide)
  | readInput => exact h.called_input (.inl hstate) hfresh
  | outputMsg => exact h.called_input (.inr hstate) hfresh
  | timeout => exact absurd hstate h.calm.1
  | signalled => exact absurd hstate h.calm.2
  | terminate =>
      rw [Session.called, Conn.nextOperation, hstate] at hok ⊢
      refine h.after_close hok (.inl hstate) rfl ?_
      simp [Conn.unechoed, Conn.lineStart, hstate]
  | finished =>
      rw [Session.called, Conn.nextOperation, hstate] at hok ⊢
      exact h.after_close hok (.inr hstate) hstate rfl

/-- **A call that tests older bytes says good-bye to a client that has not said it.** -/
theorem Faithful.stale {s : Session} (h : s.Faithful) {behind : List Byte}
    (hstale : s.conn.StaleQuit behind) : ¬ (s.called behind).Exact := by
  obtain ⟨hopen, hsize, hquit⟩ := hstale
  have hfits : s.conn.lineStart + s.conn.dataSize ≤ s.conn.readBuf.length :=
    Nat.le_trans h.fits (Nat.le_of_eq h.buf_length.symm)
  have hbytes : s.conn.unechoed = quit.take s.conn.dataSize := stale_bytes hquit hfits hsize
  have hlen : s.conn.unechoed.length < 4 := by
    rw [hbytes, List.length_take]
    omega
  have hreplies : replies s.conn.unechoed = ⟨[], false⟩ := by
    refine replies_open ?_ ?_ (Nat.lt_trans hlen (by decide))
    · intro hprefix
      have hfour : quit.length ≤ _ := hprefix.length_le
      rw [show quit.length = 4 by decide] at hfour
      omega
    · intro hmem
      rw [hbytes] at hmem
      exact absurd (List.mem_of_mem_take hmem) (by decide)
  have hcalled : (s.called behind).messages = s.messages ++ [thanks] := by
    have hreads : Conn.readsQuit { s.conn with dataStart := s.conn.lineStart } behind := hquit
    rw [Session.called, Conn.next_operation_input hopen, Conn.outputMsg, if_pos hreads,
      messages_after]
    rfl
  intro hexact
  have hfront := hexact.front.length_le
  have hreceived : (s.called behind).received = s.received := rfl
  rw [hcalled, h.open_line hopen, hreceived, h.replies_received, hreplies, List.append_nil,
    List.length_append, List.length_singleton] at hfront
  exact absurd hfront (Nat.not_succ_le_self _)

end Session

/-- **What the handler sends depends on the bytes received alone if and only if its test for `quit`
never succeeds on fewer than four bytes of the line.** -/
theorem answers_received_iff (readBuf : List Byte) (hmemory : readBuf.length = readBufSize)
    (actions : List Action)
    (hrun : Runs.Each Session.act Session.Undisturbed (.start (.new readBuf)) actions) :
    Runs.Always Session.act Session.Exact (.start (.new readBuf)) actions ↔
      Runs.Each Session.act Session.Fresh (.start (.new readBuf)) actions := by
  refine Runs.always_iff_rule ?_ (fun _ h ↦ h.exact) ?_ (Session.faithful_start hmemory) hrun
  · intro s action h hquiet hfresh
    cases action with
    | call behind => exact h.called hfresh
    | input data =>
        obtain ⟨request, hpending, hle⟩ := hquiet
        exact h.fed hpending hle
    | timeout => exact hquiet.elim
    | signal => exact hquiet.elim
    | error => exact hquiet.elim
  · intro s action h _ hstale
    cases action with
    | call behind => exact h.stale (of_not_not hstale)
    | input data => exact absurd trivial hstale
    | timeout => exact absurd trivial hstale
    | signal => exact absurd trivial hstale
    | error => exact absurd trivial hstale

/-- A line that is no `quit`, and the first byte of the next one. -/
theorem answers_received_iff_line : Runs.Always Session.act Session.Exact
      (.start (.new (List.replicate readBufSize 0)))
      [.call [], .call [], .input (text "exit\n"), .call [], .call [], .input (text "q"),
        .call []] ↔
    Runs.Each Session.act Session.Fresh (.start (.new (List.replicate readBufSize 0)))
      [.call [], .call [], .input (text "exit\n"), .call [], .call [], .input (text "q"),
        .call []] :=
  answers_received_iff (List.replicate readBufSize 0) List.length_replicate _ (by decide)

/-- The line `xuit`, and then the first byte of another line: the buffer reads `quit`, and the
session is ended. -/
theorem not_answers_received : ¬ ∀ readBuf : List Byte, readBuf.length = readBufSize →
    ∀ actions, Runs.Each Session.act Session.Undisturbed (.start (.new readBuf)) actions →
      Runs.Always Session.act Session.Exact (.start (.new readBuf)) actions := by
  intro h
  have halways := h (List.replicate readBufSize 0) List.length_replicate
    [.call [], .call [], .input (text "xuit\n"), .call [], .call [], .input (text "q"), .call []]
    (by decide)
  have hlast : Session.Exact _ := halways.2.2.2.2.2.2.2
  have hreplies : replies (text "xuit" ++ LF :: text "q") = ⟨[text "xuit\n"], false⟩ := by
    rw [replies_line (by decide) (by decide) (by decide),
      replies_open (by decide) (by decide) (by decide)]
    rfl
  have hfront : [welcome, text "xuit\n", thanks] <+: welcome ::
    (replies (text "xuit" ++ LF :: text "q")).messages :=
    hlast.front
  rw [hreplies] at hfront
  exact absurd hfront (by decide)

end Smerp.SmerpHandler
