import Smerp.SmerpHandler.Handler

/-!
# Nothing is lost between the client and the echo

The bytes that were received but not echoed yet lie at the start pointer, or at the front of the
read buffer while the handler waits for more. `Session.Ok` says where they are in each state. It
holds along every run without timeouts, signals and errors.
-/

namespace Smerp.SmerpHandler

open Lib Network

/-! ## One call -/

/-- Without a line feed no line end is found. -/
theorem find_line_end_none {buf : List Byte} {pos count : Nat}
    (h : LF ∉ Block.slice buf pos count) :
    findLineEnd buf pos count = none := by
  induction count generalizing pos with
  | zero => rfl
  | succ count ih =>
      unfold findLineEnd
      cases hch : buf[pos]? with
      | none =>
          have hnext : buf[pos + 1]? = none := by
            rw [List.getElem?_eq_none_iff] at hch ⊢
            omega
          rw [if_neg (by simp)]
          exact ih (by simp [Block.slice_outside hnext])
      | some ch =>
          rw [Block.slice_succ hch, List.mem_cons, not_or] at h
          rw [if_neg fun heq ↦ h.1 (Option.some.inj heq).symm]
          exact ih h.2

/-- The position behind the first line feed. -/
theorem find_line_end_some {buf body rest : List Byte} {pos count : Nat}
    (h : Block.slice buf pos count = body ++ LF :: rest) (hbody : LF ∉ body) :
    findLineEnd buf pos count = some (pos + (body.length + 1)) := by
  induction count generalizing pos body with
  | zero => simp at h
  | succ count ih =>
      unfold findLineEnd
      cases body with
      | nil =>
          obtain ⟨hch, -⟩ := Block.slice_eq_cons h
          rw [if_pos hch]
          rfl
      | cons ch body =>
          obtain ⟨hch, hrest⟩ := Block.slice_eq_cons h
          simp only [List.mem_cons, not_or] at hbody
          rw [hch, if_neg fun heq ↦ hbody.1 (Option.some.inj heq).symm]
          rw [Nat.add_sub_cancel] at hrest
          rw [ih hrest hbody.2, List.length_cons]
          congr 1
          omega

namespace Conn

/-- Where the bytes start that were received but not echoed yet. -/
def lineStart (c : Conn) : Nat := if c.state = .readInput then 0 else c.dataStart

/-- The `dataSize_` bytes not yet echoed. -/
def unechoed (c : Conn) : List Byte := Block.slice c.readBuf c.lineStart c.dataSize

/-- What `case OUTPUT_MSG` can do. -/
inductive Answer (c : Conn) (behind : List Byte) : Conn × Operation → Prop
  | quit (hquit : c.readsQuit behind) :
      Answer c behind ({ c with state := .terminate }, .write thanks 0)
  | line (body rest : List Byte) (hquit : ¬ c.readsQuit behind)
      (hbytes : Block.slice c.readBuf c.dataStart c.dataSize = body ++ LF :: rest)
        (hbody : LF ∉ body) :
      Answer c behind
        ({ c with
            outMsg := body ++ [LF]
            dataSize := rest.length
            dataStart := c.dataStart + (body.length + 1)
            state := .outputMsg }, .write (body ++ [LF]) 0)
  | long (hquit : ¬ c.readsQuit behind) (hclear : LF ∉ Block.slice c.readBuf c.dataStart c.dataSize)
      (hsize : readBufSize ≤ c.dataSize) :
      Answer c behind ({ c with state := .terminate }, .write lineTooLong 0)
  | more (hquit : ¬ c.readsQuit behind) (hclear : LF ∉ Block.slice c.readBuf c.dataStart c.dataSize)
      (hsize : c.dataSize < readBufSize) :
      Answer c behind
        ({ c with
            readBuf := Block.memmove c.readBuf 0 c.dataStart c.dataSize
            state := .readInput },
          .read c.dataSize (readBufSize - c.dataSize) c.idleTimeout)

/-- `case OUTPUT_MSG` on bytes inside of the read buffer. -/
theorem output_msg_answer (c : Conn) (behind : List Byte)
    (hfits : c.dataStart + c.dataSize ≤ c.readBuf.length) :
    Answer c behind (c.outputMsg behind) := by
  unfold outputMsg
  by_cases hquit : c.readsQuit behind
  · rw [if_pos hquit]
    exact .quit hquit
  · rw [if_neg hquit]
    by_cases hline : LF ∈ Block.slice c.readBuf c.dataStart c.dataSize
    · obtain ⟨body, rest, hbytes, hbody⟩ := List.eq_append_cons_of_mem hline
      have hlen := congrArg List.length hbytes
      rw [Block.slice_length, List.length_append, List.length_cons] at hlen
      have hsize : c.dataSize - (body.length + 1) = rest.length := by omega
      have houtMsg : Block.slice c.readBuf c.dataStart (body.length + 1) = body ++ [LF] := by
        have hfront := congrArg (List.take (body.length + 1)) hbytes
        rw [Block.slice, List.take_take, Nat.min_eq_left (by omega)] at hfront
        rw [Block.slice, hfront, List.append_cons, List.take_left' (by simp)]
      rw [find_line_end_some hbytes hbody]
      have hanswer := Answer.line (c := c) body rest hquit hbytes hbody
      simp only [Nat.add_sub_cancel_left, hsize, houtMsg]
      exact hanswer
    · rw [find_line_end_none hline]
      by_cases hsize : readBufSize ≤ c.dataSize
      · rw [if_pos hsize]
        exact .long hquit hline hsize
      · rw [if_neg hsize]
        exact .more hquit hline (Nat.lt_of_not_le hsize)

/-- Moving the bytes not yet echoed to the front of the read buffer keeps them. -/
theorem unechoed_moved {c next : Conn} (hfits : c.lineStart + c.dataSize ≤ c.readBuf.length)
    (hstate : next.state = .readInput)
    (hbuf : next.readBuf = Block.memmove c.readBuf 0 c.lineStart c.dataSize)
    (hsize : next.dataSize = c.dataSize) :
    next.lineStart = 0 ∧ next.unechoed = c.unechoed ∧ next.readBuf.length = c.readBuf.length := by
  have hstart : next.lineStart = 0 := by rw [lineStart, if_pos hstate]
  have hcount : c.unechoed.length = c.dataSize := by
    rw [unechoed, Block.slice_length]
    omega
  have hread := Block.slice_store [] c.unechoed [] (Nat.zero_le c.readBuf.length)
  rw [List.nil_append, List.append_nil, List.length_nil, hcount] at hread
  refine ⟨hstart, ?_, ?_⟩
  · rw [unechoed, hstart, hsize, hbuf]
    exact hread
  · rw [hbuf]
    exact Block.store_length (show 0 + c.unechoed.length ≤ c.readBuf.length by omega)

/-- The two states that look at the input look at the bytes not yet echoed. -/
theorem next_operation_input {c : Conn} (hstate : c.state = .readInput ∨ c.state = .outputMsg)
    (behind : List Byte) :
    c.nextOperation behind = outputMsg { c with dataStart := c.lineStart } behind := by
  unfold nextOperation lineStart
  rcases hstate with hstate | hstate
  · rw [hstate]
    rfl
  · rw [hstate]
    rfl

end Conn

/-! ## Runs -/

/-- A message that is echoed: one line feed, at its end. -/
def IsEchoed (message : List Byte) : Prop := ∃ body, LF ∉ body ∧ message = body ++ [LF]

namespace Session

/-- The invariant of a run without timeouts, signals and errors. -/
structure Ok (s : Session) : Prop where
  buf_length : s.conn.readBuf.length = readBufSize
  fits : s.conn.lineStart + s.conn.dataSize ≤ readBufSize
  conserved : s.echoed.flatten ++ s.conn.unechoed = s.received
  lines : ∀ message ∈ s.echoed, IsEchoed message
  requested : ∀ request ∈ s.pending, request = (s.conn.dataSize, readBufSize - s.conn.dataSize) ∧
    s.conn.lineStart = 0 ∧ LF ∉ s.conn.unechoed
  fresh : s.conn.state = .new ∨ s.conn.state = .helloSent →
    s.conn.dataStart = 0 ∧ s.conn.dataSize = 0 ∧ s.pending = none
  calm : s.conn.state ≠ .timeout ∧ s.conn.state ≠ .signalled

/-- A new connection. -/
theorem ok_start {readBuf : List Byte} (h : readBuf.length = readBufSize) :
    (start (.new readBuf)).Ok where
  buf_length := h
  fits := Nat.zero_le _
  conserved := by simp [start, echoed, Conn.unechoed, Conn.new]
  lines := by simp [start, echoed]
  requested := by simp [start]
  fresh := fun _ ↦ ⟨rfl, rfl, rfl⟩
  calm := by simp [start, Conn.new]

/-- The lines echoed after a call. -/
theorem echoed_after (s : Session) (next : Conn) (op : Operation) :
    (s.after next op).echoed =
      s.echoed ++ if next.state = .outputMsg then (sentBy next op).map Sent.message else [] := by
  show ((s.sent ++ sentBy next op).filter _).map _ = _
  rw [echoed, List.filter_append, List.map_append]
  congr 1
  cases op with
  | write data timeout => by_cases hstate : next.state = .outputMsg <;> simp [sentBy, hstate]
  | read => simp [sentBy]
  | close => simp [sentBy]

/-- A call that leaves the bytes not yet echoed where they are. -/
theorem Ok.after_still {s : Session} (h : s.Ok) {next : Conn} {op : Operation}
    (hread : op.isRead = false) (hbuf : next.readBuf = s.conn.readBuf)
    (hstart : next.lineStart = s.conn.lineStart) (hsize : next.dataSize = s.conn.dataSize)
    (hstate : next.state ≠ .outputMsg) (hcalm : next.state ≠ .timeout ∧ next.state ≠ .signalled)
    (hfresh : next.state = .new ∨ next.state = .helloSent →
      next.dataStart = 0 ∧ next.dataSize = 0 ∧ s.pending = none) : (s.after next op).Ok := by
  have hbytes : next.unechoed = s.conn.unechoed := by
    rw [Conn.unechoed, Conn.unechoed, hbuf, hstart, hsize]
  have hechoed : (s.after next op).echoed = s.echoed := by
    rw [echoed_after, if_neg hstate, List.append_nil]
  have hpending : (s.after next op).pending = s.pending := by
    cases op with
    | read => cases hread
    | write => rfl
    | close => rfl
  refine ⟨?_, ?_, ?_, ?_, ?_, ?_, hcalm⟩
  · show next.readBuf.length = readBufSize
    rw [hbuf]
    exact h.buf_length
  · show next.lineStart + next.dataSize ≤ readBufSize
    rw [hstart, hsize]
    exact h.fits
  · show _ ++ next.unechoed = s.received
    rw [hechoed, hbytes]
    exact h.conserved
  · rw [hechoed]
    exact h.lines
  · intro request hrequest
    show request = (next.dataSize, readBufSize - next.dataSize) ∧ next.lineStart = 0 ∧
      LF ∉ next.unechoed
    rw [hsize, hstart, hbytes]
    exact h.requested request (hpending ▸ hrequest)
  · intro hnew
    rw [hpending]
    exact hfresh hnew

/-- A call that moves the bytes not yet echoed to the front of the read buffer and asks for more. -/
theorem Ok.after_more {s : Session} (h : s.Ok) {next : Conn} {timeout : Nat}
    (hstate : next.state = .readInput)
    (hbuf : next.readBuf = Block.memmove s.conn.readBuf 0 s.conn.lineStart s.conn.dataSize)
    (hsize : next.dataSize = s.conn.dataSize) (hclear : LF ∉ s.conn.unechoed) :
    (s.after next (.read s.conn.dataSize (readBufSize - s.conn.dataSize) timeout)).Ok := by
  have hlen := h.buf_length
  have hfits := h.fits
  obtain ⟨hstart, hbytes, hsame⟩ := Conn.unechoed_moved (hlen.symm ▸ hfits) hstate hbuf hsize
  refine ⟨hsame.trans hlen, ?_, ?_, ?_, ?_, ?_, by simp [after, hstate]⟩
  · show next.lineStart + next.dataSize ≤ readBufSize
    rw [hstart, hsize]
    omega
  · show _ ++ next.unechoed = s.received
    rw [echoed_after, if_neg (by simp [hstate]), List.append_nil, hbytes]
    exact h.conserved
  · rw [echoed_after, if_neg (by simp [hstate]), List.append_nil]
    exact h.lines
  · intro request hrequest
    show request = (next.dataSize, readBufSize - next.dataSize) ∧ next.lineStart = 0 ∧
      LF ∉ next.unechoed
    rw [hsize, hstart, hbytes]
    exact ⟨(Option.some.inj hrequest).symm, rfl, hclear⟩
  · intro hnew
    have hnew' : next.state = .new ∨ next.state = .helloSent := hnew
    simp [hstate] at hnew'

/-- A call that echoes a line. -/
theorem Ok.after_line {s : Session} (h : s.Ok) {next : Conn} {body rest : List Byte} {timeout : Nat}
    (hbytes : s.conn.unechoed = body ++ LF :: rest) (hbody : LF ∉ body)
    (hstate : next.state = .outputMsg) (hbuf : next.readBuf = s.conn.readBuf)
    (hsize : next.dataSize = rest.length)
    (hstart : next.dataStart = s.conn.lineStart + (body.length + 1)) :
    (s.after next (.write (body ++ [LF]) timeout)).Ok := by
  have hlen := h.buf_length
  have hfits := h.fits
  have hstart' : next.lineStart = s.conn.lineStart + (body.length + 1) := by
    rw [Conn.lineStart, if_neg (by simp [hstate]), hstart]
  have hcount := congrArg List.length hbytes
  rw [Conn.unechoed, Block.slice_length, List.length_append, List.length_cons] at hcount
  have hechoed : (s.after next (.write (body ++ [LF]) timeout)).echoed =
    s.echoed ++ [body ++ [LF]] := by
    rw [echoed_after, if_pos hstate]
    rfl
  have hrest : next.unechoed = rest := by
    have hback := congrArg (List.drop (body.length + 1)) hbytes
    rw [Conn.unechoed, Block.slice, List.drop_take, List.drop_drop, List.append_cons,
      List.drop_left' (by simp)] at hback
    rw [show s.conn.dataSize - (body.length + 1) = rest.length by omega] at hback
    rw [Conn.unechoed, hstart', hsize, hbuf]
    exact hback
  -- no `READ` is in flight, since it would have been asked for without a line feed
  have hnone : s.pending = none := by
    cases hpending : s.pending with
    | none => rfl
    | some request =>
        obtain ⟨-, -, hclear⟩ := h.requested request hpending
        rw [hbytes] at hclear
        simp at hclear
  refine ⟨?_, ?_, ?_, ?_, ?_, ?_, by simp [after, hstate]⟩
  · show next.readBuf.length = readBufSize
    rw [hbuf]
    exact hlen
  · show next.lineStart + next.dataSize ≤ readBufSize
    rw [hstart', hsize]
    omega
  · show _ ++ next.unechoed = s.received
    rw [hechoed, hrest, ← h.conserved, hbytes]
    simp
  · rw [hechoed]
    intro message hmem
    rcases List.mem_append.mp hmem with hold | hlast
    · exact h.lines message hold
    · exact ⟨body, hbody, List.mem_singleton.mp hlast⟩
  · intro request hrequest
    have hrequest' : request ∈ s.pending := hrequest
    rw [hnone] at hrequest'
    cases hrequest'
  · intro hnew
    have hnew' : next.state = .new ∨ next.state = .helloSent := hnew
    simp [hstate] at hnew'

/-- **Every call keeps the invariant.** -/
theorem Ok.called {s : Session} (h : s.Ok) (behind : List Byte) : (s.called behind).Ok := by
  have hinput (hstate : s.conn.state = .readInput ∨ s.conn.state = .outputMsg) :
      (s.called behind).Ok := by
    have hanswer := Conn.output_msg_answer { s.conn with dataStart := s.conn.lineStart } behind
      (Nat.le_trans h.fits (Nat.le_of_eq h.buf_length.symm))
    rw [Session.called, Conn.next_operation_input hstate]
    generalize Conn.outputMsg { s.conn with dataStart := s.conn.lineStart } behind =
      outcome at hanswer
    cases hanswer with
    | quit _ => exact h.after_still rfl rfl rfl rfl (by simp) (by simp) (by simp)
    | long _ _ _ => exact h.after_still rfl rfl rfl rfl (by simp) (by simp) (by simp)
    | line body rest _ hbytes hbody => exact h.after_line hbytes hbody rfl rfl rfl rfl
    | more _ hclear _ => exact h.after_more rfl rfl rfl hclear
  cases hstate : s.conn.state with
  | new =>
      rw [Session.called, Conn.nextOperation, hstate]
      exact h.after_still rfl rfl (by simp [Conn.lineStart, hstate]) rfl (by simp) (by simp)
        fun _ ↦ h.fresh (.inl hstate)
  | helloSent =>
      -- the first `READ` is one for the whole buffer
      obtain ⟨hstart, hsize, -⟩ := h.fresh (.inr hstate)
      have hnothing : s.conn.unechoed = [] := by rw [Conn.unechoed, hsize, Block.slice_zero]
      have hbuf : s.conn.readBuf =
          Block.memmove s.conn.readBuf 0 s.conn.lineStart s.conn.dataSize := by
        simp [Block.memmove, Block.store, hsize]
      have hread : Operation.read 0 readBufSize s.conn.idleTimeout =
          .read s.conn.dataSize (readBufSize - s.conn.dataSize) s.conn.idleTimeout := by
        rw [hsize]
        rfl
      rw [Session.called, Conn.nextOperation, hstate, hread]
      exact h.after_more rfl hbuf rfl (by simp [hnothing])
  | readInput => exact hinput (.inl hstate)
  | outputMsg => exact hinput (.inr hstate)
  | timeout => exact absurd hstate h.calm.1
  | signalled => exact absurd hstate h.calm.2
  | terminate =>
      rw [Session.called, Conn.nextOperation, hstate]
      exact h.after_still rfl rfl (by simp [Conn.lineStart, hstate]) rfl (by simp) (by simp)
        (by simp)
  | finished =>
      rw [Session.called, Conn.nextOperation, hstate]
      exact h.after_still rfl rfl rfl rfl (by simp [hstate]) h.calm (by simp [hstate])

/-- **Every answer to a `READ` keeps the invariant.** -/
theorem Ok.fed {s : Session} (h : s.Ok) {data : List Byte} {request : Nat × Nat}
    (hpending : request ∈ s.pending) (hle : data.length ≤ request.2) : (s.fed data).Ok := by
  obtain ⟨rfl, hstart, hclear⟩ := h.requested request hpending
  have hlen := h.buf_length
  have hsum : s.conn.dataSize + data.length ≤ s.conn.readBuf.length := by
    have hfits := h.fits
    simp only at hle
    omega
  have hpending' : s.pending = some (s.conn.dataSize, readBufSize - s.conn.dataSize) := hpending
  have hfed : s.fed data = { s with
      conn := (s.conn.filled s.conn.dataSize data).networkInput data.length
      pending := none
      received := s.received ++ data } := by
    unfold Session.fed
    rw [hpending']
  have hstart' : ((s.conn.filled s.conn.dataSize data).networkInput data.length).lineStart =
    0 := hstart
  -- the new bytes stand behind those that were not echoed yet
  have hbytes : ((s.conn.filled s.conn.dataSize data).networkInput data.length).unechoed =
      s.conn.unechoed ++ data := by
    rw [Conn.unechoed, Conn.unechoed, hstart', hstart]
    exact Block.store_take data (show s.conn.dataSize ≤ s.conn.readBuf.length by omega)
  rw [hfed]
  refine ⟨?_, ?_, ?_, h.lines, by simp, ?_, h.calm⟩
  · exact (Block.store_length hsum).trans hlen
  · rw [hstart', Nat.zero_add, ← hlen]
    exact hsum
  · show s.echoed.flatten ++ _ = _
    rw [hbytes, ← List.append_assoc, h.conserved]
  · intro hfresh
    have hnone := (h.fresh hfresh).2.2
    rw [hpending'] at hnone
    cases hnone

/-- Every undisturbed action keeps the invariant. -/
theorem Ok.act {s : Session} {action : Action} (h : s.Ok) (hquiet : s.Undisturbed action) :
    (s.act action).Ok := by
  cases action with
  | call behind => exact h.called behind
  | input data =>
      obtain ⟨request, hpending, hle⟩ := hquiet
      exact h.fed hpending hle
  | timeout => exact hquiet.elim
  | signal => exact hquiet.elim
  | error => exact hquiet.elim

end Session

/-- **Nothing is lost, duplicated or reordered.** Along every run without timeouts, signals and
errors the lines echoed so far, followed by the bytes not yet echoed, are the bytes received so far,
and each echoed message is one line. -/
theorem echoed_and_unechoed_eq_received (readBuf : List Byte)
    (hmemory : readBuf.length = readBufSize) (actions : List Action)
    (hrun : Runs.Each Session.act Session.Undisturbed (.start (.new readBuf)) actions) :
    Runs.Always Session.act
      (fun s ↦ s.echoed.flatten ++ s.conn.unechoed = s.received ∧
        ∀ message ∈ s.echoed, IsEchoed message)
      (.start (.new readBuf)) actions := by
  have hinv : Runs.Always Session.act Session.Ok (.start (.new readBuf)) actions :=
    Runs.always_rule (fun _ _ h hquiet ↦ h.act hquiet) (Session.ok_start hmemory) hrun
  exact hinv.mono fun s h ↦ ⟨h.conserved, h.lines⟩

/-- Two lines that arrive in two reads. -/
theorem echoed_and_unechoed_eq_received_two : Runs.Always Session.act
    (fun s ↦ s.echoed.flatten ++ s.conn.unechoed = s.received ∧
      ∀ message ∈ s.echoed, IsEchoed message)
    (.start (.new (List.replicate readBufSize 0)))
    [.call [], .call [], .input (text "a\nb"), .call [], .call [], .input (text "\n"), .call []] :=
  echoed_and_unechoed_eq_received (List.replicate readBufSize 0) List.length_replicate _ (by decide)

end Smerp.SmerpHandler
