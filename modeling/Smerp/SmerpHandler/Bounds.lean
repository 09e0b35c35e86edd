import Smerp.SmerpHandler.Connection
import Smerp.SmerpHandler.Conservation

/-!
# The read buffer of the server's handler

Timeouts, signals and errors may come at any time, and a `READ` in flight may be answered behind
them. `Session.Inside` holds along every such run: what the handler looks at lies inside of the read
buffer, and what it asks for fits behind it.
-/

namespace Smerp.SmerpHandler

open Lib Network

namespace Session

/-- `nextOperation` may be called at any time, and a timeout, a signal or an error may come at any
time. A `READ` is answered by at least one and at most the requested number of bytes. -/
def Possible (s : Session) : Action → Prop
  | .input data => ∃ request ∈ s.pending, 1 ≤ data.length ∧ data.length ≤ request.2
  | _ => True

instance (s : Session) : (action : Action) → Decidable (s.Possible action)
  | .call _ => inferInstanceAs (Decidable True)
  | .input _ => inferInstanceAs (Decidable (∃ request ∈ s.pending, _))
  | .timeout => inferInstanceAs (Decidable True)
  | .signal => inferInstanceAs (Decidable True)
  | .error _ => inferInstanceAs (Decidable True)

/-- The invariant: the bytes not yet echoed lie inside of the read buffer, and a `READ` in flight
fills it behind them. -/
structure Inside (s : Session) : Prop where
  buf_length : s.conn.readBuf.length = readBufSize
  size_le : s.conn.dataSize ≤ readBufSize
  fits : s.conn.state = .readInput ∨ s.conn.state = .outputMsg →
    s.conn.lineStart + s.conn.dataSize ≤ readBufSize
  requested : ∀ request ∈ s.pending, request = (s.conn.dataSize, readBufSize - s.conn.dataSize) ∧
    s.conn.state ≠ .outputMsg ∧ (s.conn.state = .readInput → LF ∉ s.conn.unechoed)
  fresh : s.conn.state = .new ∨ s.conn.state = .helloSent →
    s.conn.dataStart = 0 ∧ s.conn.dataSize = 0 ∧ s.pending = none

/-- A new connection. -/
theorem inside_start {readBuf : List Byte} (h : readBuf.length = readBufSize) :
    (start (.new readBuf)).Inside where
  buf_length := h
  size_le := Nat.zero_le _
  fits := fun _ ↦ Nat.zero_le _
  requested := by simp [start]
  fresh := fun _ ↦ ⟨rfl, rfl, rfl⟩

/-- A call that asks for nothing, and goes to a state that does not look at the read buffer. -/
theorem Inside.after_still {s : Session} (h : s.Inside) {next : Conn} {op : Operation}
    (hread : op.isRead = false) (hbuf : next.readBuf = s.conn.readBuf)
    (hsize : next.dataSize = s.conn.dataSize)
    (hstate : next.state ≠ .readInput ∧ next.state ≠ .outputMsg)
    (hfresh : next.state = .new ∨ next.state = .helloSent →
      next.dataStart = 0 ∧ next.dataSize = 0 ∧ s.pending = none) : (s.after next op).Inside := by
  have hpending : (s.after next op).pending = s.pending := by
    cases op with
    | read => cases hread
    | write => rfl
    | close => rfl
  refine ⟨?_, ?_, ?_, ?_, ?_⟩
  · show next.readBuf.length = readBufSize
    rw [hbuf]
    exact h.buf_length
  · show next.dataSize ≤ readBufSize
    rw [hsize]
    exact h.size_le
  · intro hlooks
    exact absurd hlooks (not_or.mpr hstate)
  · intro request hrequest
    rw [hpending] at hrequest
    refine ⟨?_, hstate.2, fun hinput ↦ absurd hinput hstate.1⟩
    show request = (next.dataSize, readBufSize - next.dataSize)
    rw [hsize]
    exact (h.requested request hrequest).1
  · rw [hpending]
    exact hfresh

/-- A call that moves the bytes not yet echoed to the front of the read buffer and asks for more. -/
theorem Inside.after_more {s : Session} (h : s.Inside) {next : Conn} {timeout : Nat}
    (hfits : s.conn.lineStart + s.conn.dataSize ≤ readBufSize) (hstate : next.state = .readInput)
    (hbuf : next.readBuf = Block.memmove s.conn.readBuf 0 s.conn.lineStart s.conn.dataSize)
    (hsize : next.dataSize = s.conn.dataSize) (hclear : LF ∉ s.conn.unechoed) :
    (s.after next (.read s.conn.dataSize (readBufSize - s.conn.dataSize) timeout)).Inside := by
  obtain ⟨hstart, hbytes, hsame⟩ :=
    Conn.unechoed_moved (h.buf_length.symm ▸ hfits) hstate hbuf hsize
  refine ⟨hsame.trans h.buf_length, ?_, ?_, ?_, ?_⟩
  · show next.dataSize ≤ readBufSize
    rw [hsize]
    exact h.size_le
  · intro _
    show next.lineStart + next.dataSize ≤ readBufSize
    rw [hstart, hsize, Nat.zero_add]
    exact h.size_le
  · intro request hrequest
    show request = (next.dataSize, readBufSize - next.dataSize) ∧ next.state ≠ .outputMsg ∧
      (next.state = .readInput → LF ∉ next.unechoed)
    rw [hsize, hstate, hbytes]
    exact ⟨(Option.some.inj hrequest).symm, by simp, fun _ ↦ hclear⟩
  · intro hnew
    have hnew' : next.state = .new ∨ next.state = .helloSent := hnew
    simp [hstate] at hnew'

/-- A call that echoes a line. -/
theorem Inside.after_line {s : Session} (h : s.Inside) {next : Conn} {body rest : List Byte}
    {timeout : Nat} (hfits : s.conn.lineStart + s.conn.dataSize ≤ readBufSize)
    (hlooks : s.conn.state = .readInput ∨ s.conn.state = .outputMsg)
    (hbytes : s.conn.unechoed = body ++ LF :: rest) (hstate : next.state = .outputMsg)
    (hbuf : next.readBuf = s.conn.readBuf) (hsize : next.dataSize = rest.length)
    (hstart : next.dataStart = s.conn.lineStart + (body.length + 1)) :
    (s.after next (.write (body ++ [LF]) timeout)).Inside := by
  have hcount := congrArg List.length hbytes
  rw [Conn.unechoed, Block.slice_length, List.length_append, List.length_cons] at hcount
  have hstart' : next.lineStart = s.conn.lineStart + (body.length + 1) := by
    rw [Conn.lineStart, if_neg (by simp [hstate]), hstart]
  have hinside : next.lineStart + next.dataSize ≤ readBufSize := by
    rw [hstart', hsize]
    omega
  -- no `READ` is in flight: it would have been asked for without a line feed
  have hnone : s.pending = none := by
    cases hpending : s.pending with
    | none => rfl
    | some request =>
        obtain ⟨-, hquiet, hclear⟩ := h.requested request hpending
        have hmissing := hclear (hlooks.resolve_right hquiet)
        rw [hbytes] at hmissing
        simp at hmissing
  refine ⟨?_, Nat.le_trans (Nat.le_add_left _ _) hinside, fun _ ↦ hinside, ?_, ?_⟩
  · show next.readBuf.length = readBufSize
    rw [hbuf]
    exact h.buf_length
  · intro request hrequest
    have hrequest' : request ∈ s.pending := hrequest
    rw [hnone] at hrequest'
    cases hrequest'
  · intro hnew
    have hnew' : next.state = .new ∨ next.state = .helloSent := hnew
    simp [hstate] at hnew'

/-- What a call does when it looks at the input. -/
theorem Inside.answer {s : Session} (h : s.Inside)
    (hlooks : s.conn.state = .readInput ∨ s.conn.state = .outputMsg) (behind : List Byte) :
    Conn.Answer { s.conn with dataStart := s.conn.lineStart } behind
      (s.conn.nextOperation behind) := by
  rw [Conn.next_operation_input hlooks]
  exact Conn.output_msg_answer _ behind
    (Nat.le_trans (h.fits hlooks) (Nat.le_of_eq h.buf_length.symm))

/-- The first `READ` moves nothing. -/
theorem Inside.hello {s : Session} (h : s.Inside) (hstate : s.conn.state = .helloSent) :
    s.conn.dataSize = 0 ∧ s.conn.lineStart = 0 ∧
      s.conn.readBuf = Block.memmove s.conn.readBuf 0 s.conn.lineStart s.conn.dataSize := by
  obtain ⟨hstart, hsize, -⟩ := h.fresh (.inr hstate)
  refine ⟨hsize, by simp [Conn.lineStart, hstate, hstart], ?_⟩
  simp [Block.memmove, Block.store, hsize]

/-- **Every call keeps the invariant.** -/
theorem Inside.called {s : Session} (h : s.Inside) (behind : List Byte) :
    (s.called behind).Inside := by
  have hinput (hlooks : s.conn.state = .readInput ∨ s.conn.state = .outputMsg) :
      (s.called behind).Inside := by
    have hanswer := h.answer hlooks behind
    rw [Session.called]
    generalize s.conn.nextOperation behind = outcome at hanswer
    cases hanswer with
    | quit _ => exact h.after_still rfl rfl rfl (by simp) (by simp)
    | long _ _ _ => exact h.after_still rfl rfl rfl (by simp) (by simp)
    | line body rest _ hbytes _ =>
        exact h.after_line (h.fits hlooks) hlooks hbytes rfl rfl rfl rfl
    | more _ hclear _ => exact h.after_more (h.fits hlooks) rfl rfl rfl hclear
  cases hstate : s.conn.state with
  | new =>
      rw [Session.called, Conn.nextOperation, hstate]
      exact h.after_still rfl rfl rfl (by simp) fun _ ↦ h.fresh (.inl hstate)
  | helloSent =>
      obtain ⟨hsize, hstart, hbuf⟩ := h.hello hstate
      have hread : Operation.read 0 readBufSize s.conn.idleTimeout =
          .read s.conn.dataSize (readBufSize - s.conn.dataSize) s.conn.idleTimeout := by
        rw [hsize]
        rfl
      have hnothing : s.conn.unechoed = [] := by rw [Conn.unechoed, hsize, Block.slice_zero]
      rw [Session.called, Conn.nextOperation, hstate, hread]
      exact h.after_more (by rw [hstart, Nat.zero_add]; exact h.size_le) rfl hbuf rfl
        (by simp [hnothing])
  | readInput => exact hinput (.inl hstate)
  | outputMsg => exact hinput (.inr hstate)
  | timeout =>
      rw [Session.called, Conn.nextOperation, hstate]
      exact h.after_still rfl rfl rfl (by simp) (by simp)
  | signalled =>
      rw [Session.called, Conn.nextOperation, hstate]
      exact h.after_still rfl rfl rfl (by simp) (by simp)
  | terminate =>
      rw [Session.called, Conn.nextOperation, hstate]
      exact h.after_still rfl rfl rfl (by simp) (by simp)
  | finished =>
      rw [Session.called, Conn.nextOperation, hstate]
      exact h.after_still rfl rfl rfl (by simp [hstate]) (by simp [hstate])

/-- **Every answer to a `READ` keeps the invariant**, also behind a timeout, a signal or an
error. -/
theorem Inside.fed {s : Session} (h : s.Inside) {data : List Byte} {request : Nat × Nat}
    (hpending : request ∈ s.pending) (hle : data.length ≤ request.2) : (s.fed data).Inside := by
  obtain ⟨rfl, hquiet, -⟩ := h.requested request hpending
  have hlen := h.buf_length
  have hsum : s.conn.dataSize + data.length ≤ readBufSize := by
    have hsize := h.size_le
    simp only at hle
    omega
  have hpending' : s.pending = some (s.conn.dataSize, readBufSize - s.conn.dataSize) := hpending
  have hfed : s.fed data = { s with
      conn := (s.conn.filled s.conn.dataSize data).networkInput data.length
      pending := none
      received := s.received ++ data } := by
    unfold Session.fed
    rw [hpending']
  rw [hfed]
  refine ⟨?_, hsum, ?_, by simp, ?_⟩
  · exact (Block.store_length (hlen.symm ▸ hsum)).trans hlen
  · intro hlooks
    -- the bytes stand at the front, since the handler waits
    have hinput : s.conn.state = .readInput := hlooks.resolve_right hquiet
    have hstart :
        ((s.conn.filled s.conn.dataSize data).networkInput data.length).lineStart = 0 := by
      rw [Conn.lineStart]
      exact if_pos hinput
    rw [hstart, Nat.zero_add]
    exact hsum
  · intro hfresh
    have hnone := (h.fresh hfresh).2.2
    rw [hpending'] at hnone
    cases hnone

/-- A timeout, a signal or an error keeps the invariant. -/
theorem Inside.interrupted {s : Session} (h : s.Inside) {state : State}
    (hstate : state = .timeout ∨ state = .signalled ∨ state = .terminate) :
    Inside { s with conn := { s.conn with state := state } } where
  buf_length := h.buf_length
  size_le := h.size_le
  fits := by rcases hstate with rfl | rfl | rfl <;> simp
  requested := fun request hrequest ↦ ⟨(h.requested request hrequest).1, by
    rcases hstate with rfl | rfl | rfl <;> simp⟩
  fresh := by rcases hstate with rfl | rfl | rfl <;> simp

/-- Every possible action keeps the invariant. -/
theorem Inside.act {s : Session} {action : Action} (h : s.Inside) (hpossible : s.Possible action) :
    (s.act action).Inside := by
  cases action with
  | call behind => exact h.called behind
  | input data =>
      obtain ⟨request, hpending, -, hle⟩ := hpossible
      exact h.fed hpending hle
  | timeout => exact h.interrupted (.inl rfl)
  | signal => exact h.interrupted (.inr (.inl rfl))
  | error signal => exact h.interrupted (.inr (.inr rfl))

end Session

namespace Conn

/-- A call of `nextOperation` keeps to the read buffer: the bytes that it scans, copies or moves lie
inside of it, a `READ` fills it right behind the bytes not yet echoed, and the operation is one that
`connectionBase` accepts. -/
structure Bounded (c : Conn) (behind : List Byte) : Prop where
  looks : c.state = .readInput ∨ c.state = .outputMsg → c.lineStart + c.dataSize ≤ readBufSize
  reads : ∀ next offset size timeout, c.nextOperation behind = (next, .read offset size timeout) →
    next.unechoed = c.unechoed ∧ offset = next.lineStart + next.dataSize ∧
      offset + size ≤ readBufSize
  accepted : (c.nextOperation behind).2.Accepted

end Conn

/-- A call in a session that satisfies the invariant keeps to the read buffer. -/
theorem Session.Inside.bounded {s : Session} (h : s.Inside) (behind : List Byte) :
    s.conn.Bounded behind := by
  refine ⟨h.fits, ?_, (Conn.next_operation_turn s.conn behind).accepted⟩
  intro next offset size timeout hread
  have hmore (hfits : s.conn.lineStart + s.conn.dataSize ≤ readBufSize)
      (hstate : next.state = .readInput)
      (hbuf : next.readBuf = Block.memmove s.conn.readBuf 0 s.conn.lineStart s.conn.dataSize)
      (hsize : next.dataSize = s.conn.dataSize) (hoffset : offset = s.conn.dataSize)
      (hcount : size = readBufSize - s.conn.dataSize) : next.unechoed = s.conn.unechoed ∧
        offset = next.lineStart + next.dataSize ∧ offset + size ≤ readBufSize := by
    obtain ⟨hstart, hbytes, -⟩ :=
      Conn.unechoed_moved (h.buf_length.symm ▸ hfits) hstate hbuf hsize
    refine ⟨hbytes, by rw [hstart, hsize, hoffset, Nat.zero_add], ?_⟩
    have hle := h.size_le
    omega
  have hinput (hlooks : s.conn.state = .readInput ∨ s.conn.state = .outputMsg) :
      next.unechoed = s.conn.unechoed ∧ offset = next.lineStart + next.dataSize ∧
        offset + size ≤ readBufSize := by
    have hanswer := h.answer hlooks behind
    rw [hread] at hanswer
    cases hanswer with
    | more _ _ _ => exact hmore (h.fits hlooks) rfl rfl rfl rfl rfl
  cases hstate : s.conn.state with
  | helloSent =>
      obtain ⟨hsize, hstart, hbuf⟩ := h.hello hstate
      rw [Conn.nextOperation, hstate] at hread
      cases hread
      exact hmore (by rw [hstart, Nat.zero_add]; exact h.size_le) rfl hbuf rfl hsize.symm
        (by rw [hsize]; rfl)
  | readInput => exact hinput (.inl hstate)
  | outputMsg => exact hinput (.inr hstate)
  | _ =>
      -- the other states ask for nothing
      rw [Conn.nextOperation, hstate] at hread
      cases hread

/-- **The handler stays inside of its read buffer.** Along every run, with timeouts, signals and
errors at any time, `dataSize_` is at most the size of the read buffer, and a call of
`nextOperation` in any state that is reached keeps to the read buffer with what it scans, moves,
sends and asks for. Only the comparison with `quit` does not: `strncmp` may read up to four bytes
behind the read buffer. -/
theorem always_bounded (readBuf : List Byte) (hmemory : readBuf.length = readBufSize)
    (actions : List Action)
    (hrun : Runs.Each Session.act Session.Possible (.start (.new readBuf)) actions) :
    Runs.Always Session.act
      (fun s ↦ s.conn.dataSize ≤ readBufSize ∧ ∀ behind, s.conn.Bounded behind)
      (.start (.new readBuf)) actions := by
  have hinv : Runs.Always Session.act Session.Inside (.start (.new readBuf)) actions :=
    Runs.always_rule (fun _ _ h hpossible ↦ h.act hpossible) (Session.inside_start hmemory) hrun
  exact hinv.mono fun s h ↦ ⟨h.size_le, h.bounded⟩

/-- A run in which a `READ` is answered behind the timeout that it caused. -/
theorem always_bounded_late : Runs.Always Session.act
    (fun s ↦ s.conn.dataSize ≤ readBufSize ∧ ∀ behind, s.conn.Bounded behind)
    (.start (.new (List.replicate readBufSize 0)))
    [.call [], .call [], .timeout, .input (text "a\n"), .call [], .signal, .call [], .call []] :=
  always_bounded (List.replicate readBufSize 0) List.length_replicate _ (by decide)

end Smerp.SmerpHandler
