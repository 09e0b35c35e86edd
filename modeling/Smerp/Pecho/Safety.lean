import Smerp.Pecho.Runs

/-!
# Safety of the echo protocol handler

`Session.Ok` holds in every session: the iterators are in order whenever `nextOperation` may be
called. It follows that every call returns, without a read outside of the valid bytes, and that the
network layer accepts the operation.
-/

namespace Smerp.Pecho

open Lib Protocol Network Conn Relation

/-- In front of a poisonous byte the handler complains and starts a new command line. -/
theorem Outcome.poisoned {c next : Conn} {op : Option Operation} (hout : Outcome c next op)
    (h : c.Poisoned) :
    next = replied { c with itr := c.itr + 0, buffer := c.buffer.init } .init
      (text "BAD command line") ∧
      op = some (.write (text "BAD command line" ++ CRLF) 0) := by
  obtain ⟨hstate, ch, more, hrest, htoken, hblank, hline⟩ := h
  simp only [isLineEnd, Bool.or_eq_false_iff, beq_eq_false_iff_ne] at hline
  have hfront {blanks tail : List Byte} (hsplit : c.rest = blanks ++ tail)
      (hall : ∀ ch ∈ blanks, isBlank ch = true) : blanks = [] ∧ tail = ch :: more := by
    cases blanks with
    | nil => exact ⟨rfl, by rw [← hrest, hsplit]; rfl⟩
    | cons first blanks =>
        obtain ⟨rfl, -⟩ : ch = first ∧ _ := by simpa [hrest] using hsplit
        simp [hblank] at hall
  cases hout with
  | emptyRead blanks tail _ hsplit hall htail =>
      obtain ⟨-, rfl⟩ := hfront hsplit hall
      obtain ⟨rfl, -⟩ : ch = CR ∧ _ := by simpa using htail
      exact absurd rfl hline.1
  | emptyEnd blanks eoln back _ hsplit hall heoln =>
      obtain ⟨-, htail⟩ := hfront (by rw [hsplit, List.append_assoc]) hall
      rcases heoln with rfl | rfl
      · obtain ⟨rfl, -⟩ : LF = ch ∧ _ := by simpa using htail
        exact absurd rfl hline.2
      · obtain ⟨rfl, -⟩ : CR = ch ∧ _ := by simpa [CRLF] using htail
        exact absurd rfl hline.1
  | emptyBad blanks cr other back _ hsplit hall hbad =>
      obtain ⟨rfl, htail⟩ := hfront (by rw [hsplit, List.append_assoc]) hall
      rcases hbad with ⟨rfl, -⟩ | ⟨rfl, -⟩
      · exact ⟨rfl, rfl⟩
      · obtain ⟨rfl, -⟩ : CR = ch ∧ _ := by simpa using htail
        exact absurd rfl hline.1
  | _ => exact absurd (hstate.symm.trans ‹c.state = _›) (by decide)

/-- The states in which `nextOperation` may be called. -/
def Conn.CallOk (c : Conn) : Prop := c.Ready ∨ c.state = .terminate

/-- One pass, from a state in which `nextOperation` may be called. -/
theorem pass_spec {c : Conn} (h : c.CallOk) :
    ∃ next op, c.pass = .ok (next, op) ∧ Outcome c next op ∧
      (op = none → c.Ready ∧ next.Ready ∧ next.fuelLeft < c.fuelLeft) := by
  obtain ⟨next, op, hpass, hout⟩ := pass_outcome h
  refine ⟨next, op, hpass, hout, ?_⟩
  rintro rfl
  have hready : c.Ready := by
    refine h.resolve_right ?_
    intro hstate
    rw [Conn.pass, hstate] at hpass
    cases hpass
  have hpoison : ¬ c.Poisoned := fun hbad ↦ by cases (hout.poisoned hbad).2
  exact ⟨hready, hout.ready hready (by simp), hout.fuel hready hpoison (by simp) (by simp)⟩

theorem fuel_left_lt_bound (c : Conn) : c.fuelLeft < c.passBound := by
  have := c.rank_le
  rw [fuelLeft, passBound]
  omega

/-- **A call returns**: some pass, reached by passes that go round again, yields the operation. -/
theorem call_spec {c : Conn} (h : c.CallOk) :
    ∃ last next op, ReflTransGen (Again pass) c last ∧ last.CallOk ∧
      last.pass = .ok (next, some op) ∧ Outcome last next (some op) ∧
      c.nextOperation = .ok (next, op) ∧
      ∀ fuel, c.passBound ≤ fuel → forEver pass fuel c = some (.ok (next, op)) := by
  have hbody : ∀ c : Conn, c.CallOk → ∃ next op, c.pass = .ok (next, op) ∧
      (op = none → next.CallOk ∧ next.fuelLeft < c.fuelLeft) := by
    intro c hc
    obtain ⟨next, op, hpass, -, hagain⟩ := pass_spec hc
    exact ⟨next, op, hpass, fun hnone ↦ ⟨.inl (hagain hnone).2.1, (hagain hnone).2.2⟩⟩
  obtain ⟨last, next, op, hpath, hlast, hreturn, hrun⟩ :=
    for_ever_rule CallOk fuelLeft hbody c.passBound c h (fuel_left_lt_bound c)
  obtain ⟨next', op', hpass, hout, -⟩ := pass_spec hlast
  obtain ⟨rfl, rfl⟩ : next' = next ∧ op' = some op := by simpa [hpass] using hreturn
  refine ⟨last, next', op, hpath, hlast, hreturn, hout, ?_, fun fuel hfuel ↦
    for_ever_mono hrun hfuel⟩
  rw [nextOperation, hrun]
  rfl

/-- Passes that go round again keep the iterators in order and the block sizes. -/
theorem again_ready {c last : Conn} (h : c.Ready) (hpath : ReflTransGen (Again pass) c last) :
    last.Ready ∧ last.input.size = c.input.size := by
  induction hpath with
  | refl => exact ⟨h, rfl⟩
  | @tail mid last _ hstep ih =>
      obtain ⟨next, op, hpass, hout, hagain⟩ := pass_spec (.inl ih.1)
      obtain ⟨rfl, rfl⟩ : next = last ∧ op = none := by simpa [Again, hpass] using hstep
      exact ⟨(hagain rfl).2.1, ((hout.after ih.1).2.1).trans ih.2⟩

/-- The input block into which bytes have been read. -/
def Conn.receivedBlock (c : Conn) (data : List Byte) : InputBlock :=
  ⟨⟨Block.store c.input.bytes 0 data, data.length⟩, c.input.eodState⟩

/-- `networkInput` in the two states that scan for the end of the data. -/
theorem network_input_scan {c : Conn} (hstate : c.state = .processing ∨ c.state = .startProcessing)
    (data : List Byte) : c.networkInput data = { c with
      input := ((c.receivedBlock data).getEoD 0).2
      itr := 0
      eoD := ((c.receivedBlock data).getEoD 0).1
      eoM := ((c.receivedBlock data).getEoD 0).2.pos } := by
  rw [networkInput, if_pos hstate]
  rfl

/-- `networkInput` in the other states. -/
theorem network_input_plain {c : Conn}
    (hstate : ¬ (c.state = .processing ∨ c.state = .startProcessing))
    (data : List Byte) : c.networkInput data = { c with
      input := c.receivedBlock data, itr := 0, eoD := data.length, eoM := data.length } := by
  rw [networkInput, if_neg hstate]
  rfl

/-- Receiving bytes puts the iterators in order. -/
theorem Conn.Waiting.network_input {c : Conn} (h : c.Waiting) {data : List Byte}
    (hle : data.length ≤ c.input.size) :
    (c.networkInput data).Ready ∧ (c.networkInput data).input.size = c.input.size := by
  have hsize : (c.receivedBlock data).size = c.input.size :=
    Block.store_length (by simpa [MemBlock.size] using hle)
  by_cases hscan : c.state = .processing ∨ c.state = .startProcessing
  · obtain ⟨hstart, hpos, hend, hlen⟩ := EoD.get_eod_bounds (c.receivedBlock data)
      (show 0 < (c.receivedBlock data).size by rw [hsize]; exact h.size_pos)
    rw [network_input_scan hscan]
    refine ⟨⟨⟨?_, h.room_pos, h.out_le⟩, Nat.zero_le _, rfl, ?_, fun _ ↦
      ⟨hstart, hpos⟩, h.token⟩, ?_⟩
    · rw [hlen, hsize]
      exact h.size_pos
    · rw [hlen]
      exact hend
    · rw [hlen, hsize]
  · rw [network_input_plain hscan]
    refine ⟨⟨⟨?_, h.room_pos, h.out_le⟩, Nat.zero_le _, rfl, ?_, ?_, h.token⟩, hsize⟩
    · rw [hsize]
      exact h.size_pos
    · rw [hsize]
      exact hle
    · intro hdata
      exact absurd (hdata.resolve_right h.reads) fun hprocessing ↦ hscan (.inl hprocessing)

/-- The invariant of a session: a `READ` in flight asks for as many bytes as the input block holds,
and the handler is ready to be called, waits for input, or was told to terminate. -/
structure Session.Ok (s : Session) : Prop where
  requested : ∀ size, s.pending = some size → size = s.conn.input.size
  conn : s.conn.state = .terminate ∨
    (s.pending = none → s.conn.Ready) ∧ (s.pending ≠ none → s.conn.Waiting)

namespace Session

/-- A new connection satisfies the invariant. -/
theorem start_ok {inputMemory outputMemory : List Byte} (line : Buffer 128)
    (hin : 0 < inputMemory.length) (hout : 0 < outputMemory.length) :
    (start (.new inputMemory outputMemory line)).Ok where
  requested := by simp [start]
  conn := .inr ⟨fun _ ↦ ⟨⟨hin, hout, Nat.zero_le _⟩, Nat.le_refl _, rfl, Nat.zero_le _,
    by simp [start, Conn.new], fun _ _ ↦ rfl⟩, by simp [start]⟩

/-- In a session that satisfies the invariant a handler that may be called is ready. -/
theorem Ok.call_ok {s : Session} (h : s.Ok) (hcall : s.Callable) : s.conn.CallOk := by
  rcases h.conn with hterminate | ⟨hready, -⟩
  · exact .inr hterminate
  · exact hcall.imp_left hready

/-- A call whose first pass yields an operation. -/
theorem call_pass {c next : Conn} {op : Operation} (hpass : c.pass = .ok (next, some op)) :
    c.nextOperation = .ok (next, op) := by
  have hrun : forEver pass c.passBound c = some (.ok (next, op)) := by
    simp [passBound, Nat.mul_add, forEver, hpass]
  simp [nextOperation, hrun]

/-- A handler that was told to terminate closes the connection. -/
theorem call_terminate {c next : Conn} {op : Operation} (hstate : c.state = .terminate)
    (hnext : c.nextOperation = .ok (next, op)) : next = c ∧ op = .close := by
  have hcall : c.nextOperation = .ok (c, .close) := call_pass (by rw [Conn.pass, hstate])
  simpa [hcall, eq_comm] using hnext

/-- The state of the handler after a call. -/
theorem call_after {c next : Conn} {op : Operation} (h : c.Ready)
    (hnext : c.nextOperation = .ok (next, op)) :
    op.Accepted ∧ next.input.size = c.input.size ∧ next.After (some op) := by
  obtain ⟨last, next', op', hpath, -, hpass, hout, hcall, -⟩ := call_spec (.inl h)
  obtain ⟨rfl, rfl⟩ : next' = next ∧ op' = op := by simpa [hcall] using hnext
  obtain ⟨hready, hsize⟩ := again_ready h hpath
  obtain ⟨hafter, hsame, haccepted⟩ := hout.after hready
  exact ⟨haccepted _ rfl, hsame.trans hsize, hafter⟩

/-- Every step keeps the invariant and the size of the input block. -/
theorem Ok.step {s next : Session} (h : s.Ok) (hstep : Step s next) :
    next.Ok ∧ next.conn.input.size = s.conn.input.size := by
  cases hstep with
  | call next op hcall hnext =>
      by_cases hterminate : s.conn.state = .terminate
      · obtain ⟨rfl, rfl⟩ := call_terminate hterminate hnext
        exact ⟨⟨h.requested, .inl hterminate⟩, rfl⟩
      · have hpending : s.pending = none := hcall.resolve_right hterminate
        obtain ⟨-, hsize, hafter⟩ := call_after ((h.conn.resolve_left hterminate).1 hpending) hnext
        refine ⟨?_, hsize⟩
        cases op with
        | read offset size timeout =>
            obtain ⟨hop, hwait⟩ := hafter
            refine ⟨?_, .inr ⟨by simp [called], fun _ ↦ hwait⟩⟩
            rintro _ ⟨⟩
            simp only [readOp, Operation.read.injEq] at hop
            exact hop.2.1
        | write data timeout =>
            exact ⟨by simp [called, hpending], .inr ⟨fun _ ↦ hafter, fun hne ↦ absurd hpending hne⟩⟩
        | close =>
            exact ⟨by simp [called, hpending], .inr ⟨fun _ ↦ hafter, fun hne ↦ absurd hpending hne⟩⟩
  | input size data hpending hpos hle =>
      have hroom : data.length ≤ s.conn.input.size := h.requested size hpending ▸ hle
      rcases h.conn with hterminate | ⟨-, hwait⟩
      · have hplain : ¬ (s.conn.state = .processing ∨ s.conn.state = .startProcessing) := by
          simp [hterminate]
        have hsize : (s.conn.receivedBlock data).size = s.conn.input.size :=
          Block.store_length (by simpa [MemBlock.size] using hroom)
        simp only [fed, network_input_plain hplain]
        exact ⟨⟨by simp, .inl hterminate⟩, hsize⟩
      · obtain ⟨hready, hsize⟩ := (hwait (by simp [hpending])).network_input hroom
        exact ⟨⟨by simp [fed], .inr ⟨fun _ ↦ hready, by simp [fed]⟩⟩, hsize⟩
  | notify => exact ⟨⟨h.requested, .inl rfl⟩, rfl⟩

/-- The invariant holds in every session. -/
theorem ok_of_run {inputMemory outputMemory : List Byte} {line : Buffer 128}
    (hin : 0 < inputMemory.length) (hout : 0 < outputMemory.length) {s : Session}
    (hrun : ReflTransGen Step (start (.new inputMemory outputMemory line)) s) :
    s.Ok ∧ s.conn.input.size = inputMemory.length := by
  induction hrun with
  | refl => exact ⟨start_ok line hin hout, rfl⟩
  | tail _ hstep ih => exact ⟨(ih.1.step hstep).1, (ih.1.step hstep).2.trans ih.2⟩

end Session

/-- **Every call of `nextOperation` returns** an operation that the network layer accepts, in every
session. The loop of `nextOperation` ends within its bound whatever larger bound is taken, and none
of its passes throws, so no iterator at or behind the valid bytes is dereferenced. -/
theorem next_operation_returns (inputMemory outputMemory : List Byte) (line : Buffer 128)
    (hin : 0 < inputMemory.length) (hout : 0 < outputMemory.length) (s : Session)
    (hrun : ReflTransGen Session.Step (.start (.new inputMemory outputMemory line)) s)
    (hcall : s.Callable) :
    ∃ next op, s.conn.nextOperation = .ok (next, op) ∧ op.Accepted ∧
      ∀ fuel, s.conn.passBound ≤ fuel → forEver pass fuel s.conn = some (.ok (next, op)) := by
  have hok := (Session.ok_of_run hin hout hrun).1
  obtain ⟨last, next, op, -, -, -, -, hnext, hfuel⟩ := call_spec (hok.call_ok hcall)
  refine ⟨next, op, hnext, ?_, hfuel⟩
  by_cases hterminate : s.conn.state = .terminate
  · obtain ⟨-, rfl⟩ := Session.call_terminate hterminate hnext
    trivial
  · have hready := (hok.call_ok hcall).resolve_right hterminate
    exact (Session.call_after hready hnext).1

/-- A line buffer over cleared memory. -/
def clearedLine : Buffer 128 := .cleared Buffer.line_size

/-- The first call on a connection with blocks of one byte. -/
theorem next_operation_returns_first :
    ∃ next op, (Conn.new [0] [0] clearedLine).nextOperation = .ok (next, op) ∧ op.Accepted ∧
      ∀ fuel, 32 ≤ fuel → forEver pass fuel (Conn.new [0] [0] clearedLine) =
        some (.ok (next, op)) :=
  next_operation_returns [0] [0] clearedLine (by decide) (by decide) _ .refl (.inl rfl)

end Smerp.Pecho
