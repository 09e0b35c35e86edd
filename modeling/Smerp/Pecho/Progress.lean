import Smerp.Pecho.Safety

/-!
# Progress of the echo protocol handler

After a finite number of calls the handler asks for input or closes the connection, unless one of
its passes stands in front of a poisonous byte. In front of such a byte it complains about the
command line again and again without passing it.
-/

namespace Smerp.Pecho

open Lib Protocol Network Conn Relation CmdBuffer

/-- The operation does not end the work on the input received so far. -/
def GoesOn : Option Operation → Prop
  | some (.read ..) => False
  | some .close => False
  | _ => True

namespace Conn

/-- A pass that neither asks for input nor closes the connection. -/
def Onward (c next : Conn) : Prop := ∃ op, c.pass = .ok (next, op) ∧ GoesOn op

/-- No pass on the input received so far stands in front of a poisonous byte. -/
def NeverPoisoned (c : Conn) : Prop := ∀ mid, ReflTransGen Onward c mid → ¬ mid.Poisoned

/-- One of the next calls asks for input or closes the connection. -/
def SettlesWithin : Nat → Conn → Prop
  | 0, _ => False
  | calls + 1, c =>
      match c.nextOperation with
      | .ok (next, .write ..) => SettlesWithin calls next
      | .ok (_, .read ..) => True
      | .ok (_, .close) => True
      | .error _ => False

/-- After finitely many calls without new input the handler returns a `READ` or a `CLOSE`. -/
def Settles (c : Conn) : Prop := ∃ calls, c.SettlesWithin calls

end Conn

theorem GoesOn.not_read {op : Option Operation} (h : GoesOn op) (c : Conn) :
    op ≠ some c.readOp ∧ op ≠ some .close := by
  constructor <;> (rintro rfl; exact h)

/-- A pass that goes on leaves the iterators in order. -/
theorem Conn.Onward.ready {c next : Conn} (h : c.Ready) (hstep : c.Onward next) : next.Ready := by
  obtain ⟨op, hpass, hon⟩ := hstep
  obtain ⟨next', op', hpass', hout⟩ := pass_outcome (.inl h)
  obtain ⟨rfl, rfl⟩ : next' = next ∧ op' = op := by simpa [hpass'] using hpass
  exact hout.ready h (hon.not_read c).1

/-- A pass that goes on does not change whether the handler settles. -/
theorem Conn.Onward.settles_iff {c next : Conn} (h : c.Ready) (hstep : c.Onward next) :
    c.Settles ↔ next.Settles := by
  have hnext := hstep.ready h
  obtain ⟨op, hpass, hon⟩ := hstep
  obtain ⟨next', op', hpass', hout⟩ := pass_outcome (.inl h)
  obtain ⟨rfl, rfl⟩ : next' = next ∧ op' = op := by simpa [hpass'] using hpass
  cases op' with
  | none =>
      -- the pass is a part of the next call, and both calls return the same
      obtain ⟨_, last, result, -, -, -, -, hcall, hfuel⟩ := call_spec (.inl h)
      obtain ⟨_, last', result', -, -, -, -, hcall', hfuel'⟩ := call_spec (.inl hnext)
      have hsize : next'.passBound = c.passBound := by
        rw [passBound, passBound, (hout.after h).2.1]
      have hrun := hfuel (c.passBound + 1) (Nat.le_succ _)
      simp only [forEver, hpass', hfuel' c.passBound (Nat.le_of_eq hsize)] at hrun
      obtain ⟨rfl, rfl⟩ : last' = last ∧ result' = result := by simpa using hrun
      have hcalls (calls : Nat) : c.SettlesWithin calls ↔ next'.SettlesWithin calls := by
        cases calls with
        | zero => rfl
        | succ calls => rw [SettlesWithin, SettlesWithin, hcall, hcall']
      exact exists_congr hcalls
  | some result =>
      cases result with
      | read offset size timeout => exact hon.elim
      | close => exact hon.elim
      | write data timeout =>
          have hcall : c.nextOperation = .ok (next', .write data timeout) := by
            simp [nextOperation, passBound, Nat.mul_add, forEver, hpass']
          constructor
          · rintro ⟨calls, hcalls⟩
            cases calls with
            | zero => exact hcalls.elim
            | succ calls => exact ⟨calls, by simpa only [SettlesWithin, hcall] using hcalls⟩
          · rintro ⟨calls, hcalls⟩
            exact ⟨calls + 1, by simpa only [SettlesWithin, hcall] using hcalls⟩

/-! ## In front of a poisonous byte -/

/-- The handler is on its way back to the poisonous byte that it stands in front of. -/
def Conn.Doomed (c : Conn) : Prop :=
  c.Ready ∧
    (c.state = .init ∨ c.state = .enterCommand ∧ c.cmdBuffer = .new ∨ c.state = .emptyLine) ∧
    ∃ ch more, c.rest = ch :: more ∧ isTokenChar ch = false ∧ isBlank ch = false ∧
      isLineEnd ch = false

theorem Conn.Poisoned.doomed {c : Conn} (h : c.Ready) (hpoison : c.Poisoned) : c.Doomed :=
  ⟨h, .inr (.inr hpoison.1), hpoison.2⟩

/-- A pass of a doomed handler goes on, and the handler stays doomed. -/
theorem Conn.Doomed.step {c next : Conn} {op : Option Operation} (h : c.Doomed)
    (hout : Outcome c next op) : next.Doomed ∧ GoesOn op := by
  obtain ⟨hready, hstate, ch, more, hrest, htoken, hblank, hline⟩ := h
  have hkeeps (hread : op ≠ some c.readOp) (hsame : next.rest = c.rest)
      (hnext : next.state = .init ∨ next.state = .enterCommand ∧ next.cmdBuffer = .new ∨
        next.state = .emptyLine) : next.Doomed :=
    ⟨hout.ready hready hread, hnext, ch, more, hsame.trans hrest, htoken, hblank, hline⟩
  rcases hstate with hstate | ⟨hstate, hbuffer⟩ | hstate
  · have hbuffer := hready.token (by simp [hstate]) (by simp [hstate])
    cases hout with
    | greet => exact ⟨hkeeps (by simp [readOp]) rfl (.inr (.inl ⟨rfl, hbuffer⟩)), trivial⟩
    | _ => exact absurd (hstate.symm.trans ‹c.state = _›) (by decide)
  · cases hout with
    | commandRead _ hall => simp [hrest, htoken] at hall
    | commandEnd token other back _ hsplit hall _ next op hreaction =>
        cases token with
        | cons first token =>
            obtain ⟨rfl, -⟩ : ch = first ∧ _ := by simpa [hrest] using hsplit
            simp [htoken] at hall
        | nil =>
            rw [push_all_nil, hbuffer, empty_command] at hreaction
            cases hreaction
            exact ⟨hkeeps (by simp) rfl (.inr (.inr rfl)), trivial⟩
    | _ => exact absurd (hstate.symm.trans ‹c.state = _›) (by decide)
  · obtain ⟨rfl, rfl⟩ := hout.poisoned ⟨hstate, ch, more, hrest, htoken, hblank, hline⟩
    exact ⟨hkeeps (by simp [readOp]) rfl (.inl rfl), trivial⟩

/-- Passes that go round again keep a handler doomed. -/
theorem Conn.Doomed.again {c last : Conn} (h : c.Doomed)
    (hpath : ReflTransGen (Again pass) c last) :
    last.Doomed := by
  induction hpath with
  | refl => exact h
  | @tail mid last _ hstep ih =>
      obtain ⟨next, op, hpass, hout⟩ := pass_outcome (.inl ih.1)
      obtain ⟨rfl, rfl⟩ : next = last ∧ op = none := by simpa [Again, hpass] using hstep
      exact (ih.step hout).1

/-- A doomed handler never settles: every call sends a line and leaves it doomed. -/
theorem Conn.Doomed.not_settles {c : Conn} (h : c.Doomed) : ¬ c.Settles := by
  rintro ⟨calls, hcalls⟩
  induction calls generalizing c with
  | zero => exact hcalls
  | succ calls ih =>
      obtain ⟨last, next, op, hpath, -, -, hout, hcall, -⟩ := call_spec (.inl h.1)
      obtain ⟨hdoomed, hon⟩ := (h.again hpath).step hout
      cases op with
      | read offset size timeout => exact hon
      | close => exact hon
      | write data timeout =>
          rw [SettlesWithin, hcall] at hcalls
          exact ih hdoomed hcalls

/-! ## The condition for progress -/

/-- Passes that go on keep the iterators in order and do not change whether the handler settles. -/
theorem onward_path {c last : Conn} (h : c.Ready) (hpath : ReflTransGen Onward c last) :
    last.Ready ∧ (c.Settles ↔ last.Settles) := by
  induction hpath with
  | refl => exact ⟨h, Iff.rfl⟩
  | tail _ hstep ih => exact ⟨hstep.ready ih.1, ih.2.trans (hstep.settles_iff ih.1)⟩

/-- A handler that is never poisoned settles: every pass that goes on uses up fuel. -/
theorem Conn.NeverPoisoned.settles {c : Conn} (h : c.Ready) (hclean : c.NeverPoisoned) :
    c.Settles := by
  induction hfuel : c.fuelLeft using Nat.strongRecOn generalizing c with
  | ind fuel ih =>
      obtain ⟨next, op, hpass, hout⟩ := pass_outcome (.inl h)
      by_cases hon : GoesOn op
      · have hstep : c.Onward next := ⟨op, hpass, hon⟩
        obtain ⟨hread, hclose⟩ := hon.not_read c
        have hlt := hout.fuel h (hclean c .refl) hread hclose
        rw [hstep.settles_iff h]
        exact ih next.fuelLeft (hfuel ▸ hlt) (hstep.ready h)
          (fun mid hpath ↦ hclean mid (.head hstep hpath)) rfl
      · refine ⟨1, ?_⟩
        cases op with
        | none => exact absurd trivial hon
        | some result =>
            have hcall : c.nextOperation = .ok (next, result) := by
              simp [nextOperation, passBound, Nat.mul_add, forEver, hpass]
            cases result with
            | read offset size timeout => simp [SettlesWithin, hcall]
            | close => simp [SettlesWithin, hcall]
            | write data timeout => exact absurd trivial hon

/-- The handler settles exactly if it is never poisoned. -/
theorem settles_iff {c : Conn} (h : c.CallOk) : c.Settles ↔ c.NeverPoisoned := by
  rcases h with h | hterminate
  · constructor
    · intro hsettles mid hpath hpoison
      obtain ⟨hready, hiff⟩ := onward_path h hpath
      exact (hpoison.doomed hready).not_settles (hiff.mp hsettles)
    · exact fun hclean ↦ hclean.settles h
  · have hpass : c.pass = .ok (c, some .close) := by rw [Conn.pass, hterminate]
    have hcall : c.nextOperation = .ok (c, .close) := by
      simp [nextOperation, passBound, Nat.mul_add, forEver, hpass]
    refine ⟨?_, fun _ ↦ ⟨1, by simp [SettlesWithin, hcall]⟩⟩
    intro _ mid hpath hpoison
    rcases hpath.cases_head with rfl | ⟨next, ⟨op, hnext, hon⟩, -⟩
    · exact absurd (hpoison.1.symm.trans hterminate) (by decide)
    · obtain ⟨-, rfl⟩ : c = next ∧ some .close = op := by simpa [hpass] using hnext
      exact hon

/-! ## The amount of output -/

/-- What a reaction sends fits into the line buffer. -/
theorem Reaction.sent_le {c next : Conn} {op : Option Operation} (h : Reaction c next op) :
    next.output = c.output ∧
      ∀ data timeout, op = some (.write data timeout) → data.length ≤ 128 := by
  cases h with
  | goesOn mode state hstate => exact ⟨rfl, by simp⟩
  | replies state str hstate hbad hlen =>
      refine ⟨rfl, ?_⟩
      intro data timeout hop
      obtain ⟨rfl, -⟩ : data = str ++ CRLF ∧ _ := by simpa [eq_comm] using hop
      exact hlen

/-- What a pass sends fits into the line buffer or into the output block. -/
theorem Outcome.sent_le {c next : Conn} {op : Option Operation} (h : c.Ready)
    (hout : Outcome c next op) : next.output.size = c.output.size ∧
      ∀ data timeout, op = some (.write data timeout) → data.length ≤ c.output.size + 128 := by
  have hline {data line : List Byte} {timeout time : Nat}
    (hop : some (Operation.write data timeout) =
      some (.write line time)) (hshort : line.length ≤ 128) :
        data.length ≤ c.output.size + 128 := by
    obtain ⟨rfl, -⟩ : data = line ∧ _ := by simpa using hop
    omega
  cases hout with
  | greet => exact ⟨rfl, fun _ _ hop ↦ hline hop.symm (by decide)⟩
  | commandEnd token ch more _ _ _ _ next op hreaction =>
      obtain ⟨hsame, hshort⟩ := (command_reaction_cases hreaction).sent_le
      refine ⟨congrArg (·.size) hsame, ?_⟩
      intro data timeout hop
      exact Nat.le_add_left_of_le (hshort data timeout hop)
  | emptyBad => exact ⟨rfl, fun _ _ hop ↦ hline hop.symm (by decide)⟩
  | modeEnd blanks token ch more _ _ _ _ _ _ next op hreaction =>
      obtain ⟨hsame, hshort⟩ := (mode_reaction_cases hreaction).sent_le
      refine ⟨congrArg (·.size) hsame, ?_⟩
      intro data timeout hop
      exact Nat.le_add_left_of_le (hshort data timeout hop)
  | startBad => exact ⟨rfl, fun _ _ hop ↦ hline hop.symm (by decide)⟩
  | startScan => exact ⟨rfl, fun _ _ hop ↦ hline hop.symm (by decide)⟩
  | echoRead _ hroom => exact ⟨(echoed_spec c.data h.out_le hroom).2.2, by simp [readOp]⟩
  | echoEnd _ hroom _ op hop =>
      obtain ⟨-, -, hsize⟩ := echoed_spec c.data h.out_le hroom
      have hout := (h.echoed_sized c.data hroom).2
      refine ⟨hsize, ?_⟩
      intro data timeout heq
      rw [heq] at hop
      split at hop
      · cases hop
      · obtain ⟨rfl, -⟩ : data = (c.echoed c.data).output.content ∧ _ := by simpa using hop
        rw [OutputBlock.content_length hout]
        omega
  | echoFull _ hroom =>
      have htake : (c.data.take c.output.restsize).length ≤ c.output.restsize := by
        rw [List.length_take]
        omega
      obtain ⟨-, -, hsize⟩ := echoed_spec _ h.out_le htake
      have hout := (h.echoed_sized _ htake).2
      refine ⟨hsize, ?_⟩
      intro data timeout heq
      obtain ⟨rfl, -⟩ : data = (c.echoed (c.data.take c.output.restsize)).output.content ∧ _ := by
        simpa [eq_comm] using heq
      rw [OutputBlock.content_length hout]
      omega
  | release => exact ⟨rfl, by simp⟩
  | commandRead => exact ⟨rfl, by simp [readOp]⟩
  | emptyRead => exact ⟨rfl, by simp [readOp]⟩
  | emptyEnd => exact ⟨rfl, by simp⟩
  | modeRead => exact ⟨rfl, by simp [readOp]⟩
  | startRead => exact ⟨rfl, by simp [readOp]⟩
  | skipRead => exact ⟨rfl, by simp [readOp]⟩
  | skipEnd => exact ⟨rfl, by simp⟩
  | close => exact ⟨rfl, by simp⟩

/-- The reactions to a command and to an argument go on. -/
theorem Reaction.goes_on {c next : Conn} {op : Option Operation} (h : Reaction c next op) :
    GoesOn op := by
  cases h with
  | goesOn => trivial
  | replies => trivial

/-- Only a handler that was told to terminate closes the connection. -/
theorem Outcome.of_close {c next : Conn} (hout : Outcome c next (some .close)) :
    next.state = .terminate := by
  generalize hop : some Operation.close = op at hout
  cases hout with
  | close hstate => exact hstate
  | commandEnd _ _ _ _ _ _ _ _ _ hreaction =>
      exact (hop ▸ (command_reaction_cases hreaction).goes_on).elim
  | modeEnd _ _ _ _ _ _ _ _ _ _ _ _ hreaction =>
      exact (hop ▸ (mode_reaction_cases hreaction).goes_on).elim
  | echoEnd _ _ _ _ hsent => rw [← hop] at hsent; split at hsent <;> cases hsent
  | _ => cases hop

/-- Passes that go round again use up fuel, go on, and leave the output block as large as it is. -/
theorem again_path {c last : Conn} (h : c.Ready) (hpath : ReflTransGen (Again pass) c last) :
    last.Ready ∧ ReflTransGen Onward c last ∧ last.fuelLeft ≤ c.fuelLeft ∧
      last.output.size = c.output.size := by
  induction hpath with
  | refl => exact ⟨h, .refl, Nat.le_refl _, rfl⟩
  | @tail mid last _ hstep ih =>
      obtain ⟨hready, hpath, hfuel, hsize⟩ := ih
      obtain ⟨next, op, hpass, hout, hagain⟩ := pass_spec (.inl hready)
      obtain ⟨rfl, rfl⟩ : next = last ∧ op = none := by simpa [Again, hpass] using hstep
      obtain ⟨-, hnext, hlt⟩ := hagain rfl
      exact ⟨hnext, hpath.tail ⟨none, hpass, trivial⟩,
        by omega, (hout.sent_le hready).1.trans hsize⟩

/-- A call of a handler that is never poisoned sends a bounded message and uses up fuel. -/
theorem call_fuel {c next : Conn} {op : Operation} (h : c.Ready) (hclean : c.NeverPoisoned)
    (hnext : c.nextOperation = .ok (next, op)) : next.output.size = c.output.size ∧
      (op = .close → next.state = .terminate) ∧ ∀ data timeout, op = .write data timeout →
        next.fuelLeft < c.fuelLeft ∧ data.length ≤ c.output.size + 128 := by
  obtain ⟨last, next', op', hpath, -, -, hout, hcall, -⟩ := call_spec (.inl h)
  obtain ⟨rfl, rfl⟩ : next' = next ∧ op' = op := by simpa [hcall] using hnext
  obtain ⟨hready, honward, hfuel, hsize⟩ := again_path h hpath
  obtain ⟨hsame, hsent⟩ := hout.sent_le hready
  refine ⟨hsame.trans hsize, ?_, ?_⟩
  · rintro rfl
    exact hout.of_close
  rintro data timeout rfl
  have hlt := hout.fuel hready (hclean last honward) (by simp [readOp]) (by simp)
  exact ⟨by omega, hsize ▸ hsent data timeout rfl⟩

namespace Session

/-- All bytes sent so far. -/
def sentBytes (s : Session) : List Byte := s.sent.flatMap Sent.message

/-- A step that does not call a handler on its way to a poisonous byte. -/
def CleanStep (s next : Session) : Prop := Step s next ∧ (s.Callable → s.conn.NeverPoisoned)

/-- The fuel of a handler that has input to work on. -/
def spare (s : Session) : Nat :=
  if s.conn.state = .terminate ∨ s.pending ≠ none then 0 else s.conn.fuelLeft

/-- The bytes sent are paid for by the bytes received. -/
structure Paid (inSize outSize : Nat) (s : Session) : Prop where
  ok : s.Ok
  in_size : s.conn.input.size = inSize
  out_size : s.conn.output.size = outSize
  budget : s.sentBytes.length + (outSize + 128) * s.spare ≤
    (outSize + 128) * (16 * (inSize + 1) * (s.received.length + 1))

section Budget

variable {inSize outSize : Nat} {s : Session}

/-- The budget pays for any part of the fuel. -/
theorem Paid.spare_le (h : Paid inSize outSize s) {spare : Nat} (hle : spare ≤ s.spare) :
    s.sentBytes.length + (outSize + 128) * spare ≤
      (outSize + 128) * (16 * (inSize + 1) * (s.received.length + 1)) :=
  Nat.le_trans (Nat.add_le_add_left (Nat.mul_le_mul_left _ hle) _) h.budget

/-- What a call sends is paid for by the fuel that it uses up. -/
theorem Paid.called (h : Paid inSize outSize s) (hcall : s.Callable)
    (hclean : s.conn.NeverPoisoned) {after : Conn} {op : Operation}
    (hnext : s.conn.nextOperation = .ok (after, op)) : Paid inSize outSize (s.called after op) := by
  obtain ⟨hok, hsize⟩ := h.ok.step (.call s after op hcall hnext)
  by_cases hterminate : s.conn.state = .terminate
  · obtain ⟨rfl, rfl⟩ := call_terminate hterminate hnext
    refine ⟨hok, h.in_size, h.out_size, ?_⟩
    simpa [spare, Session.called, hterminate, sentBytes, sentBy] using h.spare_le (Nat.zero_le _)
  · have hpending : s.pending = none := hcall.resolve_right hterminate
    have hready := (h.ok.conn.resolve_left hterminate).1 hpending
    obtain ⟨hout, hclose, hsent⟩ := call_fuel hready hclean hnext
    refine ⟨hok, hsize.trans h.in_size, hout.trans h.out_size, ?_⟩
    cases op with
    | read offset size timeout =>
        simpa [spare, Session.called, sentBytes, sentBy] using h.spare_le (Nat.zero_le _)
    | close =>
        simpa [spare, Session.called, hclose rfl, sentBytes, sentBy] using
          h.spare_le (Nat.zero_le _)
    | write data timeout =>
        obtain ⟨hfuel, hlen⟩ := hsent data timeout rfl
        have hspare : s.spare = s.conn.fuelLeft := by simp [spare, hterminate, hpending]
        have hle : (s.called after (.write data timeout)).spare + 1 ≤ s.spare := by
          rw [hspare, spare]
          split
          · omega
          · exact hfuel
        have hpaid := h.spare_le hle
        rw [h.out_size] at hlen
        simp only [sentBytes, Session.called, sentBy, List.flatMap_append, List.length_append,
          List.flatMap_singleton, Nat.mul_add, Nat.mul_one] at hpaid ⊢
        omega

/-- Every byte received raises the budget by a whole block of fuel. -/
theorem Paid.fed (h : Paid inSize outSize s) {size : Nat} {data : List Byte}
    (hpending : s.pending = some size) (hpos : 1 ≤ data.length) (hle : data.length ≤ size) :
    Paid inSize outSize (s.fed data) := by
  obtain ⟨hok, hsize⟩ := h.ok.step (.input s size data hpending hpos hle)
  have hspare : (s.fed data).spare ≤ 16 * (inSize + 1) := by
    have hbound := fuel_left_lt_bound (s.fed data).conn
    rw [passBound, hsize, h.in_size] at hbound
    rw [spare]
    split <;> omega
  have hout : (s.conn.networkInput data).output = s.conn.output := by
    rw [networkInput]
    split <;> rfl
  have hgrow : 16 * (inSize + 1) * (s.received.length + 1) + (s.fed data).spare ≤
      16 * (inSize + 1) * ((s.fed data).received.length + 1) := by
    simp only [Session.fed, List.length_append]
    have hmul : 16 * (inSize + 1) * (s.received.length + 1 + 1) ≤
        16 * (inSize + 1) * (s.received.length + data.length + 1) :=
      Nat.mul_le_mul_left _ (by omega)
    rw [Nat.mul_add _ (s.received.length + 1)] at hmul
    simp only [Session.fed] at hspare
    omega
  refine ⟨hok, hsize.trans h.in_size, (congrArg (·.size) hout).trans h.out_size, ?_⟩
  have hscaled := Nat.mul_le_mul_left (outSize + 128) hgrow
  rw [Nat.mul_add] at hscaled
  have hbase := h.spare_le (Nat.zero_le _)
  exact Nat.le_trans (Nat.add_le_add_right (by simpa [sentBytes, Session.fed] using hbase) _)
    hscaled

/-- A clean step keeps what is sent within the budget. -/
theorem Paid.step {next : Session} (h : Paid inSize outSize s) (hstep : s.CleanStep next) :
    Paid inSize outSize next := by
  obtain ⟨hstep, hclean⟩ := hstep
  cases hstep with
  | call after op hcall hnext => exact h.called hcall (hclean hcall) hnext
  | input size data hpending hpos hle => exact h.fed hpending hpos hle
  | notify =>
      refine ⟨(h.ok.step (.notify s)).1, h.in_size, h.out_size, ?_⟩
      simpa [spare, signalTerminate, sentBytes] using h.spare_le (Nat.zero_le _)

end Budget

/-- What is sent in clean steps stays within the budget. -/
theorem paid_of_run {inputMemory outputMemory : List Byte} {line : Buffer 128}
    (hin : 0 < inputMemory.length) (hout : 0 < outputMemory.length) {s : Session}
    (hrun : ReflTransGen CleanStep (start (.new inputMemory outputMemory line)) s) :
    Paid inputMemory.length outputMemory.length s := by
  induction hrun with
  | refl =>
      refine ⟨start_ok line hin hout, rfl, rfl, ?_⟩
      have hbound := fuel_left_lt_bound (Conn.new inputMemory outputMemory line)
      have hspare : (start (Conn.new inputMemory outputMemory line)).spare ≤
          16 * (inputMemory.length + 1) := by
        rw [spare]
        split
        · omega
        · exact Nat.le_of_lt hbound
      simpa [start, sentBytes] using Nat.mul_le_mul_left (outputMemory.length + 128) hspare
  | tail _ hstep ih => exact ih.step hstep

end Session

/-- **Progress.** In every session, a handler that may be called settles after finitely many calls
exactly if none of its passes on the input received so far stands in front of a poisonous byte. In
a session where no handler is called on its way to such a byte, a finite amount of input causes a
finite amount of output. -/
theorem settles_iff_never_poisoned (inputMemory outputMemory : List Byte) (line : Buffer 128)
    (hin : 0 < inputMemory.length) (hout : 0 < outputMemory.length) :
    (∀ s, ReflTransGen Session.Step (.start (.new inputMemory outputMemory line)) s → s.Callable →
      (s.conn.Settles ↔ s.conn.NeverPoisoned)) ∧
    ∀ s, ReflTransGen Session.CleanStep (.start (.new inputMemory outputMemory line)) s →
      s.sentBytes.length ≤ (outputMemory.length + 128) *
        (16 * (inputMemory.length + 1) * (s.received.length + 1)) := by
  constructor
  · intro s hrun hcall
    exact settles_iff ((Session.ok_of_run hin hout hrun).1.call_ok hcall)
  · intro s hrun
    have hbudget := (Session.paid_of_run hin hout hrun).budget
    omega

/-- A new connection with blocks of one byte. -/
def newOne : Conn := .new [0] [0] clearedLine

/-- The connection after its greeting. -/
def greetedOne : Conn := newOne.replied .enterCommand (text "OK expecting command")

/-- The session in which the connection has sent its greeting, waits for input and receives a byte
with the value 1. -/
def poisonedSession : Session :=
  (((Session.start newOne).called greetedOne (.write greeting 0)).called
    (greetedOne.drained 0) (.read 0 1 0)).fed [1]

theorem poisoned_session_reached : ReflTransGen Session.Step (.start newOne) poisonedSession := by
  have hgreet : Session.Step (.start newOne) ((Session.start newOne).called greetedOne
      (.write greeting 0)) :=
    .call _ _ _ (.inl rfl) (by decide +kernel)
  have hread : Session.Step ((Session.start newOne).called greetedOne (.write greeting 0))
      (((Session.start newOne).called greetedOne (.write greeting 0)).called
        (greetedOne.drained 0) (.read 0 1 0)) :=
    .call _ _ _ (.inl rfl) (by decide +kernel)
  exact ((ReflTransGen.refl.tail hgreet).tail hread).tail
    (.input _ 1 [1] rfl (by decide) (by decide))

/-- Behind a byte with the value 1 the handler settles exactly if it is never poisoned. -/
theorem settles_iff_never_poisoned_one :
    poisonedSession.conn.Settles ↔ poisonedSession.conn.NeverPoisoned :=
  (settles_iff_never_poisoned [0] [0] clearedLine (by decide) (by decide)).1 _
    poisoned_session_reached (.inl rfl)

/-- Behind a byte with the value 1 the handler never settles. -/
theorem not_settles_control_byte : ∃ s, ReflTransGen Session.Step (.start newOne) s ∧ s.Callable ∧
    ¬ s.conn.Settles := by
  have hok := (Session.ok_of_run (by decide) (by decide) poisoned_session_reached).1
  have hready : poisonedSession.conn.Ready := (hok.call_ok (.inl rfl)).resolve_right (by decide)
  refine ⟨poisonedSession, poisoned_session_reached, .inl rfl,
    Conn.Doomed.not_settles ⟨hready, ?_, ?_⟩⟩
  · exact .inr (.inl ⟨rfl, rfl⟩)
  · exact ⟨1, [], by decide, by decide, by decide, by decide⟩

end Smerp.Pecho
