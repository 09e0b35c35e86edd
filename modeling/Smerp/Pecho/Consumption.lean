import Smerp.Lib.Runs
import Smerp.Pecho.Progress
import Smerp.Pecho.Simulation

/-!
# What a `READ` leaves behind

Whenever the handler asks for input it has passed the whole message, with one exception: while it
skips a rejected line, it takes a carriage return for the end of its input if no line feed follows.
`each_read_consumes_iff` says that the bytes behind such a carriage return are all that is lost.
-/

namespace Smerp.Pecho

open Lib Protocol Network Conn Relation

/-- What can happen to a handler: `nextOperation` is called, a `READ` is answered, and a timeout, a
signal or an error is reported. -/
inductive Action where
  | call
  | input (data : List Byte)
  | notify
  deriving DecidableEq, Repr

namespace Session

/-- The session after an action. -/
def act (s : Session) : Action → Session
  | .call =>
      match s.conn.nextOperation with
      | .ok (next, op) => s.called next op
      | .error _ => s
  | .input data => s.fed data
  | .notify => { s with conn := s.conn.signalTerminate }

/-- `nextOperation` is called when no `READ` is in flight, or when the handler was told to
terminate. A `READ` is answered by at least one and at most the requested number of bytes. -/
def Possible (s : Session) : Action → Prop
  | .call => s.Callable
  | .input data => ∃ size ∈ s.pending, 1 ≤ data.length ∧ data.length ≤ size
  | .notify => True

instance (s : Session) : (action : Action) → Decidable (s.Possible action)
  | .call => inferInstanceAs (Decidable s.Callable)
  | .input _ => inferInstanceAs (Decidable (∃ size ∈ s.pending, _))
  | .notify => inferInstanceAs (Decidable True)

/-- A possible action is a step. -/
theorem Ok.act_step {s : Session} {action : Action} (h : s.Ok) (hpossible : s.Possible action) :
    Step s (s.act action) := by
  cases action with
  | call =>
      obtain ⟨_, next, op, -, -, -, -, hcall, -⟩ := call_spec (h.call_ok hpossible)
      have hstep := Step.call s next op hpossible hcall
      simpa only [act, hcall] using hstep
  | input data =>
      obtain ⟨size, hpending, hpos, hle⟩ := hpossible
      exact .input s size data hpending hpos hle
  | notify => exact .notify s

/-- Every action keeps the invariant. -/
theorem Ok.act {s : Session} {action : Action} (h : s.Ok) (hpossible : s.Possible action) :
    (s.act action).Ok :=
  (h.step (h.act_step hpossible)).1

/-- If the action is a call that returns a `READ`, then the whole message has been consumed. -/
def Consumes (s : Session) (action : Action) : Prop :=
  ∀ next offset size timeout, action = .call →
    s.conn.nextOperation = .ok (next, .read offset size timeout) → next.itr = next.eoM

end Session

namespace Conn

/-- The handler skips a rejected line and stands in front of a carriage return, before any line
feed, behind which another byte than a line feed was received. -/
def AtLoneReturn (c : Conn) : Prop :=
  c.state = .handleError ∧ ∃ line ch more, c.rest = line ++ CR :: ch :: more ∧
    (∀ ch ∈ line, isLineEnd ch = false) ∧ ch ≠ LF

/-- A pass that returns ends the call. -/
theorem call_of_pass {c next : Conn} {op : Operation} (h : c.pass = .ok (next, some op)) :
    c.nextOperation = .ok (next, op) := by
  simp [nextOperation, passBound, Nat.mul_add, forEver, h]

/-- A pass that returns behind one that goes round again ends the call. -/
theorem call_of_again {c mid next : Conn} {op : Operation} (hagain : c.pass = .ok (mid, none))
    (h : mid.pass = .ok (next, some op)) : c.nextOperation = .ok (next, op) := by
  simp [nextOperation, passBound, Nat.mul_add, forEver, hagain, h]

end Conn

/-- A reaction without an operation leads neither to the skipping of a line nor into the data. -/
theorem Reaction.again_state {c moved next : Conn} (h : Reaction moved next none) :
    next.state ≠ .handleError ∧ (next.InData → c.InData) := by
  cases h with
  | goesOn mode state hstate => rcases hstate with rfl | rfl | rfl <;> simp [InData]

/-- A pass that goes round again leads neither to the skipping of a line nor into the data. -/
theorem Outcome.again_state {c next : Conn} (hout : Outcome c next none) :
    next.state ≠ .handleError ∧ (next.InData → c.InData) := by
  generalize hop : (none : Option Operation) = op at hout
  cases hout with
  | commandEnd token ch more _ _ _ _ next op hreaction =>
      subst hop
      exact (command_reaction_cases hreaction).again_state
  | modeEnd blanks token ch more _ _ _ _ _ _ next op hreaction =>
      subst hop
      exact (mode_reaction_cases hreaction).again_state
  | emptyEnd => simp [InData]
  | release hstate => exact ⟨by simp, fun _ ↦ .inr hstate⟩
  | echoEnd hstate => exact ⟨by simp, fun _ ↦ .inl hstate⟩
  | skipEnd => simp [InData]
  | _ => cases hop

/-- Where the passes of a call that go round again lead to. -/
theorem again_state {c last : Conn} (h : c.CallOk) (hpath : ReflTransGen (Again pass) c last) :
    last.CallOk ∧ (last.state = .handleError → last = c) ∧ (last.InData → c.InData) := by
  induction hpath with
  | refl => exact ⟨h, fun _ ↦ rfl, id⟩
  | @tail mid last _ hstep ih =>
      obtain ⟨hready, -, hdata⟩ := ih
      obtain ⟨next, op, hpass, hout, hagain⟩ := pass_spec hready
      obtain ⟨rfl, rfl⟩ : next = last ∧ op = none := by simpa [Again, hpass] using hstep
      obtain ⟨hskips, hkeeps⟩ := hout.again_state
      exact ⟨.inl (hagain rfl).2.1, fun hstate ↦ absurd hstate hskips, fun h ↦ hdata (hkeeps h)⟩

/-- **A pass that asks for input has passed the whole message**, unless it stopped behind a lone
carriage return. -/
theorem Outcome.read_consumes {c next : Conn} {offset size timeout : Nat} (h : c.Ready)
    (hout : Outcome c next (some (.read offset size timeout))) (hlone : ¬ c.AtLoneReturn) :
    next.itr = next.eoM := by
  have hlen := h.rest_length
  generalize hop : some (Operation.read offset size timeout) = op at hout
  cases hout with
  | commandRead => exact hlen
  | emptyRead => exact hlen
  | modeRead => exact hlen
  | startRead => exact hlen
  | echoRead hstate _ hend =>
      have hdata := (h.data_ok (.inl hstate)).data_length
      show c.itr + c.data.length = c.eoM
      rw [hdata, hend]
  | skipRead line tail hstate hrest hline count htail =>
      show c.itr + count = c.eoM
      rw [hrest, List.length_append] at hlen
      rcases htail with ⟨rfl, rfl⟩ | ⟨more, rfl, hhead, rfl⟩
      · exact hlen
      · cases more with
        | nil => exact hlen
        | cons ch more =>
            exact absurd ⟨hstate, line, ch, more, hrest, hline, by simpa using hhead⟩ hlone
  | commandEnd _ _ _ _ _ _ _ _ _ hreaction =>
      exact (hop ▸ (command_reaction_cases hreaction).goes_on).elim
  | modeEnd _ _ _ _ _ _ _ _ _ _ _ _ hreaction =>
      exact (hop ▸ (mode_reaction_cases hreaction).goes_on).elim
  | echoEnd _ _ _ _ hsent => rw [← hop] at hsent; split at hsent <;> cases hsent
  | _ => cases hop

/-- A pass in front of a lone carriage return stops behind it, and asks for input. -/
theorem Outcome.at_lone_return {c next : Conn} {op : Option Operation} (h : c.Ready)
    (hout : Outcome c next op) (hlone : c.AtLoneReturn) :
    op = some c.readOp ∧ next.state = .handleError ∧ next.itr < next.eoM := by
  obtain ⟨hstate, line, ch, more, hrest, hline, hch⟩ := hlone
  have hlen := h.rest_length
  rw [hrest] at hlen
  cases hout with
  | skipRead line' tail _ hrest' hline' count htail =>
      have hsplit := hrest.symm.trans hrest'
      rcases htail with ⟨rfl, -⟩ | ⟨more', rfl, -, rfl⟩
      · -- without a line end in the rest there would be no carriage return
        have hclear := hline' CR (by rw [← List.append_nil line', ← hsplit]; simp)
        exact absurd hclear (by decide)
      · obtain ⟨rfl, -, -⟩ := line_unique hsplit hline (by decide) hline' (by decide)
        refine ⟨rfl, hstate, ?_⟩
        show c.itr + (line.length + 1) < c.eoM
        simp only [List.length_append, List.length_cons] at hlen
        omega
  | skipEnd line' eoln back _ hrest' hline' heoln =>
      have hsplit := hrest.symm.trans hrest'
      rw [List.append_assoc] at hsplit
      rcases heoln with rfl | rfl
      · obtain ⟨-, hlf, -⟩ := line_unique hsplit hline (by decide) hline' (by decide)
        exact absurd hlf (by decide)
      · obtain ⟨-, -, hback⟩ := line_unique hsplit hline (by decide) hline' (by decide)
        exact absurd (List.cons.inj hback).1 hch
  | _ => exact absurd (hstate.symm.trans ‹c.state = _›) (by decide)

namespace Session

/-- A call returns a `READ` that leaves something of the message behind exactly if it is made in
front of a lone carriage return. -/
theorem Ok.consumes_iff {s : Session} {action : Action} (h : s.Ok)
    (hpossible : s.Possible action) :
    s.Consumes action ↔ (action = .call → ¬ s.conn.AtLoneReturn) := by
  constructor
  · rintro hconsumes rfl hlone
    have hcall : s.Callable := hpossible
    have hready : s.conn.Ready :=
      (h.call_ok hcall).resolve_right fun hstate ↦ absurd (hlone.1.symm.trans hstate) (by decide)
    obtain ⟨next, op, hpass, hout⟩ := pass_outcome (.inl hready)
    obtain ⟨rfl, -, hlt⟩ := hout.at_lone_return hready hlone
    have hend := hconsumes next _ _ _ rfl (call_of_pass hpass)
    omega
  · rintro hclean next offset size timeout rfl hnext
    obtain ⟨last, next', op, hpath, hlast, -, hout, hcall, -⟩ := call_spec (h.call_ok hpossible)
    obtain ⟨rfl, rfl⟩ : next' = next ∧ op = .read offset size timeout := by
      simpa [hcall] using hnext
    obtain ⟨-, hsame, -⟩ := again_state (h.call_ok hpossible) hpath
    refine hout.read_consumes ?_ ?_
    · refine hlast.resolve_right ?_
      intro hstate
      cases hout <;> exact absurd (hstate.symm.trans ‹last.state = _›) (by decide)
    · intro hlone
      exact hclean rfl (hsame hlone.1 ▸ hlone)

end Session

/-- **What a `READ` leaves behind.** In every run, all calls that return a `READ` have consumed the
whole message exactly if no call skips a line and meets a carriage return that is followed by
another byte than a line feed. -/
theorem each_read_consumes_iff (inputMemory outputMemory : List Byte) (line : Buffer 128)
    (hin : 0 < inputMemory.length) (hout : 0 < outputMemory.length) {actions : List Action}
    (hrun : Runs.Each Session.act Session.Possible (.start (.new inputMemory outputMemory line))
      actions) :
    Runs.Each Session.act Session.Consumes (.start (.new inputMemory outputMemory line)) actions ↔
      Runs.Each Session.act (fun s action ↦ action = .call → ¬ s.conn.AtLoneReturn)
        (.start (.new inputMemory outputMemory line)) actions := by
  refine Runs.each_iff_rule ?_ (Session.start_ok line hin hout) hrun
  intro s action h hpossible
  exact ⟨h.consumes_iff hpossible, h.act hpossible⟩

/-- A run in which a whole line is rejected. -/
theorem each_read_consumes_iff_rejected :
    Runs.Each Session.act Session.Consumes (.start (.new (List.replicate 8 0) [0] clearedLine))
        [.call, .call, .input (text "foo\r\n"), .call, .call, .call] ↔
      Runs.Each Session.act (fun s action ↦ action = .call → ¬ s.conn.AtLoneReturn)
        (.start (.new (List.replicate 8 0) [0] clearedLine))
        [.call, .call, .input (text "foo\r\n"), .call, .call, .call] :=
  each_read_consumes_iff _ _ _ (by decide) (by decide) (by decide +kernel)

/-- The session behind the reply to the unknown command `x` in `"x\rquit\n"`. -/
def rejectedX : Session :=
  Runs.last Session.act (.start (.new (List.replicate 8 0) [0] clearedLine))
    [.call, .call, .input (text "x\rquit\n"), .call]

/-- **Received bytes get lost**: of `"x\rquit\n"` the handler rejects the unknown command `x`, and
drops `quit` when it skips the line. -/
theorem not_each_read_consumes : ¬ ∀ (inputMemory outputMemory : List Byte) (line : Buffer 128)
    (actions : List Action), 0 < inputMemory.length → 0 < outputMemory.length →
    Runs.Each Session.act Session.Possible (.start (.new inputMemory outputMemory line)) actions →
    Runs.Each Session.act Session.Consumes (.start (.new inputMemory outputMemory line))
      actions := by
  intro hall
  have hrun := hall (List.replicate 8 0) [0] clearedLine
    [.call, .call, .input (text "x\rquit\n"), .call, .call] (by decide) (by decide)
    (by decide +kernel)
  have hread : rejectedX.conn.nextOperation = .ok ((rejectedX.act .call).conn, .read 0 8 0) := by
    decide +kernel
  have hleft : (rejectedX.act .call).conn.itr ≠ (rejectedX.act .call).conn.eoM := by
    decide +kernel
  exact hleft (hrun.2.2.2.2.1 _ _ _ _ rfl hread)

end Smerp.Pecho
