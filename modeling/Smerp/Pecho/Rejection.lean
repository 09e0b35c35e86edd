import Smerp.Pecho.Consumption

/-!
# Rejected command lines

`Watched` notes what was received behind the point at which a line was rejected. The handler is back
in step when it parses the next command behind the line feed of the rejected line.
`in_step_iff` says that it is exactly where it skips the line, and where the line feed is not lost
behind a lone carriage return. Two of the four `BAD` replies do not lead to the skipping of the
line: its rest is taken for a command.
-/

namespace Smerp.Pecho

open Lib Protocol Network Conn Relation

/-- The operation is a reply that rejects a line. What is sent while data is echoed is no reply. -/
def Conn.Rejects (c : Conn) : Operation → Prop
  | .write message _ => text "BAD" <+: message ∧ ¬ c.InData
  | _ => False

instance (c : Conn) : (op : Operation) → Decidable (c.Rejects op)
  | .write message _ =>
      inferInstanceAs (Decidable (text "BAD" <+: message ∧
        ¬ (c.state = .processing ∨ c.state = .processingAfterWrite)))
  | .read .. => inferInstanceAs (Decidable False)
  | .close => inferInstanceAs (Decidable False)

/-- A session, and what was received from the point on at which the last line was rejected, as long
as no command behind this point has been parsed. -/
structure Watched where
  session : Session
  rejected : Option (List Byte)

/-! ## Calls around a rejected line -/

/-- A reaction that rejects a line goes on to the skipping of it. -/
theorem Reaction.rejects {c next : Conn} {message : List Byte} {timeout : Nat}
    (h : Reaction c next (some (.write message timeout))) (hbad : text "BAD" <+: message) :
    next.state = .handleError := by
  cases h with
  | replies state str hstate hskips hlen => exact hskips hbad

/-- A line is rejected by a pass that goes on to the greeting or to the skipping of the line. -/
theorem Outcome.rejects {c next : Conn} {message : List Byte} {timeout : Nat}
    (hout : Outcome c next (some (.write message timeout))) (hbad : text "BAD" <+: message)
    (hdata : ¬ c.InData) : next.state = .init ∨ next.state = .handleError := by
  have hnot {other : List Byte} {time : Nat} (hother : ¬ text "BAD" <+: other) :
      Operation.write message timeout ≠ .write other time := by
    rintro ⟨⟩
    exact hother hbad
  generalize hop : some (Operation.write message timeout) = op at hout
  cases hout with
  | greet => exact absurd (Option.some.inj hop) (hnot (by decide))
  | commandEnd token ch more _ _ _ _ next op hreaction =>
      subst hop
      exact .inr ((command_reaction_cases hreaction).rejects hbad)
  | emptyBad => exact .inl rfl
  | modeEnd blanks token ch more _ _ _ _ _ _ next op hreaction =>
      subst hop
      exact .inr ((mode_reaction_cases hreaction).rejects hbad)
  | startBad => exact .inl rfl
  | startScan => exact absurd (Option.some.inj hop) (hnot (by decide))
  | echoEnd => exact .inl rfl
  | echoFull hstate => exact absurd (.inl hstate) hdata
  | _ => cases hop

/-- A new command line is greeted, and the iterator stays where it is. -/
theorem pass_init {c : Conn} (h : c.Ready) (hstate : c.state = .init) :
    ∃ next, c.pass = .ok (next, some (.write greeting 0)) ∧ next.state = .enterCommand ∧
      next.rest = c.rest := by
  obtain ⟨next, op, hpass, hout⟩ := pass_outcome (.inl h)
  cases hout with
  | greet => exact ⟨_, hpass, rfl, rfl⟩
  | _ => exact absurd (hstate.symm.trans ‹c.state = _›) (by decide)

/-- A call that skips a line asks for more input in front of its line feed or behind a lone carriage
return, or greets behind its line feed. -/
theorem call_handle_error {c : Conn} (h : c.Ready) (hstate : c.state = .handleError) :
    (∃ next, c.nextOperation = .ok (next, c.readOp) ∧ next.state = .handleError ∧
        (LF ∉ c.rest ∨ c.AtLoneReturn)) ∨
      ∃ next line, c.nextOperation = .ok (next, .write greeting 0) ∧
        next.state = .enterCommand ∧ LF ∉ line ∧ c.rest = line ++ LF :: next.rest := by
  have hlf {line : List Byte} (hline : ∀ ch ∈ line, isLineEnd ch = false) : LF ∉ line :=
    fun hmem ↦ absurd (hline LF hmem) (by decide)
  obtain ⟨next, op, hpass, hout⟩ := pass_outcome (.inl h)
  have hready (hop : op ≠ some c.readOp) : next.Ready := hout.ready h hop
  cases hout with
  | skipRead line tail _ hrest hline count htail =>
      refine .inl ⟨_, call_of_pass hpass, hstate, ?_⟩
      rcases htail with ⟨rfl, -⟩ | ⟨more, rfl, hhead, -⟩
      · rw [hrest, List.append_nil]
        exact .inl (hlf hline)
      · cases more with
        | nil =>
            refine .inl ?_
            rw [hrest, List.mem_append, not_or]
            exact ⟨hlf hline, by decide⟩
        | cons ch more =>
            exact .inr ⟨hstate, line, ch, more, hrest, hline, by simpa using hhead⟩
  | skipEnd line eoln more _ hrest hline heoln =>
      -- behind the line end the same call goes on to the greeting
      obtain ⟨next, hgreet, hnext, hsame⟩ := pass_init (hready (by simp)) rfl
      have hcall : c.nextOperation = .ok (next, .write greeting 0) := call_of_again hpass hgreet
      have hback : next.rest = more := hsame.trans (slice_passed hrest)
      rcases heoln with rfl | rfl
      · refine .inr ⟨next, line, hcall, hnext, hlf hline, ?_⟩
        rw [hrest, hback, List.append_assoc, List.singleton_append]
      · refine .inr ⟨next, line ++ [CR], hcall, hnext, ?_, ?_⟩
        · rw [List.mem_append, not_or]
          exact ⟨hlf hline, by decide⟩
        · rw [hrest, hback, CRLF]
          simp
  | _ => exact absurd (hstate.symm.trans ‹c.state = _›) (by decide)

namespace Watched

/-- A new connection. -/
def start (c : Conn) : Watched := ⟨.start c, none⟩

/-- The bytes from the rejected line on, behind a call. -/
def rejectedBy (w : Watched) (next : Conn) (op : Operation) : Option (List Byte) :=
  if w.session.conn.Rejects op then some next.rest
  else if w.session.conn.state = .enterCommand then none
  else w.rejected

/-- The session after an action, and the bytes from the rejected line on. -/
def act (w : Watched) (action : Action) : Watched where
  session := w.session.act action
  rejected :=
    match action with
    | .call =>
        match w.session.conn.nextOperation with
        | .ok (next, op) => w.rejectedBy next op
        | .error _ => w.rejected
    | .input data => w.rejected.map (· ++ data)
    | .notify => w.rejected

/-- What is possible in the session. -/
def Possible (w : Watched) (action : Action) : Prop := w.session.Possible action

instance (w : Watched) (action : Action) : Decidable (w.Possible action) :=
  inferInstanceAs (Decidable (w.session.Possible action))

/-- The rejected line is rejected as a whole: behind the reply the handler is about to greet, or it
skips the line and asks for more input only if its line feed was not received yet, or it stands
right behind this line feed to parse the next command. -/
def InStep (w : Watched) : Prop :=
  ∀ given, w.rejected = some given →
    w.session.conn.state = .terminate ∨ w.session.conn.state = .init ∨
      w.session.conn.state = .handleError ∧ (w.session.pending ≠ none → LF ∉ given) ∨
      w.session.conn.state = .enterCommand ∧
        ∃ line, LF ∉ line ∧ given = line ++ LF :: w.session.conn.rest

/-- If the action is a call behind a rejected line, then the handler is skipping this line, and if
it meets a lone carriage return, then no line feed was received behind it. -/
def Resumes (w : Watched) (action : Action) : Prop :=
  action = .call → ∀ given, w.rejected = some given →
    w.session.conn.state ≠ .init ∧ ¬ (w.session.conn.AtLoneReturn ∧ LF ∈ w.session.conn.rest)

/-- What is left of the rejected line at each point of the way back into step. -/
inductive Left (s : Session) (given : List Byte) : Prop
  | terminated (hstate : s.conn.state = .terminate)
  | replied (hstate : s.conn.state = .init) (hpending : s.pending = none)
      (hgiven : given = s.conn.rest)
  | skipping (before : List Byte) (hstate : s.conn.state = .handleError)
      (hpending : s.pending = none)
      (hbefore : LF ∉ before) (hgiven : given = before ++ s.conn.rest)
  | asking (hstate : s.conn.state = .handleError) (hpending : s.pending ≠ none)
      (hgiven : LF ∉ given)
  | parsing (line : List Byte) (hstate : s.conn.state = .enterCommand) (hpending : s.pending = none)
      (hline : LF ∉ line) (hgiven : given = line ++ LF :: s.conn.rest)

/-- The invariant of a session that is in step. -/
structure Ok (w : Watched) : Prop where
  session : w.session.Ok
  left : ∀ given, w.rejected = some given → Left w.session given

/-- A handler that satisfies the invariant is in step. -/
theorem Ok.in_step {w : Watched} (h : w.Ok) : w.InStep := by
  intro given hgiven
  cases h.left given hgiven with
  | terminated hstate => exact .inl hstate
  | replied hstate => exact .inr (.inl hstate)
  | skipping _ hstate hpending => exact .inr (.inr (.inl ⟨hstate, absurd hpending⟩))
  | asking hstate _ hgiven => exact .inr (.inr (.inl ⟨hstate, fun _ ↦ hgiven⟩))
  | parsing line hstate _ hline hgiven => exact .inr (.inr (.inr ⟨hstate, line, hline, hgiven⟩))

/-- A call that rejects a line leaves the rest of this line to be passed. -/
theorem left_of_rejects {s : Session} {next : Conn} {op : Operation} (h : s.Ok)
    (hcall : s.Callable) (hnext : s.conn.nextOperation = .ok (next, op))
    (hrejects : s.conn.Rejects op) : Left (s.called next op) next.rest := by
  obtain ⟨last, next', op', hpath, -, -, hout, hcalled, -⟩ := call_spec (h.call_ok hcall)
  obtain ⟨rfl, rfl⟩ : next' = next ∧ op' = op := by simpa [hcalled] using hnext
  cases op' with
  | read offset size timeout => exact hrejects.elim
  | close => exact hrejects.elim
  | write message timeout =>
      obtain ⟨hbad, hdata⟩ := hrejects
      have hpending : s.pending = none := by
        refine hcall.resolve_right ?_
        intro hterminate
        exact absurd (Session.call_terminate hterminate hnext).2 (by simp)
      have hclear : ¬ last.InData :=
        fun hlast ↦ hdata ((again_state (h.call_ok hcall) hpath).2.2 hlast)
      rcases hout.rejects hbad hclear with hstate | hstate
      · exact .replied hstate hpending rfl
      · exact .skipping [] hstate hpending (by simp) rfl

/-- A call behind a rejected line, on which the handler resumes, keeps the rest of this line. -/
theorem Left.call {s : Session} {given : List Byte} (h : s.Ok) (hleft : Left s given)
    (hcall : s.Callable) (hstate : s.conn.state ≠ .enterCommand) (hinit : s.conn.state ≠ .init)
    (hlone : ¬ (s.conn.AtLoneReturn ∧ LF ∈ s.conn.rest)) : Left (s.act .call) given := by
  cases hleft with
  | terminated hterminate =>
      obtain ⟨_, next, op, -, -, -, -, hnext, -⟩ := call_spec (h.call_ok hcall)
      obtain ⟨rfl, rfl⟩ := Session.call_terminate hterminate hnext
      simp only [Session.act, hnext]
      exact .terminated hterminate
  | replied hreplied => exact absurd hreplied hinit
  | skipping before hskips hpending hbefore hgiven =>
      have hready : s.conn.Ready :=
        (h.call_ok hcall).resolve_right fun hterminate ↦ by simp [hskips] at hterminate
      rcases call_handle_error hready hskips with ⟨next, hnext, hasks, hrest⟩ |
        ⟨next, line, hnext, hparses, hline, hrest⟩
      · -- nothing of the line end was received, not even behind a lone carriage return
        have hclear : LF ∉ s.conn.rest :=
          hrest.elim id fun hreturn hmem ↦ hlone ⟨hreturn, hmem⟩
        simp only [Session.act, hnext]
        refine .asking hasks (by simp [Session.called, readOp]) ?_
        rw [hgiven, List.mem_append, not_or]
        exact ⟨hbefore, hclear⟩
      · simp only [Session.act, hnext]
        refine .parsing (before ++ line) hparses hpending ?_ ?_
        · rw [List.mem_append, not_or]
          exact ⟨hbefore, hline⟩
        · rw [hgiven, hrest, List.append_assoc]
          rfl
  | asking hskips hpending =>
      have hterminate := hcall.resolve_left hpending
      simp [hskips] at hterminate
  | parsing line hparses => exact absurd hparses hstate

/-- The answer to a `READ` continues what is left of the rejected line. -/
theorem Left.input {s : Session} {given data : List Byte} {size : Nat} (hleft : Left s given)
    (hpending : s.pending = some size) : Left (s.fed data) (given ++ data) := by
  have hframe := (network_input_frame s.conn data).1
  cases hleft with
  | terminated hterminate => exact .terminated (hframe.trans hterminate)
  | asking hskips _ hgiven =>
      have hrest : (s.conn.networkInput data).rest = data :=
        network_input_rest (by simp [hskips]) data
      exact .skipping given (hframe.trans hskips) rfl hgiven (congrArg (given ++ ·) hrest.symm)
  | replied _ hnone => simp [hnone] at hpending
  | skipping _ _ hnone => simp [hnone] at hpending
  | parsing _ _ hnone => simp [hnone] at hpending

/-- A call whose reply rejects a line. -/
theorem act_call {w : Watched} {next : Conn} {op : Operation}
    (hnext : w.session.conn.nextOperation = .ok (next, op)) :
    w.act .call = ⟨w.session.called next op, w.rejectedBy next op⟩ := by
  simp only [act, Session.act, hnext]

/-- Every action on which the handler resumes keeps the invariant. -/
theorem Ok.act {w : Watched} {action : Action} (h : w.Ok) (hpossible : w.Possible action)
    (hresumes : w.Resumes action) : (w.act action).Ok := by
  refine ⟨h.session.act hpossible, ?_⟩
  cases action with
  | call =>
      obtain ⟨_, next, op, -, -, -, -, hnext, -⟩ := call_spec (h.session.call_ok hpossible)
      rw [act_call hnext]
      intro given hgiven
      unfold rejectedBy at hgiven
      split at hgiven
      case isTrue hrejects =>
        obtain rfl : next.rest = given := by simpa using hgiven
        exact left_of_rejects h.session hpossible hnext hrejects
      case isFalse =>
        split at hgiven
        case isTrue => cases hgiven
        case isFalse hstate =>
          obtain ⟨hinit, hlone⟩ := hresumes rfl given hgiven
          have hleft := (h.left given hgiven).call h.session hpossible hstate hinit hlone
          simpa only [Session.act, hnext] using hleft
  | input data =>
      obtain ⟨size, hpending, -, -⟩ := hpossible
      intro given hgiven
      obtain ⟨before, hbefore, rfl⟩ := Option.map_eq_some_iff.mp hgiven
      exact (h.left before hbefore).input hpending
  | notify => exact fun given _ ↦ .terminated rfl

/-- A handler that greets behind a rejected line takes the rest of this line for a command. -/
theorem Ok.greeted_out_of_step {w : Watched} {given : List Byte} (h : w.Ok)
    (hcall : w.session.Callable) (hgiven : w.rejected = some given)
    (hinit : w.session.conn.state = .init) : ¬ (w.act .call).InStep := by
  intro hstep
  have hready : w.session.conn.Ready :=
    (h.session.call_ok hcall).resolve_right fun hterminate ↦ by simp [hinit] at hterminate
  obtain ⟨next, hpass, hparses, hrest⟩ := pass_init hready hinit
  rw [act_call (call_of_pass hpass)] at hstep
  have hsame : w.rejectedBy next (.write greeting 0) = some given := by
    have hgreets : ¬ w.session.conn.Rejects (.write greeting 0) :=
      fun hrejects ↦ absurd hrejects.1 (by decide)
    rw [rejectedBy, if_neg hgreets, if_neg (by simp [hinit]), hgiven]
  rcases hstep given hsame with hother | hother | ⟨hother, -⟩ | ⟨-, line, -, hline⟩
  · simp [Session.called, hparses] at hother
  · simp [Session.called, hparses] at hother
  · simp [Session.called, hparses] at hother
  · cases h.left given hgiven with
    | replied _ _ hwhole =>
        have hlen := congrArg List.length hline
        simp only [Session.called, hrest, ← hwhole, List.length_append, List.length_cons] at hlen
        omega
    | terminated hterminate => simp [hinit] at hterminate
    | skipping _ hskips => simp [hinit] at hskips
    | asking hskips => simp [hinit] at hskips
    | parsing _ hparsing => simp [hinit] at hparsing

/-- A handler that meets a lone carriage return drops the line feed with the rest of the message. -/
theorem Ok.dropped_out_of_step {w : Watched} {given : List Byte} (h : w.Ok)
    (hcall : w.session.Callable) (hgiven : w.rejected = some given)
    (hlone : w.session.conn.AtLoneReturn) (hmem : LF ∈ w.session.conn.rest) :
    ¬ (w.act .call).InStep := by
  intro hstep
  have hready : w.session.conn.Ready :=
    (h.session.call_ok hcall).resolve_right fun hterminate ↦ by simp [hlone.1] at hterminate
  obtain ⟨next, op, hpass, hout⟩ := pass_outcome (.inl hready)
  obtain ⟨rfl, hskips, -⟩ := hout.at_lone_return hready hlone
  have hreceived : LF ∈ given := by
    cases h.left given hgiven with
    | skipping before _ _ _ hgiven =>
        rw [hgiven, List.mem_append]
        exact .inr hmem
    | terminated hterminate => simp [hlone.1] at hterminate
    | replied hreplied => simp [hlone.1] at hreplied
    | asking _ hpending =>
        have hterminate := hcall.resolve_left hpending
        simp [hlone.1] at hterminate
    | parsing _ hparsing => simp [hlone.1] at hparsing
  rw [act_call (call_of_pass hpass)] at hstep
  have hsame : w.rejectedBy next w.session.conn.readOp = some given := by
    rw [rejectedBy, if_neg (by exact id), if_neg (by simp [hlone.1]), hgiven]
  rcases hstep given hsame with hother | hother | ⟨-, hasks⟩ | ⟨hother, -⟩
  · simp [Session.called, hskips] at hother
  · simp [Session.called, hskips] at hother
  · exact hasks (by simp [Session.called, readOp]) hreceived
  · simp [Session.called, hskips] at hother

/-- A call on which the handler does not resume leads out of step. -/
theorem Ok.out_of_step {w : Watched} {action : Action} (h : w.Ok) (hpossible : w.Possible action)
    (hresumes : ¬ w.Resumes action) : ¬ (w.act action).InStep := by
  unfold Resumes at hresumes
  push Not at hresumes
  obtain ⟨rfl, given, hgiven, hlost⟩ := hresumes
  have hcall : w.session.Callable := hpossible
  by_cases hinit : w.session.conn.state = .init
  · exact h.greeted_out_of_step hcall hgiven hinit
  · obtain ⟨hlone, hmem⟩ := hlost hinit
    exact h.dropped_out_of_step hcall hgiven hlone hmem

end Watched

/-- **Rejected lines.** A run stays in step exactly if every call behind a rejected line is made by
a handler that skips the line, and no line feed of such a line is received behind a carriage return
that is followed by another byte. -/
theorem in_step_iff (inputMemory outputMemory : List Byte) (line : Buffer 128)
    (hin : 0 < inputMemory.length) (hout : 0 < outputMemory.length) {actions : List Action}
    (hrun : Runs.Each Watched.act Watched.Possible (.start (.new inputMemory outputMemory line))
      actions) :
    Runs.Always Watched.act Watched.InStep (.start (.new inputMemory outputMemory line)) actions ↔
      Runs.Each Watched.act Watched.Resumes (.start (.new inputMemory outputMemory line))
        actions := by
  have hstep (w : Watched) (action : Action) (h : w.Ok) (hpossible : w.Possible action)
      (hresumes : w.Resumes action) : (w.act action).Ok := h.act hpossible hresumes
  have hstart : (Watched.start (.new inputMemory outputMemory line)).Ok :=
    ⟨Session.start_ok line hin hout, nofun⟩
  exact Runs.always_iff_rule hstep (fun _ h ↦ h.in_step)
    (fun _ _ h hpossible hresumes ↦ h.out_of_step hpossible hresumes) hstart hrun

/-- A run in which the unknown command `x` is rejected and skipped. -/
theorem in_step_iff_skipped :
    Runs.Always Watched.act Watched.InStep (.start (.new (List.replicate 9 0) [0] clearedLine))
        [.call, .call, .input (text "x y\nquit\n"), .call, .call, .call] ↔
      Runs.Each Watched.act Watched.Resumes (.start (.new (List.replicate 9 0) [0] clearedLine))
        [.call, .call, .input (text "x y\nquit\n"), .call, .call, .call] :=
  in_step_iff _ _ _ (by decide) (by decide) (by decide +kernel)

/-- The session in which `" quit\n"` was rejected with `BAD command line`, and greeted. -/
def greetedBlank : Watched :=
  Runs.last Watched.act (.start (.new (List.replicate 8 0) [0] clearedLine))
    [.call, .call, .input (text " quit\n"), .call, .call]

/-- **A rejected line is taken for a command**: of `" quit\n"` the handler rejects the blank with
`BAD command line`, greets, and then obeys the rest of the line. -/
theorem not_in_step : ¬ ∀ (inputMemory outputMemory : List Byte) (line : Buffer 128)
    (actions : List Action), 0 < inputMemory.length → 0 < outputMemory.length →
    Runs.Each Watched.act Watched.Possible (.start (.new inputMemory outputMemory line)) actions →
    Runs.Always Watched.act Watched.InStep (.start (.new inputMemory outputMemory line))
      actions := by
  intro hall
  have hrun := hall (List.replicate 8 0) [0] clearedLine
    [.call, .call, .input (text " quit\n"), .call, .call] (by decide) (by decide)
    (by decide +kernel)
  have hstep : greetedBlank.InStep := hrun.2.2.2.2.2
  have hgiven : greetedBlank.rejected = some (text "quit\n") := by decide +kernel
  have hstate : greetedBlank.session.conn.state = .enterCommand := by decide +kernel
  have hrest : greetedBlank.session.conn.rest = text "quit\n" := by decide +kernel
  rcases hstep _ hgiven with hother | hother | ⟨hother, -⟩ | ⟨-, line, -, hline⟩
  · simp [hstate] at hother
  · simp [hstate] at hother
  · simp [hstate] at hother
  · have hlen := congrArg List.length hline
    simp only [hrest, List.length_append, List.length_cons] at hlen
    omega

end Smerp.Pecho
