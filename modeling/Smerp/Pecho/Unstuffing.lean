import Smerp.Lib.Logs
import Smerp.Pecho.Consumption

/-!
# Unstuffing

`getEoD` takes the stuffed dots out of the input block in place, and it walks over the whole block.
A block that arrives while the handler waits for the end of the `echo` line is given to `getEoD` by
`networkInput`, and once more when the line end is found. `unstuffs_once_iff` says that this is the
only case in which bytes are scanned twice.
-/

namespace Smerp.Pecho

open Lib Protocol Network Conn Relation

/-- What is recorded of a run: a block arrives, an `echo` command begins, and `getEoD` scans the
input block from a position up to another. -/
inductive Event where
  | block
  | echo
  | scan (start stop : Nat)
  deriving DecidableEq, Repr

/-- A scan. -/
def Event.isScan : Event → Bool
  | .scan _ _ => true
  | _ => false

/-- The scans of the current block during the current `echo` command. -/
def recentScans (log : List Event) : List Event := log.reverse.takeWhile Event.isScan

/-- The event is no scan of a byte between two positions. -/
def Event.Spares (start stop : Nat) : Event → Prop
  | .scan start' stop' => ¬ max start start' < min stop stop'
  | _ => True

instance (start stop : Nat) : (event : Event) → Decidable (event.Spares start stop)
  | .scan _ _ => inferInstanceAs (Decidable (¬ _ < _))
  | .block => inferInstanceAs (Decidable True)
  | .echo => inferInstanceAs (Decidable True)

/-- A scan has no byte in common with the scans of the current block during the current command. -/
def ScansFresh (log : List Event) : Event → Prop
  | .scan start stop => ∀ earlier ∈ recentScans log, earlier.Spares start stop
  | _ => True

instance (log : List Event) : (event : Event) → Decidable (ScansFresh log event)
  | .scan _ _ => inferInstanceAs (Decidable (∀ earlier ∈ recentScans log, _))
  | .block => inferInstanceAs (Decidable True)
  | .echo => inferInstanceAs (Decidable True)

namespace Conn

/-- The events of a pass. The command `echo` is the one that leads to `EnterMode`, and
`case StartProcessing` calls `getEoD` when it goes on to `Processing`. -/
def passEvents (c : Conn) : List Event :=
  match c.pass with
  | .ok (next, _) =>
      if c.state = .enterCommand ∧ next.state = .enterMode then [.echo]
      else if c.state = .startProcessing ∧ next.state = .processing then
        [.scan next.itr c.input.size]
      else []
  | .error _ => []

/-- The events of so many passes of a call. -/
def callEvents : Nat → Conn → List Event
  | 0, _ => []
  | fuel + 1, c => c.passEvents ++ match c.pass with
      | .ok (next, none) => callEvents fuel next
      | _ => []

/-- The events of `networkInput`. -/
def inputEvents (c : Conn) : List Event :=
  if c.state = .processing ∨ c.state = .startProcessing then [.block, .scan 0 c.input.size]
  else [.block]

/-- The handler stands in front of the end of the `echo` line, and waited for it. -/
def AtLineEnd (c : Conn) : Prop :=
  c.state = .startProcessing ∧ ∃ blanks ch more, c.rest = blanks ++ ch :: more ∧
    (∀ ch ∈ blanks, isBlank ch = true) ∧ isLineEnd ch = true

end Conn

/-- A session with the events so far. -/
structure Recorded where
  session : Session
  log : List Event
  deriving DecidableEq, Repr

namespace Recorded

/-- A new connection. -/
def start (c : Conn) : Recorded := ⟨.start c, []⟩

/-- The session after an action. -/
def act (w : Recorded) (action : Action) : Recorded where
  session := w.session.act action
  log := w.log ++ match action with
    | .call => w.session.conn.callEvents w.session.conn.passBound
    | .input _ => w.session.conn.inputEvents
    | .notify => []

/-- The actions of the session. -/
def Possible (w : Recorded) (action : Action) : Prop := w.session.Possible action

instance (w : Recorded) (action : Action) : Decidable (w.Possible action) :=
  inferInstanceAs (Decidable (w.session.Possible action))

/-- `getEoD` has scanned no byte of a block twice during one `echo` command. -/
def UnstuffsOnce (w : Recorded) : Prop := History.After ScansFresh [] w.log

instance (w : Recorded) : Decidable w.UnstuffsOnce :=
  inferInstanceAs (Decidable (History.After ScansFresh [] w.log))

end Recorded

/-! ## One pass -/

/-- Behind a block or a command nothing has been scanned. -/
@[simp] theorem recent_scans_block (log : List Event) : recentScans (log ++ [.block]) = [] := by
  simp [recentScans, Event.isScan]

@[simp] theorem recent_scans_echo (log : List Event) : recentScans (log ++ [.echo]) = [] := by
  simp [recentScans, Event.isScan]

/-- The scan that was made last. -/
theorem recent_scans_scan (log : List Event) (start stop : Nat) :
    recentScans (log ++ [.scan start stop]) = .scan start stop :: recentScans log := by
  rw [recentScans, List.reverse_append, List.reverse_singleton, List.singleton_append,
    List.takeWhile_cons_of_pos rfl]
  rfl

/-- The first scan. -/
theorem scans_fresh_of_none {log : List Event} (h : recentScans log = []) (event : Event) :
    ScansFresh log event := by
  cases event with
  | scan start stop =>
      rw [ScansFresh, h]
      exact fun earlier hmem ↦ absurd hmem List.not_mem_nil
  | _ => trivial

/-- `getEoD` is what a scan of a pass stands for. -/
theorem scan_is_get_eod {c next : Conn} {op : Option Operation} (hout : Outcome c next op)
    (hstate : c.state = .startProcessing) (hnext : next.state = .processing) :
    c.input.resetEoD.getEoD next.itr = (next.eoD, next.input) := by
  cases hout with
  | startScan blanks ch more _ hrest hblank hline eoD input hscan => exact hscan
  | startRead => exact absurd (hstate.symm.trans hnext) (by decide)
  | startBad => exact absurd hnext (by simp [replied])
  | _ => exact absurd (hstate.symm.trans ‹c.state = _›) (by decide)

/-- The events of a pass with this outcome. -/
theorem pass_events_eq {c next : Conn} {op : Option Operation} (hpass : c.pass = .ok (next, op)) :
    c.passEvents = if c.state = .enterCommand ∧ next.state = .enterMode then [.echo]
      else if c.state = .startProcessing ∧ next.state = .processing then
        [.scan next.itr c.input.size]
      else [] := by
  rw [passEvents, hpass]

/-- In front of a pass nothing has been scanned if a mode is parsed, or if the line end behind it is
found. -/
def Unscanned (c : Conn) (log : List Event) : Prop :=
  (c.state = .enterMode → recentScans log = []) ∧ (c.AtLineEnd → recentScans log = [])

/-- The reactions to a command lead to `EnterMode` only without an operation. -/
theorem command_reaction_mode {c next : Conn} {op : Option Operation} {cmd : Option Command}
    (hreaction : (next, op) = commandReaction c cmd) :
    (next.state = .enterMode → op = none) ∧ next.state ≠ .startProcessing := by
  cases cmd with
  | none => cases hreaction; simp [replied]
  | some cmd => cases cmd <;> cases hreaction <;> simp [replied]

/-- The reactions to an argument lead to `StartProcessing` only without an operation. -/
theorem mode_reaction_mode {c next : Conn} {op : Option Operation} {mode : Option Mode}
    (hreaction : (next, op) = modeReaction c mode) :
    (next.state = .startProcessing → op = none) ∧ next.state ≠ .enterMode := by
  cases mode with
  | none => cases hreaction; simp [replied]
  | some mode => cases hreaction; simp

/-- Where the two states behind a command come from. -/
theorem Outcome.to_mode {c next : Conn} {op : Option Operation} (hout : Outcome c next op) :
    (next.state = .enterMode → c.state = .enterCommand ∧ op = none ∨ op = some c.readOp) ∧
    (next.state = .startProcessing → c.state = .enterMode ∧ op = none ∨ op = some c.readOp) := by
  cases hout with
  | commandEnd token ch more hstate _ _ _ next op hreaction =>
      obtain ⟨hmode, hstart⟩ := command_reaction_mode hreaction
      exact ⟨fun hnext ↦ .inl ⟨hstate, hmode hnext⟩, fun hnext ↦ absurd hnext hstart⟩
  | modeEnd blanks token ch more hstate _ _ _ _ _ next op hreaction =>
      obtain ⟨hstart, hmode⟩ := mode_reaction_mode hreaction
      exact ⟨fun hnext ↦ absurd hnext hmode, fun hnext ↦ .inl ⟨hstate, hstart hnext⟩⟩
  | echoFull hstate | close hstate => simp [hstate]
  | _ => simp [replied]

/-! ## One call -/

section

variable {c : Conn} {log : List Event}

/-- **The scan of a pass is the first one** of its command and block, and behind a pass that goes
round again nothing has been scanned where it matters. -/
theorem unscanned_pass {next : Conn} {op : Option Operation} (hpass : c.pass = .ok (next, op))
    (hout : Outcome c next op) (hfresh : Unscanned c log) :
    History.After ScansFresh log c.passEvents ∧
      (op = none → Unscanned next (log ++ c.passEvents)) := by
  obtain ⟨hmode, hstart⟩ := hout.to_mode
  rw [pass_events_eq hpass]
  refine ⟨?_, ?_⟩
  · split_ifs with hecho hscan
    · exact ⟨trivial, trivial⟩
    · refine ⟨scans_fresh_of_none (hfresh.2 ?_) _, trivial⟩
      obtain ⟨hstate, hnext⟩ := hscan
      cases hout with
      | startScan blanks ch more _ hrest hblank hline =>
          exact ⟨hstate, blanks, ch, more, hrest, hblank, hline⟩
      | startRead => exact absurd (hstate.symm.trans hnext) (by decide)
      | startBad => exact absurd hnext (by simp [replied])
      | _ => exact absurd (hstate.symm.trans ‹c.state = _›) (by decide)
    · trivial
  · rintro rfl
    constructor
    · intro hnext
      obtain ⟨hstate, -⟩ := (hmode hnext).resolve_right (by simp)
      rw [if_pos ⟨hstate, hnext⟩]
      exact recent_scans_echo log
    · intro hline
      obtain ⟨hstate, -⟩ := (hstart hline.1).resolve_right (by simp)
      rw [if_neg (by simp [hstate]), if_neg (by simp [hstate]), List.append_nil]
      exact hfresh.1 hstate

/-- The scans of a call are the first ones of their command and block. -/
theorem unscanned_call (hcall : c.CallOk) (hfresh : Unscanned c log) (fuel : Nat) :
    History.After ScansFresh log (c.callEvents fuel) := by
  induction fuel generalizing c log with
  | zero => trivial
  | succ fuel ih =>
      obtain ⟨next, op, hpass, hout, hagain⟩ := pass_spec hcall
      obtain ⟨hgood, hnext⟩ := unscanned_pass hpass hout hfresh
      rw [callEvents, History.after_append]
      refine ⟨hgood, ?_⟩
      rw [hpass]
      cases op with
      | none => exact ih (.inl (hagain rfl).2.1) (hnext rfl)
      | some op => trivial

/-- A line end is no blank. -/
theorem line_end_not_blank {ch : Byte} (h : isLineEnd ch = true) : isBlank ch = false := by
  obtain rfl | rfl : ch = CR ∨ ch = LF := by simpa [isLineEnd] using h
  · rfl
  · rfl

/-- **At the line end the block is scanned** from there on. -/
theorem Conn.AtLineEnd.pass_events (hready : c.Ready) (hline : c.AtLineEnd) :
    ∃ start, c.passEvents = [.scan start c.input.size] ∧ start < c.input.size := by
  obtain ⟨hstate, blanks, ch, back, hrest, hblank, hch⟩ := hline
  obtain ⟨next, op, hpass, hout⟩ := pass_outcome (.inl hready)
  rw [pass_events_eq hpass, if_neg (by simp [hstate])]
  have hpos := hready.pos_le
  have heom := hready.eom_eq
  cases hout with
  | startScan blanks' ch' back' _ hrest' hblank' hline' =>
      refine ⟨c.itr + blanks'.length, if_pos ⟨hstate, rfl⟩, ?_⟩
      have hlen := hready.rest_length
      rw [hrest', List.length_append, List.length_cons] at hlen
      have hsize : c.input.pos ≤ c.input.size := hpos
      omega
  | startRead _ hall =>
      exact absurd (hall ch (by simp [hrest])) (by simp [line_end_not_blank hch])
  | startBad blanks' ch' back' _ hrest' hblank' hbad hline' =>
      obtain ⟨-, rfl, -⟩ := split_unique (hrest.symm.trans hrest') hblank
        (line_end_not_blank hch) hblank' hbad
      exact absurd hch (by simp [hline'])
  | _ => exact absurd (hstate.symm.trans ‹c.state = _›) (by decide)

end

/-! ## Runs -/

namespace Recorded

/-- The invariant of a run: nothing has been scanned twice, no block has been scanned while the mode
was parsed, and the block that came behind it has been scanned as a whole. -/
structure Kept (w : Recorded) : Prop where
  ok : w.session.Ok
  once : w.UnstuffsOnce
  mode : w.session.conn.state = .enterMode → w.session.pending = none → recentScans w.log = []
  start : w.session.conn.state = .startProcessing → w.session.pending = none →
    .scan 0 w.session.conn.input.size ∈ recentScans w.log

/-- A new connection has scanned nothing. -/
theorem start_kept {inputMemory outputMemory : List Byte} (line : Buffer 128)
    (hin : 0 < inputMemory.length) (hout : 0 < outputMemory.length) :
    (start (.new inputMemory outputMemory line)).Kept where
  ok := Session.start_ok line hin hout
  once := trivial
  mode := fun hstate ↦ absurd hstate (by simp [start, Session.start, Conn.new])
  start := fun hstate ↦ absurd hstate (by simp [start, Session.start, Conn.new])

/-- The scans so far and those of an action. -/
theorem unstuffs_once_append {w next : Recorded} {more : List Event} (h : w.UnstuffsOnce)
    (hlog : next.log = w.log ++ more) :
    next.UnstuffsOnce ↔ History.After ScansFresh w.log more := by
  rw [UnstuffsOnce, hlog, History.after_append, List.nil_append]
  exact and_iff_right h

/-- A call that does not start at the end of an `echo` line keeps the invariant. -/
theorem Kept.call {w : Recorded} (h : w.Kept) (hcall : w.session.Callable)
    (hline : ¬ w.session.conn.AtLineEnd) : (w.act .call).Kept := by
  have hspec := h.ok.call_ok hcall
  have hfresh : Unscanned w.session.conn w.log := by
    refine ⟨fun hstate ↦ h.mode hstate ?_, fun hat ↦ absurd hat hline⟩
    exact hcall.resolve_right (by simp [hstate])
  obtain ⟨last, next, op, -, -, -, hout, hnext, -⟩ := call_spec hspec
  have hconn : (w.act .call).session = w.session.called next op := by
    simp only [act, Session.act, hnext]
  obtain ⟨hmode, hstart⟩ := hout.to_mode
  have hread (hop : some op = some last.readOp) : (w.act .call).session.pending ≠ none := by
    obtain rfl := Option.some.inj hop
    simp [hconn, Session.called, readOp]
  refine ⟨h.ok.act (show w.session.Possible .call from hcall), ?_, ?_, ?_⟩
  · exact (unstuffs_once_append h.once rfl).mpr (unscanned_call hspec hfresh _)
  · intro hstate hpending
    rw [hconn] at hstate
    exact absurd hpending (hread ((hmode hstate).resolve_left (by simp)))
  · intro hstate hpending
    rw [hconn] at hstate
    exact absurd hpending (hread ((hstart hstate).resolve_left (by simp)))

/-- A block keeps the invariant. -/
theorem Kept.input {w : Recorded} {data : List Byte} (h : w.Kept)
    (hpossible : w.session.Possible (.input data)) : (w.act (.input data)).Kept := by
  obtain ⟨-, hsize⟩ := h.ok.step (h.ok.act_step hpossible)
  have hstate : (w.act (.input data)).session.conn.state = w.session.conn.state :=
    (network_input_frame w.session.conn data).1
  have hlog : (w.act (.input data)).log = w.log ++ w.session.conn.inputEvents := rfl
  refine ⟨h.ok.act hpossible, ?_, ?_, ?_⟩
  · rw [unstuffs_once_append h.once hlog, inputEvents]
    split_ifs
    · exact ⟨trivial, scans_fresh_of_none (recent_scans_block w.log) _, trivial⟩
    · exact ⟨trivial, trivial⟩
  · intro hmode _
    rw [hlog, inputEvents, if_neg (by simp [hstate ▸ hmode])]
    exact recent_scans_block w.log
  · intro hstart _
    rw [hlog, inputEvents, if_pos (.inr (hstate ▸ hstart))]
    have hscans := recent_scans_scan (w.log ++ [.block]) 0 w.session.conn.input.size
    rw [List.append_assoc] at hscans
    have hsame : (w.act (.input data)).session.conn.input.size = w.session.conn.input.size := hsize
    rw [hsame]
    exact hscans ▸ List.mem_cons_self

/-- A timeout, a signal or an error keeps the invariant. -/
theorem Kept.notify {w : Recorded} (h : w.Kept) : (w.act .notify).Kept := by
  have hlog : (w.act .notify).log = w.log := List.append_nil w.log
  refine ⟨h.ok.act (show w.session.Possible .notify from trivial), ?_, ?_, ?_⟩
  · rw [UnstuffsOnce, hlog]
    exact h.once
  · intro hstate
    exact absurd hstate (by simp [act, Session.act, signalTerminate])
  · intro hstate
    exact absurd hstate (by simp [act, Session.act, signalTerminate])

/-- **A call at the end of an `echo` line scans the block again.** -/
theorem Kept.scans_again {w : Recorded} (h : w.Kept) (hcall : w.session.Callable)
    (hline : w.session.conn.AtLineEnd) : ¬ (w.act .call).UnstuffsOnce := by
  intro honce
  have hpending : w.session.pending = none := hcall.resolve_right (by simp [hline.1])
  have hready := (h.ok.call_ok hcall).resolve_right (by simp [hline.1])
  obtain ⟨start, hevents, hlt⟩ := hline.pass_events hready
  have hgood : History.After ScansFresh w.log
      (w.session.conn.callEvents w.session.conn.passBound) :=
    (unstuffs_once_append h.once rfl).mp honce
  have hbound : w.session.conn.passBound = (w.session.conn.passBound - 1) + 1 := by
    rw [passBound]
    omega
  rw [hbound, callEvents, hevents] at hgood
  have hfresh := hgood.1 _ (h.start hline.1 hpending)
  simp only [Event.Spares] at hfresh
  omega

end Recorded

/-- **When bytes are scanned twice.** In every run, `getEoD` scans no byte of a block twice during
one `echo` command exactly if no call is made in `StartProcessing` with the end of the line in front
of it: the block was scanned when it arrived. -/
theorem unstuffs_once_iff (inputMemory outputMemory : List Byte) (line : Buffer 128)
    (hin : 0 < inputMemory.length) (hout : 0 < outputMemory.length) {actions : List Action}
    (hrun : Runs.Each Recorded.act Recorded.Possible (.start (.new inputMemory outputMemory line))
      actions) :
    Runs.Always Recorded.act Recorded.UnstuffsOnce (.start (.new inputMemory outputMemory line))
        actions ↔
      Runs.Each Recorded.act (fun w action ↦ action = .call → ¬ w.session.conn.AtLineEnd)
        (.start (.new inputMemory outputMemory line)) actions := by
  have hstep (w : Recorded) (action : Action) (h : w.Kept) (hpossible : w.Possible action)
      (hclean : action = .call → ¬ w.session.conn.AtLineEnd) : (w.act action).Kept := by
    cases action with
    | call => exact h.call hpossible (hclean rfl)
    | input data => exact h.input hpossible
    | notify => exact h.notify
  have hbad (w : Recorded) (action : Action) (h : w.Kept) (hpossible : w.Possible action)
      (hdirty : ¬ (action = .call → ¬ w.session.conn.AtLineEnd)) :
      ¬ (w.act action).UnstuffsOnce := by
    obtain ⟨rfl, hline⟩ := Classical.not_imp.mp hdirty
    exact h.scans_again hpossible (not_not.mp hline)
  exact Runs.always_iff_rule hstep (fun w h ↦ h.once) hbad (Recorded.start_kept line hin hout) hrun

/-- An echo whose line comes in one block. -/
theorem unstuffs_once_iff_whole_line :
    Runs.Always Recorded.act Recorded.UnstuffsOnce
        (.start (.new (List.replicate 16 0) [0] clearedLine))
        [.call, .call, .input (text "echo\r\n..a"), .call, .call, .notify] ↔
      Runs.Each Recorded.act (fun w action ↦ action = .call → ¬ w.session.conn.AtLineEnd)
        (.start (.new (List.replicate 16 0) [0] clearedLine))
        [.call, .call, .input (text "echo\r\n..a"), .call, .call, .notify] :=
  unstuffs_once_iff _ _ _ (by decide) (by decide) (by decide +kernel)

/-- **A dot is taken out twice**: the block behind `"echo tolower "` is scanned when it arrives and
when the line end in it is found. -/
theorem not_unstuffs_once : ¬ ∀ (inputMemory outputMemory : List Byte) (line : Buffer 128)
    (actions : List Action), 0 < inputMemory.length → 0 < outputMemory.length →
    Runs.Each Recorded.act Recorded.Possible (.start (.new inputMemory outputMemory line)) actions →
    Runs.Always Recorded.act Recorded.UnstuffsOnce (.start (.new inputMemory outputMemory line))
      actions := by
  intro hall
  have hrun := hall (List.replicate 16 0) [0] clearedLine
    [.call, .call, .input (text "echo tolower "), .call, .input (text "\r\n...a\r\n.\r\n"), .call]
    (by decide) (by decide) (by decide +kernel)
  have htwice : ¬ (Runs.last Recorded.act
      (.start (.new (List.replicate 16 0) [0] clearedLine))
      [.call, .call, .input (text "echo tolower "), .call, .input (text "\r\n...a\r\n.\r\n"),
        .call]).UnstuffsOnce := by
    decide +kernel
  exact htwice hrun.2.2.2.2.2.2

end Smerp.Pecho
