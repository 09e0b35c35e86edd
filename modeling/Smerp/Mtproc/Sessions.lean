import Smerp.Mtproc.Passes

/-!
# Sessions of the method table handler

Handler and dispatcher stay in step in every session as long as no line of a method is complete: the
dispatcher is never called, and gets no input. The first complete line of a method ends the session
with `IllegalState`, whatever the method is. `never_illegal_iff` states both.
-/

namespace Smerp.Mtproc

open Lib Protocol Network

variable {δ γ : Type} {W : World δ γ}

namespace Conn

variable {c : Conn δ γ}

/-- The loop of `nextOperation`: by induction on its bound, which the passes that go round again
leave. -/
theorem loop_spec {fuel : Nat} (h : c.Ready) (hfuel : c.work + 1 < fuel) :
    (c.MethodLine ∧ forEver (pass W) fuel c = some (.error .illegalState)) ∨
      (¬ c.MethodLine ∧ ∃ next op, forEver (pass W) fuel c = some (.ok (next, op)) ∧
        next.After op ∧ next.input.size = c.input.size) := by
  induction fuel generalizing c with
  | zero => omega
  | succ fuel ih =>
      unfold forEver
      cases pass_spec (W := W) h with
      | returns next op hpass hafter hsize hline =>
          rw [hpass]
          exact .inr ⟨hline, next, op, rfl, hafter, hsize⟩
      | again next hpass hready hsize hless hline =>
          rw [hpass, hline, ← hsize]
          exact ih hready (by omega)
      | method next hpass hthrow hline =>
          -- two passes are left, since this one had work to do
          obtain ⟨fuel, rfl⟩ : ∃ less, fuel = less + 1 := ⟨fuel - 1, by omega⟩
          refine .inl ⟨hline, ?_⟩
          rw [hpass]
          simp only [forEver, hthrow]

/-- The bound is large enough. -/
theorem Ready.work_lt (h : c.Ready) : c.work + 1 < c.passBound := by
  unfold work passBound
  cases hstate : c.state with
  | enterCommand =>
      have hbounded := h.bounded (by simp [hstate])
      have := hbounded.eom_le
      have := hbounded.pos_le
      simp only
      omega
  | emptyLine =>
      have hbounded := h.bounded (by simp [hstate])
      have := hbounded.eom_le
      have := hbounded.pos_le
      simp only
      omega
  | _ => simp only; omega

/-- A call throws exactly if it reads a complete line of a method. -/
theorem Ready.next_operation (h : c.Ready) :
    (c.MethodLine ∧ c.nextOperation W = .error .illegalState) ∨
      (¬ c.MethodLine ∧ ∃ next op, c.nextOperation W = .ok (next, op) ∧
        next.After op ∧ next.input.size = c.input.size) := by
  unfold nextOperation
  rcases loop_spec (W := W) h h.work_lt with ⟨hline, hloop⟩ |
    ⟨hline, next, op, hloop, hafter, hsize⟩
  · rw [hloop]
    exact .inl ⟨hline, rfl⟩
  · rw [hloop]
    exact .inr ⟨hline, next, op, rfl, hafter, hsize⟩

/-- Input that arrives while no method runs. -/
theorem Calm.network_input (h : c.Calm) {data : List Byte} (hlen : data.length ≤ c.input.size) :
    ∃ next, c.networkInput W data = .ok next ∧ next.Ready := by
  have hstate := h.state
  have hprocessing : c.state ≠ .processing := fun hnow ↦ by rw [hnow] at hstate; cases hstate
  have hdiscard : c.state ≠ .discardInput := fun hnow ↦ by rw [hnow] at hstate; cases hstate
  have hsize : (Block.store c.input.bytes 0 data).length = c.input.size :=
    Block.store_length (by simpa [MemBlock.size] using hlen)
  let received : InputBlock := { c.input with bytes := Block.store c.input.bytes 0 data }
  refine ⟨{ c with input := received.setPos data.length, itr := 0, eoM := data.length }, ?_,
    ⟨⟨h.state, h.resting, h.waiting⟩, fun _ ↦ ⟨Nat.zero_le _, Nat.le_refl _, ?_⟩⟩⟩
  · rw [networkInput, if_neg hprocessing, if_neg hdiscard]
    rfl
  · show data.length ≤ (Block.store c.input.bytes 0 data).length
    rw [hsize]
    exact hlen

end Conn

namespace Session

/-- Handler and dispatcher are in step, and the handler may be called unless it waits for input. -/
structure InStep (s : Session δ γ) : Prop where
  failed : s.failed = none
  calm : s.conn.Calm
  ready : s.pending = none → s.conn.Ready
  requested : ∀ size ∈ s.pending, size = s.conn.input.size

/-- A new connection is in step. -/
theorem start_in_step {line : Buffer 256} {mt : List (Method δ γ)} {data : δ}
    {d : CommandDispatcher δ γ} (hnew : CommandDispatcher.new line mt data = some d)
    (inputMemory outputMemory : List Byte)
    (buffer : Buffer 128) : (start (.new d inputMemory outputMemory buffer)).InStep := by
  have hwaiting := CommandDispatcher.waiting_new hnew
  have hcalm : (Conn.new d inputMemory outputMemory buffer).Calm :=
    ⟨rfl, .inl hwaiting, fun _ _ ↦ hwaiting⟩
  refine ⟨rfl, hcalm, fun _ ↦ ⟨hcalm, fun _ ↦ ⟨Nat.le_refl _, Nat.le_refl _, Nat.zero_le _⟩⟩, ?_⟩
  intro size hsize
  cases hsize

/-- A handler that may be called is ready. -/
theorem InStep.callable {s : Session δ γ} (h : s.InStep) (hcall : s.Possible .call) :
    s.conn.Ready := by
  rcases hcall with hpending | hterminate
  · exact h.ready hpending
  · exact ⟨h.calm, fun hne ↦ absurd hterminate hne⟩

/-- A call on a complete line of a method throws. -/
theorem InStep.throws {s : Session δ γ} (h : s.InStep) (hcall : s.Possible .call)
    (hline : s.conn.MethodLine) : (act W s .call).failed = some .illegalState := by
  rcases (h.callable hcall).next_operation (W := W) with ⟨-, hthrow⟩ | ⟨hnone, -⟩
  · simp only [act, h.failed, hthrow]
  · exact absurd hline hnone

/-- A call on anything else keeps handler and dispatcher in step. -/
theorem InStep.call {s : Session δ γ} (h : s.InStep) (hcall : s.Possible .call)
    (hline : ¬ s.conn.MethodLine) : (act W s .call).InStep := by
  rcases (h.callable hcall).next_operation (W := W) with
    ⟨hmethod, -⟩ | ⟨-, next, op, hnext, hafter, hsize⟩
  · exact absurd hmethod hline
  · have hrequested : ∀ size ∈ s.pending, size = next.input.size := by
      intro size hpending
      exact (h.requested size hpending).trans hsize.symm
    cases op with
    | read offset size timeout =>
        have hact : act W s .call = { s with conn := next, pending := some size } := by
          simp only [act, h.failed, hnext]
        rw [hact]
        refine ⟨h.failed, hafter.1, nofun, ?_⟩
        intro other hother
        cases hother
        exact hafter.2
    | write data timeout =>
        have hact : act W s .call = { s with conn := next } := by simp only [act, h.failed, hnext]
        rw [hact]
        exact ⟨h.failed, hafter.toCalm, fun _ ↦ hafter, hrequested⟩
    | close =>
        have hact : act W s .call = { s with conn := next } := by simp only [act, h.failed, hnext]
        rw [hact]
        exact ⟨h.failed, hafter.toCalm, fun _ ↦ hafter, hrequested⟩

/-- Every action but a call on a complete line of a method keeps handler and dispatcher in step. -/
theorem InStep.act {s : Session δ γ} {action : Action} (h : s.InStep)
    (hpossible : s.Possible action)
    (hline : action = .call → ¬ s.conn.MethodLine) : (act W s action).InStep := by
  cases action with
  | call => exact h.call hpossible (hline rfl)
  | input data =>
      obtain ⟨size, hpending, hlen⟩ := hpossible
      rw [h.requested size hpending] at hlen
      obtain ⟨next, hnext, hready⟩ := h.calm.network_input (W := W) hlen
      have hact : Session.act W s (.input data) = { s with conn := next, pending := none } := by
        simp only [Session.act, h.failed, hnext]
      rw [hact]
      exact ⟨h.failed, hready.toCalm, fun _ ↦ hready, fun other hother ↦ by cases hother⟩
  | terminate =>
      have hact : Session.act W s .terminate = { s with conn := s.conn.signalTerminate } := by
        simp only [Session.act, h.failed]
      have hcalm : s.conn.signalTerminate.Calm :=
        ⟨rfl, h.calm.resting, fun _ hne ↦ absurd rfl hne⟩
      rw [hact]
      exact ⟨h.failed, hcalm, fun _ ↦ ⟨hcalm, fun hne ↦ absurd rfl hne⟩, h.requested⟩

end Session

/-- `IllegalState` is never thrown exactly if `nextOperation` is never called with the complete line
of a method still to be read. -/
theorem never_illegal_iff (W : World δ γ) {line : Buffer 256} {data : δ} {d : CommandDispatcher δ γ}
    (hnew : CommandDispatcher.new line W.mt data = some d) (inputMemory outputMemory : List Byte)
    (buffer : Buffer 128) {actions : List Action}
    (hrun : Runs.Each (Session.act W) Session.Possible
      (.start (.new d inputMemory outputMemory buffer))
      actions) :
    Runs.Always (Session.act W) (fun s ↦ s.failed ≠ some .illegalState)
        (.start (.new d inputMemory outputMemory buffer)) actions ↔
      Runs.Each (Session.act W) (fun s action ↦ action = .call → ¬ s.conn.MethodLine)
        (.start (.new d inputMemory outputMemory buffer)) actions := by
  have hstep (s : Session δ γ) (action : Action) (h : s.InStep) (hpossible : s.Possible action)
      (hline : action = .call → ¬ s.conn.MethodLine) : (Session.act W s action).InStep :=
    h.act hpossible hline
  -- a call on a complete line leads from a session in step to the exception
  refine Runs.always_iff_rule hstep ?_ ?_ (Session.start_in_step hnew _ _ _) hrun
  · intro s h
    rw [h.failed]
    exact nofun
  · intro s action h hpossible hclean hgood
    rw [Classical.not_imp, not_not] at hclean
    obtain ⟨rfl, hline⟩ := hclean
    exact hgood (h.throws hpossible hline)

/-- The table with the method `echo`, and a generator that is never created. -/
def echoWorld : World Unit Unit where
  mt := echoTable
  generator := ⟨fun _ ↦ .init, fun _ ↦ 0, fun iterator _ ↦ iterator, fun iterator ↦ iterator⟩
  behind := []

/-- A handler for this table, with an input block of eight bytes. -/
def echoHandler : Conn Unit Unit :=
  .new echoDispatcher (List.replicate 8 0) [] (.cleared Buffer.line_size)

/-- A session in which the method is called. -/
theorem never_illegal_iff_echo :
    Runs.Always (Session.act echoWorld) (fun s ↦ s.failed ≠ some .illegalState) (.start echoHandler)
        [.call, .call, .input (text "echo a\r\n"), .call] ↔
      Runs.Each (Session.act echoWorld) (fun s action ↦ action = .call → ¬ s.conn.MethodLine)
        (.start echoHandler) [.call, .call, .input (text "echo a\r\n"), .call] :=
  never_illegal_iff echoWorld new_echo _ _ _ (by decide +kernel)

/-- The method `echo` cannot be called. -/
theorem not_never_illegal : ¬ ∀ (W : World Unit Unit) (line : Buffer 256)
    (d : CommandDispatcher Unit Unit), CommandDispatcher.new line W.mt () = some d →
    ∀ (inputMemory outputMemory : List Byte) (buffer : Buffer 128) (actions : List Action),
      Runs.Each (Session.act W) Session.Possible (.start (.new d inputMemory outputMemory buffer))
        actions →
      Runs.Always (Session.act W) (fun s ↦ s.failed ≠ some .illegalState)
        (.start (.new d inputMemory outputMemory buffer)) actions := by
  intro h
  have hrun := h echoWorld _ echoDispatcher new_echo (List.replicate 8 0) [] echoHandler.buffer
    [.call, .call, .input (text "echo a\r\n"), .call] (by decide +kernel)
  have hfailed : (Runs.last (Session.act echoWorld) (.start echoHandler)
      [.call, .call, .input (text "echo a\r\n"), .call]).failed = some .illegalState := by
    decide +kernel
  exact hrun.2.2.2.2 hfailed

end Smerp.Mtproc
