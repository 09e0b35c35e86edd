import Smerp.Network.Acceptor

/-!
# An acceptor keeps accepting

`handleAccept` starts the next `async_accept` at its end. It does not get there when the accept has
failed, or when a call on the socket of the new connection throws because the peer is gone.
`keeps_accepting_iff` says that nothing else makes an acceptor deaf before it is stopped.
-/

namespace Smerp.Network

open Lib

namespace Acceptor

/-- The connection object and its handler were not used before. -/
def Fresh (a : Acceptor) (conn : ConnectionPtr) : Prop :=
  ∀ old ∈ a.accepted, old.object ≠ conn.object ∧ old.handler ≠ conn.handler

/-- Unless it was stopped or `handleAccept` is running, the acceptor has one `async_accept` in
flight, on a fresh connection object with a handler of its own. -/
def Accepts (a : Acceptor) : Prop :=
  a.isOpen = true → (a.kind = .tcp → a.tested = []) →
    ∃ conn, a.accepting = [conn] ∧ a.newConnection = conn ∧ a.Fresh conn

/-- The accept is successful, and no call on the socket of the new connection throws. -/
def Undisturbed (a : Acceptor) (event : Event) : Prop :=
  a.isOpen = true → match event.2 with
    | .handleAccept e identified refused => e = none ∧ identified = true ∧
        (a.kind = .tcp → a.list.isFull event.1 = true → refused = true)
    | .push _ named => a.kind = .tcp → named = true
    | _ => True

/-- What holds between the steps of an acceptor that is not stopped. -/
structure Ready (a : Acceptor) : Prop where
  idle : (a.kind = .tcp → a.tested = []) → a.accepting = [a.newConnection] ∧ a.Fresh a.newConnection
  busy : a.kind = .tcp → a.tested = [] ∨ a.accepting = [] ∧ ∃ conn, a.tested = [conn]
  handshaking : a.kind = .tcp → a.handshaking = []
  made : a.newConnection.object < a.objects ∧ a.newConnection.handler < a.handlers
  accepted : ∀ old ∈ a.accepted, old.object < a.objects ∧ old.handler < a.handlers

/-- Nothing is in flight, and the next `async_accept` is started. -/
theorem ready_accept_next {a : Acceptor} (hopen : a.isOpen = true) (haccepting : a.accepting = [])
    (htested : a.kind = .tcp → a.tested = []) (hhandshaking : a.kind = .tcp → a.handshaking = [])
    (haccepted : ∀ old ∈ a.accepted, old.object < a.objects ∧ old.handler < a.handlers) :
    a.acceptNext.Ready := by
  unfold acceptNext
  rw [hopen, Bool.not_true, if_neg Bool.false_ne_true]
  refine ⟨fun _ ↦ ⟨?_, ?_⟩, fun hkind ↦ .inl (htested hkind), hhandshaking, ?_, ?_⟩
  · rw [haccepting]
    rfl
  · intro old hold
    obtain ⟨hobject, hhandler⟩ := haccepted old hold
    exact ⟨Nat.ne_of_lt hobject, Nat.ne_of_lt hhandler⟩
  · exact ⟨Nat.lt_succ_self _, Nat.lt_succ_self _⟩
  · intro old hold
    obtain ⟨hobject, hhandler⟩ := haccepted old hold
    exact ⟨Nat.lt_succ_of_lt hobject, Nat.lt_succ_of_lt hhandler⟩

/-- A new acceptor is ready. -/
theorem ready_new (kind : Kind) (maxConnections : UInt32) : (new kind maxConnections).Ready where
  idle := fun _ ↦ ⟨rfl, fun _ hold ↦ by cases hold⟩
  busy := fun _ ↦ .inl rfl
  handshaking := fun _ ↦ rfl
  made := ⟨Nat.zero_lt_one, Nat.zero_lt_one⟩
  accepted := fun _ hold ↦ by cases hold

/-- An acceptor that is ready accepts. -/
theorem Ready.accepts {a : Acceptor} (h : a.Ready) : a.Accepts := by
  intro _ hfree
  obtain ⟨haccepting, hfresh⟩ := h.idle hfree
  exact ⟨a.newConnection, haccepting, rfl, hfresh⟩

/-- When `handleAccept` runs the connection of the completed accept is the new one. -/
theorem Ready.taken {a : Acceptor} (h : a.Ready) (hfree : a.StrandFree) :
    a.taken.accepting = [] ∧
      ∀ old ∈ a.taken.accepted, old.object < a.objects ∧ old.handler < a.handlers := by
  obtain ⟨haccepting, -⟩ := h.idle hfree.2
  constructor
  · show a.accepting.tail = []
    rw [haccepting]
    rfl
  · intro old hold
    rcases List.mem_append.mp hold with hold | hnew
    · exact h.accepted old hold
    · exact List.mem_singleton.mp hnew ▸ h.made

/-- A connection that is to be pushed is the only one, and no accept is pending. -/
theorem Ready.pushing {a : Acceptor} (h : a.Ready) (hkind : a.kind = .tcp) {conn : ConnectionPtr}
    (hmem : conn ∈ a.tested) : a.accepting = [] ∧ a.tested = [conn] := by
  rcases h.busy hkind with hnone | ⟨haccepting, other, hother⟩
  · rw [hnone] at hmem
    cases hmem
  · obtain rfl : conn = other := by simpa [hother] using hmem
    exact ⟨haccepting, hother⟩

/-- A step without a failed accept and without an exception keeps an open acceptor ready. -/
theorem Ready.step {a : Acceptor} (hopen : a.isOpen = true) (h : a.Ready) {event : Event}
    (hpossible : a.Possible event.2) (hclean : a.Undisturbed event) :
    (a.step event).isOpen = true → (a.step event).Ready := by
  obtain ⟨globalFull, action⟩ := event
  have hclean := hclean hopen
  have hacts := act_acts a globalFull action
  show (a.act globalFull action).isOpen = true → (a.act globalFull action).Ready
  generalize a.act globalFull action = a' at hacts ⊢
  intro hstill
  cases hacts with
  | acceptFailed value identified refused => cases hclean.1
  | unidentified refused => cases hclean.2.1
  | refused hkind hfull =>
      obtain ⟨haccepting, haccepted⟩ := h.taken hpossible.2
      exact ready_accept_next hopen haccepting hpossible.2.2 h.handshaking haccepted
  | refusalFailed hkind hfull => exact absurd (hclean.2.2 hkind hfull) (by decide)
  | tested refused hkind hroom =>
      obtain ⟨haccepting, haccepted⟩ := h.taken hpossible.2
      have hone : a.tested ++ [a.newConnection] = [a.newConnection] := by
        rw [hpossible.2.2 hkind, List.nil_append]
      refine ⟨?_, fun _ ↦ .inr ⟨haccepting, a.newConnection, hone⟩,
        h.handshaking, h.made, haccepted⟩
      intro hfree
      exact absurd (hfree hkind) (by simp)
  | handshaking refused hkind =>
      -- the handshake runs on the strand of the connection, and the next accept is started at once
      obtain ⟨haccepting, haccepted⟩ := h.taken hpossible.2
      have hnot : a.kind ≠ .tcp := by simp [hkind]
      exact ready_accept_next hopen haccepting (fun htcp ↦ absurd htcp hnot)
        (fun htcp ↦ absurd htcp hnot) haccepted
  | handshakeFailed conn e hfailed =>
      refine ⟨h.idle, h.busy, ?_, h.made, h.accepted⟩
      intro hkind
      show a.handshaking.erase conn = []
      rw [h.handshaking hkind, List.erase_nil]
  | handshakeTested conn hroom =>
      have hmem : conn ∈ a.handshaking := hpossible
      have hnot : a.kind ≠ .tcp := by
        intro hkind
        rw [h.handshaking hkind] at hmem
        cases hmem
      exact ⟨fun _ ↦ h.idle fun htcp ↦ absurd htcp hnot, fun htcp ↦ absurd htcp hnot,
        fun htcp ↦ absurd htcp hnot, h.made, h.accepted⟩
  | pushed conn hkind =>
      obtain ⟨haccepting, hone⟩ := h.pushing hkind hpossible
      refine ready_accept_next hopen haccepting ?_ h.handshaking h.accepted
      intro _
      simp [hone]
  | pushedSSL conn hkind =>
      have hnot : a.kind ≠ .tcp := by simp [hkind]
      exact ⟨fun _ ↦ h.idle fun htcp ↦ absurd htcp hnot, fun htcp ↦ absurd htcp hnot,
        h.handshaking, h.made, h.accepted⟩
  | unnamed conn =>
      have hnot : a.kind ≠ .tcp := fun hkind ↦ Bool.false_ne_true (hclean hkind)
      exact ⟨fun _ ↦ h.idle fun htcp ↦ absurd htcp hnot, fun htcp ↦ absurd htcp hnot,
        h.handshaking, h.made, h.accepted⟩
  | close conn => exact ⟨h.idle, h.busy, h.handshaking, h.made, h.accepted⟩
  | handleStop => cases hstill
  | popLast hlist => exact ⟨h.idle, h.busy, h.handshaking, h.made, h.accepted⟩
  | popped conn rest hlist => exact ⟨h.idle, h.busy, h.handshaking, h.made, h.accepted⟩

/-- A failed accept or an exception makes an open acceptor deaf. -/
theorem Ready.deaf {a : Acceptor} (h : a.Ready) {event : Event} (hpossible : a.Possible event.2)
    (hdisturbed : ¬ a.Undisturbed event) : ¬ (a.step event).Accepts := by
  obtain ⟨globalFull, action⟩ := event
  unfold Undisturbed at hdisturbed
  rw [Classical.not_imp] at hdisturbed
  obtain ⟨hopen, hdisturbed⟩ := hdisturbed
  have hacts := act_acts a globalFull action
  show ¬ (a.act globalFull action).Accepts
  generalize a.act globalFull action = a' at hacts ⊢
  -- what is left when `handleAccept` has ended early
  have hearly (a' : Acceptor) (hopen' : a'.isOpen = true)
      (htested : a'.kind = .tcp → a'.tested = []) (hnone : a'.accepting = []) :
      ¬ a'.Accepts := by
    intro haccepts
    obtain ⟨conn, hone, -⟩ := haccepts hopen' htested
    rw [hnone] at hone
    cases hone
  have htail (hfree : a.StrandFree) : a.accepting.tail = [] := by
    rw [(h.idle hfree.2).1]
    rfl
  cases hacts with
  | acceptFailed value identified refused =>
      exact hearly _ hopen hpossible.2.2 (htail hpossible.2)
  | unidentified refused => exact hearly _ hopen hpossible.2.2 (htail hpossible.2)
  | refused hkind hfull => exact absurd ⟨rfl, rfl, fun _ _ ↦ rfl⟩ hdisturbed
  | refusalFailed hkind hfull => exact hearly _ hopen hpossible.2.2 (htail hpossible.2)
  | tested refused hkind hroom =>
      refine absurd ⟨rfl, rfl, ?_⟩ hdisturbed
      intro _ hfull
      exact absurd (hroom.symm.trans hfull) (by decide)
  | handshaking refused hkind =>
      refine absurd ⟨rfl, rfl, ?_⟩ hdisturbed
      intro htcp
      exact absurd (hkind.symm.trans htcp) (by decide)
  | handshakeFailed conn e hfailed => exact absurd trivial hdisturbed
  | handshakeTested conn hroom => exact absurd trivial hdisturbed
  | pushed conn hkind => exact absurd (fun _ ↦ rfl) hdisturbed
  | pushedSSL conn hkind => exact absurd (fun _ ↦ rfl) hdisturbed
  | unnamed conn =>
      obtain ⟨hkind, -⟩ : a.kind = .tcp ∧ ¬ false = true := by
        simpa only [Classical.not_imp] using hdisturbed
      obtain ⟨haccepting, hone⟩ := h.pushing hkind hpossible
      exact hearly _ hopen (fun _ ↦ by simp [hone]) haccepting
  | close conn => exact absurd trivial hdisturbed
  | handleStop => exact absurd trivial hdisturbed
  | popLast hlist => exact absurd trivial hdisturbed
  | popped conn rest hlist => exact absurd trivial hdisturbed

/-- An acceptor that is closed stays closed. -/
theorem step_closed {a : Acceptor} (hclosed : a.isOpen = false) (event : Event) :
    (a.step event).isOpen = false := by
  have hacts := act_acts a event.1 event.2
  show (a.act event.1 event.2).isOpen = false
  generalize event.2 = action at hacts ⊢
  generalize a.act event.1 action = a' at hacts ⊢
  cases hacts with
  | refused hkind hfull => exact (accept_next_same _).2.2.1.trans hclosed
  | handshaking refused hkind => exact (accept_next_same _).2.2.1.trans hclosed
  | pushed conn hkind => exact (accept_next_same _).2.2.1.trans hclosed
  | handleStop => rfl
  | _ => exact hclosed

end Acceptor

variable (kind : Kind) (maxConnections : UInt32) (events : List Acceptor.Event)

/-- **An acceptor keeps accepting until it is stopped if and only if no accept fails and no call on
the socket of a new connection throws before.** -/
theorem keeps_accepting_iff
    (hrun : Runs.Each Acceptor.step (fun a event ↦ a.Possible event.2) (.new kind maxConnections)
      events) :
    Runs.Always Acceptor.step Acceptor.Accepts (.new kind maxConnections) events ↔
      Runs.Each Acceptor.step Acceptor.Undisturbed (.new kind maxConnections) events := by
  have hstep (a : Acceptor) (event : Acceptor.Event) (h : a.isOpen = true → a.Ready)
      (hpossible : a.Possible event.2) (hclean : a.Undisturbed event) :
      (a.step event).isOpen = true → (a.step event).Ready := by
    cases hopen : a.isOpen with
    | true => exact (h hopen).step hopen hpossible hclean
    | false =>
        intro hstill
        rw [Acceptor.step_closed hopen] at hstill
        cases hstill
  refine Runs.always_iff_rule hstep ?_ ?_ (fun _ ↦ Acceptor.ready_new kind maxConnections) hrun
  · intro a h hopen
    exact (h hopen).accepts hopen
  · intro a event h hpossible hdisturbed
    have hopen : a.isOpen = true := by
      unfold Acceptor.Undisturbed at hdisturbed
      rw [Classical.not_imp] at hdisturbed
      exact hdisturbed.1
    exact (h hopen).deaf hpossible hdisturbed

/-- Two clients come, one of them when the server is full, and the server is stopped. -/
theorem keeps_accepting_iff_two :
    Runs.Always Acceptor.step Acceptor.Accepts (.new .tcp 1)
        [(false, .handleAccept none true true), (false, .push ⟨0, 0⟩ true),
          (true, .handleAccept none true true), (false, .handleStop)] ↔
      Runs.Each Acceptor.step Acceptor.Undisturbed (.new .tcp 1)
        [(false, .handleAccept none true true), (false, .push ⟨0, 0⟩ true),
          (true, .handleAccept none true true), (false, .handleStop)] :=
  keeps_accepting_iff .tcp 1 _ ⟨by decide, by decide, by decide, by decide, trivial⟩

/-- The process has no file descriptor left for the connection: `EMFILE`. -/
theorem not_keeps_accepting :
    ¬ ∀ (kind : Kind) (maxConnections : UInt32) (events : List Acceptor.Event),
      Runs.Each Acceptor.step (fun a event ↦ a.Possible event.2) (.new kind maxConnections) events →
        Runs.Always Acceptor.step Acceptor.Accepts (.new kind maxConnections) events := by
  intro h
  have halways := h .tcp 0 [(false, .handleAccept (some 24) true true)] ⟨by decide, trivial⟩
  obtain ⟨conn, hone, -⟩ := halways.2 rfl fun _ ↦ rfl
  cases hone

end Smerp.Network
