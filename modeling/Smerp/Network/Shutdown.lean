import Smerp.Network.Acceptor

/-!
# The stop of an `SSLacceptor`

`handleStop` closes the acceptor and signals the connections of the list once. A connection whose
handshake is in flight meanwhile is not in the list: when the handshake is done it is pushed and
started, and nobody signals it. `shutdown_reaches_all` says that the stop reaches every connection
otherwise.
-/

namespace Smerp.Network

open Lib

namespace Acceptor

/-- When `handleStop` has run, it has signalled all connections that are started and not closed. -/
def Reached (a : Acceptor) : Prop := a.stopped = true → ∀ conn ∈ a.running, conn ∈ a.signalled

/-- When `handleStop` has run, no connection is started. -/
def NoneAdmitted (a : Acceptor) (event : Event) : Prop :=
  a.stopped = true → ∀ conn ∈ (a.step event).running, conn ∈ a.running

/-- When `handleStop` has run, no handshake succeeds unless the list is full, and when its loop ends
no connection is between its test and its push. -/
def Settled (a : Acceptor) (event : Event) : Prop :=
  match event.2 with
  | .handleHandshake _ e => a.stopped = true → e = none → a.list.isFull event.1 = true
  | .pop => a.list.connList = [] → a.tested = []
  | _ => True

instance (a : Acceptor) : (event : Event) → Decidable (a.Settled event)
  | (_, .handleAccept _ _ _) => inferInstanceAs (Decidable True)
  | (_, .handleHandshake _ _) => inferInstanceAs (Decidable (_ → _ → _))
  | (_, .push _ _) => inferInstanceAs (Decidable True)
  | (_, .close _) => inferInstanceAs (Decidable True)
  | (_, .handleStop) => inferInstanceAs (Decidable True)
  | (_, .pop) => inferInstanceAs (Decidable (_ → _))

/-- The connections that are started are in the list until they are signalled, and nothing is left
to be pushed when `handleStop` has run. -/
structure Drained (a : Acceptor) : Prop where
  kind : a.kind = .ssl
  listed : ∀ conn ∈ a.running, conn ∈ a.list.connList ∨ conn ∈ a.signalled
  stopped : a.stopped = true → a.list.connList = [] ∧ a.tested = []

/-- A new acceptor has nothing to signal. -/
theorem drained_new (maxConnections : UInt32) : (new .ssl maxConnections).Drained where
  kind := rfl
  listed := fun _ hconn ↦ by cases hconn
  stopped := fun hstopped ↦ by cases hstopped

/-- The end of `handleAccept` has nothing to do with the stop. -/
theorem Drained.accept_next {a : Acceptor} (h : a.Drained) : a.acceptNext.Drained := by
  obtain ⟨hkind, hlist, -, -, htested, -, hrunning, hsignalled, -, hstopped⟩ := accept_next_same a
  refine ⟨hkind.trans h.kind, ?_, ?_⟩
  · rw [hlist, hrunning, hsignalled]
    exact h.listed
  · rw [hlist, htested, hstopped]
    exact h.stopped

/-- When a connection is to be pushed `handleStop` has not run. -/
theorem Drained.not_stopped {a : Acceptor} (h : a.Drained) {conn : ConnectionPtr}
    (hconn : conn ∈ a.tested) :
    a.stopped ≠ true := by
  intro hstopped
  rw [(h.stopped hstopped).2] at hconn
  cases hconn

/-- A settled step leaves nothing behind, and admits no connection when `handleStop` has run. -/
theorem Drained.step {a : Acceptor} (h : a.Drained) {event : Event} (hpossible : a.Possible event.2)
    (hsettled : a.Settled event) : a.NoneAdmitted event ∧ (a.step event).Drained := by
  obtain ⟨globalFull, action⟩ := event
  have hacts := act_acts a globalFull action
  show (a.stopped = true → ∀ conn ∈ (a.act globalFull action).running, conn ∈ a.running) ∧
    (a.act globalFull action).Drained
  generalize a.act globalFull action = a' at hacts ⊢
  have hssl : a.kind ≠ .tcp := by simp [h.kind]
  cases hacts with
  | acceptFailed value identified refused =>
      exact ⟨fun _ _ hconn ↦ hconn, h.kind, h.listed, h.stopped⟩
  | unidentified refused => exact ⟨fun _ _ hconn ↦ hconn, h.kind, h.listed, h.stopped⟩
  | refused hkind hfull => exact absurd hkind hssl
  | refusalFailed hkind hfull => exact absurd hkind hssl
  | tested refused hkind hroom => exact absurd hkind hssl
  | handshaking refused hkind =>
      refine ⟨?_, Drained.accept_next ⟨h.kind, h.listed, h.stopped⟩⟩
      intro _ conn hconn
      rwa [(accept_next_same _).2.2.2.2.2.2.1] at hconn
  | handshakeFailed conn e hfailed => exact ⟨fun _ _ hconn ↦ hconn, h.kind, h.listed, h.stopped⟩
  | handshakeTested conn hroom =>
      -- a handshake that succeeds behind the stop is not settled
      refine ⟨fun _ _ hconn ↦ hconn, h.kind, h.listed, ?_⟩
      intro hstopped
      exact absurd (hroom.symm.trans (hsettled hstopped rfl)) (by decide)
  | pushed conn hkind => exact absurd hkind hssl
  | pushedSSL conn hkind =>
      have hnot := h.not_stopped hpossible
      refine ⟨fun hstopped ↦ absurd hstopped hnot, h.kind, ?_, fun hstopped ↦ absurd hstopped hnot⟩
      intro other hother
      rcases List.mem_append.mp hother with hother | hother
      · exact (h.listed other hother).imp_left fun hlisted ↦ List.mem_append_left _ hlisted
      · exact .inl (List.mem_append_right _ hother)
  | unnamed conn =>
      have hnot := h.not_stopped hpossible
      refine ⟨fun hstopped ↦ absurd hstopped hnot, h.kind, ?_, fun hstopped ↦ absurd hstopped hnot⟩
      intro other hother
      exact (h.listed other hother).imp_left fun hlisted ↦ List.mem_append_left _ hlisted
  | close conn =>
      refine ⟨fun _ other hother ↦ (List.mem_filter.mp hother).1, h.kind, ?_, ?_⟩
      · intro other hother
        obtain ⟨hrunning, hother⟩ := List.mem_filter.mp hother
        exact (h.listed other hrunning).imp_left fun hlisted ↦ List.mem_filter.mpr ⟨hlisted, hother⟩
      · intro hstopped
        obtain ⟨hlist, htested⟩ := h.stopped hstopped
        refine ⟨?_, htested⟩
        show a.list.connList.filter _ = []
        rw [hlist, List.filter_nil]
  | handleStop => exact ⟨fun _ _ hconn ↦ hconn, h.kind, h.listed, h.stopped⟩
  | popLast hlist =>
      -- the loop of `handleStop` ends: nothing is to be pushed any more
      exact ⟨fun _ _ hconn ↦ hconn, h.kind, h.listed, fun _ ↦ ⟨hlist, hsettled hlist⟩⟩
  | popped conn rest hlist =>
      refine ⟨fun _ _ hconn ↦ hconn, h.kind, ?_, ?_⟩
      · intro other hother
        rcases h.listed other hother with hlisted | hsignalled
        · rw [hlist] at hlisted
          rcases List.mem_cons.mp hlisted with rfl | hrest
          · exact .inr (List.mem_append_right _ (List.mem_singleton_self _))
          · exact .inl hrest
        · exact .inr (List.mem_append_left _ hsignalled)
      · intro hstopped
        rw [(h.stopped hstopped).1] at hlist
        cases hlist

/-- When nothing is left behind, the stop has reached every connection. -/
theorem Drained.reached {a : Acceptor} (h : a.Drained) : a.Reached := by
  intro hstopped conn hconn
  rcases h.listed conn hconn with hlisted | hsignalled
  · rw [(h.stopped hstopped).1] at hlisted
    cases hlisted
  · exact hsignalled

end Acceptor

/-- **The stop reaches every connection, and none is admitted behind it, in every run in which all
handshakes are settled when it runs.** -/
theorem shutdown_reaches_all (maxConnections : UInt32) (events : List Acceptor.Event)
    (hrun : Runs.Each Acceptor.step (fun a event ↦ a.Possible event.2)
      (.new .ssl maxConnections) events)
    (hsettled : Runs.Each Acceptor.step Acceptor.Settled (.new .ssl maxConnections) events) :
    Runs.Always Acceptor.step Acceptor.Reached (.new .ssl maxConnections) events ∧
      Runs.Each Acceptor.step Acceptor.NoneAdmitted (.new .ssl maxConnections) events := by
  have hboth := hrun.and hsettled
  have hdrained : Runs.Always Acceptor.step Acceptor.Drained (.new .ssl maxConnections) events :=
    Runs.always_rule (fun _ _ h hallowed ↦ (Acceptor.Drained.step h hallowed.1 hallowed.2).2)
      (Acceptor.drained_new maxConnections) hboth
  refine ⟨hdrained.mono fun _ h ↦ h.reached, ?_⟩
  exact Runs.each_rule (fun _ _ h hallowed ↦ Acceptor.Drained.step h hallowed.1 hallowed.2)
    (Acceptor.drained_new maxConnections) hboth

/-- A client that is connected when the server is stopped. -/
theorem shutdown_reaches_all_one :
    Runs.Always Acceptor.step Acceptor.Reached (.new .ssl 0)
        [(false, .handleAccept none true true), (false, .handleHandshake ⟨0, 0⟩ none),
          (false, .push ⟨0, 0⟩ true), (false, .handleStop), (false, .pop), (false, .pop)] ∧
      Runs.Each Acceptor.step Acceptor.NoneAdmitted (.new .ssl 0)
        [(false, .handleAccept none true true), (false, .handleHandshake ⟨0, 0⟩ none),
          (false, .push ⟨0, 0⟩ true), (false, .handleStop), (false, .pop), (false, .pop)] :=
  shutdown_reaches_all 0 _ (by decide) (by decide)

/-- A client that is in the middle of its handshake when the server is stopped. -/
theorem not_shutdown_reaches_all :
    ¬ ∀ (maxConnections : UInt32) (events : List Acceptor.Event),
      Runs.Each Acceptor.step (fun a event ↦ a.Possible event.2) (.new .ssl maxConnections) events →
        Runs.Always Acceptor.step Acceptor.Reached (.new .ssl maxConnections) events ∧
          Runs.Each Acceptor.step Acceptor.NoneAdmitted (.new .ssl maxConnections) events := by
  intro h
  obtain ⟨hreached, -⟩ := h 0
    [(false, .handleAccept none true true), (false, .handleStop), (false, .pop),
      (false, .handleHandshake ⟨0, 0⟩ none), (false, .push ⟨0, 0⟩ true)] (by decide)
  exact absurd (hreached.2.2.2.2.2 rfl ⟨0, 0⟩ (by decide)) (by decide)

end Smerp.Network
