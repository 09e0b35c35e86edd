import Mathlib.Data.List.Perm.Basic
import Smerp.SmerpHandler.Connection

/-!
# Timeouts

The timer of a connection is armed for one operation after the other. Cancelling it does not recall
the handler of a wait that has run out, and `handleTimeout` does not ask which operation the wait
was for. `Guards` names the operations of a connection, and the operation of every wait:
`timeouts_guard_iff` says that a timeout only hits the operation that it guards exactly if no
operation completes while the handler of its wait is queued.
-/

namespace Smerp.Network

open Lib

/-- The `READ`s and `WRITE`s in flight, by their numbers, the one for which the pending wait was
armed, the ones whose waits have run out but whose handlers have not run yet, and the number of
operations so far. -/
structure Guards where
  reads : List Nat
  writes : List Nat
  waiting : Option Nat
  expired : List Nat
  count : Nat
  deriving DecidableEq, Repr

namespace Guards

/-- No operation. -/
def new : Guards := ⟨[], [], none, [], 0⟩

/-- The operations in flight. -/
def inFlight (g : Guards) : List Nat := g.reads ++ g.writes

/-- The operation is in flight. -/
def Outstanding (g : Guards) (number : Nat) : Prop := number ∈ g.inFlight

instance (g : Guards) (number : Nat) : Decidable (g.Outstanding number) :=
  inferInstanceAs (Decidable (_ ∈ _))

/-- The timer is cancelled. -/
def cancel (g : Guards) : Guards := { g with waiting := none }

/-- The timer is armed for the operation that comes next, if this has a timeout. -/
def arm (g : Guards) (timeout : Nat) : Guards :=
  if timeout > 0 then { g with waiting := some g.count } else g

/-- An operation is started. -/
def perform (g : Guards) : Operation → Guards
  | .read _ size timeout =>
      if size = 0 then g
      else { g.arm timeout with reads := g.reads ++ [g.count], count := g.count + 1 }
  | .write data timeout =>
      if data.length = 0 then g
      else { g.arm timeout with writes := g.writes ++ [g.count], count := g.count + 1 }
  | .close => g.cancel

/-- The latest operation is started. -/
def performLast (g : Guards) (operations : List Operation) : Guards :=
  operations.getLast?.elim g g.perform

/-- The numbers belong to what the connection has in flight. -/
structure Label {χ : Type} (g : Guards) (b : ConnectionBase χ) : Prop where
  reads : g.reads.length = b.reads.length
  writes : g.writes.length = b.writes.length
  waiting : g.waiting.isSome = b.waiting
  expired : g.expired.length = b.expired

end Guards

/-- A connection with its guards. -/
structure Guarded (χ : Type) where
  base : ConnectionBase χ
  guards : Guards

namespace Guarded

variable {χ μ : Type} (H : ConnectionHandler χ μ)

/-- An accepted connection. -/
def start (handler : χ) (memory : μ) : Guarded χ :=
  let base := ConnectionBase.start H handler memory
  ⟨base, Guards.new.performLast base.operations⟩

/-- The connection after an action. With a `handleTimeout` goes the place of its wait among those
that have run out. -/
def act (s : Guarded χ) : ConnectionAction μ × Nat → Guarded χ
  | (action, place) =>
      let base := s.base.act H action
      let g := s.guards
      if s.base.aborted then s
      else match action with
        | .handleRead index _ _ =>
            ⟨base, { g.cancel with reads := g.reads.eraseIdx index }.performLast
              base.operations⟩
        | .handleWrite index _ _ =>
            ⟨base, { g.cancel with writes := g.writes.eraseIdx index }.performLast
              base.operations⟩
        | .expire => ⟨base, { g.cancel with expired := g.expired ++ g.waiting.toList }⟩
        | .handleTimeout _ =>
            ⟨base, { g with expired := g.expired.eraseIdx place }.performLast base.operations⟩
        | .handleTimeoutAborted => ⟨base, g⟩
        | .signal => ⟨base, g⟩
        | .handleSignal _ => ⟨base, g.performLast base.operations⟩

/-- The actions that can happen. The waits that have run out are handled in any order. -/
def Possible (s : Guarded χ) : ConnectionAction μ × Nat → Prop
  | (action, place) => s.base.Possible action ∧
      match action with
      | .handleTimeout _ => place < s.guards.expired.length
      | _ => True

/-- `timeoutOccured` is called only while the operation is in flight for which the timer was
armed. -/
def Right (s : Guarded χ) : ConnectionAction μ × Nat → Prop
  | (.handleTimeout _, place) => s.base.aborted = false →
      ∃ number ∈ s.guards.expired[place]?, s.guards.Outstanding number
  | _ => True

/-- No operation completes while the handler of its wait is queued. -/
def InTime (s : Guarded χ) : ConnectionAction μ × Nat → Prop
  | (.handleRead index _ _, _) => s.base.aborted = false →
      ∀ number ∈ s.guards.reads[index]?, number ∉ s.guards.expired
  | (.handleWrite index _ _, _) => s.base.aborted = false →
      ∀ number ∈ s.guards.writes[index]?, number ∉ s.guards.expired
  | _ => True

/-- The operation of every wait whose handler is queued is in flight. -/
def AllGuarded (s : Guarded χ) : Prop := ∀ number ∈ s.guards.expired, s.guards.Outstanding number

end Guarded

/-! ## The guards follow the connection -/

namespace Guards

variable {χ μ : Type} {H : ConnectionHandler χ μ} {g : Guards} {b : ConnectionBase χ}

/-- The timer is cancelled. -/
theorem Label.cancel (h : g.Label b) : g.cancel.Label (b.setTimeout 0) :=
  ⟨h.reads, h.writes, rfl, h.expired⟩

/-- The timer is armed. -/
theorem Label.arm (h : g.Label b) (timeout : Nat) :
    (g.arm timeout).Label (if timeout > 0 then b.setTimeout timeout else b) := by
  unfold Guards.arm
  split_ifs with hset
  · rw [ConnectionBase.setTimeout, if_neg (Nat.ne_of_gt hset)]
    exact ⟨h.reads, h.writes, rfl, h.expired⟩
  · exact h

/-- An operation is started. -/
theorem Label.perform (h : g.Label b) (op : Operation) : (g.perform op).Label (b.perform op) := by
  cases op with
  | read offset size timeout =>
      have harmed := h.arm timeout
      have hreads : (g.arm timeout).reads = g.reads := by
        rw [Guards.arm]
        split_ifs <;> rfl
      rw [Guards.perform, ConnectionBase.perform]
      by_cases hsize : size = 0
      · rw [if_pos hsize, if_pos hsize]
        exact ⟨h.reads, h.writes, h.waiting, h.expired⟩
      · rw [if_neg hsize, if_neg hsize, ← hreads]
        exact ⟨by simp [harmed.reads], harmed.writes, harmed.waiting, harmed.expired⟩
  | write data timeout =>
      have harmed := h.arm timeout
      have hwrites : (g.arm timeout).writes = g.writes := by
        rw [Guards.arm]
        split_ifs <;> rfl
      rw [Guards.perform, ConnectionBase.perform]
      by_cases hsize : data.length = 0
      · rw [if_pos hsize, if_pos hsize]
        exact ⟨h.reads, h.writes, h.waiting, h.expired⟩
      · rw [if_neg hsize, if_neg hsize, ← hwrites]
        exact ⟨harmed.reads, by simp [harmed.writes], harmed.waiting, harmed.expired⟩
  | close => exact ⟨h.reads, h.writes, rfl, h.expired⟩

/-- Starting an operation leaves the list of operations. -/
theorem perform_operations (b : ConnectionBase χ) (op : Operation) :
    (b.perform op).operations = b.operations := by
  have htimer (timeout : Nat) :
      (if timeout > 0 then b.setTimeout timeout else b).operations = b.operations := by
    split_ifs
    · exact (ConnectionBase.set_timeout_same b timeout).operations
    · rfl
  cases op with
  | read offset size timeout =>
      rw [ConnectionBase.perform]
      by_cases hsize : size = 0
      · rw [if_pos hsize]
      · rw [if_neg hsize]
        exact htimer timeout
  | write data timeout =>
      rw [ConnectionBase.perform]
      by_cases hsize : data.length = 0
      · rw [if_pos hsize]
      · rw [if_neg hsize]
        exact htimer timeout
  | close => exact (ConnectionBase.set_timeout_same b 0).operations

/-- `nextOperation` starts one operation. -/
theorem Label.next_operation (h : g.Label b) (H : ConnectionHandler χ μ) (memory : μ) :
    ∃ op, g.performLast (b.nextOperation H memory).operations = g.perform op ∧
      (g.perform op).Label (b.nextOperation H memory) := by
  refine ⟨(H.nextOperation b.handler memory).2, ?_, ?_⟩
  · rw [performLast, ConnectionBase.nextOperation, perform_operations, List.getLast?_concat]
    rfl
  · have hfront : g.Label { b with
        handler := (H.nextOperation b.handler memory).1
        operations := b.operations ++ [(H.nextOperation b.handler memory).2] } :=
      ⟨h.reads, h.writes, h.waiting, h.expired⟩
    exact hfront.perform _

/-! ## The guarded operations -/

/-- The operations in flight have different numbers, and the pending wait and the queued ones belong
to operations in flight. -/
structure Sound (g : Guards) : Prop where
  nodup : g.inFlight.Nodup
  lt : ∀ number ∈ g.inFlight, number < g.count
  waiting : ∀ number ∈ g.waiting, g.Outstanding number
  guarded : ∀ number ∈ g.expired, g.Outstanding number

/-- An operation that is started is in flight, with all others. -/
theorem perform_cases (g : Guards) (op : Operation) :
    ((g.perform op).inFlight = g.inFlight ∧ ((g.perform op).waiting = g.waiting ∨
        (g.perform op).waiting = none) ∧ (g.perform op).count = g.count ∨
      (g.perform op).inFlight.Perm (g.count :: g.inFlight) ∧
        ((g.perform op).waiting = g.waiting ∨ (g.perform op).waiting = some g.count) ∧
        (g.perform op).count = g.count + 1) ∧
      (g.perform op).expired = g.expired := by
  have harm (timeout : Nat) : (g.arm timeout).expired = g.expired ∧
      (g.arm timeout).reads = g.reads ∧ (g.arm timeout).writes = g.writes ∧
      ((g.arm timeout).waiting = g.waiting ∨ (g.arm timeout).waiting = some g.count) := by
    unfold arm
    split_ifs
    · exact ⟨rfl, rfl, rfl, .inr rfl⟩
    · exact ⟨rfl, rfl, rfl, .inl rfl⟩
  cases op with
  | read offset size timeout =>
      obtain ⟨hexpired, hreads, hwrites, hwaiting⟩ := harm timeout
      rw [perform]
      by_cases hsize : size = 0
      · rw [if_pos hsize]
        exact ⟨.inl ⟨rfl, .inl rfl, rfl⟩, rfl⟩
      · rw [if_neg hsize]
        refine ⟨.inr ⟨?_, hwaiting, rfl⟩, hexpired⟩
        rw [inFlight, inFlight, hwrites, List.append_assoc, List.singleton_append]
        exact List.perm_middle
  | write data timeout =>
      obtain ⟨hexpired, hreads, hwrites, hwaiting⟩ := harm timeout
      rw [perform]
      by_cases hsize : data.length = 0
      · rw [if_pos hsize]
        exact ⟨.inl ⟨rfl, .inl rfl, rfl⟩, rfl⟩
      · rw [if_neg hsize]
        refine ⟨.inr ⟨?_, hwaiting, rfl⟩, hexpired⟩
        rw [inFlight, inFlight, hreads, ← List.append_assoc]
        exact List.perm_append_singleton _ _
  | close => exact ⟨.inl ⟨rfl, .inr rfl, rfl⟩, rfl⟩

/-- Starting an operation keeps the guards sound. -/
theorem Sound.perform {g : Guards} (h : g.Sound) (op : Operation) : (g.perform op).Sound := by
  obtain ⟨hcases, hexpired⟩ := g.perform_cases op
  rcases hcases with ⟨hsame, hwaiting, hcount⟩ | ⟨hperm, hwaiting, hcount⟩
  · refine ⟨hsame ▸ h.nodup, hsame ▸ hcount ▸ h.lt, ?_, ?_⟩
    · intro number hnumber
      rw [Outstanding, hsame]
      rcases hwaiting with hkept | hnone
      · exact h.waiting number (hkept ▸ hnumber)
      · rw [hnone] at hnumber
        cases hnumber
    · intro number hnumber
      rw [Outstanding, hsame]
      exact h.guarded number (hexpired ▸ hnumber)
  · have hfresh : g.count ∉ g.inFlight := fun hmem ↦ absurd (h.lt _ hmem) (Nat.lt_irrefl _)
    refine ⟨hperm.nodup_iff.mpr (List.nodup_cons.mpr ⟨hfresh, h.nodup⟩), ?_, ?_, ?_⟩
    · intro number hnumber
      rw [hcount]
      rcases List.mem_cons.mp (hperm.mem_iff.mp hnumber) with rfl | hold
      · exact Nat.lt_succ_self _
      · exact Nat.lt_succ_of_lt (h.lt number hold)
    · intro number hnumber
      rw [Outstanding, hperm.mem_iff]
      rcases hwaiting with hkept | hnew
      · exact List.mem_cons_of_mem _ (h.waiting number (hkept ▸ hnumber))
      · rw [hnew, Option.mem_some_iff] at hnumber
        exact hnumber ▸ List.mem_cons_self
    · intro number hnumber
      rw [Outstanding, hperm.mem_iff]
      exact List.mem_cons_of_mem _ (h.guarded number (hexpired ▸ hnumber))

/-- An operation that is started makes no other one outstanding. -/
theorem outstanding_perform {g : Guards} {op : Operation} {number : Nat} (hlt : number < g.count)
    (h : (g.perform op).Outstanding number) : g.Outstanding number := by
  obtain ⟨⟨hsame, -, -⟩ | ⟨hperm, -, -⟩, -⟩ := g.perform_cases op
  · rwa [Outstanding, hsame] at h
  · rcases List.mem_cons.mp (hperm.mem_iff.mp h) with rfl | hold
    · exact absurd hlt (Nat.lt_irrefl _)
    · exact hold

/-- An operation completes, and the timer is cancelled. -/
structure Completes (g : Guards) (number : Nat) (g' : Guards) : Prop where
  inFlight : g.inFlight.Perm (number :: g'.inFlight)
  waiting : g'.waiting = none
  expired : g'.expired = g.expired
  count : g'.count = g.count

/-- A `READ` completes. -/
theorem completes_read {g : Guards} {index number : Nat} (h : g.reads[index]? = some number) :
    g.Completes number { g.cancel with reads := g.reads.eraseIdx index } := by
  obtain ⟨hlt, rfl⟩ := List.getElem?_eq_some_iff.mp h
  exact ⟨(List.getElem_cons_eraseIdx_perm hlt).symm.append_right g.writes, rfl, rfl, rfl⟩

/-- A `WRITE` completes. -/
theorem completes_write {g : Guards} {index number : Nat} (h : g.writes[index]? = some number) :
    g.Completes number { g.cancel with writes := g.writes.eraseIdx index } := by
  obtain ⟨hlt, rfl⟩ := List.getElem?_eq_some_iff.mp h
  refine ⟨?_, rfl, rfl, rfl⟩
  exact ((List.getElem_cons_eraseIdx_perm hlt).symm.append_left g.reads).trans List.perm_middle

/-- A completion keeps the guards sound if the handler of its wait is not queued. -/
theorem Completes.sound {g g' : Guards} {number : Nat} (hc : g.Completes number g') (h : g.Sound)
    (hin : number ∉ g.expired) : g'.Sound := by
  refine ⟨(List.nodup_cons.mp (hc.inFlight.nodup_iff.mp h.nodup)).2, ?_, ?_, ?_⟩
  · intro other hother
    rw [hc.count]
    exact h.lt other (hc.inFlight.mem_iff.mpr (List.mem_cons_of_mem _ hother))
  · intro other hother
    rw [hc.waiting] at hother
    cases hother
  · intro other hother
    rw [hc.expired] at hother
    rcases List.mem_cons.mp (hc.inFlight.mem_iff.mp (h.guarded other hother)) with rfl | hrest
    · exact absurd hother hin
    · exact hrest

/-- A completion leaves the queued handler of its wait behind. -/
theorem Completes.not_guarded {g g' : Guards} {number : Nat} (hc : g.Completes number g')
    (h : g.Sound) (hin : number ∈ g.expired) (op : Operation) :
    ¬ ∀ other ∈ (g'.perform op).expired, (g'.perform op).Outstanding other := by
  intro hall
  have hlt : number < g'.count := by
    rw [hc.count]
    exact h.lt number (h.guarded number hin)
  have hexpired : number ∈ (g'.perform op).expired := by
    rw [(g'.perform_cases op).2, hc.expired]
    exact hin
  have hmem := outstanding_perform hlt (hall number hexpired)
  exact (List.nodup_cons.mp (hc.inFlight.nodup_iff.mp h.nodup)).1 hmem

/-- The label of a connection in which a `READ` has completed. -/
theorem Label.handle_read (h : g.Label b) (H : ConnectionHandler χ μ) {index : Nat}
    (hindex : index < b.reads.length) (result : Except ErrorCode (List Byte)) (memory : μ) :
    ∃ front, b.handleRead H index result memory = front.nextOperation H memory ∧
      Label { g.cancel with reads := g.reads.eraseIdx index } front := by
  have hlen : (g.reads.eraseIdx index).length = (b.reads.eraseIdx index).length := by
    rw [List.length_eraseIdx_of_lt hindex, List.length_eraseIdx_of_lt (h.reads ▸ hindex), h.reads]
  rw [ConnectionBase.handleRead, List.getElem?_eq_getElem hindex]
  cases result with
  | ok data => exact ⟨_, rfl, ⟨hlen, h.writes, rfl, h.expired⟩⟩
  | error e => exact ⟨_, rfl, ⟨hlen, h.writes, rfl, h.expired⟩⟩

/-- The label of a connection in which a `WRITE` has completed. -/
theorem Label.handle_write (h : g.Label b) (H : ConnectionHandler χ μ) {index : Nat}
    (hindex : index < b.writes.length) (error : Option ErrorCode) (memory : μ) :
    ∃ front, b.handleWrite H index error memory = front.nextOperation H memory ∧
      Label { g.cancel with writes := g.writes.eraseIdx index } front := by
  have hlen : (g.writes.eraseIdx index).length = (b.writes.eraseIdx index).length := by
    rw [List.length_eraseIdx_of_lt hindex, List.length_eraseIdx_of_lt (h.writes ▸ hindex), h.writes]
  unfold ConnectionBase.handleWrite
  cases error with
  | none => exact ⟨_, rfl, ⟨h.reads, hlen, rfl, h.expired⟩⟩
  | some e => exact ⟨_, rfl, ⟨h.reads, hlen, rfl, h.expired⟩⟩

end Guards

namespace Guarded

variable {χ μ : Type} {H : ConnectionHandler χ μ} {s : Guarded χ} {action : ConnectionAction μ}
  {place : Nat}

/-- The guards belong to the connection, and are sound. -/
structure Kept (s : Guarded χ) : Prop where
  label : s.guards.Label s.base
  sound : s.guards.Sound

/-- An accepted connection. -/
theorem kept_start (H : ConnectionHandler χ μ) (handler : χ) (memory : μ) :
    (start H handler memory).Kept := by
  have hnew : Guards.new.Label (ConnectionBase.new handler) := ⟨rfl, rfl, rfl, rfl⟩
  have hsound : Guards.new.Sound := ⟨List.nodup_nil, nofun, nofun, nofun⟩
  obtain ⟨op, hop, hlabel⟩ := hnew.next_operation H memory
  have hstart : start H handler memory =
      ⟨ConnectionBase.start H handler memory, Guards.new.perform op⟩ := by
    rw [← hop]
    rfl
  rw [hstart]
  exact ⟨hlabel, hsound.perform op⟩

/-- `timeoutOccured` is called for an operation in flight. -/
theorem Kept.right (h : s.Kept) (hpossible : s.Possible (action, place)) :
    s.Right (action, place) := by
  cases action with
  | handleTimeout memory =>
      intro _
      obtain ⟨-, hplace⟩ := hpossible
      have hget : s.guards.expired[place]? = some s.guards.expired[place] :=
        List.getElem?_eq_getElem hplace
      exact ⟨_, hget, h.sound.guarded _ (List.mem_of_getElem? hget)⟩
  | _ => trivial

/-- Behind an action that calls `nextOperation`. -/
theorem kept_next {g : Guards} {front : ConnectionBase χ} (hlabel : g.Label front)
    (hsound : g.Sound) (memory : μ) : Kept ⟨front.nextOperation H memory,
      g.performLast (front.nextOperation H memory).operations⟩ := by
  obtain ⟨op, hop, hnext⟩ := hlabel.next_operation H memory
  rw [hop]
  exact ⟨hnext, hsound.perform op⟩

/-- A running connection after the completion of a `READ`. -/
theorem act_handle_read {front : ConnectionBase χ} (hrunning : s.base.aborted = false) {index : Nat}
    {result : Except ErrorCode (List Byte)} {memory : μ}
    (hfront : s.base.handleRead H index result memory = front.nextOperation H memory) :
    s.act H (.handleRead index result memory, place) =
      ⟨front.nextOperation H memory, Guards.performLast
        { s.guards.cancel with reads := s.guards.reads.eraseIdx index }
        (front.nextOperation H memory).operations⟩ := by
  simp only [act, ConnectionBase.act, hrunning, Bool.false_eq_true, if_false, hfront]

/-- A running connection after the completion of a `WRITE`. -/
theorem act_handle_write {front : ConnectionBase χ} (hrunning : s.base.aborted = false)
    {index : Nat} {error : Option ErrorCode} {memory : μ}
    (hfront : s.base.handleWrite H index error memory = front.nextOperation H memory) :
    s.act H (.handleWrite index error memory, place) =
      ⟨front.nextOperation H memory, Guards.performLast
        { s.guards.cancel with writes := s.guards.writes.eraseIdx index }
        (front.nextOperation H memory).operations⟩ := by
  simp only [act, ConnectionBase.act, hrunning, Bool.false_eq_true, if_false, hfront]

/-- When a wait runs out it belongs to an operation in flight. -/
theorem Kept.expire (h : s.Kept) (hrunning : s.base.aborted = false)
    (hpossible : s.base.Possible (μ := μ) .expire) : (s.act H (.expire, place)).Kept := by
  obtain ⟨number, hwaiting⟩ : ∃ number, s.guards.waiting = some number := by
    rw [← Option.isSome_iff_exists, h.label.waiting]
    exact hpossible
  have hout := h.sound.waiting number hwaiting
  simp only [act, ConnectionBase.act, hrunning, Bool.false_eq_true, if_false]
  refine ⟨⟨h.label.reads, h.label.writes, rfl, ?_⟩, h.sound.nodup, h.sound.lt,
    fun _ hnone ↦ absurd hnone (Option.some_ne_none _).symm, ?_⟩
  · rw [hwaiting, ← h.label.expired]
    simp
  · intro other hother
    rw [hwaiting] at hother
    rcases List.mem_append.mp hother with hold | hnew
    · exact h.sound.guarded other hold
    · exact List.mem_singleton.mp hnew ▸ hout

/-- When a wait that has run out is handled, the others stay queued. -/
theorem Kept.handle_timeout (h : s.Kept) (hrunning : s.base.aborted = false)
    (hplace : place < s.guards.expired.length) (memory : μ) :
    (s.act H (.handleTimeout memory, place)).Kept := by
  have hlen := List.length_eraseIdx_of_lt hplace
  have hlabel : Guards.Label { s.guards with expired := s.guards.expired.eraseIdx place }
      { s.base with
        expired := s.base.expired - 1
        handler := H.timeoutOccured s.base.handler } :=
    ⟨h.label.reads, h.label.writes, h.label.waiting, by rw [hlen, h.label.expired]⟩
  have hsound : Guards.Sound { s.guards with expired := s.guards.expired.eraseIdx place } :=
    ⟨h.sound.nodup, h.sound.lt, h.sound.waiting, fun number hnumber ↦
      h.sound.guarded number (List.mem_of_mem_eraseIdx hnumber)⟩
  simp only [act, ConnectionBase.act, hrunning, Bool.false_eq_true, if_false]
  exact kept_next hlabel hsound memory

/-- A completion in time keeps the guards. -/
theorem Kept.act (h : s.Kept) (hpossible : s.Possible (action, place))
    (hintime : s.InTime (action, place)) : (s.act H (action, place)).Kept := by
  cases hrunning : s.base.aborted with
  | true =>
      have hact : s.act H (action, place) = s := by simp only [Guarded.act, hrunning, if_true]
      rw [hact]
      exact h
  | false =>
      obtain ⟨hpossible, hplace⟩ := hpossible
      cases action with
      | handleRead index result memory =>
          obtain ⟨request, hrequest, -⟩ := hpossible
          have hindex := (List.getElem?_eq_some_iff.mp hrequest).1
          obtain ⟨front, hfront, hlabel⟩ := h.label.handle_read H hindex result memory
          have hnumber : s.guards.reads[index]? = some _ :=
            List.getElem?_eq_getElem (h.label.reads ▸ hindex)
          rw [act_handle_read hrunning hfront]
          exact kept_next hlabel
            ((Guards.completes_read hnumber).sound h.sound (hintime hrunning _ hnumber)) memory
      | handleWrite index error memory =>
          have hindex : index < s.base.writes.length := hpossible
          obtain ⟨front, hfront, hlabel⟩ := h.label.handle_write H hindex error memory
          have hnumber : s.guards.writes[index]? = some _ :=
            List.getElem?_eq_getElem (h.label.writes ▸ hindex)
          rw [act_handle_write hrunning hfront]
          exact kept_next hlabel
            ((Guards.completes_write hnumber).sound h.sound (hintime hrunning _ hnumber)) memory
      | expire => exact h.expire hrunning hpossible
      | handleTimeout memory => exact h.handle_timeout hrunning hplace memory
      | handleTimeoutAborted | signal =>
          simp only [Guarded.act, ConnectionBase.act, hrunning, Bool.false_eq_true, if_false]
          exact ⟨⟨h.label.reads, h.label.writes, h.label.waiting, h.label.expired⟩, h.sound⟩
      | handleSignal memory =>
          have hlabel : s.guards.Label
              { s.base with
                signals := s.base.signals - 1
                handler := H.signalOccured s.base.handler } :=
            ⟨h.label.reads, h.label.writes, h.label.waiting, h.label.expired⟩
          simp only [Guarded.act, ConnectionBase.act, hrunning, Bool.false_eq_true, if_false]
          exact kept_next hlabel h.sound memory

/-- Behind a completion that is not in time a queued handler has lost its operation. -/
theorem Kept.not_guarded (h : s.Kept) (hpossible : s.Possible (action, place))
    (hlate : ¬ s.InTime (action, place)) : ¬ (s.act H (action, place)).AllGuarded := by
  obtain ⟨hpossible, -⟩ := hpossible
  cases action with
  | handleRead index result memory =>
      simp only [InTime, Classical.not_imp, not_forall, not_not] at hlate
      obtain ⟨hrunning, number, hnumber, hqueued⟩ := hlate
      obtain ⟨request, hrequest, -⟩ := hpossible
      have hindex := (List.getElem?_eq_some_iff.mp hrequest).1
      obtain ⟨front, hfront, hlabel⟩ := h.label.handle_read H hindex result memory
      obtain ⟨op, hop, -⟩ := hlabel.next_operation H memory
      rw [act_handle_read hrunning hfront, AllGuarded, hop]
      exact (Guards.completes_read hnumber).not_guarded h.sound hqueued op
  | handleWrite index error memory =>
      simp only [InTime, Classical.not_imp, not_forall, not_not] at hlate
      obtain ⟨hrunning, number, hnumber, hqueued⟩ := hlate
      obtain ⟨front, hfront, hlabel⟩ := h.label.handle_write H hpossible error memory
      obtain ⟨op, hop, -⟩ := hlabel.next_operation H memory
      rw [act_handle_write hrunning hfront, AllGuarded, hop]
      exact (Guards.completes_write hnumber).not_guarded h.sound hqueued op
  | _ => exact absurd trivial hlate

end Guarded

/-- **Timeouts hit only the operation they guard** in every run in which no operation completes
while the handler of its wait is queued; and in no other run do all queued handlers have their
operation. -/
theorem timeouts_guard_iff {χ μ : Type} (H : ConnectionHandler χ μ) (handler : χ) (memory : μ)
    (actions : List (ConnectionAction μ × Nat))
    (hrun : Runs.Each (Guarded.act H) Guarded.Possible (.start H handler memory) actions) :
    (Runs.Each (Guarded.act H) Guarded.InTime (.start H handler memory) actions →
      Runs.Each (Guarded.act H) Guarded.Right (.start H handler memory) actions) ∧
    (Runs.Always (Guarded.act H) Guarded.AllGuarded (.start H handler memory) actions ↔
      Runs.Each (Guarded.act H) Guarded.InTime (.start H handler memory) actions) := by
  have hstart := Guarded.kept_start H handler memory
  constructor
  · intro hintime
    refine Runs.each_rule ?_ hstart (hrun.and hintime)
    rintro s ⟨action, place⟩ h ⟨hpossible, hin⟩
    exact ⟨h.right hpossible, h.act hpossible hin⟩
  · have hstep (s : Guarded χ) (action : ConnectionAction μ × Nat) (h : s.Kept)
        (hpossible : s.Possible action) (hin : s.InTime action) : (s.act H action).Kept :=
      h.act hpossible hin
    refine Runs.always_iff_rule hstep (fun s h ↦ h.sound.guarded) ?_ hstart hrun
    intro s action h hpossible hlate
    exact h.not_guarded hpossible hlate

/-- A client of the server that sends nothing. -/
theorem timeouts_guard_iff_silent :
    (Runs.Each (Guarded.act SmerpHandler.smerpConnection) Guarded.InTime
        (.start SmerpHandler.smerpConnection
          (.new (List.replicate SmerpHandler.readBufSize 0)) [])
        [(.handleWrite 0 none [], 0), (.expire, 0), (.handleTimeout [], 0)] →
      Runs.Each (Guarded.act SmerpHandler.smerpConnection) Guarded.Right
        (.start SmerpHandler.smerpConnection
          (.new (List.replicate SmerpHandler.readBufSize 0)) [])
        [(.handleWrite 0 none [], 0), (.expire, 0), (.handleTimeout [], 0)]) ∧
    (Runs.Always (Guarded.act SmerpHandler.smerpConnection) Guarded.AllGuarded
        (.start SmerpHandler.smerpConnection
          (.new (List.replicate SmerpHandler.readBufSize 0)) [])
        [(.handleWrite 0 none [], 0), (.expire, 0), (.handleTimeout [], 0)] ↔
      Runs.Each (Guarded.act SmerpHandler.smerpConnection) Guarded.InTime
        (.start SmerpHandler.smerpConnection
          (.new (List.replicate SmerpHandler.readBufSize 0)) [])
        [(.handleWrite 0 none [], 0), (.expire, 0), (.handleTimeout [], 0)]) := by
  refine timeouts_guard_iff SmerpHandler.smerpConnection
    (.new (List.replicate SmerpHandler.readBufSize 0)) [] _ ⟨⟨?_, trivial⟩, ⟨?_, trivial⟩, ⟨?_, ?_⟩,
      trivial⟩
  · show 0 < _
    decide
  · rfl
  · show 0 < _
    decide
  · show 0 < _
    decide

/-- **A client whose line arrived in time is timed out**: the timer ran out just before the line was
handled. -/
theorem not_timeouts_guard : ¬ ∀ (readBuf behind : List Byte)
    (actions : List (ConnectionAction (List Byte) × Nat)),
    Runs.Each (Guarded.act SmerpHandler.smerpConnection) Guarded.Possible
        (.start SmerpHandler.smerpConnection (.new readBuf) behind) actions →
      Runs.Each (Guarded.act SmerpHandler.smerpConnection) Guarded.Right
        (.start SmerpHandler.smerpConnection (.new readBuf) behind) actions := by
  intro h
  have hrun := h (List.replicate SmerpHandler.readBufSize 0) []
    [(.handleWrite 0 none [], 0), (.expire, 0), (.handleRead 0 (.ok (text "hi\n")) [], 0),
      (.handleTimeout [], 0)] (by
    refine ⟨⟨?_, trivial⟩, ⟨rfl, trivial⟩, ⟨⟨(0, SmerpHandler.readBufSize), ?_, ?_⟩, trivial⟩,
      ⟨?_, ?_⟩,
      trivial⟩
    · show 0 < _
      decide
    · decide
    · rintro data hdata
      obtain rfl := Except.ok.inj hdata
      decide
    · show 0 < _
      decide
    · show 0 < _
      decide)
  obtain ⟨number, hnumber, hout⟩ := hrun.2.2.2.1 (by decide)
  obtain rfl : 1 = number := by
    have hexpired : (Runs.last (Guarded.act SmerpHandler.smerpConnection)
        (.start SmerpHandler.smerpConnection
          (.new (List.replicate SmerpHandler.readBufSize 0)) [])
        [(.handleWrite 0 none [], 0), (.expire, 0),
          (.handleRead 0 (.ok (text "hi\n")) [], 0)]).guards.expired[0]? = some 1 := by decide
    exact Option.some.inj (hexpired.symm.trans hnumber)
  exact absurd hout (by decide)

end Smerp.Network
