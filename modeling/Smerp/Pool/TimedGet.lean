import Smerp.Pool.ObjectPool

/-!
# Timed waits in the object pool

When `timed_wait` returns false, `get` returns `NULL` without another look at `available_`, although
the waiter had to take the mutex again and objects may have been added in between. As long as the
pool is empty at the expiry and nothing is added until the waiter is back, `NULL` is returned on an
empty pool only (`gives_up_empty`).
-/

namespace Smerp.Pool

open Lib

namespace ObjectPool

variable {τ ω : Type}

/-- What a call of `get` returns in the step, if it returns: an object or `NULL`. -/
def result (s : ObjectPool τ ω) : Action τ ω → Option (Option ω)
  | .enter _ => s.available.head?.map some
  | .reacquire t => if s.thread t = .expired then some none else none
  | .get _ | .wake _ | .expire _ | .add _ _ | .notify _ _ | .setTimeout _ => none

/-- `get` returns `NULL` only if the pool is empty at that moment. -/
def GivesUpEmpty [DecidableEq τ] [DecidableEq ω] (s : ObjectPool τ ω)
    (action : Action τ ω) : Prop :=
  s.result action = some none → (s.act action).available = []

/-- `get` returns `NULL` only to a thread that comes back from an expired wait. -/
theorem result_null {s : ObjectPool τ ω} {action : Action τ ω} (h : s.result action = some none) :
    ∃ t, action = .reacquire t ∧ s.thread t = .expired := by
  cases action with
  | enter t =>
      cases havailable : s.available <;> simp [result, havailable] at h
  | reacquire t =>
      by_cases hthread : s.thread t = .expired
      · exact ⟨t, rfl, hthread⟩
      · simp only [result, if_neg hthread] at h
        exact absurd h nofun
  | get | wake | expire | add | notify | setTimeout => exact absurd h nofun

/-- The time of a waiter expires while the pool is empty, and nothing is added between the expiry of
a waiter and its return. -/
def Undisturbed (s : ObjectPool τ ω) : Action τ ω → Prop
  | .expire _ => s.available = []
  | .add _ _ => ∀ t, s.thread t ≠ .expired
  | .get _ | .enter _ | .wake _ | .reacquire _ | .notify _ _ | .setTimeout _ => True

/-- The pool is empty while a waiter whose time has expired is on its way back. -/
def ExpiresEmpty (s : ObjectPool τ ω) : Prop := ∀ t, s.thread t = .expired → s.available = []

variable [DecidableEq τ]

/-- A thread whose time has expired after one of them has gone on. -/
theorem goto_expired {s : ObjectPool τ ω} {t other : τ} {state : ThreadState}
    (hstate : state ≠ .expired) (h : (s.goto t state).thread other = .expired) :
    s.thread other = .expired := by
  have hthread : (s.goto t state).thread other = Function.update s.thread t state other := rfl
  rw [hthread] at h
  by_cases heq : other = t
  · rw [heq, Function.update_self] at h
    exact absurd h hstate
  · rwa [Function.update_of_ne heq] at h

namespace ExpiresEmpty

variable {s : ObjectPool τ ω}

/-- A thread goes on that does not expire. -/
theorem goto (h : s.ExpiresEmpty) (t : τ) {state : ThreadState} (hstate : state ≠ .expired) :
    (s.goto t state).ExpiresEmpty :=
  fun _ hother ↦ h _ (goto_expired hstate hother)

/-- A thread is woken. -/
theorem wake (h : s.ExpiresEmpty) (t : τ) : (s.wake t).ExpiresEmpty := by
  unfold ObjectPool.wake
  cases s.thread t with
  | waiting timed => exact h.goto t (by simp)
  | idle | entering | woken | expired | notifying => exact h

/-- An object is taken only when no waiter is on its way back. -/
theorem enter (h : s.ExpiresEmpty) (t : τ) : (s.enter t).ExpiresEmpty := by
  cases havailable : s.available with
  | nil =>
      rw [ObjectPool.enter, havailable]
      exact h.goto t (by simp)
  | cons object rest =>
      intro other hother
      have hthread : (s.enter t).thread = (s.goto t .idle).thread := by
        rw [ObjectPool.enter, havailable]
      rw [hthread] at hother
      have hidle : ThreadState.idle ≠ .expired := by simp
      have hempty := h other (goto_expired hidle hother)
      rw [havailable] at hempty
      cases hempty

/-- The critical section behind a wait. -/
theorem reacquire (h : s.ExpiresEmpty) (t : τ) : (s.reacquire t).ExpiresEmpty := by
  unfold ObjectPool.reacquire
  cases s.thread t with
  | woken timed =>
      show (if s.available = [] then s.goto t (.waiting timed) else s.goto t .entering).ExpiresEmpty
      split_ifs
      · exact h.goto t (by simp)
      · exact h.goto t (by simp)
  | expired => exact h.goto t (by simp)
  | idle | entering | waiting | notifying => exact h

variable [DecidableEq ω]

/-- Nothing is added while a waiter is on its way back. -/
theorem add {t : τ} {object : ω} (hnone : ∀ t, s.thread t ≠ .expired) :
    (s.add t object).ExpiresEmpty := by
  intro other hother
  have hnotifying : ThreadState.notifying ≠ .expired := by simp
  exact absurd (goto_expired hnotifying hother) (hnone other)

/-- Every undisturbed step. -/
theorem act (h : s.ExpiresEmpty) {action : Action τ ω} (hundisturbed : s.Undisturbed action) :
    (s.act action).ExpiresEmpty := by
  cases action with
  | get t => exact h.goto t (by simp)
  | enter t => exact h.enter t
  | wake t => exact h.wake t
  | expire t => exact fun _ _ ↦ hundisturbed
  | reacquire t => exact h.reacquire t
  | add t object => exact add hundisturbed
  | notify t waiter =>
      cases waiter with
      | some waiter => exact (h.wake waiter).goto t (by simp)
      | none => exact h.goto t (by simp)
  | setTimeout seconds => exact h

/-- A waiter that is back gives up on an empty pool. -/
theorem gives_up (h : s.ExpiresEmpty) (action : Action τ ω) : s.GivesUpEmpty action := by
  intro hnull
  obtain ⟨t, rfl, hexpired⟩ := result_null hnull
  have hafter : s.act (.reacquire t) = s.goto t .idle := by
    show s.reacquire t = _
    rw [ObjectPool.reacquire, hexpired]
  rw [hafter]
  exact h t hexpired

end ExpiresEmpty

variable [DecidableEq ω]

/-- **A timed `get` gives up on an empty pool only**, in every run with any number of threads in
which the pool is empty whenever the time of a waiter expires, and nothing is added until this
waiter is back. -/
theorem gives_up_empty (seconds : Nat) (actions : List (Action τ ω))
    (hundisturbed : Runs.Each act Undisturbed (new seconds) actions) :
    Runs.Each act GivesUpEmpty (new seconds) actions := by
  have hnew : (new seconds : ObjectPool τ ω).ExpiresEmpty := fun _ _ ↦ rfl
  exact Runs.each_rule (fun s action h hallows ↦ ⟨h.gives_up action, h.act hallows⟩) hnew
    hundisturbed

/-- A run in which the object added goes to a second waiter before the time of the first one
expires. -/
theorem gives_up_empty_second_waiter :
    Runs.Each act GivesUpEmpty (new 1 : ObjectPool (Fin 3) Nat)
      [.get 0, .enter 0, .get 1, .enter 1, .add 2 7, .notify 2 (some 1), .reacquire 1, .enter 1,
        .expire 0, .reacquire 0] :=
  gives_up_empty 1 _
    ⟨trivial, trivial, trivial, trivial, by show ∀ t : Fin 3, _ ≠ ThreadState.expired; decide,
      trivial, trivial, trivial, rfl, trivial, trivial⟩

/-- An object is added between the expiry of a waiter and its return, and the waiter gives up. -/
theorem gives_up_with_object :
    ¬ ∀ actions : List (Action (Fin 2) Nat), Runs.Each act Possible (new 1) actions →
      Runs.Each act GivesUpEmpty (new 1) actions := by
  intro h
  obtain ⟨-, -, -, -, hlast, -⟩ := h [.get 0, .enter 0, .expire 0, .add 1 7, .reacquire 0]
    ⟨rfl, rfl, rfl, ⟨rfl, .inr (by decide)⟩, .inr (.inr rfl), trivial⟩
  exact absurd (hlast rfl) (by decide)

end ObjectPool

end Smerp.Pool
