import Smerp.Lib.Custody
import Smerp.Lib.Runs

/-!
# The object pool

`ObjectPool` of `include/objectPool.hpp`, as a step relation over its threads. A critical section
under `mutex_` is one step; waiting releases the mutex, and waking up, expiring and re-acquiring it
are steps of their own. `always_exclusive` says that every object is in the pool or with one thread,
in every run.
-/

namespace Smerp.Pool

open Lib

/-- Where a thread is: outside of the pool, in front of the lock at the top of the loop of `get`,
waiting for the condition, woken or expired and in front of the lock again, or in `add` in front of
`notify_one`. A wait is timed if `timeout_` was not zero. -/
inductive ThreadState where
  | idle
  | entering
  | waiting (timed : Bool)
  | woken (timed : Bool)
  | expired
  | notifying
  deriving DecidableEq, Repr

/-- The thread waits for the condition. -/
def ThreadState.IsWaiting : ThreadState → Prop
  | .waiting _ => True
  | _ => False

instance : DecidablePred ThreadState.IsWaiting
  | .waiting _ => inferInstanceAs (Decidable True)
  | .idle | .entering | .woken _ | .expired | .notifying => inferInstanceAs (Decidable False)

/-- `ObjectPool`, with its threads and the objects that they hold. The logs are those of the objects
pushed to `available_` and of those popped. -/
structure ObjectPool (τ ω : Type) where
  available : List ω
  timeout : Nat
  thread : τ → ThreadState
  held : τ → List ω
  entered : List ω
  left : List ω

/-- The steps of the threads. `reacquire` is the return from the wait with the mutex. -/
inductive Action (τ ω : Type) where
  | get (t : τ)
  | enter (t : τ)
  | wake (t : τ)
  | expire (t : τ)
  | reacquire (t : τ)
  | add (t : τ) (object : ω)
  | notify (t : τ) (waiter : Option τ)
  | setTimeout (seconds : Nat)
  deriving DecidableEq, Repr

namespace ObjectPool

variable {τ ω : Type}

/-- The constructor. -/
def new (seconds : Nat) : ObjectPool τ ω := ⟨[], seconds, fun _ ↦ .idle, fun _ ↦ [], [], []⟩

variable [DecidableEq τ] [DecidableEq ω]

/-- A thread goes on. -/
def goto (s : ObjectPool τ ω) (t : τ) (state : ThreadState) : ObjectPool τ ω :=
  { s with thread := Function.update s.thread t state }

/-- The critical section at the top of the loop of `get`. -/
def enter (s : ObjectPool τ ω) (t : τ) : ObjectPool τ ω :=
  match s.available with
  | object :: rest =>
      { s.goto t .idle with
        available := rest
        held := Function.update s.held t (object :: s.held t)
        left := s.left ++ [object] }
  | [] => s.goto t (.waiting (decide (s.timeout ≠ 0)))

/-- The critical section behind a wait: `while( available_.empty())`, and `return NULL` when the
timed wait has failed. -/
def reacquire (s : ObjectPool τ ω) (t : τ) : ObjectPool τ ω :=
  match s.thread t with
  | .woken timed => if s.available = [] then s.goto t (.waiting timed) else s.goto t .entering
  | .expired => s.goto t .idle
  | .idle | .entering | .waiting _ | .notifying => s

/-- The critical section of `add`. -/
def add (s : ObjectPool τ ω) (t : τ) (object : ω) : ObjectPool τ ω :=
  { s.goto t .notifying with
    available := s.available ++ [object]
    held := Function.update s.held t ((s.held t).erase object)
    entered := s.entered ++ [object] }

/-- A waiting thread is woken. -/
def wake (s : ObjectPool τ ω) (t : τ) : ObjectPool τ ω :=
  match s.thread t with
  | .waiting timed => s.goto t (.woken timed)
  | .idle | .entering | .woken _ | .expired | .notifying => s

/-- `notify_one` -/
def notify (s : ObjectPool τ ω) (t : τ) : Option τ → ObjectPool τ ω
  | some waiter => (s.wake waiter).goto t .idle
  | none => s.goto t .idle

/-- A step. -/
def act (s : ObjectPool τ ω) : Action τ ω → ObjectPool τ ω
  | .get t => s.goto t .entering
  | .enter t => s.enter t
  | .wake t => s.wake t
  | .expire t => s.goto t .expired
  | .reacquire t => s.reacquire t
  | .add t object => s.add t object
  | .notify t waiter => s.notify t waiter
  | .setTimeout seconds => { s with timeout := seconds }

/-- The steps that are possible. A waiting thread may be woken without being notified. A thread adds
an object that it holds, or one that is new. -/
def Possible (s : ObjectPool τ ω) : Action τ ω → Prop
  | .get t => s.thread t = .idle
  | .enter t => s.thread t = .entering
  | .wake t => (s.thread t).IsWaiting
  | .expire t => s.thread t = .waiting true
  | .reacquire t => s.thread t = .woken true ∨ s.thread t = .woken false ∨ s.thread t = .expired
  | .add t object => s.thread t = .idle ∧ (object ∈ s.held t ∨ object ∉ s.entered)
  | .notify t (some waiter) => s.thread t = .notifying ∧ (s.thread waiter).IsWaiting
  | .notify t none => s.thread t = .notifying ∧ ∀ other, ¬ (s.thread other).IsWaiting
  | .setTimeout _ => True

/-! ## Every object is in one place -/

/-- The places of the objects: `available_` and the threads. -/
def places (s : ObjectPool τ ω) : Option τ → List ω
  | none => s.available
  | some t => s.held t

/-- The objects that were ever added. -/
def Known (s : ObjectPool τ ω) (object : ω) : Prop := object ∈ s.entered

/-- Every object ever added is in one place, and the objects have left the list in the order in
which they were added. -/
structure Kept (s : ObjectPool τ ω) : Prop where
  exclusive : Custody.Exclusive s.places s.Known
  order : s.entered = s.left ++ s.available

omit [DecidableEq τ] in
/-- What is about the objects does not depend on where the threads are. -/
theorem Kept.of_eq {s s' : ObjectPool τ ω} (h : s.Kept) (havailable : s'.available = s.available)
    (hheld : s'.held = s.held) (hentered : s'.entered = s.entered) (hleft : s'.left = s.left) :
    s'.Kept := by
  have hplaces : s'.places = s.places := by
    funext place
    cases place with
    | none => exact havailable
    | some t => exact congrFun hheld t
  have hknown : s'.Known = s.Known := by
    funext object
    rw [Known, Known, hentered]
  refine ⟨?_, ?_⟩
  · rw [hplaces, hknown]
    exact h.exclusive
  · rw [hentered, hleft, havailable]
    exact h.order

/-- A thread that goes on. -/
theorem Kept.goto {s : ObjectPool τ ω} (h : s.Kept) (t : τ) (state : ThreadState) :
    (s.goto t state).Kept :=
  h.of_eq rfl rfl rfl rfl

/-- Waking a thread. -/
theorem Kept.wake {s : ObjectPool τ ω} (h : s.Kept) (t : τ) : (s.wake t).Kept := by
  unfold ObjectPool.wake
  cases s.thread t with
  | waiting timed => exact h.goto t _
  | idle | entering | woken | expired | notifying => exact h

/-- The first object goes from the list to the thread. -/
theorem Kept.enter {s : ObjectPool τ ω} (h : s.Kept) (t : τ) : (s.enter t).Kept := by
  cases havailable : s.available with
  | nil =>
      rw [ObjectPool.enter, havailable]
      exact h.goto t _
  | cons object rest =>
      have hafter : s.enter t = { s.goto t .idle with
          available := rest
          held := Function.update s.held t (object :: s.held t)
          left := s.left ++ [object] } := by
        rw [ObjectPool.enter, havailable]
      rw [hafter]
      refine ⟨h.exclusive.move object none (some t) nofun ?_ ?_ ?_ ?_, ?_⟩
      · show object ∈ s.available
        rw [havailable]
        exact List.mem_cons_self
      · show s.available.Perm (object :: rest)
        rw [havailable]
      · show (Function.update s.held t (object :: s.held t) t).Perm (object :: s.held t)
        rw [Function.update_self]
      · intro place hsource htarget
        cases place with
        | none => exact absurd rfl hsource
        | some other =>
            have hother : other ≠ t := fun heq ↦ htarget (congrArg some heq)
            exact Function.update_of_ne hother _ _
      · show s.entered = s.left ++ [object] ++ rest
        rw [h.order, havailable, List.append_assoc]
        rfl

/-- The object goes from the thread to the end of the list. -/
theorem Kept.add {s : ObjectPool τ ω} (h : s.Kept) {t : τ} {object : ω}
    (hobject : object ∈ s.held t ∨ object ∉ s.entered) : (s.add t object).Kept := by
  have hother (place : Option τ) (hsource : place ≠ some t) (htarget : place ≠ none) :
      (s.add t object).places place = s.places place := by
    cases place with
    | none => exact absurd rfl htarget
    | some other =>
        have hne : other ≠ t := fun heq ↦ hsource (congrArg some heq)
        exact Function.update_of_ne hne _ _
  have htarget : ((s.add t object).places none).Perm (object :: s.places none) :=
    List.perm_append_singleton object s.available
  have horder : (s.add t object).entered = (s.add t object).left ++ (s.add t object).available := by
    show s.entered ++ [object] = s.left ++ (s.available ++ [object])
    rw [h.order, List.append_assoc]
  have hsource : (s.add t object).places (some t) = (s.held t).erase object :=
    Function.update_self ..
  by_cases hheld : object ∈ s.held t
  · have hknown : (s.add t object).Known = s.Known := by
      have hin : object ∈ s.entered := by
        by_contra hnot
        exact h.exclusive.fresh object hnot (some t) hheld
      funext x
      simp only [Known, ObjectPool.add, List.mem_append, List.mem_singleton, eq_iff_iff,
        or_iff_left_iff_imp]
      rintro rfl
      exact hin
    refine ⟨?_, horder⟩
    rw [hknown]
    refine h.exclusive.move object (some t) none nofun hheld ?_ htarget hother
    rw [hsource]
    exact List.perm_cons_erase hheld
  · have hnew := hobject.resolve_left hheld
    have hknown : (s.add t object).Known = fun x ↦ s.Known x ∨ x = object := by
      funext x
      simp only [Known, ObjectPool.add, List.mem_append, List.mem_singleton]
    refine ⟨?_, horder⟩
    rw [hknown]
    refine h.exclusive.bring hnew htarget ?_
    intro place hplace
    by_cases hplace' : place = some t
    · rw [hplace', hsource, List.erase_of_not_mem hheld]
      rfl
    · exact hother place hplace' hplace

/-- Every step keeps the objects. -/
theorem Kept.act {s : ObjectPool τ ω} (h : s.Kept) {action : Action τ ω}
    (hpossible : s.Possible action) : (s.act action).Kept := by
  cases action with
  | get t => exact h.goto t _
  | enter t => exact h.enter t
  | wake t => exact h.wake t
  | expire t => exact h.goto t _
  | reacquire t =>
      show (s.reacquire t).Kept
      unfold ObjectPool.reacquire
      cases s.thread t with
      | woken timed =>
          show (if s.available = [] then s.goto t (.waiting timed) else s.goto t .entering).Kept
          split_ifs
          · exact h.goto t _
          · exact h.goto t _
      | expired => exact h.goto t _
      | idle | entering | waiting | notifying => exact h
  | add t object => exact h.add hpossible.2
  | notify t waiter =>
      cases waiter with
      | some waiter => exact (h.wake waiter).goto t _
      | none => exact h.goto t _
  | setTimeout seconds => exact h.of_eq rfl rfl rfl rfl

/-- The object is once in `available_` and with no thread, or not in `available_` and with one
thread once. -/
def InOnePlace (s : ObjectPool τ ω) (object : ω) : Prop :=
  (s.available.count object = 1 ∧ ∀ t, object ∉ s.held t) ∨
    (object ∉ s.available ∧ ∃ t, (s.held t).count object = 1 ∧
      ∀ other, other ≠ t → object ∉ s.held other)

omit [DecidableEq τ] in
/-- One place is the list or a thread. -/
theorem Kept.in_one_place {s : ObjectPool τ ω} (h : s.Kept) {object : ω}
    (hobject : object ∈ s.entered) : s.InOnePlace object := by
  obtain ⟨place, hone, hother⟩ := h.exclusive.sole object hobject
  cases place with
  | none => exact .inl ⟨hone, fun t ↦ hother (some t) nofun⟩
  | some t =>
      refine .inr ⟨hother none nofun, t, hone, ?_⟩
      intro other hne
      exact hother (some other) fun heq ↦ hne (Option.some.inj heq)

/-- **Each object has one user at a time.** In every run, at every moment, every object ever added
is in the pool or with one thread, and the objects leave the pool in the order in which they were
added. -/
theorem always_exclusive (seconds : Nat) (actions : List (Action τ ω))
    (hrun : Runs.Each act Possible (new seconds) actions) :
    Runs.Always act (fun s : ObjectPool τ ω ↦ (∀ object ∈ s.entered, s.InOnePlace object) ∧
      s.entered = s.left ++ s.available) (new seconds) actions := by
  have hnew : (new seconds : ObjectPool τ ω).Kept := by
    refine ⟨⟨nofun, ?_⟩, rfl⟩
    intro object _ place
    cases place with
    | none => exact List.not_mem_nil
    | some t => exact List.not_mem_nil
  have hstep (s : ObjectPool τ ω) (action : Action τ ω) (h : s.Kept)
      (hpossible : s.Possible action) : (s.act action).Kept := h.act hpossible
  have hkept := Runs.always_rule hstep hnew hrun
  exact hkept.mono fun s h ↦ ⟨fun object hobject ↦ h.in_one_place hobject, h.order⟩

/-- A run in which a newcomer takes the object from under a thread that was woken for it. -/
theorem always_exclusive_newcomer :
    Runs.Always act (fun s : ObjectPool (Fin 2) Nat ↦ (∀ object ∈ s.entered, s.InOnePlace object) ∧
      s.entered = s.left ++ s.available) (new 5)
      [.get 0, .enter 0, .add 1 7, .notify 1 (some 0), .get 1, .enter 1, .reacquire 0, .add 1 7,
        .notify 1 (some 0), .reacquire 0, .enter 0] :=
  always_exclusive 5 _ ⟨rfl, rfl, ⟨rfl, .inr (by decide)⟩, ⟨rfl, trivial⟩, rfl, rfl, .inl rfl,
    ⟨rfl, .inl (by decide)⟩, ⟨rfl, trivial⟩, .inl rfl, rfl, trivial⟩

end ObjectPool

end Smerp.Pool
