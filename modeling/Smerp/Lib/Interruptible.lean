import Mathlib.Init

/-!
# Computations that run short of input

A computation on a state may throw because its input is at an end. Later more input comes, and the
caller starts again. `Ensures` says what holds of the outcome of a computation. `Extends` says that
more input does not change what a computation does that was not short of it. `Resumes` says what
goes on with more input where a computation was interrupted. Each has its rules for a step followed
by another one, and for a loop.
-/

namespace Lib.Interruptible

universe u

variable {σ ε α β : Type u} {s s' : σ}

/-! ## One step after the other -/

/-- Behind a step that returns, the next one goes on. -/
theorem bind_ok {m : EStateM ε σ α} {f : α → EStateM ε σ β} {a : α} (h : m s = .ok a s') :
    (m >>= f) s = f a s' := by
  simp only [bind, EStateM.bind, h]

/-- Behind a step that throws, there is no next one. -/
theorem bind_error {m : EStateM ε σ α} {f : α → EStateM ε σ β} {e : ε} (h : m s = .error e s') :
    (m >>= f) s = .error e s' := by
  simp only [bind, EStateM.bind, h]

/-- What is read off the state. -/
def look (view : σ → α) : EStateM ε σ α := fun s ↦ .ok (view s) s

/-- A change of the state. -/
def alter (change : σ → σ) : EStateM ε σ PUnit := fun s ↦ .ok ⟨⟩ (change s)

@[simp] theorem look_eq (view : σ → α) (s : σ) : (look view : EStateM ε σ α) s = .ok (view s) s :=
  rfl

@[simp] theorem alter_eq (change : σ → σ) (s : σ) :
    (alter change : EStateM ε σ PUnit) s = .ok ⟨⟩ (change s) := rfl

theorem bind_look (view : σ → α) (f : α → EStateM ε σ β) :
    (look view >>= f) s = f (view s) s := rfl

theorem bind_alter (change : σ → σ) (f : PUnit → EStateM ε σ β) :
    (alter change >>= f) s = f ⟨⟩ (change s) := rfl

/-- What holds of the outcome of a computation: `post` if it returns, `stop` if it throws. -/
def Ensures (m : EStateM ε σ α) (s : σ) (post : α → σ → Prop) (stop : ε → σ → Prop) : Prop :=
  match m s with
  | .ok a s' => post a s'
  | .error e s' => stop e s'

variable {m : EStateM ε σ α} {f : α → EStateM ε σ β} {post post' : α → σ → Prop}
  {stop stop' : ε → σ → Prop}

/-- A computation that returns. -/
theorem Ensures.of_ok {a : α} (h : m s = .ok a s') (hpost : post a s') :
    Ensures m s post stop := by
  rw [Ensures, h]
  exact hpost

/-- A computation that throws. -/
theorem Ensures.of_error {e : ε} (h : m s = .error e s') (hstop : stop e s') :
    Ensures m s post stop := by
  rw [Ensures, h]
  exact hstop

/-- A computation that does the same. -/
theorem Ensures.of_eq {m' : EStateM ε σ α} {t : σ} (h : m s = m' t) (hm : Ensures m' t post stop) :
    Ensures m s post stop := by
  rw [Ensures, h]
  exact hm

/-- What holds of a result. -/
theorem Ensures.ok (h : Ensures m s post stop) {a : α} (hm : m s = .ok a s') : post a s' := by
  rw [Ensures, hm] at h
  exact h

/-- What holds of an exception. -/
theorem Ensures.error (h : Ensures m s post stop) {e : ε} (hm : m s = .error e s') :
    stop e s' := by
  rw [Ensures, hm] at h
  exact h

/-- What follows from what holds. -/
theorem Ensures.mono (h : Ensures m s post stop) (hpost : ∀ a s', post a s' → post' a s')
    (hstop : ∀ e s', stop e s' → stop' e s') : Ensures m s post' stop' := by
  cases hm : m s with
  | ok a s' => exact .of_ok hm (hpost a s' (h.ok hm))
  | error e s' => exact .of_error hm (hstop e s' (h.error hm))

/-- One step after the other. -/
theorem Ensures.bind {post : β → σ → Prop}
    (h : Ensures m s (fun a s' ↦ Ensures (f a) s' post stop) stop) :
    Ensures (m >>= f) s post stop := by
  cases hm : m s with
  | ok a s' =>
      have hnext := h.ok hm
      rw [Ensures, bind_ok hm]
      exact hnext
  | error e s' => exact .of_error (bind_error hm) (h.error hm)

/-! ## Loops -/

/-- `for (;;) body`, for at most this many passes. A pass returns a result or goes round again. -/
def loopN (endless : ε) (body : EStateM ε σ (Option α)) : Nat → EStateM ε σ α
  | 0 => throw endless
  | fuel + 1 => do
      match ← body with
      | some a => return a
      | none => loopN endless body fuel

/-- `for (;;) body`, where a pass that goes round again makes the state smaller. -/
def loop (endless : ε) (size : σ → Nat) (body : EStateM ε σ (Option α)) : EStateM ε σ α :=
  fun s ↦ loopN endless body (size s + 1) s

/-- The rest of `for (;;) body`, from the midst of a pass on. -/
def loopFrom (endless : ε) (size : σ → Nat) (body again : EStateM ε σ (Option α)) :
    EStateM ε σ α := do
  match ← again with
  | some a => return a
  | none => loop endless size body

/-- A pass that goes round again makes the state smaller. -/
def Shrinks (size : σ → Nat) (body : EStateM ε σ (Option α)) : Prop :=
  ∀ s s', body s = .ok none s' → size s' < size s

variable {endless : ε} {size : σ → Nat} {body : EStateM ε σ (Option α)}

/-- A larger bound on the passes makes no difference. -/
theorem loop_n_enough (hbody : Shrinks size body) {fuel more : Nat} (hfuel : size s < fuel)
    (hmore : size s < more) : loopN endless body fuel s = loopN endless body more s := by
  induction fuel generalizing s more with
  | zero => omega
  | succ fuel ih =>
      obtain ⟨more, rfl⟩ : ∃ k, more = k + 1 := ⟨more - 1, by omega⟩
      cases hpass : body s with
      | error e s' => rw [loopN, loopN, bind_error hpass, bind_error hpass]
      | ok result s' =>
          rw [loopN, loopN, bind_ok hpass, bind_ok hpass]
          cases result with
          | some a => rfl
          | none =>
              have hless := hbody s s' hpass
              exact ih (by omega) (by omega)

/-- One pass of a loop. -/
theorem loop_eq (hbody : Shrinks size body) :
    loop endless size body = (do
      match ← body with
      | some a => return a
      | none => loop endless size body) := by
  funext s
  cases hpass : body s with
  | error e s' => rw [loop, loopN, bind_error hpass, bind_error hpass]
  | ok result s' =>
      rw [loop, loopN, bind_ok hpass, bind_ok hpass]
      cases result with
      | some a => rfl
      | none => exact loop_n_enough hbody (hbody s s' hpass) (Nat.lt_succ_self _)

/-- A loop whose first pass returns. -/
theorem loop_return (hbody : Shrinks size body) {a : α} (h : body s = .ok (some a) s') :
    loop endless size body s = .ok a s' := by
  rw [loop_eq hbody, bind_ok h]
  rfl

/-- A loop whose first pass goes round again. -/
theorem loop_again (hbody : Shrinks size body) (h : body s = .ok none s') :
    loop endless size body s = loop endless size body s' :=
  (congrFun (loop_eq hbody) s).trans (bind_ok h)

/-- A loop whose first pass throws. -/
theorem loop_error (hbody : Shrinks size body) {e : ε} (h : body s = .error e s') :
    loop endless size body s = .error e s' := by
  rw [loop_eq hbody, bind_error h]

/-- A loop keeps what each pass keeps. -/
theorem Ensures.loop (hbody : Shrinks size body) (inv : σ → Prop)
    (hpass : ∀ s, inv s → Ensures body s
      (fun result s' ↦ (∀ a, result = some a → post a s') ∧ (result = none → inv s')) stop)
    (hinv : inv s) : Ensures (loop endless size body) s post stop := by
  induction hsize : size s using Nat.strongRecOn generalizing s with
  | ind n ih =>
      have hfirst := hpass s hinv
      cases hm : body s with
      | error e s' => exact .of_error (loop_error hbody hm) (hfirst.error hm)
      | ok result s' =>
          obtain ⟨hreturn, hagain⟩ := hfirst.ok hm
          cases result with
          | some a => exact .of_ok (loop_return hbody hm) (hreturn a rfl)
          | none =>
              have hless := hbody s s' hm
              rw [Ensures, loop_again hbody hm]
              exact ih (size s') (hsize ▸ hless) (hagain rfl) rfl

/-- A loop that returns does the same with a larger bound on its passes. -/
theorem loop_n_more {fuel more : Nat} {a : α} (h : loopN endless body fuel s = .ok a s')
    (hle : fuel ≤ more) : loopN endless body more s = .ok a s' := by
  induction fuel generalizing s more with
  | zero => cases h
  | succ fuel ih =>
      obtain ⟨more, rfl⟩ : ∃ k, more = k + 1 := ⟨more - 1, by omega⟩
      cases hpass : body s with
      | error e t =>
          rw [loopN, bind_error hpass] at h
          cases h
      | ok result t =>
          rw [loopN, bind_ok hpass] at h ⊢
          cases result with
          | some a' => exact h
          | none => exact ih h (Nat.le_of_succ_le_succ hle)

/-- A loop whose first pass makes the state smaller. The others may not. -/
theorem loop_smaller {a : α} {t : σ} (h : body s = .ok none t) (hless : size t < size s)
    (hrest : loop endless size body t = .ok a s') : loop endless size body s = .ok a s' :=
  (bind_ok h).trans (loop_n_more hrest hless)

/-! ## Known results -/

/-- The computation returns this result, and `after` holds behind it. -/
def Returns (m : EStateM ε σ α) (s : σ) (a : α) (after : σ → Prop) : Prop :=
  ∃ s', m s = .ok a s' ∧ after s'

variable {after after' : σ → Prop}

theorem Returns.of_ok {a : α} (h : m s = .ok a s') (hafter : after s') : Returns m s a after :=
  ⟨s', h, hafter⟩

theorem Returns.mono {a : α} (h : Returns m s a after) (hafter : ∀ s', after s' → after' s') :
    Returns m s a after' := by
  obtain ⟨s', hm, hs'⟩ := h
  exact ⟨s', hm, hafter s' hs'⟩

/-- One step after the other. -/
theorem Returns.bind {a : α} {b : β}
    (h : Returns m s a fun s' ↦ Returns (f a) s' b after) : Returns (m >>= f) s b after := by
  obtain ⟨s', hm, s'', hf, hs''⟩ := h
  exact ⟨s'', (bind_ok hm).trans hf, hs''⟩

/-- A loop whose first pass goes round again. -/
theorem Returns.loop_again (hbody : Shrinks size body) {a : α}
    (h : Returns body s none fun s' ↦ Returns (Interruptible.loop endless size body) s' a after) :
    Returns (Interruptible.loop endless size body) s a after := by
  obtain ⟨s', hm, s'', hrest, hs''⟩ := h
  exact ⟨s'', (Interruptible.loop_again hbody hm).trans hrest, hs''⟩

/-- A loop whose first pass returns. -/
theorem Returns.loop_return (hbody : Shrinks size body) {a : α}
    (h : Returns body s (some a) after) :
    Returns (Interruptible.loop endless size body) s a after := by
  obtain ⟨s', hm, hs'⟩ := h
  exact ⟨s', Interruptible.loop_return hbody hm, hs'⟩

/-! ## More input -/

section Input

variable {ι : Type*} (feed : σ → ι → σ) (starved : ε)

/-- More input does not change what the computation does in this state when it is not short of
it. -/
def ExtendsAt (m : EStateM ε σ α) (s : σ) : Prop :=
  ∀ more, Ensures m s (fun a s' ↦ m (feed s more) = .ok a (feed s' more))
    (fun e s' ↦ e ≠ starved → m (feed s more) = .error e (feed s' more))

/-- More input does not change what the computation does when it is not short of it. -/
def Extends (m : EStateM ε σ α) : Prop := ∀ s, ExtendsAt feed starved m s

/-- Where the computation is interrupted `stopped` holds, and `k` goes on with more input. -/
def Resumes (stopped : σ → Prop) (m k : EStateM ε σ α) (s : σ) : Prop :=
  ∀ s', m s = .error starved s' → stopped s' ∧ ∀ more, m (feed s more) = k (feed s' more)

variable {feed starved}

/-- A computation that returns does the same with more input. -/
theorem Extends.ok (h : Extends feed starved m) {a : α} (hm : m s = .ok a s') (more : ι) :
    m (feed s more) = .ok a (feed s' more) := (h s more).ok hm

/-- A computation that throws for another reason does the same with more input. -/
theorem Extends.error (h : Extends feed starved m) {e : ε} (hm : m s = .error e s')
    (he : e ≠ starved) (more : ι) : m (feed s more) = .error e (feed s' more) :=
  (h s more).error hm he

theorem Extends.pure (a : α) : Extends feed starved (pure a : EStateM ε σ α) := by
  intro s more
  exact .of_ok rfl rfl

theorem Extends.throw (e : ε) : Extends feed starved (throw e : EStateM ε σ α) := by
  intro s more
  exact .of_error rfl fun _ ↦ rfl

/-- What is read off the state does not depend on the input that is still to come. -/
theorem Extends.look {view : σ → α} (h : ∀ s more, view (feed s more) = view s) :
    Extends feed starved (look view : EStateM ε σ α) := by
  intro s more
  refine .of_ok rfl ?_
  rw [look_eq, h]

/-- A change of the state that does not depend on the input that is still to come. -/
theorem Extends.alter {change : σ → σ} (h : ∀ s more, change (feed s more) = feed (change s) more) :
    Extends feed starved (alter change : EStateM ε σ PUnit) := by
  intro s more
  refine .of_ok rfl ?_
  rw [alter_eq, h]

/-- One step after the other. -/
theorem Extends.bind (hm : Extends feed starved m) (hf : ∀ a, Extends feed starved (f a)) :
    Extends feed starved (m >>= f) := by
  intro s more
  cases hstep : m s with
  | error e s' =>
      refine .of_error (bind_error hstep) ?_
      intro he
      exact bind_error (hm.error hstep he more)
  | ok a s' =>
      have hnext := hf a s' more
      rw [Ensures, bind_ok hstep, bind_ok (hm.ok hstep more)]
      exact hnext

/-- A loop does the same with more input if its passes do. -/
theorem Extends.loop (hbody : Shrinks size body) (hpass : Extends feed starved body) :
    Extends feed starved (loop endless size body) := by
  intro s more
  induction hsize : size s using Nat.strongRecOn generalizing s with
  | ind n ih =>
      cases hm : body s with
      | error e s' =>
          refine .of_error (loop_error hbody hm) ?_
          intro he
          exact loop_error hbody (hpass.error hm he more)
      | ok result s' =>
          cases result with
          | some a =>
              exact .of_ok (loop_return hbody hm) (loop_return hbody (hpass.ok hm more))
          | none =>
              have hless := hbody s s' hm
              rw [Ensures, loop_again hbody hm, loop_again hbody (hpass.ok hm more)]
              exact ih (size s') (hsize ▸ hless) s' rfl

variable {stopped : σ → Prop} {k k' : EStateM ε σ α}

/-- A computation that is not short of input. -/
theorem Resumes.of_ok {a : α} (h : m s = .ok a s') : Resumes feed starved stopped m k s := by
  intro s'' hm
  rw [h] at hm
  exact nomatch hm

/-- What goes on in the same way can take the place of `k`. -/
theorem Resumes.restart (h : Resumes feed starved stopped m k s)
    (hk : ∀ s' more, stopped s' → k (feed s' more) = k' (feed s' more)) :
    Resumes feed starved stopped m k' s := by
  intro s' hstop
  obtain ⟨hstopped, hgoes⟩ := h s' hstop
  exact ⟨hstopped, fun more ↦ (hgoes more).trans (hk s' more hstopped)⟩

/-- What holds where it is interrupted can be weakened. -/
theorem Resumes.mono {stopped' : σ → Prop} (h : Resumes feed starved stopped m k s)
    (hstopped : ∀ s', stopped s' → stopped' s') : Resumes feed starved stopped' m k s := by
  intro s' hstop
  obtain ⟨hwas, hgoes⟩ := h s' hstop
  exact ⟨hstopped s' hwas, hgoes⟩

/-- What else holds where it is interrupted. -/
theorem Resumes.also {stopped' : σ → Prop} (h : Resumes feed starved stopped m k s)
    (hstopped : ∀ s', m s = .error starved s' → stopped' s') :
    Resumes feed starved (fun s' ↦ stopped s' ∧ stopped' s') m k s := by
  intro s' hstop
  obtain ⟨hwas, hgoes⟩ := h s' hstop
  exact ⟨⟨hwas, hstopped s' hstop⟩, hgoes⟩

/-- A step that is not short of input, and what follows on it. -/
theorem Resumes.behind {k : EStateM ε σ β} (hm : ExtendsAt feed starved m s)
    (hcomplete : ∀ s', m s ≠ .error starved s')
    (hnext : ∀ a s', m s = .ok a s' → Resumes feed starved stopped (f a) k s') :
    Resumes feed starved stopped (m >>= f) k s := by
  intro s'' hstop
  cases hstep : m s with
  | error e s' =>
      rw [bind_error hstep] at hstop
      obtain ⟨rfl, rfl⟩ : e = starved ∧ s' = s'' := by simpa using hstop
      exact absurd hstep (hcomplete s')
  | ok a s' =>
      rw [bind_ok hstep] at hstop
      obtain ⟨hstopped, hgoes⟩ := hnext a s' hstep s'' hstop
      refine ⟨hstopped, ?_⟩
      intro more
      rw [bind_ok ((hm more).ok hstep)]
      exact hgoes more

/-- One step after the other. If the first one is interrupted, it goes on with what goes on there,
and the second one. -/
theorem Resumes.bind {stopped' : σ → Prop} {k' : EStateM ε σ β} (hm : ExtendsAt feed starved m s)
    (hfirst : Resumes feed starved stopped' m k s) (hstopped : ∀ s', stopped' s' → stopped s')
    (hrestart : ∀ s' more, stopped' s' → (k >>= f) (feed s' more) = k' (feed s' more))
    (hnext : ∀ a s', m s = .ok a s' → Resumes feed starved stopped (f a) k' s') :
    Resumes feed starved stopped (m >>= f) k' s := by
  intro s'' hstop
  cases hstep : m s with
  | error e s' =>
      rw [bind_error hstep] at hstop
      obtain ⟨rfl, rfl⟩ : e = starved ∧ s' = s'' := by simpa using hstop
      obtain ⟨hwas, hgoes⟩ := hfirst s' hstep
      refine ⟨hstopped s' hwas, ?_⟩
      intro more
      rw [← hrestart s' more hwas]
      show EStateM.bind m f (feed s more) = EStateM.bind k f (feed s' more)
      rw [EStateM.bind, EStateM.bind, hgoes more]
  | ok a s' =>
      rw [bind_ok hstep] at hstop
      obtain ⟨hstopped, hgoes⟩ := hnext a s' hstep s'' hstop
      refine ⟨hstopped, ?_⟩
      intro more
      rw [bind_ok ((hm more).ok hstep)]
      exact hgoes more

/-- A loop goes on with what goes on where one of its passes is interrupted. -/
theorem Resumes.loop (hbody : Shrinks size body) (hextends : Extends feed starved body)
    (inv : σ → Prop) (hkeeps : ∀ s s', inv s → body s = .ok none s' → inv s')
    (hpass : ∀ s s', inv s → body s = .error starved s' →
      stopped s' ∧ ∀ more, loop endless size body (feed s more) = k (feed s' more))
    (hinv : inv s) : Resumes feed starved stopped (loop endless size body) k s := by
  intro s'' hstop
  induction hsize : size s using Nat.strongRecOn generalizing s with
  | ind n ih =>
      cases hm : body s with
      | error e s' =>
          rw [loop_error hbody hm] at hstop
          obtain ⟨rfl, rfl⟩ : e = starved ∧ s' = s'' := by simpa using hstop
          exact hpass s s' hinv hm
      | ok result s' =>
          cases result with
          | some a =>
              rw [loop_return hbody hm] at hstop
              exact nomatch hstop
          | none =>
              have hless := hbody s s' hm
              rw [loop_again hbody hm] at hstop
              obtain ⟨hstopped, hgoes⟩ :=
                ih (size s') (hsize ▸ hless) (hkeeps s s' hinv hm) hstop rfl
              refine ⟨hstopped, ?_⟩
              intro more
              rw [loop_again hbody ((hextends s more).ok hm)]
              exact hgoes more

/-- A loop goes on with a pass that goes on. -/
theorem Resumes.loop_from (hbody : Shrinks size body) (hextends : Extends feed starved body)
    (inv : σ → Prop) (hkeeps : ∀ s s', inv s → body s = .ok none s' → inv s')
    {again : EStateM ε σ (Option α)}
    (hpass : ∀ s, inv s → Resumes feed starved stopped body again s) (hinv : inv s) :
    Resumes feed starved stopped (Interruptible.loop endless size body)
      (loopFrom endless size body again) s := by
  refine .loop hbody hextends inv hkeeps ?_ hinv
  intro s s' hs hstop
  obtain ⟨hstopped, hgoes⟩ := hpass s hs s' hstop
  refine ⟨hstopped, ?_⟩
  intro more
  rw [loop_eq hbody]
  show EStateM.bind body _ (feed s more) = EStateM.bind again _ (feed s' more)
  rw [EStateM.bind, EStateM.bind, hgoes more]

/-- A loop that goes on with a pass, interrupted once more. -/
theorem Resumes.loop_midst (hbody : Shrinks size body) (hextends : Extends feed starved body)
    (inv : σ → Prop) (hkeeps : ∀ s s', inv s → body s = .ok none s' → inv s')
    {again : EStateM ε σ (Option α)}
    (hpass : ∀ s, inv s → Resumes feed starved stopped body again s)
    (hmidst : ExtendsAt feed starved again s) (hagain : Resumes feed starved stopped again again s)
    (hinv : ∀ s', again s = .ok none s' → inv s') :
    Resumes feed starved stopped (loopFrom endless size body again)
      (loopFrom endless size body again) s := by
  refine .bind hmidst hagain (fun _ h ↦ h) (fun _ _ _ ↦ rfl) ?_
  intro result s' hresult
  cases result with
  | some a => exact .of_ok rfl
  | none => exact .loop_from hbody hextends inv hkeeps hpass (hinv s' hresult)

/-- A loop whose passes start again where they are interrupted starts again there. -/
theorem Resumes.loop_self (hbody : Shrinks size body) (hextends : Extends feed starved body)
    (inv : σ → Prop) (hkeeps : ∀ s s', inv s → body s = .ok none s' → inv s')
    (hpass : ∀ s, inv s → Resumes feed starved stopped body body s) (hinv : inv s) :
    Resumes feed starved stopped (Interruptible.loop endless size body)
      (Interruptible.loop endless size body) s := by
  refine (Resumes.loop_from hbody hextends inv hkeeps hpass hinv).restart ?_
  intro s' more _
  rw [loop_eq hbody]
  rfl

end Input

end Lib.Interruptible
