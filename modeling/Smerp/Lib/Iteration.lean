import Mathlib.Logic.Function.Iterate
import Mathlib.Logic.Relation

/-!
# Bounded execution of loops

Two loop forms of imperative code, executed with a bound on the number of passes. `whileDo`
is `while (test) body` over a total body. `forEver` is `for (;;) body` where a pass may throw,
go round again, or return. Each comes with its total-correctness rule: an invariant together
with a variant that bounds the number of passes.
-/

namespace Lib

variable {σ ρ ε : Type*}

/-- Run `while (test) body` for at most this many passes. -/
def whileDo (test : σ → Bool) (body : σ → σ) : Nat → σ → σ
  | 0, state => state
  | fuel + 1, state => if test state then whileDo test body fuel (body state) else state

/-- A loop whose body keeps the invariant and decreases the variant leaves the loop with the
invariant true and the test false, provided the bound reaches the initial variant. -/
theorem while_do_rule (test : σ → Bool) (body : σ → σ) (inv : σ → Prop) (variant : σ → Nat)
    (hbody : ∀ state, inv state → test state = true →
      inv (body state) ∧ variant (body state) < variant state)
    (fuel : Nat) (state : σ) (hinv : inv state) (hfuel : variant state ≤ fuel)
    (hzero : ∀ state, inv state → variant state = 0 → test state = false) :
    inv (whileDo test body fuel state) ∧ test (whileDo test body fuel state) = false := by
  induction fuel generalizing state with
  | zero => exact ⟨hinv, hzero state hinv (by omega)⟩
  | succ fuel ih =>
      simp only [whileDo]
      cases htest : test state with
      | false => simpa using ⟨hinv, htest⟩
      | true =>
          obtain ⟨hnext, hlt⟩ := hbody state hinv htest
          simpa using ih (body state) hnext (by omega)

/-- The number of passes that a loop makes is at most the initial variant. The invariant holds in
front of each pass and at the end. -/
theorem while_do_count (test : σ → Bool) (body : σ → σ) (inv : σ → Prop) (variant : σ → Nat)
    (hbody : ∀ state, inv state → test state = true →
      inv (body state) ∧ variant (body state) < variant state) (state : σ) (hinv : inv state) :
    ∃ count ≤ variant state, (∀ k < count, test (body^[k] state) = true) ∧
      test (body^[count] state) = false ∧ ∀ k ≤ count, inv (body^[k] state) := by
  induction hsize : variant state using Nat.strongRecOn generalizing state with
  | ind size ih =>
      cases htest : test state with
      | false =>
          refine ⟨0, Nat.zero_le _, fun k hk ↦ absurd hk (Nat.not_lt_zero k), htest, ?_⟩
          intro k hk
          obtain rfl := Nat.le_zero.mp hk
          exact hinv
      | true =>
          obtain ⟨hnext, hlt⟩ := hbody state hinv htest
          obtain ⟨count, hle, hruns, hends, hkeeps⟩ :=
            ih (variant (body state)) (hsize ▸ hlt) (body state) hnext rfl
          refine ⟨count + 1, by omega, ?_, hends, ?_⟩
          · intro k hk
            cases k with
            | zero => exact htest
            | succ k => exact hruns k (by omega)
          · intro k hk
            cases k with
            | zero => exact hinv
            | succ k => exact hkeeps k (by omega)

/-- A loop that ends after this many passes, executed with a bound that reaches them. -/
theorem while_do_iterate {test : σ → Bool} {body : σ → σ} {count fuel : Nat} {state : σ}
    (hruns : ∀ k < count, test (body^[k] state) = true) (hends : test (body^[count] state) = false)
    (hle : count ≤ fuel) : whileDo test body fuel state = body^[count] state := by
  induction count generalizing fuel state with
  | zero =>
      have hstop : test state = false := hends
      cases fuel with
      | zero => rfl
      | succ fuel => simp [whileDo, hstop]
  | succ count ih =>
      obtain ⟨fuel, rfl⟩ : ∃ more, fuel = more + 1 := ⟨fuel - 1, by omega⟩
      have hfirst : test state = true := hruns 0 (Nat.zero_lt_succ count)
      rw [whileDo, if_pos hfirst]
      exact ih (fun k hk ↦ hruns (k + 1) (by omega)) hends (by omega)

/-- A loop whose passes the abstract loop follows is the abstract loop. -/
theorem while_do_simulation {τ : Type*} (view : σ → τ) (test : σ → Bool) (body : σ → σ)
    (test' : τ → Bool) (body' : τ → τ) (inv : σ → Prop)
    (hbody : ∀ state, inv state → test state = true →
      inv (body state) ∧ view (body state) = body' (view state))
    (htest : ∀ state, test state = test' (view state)) (fuel : Nat) (state : σ) (hinv : inv state) :
    view (whileDo test body fuel state) = whileDo test' body' fuel (view state) := by
  induction fuel generalizing state with
  | zero => rfl
  | succ fuel ih =>
      simp only [whileDo]
      rw [← htest state]
      cases hgoes : test state with
      | false => rfl
      | true =>
          obtain ⟨hnext, hview⟩ := hbody state hinv hgoes
          rw [if_pos rfl, if_pos rfl, ← hview]
          exact ih (body state) hnext

/-- Run `for (;;) body` for at most this many passes. A pass throws, goes round again with a new
state, or returns a result; `none` says the bound was too small. -/
def forEver (body : σ → Except ε (σ × Option ρ)) : Nat → σ → Option (Except ε (σ × ρ))
  | 0, _ => none
  | fuel + 1, state =>
      match body state with
      | .error fault => some (.error fault)
      | .ok (next, some result) => some (.ok (next, result))
      | .ok (next, none) => forEver body fuel next

/-- One pass of the body that goes round again. -/
def Again (body : σ → Except ε (σ × Option ρ)) (state next : σ) : Prop :=
  body state = .ok (next, none)

/-- A larger bound does not change the outcome of a loop that has ended. -/
theorem for_ever_mono {body : σ → Except ε (σ × Option ρ)} {fuel more : Nat} {state : σ}
    {outcome : Except ε (σ × ρ)} (h : forEver body fuel state = some outcome)
    (hle : fuel ≤ more) : forEver body more state = some outcome := by
  induction fuel generalizing more state with
  | zero => simp [forEver] at h
  | succ fuel ih =>
      obtain ⟨more, rfl⟩ : ∃ k, more = k + 1 := ⟨more - 1, by omega⟩
      simp only [forEver] at h ⊢
      cases hbody : body state with
      | error fault => simpa [hbody] using h
      | ok pair =>
          obtain ⟨next, result⟩ := pair
          cases result with
          | some result => simpa [hbody] using h
          | none => exact ih (by simpa [hbody] using h) (by omega)

/-- If every pass from an invariant state either goes round again with the invariant kept and the
variant decreased, or returns, then the loop returns, and its last pass starts in a state that
satisfies the invariant and is reached by passes that go round again. -/
theorem for_ever_rule {body : σ → Except ε (σ × Option ρ)} (inv : σ → Prop) (variant : σ → Nat)
    (hbody : ∀ state, inv state → ∃ next result, body state = .ok (next, result) ∧
      (result = none → inv next ∧ variant next < variant state))
    (fuel : Nat) (state : σ) (hinv : inv state) (hfuel : variant state < fuel) :
    ∃ last next result, Relation.ReflTransGen (Again body) state last ∧ inv last ∧
      body last = .ok (next, some result) ∧
      forEver body fuel state = some (.ok (next, result)) := by
  induction fuel generalizing state with
  | zero => omega
  | succ fuel ih =>
      obtain ⟨next, result, hpass, hagain⟩ := hbody state hinv
      cases result with
      | some result =>
          exact ⟨state, next, result, .refl, hinv, hpass, by simp [forEver, hpass]⟩
      | none =>
          obtain ⟨hnext, hlt⟩ := hagain rfl
          obtain ⟨last, final, result, hpath, hlast, hreturn, hrun⟩ :=
            ih next hnext (by omega)
          exact ⟨last, final, result, .head hpass hpath, hlast, hreturn,
            by simpa [forEver, hpass] using hrun⟩

/-- If every step writes something or leaves less work to do, as long as `done` does not hold, and
no more than `goal` is written in front of it, then `done` holds at some time. -/
theorem eventually_rule {step : σ → σ} (inv done : σ → Prop) (written work : σ → Nat) (goal : Nat)
    (hstep : ∀ state, inv state → ¬ done state → inv (step state) ∧ (done (step state) ∨
      written state < written (step state) ∧ work (step state) = work state ∨
      written state = written (step state) ∧ work (step state) < work state))
    (hgoal : ∀ state, inv state → ¬ done state → written state < goal) (state : σ)
    (hinv : inv state) : ∃ count, done (step^[count] state) := by
  by_cases hdone : done state
  · exact ⟨0, hdone⟩
  · obtain ⟨hnext, hprogress⟩ := hstep state hinv hdone
    have hless := hgoal state hinv hdone
    rcases hprogress with hthere | hprogress
    · exact ⟨1, hthere⟩
    · have hdecreases : work (step state) + (goal - written (step state)) <
          work state + (goal - written state) := by omega
      obtain ⟨count, hcount⟩ :=
        eventually_rule inv done written work goal hstep hgoal (step state) hnext
      exact ⟨count + 1, hcount⟩
termination_by work state + (goal - written state)

end Lib
