import Mathlib.Data.List.Basic

/-!
# Runs of a system under actions

A system moves from state to state by actions, which an environment chooses among those that are
possible. A run is the list of its actions. Each of the rules carries an invariant along a run:
`always_rule` along every run, `always_iff_rule` along those that keep a condition, and it says that
the first step to break the condition leads to a bad state. `each_iff_rule` is about the steps.

A transducer is a system that writes a list of symbols at each step. A word may be cut into pieces:
with the state carried over, the pieces write what the whole word does.
-/

namespace Lib.Runs

variable {σ α : Type*} (act : σ → α → σ)

/-- Every action of the run has the property in the state in which it is taken. -/
def Each (allows : σ → α → Prop) : σ → List α → Prop
  | _, [] => True
  | state, action :: more => allows state action ∧ Each allows (act state action) more

/-- Every state of the run has the property. -/
def Always (good : σ → Prop) : σ → List α → Prop
  | state, [] => good state
  | state, action :: more => good state ∧ Always good (act state action) more

/-- The state behind the run. -/
def last (state : σ) (actions : List α) : σ := actions.foldl act state

instance decidableEach (allows : σ → α → Prop) [∀ state action, Decidable (allows state action)] :
    ∀ state actions, Decidable (Each act allows state actions)
  | _, [] => inferInstanceAs (Decidable True)
  | state, action :: more =>
      have := decidableEach allows (act state action) more
      inferInstanceAs (Decidable (_ ∧ _))

variable {act} {inv good : σ → Prop} {allows clean : σ → α → Prop} {state : σ} {actions : List α}

/-- What holds in every state holds in the first one. -/
theorem Always.head (h : Always act good state actions) : good state := by
  cases actions with
  | nil => exact h
  | cons action more => exact h.1

/-- What follows from the property of each state holds in every state. -/
theorem Always.mono {good' : σ → Prop} (h : Always act good state actions)
    (himp : ∀ state, good state → good' state) : Always act good' state actions := by
  induction actions generalizing state with
  | nil => exact himp _ h
  | cons action more ih => exact ⟨himp _ h.1, ih h.2⟩

/-- Two properties of each action are one. -/
theorem Each.and (h : Each act allows state actions) (h' : Each act clean state actions) :
    Each act (fun state action ↦ allows state action ∧ clean state action) state actions := by
  induction actions generalizing state with
  | nil => trivial
  | cons action more ih => exact ⟨⟨h.1, h'.1⟩, ih h.2 h'.2⟩

/-- What every action has, every action of a run has. -/
theorem each_of_forall (h : ∀ state action, allows state action) :
    Each act allows state actions := by
  induction actions generalizing state with
  | nil => trivial
  | cons action more ih => exact ⟨h state action, ih⟩

/-- A system seen through a part of its state, on which it acts by itself. -/
theorem each_view {τ : Type*} {act' : τ → α → τ} (view : σ → τ) {allows : τ → α → Prop}
    (hview : ∀ state action, view (act state action) = act' (view state) action) :
    Each act (fun state action ↦ allows (view state) action) state actions ↔
      Each act' allows (view state) actions := by
  induction actions generalizing state with
  | nil => exact Iff.rfl
  | cons action more ih =>
      refine and_congr Iff.rfl ?_
      rw [← hview state action]
      exact ih

/-- The states of a system seen through a part of them. -/
theorem always_view {τ : Type*} {act' : τ → α → τ} (view : σ → τ) {good : τ → Prop}
    (hview : ∀ state action, view (act state action) = act' (view state) action) :
    Always act (fun state ↦ good (view state)) state actions ↔
      Always act' good (view state) actions := by
  induction actions generalizing state with
  | nil => exact Iff.rfl
  | cons action more ih =>
      refine and_congr Iff.rfl ?_
      rw [← hview state action]
      exact ih

/-- An invariant of every step holds along every run. -/
theorem always_rule (hstep : ∀ state action, inv state → allows state action →
    inv (act state action))
    (hinv : inv state) (hrun : Each act allows state actions) : Always act inv state actions := by
  induction actions generalizing state with
  | nil => exact hinv
  | cons action more ih => exact ⟨hinv, ih (hstep state action hinv hrun.1) hrun.2⟩

/-- An invariant of every action holds behind every run. -/
theorem last_rule (hstep : ∀ state action, inv state → inv (act state action)) (hinv : inv state)
    (actions : List α) : inv (last act state actions) := by
  induction actions generalizing state with
  | nil => exact hinv
  | cons action more ih => exact ih (hstep state action hinv)

/-- If clean steps are right and keep an invariant, then all steps of a clean run are right. -/
theorem each_rule {right : σ → α → Prop}
    (hstep : ∀ state action, inv state → allows state action →
      right state action ∧ inv (act state action))
    (hinv : inv state) (hrun : Each act allows state actions) : Each act right state actions := by
  induction actions generalizing state with
  | nil => trivial
  | cons action more ih =>
      obtain ⟨hright, hnext⟩ := hstep state action hinv hrun.1
      exact ⟨hright, ih hnext hrun.2⟩

/-- If at every step, from an invariant, being right is the same as being clean, then the steps of a
run are all right exactly if they are all clean. -/
theorem each_iff_rule {right : σ → α → Prop}
    (hstep : ∀ state action, inv state → allows state action →
      (right state action ↔ clean state action) ∧ inv (act state action))
    (hinv : inv state) (hrun : Each act allows state actions) :
    Each act right state actions ↔ Each act clean state actions := by
  induction actions generalizing state with
  | nil => exact Iff.rfl
  | cons action more ih =>
      obtain ⟨hsame, hnext⟩ := hstep state action hinv hrun.1
      exact and_congr hsame (ih hnext hrun.2)

/-- If an invariant of the clean steps makes states good, and a step that is not clean leads from
the invariant to a bad state, then a run stays good exactly if all its steps are clean. -/
theorem always_iff_rule
    (hstep : ∀ state action, inv state → allows state action → clean state action →
      inv (act state action))
    (hgood : ∀ state, inv state → good state)
    (hbad : ∀ state action, inv state → allows state action → ¬ clean state action →
      ¬ good (act state action))
    (hinv : inv state) (hrun : Each act allows state actions) :
    Always act good state actions ↔ Each act clean state actions := by
  induction actions generalizing state with
  | nil => exact ⟨fun _ ↦ trivial, fun _ ↦ hgood state hinv⟩
  | cons action more ih =>
      by_cases hclean : clean state action
      · have hrest := ih (hstep state action hinv hrun.1 hclean) hrun.2
        exact ⟨fun h ↦ ⟨hclean, hrest.mp h.2⟩, fun h ↦ ⟨hgood state hinv, hrest.mpr h.2⟩⟩
      · exact ⟨fun h ↦ absurd h.2.head (hbad state action hinv hrun.1 hclean),
          fun h ↦ absurd h.1 hclean⟩

end Lib.Runs

namespace Lib.Transducer

variable {σ α β : Type*} (delta : σ → α → σ × List β)

/-- The state reached on a word, and the output written on the way. -/
def feed : σ → List α → σ × List β
  | state, [] => (state, [])
  | state, symbol :: word =>
      let (next, written) := delta state symbol
      let (final, rest) := feed next word
      (final, written ++ rest)

@[simp] theorem feed_nil (state : σ) : feed delta state [] = (state, []) := rfl

theorem feed_cons (state : σ) (symbol : α) (word : List α) :
    feed delta state (symbol :: word) =
      ((feed delta (delta state symbol).1 word).1,
        (delta state symbol).2 ++ (feed delta (delta state symbol).1 word).2) := rfl

/-- Feeding a concatenation feeds its parts one after the other. -/
theorem feed_append (state : σ) (first second : List α) :
    feed delta state (first ++ second) =
      ((feed delta (feed delta state first).1 second).1,
        (feed delta state first).2 ++ (feed delta (feed delta state first).1 second).2) := by
  induction first generalizing state with
  | nil => simp
  | cons symbol word ih => simp [feed_cons, ih]

end Lib.Transducer
