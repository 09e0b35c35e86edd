import Mathlib.Data.List.Count

/-!
# Objects that are in one place at a time

Each place holds a list of objects. `Exclusive` says that every known object is held once, by one
place, and no other object by any. Moving an object from one place to another keeps this, and so
does bringing in an object that was not known.
-/

namespace Lib.Custody

variable {π ω : Type*} [DecidableEq ω]

/-- The object is held once, by one place. -/
def Sole (holds : π → List ω) (object : ω) : Prop :=
  ∃ place, (holds place).count object = 1 ∧ ∀ other, other ≠ place → object ∉ holds other

/-- Every known object is held once, and no other object at all. -/
structure Exclusive (holds : π → List ω) (known : ω → Prop) : Prop where
  sole : ∀ object, known object → Sole holds object
  fresh : ∀ object, ¬ known object → ∀ place, object ∉ holds place

variable {holds after : π → List ω} {known : ω → Prop} {object : ω}

/-- Which objects there are is told by how often each place holds them. -/
theorem Sole.congr (h : Sole holds object)
    (hsame : ∀ place, (after place).count object = (holds place).count object) :
    Sole after object := by
  obtain ⟨place, hone, hother⟩ := h
  refine ⟨place, (hsame place).trans hone, ?_⟩
  intro other hne
  rw [← List.count_eq_zero, hsame, List.count_eq_zero]
  exact hother other hne

/-- The place that holds a known object. -/
theorem Sole.place {place : π} (h : Sole holds object) (hmem : object ∈ holds place) :
    (holds place).count object = 1 ∧ ∀ other, other ≠ place → object ∉ holds other := by
  obtain ⟨sole, hone, hother⟩ := h
  have heq : place = sole := by
    by_contra hne
    exact hother place hne hmem
  exact heq ▸ ⟨hone, hother⟩

variable [DecidableEq π]

/-- Moving an object from one place to another keeps the others where they are. -/
theorem Exclusive.move (h : Exclusive holds known) (object : ω) (source target : π)
    (hne : source ≠ target) (hmem : object ∈ holds source)
    (hsource : (holds source).Perm (object :: after source))
    (htarget : (after target).Perm (object :: holds target))
    (hother : ∀ place, place ≠ source → place ≠ target → after place = holds place) :
    Exclusive after known := by
  have hknown : known object := by
    by_contra hnot
    exact h.fresh object hnot source hmem
  have hcount (x : ω) (hx : x ≠ object) (place : π) :
      (after place).count x = (holds place).count x := by
    by_cases hs : place = source
    · rw [hs, hsource.count_eq, List.count_cons_of_ne hx.symm]
    by_cases ht : place = target
    · rw [ht, htarget.count_eq, List.count_cons_of_ne hx.symm]
    · rw [hother place hs ht]
  constructor
  · intro x hx
    by_cases heq : x = object
    · subst heq
      obtain ⟨hone, hnone⟩ := (h.sole x hx).place hmem
      rw [hsource.count_eq, List.count_cons_self] at hone
      refine ⟨target, ?_, ?_⟩
      · rw [htarget.count_eq, List.count_cons_self,
          List.count_eq_zero.mpr (hnone target hne.symm)]
      · intro place hplace
        by_cases hs : place = source
        · rw [hs, ← List.count_eq_zero]
          omega
        · rw [hother place hs hplace]
          exact hnone place hs
    · exact (h.sole x hx).congr (hcount x heq)
  · intro x hx place
    have heq : x ≠ object := by
      rintro rfl
      exact hx hknown
    rw [← List.count_eq_zero, hcount x heq place, List.count_eq_zero]
    exact h.fresh x hx place

/-- Bringing in an object that was not known. -/
theorem Exclusive.bring {target : π} (h : Exclusive holds known) (hnew : ¬ known object)
    (htarget : (after target).Perm (object :: holds target))
    (hother : ∀ place, place ≠ target → after place = holds place) :
    Exclusive after (fun x ↦ known x ∨ x = object) := by
  have hcount (x : ω) (hx : x ≠ object) (place : π) :
      (after place).count x = (holds place).count x := by
    by_cases ht : place = target
    · rw [ht, htarget.count_eq, List.count_cons_of_ne hx.symm]
    · rw [hother place ht]
  constructor
  · intro x hx
    by_cases heq : x = object
    · subst heq
      refine ⟨target, ?_, ?_⟩
      · rw [htarget.count_eq, List.count_cons_self,
          List.count_eq_zero.mpr (h.fresh x hnew target)]
      · intro place hplace
        rw [hother place hplace]
        exact h.fresh x hnew place
    · exact (h.sole x (hx.resolve_right heq)).congr (hcount x heq)
  · intro x hx place
    rw [not_or] at hx
    rw [← List.count_eq_zero, hcount x hx.2 place, List.count_eq_zero]
    exact h.fresh x hx.1 place

end Lib.Custody
