import Mathlib.Data.List.TakeWhile

/-!
# Splitting a list

A list splits in front of its first element that fails a test, in one way only. A stream splits into
complete lines, each of which ends with a separator. What stands behind the last separator is no
line yet.
-/

namespace Lib

variable {α : Type*} (test : α → Bool)

/-- A list splits in front of its first element that fails the test. -/
theorem split_while (l : List α) :
    (∀ x ∈ l, test x = true) ∨ ∃ front x back, l = front ++ x :: back ∧
      (∀ y ∈ front, test y = true) ∧ test x = false := by
  induction l with
  | nil => exact .inl (by simp)
  | cons y rest ih =>
      cases hy : test y with
      | false => exact .inr ⟨[], y, rest, rfl, by simp, hy⟩
      | true =>
          rcases ih with hall | ⟨front, x, back, rfl, hfront, hx⟩
          · exact .inl (by simpa [hy] using hall)
          · exact .inr ⟨y :: front, x, back, rfl, by simpa [hy] using hfront, hx⟩

variable {test}

/-- The first element that fails a test ends the front that passes it. -/
theorem take_while_split {front : List α} {x : α} (back : List α)
    (hfront : ∀ y ∈ front, test y = true)
    (hx : test x = false) : (front ++ x :: back).takeWhile test = front := by
  rw [List.takeWhile_append_of_pos hfront, List.takeWhile_cons_of_neg (by simp [hx]),
    List.append_nil]

/-- What stands behind an element that fails the test is not taken. -/
theorem take_while_stop (l : List α) {x : α} (back : List α) (hx : test x = false) :
    (l ++ x :: back).takeWhile test = l.takeWhile test := by
  induction l with
  | nil => rw [List.nil_append, List.takeWhile_cons_of_neg (by simp [hx]), List.takeWhile_nil]
  | cons y rest ih => rw [List.cons_append, List.takeWhile_cons, List.takeWhile_cons, ih]

/-- Behind the front that passes a test stands the first element that fails it. -/
theorem drop_while_split {front : List α} {x : α} (back : List α)
    (hfront : ∀ y ∈ front, test y = true)
    (hx : test x = false) : (front ++ x :: back).dropWhile test = x :: back := by
  rw [List.dropWhile_append_of_pos hfront, List.dropWhile_cons_of_neg (by simp [hx])]

/-- The first element that fails a test splits a list in one way only. -/
theorem split_unique {front front' back back' : List α} {x x' : α}
    (h : front ++ x :: back = front' ++ x' :: back') (hfront : ∀ y ∈ front, test y = true)
    (hx : test x = false) (hfront' : ∀ y ∈ front', test y = true) (hx' : test x' = false) :
    front = front' ∧ x = x' ∧ back = back' := by
  have htake := congrArg (List.takeWhile test) h
  have hdrop := congrArg (List.dropWhile test) h
  rw [take_while_split back hfront hx, take_while_split back' hfront' hx'] at htake
  rw [drop_while_split back hfront hx, drop_while_split back' hfront' hx'] at hdrop
  obtain ⟨hsame, hback⟩ := List.cons.inj hdrop
  exact ⟨htake, hsame, hback⟩

/-- Elements that pass a test stand in front of the first one that fails it. -/
theorem split_front {front back front' back' : List α} {x' : α}
    (h : front ++ back = front' ++ x' :: back') (hfront : ∀ y ∈ front, test y = true)
    (hx' : test x' = false) : ∃ rest, front' = front ++ rest ∧ back = rest ++ x' :: back' := by
  rcases List.append_eq_append_iff.mp h with ⟨rest, hrest, hback⟩ | ⟨rest, hrest, hback⟩
  · exact ⟨rest, hrest, hback⟩
  · cases rest with
    | nil => exact ⟨[], by simpa using hrest.symm, by simpa using hback.symm⟩
    | cons first rest =>
        obtain ⟨rfl, -⟩ : x' = first ∧ _ := by simpa using hback
        have hpass := hfront x' (by simp [hrest])
        simp [hpass] at hx'

end Lib

namespace Lib.Lines

variable {α : Type*} [DecidableEq α] (sep : α)

/-- The complete lines, without their separators, where the first one has begun with `start`. -/
def linesFrom : List α → List α → List (List α)
  | _, [] => []
  | start, x :: rest =>
      if x = sep then start :: linesFrom [] rest else linesFrom (start ++ [x]) rest

/-- The complete lines of a stream. -/
def lines (stream : List α) : List (List α) := linesFrom sep [] stream

variable {sep}

/-- Without a separator no line is complete. -/
theorem lines_of_not_mem {stream : List α} (h : sep ∉ stream) : lines sep stream = [] := by
  have hgo (start : List α) : linesFrom sep start stream = [] := by
    induction stream generalizing start with
    | nil => rfl
    | cons x rest ih =>
        have hx : x ≠ sep := fun heq ↦ h (by simp [heq])
        rw [linesFrom, if_neg hx]
        exact ih (fun hrest ↦ h (by simp [hrest])) _
  exact hgo []

/-- The first separator completes the first line. -/
theorem lines_append_cons {line : List α} (h : sep ∉ line) (rest : List α) :
    lines sep (line ++ sep :: rest) = line :: lines sep rest := by
  have hgo (start : List α) :
      linesFrom sep start (line ++ sep :: rest) = (start ++ line) :: lines sep rest := by
    induction line generalizing start with
    | nil => rw [List.nil_append, linesFrom, if_pos rfl, List.append_nil, lines]
    | cons x more ih =>
        have hx : x ≠ sep := fun heq ↦ h (by simp [heq])
        rw [List.cons_append, linesFrom, if_neg hx, ih fun hmore ↦ h (by simp [hmore]),
          List.append_assoc]
        rfl
  exact hgo []

/-- A stream has a first complete line, or none. -/
theorem first_line (sep : α) (stream : List α) :
    sep ∉ stream ∨ ∃ line rest, stream = line ++ sep :: rest ∧ sep ∉ line := by
  by_cases h : sep ∈ stream
  · exact .inr (List.eq_append_cons_of_mem h)
  · exact .inl h

end Lib.Lines
