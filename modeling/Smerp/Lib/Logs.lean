import Mathlib.Data.List.Induction
import Mathlib.Data.List.Infix

/-!
# Logs

A log is what a system has written after each of its steps. It only grows. Two systems write the
same when each log of the one is a prefix of some log of the other: then they agree on every finite
part, also where they never stop writing.

`After good log more` says that each entry of `more` is good after what stands in front of it, `log`
included. A property of this form, once broken, stays broken.

A log of arrivals, each of which may bring several requests, says how many of them are served if at
most one of those that are waiting is served behind each arrival.
-/

namespace Lib.Logs

variable {α β : Type*}

/-- Every log of the first system is a prefix of a log of the second. -/
def Covered (first second : Nat → List α) : Prop := ∀ k, ∃ l, first k <+: second l

/-- Both systems write the same. -/
def Same (first second : Nat → List α) : Prop := Covered first second ∧ Covered second first

theorem Covered.trans {first second third : Nat → List α} (h : Covered first second)
    (h' : Covered second third) : Covered first third := by
  intro k
  obtain ⟨l, hl⟩ := h k
  obtain ⟨m, hm⟩ := h' l
  exact ⟨m, hl.trans hm⟩

theorem Same.symm {first second : Nat → List α} (h : Same first second) : Same second first :=
  ⟨h.2, h.1⟩

theorem Same.trans {first second third : Nat → List α} (h : Same first second)
    (h' : Same second third) : Same first third :=
  ⟨h.1.trans h'.1, h'.2.trans h.2⟩

/-- What is written symbol by symbol as words is the same if the symbols are. -/
theorem Same.flat_map {first second : Nat → List α} (h : Same first second) (word : α → List β) :
    Same (fun k ↦ (first k).flatMap word) (fun k ↦ (second k).flatMap word) := by
  have hcovered {log log' : Nat → List α} (hlog : Covered log log') :
      Covered (fun k ↦ (log k).flatMap word) (fun k ↦ (log' k).flatMap word) := by
    intro k
    obtain ⟨l, back, hback⟩ := hlog k
    exact ⟨l, back.flatMap word, by simp only [← hback, List.flatMap_append]⟩
  exact ⟨hcovered h.1, hcovered h.2⟩

/-- A later log starts with the earlier ones. -/
theorem grows {log : Nat → List α} (hgrow : ∀ k, log k <+: log (k + 1)) {k l : Nat} (h : k ≤ l) :
    log k <+: log l := by
  induction h with
  | refl => exact List.prefix_rfl
  | step _ ih => exact ih.trans (hgrow _)

/-- In systems that write the same any two logs agree as far as both go. -/
theorem Same.comparable {first second : Nat → List α} (h : Same first second)
    (hgrow : ∀ k, second k <+: second (k + 1)) (k l : Nat) :
    first k <+: second l ∨ second l <+: first k := by
  obtain ⟨m, hm⟩ := h.1 k
  have hall := grows hgrow (Nat.le_max_left m l)
  exact List.prefix_or_prefix_of_prefix (hm.trans hall) (grows hgrow (Nat.le_max_right m l))

/-- A system whose logs are prefixes of given words, and which writes at least as much as any of the
words, writes the same as the words. -/
theorem same_of_long {word log : Nat → List α} (hgrow : ∀ j, word j <+: word (j + 1))
    (hbound : ∀ k, ∃ j, log k <+: word j) (hlong : ∀ j, ∃ k, (word j).length ≤ (log k).length) :
    Same log word := by
  refine ⟨hbound, ?_⟩
  intro j
  obtain ⟨k, hk⟩ := hlong j
  obtain ⟨i, hi⟩ := hbound k
  have hall := grows hgrow (Nat.le_max_left i j)
  exact ⟨k, List.prefix_of_prefix_length_le (grows hgrow (Nat.le_max_right i j)) (hi.trans hall) hk⟩

end Lib.Logs

namespace Lib.History

variable {α : Type*} (good : List α → α → Prop)

/-- Each entry is good after the entries in front of it. -/
def After : List α → List α → Prop
  | _, [] => True
  | log, entry :: more => good log entry ∧ After (log ++ [entry]) more

instance decidableAfter [∀ log entry, Decidable (good log entry)] :
    ∀ log more, Decidable (After good log more)
  | _, [] => inferInstanceAs (Decidable True)
  | log, entry :: more =>
      have := decidableAfter (log ++ [entry]) more
      inferInstanceAs (Decidable (_ ∧ _))

variable {good} {log first second : List α}

/-- A concatenation is good if its parts are. -/
theorem after_append :
    After good log (first ++ second) ↔ After good log first ∧ After good (log ++ first) second := by
  induction first generalizing log with
  | nil => simp [After]
  | cons entry more ih =>
      show good log entry ∧ After good (log ++ [entry]) (more ++ second) ↔ _
      rw [ih, List.append_assoc, List.singleton_append, ← and_assoc]
      rfl

/-- Each entry is good after the entries in front of it. -/
theorem after_iff : After good log first ↔
    ∀ front entry back, first = front ++ entry :: back → good (log ++ front) entry := by
  induction first generalizing log with
  | nil => simp [After]
  | cons head more ih =>
      rw [After, ih]
      constructor
      · rintro ⟨hhead, hmore⟩ front entry back hsplit
        cases front with
        | nil =>
            obtain ⟨rfl, -⟩ := List.cons.inj hsplit
            rwa [List.append_nil]
        | cons other front =>
            obtain ⟨rfl, hback⟩ := List.cons.inj hsplit
            have hentry := hmore front entry back hback
            rwa [List.append_assoc] at hentry
      · intro h
        refine ⟨by simpa using h [] head more rfl, ?_⟩
        intro front entry back hsplit
        rw [List.append_assoc]
        exact h (head :: front) entry back (by rw [hsplit]; rfl)

/-- Entries that are good after any entries of the same kind. -/
theorem after_of_forall {kind : α → Prop}
    (hgood : ∀ seen entry, (∀ other ∈ seen, kind other) → kind entry → good (log ++ seen) entry)
    (h : ∀ entry ∈ first, kind entry) : After good log first := by
  have hgo (seen rest : List α) (hseen : ∀ entry ∈ seen, kind entry)
    (hrest : ∀ entry ∈ rest, kind entry) :
      After good (log ++ seen) rest := by
    induction rest generalizing seen with
    | nil => trivial
    | cons entry more ih =>
        refine ⟨hgood seen entry hseen (hrest entry (by simp)), ?_⟩
        rw [List.append_assoc]
        refine ih (seen ++ [entry]) ?_ fun other hother ↦ hrest other (by simp [hother])
        intro other hother
        rcases List.mem_append.mp hother with hold | hlast
        · exact hseen other hold
        · exact List.mem_singleton.mp hlast ▸ hrest entry (by simp)
  simpa using hgo [] first (by simp) h

end Lib.History

namespace Lib.Backlog

variable {α : Type*}

/-- How many requests are served: as many as at some point had been brought or still had an arrival
to come, and never more. -/
theorem served_iff (brought served : List α → Nat) (hbrought : brought [] = 0)
    (hserved : served [] = 0) (hstep : ∀ arrivals arrival, served (arrivals ++ [arrival]) =
      min (served arrivals + 1) (brought (arrivals ++ [arrival])))
    (arrivals : List α) (count : Nat) :
    served arrivals = count ↔
      (∀ front back, arrivals = front ++ back → count ≤ brought front + back.length) ∧
        ∃ front back, arrivals = front ++ back ∧ brought front + back.length = count := by
  have hall : (∀ front back, arrivals = front ++ back →
      served arrivals ≤ brought front + back.length) ∧
      ∃ front back, arrivals = front ++ back ∧ brought front + back.length = served arrivals := by
    induction arrivals using List.reverseRecOn with
    | nil =>
        refine ⟨fun front back _ ↦ by omega, [], [], rfl, ?_⟩
        rw [hbrought, hserved]
        rfl
    | append_singleton arrivals arrival ih =>
        obtain ⟨hle, front, back, hsplit, hsame⟩ := ih
        rw [hstep]
        constructor
        · intro front back hsplit
          rcases List.eq_nil_or_concat' back with rfl | ⟨back, last, rfl⟩
          · rw [List.append_nil] at hsplit
            rw [hsplit]
            exact Nat.min_le_right _ _
          · rw [← List.append_assoc] at hsplit
            have hfront := hle front back (List.append_inj' hsplit rfl).1
            rw [List.length_append, List.length_singleton]
            omega
        · by_cases hall : served arrivals + 1 ≤ brought (arrivals ++ [arrival])
          · refine ⟨front, back ++ [arrival], by rw [hsplit, List.append_assoc], ?_⟩
            rw [List.length_append, List.length_singleton]
            omega
          · refine ⟨arrivals ++ [arrival], [], (List.append_nil _).symm, ?_⟩
            rw [List.length_nil]
            omega
  obtain ⟨hle, front, back, hsplit, hsame⟩ := hall
  constructor
  · rintro rfl
    exact ⟨hle, front, back, hsplit, hsame⟩
  · rintro ⟨hcount, front', back', hsplit', hsame'⟩
    have hupper := hle front' back' hsplit'
    have hlower := hcount front back hsplit
    omega

end Lib.Backlog
