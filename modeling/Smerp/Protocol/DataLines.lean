import Mathlib.Data.Nat.Find
import Mathlib.Tactic.IntervalCases
import Smerp.Lib.Splits
import Smerp.Protocol.EndOfData

/-!
# The end-of-data scan seen by lines

A line start is the position behind a line feed. Seen by lines, the data ends at the first line
start that is followed by a dot and a line end, and the leading dot of every line in front of it
is removed. `recognised_by_lines_iff` says on which streams `getEoD` does this: those where no dot
stands behind an even number of consecutive line feeds. After the second of two line feeds the
scanner is back in the state `SRC`, so it takes the line start there for the middle of a line.
-/

namespace Smerp.Protocol.EoD

open Lib

/-! ## The view by lines -/

/-- The position directly behind a line feed. -/
def LineStart (stream : List Byte) (i : Nat) : Prop := 0 < i ∧ stream[i - 1]? = some LF

/-- The leading dot of a line. -/
def LeadingDot (stream : List Byte) (i : Nat) : Prop := LineStart stream i ∧ stream[i]? = some DOT

/-- A line start followed by a dot and a line end. -/
def EndsHere (stream : List Byte) (i : Nat) : Prop :=
  LeadingDot stream i ∧ (stream[i + 1]? = some CR ∨ stream[i + 1]? = some LF)

instance (stream : List Byte) (i : Nat) : Decidable (LineStart stream i) :=
  inferInstanceAs (Decidable (_ ∧ _))

instance (stream : List Byte) (i : Nat) : Decidable (LeadingDot stream i) :=
  inferInstanceAs (Decidable (_ ∧ _))

instance (stream : List Byte) (i : Nat) : Decidable (EndsHere stream i) :=
  inferInstanceAs (Decidable (_ ∧ _))

/-- The data ends at position `i` and not earlier. -/
def FirstEnd (stream : List Byte) (i : Nat) : Prop :=
  EndsHere stream i ∧ ∀ j < i, ¬ EndsHere stream j

/-- The byte at position `i`, or nothing if it is a leading dot. -/
def keptAt (stream : List Byte) (i : Nat) : List Byte :=
  if LeadingDot stream i then [] else stream[i]?.toList

/-- The bytes in front of a position without the leading dots of the lines. -/
def unstuffed (stream : List Byte) (upTo : Nat) : List Byte :=
  (List.range upTo).flatMap (keptAt stream)

/-- The calls of `getEoD` recognise the end of data by lines: if the data never ends, all bytes but
the leading dots are left and every call returns `end()`. If it first ends at `i`, the bytes left
are the data in front of `i` without leading dots, a placeholder and the bytes behind the mark,
and exactly one call returns a position in front of `end()`, that of the placeholder. -/
def RecognisedByLines (stream : List Byte) (calls : List (Nat × InputBlock)) : Prop :=
  ((∀ i, ¬ EndsHere stream i) →
    calls.flatMap bytesLeft = unstuffed stream stream.length ∧
      ∀ call ∈ calls, call.1 = call.2.pos) ∧
  ∀ i, FirstEnd stream i →
    (∃ placeholder, calls.flatMap bytesLeft =
      unstuffed stream i ++ placeholder :: stream.drop (i + 2)) ∧
    ∃ before call after, calls = before ++ call :: after ∧ call.1 < call.2.pos ∧
      (before.flatMap bytesLeft).length + call.1 = (unstuffed stream i).length ∧
      ∀ other ∈ before ++ after, other.1 = other.2.pos

/-- The number of consecutive line feeds directly in front of a position. -/
def newlinesBefore (stream : List Byte) : Nat → Nat
  | 0 => 0
  | i + 1 => if stream[i]? = some LF then newlinesBefore stream i + 1 else 0

/-- Up to the end of data no dot stands behind an even, positive number of line feeds. -/
def NoDotBehindEvenNewlines (stream : List Byte) : Prop :=
  ∀ i, stream[i]? = some DOT → (∀ j < i, ¬ EndsHere stream j) →
    Even (newlinesBefore stream i) → newlinesBefore stream i = 0

/-- The position where the block that contains a stream position starts. -/
def blockStart : List (List Byte) → Nat → Nat
  | [], _ => 0
  | bytes :: more, pos =>
      if pos < bytes.length then 0 else bytes.length + blockStart more (pos - bytes.length)

/-- In the block where the data ends, fewer than `2 ^ 31` bytes are kept in front of the mark. -/
def MarkFitsInt (blocks : List (List Byte)) : Prop :=
  ∀ i, FirstEnd blocks.flatten i → (unstuffed blocks.flatten (i + 1)).length <
    (unstuffed blocks.flatten (blockStart blocks (i + 1))).length + 2 ^ 31

/-! ## The automaton of the lines -/

/-- The scan of an automaton that stays in `lf` at a further line feed. -/
def lineScan : Phase → List Byte → Scan
  | phase, [] => .unmarked [] phase
  | .src, ch :: rest => (lineScan (if ch = LF then .lf else .src) rest).prepend [ch]
  | .lf, ch :: rest =>
      if ch = DOT then lineScan .lfDot rest
      else (lineScan (if ch = LF then .lf else .src) rest).prepend [ch]
  | .lfDot, ch :: rest =>
      if ch = CR ∨ ch = LF then .marked [] ch rest else (lineScan .src rest).prepend [ch]
  | .done, ch :: rest => (lineScan .done rest).prepend [ch]

@[simp] theorem line_scan_nil (phase : Phase) : lineScan phase [] = .unmarked [] phase := by
  cases phase <;> rfl

/-- The state of the line automaton at a position. -/
def linePhase (stream : List Byte) (i : Nat) : Phase :=
  if LineStart stream i then .lf
  else if 0 < i ∧ LeadingDot stream (i - 1) then .lfDot
  else .src

/-- The state of the scanner at a position that it reached in step with the line automaton. -/
def scanPhase (stream : List Byte) (i : Nat) : Phase :=
  if newlinesBefore stream i % 2 = 1 then .lf
  else if newlinesBefore stream i = 0 then linePhase stream i
  else .src

theorem line_start_succ (stream : List Byte) (i : Nat) :
    LineStart stream (i + 1) ↔ stream[i]? = some LF := by
  simp [LineStart]

/-- A line start is a position with a line feed in front of it. -/
theorem newlines_before_pos_iff (stream : List Byte) (i : Nat) :
    0 < newlinesBefore stream i ↔ LineStart stream i := by
  cases i with
  | zero => simp [newlinesBefore, LineStart]
  | succ i =>
      rw [line_start_succ, newlinesBefore]
      split <;> simp_all

/-- Both automata keep the same byte of a position, if any, and stay in step. -/
def KeepsStep (stream : List Byte) (i : Nat) (ch : Byte) (rest : List Byte) : Prop :=
  (0 < i → ¬ EndsHere stream (i - 1)) ∧
    (ch = DOT → Even (newlinesBefore stream i) → newlinesBefore stream i = 0) ∧
    scan (scanPhase stream i) (ch :: rest) =
      (scan (scanPhase stream (i + 1)) rest).prepend (keptAt stream i) ∧
    lineScan (linePhase stream i) (ch :: rest) =
      (lineScan (linePhase stream (i + 1)) rest).prepend (keptAt stream i)

section

variable {stream : List Byte} {i : Nat} {ch : Byte}

/-- The line feeds in front of the next position. -/
theorem newlines_before_succ (hch : stream[i]? = some ch) : newlinesBefore stream (i + 1) =
    if ch = LF then newlinesBefore stream i + 1 else 0 := by
  simp [newlinesBefore, hch]

/-- The next position starts a line behind a line feed. -/
theorem line_start_behind (hch : stream[i]? = some ch) :
    LineStart stream (i + 1) ↔ ch = LF := by
  rw [line_start_succ, hch, Option.some.injEq]

/-- At the start of a line the scanner misses a leading dot behind an even number of line feeds, and
stays in step otherwise. -/
theorem in_step_line_start (hch : stream[i]? = some ch) (hline : LineStart stream i)
    (rest : List Byte) :
    (ch = DOT ∧ Even (newlinesBefore stream i) ∧ 0 < newlinesBefore stream i ∧
        scan (scanPhase stream i) (ch :: rest) = (scan .src rest).prepend [ch] ∧
        lineScan (linePhase stream i) (ch :: rest) = lineScan .lfDot rest) ∨
      KeepsStep stream i ch rest := by
  have hnext := line_start_behind hch
  have hcount := newlines_before_succ hch
  -- a leading dot at `i - 1` would stand where the line feed is
  have hopen : 0 < i → ¬ EndsHere stream (i - 1) := fun _ hends ↦ by
    have hdot := hends.1.2.symm.trans hline.2
    simp [DOT, LF] at hdot
  have hpos := (newlines_before_pos_iff stream i).mpr hline
  have hphase : linePhase stream i = .lf := if_pos hline
  have hdots (hdot : ch ≠ DOT) : ¬ LeadingDot stream i := fun h ↦
    hdot (Option.some.inj (hch.symm.trans h.2))
  by_cases hodd : newlinesBefore stream i % 2 = 1
  · have hscanner : scanPhase stream i = .lf := if_pos hodd
    refine .inr ⟨hopen, ?_, ?_⟩
    · intro _ heven
      rw [Nat.even_iff] at heven
      omega
    · rw [hscanner, hphase]
      by_cases hdot : ch = DOT
      · subst hdot
        have hleading : LeadingDot stream i := ⟨hline, hch⟩
        have hlf : ¬ LineStart stream (i + 1) := fun h ↦ absurd (hnext.mp h) (by decide)
        simp [scan, lineScan, keptAt, hleading, scanPhase, linePhase, hcount, hlf,
          show DOT ≠ LF by decide]
      · by_cases hlf : ch = LF
        · have heven : ¬ (newlinesBefore stream i + 1) % 2 = 1 := by omega
          simp [scan, lineScan, keptAt, hdots hdot, hch, scanPhase, linePhase, hcount, hnext, hlf,
            show LF ≠ DOT by decide, heven]
        · simp [scan, lineScan, keptAt, hdots hdot, hch, scanPhase, linePhase, hcount, hnext, hlf,
            hdot]
  · have hscanner : scanPhase stream i = .src := by
      simp [scanPhase, hodd, Nat.ne_of_gt hpos]
    by_cases hdot : ch = DOT
    · refine .inl ⟨hdot, Nat.even_iff.mpr (by omega), hpos, ?_, ?_⟩
      · simp [hscanner, scan, hdot, show DOT ≠ LF by decide]
      · simp [hphase, lineScan, hdot]
    · refine .inr ⟨hopen, fun h ↦ absurd h hdot, ?_⟩
      rw [hscanner, hphase]
      by_cases hlf : ch = LF
      · have hodd' : (newlinesBefore stream i + 1) % 2 = 1 := by omega
        simp [scan, lineScan, keptAt, hdots hdot, hch, scanPhase, linePhase, hcount, hnext, hlf,
          show LF ≠ DOT by decide, hodd']
      · simp [scan, lineScan, keptAt, hdots hdot, hch, scanPhase, linePhase, hcount, hnext, hlf,
          hdot]

/-- Inside of a line both automata mark the end, or stay in step. -/
theorem in_step_inside (hch : stream[i]? = some ch) (hline : ¬ LineStart stream i)
    (rest : List Byte) :
    (0 < i ∧ EndsHere stream (i - 1) ∧ scan (scanPhase stream i) (ch :: rest) = .marked [] ch rest ∧
        lineScan (linePhase stream i) (ch :: rest) = .marked [] ch rest) ∨
      KeepsStep stream i ch rest := by
  have hnext := line_start_behind hch
  have hcount := newlines_before_succ hch
  have hzero : newlinesBefore stream i = 0 :=
    Nat.eq_zero_of_not_pos (mt (newlines_before_pos_iff stream i).mp hline)
  have hsame : scanPhase stream i = linePhase stream i := by simp [scanPhase, hzero]
  have hdots : ¬ LeadingDot stream i := fun h ↦ hline h.1
  rw [KeepsStep, hsame]
  by_cases hbehind : 0 < i ∧ LeadingDot stream (i - 1)
  · have hphase : linePhase stream i = .lfDot := by simp [linePhase, hline, hbehind]
    rw [hphase]
    have hback : i - 1 + 1 = i := by omega
    by_cases hend : ch = CR ∨ ch = LF
    · refine .inl ⟨hbehind.1, ⟨hbehind.2, ?_⟩, by simp [scan, hend], by simp [lineScan, hend]⟩
      simpa [hback, hch] using hend
    · refine .inr ⟨fun _ hends ↦ hend ?_, fun _ _ ↦ hzero, ?_⟩
      · simpa [hback, hch] using hends.2
      · obtain ⟨hcr, hlf⟩ := not_or.mp hend
        simp [scan, lineScan, keptAt, hdots, hch, scanPhase, linePhase, hcount, hnext, hlf, hcr]
  · have hphase : linePhase stream i = .src := by simp [linePhase, hline, hbehind]
    rw [hphase]
    refine .inr ⟨fun hi hends ↦ hbehind ⟨hi, hends.1⟩, fun _ _ ↦ hzero, ?_⟩
    by_cases hlf : ch = LF
    · simp [scan, lineScan, keptAt, hdots, hch, scanPhase, linePhase, hcount, hnext, hlf, hzero]
    · simp [scan, lineScan, keptAt, hdots, hch, scanPhase, linePhase, hcount, hnext, hlf]

/-- The states and the byte kept, from one position to the next: either both automata mark the
end, or the scanner misses a leading dot, or both keep the same bytes and stay in step. -/
theorem in_step (hch : stream[i]? = some ch) (rest : List Byte) :
    (0 < i ∧ EndsHere stream (i - 1) ∧ scan (scanPhase stream i) (ch :: rest) = .marked [] ch rest ∧
        lineScan (linePhase stream i) (ch :: rest) = .marked [] ch rest) ∨
      (ch = DOT ∧ Even (newlinesBefore stream i) ∧ 0 < newlinesBefore stream i ∧
        scan (scanPhase stream i) (ch :: rest) = (scan .src rest).prepend [ch] ∧
        lineScan (linePhase stream i) (ch :: rest) = lineScan .lfDot rest) ∨
      KeepsStep stream i ch rest := by
  by_cases hline : LineStart stream i
  · exact .inr (in_step_line_start hch hline rest)
  · exact (in_step_inside hch hline rest).imp_right .inr

end

/-- The data in front of a position and the byte at it. -/
theorem unstuffed_succ (stream : List Byte) (i : Nat) :
    unstuffed stream (i + 1) = unstuffed stream i ++ keptAt stream i := by
  simp [unstuffed, List.range_succ]

/-- Some position is the first end of the data if any position ends it. -/
theorem exists_first_end {stream : List Byte} {i : Nat} (h : EndsHere stream i) :
    ∃ j, FirstEnd stream j := by
  classical
  have hexists : ∃ i, EndsHere stream i := ⟨i, h⟩
  exact ⟨Nat.find hexists, Nat.find_spec hexists, fun j hj ↦ Nat.find_min hexists hj⟩

theorem FirstEnd.unique {stream : List Byte} {i j : Nat} (hi : FirstEnd stream i)
    (hj : FirstEnd stream j) : i = j := by
  rcases Nat.lt_trichotomy i j with hlt | heq | hgt
  · exact absurd hi.1 (hj.2 i hlt)
  · exact heq
  · exact absurd hj.1 (hi.2 j hgt)

/-- The end of the data lies inside the stream. -/
theorem EndsHere.lt_length {stream : List Byte} {i : Nat} (h : EndsHere stream i) :
    i + 1 < stream.length := by
  rcases h.2 with h | h <;> exact (List.getElem?_eq_some_iff.mp h).1

/-- A scan result that is the view by lines of the stream. -/
def Scan.ByLines (stream : List Byte) : Scan → Prop
  | .unmarked kept _ => (∀ i, ¬ EndsHere stream i) ∧ kept = unstuffed stream stream.length
  | .marked kept _ rest =>
      ∃ i, FirstEnd stream i ∧ kept = unstuffed stream i ∧ rest = stream.drop (i + 2)

/-- The line automaton computes the view by lines. The induction is on the bytes behind a
position in front of which no end of the data is complete. -/
theorem line_scan_by_lines (stream : List Byte) (i : Nat) (hi : i ≤ stream.length)
    (hopen : ∀ j, j + 1 < i → ¬ EndsHere stream j) :
    ((lineScan (linePhase stream i) (stream.drop i)).prepend (unstuffed stream i)).ByLines
      stream := by
  induction hrest : stream.drop i generalizing i with
  | nil =>
      obtain rfl : i = stream.length := by
        have hlen := congrArg List.length hrest
        simp only [List.length_drop, List.length_nil] at hlen
        omega
      rw [line_scan_nil, Scan.prepend_unmarked, List.append_nil]
      exact ⟨fun j hj ↦ hopen j hj.lt_length hj, rfl⟩
  | cons ch rest ih =>
      have hch : stream[i]? = some ch := by
        have hfirst := congrArg (·[0]?) hrest
        simpa only [List.getElem?_drop, Nat.add_zero, List.getElem?_cons_zero] using hfirst
      have hlt := (List.getElem?_eq_some_iff.mp hch).1
      have hmore : stream.drop (i + 1) = rest := by
        rw [← List.drop_drop, hrest]
        rfl
      have hends : ∀ j, j + 1 < i + 1 → EndsHere stream j → 0 < i ∧ j = i - 1 := fun j hj h ↦ by
        have hnot : ¬ j + 1 < i := fun hearly ↦ hopen j hearly h
        omega
      rcases in_step hch rest with ⟨hpos, hend, -, hline⟩ | ⟨rfl, -, hpos, -, hline⟩ |
        ⟨hnone, -, -, hline⟩
      · rw [hline]
        have hback : i - 1 + 1 = i := by omega
        refine ⟨i - 1, ⟨hend, fun j hj ↦ hopen j (by omega)⟩, ?_, ?_⟩
        · have hdot : keptAt stream (i - 1) = [] := if_pos hend.1
          have hsplit := unstuffed_succ stream (i - 1)
          rw [hback, hdot] at hsplit
          simpa using hsplit
        · rw [show i - 1 + 2 = i + 1 by omega, hmore]
      · have hlead : LeadingDot stream i := ⟨(newlines_before_pos_iff stream i).mp hpos, hch⟩
        have hphase : linePhase stream (i + 1) = .lfDot := by
          have hlf : ¬ LineStart stream (i + 1) := fun h ↦ by
            have hboth := hch.symm.trans ((line_start_succ stream i).mp h)
            simp [DOT, LF] at hboth
          simp [linePhase, hlf, hlead]
        have hnext := ih (i + 1) hlt (fun j hj h ↦ by
          obtain ⟨hpos, rfl⟩ := hends j hj h
          have hboth := h.1.2.symm.trans hlead.1.2
          simp [DOT, LF] at hboth) hmore
        rw [hphase, unstuffed_succ, keptAt, if_pos hlead, List.append_nil] at hnext
        rw [hline]
        exact hnext
      · have hnext := ih (i + 1) hlt (fun j hj h ↦ by
          obtain ⟨hpos, rfl⟩ := hends j hj h
          exact hnone hpos h) hmore
        rw [unstuffed_succ, ← Scan.prepend_prepend] at hnext
        rw [hline]
        exact hnext

/-! ## The scanner and the line automaton -/

/-- The first side marks the end only if the second one does, and of two results that agree on
this the first one keeps more bytes. -/
def Scan.Ahead (more : Nat) : Scan → Scan → Prop
  | .unmarked kept _, .unmarked kept' _ => kept'.length + more ≤ kept.length
  | .marked kept _ _, .marked kept' _ _ => kept'.length + more ≤ kept.length
  | .unmarked _ _, .marked _ _ _ => True
  | .marked _ _ _, .unmarked _ _ => False

/-- Bytes kept by both sides do not change the difference. -/
theorem Scan.Ahead.prepend {more : Nat} {first second : Scan} (h : first.Ahead more second)
    (front : List Byte) : (first.prepend front).Ahead more (second.prepend front) := by
  cases first <;> cases second <;> simp_all [Scan.Ahead] <;> omega

/-- A byte kept by the first side only adds to the difference. -/
theorem Scan.Ahead.keep {more : Nat} {first second : Scan} (h : first.Ahead more second)
    (ch : Byte) : (first.prepend [ch]).Ahead (more + 1) second := by
  cases first <;> cases second <;> simp_all [Scan.Ahead] <;> omega

theorem Scan.Ahead.mono {more less : Nat} {first second : Scan} (h : first.Ahead more second)
    (hle : less ≤ more) : first.Ahead less second := by
  cases first <;> cases second <;> simp_all [Scan.Ahead] <;> omega

/-- The scanner never drops more bytes than the line automaton does. -/
theorem scan_ahead (phase line : Phase) (block : List Byte) (hlf : phase = .lf → line = .lf)
    (hdot : phase = .lfDot → line = .lfDot) (hdone : phase ≠ .done) (hline : line ≠ .done) :
    (scan phase block).Ahead 0 (lineScan line block) := by
  induction block generalizing phase line with
  | nil => simp [Scan.Ahead]
  | cons ch rest ih =>
      have hnext : ∀ next line' : Phase, (next = .lf → line' = .lf) → next ≠ .lfDot → next ≠ .done →
          line' ≠ .done →
          ((scan next rest).prepend [ch]).Ahead 0 ((lineScan line' rest).prepend [ch]) :=
        fun next line' h1 h2 h3 h4 ↦ (ih next line' h1 (fun h ↦ absurd h h2) h3 h4).prepend [ch]
      cases phase with
      | src =>
          cases line with
          | src =>
              simp only [scan, lineScan]
              split <;> exact hnext _ _ (by simp) (by simp) (by simp) (by simp)
          | lf =>
              by_cases hch : ch = DOT
              · simp only [scan, lineScan, hch, if_true, show DOT ≠ LF by decide, if_false]
                exact ((ih .src .lfDot (by simp) (by simp) (by simp) (by simp)).keep DOT).mono
                  (Nat.zero_le _)
              · simp only [scan, lineScan, hch, if_false]
                split <;> exact hnext _ _ (by simp) (by simp) (by simp) (by simp)
          | lfDot =>
              by_cases hend : ch = CR ∨ ch = LF
              · simp only [lineScan, hend, if_true, scan]
                cases scan (if ch = LF then Phase.lf else .src) rest <;> simp [Scan.Ahead]
              · obtain ⟨-, hnot⟩ := not_or.mp hend
                simp only [lineScan, if_neg hend, scan, if_neg hnot]
                exact hnext .src .src (by simp) (by simp) (by simp) (by simp)
          | done => exact absurd rfl hline
      | lf =>
          obtain rfl := hlf rfl
          by_cases hch : ch = DOT
          · simp only [scan, lineScan, hch, if_true]
            exact ih _ _ (by simp) (by simp) (by simp) (by simp)
          · simp only [scan, lineScan, hch, if_false]
            split <;> exact hnext _ _ (by simp) (by simp) (by simp) (by simp)
      | lfDot =>
          obtain rfl := hdot rfl
          by_cases hend : ch = CR ∨ ch = LF
          · simp [scan, lineScan, hend, Scan.Ahead]
          · simp only [scan, lineScan, if_neg hend]
            exact hnext .src .src (by simp) (by simp) (by simp) (by simp)
      | done => exact absurd rfl hdone

/-- Two results with the same data and the same mark. -/
def Scan.SameData : Scan → Scan → Prop
  | .unmarked kept _, .unmarked kept' _ => kept = kept'
  | .marked kept _ rest, .marked kept' _ rest' => kept = kept' ∧ rest = rest'
  | _, _ => False

theorem Scan.SameData.prepend {first second : Scan} (h : first.SameData second)
    (front : List Byte) : (first.prepend front).SameData (second.prepend front) := by
  cases first <;> cases second <;> simp_all [Scan.SameData]

theorem Scan.SameData.by_lines_iff {first second : Scan} (h : first.SameData second)
    (stream : List Byte) : first.ByLines stream ↔ second.ByLines stream := by
  cases first <;> cases second <;> simp_all [Scan.SameData, Scan.ByLines]

/-- The byte at a position and the bytes behind it. -/
theorem drop_eq_cons {stream rest : List Byte} {i : Nat} {ch : Byte}
    (h : stream.drop i = ch :: rest) : stream[i]? = some ch ∧ stream.drop (i + 1) = rest := by
  refine ⟨?_, by rw [← List.drop_drop, h]; rfl⟩
  have hfirst := congrArg (·[0]?) h
  simpa only [List.getElem?_drop, Nat.add_zero, List.getElem?_cons_zero] using hfirst

/-- As long as no leading dot is missed, the scanner keeps what the line automaton keeps. -/
theorem scan_same_data {stream : List Byte} (h : NoDotBehindEvenNewlines stream) (i : Nat)
    (hopen : ∀ j, j + 1 < i → ¬ EndsHere stream j) :
    (scan (scanPhase stream i) (stream.drop i)).SameData
      (lineScan (linePhase stream i) (stream.drop i)) := by
  induction hrest : stream.drop i generalizing i with
  | nil => simp [Scan.SameData]
  | cons ch rest ih =>
      obtain ⟨hch, hmore⟩ := drop_eq_cons hrest
      rcases in_step hch rest with ⟨-, -, hscan, hline⟩ | ⟨rfl, heven, hpos, -, -⟩ |
        ⟨hnone, -, hscan, hline⟩
      · rw [hscan, hline]
        exact ⟨rfl, rfl⟩
      · have hmissed : ∀ j < i, ¬ EndsHere stream j := fun j hj hends ↦ by
          have hlast : j + 1 = i := by
            have hnot : ¬ j + 1 < i := fun hearly ↦ hopen j hearly hends
            omega
          rcases hends.2 with hend | hend <;> rw [hlast, hch] at hend <;> simp [DOT, CR, LF] at hend
        exact absurd (h i hch hmissed heven) (Nat.ne_of_gt hpos)
      · rw [hscan, hline]
        refine (ih (i + 1) ?_ hmore).prepend _
        intro j hj hends
        have hnot : ¬ j + 1 < i := fun hearly ↦ hopen j hearly hends
        obtain rfl : j = i - 1 := by omega
        exact hnone (by omega) hends

/-- Once the scanner misses a leading dot, it has kept more bytes than the line automaton. -/
theorem scan_ahead_of_missed {stream : List Byte} {missed : Nat} (hdot : stream[missed]? = some DOT)
    (hopen : ∀ j < missed, ¬ EndsHere stream j) (heven : Even (newlinesBefore stream missed))
    (hpos : 0 < newlinesBefore stream missed) (i : Nat) (hi : i ≤ missed) :
    (scan (scanPhase stream i) (stream.drop i)).Ahead 1
      (lineScan (linePhase stream i) (stream.drop i)) := by
  have hlt := (List.getElem?_eq_some_iff.mp hdot).1
  induction hrest : stream.drop i generalizing i with
  | nil =>
      have hlen := congrArg List.length hrest
      simp only [List.length_drop, List.length_nil] at hlen
      omega
  | cons ch rest ih =>
      obtain ⟨hch, hmore⟩ := drop_eq_cons hrest
      rcases in_step hch rest with ⟨hi0, hend, -, -⟩ | ⟨rfl, -, -, hscan, hline⟩ |
        ⟨-, hodd, hscan, hline⟩
      · exact absurd hend (hopen _ (by omega))
      · rw [hscan, hline]
        exact (scan_ahead .src .lfDot rest (by simp) (by simp) (by simp) (by simp)).keep DOT
      · rw [hscan, hline]
        refine (ih (i + 1) ?_ hmore).prepend _
        by_contra hlast
        obtain rfl : i = missed := by omega
        have hzero := hodd (Option.some.inj (hch.symm.trans hdot)) heven
        omega

/-- Two views by lines of one stream keep the same bytes. -/
theorem Scan.ByLines.not_ahead {stream : List Byte} {first second : Scan}
    (hfirst : first.ByLines stream) (hsecond : second.ByLines stream) : ¬ first.Ahead 1 second := by
  cases first with
  | unmarked kept phase =>
      cases second with
      | unmarked kept' phase' => simp [Scan.Ahead, hfirst.2, hsecond.2]
      | marked kept' terminator' rest' =>
          obtain ⟨i, hend, -⟩ := hsecond
          exact absurd hend.1 (hfirst.1 i)
  | marked kept terminator rest =>
      obtain ⟨i, hend, hkept, -⟩ := hfirst
      cases second with
      | unmarked kept' phase' => exact absurd hend.1 (hsecond.1 i)
      | marked kept' terminator' rest' =>
          obtain ⟨j, hend', hkept', -⟩ := hsecond
          simp [Scan.Ahead, hkept, hkept', hend.unique hend']

/-- The scanner computes the view by lines exactly on the streams without a dot behind an even
number of line feeds. -/
theorem scan_by_lines_iff (stream : List Byte) :
    (scan .src stream).ByLines stream ↔ NoDotBehindEvenNewlines stream := by
  have hphase : linePhase stream 0 = .src := by simp [linePhase, LineStart]
  have hscanner : scanPhase stream 0 = .src := by simp [scanPhase, newlinesBefore, hphase]
  have hlines := line_scan_by_lines stream 0 (Nat.zero_le _) (by simp)
  simp only [hphase, List.drop_zero, unstuffed, List.range_zero, List.flatMap_nil,
    Scan.prepend_nil] at hlines
  constructor
  · intro h i hdot hopen heven
    by_contra hpos
    have hahead := scan_ahead_of_missed hdot hopen heven (Nat.pos_of_ne_zero hpos) 0 (Nat.zero_le _)
    rw [hscanner, hphase, List.drop_zero] at hahead
    exact h.not_ahead hlines hahead
  · intro h
    have hsame := scan_same_data h 0 (by simp)
    rw [hscanner, hphase, List.drop_zero] at hsame
    exact (hsame.by_lines_iff stream).mpr hlines

/-- The scanner only marks where the data ends. -/
theorem exists_ends_of_marked {stream kept rest : List Byte} {terminator : Byte}
    (h : scan .src stream = .marked kept terminator rest) : ∃ i, FirstEnd stream i := by
  have hahead := scan_ahead .src .src stream (by simp) (by simp) (by simp) (by simp)
  have hphase : linePhase stream 0 = .src := by simp [linePhase, LineStart]
  have hlines := line_scan_by_lines stream 0 (Nat.zero_le _) (by simp)
  simp only [hphase, List.drop_zero, unstuffed, List.range_zero, List.flatMap_nil,
    Scan.prepend_nil] at hlines
  cases hline : lineScan .src stream with
  | unmarked kept' phase => simp [h, hline, Scan.Ahead] at hahead
  | marked kept' terminator' rest' =>
      rw [hline] at hlines
      obtain ⟨i, hi, -⟩ := hlines
      exact ⟨i, hi⟩

/-! ## The calls of `getEoD` on a stream -/

/-- The mark falls behind at least `2 ^ 31` bytes kept of its block, so that its position does not
fit into an `int`. -/
def lateMark : Phase → List (List Byte) → Bool
  | _, [] => false
  | phase, bytes :: more =>
      match scan phase bytes with
      | .unmarked _ final => lateMark final more
      | .marked kept _ _ => decide (2 ^ 31 ≤ kept.length)

/-- The calls on a stream that is cut into filled blocks, from the scan of the whole stream. A late
mark is not returned by any call. -/
def CallsFit (calls : List (Nat × InputBlock)) (late : Bool) : Scan → Prop
  | .unmarked kept _ => calls.flatMap bytesLeft = kept ∧ ∀ call ∈ calls, call.1 = call.2.pos
  | .marked kept _ rest =>
      (∃ placeholder, calls.flatMap bytesLeft = kept ++ placeholder :: rest) ∧
      if late then ∀ call ∈ calls, call.1 = call.2.pos
      else ∃ before call after, calls = before ++ call :: after ∧ call.1 < call.2.pos ∧
        (before.flatMap bytesLeft).length + call.1 = kept.length ∧
        ∀ other ∈ before ++ after, other.1 = other.2.pos

/-- A call on a filled block, from the scan of the block. -/
theorem get_eod_scan (state : State) {bytes : List Byte} (hne : bytes ≠ [])
    (hsize : bytes.length < 2 ^ 32) :
    match scan state.phase bytes with
    | .unmarked kept final => bytesLeft ((filled state bytes).getEoD 0) = kept ∧
        ((filled state bytes).getEoD 0).1 = ((filled state bytes).getEoD 0).2.pos ∧
        ((filled state bytes).getEoD 0).2.eodState.phase = final
    | .marked kept _ rest =>
        (∃ placeholder, bytesLeft ((filled state bytes).getEoD 0) = kept ++ placeholder :: rest) ∧
        (if 2 ^ 31 ≤ kept.length then
            ((filled state bytes).getEoD 0).1 = ((filled state bytes).getEoD 0).2.pos
          else ((filled state bytes).getEoD 0).1 < ((filled state bytes).getEoD 0).2.pos ∧
            ((filled state bytes).getEoD 0).1 = kept.length) ∧
        ((filled state bytes).getEoD 0).2.eodState.phase = .done := by
  have hstart : 0 < (filled state bytes).size := List.length_pos_iff.mpr hne
  cases hscan : scan state.phase bytes with
  | unmarked kept final =>
      obtain ⟨after, rfl, heq⟩ := get_eod_unmarked (filled state bytes) hstart hscan
      simp only [heq, bytesLeft, Nat.zero_add, Block.store_zero_take, and_self]
  | marked kept terminator rest =>
      obtain ⟨after, placeholder, hafter, -, heq⟩ :=
        get_eod_marked (filled state bytes) hstart hscan
      have hlen := scan_marked_length hscan
      simp only [heq, bytesLeft, Nat.zero_add, Block.store_zero_take]
      refine ⟨⟨placeholder, rfl⟩, ?_, hafter⟩
      by_cases hlate : 2 ^ 31 ≤ kept.length
      · have hneg := to_int_neg hlate (by omega)
        rw [if_pos hlate, if_neg (by omega)]
      · rw [if_neg hlate, to_int_eq (by omega), if_pos (by omega)]
        simp

/-- The calls fit the scan of the stream, however it is cut. -/
theorem scan_blocks_fit (state : State) (blocks : List (List Byte))
    (hblocks : ∀ bytes ∈ blocks, bytes ≠ [] ∧ bytes.length < 2 ^ 32) :
    CallsFit (scanBlocks state blocks) (lateMark state.phase blocks)
      (scan state.phase blocks.flatten) := by
  induction blocks generalizing state with
  | nil => simp [scanBlocks, CallsFit]
  | cons bytes more ih =>
      obtain ⟨hne, hsize⟩ := hblocks bytes (by simp)
      have hcall := get_eod_scan state hne hsize
      have hmore := ih ((filled state bytes).getEoD 0).2.eodState
        (fun later hlater ↦ hblocks later (by simp [hlater]))
      rw [List.flatten_cons, scan_append, lateMark]
      cases hscan : scan state.phase bytes with
      | unmarked kept final =>
          simp only [hscan] at hcall ⊢
          obtain ⟨hleft, hend, rfl⟩ := hcall
          cases hrest : scan ((filled state bytes).getEoD 0).2.eodState.phase more.flatten with
          | unmarked kept' final' =>
              rw [hrest] at hmore
              exact ⟨by simp [scanBlocks, hleft, hmore.1], List.forall_mem_cons.mpr ⟨hend, hmore.2⟩⟩
          | marked kept' terminator rest =>
              rw [hrest] at hmore
              obtain ⟨⟨placeholder, hbytes⟩, hreturned⟩ := hmore
              refine ⟨⟨placeholder, by simp [scanBlocks, hleft, hbytes]⟩, ?_⟩
              split at hreturned
              · rw [if_pos ‹_›]
                exact List.forall_mem_cons.mpr ⟨hend, hreturned⟩
              · obtain ⟨before, call, after, hcalls, hlt, hplace, hother⟩ := hreturned
                rw [if_neg ‹_›]
                refine ⟨(filled state bytes).getEoD 0 :: before, call, after,
                  by simp [scanBlocks, hcalls], hlt, ?_, List.forall_mem_cons.mpr ⟨hend, hother⟩⟩
                simp only [List.flatMap_cons, List.length_append, hleft]
                omega
      | marked kept terminator rest =>
          simp only [hscan] at hcall ⊢
          obtain ⟨⟨placeholder, hleft⟩, hreturned, hdone⟩ := hcall
          rw [hdone, scan_done] at hmore
          refine ⟨⟨placeholder, by simp [scanBlocks, hleft, hmore.1]⟩, ?_⟩
          by_cases hlate : 2 ^ 31 ≤ kept.length
          · rw [if_pos hlate] at hreturned
            rw [if_pos (decide_eq_true hlate)]
            exact List.forall_mem_cons.mpr ⟨hreturned, hmore.2⟩
          · rw [if_neg hlate] at hreturned
            rw [if_neg (by simpa using hlate)]
            exact ⟨[], (filled state bytes).getEoD 0, _, rfl, hreturned.1,
              by simpa using hreturned.2, by simpa using hmore.2⟩

/-- What the calls show is what the scan of the stream is, unless the mark is late. -/
theorem CallsFit.recognised_iff {stream : List Byte} {calls : List (Nat × InputBlock)} {late : Bool}
    (h : CallsFit calls late (scan .src stream)) :
    RecognisedByLines stream calls ↔ (scan .src stream).ByLines stream ∧
      ∀ kept terminator rest, scan .src stream = .marked kept terminator rest → late = false := by
  cases hscan : scan .src stream with
  | unmarked kept phase =>
      rw [hscan] at h
      obtain ⟨hleft, hend⟩ := h
      constructor
      · intro hrec
        have hnone : ∀ i, ¬ EndsHere stream i := fun i hi ↦ by
          obtain ⟨j, hj⟩ := exists_first_end hi
          obtain ⟨-, before, call, after, rfl, hlt, -⟩ := hrec.2 j hj
          exact absurd (hend call (by simp)) (Nat.ne_of_lt hlt)
        exact ⟨⟨hnone, hleft.symm.trans (hrec.1 hnone).1⟩, by simp⟩
      · rintro ⟨⟨hnone, rfl⟩, -⟩
        exact ⟨fun _ ↦ ⟨hleft, hend⟩, fun i hi ↦ absurd hi.1 (hnone i)⟩
  | marked kept terminator rest =>
      obtain ⟨i, hi⟩ := exists_ends_of_marked hscan
      rw [hscan] at h
      obtain ⟨⟨placeholder, hleft⟩, hreturned⟩ := h
      cases late with
      | true =>
          rw [if_pos rfl] at hreturned
          refine ⟨?_, fun hrec ↦ absurd (hrec.2 _ _ _ rfl) (by simp)⟩
          intro hrec
          obtain ⟨-, before, call, after, rfl, hlt, -⟩ := hrec.2 i hi
          exact absurd (hreturned call (by simp)) (Nat.ne_of_lt hlt)
      | false =>
          rw [if_neg (by simp)] at hreturned
          obtain ⟨before, call, after, hcalls, hlt, hplace, hother⟩ := hreturned
          constructor
          · intro hrec
            obtain ⟨⟨placeholder', hleft'⟩, before', call', after', hcalls', hlt', hplace',
              hother'⟩ := hrec.2 i hi
            obtain ⟨rfl, rfl, -⟩ := split_unique (hcalls.symm.trans hcalls')
              (fun c hc ↦ decide_eq_true (hother c (List.mem_append_left _ hc)))
              (decide_eq_false (Nat.ne_of_lt hlt))
              (fun c hc ↦ decide_eq_true (hother' c (List.mem_append_left _ hc)))
              (decide_eq_false (Nat.ne_of_lt hlt'))
            have hlen : kept.length = (unstuffed stream i).length := hplace.symm.trans hplace'
            obtain ⟨hkept, hrest⟩ := List.append_inj (hleft.symm.trans hleft') hlen
            exact ⟨⟨i, hi, hkept, (List.cons.inj hrest).2⟩, fun _ _ _ _ ↦ rfl⟩
          · rintro ⟨⟨j, hj, rfl, rfl⟩, -⟩
            refine ⟨fun hnone ↦ absurd hj.1 (hnone j), ?_⟩
            intro j' hj'
            obtain rfl := hj.unique hj'
            exact ⟨⟨placeholder, hleft⟩, before, call, after, hcalls, hlt, hplace, hother⟩

/-! ## The position of the mark in its block -/

/-- The views of a stream and of its front agree inside the front. -/
theorem leading_dot_append {front : List Byte} (back : List Byte) {i : Nat} (h : i < front.length) :
    LeadingDot (front ++ back) i ↔ LeadingDot front i := by
  simp only [LeadingDot, LineStart, List.getElem?_append_left h,
    List.getElem?_append_left (show i - 1 < front.length by omega)]

theorem ends_here_append {front : List Byte} (back : List Byte) {i : Nat}
    (h : i + 1 < front.length) : EndsHere (front ++ back) i ↔ EndsHere front i := by
  simp only [EndsHere, leading_dot_append back (show i < front.length by omega),
    List.getElem?_append_left h]

theorem newlines_before_append {front : List Byte} (back : List Byte) {i : Nat}
    (h : i ≤ front.length) : newlinesBefore (front ++ back) i = newlinesBefore front i := by
  induction i with
  | zero => rfl
  | succ i ih =>
      simp only [newlinesBefore, List.getElem?_append_left (show i < front.length by omega),
        ih (by omega)]

theorem unstuffed_append {front : List Byte} (back : List Byte) {i : Nat} (h : i ≤ front.length) :
    unstuffed (front ++ back) i = unstuffed front i := by
  induction i with
  | zero => rfl
  | succ i ih =>
      have hlt : i < front.length := h
      simp only [unstuffed_succ, ih (by omega), keptAt, leading_dot_append back hlt,
        List.getElem?_append_left hlt]

/-- The condition on the line feeds passes to the front of a stream. -/
theorem NoDotBehindEvenNewlines.front {front back : List Byte}
    (h : NoDotBehindEvenNewlines (front ++ back)) : NoDotBehindEvenNewlines front := by
  intro i hdot hopen heven
  have hlt := (List.getElem?_eq_some_iff.mp hdot).1
  rw [← newlines_before_append back (by omega)] at heven ⊢
  refine h i (by rw [List.getElem?_append_left hlt, hdot]) (fun j hj hends ↦ ?_) heven
  exact hopen j hj ((ends_here_append back (by omega)).mp hends)

/-- A position inside a block lies behind the start of this block. -/
theorem block_start_eq (before : List (List Byte)) (bytes : List Byte) (after : List (List Byte))
    {pos : Nat} (hlow : before.flatten.length ≤ pos)
    (hhigh : pos < before.flatten.length + bytes.length) :
    blockStart (before ++ bytes :: after) pos = before.flatten.length := by
  induction before generalizing pos with
  | nil =>
      simp only [List.flatten_nil, List.length_nil, Nat.zero_add] at hhigh
      simp [blockStart, hhigh]
  | cons first rest ih =>
      simp only [List.flatten_cons, List.length_append] at hlow hhigh ⊢
      rw [List.cons_append, blockStart, if_neg (by omega), ih (by omega) (by omega)]

/-- The block in which the mark falls. -/
theorem marked_block {phase : Phase} {blocks : List (List Byte)} {kept rest : List Byte}
    {terminator : Byte} (h : scan phase blocks.flatten = .marked kept terminator rest) :
    ∃ before bytes after early final late more, blocks = before ++ bytes :: after ∧
      scan phase before.flatten = .unmarked early final ∧
      scan final bytes = .marked late terminator more ∧ kept = early ++ late ∧
      lateMark phase blocks = decide (2 ^ 31 ≤ late.length) := by
  induction blocks generalizing phase kept with
  | nil => simp at h
  | cons bytes blocks ih =>
      rw [List.flatten_cons, scan_append] at h
      cases hscan : scan phase bytes with
      | marked late terminator' more =>
          simp only [hscan] at h
          cases h
          exact ⟨[], bytes, blocks, [], phase, kept, more, rfl, by simp, hscan, rfl,
            by simp [lateMark, hscan]⟩
      | unmarked early final =>
          simp only [hscan] at h
          cases hrest : scan final blocks.flatten with
          | unmarked => simp [hrest] at h
          | marked kept' terminator' rest' =>
              rw [hrest] at h
              cases h
              obtain ⟨before, bytes', after, early', final', late, more, rfl, hbefore, hbytes, rfl,
                hlate⟩ := ih hrest
              refine ⟨bytes :: before, bytes', after, early ++ early', final', late, more, rfl, ?_,
                hbytes, by simp, by simpa [lateMark, hscan] using hlate⟩
              rw [List.flatten_cons, scan_append, hscan]
              simp [hbefore]

/-- On a stream whose leading dots are all seen, the mark is late exactly if its position does not
fit into an `int`. -/
theorem late_mark_iff {blocks : List (List Byte)} {kept rest : List Byte} {terminator : Byte}
    (hdots : NoDotBehindEvenNewlines blocks.flatten)
    (h : scan .src blocks.flatten = .marked kept terminator rest) :
    lateMark .src blocks = false ↔ MarkFitsInt blocks := by
  obtain ⟨before, bytes, after, early, final, late, more, hsplit, hbefore, hbytes, rfl, hlate⟩ :=
    marked_block h
  have hstream : blocks.flatten = before.flatten ++ (bytes ++ after.flatten) := by simp [hsplit]
  have hfront : blocks.flatten = (before.flatten ++ bytes) ++ after.flatten := by simp [hsplit]
  have hlines := (scan_by_lines_iff _).mpr hdots
  rw [h] at hlines
  obtain ⟨i, hi, hkept, -⟩ := hlines
  have hearly := (scan_by_lines_iff _).mpr (hstream ▸ hdots).front
  rw [hbefore] at hearly
  have hlow : before.flatten.length ≤ i + 1 := by
    by_contra hlt
    refine hearly.1 i ((ends_here_append (bytes ++ after.flatten) (by omega)).mp ?_)
    rw [← hstream]
    exact hi.1
  have hhigh : i + 1 < before.flatten.length + bytes.length := by
    have hmarked : scan .src (before.flatten ++ bytes) =
        .marked (early ++ late) terminator more := by
      rw [scan_append, hbefore]
      simp [hbytes]
    obtain ⟨j, hj⟩ := exists_ends_of_marked hmarked
    have hlt := hj.1.lt_length
    have hends : EndsHere blocks.flatten j := by
      rw [hfront]
      exact (ends_here_append _ hlt).mpr hj.1
    have hle : ¬ j < i := fun hji ↦ hi.2 j hji hends
    simp only [List.length_append] at hlt
    omega
  have hstart : blockStart blocks (i + 1) = before.flatten.length := by
    rw [hsplit]
    exact block_start_eq before bytes after hlow hhigh
  have hmark : unstuffed blocks.flatten (i + 1) = early ++ late := by
    rw [unstuffed_succ, keptAt, if_pos hi.1.1, List.append_nil, hkept]
  have hfirst : unstuffed blocks.flatten before.flatten.length = early := by
    rw [hstream, unstuffed_append _ (Nat.le_refl _)]
    exact hearly.2.symm
  rw [hlate, decide_eq_false_iff_not]
  constructor
  · intro hshort j hj
    obtain rfl := hj.unique hi
    rw [hmark, hstart, hfirst, List.length_append]
    omega
  · intro hfits
    have hshort := hfits i hi
    rw [hmark, hstart, hfirst, List.length_append] at hshort
    omega

/-- **The end of data is recognised by lines exactly if no dot stands behind an even number of
consecutive line feeds** and the mark fits into an `int`, for every stream scanned from the state
`SRC` and however it is cut into filled blocks. -/
theorem recognised_by_lines_iff (blocks : List (List Byte))
    (hblocks : ∀ bytes ∈ blocks, bytes ≠ [] ∧ bytes.length < 2 ^ 32) :
    RecognisedByLines blocks.flatten (scanBlocks .src blocks) ↔
      NoDotBehindEvenNewlines blocks.flatten ∧ MarkFitsInt blocks := by
  rw [(scan_blocks_fit .src blocks hblocks).recognised_iff, ← scan_by_lines_iff]
  refine and_congr_right ?_
  intro hlines
  have hdots := (scan_by_lines_iff _).mp hlines
  cases hscan : scan .src blocks.flatten with
  | unmarked kept phase =>
      rw [hscan] at hlines
      exact ⟨fun _ i hi ↦ absurd hi.1 (hlines.1 i), by simp⟩
  | marked kept terminator rest =>
      rw [← late_mark_iff hdots hscan]
      exact ⟨fun h ↦ h kept terminator rest rfl, fun h _ _ _ _ ↦ h⟩

/-- The equivalence at a stream of lines that end in a carriage return and a line feed, cut
between the final dot and its line end. -/
theorem recognised_by_lines_crlf :
    RecognisedByLines (text "a\r\n.b\r\n.\r\nquit")
        (scanBlocks .src [text "a\r\n.b\r\n.", text "\r\nquit"]) ↔
      NoDotBehindEvenNewlines (text "a\r\n.b\r\n.\r\nquit") ∧
        MarkFitsInt [text "a\r\n.b\r\n.", text "\r\nquit"] :=
  recognised_by_lines_iff [text "a\r\n.b\r\n.", text "\r\nquit"] (by decide)

/-- Behind an empty line that is a bare line feed the end of data is missed. -/
theorem not_recognised_by_lines_empty_line :
    ¬ RecognisedByLines (text "a\n\n.\nquit") (scanBlocks .src [text "a\n\n.\nquit"]) := by
  intro h
  have hfirst : FirstEnd (text "a\n\n.\nquit") 3 := by
    refine ⟨by decide, ?_⟩
    intro j hj
    interval_cases j <;> decide
  obtain ⟨-, before, call, after, hcalls, hlt, -⟩ := h.2 3 hfirst
  have hall : ∀ call ∈ scanBlocks .src [text "a\n\n.\nquit"], call.1 = call.2.pos := by decide
  exact absurd (hall call (by simp [hcalls])) (Nat.ne_of_lt hlt)

end Smerp.Protocol.EoD
