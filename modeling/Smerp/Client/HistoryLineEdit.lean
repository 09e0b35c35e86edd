import Mathlib.Data.List.Basic
import Mathlib.Logic.Function.Iterate

/-!
# The command history of the Qt client

`HistoryLineEdit::readHistory` and `saveHistory` of `clients/qt/HistoryLineEdit.cpp`. The loop of
`readHistory` appends a line before it looks whether the line is null, so that the null string at
the end of the file becomes an entry of the history. `never_survives` says that no history comes
back as it was saved, and that every start of the client adds an entry.
-/

namespace Smerp.Client.HistoryLineEdit

/-- A code unit of a `QString`. -/
abbrev QChar := UInt16

/-- The line feed. -/
def LF : QChar := 10

/-- The carriage return. -/
def CR : QChar := 13

/-- A `QString` is null, or has a content. -/
abbrev QString := Option (List QChar)

namespace QString

/-- `isNull` -/
def isNull (line : QString) : Bool := Option.isNone line

/-- The characters of the string. A null string has none, and compares equal to an empty one. -/
def content (line : QString) : List QChar := Option.getD line []

end QString

/-- A line without a carriage return at its end. -/
def withoutCr (line : List QChar) : List QChar :=
  if line.getLast? = some CR then line.dropLast else line

/-- What the client uses of `QTextStream`: reading a line of the text that is left in the file. -/
structure QTextStream where
  /-- The line that `readLine` returns, and the text behind it. -/
  readLine : List QChar → QString × List QChar
  /-- At the end of the file a null string is returned. -/
  read_line_end : readLine [] = (none, [])
  /-- A line is returned without its line end; it is not null, also if it is empty. -/
  read_line_eq (line rest : List QChar) (h : LF ∉ line) :
    readLine (line ++ LF :: rest) = (some (withoutCr line), rest)

/-- The entries of a history. -/
abbrev QStringList := List QString

/-- `saveHistory`: the text of the file behind it. -/
def saveHistory (history : QStringList) : List QChar :=
  history.flatMap fun line ↦ line.content ++ [LF]

/-- The loop `do { line = s.readLine(); m_history->append( line); } while( !line.isNull());`, for at
most this many passes. -/
def readLines (qt : QTextStream) : Nat → List QChar → QStringList → Option QStringList
  | 0, _, _ => none
  | fuel + 1, file, history =>
      let (line, rest) := qt.readLine file
      if line.isNull then some (history ++ [line])
      else readLines qt fuel rest (history ++ [line])

/-- `readHistory`. Every line but the last one takes a character of the file, and no more passes are
needed. -/
def readHistory (qt : QTextStream) (file : Option (List QChar)) (history : QStringList) :
    Option QStringList :=
  match file with
  | none => some history
  | some contents => readLines qt (contents.length + 1) contents history

/-- Stop the client and start it again. -/
def restart (qt : QTextStream) (history : QStringList) : Option QStringList :=
  readHistory qt (some (saveHistory history)) []

/-- This many restarts. -/
def restarts (qt : QTextStream) (count : Nat) (history : QStringList) : Option QStringList :=
  (fun reached : Option QStringList ↦ reached.bind (restart qt))^[count] (some history)

/-- The histories have the same entries, as `QString` compares them. -/
def Same (reached : Option QStringList) (history : QStringList) : Prop :=
  reached.map (List.map QString.content) = some (history.map QString.content)

/-- No line has a line break. -/
def Unbroken (history : QStringList) : Prop := ∀ line ∈ history, LF ∉ line.content

section Restarts

variable {qt : QTextStream} {history : QStringList}

/-- What comes back of an entry. -/
def reread (line : QString) : QString := some (withoutCr line.content)

/-- What comes back of an entry has no other characters. -/
theorem reread_subset (line : QString) : (reread line).content ⊆ line.content := by
  show withoutCr line.content ⊆ line.content
  unfold withoutCr
  split
  · exact List.dropLast_subset _
  · exact List.Subset.refl _

/-- The loop reads the saved lines, and then the null string. -/
theorem read_lines_saved (qt : QTextStream) (h : Unbroken history) (front : QStringList)
    {fuel : Nat} (hfuel : history.length < fuel) :
    readLines qt fuel (saveHistory history) front =
      some (front ++ history.map (reread) ++ [none]) := by
  induction history generalizing front fuel with
  | nil =>
      obtain ⟨fuel, rfl⟩ : ∃ more, fuel = more + 1 := ⟨fuel - 1, by omega⟩
      have hend : qt.readLine (saveHistory []) = (none, []) := qt.read_line_end
      rw [readLines, hend, List.map_nil, List.append_nil]
      rfl
  | cons line more ih =>
      obtain ⟨fuel, rfl⟩ : ∃ more, fuel = more + 1 := ⟨fuel - 1, by omega⟩
      obtain ⟨hline, hmore⟩ := List.forall_mem_cons.mp h
      have hread : qt.readLine (saveHistory (line :: more)) =
          (reread line, saveHistory more) := by
        rw [saveHistory, List.flatMap_cons, List.append_assoc]
        exact qt.read_line_eq line.content (saveHistory more) hline
      have hrest := ih hmore (front ++ [reread line])
        (show more.length < fuel by rw [List.length_cons] at hfuel; omega)
      rw [readLines, hread]
      show readLines qt fuel (saveHistory more) (front ++ [reread line]) = _
      rw [hrest, List.append_assoc front]
      rfl

/-- A file has at least a character for each line. -/
theorem length_le_save (history : QStringList) : history.length ≤ (saveHistory history).length := by
  induction history with
  | nil => exact Nat.le_refl 0
  | cons line more ih =>
      have hsplit : saveHistory (line :: more) = line.content ++ [LF] ++ saveHistory more :=
        List.flatMap_cons
      rw [hsplit, List.length_cons, List.length_append, List.length_append, List.length_singleton]
      omega

/-- **What a restart does.** The entries come back, and a null string behind them. -/
theorem restart_eq (qt : QTextStream) (h : Unbroken history) :
    restart qt history = some (history.map (reread) ++ [none]) := by
  have hfuel := Nat.lt_succ_of_le (length_le_save history)
  exact read_lines_saved qt h [] hfuel

/-- No line break comes in. -/
theorem Unbroken.restart (h : Unbroken history) :
    Unbroken (history.map (reread) ++ [none]) := by
  intro line hmem
  rcases List.mem_append.mp hmem with hline | hlast
  · obtain ⟨saved, hsaved, rfl⟩ := List.mem_map.mp hline
    exact fun hbreak ↦ h saved hsaved (reread_subset saved hbreak)
  · rw [List.mem_singleton.mp hlast]
    exact List.not_mem_nil

/-- Every restart adds an entry. -/
theorem restarts_length (qt : QTextStream) (h : Unbroken history) (count : Nat) :
    ∃ reached, restarts qt count history = some reached ∧ Unbroken reached ∧
      reached.length = history.length + count := by
  induction count with
  | zero => exact ⟨history, rfl, h, rfl⟩
  | succ count ih =>
      obtain ⟨reached, hreached, hunbroken, hlength⟩ := ih
      refine ⟨reached.map (reread) ++ [none], ?_, hunbroken.restart, ?_⟩
      · rw [restarts, Function.iterate_succ_apply']
        have hsame : (fun reached : Option QStringList ↦ reached.bind (restart qt))^[count]
            (some history) = some reached := hreached
        rw [hsame]
        exact restart_eq qt hunbroken
      · rw [List.length_append, List.length_map, List.length_singleton, hlength]
        omega

end Restarts

/-- **No history survives a restart.** What comes back has one entry more than what was saved, and
restarts leave a history as it was exactly if there are none. -/
theorem never_survives (qt : QTextStream) (history : QStringList) (h : Unbroken history) :
    ¬ Same (restart qt history) history ∧
      ∀ count, Same (restarts qt count history) history ↔ count = 0 := by
  have hcounts : ∀ count, Same (restarts qt count history) history ↔ count = 0 := by
    intro count
    obtain ⟨reached, hreached, -, hlength⟩ := restarts_length qt h count
    constructor
    · intro hsame
      rw [Same, hreached, Option.map_some, Option.some.injEq] at hsame
      have hentries := congrArg List.length hsame
      rw [List.length_map, List.length_map] at hentries
      omega
    · rintro rfl
      rfl
  have hone : restarts qt 1 history = restart qt history := rfl
  refine ⟨?_, hcounts⟩
  rw [← hone]
  exact fun hsame ↦ absurd ((hcounts 1).mp hsame) Nat.one_ne_zero

/-- A stream over plain text. -/
def plain : QTextStream where
  readLine file :=
    if file = [] then (none, [])
    else (some (withoutCr (file.takeWhile (· ≠ LF))), (file.dropWhile (· ≠ LF)).tail)
  read_line_end := rfl
  read_line_eq line rest h := by
    have hne : line ++ LF :: rest ≠ [] := by simp
    have hline : ∀ ch ∈ line, decide (ch ≠ LF) = true := by
      intro ch hch
      exact decide_eq_true fun heq ↦ h (heq ▸ hch)
    rw [if_neg hne, List.takeWhile_append_of_pos hline, List.dropWhile_append_of_pos hline]
    simp

/-- A history of two commands, one of them empty. -/
theorem never_survives_two :
    ¬ Same (restart plain [some [104, 105], some []]) [some [104, 105], some []] ∧
      ∀ count, Same (restarts plain count [some [104, 105], some []]) [some [104, 105], some []] ↔
        count = 0 :=
  never_survives plain [some [104, 105], some []] (by unfold Unbroken; decide)

/-- A client that never had a command gets one at its next start. -/
theorem empty_history_grows :
    ¬ ∀ (qt : QTextStream) (history : QStringList), Unbroken history →
      Same (restart qt history) history := by
  intro h
  have hsame : Same (some [none]) [] := h plain [] (fun _ hmem ↦ absurd hmem List.not_mem_nil)
  exact absurd (Option.some.inj hsame) (List.cons_ne_nil _ _)

end Smerp.Client.HistoryLineEdit
