import Smerp.Protocol.Arguments

/-!
# Reading a line into a buffer

`Parser::getLine` of `include/protocol/parser.hpp` is a template over the type of its buffer, which
has `size` and `push_back`: a string, or the argument buffer. A line is read the same whether it
comes at once or in two pieces (`take_line_append`). Into a string `getLine` copies the bytes up to
127 as its remarks say, and no others (`control_characters_only_iff`).
-/

namespace Smerp.Protocol

open Lib

/-- What `getLine` uses of the type of its buffer, and what it relies on: a buffer that counts
nothing although something was pushed ignores blanks. -/
class LineBuffer (γ : Type) where
  size : γ → Nat
  pushBack : γ → Byte → γ
  /-- What holds of the buffer along a line. -/
  Sound : γ → Prop
  sound_push (buffer : γ) (ch : Byte) (h : Sound buffer) : Sound (pushBack buffer ch)
  push_space (buffer : γ) (ch : Byte) (h : Sound buffer) (hsize : size (pushBack buffer ch) = 0) :
    pushBack (pushBack buffer ch) SPACE = pushBack buffer ch

/-- A string counts its characters. -/
instance : LineBuffer StdString where
  size := ContentBuffer.size
  pushBack := ContentBuffer.pushBack
  Sound _ := True
  sound_push _ _ _ := trivial
  push_space buffer ch _ hsize := by
    have hlen : (buffer.chars ++ [ch]).length = 0 := hsize
    simp at hlen

/-- The argument buffer counts its arguments. -/
instance {β : Type} [ContentBuffer β] : LineBuffer (CArgBuffer β) where
  size := CArgBuffer.size
  pushBack := CArgBuffer.pushBack
  Sound := CArgBuffer.Settled
  sound_push _ ch h := h.push_back ch
  push_space buffer ch h hsize := by
    have hstate : (buffer.pushBack ch).state = .empty :=
      h.push_back ch (List.length_eq_zero_iff.mp hsize)
    rw [CArgBuffer.pushBack, hstate]
    rfl

section

variable {γ : Type} [LineBuffer γ]

/-- A character of the line: `getLine` maps those up to the space, read as `char`, to the space. -/
def printable (ch : Byte) : Byte := if signedChar ch ≤ 32 then SPACE else ch

/-- The loop of `getLine`. -/
def scanLine (get : Nat → Except Fault Byte) :
    (left src : Nat) → γ → Except Fault (Nat × γ)
  | 0, src, buf => .ok (src, buf)
  | left + 1, src, buf => do
      let ch ← get src
      if isLineEnd ch then .ok (src, buf)
      else scanLine get left (src + 1) (LineBuffer.pushBack buf (printable ch))

/-- `Parser::getLine` -/
def getLine (get : Nat → Except Fault Byte) (src stop : Nat) (buf : γ) :
    Except Fault (Bool × Nat × γ) := do
  -- not behind the first character: the blanks of a later block belong to the line
  let (more, src) ← if LineBuffer.size buf = 0 then skipSpaces get src stop else pure (true, src)
  if !more then return (false, src, buf)
  let (src, buf) ← scanLine get (stop - src) src buf
  return (decide (src < stop), src, buf)

end

/-- Reading a block of received bytes. -/
def readData (data : List Byte) (idx : Nat) : Except Fault Byte :=
  match data[idx]? with
  | some ch => .ok ch
  | none => .error .arrayBoundRead

theorem read_data_window (data : List Byte) : Window (readData data) 0 data := by
  intro i ch hch
  rw [Nat.zero_add, readData, hch]

/-! ## What is pushed -/

section

variable {γ : Type} [LineBuffer γ]

/-- Push the characters of a line. -/
def pushLine (buf : γ) (chars : List Byte) : γ :=
  chars.foldl (fun buf ch ↦ LineBuffer.pushBack buf (printable ch)) buf

/-- Push the characters of a line, but no blanks in front of the first character. -/
def takeLine (buf : γ) (line : List Byte) : γ :=
  pushLine buf (if LineBuffer.size buf = 0 then line.dropWhile isBlank else line)

@[simp] theorem push_line_nil (buf : γ) : pushLine buf [] = buf := rfl

theorem push_line_cons (buf : γ) (ch : Byte) (rest : List Byte) :
    pushLine buf (ch :: rest) = pushLine (LineBuffer.pushBack buf (printable ch)) rest := rfl

theorem push_line_append (buf : γ) (first second : List Byte) :
    pushLine buf (first ++ second) = pushLine (pushLine buf first) second :=
  List.foldl_append

@[simp] theorem take_line_nil (buf : γ) : takeLine buf [] = buf := by
  simp [takeLine]

/-- Pushing keeps a buffer sound. -/
theorem sound_push_line {buf : γ} (h : LineBuffer.Sound buf) (chars : List Byte) :
    LineBuffer.Sound (pushLine buf chars) := by
  induction chars generalizing buf with
  | nil => exact h
  | cons ch rest ih => exact ih (LineBuffer.sound_push buf _ h)

/-- Taking a line keeps a buffer sound. -/
theorem sound_take_line {buf : γ} (h : LineBuffer.Sound buf) (line : List Byte) :
    LineBuffer.Sound (takeLine buf line) :=
  sound_push_line h _

/-- A blank is pushed as a space. -/
theorem printable_blank {ch : Byte} (h : isBlank ch = true) : printable ch = SPACE := by
  simp only [isBlank, Bool.or_eq_true, beq_iff_eq] at h
  rcases h with rfl | rfl <;> decide

/-- Where a space changes nothing, blanks are skipped either way. -/
theorem push_line_drop {buf : γ} (hidle : LineBuffer.pushBack buf SPACE = buf) (line : List Byte) :
    pushLine buf (line.dropWhile isBlank) = pushLine buf line := by
  induction line with
  | nil => rfl
  | cons next rest ih =>
      cases hnext : isBlank next with
      | false => rw [List.dropWhile_cons_of_neg (by simp [hnext])]
      | true =>
          rw [List.dropWhile_cons_of_pos hnext, ih, push_line_cons _ next, printable_blank hnext,
            hidle]

/-- Where blanks are skipped they could be pushed as well, unless nothing was pushed before. -/
theorem push_line_blanks {buf : γ} (h : LineBuffer.Sound buf) {front : List Byte}
    (hfront : front ≠ []) (hsize : LineBuffer.size (pushLine buf front) = 0) (line : List Byte) :
    pushLine (pushLine buf front) (line.dropWhile isBlank) =
      pushLine (pushLine buf front) line := by
  obtain ⟨before, ch, rfl⟩ := List.eq_nil_or_concat front |>.resolve_left hfront
  rw [List.concat_eq_append, push_line_append] at hsize ⊢
  have hspace := LineBuffer.push_space _ (printable ch) (sound_push_line h before) hsize
  exact push_line_drop hspace line

/-- **A line can be taken in two pieces**: the blanks that are skipped in front of the second piece
would have been ignored. -/
theorem take_line_append {buf : γ} (h : LineBuffer.Sound buf) (first second : List Byte) :
    takeLine (takeLine buf first) second = takeLine buf (first ++ second) := by
  -- behind something pushed it does not matter whether blanks are skipped
  have hpushed (front : List Byte) (hfront : front ≠ []) :
      takeLine (pushLine buf front) second = pushLine buf (front ++ second) := by
    rw [push_line_append, takeLine]
    split_ifs with hsize
    · exact push_line_blanks h hfront hsize second
    · rfl
  by_cases hsize : LineBuffer.size buf = 0
  · cases hrest : first.dropWhile isBlank with
    | nil =>
        have hnone : takeLine buf first = buf := by
          rw [takeLine, if_pos hsize, hrest, push_line_nil]
        have hblank := List.dropWhile_eq_nil_iff.mp hrest
        rw [hnone, takeLine, takeLine, if_pos hsize, if_pos hsize,
          List.dropWhile_append_of_pos hblank]
    | cons ch rest =>
        have hdrop : (first ++ second).dropWhile isBlank = first.dropWhile isBlank ++ second := by
          rw [List.dropWhile_append, hrest]
          rfl
        have htake : takeLine buf first = pushLine buf (ch :: rest) := by
          rw [takeLine, if_pos hsize, hrest]
        rw [htake, hpushed _ (by simp), takeLine, if_pos hsize, hdrop, hrest]
  · have htake : takeLine buf first = pushLine buf first := by rw [takeLine, if_neg hsize]
    have hwhole : takeLine buf (first ++ second) = pushLine buf (first ++ second) := by
      rw [takeLine, if_neg hsize]
    rw [htake, hwhole]
    cases first with
    | nil => rw [push_line_nil, takeLine, if_neg hsize, List.nil_append]
    | cons ch rest => exact hpushed _ (by simp)

/-! ## What is read -/

variable {get : Nat → Except Fault Byte} {src : Nat} {data : List Byte}

/-- The characters in front of the first line end. -/
def lineOf (data : List Byte) : List Byte := data.takeWhile fun ch ↦ !isLineEnd ch

/-- The loop of `getLine` pushes the characters in front of the first line end. -/
theorem scan_line_window (buf : γ) (h : Window get src data) :
    scanLine get data.length src buf =
      .ok (src + (lineOf data).length, pushLine buf (lineOf data)) := by
  induction data generalizing src buf with
  | nil => rfl
  | cons ch rest ih =>
      simp only [List.length_cons, scanLine, h.head, bind, Except.bind, lineOf,
        List.takeWhile_cons]
      cases htest : isLineEnd ch with
      | true => simp
      | false =>
          have hrest := ih (LineBuffer.pushBack buf (printable ch)) h.tail
          simp [hrest, lineOf, push_line_cons, Nat.add_assoc, Nat.add_comm 1]

@[simp] theorem line_of_nil : lineOf [] = [] := rfl

/-- The blanks in front belong to the line. -/
theorem line_of_blanks {blanks : List Byte} (hblank : ∀ ch ∈ blanks, isBlank ch = true)
    (data : List Byte) : lineOf (blanks ++ data) = blanks ++ lineOf data := by
  refine List.takeWhile_append_of_pos ?_
  intro ch hch
  rw [is_line_end_blank (hblank ch hch)]
  rfl

/-- Blanks are a line without end. -/
theorem line_of_all_blank {data : List Byte} (hblank : ∀ ch ∈ data, isBlank ch = true) :
    lineOf data = data := by
  simpa using line_of_blanks hblank []

/-- Behind its blanks. -/
theorem line_of_drop (data : List Byte) :
    (lineOf data).dropWhile isBlank = lineOf (data.dropWhile isBlank) := by
  rcases split_while isBlank data with hall | ⟨blanks, ch, more, rfl, hblank, hch⟩
  · rw [line_of_all_blank hall, List.dropWhile_eq_nil_iff.mpr hall]
    rfl
  · rw [line_of_blanks hblank, List.dropWhile_append_of_pos hblank,
      drop_while_split more hblank hch]
    cases hend : isLineEnd ch with
    | true => simp [lineOf, hend]
    | false => simp [lineOf, hend, hch]

/-- **`getLine` takes the line of the block**, and tells whether it has ended. -/
theorem get_line_window (buf : γ) (h : Window get src data) :
    getLine get src (src + data.length) buf = .ok (decide ((lineOf data).length < data.length),
      src + (lineOf data).length, takeLine buf (lineOf data)) := by
  unfold getLine
  by_cases hsize : LineBuffer.size buf = 0
  · rw [if_pos hsize, takeLine, if_pos hsize]
    rcases skip_spaces_cases h with ⟨hall, hskip⟩ | ⟨blanks, ch, more, rfl, hblank, hch, hskip⟩
    · rw [hskip, line_of_all_blank hall, List.dropWhile_eq_nil_iff.mpr hall]
      simp [bind, Except.bind, pure, Except.pure]
    · have hleft : src + (blanks ++ ch :: more).length - (src + blanks.length) =
          (ch :: more).length := by
        rw [List.length_append]
        omega
      have hscan := scan_line_window buf h.back
      rw [hskip]
      simp only [bind, Except.bind, pure, Except.pure, Bool.not_true, Bool.false_eq_true, if_false,
        hleft, hscan]
      rw [line_of_drop, drop_while_split more hblank hch, line_of_blanks hblank]
      simp [Nat.add_assoc]
  · have hscan := scan_line_window buf h
    rw [if_neg hsize, takeLine, if_neg hsize]
    simp [bind, Except.bind, pure, Except.pure, hscan]

end

/-! ## Arguments -/

section

variable {β : Type} [ContentBuffer β] {a : CArgBuffer β} {get : Nat → Except Fault Byte} {src : Nat}
  {data : List Byte}

/-- In front of the first argument a space is skipped anyway. -/
theorem take_line_settled (hsettled : a.Settled) (line : List Byte) :
    takeLine a line = pushLine a line := by
  rw [takeLine]
  split_ifs with hsize
  · have hstate : a.state = .empty := hsettled (List.length_eq_zero_iff.mp hsize)
    have hidle : LineBuffer.pushBack a SPACE = a := by
      show a.pushBack SPACE = a
      rw [CArgBuffer.pushBack, hstate]
      rfl
    exact push_line_drop hidle line
  · rfl

/-- Feeding characters keeps the arguments settled. -/
theorem settled_push_line (hsettled : a.Settled) (chars : List Byte) :
    (pushLine a chars).Settled :=
  sound_push_line (γ := CArgBuffer β) hsettled chars

/-- `getLine` without a line end feeds all characters and waits for more. -/
theorem get_line_all (hsettled : a.Settled) (h : Window get src data)
    (hline : ∀ ch ∈ data, isLineEnd ch = false) :
    getLine get src (src + data.length) a = .ok (false, src + data.length, pushLine a data) := by
  have hall : lineOf data = data :=
    List.takeWhile_eq_self_iff.mpr fun ch hch ↦ by rw [hline ch hch]; rfl
  rw [get_line_window a h, hall, take_line_settled hsettled, decide_eq_false (Nat.lt_irrefl _)]

/-- `getLine` stops at the first line end. -/
theorem get_line_found (hsettled : a.Settled) {front more : List Byte} {ch : Byte}
    (h : Window get src (front ++ ch :: more)) (hline : ∀ ch ∈ front, isLineEnd ch = false)
    (hch : isLineEnd ch = true) :
    getLine get src (src + (front ++ ch :: more).length) a =
      .ok (true, src + front.length, pushLine a front) := by
  have hfront : lineOf (front ++ ch :: more) = front :=
    take_while_split more (fun ch hch ↦ by rw [hline ch hch]; rfl) (by rw [hch]; rfl)
  have hless : front.length < (front ++ ch :: more).length := by
    rw [List.length_append, List.length_cons]
    omega
  rw [get_line_window a h, hfront, take_line_settled hsettled, decide_eq_true hless]

end

/-! ## Control characters -/

/-- The mapping of the remarks: a control character becomes a space. -/
def controlToSpace (ch : Byte) : Byte := if ch.toNat < 32 then SPACE else ch

/-- The mapping of the code is that of the remarks up to 127. -/
theorem printable_eq_iff (ch : Byte) : printable ch = controlToSpace ch ↔ ch.toNat < 128 := by
  have hlt := ch.toNat_lt
  have hspace : SPACE.toNat = 32 := rfl
  rw [← UInt8.toNat_inj, printable, controlToSpace, signedChar]
  split_ifs <;> omega

/-- The text of a line: the bytes from the first one that is neither space nor tab up to the line
end. -/
def lineText (data : List Byte) : List Byte := lineOf (data.dropWhile isBlank)

/-- A string takes the text of a line. -/
theorem push_line_chars (chars line : List Byte) :
    pushLine (⟨chars⟩ : StdString) line = ⟨chars ++ line.map printable⟩ := by
  induction line generalizing chars with
  | nil => simp
  | cons ch rest ih =>
      rw [push_line_cons, List.map_cons]
      refine (ih (chars ++ [printable ch])).trans ?_
      rw [List.append_assoc, List.singleton_append]

/-- `getLine` appends the text of the line to an empty string, with its control characters mapped
to spaces and no other character changed. -/
def MapsControlsOnly (data : List Byte) : Prop :=
  ∃ ended src, getLine (readData data) 0 data.length (⟨[]⟩ : StdString) =
    .ok (ended, src, ⟨(lineText data).map controlToSpace⟩)

/-- **`getLine` changes control characters only** exactly in lines without bytes from 128 on: these
are negative as `char` and become spaces, too. -/
theorem control_characters_only_iff (data : List Byte) :
    MapsControlsOnly data ↔ ∀ ch ∈ lineText data, ch.toNat < 128 := by
  have hline := get_line_window (⟨[]⟩ : StdString) (read_data_window data)
  have htake : takeLine (⟨[]⟩ : StdString) (lineOf data) = ⟨(lineText data).map printable⟩ := by
    have hempty : LineBuffer.size (⟨[]⟩ : StdString) = 0 := rfl
    rw [takeLine, if_pos hempty, line_of_drop, push_line_chars, List.nil_append, lineText]
  rw [Nat.zero_add, Nat.zero_add, htake] at hline
  rw [MapsControlsOnly, hline]
  constructor
  · rintro ⟨ended, src, h⟩ ch hch
    simp only [Except.ok.injEq, Prod.mk.injEq, StdString.mk.injEq] at h
    obtain ⟨-, -, hsame⟩ := h
    exact (printable_eq_iff ch).mp (List.map_inj_left.mp hsame ch hch)
  · intro h
    have hsame : (lineText data).map printable = (lineText data).map controlToSpace :=
      List.map_inj_left.mpr fun ch hch ↦ (printable_eq_iff ch).mpr (h ch hch)
    exact ⟨_, _, by rw [hsame]⟩

/-- **A byte from 128 on does not stay as it is**: the two bytes of `é` become two spaces. -/
theorem not_control_characters_only : ¬ ∀ data, MapsControlsOnly data := by
  intro h
  obtain ⟨ended, src, hline⟩ := h [195, 169, 13, 10]
  have hread : getLine (readData [195, 169, 13, 10]) 0 4 (⟨[]⟩ : StdString) =
      .ok (true, 2, ⟨[32, 32]⟩) := by decide
  have hsame := hread.symm.trans hline
  simp only [Except.ok.injEq, Prod.mk.injEq, StdString.mk.injEq] at hsame
  exact absurd hsame.2.2 (by decide)

end Smerp.Protocol
