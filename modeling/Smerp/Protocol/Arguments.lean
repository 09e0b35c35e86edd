import Smerp.Protocol.Parser

/-!
# Argument parsing

`CArgBuffer` of `include/protocol/buffers.hpp` splits a line into arguments, with quotes and
escapes, and keeps them as zero-terminated strings in one character buffer. Outside of the state
`Empty` an argument is open.
-/

namespace Smerp.Protocol

open Lib

/-- The states of the argument buffer. -/
inductive ArgState where
  | endToken
  | empty
  | content
  | contentEsc
  | sqContent
  | sqContentEsc
  | dqContent
  | dqContentEsc
  deriving DecidableEq, Repr

/-- `'\''` -/
def SQUOTE : Byte := 39
/-- `'\"'` -/
def DQUOTE : Byte := 34
/-- `'\\'` -/
def BACKSLASH : Byte := 92

/-- The number of arguments, `Size` of the source. -/
def maxNofArguments : Nat := 16

/-- `CArgBuffer`, over a type of content buffers: the offsets of the arguments opened so far, whose
number is `m_pos`, and the buffer with their characters. -/
structure CArgBuffer (β : Type) where
  buf : List Nat
  state : ArgState
  content : β
  deriving DecidableEq, Repr

namespace CArgBuffer

/-- The constructor. -/
def new {β : Type} (content : β) : CArgBuffer β := ⟨[], .empty, content⟩

variable {β : Type} [ContentBuffer β]

/-- `openArg`: an offset is an `unsigned int`, whatever the type of the size is. -/
def openArg (a : CArgBuffer β) : CArgBuffer β :=
  if a.buf.length < maxNofArguments then
    { a with buf := a.buf ++ [ContentBuffer.size a.content % 2 ^ 32] }
  else a

/-- `init`: the state stays as it is. -/
def init {β : Type} [ResetBuffer β] (a : CArgBuffer β) : CArgBuffer β :=
  { a with buf := [], content := ResetBuffer.init a.content }

/-- `m_content->push_back`, and the state behind it. -/
def put (a : CArgBuffer β) (state : ArgState) (ch : Byte) : CArgBuffer β :=
  { a with state := state, content := ContentBuffer.pushBack a.content ch }

/-- The state behind a character that is not stored. -/
def goto (a : CArgBuffer β) (state : ArgState) : CArgBuffer β := { a with state := state }

/-- `push_back` -/
def pushBack (a : CArgBuffer β) (ch : Byte) : CArgBuffer β :=
  match a.state with
  | .endToken =>
      if ch = SQUOTE then a.goto .sqContent
      else if ch = DQUOTE then a.goto .dqContent
      else if ch = BACKSLASH then a.goto .contentEsc
      else if ch = SPACE then a.put .empty 0
      else a.put .content ch
  | .empty =>
      if ch = SQUOTE then a.openArg.goto .sqContent
      else if ch = DQUOTE then a.openArg.goto .dqContent
      else if ch = BACKSLASH then a.openArg.goto .contentEsc
      else if ch = SPACE then a
      else a.openArg.put .content ch
  | .content =>
      if ch = SQUOTE then a.goto .sqContent
      else if ch = DQUOTE then a.goto .dqContent
      else if ch = BACKSLASH then a.goto .contentEsc
      else if ch = SPACE then a.put .empty 0
      else a.put .content ch
  | .contentEsc => a.put .content ch
  | .sqContent =>
      if ch = SQUOTE then a.goto .endToken
      else if ch = BACKSLASH then a.goto .sqContentEsc
      else a.put .sqContent ch
  | .sqContentEsc => a.put .sqContent ch
  | .dqContent =>
      if ch = DQUOTE then a.goto .endToken
      else if ch = BACKSLASH then a.goto .dqContentEsc
      else a.put .dqContent ch
  | .dqContentEsc => a.put .dqContent ch

/-- `size` -/
def size (a : CArgBuffer β) : Nat := a.buf.length

/-- `argc` -/
def argc (a : CArgBuffer β) : Nat := a.buf.length

/-- The C string at an offset of the content: up to its terminating zero. -/
def cString (a : CArgBuffer β) (offset : Nat) : List Byte :=
  ((ContentBuffer.cStr a.content).drop offset).takeWhile (· ≠ 0)

/-- `operator[]`, read as a C string; `none` is the null pointer. -/
def get (a : CArgBuffer β) (idx : Nat) : Option (List Byte) := a.buf[idx]?.map a.cString

/-- The strings behind the pointers that `argv` gives to a method. -/
def argv (a : CArgBuffer β) : List (List Byte) := a.buf.map a.cString

/-- Push characters one after the other. -/
def feed (a : CArgBuffer β) (chars : List Byte) : CArgBuffer β := chars.foldl pushBack a

/-- No argument is open outside of the state `Empty`. -/
def Settled (a : CArgBuffer β) : Prop := a.buf = [] → a.state = .empty

/-- Only in the state `Empty` an argument is opened. -/
theorem push_back_buf {a : CArgBuffer β} (hstate : a.state ≠ .empty) (ch : Byte) :
    (a.pushBack ch).buf = a.buf := by
  unfold pushBack
  cases h : a.state with
  | empty => exact absurd h hstate
  | endToken => grind [goto, put]
  | content => grind [goto, put]
  | contentEsc => rfl
  | sqContent => grind [goto, put]
  | sqContentEsc => rfl
  | dqContent => grind [goto, put]
  | dqContentEsc => rfl

/-- In the state `Empty` a space is skipped, and any other character opens an argument. -/
theorem push_back_empty {a : CArgBuffer β} (hstate : a.state = .empty) (ch : Byte) :
    (ch = SPACE ∧ a.pushBack ch = a) ∨ (a.pushBack ch).buf = a.openArg.buf := by
  unfold pushBack
  rw [hstate]
  by_cases hspace : ch = SPACE
  · subst hspace
    exact .inl ⟨rfl, rfl⟩
  · refine .inr ?_
    simp only [hspace, if_false]
    grind [goto, put]

/-- An argument is opened before the state `Empty` is left. -/
theorem Settled.push_back {a : CArgBuffer β} (h : a.Settled) (ch : Byte) :
    (a.pushBack ch).Settled := by
  intro hnone
  by_cases hstate : a.state = .empty
  · rcases push_back_empty hstate ch with ⟨-, hsame⟩ | hopen
    · rw [hsame]
      exact hstate
    · rw [hopen] at hnone
      unfold openArg at hnone
      by_cases hroom : a.buf.length < maxNofArguments
      · rw [if_pos hroom] at hnone
        exact absurd hnone (by simp)
      · rw [if_neg hroom] at hnone
        rw [hnone] at hroom
        exact absurd (by decide) hroom
  · rw [push_back_buf hstate] at hnone
    exact absurd (h hnone) hstate

end CArgBuffer

end Smerp.Protocol
