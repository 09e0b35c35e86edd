import Smerp.Protocol.ParsedArguments

/-!
# Histories of the argument buffer

What `CArgBuffer` keeps from one line to the next. `init` leaves the state as it is: it makes the
buffer as new exactly in the state `Empty` (`init_as_new_iff`).
-/

namespace Smerp.Protocol

open Lib

namespace CArgBuffer

variable {β : Type} [ContentBuffer β]

/-- Two buffers have the same arguments. -/
def SameArguments (a b : CArgBuffer β) : Prop := a.size = b.size ∧ ∀ i, a.get i = b.get i

/-- Two buffers that differ in the memory behind their contents only. -/
structure Alike (a b : CArgBuffer β) : Prop where
  state : a.state = b.state
  buf : a.buf = b.buf
  content : ContentBuffer.content a.content = ContentBuffer.content b.content
  inside : ∀ offset ∈ a.buf, offset ≤ (ContentBuffer.content a.content).length

namespace Alike

variable {a b : CArgBuffer β}

/-- Buffers that are alike have the same arguments. -/
theorem same_arguments (h : Alike a b) : SameArguments a b := by
  refine ⟨congrArg List.length h.buf, ?_⟩
  intro i
  rw [CArgBuffer.get, CArgBuffer.get, ← h.buf]
  cases hoffset : a.buf[i]? with
  | none => rfl
  | some offset =>
      have hinside := h.inside offset (List.mem_of_getElem? hoffset)
      rw [Option.map_some, Option.map_some, a.c_string_content hinside,
        b.c_string_content (h.content ▸ hinside), h.content]

/-- The same characters are pushed. -/
theorem put (h : Alike a b) {state other : ArgState} (hstate : state = other) (ch : Byte) :
    Alike (a.put state ch) (b.put other ch) := by
  refine ⟨hstate, h.buf, ContentBuffer.push_congr _ _ ch h.content, ?_⟩
  intro offset hoffset
  exact (h.inside offset hoffset).trans (ContentBuffer.push_extends a.content ch).length_le

/-- A step of the transition. -/
theorem apply (h : Alike a b) (step : ArgStep) : Alike (a.apply step) (b.apply step) := by
  cases step with
  | opens =>
      show Alike a.openArg b.openArg
      rw [openArg, openArg, ← h.buf]
      by_cases hroom : a.buf.length < maxNofArguments
      · rw [if_pos hroom, if_pos hroom, ContentBuffer.size_eq, ContentBuffer.size_eq, ← h.content]
        refine ⟨h.state, rfl, h.content, ?_⟩
        intro offset hoffset
        rcases List.mem_append.mp hoffset with hold | hnew
        · exact h.inside offset hold
        · rw [List.mem_singleton.mp hnew]
          exact Nat.mod_le _ _
      · rw [if_neg hroom, if_neg hroom]
        exact h
  | stores ch => exact h.put h.state ch
  | closes => exact h.put h.state 0

/-- Steps of a transition. -/
theorem steps (h : Alike a b) (steps : List ArgStep) :
    Alike (steps.foldl CArgBuffer.apply a) (steps.foldl CArgBuffer.apply b) := by
  induction steps generalizing a b with
  | nil => exact h
  | cons step rest ih => exact ih (h.apply step)

/-- Buffers that are alike stay alike. -/
theorem push_back (h : Alike a b) (ch : Byte) : Alike (a.pushBack ch) (b.pushBack ch) := by
  rw [push_back_eq_steps, push_back_eq_steps, ← h.state]
  have hsteps := h.steps (a.state.next ch).2
  exact ⟨rfl, hsteps.buf, hsteps.content, hsteps.inside⟩

/-- They stay alike along a line. -/
theorem feed (h : Alike a b) (chars : List Byte) : Alike (a.feed chars) (b.feed chars) := by
  induction chars generalizing a b with
  | nil => exact h
  | cons ch rest ih => exact ih (h.push_back ch)

end Alike

end CArgBuffer

open CArgBuffer

/-- **`init` makes the buffer as new exactly in the state `Empty`**: otherwise the next character is
taken for more of an argument that is not there. -/
theorem init_as_new_iff {β : Type} [ResetBuffer β] (content fresh : β) (history : List Byte) :
    (∀ chars, SameArguments (((new content).feed history).init.feed chars)
      ((new (ResetBuffer.init fresh)).feed chars)) ↔
      ((new content).feed history).state = .empty := by
  constructor
  · intro h
    by_contra hstate
    -- a letter opens an argument in the new buffer only
    have hsize := (h [97]).1
    have hold : (((new content).feed history).init.pushBack 97).buf = [] :=
      push_back_buf (a := ((new content).feed history).init) hstate 97
    have hnew : ((new (ResetBuffer.init fresh)).pushBack 97).buf =
        [ContentBuffer.size (ResetBuffer.init fresh) % 2 ^ 32] := rfl
    have hlen : (((new content).feed history).init.pushBack 97).buf.length =
        ((new (ResetBuffer.init fresh)).pushBack 97).buf.length := hsize
    rw [hold, hnew] at hlen
    exact absurd hlen (by simp)
  · intro hstate chars
    have hempty (buffer : β) : ContentBuffer.content (ResetBuffer.init buffer) = [] :=
      ResetBuffer.content_init buffer
    have halike : Alike ((new content).feed history).init (new (ResetBuffer.init fresh)) :=
      ⟨hstate, rfl, (hempty _).trans (hempty _).symm, nofun⟩
    exact (halike.feed chars).same_arguments

/-- **`init` does not make the buffer as new**: behind a line `"a"` the argument of the line `"b"`
is lost. -/
theorem not_init_as_new : ¬ ∀ history chars : List Byte,
    SameArguments (((new (Buffer.cleared (by decide) : Buffer 8)).feed history).init.feed chars)
      ((new (Buffer.cleared (by decide) : Buffer 8)).feed chars) := by
  intro h
  have hsize := (h (text "a") (text "b")).1
  revert hsize
  decide

end Smerp.Protocol
