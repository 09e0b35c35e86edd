import Smerp.Lib.Runs
import Smerp.Protocol.Chars

/-!
# The generator of single bytes

`isolatin1::Generator` of `examples/mtproc/generators/char_isolatin1.hpp` hands out the bytes of a
block one after the other. It advances its position before it takes the address, so that it hands
out the byte behind the one that is due (`delivers_block_iff`).
-/

namespace Smerp.Mtproc.Isolatin1

open Lib

/-- `Generator`: the address of the block, the position in it, and its size. -/
structure Generator where
  ar : Nat
  pos : Nat
  size : Nat
  deriving DecidableEq, Repr

namespace Generator

/-- The constructor. -/
def new : Generator := ⟨0, 0, 0⟩

/-- `next`: the address and the size of the element; `none` is the result `false`. -/
def next (g : Generator) : Option (Nat × Nat) × Generator :=
  if g.pos ≥ g.size then (none, g)
  else
    let g := { g with pos := g.pos + 1 }
    (some (g.ar + g.pos, 1), g)

/-- `protocolInput` -/
def protocolInput (_ : Generator) (block blocksize : Nat) : Generator := ⟨block, 0, blocksize⟩

/-- `getRestBlock`: the address and the size of the block. -/
def getRestBlock (g : Generator) : Nat × Nat :=
  (g.ar + g.pos, if g.pos ≥ g.size then 0 else g.size - g.pos)

end Generator

/-- The calls of a generator. -/
inductive Call where
  | next
  | protocolInput (block blocksize : Nat)
  | getRestBlock
  deriving DecidableEq, Repr

/-- A generator with the block that it got last, and the number of elements that it has delivered
since. -/
structure Iteration where
  generator : Generator
  block : Nat
  blocksize : Nat
  delivered : Nat
  deriving DecidableEq, Repr

namespace Iteration

/-- A new generator. -/
def start : Iteration := ⟨.new, 0, 0, 0⟩

/-- The iteration after a call. -/
def act (s : Iteration) : Call → Iteration
  | .next => match s.generator.next with
      | (some _, g) => { s with generator := g, delivered := s.delivered + 1 }
      | (none, g) => { s with generator := g }
  | .protocolInput block blocksize =>
      ⟨s.generator.protocolInput block blocksize, block, blocksize, 0⟩
  | .getRestBlock => s

/-- The result of a call: the element delivered is one byte inside of the block, the one that is due
next; none is delivered exactly when all have been; the rest block is the part not yet delivered. -/
def Right (memory : Nat → UInt8) (s : Iteration) : Call → Prop
  | .next => match s.generator.next.1 with
      | some (elem, size) => s.delivered < s.blocksize ∧ size = 1 ∧ s.block ≤ elem ∧
          elem < s.block + s.blocksize ∧ memory elem = memory (s.block + s.delivered)
      | none => s.delivered = s.blocksize
  | .protocolInput _ _ => True
  | .getRestBlock =>
      s.generator.getRestBlock = (s.block + s.delivered, s.blocksize - s.delivered)

/-- No element is taken, or a byte that is followed by the same one in the block. -/
def Repeated (memory : Nat → UInt8) (s : Iteration) (call : Call) : Prop :=
  call = .next → s.delivered < s.blocksize → s.delivered + 1 < s.blocksize ∧
    memory (s.block + s.delivered + 1) = memory (s.block + s.delivered)

/-- The generator is at the element that is due. -/
structure Due (s : Iteration) : Prop where
  ar : s.generator.ar = s.block
  size : s.generator.size = s.blocksize
  pos : s.generator.pos = s.delivered
  le : s.delivered ≤ s.blocksize

/-- `next` takes an element if there is one left. -/
theorem Due.next_eq {s : Iteration} (h : s.Due) : s.generator.next =
    if s.delivered < s.blocksize then
      (some (s.block + (s.delivered + 1), 1), ⟨s.block, s.delivered + 1, s.blocksize⟩)
    else (none, s.generator) := by
  rw [Generator.next, h.pos, h.size, h.ar]
  by_cases hleft : s.delivered < s.blocksize
  · rw [if_neg (Nat.not_le.mpr hleft), if_pos hleft]
  · rw [if_pos (Nat.not_lt.mp hleft), if_neg hleft]

/-- A call keeps the generator at the element that is due. -/
theorem Due.act {s : Iteration} (h : s.Due) (call : Call) : (s.act call).Due := by
  cases call with
  | next =>
      rw [Iteration.act, h.next_eq]
      by_cases hleft : s.delivered < s.blocksize
      · rw [if_pos hleft]
        exact ⟨rfl, rfl, rfl, hleft⟩
      · rw [if_neg hleft]
        exact h
  | protocolInput block blocksize => exact ⟨rfl, rfl, rfl, Nat.zero_le _⟩
  | getRestBlock => exact h

/-- The rest block is right, and an element is right if the byte behind it is the same. -/
theorem Due.right_iff {s : Iteration} (h : s.Due) (memory : Nat → UInt8) (call : Call) :
    s.Right memory call ↔ s.Repeated memory call := by
  cases call with
  | next =>
      rw [Right, h.next_eq, Repeated]
      by_cases hleft : s.delivered < s.blocksize
      · rw [if_pos hleft]
        constructor
        · rintro ⟨-, -, -, hinside, hsame⟩ - -
          exact ⟨by omega, hsame⟩
        · intro hrepeated
          obtain ⟨hinside, hsame⟩ := hrepeated rfl hleft
          exact ⟨hleft, rfl, by omega, by omega, hsame⟩
      · rw [if_neg hleft]
        exact iff_of_true (Nat.le_antisymm h.le (Nat.not_lt.mp hleft)) fun _ hlt ↦ absurd hlt hleft
  | protocolInput block blocksize => exact iff_of_true trivial nofun
  | getRestBlock =>
      refine iff_of_true ?_ nofun
      have hrest : (if s.delivered ≥ s.blocksize then 0 else s.blocksize - s.delivered) =
          s.blocksize - s.delivered := by
        split_ifs <;> omega
      rw [Right, Generator.getRestBlock, h.ar, h.pos, h.size, hrest]

/-- **The generator delivers the block** exactly along the calls in which `next` takes no element
but bytes that are followed by the same byte in the block. -/
theorem delivers_block_iff (memory : Nat → UInt8) (calls : List Call) :
    Runs.Each act (Right memory) start calls ↔ Runs.Each act (Repeated memory) start calls := by
  have hstep (s : Iteration) (call : Call) (h : s.Due) (_ : True) :
      (s.Right memory call ↔ s.Repeated memory call) ∧ (s.act call).Due :=
    ⟨h.right_iff memory call, h.act call⟩
  have hstart : start.Due := ⟨rfl, rfl, rfl, Nat.le_refl _⟩
  exact Runs.each_iff_rule hstep hstart (Runs.each_of_forall fun _ _ ↦ trivial)

/-- **The first byte of a block is lost**: of `ab` the byte `b` is delivered first. -/
theorem not_delivers_block : ¬ ∀ (memory : Nat → UInt8) (calls : List Call),
    Runs.Each act (Right memory) start calls := by
  intro h
  have hrun := h (fun address ↦ if address = 100 then 97 else 98)
    [.protocolInput 100 2, .next]
  obtain ⟨-, ⟨-, -, -, -, hsame⟩, -⟩ := hrun
  revert hsame
  decide

end Iteration

end Smerp.Mtproc.Isolatin1
