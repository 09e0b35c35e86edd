import Smerp.Lib.Runs
import Smerp.Protocol.IoBlocks

/-!
# Output blocks as append buffers

The `OutputBlock` of `include/protocol/ioblocks.hpp` over every sequence of its calls. There are two
ways to append: `print` stores a character, and `incPos` moves the cursor over bytes that were
written through `rest()`. `print` stops at the capacity. `incPos` already fails when its bytes fill
the block exactly, and it computes the new position modulo `2 ^ 32`, so that a large increment
passes the test and moves the cursor back.
-/

namespace Smerp.Protocol

open Lib

/-- `incPos`: forward the cursor. The sum is an `unsigned int`. -/
def OutputBlock.incPos (block : OutputBlock) (nn : UInt32) : Bool × OutputBlock :=
  let forwarded := (block.pos + nn.toNat) % 2 ^ 32
  if forwarded ≥ block.size then (false, block)
  else (true, ⟨⟨block.bytes, forwarded⟩⟩)

namespace OutputBlock

/-- The calls that change an output block. -/
inductive Call where
  | print (ch : Byte)
  | incPos (nn : UInt32)
  | release
  deriving DecidableEq, Repr

/-- The number of bytes a call offers to the block. -/
def Call.offered : Call → Nat
  | .print _ => 1
  | .incPos nn => nn.toNat
  | .release => 0

/-- The result of a call and the block behind it; `release` cannot fail. -/
def call (block : OutputBlock) : Call → Bool × OutputBlock
  | .print ch => block.print ch
  | .incPos nn => block.incPos nn
  | .release => (true, block.release)

/-- A block and the number of bytes it accepted since the last `release`. -/
structure Filling where
  block : OutputBlock
  accepted : Nat
  deriving DecidableEq, Repr

/-- A newly constructed block. -/
def Filling.new (memory : List Byte) : Filling := ⟨.new memory, 0⟩

/-- The count behind a call. -/
def Filling.count (filling : Filling) (request : Call) : Nat :=
  match request with
  | .release => 0
  | .print _ | .incPos _ =>
      if (filling.block.call request).1 = true then filling.accepted + request.offered
      else filling.accepted

/-- One call. -/
def Filling.act (filling : Filling) (request : Call) : Filling :=
  ⟨(filling.block.call request).2, filling.count request⟩

/-- The position is what was accepted, and it and the rest are the whole block. -/
def Filling.Consistent (filling : Filling) : Prop :=
  filling.block.pos + filling.block.restsize = filling.block.size ∧
    filling.block.pos = filling.accepted

/-- An appending call succeeds exactly if the rest has room for what it offers. It then forwards the
position by that, and a failing call changes nothing. -/
def Appends (block : OutputBlock) (request : Call) : Prop :=
  ((block.call request).1 = true ↔ request.offered ≤ block.restsize) ∧
    ((block.call request).1 = true →
      (block.call request).2.pos = block.pos + request.offered) ∧
    ((block.call request).1 = false → (block.call request).2 = block)

/-- What a call should do. -/
def Right (filling : Filling) : Call → Prop
  | .release => (filling.act .release).block.pos = 0
  | .print ch => Appends filling.block (.print ch)
  | .incPos nn => Appends filling.block (.incPos nn)

/-- The increment does not fill the block exactly, and the sum does not overflow. -/
def Clean (filling : Filling) : Call → Prop
  | .incPos nn =>
      filling.block.pos + nn.toNat ≠ filling.block.size ∧ filling.block.pos + nn.toNat < 2 ^ 32
  | .print _ | .release => True

/-- The position is inside the block, whatever was called. -/
structure Inside (block : OutputBlock) : Prop where
  pos_le : block.pos ≤ block.size
  size_lt : block.size < 2 ^ 32

/-- Inside the block, the position and the rest are the whole block. -/
theorem Inside.whole {block : OutputBlock} (h : Inside block) :
    block.pos + block.restsize = block.size := by
  rw [restsize]
  exact Nat.add_sub_of_le h.pos_le

/-- `print` works like an append. -/
theorem Inside.print {block : OutputBlock} (h : Inside block) (ch : Byte) :
    Appends block (.print ch) ∧ Inside (block.print ch).2 := by
  have hpos := h.pos_le
  simp only [Appends, call, Call.offered, OutputBlock.print, restsize]
  by_cases hfull : block.pos = block.size
  · rw [if_pos hfull]
    refine ⟨⟨?_, by simp, fun _ ↦ rfl⟩, h⟩
    simp [hfull]
  · rw [if_neg hfull]
    refine ⟨⟨?_, fun _ ↦ rfl, by simp⟩, ⟨?_, ?_⟩⟩
    · simp only [true_iff]
      omega
    · simp only [MemBlock.size, List.length_set] at hpos hfull ⊢
      omega
    · simpa only [MemBlock.size, List.length_set] using h.size_lt

/-- The two outcomes of `incPos`. -/
theorem inc_pos_cases (block : OutputBlock) (nn : UInt32) :
    (block.size ≤ (block.pos + nn.toNat) % 2 ^ 32 ∧ block.incPos nn = (false, block)) ∨
      ((block.pos + nn.toNat) % 2 ^ 32 < block.size ∧
        block.incPos nn = (true, ⟨⟨block.bytes, (block.pos + nn.toNat) % 2 ^ 32⟩⟩)) := by
  by_cases hfull : block.size ≤ (block.pos + nn.toNat) % 2 ^ 32
  · exact .inl ⟨hfull, by rw [incPos, if_pos hfull]⟩
  · exact .inr ⟨Nat.lt_of_not_le hfull, by rw [incPos, if_neg hfull]⟩

/-- `incPos` never leaves the block. -/
theorem Inside.inc_pos {block : OutputBlock} (h : Inside block) (nn : UInt32) :
    Inside (block.incPos nn).2 := by
  obtain ⟨_, hcall⟩ | ⟨hroom, hcall⟩ := inc_pos_cases block nn
  · rw [hcall]
    exact h
  · rw [hcall]
    exact ⟨Nat.le_of_lt hroom, h.size_lt⟩

/-- `incPos` works like an append unless it fills the block exactly or overflows. -/
theorem Inside.inc_pos_appends {block : OutputBlock} (h : Inside block) (nn : UInt32) :
    Appends block (.incPos nn) ↔
      block.pos + nn.toNat ≠ block.size ∧ block.pos + nn.toNat < 2 ^ 32 := by
  have hpos := h.pos_le
  have hsize := h.size_lt
  have hnn : nn.toNat < 2 ^ 32 := nn.toNat_lt
  simp only [Appends, call, Call.offered, restsize]
  obtain ⟨hfull, hcall⟩ | ⟨hroom, hcall⟩ := inc_pos_cases block nn
  · -- A sum that overflows is below the old position, and never reaches the size.
    have hsmall : block.pos + nn.toNat < 2 ^ 32 := by
      by_contra hlarge
      have hwrap : (block.pos + nn.toNat) % 2 ^ 32 = block.pos + nn.toNat - 2 ^ 32 := by omega
      omega
    rw [Nat.mod_eq_of_lt hsmall] at hfull
    rw [hcall]
    constructor
    · intro hright
      have hno := hright.1
      simp only [Bool.false_eq_true, false_iff] at hno
      exact ⟨by omega, hsmall⟩
    · rintro ⟨hne, _⟩
      refine ⟨?_, by simp, fun _ ↦ rfl⟩
      simp only [Bool.false_eq_true, false_iff]
      omega
  · rw [hcall]
    constructor
    · intro hright
      have hyes := hright.1.mp rfl
      have hforward := hright.2.1 rfl
      simp only at hforward
      omega
    · rintro ⟨_, hsmall⟩
      rw [Nat.mod_eq_of_lt hsmall] at hroom ⊢
      refine ⟨?_, fun _ ↦ rfl, by simp⟩
      simp only [true_iff]
      omega

/-- Every call stays inside the block, and it is right exactly if it is clean. -/
theorem Inside.step {filling : Filling} (h : Inside filling.block) (request : Call) :
    (Right filling request ↔ Clean filling request) ∧ Inside (filling.act request).block := by
  cases request with
  | print ch => exact ⟨iff_of_true (h.print ch).1 trivial, (h.print ch).2⟩
  | incPos nn => exact ⟨h.inc_pos_appends nn, h.inc_pos nn⟩
  | release => exact ⟨iff_of_true rfl trivial, ⟨Nat.zero_le _, h.size_lt⟩⟩

/-- An appending call that is right keeps the count and the position together. -/
theorem Appends.count {filling : Filling} {request : Call} (happend : Appends filling.block request)
    (hcount : filling.count request = if (filling.block.call request).1 = true
      then filling.accepted + request.offered else filling.accepted)
    (heq : filling.block.pos = filling.accepted) :
    (filling.act request).block.pos = (filling.act request).accepted := by
  simp only [Filling.act]
  rw [hcount]
  cases hresult : (filling.block.call request).1 with
  | true =>
      rw [happend.2.1 hresult, heq]
      rfl
  | false =>
      rw [happend.2.2 hresult, heq]
      rfl

/-- A right call keeps the count and the position together. -/
theorem Right.count {filling : Filling} {request : Call} (hright : Right filling request)
    (heq : filling.block.pos = filling.accepted) :
    (filling.act request).block.pos = (filling.act request).accepted := by
  cases request with
  | print ch => exact Appends.count hright rfl heq
  | incPos nn => exact Appends.count hright rfl heq
  | release => exact hright

/-- The block is a bounded append buffer along the run of calls. -/
def AppendBuffer (memory : List Byte) (calls : List Call) : Prop :=
  Runs.Always Filling.act Filling.Consistent (Filling.new memory) calls ∧
    Runs.Each Filling.act Right (Filling.new memory) calls

/-- The block is a bounded append buffer along a run exactly if no increment of the run fills it
exactly or overflows. -/
theorem append_buffer_iff (memory : List Byte) (hsize : memory.length < 2 ^ 32)
    (calls : List Call) :
    AppendBuffer memory calls ↔ Runs.Each Filling.act Clean (Filling.new memory) calls := by
  have hinit : Inside (Filling.new memory).block := ⟨Nat.zero_le _, hsize⟩
  have hany : Runs.Each Filling.act (fun _ _ ↦ True) (Filling.new memory) calls :=
    Runs.each_of_forall fun _ _ ↦ trivial
  have hcall : ∀ (filling : Filling) (request : Call), Inside filling.block → True →
      (Right filling request ↔ Clean filling request) ∧ Inside (filling.act request).block :=
    fun _ request h _ ↦ h.step request
  have hsame := Runs.each_iff_rule hcall hinit hany
  constructor
  · intro h
    exact hsame.mp h.2
  · intro hclean
    have hstep : ∀ filling request, (Inside filling.block ∧ filling.block.pos = filling.accepted) →
        Clean filling request →
          Inside (filling.act request).block ∧
            (filling.act request).block.pos = (filling.act request).accepted := by
      intro filling request h hrequest
      obtain ⟨hiff, hinside⟩ := h.1.step request
      exact ⟨hinside, (hiff.mpr hrequest).count h.2⟩
    have hrun := Runs.always_rule hstep ⟨hinit, rfl⟩ hclean
    exact ⟨hrun.mono fun _ h ↦ ⟨h.1.whole, h.2⟩, hsame.mpr hclean⟩

/-- A run that prints, forwards into the block, fails to forward behind it, and releases. -/
theorem append_buffer_iff_run :
    AppendBuffer [0, 0, 0] [.print 65, .incPos 1, .incPos 5, .release, .incPos 2] :=
  (append_buffer_iff [0, 0, 0] (by decide)
    [.print 65, .incPos 1, .incPos 5, .release, .incPos 2]).mpr
      (by simp only [Runs.Each, Clean]; decide)

/-- A block of one byte has room for one byte, and `incPos` of one byte fails. -/
theorem inc_pos_refuses_last :
    ¬ ∀ (memory : List Byte) (calls : List Call), memory.length < 2 ^ 32 →
      AppendBuffer memory calls := by
  intro h
  have hright : Right (Filling.new [0]) (.incPos 1) := (h [0] [.incPos 1] (by decide)).2.1
  have hsuccess : (OutputBlock.incPos ⟨⟨[0], 0⟩⟩ 1).1 = true := hright.1.mpr (by decide)
  exact absurd hsuccess (by decide)

end OutputBlock

end Smerp.Protocol
