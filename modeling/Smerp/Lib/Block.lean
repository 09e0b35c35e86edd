import Mathlib.Data.List.Basic

/-!
# Blocks of memory cells

A block is the list of its cells. `store` overwrites a range, `slice` reads one, `memmove` copies
a possibly overlapping range inside the block, and `memchr` searches one. Every operation that
writes keeps the block's length when the range lies inside it.
-/

namespace Lib.Block

variable {α : Type*}

/-- The cells `[start, start + len)`. -/
def slice (block : List α) (start len : Nat) : List α :=
  (block.drop start).take len

/-- Overwrite the cells from `start` on. -/
def store (block : List α) (start : Nat) (data : List α) : List α :=
  block.take start ++ data ++ block.drop (start + data.length)

/-- Copy the `len` cells from `src` to `dst`; the ranges may overlap. -/
def memmove (block : List α) (dst src len : Nat) : List α :=
  store block dst (slice block src len)

/-- The position of the first cell equal to `value` among the `len` cells from `start` on. -/
def memchr [DecidableEq α] (block : List α) (start len : Nat) (value : α) : Option Nat :=
  ((slice block start len).findIdx? (· = value)).map (start + ·)

@[simp] theorem slice_length (block : List α) (start len : Nat) :
    (slice block start len).length = min len (block.length - start) := by
  simp [slice]

/-- A slice and what follows it are the rest of the block. -/
theorem slice_append_drop (block : List α) (start len : Nat) :
    slice block start len ++ block.drop (start + len) = block.drop start := by
  rw [slice, ← List.drop_drop, List.take_append_drop]

/-- Adjacent slices join. -/
theorem slice_append_slice (block : List α) (start first second : Nat) :
    slice block start first ++ slice block (start + first) second =
      slice block start (first + second) := by
  simp only [slice]
  rw [← List.drop_drop, List.take_add]

@[simp] theorem slice_zero (block : List α) (start : Nat) : slice block start 0 = [] := by
  simp [slice]

/-- The first cell of a slice and the slice behind it. -/
theorem slice_eq_cons {block rest : List α} {start len : Nat} {x : α}
    (h : slice block start len = x :: rest) :
    block[start]? = some x ∧ slice block (start + 1) (len - 1) = rest := by
  cases len with
  | zero => simp at h
  | succ len =>
      cases hdrop : block.drop start with
      | nil => simp [slice, hdrop] at h
      | cons y more =>
          obtain ⟨rfl, rfl⟩ : y = x ∧ more.take len = rest := by simpa [slice, hdrop] using h
          have hfirst := congrArg (·[0]?) hdrop
          rw [slice, ← List.drop_drop, hdrop]
          exact ⟨by simpa using hfirst, rfl⟩

/-- A slice from a cell on. -/
theorem slice_succ {block : List α} {start : Nat} {x : α} (h : block[start]? = some x) (len : Nat) :
    slice block start (len + 1) = x :: slice block (start + 1) len := by
  obtain ⟨hlt, rfl⟩ := List.getElem?_eq_some_iff.mp h
  rw [slice, List.drop_eq_getElem_cons hlt, List.take_succ_cons, slice]

/-- A slice behind the block is empty. -/
theorem slice_outside {block : List α} {start : Nat} (h : block[start]? = none) (len : Nat) :
    slice block start len = [] := by
  rw [slice, List.drop_eq_nil_of_le (List.getElem?_eq_none_iff.mp h), List.take_nil]

/-- A slice inside of the first block of two. -/
theorem slice_append_left {block : List α} {start len : Nat} (behind : List α)
    (h : start + len ≤ block.length) :
    slice (block ++ behind) start len = slice block start len := by
  rw [slice, slice, List.drop_append_of_le_length (by omega),
    List.take_append_of_le_length (by rw [List.length_drop]; omega)]

/-- A shorter slice is the front of a longer one. -/
theorem slice_take (block : List α) (start : Nat) {short long : Nat} (h : short ≤ long) :
    slice block start short = (slice block start long).take short := by
  rw [slice, slice, List.take_take, Nat.min_eq_left h]

/-- Writing inside the block keeps its length. -/
theorem store_length {block : List α} {start : Nat} {data : List α}
    (h : start + data.length ≤ block.length) : (store block start data).length = block.length := by
  simp only [store, List.length_append, List.length_take, List.length_drop]
  omega

/-- The cells in front of a write, followed by the written ones. -/
theorem store_take {block : List α} {start : Nat} (data : List α) (h : start ≤ block.length) :
    (store block start data).take (start + data.length) = block.take start ++ data := by
  have hlen : (block.take start ++ data).length = start + data.length := by simp [h]
  rw [store, List.take_left' hlen]

/-- A write at the start of the block is its front. -/
@[simp] theorem store_zero_take (block data : List α) :
    (store block 0 data).take data.length = data := by
  simp [store]

/-- The cells behind a write are untouched. -/
theorem store_drop {block : List α} {start : Nat} (data : List α) (h : start ≤ block.length) :
    (store block start data).drop (start + data.length) = block.drop (start + data.length) := by
  have hlen : (block.take start ++ data).length = start + data.length := by simp [h]
  rw [store, List.drop_left' hlen]

/-- A write over the whole block. -/
theorem store_full {block data : List α} (h : data.length = block.length) :
    store block 0 data = data := by
  simp [store, h]

/-- Reading back a part of a write. -/
theorem slice_store {block : List α} {start : Nat} (front middle back : List α)
    (h : start ≤ block.length) :
    slice (store block start (front ++ middle ++ back)) (start + front.length) middle.length =
      middle := by
  have hlen : (block.take start ++ front).length = start + front.length := by simp [h]
  rw [slice, store, List.append_assoc front, ← List.append_assoc (block.take start),
    List.append_assoc,
    List.drop_left' hlen, List.append_assoc, List.take_left]

/-- A successful search splits the searched cells at the first occurrence. -/
theorem memchr_some [DecidableEq α] {block : List α} {start len : Nat} {value : α} {found : Nat}
    (h : memchr block start len value = some found) :
    ∃ front back, slice block start len = front ++ value :: back ∧ value ∉ front ∧
      found = start + front.length := by
  simp only [memchr, Option.map_eq_some_iff] at h
  obtain ⟨index, hindex, rfl⟩ := h
  rw [List.findIdx?_eq_some_iff_getElem] at hindex
  obtain ⟨hlt, hvalue, hbefore⟩ := hindex
  refine ⟨(slice block start len).take index, (slice block start len).drop (index + 1), ?_, ?_, ?_⟩
  · rw [← of_decide_eq_true hvalue, List.getElem_cons_drop, List.take_append_drop]
  · intro hmem
    obtain ⟨earlier, hearlier, heq⟩ := List.mem_iff_getElem.mp hmem
    rw [List.getElem_take] at heq
    simp only [List.length_take] at hearlier
    exact hbefore earlier (by omega) (by simpa using heq)
  · simp only [List.length_take]
    omega

/-- An unsuccessful search says the value does not occur. -/
theorem memchr_none [DecidableEq α] {block : List α} {start len : Nat} {value : α}
    (h : memchr block start len value = none) : value ∉ slice block start len := by
  simp only [memchr, Option.map_eq_none_iff, List.findIdx?_eq_none_iff,
    decide_eq_false_iff_not] at h
  exact fun hmem ↦ h value hmem rfl

/-- A slice of the block is a slice of what stands behind the offset. -/
theorem slice_drop (block : List α) (offset start len : Nat) :
    slice (block.drop offset) start len = slice block (offset + start) len := by
  rw [slice, slice, List.drop_drop]

/-- A write behind the offset is a write to what stands behind it. -/
theorem store_behind {block : List α} {offset start : Nat} (data : List α)
    (h : offset + start ≤ block.length) :
    (store block (offset + start) data).drop offset = store (block.drop offset) start data ∧
      (store block (offset + start) data).take offset = block.take offset := by
  have hfront : (block.take offset).length = offset := by
    rw [List.length_take]
    omega
  have hsplit : store block (offset + start) data =
      block.take offset ++ store (block.drop offset) start data := by
    simp only [store, List.append_assoc, List.take_add, List.drop_drop, Nat.add_assoc]
  rw [hsplit]
  exact ⟨List.drop_left' hfront, List.take_left' hfront⟩

/-- Searching behind the offset is searching what stands behind it. -/
theorem memchr_behind [DecidableEq α] (block : List α) (offset start len : Nat) (value : α) :
    memchr block (offset + start) len value =
      (memchr (block.drop offset) start len value).map (offset + ·) := by
  simp only [memchr, slice_drop, Option.map_map]
  congr 1
  funext index
  exact Nat.add_assoc offset start index

end Lib.Block
