import Mathlib.Data.List.Basic
import Smerp.Protocol.IoBlocks

/-!
# Protocol buffers

The buffers of `include/protocol/buffers.hpp`: the fixed size character buffer in which a handler
assembles its reply lines, and the packed command buffer that compares command names as one
64-bit value.
-/

namespace Smerp.Protocol

/-- What `CArgBuffer` uses of the type of its content buffer: the functions of a string, and the
characters that the string consists of. -/
class ContentBuffer (β : Type) where
  content : β → List Byte
  pushBack : β → Byte → β
  size : β → Nat
  /-- The memory behind the pointer that `c_str` returns. -/
  cStr : β → List Byte
  size_eq (buffer : β) : size buffer = (content buffer).length
  push_congr (buffer other : β) (ch : Byte) (h : content buffer = content other) :
    content (pushBack buffer ch) = content (pushBack other ch)
  push_extends (buffer : β) (ch : Byte) : content buffer <+: content (pushBack buffer ch)
  c_str_eq (buffer : β) : ∃ behind, cStr buffer = content buffer ++ 0 :: behind

/-- A content buffer that can be emptied, as `CArgBuffer::init` needs it. -/
class ResetBuffer (β : Type) extends ContentBuffer β where
  init : β → β
  content_init (buffer : β) : content (init buffer) = []

/-- `std::string`: a content buffer without bounds. -/
structure StdString where
  chars : List Byte
  deriving DecidableEq, Repr

instance : ContentBuffer StdString where
  content buffer := buffer.chars
  pushBack buffer ch := ⟨buffer.chars ++ [ch]⟩
  size buffer := buffer.chars.length
  cStr buffer := buffer.chars ++ [0]
  size_eq _ := rfl
  push_congr _ _ ch h := congrArg (· ++ [ch]) h
  push_extends _ ch := ⟨[ch], rfl⟩
  c_str_eq _ := ⟨[], rfl⟩

/-- `Buffer<SIZE>`: `SIZE + 1` characters of memory and the number of characters pushed. `SIZE` is
an `unsigned int`. -/
structure Buffer (SIZE : Nat) where
  memory : List Byte
  pos : Nat
  length_eq : memory.length = SIZE + 1
  pos_le : pos ≤ SIZE
  size_lt : SIZE < 2 ^ 32
  deriving DecidableEq, Repr

namespace Buffer

variable {SIZE : Nat}

/-- A newly constructed buffer over uninitialised memory. -/
def new (memory : List Byte) (h : memory.length = SIZE + 1) (hsize : SIZE < 2 ^ 32) :
    Buffer SIZE :=
  ⟨memory, 0, h, Nat.zero_le _, hsize⟩

/-- A newly constructed buffer over cleared memory. -/
def cleared (hsize : SIZE < 2 ^ 32) : Buffer SIZE :=
  .new (List.replicate (SIZE + 1) 0) List.length_replicate hsize

/-- The size of the reply lines. -/
theorem line_size : 128 < 2 ^ 32 := by decide

/-- `init` -/
def init (buffer : Buffer SIZE) : Buffer SIZE := { buffer with pos := 0, pos_le := Nat.zero_le _ }

/-- `push_back`: a full buffer drops the character. -/
def pushBack (buffer : Buffer SIZE) (ch : Byte) : Buffer SIZE :=
  if h : buffer.pos < SIZE then
    ⟨buffer.memory.set buffer.pos ch, buffer.pos + 1, by simp [buffer.length_eq], h,
      buffer.size_lt⟩
  else buffer

/-- `c_str`: terminate the string and hand out the memory. -/
def cStr (buffer : Buffer SIZE) : Buffer SIZE :=
  { buffer with memory := buffer.memory.set buffer.pos 0, length_eq := by simp [buffer.length_eq] }

/-- The first `len` characters behind the pointer returned by `c_str`. -/
def read (buffer : Buffer SIZE) (len : Nat) : Except Fault (List Byte) :=
  if len ≤ SIZE + 1 then .ok (buffer.memory.take len) else .error .wildRead

/-- The characters pushed so far. -/
def content (buffer : Buffer SIZE) : List Byte := buffer.memory.take buffer.pos

@[simp] theorem content_init (buffer : Buffer SIZE) : buffer.init.content = [] := by
  simp [init, content]

@[simp] theorem content_length (buffer : Buffer SIZE) : buffer.content.length = buffer.pos := by
  have hlen := buffer.length_eq
  have hpos := buffer.pos_le
  simp only [content, List.length_take]
  omega

/-- Pushing appends the character as long as there is room. -/
theorem content_push_back {buffer : Buffer SIZE} (ch : Byte) (h : buffer.pos < SIZE) :
    (buffer.pushBack ch).content = buffer.content ++ [ch] ∧
      (buffer.pushBack ch).pos = buffer.pos + 1 := by
  have hlt : buffer.pos < buffer.memory.length := by
    have := buffer.length_eq
    omega
  simp only [pushBack, h, content, dite_true, and_true]
  rw [List.take_add_one, List.getElem?_set_self hlt, List.take_set_of_le (Nat.le_refl _)]
  rfl

/-- Pushing a text that fits appends it. -/
theorem content_push_all {buffer : Buffer SIZE} (chars : List Byte)
    (h : buffer.pos + chars.length ≤ SIZE) :
    (chars.foldl pushBack buffer).content = buffer.content ++ chars := by
  induction chars generalizing buffer with
  | nil => simp
  | cons ch rest ih =>
      simp only [List.length_cons] at h
      obtain ⟨hcontent, hpos⟩ := content_push_back ch (show buffer.pos < SIZE by omega)
      rw [List.foldl_cons, ih (by omega), hcontent, List.append_assoc, List.singleton_append]

/-- Reading as many characters as were pushed gives the characters pushed. -/
theorem read_c_str (buffer : Buffer SIZE) : buffer.cStr.read buffer.pos = .ok buffer.content := by
  have hpos := buffer.pos_le
  rw [read, if_pos (by omega), cStr, List.take_set_of_le (Nat.le_refl _), content]

/-- A full buffer drops the character. -/
theorem push_back_full {buffer : Buffer SIZE} (ch : Byte) (h : ¬ buffer.pos < SIZE) :
    buffer.pushBack ch = buffer := by
  rw [pushBack, dif_neg h]

/-- The content is the front of the characters pushed. -/
theorem content_push_take {buffer : Buffer SIZE} {chars : List Byte}
    (h : buffer.content = chars.take SIZE) (ch : Byte) :
    (buffer.pushBack ch).content = (chars ++ [ch]).take SIZE := by
  have hpos : buffer.pos = min SIZE chars.length := by
    rw [← buffer.content_length, h, List.length_take]
  by_cases hroom : buffer.pos < SIZE
  · rw [(content_push_back ch hroom).1, h, List.take_of_length_le (by omega),
      List.take_of_length_le (by rw [List.length_append, List.length_singleton]; omega)]
  · rw [push_back_full ch hroom, h, List.take_append_of_le_length (by omega)]

/-- The content of a buffer that was emptied is the front of the characters pushed since. -/
theorem content_push_all_take (buffer : Buffer SIZE) (chars : List Byte) :
    (chars.foldl pushBack buffer.init).content = chars.take SIZE := by
  have hgo (before more : List Byte) (buffer : Buffer SIZE)
      (h : buffer.content = before.take SIZE) :
      (more.foldl pushBack buffer).content = (before ++ more).take SIZE := by
    induction more generalizing before buffer with
    | nil => rw [List.foldl_nil, List.append_nil, h]
    | cons ch rest ih =>
        rw [List.foldl_cons, ih (before ++ [ch]) _ (content_push_take h ch), List.append_assoc,
          List.singleton_append]
  exact hgo [] chars buffer.init (by simp)

/-- What pushing a character does depends on the characters pushed only. -/
theorem content_push_congr {buffer other : Buffer SIZE} (h : buffer.content = other.content)
    (ch : Byte) : (buffer.pushBack ch).content = (other.pushBack ch).content := by
  have hpos : buffer.pos = other.pos := by rw [← content_length, ← content_length, h]
  by_cases hroom : buffer.pos < SIZE
  · rw [(content_push_back ch hroom).1, (content_push_back ch (hpos ▸ hroom)).1, h]
  · rw [push_back_full ch hroom, push_back_full ch (hpos ▸ hroom), h]

/-- Pushing keeps the characters pushed before. -/
theorem content_push_extends (buffer : Buffer SIZE) (ch : Byte) :
    buffer.content <+: (buffer.pushBack ch).content := by
  by_cases hroom : buffer.pos < SIZE
  · exact ⟨[ch], (content_push_back ch hroom).1.symm⟩
  · exact (push_back_full ch hroom).symm ▸ List.prefix_refl _

/-- The memory behind the pointer returned by `c_str`: the characters pushed, and a zero. -/
theorem memory_c_str (buffer : Buffer SIZE) :
    ∃ behind, buffer.cStr.memory = buffer.content ++ 0 :: behind := by
  have hlt : buffer.pos < buffer.memory.length := by
    have hlen := buffer.length_eq
    have hpos := buffer.pos_le
    omega
  refine ⟨buffer.memory.drop (buffer.pos + 1), ?_⟩
  rw [cStr, content]
  exact List.set_eq_take_append_cons_drop.trans (if_pos hlt)

instance : ResetBuffer (Buffer SIZE) where
  content := content
  pushBack := pushBack
  size := pos
  cStr buffer := buffer.cStr.memory
  size_eq buffer := (content_length buffer).symm
  push_congr _ _ ch h := content_push_congr h ch
  push_extends := content_push_extends
  c_str_eq := memory_c_str
  init := init
  content_init := content_init

end Buffer

/-- `CmdBuffer`: the command name, packed with six bits per character. -/
structure CmdBuffer where
  pos : Nat
  value : UInt64
  deriving DecidableEq, Repr

namespace CmdBuffer

/-- `MaxCommandLen=(sizeof(ValueType)/6)`, a number of bytes divided by a number of bits. -/
def maxCommandLen : Nat := 8 / 6

/-- A newly constructed command buffer. -/
def new : CmdBuffer := ⟨0, 0⟩

/-- `init` -/
def init (_ : CmdBuffer) : CmdBuffer := new

/-- `push_back`: shift the next letter or digit in; `m_pos` is never advanced. Any other character
resets the buffer. -/
def pushBack (buf : CmdBuffer) (ch : Byte) : CmdBuffer :=
  if buf.pos ≥ maxCommandLen then buf.init
  else if 97 ≤ ch.toNat ∧ ch.toNat ≤ 122 then
    { buf with value := (buf.value <<< 6) ||| (ch - 97).toUInt64 }
  else if 65 ≤ ch.toNat ∧ ch.toNat ≤ 90 then
    { buf with value := (buf.value <<< 6) ||| (ch - 65).toUInt64 }
  else if 48 ≤ ch.toNat ∧ ch.toNat ≤ 57 then
    { buf with value := (buf.value <<< 6) ||| (ch + 26 - 48).toUInt64 }
  else buf.init

/-- Feed the characters of a name. -/
def pushAll (buf : CmdBuffer) (chars : List Byte) : CmdBuffer := chars.foldl pushBack buf

@[simp] theorem push_all_nil (buf : CmdBuffer) : buf.pushAll [] = buf := rfl

@[simp] theorem push_all_cons (buf : CmdBuffer) (ch : Byte) (rest : List Byte) :
    buf.pushAll (ch :: rest) = (buf.pushBack ch).pushAll rest := rfl

/-- Feeding a concatenation feeds its parts one after the other. -/
theorem push_all_append (buf : CmdBuffer) (first second : List Byte) :
    buf.pushAll (first ++ second) = (buf.pushAll first).pushAll second :=
  List.foldl_append

end CmdBuffer

end Smerp.Protocol
