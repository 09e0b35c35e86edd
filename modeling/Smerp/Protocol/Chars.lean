import Mathlib.Algebra.Group.Nat.Even
import Mathlib.Data.List.Basic

/-!
# Bytes as C characters

The network delivers bytes, and the protocol classes read them as `char`. `signedChar` is the
value of a byte as a signed 8-bit `char`, which is what the comparisons `ch <= 32` and `ch < 0`
of the source see. `text` gives the bytes of a string literal.
-/

namespace Smerp

/-- One byte of network data. -/
abbrev Byte := UInt8

/-- The bytes of a string literal, without its terminating zero. -/
def text (literal : String) : List Byte :=
  literal.toList.map fun c ↦ c.toNat.toUInt8

/-- `'\t'` -/
def TAB : Byte := 9
/-- `'\n'` -/
def LF : Byte := 10
/-- `'\r'` -/
def CR : Byte := 13
/-- `' '` -/
def SPACE : Byte := 32
/-- `'.'` -/
def DOT : Byte := 46

/-- The bytes `"\r\n"`. -/
def CRLF : List Byte := [CR, LF]

/-- The value of a byte read as a signed `char`. -/
def signedChar (ch : Byte) : Int :=
  if ch.toNat < 128 then ch.toNat else ch.toNat - 256

/-- A byte that `*src > 32` accepts, read as a signed `char`: it belongs to a command token. -/
def isTokenChar (ch : Byte) : Bool := decide (signedChar ch > 32)

/-- A byte that `Parser::skipSpaces` skips. -/
def isBlank (ch : Byte) : Bool := ch == SPACE || ch == TAB

/-- A byte that `Parser::isEOLN` accepts. -/
def isLineEnd (ch : Byte) : Bool := ch == CR || ch == LF

/-- The token bytes are the printable ones and DEL. -/
theorem is_token_char_iff (ch : Byte) : isTokenChar ch = true ↔ 32 < ch.toNat ∧ ch.toNat < 128 := by
  have := ch.toNat_lt
  unfold isTokenChar signedChar
  rw [decide_eq_true_iff]
  split <;> omega

@[simp] theorem is_token_char_blank {ch : Byte} (h : isBlank ch = true) :
    isTokenChar ch = false := by
  simp only [isBlank, Bool.or_eq_true, beq_iff_eq] at h
  obtain rfl | rfl := h <;> decide

@[simp] theorem is_token_char_line_end {ch : Byte} (h : isLineEnd ch = true) :
    isTokenChar ch = false := by
  simp only [isLineEnd, Bool.or_eq_true, beq_iff_eq] at h
  obtain rfl | rfl := h <;> decide

/-- A blank is not a line end. -/
theorem is_line_end_blank {ch : Byte} (h : isBlank ch = true) : isLineEnd ch = false := by
  simp only [isBlank, Bool.or_eq_true, beq_iff_eq] at h
  obtain rfl | rfl := h <;> decide

/-- The C library's `toupper` in the C locale. -/
def toupper (ch : Byte) : Byte :=
  if 97 ≤ ch.toNat ∧ ch.toNat ≤ 122 then ch - 32 else ch

/-- The C library's `tolower` in the C locale. -/
def tolower (ch : Byte) : Byte :=
  if 65 ≤ ch.toNat ∧ ch.toNat ≤ 90 then ch + 32 else ch

end Smerp
