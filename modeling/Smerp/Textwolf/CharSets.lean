import Mathlib.Data.List.GetD
import Mathlib.Data.UInt
import Smerp.Protocol.Chars

/-!
# Character sets of the XML scanner

The `charset` classes of `examples/xmlselect/textwolf.hpp`. A character set says how many bytes of
a character are loaded to classify it (`asize`), how many it has (`size`), which ASCII character it
is (`achar`), its code (`value`), and how a code is written (`print`). The lists stand for the
cells of a buffer that are in use.
-/

namespace Smerp.Textwolf

/-- `UChar` -/
abbrev UChar := UInt32

/-- `CharMap`: a value for each character byte. -/
abbrev CharMap (ρ : Type) := Byte → ρ

namespace CharMap

variable {ρ : Type}

/-- The constructor. -/
def fill (nullvalue : ρ) : CharMap ρ := fun _ ↦ nullvalue

/-- `operator()( from, to, value)` -/
def range (map : CharMap ρ) (start stop : Byte) (value : ρ) : CharMap ρ := fun ch ↦
  if start ≤ ch ∧ ch ≤ stop then value else map ch

/-- `operator()( at, value)` -/
def set (map : CharMap ρ) (place : Byte) (value : ρ) : CharMap ρ := fun ch ↦
  if ch = place then value else map ch

end CharMap

/-- A character set. What its classifying functions read are the first `asize` bytes. -/
structure CharSet where
  asize : Nat
  size : List Byte → Nat
  achar : List Byte → Byte
  value : List Byte → UChar
  /-- What is written into a buffer of this size; nothing if the function returns 0. -/
  print : UChar → UInt32 → List Byte
  asize_pos : 0 < asize
  size_head : ∀ buf more, asize ≤ buf.length → size (buf ++ more) = size buf
  achar_head : ∀ buf more, asize ≤ buf.length → achar (buf ++ more) = achar buf

/-- `buf[index]` -/
def cell (buf : List Byte) (index : Nat) : Byte := buf.getD index 0

/-- A loaded cell stays when more are loaded. -/
theorem cell_append {buf : List Byte} {index : Nat} (h : index < buf.length) (more : List Byte) :
    cell (buf ++ more) index = cell buf index :=
  List.getD_append buf more 0 index h

/-! ## One, two and four bytes for each character -/

/-- `IsoLatin1` -/
def IsoLatin1 : CharSet where
  asize := 1
  size _ := 1
  achar buf := cell buf 0
  value buf := (cell buf 0).toUInt32
  print chr bufsize :=
    if bufsize < 1 then []
    else [if chr ≤ 255 then chr.toUInt8 else 255]
  asize_pos := Nat.one_pos
  size_head _ _ _ := rfl
  achar_head _ more h := cell_append h more

/-- `ByteOrder` -/
inductive ByteOrder where
  | LE
  | BE
  deriving DecidableEq, Repr

/-- The index in a character of this many bytes of its byte with this weight. -/
def ByteOrder.place (encoding : ByteOrder) (bytes weight : Nat) : Nat :=
  match encoding with
  | .LE => weight
  | .BE => bytes - 1 - weight

/-- The bytes of a character, the one with the least weight given first. -/
def ByteOrder.arrange (encoding : ByteOrder) (bytes : List Byte) : List Byte :=
  match encoding with
  | .LE => bytes
  | .BE => bytes.reverse

theorem ByteOrder.place_lt (encoding : ByteOrder) {bytes weight : Nat} (h : weight < bytes) :
    encoding.place bytes weight < bytes := by
  cases encoding with
  | LE => exact h
  | BE =>
      show bytes - 1 - weight < bytes
      omega

/-- `UCS2` -/
def UCS2 (encoding : ByteOrder) : CharSet where
  asize := 2
  size _ := 2
  achar buf :=
    if cell buf (encoding.place 2 1) ≠ 0 then 255 else cell buf (encoding.place 2 0)
  value buf :=
    ((cell buf (encoding.place 2 1)).toUInt32 <<< 8) + (cell buf (encoding.place 2 0)).toUInt32
  print chr bufsize :=
    if bufsize < 2 then []
    else if chr > 0xFFFF then [0xFF, 0xFF]
    else encoding.arrange [chr.toUInt8, (chr >>> 8).toUInt8]
  asize_pos := Nat.two_pos
  size_head _ _ _ := rfl
  achar_head buf more h := by
    have hplace (weight : Nat) (hlt : weight < 2) := encoding.place_lt hlt
    rw [cell_append (Nat.lt_of_lt_of_le (hplace 1 (by omega)) h) more,
      cell_append (Nat.lt_of_lt_of_le (hplace 0 (by omega)) h) more]

/-- `UCS4`. The size of the buffer is not looked at. -/
def UCS4 (encoding : ByteOrder) : CharSet where
  asize := 4
  size _ := 4
  achar buf :=
    if cell buf (encoding.place 4 3) ||| cell buf (encoding.place 4 2) |||
      cell buf (encoding.place 4 1) ≠ 0 then 255 else cell buf (encoding.place 4 0)
  value buf :=
    let res := (cell buf (encoding.place 4 3)).toUInt32
    let res := (res <<< 8) + (cell buf (encoding.place 4 2)).toUInt32
    let res := (res <<< 8) + (cell buf (encoding.place 4 1)).toUInt32
    (res <<< 8) + (cell buf (encoding.place 4 0)).toUInt32
  print chr _ :=
    encoding.arrange [chr.toUInt8, (chr >>> 8).toUInt8, (chr >>> 8 >>> 8).toUInt8,
      (chr >>> 8 >>> 8 >>> 8).toUInt8]
  asize_pos := Nat.succ_pos 3
  size_head _ _ _ := rfl
  achar_head buf more h := by
    have hcell (weight : Nat) (hlt : weight < 4) :
        cell (buf ++ more) (encoding.place 4 weight) = cell buf (encoding.place 4 weight) :=
      cell_append (Nat.lt_of_lt_of_le (encoding.place_lt hlt) h) more
    rw [hcell 0 (by omega), hcell 1 (by omega), hcell 2 (by omega), hcell 3 (by omega)]

/-! ## UTF-8 -/

namespace UTF8

/-- `CharLengthTab`: the number of bytes, by the first one. -/
def charLengthTab : CharMap Nat :=
  (CharMap.fill 0)
    |>.range 0x00 0x7F 1
    |>.range 0xC0 0xDF 2
    |>.range 0xE0 0xEF 3
    |>.range 0xF0 0xF7 4
    |>.range 0xF8 0xFB 5
    |>.range 0xFC 0xFD 6
    |>.range 0xFE 0xFE 7
    |>.range 0xFF 0xFF 8

/-- `size` -/
def size (buf : List Byte) : Nat := charLengthTab (cell buf 0)

/-- `std::numeric_limits<UChar>::max()` -/
def invalid : UChar := 0xFFFFFFFF

/-- The loop of `value` over the bytes behind the first one. -/
def tail : UChar → List Byte → UChar
  | res, [] => res
  | res, xx :: more =>
      if xx &&& 0xC0 ≠ 0x80 then invalid
      else tail ((res <<< 6) ||| (xx &&& 0x3F).toUInt32) more

/-- `value` -/
def value (buf : List Byte) : UChar :=
  let ch := cell buf 0
  if ch < 128 then ch.toUInt32
  else if size buf < 2 then invalid
  else
    let gg := size buf - 2
    tail (ch &&& (0x1F >>> gg.toUInt8)).toUInt32 ((buf.drop 1).take (gg + 1))

/-- `(char)(unsigned char)((chr & B00111111) | B10000000)` -/
def following (chr : UChar) : Byte := ((chr &&& 0x3F) ||| 0x80).toUInt8

/-- `while (pp > 0)`: the bytes behind the first one. -/
def trail : Nat → UChar → List Byte
  | 0, _ => []
  | pp + 1, chr => trail pp (chr >>> 6) ++ [following chr]

/-- `while (pp > 0)`: what is left of the code. -/
def shifted : Nat → UChar → UChar
  | 0, chr => chr
  | pp + 1, chr => shifted pp (chr >>> 6)

/-- The first byte of `rt` ones. The complement of `HB` is an `int`, so that its sign is shifted
in. -/
def leading (rt : Nat) (chr : UChar) : Byte :=
  let HB : Byte := 0xFF <<< (8 - rt).toUInt8
  (chr.toUInt8 &&& ((0x80 : Byte) ||| (~~~HB >>> 1))) ||| HB

/-- The number of bytes behind the first one that the loop of `print` settles on. -/
def behind (chr : UChar) : Nat :=
  ([1, 2, 3, 4].find? fun pp ↦ chr < ((1 : UChar) <<< 6) <<< (5 * pp).toUInt32).getD 5

/-- `print` -/
def print (chr : UChar) (bufsize : UInt32) : List Byte :=
  if bufsize < 8 then []
  else if chr ≤ 127 then [chr.toUInt8]
  else
    let pp := behind chr
    leading (pp + 1) (shifted pp chr) :: trail pp chr

end UTF8

/-- `UTF8` -/
def UTF8 : CharSet where
  asize := 1
  size := UTF8.size
  achar buf := cell buf 0
  value := UTF8.value
  print := UTF8.print
  asize_pos := Nat.one_pos
  size_head _ more h := congrArg UTF8.charLengthTab (cell_append h more)
  achar_head _ more h := cell_append h more

namespace UTF8

/-! ## What is written is read back -/

/-- A byte behind the first one is marked, and holds six bits. -/
theorem following_bits (chr : UChar) : following chr &&& 0xC0 = 0x80 ∧
    (following chr &&& 0x3F).toUInt32 = chr &&& 0x3F := by
  have hall : ∀ k : Fin 64, ((UInt32.ofNat k.val ||| 0x80).toUInt8 &&& 0xC0 = 0x80 ∧
      ((UInt32.ofNat k.val ||| 0x80).toUInt8 &&& 0x3F).toUInt32 = UInt32.ofNat k.val) := by
    decide
  have hlt : (chr &&& 0x3F).toNat < 64 := by
    rw [UInt32.toNat_and]
    exact Nat.lt_succ_of_le Nat.and_le_right
  simpa [following] using hall ⟨(chr &&& 0x3F).toNat, hlt⟩

/-- The six low bits, and those above them. -/
theorem six_bits (chr : UChar) : (chr >>> 6) <<< 6 ||| (chr &&& 0x3F) = chr := by
  have hlow : ∀ i (_ : i < 32), (63#32)[i] = decide (i < 6) := by decide
  apply UInt32.toBitVec_inj.mp
  ext i hi
  simp [hlow i hi]
  grind

/-- The bits of a code that its first byte holds. -/
theorem leading_bits : ∀ pp < 6, 0 < pp → ∀ high < 2 ^ (6 - pp),
    let head := leading (pp + 1) (UInt32.ofNat high)
    charLengthTab head = pp + 1 ∧ 128 ≤ head ∧
      (head &&& (0x1F >>> (pp - 1).toUInt8)).toUInt32 = UInt32.ofNat high := by
  decide

theorem shifted_to_nat (pp : Nat) (chr : UChar) :
    (shifted pp chr).toNat = chr.toNat / 64 ^ pp := by
  induction pp generalizing chr with
  | zero => simp [shifted]
  | succ pp ih =>
      have hshift : (chr >>> 6).toNat = chr.toNat / 64 := by
        rw [UInt32.toNat_shiftRight]
        exact Nat.shiftRight_eq_div_pow chr.toNat 6
      rw [shifted, ih, hshift, Nat.div_div_eq_div_mul, Nat.pow_succ, Nat.mul_comm 64]

@[simp] theorem trail_length (pp : Nat) (chr : UChar) : (trail pp chr).length = pp := by
  induction pp generalizing chr with
  | zero => rfl
  | succ pp ih => simp [trail, ih]

theorem trail_marked {pp : Nat} {chr : UChar} {xx : Byte} (h : xx ∈ trail pp chr) :
    xx &&& 0xC0 = 0x80 := by
  induction pp generalizing chr with
  | zero => simp [trail] at h
  | succ pp ih =>
      rcases List.mem_append.mp h with hbefore | hlast
      · exact ih hbefore
      · obtain rfl := List.mem_singleton.mp hlast
        exact (following_bits chr).1

/-- The bytes behind the first one are no ASCII characters. -/
theorem trail_large {pp : Nat} {chr : UChar} {xx : Byte} (h : xx ∈ trail pp chr) : 128 ≤ xx := by
  have hmarked : xx.toNat &&& 0xC0 = 0x80 := congrArg UInt8.toNat (trail_marked h)
  have hle : xx.toNat &&& 0xC0 ≤ xx.toNat := Nat.and_le_left
  refine UInt8.le_iff_toNat_le.mpr ?_
  show 128 ≤ xx.toNat
  omega

/-- Behind bytes that are marked, the loop goes on. -/
theorem tail_append {l : List Byte} (h : ∀ xx ∈ l, xx &&& 0xC0 = 0x80) (res : UChar)
    (more : List Byte) : tail res (l ++ more) = tail (tail res l) more := by
  induction l generalizing res with
  | nil => rfl
  | cons xx l ih =>
      have hmarked := h xx List.mem_cons_self
      rw [List.cons_append, tail, tail, if_neg (by simp [hmarked]), if_neg (by simp [hmarked])]
      exact ih (fun yy hyy ↦ h yy (List.mem_cons_of_mem xx hyy)) _

/-- The loop of `value` undoes that of `print`. -/
theorem tail_trail (pp : Nat) (chr : UChar) : tail (shifted pp chr) (trail pp chr) = chr := by
  induction pp generalizing chr with
  | zero => rfl
  | succ pp ih =>
      obtain ⟨hmarked, hbits⟩ := following_bits chr
      rw [shifted, trail, tail_append fun xx hxx ↦ trail_marked hxx, ih (chr >>> 6), tail,
        if_neg (by simp [hmarked]), tail, hbits, six_bits]

/-- Between one and five bytes stand behind the first one, and up to four of them hold the code. -/
theorem behind_cases (chr : UChar) : behind chr = 5 ∨
    (0 < behind chr ∧ behind chr < 5 ∧ chr.toNat < 2 ^ (6 + 5 * behind chr)) := by
  cases hfind : [1, 2, 3, 4].find?
    fun pp ↦ decide (chr < ((1 : UChar) <<< 6) <<< (5 * pp).toUInt32) with
  | none => exact .inl (by rw [behind, hfind]; rfl)
  | some pp =>
      right
      have hpp : behind chr = pp := by rw [behind, hfind]; rfl
      have hmem := List.mem_of_find?_eq_some hfind
      have hlt := List.find?_some hfind
      rw [hpp]
      obtain rfl | rfl | rfl | rfl : pp = 1 ∨ pp = 2 ∨ pp = 3 ∨ pp = 4 := by simpa using hmem
      all_goals simpa [UInt32.lt_iff_toNat_lt] using hlt

/-- The bits of a code below the sign bit of an `int`, in front of those that the bytes behind the
first one hold. -/
theorem shifted_lt {chr : UChar} (h : chr.toNat < 2 ^ 31) :
    0 < behind chr ∧ behind chr < 6 ∧ (shifted (behind chr) chr).toNat < 2 ^ (6 - behind chr) := by
  rw [shifted_to_nat]
  rcases behind_cases chr with hfive | ⟨hpos, hlt, hbound⟩
  · rw [hfive]
    omega
  · generalize behind chr = pp at hpos hlt hbound ⊢
    obtain rfl | rfl | rfl | rfl : pp = 1 ∨ pp = 2 ∨ pp = 3 ∨ pp = 4 := by omega
    all_goals omega

/-- What is written for an ASCII character. -/
theorem print_ascii {chr : UChar} {bufsize : UInt32} (hroom : 8 ≤ bufsize) (h : chr ≤ 127) :
    print chr bufsize = [chr.toUInt8] := by
  rw [print, if_neg (UInt32.not_lt.mpr hroom), if_pos h]

/-- What is written for the other ones. -/
theorem print_other {chr : UChar} {bufsize : UInt32} (hroom : 8 ≤ bufsize) (h : ¬ chr ≤ 127) :
    print chr bufsize = leading (behind chr + 1) (shifted (behind chr) chr) ::
      trail (behind chr) chr := by
  rw [print, if_neg (UInt32.not_lt.mpr hroom), if_neg h]

/-- What is read behind a first byte that says how many follow. -/
theorem value_of_head {head : Byte} {pp : Nat} (chr : UChar) (hpos : 0 < pp)
    (hsize : charLengthTab head = pp + 1) (hhead : 128 ≤ head) :
    value (head :: trail pp chr) =
      tail (head &&& (0x1F >>> (pp - 1).toUInt8)).toUInt32 (trail pp chr) := by
  have hcell : cell (head :: trail pp chr) 0 = head := rfl
  have hlength : size (head :: trail pp chr) = pp + 1 := hsize
  have hback : ((head :: trail pp chr).drop 1).take (pp + 1 - 2 + 1) = trail pp chr := by
    rw [List.drop_one, List.tail_cons, List.take_of_length_le]
    rw [trail_length]
    omega
  simp only [value]
  rw [hcell, if_neg (UInt8.not_lt.mpr hhead), hlength, if_neg (by omega), hback,
    show pp + 1 - 2 = pp - 1 by omega]

/-- The bytes of a code are read as the code. -/
theorem value_print {chr : UChar} {bufsize : UInt32} (hroom : 8 ≤ bufsize)
    (h : chr.toNat < 2 ^ 31) :
    value (print chr bufsize) = chr ∧ size (print chr bufsize) = (print chr bufsize).length := by
  by_cases hascii : chr ≤ 127
  · rw [print_ascii hroom hascii]
    have hall : ∀ k < 128, value [(UInt32.ofNat k).toUInt8] = UInt32.ofNat k ∧
        size [(UInt32.ofNat k).toUInt8] = 1 := by decide
    have hlt : chr.toNat < 128 := Nat.lt_succ_of_le (UInt32.le_iff_toNat_le.mp hascii)
    simpa using hall chr.toNat hlt
  · rw [print_other hroom hascii]
    obtain ⟨hpos, hlt, hbound⟩ := shifted_lt h
    have hbits := leading_bits (behind chr) hlt hpos (shifted (behind chr) chr).toNat hbound
    simp only [UInt32.ofNat_toNat] at hbits
    obtain ⟨hsize, hhead, hlow⟩ := hbits
    constructor
    · rw [value_of_head chr hpos hsize hhead, hlow, tail_trail]
    · rw [List.length_cons, trail_length]
      exact hsize

/-- The bytes behind the first one hold the low bits only. -/
theorem trail_congr {pp : Nat} {chr chr' : UChar}
    (h : chr.toNat % 64 ^ pp = chr'.toNat % 64 ^ pp) : trail pp chr = trail pp chr' := by
  induction pp generalizing chr chr' with
  | zero => rfl
  | succ pp ih =>
      have hlow : chr &&& 0x3F = chr' &&& 0x3F := by
        apply UInt32.toNat_inj.mp
        rw [UInt32.toNat_and, UInt32.toNat_and]
        show chr.toNat &&& (2 ^ 6 - 1) = chr'.toNat &&& (2 ^ 6 - 1)
        rw [Nat.and_two_pow_sub_one_eq_mod, Nat.and_two_pow_sub_one_eq_mod,
          ← Nat.mod_mod_of_dvd chr.toNat (Dvd.intro_left (64 ^ pp) rfl),
          ← Nat.mod_mod_of_dvd chr'.toNat (Dvd.intro_left (64 ^ pp) rfl), ← Nat.pow_succ, h]
      have hhigh : (chr >>> 6).toNat % 64 ^ pp = (chr' >>> 6).toNat % 64 ^ pp := by
        have hshift (chr : UChar) : (chr >>> 6).toNat = chr.toNat / 64 := by
          rw [UInt32.toNat_shiftRight]
          exact Nat.shiftRight_eq_div_pow chr.toNat 6
        rw [hshift, hshift, ← Nat.mod_mul_right_div_self, ← Nat.mod_mul_right_div_self,
          ← Nat.pow_succ', h]
      rw [trail, trail, ih hhigh, following, following, hlow]

/-- Of a code that has the sign bit of an `int`, the bytes hold the other bits. -/
theorem value_print_sign {chr : UChar} {bufsize : UInt32} (hroom : 8 ≤ bufsize)
    (h : 2 ^ 31 ≤ chr.toNat) : (value (print chr bufsize)).toNat = chr.toNat - 2 ^ 31 := by
  have hfull := chr.toNat_lt
  have hfive : behind chr = 5 := by
    rcases behind_cases chr with hfive | ⟨hpos, hlt, hbound⟩
    · exact hfive
    · have hpow : 2 ^ (6 + 5 * behind chr) ≤ 2 ^ 26 := Nat.pow_le_pow_right Nat.two_pos (by omega)
      omega
  have hascii : ¬ chr ≤ 127 := by
    rw [UInt32.le_iff_toNat_le]
    show ¬ chr.toNat ≤ 127
    omega
  let low : UChar := UInt32.ofNat (chr.toNat - 2 ^ 31)
  have hlow : low.toNat = chr.toNat - 2 ^ 31 := UInt32.toNat_ofNat_of_lt' (by
    show chr.toNat - 2 ^ 31 < 2 ^ 32
    omega)
  have htrail : trail 5 chr = trail 5 low := trail_congr (by omega)
  have hall : ∀ high < 4, 2 ≤ high → charLengthTab (leading 6 (UInt32.ofNat high)) = 6 ∧
      128 ≤ leading 6 (UInt32.ofNat high) ∧
      (leading 6 (UInt32.ofNat high) &&& (0x1F >>> (5 - 1 : Nat).toUInt8)).toUInt32 =
        UInt32.ofNat (high - 2) := by decide
  have hhigh := shifted_to_nat 5 chr
  have hbits := hall (shifted 5 chr).toNat (by omega) (by omega)
  simp only [UInt32.ofNat_toNat] at hbits
  obtain ⟨hsize, hhead, hmask⟩ := hbits
  have hrest : UInt32.ofNat ((shifted 5 chr).toNat - 2) = shifted 5 low := by
    apply UInt32.toNat_inj.mp
    rw [UInt32.toNat_ofNat_of_lt' (by show _ < 2 ^ 32; omega), shifted_to_nat, shifted_to_nat, hlow]
    omega
  rw [print_other hroom hascii, hfive, value_of_head chr (Nat.succ_pos 4) hsize hhead, hmask,
    hrest, htrail, tail_trail, hlow]

end UTF8

/-! ## All character sets -/

/-- The character sets, and the codes that they have bytes for. -/
inductive IsCharSet : CharSet → Nat → Prop where
  | isoLatin1 : IsCharSet IsoLatin1 (2 ^ 8)
  | ucs2 (encoding : ByteOrder) : IsCharSet (UCS2 encoding) (2 ^ 16)
  | ucs4 (encoding : ByteOrder) : IsCharSet (UCS4 encoding) (2 ^ 32)
  | utf8 : IsCharSet UTF8 (2 ^ 31)

/-- The bytes stand for this code: the first ones say how many there are and which ASCII character
it is, and all of them are read as the code. -/
structure Encodes (cs : CharSet) (chr : UChar) (bytes : List Byte) : Prop where
  head_le : cs.asize ≤ bytes.length
  length_le : bytes.length ≤ 8
  size_eq : cs.size bytes = bytes.length
  value_eq : cs.value bytes = chr
  ascii : chr.toNat < 128 → cs.achar bytes = chr.toUInt8
  ascii_length : chr.toNat < 128 → bytes.length = cs.asize
  other : 128 ≤ chr.toNat → 128 ≤ cs.achar bytes

/-- Bytes in the order of their weights, and those that are found by their weight. -/
theorem ByteOrder.cell_arrange (encoding : ByteOrder) (bytes : List Byte) {weight : Nat}
    (h : weight < bytes.length) :
    cell (encoding.arrange bytes) (encoding.place bytes.length weight) = cell bytes weight := by
  cases encoding with
  | LE => rfl
  | BE =>
      show bytes.reverse.getD (bytes.length - 1 - weight) 0 = bytes.getD weight 0
      rw [List.getD_eq_getElem _ _ (by rw [List.length_reverse]; omega),
        List.getD_eq_getElem _ _ h, List.getElem_reverse]
      congr 1
      omega

section Print

variable {chr : UChar} {bufsize : UInt32}

theorem iso_latin_1_encodes (hroom : 8 ≤ bufsize) (h : chr.toNat < 2 ^ 8) :
    Encodes IsoLatin1 chr (IsoLatin1.print chr bufsize) := by
  have hsmall : chr ≤ 255 := UInt32.le_iff_toNat_le.mpr (Nat.le_of_lt_succ h)
  have hbytes : IsoLatin1.print chr bufsize = [chr.toUInt8] := by
    show (if bufsize < 1 then [] else [if chr ≤ 255 then chr.toUInt8 else 255]) = [chr.toUInt8]
    rw [if_neg (UInt32.not_lt.mpr (UInt32.le_trans (by decide) hroom)), if_pos hsmall]
  have hbyte : chr.toUInt8.toNat = chr.toNat := by
    rw [UInt32.toNat_toUInt8]
    exact Nat.mod_eq_of_lt h
  rw [hbytes]
  refine ⟨Nat.le_refl 1, by simp, rfl, ?_, fun _ ↦ rfl, fun _ ↦ rfl, ?_⟩
  · show chr.toUInt8.toUInt32 = chr
    apply UInt32.toNat_inj.mp
    rw [UInt8.toNat_toUInt32, hbyte]
  · intro hge
    show 128 ≤ chr.toUInt8
    rw [UInt8.le_iff_toNat_le, hbyte]
    exact hge

theorem ucs2_encodes (encoding : ByteOrder) (hroom : 8 ≤ bufsize) (h : chr.toNat < 2 ^ 16) :
    Encodes (UCS2 encoding) chr ((UCS2 encoding).print chr bufsize) := by
  have hsmall : ¬ chr > 0xFFFF := UInt32.not_lt.mpr (UInt32.le_iff_toNat_le.mpr
    (Nat.le_of_lt_succ h))
  have hbytes : (UCS2 encoding).print chr bufsize =
      encoding.arrange [chr.toUInt8, (chr >>> 8).toUInt8] := by
    show (if bufsize < 2 then [] else _) = _
    rw [if_neg (UInt32.not_lt.mpr (UInt32.le_trans (by decide) hroom)), if_neg hsmall]
  have hlength : (encoding.arrange [chr.toUInt8, (chr >>> 8).toUInt8]).length = 2 := by
    cases encoding <;> rfl
  have hcell (weight : Nat) (hlt : weight < 2) := encoding.cell_arrange
    [chr.toUInt8, (chr >>> 8).toUInt8] hlt
  have hlow : cell (encoding.arrange [chr.toUInt8, (chr >>> 8).toUInt8]) (encoding.place 2 0) =
    chr.toUInt8 := hcell 0 (by omega)
  have hhigh : cell (encoding.arrange [chr.toUInt8, (chr >>> 8).toUInt8]) (encoding.place 2 1) =
    (chr >>> 8).toUInt8 := hcell 1 (by omega)
  have hshift : (chr >>> 8).toUInt8.toNat = chr.toNat / 256 := by
    rw [UInt32.toNat_toUInt8, UInt32.toNat_shiftRight]
    show chr.toNat >>> 8 % 256 = chr.toNat / 256
    rw [Nat.shiftRight_eq_div_pow]
    omega
  rw [hbytes]
  refine ⟨hlength.ge, by omega, hlength.symm, ?_, ?_, fun _ ↦ hlength, ?_⟩
  · show ((cell _ (encoding.place 2 1)).toUInt32 <<< 8) + (cell _ (encoding.place 2 0)).toUInt32 =
      chr
    rw [hlow, hhigh]
    apply UInt32.toNat_inj.mp
    rw [UInt32.toNat_add, UInt32.toNat_shiftLeft, UInt8.toNat_toUInt32, UInt8.toNat_toUInt32,
      hshift, UInt32.toNat_toUInt8]
    show ((chr.toNat / 256) <<< 8 % 2 ^ 32 + chr.toNat % 2 ^ 8) % 2 ^ 32 = chr.toNat
    rw [Nat.shiftLeft_eq]
    omega
  · intro hlt
    show (if cell _ (encoding.place 2 1) ≠ 0 then 255 else cell _ (encoding.place 2 0)) = _
    rw [hlow, hhigh, if_neg]
    rw [not_not, ← UInt8.toNat_inj, hshift]
    show chr.toNat / 256 = 0
    omega
  · intro hge
    show 128 ≤ (if cell _ (encoding.place 2 1) ≠ 0 then 255 else cell _ (encoding.place 2 0))
    rw [hlow, hhigh]
    split_ifs with hzero
    · decide
    · rw [not_not, ← UInt8.toNat_inj, hshift] at hzero
      rw [UInt8.le_iff_toNat_le, UInt32.toNat_toUInt8]
      show 128 ≤ chr.toNat % 256
      have hnone : chr.toNat / 256 = 0 := hzero
      omega

theorem ucs4_encodes (encoding : ByteOrder) :
    Encodes (UCS4 encoding) chr ((UCS4 encoding).print chr bufsize) := by
  let bytes : List Byte := [chr.toUInt8, (chr >>> 8).toUInt8, (chr >>> 8 >>> 8).toUInt8,
    (chr >>> 8 >>> 8 >>> 8).toUInt8]
  have hlength : (encoding.arrange bytes).length = 4 := by cases encoding <;> rfl
  have hcell (weight : Nat) (hlt : weight < 4) :
      cell (encoding.arrange bytes) (encoding.place 4 weight) = cell bytes weight :=
    encoding.cell_arrange bytes hlt
  have hshift (chr : UChar) : (chr >>> 8).toNat = chr.toNat / 256 := by
    rw [UInt32.toNat_shiftRight]
    exact Nat.shiftRight_eq_div_pow chr.toNat 8
  have hbyte (chr : UChar) : chr.toUInt8.toNat = chr.toNat % 256 := UInt32.toNat_toUInt8 chr
  have hup (res : UChar) (ch : Byte) (hlt : res.toNat < 2 ^ 24) :
      ((res <<< 8) + ch.toUInt32).toNat = res.toNat * 256 + ch.toNat := by
    have hch := ch.toNat_lt
    rw [UInt32.toNat_add, UInt32.toNat_shiftLeft, UInt8.toNat_toUInt32]
    show (res.toNat <<< 8 % 2 ^ 32 + ch.toNat) % 2 ^ 32 = _
    rw [Nat.shiftLeft_eq]
    omega
  have hfull := chr.toNat_lt
  show Encodes (UCS4 encoding) chr (encoding.arrange bytes)
  refine ⟨hlength.ge, by omega, hlength.symm, ?_, ?_, fun _ ↦ hlength, ?_⟩
  · show ((((cell (encoding.arrange bytes) (encoding.place 4 3)).toUInt32 <<< 8) +
      (cell (encoding.arrange bytes) (encoding.place 4 2)).toUInt32) <<< 8 +
      (cell (encoding.arrange bytes) (encoding.place 4 1)).toUInt32) <<< 8 +
      (cell (encoding.arrange bytes) (encoding.place 4 0)).toUInt32 = chr
    rw [hcell 3 (by omega), hcell 2 (by omega), hcell 1 (by omega), hcell 0 (by omega)]
    show (((chr >>> 8 >>> 8 >>> 8).toUInt8.toUInt32 <<< 8 + (chr >>> 8 >>> 8).toUInt8.toUInt32) <<<
      8 + (chr >>> 8).toUInt8.toUInt32) <<< 8 + chr.toUInt8.toUInt32 = chr
    apply UInt32.toNat_inj.mp
    have htop : (chr >>> 8 >>> 8 >>> 8).toUInt8.toUInt32.toNat = chr.toNat / 256 / 256 / 256 := by
      rw [UInt8.toNat_toUInt32, hbyte, hshift, hshift, hshift]
      omega
    have htwo := hup (chr >>> 8 >>> 8 >>> 8).toUInt8.toUInt32 (chr >>> 8 >>> 8).toUInt8
      (by omega)
    rw [htop, hbyte, hshift, hshift] at htwo
    have hthree := hup _ (chr >>> 8).toUInt8 (htwo.trans_lt (by omega))
    rw [htwo, hbyte, hshift] at hthree
    rw [hup _ chr.toUInt8 (hthree.trans_lt (by omega)), hthree, hbyte]
    omega
  · intro hlt
    show (if cell _ (encoding.place 4 3) ||| cell _ (encoding.place 4 2) |||
      cell _ (encoding.place 4 1) ≠ 0 then 255 else cell _ (encoding.place 4 0)) = chr.toUInt8
    rw [hcell 3 (by omega), hcell 2 (by omega), hcell 1 (by omega), hcell 0 (by omega), if_neg]
    · rfl
    · have hzero (chr : UChar) (h : chr.toNat = 0) : chr.toUInt8 = 0 := by
        apply UInt8.toNat_inj.mp
        rw [hbyte, h]
        rfl
      show ¬ ((chr >>> 8 >>> 8 >>> 8).toUInt8 ||| (chr >>> 8 >>> 8).toUInt8 |||
        (chr >>> 8).toUInt8 ≠ 0)
      rw [hzero (chr >>> 8 >>> 8 >>> 8) (by rw [hshift, hshift, hshift]; omega),
        hzero (chr >>> 8 >>> 8) (by rw [hshift, hshift]; omega),
        hzero (chr >>> 8) (by rw [hshift]; omega)]
      decide
  · intro hge
    show 128 ≤ (if cell _ (encoding.place 4 3) ||| cell _ (encoding.place 4 2) |||
      cell _ (encoding.place 4 1) ≠ 0 then 255 else cell _ (encoding.place 4 0))
    rw [hcell 3 (by omega), hcell 2 (by omega), hcell 1 (by omega), hcell 0 (by omega)]
    split_ifs with hnone
    · decide
    · have hor : (chr >>> 8 >>> 8 >>> 8).toUInt8 ||| (chr >>> 8 >>> 8).toUInt8 |||
        (chr >>> 8).toUInt8 = 0 := not_not.mp hnone
      rw [UInt8.or_eq_zero_iff, UInt8.or_eq_zero_iff] at hor
      obtain ⟨⟨hthree, htwo⟩, hone⟩ := hor
      rw [← UInt8.toNat_inj, hbyte] at hthree htwo hone
      rw [hshift, hshift, hshift] at hthree
      rw [hshift, hshift] at htwo
      rw [hshift] at hone
      show 128 ≤ chr.toUInt8
      rw [UInt8.le_iff_toNat_le, hbyte]
      show 128 ≤ chr.toNat % 256
      have hnone (n : Nat) (h : n = (0 : Byte).toNat) : n = 0 := h
      have := hnone _ hthree
      have := hnone _ htwo
      have := hnone _ hone
      omega

theorem utf8_encodes (hroom : 8 ≤ bufsize) (h : chr.toNat < 2 ^ 31) :
    Encodes UTF8 chr (UTF8.print chr bufsize) := by
  obtain ⟨hvalue, hsize⟩ := UTF8.value_print hroom h
  show Encodes UTF8 chr (UTF8.print chr bufsize)
  by_cases hascii : chr ≤ 127
  · rw [UTF8.print_ascii hroom hascii] at hvalue hsize ⊢
    refine ⟨Nat.le_refl 1, by simp, hsize, hvalue, fun _ ↦ rfl, fun _ ↦ rfl, ?_⟩
    intro hge
    have hle := UInt32.le_iff_toNat_le.mp hascii
    exact absurd hle (Nat.not_le.mpr hge)
  · rw [UTF8.print_other hroom hascii] at hvalue hsize ⊢
    obtain ⟨hpos, hlt, hbound⟩ := UTF8.shifted_lt h
    have hbits := UTF8.leading_bits _ hlt hpos _ hbound
    simp only [UInt32.ofNat_toNat] at hbits
    have hlarge : ¬ chr.toNat < 128 := by
      intro hsmall
      exact hascii (UInt32.le_iff_toNat_le.mpr (Nat.le_of_lt_succ hsmall))
    refine ⟨Nat.succ_le_succ (Nat.zero_le _), ?_, hsize, hvalue, fun hsmall ↦ absurd hsmall hlarge,
      fun hsmall ↦ absurd hsmall hlarge, fun _ ↦ hbits.2.1⟩
    rw [List.length_cons, UTF8.trail_length]
    omega

/-- What a character set writes for one of its codes stands for it. -/
theorem encodes_print {cs : CharSet} {bound : Nat} (hcs : IsCharSet cs bound)
    (hroom : 8 ≤ bufsize) (h : chr.toNat < bound) : Encodes cs chr (cs.print chr bufsize) := by
  cases hcs with
  | isoLatin1 => exact iso_latin_1_encodes hroom h
  | ucs2 encoding => exact ucs2_encodes encoding hroom h
  | ucs4 encoding => exact ucs4_encodes encoding
  | utf8 => exact utf8_encodes hroom h

/-- A code without bytes of its own is read back as another one. -/
theorem value_print_beyond {cs : CharSet} {bound : Nat} (hcs : IsCharSet cs bound)
    (hroom : 8 ≤ bufsize) (h : bound ≤ chr.toNat) :
    (cs.value (cs.print chr bufsize)).toNat < chr.toNat := by
  cases hcs with
  | isoLatin1 =>
      have hlarge : ¬ chr ≤ 255 := by
        rw [UInt32.le_iff_toNat_le]
        exact Nat.not_le.mpr h
      show (IsoLatin1.value (if bufsize < 1 then [] else
        [if chr ≤ 255 then chr.toUInt8 else 255])).toNat < chr.toNat
      rw [if_neg (UInt32.not_lt.mpr (UInt32.le_trans (by decide) hroom)), if_neg hlarge]
      exact h
  | ucs2 encoding =>
      have hlarge : chr > 0xFFFF := UInt32.lt_iff_toNat_lt.mpr h
      show ((UCS2 encoding).value (if bufsize < 2 then [] else if chr > 0xFFFF then [0xFF, 0xFF]
        else encoding.arrange [chr.toUInt8, (chr >>> 8).toUInt8])).toNat < chr.toNat
      rw [if_neg (UInt32.not_lt.mpr (UInt32.le_trans (by decide) hroom)), if_pos hlarge]
      cases encoding <;> exact h
  | ucs4 encoding => exact absurd chr.toNat_lt (Nat.not_lt.mpr h)
  | utf8 =>
      show (UTF8.value (UTF8.print chr bufsize)).toNat < chr.toNat
      rw [UTF8.value_print_sign hroom h]
      omega

variable (chr) in
/-- Exactly the codes below the bound are read back from what is written for them. -/
theorem value_print_iff {cs : CharSet} {bound : Nat} (hcs : IsCharSet cs bound)
    (hroom : 8 ≤ bufsize) : cs.value (cs.print chr bufsize) = chr ↔ chr.toNat < bound := by
  constructor
  · intro hsame
    by_contra hlarge
    have hless := value_print_beyond hcs hroom (Nat.not_lt.mp hlarge)
    rw [hsame] at hless
    exact Nat.lt_irrefl _ hless
  · intro hlt
    exact (encodes_print hcs hroom hlt).value_eq

theorem value_print_iff_utf8 :
    UTF8.value (UTF8.print 0x7FFFFFFF 8) = 0x7FFFFFFF ↔ UInt32.toNat 0x7FFFFFFF < 2 ^ 31 :=
  value_print_iff 0x7FFFFFFF .utf8 (UInt32.le_refl 8)

end Print

end Smerp.Textwolf
