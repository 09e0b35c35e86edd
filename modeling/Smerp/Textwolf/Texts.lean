import Smerp.Textwolf.Orderly

/-!
# Texts of tokens

What the scanner reads of a text that stands in the input: the characters of a token as they are,
and its entities. A numeric entity is read up to the character in front of which its value reaches
the base; behind it, what was read is printed as it stands, and that character is read once more.
-/

namespace Smerp.Textwolf

open Lib Lib.Interruptible

/-- Every character set has bytes for the characters of the smallest one. -/
theorem latin_coded {cs : CharSet} {bound : Nat} (hcs : IsCharSet cs bound) : 256 ≤ bound := by
  cases hcs <;> decide

theorem ascii_coded {cs : CharSet} {bound : Nat} (hcs : IsCharSet cs bound) : 128 ≤ bound :=
  Nat.le_trans (by decide) (latin_coded hcs)

theorem coded_le {cs : CharSet} {bound : Nat} (hcs : IsCharSet cs bound) : bound ≤ 2 ^ 32 := by
  cases hcs <;> decide

/-- A text in a character set. -/
def CharSet.encode (cs : CharSet) (codes : List UChar) : List Byte :=
  codes.flatMap fun code ↦ cs.print code 8

/-- Room behind the eight bytes that a character takes at most makes no difference. -/
theorem print_room {cs : CharSet} {bound : Nat} (hcs : IsCharSet cs bound) (code : UChar)
    {bufsize : UInt32} (hroom : 8 ≤ bufsize) : cs.print code bufsize = cs.print code 8 := by
  have hsame {least : UInt32} (hleast : least ≤ 8) (bytes : List Byte) :
      (if bufsize < least then [] else bytes) = if 8 < least then [] else bytes := by
    rw [if_neg (UInt32.not_lt.mpr (UInt32.le_trans hleast hroom)),
      if_neg (UInt32.not_lt.mpr hleast)]
  cases hcs with
  | isoLatin1 => exact hsame (by decide) _
  | ucs2 encoding => exact hsame (by decide) _
  | ucs4 encoding => rfl
  | utf8 => exact hsame (by decide) _

/-- Only in UTF-8 a character has bytes behind those that it is classified by. They look like other
characters, but not like ASCII characters. -/
theorem print_behind {cs : CharSet} {bound : Nat} (hcs : IsCharSet cs bound) (code : UChar)
    {ch : Byte} (hch : ch ∈ (cs.print code 8).drop cs.asize) : cs = UTF8 ∧ 128 ≤ ch := by
  have hnone {bytes : List Byte} (hlength : bytes.length ≤ cs.asize)
      (h : ch ∈ bytes.drop cs.asize) :
      cs = UTF8 ∧ 128 ≤ ch := by
    rw [List.drop_eq_nil_of_le hlength] at h
    exact absurd h List.not_mem_nil
  cases hcs with
  | isoLatin1 => exact hnone (show [_].length ≤ 1 from Nat.le_refl 1) hch
  | ucs2 encoding =>
      refine hnone ?_ hch
      show (if code > 0xFFFF then [0xFF, 0xFF] else encoding.arrange _ : List Byte).length ≤ 2
      split_ifs
      · exact Nat.le_refl 2
      · cases encoding <;> exact Nat.le_refl 2
  | ucs4 encoding =>
      refine hnone ?_ hch
      cases encoding <;> exact Nat.le_refl 4
  | utf8 =>
      refine ⟨rfl, ?_⟩
      replace hch : ch ∈ (UTF8.print code 8).drop 1 := hch
      by_cases hascii : code ≤ 127
      · rw [UTF8.print_ascii (UInt32.le_refl 8) hascii] at hch
        exact absurd hch List.not_mem_nil
      · rw [UTF8.print_other (UInt32.le_refl 8) hascii] at hch
        exact UTF8.trail_large hch

namespace TextScanner

/-- The reader in front of a text. -/
def textAt (cs : CharSet) (chars : List UChar) : TextScanner := .fresh (cs.encode chars)

/-- The reader that has classified the first character of a text. -/
def classedAt (cs : CharSet) (code : UChar) (more : List UChar) : TextScanner :=
  .held cs (cs.print code 8) (cs.encode more)

/-- The reader that has decoded the first character of a text. -/
def decodedAt (cs : CharSet) (code : UChar) (more : List UChar) : TextScanner :=
  ⟨cs.encode more, cs.print code 8, code, cs.achar (cs.print code 8)⟩

/-- The reader is in front of a text, or has classified its first character. -/
inductive Ahead (cs : CharSet) : List UChar → TextScanner → Prop where
  | text (chars : List UChar) : Ahead cs chars (textAt cs chars)
  | classed (code : UChar) (more : List UChar) : Ahead cs (code :: more) (classedAt cs code more)

variable {cs : CharSet} {bound : Nat} (hcs : IsCharSet cs bound) {code : UChar}
  {more : List UChar} {src : TextScanner} {α : Type}

include hcs

/-- Classifying the next character. -/
theorem classify_ahead (hcode : code.toNat < bound) (hahead : Ahead cs (code :: more) src)
    (view : Byte → α) :
    classify cs view src = .ok (view (cs.achar (cs.print code 8))) (classedAt cs code more) := by
  have hchar := encodes_print hcs (UInt32.le_refl 8) hcode
  cases hahead with
  | text => exact classify_encoded hchar (cs.encode more) view
  | classed => exact classify_held hchar (cs.encode more) view

theorem control_ahead (hcode : code.toNat < bound) (hahead : Ahead cs (code :: more) src) :
    control cs src = .ok (classOf code) (classedAt cs code more) := by
  have hchar := encodes_print hcs (UInt32.le_refl 8) hcode
  have hclass := (control_encoded hchar (cs.encode more)).symm.trans
    (classify_encoded hchar (cs.encode more) controlCharMap)
  rw [control, classify_ahead hcs hcode hahead]
  obtain ⟨hsame, -⟩ := EStateM.Result.ok.inj hclass
  rw [hsame]

theorem ascii_ahead (hcode : code.toNat < bound) (hascii : code.toNat < 128)
    (hahead : Ahead cs (code :: more) src) :
    ascii cs src = .ok code.toUInt8 (classedAt cs code more) := by
  have hchar := encodes_print hcs (UInt32.le_refl 8) hcode
  have hbyte := (ascii_encoded hchar (cs.encode more) hascii).symm.trans
    (classify_encoded hchar (cs.encode more) asciiOf)
  rw [ascii, classify_ahead hcs hcode hahead]
  obtain ⟨hsame, -⟩ := EStateM.Result.ok.inj hbyte
  rw [hsame]

/-- The code of the next character. -/
theorem chr_classed (hcode : code.toNat < bound) :
    chr cs (classedAt cs code more) = .ok code (decodedAt cs code more) :=
  chr_held (encodes_print hcs (UInt32.le_refl 8) hcode) (cs.encode more)

theorem skip_decoded_at (hcode : code.toNat < bound) :
    skip cs (decodedAt cs code more) = .ok () (textAt cs more) :=
  skip_decoded (encodes_print hcs (UInt32.le_refl 8) hcode) (cs.encode more)

theorem skip_classed (hcode : code.toNat < bound) (hascii : code.toNat < 128) :
    skip cs (classedAt cs code more) = .ok () (textAt cs more) :=
  skip_held (encodes_print hcs (UInt32.le_refl 8) hcode) (cs.encode more) hascii

end TextScanner

namespace XMLScanner

open TextScanner (textAt classedAt decodedAt Ahead classOf)

/-- How the scanner stands: the token, the state of the state machine, the reader, the size of the
output buffer and what is printed of the item. -/
structure Stands (tok : TokState) (state : STMState) (src : TextScanner) (size : Nat)
    (printed : List Byte) (s : XMLScanner) : Prop where
  tok_eq : s.tokstate = tok
  state_eq : s.state = state
  src_eq : s.src = src
  error_eq : s.error = .ok
  size_eq : s.outputBufSize.toNat = size
  length_eq : s.outputBuf.length = size
  used_eq : s.outputSize.toNat = printed.length
  printed_eq : s.outputBuf.take printed.length = printed

section Steps

variable {cfg : Setup} {boundIn boundOut : Nat} {tok : TokState} {state : STMState}
  {src : TextScanner} {size : Nat} {printed : List Byte} {s : XMLScanner} {α : Type}

/-- The text of the item. -/
theorem Stands.item_eq (h : Stands tok state src size printed s) : s.item = printed := by
  rw [item, h.used_eq, h.printed_eq]

/-- A function of the reader. -/
theorem Stands.on_src {read : Read α} {a : α} {src' : TextScanner}
    (h : Stands tok state src size printed s) (hread : read src = .ok a src') :
    Returns (onSrc read) s a (Stands tok state src' size printed) := by
  rw [← h.src_eq] at hread
  exact .of_ok (on_src_ok hread) ⟨h.tok_eq, h.state_eq, rfl, h.error_eq, h.size_eq, h.length_eq,
    h.used_eq, h.printed_eq⟩

theorem Stands.set_tok {change : TokState → TokState} (h : Stands tok state src size printed s) :
    Returns (setTok change) s ⟨⟩ (Stands (change tok) state src size printed) :=
  .of_ok rfl ⟨congrArg change h.tok_eq, h.state_eq, h.src_eq, h.error_eq, h.size_eq,
    h.length_eq, h.used_eq, h.printed_eq⟩

theorem Stands.look (h : Stands tok state src size printed s) :
    Returns (look XMLScanner.tokstate : Scan TokState) s tok (Stands tok state src size printed) :=
  .of_ok (congrArg (EStateM.Result.ok · s) h.tok_eq) h

theorem Stands.set_state {ns : STMState} (h : Stands tok state src size printed s) :
    Returns (alter fun s ↦ { s with state := ns } : Scan PUnit) s ⟨⟩
      (Stands tok ns src size printed) :=
  .of_ok rfl ⟨h.tok_eq, rfl, h.src_eq, h.error_eq, h.size_eq, h.length_eq, h.used_eq,
    h.printed_eq⟩

/-- There is room for one more character. -/
theorem Stands.room (h : Stands tok state src size printed s) (hroom : printed.length + 8 ≤ size) :
    8 ≤ s.outputBufSize - s.outputSize ∧
      (s.outputBufSize - s.outputSize).toNat = size - printed.length := by
  have hle : s.outputSize ≤ s.outputBufSize := by
    rw [UInt32.le_iff_toNat_le, h.used_eq, h.size_eq]
    omega
  have hsub : (s.outputBufSize - s.outputSize).toNat = size - printed.length := by
    rw [UInt32.toNat_sub_of_le _ _ hle, h.used_eq, h.size_eq]
  refine ⟨?_, hsub⟩
  rw [UInt32.le_iff_toNat_le, hsub]
  show 8 ≤ size - printed.length
  omega

variable (hout : IsCharSet cfg.outputCharSet boundOut)

include hout

/-- Printing a character into a buffer that has room for it. -/
theorem Stands.print_eq (h : Stands tok state src size printed s) {code : UChar}
    (hcode : code.toNat < boundOut) (hroom : printed.length + 8 ≤ size) :
    let bytes := cfg.outputCharSet.print code 8
    0 < bytes.length ∧ bytes.length ≤ 8 ∧ print cfg code s = .ok bytes.length.toUInt32
      { s with outputBuf := Block.store s.outputBuf s.outputSize.toNat bytes } := by
  intro bytes
  obtain ⟨hroomy, -⟩ := h.room hroom
  have hchar : Encodes cfg.outputCharSet code bytes := encodes_print hout (UInt32.le_refl 8) hcode
  have hpos : 0 < bytes.length := Nat.lt_of_lt_of_le cfg.outputCharSet.asize_pos hchar.head_le
  refine ⟨hpos, hchar.length_le, ?_⟩
  have hbytes : cfg.outputCharSet.print code (s.outputBufSize - s.outputSize) = bytes :=
    print_room hout code hroomy
  have hcases := print_cases cfg code s
  rw [hbytes] at hcases
  rcases hcases with ⟨-, ⟨-, hprint⟩ | ⟨hnone, -⟩⟩ | ⟨hwild, -⟩
  · exact hprint
  · rw [hnone] at hpos
    exact absurd hpos (Nat.lt_irrefl 0)
  · rw [h.used_eq, h.length_eq] at hwild
    have hle := hchar.length_le
    omega

theorem Stands.push (h : Stands tok state src size printed s) {code : UChar}
    (hcode : code.toNat < boundOut) (hroom : printed.length + 8 ≤ size) :
    Returns (XMLScanner.push cfg code) s true
      (Stands tok state src size (printed ++ cfg.outputCharSet.print code 8)) := by
  obtain ⟨hpos, hle, hprint⟩ := h.print_eq hout hcode hroom
  have hcount : (cfg.outputCharSet.print code 8).length.toUInt32.toNat =
      (cfg.outputCharSet.print code 8).length := UInt32.toNat_ofNat_of_lt' (by
    show _ < 2 ^ 32
    omega)
  have hpushed : decide ((cfg.outputCharSet.print code 8).length.toUInt32 ≠ 0) = true := by
    rw [decide_eq_true_iff, ← UInt32.toNat_inj.ne, hcount]
    exact Nat.pos_iff_ne_zero.mp hpos
  have hlimit := s.outputBufSize.toNat_lt
  rw [h.size_eq] at hlimit
  have hstep : XMLScanner.push cfg code s = .ok true { s with
      outputBuf := Block.store s.outputBuf s.outputSize.toNat (cfg.outputCharSet.print code 8)
      outputSize := s.outputSize + (cfg.outputCharSet.print code 8).length.toUInt32 } := by
    rw [XMLScanner.push, bind_ok hprint, bind_alter, hpushed]
    rfl
  refine .of_ok hstep ⟨h.tok_eq, h.state_eq, h.src_eq, h.error_eq, h.size_eq, ?_, ?_, ?_⟩
  · show (Block.store s.outputBuf s.outputSize.toNat _).length = size
    rw [Block.store_length (by rw [h.used_eq, h.length_eq]; omega), h.length_eq]
  · show (s.outputSize + _).toNat = _
    rw [UInt32.toNat_add, hcount, h.used_eq, List.length_append]
    exact Nat.mod_eq_of_lt (by show _ < 2 ^ 32; omega)
  · show (Block.store s.outputBuf s.outputSize.toNat _).take _ = _
    rw [h.used_eq, List.length_append, Block.store_take _ (by rw [h.length_eq]; omega),
      h.printed_eq]

/-- The terminating zero of an item. -/
theorem Stands.print_zero (h : Stands tok state src size printed s)
    (hroom : printed.length + 8 ≤ size) :
    ∃ nn, nn ≠ 0 ∧ Returns (print cfg 0) s nn (Stands tok state src size printed) := by
  have hzero : (0 : UChar).toNat < boundOut :=
    Nat.lt_of_lt_of_le (by decide) (ascii_coded hout)
  obtain ⟨hpos, hle, hprint⟩ := h.print_eq hout hzero hroom
  have hcount : (cfg.outputCharSet.print 0 8).length.toUInt32.toNat =
      (cfg.outputCharSet.print 0 8).length := UInt32.toNat_ofNat_of_lt' (by
    show _ < 2 ^ 32
    omega)
  refine ⟨_, ?_, .of_ok hprint ⟨h.tok_eq, h.state_eq, h.src_eq, h.error_eq, h.size_eq, ?_,
    h.used_eq, ?_⟩⟩
  · rw [← UInt32.toNat_inj.ne, hcount]
    exact Nat.pos_iff_ne_zero.mp hpos
  · rw [Block.store_length (by rw [h.used_eq, h.length_eq]; omega), h.length_eq]
  · have hlength : (s.outputBuf.take printed.length).length = printed.length := by
      rw [h.printed_eq]
    show (Block.store s.outputBuf s.outputSize.toNat _).take _ = _
    rw [Block.store, h.used_eq, List.append_assoc, List.take_left' hlength, h.printed_eq]

end Steps

/-! ## Entities -/

/-- The character of a named entity. -/
def entityOf (cfg : Setup) (name : List Byte) : Option UChar :=
  match predefinedEntity name with
  | some ch => some ch
  | none => (cfg.entityMap.bind fun find ↦ find name).filter fun ch ↦ 32 ≤ ch

/-- The value of the digits of a numeric entity, from a value on. There is none if the value reaches
the base in front of a digit. -/
def numericValue (base : Nat) : Nat → List UChar → Option Nat
  | value, [] => some value
  | value, ch :: more =>
      if base ≤ value then none
      else numericValue base (value * base + HEX ch.toUInt8) more

/-- What is printed for digits that have no value: the digit in front of which the value reaches the
base is there twice. -/
def doubled (base : Nat) : Nat → List UChar → List UChar
  | _, [] => []
  | value, ch :: more =>
      if base ≤ value then ch :: ch :: more
      else ch :: doubled base (value * base + HEX ch.toUInt8) more

/-- A character of the name or of the digits of an entity. -/
structure EntityChar (ch : UChar) : Prop where
  ascii : ch.toNat < 128
  any : classOf ch = .any
  no_end : ch ≠ SEMICOLON.toUInt32

/-- An ASCII character is known by its byte. -/
theorem ascii_byte {ch : UChar} (hascii : ch.toNat < 128) : ch.toUInt8.toUInt32 = ch := by
  refine UInt32.toNat_inj.mp ?_
  rw [UInt8.toNat_toUInt32, UInt32.toNat_toUInt8]
  exact Nat.mod_eq_of_lt (Nat.lt_trans hascii (by decide))

theorem EntityChar.byte_ne {ch : UChar} (h : EntityChar ch) : ch.toUInt8 ≠ SEMICOLON := by
  intro hsame
  refine h.no_end ?_
  rw [← hsame, ascii_byte h.ascii]

/-- A cell that is written behind those that are in use. -/
theorem take_set {cells : List Byte} {pos : Nat} {ch : Byte} (h : pos < cells.length) :
    (cells.set pos ch).take (pos + 1) = cells.take pos ++ [ch] := by
  rw [List.take_add_one, List.getElem?_set_self h, List.take_set_of_le (Nat.le_refl pos)]
  rfl

/-- An entity is parsed: the reader is in front of these characters. -/
def Reads (cfg : Setup) (tok : TokState) (state : STMState) (chars : List UChar) (size : Nat)
    (printed : List Byte) (s : XMLScanner) : Prop :=
  ∃ src, Ahead cfg.inputCharSet chars src ∧ Stands tok state src size printed s

/-- An entity is read, and the reader is in front of these characters. -/
def Ended (cfg : Setup) (state : STMState) (chars : List UChar) (size : Nat)
    (printed : List Byte) (s : XMLScanner) : Prop :=
  ∃ tok : TokState, tok.buf.length = 16 ∧ Reads cfg tok state chars size printed s

section Entities

variable {cfg : Setup} {boundIn boundOut : Nat} {tok : TokState} {state : STMState}
  {src : TextScanner} {size : Nat} {printed : List Byte} {s : XMLScanner} {α : Type}
  {code : UChar} {more : List UChar}

section Output

variable (hout : IsCharSet cfg.outputCharSet boundOut)

include hout

theorem encode_length (codes : List UChar) (hcodes : ∀ code ∈ codes, code.toNat < boundOut) :
    (cfg.outputCharSet.encode codes).length ≤ 8 * codes.length := by
  induction codes with
  | nil => exact Nat.le_refl 0
  | cons code codes ih =>
      have hmore := ih fun other hother ↦ hcodes other (List.mem_cons_of_mem code hother)
      have hchar := encodes_print hout (UInt32.le_refl 8) (hcodes code List.mem_cons_self)
      have hle := hchar.length_le
      rw [CharSet.encode, List.flatMap_cons, List.length_append, List.length_cons]
      rw [CharSet.encode] at hmore
      omega

/-- Printing some characters. -/
theorem Stands.push_all (codes : List UChar) (h : Stands tok state src size printed s)
    (hcodes : ∀ code ∈ codes, code.toNat < boundOut)
    (hroom : printed.length + 8 * codes.length ≤ size) :
    Returns (pushAll cfg codes) s true
      (Stands tok state src size (printed ++ cfg.outputCharSet.encode codes)) := by
  induction codes generalizing printed s with
  | nil =>
      refine .of_ok rfl ?_
      rw [CharSet.encode, List.flatMap_nil, List.append_nil]
      exact h
  | cons code codes ih =>
      have hcode := hcodes code List.mem_cons_self
      have hchar := encodes_print hout (UInt32.le_refl 8) hcode
      have hle := hchar.length_le
      rw [List.length_cons] at hroom
      refine .bind ((h.push hout hcode (by omega)).mono ?_)
      intro s' h'
      have hmore := ih h' (fun other hother ↦ hcodes other (List.mem_cons_of_mem code hother))
        (by rw [List.length_append]; omega)
      rw [List.append_assoc] at hmore
      exact hmore

end Output

section Input

variable (hin : IsCharSet cfg.inputCharSet boundIn)

include hin

/-- Classifying the next character. -/
theorem Reads.control (h : Reads cfg tok state (code :: more) size printed s)
    (hcode : code.toNat < boundIn) :
    Returns (onSrc (TextScanner.control cfg.inputCharSet)) s (classOf code)
      (Stands tok state (classedAt cfg.inputCharSet code more) size printed) := by
  obtain ⟨src, hahead, hs⟩ := h
  exact hs.on_src (TextScanner.control_ahead hin hcode hahead)

theorem Reads.ascii (h : Reads cfg tok state (code :: more) size printed s)
    (hascii : code.toNat < 128) :
    Returns (onSrc (TextScanner.ascii cfg.inputCharSet)) s code.toUInt8
      (Stands tok state (classedAt cfg.inputCharSet code more) size printed) := by
  obtain ⟨src, hahead, hs⟩ := h
  exact hs.on_src (TextScanner.ascii_ahead hin (Nat.lt_of_lt_of_le hascii (ascii_coded hin))
    hascii hahead)

/-- Skipping an ASCII character that is classified. -/
theorem Stands.skip (h : Stands tok state (classedAt cfg.inputCharSet code more) size printed s)
    (hascii : code.toNat < 128) :
    Returns (onSrc (TextScanner.skip cfg.inputCharSet)) s ()
      (Reads cfg tok state more size printed) := by
  refine (h.on_src (TextScanner.skip_classed hin
    (Nat.lt_of_lt_of_le hascii (ascii_coded hin)) hascii)).mono ?_
  intro s' h'
  exact ⟨_, .text more, h'⟩

end Input

theorem Stands.reads (h : Stands tok state (classedAt cfg.inputCharSet code more) size printed s) :
    Reads cfg tok state (code :: more) size printed s := ⟨_, .classed code more, h⟩

theorem Reads.set_tok {change : TokState → TokState} {chars : List UChar}
    (h : Reads cfg tok state chars size printed s) :
    Returns (setTok change) s ⟨⟩ (Reads cfg (change tok) state chars size printed) := by
  obtain ⟨src, hahead, hs⟩ := h
  exact hs.set_tok.mono fun s' h' ↦ ⟨src, hahead, h'⟩

section Both

variable (hin : IsCharSet cfg.inputCharSet boundIn) (hout : IsCharSet cfg.outputCharSet boundOut)

include hout

/-- Printing the character of a named entity. -/
theorem Stands.push_entity {name : List Byte} (h : Stands tok state src size printed s)
    (hentity : entityOf cfg name = some code) (hcode : code.toNat < boundOut)
    (hroom : printed.length + 8 ≤ size) :
    Returns (pushEntity cfg name) s true
      (Stands tok state src size (printed ++ cfg.outputCharSet.print code 8)) := by
  rw [entityOf] at hentity
  cases hpredefined : predefinedEntity name with
  | some ch =>
      rw [hpredefined] at hentity
      obtain rfl := Option.some.inj hentity
      have hpush : pushPredefinedEntity cfg name = XMLScanner.push cfg ch := by
        rw [pushPredefinedEntity, hpredefined]
      rw [pushEntity, hpush]
      refine .bind ((h.push hout hcode hroom).mono ?_)
      intro s' h'
      exact .of_ok rfl h'
  | none =>
      rw [hpredefined] at hentity
      have hpush : pushPredefinedEntity cfg name = pure false := by
        rw [pushPredefinedEntity, hpredefined]
      rw [pushEntity, hpush]
      refine .bind (.of_ok rfl ?_)
      cases hmap : cfg.entityMap with
      | none =>
          rw [hmap] at hentity
          exact absurd hentity (Option.some_ne_none code).symm
      | some find =>
          rw [hmap] at hentity
          obtain ⟨hfind, hprintable⟩ : find name = some code ∧ 32 ≤ code := by
            simpa [Option.filter_eq_some_iff] using hentity
          dsimp only
          rw [hfind]
          dsimp only
          rw [if_neg (UInt32.not_lt.mpr hprintable)]
          exact h.push hout hcode hroom

include hin

/-- The end of a named entity. -/
theorem Stands.named_end {cells : List Byte} {pos : Nat}
    (h : Stands ⟨.parsingNamedEntity, pos, 0, 0, cells, 0⟩ state
      (classedAt cfg.inputCharSet SEMICOLON.toUInt32 more) size printed s)
    (hcells : cells.length = 16) (hentity : entityOf cfg (cells.take pos) = some code)
    (hcode : code.toNat < boundOut) (hroom : printed.length + 8 ≤ size) :
    Returns (namedEntityEnd cfg) s true
      (Ended cfg state more size (printed ++ cfg.outputCharSet.print code 8)) := by
  refine .bind (h.look.mono ?_)
  intro s₁ h₁
  refine .bind (h₁.set_tok.mono ?_)
  intro s₂ h₂
  refine .bind ((h₂.push_entity hout hentity hcode hroom).mono ?_)
  intro s₃ h₃
  refine .bind (h₃.set_tok.mono ?_)
  intro s₄ h₄
  refine .bind ((h₄.skip hin (by decide)).mono ?_)
  intro s₅ h₅
  refine .of_ok rfl ⟨_, ?_, h₅⟩
  show (cells.set pos 0).length = 16
  rw [List.length_set, hcells]

/-- The name of an entity, from a character of it on. -/
theorem Reads.named (front : List UChar) {name : List UChar} {cells : List Byte}
    (h : Reads cfg ⟨.parsingNamedEntity, front.length, 0, 0, cells, 0⟩ state
      (name ++ SEMICOLON.toUInt32 :: more) size printed s)
    (hcells : cells.length = 16)
    (hfront : cells.take front.length = front.map UInt32.toUInt8)
    (hname : ∀ ch ∈ name, EntityChar ch) (hlength : front.length + name.length ≤ 15)
    (hentity : entityOf cfg ((front ++ name).map UInt32.toUInt8) = some code)
    (hcode : code.toNat < boundOut) (hroom : printed.length + 8 ≤ size) :
    Returns (loop .endless left (namedEntityPass cfg)) s true
      (Ended cfg state more size (printed ++ cfg.outputCharSet.print code 8)) := by
  induction name generalizing front cells s with
  | nil =>
      refine .loop_return named_entity_shrinks ?_
      refine .bind ((h.ascii hin (by decide)).mono ?_)
      intro s₁ h₁
      refine .bind (h₁.look.mono ?_)
      intro s₂ h₂
      have hle := ascii_coded hin
      refine .bind ((h₂.reads.control hin (Nat.lt_of_lt_of_le (by decide) hle)).mono ?_)
      intro s₃ h₃
      rw [if_neg (by rintro ⟨-, hend, -⟩; exact hend rfl),
        if_pos (show SEMICOLON.toUInt32.toUInt8 = SEMICOLON from rfl)]
      rw [List.append_nil] at hentity
      refine .bind ((h₃.named_end hin hout hcells (hfront ▸ hentity) hcode hroom).mono ?_)
      intro s₄ h₄
      exact .of_ok rfl h₄
  | cons ch name ih =>
      have hchar := hname ch List.mem_cons_self
      rw [List.length_cons] at hlength
      refine .loop_again named_entity_shrinks ?_
      refine .bind ((h.ascii hin hchar.ascii).mono ?_)
      intro s₁ h₁
      refine .bind (h₁.look.mono ?_)
      intro s₂ h₂
      have hle := ascii_coded hin
      refine .bind ((h₂.reads.control hin (Nat.lt_of_lt_of_le hchar.ascii hle)).mono ?_)
      intro s₃ h₃
      rw [if_pos ⟨by show front.length < 15; omega, hchar.byte_ne, hchar.any⟩]
      refine .bind (h₃.set_tok.mono ?_)
      intro s₄ h₄
      refine .bind ((h₄.skip hin hchar.ascii).mono ?_)
      intro s₅ h₅
      refine .bind (h₅.set_tok.mono ?_)
      intro s₆ h₆
      have hlonger : (front ++ [ch]).length = front.length + 1 := List.length_append
      have h₇ : Reads cfg ⟨.parsingNamedEntity, (front ++ [ch]).length, 0, 0,
          cells.set front.length ch.toUInt8, 0⟩ state (name ++ SEMICOLON.toUInt32 :: more) size
          printed s₆ := by
        rw [hlonger]
        exact h₆
      refine .of_ok rfl (ih _ h₇ ?_ ?_ ?_ ?_ ?_)
      · rw [List.length_set, hcells]
      · rw [hlonger, take_set (by omega), hfront, List.map_append, List.map_singleton]
      · exact fun other hother ↦ hname other (List.mem_cons_of_mem ch hother)
      · rw [hlonger]
        omega
      · rw [List.append_assoc]
        exact hentity

/-- The end of a numeric entity. -/
theorem Stands.numeric_end (h : Stands tok state
      (classedAt cfg.inputCharSet SEMICOLON.toUInt32 more) size printed s)
    (hcells : tok.buf.length = 16) (hprintable : 32 ≤ tok.value) (hcode : tok.value < boundOut)
    (hroom : printed.length + 8 ≤ size) :
    Returns (numericEntityEnd cfg) s true (Ended cfg state more size
      (printed ++ cfg.outputCharSet.print (UInt32.ofNat tok.value) 8)) := by
  have hlimit := coded_le hout
  have hvalue : (UInt32.ofNat tok.value).toNat = tok.value :=
    UInt32.toNat_ofNat_of_lt' (Nat.lt_of_lt_of_le hcode hlimit)
  refine .bind (.of_ok (congrArg (EStateM.Result.ok · s) (congrArg TokState.value h.tok_eq)) ?_)
  rw [if_neg (by omega), if_neg (by omega)]
  refine .bind ((h.push hout (hvalue.symm ▸ hcode) hroom).mono ?_)
  intro s₁ h₁
  refine .bind (h₁.set_tok.mono ?_)
  intro s₂ h₂
  refine .bind ((h₂.skip hin (by decide)).mono ?_)
  intro s₃ h₃
  exact .of_ok rfl ⟨tok.init .parsingToken, hcells, h₃⟩

omit hout in
/-- A digit of a numeric entity, or its end, is put into the buffer. -/
theorem Reads.numeric_char {front : List UChar} {ch : UChar} {cells : List Byte}
    {base value : Nat}
    (h : Reads cfg ⟨.parsingNumericBaseEntity, front.length, base, value, cells, 0⟩ state
      (ch :: more) size printed s)
    (hascii : ch.toNat < 128) (hlength : front.length < 16) {result : Option Bool}
    {after : XMLScanner → Prop}
    (hnext : ∀ s', Stands ⟨.parsingNumericBaseEntity, front.length + 1, base, value,
        cells.set front.length ch.toUInt8, 0⟩ state (classedAt cfg.inputCharSet ch more) size
        printed s' →
      Returns (do
        if ch.toUInt8 = SEMICOLON then return some (← numericEntityEnd cfg)
        else if value ≥ base then return some (← fallbackEntity cfg)
        else
          setTok fun tok ↦ { tok with value := tok.value * tok.base + HEX ch.toUInt8 }
          onSrc (TextScanner.skip cfg.inputCharSet)
          return none : Scan (Option Bool)) s' result after) :
    Returns (numericEntityPass cfg) s result after := by
  obtain ⟨src, hahead, hs⟩ := h
  refine .bind (hs.look.mono ?_)
  intro s₁ h₁
  rw [if_pos (show front.length < 16 from hlength)]
  refine .bind ((Reads.ascii hin ⟨src, hahead, h₁⟩ hascii).mono ?_)
  intro s₂ h₂
  refine .bind (h₂.set_tok.mono ?_)
  intro s₃ h₃
  exact hnext s₃ h₃

/-- The digits of a numeric entity that have a value. -/
theorem Reads.numeric (front : List UChar) {digits : List UChar} {cells : List Byte}
    {base value last : Nat}
    (h : Reads cfg ⟨.parsingNumericBaseEntity, front.length, base, value, cells, 0⟩ state
      (digits ++ SEMICOLON.toUInt32 :: more) size printed s)
    (hcells : cells.length = 16) (hdigits : ∀ ch ∈ digits, EntityChar ch)
    (hlength : front.length + digits.length ≤ 15)
    (hvalue : numericValue base value digits = some last) (hprintable : 32 ≤ last)
    (hcode : last < boundOut) (hroom : printed.length + 8 ≤ size) :
    Returns (loop .endless left (numericEntityPass cfg)) s true (Ended cfg state more size
      (printed ++ cfg.outputCharSet.print (UInt32.ofNat last) 8)) := by
  induction digits generalizing front cells value s with
  | nil =>
      obtain rfl := Option.some.inj hvalue
      refine .loop_return numeric_entity_shrinks (h.numeric_char hin (by decide)
        (Nat.lt_succ_of_le hlength) ?_)
      intro s₁ h₁
      rw [if_pos (show SEMICOLON.toUInt32.toUInt8 = SEMICOLON from rfl)]
      refine .bind ((h₁.numeric_end hin hout ?_ hprintable hcode hroom).mono ?_)
      · show (cells.set front.length _).length = 16
        rw [List.length_set, hcells]
      · intro s₂ h₂
        exact .of_ok rfl h₂
  | cons ch digits ih =>
      have hchar := hdigits ch List.mem_cons_self
      rw [List.length_cons] at hlength
      rw [numericValue] at hvalue
      split_ifs at hvalue with hless
      refine .loop_again numeric_entity_shrinks (h.numeric_char hin hchar.ascii (by omega) ?_)
      intro s₁ h₁
      rw [if_neg hchar.byte_ne, if_neg hless]
      refine .bind (h₁.set_tok.mono ?_)
      intro s₂ h₂
      refine .bind ((h₂.skip hin hchar.ascii).mono ?_)
      intro s₃ h₃
      have h₄ : Reads cfg ⟨.parsingNumericBaseEntity, (front ++ [ch]).length, base,
          value * base + HEX ch.toUInt8, cells.set front.length ch.toUInt8, 0⟩ state
          (digits ++ SEMICOLON.toUInt32 :: more) size printed s₃ := by
        rw [List.length_append]
        exact h₃
      refine .of_ok rfl (ih _ h₄ ?_ ?_ ?_ hvalue)
      · rw [List.length_set, hcells]
      · exact fun other hother ↦ hdigits other (List.mem_cons_of_mem ch hother)
      · rw [List.length_append, List.length_singleton]
        omega

omit hin in
/-- A numeric entity that is not decoded is printed as far as it was read. -/
theorem Stands.fallback {front : List UChar} (h : Stands tok state src size printed s)
    (hid : tok.id = .parsingNumericBaseEntity)
    (hfront : tok.buf.take tok.pos = front.map UInt32.toUInt8)
    (hascii : ∀ ch ∈ front, ch.toNat < 128)
    (hroom : printed.length + 8 * (front.length + 2) ≤ size) :
    Returns (fallbackEntity cfg) s true (Stands tok state src size
      (printed ++ cfg.outputCharSet.encode (AMP :: HASH.toUInt32 :: front))) := by
  have hsame : (tok.buf.take tok.pos).map UInt8.toUInt32 = front := by
    rw [hfront, List.map_map]
    refine (List.map_congr_left ?_).trans (List.map_id front)
    intro ch hch
    exact ascii_byte (hascii ch hch)
  refine .bind (h.look.mono ?_)
  intro s₁ h₁
  rw [hsame]
  rw [hid]
  refine h₁.push_all hout _ ?_ hroom
  have hcoded := ascii_coded hout
  intro code hcode
  rcases List.mem_cons.mp hcode with rfl | hcode
  · exact Nat.lt_of_lt_of_le (by decide) hcoded
  · rcases List.mem_cons.mp hcode with rfl | hcode
    · exact Nat.lt_of_lt_of_le (by decide) hcoded
    · exact Nat.lt_of_lt_of_le (hascii code hcode) hcoded

/-- The digits of a numeric entity that have no value: those up to the one in front of which the
value reaches the base are printed. -/
theorem Reads.numeric_doubled (front : List UChar) {digits : List UChar} {cells : List Byte}
    {base value : Nat}
    (h : Reads cfg ⟨.parsingNumericBaseEntity, front.length, base, value, cells, 0⟩ state
      (digits ++ SEMICOLON.toUInt32 :: more) size printed s)
    (hcells : cells.length = 16)
    (hfront : cells.take front.length = front.map UInt32.toUInt8)
    (hascii : ∀ ch ∈ front, ch.toNat < 128) (hdigits : ∀ ch ∈ digits, EntityChar ch)
    (hlength : front.length + digits.length ≤ 15)
    (hvalue : numericValue base value digits = none)
    (hroom : printed.length + 8 * (front.length + digits.length + 2) ≤ size) :
    Returns (loop .endless left (numericEntityPass cfg)) s true fun s' ↦
      ∃ taken back, taken ++ back = front ++ doubled base value digits ∧
        (∀ ch ∈ back, ch ∈ digits) ∧ Ended cfg state (back ++ SEMICOLON.toUInt32 :: more) size
          (printed ++ cfg.outputCharSet.encode (AMP :: HASH.toUInt32 :: taken)) s' := by
  induction digits generalizing front cells value s with
  | nil => exact nomatch hvalue
  | cons ch digits ih =>
      have hchar := hdigits ch List.mem_cons_self
      rw [List.length_cons] at hlength hroom
      have hlonger : (front ++ [ch]).length = front.length + 1 := List.length_append
      have hcells' : (cells.set front.length ch.toUInt8).length = 16 := by
        rw [List.length_set, hcells]
      have hfront' : (cells.set front.length ch.toUInt8).take (front ++ [ch]).length =
          (front ++ [ch]).map UInt32.toUInt8 := by
        rw [hlonger, take_set (by omega), hfront, List.map_append, List.map_singleton]
      have hascii' (other : UChar) (hother : other ∈ front ++ [ch]) : other.toNat < 128 := by
        rcases List.mem_append.mp hother with hin' | hlast
        · exact hascii other hin'
        · rw [List.mem_singleton.mp hlast]
          exact hchar.ascii
      rw [numericValue] at hvalue
      by_cases hless : base ≤ value
      · refine .loop_return numeric_entity_shrinks (h.numeric_char hin hchar.ascii (by omega) ?_)
        intro s₁ h₁
        rw [if_neg hchar.byte_ne, if_pos hless]
        refine .bind ((h₁.fallback hout rfl (hlonger ▸ hfront') hascii' ?_).mono ?_)
        · rw [hlonger]
          omega
        · intro s₂ h₂
          refine .of_ok rfl ⟨front ++ [ch], ch :: digits, ?_, fun _ hother ↦ hother, _, hcells',
            h₂.reads⟩
          rw [doubled, if_pos hless, List.append_assoc, List.singleton_append]
      · rw [if_neg hless] at hvalue
        refine .loop_again numeric_entity_shrinks (h.numeric_char hin hchar.ascii (by omega) ?_)
        intro s₁ h₁
        rw [if_neg hchar.byte_ne, if_neg hless]
        refine .bind (h₁.set_tok.mono ?_)
        intro s₂ h₂
        refine .bind ((h₂.skip hin hchar.ascii).mono ?_)
        intro s₃ h₃
        have h₄ : Reads cfg ⟨.parsingNumericBaseEntity, (front ++ [ch]).length, base,
            value * base + HEX ch.toUInt8, cells.set front.length ch.toUInt8, 0⟩ state
            (digits ++ SEMICOLON.toUInt32 :: more) size printed s₃ := by
          rw [hlonger]
          exact h₃
        have hrest := ih _ h₄ hcells' hfront' hascii'
          (fun other hother ↦ hdigits other (List.mem_cons_of_mem ch hother))
          (by rw [hlonger]; omega) hvalue (by rw [hlonger]; omega)
        refine .of_ok rfl (hrest.mono ?_)
        rintro s₄ ⟨taken, back, hsame, hback, hended⟩
        refine ⟨taken, back, ?_, fun other hother ↦ List.mem_cons_of_mem ch (hback other hother),
          hended⟩
        rw [hsame, doubled, if_neg hless, List.append_assoc, List.singleton_append]

/-- A named entity, behind its `&`. -/
theorem Reads.named_entity {name : List UChar} {cells : List Byte}
    (h : Reads cfg ⟨.parsingToken, 0, 0, 0, cells, 0⟩ state
      (name ++ SEMICOLON.toUInt32 :: more) size printed s)
    (hcells : cells.length = 16) (hname : ∀ ch ∈ name, EntityChar ch)
    (hhash : name.head? ≠ some HASH.toUInt32) (hlength : name.length ≤ 15)
    (hentity : entityOf cfg (name.map UInt32.toUInt8) = some code)
    (hcode : code.toNat < boundOut) (hroom : printed.length + 8 ≤ size) :
    Returns (parseEntity cfg) s true
      (Ended cfg state more size (printed ++ cfg.outputCharSet.print code 8)) := by
  have hnamed {s : XMLScanner} (h : Reads cfg ⟨.parsingEntity, 0, 0, 0, cells, 0⟩ state
      (name ++ SEMICOLON.toUInt32 :: more) size printed s) :
      Returns (parseNamedEntity cfg) s true
        (Ended cfg state more size (printed ++ cfg.outputCharSet.print code 8)) := by
    refine .bind (h.set_tok.mono ?_)
    intro s₁ h₁
    exact Reads.named hin hout [] h₁ hcells rfl hname (by simpa using hlength) hentity
      hcode hroom
  refine .bind (h.set_tok.mono ?_)
  intro s₁ h₁
  cases name with
  | nil =>
      have hend : Reads cfg _ state (SEMICOLON.toUInt32 :: more) size printed s₁ := h₁
      refine .bind ((hend.ascii hin (by decide)).mono ?_)
      intro s₂ h₂
      rw [if_neg (by decide)]
      exact hnamed h₂.reads
  | cons ch name =>
      have hchar := hname ch List.mem_cons_self
      refine .bind ((Reads.ascii hin h₁ hchar.ascii).mono ?_)
      intro s₂ h₂
      rw [if_neg]
      · exact hnamed h₂.reads
      · intro hsame
        refine hhash (congrArg some ?_)
        rw [← hsame, ascii_byte hchar.ascii]

omit hout in
/-- The beginning of a decimal entity, behind its `&`. -/
theorem Reads.decimal_start {cells : List Byte} {first : UChar} {rest : List UChar}
    {after : XMLScanner → Prop}
    (h : Reads cfg ⟨.parsingToken, 0, 0, 0, cells, 0⟩ state
      (HASH.toUInt32 :: first :: rest) size printed s)
    (hascii : first.toNat < 128) (hfirst : first ≠ 120)
    (hnext : ∀ s', Reads cfg ⟨.parsingNumericBaseEntity, 0, 10, 0, cells, 0⟩ state
      (first :: rest) size printed s' →
      Returns (loop .endless left (numericEntityPass cfg)) s' true after) :
    Returns (parseEntity cfg) s true after := by
  have hbyte : first.toUInt8 ≠ 120 := by
    intro hsame
    refine hfirst ?_
    rw [← ascii_byte hascii, hsame]
    rfl
  refine .bind (h.set_tok.mono ?_)
  intro s₁ h₁
  refine .bind ((Reads.ascii hin h₁ (by decide)).mono ?_)
  intro s₂ h₂
  rw [if_pos (show HASH.toUInt32.toUInt8 = HASH from rfl)]
  refine .bind ((h₂.skip hin (by decide)).mono ?_)
  intro s₃ h₃
  refine .bind (h₃.set_tok.mono ?_)
  intro s₄ h₄
  refine .bind ((Reads.ascii hin h₄ hascii).mono ?_)
  intro s₅ h₅
  rw [if_neg hbyte]
  refine .bind (h₅.set_tok.mono ?_)
  intro s₆ h₆
  refine .bind (h₆.set_tok.mono ?_)
  intro s₇ h₇
  exact hnext s₇ h₇.reads

omit hout in
/-- The beginning of a hexadecimal entity, behind its `&`. -/
theorem Reads.hexadecimal_start {cells : List Byte} {rest : List UChar}
    {after : XMLScanner → Prop}
    (h : Reads cfg ⟨.parsingToken, 0, 0, 0, cells, 0⟩ state
      (HASH.toUInt32 :: 120 :: rest) size printed s)
    (hnext : ∀ s', Reads cfg ⟨.parsingNumericBaseEntity, 0, 16, 0, cells, 0⟩ state rest size
      printed s' → Returns (loop .endless left (numericEntityPass cfg)) s' true after) :
    Returns (parseEntity cfg) s true after := by
  refine .bind (h.set_tok.mono ?_)
  intro s₁ h₁
  refine .bind ((Reads.ascii hin h₁ (by decide)).mono ?_)
  intro s₂ h₂
  rw [if_pos (show HASH.toUInt32.toUInt8 = HASH from rfl)]
  refine .bind ((h₂.skip hin (by decide)).mono ?_)
  intro s₃ h₃
  refine .bind (h₃.set_tok.mono ?_)
  intro s₄ h₄
  have hmark : Reads cfg _ state (120 :: rest) size printed s₄ := h₄
  refine .bind ((hmark.ascii hin (by decide)).mono ?_)
  intro s₅ h₅
  rw [if_pos (by decide)]
  refine .bind (h₅.set_tok.mono ?_)
  intro s₆ h₆
  refine .bind ((h₆.skip hin (by decide)).mono ?_)
  intro s₇ h₇
  refine .bind (h₇.set_tok.mono ?_)
  intro s₈ h₈
  exact hnext s₈ h₈

end Both

end Entities

end XMLScanner

end Smerp.Textwolf
