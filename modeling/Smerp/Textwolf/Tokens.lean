import Smerp.Textwolf.Texts

/-!
# Tokens that are read back

A token is written as a sequence of characters and entities. The scanner reads it as the characters
that these stand for, and prints them in the character set of the output.
-/

namespace Smerp.Textwolf

open Lib Lib.Interruptible
open XMLScanner

/-- A character of a token, or an entity: a named one, or a numeric one with its digits. -/
inductive Glyph where
  | char (code : UChar)
  | named (name : List UChar)
  | decimal (digits : List UChar)
  | hexadecimal (digits : List UChar)
  deriving DecidableEq, Repr

namespace Glyph

/-- How it is written. -/
def chars : Glyph → List UChar
  | char code => [code]
  | named name => AMP :: name ++ [SEMICOLON.toUInt32]
  | decimal digits => AMP :: HASH.toUInt32 :: digits ++ [SEMICOLON.toUInt32]
  | hexadecimal digits => AMP :: HASH.toUInt32 :: 120 :: digits ++ [SEMICOLON.toUInt32]

/-- What a numeric entity is read as. If it has no value, it is not decoded: a digit is doubled, and
the mark of a hexadecimal number is lost. -/
def numericCodes (base : Nat) (digits : List UChar) : List UChar :=
  match numericValue base 0 digits with
  | some value => [UInt32.ofNat value]
  | none => AMP :: HASH.toUInt32 :: doubled base 0 digits ++ [SEMICOLON.toUInt32]

/-- What it is read as. -/
def codes (cfg : Setup) : Glyph → List UChar
  | char code => [code]
  | named name => (entityOf cfg (name.map UInt32.toUInt8)).toList
  | decimal digits => numericCodes 10 digits
  | hexadecimal digits => numericCodes 16 digits

/-- The digits of a numeric entity that is no error: its value can be printed. -/
structure FineDigits (boundOut base : Nat) (digits : List UChar) : Prop where
  chars : ∀ ch ∈ digits, EntityChar ch
  length_le : digits.length ≤ 15
  value : ∀ value, numericValue base 0 digits = some value → 32 ≤ value ∧ value < boundOut

/-- It may stand in a token of this kind, and is no error. -/
inductive Fine (cfg : Setup) (boundIn boundOut : Nat) (isTok : IsTokenCharMap) : Glyph → Prop where
  | char {code : UChar} (hclass : isTok (TextScanner.classOf code) = true)
      (hin : code.toNat < boundIn) (hout : code.toNat < boundOut) :
      Fine cfg boundIn boundOut isTok (.char code)
  | named {name : List UChar} {code : UChar} (hname : ∀ ch ∈ name, EntityChar ch)
      (hhash : name.head? ≠ some HASH.toUInt32) (hlength : name.length ≤ 15)
      (hentity : entityOf cfg (name.map UInt32.toUInt8) = some code)
      (hout : code.toNat < boundOut) : Fine cfg boundIn boundOut isTok (.named name)
  | decimal {digits : List UChar} (hdigits : FineDigits boundOut 10 digits)
      (hfirst : digits.head? ≠ some 120) : Fine cfg boundIn boundOut isTok (.decimal digits)
  | hexadecimal {digits : List UChar} (hdigits : FineDigits boundOut 16 digits) :
      Fine cfg boundIn boundOut isTok (.hexadecimal digits)

end Glyph

namespace XMLScanner

open TextScanner (textAt classedAt decodedAt Ahead classOf)

/-- A token of this kind is parsed, and the reader is in front of these characters. -/
def Parses (cfg : Setup) (id : TokStateId) (state : STMState) (chars : List UChar) (size : Nat)
    (printed : List Byte) (s : XMLScanner) : Prop :=
  ∃ cells, cells.length = 16 ∧ Reads cfg ⟨id, 0, 0, 0, cells, 0⟩ state chars size printed s

/-- The doubled digit is one of the digits. -/
theorem doubled_mem {base value : Nat} {digits : List UChar} {ch : UChar}
    (h : ch ∈ doubled base value digits) : ch ∈ digits := by
  induction digits generalizing value with
  | nil => exact h
  | cons first digits ih =>
      rw [doubled] at h
      split_ifs at h
      · rcases List.mem_cons.mp h with rfl | h
        · exact List.mem_cons_self
        · exact h
      · rcases List.mem_cons.mp h with rfl | h
        · exact List.mem_cons_self
        · exact List.mem_cons_of_mem first (ih h)

theorem doubled_length {base value : Nat} {digits : List UChar}
    (h : numericValue base value digits = none) :
    (doubled base value digits).length = digits.length + 1 := by
  induction digits generalizing value with
  | nil => exact nomatch h
  | cons first digits ih =>
      rw [numericValue] at h
      rw [doubled]
      split_ifs at h ⊢
      · rfl
      · rw [List.length_cons, ih h, List.length_cons]

/-- Behind a token the reader has classified the character that ended it. -/
def Stops (cfg : Setup) (state : STMState) (stop : UChar) (more : List UChar) (size : Nat)
    (printed : List Byte) (s : XMLScanner) : Prop :=
  ∃ cells, cells.length = 16 ∧ Stands ⟨.start, 0, 0, 0, cells, 0⟩ state
    (classedAt cfg.inputCharSet stop more) size printed s

theorem encode_append (cs : CharSet) (front back : List UChar) :
    cs.encode (front ++ back) = cs.encode front ++ cs.encode back := List.flatMap_append

/-- What a numeric entity is read as can be printed. -/
theorem numeric_codes_lt {boundOut base : Nat} {cs : CharSet} (hout : IsCharSet cs boundOut)
    {digits : List UChar} (hdigits : Glyph.FineDigits boundOut base digits) {code : UChar}
    (hcode : code ∈ Glyph.numericCodes base digits) : code.toNat < boundOut := by
  rw [Glyph.numericCodes] at hcode
  cases hvalue : numericValue base 0 digits with
  | some value =>
      obtain ⟨-, hlt⟩ := hdigits.value value hvalue
      rw [hvalue] at hcode
      rw [List.mem_singleton.mp hcode,
        UInt32.toNat_ofNat_of_lt' (Nat.lt_of_lt_of_le hlt (coded_le hout))]
      exact hlt
  | none =>
      rw [hvalue] at hcode
      refine Nat.lt_of_lt_of_le ?_ (ascii_coded hout)
      simp only [List.cons_append, List.mem_cons, List.mem_append, List.not_mem_nil,
        or_false] at hcode
      rcases hcode with rfl | rfl | hdigit | rfl
      · decide
      · decide
      · exact (hdigits.chars code (doubled_mem hdigit)).ascii
      · decide

/-- What a glyph is read as can be printed. -/
theorem fine_codes_lt {cfg : Setup} {boundIn boundOut : Nat} {isTok : IsTokenCharMap}
    (hout : IsCharSet cfg.outputCharSet boundOut) {glyph : Glyph}
    (hglyph : glyph.Fine cfg boundIn boundOut isTok) (code : UChar)
    (hcode : code ∈ glyph.codes cfg) : code.toNat < boundOut := by
  cases hglyph with
  | char _ _ hlt =>
      rw [List.mem_singleton.mp hcode]
      exact hlt
  | named _ _ _ hentity hlt =>
      rw [Glyph.codes, hentity] at hcode
      rw [List.mem_singleton.mp hcode]
      exact hlt
  | decimal hdigits _ => exact numeric_codes_lt hout hdigits hcode
  | hexadecimal hdigits => exact numeric_codes_lt hout hdigits hcode

section Parsing

variable {cfg : Setup} {boundIn boundOut : Nat} {state : STMState} {size : Nat}
  {printed : List Byte} {s : XMLScanner} {isTok : IsTokenCharMap} {more : List UChar}
  (hin : IsCharSet cfg.inputCharSet boundIn) (hout : IsCharSet cfg.outputCharSet boundOut)
  (hamp : isTok .amp = false) (hany : isTok .any = true) {rt : Bool} {after : XMLScanner → Prop}

include hin hout

/-- A character of a token. -/
theorem token_char {code : UChar} (h : Parses cfg .parsingToken state (code :: more) size printed s)
    (hclass : isTok (classOf code) = true) (hcode : code.toNat < boundIn)
    (hcode' : code.toNat < boundOut) (hroom : printed.length + 8 ≤ size) :
    Returns (tokenPass cfg isTok) s none (Parses cfg .parsingToken state more size
      (printed ++ cfg.outputCharSet.print code 8)) := by
  obtain ⟨cells, hcells, hs⟩ := h
  refine .bind ((hs.control hin hcode).mono ?_)
  intro s₁ h₁
  rw [if_pos hclass]
  refine .bind ((h₁.on_src (TextScanner.chr_classed hin hcode)).mono ?_)
  intro s₂ h₂
  refine .bind ((h₂.push hout hcode' hroom).mono ?_)
  intro s₃ h₃
  refine .bind ((h₃.on_src (TextScanner.skip_decoded_at hin hcode)).mono ?_)
  intro s₄ h₄
  exact .of_ok rfl ⟨cells, hcells, _, .text more, h₄⟩

/-- Some characters of a token. -/
theorem token_chars (codes : List UChar)
    (h : Parses cfg .parsingToken state (codes ++ more) size printed s)
    (hcodes : ∀ code ∈ codes, isTok (classOf code) = true ∧ code.toNat < boundIn ∧
      code.toNat < boundOut)
    (hroom : printed.length + 8 * codes.length ≤ size)
    (hnext : ∀ s', Parses cfg .parsingToken state more size
      (printed ++ cfg.outputCharSet.encode codes) s' → Returns (tokenLoop cfg isTok) s' rt after) :
    Returns (tokenLoop cfg isTok) s rt after := by
  induction codes generalizing printed s with
  | nil =>
      refine hnext s ?_
      rw [CharSet.encode, List.flatMap_nil, List.append_nil]
      exact h
  | cons code codes ih =>
      obtain ⟨hclass, hcode, hcode'⟩ := hcodes code List.mem_cons_self
      have hle := (encodes_print hout (UInt32.le_refl 8) hcode').length_le
      rw [List.length_cons] at hroom
      refine .loop_again (token_shrinks isTok)
        ((token_char hin hout h hclass hcode hcode' (by omega)).mono ?_)
      intro s' h'
      refine ih h' (fun other hother ↦ hcodes other (List.mem_cons_of_mem code hother))
        (by rw [List.length_append]; omega) ?_
      intro s'' h''
      rw [List.append_assoc] at h''
      exact hnext s'' h''

include hamp

omit hout in
/-- An entity of a token. -/
theorem token_entity (goal : List UChar → List Byte → Prop)
    (h : Parses cfg .parsingToken state (AMP :: more) size printed s)
    (hentity : ∀ cells s', cells.length = 16 →
      Reads cfg ⟨.parsingToken, 0, 0, 0, cells, 0⟩ state more size printed s' →
      Returns (parseEntity cfg) s' true fun s'' ↦
        ∃ chars printed', goal chars printed' ∧ Ended cfg state chars size printed' s'')
    (hnext : ∀ chars printed' s', goal chars printed' →
      Parses cfg .parsingToken state chars size printed' s' →
      Returns (tokenLoop cfg isTok) s' rt after) : Returns (tokenLoop cfg isTok) s rt after := by
  obtain ⟨cells, hcells, hs⟩ := h
  have hclass : classOf AMP = .amp := by decide
  refine .loop_again (token_shrinks isTok) ?_
  refine .bind ((hs.control hin (Nat.lt_of_lt_of_le (by decide) (ascii_coded hin))).mono ?_)
  intro s₁ h₁
  rw [hclass, if_neg (by rw [hamp]; decide), if_pos rfl]
  refine .bind ((h₁.skip hin (by decide)).mono ?_)
  intro s₂ h₂
  refine .bind ((hentity cells s₂ hcells h₂).mono ?_)
  rintro s₃ ⟨chars, printed', hgoal, tok, hcells', hs'⟩
  refine .bind (hs'.set_tok.mono ?_)
  intro s₄ h₄
  exact .of_ok rfl (hnext chars printed' s₄ hgoal ⟨tok.buf, hcells', h₄⟩)

include hany

/-- A numeric entity of a token, from its digits on. -/
theorem token_digits {base : Nat} {digits : List UChar} (front : List UChar)
    (hdigits : Glyph.FineDigits boundOut base digits)
    (h : Parses cfg .parsingToken state
      (AMP :: front ++ digits ++ SEMICOLON.toUInt32 :: more) size printed s)
    (hstart : ∀ (cells : List Byte) s' after, Reads cfg ⟨.parsingToken, 0, 0, 0, cells, 0⟩ state
        (front ++ digits ++ SEMICOLON.toUInt32 :: more) size printed s' →
      (∀ s'', Reads cfg ⟨.parsingNumericBaseEntity, 0, base, 0, cells, 0⟩ state
          (digits ++ SEMICOLON.toUInt32 :: more) size printed s'' →
        Returns (loop .endless left (numericEntityPass cfg)) s'' true after) →
      Returns (parseEntity cfg) s' true after)
    (hroom : printed.length + 8 * (Glyph.numericCodes base digits).length ≤ size)
    (hnext : ∀ s', Parses cfg .parsingToken state more size
        (printed ++ cfg.outputCharSet.encode (Glyph.numericCodes base digits)) s' →
      Returns (tokenLoop cfg isTok) s' rt after) : Returns (tokenLoop cfg isTok) s rt after := by
  cases hvalue : numericValue base 0 digits with
  | some value =>
      obtain ⟨hprintable, hcode⟩ := hdigits.value value hvalue
      rw [Glyph.numericCodes, hvalue, List.length_singleton] at hroom
      refine token_entity hin hamp (fun chars printed' ↦ chars = more ∧
        printed' = printed ++ cfg.outputCharSet.print (UInt32.ofNat value) 8) h ?_ ?_
      · intro cells s₁ hcells h₁
        refine hstart cells s₁ _ h₁ ?_
        intro s₂ h₂
        refine (Reads.numeric hin hout [] h₂ hcells hdigits.chars
          (by simpa using hdigits.length_le) hvalue hprintable hcode (by omega)).mono ?_
        intro s₃ h₃
        exact ⟨_, _, ⟨rfl, rfl⟩, h₃⟩
      · rintro chars printed' s₁ ⟨rfl, rfl⟩ h₁
        refine hnext s₁ ?_
        rw [Glyph.numericCodes, hvalue, CharSet.encode, List.flatMap_singleton]
        exact h₁
  | none =>
      have hroomy : printed.length + 8 * (digits.length + 4) ≤ size := by
        rw [Glyph.numericCodes, hvalue] at hroom
        simpa [doubled_length hvalue] using hroom
      refine token_entity hin hamp (fun chars printed' ↦ ∃ taken back,
        taken ++ back = doubled base 0 digits ∧ (∀ ch ∈ back, ch ∈ digits) ∧
        chars = back ++ SEMICOLON.toUInt32 :: more ∧
        printed' = printed ++ cfg.outputCharSet.encode (AMP :: HASH.toUInt32 :: taken)) h ?_ ?_
      · intro cells s₁ hcells h₁
        refine hstart cells s₁ _ h₁ ?_
        intro s₂ h₂
        refine (Reads.numeric_doubled hin hout [] h₂ hcells rfl
          (fun _ hnone ↦ absurd hnone List.not_mem_nil) hdigits.chars
          (by simpa using hdigits.length_le) hvalue
          (by simpa using by omega)).mono ?_
        rintro s₃ ⟨taken, back, hsame, hback, h₃⟩
        exact ⟨_, _, ⟨taken, back, hsame, hback, rfl, rfl⟩, h₃⟩
      · rintro chars printed' s₁ ⟨taken, back, hsame, hback, rfl, rfl⟩ h₁
        have hascii (ch : UChar) (hch : ch ∈ taken ++ back) : ch.toNat < 128 :=
          (hdigits.chars ch (doubled_mem (hsame ▸ hch))).ascii
        have hcount : taken.length + back.length = digits.length + 1 := by
          rw [← List.length_append, hsame, doubled_length hvalue]
        have hprinted := encode_length hout (AMP :: HASH.toUInt32 :: taken) ?_
        rw [List.length_cons, List.length_cons] at hprinted
        refine token_chars hin hout (back ++ [SEMICOLON.toUInt32]) (by simpa using h₁) ?_ ?_ ?_
        · intro code hcode
          have hchar : code.toNat < 128 ∧ classOf code = .any := by
            rcases List.mem_append.mp hcode with hback' | hlast
            · have hdigit := hdigits.chars code (hback code hback')
              exact ⟨hdigit.ascii, hdigit.any⟩
            · rw [List.mem_singleton.mp hlast]
              decide
          exact ⟨hchar.2.symm ▸ hany, Nat.lt_of_lt_of_le hchar.1 (ascii_coded hin),
            Nat.lt_of_lt_of_le hchar.1 (ascii_coded hout)⟩
        · rw [List.length_append, List.length_append, List.length_singleton]
          omega
        · intro s₂ h₂
          refine hnext s₂ ?_
          rw [Glyph.numericCodes, hvalue, ← hsame]
          simpa [CharSet.encode, List.append_assoc] using h₂
        · intro code hcode
          refine Nat.lt_of_lt_of_le ?_ (ascii_coded hout)
          rcases List.mem_cons.mp hcode with rfl | hcode
          · decide
          · rcases List.mem_cons.mp hcode with rfl | hcode
            · decide
            · exact hascii code (List.mem_append_left back hcode)

/-- A character or an entity of a token. -/
theorem token_glyph {glyph : Glyph} (hglyph : glyph.Fine cfg boundIn boundOut isTok)
    (h : Parses cfg .parsingToken state (glyph.chars ++ more) size printed s)
    (hroom : printed.length + 8 * (glyph.codes cfg).length ≤ size)
    (hnext : ∀ s', Parses cfg .parsingToken state more size
        (printed ++ cfg.outputCharSet.encode (glyph.codes cfg)) s' →
      Returns (tokenLoop cfg isTok) s' rt after) : Returns (tokenLoop cfg isTok) s rt after := by
  cases hglyph with
  | char hclass hcode hcode' =>
      refine token_chars hin hout [_] h ?_ hroom hnext
      intro code hmem
      rw [List.mem_singleton.mp hmem]
      exact ⟨hclass, hcode, hcode'⟩
  | @named name code hname hhash hlength hentity hcode =>
      have hcodes : (Glyph.named name).codes cfg = [code] := by
        rw [Glyph.codes, hentity]
        rfl
      have hchars : Parses cfg .parsingToken state
          (AMP :: (name ++ SEMICOLON.toUInt32 :: more)) size printed s := by
        simpa [Glyph.chars] using h
      rw [hcodes] at hroom hnext
      refine token_entity hin hamp (fun chars printed' ↦ chars = more ∧
        printed' = printed ++ cfg.outputCharSet.print code 8) hchars ?_ ?_
      · intro cells s₁ hcells h₁
        refine (Reads.named_entity hin hout h₁ hcells hname hhash hlength hentity hcode
          hroom).mono ?_
        intro s₂ h₂
        exact ⟨_, _, ⟨rfl, rfl⟩, h₂⟩
      · rintro chars printed' s₁ ⟨rfl, rfl⟩ h₁
        refine hnext s₁ ?_
        rw [CharSet.encode, List.flatMap_singleton]
        exact h₁
  | @decimal digits hdigits hfirst =>
      refine token_digits hin hout hamp hany [HASH.toUInt32] hdigits
        (by simpa [Glyph.chars] using h) ?_ hroom hnext
      intro cells s₁ after h₁ hdone
      cases digits with
      | nil => exact Reads.decimal_start hin h₁ (by decide) (by decide) hdone
      | cons first digits =>
          refine Reads.decimal_start hin h₁ (hdigits.chars first List.mem_cons_self).ascii ?_ hdone
          exact fun hsame ↦ hfirst (congrArg some hsame)
  | @hexadecimal digits hdigits =>
      refine token_digits hin hout hamp hany [HASH.toUInt32, 120] hdigits
        (by simpa [Glyph.chars] using h) ?_ hroom hnext
      intro cells s₁ after h₁ hdone
      exact Reads.hexadecimal_start hin h₁ hdone

/-- A token, up to a character that ends it. -/
theorem token_text {stop : UChar} (text : List Glyph)
    (htext : ∀ glyph ∈ text, glyph.Fine cfg boundIn boundOut isTok)
    (hstop : stop.toNat < boundIn) (hclass : isTok (classOf stop) = false)
    (hend : classOf stop ≠ .amp)
    (h : Parses cfg .parsingToken state (text.flatMap Glyph.chars ++ stop :: more) size printed s)
    (hroom : printed.length + 8 * (text.flatMap (Glyph.codes cfg)).length ≤ size) :
    Returns (tokenLoop cfg isTok) s true
      (Stops cfg state stop more size
        (printed ++ cfg.outputCharSet.encode (text.flatMap (Glyph.codes cfg)))) := by
  induction text generalizing printed s with
  | nil =>
      obtain ⟨cells, hcells, hs⟩ := h
      refine .loop_return (token_shrinks isTok) ?_
      refine .bind ((hs.control hin hstop).mono ?_)
      intro s₁ h₁
      rw [if_neg (by rw [hclass]; decide), if_neg hend]
      refine .bind (h₁.set_tok.mono ?_)
      intro s₂ h₂
      refine .of_ok rfl ⟨cells, hcells, ?_⟩
      rw [List.flatMap_nil, CharSet.encode, List.flatMap_nil, List.append_nil]
      exact h₂
  | cons glyph text ih =>
      have hglyph := htext glyph List.mem_cons_self
      have hprinted := encode_length hout _ (fine_codes_lt hout hglyph)
      rw [List.flatMap_cons, List.length_append] at hroom
      rw [List.flatMap_cons, List.append_assoc] at h
      refine token_glyph hin hout hamp hany hglyph h (by omega) ?_
      intro s₁ h₁
      have hrest := ih (fun other hother ↦ htext other (List.mem_cons_of_mem glyph hother)) h₁
        (by rw [List.length_append]; omega)
      rw [List.flatMap_cons, encode_append, ← List.append_assoc]
      exact hrest

/-- `parseToken` reads a token. -/
theorem parse_token_text {stop : UChar} (text : List Glyph)
    (htext : ∀ glyph ∈ text, glyph.Fine cfg boundIn boundOut isTok)
    (hstop : stop.toNat < boundIn) (hclass : isTok (classOf stop) = false)
    (hend : classOf stop ≠ .amp)
    (h : Parses cfg .start state (text.flatMap Glyph.chars ++ stop :: more) size [] s)
    (hroom : 8 * (text.flatMap (Glyph.codes cfg)).length ≤ size) :
    Returns (parseToken cfg isTok) s true
      (Stops cfg state stop more size
        (cfg.outputCharSet.encode (text.flatMap (Glyph.codes cfg)))) := by
  obtain ⟨cells, hcells, src, hahead, hs⟩ := h
  refine .bind (.of_ok rfl ?_)
  rw [if_pos (congrArg TokState.id hs.tok_eq)]
  refine .bind (hs.set_tok.mono ?_)
  intro s₁ h₁
  have hparses : Parses cfg .parsingToken state (text.flatMap Glyph.chars ++ stop :: more) size []
      s₁ := ⟨cells, hcells, src, hahead, h₁⟩
  exact token_text hin hout hamp hany text htext hstop hclass hend hparses (by simpa using hroom)

end Parsing

/-! ## Skipping -/

/-- A character that is skipped in a token of this kind. -/
def Skipped (boundIn : Nat) (isTok : IsTokenCharMap) (code : UChar) : Prop :=
  (isTok (classOf code) = true ∨ classOf code = .amp) ∧ code.toNat < boundIn

/-- All characters of a glyph are skipped, whatever it stands for. -/
theorem glyph_skipped {cfg : Setup} {boundIn boundOut : Nat} {isTok : IsTokenCharMap}
    (hin : IsCharSet cfg.inputCharSet boundIn) (hany : isTok .any = true) {glyph : Glyph}
    (hglyph : glyph.Fine cfg boundIn boundOut isTok) (code : UChar) (hcode : code ∈ glyph.chars) :
    Skipped boundIn isTok code := by
  have hascii := ascii_coded hin
  have hplain {ch : UChar} (hch : ch.toNat < 128) (hclass : classOf ch = .any) :
      Skipped boundIn isTok ch :=
    ⟨.inl (hclass.symm ▸ hany), Nat.lt_of_lt_of_le hch hascii⟩
  have hamp : Skipped boundIn isTok AMP := ⟨.inr (by decide), Nat.lt_of_lt_of_le (by decide) hascii⟩
  have hentity {chars : List UChar} (hchars : ∀ ch ∈ chars, EntityChar ch)
      (h : code ∈ chars ++ [SEMICOLON.toUInt32]) : Skipped boundIn isTok code := by
    rcases List.mem_append.mp h with hchar | hend
    · exact hplain (hchars code hchar).ascii (hchars code hchar).any
    · rw [List.mem_singleton.mp hend]
      exact hplain (by decide) (by decide)
  cases hglyph with
  | char hclass hlt _ =>
      rw [List.mem_singleton.mp hcode]
      exact ⟨.inl hclass, hlt⟩
  | named hname _ _ _ _ =>
      rcases List.mem_cons.mp hcode with rfl | h
      · exact hamp
      · exact hentity hname h
  | decimal hdigits _ =>
      rcases List.mem_cons.mp hcode with rfl | h
      · exact hamp
      · rcases List.mem_cons.mp h with rfl | h
        · exact hplain (by decide) (by decide)
        · exact hentity hdigits.chars h
  | hexadecimal hdigits =>
      rcases List.mem_cons.mp hcode with rfl | h
      · exact hamp
      · rcases List.mem_cons.mp h with rfl | h
        · exact hplain (by decide) (by decide)
        · rcases List.mem_cons.mp h with rfl | h
          · exact hplain (by decide) (by decide)
          · exact hentity hdigits.chars h

section Skipping

variable {cfg : Setup} {boundIn : Nat} {tok : TokState} {state : STMState} {size : Nat}
  {printed : List Byte} {s : XMLScanner} {isTok : IsTokenCharMap} {more : List UChar}
  (hin : IsCharSet cfg.inputCharSet boundIn) (hany : isTok .any = true)
  (hundef : isTok .undef = true) {rt : Bool} {after : XMLScanner → Prop}

include hany hundef

/-- What is left of a character when it is classified is skipped byte by byte. -/
theorem skip_behind {bytes : List Byte}
    (hbytes : ∀ ch ∈ bytes, cfg.inputCharSet = UTF8 ∧ 128 ≤ ch)
    (h : Stands tok state (.fresh (bytes ++ cfg.inputCharSet.encode more)) size printed s)
    (hnext : ∀ s', Reads cfg tok state more size printed s' →
      Returns (skipToken cfg isTok) s' rt after) : Returns (skipToken cfg isTok) s rt after := by
  induction bytes generalizing s with
  | nil => exact hnext s ⟨_, .text more, h⟩
  | cons ch bytes ih =>
      obtain ⟨hutf8, hlarge⟩ := hbytes ch List.mem_cons_self
      have hcontrol : TextScanner.control cfg.inputCharSet
          (.fresh (ch :: bytes ++ cfg.inputCharSet.encode more)) =
          .ok ControlCharacter.undef ⟨bytes ++ cfg.inputCharSet.encode more, [ch], 0, ch⟩ := by
        rw [hutf8, ← TextScanner.control_char_undef hlarge]
        rfl
      have hskip : TextScanner.skip cfg.inputCharSet
          ⟨bytes ++ cfg.inputCharSet.encode more, [ch], 0, ch⟩ =
          .ok () (.fresh (bytes ++ cfg.inputCharSet.encode more)) := by
        rw [hutf8]
        rfl
      refine .loop_again (skip_shrinks hany) (.bind ((h.on_src hcontrol).mono ?_))
      intro s₁ h₁
      rw [if_pos (.inl hundef)]
      refine .bind ((h₁.on_src hskip).mono ?_)
      intro s₂ h₂
      exact .of_ok rfl (ih (fun other hother ↦ hbytes other (List.mem_cons_of_mem ch hother)) h₂)

include hin

/-- A character of a token is skipped. -/
theorem skip_char {code : UChar} (h : Reads cfg tok state (code :: more) size printed s)
    (hcode : Skipped boundIn isTok code)
    (hnext : ∀ s', Reads cfg tok state more size printed s' →
      Returns (skipToken cfg isTok) s' rt after) : Returns (skipToken cfg isTok) s rt after := by
  have hchar := encodes_print hin (UInt32.le_refl 8) hcode.2
  have hloaded : TextScanner.Loaded cfg.inputCharSet (classedAt cfg.inputCharSet code more) := by
    rw [TextScanner.Loaded, classedAt, TextScanner.held, List.length_take,
      Nat.min_eq_left hchar.head_le]
  refine .loop_again (skip_shrinks hany) (.bind ((h.control hin hcode.2).mono ?_))
  intro s₁ h₁
  rw [if_pos hcode.1]
  refine .bind ((h₁.on_src (TextScanner.skip_loaded hloaded)).mono ?_)
  intro s₂ h₂
  exact .of_ok rfl (skip_behind hany hundef (fun ch hch ↦ print_behind hin code hch) h₂ hnext)

/-- A token is skipped, up to a character that ends it. -/
theorem skip_token_text {stop : UChar} {chars : List UChar}
    (hchars : ∀ code ∈ chars, Skipped boundIn isTok code)
    (hstop : stop.toNat < boundIn) (hclass : isTok (classOf stop) = false)
    (hend : classOf stop ≠ .amp)
    (h : Reads cfg tok state (chars ++ stop :: more) size printed s) :
    Returns (skipToken cfg isTok) s true
      (Stands tok state (classedAt cfg.inputCharSet stop more) size printed) := by
  induction chars generalizing s with
  | nil =>
      refine .loop_return (skip_shrinks hany) (.bind ((h.control hin hstop).mono ?_))
      intro s₁ h₁
      have hnot : ¬ (isTok (classOf stop) = true ∨ classOf stop = .amp) := by
        rw [hclass]
        simpa using hend
      have hplain : classOf stop ≠ .any := by
        intro hsame
        rw [hsame, hany] at hclass
        exact Bool.noConfusion hclass
      rw [if_neg hnot]
      refine .bind ((h₁.reads.control hin hstop).mono ?_)
      intro s₂ h₂
      rw [if_pos hplain]
      exact .of_ok rfl h₂
  | cons code chars ih =>
      refine skip_char hin hany hundef h (hchars code List.mem_cons_self) ?_
      intro s₁ h₁
      exact ih (fun other hother ↦ hchars other (List.mem_cons_of_mem code hother)) h₁

end Skipping

end XMLScanner

end Smerp.Textwolf
