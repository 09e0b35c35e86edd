import Smerp.Textwolf.Requests
import Smerp.Textwolf.Tokens

/-!
# What a pass does in a state

For every kind of state, what one pass of the loop of `nextItem` does in front of the characters
that lead on from it: a character between two items, a key word, a token, the end of an item.
-/

namespace Smerp.Textwolf

open Lib Lib.Interruptible

namespace XMLScanner

open TextScanner (classOf)

/-- No token goes on with an entity as a character. -/
theorem token_defs_amp {op : STMAction} {isTok : IsTokenCharMap} (h : tokenDefs op = some isTok) :
    isTok .amp = false := by
  cases op <;> cases h <;> rfl

/-- The characters of every kind of token include those that are not ASCII. -/
theorem token_defs_undef {op : STMAction} {isTok : IsTokenCharMap}
    (h : tokenDefs op = some isTok) : isTok ControlCharacter.undef = true := by
  cases op
  all_goals simp only [tokenDefs, Option.some.injEq, reduceCtorEq] at h
  all_goals subst h
  all_goals rfl

/-- The text of an item. It is empty if the mask does not ask for it. -/
def shown (mask : UInt16) (kind : ElementType) (codes : List UChar) : List UChar :=
  if inMask mask kind then codes else []

theorem shown_nil (mask : UInt16) (kind : ElementType) : shown mask kind [] = [] := ite_self []

section Passes

variable {cfg : Setup} {boundIn boundOut : Nat} {state ns : STMState} {size : Nat}
  {printed : List Byte} {s : XMLScanner} {mask : UInt16} {code : UChar} {more : List UChar}
  (hin : IsCharSet cfg.inputCharSet boundIn)

include hin

omit hin in
theorem Parses.state_eq {id : TokStateId} {chars : List UChar}
    (h : Parses cfg id state chars size printed s) : s.state = state := by
  obtain ⟨cells, hcells, src, hahead, hs⟩ := h
  exact hs.state_eq

omit hin in
/-- A pass from a state. -/
theorem item_pass_at {result : Option ElementType} {after : XMLScanner → Prop}
    (hstate : s.state = state)
    (h : Returns (act cfg mask (statemachine state).action >>=
      behindAction cfg (statemachine state)) s result after) :
    Returns (itemPass cfg mask) s result after := by
  subst hstate
  exact h

/-- Behind the action the next character leads to another state. -/
theorem behind_action_step (kind : ElementType)
    (h : Parses cfg .start state (code :: more) size printed s) (hascii : code.toNat < 128)
    (hnext : (statemachine state).next (classOf code) = some ns) :
    Returns (behindAction cfg (statemachine state) (.goesOn kind)) s (whileNone kind)
      (Parses cfg .start ns more size printed) := by
  obtain ⟨cells, hcells, hs⟩ := h
  refine .bind ((hs.control hin (Nat.lt_of_lt_of_le hascii (ascii_coded hin))).mono ?_)
  intro s₁ h₁
  rw [transit, hnext]
  refine .bind (h₁.set_state.mono ?_)
  intro s₂ h₂
  refine .bind ((h₂.skip hin hascii).mono ?_)
  intro s₃ h₃
  exact .of_ok rfl ⟨cells, hcells, h₃⟩

/-- A state without an action, and a character that leads to another one. -/
theorem pass_step (h : Parses cfg .start state (code :: more) size printed s)
    (hascii : code.toNat < 128) (haction : (statemachine state).action = none)
    (hnext : (statemachine state).next (classOf code) = some ns) :
    Returns (itemPass cfg mask) s none (Parses cfg .start ns more size printed) := by
  refine item_pass_at h.state_eq ?_
  rw [haction]
  exact .bind (.of_ok rfl (behind_action_step hin .none h hascii hnext))

/-- A state without an action that falls back. -/
theorem pass_fallback (h : Parses cfg .start state (code :: more) size printed s)
    (hcode : code.toNat < boundIn) (haction : (statemachine state).action = none)
    (hnext : (statemachine state).next (classOf code) = none)
    (hfallback : (statemachine state).fallbackState = some ns) :
    Returns (itemPass cfg mask) s none (Parses cfg .start ns (code :: more) size printed) := by
  refine item_pass_at h.state_eq ?_
  obtain ⟨cells, hcells, hs⟩ := h
  rw [haction]
  refine .bind (.of_ok rfl (.bind ((hs.control hin hcode).mono ?_)))
  intro s₁ h₁
  rw [transit, hnext, hfallback]
  refine .bind (h₁.set_state.mono ?_)
  intro s₂ h₂
  exact .of_ok rfl ⟨cells, hcells, h₂.reads⟩

/-- A state that returns an item without a text. -/
theorem pass_return {op : STMAction} {kind : ElementType}
    (h : Parses cfg .start state (code :: more) size printed s) (hascii : code.toNat < 128)
    (haction : (statemachine state).action = some (op, kind)) (hdef : tokenDefs op = none)
    (hstr : stringDefs op = none) (hexit : kind ≠ .exit) (hitem : kind ≠ .none)
    (hnext : (statemachine state).next (classOf code) = some ns) :
    Returns (itemPass cfg mask) s (some kind) (Parses cfg .start ns more size printed) := by
  refine item_pass_at h.state_eq ?_
  rw [haction, act_plain hdef hstr, if_neg hexit]
  have hstep := behind_action_step hin kind h hascii hnext
  rw [whileNone, if_neg hitem] at hstep
  exact .bind (.of_ok rfl hstep)

omit hin in
/-- The end of the document. -/
theorem pass_exit (h : Parses cfg .start .EXIT more size printed s) :
    Returns (itemPass cfg mask) s (some .exit) (Parses cfg .start .EXIT more size printed) :=
  item_pass_at h.state_eq (.bind (.of_ok rfl (.of_ok rfl h)))

omit hin in
theorem xml_ascii : ∀ ch ∈ (text "xml"), ch.toNat < 128 := by simp [text]

omit hin in
/-- A pass that looks at the character of a key word that is expected. -/
theorem expect_pass_at {src : TextScanner} {tok : TokState} {str : List Byte}
    (wanted : Option Byte) {result : Option Bool} {after : XMLScanner → Prop}
    (h : Stands tok state src size printed s)
    (hnext : Returns (match wanted with
      | none => return some true
      | some expected => do
          let ch ← onSrc (TextScanner.ascii cfg.inputCharSet)
          if ch = expected then
            onSrc (TextScanner.skip cfg.inputCharSet)
            setTok fun tok ↦ { tok with pos := tok.pos + 1 }
            return none
          else
            let cc ← onSrc (TextScanner.control cfg.inputCharSet)
            return some (← fail (if cc = .endOfText then .errUnexpectedEndOfText
              else .errSyntaxToken)) : Scan (Option Bool)) s result after)
    (hexpected : str[tok.pos]? = wanted) :
    Returns (expectPass cfg str) s result after := by
  subst hexpected
  rw [← h.tok_eq] at hnext
  exact .bind (.of_ok rfl hnext)

/-- A key word, from a character of it on. -/
theorem expect_loop (front : List Byte) {str cells : List Byte}
    (h : Reads cfg ⟨.parsingKey, front.length, 0, 0, cells, 0⟩ state
      (str.map UInt8.toUInt32 ++ more) size printed s)
    (hcells : cells.length = 16) (hascii : ∀ ch ∈ str, ch.toNat < 128) :
    Returns (loop .endless left (expectPass cfg (front ++ str))) s true
      (Ended cfg state more size printed) := by
  induction str generalizing front s with
  | nil =>
      obtain ⟨src, hahead, hs⟩ := h
      refine .loop_return (expect_shrinks _) (expect_pass_at none hs ?_ ?_)
      · exact .of_ok rfl ⟨_, hcells, src, hahead, hs⟩
      · rw [List.append_nil]
        exact List.getElem?_eq_none (Nat.le_refl _)
  | cons ch str ih =>
      have hchar := hascii ch List.mem_cons_self
      have hbyte : ch.toUInt32.toUInt8 = ch := UInt8.toUInt8_toUInt32 ch
      have hcode : ch.toUInt32.toNat < 128 := by
        rw [UInt8.toNat_toUInt32]
        exact hchar
      obtain ⟨src, hahead, hs⟩ := h
      refine .loop_again (expect_shrinks _) (expect_pass_at (some ch) hs ?_ ?_)
      · refine .bind ((Reads.ascii hin ⟨src, hahead, hs⟩ hcode).mono ?_)
        intro s₁ h₁
        rw [if_pos hbyte]
        refine .bind ((h₁.skip hin hcode).mono ?_)
        intro s₂ h₂
        refine .bind (h₂.set_tok.mono ?_)
        intro s₃ h₃
        have h₄ : Reads cfg ⟨.parsingKey, (front ++ [ch]).length, 0, 0, cells, 0⟩ state
            (str.map UInt8.toUInt32 ++ more) size printed s₃ := by
          rw [List.length_append]
          exact h₃
        have hrest := ih _ h₄ fun other hother ↦ hascii other (List.mem_cons_of_mem ch hother)
        rw [List.append_assoc, List.singleton_append] at hrest
        exact .of_ok rfl hrest
      · simp

/-- A state that expects a key word. -/
theorem pass_key {op : STMAction} {kind : ElementType} {str : List Byte}
    (h : Parses cfg .start state (str.map UInt8.toUInt32 ++ code :: more) size printed s)
    (hchars : ∀ ch ∈ str, ch.toNat < 128) (hascii : code.toNat < 128)
    (haction : (statemachine state).action = some (op, kind)) (hdef : tokenDefs op = none)
    (hstr : stringDefs op = some str)
    (hnext : (statemachine state).next (classOf code) = some ns) :
    Returns (itemPass cfg mask) s none (Parses cfg .start ns more size printed) := by
  refine item_pass_at h.state_eq ?_
  obtain ⟨cells, hcells, src, hahead, hs⟩ := h
  rw [haction, act_key hdef hstr]
  refine .bind (a := .goesOn .none) (.bind (a := true) (.bind (hs.set_tok.mono ?_)))
  intro s₁ h₁
  refine .bind ((expect_loop hin [] ⟨src, hahead, h₁⟩ hcells hchars).mono ?_)
  rintro s₂ ⟨tok, hcells', h₂⟩
  refine .bind (h₂.set_tok.mono ?_)
  intro s₃ h₃
  refine .of_ok rfl ?_
  exact .of_ok rfl (behind_action_step hin .none ⟨tok.buf, hcells', h₃⟩ hascii hnext)

variable (hout : IsCharSet cfg.outputCharSet boundOut)

include hout

/-- Behind a token, its end is printed, and the character that ended it is passed. -/
theorem token_end_step {kind : ElementType} (hitem : kind ≠ .none) (hascii : code.toNat < 128)
    (hnext : (statemachine state).next (classOf code) = some ns) (hroom : printed.length + 8 ≤ size)
    (h : Stops cfg state code more size printed s) :
    Returns (tokenEnd cfg kind true >>= behindAction cfg (statemachine state)) s (some kind)
      (Parses cfg .start ns more size printed) := by
  obtain ⟨cells, hcells, hs⟩ := h
  obtain ⟨nn, hnn, hprint⟩ := hs.print_zero hout hroom
  refine .bind (a := .goesOn kind) (.bind (hprint.mono ?_))
  intro s₁ h₁
  rw [if_neg hnn]
  refine .of_ok rfl ?_
  have hstep := behind_action_step hin kind ⟨cells, hcells, h₁.reads⟩ hascii hnext
  rw [whileNone, if_neg hitem] at hstep
  exact hstep

/-- A state that reads a token, or passes over it. -/
theorem pass_token {op : STMAction} {kind : ElementType} {isTok : IsTokenCharMap}
    {text : List Glyph}
    (h : Parses cfg .start state (text.flatMap Glyph.chars ++ code :: more) size [] s)
    (haction : (statemachine state).action = some (op, kind)) (hdef : tokenDefs op = some isTok)
    (htext : ∀ glyph ∈ text, glyph.Fine cfg boundIn boundOut isTok) (hascii : code.toNat < 128)
    (hclass : isTok (classOf code) = false) (hamp : classOf code ≠ .amp)
    (hnext : (statemachine state).next (classOf code) = some ns)
    (hroom : 8 * (text.flatMap (Glyph.codes cfg)).length + 8 ≤ size) :
    Returns (itemPass cfg mask) s (some kind) (Parses cfg .start ns more size
      (cfg.outputCharSet.encode (shown mask kind (text.flatMap (Glyph.codes cfg))))) := by
  refine item_pass_at h.state_eq ?_
  have hitem := token_item haction hdef
  have hany := token_defs_any hdef
  have hstop := Nat.lt_of_lt_of_le hascii (ascii_coded hin)
  rw [haction, shown]
  by_cases hmask : inMask mask kind = true
  · rw [if_pos hmask, act_read hdef hmask, bind_assoc]
    refine .bind ((parse_token_text hin hout (token_defs_amp hdef) hany text htext hstop hclass
      hamp h (by omega)).mono ?_)
    intro s₁ h₁
    have hprinted := encode_length hout (text.flatMap (Glyph.codes cfg)) ?_
    · exact token_end_step hin hout hitem hascii hnext (by omega) h₁
    · intro other hother
      obtain ⟨glyph, hglyph, hcode⟩ := List.mem_flatMap.mp hother
      exact fine_codes_lt hout (htext glyph hglyph) other hcode
  · obtain ⟨cells, hcells, hs⟩ := h
    rw [if_neg hmask, act_pass_over hdef hmask, bind_assoc]
    refine .bind ((skip_token_text hin hany (token_defs_undef hdef) ?_ hstop hclass hamp
      hs).mono ?_)
    · intro other hother
      obtain ⟨glyph, hglyph, hcode⟩ := List.mem_flatMap.mp hother
      exact glyph_skipped hin hany (htext glyph hglyph) other hcode
    · intro s₁ h₁
      have hroomy : ([] : List Byte).length + 8 ≤ size := by
        rw [List.length_nil]
        omega
      exact token_end_step hin hout hitem hascii hnext hroomy ⟨cells, hcells, h₁⟩

end Passes

end XMLScanner

end Smerp.Textwolf
