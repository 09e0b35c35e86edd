import Smerp.Textwolf.Resumption

/-!
# Calls of `nextItem` across blocks

When the iterator throws at the end of a block, the caller provides the next one and asks for the
item once more. The items are the same wherever the document is cut, but for one place: when a block
ends right behind the key words `xml` and `CDATA`, the scanner expects the key word once more.
-/

namespace Smerp.Textwolf

open Lib Lib.Interruptible

namespace XMLScanner

variable {cfg : Setup} {α β : Type} {m : Scan α} {f : α → Scan β} {s s' : XMLScanner}

/-! ## The end of a token -/

/-- No token is parsed, and no character is saved. -/
abbrev Between (s : XMLScanner) : Prop := Parsing .start s

/-- The class of the character that is loaded. -/
def classLoaded (cfg : Setup) (s : XMLScanner) : ControlCharacter :=
  controlCharMap (cfg.inputCharSet.achar s.src.buf)

/-- The character that ends a token is loaded. -/
structure EndsToken (cfg : Setup) (isTok : IsTokenCharMap) (s : XMLScanner) : Prop where
  loaded : TextScanner.Loaded cfg.inputCharSet s.src
  no_char : isTok (classLoaded cfg s) = false
  no_amp : classLoaded cfg s ≠ .amp

/-- Behind a token its end is loaded. -/
theorem token_pass_returns (cfg : Setup) (isTok : IsTokenCharMap) (s : XMLScanner) :
    Ensures (tokenPass cfg isTok) s
      (fun result s' ↦ result = some true → Between s' ∧ EndsToken cfg isTok s')
      fun _ _ ↦ True := by
  cases hcontrol : onSrc (TextScanner.control cfg.inputCharSet) s with
  | error e s₁ => exact .of_error (bind_error hcontrol) trivial
  | ok ch s₁ =>
      have hread := (of_on_src_ok hcontrol).1
      have hloaded := (TextScanner.classify_keeps hread).1
      have hclass : ch = classLoaded cfg s₁ := (TextScanner.classify_again controlCharMap hread).1
      refine .bind (.of_ok hcontrol ?_)
      by_cases htok : isTok ch = true
      · rw [if_pos htok]
        refine .bind ((KeepsTok.on_src _ s₁).mono ?_ fun _ _ h ↦ h)
        intro code s₂ _
        refine .bind ((push_keeps cfg code s₂).mono ?_ fun _ _ h ↦ h)
        intro pushed s₃ _
        cases pushed with
        | true =>
            refine .bind ((KeepsTok.on_src _ s₃).mono ?_ fun _ _ h ↦ h)
            intro _ s₄ _
            exact .of_ok rfl fun htrue ↦ nomatch htrue
        | false =>
            refine .bind ((KeepsTok.on_src _ s₃).mono ?_ fun _ _ h ↦ h)
            intro _ s₄ _
            exact .of_ok rfl fun htrue ↦ nomatch htrue
      · rw [if_neg htok]
        by_cases hamp : ch = .amp
        · rw [if_pos hamp]
          refine .bind ((KeepsTok.on_src _ s₁).mono ?_ fun _ _ h ↦ h)
          intro _ s₂ _
          cases hparse : parseEntity cfg s₂ with
          | error e s₃ => exact .of_error (bind_error hparse) trivial
          | ok parsed s₃ =>
              refine .bind (.of_ok hparse ?_)
              cases parsed with
              | true => exact .of_ok rfl fun htrue ↦ nomatch htrue
              | false => exact .of_ok rfl fun htrue ↦ nomatch htrue
        · rw [if_neg hamp]
          refine .of_ok rfl fun _ ↦ ⟨⟨rfl, rfl⟩, hloaded, ?_, ?_⟩
          · show isTok (classLoaded cfg s₁) = false
            rw [← hclass]
            exact Bool.eq_false_iff.mpr htok
          · show classLoaded cfg s₁ ≠ .amp
            rw [← hclass]
            exact hamp

/-- What a token that is read leaves behind. -/
def TokenRead (cfg : Setup) (isTok : IsTokenCharMap) (rt : Bool) (s : XMLScanner) : Prop :=
  rt = true → Between s ∧ EndsToken cfg isTok s

theorem token_loop_returns (cfg : Setup) (isTok : IsTokenCharMap) (s : XMLScanner) :
    Ensures (tokenLoop cfg isTok) s (TokenRead cfg isTok) fun _ _ ↦ True := by
  refine .loop (token_shrinks isTok) (fun _ ↦ True) ?_ trivial
  intro t _
  refine (token_pass_returns cfg isTok t).mono ?_ fun _ _ h ↦ h
  intro result t' hreturns
  refine ⟨?_, fun _ ↦ trivial⟩
  rintro rt rfl rfl
  exact hreturns rfl

theorem parse_token_returns (cfg : Setup) (isTok : IsTokenCharMap) (s : XMLScanner) :
    Ensures (parseToken cfg isTok) s (TokenRead cfg isTok) fun _ _ ↦ True := by
  refine .bind (.of_ok rfl ?_)
  by_cases hstart : s.tokstate.id = .start
  · rw [if_pos hstart]
    exact .bind (.of_ok rfl (token_loop_returns cfg isTok _))
  · rw [if_neg hstart]
    by_cases htoken : s.tokstate.id ≠ .parsingToken
    · rw [if_pos htoken]
      cases hrecover : parseTokenRecover cfg s with
      | error e s₁ => exact .of_error (bind_error hrecover) trivial
      | ok recovered s₁ =>
          refine .bind (.of_ok hrecover ?_)
          cases recovered with
          | true => exact token_loop_returns cfg isTok s₁
          | false => exact .of_ok rfl fun htrue ↦ nomatch htrue
    · rw [if_neg htoken]
      exact token_loop_returns cfg isTok s

/-! ## Tokens that are passed over -/

/-- A function that changes the reader only. -/
def ReadsOnly (m : Scan α) : Prop := ∀ s, Ensures m s (fun _ s' ↦ OnlyRead s s') fun _ _ ↦ True

theorem OnlyRead.trans {s'' : XMLScanner} (h : OnlyRead s s') (h' : OnlyRead s' s'') :
    OnlyRead s s'' := by
  rw [OnlyRead, h', h]

theorem ReadsOnly.pure (a : α) : ReadsOnly (pure a : Scan α) := fun _ ↦ .of_ok rfl rfl

theorem ReadsOnly.bind (hm : ReadsOnly m) (hf : ∀ a, ReadsOnly (f a)) : ReadsOnly (m >>= f) := by
  intro s
  refine .bind ((hm s).mono ?_ fun _ _ h ↦ h)
  intro a s' honly
  exact (hf a s').mono (fun _ _ hmore ↦ honly.trans hmore) fun _ _ h ↦ h

theorem ReadsOnly.ite {m' : Scan α} {c : Prop} [Decidable c] (hm : ReadsOnly m)
    (hm' : ReadsOnly m') : ReadsOnly (if c then m else m') := by
  split_ifs
  · exact hm
  · exact hm'

theorem ReadsOnly.on_src (read : Read α) : ReadsOnly (onSrc read) := by
  intro s
  cases hstep : onSrc read s with
  | ok a s' => exact .of_ok hstep (of_on_src_ok hstep).2
  | error e s' => exact .of_error hstep trivial

theorem ReadsOnly.skip_pass (isTok : IsTokenCharMap) : ReadsOnly (skipPass cfg isTok) := by
  refine .bind (.on_src _) ?_
  intro ch
  exact .ite (.bind (.on_src _) fun _ ↦ .pure _) (.bind (.on_src _) fun _ ↦ .pure _)

/-- `skipToken` starts again where it is interrupted. -/
theorem resumes_skip_token {isTok : IsTokenCharMap} (hany : isTok .any = true) :
    Resumes feed .endOfInput (OnlyRead s) (skipToken cfg isTok) (skipToken cfg isTok) s := by
  refine .loop_self (skip_shrinks hany) (Local.skip_pass isTok).orderly.extends_input (OnlyRead s)
    ?_ ?_ rfl
  · intro t t' honly hround
    exact honly.trans ((ReadsOnly.skip_pass isTok t).ok hround)
  · intro t honly
    exact (resumes_skip_pass isTok t).mono fun t' hmore ↦ honly.trans hmore

/-- Behind a token that is passed over its end is loaded. -/
theorem skip_token_returns {isTok : IsTokenCharMap} (hany : isTok .any = true) (s : XMLScanner) :
    Ensures (skipToken cfg isTok) s
      (fun _ s' ↦ OnlyRead s s' ∧ EndsToken cfg isTok s') fun _ _ ↦ True := by
  refine .loop (skip_shrinks hany) (OnlyRead s) ?_ rfl
  intro t honly
  cases hcontrol : onSrc (TextScanner.control cfg.inputCharSet) t with
  | error e t₁ => exact .of_error (bind_error hcontrol) trivial
  | ok ch t₁ =>
      obtain ⟨hread, honly₁⟩ := of_on_src_ok hcontrol
      refine .bind (.of_ok hcontrol ?_)
      by_cases htok : isTok ch = true ∨ ch = .amp
      · rw [if_pos htok]
        refine .bind ((ReadsOnly.on_src _ t₁).mono ?_ fun _ _ h ↦ h)
        intro _ t₂ honly₂
        refine .of_ok rfl ⟨fun _ hnone ↦ (nomatch hnone), fun _ ↦ ?_⟩
        exact honly.trans (OnlyRead.trans honly₁ honly₂)
      · rw [if_neg htok]
        have hloaded := (TextScanner.classify_keeps hread).1
        have hclass : ch = classLoaded cfg t₁ := (TextScanner.classify_again controlCharMap hread).1
        have hends : EndsToken cfg isTok t₁ := by
          obtain ⟨hchar, hamp⟩ := not_or.mp htok
          exact ⟨hloaded, hclass ▸ Bool.eq_false_iff.mpr hchar, hclass ▸ hamp⟩
        refine .bind (.of_ok (on_src_ok (TextScanner.classify_loaded _ hloaded)) ?_)
        refine .of_ok rfl ⟨fun _ _ ↦ ⟨?_, hends.loaded, hends.no_char, hends.no_amp⟩, fun _ ↦ ?_⟩
        · exact honly.trans (OnlyRead.trans honly₁ rfl)
        · exact honly.trans (OnlyRead.trans honly₁ rfl)

/-! ## Key words -/

/-- The output is the same. -/
def SameOutput (s s' : XMLScanner) : Prop :=
  s'.outputBuf = s.outputBuf ∧ s'.outputSize = s.outputSize

theorem SameOutput.trans {s'' : XMLScanner} (h : SameOutput s s') (h' : SameOutput s' s'') :
    SameOutput s s'' := ⟨h'.1.trans h.1, h'.2.trans h.2⟩

theorem OnlyRead.same_output (h : OnlyRead s s') : SameOutput s s' := by
  rw [h]
  exact ⟨rfl, rfl⟩

/-- A function that does not print, whether it returns or throws. -/
def Mute (m : Scan α) : Prop :=
  ∀ s, Ensures m s (fun _ s' ↦ SameOutput s s') fun _ s' ↦ SameOutput s s'

theorem Mute.pure (a : α) : Mute (pure a : Scan α) := fun _ ↦ .of_ok rfl ⟨rfl, rfl⟩

theorem Mute.bind (hm : Mute m) (hf : ∀ a, Mute (f a)) : Mute (m >>= f) := by
  intro s
  refine .bind ((hm s).mono ?_ fun _ _ h ↦ h)
  intro a s' hsame
  exact (hf a s').mono (fun _ _ hmore ↦ hsame.trans hmore) fun _ _ hmore ↦ hsame.trans hmore

theorem Mute.ite {m' : Scan α} {c : Prop} [Decidable c] (hm : Mute m) (hm' : Mute m') :
    Mute (if c then m else m') := by
  split_ifs
  · exact hm
  · exact hm'

theorem Mute.look (view : XMLScanner → α) : Mute (look view) := fun _ ↦ .of_ok rfl ⟨rfl, rfl⟩

theorem Mute.set_tok (change : TokState → TokState) : Mute (setTok change) :=
  fun _ ↦ .of_ok rfl ⟨rfl, rfl⟩

theorem Mute.fail (e : Error) : Mute (fail e) :=
  .bind (fun _ ↦ .of_ok rfl ⟨rfl, rfl⟩) fun _ ↦ .pure _

theorem Mute.on_src (read : Read α) : Mute (onSrc read) := by
  intro s
  cases hstep : onSrc read s with
  | ok a s' => exact .of_ok hstep (OnlyRead.same_output (of_on_src_ok hstep).2)
  | error e s' => exact .of_error hstep (OnlyRead.same_output (of_on_src_error hstep).2)

theorem Mute.loop {body : Scan (Option α)} (hshrinks : Shrinks left body) (hbody : Mute body) :
    Mute (loop .endless left body) := by
  intro s
  refine .loop hshrinks (SameOutput s) ?_ ⟨rfl, rfl⟩
  intro t hsame
  refine (hbody t).mono ?_ fun _ _ hmore ↦ hsame.trans hmore
  intro result t' hmore
  exact ⟨fun _ _ ↦ hsame.trans hmore, fun _ ↦ hsame.trans hmore⟩

theorem Mute.expect_str (str : List Byte) : Mute (expectStr cfg str) := by
  refine .bind (.set_tok _) ?_
  intro _
  refine .bind (.loop (expect_shrinks str) ?_) fun _ ↦ .bind (.set_tok _) fun _ ↦ .pure _
  refine .bind (.look _) ?_
  intro pos
  cases str[pos]? with
  | none => exact .pure _
  | some expected =>
      refine .bind (.on_src _) ?_
      intro ch
      refine .ite (.bind (.on_src _) fun _ ↦ .bind (.set_tok _) fun _ ↦ .pure _) ?_
      exact .bind (.on_src _) fun cc ↦ .bind (.fail _) fun _ ↦ .pure _

/-- `expectStr` starts again where it is interrupted, behind the characters that were as
expected. -/
theorem resumes_expect_str (str : List Byte) (hsaved : s.tokstate.curchrSaved = 0) :
    Resumes feed .endOfInput (Parsing .parsingKey) (expectStr cfg str) (expectStr cfg str) s := by
  let parse : Scan Bool := do
    setTok fun tok ↦ { tok with id := .parsingKey }
    loop .endless left (expectPass cfg str)
  have hparse : Resumes feed .endOfInput (Parsing .parsingKey) parse parse s :=
    resumes_parsing (expect_shrinks str) (.expect_pass str) (resumes_expect_pass str)
      (rounds_expect_pass str) hsaved
  have hlocal : Local cfg parse :=
    .bind (.set_tok _) fun _ ↦ .loop (expect_shrinks str) (.expect_pass str)
  let rest (rt : Bool) : Scan Bool := do
    setTok fun tok ↦ tok.init .start
    return rt
  have hrest : Resumes feed .endOfInput (Parsing .parsingKey) (parse >>= rest) (parse >>= rest) s :=
    .bind (hlocal.at_state s).extends_input hparse (fun _ h ↦ h) (fun _ _ _ ↦ rfl)
      fun _ _ _ ↦ resumes_last (.bind (.set_tok _) fun _ ↦ .pure _)
  exact hrest

/-- Behind a key word no token is parsed. -/
theorem expect_str_returns (str : List Byte) {rt : Bool} (h : expectStr cfg str s = .ok rt s') :
    Between s' ∧ SameOutput s s' := by
  refine ⟨?_, (Mute.expect_str str s).ok h⟩
  let parse : Scan Bool := do
    setTok fun tok ↦ { tok with id := .parsingKey }
    loop .endless left (expectPass cfg str)
  let rest (rt : Bool) : Scan Bool := do
    setTok fun tok ↦ tok.init .start
    return rt
  replace h : (parse >>= rest) s = .ok rt s' := h
  cases hparse : parse s with
  | error e t =>
      rw [bind_error hparse] at h
      exact nomatch h
  | ok result t =>
      rw [bind_ok hparse] at h
      exact (EStateM.Result.ok.inj h).2 ▸ ⟨rfl, rfl⟩

/-! ## Where a call is interrupted -/

/-- Nothing is printed of an item. -/
def Blank (s : XMLScanner) : Prop :=
  s.outputSize = 0 ∧ 0 < s.outputBuf.length ∧ Block.store s.outputBuf 0 [0] = s.outputBuf

theorem SameOutput.blank (h : SameOutput s s') (hblank : Blank s) : Blank s' := by
  rw [Blank, h.1, h.2]
  exact hblank

/-- Beginning an item once more. -/
theorem begin_blank (h : s.tokstate.id = .start → Blank s) : begin s = .ok ⟨⟩ s := by
  rw [begin, bind_look]
  by_cases hid : s.tokstate.id = .start
  · obtain ⟨hsize, hroom, hcell⟩ := h hid
    have hzero : { s with outputSize := 0 } = s := by rw [← hsize]
    rw [if_pos hid, bind_alter, hzero]
    have hfits : s.outputSize.toNat + [(0 : Byte)].length ≤ s.outputBuf.length := by
      rw [hsize]
      exact hroom
    have hwrite := write_ok hfits
    refine hwrite.trans ?_
    rw [hsize, show Block.store s.outputBuf (0 : UInt32).toNat [0] = s.outputBuf from hcell, hzero]
  · rw [if_neg hid]
    rfl

/-- The states in which a key word is expected. -/
def expectsKey (state : STMState) : Bool :=
  match (statemachine state).action with
  | some (op, _) => (stringDefs op).isSome
  | none => false

/-- The scanner is interrupted behind a key word. -/
def behindKey (s : XMLScanner) : Bool := s.tokstate.id = .start ∧ expectsKey s.state

/-- Where a call that asks for an item is interrupted. -/
inductive Midway (mask : UInt16) (s : XMLScanner) : Prop where
  | begun (hbetween : Between s) (hblank : Blank s)
  | key (hkey : Parsing .parsingKey s) (hblank : Blank s) (hexpects : expectsKey s.state = true)
  | token (hmid : MidToken s) {op : STMAction} {arg : ElementType} {isTok : IsTokenCharMap}
      (haction : (statemachine s.state).action = some (op, arg))
      (hdef : tokenDefs op = some isTok) (hmask : inMask mask arg = true)

theorem Midway.feed {mask : UInt16} (h : Midway mask s) {more : List Byte} :
    Midway mask (s.feed more) := by
  cases h with
  | begun hbetween hblank => exact .begun hbetween hblank
  | key hkey hblank hexpects => exact .key hkey hblank hexpects
  | token hmid haction hdef hmask => exact .token hmid haction hdef hmask

/-- A state that reads a token does not expect a key word. -/
theorem expects_key_token {state : STMState} {op : STMAction} {arg : ElementType}
    {isTok : IsTokenCharMap} (haction : (statemachine state).action = some (op, arg))
    (hdef : tokenDefs op = some isTok) : expectsKey state = false := by
  rw [expectsKey, haction]
  cases op with
  | returnToken | returnIdentifier | returnSQString | returnDQString => rfl
  | «return» | expectIdentifierXML | expectIdentifierCDATA | returnEOF => exact nomatch hdef

/-- A state without a token or a key word. -/
theorem expects_key_none {state : STMState} {op : STMAction} {arg : ElementType}
    (haction : (statemachine state).action = some (op, arg)) (hdef : stringDefs op = none) :
    expectsKey state = false := by
  rw [expectsKey, haction]
  show (stringDefs op).isSome = false
  rw [hdef]
  rfl

theorem not_behind_key (h : expectsKey s.state = false) : behindKey s = false := by
  rw [behindKey, h]
  simp

section Actions

variable {mask : UInt16} {op : STMAction} {arg : ElementType}

theorem act_read {isTok : IsTokenCharMap} (hdef : tokenDefs op = some isTok)
    (hmask : inMask mask arg = true) :
    act cfg mask (some (op, arg)) = parseToken cfg isTok >>= tokenEnd cfg arg := by
  rw [act, hdef]
  show (if inMask mask arg = true then _ else _) >>= _ = _
  rw [if_pos hmask]

theorem act_pass_over {isTok : IsTokenCharMap} (hdef : tokenDefs op = some isTok)
    (hmask : inMask mask arg ≠ true) :
    act cfg mask (some (op, arg)) = skipToken cfg isTok >>= tokenEnd cfg arg := by
  rw [act, hdef]
  show (if inMask mask arg = true then _ else _) >>= _ = _
  rw [if_neg hmask]

theorem act_key {str : List Byte} (hdef : tokenDefs op = none)
    (hstr : stringDefs op = some str) :
    act cfg mask (some (op, arg)) = (do
      let rt ← expectStr cfg str
      return if rt then .goesOn .none else .returns .errorOccurred) := by
  rw [act, hdef]
  dsimp only
  rw [hstr]

theorem act_plain (hdef : tokenDefs op = none) (hstr : stringDefs op = none) :
    act cfg mask (some (op, arg)) = pure (if arg = .exit then .returns .exit else .goesOn arg) := by
  rw [act, hdef]
  dsimp only
  rw [hstr]

end Actions

theorem Silent.token_end (arg : ElementType) (rt : Bool) : Silent (tokenEnd cfg arg rt) :=
  .ite (.bind (.print cfg 0) fun _ ↦ .pure _) (.pure _)

/-- The action of a state starts again where it is interrupted. -/
theorem resumes_act {mask : UInt16} (hmid : Midway mask s) :
    Resumes feed .endOfInput
      (fun s' ↦ (Midway mask s' ∧ behindKey s' = false) ∧ s'.state = s.state)
      (act cfg mask (statemachine s.state).action)
      (act cfg mask (statemachine s.state).action) s := by
  cases haction : (statemachine s.state).action with
  | none => exact resumes_last (.pure _)
  | some opt =>
      obtain ⟨op, arg⟩ := opt
      cases hdef : tokenDefs op with
      | some isTok =>
          have hexpects := expects_key_token haction hdef
          have hany := token_defs_any hdef
          by_cases hmask : inMask mask arg = true
          · have hs : (s.tokstate.id = .start ∧ s.tokstate.curchrSaved = 0) ∨ MidToken s := by
              cases hmid with
              | begun hbetween _ => exact .inl hbetween
              | key _ _ hkey => exact absurd (hkey.symm.trans hexpects) (by decide)
              | token hmid _ _ _ => exact .inr hmid
            rw [act_read hdef hmask]
            refine .mono (.bind ((Local.parse_token isTok).at_state s).extends_input
              ((resumes_parse_token hs).also fun s' hstop ↦
                ((Local.parse_token isTok).at_state s).stays.error hstop) (fun _ h ↦ h)
              (fun _ _ _ ↦ rfl) fun rt s' _ ↦ resumes_last (.token_end arg rt)) ?_
            rintro s' ⟨hmid', hstate⟩
            refine ⟨⟨.token hmid' (hstate ▸ haction) hdef hmask, ?_⟩, hstate⟩
            exact not_behind_key (hstate ▸ hexpects)
          · rw [act_pass_over hdef hmask]
            refine .mono (.bind ((Local.skip_token hany).at_state s).extends_input
              (resumes_skip_token hany) (fun _ h ↦ h)
              (fun _ _ _ ↦ rfl) fun rt s' _ ↦ resumes_last (.token_end arg rt)) ?_
            intro s' honly
            have hstate : s'.state = s.state := by rw [honly]
            refine ⟨⟨?_, not_behind_key (hstate ▸ hexpects)⟩, hstate⟩
            cases hmid with
            | begun hbetween hblank =>
                exact .begun (honly.same_tok.parsing hbetween) (honly.same_output.blank hblank)
            | key _ _ hkey => exact absurd (hkey.symm.trans hexpects) (by decide)
            | token _ haction' _ hmask' =>
                obtain ⟨-, rfl⟩ := Prod.mk.inj (Option.some.inj (haction'.symm.trans haction))
                exact absurd hmask' hmask
      | none =>
          cases hstr : stringDefs op with
          | none =>
              rw [act_plain hdef hstr]
              exact resumes_last (.pure _)
          | some str =>
              have hexpects : expectsKey s.state = true := by
                rw [expectsKey, haction]
                show (stringDefs op).isSome = true
                rw [hstr]
                rfl
              have hs : s.tokstate.curchrSaved = 0 ∧ Blank s := by
                cases hmid with
                | begun hbetween hblank => exact ⟨hbetween.2, hblank⟩
                | key hkey hblank _ => exact ⟨hkey.2, hblank⟩
                | token _ haction' hdef' _ =>
                    obtain ⟨rfl, -⟩ := Prod.mk.inj (Option.some.inj (haction'.symm.trans haction))
                    exact nomatch hdef.symm.trans hdef'
              rw [act_key hdef hstr]
              refine .mono (.bind ((Local.expect_str str).at_state s).extends_input
                ((resumes_expect_str str hs.1).also fun s' hstop ↦
                  And.intro (((Local.expect_str str).at_state s).stays.error hstop)
                    ((Mute.expect_str str s).error hstop)) (fun _ h ↦ h)
                (fun _ _ _ ↦ rfl) fun rt s' _ ↦ resumes_last (.pure _)) ?_
              rintro s' ⟨hkey, hstate, hsame⟩
              refine ⟨⟨.key hkey (hsame.blank hs.2) (hstate ▸ hexpects), ?_⟩, hstate⟩
              rw [behindKey, hkey.1]
              rfl

/-- What the action of a state comes to, and the scanner behind it. -/
inductive ActEnd (cfg : Setup) (mask : UInt16) (s : XMLScanner) : Acted → XMLScanner → Prop where
  | error (s' : XMLScanner) : ActEnd cfg mask s (.returns .errorOccurred) s'
  | exit (hbetween : Between s) : ActEnd cfg mask s (.returns .exit) s
  | token {rt : ElementType} {s' : XMLScanner} (hbetween : Between s')
      (hloaded : TextScanner.Loaded cfg.inputCharSet s'.src) (hitem : rt ≠ .none) :
      ActEnd cfg mask s (.goesOn rt) s'
  | key {s' : XMLScanner} (hbetween : Between s') (hblank : Blank s')
      (hexpects : expectsKey s.state = true) : ActEnd cfg mask s (.goesOn .none) s'
  | still {rt : ElementType} (hbetween : Between s) (hblank : Blank s)
      (hexpects : expectsKey s.state = false)
      (hact : act cfg mask (statemachine s.state).action = pure (.goesOn rt)) :
      ActEnd cfg mask s (.goesOn rt) s

/-- A state that reads a token has an item for it. -/
theorem token_item {state : STMState} {op : STMAction} {arg : ElementType}
    {isTok : IsTokenCharMap} (haction : (statemachine state).action = some (op, arg))
    (hdef : tokenDefs op = some isTok) : arg ≠ .none := by
  have hall : ((statemachine state).action.all fun opt ↦
      (tokenDefs opt.1).isNone || opt.2 ≠ .none) = true := by cases state <;> rfl
  rw [haction] at hall
  have hitem : ((tokenDefs op).isNone || decide (arg ≠ .none)) = true := hall
  rw [hdef] at hitem
  simpa using hitem

/-- Behind a token its terminating zero is printed. -/
theorem token_end_returns {mask : UInt16} {t : XMLScanner} {arg : ElementType} {rt : Bool}
    {isTok : IsTokenCharMap} (hitem : arg ≠ .none) (hread : TokenRead cfg isTok rt s) :
    Ensures (tokenEnd cfg arg rt) s (ActEnd cfg mask t) fun _ _ ↦ True := by
  cases rt with
  | false => exact .of_ok rfl (.error s)
  | true =>
      obtain ⟨hbetween, hends⟩ := hread rfl
      have hend {nn : UInt32} {s' : XMLScanner} (hprint : print cfg 0 s = .ok nn s')
          (hkept : nn ≠ 0 → Between s' ∧ TextScanner.Loaded cfg.inputCharSet s'.src) :
          Ensures (tokenEnd cfg arg true) s (ActEnd cfg mask t) fun _ _ ↦ True := by
        refine .bind (.of_ok hprint (.of_ok rfl ?_))
        by_cases hzero : nn = 0
        · rw [if_pos hzero]
          exact .error s'
        · rw [if_neg hzero]
          exact .token (hkept hzero).1 (hkept hzero).2 hitem
      rcases print_cases cfg 0 s with ⟨-, ⟨-, hprint⟩ | ⟨-, hprint⟩⟩ | ⟨-, hprint⟩
      · exact hend hprint fun _ ↦ ⟨hbetween, hends.loaded⟩
      · exact hend hprint fun hzero ↦ absurd rfl hzero
      · exact .bind (.of_error hprint trivial)

/-- What the action of a state comes to. -/
theorem act_returns {mask : UInt16} (hmid : Midway mask s) :
    Ensures (act cfg mask (statemachine s.state).action) s (ActEnd cfg mask s) fun _ _ ↦ True := by
  have hstill {rt : ElementType} (hexpects : expectsKey s.state = false)
      (hnone : ∀ op arg isTok, (statemachine s.state).action = some (op, arg) →
        tokenDefs op ≠ some isTok)
      (hact : act cfg mask (statemachine s.state).action = pure (.goesOn rt)) :
      ActEnd cfg mask s (.goesOn rt) s := by
    cases hmid with
    | begun hbetween hblank => exact .still hbetween hblank hexpects hact
    | key _ _ hkey => exact absurd (hkey.symm.trans hexpects) (by decide)
    | token _ haction hdef _ => exact absurd hdef (hnone _ _ _ haction)
  cases haction : (statemachine s.state).action with
  | none =>
      refine .of_ok rfl (hstill ?_ ?_ ?_)
      · rw [expectsKey, haction]
      · intro op arg isTok hother
        exact nomatch haction.symm.trans hother
      · rw [haction]
        rfl
  | some opt =>
      obtain ⟨op, arg⟩ := opt
      cases hdef : tokenDefs op with
      | some isTok =>
          have hitem := token_item haction hdef
          by_cases hmask : inMask mask arg = true
          · rw [act_read hdef hmask]
            refine .bind ((parse_token_returns cfg isTok s).mono ?_ fun _ _ h ↦ h)
            intro rt s' hread
            exact token_end_returns hitem hread
          · rw [act_pass_over hdef hmask]
            refine .bind ((skip_token_returns (token_defs_any hdef) s).mono ?_ fun _ _ h ↦ h)
            rintro rt s' ⟨honly, hends⟩
            refine token_end_returns hitem fun _ ↦ ⟨?_, hends⟩
            cases hmid with
            | begun hbetween _ => exact honly.same_tok.parsing hbetween
            | key _ _ hkey =>
                exact absurd (hkey.symm.trans (expects_key_token haction hdef)) (by decide)
            | token _ haction' _ hmask' =>
                obtain ⟨-, rfl⟩ := Prod.mk.inj (Option.some.inj (haction'.symm.trans haction))
                exact absurd hmask' hmask
      | none =>
          cases hstr : stringDefs op with
          | some str =>
              have hexpects : expectsKey s.state = true := by
                rw [expectsKey, haction]
                show (stringDefs op).isSome = true
                rw [hstr]
                rfl
              have hblank : Blank s := by
                cases hmid with
                | begun _ hblank => exact hblank
                | key _ hblank _ => exact hblank
                | token _ haction' hdef' _ =>
                    obtain ⟨rfl, -⟩ := Prod.mk.inj (Option.some.inj (haction'.symm.trans haction))
                    exact nomatch hdef.symm.trans hdef'
              rw [act_key hdef hstr]
              cases hexpect : expectStr cfg str s with
              | error e s' => exact .of_error (bind_error hexpect) trivial
              | ok rt s' =>
                  obtain ⟨hbetween, hsame⟩ := expect_str_returns str hexpect
                  refine .bind (.of_ok hexpect ?_)
                  cases rt with
                  | true => exact .of_ok rfl (.key hbetween (hsame.blank hblank) hexpects)
                  | false => exact .of_ok rfl (.error s')
          | none =>
              have hnone (op' : STMAction) (arg' : ElementType) (isTok : IsTokenCharMap)
                  (haction' : (statemachine s.state).action = some (op', arg')) :
                  tokenDefs op' ≠ some isTok := by
                obtain ⟨rfl, -⟩ := Prod.mk.inj (Option.some.inj (haction'.symm.trans haction))
                rw [hdef]
                exact (Option.some_ne_none isTok).symm
              have hexpects := expects_key_none haction hstr
              rw [act_plain hdef hstr]
              by_cases hexit : arg = .exit
              · rw [if_pos hexit]
                refine .of_ok rfl ?_
                cases hmid with
                | begun hbetween _ => exact .exit hbetween
                | key _ _ hkey => exact absurd (hkey.symm.trans hexpects) (by decide)
                | token _ haction' hdef' _ => exact absurd hdef' (hnone _ _ _ haction')
              · rw [if_neg hexit]
                refine .of_ok rfl (hstill hexpects hnone ?_)
                rw [haction, act_plain hdef hstr, if_neg hexit]

/-! ## Passes of `nextItem` -/

/-- Behind the action the next character is loaded before the state changes. -/
theorem Prompt.transit (sd : Element) (ch : ControlCharacter) (rt : ElementType) :
    Prompt cfg (transit cfg sd ch rt) := by
  rw [XMLScanner.transit]
  cases sd.next ch with
  | some ns => exact .behind (.alter fun _ ↦ rfl) fun _ ↦ .skip fun _ ↦ .pure _
  | none =>
      cases sd.fallbackState with
      | some ns => exact .of_silent (.bind (.alter fun _ ↦ rfl) fun _ ↦ .pure _)
      | none =>
          exact .of_silent (.bind (.print cfg 0) fun _ ↦ .bind (.alter fun _ ↦ rfl) fun _ ↦ .pure _)

theorem Prompt.behind_action (sd : Element) (rt : ElementType) :
    Prompt cfg (behindAction cfg sd (.goesOn rt)) := .classify fun ch ↦ .transit sd ch rt

/-- Behind the action a pass is interrupted in front of the next character only. -/
theorem resumes_behind_action (sd : Element) (rt : ElementType) :
    Resumes feed .endOfInput (OnlyRead s) (behindAction cfg sd (.goesOn rt))
      (behindAction cfg sd (.goesOn rt)) s := resumes_first (fun ch ↦ .transit sd ch rt) s

/-- A pass of the loop of `nextItem` that was interrupted goes on. -/
def itemAgain (cfg : Setup) (mask : UInt16) : Scan (Option ElementType) := do
  if ← look behindKey then
    let sd ← look fun s ↦ statemachine s.state
    behindAction cfg sd (.goesOn .none)
  else itemPass cfg mask

theorem item_again_key {mask : UInt16} (h : behindKey s = true) :
    itemAgain cfg mask s = behindAction cfg (statemachine s.state) (.goesOn .none) s := by
  rw [itemAgain, bind_look, if_pos h, bind_look]

theorem item_again_pass {mask : UInt16} (h : behindKey s = false) :
    itemAgain cfg mask s = itemPass cfg mask s := by
  rw [itemAgain, bind_look, if_neg (by rw [h]; decide)]

theorem item_pass_eq (mask : UInt16) (s : XMLScanner) :
    itemPass cfg mask s = (act cfg mask (statemachine s.state).action >>=
      behindAction cfg (statemachine s.state)) s := rfl

/-- A pass of the loop of `nextItem` goes on where it was interrupted. -/
theorem resumes_item_pass {mask : UInt16} (hmid : Midway mask s) :
    Resumes feed .endOfInput (Midway mask) (itemPass cfg mask) (itemAgain cfg mask) s := by
  have hpass : Resumes feed .endOfInput (Midway mask)
      (act cfg mask (statemachine s.state).action >>= behindAction cfg (statemachine s.state))
      (itemAgain cfg mask) s := by
    refine .bind ((Local.act mask _).at_state s).extends_input (resumes_act hmid)
      (fun _ h ↦ h.1.1) ?_ ?_
    · rintro s' more ⟨⟨-, hkey⟩, hstate⟩
      rw [item_again_pass (s := feed s' more) hkey, item_pass_eq]
      show _ = (act cfg mask (statemachine s'.state).action >>=
        behindAction cfg (statemachine s'.state)) (feed s' more)
      rw [hstate]
    · intro acted s₁ hact
      have hstate := (Local.act mask _).state_eq hact
      cases (act_returns hmid).ok hact with
      | error | exit => exact resumes_last (.pure _)
      | token hbetween hloaded hitem =>
          intro s' hstop
          exact absurd rfl ((Prompt.behind_action (statemachine s.state) _ s₁ hloaded).error hstop)
      | key hbetween hblank hexpects =>
          refine .mono (.restart (resumes_behind_action (statemachine s.state) .none) ?_) ?_
          · intro s' more honly
            have hagain : (feed s' more).state = s.state := by
              rw [honly]
              exact hstate
            have hbetween' : Between (feed s' more) := honly.same_tok.parsing hbetween
            have hkey : behindKey (feed s' more) = true := by
              rw [behindKey, hbetween'.1, hagain, hexpects]
              rfl
            rw [item_again_key hkey, hagain]
          · intro s' honly
            exact .begun (honly.same_tok.parsing hbetween) (honly.same_output.blank hblank)
      | still hbetween hblank hexpects hsame =>
          refine .mono (.restart (resumes_behind_action (statemachine s.state) _) ?_) ?_
          · intro s' more honly
            have hagain : (feed s' more).state = s.state := by
              rw [honly]
              rfl
            have hkey : behindKey (feed s' more) = false := not_behind_key (hagain ▸ hexpects)
            rw [item_again_pass hkey, item_pass_eq, hagain, hsame]
            rfl
          · intro s' honly
            exact .begun (honly.same_tok.parsing hbetween) (honly.same_output.blank hblank)
  intro s' hstop
  obtain ⟨hmid', hgoes⟩ := hpass s' hstop
  exact ⟨hmid', hgoes⟩

/-- Behind a key word nothing is printed. -/
theorem Midway.behind_key {mask : UInt16} (hmid : Midway mask s) (hkey : behindKey s = true) :
    Between s ∧ Blank s := by
  have hid : s.tokstate.id = .start := (of_decide_eq_true hkey).1
  cases hmid with
  | begun hbetween hblank => exact ⟨hbetween, hblank⟩
  | key hparsing _ _ => exact nomatch hid.symm.trans hparsing.1
  | token hmid _ _ _ => exact absurd hid hmid.1.1

/-- A pass that goes on, interrupted once more. -/
theorem resumes_item_again {mask : UInt16} (hmid : Midway mask s) :
    Resumes feed .endOfInput (Midway mask) (itemAgain cfg mask) (itemAgain cfg mask) s := by
  intro s' hstop
  cases hkey : behindKey s with
  | true =>
      obtain ⟨hbetween, hblank⟩ := hmid.behind_key hkey
      obtain ⟨honly, hgoes⟩ :=
        resumes_behind_action _ _ s' ((item_again_key hkey).symm.trans hstop)
      refine ⟨.begun (honly.same_tok.parsing hbetween) (honly.same_output.blank hblank), ?_⟩
      intro more
      have hkey' : behindKey (feed s' more) = true := by
        rw [honly]
        exact hkey
      have hstate : s'.state = s.state := by rw [honly]
      rw [item_again_key (s := feed s more) hkey, item_again_key hkey']
      show behindAction cfg (statemachine s.state) _ _ =
        behindAction cfg (statemachine s'.state) _ _
      rw [hstate]
      exact hgoes more
  | false =>
      obtain ⟨hmid', hgoes⟩ := resumes_item_pass hmid s' ((item_again_pass hkey).symm.trans hstop)
      exact ⟨hmid', fun more ↦ (item_again_pass (s := feed s more) hkey).trans (hgoes more)⟩

/-- What a pass leaves behind: an item that begins, or one that is read. -/
def ItemEnd : Option ElementType → XMLScanner → Prop
  | none, s => Between s ∧ Blank s
  | some rt, s => rt ≠ .errorOccurred → Between s

theorem item_end_none (rt : ElementType) (hbetween : Between s) (hblank : rt = .none → Blank s) :
    ItemEnd (whileNone rt) s := by
  rw [whileNone]
  split_ifs with hnone
  · exact ⟨hbetween, hblank hnone⟩
  · exact fun _ ↦ hbetween

/-- What the step of the state machine leaves behind. -/
theorem transit_returns {sd : Element} {ch : ControlCharacter} {rt : ElementType}
    (hbetween : Between s) (hblank : rt = .none → Blank s) :
    Ensures (transit cfg sd ch rt) s ItemEnd fun _ _ ↦ True := by
  rw [transit]
  cases sd.next ch with
  | some ns =>
      refine .bind (.of_ok rfl (.bind ?_))
      refine (ReadsOnly.on_src _ _).mono ?_ fun _ _ h ↦ h
      intro _ s' honly
      refine .of_ok rfl (item_end_none rt ?_ fun hnone ↦ ?_)
      · exact OnlyRead.same_tok honly |>.parsing hbetween
      · exact OnlyRead.same_output honly |>.blank (hblank hnone)
  | none =>
      cases sd.fallbackState with
      | some ns => exact .bind (.of_ok rfl (.of_ok rfl (item_end_none rt hbetween hblank)))
      | none =>
          show Ensures (do
            let _ ← print cfg 0
            alter fun s ↦ { s with error := missed sd ch }
            return some .errorOccurred : Scan (Option ElementType)) s ItemEnd fun _ _ ↦ True
          cases hprint : print cfg 0 s with
          | error e s' => exact .of_error (bind_error hprint) trivial
          | ok nn s' =>
              refine .bind (.of_ok hprint (.bind (.of_ok rfl (.of_ok rfl ?_))))
              exact fun herror ↦ absurd rfl herror

/-- What follows on the action of a state leaves behind. -/
theorem behind_action_returns {sd : Element} {rt : ElementType} (hbetween : Between s)
    (hblank : rt = .none → Blank s) :
    Ensures (behindAction cfg sd (.goesOn rt)) s ItemEnd fun _ _ ↦ True := by
  refine .bind ((ReadsOnly.on_src _ s).mono ?_ fun _ _ h ↦ h)
  intro ch s' honly
  exact transit_returns (OnlyRead.same_tok honly |>.parsing hbetween)
    fun hnone ↦ OnlyRead.same_output honly |>.blank (hblank hnone)

theorem item_pass_returns {mask : UInt16} (hmid : Midway mask s) :
    Ensures (itemPass cfg mask) s ItemEnd fun _ _ ↦ True := by
  refine .bind (.of_ok rfl (.bind ((act_returns hmid).mono ?_ fun _ _ h ↦ h)))
  intro acted s' hend
  cases hend with
  | error => exact .of_ok rfl fun herror ↦ absurd rfl herror
  | exit hbetween => exact .of_ok rfl fun _ ↦ hbetween
  | token hbetween _ hitem =>
      exact behind_action_returns hbetween fun hnone ↦ absurd hnone hitem
  | key hbetween hblank _ => exact behind_action_returns hbetween fun _ ↦ hblank
  | still hbetween hblank _ _ => exact behind_action_returns hbetween fun _ ↦ hblank

theorem item_again_returns {mask : UInt16} (hmid : Midway mask s) :
    Ensures (itemAgain cfg mask) s ItemEnd fun _ _ ↦ True := by
  cases hkey : behindKey s with
  | true =>
      obtain ⟨hbetween, hblank⟩ := hmid.behind_key hkey
      rw [Ensures, item_again_key hkey]
      exact behind_action_returns hbetween fun _ ↦ hblank
  | false =>
      rw [Ensures, item_again_pass hkey]
      exact item_pass_returns hmid

theorem Orderly.look {view : XMLScanner → α} (h : ∀ s more, view (feed s more) = view s) :
    Orderly cfg (look view : Scan α) := (Local.look h).orderly

theorem Orderly.item_again (mask : UInt16) : Orderly cfg (itemAgain cfg mask) := by
  refine .bind (.look fun _ _ ↦ rfl) ?_
  intro behind
  cases behind with
  | true => exact .bind (.look fun _ _ ↦ rfl) fun sd ↦ .behind_action sd _
  | false => exact .item_pass mask

/-! ## Calls of `nextItem` -/

/-- The rest of a call that was interrupted. -/
def itemRest (cfg : Setup) (mask : UInt16) : Scan ElementType :=
  loopFrom .endless passes (itemPass cfg mask) (itemAgain cfg mask)

/-- Beginning an item where a call was interrupted. -/
theorem begin_midway {mask : UInt16} (hmid : Midway mask s) : begin s = .ok ⟨⟩ s := by
  refine begin_blank ?_
  intro hid
  cases hmid with
  | begun _ hblank | key _ hblank _ => exact hblank
  | token hmid _ _ _ => exact absurd hid hmid.1.1

/-- Where it was interrupted, but not behind a key word, a call goes on when it is made again. -/
theorem next_item_rest {mask : UInt16} (hmid : Midway mask s) (hkey : behindKey s = false) :
    itemRest cfg mask s = nextItem cfg mask s := by
  rw [nextItem, bind_ok (begin_midway hmid), loop_eq (item_shrinks mask), itemRest, loopFrom]
  show EStateM.bind _ _ s = EStateM.bind _ _ s
  rw [EStateM.bind, EStateM.bind, item_again_pass hkey]

/-- A pass that goes round again leads to where a call may be interrupted. -/
theorem ItemEnd.midway {mask : UInt16} (h : ItemEnd none s) : Midway mask s := .begun h.1 h.2

theorem resumes_item_loop {mask : UInt16} (hmid : Midway mask s) :
    Resumes feed .endOfInput (Midway mask) (loop .endless passes (itemPass cfg mask))
      (itemRest cfg mask) s :=
  .loop_from (item_shrinks mask) (Orderly.item_pass mask).extends_input (Midway mask)
    (fun _ _ hs hround ↦ ((item_pass_returns hs).ok hround).midway)
    (fun _ hs ↦ resumes_item_pass hs) hmid

/-- An item that begins. -/
theorem begin_returns (mask : UInt16) (hs : Between s) :
    Ensures begin s (fun _ s' ↦ Midway mask s') fun e _ ↦ e ≠ .endOfInput := by
  rw [Ensures, begin, bind_look, if_pos hs.1, bind_alter]
  by_cases hroom : 0 + [(0 : Byte)].length ≤ s.outputBuf.length
  · have hlength : 0 < s.outputBuf.length := hroom
    rw [write_ok (s := { s with outputSize := 0 }) hroom]
    refine .begun hs ⟨rfl, ?_, ?_⟩
    · show 0 < (Block.store s.outputBuf 0 [0]).length
      rw [Block.store_length hlength]
      exact hlength
    · show Block.store (Block.store s.outputBuf 0 [0]) 0 [0] = Block.store s.outputBuf 0 [0]
      simp [Block.store]
  · rw [write_wild (s := { s with outputSize := 0 }) hroom]
    exact ne_of_beq_false rfl

/-- A call that asks for an item goes on where it was interrupted. -/
theorem resumes_next_item {mask : UInt16} (hs : Between s) :
    Resumes feed .endOfInput (Midway mask) (nextItem cfg mask) (itemRest cfg mask) s := by
  refine .behind ((Local.begin : Local cfg _).at_state s).extends_input ?_ ?_
  · intro s' hstop
    exact absurd rfl ((begin_returns mask hs).error hstop)
  · intro _ s₁ hbegin
    exact resumes_item_loop ((begin_returns mask hs).ok hbegin)

/-- The rest of a call, interrupted once more. -/
theorem resumes_item_rest {mask : UInt16} (hmid : Midway mask s) :
    Resumes feed .endOfInput (Midway mask) (itemRest cfg mask) (itemRest cfg mask) s :=
  .loop_midst (item_shrinks mask) (Orderly.item_pass mask).extends_input (Midway mask)
    (fun _ _ hs hround ↦ ((item_pass_returns hs).ok hround).midway)
    (fun _ hs ↦ resumes_item_pass hs) ((Orderly.item_again mask).extends_input s)
    (resumes_item_again hmid) fun _ hround ↦ ((item_again_returns hmid).ok hround).midway

/-- Behind an item no token is parsed. -/
theorem item_loop_returns {mask : UInt16} (hmid : Midway mask s) :
    Ensures (loop .endless passes (itemPass cfg mask)) s
      (fun rt s' ↦ rt ≠ .errorOccurred → Between s') fun _ _ ↦ True := by
  refine .loop (item_shrinks mask) (Midway mask) ?_ hmid
  intro t ht
  refine (item_pass_returns ht).mono ?_ fun _ _ h ↦ h
  intro result t' hend
  refine ⟨?_, ?_⟩
  · rintro rt rfl
    exact hend
  · rintro rfl
    exact hend.midway

theorem next_item_returns {mask : UInt16} (hs : Between s ∨ Midway mask s) :
    Ensures (nextItem cfg mask) s (fun rt s' ↦ rt ≠ .errorOccurred → Between s')
      fun _ _ ↦ True := by
  rcases hs with hbetween | hmid
  · refine .bind ((begin_returns mask hbetween).mono ?_ fun _ _ _ ↦ trivial)
    intro _ s' hmid
    exact item_loop_returns hmid
  · exact .bind (.of_ok (begin_midway hmid) (item_loop_returns hmid))

/-! ## Blocks -/

variable (cfg) in
/-- A call that asks for an item. When it is interrupted, it is made again with the next block. -/
def request (mask : UInt16) (s : XMLScanner) (blocks : List (List Byte)) :
    EStateM.Result Stop XMLScanner ElementType × List (List Byte) :=
  match blocks with
  | [] => (nextItem cfg mask s, [])
  | block :: blocks =>
      match nextItem cfg mask s with
      | .error .endOfInput s' => request mask (s'.feed block) blocks
      | result => (result, block :: blocks)

variable (cfg) in
/-- What the caller gets for some calls: the kind of each item, its text and the error. -/
def requests (masks : List UInt16) (s : XMLScanner) (blocks : List (List Byte)) :
    List (Except Stop (ElementType × List Byte × Error)) :=
  match masks with
  | [] => []
  | mask :: masks =>
      match request cfg mask s blocks with
      | (.error e _, _) => [.error e]
      | (.ok rt s', blocks) => .ok (rt, s'.item, s'.error) ::
          if rt = .errorOccurred then [] else requests masks s' blocks

variable (cfg) in
/-- No block ends behind a key word while an item is asked for. -/
def uncutRequest (mask : UInt16) (s : XMLScanner) (blocks : List (List Byte)) : Bool :=
  match blocks with
  | [] => true
  | block :: blocks =>
      match nextItem cfg mask s with
      | .error .endOfInput s' => !behindKey s' && uncutRequest mask (s'.feed block) blocks
      | _ => true

variable (cfg) in
/-- No block ends behind a key word. -/
def uncut (masks : List UInt16) (s : XMLScanner) (blocks : List (List Byte)) : Bool :=
  match masks with
  | [] => true
  | mask :: masks => uncutRequest cfg mask s blocks &&
      match request cfg mask s blocks with
      | (.ok _ s', blocks) => uncut masks s' blocks
      | (.error _ _, _) => true

theorem feed_nil (s : XMLScanner) : s.feed [] = s := by
  rw [feed, TextScanner.feed, List.append_nil]

theorem feed_feed (s : XMLScanner) (front back : List Byte) :
    (s.feed front).feed back = s.feed (front ++ back) := by
  rw [feed, feed, feed, TextScanner.feed, TextScanner.feed, TextScanner.feed, List.append_assoc]

/-- Made again, a call goes on where it was interrupted, but not behind a key word. -/
theorem next_item_again {mask : UInt16} (hs : Between s ∨ (Midway mask s ∧ behindKey s = false))
    (hstop : nextItem cfg mask s = .error .endOfInput s') (hkey : behindKey s' = false) :
    Midway mask s' ∧
      ∀ more, nextItem cfg mask (s.feed more) = nextItem cfg mask (s'.feed more) := by
  have hrest : Midway mask s' ∧
      ∀ more, nextItem cfg mask (s.feed more) = itemRest cfg mask (s'.feed more) := by
    rcases hs with hbetween | ⟨hmid, hclear⟩
    · exact resumes_next_item hbetween s' hstop
    · obtain ⟨hmid', hgoes⟩ :=
        resumes_item_rest hmid s' ((next_item_rest hmid hclear).trans hstop)
      refine ⟨hmid', ?_⟩
      intro more
      rw [← hgoes more]
      exact (next_item_rest (s := s.feed more) hmid.feed hclear).symm
  refine ⟨hrest.1, ?_⟩
  intro more
  rw [hrest.2 more]
  exact next_item_rest hrest.1.feed hkey

/-- A call that is not interrupted. -/
theorem request_at_once {mask : UInt16} {blocks : List (List Byte)}
    (h : ∀ s', nextItem cfg mask s ≠ .error .endOfInput s') :
    request cfg mask s blocks = (nextItem cfg mask s, blocks) := by
  cases blocks with
  | nil => rfl
  | cons block blocks =>
      rw [request]
      split
      · next s' hstop => exact absurd hstop (h s')
      · rfl

/-- A call that is interrupted is made again. -/
theorem request_again {mask : UInt16} {block : List Byte} {blocks : List (List Byte)}
    (h : nextItem cfg mask s = .error .endOfInput s') :
    request cfg mask s (block :: blocks) = request cfg mask (s'.feed block) blocks := by
  rw [request, h]

/-- A call gets what it gets if all blocks are there from the beginning. -/
theorem request_whole {mask : UInt16} {blocks : List (List Byte)}
    (hs : Between s ∨ (Midway mask s ∧ behindKey s = false))
    (huncut : uncutRequest cfg mask s blocks = true) :
    (∀ rt s' rest, request cfg mask s blocks = (.ok rt s', rest) →
      nextItem cfg mask (s.feed blocks.flatten) = .ok rt (s'.feed rest.flatten) ∧
        (rt ≠ .errorOccurred → Between s')) ∧
    ∀ e s' rest, request cfg mask s blocks = (.error e s', rest) →
      ∃ s'', nextItem cfg mask (s.feed blocks.flatten) = .error e s'' := by
  induction blocks generalizing s with
  | nil =>
      rw [List.flatten_nil, feed_nil]
      constructor
      · rintro rt s' rest h
        obtain ⟨hok, rfl⟩ := Prod.mk.inj h
        rw [List.flatten_nil, feed_nil]
        exact ⟨hok, (next_item_returns (hs.imp_right And.left)).ok hok⟩
      · rintro e s' rest h
        exact ⟨s', (Prod.mk.inj h).1⟩
  | cons block blocks ih =>
      cases hitem : nextItem cfg mask s with
      | ok rt s' =>
          have honce : request cfg mask s (block :: blocks) = (.ok rt s', block :: blocks) := by
            rw [request_at_once, hitem]
            intro t ht
            exact nomatch hitem.symm.trans ht
          rw [honce]
          constructor
          · rintro rt' t rest h
            obtain ⟨hok, rfl⟩ := Prod.mk.inj h
            obtain ⟨rfl, rfl⟩ := EStateM.Result.ok.inj hok
            exact ⟨(Orderly.next_item mask).extends_input.ok hitem _,
              (next_item_returns (hs.imp_right And.left)).ok hitem⟩
          · rintro e t rest h
            exact nomatch (Prod.mk.inj h).1
      | error e s' =>
          by_cases hend : e = .endOfInput
          · subst hend
            rw [uncutRequest, hitem] at huncut
            obtain ⟨hkey, huncut'⟩ : behindKey s' = false ∧
              uncutRequest cfg mask (s'.feed block) blocks = true := by simpa using huncut
            obtain ⟨hmid', hgoes⟩ := next_item_again hs hitem hkey
            have hnext := ih (s := s'.feed block) (.inr ⟨hmid'.feed, hkey⟩) huncut'
            rw [request_again hitem, List.flatten_cons, hgoes, ← feed_feed]
            exact hnext
          · have honce : request cfg mask s (block :: blocks) = (.error e s', block :: blocks) := by
              rw [request_at_once, hitem]
              intro t ht
              exact hend (EStateM.Result.error.inj (hitem.symm.trans ht)).1
            rw [honce]
            constructor
            · rintro rt t rest h
              exact nomatch (Prod.mk.inj h).1
            · rintro e' t rest h
              obtain ⟨herror, rfl⟩ := Prod.mk.inj h
              obtain ⟨rfl, rfl⟩ := EStateM.Result.error.inj herror
              exact ⟨_, (Orderly.next_item mask).extends_input.error hitem hend _⟩

/-- Calls get what they get if all blocks are there from the beginning. -/
theorem requests_feed (masks : List UInt16) {blocks : List (List Byte)} (hs : Between s)
    (huncut : uncut cfg masks s blocks = true) :
    requests cfg masks s blocks = requests cfg masks (s.feed blocks.flatten) [] := by
  induction masks generalizing s blocks with
  | nil => rfl
  | cons mask masks ih =>
      rw [uncut, Bool.and_eq_true] at huncut
      obtain ⟨hfirst, hrest⟩ := huncut
      obtain ⟨hok, herror⟩ := request_whole (.inl hs) hfirst
      cases hrequest : request cfg mask s blocks with
      | mk result rest =>
          cases result with
          | ok rt s' =>
              obtain ⟨hwhole, hbetween⟩ := hok rt s' rest hrequest
              rw [hrequest] at hrest
              rw [requests, requests, hrequest, request, hwhole]
              show Except.ok (rt, s'.item, s'.error) :: _ = Except.ok (rt, s'.item, s'.error) :: _
              by_cases hend : rt = .errorOccurred
              · rw [if_pos hend, if_pos hend]
              · rw [if_neg hend, if_neg hend, ih (hbetween hend) hrest]
          | error e s' =>
              obtain ⟨t, hwhole⟩ := herror e s' rest hrequest
              rw [requests, requests, hrequest, request, hwhole]

/-- Whatever the document is and wherever it is cut, but right behind a key word, the calls get what
they get if the document is there as a whole. -/
theorem requests_whole (masks : List UInt16) (outputBuf : List Byte) (outputBufSize : UInt32)
    (blocks : List (List Byte))
    (huncut : uncut cfg masks (.construct [] outputBuf outputBufSize) blocks = true) :
    requests cfg masks (.construct [] outputBuf outputBufSize) blocks =
      requests cfg masks (.construct blocks.flatten outputBuf outputBufSize) [] :=
  requests_feed masks ⟨rfl, rfl⟩ huncut

theorem requests_whole_entity :
    let cfg : Setup := ⟨UTF8, UTF8, none⟩
    requests cfg (List.replicate 3 0xFFFF) (.construct [] (List.replicate 16 0) 16)
      [text "<a", text ">&l", text "t;<", text "/a> "] =
    requests cfg (List.replicate 3 0xFFFF)
      (.construct (text "<a>&lt;</a> ") (List.replicate 16 0) 16) [] :=
  requests_whole _ _ _ _ (by decide +kernel)

/-- Cut right behind the key word, a header is refused. -/
example : requests ⟨UTF8, UTF8, none⟩ (List.replicate 2 0xFFFF)
    (.construct [] (List.replicate 16 0) 16)
    [text "<?xml", text " version=\"1.0\"?><a b='c'/>"] =
    [.ok (.errorOccurred, [], .errSyntaxToken)] := by decide +kernel

end XMLScanner

end Smerp.Textwolf
