import Smerp.Textwolf.ScannerRuns

/-!
# Tokens that are interrupted

The input iterator throws at the end of a block, in the middle of a token. The functions that read
characters, entities and tokens leave behind where they were interrupted, in the state of the token
and in the bytes of the character that is loaded. With the next block they go on there, and read
what they would have read of the whole input.
-/

namespace Smerp.Textwolf

open Lib Lib.Interruptible

namespace XMLScanner

variable {cfg : Setup} {α β : Type} {m : Scan α} {f : α → Scan β} {s s' : XMLScanner}
  {stopped : XMLScanner → Prop} {k : Scan β}

/-! ## Steps -/

/-- A function that does not read. -/
def Silent (m : Scan α) : Prop :=
  ∀ s, Ensures m s (fun _ s' ↦ s'.src = s.src) fun e _ ↦ e ≠ .endOfInput

theorem Silent.pure (a : α) : Silent (pure a : Scan α) := fun _ ↦ .of_ok rfl rfl

theorem Silent.bind (hm : Silent m) (hf : ∀ a, Silent (f a)) : Silent (m >>= f) := by
  intro s
  refine .bind ((hm s).mono ?_ fun _ _ h ↦ h)
  intro a s' hsame
  exact (hf a s').mono (fun _ _ h ↦ h.trans hsame) fun _ _ h ↦ h

theorem Silent.ite {m' : Scan α} {c : Prop} [Decidable c] (hm : Silent m) (hm' : Silent m') :
    Silent (if c then m else m') := by
  split_ifs
  · exact hm
  · exact hm'

theorem Silent.look (view : XMLScanner → α) : Silent (look view) := fun _ ↦ .of_ok rfl rfl

theorem Silent.alter {change : XMLScanner → XMLScanner} (h : ∀ s, (change s).src = s.src) :
    Silent (alter change) := fun s ↦ .of_ok rfl (h s)

theorem Silent.set_tok (change : TokState → TokState) : Silent (setTok change) :=
  .alter fun _ ↦ rfl

theorem Silent.fail (e : Error) : Silent (fail e) :=
  .bind (.alter fun _ ↦ rfl) fun _ ↦ .pure false

theorem Silent.print (cfg : Setup) (ch : UChar) : Silent (print cfg ch) := by
  intro s
  rcases print_cases cfg ch s with ⟨-, ⟨-, h⟩ | ⟨-, h⟩⟩ | ⟨-, h⟩
  · exact .of_ok h rfl
  · exact .of_ok h rfl
  · exact .of_error h (by decide)

theorem Silent.push (cfg : Setup) (ch : UChar) : Silent (push cfg ch) := by
  refine .bind (.print cfg ch) ?_
  intro nn
  exact .bind (.alter fun _ ↦ rfl) fun _ ↦ .pure _

theorem Silent.push_all (cfg : Setup) (chars : List UChar) : Silent (pushAll cfg chars) := by
  induction chars with
  | nil => exact .pure true
  | cons ch more ih =>
      refine .bind (.push cfg ch) ?_
      intro pushed
      exact .ite ih (.pure false)

theorem Silent.fallback_entity (cfg : Setup) : Silent (fallbackEntity cfg) := by
  refine .bind (.look _) ?_
  intro tok
  cases tok.id with
  | start | parsingKey | parsingToken => exact .fail _
  | parsingEntity | parsingNumericEntity | parsingNumericBaseEntity | parsingNamedEntity =>
      exact .push_all cfg _

theorem Silent.push_entity (cfg : Setup) (str : List Byte) : Silent (pushEntity cfg str) := by
  have hpredefined : Silent (pushPredefinedEntity cfg str) := by
    rw [pushPredefinedEntity]
    cases predefinedEntity str with
    | some ch => exact .push cfg ch
    | none => exact .pure false
  refine .bind hpredefined ?_
  intro pushed
  refine .ite (.pure true) ?_
  cases cfg.entityMap with
  | none => exact .fail _
  | some find =>
      dsimp only
      cases find str with
      | none => exact .fail _
      | some ch => exact .ite (.fail _) (.push cfg ch)

variable (cfg) in
/-- A step that does not read, and what follows on it. -/
theorem resumes_silent (hlocal : Local cfg m) (hm : Silent m)
    (hnext : ∀ a s', m s = .ok a s' → s'.src = s.src →
      Resumes feed .endOfInput stopped (f a) k s') :
    Resumes feed .endOfInput stopped (m >>= f) k s := by
  refine .behind (hlocal.at_state s).extends_input ?_ ?_
  · intro s' hstop
    exact (hm s).error hstop rfl
  · intro a s' hstep
    exact hnext a s' hstep ((hm s).ok hstep)

/-- A step that does not read, at the end. -/
theorem resumes_last {k : Scan α} (hm : Silent m) :
    Resumes feed .endOfInput stopped m k s := by
  intro s' hstop
  exact absurd rfl ((hm s).error hstop)

/-! ## A character that is loaded -/

/-- Once a character is loaded the function is not short of input. -/
def Prompt (cfg : Setup) (m : Scan α) : Prop :=
  ∀ s, TextScanner.Loaded cfg.inputCharSet s.src →
    Ensures m s (fun _ _ ↦ True) fun e _ ↦ e ≠ .endOfInput

theorem Prompt.of_silent (hm : Silent m) : Prompt cfg m :=
  fun s _ ↦ (hm s).mono (fun _ _ _ ↦ trivial) fun _ _ h ↦ h

theorem Prompt.behind (hm : Silent m) (hf : ∀ a, Prompt cfg (f a)) : Prompt cfg (m >>= f) := by
  intro s hloaded
  refine .bind ((hm s).mono ?_ fun _ _ h ↦ h)
  intro a s' hsame
  refine hf a s' ?_
  rw [hsame]
  exact hloaded

theorem Prompt.ite {m' : Scan α} {c : Prop} [Decidable c] (hm : Prompt cfg m)
    (hm' : Prompt cfg m') : Prompt cfg (if c then m else m') := by
  split_ifs
  · exact hm
  · exact hm'

theorem Prompt.map {g : α → β} (hm : Prompt cfg m) : Prompt cfg (do return g (← m) : Scan β) := by
  intro s hloaded
  refine .bind ((hm s hloaded).mono ?_ fun _ _ h ↦ h)
  intro a s' _
  exact .of_ok rfl trivial

/-- Skipping a character that is loaded. -/
theorem Prompt.skip {f : Unit → Scan β} (hf : ∀ a, Silent (f a)) :
    Prompt cfg (onSrc (TextScanner.skip cfg.inputCharSet) >>= f) := by
  intro s hloaded
  refine .bind (.of_ok (on_src_ok (TextScanner.skip_loaded hloaded)) ?_)
  exact ((hf () _).mono fun _ _ _ ↦ trivial) fun _ _ h ↦ h

/-- Classifying a character that is loaded. -/
theorem Prompt.classify {view : Byte → α} (hf : ∀ a, Prompt cfg (f a)) :
    Prompt cfg (onSrc (TextScanner.classify cfg.inputCharSet view) >>= f) := by
  intro s hloaded
  refine .bind (.of_ok (on_src_ok (TextScanner.classify_loaded view hloaded)) ?_)
  exact hf _ _ hloaded

/-- Only the reader differs. -/
def OnlyRead (s s' : XMLScanner) : Prop := s' = { s with src := s'.src }

/-- A function of the reader that starts again where it is interrupted. -/
theorem resumes_on_src {read : Read α}
    (hread : Resumes TextScanner.feed .endOfInput (fun _ ↦ True) read read s.src) :
    Resumes feed .endOfInput (OnlyRead s) (onSrc read) (onSrc read) s := by
  intro s' hstop
  obtain ⟨hstep, hsame⟩ := of_on_src_error hstop
  refine ⟨hsame, ?_⟩
  intro more
  have hgoes := (hread _ hstep).2 more
  rw [hsame]
  show onSrc read { s with src := s.src.feed more } = onSrc read { s with src := s'.src.feed more }
  cases hread : read (s.src.feed more) with
  | ok a src =>
      rw [on_src_ok (s := { s with src := s.src.feed more }) hread,
        on_src_ok (s := { s with src := s'.src.feed more }) (hgoes.symm.trans hread)]
  | error e src =>
      rw [on_src_error (s := { s with src := s.src.feed more }) hread,
        on_src_error (s := { s with src := s'.src.feed more }) (hgoes.symm.trans hread)]

/-- A function that is short of input only in front of its first character starts again there. -/
theorem resumes_first {view : Byte → α} (hf : ∀ a, Prompt cfg (f a)) (s : XMLScanner) :
    Resumes feed .endOfInput (OnlyRead s)
      (onSrc (TextScanner.classify cfg.inputCharSet view) >>= f)
      (onSrc (TextScanner.classify cfg.inputCharSet view) >>= f) s := by
  refine .bind ((Local.classify _ view : Local cfg _).at_state s).extends_input
    (resumes_on_src (TextScanner.resumes_classify view s.src)) (fun _ h ↦ h) (fun _ _ _ ↦ rfl) ?_
  intro a s' hstep s'' hstop
  obtain ⟨hread, -⟩ := of_on_src_ok hstep
  exact absurd rfl ((hf a s' (TextScanner.classify_keeps hread).1).error hstop)

/-- What is looked at in front of the first character. -/
theorem resumes_look {γ : Type} {view : XMLScanner → γ} {f : γ → Scan α}
    (hview : ∀ s' more, OnlyRead s s' → view (feed s' more) = view s)
    (hnext : Resumes feed .endOfInput (OnlyRead s) (f (view s)) (f (view s)) s) :
    Resumes feed .endOfInput (OnlyRead s) (look view >>= f) (look view >>= f) s := by
  intro s' hstop
  obtain ⟨honly, hgoes⟩ := hnext s' hstop
  refine ⟨honly, ?_⟩
  intro more
  rw [bind_look, bind_look, hview s more rfl, hview s' more honly]
  exact hgoes more

theorem OnlyRead.tokstate_feed (h : OnlyRead s s') (more : List Byte) :
    (feed s' more).tokstate = s.tokstate := by
  rw [h]
  rfl

/-! ## The passes of the loops -/

theorem resumes_numeric_pass (s : XMLScanner) :
    Resumes feed .endOfInput (OnlyRead s) (numericEntityPass cfg) (numericEntityPass cfg) s := by
  refine resumes_look (fun _ more h ↦ h.tokstate_feed more) ?_
  by_cases hroom : s.tokstate.pos < 16
  · rw [if_pos hroom]
    refine resumes_first ?_ s
    intro ch
    refine .behind (.set_tok _) ?_
    intro _
    refine .ite (.map ?_) (.ite (.of_silent (.bind (.fallback_entity cfg) fun _ ↦ .pure _)) ?_)
    · refine .behind (.look _) ?_
      intro value
      refine .ite (.of_silent (.fallback_entity cfg)) (.ite (.of_silent (.fail _)) ?_)
      refine .behind (.push cfg _) ?_
      intro pushed
      refine .ite (.behind (.set_tok _) ?_) (.of_silent (.pure false))
      intro _
      exact .skip fun _ ↦ .pure true
    · refine .behind (.set_tok _) ?_
      intro _
      exact .skip fun _ ↦ .pure none
  · rw [if_neg hroom]
    exact resumes_last (.bind (.fallback_entity cfg) fun _ ↦ .pure _)

theorem resumes_named_pass (s : XMLScanner) :
    Resumes feed .endOfInput (OnlyRead s) (namedEntityPass cfg) (namedEntityPass cfg) s := by
  refine resumes_first ?_ s
  intro ch
  refine .behind (.look _) ?_
  intro tok
  refine .classify ?_
  intro cc
  refine .ite (.behind (.set_tok _) ?_) (.ite (.map ?_) (.of_silent ?_))
  · intro _
    refine .skip ?_
    intro _
    exact .bind (.set_tok _) fun _ ↦ .pure none
  · refine .behind (.look _) ?_
    intro tok
    refine .behind (.set_tok _) ?_
    intro _
    refine .behind (.push_entity cfg _) ?_
    intro pushed
    refine .ite (.behind (.set_tok _) ?_) (.of_silent (.pure false))
    intro _
    exact .skip fun _ ↦ .pure true
  · exact .bind (.fallback_entity cfg) fun _ ↦ .pure _

theorem resumes_skip_pass (isTok : IsTokenCharMap) (s : XMLScanner) :
    Resumes feed .endOfInput (OnlyRead s) (skipPass cfg isTok) (skipPass cfg isTok) s := by
  refine resumes_first ?_ s
  intro ch
  refine .ite (.skip fun _ ↦ .pure none) ?_
  exact .classify fun cc ↦ .of_silent (.pure _)

theorem resumes_expect_pass (str : List Byte) (s : XMLScanner) :
    Resumes feed .endOfInput (OnlyRead s) (expectPass cfg str) (expectPass cfg str) s := by
  refine resumes_look (fun _ more h ↦ congrArg TokState.pos (h.tokstate_feed more)) ?_
  cases str[s.tokstate.pos]? with
  | none => exact resumes_last (.pure _)
  | some expected =>
      refine resumes_first ?_ s
      intro ch
      refine .ite (.skip fun _ ↦ .bind (.set_tok _) fun _ ↦ .pure none) ?_
      exact .classify fun cc ↦ .of_silent (.bind (.fail _) fun _ ↦ .pure _)

/-! ## The token that is parsed -/

/-- The kind of the token is the same, and so is the character that is saved. -/
def SameTok (s s' : XMLScanner) : Prop :=
  s'.tokstate.id = s.tokstate.id ∧ s'.tokstate.curchrSaved = s.tokstate.curchrSaved

theorem SameTok.trans {s'' : XMLScanner} (h : SameTok s s') (h' : SameTok s' s'') :
    SameTok s s'' := ⟨h'.1.trans h.1, h'.2.trans h.2⟩

theorem OnlyRead.same_tok (h : OnlyRead s s') : SameTok s s' := by
  rw [h]
  exact ⟨rfl, rfl⟩

/-- A function that leaves the kind of the token alone. -/
def KeepsTok (m : Scan α) : Prop :=
  ∀ s, Ensures m s (fun _ s' ↦ SameTok s s') fun _ _ ↦ True

theorem KeepsTok.pure (a : α) : KeepsTok (pure a : Scan α) := fun _ ↦ .of_ok rfl ⟨rfl, rfl⟩

theorem KeepsTok.look (view : XMLScanner → α) : KeepsTok (look view) :=
  fun _ ↦ .of_ok rfl ⟨rfl, rfl⟩

theorem KeepsTok.set_tok {change : TokState → TokState}
    (h : ∀ tok, (change tok).id = tok.id ∧ (change tok).curchrSaved = tok.curchrSaved) :
    KeepsTok (setTok change) := fun s ↦ .of_ok rfl (h s.tokstate)

theorem KeepsTok.on_src (read : Read α) : KeepsTok (onSrc read) := by
  intro s
  cases hstep : onSrc read s with
  | ok a s' => exact .of_ok hstep (OnlyRead.same_tok (of_on_src_ok hstep).2)
  | error e s' => exact .of_error hstep trivial

/-- A pass that goes round again leaves the kind of the token alone. -/
def Rounds (m : Scan (Option α)) : Prop :=
  ∀ s, Ensures m s (fun result s' ↦ result = none → SameTok s s') fun _ _ ↦ True

theorem Rounds.behind {m : Scan β} {f : β → Scan (Option α)} (hm : KeepsTok m)
    (hf : ∀ b, Rounds (f b)) : Rounds (m >>= f) := by
  intro s
  refine .bind ((hm s).mono ?_ fun _ _ h ↦ h)
  intro b s' hsame
  exact (hf b s').mono (fun _ _ hmore hnone ↦ hsame.trans (hmore hnone)) fun _ _ h ↦ h

theorem Rounds.ite {m m' : Scan (Option α)} {c : Prop} [Decidable c] (hm : Rounds m)
    (hm' : Rounds m') : Rounds (if c then m else m') := by
  split_ifs
  · exact hm
  · exact hm'

theorem Rounds.pure (result : Option α) : Rounds (pure result) :=
  fun _ ↦ .of_ok rfl fun _ ↦ ⟨rfl, rfl⟩

/-- A pass that returns. -/
theorem Rounds.map (m : Scan α) : Rounds (do return some (← m)) := by
  intro s
  cases hm : m s with
  | ok a s' => exact .of_ok (bind_ok hm) fun hnone ↦ nomatch hnone
  | error e s' => exact .of_error (bind_error hm) trivial

theorem rounds_numeric_pass : Rounds (numericEntityPass cfg) := by
  refine .behind (.look _) ?_
  intro tok
  refine .ite (.behind (.on_src _) ?_) (.map _)
  intro ch
  refine .behind (.set_tok fun _ ↦ ⟨rfl, rfl⟩) ?_
  intro _
  refine .ite (.map _) (.ite (.map _) ?_)
  refine .behind (.set_tok fun _ ↦ ⟨rfl, rfl⟩) ?_
  intro _
  exact .behind (.on_src _) fun _ ↦ .pure none

theorem rounds_named_pass : Rounds (namedEntityPass cfg) := by
  refine .behind (.on_src _) ?_
  intro ch
  refine .behind (.look _) ?_
  intro tok
  refine .behind (.on_src _) ?_
  intro cc
  refine .ite (.behind (.set_tok fun _ ↦ ⟨rfl, rfl⟩) ?_) (.ite (.map _) (.map _))
  intro _
  refine .behind (.on_src _) ?_
  intro _
  exact .behind (.set_tok fun _ ↦ ⟨rfl, rfl⟩) fun _ ↦ .pure none

theorem rounds_expect_pass (str : List Byte) : Rounds (expectPass cfg str) := by
  refine .behind (.look _) ?_
  intro pos
  cases str[pos]? with
  | none => exact .pure _
  | some expected =>
      refine .behind (.on_src _) ?_
      intro ch
      refine .ite (.behind (.on_src _) ?_) (.behind (.on_src _) fun _ ↦ .map _)
      intro _
      exact .behind (.set_tok fun _ ↦ ⟨rfl, rfl⟩) fun _ ↦ .pure none

/-- The token of this kind is parsed, and no character is saved. -/
def Parsing (id : TokStateId) (s : XMLScanner) : Prop :=
  s.tokstate.id = id ∧ s.tokstate.curchrSaved = 0

theorem SameTok.parsing {id : TokStateId} (h : SameTok s s') (hs : Parsing id s) : Parsing id s' :=
  ⟨h.1.trans hs.1, h.2.trans hs.2⟩

/-- The kind that is there already. -/
theorem set_id_again {id : TokStateId} {f : PUnit → Scan β} (h : s.tokstate.id = id) :
    (setTok (fun tok ↦ { tok with id := id }) >>= f) s = f ⟨⟩ s := by
  subst h
  rfl

/-- A loop that parses a token of one kind. -/
theorem resumes_parsing {id : TokStateId} {body : Scan (Option Bool)}
    (hshrinks : Shrinks left body) (hlocal : Local cfg body)
    (hpass : ∀ s, Resumes feed .endOfInput (OnlyRead s) body body s) (hrounds : Rounds body)
    (hsaved : s.tokstate.curchrSaved = 0) :
    let parse : Scan Bool := do
      setTok fun tok ↦ { tok with id := id }
      loop .endless left body
    Resumes feed .endOfInput (Parsing id) parse parse s := by
  intro parse
  refine resumes_silent cfg (.set_tok _) (.set_tok _) ?_
  intro _ s₁ hset _
  obtain ⟨-, rfl⟩ := EStateM.Result.ok.inj hset
  refine .restart
    (.loop_self hshrinks hlocal.orderly.extends_input (Parsing id) ?_ ?_ ⟨rfl, hsaved⟩) ?_
  · intro t t' hparsing hround
    exact ((hrounds t).ok hround rfl).parsing hparsing
  · intro t hparsing
    exact (hpass t).mono fun t' honly ↦ honly.same_tok.parsing hparsing
  · intro t more hparsing
    exact (set_id_again (s := feed t more) (f := fun _ ↦ loop .endless left body)
      hparsing.1).symm

/-! ## Entities -/

/-- An entity is parsed, and no character is saved. -/
def MidEntity (s : XMLScanner) : Prop :=
  (s.tokstate.id ≠ .start ∧ s.tokstate.id ≠ .parsingKey ∧ s.tokstate.id ≠ .parsingToken) ∧
    s.tokstate.curchrSaved = 0

theorem Parsing.mid_entity {id : TokStateId} (h : Parsing id s)
    (hid : id ≠ .start ∧ id ≠ .parsingKey ∧ id ≠ .parsingToken) : MidEntity s := by
  obtain ⟨rfl, hsaved⟩ := h
  exact ⟨hid, hsaved⟩

/-- What is done to recover depends on the kind of the entity. -/
theorem recover_entity_eq (s : XMLScanner) :
    recoverEntity cfg s = (match s.tokstate.id with
      | .start | .parsingKey | .parsingToken => return false
      | .parsingEntity => parseEntity cfg
      | .parsingNumericEntity => parseNumericEntity cfg
      | .parsingNumericBaseEntity => parseNumericBaseEntity cfg
      | .parsingNamedEntity => parseNamedEntity cfg : Scan Bool) s := rfl

theorem resumes_numeric_base_entity (hsaved : s.tokstate.curchrSaved = 0) :
    Resumes feed .endOfInput MidEntity (parseNumericBaseEntity cfg) (recoverEntity cfg) s := by
  refine .mono (.restart (resumes_parsing numeric_entity_shrinks .numeric_entity_pass
    resumes_numeric_pass rounds_numeric_pass hsaved) ?_) ?_
  · intro t more hparsing
    rw [recover_entity_eq, show (feed t more).tokstate.id = _ from hparsing.1]
    rfl
  · intro t hparsing
    exact hparsing.mid_entity (by decide)

theorem resumes_named_entity (hsaved : s.tokstate.curchrSaved = 0) :
    Resumes feed .endOfInput MidEntity (parseNamedEntity cfg) (recoverEntity cfg) s := by
  refine .mono (.restart (resumes_parsing named_entity_shrinks .named_entity_pass
    resumes_named_pass rounds_named_pass hsaved) ?_) ?_
  · intro t more hparsing
    rw [recover_entity_eq, show (feed t more).tokstate.id = _ from hparsing.1]
    rfl
  · intro t hparsing
    exact hparsing.mid_entity (by decide)

/-- A function that sets the kind of the token and reads a character. In front of the character it
starts again; behind it, `k` goes on. -/
theorem resumes_first_of_token {id : TokStateId} {view : Byte → α} {f : α → Scan β}
    (hsaved : s.tokstate.curchrSaved = 0) (hstopped : ∀ s', Parsing id s' → stopped s')
    (hrestart : ∀ s', Parsing id s' → k s' =
      (setTok (fun tok ↦ { tok with id := id }) >>= fun _ ↦
        onSrc (TextScanner.classify cfg.inputCharSet view) >>= f) s')
    (hnext : ∀ a s', s'.tokstate.curchrSaved = 0 → TextScanner.Loaded cfg.inputCharSet s'.src →
      Resumes feed .endOfInput stopped (f a) k s') :
    Resumes feed .endOfInput stopped
      (setTok (fun tok ↦ { tok with id := id }) >>= fun _ ↦
        onSrc (TextScanner.classify cfg.inputCharSet view) >>= f) k s := by
  refine resumes_silent cfg (.set_tok _) (.set_tok _) ?_
  intro _ s₁ hset _
  obtain ⟨-, rfl⟩ := EStateM.Result.ok.inj hset
  refine .bind ((Local.classify _ view : Local cfg _).at_state _).extends_input
    (resumes_on_src (TextScanner.resumes_classify view _)) ?_ ?_ ?_
  · intro s' honly
    exact hstopped s' (honly.same_tok.parsing ⟨rfl, hsaved⟩)
  · intro s' more honly
    have hparsing : Parsing id s' := honly.same_tok.parsing ⟨rfl, hsaved⟩
    rw [hrestart (feed s' more) hparsing, set_id_again (s := feed s' more) hparsing.1]
  · intro a s' hstep
    obtain ⟨hread, honly⟩ := of_on_src_ok hstep
    refine hnext a s' ?_ (TextScanner.classify_keeps hread).1
    exact (OnlyRead.same_tok honly).2.trans hsaved

/-- A character that is loaded is skipped, and what follows on it. -/
theorem resumes_skip {f : Unit → Scan β} (hloaded : TextScanner.Loaded cfg.inputCharSet s.src)
    (hnext : ∀ s', OnlyRead s s' → Resumes feed .endOfInput stopped (f ()) k s') :
    Resumes feed .endOfInput stopped
      (onSrc (TextScanner.skip cfg.inputCharSet) >>= f) k s := by
  have hstep := on_src_ok (TextScanner.skip_loaded hloaded)
  refine .behind ((Local.skip _ : Local cfg _).at_state s).extends_input ?_ ?_
  · intro s' hstop
    exact nomatch hstep.symm.trans hstop
  · intro _ s' hskip
    obtain rfl := (EStateM.Result.ok.inj (hstep.symm.trans hskip)).2
    exact hnext _ rfl

theorem resumes_numeric_entity (hsaved : s.tokstate.curchrSaved = 0) :
    Resumes feed .endOfInput MidEntity (parseNumericEntity cfg) (recoverEntity cfg) s := by
  refine resumes_first_of_token hsaved (fun s' h ↦ h.mid_entity (by decide)) ?_ ?_
  · intro s' hparsing
    rw [recover_entity_eq, hparsing.1]
    rfl
  · intro ch s₁ hsaved₁ hloaded
    by_cases hhex : ch = 120
    · rw [if_pos hhex]
      refine resumes_silent cfg (.set_tok _) (.set_tok _) ?_
      intro _ s₂ hset hsrc
      obtain ⟨-, rfl⟩ := EStateM.Result.ok.inj hset
      refine resumes_skip hloaded ?_
      intro s₃ honly
      exact resumes_numeric_base_entity (honly.same_tok.2.trans hsaved₁)
    · rw [if_neg hhex]
      refine resumes_silent cfg (.set_tok _) (.set_tok _) ?_
      intro _ s₂ hset _
      obtain ⟨-, rfl⟩ := EStateM.Result.ok.inj hset
      exact resumes_numeric_base_entity hsaved₁

theorem resumes_entity (hsaved : s.tokstate.curchrSaved = 0) :
    Resumes feed .endOfInput MidEntity (parseEntity cfg) (recoverEntity cfg) s := by
  refine resumes_first_of_token hsaved (fun s' h ↦ h.mid_entity (by decide)) ?_ ?_
  · intro s' hparsing
    rw [recover_entity_eq, hparsing.1]
    rfl
  · intro ch s₁ hsaved₁ hloaded
    by_cases hhash : ch = HASH
    · rw [if_pos hhash]
      refine resumes_skip hloaded ?_
      intro s₂ honly
      exact resumes_numeric_entity (honly.same_tok.2.trans hsaved₁)
    · rw [if_neg hhash]
      exact resumes_named_entity hsaved₁

/-- Recovering goes on with recovering. -/
theorem resumes_recover_entity (h : MidEntity s) :
    Resumes feed .endOfInput MidEntity (recoverEntity cfg) (recoverEntity cfg) s := by
  obtain ⟨hid, hsaved⟩ := h
  have hcase {m : Scan Bool}
      (hm : ∀ t, t.tokstate.id = s.tokstate.id → recoverEntity cfg t = m t)
      (hresumes : Resumes feed .endOfInput MidEntity m (recoverEntity cfg) s) :
      Resumes feed .endOfInput MidEntity (recoverEntity cfg) (recoverEntity cfg) s := by
    intro s' hstop
    obtain ⟨hmid, hgoes⟩ := hresumes s' ((hm s rfl).symm.trans hstop)
    exact ⟨hmid, fun more ↦ (hm (feed s more) rfl).trans (hgoes more)⟩
  cases hkind : s.tokstate.id with
  | start => exact absurd hkind hid.1
  | parsingKey => exact absurd hkind hid.2.1
  | parsingToken => exact absurd hkind hid.2.2
  | parsingEntity =>
      refine hcase ?_ (resumes_entity hsaved)
      intro t ht
      rw [recover_entity_eq, ht, hkind]
  | parsingNumericEntity =>
      refine hcase ?_ (resumes_numeric_entity hsaved)
      intro t ht
      rw [recover_entity_eq, ht, hkind]
  | parsingNumericBaseEntity =>
      refine hcase ?_ (resumes_numeric_base_entity hsaved)
      intro t ht
      rw [recover_entity_eq, ht, hkind]
  | parsingNamedEntity =>
      refine hcase ?_ (resumes_named_entity hsaved)
      intro t ht
      rw [recover_entity_eq, ht, hkind]

/-! ## Tokens -/

/-- A token or an entity of it is parsed, and no character is saved. -/
def MidToken (s : XMLScanner) : Prop :=
  (s.tokstate.id ≠ .start ∧ s.tokstate.id ≠ .parsingKey) ∧ s.tokstate.curchrSaved = 0

theorem Parsing.mid_token (h : Parsing .parsingToken s) : MidToken s := by
  refine ⟨?_, h.2⟩
  rw [h.1]
  decide

theorem MidEntity.mid_token (h : MidEntity s) : MidToken s := ⟨⟨h.1.1, h.1.2.1⟩, h.2⟩

/-- What follows on an entity of a token. -/
def behindEntity (parsed : Bool) : Scan (Option Bool) :=
  if parsed then do
    setTok fun tok ↦ tok.init .parsingToken
    return none
  else do
    setTok fun tok ↦ tok.init .start
    return some false

/-- A pass of the loop of `parseToken` that was interrupted goes on. -/
def tokenAgain (cfg : Setup) (isTok : IsTokenCharMap) : Scan (Option Bool) := do
  let id ← look fun s ↦ s.tokstate.id
  if id = .parsingToken then tokenPass cfg isTok
  else
    let parsed ← recoverEntity cfg
    behindEntity parsed

theorem token_again_pass {isTok : IsTokenCharMap} (h : s.tokstate.id = .parsingToken) :
    tokenAgain cfg isTok s = tokenPass cfg isTok s := by
  rw [tokenAgain, bind_look, if_pos h]

theorem token_again_entity {isTok : IsTokenCharMap} (h : s.tokstate.id ≠ .parsingToken) :
    tokenAgain cfg isTok s = (recoverEntity cfg >>= behindEntity) s := by
  rw [tokenAgain, bind_look, if_neg h]

theorem Local.behind_entity (parsed : Bool) : Local cfg (behindEntity parsed) :=
  .ite (.bind (.set_tok _) fun _ ↦ .pure _) (.bind (.set_tok _) fun _ ↦ .pure _)

theorem Local.token_again (isTok : IsTokenCharMap) : Local cfg (tokenAgain cfg isTok) := by
  refine .bind (.look fun _ _ ↦ rfl) ?_
  intro id
  exact .ite (.token_pass isTok) (.bind .recover_entity fun parsed ↦ .behind_entity parsed)

theorem Silent.behind_entity (parsed : Bool) : Silent (behindEntity parsed) :=
  .ite (.bind (.set_tok _) fun _ ↦ .pure _) (.bind (.set_tok _) fun _ ↦ .pure _)

/-- Decoding a character that is classified: where it is interrupted, the character is classified as
before. -/
theorem resumes_chr (hloaded : TextScanner.Loaded cfg.inputCharSet s.src)
    (hcur : s.src.cur = cfg.inputCharSet.achar s.src.buf) :
    Resumes feed .endOfInput
      (fun s' ↦ OnlyRead s s' ∧
        ∀ more, onSrc (TextScanner.control cfg.inputCharSet) (feed s' more) =
          .ok (controlCharMap s.src.cur) (feed s' more))
      (onSrc (TextScanner.chr cfg.inputCharSet)) (onSrc (TextScanner.chr cfg.inputCharSet)) s := by
  intro s' hstop
  obtain ⟨honly, hgoes⟩ := resumes_on_src (TextScanner.resumes_chr s.src) s' hstop
  obtain ⟨hstep, -⟩ := of_on_src_error hstop
  obtain ⟨hloaded', hsame, hcur'⟩ := TextScanner.chr_short hloaded hstep
  refine ⟨⟨honly, ?_⟩, hgoes⟩
  intro more
  rw [← hcur']
  refine on_src_ok (s := feed s' more) (TextScanner.classify_steady _ hloaded' ?_)
  show s'.src.cur = cfg.inputCharSet.achar s'.src.buf
  rw [hsame, hcur', hcur]

/-- Behind the code of a character a token pass is not short of input. -/
theorem resumes_code {code : UChar} {k : Scan (Option Bool)}
    (hloaded : TextScanner.Loaded cfg.inputCharSet s.src)
    (hagain : TextScanner.chr cfg.inputCharSet s.src = .ok code s.src) :
    Resumes feed .endOfInput stopped (do
      if ← push cfg code then
        onSrc (TextScanner.skip cfg.inputCharSet)
        return none
      else
        let code ← onSrc (TextScanner.chr cfg.inputCharSet)
        setTok fun tok ↦ { tok with curchrSaved := code }
        return some false : Scan (Option Bool)) k s := by
  refine resumes_silent cfg (.push code) (.push cfg code) ?_
  intro pushed s₁ _ hsrc
  have hloaded₁ : TextScanner.Loaded cfg.inputCharSet s₁.src := hsrc.symm ▸ hloaded
  cases pushed with
  | true => exact resumes_skip hloaded₁ fun s' _ ↦ resumes_last (.pure none)
  | false =>
      have hchr : onSrc (TextScanner.chr cfg.inputCharSet) s₁ = .ok code s₁ :=
        on_src_ok (hsrc.symm ▸ hagain)
      refine .behind (LocalAt.chr hloaded₁ : LocalAt cfg _ _).extends_input ?_ ?_
      · intro s' hstop
        exact nomatch hchr.symm.trans hstop
      · intro _ s' _
        exact resumes_last (.bind (.set_tok _) fun _ ↦ .pure _)

theorem resumes_token_pass (isTok : IsTokenCharMap) (h : Parsing .parsingToken s) :
    Resumes feed .endOfInput MidToken (tokenPass cfg isTok) (tokenAgain cfg isTok) s := by
  have hself (s' : XMLScanner) (more : List Byte) (honly : OnlyRead s s') :
      tokenAgain cfg isTok (feed s' more) = tokenPass cfg isTok (feed s' more) := by
    refine token_again_pass ?_
    rw [honly.tokstate_feed more]
    exact h.1
  refine .bind ((Local.control _ : Local cfg _).at_state s).extends_input
    (resumes_on_src (TextScanner.resumes_classify _ s.src)) ?_ ?_ ?_
  · intro s' honly
    exact (honly.same_tok.parsing h).mid_token
  · intro s' more honly
    rw [hself s' more honly]
    rfl
  · intro ch s₁ hcontrol
    obtain ⟨hread, honly⟩ := of_on_src_ok hcontrol
    have hloaded := (TextScanner.classify_keeps hread).1
    by_cases htok : isTok ch = true
    · rw [if_pos htok]
      obtain ⟨rfl, hsteady⟩ := TextScanner.classify_again controlCharMap hread
      have hcur : s₁.src.cur = cfg.inputCharSet.achar s₁.src.buf := by
        rw [TextScanner.classify_loaded _ hloaded] at hsteady
        exact (congrArg TextScanner.cur (EStateM.Result.ok.inj hsteady).2).symm
      refine .bind (LocalAt.chr hloaded : LocalAt cfg _ _).extends_input (resumes_chr hloaded hcur)
        ?_ ?_ ?_
      · rintro s' ⟨honly', -⟩
        exact ((OnlyRead.same_tok honly).trans honly'.same_tok).parsing h |>.mid_token
      · rintro s' more ⟨honly', hcontrol'⟩
        have hparsing := ((OnlyRead.same_tok honly).trans honly'.same_tok).parsing h
        have hagain : tokenAgain cfg isTok (feed s' more) = tokenPass cfg isTok (feed s' more) :=
          token_again_pass hparsing.1
        rw [hagain, tokenPass, bind_ok (hcontrol' more), hcur, if_pos htok]
      · intro code s₂ hchr
        obtain ⟨hstep, -⟩ := of_on_src_ok hchr
        exact resumes_code (TextScanner.chr_keeps hloaded hstep).1
          (TextScanner.chr_again hloaded hstep)
    · rw [if_neg htok]
      by_cases hamp : ch = .amp
      · rw [if_pos hamp]
        refine resumes_skip hloaded ?_
        intro s₂ honly₂
        have hparsing : Parsing .parsingToken s₂ :=
          (SameTok.trans (OnlyRead.same_tok honly) honly₂.same_tok).parsing h
        refine .bind ((Local.parse_entity : Local cfg _).at_state s₂).extends_input
          (resumes_entity hparsing.2) (fun s' hmid ↦ hmid.mid_token) ?_ ?_
        · intro s' more hmid
          exact (token_again_entity (s := feed s' more) hmid.1.2.2).symm
        · intro parsed s₃ _
          exact resumes_last (.behind_entity parsed)
      · rw [if_neg hamp]
        exact resumes_last (.bind (.set_tok _) fun _ ↦ .pure _)

/-- A pass that goes on, interrupted once more. -/
theorem resumes_token_again (isTok : IsTokenCharMap) (h : MidToken s) :
    Resumes feed .endOfInput MidToken (tokenAgain cfg isTok) (tokenAgain cfg isTok) s := by
  intro s' hstop
  by_cases hid : s.tokstate.id = .parsingToken
  · obtain ⟨hmid, hgoes⟩ :=
      resumes_token_pass isTok ⟨hid, h.2⟩ s' ((token_again_pass hid).symm.trans hstop)
    exact ⟨hmid, fun more ↦ (token_again_pass (s := feed s more) hid).trans (hgoes more)⟩
  · have hresumes : Resumes feed .endOfInput MidToken (recoverEntity cfg >>= behindEntity)
        (tokenAgain cfg isTok) s := by
      refine .bind ((Local.recover_entity : Local cfg _).at_state s).extends_input
        (resumes_recover_entity ⟨⟨h.1.1, h.1.2, hid⟩, h.2⟩) (fun _ hmid ↦ hmid.mid_token) ?_ ?_
      · intro t more hmid
        exact (token_again_entity (s := feed t more) hmid.1.2.2).symm
      · intro parsed t _
        exact resumes_last (.behind_entity parsed)
    obtain ⟨hmid, hgoes⟩ := hresumes s' ((token_again_entity hid).symm.trans hstop)
    exact ⟨hmid, fun more ↦ (token_again_entity (s := feed s more) hid).trans (hgoes more)⟩

/-- Behind an entity of a token the token goes on. -/
theorem behind_entity_rounds {parsed : Bool} (h : behindEntity parsed s = .ok none s') :
    Parsing .parsingToken s' := by
  cases parsed with
  | true =>
      obtain rfl := (EStateM.Result.ok.inj h).2
      exact ⟨rfl, rfl⟩
  | false => exact nomatch (EStateM.Result.ok.inj h).1

/-- What is printed leaves the token alone. -/
theorem push_keeps (cfg : Setup) (ch : UChar) (s : XMLScanner) :
    Ensures (XMLScanner.push cfg ch) s (fun pushed s' ↦ pushed = true → SameTok s s')
      fun _ _ ↦ True := by
  rcases print_cases cfg ch s with ⟨-, ⟨-, hprint⟩ | ⟨-, hprint⟩⟩ | ⟨-, hprint⟩
  · exact .bind (.of_ok hprint (.of_ok rfl fun _ ↦ ⟨rfl, rfl⟩))
  · exact .bind (.of_ok hprint (.of_ok rfl fun hpushed ↦ nomatch hpushed))
  · exact .bind (.of_error hprint trivial)

/-- A pass that goes round again leaves the token where it was. -/
theorem token_pass_rounds (cfg : Setup) (isTok : IsTokenCharMap)
    (hparsing : Parsing .parsingToken s) :
    Ensures (tokenPass cfg isTok) s (fun result s' ↦ result = none → Parsing .parsingToken s')
      fun _ _ ↦ True := by
  refine .bind ((KeepsTok.on_src _ s).mono ?_ fun _ _ h ↦ h)
  intro ch s₁ hsame
  have hparsing₁ := hsame.parsing hparsing
  by_cases htok : isTok ch = true
  · rw [if_pos htok]
    refine .bind ((KeepsTok.on_src _ s₁).mono ?_ fun _ _ h ↦ h)
    intro code s₂ hsame₂
    have hparsing₂ := hsame₂.parsing hparsing₁
    refine .bind ((push_keeps cfg code s₂).mono ?_ fun _ _ h ↦ h)
    intro pushed s₃ hpushed
    cases pushed with
    | true =>
        refine .bind ((KeepsTok.on_src _ s₃).mono ?_ fun _ _ h ↦ h)
        intro _ s₄ hsame₄
        exact .of_ok rfl fun _ ↦ hsame₄.parsing ((hpushed rfl).parsing hparsing₂)
    | false =>
        refine .bind ((KeepsTok.on_src _ s₃).mono ?_ fun _ _ h ↦ h)
        intro _ s₄ _
        exact .of_ok rfl fun hnone ↦ nomatch hnone
  · rw [if_neg htok]
    by_cases hamp : ch = .amp
    · rw [if_pos hamp]
      refine .bind ((KeepsTok.on_src _ s₁).mono ?_ fun _ _ h ↦ h)
      intro _ s₂ _
      cases hparse : parseEntity cfg s₂ with
      | error e s₃ => exact .of_error (bind_error hparse) trivial
      | ok parsed s₃ =>
          refine .bind (.of_ok hparse ?_)
          cases hbehind : behindEntity parsed s₃ with
          | ok result s₄ =>
              refine .of_ok hbehind ?_
              rintro rfl
              exact behind_entity_rounds hbehind
          | error e s₄ => exact .of_error hbehind trivial
    · rw [if_neg hamp]
      exact .of_ok rfl fun hnone ↦ nomatch hnone

theorem token_again_rounds {isTok : IsTokenCharMap} (hmid : MidToken s)
    (h : tokenAgain cfg isTok s = .ok none s') : Parsing .parsingToken s' := by
  by_cases hid : s.tokstate.id = .parsingToken
  · exact (token_pass_rounds cfg isTok ⟨hid, hmid.2⟩).ok ((token_again_pass hid).symm.trans h) rfl
  · replace h : (recoverEntity cfg >>= behindEntity) s = .ok none s' :=
      (token_again_entity hid).symm.trans h
    cases hrecover : recoverEntity cfg s with
    | error e t =>
        rw [bind_error hrecover] at h
        exact nomatch h
    | ok parsed t =>
        rw [bind_ok hrecover] at h
        exact behind_entity_rounds h

variable (cfg) in
/-- Recovering in the midst of an entity. -/
theorem parse_token_recover_mid (hmid : MidEntity s) :
    parseTokenRecover cfg s = (do
      let rt ← recoverEntity cfg
      setTok fun tok ↦ tok.init .parsingToken
      return rt : Scan Bool) s := by
  have hentity : ¬ (s.tokstate.id = .start ∨ s.tokstate.id = .parsingKey ∨
      s.tokstate.id = .parsingToken) := by
    rintro (h | h | h)
    · exact hmid.1.1 h
    · exact hmid.1.2.1 h
    · exact hmid.1.2.2 h
  have hsaved : ¬ s.tokstate.curchrSaved ≠ 0 := fun h ↦ h hmid.2
  rw [parseTokenRecover, bind_look, if_neg hsaved, recoverRest, bind_look, if_neg hentity]

/-- In the midst of a token `parseToken` goes on with the pass that was interrupted. -/
theorem parse_token_mid {isTok : IsTokenCharMap} (hmid : MidToken s) :
    parseToken cfg isTok s =
      loopFrom .endless left (tokenPass cfg isTok) (tokenAgain cfg isTok) s := by
  rw [parseToken, bind_look, if_neg hmid.1.1]
  by_cases hid : s.tokstate.id = .parsingToken
  · have hagain : tokenAgain cfg isTok s = tokenPass cfg isTok s := token_again_pass hid
    rw [if_neg (not_not.mpr hid), tokenLoop, loop_eq (token_shrinks isTok)]
    show EStateM.bind _ _ s = EStateM.bind _ _ s
    rw [EStateM.bind, EStateM.bind, hagain]
  · have hagain : tokenAgain cfg isTok s = (recoverEntity cfg >>= behindEntity) s :=
      token_again_entity hid
    have hrecover := parse_token_recover_mid cfg ⟨⟨hmid.1.1, hmid.1.2, hid⟩, hmid.2⟩
    rw [if_pos hid]
    cases hentity : recoverEntity cfg s with
    | error e t =>
        rw [bind_error hentity] at hrecover hagain
        rw [bind_error hrecover, loopFrom, bind_error hagain]
    | ok parsed t =>
        rw [bind_ok hentity] at hrecover hagain
        rw [bind_ok (hrecover.trans rfl)]
        cases parsed with
        | true =>
            rw [loopFrom, bind_ok (hagain.trans rfl)]
            rfl
        | false =>
            rw [loopFrom, bind_ok (hagain.trans rfl)]
            rfl

/-- `parseToken` goes on where it was interrupted. -/
theorem resumes_parse_token {isTok : IsTokenCharMap}
    (hs : (s.tokstate.id = .start ∧ s.tokstate.curchrSaved = 0) ∨ MidToken s) :
    Resumes feed .endOfInput MidToken (parseToken cfg isTok) (parseToken cfg isTok) s := by
  have hloop {t : XMLScanner} (hparsing : Parsing .parsingToken t) :
      Resumes feed .endOfInput MidToken (tokenLoop cfg isTok)
        (loopFrom .endless left (tokenPass cfg isTok) (tokenAgain cfg isTok)) t :=
    .loop_from (token_shrinks isTok) (Local.token_pass isTok).orderly.extends_input
      (Parsing .parsingToken) (fun u u' hu h ↦ (token_pass_rounds cfg isTok hu).ok h rfl)
      (fun u hu ↦ resumes_token_pass isTok hu) hparsing
  rcases hs with ⟨hid, hsaved⟩ | hmid
  · let t : XMLScanner := { s with tokstate := { s.tokstate with id := .parsingToken } }
    have hstart : parseToken cfg isTok s = tokenLoop cfg isTok t := by
      rw [parseToken, bind_look, if_pos hid]
      rfl
    have hmore (more : List Byte) :
        parseToken cfg isTok (feed s more) = tokenLoop cfg isTok (feed t more) := by
      rw [parseToken, bind_look, if_pos (show (feed s more).tokstate.id = .start from hid)]
      rfl
    intro s' hstop
    obtain ⟨hmid, hgoes⟩ := hloop (t := t) ⟨rfl, hsaved⟩ s' (hstart.symm.trans hstop)
    refine ⟨hmid, ?_⟩
    intro more
    rw [hmore, hgoes, parse_token_mid (s := feed s' more) hmid]
  · intro s' hstop
    obtain ⟨hmid', hgoes⟩ := Resumes.loop_midst (token_shrinks isTok)
      (Local.token_pass isTok).orderly.extends_input (Parsing .parsingToken)
      (fun u u' hu h ↦ (token_pass_rounds cfg isTok hu).ok h rfl)
      (fun u hu ↦ resumes_token_pass isTok hu)
      ((Local.token_again isTok).at_state s).extends_input (resumes_token_again isTok hmid)
      (fun u h ↦ token_again_rounds hmid h) s' ((parse_token_mid hmid).symm.trans hstop)
    refine ⟨hmid', ?_⟩
    intro more
    rw [parse_token_mid (s := feed s more) hmid, hgoes, parse_token_mid (s := feed s' more) hmid']

end XMLScanner

end Smerp.Textwolf
