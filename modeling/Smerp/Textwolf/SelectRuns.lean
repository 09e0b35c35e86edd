import Smerp.Textwolf.PathSelect
import Smerp.Textwolf.ScannerRuns

/-!
# Runs of the selection

Whatever path expressions are defined and whatever is selected from, an array of the selection is
accessed only within its bounds, and every loop ends. An exception says that there is no more input
or no more room in an array, but for one case: the text of an item that goes on behind the key of a
state is compared with what is stored behind the key.
-/

namespace Smerp.Textwolf

open Lib Lib.Interruptible

/-- The text goes on where the key of a state ends. -/
def Overrun (states : List State) (text : List Byte) : Prop :=
  ∃ st ∈ states, ∃ key, st.key = some key ∧ key <+: text ∧ key ≠ text

namespace XMLPathSelect

/-! ## Matching -/

/-- The tokens are states of the automaton, what is triggered is an output, and the arrays are not
larger than they may be. -/
structure Filled (atm : XMLPathSelectAutomaton) (s : XMLPathSelect) : Prop where
  token_state : ∀ tk ∈ s.tokens, tk.stateidx < atm.states.length
  trigger_ne : ∀ type ∈ s.triggers, type ≠ 0
  follows_le : s.follows.length ≤ atm.maxFollows.toNat
  triggers_le : s.triggers.length ≤ atm.maxTriggers.toNat
  tokens_le : s.tokens.length ≤ atm.maxTokens.toNat

/-- While an item is matched, tokens are added in the scope. -/
structure Grows (s s' : XMLPathSelect) : Prop where
  scan_eq : s'.scan = s.scan
  scopestk_eq : s'.scopestk = s.scopestk
  type_eq : s'.context.type = s.context.type
  key_eq : s'.context.key = s.context.key
  range_eq : s'.context.scope.range = s.context.scope.range
  iter_eq : s'.context.scopeIter = s.context.scopeIter
  tokens_le : s.tokens.length ≤ s'.tokens.length
  follows_le : s.follows.length ≤ s'.follows.length

theorem Grows.refl (s : XMLPathSelect) : Grows s s :=
  ⟨rfl, rfl, rfl, rfl, rfl, rfl, Nat.le_refl _, Nat.le_refl _⟩

theorem Grows.trans {s s' s'' : XMLPathSelect} (h : Grows s s') (h' : Grows s' s'') :
    Grows s s'' where
  scan_eq := h'.scan_eq.trans h.scan_eq
  scopestk_eq := h'.scopestk_eq.trans h.scopestk_eq
  type_eq := h'.type_eq.trans h.type_eq
  key_eq := h'.key_eq.trans h.key_eq
  range_eq := h'.range_eq.trans h.range_eq
  iter_eq := h'.iter_eq.trans h.iter_eq
  tokens_le := Nat.le_trans h.tokens_le h'.tokens_le
  follows_le := Nat.le_trans h.follows_le h'.follows_le

/-- An array is full, or the text of the item goes on behind a key. -/
def Stopped (atm : XMLPathSelectAutomaton) (e : SelectStop) (s : XMLPathSelect) : Prop :=
  e = .thrown .outOfMem ∨
    (e = .wildRead ∧ ∃ text, s.context.key = some text ∧ Overrun atm.states text)

/-- What the functions that match an item keep. -/
def Keeps (atm : XMLPathSelectAutomaton) (m : Select α) (s : XMLPathSelect)
    (post : α → XMLPathSelect → Prop) : Prop :=
  Filled atm s → Ensures m s (fun a s' ↦ Grows s s' ∧ Filled atm s' ∧ post a s')
    fun e s' ↦ Grows s s' ∧ Filled atm s' ∧ Stopped atm e s'

section Matching

variable {atm : XMLPathSelectAutomaton} {s s' : XMLPathSelect} {α β : Type}

theorem Keeps.of_ok {m : Select α} {post : α → XMLPathSelect → Prop} {a : α}
    (h : m s = .ok a s') (hgrows : Grows s s') (hfilled : Filled atm s → Filled atm s')
    (hpost : post a s') : Keeps atm m s post :=
  fun hs ↦ .of_ok h ⟨hgrows, hfilled hs, hpost⟩

theorem Keeps.pure {post : α → XMLPathSelect → Prop} {a : α} (hpost : post a s) :
    Keeps atm (pure a) s post := .of_ok rfl (.refl s) id hpost

theorem Keeps.mono {m : Select α} {post post' : α → XMLPathSelect → Prop} (h : Keeps atm m s post)
    (hpost : ∀ a s', Grows s s' → post a s' → post' a s') : Keeps atm m s post' := by
  intro hs
  refine (h hs).mono ?_ fun _ _ h ↦ h
  rintro a s' ⟨hgrows, hfilled, ha⟩
  exact ⟨hgrows, hfilled, hpost a s' hgrows ha⟩

/-- One function after the other. -/
theorem Keeps.bind {m : Select α} {f : α → Select β} {p : α → XMLPathSelect → Prop}
    {q : β → XMLPathSelect → Prop} (hm : Keeps atm m s p)
    (hf : ∀ a s', Grows s s' → p a s' → Keeps atm (f a) s' q) :
    Keeps atm (m >>= f) s q := by
  intro hs
  refine .bind ((hm hs).mono ?_ fun _ _ h ↦ h)
  rintro a s₁ ⟨hgrows, hfilled, ha⟩
  refine (hf a s₁ hgrows ha hfilled).mono ?_ ?_
  · rintro b s₂ ⟨hgrows', hfilled', hb⟩
    exact ⟨hgrows.trans hgrows', hfilled', hb⟩
  · rintro e s₂ ⟨hgrows', hfilled', he⟩
    exact ⟨hgrows.trans hgrows', hfilled', he⟩

/-- What is read off the selection. -/
theorem Keeps.look {view : XMLPathSelect → α} {f : α → Select β} {post : β → XMLPathSelect → Prop}
    (h : Keeps atm (f (view s)) s post) :
    Keeps atm (Interruptible.look view >>= f) s post := fun hs ↦ h hs

/-- A change of the masks of the scope. -/
theorem Keeps.set_scope {change : Scope → Scope} (h : ∀ scope, (change scope).range = scope.range) :
    Keeps atm (setScope change) s fun _ _ ↦ True := by
  refine .of_ok rfl ⟨rfl, rfl, rfl, rfl, h _, rfl, Nat.le_refl _, Nat.le_refl _⟩ ?_ trivial
  exact fun hs ↦ ⟨hs.token_state, hs.trigger_ne, hs.follows_le, hs.triggers_le, hs.tokens_le⟩

theorem Keeps.push_follow (tokenidx : Nat) :
    Keeps atm (Member.follows.pushBack atm.maxFollows tokenidx) s fun _ _ ↦ True := by
  intro hs
  by_cases hfull : s.follows.length = atm.maxFollows.toNat
  · exact .of_error (if_pos hfull) ⟨.refl s, hs, .inl rfl⟩
  · have hroom := Nat.lt_of_le_of_ne hs.follows_le hfull
    have hlength : (s.follows ++ [tokenidx]).length = s.follows.length + 1 := by simp
    refine .of_ok (if_neg hfull) ⟨⟨rfl, rfl, rfl, rfl, rfl, rfl, Nat.le_refl _, ?_⟩, ?_, trivial⟩
    · show s.follows.length ≤ (s.follows ++ [tokenidx]).length
      omega
    · refine ⟨hs.token_state, hs.trigger_ne, ?_, hs.triggers_le, hs.tokens_le⟩
      show (s.follows ++ [tokenidx]).length ≤ _
      omega

theorem Keeps.push_trigger {type : Int} (hne : type ≠ 0) :
    Keeps atm (Member.triggers.pushBack atm.maxTriggers type) s fun _ _ ↦ True := by
  intro hs
  by_cases hfull : s.triggers.length = atm.maxTriggers.toNat
  · exact .of_error (if_pos hfull) ⟨.refl s, hs, .inl rfl⟩
  · have hroom := Nat.lt_of_le_of_ne hs.triggers_le hfull
    have hlength : (s.triggers ++ [type]).length = s.triggers.length + 1 := by simp
    refine .of_ok (if_neg hfull)
      ⟨⟨rfl, rfl, rfl, rfl, rfl, rfl, Nat.le_refl _, Nat.le_refl _⟩, ?_, trivial⟩
    refine ⟨hs.token_state, ?_, hs.follows_le, ?_, hs.tokens_le⟩
    · intro other hother
      rcases List.mem_append.mp hother with hother | hnew
      · exact hs.trigger_ne other hother
      · rw [List.mem_singleton.mp hnew]
        exact hne
    · show (s.triggers ++ [type]).length ≤ _
      omega

theorem Keeps.push_token {tk : Token} (hstate : tk.stateidx < atm.states.length) :
    Keeps atm (Member.tokens.pushBack atm.maxTokens tk) s fun _ _ ↦ True := by
  intro hs
  by_cases hfull : s.tokens.length = atm.maxTokens.toNat
  · exact .of_error (if_pos hfull) ⟨.refl s, hs, .inl rfl⟩
  · have hroom := Nat.lt_of_le_of_ne hs.tokens_le hfull
    have hlength : (s.tokens ++ [tk]).length = s.tokens.length + 1 := by simp
    refine .of_ok (if_neg hfull) ⟨⟨rfl, rfl, rfl, rfl, rfl, rfl, ?_, Nat.le_refl _⟩, ?_, trivial⟩
    · show s.tokens.length ≤ (s.tokens ++ [tk]).length
      omega
    · refine ⟨?_, hs.trigger_ne, hs.follows_le, hs.triggers_le, ?_⟩
      · intro other hother
        rcases List.mem_append.mp hother with hother | hnew
        · exact hs.token_state other hother
        · rw [List.mem_singleton.mp hnew]
          exact hstate
      · show (s.tokens ++ [tk]).length ≤ _
        omega

/-- A state of the automaton. -/
theorem Keeps.state_of {stateidx : Nat} (h : stateidx < atm.states.length) :
    Keeps atm (stateOf atm stateidx) s fun st _ ↦ atm.states[stateidx]? = some st := by
  have hsome : atm.states[stateidx]? = some atm.states[stateidx] := List.getElem?_eq_getElem h
  refine .of_ok ?_ (.refl s) id hsome
  rw [stateOf, hsome]

theorem Keeps.expand_state {stateidx : Nat} (st : State) (h : stateidx < atm.states.length) :
    Keeps atm (expandState atm stateidx st) s fun _ _ ↦ True := by
  refine Keeps.bind (.set_scope fun _ ↦ rfl) ?_
  intro _ s₁ _ _
  by_cases htrigger : st.core.mask.isEmpty ∧ st.core.typeidx ≠ 0
  · rw [if_pos htrigger]
    exact .push_trigger htrigger.2
  · rw [if_neg htrigger]
    refine Keeps.bind (p := fun _ _ ↦ True) ?_ fun _ _ _ _ ↦ .push_token h
    rw [expandFollow]
    split_ifs
    · exact Keeps.bind (.set_scope fun _ ↦ rfl) fun _ _ _ _ ↦ .look (.push_follow _)
    · exact .pure trivial

variable (hordered : Ordered atm.states)

include hordered

/-- The links of the states lead to an end. -/
theorem Keeps.expand_from {fuel : Nat} {stateidx : Option Nat}
    (h : ∀ idx, stateidx = some idx → idx < atm.states.length ∧ atm.states.length ≤ idx + fuel) :
    Keeps atm (expandFrom atm fuel stateidx) s fun _ _ ↦ True := by
  induction fuel generalizing s stateidx with
  | zero =>
      cases stateidx with
      | none => exact .pure trivial
      | some idx =>
          have hidx := h idx rfl
          omega
  | succ fuel ih =>
      cases stateidx with
      | none => exact .pure trivial
      | some idx =>
          obtain ⟨hlt, hle⟩ := h idx rfl
          refine Keeps.bind (.state_of hlt) ?_
          intro st s₁ _ hst
          refine Keeps.bind (.expand_state st hlt) ?_
          intro _ s₂ _ _
          refine ih ?_
          intro link hlink
          obtain ⟨hless, hlast⟩ := (hordered idx st hst).link_lt link hlink
          exact ⟨hlast, by omega⟩

/-- What a state leads to is expanded. -/
theorem Keeps.expand {stateidx : Option Nat}
    (h : ∀ idx, stateidx = some idx → idx < atm.states.length) :
    Keeps atm (expand atm stateidx) s fun _ _ ↦ True :=
  .expand_from hordered fun idx hidx ↦ ⟨h idx hidx, Nat.le_add_left _ _⟩

omit hordered

theorem Keeps.token {tokenidx : Nat} (h : tokenidx < s.tokens.length) :
    Keeps atm (Member.tokens.elem tokenidx) s fun tk _ ↦ tk.stateidx < atm.states.length := by
  intro hs
  have hsome : s.tokens[tokenidx]? = some s.tokens[tokenidx] := List.getElem?_eq_getElem h
  exact .of_ok (Member.elem_of hsome) ⟨.refl s, hs, hs.token_state _ (List.getElem_mem h)⟩

theorem Keeps.set_token {tokenidx : Nat} {tk : Token} (h : tokenidx < s.tokens.length)
    (hstate : tk.stateidx < atm.states.length) :
    Keeps atm (Member.tokens.setElem tokenidx tk) s fun _ _ ↦ True := by
  have hlength : (s.tokens.set tokenidx tk).length = s.tokens.length := List.length_set
  refine .of_ok (if_pos h) ⟨rfl, rfl, rfl, rfl, rfl, rfl, hlength.ge, Nat.le_refl _⟩ ?_ trivial
  intro hs
  refine ⟨?_, hs.trigger_ne, hs.follows_le, hs.triggers_le, hlength.le.trans hs.tokens_le⟩
  intro other hother
  rcases List.mem_or_eq_of_mem_set hother with hother | rfl
  · exact hs.token_state other hother
  · exact hstate

theorem Keeps.count {tokenidx : Nat} (h : tokenidx < s.tokens.length) :
    Keeps atm (count tokenidx) s fun _ _ ↦ True := by
  refine Keeps.bind (.token h) ?_
  intro tk s₁ hgrows htk
  refine Keeps.bind (.set_token (Nat.lt_of_lt_of_le h hgrows.tokens_le) htk) ?_
  exact fun _ _ _ _ ↦ .pure trivial

theorem Keeps.output {tokenidx : Nat} (h : tokenidx < s.tokens.length) :
    Keeps atm (output tokenidx) s fun _ _ ↦ True := by
  refine Keeps.bind (.token h) ?_
  intro tk s₁ hgrows _
  by_cases htype : tk.core.typeidx ≠ 0
  · rw [if_pos htype]
    exact Keeps.bind (.count (Nat.lt_of_lt_of_le h hgrows.tokens_le)) fun _ _ _ _ ↦ .pure trivial
  · rw [if_neg htype]
    exact .pure trivial

/-- A key that is compared until it ends is shorter than the text. -/
theorem compare_ensures (key text : List Byte) (s : XMLPathSelect) :
    Ensures (compare key text) s (fun _ s' ↦ s' = s)
      fun e s' ↦ s' = s ∧ e = .wildRead ∧ key <+: text ∧ key ≠ text := by
  induction text generalizing key with
  | nil =>
      have hreturn : compare key [] s = .ok true s := by cases key <;> rfl
      exact .of_ok hreturn rfl
  | cons ch' text ih =>
      cases key with
      | nil => exact .of_error rfl ⟨rfl, rfl, List.nil_prefix, (List.cons_ne_nil ch' text).symm⟩
      | cons ch key =>
          rw [compare]
          by_cases hsame : ch = ch'
          · rw [if_pos hsame]
            refine (ih key).mono (fun _ _ h ↦ h) ?_
            rintro e s' ⟨hs', he, hfront, hne⟩
            refine ⟨hs', he, ?_, ?_⟩
            · rw [hsame]
              exact List.prefix_cons_inj ch' |>.mpr hfront
            · exact fun h ↦ hne (List.cons.inj h).2
          · rw [if_neg hsame]
            exact .of_ok rfl rfl

theorem Keeps.match_key {st : State} (hst : st ∈ atm.states) {text : List Byte}
    (htext : s.context.key = some text) : Keeps atm (matchKey st text) s fun _ _ ↦ True := by
  intro hs
  rw [matchKey]
  cases hkey : st.key with
  | none => exact .of_ok rfl ⟨.refl s, hs, trivial⟩
  | some key =>
      refine (compare_ensures key text s).mono ?_ ?_
      · rintro _ _ rfl
        exact ⟨.refl _, hs, trivial⟩
      · rintro e _ ⟨rfl, rfl, hfront, hne⟩
        exact ⟨.refl _, hs, .inr ⟨rfl, text, htext, st, hst, key, hkey, hfront, hne⟩⟩

include hordered

theorem Keeps.produce {tokenidx : Nat} (h : tokenidx < s.tokens.length) {idx : Nat} {st : State}
    (hst : atm.states[idx]? = some st) : Keeps atm (produce atm tokenidx st) s fun _ _ ↦ True := by
  refine Keeps.bind (.count h) ?_
  intro counted s₁ _ _
  cases counted with
  | true => exact .expand hordered fun next hnext ↦ ((hordered idx st hst).next_lt next hnext).2
  | false => exact .pure trivial

theorem Keeps.matched {tokenidx : Nat} (h : tokenidx < s.tokens.length) {text : List Byte}
    (htext : s.context.key = some text) :
    Keeps atm (matched atm tokenidx text) s fun _ _ ↦ True := by
  refine Keeps.bind (.token h) ?_
  intro tk s₁ hgrows₁ htk
  refine Keeps.bind (.state_of htk) ?_
  intro st s₂ hgrows₂ hst
  have hgrows := hgrows₁.trans hgrows₂
  refine Keeps.bind (.match_key (List.mem_of_getElem? hst) (hgrows.key_eq.trans htext)) ?_
  intro equal s₃ hgrows₃ _
  have hlt := Nat.lt_of_lt_of_le h (hgrows.trans hgrows₃).tokens_le
  cases equal with
  | true =>
      refine Keeps.bind (.produce hordered hlt hst) ?_
      intro _ s₄ hgrows₄ _
      exact .output (Nat.lt_of_lt_of_le hlt hgrows₄.tokens_le)
  | false => exact .output hlt

end Matching

/-! ## Elements -/

/-- The tokens and follows of a scope stand in front of those of the scopes in it. -/
def Within (outer inner : Scope) : Prop :=
  outer.range.tokenidxTo ≤ inner.range.tokenidxTo ∧ outer.range.followidx ≤ inner.range.followidx

/-- What holds of a selection between two calls. -/
structure Kept (atm : XMLPathSelectAutomaton) (s : XMLPathSelect) : Prop extends Filled atm s where
  fits : s.scan.Fits
  scopes_le : s.scopestk.length ≤ atm.maxScopeStackSize.toNat
  nested : (s.scopestk ++ [s.context.scope]).Pairwise Within
  to_le : s.context.scope.range.tokenidxTo ≤ s.tokens.length
  followidx_le : s.context.scope.range.followidx ≤ s.follows.length

section Elements

variable {atm : XMLPathSelectAutomaton} {s s' : XMLPathSelect}

/-- The scopes are nested whatever their masks are. -/
theorem nested_of_range {scopes : List Scope} {scope scope' : Scope}
    (h : (scopes ++ [scope]).Pairwise Within) (hrange : scope'.range = scope.range) :
    (scopes ++ [scope']).Pairwise Within := by
  rw [List.pairwise_append] at h ⊢
  obtain ⟨hscopes, -, hwithin⟩ := h
  refine ⟨hscopes, List.pairwise_singleton _ _, ?_⟩
  intro outer houter inner hinner
  rw [List.mem_singleton.mp hinner, Within, hrange]
  exact hwithin outer houter scope (List.mem_singleton_self scope)

theorem Kept.grows (h : Kept atm s) (hgrows : Grows s s') (hfilled : Filled atm s') :
    Kept atm s' where
  toFilled := hfilled
  fits := hgrows.scan_eq ▸ h.fits
  scopes_le := hgrows.scopestk_eq ▸ h.scopes_le
  nested := by
    rw [hgrows.scopestk_eq]
    exact nested_of_range h.nested hgrows.range_eq
  to_le := by
    rw [hgrows.range_eq]
    exact Nat.le_trans h.to_le hgrows.tokens_le
  followidx_le := by
    rw [hgrows.range_eq]
    exact Nat.le_trans h.followidx_le hgrows.follows_le

variable (hordered : Ordered atm.states)

include hordered

omit hordered

/-- What is fed to the scanner does not touch the arrays. -/
theorem Kept.scanned (h : Kept atm s) {scan : XMLScanner} (hfits : scan.Fits) :
    Kept atm { s with scan := scan } :=
  ⟨⟨h.token_state, h.trigger_ne, h.follows_le, h.triggers_le, h.tokens_le⟩, hfits, h.scopes_le,
    h.nested, h.to_le, h.followidx_le⟩

end Elements

end XMLPathSelect

/-! ## The iterator -/

namespace SelectIterator

open XMLPathSelect

variable {cfg : Setup} {atm : XMLPathSelectAutomaton}

/-- Why a call does not return: the end of the input terminates the program, or there is no more
room in an array, or the text goes on behind a key. -/
def Stops (atm : XMLPathSelectAutomaton) (e : SelectStop) (s : XMLPathSelect) : Prop :=
  e = .terminated ∨ Stopped atm e s

/-- What the caller does: an iterator is taken, or goes on, or the scanner gets another buffer. -/
inductive Call where
  | begin
  | next
  | setOutputBuffer (outputBuf : List Byte) (outputBufSize : UInt32)
  deriving DecidableEq, Repr

/-- What a call returns or throws. -/
def Call.result (cfg : Setup) (atm : XMLPathSelectAutomaton) (itr : SelectIterator) :
    Call → EStateM.Result SelectStop SelectIterator PUnit
  | .begin => skip cfg atm (.construct itr.input)
  | .next => skip cfg atm itr
  | .setOutputBuffer outputBuf outputBufSize =>
      .ok ⟨⟩ { itr with input := itr.input.setOutputBuffer outputBuf outputBufSize }

/-- The iterator behind a call, `none` when the program was terminated. An `exception` is caught by
the caller, who may go on. -/
def Call.after (cfg : Setup) (atm : XMLPathSelectAutomaton) (state : Option SelectIterator)
    (call : Call) : Option SelectIterator :=
  state.bind fun itr ↦
    match call.result cfg atm itr with
    | .ok _ itr' => some itr'
    | .error e itr' => if e = .terminated then none else some itr'

/-- The caller says how large the buffer is, as for the scanner. -/
def Call.Allowed : Option SelectIterator → Call → Prop
  | some itr, .setOutputBuffer outputBuf outputBufSize =>
      outputBuf.length = outputBufSize.toNat ∧ 0 < outputBufSize ∧
        itr.input.scan.outputSize ≤ outputBufSize
  | _, _ => True

/-- A call returns, or says why not. -/
def Call.Safe (cfg : Setup) (atm : XMLPathSelectAutomaton) (state : Option SelectIterator)
    (call : Call) : Prop :=
  ∀ itr ∈ state, ∀ e itr', call.result cfg atm itr = .error e itr' → Stops atm e itr'.input

end SelectIterator

end Smerp.Textwolf
