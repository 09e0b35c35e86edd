import Smerp.Textwolf.PathAutomaton
import Smerp.Textwolf.Requests

/-!
# The selection of path expressions

`XMLPathSelect` of `examples/xmlselect/textwolf.hpp`. The items of the scanner are matched with the
tokens of the scope, which are states of the automaton that wait for an item. A tag that is opened
begins a scope, and the one that closes it restores the scope around it.
-/

namespace Smerp.Textwolf

open Lib Lib.Interruptible

namespace XMLScanner

/-! ## Items use up input -/

variable {cfg : Setup} {s s' : XMLScanner}

/-- Where the token of a state ends. -/
theorem act_ends {op : STMAction} {isTok : IsTokenCharMap} (mask : UInt16) (arg : ElementType)
    (hdef : tokenDefs op = some isTok) (s : XMLScanner) :
    Ensures (act cfg mask (some (op, arg))) s
      (fun acted s' ↦ ∀ rt, acted = .goesOn rt → EndsToken cfg isTok s') fun _ _ ↦ True := by
  have hend (rt : Bool) (s₁ : XMLScanner) (hread : rt = true → EndsToken cfg isTok s₁) :
      Ensures (tokenEnd cfg arg rt) s₁
        (fun acted s' ↦ ∀ rt, acted = .goesOn rt → EndsToken cfg isTok s') fun _ _ ↦ True := by
    cases rt with
    | false => exact .of_ok rfl fun rt hrt ↦ nomatch hrt
    | true =>
        obtain ⟨hloaded, hchar, hamp⟩ := hread rfl
        rcases print_cases cfg 0 s₁ with ⟨-, ⟨-, hprint⟩ | ⟨-, hprint⟩⟩ | ⟨-, hprint⟩
        · exact .bind (.of_ok hprint (.of_ok rfl fun _ _ ↦ ⟨hloaded, hchar, hamp⟩))
        · exact .bind (.of_ok hprint (.of_ok rfl fun _ _ ↦ ⟨hloaded, hchar, hamp⟩))
        · exact .bind (.of_error hprint trivial)
  by_cases hmask : inMask mask arg = true
  · rw [act_read hdef hmask]
    refine .bind ((parse_token_returns cfg isTok s).mono ?_ fun _ _ h ↦ h)
    exact fun rt s₁ hread ↦ hend rt s₁ fun htrue ↦ (hread htrue).2
  · rw [act_pass_over hdef hmask]
    refine .bind ((skip_token_returns (token_defs_any hdef) s).mono ?_ fun _ _ h ↦ h)
    exact fun rt s₁ hskipped ↦ hend rt s₁ fun _ ↦ hskipped.2

/-- The action of a state returns at once at the end or with an error only. -/
theorem act_returned {action : Option (STMAction × ElementType)} {mask : UInt16} {rt : ElementType}
    (h : act cfg mask action s = .ok (.returns rt) s') : rt = .exit ∨ rt = .errorOccurred := by
  cases action with
  | none => exact nomatch (EStateM.Result.ok.inj h).1
  | some opt =>
      obtain ⟨op, arg⟩ := opt
      cases hdef : tokenDefs op with
      | some isTok =>
          have hend {rt' : Bool} {s₁ : XMLScanner}
              (h : tokenEnd cfg arg rt' s₁ = .ok (.returns rt) s') : rt = .errorOccurred := by
            cases rt' with
            | false => exact (Acted.returns.inj (EStateM.Result.ok.inj h).1).symm
            | true =>
                cases hprint : print cfg 0 s₁ with
                | error e s₂ => exact nomatch (bind_error hprint).symm.trans h
                | ok nn s₂ =>
                    rw [tokenEnd, if_pos rfl, bind_ok hprint] at h
                    have hlast := (EStateM.Result.ok.inj h).1
                    split_ifs at hlast
                    exact (Acted.returns.inj hlast).symm
          by_cases hmask : inMask mask arg = true
          · rw [act_read hdef hmask] at h
            cases hparse : parseToken cfg isTok s with
            | error e s₁ => exact nomatch (bind_error hparse).symm.trans h
            | ok rt' s₁ => exact .inr (hend ((bind_ok hparse).symm.trans h))
          · rw [act_pass_over hdef hmask] at h
            cases hskip : skipToken cfg isTok s with
            | error e s₁ => exact nomatch (bind_error hskip).symm.trans h
            | ok rt' s₁ => exact .inr (hend ((bind_ok hskip).symm.trans h))
      | none =>
          cases hstr : stringDefs op with
          | some str =>
              rw [act_key hdef hstr] at h
              cases hexpect : expectStr cfg str s with
              | error e s₁ => exact nomatch (bind_error hexpect).symm.trans h
              | ok rt' s₁ =>
                  rw [bind_ok hexpect] at h
                  have hlast := (EStateM.Result.ok.inj h).1
                  split_ifs at hlast
                  exact .inr (Acted.returns.inj hlast).symm
          | none =>
              rw [act_plain hdef hstr] at h
              have hlast := (EStateM.Result.ok.inj h).1
              split_ifs at hlast
              exact .inl (Acted.returns.inj hlast).symm

/-- Behind a word there is a character that the state goes on with. -/
theorem token_goes_on {state : STMState}
    (haction : (statemachine state).action = some (.returnToken, .content))
    {cls : ControlCharacter} (hchar : isContentChar cls = false) (hamp : cls ≠ .amp) :
    (statemachine state).next cls ≠ none := by
  cases state
  case TOKEN =>
    cases cls
    all_goals first | decide | exact absurd hchar (by decide) | exact absurd rfl hamp
  all_goals exact absurd haction (by decide)

/-- What leads to an item uses up a character. -/
theorem item_pass_consumes {mask : UInt16} {rt : ElementType}
    (h : itemPass cfg mask s = .ok (some rt) s') :
    rt = .exit ∨ rt = .errorOccurred ∨ s'.left < s.left := by
  have hlook : itemPass cfg mask s = (do
      let acted ← act cfg mask (statemachine s.state).action
      behindAction cfg (statemachine s.state) acted) s := rfl
  rw [hlook] at h
  cases hact : act cfg mask (statemachine s.state).action s with
  | error e s₁ =>
      rw [bind_error hact] at h
      cases h
  | ok acted s₁ =>
      have hfirst := (Local.act mask _).orderly.left_le hact
      rw [bind_ok hact] at h
      cases acted with
      | returns rt' =>
          obtain rfl := Option.some.inj (EStateM.Result.ok.inj h).1
          exact (act_returned hact).imp_right .inl
      | goesOn rt' =>
          cases hcontrol : onSrc (TextScanner.control cfg.inputCharSet) s₁ with
          | error e s₂ =>
              rw [behindAction, bind_error hcontrol] at h
              cases h
          | ok ch s₂ =>
              have hsecond := (Local.control _ : Local cfg _).orderly.left_le hcontrol
              rw [behindAction, bind_ok hcontrol, transit] at h
              cases hnext : (statemachine s.state).next ch with
              | some ns =>
                  rw [hnext] at h
                  cases hskip : TextScanner.skip cfg.inputCharSet s₂.src with
                  | error e src =>
                      have hstep := on_src_error (s := { s₂ with state := ns }) hskip
                      cases ((bind_alter _ _).trans (bind_error hstep)).symm.trans h
                  | ok _ src =>
                      have hstep := on_src_ok (s := { s₂ with state := ns }) hskip
                      have hend := ((bind_alter _ _).trans (bind_ok hstep)).symm.trans h
                      obtain ⟨-, rfl⟩ := EStateM.Result.ok.inj hend
                      have hless := TextScanner.skip_left hskip
                      refine .inr (.inr ?_)
                      show TextScanner.left src < s.left
                      exact Nat.lt_of_lt_of_le hless (Nat.le_trans hsecond hfirst)
              | none =>
                  rw [hnext] at h
                  cases hback : (statemachine s.state).fallbackState with
                  | none =>
                      rw [hback] at h
                      dsimp only at h
                      cases hprint : print cfg 0 s₂ with
                      | error e t => cases (bind_error hprint).symm.trans h
                      | ok nn t =>
                          rw [bind_ok hprint] at h
                          have hend := (EStateM.Result.ok.inj h).1
                          exact .inr (.inl (Option.some.inj hend).symm)
                  | some ns =>
                      rw [hback] at h
                      have hitem : whileNone rt' = some rt := (EStateM.Result.ok.inj h).1
                      rcases falls_back _ ns hback with ⟨hnone, -⟩ | ⟨htoken, -⟩
                      · rw [hnone] at hact
                        obtain rfl := Acted.goesOn.inj (EStateM.Result.ok.inj hact).1
                        exact absurd hitem (Option.some_ne_none rt).symm
                      · rw [htoken] at hact
                        have hends := (act_ends mask .content rfl s).ok hact rt' rfl
                        have hread := (of_on_src_ok hcontrol).1
                        have hsame := TextScanner.classify_loaded controlCharMap hends.loaded
                        obtain ⟨rfl, -⟩ := EStateM.Result.ok.inj (hsame.symm.trans hread)
                        exact absurd hnext (token_goes_on htoken hends.no_char hends.no_amp)

/-- An item uses up input, but at the end of the document and where there is an error. -/
theorem next_item_consumes {mask : UInt16} {rt : ElementType}
    (h : nextItem cfg mask s = .ok rt s') :
    rt = .exit ∨ rt = .errorOccurred ∨ s'.left < s.left := by
  have hbegin {s₁ : XMLScanner} (hb : begin s = .ok ⟨⟩ s₁) : s₁.left ≤ s.left :=
    (Local.begin : Local cfg _).orderly.left_le hb
  have hpasses (t : XMLScanner) (hle : t.left ≤ s.left) :
      Ensures (itemPass cfg mask) t (fun result s' ↦
        (∀ rt, result = some rt → rt = .exit ∨ rt = .errorOccurred ∨ s'.left < s.left) ∧
          (result = none → s'.left ≤ s.left)) fun _ _ ↦ True := by
    cases hpass : itemPass cfg mask t with
    | error e t' => exact .of_error hpass trivial
    | ok result t' =>
        refine .of_ok hpass ⟨?_, ?_⟩
        · rintro rt rfl
          exact (item_pass_consumes hpass).imp_right (Or.imp_right fun hless ↦
            Nat.lt_of_lt_of_le hless hle)
        · intro _
          exact Nat.le_trans ((Orderly.item_pass mask).left_le hpass) hle
  cases hb : begin s with
  | error e s₁ => exact nomatch (bind_error hb).symm.trans h
  | ok _ s₁ =>
      have hloop := (bind_ok hb).symm.trans h
      have hfirst := hbegin hb
      have hitem : Ensures (loop .endless passes (itemPass cfg mask)) s₁
          (fun rt s' ↦ rt = .exit ∨ rt = .errorOccurred ∨ s'.left < s.left) fun _ _ ↦ True := by
        refine .loop (item_shrinks mask) (fun t ↦ t.left ≤ s.left) ?_ hfirst
        intro t hle
        exact hpasses t hle
      exact hitem.ok hloop

end XMLScanner

/-! ## Arrays -/

/-- `Token`: a state of the automaton that waits for an item. -/
structure Token where
  core : Core
  stateidx : Nat
  deriving DecidableEq, Repr

/-- `Scope::Range`: the tokens of the scope, and the number of those that are active below them. -/
structure ScopeRange where
  tokenidxFrom : Nat
  tokenidxTo : Nat
  followidx : Nat
  deriving DecidableEq, Repr

/-- `Scope` -/
structure Scope where
  mask : Mask
  followMask : Mask
  range : ScopeRange
  deriving DecidableEq, Repr

/-- `Context`: the item that is processed, its text if it is not yet done, and the scope. -/
structure Context where
  type : ElementType
  key : Option (List Byte)
  scope : Scope
  scopeIter : Nat
  deriving DecidableEq, Repr

/-- The selection. -/
structure XMLPathSelect where
  scan : XMLScanner
  scopestk : List Scope
  follows : List Nat
  triggers : List Int
  tokens : List Token
  context : Context
  deriving DecidableEq, Repr

/-- A function of the selection. What it changed in front of an exception stays changed. -/
abbrev Select := EStateM SelectStop XMLPathSelect

/-- A member that is an `Array`. -/
structure Member (α : Type) where
  get : XMLPathSelect → List α
  set : List α → XMLPathSelect → XMLPathSelect

namespace Member

def scopestk : Member Scope := ⟨XMLPathSelect.scopestk, fun ar s ↦ { s with scopestk := ar }⟩

def follows : Member Nat := ⟨XMLPathSelect.follows, fun ar s ↦ { s with follows := ar }⟩

def triggers : Member Int := ⟨XMLPathSelect.triggers, fun ar s ↦ { s with triggers := ar }⟩

def tokens : Member Token := ⟨XMLPathSelect.tokens, fun ar s ↦ { s with tokens := ar }⟩

variable {α : Type} (member : Member α)

/-- `push_back` of an array of this size. -/
def pushBack (maxSize : UInt32) (elem : α) : Select PUnit := fun s ↦
  if (member.get s).length = maxSize.toNat then .error (.thrown .outOfMem) s
  else .ok ⟨⟩ (member.set (member.get s ++ [elem]) s)

/-- `pop_back` -/
def popBack : Select PUnit := fun s ↦
  if member.get s = [] then .error (.thrown .notAllowedOperation) s
  else .ok ⟨⟩ (member.set (member.get s).dropLast s)

/-- `operator[]`, read. -/
def elem (idx : Nat) : Select α := fun s ↦
  match (member.get s)[idx]? with
  | some elem => .ok elem s
  | none => .error (.thrown .arrayBoundsReadWrite) s

/-- `operator[]`, written. -/
def setElem (idx : Nat) (elem : α) : Select PUnit := fun s ↦
  if idx < (member.get s).length then .ok ⟨⟩ (member.set ((member.get s).set idx elem) s)
  else .error (.thrown .arrayBoundsReadWrite) s

/-- `back` -/
def back : Select α := fun s ↦
  match (member.get s).getLast? with
  | some elem => .ok elem s
  | none => .error (.thrown .arrayBoundsReadWrite) s

/-- `resize` -/
def resize (size : Nat) : Select PUnit := fun s ↦
  if (member.get s).length < size then .error (.thrown .arrayBoundsReadWrite) s
  else .ok ⟨⟩ (member.set ((member.get s).take size) s)

variable {member} {s : XMLPathSelect}

theorem elem_of {idx : Nat} {x : α} (h : (member.get s)[idx]? = some x) :
    member.elem idx s = .ok x s := by rw [elem, h]

theorem back_of {x : α} (h : (member.get s).getLast? = some x) : member.back s = .ok x s := by
  rw [back, h]

end Member

/-! ## Matching -/

/-- What `produce` and `match` do with the range of a token: it is counted down, and the mask is
reset at its end. The item counts if it is within the range. -/
def Core.count (core : Core) : Core × Bool :=
  if core.cntEnd = -1 then (core, true)
  else if 0 < core.cntEnd then
    let ended := { core with
      cntEnd := core.cntEnd - 1
      mask := if core.cntEnd - 1 = 0 then Mask.zero else core.mask }
    if core.cntStart ≤ 0 then (ended, true)
    else ({ ended with cntStart := core.cntStart - 1 }, false)
  else (core, false)

namespace XMLPathSelect

/-- A change of the member `context.scope`. -/
def setScope (change : Scope → Scope) : Select PUnit :=
  alter fun s ↦ { s with context := { s.context with scope := change s.context.scope } }

/-- The item is done. -/
def endElement : Select PUnit :=
  alter fun s ↦ { s with context := { s.context with key := none } }

/-- A function of the member `scan`. -/
def onScan {α : Type} (m : Scan α) : Select α := fun s ↦
  match m s.scan with
  | .ok a scan => .ok a { s with scan := scan }
  | .error e scan => .error (.scanner e) { s with scan := scan }

variable (atm : XMLPathSelectAutomaton)

/-- `atm->states[ stateidx]` -/
def stateOf (stateidx : Nat) : Select State := fun s ↦
  match atm.states[stateidx]? with
  | some st => .ok st s
  | none => .error .wildRead s

/-- The token of a state stays active in the scopes below. -/
def expandFollow (st : State) : Select PUnit := do
  if st.core.follow then
    setScope fun scope ↦ { scope with followMask := scope.followMask.join st.core.mask }
    let size ← look fun s ↦ s.tokens.length
    Member.follows.pushBack atm.maxFollows size
  else return ⟨⟩

/-- A state in the loop of `expand`: it is triggered at once, or waits as a token. -/
def expandState (stateidx : Nat) (st : State) : Select PUnit := do
  setScope fun scope ↦ { scope with mask := scope.mask.join st.core.mask }
  if st.core.mask.isEmpty ∧ st.core.typeidx ≠ 0 then
    Member.triggers.pushBack atm.maxTriggers st.core.typeidx
  else
    expandFollow atm st
    Member.tokens.pushBack atm.maxTokens ⟨st.core, stateidx⟩

/-- The loop of `expand`. -/
def expandFrom : Nat → Option Nat → Select PUnit
  | _, none => return ⟨⟩
  | 0, some _ => throw .endless
  | fuel + 1, some stateidx => do
      let st ← stateOf atm stateidx
      expandState atm stateidx st
      expandFrom fuel st.link

/-- `expand` -/
def expand (stateidx : Option Nat) : Select PUnit := expandFrom atm atm.states.length stateidx

/-- The range of the token is counted. -/
def count (tokenidx : Nat) : Select Bool := do
  let tk ← Member.tokens.elem tokenidx
  Member.tokens.setElem tokenidx { tk with core := tk.core.count.1 }
  return tk.core.count.2

/-- `produce` -/
def produce (tokenidx : Nat) (st : State) : Select PUnit := do
  if ← count tokenidx then expand atm st.next else return ⟨⟩

/-- The loop of `match` that compares the text with the key of the state. The text may be longer
than the key. -/
def compare : List Byte → List Byte → Select Bool
  | _, [] => return true
  | [], _ :: _ => throw .wildRead
  | ch :: key, ch' :: text => if ch = ch' then compare key text else return false

/-- The key of the state is compared with the text, if it has one. -/
def matchKey (st : State) (text : List Byte) : Select Bool :=
  match st.key with
  | some key => compare key text
  | none => return true

/-- The type of a token that is an output, if the item is within its range. -/
def output (tokenidx : Nat) : Select Int := do
  let tk ← Member.tokens.elem tokenidx
  if tk.core.typeidx ≠ 0 then return if ← count tokenidx then tk.core.typeidx else 0
  else return 0

/-- A token that matches the type of the item. -/
def matched (tokenidx : Nat) (text : List Byte) : Select Int := do
  let tk ← Member.tokens.elem tokenidx
  let st ← stateOf atm tk.stateidx
  if ← matchKey st text then
    produce atm tokenidx st
    output tokenidx
  else output tokenidx

/-- The token must not match any more behind an item that it rejects. -/
def rejectToken (tokenidx : Nat) (type : ElementType) : Select PUnit := do
  let tk ← Member.tokens.elem tokenidx
  if tk.core.mask.rejects type then
    Member.tokens.setElem tokenidx { tk with core := { tk.core with mask := Mask.zero } }
  else return ⟨⟩

/-- `match` -/
def matchToken (tokenidx : Nat) : Select Int := do
  let context ← look XMLPathSelect.context
  match context.key with
  | none => return 0
  | some text =>
      if context.scope.range.tokenidxTo ≤ tokenidx then return 0
      else
        let tk ← Member.tokens.elem tokenidx
        let rt ← (if tk.core.mask.matching context.type then matched atm tokenidx text
          else return 0)
        rejectToken tokenidx context.type
        return rt

/-! ## Elements -/

/-- `while (!type)` -/
def whileZero (type : Int) : Option Int := if type = 0 then none else some type

/-- A token of the scope or a token that follows is visited. -/
def visit (tokenidx : Nat) : Select (Option Int) := do
  let type ← matchToken atm tokenidx
  alter fun s ↦ { s with context := { s.context with scopeIter := s.context.scopeIter + 1 } }
  return whileZero type

/-- The token that follows and is not yet checked in the scope. -/
def nextFollow (context : Context) : Select (Option Nat) := do
  let ii := context.scopeIter - context.scope.range.tokenidxTo
  if ii < context.scope.range.followidx then
    let tokenidx ← Member.follows.elem ii
    return if tokenidx < context.scope.range.tokenidxFrom then some tokenidx else none
  else return none

/-- The last output that is triggered, or the end of all candidates. -/
def nextTrigger : Select (Option Int) := do
  let triggers ← look XMLPathSelect.triggers
  if triggers ≠ [] then
    let type ← Member.triggers.back
    Member.triggers.popBack
    return whileZero type
  else
    endElement
    return some 0

/-- One pass of the loop of `fetch`. -/
def fetchPass : Select (Option Int) := do
  let context ← look XMLPathSelect.context
  if context.scopeIter < context.scope.range.tokenidxTo then visit atm context.scopeIter
  else
    match ← nextFollow context with
    | some tokenidx => visit atm tokenidx
    | none => nextTrigger

/-- A bound on the passes: each visits another token, but the last one. -/
def candidates (context : Context) : Nat :=
  context.scope.range.tokenidxTo + context.scope.range.followidx - context.scopeIter

/-- `fetch` -/
def fetch : Select Int := do
  let context ← look XMLPathSelect.context
  if context.scope.mask.matching context.type then
    loopN .endless (fetchPass atm) (candidates context + 1)
  else
    endElement
    return 0

/-- The first steps of `initProcessElement`: the scope of an open tag begins with the tokens that it
produced. -/
def initContext (s : XMLPathSelect) (type : ElementType) (key : List Byte) : XMLPathSelect :=
  let range := s.context.scope.range
  let first := if s.context.type = .openTag then range.tokenidxTo else range.tokenidxFrom
  { s with context := {
      type := type
      key := some key
      scope := { s.context.scope with range := ⟨first, s.tokens.length, s.follows.length⟩ }
      scopeIter := first } }

/-- A tag is opened. -/
def openScope : Select PUnit := do
  let scope ← look fun s ↦ s.context.scope
  Member.scopestk.pushBack atm.maxScopeStackSize scope
  setScope fun scope ↦ { scope with mask := scope.followMask.seek .openTag }

/-- A tag is closed. -/
def closeScope : Select PUnit := do
  let scopes ← look XMLPathSelect.scopestk
  if scopes ≠ [] then
    let scope ← Member.scopestk.back
    setScope fun _ ↦ scope
    Member.scopestk.popBack
    Member.follows.resize scope.range.followidx
    Member.tokens.resize scope.range.tokenidxTo
  else return ⟨⟩

/-- `initProcessElement` -/
def initProcessElement (type : ElementType) (key : List Byte) : Select PUnit := do
  alter fun s ↦ initContext s type key
  if type = .openTag then openScope atm
  else if type = .closeTag ∨ type = .closeTagIm then closeScope
  else return ⟨⟩

/-- The constructor. -/
def construct (scan : XMLScanner) : EStateM.Result SelectStop XMLPathSelect PUnit :=
  let s : XMLPathSelect := ⟨scan, [], [], [], [], ⟨.content, none, ⟨.zero, .zero, ⟨0, 0, 0⟩⟩, 0⟩⟩
  if atm.states ≠ [] then expand atm (some 0) s else .ok ⟨⟩ s

/-- `setOutputBuffer` -/
def setOutputBuffer (s : XMLPathSelect) (outputBuf : List Byte) (outputBufSize : UInt32) :
    XMLPathSelect :=
  { s with scan := s.scan.setOutputBuffer outputBuf outputBufSize }

end XMLPathSelect

/-! ## The iterator -/

/-- `iterator::Element::State` -/
inductive SelectState where
  | ok
  | endOfOutput
  | endOfInput
  | errorState
  deriving DecidableEq, Repr

/-- What the content of an element points to: nothing, the text of an item, or that of an error. -/
inductive SelectContent where
  | null
  | text (bytes : List Byte)
  | error (error : Error)
  deriving DecidableEq, Repr

/-- `iterator::Element` -/
structure Selected where
  state : SelectState
  type : Int
  content : SelectContent
  size : Nat
  deriving DecidableEq, Repr

/-- The iterator: its input, and its element. -/
structure SelectIterator where
  input : XMLPathSelect
  element : Selected
  deriving DecidableEq, Repr

/-- A function of the iterator. -/
abbrev Iterate := EStateM SelectStop SelectIterator

namespace SelectIterator

/-- The constructor, in front of its first step. -/
def construct (input : XMLPathSelect) : SelectIterator := ⟨input, ⟨.ok, 0, .null, 0⟩⟩

/-- A function of the member `input`. -/
def onInput {α : Type} (m : Select α) : Iterate α := fun itr ↦
  match m itr.input with
  | .ok a input => .ok a { itr with input := input }
  | .error e input => .error e { itr with input := input }

/-- A change of the member `element`. -/
def setElement (change : Selected → Selected) : Iterate PUnit :=
  alter fun itr ↦ { itr with element := change itr.element }

variable (cfg : Setup) (atm : XMLPathSelectAutomaton)

/-- The next item, if the last one is done. It is the end, an error, or begins to be processed. -/
def nextElement : Select (Option (SelectState × Option Error)) := do
  let context ← look XMLPathSelect.context
  match context.key with
  | some _ => return none
  | none =>
      let et ← XMLPathSelect.onScan (XMLScanner.nextItem cfg context.scope.mask.pos)
      if et = .exit then
        let scopes ← look XMLPathSelect.scopestk
        return some (if scopes = [] then (.endOfInput, none)
          else (.errorState, some .errUnexpectedEndOfInput))
      else if et = .errorOccurred then
        let err ← look fun s ↦ s.scan.error
        alter fun s ↦ { s with scan := s.scan.getError.2 }
        return some (if err = .errOutputBufferTooSmall then .endOfOutput else .errorState, some err)
      else
        let key ← look fun s ↦ s.scan.item
        XMLPathSelect.initProcessElement atm et key
        return none

/-- What an element is if there is no selection. -/
def Selected.ended (element : Selected) (state : SelectState) (err : Option Error) : Selected :=
  { element with
    state := state
    content := match err with
      | some err => .error err
      | none => element.content }

/-- One pass of the loop of `skip`. -/
def skipPass : Iterate (Option PUnit) := do
  match ← onInput (nextElement cfg atm) with
  | some (state, err) => do
      setElement fun element ↦ Selected.ended element state err
      return some ⟨⟩
  | none => do
      let type ← onInput (XMLPathSelect.fetch atm)
      setElement fun element ↦ { element with type := type }
      if type = 0 then return none
      else
        let key ← look fun itr ↦ itr.input.context.key.getD []
        setElement fun element ↦ { element with content := .text key, size := key.length }
        return some ⟨⟩

/-- The measure of the loop of `skip`: an item is processed, or uses up input. -/
def passes (itr : SelectIterator) : Nat :=
  2 * itr.input.scan.left + if itr.input.context.key.isSome then 1 else 0

/-- The loop of `skip`. -/
def skipItems : Iterate PUnit := loop .endless passes (skipPass cfg atm)

/-- `skip`, which is declared `throw(exception)`. The exception with which the input iterator ends
is none of these. -/
def skip : Iterate PUnit := fun itr ↦
  match skipItems cfg atm itr with
  | .ok _ itr' => .ok ⟨⟩ itr'
  | .error e itr' => .error (if e = .scanner .endOfInput then .terminated else e) itr'

variable {cfg : Setup} {atm : XMLPathSelectAutomaton} {itr itr' : SelectIterator}

/-- `skip` returns when its loop ends. -/
theorem skip_ok : skip cfg atm itr = .ok ⟨⟩ itr' ↔ skipItems cfg atm itr = .ok ⟨⟩ itr' := by
  cases hitems : skipItems cfg atm itr with
  | ok _ itr₁ =>
      rw [show skip cfg atm itr = .ok ⟨⟩ itr₁ by rw [skip, hitems]]
  | error e itr₁ =>
      have hskip : skip cfg atm itr =
        .error (if e = .scanner .endOfInput then .terminated else e) itr₁ := by rw [skip, hitems]
      rw [hskip]
      exact iff_of_false (by simp) (by simp)

end SelectIterator

end Smerp.Textwolf
