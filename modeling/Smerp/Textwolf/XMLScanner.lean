import Smerp.Lib.Block
import Smerp.Textwolf.Statemachine

/-!
# The XML scanner

`XMLScanner` of `examples/xmlselect/textwolf.hpp`. Each call of `nextItem` reads up to the end of
the next item of the document and prints its text into the output buffer. The input iterator may
throw in the middle of an item; the state of the token that is read is kept for the next call.
Loops are executed as `Lib.Interruptible.loop` with the bytes that are left to read as the measure.
-/

namespace Smerp.Textwolf

open Lib Lib.Interruptible

/-- `TokState::Id` -/
inductive TokStateId where
  | start
  | parsingKey
  | parsingEntity
  | parsingNumericEntity
  | parsingNumericBaseEntity
  | parsingNamedEntity
  | parsingToken
  deriving DecidableEq, Repr

/-- `TokState`: what is kept of a token when the input is at an end. `pos` counts the cells of `buf`
that are in use. -/
structure TokState where
  id : TokStateId
  pos : Nat
  base : Nat
  value : Nat
  buf : List Byte
  curchrSaved : UChar
  deriving DecidableEq, Repr

/-- `init`. The cells of `buf` stay. -/
def TokState.init (tok : TokState) (id : TokStateId) : TokState :=
  { tok with id := id, pos := 0, base := 0, value := 0, curchrSaved := 0 }

/-- The scanner. `outputBuf` are the cells of the caller's buffer, `outputBufSize` is what the
caller said about their number. -/
structure XMLScanner where
  tokstate : TokState
  state : STMState
  error : Error
  src : TextScanner
  outputBuf : List Byte
  outputBufSize : UInt32
  outputSize : UInt32
  deriving DecidableEq, Repr

/-- A function of the scanner. What it changed in front of an exception stays changed. -/
abbrev Scan := EStateM Stop XMLScanner

/-- What the class is instantiated with: the character sets of input and output, and what the map
of named entities finds. -/
structure Setup where
  inputCharSet : CharSet
  outputCharSet : CharSet
  entityMap : Option (List Byte → Option UChar)

namespace XMLScanner

/-- `AMP`, `HASH`, `SEMICOLON`: the characters of an entity. -/
def AMP : UChar := 38
/-- `'#'` -/
def HASH : Byte := 35
/-- `';'` -/
def SEMICOLON : Byte := 59

/-- The constructor. The cells of `tokstate.buf` are not initialised. -/
def construct (src : List Byte) (outputBuf : List Byte) (outputBufSize : UInt32) : XMLScanner where
  tokstate := ⟨.start, 0, 0, 0, List.replicate 16 0, 0⟩
  state := .START
  error := .ok
  src := .fresh src
  outputBuf := outputBuf
  outputBufSize := outputBufSize
  outputSize := 0

/-- `setOutputBuffer` -/
def setOutputBuffer (s : XMLScanner) (outputBuf : List Byte) (outputBufSize : UInt32) :
    XMLScanner :=
  { s with outputBuf := outputBuf, outputBufSize := outputBufSize }

/-- More input stands in front of the iterator. -/
def feed (s : XMLScanner) (more : List Byte) : XMLScanner := { s with src := s.src.feed more }

/-- The bytes that are not consumed. -/
def left (s : XMLScanner) : Nat := s.src.left

/-- `getItem` and `getItemSize` -/
def item (s : XMLScanner) : List Byte := s.outputBuf.take s.outputSize.toNat

/-- `getError` -/
def getError (s : XMLScanner) : Error × XMLScanner := (s.error, { s with error := .ok })

/-- A function of the member `src`. -/
def onSrc {α : Type} (read : Read α) : Scan α := fun s ↦
  match read s.src with
  | .ok a src => .ok a { s with src := src }
  | .error e src => .error e { s with src := src }

/-- A change of the member `tokstate`. -/
def setTok (change : TokState → TokState) : Scan PUnit :=
  alter fun s ↦ { s with tokstate := change s.tokstate }

/-- `error = e; return false` -/
def fail (e : Error) : Scan Bool := do
  alter fun s ↦ { s with error := e }
  return false

/-! ## Printing -/

/-- The bytes that `OutputCharSet::print` writes behind what is printed. -/
def write (bytes : List Byte) : Scan Unit := fun s ↦
  if s.outputSize.toNat + bytes.length ≤ s.outputBuf.length then
    .ok () { s with outputBuf := Block.store s.outputBuf s.outputSize.toNat bytes }
  else .error .wildWrite s

variable (cfg : Setup)

/-- `print` -/
def print (ch : UChar) : Scan UInt32 := do
  let rest ← look fun s ↦ s.outputBufSize - s.outputSize
  let bytes := cfg.outputCharSet.print ch rest
  write bytes
  if bytes = [] then
    alter fun s ↦ { s with
      error := .errOutputBufferTooSmall, tokstate := { s.tokstate with curchrSaved := ch } }
    return 0
  else return bytes.length.toUInt32

/-- `push` -/
def push (ch : UChar) : Scan Bool := do
  let nn ← print cfg ch
  alter fun s ↦ { s with outputSize := s.outputSize + nn }
  return nn ≠ 0

/-- Some characters, until one is not printed. -/
def pushAll : List UChar → Scan Bool
  | [] => return true
  | ch :: more => do if ← push cfg ch then pushAll more else return false

/-! ## Entities -/

/-- `HEX` -/
def HEX : CharMap Nat := fun ch ↦
  if 48 ≤ ch ∧ ch ≤ 57 then ch.toNat - 48
  else if 65 ≤ ch ∧ ch ≤ 70 then ch.toNat - 55
  else if 97 ≤ ch ∧ ch ≤ 102 then ch.toNat - 87
  else 0xFF

/-- `fallbackEntity`: what was read of the entity is printed as it is. -/
def fallbackEntity : Scan Bool := do
  let tok ← look XMLScanner.tokstate
  let buf := (tok.buf.take tok.pos).map UInt8.toUInt32
  match tok.id with
  | .start | .parsingKey | .parsingToken => fail .errInternal
  | .parsingEntity => pushAll cfg [AMP]
  | .parsingNumericEntity => pushAll cfg [AMP, HASH.toUInt32]
  | .parsingNumericBaseEntity => pushAll cfg (AMP :: HASH.toUInt32 :: buf)
  | .parsingNamedEntity => pushAll cfg (AMP :: buf)

/-- The end of a numeric entity. -/
def numericEntityEnd : Scan Bool := do
  let value ← look fun s ↦ s.tokstate.value
  if value > 0xFFFFFFFF then fallbackEntity cfg
  else if value < 32 then fail .errEntityEncodesCntrlChar
  else if ← push cfg (UInt32.ofNat value) then
    setTok fun tok ↦ tok.init .parsingToken
    onSrc (TextScanner.skip cfg.inputCharSet)
    return true
  else return false

/-- One pass of the loop of `parseNumericBaseEntity`. The character is read in front of the count of
`pos`. -/
def numericEntityPass : Scan (Option Bool) := do
  let tok ← look XMLScanner.tokstate
  if tok.pos < 16 then
    let ch ← onSrc (TextScanner.ascii cfg.inputCharSet)
    setTok fun tok ↦ { tok with buf := tok.buf.set tok.pos ch, pos := tok.pos + 1 }
    if ch = SEMICOLON then return some (← numericEntityEnd cfg)
    else if tok.value ≥ tok.base then return some (← fallbackEntity cfg)
    else
      setTok fun tok ↦ { tok with value := tok.value * tok.base + HEX ch }
      onSrc (TextScanner.skip cfg.inputCharSet)
      return none
  else return some (← fallbackEntity cfg)

/-- `parseNumericBaseEntity` -/
def parseNumericBaseEntity : Scan Bool := do
  setTok fun tok ↦ { tok with id := .parsingNumericBaseEntity }
  loop .endless left (numericEntityPass cfg)

/-- `parseNumericEntity` -/
def parseNumericEntity : Scan Bool := do
  setTok fun tok ↦ { tok with id := .parsingNumericEntity }
  let ch ← onSrc (TextScanner.ascii cfg.inputCharSet)
  if ch = 120 then
    setTok fun tok ↦ { tok with base := 16 }
    onSrc (TextScanner.skip cfg.inputCharSet)
    parseNumericBaseEntity cfg
  else
    setTok fun tok ↦ { tok with base := 10 }
    parseNumericBaseEntity cfg

/-- The names that `pushPredefinedEntity` knows, and their characters. -/
def predefinedEntity (str : List Byte) : Option UChar :=
  if str = text "quot" then some 34
  else if str = text "amp" then some 38
  else if str = text "apos" then some 39
  else if str = text "lt" then some 60
  else if str = text "gt" then some 62
  else if str = text "nbsp" then some 32
  else none

/-- `pushPredefinedEntity` -/
def pushPredefinedEntity (str : List Byte) : Scan Bool :=
  match predefinedEntity str with
  | some ch => push cfg ch
  | none => return false

/-- `pushEntity` -/
def pushEntity (str : List Byte) : Scan Bool := do
  if ← pushPredefinedEntity cfg str then return true
  else
    match cfg.entityMap with
    | some find =>
        match find str with
        | some ch => if ch < 32 then fail .errEntityEncodesCntrlChar else push cfg ch
        | none => fail .errUndefinedCharacterEntity
    | none => fail .errUndefinedCharacterEntity

/-- The end of a named entity. The name is the string in `buf`. -/
def namedEntityEnd : Scan Bool := do
  let tok ← look XMLScanner.tokstate
  setTok fun tok ↦ { tok with buf := tok.buf.set tok.pos 0 }
  if ← pushEntity cfg (tok.buf.take tok.pos) then
    setTok fun tok ↦ tok.init .parsingToken
    onSrc (TextScanner.skip cfg.inputCharSet)
    return true
  else return false

/-- One pass of the loop of `parseNamedEntity`, from the character that was read last on.
Classifying it once more changes nothing. -/
def namedEntityPass : Scan (Option Bool) := do
  let ch ← onSrc (TextScanner.ascii cfg.inputCharSet)
  let tok ← look XMLScanner.tokstate
  let cc ← onSrc (TextScanner.control cfg.inputCharSet)
  if tok.pos < 15 ∧ ch ≠ SEMICOLON ∧ cc = .any then
    setTok fun tok ↦ { tok with buf := tok.buf.set tok.pos ch }
    onSrc (TextScanner.skip cfg.inputCharSet)
    setTok fun tok ↦ { tok with pos := tok.pos + 1 }
    return none
  else if ch = SEMICOLON then return some (← namedEntityEnd cfg)
  else return some (← fallbackEntity cfg)

/-- `parseNamedEntity` -/
def parseNamedEntity : Scan Bool := do
  setTok fun tok ↦ { tok with id := .parsingNamedEntity }
  loop .endless left (namedEntityPass cfg)

/-- `parseEntity` -/
def parseEntity : Scan Bool := do
  setTok fun tok ↦ { tok with id := .parsingEntity }
  let ch ← onSrc (TextScanner.ascii cfg.inputCharSet)
  if ch = HASH then
    onSrc (TextScanner.skip cfg.inputCharSet)
    parseNumericEntity cfg
  else parseNamedEntity cfg

/-! ## Tokens -/

/-- The `switch` of `parseTokenRecover`. -/
def recoverEntity : Scan Bool := do
  match ← look fun s ↦ s.tokstate.id with
  | .start | .parsingKey | .parsingToken => return false
  | .parsingEntity => parseEntity cfg
  | .parsingNumericEntity => parseNumericEntity cfg
  | .parsingNumericBaseEntity => parseNumericBaseEntity cfg
  | .parsingNamedEntity => parseNamedEntity cfg

/-- What `parseTokenRecover` does behind the character that is saved. -/
def recoverRest : Scan Bool := do
  let id ← look fun s ↦ s.tokstate.id
  if id = .start ∨ id = .parsingKey ∨ id = .parsingToken then fail .errInternal
  else
    let rt ← recoverEntity cfg
    setTok fun tok ↦ tok.init .parsingToken
    return rt

/-- `parseTokenRecover` -/
def parseTokenRecover : Scan Bool := do
  let saved ← look fun s ↦ s.tokstate.curchrSaved
  if saved ≠ 0 then
    if ← push cfg saved then
      setTok fun tok ↦ { tok with curchrSaved := 0 }
      recoverRest cfg
    else return false
  else recoverRest cfg

/-- One character of the token, or one entity. -/
def tokenPass (isTok : IsTokenCharMap) : Scan (Option Bool) := do
  let ch ← onSrc (TextScanner.control cfg.inputCharSet)
  if isTok ch then
    let code ← onSrc (TextScanner.chr cfg.inputCharSet)
    if ← push cfg code then
      onSrc (TextScanner.skip cfg.inputCharSet)
      return none
    else
      let code ← onSrc (TextScanner.chr cfg.inputCharSet)
      setTok fun tok ↦ { tok with curchrSaved := code }
      return some false
  else if ch = .amp then
    onSrc (TextScanner.skip cfg.inputCharSet)
    if ← parseEntity cfg then
      setTok fun tok ↦ tok.init .parsingToken
      return none
    else
      setTok fun tok ↦ tok.init .start
      return some false
  else
    setTok fun tok ↦ tok.init .start
    return some true

/-- The `for (;;)` of `parseToken`, with the `while` in it. -/
def tokenLoop (isTok : IsTokenCharMap) : Scan Bool := loop .endless left (tokenPass cfg isTok)

/-- `parseToken` -/
def parseToken (isTok : IsTokenCharMap) : Scan Bool := do
  let id ← look fun s ↦ s.tokstate.id
  if id = .start then
    setTok fun tok ↦ { tok with id := .parsingToken }
    tokenLoop cfg isTok
  else if id ≠ .parsingToken then
    if ← parseTokenRecover cfg then tokenLoop cfg isTok
    else
      setTok fun tok ↦ tok.init .start
      return false
  else tokenLoop cfg isTok

/-- One pass of `skipToken`. -/
def skipPass (isTok : IsTokenCharMap) : Scan (Option Bool) := do
  let ch ← onSrc (TextScanner.control cfg.inputCharSet)
  if isTok ch ∨ ch = .amp then
    onSrc (TextScanner.skip cfg.inputCharSet)
    return none
  else
    let ch ← onSrc (TextScanner.control cfg.inputCharSet)
    return if ch ≠ .any then some true else none

/-- `skipToken` -/
def skipToken (isTok : IsTokenCharMap) : Scan Bool := loop .endless left (skipPass cfg isTok)

/-- One pass of `expectStr`. -/
def expectPass (str : List Byte) : Scan (Option Bool) := do
  let pos ← look fun s ↦ s.tokstate.pos
  match str[pos]? with
  | none => return some true
  | some expected =>
      let ch ← onSrc (TextScanner.ascii cfg.inputCharSet)
      if ch = expected then
        onSrc (TextScanner.skip cfg.inputCharSet)
        setTok fun tok ↦ { tok with pos := tok.pos + 1 }
        return none
      else
        let cc ← onSrc (TextScanner.control cfg.inputCharSet)
        return some (← fail (if cc = .endOfText then .errUnexpectedEndOfText else .errSyntaxToken))

/-- `expectStr` -/
def expectStr (str : List Byte) : Scan Bool := do
  setTok fun tok ↦ { tok with id := .parsingKey }
  let rt ← loop .endless left (expectPass cfg str)
  setTok fun tok ↦ tok.init .start
  return rt

/-! ## Items -/

/-- What the action of a state comes to: a return, or a kind of item to go on with. -/
inductive Acted where
  | returns (rt : ElementType)
  | goesOn (rt : ElementType)
  deriving DecidableEq, Repr

/-- The end of a token: its terminating zero. -/
def tokenEnd (arg : ElementType) (rt : Bool) : Scan Acted := do
  if rt then
    let nn ← print cfg 0
    return if nn = 0 then .returns .errorOccurred else .goesOn arg
  else return .returns .errorOccurred

/-- The action of a state. -/
def act (mask : UInt16) : Option (STMAction × ElementType) → Scan Acted
  | none => return .goesOn .none
  | some (op, arg) =>
      match tokenDefs op with
      | some isTok => do
          let rt ← (if inMask mask arg then parseToken cfg isTok else skipToken cfg isTok)
          tokenEnd cfg arg rt
      | none =>
          match stringDefs op with
          | some str => do
              let rt ← expectStr cfg str
              return if rt then .goesOn .none else .returns .errorOccurred
          | none => return if arg = .exit then .returns .exit else .goesOn arg

/-- `while (rt == None)` -/
def whileNone (rt : ElementType) : Option ElementType := if rt = .none then none else some rt

/-- The error of a state on a character that it does not go on with. -/
def missed (sd : Element) (ch : ControlCharacter) : Error :=
  match sd.missError with
  | some error => error
  | none => if ch = .endOfText then .errUnexpectedEndOfText else .errInternal

/-- The step of the state machine. -/
def transit (sd : Element) (ch : ControlCharacter) (rt : ElementType) :
    Scan (Option ElementType) :=
  match sd.next ch with
  | some ns => do
      alter fun s ↦ { s with state := ns }
      onSrc (TextScanner.skip cfg.inputCharSet)
      return whileNone rt
  | none =>
      match sd.fallbackState with
      | some ns => do
          alter fun s ↦ { s with state := ns }
          return whileNone rt
      | none => do
          let _ ← print cfg 0
          alter fun s ↦ { s with error := missed sd ch }
          return some .errorOccurred

/-- What follows on the action of a state. -/
def behindAction (sd : Element) : Acted → Scan (Option ElementType)
  | .returns rt => return some rt
  | .goesOn rt => do
      let ch ← onSrc (TextScanner.control cfg.inputCharSet)
      transit cfg sd ch rt

/-- One pass of the loop of `nextItem`. -/
def itemPass (mask : UInt16) : Scan (Option ElementType) := do
  let sd ← look fun s ↦ statemachine s.state
  let acted ← act cfg mask sd.action
  behindAction cfg sd acted

/-- A state that goes on to another one without a character or an item. -/
def falls (state : STMState) : Nat :=
  let sd := statemachine state
  if sd.fallbackState = none ∨ sd.action ≠ none then 0 else 1

/-- The measure of the loop of `nextItem`: each character leads through two states at most. -/
def passes (s : XMLScanner) : Nat := 2 * s.left + falls s.state

/-- The cells of an item that begins. -/
def begin : Scan PUnit := do
  let id ← look fun s ↦ s.tokstate.id
  if id = .start then
    alter fun s ↦ { s with outputSize := 0 }
    write [0]
  else return ⟨⟩

/-- `nextItem` -/
def nextItem (mask : UInt16) : Scan ElementType := do
  begin
  loop .endless passes (itemPass cfg mask)

end XMLScanner

end Smerp.Textwolf
