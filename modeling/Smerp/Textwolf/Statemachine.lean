import Smerp.Textwolf.TextScanner

/-!
# The state machine of the XML scanner

`ScannerStatemachine` and `XMLScannerBase` of `examples/xmlselect/textwolf.hpp`: the kinds of items,
the errors, the states, what is done in a state, and which state follows on which character.
-/

namespace Smerp.Textwolf

/-- `ElementType`, in the order of the source. -/
inductive ElementType where
  | none
  | errorOccurred
  | headerAttribName
  | headerAttribValue
  | headerEnd
  | tagAttribName
  | tagAttribValue
  | openTag
  | closeTag
  | closeTagIm
  | content
  | exit
  deriving DecidableEq, Repr

/-- `Error` -/
inductive Error where
  | ok
  | errMemblockTooSmall
  | errExpectedOpenTag
  | errUnexpectedState
  | errExpectedXMLTag
  | errSyntaxString
  | errUnexpectedEndOfText
  | errOutputBufferTooSmall
  | errSyntaxToken
  | errStringNotTerminated
  | errEntityEncodesCntrlChar
  | errExpectedIdentifier
  | errExpectedToken
  | errUndefinedCharacterEntity
  | errInternalErrorSTM
  | errExpectedTagEnd
  | errExpectedEqual
  | errExpectedTagAttribute
  | errExpectedCDATATag
  | errInternal
  | errUnexpectedEndOfInput
  deriving DecidableEq, Repr

/-- `STMState` -/
inductive STMState where
  | START | STARTTAG | XTAG | XTAGEND | XTAGAISK | XTAGANAM | XTAGAESK | XTAGAVSK | XTAGAVID
  | XTAGAVSQ | XTAGAVDQ | XTAGAVQE | CONTENT | TOKEN | XMLTAG | OPENTAG | CLOSETAG | TAGCLSK
  | TAGAISK | TAGANAM | TAGAESK | TAGAVSK | TAGAVID | TAGAVSQ | TAGAVDQ | TAGAVQE | TAGCLIM
  | ENTITYSL | ENTITY | CDATA | CDATA1 | CDATA2 | CDATA3 | EXIT
  deriving DecidableEq, Repr

/-- `STMAction` -/
inductive STMAction where
  | return
  | returnToken
  | returnIdentifier
  | returnSQString
  | returnDQString
  | expectIdentifierXML
  | expectIdentifierCDATA
  | returnEOF
  deriving DecidableEq, Repr

/-- `ScannerStatemachine::Element`: what is done in a state, the state that follows on a character,
and what happens on the other characters. -/
structure Element where
  fallbackState : Option STMState
  missError : Option Error
  action : Option (STMAction × ElementType)
  next : ControlCharacter → Option STMState

namespace Element

/-- The constructor. -/
def empty : Element := ⟨none, none, none, fun _ ↦ none⟩

/-- `operator()`: the state that follows on these characters. -/
def on (e : Element) (inputchr : List ControlCharacter) (ns : STMState) : Element :=
  { e with next := fun ch ↦ if ch ∈ inputchr then some ns else e.next ch }

/-- `action` -/
def act (e : Element) (op : STMAction) (arg : ElementType) : Element :=
  { e with action := some (op, arg) }

/-- `miss` -/
def miss (e : Element) (error : Error) : Element := { e with missError := some error }

/-- `fallback` -/
def fallback (e : Element) (ns : STMState) : Element := { e with fallbackState := some ns }

/-- `other` -/
def other (e : Element) (ns : STMState) : Element :=
  { e with next := fun ch ↦ (e.next ch).or (some ns) }

end Element

/-- The characters between two items. -/
def blanks : List ControlCharacter := [.endOfLine, .cntrl, .space]

open Element in
/-- `Statemachine` -/
def statemachine : STMState → Element
  | .START => empty.on blanks .START |>.on [.lt] .STARTTAG |>.miss .errExpectedOpenTag
  | .STARTTAG => empty.on blanks .STARTTAG |>.on [.questm] .XTAG |>.on [.exclam] .ENTITYSL
      |>.fallback .OPENTAG
  | .XTAG => empty.act .expectIdentifierXML .none |>.on blanks .XTAGAISK
      |>.on [.questm] .XTAGEND |>.miss .errExpectedXMLTag
  | .XTAGEND => empty.act .return .headerEnd |>.on [.gt] .CONTENT |>.on blanks .XTAGEND
      |>.miss .errExpectedTagEnd
  | .XTAGAISK => empty.on blanks .XTAGAISK |>.on [.questm] .XTAGEND |>.fallback .XTAGANAM
  | .XTAGANAM => empty.act .returnIdentifier .headerAttribName |>.on blanks .XTAGAESK
      |>.on [.equal] .XTAGAVSK |>.miss .errExpectedEqual
  | .XTAGAESK => empty.on blanks .XTAGAESK |>.on [.equal] .XTAGAVSK |>.miss .errExpectedEqual
  | .XTAGAVSK => empty.on blanks .XTAGAVSK |>.on [.sq] .XTAGAVSQ |>.on [.dq] .XTAGAVDQ
      |>.fallback .XTAGAVID
  | .XTAGAVID => empty.act .returnIdentifier .headerAttribValue |>.on blanks .XTAGAISK
      |>.on [.questm] .XTAGEND |>.miss .errExpectedTagAttribute
  | .XTAGAVSQ => empty.act .returnSQString .headerAttribValue |>.on [.sq] .XTAGAVQE
      |>.miss .errStringNotTerminated
  | .XTAGAVDQ => empty.act .returnDQString .headerAttribValue |>.on [.dq] .XTAGAVQE
      |>.miss .errStringNotTerminated
  | .XTAGAVQE => empty.on blanks .XTAGAISK |>.on [.questm] .XTAGEND
      |>.miss .errExpectedTagAttribute
  | .CONTENT => empty.on [.endOfText] .EXIT |>.on blanks .CONTENT |>.on [.lt] .XMLTAG
      |>.fallback .TOKEN
  | .TOKEN => empty.act .returnToken .content |>.on [.endOfText] .EXIT |>.on blanks .CONTENT
      |>.on [.lt] .XMLTAG |>.fallback .CONTENT
  | .XMLTAG => empty.on blanks .XMLTAG |>.on [.questm] .XTAG |>.on [.slash] .CLOSETAG
      |>.fallback .OPENTAG
  | .OPENTAG => empty.act .returnIdentifier .openTag |>.on blanks .TAGAISK
      |>.on [.slash] .TAGCLIM |>.on [.gt] .CONTENT |>.miss .errExpectedTagAttribute
  | .CLOSETAG => empty.act .returnIdentifier .closeTag |>.on blanks .TAGCLSK
      |>.on [.gt] .CONTENT |>.miss .errExpectedTagEnd
  | .TAGCLSK => empty.on blanks .TAGCLSK |>.on [.gt] .CONTENT |>.miss .errExpectedTagEnd
  | .TAGAISK => empty.on blanks .TAGAISK |>.on [.gt] .CONTENT |>.on [.slash] .TAGCLIM
      |>.fallback .TAGANAM
  | .TAGANAM => empty.act .returnIdentifier .tagAttribName |>.on blanks .TAGAESK
      |>.on [.equal] .TAGAVSK |>.miss .errExpectedEqual
  | .TAGAESK => empty.on blanks .TAGAESK |>.on [.equal] .TAGAVSK |>.miss .errExpectedEqual
  | .TAGAVSK => empty.on blanks .TAGAVSK |>.on [.sq] .TAGAVSQ |>.on [.dq] .TAGAVDQ
      |>.fallback .TAGAVID
  | .TAGAVID => empty.act .returnIdentifier .tagAttribValue |>.on blanks .TAGAISK
      |>.on [.slash] .TAGCLIM |>.on [.gt] .CONTENT |>.miss .errExpectedTagAttribute
  | .TAGAVSQ => empty.act .returnSQString .tagAttribValue |>.on [.sq] .TAGAVQE
      |>.miss .errStringNotTerminated
  | .TAGAVDQ => empty.act .returnDQString .tagAttribValue |>.on [.dq] .TAGAVQE
      |>.miss .errStringNotTerminated
  | .TAGAVQE => empty.on blanks .TAGAISK |>.on [.slash] .TAGCLIM |>.on [.gt] .CONTENT
      |>.miss .errExpectedTagAttribute
  | .TAGCLIM => empty.act .return .closeTagIm |>.on blanks .TAGCLIM |>.on [.gt] .CONTENT
      |>.miss .errExpectedTagEnd
  | .ENTITYSL => empty.on [.osb] .CDATA |>.fallback .ENTITY
  | .ENTITY => empty.on [.exclam] .TAGCLSK |>.other .ENTITY
  | .CDATA => empty.act .expectIdentifierCDATA .none |>.on [.osb] .CDATA1
      |>.miss .errExpectedCDATATag
  | .CDATA1 => empty.on [.csb] .CDATA2 |>.other .CDATA1
  | .CDATA2 => empty.on [.csb] .CDATA3 |>.other .CDATA1
  | .CDATA3 => empty.on [.gt] .CONTENT |>.other .CDATA1
  | .EXIT => empty.act .return .exit

/-! ## The characters of a token -/

/-- `IsTokenCharMap` -/
abbrev IsTokenCharMap := ControlCharacter → Bool

/-- `IsTagCharMap` -/
def isTagChar : IsTokenCharMap := fun ch ↦ ch ∈ [ControlCharacter.undef, .any]

/-- `IsContentCharMap` -/
def isContentChar : IsTokenCharMap := fun ch ↦
  ch ∈ [ControlCharacter.undef, .equal, .gt, .slash, .exclam, .questm, .sq, .dq, .osb, .csb, .any]

/-- `IsSQStringCharMap` -/
def isSQStringChar : IsTokenCharMap := fun ch ↦ ch ≠ .sq ∧ (isContentChar ch ∨ ch = .space)

/-- `IsDQStringCharMap` -/
def isDQStringChar : IsTokenCharMap := fun ch ↦ ch ≠ .dq ∧ (isContentChar ch ∨ ch = .space)

/-- `tokenDefs` -/
def tokenDefs : STMAction → Option IsTokenCharMap
  | .returnToken => some isContentChar
  | .returnIdentifier => some isTagChar
  | .returnSQString => some isSQStringChar
  | .returnDQString => some isDQStringChar
  | .return | .expectIdentifierXML | .expectIdentifierCDATA | .returnEOF => none

/-- `stringDefs` -/
def stringDefs : STMAction → Option (List Byte)
  | .expectIdentifierXML => some (text "xml")
  | .expectIdentifierCDATA => some (text "CDATA")
  | .return | .returnToken | .returnIdentifier | .returnSQString | .returnDQString
  | .returnEOF => none

/-- The position of the bit of an item in a mask. -/
def ElementType.index : ElementType → UInt16
  | .none => 0
  | .errorOccurred => 1
  | .headerAttribName => 2
  | .headerAttribValue => 3
  | .headerEnd => 4
  | .tagAttribName => 5
  | .tagAttribValue => 6
  | .openTag => 7
  | .closeTag => 8
  | .closeTagIm => 9
  | .content => 10
  | .exit => 11

/-- `(mask&(1<<e)) != 0` -/
def inMask (mask : UInt16) (e : ElementType) : Bool := mask &&& (1 <<< e.index) ≠ 0

end Smerp.Textwolf
