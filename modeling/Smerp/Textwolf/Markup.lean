import Smerp.Textwolf.Tokens

/-!
# How a document is written

A document is written as a header, tags with attributes, words, white space between them, and the
terminating zero. Its items are what it is to be read as.
-/

namespace Smerp.Textwolf

/-- The quotes around the value of an attribute. -/
inductive Quote where
  | single
  | double
  deriving DecidableEq, Repr

/-- An attribute of the header or of a tag, with the white space in front of its name, and before
and behind the equals sign. -/
structure Attribute where
  front : List UChar
  name : List Glyph
  before : List UChar
  behind : List UChar
  quote : Quote
  value : List Glyph
  deriving DecidableEq, Repr

/-- Attributes, and the white space behind the last one. -/
structure Attributes where
  list : List Attribute
  space : List UChar
  deriving DecidableEq, Repr

/-- A tag, a tag that is closed at once, a closing tag, a word, or white space. -/
inductive Markup where
  | openTag (name : List Glyph) (attributes : Attributes)
  | emptyTag (name : List Glyph) (attributes : Attributes)
  | closeTag (name : List Glyph) (behind : List UChar)
  | word (text : List Glyph)
  | space (chars : List UChar)
  deriving DecidableEq, Repr

/-- A document: white space, a header or none, and the markup behind it. Without a header, the first
markup is a tag. -/
structure Document where
  front : List UChar
  header : Option Attributes
  body : List Markup
  deriving DecidableEq, Repr

/-- How a text is written. -/
def written (text : List Glyph) : List UChar := text.flatMap Glyph.chars

def Quote.char : Quote → UChar
  | single => 39
  | double => 34

/-- ` name="value"` -/
def Attribute.chars (a : Attribute) : List UChar :=
  a.front ++ (written a.name ++ (a.before ++ 61 :: (a.behind ++
    a.quote.char :: (written a.value ++ [a.quote.char]))))

theorem Attribute.chars_append (a : Attribute) (more : List UChar) :
    a.chars ++ more = a.front ++ (written a.name ++ (a.before ++ 61 :: (a.behind ++
      a.quote.char :: (written a.value ++ a.quote.char :: more)))) := by
  simp [Attribute.chars]

def Attributes.chars (as : Attributes) : List UChar := as.list.flatMap Attribute.chars ++ as.space

def Markup.chars : Markup → List UChar
  | .openTag name attributes => 60 :: (written name ++ (attributes.chars ++ [62]))
  | .emptyTag name attributes => 60 :: (written name ++ (attributes.chars ++ [47, 62]))
  | .closeTag name behind => 60 :: 47 :: (written name ++ (behind ++ [62]))
  | .word text => written text
  | .space chars => chars

/-- `<?xml name="value"?>` -/
def headerChars (attributes : Attributes) : List UChar :=
  60 :: 63 :: ((text "xml").map UInt8.toUInt32 ++ (attributes.chars ++ [63, 62]))

def Document.chars (doc : Document) : List UChar :=
  doc.front ++ ((match doc.header with
    | some attributes => headerChars attributes
    | none => []) ++ (doc.body.flatMap Markup.chars ++ [0]))

/-- An item and the characters of its text. -/
abbrev Item := ElementType × List UChar

section Items

variable (cfg : Setup)

/-- What a text is read as. -/
def meant (text : List Glyph) : List UChar := text.flatMap (Glyph.codes cfg)

/-- The items of an attribute. -/
def Attribute.items (nameItem valueItem : ElementType) (a : Attribute) : List Item :=
  [(nameItem, meant cfg a.name), (valueItem, meant cfg a.value)]

def Attributes.items (nameItem valueItem : ElementType) (as : Attributes) : List Item :=
  as.list.flatMap (Attribute.items cfg nameItem valueItem)

def Markup.items : Markup → List Item
  | .openTag name attributes => (.openTag, meant cfg name) ::
      attributes.items cfg .tagAttribName .tagAttribValue
  | .emptyTag name attributes => (.openTag, meant cfg name) ::
      (attributes.items cfg .tagAttribName .tagAttribValue ++ [(.closeTagIm, [])])
  | .closeTag name _ => [(.closeTag, meant cfg name)]
  | .word text => [(.content, meant cfg text)]
  | .space _ => []

def headerItems (attributes : Attributes) : List Item :=
  attributes.items cfg .headerAttribName .headerAttribValue ++ [(.headerEnd, [])]

def Document.items (doc : Document) : List Item :=
  (match doc.header with
    | some attributes => headerItems cfg attributes
    | none => []) ++ (doc.body.flatMap (Markup.items cfg) ++ [(.exit, [])])

end Items

/-- A text that may stand in a token of this kind, and has room in the output buffer. -/
structure FineText (cfg : Setup) (boundIn boundOut size : Nat) (isTok : IsTokenCharMap)
    (text : List Glyph) : Prop where
  glyphs : ∀ glyph ∈ text, glyph.Fine cfg boundIn boundOut isTok
  room : 8 * (meant cfg text).length + 8 ≤ size

theorem FineText.char {cfg : Setup} {boundIn boundOut size : Nat} {isTok : IsTokenCharMap}
    {code : UChar} (hclass : isTok (TextScanner.classOf code) = true) (hin : code.toNat < boundIn)
    (hout : code.toNat < boundOut) (hsize : 16 ≤ size) :
    FineText cfg boundIn boundOut size isTok [.char code] :=
  ⟨List.forall_mem_singleton.mpr (.char hclass hin hout), hsize⟩

/-- White space: blanks, line ends and control characters. -/
def IsSpace (chars : List UChar) : Prop := ∀ ch ∈ chars, TextScanner.classOf ch ∈ blanks

instance (chars : List UChar) : Decidable (IsSpace chars) :=
  List.decidableBAll (fun ch ↦ TextScanner.classOf ch ∈ blanks) chars

/-- The characters of a value in these quotes. -/
def Quote.isChar : Quote → IsTokenCharMap
  | single => isSQStringChar
  | double => isDQStringChar

/-- What reads a value in these quotes. -/
def Quote.action : Quote → STMAction
  | .single => .returnSQString
  | .double => .returnDQString

section Fine

variable (cfg : Setup) (boundIn boundOut size : Nat)

structure Attribute.Fine (a : Attribute) : Prop where
  front_ne : a.front ≠ []
  front_space : IsSpace a.front
  name_ne : a.name ≠ []
  name_fine : FineText cfg boundIn boundOut size isTagChar a.name
  before_space : IsSpace a.before
  behind_space : IsSpace a.behind
  value_fine : FineText cfg boundIn boundOut size a.quote.isChar a.value

structure Attributes.Fine (as : Attributes) : Prop where
  list_fine : ∀ a ∈ as.list, Attribute.Fine cfg boundIn boundOut size a
  space : IsSpace as.space

theorem Attributes.Fine.nil {space : List UChar} (hspace : IsSpace space) :
    Attributes.Fine cfg boundIn boundOut size ⟨[], space⟩ :=
  ⟨fun _ ha ↦ absurd ha List.not_mem_nil, hspace⟩

inductive Markup.Fine : Markup → Prop where
  | openTag {name : List Glyph} {attributes : Attributes} (hname : name ≠ [])
      (hfine : FineText cfg boundIn boundOut size isTagChar name)
      (hattributes : Attributes.Fine cfg boundIn boundOut size attributes) :
      Fine (.openTag name attributes)
  | emptyTag {name : List Glyph} {attributes : Attributes} (hname : name ≠ [])
      (hfine : FineText cfg boundIn boundOut size isTagChar name)
      (hattributes : Attributes.Fine cfg boundIn boundOut size attributes) :
      Fine (.emptyTag name attributes)
  | closeTag {name : List Glyph} {behind : List UChar}
      (hfine : FineText cfg boundIn boundOut size isTagChar name) (hbehind : IsSpace behind) :
      Fine (.closeTag name behind)
  | word {text : List Glyph} (htext : text ≠ [])
      (hfine : FineText cfg boundIn boundOut size isContentChar text) : Fine (.word text)
  | space {chars : List UChar} (hne : chars ≠ []) (hspace : IsSpace chars) : Fine (.space chars)

/-- An opening tag, or one that is closed at once. -/
def Markup.IsTag : Markup → Prop
  | .openTag _ _ | .emptyTag _ _ => True
  | .closeTag _ _ | .word _ | .space _ => False

def Markup.isWord : Markup → Bool
  | .word _ => true
  | .openTag _ _ | .emptyTag _ _ | .closeTag _ _ | .space _ => false

/-- Between two words stands something else. -/
structure Document.Fine (doc : Document) : Prop where
  front_space : IsSpace doc.front
  header_fine : ∀ attributes, doc.header = some attributes →
    Attributes.Fine cfg boundIn boundOut size attributes
  body_fine : ∀ markup ∈ doc.body, Markup.Fine cfg boundIn boundOut size markup
  words_apart : doc.body.IsChain fun markup next ↦ !(markup.isWord && next.isWord)
  tag_first : doc.header = none → ∃ tag more, doc.body = tag :: more ∧ Markup.IsTag tag

end Fine

end Smerp.Textwolf
