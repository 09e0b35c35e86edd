import Smerp.Textwolf.Passes
import Smerp.Textwolf.Markup

/-!
# Documents that are read back

In every character set of the input the scanner reads a document as the items that it was written
from, each of them printed in the character set of the output.
-/

namespace Smerp.Textwolf

open Lib Lib.Interruptible

namespace XMLScanner

open TextScanner (classOf)

/-! ## Items -/

/-- The scanner stands in front of these characters, and no item has begun. -/
def At (cfg : Setup) (state : STMState) (chars : List UChar) (size : Nat) (s : XMLScanner) :
    Prop := ∃ printed, Parses cfg .start state chars size printed s

/-- Whatever texts are asked for, the next items are these, and `after` holds behind them. -/
def Yields (cfg : Setup) (after : XMLScanner → Prop) : List Item → XMLScanner → Prop
  | [], s => after s
  | (kind, codes) :: items, s => ∀ mask, Returns (nextItem cfg mask) s kind fun s' ↦
      (s'.item = cfg.outputCharSet.encode (shown mask kind codes) ∧ s'.error = .ok) ∧
        Yields cfg after items s'

/-- The loop of `nextItem` comes to this state in front of these characters without an item. -/
def Leads (cfg : Setup) (ns : STMState) (chars : List UChar) (size : Nat) (s : XMLScanner) :
    Prop :=
  ∃ state chars', At cfg state chars' size s ∧
    ∀ mask s' kind after, Parses cfg .start state chars' size [] s' →
      (∀ s'', Parses cfg .start ns chars size [] s'' →
        Returns (loop .endless passes (itemPass cfg mask)) s'' kind after) →
      Returns (loop .endless passes (itemPass cfg mask)) s' kind after

section Yields

variable {cfg : Setup} {boundIn boundOut : Nat} {state ns : STMState} {size : Nat}
  {s : XMLScanner} {mask : UInt16} {code : UChar} {chars more : List UChar}
  {after : XMLScanner → Prop} {items : List Item}

theorem At.leads (h : At cfg state chars size s) : Leads cfg state chars size s :=
  ⟨state, chars, h, fun _ s' _ _ hs' hnext ↦ hnext s' hs'⟩

/-- Beginning an item. -/
theorem begin_at (h : At cfg state chars size s) (hsize : 0 < size) :
    Returns begin s ⟨⟩ (Parses cfg .start state chars size []) := by
  obtain ⟨printed, cells, hcells, src, hahead, hs⟩ := h
  have hid : s.tokstate.id = .start := congrArg TokState.id hs.tok_eq
  have hroom : 0 + [(0 : Byte)].length ≤ s.outputBuf.length := by
    rw [hs.length_eq]
    exact hsize
  have hbegin : begin s =
      .ok ⟨⟩ { s with outputSize := 0, outputBuf := Block.store s.outputBuf 0 [0] } := by
    rw [begin, bind_look, if_pos hid, bind_alter]
    exact write_ok (s := { s with outputSize := 0 }) hroom
  refine .of_ok hbegin ⟨cells, hcells, src, hahead, hs.tok_eq, hs.state_eq, hs.src_eq, hs.error_eq,
    hs.size_eq, ?_, rfl, rfl⟩
  show (Block.store s.outputBuf 0 [0]).length = size
  rw [Block.store_length hroom, hs.length_eq]

/-- An item, and those that follow on it. -/
theorem Leads.yields (ns : STMState) (more : List UChar) {kind : ElementType} {codes : List UChar}
    (h : Leads cfg state chars size s) (hsize : 0 < size)
    (hitem : ∀ mask s', Parses cfg .start state chars size [] s' →
      Returns (loop .endless passes (itemPass cfg mask)) s' kind
        (Parses cfg .start ns more size (cfg.outputCharSet.encode (shown mask kind codes))))
    (hrest : ∀ s', At cfg ns more size s' → Yields cfg after items s') :
    Yields cfg after ((kind, codes) :: items) s := by
  obtain ⟨state', chars', hat, hleads⟩ := h
  intro mask
  refine .bind ((begin_at hat hsize).mono ?_)
  intro s₁ h₁
  refine (hleads mask s₁ kind _ h₁ (hitem mask)).mono ?_
  intro s₂ h₂
  refine ⟨?_, hrest s₂ ⟨_, h₂⟩⟩
  obtain ⟨cells, hcells, src, hahead, hs⟩ := h₂
  exact ⟨hs.item_eq, hs.error_eq⟩

/-- A pass without an item. -/
theorem Leads.pass {chars' : List UChar} (h : Leads cfg state chars size s)
    (hpass : ∀ mask s', Parses cfg .start state chars size [] s' →
      Returns (itemPass cfg mask) s' none (Parses cfg .start ns chars' size [])) :
    Leads cfg ns chars' size s := by
  obtain ⟨first, ahead, hat, hleads⟩ := h
  refine ⟨first, ahead, hat, ?_⟩
  intro mask s' kind after hs' hgoal
  refine hleads mask s' kind after hs' ?_
  intro s'' hs''
  exact .loop_again (item_shrinks mask) ((hpass mask s'' hs'').mono hgoal)

/-! ## White space -/

/-- Behind the first of these characters, which the loop has passed in this state. -/
def Past (cfg : Setup) (front : STMState) (chars : List UChar) (size : Nat) (s : XMLScanner) :
    Prop :=
  ∃ code rest ns, chars = code :: rest ∧ (statemachine front).next (classOf code) = some ns ∧
    Leads cfg ns rest size s

/-- White space leads from one state to another one, which stays there. -/
structure Skips (front skip : STMState) : Prop where
  next_eq : ∀ cls ∈ blanks, (statemachine front).next cls = some skip
  action_eq : (statemachine skip).action = none
  stays : ∀ cls ∈ blanks, (statemachine skip).next cls = some skip

/-- This character ends a token in this state. -/
structure Closes (isTok : IsTokenCharMap) (state : STMState) (code : UChar) : Prop where
  ascii : code.toNat < 128
  not_token : isTok (classOf code) = false
  not_amp : classOf code ≠ .amp
  next_some : ((statemachine state).next (classOf code)).isSome

theorem space_ascii (h : classOf code ∈ blanks) : code.toNat < 128 := by
  by_contra hlarge
  rw [classOf, if_neg hlarge] at h
  exact absurd h (by decide)

theorem Past.next (h : Past cfg state (code :: chars) size s)
    (hnext : (statemachine state).next (classOf code) = some ns) : Leads cfg ns chars size s := by
  obtain ⟨other, rest, ns', hchars, hnext', hleads⟩ := h
  obtain ⟨rfl, rfl⟩ := List.cons.inj hchars
  obtain rfl := Option.some.inj (hnext.symm.trans hnext')
  exact hleads

/-- White space ends a name. -/
theorem closes_space {front skip : STMState} {isTok : IsTokenCharMap} (hskip : Skips front skip)
    (hspace : ∀ cls ∈ blanks, isTok cls = false) (h : classOf code ∈ blanks) :
    Closes isTok front code := by
  refine ⟨space_ascii h, hspace _ h, ?_, ?_⟩
  · intro hamp
    rw [hamp] at h
    exact absurd h (by decide)
  · rw [hskip.next_eq _ h]
    rfl

/-- White space, or what stands behind it. -/
theorem space_begins {spaces : List UChar} (hspaces : IsSpace spaces) (stop : UChar)
    (more : List UChar) :
    ∃ first rest, spaces ++ stop :: more = first :: rest ∧
      (classOf first ∈ blanks ∨ first = stop) := by
  cases spaces with
  | nil => exact ⟨stop, more, rfl, .inr rfl⟩
  | cons first spaces => exact ⟨first, _, rfl, .inl (hspaces first List.mem_cons_self)⟩

section Scanned

variable (hin : IsCharSet cfg.inputCharSet boundIn)

include hin

/-- A character between two items. -/
theorem Leads.step (ns : STMState) (h : Leads cfg state (code :: chars) size s)
    (hascii : code.toNat < 128)
    (haction : (statemachine state).action = none)
    (hnext : (statemachine state).next (classOf code) = some ns) :
    Leads cfg ns chars size s :=
  h.pass fun _ _ hs' ↦ pass_step hin hs' hascii haction hnext

/-- The characters of a text begin with one of the token or with an entity. -/
theorem text_begins {isTok : IsTokenCharMap} {text : List Glyph} (hne : text ≠ [])
    (htext : ∀ glyph ∈ text, glyph.Fine cfg boundIn boundOut isTok) :
    ∃ first rest, written text = first :: rest ∧ first.toNat < boundIn ∧
      (isTok (classOf first) = true ∨ classOf first = .amp) := by
  have hcoded : AMP.toNat < boundIn := Nat.lt_of_lt_of_le (by decide) (ascii_coded hin)
  have hamp : classOf AMP = .amp := by decide
  cases text with
  | nil => exact absurd rfl hne
  | cons glyph text =>
      cases htext glyph List.mem_cons_self with
      | @char code hclass hcode _ => exact ⟨code, _, rfl, hcode, .inl hclass⟩
      | named | decimal | hexadecimal => exact ⟨AMP, _, rfl, hcoded, .inr hamp⟩

/-- A text in front of which the state falls back. -/
theorem Leads.fallback (ns : STMState) {isTok : IsTokenCharMap} {text : List Glyph}
    (h : Leads cfg state (written text ++ more) size s) (hne : text ≠ [])
    (htext : ∀ glyph ∈ text, glyph.Fine cfg boundIn boundOut isTok)
    (haction : (statemachine state).action = none)
    (hnext : ∀ cls, isTok cls = true ∨ cls = .amp → (statemachine state).next cls = none)
    (hfallback : (statemachine state).fallbackState = some ns) :
    Leads cfg ns (written text ++ more) size s := by
  obtain ⟨first, rest, hfirst, hcode, hclass⟩ := text_begins hin hne htext
  rw [hfirst] at h ⊢
  exact h.pass fun _ _ hs' ↦ pass_fallback hin hs' hcode haction (hnext _ hclass) hfallback

/-- White space between two items. -/
theorem Leads.skip {spaces : List UChar} (hspaces : IsSpace spaces) (hskip : Skips state state)
    (h : Leads cfg state (spaces ++ chars) size s) : Leads cfg state chars size s := by
  induction spaces with
  | nil => exact h
  | cons first spaces ih =>
      have hfirst := hspaces first List.mem_cons_self
      refine ih (fun other hother ↦ hspaces other (List.mem_cons_of_mem first hother)) ?_
      exact h.step hin state (space_ascii hfirst) hskip.action_eq (hskip.stays _ hfirst)

/-- White space of at least one character. -/
theorem Past.skip {front skip : STMState} {spaces : List UChar} (hne : spaces ≠ [])
    (hspaces : IsSpace spaces) (hskip : Skips front skip)
    (h : Past cfg front (spaces ++ chars) size s) : Leads cfg skip chars size s := by
  cases spaces with
  | nil => exact absurd rfl hne
  | cons first spaces =>
      have hleads := h.next (hskip.next_eq _ (hspaces first List.mem_cons_self))
      exact hleads.skip hin (fun other hother ↦ hspaces other (List.mem_cons_of_mem first hother))
        ⟨hskip.stays, hskip.action_eq, hskip.stays⟩

/-- White space, or none, up to a character that leads on. -/
theorem Past.over {front skip : STMState} {spaces : List UChar} {stop : UChar}
    (hspaces : IsSpace spaces) (hskip : Skips front skip)
    (h : Past cfg front (spaces ++ stop :: more) size s) (hascii : stop.toNat < 128)
    (hfront : (statemachine front).next (classOf stop) = some ns)
    (hbehind : (statemachine skip).next (classOf stop) = some ns) : Leads cfg ns more size s := by
  by_cases hne : spaces = []
  · rw [hne, List.nil_append] at h
    exact h.next hfront
  · exact (h.skip hin hne hspaces hskip).step hin ns hascii hskip.action_eq hbehind

variable (hout : IsCharSet cfg.outputCharSet boundOut)

include hout

/-- A state that reads a token, and the items that follow on it. -/
theorem Leads.token {op : STMAction} {kind : ElementType} {isTok : IsTokenCharMap}
    {text : List Glyph} (h : Leads cfg state (written text ++ code :: more) size s)
    (haction : (statemachine state).action = some (op, kind)) (hdef : tokenDefs op = some isTok)
    (hfine : FineText cfg boundIn boundOut size isTok text) (hcloses : Closes isTok state code)
    (hrest : ∀ s', Past cfg state (code :: more) size s' → Yields cfg after items s') :
    Yields cfg after ((kind, meant cfg text) :: items) s := by
  have hroom := hfine.room
  obtain ⟨ns, hnext⟩ := Option.isSome_iff_exists.mp hcloses.next_some
  refine h.yields ns more (by omega) ?_
    fun s' hs' ↦ hrest s' ⟨code, more, ns, rfl, hnext, hs'.leads⟩
  intro mask s' hs'
  exact .loop_return (item_shrinks mask) (pass_token hin hout hs' haction hdef hfine.glyphs
    hcloses.ascii hcloses.not_token hcloses.not_amp hnext hroom)

end Scanned

/-! ## Attributes -/

/-- The states in which an attribute is read: in front of its name, its name, behind its name, in
front of its value, its value, and behind it. -/
structure AttribStates where
  skip : STMState
  name : STMState
  named : STMState
  equal : STMState
  string : Quote → STMState
  behind : STMState
  nameItem : ElementType
  valueItem : ElementType

/-- How these states follow on each other. -/
structure AttribStates.Lawful (a : AttribStates) : Prop where
  behind_skips : Skips a.behind a.skip
  behind_action : (statemachine a.behind).action = none
  skip_next : ∀ cls, isTagChar cls = true ∨ cls = .amp → (statemachine a.skip).next cls = none
  skip_fallback : (statemachine a.skip).fallbackState = some a.name
  name_action : (statemachine a.name).action = some (.returnIdentifier, a.nameItem)
  name_skips : Skips a.name a.named
  name_next : (statemachine a.name).next .equal = some a.equal
  named_next : (statemachine a.named).next .equal = some a.equal
  equal_skips : Skips a.equal a.equal
  equal_next : ∀ quote : Quote,
    (statemachine a.equal).next (classOf quote.char) = some (a.string quote)
  string_action : ∀ quote, (statemachine (a.string quote)).action = some (quote.action, a.valueItem)
  string_next : ∀ quote : Quote,
    (statemachine (a.string quote)).next (classOf quote.char) = some a.behind

def headerAttrib : AttribStates where
  skip := .XTAGAISK
  name := .XTAGANAM
  named := .XTAGAESK
  equal := .XTAGAVSK
  string
    | .single => .XTAGAVSQ
    | .double => .XTAGAVDQ
  behind := .XTAGAVQE
  nameItem := .headerAttribName
  valueItem := .headerAttribValue

def tagAttrib : AttribStates where
  skip := .TAGAISK
  name := .TAGANAM
  named := .TAGAESK
  equal := .TAGAVSK
  string
    | .single => .TAGAVSQ
    | .double => .TAGAVDQ
  behind := .TAGAVQE
  nameItem := .tagAttribName
  valueItem := .tagAttribValue

theorem header_attrib_lawful : headerAttrib.Lawful where
  behind_skips := ⟨by decide, rfl, by decide⟩
  behind_action := rfl
  skip_next cls := by cases cls <;> decide
  skip_fallback := rfl
  name_action := rfl
  name_skips := ⟨by decide, rfl, by decide⟩
  name_next := rfl
  named_next := rfl
  equal_skips := ⟨by decide, rfl, by decide⟩
  equal_next quote := by cases quote <;> rfl
  string_action quote := by cases quote <;> rfl
  string_next quote := by cases quote <;> rfl

theorem tag_attrib_lawful : tagAttrib.Lawful where
  behind_skips := ⟨by decide, rfl, by decide⟩
  behind_action := rfl
  skip_next cls := by cases cls <;> decide
  skip_fallback := rfl
  name_action := rfl
  name_skips := ⟨by decide, rfl, by decide⟩
  name_next := rfl
  named_next := rfl
  equal_skips := ⟨by decide, rfl, by decide⟩
  equal_next quote := by cases quote <;> rfl
  string_action quote := by cases quote <;> rfl
  string_next quote := by cases quote <;> rfl

/-- Attributes begin with white space, and so does what stands behind them, if there is any. -/
theorem attributes_begin {list : List Attribute}
    (hfine : ∀ attrib ∈ list, attrib.Fine cfg boundIn boundOut size) {space : List UChar}
    (hspace : IsSpace space) (stop : UChar) (more : List UChar) :
    ∃ first rest, list.flatMap Attribute.chars ++ (space ++ stop :: more) = first :: rest ∧
      (classOf first ∈ blanks ∨ first = stop) := by
  cases list with
  | nil => exact space_begins hspace stop more
  | cons attrib list =>
      have hattrib := hfine attrib List.mem_cons_self
      obtain ⟨first, front, hfront⟩ := List.exists_cons_of_ne_nil hattrib.front_ne
      have hblank := hattrib.front_space first (hfront ▸ List.mem_cons_self)
      rw [List.flatMap_cons, List.append_assoc, attrib.chars_append, hfront]
      exact ⟨first, _, rfl, .inl hblank⟩

section Attributes

variable (hin : IsCharSet cfg.inputCharSet boundIn) (hout : IsCharSet cfg.outputCharSet boundOut)

include hin hout

/-- An attribute, from its name on. -/
theorem Leads.attrib {a : AttribStates} (ha : a.Lawful) {attrib : Attribute}
    (hfine : attrib.Fine cfg boundIn boundOut size)
    (h : Leads cfg a.skip (written attrib.name ++ (attrib.before ++ 61 :: (attrib.behind ++
      attrib.quote.char :: (written attrib.value ++ attrib.quote.char :: more)))) size s)
    (hrest : ∀ s', Leads cfg a.behind more size s' → Yields cfg after items s') :
    Yields cfg after (attrib.items cfg a.nameItem a.valueItem ++ items) s := by
  have hname := h.fallback hin a.name hfine.name_ne hfine.name_fine.glyphs
    ha.behind_skips.action_eq ha.skip_next ha.skip_fallback
  obtain ⟨first, rest, hfirst, hclass⟩ := space_begins hfine.before_space 61 (attrib.behind ++
    attrib.quote.char :: (written attrib.value ++ attrib.quote.char :: more))
  have hcloses : Closes isTagChar a.name first := by
    rcases hclass with hblank | rfl
    · exact closes_space ha.name_skips (by decide) hblank
    · exact ⟨by decide, by decide, by decide, by
        rw [show classOf 61 = .equal from rfl, ha.name_next]
        rfl⟩
  rw [hfirst] at hname
  refine hname.token hin hout ha.name_action rfl hfine.name_fine hcloses ?_
  intro s₁ h₁
  rw [← hfirst] at h₁
  have hequal := h₁.over hin hfine.before_space ha.name_skips (by decide) ha.name_next ha.named_next
  have hquote : attrib.quote.char.toNat < 128 := by cases attrib.quote <;> decide
  have hstring := (hequal.skip hin hfine.behind_space ha.equal_skips).step hin
    (a.string attrib.quote) hquote ha.equal_skips.action_eq (ha.equal_next attrib.quote)
  have hdef : tokenDefs attrib.quote.action = some attrib.quote.isChar := by
    cases attrib.quote <;> rfl
  have hends : Closes attrib.quote.isChar (a.string attrib.quote) attrib.quote.char := by
    refine ⟨hquote, ?_, ?_, by rw [ha.string_next]; rfl⟩ <;> cases attrib.quote <;> decide
  refine hstring.token hin hout (ha.string_action attrib.quote) hdef hfine.value_fine hends ?_
  intro s₂ h₂
  exact hrest s₂ (h₂.next (ha.string_next attrib.quote))

/-- Attributes, up to a character behind them. -/
theorem yields_attributes {a : AttribStates} (ha : a.Lawful) {front : STMState}
    (hfront : Skips front a.skip) {stop : UChar} (hstop : stop.toNat < 128)
    (hfrontNext : (statemachine front).next (classOf stop) = some ns)
    (hskipNext : (statemachine a.skip).next (classOf stop) = some ns)
    (hbehindNext : (statemachine a.behind).next (classOf stop) = some ns)
    {list : List Attribute} (hfine : ∀ attrib ∈ list, attrib.Fine cfg boundIn boundOut size)
    {space : List UChar} (hspace : IsSpace space)
    (h : Past cfg front (list.flatMap Attribute.chars ++ (space ++ stop :: more)) size s)
    (hrest : ∀ s', Leads cfg ns more size s' → Yields cfg after items s') :
    Yields cfg after (list.flatMap (Attribute.items cfg a.nameItem a.valueItem) ++ items) s := by
  induction list generalizing front s with
  | nil => exact hrest s (h.over hin hspace hfront hstop hfrontNext hskipNext)
  | cons attrib list ih =>
      have hattrib := hfine attrib List.mem_cons_self
      have hlist (other : Attribute) (hother : other ∈ list) :=
        hfine other (List.mem_cons_of_mem attrib hother)
      rw [List.flatMap_cons, List.append_assoc, attrib.chars_append] at h
      rw [List.flatMap_cons, List.append_assoc]
      refine (h.skip hin hattrib.front_ne hattrib.front_space hfront).attrib hin hout ha hattrib ?_
      intro s₁ h₁
      obtain ⟨first, rest, hfirst, hclass⟩ := attributes_begin hlist hspace stop more
      obtain ⟨ns', hnext, hascii⟩ : ∃ ns', (statemachine a.behind).next (classOf first) = some ns' ∧
          first.toNat < 128 := by
        rcases hclass with hblank | rfl
        · exact ⟨_, ha.behind_skips.next_eq _ hblank, space_ascii hblank⟩
        · exact ⟨ns, hbehindNext, hstop⟩
      rw [hfirst] at h₁
      have hpast : Past cfg a.behind (first :: rest) size s₁ :=
        ⟨first, rest, ns', rfl, hnext, h₁.step hin ns' hascii ha.behind_action hnext⟩
      rw [← hfirst] at hpast
      exact ih ha.behind_skips hbehindNext hlist hpast

end Attributes

/-! ## Markup -/

/-- The scanner is in front of these characters, or it has passed the first one already, with the
word in front of it. -/
def Amid (cfg : Setup) (state : STMState) (chars : List UChar) (size : Nat) (s : XMLScanner) :
    Prop :=
  Leads cfg state chars size s ∨ Past cfg state chars size s

/-- The states in front of a tag: at the beginning of a document without a header, and between the
markup. -/
inductive BeforeTag : STMState → STMState → Prop where
  | start : BeforeTag .START .STARTTAG
  | content : BeforeTag .CONTENT .XMLTAG

section Markups

variable (hin : IsCharSet cfg.inputCharSet boundIn) (hout : IsCharSet cfg.outputCharSet boundOut)

include hin hout

omit hout in
theorem Amid.next (h : Amid cfg state (code :: chars) size s) (hascii : code.toNat < 128)
    (haction : (statemachine state).action = none)
    (hnext : (statemachine state).next (classOf code) = some ns) : Leads cfg ns chars size s := by
  rcases h with h | h
  · exact h.step hin ns hascii haction hnext
  · exact h.next hnext

omit hout in
/-- No word begins with a character that was passed with the word in front of it. -/
theorem Amid.word {text : List Glyph} (hne : text ≠ [])
    (htext : ∀ glyph ∈ text, glyph.Fine cfg boundIn boundOut isContentChar)
    (h : Amid cfg .CONTENT (written text ++ more) size s) :
    Leads cfg .CONTENT (written text ++ more) size s := by
  rcases h with h | ⟨code, rest, ns, hchars, hnext, -⟩
  · exact h
  · obtain ⟨first, behind, hfirst, -, hclass⟩ := text_begins hin hne htext
    rw [hfirst] at hchars
    obtain ⟨rfl, -⟩ := List.cons.inj hchars
    have hnone : (statemachine .CONTENT).next (classOf first) = none := by
      generalize classOf first = cls at hclass ⊢
      cases cls <;> revert hclass <;> decide
    exact nomatch hnone.symm.trans hnext

/-- The name of a tag and its attributes, up to a character behind them. -/
theorem Amid.tag {st st' : STMState} (hst : BeforeTag st st') {stop : UChar}
    {name : List Glyph} {attributes : Attributes} (hname : name ≠ [])
    (hfine : FineText cfg boundIn boundOut size isTagChar name)
    (hattributes : attributes.Fine cfg boundIn boundOut size)
    (h : Amid cfg st (60 :: (written name ++ (attributes.chars ++ stop :: more))) size s)
    (hstop : stop = 62 ∨ stop = 47)
    (hopen : (statemachine .OPENTAG).next (classOf stop) = some ns)
    (hskip : (statemachine .TAGAISK).next (classOf stop) = some ns)
    (hbehind : (statemachine .TAGAVQE).next (classOf stop) = some ns)
    (hrest : ∀ s', Leads cfg ns more size s' → Yields cfg after items s') :
    Yields cfg after ((.openTag, meant cfg name) ::
      (attributes.items cfg .tagAttribName .tagAttribValue ++ items)) s := by
  have hnamed : Leads cfg .OPENTAG (written name ++ (attributes.list.flatMap Attribute.chars ++
      (attributes.space ++ stop :: more))) size s := by
    rw [Attributes.chars, List.append_assoc] at h
    cases hst with
    | start =>
        exact (h.next hin (by decide) rfl rfl).fallback hin .OPENTAG hname hfine.glyphs rfl
          (fun cls ↦ by cases cls <;> decide) rfl
    | content =>
        exact (h.next hin (by decide) rfl rfl).fallback hin .OPENTAG hname hfine.glyphs rfl
          (fun cls ↦ by cases cls <;> decide) rfl
  have hascii : stop.toNat < 128 := by
    rcases hstop with rfl | rfl <;> decide
  have hskips : Skips .OPENTAG .TAGAISK := ⟨by decide, rfl, by decide⟩
  obtain ⟨first, rest, hfirst, hclass⟩ :=
    attributes_begin hattributes.list_fine hattributes.space stop more
  have hcloses : Closes isTagChar .OPENTAG first := by
    rcases hclass with hblank | rfl
    · exact closes_space hskips (by decide) hblank
    · refine ⟨hascii, ?_, ?_, by rw [hopen]; rfl⟩ <;> rcases hstop with rfl | rfl <;> decide
  rw [hfirst] at hnamed
  refine hnamed.token hin hout rfl rfl hfine hcloses ?_
  intro s₁ h₁
  rw [← hfirst] at h₁
  exact yields_attributes hin hout tag_attrib_lawful hskips hascii hopen hskip hbehind
    hattributes.list_fine hattributes.space h₁ hrest

/-- Markup is read as its items. Behind a word stands what ends it. -/
theorem Amid.markup {st st' : STMState} (hst : BeforeTag st st') {markup : Markup}
    (hfine : markup.Fine cfg boundIn boundOut size) (htag : st = .CONTENT ∨ markup.IsTag)
    (h : Amid cfg st (markup.chars ++ code :: more) size s)
    (hcloses : markup.isWord = true → Closes isContentChar .TOKEN code)
    (hrest : ∀ s', Amid cfg .CONTENT (code :: more) size s' → Yields cfg after items s') :
    Yields cfg after (markup.items cfg ++ items) s := by
  cases hfine with
  | @openTag name attributes hname hfine hattributes =>
      have hchars : (Markup.openTag name attributes).chars ++ code :: more =
          60 :: (written name ++ (attributes.chars ++ 62 :: code :: more)) := by
        simp [Markup.chars]
      rw [hchars] at h
      exact h.tag hin hout hst hname hfine hattributes (.inl rfl) rfl rfl rfl
        fun s₁ h₁ ↦ hrest s₁ (.inl h₁)
  | @emptyTag name attributes hname hfine hattributes =>
      have hroom := hfine.room
      have hchars : (Markup.emptyTag name attributes).chars ++ code :: more =
          60 :: (written name ++ (attributes.chars ++ 47 :: 62 :: code :: more)) := by
        simp [Markup.chars]
      rw [hchars] at h
      rw [Markup.items, List.cons_append, List.append_assoc]
      refine h.tag hin hout hst hname hfine hattributes (.inr rfl) rfl rfl rfl ?_
      intro s₁ h₁
      refine h₁.yields .CONTENT (code :: more) (by omega) ?_
        fun s₂ h₂ ↦ hrest s₂ (.inl h₂.leads)
      intro mask s₂ h₂
      rw [shown_nil]
      exact .loop_return (item_shrinks mask) (pass_return hin h₂ (by decide) rfl rfl rfl
        (by decide) (by decide) rfl)
  | @closeTag name behind hfine hbehind =>
      obtain rfl : st = .CONTENT := htag.resolve_right id
      have hchars : (Markup.closeTag name behind).chars ++ code :: more =
          60 :: 47 :: (written name ++ (behind ++ 62 :: code :: more)) := by
        simp [Markup.chars]
      rw [hchars] at h
      have hskips : Skips .CLOSETAG .TAGCLSK := ⟨by decide, rfl, by decide⟩
      have htoken := (h.next hin (by decide) rfl rfl).step hin .CLOSETAG (by decide) rfl rfl
      obtain ⟨first, rest, hfirst, hclass⟩ := space_begins hbehind 62 (code :: more)
      have hends : Closes isTagChar .CLOSETAG first := by
        rcases hclass with hblank | rfl
        · exact closes_space hskips (by decide) hblank
        · exact ⟨by decide, by decide, by decide, rfl⟩
      rw [hfirst] at htoken
      refine htoken.token hin hout rfl rfl hfine hends ?_
      intro s₁ h₁
      rw [← hfirst] at h₁
      exact hrest s₁ (.inl (h₁.over hin hbehind hskips (by decide) rfl rfl))
  | @word text hne hfine =>
      obtain rfl : st = .CONTENT := htag.resolve_right id
      have htoken := (h.word hin hne hfine.glyphs).fallback hin .TOKEN hne hfine.glyphs rfl
        (fun cls ↦ by cases cls <;> decide) rfl
      refine htoken.token hin hout rfl rfl hfine (hcloses rfl) ?_
      -- What ends the word leads on from both states in the same way.
      intro s₁ h₁
      exact hrest s₁ (.inr h₁)
  | @space chars hne hspace =>
      obtain rfl : st = .CONTENT := htag.resolve_right id
      have hskips : Skips .CONTENT .CONTENT := ⟨by decide, rfl, by decide⟩
      have hleads : Leads cfg .CONTENT (code :: more) size s := by
        rcases h with h | h
        · exact h.skip hin hspace hskips
        · exact h.skip hin hne hspace hskips
      exact hrest s (.inl hleads)

omit hout in
/-- Markup has a first character. It ends the word in front of it, unless it is a word itself. -/
theorem markup_begins {markup : Markup} (hfine : markup.Fine cfg boundIn boundOut size)
    (more : List UChar) :
    ∃ code rest, markup.chars ++ more = code :: rest ∧
      (markup.isWord = false → Closes isContentChar .TOKEN code) := by
  have htag : Closes isContentChar .TOKEN 60 := ⟨by decide, by decide, by decide, rfl⟩
  cases hfine with
  | openTag | emptyTag | closeTag => exact ⟨60, _, rfl, fun _ ↦ htag⟩
  | @word text hne hfine =>
      obtain ⟨first, rest, hfirst, -⟩ := text_begins hin hne hfine.glyphs
      refine ⟨first, rest ++ more, ?_, fun h ↦ nomatch h⟩
      rw [Markup.chars, hfirst, List.cons_append]
  | @space chars hne hspace =>
      obtain ⟨first, chars, rfl⟩ := List.exists_cons_of_ne_nil hne
      have hskips : Skips .TOKEN .CONTENT := ⟨by decide, rfl, by decide⟩
      exact ⟨first, _, rfl, fun _ ↦
        closes_space hskips (by decide) (hspace first List.mem_cons_self)⟩

/-- The body of a document, or the rest of it, is read as its items. -/
theorem Amid.body {st st' : STMState} (hst : BeforeTag st st') (body : List Markup)
    (hfine : ∀ markup ∈ body, markup.Fine cfg boundIn boundOut size)
    (hapart : body.IsChain fun markup next ↦ !(markup.isWord && next.isWord))
    (htag : st = .CONTENT ∨ ∃ tag more, body = tag :: more ∧ tag.IsTag)
    (h : Amid cfg st (body.flatMap Markup.chars ++ [0]) size s)
    (hrest : ∀ s', Amid cfg .CONTENT [0] size s' → Yields cfg after items s') :
    Yields cfg after (body.flatMap (Markup.items cfg) ++ items) s := by
  induction body generalizing st st' s with
  | nil =>
      obtain rfl : st = .CONTENT := htag.resolve_right (by simp)
      exact hrest s h
  | cons markup body ih =>
      have hbody (other : Markup) (hother : other ∈ body) :=
        hfine other (List.mem_cons_of_mem markup hother)
      rw [List.flatMap_cons, List.append_assoc] at h ⊢
      have hfirst : st = .CONTENT ∨ markup.IsTag := by
        refine htag.imp_right ?_
        rintro ⟨tag, more, hcons, htag⟩
        obtain ⟨rfl, -⟩ := List.cons.inj hcons
        exact htag
      obtain ⟨code, rest, hcode, hcloses⟩ : ∃ code rest,
          body.flatMap Markup.chars ++ [0] = code :: rest ∧
            (markup.isWord = true → Closes isContentChar .TOKEN code) := by
        cases body with
        | nil => exact ⟨0, [], rfl, fun _ ↦ ⟨by decide, by decide, by decide, rfl⟩⟩
        | cons next body =>
            rw [List.flatMap_cons, List.append_assoc]
            obtain ⟨hpair, -⟩ := List.isChain_cons_cons.mp hapart
            have hnext := hfine next (List.mem_cons_of_mem markup List.mem_cons_self)
            obtain ⟨code, rest, hcode, hcloses⟩ :=
              markup_begins hin hnext (body.flatMap Markup.chars ++ [0])
            refine ⟨code, rest, hcode, fun hword ↦ hcloses ?_⟩
            rw [hword, Bool.true_and, Bool.not_eq_true'] at hpair
            exact hpair
      rw [hcode] at h
      refine h.markup hin hout hst (hfine markup List.mem_cons_self) hfirst hcloses ?_
      intro s₁ h₁
      rw [← hcode] at h₁
      exact ih .content hbody hapart.of_cons (.inl rfl) h₁

/-- The header of a document is read as its items. -/
theorem yields_header {attributes : Attributes} (hsize : 0 < size)
    (hfine : attributes.Fine cfg boundIn boundOut size)
    (h : Leads cfg .START (headerChars attributes ++ more) size s)
    (hrest : ∀ s', Leads cfg .CONTENT more size s' → Yields cfg after items s') :
    Yields cfg after (headerItems cfg attributes ++ items) s := by
  have hkey : Leads cfg .XTAG ((text "xml").map UInt8.toUInt32 ++
      (attributes.list.flatMap Attribute.chars ++ (attributes.space ++ 63 :: 62 :: more)))
      size s := by
    have hlead : Leads cfg .START (60 :: 63 :: ((text "xml").map UInt8.toUInt32 ++
        (attributes.list.flatMap Attribute.chars ++ (attributes.space ++ 63 :: 62 :: more))))
        size s := by
      simpa [headerChars, Attributes.chars] using h
    exact (hlead.step hin .STARTTAG (by decide) rfl rfl).step hin .XTAG (by decide) rfl rfl
  have hend : ∀ s', Leads cfg .XTAGEND (62 :: more) size s' →
      Yields cfg after ((.headerEnd, []) :: items) s' := by
    intro s₁ h₁
    refine h₁.yields .CONTENT more hsize ?_ fun s₂ h₂ ↦ hrest s₂ h₂.leads
    intro mask s₂ h₂
    rw [shown_nil]
    exact .loop_return (item_shrinks mask) (pass_return hin h₂ (by decide) rfl rfl rfl (by decide)
      (by decide) rfl)
  have hskips : Skips .XTAG .XTAGAISK := ⟨by decide, rfl, by decide⟩
  have hpast : Past cfg .XTAG (attributes.list.flatMap Attribute.chars ++
      (attributes.space ++ 63 :: 62 :: more)) size s := by
    obtain ⟨first, rest, hfirst, hclass⟩ :=
      attributes_begin hfine.list_fine hfine.space 63 (62 :: more)
    obtain ⟨ns, hnext, hascii⟩ : ∃ ns, (statemachine .XTAG).next (classOf first) = some ns ∧
        first.toNat < 128 := by
      rcases hclass with hblank | rfl
      · exact ⟨_, hskips.next_eq _ hblank, space_ascii hblank⟩
      · exact ⟨.XTAGEND, rfl, by decide⟩
    rw [hfirst] at hkey ⊢
    have hleads : Leads cfg ns rest size s :=
      hkey.pass fun _ _ hs' ↦ pass_key hin hs' xml_ascii hascii rfl rfl rfl hnext
    exact ⟨first, rest, ns, rfl, hnext, hleads⟩
  rw [headerItems, List.append_assoc]
  exact yields_attributes hin hout header_attrib_lawful hskips (by decide) rfl rfl rfl
    hfine.list_fine hfine.space hpast hend

/-- A document is read as its items. -/
theorem yields_document {doc : Document} (hsize : 0 < size)
    (hfine : doc.Fine cfg boundIn boundOut size) (h : At cfg .START doc.chars size s) :
    Yields cfg (fun _ ↦ True) (doc.items cfg) s := by
  have hend : ∀ s', Amid cfg .CONTENT [0] size s' →
      Yields cfg (fun _ ↦ True) [(.exit, [])] s' := by
    intro s₁ h₁
    refine (h₁.next hin (by decide) rfl rfl).yields .EXIT [] hsize ?_ fun _ _ ↦ trivial
    intro mask s₂ h₂
    rw [shown_nil]
    exact .loop_return (item_shrinks mask) (pass_exit h₂)
  have hskips : Skips .START .START := ⟨by decide, rfl, by decide⟩
  have hleads := h.leads.skip hin hfine.front_space hskips
  rw [Document.items]
  cases hheader : doc.header with
  | some attributes =>
      rw [hheader] at hleads
      refine yields_header hin hout hsize (hfine.header_fine attributes hheader) hleads ?_
      intro s₁ h₁
      exact Amid.body hin hout .content doc.body hfine.body_fine hfine.words_apart (.inl rfl)
        (.inl h₁) hend
  | none =>
      rw [hheader] at hleads
      exact Amid.body hin hout .start doc.body hfine.body_fine hfine.words_apart
        (.inr (hfine.tag_first hheader)) (.inl hleads) hend

end Markups

end Yields

/-! ## Calls -/

/-- The items of a document are no errors. -/
theorem document_item_kind {cfg : Setup} {doc : Document} {item : Item}
    (h : item ∈ doc.items cfg) : item.1 ≠ .errorOccurred := by
  have hattribute {nameItem valueItem : ElementType} (hname : nameItem ≠ .errorOccurred)
      (hvalue : valueItem ≠ .errorOccurred) {attributes : Attributes}
      (h : item ∈ attributes.items cfg nameItem valueItem) : item.1 ≠ .errorOccurred := by
    obtain ⟨a, -, ha⟩ := List.mem_flatMap.mp h
    rcases List.mem_pair.mp ha with rfl | rfl
    · exact hname
    · exact hvalue
  have hkind {kind : ElementType} {codes : List UChar} (hkind : kind ≠ .errorOccurred)
      (h : item = (kind, codes)) : item.1 ≠ .errorOccurred := by
    rw [h]
    exact hkind
  have hmarkup {markup : Markup} (h : item ∈ markup.items cfg) : item.1 ≠ .errorOccurred := by
    cases markup with
    | openTag name attributes =>
        rcases List.mem_cons.mp h with h | h
        · exact hkind (by decide) h
        · exact hattribute (by decide) (by decide) h
    | emptyTag name attributes =>
        rcases List.mem_cons.mp h with h | h
        · exact hkind (by decide) h
        · rcases List.mem_append.mp h with h | h
          · exact hattribute (by decide) (by decide) h
          · exact hkind (by decide) (List.mem_singleton.mp h)
    | closeTag name behind => exact hkind (by decide) (List.mem_singleton.mp h)
    | word text => exact hkind (by decide) (List.mem_singleton.mp h)
    | space chars => exact absurd h List.not_mem_nil
  rcases List.mem_append.mp h with h | h
  · cases hheader : doc.header with
    | none =>
        rw [hheader] at h
        exact absurd h List.not_mem_nil
    | some attributes =>
        rw [hheader] at h
        rcases List.mem_append.mp h with h | h
        · exact hattribute (by decide) (by decide) h
        · exact hkind (by decide) (List.mem_singleton.mp h)
  · rcases List.mem_append.mp h with h | h
    · obtain ⟨markup, -, h⟩ := List.mem_flatMap.mp h
      exact hmarkup h
    · exact hkind (by decide) (List.mem_singleton.mp h)

/-- What the caller gets for the items that the scanner yields. -/
theorem requests_of_yields {cfg : Setup} {after : XMLScanner → Prop} (masks : List UInt16)
    {items : List Item} {s : XMLScanner} (h : Yields cfg after items s)
    (hkind : ∀ item ∈ items, item.1 ≠ .errorOccurred) (hcount : masks.length ≤ items.length) :
    requests cfg masks s [] = List.zipWith (fun mask item ↦
      .ok (item.1, cfg.outputCharSet.encode (shown mask item.1 item.2), .ok)) masks items := by
  induction masks generalizing items s with
  | nil => rfl
  | cons mask masks ih =>
      cases items with
      | nil => exact absurd hcount (Nat.not_succ_le_zero masks.length)
      | cons item items =>
          obtain ⟨s', hitem, ⟨htext, herror⟩, hrest⟩ := h mask
          rw [requests, request, hitem, List.zipWith_cons_cons]
          show Except.ok (item.1, s'.item, s'.error) ::
            (if item.1 = .errorOccurred then [] else _) = _
          rw [if_neg (hkind item List.mem_cons_self), htext, herror,
            ih hrest (fun other hother ↦ hkind other (List.mem_cons_of_mem item hother))
              (Nat.le_of_succ_le_succ hcount)]

theorem in_mask_all (kind : ElementType) : inMask 0xFFFF kind = true := by cases kind <;> decide

/-- The scanner in front of a text. -/
theorem construct_at (cfg : Setup) (chars : List UChar) {outputBuf : List Byte}
    {outputBufSize : UInt32} (hlength : outputBuf.length = outputBufSize.toNat) :
    At cfg .START chars outputBufSize.toNat
      (.construct (cfg.inputCharSet.encode chars) outputBuf outputBufSize) :=
  ⟨[], List.replicate 16 0, rfl, _, .text chars, rfl, rfl, rfl, rfl, rfl, hlength, rfl, rfl⟩

/-- Whatever character sets the scanner is instantiated with, it reads a document that is written in
the one of the input as the items that it was written from. The texts that are asked for are printed
in the one of the output. -/
theorem document_read_back {cfg : Setup} {boundIn boundOut : Nat}
    (hin : IsCharSet cfg.inputCharSet boundIn) (hout : IsCharSet cfg.outputCharSet boundOut)
    {outputBuf : List Byte} {outputBufSize : UInt32}
    (hlength : outputBuf.length = outputBufSize.toNat) (hsize : 0 < outputBufSize)
    {doc : Document} (hfine : doc.Fine cfg boundIn boundOut outputBufSize.toNat)
    (masks : List UInt16) (hcount : masks.length ≤ (doc.items cfg).length) :
    requests cfg masks
        (.construct (cfg.inputCharSet.encode doc.chars) outputBuf outputBufSize) [] =
      List.zipWith (fun mask item ↦
        .ok (item.1, cfg.outputCharSet.encode (shown mask item.1 item.2), .ok))
        masks (doc.items cfg) := by
  have hyields := yields_document hin hout (UInt32.lt_iff_toNat_lt.mp hsize) hfine
    (construct_at cfg doc.chars hlength)
  exact requests_of_yields masks hyields (fun item hitem ↦ document_item_kind hitem) hcount

/-- A header, a tag with white space and an attribute in single quotes whose value is not asked for,
and a word with two numeric entities, of which the second one is not decoded, from two bytes for
each character to UTF-8. -/
theorem document_read_back_entities :
    let cfg : Setup := ⟨UCS2 .BE, UTF8, none⟩
    let doc : Document := ⟨[], some ⟨[], [32]⟩, [
      .openTag [.char 97] ⟨[⟨[10, 32], [.char 98], [], [32], .single, [.named [108, 116]]⟩], [32]⟩,
      .word [.decimal [54, 53], .decimal [49, 50, 51]], .closeTag [.char 97] []]⟩
    requests cfg [0xFFFF, 0xFFFF, 0xFFFF, 0, 0xFFFF, 0xFFFF, 0xFFFF]
        (.construct (cfg.inputCharSet.encode doc.chars) (List.replicate 96 0) 96) [] =
      List.zipWith (fun mask item ↦
        .ok (item.1, cfg.outputCharSet.encode (shown mask item.1 item.2), .ok))
        [0xFFFF, 0xFFFF, 0xFFFF, 0, 0xFFFF, 0xFFFF, 0xFFFF] (doc.items cfg) := by
  intro cfg doc
  suffices hfine : doc.Fine cfg (2 ^ 16) (2 ^ 31) (UInt32.toNat 96) from
    document_read_back (.ucs2 .BE) .utf8 (by decide) (by decide) hfine _ (by decide)
  have hname {code : UChar} (h : isTagChar (classOf code) = true ∧ code.toNat < 128) :
      FineText cfg (2 ^ 16) (2 ^ 31) (UInt32.toNat 96) isTagChar [.char code] :=
    .char h.1 (Nat.lt_trans h.2 (by decide)) (Nat.lt_trans h.2 (by decide)) (by decide)
  refine ⟨by decide, ?_, ?_, by decide, fun hnone ↦ nomatch hnone⟩
  · rintro attributes hsome
    obtain rfl := Option.some.inj hsome
    exact .nil cfg _ _ _ (by decide)
  · have hentity (chars : List UChar) (h : chars.all fun ch ↦
        decide (ch.toNat < 128 ∧ classOf ch = .any ∧ ch ≠ SEMICOLON.toUInt32)) :
        ∀ ch ∈ chars, EntityChar ch := by
      intro ch hch
      obtain ⟨hascii, hany, hend⟩ := of_decide_eq_true (List.all_eq_true.mp h ch hch)
      exact ⟨hascii, hany, hend⟩
    refine List.forall_mem_cons.mpr ⟨.openTag (by decide) (hname (by decide)) ⟨?_, by decide⟩,
      List.forall_mem_cons.mpr ⟨.word (by decide) ⟨?_, by decide⟩,
        List.forall_mem_singleton.mpr (.closeTag (hname (by decide)) (by decide))⟩⟩
    · refine List.forall_mem_singleton.mpr ⟨by decide, by decide, by decide, hname (by decide),
        by decide, by decide, ⟨?_, by decide⟩⟩
      have hless : entityOf cfg ([108, 116].map UInt32.toUInt8) = some 60 := by decide
      exact List.forall_mem_singleton.mpr (.named (hentity _ (by decide)) (by decide) (by decide)
        hless (by decide))
    · refine List.forall_mem_cons.mpr ⟨.decimal ⟨hentity _ (by decide), by decide, ?_⟩ (by decide),
        List.forall_mem_singleton.mpr (.decimal ⟨hentity _ (by decide), by decide, ?_⟩ (by decide))⟩
      · intro value h
        obtain rfl : 65 = value := Option.some.inj h
        decide
      · exact fun value h ↦ nomatch h

/-! ## Numeric entities -/

/-- The number that digits stand for. -/
def numberOf (base value : Nat) (digits : List UChar) : Nat :=
  digits.foldl (fun value ch ↦ value * base + HEX ch.toUInt8) value

theorem number_of_le {base : Nat} (hbase : 0 < base) (value : Nat) (digits : List UChar) :
    value ≤ numberOf base value digits := by
  induction digits generalizing value with
  | nil => exact Nat.le_refl _
  | cons ch digits ih =>
      refine Nat.le_trans ?_ (ih (value * base + HEX ch.toUInt8))
      exact Nat.le_trans (Nat.le_mul_of_pos_right value hbase) (Nat.le_add_right _ _)

/-- Digits have a value exactly if their number has two digits at most. -/
theorem numeric_value_eq {base : Nat} (hbase : 0 < base) {digits : List UChar}
    (hdigits : ∀ ch ∈ digits, HEX ch.toUInt8 < base) {value : Nat} (hvalue : value < base * base) :
    numericValue base value digits =
      if numberOf base value digits < base * base then some (numberOf base value digits)
      else none := by
  induction digits generalizing value with
  | nil => exact (if_pos hvalue).symm
  | cons ch digits ih =>
      have hdigit := hdigits ch List.mem_cons_self
      rw [numericValue]
      by_cases hless : base ≤ value
      · have hlarge : base * base ≤ numberOf base (value * base + HEX ch.toUInt8) digits :=
          calc base * base ≤ value * base := Nat.mul_le_mul_right base hless
            _ ≤ value * base + HEX ch.toUInt8 := Nat.le_add_right _ _
            _ ≤ _ := number_of_le hbase _ digits
        rw [if_pos hless]
        exact (if_neg (Nat.not_lt.mpr hlarge)).symm
      · have hnext : value * base + HEX ch.toUInt8 < base * base :=
          calc value * base + HEX ch.toUInt8 < value * base + base := by omega
            _ = (value + 1) * base := (Nat.succ_mul value base).symm
            _ ≤ base * base := Nat.mul_le_mul_right base (Nat.not_le.mp hless)
        rw [if_neg hless]
        exact ih (fun other hother ↦ hdigits other (List.mem_cons_of_mem ch hother)) hnext

/-- A numeric entity, decimal or hexadecimal. -/
def numericGlyph (hexadecimal : Bool) (digits : List UChar) : Glyph :=
  if hexadecimal then .hexadecimal digits else .decimal digits

def baseOf (hexadecimal : Bool) : Nat := if hexadecimal then 16 else 10

/-- Numeric entities are decoded up to the number 99, or up to 255 if they are hexadecimal. Of a
larger one a digit is doubled, and the mark of a hexadecimal number is lost. -/
theorem numeric_entity_read {cfg : Setup} {boundIn boundOut : Nat}
    (hin : IsCharSet cfg.inputCharSet boundIn) (hout : IsCharSet cfg.outputCharSet boundOut)
    {outputBuf : List Byte} {outputBufSize : UInt32}
    (hlength : outputBuf.length = outputBufSize.toNat) (hexadecimal : Bool) {digits : List UChar}
    (hdigits : ∀ ch ∈ digits, EntityChar ch ∧ HEX ch.toUInt8 < baseOf hexadecimal)
    (hcount : digits.length ≤ 15) (hprintable : 32 ≤ numberOf (baseOf hexadecimal) 0 digits)
    (hroom : 8 * (digits.length + 4) + 8 ≤ outputBufSize.toNat) :
    requests cfg (List.replicate 3 0xFFFF) (.construct (cfg.inputCharSet.encode
        (Document.chars ⟨[], some ⟨[], []⟩,
          [.word [numericGlyph hexadecimal digits], .space [32]]⟩)) outputBuf outputBufSize) [] =
      [.ok (.headerEnd, [], .ok),
        .ok (.content, cfg.outputCharSet.encode
          (if numberOf (baseOf hexadecimal) 0 digits < baseOf hexadecimal * baseOf hexadecimal
            then [UInt32.ofNat (numberOf (baseOf hexadecimal) 0 digits)]
            else AMP :: HASH.toUInt32 :: doubled (baseOf hexadecimal) 0 digits ++
              [SEMICOLON.toUInt32]), .ok),
        .ok (.exit, [], .ok)] := by
  have hpos : 0 < baseOf hexadecimal := by cases hexadecimal <;> decide
  have hvalue := numeric_value_eq hpos (fun ch hch ↦ (hdigits ch hch).2)
    (Nat.mul_pos hpos hpos)
  have hcodes : (numericGlyph hexadecimal digits).codes cfg =
      Glyph.numericCodes (baseOf hexadecimal) digits := by cases hexadecimal <;> rfl
  have hcount' : (Glyph.numericCodes (baseOf hexadecimal) digits).length ≤ digits.length + 4 := by
    rw [Glyph.numericCodes]
    cases hsome : numericValue (baseOf hexadecimal) 0 digits with
    | some value => exact Nat.le_add_left 1 _
    | none => simp [doubled_length hsome]
  have hfine : Glyph.FineDigits boundOut (baseOf hexadecimal) digits := by
    refine ⟨fun ch hch ↦ (hdigits ch hch).1, hcount, ?_⟩
    intro value hsome
    rw [hvalue] at hsome
    split_ifs at hsome with hless
    obtain rfl := Option.some.inj hsome
    have hsquare : baseOf hexadecimal * baseOf hexadecimal ≤ 256 := by
      cases hexadecimal <;> decide
    exact ⟨hprintable, Nat.lt_of_lt_of_le hless (Nat.le_trans hsquare (latin_coded hout))⟩
  have hglyph : (numericGlyph hexadecimal digits).Fine cfg boundIn boundOut isContentChar := by
    cases hexadecimal with
    | true => exact .hexadecimal hfine
    | false =>
        refine .decimal hfine ?_
        intro hfirst
        have hmark := (hdigits 120 (List.mem_of_head? hfirst)).2
        exact absurd hmark (by decide)
  have hdoc : Document.Fine cfg boundIn boundOut outputBufSize.toNat
      ⟨[], some ⟨[], []⟩, [.word [numericGlyph hexadecimal digits], .space [32]]⟩ := by
    refine ⟨List.forall_mem_nil _, ?_, ?_, ?_, fun hnone ↦ absurd hnone (Option.some_ne_none _)⟩
    · rintro attributes hsome
      obtain rfl := Option.some.inj hsome
      exact .nil cfg _ _ _ (by decide)
    · refine List.forall_mem_cons.mpr ⟨.word (List.cons_ne_nil _ _) ⟨?_, ?_⟩,
        List.forall_mem_singleton.mpr (.space (by decide) (by decide))⟩
      · exact List.forall_mem_singleton.mpr hglyph
      · rw [meant, List.flatMap_singleton, hcodes]
        omega
    · exact List.isChain_cons_cons.mpr ⟨rfl, .singleton _⟩
  have hitems : Document.items cfg
        ⟨[], some ⟨[], []⟩, [.word [numericGlyph hexadecimal digits], .space [32]]⟩ =
      [(.headerEnd, []), (.content, Glyph.numericCodes (baseOf hexadecimal) digits),
        (.exit, [])] := by
    simp [Document.items, headerItems, Attributes.items, Markup.items, meant, hcodes]
  have hyields := yields_document hin hout (by omega) hdoc
    (construct_at cfg _ hlength)
  have hrequests := requests_of_yields (List.replicate 3 0xFFFF) hyields
    (fun item hitem ↦ document_item_kind hitem) (by rw [hitems]; exact Nat.le_refl 3)
  have hread : Glyph.numericCodes (baseOf hexadecimal) digits =
      if numberOf (baseOf hexadecimal) 0 digits < baseOf hexadecimal * baseOf hexadecimal
        then [UInt32.ofNat (numberOf (baseOf hexadecimal) 0 digits)]
        else AMP :: HASH.toUInt32 :: doubled (baseOf hexadecimal) 0 digits ++
          [SEMICOLON.toUInt32] := by
    rw [Glyph.numericCodes, hvalue]
    split_ifs <;> rfl
  rw [hitems, hread] at hrequests
  simpa [shown, in_mask_all, List.replicate, CharSet.encode] using hrequests

theorem numeric_entity_read_hundred :
    let cfg : Setup := ⟨UTF8, UTF8, none⟩
    requests cfg (List.replicate 3 0xFFFF) (.construct (UTF8.encode
        (Document.chars ⟨[], some ⟨[], []⟩,
          [.word [numericGlyph false [49, 48, 48]], .space [32]]⟩)) (List.replicate 64 0) 64) [] =
      [.ok (.headerEnd, [], .ok), .ok (.content, text "&#1000;", .ok), .ok (.exit, [], .ok)] := by
  intro cfg
  have hdigits (ch : UChar) (h : ch ∈ [(49 : UChar), 48, 48]) :
      EntityChar ch ∧ HEX ch.toUInt8 < baseOf false := by
    have hdigit : ch = 49 ∨ ch = 48 := by simpa using h
    rcases hdigit with rfl | rfl <;> exact ⟨⟨by decide, by decide, by decide⟩, by decide⟩
  exact numeric_entity_read .utf8 .utf8 (by decide) false hdigits (by decide) (by decide)
    (by decide)

end XMLScanner

end Smerp.Textwolf
