import Smerp.Textwolf.PathSelect

/-!
# The scopes of a selection

What a selection does, without its arrays, ranges and positions: each tag that is open has a scope
with the tokens that wait in it. An item is matched with the tokens of the innermost scope, and with
those of the scopes around it that follow. What they lead to is expanded in the innermost scope.
-/

namespace Smerp.Textwolf

/-! ## Tokens -/

/-- A state and those that it is linked to, each with its index. -/
def alternatives (states : List State) : Nat → Option Nat → List (Nat × State)
  | 0, _ | _, none => []
  | fuel + 1, some stateidx =>
      match states[stateidx]? with
      | some st => (stateidx, st) :: alternatives states fuel st.link
      | none => []

/-- What is expanded in a scope: its masks, its new tokens, and the outputs that are triggered. -/
structure Expansion where
  mask : Mask
  followMask : Mask
  tokens : List Token
  triggers : List Int
  deriving DecidableEq, Repr

namespace Expansion

/-- A state is triggered at once, or waits as a token. -/
def add (x : Expansion) (stateidx : Nat) (st : State) : Expansion :=
  if st.core.mask.isEmpty ∧ st.core.typeidx ≠ 0 then
    { x with mask := x.mask.join st.core.mask, triggers := x.triggers ++ [st.core.typeidx] }
  else
    { x with
      mask := x.mask.join st.core.mask
      followMask := if st.core.follow then x.followMask.join st.core.mask else x.followMask
      tokens := x.tokens ++ [⟨st.core, stateidx⟩] }

/-- A state and its alternatives. -/
def expand (states : List State) (x : Expansion) (stateidx : Option Nat) : Expansion :=
  (alternatives states states.length stateidx).foldl (fun x alt ↦ x.add alt.1 alt.2) x

end Expansion

/-- The text matches the key of the state as far as it goes. -/
def State.accepts (st : State) (text : List Byte) : Bool :=
  match st.key with
  | some key => text.isPrefixOf key
  | none => true

/-- An output counts an item that it matches, and is of its type if that is within the range. -/
def Core.output (core : Core) : Core × Int :=
  if core.typeidx ≠ 0 then (core.count.1, if core.count.2 then core.typeidx else 0) else (core, 0)

/-- What is left of something that is visited, what is expanded, and the types of the outputs. -/
structure Visited (α : Type) where
  front : α
  expansion : Expansion
  types : List Int
  deriving DecidableEq, Repr

/-- The type of an output. It is zero if there is none. -/
def nonzero (type : Int) : List Int := if type = 0 then [] else [type]

/-- A token that follows. -/
def Following (tk : Token) : Bool := tk.core.follow

section Visits

variable (states : List State) (type : ElementType) (text : List Byte)

/-- A token whose mask the item matches. If its state accepts the text, what that leads to is
expanded. -/
def Token.matched (tk : Token) (x : Expansion) : Visited Token :=
  let st := (states[tk.stateidx]?).getD .fresh
  let core := if st.accepts text then tk.core.count.1 else tk.core
  ⟨{ tk with core := core.output.1 },
    if st.accepts text ∧ tk.core.count.2 then x.expand states st.next else x,
    nonzero core.output.2⟩

/-- A token does not match any more behind an item that it rejects. -/
def Token.reject (tk : Token) : Token :=
  if tk.core.mask.rejects type then { tk with core := { tk.core with mask := Mask.zero } } else tk

/-- An item is matched with a token. -/
def Token.visit (tk : Token) (x : Expansion) : Visited Token :=
  let v := if tk.core.mask.matching type then tk.matched states text x else ⟨tk, x, []⟩
  { v with front := v.front.reject type }

/-- An item is matched with some of these tokens. -/
def visitTokens (only : Token → Bool) : List Token → Expansion → Visited (List Token)
  | [], x => ⟨[], x, []⟩
  | tk :: tokens, x =>
      let first := if only tk then tk.visit states type text x else ⟨tk, x, []⟩
      let rest := visitTokens only tokens first.expansion
      ⟨first.front :: rest.front, rest.expansion, first.types ++ rest.types⟩

end Visits

/-! ## Nested scopes -/

/-- The scope of a tag that is open. -/
structure OpenScope where
  mask : Mask
  followMask : Mask
  tokens : List Token
  deriving DecidableEq, Repr

/-- The scopes around, the outermost one first, and the innermost one. The outputs that were
triggered in front of the document wait for its first item. -/
structure Nest where
  around : List OpenScope
  inner : OpenScope
  triggers : List Int
  deriving DecidableEq, Repr

/-- The nest behind an item, the types of the outputs that it matched, and those that were
triggered, which come last and in the opposite order. -/
structure Processed where
  nest : Nest
  matched : List Int
  triggered : List Int
  deriving DecidableEq, Repr

/-- The outputs of an item. -/
def Processed.types (p : Processed) : List Int := p.matched ++ p.triggered.reverse

namespace Nest

/-- All tokens, those of the outermost scope first. -/
def tokens (nest : Nest) : List Token :=
  nest.around.flatMap OpenScope.tokens ++ nest.inner.tokens

variable (states : List State)

/-- The scopes around are visited for the tokens that follow. -/
def visitScopes (type : ElementType) (text : List Byte) :
    List OpenScope → Expansion → Visited (List OpenScope)
  | [], x => ⟨[], x, []⟩
  | scope :: scopes, x =>
      let first := visitTokens states type text Following scope.tokens x
      let rest := visitScopes type text scopes first.expansion
      ⟨{ scope with tokens := first.front } :: rest.front, rest.expansion,
        first.types ++ rest.types⟩

/-- The nest in front of the first item. -/
def construct : Nest :=
  let x := if states ≠ [] then Expansion.expand states ⟨.zero, .zero, [], []⟩ (some 0)
    else ⟨.zero, .zero, [], []⟩
  ⟨[], ⟨x.mask, x.followMask, x.tokens⟩, x.triggers⟩

/-- A tag is opened in the innermost scope. What it leads to is expanded in its own scope. -/
def openTag (text : List Byte) (nest : Nest) : Processed :=
  -- The mask begins with what follows, and asks for tags whether a token waits for one or not.
  let own := visitTokens states .openTag text (fun _ ↦ true) nest.inner.tokens
    ⟨nest.inner.followMask.seek .openTag, nest.inner.followMask, [], nest.triggers⟩
  let scopes := visitScopes states .openTag text nest.around own.expansion
  let x := scopes.expansion
  ⟨⟨scopes.front ++ [{ nest.inner with tokens := own.front }],
      ⟨x.mask, x.followMask, x.tokens⟩, []⟩,
    own.types ++ scopes.types, x.triggers⟩

/-- Another item, which is matched only if the scope asks for its type. Behind a tag that is closed
only the tokens that follow are visited. -/
def matchItem (type : ElementType) (text : List Byte) (closed : Bool) (nest : Nest) : Processed :=
  if nest.inner.mask.matching type then
    let own := visitTokens states type text (fun _ ↦ !closed) nest.inner.tokens
      ⟨nest.inner.mask, nest.inner.followMask, [], nest.triggers⟩
    let scopes := visitScopes states type text nest.around own.expansion
    let x := scopes.expansion
    ⟨⟨scopes.front, ⟨x.mask, x.followMask, own.front ++ x.tokens⟩, []⟩,
      own.types ++ scopes.types, x.triggers⟩
  else ⟨nest, [], []⟩

/-- The innermost scope is closed, if a tag is open. -/
def close (nest : Nest) : Option Nest :=
  match nest.around.getLast? with
  | some scope => some ⟨nest.around.dropLast, scope, nest.triggers⟩
  | none => none

/-- An item is processed. -/
def item (type : ElementType) (text : List Byte) (nest : Nest) : Processed :=
  if type = .openTag then nest.openTag states text
  else if type = .closeTag ∨ type = .closeTagIm then
    -- Without an open tag `initProcessElement` leaves the scope as it is.
    match nest.close with
    | some outer => outer.matchItem states type text true
    | none => nest.matchItem states type text false
  else nest.matchItem states type text false

/-- The text of an item is read only if the scope asks for it. -/
def read (type : ElementType) (text : List Byte) (nest : Nest) : List Byte :=
  if nest.inner.mask.matching type then text else []

/-- What is selected from these items up to the end of the input, and whether tags are open
there. -/
def select : List (ElementType × List Byte) → Nest → List (Int × List Byte) × Bool
  | [], nest => ([], !nest.around.isEmpty)
  | (type, bytes) :: items, nest =>
      if type = .exit then ([], !nest.around.isEmpty)
      else
        let text := nest.read type bytes
        let processed := nest.item states type text
        let rest := select items processed.nest
        (processed.types.map (fun type ↦ (type, text)) ++ rest.1, rest.2)

end Nest

end Smerp.Textwolf
