import Smerp.Lib.Runs
import Smerp.Textwolf.XMLScanner

/-!
# The automaton of path expressions

`XMLPathSelectAutomaton` of `examples/xmlselect/textwolf.hpp`. A path expression is defined step by
step on a path element, which stands at a state of the automaton. A state goes on with a key to
`next`, and `link` leads to its alternatives; both lead to later states, whatever is defined and
wherever a definition throws.
-/

namespace Smerp.Textwolf

open Lib Lib.Interruptible

/-- `throws_exception::Cause` -/
inductive Cause where
  | unknown
  | dimOutOfRange
  | stateNumbersNotAscending
  | invalidParam
  | invalidState
  | illegalParam
  | illegalAttributeName
  | outOfMem
  | arrayBoundsReadWrite
  | notAllowedOperation
  deriving DecidableEq, Repr

/-- Why a function of the selection does not return: it throws an `exception`, the scanner does not
return, an array is read outside of its bounds, a loop does not end, or another exception than it is
declared with leaves it, which terminates the program. -/
inductive SelectStop where
  | thrown (cause : Cause)
  | scanner (stop : Stop)
  | wildRead
  | endless
  | terminated
  deriving DecidableEq, Repr

/-- `Operation` -/
inductive Operation where
  | content
  | tag
  | attribute
  | thisAttributeValue
  | attributeValue
  | contentStart
  deriving DecidableEq, Repr

/-! ## Masks -/

/-- `Mask`: the types of elements that match, and those that end the search. -/
structure Mask where
  pos : UInt16
  neg : UInt16
  deriving DecidableEq, Repr

namespace Mask

/-- The mask of the constructor, and of `reset`. -/
def zero : Mask := ⟨0, 0⟩

/-- `empty` -/
def isEmpty (mask : Mask) : Bool := mask.pos = 0

/-- `reject` -/
def reject (mask : Mask) (e : ElementType) : Mask :=
  { mask with neg := mask.neg ||| (1 <<< e.index) }

/-- `match` -/
def seek (mask : Mask) (e : ElementType) : Mask :=
  { mask with pos := mask.pos ||| (1 <<< e.index) }

/-- `seekop` -/
def seekop (mask : Mask) : Operation → Mask
  | .tag => mask.seek .openTag
  | .attribute => mask.seek .tagAttribName |>.seek .headerAttribName |>.reject .content
  | .thisAttributeValue => mask.seek .tagAttribValue |>.seek .headerAttribValue
      |>.reject .tagAttribName |>.reject .headerAttribName |>.reject .content |>.reject .openTag
  | .attributeValue => mask.seek .tagAttribValue |>.seek .headerAttribValue |>.reject .content
  | .content => mask.seek .content
  | .contentStart => mask.seek .headerEnd

/-- `join` -/
def join (mask other : Mask) : Mask := ⟨mask.pos ||| other.pos, mask.neg ||| other.neg⟩

/-- `matches` -/
def matching (mask : Mask) (e : ElementType) : Bool := inMask mask.pos e

/-- `rejects` -/
def rejects (mask : Mask) (e : ElementType) : Bool := inMask mask.neg e

end Mask

/-! ## States -/

/-- `Core`. An end of -1 stands for no limit. -/
structure Core where
  mask : Mask
  follow : Bool
  typeidx : Int
  cntStart : Int
  cntEnd : Int
  deriving DecidableEq, Repr

/-- `State`. The key is an array of its own size. An index of -1 is none. -/
structure State where
  core : Core
  key : Option (List Byte)
  next : Option Nat
  link : Option Nat
  deriving DecidableEq, Repr

namespace State

/-- The constructor. -/
def fresh : State := ⟨⟨.zero, false, 0, 0, -1⟩, none, none, none⟩

/-- `isempty` -/
def isempty (st : State) : Bool := st.key = none ∧ st.core.typeidx = 0

/-- `defineNext` -/
def defineNext (st : State) (op : Operation) (key : Option (List Byte)) (next : Nat)
    (follow : Bool) : State where
  core := { st.core with mask := st.core.mask.seekop op, follow := follow }
  key := key
  next := some next
  link := st.link

/-- `defineOutput` -/
def defineOutput (st : State) (mask : Mask) (typeidx : Int) (follow : Bool) (start stop : Int) :
    State :=
  { st with core := ⟨mask, follow, typeidx, start, stop⟩ }

end State

/-- The automaton: the sizes of the arrays of a selection, and the states. -/
structure XMLPathSelectAutomaton where
  maxScopeStackSize : UInt32
  maxFollows : UInt32
  maxTriggers : UInt32
  maxTokens : UInt32
  states : List State
  deriving DecidableEq, Repr

/-- A function of the states of the automaton. -/
abbrev Define := EStateM SelectStop (List State)

namespace XMLPathSelectAutomaton

/-- `states[ idx]` -/
def stateAt (idx : Nat) : Define State := fun states ↦
  match states[idx]? with
  | some st => .ok st states
  | none => .error .wildRead states

/-- A change of `states[ idx]`. -/
def setAt (idx : Nat) (change : State → State) : Define Unit := fun states ↦
  match states[idx]? with
  | some st => .ok () (states.set idx (change st))
  | none => .error .wildRead states

/-- `states.push_back( state)` -/
def pushState : Define PUnit := alter fun states ↦ states ++ [State.fresh]

/-- The first state, if there is none yet. -/
def openState (stateidx : Option Nat) : Define (Option Nat) := do
  let size ← look List.length
  if size = 0 then
    pushState
    return some 0
  else return stateidx

/-- The loop of `defineNext`: where the key leads to if it is defined already, or else the last
state of the chain. A key that is not there is of size zero. -/
def seekKey (key : Option (List Byte)) (follow : Bool) : Nat → Nat → Define (Option Nat ⊕ Nat)
  | 0, _ => throw .endless
  | fuel + 1, ee => do
      let st ← stateAt ee
      if st.key = some (key.getD []) ∧ st.core.follow = follow then return .inl st.next
      else
        match st.link with
        | some link => seekKey key follow fuel link
        | none => return .inr ee

/-- A state without a definition: the state itself, or a new one that it is linked to. -/
def vacant (stateidx : Nat) : Define Nat := do
  let st ← stateAt stateidx
  if st.isempty then return stateidx
  else
    let size ← look List.length
    setAt stateidx fun st ↦ { st with link := some size }
    pushState
    return size

/-- `defineNext` -/
def defineNext (stateidx : Option Nat) (op : Operation) (key : Option (List Byte))
    (follow : Bool) : Define (Option Nat) := do
  match ← openState stateidx with
  | none => throw .wildRead
  | some stateidx => do
      let size ← look List.length
      match ← seekKey key follow (size + 1) stateidx with
      | .inl next => return next
      | .inr last => do
          let stateidx ← vacant last
          let lastidx ← look List.length
          pushState
          setAt stateidx fun st ↦ st.defineNext op key lastidx follow
          return some lastidx

/-- `defineOutput`. The exception for an index out of range is caught and thrown as another one. -/
def defineOutput (stateidx : Option Nat) (printOpMask : Mask) (typeidx : Int) (follow : Bool)
    (start stop : Int) : Define (Option Nat) := do
  let stateidx ← openState stateidx
  let size ← look List.length
  match stateidx with
  | none => throw (.thrown .unknown)
  | some stateidx => do
      if size ≤ stateidx then throw (.thrown .unknown)
      else
        let stateidx ← vacant stateidx
        setAt stateidx fun st ↦ st.defineOutput printOpMask typeidx follow start stop
        return some stateidx

/-! ## Names of tags -/

open TextScanner XMLScanner

/-- The digits of `parseStaticNumericEntityValue`. -/
def staticDigits (base : Nat) : Nat → Nat → Read Nat
  | 0, _ => throw .endless
  | fuel + 1, value => do
      let ch ← ascii UTF8
      if ch = SEMICOLON then return value
      else if base ≤ value then return 0
      else if 0xFFFFFFFF ≤ value * base + HEX ch then return 0
      else
        skip UTF8
        staticDigits base fuel (value * base + HEX ch)

/-- `parseStaticNumericEntityValue` -/
def parseStaticNumericEntityValue : Read UChar := do
  let ch ← ascii UTF8
  if ch ≠ HASH then return 0
  else
    skip UTF8
    let ch ← ascii UTF8
    let size ← look TextScanner.left
    if ch = 120 then
      skip UTF8
      return UInt32.ofNat (← staticDigits 16 (size + 1) 0)
    else return UInt32.ofNat (← staticDigits 10 (size + 1) 0)

/-- The loop of `parseStaticToken`, from where this text is printed on. It returns no text if it is
not a token, or too long. -/
def staticToken (isTok : IsTokenCharMap) (bufsize : UInt32) :
    Nat → List Byte → Read (Option (List Byte))
  | 0, _ => throw .endless
  | fuel + 1, printed => do
      let ch ← control UTF8
      if isTok ch = false ∧ ch ≠ .amp then return some printed
      else
        let pc ← (if isTok ch then chr UTF8 else parseStaticNumericEntityValue)
        let bytes := (UTF8 : CharSet).print pc (bufsize - UInt32.ofNat printed.length)
        if bytes = [] ∨ pc = 0 then return none
        else
          skip UTF8
          staticToken isTok bufsize fuel (printed ++ bytes)

/-- `getTagName` with a buffer of this size, on a text and its terminating zero. A reader that is
short of input reads behind the zero. The static functions belong to the class for UTF-8. -/
def getTagName (value : List Byte) (bufsize : UInt32) : Except SelectStop (Option (List Byte)) :=
  match staticToken isTagChar bufsize (value.length + 2) [] (fresh (value ++ [0])) with
  | .ok name _ => .ok name
  | .error .endOfInput _ => .error .wildRead
  | .error stop _ => .error (.scanner stop)

end XMLPathSelectAutomaton

/-! ## Path elements -/

/-- `PathElement`: the state where it stands, and what the next definitions are about. -/
structure PathElement where
  stateidx : Option Nat
  start : Int
  stop : Int
  follow : Bool
  printOpMask : Mask
  deriving DecidableEq, Repr

/-- The states of the automaton, and the path element that acts on it. -/
structure Builder where
  states : List State
  elem : PathElement
  deriving DecidableEq, Repr

/-- A function of a path element. What it changed in front of an exception stays changed. -/
abbrev Build := EStateM SelectStop Builder

namespace PathElement

/-- The constructor: at the first state. -/
def construct : PathElement := ⟨some 0, 0, -1, false, .zero⟩

/-- A function of the automaton says where the element stands behind it. -/
def moves (define : Define (Option Nat)) : Build Unit := fun b ↦
  match define b.states with
  | .ok stateidx states => .ok () ⟨states, { b.elem with stateidx := stateidx }⟩
  | .error e states => .error e { b with states := states }

/-- A change of the element itself. -/
def change (f : PathElement → PathElement) : Build PUnit :=
  alter fun b ↦ { b with elem := f b.elem }

/-- `defineOutput` -/
def defineOutput (op : Operation) : Build PUnit :=
  change fun elem ↦ { elem with printOpMask := Mask.zero.seekop op }

/-- `doSelect` -/
def doSelect (op : Operation) (value : Option (List Byte)) : Build Unit := do
  let elem ← look Builder.elem
  match value with
  | some value =>
      match XMLPathSelectAutomaton.getTagName value 1024 with
      | .ok (some name) =>
          moves (XMLPathSelectAutomaton.defineNext elem.stateidx op (some name) elem.follow)
      | .ok none => throw (.thrown .illegalAttributeName)
      | .error e => throw e
  | none => moves (XMLPathSelectAutomaton.defineNext elem.stateidx op none elem.follow)

/-- `doFollow` -/
def doFollow : Build PUnit := change fun elem ↦ { elem with follow := true }

/-- `doRange` -/
def doRange (start stop : Int) : Build PUnit := change fun elem ↦
  if elem.stop = -1 then { elem with start := start, stop := stop }
  else if stop < elem.stop then { elem with stop := stop }
  else if elem.start < start then { elem with start := start }
  else elem

/-- `doCount` -/
def doCount (count : Int) : Build PUnit := doRange 0 count

/-- `doStart` -/
def doStart (start : Int) : Build PUnit := doRange start 0x7FFFFFFF

/-- `push` -/
def push (typeidx : Int) : Build Unit := do
  let elem ← look Builder.elem
  moves (XMLPathSelectAutomaton.defineOutput elem.stateidx elem.printOpMask typeidx elem.follow
    elem.start elem.stop)

/-- The operators and functions of a path element. -/
inductive Step where
  | follow
  | tag (name : Option (List Byte))
  | attrib (name : Option (List Byte))
  | attribValue (name value : Option (List Byte))
  | TO (cnt : Int)
  | FROM (cnt : Int)
  | RANGE (cnt : Int)
  | output (type : Int)
  | content
  deriving DecidableEq, Repr

/-- What they do: `--`, `[]`, `()` with a name, `()` with a name and a value, `TO`, `FROM`, `RANGE`,
`=`, and `()`. -/
def Step.run : Step → Build Unit
  | .follow => doFollow
  | .tag name => doSelect .tag name
  | .attrib name => do
      doSelect .attribute name
      PathElement.defineOutput .thisAttributeValue
  | .attribValue name value => do
      doSelect .attribute name
      doSelect .thisAttributeValue value
  | .TO cnt => doCount (if 0 ≤ cnt then cnt + 1 else -1)
  | .FROM cnt => doStart cnt
  | .RANGE cnt => doRange cnt (if 0 ≤ cnt then cnt + 1 else -1)
  | .output type => push type
  | .content => PathElement.defineOutput .content

end PathElement

/-! ## The order of the states -/

/-- A state leads only to later ones, and a key leads somewhere. -/
structure State.Ahead (st : State) (idx size : Nat) : Prop where
  next_lt : ∀ next, st.next = some next → idx < next ∧ next < size
  link_lt : ∀ link, st.link = some link → idx < link ∧ link < size
  keyed : st.key ≠ none → st.next ≠ none

/-- All states lead only to later ones. -/
def Ordered (states : List State) : Prop :=
  ∀ (idx : Nat) (st : State), states[idx]? = some st → st.Ahead idx states.length

theorem State.Ahead.mono {st : State} {idx size size' : Nat} (h : st.Ahead idx size)
    (hle : size ≤ size') : st.Ahead idx size' where
  next_lt next hnext := (h.next_lt next hnext).imp_right fun hlt ↦ Nat.lt_of_lt_of_le hlt hle
  link_lt link hlink := (h.link_lt link hlink).imp_right fun hlt ↦ Nat.lt_of_lt_of_le hlt hle
  keyed := h.keyed

theorem State.fresh_ahead (idx size : Nat) : State.fresh.Ahead idx size where
  next_lt _ h := absurd h (Option.some_ne_none _).symm
  link_lt _ h := absurd h (Option.some_ne_none _).symm
  keyed h := absurd rfl h

theorem ordered_nil : Ordered [] := by
  intro idx st h
  exact absurd h (by simp)

/-- A new state is vacant. -/
theorem Ordered.push {states : List State} (h : Ordered states) :
    Ordered (states ++ [State.fresh]) := by
  intro idx st hst
  rw [List.length_append]
  rw [List.getElem?_append] at hst
  split_ifs at hst with hlt
  · exact (h idx st hst).mono (Nat.le_add_right _ _)
  · rw [List.mem_singleton.mp (List.mem_of_getElem? hst)]
    exact State.fresh_ahead idx _

/-- A state is changed, and still leads to later ones. -/
theorem Ordered.set {states : List State} (h : Ordered states) {idx : Nat} {st : State}
    (hst : st.Ahead idx states.length) : Ordered (states.set idx st) := by
  intro other st' hst'
  rw [List.length_set]
  rw [List.getElem?_set] at hst'
  split_ifs at hst' with hsame hlt
  · subst hsame
    exact Option.some.inj hst' ▸ hst
  · exact h other st' hst'

namespace XMLPathSelectAutomaton

variable {states : List State} {idx : Nat}

theorem state_at_ok {st : State} (h : states[idx]? = some st) :
    stateAt idx states = .ok st states := by
  rw [stateAt, h]

theorem set_at_ok {st : State} {change : State → State} (h : states[idx]? = some st) :
    setAt idx change states = .ok () (states.set idx (change st)) := by
  rw [setAt, h]

/-- What a definition leaves: the states are ordered, and there are not less of them. -/
structure Defined (states states' : List State) : Prop where
  ordered : Ordered states'
  size_le : states.length ≤ states'.length

theorem Defined.refl (h : Ordered states) : Defined states states := ⟨h, Nat.le_refl _⟩

/-- A place where a path element may stand: a state, or the first one if there is none yet. -/
def Place (states : List State) (stateidx : Option Nat) : Prop :=
  ∃ idx, stateidx = some idx ∧ (idx < states.length ∨ (idx = 0 ∧ states = []))

theorem Place.grows {states' : List State} {stateidx : Option Nat} (h : Place states stateidx)
    (hle : states.length ≤ states'.length) : Place states' stateidx := by
  obtain ⟨idx, rfl, hlt | ⟨rfl, rfl⟩⟩ := h
  · exact ⟨idx, rfl, .inl (Nat.lt_of_lt_of_le hlt hle)⟩
  · refine ⟨0, rfl, ?_⟩
    cases states' with
    | nil => exact .inr ⟨rfl, rfl⟩
    | cons st states' => exact .inl (Nat.succ_pos _)

/-- No definition throws or reads outside of the states, and its result is one of them. -/
def Sound (define : Define α) (states : List State) (post : α → List State → Prop) : Prop :=
  Ensures define states (fun a states' ↦ Defined states states' ∧ post a states') fun _ _ ↦ False

/-- One definition after the other. -/
theorem Sound.bind {m : Define α} {f : α → Define β} {post : α → List State → Prop}
    {post' : β → List State → Prop} (hm : Sound m states post)
    (hf : ∀ a states', Ordered states' → post a states' → Sound (f a) states' post') :
    Sound (m >>= f) states post' := by
  refine Ensures.bind (hm.mono ?_ fun _ _ h ↦ h)
  rintro a states' ⟨hdefined, hpost⟩
  refine (hf a states' hdefined.ordered hpost).mono ?_ fun _ _ h ↦ h
  rintro b states'' ⟨hdefined', hpost'⟩
  exact ⟨⟨hdefined'.ordered, Nat.le_trans hdefined.size_le hdefined'.size_le⟩, hpost'⟩

theorem Sound.ret {a : α} {post : α → List State → Prop} (hordered : Ordered states)
    (h : post a states) : Sound (pure a) states post := .of_ok rfl ⟨.refl hordered, h⟩

theorem Sound.size {f : Nat → Define β} {post : β → List State → Prop}
    (h : Sound (f states.length) states post) : Sound (look List.length >>= f) states post := h

theorem Sound.push (h : Ordered states) :
    Sound pushState states fun _ states' ↦ states' = states ++ [State.fresh] :=
  .of_ok rfl ⟨⟨h.push, by simp⟩, rfl⟩

/-- The first state is there behind `openState`. -/
theorem sound_open {stateidx : Option Nat} (h : Ordered states) (hplace : Place states stateidx) :
    Sound (openState stateidx) states fun result states' ↦
      ∃ idx, result = some idx ∧ idx < states'.length := by
  obtain ⟨idx, rfl, hlt | ⟨rfl, rfl⟩⟩ := hplace
  · refine .size ?_
    rw [if_neg (Nat.ne_zero_of_lt hlt)]
    exact .ret h ⟨idx, rfl, hlt⟩
  · exact .of_ok rfl ⟨⟨h.push, Nat.zero_le _⟩, 0, rfl, Nat.one_pos⟩

/-- The key leads to a state, or the chain has a last one. -/
theorem sound_seek (key : Option (List Byte)) (follow : Bool) (h : Ordered states) {fuel : Nat}
    (hidx : idx < states.length) (hfuel : states.length < fuel + idx) :
    Sound (seekKey key follow fuel idx) states fun result states' ↦ states' = states ∧
      (∀ next, result = .inl next → ∃ idx, next = some idx ∧ idx < states.length) ∧
      ∀ last, result = .inr last → last < states.length ∧
        ∃ st, states[last]? = some st ∧ st.link = none := by
  induction fuel generalizing idx with
  | zero => omega
  | succ fuel ih =>
      have hst : states[idx]? = some states[idx] := List.getElem?_eq_getElem hidx
      generalize states[idx] = st at hst
      have hahead := h idx st hst
      rw [Sound, Ensures, seekKey, bind_ok (state_at_ok hst)]
      by_cases hfound : st.key = some (key.getD []) ∧ st.core.follow = follow
      · rw [if_pos hfound]
        refine ⟨.refl h, rfl, ?_, fun last hlast ↦ absurd hlast Sum.inl_ne_inr⟩
        rintro next hnext
        obtain rfl := Sum.inl.inj hnext
        obtain ⟨found, hfound⟩ := Option.ne_none_iff_exists'.mp
          (hahead.keyed (by rw [hfound.1]; exact Option.some_ne_none _))
        exact ⟨found, hfound, (hahead.next_lt found hfound).2⟩
      · rw [if_neg hfound]
        cases hlink : st.link with
        | some link =>
            obtain ⟨hless, hlt⟩ := hahead.link_lt link hlink
            exact ih hlt (by omega)
        | none =>
            refine ⟨.refl h, rfl, fun next hnext ↦ absurd hnext Sum.inr_ne_inl, ?_⟩
            rintro last hlast
            obtain rfl := Sum.inr.inj hlast
            exact ⟨hidx, st, hst, hlink⟩

/-- A vacant state is one of the states. -/
theorem sound_vacant (h : Ordered states) (hidx : idx < states.length) :
    Sound (vacant idx) states fun result states' ↦ result < states'.length ∧
      ∃ st, states'[result]? = some st ∧ st.isempty = true := by
  have hst : states[idx]? = some states[idx] := List.getElem?_eq_getElem hidx
  generalize states[idx] = st at hst
  have hahead := h idx st hst
  rw [Sound, Ensures, vacant, bind_ok (state_at_ok hst)]
  by_cases hempty : st.isempty = true
  · rw [if_pos hempty]
    exact ⟨.refl h, hidx, st, hst, hempty⟩
  · rw [if_neg hempty]
    have hlinked : Ordered ((states ++ [State.fresh]).set idx
        { st with link := some states.length }) := by
      refine h.push.set ⟨?_, ?_, hahead.keyed⟩
      · intro next hnext
        exact (hahead.mono (by simp)).next_lt next hnext
      · intro link hlink
        obtain rfl := Option.some.inj hlink
        exact ⟨hidx, by simp⟩
    have hpush : (states.set idx { st with link := some states.length }) ++ [State.fresh] =
        (states ++ [State.fresh]).set idx { st with link := some states.length } :=
      (List.set_append_left idx _ hidx).symm
    rw [bind_look, bind_ok (set_at_ok hst)]
    show Defined states (_ ++ [State.fresh]) ∧ _ < (_ ++ [State.fresh]).length ∧
      ∃ st, (_ ++ [State.fresh])[states.length]? = some st ∧ st.isempty = true
    rw [hpush]
    refine ⟨⟨hlinked, by simp⟩, by simp, State.fresh, ?_, rfl⟩
    rw [List.getElem?_set_ne (Nat.ne_of_lt hidx)]
    simp

/-- `defineNext` returns a state. -/
theorem sound_next {stateidx : Option Nat} (op : Operation) (key : Option (List Byte))
    (follow : Bool) (h : Ordered states) (hplace : Place states stateidx) :
    Sound (defineNext stateidx op key follow) states fun result states' ↦
      Place states' result := by
  refine (sound_open h hplace).bind ?_
  rintro _ states₁ h₁ ⟨idx, rfl, hidx⟩
  refine .size ((sound_seek key follow h₁ hidx (by omega)).bind ?_)
  rintro found states₂ h₂ ⟨rfl, hnext, hlast⟩
  cases found with
  | inl next =>
      obtain ⟨found, rfl, hlt⟩ := hnext next rfl
      exact .ret h₂ ⟨found, rfl, .inl hlt⟩
  | inr last =>
      refine (sound_vacant h₂ (hlast last rfl).1).bind ?_
      rintro vacant states₃ h₃ ⟨hvacant, st, hst, hempty⟩
      refine .size ((Sound.push h₃).bind ?_)
      rintro _ states₄ h₄ rfl
      have hst' : (states₃ ++ [State.fresh])[vacant]? = some st := by
        rw [List.getElem?_append_left hvacant, hst]
      rw [Sound, Ensures, bind_ok (set_at_ok hst')]
      refine ⟨⟨h₄.set ?_, by simp⟩, states₃.length, rfl, .inl (by simp)⟩
      refine ⟨?_, (h₄ vacant st hst').link_lt, fun _ ↦ Option.some_ne_none _⟩
      intro next hnext
      obtain rfl := Option.some.inj hnext
      exact ⟨hvacant, by simp⟩

/-- `defineOutput` returns a state. -/
theorem sound_output {stateidx : Option Nat} (mask : Mask) (typeidx : Int) (follow : Bool)
    (start stop : Int) (h : Ordered states) (hplace : Place states stateidx) :
    Sound (defineOutput stateidx mask typeidx follow start stop) states fun result states' ↦
      Place states' result := by
  refine (sound_open h hplace).bind ?_
  rintro _ states₁ h₁ ⟨idx, rfl, hidx⟩
  refine .size ?_
  show Sound (if states₁.length ≤ idx then _ else _) _ _
  rw [if_neg (Nat.not_le.mpr hidx)]
  refine (sound_vacant h₁ hidx).bind ?_
  rintro vacant states₂ h₂ ⟨hvacant, st, hst, -⟩
  rw [Sound, Ensures, bind_ok (set_at_ok hst)]
  have hahead := h₂ vacant st hst
  exact ⟨⟨h₂.set ⟨hahead.next_lt, hahead.link_lt, hahead.keyed⟩, by simp⟩, vacant, rfl,
    .inl (by simpa using hvacant)⟩

end XMLPathSelectAutomaton

/-! ## Names that are read -/

namespace XMLPathSelectAutomaton

open TextScanner

/-- A character that is classified stands still, or the input ends. -/
theorem classify_ensures {α : Type} (cs : CharSet) (view : Byte → α) (src : TextScanner) :
    Ensures (classify cs view) src (fun a src' ↦ a = view (cs.achar src'.buf) ∧ Loaded cs src' ∧
        left src' = left src ∧
        ∀ {β : Type} (view' : Byte → β), classify cs view' src' =
          .ok (view' (cs.achar src'.buf)) src') fun e _ ↦ e = .endOfInput := by
  have hcases := @classify_cases cs α view src
  rcases hcases with ⟨front, back, hinput, hloaded, -, hresult⟩ | ⟨-, -, hresult⟩
  · obtain ⟨hloaded', hleft, -⟩ := classify_keeps hresult
    exact .of_ok hresult ⟨rfl, hloaded', hleft, fun view' ↦ (classify_again view' hresult).2⟩
  · exact .of_error hresult rfl

/-- The entity of a name is read from its first character on, which is no number sign. -/
theorem static_entity_zero {src : TextScanner}
    (hagain : ∀ {β : Type} (view : Byte → β), classify UTF8 view src =
      .ok (view ((UTF8 : CharSet).achar src.buf)) src)
    (hamp : controlCharMap ((UTF8 : CharSet).achar src.buf) = .amp) :
    parseStaticNumericEntityValue src = .ok 0 src := by
  have hall : ∀ k < 256, controlCharMap (UInt8.ofNat k) = .amp → k = 38 := by decide +kernel
  have hbyte : ((UTF8 : CharSet).achar src.buf).toNat = 38 := by
    refine hall _ (UInt8.toNat_lt _) ?_
    rw [UInt8.ofNat_toNat]
    exact hamp
  have hascii : asciiOf ((UTF8 : CharSet).achar src.buf) ≠ XMLScanner.HASH := by
    rw [← UInt8.ofNat_toNat (x := (UTF8 : CharSet).achar src.buf), hbyte]
    decide
  rw [parseStaticNumericEntityValue, ascii, bind_ok (hagain asciiOf), if_pos hascii]
  rfl

/-- A name is read, or the characters end within one. -/
theorem static_token_ensures (isTok : IsTokenCharMap) (bufsize : UInt32) {fuel : Nat}
    {printed : List Byte} {src : TextScanner} (hfuel : src.left < fuel) :
    Ensures (staticToken isTok bufsize fuel printed) src (fun _ _ ↦ True)
      fun e _ ↦ e = .endOfInput := by
  induction fuel generalizing printed src with
  | zero => omega
  | succ fuel ih =>
      refine Ensures.bind ((classify_ensures UTF8 controlCharMap src).mono ?_ fun _ _ h ↦ h)
      rintro ch src₁ ⟨rfl, hloaded, hleft, hagain⟩
      by_cases hend : isTok (controlCharMap ((UTF8 : CharSet).achar src₁.buf)) = false ∧
          controlCharMap ((UTF8 : CharSet).achar src₁.buf) ≠ .amp
      · rw [if_pos hend]
        exact .of_ok rfl trivial
      · rw [if_neg hend]
        have hchar : Ensures (if isTok (controlCharMap ((UTF8 : CharSet).achar src₁.buf)) then
            chr UTF8 else parseStaticNumericEntityValue) src₁
            (fun _ src₂ ↦ src₂.left = src₁.left) fun e _ ↦ e = .endOfInput := by
          by_cases htok : isTok (controlCharMap ((UTF8 : CharSet).achar src₁.buf)) = true
          · rw [if_pos htok]
            cases hchr : chr UTF8 src₁ with
            | ok pc src₂ => exact .of_ok hchr (chr_keeps hloaded hchr).2.1
            | error e src₂ =>
                exact .of_error hchr ((chr_error hchr).resolve_right fun h ↦ h.2 hloaded)
          · rw [if_neg htok]
            have hamp : controlCharMap ((UTF8 : CharSet).achar src₁.buf) = .amp := by
              by_contra hne
              exact hend ⟨Bool.not_eq_true _ ▸ htok, hne⟩
            exact .of_ok (static_entity_zero hagain hamp) rfl
        refine Ensures.bind (hchar.mono ?_ fun _ _ h ↦ h)
        · intro pc src₂ hsame
          by_cases hnone : (UTF8 : CharSet).print pc (bufsize - UInt32.ofNat printed.length) = [] ∨
              pc = 0
          · show Ensures (if _ then _ else _) _ _ _
            rw [if_pos hnone]
            exact .of_ok rfl trivial
          · show Ensures (if _ then _ else _) _ _ _
            rw [if_neg hnone]
            cases hskip : skip UTF8 src₂ with
            | ok _ src₃ =>
                have hless := skip_left hskip
                rw [Ensures, bind_ok hskip]
                exact ih (by omega)
            | error e src₃ => exact .of_error (bind_error hskip) (skip_error hskip)

/-- Reading a name fails only behind its terminating zero. -/
theorem get_tag_name_error {value : List Byte} {bufsize : UInt32} {e : SelectStop}
    (h : getTagName value bufsize = .error e) : e = .wildRead := by
  have hread : Ensures (staticToken isTagChar bufsize (value.length + 2) [])
      (fresh (value ++ [0])) (fun _ _ ↦ True) fun e _ ↦ e = .endOfInput :=
    static_token_ensures isTagChar bufsize (by simp [left, fresh])
  rw [getTagName] at h
  cases htoken : staticToken isTagChar bufsize (value.length + 2) [] (fresh (value ++ [0])) with
  | ok name src =>
      rw [htoken] at h
      cases h
  | error stop src =>
      obtain rfl := hread.error htoken
      rw [htoken] at h
      exact (Except.error.inj h).symm

end XMLPathSelectAutomaton

/-! ## Runs of definitions -/

/-- The automaton, and the path elements that stand in it. -/
structure Definitions where
  states : List State
  elems : List PathElement
  deriving DecidableEq, Repr

namespace Definitions

open XMLPathSelectAutomaton

/-- What the caller does: a path element is taken from the automaton, copied, or defines a step. -/
inductive Act where
  | start
  | copy (elem : Nat)
  | step (elem : Nat) (step : PathElement.Step)
  deriving DecidableEq, Repr

/-- The constructor. -/
def construct : Definitions := ⟨[], []⟩

/-- The automaton behind an act. An exception is caught by the caller. -/
def act (d : Definitions) : Act → Definitions
  | .start => { d with elems := d.elems ++ [PathElement.construct] }
  | .copy elem =>
      match d.elems[elem]? with
      | some e => { d with elems := d.elems ++ [e] }
      | none => d
  | .step elem step =>
      match d.elems[elem]? with
      | some e =>
          match step.run ⟨d.states, e⟩ with
          | .ok _ b | .error _ b => ⟨b.states, d.elems.set elem b.elem⟩
      | none => d

/-- The names that a step is given. -/
def names : PathElement.Step → List (List Byte)
  | .tag name | .attrib name => name.toList
  | .attribValue name value => name.toList ++ value.toList
  | .follow | .TO _ | .FROM _ | .RANGE _ | .output _ | .content => []

/-- A step returns, unless a name is not one, or is read beyond its end. -/
def Safe (d : Definitions) : Act → Prop
  | .start | .copy _ => True
  | .step elem step => ∀ e err b, d.elems[elem]? = some e →
      step.run ⟨d.states, e⟩ = .error err b →
      err = .thrown .illegalAttributeName ∨
        (err = .wildRead ∧ ∃ name ∈ names step, getTagName name 1024 = .error .wildRead)

/-- The states are ordered, and the path elements stand in them. -/
structure Placed (d : Definitions) : Prop where
  ordered : Ordered d.states
  placed : ∀ elem ∈ d.elems, Place d.states elem.stateidx

/-- What a function of a path element keeps. -/
def Keeps (m : Build α) (b : Builder) (stop : SelectStop → Prop) : Prop :=
  Ordered b.states → Place b.states b.elem.stateidx →
    Ensures m b (fun _ b' ↦ Defined b.states b'.states ∧ Place b'.states b'.elem.stateidx)
      fun e b' ↦ stop e ∧ Defined b.states b'.states ∧ Place b'.states b'.elem.stateidx

variable {b : Builder} {stop : SelectStop → Prop}

theorem Keeps.mono {m : Build α} {stop' : SelectStop → Prop} (h : Keeps m b stop)
    (himp : ∀ e, stop e → stop' e) : Keeps m b stop' := fun hordered hplace ↦
  (h hordered hplace).mono (fun _ _ h ↦ h) fun e _ h ↦ ⟨himp e h.1, h.2⟩

/-- One function of a path element after the other. -/
theorem Keeps.bind {m : Build α} {f : α → Build β} (hm : Keeps m b stop)
    (hf : ∀ a b', Keeps (f a) b' stop) : Keeps (m >>= f) b stop := by
  intro hordered hplace
  refine Ensures.bind ((hm hordered hplace).mono ?_ fun _ _ h ↦ h)
  rintro a b' ⟨hdefined, hplace'⟩
  refine (hf a b' hdefined.ordered hplace').mono ?_ ?_
  · rintro c b'' ⟨hdefined', hplace''⟩
    exact ⟨⟨hdefined'.ordered, Nat.le_trans hdefined.size_le hdefined'.size_le⟩, hplace''⟩
  · rintro e b'' ⟨hstop, hdefined', hplace''⟩
    exact ⟨hstop, ⟨hdefined'.ordered, Nat.le_trans hdefined.size_le hdefined'.size_le⟩, hplace''⟩

theorem Keeps.change {f : PathElement → PathElement}
    (h : ∀ elem, (f elem).stateidx = elem.stateidx) :
    Keeps (PathElement.change f) b stop := by
  intro hordered hplace
  refine .of_ok rfl ⟨.refl hordered, ?_⟩
  show Place b.states (f b.elem).stateidx
  rw [h]
  exact hplace

theorem Keeps.do_range (start stop' : Int) : Keeps (PathElement.doRange start stop') b stop := by
  refine .change ?_
  intro elem
  split_ifs <;> rfl

/-- A sound definition moves the path element to a state. -/
theorem Keeps.moves {define : Define (Option Nat)}
    (h : Ordered b.states → Place b.states b.elem.stateidx →
      Sound define b.states fun result states' ↦ Place states' result) :
    Keeps (PathElement.moves define) b stop := by
  intro hordered hplace
  have hsound := h hordered hplace
  cases hdefine : define b.states with
  | ok stateidx states' =>
      have hmoves : PathElement.moves define b =
          .ok () ⟨states', { b.elem with stateidx := stateidx }⟩ := by
        rw [PathElement.moves, hdefine]
      exact .of_ok hmoves (hsound.ok hdefine)
  | error e states' => exact absurd (hsound.error hdefine) id

theorem Keeps.do_select (op : Operation) (value : Option (List Byte)) :
    Keeps (PathElement.doSelect op value) b fun err ↦ err = .thrown .illegalAttributeName ∨
      (err = .wildRead ∧ ∃ name ∈ value.toList, getTagName name 1024 = .error .wildRead) := by
  cases value with
  | none => exact .moves fun h hplace ↦ sound_next op none b.elem.follow h hplace
  | some value =>
      cases hname : getTagName value 1024 with
      | ok name =>
          cases name with
          | some name =>
              have hselect : PathElement.doSelect op (some value) b =
                  PathElement.moves
                    (defineNext b.elem.stateidx op (some name) b.elem.follow) b := by
                rw [PathElement.doSelect, bind_look]
                dsimp only
                rw [hname]
              intro hordered hplace
              rw [Ensures, hselect]
              have hmoves (stop : SelectStop → Prop) : Keeps (PathElement.moves
                  (defineNext b.elem.stateidx op (some name) b.elem.follow)) b stop :=
                .moves fun h hplace ↦ sound_next op (some name) b.elem.follow h hplace
              exact hmoves _ hordered hplace
          | none =>
              have hselect : PathElement.doSelect op (some value) b =
                  .error (.thrown .illegalAttributeName) b := by
                rw [PathElement.doSelect, bind_look]
                dsimp only
                rw [hname]
                rfl
              exact fun hordered hplace ↦
                .of_error hselect ⟨.inl rfl, .refl hordered, hplace⟩
      | error e =>
          obtain rfl := get_tag_name_error hname
          have hselect : PathElement.doSelect op (some value) b = .error .wildRead b := by
            rw [PathElement.doSelect, bind_look]
            dsimp only
            rw [hname]
            rfl
          exact fun hordered hplace ↦ .of_error hselect
            ⟨.inr ⟨rfl, value, List.mem_singleton_self value, hname⟩, .refl hordered, hplace⟩

/-- What a step keeps, and why it throws. -/
theorem Keeps.run (step : PathElement.Step) :
    Keeps step.run b fun err ↦ err = .thrown .illegalAttributeName ∨
      (err = .wildRead ∧ ∃ name ∈ names step, getTagName name 1024 = .error .wildRead) := by
  cases step with
  | follow =>
      show Keeps PathElement.doFollow b _
      exact .change fun _ ↦ rfl
  | tag name => exact .do_select _ _
  | attrib name => exact Keeps.bind (.do_select _ _) fun _ _ ↦ .change fun _ ↦ rfl
  | attribValue name value =>
      have hwiden {names more : List (List Byte)} (hsub : names ⊆ more) (err : SelectStop)
          (h : err = .thrown .illegalAttributeName ∨
            (err = .wildRead ∧ ∃ name ∈ names, getTagName name 1024 = .error .wildRead)) :
          err = .thrown .illegalAttributeName ∨
            (err = .wildRead ∧ ∃ name ∈ more, getTagName name 1024 = .error .wildRead) :=
        h.imp_right fun ⟨herr, name, hmem, hname⟩ ↦ ⟨herr, name, hsub hmem, hname⟩
      exact Keeps.bind ((Keeps.do_select _ _).mono (hwiden (List.subset_append_left _ _)))
        fun _ _ ↦ (Keeps.do_select _ _).mono (hwiden (List.subset_append_right _ _))
  | TO cnt => exact .do_range _ _
  | FROM cnt => exact .do_range _ _
  | RANGE cnt => exact .do_range _ _
  | output type =>
      exact .moves fun h hplace ↦ sound_output b.elem.printOpMask type b.elem.follow b.elem.start
        b.elem.stop h hplace
  | content =>
      show Keeps (PathElement.defineOutput .content) b _
      exact .change fun _ ↦ rfl

/-- An act is safe, and keeps the order. -/
theorem placed_act (d : Definitions) (a : Act) (h : Placed d) : Safe d a ∧ Placed (act d a) := by
  cases a with
  | start =>
      refine ⟨trivial, h.ordered, ?_⟩
      intro elem helem
      rcases List.mem_append.mp helem with helem | hnew
      · exact h.placed elem helem
      · rw [List.mem_singleton.mp hnew]
        show Place d.states (some 0)
        cases hstates : d.states with
        | nil => exact ⟨0, rfl, .inr ⟨rfl, rfl⟩⟩
        | cons st states => exact ⟨0, rfl, .inl (Nat.succ_pos _)⟩
  | copy elem =>
      refine ⟨trivial, ?_⟩
      cases hfound : d.elems[elem]? with
      | none =>
          rw [act, hfound]
          exact h
      | some e =>
          rw [act, hfound]
          refine ⟨h.ordered, ?_⟩
          intro other hother
          rcases List.mem_append.mp hother with hother | hnew
          · exact h.placed other hother
          · rw [List.mem_singleton.mp hnew]
            exact h.placed e (List.mem_of_getElem? hfound)
  | step elem step =>
      cases hfound : d.elems[elem]? with
      | none =>
          refine ⟨fun e err b he ↦ absurd (hfound.symm.trans he) (Option.some_ne_none e).symm, ?_⟩
          rw [act, hfound]
          exact h
      | some e =>
          have hplace := h.placed e (List.mem_of_getElem? hfound)
          have hrun := Keeps.run (b := ⟨d.states, e⟩) step h.ordered hplace
          have hset {b : Builder} (hdefined : Defined d.states b.states)
              (hplace : Place b.states b.elem.stateidx) :
              Placed ⟨b.states, d.elems.set elem b.elem⟩ := by
            refine ⟨hdefined.ordered, ?_⟩
            intro other hother
            rcases List.mem_or_eq_of_mem_set hother with hother | rfl
            · exact (h.placed other hother).grows hdefined.size_le
            · exact hplace
          rw [act, hfound]
          dsimp only
          cases hresult : step.run ⟨d.states, e⟩ with
          | ok _ b =>
              obtain ⟨hdefined, hplace'⟩ := hrun.ok hresult
              refine ⟨?_, hset hdefined hplace'⟩
              rintro e' err b' he herr
              obtain rfl := Option.some.inj (hfound.symm.trans he)
              exact nomatch hresult.symm.trans herr
          | error err b =>
              obtain ⟨hstop, hdefined, hplace'⟩ := hrun.error hresult
              refine ⟨?_, hset hdefined hplace'⟩
              rintro e' err' b' he herr
              obtain rfl := Option.some.inj (hfound.symm.trans he)
              obtain ⟨rfl, -⟩ := EStateM.Result.error.inj (hresult.symm.trans herr)
              exact hstop

theorem placed_construct : Placed construct :=
  ⟨ordered_nil, fun _ helem ↦ absurd helem List.not_mem_nil⟩

/-- The automaton behind any definitions. -/
theorem placed_last (acts : List Act) : Placed (Runs.last act construct acts) :=
  Runs.last_rule (fun d a h ↦ (placed_act d a h).2) placed_construct acts

/-- Whatever is defined in any order on any number of path elements, every state leads only to later
states, every path element stands at a state, and a definition throws only for its names. -/
theorem definitions_ordered (acts : List Act) :
    Runs.Each act Safe construct acts ∧ Placed (Runs.last act construct acts) :=
  have hall : Runs.Each act (fun _ _ ↦ True) construct acts :=
    Runs.each_of_forall fun _ _ ↦ trivial
  ⟨Runs.each_rule (fun d a h _ ↦ placed_act d a h) placed_construct hall, placed_last acts⟩

end Definitions

end Smerp.Textwolf
