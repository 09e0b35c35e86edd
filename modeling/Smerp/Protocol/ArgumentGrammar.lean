import Mathlib.Data.List.Induction
import Smerp.Protocol.Arguments

/-!
# The grammar of the arguments

`Line` is the grammar of a line: arguments separated by spaces, which consist of plain characters,
escaped characters and quoted pieces. `Scanner` is `CArgBuffer` with the arguments themselves in
place of their offsets into one buffer. `line_iff` says that it computes the arguments of the
grammar, of which every line has exactly one list.
-/

namespace Smerp.Protocol

open Lib

/-! ## The grammar -/

/-- The two kinds of quotes. -/
inductive Quote where
  | single
  | double
  deriving DecidableEq, Repr

/-- The character that opens and closes a quoted piece. -/
def Quote.char : Quote → Byte
  | .single => SQUOTE
  | .double => DQUOTE

/-- A character that stands for itself outside of quotes. -/
def IsPlain (ch : Byte) : Prop := ch ≠ SQUOTE ∧ ch ≠ DQUOTE ∧ ch ≠ BACKSLASH ∧ ch ≠ SPACE

/-- A text between quotes, and the characters it stands for: a backslash makes the next character
literal. -/
inductive Quoted (quote : Quote) : List Byte → List Byte → Prop
  | nil : Quoted quote [] []
  | plain (ch : Byte) (text value : List Byte) (hquote : ch ≠ quote.char) (hescape : ch ≠ BACKSLASH)
      (hmore : Quoted quote text value) : Quoted quote (ch :: text) (ch :: value)
  | escaped (ch : Byte) (text value : List Byte) (hmore : Quoted quote text value) :
      Quoted quote (BACKSLASH :: ch :: text) (ch :: value)

/-- Pieces that are joined to one argument, and the characters they stand for. -/
inductive Pieces : List Byte → List Byte → Prop
  | nil : Pieces [] []
  | plain (ch : Byte) (text value : List Byte) (hplain : IsPlain ch) (hmore : Pieces text value) :
      Pieces (ch :: text) (ch :: value)
  | escaped (ch : Byte) (text value : List Byte) (hmore : Pieces text value) :
      Pieces (BACKSLASH :: ch :: text) (ch :: value)
  | quoted (quote : Quote) (inner content text value : List Byte)
      (hinner : Quoted quote inner content)
      (hmore : Pieces text value) :
      Pieces (quote.char :: inner ++ quote.char :: text) (content ++ value)

/-- The start of a piece that is cut off by the end of the line. -/
inductive Cut : List Byte → List Byte → Prop
  | escape : Cut [BACKSLASH] []
  | quoted (quote : Quote) (inner content : List Byte) (hinner : Quoted quote inner content) :
      Cut (quote.char :: inner) content
  | quotedEscape (quote : Quote) (inner content : List Byte) (hinner : Quoted quote inner content) :
      Cut (quote.char :: inner ++ [BACKSLASH]) content

/-- A line and its arguments. Spaces separate arguments, and the last argument may be cut off by the
end of the line. -/
inductive Line : List Byte → List (List Byte) → Prop
  | nil : Line [] []
  | space (text : List Byte) (args : List (List Byte)) (hmore : Line text args) :
      Line (SPACE :: text) args
  | argument (text value rest : List Byte) (args : List (List Byte)) (hne : text ≠ [])
      (hpieces : Pieces text value) (hmore : Line rest args) :
      Line (text ++ SPACE :: rest) (value :: args)
  | last (text value : List Byte) (hne : text ≠ []) (hpieces : Pieces text value) :
      Line text [value]
  | cut (text value piece content : List Byte) (hpieces : Pieces text value)
      (hcut : Cut piece content) : Line (text ++ piece) [value ++ content]

/-! ## The scanner -/

/-- What a character does to the arguments: it opens one, is stored in the open one, or closes
it. -/
inductive ArgStep where
  | opens
  | stores (ch : Byte)
  | closes
  deriving DecidableEq, Repr

/-- The transitions of `CArgBuffer::push_back`. -/
def ArgState.next : ArgState → Byte → ArgState × List ArgStep
  | .empty, ch =>
      if ch = SQUOTE then (.sqContent, [.opens])
      else if ch = DQUOTE then (.dqContent, [.opens])
      else if ch = BACKSLASH then (.contentEsc, [.opens])
      else if ch = SPACE then (.empty, [])
      else (.content, [.opens, .stores ch])
  | .endToken, ch | .content, ch =>
      if ch = SQUOTE then (.sqContent, [])
      else if ch = DQUOTE then (.dqContent, [])
      else if ch = BACKSLASH then (.contentEsc, [])
      else if ch = SPACE then (.empty, [.closes])
      else (.content, [.stores ch])
  | .contentEsc, ch => (.content, [.stores ch])
  | .sqContent, ch =>
      if ch = SQUOTE then (.endToken, [])
      else if ch = BACKSLASH then (.sqContentEsc, [])
      else (.sqContent, [.stores ch])
  | .sqContentEsc, ch => (.sqContent, [.stores ch])
  | .dqContent, ch =>
      if ch = DQUOTE then (.endToken, [])
      else if ch = BACKSLASH then (.dqContentEsc, [])
      else (.dqContent, [.stores ch])
  | .dqContentEsc, ch => (.dqContent, [.stores ch])

/-- What a transition can be: a space between two arguments, the start of an argument, a character
inside of an argument, or the space behind it. -/
inductive ArgState.Moves (state : ArgState) (ch : Byte) : ArgState × List ArgStep → Prop
  | blank (hstate : state = .empty) : Moves state ch (.empty, [])
  | start (after : ArgState) (steps : List ArgStep) (hstate : state = .empty)
      (hafter : after ≠ .empty) (hsteps : steps = [] ∨ steps = [.stores ch]) :
      Moves state ch (after, .opens :: steps)
  | inside (after : ArgState) (steps : List ArgStep) (hstate : state ≠ .empty)
      (hafter : after ≠ .empty) (hsteps : steps = [] ∨ steps = [.stores ch]) :
      Moves state ch (after, steps)
  | stop (hstate : state ≠ .empty) : Moves state ch (.empty, [.closes])

/-- Every transition is one of these. -/
theorem ArgState.next_moves (state : ArgState) (ch : Byte) : state.Moves ch (state.next ch) := by
  cases state with
  | empty =>
      simp only [next]
      split_ifs
      · exact .start _ [] rfl nofun (.inl rfl)
      · exact .start _ [] rfl nofun (.inl rfl)
      · exact .start _ [] rfl nofun (.inl rfl)
      · exact .blank rfl
      · exact .start _ [.stores ch] rfl nofun (.inr rfl)
  | endToken | content =>
      simp only [next]
      split_ifs
      · exact .inside _ [] nofun nofun (.inl rfl)
      · exact .inside _ [] nofun nofun (.inl rfl)
      · exact .inside _ [] nofun nofun (.inl rfl)
      · exact .stop nofun
      · exact .inside _ [.stores ch] nofun nofun (.inr rfl)
  | sqContent | dqContent =>
      simp only [next]
      split_ifs
      · exact .inside _ [] nofun nofun (.inl rfl)
      · exact .inside _ [] nofun nofun (.inl rfl)
      · exact .inside _ [.stores ch] nofun nofun (.inr rfl)
  | contentEsc | sqContentEsc | dqContentEsc =>
      exact .inside _ [.stores ch] nofun nofun (.inr rfl)

/-- The scanner with the arguments in place of their offsets: those that are closed, and the one
that is open. -/
structure Scanner where
  state : ArgState
  closed : List (List Byte)
  current : Option (List Byte)
  deriving DecidableEq, Repr

namespace Scanner

/-- A new scanner. -/
def new : Scanner := ⟨.empty, [], none⟩

/-- One step. -/
def apply (s : Scanner) : ArgStep → Scanner
  | .opens => { s with current := some [] }
  | .stores ch => { s with current := s.current.map (· ++ [ch]) }
  | .closes => { s with closed := s.closed ++ s.current.toList, current := none }

/-- A character. -/
def pushBack (s : Scanner) (ch : Byte) : Scanner :=
  { (s.state.next ch).2.foldl apply s with state := (s.state.next ch).1 }

/-- Characters one after the other. -/
def feed (s : Scanner) (chars : List Byte) : Scanner := chars.foldl pushBack s

/-- The arguments so far: one that is open counts with the characters seen so far. -/
def args (s : Scanner) : List (List Byte) := s.closed ++ s.current.toList

theorem feed_append (s : Scanner) (first second : List Byte) :
    s.feed (first ++ second) = (s.feed first).feed second :=
  List.foldl_append

theorem feed_cons (s : Scanner) (ch : Byte) (rest : List Byte) :
    s.feed (ch :: rest) = (s.pushBack ch).feed rest := rfl

/-! ### What the grammar derives, the scanner computes -/

/-- The scanner inside of an argument. -/
def within (state : ArgState) (closed : List (List Byte)) (current : List Byte) : Scanner :=
  ⟨state, closed, some current⟩

/-- The state between the quotes. -/
def inQuotes : Quote → ArgState
  | .single => .sqContent
  | .double => .dqContent

/-- The state behind a backslash between the quotes. -/
def escapedIn : Quote → ArgState
  | .single => .sqContentEsc
  | .double => .dqContentEsc

/-- The transitions between quotes. -/
theorem next_in_quotes (quote : Quote) (ch : Byte) : (inQuotes quote).next ch =
    if ch = quote.char then (.endToken, [])
    else if ch = BACKSLASH then (escapedIn quote, [])
    else (inQuotes quote, [.stores ch]) := by
  cases quote <;> rfl

/-- The transition behind a backslash between quotes. -/
theorem next_escaped_in (quote : Quote) (ch : Byte) :
    (escapedIn quote).next ch = (inQuotes quote, [.stores ch]) := by
  cases quote <;> rfl

/-- A backslash is no quote. -/
theorem quote_char_ne (quote : Quote) : quote.char ≠ BACKSLASH ∧ quote.char ≠ SPACE := by
  cases quote <;> decide

/-- A transition that stores nothing. -/
theorem push_skip {state after : ArgState} {ch : Byte} (h : state.next ch = (after, []))
    (closed : List (List Byte)) (current : List Byte) :
    (within state closed current).pushBack ch = within after closed current := by
  simp [pushBack, within, h]

/-- A transition that stores the character. -/
theorem push_store {state after : ArgState} {ch : Byte} (h : state.next ch = (after, [.stores ch]))
    (closed : List (List Byte)) (current : List Byte) :
    (within state closed current).pushBack ch = within after closed (current ++ [ch]) := by
  simp [pushBack, within, h, apply]

/-- A text between quotes adds the characters it stands for. -/
theorem feed_quoted {quote : Quote} {text value : List Byte} (h : Quoted quote text value)
    (closed : List (List Byte)) (current : List Byte) :
    (within (inQuotes quote) closed current).feed text =
      within (inQuotes quote) closed (current ++ value) := by
  induction h generalizing current with
  | nil => rw [List.append_nil]; rfl
  | plain ch text value hquote hescape hmore ih =>
      have hnext : (inQuotes quote).next ch = (inQuotes quote, [.stores ch]) := by
        rw [next_in_quotes, if_neg hquote, if_neg hescape]
      rw [feed_cons, push_store hnext, ih, List.append_assoc]
      rfl
  | escaped ch text value hmore ih =>
      have hescape : (inQuotes quote).next BACKSLASH = (escapedIn quote, []) := by
        rw [next_in_quotes, if_neg (quote_char_ne quote).1.symm, if_pos rfl]
      rw [feed_cons, push_skip hescape, feed_cons, push_store (next_escaped_in quote ch), ih,
        List.append_assoc]
      rfl

/-- The states between two pieces. -/
def Between (state : ArgState) : Prop := state = .content ∨ state = .endToken

/-- The transitions between two pieces. -/
theorem next_between {state : ArgState} (h : Between state) (ch : Byte) :
    state.next ch = ArgState.content.next ch := by
  rcases h with rfl | rfl <;> rfl

/-- The opening quote leads between the quotes. -/
theorem next_quote {state : ArgState} (h : Between state) (quote : Quote) :
    state.next quote.char = (inQuotes quote, []) := by
  rw [next_between h]
  cases quote <;> decide

/-- A backslash outside of quotes. -/
theorem next_backslash {state : ArgState} (h : Between state) :
    state.next BACKSLASH = (.contentEsc, []) := by
  rw [next_between h]
  decide

/-- Pieces add the characters they stand for. -/
theorem feed_pieces {text value : List Byte} (h : Pieces text value) {state : ArgState}
    (hstate : Between state) (closed : List (List Byte)) (current : List Byte) :
    ∃ after, Between after ∧
      (within state closed current).feed text = within after closed (current ++ value) := by
  induction h generalizing state current with
  | nil => exact ⟨state, hstate, by rw [List.append_nil]; rfl⟩
  | plain ch text value hplain hmore ih =>
      obtain ⟨hsquote, hdquote, hescape, hspace⟩ := hplain
      have hnext : state.next ch = (.content, [.stores ch]) := by
        rw [next_between hstate]
        simp [ArgState.next, hsquote, hdquote, hescape, hspace]
      obtain ⟨after, hafter, hfeed⟩ := ih (.inl rfl) (current ++ [ch])
      refine ⟨after, hafter, ?_⟩
      rw [feed_cons, push_store hnext, hfeed, List.append_assoc]
      rfl
  | escaped ch text value hmore ih =>
      obtain ⟨after, hafter, hfeed⟩ := ih (.inl rfl) (current ++ [ch])
      refine ⟨after, hafter, ?_⟩
      rw [feed_cons, push_skip (next_backslash hstate), feed_cons, push_store rfl, hfeed,
        List.append_assoc]
      rfl
  | quoted quote inner content text value hinner hmore ih =>
      have hclose : (inQuotes quote).next quote.char = (.endToken, []) := by
        rw [next_in_quotes, if_pos rfl]
      obtain ⟨after, hafter, hfeed⟩ := ih (.inr rfl) (current ++ content)
      refine ⟨after, hafter, ?_⟩
      rw [List.cons_append, feed_cons, push_skip (next_quote hstate quote), feed_append,
        feed_quoted hinner, feed_cons, push_skip hclose, hfeed, List.append_assoc]

/-- A piece that is cut off adds the characters seen so far. -/
theorem feed_cut {piece content : List Byte} (h : Cut piece content) {state : ArgState}
    (hstate : Between state) (closed : List (List Byte)) (current : List Byte) :
    ∃ after, after ≠ .empty ∧
      (within state closed current).feed piece = within after closed (current ++ content) := by
  cases h with
  | escape =>
      refine ⟨.contentEsc, nofun, ?_⟩
      rw [feed_cons, push_skip (next_backslash hstate), List.append_nil]
      rfl
  | quoted quote inner content hinner =>
      refine ⟨inQuotes quote, by cases quote <;> nofun, ?_⟩
      rw [feed_cons, push_skip (next_quote hstate quote), feed_quoted hinner]
  | quotedEscape quote inner content hinner =>
      have hescape : (inQuotes quote).next BACKSLASH = (escapedIn quote, []) := by
        rw [next_in_quotes, if_neg (quote_char_ne quote).1.symm, if_pos rfl]
      refine ⟨escapedIn quote, by cases quote <;> nofun, ?_⟩
      rw [List.cons_append, feed_cons, push_skip (next_quote hstate quote), feed_append,
        feed_quoted hinner, feed_cons, push_skip hescape]
      rfl

/-- The scanner between two arguments. -/
def outside (closed : List (List Byte)) : Scanner := ⟨.empty, closed, none⟩

/-- The first character of an argument opens it. -/
theorem push_outside {ch : Byte} (h : ch ≠ SPACE) (closed : List (List Byte)) :
    (outside closed).pushBack ch = (within .content closed []).pushBack ch := by
  simp only [pushBack, outside, within, ArgState.next, if_neg h]
  split_ifs <;> rfl

/-- A text that starts with another character than a space starts an argument. -/
theorem feed_outside {text : List Byte} (hne : text ≠ []) (h : text.head? ≠ some SPACE)
    (closed : List (List Byte)) :
    (outside closed).feed text = (within .content closed []).feed text := by
  cases text with
  | nil => exact absurd rfl hne
  | cons ch rest =>
      have hch : ch ≠ SPACE := by simpa using h
      rw [feed_cons, feed_cons, push_outside hch]

/-- Neither pieces nor one that is cut off start with a space. -/
theorem pieces_head {text value : List Byte} (h : Pieces text value) :
    text.head? ≠ some SPACE := by
  cases h with
  | nil => nofun
  | plain ch text value hplain => simpa using hplain.2.2.2
  | escaped => simp; decide
  | quoted quote => simpa using (quote_char_ne quote).2

theorem cut_head {piece content : List Byte} (h : Cut piece content) :
    piece ≠ [] ∧ piece.head? ≠ some SPACE := by
  cases h with
  | escape => decide
  | quoted quote => exact ⟨nofun, by simpa using (quote_char_ne quote).2⟩
  | quotedEscape quote => exact ⟨nofun, by simpa using (quote_char_ne quote).2⟩

/-- A space behind some pieces closes the argument. -/
theorem close_between {state : ArgState} (h : Between state) (closed : List (List Byte))
    (current : List Byte) :
    (within state closed current).pushBack SPACE = outside (closed ++ [current]) := by
  have hnext : state.next SPACE = (.empty, [.closes]) := by
    rw [next_between h]
    decide
  simp [pushBack, within, hnext, apply, outside]

/-- **What the grammar derives, the scanner computes.** -/
theorem feed_line {text : List Byte} {args : List (List Byte)} (h : Line text args)
    (closed : List (List Byte)) : ((outside closed).feed text).args = closed ++ args := by
  induction h generalizing closed with
  | nil => rfl
  | space text args hmore ih => exact ih closed
  | argument text value rest args hne hpieces hmore ih =>
      obtain ⟨after, hafter, hfeed⟩ := feed_pieces hpieces (.inl rfl) closed []
      rw [feed_append, feed_outside hne (pieces_head hpieces), hfeed, feed_cons,
        close_between hafter, ih, List.append_assoc]
      rfl
  | last text value hne hpieces =>
      obtain ⟨after, -, hfeed⟩ := feed_pieces hpieces (.inl rfl) closed []
      rw [feed_outside hne (pieces_head hpieces), hfeed]
      rfl
  | cut text value piece content hpieces hcut =>
      obtain ⟨hne, hhead⟩ := cut_head hcut
      obtain ⟨between, hbetween, hfeed⟩ := feed_pieces hpieces (.inl rfl) closed []
      obtain ⟨after, -, hcutoff⟩ := feed_cut hcut hbetween closed ([] ++ value)
      have hstart : (text ++ piece).head? ≠ some SPACE := by
        cases text with
        | nil => exact hhead
        | cons ch rest => simpa using pieces_head hpieces
      rw [feed_outside (by simp [hne]) hstart, feed_append, hfeed, hcutoff]
      rfl

/-! ### What the scanner computes, the grammar derives -/

/-- Pieces are joined. -/
theorem pieces_append {text value back more : List Byte} (h : Pieces text value)
    (hback : Pieces back more) : Pieces (text ++ back) (value ++ more) := by
  induction h with
  | nil => exact hback
  | plain ch text value hplain hmore ih => exact .plain ch _ _ hplain ih
  | escaped ch text value hmore ih => exact .escaped ch _ _ ih
  | quoted quote inner content text value hinner hmore ih =>
      have hjoined := Pieces.quoted quote inner content _ _ hinner ih
      simpa only [List.append_assoc, List.cons_append] using hjoined

/-- Texts between quotes are joined. -/
theorem quoted_append {quote : Quote} {text value back more : List Byte}
    (h : Quoted quote text value) (hback : Quoted quote back more) :
    Quoted quote (text ++ back) (value ++ more) := by
  induction h with
  | nil => exact hback
  | plain ch text value hquote hescape hmore ih => exact .plain ch _ _ hquote hescape ih
  | escaped ch text value hmore ih => exact .escaped ch _ _ ih

/-- The start of a piece, and the state behind it. -/
inductive Opens : ArgState → List Byte → List Byte → Prop
  | escape : Opens .contentEsc [BACKSLASH] []
  | quoted (quote : Quote) (inner content : List Byte) (hinner : Quoted quote inner content) :
      Opens (inQuotes quote) (quote.char :: inner) content
  | quotedEscape (quote : Quote) (inner content : List Byte) (hinner : Quoted quote inner content) :
      Opens (escapedIn quote) (quote.char :: inner ++ [BACKSLASH]) content

theorem Opens.cut {state : ArgState} {piece content : List Byte} (h : Opens state piece content) :
    Cut piece content := by
  cases h with
  | escape => exact .escape
  | quoted quote inner content hinner => exact .quoted quote inner content hinner
  | quotedEscape quote inner content hinner => exact .quotedEscape quote inner content hinner

/-- A front whose arguments are closed: a line behind it adds its arguments. -/
def Closes (front : List Byte) (closed : List (List Byte)) : Prop :=
  ∀ rest args, Line rest args → Line (front ++ rest) (closed ++ args)

/-- What the grammar says about a word behind which the scanner is in this state. -/
inductive Derives (word : List Byte) : Scanner → Prop
  | outside (closed : List (List Byte)) (hfront : Closes word closed) :
      Derives word (outside closed)
  | between (front text current : List Byte) (closed : List (List Byte)) (state : ArgState)
      (hword : word = front ++ text) (hfront : Closes front closed) (hne : text ≠ [])
      (hpieces : Pieces text current) (hstate : Between state) :
      Derives word (within state closed current)
  | cut (front text value piece content : List Byte) (closed : List (List Byte)) (state : ArgState)
      (hword : word = front ++ (text ++ piece)) (hfront : Closes front closed)
      (hpieces : Pieces text value) (hopens : Opens state piece content) :
      Derives word (within state closed (value ++ content))

/-- The arguments of the scanner are those of the grammar. -/
theorem Derives.line {word : List Byte} {s : Scanner} (h : Derives word s) : Line word s.args := by
  cases h with
  | outside closed hfront => simpa [args, Scanner.outside] using hfront [] [] .nil
  | between front text current closed state hword hfront hne hpieces hstate =>
      rw [hword]
      exact hfront text [current] (.last text current hne hpieces)
  | cut front text value piece content closed state hword hfront hpieces hopens =>
      rw [hword]
      exact hfront (text ++ piece) [value ++ content]
        (.cut text value piece content hpieces hopens.cut)

/-- A character that is no space, outside of quotes and behind some pieces. -/
theorem derives_piece {front text current : List Byte} {closed : List (List Byte)}
    {state : ArgState} {ch : Byte} (hfront : Closes front closed) (hpieces : Pieces text current)
    (hstate : Between state) (hspace : ch ≠ SPACE) :
    Derives (front ++ text ++ [ch]) ((within state closed current).pushBack ch) := by
  have hquote (quote : Quote) :
      Derives (front ++ text ++ [quote.char])
        ((within state closed current).pushBack quote.char) := by
    rw [push_skip (next_quote hstate quote), ← List.append_nil current]
    exact .cut front text current [quote.char] [] closed _ (List.append_assoc ..) hfront hpieces
      (.quoted quote [] [] .nil)
  by_cases hsquote : ch = SQUOTE
  · exact hsquote ▸ hquote .single
  by_cases hdquote : ch = DQUOTE
  · exact hdquote ▸ hquote .double
  by_cases hescape : ch = BACKSLASH
  · rw [hescape, push_skip (next_backslash hstate), ← List.append_nil current]
    exact .cut front text current [BACKSLASH] [] closed _ (List.append_assoc ..) hfront hpieces
      .escape
  · have hnext : state.next ch = (.content, [.stores ch]) := by
      rw [next_between hstate]
      simp [ArgState.next, hsquote, hdquote, hescape, hspace]
    have hplain : Pieces [ch] [ch] :=
      .plain ch [] [] ⟨hsquote, hdquote, hescape, hspace⟩ .nil
    rw [push_store hnext]
    exact .between front (text ++ [ch]) (current ++ [ch]) closed _ (List.append_assoc ..) hfront
      (by simp) (pieces_append hpieces hplain) (.inl rfl)

/-- A character between quotes. -/
theorem derives_in_quotes {front text value inner content : List Byte} {closed : List (List Byte)}
    {quote : Quote} (hfront : Closes front closed) (hpieces : Pieces text value)
    (hinner : Quoted quote inner content) (ch : Byte) :
    Derives (front ++ (text ++ quote.char :: inner) ++ [ch])
      ((within (inQuotes quote) closed (value ++ content)).pushBack ch) := by
  by_cases hquote : ch = quote.char
  · -- the piece is complete
    have hnext : (inQuotes quote).next ch = (.endToken, []) := by
      rw [next_in_quotes, if_pos hquote]
    have hpiece := Pieces.quoted quote inner content [] [] hinner .nil
    rw [List.append_nil] at hpiece
    rw [push_skip hnext, hquote]
    exact .between front (text ++ (quote.char :: inner ++ [quote.char])) (value ++ content)
      closed _ (by simp) hfront (by simp) (pieces_append hpieces hpiece) (.inr rfl)
  by_cases hescape : ch = BACKSLASH
  · have hnext : (inQuotes quote).next ch = (escapedIn quote, []) := by
      rw [next_in_quotes, if_neg hquote, if_pos hescape]
    rw [push_skip hnext, hescape]
    exact .cut front text value (quote.char :: inner ++ [BACKSLASH]) content closed _
      (by simp) hfront hpieces (.quotedEscape quote inner content hinner)
  · have hnext : (inQuotes quote).next ch = (inQuotes quote, [.stores ch]) := by
      rw [next_in_quotes, if_neg hquote, if_neg hescape]
    have hplain : Quoted quote [ch] [ch] := .plain ch [] [] hquote hescape .nil
    rw [push_store hnext, List.append_assoc value content [ch]]
    exact .cut front text value (quote.char :: (inner ++ [ch])) (content ++ [ch]) closed _
      (by simp) hfront hpieces (.quoted quote _ _ (quoted_append hinner hplain))

/-- One more character. -/
theorem Derives.push {word : List Byte} {s : Scanner} (h : Derives word s) (ch : Byte) :
    Derives (word ++ [ch]) (s.pushBack ch) := by
  cases h with
  | outside closed hfront =>
      by_cases hspace : ch = SPACE
      · subst hspace
        refine .outside closed ?_
        intro rest args hline
        rw [List.append_assoc]
        exact hfront (SPACE :: rest) args (.space rest args hline)
      · rw [push_outside hspace]
        simpa using derives_piece hfront .nil (.inl rfl) hspace
  | between front text current closed state hword hfront hne hpieces hstate =>
      subst hword
      by_cases hspace : ch = SPACE
      · subst hspace
        have hclose : (within state closed current).pushBack SPACE =
            Scanner.outside (closed ++ [current]) := close_between hstate closed current
        rw [hclose]
        refine .outside _ ?_
        intro rest args hline
        have hmore := hfront _ _ (.argument text current rest args hne hpieces hline)
        simpa only [List.append_assoc, List.cons_append, List.nil_append] using hmore
      · exact derives_piece hfront hpieces hstate hspace
  | cut front text value piece content closed state hword hfront hpieces hopens =>
      subst hword
      cases hopens with
      | escape =>
          rw [push_store rfl, List.append_nil]
          exact .between front (text ++ [BACKSLASH, ch]) (value ++ [ch]) closed _
            (by simp) hfront (by simp)
            (pieces_append hpieces (.escaped ch [] [] .nil)) (.inl rfl)
      | quoted quote inner content hinner =>
          exact derives_in_quotes hfront hpieces hinner ch
      | quotedEscape quote inner content hinner =>
          rw [push_store (next_escaped_in quote ch), List.append_assoc value content [ch]]
          exact .cut front text value (quote.char :: (inner ++ [BACKSLASH, ch])) (content ++ [ch])
            closed _ (by simp) hfront hpieces
            (.quoted quote _ _ (quoted_append hinner (.escaped ch [] [] .nil)))

/-- Behind every word the grammar derives what the scanner has seen. -/
theorem derives_feed (word : List Byte) : Derives word (new.feed word) := by
  induction word using List.reverseRecOn with
  | nil => exact .outside [] fun rest args hline ↦ hline
  | append_singleton word ch ih =>
      rw [feed_append]
      exact ih.push ch

end Scanner

/-- **The scanner computes the arguments of the grammar**, which are unique. -/
theorem line_iff (text : List Byte) (args : List (List Byte)) :
    Line text args ↔ args = (Scanner.new.feed text).args := by
  constructor
  · intro hline
    exact (Scanner.feed_line hline []).symm
  · intro hargs
    rw [hargs]
    exact (Scanner.derives_feed text).line

/-! ## The characters of the arguments -/

/-- Between quotes only backslashes are dropped. -/
theorem Quoted.subset {quote : Quote} {text value : List Byte} (h : Quoted quote text value) :
    value ⊆ text := by
  induction h with
  | nil => exact List.Subset.refl _
  | plain ch text value hquote hescape hmore ih => exact List.cons_subset_cons ch ih
  | escaped ch text value hmore ih =>
      exact List.subset_cons_of_subset BACKSLASH (List.cons_subset_cons ch ih)

/-- Outside of quotes the quotes are dropped as well. -/
theorem Pieces.subset {text value : List Byte} (h : Pieces text value) : value ⊆ text := by
  induction h with
  | nil => exact List.Subset.refl _
  | plain ch text value hplain hmore ih => exact List.cons_subset_cons ch ih
  | escaped ch text value hmore ih =>
      exact List.subset_cons_of_subset BACKSLASH (List.cons_subset_cons ch ih)
  | quoted quote inner content text value hinner hmore ih =>
      have hcontent := hinner.subset
      intro ch hch
      rcases List.mem_append.mp hch with hin | hin
      · simp [hcontent hin]
      · simp [ih hin]

/-- The same of a piece that is cut off. -/
theorem Cut.subset {piece content : List Byte} (h : Cut piece content) : content ⊆ piece := by
  cases h with
  | escape => exact List.nil_subset _
  | quoted quote inner content hinner => exact List.subset_cons_of_subset _ hinner.subset
  | quotedEscape quote inner content hinner =>
      intro ch hch
      simp [hinner.subset hch]

/-- The arguments consist of characters of the line. -/
theorem Line.subset {text : List Byte} {args : List (List Byte)} (h : Line text args) :
    ∀ arg ∈ args, arg ⊆ text := by
  induction h with
  | nil => nofun
  | space text args hmore ih =>
      intro arg harg
      exact List.subset_cons_of_subset SPACE (ih arg harg)
  | argument text value rest args hne hpieces hmore ih =>
      intro arg harg
      rcases List.mem_cons.mp harg with rfl | hrest
      · exact List.subset_append_of_subset_left _ hpieces.subset
      · exact List.subset_append_of_subset_right _
          (List.subset_cons_of_subset SPACE (ih arg hrest))
  | last text value hne hpieces =>
      intro arg harg
      rw [List.mem_singleton.mp harg]
      exact hpieces.subset
  | cut text value piece content hpieces hcut =>
      intro arg harg
      rw [List.mem_singleton.mp harg]
      exact List.append_subset.mpr ⟨List.subset_append_of_subset_left _ hpieces.subset,
        List.subset_append_of_subset_right _ hcut.subset⟩

end Smerp.Protocol
