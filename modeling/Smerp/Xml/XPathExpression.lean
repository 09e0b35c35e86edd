import Mathlib.Data.UInt
import Mathlib.Logic.Relation
import Smerp.Lib.Block
import Smerp.Lib.Interruptible
import Smerp.Lib.Splits
import Smerp.Protocol.Chars

/-!
# The parser of XPath expressions

`XPathExpression` of `examples/xmlselect/xmlIterator.cpp`. The sub-parsers change the position and
the elements, and throw. A loop is executed with a bound on its passes, and a read behind the
terminating zero is a fault. `skip` looks ahead but does not move the position, so that `parse`
stays at a slash for ever. `terminates_iff` says for which expressions the constructor returns.
-/

namespace Smerp.Xml

open Lib Lib.Interruptible

/-- An element of the parsed expression. The parser does not read its type again. -/
structure Element where
  name : List Byte
  deriving DecidableEq, Repr

/-- The parser: the characters of the expression in front of its terminating zero, the elements, the
position, and whether the expression is valid. -/
structure XPathExpression where
  input : List Byte
  ar : List Element
  pos : UInt32
  valid : Bool
  deriving DecidableEq, Repr

/-- Why a sub-parser does not return: the exception `Error`, a read behind the terminating zero, or
more passes than the bound. -/
inductive Stop where
  | error
  | wildRead
  | endless
  deriving DecidableEq, Repr

/-- A sub-parser. What it changed in front of an exception stays changed. -/
abbrev Parse := EStateM Stop XPathExpression

/-- `'/'` -/
def SLASH : Byte := 47
/-- `'@'` -/
def AT : Byte := 64
/-- `'='` -/
def EQUALS : Byte := 61
/-- `'['` -/
def OPEN : Byte := 91
/-- `']'` -/
def CLOSE : Byte := 93
/-- The quotes `'\"'` and `'\''`. -/
def QUOTES : List Byte := [34, 39]

namespace XPathExpression

/-- A character of the expression, or its terminating zero. -/
def byteAt (input : List Byte) (index : Nat) : Option Byte := (input ++ [0])[index]?

/-- `input[index]` -/
def read (index : Nat) : Parse Byte := fun s ↦
  match byteAt s.input index with
  | some ch => .ok ch s
  | none => .error .wildRead s

/-- `cur` -/
def cur : Parse Byte := fun s ↦ read s.pos.toNat s

/-- `pos += nn` -/
def advance (nn : UInt32) : Parse Unit := modify fun s ↦ { s with pos := s.pos + nn }

/-- `ar.push_back( Element( type, name))` -/
def push (name : List Byte) : Parse Unit := modify fun s ↦ { s with ar := s.ar ++ [⟨name⟩] }

/-- `ar.push_back( Element( type, name, ii))` with the name at this index. -/
def pushSlice (start : Nat) (ii : UInt32) : Parse Unit := fun s ↦
  push (Block.slice s.input start ii.toNat) s

/-- `skipB` -/
def skipB : Nat → Parse Unit
  | 0 => throw .endless
  | fuel + 1 => do
      let ch ← cur
      if ch ≠ 0 ∧ signedChar ch ≤ 32 then
        advance 1
        skipB fuel

/-- `skip`: the loop counts `nn` down. -/
def skip (fuel : Nat) : Nat → Parse Unit
  | 0 => skipB fuel
  | nn + 1 => do
      let ch ← read ((← get).pos + UInt32.ofNat (nn + 1)).toNat
      if ch ≠ 0 then skip fuel nn else skipB fuel

/-- `match( const char* str)`, from the character at `ii` on. -/
def matchFrom (ii : UInt32) : List Byte → Parse Bool
  | [] => do
      let _ ← read ((← get).pos + ii).toNat
      return true
  | ch :: str => do
      let found ← read ((← get).pos + ii).toNat
      if found ≠ 0 ∧ found = ch then matchFrom (ii + 1) str else return false

/-- `match( const char* str)` -/
def matchText (str : List Byte) : Parse Bool := matchFrom 0 str

/-- `match( char ch)` -/
def matchChar (ch : Byte) : Parse Bool := do return (← cur) = ch

/-- `for (ii=...; test( name[ii]); ii++);` with the name at this index. -/
def scan (test : Byte → Bool) (start : Nat) : Nat → UInt32 → Parse UInt32
  | 0, _ => throw .endless
  | fuel + 1, ii => do
      let ch ← read (start + ii.toNat)
      if test ch then scan test start fuel (ii + 1) else return ii

/-- `name[ii] >= '0' && name[ii] <= '9'` -/
def isDigit (ch : Byte) : Bool := 48 ≤ ch ∧ ch ≤ 57

/-- The characters that end a name. -/
def endsName (ch : Byte) : Bool := ch = SLASH ∨ ch = OPEN ∨ ch = AT ∨ ch = EQUALS ∨ ch = 0

/-- `parseNumber` and `parseName`: an element of at least one character. -/
def parseRun (test : Byte → Bool) (fuel : Nat) : Parse Unit := do
  let start := (← get).pos.toNat
  let ii ← scan test start fuel 0
  if ii = 0 then throw .error
  pushSlice start ii
  advance ii
  skipB fuel

/-- `parseNumber` -/
def parseNumber (fuel : Nat) : Parse Unit := parseRun isDigit fuel

/-- `parseName` -/
def parseName (fuel : Nat) : Parse Unit := parseRun (fun ch ↦ !endsName ch) fuel

/-- The name of the last element. -/
def lastName (s : XPathExpression) : List Byte := (s.ar.getLast?.map Element.name).getD []

/-- `parseRange` -/
def parseRange (fuel : Nat) : Parse Unit := do
  if ← matchText (text "..") then
    skip fuel 2
    parseNumber fuel
  else
    parseNumber fuel
    if ← matchText (text "..") then
      skip fuel 2
      if (← cur) ≠ CLOSE then parseNumber fuel
    else if (← cur) = CLOSE then push (lastName (← get))
    else throw .error
  skipB fuel

/-- `parseString` -/
def parseString (fuel : Nat) : Parse Unit := do
  let eb ← cur
  advance 1
  let start := (← get).pos.toNat
  let ii ← scan (fun ch ↦ ch ≠ eb ∧ ch ≠ 0) start fuel 0
  if (← read (start + ii.toNat)) = 0 then throw .error
  pushSlice start ii
  advance (ii + 1)
  skipB fuel

/-- `parseCondition` -/
def parseCondition (fuel : Nat) : Parse Unit := do
  if ← matchChar AT then
    skip fuel 1
    parseName fuel
    if ← matchChar EQUALS then
      skip fuel 1
      if (← cur) ∈ QUOTES then parseString fuel
      else parseName fuel
  else parseRange fuel
  if (← cur) ≠ CLOSE then throw .error
  skip fuel 1

/-- One pass of the loop of `parse`. -/
def parsePass (fuel : Nat) : Parse Unit := do
  if ← matchText (text "//") then
    push []
    skip fuel 2
  else if ← matchChar SLASH then skip fuel 1
  else if ← matchChar AT then parseName fuel
  else if ← matchChar OPEN then parseCondition fuel
  else parseName fuel

/-- `parse`, with a bound on the passes of its loop and one on those of the loops in it. -/
def parse (limit : Nat) : Nat → Parse Unit
  | 0 => throw .endless
  | fuel + 1 => do
      if (← cur) ≠ 0 then
        parsePass limit
        parse limit fuel

/-- The members in front of the body of the constructor. -/
def initial (expression : List Byte) : XPathExpression := ⟨expression, [], 0, true⟩

/-- The constructor. An `Error` makes the expression invalid, and the position stays where it was
thrown. -/
def construct (limit : Nat) (expression : List Byte) : Option XPathExpression :=
  match parse limit limit (initial expression) with
  | .ok _ s => some s
  | .error .error s => some { s with valid := false }
  | .error .wildRead _ | .error .endless _ => none

/-! ## What the sub-parsers do -/

section SubParsers

variable {s s' : XPathExpression} {ch : Byte}

/-- The state of the parser. -/
theorem get_eq (s : XPathExpression) : (get : Parse XPathExpression) s = .ok s s := rfl

/-- Reading a character of the expression, or its terminating zero. -/
theorem read_eq {index : Nat} (h : byteAt s.input index = some ch) : read index s = .ok ch s := by
  simp only [read, h]

/-- The current character. -/
theorem cur_eq (h : byteAt s.input s.pos.toNat = some ch) : cur s = .ok ch s := read_eq h

/-- The current character is the one looked for. -/
theorem match_char_self (h : byteAt s.input s.pos.toNat = some ch) :
    matchChar ch s = .ok true s := by
  rw [matchChar, bind_ok (cur_eq h), decide_eq_true rfl]
  rfl

/-- The current character is another one. -/
theorem match_char_other (h : byteAt s.input s.pos.toNat = some ch) {other : Byte}
    (hne : ch ≠ other) : matchChar other s = .ok false s := by
  rw [matchChar, bind_ok (cur_eq h), decide_eq_false hne]
  rfl

/-- The current character does not begin the text looked for. -/
theorem match_text_other (h : byteAt s.input s.pos.toNat = some ch) {other : Byte}
    (hne : ch ≠ other) (str : List Byte) : matchText (other :: str) s = .ok false s := by
  have hread : read (s.pos + 0).toNat s = .ok ch s := by
    rw [UInt32.add_zero]
    exact read_eq h
  rw [matchText, matchFrom, bind_ok (get_eq s), bind_ok hread,
    if_neg fun hsame ↦ hne hsame.2]
  rfl

/-- Looking for a text changes nothing. -/
theorem match_from_keeps (ii : UInt32) (str : List Byte) (s : XPathExpression) :
    (∃ found, matchFrom ii str s = .ok found s) ∨ matchFrom ii str s = .error .wildRead s := by
  induction str generalizing ii with
  | nil =>
      rw [matchFrom, bind_ok (get_eq s)]
      cases hbyte : byteAt s.input (s.pos + ii).toNat with
      | some found => exact .inl ⟨true, by rw [bind_ok (read_eq hbyte)]; rfl⟩
      | none =>
          have hread : read (s.pos + ii).toNat s = .error .wildRead s := by simp only [read, hbyte]
          exact .inr (bind_error hread)
  | cons ch str ih =>
      rw [matchFrom, bind_ok (get_eq s)]
      cases hbyte : byteAt s.input (s.pos + ii).toNat with
      | some found =>
          rw [bind_ok (read_eq hbyte)]
          split_ifs
          · exact ih (ii + 1)
          · exact .inl ⟨false, rfl⟩
      | none =>
          have hread : read (s.pos + ii).toNat s = .error .wildRead s := by simp only [read, hbyte]
          exact .inr (bind_error hread)

/-- No blanks are skipped in front of a character that is none. -/
theorem skip_b_stay (h : byteAt s.input s.pos.toNat = some ch)
    (hstay : ch = 0 ∨ 32 < signedChar ch) (fuel : Nat) : skipB (fuel + 1) s = .ok () s := by
  have hnone : ¬ (ch ≠ 0 ∧ signedChar ch ≤ 32) := by
    rintro ⟨hne, hle⟩
    rcases hstay with hzero | hlarge
    · exact hne hzero
    · omega
  rw [skipB, bind_ok (cur_eq h), if_neg hnone]
  rfl

/-- In front of a character that is no blank, `skip` does not move. -/
theorem skip_stays (h : byteAt s.input s.pos.toNat = some ch) (hch : 32 < signedChar ch)
    (fuel nn : Nat) :
    skip fuel nn s = .ok () s ∨ ∃ stop, stop ≠ .error ∧ skip fuel nn s = .error stop s := by
  have hblanks : skipB fuel s = .ok () s ∨ ∃ stop, stop ≠ .error ∧ skipB fuel s =
    .error stop s := by
    cases fuel with
    | zero => exact .inr ⟨.endless, nofun, rfl⟩
    | succ fuel => exact .inl (skip_b_stay h (.inr hch) fuel)
  induction nn with
  | zero => exact hblanks
  | succ nn ih =>
      rw [skip, bind_ok (get_eq s)]
      cases hbyte : byteAt s.input (s.pos + UInt32.ofNat (nn + 1)).toNat with
      | some found =>
          rw [bind_ok (read_eq hbyte)]
          split_ifs
          · exact ih
          · exact hblanks
      | none =>
          have hread : read (s.pos + UInt32.ofNat (nn + 1)).toNat s = .error .wildRead s := by
            simp only [read, hbyte]
          exact .inr ⟨.wildRead, nofun, bind_error hread⟩

/-- A scan ends at the first character that fails the test. -/
theorem scan_eq {test : Byte → Bool} {start count : Nat} (hcount : count < 2 ^ 32)
    (hruns : ∀ j < count, ∃ found, byteAt s.input (start + j) = some found ∧ test found = true)
    (hend : byteAt s.input (start + count) = some ch) (htest : test ch = false) (fuel : Nat)
    (ii : UInt32) (hle : ii.toNat ≤ count) (hfuel : count - ii.toNat < fuel) :
    scan test start fuel ii s = .ok (UInt32.ofNat count) s := by
  induction fuel generalizing ii with
  | zero => omega
  | succ fuel ih =>
      rcases Nat.lt_or_eq_of_le hle with hlt | heq
      · obtain ⟨found, hbyte, hfound⟩ := hruns ii.toNat hlt
        have hnext : (ii + 1).toNat = ii.toNat + 1 := by
          rw [UInt32.toNat_add]
          exact Nat.mod_eq_of_lt (show ii.toNat + 1 < 2 ^ 32 by omega)
        rw [scan, bind_ok (read_eq hbyte), if_pos hfound]
        exact ih (ii + 1) (by omega) (by omega)
      · have hlast : UInt32.ofNat count = ii := by
          rw [← heq, UInt32.ofNat_toNat]
        rw [← heq] at hend
        rw [scan, bind_ok (read_eq hend), if_neg (by rw [htest]; exact Bool.false_ne_true), hlast]
        rfl

/-- A scan over characters that all pass the test uses up its passes. -/
theorem scan_endless {test : Byte → Bool} {start : Nat} (fuel : Nat) (ii : UInt32)
    (hruns : ∀ k < fuel, ∃ found, byteAt s.input (start + (ii + UInt32.ofNat k).toNat) =
      some found ∧
      test found = true) : scan test start fuel ii s = .error .endless s := by
  induction fuel generalizing ii with
  | zero => rfl
  | succ fuel ih =>
      obtain ⟨found, hbyte, hfound⟩ := hruns 0 (Nat.zero_lt_succ fuel)
      have hfirst : ii + UInt32.ofNat 0 = ii := UInt32.add_zero ii
      rw [hfirst] at hbyte
      rw [scan, bind_ok (read_eq hbyte), if_pos hfound]
      refine ih (ii + 1) ?_
      intro k hk
      have hnext : ii + 1 + UInt32.ofNat k = ii + UInt32.ofNat (k + 1) := by
        rw [UInt32.ofNat_add, UInt32.add_assoc, UInt32.add_comm 1]
        rfl
      rw [hnext]
      exact hruns (k + 1) (Nat.succ_lt_succ hk)

/-- A name or a number without a character throws. -/
theorem parse_run_empty {test : Byte → Bool} (h : byteAt s.input s.pos.toNat = some ch)
    (htest : test ch = false) (fuel : Nat) :
    parseRun test (fuel + 1) s = .error .error s := by
  have hscan : scan test s.pos.toNat (fuel + 1) 0 s = .ok 0 s := by
    have hread : read (s.pos.toNat + (0 : UInt32).toNat) s = .ok ch s := read_eq h
    rw [scan, bind_ok hread, if_neg (by rw [htest]; exact Bool.false_ne_true)]
    rfl
  rw [parseRun, bind_ok (get_eq s), bind_ok hscan, if_pos rfl]
  rfl

end SubParsers

/-! ## The passes of the loop -/

/-- The number of characters in front of the first one that ends a name. -/
def nameLength (expression : List Byte) : Nat :=
  (expression.takeWhile fun ch ↦ !endsName ch).length

/-- Behind the first name stands a character that ends it, or the terminating zero. -/
theorem name_end (expression : List Byte) :
    ∃ ch, byteAt expression (nameLength expression) = some ch ∧ endsName ch = true ∧
      (expression[nameLength expression]? = some SLASH ↔ ch = SLASH) ∧
      nameLength expression ≤ expression.length := by
  have hle : nameLength expression ≤ expression.length :=
    (List.takeWhile_prefix _).length_le
  rcases split_while (fun ch ↦ !endsName ch) expression with hall |
    ⟨front, ch, back, rfl, hfront, hch⟩
  · have hlength : nameLength expression = expression.length := by
      rw [nameLength, List.takeWhile_eq_self_iff.mpr hall]
    refine ⟨0, ?_, rfl, ?_, hle⟩
    · rw [hlength, byteAt, List.getElem?_concat_length]
    · rw [hlength, List.getElem?_eq_none (Nat.le_refl _)]
      decide
  · have hlength : nameLength (front ++ ch :: back) = front.length := by
      rw [nameLength, take_while_split back hfront hch]
    have hplace : (front ++ ch :: back)[front.length]? = some ch := by simp
    refine ⟨ch, ?_, by simpa using hch, ?_, hle⟩
    · rw [hlength, byteAt, List.append_assoc, List.cons_append]
      simp
    · rw [hlength, hplace, Option.some.injEq]

/-- The characters of the first name do not end it. -/
theorem name_run (expression : List Byte) {j : Nat} (hj : j < nameLength expression) :
    ∃ found, byteAt expression j = some found ∧ (!endsName found) = true := by
  have hfront := List.takeWhile_prefix (l := expression) (fun ch ↦ !endsName ch)
  obtain ⟨back, hback⟩ := hfront
  have hget : (expression.takeWhile fun ch ↦ !endsName ch)[j]? =
      some (expression.takeWhile fun ch ↦ !endsName ch)[j] := List.getElem?_eq_getElem hj
  refine ⟨(expression.takeWhile fun ch ↦ !endsName ch)[j], ?_, ?_⟩
  · rw [byteAt]
    nth_rewrite 1 [← hback]
    rw [List.append_assoc, List.getElem?_append_left hj, hget]
  · have hmem : (expression.takeWhile fun ch ↦ !endsName ch)[j] ∈
        expression.takeWhile fun ch ↦ !endsName ch := List.getElem_mem hj
    exact List.mem_takeWhile_imp (p := fun ch ↦ !endsName ch) hmem

/-- The characters that end a name. -/
theorem ends_name_iff (ch : Byte) :
    endsName ch = true ↔ ch = SLASH ∨ ch = OPEN ∨ ch = AT ∨ ch = EQUALS ∨ ch = 0 := by
  rw [endsName, decide_eq_true_iff]

/-- A character that ends a name is not skipped as a blank. -/
theorem ends_name_stays {ch : Byte} (h : endsName ch = true) : ch = 0 ∨ 32 < signedChar ch := by
  rcases (ends_name_iff ch).mp h with rfl | rfl | rfl | rfl | rfl
  · exact .inr (by decide)
  · exact .inr (by decide)
  · exact .inr (by decide)
  · exact .inr (by decide)
  · exact .inl rfl

section Passes

variable {s : XPathExpression} {ch : Byte}

/-- In front of a character other than a slash, `@` and `[` a pass parses a name. -/
theorem pass_name (h : byteAt s.input s.pos.toNat = some ch) (hslash : ch ≠ SLASH) (hat : ch ≠ AT)
    (hopen : ch ≠ OPEN) (limit : Nat) : parsePass limit s = parseName limit s := by
  have htext : matchText (text "//") s = .ok false s := match_text_other h hslash (text "/")
  rw [parsePass, bind_ok htext, if_neg Bool.false_ne_true, bind_ok (match_char_other h hslash),
    if_neg Bool.false_ne_true, bind_ok (match_char_other h hat), if_neg Bool.false_ne_true,
    bind_ok (match_char_other h hopen), if_neg Bool.false_ne_true]

/-- A pass in front of `[` throws: `parseCondition` looks for a number at the bracket. -/
theorem pass_open (h : byteAt s.input s.pos.toNat = some OPEN) (limit : Nat) :
    parsePass (limit + 1) s = .error .error s := by
  have htext : matchText (text "//") s = .ok false s :=
    match_text_other h (by decide) (text "/")
  have hdots : matchText (text "..") s = .ok false s :=
    match_text_other h (by decide) (text ".")
  have hnumber : parseNumber (limit + 1) s = .error .error s :=
    parse_run_empty h (by decide) limit
  have hrange : parseRange (limit + 1) s = .error .error s := by
    rw [parseRange, bind_ok hdots]
    exact bind_error hnumber
  have hcondition : parseCondition (limit + 1) s = .error .error s := by
    rw [parseCondition, bind_ok (match_char_other h (by decide))]
    exact bind_error hrange
  rw [parsePass, bind_ok htext, if_neg Bool.false_ne_true,
    bind_ok (match_char_other h (by decide)), if_neg Bool.false_ne_true,
    bind_ok (match_char_other h (by decide)), if_neg Bool.false_ne_true,
    bind_ok (match_char_self h), if_pos rfl]
  exact hcondition

/-- A pass in front of `@`, `[` or `=` throws. -/
theorem pass_throws (h : byteAt s.input s.pos.toNat = some ch) (hends : endsName ch = true)
    (hzero : ch ≠ 0) (hslash : ch ≠ SLASH) (limit : Nat) :
    parsePass (limit + 1) s = .error .error s := by
  have hempty : parseName (limit + 1) s = .error .error s :=
    parse_run_empty h (by rw [hends]; rfl) limit
  have htext : matchText (text "//") s = .ok false s := match_text_other h hslash (text "/")
  rcases (ends_name_iff ch).mp hends with heq | heq | heq | heq | heq
  · exact absurd heq hslash
  · rw [heq] at h
    exact pass_open h limit
  · rw [parsePass, bind_ok htext, if_neg Bool.false_ne_true, bind_ok (match_char_other h hslash),
      if_neg Bool.false_ne_true, ← heq, bind_ok (match_char_self h), if_pos rfl]
    exact hempty
  · rw [pass_name h hslash (by rw [heq]; decide) (by rw [heq]; decide)]
    exact hempty
  · exact absurd heq hzero

/-- A pass in front of a slash does not move, unless a bound is used up. -/
theorem pass_slash (h : byteAt s.input s.pos.toNat = some SLASH) (limit : Nat) :
    (∃ s', parsePass limit s = .ok () s' ∧ byteAt s'.input s'.pos.toNat = some SLASH) ∨
      ∃ stop s', stop ≠ .error ∧ parsePass limit s = .error stop s' := by
  have hstay : 32 < signedChar SLASH := by decide
  rcases match_from_keeps 0 (text "//") s with ⟨found, hfound⟩ | hwild
  · have htext : matchText (text "//") s = .ok found s := hfound
    cases found with
    | true =>
        have hpass : parsePass limit s =
            skip limit 2 { s with ar := s.ar ++ [⟨[]⟩] } := by
          rw [parsePass, bind_ok htext, if_pos rfl]
          rfl
        rw [hpass]
        rcases skip_stays (s := { s with ar := s.ar ++ [⟨[]⟩] }) h hstay limit 2 with
          hskip | ⟨stop, hstop, hskip⟩
        · exact .inl ⟨_, hskip, h⟩
        · exact .inr ⟨stop, _, hstop, hskip⟩
    | false =>
        have hpass : parsePass limit s = skip limit 1 s := by
          rw [parsePass, bind_ok htext, if_neg Bool.false_ne_true, bind_ok (match_char_self h),
            if_pos rfl]
        rw [hpass]
        rcases skip_stays h hstay limit 1 with hskip | ⟨stop, hstop, hskip⟩
        · exact .inl ⟨s, hskip, h⟩
        · exact .inr ⟨stop, s, hstop, hskip⟩
  · exact .inr ⟨.wildRead, s, by decide, bind_error hwild⟩

/-- In front of a slash the loop does not end. -/
theorem parse_slash (h : byteAt s.input s.pos.toNat = some SLASH) (limit fuel : Nat) :
    ∃ stop s', stop ≠ .error ∧ parse limit fuel s = .error stop s' := by
  induction fuel generalizing s with
  | zero => exact ⟨.endless, s, by decide, rfl⟩
  | succ fuel ih =>
      have hgoes : parse limit (fuel + 1) s = (parsePass limit >>= fun _ ↦ parse limit fuel) s := by
        rw [parse, bind_ok (cur_eq h), if_pos (by decide)]
      rw [hgoes]
      rcases pass_slash h limit with ⟨s', hpass, hnext⟩ | ⟨stop, s', hstop, hpass⟩
      · rw [bind_ok hpass]
        exact ih hnext
      · exact ⟨stop, s', hstop, bind_error hpass⟩

/-- The scan for the first name, from the start of the expression. -/
theorem scan_name (hsmall : nameLength s.input < 2 ^ 32) {limit : Nat}
    (hlimit : nameLength s.input < limit) :
    scan (fun ch ↦ !endsName ch) 0 limit 0 s = .ok (UInt32.ofNat (nameLength s.input)) s := by
  obtain ⟨ch, hbyte, hends, -, -⟩ := name_end s.input
  refine scan_eq hsmall ?_ ?_ (by rw [hends]; rfl) limit 0 (Nat.zero_le _) hlimit
  · intro j hj
    rw [Nat.zero_add]
    exact name_run s.input hj
  · rw [Nat.zero_add]
    exact hbyte

/-- In front of a first name a pass parses it. -/
theorem pass_front_name (hpos : s.pos = 0) (hname : 0 < nameLength s.input) (limit : Nat) :
    (∃ ch, cur s = .ok ch s ∧ ch ≠ 0) ∧ parsePass limit s = parseName limit s := by
  obtain ⟨ch, hbyte, hin⟩ := name_run s.input hname
  have hends : ¬ endsName ch = true := by
    rw [Bool.not_eq_true'] at hin
    rw [hin]
    exact Bool.false_ne_true
  rw [ends_name_iff, not_or, not_or, not_or, not_or] at hends
  have hcur : byteAt s.input s.pos.toNat = some ch := by
    rw [hpos]
    exact hbyte
  exact ⟨⟨ch, cur_eq hcur, hends.2.2.2.2⟩, pass_name hcur hends.1 hends.2.2.1 hends.2.1 limit⟩

/-- A first name of less than `2 ^ 32` characters is parsed as a whole. -/
theorem pass_front (hpos : s.pos = 0) (hsmall : nameLength s.input < 2 ^ 32)
    (hname : 0 < nameLength s.input) {limit : Nat} (hlimit : nameLength s.input < limit) :
    ∃ s', parsePass limit s = .ok () s' ∧ s'.input = s.input ∧
      s'.pos.toNat = nameLength s.input := by
  obtain ⟨limit, rfl⟩ : ∃ more, limit = more + 1 := ⟨limit - 1, by omega⟩
  obtain ⟨ch, hbyte, hends, -, -⟩ := name_end s.input
  have hlength : (UInt32.ofNat (nameLength s.input)).toNat = nameLength s.input :=
    UInt32.toNat_ofNat_of_lt' hsmall
  have hsome : UInt32.ofNat (nameLength s.input) ≠ 0 := by
    intro hzero
    have hsame := congrArg UInt32.toNat hzero
    rw [hlength] at hsame
    exact absurd hsame (Nat.pos_iff_ne_zero.mp hname)
  have hscan : scan (fun ch ↦ !endsName ch) s.pos.toNat (limit + 1) 0 s =
      .ok (UInt32.ofNat (nameLength s.input)) s := by
    rw [hpos]
    exact scan_name hsmall hlimit
  -- behind the name, in front of the character that ends it
  let named : XPathExpression :=
    { s with
      ar := s.ar ++
        [⟨Block.slice s.input s.pos.toNat (UInt32.ofNat (nameLength s.input)).toNat⟩]
      pos := s.pos + UInt32.ofNat (nameLength s.input) }
  have hnamed : named.pos.toNat = nameLength s.input := by
    show (s.pos + UInt32.ofNat (nameLength s.input)).toNat = nameLength s.input
    rw [hpos, UInt32.zero_add, hlength]
  have hthere : byteAt named.input named.pos.toNat = some ch := by
    rw [hnamed]
    exact hbyte
  refine ⟨named, ?_, rfl, hnamed⟩
  rw [(pass_front_name hpos hname (limit + 1)).2, parseName, parseRun, bind_ok (get_eq s),
    bind_ok hscan, if_neg hsome]
  exact skip_b_stay hthere (ends_name_stays hends) limit

/-- A first name that is too long for the bound, or has `2 ^ 32` characters, is never parsed. -/
theorem pass_front_endless (hpos : s.pos = 0) {limit : Nat}
    (hlong : 2 ^ 32 ≤ nameLength s.input ∨ limit ≤ nameLength s.input)
    (hname : 0 < nameLength s.input) : parsePass limit s = .error .endless s := by
  have hscan : scan (fun ch ↦ !endsName ch) s.pos.toNat limit 0 s = .error .endless s := by
    refine scan_endless limit 0 ?_
    intro k hk
    rw [hpos, UInt32.zero_add]
    show ∃ found, byteAt s.input (0 + (UInt32.ofNat k).toNat) = some found ∧
      (!endsName found) = true
    rw [Nat.zero_add]
    refine name_run s.input ?_
    rcases hlong with hlong | hlong
    · exact Nat.lt_of_lt_of_le (UInt32.ofNat k).toNat_lt hlong
    · have hle : (UInt32.ofNat k).toNat ≤ k := Nat.mod_le k (2 ^ 32)
      omega
  rw [(pass_front_name hpos hname limit).2, parseName, parseRun, bind_ok (get_eq s)]
  exact bind_error hscan

end Passes

/-! ## Termination -/

/-- The loop makes a pass. -/
def Passes (limit : Nat) (s s' : XPathExpression) : Prop :=
  (∃ ch, cur s = .ok ch s ∧ ch ≠ 0) ∧ parsePass limit s = .ok () s'

/-- The states in front of the passes, and at the end of the loop. -/
def Reached (limit : Nat) (expression : List Byte) : XPathExpression → Prop :=
  Relation.ReflTransGen (Passes limit) (initial expression)

/-- A pass moves forward inside of the string, or throws `Error` inside of it. -/
def Forward (limit : Nat) (s : XPathExpression) : Prop :=
  (∃ s', parsePass limit s = .ok () s' ∧ s.pos < s'.pos ∧ s'.pos.toNat ≤ s.input.length) ∨
    ∃ s', parsePass limit s = .error .error s' ∧ s'.pos.toNat ≤ s.input.length

/-- With these bounds the constructor returns, every pass moves forward or throws, and the position
is never behind the terminating zero. -/
structure Settles (limit : Nat) (expression : List Byte) : Prop where
  returns : ∃ s, construct limit expression = some s
  forward : ∀ s, Reached limit expression s → cur s ≠ .ok 0 s → Forward limit s
  inside : ∀ s, Reached limit expression s → s.pos.toNat ≤ expression.length

/-- The constructor returns after finitely many steps, and moves forward up to there. -/
def Terminates (expression : List Byte) : Prop := ∃ limit, Settles limit expression

/-- The first name of the expression fits, and no slash stands behind it. -/
def NoSlash (expression : List Byte) : Prop :=
  nameLength expression < 2 ^ 32 ∧ expression[nameLength expression]? ≠ some SLASH

/-- The constructor does not return where `parse` stops with anything else than `Error`. -/
theorem construct_stops {limit : Nat} {expression : List Byte} {stop : Stop} {s : XPathExpression}
    (h : parse limit limit (initial expression) = .error stop s) (hstop : stop ≠ .error) :
    construct limit expression = none := by
  rw [construct, h]
  cases stop with
  | error => exact absurd rfl hstop
  | wildRead | endless => rfl

/-- In front of a slash, or behind `2 ^ 32` characters without an end of the name, the constructor
does not return. -/
theorem never_returns {expression : List Byte} (hnot : ¬ NoSlash expression) (limit : Nat) :
    construct limit expression = none := by
  have h : 2 ^ 32 ≤ nameLength expression ∨ expression[nameLength expression]? = some SLASH := by
    rwa [NoSlash, not_and_or, Nat.not_lt, not_not] at hnot
  suffices hparse : ∃ stop s', stop ≠ Stop.error ∧
      parse limit limit (initial expression) = .error stop s' by
    obtain ⟨stop, s', hstop, heq⟩ := hparse
    exact construct_stops heq hstop
  obtain ⟨ch, hbyte, -, hslash, -⟩ := name_end expression
  cases limit with
  | zero => exact ⟨.endless, initial expression, by decide, rfl⟩
  | succ limit =>
      rcases Nat.eq_zero_or_pos (nameLength expression) with hzero | hname
      · rw [hslash, hzero] at h
        have hfirst := h.resolve_left (by decide)
        rw [hzero, hfirst] at hbyte
        exact parse_slash hbyte (limit + 1) (limit + 1)
      · obtain ⟨⟨first, hcur, hne⟩, -⟩ :=
          pass_front_name (s := initial expression) rfl hname (limit + 1)
        have hgoes : parse (limit + 1) (limit + 1) (initial expression) =
            (parsePass (limit + 1) >>= fun _ ↦ parse (limit + 1) limit) (initial expression) := by
          rw [parse, bind_ok hcur, if_pos hne]
        rw [hgoes]
        by_cases hlong : 2 ^ 32 ≤ nameLength expression ∨ limit + 1 ≤ nameLength expression
        · exact ⟨.endless, initial expression, by decide,
            bind_error (pass_front_endless rfl hlong hname)⟩
        · rw [not_or, Nat.not_le, Nat.not_le] at hlong
          obtain ⟨s', hpass, hinput, hpos⟩ :=
            pass_front (s := initial expression) rfl hlong.1 hname hlong.2
          have hsame : ch = SLASH := hslash.mp (h.resolve_left (Nat.not_le.mpr hlong.1))
          have hthere : byteAt s'.input s'.pos.toNat = some SLASH := by
            rw [hinput, hpos, ← hsame]
            exact hbyte
          rw [bind_ok hpass]
          exact parse_slash hthere (limit + 1) limit

/-- The states in front of the first name and behind it. -/
def Around (expression : List Byte) (s : XPathExpression) : Prop :=
  s.input = expression ∧ (s.pos = 0 ∨ s.pos.toNat = nameLength expression)

section Bounded

variable {expression : List Byte} {s : XPathExpression}

/-- What a pass does: behind the name it throws, and in front of it it goes behind it. -/
theorem Around.pass (h : Around expression s) (hfree : NoSlash expression)
    (hcur : cur s ≠ .ok 0 s) :
    parsePass (nameLength expression + 2) s = .error .error s ∨
      ∃ s', parsePass (nameLength expression + 2) s = .ok () s' ∧ s.pos < s'.pos ∧
        s'.input = expression ∧ s'.pos.toNat = nameLength expression := by
  obtain ⟨rfl, hplace⟩ := h
  obtain ⟨ch, hbyte, hends, hslash, -⟩ := name_end s.input
  by_cases hthere : s.pos.toNat = nameLength s.input
  · rw [← hthere] at hbyte
    have hzero : ch ≠ 0 := fun hzero ↦ hcur (hzero ▸ cur_eq hbyte)
    exact .inl (pass_throws hbyte hends hzero (fun heq ↦ hfree.2 (hslash.mpr heq)) _)
  · have hpos := hplace.resolve_right hthere
    have hname : 0 < nameLength s.input := by
      rw [hpos] at hthere
      exact Nat.pos_of_ne_zero fun hzero ↦ hthere hzero.symm
    obtain ⟨s', hpass, hinput, hbehind⟩ :=
      pass_front hpos hfree.1 hname (Nat.lt_add_of_pos_right Nat.two_pos)
    refine .inr ⟨s', hpass, ?_, hinput, hbehind⟩
    rw [UInt32.lt_iff_toNat_lt, hbehind, hpos]
    exact hname

/-- All states that are reached are around the first name. -/
theorem around_of_reached (hfree : NoSlash expression)
    (h : Reached (nameLength expression + 2) expression s) : Around expression s := by
  induction h with
  | refl => exact ⟨rfl, .inl rfl⟩
  | @tail before after _ hpass ih =>
      obtain ⟨⟨ch, hcur, hne⟩, hnext⟩ := hpass
      have hgoes : cur before ≠ .ok 0 before := by
        rw [hcur]
        intro heq
        injection heq with hzero
        exact hne hzero
      rcases ih.pass hfree hgoes with hthrows | ⟨s', hok, -, hinput, hpos⟩
      · rw [hthrows] at hnext
        exact absurd hnext nofun
      · rw [hok] at hnext
        injection hnext with _ heq
        rw [← heq]
        exact ⟨hinput, .inr hpos⟩

/-- Around the first name the position is inside of the expression. -/
theorem Around.inside (h : Around expression s) : s.pos.toNat ≤ expression.length := by
  obtain ⟨-, -, -, -, hle⟩ := name_end expression
  rcases h.2 with hfront | hbehind
  · rw [hfront]
    exact Nat.zero_le _
  · rw [hbehind]
    exact hle

/-- Around the first name there is a current character. -/
theorem Around.cur (h : Around expression s) : ∃ ch, cur s = .ok ch s := by
  have hlt : s.pos.toNat < (s.input ++ [0]).length := by
    rw [List.length_append, List.length_singleton, h.1]
    exact Nat.lt_succ_of_le h.inside
  exact ⟨_, cur_eq (List.getElem?_eq_getElem hlt)⟩

/-- Behind the first name `parse` returns or throws `Error`. -/
theorem Around.parse_behind (h : Around expression s) (hfree : NoSlash expression)
    (hbehind : s.pos.toNat = nameLength expression) (fuel : Nat) :
    parse (nameLength expression + 2) (fuel + 1) s = .ok () s ∨
      parse (nameLength expression + 2) (fuel + 1) s = .error .error s := by
  obtain ⟨ch, hcur⟩ := h.cur
  rw [parse, bind_ok hcur]
  by_cases hzero : ch = 0
  · rw [if_neg (not_not.mpr hzero)]
    exact .inl rfl
  · rw [if_pos hzero]
    have hgoes : XPathExpression.cur s ≠ .ok 0 s := by
      rw [hcur]
      intro heq
      injection heq with hsame
      exact hzero hsame
    rcases h.pass hfree hgoes with hthrows | ⟨s', -, hforward, -, hpos⟩
    · exact .inr (bind_error hthrows)
    · rw [UInt32.lt_iff_toNat_lt, hpos, hbehind] at hforward
      exact absurd hforward (Nat.lt_irrefl _)

/-- `parse` returns or throws `Error`. -/
theorem parse_returns (hfree : NoSlash expression) : ∃ s',
    parse (nameLength expression + 2) (nameLength expression + 2) (initial expression) =
        .ok () s' ∨
      parse (nameLength expression + 2) (nameLength expression + 2) (initial expression) =
        .error .error s' := by
  have hstart : Around expression (initial expression) := ⟨rfl, .inl rfl⟩
  by_cases hbehind : (initial expression).pos.toNat = nameLength expression
  · exact ⟨initial expression, hstart.parse_behind hfree hbehind _⟩
  · have hname : 0 < nameLength expression := Nat.pos_of_ne_zero fun hzero ↦ hbehind hzero.symm
    obtain ⟨⟨ch, hcur, hne⟩, -⟩ :=
      pass_front_name (s := initial expression) rfl hname (nameLength expression + 2)
    obtain ⟨s', hpass, hinput, hpos⟩ := pass_front (s := initial expression) rfl hfree.1 hname
      (Nat.lt_add_of_pos_right Nat.two_pos)
    have hfirst : parsePass (nameLength expression + 2) (initial expression) = .ok () s' := hpass
    have hnext : Around expression s' := ⟨hinput, .inr hpos⟩
    refine ⟨s', ?_⟩
    rw [parse, bind_ok hcur, if_pos hne, bind_ok hfirst]
    exact hnext.parse_behind hfree hpos _

/-- An expression without a slash behind its first name is parsed in at most two passes. -/
theorem settles_of_no_slash (hfree : NoSlash expression) :
    Settles (nameLength expression + 2) expression where
  returns := by
    obtain ⟨s', hok | hthrows⟩ := parse_returns hfree
    · exact ⟨s', by rw [construct, hok]⟩
    · exact ⟨{ s' with valid := false }, by rw [construct, hthrows]⟩
  forward := by
    intro s hreached hgoes
    have haround := around_of_reached hfree hreached
    rcases haround.pass hfree hgoes with hthrows | ⟨s', hok, hforward, hinput, hpos⟩
    · refine .inr ⟨s, hthrows, ?_⟩
      rw [haround.1]
      exact haround.inside
    · refine .inl ⟨s', hok, hforward, ?_⟩
      rw [haround.1]
      exact Around.inside ⟨hinput, .inr hpos⟩
  inside := fun _ hreached ↦ (around_of_reached hfree hreached).inside

end Bounded

/-- **When the parser terminates.** Exactly if the first character of the expression that ends a
name is not a slash, and less than `2 ^ 32` characters stand in front of it. -/
theorem terminates_iff (expression : List Byte) : Terminates expression ↔ NoSlash expression := by
  constructor
  · rintro ⟨limit, hsettles⟩
    obtain ⟨s, hreturns⟩ := hsettles.returns
    by_contra hnot
    rw [never_returns hnot limit] at hreturns
    exact Option.some_ne_none s hreturns.symm
  · intro hfree
    exact ⟨_, settles_of_no_slash hfree⟩

/-- The path `"/a"` keeps the parser busy for ever. -/
theorem slash_never_settles : ¬ ∀ expression : List Byte, 0 ∉ expression →
    Terminates expression := by
  intro h
  obtain ⟨limit, hsettles⟩ := h (text "/a") (by decide)
  obtain ⟨s, hreturns⟩ := hsettles.returns
  have hslash : ¬ NoSlash (text "/a") := fun hfree ↦ hfree.2 rfl
  rw [never_returns hslash limit] at hreturns
  exact Option.some_ne_none s hreturns.symm

end XPathExpression

end Smerp.Xml
