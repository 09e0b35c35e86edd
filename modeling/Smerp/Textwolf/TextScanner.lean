import Smerp.Lib.Interruptible
import Smerp.Textwolf.CharSets

/-!
# The reader of the XML scanner

`TextScanner` of `examples/xmlselect/textwolf.hpp`: it loads the bytes of one character from the
input iterator, classifies it and decodes it. The iterator throws `InputBlock::End` where the input
ends; the bytes loaded before stay loaded, and with more input the reader goes on behind them.
-/

namespace Smerp.Textwolf

open Lib.Interruptible

/-- `ControlCharacter` -/
inductive ControlCharacter where
  | undef
  | endOfText
  | endOfLine
  | cntrl
  | space
  | amp
  | lt
  | equal
  | gt
  | slash
  | exclam
  | questm
  | sq
  | dq
  | osb
  | csb
  | any
  deriving DecidableEq, Repr

/-- `ControlCharMap`. The closing square bracket is entered as an opening one. -/
def controlCharMap : CharMap ControlCharacter :=
  (CharMap.fill .undef)
    |>.set 0 .endOfText |>.range 1 31 .cntrl |>.set 5 .undef |>.range 33 127 .any
    |>.range 128 255 .undef
    |>.set 9 .space |>.set 13 .endOfLine |>.set 10 .endOfLine |>.set 32 .space |>.set 38 .amp
    |>.set 60 .lt |>.set 61 .equal |>.set 62 .gt |>.set 47 .slash |>.set 33 .exclam
    |>.set 63 .questm |>.set 39 .sq |>.set 34 .dq |>.set 91 .osb |>.set 93 .osb

/-- Why a function of the scanner does not return: the iterator threw `InputBlock::End`, a cell is
read that was not loaded, a write goes behind the output buffer, or a loop does not end. -/
inductive Stop where
  | endOfInput
  | unloaded
  | wildWrite
  | endless
  deriving DecidableEq, Repr

/-- The reader: what stands in front of the iterator, the cells of `buf` that are loaded (`state`
is their number), and the two members that keep what was read from them. -/
structure TextScanner where
  input : List Byte
  buf : List Byte
  val : UChar
  cur : Byte
  deriving DecidableEq, Repr

/-- A function of the reader. What it changed in front of an exception stays changed. -/
abbrev Read := EStateM Stop TextScanner

namespace TextScanner

/-- The constructor. -/
def fresh (input : List Byte) : TextScanner := ⟨input, [], 0, 0⟩

/-- More input stands in front of the iterator. -/
def feed (s : TextScanner) (more : List Byte) : TextScanner := { s with input := s.input ++ more }

/-- `buf[state] = *input; ++input; ++state` -/
def load : Read Unit := fun s ↦
  match s.input with
  | [] => .error .endOfInput s
  | ch :: input => .ok () { s with input := input, buf := s.buf ++ [ch] }

/-- This many bytes. -/
def loads : Nat → Read Unit
  | 0 => return ()
  | count + 1 => do
      load
      loads count

/-- `while (state < bound)` -/
def loadTo (bound : Nat) : Read Unit := fun s ↦ loads (bound - s.buf.length) s

variable (cs : CharSet)

/-- `getcur` -/
def getcur : Read Unit := do
  loadTo cs.asize
  alter fun s ↦ { s with cur := cs.achar s.buf }

/-- What `control` and `ascii` say about the character. -/
def classify {α : Type} (view : Byte → α) : Read α := do
  getcur cs
  return view (← look TextScanner.cur)

/-- `control` -/
def control : Read ControlCharacter := classify cs controlCharMap

/-- An ASCII character; zero for another one. -/
def asciiOf (cur : Byte) : Byte := if 0 ≤ signedChar cur then cur else 0

/-- `ascii` -/
def ascii : Read Byte := classify cs asciiOf

/-- The loop of `chr`. The number of bytes follows from those that are loaded to begin with. -/
def loadAll : Read Unit := fun s ↦
  if s.buf.length < cs.asize then .error .unloaded s else loadTo (cs.size s.buf) s

/-- `chr` -/
def chr : Read UChar := do
  if (← look TextScanner.val) = 0 then
    loadAll cs
    alter fun s ↦ { s with val := cs.value s.buf }
    look TextScanner.val
  else look TextScanner.val

/-- `skip`: the bytes that are not loaded are passed over. -/
def skip : Read Unit := fun s ↦
  let unread := cs.asize - s.buf.length
  if s.input.length < unread then .error .endOfInput { s with input := [] }
  else .ok () (fresh (s.input.drop unread))

/-! ## What the functions do -/

variable {cs} {s s' : TextScanner}

/-- The first bytes of a character are loaded. -/
def Loaded (cs : CharSet) (s : TextScanner) : Prop := cs.asize ≤ s.buf.length

/-- The bytes that are not consumed. -/
def left (s : TextScanner) : Nat := s.buf.length + s.input.length

/-- Loading bytes that are there. -/
theorem loads_ok {count : Nat} (h : count ≤ s.input.length) :
    loads count s = .ok () { s with
      input := s.input.drop count, buf := s.buf ++ s.input.take count } := by
  induction count generalizing s with
  | zero => simp [loads, pure, EStateM.pure]
  | succ count ih =>
      cases hinput : s.input with
      | nil => simp [hinput] at h
      | cons ch input =>
          have hload : load s = .ok () { s with input := input, buf := s.buf ++ [ch] } := by
            simp only [load, hinput]
          rw [hinput] at h
          rw [loads, bind_ok hload, ih (Nat.le_of_succ_le_succ h)]
          simp

/-- Loading more bytes than there are. -/
theorem loads_short {count : Nat} (h : s.input.length < count) :
    loads count s = .error .endOfInput { s with input := [], buf := s.buf ++ s.input } := by
  induction count generalizing s with
  | zero => omega
  | succ count ih =>
      cases hinput : s.input with
      | nil =>
          have hload : load s = .error .endOfInput s := by simp only [load, hinput]
          rw [loads, bind_error hload, List.append_nil]
          cases s
          simp only at hinput
          rw [hinput]
      | cons ch input =>
          have hload : load s = .ok () { s with input := input, buf := s.buf ++ [ch] } := by
            simp only [load, hinput]
          rw [hinput] at h
          rw [loads, bind_ok hload, ih (Nat.lt_of_succ_lt_succ h)]
          simp

/-- Bytes that are loaded are not loaded again. -/
theorem load_to_loaded {bound : Nat} (h : bound ≤ s.buf.length) : loadTo bound s = .ok () s := by
  rw [loadTo, Nat.sub_eq_zero_of_le h]
  rfl

/-- Loading up to a bound: it is reached, or the input is at an end. -/
theorem load_to_cases (bound : Nat) (s : TextScanner) :
    (∃ front back, s.input = front ++ back ∧ bound ≤ s.buf.length + front.length ∧
      front.length = bound - s.buf.length ∧
      loadTo bound s = .ok () { s with input := back, buf := s.buf ++ front }) ∨
    (s.buf.length + s.input.length < bound ∧
      loadTo bound s = .error .endOfInput { s with input := [], buf := s.buf ++ s.input }) := by
  by_cases h : bound - s.buf.length ≤ s.input.length
  · refine .inl ⟨s.input.take (bound - s.buf.length), s.input.drop (bound - s.buf.length),
      (List.take_append_drop _ _).symm, ?_, ?_, ?_⟩
    · rw [List.length_take]
      omega
    · rw [List.length_take]
      omega
    · rw [loadTo, loads_ok h]
  · refine .inr ⟨by omega, ?_⟩
    rw [loadTo, loads_short (Nat.not_le.mp h)]

/-- Loading does the same with more input if it is not short of it. -/
theorem extends_load_to (bound : Nat) : Extends feed .endOfInput (loadTo bound) := by
  intro s more
  rcases load_to_cases bound s with ⟨front, back, hinput, -, hlength, hload⟩ | ⟨-, hload⟩
  · refine .of_ok hload ?_
    have hlonger : (feed s more).input = front ++ (back ++ more) := by
      rw [feed, hinput, List.append_assoc]
    show loads (bound - s.buf.length) (feed s more) = _
    rw [loads_ok (by rw [hlonger, List.length_append]; omega), hlonger, ← hlength,
      List.take_left, List.drop_left]
    rfl
  · exact .of_error hload fun hne ↦ absurd rfl hne

/-- Loading some bytes and then others. -/
theorem loads_add (front back : Nat) (s : TextScanner) :
    loads (front + back) s = (loads front >>= fun _ ↦ loads back) s := by
  induction front generalizing s with
  | zero =>
      rw [Nat.zero_add]
      rfl
  | succ front ih =>
      rw [Nat.succ_add, loads, loads]
      cases hload : load s with
      | error e s' => rw [bind_error hload, bind_error (bind_error hload)]
      | ok _ s' =>
          rw [bind_ok hload, ih s']
          cases hfront : loads front s' with
          | error e t => rw [bind_error hfront, bind_error ((bind_ok hload).trans hfront)]
          | ok _ t => rw [bind_ok hfront, bind_ok ((bind_ok hload).trans hfront)]

/-- Interrupted loading goes on where it was interrupted. -/
theorem resumes_load_to (bound : Nat) (s : TextScanner) :
    Resumes feed .endOfInput (fun _ ↦ True) (loadTo bound) (loadTo bound) s := by
  intro s' hstop
  rcases load_to_cases bound s with ⟨front, back, -, -, -, hload⟩ | ⟨hshort, hload⟩
  · rw [hload] at hstop
    exact nomatch hstop
  · rw [hload] at hstop
    obtain rfl : { s with input := [], buf := s.buf ++ s.input } = s' := by simpa using hstop
    refine ⟨trivial, fun more ↦ ?_⟩
    have hall : s.input.length ≤ (feed s more).input.length := by
      rw [feed, List.length_append]
      omega
    show loads (bound - s.buf.length) (feed s more) = loads (bound - (s.buf ++ s.input).length) _
    rw [List.length_append,
      show bound - s.buf.length =
        s.input.length + (bound - (s.buf.length + s.input.length)) by omega,
      loads_add, bind_ok (loads_ok hall)]
    simp [feed]

/-! ## Classifying a character -/

section Classify

variable {α : Type} (view : Byte → α)

theorem extends_getcur : Extends feed .endOfInput (getcur cs) := by
  refine (extends_load_to cs.asize).bind ?_
  intro _
  exact .alter fun _ _ ↦ rfl

theorem extends_classify : Extends feed .endOfInput (classify cs view) := by
  refine extends_getcur.bind ?_
  intro _
  refine Extends.bind (.look fun _ _ ↦ rfl) ?_
  intro cur
  exact .pure (view cur)

/-- What is loaded is classified. -/
theorem classify_of_load (h : loadTo cs.asize s = .ok () s') :
    classify cs view s = .ok (view (cs.achar s'.buf)) { s' with cur := cs.achar s'.buf } := by
  have hgetcur : getcur cs s = .ok ⟨⟩ { s' with cur := cs.achar s'.buf } := by
    rw [getcur, bind_ok h, alter_eq]
  rw [classify, bind_ok hgetcur]
  rfl

/-- A character that is loaded is classified as it stands. -/
theorem classify_loaded (h : Loaded cs s) :
    classify cs view s = .ok (view (cs.achar s.buf)) { s with cur := cs.achar s.buf } :=
  classify_of_load view (load_to_loaded h)

/-- What classifying a character does: its first bytes are loaded, or the input is used up. -/
theorem classify_cases (view : Byte → α) (s : TextScanner) :
    (∃ front back, s.input = front ++ back ∧ Loaded cs { s with buf := s.buf ++ front } ∧
      front.length = cs.asize - s.buf.length ∧
      classify cs view s = .ok (view (cs.achar (s.buf ++ front)))
        { s with input := back, buf := s.buf ++ front, cur := cs.achar (s.buf ++ front) }) ∨
    (¬ Loaded cs s ∧ s.buf.length + s.input.length < cs.asize ∧
      classify cs view s = .error .endOfInput { s with input := [], buf := s.buf ++ s.input }) := by
  rcases load_to_cases cs.asize s with ⟨front, back, hinput, hle, hlength, hload⟩ | ⟨hshort, hload⟩
  · refine .inl ⟨front, back, hinput, ?_, hlength, classify_of_load view hload⟩
    rw [Loaded, List.length_append]
    exact hle
  · refine .inr ⟨?_, hshort, ?_⟩
    · rw [Loaded]
      omega
    · rw [classify, getcur, bind_error (bind_error hload)]

/-- Interrupted in front of a character, the reader classifies it when there is more input. -/
theorem resumes_classify (s : TextScanner) :
    Resumes feed .endOfInput (fun _ ↦ True) (classify cs view) (classify cs view) s := by
  have hgetcur : Resumes feed .endOfInput (fun _ ↦ True) (getcur cs) (getcur cs) s :=
    .bind (extends_load_to cs.asize s) (resumes_load_to cs.asize s) (fun _ h ↦ h)
      (fun _ _ _ ↦ rfl) fun _ _ _ ↦ .of_ok rfl
  exact .bind (extends_getcur s) hgetcur (fun _ h ↦ h) (fun _ _ _ ↦ rfl) fun _ _ _ ↦ .of_ok rfl

end Classify

/-! ## Decoding a character -/

theorem extends_load_all : Extends feed .endOfInput (loadAll cs) := by
  intro s more
  by_cases hless : s.buf.length < cs.asize
  · refine .of_error (if_pos hless) ?_
    intro _
    exact if_pos hless
  · have hload := extends_load_to (cs.size s.buf) s more
    have hsame : loadAll cs s = loadTo (cs.size s.buf) s := if_neg hless
    have hmore : loadAll cs (feed s more) = loadTo (cs.size s.buf) (feed s more) := if_neg hless
    rw [Ensures, hsame, hmore]
    exact hload

theorem extends_chr : Extends feed .endOfInput (chr cs) := by
  refine Extends.bind (.look fun _ _ ↦ rfl) ?_
  intro val
  split_ifs
  · refine extends_load_all.bind ?_
    intro _
    refine Extends.bind (.alter fun _ _ ↦ rfl) ?_
    intro _
    exact .look fun _ _ ↦ rfl
  · exact .look fun _ _ ↦ rfl

/-- Behind the first bytes, all of them are loaded or the input is used up. -/
theorem load_all_cases (h : Loaded cs s) :
    (∃ front back, s.input = front ++ back ∧ cs.size s.buf ≤ s.buf.length + front.length ∧
      front.length = cs.size s.buf - s.buf.length ∧
      loadAll cs s = .ok () { s with input := back, buf := s.buf ++ front }) ∨
    loadAll cs s = .error .endOfInput { s with input := [], buf := s.buf ++ s.input } := by
  have hsame : loadAll cs s = loadTo (cs.size s.buf) s := if_neg (Nat.not_lt.mpr h)
  rw [hsame]
  rcases load_to_cases (cs.size s.buf) s with hfront | ⟨-, hload⟩
  · exact .inl hfront
  · exact .inr hload

/-- Loading changes no other member than the input and the cells. -/
theorem load_all_error {e : Stop} (h : loadAll cs s = .error e s') : s'.val = s.val := by
  by_cases hloaded : Loaded cs s
  · rcases load_all_cases hloaded with ⟨front, back, -, -, -, hload⟩ | hload
    · rw [hload] at h
      exact nomatch h
    · rw [hload] at h
      obtain ⟨-, rfl⟩ : Stop.endOfInput = e ∧ _ = s' := by simpa using h
      rfl
  · rw [show loadAll cs s = .error .unloaded s from if_pos (Nat.not_le.mp hloaded)] at h
    obtain ⟨-, rfl⟩ : Stop.unloaded = e ∧ s = s' := by simpa using h
    rfl

/-- A code that was read before is not read again. -/
theorem chr_kept (h : s.val ≠ 0) : chr cs s = .ok s.val s := by
  rw [chr, bind_look, if_neg h]
  rfl

/-- A code that is read is kept. -/
theorem chr_of_load (hval : s.val = 0) (h : loadAll cs s = .ok () s') :
    chr cs s = .ok (cs.value s'.buf) { s' with val := cs.value s'.buf } := by
  rw [chr, bind_look, if_pos hval, bind_ok h]
  rfl

/-- A code that is not read since the input is used up. -/
theorem chr_of_short (hval : s.val = 0) {e : Stop} (h : loadAll cs s = .error e s') :
    chr cs s = .error e s' := by
  rw [chr, bind_look, if_pos hval, bind_error h]

/-- Loading the bytes of a character goes on where it was interrupted. -/
theorem resumes_load_all (s : TextScanner) :
    Resumes feed .endOfInput (fun _ ↦ True) (loadAll cs) (loadAll cs) s := by
  intro s' hstop
  by_cases hloaded : Loaded cs s
  · have hsame : loadAll cs s = loadTo (cs.size s.buf) s := if_neg (Nat.not_lt.mpr hloaded)
    rcases load_all_cases hloaded with ⟨front, back, -, -, -, hload⟩ | hload
    · rw [hload] at hstop
      exact nomatch hstop
    · obtain rfl : { s with input := [], buf := s.buf ++ s.input } = s' := by
        rw [hload] at hstop
        simpa using hstop
      have hsize : cs.size (s.buf ++ s.input) = cs.size s.buf := cs.size_head _ _ hloaded
      refine ⟨trivial, fun more ↦ ?_⟩
      have hfirst : loadAll cs (feed s more) = loadTo (cs.size s.buf) (feed s more) :=
        if_neg (Nat.not_lt.mpr hloaded)
      have hsecond : loadAll cs (feed { s with input := [], buf := s.buf ++ s.input } more) =
          loadTo (cs.size (s.buf ++ s.input))
            (feed { s with input := [], buf := s.buf ++ s.input } more) := by
        refine if_neg ?_
        show ¬ (s.buf ++ s.input).length < cs.asize
        rw [List.length_append]
        exact Nat.not_lt.mpr (Nat.le_add_right_of_le hloaded)
      rw [hfirst, hsecond, hsize]
      exact (resumes_load_to _ s _ (hsame.symm.trans hload)).2 more
  · rw [show loadAll cs s = .error .unloaded s from if_pos (Nat.not_le.mp hloaded)] at hstop
    exact absurd hstop (by simp)

/-- Interrupted in a character, the reader decodes it when there is more input. -/
theorem resumes_chr (s : TextScanner) :
    Resumes feed .endOfInput (fun _ ↦ True) (chr cs) (chr cs) s := by
  intro s' hstop
  by_cases hval : s.val = 0
  · cases hload : loadAll cs s with
    | ok _ t =>
        rw [chr_of_load hval hload] at hstop
        exact nomatch hstop
    | error e t =>
        rw [chr_of_short hval hload] at hstop
        obtain ⟨rfl, rfl⟩ : e = .endOfInput ∧ t = s' := by simpa using hstop
        have hval' : t.val = 0 := load_all_error hload ▸ hval
        refine ⟨trivial, fun more ↦ ?_⟩
        have hsame := (resumes_load_all s t hload).2 more
        cases hresult : loadAll cs (feed t more) with
        | ok _ u =>
            exact (chr_of_load (s := feed s more) hval (hsame.trans hresult)).trans
              (chr_of_load (s := feed t more) hval' hresult).symm
        | error e u =>
            exact (chr_of_short (s := feed s more) hval (hsame.trans hresult)).trans
              (chr_of_short (s := feed t more) hval' hresult).symm
  · rw [chr_kept hval] at hstop
    exact nomatch hstop

/-- A loaded character is skipped. -/
theorem skip_loaded (h : Loaded cs s) : skip cs s = .ok () (fresh s.input) := by
  have hnone : cs.asize - s.buf.length = 0 := Nat.sub_eq_zero_of_le h
  rw [skip, hnone]
  rfl

/-- Skipping does the same with more input if it is not short of it. -/
theorem extends_skip : Extends feed .endOfInput (skip cs) := by
  intro s more
  by_cases hless : s.input.length < cs.asize - s.buf.length
  · exact .of_error (if_pos hless) fun hne ↦ absurd rfl hne
  · refine .of_ok (if_neg hless) ?_
    have hmore : ¬ (feed s more).input.length < cs.asize - s.buf.length := by
      rw [feed, List.length_append]
      omega
    refine (if_neg hmore).trans ?_
    rw [feed, List.drop_append_of_le_length (Nat.not_lt.mp hless)]
    rfl

/-! ## What is left to read -/

/-- A classified character is loaded, and nothing is lost. -/
theorem classify_keeps {α : Type} {view : Byte → α} {a : α} (h : classify cs view s = .ok a s') :
    Loaded cs s' ∧ left s' = left s ∧ s'.val = s.val := by
  rcases classify_cases view s with ⟨front, back, hinput, hloaded, -, hresult⟩ | ⟨-, -, hresult⟩
  · rw [hresult] at h
    obtain ⟨-, rfl⟩ : _ = a ∧ _ = s' := by simpa using h
    refine ⟨hloaded, ?_, rfl⟩
    simp only [left, hinput, List.length_append]
    omega
  · rw [hresult] at h
    exact nomatch h

/-- A classified character is classified as the same one again. -/
theorem classify_again {α β : Type} {view : Byte → α} (view' : Byte → β) {a : α}
    (h : classify cs view s = .ok a s') :
    a = view (cs.achar s'.buf) ∧ classify cs view' s' = .ok (view' (cs.achar s'.buf)) s' := by
  rcases classify_cases view s with ⟨front, back, -, hloaded, -, hresult⟩ | ⟨-, -, hresult⟩
  · rw [hresult] at h
    obtain ⟨rfl, rfl⟩ : _ = a ∧ _ = s' := by simpa using h
    exact ⟨rfl, classify_loaded view' hloaded⟩
  · rw [hresult] at h
    exact nomatch h

/-- A decoded character is loaded, and nothing is lost. -/
theorem chr_keeps {code : UChar} (hloaded : Loaded cs s) (h : chr cs s = .ok code s') :
    Loaded cs s' ∧ left s' = left s ∧ s'.val = code := by
  by_cases hval : s.val = 0
  · rcases load_all_cases hloaded with ⟨front, back, hinput, -, -, hload⟩ | hload
    · rw [chr_of_load hval hload] at h
      obtain ⟨rfl, rfl⟩ : _ = code ∧ _ = s' := by simpa using h
      refine ⟨?_, ?_, rfl⟩
      · rw [Loaded, List.length_append]
        exact Nat.le_add_right_of_le hloaded
      · simp only [left, hinput, List.length_append]
        omega
    · rw [chr_of_short hval hload] at h
      exact nomatch h
  · rw [chr_kept hval] at h
    obtain ⟨rfl, rfl⟩ : s.val = code ∧ s = s' := by simpa using h
    exact ⟨hloaded, rfl, rfl⟩

/-- A character that is classified is classified as it is again. -/
theorem classify_steady {α : Type} (view : Byte → α) (hloaded : Loaded cs s)
    (hcur : s.cur = cs.achar s.buf) : classify cs view s = .ok (view s.cur) s := by
  rw [classify_loaded view hloaded, ← hcur]

/-- Where decoding is interrupted, the class of the character is what it was. -/
theorem chr_short (hloaded : Loaded cs s) (h : chr cs s = .error .endOfInput s') :
    Loaded cs s' ∧ cs.achar s'.buf = cs.achar s.buf ∧ s'.cur = s.cur := by
  by_cases hval : s.val = 0
  · rcases load_all_cases hloaded with ⟨front, back, -, -, -, hload⟩ | hload
    · rw [chr_of_load hval hload] at h
      exact nomatch h
    · rw [chr_of_short hval hload] at h
      obtain rfl : { s with input := [], buf := s.buf ++ s.input } = s' := by simpa using h
      refine ⟨?_, cs.achar_head _ _ hloaded, rfl⟩
      rw [Loaded, List.length_append]
      exact Nat.le_add_right_of_le hloaded
  · rw [chr_kept hval] at h
    exact nomatch h

/-- A decoded character is decoded as it is again. -/
theorem chr_again {code : UChar} (hloaded : Loaded cs s) (h : chr cs s = .ok code s') :
    chr cs s' = .ok code s' := by
  by_cases hval : s.val = 0
  · rcases load_all_cases hloaded with ⟨front, back, -, hle, -, hload⟩ | hload
    · rw [chr_of_load hval hload] at h
      obtain ⟨rfl, rfl⟩ : _ = code ∧ _ = s' := by simpa using h
      let s' : TextScanner := ⟨back, s.buf ++ front, cs.value (s.buf ++ front), s.cur⟩
      by_cases hzero : s'.val = 0
      · have hagain : loadAll cs s' = .ok () s' → chr cs s' = .ok s'.val s' := chr_of_load hzero
        refine hagain ?_
        have hmore : ¬ (s.buf ++ front).length < cs.asize := by
          rw [List.length_append]
          exact Nat.not_lt.mpr (Nat.le_add_right_of_le hloaded)
        refine (if_neg hmore).trans (load_to_loaded ?_)
        show cs.size (s.buf ++ front) ≤ (s.buf ++ front).length
        rw [cs.size_head _ _ hloaded, List.length_append]
        exact hle
      · exact chr_kept hzero
    · rw [chr_of_short hval hload] at h
      exact nomatch h
  · rw [chr_kept hval] at h
    obtain ⟨rfl, rfl⟩ : s.val = code ∧ s = s' := by simpa using h
    exact chr_kept hval

/-- Skipping a character leaves less to read. -/
theorem skip_left (h : skip cs s = .ok () s') : left s' < left s := by
  have hpos := cs.asize_pos
  by_cases hless : s.input.length < cs.asize - s.buf.length
  · rw [show skip cs s = .error .endOfInput { s with input := [] } from if_pos hless] at h
    exact nomatch h
  · rw [show skip cs s = .ok () (fresh (s.input.drop (cs.asize - s.buf.length))) from
      if_neg hless] at h
    obtain rfl : fresh _ = s' := by simpa using h
    simp only [left, fresh, List.length_nil, List.length_drop]
    omega

/-- Decoding throws where the input ends, and nowhere else if the first bytes are loaded. -/
theorem chr_error {e : Stop} (h : chr cs s = .error e s') :
    e = .endOfInput ∨ (e = .unloaded ∧ ¬ Loaded cs s) := by
  by_cases hval : s.val = 0
  · by_cases hloaded : Loaded cs s
    · rcases load_all_cases hloaded with ⟨_, _, _, _, _, hload⟩ | hload
      · rw [chr_of_load hval hload] at h
        exact nomatch h
      · rw [chr_of_short hval hload] at h
        obtain ⟨rfl, -⟩ : Stop.endOfInput = e ∧ _ = s' := by simpa using h
        exact .inl rfl
    · rw [chr_of_short hval (if_pos (Nat.not_le.mp hloaded))] at h
      obtain ⟨rfl, -⟩ : Stop.unloaded = e ∧ s = s' := by simpa using h
      exact .inr ⟨rfl, hloaded⟩
  · rw [chr_kept hval] at h
    exact nomatch h

/-- Skipping throws where the input ends. -/
theorem skip_error {e : Stop} (h : skip cs s = .error e s') : e = .endOfInput := by
  by_cases hless : s.input.length < cs.asize - s.buf.length
  · rw [show skip cs s = .error .endOfInput { s with input := [] } from if_pos hless] at h
    obtain ⟨rfl, -⟩ : Stop.endOfInput = e ∧ _ = s' := by simpa using h
    rfl
  · rw [show skip cs s = .ok () (fresh (s.input.drop (cs.asize - s.buf.length))) from
      if_neg hless] at h
    exact nomatch h

/-! ## Characters that stand in the input -/

section Encoded

variable {code : UChar} {bytes : List Byte} (hchar : Encodes cs code bytes) (rest : List Byte)

/-- The class of a character. -/
def classOf (code : UChar) : ControlCharacter :=
  if code.toNat < 128 then controlCharMap code.toUInt8 else ControlCharacter.undef

theorem control_char_undef {ch : Byte} (h : 128 ≤ ch) :
    controlCharMap ch = ControlCharacter.undef := by
  have hall : ∀ k < 256, 128 ≤ k → controlCharMap (UInt8.ofNat k) = ControlCharacter.undef := by
    decide +kernel
  simpa using hall ch.toNat (UInt8.toNat_lt _) (UInt8.le_iff_toNat_le.mp h)

/-- The reader that has loaded the first bytes of a character. -/
def held (cs : CharSet) (bytes rest : List Byte) : TextScanner where
  input := bytes.drop cs.asize ++ rest
  buf := bytes.take cs.asize
  val := 0
  cur := cs.achar bytes

include hchar

/-- The first bytes of a character say which ASCII character it is. -/
theorem achar_take : cs.achar (bytes.take cs.asize) = cs.achar bytes := by
  have hlength : cs.asize ≤ (bytes.take cs.asize).length := by
    rw [List.length_take, Nat.min_eq_left hchar.head_le]
  conv => rhs; rw [← List.take_append_drop cs.asize bytes]
  exact (cs.achar_head _ _ hlength).symm

/-- Classifying a character of the input. -/
theorem classify_encoded {α : Type} (view : Byte → α) :
    classify cs view (fresh (bytes ++ rest)) =
      .ok (view (cs.achar bytes)) (held cs bytes rest) := by
  have hload : loadTo cs.asize (fresh (bytes ++ rest)) =
      .ok () ⟨bytes.drop cs.asize ++ rest, bytes.take cs.asize, 0, 0⟩ := by
    show loads cs.asize (fresh (bytes ++ rest)) = _
    rw [loads_ok (Nat.le_trans hchar.head_le (by simp [fresh]))]
    simp [fresh, List.take_append_of_le_length hchar.head_le,
      List.drop_append_of_le_length hchar.head_le]
  rw [classify_of_load view hload, achar_take hchar]
  rfl

/-- Classifying it again. -/
theorem classify_held {α : Type} (view : Byte → α) :
    classify cs view (held cs bytes rest) = .ok (view (cs.achar bytes)) (held cs bytes rest) := by
  have hloaded : Loaded cs (held cs bytes rest) := by
    rw [Loaded, held, List.length_take, Nat.min_eq_left hchar.head_le]
  rw [classify_loaded view hloaded]
  show EStateM.Result.ok (view (cs.achar (bytes.take cs.asize))) _ = _
  rw [achar_take hchar]
  simp only [held, achar_take hchar]

/-- The class of a character of the input. -/
theorem control_encoded :
    control cs (fresh (bytes ++ rest)) = .ok (classOf code) (held cs bytes rest) := by
  have hclass : controlCharMap (cs.achar bytes) = classOf code := by
    rw [classOf]
    split_ifs with hascii
    · rw [hchar.ascii hascii]
    · exact control_char_undef (hchar.other (Nat.not_lt.mp hascii))
  rw [control, classify_encoded hchar, hclass]

/-- The code of a character that is classified. -/
theorem chr_held : chr cs (held cs bytes rest) =
    .ok code ⟨rest, bytes, code, cs.achar bytes⟩ := by
  have hsize : cs.size (bytes.take cs.asize) = bytes.length := by
    have hlength : cs.asize ≤ (bytes.take cs.asize).length := by
      rw [List.length_take, Nat.min_eq_left hchar.head_le]
    rw [← cs.size_head _ (bytes.drop cs.asize) hlength, List.take_append_drop, hchar.size_eq]
  have hload : loadAll cs (held cs bytes rest) = .ok () ⟨rest, bytes, 0, cs.achar bytes⟩ := by
    have hnot : ¬ (bytes.take cs.asize).length < cs.asize := by
      rw [List.length_take, Nat.min_eq_left hchar.head_le]
      exact Nat.lt_irrefl _
    refine (if_neg hnot).trans ?_
    show loads (cs.size (bytes.take cs.asize) - (bytes.take cs.asize).length) _ = _
    have hlength : bytes.length - (bytes.take cs.asize).length =
        (bytes.drop cs.asize).length := by
      rw [List.length_take, List.length_drop, Nat.min_eq_left hchar.head_le]
    rw [hsize, hlength, loads_ok (by simp [held])]
    simp [held, List.take_append_drop]
  rw [chr_of_load rfl hload, hchar.value_eq]

/-- Skipping a character that is classified and decoded. -/
theorem skip_decoded : skip cs ⟨rest, bytes, code, cs.achar bytes⟩ = .ok () (fresh rest) :=
  skip_loaded hchar.head_le

/-- Skipping an ASCII character that is classified. -/
theorem skip_held (hascii : code.toNat < 128) :
    skip cs (held cs bytes rest) = .ok () (fresh rest) := by
  have hloaded : Loaded cs (held cs bytes rest) := by
    rw [Loaded, held, List.length_take, Nat.min_eq_left hchar.head_le]
  rw [skip_loaded hloaded, held, ← hchar.ascii_length hascii, List.drop_length, List.nil_append]

/-- An ASCII character of the input. -/
theorem ascii_encoded (hascii : code.toNat < 128) :
    ascii cs (fresh (bytes ++ rest)) = .ok code.toUInt8 (held cs bytes rest) := by
  have hbyte : asciiOf code.toUInt8 = code.toUInt8 := by
    have hall : ∀ k < 128, asciiOf (UInt8.ofNat k) = UInt8.ofNat k := by decide
    have hsmall : code.toUInt8.toNat = code.toNat := by
      rw [UInt32.toNat_toUInt8]
      exact Nat.mod_eq_of_lt (Nat.lt_trans hascii (by decide))
    simpa [hsmall] using hall code.toUInt8.toNat (hsmall ▸ hascii)
  rw [ascii, classify_encoded hchar, hchar.ascii hascii, hbyte]

end Encoded

end TextScanner

end Smerp.Textwolf
