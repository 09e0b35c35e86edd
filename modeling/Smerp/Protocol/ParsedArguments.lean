import Smerp.Protocol.ArgumentGrammar

/-!
# Argument parsing follows its grammar

`CArgBuffer` keeps the arguments of `Scanner` as zero-terminated strings in one content buffer and
the offsets where they start (`Represents`), as far as the content buffer has room for the strings
and an `unsigned int` for the offsets. Over a content buffer without bounds it hands out the
arguments of the grammar exactly if each of them starts where a 32-bit offset can point to
(`arguments_follow_grammar_iff`).
-/

namespace Smerp.Protocol

open Lib

/-! ## The steps of the argument buffer -/

namespace CArgBuffer

variable {β : Type} [ContentBuffer β]

/-- One step. -/
def apply (a : CArgBuffer β) : ArgStep → CArgBuffer β
  | .opens => a.openArg
  | .stores ch => a.put a.state ch
  | .closes => a.put a.state 0

/-- `push_back` takes the steps of the transition. -/
theorem push_back_eq_steps (a : CArgBuffer β) (ch : Byte) :
    a.pushBack ch = ((a.state.next ch).2.foldl apply a).goto (a.state.next ch).1 := by
  obtain ⟨buf, state, content⟩ := a
  cases state with
  | empty | endToken | content | sqContent | dqContent =>
      simp only [pushBack, ArgState.next]
      split_ifs <;> rfl
  | contentEsc | sqContentEsc | dqContentEsc => rfl

/-- A C string inside of the content. -/
theorem c_string_content (a : CArgBuffer β) {offset : Nat}
    (h : offset ≤ (ContentBuffer.content a.content).length) :
    a.cString offset = ((ContentBuffer.content a.content).drop offset).takeWhile (· ≠ 0) := by
  obtain ⟨behind, hbehind⟩ := ContentBuffer.c_str_eq a.content
  rw [cString, hbehind, List.drop_append_of_le_length h, take_while_stop _ _ (by decide)]

end CArgBuffer

/-! ## Offsets -/

/-- The zero-terminated strings of the arguments. -/
def terminated (args : List (List Byte)) : List Byte := args.flatMap (· ++ [0])

/-- The offsets where the zero-terminated strings of the arguments start. -/
def starts : Nat → List (List Byte) → List Nat
  | _, [] => []
  | offset, arg :: rest => offset :: starts (offset + arg.length + 1) rest

@[simp] theorem terminated_nil : terminated [] = [] := rfl

@[simp] theorem terminated_cons (arg : List Byte) (rest : List (List Byte)) :
    terminated (arg :: rest) = arg ++ 0 :: terminated rest := by
  simp [terminated]

theorem terminated_append (args more : List (List Byte)) :
    terminated (args ++ more) = terminated args ++ terminated more :=
  List.flatMap_append

/-- As many offsets as arguments. -/
theorem starts_length (offset : Nat) (args : List (List Byte)) :
    (starts offset args).length = args.length := by
  induction args generalizing offset with
  | nil => rfl
  | cons arg rest ih => rw [starts, List.length_cons, ih, List.length_cons]

/-- The last argument starts behind the strings of those in front of it. -/
theorem starts_append (offset : Nat) (args : List (List Byte)) (arg : List Byte) :
    starts offset (args ++ [arg]) = starts offset args ++ [offset + (terminated args).length] := by
  induction args generalizing offset with
  | nil => rfl
  | cons head rest ih =>
      have hlen : (terminated (head :: rest)).length =
          head.length + 1 + (terminated rest).length := by
        rw [terminated_cons, List.length_append, List.length_cons]
        omega
      rw [List.cons_append, starts, ih, hlen, starts, List.cons_append, Nat.add_assoc offset,
        Nat.add_assoc offset]

/-- What a C string shows of characters: those in front of the first zero. -/
def cText (chars : List Byte) : List Byte := chars.takeWhile (· ≠ 0)

/-- Without a zero the C string shows them all. -/
theorem c_text_of_nonzero {chars : List Byte} (h : (0 : Byte) ∉ chars) : cText chars = chars :=
  List.takeWhile_eq_self_iff.mpr fun _ hch ↦ decide_eq_true fun hzero ↦ h (hzero ▸ hch)

/-- The string at the offset of an argument shows the argument. -/
theorem read_start_text (args : List (List Byte)) (front : List Byte) (i : Nat) :
    (starts front.length args)[i]?.map (fun start ↦
      cText ((front ++ terminated args).drop start)) = args[i]?.map cText := by
  induction args generalizing front i with
  | nil => rfl
  | cons arg rest ih =>
      cases i with
      | zero =>
          have htext : (front ++ terminated (arg :: rest)).drop front.length =
              arg ++ 0 :: terminated rest := by
            rw [List.drop_left, terminated_cons]
          rw [starts, List.getElem?_cons_zero, Option.map_some, htext, List.getElem?_cons_zero,
            Option.map_some, cText, take_while_stop _ _ (by decide), cText]
      | succ i =>
          have hrest := ih (front ++ arg ++ [0]) i
          have hlen : (front ++ arg ++ [0]).length = front.length + arg.length + 1 := by
            simp [Nat.add_assoc]
          have htext : front ++ arg ++ [0] ++ terminated rest =
              front ++ terminated (arg :: rest) := by
            simp
          rw [hlen, htext] at hrest
          rw [starts, List.getElem?_cons_succ, hrest, List.getElem?_cons_succ]

/-- Where the string of an argument starts and ends. -/
theorem starts_bounds {offset : Nat} {args : List (List Byte)} {i start : Nat} {arg : List Byte}
    (hstart : (starts offset args)[i]? = some start) (harg : args[i]? = some arg) :
    offset ≤ start ∧ start + arg.length < offset + (terminated args).length := by
  induction args generalizing offset i with
  | nil => cases harg
  | cons head rest ih =>
      have hlen : (terminated (head :: rest)).length =
          head.length + 1 + (terminated rest).length := by
        rw [terminated_cons, List.length_append, List.length_cons]
        omega
      cases i with
      | zero =>
          obtain rfl : offset = start := Option.some.inj hstart
          obtain rfl : head = arg := Option.some.inj harg
          omega
      | succ i =>
          have hrest := ih hstart harg
          omega

/-- An argument starts somewhere. -/
theorem start_of_lt {args : List (List Byte)} {i : Nat} (h : i < args.length) :
    ∃ start, (starts 0 args)[i]? = some start :=
  ⟨_, List.getElem?_eq_getElem (by rwa [starts_length])⟩

/-- What starts somewhere is an argument. -/
theorem arg_of_start {args : List (List Byte)} {i start : Nat}
    (hstart : (starts 0 args)[i]? = some start) : ∃ arg, args[i]? = some arg := by
  have hlen := (List.getElem?_eq_some_iff.mp hstart).1
  rw [starts_length] at hlen
  exact ⟨_, List.getElem?_eq_getElem hlen⟩

/-! ## The argument buffer represents the scanner -/

/-- The characters that the scanner has put into the content buffer. -/
def Scanner.stored (s : Scanner) : List Byte := terminated s.closed ++ s.current.getD []

/-- The stored characters are the strings of the arguments, the last of which may not be terminated
yet. -/
theorem Scanner.terminated_args (s : Scanner) :
    terminated s.args = s.stored ∨ terminated s.args = s.stored ++ [0] := by
  rw [Scanner.args, Scanner.stored, terminated_append]
  cases s.current with
  | none => exact .inl rfl
  | some current => exact .inr (by simp)

/-- The arguments start inside of the stored characters. -/
theorem Scanner.start_le {s : Scanner} {i start : Nat}
    (hstart : (starts 0 s.args)[i]? = some start) :
    start ≤ s.stored.length := by
  obtain ⟨arg, harg⟩ := arg_of_start hstart
  have hend := (starts_bounds hstart harg).2
  rcases s.terminated_args with heq | heq
  · rw [heq] at hend
    omega
  · rw [heq, List.length_append, List.length_singleton] at hend
    omega

/-- A C string in the stored characters does not depend on the last zero. -/
theorem Scanner.stored_text {s : Scanner} {offset : Nat} (h : offset ≤ s.stored.length) :
    cText (s.stored.drop offset) = cText ((terminated s.args).drop offset) := by
  rcases s.terminated_args with heq | heq
  · rw [heq]
  · rw [heq, List.drop_append_of_le_length h, cText, cText, take_while_stop _ _ (by decide)]

/-- What a type of content buffers keeps of the characters pushed into it, and the offset of an
argument whose string starts behind so many characters. -/
structure Storage (β : Type) [ContentBuffer β] where
  keep : List Byte → List Byte
  offset : Nat → Nat
  keep_push (content : β) (chars : List Byte) (ch : Byte) :
    ContentBuffer.content content = keep chars →
      ContentBuffer.content (ContentBuffer.pushBack content ch) = keep (chars ++ [ch])
  offset_eq (chars : List Byte) : (keep chars).length % 2 ^ 32 = offset chars.length
  offset_le (chars : List Byte) (start : Nat) :
    start ≤ chars.length → offset start ≤ (keep chars).length

/-- A string keeps them all, but an offset is an `unsigned int`. -/
def StdString.storage : Storage StdString where
  keep chars := chars
  offset start := start % 2 ^ 32
  keep_push _ _ ch h := congrArg (· ++ [ch]) h
  offset_eq _ := rfl
  offset_le _ _ h := (Nat.mod_le _ _).trans h

variable {β : Type} [ContentBuffer β] {storage : Storage β}

/-- The content buffer holds the strings of the arguments, and the offsets are those where they
start. -/
structure Represents (storage : Storage β) (a : CArgBuffer β) (s : Scanner) : Prop where
  content : ContentBuffer.content a.content = storage.keep s.stored
  buf : a.buf = ((starts 0 s.args).take maxNofArguments).map storage.offset

namespace Represents

variable {a : CArgBuffer β} {s : Scanner}

/-- An argument is opened. -/
theorem opens (h : Represents storage a s) (hnone : s.current = none) :
    Represents storage a.openArg (s.apply .opens) := by
  have hargs : s.args = s.closed := by simp [Scanner.args, hnone]
  have hstored : s.stored = terminated s.closed := by
    rw [Scanner.stored, hnone, Option.getD_none, List.append_nil]
  have hsame : (s.apply .opens).stored = s.stored := by
    rw [hstored]
    exact List.append_nil _
  have hsize : ContentBuffer.size a.content % 2 ^ 32 =
      storage.offset (terminated s.closed).length := by
    rw [ContentBuffer.size_eq, h.content, storage.offset_eq, hstored]
  have hbuf : a.buf = ((starts 0 s.closed).take maxNofArguments).map storage.offset := by
    rw [h.buf, hargs]
  have hlen : a.buf.length = min maxNofArguments (starts 0 s.closed).length := by
    rw [hbuf, List.length_map, List.length_take]
  have hopened : (s.apply .opens).args = s.closed ++ [[]] := rfl
  rw [CArgBuffer.openArg]
  by_cases hroom : a.buf.length < maxNofArguments
  · have hall : (starts 0 s.closed).length < maxNofArguments := by omega
    rw [if_pos hroom]
    refine ⟨h.content.trans (congrArg storage.keep hsame.symm), ?_⟩
    show a.buf ++ [_] = _
    rw [hopened, starts_append, Nat.zero_add, List.take_of_length_le (by simp; omega),
      List.map_append, hsize, hbuf, List.take_of_length_le hall.le]
    rfl
  · rw [if_neg hroom]
    refine ⟨h.content.trans (congrArg storage.keep hsame.symm), ?_⟩
    rw [hopened, starts_append, List.take_append_of_le_length (by omega), hbuf]

/-- A character is stored in the open argument. -/
theorem stores {current : List Byte} (h : Represents storage a s) (hsome : s.current = some current)
    (state : ArgState) (ch : Byte) :
    Represents storage (a.put state ch) (s.apply (.stores ch)) := by
  have hstored : (s.apply (.stores ch)).stored = s.stored ++ [ch] := by
    simp [Scanner.stored, Scanner.apply, hsome]
  refine ⟨?_, ?_⟩
  · rw [hstored]
    exact storage.keep_push _ _ ch h.content
  · have hbuf := h.buf
    simp only [Scanner.args, hsome, Option.toList_some, starts_append] at hbuf
    simp only [Scanner.args, Scanner.apply, hsome, Option.map_some, Option.toList_some,
      starts_append]
    exact hbuf

/-- The open argument is closed. -/
theorem closes {current : List Byte} (h : Represents storage a s) (hsome : s.current = some current)
    (state : ArgState) : Represents storage (a.put state 0) (s.apply .closes) := by
  have hstored : (s.apply .closes).stored = s.stored ++ [0] := by
    simp [Scanner.stored, Scanner.apply, hsome, terminated_append]
  have hargs : (s.apply .closes).args = s.args := by
    simp [Scanner.args, Scanner.apply]
  refine ⟨?_, ?_⟩
  · rw [hstored]
    exact storage.keep_push _ _ 0 h.content
  · rw [hargs]
    exact h.buf

/-- The state is beside the point. -/
theorem goto (h : Represents storage a s) (state after : ArgState) :
    Represents storage (a.goto state) { s with state := after } :=
  ⟨h.content, h.buf⟩

/-- The number of arguments is bounded. -/
theorem size_eq (h : Represents storage a s) : a.size = min maxNofArguments s.args.length := by
  rw [CArgBuffer.size, h.buf, List.length_map, List.length_take, starts_length]

/-- An offset is that of an argument. -/
theorem buf_get (h : Represents storage a s) (i : Nat) : a.buf[i]? =
    if i < maxNofArguments then (starts 0 s.args)[i]?.map storage.offset else none := by
  rw [h.buf, List.getElem?_map, List.getElem?_take]
  split_ifs <;> rfl

/-- The arguments that have an entry are read out of the content buffer as C strings. -/
theorem get_text (h : Represents storage a s) {i start : Nat} (hi : i < maxNofArguments)
    (hstart : (starts 0 s.args)[i]? = some start) :
    a.get i = some (cText ((storage.keep s.stored).drop (storage.offset start))) := by
  have hinside := storage.offset_le s.stored start (Scanner.start_le hstart)
  rw [← h.content] at hinside ⊢
  rw [CArgBuffer.get, h.buf_get, if_pos hi, hstart, Option.map_some, Option.map_some,
    a.c_string_content hinside, cText]

/-- Behind the arguments that have an entry there is the null pointer. -/
theorem get_none (h : Represents storage a s) {i : Nat}
    (hi : maxNofArguments ≤ i ∨ s.args.length ≤ i) : a.get i = none := by
  rw [CArgBuffer.get, h.buf, List.getElem?_eq_none, Option.map_none]
  rw [List.length_map, List.length_take, starts_length]
  omega

end Represents

/-- The argument buffer is where the scanner is, and between two arguments none is open. -/
structure Follows (storage : Storage β) (a : CArgBuffer β) (s : Scanner) : Prop where
  represents : Represents storage a s
  state : a.state = s.state
  settled : s.state = .empty ↔ s.current = none

/-- A character keeps the buffer with the scanner. -/
theorem Follows.push_back {a : CArgBuffer β} {s : Scanner} (h : Follows storage a s) (ch : Byte) :
    Follows storage (a.pushBack ch) (s.pushBack ch) := by
  have hmoves := s.state.next_moves ch
  rw [CArgBuffer.push_back_eq_steps, Scanner.pushBack, h.state]
  generalize s.state.next ch = move at hmoves ⊢
  cases hmoves with
  | blank hstate => exact ⟨h.represents.goto _ _, rfl, by simpa using h.settled.mp hstate⟩
  | start after steps hstate hafter hsteps =>
      have hopens := h.represents.opens (h.settled.mp hstate)
      rcases hsteps with rfl | rfl
      · exact ⟨hopens.goto _ _, rfl, by simp [Scanner.apply, hafter]⟩
      · exact ⟨(hopens.stores rfl _ ch).goto _ _, rfl, by simp [Scanner.apply, hafter]⟩
  | inside after steps hstate hafter hsteps =>
      obtain ⟨current, hsome⟩ := Option.ne_none_iff_exists'.mp (mt h.settled.mpr hstate)
      rcases hsteps with rfl | rfl
      · exact ⟨h.represents.goto _ _, rfl, by simp [hafter, hsome]⟩
      · exact ⟨(h.represents.stores hsome _ ch).goto _ _, rfl,
          by simp [Scanner.apply, hafter, hsome]⟩
  | stop hstate =>
      obtain ⟨current, hsome⟩ := Option.ne_none_iff_exists'.mp (mt h.settled.mpr hstate)
      exact ⟨(h.represents.closes hsome _).goto _ _, rfl, by simp [Scanner.apply]⟩

/-- Characters keep the buffer with the scanner. -/
theorem Follows.feed {a : CArgBuffer β} {s : Scanner} (h : Follows storage a s)
    (chars : List Byte) : Follows storage (a.feed chars) (s.feed chars) := by
  induction chars generalizing a s with
  | nil => exact h
  | cons ch rest ih => exact ih (h.push_back ch)

/-- A new buffer represents a new scanner. -/
theorem follows_new {content : β} (h : ContentBuffer.content content = storage.keep []) :
    Follows storage (.new content) Scanner.new := ⟨⟨h, rfl⟩, rfl, by decide⟩

/-- A new buffer over a string. -/
theorem follows_string : Follows StdString.storage (.new ⟨[]⟩) Scanner.new := follows_new rfl

/-! ## The arguments of the grammar -/

/-- The argument can be read: it starts where a 32-bit offset can point to, or what stands at the
truncated offset is the same text by chance. -/
def InReach (args : List (List Byte)) (i : Nat) : Prop :=
  ∀ start, (starts 0 args)[i]? = some start → 2 ^ 32 ≤ start →
    some (cText ((terminated args).drop (start % 2 ^ 32))) = args[i]?.map cText

namespace Represents

variable {a : CArgBuffer StdString} {s : Scanner} {i : Nat}

/-- Over a string an argument is read at its truncated offset. -/
theorem get_truncated (h : Represents StdString.storage a s) (hi : i < maxNofArguments)
    {start : Nat}
    (hstart : (starts 0 s.args)[i]? = some start) :
    a.get i = some (cText ((terminated s.args).drop (start % 2 ^ 32))) := by
  have hinside := StdString.storage.offset_le s.stored start (Scanner.start_le hstart)
  rw [h.get_text hi hstart]
  exact congrArg some (Scanner.stored_text hinside)

/-- Over a string an argument is read exactly if it is in reach. -/
theorem get_iff (h : Represents StdString.storage a s) (hi : i < maxNofArguments)
    (hargs : i < s.args.length) : a.get i = s.args[i]?.map cText ↔ InReach s.args i := by
  obtain ⟨start, hstart⟩ := start_of_lt hargs
  have hread := read_start_text s.args [] i
  rw [List.length_nil, hstart, Option.map_some, List.nil_append] at hread
  rw [h.get_truncated hi hstart]
  constructor
  · intro hsame other hother _
    obtain rfl : start = other := Option.some.inj (hstart.symm.trans hother)
    exact hsame
  · intro hreach
    by_cases hlow : start < 2 ^ 32
    · rw [Nat.mod_eq_of_lt hlow]
      exact hread
    · exact hreach start hstart (Nat.le_of_not_lt hlow)

end Represents

/-- The buffer hands out the arguments. -/
def HandsOut (a : CArgBuffer StdString) (args : List (List Byte)) : Prop :=
  a.size = args.length ∧ ∀ i, a.get i = args[i]?

/-- **Argument parsing follows its grammar** as far as 32-bit offsets reach. A line has exactly one
list of arguments, and when there is room for them the buffer hands out these exactly if each of
them is in reach. -/
theorem arguments_follow_grammar_iff (line : List Byte) (hline : ∀ ch ∈ line, ch ≠ 0) :
    ∃ args, (∀ other, Line line other ↔ other = args) ∧
      (args.length ≤ maxNofArguments →
        (HandsOut ((CArgBuffer.new (⟨[]⟩ : StdString)).feed line) args ↔
          ∀ i < args.length, InReach args i)) := by
  refine ⟨(Scanner.new.feed line).args, fun other ↦ line_iff line other, ?_⟩
  intro hroom
  have hrep := (follows_string.feed line).represents
  have htext (i : Nat) : (Scanner.new.feed line).args[i]?.map cText =
      (Scanner.new.feed line).args[i]? := by
    cases harg : (Scanner.new.feed line).args[i]? with
    | none => rfl
    | some arg =>
        have hmem := List.mem_of_getElem? harg
        have hnonzero : (0 : Byte) ∉ arg := fun hzero ↦
          hline 0 (((line_iff line _).mpr rfl).subset arg hmem hzero) rfl
        rw [Option.map_some, c_text_of_nonzero hnonzero]
  constructor
  · rintro ⟨-, hget⟩ i hi
    exact (hrep.get_iff (by omega) hi).mp ((hget i).trans (htext i).symm)
  · intro hreach
    refine ⟨by rw [hrep.size_eq, Nat.min_eq_right hroom], ?_⟩
    intro i
    by_cases hi : i < (Scanner.new.feed line).args.length
    · rw [(hrep.get_iff (by omega) hi).mpr (hreach i hi), htext]
    · rw [hrep.get_none (.inr (by omega)), List.getElem?_eq_none (by omega)]

/-- A line with quotes, escapes and an argument that is still open. -/
theorem arguments_follow_grammar_quoted :
    ∃ args, (∀ other, Line (text "ab 'c \"d'\\ e  '' \"f g") other ↔ other = args) ∧
      (args.length ≤ maxNofArguments →
        (HandsOut ((CArgBuffer.new (⟨[]⟩ : StdString)).feed
            (text "ab 'c \"d'\\ e  '' \"f g")) args ↔
          ∀ i < args.length, InReach args i)) :=
  arguments_follow_grammar_iff (text "ab 'c \"d'\\ e  '' \"f g") (by decide +kernel)

example : ((CArgBuffer.new (⟨[]⟩ : StdString)).feed (text "ab 'c \"d'\\ e  '' \"f g")).argv =
    [text "ab", text "c \"d e", [], text "f g"] := by decide

/-- The arguments of a line with a long word and a second one of one character. -/
theorem long_word_args (len : Nat) :
    (Scanner.new.feed (List.replicate (len + 1) 97 ++ text " b")).args =
      [List.replicate (len + 1) 97, text "b"] := by
  have hword : Scanner.new.feed (List.replicate (len + 1) 97) =
      ⟨.content, [], some (List.replicate (len + 1) 97)⟩ := by
    induction len with
    | zero => rfl
    | succ len ih =>
        rw [List.replicate_succ', Scanner.feed_append, ih]
        rfl
  rw [Scanner.feed_append, hword]
  rfl

/-- **An argument out of reach is not handed out**: behind a word of `2 ^ 32 - 1` characters the
offset of the second argument is truncated to that of the first one. -/
theorem not_arguments_follow_grammar : ¬ ∀ line : List Byte, (∀ ch ∈ line, ch ≠ 0) →
    ∃ args, (∀ other, Line line other ↔ other = args) ∧
      (args.length ≤ maxNofArguments →
        HandsOut ((CArgBuffer.new (⟨[]⟩ : StdString)).feed line) args) := by
  intro h
  obtain ⟨len, hlen⟩ : ∃ len, len + 2 = 2 ^ 32 := ⟨2 ^ 32 - 2, rfl⟩
  have hnonzero : ∀ ch ∈ List.replicate (len + 1) 97 ++ text " b", ch ≠ 0 := by
    intro ch hch
    rcases List.mem_append.mp hch with hword | hrest
    · rw [List.eq_of_mem_replicate hword]
      decide
    · exact (show ∀ ch ∈ text " b", ch ≠ 0 by decide +kernel) ch hrest
  obtain ⟨args, hunique, hout⟩ := h _ hnonzero
  obtain rfl : _ = args := (hunique _).mp ((line_iff _ _).mpr rfl)
  rw [long_word_args] at hout
  have htwo : [List.replicate (len + 1) 97, text "b"].length = 2 := rfl
  have hrep := (follows_string.feed (List.replicate (len + 1) 97 ++ text " b")).represents
  have hiff := hrep.get_iff (i := 1) (by decide) (by rw [long_word_args, htwo]; decide)
  rw [long_word_args] at hiff
  have hstart : (starts 0 [List.replicate (len + 1) 97, text "b"])[1]? = some (2 ^ 32) := by
    rw [← hlen, starts, List.getElem?_cons_succ, List.length_replicate, Nat.zero_add]
    rfl
  have hshown := hiff.mp ((hout (by rw [htwo]; decide)).2 1) _ hstart le_rfl
  -- at the truncated offset there is the first word
  rw [Nat.mod_self, List.drop_zero, List.replicate_succ, terminated_cons, List.cons_append, cText,
    List.takeWhile_cons_of_pos (by decide)] at hshown
  have hhead : (97 : Byte) = 98 := (List.cons.inj (Option.some.inj hshown)).1
  exact absurd hhead (by decide)

end Smerp.Protocol
