import Smerp.Lib.Splits
import Smerp.Protocol.Chars

/-!
# The Lua echo processor

`next_operation` and `network_input` of `examples/lua/echo.lua`, driven by `luaHandler.cpp`: an
operation `WRITE` is followed by the next one, and an operation `READ` by one network input. The
script looks for the end of a line first, and tests its length only if there is none in the buffer
yet. `independent_iff` says for which streams the messages do not depend on how the stream is cut
into network inputs.
-/

namespace Smerp.Lua

open Lib

/-- The values of the global variable `state`. -/
inductive State where
  | init
  | new
  | helloSent
  | readInput
  | outputMsg
  | terminate
  | timeout
  | signalled
  | finished
  | illegal
  deriving DecidableEq, Repr

/-- The global variables of the script. -/
structure Echo where
  state : State
  buffer : List Byte
  deriving DecidableEq, Repr

/-- What `next_operation` returns. -/
inductive Operation where
  | write (message : List Byte)
  | read (timeout : Nat)
  | close
  deriving DecidableEq, Repr

/-- The length from which on a line without its end is too long. -/
def lineLimit : Nat := 8192

/-- `buf_size` of the handler: the most that is read at once. -/
def bufSize : Nat := 8192

/-- `string.sub( buffer, 1, 4 ) == "quit"` -/
def Quits (buffer : List Byte) : Prop := buffer.take 4 = text "quit"

instance : DecidablePred Quits := fun buffer ↦ inferInstanceAs (Decidable (buffer.take 4 = _))

/-- The greeting. -/
def welcome : List Byte := text "Welcome to SMERP.\n"
/-- The answer to `quit`. -/
def thanks : List Byte := text "Thanks for using SMERP.\n"
/-- The answer to a line without an end. -/
def tooLong : List Byte := text "Line too long. Bye.\n"

namespace Echo

/-- The script behind `init`. -/
def initial : Echo := ⟨.init, []⟩

/-- `new_connection` -/
def newConnection (e : Echo) : Echo := { e with state := .new }

/-- `network_input` -/
def networkInput (e : Echo) (data : List Byte) : Echo := { e with buffer := e.buffer ++ data }

/-- The branch of `next_operation` for `READ_INPUT` and `OUTPUT_MSG`. -/
def serve (e : Echo) : Operation × Echo :=
  if Quits e.buffer then (.write thanks, { e with state := .terminate })
  else match e.buffer.findIdx? (· = LF) with
    | some pos =>
        (.write (e.buffer.take (pos + 1)), ⟨.outputMsg, e.buffer.drop (pos + 1)⟩)
    | none =>
        if e.buffer.length > lineLimit then (.write tooLong, { e with state := .terminate })
        else (.read 30, { e with state := .readInput })

/-- `next_operation` -/
def nextOperation (e : Echo) : Operation × Echo :=
  match e.state with
  | .new => (.write welcome, { e with state := .helloSent })
  | .helloSent =>
      if e.buffer.length = 0 then (.read 30, { e with state := .readInput })
      else (.write (text "BUFFER NOT EMPTY!\n"), { e with state := .outputMsg })
  | .readInput | .outputMsg => e.serve
  | .terminate => (.close, { e with state := .finished })
  | .timeout => (.write (text "Timeout. :P\n"), { e with state := .terminate })
  | .signalled => (.write (text "Server is shutting down. :P\n"), { e with state := .terminate })
  | .finished => (.close, e)
  | .init | .illegal => (.close, { e with state := .illegal })

end Echo

/-- The messages that are written up to `CLOSE`, or up to a `READ` when all network inputs are used
up, for at most this many operations. -/
def talk : Nat → Echo → List (List Byte) → Option (List (List Byte))
  | 0, _, _ => none
  | fuel + 1, e, inputs =>
      match e.nextOperation with
      | (.write message, e') => (talk fuel e' inputs).map (message :: ·)
      | (.close, _) => some []
      | (.read _, e') =>
          match inputs with
          | [] => some []
          | data :: more => talk fuel (e'.networkInput data) more

/-- With these network inputs the messages are these. -/
def Talks (e : Echo) (inputs messages : List (List Byte)) : Prop :=
  ∃ fuel, talk fuel e inputs = some messages

/-- A connection at its start. -/
def start : Echo := Echo.initial.newConnection

/-- The network inputs are the stream, in pieces that fit into the buffer of the handler. -/
def Splitting (stream : List Byte) (inputs : List (List Byte)) : Prop :=
  inputs.flatten = stream ∧ ∀ data ∈ inputs, 1 ≤ data.length ∧ data.length ≤ bufSize

/-- The messages are the same for every two ways to split the stream. -/
def Independent (stream : List Byte) : Prop :=
  ∀ first second, Splitting stream first → Splitting stream second →
    ∃ messages, Talks start first messages ∧ Talks start second messages

/-- Of the complete lines up to the first one that begins with `quit` or has `16384` bytes or more,
all others have at most `8192` bytes. -/
def Fits (stream : List Byte) : Prop :=
  ∀ front line back, Lines.lines LF stream = front ++ line :: back →
    (∀ earlier ∈ front, ¬ Quits earlier ∧ earlier.length < lineLimit + bufSize) →
    Quits line ∨ line.length ≤ lineLimit ∨ lineLimit + bufSize ≤ line.length

/-! ## Operations one after the other -/

section Operations

variable {e e' : Echo} {inputs messages : List (List Byte)}

/-- A larger bound does not change the messages. -/
theorem talk_mono {fuel more : Nat} (h : talk fuel e inputs = some messages) (hle : fuel ≤ more) :
    talk more e inputs = some messages := by
  induction fuel generalizing e inputs messages more with
  | zero => exact absurd h.symm (Option.some_ne_none messages)
  | succ fuel ih =>
      obtain ⟨more, rfl⟩ : ∃ k, more = k + 1 := ⟨more - 1, by omega⟩
      have hless : fuel ≤ more := Nat.le_of_succ_le_succ hle
      rw [talk] at h ⊢
      generalize e.nextOperation = step at h ⊢
      obtain ⟨operation, next⟩ := step
      cases operation with
      | write message =>
          obtain ⟨rest, hrest, heq⟩ := Option.map_eq_some_iff.mp h
          exact Option.map_eq_some_iff.mpr ⟨rest, ih hrest hless, heq⟩
      | close => exact h
      | read timeout =>
          cases inputs with
          | nil => exact h
          | cons data rest => exact ih h hless

/-- The messages are determined by the network inputs. -/
theorem Talks.unique {other : List (List Byte)} (h : Talks e inputs messages)
    (h' : Talks e inputs other) : messages = other := by
  obtain ⟨fuel, hfuel⟩ := h
  obtain ⟨fuel', hfuel'⟩ := h'
  have hmore := talk_mono hfuel (Nat.le_max_left fuel fuel')
  rw [talk_mono hfuel' (Nat.le_max_right fuel fuel')] at hmore
  exact (Option.some.inj hmore).symm

/-- Behind a message the processor goes on. -/
theorem Talks.write {message : List Byte} (hnext : e.nextOperation = (.write message, e'))
    (h : Talks e' inputs messages) : Talks e inputs (message :: messages) := by
  obtain ⟨fuel, hfuel⟩ := h
  refine ⟨fuel + 1, ?_⟩
  simp only [talk, hnext, hfuel, Option.map_some]

/-- Behind the last message the connection is closed. -/
theorem talks_terminate (buffer : List Byte) (inputs : List (List Byte)) :
    Talks ⟨.terminate, buffer⟩ inputs [] := ⟨1, rfl⟩

/-- In `READ_INPUT` and `OUTPUT_MSG` the processor does the same. -/
theorem talks_output_msg {buffer : List Byte} (h : Talks ⟨.readInput, buffer⟩ inputs messages) :
    Talks ⟨.outputMsg, buffer⟩ inputs messages := by
  obtain ⟨fuel, hfuel⟩ := h
  refine ⟨fuel, ?_⟩
  cases fuel with
  | zero => exact hfuel
  | succ fuel => exact hfuel

/-- Behind the greeting the processor reads as in `READ_INPUT`. -/
theorem talks_start (h : Talks ⟨.readInput, []⟩ inputs messages) :
    Talks start inputs (welcome :: messages) := by
  obtain ⟨fuel, hfuel⟩ := h
  have hhello : Talks ⟨.helloSent, []⟩ inputs messages := by
    refine ⟨fuel, ?_⟩
    cases fuel with
    | zero => exact hfuel
    | succ fuel => exact hfuel
  exact hhello.write rfl

end Operations

/-! ## What is written for the buffer -/

/-- Which lines begin with `quit`. -/
theorem quits_iff (buffer : List Byte) : Quits buffer ↔ text "quit" <+: buffer := by
  rw [List.prefix_iff_eq_take, Quits]
  exact eq_comm

/-- What begins with `quit` also does so with more behind it. -/
theorem Quits.append {buffer : List Byte} (h : Quits buffer) (more : List Byte) :
    Quits (buffer ++ more) := by
  rw [quits_iff] at h ⊢
  exact h.trans (List.prefix_append buffer more)

/-- Where `quit` is not complete yet there are less than four bytes, and no line end. -/
theorem quits_later {buffer more : List Byte} (h : Quits (buffer ++ more)) (hnot : ¬ Quits buffer) :
    buffer.length < 4 ∧ LF ∉ buffer := by
  rw [quits_iff] at h hnot
  have hshort : buffer.length < 4 := by
    by_contra hlong
    have hle : (text "quit").length ≤ buffer.length := Nat.not_lt.mp hlong
    exact hnot (List.prefix_of_prefix_length_le h (List.prefix_append buffer more) hle)
  have hfront : buffer <+: text "quit" :=
    List.prefix_of_prefix_length_le (List.prefix_append buffer more) h (Nat.le_of_lt hshort)
  exact ⟨hshort, fun hmem ↦ absurd (hfront.subset hmem) (by decide)⟩

/-- Whether a line begins with `quit` does not depend on what stands behind it. -/
theorem quits_line {line : List Byte} (rest : List Byte) (h : Quits (line ++ LF :: rest)) :
    Quits line := by
  by_contra hnot
  rw [List.append_cons] at h
  have hnot' : ¬ Quits (line ++ [LF]) := by
    intro hquits
    obtain ⟨hshort, -⟩ := quits_later hquits hnot
    rw [quits_iff] at hquits
    have hle := hquits.length_le
    rw [List.length_append, List.length_singleton] at hle
    have hwhole : text "quit" = line ++ [LF] := hquits.eq_of_length_le (by
      rw [List.length_append, List.length_singleton]
      exact hshort)
    have hlast : LF ∈ text "quit" := by
      rw [hwhole]
      exact List.mem_append_right _ (List.mem_singleton.mpr rfl)
    exact absurd hlast (by decide)
  exact absurd (List.mem_append_right line (List.mem_singleton.mpr rfl)) (quits_later h hnot').2

/-- The first line end of a buffer. -/
theorem find_line_end {line : List Byte} (h : LF ∉ line) (rest : List Byte) :
    (line ++ LF :: rest).findIdx? (· = LF) = some line.length := by
  induction line with
  | nil => rfl
  | cons ch more ih =>
      obtain ⟨hch, hmore⟩ := not_or.mp (mt List.mem_cons.mpr h)
      rw [List.cons_append, List.findIdx?_cons, ih hmore]
      simp [Ne.symm hch]

/-- A buffer without a line end. -/
theorem find_none {buffer : List Byte} (h : LF ∉ buffer) : buffer.findIdx? (· = LF) = none := by
  rw [List.findIdx?_eq_none_iff]
  intro ch hch
  exact decide_eq_false fun heq ↦ h (heq ▸ hch)

/-- The processor serves the buffer with these messages. -/
def Serves (buffer : List Byte) (inputs messages : List (List Byte)) : Prop :=
  Talks ⟨.readInput, buffer⟩ inputs messages

section Buffer

variable {buffer : List Byte} {inputs messages : List (List Byte)}

/-- A buffer that begins with `quit`. -/
theorem serves_quit (h : Quits buffer) (inputs : List (List Byte)) :
    Serves buffer inputs [thanks] := by
  have hnext : Echo.nextOperation ⟨.readInput, buffer⟩ = (.write thanks, ⟨.terminate, buffer⟩) :=
    if_pos h
  exact (talks_terminate buffer inputs).write hnext

/-- A buffer with a complete line. -/
theorem serves_line {line rest : List Byte} (hquits : ¬ Quits line) (hline : LF ∉ line)
    (h : Serves rest inputs messages) :
    Serves (line ++ LF :: rest) inputs ((line ++ [LF]) :: messages) := by
  have hnext : Echo.nextOperation ⟨.readInput, line ++ LF :: rest⟩ =
      (.write (line ++ [LF]), ⟨.outputMsg, rest⟩) := by
    show Echo.serve ⟨.readInput, line ++ LF :: rest⟩ = _
    rw [Echo.serve, if_neg fun hwhole ↦ hquits (quits_line rest hwhole), find_line_end hline]
    simp only [Prod.mk.injEq, Operation.write.injEq, Echo.mk.injEq, true_and]
    rw [List.append_cons]
    have hlength : (line ++ [LF]).length = line.length + 1 := by simp
    rw [← hlength]
    exact ⟨List.take_left, List.drop_left⟩
  exact (talks_output_msg h).write hnext

/-- A buffer without a line end that is longer than a line may be. -/
theorem serves_long (hquits : ¬ Quits buffer) (hline : LF ∉ buffer)
    (hlong : lineLimit < buffer.length) (inputs : List (List Byte)) :
    Serves buffer inputs [tooLong] := by
  have hnext : Echo.nextOperation ⟨.readInput, buffer⟩ =
    (.write tooLong, ⟨.terminate, buffer⟩) := by
    show Echo.serve ⟨.readInput, buffer⟩ = _
    rw [Echo.serve, if_neg hquits, find_none hline]
    exact if_pos hlong
  exact (talks_terminate buffer inputs).write hnext

/-- A buffer without a line end that is short enough has the processor read. -/
theorem next_read (hquits : ¬ Quits buffer) (hline : LF ∉ buffer)
    (hshort : buffer.length ≤ lineLimit) :
    Echo.nextOperation ⟨.readInput, buffer⟩ = (.read 30, ⟨.readInput, buffer⟩) := by
  show Echo.serve ⟨.readInput, buffer⟩ = _
  rw [Echo.serve, if_neg hquits, find_none hline]
  exact if_neg (Nat.not_lt.mpr hshort)

/-- The processor waits. -/
theorem serves_wait (hquits : ¬ Quits buffer) (hline : LF ∉ buffer)
    (hshort : buffer.length ≤ lineLimit) : Serves buffer [] [] := by
  refine ⟨1, ?_⟩
  rw [talk, next_read hquits hline hshort]

/-- The processor reads more. -/
theorem serves_read (hquits : ¬ Quits buffer) (hline : LF ∉ buffer)
    (hshort : buffer.length ≤ lineLimit) {data : List Byte}
    (h : Serves (buffer ++ data) inputs messages) : Serves buffer (data :: inputs) messages := by
  obtain ⟨fuel, hfuel⟩ := h
  refine ⟨fuel + 1, ?_⟩
  rw [talk, next_read hquits hline hshort]
  exact hfuel

/-- If the processor does something where it reads, it does something for every buffer. -/
theorem serves_of_read (hread : ∀ buffer, ¬ Quits buffer → LF ∉ buffer →
      buffer.length ≤ lineLimit → ∃ messages, Serves buffer inputs messages) (buffer : List Byte) :
    ∃ messages, Serves buffer inputs messages := by
  induction hsize : buffer.length using Nat.strongRecOn generalizing buffer with
  | ind size ih =>
      by_cases hquits : Quits buffer
      · exact ⟨_, serves_quit hquits _⟩
      rcases Lines.first_line LF buffer with hnone | ⟨line, rest, rfl, hline⟩
      · by_cases hlong : lineLimit < buffer.length
        · exact ⟨_, serves_long hquits hnone hlong _⟩
        · exact hread buffer hquits hnone (Nat.not_lt.mp hlong)
      · have hless : rest.length < size := by
          rw [← hsize, List.length_append, List.length_cons]
          omega
        obtain ⟨messages, hrest⟩ := ih rest.length hless rest rfl
        exact ⟨_, serves_line (fun hin ↦ hquits (hin.append _)) hline hrest⟩

/-- Whatever arrives, the processor writes up to `CLOSE` or a `READ`. -/
theorem serves_total (buffer : List Byte) (inputs : List (List Byte)) :
    ∃ messages, Serves buffer inputs messages := by
  induction inputs generalizing buffer with
  | nil => exact serves_of_read (fun _ hquits hline hshort ↦
      ⟨_, serves_wait hquits hline hshort⟩) buffer
  | cons data inputs ih =>
      refine serves_of_read ?_ buffer
      intro buffer hquits hline hshort
      obtain ⟨messages, hmore⟩ := ih (buffer ++ data)
      exact ⟨messages, serves_read hquits hline hshort hmore⟩

end Buffer

/-! ## Streams that are served in one way -/

/-- The buffer behind a network input: less than a line without its end, and then the input. -/
def Filled (buffer : List Byte) : Prop :=
  ∃ old data, buffer = old ++ data ∧ LF ∉ old ∧ old.length ≤ lineLimit ∧ data.length ≤ bufSize

section Split

variable {buffer line rest : List Byte} {inputs messages : List (List Byte)}

/-- A small buffer is filled. -/
theorem filled_small (h : buffer.length ≤ bufSize) : Filled buffer :=
  ⟨[], buffer, rfl, List.not_mem_nil, Nat.zero_le _, h⟩

/-- A filled buffer is not larger than a line and an input. -/
theorem Filled.length_le (h : Filled buffer) : buffer.length ≤ lineLimit + bufSize := by
  obtain ⟨old, data, rfl, -, hold, hdata⟩ := h
  rw [List.length_append]
  omega

/-- What stands behind a line end came with the last input. -/
theorem Filled.behind (h : Filled (line ++ LF :: rest)) : Filled rest := by
  obtain ⟨old, data, heq, hold, -, hdata⟩ := h
  have hpasses : ∀ ch ∈ old, decide (ch ≠ LF) = true :=
    fun ch hch ↦ decide_eq_true fun hsame ↦ hold (hsame ▸ hch)
  obtain ⟨more, -, rfl⟩ := split_front heq.symm hpasses (decide_eq_false (by simp))
  refine filled_small ?_
  rw [List.length_append, List.length_cons] at hdata
  omega

/-- A buffer in front of the first line end of the stream holds a part of the line; another one
holds the whole line. -/
theorem split_line {back : List Byte} (hline : LF ∉ line)
    (h : buffer ++ back = line ++ LF :: rest) :
    (LF ∉ buffer ∧ ∃ more, line = buffer ++ more ∧ back = more ++ LF :: rest) ∨
      ∃ behind, buffer = line ++ LF :: behind ∧ rest = behind ++ back := by
  have hfails : decide (LF ≠ LF) = false := decide_eq_false (by simp)
  have hpasses : ∀ front : List Byte, LF ∉ front → ∀ ch ∈ front, decide (ch ≠ LF) = true :=
    fun front hfront ch hch ↦ decide_eq_true fun hsame ↦ hfront (hsame ▸ hch)
  rcases Lines.first_line LF buffer with hnone | ⟨front, behind, rfl, hfront⟩
  · exact .inl ⟨hnone, split_front h (hpasses buffer hnone) hfails⟩
  · rw [List.append_assoc, List.cons_append] at h
    obtain ⟨rfl, -, hrest⟩ := split_unique h
      (hpasses front hfront) hfails (hpasses line hline) hfails
    exact .inr ⟨behind, rfl, hrest.symm⟩

/-- A stream that begins with `quit`. -/
theorem serves_quit_stream (h : Quits (buffer ++ inputs.flatten)) :
    Serves buffer inputs [thanks] := by
  induction inputs generalizing buffer with
  | nil =>
      rw [List.flatten_nil, List.append_nil] at h
      exact serves_quit h []
  | cons data inputs ih =>
      by_cases hquits : Quits buffer
      · exact serves_quit hquits _
      · obtain ⟨hshort, hline⟩ := quits_later h hquits
        rw [List.flatten_cons, ← List.append_assoc] at h
        exact serves_read hquits hline (show buffer.length ≤ 8192 by omega) (ih h)

/-- A stream without a line end. -/
theorem serves_open_stream (hquits : ¬ Quits (buffer ++ inputs.flatten))
    (hline : LF ∉ buffer ++ inputs.flatten) :
    Serves buffer inputs
      (if lineLimit < (buffer ++ inputs.flatten).length then [tooLong] else []) := by
  induction inputs generalizing buffer with
  | nil =>
      rw [List.flatten_nil, List.append_nil] at hquits hline ⊢
      by_cases hlong : lineLimit < buffer.length
      · rw [if_pos hlong]
        exact serves_long hquits hline hlong []
      · rw [if_neg hlong]
        exact serves_wait hquits hline (Nat.not_lt.mp hlong)
  | cons data inputs ih =>
      have hbuffer : LF ∉ buffer := fun hmem ↦ hline (List.mem_append_left _ hmem)
      have hnot : ¬ Quits buffer := fun hin ↦ hquits (hin.append _)
      by_cases hlong : lineLimit < buffer.length
      · rw [if_pos (by rw [List.length_append]; omega)]
        exact serves_long hnot hbuffer hlong _
      · rw [List.flatten_cons, ← List.append_assoc] at hquits hline ⊢
        exact serves_read hnot hbuffer (Nat.not_lt.mp hlong) (ih hquits hline)

/-- A stream whose first line is short. -/
theorem serves_short_line (hquits : ¬ Quits line) (hline : LF ∉ line)
    (hshort : line.length ≤ lineLimit)
    (hrest : ∀ buffer inputs, buffer ++ inputs.flatten = rest → Filled buffer →
      (∀ data ∈ inputs, data.length ≤ bufSize) → Serves buffer inputs messages)
    (hstream : buffer ++ inputs.flatten = line ++ LF :: rest) (hfilled : Filled buffer)
    (hinputs : ∀ data ∈ inputs, data.length ≤ bufSize) :
    Serves buffer inputs ((line ++ [LF]) :: messages) := by
  induction inputs generalizing buffer with
  | nil =>
      rcases split_line hline hstream with ⟨-, more, -, hmore⟩ | ⟨behind, rfl, rfl⟩
      · exact absurd hmore.symm (List.append_ne_nil_of_right_ne_nil _ (List.cons_ne_nil _ _))
      · exact serves_line hquits hline (hrest behind [] rfl hfilled.behind hinputs)
  | cons data inputs ih =>
      rcases split_line hline hstream with ⟨hnone, more, hmore, -⟩ | ⟨behind, rfl, rfl⟩
      · have hlength : buffer.length ≤ lineLimit := by
          rw [hmore, List.length_append] at hshort
          omega
        have hnot : ¬ Quits buffer := fun hin ↦ hquits (hmore ▸ hin.append more)
        obtain ⟨hdata, hlater⟩ := List.forall_mem_cons.mp hinputs
        rw [List.flatten_cons, ← List.append_assoc] at hstream
        exact serves_read hnot hnone hlength
          (ih hstream ⟨buffer, data, rfl, hnone, hlength, hdata⟩ hlater)
      · exact serves_line hquits hline (hrest behind _ rfl hfilled.behind hinputs)

/-- A stream whose first line does not fit into a line and an input. -/
theorem serves_long_line (hquits : ¬ Quits line) (hline : LF ∉ line)
    (hlong : lineLimit + bufSize ≤ line.length)
    (hstream : buffer ++ inputs.flatten = line ++ LF :: rest) (hfilled : Filled buffer)
    (hinputs : ∀ data ∈ inputs, data.length ≤ bufSize) : Serves buffer inputs [tooLong] := by
  induction inputs generalizing buffer with
  | nil =>
      have hlength := hfilled.length_le
      rw [List.flatten_nil, List.append_nil] at hstream
      rw [hstream, List.length_append, List.length_cons] at hlength
      omega
  | cons data inputs ih =>
      rcases split_line hline hstream with ⟨hnone, more, hmore, -⟩ | ⟨behind, rfl, -⟩
      · have hnot : ¬ Quits buffer := fun hin ↦ hquits (hmore ▸ hin.append more)
        by_cases hover : lineLimit < buffer.length
        · exact serves_long hnot hnone hover _
        · rw [Nat.not_lt] at hover
          obtain ⟨hdata, hlater⟩ := List.forall_mem_cons.mp hinputs
          rw [List.flatten_cons, ← List.append_assoc] at hstream
          exact serves_read hnot hnone hover
            (ih hstream ⟨buffer, data, rfl, hnone, hover, hdata⟩ hlater)
      · have hlength := hfilled.length_le
        rw [List.length_append, List.length_cons] at hlength
        omega

/-- Which streams fit, by their first line. -/
theorem fits_line (hline : LF ∉ line) : Fits (line ++ LF :: rest) ↔
    (Quits line ∨ line.length ≤ lineLimit ∨ lineLimit + bufSize ≤ line.length) ∧
      (¬ Quits line → line.length < lineLimit + bufSize → Fits rest) := by
  have hlines := Lines.lines_append_cons hline rest
  constructor
  · intro h
    refine ⟨h [] line (Lines.lines LF rest) hlines nofun, ?_⟩
    intro hquits hlength front later back hback hfront
    refine h (line :: front) later back (by rw [hlines, hback]; rfl) ?_
    exact List.forall_mem_cons.mpr ⟨⟨hquits, hlength⟩, hfront⟩
  · rintro ⟨hfirst, hrest⟩ front later back hback hfront
    rw [hlines] at hback
    cases front with
    | nil =>
        obtain ⟨rfl, -⟩ := List.cons.inj hback
        exact hfirst
    | cons earlier front =>
        obtain ⟨rfl, hsame⟩ := List.cons.inj hback
        obtain ⟨⟨hquits, hlength⟩, hothers⟩ := List.forall_mem_cons.mp hfront
        exact hrest hquits hlength front later back hsame hothers

/-- A stream that fits is served with the same messages however it is split. -/
theorem serves_same (stream : List Byte) (h : Fits stream) :
    ∃ messages, ∀ buffer inputs, buffer ++ inputs.flatten = stream → Filled buffer →
      (∀ data ∈ inputs, data.length ≤ bufSize) → Serves buffer inputs messages := by
  induction hsize : stream.length using Nat.strongRecOn generalizing stream with
  | ind size ih =>
      by_cases hquits : Quits stream
      · exact ⟨[thanks], fun buffer inputs hstream _ _ ↦ serves_quit_stream (hstream ▸ hquits)⟩
      rcases Lines.first_line LF stream with hnone | ⟨line, rest, rfl, hline⟩
      · refine ⟨if lineLimit < stream.length then [tooLong] else [], ?_⟩
        intro buffer inputs hstream _ _
        subst hstream
        exact serves_open_stream hquits hnone
      have hnot : ¬ Quits line := fun hin ↦ hquits (hin.append _)
      obtain ⟨hfirst, hlater⟩ := (fits_line hline).mp h
      rcases hfirst.resolve_left hnot with hshort | hlong
      · have hless : rest.length < size := by
          rw [← hsize, List.length_append, List.length_cons]
          omega
        have hfits :=
          hlater hnot (show line.length < 16384 from Nat.lt_of_le_of_lt hshort (by decide))
        obtain ⟨messages, hrest⟩ := ih rest.length hless rest hfits rfl
        exact ⟨(line ++ [LF]) :: messages, fun buffer inputs hstream hfilled hinputs ↦
          serves_short_line hnot hline hshort hrest hstream hfilled hinputs⟩
      · exact ⟨[tooLong], fun buffer inputs hstream hfilled hinputs ↦
          serves_long_line hnot hline hlong hstream hfilled hinputs⟩

end Split

/-! ## Streams that are served in two ways -/

section Differ

variable {line rest : List Byte} {inputs messages : List (List Byte)}

/-- A stream byte by byte. -/
def singles (stream : List Byte) : List (List Byte) := stream.map fun ch ↦ [ch]

/-- The bytes of a stream are its shortest splitting. -/
theorem splitting_singles (stream : List Byte) : Splitting stream (singles stream) := by
  constructor
  · induction stream with
    | nil => rfl
    | cons ch more ih => exact congrArg (ch :: ·) ih
  · intro data hdata
    obtain ⟨ch, -, rfl⟩ := List.mem_map.mp hdata
    exact ⟨Nat.le_refl 1, show 1 ≤ 8192 by decide⟩

/-- One more network input in front. -/
theorem Splitting.cons {stream : List Byte} (h : Splitting stream inputs) (data : List Byte)
    (hsome : 1 ≤ data.length) (hfits : data.length ≤ bufSize) :
    Splitting (data ++ stream) (data :: inputs) :=
  ⟨by rw [List.flatten_cons, h.1], List.forall_mem_cons.mpr ⟨⟨hsome, hfits⟩, h.2⟩⟩

/-- A short line in one or two network inputs. -/
def pieces (line : List Byte) : List (List Byte) := if line = [] then [[LF]] else [line, [LF]]

/-- A short line in front of the stream. -/
theorem splitting_pieces (hshort : line.length ≤ lineLimit) (h : Splitting rest inputs) :
    Splitting (line ++ LF :: rest) (pieces line ++ inputs) := by
  have hend : Splitting (LF :: rest) ([LF] :: inputs) := h.cons [LF] (Nat.le_refl 1) (by decide)
  unfold pieces
  split
  · next hempty =>
      rw [hempty]
      exact hend
  · next hsome => exact hend.cons line (List.length_pos_iff.mpr hsome) hshort

/-- A short line that comes in its own network inputs is written, and nothing of it is left. -/
theorem serves_pieces (hquits : ¬ Quits line) (hline : LF ∉ line)
    (hshort : line.length ≤ lineLimit) (h : Serves [] inputs messages) :
    Serves [] (pieces line ++ inputs) ((line ++ [LF]) :: messages) := by
  have hempty : ¬ Quits [] := by decide
  have hwhole : Serves (line ++ [LF]) inputs ((line ++ [LF]) :: messages) :=
    serves_line hquits hline h
  unfold pieces
  split
  · next hnone =>
      subst hnone
      exact serves_read hempty List.not_mem_nil (Nat.zero_le _) hwhole
  · refine serves_read hempty List.not_mem_nil (Nat.zero_le _) ?_
    exact serves_read hquits hline hshort hwhole

/-- A front of the size of the limit of a line that is too long, and the byte behind it. -/
theorem split_limit (hover : lineLimit < line.length) :
    ∃ front ch more, line = front ++ ch :: more ∧ front.length = lineLimit := by
  cases hdrop : line.drop lineLimit with
  | nil =>
      have hlen : line.length ≤ lineLimit := List.drop_eq_nil_iff.mp hdrop
      exact absurd hover (Nat.not_lt.mpr hlen)
  | cons ch more =>
      refine ⟨line.take lineLimit, ch, more, ?_, ?_⟩
      · rw [← hdrop, List.take_append_drop]
      · rw [List.length_take]
        exact Nat.min_eq_left (Nat.le_of_lt hover)

section Between

variable {front more : List Byte} {ch : Byte}

/-- Behind an input of the size of the limit, one byte more makes the line too long. -/
theorem serves_refused (hquits : ¬ Quits (front ++ ch :: more)) (hline : LF ∉ front ++ ch :: more)
    (hfront : front.length = lineLimit) (rest : List Byte) :
    ∃ inputs, Splitting ((front ++ ch :: more) ++ LF :: rest) inputs ∧
      Serves [] inputs [tooLong] := by
  rw [List.append_cons] at hquits hline
  have hnot : ¬ Quits front := fun hin ↦ hquits ((hin.append _).append _)
  have hnone : LF ∉ front := fun hmem ↦
    hline (List.mem_append_left _ (List.mem_append_left _ hmem))
  have hnotone : ¬ Quits (front ++ [ch]) := fun hin ↦ hquits (hin.append _)
  have hone : LF ∉ front ++ [ch] := fun hmem ↦ hline (List.mem_append_left _ hmem)
  have hpositive : 1 ≤ front.length := by
    rw [hfront]
    decide
  refine ⟨front :: [ch] :: singles (more ++ LF :: rest), ?_, ?_⟩
  · have hbyte := (splitting_singles (more ++ LF :: rest)).cons [ch] (Nat.le_refl 1)
      (show 1 ≤ 8192 by decide)
    rw [List.append_assoc]
    exact hbyte.cons front hpositive (Nat.le_of_eq hfront)
  · refine serves_read (by decide) List.not_mem_nil (Nat.zero_le _) ?_
    refine serves_read hnot hnone (Nat.le_of_eq hfront) ?_
    refine serves_long hnotone hone ?_ _
    show lineLimit < (front ++ [ch]).length
    rw [List.length_append, hfront]
    exact Nat.lt_succ_self _

/-- Behind an input of the size of the limit, an input with the rest of the line and its end makes
it a line that is written. -/
theorem serves_written (hquits : ¬ Quits (front ++ ch :: more)) (hline : LF ∉ front ++ ch :: more)
    (hfront : front.length = lineLimit) (hmore : more.length + 2 ≤ bufSize) (rest : List Byte) :
    ∃ inputs messages, Splitting ((front ++ ch :: more) ++ LF :: rest) inputs ∧
      Serves [] inputs (((front ++ ch :: more) ++ [LF]) :: messages) := by
  have hnot : ¬ Quits front := fun hin ↦ hquits (hin.append _)
  have hnone : LF ∉ front := fun hmem ↦ hline (List.mem_append_left _ hmem)
  have hpositive : 1 ≤ front.length := by
    rw [hfront]
    decide
  have hsize : (ch :: more ++ [LF]).length = more.length + 2 := by
    rw [List.length_append, List.length_cons, List.length_singleton]
  obtain ⟨messages, hmessages⟩ := serves_total [] (singles rest)
  refine ⟨front :: (ch :: more ++ [LF]) :: singles rest, messages, ?_, ?_⟩
  · have hwhole := (splitting_singles rest).cons (ch :: more ++ [LF])
      (show 1 ≤ (more ++ [LF]).length + 1 from Nat.succ_le_succ (Nat.zero_le _))
      (hsize.trans_le hmore)
    have hstream : (front ++ ch :: more) ++ LF :: rest =
        front ++ ((ch :: more ++ [LF]) ++ rest) := by
      simp only [List.append_assoc, List.cons_append, List.nil_append]
    rw [hstream]
    exact hwhole.cons front hpositive (Nat.le_of_eq hfront)
  · refine serves_read (by decide) List.not_mem_nil (Nat.zero_le _) ?_
    refine serves_read hnot hnone (Nat.le_of_eq hfront) ?_
    have hbuffer : front ++ (ch :: more ++ [LF]) = (front ++ ch :: more) ++ LF :: [] := by
      rw [List.append_assoc]
    rw [hbuffer]
    exact serves_line hquits hline hmessages

end Between

/-- A line that is too long, but fits into a line and an input, is refused or written. -/
theorem serves_between (hquits : ¬ Quits line) (hline : LF ∉ line)
    (hover : lineLimit < line.length) (hunder : line.length < lineLimit + bufSize)
    (rest : List Byte) : ∃ first second messages other,
      Splitting (line ++ LF :: rest) first ∧ Splitting (line ++ LF :: rest) second ∧
        Serves [] first messages ∧ Serves [] second other ∧ messages ≠ other := by
  -- the first input is as long as a line may be; then comes one byte, or the rest of the line
  obtain ⟨front, ch, more, rfl, hfront⟩ := split_limit hover
  have hlength : (front ++ ch :: more).length = lineLimit + (more.length + 1) := by
    rw [List.length_append, List.length_cons, hfront]
  obtain ⟨first, hfirst, hrefused⟩ := serves_refused hquits hline hfront rest
  obtain ⟨second, messages, hsecond, hwritten⟩ :=
    serves_written hquits hline hfront (by omega) rest
  refine ⟨first, second, _, _, hfirst, hsecond, hrefused, hwritten, ?_⟩
  intro heq
  obtain ⟨hsame, -⟩ := List.cons.inj heq
  have hlengths := congrArg List.length hsame
  have hshort : tooLong.length = 20 := by decide
  rw [hshort, List.length_append, hlength] at hlengths
  have hlimit : lineLimit = 8192 := rfl
  omega

/-- A stream that does not fit is served in two ways. -/
theorem serves_differ (stream : List Byte) (h : ¬ Fits stream) :
    ∃ first second messages other, Splitting stream first ∧ Splitting stream second ∧
      Serves [] first messages ∧ Serves [] second other ∧ messages ≠ other := by
  induction hsize : stream.length using Nat.strongRecOn generalizing stream with
  | ind size ih =>
      rcases Lines.first_line LF stream with hnone | ⟨line, rest, rfl, hline⟩
      · refine absurd ?_ h
        intro front line back hback _
        rw [Lines.lines_of_not_mem hnone] at hback
        exact absurd hback.symm (List.append_ne_nil_of_right_ne_nil _ (List.cons_ne_nil _ _))
      rw [fits_line hline] at h
      by_cases hbetween : ¬ Quits line ∧ lineLimit < line.length ∧
          line.length < lineLimit + bufSize
      · exact serves_between hbetween.1 hline hbetween.2.1 hbetween.2.2 rest
      -- the first line is written in any case, and the rest does not fit
      have hfirst : Quits line ∨ line.length ≤ lineLimit ∨ lineLimit + bufSize ≤ line.length := by
        by_contra hnot
        rw [not_or, not_or, Nat.not_le, Nat.not_le] at hnot
        exact hbetween hnot
      have hrest : ¬ Quits line ∧ line.length < lineLimit + bufSize ∧ ¬ Fits rest := by
        by_contra hnot
        refine h ⟨hfirst, ?_⟩
        intro hquits hlength
        by_contra hfits
        exact hnot ⟨hquits, hlength, hfits⟩
      obtain ⟨hquits, hlength, hfits⟩ := hrest
      have hshort : line.length ≤ lineLimit := by
        by_contra hover
        exact hbetween ⟨hquits, Nat.not_le.mp hover, hlength⟩
      have hless : rest.length < size := by
        rw [← hsize, List.length_append, List.length_cons]
        omega
      obtain ⟨first, second, messages, other, hone, htwo, hserves, hserves', hne⟩ :=
        ih rest.length hless rest hfits rfl
      refine ⟨pieces line ++ first, pieces line ++ second, (line ++ [LF]) :: messages,
        (line ++ [LF]) :: other, splitting_pieces hshort hone, splitting_pieces hshort htwo,
        serves_pieces hquits hline hshort hserves, serves_pieces hquits hline hshort hserves', ?_⟩
      intro heq
      exact hne (List.cons.inj heq).2

end Differ

/-- **For which streams the messages do not depend on the network inputs.** Exactly for those of
which no complete line is too long and still fits into a line and an input, up to the first line
that begins with `quit` or does not fit. -/
theorem independent_iff (stream : List Byte) : Independent stream ↔ Fits stream := by
  constructor
  · intro h
    by_contra hnot
    obtain ⟨first, second, messages, other, hone, htwo, hserves, hserves', hne⟩ :=
      serves_differ stream hnot
    obtain ⟨common, hcommon, hcommon'⟩ := h first second hone htwo
    have hmessages := hcommon.unique (talks_start hserves)
    have hother := hcommon'.unique (talks_start hserves')
    rw [hmessages] at hother
    exact hne (List.cons.inj hother).2
  · intro hfits first second hone htwo
    obtain ⟨messages, hserves⟩ := serves_same stream hfits
    have hempty : Filled [] := filled_small (Nat.zero_le _)
    have hfirst := hserves [] first hone.1 hempty fun data hdata ↦ (hone.2 data hdata).2
    have hsecond := hserves [] second htwo.1 hempty fun data hdata ↦ (htwo.2 data hdata).2
    exact ⟨welcome :: messages, talks_start hfirst, talks_start hsecond⟩

/-- A line of 10000 bytes is written or refused. -/
theorem long_line_depends : ¬ ∀ stream, Independent stream := by
  intro h
  have hline : LF ∉ List.replicate 10000 DOT := by
    rw [List.mem_replicate]
    decide
  have hlength : (List.replicate 10000 DOT).length = 10000 := List.length_replicate
  have hquits : ¬ Quits (List.replicate 10000 DOT) := by
    rw [Quits, List.take_replicate]
    decide
  obtain ⟨first, second, messages, other, hone, htwo, hserves, hserves', hne⟩ :=
    serves_between hquits hline (by rw [hlength]; decide) (by rw [hlength]; decide) []
  obtain ⟨common, hcommon, hcommon'⟩ := h _ first second hone htwo
  have hmessages := hcommon.unique (talks_start hserves)
  have hother := hcommon'.unique (talks_start hserves')
  rw [hmessages] at hother
  exact hne (List.cons.inj hother).2

end Smerp.Lua
