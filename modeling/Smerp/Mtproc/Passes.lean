import Smerp.Mtproc.Boundaries
import Smerp.Mtproc.Handler

/-!
# What one pass of `mtproc` does

`getCommand` returns `method` when the arguments are complete, and leaves the dispatcher in the
state `Selected`: no statement of the source sets the state `ArgumentsParsed`, and `call` throws in
`Selected`. `MethodLine` describes the bytes that lead there within one call of `nextOperation`, and
`pass_spec` says what a pass does about them.
-/

namespace Smerp.Mtproc

open Lib Protocol Network

variable {δ γ : Type}

/-- In this state of the handler, with a method selected or not, these bytes complete the line of a
method. -/
inductive MethodLine (parser : CmdParser) : State → Bool → List Byte → Prop
  | arguments (rest : List Byte) (hend : ∃ ch ∈ rest, isLineEnd ch = true) :
      MethodLine parser .enterCommand true rest
  | command (rest : List Byte)
      (hindex : 3 ≤ parser.lookup (CmdBuffer.new.pushAll (rest.takeWhile isTokenChar)).value)
      (hend : ∃ ch ∈ rest, isLineEnd ch = true) : MethodLine parser .enterCommand false rest
  | empty (rest : List Byte)
      (hindex : parser.lookup (CmdBuffer.new.pushAll (rest.takeWhile isTokenChar)).value = 0)
      (hmore : rest.dropWhile isTokenChar ≠ [])
      (hline : MethodLine parser .emptyLine false (rest.dropWhile isTokenChar)) :
      MethodLine parser .enterCommand false rest
  | lineEnd (rest eoln more : List Byte) (hrest : rest.dropWhile isBlank = eoln ++ more)
      (heoln : eoln = [LF] ∨ eoln = CRLF) (hline : MethodLine parser .enterCommand false more) :
      MethodLine parser .emptyLine false rest

namespace CommandDispatcher

/-- The dispatcher is in the state `Selected`. -/
def isSelected (d : CommandDispatcher δ γ) : Bool := decide (d.state = .selected)

/-- Between two calls of `getCommand` the dispatcher waits for a command or for its arguments. -/
def Resting (d : CommandDispatcher δ γ) : Prop :=
  d.Waiting ∨ d.state = .selected ∧ d.argBuffer.Settled

/-- A waiting dispatcher has not selected a method. -/
theorem Waiting.is_selected {d : CommandDispatcher δ γ} (h : d.Waiting) : d.isSelected = false :=
  decide_eq_false h.state.1

/-- What `getCommand` returns for these bytes: the command, how many of them are read, and the
dispatcher. -/
inductive Gets (d : CommandDispatcher δ γ) (rest : List Byte) :
    Command → Nat → CommandDispatcher δ γ → Prop
  | more (next : CommandDispatcher δ γ) (hnext : next.Resting) (hparser : next.parser = d.parser)
      (hline : ¬ MethodLine d.parser .enterCommand d.isSelected rest) :
      Gets d rest .unknown rest.length next
  | method (count : Nat) (next : CommandDispatcher δ γ) (hnext : next.state = .selected)
      (hline : MethodLine d.parser .enterCommand d.isSelected rest) : Gets d rest .method count next
  | other (word : List Byte) (ch : Byte) (back : List Byte) (next : CommandDispatcher δ γ)
      (hrest : rest = word ++ ch :: back) (hword : ∀ ch ∈ word, isTokenChar ch = true)
      (hch : isTokenChar ch = false) (hcmd : Command.ofIndex (d.indexOf word) ≠ .method)
      (hselected : d.isSelected = false) (hnext : next.Waiting) (hparser : next.parser = d.parser) :
      Gets d rest (Command.ofIndex (d.indexOf word)) word.length next

end CommandDispatcher

/-! ## Method lines -/

namespace MethodLine

variable {parser : CmdParser}

/-- Lines of methods are only read in two states. -/
theorem states {state : State} {selected : Bool} {rest : List Byte}
    (h : MethodLine parser state selected rest) : state = .enterCommand ∨ state = .emptyLine := by
  cases h with
  | arguments => exact .inl rfl
  | command => exact .inl rfl
  | empty => exact .inl rfl
  | lineEnd => exact .inr rfl

/-- Without a line end no line of a method is complete. -/
theorem ends {selected : Bool} {rest : List Byte} (hline : ∀ ch ∈ rest, isLineEnd ch = false)
    (hword : ¬ selected →
      3 ≤ parser.lookup (CmdBuffer.new.pushAll (rest.takeWhile isTokenChar)).value) :
    ¬ MethodLine parser .enterCommand selected rest := by
  have hnone : ¬ ∃ ch ∈ rest, isLineEnd ch = true := by
    rintro ⟨ch, hmem, hch⟩
    rw [hline ch hmem] at hch
    exact Bool.false_ne_true hch
  intro h
  cases h with
  | arguments _ hend => exact hnone hend
  | command _ _ hend => exact hnone hend
  | empty _ hindex =>
      have := hword Bool.false_ne_true
      omega

/-- A front of a command word does not complete a line. -/
theorem word {rest : List Byte} (hword : ∀ ch ∈ rest, isTokenChar ch = true) :
    ¬ MethodLine parser .enterCommand false rest := by
  intro h
  cases h with
  | command _ _ hend =>
      obtain ⟨ch, hmem, hch⟩ := hend
      exact absurd (hword ch hmem) (by rw [is_token_char_line_end hch]; exact Bool.false_ne_true)
  | empty _ _ hmore => exact hmore (List.dropWhile_eq_nil_iff.mpr hword)

/-- Behind a command that is not a method only the empty command goes on with the line. -/
theorem other_iff {word back : List Byte} {ch : Byte} (hword : ∀ ch ∈ word, isTokenChar ch = true)
    (hch : isTokenChar ch = false) (hlow : parser.lookup (CmdBuffer.new.pushAll word).value < 3) :
    MethodLine parser .enterCommand false (word ++ ch :: back) ↔
      parser.lookup (CmdBuffer.new.pushAll word).value = 0 ∧
        MethodLine parser .emptyLine false (ch :: back) := by
  have htake := take_while_split back hword hch
  have hdrop := drop_while_split back hword hch
  constructor
  · intro h
    cases h with
    | command _ hindex =>
        rw [htake] at hindex
        omega
    | empty _ hindex _ hline =>
        rw [htake] at hindex
        rw [hdrop] at hline
        exact ⟨hindex, hline⟩
  · rintro ⟨hindex, hline⟩
    refine .empty _ (by rw [htake]; exact hindex) (by rw [hdrop]; exact List.cons_ne_nil _ _) ?_
    rw [hdrop]
    exact hline

end MethodLine

/-! ## The dispatcher -/

namespace CommandDispatcher

variable {get : Nat → Except Fault Byte} {itr : Nat} {rest : List Byte}

/-- What `getArguments` returns for a selected method. -/
theorem get_arguments_cases {d : CommandDispatcher δ γ} (hstate : d.state = .selected)
    (hsettled : d.argBuffer.Settled) (hwindow : Window get itr rest) :
    ((∀ ch ∈ rest, isLineEnd ch = false) ∧ ∃ next : CommandDispatcher δ γ,
      d.getArguments get itr (itr + rest.length) = .ok (.unknown, itr + rest.length, next) ∧
        next.Resting ∧ next.parser = d.parser) ∨
      (∃ ch ∈ rest, isLineEnd ch = true) ∧ ∃ count, ∃ next : CommandDispatcher δ γ,
        d.getArguments get itr (itr + rest.length) = .ok (.method, itr + count, next) ∧
          next.state = .selected := by
  rcases split_while (fun ch ↦ !isLineEnd ch) rest with hline | ⟨front, ch, back, rfl, hfront, hch⟩
  · have hnone : ∀ ch ∈ rest, isLineEnd ch = false := by simpa using hline
    exact .inl ⟨hnone, _, get_arguments_all hsettled hwindow hnone,
      .inr ⟨hstate, settled_push_line hsettled rest⟩, rfl⟩
  · have hend : isLineEnd ch = true := by simpa using hch
    exact .inr ⟨⟨ch, by simp, hend⟩, _, _,
      get_arguments_found hsettled hwindow (by simpa using hfront) hend, hstate⟩

/-- What `getCommand` returns for a waiting dispatcher. -/
theorem Waiting.gets {d : CommandDispatcher δ γ} (h : d.Waiting) (hwindow : Window get itr rest) :
    ∃ cmd count next, d.getCommand get itr (itr + rest.length) = .ok (cmd, itr + count, next) ∧
      d.Gets rest cmd count next := by
  have hselected := h.is_selected
  rcases split_while isTokenChar rest with htoken | ⟨word, ch, back, rfl, hword, hch⟩
  · refine ⟨_, _, _, h.get_command_cut hwindow htoken, .more _ (.inl (h.reset _)) rfl ?_⟩
    rw [hselected]
    exact MethodLine.word htoken
  · -- the word is complete, and what follows it is read as arguments if it names a method
    have hget := h.get_command_found hwindow hword hch
    by_cases hmethod : Command.ofIndex (d.indexOf word) = .method
    · have hindex := of_index_method (d.index_of_ge word) hmethod
      have hback : Window get (itr + word.length) (ch :: back) := hwindow.back
      have hstop : itr + (word ++ ch :: back).length = itr + word.length + (ch :: back).length := by
        rw [List.length_append, Nat.add_assoc]
      rw [if_pos hmethod, hstop] at hget
      obtain ⟨hfound, hsettled, hparser⟩ := h.found_method hmethod
      rcases get_arguments_cases hfound hsettled hback with
        ⟨hline, next, hargs, hnext, hsame⟩ | ⟨hend, count, next, hargs, hnext⟩
      · refine ⟨.unknown, (word ++ ch :: back).length, next, ?_,
          .more _ hnext (hsame.trans hparser) ?_⟩
        · rw [hstop, hget, hargs]
        · refine MethodLine.ends ?_ ?_
          · intro other hother
            rcases List.mem_append.mp hother with hmem | hmem
            · by_contra hend
              rw [Bool.not_eq_false] at hend
              exact absurd (hword other hmem) (by simp [is_token_char_line_end hend])
            · exact hline other hmem
          · intro _
            rw [take_while_split back hword hch]
            exact hindex
      · refine ⟨.method, word.length + count, next, ?_, .method _ _ hnext ?_⟩
        · rw [hstop, hget, hargs, Nat.add_assoc]
        · obtain ⟨last, hmem, hlast⟩ := hend
          rw [hselected]
          refine .command _ ?_ ⟨last, List.mem_append_right _ hmem, hlast⟩
          rw [take_while_split back hword hch]
          exact hindex
    · rw [if_neg hmethod] at hget
      obtain ⟨hwaiting, hparser⟩ := h.found_other hmethod
      exact ⟨_, _, _, hget, .other word ch back _ rfl hword hch hmethod hselected hwaiting hparser⟩

/-- What `getCommand` returns. -/
theorem Resting.gets {d : CommandDispatcher δ γ} (h : d.Resting) (hwindow : Window get itr rest) :
    ∃ cmd count next, d.getCommand get itr (itr + rest.length) = .ok (cmd, itr + count, next) ∧
      d.Gets rest cmd count next := by
  rcases h with hwaiting | ⟨hstate, hsettled⟩
  · exact hwaiting.gets hwindow
  · have hselected : d.isSelected = true := decide_eq_true hstate
    have hget : d.getCommand get itr (itr + rest.length) =
      d.getArguments get itr (itr + rest.length) := by
      rw [getCommand, hstate]
    rcases get_arguments_cases hstate hsettled hwindow with
      ⟨hline, next, hargs, hnext, hsame⟩ | ⟨hend, count, next, hargs, hnext⟩
    · refine ⟨_, _, _, hget.trans hargs, .more _ hnext hsame ?_⟩
      exact MethodLine.ends hline fun hnot ↦ absurd hselected hnot
    · refine ⟨_, _, _, hget.trans hargs, .method _ _ hnext ?_⟩
      rw [hselected]
      exact .arguments _ hend

end CommandDispatcher

/-! ## The handler -/

/-- The states of the handler in which no method runs. -/
def State.atLine : State → Bool
  | .init | .enterCommand | .emptyLine | .protocolError | .terminate => true
  | .processingAfterWrite | .processing | .discardInput | .commandOk => false

namespace Conn

/-- The bytes between the iterator and the end of the message. -/
def rest (c : Conn δ γ) : List Byte := Block.slice c.input.bytes c.itr (c.eoM - c.itr)

/-- The bytes that are still to be read complete the line of a method. -/
def MethodLine (c : Conn δ γ) : Prop :=
  Mtproc.MethodLine c.commandDispatcher.parser c.state c.commandDispatcher.isSelected c.rest

/-- The iterators are in order. -/
structure Bounded (c : Conn δ γ) : Prop where
  itr_le : c.itr ≤ c.eoM
  eom_le : c.eoM ≤ c.input.pos
  pos_le : c.input.pos ≤ c.input.size

/-- Handler and dispatcher are in step, and no method runs: a selected method is only left in the
state `EnterCommand`, which reads its arguments, or by a termination. -/
structure Calm (c : Conn δ γ) : Prop where
  state : c.state.atLine = true
  resting : c.commandDispatcher.Resting
  waiting : c.state ≠ .enterCommand → c.state ≠ .terminate → c.commandDispatcher.Waiting

/-- The state in which `nextOperation` may be called. -/
structure Ready (c : Conn δ γ) : Prop extends Calm c where
  bounded : c.state ≠ .terminate → c.Bounded

/-- What holds when this operation is returned. -/
def After (c : Conn δ γ) : Operation → Prop
  | .read _ size _ => c.Calm ∧ size = c.input.size
  | .write _ _ | .close => c.Ready

/-- A bound on the passes that go round again. -/
def work (c : Conn δ γ) : Nat :=
  match c.state with
  | .enterCommand => 2 * (c.eoM - c.itr) + 1
  | .emptyLine => 2 * (c.eoM - c.itr)
  | .protocolError => 1
  | _ => 0

variable (W : World δ γ)

/-- What a pass can do. -/
inductive Passes (c : Conn δ γ) : Prop
  | returns (next : Conn δ γ) (op : Operation) (hpass : pass W c = .ok (next, some op))
      (hafter : next.After op) (hsize : next.input.size = c.input.size) (hline : ¬ c.MethodLine)
  | again (next : Conn δ γ) (hpass : pass W c = .ok (next, none)) (hready : next.Ready)
      (hsize : next.input.size = c.input.size) (hless : next.work < c.work)
      (hline : c.MethodLine ↔ next.MethodLine)
  | method (next : Conn δ γ) (hpass : pass W c = .ok (next, none))
      (hthrow : pass W next = .error .illegalState) (hline : c.MethodLine)

variable {W} {c : Conn δ γ}

/-- In the other states no line of a method is read. -/
theorem not_method_line (henter : c.state ≠ .enterCommand) (hempty : c.state ≠ .emptyLine) :
    ¬ c.MethodLine := by
  intro h
  rcases h.states with hstate | hstate
  · exact henter hstate
  · exact hempty hstate

/-- The bytes that are still to be read can be read. -/
theorem Bounded.rest_window (h : c.Bounded) :
    Window c.input.get c.itr c.rest ∧ c.itr + c.rest.length = c.eoM := by
  have hitr := h.itr_le
  have heom := h.eom_le
  have hpos := h.pos_le
  have hlen : c.rest.length = c.eoM - c.itr := by
    rw [rest, Block.slice, List.length_take, List.length_drop]
    unfold MemBlock.size at hpos
    omega
  refine ⟨MemBlock.window ?_ (by omega), by omega⟩
  rw [hlen]
  rfl

/-- The iterator moves on within the message. -/
theorem Bounded.advance (h : c.Bounded) {front back : List Byte} (hrest : c.rest = front ++ back) :
    Bounded { c with itr := c.itr + front.length } ∧
      rest { c with itr := c.itr + front.length } = back ∧
      c.eoM = c.itr + front.length + back.length := by
  obtain ⟨-, hlen⟩ := h.rest_window
  rw [hrest, List.length_append] at hlen
  refine ⟨⟨by simp only; omega, h.eom_le, h.pos_le⟩, ?_, by omega⟩
  have hdrop : (Block.slice c.input.bytes c.itr (c.eoM - c.itr)).drop front.length = back := by
    have hsame : Block.slice c.input.bytes c.itr (c.eoM - c.itr) = front ++ back := hrest
    rw [hsame, List.drop_left]
  rw [← hdrop]
  simp only [rest, Block.slice, List.drop_take, List.drop_drop, Nat.sub_add_eq]

/-- A pass that ends with a reply. -/
theorem Passes.replies {d : Conn δ γ} {next : State} {str : List Byte} {arg : Option (List Byte)}
    (hpass : pass W c = .ok (d.reply W next str arg)) (hready : Ready { d with state := next })
    (hsize : d.input.size = c.input.size) (hline : ¬ c.MethodLine) : Passes W c := by
  refine .returns _ _ hpass ?_ hsize hline
  exact ⟨⟨hready.state, hready.resting, hready.waiting⟩, fun hstate ↦
    ⟨(hready.bounded hstate).itr_le, (hready.bounded hstate).eom_le,
      (hready.bounded hstate).pos_le⟩⟩

/-- A pass that ends with a `READ`. -/
theorem Passes.reads {d : Conn δ γ} (hpass : pass W c = .ok d.readMore) (hcalm : d.Calm)
    (hsize : d.input.size = c.input.size) (hline : ¬ c.MethodLine) : Passes W c :=
  .returns _ _ hpass ⟨⟨hcalm.state, hcalm.resting, hcalm.waiting⟩, rfl⟩ hsize hline

/-- `case EnterCommand` -/
theorem Ready.enter_command (h : c.Ready) (hstate : c.state = .enterCommand) : Passes W c := by
  have hbounded : c.Bounded := h.bounded (by simp [hstate])
  obtain ⟨hwindow, hlen⟩ := hbounded.rest_window
  obtain ⟨cmd, count, next, hget, hgets⟩ := h.resting.gets hwindow
  have hpass : pass W c = passEnterCommand W c := by rw [pass, hstate]
  rw [hlen] at hget
  rw [passEnterCommand, hget] at hpass
  have hmethod : c.MethodLine ↔ Mtproc.MethodLine c.commandDispatcher.parser .enterCommand
      c.commandDispatcher.isSelected c.rest := by rw [MethodLine, hstate]
  cases hgets with
  | more _ hnext hparser hline =>
      refine .reads (d := { c with itr := c.itr + c.rest.length, commandDispatcher := next }) ?_
        ⟨h.state, hnext, fun hne ↦ absurd hstate hne⟩ rfl (hmethod.not.mpr hline)
      rw [hpass]
      simp only [bind, Except.bind, pure, Except.pure, hlen, if_true]
  | method _ _ hnext hline =>
      -- the next pass calls a dispatcher that is still in the state `Selected`
      refine .method _ hpass ?_ (hmethod.mpr hline)
      simp only [pass, passProcessing, CommandDispatcher.call, hnext]
      rfl
  | other word ch back _ hrest hword hch hcmd hselected hnext hparser =>
      obtain ⟨hnow, hback, heom⟩ := hbounded.advance hrest
      have hready (state : State) (hline : state.atLine = true) (d : CommandDispatcher δ γ)
          (hd : d.Waiting) : Ready { c with
            state := state, itr := c.itr + word.length, commandDispatcher := d } :=
        ⟨⟨hline, .inl hd, fun _ _ ↦ hd⟩, fun _ ↦ ⟨hnow.itr_le, hnow.eom_le, hnow.pos_le⟩⟩
      have hindex := of_index_low (c.commandDispatcher.index_of_ge word) hcmd
      rw [hselected, hrest, MethodLine.other_iff hword hch
        (show c.commandDispatcher.indexOf word < 3 by omega)] at hmethod
      have hnone (hindex : c.commandDispatcher.indexOf word ≠ 0) : ¬ c.MethodLine :=
        fun h ↦ hindex (hmethod.mp h).1
      rcases hindex with hci | hci | hci | hci <;> rw [hci] at hpass
      · -- an unknown command, and the byte behind it is left
        have hleft : c.itr + word.length ≠ c.eoM := by
          rw [heom, List.length_cons]
          omega
        exact .replies (hpass.trans (if_neg hleft)) (hready .protocolError rfl next hnext) rfl
          (hnone (by omega))
      · -- the empty command: the rest of the line is read by the next pass
        refine .again _ hpass (hready .emptyLine rfl next hnext) rfl ?_ ?_
        · have hwork : c.work = 2 * (c.eoM - c.itr) + 1 := by rw [work, hstate]
          rw [hwork]
          show 2 * (c.eoM - (c.itr + word.length)) < _
          omega
        · rw [hmethod, MethodLine, hparser, hnext.is_selected]
          exact ⟨fun h ↦ hback ▸ h.2, fun h ↦ ⟨hci, hback ▸ h⟩⟩
      · -- `getCaps` writes to the line buffer of the arguments
        have hcaps (content : Buffer 256) : CommandDispatcher.Waiting
            { next with argBuffer := { next.argBuffer with content := content } } :=
          ⟨hnext.state, hnext.args⟩
        exact .replies hpass (hready .emptyLine rfl _ (hcaps _)) rfl (hnone (by omega))
      · exact .replies hpass (hready .terminate rfl next hnext) rfl (hnone (by omega))

/-- An empty line ends in front of the next command. -/
theorem method_line_empty {parser : CmdParser} {blanks back : List Byte} {ch : Byte}
    (hblank : ∀ ch ∈ blanks, isBlank ch = true) (hch : isBlank ch = false) :
    Mtproc.MethodLine parser .emptyLine false (blanks ++ ch :: back) ↔
      ∃ eoln more, ch :: back = eoln ++ more ∧ (eoln = [LF] ∨ eoln = CRLF) ∧
        Mtproc.MethodLine parser .enterCommand false more := by
  have hdrop := drop_while_split back hblank hch
  constructor
  · intro h
    cases h with
    | lineEnd _ eoln more hrest heoln hline => exact ⟨eoln, more, hdrop ▸ hrest, heoln, hline⟩
  · rintro ⟨eoln, more, hrest, heoln, hline⟩
    exact .lineEnd _ eoln more (hdrop.trans hrest) heoln hline

/-- Behind the line end of an empty line the next line decides. -/
theorem method_line_eoln {parser : CmdParser} {blanks back eoln more : List Byte} {ch : Byte}
    (hblank : ∀ ch ∈ blanks, isBlank ch = true) (hch : isBlank ch = false)
    (hsplit : ch :: back = eoln ++ more) (heoln : eoln = [LF] ∨ eoln = CRLF) :
    Mtproc.MethodLine parser .emptyLine false (blanks ++ ch :: back) ↔
      Mtproc.MethodLine parser .enterCommand false more := by
  rw [method_line_empty hblank hch]
  constructor
  · rintro ⟨eoln', more', hsame, heoln', hline⟩
    rw [eoln_unique heoln heoln' (hsplit.symm.trans hsame)]
    exact hline
  · intro hline
    exact ⟨eoln, more, hsplit, heoln, hline⟩

/-- `case EmptyLine` -/
theorem Ready.empty_line (h : c.Ready) (hstate : c.state = .emptyLine) : Passes W c := by
  have hbounded : c.Bounded := h.bounded (by simp [hstate])
  have hwaiting : c.commandDispatcher.Waiting := h.waiting (by simp [hstate]) (by simp [hstate])
  obtain ⟨hwindow, hlen⟩ := hbounded.rest_window
  have hpass : pass W c = passEmptyLine W c := by rw [pass, hstate]
  have hmethod : c.MethodLine ↔
    Mtproc.MethodLine c.commandDispatcher.parser .emptyLine false c.rest := by
    rw [MethodLine, hstate, hwaiting.is_selected]
  have hcalm (itr : Nat) : Calm { c with itr := itr } := ⟨h.state, h.resting, h.waiting⟩
  have hskips := skip_spaces_cases hwindow
  rw [hlen] at hskips
  rcases hskips with ⟨hall, hskip⟩ | ⟨blanks, ch, back, hrest, hblank, hch, hskip⟩
  · rw [passEmptyLine, hskip] at hpass
    refine .reads hpass (hcalm c.eoM) rfl ?_
    intro hline
    cases hmethod.mp hline with
    | lineEnd _ eoln more hdrop heoln =>
        rw [List.dropWhile_eq_nil_iff.mpr hall] at hdrop
        rcases heoln with rfl | rfl <;> simp [CRLF] at hdrop
  · have hback : Window c.input.get (c.itr + blanks.length) (ch :: back) := (hrest ▸ hwindow).back
    obtain ⟨hnow, hleft, heom⟩ := hbounded.advance hrest
    rw [passEmptyLine, hskip] at hpass
    rw [hrest] at hmethod
    have hconsume := consume_eoln_cases hback
    rw [← heom] at hconsume
    rcases hconsume with ⟨eoln, more, hsplit, heoln, hfound⟩ | ⟨hbad, cr, hcr, hmissing⟩
    · obtain ⟨hbehind, hmore, hend⟩ := hnow.advance (hleft.trans hsplit)
      simp only [orFault, hfound, bind, Except.bind, pure, Except.pure, Bool.not_true,
        Bool.false_eq_true,
        if_false] at hpass
      refine .again _ hpass ⟨⟨rfl, h.resting, fun _ _ ↦ hwaiting⟩, ?_⟩ rfl ?_ ?_
      · intro _
        exact ⟨hbehind.itr_le, hbehind.eom_le, hbehind.pos_le⟩
      · have hwork : c.work = 2 * (c.eoM - c.itr) := by rw [work, hstate]
        have hpos : 0 < eoln.length := by rcases heoln with rfl | rfl <;> decide
        rw [hwork]
        show 2 * (c.eoM - (c.itr + blanks.length + eoln.length)) + 1 < _
        simp only at hend
        omega
      · have hnext : rest { c with
            state := .enterCommand, itr := c.itr + blanks.length + eoln.length } = more := hmore
        rw [hmethod, MethodLine, hwaiting.is_selected, hnext]
        exact method_line_eoln hblank hch hsplit heoln
    · -- no line end: more input, or the reply `BAD command line`
      have hnone : ¬ c.MethodLine := by
        intro hline
        obtain ⟨eoln, more, hsplit, heoln, -⟩ :=
          (method_line_empty hblank hch).mp (hmethod.mp hline)
        exact hbad ⟨eoln, more, hsplit, heoln⟩
      simp only [orFault, hmissing, bind, Except.bind, pure, Except.pure, Bool.not_true,
        Bool.not_false,
        Bool.false_eq_true, if_false, if_true] at hpass
      by_cases hend : c.itr + blanks.length + cr = c.eoM
      · rw [if_pos hend] at hpass
        exact .reads hpass (hcalm _) rfl hnone
      · rw [if_neg hend] at hpass
        refine .replies hpass ⟨⟨rfl, h.resting, fun _ _ ↦ hwaiting⟩, fun _ ↦ ⟨?_, ?_, ?_⟩⟩ rfl hnone
        · show c.itr + blanks.length + cr ≤ c.eoM
          omega
        · exact hnow.eom_le
        · exact hnow.pos_le

/-- `case ProtocolError` -/
theorem Ready.protocol_error (h : c.Ready) (hstate : c.state = .protocolError) : Passes W c := by
  have hbounded : c.Bounded := h.bounded (by simp [hstate])
  have hwaiting : c.commandDispatcher.Waiting := h.waiting (by simp [hstate]) (by simp [hstate])
  have hline : ¬ c.MethodLine := not_method_line (by simp [hstate]) (by simp [hstate])
  have hpass : pass W c = passProtocolError c := by rw [pass, hstate]
  have hcalm (itr : Nat) : Calm { c with itr := itr } := ⟨h.state, h.resting, h.waiting⟩
  obtain ⟨hwindow, hlen⟩ := hbounded.rest_window
  have hskips := skip_line_cases hwindow
  rw [hlen] at hskips
  rcases hskips with ⟨-, hskip⟩ | ⟨line, ch, back, hrest, -, -, hskip⟩
  · rw [passProtocolError, hskip] at hpass
    exact .reads hpass (hcalm c.eoM) rfl hline
  · have hback : Window c.input.get (c.itr + line.length) (ch :: back) := (hrest ▸ hwindow).back
    obtain ⟨hnow, hleft, heom⟩ := hbounded.advance hrest
    rw [passProtocolError, hskip] at hpass
    have hconsume := consume_eoln_cases hback
    rw [← heom] at hconsume
    rcases hconsume with ⟨eoln, more, hsplit, -, hfound⟩ | ⟨-, cr, -, hmissing⟩
    · obtain ⟨hbehind, -, -⟩ := hnow.advance (hleft.trans hsplit)
      simp only [orFault, hfound, bind, Except.bind, pure, Except.pure, Bool.not_true,
        Bool.false_eq_true,
        if_false] at hpass
      refine .again _ hpass ⟨⟨rfl, h.resting, fun _ _ ↦ hwaiting⟩, ?_⟩ rfl ?_ ?_
      · intro _
        exact ⟨hbehind.itr_le, hbehind.eom_le, hbehind.pos_le⟩
      · rw [work, work, hstate]
        exact Nat.zero_lt_one
      · exact iff_of_false hline (not_method_line (by simp) (by simp))
    · simp only [orFault, hmissing, bind, Except.bind, pure, Except.pure, Bool.not_true,
        Bool.not_false,
        Bool.false_eq_true, if_false, if_true] at hpass
      exact .reads hpass (hcalm _) rfl hline

/-- What a pass does in a state in which `nextOperation` may be called. -/
theorem pass_spec (h : c.Ready) : Passes W c := by
  have hatLine := h.state
  cases hstate : c.state with
  | init =>
      have hwaiting := h.waiting (by simp [hstate]) (by simp [hstate])
      have hbounded := h.bounded (by simp [hstate])
      have hpass : pass W c = .ok (c.reply W .enterCommand (text "OK expecting command") none) := by
        rw [pass, hstate]
      refine .replies hpass ⟨⟨rfl, h.resting, fun _ _ ↦ hwaiting⟩, ?_⟩ rfl
        (not_method_line (by simp [hstate]) (by simp [hstate]))
      intro _
      exact ⟨hbounded.itr_le, hbounded.eom_le, hbounded.pos_le⟩
  | enterCommand => exact h.enter_command hstate
  | emptyLine => exact h.empty_line hstate
  | protocolError => exact h.protocol_error hstate
  | terminate =>
      have hpass : pass W c = .ok (c, some .close) := by rw [pass, hstate]
      exact .returns c .close hpass h rfl (not_method_line (by simp [hstate]) (by simp [hstate]))
  | processingAfterWrite => rw [hstate] at hatLine; cases hatLine
  | processing => rw [hstate] at hatLine; cases hatLine
  | discardInput => rw [hstate] at hatLine; cases hatLine
  | commandOk => rw [hstate] at hatLine; cases hatLine

end Conn

end Smerp.Mtproc
