import Smerp.Mtproc.Dispatcher

/-!
# Commands that come in pieces

The handler calls `getCommand` again with the next block as long as the last one is used up. A
method that is selected keeps the arguments read so far, but a command word that is cut starts over
with the next block: `resetCommand` forgets its front. `command_boundaries_iff` says that a split
changes nothing else.
-/

namespace Smerp.Mtproc

open Lib Protocol

variable {δ γ : Type}

/-- A block that was filled with these bytes. -/
def filledBlock (data : List Byte) : MemBlock := ⟨data, data.length⟩

/-- The bytes of a filled block. -/
theorem window_filled (data : List Byte) : Window (filledBlock data).get 0 data := by
  refine MemBlock.window ?_ (Nat.le_of_eq (Nat.zero_add _))
  simp [filledBlock, Block.slice]

/-- `case EnterCommand` of `nextOperation` on one block after the other: it goes on as long as the
command is unknown and the block used up. -/
def CommandDispatcher.getCommands (d : CommandDispatcher δ γ) :
    List (List Byte) → Except Failure (Command × CommandDispatcher δ γ)
  | [] => .ok (.unknown, d)
  | block :: more => do
      let (cmd, itr, d) ← d.getCommand (filledBlock block).get 0 block.length
      if cmd = .unknown ∧ itr = block.length then d.getCommands more else return (cmd, d)

/-- What is recognised: the command, and for a method its index and its arguments. -/
def CommandDispatcher.recognised (d : CommandDispatcher δ γ) (blocks : List (List Byte)) :
    Except Failure (Command × Option (Nat × Nat × List (List Byte))) :=
  (d.getCommands blocks).map fun (cmd, d) ↦
    (cmd, if cmd = .method then some (d.methodIdx, d.argBuffer.argc, d.argBuffer.argv) else none)

/-- The part of the command word that lies in one block with the byte behind it. -/
def lastPiece : List (List Byte) → List Byte
  | [] => []
  | block :: more => if block.all isTokenChar then lastPiece more else block.takeWhile isTokenChar

/-- The index that the parser finds for a command word. -/
def CommandDispatcher.indexOf (d : CommandDispatcher δ γ) (word : List Byte) : Int :=
  d.parser.lookup (CmdBuffer.new.pushAll word).value

/-- The index of a method lies behind those of the commands of the protocol. -/
theorem of_index_method {ci : Int} (hci : -1 ≤ ci) (h : Command.ofIndex ci = .method) : 3 ≤ ci := by
  by_contra hlow
  obtain rfl | rfl | rfl | rfl : ci = -1 ∨ ci = 0 ∨ ci = 1 ∨ ci = 2 := by omega
  all_goals cases h

/-- The indices that are not those of a method. -/
theorem of_index_low {ci : Int} (hci : -1 ≤ ci) (h : Command.ofIndex ci ≠ .method) :
    ci = -1 ∨ ci = 0 ∨ ci = 1 ∨ ci = 2 := by
  unfold Command.ofIndex at h
  split at h <;> first | omega | exact absurd rfl h

/-- Two indices of one command of the protocol are equal. -/
theorem of_index_inj {ci cj : Int} (hci : -1 ≤ ci) (hcj : -1 ≤ cj)
    (hmethod : Command.ofIndex ci ≠ .method)
    (h : Command.ofIndex ci = Command.ofIndex cj) : ci = cj := by
  rcases of_index_low hci hmethod with rfl | rfl | rfl | rfl <;>
    rcases of_index_low hcj (h ▸ hmethod) with rfl | rfl | rfl | rfl <;> first | rfl | cases h

/-- A line that comes in one block is not cut. -/
theorem last_piece_line (body : List Byte) :
    lastPiece [body ++ CRLF] = body.takeWhile isTokenChar := by
  have hend : CRLF.takeWhile isTokenChar = [] := by decide
  have hcut : (body ++ CRLF).all isTokenChar = false := by
    rw [List.all_append, show CRLF.all isTokenChar = false by decide, Bool.and_false]
  rw [lastPiece, hcut, if_neg Bool.false_ne_true, List.takeWhile_append, hend, List.append_nil]
  split
  · rename_i hwhole
    exact ((List.takeWhile_prefix _).eq_of_length hwhole).symm
  · rfl

namespace CommandDispatcher

/-- A dispatcher that waits for a command, as it is after its construction and behind every command
that is not a method. -/
structure Waiting (d : CommandDispatcher δ γ) : Prop where
  state : d.state ≠ .selected ∧ d.state ≠ .argumentsParsed
  args : d.argBuffer.state = .empty

/-- A new dispatcher waits for a command. -/
theorem waiting_new {line : Buffer 256} {mt : List (Method δ γ)} {data : δ}
    {d : CommandDispatcher δ γ}
    (h : new line mt data = some d) : d.Waiting := by
  unfold new at h
  rw [Option.bind_eq_bind, Option.bind_eq_some_iff] at h
  obtain ⟨parser, -, hd⟩ := h
  cases hd
  exact ⟨⟨by simp, by simp⟩, rfl⟩

/-- A waiting dispatcher begins a new command. -/
theorem Waiting.get_command {d : CommandDispatcher δ γ} (h : d.Waiting)
    (get : Nat → Except Fault Byte)
    (itr eoM : Nat) : d.getCommand get itr eoM = (do
      let (ci, itr, cmdBuffer) ← orFault (d.parser.getCommand get itr eoM .new)
      let d := { d.resetCommand with cmdBuffer := cmdBuffer }
      match Command.ofIndex ci with
      | .method => getArguments { d with methodIdx := ci.toNat - 3, state := .selected } get itr eoM
      | cmd => return (cmd, itr, d)) := by
  obtain ⟨⟨hselected, hparsed⟩, -⟩ := h
  unfold getCommand
  cases hstate : d.state with
  | selected => exact absurd hstate hselected
  | argumentsParsed => exact absurd hstate hparsed
  | running => rfl
  | waitForInput => rfl
  | null => rfl
  | init => rfl

/-- Behind the command word the dispatcher is reset, and has found this index. -/
def found (d : CommandDispatcher δ γ) (ci : Int) : CommandDispatcher δ γ :=
  if Command.ofIndex ci = .method then
    { d.resetCommand with methodIdx := ci.toNat - 3, state := .selected }
  else d.resetCommand

/-- A dispatcher that was reset waits again. -/
theorem Waiting.reset {d : CommandDispatcher δ γ} (h : d.Waiting) (cmdBuffer : CmdBuffer) :
    Waiting { d.resetCommand with cmdBuffer := cmdBuffer } :=
  ⟨⟨by simp [resetCommand], by simp [resetCommand]⟩, h.args⟩

/-- Behind the command word of a method the arguments can be read. -/
theorem Waiting.found_method {d : CommandDispatcher δ γ} (h : d.Waiting) {ci : Int}
    (hmethod : Command.ofIndex ci = .method) :
    (d.found ci).state = .selected ∧ (d.found ci).argBuffer.Settled ∧
    (d.found ci).parser = d.parser := by
  rw [found, if_pos hmethod]
  exact ⟨rfl, fun _ ↦ h.args, rfl⟩

/-- Behind any other command word the dispatcher waits again. -/
theorem Waiting.found_other {d : CommandDispatcher δ γ} (h : d.Waiting) {ci : Int}
    (hother : Command.ofIndex ci ≠ .method) :
    (d.found ci).Waiting ∧ (d.found ci).parser = d.parser := by
  rw [found, if_neg hother]
  exact ⟨h.reset _, rfl⟩

/-- `getCommand` on the front of a command word: the front is kept in a buffer that the next call
resets. -/
theorem Waiting.get_command_cut {d : CommandDispatcher δ γ} (h : d.Waiting)
    {get : Nat → Except Fault Byte} {itr : Nat} {data : List Byte} (hwindow : Window get itr data)
    (htoken : ∀ ch ∈ data, isTokenChar ch = true) :
    d.getCommand get itr (itr + data.length) =
      .ok (.unknown, itr + data.length,
        { d.resetCommand with cmdBuffer := CmdBuffer.new.pushAll data }) := by
  rw [h.get_command, get_command_all d.parser .new hwindow htoken]
  rfl

/-- `getCommand` on a command word and the character behind it. -/
theorem Waiting.get_command_found {d : CommandDispatcher δ γ} (h : d.Waiting)
    {get : Nat → Except Fault Byte} {itr : Nat} {token more : List Byte} {ch : Byte}
    (hwindow : Window get itr (token ++ ch :: more)) (htoken : ∀ ch ∈ token, isTokenChar ch = true)
    (hch : isTokenChar ch = false) :
    d.getCommand get itr (itr + (token ++ ch :: more).length) =
      if Command.ofIndex (d.indexOf token) = .method then
        (d.found (d.indexOf token)).getArguments get (itr + token.length)
          (itr + (token ++ ch :: more).length)
      else .ok (Command.ofIndex (d.indexOf token), itr + token.length,
        d.found (d.indexOf token)) := by
  rw [h.get_command, Protocol.get_command_found d.parser .new hwindow htoken hch]
  unfold found indexOf
  generalize d.parser.lookup (CmdBuffer.new.pushAll token).value = ci
  simp only [orFault, bind, Except.bind]
  cases Command.ofIndex ci with
  | method => rfl
  | unknown => rfl
  | empty => rfl
  | caps => rfl
  | quit => rfl

/-- `case Selected` without a line end waits for more. -/
theorem get_arguments_all {d : CommandDispatcher δ γ} (hsettled : d.argBuffer.Settled)
    {get : Nat → Except Fault Byte} {itr : Nat} {data : List Byte} (hwindow : Window get itr data)
    (hline : ∀ ch ∈ data, isLineEnd ch = false) :
    d.getArguments get itr (itr + data.length) =
      .ok (.unknown, itr + data.length, { d with argBuffer := pushLine d.argBuffer data }) := by
  rw [getArguments, get_line_all hsettled hwindow hline]
  rfl

/-- `case Selected` finds the end of the arguments. -/
theorem get_arguments_found {d : CommandDispatcher δ γ} (hsettled : d.argBuffer.Settled)
    {get : Nat → Except Fault Byte} {itr : Nat} {front more : List Byte} {ch : Byte}
    (hwindow : Window get itr (front ++ ch :: more)) (hline : ∀ ch ∈ front, isLineEnd ch = false)
    (hch : isLineEnd ch = true) :
    d.getArguments get itr (itr + (front ++ ch :: more).length) =
      .ok (.method, itr + front.length, { d with argBuffer := pushLine d.argBuffer front }) := by
  rw [getArguments, get_line_found hsettled hwindow hline hch]
  rfl

/-- A byte lies in the first block or behind it. -/
theorem byte_cases {block rest front more : List Byte} {ch : Byte}
    (hflat : block ++ rest = front ++ ch :: more) :
    (∃ behind, block = front ++ ch :: behind) ∨
      ∃ back, front = block ++ back ∧ rest = back ++ ch :: more := by
  rcases List.append_eq_append_iff.mp hflat with ⟨back, hfront, hrest⟩ | ⟨behind, hblock, hbehind⟩
  · exact .inr ⟨back, hfront, hrest⟩
  · cases behind with
    | nil => exact .inr ⟨[], by simp [hblock], by simpa using hbehind.symm⟩
    | cons first behind =>
        obtain ⟨rfl, -⟩ : ch = first ∧ _ := by simpa using hbehind
        exact .inl ⟨behind, hblock⟩

/-- A selected method gets its arguments from any number of blocks. -/
theorem get_commands_selected {d : CommandDispatcher δ γ} (hstate : d.state = .selected)
    (hsettled : d.argBuffer.Settled) {blocks : List (List Byte)} {front more : List Byte}
    {ch : Byte} (hflat : blocks.flatten = front ++ ch :: more)
    (hline : ∀ ch ∈ front, isLineEnd ch = false) (hch : isLineEnd ch = true) :
    d.getCommands blocks = .ok (.method, { d with argBuffer := pushLine d.argBuffer front }) := by
  induction blocks generalizing d front with
  | nil => simp at hflat
  | cons block rest ih =>
      rw [List.flatten_cons] at hflat
      have hselected : d.getCommand (filledBlock block).get 0 block.length =
          d.getArguments (filledBlock block).get 0 block.length := by
        rw [getCommand, hstate]
      rcases byte_cases hflat with ⟨behind, hblock⟩ | ⟨back, hfront, hrest⟩
      · have hfound := get_arguments_found hsettled (hblock ▸ window_filled block) hline hch
        rw [← hblock, Nat.zero_add] at hfound
        rw [getCommands, hselected, hfound]
        rfl
      · have hall := get_arguments_all hsettled (window_filled block)
          fun ch hch ↦ hline ch (by simp [hfront, hch])
        rw [Nat.zero_add] at hall
        have hnext := ih (d := { d with argBuffer := pushLine d.argBuffer block }) hstate
          (settled_push_line hsettled block) hrest fun ch hch ↦ hline ch (by simp [hfront, hch])
        rw [getCommands, hselected, hall]
        show (if Command.unknown = .unknown ∧ block.length = block.length then _ else _) = _
        rw [if_pos ⟨rfl, rfl⟩, hnext, hfront, push_line_append]

/-- The line behind the command word. -/
theorem drop_word {body word rest : List Byte} {ch : Byte}
    (hword : ∀ ch ∈ word, isTokenChar ch = true) (hch : isTokenChar ch = false)
    (hline : word ++ ch :: rest = body ++ CRLF) :
    ch :: rest = body.dropWhile isTokenChar ++ CRLF := by
  have hdrop := congrArg (List.dropWhile isTokenChar) hline
  rw [drop_while_split rest hword hch, List.dropWhile_append] at hdrop
  rw [hdrop]
  cases htail : body.dropWhile isTokenChar with
  | nil => decide
  | cons first more => rfl

/-- The arguments of a method whose command word was found in the first block. -/
theorem get_commands_method {d : CommandDispatcher δ γ} (h : d.Waiting)
    {word behind body : List Byte} {ch : Byte} {rest : List (List Byte)}
    (hword : ∀ ch ∈ word, isTokenChar ch = true) (hch : isTokenChar ch = false)
    (hmethod : Command.ofIndex (d.indexOf word) = .method)
    (hbody : ∀ ch ∈ body, isLineEnd ch = false)
    (hflat : (ch :: behind) ++ rest.flatten = body ++ CRLF) :
    d.getCommands ((word ++ ch :: behind) :: rest) = .ok (.method,
      { d.found (d.indexOf word) with
        argBuffer := pushLine (d.found (d.indexOf word)).argBuffer body }) := by
  have hget := h.get_command_found (window_filled (word ++ ch :: behind)) hword hch
  rw [if_pos hmethod, Nat.zero_add] at hget
  obtain ⟨hstate, hsettled, -⟩ := h.found_method hmethod
  have hwindow : Window (filledBlock (word ++ ch :: behind)).get word.length (ch :: behind) := by
    simpa using (window_filled (word ++ ch :: behind)).back
  have hlen : (word ++ ch :: behind).length = word.length + (ch :: behind).length :=
    List.length_append
  rw [getCommands, hget, Nat.zero_add, hlen]
  generalize d.found (d.indexOf word) = d at hstate hsettled
  -- the line ends in the block of the command word, or in a later one
  rcases byte_cases hflat with ⟨back, hblock⟩ | ⟨back, hfront, hrest⟩
  · rw [hblock] at hwindow ⊢
    rw [get_arguments_found hsettled hwindow hbody rfl]
    rfl
  · subst hfront
    rw [get_arguments_all hsettled hwindow fun ch hch ↦ hbody ch (List.mem_append_left _ hch)]
    have hnext :=
      get_commands_selected (d := { d with argBuffer := pushLine d.argBuffer (ch :: behind) })
        hstate (settled_push_line hsettled _) hrest
        (fun ch hch ↦ hbody ch (List.mem_append_right _ hch)) rfl
    show (if Command.unknown = .unknown ∧ _ = _ then _ else _) = _
    rw [if_pos ⟨rfl, rfl⟩, hnext, push_line_append]

/-- A command that comes in pieces: the index is that of the last piece of the command word, and the
arguments are those of the line. -/
theorem get_commands_waiting {d : CommandDispatcher δ γ} (h : d.Waiting) {blocks : List (List Byte)}
    {body : List Byte} (hbody : ∀ ch ∈ body, isLineEnd ch = false)
    (hflat : blocks.flatten = body ++ CRLF) :
    d.getCommands blocks = .ok (Command.ofIndex (d.indexOf (lastPiece blocks)),
      let found := d.found (d.indexOf (lastPiece blocks))
      if Command.ofIndex (d.indexOf (lastPiece blocks)) = .method then
        { found with argBuffer := pushLine found.argBuffer (body.dropWhile isTokenChar) }
      else found) := by
  induction blocks generalizing d body with
  | nil => simp [CRLF] at hflat
  | cons block rest ih =>
      rw [List.flatten_cons] at hflat
      by_cases hall : block.all isTokenChar = true
      · -- the block is a piece of the command word, and the next call forgets it
        have htoken := List.all_eq_true.mp hall
        have hnext : ∃ back, body = block ++ back ∧ rest.flatten = back ++ CRLF := by
          rcases byte_cases hflat with ⟨behind, hblock⟩ | hnext
          · have hcr := htoken CR (by rw [hblock]; simp)
            exact absurd hcr (by decide)
          · exact hnext
        obtain ⟨back, rfl, hrest⟩ := hnext
        have hget := h.get_command_cut (window_filled block) htoken
        rw [Nat.zero_add] at hget
        have hagain :=
          ih (h.reset (CmdBuffer.new.pushAll block)) (fun ch hch ↦ hbody ch (by simp [hch])) hrest
        rw [getCommands, hget, lastPiece, if_pos hall, List.dropWhile_append_of_pos htoken]
        show (if Command.unknown = .unknown ∧ block.length = block.length then _ else _) = _
        rw [if_pos ⟨rfl, rfl⟩, hagain]
        rfl
      · -- the command word ends in this block
        rcases split_while isTokenChar block with htoken | ⟨word, ch, behind, rfl, hword, hch⟩
        · exact absurd (List.all_eq_true.mpr htoken) hall
        rw [lastPiece, if_neg hall, take_while_split behind hword hch]
        rw [List.append_assoc] at hflat
        have hline := drop_word hword hch hflat
        by_cases hmethod : Command.ofIndex (d.indexOf word) = .method
        · rw [if_pos hmethod, hmethod]
          exact get_commands_method h hword hch hmethod (fun ch hch ↦
            hbody ch ((List.dropWhile_sublist _).subset hch)) hline
        · have hget := h.get_command_found (window_filled (word ++ ch :: behind)) hword hch
          rw [if_neg hmethod, Nat.zero_add, Nat.zero_add] at hget
          have hshort : word.length ≠ (word ++ ch :: behind).length := by
            rw [List.length_append, List.length_cons]
            omega
          rw [getCommands, hget, if_neg hmethod]
          show (if _ ∧ word.length = (word ++ ch :: behind).length then _ else _) = _
          rw [if_neg fun hsame ↦ hshort hsame.2]
          rfl

/-- The result is read off the index of the last piece of the command word. -/
def resultOf (d : CommandDispatcher δ γ) (body : List Byte) (ci : Int) :
    Command × Option (Nat × Nat × List (List Byte)) :=
  let args := pushLine (d.found ci).argBuffer (body.dropWhile isTokenChar)
  (Command.ofIndex ci,
    if Command.ofIndex ci = .method then some (ci.toNat - 3, args.argc, args.argv) else none)

/-- What is recognised of a command line in pieces. -/
theorem recognised_waiting {d : CommandDispatcher δ γ} (h : d.Waiting) {blocks : List (List Byte)}
    {body : List Byte} (hbody : ∀ ch ∈ body, isLineEnd ch = false)
    (hflat : blocks.flatten = body ++ CRLF) :
    d.recognised blocks = .ok (d.resultOf body (d.indexOf (lastPiece blocks))) := by
  rw [recognised, get_commands_waiting h hbody hflat, Except.map]
  unfold resultOf
  by_cases hmethod : Command.ofIndex (d.indexOf (lastPiece blocks)) = .method
  · simp only [hmethod, if_true, found]
  · simp only [hmethod, if_false]

/-- The parser finds an index of the table, or `-1`. -/
theorem index_of_ge (d : CommandDispatcher δ γ) (word : List Byte) : -1 ≤ d.indexOf word := by
  unfold indexOf CmdParser.lookup
  split
  · exact Int.le_refl _
  · split <;> omega

/-- The command and the index of the method say which index was found. -/
theorem result_of_inj {d : CommandDispatcher δ γ} {body : List Byte} {ci cj : Int} (hci : -1 ≤ ci)
    (hcj : -1 ≤ cj) (h : d.resultOf body ci = d.resultOf body cj) : ci = cj := by
  have hcmd : Command.ofIndex ci = Command.ofIndex cj := congrArg Prod.fst h
  -- the commands of the protocol have one index each, and a method returns its own
  by_cases hmethod : Command.ofIndex ci = .method
  · have hargs := congrArg Prod.snd h
    simp only [resultOf, ← hcmd, hmethod, if_true] at hargs
    have hidx : ci.toNat - 3 = cj.toNat - 3 := congrArg Prod.fst (Option.some.inj hargs)
    have := of_index_method hci hmethod
    have := of_index_method hcj (hcmd ▸ hmethod)
    omega
  · exact of_index_inj hci hcj hmethod hcmd

end CommandDispatcher

/-- A split of a command line changes nothing exactly if the part of the command word that lies in
one block with the byte behind it finds the index that the whole command word finds. -/
theorem command_boundaries_iff {d : CommandDispatcher δ γ} (h : d.Waiting)
    {blocks : List (List Byte)} {body : List Byte} (hbody : ∀ ch ∈ body, isLineEnd ch = false)
    (hflat : blocks.flatten = body ++ CRLF) :
    d.recognised blocks = d.recognised [body ++ CRLF] ↔
      d.indexOf (lastPiece blocks) = d.indexOf (body.takeWhile isTokenChar) := by
  rw [CommandDispatcher.recognised_waiting h hbody hflat,
    CommandDispatcher.recognised_waiting h hbody (List.flatten_singleton), last_piece_line]
  constructor
  · intro hsame
    exact CommandDispatcher.result_of_inj (d.index_of_ge _) (d.index_of_ge _) (Except.ok.inj hsame)
  · intro hindex
    rw [hindex]

/-- A table with one method, which does nothing. -/
def echoTable : List (Method Unit Unit) := [⟨text "echo", fun context _ ↦ (0, context)⟩]

/-- The dispatcher of this table, with a line buffer full of zeros. -/
def echoDispatcher : CommandDispatcher Unit Unit where
  cmdBuffer := .new
  argBuffer := .new (.cleared (by decide))
  parser :=
    ⟨(protocolCmds ++ echoTable.map Method.name).map fun cmd ↦ (CmdBuffer.new.pushAll cmd).value,
    by decide⟩
  context := ⟨(), none⟩
  methodIdx := 0
  state := .init

/-- A text in which the check finds no line end. -/
theorem no_line_end {body : List Byte} (h : body.all (fun ch ↦ !isLineEnd ch) = true) :
    ∀ ch ∈ body, isLineEnd ch = false := by
  intro ch hch
  simpa using List.all_eq_true.mp h ch hch

/-- It is the one that the constructor makes. -/
theorem new_echo :
    CommandDispatcher.new echoDispatcher.argBuffer.content echoTable () = some echoDispatcher := by
  have hbuild : CmdParser.build (protocolCmds ++ echoTable.map Method.name) =
      some echoDispatcher.parser := CmdParser.build_eq_some_iff.mpr rfl
  rw [CommandDispatcher.new, hbuild]
  rfl

/-- A cut in the arguments changes nothing. -/
theorem command_boundaries_iff_args :
    echoDispatcher.recognised [text "echo 'a", text " b'\r", text "\n"] =
      echoDispatcher.recognised [text "echo 'a b'" ++ CRLF] :=
  (command_boundaries_iff (CommandDispatcher.waiting_new new_echo) (no_line_end (by decide))
    (by decide)).mpr (by decide)

/-- A cut in the command word loses its front: `ec` and `ho` are no command. -/
theorem not_command_boundaries : ¬ ∀ (mt : List (Method Unit Unit)) (line : Buffer 256)
    (d : CommandDispatcher Unit Unit), CommandDispatcher.new line mt () = some d →
    ∀ (body : List Byte) (blocks : List (List Byte)), (∀ ch ∈ body, isLineEnd ch = false) →
      blocks.flatten = body ++ CRLF → (∀ block ∈ blocks, block ≠ []) →
        d.recognised blocks = d.recognised [body ++ CRLF] := by
  intro h
  have hbody : ∀ ch ∈ text "echo", isLineEnd ch = false := no_line_end (by decide)
  have hsame := h echoTable _ _ new_echo (text "echo") [text "ec", text "ho" ++ CRLF] hbody
    (by decide) (by decide)
  have hwaiting := CommandDispatcher.waiting_new new_echo
  rw [CommandDispatcher.recognised_waiting hwaiting hbody (by decide),
    CommandDispatcher.recognised_waiting hwaiting hbody List.flatten_singleton] at hsame
  have hindex := CommandDispatcher.result_of_inj (echoDispatcher.index_of_ge _)
    (echoDispatcher.index_of_ge _) (Except.ok.inj hsame)
  exact absurd hindex (by decide)

end Smerp.Mtproc
