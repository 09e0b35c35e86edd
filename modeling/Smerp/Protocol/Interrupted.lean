import Smerp.Protocol.Commands
import Smerp.Protocol.LineBuffers

/-!
# Reading lines and commands from blocks

A stream arrives in blocks, and `getLine` and `getCommand` are called on one block after the other
until they have read a line or a command. The result does not depend on where the stream is cut
(`line_interrupted`, `command_interrupted`).
-/

namespace Smerp.Protocol

open Lib

/-! ## Lines -/

section

variable {γ : Type} [LineBuffer γ]

/-- `getLine` on one block after the other, until it returns `true`. The position counts from the
first block on. -/
def getLineBlocks : List (List Byte) → γ → Except Fault (Bool × Nat × γ)
  | [], buf => .ok (false, 0, buf)
  | block :: more, buf => do
      let (ended, src, buf) ← getLine (readData block) 0 block.length buf
      if ended then return (true, src, buf)
      let (ended, behind, buf) ← getLineBlocks more buf
      return (ended, src + behind, buf)

/-- One block. -/
theorem get_line_block (buf : γ) (block : List Byte) :
    getLine (readData block) 0 block.length buf =
      .ok (decide ((lineOf block).length < block.length), (lineOf block).length,
        takeLine buf (lineOf block)) := by
  have h := get_line_window buf (read_data_window block)
  rwa [Nat.zero_add, Nat.zero_add] at h

/-- A block without a line end belongs to the line. -/
theorem line_of_append (block behind : List Byte) : lineOf (block ++ behind) =
    if (lineOf block).length < block.length then lineOf block else block ++ lineOf behind := by
  rcases split_while (fun ch ↦ !isLineEnd ch) block with hall | ⟨front, ch, back, rfl, hfront, hch⟩
  · have hline : lineOf block = block := List.takeWhile_eq_self_iff.mpr hall
    rw [hline, if_neg (Nat.lt_irrefl _)]
    exact List.takeWhile_append_of_pos hall
  · have hline (back : List Byte) : lineOf (front ++ ch :: back) = front :=
      take_while_split back hfront hch
    rw [List.append_assoc, List.cons_append, hline, hline, if_pos (by simp)]

/-- **The blocks are read like the stream.** -/
theorem get_line_blocks_eq {buf : γ} (h : LineBuffer.Sound buf) (blocks : List (List Byte)) :
    getLineBlocks blocks buf =
      getLine (readData blocks.flatten) 0 blocks.flatten.length buf := by
  rw [get_line_block]
  induction blocks generalizing buf with
  | nil => simp [getLineBlocks]
  | cons block more ih =>
      have hfirst := get_line_block buf block
      have hmore := ih (sound_take_line h (lineOf block))
      rw [getLineBlocks, hfirst, List.flatten_cons, line_of_append]
      generalize more.flatten = behind at hmore ⊢
      by_cases hend : (lineOf block).length < block.length
      · have hin : (lineOf block).length < (block ++ behind).length := by
          rw [List.length_append]
          omega
        rw [if_pos hend, decide_eq_true hend, decide_eq_true hin]
        rfl
      · have hall : lineOf block = block :=
          (List.takeWhile_prefix _).eq_of_length_le (Nat.not_lt.mp hend)
        rw [take_line_append h, hall] at hmore
        rw [if_neg hend, hall, decide_eq_false (Nat.lt_irrefl _)]
        simp [bind, Except.bind, pure, Except.pure, hmore]

end

/-- The position of the first line end of a stream. -/
def EndsAt (stream : List Byte) (position : Nat) : Prop :=
  ∃ front ch more, stream = front ++ ch :: more ∧ front.length = position ∧
    isLineEnd ch = true ∧ ∀ other ∈ front, isLineEnd other = false

/-- Reading the stream at once and reading it block by block stops at its first line end, with the
same buffer. -/
def ReadsAlike {γ : Type} [LineBuffer γ] (stream : List Byte) (blocks : List (List Byte))
    (buf : γ) : Prop :=
  ∃ position final, EndsAt stream position ∧
    getLine (readData stream) 0 stream.length buf = .ok (true, position, final) ∧
    getLineBlocks blocks buf = .ok (true, position, final)

/-- A stream with a line end is read alike however it is cut. -/
theorem reads_alike {γ : Type} [LineBuffer γ] {buf : γ} (h : LineBuffer.Sound buf)
    {blocks : List (List Byte)} (hend : ∃ ch ∈ blocks.flatten, isLineEnd ch = true) :
    ReadsAlike blocks.flatten blocks buf := by
  rcases split_while (fun ch ↦ !isLineEnd ch) blocks.flatten with
    hall | ⟨front, ch, more, hsplit, hfront, hch⟩
  · obtain ⟨ch, hmem, hch⟩ := hend
    have hno := hall ch hmem
    rw [hch] at hno
    exact absurd hno (by decide)
  · have hline : lineOf blocks.flatten = front := by
      rw [hsplit]
      exact take_while_split more hfront hch
    have hlt : front.length < blocks.flatten.length := by
      rw [hsplit, List.length_append, List.length_cons]
      omega
    have hread := get_line_block buf blocks.flatten
    rw [hline, decide_eq_true hlt] at hread
    refine ⟨front.length, takeLine buf front, ⟨front, ch, more, hsplit, rfl, ?_, ?_⟩, hread,
      (get_line_blocks_eq h blocks).trans hread⟩
    · simpa using hch
    · simpa using hfront

/-- **Line reading can be interrupted anywhere**: into a string, and into a new argument buffer. -/
theorem line_interrupted {β : Type} [ContentBuffer β] (stream : List Byte)
    (hend : ∃ ch ∈ stream, isLineEnd ch = true) (blocks : List (List Byte))
    (hcut : blocks.flatten = stream) (string : StdString) (content : β) :
    ReadsAlike stream blocks string ∧ ReadsAlike stream blocks (CArgBuffer.new content) := by
  subst hcut
  exact ⟨reads_alike trivial hend, reads_alike (fun _ ↦ rfl) hend⟩

/-- A line that is cut inside of its blanks, its quotes and an escape. -/
theorem line_interrupted_quoted :
    ReadsAlike (text " a 'b c'\\d\r\n") [text " ", text "a 'b", text " c'\\", text "d\r\n"]
      (⟨[]⟩ : StdString) ∧
    ReadsAlike (text " a 'b c'\\d\r\n") [text " ", text "a 'b", text " c'\\", text "d\r\n"]
      (CArgBuffer.new (⟨[]⟩ : StdString)) := by
  have hend : ∃ ch ∈ text " a 'b c'\\d\r\n", isLineEnd ch = true := by decide +kernel
  have hcut : [text " ", text "a 'b", text " c'\\", text "d\r\n"].flatten =
      text " a 'b c'\\d\r\n" := by decide +kernel
  exact line_interrupted (text " a 'b c'\\d\r\n") hend _ hcut (⟨[]⟩ : StdString) (⟨[]⟩ : StdString)

/-! ## Commands -/

/-- The token characters do not depend on the case. -/
theorem is_token_char_tolower (ch : Byte) : isTokenChar (tolower ch) = isTokenChar ch := by
  have hlt := ch.toNat_lt
  have hiff := is_token_char_iff (tolower ch)
  rw [tolower_to_nat] at hiff
  rw [Bool.eq_iff_iff, hiff, is_token_char_iff]
  split_ifs <;> omega

/-- Letters of either case are pushed alike. -/
theorem push_back_tolower (buf : CmdBuffer) (ch : Byte) :
    buf.pushBack (tolower ch) = buf.pushBack ch := by
  by_cases hupper : 65 ≤ ch.toNat ∧ ch.toNat ≤ 90
  · have hlower := tolower_to_nat ch
    rw [if_pos hupper] at hlower
    have hcode : tolower ch - 97 = ch - 65 := by
      rw [← UInt8.toNat_inj, UInt8.toNat_sub, UInt8.toNat_sub, hlower]
      simp only [UInt8.reduceToNat]
      omega
    rw [CmdBuffer.pushBack, CmdBuffer.pushBack, hlower, hcode]
    split_ifs <;> first | rfl | omega
  · rw [tolower, if_neg hupper]

/-- Words that differ in the case of letters only are pushed alike. -/
theorem SameWord.push_all {first second : List Byte} (h : SameWord first second)
    (buf : CmdBuffer) : buf.pushAll first = buf.pushAll second := by
  have hlower (word : List Byte) : buf.pushAll word = buf.pushAll (word.map tolower) := by
    induction word generalizing buf with
    | nil => rfl
    | cons ch rest ih =>
        rw [CmdBuffer.push_all_cons, ih, List.map_cons, CmdBuffer.push_all_cons, push_back_tolower]
  rw [hlower first, hlower second, h]

/-- Streams that differ in the case of letters only have tokens that do. -/
theorem SameWord.token {token more other : List Byte} {ch : Byte}
    (h : SameWord (token ++ ch :: more) other) (htoken : ∀ ch ∈ token, isTokenChar ch = true)
    (hch : isTokenChar ch = false) :
    ∃ token' ch' more', other = token' ++ ch' :: more' ∧ SameWord token token' ∧
      (∀ ch ∈ token', isTokenChar ch = true) ∧ isTokenChar ch' = false := by
  induction token generalizing other with
  | nil =>
      cases other with
      | nil => cases h
      | cons ch' more' =>
          obtain ⟨hsame, -⟩ := List.cons.inj h
          refine ⟨[], ch', more', rfl, rfl, by simp, ?_⟩
          rw [← is_token_char_tolower, ← hsame, is_token_char_tolower, hch]
  | cons first rest ih =>
      cases other with
      | nil => cases h
      | cons next back =>
          obtain ⟨hsame, hback⟩ := List.cons.inj h
          obtain ⟨token', ch', more', rfl, hword, htoken', hch'⟩ :=
            ih hback fun ch hmem ↦ htoken ch (by simp [hmem])
          refine ⟨next :: token', ch', more', rfl, congrArg₂ List.cons hsame hword, ?_, hch'⟩
          intro ch hmem
          rcases List.mem_cons.mp hmem with rfl | hmem
          · rw [← is_token_char_tolower, ← hsame, is_token_char_tolower, htoken first (by simp)]
          · exact htoken' ch hmem

/-- `getCommand` on one block after the other, until the end of the token is in the block: the
results of the calls with the positions in their blocks, and the command buffer. -/
def CmdParser.getCommandBlocks (parser : CmdParser) :
    List (List Byte) → CmdBuffer → Except Fault (List (Int × Nat) × CmdBuffer)
  | [], buf => .ok ([], buf)
  | block :: more, buf => do
      let (cmd, src, buf) ← parser.getCommand (readData block) 0 block.length buf
      if src < block.length then return ([(cmd, src)], buf)
      let (calls, buf) ← parser.getCommandBlocks more buf
      return ((cmd, src) :: calls, buf)

/-- The position of the first byte of a stream that does not belong to its token. -/
def TokenEndsAt (stream : List Byte) (position : Nat) : Prop :=
  ∃ token ch more, stream = token ++ ch :: more ∧ token.length = position ∧
    isTokenChar ch = false ∧ ∀ other ∈ token, isTokenChar other = true

/-- The calls on the blocks: the earlier ones return -1 with their block exhausted, the last one
returns the command, stops at the end of the token, and leaves the command buffer as constructed. -/
def ReadsCommand (parser : CmdParser) (stream : List Byte) (blocks : List (List Byte))
    (cmd : Int) : Prop :=
  ∃ earlier block later src, blocks = earlier ++ block :: later ∧ src < block.length ∧
    TokenEndsAt stream (earlier.flatten.length + src) ∧
    parser.getCommandBlocks blocks CmdBuffer.new =
      .ok (earlier.map (fun block ↦ (-1, block.length)) ++ [(cmd, src)], CmdBuffer.new)

/-- **The token is looked up when its end has arrived.** -/
theorem get_command_blocks (parser : CmdParser) {token more : List Byte} {ch : Byte}
    (htoken : ∀ ch ∈ token, isTokenChar ch = true) (hch : isTokenChar ch = false)
    (blocks : List (List Byte)) (hcut : blocks.flatten = token ++ ch :: more) (buf : CmdBuffer) :
    ∃ earlier block later src, blocks = earlier ++ block :: later ∧ src < block.length ∧
      earlier.flatten.length + src = token.length ∧
      parser.getCommandBlocks blocks buf =
        .ok (earlier.map (fun block ↦ (-1, block.length)) ++
          [(parser.lookup (buf.pushAll token).value, src)], CmdBuffer.new) := by
  induction blocks generalizing token buf with
  | nil => simp at hcut
  | cons block rest ih =>
      rw [List.flatten_cons] at hcut
      have hwindow := read_data_window block
      rcases split_while isTokenChar block with hall | ⟨front, next, back, rfl, hfront, hnext⟩
      · obtain ⟨behind, rfl, hbehind⟩ := split_front hcut hall hch
        have hcall := get_command_all parser buf hwindow hall
        obtain ⟨earlier, other, later, src, rfl, hsrc, hpos, hcalls⟩ :=
          ih (fun ch hmem ↦ htoken ch (by simp [hmem])) hbehind (buf.pushAll block)
        refine ⟨block :: earlier, other, later, src, rfl, hsrc, ?_, ?_⟩
        · rw [List.flatten_cons, List.length_append, List.length_append, ← hpos, Nat.add_assoc]
        · rw [Nat.zero_add] at hcall
          rw [CmdParser.getCommandBlocks, hcall]
          simp only [bind, Except.bind, Nat.lt_irrefl, if_false, hcalls, CmdBuffer.push_all_append,
            List.map_cons, List.cons_append]
          rfl
      · rw [List.append_assoc, List.cons_append] at hcut
        obtain ⟨rfl, rfl, -⟩ := split_unique hcut hfront hnext htoken hch
        have hcall := get_command_found parser buf hwindow hfront hnext
        refine ⟨[], front ++ next :: back, rest, front.length, rfl, by simp, by simp, ?_⟩
        rw [Nat.zero_add] at hcall
        rw [CmdParser.getCommandBlocks, hcall]
        simp [bind, Except.bind, pure, Except.pure]

/-- **Command parsing ignores packet boundaries and letter case.** -/
theorem command_interrupted (parser : CmdParser) (first second : List Byte)
    (hcase : SameWord first second) (hend : ∃ ch ∈ first, isTokenChar ch = false)
    (blocks blocks' : List (List Byte)) (hcut : blocks.flatten = first)
    (hcut' : blocks'.flatten = second) :
    ∃ cmd, ReadsCommand parser first blocks cmd ∧ ReadsCommand parser second blocks' cmd := by
  rcases split_while isTokenChar first with hall | ⟨token, ch, more, rfl, htoken, hch⟩
  · obtain ⟨ch, hmem, hch⟩ := hend
    exact absurd (hch.symm.trans (hall ch hmem)) (by decide)
  · obtain ⟨token', ch', more', rfl, hword, htoken', hch'⟩ := hcase.token htoken hch
    obtain ⟨earlier, block, later, src, hblocks, hsrc, hpos, hcalls⟩ :=
      get_command_blocks parser htoken hch blocks hcut CmdBuffer.new
    obtain ⟨earlier', block', later', src', hblocks', hsrc', hpos', hcalls'⟩ :=
      get_command_blocks parser htoken' hch' blocks' hcut' CmdBuffer.new
    rw [← hword.push_all] at hcalls'
    exact ⟨_, ⟨earlier, block, later, src, hblocks, hsrc,
        ⟨token, ch, more, rfl, hpos.symm, hch, htoken⟩, hcalls⟩,
      ⟨earlier', block', later', src', hblocks', hsrc',
        ⟨token', ch', more', rfl, hpos'.symm, hch', htoken'⟩, hcalls'⟩⟩

/-- The command `echo` in two cases and two ways of cutting. -/
theorem command_interrupted_echo :
    ∃ cmd, ReadsCommand ⟨[0, 1], by decide⟩ (text "echo\n") [text "ec", [], text "ho\n"] cmd ∧
      ReadsCommand ⟨[0, 1], by decide⟩ (text "eChO\n") [text "eChO", text "\n"] cmd :=
  command_interrupted ⟨[0, 1], by decide⟩ (text "echo\n") (text "eChO\n") (by decide +kernel)
    (by decide +kernel) [text "ec", [], text "ho\n"] [text "eChO", text "\n"]
    (by decide +kernel) (by decide +kernel)

end Smerp.Protocol
