import Smerp.Mtproc.Sessions

/-!
# Reply lines

`WriteLine` counts the bytes to send from the start of the string that it has pushed last: a line
with an argument is sent without its last characters, whatever its length is, and a string that is
too long for the line buffer is sent with memory behind the buffer. `lines_complete_iff` says when
the bytes sent are those that they should be.
-/

namespace Smerp.Mtproc

open Lib Protocol Network

variable {δ γ : Type}

/-- The line of a string and an argument. -/
def replyLine (str : List Byte) (arg : Option (List Byte)) : List Byte :=
  str ++ arg.elim [] (fun arg ↦ SPACE :: arg) ++ CRLF

/-- The length of a line. -/
theorem reply_line_length (str : List Byte) (arg : Option (List Byte)) :
    (replyLine str arg).length = str.length + arg.elim 0 (fun arg ↦ arg.length + 1) + 2 := by
  cases arg <;> simp [replyLine, CRLF, Nat.add_assoc]

/-- The bytes of an operation that writes. -/
def written : Operation → List Byte
  | .write bytes _ => bytes
  | _ => []

namespace Conn

/-- `WriteLine` sends the line if it fits into the line buffer, and never more bytes than the line
buffer has stored of it. -/
def WritesLine (W : World δ γ) (c : Conn δ γ) (str : List Byte) (arg : Option (List Byte)) : Prop :=
  if (replyLine str arg).length ≤ 128 then (c.writeLine W str arg).2 = .write (replyLine str arg) 0
  else (written (c.writeLine W str arg).2).length ≤ 128

/-- What `WriteLine` sends: the front of the line that has been stored, a zero, and what follows in
the memory. -/
theorem write_line_sends (W : World δ γ) (c : Conn δ γ) (str : List Byte)
    (arg : Option (List Byte)) :
    ∃ behind, behind.length = 128 - (replyLine str arg).length ∧ (c.writeLine W str arg).2 =
      .write (((replyLine str arg).take 128 ++ 0 :: behind ++ W.behind).take
        (lineLength str arg)) 0 := by
  obtain ⟨behind, hbehind⟩ := ((replyLine str arg).foldl Buffer.pushBack c.buffer.init).memory_c_str
  have hlen := ((replyLine str arg).foldl Buffer.pushBack c.buffer.init).cStr.length_eq
  rw [Buffer.content_push_all_take] at hbehind
  rw [hbehind, List.length_append, List.length_take, List.length_cons] at hlen
  refine ⟨behind, by omega, ?_⟩
  rw [← hbehind]
  rfl

/-- The number of bytes sent: the count, or all that there are. -/
theorem written_length (W : World δ γ) (c : Conn δ γ) (str : List Byte)
    (arg : Option (List Byte)) : (written (c.writeLine W str arg).2).length =
      min (lineLength str arg) (129 + W.behind.length) := by
  obtain ⟨behind, hlen, hsent⟩ := c.write_line_sends W str arg
  rw [hsent, written, List.length_take, List.length_append, List.length_append, List.length_take,
    List.length_cons, hlen]
  omega

/-- With an argument no more bytes are sent than it has, and two. -/
theorem sent_with_argument_le (W : World δ γ) (c : Conn δ γ) {str arg bytes : List Byte}
    (h : (c.writeLine W str (some arg)).2 = .write bytes 0) : bytes.length ≤ arg.length + 2 := by
  have hlen := c.written_length W str (some arg)
  rw [h, written, lineLength] at hlen
  omega

/-- A line without argument is sent as a whole if it fits. -/
theorem line_without_argument (W : World δ γ) (c : Conn δ γ) {str : List Byte}
    (hfits : (replyLine str none).length ≤ 128) :
    (c.writeLine W str none).2 = .write (replyLine str none) 0 := by
  obtain ⟨behind, -, hsent⟩ := c.write_line_sends W str none
  have hcount : lineLength str none = (replyLine str none).length := by
    rw [reply_line_length]
    rfl
  rw [hsent, List.take_of_length_le hfits, hcount, List.append_assoc, List.take_left']
  rfl

end Conn

/-- The complete reply to `caps`. -/
def capsLine (mt : List (Method δ γ)) : List Byte :=
  text "OK " ++ (text ", ").intercalate (mt.map Method.name) ++ CRLF

/-- What the reply for an error of a method has to carry, in this order. -/
def errorParts (returnCode : Int) : List Byte :=
  text "ERR" ++ text (toString returnCode) ++ CRLF

/-- **Reply lines are complete** exactly without an argument when they fit; and what does not fit is
not read past exactly with an argument of at most 126 characters. The reply to `caps` is never
complete, and no reply with an error code carries all its parts. -/
theorem lines_complete_iff (W : World δ γ) (c : Conn δ γ) :
    (∀ str arg, c.WritesLine W str arg ↔ match arg with
      | none => str.length + 2 ≤ 128
      | some arg => arg.length + 2 ≤ 128 ∧ 128 < str.length + 1 + arg.length + 2) ∧
    (∀ next, (c.reply W next (text "OK") (some (c.commandDispatcher.getCaps W.mt).1)).2 ≠
      some (.write (capsLine W.mt) 0)) ∧
    ∀ next returnCode bytes,
      (c.reply W next (text "\r\n.\r\nERR") (some (text (toString returnCode)))).2 =
        some (.write bytes 0) → ¬ (errorParts returnCode).Sublist bytes := by
  refine ⟨?_, ?_, ?_⟩
  · intro str arg
    have hlen := c.written_length W str arg
    have hline := reply_line_length str arg
    rw [Conn.WritesLine]
    cases arg with
    | none =>
        rw [Option.elim_none] at hline
        rw [Conn.lineLength] at hlen
        split_ifs with hfits
        · exact iff_of_true (c.line_without_argument W hfits) (by omega)
        · exact iff_of_false (by omega) (by omega)
    | some arg =>
        rw [Option.elim_some] at hline
        rw [Conn.lineLength] at hlen
        split_ifs with hfits
        · refine iff_of_false ?_ (by omega)
          intro h
          have hsent := c.sent_with_argument_le W h
          omega
        · constructor <;> intro h <;> omega
  · intro next h
    have hsent := Conn.sent_with_argument_le W _ (Option.some.inj h)
    have hcaps : (c.commandDispatcher.getCaps W.mt).1 =
        ((text ", ").intercalate (W.mt.map Method.name)).take 256 :=
      Buffer.content_push_all_take _ _
    rw [hcaps, capsLine, List.length_append, List.length_append, List.length_take] at hsent
    have hok : (text "OK ").length = 3 := rfl
    have hcrlf : CRLF.length = 2 := rfl
    omega
  · intro next returnCode bytes h hcarries
    have hsent := Conn.sent_with_argument_le W _ (Option.some.inj h)
    have hparts := hcarries.length_le
    rw [errorParts, List.length_append, List.length_append] at hparts
    have herr : (text "ERR").length = 3 := rfl
    have hcrlf : CRLF.length = 2 := rfl
    omega

/-- **A line with an argument is cut**: of `OK login` and its line end `OK logi` is sent. -/
theorem not_lines_complete : ¬ ∀ (W : World Unit Unit) (c : Conn Unit Unit) (str : List Byte)
    (arg : Option (List Byte)), c.WritesLine W str arg := by
  intro h
  have hline := h echoWorld echoHandler (text "OK") (some (text "login"))
  have hsent : (echoHandler.writeLine echoWorld (text "OK") (some (text "login"))).2 =
      .write (text "OK logi") 0 := by decide +kernel
  rw [Conn.WritesLine, if_pos (by decide +kernel), hsent] at hline
  revert hline
  decide +kernel

end Smerp.Mtproc
