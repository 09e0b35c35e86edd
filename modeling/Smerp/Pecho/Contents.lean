import Smerp.Pecho.ByteMachine

/-!
# The data of an echo command

A content is a list of lines, none of which is the line that ends the data. The scan for the end of
the data keeps it without the leading dots of its lines, and what is kept is printed to the output
block and sent in pieces.
-/

namespace Smerp.Pecho

open Lib Protocol Network Conn ByteMachine

/-! ## The command words -/

/-- `echo` is a token. -/
theorem echo_token : ∀ ch ∈ text "echo", isTokenChar ch = true := List.all_eq_true.mp (by decide)

/-- The token `echo` is recognised. -/
theorem echo_command :
    Command.ofIndex (commandParser.lookup (CmdBuffer.new.pushAll (text "echo")).value) =
      some .echo := by
  decide

/-- `quit` is a token. -/
theorem quit_token : ∀ ch ∈ text "quit", isTokenChar ch = true := List.all_eq_true.mp (by decide)

/-- The token `quit` is recognised. -/
theorem quit_command :
    Command.ofIndex (commandParser.lookup (CmdBuffer.new.pushAll (text "quit")).value) =
      some .quit := by
  decide

/-! ## Contents -/

/-- A line of a content: no line feed inside of it, and no dot followed by a carriage return at its
start. -/
def IsLine (line : List Byte) : Prop := LF ∉ line ∧ ¬ [DOT, CR] <+: line ++ CRLF

instance (line : List Byte) : Decidable (IsLine line) := inferInstanceAs (Decidable (_ ∧ _))

/-- The bytes of a content. -/
def content (lines : List (List Byte)) : List Byte := lines.flatMap (· ++ CRLF)

/-- A line without its leading dot. -/
def withoutDot (line : List Byte) : List Byte := if line.head? = some DOT then line.tail else line

/-- The bytes of a content without the leading dot of each line. -/
def withoutDots (lines : List (List Byte)) : List Byte := lines.flatMap (withoutDot · ++ CRLF)

/-- A line is kept up to its end, when it is scanned from inside of it. -/
theorem scan_src_line {line : List Byte} (h : LF ∉ line) (back : List Byte) :
    EoD.scan .src (line ++ CRLF ++ back) = (EoD.scan .lf back).prepend (line ++ CRLF) := by
  have hcr : LF ∉ line ++ [CR] := by simp [h, show LF ≠ CR by decide]
  have hsplit : line ++ CRLF ++ back = (line ++ [CR]) ++ LF :: back := by simp [CRLF]
  rw [hsplit, EoD.scan_src_of_not_mem hcr]
  simp [EoD.scan, CRLF]

/-- A line is kept without its leading dot. -/
theorem scan_line {line : List Byte} (h : IsLine line) (back : List Byte) :
    EoD.scan .lf (line ++ CRLF ++ back) =
      (EoD.scan .lf back).prepend (withoutDot line ++ CRLF) := by
  obtain ⟨hlf, hdot⟩ := h
  cases line with
  | nil =>
      simp [EoD.scan, CRLF, withoutDot, show CR ≠ DOT by decide]
  | cons ch rest =>
      simp only [List.mem_cons, not_or] at hlf
      have hrest := scan_src_line hlf.2 back
      by_cases hch : ch = DOT
      · subst hch
        -- behind the dot that is dropped the line goes on with neither CR nor LF
        obtain ⟨next, more, hnext⟩ : ∃ next more, rest ++ CRLF = next :: more := by
          cases rest with
          | nil => exact ⟨CR, [LF], rfl⟩
          | cons next rest => exact ⟨next, rest ++ CRLF, rfl⟩
        have hcr : next ≠ CR := by
          rintro rfl
          exact hdot ⟨more, by simp [hnext]⟩
        have hlf' : next ≠ LF := by
          rintro rfl
          cases rest with
          | nil => simp [CRLF, show CR ≠ LF by decide] at hnext
          | cons first rest =>
              obtain ⟨rfl, -⟩ : first = LF ∧ _ := by simpa using hnext
              simp at hlf
        rw [hnext, List.cons_append] at hrest
        have hsame : EoD.scan .lf (DOT :: (next :: (more ++ back))) =
            EoD.scan .src (next :: (more ++ back)) := by
          simp [EoD.scan, hcr, hlf']
        rw [List.cons_append, List.cons_append, hnext, List.cons_append, hsame, hrest, withoutDot]
        simp [hnext]
      · have hkept : EoD.scan .lf (ch :: (rest ++ CRLF ++ back)) =
            (EoD.scan .src (rest ++ CRLF ++ back)).prepend [ch] := by
          simp [EoD.scan, hch]
        rw [List.cons_append, List.cons_append, hkept, hrest, withoutDot]
        simp [hch]

/-- A content is kept without the leading dots of its lines. -/
theorem scan_content {lines : List (List Byte)} (h : ∀ line ∈ lines, IsLine line)
    (back : List Byte) :
    EoD.scan .lf (content lines ++ back) = (EoD.scan .lf back).prepend (withoutDots lines) := by
  induction lines with
  | nil => simp [content, withoutDots]
  | cons line rest ih =>
      have hsplit : content (line :: rest) ++ back = line ++ CRLF ++ (content rest ++ back) := by
        simp [content]
      rw [hsplit, scan_line (h line (by simp)), ih fun other hother ↦ h other (by simp [hother])]
      simp [withoutDots]

/-- The data of an echo from the end of its command line to the byte that completes the mark. -/
def echoData (lines : List (List Byte)) : List Byte := CRLF ++ content lines ++ [DOT, CR]

/-- What is echoed, but for the mode. -/
def echoed (lines : List (List Byte)) : List Byte := CRLF ++ withoutDots lines

/-- The scan of the data of an echo. -/
theorem scan_echo_data {lines : List (List Byte)} (h : ∀ line ∈ lines, IsLine line) :
    EoD.scan .src (echoData lines) = .marked (echoed lines) CR [] := by
  have hnone : LF ∉ ([] : List Byte) := by simp
  have hstart := scan_src_line hnone (content lines ++ [DOT, CR])
  rw [List.nil_append, scan_content h] at hstart
  rw [echoData, List.append_assoc, hstart]
  simp [EoD.scan, echoed]

/-! ## Printing -/

/-- What is sent and what is left unsent are together what was unsent and what is printed. -/
theorem push_all_bytes (room : Nat) (mode : Mode) (out chars : List Byte) :
    (pushAll room mode out chars).2.flatMap Sent.message ++ (pushAll room mode out chars).1 =
      out ++ chars.map (convert mode) := by
  induction chars generalizing out with
  | nil => simp [pushAll]
  | cons ch rest ih =>
      have hpush :
        (pushOut room mode out ch).2.flatMap Sent.message ++ (pushOut room mode out ch).1 =
          out ++ [convert mode ch] := by
        unfold pushOut
        split <;> simp
      have hrest := ih (pushOut room mode out ch).1
      unfold pushAll at hrest ⊢
      rw [Transducer.feed_cons, List.flatMap_append, List.append_assoc, hrest, ← List.append_assoc,
        hpush]
      simp

/-- Only full outputs are sent. -/
theorem push_all_states {room : Nat} {mode : Mode} {out chars : List Byte} {message : Sent}
    (h : message ∈ (pushAll room mode out chars).2) : message.state = .processingAfterWrite := by
  induction chars generalizing out with
  | nil => simp [pushAll] at h
  | cons ch rest ih =>
      unfold pushAll at h ih
      rw [Transducer.feed_cons, List.mem_append] at h
      rcases h with hnow | hlater
      · unfold pushOut at hnow
        split at hnow
        · rw [List.mem_singleton.mp hnow]
        · simp at hnow
      · exact ih hlater

/-- Behind a character that was printed something is unsent. -/
theorem push_all_ne_nil {room : Nat} {mode : Mode} {out chars : List Byte} (h : chars ≠ []) :
    (pushAll room mode out chars).1 ≠ [] := by
  induction chars generalizing out with
  | nil => exact absurd rfl h
  | cons ch rest ih =>
      unfold pushAll at ih ⊢
      rw [Transducer.feed_cons]
      cases rest with
      | nil =>
          show (pushOut room mode out ch).1 ≠ []
          unfold pushOut
          split <;> simp
      | cons next more => exact ih (by simp)

/-- Without a mode characters are printed as they are. -/
theorem convert_ident (ch : Byte) : convert .ident ch = ch := by
  unfold convert
  split <;> rfl

/-! ## The data of an echo -/

section

variable {room : Nat} {mode : Mode} {out : List Byte} {lines : List (List Byte)}

/-- What is sent for the data of an echo: full outputs, and the rest at the end of the data. -/
def echoMessages (room : Nat) (mode : Mode) (out : List Byte) (lines : List (List Byte)) :
    List Sent :=
  (pushAll room mode out (echoed lines)).2 ++ lastData (pushAll room mode out (echoed lines)).1

/-- Nothing of the data gets lost. -/
theorem echo_messages_bytes : (echoMessages room mode out lines).flatMap Sent.message =
    out ++ (echoed lines).map (convert mode) := by
  have hlast : (lastData (pushAll room mode out (echoed lines)).1).flatMap Sent.message =
      (pushAll room mode out (echoed lines)).1 := by
    unfold lastData
    split <;> simp_all
  rw [echoMessages, List.flatMap_append, hlast]
  exact push_all_bytes room mode out (echoed lines)

/-- The data is sent in neither of the states that replies leave behind. -/
theorem echo_messages_states {message : Sent} (h : message ∈ echoMessages room mode out lines) :
    message.state ≠ .processing ∧ message.state ≠ .enterCommand := by
  unfold echoMessages at h
  rcases List.mem_append.mp h with hfull | hlast
  · simp [push_all_states hfull]
  · unfold lastData at hlast
    split at hlast
    · simp at hlast
    · simp [List.mem_singleton.mp hlast]

/-- The data of an echo is printed behind what was unsent, and the byte that completes the mark is
read as a command. -/
theorem forecast_echo_data (h : ∀ line ∈ lines, IsLine line) (back : List Byte) :
    forecast room (.processing mode .src) out (echoData lines ++ back) =
      (forecast room .emptyLineCr (pushAll room mode out (echoed lines)).1 back).after
        (echoMessages room mode out lines ++ [greet]) := by
  have hscan : EoD.scan .src (echoData lines) =
      (EoD.Scan.marked [] CR []).prepend (echoed lines) := by
    simpa using scan_echo_data h
  obtain ⟨phase', raw', hresult, hforecast⟩ := forecast_data hscan
  have hend (out : List Byte) : forecast room (.command .new) out (CR :: back) =
      forecast room .emptyLineCr out back :=
    forecast_pass rfl back
  rw [hforecast, forecast_mark hresult, List.singleton_append, hend, Forecast.after_after,
    echoMessages, List.append_assoc]

end

end Smerp.Pecho
