import Smerp.Pecho.Contents
import Smerp.Pecho.OneByte

/-!
# Sessions of echo commands

Echo commands follow each other in a session, which is delivered byte by byte. The bytes that are
printed but not sent survive the end of the data, and the next echo sends them again
(`echoes_independent`).
-/

namespace Smerp.Pecho

open Lib Protocol Network Conn ByteMachine Relation

/-! ## Echoes -/

section

variable {room : Nat} {out : List Byte}

/-- The line end behind `echo` starts the data. -/
theorem delta_echo_start : delta room ⟨.command (CmdBuffer.new.pushAll (text "echo")), out⟩ CR =
    (delta room ⟨.processing .ident .src, out⟩ CR).after [line .processing "OK enter data"] := by
  have hmode : Mode.ofIndex (modeParser.lookup CmdBuffer.new.value) = some .ident := by decide
  have htoken : isTokenChar CR = false := by decide
  have hblank : isBlank CR = false := by decide
  have hline : isLineEnd CR = true := by decide
  simp only [delta, htoken, onCommandEnd, echo_command, onMode, hblank, onArgument, hmode,
    onStart, hline,
    if_true, if_false, Bool.false_eq_true]

/-- An echo: the reply, the data behind what was unsent, and the greeting. -/
theorem forecast_echo {lines : List (List Byte)} (h : ∀ line ∈ lines, IsLine line)
    (back : List Byte) :
    forecast room (.command .new) out (text "echo" ++ echoData lines ++ back) =
      (forecast room .emptyLineCr (pushAll room .ident out (echoed lines)).1 back).after
        (line .processing "OK enter data" :: (echoMessages room .ident out lines ++ [greet])) := by
  have hdata : echoData lines = CR :: (LF :: (content lines ++ [DOT, CR])) := by
    simp [echoData, CRLF]
  have hstart : forecast room (.command (CmdBuffer.new.pushAll (text "echo"))) out
      (echoData lines ++ back) =
        (forecast room (.processing .ident .src) out (echoData lines ++ back)).after
          [line .processing "OK enter data"] := by
    rw [hdata, List.cons_append]
    exact forecast_react delta_echo_start _
  rw [List.append_assoc, forecast_token echo_token, hstart, forecast_echo_data h,
    Forecast.after_after]
  rfl

/-- The bytes of a command on their own. -/
theorem feed_command {token : List Byte} (h : ∀ ch ∈ token, isTokenChar ch = true) :
    (Transducer.feed (delta room) ⟨.command .new, out⟩ token).1 =
      ⟨.command (CmdBuffer.new.pushAll token), out⟩ := by
  have hforecast : forecast room (.command .new) out (token ++ []) =
      forecast room (.command (CmdBuffer.new.pushAll token)) out [] := forecast_token h []
  rw [List.append_nil] at hforecast
  exact congrArg Prod.fst hforecast

/-- A session of echoes: each with its content, and `quit` behind them. -/
def session : List (List (List Byte)) → List Byte
  | [] => text "quit" ++ CRLF
  | lines :: more =>
      text "echo" ++ CRLF ++ content lines ++ [DOT] ++ CRLF ++ session more

theorem session_cons (lines : List (List Byte)) (more : List (List (List Byte))) :
    session (lines :: more) = text "echo" ++ echoData lines ++ LF :: session more := by
  simp [session, echoData, CRLF]

/-- The bytes sent from each reply to an `echo` to the greeting that follows. -/
def echoes : List Sent → List (List Byte)
  | [] => []
  | message :: rest =>
      if message = line .processing "OK enter data" then
        (rest.takeWhile (· ≠ greet)).flatMap Sent.message :: echoes rest
      else echoes rest

/-- Messages that start no echo. -/
theorem echoes_skip {front : List Sent} (h : line .processing "OK enter data" ∉ front)
    (rest : List Sent) : echoes (front ++ rest) = echoes rest := by
  induction front with
  | nil => rfl
  | cons message front ih =>
      simp only [List.mem_cons, not_or] at h
      rw [List.cons_append, echoes, if_neg (Ne.symm h.1), ih h.2]

/-- One echo. -/
theorem echoes_cons {data : List Sent} (h : ∀ message ∈ data, message.state ≠ .processing ∧
    message.state ≠ .enterCommand) (rest : List Sent) :
    echoes (line .processing "OK enter data" :: (data ++ greet :: rest)) =
      data.flatMap Sent.message :: echoes rest := by
  have hstart : line .processing "OK enter data" ∉ data ++ [greet] := by
    intro hmem
    rcases List.mem_append.mp hmem with hdata | hgreet
    · exact (h _ hdata).1 rfl
    · simp [line, greet] at hgreet
  have hstop : (data ++ greet :: rest).takeWhile (· ≠ greet) = data := by
    rw [List.takeWhile_append_of_pos, List.takeWhile_cons_of_neg (by simp), List.append_nil]
    intro message hmem
    have hne : message ≠ greet := by
      rintro rfl
      exact (h _ hmem).2 rfl
    simpa using hne
  have hskip := echoes_skip hstart rest
  rw [List.append_assoc, List.singleton_append] at hskip
  rw [echoes, if_pos rfl, hstop, hskip]

/-- What the handler sends for the echoes of a session: each echo comes behind what the one before
it has left unsent. -/
def carried (room : Nat) : List Byte → List (List (List Byte)) → List (List Byte)
  | _, [] => []
  | out, lines :: more =>
      (out ++ echoed lines) :: carried room (pushAll room .ident out (echoed lines)).1 more

/-- **The messages of a session**: the echoes are those of `carried`, and `quit` ends them. -/
theorem forecast_session (room : Nat) (out : List Byte) {contents : List (List (List Byte))}
    (h : ∀ lines ∈ contents, ∀ line ∈ lines, IsLine line) :
    (forecast room (.command .new) out (session contents)).1.ctrl = .terminate ∧
      echoes (forecast room (.command .new) out (session contents)).2 =
        carried room out contents := by
  induction contents generalizing out with
  | nil =>
      rw [session, forecast_token quit_token, CRLF, forecast_command_end _ (by decide),
        quit_command]
      exact ⟨rfl, rfl⟩
  | cons lines more ih =>
      obtain ⟨hctrl, hechoes⟩ := ih (pushAll room .ident out (echoed lines)).1
        fun other hother ↦ h other (by simp [hother])
      have hline : forecast room .emptyLineCr (pushAll room .ident out (echoed lines)).1
          (LF :: session more) =
            forecast room (.command .new) (pushAll room .ident out (echoed lines)).1
              (session more) :=
        forecast_pass rfl _
      rw [session_cons, forecast_echo (h lines (by simp)), hline]
      refine ⟨hctrl, ?_⟩
      have hbytes : (echoMessages room .ident out lines).flatMap Sent.message =
          out ++ echoed lines := by
        rw [echo_messages_bytes, funext convert_ident, List.map_id']
      rw [Forecast.after, List.cons_append, List.append_assoc, List.singleton_append,
        echoes_cons fun _ ↦ echo_messages_states, hbytes, hechoes, carried]

/-! ## Sessions byte by byte -/

/-- The bytes of a command are gentle. -/
theorem gentle_command {buf : CmdBuffer} {token : List Byte}
    (h : ∀ ch ∈ token, isTokenChar ch = true) : Gentle room ⟨.command buf, out⟩ token := by
  induction token generalizing buf with
  | nil => trivial
  | cons ch rest ih =>
      have hdelta : delta room ⟨.command buf, out⟩ ch =
        (⟨.command (buf.pushBack ch), out⟩, []) := by
        simp [delta, h ch (by simp)]
      refine ⟨by simp, by simp, by simp [hdelta], ?_⟩
      rw [hdelta]
      exact ih fun other hother ↦ h other (by simp [hother])

/-- The bytes of the data are gentle, up to the one that completes the mark. -/
theorem gentle_data {mode : Mode} {phase : EoD.Phase} {raw kept : List Byte} {terminator : Byte}
    (h : EoD.scan phase raw = .marked kept terminator []) :
    Gentle room ⟨.processing mode phase, out⟩ raw := by
  induction raw generalizing phase kept out with
  | nil => trivial
  | cons ch rest ih =>
      refine ⟨by simp, by simp, ?_⟩
      rcases EoD.scan_cons phase ch rest with ⟨hscan, rfl, hstep⟩ | ⟨front, hscan, hstep, hshort, -⟩
      · -- the mark, behind which nothing is left
        obtain ⟨-, rfl, hrest⟩ : _ ∧ ch = terminator ∧ rest = [] :=
          by simpa using hscan.symm.trans h
        subst hrest
        refine ⟨?_, trivial⟩
        rcases scan_terminator h with rfl | rfl <;> simp [delta, onData, EoD.step, onEmptyLine,
          Forecast.after, isBlank, CR, LF, SPACE, TAB]
      · rw [hscan] at h
        have hnext : ∃ kept', EoD.scan (EoD.step phase ch).1 rest =
          .marked kept' terminator [] := by
          cases hrest : EoD.scan (EoD.step phase ch).1 rest with
          | unmarked => simp [hrest] at h
          | marked kept' _ _ =>
              rw [hrest, EoD.Scan.prepend] at h
              cases h
              exact ⟨kept', rfl⟩
        obtain ⟨kept', hrest⟩ := hnext
        rcases front with _ | ⟨first, _ | ⟨_, _⟩⟩
        · rw [delta_data_drop (Prod.ext rfl hstep)]
          exact ⟨by simp, ih hrest⟩
        · rw [delta_data_keep (Prod.ext rfl hstep)]
          exact ⟨by simp, ih hrest⟩
        · simp at hshort

/-- An echo is gentle. -/
theorem gentle_echo {lines : List (List Byte)} (h : ∀ line ∈ lines, IsLine line) :
    Gentle room ⟨.command .new, out⟩ (text "echo" ++ echoData lines) := by
  have hdata : echoData lines = CR :: (LF :: (content lines ++ [DOT, CR])) := by
    simp [echoData, CRLF]
  refine gentle_append.mpr ⟨gentle_command echo_token, ?_⟩
  obtain ⟨-, -, hclear, hrest⟩ : Gentle room ⟨.processing .ident .src, out⟩
      (CR :: (LF :: (content lines ++ [DOT, CR]))) := hdata ▸ gentle_data (scan_echo_data h)
  rw [feed_command echo_token, hdata]
  refine ⟨by simp, by simp, ?_, ?_⟩
  · rw [delta_echo_start]
    exact hclear
  · rw [delta_echo_start]
    exact hrest

/-- A session of echoes is gentle. -/
theorem gentle_session (out : List Byte) {contents : List (List (List Byte))}
    (h : ∀ lines ∈ contents, ∀ line ∈ lines, IsLine line) :
    Gentle room ⟨.command .new, out⟩ (session contents) := by
  induction contents generalizing out with
  | nil =>
      have hend : delta room ⟨.command (CmdBuffer.new.pushAll (text "quit")), out⟩ CR =
          (⟨.terminate, out⟩, [line .terminate "BYE"]) := by
        simp only [delta, show isTokenChar CR = false by decide, onCommandEnd, quit_command,
          Bool.false_eq_true, if_false]
      refine gentle_append.mpr ⟨gentle_command quit_token, ?_⟩
      rw [feed_command quit_token, CRLF]
      refine ⟨by simp, by simp, by simp [hend], ?_⟩
      rw [hend]
      exact ⟨by simp, by simp, by simp [delta], trivial⟩
  | cons lines more ih =>
      have hlines := h lines (by simp)
      have hstate : (Transducer.feed (delta room) ⟨.command .new, out⟩
          (text "echo" ++ echoData lines)).1 =
            ⟨.emptyLineCr, (pushAll room .ident out (echoed lines)).1⟩ := by
        have hforecast :
          forecast room (.command .new) out (text "echo" ++ echoData lines ++ []) = _ :=
          forecast_echo hlines []
        rw [List.append_nil] at hforecast
        exact congrArg Prod.fst hforecast
      rw [session_cons]
      refine gentle_append.mpr ⟨gentle_echo hlines, ?_⟩
      rw [hstate]
      exact ⟨fun _ ↦ by decide, by simp, by simp [delta],
        ih _ fun other hother ↦ h other (by simp [hother])⟩

/-- A session delivered byte by byte ends, and its messages are those of the machine. -/
theorem session_settles (inputMemory outputMemory : List Byte) (buffer : Buffer 128)
    (hin : inputMemory.length = 1) (hout : 0 < outputMemory.length)
    (contents : List (List (List Byte))) (h : ∀ lines ∈ contents, ∀ line ∈ lines, IsLine line) :
    ∃ turns, ∀ later, turns ≤ later →
      echoes (Session.delivered (.new inputMemory outputMemory buffer)
        ((session contents).map ([·])) later).sent = carried outputMemory.length [] contents := by
  have hstream : ((session contents).map ([·])).flatten = session contents := by
    rw [← List.flatMap_def, List.flatMap_singleton']
  have hchunks : ∀ chunk ∈ (session contents).map ([·]),
      1 ≤ chunk.length ∧ chunk.length ≤ inputMemory.length := by
    intro chunk hchunk
    obtain ⟨ch, -, rfl⟩ := List.mem_map.mp hchunk
    simp [hin]
  have hclean : CleanDelivery (Conn.new inputMemory outputMemory buffer)
      ((session contents).map ([·])) :=
    clean_of_gentle hin hout (gentle_session [] h)
  have hsame := delivered_as_foreseen (by omega) hout hchunks hclean
  rw [hstream] at hsame
  obtain ⟨hctrl, hechoes⟩ := forecast_session outputMemory.length [] h
  have hspell (count : Nat) : (foreseen outputMemory.length (session contents)).spell count =
      (foreseen outputMemory.length (session contents)).2 := by
    have hclear : (foreseen outputMemory.length (session contents)).1.ctrl ≠ .poisoned := by
      show (forecast outputMemory.length (.command .new) [] (session contents)).1.ctrl ≠ _
      simp [hctrl]
    rw [Forecast.spell, if_neg hclear, List.append_nil]
  obtain ⟨turns, hall⟩ := hsame.2 0
  refine ⟨turns, ?_⟩
  intro later hlater
  obtain ⟨count, hbound⟩ := hsame.1 later
  rw [hspell] at hall hbound
  have hgrown : _ <+: (Session.delivered (.new inputMemory outputMemory buffer)
      ((session contents).map ([·])) later).sent :=
    hall.trans (Logs.grows (Session.delivered_sent _ _) hlater)
  have hsent : (Session.delivered (.new inputMemory outputMemory buffer)
      ((session contents).map ([·])) later).sent = _ :=
    hbound.eq_of_length (Nat.le_antisymm hbound.length_le hgrown.length_le)
  rw [hsent]
  have hgreet : line .processing "OK enter data" ∉ [greet] := by simp [line, greet]
  exact (echoes_skip hgreet _).trans hechoes

end

/-! ## A session without an echo -/

/-- A session on its way through the line `quit`: in front of the greeting, in the command with this
token still to come, or behind it. -/
inductive Quits : Session × List (List Byte) → Prop
  | init (s : Session) (chunks : List (List Byte)) (hpending : s.pending = none)
      (hstate : s.conn.state = .init)
      (hcoming : s.conn.rest ++ chunks.flatten = text "quit" ++ CRLF) : Quits (s, chunks)
  | enterCommand (s : Session) (chunks : List (List Byte)) (token : List Byte)
      (hstate : s.conn.state = .enterCommand) (htoken : ∀ ch ∈ token, isTokenChar ch = true)
      (hquit : Command.ofIndex (commandParser.lookup (s.conn.cmdBuffer.pushAll token).value) =
        some .quit)
      (hcoming : (if s.pending = none then s.conn.rest else []) ++ chunks.flatten = token ++ CRLF) :
      Quits (s, chunks)
  | terminate (s : Session) (chunks : List (List Byte)) (hstate : s.conn.state = .terminate) :
      Quits (s, chunks)

/-- What holds on this way: no echo was sent. -/
structure QuitsSilently (config : Session × List (List Byte)) : Prop where
  ok : config.1.Ok
  chunks : ∀ chunk ∈ config.2, 1 ≤ chunk.length ∧ chunk.length ≤ config.1.conn.input.size
  quits : Quits config
  silent : ∀ message ∈ config.1.sent, message.state ≠ .processing

namespace QuitsSilently

variable {s : Session} {chunks : List (List Byte)}

/-- A call from here on sends no echo either. -/
theorem called {next : Conn} {op : Operation} (h : QuitsSilently (s, chunks))
    (hcall : s.Callable) (hnext : s.conn.nextOperation = .ok (next, op))
    (hquits : Quits (s.called next op, chunks)) (hstate : next.state ≠ .processing) :
    QuitsSilently (s.called next op, chunks) := by
  obtain ⟨hok, hsize⟩ := h.ok.step (.call s next op hcall hnext)
  refine ⟨hok, ?_, hquits, ?_⟩
  · intro chunk hchunk
    exact (h.chunks chunk hchunk).imp_right fun hle ↦ hle.trans hsize.symm.le
  · intro message hmessage
    rcases List.mem_append.mp hmessage with hbefore | hnow
    · exact h.silent message hbefore
    · cases op with
      | write data timeout =>
          obtain rfl := List.mem_singleton.mp hnow
          exact hstate
      | read | close => cases hnow

/-- An answer to a `READ` sends nothing. -/
theorem fed {size : Nat} {chunk : List Byte} {more : List (List Byte)}
    (h : QuitsSilently (s, chunk :: more)) (hpending : s.pending = some size)
    (hquits : Quits (s.fed chunk, more)) : QuitsSilently (s.fed chunk, more) := by
  obtain ⟨hpos, hle⟩ := h.chunks chunk (by simp)
  obtain ⟨hok, hsize⟩ := h.ok.step
    (.input s size chunk hpending hpos (h.ok.requested size hpending ▸ hle))
  refine ⟨hok, ?_, hquits, h.silent⟩
  intro other hother
  exact (h.chunks other (by simp [hother])).imp_right fun hle ↦ hle.trans hsize.symm.le

/-- The pass that greets, or that reads on in the command. -/
theorem pass (h : QuitsSilently (s, chunks)) (hpending : s.pending = none) {next : Conn}
    {op : Option Operation} (hout : Outcome s.conn next op) (hstate : s.conn.state ≠ .terminate) :
    ∃ done, op = some done ∧ Quits (s.called next done, chunks) ∧ next.state ≠ .processing := by
  cases h.quits with
  | init _ _ _ hinit hcoming =>
      have hready := (h.ok.conn.resolve_left hstate).1 hpending
      have hbuffer := hready.token (by simp [hinit]) (by simp [hinit])
      cases hout with
      | greet =>
          refine ⟨_, rfl, .enterCommand _ _ (text "quit") rfl quit_token ?_ ?_, by simp [replied]⟩
          · show Command.ofIndex (commandParser.lookup (s.conn.cmdBuffer.pushAll _).value) = _
            rw [hbuffer]
            exact quit_command
          · show (if s.pending = none then s.conn.rest else []) ++ chunks.flatten = _
            rw [if_pos hpending, hcoming]
      | _ => exact absurd (hinit.symm.trans ‹s.conn.state = _›) (by decide)
  | enterCommand _ _ token hcommand htoken hquit hcoming =>
      have hcr : isTokenChar CR = false := by decide
      rw [if_pos hpending] at hcoming
      cases hout with
      | commandRead _ hall =>
          obtain ⟨token', rfl, hlater⟩ := split_front hcoming hall hcr
          refine ⟨_, rfl, .enterCommand _ _ token' hcommand
            (fun ch hch ↦ htoken ch (by simp [hch])) ?_ ?_, by simp [drained, hcommand]⟩
          · rw [CmdBuffer.push_all_append] at hquit
            exact hquit
          · exact hlater
      | commandEnd token' ch more _ hrest htoken' hch _ _ hreaction =>
          rw [hrest, List.append_assoc] at hcoming
          obtain ⟨rfl, -, -⟩ := split_unique hcoming htoken' hch htoken hcr
          rw [hquit] at hreaction
          cases hreaction
          exact ⟨_, rfl, .terminate _ _ rfl, by simp [replied]⟩
      | _ => exact absurd (hcommand.symm.trans ‹s.conn.state = _›) (by decide)
  | terminate _ _ hterminate => exact absurd hterminate hstate

/-- Every turn. -/
theorem turn {config : Session × List (List Byte)} (h : QuitsSilently config) :
    QuitsSilently (Session.turn config) := by
  obtain ⟨s, chunks⟩ := config
  cases hpending : s.pending with
  | none =>
      by_cases hterminate : s.conn.state = .terminate
      · have hnext : s.conn.nextOperation = .ok (s.conn, .close) :=
          Session.call_pass (by rw [Conn.pass, hterminate])
        rw [Session.turn_call hpending hnext]
        exact h.called (.inl hpending) hnext (.terminate _ _ hterminate) (by simp [hterminate])
      · obtain ⟨next, op, hpass, hout, -⟩ := pass_spec (h.ok.call_ok (.inl hpending))
        obtain ⟨done, rfl, hquits, hstate⟩ := h.pass hpending hout hterminate
        have hnext : s.conn.nextOperation = .ok (next, done) := Session.call_pass hpass
        rw [Session.turn_call hpending hnext]
        exact h.called (.inl hpending) hnext hquits hstate
  | some size =>
      cases chunks with
      | nil =>
          rw [Session.turn_idle hpending]
          exact h
      | cons chunk more =>
          rw [Session.turn_input hpending]
          refine h.fed hpending ?_
          obtain ⟨hsame, -, hbuffer, -⟩ := network_input_frame s.conn chunk
          cases h.quits with
          | init _ _ hnone => rw [hpending] at hnone; cases hnone
          | enterCommand _ _ token hcommand htoken hquit hcoming =>
              have hrest : (s.conn.networkInput chunk).rest = chunk :=
                network_input_rest (by simp [hcommand]) chunk
              refine .enterCommand _ _ token (hsame.trans hcommand) htoken ?_ ?_
              · show Command.ofIndex (commandParser.lookup
                  ((s.conn.networkInput chunk).cmdBuffer.pushAll token).value) = _
                rw [hbuffer, hquit]
              · rw [if_neg (by simp [hpending]), List.nil_append, List.flatten_cons] at hcoming
                show (s.conn.networkInput chunk).rest ++ more.flatten = _
                rw [hrest, hcoming]
          | terminate _ _ hterminate => exact .terminate _ _ (hsame.trans hterminate)

end QuitsSilently

/-- A session without an echo sends none, whatever the sizes of the blocks are. -/
theorem no_echoes {inputMemory outputMemory : List Byte} {buffer : Buffer 128}
    (hin : 0 < inputMemory.length) (hout : 0 < outputMemory.length) (turns : Nat) :
    echoes (Session.delivered (.new inputMemory outputMemory buffer)
      ((session []).map ([·])) turns).sent = [] := by
  have hway : QuitsSilently (Session.turn^[turns]
      (.start (.new inputMemory outputMemory buffer), (session []).map ([·]))) := by
    induction turns with
    | zero =>
        refine ⟨Session.start_ok buffer hin hout, ?_, .init _ _ rfl rfl ?_, by simp [Session.start]⟩
        · intro chunk hchunk
          obtain ⟨ch, -, rfl⟩ := List.mem_map.mp hchunk
          exact ⟨le_rfl, hin⟩
        · rw [← List.flatMap_def, List.flatMap_singleton']
          rfl
    | succ turns ih =>
        rw [Function.iterate_succ_apply']
        exact ih.turn
  have hnone : line .processing "OK enter data" ∉ (Session.delivered
      (.new inputMemory outputMemory buffer) ((session []).map ([·])) turns).sent :=
    fun hmem ↦ hway.silent _ hmem rfl
  have hskip := echoes_skip hnone []
  rwa [List.append_nil] at hskip

/-- Each echo of a session, delivered byte by byte, is the content that was sent with it. -/
def EchoesIndependent (c : Conn) (contents : List (List (List Byte))) : Prop :=
  ∃ turns, ∀ later, turns ≤ later →
    echoes (Session.delivered c ((session contents).map ([·])) later).sent = contents.map echoed

/-- Something of every echo is left unsent, so only the first is exact. -/
theorem carried_eq_iff (room : Nat) (contents : List (List (List Byte))) :
    carried room [] contents = contents.map echoed ↔ contents.length ≤ 1 := by
  match contents with
  | [] => simp [carried]
  | [lines] => simp [carried]
  | lines :: next :: more =>
      have hne : (pushAll room .ident [] (echoed lines)).1 ≠ [] :=
        push_all_ne_nil (by simp [echoed, CRLF])
      simp [carried, hne]

/-- **The echoes of a session are independent** if there is none, or there is one and every byte
fills the input block; in such a block they are not if there are more. The bytes that are printed at
the end of the data are sent there, but stay in the output block, and the next echo sends them
again. -/
theorem echoes_independent (inputMemory outputMemory : List Byte) (buffer : Buffer 128)
    (hin : 0 < inputMemory.length) (hout : 0 < outputMemory.length)
    (contents : List (List (List Byte))) (h : ∀ lines ∈ contents, ∀ line ∈ lines, IsLine line) :
    (contents = [] ∨ inputMemory.length = 1 ∧ contents.length = 1 →
      EchoesIndependent (.new inputMemory outputMemory buffer) contents) ∧
    (inputMemory.length = 1 → 1 < contents.length →
      ¬ EchoesIndependent (.new inputMemory outputMemory buffer) contents) := by
  constructor
  · rintro (rfl | ⟨hsingle, hone⟩)
    · exact ⟨0, fun turns _ ↦ no_echoes hin hout turns⟩
    · obtain ⟨turns, hsettled⟩ :=
        session_settles inputMemory outputMemory buffer hsingle hout contents h
      have hexact := (carried_eq_iff outputMemory.length contents).mpr hone.le
      exact ⟨turns, fun later hlater ↦ (hsettled later hlater).trans hexact⟩
  · rintro hsingle hmany ⟨turns', hexact⟩
    obtain ⟨turns, hsettled⟩ :=
      session_settles inputMemory outputMemory buffer hsingle hout contents h
    have hsame : carried outputMemory.length [] contents = contents.map echoed := by
      rw [← hsettled _ (Nat.le_max_left turns turns'), hexact _ (Nat.le_max_right turns turns')]
    exact absurd ((carried_eq_iff outputMemory.length contents).mp hsame) (Nat.not_le.mpr hmany)

/-- A session with the content `".."`. -/
theorem echoes_independent_dots :
    EchoesIndependent (.new [0] [0, 0] clearedLine) [[text ".."]] :=
  (echoes_independent [0] [0, 0] clearedLine (by decide) (by decide) [[text ".."]] (by decide)).1
    (.inr ⟨rfl, rfl⟩)

/-- **A second echo is not independent**: of two empty contents, echoed through an output block of
one byte, the second starts with the line feed of the first. -/
theorem echoes_dependent : ¬ ∀ (inputMemory outputMemory : List Byte) (buffer : Buffer 128)
    (contents : List (List (List Byte))), inputMemory.length = 1 → 0 < outputMemory.length →
    (∀ lines ∈ contents, ∀ line ∈ lines, IsLine line) →
      EchoesIndependent (.new inputMemory outputMemory buffer) contents := by
  intro hall
  obtain ⟨turns, hexact⟩ := hall [0] [0] clearedLine [[], []] (by decide) (by decide) (by simp)
  obtain ⟨turns', hsettled⟩ :=
    session_settles [0] [0] clearedLine rfl (by decide) [[], []] (by simp)
  have hboth := (hexact _ (Nat.le_max_left turns turns')).symm.trans
    (hsettled _ (Nat.le_max_right turns turns'))
  revert hboth
  decide

end Smerp.Pecho
