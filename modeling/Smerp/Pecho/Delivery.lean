import Smerp.Lib.Logs
import Smerp.Pecho.Progress
import Smerp.Pecho.Simulation

/-!
# Deliveries

A client's byte stream arrives in chunks. `Session.turn` is one turn of the network layer: it calls
the handler, or answers its `READ` with the next chunk. Along the turns `Views` follows the byte
machine's forecast, as long as the turns are clean: none of them takes one of the branches that look
at more or less than the bytes that were received.
-/

namespace Smerp.Pecho

open Lib Protocol Network Conn ByteMachine Relation

/-! ## Turns -/

namespace Session

/-- One turn of the network layer. -/
def turn : Session × List (List Byte) → Session × List (List Byte)
  | (s, chunks) =>
      match s.pending, chunks with
      | none, _ =>
          match s.conn.nextOperation with
          | .ok (next, op) => (s.called next op, chunks)
          | .error _ => (s, chunks)
      | some _, [] => (s, [])
      | some _, chunk :: more => (s.fed chunk, more)

/-- The session after so many turns. -/
def delivered (c : Conn) (chunks : List (List Byte)) (count : Nat) : Session :=
  (turn^[count] (start c, chunks)).1

section

variable {s : Session}

/-- Without a `READ` in flight a turn is a call. -/
theorem turn_call {next : Conn} {op : Operation} (hpending : s.pending = none)
    (hnext : s.conn.nextOperation = .ok (next, op)) (chunks : List (List Byte)) :
    turn (s, chunks) = (s.called next op, chunks) := by
  simp [turn, hpending, hnext]

variable {size : Nat}

/-- Behind the last chunk nothing happens while a `READ` is in flight. -/
theorem turn_idle (hpending : s.pending = some size) : turn (s, []) = (s, []) := by
  simp [turn, hpending]

/-- A chunk is the answer to a `READ`. -/
theorem turn_input (hpending : s.pending = some size) (chunk : List Byte)
    (more : List (List Byte)) : turn (s, chunk :: more) = (s.fed chunk, more) := by
  simp [turn, hpending]

end

/-- A turn only adds to what was sent. -/
theorem turn_sent (config : Session × List (List Byte)) :
    config.1.sent <+: (turn config).1.sent := by
  obtain ⟨s, chunks⟩ := config
  cases hpending : s.pending with
  | none =>
      simp only [turn, hpending]
      cases s.conn.nextOperation with
      | error fault => exact List.prefix_rfl
      | ok result => exact List.prefix_append _ _
  | some size =>
      simp only [turn, hpending]
      cases chunks with
      | nil => exact List.prefix_rfl
      | cons chunk more => exact List.prefix_rfl

/-- Later turns only add to what was sent. -/
theorem delivered_sent (c : Conn) (chunks : List (List Byte)) (count : Nat) :
    (delivered c chunks count).sent <+: (delivered c chunks (count + 1)).sent := by
  rw [delivered, delivered, Function.iterate_succ_apply']
  exact turn_sent _

end Session

/-! ## Clean turns -/

/-- A byte behind which a new command line starts, as it does behind a line feed. -/
def isNeutral (ch : Byte) : Bool :=
  ch == LF || (isTokenChar ch && CmdBuffer.new.pushBack ch == .new)

/-- The byte that is left in place of the one that completes the mark is read as that one would be,
given the byte that follows. -/
def placeholderOk (terminator placeholder : Byte) : Option Byte → Bool
  | none => placeholder == terminator || (isNeutral placeholder && isNeutral terminator)
  | some next =>
      placeholder == terminator ||
      if isNeutral placeholder then isNeutral terminator || next == LF || isPoison next
      else if placeholder = CR then next == LF || isPoison next
      else isBlank placeholder &&
        if terminator = LF then !isTokenChar next else !isBlank next && next != CR

/-- The mark, if the scan finds it, is returned, and the byte left in its place does no harm. -/
def MarkOk (future : List Byte) (phase : EoD.Phase) (raw : List Byte) : Prop :=
  ∀ kept terminator rest, EoD.scan phase raw = .marked kept terminator rest →
    kept.length < 2 ^ 31 ∧ ∀ placeholder, raw[kept.length]? = some placeholder →
      placeholderOk terminator placeholder (rest ++ future).head? = true

/-- A pass scans a block for the end of the data only when all of it was received, and does not drop
the line end that ends a rejected line. -/
structure CleanPass (ScanOk : EoD.Phase → List Byte → Prop) (c : Conn) : Prop where
  scan : c.state = .startProcessing → ∀ blanks ch more, c.rest = blanks ++ ch :: more →
    (∀ ch ∈ blanks, isBlank ch = true) → isLineEnd ch = true →
      c.eoM = c.input.size ∧ ScanOk .src (ch :: more)
  drop : c.state = .handleError → ∀ line more, c.rest = line ++ CR :: more →
    (∀ ch ∈ line, isLineEnd ch = false) → more.head? ≠ some LF → LF ∉ more

/-- The bytes received fill the block where it is scanned for the end of the data, a scan that is
done once more later finds nothing, and the bytes do not start with one that would have been read
otherwise behind a cut line end or a cut argument. -/
structure CleanInput (ScanOk : EoD.Phase → List Byte → Prop) (c : Conn) (data : List Byte) :
    Prop where
  processing : c.state = .processing →
    data.length = c.input.size ∧ ScanOk c.input.eodState.phase data
  startProcessing : c.state = .startProcessing →
    data.length = c.input.size ∧ ∃ phase, EoD.scan .src data = .unmarked data phase
  emptyLine : c.state = .emptyLine → c.lastPassed = some CR →
    ∀ ch, data.head? = some ch → isBlank ch = false ∧ ch ≠ CR
  enterMode : c.state = .enterMode → ∀ last, c.lastPassed = some last → isTokenChar last = true →
    ∀ ch, data.head? = some ch → isBlank ch = false

/-- Every pass of the call, or the answer to the `READ`, is clean. -/
def CleanTurn : Session × List (List Byte) → Prop
  | (s, chunks) =>
      match s.pending, chunks with
      | none, _ => ∀ last, ReflTransGen (Again pass) s.conn last →
          CleanPass (MarkOk chunks.flatten) last
      | some _, [] => True
      | some _, chunk :: more => CleanInput (MarkOk more.flatten) s.conn chunk

/-- Every turn is clean. -/
def CleanDelivery (c : Conn) (chunks : List (List Byte)) : Prop :=
  ∀ count, CleanTurn (Session.turn^[count] (.start c, chunks))

/-! ## Bytes that are read alike -/

namespace ByteMachine

variable {room : Nat} {out : List Byte}

/-- The control state behind the first byte of a command line that starts with none. -/
def lead (ch : Byte) : Ctrl :=
  if isNeutral ch then .command .new else if ch = CR then .emptyLineCr else .emptyLine

/-- The first byte of a command line that starts with none. -/
theorem forecast_lead {ch : Byte} (h : isNeutral ch = true ∨ ch = CR ∨ isBlank ch = true)
    (back : List Byte) :
    forecast room (.command .new) out (ch :: back) = forecast room (lead ch) out back := by
  refine forecast_pass ?_ back
  rw [delta_fresh, lead]
  by_cases hlf : ch = LF
  · subst hlf
    rfl
  · by_cases hcr : ch = CR
    · subst hcr
      rfl
    · cases htoken : isTokenChar ch with
      | true =>
          have hblank : isBlank ch = false := by
            cases hblank : isBlank ch with
            | false => rfl
            | true => simp [is_token_char_blank hblank] at htoken
          have hneutral : isNeutral ch = true := by simpa [hcr, hblank] using h
          have hnew : CmdBuffer.new.pushBack ch = .new := by
            simpa [isNeutral, hlf, htoken] using hneutral
          simp [onFresh, htoken, hneutral, hnew]
      | false =>
          have hneutral : isNeutral ch = false := by simp [isNeutral, hlf, htoken]
          have hblank : isBlank ch = true := by simpa [hcr, hneutral] using h
          simp [onFresh, onEmptyLine, hneutral, hblank, hcr]

/-- A byte that ends an empty line, or that poisons it, does so on a fresh line too. -/
theorem forecast_fresh_end {ch : Byte} (h : ch = LF ∨ isPoison ch = true) (back : List Byte) :
    forecast room .emptyLineCr out (ch :: back) =
      forecast room (.command .new) out (ch :: back) := by
  refine forecast_turn ?_ back
  rw [delta_fresh]
  rcases h with rfl | hpoison
  · rfl
  · obtain ⟨-, hfresh, hlf⟩ := delta_poison out hpoison
    rw [hfresh]
    simp [delta, hlf, hpoison]

/-- A fresh line is an empty line, unless a command follows. -/
theorem forecast_fresh_empty {ch : Byte} (h : isTokenChar ch = false) (back : List Byte) :
    forecast room .emptyLine out (ch :: back) = forecast room (.command .new) out (ch :: back) := by
  refine forecast_turn ?_ back
  rw [delta_fresh, onFresh, h]
  rfl

/-- A harmless byte in place of the one that completes the mark does not change the forecast. -/
theorem forecast_placeholder {terminator placeholder : Byte} {stream : List Byte}
    (hend : terminator = CR ∨ terminator = LF)
    (h : placeholderOk terminator placeholder stream.head? = true) :
    forecast room (.command .new) out (placeholder :: stream) =
      forecast room (.command .new) out (terminator :: stream) := by
  by_cases heq : placeholder = terminator
  · rw [heq]
  · have hlead : terminator = CR ∧ lead terminator = .emptyLineCr ∧ isNeutral terminator = false ∨
        terminator = LF ∧ lead terminator = .command .new := by
      rcases hend with rfl | rfl
      · exact .inl ⟨rfl, rfl, by decide⟩
      · exact .inr ⟨rfl, rfl⟩
    have hterminator : isNeutral terminator = true ∨ terminator = CR ∨ isBlank terminator =
      true := by
      rcases hend with rfl | rfl
      · exact .inr (.inl rfl)
      · exact .inl rfl
    rw [forecast_lead hterminator]
    cases stream with
    | nil =>
        have hneutral : isNeutral placeholder = true ∧ isNeutral terminator = true := by
          simpa [placeholderOk, heq] using h
        rw [forecast_lead (.inl hneutral.1), lead, lead, if_pos hneutral.1, if_pos hneutral.2]
    | cons next back =>
        simp only [placeholderOk, List.head?_cons, Bool.or_eq_true, beq_iff_eq, heq, false_or] at h
        by_cases hneutral : isNeutral placeholder = true
        · rw [if_pos hneutral] at h
          rw [forecast_lead (.inl hneutral), lead, if_pos hneutral]
          rcases hlead with ⟨-, hlead, hnot⟩ | ⟨-, hlead⟩
          · rw [hlead, forecast_fresh_end (by simpa [hnot] using h)]
          · rw [hlead]
        · rw [if_neg hneutral] at h
          by_cases hcr : placeholder = CR
          · rw [if_pos hcr] at h
            rw [forecast_lead (.inr (.inl hcr)), lead, if_neg hneutral, if_pos hcr]
            rcases hlead with ⟨hterm, -⟩ | ⟨-, hlead⟩
            · exact absurd (hcr.trans hterm.symm) heq
            · rw [hlead, forecast_fresh_end (by simpa using h)]
          · rw [if_neg hcr, Bool.and_eq_true] at h
            rw [forecast_lead (.inr (.inr h.1)), lead, if_neg hneutral, if_neg hcr]
            rcases hlead with ⟨rfl, hlead, -⟩ | ⟨rfl, hlead⟩
            · have hnext : isBlank next = false ∧ next ≠ CR := by
                simpa [show CR ≠ LF by decide] using h.2
              rw [hlead, forecast_cr_cut hnext.1 hnext.2]
            · rw [hlead, forecast_fresh_empty (by simpa using h.2)]

end ByteMachine

section

variable (Coming : List Byte → Prop)

/-- What the block holds from the end of the data on is read as what was received there, whichever
of the bytes that may come do come. -/
def ReadAlike (received held : List Byte) : Prop :=
  ∀ room out back, Coming back → ByteMachine.forecast room (.command .new) out (held ++ back) =
    ByteMachine.forecast room (.command .new) out (received ++ back)

/-- The mark, if the scan finds it, is returned, and what is left in its place is read alike. -/
def ScanAlike (phase : EoD.Phase) (raw : List Byte) : Prop :=
  ∀ kept terminator rest, EoD.scan phase raw = .marked kept terminator rest →
    kept.length < 2 ^ 31 ∧ ∀ placeholder, raw[kept.length]? = some placeholder →
      ReadAlike Coming (terminator :: rest) (placeholder :: rest)

/-- What a session is going to send, depending on the bytes still to be delivered. -/
inductive Views (s : Session) : (List Byte → Forecast) → Prop
  | sees (ctrl : Ctrl) (raw : List Byte) (hpending : s.pending = none) (hready : s.conn.Ready)
      (hfed : s.conn.Fed) (hsees : Sees (ReadAlike Coming) s.conn ctrl raw) :
      Views s (fun back ↦ s.conn.forecast ctrl (raw ++ back))
  | pauses (ctrl : Ctrl) (hpending : s.pending = some s.conn.input.size) (hwaiting : s.conn.Waiting)
      (hpause : Pauses s.conn ctrl) : Views s (fun back ↦ s.conn.forecast ctrl back)

end

/-- The mark is completed by a carriage return or a line feed. -/
theorem scan_terminator {phase : EoD.Phase} {raw kept rest : List Byte} {terminator : Byte}
    (h : EoD.scan phase raw = .marked kept terminator rest) : terminator = CR ∨ terminator =
      LF := by
  induction raw generalizing phase kept with
  | nil => simp at h
  | cons ch more ih =>
      rcases EoD.scan_cons phase ch more with ⟨hscan, rfl, hstep⟩ | ⟨front, hscan, -, -, -⟩
      · obtain ⟨-, rfl, -⟩ : _ ∧ ch = terminator ∧ _ := by simpa using hscan.symm.trans h
        by_contra hkeep
        simp [EoD.step, hkeep] at hstep
      · rw [hscan] at h
        cases hmore : EoD.scan (EoD.step phase ch).1 more with
        | unmarked => simp [hmore] at h
        | marked inner _ _ =>
            rw [hmore, EoD.Scan.prepend] at h
            cases h
            exact ih hmore

/-- A byte that does no harm is read alike. -/
theorem MarkOk.scan_alike {future raw : List Byte} {phase : EoD.Phase}
    (h : MarkOk future phase raw) :
    ScanAlike (· = future) phase raw := by
  intro kept terminator rest hscan
  obtain ⟨hshort, hharmless⟩ := h kept terminator rest hscan
  refine ⟨hshort, ?_⟩
  intro placeholder hplace room out back hback
  subst hback
  exact forecast_placeholder (scan_terminator hscan) (hharmless placeholder hplace)

theorem CleanPass.mono {ScanOk ScanOk' : EoD.Phase → List Byte → Prop} {c : Conn}
    (h : CleanPass ScanOk c) (himp : ∀ phase raw, ScanOk phase raw → ScanOk' phase raw) :
    CleanPass ScanOk' c where
  scan hstate blanks ch more hrest hblank hline :=
    (h.scan hstate blanks ch more hrest hblank hline).imp_right (himp _ _)
  drop := h.drop

theorem CleanInput.mono {ScanOk ScanOk' : EoD.Phase → List Byte → Prop} {c : Conn}
    {data : List Byte} (h : CleanInput ScanOk c data)
    (himp : ∀ phase raw, ScanOk phase raw → ScanOk' phase raw) :
    CleanInput ScanOk' c data where
  processing hstate := (h.processing hstate).imp_right (himp _ _)
  startProcessing := h.startProcessing
  emptyLine := h.emptyLine
  enterMode := h.enterMode

section

variable {Coming : List Byte → Prop}

/-- A scan that leaves what is read alike gives a view of the data. -/
theorem ScanAlike.data_view {c : Conn} (block : InputBlock) {start : Nat} {raw : List Byte}
    (hok : ScanAlike Coming block.eodState.phase raw) (hstart : start < block.size)
    (hinput : c.input = (block.getEoD start).2) (heoD : c.eoD = (block.getEoD start).1)
    (heoM : c.eoM = c.input.pos) (hitr : c.itr = start) (hraw : block.bytes.drop start = raw) :
    DataView (ReadAlike Coming) c block.eodState.phase raw := by
  refine data_view_of_scan block hstart hinput heoD heoM hitr hraw (fun _ _ h ↦ h) ?_
  intro kept terminator rest placeholder hscan hplace
  obtain ⟨hshort, halike⟩ := hok kept terminator rest hscan
  exact ⟨hshort, rest, hscan, halike placeholder hplace⟩

/-! ## Following the forecast -/

/-- Outside of the data a line is read on from the bytes received. -/
theorem sees_received {Stands : List Byte → List Byte → Prop} {c : Conn} {data : List Byte}
    (hplain : ¬ c.InData) (hrest : (c.networkInput data).rest = data) :
    Sees Stands (c.networkInput data) c.ctrl data := by
  obtain ⟨hstate, hmode, hbuffer, -⟩ := network_input_frame c data
  have hctrl : (c.networkInput data).ctrl = c.ctrl := by
    have hne : c.state ≠ .processing ∧ c.state ≠ .processingAfterWrite := by
      simpa [InData] using hplain
    rw [Conn.ctrl, Conn.ctrl, hstate, hmode, hbuffer]
    split <;> simp_all
  rw [← hctrl]
  exact .line _ (by simpa [InData, hstate] using hplain) hrest

/-- In the data a full block is scanned as a whole. -/
theorem sees_data_received {c : Conn} {data : List Byte} (hstate : c.state = .processing)
    (hpos : 1 ≤ data.length) (hfull : data.length = c.input.size)
    (hok : ScanAlike Coming c.input.eodState.phase data) :
    Sees (ReadAlike Coming) (c.networkInput data) c.ctrl data := by
  obtain ⟨hkept, hmode, -⟩ := network_input_frame c data
  have hbytes : (c.receivedBlock data).bytes = data := Block.store_full hfull
  have hstart : 0 < (c.receivedBlock data).size := by
    rw [MemBlock.size, hbytes]
    exact hpos
  have hview : DataView (ReadAlike Coming) (c.networkInput data) c.input.eodState.phase data := by
    rw [network_input_scan (.inl hstate)]
    exact ScanAlike.data_view (c.receivedBlock data) hok hstart rfl rfl rfl rfl hbytes
  have hctrl : c.ctrl = .processing (c.networkInput data).mode c.input.eodState.phase := by
    simp [Conn.ctrl, hstate, hmode]
  rw [hctrl]
  exact .data _ _ (.inl (by rw [hkept, hstate])) hview

/-- A clean answer to a `READ` does not change the forecast. -/
theorem Views.fed {Later : List Byte → Prop} {s : Session} {chunk : List Byte}
    {foresee : List Byte → Forecast} (h : Views Later s foresee) (hpending : s.pending ≠ none)
    (hpos : 1 ≤ chunk.length) (hle : chunk.length ≤ s.conn.input.size)
    (hclean : CleanInput (ScanAlike Coming) s.conn chunk) :
    Views Coming (s.fed chunk) (fun back ↦ foresee (chunk ++ back)) := by
  cases h with
  | sees _ _ hnone => exact absurd hnone hpending
  | pauses ctrl _ hwaiting hpause =>
      obtain ⟨hready, hsize⟩ := hwaiting.network_input hle
      obtain ⟨first, more, rfl⟩ := List.exists_cons_of_length_pos hpos
      have hsees (ctrl' : Ctrl) (raw : List Byte)
          (hview : Sees (ReadAlike Coming) (s.conn.networkInput (first :: more)) ctrl' raw)
          (hsame : ∀ back, s.conn.forecast ctrl (first :: more ++ back) =
            s.conn.forecast ctrl' (raw ++ back)) :
          Views Coming (s.fed (first :: more))
            (fun back ↦ s.conn.forecast ctrl (first :: more ++ back)) := by
        have heq : (fun back ↦ s.conn.forecast ctrl (first :: more ++ back)) =
            fun back ↦ (s.fed (first :: more)).conn.forecast ctrl' (raw ++ back) := by
          funext back
          rw [hsame]
          exact (network_input_forecast _ _ _ _).symm
        rw [heq]
        exact .sees ctrl' raw rfl hready (network_input_fed _ hpos) hview
      cases hpause with
      | whole hinit _ hreset =>
          refine hsees _ _ ?_ fun _ ↦ rfl
          cases hcase : s.conn.state with
          | processing =>
              obtain ⟨hfull, hok⟩ := hclean.processing hcase
              exact sees_data_received hcase hpos hfull hok
          | startProcessing =>
              obtain ⟨hfull, phase, hscan⟩ := hclean.startProcessing hcase
              refine sees_received (by simp [InData, hcase]) ?_
              exact network_input_start_rest hcase (hreset hcase) hfull hwaiting.size_pos hscan
          | processingAfterWrite => exact absurd hcase hwaiting.reads
          | init => exact absurd hcase hinit
          | _ =>
              refine sees_received (by simp [InData, hcase]) ?_
              exact network_input_rest (by simp [hcase]) _
      | emptyLineCr hcase hlast =>
          obtain ⟨hblank, hcr⟩ := hclean.emptyLine hcase hlast first rfl
          have hctrl : s.conn.ctrl = .emptyLine := by simp [Conn.ctrl, hcase]
          refine hsees _ _
            (sees_received (by simp [InData, hcase]) (network_input_rest (by simp [hcase]) _))
            ?_
          intro back
          rw [hctrl, Conn.forecast, Conn.forecast, List.cons_append, forecast_cr_cut hblank hcr]
      | modeToken hcase last hlast htoken =>
          have hblank := hclean.enterMode hcase last hlast htoken first rfl
          have hctrl : s.conn.ctrl = .mode s.conn.cmdBuffer := by simp [Conn.ctrl, hcase]
          refine hsees _ _
            (sees_received (by simp [InData, hcase]) (network_input_rest (by simp [hcase]) _))
            ?_
          intro back
          rw [hctrl, Conn.forecast, Conn.forecast, List.cons_append, forecast_argument_cut hblank]

/-- A block that was received as a whole is scanned up to the end of what was received. -/
theorem scan_raw {c : Conn} {blanks more : List Byte} {ch : Byte}
    (hrest : c.rest = blanks ++ ch :: more) (hfull : c.eoM = c.input.size) :
    c.itr + blanks.length < c.input.resetEoD.size ∧
      c.input.resetEoD.bytes.drop (c.itr + blanks.length) = ch :: more := by
  have hraw : c.input.bytes.drop (c.itr + blanks.length) = ch :: more := by
    have hwhole : c.input.bytes.drop c.itr = blanks ++ ch :: more := by
      rw [← hrest, rest, Block.slice, hfull]
      exact (List.take_of_length_le (by rw [List.length_drop]; rfl)).symm
    rw [← List.drop_drop, hwhole, List.drop_left]
  refine ⟨?_, hraw⟩
  have hlen := congrArg List.length hraw
  rw [List.length_drop, List.length_cons] at hlen
  show c.itr + blanks.length < c.input.bytes.length
  omega

/-- Behind the mark a handler stands at the start of a command line. -/
theorem sees_init {Stands : List Byte → List Byte → Prop} {c : Conn} (hstate : c.state = .init) :
    Sees Stands c (.command .new) c.rest := by
  have hctrl : c.ctrl = .command .new := by simp [Conn.ctrl, hstate]
  rw [← hctrl]
  exact .line _ (by simp [InData, hstate]) rfl

/-- Passes that go round again do not change the forecast. -/
theorem sees_again {c last : Conn} {ctrl : Ctrl} {raw : List Byte} (h : c.Ready) (hfed : c.Fed)
    (hsees : Sees (ReadAlike Coming) c ctrl raw) (hpath : ReflTransGen (Again pass) c last) :
    ∃ ctrl' raw', last.Fed ∧ Sees (ReadAlike Coming) last ctrl' raw' ∧
      ∀ back, Coming back → c.forecast ctrl (raw ++ back) = last.forecast ctrl' (raw' ++ back) := by
  induction hpath with
  | refl => exact ⟨ctrl, raw, hfed, hsees, fun _ _ ↦ rfl⟩
  | @tail mid last hpath hstep ih =>
      obtain ⟨ctrl', raw', hfed', hsees', hsame⟩ := ih
      have hready := (again_ready h hpath).1
      obtain ⟨next, op, hpass, hout, -⟩ := pass_spec (.inl hready)
      obtain ⟨rfl, rfl⟩ : next = last ∧ op = none := by simpa [Again, hpass] using hstep
      have hnext := hout.fed hready (by simp)
      cases hout.effect hready hfed' hsees' with
      | move ctrl'' raw'' _ hsees'' hforecast =>
          refine ⟨ctrl'', raw'', hnext, hsees'', ?_⟩
          intro back hback
          rw [hsame back hback, hforecast]
          rfl
      | mark terminator rest _ _ hinit hstands hforecast =>
          refine ⟨.command .new, next.rest, hnext, sees_init hinit, ?_⟩
          intro back hback
          rw [hsame back hback, hforecast, Conn.forecast, Conn.forecast, hstands _ _ back hback]
          rfl
      | read _ hop => cases hop
      | drop _ _ _ _ _ _ hop => cases hop
      | scan _ _ _ _ _ _ _ _ hop => cases hop
      | poison _ hop => cases hop

/-- A pass that returns an operation either asks for input or leaves the handler ready. -/
theorem Outcome.read_or_ready {c next : Conn} {op : Operation} (h : c.Ready)
    (hout : Outcome c next (some op)) :
    op = .read 0 next.input.size 0 ∧ op = c.readOp ∧ next.Waiting ∨
      op.isRead = false ∧ op ≠ c.readOp ∧ next.Ready := by
  obtain ⟨hafter, hsize, -⟩ := hout.after h
  cases op with
  | read offset size timeout =>
      obtain ⟨hop, hwaiting⟩ := hafter
      exact .inl ⟨hop, by rw [hop, readOp, readOp, hsize], hwaiting⟩
  | write data timeout => exact .inr ⟨rfl, by simp [readOp], hafter⟩
  | close => exact .inr ⟨rfl, by simp [readOp], hafter⟩

/-- The data behind the blanks of a full block is scanned as a whole. -/
theorem sees_scanned {c next : Conn} {blanks more : List Byte} {ch : Byte}
    (hrest : c.rest = blanks ++ ch :: more) (hfull : c.eoM = c.input.size)
    (hok : ScanAlike Coming .src (ch :: more))
    (hnext : next = replied (c.scanned blanks) .processing (text "OK enter data")) :
    Sees (ReadAlike Coming) next (.processing c.mode .src) (ch :: more) := by
  obtain ⟨hstart, hraw⟩ := scan_raw hrest hfull
  have hview : DataView (ReadAlike Coming) next .src (ch :: more) := by
    rw [hnext]
    exact ScanAlike.data_view c.input.resetEoD hok hstart rfl rfl rfl rfl hraw
  have hmode : next.mode = c.mode := by rw [hnext]; rfl
  rw [← hmode]
  exact .data _ _ (.inl (by rw [hnext]; rfl)) hview

/-- Without a `READ` in flight the handler is ready. -/
theorem Views.ready {s : Session} {foresee : List Byte → Forecast} (h : Views Coming s foresee)
    (hpending : s.pending = none) : s.conn.Ready := by
  cases h with
  | sees _ _ _ hready => exact hready
  | pauses _ hsome => rw [hpending] at hsome; cases hsome

/-- While a `READ` is in flight the handler waits. -/
theorem Views.waiting {s : Session} {foresee : List Byte → Forecast} (h : Views Coming s foresee)
    (hpending : s.pending ≠ none) : s.conn.Waiting := by
  cases h with
  | sees _ _ hnone => exact absurd hnone hpending
  | pauses _ _ hwaiting => exact hwaiting

section

variable {s : Session} {last next : Conn} {op : Operation}

/-- A call that does not ask for input leaves the handler ready. -/
theorem called_goes_on (hpending : s.pending = none) (hlast : last.Ready)
    (hout : Outcome last next (some op)) (hread : some op ≠ some last.readOp) :
    (s.called next op).pending = none ∧ next.Ready ∧ next.Fed := by
  rcases hout.read_or_ready hlast with ⟨-, hop, -⟩ | ⟨hnone, -, hafter⟩
  · exact absurd (congrArg some hop) hread
  · refine ⟨?_, hafter, hout.fed hlast hread⟩
    cases op with
    | read => cases hnone
    | write => exact hpending
    | close => exact hpending

/-- A call that asks for input leaves the handler waiting. -/
theorem called_waits (hlast : last.Ready) (hout : Outcome last next (some op))
    (hread : some op = some last.readOp) :
    (s.called next op).pending = some next.input.size ∧ next.Waiting ∧ sentBy next op = [] := by
  rcases hout.read_or_ready hlast with ⟨hop, -, hafter⟩ | ⟨-, hne, -⟩
  · subst hop
    exact ⟨rfl, hafter, rfl⟩
  · exact absurd (Option.some.inj hread) hne

end

/-- The messages of a clean call and the new forecast are together the old forecast, except that the
complaint of a poisoned handler is not foreseen. -/
theorem Views.called {s : Session} {next : Conn} {op : Operation} {foresee : List Byte → Forecast}
    (h : Views Coming s foresee) (hpending : s.pending = none)
    (hclean : ∀ last, ReflTransGen (Again pass) s.conn last → CleanPass (ScanAlike Coming) last)
    (hnext : s.conn.nextOperation = .ok (next, op)) :
    ∃ foresee', Views Coming (s.called next op) foresee' ∧
      ((∀ back, Coming back → foresee back = (foresee' back).after (sentBy next op)) ∨
        ∃ out, (∀ back, Coming back → foresee back = (⟨.poisoned, out⟩, [])) ∧
          (∀ back, foresee' back = (⟨.poisoned, out⟩, [greet])) ∧
          sentBy next op = [line .init "BAD command line"]) := by
  cases h with
  | pauses _ hsome => rw [hpending] at hsome; cases hsome
  | sees ctrl raw _ hready hfed hsees =>
      obtain ⟨last, next', op', hpath, -, -, hout, hcall, -⟩ := call_spec (.inl hready)
      obtain ⟨rfl, rfl⟩ : next' = next ∧ op' = op := by simpa [hcall] using hnext
      obtain ⟨hlast, -⟩ := again_ready hready hpath
      obtain ⟨ctrl', raw', hfed', hsees', hsame⟩ := sees_again hready hfed hsees hpath
      have hpass := hclean last hpath
      -- the two ways in which a session goes on
      have hgo := called_goes_on hpending hlast hout
      have hwait := called_waits (s := s) hlast hout
      cases hout.effect hlast hfed' hsees' with
      | move ctrl'' raw'' hread hsees'' hforecast =>
          obtain ⟨hnone, hready', hnext'⟩ := hgo hread
          refine ⟨_, .sees ctrl'' raw'' hnone hready' hnext' hsees'', .inl ?_⟩
          intro back hback
          exact (hsame back hback).trans (hforecast back)
      | read ctrl'' hop hpause hforecast =>
          obtain ⟨hsome, hwaiting, hnothing⟩ := hwait hop
          refine ⟨_, .pauses ctrl'' hsome hwaiting hpause, .inl ?_⟩
          intro back hback
          rw [hnothing]
          exact (hsame back hback).trans (hforecast back)
      | drop line more hstate hrest hline hhead hop hpause hforecast =>
          obtain ⟨hsome, hwaiting, hnothing⟩ := hwait hop
          refine ⟨_, .pauses .skip hsome hwaiting hpause, .inl ?_⟩
          intro back hback
          rw [hnothing]
          exact (hsame back hback).trans
            (hforecast (hpass.drop hstate line more hrest hline hhead) back)
      | scan blanks ch more hstate hrest hblank hline hnext hop hforecast =>
          obtain ⟨hnone, hready', hnext'⟩ := hgo (by rw [hop]; simp [readOp])
          obtain ⟨hfull, hok⟩ := hpass.scan hstate blanks ch more hrest hblank hline
          have hsees'' := sees_scanned hrest hfull hok hnext
          refine ⟨_, .sees _ _ hnone hready' hnext' hsees'', .inl ?_⟩
          intro back hback
          exact (hsame back hback).trans (hforecast back)
      | mark terminator rest hread _ hinit hstands hforecast =>
          obtain ⟨hnone, hready', hnext'⟩ := hgo hread
          refine ⟨_, .sees _ _ hnone hready' hnext' (sees_init hinit), .inl ?_⟩
          intro back hback
          refine ((hsame back hback).trans (hforecast back)).trans ?_
          rw [Conn.forecast, ← hstands _ _ back hback]
          rfl
      | poison hinit hop hhere hthere =>
          obtain ⟨hnone, hready', hnext'⟩ := hgo (by rw [hop]; simp [readOp])
          refine ⟨_, .sees _ _ hnone hready' hnext' (sees_init hinit),
            .inr ⟨last.unsent, ?_, hthere, ?_⟩⟩
          · intro back hback
            exact (hsame back hback).trans (hhere back)
          · obtain rfl := Option.some.inj hop
            show [Sent.mk next'.state _] = _
            rw [hinit]
            rfl

end

/-! ## Whole deliveries -/

/-- What is written in all: the messages foreseen, and behind them the complaint of a poisoned
handler as often as it was repeated. -/
def Forecast.spell (forecast : Forecast) (count : Nat) : List Sent :=
  forecast.2 ++ if forecast.1.ctrl = .poisoned then
    (List.replicate count [line .init "BAD command line", greet]).flatten else []

/-- More repetitions only add to what is written. -/
theorem Forecast.spell_grows (forecast : Forecast) (count : Nat) :
    forecast.spell count <+: forecast.spell (count + 1) := by
  unfold spell
  rw [List.prefix_append_right_inj]
  split
  · rw [List.replicate_succ', List.flatten_append]
    exact List.prefix_append _ _
  · exact List.prefix_rfl

/-- A delivery on its way: all that was sent and all that is foreseen are what is written in all. -/
structure Follows (total : Forecast) (config : Session × List (List Byte)) : Prop where
  chunks : ∀ chunk ∈ config.2, 1 ≤ chunk.length ∧ chunk.length ≤ config.1.conn.input.size
  view : ∃ foresee count, Views (· = config.2.flatten) config.1 foresee ∧
    (foresee config.2.flatten).1 = total.1 ∧
    config.1.sent ++ (foresee config.2.flatten).2 = total.spell count

/-- Nothing more will be written. -/
def Quiet (total : Forecast) (s : Session) : Prop := s.sent = total.2 ∧ total.1.ctrl ≠ .poisoned

/-- A delivery of which nothing is foreseen, and which is not poisoned, is quiet. -/
theorem Follows.quiet {total : Forecast} {config : Session × List (List Byte)}
    (h : Follows total config) (hquiet : ∀ foresee, Views (· = config.2.flatten) config.1 foresee →
      (foresee config.2.flatten).2 = [] ∧ (foresee config.2.flatten).1.ctrl ≠ .poisoned) :
    Quiet total config.1 := by
  obtain ⟨foresee, count, hviews, hsame, hsent⟩ := h.view
  obtain ⟨hnothing, hclear⟩ := hquiet foresee hviews
  rw [hsame] at hclear
  refine ⟨?_, hclear⟩
  rw [hnothing, List.append_nil, Forecast.spell, if_neg hclear, List.append_nil] at hsent
  exact hsent

/-- A call on the way. -/
theorem Follows.called {total : Forecast} {s : Session} {chunks : List (List Byte)} {next : Conn}
    {op : Operation} (h : Follows total (s, chunks)) (hpending : s.pending = none)
    (hclean : CleanTurn (s, chunks)) (hnext : s.conn.nextOperation = .ok (next, op)) :
    Follows total (s.called next op, chunks) := by
  obtain ⟨foresee, count, hviews, hfinal, hsent⟩ := h.view
  simp only [CleanTurn, hpending] at hclean
  have hsize : next.input.size = s.conn.input.size :=
    (Session.call_after (hviews.ready hpending) hnext).2.1
  obtain ⟨foresee', hviews', hsame⟩ := hviews.called hpending
    (fun last hpath ↦ (hclean last hpath).mono fun _ _ hok ↦ hok.scan_alike) hnext
  constructor
  · intro chunk hchunk
    obtain ⟨hpos, hle⟩ := h.chunks chunk hchunk
    exact ⟨hpos, Nat.le_trans hle (Nat.le_of_eq hsize.symm)⟩
  · rcases hsame with hsame | ⟨out, hhere, hthere, hbad⟩
    · rw [hsame _ rfl] at hfinal hsent
      exact ⟨foresee', count, hviews', hfinal, (List.append_assoc _ _ _).trans hsent⟩
    · -- the complaint and the greeting that follows it are one repetition more
      rw [hhere _ rfl] at hfinal hsent
      have htotal : total.1.ctrl = .poisoned := by rw [← hfinal]
      refine ⟨foresee', count + 1, hviews', by rw [hthere, ← hfinal], ?_⟩
      rw [List.append_nil, Forecast.spell, if_pos htotal] at hsent
      show s.sent ++ sentBy next op ++ (foresee' _).2 = _
      rw [hbad, hthere, hsent, Forecast.spell, if_pos htotal, List.replicate_succ',
        List.flatten_append]
      simp

/-- An answer to a `READ` on the way. -/
theorem Follows.fed {total : Forecast} {s : Session} {chunk : List Byte} {more : List (List Byte)}
    (h : Follows total (s, chunk :: more)) {size : Nat} (hpending : s.pending = some size)
    (hclean : CleanTurn (s, chunk :: more)) : Follows total (s.fed chunk, more) := by
  obtain ⟨foresee, count, hviews, hfinal, hsent⟩ := h.view
  obtain ⟨hpos, hle⟩ := h.chunks chunk (by simp)
  simp only [CleanTurn, hpending] at hclean
  have hsize : (s.conn.networkInput chunk).input.size = s.conn.input.size := by
    cases hviews with
    | sees _ _ hnone => rw [hpending] at hnone; cases hnone
    | pauses _ _ hwaiting _ => exact (hwaiting.network_input hle).2
  refine ⟨?_, fun back ↦ foresee (chunk ++ back), count, ?_, hfinal, hsent⟩
  · intro later hlater
    obtain ⟨hpos', hle'⟩ := h.chunks later (by simp [hlater])
    exact ⟨hpos', Nat.le_trans hle' (Nat.le_of_eq hsize.symm)⟩
  · exact hviews.fed (by simp [hpending]) hpos hle (hclean.mono fun _ _ hok ↦ hok.scan_alike)

/-- A handler that waits for input is neither in its initial state nor poisoned. -/
theorem Pauses.quiet {c : Conn} {ctrl : Ctrl} (h : Pauses c ctrl) :
    c.state ≠ .init ∧ ctrl ≠ .poisoned := by
  cases h with
  | whole hinit =>
      refine ⟨hinit, ?_⟩
      unfold Conn.ctrl
      split <;> simp
  | emptyLineCr hstate _ => simp [hstate]
  | modeToken hstate _ _ _ => simp [hstate]

/-- What a turn has still to do before something is written or nothing more will be. -/
def workLeft (config : Session × List (List Byte)) : Nat :=
  2 * config.2.length + if config.1.pending = none then 1 else 0

section

variable {s : Session} {next : Conn} (chunks : List (List Byte))

/-- The answer to a `READ` leaves less to do. -/
theorem work_left_fed {size : Nat} (hpending : s.pending = some size) (chunk : List Byte)
    (more : List (List Byte)) : workLeft (s.fed chunk, more) < workLeft (s, chunk :: more) := by
  simp only [workLeft, Session.fed, hpending, List.length_cons, reduceCtorEq, if_true, if_false]
  omega

/-- A call that asks for input leaves less to do. -/
theorem work_left_read (hpending : s.pending = none) (offset size timeout : Nat) :
    workLeft (s.called next (.read offset size timeout), chunks) < workLeft (s, chunks) := by
  simp [workLeft, Session.called, hpending]

/-- A call that sends a message leaves as much to do. -/
theorem work_left_write (hpending : s.pending = none) (data : List Byte) (timeout : Nat) :
    workLeft (s.called next (.write data timeout), chunks) = workLeft (s, chunks) := by
  simp [workLeft, Session.called, hpending]

end

/-- **A clean turn** stays on the way. Unless nothing more will be written, it writes a message or
leaves less to do. -/
theorem Follows.turn {total : Forecast} {config : Session × List (List Byte)}
    (h : Follows total config) (hclean : CleanTurn config) :
    Follows total (Session.turn config) ∧
      (Quiet total (Session.turn config).1 ∨
        config.1.sent.length < (Session.turn config).1.sent.length ∧
          workLeft (Session.turn config) = workLeft config ∨
        config.1.sent = (Session.turn config).1.sent ∧
          workLeft (Session.turn config) < workLeft config) := by
  obtain ⟨s, chunks⟩ := config
  cases hpending : s.pending with
  | none =>
      obtain ⟨foresee, -, hviews, -, -⟩ := h.view
      obtain ⟨last, next, op, hpath, -, -, hout, hnext, -⟩ :=
        call_spec (.inl (hviews.ready hpending))
      have hfollows := h.called hpending hclean hnext
      rw [Session.turn_call hpending hnext]
      refine ⟨hfollows, ?_⟩
      cases op with
      | read offset size timeout =>
          refine .inr (.inr ⟨by simp [Session.called, sentBy], ?_⟩)
          exact work_left_read chunks hpending offset size timeout
      | write data timeout =>
          refine .inr (.inl ⟨by simp [Session.called, sentBy], ?_⟩)
          exact work_left_write chunks hpending data timeout
      | close =>
          have hstate := hout.of_close
          refine .inl (hfollows.quiet ?_)
          intro foresee' hviews'
          cases hviews' with
          | pauses _ hsome => simp [Session.called, hpending] at hsome
          | sees ctrl' raw' _ _ _ hsees' =>
              obtain ⟨rfl, rfl⟩ := hsees'.line_eq (by simp [InData, Session.called, hstate])
              have hctrl : next.ctrl = .terminate := by simp [Conn.ctrl, hstate]
              show (next.forecast next.ctrl _).2 = [] ∧
                (next.forecast next.ctrl _).1.ctrl ≠ .poisoned
              rw [hctrl, forecast_eq (by simp [hstate]) (by simp [hstate]), forecast_terminate]
              simp
  | some size =>
      cases chunks with
      | nil =>
          rw [Session.turn_idle hpending]
          refine ⟨h, .inl (h.quiet ?_)⟩
          intro foresee hviews
          cases hviews with
          | sees _ _ hnone => rw [hpending] at hnone; cases hnone
          | pauses ctrl _ hwaiting hpause =>
              show (s.conn.forecast ctrl []).2 = [] ∧ (s.conn.forecast ctrl []).1.ctrl ≠ .poisoned
              obtain ⟨hinit, hclear⟩ := hpause.quiet
              rw [forecast_eq hinit hwaiting.reads, forecast_nil]
              exact ⟨rfl, hclear⟩
      | cons chunk more =>
          rw [Session.turn_input hpending]
          exact ⟨h.fed hpending hclean, .inr (.inr ⟨rfl, work_left_fed hpending chunk more⟩)⟩

/-- On a clean way either more and more is written, or at some time nothing more will be. -/
theorem Follows.long {total : Forecast} {config : Session × List (List Byte)}
    (h : Follows total config) (hclean : ∀ count, CleanTurn (Session.turn^[count] config))
    (goal : Nat) :
    ∃ count, goal ≤ (Session.turn^[count] config).1.sent.length ∨
      Quiet total (Session.turn^[count] config).1 := by
  refine eventually_rule
    (fun config ↦ Follows total config ∧ ∀ count, CleanTurn (Session.turn^[count] config))
    (fun config ↦ goal ≤ config.1.sent.length ∨ Quiet total config.1)
    (fun config ↦ config.1.sent.length) workLeft goal ?_ ?_ config ⟨h, hclean⟩
  · rintro config ⟨hfollows, hlater⟩ -
    obtain ⟨hnext, hprogress⟩ := hfollows.turn (hlater 0)
    refine ⟨⟨hnext, fun count ↦ hlater (count + 1)⟩, ?_⟩
    rcases hprogress with hquiet | hmore | ⟨hsame, hwork⟩
    · exact .inl (.inr hquiet)
    · exact .inr (.inl hmore)
    · exact .inr (.inr ⟨congrArg List.length hsame, hwork⟩)
  · intro config _ hdone
    exact Nat.lt_of_not_le fun hle ↦ hdone (.inl hle)

/-- What the byte machine foresees of a new connection. -/
def foreseen (room : Nat) (stream : List Byte) : Forecast :=
  (ByteMachine.forecast room (.command .new) [] stream).after [greet]

section

variable {inputMemory outputMemory : List Byte} {buffer : Buffer 128} {chunks : List (List Byte)}

/-- A new connection is on the way. -/
theorem follows_start (hin : 0 < inputMemory.length) (hout : 0 < outputMemory.length)
    (hchunks : ∀ chunk ∈ chunks, 1 ≤ chunk.length ∧ chunk.length ≤ inputMemory.length) :
    Follows (foreseen outputMemory.length chunks.flatten)
      (.start (.new inputMemory outputMemory buffer), chunks) := by
  have hready : (Conn.new inputMemory outputMemory buffer).Ready :=
    ⟨⟨hin, hout, Nat.zero_le _⟩, Nat.le_refl _, rfl, Nat.zero_le _,
      by simp [Conn.new], fun _ _ ↦ rfl⟩
  have hviews : Views (· = chunks.flatten) (.start (.new inputMemory outputMemory buffer)) _ :=
    .sees _ _ rfl hready (by simp [Fed, Session.start, Conn.new]) (sees_init rfl)
  have htotal : Conn.forecast (.new inputMemory outputMemory buffer) (.command .new)
      ((Conn.new inputMemory outputMemory buffer).rest ++ chunks.flatten) =
        foreseen outputMemory.length chunks.flatten := by
    rw [forecast_init rfl]
    rfl
  refine ⟨hchunks, _, 0, hviews, congrArg Prod.fst htotal, ?_⟩
  have hspell : (foreseen outputMemory.length chunks.flatten).spell 0 =
      (foreseen outputMemory.length chunks.flatten).2 := by
    rw [Forecast.spell]
    split <;> simp
  rw [hspell]
  exact congrArg Prod.snd htotal

/-- A clean delivery stays on the way. -/
theorem follows_delivered (hin : 0 < inputMemory.length) (hout : 0 < outputMemory.length)
    (hchunks : ∀ chunk ∈ chunks, 1 ≤ chunk.length ∧ chunk.length ≤ inputMemory.length)
    (hclean : CleanDelivery (.new inputMemory outputMemory buffer) chunks) (count : Nat) :
    Follows (foreseen outputMemory.length chunks.flatten)
      (Session.turn^[count] (.start (.new inputMemory outputMemory buffer), chunks)) := by
  induction count with
  | zero => exact follows_start hin hout hchunks
  | succ count ih =>
      rw [Function.iterate_succ_apply']
      exact (ih.turn (hclean count)).1

/-- **A clean delivery writes what the byte machine writes on the stream.** -/
theorem delivered_as_foreseen (hin : 0 < inputMemory.length) (hout : 0 < outputMemory.length)
    (hchunks : ∀ chunk ∈ chunks, 1 ≤ chunk.length ∧ chunk.length ≤ inputMemory.length)
    (hclean : CleanDelivery (.new inputMemory outputMemory buffer) chunks) :
    Logs.Same
      (fun count ↦ (Session.delivered (.new inputMemory outputMemory buffer) chunks count).sent)
      (foreseen outputMemory.length chunks.flatten).spell := by
  refine Logs.same_of_long (Forecast.spell_grows _) ?_ ?_
  · intro count
    obtain ⟨_, repeats, -, -, hsent⟩ := (follows_delivered hin hout hchunks hclean count).view
    exact ⟨repeats, _, hsent⟩
  · intro count
    obtain ⟨turns, hlong | ⟨hsent, hclear⟩⟩ := (follows_start hin hout hchunks).long hclean
      ((foreseen outputMemory.length chunks.flatten).spell count).length
    · exact ⟨turns, hlong⟩
    · refine ⟨turns, ?_⟩
      show _ ≤ (Session.turn^[turns] _).1.sent.length
      rw [hsent, Forecast.spell, if_neg hclear, List.append_nil]

end

end Smerp.Pecho
