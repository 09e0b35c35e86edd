import Smerp.Pecho.Delivery

/-!
# One byte per read

With an input block of one byte every read fills the block, and the byte that is left at the mark is
the one that completed it. `clean_of_gentle` says that such a delivery is clean as long as no byte
of the stream falls into one of the two remaining gaps: behind a carriage return on an empty command
line, and behind an argument.
-/

namespace Smerp.Pecho

open Lib Protocol Network Conn ByteMachine Relation

namespace ByteMachine

variable {room : Nat}

/-- Each byte is read in the same way if what was passed last is forgotten, and none is
poisonous. -/
def Gentle (room : Nat) : ByteState → List Byte → Prop
  | _, [] => True
  | s, ch :: rest => (s.ctrl = .emptyLineCr → isBlank ch = false ∧ ch ≠ CR) ∧
      (∀ buf, s.ctrl = .modeToken buf → isBlank ch = false) ∧
      (delta room s ch).1.ctrl ≠ .poisoned ∧ Gentle room (delta room s ch).1 rest

/-- A gentle stream is gentle in its parts. -/
theorem gentle_append {s : ByteState} {front back : List Byte} :
    Gentle room s (front ++ back) ↔
      Gentle room s front ∧ Gentle room (Transducer.feed (delta room) s front).1 back := by
  induction front generalizing s with
  | nil => simp [Gentle]
  | cons ch rest ih => simp only [List.cons_append, Gentle, Transducer.feed_cons, ih, and_assoc]

/-- A gentle stream does not poison. -/
theorem Gentle.not_poisoned {s : ByteState} {stream : List Byte} (h : Gentle room s stream)
    (hs : s.ctrl ≠ .poisoned) : (Transducer.feed (delta room) s stream).1.ctrl ≠ .poisoned := by
  induction stream generalizing s with
  | nil => exact hs
  | cons ch rest ih => exact ih h.2.2.2 h.2.2.1

end ByteMachine

/-- The mark in a block of one byte is that byte. -/
theorem scan_single {phase : EoD.Phase} {ch terminator : Byte} {kept rest : List Byte}
    (h : EoD.scan phase [ch] = .marked kept terminator rest) :
    kept = [] ∧ terminator = ch ∧ rest = [] := by
  rcases EoD.scan_cons phase ch [] with ⟨hscan, -, -⟩ | ⟨front, hscan, -, -, -⟩
  · rw [hscan] at h
    cases h
    exact ⟨rfl, rfl, rfl⟩
  · rw [hscan, EoD.scan_nil] at h
    cases h

section

variable {ScanOk : EoD.Phase → List Byte → Prop}

/-- In a block of one byte every pass is clean. -/
theorem one_byte_pass {c : Conn} (hsingle : ∀ phase ch, ScanOk phase [ch]) (h : c.Ready)
    (hsize : c.input.size = 1) : CleanPass ScanOk c := by
  have hlen := h.rest_length
  have heom := h.eom_eq
  have hpos := h.pos_le
  constructor
  · intro _ blanks ch more hrest _ _
    rw [hrest] at hlen
    simp only [List.length_append, List.length_cons] at hlen
    obtain rfl : more = [] := List.length_eq_zero_iff.mp (by omega)
    exact ⟨by omega, hsingle _ ch⟩
  · intro _ line more hrest _ _
    rw [hrest] at hlen
    simp only [List.length_append, List.length_cons] at hlen
    obtain rfl : more = [] := List.length_eq_zero_iff.mp (by omega)
    simp

/-- A byte that fills the block is clean input, unless it falls into a gap. -/
theorem one_byte_input {c : Conn} {ch : Byte} (hsingle : ∀ phase ch, ScanOk phase [ch])
    (hsize : c.input.size = 1)
    (hline : c.state = .emptyLine → c.lastPassed = some CR → isBlank ch = false ∧ ch ≠ CR)
    (hmode : c.state = .enterMode → ∀ last, c.lastPassed = some last → isTokenChar last = true →
      isBlank ch = false) : CleanInput ScanOk c [ch] where
  processing _ := ⟨hsize.symm, hsingle _ ch⟩
  startProcessing _ := ⟨hsize.symm, if ch = LF then .lf else .src, by simp [EoD.scan]⟩
  emptyLine hstate hlast := by simpa using hline hstate hlast
  enterMode hstate last hlast htoken := by simpa using hmode hstate last hlast htoken

end

/-- In a block of one byte the mark is returned and does no harm. -/
theorem mark_ok_single (future : List Byte) (phase : EoD.Phase) (ch : Byte) :
    MarkOk future phase [ch] := by
  intro kept terminator rest hscan
  obtain ⟨rfl, rfl, rfl⟩ := scan_single hscan
  refine ⟨by decide, ?_⟩
  intro placeholder hplace
  obtain rfl : terminator = placeholder := by simpa using hplace
  unfold placeholderOk
  split <;> simp

/-- In a block of one byte the mark is returned, and the byte left in its place is the same. -/
theorem scan_alike_single (phase : EoD.Phase) (ch : Byte) :
    ScanAlike (fun _ ↦ True) phase [ch] := by
  intro kept terminator rest hscan
  obtain ⟨rfl, rfl, rfl⟩ := scan_single hscan
  refine ⟨by decide, ?_⟩
  intro placeholder hplace
  obtain rfl : terminator = placeholder := by simpa using hplace
  exact fun _ _ _ _ ↦ rfl

/-- A delivery byte by byte on its way: what the machine writes on the bytes passed, whatever
follows, is what was sent and what is foreseen. -/
def OnTrack (room : Nat) (stream : List Byte) (config : Session × List (List Byte)) : Prop :=
  ∃ passed rest, stream = passed ++ rest ∧ config.2 = rest.map ([·]) ∧
    config.1.conn.input.size = 1 ∧ ∃ foresee, Views (fun _ ↦ True) config.1 foresee ∧
      ∀ back, foreseen room (passed ++ back) = (foresee back).after config.1.sent

section

variable {room : Nat} {stream : List Byte} {config : Session × List (List Byte)}

/-- The state that the machine has reached. -/
theorem foreseen_state (stream : List Byte) :
    (foreseen room stream).1 = (Transducer.feed (delta room) ⟨.command .new, []⟩ stream).1 := rfl

/-- A handler that waits for a byte stands in a gap only if the machine does. -/
theorem gap_free {s : Session} {foresee : List Byte → Forecast} {size : Nat}
    {passed rest : List Byte}
    {ch : Byte} (hviews : Views (fun _ ↦ True) s foresee) (hpending : s.pending = some size)
    (htrack : ∀ back, foreseen room (passed ++ back) = (foresee back).after s.sent)
    (hcoming : Gentle room (Transducer.feed (delta room) ⟨.command .new, []⟩ passed).1
      (ch :: rest)) :
    (s.conn.state = .emptyLine → s.conn.lastPassed = some CR → isBlank ch = false ∧ ch ≠ CR) ∧
      (s.conn.state = .enterMode → ∀ last, s.conn.lastPassed = some last →
        isTokenChar last = true → isBlank ch = false) := by
  cases hviews with
  | sees _ _ hnone => rw [hpending] at hnone; cases hnone
  | pauses ctrl _ hwaiting hpause =>
      have hmachine : (Transducer.feed (delta room) ⟨.command .new, []⟩ passed).1.ctrl = ctrl := by
        have hnow := htrack []
        rw [List.append_nil] at hnow
        rw [← foreseen_state, hnow]
        show (s.conn.forecast ctrl []).1.ctrl = ctrl
        rw [forecast_eq hpause.quiet.1 hwaiting.reads, forecast_nil]
      obtain ⟨hcr, hmode, -, -⟩ := hcoming
      rw [hmachine] at hcr hmode
      cases hpause with
      | whole _ hcut _ =>
          refine ⟨fun hstate hlast ↦ absurd (.inl ⟨hstate, hlast⟩) hcut, ?_⟩
          intro hstate last hlast htoken
          exact absurd (.inr ⟨hstate, last, hlast, htoken⟩) hcut
      | emptyLineCr hstate hlast =>
          refine ⟨fun _ _ ↦ hcr rfl, ?_⟩
          intro hother
          exact absurd (hstate.symm.trans hother) (by decide)
      | modeToken hstate _ hlast htoken =>
          refine ⟨?_, fun _ _ _ _ ↦ hmode _ rfl⟩
          intro hother
          exact absurd (hstate.symm.trans hother) (by decide)

/-- On a gentle stream every turn is clean, and its messages are those of the machine. -/
theorem OnTrack.turn (h : OnTrack room stream config)
    (hgentle : Gentle room ⟨.command .new, []⟩ stream) :
    CleanTurn config ∧ OnTrack room stream (Session.turn config) := by
  obtain ⟨s, chunks⟩ := config
  obtain ⟨passed, rest, rfl, rfl, hsize, foresee, hviews, htrack⟩ := h
  obtain ⟨hpassed, hcoming⟩ := gentle_append.mp hgentle
  cases hpending : s.pending with
  | none =>
      have hready := hviews.ready hpending
      have hclean {ScanOk : EoD.Phase → List Byte → Prop} (hsingle : ∀ phase ch, ScanOk phase [ch])
          (last : Conn) (hpath : ReflTransGen (Again pass) s.conn last) : CleanPass ScanOk last :=
        one_byte_pass hsingle (again_ready hready hpath).1
          ((again_ready hready hpath).2.trans hsize)
      obtain ⟨last, next, op, -, -, -, -, hnext, -⟩ := call_spec (.inl hready)
      obtain ⟨foresee', hviews', hsame⟩ := hviews.called hpending (hclean scan_alike_single) hnext
      rw [Session.turn_call hpending hnext]
      refine ⟨?_, passed, rest, rfl, rfl, (Session.call_after hready hnext).2.1.trans hsize,
        foresee', hviews', ?_⟩
      · simp only [CleanTurn, hpending]
        exact hclean (mark_ok_single _)
      · intro back
        rcases hsame with hsame | ⟨out, hhere, -, -⟩
        · rw [htrack, hsame back trivial, Forecast.after_after]
          rfl
        · -- a gentle stream has not poisoned the handler
          have hpoison : (foreseen room passed).1.ctrl = .poisoned := by
            have hnow := htrack []
            rw [List.append_nil, hhere [] trivial] at hnow
            rw [hnow]
            rfl
          rw [foreseen_state] at hpoison
          exact absurd hpoison (hpassed.not_poisoned (by simp))
  | some size =>
      cases rest with
      | nil =>
          rw [List.map_nil, Session.turn_idle hpending]
          exact ⟨by simp [CleanTurn, hpending], passed, [], rfl, rfl, hsize, foresee,
            hviews, htrack⟩
      | cons ch rest =>
          have hbyte : s.conn.input.size = 1 → 1 ≤ [ch].length ∧
              [ch].length ≤ s.conn.input.size := by
            intro hone
            simp [hone]
          obtain ⟨hpos, hle⟩ := hbyte hsize
          have hgap := gap_free hviews hpending htrack hcoming
          have hwaiting := hviews.waiting (by simp [hpending])
          have hfed := (hwaiting.network_input hle).2
          rw [List.map_cons, Session.turn_input hpending]
          refine ⟨?_, passed ++ [ch], rest, by simp, rfl, hfed.trans hsize,
            fun back ↦ foresee ([ch] ++ back), ?_, ?_⟩
          · simp only [CleanTurn, hpending]
            exact one_byte_input (mark_ok_single _) hsize hgap.1 hgap.2
          · exact hviews.fed (by simp [hpending]) hpos hle
              (one_byte_input scan_alike_single hsize hgap.1 hgap.2)
          · intro back
            rw [List.append_assoc]
            exact htrack _

end

/-- **The delivery of a gentle stream byte by byte is clean.** -/
theorem clean_of_gentle {inputMemory outputMemory : List Byte} {buffer : Buffer 128}
    {stream : List Byte} (hin : inputMemory.length = 1) (hout : 0 < outputMemory.length)
    (hgentle : Gentle outputMemory.length ⟨.command .new, []⟩ stream) :
    CleanDelivery (.new inputMemory outputMemory buffer) (stream.map ([·])) := by
  have htrack (count : Nat) : OnTrack outputMemory.length stream
      (Session.turn^[count] (.start (.new inputMemory outputMemory buffer), stream.map ([·]))) := by
    induction count with
    | zero =>
        have hready : (Conn.new inputMemory outputMemory buffer).Ready :=
          ⟨⟨by rw [show (Conn.new inputMemory outputMemory buffer).input.size = 1 from hin]; decide,
            hout, Nat.zero_le _⟩, Nat.le_refl _, rfl, Nat.zero_le _,
              by simp [Conn.new], fun _ _ ↦ rfl⟩
        refine ⟨[], stream, rfl, rfl, hin, _, .sees _ _ rfl hready ?_ (sees_init rfl), ?_⟩
        · simp [Fed, Session.start, Conn.new]
        · intro back
          show foreseen _ back = (Conn.forecast (.new inputMemory outputMemory buffer) _ _).after []
          rw [forecast_init rfl]
          rfl
    | succ count ih =>
        rw [Function.iterate_succ_apply']
        exact (ih.turn hgentle).2
  exact fun count ↦ ((htrack count).turn hgentle).1

end Smerp.Pecho
