import Smerp.Pecho.Contents
import Smerp.Pecho.Delivery

/-!
# The first echo of a connection

Reads that fill the input block cut the first echo command of a connection anywhere: inside of the
command line, of the data, or of the mark. `Stage` says what the handler has still to do at each
point of the way, and `first_echo_exact_iff` that the echo is exact. The one exception are blocks
that keep `2 ^ 31` bytes of the data in front of the mark, where `getEoD` takes its position for no
position.
-/

namespace Smerp.Pecho

open Lib Protocol Network Conn ByteMachine Relation

/-! ## Reads and what they bring -/

/-- Every read but the last one fills the block. -/
def FullReads (size : Nat) : List (List Byte) → Prop
  | [] => True
  | chunk :: more => 1 ≤ chunk.length ∧ chunk.length ≤ size ∧ (more ≠ [] → chunk.length = size) ∧
      FullReads size more

/-- The reads without the first bytes of the stream. -/
def dropBytes : Nat → List (List Byte) → List (List Byte)
  | _, [] => []
  | count, chunk :: more => chunk.drop count :: dropBytes (count - chunk.length) more

/-- The bytes of the data that are kept in front of the mark in the read in which the mark falls,
the dots at line starts not counted. -/
def keptBeforeMark : EoD.Phase → List (List Byte) → Nat
  | _, [] => 0
  | phase, piece :: more =>
      match EoD.scan phase piece with
      | .unmarked _ final => keptBeforeMark final more
      | .marked kept _ _ => kept.length

/-- The argument of `echo` that selects a mode, with the blank in front of it. -/
def argument : Mode → List Byte
  | .ident => []
  | .lowercase => text " tolower"
  | .uppercase => text " toupper"

/-- Up to and including the second greeting exactly the greeting, the reply to `echo`, the content
and the greeting again are sent. -/
def FirstEchoExact (c : Conn) (chunks : List (List Byte)) (mode : Mode) (lines : List (List Byte)) :
    Prop :=
  ∃ turns, (Session.delivered c chunks turns).sent.count greet = 2 ∧
    (Session.delivered c chunks turns).sent.getLast? = some greet ∧
    (Session.delivered c chunks turns).sentBytes =
      greeting ++ (text "OK enter data" ++ CRLF) ++
        (CRLF ++ (withoutDots lines).map (convert mode)) ++ greeting

/-- Dropping bytes that a read starts with. -/
theorem drop_bytes_append (front back : List Byte) (count : Nat) (more : List (List Byte)) :
    dropBytes (front.length + count) ((front ++ back) :: more) =
      dropBytes count (back :: more) := by
  have hdrop : (front ++ back).drop (front.length + count) = back.drop count := by
    rw [← List.drop_drop, List.drop_left]
  rw [dropBytes, dropBytes, hdrop, List.length_append, Nat.add_sub_add_left]

/-- Dropping nothing. -/
theorem drop_bytes_zero (chunks : List (List Byte)) : dropBytes 0 chunks = chunks := by
  induction chunks with
  | nil => rfl
  | cons chunk more ih =>
      unfold dropBytes
      rw [Nat.zero_sub, ih, List.drop_zero]

/-- A read that is dropped as a whole has no part in the mark. -/
theorem kept_before_mark_passed (phase : EoD.Phase) (front : List Byte) (count : Nat)
    (more : List (List Byte)) :
      keptBeforeMark phase (dropBytes (front.length + count) (front :: more)) =
      keptBeforeMark phase (dropBytes count more) := by
  have hdrop : front.drop (front.length + count) = [] :=
    List.drop_eq_nil_of_le (Nat.le_add_right _ _)
  have hleft : front.length + count - front.length = count := Nat.add_sub_cancel_left _ _
  rw [dropBytes, hdrop, hleft, keptBeforeMark, EoD.scan_nil]

/-! ## The stages -/

section

variable (mode : Mode) (lines : List (List Byte)) (further : List Byte) (room limit : Nat)

/-- All that is sent up to the second greeting. -/
def firstEcho : List Sent :=
  greet :: line .processing "OK enter data" :: (echoMessages room mode [] lines ++ [greet])

/-- The part of the command line that is still to be read. -/
inductive Entering (c : Conn) : List Byte → Prop
  | init (hstate : c.state = .init) : Entering c (text "echo" ++ argument mode)
  | command (token : List Byte) (hstate : c.state = .enterCommand)
      (htoken : ∀ ch ∈ token, isTokenChar ch = true)
      (hecho : Command.ofIndex (commandParser.lookup (c.cmdBuffer.pushAll token).value) =
        some .echo) :
      Entering c (token ++ argument mode)
  | mode (blanks token : List Byte) (hstate : c.state = .enterMode)
      (hblank : ∀ ch ∈ blanks, isBlank ch = true) (htoken : ∀ ch ∈ token, isTokenChar ch = true)
      (hmode : Mode.ofIndex (modeParser.lookup (c.cmdBuffer.pushAll token).value) = some mode) :
      Entering c (blanks ++ token)
  | start (hstate : c.state = .startProcessing) (hmode : c.mode = mode) : Entering c []

/-- What comes behind the block: nothing of the data, when the mark was found in it, and the rest of
the data otherwise. -/
def Coming (c : Conn) (chunks : List (List Byte)) (later : List Byte) : Prop :=
  later = [] ∧ c.eoD < c.eoM ∨
    c.eoD = c.eoM ∧ chunks.flatten = later ++ LF :: further ∧
      keptBeforeMark c.input.eodState.phase chunks = limit ∧
      ∃ kept, EoD.scan c.input.eodState.phase later = .marked kept CR []

/-- The data ends with the byte that completes the mark, and the position of the mark is one. -/
def Ends (later received _held : List Byte) : Prop :=
  received = [CR] ∧ later = [] ∧ limit < 2 ^ 31

/-- The way to the second greeting, where the handler has something to look at: in the command line,
in the data, behind the data, or in data whose mark got lost. -/
inductive Stage (c : Conn) (sent : List Sent) (chunks : List (List Byte)) : Prop
  | entering (left : List Byte) (henter : Entering mode c left) (hroom : c.output.size = room)
      (hempty : c.output.content = []) (hsent : sent ++ c.owed = [greet])
      (hcoming : c.rest ++ chunks.flatten = left ++ echoData lines ++ LF :: further)
      (hkept : keptBeforeMark .src (dropBytes left.length (c.rest :: chunks)) = limit)
      (hwhole : c.rest = [] ∨ chunks = [] ∨ c.eoM = c.input.size)
      (hstart : c.state = .startProcessing → c.rest ≠ [])
  | data (phase : EoD.Phase) (raw later : List Byte) (hstate : c.InData)
      (hview : DataView (Ends limit later) c phase raw)
        (hcoming : Coming further limit c chunks later)
      (hcount : sent.count greet = 1)
      (hsent : sent ++ (c.forecast (.processing c.mode phase) (raw ++ later)).2 =
        firstEcho mode lines room)
  | ended (hstate : c.state = .init) (hsent : sent ++ [greet] = firstEcho mode lines room)
      (hcount : sent.count greet = 1) (hshort : limit < 2 ^ 31)
  | lost (hstate : c.InData) (hphase : c.input.eodState.phase = .done) (hend : c.eoD = c.eoM)
      (hcount : sent.count greet = 1) (hlong : 2 ^ 31 ≤ limit)

/-- The way to the second greeting, where the handler waits for input. -/
inductive Awaits (c : Conn) (sent : List Sent) (chunks : List (List Byte)) : Prop
  | entering (left : List Byte) (henter : Entering mode c left) (hroom : c.output.size = room)
      (hstate : c.state = .enterCommand ∨ c.state = .enterMode)
      (hempty : c.output.content = []) (hsent : sent = [greet])
      (hcoming : chunks.flatten = left ++ echoData lines ++ LF :: further)
      (hkept : keptBeforeMark .src (dropBytes left.length chunks) = limit)
  | data (later kept : List Byte) (hstate : c.state = .processing)
      (hcoming : chunks.flatten = later ++ LF :: further)
      (hscan : EoD.scan c.input.eodState.phase later = .marked kept CR [])
      (hkept : keptBeforeMark c.input.eodState.phase chunks = limit) (hcount : sent.count greet = 1)
      (hsent : sent ++ (c.forecast (.processing c.mode c.input.eodState.phase) later).2 =
        firstEcho mode lines room)
  | lost (hstate : c.state = .processing) (hphase : c.input.eodState.phase = .done)
      (hcount : sent.count greet = 1) (hlong : 2 ^ 31 ≤ limit)

end

section

variable {mode : Mode} {lines : List (List Byte)} {further : List Byte} {room limit : Nat}
  {c next : Conn} {sent : List Sent} {chunks : List (List Byte)} {op : Option Operation}

/-! ## Scans -/

/-- A scan of a block behind which more of the data is to come. -/
theorem stage_of_open (block : InputBlock) {start : Nat} {got later kept : List Byte}
    (hstate : c.InData) (hstart : start < block.size) (hinput : c.input = (block.getEoD start).2)
    (heoD : c.eoD = (block.getEoD start).1) (heoM : c.eoM = c.input.pos) (hitr : c.itr = start)
    (hraw : block.bytes.drop start = got) (hne : later ≠ [])
    (hback : chunks.flatten = later ++ LF :: further)
    (hscan : EoD.scan block.eodState.phase (got ++ later) = .marked kept CR [])
    (hkept : keptBeforeMark block.eodState.phase (got :: chunks) = limit)
    (hcount : sent.count greet = 1)
    (hsent : sent ++ (c.forecast (.processing c.mode block.eodState.phase) (got ++ later)).2 =
      firstEcho mode lines room) :
    Stage mode lines further room limit c sent chunks := by
  rw [EoD.scan_append] at hscan
  cases hgot : EoD.scan block.eodState.phase got with
  | marked front terminator rest =>
      rw [hgot] at hscan
      obtain ⟨-, -, -, hlater⟩ : _ ∧ _ ∧ rest = [] ∧ later = [] := by simpa using hscan
      exact absurd hlater hne
  | unmarked front final =>
      rw [hgot] at hscan
      have hview : DataView (Ends limit later) c block.eodState.phase got := by
        refine data_view_of_scan block hstart hinput heoD heoM hitr hraw (fun _ _ h ↦ h) ?_
        intro _ _ _ _ hmarked
        cases hgot.symm.trans hmarked
      obtain ⟨hphase, hend⟩ : c.input.eodState.phase = final ∧ c.eoD = c.eoM := by
        cases hview with
        | unmarked hscan' hend =>
            cases hgot.symm.trans hscan'
            exact ⟨rfl, hend⟩
        | marked _ _ hscan' => cases hgot.symm.trans hscan'
      refine .data _ got later hstate hview (.inr ⟨hend, hback, ?_, ?_⟩) hcount hsent
      · rw [← hkept, keptBeforeMark, hgot, hphase]
      · rw [hphase]
        cases hlater : EoD.scan final later with
        | unmarked => simp [hlater] at hscan
        | marked back terminator rest =>
            obtain ⟨-, rfl, rfl⟩ : _ ∧ terminator = CR ∧ rest = [] :=
              by simpa [hlater] using hscan
            exact ⟨back, rfl⟩

/-- A scan of a block that holds the whole data. What lies behind the mark does not matter. -/
theorem stage_of_marked (block : InputBlock) {start : Nat} {awaited behind kept : List Byte}
    (hstate : c.InData) (hstart : start < block.size) (hinput : c.input = (block.getEoD start).2)
    (heoD : c.eoD = (block.getEoD start).1) (heoM : c.eoM = c.input.pos) (hitr : c.itr = start)
    (hraw : block.bytes.drop start = awaited ++ behind)
    (hscan : EoD.scan block.eodState.phase awaited = .marked kept CR [])
    (hlimit : kept.length = limit) (hsize : block.size < 2 ^ 32) (hcount : sent.count greet = 1)
    (hsent : sent ++ (c.forecast (.processing c.mode block.eodState.phase) awaited).2 =
      firstEcho mode lines room) :
    Stage mode lines further room limit c sent chunks := by
  have hwhole : EoD.scan block.eodState.phase (awaited ++ behind) = .marked kept CR behind := by
    rw [EoD.scan_append, hscan]
    rfl
  by_cases hshort : limit < 2 ^ 31
  · have hview : DataView (Ends limit []) c block.eodState.phase awaited := by
      refine data_view_of_scan block hstart hinput heoD heoM hitr hraw ?_ ?_
      · intro _ _ hopen
        cases hwhole.symm.trans hopen
      · intro kept' terminator rest placeholder hmarked _
        cases hwhole.symm.trans hmarked
        exact ⟨hlimit ▸ hshort, [], hscan, rfl, rfl, hshort⟩
    have hlt : c.eoD < c.eoM := by
      cases hview with
      | unmarked hopen => cases hscan.symm.trans hopen
      | marked _ _ _ hlt => exact hlt
    refine .data _ awaited [] hstate hview (.inl ⟨rfl, hlt⟩) hcount ?_
    rw [List.append_nil]
    exact hsent
  · rw [← hraw] at hwhole
    obtain ⟨state, placeholder, hdone, -, heq⟩ := EoD.get_eod_marked block hstart hwhole
    have hle := EoD.scan_marked_length hwhole
    have hlen : kept.length ≤ block.size := by
      rw [List.length_drop] at hle
      show kept.length ≤ block.bytes.length
      omega
    have hlong : 2 ^ 31 ≤ limit := Nat.le_of_not_lt hshort
    have hneg : toInt kept.length < 0 :=
      EoD.to_int_neg (hlimit ▸ hlong) (Nat.lt_of_le_of_lt hlen hsize)
    rw [heq, if_neg (Int.not_le.mpr hneg)] at heoD
    refine .lost hstate ?_ ?_ hcount hlong
    · rw [hinput, heq]
      exact hdone
    · rw [heoD, heoM, hinput, heq]

/-- **A scan of data that is on its way**: the mark is not in the block yet, or it was found, or its
position got lost. -/
theorem stage_of_scan (block : InputBlock) {start : Nat} {got stale awaited kept : List Byte}
    (hstate : c.InData) (hstart : start < block.size) (hinput : c.input = (block.getEoD start).2)
    (heoD : c.eoD = (block.getEoD start).1) (heoM : c.eoM = c.input.pos) (hitr : c.itr = start)
    (hraw : block.bytes.drop start = got ++ stale) (hstale : stale = [] ∨ chunks = [])
    (hcoming : got ++ chunks.flatten = awaited ++ LF :: further)
    (hscan : EoD.scan block.eodState.phase awaited = .marked kept CR [])
    (hkept : keptBeforeMark block.eodState.phase (got :: chunks) = limit)
    (hsize : block.size < 2 ^ 32) (hcount : sent.count greet = 1)
    (hsent : sent ++ (c.forecast (.processing c.mode block.eodState.phase) awaited).2 =
      firstEcho mode lines room) :
    Stage mode lines further room limit c sent chunks := by
  -- the mark lies behind the block, or the block holds all that is awaited
  have hcases :
    (∃ later, later ≠ [] ∧ awaited = got ++ later ∧ chunks.flatten = later ++ LF :: further) ∨
      ∃ behind, got = awaited ++ behind := by
    rcases List.append_eq_append_iff.mp hcoming with ⟨later, hlater, hback⟩ | ⟨behind, hbehind, -⟩
    · cases later with
      | nil => exact .inr ⟨[], by simpa using hlater.symm⟩
      | cons ch later => exact .inl ⟨ch :: later, by simp, hlater, hback⟩
    · exact .inr ⟨behind, hbehind⟩
  rcases hcases with ⟨later, hne, rfl, hback⟩ | ⟨behind, rfl⟩
  · -- more reads are to come, so nothing stale was scanned
    have hmore : chunks ≠ [] := by
      rintro rfl
      simp at hback
    obtain rfl : stale = [] := hstale.resolve_right hmore
    rw [List.append_nil] at hraw
    exact stage_of_open block hstate hstart hinput heoD heoM hitr hraw hne hback hscan hkept hcount
      hsent
  · have hlimit : kept.length = limit := by
      rw [← hkept, keptBeforeMark, EoD.scan_append, hscan]
    rw [List.append_assoc] at hraw
    exact stage_of_marked block hstate hstart hinput heoD heoM hitr hraw hscan hlimit hsize hcount
      hsent

/-! ## The command line -/

/-- The argument is a token behind blanks that selects the mode. -/
theorem argument_split (mode : Mode) : ∃ blanks token, argument mode = blanks ++ token ∧
    (∀ ch ∈ blanks, isBlank ch = true) ∧ (∀ ch ∈ token, isTokenChar ch = true) ∧
    Mode.ofIndex (modeParser.lookup (CmdBuffer.new.pushAll token).value) = some mode := by
  cases mode with
  | ident => exact ⟨[], [], rfl, by simp, by simp, by decide⟩
  | lowercase =>
      exact ⟨text " ", text "tolower", rfl, List.all_eq_true.mp (by decide),
        List.all_eq_true.mp (by decide), by decide⟩
  | uppercase =>
      exact ⟨text " ", text "toupper", rfl, List.all_eq_true.mp (by decide),
        List.all_eq_true.mp (by decide), by decide⟩

/-- Behind `echo` stands a byte that ends the command. -/
theorem argument_ends (mode : Mode) (back : List Byte) :
    ∃ ch rest, argument mode ++ CR :: back = ch :: rest ∧ isTokenChar ch = false := by
  cases mode with
  | ident => exact ⟨CR, back, rfl, by decide⟩
  | lowercase => exact ⟨SPACE, text "tolower" ++ CR :: back, rfl, by decide⟩
  | uppercase => exact ⟨SPACE, text "toupper" ++ CR :: back, rfl, by decide⟩

/-- The data of an echo starts with the line end of the command line. -/
theorem echo_data_eq (lines : List (List Byte)) :
    echoData lines = CR :: (LF :: (content lines ++ [DOT, CR])) := by
  simp [echoData, CRLF]

/-- The byte behind some blanks, if these end there, is no blank. -/
theorem token_first {token : List Byte} {ch : Byte} (back : List Byte)
    (htoken : ∀ ch ∈ token, isTokenChar ch = true) (hstart : token = [] → isBlank ch = false) :
    ∃ first rest, token ++ ch :: back = first :: rest ∧ isBlank first = false := by
  cases token with
  | nil => exact ⟨ch, back, rfl, hstart rfl⟩
  | cons first rest =>
      refine ⟨first, rest ++ ch :: back, rfl, ?_⟩
      cases hblank : isBlank first with
      | false => rfl
      | true => simpa [is_token_char_blank hblank] using htoken first (by simp)

/-- Blanks and a token that are read in front of a line end are part of the argument. -/
theorem argument_front {blanks token blanks' token' back back' : List Byte}
    (h : blanks ++ token ++ back = blanks' ++ token' ++ CR :: back')
    (hblank : ∀ ch ∈ blanks, isBlank ch = true) (htoken : ∀ ch ∈ token, isTokenChar ch = true)
    (hblank' : ∀ ch ∈ blanks', isBlank ch = true) (htoken' : ∀ ch ∈ token', isTokenChar ch = true) :
    ∃ blanks'' token'', blanks' ++ token' = blanks ++ token ++ (blanks'' ++ token'') ∧
      (∀ ch ∈ blanks'', isBlank ch = true) ∧ token' = token ++ token'' := by
  have hcr : isBlank CR = false := by decide
  have hcr' : isTokenChar CR = false := by decide
  obtain ⟨first, rest, hfirst, hnot⟩ := token_first back' htoken' fun _ ↦ hcr
  rw [List.append_assoc, List.append_assoc, hfirst] at h
  obtain ⟨blanks'', rfl, hback⟩ := split_front h hblank hnot
  cases token with
  | nil => exact ⟨blanks'', token', by simp, fun ch hch ↦ hblank' ch (by simp [hch]), rfl⟩
  | cons ch token =>
      cases blanks'' with
      | nil =>
          rw [← hfirst, List.nil_append] at hback
          obtain ⟨token'', rfl, -⟩ := split_front hback htoken hcr'
          exact ⟨[], token'', by simp, by simp, rfl⟩
      | cons blank blanks'' =>
          obtain ⟨rfl, -⟩ : ch = blank ∧ _ := by simpa using hback
          have hbad := htoken ch (by simp)
          rw [is_token_char_blank (hblank' ch (by simp))] at hbad
          cases hbad

/-- Blanks and a token that are ended by another byte are the argument. -/
theorem argument_whole {blanks token blanks' token' back back' : List Byte} {ch : Byte}
    (h : blanks ++ token ++ ch :: back = blanks' ++ token' ++ CR :: back')
    (hblank : ∀ ch ∈ blanks, isBlank ch = true) (htoken : ∀ ch ∈ token, isTokenChar ch = true)
    (hch : isTokenChar ch = false) (hstart : token = [] → isBlank ch = false)
    (hblank' : ∀ ch ∈ blanks', isBlank ch = true) (htoken' : ∀ ch ∈ token', isTokenChar ch = true) :
    blanks = blanks' ∧ token = token' ∧ ch = CR ∧ back = back' := by
  have hcr : isBlank CR = false := by decide
  have hcr' : isTokenChar CR = false := by decide
  obtain ⟨first, rest, hfirst, hnot⟩ := token_first back htoken hstart
  obtain ⟨first', rest', hfirst', hnot'⟩ := token_first back' htoken' fun _ ↦ hcr
  rw [List.append_assoc, List.append_assoc, hfirst, hfirst'] at h
  obtain ⟨rfl, rfl, rfl⟩ := split_unique h hblank hnot hblank' hnot'
  exact ⟨rfl, split_unique (hfirst.trans hfirst'.symm) htoken hch htoken' hcr'⟩

/-! ## Passes -/

variable (mode lines further room limit) in
/-- Where a pass leads on the way to the second greeting. -/
inductive Leads (c next : Conn) (op : Option Operation) (sent : List Sent)
    (chunks : List (List Byte)) :
    Prop
  | reads (hop : op = some c.readOp) (hnext : Awaits mode lines further room limit next sent chunks)
  | goes (hop : op ≠ some c.readOp)
      (hnext : Stage mode lines further room limit next (sent ++ sentByPass next op) chunks)
  | ends (hop : op = some (.write greeting 0))
      (hsent : sent ++ sentByPass next op = firstEcho mode lines room)
      (hshort : limit < 2 ^ 31)

/-- The block behind the iterator: the rest of the message, and what older reads have left. -/
theorem drop_itr (h : c.Ready) :
    c.input.bytes.drop c.itr = c.rest ++ c.input.bytes.drop c.eoM := by
  have hdrop : c.input.bytes.drop c.eoM = (c.input.bytes.drop c.itr).drop (c.eoM - c.itr) := by
    rw [List.drop_drop, Nat.add_sub_cancel' h.itr_le]
  rw [hdrop]
  exact (List.take_append_drop _ _).symm

/-- The scan that the line end behind the command starts. -/
theorem start_scan_stage (h : c.Ready) (hlines : ∀ line ∈ lines, IsLine line)
    (hsize : c.input.size < 2 ^ 32) (hne : c.rest ≠ []) (hroom : c.output.size = room)
    (hempty : c.output.content = []) (hmode : c.mode = mode) (hsent : sent = [greet])
    (hcoming : c.rest ++ chunks.flatten = echoData lines ++ LF :: further)
    (hkept : keptBeforeMark .src (c.rest :: chunks) = limit)
    (hlast : chunks = [] ∨ c.eoM = c.input.size) :
    Stage mode lines further room limit (replied (c.scanned []) .processing (text "OK enter data"))
      (sent ++ [line .processing "OK enter data"]) chunks := by
  have hstale : c.input.bytes.drop c.eoM = [] ∨ chunks = [] := by
    rcases hlast with hlast | hfull
    · exact .inr hlast
    · exact .inl (List.drop_eq_nil_of_le (Nat.le_of_eq hfull.symm))
  have hlt : c.itr < c.input.resetEoD.size := by
    have hpos := List.length_pos_iff.mpr hne
    have hlen := h.rest_length
    have heom := h.eom_eq
    have hle := h.pos_le
    show c.itr < c.input.size
    omega
  refine stage_of_scan c.input.resetEoD (.inl rfl) hlt rfl rfl rfl rfl (drop_itr h) hstale hcoming
    (scan_echo_data hlines) hkept hsize ?_ ?_
  · rw [hsent]
    rfl
  · have hforecast :
      ByteMachine.forecast room (.processing mode .src) [] (echoData lines ++ []) = _ :=
      forecast_echo_data hlines []
    rw [List.append_nil] at hforecast
    rw [forecast_eq (by simp [replied]) (by simp [replied])]
    show _ ++ (ByteMachine.forecast c.output.size (.processing c.mode .src) c.output.content
      (echoData lines)).2 = _
    rw [hroom, hempty, hmode, hforecast, hsent]
    simp [Forecast.after, firstEcho]

variable (lines further room limit) in
/-- A handler on the first command line: what is left of the line is `left`. -/
structure OnLine (c : Conn) (sent : List Sent) (chunks : List (List Byte)) (left : List Byte) :
    Prop where
  ready : c.Ready
  room : c.output.size = room
  empty : c.output.content = []
  sent : sent ++ c.owed = [greet]
  coming : c.rest ++ chunks.flatten = left ++ echoData lines ++ LF :: further
  kept : keptBeforeMark .src (dropBytes left.length (c.rest :: chunks)) = limit
  whole : c.rest = [] ∨ chunks = [] ∨ c.eoM = c.input.size
  start : c.state = .startProcessing → c.rest ≠ []

namespace OnLine

variable {left : List Byte}

/-- A pass that reads to the end of the block. -/
theorem reads (h : OnLine lines further room limit c sent chunks left) (left' : List Byte)
    (hleft : left = c.rest ++ left') (hop : op = some c.readOp) (henter' : Entering mode next left')
    (hinit : c.state ≠ .init) (hstate : next.state = .enterCommand ∨ next.state = .enterMode)
    (houtput : next.output = c.output) :
    Leads mode lines further room limit c next op sent chunks := by
  have hsent := h.sent
  rw [owed, if_neg hinit, List.append_nil] at hsent
  refine .reads hop (.entering left' henter' (by rw [houtput, h.room]) hstate
    (by rw [houtput, h.empty]) hsent ?_ ?_)
  · have hcoming := h.coming
    rw [hleft, List.append_assoc, List.append_assoc, List.append_cancel_left_eq] at hcoming
    rw [hcoming, List.append_assoc]
  · rw [← h.kept, hleft, List.length_append, kept_before_mark_passed]

/-- A pass that goes on in the block. -/
theorem moves (h : OnLine lines further room limit c sent chunks left)
    (front back left' : List Byte)
    (hrest : c.rest = front ++ back) (hleft : left = front ++ left') (hop : op ≠ some c.readOp)
    (henter' : Entering mode next left') (hnext : next.rest = back)
    (houtput : next.output = c.output) (hsent : sent ++ sentByPass next op ++ next.owed = [greet])
    (hinput : next.input = c.input) (heoM : next.eoM = c.eoM)
    (hstart : next.state = .startProcessing → back ≠ []) :
    Leads mode lines further room limit c next op sent chunks := by
  refine .goes hop (.entering left' henter' (by rw [houtput, h.room]) (by rw [houtput, h.empty])
    hsent ?_ ?_ ?_ ?_)
  · have hcoming := h.coming
    rw [hrest, hleft] at hcoming
    simp only [List.append_assoc, List.append_cancel_left_eq] at hcoming
    rw [hnext, hcoming, List.append_assoc]
  · rw [← h.kept, hleft, hrest, hnext, List.length_append, drop_bytes_append]
  · rw [hnext, heoM, hinput]
    refine h.whole.imp_left ?_
    intro hnil
    rw [hrest] at hnil
    exact (List.append_eq_nil_iff.mp hnil).2
  · rw [hnext]
    exact hstart

/-- Behind the line the echo data follows, from its carriage return on. -/
theorem coming_cr (h : OnLine lines further room limit c sent chunks left) :
    c.rest ++ chunks.flatten =
      left ++ CR :: (LF :: (content lines ++ [DOT, CR]) ++ LF :: further) := by
  have hdata : echoData lines ++ LF :: further =
      CR :: (LF :: (content lines ++ [DOT, CR]) ++ LF :: further) := by
    rw [echo_data_eq]
    rfl
  rw [h.coming, List.append_assoc, hdata]

/-- Only the greeting is still owed. -/
theorem sent_all (h : OnLine lines further room limit c sent chunks left)
    (hstate : c.state ≠ .init) :
    sent = [greet] := by
  have hsent := h.sent
  rw [owed, if_neg hstate, List.append_nil] at hsent
  exact hsent

/-- The greeting. -/
theorem init_pass (h : OnLine lines further room limit c sent chunks (text "echo" ++ argument mode))
    (hout : Outcome c next op) (hstate : c.state = .init) :
    Leads mode lines further room limit c next op sent chunks := by
  cases hout with
  | greet _ =>
      have hbuffer := h.ready.token (by simp [hstate]) (by simp [hstate])
      refine h.moves [] c.rest _ rfl rfl (by simp [readOp])
        (.command (text "echo") rfl echo_token ?_) rfl rfl ?_ rfl rfl (by simp [replied])
      · show Command.ofIndex (commandParser.lookup (c.cmdBuffer.pushAll _).value) = _
        rw [hbuffer]
        exact echo_command
      · have hsent := h.sent
        rw [owed, if_pos hstate] at hsent
        rw [owed, if_neg (by simp [replied]), List.append_nil]
        exact hsent
  | _ => exact absurd (hstate.symm.trans ‹c.state = _›) (by decide)

/-- The command name. -/
theorem command_pass {token : List Byte}
    (h : OnLine lines further room limit c sent chunks (token ++ argument mode))
    (hout : Outcome c next op) (hstate : c.state = .enterCommand)
    (htoken : ∀ ch ∈ token, isTokenChar ch = true)
    (hecho : Command.ofIndex (commandParser.lookup (c.cmdBuffer.pushAll token).value) =
      some .echo) :
    Leads mode lines further room limit c next op sent chunks := by
  have hsent := h.sent_all (by simp [hstate])
  have hcoming := h.coming_cr
  obtain ⟨ch', rest', hends, hch'⟩ := argument_ends mode
    (LF :: (content lines ++ [DOT, CR]) ++ LF :: further)
  rw [List.append_assoc, hends] at hcoming
  cases hout with
  | commandRead _ hall =>
      obtain ⟨token', rfl, -⟩ := split_front hcoming hall hch'
      refine h.reads (token' ++ argument mode) (by simp) rfl ?_ (by simp [hstate])
        (.inl hstate) rfl
      refine .command token' hstate (fun ch hch ↦ htoken ch (by simp [hch])) ?_
      rw [CmdBuffer.push_all_append] at hecho
      exact hecho
  | commandEnd token' ch more _ hrest htoken' hch _ _ hreaction =>
      rw [hrest, List.append_assoc] at hcoming
      obtain ⟨rfl, -, -⟩ := split_unique hcoming htoken' hch htoken hch'
      rw [hecho] at hreaction
      cases hreaction
      obtain ⟨blanks, word, hargument, hblank, hword, hmode⟩ := argument_split mode
      have henter' : Entering mode { c with
          state := .enterMode, itr := c.itr + token'.length, cmdBuffer :=
            .new } (argument mode) := by
        rw [hargument]
        exact .mode blanks word rfl hblank hword hmode
      refine h.moves token' (ch :: more) (argument mode) hrest rfl (by simp) henter'
        (slice_passed hrest) rfl ?_ rfl rfl (by simp)
      simp [sentByPass, owed, hsent]
  | _ => exact absurd (hstate.symm.trans ‹c.state = _›) (by decide)

/-- The argument. -/
theorem mode_pass {blanks token : List Byte}
    (h : OnLine lines further room limit c sent chunks (blanks ++ token))
    (hout : Outcome c next op) (hstate : c.state = .enterMode)
    (hblank : ∀ ch ∈ blanks, isBlank ch = true) (htoken : ∀ ch ∈ token, isTokenChar ch = true)
    (hmode : Mode.ofIndex (modeParser.lookup (c.cmdBuffer.pushAll token).value) = some mode) :
    Leads mode lines further room limit c next op sent chunks := by
  have hsent := h.sent_all (by simp [hstate])
  have hcoming := h.coming_cr
  cases hout with
  | modeRead blanks' token' _ hrest hblank' htoken' =>
      rw [hrest] at hcoming
      obtain ⟨blanks'', token'', hleft, hblank'', rfl⟩ :=
        argument_front hcoming hblank' htoken' hblank htoken
      refine h.reads (blanks'' ++ token'') (by rw [hleft, hrest]) rfl ?_ (by simp [hstate])
        (.inr hstate) rfl
      refine .mode blanks'' token'' hstate hblank'' (fun ch hch ↦ htoken ch (by simp [hch])) ?_
      rw [CmdBuffer.push_all_append] at hmode
      exact hmode
  | modeEnd blanks' token' ch more _ hrest hblank' htoken' hch hfirst _ _ hreaction =>
      rw [hrest, List.append_assoc, List.cons_append] at hcoming
      obtain ⟨rfl, rfl, -⟩ :=
        argument_whole hcoming hblank' htoken' hch hfirst hblank htoken
      rw [hmode] at hreaction
      cases hreaction
      refine h.moves (blanks' ++ token') (ch :: more) [] hrest (by simp) (by simp)
        (.start rfl rfl)
        (slice_passed hrest) rfl ?_ rfl rfl (by simp)
      simp [sentByPass, owed, hsent]
  | _ => exact absurd (hstate.symm.trans ‹c.state = _›) (by decide)

/-- The line end behind the command. -/
theorem start_pass (h : OnLine lines further room limit c sent chunks []) (hout : Outcome c next op)
    (hstate : c.state = .startProcessing) (hmode : c.mode = mode)
    (hlines : ∀ line ∈ lines, IsLine line) (hsize : c.input.size < 2 ^ 32) :
    Leads mode lines further room limit c next op sent chunks := by
  have hsent := h.sent_all (by simp [hstate])
  have hcoming := h.coming_cr
  rw [List.nil_append] at hcoming
  have hhead {blanks more : List Byte} {ch : Byte} (hrest : c.rest = blanks ++ ch :: more)
      (hblank : ∀ ch ∈ blanks, isBlank ch = true) (hch : isBlank ch = false) :
      blanks = [] ∧ ch = CR := by
    rw [hrest, List.append_assoc] at hcoming
    obtain ⟨hblanks, hcr, -⟩ := split_unique hcoming hblank hch
      (show ∀ ch ∈ ([] : List Byte), isBlank ch = true by simp) (by decide)
    exact ⟨hblanks, hcr⟩
  cases hout with
  | startRead _ hblank =>
      -- the block holds the line end, which is no blank
      obtain ⟨ch, more, hrest⟩ := List.exists_cons_of_ne_nil (h.start hstate)
      rw [hrest] at hcoming
      obtain ⟨rfl, -⟩ : ch = CR ∧ _ := by simpa using hcoming
      exact absurd (hblank CR (by simp [hrest])) (by decide)
  | startBad blanks ch more _ hrest hblank hch hend =>
      obtain ⟨-, rfl⟩ := hhead hrest hblank hch
      exact absurd hend (by decide)
  | startScan blanks ch more _ hrest hblank hend eoD input hscan =>
      have hch : isBlank ch = false := by
        cases hblank' : isBlank ch with
        | false => rfl
        | true => simp [is_line_end_blank hblank'] at hend
      obtain ⟨rfl, rfl⟩ := hhead hrest hblank hch
      have hkept : keptBeforeMark .src (dropBytes 0 (c.rest :: chunks)) = limit := h.kept
      rw [drop_bytes_zero] at hkept
      have hlast : chunks = [] ∨ c.eoM = c.input.size := h.whole.resolve_left (h.start hstate)
      obtain ⟨rfl, rfl⟩ : (c.input.resetEoD.getEoD (c.itr + 0)).1 = eoD ∧
          (c.input.resetEoD.getEoD (c.itr + 0)).2 = input := by
        exact ⟨congrArg Prod.fst hscan, congrArg Prod.snd hscan⟩
      exact .goes (by simp [readOp])
        (start_scan_stage h.ready hlines hsize (h.start hstate) h.room h.empty hmode hsent
        h.coming hkept hlast)
  | _ => exact absurd (hstate.symm.trans ‹c.state = _›) (by decide)

end OnLine

/-- **Passes in the command line.** -/
theorem entering_pass {left : List Byte} (h : OnLine lines further room limit c sent chunks left)
    (hout : Outcome c next op) (hlines : ∀ line ∈ lines, IsLine line)
    (hsize : c.input.size < 2 ^ 32) (henter : Entering mode c left) :
    Leads mode lines further room limit c next op sent chunks := by
  cases henter with
  | init hstate => exact h.init_pass hout hstate
  | command token hstate htoken hecho => exact h.command_pass hout hstate htoken hecho
  | mode blanks token hstate hblank htoken hmode =>
      exact h.mode_pass hout hstate hblank htoken hmode
  | start hstate hmode => exact h.start_pass hout hstate hmode hlines hsize

/-- A message that is sent in another state is not the greeting. -/
theorem count_greet_sent (h : next.state ≠ .enterCommand) :
    (sentByPass next op).count greet = 0 := by
  refine List.count_eq_zero.mpr fun hmem ↦ h ?_
  cases op with
  | none => cases hmem
  | some op =>
      cases op with
      | write data timeout =>
          have heq : greet = ⟨next.state, data⟩ := List.mem_singleton.mp hmem
          exact (congrArg Sent.state heq).symm
      | read => cases hmem
      | close => cases hmem

/-- Behind a pass that does not lead to a command line the greeting was still sent once. -/
theorem count_greet_pass (hstate : next.state ≠ .enterCommand) (hone : sent.count greet = 1) :
    (sent ++ sentByPass next op).count greet = 1 := by
  rw [List.count_append, hone, count_greet_sent hstate]

/-- **Passes in the data.** -/
theorem data_pass {phase : EoD.Phase} {raw later : List Byte} (hready : c.Ready)
    (hout : Outcome c next op) (hstate : c.InData)
    (hview : DataView (Ends limit later) c phase raw)
    (hcoming : Coming further limit c chunks later) (hone : sent.count greet = 1)
    (hsent : sent ++ (c.forecast (.processing c.mode phase) (raw ++ later)).2 =
      firstEcho mode lines room) :
    Leads mode lines further room limit c next op sent chunks := by
  cases hout with
  | release hwritten =>
      obtain ⟨hview', hforecast⟩ := hview.release hwritten rfl
      refine .goes (by simp)
        (.data phase raw later (.inl rfl) hview' hcoming (count_greet_pass (by simp) hone) ?_)
      rw [hforecast] at hsent
      rw [sentByPass, List.append_nil]
      exact hsent
  | echoFull hprocessing hroom =>
      obtain ⟨phase', raw', hview', hforecast⟩ := hview.echo_full hready hprocessing hroom rfl
      refine .goes (by simp [readOp]) (.data phase' raw' later (.inr rfl) hview' hcoming
        (count_greet_pass (by simp) hone) ?_)
      rw [hforecast] at hsent
      rw [List.append_assoc]
      exact hsent
  | echoRead hprocessing hroom hend =>
      have hforecast := hview.echo_read hready hprocessing hroom hend rfl
      rcases hcoming with ⟨-, hlt⟩ | ⟨-, hback, hkept, kept, hscan⟩
      · omega
      · refine .reads rfl (.data later kept hprocessing hback hscan hkept hone ?_)
        rw [hforecast] at hsent
        exact hsent
  | echoEnd hprocessing hroom hend _ hop =>
      obtain ⟨terminator, rest, ⟨hends, hlater, hshort⟩, hforecast⟩ :=
        hview.echo_end hready hprocessing hroom hend hop rfl
      have hread : op ≠ some c.readOp := by
        rw [hop]
        split <;> simp [readOp]
      refine .goes hread (.ended rfl ?_ (count_greet_pass (by simp) hone) hshort)
      -- the byte that completes the mark starts an empty line, which is not answered
      rw [hforecast, hends, hlater, forecast_init rfl] at hsent
      rw [List.append_assoc]
      exact hsent
  | _ => exact absurd hstate (by simp [InData, ‹c.state = _›])

/-- Passes in data whose mark got lost. -/
theorem lost_pass (hout : Outcome c next op) (hstate : c.InData)
    (hphase : c.input.eodState.phase = .done) (hend : c.eoD = c.eoM) (hone : sent.count greet = 1)
    (hlong : 2 ^ 31 ≤ limit) : Leads mode lines further room limit c next op sent chunks := by
  cases hout with
  | release _ =>
      exact .goes (by simp)
        (.lost (.inl rfl) hphase hend (count_greet_pass (by simp) hone) hlong)
  | echoFull _ _ =>
      exact .goes (by simp [readOp])
        (.lost (.inr rfl) hphase hend (count_greet_pass (by simp) hone) hlong)
  | echoRead hprocessing _ _ => exact .reads rfl (.lost hprocessing hphase hone hlong)
  | echoEnd _ _ hlt => omega
  | _ => exact absurd hstate (by simp [InData, ‹c.state = _›])

/-- **Every pass stays on the way, or sends the second greeting.** -/
theorem Stage.pass (h : Stage mode lines further room limit c sent chunks) (hready : c.Ready)
    (hout : Outcome c next op) (hlines : ∀ line ∈ lines, IsLine line)
    (hsize : c.input.size < 2 ^ 32) :
    Leads mode lines further room limit c next op sent chunks := by
  cases h with
  | entering left henter hroom hempty hsent hcoming hkept hwhole hstart =>
      exact entering_pass ⟨hready, hroom, hempty, hsent, hcoming, hkept, hwhole, hstart⟩ hout hlines
        hsize henter
  | data phase raw later hstate hview hcoming hone hsent =>
      exact data_pass hready hout hstate hview hcoming hone hsent
  | ended hstate hsent hone hshort =>
      cases hout with
      | greet _ => exact .ends rfl hsent hshort
      | _ => exact absurd (hstate.symm.trans ‹c.state = _›) (by decide)
  | lost hstate hphase hend hone hlong => exact lost_pass hout hstate hphase hend hone hlong

/-- Behind the mark everything that is received is kept. -/
theorem done_fed {c : Conn} (hprocessing : c.state = .processing)
    (hphase : c.input.eodState.phase = .done) {chunk : List Byte}
    (hstart : 0 < (c.receivedBlock chunk).size) :
    (c.networkInput chunk).input.eodState.phase = .done ∧
      (c.networkInput chunk).eoD = (c.networkInput chunk).eoM := by
  have hscan : EoD.scan (c.receivedBlock chunk).eodState.phase
      ((c.receivedBlock chunk).bytes.drop 0) =
        .unmarked ((c.receivedBlock chunk).bytes.drop 0) .done := by
    show EoD.scan c.input.eodState.phase _ = _
    rw [hphase]
    exact EoD.scan_done _
  obtain ⟨state, hdone, heq⟩ := EoD.get_eod_unmarked (c.receivedBlock chunk) hstart hscan
  rw [network_input_scan (.inl hprocessing), heq]
  exact ⟨hdone, rfl⟩

/-- A read in the command line goes on with its token. -/
theorem Entering.fed {left : List Byte} (h : Entering mode c left) (chunk : List Byte)
    (hcase : c.state = .enterCommand ∨ c.state = .enterMode) :
    Entering mode (c.networkInput chunk) left := by
  obtain ⟨hstate, -, hbuffer, -⟩ := network_input_frame c chunk
  cases h with
  | init hinit => simp [hinit] at hcase
  | command token hcommand htoken hecho =>
      exact .command token (hstate.trans hcommand) htoken (by rw [hbuffer]; exact hecho)
  | mode blanks token henterMode hblank htoken hmode' =>
      exact .mode blanks token (hstate.trans henterMode) hblank htoken
        (by rw [hbuffer]; exact hmode')
  | start hprocessing => simp [hprocessing] at hcase

/-- **A read stays on the way.** -/
theorem Awaits.fed {chunk : List Byte} {more : List (List Byte)}
    (h : Awaits mode lines further room limit c sent (chunk :: more)) (hwaiting : c.Waiting)
    (hle : chunk.length ≤ c.input.size) (hfull : more ≠ [] → chunk.length = c.input.size)
    (hsize : c.input.size < 2 ^ 32) :
    Stage mode lines further room limit (c.networkInput chunk) sent more := by
  obtain ⟨hready, hsame⟩ := hwaiting.network_input hle
  obtain ⟨hstate, hmode, -, houtput⟩ := network_input_frame c chunk
  -- the block behind the bytes received
  have hraw : (c.receivedBlock chunk).bytes.drop 0 = chunk ++ c.input.bytes.drop chunk.length := by
    simp [receivedBlock, Block.store]
  have hlen : (c.receivedBlock chunk).size = c.input.size :=
    Block.store_length (by simpa [MemBlock.size] using hle)
  have hstart : 0 < (c.receivedBlock chunk).size := hlen.symm ▸ hwaiting.size_pos
  have hstale : c.input.bytes.drop chunk.length = [] ∨ more = [] := by
    by_cases hmore : more = []
    · exact .inr hmore
    · exact .inl (List.drop_eq_nil_of_le (Nat.le_of_eq (hfull hmore).symm))
  cases h with
  | entering left henter hroom hcase hempty hsent hcoming hkept =>
      have hplain : ¬ (c.state = .processing ∨ c.state = .startProcessing) := by
        rcases hcase with hcase | hcase <;> simp [hcase]
      have hrest := network_input_rest hplain chunk
      refine .entering left (henter.fed chunk hcase) (by rw [houtput, hroom])
        (by rw [houtput, hempty]) ?_ ?_ ?_ ?_ ?_
      · rw [owed, hstate, if_neg (by rcases hcase with hcase | hcase <;> simp [hcase]), hsent]
        rfl
      · rw [hrest]
        exact hcoming
      · rw [hrest]
        exact hkept
      · by_cases hmore : more = []
        · exact .inr (.inl hmore)
        · refine .inr (.inr ?_)
          rw [hsame, network_input_plain hplain]
          exact hfull hmore
      · intro hprocessing
        rw [hstate] at hprocessing
        simp [hprocessing] at hcase
  | data later kept hprocessing hcoming hscan hkept hone hsent =>
      have hsent' : sent ++ ((c.networkInput chunk).forecast
          (.processing (c.networkInput chunk).mode c.input.eodState.phase) later).2 =
            firstEcho mode lines room := by
        rw [network_input_forecast, hmode]
        exact hsent
      have hin : (c.networkInput chunk).InData := .inl (hstate.trans hprocessing)
      refine stage_of_scan (c.receivedBlock chunk) hin hstart ?_ ?_ ?_ ?_ hraw hstale hcoming
        hscan hkept
        (by rw [hlen]; exact hsize) hone hsent'
      all_goals rw [network_input_scan (.inl hprocessing)]
  | lost hprocessing hphase hone hlong =>
      obtain ⟨hphase', hend⟩ := done_fed hprocessing hphase hstart
      exact .lost (.inl (hstate.trans hprocessing)) hphase' hend hone hlong

/-! ## Turns -/

variable {config : Session × List (List Byte)}

variable (mode lines further room limit) in
/-- A delivery on its way to the second greeting. -/
structure OnWay (config : Session × List (List Byte)) : Prop where
  size : config.1.conn.input.size < 2 ^ 32
  reads : FullReads config.1.conn.input.size config.2
  stage : config.1.pending = none ∧ config.1.conn.Ready ∧
      Stage mode lines further room limit config.1.conn config.1.sent config.2 ∨
    config.1.pending ≠ none ∧ config.1.conn.Waiting ∧
      Awaits mode lines further room limit config.1.conn config.1.sent config.2

/-- On the way the handler has not been told to terminate. -/
theorem Stage.not_terminate (h : Stage mode lines further room limit c sent chunks) :
    c.state ≠ .terminate := by
  intro hstate
  cases h with
  | entering left henter => cases henter <;> simp_all
  | data _ _ _ hdata => simp [InData, hstate] at hdata
  | ended hinit => simp [hstate] at hinit
  | lost hdata => simp [InData, hstate] at hdata

/-- Passes that go round again stay on the way. -/
theorem Stage.again {last : Conn} (h : Stage mode lines further room limit c sent chunks)
    (hready : c.Ready) (hpath : ReflTransGen (Again Conn.pass) c last)
    (hlines : ∀ line ∈ lines, IsLine line) (hsize : c.input.size < 2 ^ 32) :
    Stage mode lines further room limit last sent chunks := by
  induction hpath with
  | refl => exact h
  | @tail mid last hpath hstep ih =>
      obtain ⟨hmid, hsame⟩ := again_ready hready hpath
      obtain ⟨next, op, hpass, hout, -⟩ := pass_spec (.inl hmid)
      obtain ⟨rfl, rfl⟩ : next = last ∧ op = none := by simpa [Again, hpass] using hstep
      cases ih.pass hmid hout hlines (hsame.symm ▸ hsize) with
      | reads hop _ => cases hop
      | goes _ hnext =>
          rw [sentByPass, List.append_nil] at hnext
          exact hnext
      | ends hop _ _ => cases hop

variable (mode lines further room limit) in
/-- The turn stays on the way, or sends the second greeting. As long as the position of the mark is
one, the turn sends a message or leaves less to do. -/
def Proceeds (config : Session × List (List Byte)) : Prop :=
  (OnWay mode lines further room limit (Session.turn config) ∧ (limit < 2 ^ 31 →
      config.1.sent.length < (Session.turn config).1.sent.length ∧
          workLeft (Session.turn config) = workLeft config ∨
        config.1.sent.length = (Session.turn config).1.sent.length ∧
          workLeft (Session.turn config) < workLeft config)) ∨
    (Session.turn config).1.sent = firstEcho mode lines room ∧ limit < 2 ^ 31

section

variable {s : Session}

/-- A turn that is a call. -/
theorem Stage.turn (hstage : Stage mode lines further room limit s.conn s.sent chunks)
    (hpending : s.pending = none) (hready : s.conn.Ready) (hlines : ∀ line ∈ lines, IsLine line)
    (hsize : s.conn.input.size < 2 ^ 32) (hreads : FullReads s.conn.input.size chunks) :
    Proceeds mode lines further room limit (s, chunks) := by
  obtain ⟨last, next, op, hpath, -, -, hout, hcall, -⟩ := call_spec (.inl hready)
  obtain ⟨hlast, hsame⟩ := again_ready hready hpath
  obtain ⟨-, hnext, -⟩ := hout.after hlast
  have hsize' : next.input.size = s.conn.input.size := hnext.trans hsame
  have hsize'' : (s.called next op).conn.input.size < 2 ^ 32 := by
    show next.input.size < 2 ^ 32
    rw [hsize']
    exact hsize
  have hreads' : FullReads (s.called next op).conn.input.size chunks := by
    show FullReads next.input.size chunks
    rw [hsize']
    exact hreads
  rw [Proceeds, Session.turn_call hpending hcall]
  cases (hstage.again hready hpath hlines hsize).pass hlast hout hlines (hsame.symm ▸ hsize) with
  | reads hop hawaits =>
      obtain rfl := Option.some.inj hop
      rcases hout.read_or_ready hlast with ⟨-, -, hwaiting⟩ | ⟨hread, -, -⟩
      · refine .inl ⟨⟨hsize'', hreads', .inr ⟨by simp [Session.called, readOp], hwaiting, ?_⟩⟩,
          fun _ ↦ .inr ⟨by simp [Session.called, sentBy, readOp], ?_⟩⟩
        · show Awaits _ _ _ _ _ _ (s.sent ++ []) _
          rw [List.append_nil]
          exact hawaits
        · exact work_left_read chunks hpending _ _ _
      · cases hread
  | goes hop hstage' =>
      rcases hout.read_or_ready hlast with ⟨-, hread, -⟩ | ⟨hread, -, hready'⟩
      · exact absurd (congrArg some hread) hop
      · cases op with
        | read offset size timeout => cases hread
        | close => exact absurd hout.of_close hstage'.not_terminate
        | write data timeout =>
            refine .inl ⟨⟨hsize'', hreads', .inl ⟨hpending, hready', hstage'⟩⟩,
              fun _ ↦ .inl ⟨by simp [Session.called, sentBy], ?_⟩⟩
            exact work_left_write chunks hpending data timeout
  | ends hop hsent hshort => exact .inr ⟨hsent, hshort⟩

/-- A turn that answers a read. -/
theorem Awaits.turn {size : Nat}
    (hawaits : Awaits mode lines further room limit s.conn s.sent chunks)
    (hpending : s.pending = some size) (hwaiting : s.conn.Waiting)
    (hsize : s.conn.input.size < 2 ^ 32) (hreads : FullReads s.conn.input.size chunks) :
    Proceeds mode lines further room limit (s, chunks) := by
  cases chunks with
  | nil =>
      have hsome : s.pending ≠ none := by simp [hpending]
      rw [Proceeds, Session.turn_idle hpending]
      refine .inl ⟨⟨hsize, hreads, .inr ⟨hsome, hwaiting, hawaits⟩⟩, ?_⟩
      intro hshort
      -- the reads hold the mark
      cases hawaits with
      | entering _ _ _ _ _ _ hcoming => simp at hcoming
      | data _ _ _ hcoming => simp at hcoming
      | lost _ _ _ hlong => exact absurd hshort (Nat.not_lt_of_le hlong)
  | cons chunk more =>
      obtain ⟨-, hle, hfull, hmore⟩ := hreads
      obtain ⟨hready, hsame⟩ := hwaiting.network_input hle
      have hstage := hawaits.fed hwaiting hle hfull hsize
      rw [Proceeds, Session.turn_input hpending]
      refine .inl ⟨⟨?_, ?_, .inl ⟨rfl, hready, hstage⟩⟩,
        fun _ ↦ .inr ⟨rfl, work_left_fed hpending chunk more⟩⟩
      · show (s.conn.networkInput chunk).input.size < 2 ^ 32
        rw [hsame]
        exact hsize
      · show FullReads (s.conn.networkInput chunk).input.size more
        rw [hsame]
        exact hmore

end

/-- **Every turn** stays on the way, or sends the second greeting. -/
theorem OnWay.turn (h : OnWay mode lines further room limit config)
    (hlines : ∀ line ∈ lines, IsLine line) : Proceeds mode lines further room limit config := by
  obtain ⟨s, chunks⟩ := config
  obtain ⟨hsize, hreads, ⟨hpending, hready, hstage⟩ | ⟨hpending, hwaiting, hawaits⟩⟩ := h
  · exact hstage.turn hpending hready hlines hsize hreads
  · obtain ⟨size, hsome⟩ := Option.ne_none_iff_exists'.mp hpending
    exact hawaits.turn hsome hwaiting hsize hreads

/-- No more is sent than up to the second greeting. -/
theorem OnWay.sent_length (h : OnWay mode lines further room limit config)
    (hshort : limit < 2 ^ 31) :
    config.1.sent.length ≤ (firstEcho mode lines room).length := by
  have hgreet : 1 ≤ (firstEcho mode lines room).length := by simp [firstEcho]
  have hfront {front back all : List Sent} (heq : front ++ back = all) :
    front.length ≤ all.length := by
    rw [← heq, List.length_append]
    exact Nat.le_add_right _ _
  rcases h.stage with ⟨-, -, hstage⟩ | ⟨-, -, hawaits⟩
  · cases hstage with
    | entering _ _ _ _ hsent => exact Nat.le_trans (hfront hsent) hgreet
    | data _ _ _ _ _ _ _ hsent => exact hfront hsent
    | ended _ hsent => exact hfront hsent
    | lost _ _ _ _ hlong => exact absurd hshort (Nat.not_lt_of_le hlong)
  · cases hawaits with
    | entering _ _ _ _ _ hsent =>
        rw [hsent]
        exact hgreet
    | data _ _ _ _ _ _ _ hsent => exact hfront hsent
    | lost _ _ _ hlong => exact absurd hshort (Nat.not_lt_of_le hlong)

/-- On the way the second greeting has not been sent. -/
theorem OnWay.count_greet (h : OnWay mode lines further room limit config) :
    config.1.sent.count greet ≤ 1 := by
  rcases h.stage with ⟨-, -, hstage⟩ | ⟨-, -, hawaits⟩
  · cases hstage with
    | entering _ _ _ _ hsent =>
        have hcount := congrArg (List.count greet) hsent
        rw [List.count_append, List.count_singleton_self] at hcount
        omega
    | data _ _ _ _ _ _ hone => exact Nat.le_of_eq hone
    | ended _ _ hone => exact Nat.le_of_eq hone
    | lost _ _ _ hone => exact Nat.le_of_eq hone
  · cases hawaits with
    | entering _ _ _ _ _ hsent =>
        rw [hsent, List.count_singleton_self]
    | data _ _ _ _ _ _ hone => exact Nat.le_of_eq hone
    | lost _ _ hone => exact Nat.le_of_eq hone

/-- When the position of the mark is one, the second greeting is sent, behind what belongs in front
of it. -/
theorem OnWay.arrives (h : OnWay mode lines further room limit config)
    (hlines : ∀ line ∈ lines, IsLine line) (hshort : limit < 2 ^ 31) :
    ∃ turns, (Session.turn^[turns] config).1.sent = firstEcho mode lines room := by
  refine eventually_rule
    (fun config ↦ OnWay mode lines further room limit config ∨
      config.1.sent = firstEcho mode lines room)
    (fun config ↦ config.1.sent = firstEcho mode lines room) (fun config ↦ config.1.sent.length)
    workLeft ((firstEcho mode lines room).length + 1) ?_ ?_ config (.inl h)
  · intro config hinv hdone
    rcases (hinv.resolve_right hdone).turn hlines with ⟨hnext, hprogress⟩ | ⟨hsent, -⟩
    · exact ⟨.inl hnext, .inr (hprogress hshort)⟩
    · exact ⟨.inr hsent, .inl hsent⟩
  · intro config hinv hdone
    exact Nat.lt_succ_of_le ((hinv.resolve_right hdone).sent_length hshort)

/-- When it is not, the delivery stays on the way for ever. -/
theorem OnWay.stays (h : OnWay mode lines further room limit config)
    (hlines : ∀ line ∈ lines, IsLine line) (hlong : 2 ^ 31 ≤ limit) (turns : Nat) :
    OnWay mode lines further room limit (Session.turn^[turns] config) := by
  induction turns with
  | zero => exact h
  | succ turns ih =>
      rw [Function.iterate_succ_apply']
      rcases ih.turn hlines with ⟨hnext, -⟩ | ⟨-, hshort⟩
      · exact hnext
      · exact absurd hshort (Nat.not_lt_of_le hlong)

/-- The messages up to the second greeting: two greetings, the last of them at the end, and the
bytes of the data. -/
theorem first_echo_spec (mode : Mode) (lines : List (List Byte)) (room : Nat) :
    (firstEcho mode lines room).count greet = 2 ∧
      (firstEcho mode lines room).getLast? = some greet ∧
      (firstEcho mode lines room).flatMap Sent.message =
        greeting ++ (text "OK enter data" ++ CRLF) ++
          (CRLF ++ (withoutDots lines).map (convert mode)) ++ greeting := by
  refine ⟨?_, ?_, ?_⟩
  · have hdata : (echoMessages room mode [] lines).count greet = 0 :=
      List.count_eq_zero.mpr fun hmem ↦ (echo_messages_states hmem).2 rfl
    have hreply : line .processing "OK enter data" ≠ greet := by simp [line, greet]
    rw [firstEcho, List.count_cons_self, List.count_cons_of_ne hreply, List.count_append, hdata,
      List.count_singleton_self]
  · have hsplit : firstEcho mode lines room =
        (greet :: line .processing "OK enter data" :: echoMessages room mode [] lines) ++ [greet] :=
          rfl
    rw [hsplit, List.getLast?_concat]
  · have hend : (echoed lines).map (convert mode) =
        CRLF ++ (withoutDots lines).map (convert mode) := by
      cases mode <;> rfl
    rw [firstEcho, List.flatMap_cons, List.flatMap_cons, List.flatMap_append, echo_messages_bytes,
      List.nil_append, hend]
    simp [greet, line]

end

/-! ## The first echo -/

section

variable {inputMemory outputMemory : List Byte} {buffer : Buffer 128} {mode : Mode}
  {lines : List (List Byte)} {further : List Byte} {chunks : List (List Byte)}

/-- A new connection is on its way to the second greeting. -/
theorem on_way_start (hin : 0 < inputMemory.length) (hsize : inputMemory.length < 2 ^ 32)
    (hout : 0 < outputMemory.length) (hreads : FullReads inputMemory.length chunks)
    (hstream : chunks.flatten =
      text "echo" ++ argument mode ++ CRLF ++ content lines ++ [DOT] ++ CRLF ++ further) :
    OnWay mode lines further outputMemory.length
      (keptBeforeMark .src (dropBytes (text "echo" ++ argument mode).length chunks))
      (.start (.new inputMemory outputMemory buffer), chunks) := by
  have hready : (Conn.new inputMemory outputMemory buffer).Ready :=
    ⟨⟨hin, hout, Nat.zero_le _⟩, Nat.le_refl _, rfl, Nat.zero_le _,
      by simp [Conn.new], fun _ _ ↦ rfl⟩
  refine ⟨hsize, hreads,
    .inl ⟨rfl, hready, .entering _ (.init rfl) rfl rfl rfl ?_ ?_ (.inl rfl) ?_⟩⟩
  · show [] ++ chunks.flatten = _
    rw [hstream]
    simp [echoData, CRLF]
  · have hpassed := kept_before_mark_passed .src [] (text "echo" ++ argument mode).length chunks
    rw [List.length_nil, Nat.zero_add] at hpassed
    exact hpassed
  · intro hstate
    cases hstate

/-- Whether the first echo is exact, read off the way to the second greeting. -/
theorem first_echo_exact_of_way (limit : Nat) (hlines : ∀ line ∈ lines, IsLine line)
    (hway : OnWay mode lines further outputMemory.length limit
      (.start (.new inputMemory outputMemory buffer), chunks)) :
    FirstEchoExact (.new inputMemory outputMemory buffer) chunks mode lines ↔ limit < 2 ^ 31 := by
  constructor
  · rintro ⟨turns, hcount, -, -⟩
    by_contra hlong
    have hone := (hway.stays hlines (Nat.le_of_not_lt hlong) turns).count_greet
    rw [Session.delivered] at hcount
    omega
  · intro hshort
    obtain ⟨turns, hsent⟩ := hway.arrives hlines hshort
    obtain ⟨hcount, hlast, hbytes⟩ := first_echo_spec mode lines outputMemory.length
    have hsent' : (Session.delivered (.new inputMemory outputMemory buffer) chunks turns).sent =
      _ := hsent
    refine ⟨turns, ?_, ?_, ?_⟩
    · rw [hsent', hcount]
    · rw [hsent', hlast]
    · rw [Session.sentBytes, hsent', hbytes]

end

/-- **The first echo of a connection is exact if and only if fewer than `2 ^ 31` bytes of the data
are kept in front of the mark in the read in which it falls.** Otherwise the second greeting never
comes. -/
theorem first_echo_exact_iff (inputMemory outputMemory : List Byte) (buffer : Buffer 128)
    (hin : 0 < inputMemory.length) (hsize : inputMemory.length < 2 ^ 32)
    (hout : 0 < outputMemory.length) (mode : Mode) (lines : List (List Byte))
    (hlines : ∀ line ∈ lines, IsLine line) (further : List Byte) (chunks : List (List Byte))
    (hreads : FullReads inputMemory.length chunks) (hstream : chunks.flatten =
      text "echo" ++ argument mode ++ CRLF ++ content lines ++ [DOT] ++ CRLF ++ further) :
    FirstEchoExact (.new inputMemory outputMemory buffer) chunks mode lines ↔
      keptBeforeMark .src (dropBytes (text "echo" ++ argument mode).length chunks) < 2 ^ 31 :=
  first_echo_exact_of_way _ hlines (on_way_start hin hsize hout hreads hstream)

/-- `"echo tolower"` with the line `"..A"` in reads of four bytes. -/
theorem first_echo_exact_iff_tolower :
    FirstEchoExact (.new [0, 0, 0, 0] [0, 0, 0] clearedLine)
        [text "echo", text " tol", text "ower", text "\r\n..", text "A\r\n.", text "\r\nq"]
        .lowercase [text "..A"] ↔
      keptBeforeMark .src (dropBytes (text "echo" ++ argument .lowercase).length
        [text "echo", text " tol", text "ower", text "\r\n..", text "A\r\n.", text "\r\nq"]) <
          2 ^ 31 :=
  first_echo_exact_iff [0, 0, 0, 0] [0, 0, 0] clearedLine (by decide) (by decide)
    (by decide) .lowercase
    [text "..A"] (by decide) (text "q") _ (by simp [FullReads]; decide) (by decide)

/-- A line of letters. -/
def letters (size : Nat) : List Byte := List.replicate size 97

/-- The echo of one line of letters. -/
def longEcho (size : Nat) : List Byte :=
  text "echo" ++ argument .ident ++ CRLF ++ content [letters size] ++ [DOT] ++ CRLF ++ []

theorem long_echo_length (size : Nat) : (longEcho size).length = size + 11 := by
  simp [longEcho, argument, content, letters, CRLF, text]

/-- Letters are no dots. -/
theorem letters_spec (size : Nat) : IsLine (letters size) ∧ withoutDot (letters size) =
    letters size := by
  cases size with
  | zero => exact ⟨by decide, by decide⟩
  | succ size =>
      have hne : (97 : Byte) ≠ DOT := by decide
      refine ⟨⟨?_, ?_⟩, ?_⟩
      · intro hmem
        exact absurd (List.eq_of_mem_replicate hmem) (by decide)
      · intro hdot
        rw [letters, List.replicate_succ, List.cons_append, List.cons_prefix_cons] at hdot
        exact hne hdot.1.symm
      · simp [withoutDot, letters, List.replicate_succ, hne]

/-- All letters of the line are kept in front of the mark. -/
theorem kept_of_long_echo (size : Nat) : size ≤
    keptBeforeMark .src (dropBytes (text "echo" ++ argument .ident).length [longEcho size]) := by
  have hlines : ∀ line ∈ [letters size], IsLine line := by
    intro line hline
    rw [List.mem_singleton.mp hline]
    exact (letters_spec size).1
  have hsplit : longEcho size =
    (text "echo" ++ argument .ident) ++ (echoData [letters size] ++ [LF]) := by
    simp [longEcho, echoData, CRLF]
  have hdrop : dropBytes (text "echo" ++ argument .ident).length [longEcho size] =
      [echoData [letters size] ++ [LF]] := by
    have hall :=
      drop_bytes_append (text "echo" ++ argument .ident) (echoData [letters size] ++ [LF]) 0 []
    rw [Nat.add_zero, drop_bytes_zero, ← hsplit] at hall
    exact hall
  have hlen : (letters size).length = size := List.length_replicate
  rw [hdrop, keptBeforeMark, EoD.scan_append, scan_echo_data hlines]
  simp only [echoed, withoutDots, List.flatMap_cons, List.flatMap_nil, (letters_spec size).2,
    List.length_append, hlen, List.length_nil]
  omega

/-- **In general the first echo is not exact.** A line of `2 ^ 31` letters, delivered in one read:
the handler echoes also what stands behind the mark, and does not greet again. -/
theorem first_echo_inexact : ¬ ∀ (inputMemory outputMemory : List Byte) (buffer : Buffer 128)
    (mode : Mode) (lines : List (List Byte)) (further : List Byte) (chunks : List (List Byte)),
    0 < inputMemory.length → inputMemory.length < 2 ^ 32 → 0 < outputMemory.length →
    (∀ line ∈ lines, IsLine line) → FullReads inputMemory.length chunks →
    chunks.flatten =
      text "echo" ++ argument mode ++ CRLF ++ content lines ++ [DOT] ++ CRLF ++ further →
    FirstEchoExact (.new inputMemory outputMemory buffer) chunks mode lines := by
  intro hall
  have hlines : ∀ line ∈ [letters (2 ^ 31)], IsLine line := by
    intro line hline
    rw [List.mem_singleton.mp hline]
    exact (letters_spec _).1
  have hlength := long_echo_length (2 ^ 31)
  have hpos : 0 < (longEcho (2 ^ 31)).length := by
    rw [hlength]
    exact Nat.succ_pos _
  have hsize : (longEcho (2 ^ 31)).length < 2 ^ 32 := by
    rw [hlength]
    decide
  have hreads : FullReads (longEcho (2 ^ 31)).length [longEcho (2 ^ 31)] :=
    ⟨hpos, Nat.le_refl _, fun h ↦ absurd rfl h, trivial⟩
  have hstream : [longEcho (2 ^ 31)].flatten =
      text "echo" ++ argument .ident ++ CRLF ++ content [letters (2 ^ 31)] ++ [DOT] ++ CRLF ++ [] :=
    List.append_nil _
  have hroom : 0 < [(0 : Byte)].length := by decide
  have hway : OnWay _ _ _ _ _ (.start (.new (longEcho (2 ^ 31)) [0] clearedLine), _) :=
    on_way_start hpos hsize hroom hreads hstream
  have hexact :=
    hall (longEcho (2 ^ 31)) [0] clearedLine .ident [letters (2 ^ 31)] [] _ hpos hsize hroom
    hlines hreads hstream
  have hshort := (first_echo_exact_of_way _ hlines hway).mp hexact
  exact absurd hshort (Nat.not_lt_of_le (kept_of_long_echo _))

end Smerp.Pecho
