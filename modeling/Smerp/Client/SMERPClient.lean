import Smerp.Lib.Logs
import Smerp.Lib.Splits
import Smerp.Protocol.Chars

/-!
# The Qt client

`SMERPClient::dataAvailable` of `clients/qt/SMERPClient.cpp`, the slot that takes lines from the
read queue of the socket. It takes at most one line an arrival, of which its buffer holds 1023
bytes. `delivers_iff` says for which streams and arrivals every line is delivered.
-/

namespace Smerp.Client

open Lib

/-- What the client uses of Qt: the read queue of a socket, and the conversion of a byte array into
a string, whose characters are given by their codes. -/
structure Qt where
  canReadLine : List Byte → Bool
  /-- The bytes that `readLine( buf, maxSize)` returns, and the queue behind them. -/
  readLine : List Byte → Nat → List Byte × List Byte
  toQString : List Byte → List Byte
  /-- A line can be read as soon as its line end is there. -/
  can_read_line_iff (queue : List Byte) : canReadLine queue = true ↔ LF ∈ queue
  /-- A line is read up to its line end, but not more than `maxSize - 1` bytes of it. -/
  read_line_eq (line rest : List Byte) (limit : Nat) (hline : LF ∉ line) :
    readLine (line ++ LF :: rest) (limit + 1) =
      (line ++ LF :: rest).splitAt (min limit (line.length + 1))
  /-- The conversion stops at the first zero. -/
  to_q_string_eq (bytes : List Byte) : toQString bytes = bytes.takeWhile (· ≠ 0)

/-- The states of the client. -/
inductive State where
  | disconnected
  | aboutToConnect
  | connected
  | aboutToDisconnect
  deriving DecidableEq, Repr

/-- The signals that `dataAvailable` emits. -/
inductive Signal where
  | error (message : List Byte) (state : State)
  | lineReceived (line : List Byte)
  deriving DecidableEq, Repr

/-- `SMERPClient`: its state, the read queue of its socket and the signals emitted so far. -/
structure SMERPClient where
  state : State
  queue : List Byte
  signals : List Signal
  deriving DecidableEq, Repr

/-- `sizeof( buf)` -/
def bufSize : Nat := 1024

/-- `if( buf[len-1] == '\n' ) buf[len-1] = '\0';` -/
def cutLineEnd (buf : List Byte) : List Byte :=
  if buf.getLast? = some LF then buf.dropLast ++ [0] else buf

namespace SMERPClient

/-- `emit` -/
def emit (c : SMERPClient) (signal : Signal) : SMERPClient :=
  { c with signals := c.signals ++ [signal] }

/-- `dataAvailable` -/
def dataAvailable (qt : Qt) (c : SMERPClient) : SMERPClient :=
  match c.state with
  | .disconnected | .aboutToConnect =>
      c.emit (.error (text "Invalid state, got data while in state %1?") c.state)
  | .aboutToDisconnect | .connected =>
      if qt.canReadLine c.queue then
        let (buf, queue) := qt.readLine c.queue bufSize
        { c with queue := queue }.emit (.lineReceived (qt.toQString (cutLineEnd buf)))
      else c

/-- Bytes arrive: they are appended to the queue, and `readyRead` calls `dataAvailable`. -/
def arrive (qt : Qt) (c : SMERPClient) (bytes : List Byte) : SMERPClient :=
  { c with queue := c.queue ++ bytes }.dataAvailable qt

/-- A connected client behind some arrivals. -/
def run (qt : Qt) (arrivals : List (List Byte)) : SMERPClient :=
  arrivals.foldl (arrive qt) ⟨.connected, [], []⟩

/-- The lines of the `lineReceived` signals. -/
def received (c : SMERPClient) : List (List Byte) :=
  c.signals.filterMap fun
    | .lineReceived line => some line
    | .error .. => none

end SMERPClient

/-- Every complete line of the stream is delivered once, whole and in order. -/
def Delivers (qt : Qt) (arrivals : List (List Byte)) : Prop :=
  (SMERPClient.run qt arrivals).received = Lines.lines LF arrivals.flatten

/-! ## What the calls hand out of a stream -/

/-- What a call hands out of a queue with a line end. -/
def shown (qt : Qt) (queue : List Byte) : List Byte :=
  qt.toQString (cutLineEnd (qt.readLine queue bufSize).1)

/-- The queue behind a call. -/
def behind (qt : Qt) (queue : List Byte) : List Byte := (qt.readLine queue bufSize).2

variable {qt : Qt}

/-- A line that fits into the buffer is taken with its line end. -/
theorem read_short (qt : Qt) {line : List Byte} (hline : LF ∉ line) (hfits : line.length < 1023)
    (rest : List Byte) : shown qt (line ++ LF :: rest) = line.takeWhile (· ≠ 0) ∧
      behind qt (line ++ LF :: rest) = rest := by
  have hread : qt.readLine (line ++ LF :: rest) bufSize = (line ++ [LF], rest) := by
    rw [bufSize, qt.read_line_eq line rest 1023 hline, Nat.min_eq_right (by omega),
      List.splitAt_eq, List.append_cons, List.take_left' (by simp), List.drop_left' (by simp)]
  have hcut : cutLineEnd (line ++ [LF]) = line ++ [0] := by
    rw [cutLineEnd, List.getLast?_concat, if_pos rfl, List.dropLast_concat]
  refine ⟨?_, ?_⟩
  · rw [shown, hread, hcut, qt.to_q_string_eq, take_while_stop _ _ (by decide)]
  · rw [behind, hread]

/-- Of a line that does not fit the buffer is filled, and the rest stays in the queue. -/
theorem read_long (qt : Qt) {line : List Byte} (hline : LF ∉ line) (hlong : 1023 ≤ line.length)
    (rest : List Byte) :
    shown qt (line ++ LF :: rest) = (line.take 1023).takeWhile (· ≠ 0) ∧
      behind qt (line ++ LF :: rest) = line.drop 1023 ++ LF :: rest := by
  have hread : qt.readLine (line ++ LF :: rest) bufSize =
      (line.take 1023, line.drop 1023 ++ LF :: rest) := by
    rw [bufSize, qt.read_line_eq line rest 1023 hline, Nat.min_eq_left (by omega),
      List.splitAt_eq, List.take_append_of_le_length hlong, List.drop_append_of_le_length hlong]
  have hcut : cutLineEnd (line.take 1023) = line.take 1023 := by
    refine if_neg fun hlast ↦ hline ?_
    exact List.mem_of_mem_take (List.mem_of_getLast? hlast)
  refine ⟨?_, ?_⟩
  · rw [shown, hread, hcut, qt.to_q_string_eq]
  · rw [behind, hread]

/-- A call takes bytes from the queue, and does not look behind the first line end. -/
theorem behind_spec (qt : Qt) {queue : List Byte} (h : LF ∈ queue) :
    (behind qt queue).length < queue.length ∧
      ∀ more, shown qt (queue ++ more) = shown qt queue ∧
        behind qt (queue ++ more) = behind qt queue ++ more := by
  obtain ⟨line, rest, rfl, hline⟩ := List.eq_append_cons_of_mem h
  by_cases hfits : line.length < 1023
  · obtain ⟨hshown, hbehind⟩ := read_short qt hline hfits rest
    constructor
    · rw [hbehind, List.length_append, List.length_cons]
      omega
    · intro more
      rw [List.append_assoc, List.cons_append, hshown, hbehind]
      exact read_short qt hline hfits (rest ++ more)
  · rw [Nat.not_lt] at hfits
    obtain ⟨hshown, hbehind⟩ := read_long qt hline hfits rest
    constructor
    · rw [hbehind, List.length_append, List.length_append, List.length_drop, List.length_cons]
      omega
    · intro more
      rw [List.append_assoc, List.cons_append, hshown, hbehind, List.append_assoc]
      exact read_long qt hline hfits (rest ++ more)

/-- What the calls hand out of a stream, as long as there is a line end. -/
def shows (qt : Qt) (stream : List Byte) : List (List Byte) :=
  if _h : LF ∈ stream then shown qt stream :: shows qt (behind qt stream) else []
termination_by stream.length
decreasing_by exact (behind_spec qt _h).1

theorem shows_of_not_mem {stream : List Byte} (h : LF ∉ stream) : shows qt stream = [] := by
  rw [shows, dif_neg h]

/-- The first call does not depend on what arrives later. -/
theorem shows_append {stream : List Byte} (h : LF ∈ stream) (more : List Byte) :
    shows qt (stream ++ more) = shown qt stream :: shows qt (behind qt stream ++ more) := by
  obtain ⟨hshown, hbehind⟩ := (behind_spec qt h).2 more
  rw [shows, dif_pos (List.mem_append_left _ h), hshown, hbehind]

theorem shows_short {line : List Byte} (hline : LF ∉ line) (hfits : line.length < 1023)
    (rest : List Byte) :
    shows qt (line ++ LF :: rest) = line.takeWhile (· ≠ 0) :: shows qt rest := by
  obtain ⟨hshown, hbehind⟩ := read_short qt hline hfits rest
  rw [shows, dif_pos (by simp), hshown, hbehind]

theorem shows_long {line : List Byte} (hline : LF ∉ line) (hlong : 1023 ≤ line.length)
    (rest : List Byte) : shows qt (line ++ LF :: rest) =
      (line.take 1023).takeWhile (· ≠ 0) :: shows qt (line.drop 1023 ++ LF :: rest) := by
  obtain ⟨hshown, hbehind⟩ := read_long qt hline hlong rest
  rw [shows, dif_pos (by simp), hshown, hbehind]

/-! ## Which lines are handed out whole -/

/-- The number of calls that the complete lines of a stream take. -/
def cuts (stream : List Byte) : Nat :=
  (Lines.lines LF stream).foldr (fun line count ↦ line.length / 1023 + 1 + count) 0

/-- Lines without zeros that are shorter than 1023 bytes; only in front of empty lines alone one has
1023 bytes. -/
def Fit : List (List Byte) → Prop
  | [] => True
  | line :: more =>
      0 ∉ line ∧ (line.length < 1023 ∧ Fit more ∨ line.length = 1023 ∧ ∀ other ∈ more, other = [])

theorem cuts_of_not_mem {stream : List Byte} (h : LF ∉ stream) : cuts stream = 0 := by
  rw [cuts, Lines.lines_of_not_mem h]
  rfl

theorem cuts_append_cons {line : List Byte} (hline : LF ∉ line) (rest : List Byte) :
    cuts (line ++ LF :: rest) = line.length / 1023 + 1 + cuts rest := by
  rw [cuts, Lines.lines_append_cons hline, List.foldr_cons, cuts]

/-- A line end takes a call. -/
theorem cuts_pos {stream : List Byte} (h : LF ∈ stream) : 0 < cuts stream := by
  obtain ⟨line, rest, rfl, hline⟩ := List.eq_append_cons_of_mem h
  rw [cuts_append_cons hline]
  omega

/-- As many calls as counted. -/
theorem shows_length (qt : Qt) (stream : List Byte) : (shows qt stream).length = cuts stream := by
  induction hn : stream.length using Nat.strongRecOn generalizing stream with
  | ind n ih =>
      subst hn
      rcases Lines.first_line LF stream with hnone | ⟨line, rest, rfl, hline⟩
      · rw [shows_of_not_mem hnone, cuts_of_not_mem hnone]
        rfl
      by_cases hfits : line.length < 1023
      · rw [shows_short hline hfits, List.length_cons, cuts_append_cons hline,
          ih rest.length (by simp; omega) rest rfl]
        omega
      · rw [Nat.not_lt] at hfits
        have hdrop : LF ∉ line.drop 1023 := fun hmem ↦ hline (List.mem_of_mem_drop hmem)
        rw [shows_long hline hfits, List.length_cons, cuts_append_cons hline,
          ih _ (by simp; omega) (line.drop 1023 ++ LF :: rest) rfl, cuts_append_cons hdrop,
          List.length_drop]
        omega

/-- Behind a line end that was left over the lines that are handed out are late by one. -/
theorem late_iff (stream : List Byte) (count : Nat)
    (hcount : count ≤ (shows qt stream).length + 1) :
    ([] :: shows qt stream).take count = Lines.lines LF stream ↔
      (∀ line ∈ Lines.lines LF stream, line = []) ∧ count = (Lines.lines LF stream).length := by
  induction hn : stream.length using Nat.strongRecOn generalizing stream count with
  | ind n ih =>
      subst hn
      rcases Lines.first_line LF stream with hnone | ⟨line, rest, rfl, hline⟩
      · rw [shows_of_not_mem hnone] at hcount ⊢
        rw [Lines.lines_of_not_mem hnone]
        cases count with
        | zero => simp
        | succ count => simp
      rw [Lines.lines_append_cons hline]
      cases count with
      | zero => simp
      | succ count =>
          rw [List.take_succ_cons, List.length_cons, Nat.add_right_cancel_iff, List.cons.injEq,
            List.forall_mem_cons, and_assoc, eq_comm]
          refine and_congr_right ?_
          rintro rfl
          rw [shows_short hline (by simp)] at hcount ⊢
          exact ih rest.length (by simp) rest count (Nat.le_of_succ_le_succ hcount) rfl

/-- **Which lines are handed out whole.** The first calls hand out the lines of the stream exactly
if these fit and are as many as the calls. -/
theorem take_shows_iff (stream : List Byte) (count : Nat)
    (hcount : count ≤ (shows qt stream).length) :
    (shows qt stream).take count = Lines.lines LF stream ↔
      Fit (Lines.lines LF stream) ∧ count = (Lines.lines LF stream).length := by
  induction hn : stream.length using Nat.strongRecOn generalizing stream count with
  | ind n ih =>
      subst hn
      rcases Lines.first_line LF stream with hnone | ⟨line, rest, rfl, hline⟩
      · rw [shows_of_not_mem hnone] at hcount ⊢
        rw [Lines.lines_of_not_mem hnone]
        simpa [Fit] using hcount
      rw [Lines.lines_append_cons hline, Fit]
      cases count with
      | zero => simp
      | succ count =>
          rw [List.length_cons, Nat.add_right_cancel_iff]
          have hwhole (text : List Byte) : text.takeWhile (· ≠ 0) = text ↔ 0 ∉ text := by
            rw [List.takeWhile_eq_self_iff]
            simp only [decide_eq_true_eq]
            exact ⟨fun h hzero ↦ h 0 hzero rfl, fun h ch hch hzero ↦ h (hzero ▸ hch)⟩
          by_cases hfits : line.length < 1023
          · rw [shows_short hline hfits] at hcount ⊢
            rw [List.take_succ_cons, List.cons.injEq, hwhole,
              ih rest.length (by simp; omega) rest count (Nat.le_of_succ_le_succ hcount) rfl]
            have hother : line.length ≠ 1023 := by omega
            simp only [hfits, hother, true_and, false_and, or_false, and_assoc]
          · rw [Nat.not_lt] at hfits
            rw [shows_long hline hfits] at hcount ⊢
            rw [List.take_succ_cons, List.cons.injEq]
            by_cases hfull : line.length = 1023
            · -- the line end is left over, and is handed out as an empty line
              have htake : line.take 1023 = line := List.take_of_length_le hfull.le
              have hdrop : line.drop 1023 = [] := List.drop_eq_nil_of_le hfull.le
              have hrest : shows qt (LF :: rest) = [] :: shows qt rest :=
                shows_short List.not_mem_nil (by simp) rest
              rw [hdrop, List.nil_append, hrest] at hcount ⊢
              rw [htake, hwhole, late_iff rest count (Nat.le_of_succ_le_succ hcount)]
              simp only [hfull, lt_self_iff_false, true_and, false_and, false_or, and_assoc]
            · have hshort : ((line.take 1023).takeWhile (· ≠ 0)).length ≤ 1023 :=
                (List.takeWhile_prefix _).length_le.trans (List.length_take_le _ _)
              constructor
              · rintro ⟨hsame, -⟩
                rw [hsame] at hshort
                omega
              · rintro ⟨⟨-, ⟨hless, -⟩ | ⟨hsame, -⟩⟩, -⟩
                · omega
                · exact absurd hsame hfull

/-! ## Runs -/

/-- What an arrival does to a connected client. -/
theorem arrive_spec (qt : Qt) {c : SMERPClient} (h : c.state = .connected) (bytes : List Byte) :
    (c.arrive qt bytes).state = .connected ∧
      (LF ∈ c.queue ++ bytes → (c.arrive qt bytes).queue = behind qt (c.queue ++ bytes) ∧
        (c.arrive qt bytes).received = c.received ++ [shown qt (c.queue ++ bytes)]) ∧
      (LF ∉ c.queue ++ bytes → (c.arrive qt bytes).queue = c.queue ++ bytes ∧
        (c.arrive qt bytes).received = c.received) := by
  have hsame : c.arrive qt bytes =
      if qt.canReadLine (c.queue ++ bytes) then
        { c with queue := behind qt (c.queue ++ bytes) }.emit
          (.lineReceived (shown qt (c.queue ++ bytes)))
      else { c with queue := c.queue ++ bytes } := by
    rw [SMERPClient.arrive, SMERPClient.dataAvailable, h]
    rfl
  by_cases hend : LF ∈ c.queue ++ bytes
  · rw [hsame, if_pos ((qt.can_read_line_iff _).mpr hend)]
    refine ⟨h, fun _ ↦ ⟨rfl, ?_⟩, fun hnone ↦ absurd hend hnone⟩
    exact List.filterMap_append
  · rw [hsame, if_neg (mt (qt.can_read_line_iff _).mp hend)]
    exact ⟨h, fun hmem ↦ absurd hmem hend, fun _ ↦ ⟨rfl, rfl⟩⟩

/-- What was handed out so far, and then what the queue gives, is handed out of the stream. -/
structure Handed (qt : Qt) (c : SMERPClient) (stream : List Byte) : Prop where
  state : c.state = .connected
  shows : ∀ more, shows qt (stream ++ more) = c.received ++ shows qt (c.queue ++ more)

namespace Handed

variable {c : SMERPClient} {stream : List Byte}

/-- One more arrival. -/
theorem arrive (h : Handed qt c stream) (bytes : List Byte) :
    Handed qt (c.arrive qt bytes) (stream ++ bytes) := by
  obtain ⟨hstate, hline, hnone⟩ := arrive_spec qt h.state bytes
  refine ⟨hstate, ?_⟩
  intro more
  by_cases hend : LF ∈ c.queue ++ bytes
  · obtain ⟨hqueue, hreceived⟩ := hline hend
    rw [List.append_assoc, h.shows, ← List.append_assoc, shows_append hend, hqueue, hreceived,
      List.append_assoc]
    rfl
  · obtain ⟨hqueue, hreceived⟩ := hnone hend
    rw [List.append_assoc, h.shows, ← List.append_assoc, hqueue, hreceived]

/-- What is left in the queue. -/
theorem cuts_eq (h : Handed qt c stream) (more : List Byte) :
    cuts (stream ++ more) = c.received.length + cuts (c.queue ++ more) := by
  rw [← shows_length qt, h.shows, List.length_append, shows_length]

/-- An arrival hands out one more line, if one has not been handed out yet. -/
theorem received_length (h : Handed qt c stream) (bytes : List Byte) :
    (c.arrive qt bytes).received.length =
      min (c.received.length + 1) (cuts (stream ++ bytes)) := by
  obtain ⟨-, hline, hnone⟩ := arrive_spec qt h.state bytes
  rw [h.cuts_eq bytes]
  by_cases hend : LF ∈ c.queue ++ bytes
  · have hpos := cuts_pos hend
    rw [(hline hend).2, List.length_append, List.length_singleton]
    omega
  · rw [(hnone hend).2, cuts_of_not_mem hend]
    omega

end Handed

theorem run_append (qt : Qt) (arrivals : List (List Byte)) (bytes : List Byte) :
    SMERPClient.run qt (arrivals ++ [bytes]) = (SMERPClient.run qt arrivals).arrive qt bytes :=
  List.foldl_append

/-- Behind every run. -/
theorem handed_run (qt : Qt) (arrivals : List (List Byte)) :
    Handed qt (SMERPClient.run qt arrivals) arrivals.flatten := by
  induction arrivals using List.reverseRecOn with
  | nil => exact ⟨rfl, fun more ↦ rfl⟩
  | append_singleton arrivals bytes ih =>
      rw [run_append, List.flatten_concat]
      exact ih.arrive bytes

/-- The calls take all lines and nothing more: at every point the calls that the lines so far take
and those to come are as many as the lines, and at some point not more. -/
def Served (arrivals : List (List Byte)) : Prop :=
  (∀ front back, arrivals = front ++ back →
    (Lines.lines LF arrivals.flatten).length ≤ cuts front.flatten + back.length) ∧
    ∃ front back, arrivals = front ++ back ∧
      cuts front.flatten + back.length = (Lines.lines LF arrivals.flatten).length

/-- **When every line is delivered.** Exactly if the lines fit into the buffer, and the calls take
all of them. -/
theorem delivers_iff (qt : Qt) (arrivals : List (List Byte)) :
    Delivers qt arrivals ↔ Fit (Lines.lines LF arrivals.flatten) ∧ Served arrivals := by
  have hstep (front : List (List Byte)) (bytes : List Byte) :
      (SMERPClient.run qt (front ++ [bytes])).received.length =
        min ((SMERPClient.run qt front).received.length + 1)
          (cuts (front ++ [bytes]).flatten) := by
    rw [run_append, List.flatten_concat]
    exact (handed_run qt front).received_length bytes
  have hserved : (SMERPClient.run qt arrivals).received.length =
      (Lines.lines LF arrivals.flatten).length ↔ Served arrivals :=
    Backlog.served_iff (fun front ↦ cuts front.flatten)
      (fun front ↦ (SMERPClient.run qt front).received.length) rfl rfl hstep arrivals _
  have hshows := (handed_run qt arrivals).shows []
  rw [List.append_nil, List.append_nil] at hshows
  have htake : (SMERPClient.run qt arrivals).received =
      (shows qt arrivals.flatten).take (SMERPClient.run qt arrivals).received.length := by
    rw [hshows, List.take_left]
  have hcount : (SMERPClient.run qt arrivals).received.length ≤
      (shows qt arrivals.flatten).length := by
    rw [hshows, List.length_append]
    omega
  rw [Delivers, htake, take_shows_iff _ _ hcount, hserved]

/-- A queue that works as documented. -/
def documentedQt : Qt where
  canReadLine queue := decide (LF ∈ queue)
  readLine queue maxSize :=
    queue.splitAt (min (maxSize - 1) ((queue.takeWhile (· ≠ LF)).length + 1))
  toQString bytes := bytes.takeWhile (· ≠ 0)
  can_read_line_iff queue := decide_eq_true_iff
  read_line_eq line rest limit hline := by
    have hfront : ∀ ch ∈ line, decide (ch ≠ LF) = true := by
      intro ch hch
      exact decide_eq_true fun heq ↦ hline (heq ▸ hch)
    rw [take_while_split rest hfront (by decide), Nat.add_sub_cancel]
  to_q_string_eq _ := rfl

instance (qt : Qt) (arrivals : List (List Byte)) : Decidable (Delivers qt arrivals) :=
  inferInstanceAs (Decidable (_ = _))

/-- **A line stays in the queue** when two lines arrive at once. -/
theorem not_delivers : ¬ ∀ (qt : Qt) (arrivals : List (List Byte)), Delivers qt arrivals := by
  intro h
  have hline := h documentedQt [text "a\nb\n"]
  revert hline
  decide

end Smerp.Client
