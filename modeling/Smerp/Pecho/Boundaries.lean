import Smerp.Pecho.Delivery

/-!
# Packet boundaries

Two deliveries of one stream send the same bytes if both are clean. In general they do not: a `READ`
that does not fill the block makes the handler take bytes of an older block for data.
-/

namespace Smerp.Pecho

open Lib Protocol Network Conn Relation

/-- **Packet boundaries do not matter to clean deliveries.** Of one stream, delivered in two ways to
handlers with output blocks of one size, both send the same bytes. The memory behind the blocks and
the sizes of the input blocks may differ. -/
theorem output_independent_of_packets (inputMemory inputMemory' outputMemory outputMemory' :
    List Byte)
    (buffer buffer' : Buffer 128) (hin : 0 < inputMemory.length) (hin' : 0 < inputMemory'.length)
    (hout : 0 < outputMemory.length) (hsize : outputMemory'.length = outputMemory.length)
    (chunks chunks' : List (List Byte))
    (hchunks : ∀ chunk ∈ chunks, 1 ≤ chunk.length ∧ chunk.length ≤ inputMemory.length)
    (hchunks' : ∀ chunk ∈ chunks', 1 ≤ chunk.length ∧ chunk.length ≤ inputMemory'.length)
    (hstream : chunks.flatten = chunks'.flatten)
    (hclean : CleanDelivery (.new inputMemory outputMemory buffer) chunks)
    (hclean' : CleanDelivery (.new inputMemory' outputMemory' buffer') chunks') :
    Logs.Same
      (fun turns ↦
        (Session.delivered (.new inputMemory outputMemory buffer) chunks turns).sentBytes)
      (fun turns ↦
        (Session.delivered (.new inputMemory' outputMemory' buffer') chunks' turns).sentBytes) := by
  have hfirst := delivered_as_foreseen hin hout hchunks hclean
  have hsecond := delivered_as_foreseen hin' (hsize ▸ hout) hchunks' hclean'
  rw [hsize, ← hstream] at hsecond
  exact (hfirst.trans hsecond.symm).flat_map Sent.message

/-! ## Deliveries that are checked by running them -/

/-- Whether the mark does no harm. -/
def markOk (future : List Byte) (phase : EoD.Phase) (raw : List Byte) : Bool :=
  match EoD.scan phase raw with
  | .unmarked _ _ => true
  | .marked kept terminator rest => kept.length < 2 ^ 31 &&
      raw[kept.length]?.all fun placeholder ↦
        placeholderOk terminator placeholder (rest ++ future).head?

/-- No pass of the call skips a line, and where one scans for the end of the data the block is full
and the mark does no harm. -/
def cleanCall (future : List Byte) : Nat → Conn → Bool
  | 0, _ => false
  | fuel + 1, c => c.state != .handleError &&
      (c.state != .startProcessing || c.eoM == c.input.size &&
        markOk future .src (c.rest.dropWhile isBlank)) &&
      match c.pass with
      | .ok (next, none) => cleanCall future fuel next
      | _ => true

/-- A turn that neither skips a line nor goes on with a cut argument, scans full blocks only, and
goes on with a cut line end on a byte that is read alike. -/
def cleanTurn : Session × List (List Byte) → Bool
  | (s, chunks) =>
      match s.pending, chunks with
      | none, _ => cleanCall chunks.flatten s.conn.passBound s.conn
      | some _, [] => true
      | some _, chunk :: more =>
          (s.conn.state != .processing || chunk.length == s.conn.input.size &&
            markOk more.flatten s.conn.input.eodState.phase chunk) &&
          s.conn.state != .startProcessing && s.conn.state != .enterMode &&
          (s.conn.state != .emptyLine || chunk.head?.all fun ch ↦ !isBlank ch && ch != CR)

theorem mark_ok_of_check {future raw : List Byte} {phase : EoD.Phase}
    (h : markOk future phase raw = true) : MarkOk future phase raw := by
  intro kept terminator rest hscan
  rw [markOk, hscan] at h
  obtain ⟨hshort, hall⟩ := Bool.and_eq_true_iff.mp h
  refine ⟨of_decide_eq_true hshort, ?_⟩
  intro placeholder hplace
  rwa [hplace] at hall

/-- The passes of a call that was checked are clean. -/
theorem clean_call_passes {future : List Byte} {fuel : Nat} {c last : Conn}
    (h : cleanCall future fuel c = true) (hpath : ReflTransGen (Again pass) c last) :
    CleanPass (MarkOk future) last := by
  induction fuel generalizing c with
  | zero => simp [cleanCall] at h
  | succ fuel ih =>
      simp only [cleanCall, Bool.and_eq_true, Bool.or_eq_true, bne_iff_ne, beq_iff_eq] at h
      obtain ⟨⟨herror, hstart⟩, hmore⟩ := h
      cases Relation.ReflTransGen.cases_head hpath with
      | inl hsame =>
          subst hsame
          refine ⟨?_, fun hstate ↦ absurd hstate herror⟩
          intro hstate blanks ch more hrest hblank hline
          obtain ⟨hfull, hmark⟩ := hstart.resolve_left (not_not_intro hstate)
          have hch : isBlank ch = false := by
            by_contra hblank
            rw [Bool.not_eq_false] at hblank
            exact absurd ((is_line_end_blank hblank).symm.trans hline) (by decide)
          rw [hrest, drop_while_split more hblank hch] at hmark
          exact ⟨hfull, mark_ok_of_check hmark⟩
      | inr hstep =>
          obtain ⟨next, hpass, hrest⟩ := hstep
          rw [show c.pass = .ok (next, none) from hpass] at hmore
          exact ih hmore hrest

/-- A turn that was checked is clean. -/
theorem clean_turn_of_check {config : Session × List (List Byte)} (h : cleanTurn config = true) :
    CleanTurn config := by
  obtain ⟨s, chunks⟩ := config
  cases hpending : s.pending with
  | none =>
      simp only [cleanTurn, CleanTurn, hpending] at h ⊢
      exact fun last hpath ↦ clean_call_passes h hpath
  | some size =>
      cases chunks with
      | nil => simp [CleanTurn, hpending]
      | cons chunk more =>
          simp only [cleanTurn, CleanTurn, hpending, Bool.and_eq_true, Bool.or_eq_true,
            bne_iff_ne, beq_iff_eq] at h ⊢
          obtain ⟨⟨⟨hprocessing, hstart⟩, hmode⟩, hline⟩ := h
          refine ⟨?_, fun hstate ↦ absurd hstate hstart, ?_, fun hstate ↦ absurd hstate hmode⟩
          · intro hstate
            exact (hprocessing.resolve_left (not_not_intro hstate)).imp_right mark_ok_of_check
          · intro hstate _ ch hhead
            have hnext := hline.resolve_left (not_not_intro hstate)
            rw [hhead] at hnext
            simpa using hnext

/-- A delivery that comes to rest after turns that were checked is clean. -/
theorem clean_of_check {c : Conn} {chunks : List (List Byte)} (turns : Nat)
    (hclean : ∀ count ∈ List.range (turns + 1),
      cleanTurn (Session.turn^[count] (.start c, chunks)) = true)
    (hrest : Session.turn (Session.turn^[turns] (.start c, chunks)) =
      Session.turn^[turns] (.start c, chunks)) : CleanDelivery c chunks := by
  intro count
  refine clean_turn_of_check ?_
  by_cases hle : count ≤ turns
  · exact hclean count (List.mem_range.mpr (by omega))
  · obtain ⟨more, rfl⟩ : ∃ more, count = more + turns := ⟨count - turns, by omega⟩
    rw [Function.iterate_add_apply, Function.iterate_fixed hrest]
    exact hclean turns (List.mem_range.mpr (by omega))

/-- The echo of `"a\r\n"`, delivered into blocks of two bytes and of one byte. -/
theorem output_independent_of_packets_echo : Logs.Same
    (fun turns ↦ (Session.delivered (.new [0, 0] [0] clearedLine)
      [text "ec", text "ho", text "\r\n", text "a\r", text "\n.", text "\r\n", text "qu",
        text "it", text "\n"] turns).sentBytes)
    (fun turns ↦ (Session.delivered (.new [0] [0] clearedLine)
      ((text "echo\r\na\r\n.\r\nquit\n").map ([·])) turns).sentBytes) :=
  output_independent_of_packets [0, 0] [0] [0] [0] clearedLine clearedLine (by decide)
    (by decide) (by decide) rfl _ _ (by decide) (by decide) (by decide)
    (clean_of_check 28 (by decide +kernel) (by decide +kernel))
    (clean_of_check 43 (by decide +kernel) (by decide +kernel))

/-- **In general packet boundaries matter.** The stream `"echo\nab"`, delivered byte by byte into a
block of two bytes: behind each byte of the data the handler echoes the stale byte that the block
still holds. -/
theorem output_depends_on_packets : ¬ ∀ (inputMemory outputMemory : List Byte) (buffer : Buffer 128)
    (chunks chunks' : List (List Byte)), 0 < inputMemory.length → 0 < outputMemory.length →
    (∀ chunk ∈ chunks, 1 ≤ chunk.length ∧ chunk.length ≤ inputMemory.length) →
    (∀ chunk ∈ chunks', 1 ≤ chunk.length ∧ chunk.length ≤ inputMemory.length) →
    chunks.flatten = chunks'.flatten → Logs.Same
      (fun turns ↦
        (Session.delivered (.new inputMemory outputMemory buffer) chunks turns).sentBytes)
      (fun turns ↦
        (Session.delivered (.new inputMemory outputMemory buffer) chunks' turns).sentBytes) := by
  intro hall
  have hsame := hall [0, 0] [0] clearedLine
    [text "e", text "c", text "h", text "o", text "\n", text "a", text "b"]
    [text "ec", text "ho", text "\na", text "b"] (by decide) (by decide) (by decide) (by decide)
    (by decide)
  have hgrow (turns : Nat) : (Session.delivered (.new [0, 0] [0] clearedLine)
      [text "ec", text "ho", text "\na", text "b"] turns).sentBytes <+:
        (Session.delivered (.new [0, 0] [0] clearedLine)
          [text "ec", text "ho", text "\na", text "b"] (turns + 1)).sentBytes := by
    obtain ⟨back, hback⟩ := Session.delivered_sent (.new [0, 0] [0] clearedLine)
      [text "ec", text "ho", text "\na", text "b"] turns
    exact ⟨back.flatMap Sent.message, by rw [Session.sentBytes, Session.sentBytes, ← hback,
      List.flatMap_append]⟩
  have hagree := hsame.comparable hgrow 18 13
  revert hagree
  decide +kernel

end Smerp.Pecho
