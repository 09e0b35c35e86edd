import Smerp.Lib.Runs
import Smerp.Textwolf.Orderly

/-!
# Runs of the XML scanner

The caller of the scanner asks for items, in any order of masks, provides input, fetches errors and
replaces the output buffer. Whatever the document is and wherever it is cut, every call comes to an
end, the only exception is the one of the iterator at the end of the input, and nothing is printed
outside of the output buffer. The character set `UCS4` does not look at the size of the buffer; with
it as the output the scanner is not safe.
-/

namespace Smerp.Textwolf

open Lib Lib.Interruptible

/-- All character sets but `UCS4` look at the size of the buffer. -/
theorem bounded_iff {cs : CharSet} {bound : Nat} (hcs : IsCharSet cs bound) :
    Bounded cs ↔ bound ≠ 2 ^ 32 := by
  cases hcs with
  | isoLatin1 =>
      refine iff_of_true (fun chr bufsize ↦ ?_) (by decide)
      show (if bufsize < 1 then [] else [if chr ≤ 255 then chr.toUInt8 else 255]).length ≤ _
      split_ifs with hless
      · exact Nat.zero_le _
      all_goals exact UInt32.le_iff_toNat_le.mp (UInt32.not_lt.mp hless)
  | ucs2 encoding =>
      refine iff_of_true (fun chr bufsize ↦ ?_) (by decide)
      show (if bufsize < 2 then [] else if chr > 0xFFFF then [0xFF, 0xFF]
        else encoding.arrange [chr.toUInt8, (chr >>> 8).toUInt8]).length ≤ _
      split_ifs with hless
      · exact Nat.zero_le _
      · exact UInt32.le_iff_toNat_le.mp (UInt32.not_lt.mp hless)
      · have hroom := UInt32.le_iff_toNat_le.mp (UInt32.not_lt.mp hless)
        cases encoding <;> exact hroom
  | ucs4 encoding =>
      refine iff_of_false (fun h ↦ ?_) (by decide)
      have hnone := h 0 0
      cases encoding <;> exact absurd hnone (by decide)
  | utf8 =>
      refine iff_of_true (fun chr bufsize ↦ ?_) (by decide)
      show (UTF8.print chr bufsize).length ≤ _
      by_cases hless : bufsize < 8
      · rw [UTF8.print, if_pos hless]
        exact Nat.zero_le _
      · have hroom := UInt32.not_lt.mp hless
        have hroomy : 8 ≤ bufsize.toNat := UInt32.le_iff_toNat_le.mp hroom
        by_cases hascii : chr ≤ 127
        · rw [UTF8.print_ascii hroom hascii]
          exact Nat.le_trans (Nat.succ_le_succ (Nat.zero_le 7)) hroomy
        · have hbehind : UTF8.behind chr ≤ 5 := by
            rcases UTF8.behind_cases chr with hfive | ⟨-, hlt, -⟩
            · exact hfive.le
            · exact hlt.le
          rw [UTF8.print_other hroom hascii, List.length_cons, UTF8.trail_length]
          omega

/-- What the caller does. -/
inductive Call where
  | nextItem (mask : UInt16)
  | feed (more : List Byte)
  | getError
  | setOutputBuffer (outputBuf : List Byte) (outputBufSize : UInt32)
  deriving DecidableEq, Repr

namespace Call

variable (cfg : Setup)

/-- What a call returns or throws. -/
def result (s : XMLScanner) : Call → EStateM.Result Stop XMLScanner ElementType
  | nextItem mask => XMLScanner.nextItem cfg mask s
  | feed more => .ok .none (s.feed more)
  | getError => .ok .none s.getError.2
  | setOutputBuffer outputBuf outputBufSize =>
      .ok .none (s.setOutputBuffer outputBuf outputBufSize)

/-- The scanner behind a call. An exception is caught by the caller. -/
def after (s : XMLScanner) (call : Call) : XMLScanner :=
  match result cfg s call with
  | .ok _ s' | .error _ s' => s'

/-- The caller says how large the buffer is, and does not take one that is smaller than what is
printed of the item so far. -/
def Allowed (s : XMLScanner) : Call → Prop
  | nextItem _ | feed _ | getError => True
  | setOutputBuffer outputBuf outputBufSize => outputBuf.length = outputBufSize.toNat ∧
      0 < outputBufSize ∧ s.outputSize ≤ outputBufSize

/-- The call returns, or the iterator is at the end of the input. -/
def Safe (s : XMLScanner) (call : Call) : Prop :=
  ∀ e s', result cfg s call = .error e s' → e = .endOfInput

variable {cfg}

/-- A call is safe, and what is printed stays in the buffer. -/
theorem fits_after (hbound : Bounded cfg.outputCharSet) {s : XMLScanner} {call : Call}
    (hfits : s.Fits) (hallowed : Allowed s call) : Safe cfg s call ∧ (after cfg s call).Fits := by
  cases call with
  | nextItem mask =>
      have hkept := (XMLScanner.Orderly.next_item mask).fits hbound s hfits
      cases hresult : XMLScanner.nextItem cfg mask s with
      | ok rt s' =>
          refine ⟨fun e s'' h ↦ ?_, ?_⟩
          · exact nomatch hresult.symm.trans h
          · rw [after, result, hresult]
            exact hkept.ok hresult
      | error e s' =>
          obtain ⟨he, hnext⟩ := hkept.error hresult
          refine ⟨fun e' s'' h ↦ ?_, ?_⟩
          · have hsame := (EStateM.Result.error.inj (hresult.symm.trans h)).1
            rw [← hsame]
            exact he
          · rw [after, result, hresult]
            exact hnext
  | feed more =>
      exact ⟨fun e s' h ↦ (nomatch h), ⟨hfits.length_eq, hfits.size_le, hfits.some_room⟩⟩
  | getError => exact ⟨fun e s' h ↦ (nomatch h), ⟨hfits.length_eq, hfits.size_le, hfits.some_room⟩⟩
  | setOutputBuffer outputBuf outputBufSize =>
      obtain ⟨hlength, hsome, hle⟩ := hallowed
      exact ⟨fun e s' h ↦ (nomatch h), ⟨hlength, hle, hsome⟩⟩

/-- Every call of a run of the scanner comes to an end without any other exception than the one of
the iterator, and in every state of the run what is printed lies in the output buffer. -/
theorem run_fits (hbound : Bounded cfg.outputCharSet) {outputBuf : List Byte}
    {outputBufSize : UInt32} (hlength : outputBuf.length = outputBufSize.toNat)
    (hsome : 0 < outputBufSize) {src : List Byte} {calls : List Call}
    (hcalls : Runs.Each (after cfg) Allowed (.construct src outputBuf outputBufSize) calls) :
    Runs.Each (after cfg) (Safe cfg) (.construct src outputBuf outputBufSize) calls ∧
      Runs.Always (after cfg) XMLScanner.Fits (.construct src outputBuf outputBufSize) calls := by
  have hfits : (XMLScanner.construct src outputBuf outputBufSize).Fits :=
    ⟨hlength, UInt32.zero_le, hsome⟩
  constructor
  · exact Runs.each_rule (fun s call hinv hallowed ↦ fits_after hbound hinv hallowed) hfits hcalls
  · exact Runs.always_rule (fun s call hinv hallowed ↦ (fits_after hbound hinv hallowed).2) hfits
      hcalls

/-- A character that is no tag, in front of a buffer of one byte that is written to as if it had
four. -/
theorem ucs4_overruns {bound : Nat} (hin : IsCharSet cfg.inputCharSet bound) {encoding : ByteOrder}
    (hout : cfg.outputCharSet = UCS4 encoding) :
    ¬ Safe cfg (.construct (cfg.inputCharSet.print 120 8) [0] 1) (.nextItem 0xFFFF) := by
  have hsmall : UInt32.toNat 120 < bound := by
    generalize cfg.inputCharSet = cs at hin
    cases hin <;> decide
  have hchar := encodes_print hin (UInt32.le_refl 8) hsmall
  let s := XMLScanner.construct (cfg.inputCharSet.print 120 8) [0] 1
  have hcontrol : XMLScanner.onSrc (TextScanner.control cfg.inputCharSet) s =
      .ok .any { s with src := .held cfg.inputCharSet (cfg.inputCharSet.print 120 8) [] } := by
    refine XMLScanner.on_src_ok ?_
    have hfirst := TextScanner.control_encoded hchar []
    rw [List.append_nil] at hfirst
    exact hfirst
  have hwild (t : XMLScanner) (hbuf : t.outputBuf = [0]) :
      XMLScanner.print cfg 0 t = .error .wildWrite t := by
    rcases XMLScanner.print_cases cfg 0 t with ⟨hroom, -⟩ | ⟨-, h⟩
    · rw [hbuf, hout] at hroom
      cases encoding <;> exact absurd (Nat.le_trans (Nat.le_add_left 4 _) hroom) (by decide)
    · exact h
  have hpass : XMLScanner.itemPass cfg 0xFFFF s = .error .wildWrite
      { s with src := .held cfg.inputCharSet (cfg.inputCharSet.print 120 8) [] } :=
    (bind_ok hcontrol).trans (bind_error (hwild _ rfl))
  intro hsafe
  have hresult : result cfg s (.nextItem 0xFFFF) = .error .wildWrite
      { s with src := .held cfg.inputCharSet (cfg.inputCharSet.print 120 8) [] } :=
    loop_error (XMLScanner.item_shrinks 0xFFFF) hpass
  exact absurd (hsafe _ _ hresult) (by decide)

/-- The runs of the scanner are safe exactly if the output is not printed as `UCS4`: every call
comes to an end, without any other exception than the one of the iterator at the end of the
input. -/
theorem runs_safe_iff {boundIn boundOut : Nat} (hin : IsCharSet cfg.inputCharSet boundIn)
    (hout : IsCharSet cfg.outputCharSet boundOut) :
    (∀ (outputBuf : List Byte) (outputBufSize : UInt32) (src : List Byte) (calls : List Call),
      outputBuf.length = outputBufSize.toNat → 0 < outputBufSize →
      Runs.Each (after cfg) Allowed (.construct src outputBuf outputBufSize) calls →
      Runs.Each (after cfg) (Safe cfg) (.construct src outputBuf outputBufSize) calls) ↔
    boundOut ≠ 2 ^ 32 := by
  constructor
  · intro hsafe hucs4
    obtain ⟨encoding, hsame⟩ : ∃ encoding, cfg.outputCharSet = UCS4 encoding := by
      generalize cfg.outputCharSet = cs at hout
      cases hout with
      | ucs4 encoding => exact ⟨encoding, rfl⟩
      | isoLatin1 | ucs2 | utf8 => exact absurd hucs4 (by decide)
    have hrun := hsafe [0] 1 (cfg.inputCharSet.print 120 8) [.nextItem 0xFFFF] rfl (by decide)
      ⟨trivial, trivial⟩
    exact ucs4_overruns hin hsame hrun.1
  · intro hsmall outputBuf outputBufSize src calls hlength hsome hcalls
    exact (run_fits ((bounded_iff hout).mpr hsmall) hlength hsome hcalls).1

theorem runs_safe_iff_utf8 :
    (∀ (outputBuf : List Byte) (outputBufSize : UInt32) (src : List Byte) (calls : List Call),
      outputBuf.length = outputBufSize.toNat → 0 < outputBufSize →
      Runs.Each (after ⟨IsoLatin1, UTF8, none⟩) Allowed
        (.construct src outputBuf outputBufSize) calls →
      Runs.Each (after ⟨IsoLatin1, UTF8, none⟩) (Safe ⟨IsoLatin1, UTF8, none⟩)
        (.construct src outputBuf outputBufSize) calls) ↔ 2 ^ 31 ≠ 2 ^ 32 :=
  runs_safe_iff .isoLatin1 .utf8

end Call

end Smerp.Textwolf
