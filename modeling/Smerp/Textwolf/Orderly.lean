import Smerp.Textwolf.XMLScanner

/-!
# What every function of the scanner keeps

A function of the scanner is orderly if it does the same with more input unless it was short of it,
never has more to read behind it than in front of it, prints into the output buffer only, and throws
nothing but what the iterator throws. The functions that read a token are local as well: they leave
the state of the state machine alone. The reading and printing functions are local, and so is what
is built of local steps and loops.
-/

namespace Smerp.Textwolf

open Lib Lib.Interruptible

/-- The character set does not write more than there is room for. -/
def Bounded (cs : CharSet) : Prop := ∀ chr bufsize, (cs.print chr bufsize).length ≤ bufsize.toNat

namespace XMLScanner

/-- What is printed lies in the output buffer, which is as large as the caller said. -/
structure Fits (s : XMLScanner) : Prop where
  length_eq : s.outputBuf.length = s.outputBufSize.toNat
  size_le : s.outputSize ≤ s.outputBufSize
  some_room : 0 < s.outputBufSize

/-- What every function of the scanner keeps. -/
structure Orderly (cfg : Setup) {α : Type} (m : Scan α) : Prop where
  extends_input : Extends feed .endOfInput m
  shortens : ∀ s, Ensures m s (fun _ s' ↦ s'.left ≤ s.left) fun _ _ ↦ True
  fits : Bounded cfg.outputCharSet → ∀ s, Fits s →
    Ensures m s (fun _ s' ↦ Fits s') fun e s' ↦ e = .endOfInput ∧ Fits s'

/-- What a function that reads a token keeps, from one state on. -/
structure LocalAt (cfg : Setup) {α : Type} (m : Scan α) (s : XMLScanner) : Prop where
  extends_input : ∀ more, Ensures m s (fun a s' ↦ m (feed s more) = .ok a (feed s' more))
    fun e s' ↦ e ≠ .endOfInput → m (feed s more) = .error e (feed s' more)
  shortens : Ensures m s (fun _ s' ↦ s'.left ≤ s.left) fun _ _ ↦ True
  fits : Bounded cfg.outputCharSet → Fits s →
    Ensures m s (fun _ s' ↦ Fits s') fun e s' ↦ e = .endOfInput ∧ Fits s'
  stays : Ensures m s (fun _ s' ↦ s'.state = s.state) fun _ s' ↦ s'.state = s.state

/-- What a function that reads a token keeps. -/
structure Local (cfg : Setup) {α : Type} (m : Scan α) : Prop where
  at_state : ∀ s, LocalAt cfg m s

variable {cfg : Setup} {α β : Type} {m : Scan α} {f : α → Scan β} {s s' : XMLScanner}

/-- Behind a function that returns there is not more to read. -/
theorem Orderly.left_le (h : Orderly cfg m) {a : α} (hm : m s = .ok a s') : s'.left ≤ s.left :=
  (h.shortens s).ok hm

theorem Local.orderly (h : Local cfg m) : Orderly cfg m :=
  ⟨fun s ↦ (h.at_state s).extends_input, fun s ↦ (h.at_state s).shortens,
    fun hbound s ↦ (h.at_state s).fits hbound⟩

/-- A function that reads a token leaves the state machine alone. -/
theorem Local.state_eq (h : Local cfg m) {a : α} (hm : m s = .ok a s') : s'.state = s.state :=
  (h.at_state s).stays.ok hm

/-! ## Steps and loops -/

theorem Orderly.pure (a : α) : Orderly cfg (pure a : Scan α) where
  extends_input := .pure a
  shortens _ := .of_ok rfl (Nat.le_refl _)
  fits _ _ hfits := .of_ok rfl hfits

theorem Orderly.bind (hm : Orderly cfg m) (hf : ∀ a, Orderly cfg (f a)) :
    Orderly cfg (m >>= f) where
  extends_input := hm.extends_input.bind fun a ↦ (hf a).extends_input
  shortens s := by
    refine .bind ((hm.shortens s).mono ?_ fun _ _ h ↦ h)
    intro a s' hless
    exact ((hf a).shortens s').mono (fun _ _ hmore ↦ Nat.le_trans hmore hless) fun _ _ h ↦ h
  fits hbound s hfits := by
    refine .bind ((hm.fits hbound s hfits).mono ?_ fun _ _ h ↦ h)
    intro a s' hnext
    exact (hf a).fits hbound s' hnext

/-- A loop of orderly passes. -/
theorem Orderly.loop {size : XMLScanner → Nat} {body : Scan (Option α)}
    (hshrinks : Shrinks size body) (hbody : Orderly cfg body) :
    Orderly cfg (loop .endless size body) where
  extends_input := .loop hshrinks hbody.extends_input
  shortens s := by
    refine .loop hshrinks (fun s' ↦ s'.left ≤ s.left) ?_ (Nat.le_refl _)
    intro s' hless
    refine (hbody.shortens s').mono ?_ fun _ _ h ↦ h
    intro result s'' hmore
    exact ⟨fun _ _ ↦ Nat.le_trans hmore hless, fun _ ↦ Nat.le_trans hmore hless⟩
  fits hbound s hfits := by
    refine .loop hshrinks Fits ?_ hfits
    intro s' hnext
    refine (hbody.fits hbound s' hnext).mono ?_ fun _ _ h ↦ h
    intro result s'' hlast
    exact ⟨fun _ _ ↦ hlast, fun _ ↦ hlast⟩

/-- A change of members that are neither the input nor the output. -/
theorem Orderly.alter {change : XMLScanner → XMLScanner}
    (h : ∀ s, (change s).src = s.src ∧ (change s).outputBuf = s.outputBuf ∧
      (change s).outputBufSize = s.outputBufSize ∧ (change s).outputSize = s.outputSize)
    (hfeed : ∀ s more, change (feed s more) = feed (change s) more) :
    Orderly cfg (alter change : Scan PUnit) where
  extends_input := .alter hfeed
  shortens s := .of_ok rfl (by rw [left, left, (h s).1])
  fits _ s hfits := by
    obtain ⟨-, hbuf, hsize, hused⟩ := h s
    refine .of_ok rfl ⟨?_, ?_, ?_⟩
    · rw [hbuf, hsize]
      exact hfits.length_eq
    · rw [hused, hsize]
      exact hfits.size_le
    · rw [hsize]
      exact hfits.some_room

/-- An orderly function that leaves the state machine alone is local. -/
theorem Orderly.local_at (h : Orderly cfg m)
    (hstays : Ensures m s (fun _ s' ↦ s'.state = s.state) fun _ s' ↦ s'.state = s.state) :
    LocalAt cfg m s :=
  ⟨h.extends_input s, h.shortens s, fun hbound ↦ h.fits hbound s, hstays⟩

/-- A step from a state, and what follows on it. -/
theorem LocalAt.bind (hm : LocalAt cfg m s)
    (hf : ∀ a s', m s = .ok a s' → LocalAt cfg (f a) s') : LocalAt cfg (m >>= f) s where
  extends_input more := by
    cases hstep : m s with
    | error e s' =>
        refine .of_error (bind_error hstep) ?_
        intro he
        exact bind_error ((hm.extends_input more).error hstep he)
    | ok a s' =>
        have hnext := (hf a s' hstep).extends_input more
        rw [Ensures, bind_ok hstep, bind_ok ((hm.extends_input more).ok hstep)]
        exact hnext
  shortens := by
    cases hstep : m s with
    | error e s' => exact .of_error (bind_error hstep) trivial
    | ok a s' =>
        have hless := hm.shortens.ok hstep
        rw [Ensures, bind_ok hstep]
        exact ((hf a s' hstep).shortens.mono (fun _ _ hmore ↦ Nat.le_trans hmore hless)
          fun _ _ h ↦ h : Ensures _ _ _ _)
  fits hbound hfits := by
    cases hstep : m s with
    | error e s' => exact .of_error (bind_error hstep) ((hm.fits hbound hfits).error hstep)
    | ok a s' =>
        rw [Ensures, bind_ok hstep]
        exact (hf a s' hstep).fits hbound ((hm.fits hbound hfits).ok hstep)
  stays := by
    cases hstep : m s with
    | error e s' => exact .of_error (bind_error hstep) (hm.stays.error hstep)
    | ok a s' =>
        have hsame := hm.stays.ok hstep
        rw [Ensures, bind_ok hstep]
        exact ((hf a s' hstep).stays.mono (fun _ _ h ↦ h.trans hsame)
          fun _ _ h ↦ h.trans hsame : Ensures _ _ _ _)

theorem LocalAt.ite {m' : Scan α} {c : Prop} [Decidable c] (hm : LocalAt cfg m s)
    (hm' : LocalAt cfg m' s) : LocalAt cfg (if c then m else m') s := by
  split_ifs
  · exact hm
  · exact hm'

theorem Local.pure (a : α) : Local cfg (pure a : Scan α) :=
  ⟨fun _ ↦ (Orderly.pure a).local_at (.of_ok rfl rfl)⟩

theorem Local.bind (hm : Local cfg m) (hf : ∀ a, Local cfg (f a)) : Local cfg (m >>= f) :=
  ⟨fun s ↦ (hm.at_state s).bind fun a s' _ ↦ (hf a).at_state s'⟩

theorem Local.ite {m' : Scan α} {c : Prop} [Decidable c] (hm : Local cfg m)
    (hm' : Local cfg m') : Local cfg (if c then m else m') :=
  ⟨fun s ↦ (hm.at_state s).ite (hm'.at_state s)⟩

/-- A loop of local passes. -/
theorem Local.loop {size : XMLScanner → Nat} {body : Scan (Option α)}
    (hshrinks : Shrinks size body) (hbody : Local cfg body) :
    Local cfg (loop .endless size body) := by
  refine ⟨fun s ↦ (hbody.orderly.loop hshrinks).local_at ?_⟩
  refine .loop hshrinks (fun s' ↦ s'.state = s.state) ?_ rfl
  intro s' hsame
  refine (hbody.at_state s').stays.mono ?_ fun _ _ h ↦ h.trans hsame
  intro result s'' h
  exact ⟨fun _ _ ↦ h.trans hsame, fun _ ↦ h.trans hsame⟩

/-- What is read off the state. -/
theorem Local.look {view : XMLScanner → α} (h : ∀ s more, view (feed s more) = view s) :
    Local cfg (look view : Scan α) where
  at_state _ :=
    { extends_input := Extends.look h _
      shortens := .of_ok rfl (Nat.le_refl _)
      fits := fun _ hfits ↦ .of_ok rfl hfits
      stays := .of_ok rfl rfl }

/-- A change of members that are neither the input nor the output nor the state. -/
theorem Local.alter {change : XMLScanner → XMLScanner}
    (h : ∀ s, (change s).src = s.src ∧ (change s).outputBuf = s.outputBuf ∧
      (change s).outputBufSize = s.outputBufSize ∧ (change s).outputSize = s.outputSize)
    (hstays : ∀ s, (change s).state = s.state)
    (hfeed : ∀ s more, change (feed s more) = feed (change s) more) :
    Local cfg (alter change : Scan PUnit) :=
  ⟨fun s ↦ (Orderly.alter h hfeed).local_at (.of_ok rfl (hstays s))⟩

theorem Local.set_tok (change : TokState → TokState) : Local cfg (setTok change) :=
  .alter (fun _ ↦ ⟨rfl, rfl, rfl, rfl⟩) (fun _ ↦ rfl) fun _ _ ↦ rfl

theorem Local.fail (e : Error) : Local cfg (fail e) :=
  .bind (.alter (fun _ ↦ ⟨rfl, rfl, rfl, rfl⟩) (fun _ ↦ rfl) fun _ _ ↦ rfl) fun _ ↦ .pure false

/-! ## Reading -/

/-- A function of the reader that returns. -/
theorem on_src_ok {read : Read α} {a : α} {src : TextScanner} (h : read s.src = .ok a src) :
    onSrc read s = .ok a { s with src := src } := by
  rw [onSrc, h]

/-- A function of the reader that throws. -/
theorem on_src_error {read : Read α} {e : Stop} {src : TextScanner}
    (h : read s.src = .error e src) : onSrc read s = .error e { s with src := src } := by
  rw [onSrc, h]

/-- What a function of the reader that returned has done. -/
theorem of_on_src_ok {read : Read α} {a : α} (h : onSrc read s = .ok a s') :
    read s.src = .ok a s'.src ∧ s' = { s with src := s'.src } := by
  cases hread : read s.src with
  | ok b src =>
      rw [on_src_ok hread] at h
      obtain ⟨rfl, rfl⟩ : b = a ∧ _ = s' := by simpa using h
      exact ⟨rfl, rfl⟩
  | error e src =>
      rw [on_src_error hread] at h
      exact nomatch h

/-- What a function of the reader that threw has done. -/
theorem of_on_src_error {read : Read α} {e : Stop} (h : onSrc read s = .error e s') :
    read s.src = .error e s'.src ∧ s' = { s with src := s'.src } := by
  cases hread : read s.src with
  | ok b src =>
      rw [on_src_ok hread] at h
      exact nomatch h
  | error d src =>
      rw [on_src_error hread] at h
      obtain ⟨rfl, rfl⟩ : d = e ∧ _ = s' := by simpa using h
      exact ⟨rfl, rfl⟩

/-- A function of the reader, as one of the scanner. -/
theorem LocalAt.on_src {read : Read α} (hextends : Extends TextScanner.feed .endOfInput read)
    (hleft : ∀ a src, read s.src = .ok a src → src.left ≤ s.src.left)
    (hread : ∀ e src, read s.src = .error e src → e = .endOfInput) :
    LocalAt cfg (onSrc read) s := by
  have hkept (hfits : Fits s) (src : TextScanner) : Fits { s with src := src } :=
    ⟨hfits.length_eq, hfits.size_le, hfits.some_room⟩
  cases hstep : read s.src with
  | ok a src =>
      exact
        { extends_input := fun more ↦
            .of_ok (on_src_ok hstep) (on_src_ok (hextends.ok hstep more))
          shortens := .of_ok (on_src_ok hstep) (hleft a src hstep)
          fits := fun _ hfits ↦ .of_ok (on_src_ok hstep) (hkept hfits src)
          stays := .of_ok (on_src_ok hstep) rfl }
  | error e src =>
      exact
        { extends_input := fun more ↦ .of_error (on_src_error hstep) fun he ↦
            on_src_error (hextends.error hstep he more)
          shortens := .of_error (on_src_error hstep) trivial
          fits := fun _ hfits ↦
            .of_error (on_src_error hstep) ⟨hread e src hstep, hkept hfits src⟩
          stays := .of_error (on_src_error hstep) rfl }

theorem Local.classify (cs : CharSet) (view : Byte → α) :
    Local cfg (onSrc (TextScanner.classify cs view)) := by
  refine ⟨fun s ↦ .on_src (TextScanner.extends_classify view) ?_ ?_⟩
  · intro a src h
    exact (TextScanner.classify_keeps h).2.1.le
  · intro e src h
    rcases TextScanner.classify_cases view s.src with ⟨_, _, _, _, _, hresult⟩ | ⟨_, _, hresult⟩
    · rw [hresult] at h
      exact nomatch h
    · rw [hresult] at h
      obtain ⟨rfl, -⟩ : Stop.endOfInput = e ∧ _ = src := by simpa using h
      rfl

theorem Local.control (cs : CharSet) : Local cfg (onSrc (TextScanner.control cs)) :=
  .classify cs controlCharMap

theorem Local.ascii (cs : CharSet) : Local cfg (onSrc (TextScanner.ascii cs)) :=
  .classify cs TextScanner.asciiOf

/-- A character is decoded behind its classification. -/
theorem LocalAt.chr {cs : CharSet} (hloaded : TextScanner.Loaded cs s.src) :
    LocalAt cfg (onSrc (TextScanner.chr cs)) s := by
  refine .on_src TextScanner.extends_chr ?_ ?_
  · intro code src h
    exact (TextScanner.chr_keeps hloaded h).2.1.le
  · intro e src h
    rcases TextScanner.chr_error h with he | ⟨-, hnot⟩
    · exact he
    · exact absurd hloaded hnot

theorem Local.skip (cs : CharSet) : Local cfg (onSrc (TextScanner.skip cs)) := by
  refine ⟨fun s ↦ .on_src TextScanner.extends_skip ?_ ?_⟩
  · intro _ src h
    exact (TextScanner.skip_left h).le
  · intro e src h
    exact TextScanner.skip_error h

/-! ## Printing -/

/-- A write into the room that is left. -/
theorem write_ok {bytes : List Byte} (h : s.outputSize.toNat + bytes.length ≤ s.outputBuf.length) :
    write bytes s = .ok () { s with
      outputBuf := Block.store s.outputBuf s.outputSize.toNat bytes } := if_pos h

/-- A write behind the buffer. -/
theorem write_wild {bytes : List Byte}
    (h : ¬ s.outputSize.toNat + bytes.length ≤ s.outputBuf.length) :
    write bytes s = .error .wildWrite s := if_neg h

theorem Fits.stored (hfits : Fits s) {bytes : List Byte}
    (h : s.outputSize.toNat + bytes.length ≤ s.outputBuf.length) :
    Fits { s with outputBuf := Block.store s.outputBuf s.outputSize.toNat bytes } :=
  ⟨(Block.store_length h).trans hfits.length_eq, hfits.size_le, hfits.some_room⟩

/-- There is as much room as the difference of the sizes says. -/
theorem Fits.room (hfits : Fits s) :
    s.outputSize.toNat + (s.outputBufSize - s.outputSize).toNat = s.outputBuf.length := by
  have hle := UInt32.le_iff_toNat_le.mp hfits.size_le
  rw [UInt32.toNat_sub_of_le _ _ hfits.size_le, hfits.length_eq]
  omega

/-- What `print` does: the bytes that fit are written, and an error is noted if there are none. -/
theorem print_cases (cfg : Setup) (ch : UChar) (s : XMLScanner) :
    let bytes := cfg.outputCharSet.print ch (s.outputBufSize - s.outputSize)
    let s' := { s with outputBuf := Block.store s.outputBuf s.outputSize.toNat bytes }
    (s.outputSize.toNat + bytes.length ≤ s.outputBuf.length ∧
      ((bytes ≠ [] ∧ print cfg ch s = .ok bytes.length.toUInt32 s') ∨
        (bytes = [] ∧ print cfg ch s = .ok 0 { s' with
          error := .errOutputBufferTooSmall, tokstate := { s.tokstate with curchrSaved := ch } })))
      ∨ (¬ s.outputSize.toNat + bytes.length ≤ s.outputBuf.length ∧
        print cfg ch s = .error .wildWrite s) := by
  intro bytes s'
  have hlook : print cfg ch s = (write bytes >>= fun _ ↦
      (if bytes = [] then do
        alter fun s ↦ { s with
          error := .errOutputBufferTooSmall, tokstate := { s.tokstate with curchrSaved := ch } }
        return 0
      else return bytes.length.toUInt32 : Scan UInt32)) s := rfl
  by_cases hroom : s.outputSize.toNat + bytes.length ≤ s.outputBuf.length
  · refine .inl ⟨hroom, ?_⟩
    rw [hlook, bind_ok (write_ok hroom)]
    split_ifs with hempty
    · exact .inr ⟨hempty, rfl⟩
    · exact .inl ⟨hempty, rfl⟩
  · refine .inr ⟨hroom, ?_⟩
    rw [hlook, bind_error (write_wild hroom)]

theorem Orderly.print (ch : UChar) : Orderly cfg (print cfg ch) where
  extends_input s more := by
    rcases print_cases cfg ch s with ⟨hroom, ⟨hsome, h⟩ | ⟨hnone, h⟩⟩ | ⟨hroom, h⟩
    · rcases print_cases cfg ch (feed s more) with ⟨-, ⟨-, h'⟩ | ⟨hnone, -⟩⟩ | ⟨hwild, -⟩
      · exact .of_ok h h'
      · exact absurd hnone hsome
      · exact absurd hroom hwild
    · rcases print_cases cfg ch (feed s more) with ⟨-, ⟨hsome, -⟩ | ⟨-, h'⟩⟩ | ⟨hwild, -⟩
      · exact absurd hnone hsome
      · exact .of_ok h h'
      · exact absurd hroom hwild
    · rcases print_cases cfg ch (feed s more) with ⟨hok, -⟩ | ⟨-, h'⟩
      · exact absurd hok hroom
      · exact .of_error h fun _ ↦ h'
  shortens s := by
    rcases print_cases cfg ch s with ⟨-, ⟨-, h⟩ | ⟨-, h⟩⟩ | ⟨-, h⟩
    · exact .of_ok h (Nat.le_refl _)
    · exact .of_ok h (Nat.le_refl _)
    · exact .of_error h trivial
  fits hbound s hfits := by
    have hsmall := hbound ch (s.outputBufSize - s.outputSize)
    have hroom := hfits.room
    rcases print_cases cfg ch s with ⟨hok, ⟨-, h⟩ | ⟨-, h⟩⟩ | ⟨hwild, -⟩
    · exact .of_ok h (hfits.stored hok)
    · obtain ⟨hlength, hsize, hsome⟩ := hfits.stored hok
      exact .of_ok h ⟨hlength, hsize, hsome⟩
    · omega

theorem Local.print (ch : UChar) : Local cfg (print cfg ch) := by
  refine ⟨fun s ↦ (Orderly.print ch).local_at ?_⟩
  rcases print_cases cfg ch s with ⟨-, ⟨-, h⟩ | ⟨-, h⟩⟩ | ⟨-, h⟩
  · exact .of_ok h rfl
  · exact .of_ok h rfl
  · exact .of_error h rfl

/-- The number that `print` returns, and what it leaves alone. -/
theorem print_returns {ch : UChar} {nn : UInt32} (h : print cfg ch s = .ok nn s') :
    nn = (cfg.outputCharSet.print ch (s.outputBufSize - s.outputSize)).length.toUInt32 ∧
      s'.outputSize = s.outputSize ∧ s'.outputBufSize = s.outputBufSize := by
  rcases print_cases cfg ch s with ⟨-, ⟨-, hprint⟩ | ⟨hnone, hprint⟩⟩ | ⟨-, hprint⟩
  · rw [hprint] at h
    obtain ⟨rfl, rfl⟩ : _ = nn ∧ _ = s' := by simpa using h
    exact ⟨rfl, rfl, rfl⟩
  · rw [hprint] at h
    obtain ⟨rfl, rfl⟩ : 0 = nn ∧ _ = s' := by simpa using h
    rw [hnone]
    exact ⟨rfl, rfl, rfl⟩
  · rw [hprint] at h
    exact nomatch h

theorem Local.push (ch : UChar) : Local cfg (push cfg ch) := by
  refine ⟨fun s ↦ ⟨?_, ?_, ?_, ?_⟩⟩
  case refine_1 =>
    refine (Orderly.print ch).extends_input.bind ?_ s
    intro nn
    refine Extends.bind (.alter fun _ _ ↦ rfl) ?_
    intro _
    exact .pure _
  case refine_2 =>
    refine .bind (((Orderly.print ch).shortens s).mono ?_ fun _ _ h ↦ h)
    intro nn s' hless
    exact .of_ok rfl hless
  case refine_3 =>
    intro hbound hfits
    have hkept := (Orderly.print ch).fits hbound s hfits
    cases hstep : XMLScanner.print cfg ch s with
    | error e s' => exact .of_error (bind_error hstep) (hkept.error hstep)
    | ok nn s' =>
        obtain ⟨hlength, hle, hsome⟩ := hkept.ok hstep
        obtain ⟨hnn, hsize, hcap⟩ := print_returns hstep
        refine .of_ok ((bind_ok hstep).trans rfl) ⟨hlength, ?_, hsome⟩
        have hsmall := hbound ch (s.outputBufSize - s.outputSize)
        have hused := UInt32.le_iff_toNat_le.mp hfits.size_le
        have hroom := UInt32.toNat_sub_of_le _ _ hfits.size_le
        have hfull := s.outputBufSize.toNat_lt
        have hcount : nn.toNat ≤ (s.outputBufSize - s.outputSize).toNat := by
          rw [hnn]
          exact Nat.le_trans (Nat.mod_le _ _) hsmall
        show s'.outputSize + nn ≤ s'.outputBufSize
        rw [hsize, hcap, UInt32.le_iff_toNat_le, UInt32.toNat_add]
        exact Nat.le_trans (Nat.mod_le _ _) (by omega)
  case refine_4 =>
    refine .bind ((((Local.print ch).at_state s).stays).mono ?_ fun _ _ h ↦ h)
    intro nn s' hsame
    exact .of_ok rfl hsame

/-- Printing does not read. -/
theorem push_src {ch : UChar} {pushed : Bool} (h : XMLScanner.push cfg ch s = .ok pushed s') :
    s'.src = s.src := by
  have hpush : XMLScanner.push cfg ch s = (print cfg ch >>= fun nn ↦ (do
      alter fun s ↦ { s with outputSize := s.outputSize + nn }
      return nn ≠ 0 : Scan Bool)) s := rfl
  rw [hpush] at h
  rcases print_cases cfg ch s with ⟨-, ⟨-, hprint⟩ | ⟨-, hprint⟩⟩ | ⟨-, hprint⟩
  · rw [bind_ok hprint] at h
    exact (EStateM.Result.ok.inj h).2 ▸ rfl
  · rw [bind_ok hprint] at h
    exact (EStateM.Result.ok.inj h).2 ▸ rfl
  · rw [bind_error hprint] at h
    exact nomatch h

theorem Local.push_all (chars : List UChar) : Local cfg (pushAll cfg chars) := by
  induction chars with
  | nil => exact .pure true
  | cons ch more ih =>
      refine .bind (.push ch) ?_
      intro pushed
      split_ifs
      · exact ih
      · exact .pure false

/-! ## Entities -/

theorem Local.fallback_entity : Local cfg (fallbackEntity cfg) := by
  refine .bind (.look fun _ _ ↦ rfl) ?_
  intro tok
  cases tok.id with
  | start | parsingKey | parsingToken => exact .fail _
  | parsingEntity | parsingNumericEntity | parsingNumericBaseEntity | parsingNamedEntity =>
      exact .push_all _

theorem Local.skip_then {rt : α} : Local cfg (do
    onSrc (TextScanner.skip cfg.inputCharSet)
    return rt) :=
  .bind (.skip _) fun _ ↦ .pure rt

theorem Local.numeric_entity_end : Local cfg (numericEntityEnd cfg) := by
  refine .bind (.look fun _ _ ↦ rfl) ?_
  intro value
  split_ifs
  · exact .fallback_entity
  · exact .fail _
  · refine .bind (.push _) ?_
    intro pushed
    split_ifs
    · exact .bind (.set_tok _) fun _ ↦ .skip_then
    · exact .pure false

theorem Local.map {g : α → β} (hm : Local cfg m) :
    Local cfg (do return g (← m) : Scan β) := .bind hm fun a ↦ .pure (g a)

theorem Local.numeric_entity_pass : Local cfg (numericEntityPass cfg) := by
  refine .bind (.look fun _ _ ↦ rfl) ?_
  intro tok
  refine .ite (.bind (.ascii _) ?_) (.map .fallback_entity)
  intro ch
  refine .bind (.set_tok _) ?_
  intro _
  exact .ite (.map .numeric_entity_end)
    (.ite (.map .fallback_entity) (.bind (.set_tok _) fun _ ↦ .skip_then))

/-! ## Passes that go round again -/

/-- The state is no longer to be read than it was. -/
def Shorter (s : XMLScanner) (m : Scan (Option α)) : Prop :=
  Ensures m s (fun result s' ↦ result = none → s'.left < s.left) fun _ _ ↦ True

/-- A pass that returns does not go round again. -/
theorem Shorter.map (m : Scan α) : Shorter s (do return some (← m)) := by
  rw [Shorter]
  cases hm : m s with
  | ok a s' => exact .of_ok (bind_ok hm) fun hnone ↦ nomatch hnone
  | error e s' => exact .of_error (bind_error hm) trivial

theorem Shorter.ret (a : α) : Shorter s (pure (some a)) := .of_ok rfl fun hnone ↦ nomatch hnone

/-- A pass that skips a character and goes round again. -/
theorem Shorter.skip {cs : CharSet} {result : Option α} (s : XMLScanner) :
    Shorter s (do
      onSrc (TextScanner.skip cs)
      return result) := by
  cases hskip : TextScanner.skip cs s.src with
  | ok _ src =>
      exact .of_ok (bind_ok (on_src_ok hskip)) fun _ ↦ TextScanner.skip_left hskip
  | error e src => exact .of_error (bind_error (on_src_error hskip)) trivial

/-- A pass that skips a character before it goes on. -/
theorem Shorter.skip_first (cfg : Setup) {cs : CharSet} {f : Unit → Scan (Option α)}
    (s : XMLScanner)
    (hf : ∀ a, Local cfg (f a)) : Shorter s (onSrc (TextScanner.skip cs) >>= f) := by
  rw [Shorter]
  cases hskip : TextScanner.skip cs s.src with
  | error e src => exact .of_error (bind_error (on_src_error hskip)) trivial
  | ok _ src =>
      have hless : src.left < s.src.left := TextScanner.skip_left hskip
      rw [Ensures, bind_ok (on_src_ok hskip)]
      refine (((hf ()).orderly.shortens { s with src := src }).mono ?_ fun _ _ h ↦ h :
        Ensures _ _ _ _)
      intro result s' hle _
      exact Nat.lt_of_le_of_lt hle hless

/-- A step of a pass that does not lead away from the input. -/
theorem Shorter.bind_at {f : β → Scan (Option α)} {m : Scan β} (hm : LocalAt cfg m s)
    (hf : ∀ b s', m s = .ok b s' → Shorter s' (f b)) : Shorter s (m >>= f) := by
  rw [Shorter]
  cases hstep : m s with
  | error e s' => exact .of_error (bind_error hstep) trivial
  | ok b s' =>
      have hless := hm.shortens.ok hstep
      have hnext := hf b s' hstep
      rw [Ensures, bind_ok hstep]
      refine (Ensures.mono hnext ?_ fun _ _ h ↦ h : Ensures (f b) s' _ _)
      intro result s'' hshort hnone
      exact Nat.lt_of_lt_of_le (hshort hnone) hless

theorem Shorter.bind (cfg : Setup) {f : β → Scan (Option α)} {m : Scan β} (hm : Local cfg m)
    (hf : ∀ b s', m s = .ok b s' → Shorter s' (f b)) : Shorter s (m >>= f) :=
  .bind_at (hm.at_state s) hf

theorem Shorter.ite {m m' : Scan (Option α)} {c : Prop} [Decidable c] (hm : c → Shorter s m)
    (hm' : ¬ c → Shorter s m') : Shorter s (if c then m else m') := by
  split_ifs with hc
  · exact hm hc
  · exact hm' hc

/-- A body whose passes are shorter makes the state smaller. -/
theorem shrinks_of_shorter {body : Scan (Option α)} (h : ∀ s, Shorter s body) :
    Shrinks left body := fun s _ hagain ↦ (h s).ok hagain rfl

theorem numeric_entity_shrinks : Shrinks left (numericEntityPass cfg) := by
  refine shrinks_of_shorter ?_
  intro s
  refine .bind cfg (.look fun _ _ ↦ rfl) ?_
  intro tok s₁ _
  refine .ite (fun _ ↦ .bind cfg (.ascii _) ?_) fun _ ↦ .map _
  intro ch s₂ _
  refine .bind cfg (.set_tok _) ?_
  intro _ s₃ _
  refine .ite (fun _ ↦ .map _) fun _ ↦ .ite (fun _ ↦ .map _) fun _ ↦ .bind cfg (.set_tok _) ?_
  intro _ s₄ _
  exact .skip s₄

theorem Local.parse_numeric_base_entity : Local cfg (parseNumericBaseEntity cfg) :=
  .bind (.set_tok _) fun _ ↦ .loop numeric_entity_shrinks .numeric_entity_pass

theorem Local.parse_numeric_entity : Local cfg (parseNumericEntity cfg) := by
  refine .bind (.set_tok _) ?_
  intro _
  refine .bind (.ascii _) ?_
  intro ch
  refine .ite (.bind (.set_tok _) ?_) (.bind (.set_tok _) fun _ ↦ .parse_numeric_base_entity)
  intro _
  exact .bind (.skip _) fun _ ↦ .parse_numeric_base_entity

theorem Local.push_entity (str : List Byte) : Local cfg (pushEntity cfg str) := by
  have hpredefined : Local cfg (pushPredefinedEntity cfg str) := by
    rw [pushPredefinedEntity]
    cases predefinedEntity str with
    | some ch => exact .push ch
    | none => exact .pure false
  refine .bind hpredefined ?_
  intro pushed
  refine .ite (.pure true) ?_
  cases cfg.entityMap with
  | none => exact .fail _
  | some find =>
      dsimp only
      cases find str with
      | none => exact .fail _
      | some ch => exact .ite (.fail _) (.push ch)

theorem Local.named_entity_end : Local cfg (namedEntityEnd cfg) := by
  refine .bind (.look fun _ _ ↦ rfl) ?_
  intro tok
  refine .bind (.set_tok _) ?_
  intro _
  refine .bind (.push_entity _) ?_
  intro pushed
  exact .ite (.bind (.set_tok _) fun _ ↦ .skip_then) (.pure false)

theorem Local.named_entity_pass : Local cfg (namedEntityPass cfg) := by
  refine .bind (.ascii _) ?_
  intro ch
  refine .bind (.look fun _ _ ↦ rfl) ?_
  intro tok
  refine .bind (.control _) ?_
  intro cc
  refine .ite (.bind (.set_tok _) ?_) (.ite (.map .named_entity_end) (.map .fallback_entity))
  intro _
  exact .bind (.skip _) fun _ ↦ .bind (.set_tok _) fun _ ↦ .pure none

theorem named_entity_shrinks : Shrinks left (namedEntityPass cfg) := by
  refine shrinks_of_shorter ?_
  intro s
  refine .bind cfg (.ascii _) ?_
  intro ch s₁ _
  refine .bind cfg (.look fun _ _ ↦ rfl) ?_
  intro tok s₂ _
  refine .bind cfg (.control _) ?_
  intro cc s₃ _
  refine .ite (fun _ ↦ .bind cfg (.set_tok _) ?_) fun _ ↦ .ite (fun _ ↦ .map _) fun _ ↦ .map _
  intro _ s₄ _
  exact .skip_first cfg s₄ fun _ ↦ .bind (.set_tok _) fun _ ↦ .pure none

theorem Local.parse_named_entity : Local cfg (parseNamedEntity cfg) :=
  .bind (.set_tok _) fun _ ↦ .loop named_entity_shrinks .named_entity_pass

theorem Local.parse_entity : Local cfg (parseEntity cfg) := by
  refine .bind (.set_tok _) ?_
  intro _
  refine .bind (.ascii _) ?_
  intro ch
  exact .ite (.bind (.skip _) fun _ ↦ .parse_numeric_entity) .parse_named_entity

/-! ## Tokens -/

theorem Local.recover_entity : Local cfg (recoverEntity cfg) := by
  refine .bind (.look fun _ _ ↦ rfl) ?_
  intro id
  cases id with
  | start | parsingKey | parsingToken => exact .pure false
  | parsingEntity => exact .parse_entity
  | parsingNumericEntity => exact .parse_numeric_entity
  | parsingNumericBaseEntity => exact .parse_numeric_base_entity
  | parsingNamedEntity => exact .parse_named_entity

theorem Local.recover_rest : Local cfg (recoverRest cfg) := by
  refine .bind (.look fun _ _ ↦ rfl) ?_
  intro id
  refine .ite (.fail _) (.bind .recover_entity ?_)
  intro rt
  exact .bind (.set_tok _) fun _ ↦ .pure rt

theorem Local.parse_token_recover : Local cfg (parseTokenRecover cfg) := by
  refine .bind (.look fun _ _ ↦ rfl) ?_
  intro saved
  refine .ite (.bind (.push _) ?_) .recover_rest
  intro pushed
  exact .ite (.bind (.set_tok _) fun _ ↦ .recover_rest) (.pure false)

theorem Local.token_pass (isTok : IsTokenCharMap) : Local cfg (tokenPass cfg isTok) := by
  refine ⟨fun s ↦ .bind ((Local.control _).at_state s) ?_⟩
  intro ch s₁ hcontrol
  have hloaded := (TextScanner.classify_keeps (of_on_src_ok hcontrol).1).1
  refine .ite (.bind (.chr hloaded) ?_) (Local.at_state ?_ s₁)
  · intro code s₂ hchr
    have hdecoded := (TextScanner.chr_keeps hloaded (of_on_src_ok hchr).1).1
    refine .bind ((Local.push _).at_state s₂) ?_
    intro pushed s₃ hpush
    refine .ite (Local.skip_then.at_state s₃) (.bind (.chr (push_src hpush ▸ hdecoded)) ?_)
    intro code s₄ _
    exact (Local.bind (.set_tok _) fun _ ↦ .pure _).at_state s₄
  · refine .ite (.bind (.skip _) ?_) (.bind (.set_tok _) fun _ ↦ .pure _)
    intro _
    refine .bind .parse_entity ?_
    intro parsed
    exact .ite (.bind (.set_tok _) fun _ ↦ .pure _) (.bind (.set_tok _) fun _ ↦ .pure _)

theorem token_shrinks (isTok : IsTokenCharMap) : Shrinks left (tokenPass cfg isTok) := by
  refine shrinks_of_shorter ?_
  intro s
  refine .bind cfg (.control _) ?_
  intro ch s₁ hcontrol
  have hloaded := (TextScanner.classify_keeps (of_on_src_ok hcontrol).1).1
  refine .ite (fun _ ↦ .bind_at (.chr hloaded : LocalAt cfg _ _) ?_) fun _ ↦
    .ite (fun _ ↦ ?_) fun _ ↦ ?_
  · intro code s₂ hchr
    have hdecoded := (TextScanner.chr_keeps hloaded (of_on_src_ok hchr).1).1
    refine .bind cfg (.push _) ?_
    intro pushed s₃ hpush
    refine .ite (fun _ ↦ .skip s₃) fun _ ↦
      .bind_at (.chr (push_src hpush ▸ hdecoded) : LocalAt cfg _ _) ?_
    intro code s₄ _
    exact .bind cfg (.set_tok _) fun _ _ _ ↦ .ret false
  · refine .skip_first cfg s₁ ?_
    intro _
    refine .bind .parse_entity ?_
    intro parsed
    exact .ite (.bind (.set_tok _) fun _ ↦ .pure _) (.bind (.set_tok _) fun _ ↦ .pure _)
  · exact .bind cfg (.set_tok _) fun _ _ _ ↦ .ret true

theorem Local.token_loop (isTok : IsTokenCharMap) : Local cfg (tokenLoop cfg isTok) :=
  .loop (token_shrinks isTok) (.token_pass isTok)

theorem Local.parse_token (isTok : IsTokenCharMap) : Local cfg (parseToken cfg isTok) := by
  refine .bind (.look fun _ _ ↦ rfl) ?_
  intro id
  refine .ite (.bind (.set_tok _) fun _ ↦ .token_loop isTok) (.ite ?_ (.token_loop isTok))
  refine .bind .parse_token_recover ?_
  intro recovered
  exact .ite (.token_loop isTok) (.bind (.set_tok _) fun _ ↦ .pure false)

theorem Local.skip_pass (isTok : IsTokenCharMap) : Local cfg (skipPass cfg isTok) := by
  refine .bind (.control _) ?_
  intro ch
  refine .ite .skip_then (.bind (.control _) ?_)
  intro ch
  exact .pure _

theorem skip_shrinks {isTok : IsTokenCharMap} (hany : isTok .any = true) :
    Shrinks left (skipPass cfg isTok) := by
  refine shrinks_of_shorter ?_
  intro s
  refine .bind cfg (.control _) ?_
  intro ch s₁ hfirst
  refine .ite (fun _ ↦ .skip s₁) fun hother ↦ .bind cfg (.control _) ?_
  intro ch' s₂ hsecond
  -- the character is loaded, so that it is the same one
  obtain ⟨hclass, hagain⟩ := TextScanner.classify_again controlCharMap (of_on_src_ok hfirst).1
  have hsame : ch' = ch := by
    have hresult := (on_src_ok hagain).symm.trans hsecond
    rw [hclass]
    simp at hresult
    exact hresult.1.symm
  have hends : ch' ≠ .any := by
    rintro rfl
    exact hother (.inl (hsame ▸ hany))
  rw [if_pos hends]
  exact .ret true

theorem Local.skip_token {isTok : IsTokenCharMap} (hany : isTok .any = true) :
    Local cfg (skipToken cfg isTok) := .loop (skip_shrinks hany) (.skip_pass isTok)

theorem Local.expect_pass (str : List Byte) : Local cfg (expectPass cfg str) := by
  refine .bind (.look fun _ _ ↦ rfl) ?_
  intro pos
  cases str[pos]? with
  | none => exact .pure _
  | some expected =>
      refine .bind (.ascii _) ?_
      intro ch
      refine .ite (.bind (.skip _) fun _ ↦ .bind (.set_tok _) fun _ ↦ .pure _) ?_
      refine .bind (.control _) ?_
      intro cc
      exact .map (.fail _)

theorem expect_shrinks (str : List Byte) : Shrinks left (expectPass cfg str) := by
  refine shrinks_of_shorter ?_
  intro s
  refine .bind cfg (.look fun _ _ ↦ rfl) ?_
  intro pos s₁ _
  cases str[pos]? with
  | none => exact .ret true
  | some expected =>
      refine .bind cfg (.ascii _) ?_
      intro ch s₂ _
      refine .ite (fun _ ↦ .skip_first cfg s₂ ?_) fun _ ↦ .bind cfg (.control _) ?_
      · intro _
        exact .bind (.set_tok _) fun _ ↦ .pure _
      · intro cc s₃ _
        exact .map _

theorem Local.expect_str (str : List Byte) : Local cfg (expectStr cfg str) := by
  refine .bind (.set_tok _) ?_
  intro _
  refine .bind (.loop (expect_shrinks str) (.expect_pass str)) ?_
  intro rt
  exact .bind (.set_tok _) fun _ ↦ .pure rt

/-! ## Items -/

/-- The characters of every kind of token include the ordinary ones. -/
theorem token_defs_any {op : STMAction} {isTok : IsTokenCharMap} (h : tokenDefs op = some isTok) :
    isTok .any = true := by
  cases op
  all_goals simp only [tokenDefs, Option.some.injEq, reduceCtorEq] at h
  all_goals subst h
  all_goals rfl

theorem Local.token_end (arg : ElementType) (rt : Bool) : Local cfg (tokenEnd cfg arg rt) := by
  refine .ite (.bind (.print 0) ?_) (.pure _)
  intro nn
  exact .pure _

theorem Local.act (mask : UInt16) (action : Option (STMAction × ElementType)) :
    Local cfg (act cfg mask action) := by
  cases action with
  | none => exact .pure _
  | some pair =>
      obtain ⟨op, arg⟩ := pair
      rw [XMLScanner.act]
      cases hdef : tokenDefs op with
      | some isTok =>
          refine .bind (.ite (.parse_token isTok) (.skip_token (token_defs_any hdef))) ?_
          intro rt
          exact .token_end arg rt
      | none =>
          cases stringDefs op with
          | some str =>
              refine .bind (.expect_str str) ?_
              intro rt
              exact .pure _
          | none => exact .pure _

theorem Orderly.transit (sd : Element) (ch : ControlCharacter) (rt : ElementType) :
    Orderly cfg (transit cfg sd ch rt) := by
  rw [XMLScanner.transit]
  cases sd.next ch with
  | some ns =>
      refine .bind (.alter (fun _ ↦ ⟨rfl, rfl, rfl, rfl⟩) fun _ _ ↦ rfl) ?_
      intro _
      exact Local.skip_then.orderly
  | none =>
      cases sd.fallbackState with
      | some ns =>
          refine .bind (.alter (fun _ ↦ ⟨rfl, rfl, rfl, rfl⟩) fun _ _ ↦ rfl) ?_
          intro _
          exact .pure _
      | none =>
          refine .bind (.print 0) ?_
          intro _
          refine .bind (.alter (fun _ ↦ ⟨rfl, rfl, rfl, rfl⟩) fun _ _ ↦ rfl) ?_
          intro _
          exact .pure _

theorem Orderly.behind_action (sd : Element) (acted : Acted) :
    Orderly cfg (behindAction cfg sd acted) := by
  cases acted with
  | returns rt => exact .pure _
  | goesOn rt =>
      refine .bind (Local.control _).orderly ?_
      intro ch
      exact .transit sd ch rt

theorem Orderly.item_pass (mask : UInt16) : Orderly cfg (itemPass cfg mask) := by
  refine .bind (Local.look fun _ _ ↦ rfl).orderly ?_
  intro sd
  refine .bind (Local.act mask _).orderly ?_
  intro acted
  exact .behind_action sd acted

/-- Behind a token the scanner goes on with the kind of item of the state. -/
theorem act_token {mask : UInt16} {op : STMAction} {arg rt : ElementType} {isTok : IsTokenCharMap}
    (hdef : tokenDefs op = some isTok)
    (h : act cfg mask (some (op, arg)) s = .ok (.goesOn rt) s') : rt = arg := by
  have hact : act cfg mask (some (op, arg)) = (do
      let rt ← (if inMask mask arg then parseToken cfg isTok else skipToken cfg isTok)
      tokenEnd cfg arg rt) := by
    rw [XMLScanner.act, hdef]
  rw [hact] at h
  generalize (if inMask mask arg then parseToken cfg isTok else skipToken cfg isTok) = m at h
  cases hm : m s with
  | error e s₁ =>
      rw [bind_error hm] at h
      exact nomatch h
  | ok parsed s₁ =>
      rw [bind_ok hm, tokenEnd] at h
      split_ifs at h
      · cases hprint : print cfg 0 s₁ with
        | error e s₂ =>
            rw [bind_error hprint] at h
            exact nomatch h
        | ok nn s₂ =>
            have hend : (if nn = 0 then Acted.returns .errorOccurred else .goesOn arg) =
              .goesOn rt := by
              rw [bind_ok hprint] at h
              exact (EStateM.Result.ok.inj h).1
            split_ifs at hend
            exact (Acted.goesOn.inj hend).symm
      · exact nomatch (EStateM.Result.ok.inj h).1

/-- A state that falls back without an item falls back to one that does not. -/
theorem falls_back (state ns : STMState) (h : (statemachine state).fallbackState = some ns) :
    ((statemachine state).action = none ∧ falls state = 1 ∧ falls ns = 0) ∨
      ((statemachine state).action = some (.returnToken, .content) ∧ falls ns ≤ 1) := by
  revert ns
  cases state <;> intro ns h <;> cases h <;> decide

theorem falls_le (state : STMState) : falls state ≤ 1 := by
  rw [falls]
  split_ifs <;> decide

/-- A step of the state machine that goes round again: a character is skipped, or the state falls
back. -/
theorem transit_again {sd : Element} {ch : ControlCharacter} {rt : ElementType}
    (h : transit cfg sd ch rt s = .ok none s') :
    rt = .none ∧ (s'.left < s.left ∨
      ∃ ns, sd.fallbackState = some ns ∧ s' = { s with state := ns }) := by
  have hnone {t : XMLScanner} (hret : EStateM.Result.ok (whileNone rt) t =
      (.ok none s' : EStateM.Result Stop XMLScanner _)) : rt = .none ∧ t = s' := by
    obtain ⟨hrt, rfl⟩ := EStateM.Result.ok.inj hret
    rw [whileNone] at hrt
    split_ifs at hrt with hzero
    exact ⟨hzero, rfl⟩
  rw [transit] at h
  cases hnext : sd.next ch with
  | some ns =>
      rw [hnext] at h
      cases hskip : TextScanner.skip cfg.inputCharSet s.src with
      | error e src =>
          have hstep := on_src_error (s := { s with state := ns }) hskip
          exact nomatch ((bind_alter _ _).trans (bind_error hstep)).symm.trans h
      | ok _ src =>
          have hstep := on_src_ok (s := { s with state := ns }) hskip
          obtain ⟨hrt, rfl⟩ := hnone (((bind_alter _ _).trans (bind_ok hstep)).symm.trans h)
          exact ⟨hrt, .inl (TextScanner.skip_left hskip)⟩
  | none =>
      rw [hnext] at h
      cases hback : sd.fallbackState with
      | some ns =>
          rw [hback] at h
          obtain ⟨hrt, rfl⟩ := hnone h
          exact ⟨hrt, .inr ⟨ns, rfl, rfl⟩⟩
      | none =>
          rw [hback] at h
          replace h : (do
              let _ ← print cfg 0
              alter fun s ↦ { s with error := missed sd ch }
              return some .errorOccurred : Scan (Option ElementType)) s = .ok none s' := h
          cases hprint : print cfg 0 s with
          | error e t =>
              rw [bind_error hprint] at h
              exact nomatch h
          | ok nn t =>
              rw [bind_ok hprint] at h
              exact nomatch (EStateM.Result.ok.inj h).1

/-- A pass of `nextItem` that goes round again consumes a character or falls back. -/
theorem item_shrinks (mask : UInt16) : Shrinks passes (itemPass cfg mask) := by
  intro s s' h
  have hlook : itemPass cfg mask s = (do
      let acted ← act cfg mask (statemachine s.state).action
      behindAction cfg (statemachine s.state) acted) s := rfl
  rw [hlook] at h
  cases hact : act cfg mask (statemachine s.state).action s with
  | error e s₁ =>
      rw [bind_error hact] at h
      exact nomatch h
  | ok acted s₁ =>
      have hfirst := (Local.act mask _).orderly.left_le hact
      rw [bind_ok hact] at h
      cases acted with
      | returns rt => exact nomatch (EStateM.Result.ok.inj h).1
      | goesOn rt =>
          cases hcontrol : onSrc (TextScanner.control cfg.inputCharSet) s₁ with
          | error e s₂ =>
              rw [behindAction, bind_error hcontrol] at h
              exact nomatch h
          | ok ch s₂ =>
              have hsecond := (Local.control _ : Local cfg _).orderly.left_le hcontrol
              rw [behindAction, bind_ok hcontrol] at h
              obtain ⟨rfl, hless | ⟨ns, hback, rfl⟩⟩ := transit_again h
              · have hfalls := falls_le s'.state
                rw [passes, passes]
                omega
              · rcases falls_back _ ns hback with ⟨-, hone, hzero⟩ | ⟨htoken, -⟩
                · show 2 * s₂.left + falls ns < 2 * s.left + falls s.state
                  omega
                · rw [htoken] at hact
                  exact absurd (act_token rfl hact) (by decide)

theorem Local.begin : Local cfg begin := by
  refine .bind (.look fun _ _ ↦ rfl) ?_
  intro id
  refine .ite ⟨fun s ↦ ?_⟩ (.pure _)
  by_cases hroom : 0 + [(0 : Byte)].length ≤ s.outputBuf.length
  · exact
      { extends_input := fun more ↦ .of_ok (write_ok (s := { s with outputSize := 0 }) hroom)
          (write_ok (s := { feed s more with outputSize := 0 }) hroom)
        shortens := .of_ok (write_ok (s := { s with outputSize := 0 }) hroom) (Nat.le_refl _)
        fits := fun _ hfits ↦ .of_ok (write_ok (s := { s with outputSize := 0 }) hroom)
          (Fits.stored (s := { s with outputSize := 0 })
            ⟨hfits.length_eq, UInt32.zero_le, hfits.some_room⟩ hroom)
        stays := .of_ok (write_ok (s := { s with outputSize := 0 }) hroom) rfl }
  · exact
      { extends_input := fun more ↦ .of_error (write_wild (s := { s with outputSize := 0 }) hroom)
          fun _ ↦ write_wild (s := { feed s more with outputSize := 0 }) hroom
        shortens := .of_error (write_wild (s := { s with outputSize := 0 }) hroom) trivial
        fits := by
          intro _ hfits
          have hsome := UInt32.lt_iff_toNat_lt.mp hfits.some_room
          rw [← hfits.length_eq] at hsome
          exact absurd hsome hroom
        stays := .of_error (write_wild (s := { s with outputSize := 0 }) hroom) rfl }

theorem Orderly.next_item (mask : UInt16) : Orderly cfg (nextItem cfg mask) :=
  .bind Local.begin.orderly fun _ ↦ .loop (item_shrinks mask) (.item_pass mask)

end XMLScanner

end Smerp.Textwolf
