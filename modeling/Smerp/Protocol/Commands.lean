import Smerp.Lib.Digits
import Smerp.Protocol.Parser

/-!
# Command recognition

A command parser compares packed names. The packed name of a token is the number whose digits in
base 64 are the letters and digits behind the last other character of the token, modulo `2 ^ 64`.
A token is therefore taken for a command that it does not spell if it agrees with the command in
this lossy reading. `recognised_exactly_iff` says when the reading does no harm.
-/

namespace Smerp.Protocol

open Lib

/-- A letter or a digit. -/
def isAlnum (ch : Byte) : Bool :=
  (48 ≤ ch.toNat && ch.toNat ≤ 57) || (65 ≤ ch.toNat && ch.toNat ≤ 90) ||
    (97 ≤ ch.toNat && ch.toNat ≤ 122)

/-- The six-bit code of a letter or a digit. -/
def sixBitCode (ch : Byte) : Nat :=
  if 97 ≤ ch.toNat then ch.toNat - 97
  else if 65 ≤ ch.toNat then ch.toNat - 65
  else ch.toNat - 48 + 26

/-- The two words are equal if case is ignored. -/
def SameWord (first second : List Byte) : Prop := first.map tolower = second.map tolower

instance (first second : List Byte) : Decidable (SameWord first second) :=
  inferInstanceAs (Decidable (_ = _))

/-- The letters and digits behind the last other character of a token, last one first. -/
def nameRead (token : List Byte) : List Byte := token.reverse.takeWhile isAlnum

/-- The first ten characters, with the letter `'a'` for missing ones and without case. -/
def frontTen (name : List Byte) : List Byte := (name.map tolower ++ text "aaaaaaaaaa").take 10

/-- The packed name of the token is the packed name of the command: the last ten letters or digits
agree, with `'a'` for missing ones, and the character in front of these is lost. -/
def Confusable (token word : List Byte) : Prop :=
  frontTen (nameRead token) = frontTen word.reverse ∧
    ∀ ch, (nameRead token)[10]? = some ch → tolower ch ∈ text "aq6"

instance (token word : List Byte) : Decidable (Confusable token word) :=
  inferInstanceAs (Decidable (_ ∧ ∀ ch, _ = some ch → _))

/-- A command of a table: letters and digits, at most ten of them. -/
def IsCommand (word : List Byte) : Prop := (∀ ch ∈ word, isAlnum ch = true) ∧ word.length ≤ 10

instance (word : List Byte) : Decidable (IsCommand word) :=
  decidable_of_iff (word.all isAlnum = true ∧ word.length ≤ 10)
    (by rw [IsCommand, List.all_eq_true])

/-- The result of `getCommand` is the index of the command that the token spells, or `-1`. -/
def RecognisedExactly (words : List (List Byte)) (token : List Byte)
    (result : Except Fault (Int × Nat × CmdBuffer)) : Prop :=
  ∃ index src buf, result = .ok (index, src, buf) ∧
    (∀ (i : Nat) (word : List Byte), words[i]? = some word → (index = i ↔ SameWord token word)) ∧
    ((∀ word ∈ words, ¬ SameWord token word) → index = -1)

/-- A command that comes first in the table among those the token is confused with is the one that
the token spells. -/
def NothingConfused (words : List (List Byte)) (token : List Byte) : Prop :=
  ∀ (j : Nat) (word : List Byte), words[j]? = some word → Confusable token word →
    SameWord token word ∨ ∃ i < j, ∃ earlier, words[i]? = some earlier ∧ SameWord token earlier

/-! ## Packed names -/

theorem six_bit_code_lt (ch : Byte) (h : isAlnum ch = true) : sixBitCode ch < 36 := by
  simp only [isAlnum, Bool.or_eq_true, Bool.and_eq_true, decide_eq_true_eq] at h
  unfold sixBitCode
  split
  · omega
  · split <;> omega

/-- `tolower` moves the capital letters. -/
theorem tolower_to_nat (ch : Byte) : (tolower ch).toNat =
    if 65 ≤ ch.toNat ∧ ch.toNat ≤ 90 then ch.toNat + 32 else ch.toNat := by
  unfold tolower
  split
  · rw [UInt8.toNat_add]
    simp only [UInt8.reduceToNat]
    omega
  · rfl

/-- The codes of two letters or digits agree exactly if the characters do, ignoring case. -/
theorem six_bit_code_eq_iff {first second : Byte} (hfirst : isAlnum first = true)
    (hsecond : isAlnum second = true) :
    sixBitCode first = sixBitCode second ↔ tolower first = tolower second := by
  rw [← UInt8.toNat_inj, tolower_to_nat, tolower_to_nat]
  simp only [isAlnum, Bool.or_eq_true, Bool.and_eq_true, decide_eq_true_eq] at hfirst hsecond
  unfold sixBitCode
  split_ifs <;> omega

/-- The codes that vanish modulo 16. -/
theorem six_bit_code_dvd_iff {ch : Byte} (h : isAlnum ch = true) :
    16 ∣ sixBitCode ch ↔ tolower ch ∈ text "aq6" := by
  have htext : text "aq6" = [97, 113, 54] := by decide
  simp only [htext, List.mem_cons, List.not_mem_nil, or_false, ← UInt8.toNat_inj, tolower_to_nat,
    UInt8.reduceToNat]
  simp only [isAlnum, Bool.or_eq_true, Bool.and_eq_true, decide_eq_true_eq] at h
  unfold sixBitCode
  split_ifs <;> omega

/-- Shifting a code into a packed name. -/
theorem shift_in (value digit : UInt64) (h : digit.toNat < 64) :
    ((value <<< 6) ||| digit).toNat = (value.toNat * 64 + digit.toNat) % 2 ^ 64 := by
  have hvalue := value.toNat_lt
  have hshift : (value <<< 6).toNat = (value.toNat % 2 ^ 58) <<< 6 := by
    rw [UInt64.toNat_shiftLeft, Nat.shiftLeft_eq, Nat.shiftLeft_eq]
    simp only [UInt64.reduceToNat, Nat.reduceMod, Nat.reducePow]
    omega
  rw [UInt64.toNat_or, hshift, ← Nat.shiftLeft_add_eq_or_of_lt h, Nat.shiftLeft_eq]
  simp only [Nat.reducePow]
  omega

/-- `push_back` of a letter or a digit shifts its code in. -/
theorem push_back_alnum {buf : CmdBuffer} {ch : Byte} (hpos : buf.pos = 0) (h : isAlnum ch = true) :
    (buf.pushBack ch).pos = 0 ∧
      (buf.pushBack ch).value.toNat = (buf.value.toNat * 64 + sixBitCode ch) % 2 ^ 64 := by
  have hlt := ch.toNat_lt
  have hopen : ¬ buf.pos ≥ CmdBuffer.maxCommandLen := by
    rw [hpos]
    decide
  have hshift (digit : Byte) (hdigit : digit.toNat = sixBitCode ch) :
      ((buf.value <<< 6) ||| digit.toUInt64).toNat =
        (buf.value.toNat * 64 + sixBitCode ch) % 2 ^ 64 := by
    have hcode := six_bit_code_lt ch h
    rw [shift_in _ _ (by rw [UInt8.toNat_toUInt64]; omega), UInt8.toNat_toUInt64, hdigit]
  simp only [isAlnum, Bool.or_eq_true, Bool.and_eq_true, decide_eq_true_eq] at h
  rw [CmdBuffer.pushBack, if_neg hopen]
  split_ifs with hlower hupper hdigit
  · refine ⟨hpos, hshift _ ?_⟩
    simp only [UInt8.toNat_sub, UInt8.reduceToNat, sixBitCode, hlower.1, if_true]
    omega
  · refine ⟨hpos, hshift _ ?_⟩
    simp only [UInt8.toNat_sub, UInt8.reduceToNat, sixBitCode, hupper.1, if_true]
    split <;> omega
  · refine ⟨hpos, hshift _ ?_⟩
    simp only [UInt8.toNat_sub, UInt8.toNat_add, UInt8.reduceToNat, sixBitCode]
    split_ifs <;> omega
  · omega

/-- `push_back` of any other character starts anew. -/
theorem push_back_foreign {buf : CmdBuffer} {ch : Byte} (h : isAlnum ch = false) :
    buf.pushBack ch = CmdBuffer.new := by
  simp only [isAlnum, Bool.or_eq_false_iff, Bool.and_eq_false_iff, decide_eq_false_iff_not] at h
  unfold CmdBuffer.pushBack
  split_ifs with _ hlower hupper hdigit
  · rfl
  · omega
  · omega
  · omega
  · rfl

/-- The packed name of a token. -/
theorem push_all_value (token : List Byte) :
    (CmdBuffer.new.pushAll token).pos = 0 ∧ (CmdBuffer.new.pushAll token).value.toNat =
      Nat.ofDigits 64 ((nameRead token).map sixBitCode) % 2 ^ 64 := by
  induction token using List.reverseRecOn with
  | nil => exact ⟨rfl, rfl⟩
  | append_singleton token ch ih =>
      rw [CmdBuffer.push_all_append, CmdBuffer.push_all_cons, CmdBuffer.push_all_nil]
      cases hch : isAlnum ch with
      | true =>
          obtain ⟨hpos, hvalue⟩ := push_back_alnum ih.1 hch
          have hname : nameRead (token ++ [ch]) = ch :: nameRead token := by
            simp [nameRead, hch]
          refine ⟨hpos, ?_⟩
          rw [hvalue, ih.2, hname, List.map_cons, Nat.ofDigits_cons]
          simp only [Nat.reducePow]
          omega
      | false =>
          have hname : nameRead (token ++ [ch]) = [] := by simp [nameRead, hch]
          rw [push_back_foreign hch, hname]
          exact ⟨rfl, rfl⟩

theorem name_read_alnum (token : List Byte) : ∀ ch ∈ nameRead token, isAlnum ch = true :=
  fun _ hch ↦ List.mem_takeWhile_imp hch

/-- The name of a command is the whole word. -/
theorem name_read_word {word : List Byte} (h : ∀ ch ∈ word, isAlnum ch = true) :
    nameRead word = word.reverse :=
  List.takeWhile_eq_self_iff.mpr fun ch hch ↦ h ch (List.mem_reverse.mp hch)

/-- The packed name `-1` never occurs: its last six bits are no code. -/
theorem push_all_ne_neg_one (token : List Byte) : (CmdBuffer.new.pushAll token).value ≠ -1 := by
  intro h
  have hvalue := (push_all_value token).2
  rw [h] at hvalue
  have hneg : (-1 : UInt64).toNat = 2 ^ 64 - 1 := by decide
  rw [hneg] at hvalue
  have hmem := name_read_alnum token
  cases hname : nameRead token with
  | nil => simp [hname] at hvalue
  | cons ch rest =>
      rw [hname] at hmem
      have hcode := six_bit_code_lt ch (hmem ch (by simp))
      rw [hname, List.map_cons, Nat.ofDigits_cons] at hvalue
      simp only [Nat.reducePow] at hvalue
      omega

/-- The first ten codes agree exactly if the first ten characters do, ignoring case. -/
theorem front_ten_eq_iff {first second : List Byte} (hfirst : ∀ ch ∈ first, isAlnum ch = true)
    (hsecond : ∀ ch ∈ second, isAlnum ch = true) :
    Digits.front 10 (first.map sixBitCode) = Digits.front 10 (second.map sixBitCode) ↔
      frontTen first = frontTen second := by
  have hpad (name : List Byte) : Digits.front 10 (name.map sixBitCode) =
      ((name ++ text "aaaaaaaaaa").take 10).map sixBitCode := by
    have hzeros : List.replicate 10 0 = (text "aaaaaaaaaa").map sixBitCode := by decide
    rw [Digits.front, hzeros, ← List.map_append, List.map_take]
  have hten (name : List Byte) : frontTen name =
      ((name ++ text "aaaaaaaaaa").take 10).map tolower := by
    have hsmall : text "aaaaaaaaaa" = (text "aaaaaaaaaa").map tolower := by decide
    rw [frontTen, hsmall, ← List.map_append, List.map_take, ← hsmall]
  have halnum {name : List Byte} (hname : ∀ ch ∈ name, isAlnum ch = true) :
      ∀ ch ∈ (name ++ text "aaaaaaaaaa").take 10, isAlnum ch = true := by
    intro ch hch
    rcases List.mem_append.mp (List.mem_of_mem_take hch) with hmem | hmem
    · exact hname ch hmem
    · have hall : (text "aaaaaaaaaa").all isAlnum = true := by decide
      exact List.all_eq_true.mp hall ch hmem
  rw [hpad, hpad, hten, hten]
  generalize hx : (first ++ text "aaaaaaaaaa").take 10 = x
  generalize hy : (second ++ text "aaaaaaaaaa").take 10 = y
  have hxs := hx ▸ halnum hfirst
  have hys := hy ▸ halnum hsecond
  clear hx hy
  induction x generalizing y with
  | nil => cases y <;> simp
  | cons ch rest ih =>
      cases y with
      | nil => simp
      | cons ch' rest' =>
          simp only [List.map_cons, List.cons.injEq]
          exact and_congr (six_bit_code_eq_iff (hxs ch (by simp)) (hys ch' (by simp)))
            (ih rest' (fun c hc ↦ hxs c (by simp [hc])) (fun c hc ↦ hys c (by simp [hc])))

/-- Two packed names are equal exactly if the token can be confused with the command. -/
theorem confusable_iff {token word : List Byte} (hword : IsCommand word) :
    (CmdBuffer.new.pushAll word).value = (CmdBuffer.new.pushAll token).value ↔
      Confusable token word := by
  have hcodes {name : List Byte} (h : ∀ ch ∈ name, isAlnum ch = true) :
      ∀ d ∈ name.map sixBitCode, d < 64 := by
    intro d hd
    obtain ⟨ch, hch, rfl⟩ := List.mem_map.mp hd
    have := six_bit_code_lt ch (h ch hch)
    omega
  have hname := name_read_alnum token
  have hletters := name_read_alnum word
  have hwhole := name_read_word hword.1
  have hlen : ((nameRead word).map sixBitCode).length ≤ 10 := by
    simpa [hwhole] using hword.2
  have hsmall : Nat.ofDigits 64 ((nameRead word).map sixBitCode) < 2 ^ 64 := by
    have hlt := Nat.ofDigits_lt_base_pow_length (b := 64) (by omega) (hcodes hletters)
    have hpow : 64 ^ ((nameRead word).map sixBitCode).length ≤ 64 ^ 10 :=
      Nat.pow_le_pow_right (by omega) hlen
    omega
  rw [← UInt64.toNat_inj, (push_all_value word).2, (push_all_value token).2,
    Nat.mod_eq_of_lt hsmall, eq_comm, show 2 ^ 64 = 64 ^ 10 * 16 by decide,
    Digits.of_digits_mod_eq_iff (by omega) (by decide) (hcodes hname) (hcodes hletters) hlen,
    front_ten_eq_iff hname hletters, hwhole, Confusable]
  refine and_congr_right ?_
  intro _
  rw [List.getElem?_map]
  cases hnext : (nameRead token)[10]? with
  | none => simp
  | some ch =>
      simpa using six_bit_code_dvd_iff (hname ch (List.mem_of_getElem? hnext))

/-- A token that spells the command is confused with it. -/
theorem SameWord.confusable {token word : List Byte} (hword : IsCommand word)
    (h : SameWord token word) : Confusable token word := by
  have htoken : ∀ ch ∈ token, isAlnum ch = true := by
    intro ch hch
    have hmem : tolower ch ∈ word.map tolower := h ▸ List.mem_map_of_mem hch
    obtain ⟨other, hother, heq⟩ := List.mem_map.mp hmem
    have halnum := hword.1 other hother
    have hsame := congrArg UInt8.toNat heq
    rw [tolower_to_nat, tolower_to_nat] at hsame
    simp only [isAlnum, Bool.or_eq_true, Bool.and_eq_true, decide_eq_true_eq] at halnum ⊢
    split at hsame <;> split at hsame <;> omega
  have hlen : token.length = word.length := by simpa using congrArg List.length h
  rw [Confusable, name_read_word htoken]
  constructor
  · rw [frontTen, frontTen, List.map_reverse, List.map_reverse, h]
  · intro ch hch
    have hlt := (List.getElem?_eq_some_iff.mp hch).1
    rw [List.length_reverse, hlen] at hlt
    exact absurd hword.2 (by omega)

/-! ## Recognition -/

/-- The first command of the table that the token is confused with. -/
theorem lookup_eq {words : List (List Byte)} {parser : CmdParser} (token : List Byte)
    (hbuild : CmdParser.build words = some parser) (hwords : ∀ word ∈ words, IsCommand word) :
    (parser.lookup (CmdBuffer.new.pushAll token).value = -1 ∧
        ∀ word ∈ words, ¬ Confusable token word) ∨
      ∃ (i : Nat) (word : List Byte), parser.lookup (CmdBuffer.new.pushAll token).value = i ∧
        words[i]? = some word ∧ Confusable token word ∧
        ∀ j < i, ∀ earlier, words[j]? = some earlier → ¬ Confusable token earlier := by
  rw [CmdParser.lookup, if_neg (push_all_ne_neg_one token), CmdParser.build_eq_some_iff.mp hbuild,
    List.findIdx?_map]
  have hfound (word : List Byte) (hword : word ∈ words) :
      (decide ((CmdBuffer.new.pushAll word).value = (CmdBuffer.new.pushAll token).value) = true) ↔
        Confusable token word := by
    rw [decide_eq_true_iff, confusable_iff (hwords word hword)]
  cases hfind : words.findIdx? ((fun value ↦ decide (value = (CmdBuffer.new.pushAll token).value)) ∘
      fun cmd ↦ (CmdBuffer.new.pushAll cmd).value) with
  | none =>
      refine .inl ⟨rfl, ?_⟩
      intro word hword hconf
      have hnot := List.findIdx?_eq_none_iff.mp hfind word hword
      simp [(confusable_iff (hwords word hword)).mpr hconf] at hnot
  | some i =>
      obtain ⟨hlt, hhit, hbefore⟩ := List.findIdx?_eq_some_iff_getElem.mp hfind
      refine .inr ⟨i, words[i], rfl, List.getElem?_eq_getElem hlt,
        (hfound _ (List.getElem_mem hlt)).mp hhit, fun j hj earlier hearlier hconf ↦ ?_⟩
      obtain ⟨hjlt, rfl⟩ := List.getElem?_eq_some_iff.mp hearlier
      exact hbefore j hj ((hfound _ (List.getElem_mem hjlt)).mpr hconf)

/-- **Recognition is exact exactly if the token is not confused with a command**, unless a command
in front of it in the table is the one that the token spells. The token stands in a block behind
any front, and the first other character follows it. -/
theorem recognised_exactly_iff (words : List (List Byte)) (parser : CmdParser)
    (hbuild : CmdParser.build words = some parser) (hwords : ∀ word ∈ words, IsCommand word)
    (hdistinct : words.Pairwise fun first second ↦ ¬ SameWord first second)
    (front token more : List Byte) (other : Byte) (htoken : ∀ ch ∈ token, isTokenChar ch = true)
    (hother : isTokenChar other = false) :
    RecognisedExactly words token (parser.getCommand
      (MemBlock.get ⟨front ++ token ++ other :: more, (front ++ token ++ other :: more).length⟩)
      front.length (front ++ token ++ other :: more).length CmdBuffer.new) ↔
    NothingConfused words token := by
  have hwindow : Window (MemBlock.get ⟨front ++ token ++ other :: more,
      (front ++ token ++ other :: more).length⟩) front.length (token ++ other :: more) :=
    MemBlock.window (by simp [Block.slice]) (by simp)
  have hcommand := get_command_found parser CmdBuffer.new hwindow htoken hother
  rw [show front.length + (token ++ other :: more).length =
    (front ++ token ++ other :: more).length by simp] at hcommand
  rw [hcommand]
  rcases lookup_eq token hbuild hwords with ⟨hnone, hclear⟩ |
    ⟨first, command, hfirst, hcommand, hconf, hbefore⟩
  · -- nothing is confused with the token, so the token is no command either
    rw [hnone]
    have hspell : ∀ word ∈ words, ¬ SameWord token word :=
      fun word hword hsame ↦ hclear word hword (hsame.confusable (hwords word hword))
    refine ⟨?_, fun _ ↦ ⟨-1, _, _, rfl, ?_, fun _ ↦ rfl⟩⟩
    · intro _ j word hword hconf
      exact absurd hconf (hclear word (List.mem_of_getElem? hword))
    · intro i word hword
      exact ⟨fun h ↦ by omega, fun h ↦ absurd h (hspell word (List.mem_of_getElem? hword))⟩
  · rw [hfirst]
    constructor
    · rintro ⟨index, _, _, hresult, hindex, -⟩ j word hword hconfj
      obtain ⟨rfl, -⟩ : (first : Int) = index ∧ _ := by simpa using hresult
      have hspelt := (hindex first command hcommand).mp rfl
      rcases Nat.lt_trichotomy j first with hlt | rfl | hlt
      · exact absurd hconfj (hbefore j hlt word hword)
      · obtain rfl : command = word := by simpa [hcommand] using hword
        exact .inl hspelt
      · exact .inr ⟨first, hlt, command, hcommand, hspelt⟩
    · intro hclear
      have hspelt : SameWord token command := by
        rcases hclear first command hcommand hconf with hsame | ⟨i, hi, earlier, hearlier, hsame⟩
        · exact hsame
        · exact absurd (hsame.confusable (hwords earlier (List.mem_of_getElem? hearlier)))
            (hbefore i hi earlier hearlier)
      refine ⟨first, _, _, rfl, fun i word hword ↦ ⟨?_, ?_⟩, ?_⟩
      · intro heq
        obtain rfl : first = i := by exact_mod_cast heq
        obtain rfl : command = word := by simpa [hcommand] using hword
        exact hspelt
      · intro hsame
        obtain ⟨hilt, rfl⟩ := List.getElem?_eq_some_iff.mp hword
        obtain ⟨hflt, rfl⟩ := List.getElem?_eq_some_iff.mp hcommand
        have hpair := List.pairwise_iff_getElem.mp hdistinct
        rcases Nat.lt_trichotomy first i with hlt | heq | hlt
        · exact absurd (hspelt.symm.trans hsame) (hpair first i hflt hilt hlt)
        · rw [heq]
        · exact absurd (hsame.symm.trans hspelt) (hpair i first hilt hflt hlt)
      · intro hno
        exact absurd hspelt (hno command (List.mem_of_getElem? hcommand))

/-- A table of four commands, the first of them the empty word. -/
def fourWords : List (List Byte) := [text "", text "caps", text "echo", text "quit"]

/-- The equivalence at the token `"ECHO"`, between a line feed and a blank. -/
theorem recognised_exactly_echo :
    RecognisedExactly fourWords (text "ECHO")
      (((CmdParser.build fourWords).get (by decide)).getCommand
        (MemBlock.get ⟨text "\nECHO x", 7⟩) 1 7 CmdBuffer.new) ↔
    NothingConfused fourWords (text "ECHO") :=
  recognised_exactly_iff fourWords _ (Option.some_get _).symm (by decide) (by decide) (text "\n")
    (text "ECHO") (text "x") SPACE (List.all_eq_true.mp (by decide)) (by decide)

/-- The token `"a"` is taken for the empty word. -/
theorem not_recognised_exactly_a :
    ¬ RecognisedExactly fourWords (text "a")
      (((CmdParser.build fourWords).get (by decide)).getCommand
        (MemBlock.get ⟨text "a\n", 2⟩) 0 2 CmdBuffer.new) := by
  rintro ⟨index, src, buf, hresult, hindex, -⟩
  have heq : ((CmdParser.build fourWords).get (by decide)).getCommand
      (MemBlock.get ⟨text "a\n", 2⟩) 0 2 CmdBuffer.new = .ok (0, 1, CmdBuffer.new) := by
    decide
  obtain ⟨rfl, -⟩ : 0 = index ∧ _ := by simpa [heq] using hresult
  exact absurd ((hindex 0 (text "") (by decide)).mp rfl) (by decide)

end Smerp.Protocol
