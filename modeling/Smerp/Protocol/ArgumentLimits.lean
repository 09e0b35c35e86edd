import Smerp.Protocol.ArgumentHistory

/-!
# What does not fit into the argument buffer

Behind the 16th argument no further one is opened, but the characters are stored all the same, and
so are the zeros between them: the 16th argument read as a C string ends at the first of these
(`surplus_kept_iff`). A full content buffer drops characters and zeros alike, and what it keeps of
an argument is a front of it (`full_buffer_truncates`).
-/

namespace Smerp.Protocol

open Lib CArgBuffer

/-! ## More than sixteen arguments -/

/-- The first 15 arguments are there, and the 16th one shows its characters and those of all later
arguments in this order. -/
def KeepsSurplus (a : CArgBuffer StdString) (args : List (List Byte)) : Prop :=
  a.size = 16 ∧ (∀ i < 15, a.get i = args[i]?.map cText) ∧
    ∃ shown, a.get 15 = some shown ∧ (args.drop 15).flatten.Sublist shown

/-- A C string shows more characters than those of its argument only if there are none. -/
theorem surplus_shown_iff (arg : List Byte) (later : List (List Byte)) :
    (arg :: later).flatten.Sublist (cText arg) ↔
      (0 : Byte) ∉ arg ∧ ∀ other ∈ later, other = [] := by
  have hfront : cText arg <+: arg := List.takeWhile_prefix _
  constructor
  · intro hsub
    have hlen := hsub.length_le
    rw [List.flatten_cons, List.length_append] at hlen
    have hle := hfront.length_le
    have hnone : later.flatten = [] := List.length_eq_zero_iff.mp (by omega)
    have hall : cText arg = arg := hfront.eq_of_length (by omega)
    refine ⟨?_, List.flatten_eq_nil_iff.mp hnone⟩
    intro hzero
    have hpass := List.takeWhile_eq_self_iff.mp hall 0 hzero
    exact absurd hpass (by decide)
  · rintro ⟨hnonzero, hempty⟩
    rw [List.flatten_cons, List.flatten_eq_nil_iff.mpr hempty, List.append_nil,
      c_text_of_nonzero hnonzero]

/-- What the 16th argument shows has the surplus arguments in it: where it starts in reach of a
32-bit offset, there is nothing to show, that is all of them are empty and the 16th argument itself
has no zero inside; otherwise they stand at the truncated offset by chance. -/
def SurplusShown (args : List (List Byte)) : Prop :=
  ∀ start, (starts 0 args)[15]? = some start →
    if start < 2 ^ 32 then
      (∀ last, args[15]? = some last → (0 : Byte) ∉ last) ∧ ∀ arg ∈ args.drop 16, arg = []
    else (args.drop 15).flatten.Sublist (cText ((terminated args).drop (start % 2 ^ 32)))

/-- The text at the truncated offset of the 16th argument. -/
theorem surplus_shown_text {args : List (List Byte)} {start : Nat}
    (hstart : (starts 0 args)[15]? = some start) :
    (args.drop 15).flatten.Sublist (cText ((terminated args).drop (start % 2 ^ 32))) ↔
      SurplusShown args := by
  have hunique (other : Nat) (h : (starts 0 args)[15]? = some other) : start = other :=
    Option.some.inj (hstart.symm.trans h)
  by_cases hlow : start < 2 ^ 32
  · obtain ⟨last, hlast⟩ := arg_of_start hstart
    have hread := read_start_text args [] 15
    rw [List.length_nil, hstart, hlast, Option.map_some, Option.map_some, List.nil_append] at hread
    have hlt := (List.getElem?_eq_some_iff.mp hlast).1
    have hdrop : args.drop 15 = last :: args.drop 16 := by
      rw [List.drop_eq_getElem_cons hlt, (List.getElem?_eq_some_iff.mp hlast).2]
    rw [Nat.mod_eq_of_lt hlow, Option.some.inj hread, hdrop, surplus_shown_iff]
    constructor
    · rintro ⟨hnonzero, hempty⟩ other hother
      obtain rfl := hunique other hother
      rw [if_pos hlow]
      exact ⟨fun arg harg ↦ Option.some.inj (hlast.symm.trans harg) ▸ hnonzero, hempty⟩
    · intro h
      have hshown := h start hstart
      rw [if_pos hlow] at hshown
      exact ⟨hshown.1 last hlast, hshown.2⟩
  · constructor
    · intro hsub other hother
      obtain rfl := hunique other hother
      rwa [if_neg hlow]
    · intro h
      have hshown := h start hstart
      rwa [if_neg hlow] at hshown

/-- **Surplus arguments are lost**: the arguments in front of the 16th one are right exactly if they
are in reach, and the 16th one shows those behind it exactly if there is nothing to show. -/
theorem surplus_kept_iff (line : List Byte) (args : List (List Byte)) (hline : Line line args)
    (hmany : maxNofArguments < args.length) :
    KeepsSurplus ((CArgBuffer.new (⟨[]⟩ : StdString)).feed line) args ↔
      (∀ i < 15, InReach args i) ∧ SurplusShown args := by
  have hrep := (follows_string.feed line).represents
  obtain rfl : args = (Scanner.new.feed line).args := (line_iff line args).mp hline
  have hlen : 16 < (Scanner.new.feed line).args.length := hmany
  obtain ⟨start, hstart⟩ := start_of_lt (show 15 < (Scanner.new.feed line).args.length by omega)
  have hshown := hrep.get_truncated (by decide) hstart
  have hsize : ((CArgBuffer.new (⟨[]⟩ : StdString)).feed line).size = 16 := by
    rw [hrep.size_eq, Nat.min_eq_left hmany.le]
    rfl
  have hfirst (i : Nat) (hi : i < 15) := hrep.get_iff (i := i) (by rw [maxNofArguments]; omega)
    (by omega)
  rw [← surplus_shown_text hstart]
  constructor
  · rintro ⟨-, hget, shown, hlast, hsub⟩
    obtain rfl := Option.some.inj (hshown.symm.trans hlast)
    exact ⟨fun i hi ↦ (hfirst i hi).mp (hget i hi), hsub⟩
  · rintro ⟨hreach, hsub⟩
    exact ⟨hsize, fun i hi ↦ (hfirst i hi).mpr (hreach i hi), _, hshown, hsub⟩

/-- Seventeen arguments, the last one empty. -/
theorem surplus_kept_iff_empty :
    KeepsSurplus
      ((CArgBuffer.new (⟨[]⟩ : StdString)).feed (text "a b c d e f g h i j k l m n o p ''"))
      (Scanner.new.feed (text "a b c d e f g h i j k l m n o p ''")).args ↔
      (∀ i < 15, InReach (Scanner.new.feed (text "a b c d e f g h i j k l m n o p ''")).args i) ∧
      SurplusShown (Scanner.new.feed (text "a b c d e f g h i j k l m n o p ''")).args :=
  surplus_kept_iff _ _ ((line_iff _ _).mpr rfl) (by decide +kernel)

/-- **A 17th argument is not appended to the 16th one**, which shows `p` only. -/
theorem not_surplus_kept : ¬ ∀ line args, Line line args → maxNofArguments < args.length →
    KeepsSurplus ((CArgBuffer.new (⟨[]⟩ : StdString)).feed line) args := by
  intro h
  obtain ⟨-, -, shown, hget, hsub⟩ := h (text "a b c d e f g h i j k l m n o p q") _
    ((line_iff _ _).mpr rfl) (by decide +kernel)
  have hshown : ((CArgBuffer.new (⟨[]⟩ : StdString)).feed
      (text "a b c d e f g h i j k l m n o p q")).get 15 = some (text "p") := by decide +kernel
  obtain rfl : text "p" = shown := Option.some.inj (hshown.symm.trans hget)
  have hlen := hsub.length_le
  revert hlen
  decide +kernel

/-! ## A full content buffer -/

/-- The string of an argument starts behind the strings of the arguments in front of it. -/
theorem starts_apart {offset : Nat} {args : List (List Byte)} {i j first second : Nat}
    {arg : List Byte} (hij : i < j) (hfirst : (starts offset args)[i]? = some first)
    (hsecond : (starts offset args)[j]? = some second) (harg : args[i]? = some arg) :
    first + arg.length < second := by
  induction args generalizing offset i j with
  | nil => cases harg
  | cons head rest ih =>
      cases j with
      | zero => exact absurd hij (Nat.not_lt_zero _)
      | succ j =>
          cases i with
          | zero =>
              obtain rfl : offset = first := Option.some.inj hfirst
              obtain rfl : head = arg := Option.some.inj harg
              have hj : j < rest.length := by
                have hlt := (List.getElem?_eq_some_iff.mp hsecond).1
                rwa [starts, List.length_cons, starts_length, Nat.add_lt_add_iff_right] at hlt
              have hnext : (starts (offset + head.length + 1) rest)[j]? = some second := hsecond
              have hbehind := (starts_bounds hnext (List.getElem?_eq_getElem hj)).1
              omega
          | succ i => exact ih (Nat.lt_of_succ_lt_succ hij) hfirst hsecond harg

/-- A buffer of fixed size keeps what has room, and an argument that is opened in a full buffer
starts at its end. -/
def Buffer.storage {SIZE : Nat} (hsize : SIZE < 2 ^ 32) : Storage (Buffer SIZE) where
  keep chars := chars.take SIZE
  offset start := min SIZE start
  keep_push _ _ ch h := Buffer.content_push_take h ch
  offset_eq chars := by
    rw [List.length_take]
    exact Nat.mod_eq_of_lt ((Nat.min_le_left _ _).trans_lt hsize)
  offset_le chars start h := by
    rw [List.length_take]
    omega

/-- Cutting a text leaves a front of what a C string shows of it, inside of what is left. -/
theorem c_text_cut (chars : List Byte) (SIZE offset : Nat) :
    cText ((chars.take SIZE).drop (min SIZE offset)) <+: cText (chars.drop offset) ∧
      min SIZE offset + (cText ((chars.take SIZE).drop (min SIZE offset))).length ≤ SIZE := by
  have hfront : cText ((chars.take SIZE).drop (min SIZE offset)) <+:
      (chars.take SIZE).drop (min SIZE offset) := List.takeWhile_prefix _
  have hlen := hfront.length_le
  rw [List.length_drop, List.length_take] at hlen
  refine ⟨?_, by omega⟩
  by_cases hin : offset ≤ SIZE
  · rw [Nat.min_eq_right hin, List.drop_take, cText, ← List.take_takeWhile]
    exact List.take_prefix _ _
  · have hnone : cText ((chars.take SIZE).drop (min SIZE offset)) = [] :=
      List.length_eq_zero_iff.mp (by omega)
    rw [hnone]
    exact List.nil_prefix

/-- What the arguments show of those of a buffer without bounds: there are as many, each one shows
a front of what it shows there, and the characters that it shows end where the next one starts. -/
structure Truncates {SIZE : Nat} (a : CArgBuffer (Buffer SIZE)) (b : CArgBuffer StdString) :
    Prop where
  size : a.size = b.size
  shows : ∀ i shown, a.get i = some shown → ∃ whole, b.get i = some whole ∧ shown <+: whole
  apart : ∀ i j first second shown, i < j → a.buf[i]? = some first → a.buf[j]? = some second →
    a.get i = some shown → first + shown.length ≤ second

/-- A front of the characters shows a front of each argument, wherever the offset of the argument
without bounds is truncated to. -/
theorem shown_front (chars : List Byte) {SIZE : Nat} (hsize : SIZE < 2 ^ 32) (start : Nat) :
    cText ((chars.take SIZE).drop (min SIZE start)) <+: cText (chars.drop (start % 2 ^ 32)) := by
  by_cases hlow : start < 2 ^ 32
  · rw [Nat.mod_eq_of_lt hlow]
    exact (c_text_cut chars SIZE start).1
  · have hend : (chars.take SIZE).drop (min SIZE start) = [] := by
      rw [List.drop_eq_nil_iff, List.length_take]
      omega
    rw [hend]
    exact List.nil_prefix

/-- **A full content buffer only truncates**: as many arguments are opened as without bounds, each
one shows a front of what it shows there, and nothing of another one. -/
theorem full_buffer_truncates {SIZE : Nat} (buffer : Buffer SIZE) (chars : List Byte) :
    Truncates ((CArgBuffer.new buffer.init).feed chars)
      ((CArgBuffer.new (⟨[]⟩ : StdString)).feed chars) := by
  have hempty : ContentBuffer.content buffer.init = (Buffer.storage buffer.size_lt).keep [] :=
    buffer.content_init.trans List.take_nil.symm
  have hfixed := ((follows_new hempty).feed chars).represents
  have hwhole := (follows_string.feed chars).represents
  have hentry {i first : Nat}
      (hfirst : ((CArgBuffer.new buffer.init).feed chars).buf[i]? = some first) :
      i < maxNofArguments ∧ ∃ start, (starts 0 (Scanner.new.feed chars).args)[i]? = some start ∧
        min SIZE start = first := by
    rw [hfixed.buf_get] at hfirst
    split_ifs at hfirst with hi
    · exact ⟨hi, Option.map_eq_some_iff.mp hfirst⟩
  refine ⟨by rw [hfixed.size_eq, hwhole.size_eq], ?_, ?_⟩
  · intro i shown hshown
    obtain ⟨first, hfirst, -⟩ := Option.map_eq_some_iff.mp hshown
    obtain ⟨hi, start, hstart, -⟩ := hentry hfirst
    obtain rfl := Option.some.inj ((hfixed.get_text hi hstart).symm.trans hshown)
    exact ⟨_, hwhole.get_text hi hstart, shown_front _ buffer.size_lt start⟩
  · intro i j first second shown hij hfirst hsecond hshown
    obtain ⟨hi, start, hstart, rfl⟩ := hentry hfirst
    obtain ⟨-, later, hlater, rfl⟩ := hentry hsecond
    obtain rfl := Option.some.inj ((hfixed.get_text hi hstart).symm.trans hshown)
    obtain ⟨arg, harg⟩ := arg_of_start hstart
    obtain ⟨hfront, hend⟩ := c_text_cut (Scanner.new.feed chars).stored SIZE start
    have hbehind := starts_apart hij hstart hlater harg
    have htext : cText ((Scanner.new.feed chars).stored.drop start) = cText arg := by
      have hread := read_start_text (Scanner.new.feed chars).args [] i
      rw [List.length_nil, hstart, harg, Option.map_some, Option.map_some, List.nil_append] at hread
      rw [Scanner.stored_text (Scanner.start_le hstart), Option.some.inj hread]
    have hshorter : (cText ((Scanner.new.feed chars).stored.drop start)).length ≤ arg.length := by
      rw [htext]
      exact (List.takeWhile_prefix _).length_le
    have hle := hfront.length_le
    show min SIZE start + (cText (((Scanner.new.feed chars).stored.take SIZE).drop
      (min SIZE start))).length ≤ min SIZE later
    omega

end Smerp.Protocol
