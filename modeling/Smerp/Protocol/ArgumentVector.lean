import Smerp.Lib.Logs
import Smerp.Lib.Runs
import Smerp.Protocol.ArgumentHistory

/-!
# The argument vector

The table of pointers that `CArgBuffer::argv` hands out. It is filled when its first entry is null,
and `init` sets this entry only. `argv_agrees_iff` says for every history which calls of `argv`
agree with the arguments.
-/

namespace Smerp.Protocol

open Lib

/-- An entry of the table: null, a pointer into the content buffer, or what the memory held before
the buffer was constructed. -/
inductive Pointer where
  | null
  | content (offset : Nat)
  | wild (address : Nat)
  deriving DecidableEq, Repr

/-- A character opens no argument, or one for which there is room. -/
theorem CArgBuffer.push_back_opens {β : Type} [ContentBuffer β] (a : CArgBuffer β) (ch : Byte) :
    (a.pushBack ch).buf = a.buf ∨ a.buf.length < maxNofArguments ∧
      (a.pushBack ch).buf = a.buf ++ [ContentBuffer.size a.content % 2 ^ 32] := by
  by_cases hstate : a.state = .empty
  · rcases push_back_empty hstate ch with ⟨-, hsame⟩ | hopen
    · exact .inl (by rw [hsame])
    · rw [hopen, openArg]
      split_ifs with hroom
      · exact .inr ⟨hroom, rfl⟩
      · exact .inl rfl
  · exact .inl (push_back_buf hstate ch)

/-- No more than `Size` arguments are opened. -/
theorem CArgBuffer.push_back_le {β : Type} [ContentBuffer β] {a : CArgBuffer β}
    (h : a.buf.length ≤ maxNofArguments) (ch : Byte) :
    (a.pushBack ch).buf.length ≤ maxNofArguments := by
  rcases a.push_back_opens ch with hsame | ⟨hroom, hopen⟩
  · rw [hsame]
    exact h
  · rw [hopen, List.length_append]
    exact hroom

/-- `CArgBuffer` over a `Buffer`, with the table `m_sbuf`. -/
structure ArgvBuffer (SIZE : Nat) extends CArgBuffer (Buffer SIZE) where
  sbuf : Vector Pointer maxNofArguments
  buf_le : buf.length ≤ maxNofArguments
  deriving DecidableEq, Repr

namespace ArgvBuffer

variable {SIZE : Nat}

/-- The constructor: the other entries of the table are not initialised. -/
def new (content : Buffer SIZE) (memory : Vector Pointer maxNofArguments) : ArgvBuffer SIZE :=
  { CArgBuffer.new content with
    sbuf := memory.setIfInBounds 0 .null
    buf_le := Nat.zero_le _ }

/-- `init` -/
def init (a : ArgvBuffer SIZE) : ArgvBuffer SIZE :=
  { a.toCArgBuffer.init with
    sbuf := a.sbuf.setIfInBounds 0 .null
    buf_le := Nat.zero_le _ }

/-- `push_back` -/
def pushBack (a : ArgvBuffer SIZE) (ch : Byte) : ArgvBuffer SIZE :=
  { a.toCArgBuffer.pushBack ch with
    sbuf := a.sbuf
    buf_le := CArgBuffer.push_back_le a.buf_le ch }

/-- `operator[]` -/
def pointer (a : ArgvBuffer SIZE) (idx : Nat) : Pointer :=
  match a.buf[idx]? with
  | some offset => .content offset
  | none => .null

/-- `m_sbuf[ii]=entry` -/
def setEntry (a : ArgvBuffer SIZE) (ii : Nat) (entry : Pointer) : ArgvBuffer SIZE :=
  { a with sbuf := a.sbuf.setIfInBounds ii entry }

/-- `m_sbuf[ii]=m_content->c_str()+offset` -/
def setArgument (a : ArgvBuffer SIZE) (ii offset : Nat) : ArgvBuffer SIZE :=
  { a.setEntry ii (.content offset) with content := a.content.cStr }

/-- The loop of `argv` over the offsets from `ii` on, and the index behind the last one. -/
def fill : List Nat → Nat → ArgvBuffer SIZE → Nat × ArgvBuffer SIZE
  | [], ii, a => (ii, a)
  | offset :: rest, ii, a => fill rest (ii + 1) (a.setArgument ii offset)

/-- `argv`: the table that is returned is `sbuf`. -/
def argv (a : ArgvBuffer SIZE) : ArgvBuffer SIZE :=
  if a.sbuf[0]? = some .null then
    let (ii, a) := fill a.buf 0 a
    -- `if (ii<m_pos) m_sbuf[ii]=0;` behind the loop over all `ii<m_pos`
    if ii < a.buf.length then a.setEntry ii .null else a
  else a

/-- The table that `argv` returns agrees with the arguments. -/
def Agrees (a : ArgvBuffer SIZE) : Prop :=
  (∀ i < a.argc, a.argv.sbuf[i]? = some (a.pointer i)) ∧ a.argv.sbuf[a.argc]? = some .null

instance (a : ArgvBuffer SIZE) : Decidable a.Agrees :=
  inferInstanceAs (Decidable ((∀ i < a.argc, _) ∧ _))

/-! ## What a call does to the table -/

/-- An entry behind a store. -/
theorem set_entry_get (a : ArgvBuffer SIZE) {ii : Nat} (hii : ii < maxNofArguments)
    (entry : Pointer) (k : Nat) :
    (a.setEntry ii entry).sbuf[k]? = if ii = k then some entry else a.sbuf[k]? := by
  show (a.sbuf.setIfInBounds ii entry)[k]? = _
  rw [Vector.getElem?_setIfInBounds, if_pos hii]

/-- The loop writes as many entries as there are offsets, and leaves the arguments alone. -/
theorem fill_spec (offsets : List Nat) (ii : Nat) (a : ArgvBuffer SIZE)
    (hroom : ii + offsets.length ≤ maxNofArguments) :
    (fill offsets ii a).1 = ii + offsets.length ∧ (fill offsets ii a).2.buf = a.buf ∧
      ∀ k, (fill offsets ii a).2.sbuf[k]? =
        if ii ≤ k ∧ k < ii + offsets.length then offsets[k - ii]?.map .content else a.sbuf[k]? := by
  induction offsets generalizing ii a with
  | nil =>
      refine ⟨rfl, rfl, ?_⟩
      intro k
      rw [List.length_nil, if_neg (by omega)]
      rfl
  | cons offset rest ih =>
      rw [List.length_cons] at hroom
      obtain ⟨hindex, hbuf, hentry⟩ := ih (ii + 1) (a.setArgument ii offset) (by omega)
      refine ⟨by rw [fill, hindex, List.length_cons]; omega, hbuf, ?_⟩
      intro k
      have hset : (a.setArgument ii offset).sbuf[k]? =
          if ii = k then some (.content offset) else a.sbuf[k]? :=
        a.set_entry_get (by omega) _ k
      rw [fill, hentry, hset, List.length_cons]
      by_cases hfirst : ii = k
      · subst hfirst
        rw [if_neg (by omega), if_pos rfl, if_pos (by omega), Nat.sub_self]
        rfl
      · rw [if_neg hfirst]
        by_cases hin : ii + 1 ≤ k ∧ k < ii + 1 + rest.length
        · rw [if_pos hin, if_pos (by omega), show k - ii = k - (ii + 1) + 1 by omega]
          rfl
        · rw [if_neg hin, if_neg (by omega)]

/-- The loop over all arguments. -/
theorem fill_all (a : ArgvBuffer SIZE) :
    (fill a.buf 0 a).1 = a.buf.length ∧ (fill a.buf 0 a).2.buf = a.buf ∧
      ∀ k, (fill a.buf 0 a).2.sbuf[k]? = if k < a.argc then some (a.pointer k) else a.sbuf[k]? := by
  obtain ⟨hindex, hbuf, hentry⟩ := fill_spec a.buf 0 a (by rw [Nat.zero_add]; exact a.buf_le)
  refine ⟨by rw [hindex, Nat.zero_add], hbuf, ?_⟩
  intro k
  rw [hentry k, CArgBuffer.argc]
  by_cases hin : k < a.buf.length
  · rw [if_pos (by omega), if_pos hin, pointer, Nat.sub_zero, List.getElem?_eq_getElem hin]
    rfl
  · rw [if_neg (by omega), if_neg hin]

/-- Behind the loop nothing is stored. -/
theorem argv_eq_fill {a : ArgvBuffer SIZE} (hnull : a.sbuf[0]? = some .null) :
    a.argv = (fill a.buf 0 a).2 := by
  obtain ⟨hindex, hbuf, -⟩ := a.fill_all
  have hend : ¬ (fill a.buf 0 a).1 < (fill a.buf 0 a).2.buf.length := by
    rw [hindex, hbuf]
    exact Nat.lt_irrefl _
  rw [argv, if_pos hnull]
  exact if_neg hend

/-- A table whose first entry is null is filled, and the entries behind the arguments stay. -/
theorem argv_fills {a : ArgvBuffer SIZE} (hnull : a.sbuf[0]? = some .null) (k : Nat) :
    a.argv.sbuf[k]? = if k < a.argc then some (a.pointer k) else a.sbuf[k]? := by
  rw [argv_eq_fill hnull]
  exact a.fill_all.2.2 k

/-- A table whose first entry is not null is returned as it is. -/
theorem argv_cached {a : ArgvBuffer SIZE} (h : a.sbuf[0]? ≠ some .null) : a.argv = a := by
  rw [argv, if_neg h]

/-- `argv` leaves the arguments alone. -/
theorem argv_buf (a : ArgvBuffer SIZE) : a.argv.buf = a.buf := by
  by_cases hnull : a.sbuf[0]? = some .null
  · rw [argv_eq_fill hnull]
    exact a.fill_all.2.1
  · rw [argv_cached hnull]

/-! ## Histories -/

/-- The operations on the buffer. -/
inductive ArgOp where
  | pushBack (ch : Byte)
  | init
  | argv
  deriving DecidableEq, Repr

/-- An operation. -/
def act (a : ArgvBuffer SIZE) : ArgOp → ArgvBuffer SIZE
  | .pushBack ch => a.pushBack ch
  | .init => a.init
  | .argv => a.argv

/-- The buffer behind a history. -/
def after (a : ArgvBuffer SIZE) (ops : List ArgOp) : ArgvBuffer SIZE := Runs.last act a ops

theorem after_cons (a : ArgvBuffer SIZE) (op : ArgOp) (more : List ArgOp) :
    a.after (op :: more) = (a.act op).after more := rfl

theorem after_append (a : ArgvBuffer SIZE) (front back : List ArgOp) :
    a.after (front ++ back) = (a.after front).after back :=
  List.foldl_append

/-- Characters only add arguments. -/
theorem push_back_extends (a : ArgvBuffer SIZE) (ch : Byte) : a.buf <+: (a.pushBack ch).buf := by
  show a.buf <+: (a.toCArgBuffer.pushBack ch).buf
  rcases a.toCArgBuffer.push_back_opens ch with hsame | ⟨-, hopen⟩
  · exact hsame.symm ▸ List.prefix_refl _
  · exact hopen.symm ▸ List.prefix_append _ _

/-- As long as `init` is not called arguments are only added. -/
theorem act_extends (a : ArgvBuffer SIZE) {op : ArgOp} (hop : op ≠ .init) :
    a.buf <+: (a.act op).buf := by
  cases op with
  | pushBack ch => exact a.push_back_extends ch
  | init => exact absurd rfl hop
  | argv =>
      show a.buf <+: a.argv.buf
      exact a.argv_buf.symm ▸ List.prefix_refl _

/-- Arguments that are there have a pointer, which does not change when some are added. -/
theorem pointer_of_extends {a b : ArgvBuffer SIZE} (h : a.buf <+: b.buf) {i : Nat}
    (hi : i < a.argc) :
    a.pointer i ≠ .null ∧ b.pointer i = a.pointer i := by
  have hi : i < a.buf.length := hi
  obtain ⟨more, hmore⟩ := h
  rw [pointer, pointer, ← hmore, List.getElem?_append_left hi, List.getElem?_eq_getElem hi]
  exact ⟨nofun, rfl⟩

/-- The table entry behind the arguments is never written. -/
theorem argv_end (a : ArgvBuffer SIZE) : a.argv.sbuf[a.argc]? = a.sbuf[a.argc]? := by
  by_cases hnull : a.sbuf[0]? = some .null
  · rw [argv_fills hnull, if_neg (Nat.lt_irrefl _)]
  · rw [argv_cached hnull]

/-- Only the first entry is ever set to null. -/
theorem act_keeps (a : ArgvBuffer SIZE) (op : ArgOp) {k : Nat} (hk : k ≠ 0)
    (h : a.sbuf[k]? ≠ some .null) : (a.act op).sbuf[k]? ≠ some .null := by
  cases op with
  | pushBack ch => exact h
  | init =>
      show (a.setEntry 0 .null).sbuf[k]? ≠ _
      rw [set_entry_get a (by decide), if_neg hk.symm]
      exact h
  | argv =>
      show a.argv.sbuf[k]? ≠ _
      by_cases hnull : a.sbuf[0]? = some .null
      · rw [argv_fills hnull]
        split_ifs with hin
        · rw [ne_eq, Option.some.injEq]
          exact (pointer_of_extends (List.prefix_refl a.buf) hin).1
        · exact h
      · rw [argv_cached hnull]
        exact h

/-- An entry that is not null stays so, but for the first one. -/
theorem after_keeps {a : ArgvBuffer SIZE} {k : Nat} (hk : k ≠ 0) (h : a.sbuf[k]? ≠ some .null)
    (ops : List ArgOp) : (a.after ops).sbuf[k]? ≠ some .null :=
  Runs.last_rule (σ := ArgvBuffer SIZE) (fun a op hnull ↦ act_keeps a op hk hnull) h ops

/-- An entry behind all arguments of the calls so far is as it was. -/
theorem after_untouched {a : ArgvBuffer SIZE} {k : Nat} (hk : k ≠ 0) {ops : List ArgOp}
    (h : ∀ front back, ops = front ++ .argv :: back → (a.after front).argc ≤ k) :
    (a.after ops).sbuf[k]? = a.sbuf[k]? := by
  induction ops generalizing a with
  | nil => rfl
  | cons op more ih =>
      have hmore : ((a.act op).after more).sbuf[k]? = (a.act op).sbuf[k]? :=
        ih fun front back hsplit ↦ h (op :: front) back (by rw [hsplit]; rfl)
      rw [after_cons, hmore]
      cases op with
      | pushBack ch => rfl
      | init => exact (set_entry_get a (by decide) _ k).trans (if_neg hk.symm)
      | argv =>
          have hargc : a.argc ≤ k := h [] more rfl
          show a.argv.sbuf[k]? = _
          by_cases hnull : a.sbuf[0]? = some .null
          · rw [argv_fills hnull, if_neg (Nat.not_lt.mpr hargc)]
          · rw [argv_cached hnull]

/-- A table that is filled is only written by `init`. -/
theorem act_cached {a : ArgvBuffer SIZE} (hfilled : a.sbuf[0]? ≠ some .null) {op : ArgOp}
    (hop : op ≠ .init) : (a.act op).sbuf = a.sbuf := by
  cases op with
  | pushBack ch => rfl
  | init => exact absurd rfl hop
  | argv => exact congrArg ArgvBuffer.sbuf (argv_cached hfilled)

/-- It stays as it is until `init` is called. -/
theorem after_cached {a : ArgvBuffer SIZE} (hfilled : a.sbuf[0]? ≠ some .null) {ops : List ArgOp}
    (hops : .init ∉ ops) : (a.after ops).sbuf = a.sbuf := by
  induction ops generalizing a with
  | nil => rfl
  | cons op more ih =>
      obtain ⟨hop, hmore⟩ := List.ne_and_not_mem_of_not_mem_cons hops
      have hsame := act_cached hfilled (Ne.symm hop)
      rw [after_cons, ih (by rw [hsame]; exact hfilled) hmore, hsame]

/-- The entries of the arguments that the first call since `init` has found. -/
structure FilledBy (start a : ArgvBuffer SIZE) (front : List ArgOp) : Prop where
  pos : 0 < (start.after front).argc
  le : (start.after front).argc ≤ a.argc
  entries : ∀ i < (start.after front).argc, a.sbuf[i]? = some (a.pointer i)

/-- The table is empty, or a call since `init` has filled it. -/
theorem filled_or_null {start : ArgvBuffer SIZE} (hstart : start.sbuf[0]? = some .null)
    (ops : List ArgOp) : (start.after ops).sbuf[0]? = some .null ∨
      ∃ front back, ops = front ++ .argv :: back ∧ .init ∉ back ∧
        FilledBy start (start.after ops) front := by
  induction ops using List.reverseRecOn with
  | nil => exact .inl hstart
  | append_singleton ops op ih =>
      have hafter : start.after (ops ++ [op]) = (start.after ops).act op := after_append _ _ _
      rw [hafter]
      generalize ha : start.after ops = a at ih ⊢
      by_cases hop : op = .init
      · subst hop
        exact .inl ((set_entry_get a (by decide) _ 0).trans (if_pos rfl))
      have hextends := a.act_extends hop
      by_cases hnull : a.sbuf[0]? = some .null
      · cases op with
        | pushBack ch => exact .inl hnull
        | init => exact absurd rfl hop
        | argv =>
            show a.argv.sbuf[0]? = _ ∨ _
            by_cases hnone : a.argc = 0
            · rw [argv_fills hnull, if_neg (by omega)]
              exact .inl hnull
            · refine .inr ⟨ops, [], rfl, nofun, ?_, ?_, ?_⟩
              · rw [ha]
                omega
              · rw [ha]
                exact hextends.length_le
              · rw [ha]
                intro i hi
                show a.argv.sbuf[i]? = some (a.argv.pointer i)
                rw [argv_fills hnull, if_pos hi]
                exact congrArg some (pointer_of_extends hextends hi).2.symm
      · obtain ⟨front, back, rfl, hback, hfilled⟩ := ih.resolve_left hnull
        have hsame : (a.act op).sbuf = a.sbuf := act_cached hnull hop
        refine .inr ⟨front, back ++ [op], by simp, by simpa [hback] using Ne.symm hop, hfilled.pos,
          hfilled.le.trans hextends.length_le, ?_⟩
        intro i hi
        rw [hsame, hfilled.entries i hi,
          (pointer_of_extends hextends (Nat.lt_of_lt_of_le hi hfilled.le)).2]

/-- A call behind a history finds no arguments, or the entry behind them was null from the start and
no earlier call found more arguments, nor fewer since the last `init` unless it found none. -/
def Clean (start : ArgvBuffer SIZE) (memory : Vector Pointer maxNofArguments)
    (front : List ArgOp) : Prop :=
  (start.after front).argc = 0 ∨
    memory[(start.after front).argc]? = some .null ∧
      ∀ earlier back, front = earlier ++ .argv :: back →
        (start.after earlier).argc ≤ (start.after front).argc ∧
          (.init ∉ back → (start.after earlier).argc = 0 ∨
            (start.after earlier).argc = (start.after front).argc)

variable {start : ArgvBuffer SIZE} {memory : Vector Pointer maxNofArguments}

/-- A call that agrees leaves the entries of its arguments filled, and the one behind them null. -/
theorem Agrees.entries {a : ArgvBuffer SIZE} (h : a.Agrees) :
    (∀ i < a.argc, (a.act .argv).sbuf[i]? ≠ some .null) ∧
      (a.act .argv).sbuf[a.argc]? = some .null := by
  refine ⟨?_, h.2⟩
  intro i hi
  show a.argv.sbuf[i]? ≠ _
  rw [h.1 i hi, ne_eq, Option.some.injEq]
  exact (pointer_of_extends (List.prefix_refl _) hi).1

/-- A call that agrees behind calls that agree is clean. -/
theorem clean_of_agrees (hstart : ∀ k ≠ 0, start.sbuf[k]? = memory[k]?) {front : List ArgOp}
    (hagrees : (start.after front).Agrees)
    (hbefore : ∀ earlier back, front = earlier ++ .argv :: back → (start.after earlier).Agrees) :
    Clean start memory front := by
  by_cases hnone : (start.after front).argc = 0
  · exact .inl hnone
  have hnull := hagrees.2
  rw [argv_end] at hnull
  have hless (earlier back : List ArgOp) (hsplit : front = earlier ++ .argv :: back) :
      (start.after earlier).argc ≤ (start.after front).argc := by
    by_contra hmore
    -- the earlier call has filled the entry behind the arguments
    have hentry := (hbefore earlier back hsplit).entries.1 _ (Nat.not_le.mp hmore)
    have hkept := after_keeps hnone hentry back
    rw [← after_cons, ← after_append, ← hsplit] at hkept
    exact hkept hnull
  refine .inr ⟨?_, fun earlier back hsplit ↦ ⟨hless earlier back hsplit, ?_⟩⟩
  · rw [after_untouched hnone hless, hstart _ hnone] at hnull
    exact hnull
  · intro hback
    by_contra hother
    rw [not_or] at hother
    obtain ⟨hsome, hother⟩ := hother
    have hfewer := Nat.lt_of_le_of_ne (hless earlier back hsplit) hother
    -- the table of the earlier call is returned again
    obtain ⟨hfilled, hend⟩ := (hbefore earlier back hsplit).entries
    have hcached := after_cached (hfilled 0 (Nat.pos_of_ne_zero hsome)) hback
    rw [← after_cons, ← after_append, ← hsplit] at hcached
    have hfirst : (start.after front).sbuf[0]? ≠ some .null := by
      rw [hcached]
      exact hfilled 0 (Nat.pos_of_ne_zero hsome)
    have hentry := hagrees.entries.1 _ hfewer
    rw [show (start.after front).act .argv = start.after front from argv_cached hfirst,
      hcached] at hentry
    exact hentry hend

/-- A call that finds no arguments agrees. -/
theorem agrees_of_none (hnull : start.sbuf[0]? = some .null) {front : List ArgOp}
    (hnone : (start.after front).argc = 0) : (start.after front).Agrees := by
  refine ⟨fun i hi ↦ absurd hi (by omega), ?_⟩
  rw [argv_end, hnone]
  rcases filled_or_null hnull front with hempty | ⟨earlier, back, -, -, hfilled⟩
  · exact hempty
  · have hpos := hfilled.pos
    exact absurd hfilled.le (by omega)

/-- A clean call agrees. -/
theorem agrees_of_clean (hstart : ∀ k ≠ 0, start.sbuf[k]? = memory[k]?)
    (hnull : start.sbuf[0]? = some .null) {front : List ArgOp} (h : Clean start memory front) :
    (start.after front).Agrees := by
  by_cases hnone : (start.after front).argc = 0
  · exact agrees_of_none hnull hnone
  obtain ⟨hmemory, hcalls⟩ := h.resolve_left hnone
  have hend : (start.after front).argv.sbuf[(start.after front).argc]? = some .null := by
    rw [argv_end, after_untouched hnone fun earlier back hsplit ↦ (hcalls earlier back hsplit).1,
      hstart _ hnone]
    exact hmemory
  refine ⟨?_, hend⟩
  intro i hi
  rcases filled_or_null hnull front with hempty | ⟨earlier, back, hsplit, hback, hfilled⟩
  · rw [argv_fills hempty, if_pos hi]
  · -- the table is the one of the first call since `init`, which found the same arguments
    have hsame := ((hcalls earlier back hsplit).2 hback).resolve_left hfilled.pos.ne'
    have hfirst := hfilled.entries 0 hfilled.pos
    have hcached : (start.after front).sbuf[0]? ≠ some .null := by
      rw [hfirst, ne_eq, Option.some.injEq]
      exact (pointer_of_extends (List.prefix_refl _) (by omega)).1
    rw [argv_cached hcached]
    exact hfilled.entries i (by omega)

/-- **Which calls of `argv` agree with the arguments.** Those of a history all do exactly if each of
them is clean. -/
theorem argv_agrees_iff (content : Buffer SIZE) (memory : Vector Pointer maxNofArguments)
    (ops : List ArgOp) :
    (∀ front back, ops = front ++ .argv :: back →
      ((new content memory).after front).Agrees) ↔
      ∀ front back, ops = front ++ .argv :: back → Clean (new content memory) memory front := by
  have hstart : ∀ k ≠ 0, (new content memory).sbuf[k]? = memory[k]? := by
    intro k hk
    show (memory.setIfInBounds 0 .null)[k]? = _
    rw [Vector.getElem?_setIfInBounds, if_neg hk.symm]
  have hnull : (new content memory).sbuf[0]? = some .null := by
    show (memory.setIfInBounds 0 .null)[0]? = _
    rw [Vector.getElem?_setIfInBounds, if_pos rfl, if_pos (by decide)]
  constructor
  · intro h front back hsplit
    refine clean_of_agrees hstart (h front back hsplit) ?_
    intro earlier between hearlier
    exact h earlier (between ++ .argv :: back) (by rw [hsplit, hearlier]; simp)
  · intro h front back hsplit
    exact agrees_of_clean hstart hnull (h front back hsplit)

/-- The operations that push the characters of a text. -/
def pushes (literal : String) : List ArgOp := (text literal).map .pushBack

/-- **`argv` does not always agree**: the table of the line `"c"` still has the second argument of
the line `"a b "`. -/
theorem not_argv_agrees : ¬ ∀ (content : Buffer 8) (memory : Vector Pointer maxNofArguments)
    (ops : List ArgOp), (∀ front back, ops = front ++ .argv :: back →
      ((new content memory).after front).argc < maxNofArguments) →
    ∀ front back, ops = front ++ .argv :: back → ((new content memory).after front).Agrees := by
  intro h
  have hfew : History.After (fun front op ↦ op = .argv →
      ((new (.cleared (by decide)) (.replicate _ .null) : ArgvBuffer 8).after front).argc <
        maxNofArguments)
      [] (pushes "a b " ++ [.argv, .init] ++ pushes "c" ++ [.argv]) := by decide
  have hagrees := h (.cleared (by decide)) (.replicate _ .null) _
    (fun front back hsplit ↦ History.after_iff.mp hfew front .argv back hsplit rfl)
    (pushes "a b " ++ [.argv, .init] ++ pushes "c") [] rfl
  revert hagrees
  decide

end ArgvBuffer

end Smerp.Protocol
