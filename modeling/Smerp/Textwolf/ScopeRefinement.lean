import Smerp.Textwolf.Scopes
import Smerp.Textwolf.SelectRuns

/-!
# The arrays of a selection and its scopes

The arrays of `XMLPathSelect` are an implementation of nested scopes. While an item is matched, its
tokens stand in the array in front of those that are expanded. Between two items the stack of scopes
says where the tokens of each scope begin and end.
-/

namespace Smerp.Textwolf

open Lib Lib.Interruptible

/-! ## Expansions -/

/-- A mask that is joined with another one still matches what it matched. -/
theorem Mask.matching_join {mask : Mask} {type : ElementType} (h : mask.matching type = true)
    (other : Mask) : (mask.join other).matching type = true := by
  have hne : mask.pos &&& (1 <<< type.index) ≠ 0 := of_decide_eq_true h
  refine decide_eq_true ?_
  show (mask.pos ||| other.pos) &&& (1 <<< type.index) ≠ 0
  have hdistrib : (mask.pos ||| other.pos) &&& (1 <<< type.index) =
      (mask.pos &&& (1 <<< type.index)) ||| (other.pos &&& (1 <<< type.index)) :=
    UInt16.toBitVec_inj.mp BitVec.and_or_distrib_right
  intro hzero
  rw [hdistrib, UInt16.or_eq_zero_iff] at hzero
  exact hne hzero.1

/-- The new tokens are states of the automaton, and what is triggered is an output. -/
structure Expansion.Lawful (states : List State) (x : Expansion) : Prop where
  token_state : ∀ tk ∈ x.tokens, tk.stateidx < states.length
  trigger_ne : ∀ type ∈ x.triggers, type ≠ 0

/-- More is expanded. -/
structure Expansion.Le (states : List State) (x x' : Expansion) : Prop where
  mask_le : ∀ type, x.mask.matching type = true → x'.mask.matching type = true
  tokens_le : x.tokens <+: x'.tokens
  triggers_le : x.triggers <+: x'.triggers
  lawful : x.Lawful states → x'.Lawful states

theorem alternatives_lt (states : List State) (fuel : Nat) (stateidx : Option Nat) :
    ∀ alt ∈ alternatives states fuel stateidx, alt.1 < states.length := by
  induction fuel generalizing stateidx with
  | zero =>
      intro alt halt
      rw [alternatives] at halt
      exact absurd halt List.not_mem_nil
  | succ fuel ih =>
      intro alt halt
      cases stateidx with
      | none =>
          rw [alternatives] at halt
          exact absurd halt List.not_mem_nil
          all_goals exact Nat.succ_ne_zero _
      | some idx =>
          rw [alternatives] at halt
          cases hst : states[idx]? with
          | none =>
              rw [hst] at halt
              exact absurd halt List.not_mem_nil
          | some st =>
              rw [hst] at halt
              rcases List.mem_cons.mp halt with rfl | halt
              · exact (List.getElem?_eq_some_iff.mp hst).1
              · exact ih st.link alt halt

namespace Expansion

variable {states : List State} {x x' x'' : Expansion}

theorem Le.refl (states : List State) (x : Expansion) : x.Le states x :=
  ⟨fun _ h ↦ h, List.prefix_refl _, List.prefix_refl _, id⟩

theorem Le.trans (h : x.Le states x') (h' : x'.Le states x'') : x.Le states x'' :=
  ⟨fun type hx ↦ h'.mask_le type (h.mask_le type hx), h.tokens_le.trans h'.tokens_le,
    h.triggers_le.trans h'.triggers_le, h'.lawful ∘ h.lawful⟩

theorem le_add (x : Expansion) {stateidx : Nat} (hstate : stateidx < states.length) (st : State) :
    x.Le states (x.add stateidx st) := by
  have hmask (type : ElementType) (h : x.mask.matching type = true) :=
    Mask.matching_join h st.core.mask
  have htoken (h : x.Lawful states) (tk : Token) (htk : tk ∈ x.tokens ++ [⟨st.core, stateidx⟩]) :
      tk.stateidx < states.length := by
    rcases List.mem_append.mp htk with htk | hnew
    · exact h.token_state tk htk
    · rw [List.mem_singleton.mp hnew]
      exact hstate
  by_cases htrigger : st.core.mask.isEmpty ∧ st.core.typeidx ≠ 0
  · rw [add, if_pos htrigger]
    refine ⟨hmask, List.prefix_refl _, List.prefix_append _ _, fun h ↦ ⟨h.token_state, ?_⟩⟩
    intro type htype
    rcases List.mem_append.mp htype with htype | hnew
    · exact h.trigger_ne type htype
    · rw [List.mem_singleton.mp hnew]
      exact htrigger.2
  · rw [add, if_neg htrigger]
    exact ⟨hmask, List.prefix_append _ _, List.prefix_refl _, fun h ↦ ⟨htoken h, h.trigger_ne⟩⟩

theorem le_foldl {alts : List (Nat × State)} (h : ∀ alt ∈ alts, alt.1 < states.length)
    (x : Expansion) : x.Le states (alts.foldl (fun x alt ↦ x.add alt.1 alt.2) x) := by
  induction alts generalizing x with
  | nil => exact .refl states x
  | cons alt alts ih =>
      refine (x.le_add (h alt List.mem_cons_self) alt.2).trans (ih ?_ _)
      exact fun other hother ↦ h other (List.mem_cons_of_mem alt hother)

theorem le_expand (states : List State) (x : Expansion) (stateidx : Option Nat) :
    x.Le states (x.expand states stateidx) := le_foldl (alternatives_lt _ _ _) _

end Expansion

section Visits

variable {states : List State} {type : ElementType} {text : List Byte}

theorem le_matched (tk : Token) (x : Expansion) :
    x.Le states (tk.matched states text x).expansion := by
  rw [Token.matched]
  dsimp only
  split_ifs
  · exact x.le_expand states _
  · exact .refl states x

theorem le_visit (tk : Token) (x : Expansion) :
    x.Le states (tk.visit states type text x).expansion := by
  rw [Token.visit]
  dsimp only
  split_ifs
  · exact le_matched tk x
  · exact .refl states x

theorem le_visit_tokens (only : Token → Bool) (tokens : List Token) (x : Expansion) :
    x.Le states (visitTokens states type text only tokens x).expansion := by
  induction tokens generalizing x with
  | nil => exact .refl states x
  | cons tk tokens ih =>
      refine Expansion.Le.trans ?_ (ih _)
      split_ifs
      · exact le_visit tk x
      · exact .refl states x

end Visits

namespace XMLPathSelect

/-- The selection while an item is matched with these tokens. -/
def during (s : XMLPathSelect) (front : List Token) (x : Expansion) (iter : Nat) :
    XMLPathSelect :=
  { s with
    follows := (front ++ x.tokens).findIdxs Following
    triggers := x.triggers
    tokens := front ++ x.tokens
    context := { s.context with
      scope := { s.context.scope with mask := x.mask, followMask := x.followMask }
      scopeIter := iter } }

/-- The arrays have room for what is expanded. -/
structure Room (atm : XMLPathSelectAutomaton) (front : List Token) (x : Expansion) : Prop where
  tokens_le : (front ++ x.tokens).length ≤ atm.maxTokens.toNat
  follows_le : (front ++ x.tokens).countP Following ≤ atm.maxFollows.toNat
  triggers_le : x.triggers.length ≤ atm.maxTriggers.toNat

theorem Room.mono {atm : XMLPathSelectAutomaton} {front : List Token} {x x' : Expansion}
    {states : List State}
    (h : Room atm front x') (hle : x.Le states x') : Room atm front x := by
  have hfront : (front ++ x.tokens) <+: (front ++ x'.tokens) :=
    (List.prefix_append_right_inj front).mpr hle.tokens_le
  exact ⟨Nat.le_trans hfront.length_le h.tokens_le,
    Nat.le_trans (hfront.sublist.countP_le) h.follows_le,
    Nat.le_trans hle.triggers_le.length_le h.triggers_le⟩

/-- What does not change of a token. -/
def shape (tk : Token) : Bool × Nat := (tk.core.follow, tk.stateidx)

/-- Tokens of the same states, which follow in the same places. -/
def Alike (front front' : List Token) : Prop := front.map shape = front'.map shape

theorem Alike.length_eq {front front' : List Token} (h : Alike front front') :
    front.length = front'.length := by
  have hlength := congrArg List.length h
  rwa [List.length_map, List.length_map] at hlength

theorem Alike.append_right {front front' : List Token} (h : Alike front front')
    (back : List Token) : Alike (front ++ back) (front' ++ back) := by
  rw [Alike, List.map_append, List.map_append, h]

theorem Alike.append {front front' back back' : List Token} (h : Alike front front')
    (h' : Alike back back') : Alike (front ++ back) (front' ++ back') := by
  rw [Alike, List.map_append, List.map_append, h, h']

theorem Alike.count_eq {front front' : List Token} (h : Alike front front') :
    front.countP Following = front'.countP Following := by
  have hcount (tokens : List Token) :
      tokens.countP Following = (tokens.map shape).countP Prod.fst :=
    (List.countP_map (p := Prod.fst) (f := shape)).symm
  rw [hcount, hcount, h]

theorem Alike.find_idxs_eq {front front' : List Token} (h : Alike front front') (start : Nat) :
    front.findIdxs Following start = front'.findIdxs Following start := by
  have hidxs (tokens : List Token) : tokens.findIdxs Following start =
      (tokens.map shape).findIdxs Prod.fst start :=
    (List.findIdxs_map (p := Prod.fst) (f := shape)).symm
  rw [hidxs, hidxs, h]

theorem Alike.state_lt {front front' : List Token} (h : Alike front front') {size : Nat}
    (hstate : ∀ tk ∈ front, tk.stateidx < size) : ∀ tk ∈ front', tk.stateidx < size := by
  intro tk htk
  have hmem : shape tk ∈ front.map shape := h ▸ List.mem_map_of_mem htk
  obtain ⟨other, hother, hsame⟩ := List.mem_map.mp hmem
  have hidx : other.stateidx = tk.stateidx := (Prod.mk.inj hsame).2
  exact hidx ▸ hstate other hother

/-- Another token of the same shape. -/
theorem Alike.middle {done rest : List Token} {tk tk' : Token} (h : shape tk' = shape tk) :
    Alike (done ++ tk :: rest) (done ++ tk' :: rest) := by
  rw [Alike, List.map_append, List.map_append, List.map_cons, List.map_cons, h]

theorem shape_core {core : Core} {tk : Token} (hfollow : core.follow = tk.core.follow) :
    shape { tk with core := core } = shape tk := by rw [shape, shape, hfollow]

theorem Room.alike {atm : XMLPathSelectAutomaton} {front front' : List Token} {x : Expansion}
    (h : Room atm front x) (halike : Alike front front') : Room atm front' x where
  tokens_le := (halike.append_right x.tokens).length_eq ▸ h.tokens_le
  follows_le := (halike.append_right x.tokens).count_eq ▸ h.follows_le
  triggers_le := h.triggers_le

theorem count_follow (core : Core) : core.count.1.follow = core.follow := by
  rw [Core.count]
  split_ifs <;> rfl

theorem output_follow (core : Core) : core.output.1.follow = core.follow := by
  by_cases htype : core.typeidx ≠ 0
  · rw [Core.output, if_pos htype]
    exact count_follow core
  · rw [Core.output, if_neg htype]

/-- A token keeps its shape when it is visited. -/
theorem visit_shape (states : List State) (type : ElementType) (text : List Byte) (tk : Token)
    (x : Expansion) : shape (tk.visit states type text x).front = shape tk := by
  have hreject (tk : Token) : shape (tk.reject type) = shape tk := by
    rw [Token.reject]
    split_ifs <;> rfl
  rw [Token.visit]
  dsimp only
  rw [hreject]
  split_ifs
  · rw [Token.matched]
    dsimp only
    rw [shape, shape, output_follow]
    dsimp only
    split_ifs
    · rw [count_follow]
    · rfl
  · rfl

theorem visit_tokens_alike (states : List State) (type : ElementType) (text : List Byte)
    (only : Token → Bool) (tokens : List Token) (x : Expansion) :
    Alike tokens (visitTokens states type text only tokens x).front := by
  induction tokens generalizing x with
  | nil => rfl
  | cons tk tokens ih =>
      have hfirst : shape (if only tk then tk.visit states type text x else ⟨tk, x, []⟩).front =
          shape tk := by
        split_ifs
        · exact visit_shape states type text tk x
        · rfl
      show (tk :: tokens).map shape = (_ :: _).map shape
      rw [List.map_cons, List.map_cons, hfirst]
      exact congrArg _ (ih _)

section Matching

variable {atm : XMLPathSelectAutomaton} {s : XMLPathSelect} {front done rest : List Token}
  {tk tk' : Token} {x : Expansion} {i : Nat}

/-- The positions of the tokens that follow, with another token. -/
theorem find_idxs_push (tokens : List Token) (tk : Token) :
    (tokens ++ [tk]).findIdxs Following =
      tokens.findIdxs Following ++ if tk.core.follow then [tokens.length] else [] := by
  rw [List.findIdxs_append, List.findIdxs_singleton, Nat.zero_add]
  rfl

theorem push_token_during {follows : List Nat}
    (h : Room atm front { x with tokens := x.tokens ++ [tk] })
    (hfollows : follows = (front ++ x.tokens ++ [tk]).findIdxs Following) :
    Member.tokens.pushBack atm.maxTokens tk { during s front x i with follows := follows } =
      .ok ⟨⟩ (during s front { x with tokens := x.tokens ++ [tk] } i) := by
  have hroom : (front ++ (x.tokens ++ [tk])).length ≤ atm.maxTokens.toNat := h.tokens_le
  rw [← List.append_assoc, List.length_append] at hroom
  have hnot : ¬ (front ++ x.tokens).length = atm.maxTokens.toNat := Nat.ne_of_lt hroom
  refine (if_neg hnot).trans ?_
  simp only [during, hfollows, List.append_assoc, Member.tokens]

/-- A state that follows widens the mask of the tokens that follow, and its token is one of them. -/
theorem expand_follow_during {stateidx : Nat} {st : State}
    (hroom : Room atm front { x with tokens := x.tokens ++ [⟨st.core, stateidx⟩] }) :
    expandFollow atm st (during s front x i) = .ok ⟨⟩
      { during s front { x with
          followMask := if st.core.follow then x.followMask.join st.core.mask
            else x.followMask } i with
        follows := (front ++ x.tokens ++ [(⟨st.core, stateidx⟩ : Token)]).findIdxs Following } := by
  rw [expandFollow, find_idxs_push]
  by_cases hfollow : st.core.follow = true
  · have hlength := hroom.follows_le
    dsimp only at hlength
    rw [← List.append_assoc, ← List.length_findIdxs (p := Following) (s := 0), find_idxs_push,
      if_pos hfollow, List.length_append] at hlength
    have hnot : ¬ ((front ++ x.tokens).findIdxs Following).length = atm.maxFollows.toNat :=
      Nat.ne_of_lt hlength
    rw [if_pos hfollow, if_pos hfollow, if_pos hfollow, setScope, bind_alter, bind_look]
    exact if_neg hnot
  · rw [if_neg hfollow, if_neg hfollow, if_neg hfollow, List.append_nil]
    rfl

/-- A state is expanded as it is in a scope. -/
theorem expand_state_during {stateidx : Nat} {st : State}
    (hroom : Room atm front (x.add stateidx st)) :
    expandState atm stateidx st (during s front x i) =
      .ok ⟨⟩ (during s front (x.add stateidx st) i) := by
  rw [expandState, setScope, bind_alter]
  -- The mask is extended first, whether or not the state is triggered.
  let x₁ : Expansion := { x with mask := x.mask.join st.core.mask }
  show (if _ then _ else _ : Select PUnit) (during s front x₁ i) = _
  rw [Expansion.add] at hroom ⊢
  by_cases htrigger : st.core.mask.isEmpty ∧ st.core.typeidx ≠ 0
  · rw [if_pos htrigger] at hroom ⊢
    have hlength := hroom.triggers_le
    dsimp only at hlength
    rw [List.length_append] at hlength
    have hnot : ¬ x.triggers.length = atm.maxTriggers.toNat := Nat.ne_of_lt hlength
    rw [if_pos htrigger]
    exact if_neg hnot
  · rw [if_neg htrigger] at hroom ⊢
    have hroom₁ : Room atm front { x₁ with tokens := x.tokens ++ [⟨st.core, stateidx⟩] } :=
      ⟨hroom.tokens_le, hroom.follows_le, hroom.triggers_le⟩
    have hfollow := expand_follow_during (s := s) (i := i) hroom₁
    rw [if_neg htrigger, bind_ok hfollow]
    exact push_token_during hroom rfl

/-- The chain of a state is expanded as it is in a scope. -/
theorem expand_from_during (hordered : Ordered atm.states) {fuel : Nat} {stateidx : Option Nat}
    (h : ∀ idx, stateidx = some idx → idx < atm.states.length ∧ atm.states.length ≤ idx + fuel)
    (hroom : Room atm front ((alternatives atm.states fuel stateidx).foldl
      (fun x alt ↦ x.add alt.1 alt.2) x)) :
    expandFrom atm fuel stateidx (during s front x i) =
      .ok ⟨⟩ (during s front ((alternatives atm.states fuel stateidx).foldl
        (fun x alt ↦ x.add alt.1 alt.2) x) i) := by
  induction fuel generalizing x stateidx with
  | zero =>
      cases stateidx with
      | none => rfl
      | some idx =>
          have hidx := h idx rfl
          omega
  | succ fuel ih =>
      cases stateidx with
      | none => rfl
      | some idx =>
          obtain ⟨hlt, hle⟩ := h idx rfl
          have hst : atm.states[idx]? = some atm.states[idx] := List.getElem?_eq_getElem hlt
          have halts : alternatives atm.states (fuel + 1) (some idx) =
              (idx, atm.states[idx]) :: alternatives atm.states fuel atm.states[idx].link := by
            rw [alternatives, hst]
          have hstate : stateOf atm idx (during s front x i) =
              .ok atm.states[idx] (during s front x i) := by rw [stateOf, hst]
          rw [halts, List.foldl_cons] at hroom ⊢
          have hfirst := expand_state_during (s := s) (i := i)
            (hroom.mono (Expansion.le_foldl (alternatives_lt atm.states _ _) _))
          rw [expandFrom, bind_ok hstate, bind_ok hfirst]
          refine ih ?_ hroom
          intro link hlink
          obtain ⟨hless, hlast⟩ := (hordered idx _ hst).link_lt link hlink
          exact ⟨hlast, by omega⟩

theorem expand_during (hordered : Ordered atm.states) {stateidx : Option Nat}
    (h : ∀ idx, stateidx = some idx → idx < atm.states.length)
    (hroom : Room atm front (x.expand atm.states stateidx)) :
    expand atm stateidx (during s front x i) =
      .ok ⟨⟩ (during s front (x.expand atm.states stateidx) i) :=
  expand_from_during hordered (fun idx hidx ↦ ⟨h idx hidx, Nat.le_add_left _ _⟩) hroom

/-! ## Tokens -/

/-- The token is where the front part of the tokens ends. -/
theorem token_during :
    Member.tokens.elem done.length (during s (done ++ tk :: rest) x i) =
      .ok tk (during s (done ++ tk :: rest) x i) := by
  refine Member.elem_of ?_
  show (done ++ tk :: rest ++ x.tokens)[done.length]? = some tk
  simp

theorem set_token_during {core : Core} (hfollow : core.follow = tk.core.follow) :
    Member.tokens.setElem done.length { tk with core := core }
        (during s (done ++ tk :: rest) x i) =
      .ok ⟨⟩ (during s (done ++ { tk with core := core } :: rest) x i) := by
  have hlt : done.length < (done ++ tk :: rest ++ x.tokens).length := by simp
  have hset : (done ++ tk :: rest ++ x.tokens).set done.length { tk with core := core } =
      done ++ { tk with core := core } :: rest ++ x.tokens := by simp
  have halike : Alike (done ++ tk :: rest) (done ++ { tk with core := core } :: rest) :=
    .middle (shape_core hfollow)
  have hfollows := (halike.append_right x.tokens).find_idxs_eq 0
  refine (if_pos hlt).trans ?_
  simp only [during, hfollows, Member.tokens, hset]

theorem count_during :
    count done.length (during s (done ++ tk :: rest) x i) =
      .ok tk.core.count.2
        (during s (done ++ { tk with core := tk.core.count.1 } :: rest) x i) := by
  rw [count, bind_ok token_during, bind_ok (set_token_during (count_follow tk.core))]
  rfl

theorem output_during :
    output done.length (during s (done ++ tk :: rest) x i) = .ok tk.core.output.2
      (during s (done ++ { tk with core := tk.core.output.1 } :: rest) x i) := by
  rw [output, bind_ok token_during]
  by_cases htype : tk.core.typeidx ≠ 0
  · rw [if_pos htype, bind_ok count_during, Core.output, if_pos htype]
    rfl
  · rw [if_neg htype, Core.output, if_neg htype]
    rfl

theorem reject_during (type : ElementType) :
    rejectToken done.length type (during s (done ++ tk :: rest) x i) = .ok ⟨⟩
      (during s (done ++ tk.reject type :: rest) x i) := by
  rw [rejectToken, bind_ok token_during]
  by_cases hrejects : tk.core.mask.rejects type = true
  · rw [if_pos hrejects, Token.reject, if_pos hrejects]
    exact set_token_during rfl
  · rw [if_neg hrejects, Token.reject, if_neg hrejects]
    rfl

/-- A key that does not end within the text is compared as far as the text goes. -/
theorem compare_eq {key text : List Byte} (h : ¬ (key <+: text ∧ key ≠ text))
    (s : XMLPathSelect) : compare key text s = .ok (text.isPrefixOf key) s := by
  induction text generalizing key with
  | nil => cases key <;> rfl
  | cons ch' text ih =>
      cases key with
      | nil => exact absurd ⟨List.nil_prefix, (List.cons_ne_nil ch' text).symm⟩ h
      | cons ch key =>
          rw [compare, List.isPrefixOf]
          by_cases hsame : ch = ch'
          · rw [if_pos hsame, hsame, beq_self_eq_true, Bool.true_and]
            refine ih ?_
            rintro ⟨hfront, hne⟩
            refine h ⟨?_, fun heq ↦ hne (List.cons.inj heq).2⟩
            rw [hsame]
            exact (List.prefix_cons_inj ch').mpr hfront
          · rw [if_neg hsame, beq_false_of_ne (Ne.symm hsame), Bool.false_and]
            rfl

theorem match_key_eq {st : State} (hst : st ∈ atm.states) {text : List Byte}
    (hrun : ¬ Overrun atm.states text) (s : XMLPathSelect) :
    matchKey st text s = .ok (st.accepts text) s := by
  rw [matchKey, State.accepts]
  cases hkey : st.key with
  | none => rfl
  | some key => exact compare_eq (fun h ↦ hrun ⟨st, hst, key, hkey, h⟩) s

/-- A token of a state that matches the item. -/
theorem matched_during (hordered : Ordered atm.states) {text : List Byte}
    (hrun : ¬ Overrun atm.states text) (hstate : tk.stateidx < atm.states.length)
    (hroom : Room atm (done ++ tk :: rest) (tk.matched atm.states text x).expansion) :
    ∃ type, (tk.matched atm.states text x).types = nonzero type ∧
      matched atm done.length text (during s (done ++ tk :: rest) x i) =
        .ok type (during s (done ++ (tk.matched atm.states text x).front :: rest)
          (tk.matched atm.states text x).expansion i) := by
  obtain ⟨st, hst⟩ : ∃ st, atm.states[tk.stateidx]? = some st :=
    ⟨_, List.getElem?_eq_getElem hstate⟩
  have hsome : stateOf atm tk.stateidx (during s (done ++ tk :: rest) x i) =
      .ok st (during s (done ++ tk :: rest) x i) := by rw [stateOf, hst]
  have hstart : matched atm done.length text (during s (done ++ tk :: rest) x i) = (do
      if st.accepts text then
        produce atm done.length st
        output done.length
      else output done.length) (during s (done ++ tk :: rest) x i) := by
    rw [matched, bind_ok token_during, bind_ok hsome]
    exact bind_ok (match_key_eq (List.mem_of_getElem? hst) hrun _)
  rw [Token.matched, hst, Option.getD_some] at hroom ⊢
  dsimp only at hroom ⊢
  refine ⟨_, rfl, ?_⟩
  rw [hstart]
  by_cases haccepts : st.accepts text = true
  · rw [if_pos haccepts, if_pos haccepts]
    have hproduce : produce atm done.length st (during s (done ++ tk :: rest) x i) =
        .ok ⟨⟩ (during s (done ++ { tk with core := tk.core.count.1 } :: rest)
          (if st.accepts text ∧ tk.core.count.2 then x.expand atm.states st.next else x) i) := by
      rw [produce, bind_ok count_during]
      -- Only an item within the range of the token leads on.
      by_cases hcounted : tk.core.count.2 = true
      · have hboth : st.accepts text = true ∧ tk.core.count.2 = true := ⟨haccepts, hcounted⟩
        rw [if_pos hboth] at hroom ⊢
        rw [if_pos hcounted]
        exact expand_during hordered
          (fun next hnext ↦ ((hordered _ st hst).next_lt next hnext).2)
          (hroom.alike (.middle (shape_core (count_follow tk.core))))
      · have hnot : ¬ (st.accepts text = true ∧ tk.core.count.2 = true) := fun h ↦ hcounted h.2
        rw [if_neg hnot, if_neg hcounted]
        rfl
    rw [bind_ok hproduce]
    exact output_during
  · have hnot : ¬ (st.accepts text = true ∧ tk.core.count.2 = true) := fun h ↦ haccepts h.1
    rw [if_neg haccepts, if_neg haccepts, if_neg hnot]
    exact output_during

/-- A token is matched as it is visited. -/
theorem match_token_during (hordered : Ordered atm.states) {text : List Byte}
    (hkey : s.context.key = some text) (hrun : ¬ Overrun atm.states text)
    (hstate : tk.stateidx < atm.states.length)
    (hto : done.length < s.context.scope.range.tokenidxTo)
    (hroom : Room atm (done ++ tk :: rest)
      (tk.visit atm.states s.context.type text x).expansion) :
    ∃ type, (tk.visit atm.states s.context.type text x).types = nonzero type ∧
      matchToken atm done.length (during s (done ++ tk :: rest) x i) = .ok type
        (during s (done ++ (tk.visit atm.states s.context.type text x).front :: rest)
          (tk.visit atm.states s.context.type text x).expansion i) := by
  have hstart : matchToken atm done.length (during s (done ++ tk :: rest) x i) = (do
      let rt ← (if tk.core.mask.matching s.context.type then matched atm done.length text
        else return 0)
      rejectToken done.length s.context.type
      return rt) (during s (done ++ tk :: rest) x i) := by
    have hcontext : (during s (done ++ tk :: rest) x i).context.key = some text := hkey
    have hwithin : ¬ (during s (done ++ tk :: rest) x i).context.scope.range.tokenidxTo ≤
        done.length := Nat.not_le.mpr hto
    rw [matchToken, bind_look, hcontext]
    dsimp only
    rw [if_neg hwithin, bind_ok token_during]
    rfl
  rw [hstart]
  rw [Token.visit] at hroom ⊢
  by_cases hmatching : tk.core.mask.matching s.context.type = true
  · rw [if_pos hmatching] at hroom ⊢
    obtain ⟨type, htypes, hmatched⟩ := matched_during (s := s) (i := i) hordered hrun hstate
      hroom
    refine ⟨type, htypes, ?_⟩
    rw [if_pos hmatching]
    exact (bind_ok hmatched).trans ((bind_ok (reject_during s.context.type)).trans rfl)
  · rw [if_neg hmatching] at hroom ⊢
    rw [if_neg hmatching]
    exact ⟨0, rfl, (bind_ok (a := 0) rfl).trans
      ((bind_ok (reject_during s.context.type)).trans rfl)⟩

end Matching

/-! ## Passes -/

/-- The outputs that `fetch` returns one after the other, until the item is done. -/
inductive Fetched (atm : XMLPathSelectAutomaton) :
    XMLPathSelect → List Int → XMLPathSelect → Prop where
  | done {s s' : XMLPathSelect} (hfetch : fetch atm s = .ok 0 s') (hscan : s'.scan = s.scan) :
      Fetched atm s [] s'
  | more {s t s' : XMLPathSelect} {type : Int} {types : List Int}
      (hfetch : fetch atm s = .ok type t) (hne : type ≠ 0) (hscan : t.scan = s.scan)
      (hkey : t.context.key = s.context.key) (hrest : Fetched atm t types s') :
      Fetched atm s (type :: types) s'

section Passes

variable {atm : XMLPathSelectAutomaton} {s t s' : XMLPathSelect} {front done rest own : List Token}
  {tk : Token} {x : Expansion} {i : Nat} {types : List Int}

theorem Fetched.scan_eq (h : Fetched atm s types s') : s'.scan = s.scan := by
  induction h with
  | done _ hscan => exact hscan
  | more _ _ hscan _ _ ih => exact ih.trans hscan

theorem fetch_return (hmatching : s.context.scope.mask.matching s.context.type = true) {type : Int}
    (hpass : fetchPass atm s = .ok (some type) t) : fetch atm s = .ok type t := by
  rw [fetch, bind_look, if_pos hmatching, loopN, bind_ok hpass]
  rfl

theorem fetch_again (hmatching : s.context.scope.mask.matching s.context.type = true)
    (hpass : fetchPass atm s = .ok none t) (hless : candidates s.context = candidates t.context + 1)
    (hmatching' : t.context.scope.mask.matching t.context.type = true) :
    fetch atm s = fetch atm t := by
  have hfirst : fetch atm s = loopN .endless (fetchPass atm) (candidates s.context) t := by
    rw [fetch, bind_look, if_pos hmatching, loopN, bind_ok hpass]
  have hsecond : fetch atm t = loopN .endless (fetchPass atm) (candidates t.context + 1) t := by
    rw [fetch, bind_look, if_pos hmatching']
  rw [hfirst, hsecond, hless]

/-- A pass without an output. -/
theorem Fetched.again (hmatching : s.context.scope.mask.matching s.context.type = true)
    (hpass : fetchPass atm s = .ok none t) (hless : candidates s.context = candidates t.context + 1)
    (hmatching' : t.context.scope.mask.matching t.context.type = true)
    (hscan : t.scan = s.scan) (hkey : t.context.key = s.context.key)
    (h : Fetched atm t types s') : Fetched atm s types s' := by
  have hfetch := fetch_again hmatching hpass hless hmatching'
  cases h with
  | done hlast hscan' => exact .done (hfetch.trans hlast) (hscan'.trans hscan)
  | more hnext hne hscan' hkey' hrest =>
      exact .more (hfetch.trans hnext) hne (hscan'.trans hscan) (hkey'.trans hkey) hrest

/-- A visit of a token, with or without an output. -/
theorem Fetched.visit {tokenidx : Nat} {front' : List Token} {x' : Expansion} {type : Int}
    (hmatching : x.mask.matching s.context.type = true)
    (hmatching' : x'.mask.matching s.context.type = true)
    (hpass : fetchPass atm (during s front x i) = visit atm tokenidx (during s front x i))
    (hvisit : matchToken atm tokenidx (during s front x i) = .ok type (during s front' x' i))
    (hless : i < s.context.scope.range.tokenidxTo + s.context.scope.range.followidx)
    (h : Fetched atm (during s front' x' (i + 1)) types s') :
    Fetched atm (during s front x i) (nonzero type ++ types) s' := by
  have hstep : fetchPass atm (during s front x i) =
      .ok (whileZero type) (during s front' x' (i + 1)) :=
    hpass.trans ((bind_ok hvisit).trans rfl)
  by_cases htype : type = 0
  · rw [whileZero, if_pos htype] at hstep
    rw [nonzero, if_pos htype]
    refine Fetched.again hmatching hstep ?_ hmatching' rfl rfl h
    show s.context.scope.range.tokenidxTo + s.context.scope.range.followidx - i =
      s.context.scope.range.tokenidxTo + s.context.scope.range.followidx - (i + 1) + 1
    omega
  · rw [whileZero, if_neg htype] at hstep
    rw [nonzero, if_neg htype]
    exact .more (fetch_return hmatching hstep) htype rfl rfl h

/-- The tokens of the scope are visited one after the other. -/
theorem fetched_own (hordered : Ordered atm.states) {text : List Byte}
    (hkey : s.context.key = some text) (hrun : ¬ Overrun atm.states text)
    (hstate : ∀ tk ∈ own, tk.stateidx < atm.states.length)
    (hto : s.context.scope.range.tokenidxTo = (done ++ own).length)
    (hmatching : x.mask.matching s.context.type = true)
    (hroom : Room atm (done ++ own)
      (visitTokens atm.states s.context.type text (fun _ ↦ true) own x).expansion)
    (h : Fetched atm (during s
        (done ++ (visitTokens atm.states s.context.type text (fun _ ↦ true) own x).front)
        (visitTokens atm.states s.context.type text (fun _ ↦ true) own x).expansion
        (done ++ own).length) types s') :
    Fetched atm (during s (done ++ own) x done.length)
      ((visitTokens atm.states s.context.type text (fun _ ↦ true) own x).types ++ types) s' := by
  -- What is visited moves from the tokens ahead to those behind, and the position counts them.
  induction own generalizing done x with
  | nil =>
      rw [List.append_nil]
      have hend : Fetched atm (during s (done ++ []) x (done ++ []).length) types s' := h
      rw [List.append_nil] at hend
      exact hend
  | cons tk own ih =>
      let first := tk.visit atm.states s.context.type text x
      have hcons : visitTokens atm.states s.context.type text (fun _ ↦ true) (tk :: own) x =
          ⟨first.front :: (visitTokens atm.states s.context.type text (fun _ ↦ true) own
              first.expansion).front,
            (visitTokens atm.states s.context.type text (fun _ ↦ true) own
              first.expansion).expansion,
            first.types ++ (visitTokens atm.states s.context.type text (fun _ ↦ true) own
              first.expansion).types⟩ := rfl
      rw [hcons] at hroom h ⊢
      dsimp only at hroom h ⊢
      have halike : Alike (done ++ tk :: own) (done ++ first.front :: own) :=
        .middle (visit_shape _ _ _ tk x)
      have hlast := hroom.mono (le_visit_tokens (fun _ ↦ true) own first.expansion)
      have hfirst : x.Le atm.states first.expansion := le_visit tk x
      have hlength : (done ++ tk :: own).length = done.length + 1 + own.length := by
        simp
        omega
      obtain ⟨type, htypes, hvisit⟩ := match_token_during (s := s) (i := done.length) hordered hkey
        hrun (hstate tk List.mem_cons_self) (by omega) hlast
      rw [htypes, List.append_assoc]
      refine Fetched.visit hmatching (hfirst.mask_le _ hmatching) ?_ hvisit (by omega) ?_
      · let t := during s (done ++ tk :: own) x done.length
        have hscope : t.context.scopeIter < t.context.scope.range.tokenidxTo := by
          show done.length < s.context.scope.range.tokenidxTo
          omega
        rw [fetchPass, bind_look, if_pos hscope]
        rfl
      · have hdone : (done ++ [first.front]).length = done.length + 1 := by simp
        rw [List.append_cons done first.front, ← hdone]
        refine ih (fun other hother ↦ hstate other (List.mem_cons_of_mem tk hother)) ?_
          (hfirst.mask_le _ hmatching) ?_ ?_
        · rw [← List.append_cons, hto, halike.length_eq]
        · rw [← List.append_cons]
          exact hroom.alike halike
        · rw [← List.append_cons, ← List.append_cons, ← halike.length_eq]
          exact h

/-- Behind the tokens of the scope the next token that follows is visited. -/
theorem pass_follow (htk : Following tk = true)
    (hrange : s.context.scope.range = ⟨(done ++ tk :: rest).length,
      (done ++ tk :: rest ++ own).length, (done ++ tk :: rest ++ own).countP Following⟩)
    (hi : i = (done ++ tk :: rest ++ own).length + done.countP Following) :
    fetchPass atm (during s (done ++ tk :: rest ++ own) x i) =
      visit atm done.length (during s (done ++ tk :: rest ++ own) x i) := by
  let t := during s (done ++ tk :: rest ++ own) x i
  have hbehind : ¬ t.context.scopeIter < t.context.scope.range.tokenidxTo := by
    show ¬ i < s.context.scope.range.tokenidxTo
    rw [hrange]
    dsimp only
    omega
  have hindex : t.context.scopeIter - t.context.scope.range.tokenidxTo = done.countP Following := by
    show i - s.context.scope.range.tokenidxTo = _
    rw [hrange, hi]
    exact Nat.add_sub_cancel_left _ _
  have hcount : done.countP Following < t.context.scope.range.followidx := by
    show _ < s.context.scope.range.followidx
    rw [hrange]
    dsimp only
    rw [List.append_assoc, List.countP_append, List.cons_append, List.countP_cons_of_pos htk]
    omega
  have hfound : t.follows[done.countP Following]? = some done.length := by
    show ((done ++ tk :: rest ++ own ++ x.tokens).findIdxs Following)[_]? = _
    rw [List.append_assoc, List.append_assoc, List.cons_append, List.findIdxs_append,
      List.findIdxs_cons, if_pos htk, List.getElem?_append_right (by simp)]
    simp
  have hless : done.length < t.context.scope.range.tokenidxFrom := by
    show _ < s.context.scope.range.tokenidxFrom
    rw [hrange]
    simp
  have hnext : nextFollow t.context t = .ok (some done.length) t := by
    rw [nextFollow, hindex, if_pos hcount]
    refine (bind_ok (Member.elem_of hfound)).trans ?_
    rw [if_pos hless]
    rfl
  rw [fetchPass, bind_look, if_neg hbehind, bind_ok hnext]

/-- Behind all tokens that follow, the outputs are fetched that are triggered. -/
theorem pass_trigger
    (hrange : s.context.scope.range = ⟨rest.length, (rest ++ own).length,
      (rest ++ own).countP Following⟩)
    (hi : i = (rest ++ own).length + rest.countP Following) :
    fetchPass atm (during s (rest ++ own) x i) = nextTrigger (during s (rest ++ own) x i) := by
  let t := during s (rest ++ own) x i
  have hbehind : ¬ t.context.scopeIter < t.context.scope.range.tokenidxTo := by
    show ¬ i < s.context.scope.range.tokenidxTo
    rw [hrange]
    dsimp only
    omega
  have hindex : t.context.scopeIter - t.context.scope.range.tokenidxTo = rest.countP Following := by
    show i - s.context.scope.range.tokenidxTo = _
    rw [hrange, hi]
    exact Nat.add_sub_cancel_left _ _
  have hnext : nextFollow t.context t = .ok none t := by
    rw [nextFollow, hindex]
    by_cases hcount : rest.countP Following < t.context.scope.range.followidx
    · rw [if_pos hcount]
      have hsize : rest.countP Following < t.follows.length := by
        have hcount' : rest.countP Following < (rest ++ own).countP Following := by
          have hless : rest.countP Following < s.context.scope.range.followidx := hcount
          rw [hrange] at hless
          exact hless
        show _ < ((rest ++ own ++ x.tokens).findIdxs Following).length
        rw [List.length_findIdxs, List.countP_append]
        omega
      -- What stands behind the tokens that follow is a token of the scope, or a new one.
      have hlarge : rest.length ≤ t.follows[rest.countP Following] := by
        have hsplit : t.follows = rest.findIdxs Following ++
            (own ++ x.tokens).findIdxs Following rest.length := by
          show (rest ++ own ++ x.tokens).findIdxs Following = _
          rw [List.append_assoc, List.findIdxs_append, Nat.zero_add]
        have hget : t.follows[rest.countP Following]? =
            ((own ++ x.tokens).findIdxs Following rest.length)[0]? := by
          rw [hsplit, List.getElem?_append_right (by simp)]
          simp
        have hmem := List.mem_of_getElem? (hget.symm.trans (List.getElem?_eq_getElem hsize))
        exact List.ge_of_mem_findIdxs _ hmem
      have hnot : ¬ t.follows[rest.countP Following] < t.context.scope.range.tokenidxFrom := by
        show ¬ _ < s.context.scope.range.tokenidxFrom
        rw [hrange]
        exact Nat.not_lt.mpr hlarge
      refine (bind_ok (Member.elem_of (List.getElem?_eq_getElem hsize))).trans ?_
      rw [if_neg hnot]
      rfl
    · rw [if_neg hcount]
      rfl
  rw [fetchPass, bind_look, if_neg hbehind, bind_ok hnext]

/-- The tokens that follow are visited one after the other. -/
theorem fetched_follows (hordered : Ordered atm.states) {text : List Byte}
    (hkey : s.context.key = some text) (hrun : ¬ Overrun atm.states text)
    (hstate : ∀ tk ∈ rest, tk.stateidx < atm.states.length)
    (hrange : s.context.scope.range = ⟨(done ++ rest).length, (done ++ rest ++ own).length,
      (done ++ rest ++ own).countP Following⟩)
    (hmatching : x.mask.matching s.context.type = true)
    (hroom : Room atm (done ++ rest ++ own)
      (visitTokens atm.states s.context.type text Following rest x).expansion)
    (h : Fetched atm (during s
        (done ++ (visitTokens atm.states s.context.type text Following rest x).front ++ own)
        (visitTokens atm.states s.context.type text Following rest x).expansion
        ((done ++ rest ++ own).length + (done ++ rest).countP Following)) types s') :
    Fetched atm (during s (done ++ rest ++ own) x
        ((done ++ rest ++ own).length + done.countP Following))
      ((visitTokens atm.states s.context.type text Following rest x).types ++ types) s' := by
  -- A token that does not follow is passed over, as its position is not in the array.
  induction rest generalizing done x with
  | nil =>
      have hend : Fetched atm (during s (done ++ [] ++ own) x
          ((done ++ [] ++ own).length + (done ++ []).countP Following)) types s' := h
      rw [List.append_nil] at hend ⊢
      exact hend
  | cons tk rest ih =>
      have hrest (other : Token) (hother : other ∈ rest) : other.stateidx < atm.states.length :=
        hstate other (List.mem_cons_of_mem tk hother)
      by_cases hfollow : Following tk = true
      · let first := tk.visit atm.states s.context.type text x
        have hcons : visitTokens atm.states s.context.type text Following (tk :: rest) x =
            ⟨first.front :: (visitTokens atm.states s.context.type text Following rest
                first.expansion).front,
              (visitTokens atm.states s.context.type text Following rest
                first.expansion).expansion,
              first.types ++ (visitTokens atm.states s.context.type text Following rest
                first.expansion).types⟩ := by
          rw [visitTokens, if_pos hfollow]
        rw [hcons] at hroom h ⊢
        dsimp only at hroom h ⊢
        have halike : Alike (done ++ tk :: rest) (done ++ first.front :: rest) :=
          .middle (visit_shape _ _ _ tk x)
        have halike' := halike.append_right own
        have hlast := hroom.mono (le_visit_tokens Following rest first.expansion)
        have hfirst : x.Le atm.states first.expansion := le_visit tk x
        have hmiddle (tk : Token) : done ++ tk :: rest ++ own = done ++ tk :: (rest ++ own) := by
          simp
        have hto : done.length < s.context.scope.range.tokenidxTo := by
          rw [hrange]
          simp
        rw [hmiddle] at hlast
        obtain ⟨type, htypes, hvisit⟩ := match_token_during (s := s)
          (i := (done ++ tk :: rest ++ own).length + done.countP Following) hordered hkey hrun
          (hstate tk List.mem_cons_self) hto hlast
        rw [← hmiddle, ← hmiddle] at hvisit
        have hshape : Following first.front = true :=
          (congrArg Prod.fst (visit_shape _ _ _ tk x)).trans hfollow
        have hdone : (done ++ [first.front]).countP Following = done.countP Following + 1 := by
          rw [List.countP_append, List.countP_singleton, if_pos hshape]
        rw [htypes, List.append_assoc (nonzero type)]
        refine Fetched.visit hmatching (hfirst.mask_le _ hmatching)
          (pass_follow hfollow hrange rfl) hvisit ?_ ?_
        · rw [hrange]
          dsimp only
          rw [List.append_assoc, List.countP_append, List.cons_append,
            List.countP_cons_of_pos hfollow]
          omega
        · rw [halike'.length_eq, List.append_cons done first.front, Nat.add_assoc, ← hdone]
          refine ih hrest ?_ (hfirst.mask_le _ hmatching) ?_ ?_
          · rw [← List.append_cons, hrange, halike'.length_eq, halike.length_eq, halike'.count_eq]
          · rw [← List.append_cons]
            exact hroom.alike halike'
          · rw [← List.append_cons, ← List.append_cons, ← halike'.length_eq, ← halike.count_eq]
            exact h
      · have hcons : visitTokens atm.states s.context.type text Following (tk :: rest) x =
            ⟨tk :: (visitTokens atm.states s.context.type text Following rest x).front,
              (visitTokens atm.states s.context.type text Following rest x).expansion,
              (visitTokens atm.states s.context.type text Following rest x).types⟩ := by
          rw [visitTokens, if_neg hfollow]
          rfl
        rw [hcons] at hroom h ⊢
        dsimp only at hroom h ⊢
        have hdone : (done ++ [tk]).countP Following = done.countP Following := by
          rw [List.countP_append, List.countP_singleton, if_neg hfollow, Nat.add_zero]
        rw [List.append_cons done tk rest, ← hdone]
        rw [List.append_cons done tk rest] at hrange hroom
        refine ih hrest hrange hmatching hroom ?_
        rw [← List.append_cons, ← List.append_cons]
        exact h

/-- The selection behind an item. -/
def ended (s : XMLPathSelect) (front : List Token) (x : Expansion) (i : Nat) : XMLPathSelect :=
  let t := during s front { x with triggers := [] } i
  { t with context := { t.context with key := none } }

/-- What is triggered is fetched from the last one on. -/
theorem fetched_triggers (hmatching : x.mask.matching s.context.type = true)
    (hne : ∀ type ∈ x.triggers, type ≠ 0)
    (hpass : ∀ triggers, fetchPass atm (during s front { x with triggers := triggers } i) =
      nextTrigger (during s front { x with triggers := triggers } i)) :
    Fetched atm (during s front x i) x.triggers.reverse (ended s front x i) := by
  -- The last one is taken from the array, so the induction is on the list from behind.
  suffices htriggers : ∀ triggers : List Int, (∀ type ∈ triggers, type ≠ 0) →
      Fetched atm (during s front { x with triggers := triggers } i) triggers.reverse
        (ended s front x i) from htriggers x.triggers hne
  intro triggers
  induction triggers using List.reverseRecOn with
  | nil =>
      intro _
      refine .done (fetch_return hmatching ((hpass []).trans ?_)) rfl
      rfl
  | append_singleton triggers type ih =>
      intro hne
      have htype : type ≠ 0 := hne type (by simp)
      let t := during s front { x with triggers := triggers ++ [type] } i
      have hback : Member.triggers.back t = .ok type t := by
        refine Member.back_of ?_
        show (triggers ++ [type]).getLast? = some type
        simp
      have hnil : t.triggers ≠ [] := by
        show triggers ++ [type] ≠ []
        simp
      have hpop : Member.triggers.popBack t =
          .ok ⟨⟩ (during s front { x with triggers := triggers } i) := by
        refine (if_neg hnil).trans ?_
        show EStateM.Result.ok PUnit.unit { t with triggers := (triggers ++ [type]).dropLast } = _
        rw [List.dropLast_concat]
        rfl
      have hnext : nextTrigger t =
          .ok (some type) (during s front { x with triggers := triggers } i) := by
        rw [nextTrigger, bind_look, if_pos hnil, bind_ok hback, bind_ok hpop]
        show EStateM.Result.ok (whileZero type) _ = _
        rw [whileZero, if_neg htype]
      rw [List.reverse_append]
      refine .more (fetch_return hmatching ((hpass _).trans hnext)) htype rfl rfl ?_
      exact ih fun other hother ↦ hne other (List.mem_append_left _ hother)

end Passes

end XMLPathSelect

end Smerp.Textwolf
