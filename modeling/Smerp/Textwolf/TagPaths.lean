import Smerp.Textwolf.SelectDocuments

/-!
# Paths of tags

What a path of tags selects. Its steps wait as tokens in the scopes of the tags that are open, and
a step leads to the next one in as many ways as it was reached. So the output of the path is given
at a tag as often as the path can be laid along the tags that are open.
-/

namespace Smerp.Textwolf

open Lib Lib.Interruptible

/-! ## Ways -/

/-- A step of a path of tags: whether it follows, and the name of the tag, if it has one. -/
structure TagStep where
  follow : Bool
  name : Option (List Byte)
  deriving DecidableEq, Repr

/-- The name of a tag is accepted as far as it goes. -/
def TagStep.accepts (step : TagStep) (text : List Byte) : Bool :=
  match step.name with
  | some name => text.isPrefixOf name
  | none => true

/-- The number of ways in which a path leads from the root to a tag. The last step stands in front,
and so does the innermost tag. A step that follows may pass over tags that are open. -/
def ways : List TagStep → List (List Byte) → Nat
  | [], [] => 1
  | [], _ :: _ => 0
  | _ :: _, [] => 0
  | step :: path, text :: chain =>
      if step.accepts text then
        if step.follow then (chain.tails.map (ways path)).sum else ways path chain
      else 0

/-- What a path selects from these items up to the end of the input behind the tags of the chain,
and whether tags are open there. -/
def selectTags (path : List TagStep) (type : Int) :
    List (ElementType × List Byte) → List (List Byte) → List (Int × List Byte) × Bool
  | [], chain => ([], !chain.isEmpty)
  | (kind, text) :: items, chain =>
      if kind = .exit then ([], !chain.isEmpty)
      else if kind = .openTag then
        let rest := selectTags path type items (text :: chain)
        (List.replicate (ways path.reverse (text :: chain)) (type, text) ++ rest.1, rest.2)
      else if kind = .closeTag ∨ kind = .closeTagIm then selectTags path type items chain.tail
      else selectTags path type items chain

/-! ## The states of a path -/

/-- The mask of a step. -/
def tagMask : Mask := Mask.zero.seek .openTag

/-- The state of a step, with its index. -/
def tagState (idx : Nat) (step : TagStep) : State :=
  ⟨⟨tagMask, step.follow, 0, 0, -1⟩, step.name, some (idx + 1), none⟩

/-- The state that is an output. -/
def outputState (follow : Bool) (type : Int) : State :=
  ⟨⟨.zero, follow, type, 0, -1⟩, none, none, none⟩

/-- The states of a path: those of its steps, and the output. -/
def pathStates (path : List TagStep) (follow : Bool) (type : Int) : List State :=
  path.mapIdx tagState ++ [outputState follow type]

/-- The token of a step. -/
def stepToken (idx : Nat) (step : TagStep) : Token := ⟨⟨tagMask, step.follow, 0, 0, -1⟩, idx⟩

section Paths

variable {path : List TagStep} {follow : Bool} {type : Int} {text : List Byte}

theorem path_state_step {idx : Nat} {step : TagStep} (h : path[idx]? = some step) :
    (pathStates path follow type)[idx]? = some (tagState idx step) := by
  have hlt := (List.getElem?_eq_some_iff.mp h).1
  rw [pathStates, List.getElem?_append_left (by rw [List.length_mapIdx]; exact hlt),
    List.getElem?_mapIdx, h]
  rfl

theorem path_state_output :
    (pathStates path follow type)[path.length]? = some (outputState follow type) := by
  rw [pathStates, List.getElem?_append_right (by rw [List.length_mapIdx]), List.length_mapIdx,
    Nat.sub_self]
  rfl

/-- A state of a path has no alternatives. -/
theorem expand_step {idx : Nat} {st : State} (x : Expansion)
    (h : (pathStates path follow type)[idx]? = some st) (hlink : st.link = none) :
    x.expand (pathStates path follow type) (some idx) = x.add idx st := by
  have hsize : (pathStates path follow type).length = path.length + 1 := by
    rw [pathStates, List.length_append, List.length_mapIdx, List.length_singleton]
  have hlast : alternatives (pathStates path follow type) path.length none = [] := by
    cases path.length <;> rfl
  rw [Expansion.expand, hsize, alternatives, h]
  dsimp only
  rw [hlink, hlast]
  rfl

/-- What a step leads to if it accepts the name of the tag. -/
def lead (path : List TagStep) (follow : Bool) (type : Int) (text : List Byte) (x : Expansion)
    (tk : Token) : Expansion :=
  match path[tk.stateidx]? with
  | some step =>
      if step.accepts text then
        x.add (tk.stateidx + 1) (((pathStates path follow type)[tk.stateidx + 1]?).getD .fresh)
      else x
  | none => x

/-- The tokens are those of steps of the path. -/
def OfPath (path : List TagStep) (tokens : List Token) : Prop :=
  ∀ tk ∈ tokens, ∃ step, path[tk.stateidx]? = some step ∧ tk = stepToken tk.stateidx step

/-- A step is visited. It does not change. -/
theorem visit_step {idx : Nat} {step : TagStep} (h : path[idx]? = some step) (x : Expansion) :
    (stepToken idx step).visit (pathStates path follow type) .openTag text x =
      ⟨stepToken idx step, lead path follow type text x (stepToken idx step), []⟩ := by
  have hmatching : (stepToken idx step).core.mask.matching .openTag = true :=
    Mask.matching_seek .zero .openTag
  have hlt := (List.getElem?_eq_some_iff.mp h).1
  obtain ⟨next, hnext, hlink⟩ : ∃ next,
      (pathStates path follow type)[idx + 1]? = some next ∧ next.link = none := by
    by_cases hlast : idx + 1 = path.length
    · rw [hlast]
      exact ⟨_, path_state_output, rfl⟩
    · have hless : idx + 1 < path.length := by omega
      exact ⟨_, path_state_step (List.getElem?_eq_getElem hless), rfl⟩
  have hstate : (pathStates path follow type)[(stepToken idx step).stateidx]? =
      some (tagState idx step) := path_state_step h
  have haccepts : (tagState idx step).accepts text = step.accepts text := rfl
  have hpath : path[(stepToken idx step).stateidx]? = some step := h
  have hnext' : (pathStates path follow type)[(stepToken idx step).stateidx + 1]? = some next :=
    hnext
  have hcount : (stepToken idx step).core.count = ((stepToken idx step).core, true) := if_pos rfl
  have houtput : (stepToken idx step).core.output = ((stepToken idx step).core, 0) :=
    if_neg (not_not_intro rfl)
  -- A step has no range and is no output, so its token stays as it is.
  have hkept : ¬ tagMask.rejects .openTag = true := by decide
  have hreject : (stepToken idx step).reject .openTag = stepToken idx step := if_neg hkept
  have hsame (x' : Expansion) : Visited.mk ((stepToken idx step).reject .openTag) x' (nonzero 0) =
      ⟨stepToken idx step, x', []⟩ := by
    rw [hreject]
    rfl
  rw [Token.visit, if_pos hmatching, Token.matched, hstate, Option.getD_some, haccepts, lead, hpath]
  dsimp only
  rw [hnext', Option.getD_some, hcount, ite_self, houtput]
  cases step.accepts text with
  | true =>
      rw [if_pos ⟨rfl, rfl⟩, if_pos rfl]
      exact (hsame _).trans (congrArg (fun x' ↦ Visited.mk (stepToken idx step) x' [])
        (expand_step x hnext hlink))
  | false =>
      rw [if_neg (fun h ↦ Bool.false_ne_true h.1), if_neg Bool.false_ne_true]
      exact hsame x

/-- What tokens lead to one after the other. -/
def leads (path : List TagStep) (follow : Bool) (type : Int) (text : List Byte) (x : Expansion)
    (tokens : List Token) : Expansion := tokens.foldl (lead path follow type text) x

/-- Steps are visited. They do not change. -/
theorem visit_steps (only : Token → Bool) {tokens : List Token} (h : OfPath path tokens)
    (x : Expansion) :
    visitTokens (pathStates path follow type) .openTag text only tokens x =
      ⟨tokens, leads path follow type text x (tokens.filter only), []⟩ := by
  induction tokens generalizing x with
  | nil => rfl
  | cons tk tokens ih =>
      have hrest : OfPath path tokens := fun other hother ↦ h other (List.mem_cons_of_mem tk hother)
      obtain ⟨step, hstep, htk⟩ := h tk List.mem_cons_self
      have hvisit : tk.visit (pathStates path follow type) .openTag text x =
          ⟨tk, lead path follow type text x tk, []⟩ := by
        rw [htk]
        exact visit_step hstep x
      rw [visitTokens, List.filter_cons]
      by_cases honly : only tk = true
      · rw [if_pos honly, if_pos honly, hvisit]
        dsimp only
        rw [ih hrest]
        rfl
      · rw [if_neg honly, if_neg honly]
        dsimp only
        rw [ih hrest]
        rfl

theorem visit_scopes_steps {scopes : List OpenScope}
    (h : OfPath path (scopes.flatMap OpenScope.tokens)) (x : Expansion) :
    Nest.visitScopes (pathStates path follow type) .openTag text scopes x =
      ⟨scopes, leads path follow type text x
        ((scopes.flatMap OpenScope.tokens).filter Following), []⟩ := by
  induction scopes generalizing x with
  | nil => rfl
  | cons scope scopes ih =>
      rw [List.flatMap_cons] at h ⊢
      have hfirst : OfPath path scope.tokens := fun tk htk ↦ h tk (List.mem_append_left _ htk)
      have hrest : OfPath path (scopes.flatMap OpenScope.tokens) :=
        fun tk htk ↦ h tk (List.mem_append_right _ htk)
      rw [Nest.visitScopes, visit_steps Following hfirst]
      dsimp only
      rw [ih hrest, List.filter_append, leads, leads, leads, List.foldl_append]
      rfl

/-! ## What is expanded -/

/-- The number of these tokens whose step accepts the name of the tag and leads to this index. -/
def arrivals (path : List TagStep) (text : List Byte) (idx : Nat) (tokens : List Token) : Nat :=
  tokens.countP fun tk ↦
    (path[tk.stateidx]?).any (TagStep.accepts · text) && decide (tk.stateidx + 1 = idx)

/-- What is expanded in the scope of a tag. -/
structure Tagged (path : List TagStep) (x : Expansion) : Prop where
  mask_eq : x.mask.pos = tagMask.pos
  follow_mask : x.followMask.pos = 0 ∨ x.followMask.pos = tagMask.pos
  tokens_of : OfPath path x.tokens

/-- A step that is expanded waits as a token. -/
theorem Tagged.add_step {x : Expansion} (h : Tagged path x) {idx : Nat} {step : TagStep}
    (hstep : path[idx]? = some step) :
    Tagged path (x.add idx (tagState idx step)) ∧
      (x.add idx (tagState idx step)).tokens = x.tokens ++ [stepToken idx step] ∧
        (x.add idx (tagState idx step)).triggers = x.triggers := by
  have hnot : ¬ ((tagState idx step).core.mask.isEmpty ∧ (tagState idx step).core.typeidx ≠ 0) :=
    fun hboth ↦ hboth.2 rfl
  rw [Expansion.add, if_neg hnot]
  refine ⟨⟨?_, ?_, ?_⟩, rfl, rfl⟩
  · show x.mask.pos ||| tagMask.pos = tagMask.pos
    rw [h.mask_eq, UInt16.or_self]
  · dsimp only
    split_ifs
    · right
      show x.followMask.pos ||| tagMask.pos = tagMask.pos
      rcases h.follow_mask with hpos | hpos
      · rw [hpos, UInt16.zero_or]
      · rw [hpos, UInt16.or_self]
    · exact h.follow_mask
  · intro tk htk
    rcases List.mem_append.mp htk with htk | htk
    · exact h.tokens_of tk htk
    · rw [List.mem_singleton.mp htk]
      exact ⟨step, hstep, rfl⟩

/-- The output is triggered. -/
theorem Tagged.add_output (follow : Bool) {x : Expansion} (h : Tagged path x) (htype : type ≠ 0)
    (idx : Nat) :
    Tagged path (x.add idx (outputState follow type)) ∧
      (x.add idx (outputState follow type)).tokens = x.tokens ∧
        (x.add idx (outputState follow type)).triggers = x.triggers ++ [type] := by
  have hboth : (outputState follow type).core.mask.isEmpty ∧
      (outputState follow type).core.typeidx ≠ 0 :=
    ⟨(by decide : Mask.zero.isEmpty = true), htype⟩
  rw [Expansion.add, if_pos hboth]
  refine ⟨⟨?_, h.follow_mask, h.tokens_of⟩, rfl, rfl⟩
  show x.mask.pos ||| 0 = tagMask.pos
  rw [UInt16.or_zero, h.mask_eq]

/-- What tokens of the path lead to: the next steps wait, and the output is triggered. -/
theorem Tagged.leads (follow : Bool) (text : List Byte) {x : Expansion} (h : Tagged path x)
    (htype : type ≠ 0) {tokens : List Token} (htokens : OfPath path tokens) :
    Tagged path (leads path follow type text x tokens) ∧
      (∀ idx < path.length,
        (leads path follow type text x tokens).tokens.countP (fun tk ↦ tk.stateidx = idx) =
          x.tokens.countP (fun tk ↦ tk.stateidx = idx) + arrivals path text idx tokens) ∧
      (leads path follow type text x tokens).triggers =
        x.triggers ++ List.replicate (arrivals path text path.length tokens) type := by
  induction tokens generalizing x with
  | nil =>
      refine ⟨h, fun idx _ ↦ rfl, ?_⟩
      exact (List.append_nil x.triggers).symm
  | cons tk tokens ih =>
      -- A token adds one to the count of the index that its step leads to, or triggers the output.
      have hrest : OfPath path tokens :=
        fun other hother ↦ htokens other (List.mem_cons_of_mem tk hother)
      obtain ⟨step, hstep, -⟩ := htokens tk List.mem_cons_self
      have hlt := (List.getElem?_eq_some_iff.mp hstep).1
      have hcons (idx : Nat) : arrivals path text idx (tk :: tokens) =
          arrivals path text idx tokens +
            if step.accepts text ∧ tk.stateidx + 1 = idx then 1 else 0 := by
        rw [arrivals, List.countP_cons, hstep]
        simp only [Option.any_some, Bool.and_eq_true, decide_eq_true_eq]
        rfl
      have hfold : Textwolf.leads path follow type text x (tk :: tokens) =
          Textwolf.leads path follow type text (lead path follow type text x tk) tokens := rfl
      rw [hfold, hcons]
      simp only [hcons]
      rw [lead, hstep]
      dsimp only
      cases haccepts : step.accepts text with
      | false =>
          rw [if_neg Bool.false_ne_true]
          simp only [Bool.false_eq_true, false_and, if_false, Nat.add_zero]
          exact ih h hrest
      | true =>
          rw [if_pos rfl]
          simp only [true_and]
          by_cases hlast : tk.stateidx + 1 = path.length
          · have hout : (pathStates path follow type)[tk.stateidx + 1]? =
                some (outputState follow type) := by rw [hlast, path_state_output]
            rw [hout, Option.getD_some, if_pos hlast]
            obtain ⟨htagged, hsame, htriggers⟩ :=
              h.add_output follow htype (tk.stateidx + 1)
            obtain ⟨hend, hcounts, houtputs⟩ := ih htagged hrest
            rw [hsame] at hcounts
            rw [htriggers] at houtputs
            refine ⟨hend, fun idx hidx ↦ ?_, ?_⟩
            · have hne : tk.stateidx + 1 ≠ idx := by omega
              rw [hcounts idx hidx, if_neg hne, Nat.add_zero]
            · rw [houtputs, List.append_assoc]
              rfl
          · have hnext : path[tk.stateidx + 1]? = some path[tk.stateidx + 1] :=
              List.getElem?_eq_getElem (by omega)
            rw [path_state_step hnext, Option.getD_some, if_neg hlast]
            obtain ⟨htagged, htokens', htriggers⟩ := h.add_step hnext
            obtain ⟨hend, hcounts, houtputs⟩ := ih htagged hrest
            rw [htokens'] at hcounts
            rw [htriggers] at houtputs
            refine ⟨hend, fun idx hidx ↦ ?_, houtputs⟩
            have hnew : (stepToken (tk.stateidx + 1) path[tk.stateidx + 1]).stateidx =
              tk.stateidx + 1 := rfl
            rw [hcounts idx hidx, List.countP_append, List.countP_singleton, hnew]
            by_cases hsame : tk.stateidx + 1 = idx
            · rw [if_pos hsame, if_pos (decide_eq_true hsame)]
              omega
            · rw [if_neg hsame, if_neg fun hdecide ↦ hsame (of_decide_eq_true hdecide)]
              omega

/-! ## Tags that are open -/

/-- What waits in the scope of a tag: each step as often as the path leads there. -/
structure Waits (path : List TagStep) (chain : List (List Byte)) (scope : OpenScope) : Prop where
  mask_eq : scope.mask.pos = tagMask.pos
  follow_mask : scope.followMask.pos = 0 ∨ scope.followMask.pos = tagMask.pos
  tokens_of : OfPath path scope.tokens
  count_eq : ∀ idx < path.length, scope.tokens.countP (fun tk ↦ tk.stateidx = idx) =
    ways (path.take idx).reverse chain

/-- The scopes of the tags that are open. -/
structure Chained (path : List TagStep) (chain : List (List Byte)) (nest : Nest) : Prop where
  inner_waits : Waits path chain nest.inner
  around_waits : List.Forall₂ (Waits path) chain.tails.tail nest.around.reverse
  triggers_eq : nest.triggers = []

theorem arrivals_step {idx : Nat} {step : TagStep} (hstep : path[idx]? = some step)
    (tokens : List Token) :
    arrivals path text (idx + 1) tokens =
      if step.accepts text then tokens.countP (fun tk ↦ tk.stateidx = idx) else 0 := by
  induction tokens with
  | nil => rw [arrivals, List.countP_nil, List.countP_nil, ite_self]
  | cons tk tokens ih =>
      rw [arrivals] at ih ⊢
      rw [List.countP_cons, List.countP_cons, ih]
      by_cases hidx : tk.stateidx = idx
      · rw [hidx, hstep]
        cases haccepts : step.accepts text <;> simp [haccepts]
      · simp [hidx]

theorem follow_count {idx : Nat} {step : TagStep} (hstep : path[idx]? = some step)
    {tokens : List Token} (h : OfPath path tokens) :
    (tokens.filter Following).countP (fun tk ↦ tk.stateidx = idx) =
      if step.follow then tokens.countP (fun tk ↦ tk.stateidx = idx) else 0 := by
  induction tokens with
  | nil => rw [List.filter_nil, List.countP_nil, ite_self]
  | cons tk tokens ih =>
      have hrest := ih fun other hother ↦ h other (List.mem_cons_of_mem tk hother)
      obtain ⟨own, hown, htk⟩ := h tk List.mem_cons_self
      have hfollow : Following tk = own.follow := by
        rw [htk]
        rfl
      rw [List.filter_cons, List.countP_cons, hfollow]
      by_cases hidx : tk.stateidx = idx
      · rw [hidx, hstep] at hown
        obtain rfl := Option.some.inj hown
        cases hflag : step.follow with
        | true =>
            rw [hflag] at hrest
            simp [hidx, hrest]
        | false =>
            rw [hflag] at hrest
            simpa using hrest
      · cases own.follow with
        | true => simpa [hidx] using hrest
        | false => simpa [hidx] using hrest

theorem count_scopes {chains : List (List (List Byte))} {scopes : List OpenScope}
    (h : List.Forall₂ (Waits path) chains scopes) {idx : Nat} (hidx : idx < path.length) :
    (scopes.flatMap OpenScope.tokens).countP (fun tk ↦ tk.stateidx = idx) =
      (chains.map (ways (path.take idx).reverse)).sum := by
  induction h with
  | nil => rfl
  | cons hwaits _ ih =>
      rw [List.flatMap_cons, List.countP_append, hwaits.count_eq idx hidx, ih, List.map_cons,
        List.sum_cons]

theorem of_path_scopes {chains : List (List (List Byte))} {scopes : List OpenScope}
    (h : List.Forall₂ (Waits path) chains scopes) :
    OfPath path (scopes.flatMap OpenScope.tokens) := by
  induction h with
  | nil => exact fun tk htk ↦ absurd htk List.not_mem_nil
  | cons hwaits _ ih =>
      intro tk htk
      rcases List.mem_append.mp htk with htk | htk
      · exact hwaits.tokens_of tk htk
      · exact ih tk htk

theorem Chained.of_path_around {chain : List (List Byte)} {nest : Nest}
    (h : Chained path chain nest) : OfPath path (nest.around.flatMap OpenScope.tokens) := by
  have hperm := (nest.around.reverse_perm).flatMap_right OpenScope.tokens
  exact fun tk htk ↦ of_path_scopes h.around_waits tk (hperm.mem_iff.mpr htk)

theorem tails_eq (chain : List (List Byte)) : chain.tails = chain :: chain.tails.tail := by
  cases chain <;> rfl

/-- A tag is reached by a step in as many ways as the one before was reached where it may stand. -/
theorem arrivals_ways (text : List Byte) {chain : List (List Byte)} {nest : Nest}
    (h : Chained path chain nest) {idx : Nat} (hidx : idx < path.length) :
    arrivals path text (idx + 1)
        (nest.inner.tokens ++ (nest.around.flatMap OpenScope.tokens).filter Following) =
      ways (path.take (idx + 1)).reverse (text :: chain) := by
  have hstep : path[idx]? = some path[idx] := List.getElem?_eq_getElem hidx
  have hperm := (nest.around.reverse_perm).flatMap_right OpenScope.tokens
  have hpath : (path.take (idx + 1)).reverse = path[idx] :: (path.take idx).reverse := by
    rw [List.take_add_one, hstep, Option.toList_some, List.reverse_append]
    rfl
  rw [arrivals_step hstep, List.countP_append, h.inner_waits.count_eq idx hidx,
    follow_count hstep h.of_path_around, ← hperm.countP_eq, count_scopes h.around_waits hidx, hpath,
    ways]
  by_cases haccepts : path[idx].accepts text = true
  · rw [if_pos haccepts, if_pos haccepts]
    by_cases hfollow : path[idx].follow = true
    · rw [if_pos hfollow, if_pos hfollow, tails_eq chain, List.map_cons, List.sum_cons]
      rfl
    · rw [if_neg hfollow, if_neg hfollow, Nat.add_zero]
  · rw [if_neg haccepts, if_neg haccepts]

/-! ## Selections -/

variable {chain : List (List Byte)} {nest : Nest} {kind : ElementType}

/-- A tag that is opened begins a scope, and is selected in each way the path leads to it. -/
theorem Chained.open_tag (follow : Bool) (text : List Byte) (h : Chained path chain nest)
    (hpath : path ≠ []) (htype : type ≠ 0) :
    Chained path (text :: chain) (nest.openTag (pathStates path follow type) text).nest ∧
      (nest.openTag (pathStates path follow type) text).types =
        List.replicate (ways path.reverse (text :: chain)) type := by
  -- The candidates are the tokens of the innermost scope, and those around it that follow.
  let cands := nest.inner.tokens ++ (nest.around.flatMap OpenScope.tokens).filter Following
  have hcands : OfPath path cands := by
    intro tk htk
    rcases List.mem_append.mp htk with htk | htk
    · exact h.inner_waits.tokens_of tk htk
    · exact h.of_path_around tk (List.mem_filter.mp htk).1
  let x₀ : Expansion :=
    ⟨nest.inner.followMask.seek .openTag, nest.inner.followMask, [], nest.triggers⟩
  have hfirst : Tagged path x₀ := by
    refine ⟨?_, h.inner_waits.follow_mask, fun tk htk ↦ absurd htk List.not_mem_nil⟩
    show nest.inner.followMask.pos ||| tagMask.pos = tagMask.pos
    rcases h.inner_waits.follow_mask with hpos | hpos
    · rw [hpos, UInt16.zero_or]
    · rw [hpos, UInt16.or_self]
  obtain ⟨htagged, hcounts, htriggers⟩ := hfirst.leads follow text htype hcands
  have hopen : nest.openTag (pathStates path follow type) text =
      ⟨⟨nest.around ++ [nest.inner],
        ⟨(leads path follow type text x₀ cands).mask,
          (leads path follow type text x₀ cands).followMask,
          (leads path follow type text x₀ cands).tokens⟩, []⟩, [],
        (leads path follow type text x₀ cands).triggers⟩ := by
    have hall : nest.inner.tokens.filter (fun _ ↦ true) = nest.inner.tokens :=
      List.filter_eq_self.mpr fun _ _ ↦ rfl
    have hfold : leads path follow type text (leads path follow type text x₀ nest.inner.tokens)
        ((nest.around.flatMap OpenScope.tokens).filter Following) =
          leads path follow type text x₀ cands := (List.foldl_append ..).symm
    rw [Nest.openTag, visit_steps _ h.inner_waits.tokens_of]
    dsimp only
    rw [visit_scopes_steps h.of_path_around, hall, hfold]
    rfl
  rw [hopen]
  refine ⟨⟨⟨htagged.mask_eq, htagged.follow_mask, htagged.tokens_of, ?_⟩, ?_, rfl⟩, ?_⟩
  · intro idx hidx
    refine (hcounts idx hidx).trans ?_
    rw [List.countP_nil, Nat.zero_add]
    cases idx with
    | zero =>
        rw [List.take_zero, List.reverse_nil, ways, arrivals]
        refine List.countP_eq_zero.mpr fun tk _ ↦ ?_
        simp
    | succ idx => exact arrivals_ways text h (Nat.lt_of_succ_lt hidx)
  · show List.Forall₂ (Waits path) chain.tails (nest.around ++ [nest.inner]).reverse
    rw [List.reverse_append, tails_eq chain]
    exact .cons h.inner_waits h.around_waits
  · show [] ++ (leads path follow type text x₀ cands).triggers.reverse = _
    have hpos := List.length_pos_iff.mpr hpath
    have hlast : path.length - 1 + 1 = path.length := by omega
    have hless : path.length - 1 < path.length := by omega
    have hways := arrivals_ways text h hless
    rw [hlast, List.take_length] at hways
    have hnone : x₀.triggers = [] := h.triggers_eq
    rw [List.nil_append, htriggers, hways, hnone, List.nil_append, List.reverse_replicate]

/-- Another item is not matched. -/
theorem Waits.match_item {closed : Bool} (h : Waits path chain nest.inner)
    (hkind : kind ≠ .openTag) :
    nest.matchItem (pathStates path follow type) kind text closed = ⟨nest, [], []⟩ := by
  have hnot : ¬ nest.inner.mask.matching kind = true := by
    rw [Mask.matching, h.mask_eq]
    cases kind
    case openTag => exact absurd rfl hkind
    all_goals decide
  rw [Nest.matchItem, if_neg hnot]

/-- A tag that is closed drops its scope. -/
theorem Chained.close_tag (follow : Bool) (type : Int) (text : List Byte)
    (h : Chained path chain nest) (hkind : kind = .closeTag ∨ kind = .closeTagIm) :
    Chained path chain.tail (nest.item (pathStates path follow type) kind text).nest ∧
      (nest.item (pathStates path follow type) kind text).types = [] := by
  have hnot : kind ≠ .openTag := by rcases hkind with rfl | rfl <;> decide
  rw [Nest.item, if_neg hnot, if_pos hkind]
  have haround := h.around_waits
  cases chain with
  | nil =>
      have hnil : nest.around = [] :=
        List.reverse_eq_nil_iff.mp (List.forall₂_nil_left_iff.mp haround)
      have hclose : nest.close = none := by
        rw [Nest.close, hnil]
        rfl
      rw [hclose]
      dsimp only
      rw [h.inner_waits.match_item hnot]
      exact ⟨h, rfl⟩
  | cons name chain =>
      have htails : (name :: chain).tails.tail = chain :: chain.tails.tail := tails_eq chain
      rw [htails] at haround
      obtain ⟨scope, scopes, hscope, hscopes, hreverse⟩ := List.forall₂_cons_left_iff.mp haround
      have hconcat : nest.around = scopes.reverse ++ [scope] := by
        rw [← List.reverse_reverse nest.around, hreverse, List.reverse_cons]
      have hclose : nest.close = some ⟨scopes.reverse, scope, nest.triggers⟩ := by
        rw [Nest.close, hconcat, List.getLast?_concat, List.dropLast_concat]
      rw [hclose]
      dsimp only
      rw [Waits.match_item hscope hnot]
      refine ⟨⟨hscope, ?_, h.triggers_eq⟩, rfl⟩
      show List.Forall₂ _ _ scopes.reverse.reverse
      rw [List.reverse_reverse]
      exact hscopes

/-- Nested scopes select from the items what the path selects along the tags that are open. -/
theorem Chained.select_eq (follow : Bool) (h : Chained path chain nest) (hpath : path ≠ [])
    (htype : type ≠ 0) (items : List (ElementType × List Byte)) :
    nest.select (pathStates path follow type) items = selectTags path type items chain := by
  have hopen {chain : List (List Byte)} {nest : Nest} (h : Chained path chain nest) :
      nest.around.isEmpty = chain.isEmpty := by
    have hlength := h.around_waits.length_eq
    rw [List.length_reverse, List.length_tail, List.length_tails, Nat.add_sub_cancel] at hlength
    rw [Bool.eq_iff_iff, List.isEmpty_iff_length_eq_zero, List.isEmpty_iff_length_eq_zero, hlength]
  induction items generalizing chain nest with
  | nil =>
      rw [Nest.select, selectTags, hopen h]
  | cons item items ih =>
      obtain ⟨kind, bytes⟩ := item
      rw [Nest.select, selectTags]
      by_cases hexit : kind = .exit
      · rw [if_pos hexit, if_pos hexit, hopen h]
      · rw [if_neg hexit, if_neg hexit]
        dsimp only
        by_cases htag : kind = .openTag
        · subst htag
          have hread : nest.read .openTag bytes = bytes := by
            rw [Nest.read, Mask.matching, h.inner_waits.mask_eq]
            exact if_pos (by decide)
          obtain ⟨hnext, htypes⟩ := h.open_tag follow bytes hpath htype
          rw [if_pos rfl, hread, Nest.item, if_pos rfl, htypes, ih hnext, List.map_replicate]
        · rw [if_neg htag]
          by_cases hclose : kind = .closeTag ∨ kind = .closeTagIm
          · obtain ⟨hnext, htypes⟩ := h.close_tag follow type (nest.read kind bytes) hclose
            rw [if_pos hclose, htypes, ih hnext]
            rfl
          · rw [if_neg hclose, Nest.item, if_neg htag, if_neg hclose,
              h.inner_waits.match_item htag]
            dsimp only
            rw [ih h]
            rfl

/-- In front of the first tag the first step waits. -/
theorem chained_construct (follow : Bool) (type : Int) (hpath : path ≠ []) :
    Chained path [] (Nest.construct (pathStates path follow type)) := by
  obtain ⟨step, hstep⟩ : ∃ step, path[0]? = some step :=
    ⟨_, List.getElem?_eq_getElem (List.length_pos_iff.mpr hpath)⟩
  have hne : pathStates path follow type ≠ [] :=
    List.append_ne_nil_of_right_ne_nil _ (List.cons_ne_nil _ _)
  have hexpand := expand_step (⟨.zero, .zero, [], []⟩ : Expansion)
    (path_state_step hstep : (pathStates path follow type)[0]? = _) rfl
  have hnot : ¬ ((tagState 0 step).core.mask.isEmpty ∧ (tagState 0 step).core.typeidx ≠ 0) :=
    fun hboth ↦ hboth.2 rfl
  rw [Nest.construct, if_pos hne, hexpand, Expansion.add, if_neg hnot]
  have hjoin : (Mask.zero.join tagMask).pos = tagMask.pos := by decide
  refine ⟨⟨hjoin, ?_, ?_, ?_⟩, .nil, rfl⟩
  · dsimp only
    split_ifs
    · exact .inr hjoin
    · exact .inl rfl
  · intro tk htk
    rw [List.mem_singleton.mp htk]
    exact ⟨step, hstep, rfl⟩
  · intro idx hidx
    cases idx with
    | zero => rfl
    | succ idx =>
        have hless := Nat.lt_of_succ_lt hidx
        rw [List.take_add_one, List.getElem?_eq_getElem hless, Option.toList_some,
          List.reverse_append]
        rfl

end Paths

/-! ## Definitions -/

/-- What a name is read as. -/
def readName (value : List Byte) : List Byte :=
  match XMLPathSelectAutomaton.getTagName value 1024 with
  | .ok (some name) => name
  | _ => []

/-- The path of the operators and functions of a path element. What follows stays so. -/
def tagSteps : Bool → List PathElement.Step → List TagStep
  | _, [] => []
  | _, .follow :: steps => tagSteps true steps
  | follow, .tag value :: steps => ⟨follow, value.map readName⟩ :: tagSteps follow steps
  | follow, _ :: steps => tagSteps follow steps

/-- A step to a tag whose name can be read, or to those that follow. -/
def IsTagStep : PathElement.Step → Prop
  | .follow => True
  | .tag (some value) =>
      ∃ name, XMLPathSelectAutomaton.getTagName value 1024 = .ok (some name)
  | .tag none => True
  | _ => False

namespace XMLPathSelectAutomaton

/-- The states of a path that is not yet at its end. -/
def openStates (path : List TagStep) : List State :=
  if path = [] then [] else path.mapIdx tagState ++ [State.fresh]

variable {path : List TagStep} {follow : Bool}

theorem open_states_open :
    openState (some path.length) (openStates path) =
      .ok (some path.length) (path.mapIdx tagState ++ [State.fresh]) := by
  rw [openStates]
  cases path with
  | nil => rfl
  | cons step path =>
      have hsize : ¬ ((step :: path).mapIdx tagState ++ [State.fresh]).length = 0 := by simp
      rw [if_neg (List.cons_ne_nil step path), openState, bind_look, if_neg hsize]
      rfl

theorem length_fresh (path : List TagStep) :
    (path.mapIdx tagState ++ [State.fresh]).length = path.length + 1 := by
  rw [List.length_append, List.length_mapIdx, List.length_singleton]

theorem fresh_at : (path.mapIdx tagState ++ [State.fresh])[path.length]? = some State.fresh := by
  rw [List.getElem?_append_right (by rw [List.length_mapIdx]), List.length_mapIdx, Nat.sub_self]
  rfl

theorem set_fresh (path : List TagStep) (st : State) (more : List State) :
    (path.mapIdx tagState ++ State.fresh :: more).set path.length st =
      path.mapIdx tagState ++ st :: more := by
  rw [List.set_append_right _ _ (by rw [List.length_mapIdx]), List.length_mapIdx, Nat.sub_self]
  rfl

/-- The state where the path stands is defined. -/
theorem vacant_fresh : vacant path.length (path.mapIdx tagState ++ [State.fresh]) =
    .ok path.length (path.mapIdx tagState ++ [State.fresh]) := by
  have hempty : State.fresh.isempty = true := rfl
  rw [vacant, bind_ok (state_at_ok fresh_at), if_pos hempty]
  rfl

/-- A step is defined behind the others. -/
theorem define_next_step (key : Option (List Byte)) :
    defineNext (some path.length) .tag key follow (openStates path) =
      .ok (some (path ++ [(⟨follow, key⟩ : TagStep)]).length)
        (openStates (path ++ [⟨follow, key⟩])) := by
  let states := path.mapIdx tagState ++ [State.fresh]
  have hlength : states.length = path.length + 1 := length_fresh path
  -- The state where the path stands has no key yet, so the chain ends there.
  have hseek : seekKey key follow (states.length + 1) path.length states =
      .ok (.inr path.length) states := by
    have hkey : ¬ (State.fresh.key = some (key.getD []) ∧ State.fresh.core.follow = follow) := by
      rintro ⟨hsome, -⟩
      cases hsome
    rw [seekKey, bind_ok (state_at_ok fresh_at), if_neg hkey]
    rfl
  have hfresh : (states ++ [State.fresh])[path.length]? = some State.fresh := by
    rw [List.getElem?_append_left (by omega)]
    exact fresh_at
  have hdefined : setAt path.length
      (fun st ↦ st.defineNext .tag key states.length follow) (states ++ [State.fresh]) =
        .ok () (openStates (path ++ [⟨follow, key⟩])) := by
    rw [set_at_ok hfresh, openStates, if_neg (by simp), List.append_assoc]
    have hset := set_fresh path (State.fresh.defineNext .tag key states.length follow)
      [State.fresh]
    rw [List.mapIdx_concat, List.append_assoc]
    refine congrArg _ (hset.trans ?_)
    rw [hlength]
    rfl
  have hend : (path ++ [(⟨follow, key⟩ : TagStep)]).length = states.length := by
    rw [List.length_append, List.length_singleton, hlength]
  rw [hend, defineNext, bind_ok open_states_open]
  dsimp only
  rw [bind_look, bind_ok hseek]
  dsimp only
  rw [bind_ok vacant_fresh, bind_look, pushState, bind_alter, bind_ok hdefined]
  rfl

/-- The output is defined behind the steps. -/
theorem define_output_step (type : Int) :
    defineOutput (some path.length) .zero type follow 0 (-1) (openStates path) =
      .ok (some path.length) (pathStates path follow type) := by
  let states := path.mapIdx tagState ++ [State.fresh]
  have hlength : states.length = path.length + 1 := length_fresh path
  have hless : ¬ states.length ≤ path.length := by omega
  have hdefined : setAt path.length (fun st ↦ st.defineOutput .zero type follow 0 (-1)) states =
      .ok () (pathStates path follow type) := by
    rw [set_at_ok fresh_at]
    exact congrArg _ (set_fresh path _ [])
  rw [defineOutput, bind_ok open_states_open, bind_look]
  dsimp only
  rw [if_neg hless, bind_ok vacant_fresh, bind_ok hdefined]
  rfl

end XMLPathSelectAutomaton

namespace Definitions

variable {path : List TagStep} {follow : Bool}

/-- A path that is not yet at its end, and the element that stands there. -/
def opened (path : List TagStep) (follow : Bool) : Definitions :=
  ⟨XMLPathSelectAutomaton.openStates path, [⟨some path.length, 0, -1, follow, .zero⟩]⟩

theorem act_step {d : Definitions} {idx : Nat} {elem : PathElement} {step : PathElement.Step}
    {b : Builder} (helem : d.elems[idx]? = some elem)
    (hrun : step.run ⟨d.states, elem⟩ = .ok () b) :
    act d (.step idx step) = ⟨b.states, d.elems.set idx b.elem⟩ := by
  rw [act, helem]
  dsimp only
  rw [hrun]

theorem moves_ok {define : Define (Option Nat)} {b : Builder} {stateidx : Option Nat}
    {states : List State} (h : define b.states = .ok stateidx states) :
    PathElement.moves define b = .ok () ⟨states, { b.elem with stateidx := stateidx }⟩ := by
  rw [PathElement.moves, h]

theorem elem_opened : (opened path follow).elems[0]? =
    some ⟨some path.length, 0, -1, follow, .zero⟩ := rfl

theorem act_tag {value : Option (List Byte)} (h : IsTagStep (.tag value)) :
    act (opened path follow) (.step 0 (.tag value)) =
      opened (path ++ [⟨follow, value.map readName⟩]) follow := by
  let b : Builder := ⟨(opened path follow).states, ⟨some path.length, 0, -1, follow, .zero⟩⟩
  have hmoves (key : Option (List Byte)) : PathElement.moves
      (XMLPathSelectAutomaton.defineNext (some path.length) .tag key follow) b =
        .ok () ⟨XMLPathSelectAutomaton.openStates (path ++ [⟨follow, key⟩]),
          ⟨some (path ++ [(⟨follow, key⟩ : TagStep)]).length, 0, -1, follow, .zero⟩⟩ :=
    moves_ok (XMLPathSelectAutomaton.define_next_step key)
  have hselect : (PathElement.Step.tag value).run b =
      .ok () ⟨XMLPathSelectAutomaton.openStates (path ++ [⟨follow, value.map readName⟩]),
        ⟨some (path ++ [(⟨follow, value.map readName⟩ : TagStep)]).length, 0, -1, follow,
          .zero⟩⟩ := by
    refine (bind_look _ _).trans ?_
    cases value with
    | none => exact hmoves none
    | some value =>
        obtain ⟨name, hname⟩ := h
        have hread : readName value = name := by rw [readName, hname]
        rw [Option.map_some, hread]
        dsimp only
        rw [hname]
        exact hmoves (some name)
  exact act_step elem_opened hselect

theorem act_output (type : Int) :
    (act (opened path follow) (.step 0 (.output type))).states = pathStates path follow type := by
  have hpush : (PathElement.Step.output type).run ⟨(opened path follow).states,
      ⟨some path.length, 0, -1, follow, .zero⟩⟩ =
        .ok () ⟨pathStates path follow type, ⟨some path.length, 0, -1, follow, .zero⟩⟩ :=
    (bind_look _ _).trans (moves_ok (XMLPathSelectAutomaton.define_output_step type))
  exact congrArg Definitions.states (act_step elem_opened hpush)

/-- What a path of tags is defined as. -/
theorem states_of_steps (path : List TagStep) (follow : Bool) (type : Int)
    {steps : List PathElement.Step}
    (h : ∀ step ∈ steps, IsTagStep step) :
    ∃ follow', (Runs.last act (opened path follow)
      (steps.map (.step 0) ++ [.step 0 (.output type)])).states =
        pathStates (path ++ tagSteps follow steps) follow' type := by
  induction steps generalizing path follow with
  | nil =>
      refine ⟨follow, (act_output type).trans ?_⟩
      rw [tagSteps, List.append_nil]
  | cons step steps ih =>
      have hrest (other : PathElement.Step) (hother : other ∈ steps) : IsTagStep other :=
        h other (List.mem_cons_of_mem step hother)
      have hstep := h step List.mem_cons_self
      cases step with
      | follow => exact ih path true hrest
      | tag value =>
          have hsteps : ∃ follow', (Runs.last act
              (opened (path ++ [⟨follow, value.map readName⟩]) follow)
              (steps.map (.step 0) ++ [.step 0 (.output type)])).states =
                pathStates (path ++ [⟨follow, value.map readName⟩] ++ tagSteps follow steps)
                  follow' type := ih _ follow hrest
          rw [List.append_assoc] at hsteps
          rw [← act_tag hstep] at hsteps
          exact hsteps
      | attrib name => exact hstep.elim
      | attribValue name value => exact hstep.elim
      | TO cnt => exact hstep.elim
      | FROM cnt => exact hstep.elim
      | RANGE cnt => exact hstep.elim
      | output type => exact hstep.elim
      | content => exact hstep.elim

end Definitions

namespace SelectIterator

open Definitions in
/-- Whatever path of tags is defined, with `--` anywhere, and whatever document is read, the
iterator gives the name of each tag in their order, as often as there are ways in which the path
leads along the tags that are open to this one, and then the end of the input. The arrays must have
room, and no name may go on behind that of a step. -/
theorem path_selected {cfg : Setup} {atm : XMLPathSelectAutomaton} {boundIn boundOut : Nat}
    (hin : IsCharSet cfg.inputCharSet boundIn) (hout : IsCharSet cfg.outputCharSet boundOut)
    {steps : List PathElement.Step} (hsteps : ∀ step ∈ steps, IsTagStep step)
    (hpath : tagSteps false steps ≠ []) {type : Int} (htype : type ≠ 0)
    (hstates : atm.states = (Runs.last act .construct
      (.start :: (steps.map (.step 0) ++ [.step 0 (.output type)]))).states)
    {outputBuf : List Byte} {outputBufSize : UInt32}
    (hlength : outputBuf.length = outputBufSize.toNat) (hsize : 0 < outputBufSize)
    {doc : Document} (hfine : doc.Fine cfg boundIn boundOut outputBufSize.toNat)
    (hfits : (Processed.mk (.construct atm.states) [] (Nest.construct atm.states).triggers).Fits
      atm)
    (hsuits : (Nest.construct atm.states).Suits atm ((doc.items cfg).map (printed cfg))) :
    ∃ s, XMLPathSelect.construct atm
        (.construct (cfg.inputCharSet.encode doc.chars) outputBuf outputBufSize) = .ok ⟨⟩ s ∧
      let selected := selectTags (tagSteps false steps) type ((doc.items cfg).map (printed cfg)) []
      Selects cfg atm (construct s) selected.1 selected.2 := by
  have hordered : Ordered atm.states := by
    rw [hstates]
    exact (placed_last _).ordered
  obtain ⟨s, hconstruct, hselects⟩ :=
    selects_document hin hout hordered hlength hsize hfine hfits hsuits
  obtain ⟨follow, hall⟩ : ∃ follow, atm.states = pathStates (tagSteps false steps) follow type := by
    rw [hstates]
    exact states_of_steps [] false type hsteps
  have hselect := (chained_construct follow type hpath).select_eq follow hpath htype
    ((doc.items cfg).map (printed cfg))
  rw [hall, hselect] at hselects
  exact ⟨s, hconstruct, hselects⟩

open Definitions in
/-- A tag `b` in any tag. There are two ways to one that is in two tags. -/
theorem path_selected_twice :
    let steps : List PathElement.Step := [.follow, .tag none, .tag (some (text "b"))]
    let acts : List Act := .start :: (steps.map (.step 0) ++ [.step 0 (.output 1)])
    let atm : XMLPathSelectAutomaton :=
      ⟨8, 8, 8, 8, (Runs.last act .construct acts).states⟩
    let cfg : Setup := ⟨IsoLatin1, UTF8, none⟩
    let doc : Document := ⟨[32], none, [.openTag [.char 97] ⟨[], []⟩, .space [10],
      .openTag [.char 97] ⟨[], []⟩, .emptyTag [.char 98] ⟨[], []⟩, .closeTag [.char 97] [],
      .closeTag [.char 97] []]⟩
    ∃ s, XMLPathSelect.construct atm
        (.construct (cfg.inputCharSet.encode doc.chars) (List.replicate 16 0) 16) = .ok ⟨⟩ s ∧
      let selected := selectTags (tagSteps false steps) 1 ((doc.items cfg).map (printed cfg)) []
      selected = ([(1, text "b"), (1, text "b")], false) ∧
        Selects cfg atm (construct s) selected.1 selected.2 := by
  intro steps acts atm cfg doc
  have ha : FineText cfg 256 (2 ^ 31) (UInt32.toNat 16) isTagChar [.char 97] :=
    .char (by decide) (by decide) (by decide) (by decide)
  have hb : FineText cfg 256 (2 ^ 31) (UInt32.toNat 16) isTagChar [.char 98] :=
    .char (by decide) (by decide) (by decide) (by decide)
  have hfine : doc.Fine cfg 256 (2 ^ 31) (UInt32.toNat 16) := by
    refine ⟨by decide, fun _ hsome ↦ absurd hsome (Option.some_ne_none _).symm, ?_, by decide,
      fun _ ↦ ⟨_, _, rfl, trivial⟩⟩
    have hnone : Attributes.Fine cfg 256 (2 ^ 31) (UInt32.toNat 16) ⟨[], []⟩ :=
      .nil cfg _ _ _ (by decide)
    have hclose : Markup.Fine cfg 256 (2 ^ 31) (UInt32.toNat 16) (.closeTag [.char 97] []) :=
      .closeTag ha (by decide)
    exact List.forall_mem_cons.mpr ⟨.openTag (by decide) ha hnone,
      List.forall_mem_cons.mpr ⟨.space (by decide) (by decide),
        List.forall_mem_cons.mpr ⟨.openTag (by decide) ha hnone,
          List.forall_mem_cons.mpr ⟨.emptyTag (by decide) hb hnone,
            List.forall_mem_cons.mpr ⟨hclose, List.forall_mem_singleton.mpr hclose⟩⟩⟩⟩⟩
  have hsteps : ∀ step ∈ steps, IsTagStep step :=
    List.forall_mem_cons.mpr ⟨trivial, List.forall_mem_cons.mpr ⟨trivial,
      List.forall_mem_singleton.mpr ⟨text "b", rfl⟩⟩⟩
  have hstates : atm.states = (Runs.last act .construct acts).states := rfl
  have hlength : (List.replicate 16 (0 : Byte)).length = (16 : UInt32).toNat := rfl
  obtain ⟨s, hconstruct, hselects⟩ := path_selected .isoLatin1 .utf8 hsteps (by decide)
    (by decide : (1 : Int) ≠ 0) hstates hlength (by decide) hfine (by decide) (by decide)
  exact ⟨s, hconstruct, by decide, hselects⟩

end SelectIterator

end Smerp.Textwolf
