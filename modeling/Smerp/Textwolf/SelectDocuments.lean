import Smerp.Textwolf.Documents
import Smerp.Textwolf.ScopeRefinement

/-!
# The selection from a document

Between two items the arrays of a selection represent nested scopes. An item leads from there to the
scopes behind it, with the outputs that nested scopes have for it. So what is selected from a
document is what nested scopes select from its items.
-/

namespace Smerp.Textwolf

open Lib Lib.Interruptible

/-- A mask matches the items that it seeks. -/
theorem Mask.matching_seek (mask : Mask) (type : ElementType) :
    (mask.seek type).matching type = true := by
  let own : Mask := ⟨1 <<< type.index, 0⟩
  have hown : own.matching type = true := by cases type <;> decide
  have hjoin := Mask.matching_join hown mask
  have hpos : (own.join mask).pos = (mask.seek type).pos := UInt16.or_comm _ _
  rw [Mask.matching, hpos] at hjoin
  exact hjoin

/-! ## Scopes that are visited -/

section Visits

variable {states : List State} {type : ElementType} {text : List Byte}

theorem visit_tokens_append (only : Token → Bool) (tokens more : List Token) (x : Expansion) :
    visitTokens states type text only (tokens ++ more) x =
      let v := visitTokens states type text only tokens x
      let w := visitTokens states type text only more v.expansion
      ⟨v.front ++ w.front, w.expansion, v.types ++ w.types⟩ := by
  induction tokens generalizing x with
  | nil => rfl
  | cons tk tokens ih =>
      rw [List.cons_append, visitTokens, ih, visitTokens]
      dsimp only
      rw [List.cons_append, List.append_assoc]

theorem visit_tokens_none (tokens : List Token) (x : Expansion) :
    visitTokens states type text (fun _ ↦ false) tokens x = ⟨tokens, x, []⟩ := by
  induction tokens generalizing x with
  | nil => rfl
  | cons tk tokens ih =>
      rw [visitTokens, if_neg Bool.false_ne_true, ih]
      rfl

/-- The scopes around are visited as one list of tokens. -/
theorem visit_scopes_eq (scopes : List OpenScope) (x : Expansion) :
    visitTokens states type text Following (scopes.flatMap OpenScope.tokens) x =
      let w := Nest.visitScopes states type text scopes x
      ⟨w.front.flatMap OpenScope.tokens, w.expansion, w.types⟩ := by
  induction scopes generalizing x with
  | nil => rfl
  | cons scope scopes ih =>
      rw [List.flatMap_cons, visit_tokens_append]
      dsimp only
      rw [ih, Nest.visitScopes]
      rfl

/-- The scopes on the stack, where the tokens of the first one begin behind others. -/
def scopesOf : List Token → List OpenScope → List Scope
  | _, [] => []
  | before, scope :: scopes =>
      ⟨scope.mask, scope.followMask, before.length, (before ++ scope.tokens).length,
          (before ++ scope.tokens).countP Following⟩ ::
        scopesOf (before ++ scope.tokens) scopes

theorem scopes_of_concat (before : List Token) (scopes : List OpenScope) (scope : OpenScope) :
    scopesOf before (scopes ++ [scope]) =
      let front := before ++ scopes.flatMap OpenScope.tokens
      scopesOf before scopes ++ [⟨scope.mask, scope.followMask, front.length,
        (front ++ scope.tokens).length, (front ++ scope.tokens).countP Following⟩] := by
  induction scopes generalizing before with
  | nil =>
      show [_] = [] ++ [_]
      rw [List.nil_append, List.flatMap_nil, List.append_nil]
  | cons first scopes ih =>
      rw [List.cons_append, scopesOf, ih, scopesOf, List.flatMap_cons]
      dsimp only
      rw [List.append_assoc before, List.cons_append]

theorem scopes_of_length (before : List Token) (scopes : List OpenScope) :
    (scopesOf before scopes).length = scopes.length := by
  induction scopes generalizing before with
  | nil => rfl
  | cons scope scopes ih => rw [scopesOf, List.length_cons, List.length_cons, ih]

open XMLPathSelect in
/-- A visit does not change the scopes on the stack. -/
theorem scopes_of_visited {before before' : List Token} (h : Alike before before')
    (scopes : List OpenScope) (x : Expansion) :
    scopesOf before' (Nest.visitScopes states type text scopes x).front =
      scopesOf before scopes := by
  induction scopes generalizing before before' x with
  | nil => rfl
  | cons scope scopes ih =>
      have hvisit := visit_tokens_alike states type text Following scope.tokens x
      have halike := h.append hvisit
      rw [Nest.visitScopes]
      dsimp only
      rw [scopesOf, scopesOf, ih halike, h.length_eq, halike.length_eq, halike.count_eq]

open XMLPathSelect in
theorem visit_scopes_alike (scopes : List OpenScope) (x : Expansion) :
    Alike (scopes.flatMap OpenScope.tokens)
      ((Nest.visitScopes states type text scopes x).front.flatMap OpenScope.tokens) := by
  have halike : Alike _ (visitTokens states type text Following
      (scopes.flatMap OpenScope.tokens) x).front := visit_tokens_alike _ _ _ _ _ x
  rw [visit_scopes_eq] at halike
  exact halike

theorem le_visit_scopes (scopes : List OpenScope) (x : Expansion) :
    x.Le states (Nest.visitScopes states type text scopes x).expansion := by
  have hle : x.Le states (visitTokens states type text Following
      (scopes.flatMap OpenScope.tokens) x).expansion := le_visit_tokens Following _ x
  rw [visit_scopes_eq] at hle
  exact hle

end Visits

/-- The tokens of the nest are states of the automaton, and what is triggered is an output. -/
structure Nest.Lawful (states : List State) (nest : Nest) : Prop where
  token_state : ∀ tk ∈ nest.tokens, tk.stateidx < states.length
  trigger_ne : ∀ type ∈ nest.triggers, type ≠ 0

/-- What is expanded begins without tokens. -/
theorem Nest.Lawful.expansion {states : List State} {nest : Nest} (h : nest.Lawful states)
    {mask followMask : Mask} : Expansion.Lawful states ⟨mask, followMask, [], nest.triggers⟩ :=
  ⟨fun _ htk ↦ absurd htk List.not_mem_nil, h.trigger_ne⟩

/-- The arrays have room for what an item leads to. -/
structure Processed.Fits (atm : XMLPathSelectAutomaton) (p : Processed) : Prop where
  tokens_le : p.nest.tokens.length ≤ atm.maxTokens.toNat
  follows_le : p.nest.tokens.countP Following ≤ atm.maxFollows.toNat
  triggers_le : p.triggered.length ≤ atm.maxTriggers.toNat
  scopes_le : p.nest.around.length ≤ atm.maxScopeStackSize.toNat

namespace XMLPathSelect

/-! ## Representation -/

/-- The arrays hold these scopes. -/
structure Arrays (s : XMLPathSelect) (nest : Nest) : Prop where
  tokens_eq : s.tokens = nest.tokens
  follows_eq : s.follows = nest.tokens.findIdxs Following
  triggers_eq : s.triggers = nest.triggers
  scopestk_eq : s.scopestk = scopesOf [] nest.around
  mask_eq : s.context.scope.mask = nest.inner.mask
  follow_mask_eq : s.context.scope.followMask = nest.inner.followMask

/-- Where the tokens of the scope begin. Those that an open tag leads to are in its own scope. -/
def base (s : XMLPathSelect) : Nat :=
  if s.context.type = .openTag then s.context.scope.range.tokenidxTo
  else s.context.scope.range.tokenidxFrom

/-- Between two items the selection represents nested scopes. -/
structure Represents (s : XMLPathSelect) (nest : Nest) : Prop extends Arrays s nest where
  key_eq : s.context.key = none
  base_eq : base s = (nest.around.flatMap OpenScope.tokens).length

/-- From here the outputs of an item are fetched, and the selection represents the nest behind
it. -/
def Processes (atm : XMLPathSelectAutomaton) (t : XMLPathSelect) (p : Processed) : Prop :=
  ∃ s', Fetched atm t p.types s' ∧ Represents s' p.nest ∧ p.nest.Lawful atm.states

/-- An item begins to be processed. -/
def Begins (atm : XMLPathSelectAutomaton) (type : ElementType) (text : List Byte)
    (s : XMLPathSelect) (p : Processed) : Prop :=
  ∃ t, initProcessElement atm type text s = .ok ⟨⟩ t ∧
    (t.scan = s.scan ∧ t.context.key = some text) ∧ Processes atm t p

/-! ## Items -/

section Items

variable {atm : XMLPathSelectAutomaton} {s s' t : XMLPathSelect} {own : List Token}
  {x : Expansion} {text : List Byte}

/-- An item is matched as it is in nested scopes. Where the scope is closed, its own tokens are
passed over. -/
theorem fetched_matched (hordered : Ordered atm.states) (hkey : s.context.key = some text)
    (hrun : ¬ Overrun atm.states text) (scopes : List OpenScope) (closed : Bool)
    (hstate : ∀ tk ∈ scopes.flatMap OpenScope.tokens ++ own, tk.stateidx < atm.states.length)
    (hrange : s.context.scope.range = ⟨(scopes.flatMap OpenScope.tokens).length,
      (scopes.flatMap OpenScope.tokens ++ own).length,
      (scopes.flatMap OpenScope.tokens ++ own).countP Following⟩)
    (hmatching : x.mask.matching s.context.type = true) (hlawful : x.Lawful atm.states)
    {v : Visited (List Token)} {w : Visited (List OpenScope)}
    (hv : v = visitTokens atm.states s.context.type text (fun _ ↦ !closed) own x)
    (hw : w = Nest.visitScopes atm.states s.context.type text scopes v.expansion)
    (hroom : Room atm (scopes.flatMap OpenScope.tokens ++ own) w.expansion) :
    ∃ i, Fetched atm (during s (scopes.flatMap OpenScope.tokens ++ own) x
        (if closed then (scopes.flatMap OpenScope.tokens ++ own).length
          else (scopes.flatMap OpenScope.tokens).length))
      (v.types ++ w.types ++ w.expansion.triggers.reverse)
      (ended s (w.front.flatMap OpenScope.tokens ++ v.front) w.expansion i) := by
  generalize hrest : scopes.flatMap OpenScope.tokens = rest at *
  have hscopes : visitTokens atm.states s.context.type text Following rest v.expansion =
      ⟨w.front.flatMap OpenScope.tokens, w.expansion, w.types⟩ := by
    rw [← hrest, hw]
    exact visit_scopes_eq scopes v.expansion
  have hown : Alike own v.front := by
    rw [hv]
    exact visit_tokens_alike _ _ _ _ own x
  have hle : x.Le atm.states v.expansion := by
    rw [hv]
    exact le_visit_tokens _ own x
  have hle' : v.expansion.Le atm.states w.expansion := by
    rw [hw]
    exact le_visit_scopes scopes _
  have haround : Alike rest (w.front.flatMap OpenScope.tokens) := by
    rw [← hrest, hw]
    exact visit_scopes_alike scopes _
  have hboth := haround.append hown
  let last := (rest ++ own).length + rest.countP Following
  refine ⟨last, ?_⟩
  have hmatching' := hle.mask_le _ hmatching
  -- From the end on: what is triggered, the tokens that follow, and those of the scope itself.
  have htriggers : Fetched atm
      (during s (w.front.flatMap OpenScope.tokens ++ v.front) w.expansion last)
      w.expansion.triggers.reverse
      (ended s (w.front.flatMap OpenScope.tokens ++ v.front) w.expansion last) := by
    refine fetched_triggers (hle'.mask_le _ hmatching')
      (hle'.lawful (hle.lawful hlawful)).trigger_ne fun triggers ↦ pass_trigger ?_ ?_
    · rw [hrange, haround.length_eq, hboth.length_eq, hboth.count_eq]
    · show (rest ++ own).length + rest.countP Following = _
      rw [hboth.length_eq, haround.count_eq]
  have hfollows : Fetched atm (during s (rest ++ v.front) v.expansion (rest ++ own).length)
      (w.types ++ w.expansion.triggers.reverse)
      (ended s (w.front.flatMap OpenScope.tokens ++ v.front) w.expansion last) := by
    have hmiddle : Alike (rest ++ own) (rest ++ v.front) := by
      rw [Alike, List.map_append, List.map_append, hown]
    have hresult : Fetched atm (during s ([] ++ rest ++ v.front) v.expansion
        (([] ++ rest ++ v.front).length + ([] : List Token).countP Following))
        ((visitTokens atm.states s.context.type text Following rest v.expansion).types ++
          w.expansion.triggers.reverse)
        (ended s (w.front.flatMap OpenScope.tokens ++ v.front) w.expansion last) := by
      refine fetched_follows hordered hkey hrun
        (fun tk htk ↦ hstate tk (List.mem_append_left _ htk)) ?_ hmatching' ?_ ?_
      · rw [hrange, List.nil_append, hmiddle.length_eq, hmiddle.count_eq]
      · rw [hscopes, List.nil_append]
        exact hroom.alike hmiddle
      · rw [hscopes, List.nil_append, List.nil_append, ← hmiddle.length_eq]
        exact htriggers
    rw [hscopes, List.nil_append, ← hmiddle.length_eq] at hresult
    exact hresult
  rw [List.append_assoc]
  cases closed with
  | true =>
      rw [Bool.not_true, visit_tokens_none] at hv
      rw [hv] at hfollows ⊢
      exact hfollows
  | false =>
      rw [Bool.not_false] at hv
      rw [hv] at hfollows ⊢
      refine fetched_own hordered hkey hrun
        (fun tk htk ↦ hstate tk (List.mem_append_right _ htk)) (by rw [hrange]) hmatching ?_
        hfollows
      rw [← hv]
      exact hroom.mono hle'

theorem eq_during {front : List Token} (htokens : s.tokens = front ++ x.tokens)
    (hfollows : s.follows = s.tokens.findIdxs Following) (htriggers : s.triggers = x.triggers)
    (hmask : s.context.scope.mask = x.mask) (hfollow : s.context.scope.followMask = x.followMask) :
    s = during s front x s.context.scopeIter := by
  rw [during, ← htokens, ← hfollows, ← htriggers, ← hmask, ← hfollow]

/-- An item is matched, and the selection represents the nest behind it. -/
theorem fetched_processed (hordered : Ordered atm.states) (hkey : s.context.key = some text)
    (hrun : ¬ Overrun atm.states text) (scopes : List OpenScope) (closed : Bool)
    (hstate : ∀ tk ∈ scopes.flatMap OpenScope.tokens ++ own, tk.stateidx < atm.states.length)
    (hrange : s.context.scope.range = ⟨(scopes.flatMap OpenScope.tokens).length,
      (scopes.flatMap OpenScope.tokens ++ own).length,
      (scopes.flatMap OpenScope.tokens ++ own).countP Following⟩)
    (hiter : s.context.scopeIter = if closed then (scopes.flatMap OpenScope.tokens ++ own).length
      else (scopes.flatMap OpenScope.tokens).length)
    (hmatching : x.mask.matching s.context.type = true) (hlawful : x.Lawful atm.states)
    (hsame : s = during s (scopes.flatMap OpenScope.tokens ++ own) x s.context.scopeIter)
    {v : Visited (List Token)} {w : Visited (List OpenScope)} {p : Processed}
    (hv : v = visitTokens atm.states s.context.type text (fun _ ↦ !closed) own x)
    (hw : w = Nest.visitScopes atm.states s.context.type text scopes v.expansion)
    (htokens : p.nest.tokens = w.front.flatMap OpenScope.tokens ++ v.front ++ w.expansion.tokens)
    (hmatched : p.matched = v.types ++ w.types) (htriggered : p.triggered = w.expansion.triggers)
    (htriggers : p.nest.triggers = []) (hmask : p.nest.inner.mask = w.expansion.mask)
    (hfollow : p.nest.inner.followMask = w.expansion.followMask)
    (hscopestk : s.scopestk = scopesOf [] p.nest.around)
    (hbase : base s = (p.nest.around.flatMap OpenScope.tokens).length) (hfits : p.Fits atm) :
    Processes atm s p := by
  have halike : Alike (scopes.flatMap OpenScope.tokens ++ own)
      (w.front.flatMap OpenScope.tokens ++ v.front) := by
    rw [hw, hv]
    exact (visit_scopes_alike scopes _).append (visit_tokens_alike _ _ _ _ own x)
  have hle : x.Le atm.states w.expansion := by
    rw [hw, hv]
    exact (le_visit_tokens _ own x).trans (le_visit_scopes scopes _)
  have hroom : Room atm (w.front.flatMap OpenScope.tokens ++ v.front) w.expansion :=
    ⟨htokens ▸ hfits.tokens_le, htokens ▸ hfits.follows_le, htriggered ▸ hfits.triggers_le⟩
  obtain ⟨i, hfetched⟩ := fetched_matched hordered hkey hrun scopes closed hstate hrange hmatching
    hlawful hv hw (hroom.alike halike.symm)
  rw [← hiter, ← hsame, ← hmatched, ← htriggered] at hfetched
  refine ⟨_, hfetched,
    ⟨⟨htokens.symm, ?_, htriggers.symm, hscopestk, hmask.symm, hfollow.symm⟩, rfl, hbase⟩, ?_, ?_⟩
  · rw [htokens]
    rfl
  · intro tk htk
    rw [htokens] at htk
    rcases List.mem_append.mp htk with htk | htk
    · exact halike.state_lt hstate tk htk
    · exact (hle.lawful hlawful).token_state tk htk
  · rw [htriggers]
    exact fun type htype ↦ absurd htype List.not_mem_nil

variable {nest : Nest} {type : ElementType}

/-- An item is matched in a scope that is not opened by it. -/
theorem fetched_item (hordered : Ordered atm.states) (hkey : s.context.key = some text)
    (hrun : ¬ Overrun atm.states text) (closed : Bool) (htype : s.context.type ≠ .openTag)
    (h : Arrays s nest) (hlawful : nest.Lawful atm.states)
    (hrange : s.context.scope.range = ⟨(nest.around.flatMap OpenScope.tokens).length,
      nest.tokens.length, nest.tokens.countP Following⟩)
    (hiter : s.context.scopeIter = if closed then nest.tokens.length
      else (nest.around.flatMap OpenScope.tokens).length)
    (hfits : (nest.matchItem atm.states s.context.type text closed).Fits atm) :
    Processes atm s (nest.matchItem atm.states s.context.type text closed) := by
  have hbase : base s = (nest.around.flatMap OpenScope.tokens).length := by
    rw [base, if_neg htype, hrange]
  rw [Nest.matchItem] at hfits ⊢
  -- An item that the mask does not ask for is done at once.
  by_cases hmatching : nest.inner.mask.matching s.context.type = true
  · rw [if_pos hmatching] at hfits ⊢
    refine fetched_processed hordered hkey hrun nest.around closed hlawful.token_state hrange hiter
      hmatching hlawful.expansion ?_ rfl rfl ?_ rfl rfl rfl rfl rfl ?_ ?_ hfits
    · refine eq_during ?_ ?_ h.triggers_eq h.mask_eq h.follow_mask_eq
      · rw [List.append_nil]
        exact h.tokens_eq
      · rw [h.follows_eq, h.tokens_eq]
    · exact (List.append_assoc _ _ _).symm
    · rw [h.scopestk_eq]
      exact (scopes_of_visited rfl nest.around _).symm
    · exact hbase.trans (visit_scopes_alike nest.around _).length_eq
  · rw [if_neg hmatching]
    have hnot : ¬ s.context.scope.mask.matching s.context.type = true := by
      rw [h.mask_eq]
      exact hmatching
    have hfetch : fetch atm s = .ok 0 { s with context := { s.context with key := none } } := by
      rw [fetch, bind_look, if_neg hnot]
      rfl
    exact ⟨_, .done hfetch rfl,
      ⟨⟨h.tokens_eq, h.follows_eq, h.triggers_eq, h.scopestk_eq, h.mask_eq, h.follow_mask_eq⟩, rfl,
        hbase⟩, hlawful⟩

theorem Represents.range_eq (h : Represents s nest) (type : ElementType) (key : List Byte) :
    (initContext s type key).context.scope.range =
      ⟨(nest.around.flatMap OpenScope.tokens).length, nest.tokens.length,
        nest.tokens.countP Following⟩ := by
  show ScopeRange.mk (base s) s.tokens.length s.follows.length = _
  rw [h.base_eq, h.tokens_eq, h.follows_eq, List.length_findIdxs]

theorem Represents.iter_eq (h : Represents s nest) (type : ElementType) (key : List Byte) :
    (initContext s type key).context.scopeIter =
      (nest.around.flatMap OpenScope.tokens).length := h.base_eq

/-- A tag that is opened begins a scope. -/
theorem open_tag (hordered : Ordered atm.states) (hrun : ¬ Overrun atm.states text)
    (h : Represents s nest) (hlawful : nest.Lawful atm.states)
    (hfits : (nest.openTag atm.states text).Fits atm) :
    Begins atm .openTag text s (nest.openTag atm.states text) := by
  let own := visitTokens atm.states .openTag text (fun _ ↦ true) nest.inner.tokens
    ⟨nest.inner.followMask.seek .openTag, nest.inner.followMask, [], nest.triggers⟩
  let scopes := Nest.visitScopes atm.states .openTag text nest.around own.expansion
  have hopen : nest.openTag atm.states text =
      ⟨⟨scopes.front ++ [{ nest.inner with tokens := own.front }],
        ⟨scopes.expansion.mask, scopes.expansion.followMask, scopes.expansion.tokens⟩, []⟩,
        own.types ++ scopes.types, scopes.expansion.triggers⟩ := rfl
  -- The scope goes to the stack with its own mask, and the new mask replaces it.
  let s₁ := initContext s .openTag text
  let scope : Scope := s₁.context.scope
  let t : XMLPathSelect := { s₁ with
    scopestk := s.scopestk ++ [scope]
    context := { s₁.context with
      scope := { scope with mask := scope.followMask.seek .openTag } } }
  have hrange : t.context.scope.range = ⟨(nest.around.flatMap OpenScope.tokens).length,
      nest.tokens.length, nest.tokens.countP Following⟩ := h.range_eq .openTag text
  have hscope : scope = ⟨nest.inner.mask, nest.inner.followMask,
      (nest.around.flatMap OpenScope.tokens).length, nest.tokens.length,
      nest.tokens.countP Following⟩ := by
    show Scope.mk s.context.scope.mask s.context.scope.followMask _ = _
    rw [h.mask_eq, h.follow_mask_eq]
    exact congrArg _ hrange
  have hpush : Member.scopestk.pushBack atm.maxScopeStackSize scope s₁ =
      .ok ⟨⟩ { s₁ with scopestk := s.scopestk ++ [scope] } := by
    refine if_neg ?_
    show ¬ s.scopestk.length = atm.maxScopeStackSize.toNat
    have hscopes := hfits.scopes_le
    have hlength : scopes.front.length = nest.around.length := by
      rw [← scopes_of_length [] scopes.front, scopes_of_visited rfl, scopes_of_length]
    rw [hopen] at hscopes
    dsimp only at hscopes
    rw [List.length_append, List.length_singleton, hlength] at hscopes
    rw [h.scopestk_eq, scopes_of_length]
    omega
  have hopened : openScope atm s₁ = .ok ⟨⟩ t := by
    rw [openScope, bind_look, bind_ok hpush]
    rfl
  have hinit : initProcessElement atm .openTag text s = .ok ⟨⟩ t := by
    rw [initProcessElement, bind_alter, if_pos rfl]
    exact hopened
  have haround : Alike (nest.around.flatMap OpenScope.tokens)
      (scopes.front.flatMap OpenScope.tokens) := visit_scopes_alike nest.around _
  have halike : Alike nest.tokens (scopes.front.flatMap OpenScope.tokens ++ own.front) :=
    haround.append (visit_tokens_alike _ _ _ _ _ _)
  rw [hopen] at hfits ⊢
  have hkey : t.context.key = some text := rfl
  refine ⟨t, hinit, ⟨rfl, hkey⟩, ?_⟩
  refine fetched_processed hordered hkey hrun nest.around false hlawful.token_state hrange
    (h.iter_eq .openTag text) (Mask.matching_seek _ .openTag) hlawful.expansion ?_ rfl rfl ?_ rfl
    rfl rfl rfl rfl ?_ ?_ hfits
  · refine eq_during ?_ ?_ h.triggers_eq ?_ h.follow_mask_eq
    · rw [List.append_nil]
      exact h.tokens_eq
    · show s.follows = s.tokens.findIdxs Following
      rw [h.follows_eq, h.tokens_eq]
    · show s.context.scope.followMask.seek .openTag = _
      rw [h.follow_mask_eq]
  · show (scopes.front ++ [_]).flatMap OpenScope.tokens ++ _ = _
    rw [List.flatMap_append, List.flatMap_singleton]
    rfl
  · show s.scopestk ++ [scope] = scopesOf [] (scopes.front ++ [_])
    rw [scopes_of_concat, scopes_of_visited rfl, h.scopestk_eq, hscope]
    dsimp only
    rw [List.nil_append, ← haround.length_eq, ← halike.length_eq, ← halike.count_eq]
  · show t.context.scope.range.tokenidxTo = ((scopes.front ++ [_]).flatMap OpenScope.tokens).length
    rw [List.flatMap_append, List.flatMap_singleton, ← halike.length_eq]
    exact congrArg ScopeRange.tokenidxTo hrange

/-- The scope that is closed stands behind the one around it. -/
theorem tokens_of_close {outer : Nest} (h : nest.close = some outer) :
    nest.around = outer.around ++ [outer.inner] ∧ outer.triggers = nest.triggers ∧
      nest.tokens = outer.tokens ++ nest.inner.tokens := by
  rcases List.eq_nil_or_concat' nest.around with hnil | ⟨scopes, scope, hconcat⟩
  · rw [Nest.close, hnil] at h
    cases h
  · rw [Nest.close, hconcat, List.getLast?_concat, List.dropLast_concat] at h
    cases h
    refine ⟨hconcat, rfl, ?_⟩
    rw [Nest.tokens, hconcat, List.flatMap_append, List.flatMap_singleton]
    rfl

/-- The last scope on the stack is restored, and the arrays end where it says. -/
theorem close_scope_restores {scopes : List Scope} {scope : Scope} {follows back : List Nat}
    {tokens more : List Token} (hstack : s.scopestk = scopes ++ [scope])
    (hfollows : s.follows = follows ++ back) (hfollowidx : follows.length = scope.range.followidx)
    (htokens : s.tokens = tokens ++ more) (hto : tokens.length = scope.range.tokenidxTo) :
    closeScope s = .ok ⟨⟩ { s with
      scopestk := scopes
      follows := follows
      tokens := tokens
      context := { s.context with scope := scope } } := by
  have hne : s.scopestk ≠ [] := by
    rw [hstack]
    exact List.append_ne_nil_of_right_ne_nil _ (List.cons_ne_nil _ _)
  have hback : Member.scopestk.back s = .ok scope s :=
    Member.back_of ((congrArg List.getLast? hstack).trans List.getLast?_concat)
  let s₁ : XMLPathSelect := { s with context := { s.context with scope := scope } }
  have hpop : Member.scopestk.popBack s₁ = .ok ⟨⟩ { s₁ with scopestk := scopes } := by
    refine (if_neg hne).trans ?_
    show EStateM.Result.ok PUnit.unit { s₁ with scopestk := s.scopestk.dropLast } = _
    rw [hstack, List.dropLast_concat]
  let s₂ : XMLPathSelect := { s₁ with scopestk := scopes }
  have hresize : Member.follows.resize scope.range.followidx s₂ =
      .ok ⟨⟩ { s₂ with follows := follows } := by
    have hle : ¬ s.follows.length < scope.range.followidx := by
      rw [hfollows, List.length_append]
      omega
    refine (if_neg hle).trans ?_
    show EStateM.Result.ok PUnit.unit { s₂ with follows := s.follows.take _ } = _
    rw [hfollows, List.take_left' hfollowidx]
  let s₃ : XMLPathSelect := { s₂ with follows := follows }
  have hresize' : Member.tokens.resize scope.range.tokenidxTo s₃ =
      .ok ⟨⟩ { s₃ with tokens := tokens } := by
    have hle : ¬ s.tokens.length < scope.range.tokenidxTo := by
      rw [htokens, List.length_append]
      omega
    refine (if_neg hle).trans ?_
    show EStateM.Result.ok PUnit.unit { s₃ with tokens := s.tokens.take _ } = _
    rw [htokens, List.take_left' hto]
  rw [closeScope, bind_look, if_pos hne, bind_ok hback, setScope, bind_alter]
  rw [bind_ok hpop, bind_ok hresize, hresize']

/-- A tag that is closed restores the scope around it. -/
theorem close_tag (atm : XMLPathSelectAutomaton) (text : List Byte) (h : Represents s nest)
    {outer : Nest} (hclose : nest.close = some outer)
    (htype : type = .closeTag ∨ type = .closeTagIm) :
    ∃ t, initProcessElement atm type text s = .ok ⟨⟩ t ∧
      (t.scan = s.scan ∧ t.context.key = some text ∧ t.context.type = type) ∧ Arrays t outer ∧
      t.context.scope.range = ⟨(outer.around.flatMap OpenScope.tokens).length,
        outer.tokens.length, outer.tokens.countP Following⟩ ∧
      t.context.scopeIter = outer.tokens.length := by
  obtain ⟨haround, htriggers, htokens⟩ := tokens_of_close hclose
  let s₁ := initContext s type text
  let scope : Scope := ⟨outer.inner.mask, outer.inner.followMask,
    (outer.around.flatMap OpenScope.tokens).length, outer.tokens.length,
    outer.tokens.countP Following⟩
  have hstack : s₁.scopestk = scopesOf [] outer.around ++ [scope] := by
    show s.scopestk = _
    rw [h.scopestk_eq, haround, scopes_of_concat]
    rfl
  have hidxs : s₁.follows = outer.tokens.findIdxs Following ++
      nest.inner.tokens.findIdxs Following outer.tokens.length := by
    show s.follows = _
    rw [h.follows_eq, htokens, List.findIdxs_append, Nat.zero_add]
  have hclosed := close_scope_restores hstack hidxs List.length_findIdxs
    (h.tokens_eq.trans htokens) rfl
  have hnot : type ≠ .openTag := by rcases htype with rfl | rfl <;> decide
  have hinit : initProcessElement atm type text s = closeScope s₁ := by
    rw [initProcessElement, bind_alter, if_neg hnot, if_pos htype]
  refine ⟨_, hinit.trans hclosed, ⟨rfl, rfl, rfl⟩,
    ⟨rfl, rfl, h.triggers_eq.trans htriggers.symm, rfl, rfl, rfl⟩, rfl, ?_⟩
  show s₁.context.scopeIter = _
  rw [h.iter_eq, haround, List.flatMap_append, List.flatMap_singleton]
  rfl

/-- An item is processed as it is in nested scopes. -/
theorem item_represents (hordered : Ordered atm.states) (hrun : ¬ Overrun atm.states text)
    (h : Represents s nest) (hlawful : nest.Lawful atm.states)
    (hfits : (nest.item atm.states type text).Fits atm) :
    Begins atm type text s (nest.item atm.states type text) := by
  rw [Nest.item] at hfits ⊢
  by_cases hopen : type = .openTag
  · subst hopen
    rw [if_pos rfl] at hfits ⊢
    exact open_tag hordered hrun h hlawful hfits
  · rw [if_neg hopen] at hfits ⊢
    have hstays (hinit : initProcessElement atm type text s = .ok ⟨⟩ (initContext s type text))
        (hfits : (nest.matchItem atm.states type text false).Fits atm) :
        Begins atm type text s (nest.matchItem atm.states type text false) := by
      have harrays : Arrays (initContext s type text) nest :=
        ⟨h.tokens_eq, h.follows_eq, h.triggers_eq, h.scopestk_eq, h.mask_eq, h.follow_mask_eq⟩
      exact ⟨_, hinit, ⟨rfl, rfl⟩, fetched_item hordered rfl hrun false hopen harrays hlawful
        (h.range_eq type text) (h.iter_eq type text) hfits⟩
    by_cases htype : type = .closeTag ∨ type = .closeTagIm
    · rw [if_pos htype] at hfits ⊢
      cases hclose : nest.close with
      | some outer =>
          rw [hclose] at hfits
          dsimp only at hfits ⊢
          obtain ⟨t, hinit, ⟨hscan, hkey, rfl⟩, harrays, hrange, hiter⟩ :=
            close_tag atm text h hclose htype
          obtain ⟨-, htriggers, htokens⟩ := tokens_of_close hclose
          have hlawful' : outer.Lawful atm.states := by
            refine ⟨fun tk htk ↦ hlawful.token_state tk ?_, ?_⟩
            · rw [htokens]
              exact List.mem_append_left _ htk
            · rw [htriggers]
              exact hlawful.trigger_ne
          exact ⟨t, hinit, ⟨hscan, hkey⟩, fetched_item hordered hkey hrun true hopen harrays
            hlawful' hrange hiter hfits⟩
      | none =>
          rw [hclose] at hfits
          dsimp only at hfits ⊢
          refine hstays ?_ hfits
          have hnil : ¬ (initContext s type text).scopestk ≠ [] := by
            refine not_not_intro ?_
            show s.scopestk = []
            rcases List.eq_nil_or_concat' nest.around with hnil | ⟨scopes, scope, hconcat⟩
            · rw [h.scopestk_eq, hnil]
              rfl
            · rw [Nest.close, hconcat, List.getLast?_concat] at hclose
              cases hclose
          have hclosed : closeScope (initContext s type text) =
              .ok ⟨⟩ (initContext s type text) := by
            rw [closeScope, bind_look, if_neg hnil]
            rfl
          rw [initProcessElement, bind_alter, if_neg hopen, if_pos htype, hclosed]
    · rw [if_neg htype] at hfits ⊢
      refine hstays ?_ hfits
      rw [initProcessElement, bind_alter, if_neg hopen, if_neg htype]
      rfl

/-- The constructor expands the first state. -/
theorem construct_represents (hordered : Ordered atm.states) (scan : XMLScanner)
    (hfits : (Processed.mk (.construct atm.states) [] (Nest.construct atm.states).triggers).Fits
      atm) :
    ∃ s, construct atm scan = .ok ⟨⟩ s ∧ s.scan = scan ∧
      Represents s (.construct atm.states) ∧ (Nest.construct atm.states).Lawful atm.states := by
  let s₀ : XMLPathSelect :=
    ⟨scan, [], [], [], [], ⟨.content, none, ⟨.zero, .zero, ⟨0, 0, 0⟩⟩, 0⟩⟩
  let x₀ : Expansion := ⟨.zero, .zero, [], []⟩
  have hlawful : x₀.Lawful atm.states :=
    ⟨fun tk htk ↦ absurd htk List.not_mem_nil, fun type htype ↦ absurd htype List.not_mem_nil⟩
  by_cases hstates : atm.states ≠ []
  · let x := x₀.expand atm.states (some 0)
    have hnest : Nest.construct atm.states =
        ⟨[], ⟨x.mask, x.followMask, x.tokens⟩, x.triggers⟩ := by
      rw [Nest.construct, if_pos hstates]
    rw [hnest] at hfits ⊢
    have hfirst (idx : Nat) (hidx : some 0 = some idx) : idx < atm.states.length := by
      obtain rfl := Option.some.inj hidx
      exact List.length_pos_iff.mpr hstates
    have hexpand : expand atm (some 0) (during s₀ [] x₀ 0) = .ok ⟨⟩ (during s₀ [] x 0) :=
      expand_during hordered hfirst ⟨hfits.tokens_le, hfits.follows_le, hfits.triggers_le⟩
    have hle := x₀.le_expand atm.states (some 0)
    refine ⟨during s₀ [] x 0, (if_pos hstates).trans hexpand, rfl,
      ⟨⟨rfl, rfl, rfl, rfl, rfl, rfl⟩, rfl, rfl⟩, ?_, ?_⟩
    · exact (hle.lawful hlawful).token_state
    · exact (hle.lawful hlawful).trigger_ne
  · have hnest : Nest.construct atm.states = ⟨[], ⟨.zero, .zero, []⟩, []⟩ := by
      rw [Nest.construct, if_neg hstates]
    rw [hnest]
    exact ⟨s₀, if_neg hstates, rfl, ⟨⟨rfl, rfl, rfl, rfl, rfl, rfl⟩, rfl, rfl⟩,
      hlawful.token_state, hlawful.trigger_ne⟩

end Items

end XMLPathSelect

/-! ## Elements -/

/-- The element at the end of the input, where tags may still be open. -/
structure Selected.AtEnd (isOpen : Bool) (element : Selected) : Prop where
  state_eq : element.state = if isOpen then .errorState else .endOfInput
  content_eq : isOpen = true → element.content = .error .errUnexpectedEndOfInput

/-- The text of an item in the character set of the output. -/
def printed (cfg : Setup) (item : Item) : ElementType × List Byte :=
  (item.1, cfg.outputCharSet.encode item.2)

/-- The arrays have room for what the items lead to, and no text goes on behind the key of a
state. -/
def Nest.Suits (atm : XMLPathSelectAutomaton) : List (ElementType × List Byte) → Nest → Prop
  | [], _ => True
  | (type, bytes) :: items, nest => type ≠ .exit →
      ¬ Overrun atm.states (nest.read type bytes) ∧
        (nest.item atm.states type (nest.read type bytes)).Fits atm ∧
        Suits atm items (nest.item atm.states type (nest.read type bytes)).nest

instance (states : List State) (text : List Byte) : Decidable (Overrun states text) :=
  decidable_of_iff (∃ st ∈ states, ∃ key ∈ st.key, key <+: text ∧ key ≠ text)
    (exists_congr fun _ ↦ and_congr_right fun _ ↦ exists_congr fun _ ↦
      and_congr_left fun _ ↦ Option.mem_def)

instance (atm : XMLPathSelectAutomaton) (p : Processed) : Decidable (p.Fits atm) :=
  decidable_of_iff (p.nest.tokens.length ≤ atm.maxTokens.toNat ∧
      p.nest.tokens.countP Following ≤ atm.maxFollows.toNat ∧
      p.triggered.length ≤ atm.maxTriggers.toNat ∧
      p.nest.around.length ≤ atm.maxScopeStackSize.toNat)
    ⟨fun ⟨htokens, hfollows, htriggers, hscopes⟩ ↦ ⟨htokens, hfollows, htriggers, hscopes⟩,
      fun h ↦ ⟨h.tokens_le, h.follows_le, h.triggers_le, h.scopes_le⟩⟩

/-- Whether a selection suits is found out item by item. -/
def Nest.decideSuits (atm : XMLPathSelectAutomaton) :
    (items : List (ElementType × List Byte)) → (nest : Nest) → Decidable (nest.Suits atm items)
  | [], _ => .isTrue trivial
  | (type, bytes) :: items, nest =>
      have := decideSuits atm items (nest.item atm.states type (nest.read type bytes)).nest
      inferInstanceAs (Decidable (type ≠ .exit → _ ∧ _ ∧ _))

instance (atm : XMLPathSelectAutomaton) (items : List (ElementType × List Byte)) (nest : Nest) :
    Decidable (nest.Suits atm items) := nest.decideSuits atm items

namespace SelectIterator

/-- The elements of the iterator from each step to the next, up to the end of the input. -/
inductive Selects (cfg : Setup) (atm : XMLPathSelectAutomaton) :
    SelectIterator → List (Int × List Byte) → Bool → Prop where
  | ended {itr itr' : SelectIterator} {isOpen : Bool} (hskip : skip cfg atm itr = .ok ⟨⟩ itr')
      (helement : itr'.element.AtEnd isOpen) : Selects cfg atm itr [] isOpen
  | more {itr itr' : SelectIterator} {type : Int} {text : List Byte}
      {elements : List (Int × List Byte)} {isOpen : Bool} (hskip : skip cfg atm itr = .ok ⟨⟩ itr')
      (helement : itr'.element = ⟨.ok, type, .text text, text.length⟩)
      (hrest : Selects cfg atm itr' elements isOpen) :
      Selects cfg atm itr ((type, text) :: elements) isOpen

section Steps

variable {cfg : Setup} {atm : XMLPathSelectAutomaton} {itr itr' : SelectIterator}
  {s t t' : XMLPathSelect} {scan : XMLScanner} {kind : ElementType} {text : List Byte}
  {type : Int} {elements : List (Int × List Byte)} {isOpen : Bool}

/-- A pass of `skip` without an element. -/
theorem Selects.again (hpass : skipPass cfg atm itr = .ok none itr')
    (hless : passes itr' < passes itr) (h : Selects cfg atm itr' elements isOpen) :
    Selects cfg atm itr elements isOpen := by
  cases h with
  | ended hskip helement =>
      exact .ended (skip_ok.mpr (loop_smaller hpass hless (skip_ok.mp hskip))) helement
  | more hskip helement hrest =>
      exact .more (skip_ok.mpr (loop_smaller hpass hless (skip_ok.mp hskip))) helement hrest

/-- An item that is read begins to be processed. -/
theorem next_element_item (hkey : s.context.key = none)
    (hitem : XMLScanner.nextItem cfg s.context.scope.mask.pos s.scan = .ok kind scan)
    (hexit : kind ≠ .exit) (herror : kind ≠ .errorOccurred)
    (hinit : XMLPathSelect.initProcessElement atm kind scan.item { s with scan := scan } =
      .ok ⟨⟩ t) :
    nextElement cfg atm s = .ok none t := by
  have hscan : XMLPathSelect.onScan (XMLScanner.nextItem cfg s.context.scope.mask.pos) s =
      .ok kind { s with scan := scan } := by rw [XMLPathSelect.onScan, hitem]
  rw [nextElement, bind_look, hkey]
  dsimp only
  rw [bind_ok hscan, if_neg hexit, if_neg herror, bind_look, bind_ok hinit]
  rfl

theorem next_element_end (hkey : s.context.key = none)
    (hitem : XMLScanner.nextItem cfg s.context.scope.mask.pos s.scan = .ok .exit scan) :
    nextElement cfg atm s = .ok (some (if s.scopestk = [] then (.endOfInput, none)
      else (.errorState, some .errUnexpectedEndOfInput))) { s with scan := scan } := by
  have hscan : XMLPathSelect.onScan (XMLScanner.nextItem cfg s.context.scope.mask.pos) s =
      .ok .exit { s with scan := scan } := by rw [XMLPathSelect.onScan, hitem]
  rw [nextElement, bind_look, hkey]
  dsimp only
  rw [bind_ok hscan, if_pos rfl]
  rfl

/-- A pass of `skip` that fetches an output, or none. -/
theorem skip_pass_fetched (hnext : nextElement cfg atm itr.input = .ok none t)
    (hfetch : XMLPathSelect.fetch atm t = .ok type t') (htext : t'.context.key.getD [] = text) :
    skipPass cfg atm itr = if type = 0 then .ok none ⟨t', { itr.element with type := 0 }⟩
      else .ok (some ⟨⟩) ⟨t', ⟨itr.element.state, type, .text text, text.length⟩⟩ := by
  have hfirst : onInput (nextElement cfg atm) itr = .ok none { itr with input := t } := by
    rw [onInput, hnext]
  have hsecond : onInput (XMLPathSelect.fetch atm) { itr with input := t } =
      .ok type { itr with input := t' } := by rw [onInput, hfetch]
  rw [skipPass, bind_ok hfirst]
  dsimp only
  rw [bind_ok hsecond, setElement, bind_alter]
  by_cases htype : type = 0
  · rw [if_pos htype, if_pos htype, htype]
    rfl
  · rw [if_neg htype, if_neg htype]
    refine (bind_look _ _).trans ?_
    rw [htext]
    rfl

/-- The outputs of an item are elements with its text. -/
theorem selects_fetched {types : List Int} (h : XMLPathSelect.Fetched atm t types s)
    (hstate : itr.element.state = .ok) (hnext : nextElement cfg atm itr.input = .ok none t)
    (hkey : t.context.key = some text) (hless : 2 * t.scan.left < passes itr)
    (hend : s.context.key = none)
    (hrest : ∀ itr', itr'.input = s → itr'.element.state = .ok →
      Selects cfg atm itr' elements isOpen) :
    Selects cfg atm itr (types.map (fun type ↦ (type, text)) ++ elements) isOpen := by
  induction h generalizing itr with
  | done hfetch hscan =>
      have hpass := (skip_pass_fetched hnext hfetch rfl).trans (if_pos rfl)
      refine .again hpass ?_ (hrest _ rfl hstate)
      rw [passes, hend, hscan]
      exact hless
  | more hfetch hne hscan hkey' _ ih =>
      have hgetd := congrArg (Option.getD · []) (hkey'.trans hkey)
      have hpass := (skip_pass_fetched hnext hfetch hgetd).trans (if_neg hne)
      rw [hstate] at hpass
      have hskip := skip_ok.mpr (bind_ok hpass)
      refine .more hskip rfl (ih ?_ ?_ (hkey'.trans hkey) ?_ hend hrest)
      · rfl
      · refine (bind_look _ _).trans ?_
        rw [hkey', hkey]
        rfl
      · rw [passes, hkey', hkey]
        exact Nat.lt_succ_self _

/-- The end of the input. -/
theorem selects_end {nest : Nest} (h : XMLPathSelect.Represents itr.input nest)
    (hitem : XMLScanner.nextItem cfg itr.input.context.scope.mask.pos itr.input.scan =
      .ok .exit scan) :
    Selects cfg atm itr [] !nest.around.isEmpty := by
  have hnext : onInput (nextElement cfg atm) itr =
      .ok (some (if itr.input.scopestk = [] then (.endOfInput, none)
        else (.errorState, some .errUnexpectedEndOfInput)))
      { itr with input := { itr.input with scan := scan } } := by
    rw [onInput, next_element_end h.key_eq hitem]
  have hpass {state : SelectState} {err : Option Error}
      (hnext : onInput (nextElement cfg atm) itr =
        .ok (some (state, err)) { itr with input := { itr.input with scan := scan } }) :
      skipPass cfg atm itr = .ok (some ⟨⟩)
        ⟨{ itr.input with scan := scan }, Selected.ended itr.element state err⟩ :=
    (bind_ok hnext).trans ((bind_alter _ _).trans rfl)
  by_cases hscopes : itr.input.scopestk = []
  · rw [if_pos hscopes] at hnext
    have hnil : nest.around = [] := by
      rw [← List.length_eq_zero_iff, ← scopes_of_length [] nest.around, ← h.scopestk_eq, hscopes]
      rfl
    rw [hnil]
    have hskip := skip_ok.mpr (bind_ok (hpass hnext))
    exact .ended hskip ⟨rfl, fun hopen ↦ absurd hopen Bool.false_ne_true⟩
  · rw [if_neg hscopes] at hnext
    have hopen : nest.around.isEmpty = false := by
      refine Bool.eq_false_iff.mpr fun hempty ↦ hscopes ?_
      rw [h.scopestk_eq, List.isEmpty_iff.mp hempty]
      rfl
    rw [hopen]
    have hskip := skip_ok.mpr (bind_ok (hpass hnext))
    exact .ended hskip ⟨rfl, fun _ ↦ rfl⟩

/-- The iterator gives what nested scopes select from the items of the scanner. -/
theorem selects_items (hordered : Ordered atm.states) {items : List Item} {nest : Nest}
    (hstate : itr.element.state = .ok) (h : XMLPathSelect.Represents itr.input nest)
    (hlawful : nest.Lawful atm.states)
    (hyields : XMLScanner.Yields cfg (fun _ ↦ True) items itr.input.scan)
    (hexit : ∃ item ∈ items, item.1 = .exit) (herror : ∀ item ∈ items, item.1 ≠ .errorOccurred)
    (hsuits : nest.Suits atm (items.map (printed cfg))) :
    Selects cfg atm itr (nest.select atm.states (items.map (printed cfg))).1
      (nest.select atm.states (items.map (printed cfg))).2 := by
  induction items generalizing itr nest with
  | nil =>
      obtain ⟨item, hitem, -⟩ := hexit
      cases hitem
  | cons item items ih =>
      obtain ⟨kind, codes⟩ := item
      obtain ⟨scan, hitem, ⟨htext, -⟩, hrest⟩ := hyields itr.input.context.scope.mask.pos
      rw [List.map_cons, printed, Nest.select]
      by_cases hkind : kind = .exit
      · subst hkind
        rw [if_pos rfl]
        exact selects_end h hitem
      · -- The scanner reads the text only if the mask asks for it, and so does the nest.
        rw [if_neg hkind]
        dsimp only
        let text := nest.read kind (cfg.outputCharSet.encode codes)
        obtain ⟨hrun, hfits, hsuits'⟩ : ¬ Overrun atm.states text ∧
          (nest.item atm.states kind text).Fits atm ∧
            (nest.item atm.states kind text).nest.Suits atm (items.map (printed cfg)) :=
          hsuits hkind
        have hread : scan.item = text := by
          rw [htext, h.mask_eq]
          show cfg.outputCharSet.encode (if inMask _ kind then codes else []) =
            if inMask _ kind then cfg.outputCharSet.encode codes else []
          split_ifs <;> rfl
        have hnot : kind ≠ .errorOccurred := herror _ List.mem_cons_self
        have hscanned : XMLPathSelect.Represents { itr.input with scan := scan } nest :=
          ⟨⟨h.tokens_eq, h.follows_eq, h.triggers_eq, h.scopestk_eq, h.mask_eq, h.follow_mask_eq⟩,
            h.key_eq, h.base_eq⟩
        obtain ⟨t, hinit, ⟨hscan, hkey⟩, s', hfetched, hrepresents, hlawful'⟩ :=
          XMLPathSelect.item_represents hordered hrun hscanned hlawful hfits
        rw [← hread] at hinit
        have hless : 2 * t.scan.left < passes itr := by
          rw [hscan, passes, h.key_eq]
          rcases XMLScanner.next_item_consumes hitem with hexit | herr | hless
          · exact absurd hexit hkind
          · exact absurd herr hnot
          · exact Nat.mul_lt_mul_of_pos_left hless Nat.two_pos
        refine selects_fetched hfetched hstate
          (next_element_item h.key_eq hitem hkind hnot hinit) hkey hless hrepresents.key_eq ?_
        rintro itr' rfl hstate'
        refine ih hstate' hrepresents hlawful' ?_ ?_ ?_ hsuits'
        · rw [hfetched.scan_eq, hscan]
          exact hrest
        · obtain ⟨other, hother, hlast⟩ := hexit
          rcases List.mem_cons.mp hother with rfl | hother
          · exact absurd hlast hkind
          · exact ⟨other, hother, hlast⟩
        · exact fun other hother ↦ herror other (List.mem_cons_of_mem _ hother)

end Steps

/-- The iterator gives what nested scopes select from the items of a document. -/
theorem selects_document {cfg : Setup} {atm : XMLPathSelectAutomaton} {boundIn boundOut : Nat}
    (hin : IsCharSet cfg.inputCharSet boundIn) (hout : IsCharSet cfg.outputCharSet boundOut)
    (hordered : Ordered atm.states) {outputBuf : List Byte} {outputBufSize : UInt32}
    (hlength : outputBuf.length = outputBufSize.toNat) (hsize : 0 < outputBufSize)
    {doc : Document} (hfine : doc.Fine cfg boundIn boundOut outputBufSize.toNat)
    (hfits : (Processed.mk (.construct atm.states) [] (Nest.construct atm.states).triggers).Fits
      atm)
    (hsuits : (Nest.construct atm.states).Suits atm ((doc.items cfg).map (printed cfg))) :
    ∃ s, XMLPathSelect.construct atm
        (.construct (cfg.inputCharSet.encode doc.chars) outputBuf outputBufSize) = .ok ⟨⟩ s ∧
      let selected := (Nest.construct atm.states).select atm.states
        ((doc.items cfg).map (printed cfg))
      Selects cfg atm (construct s) selected.1 selected.2 := by
  obtain ⟨s, hconstruct, hscan, hrepresents, hlawful⟩ :=
    XMLPathSelect.construct_represents hordered
      (.construct (cfg.inputCharSet.encode doc.chars) outputBuf outputBufSize) hfits
  refine ⟨s, hconstruct, selects_items hordered rfl hrepresents hlawful ?_ ?_ ?_ hsuits⟩
  · show XMLScanner.Yields cfg (fun _ ↦ True) (doc.items cfg) s.scan
    rw [hscan]
    exact XMLScanner.yields_document hin hout (UInt32.lt_iff_toNat_lt.mp hsize) hfine
      (XMLScanner.construct_at cfg doc.chars hlength)
  · exact ⟨(.exit, []), List.mem_append_right _ (List.mem_append_right _ List.mem_cons_self), rfl⟩
  · exact fun item hitem ↦ XMLScanner.document_item_kind hitem

open Definitions in
/-- Whatever path expressions are defined, whatever the character sets are, and whatever document is
read, the iterator gives the elements that nested scopes select from the items of the document, in
their order and with their texts, and then the end of the input. The arrays must have room for them,
and no text that is asked for may go on behind the key of a state. -/
theorem document_selected {cfg : Setup} {atm : XMLPathSelectAutomaton} {boundIn boundOut : Nat}
    (hin : IsCharSet cfg.inputCharSet boundIn) (hout : IsCharSet cfg.outputCharSet boundOut)
    (acts : List Act) (hstates : atm.states = (Runs.last act .construct acts).states)
    {outputBuf : List Byte} {outputBufSize : UInt32}
    (hlength : outputBuf.length = outputBufSize.toNat) (hsize : 0 < outputBufSize)
    {doc : Document} (hfine : doc.Fine cfg boundIn boundOut outputBufSize.toNat)
    (hfits : (Processed.mk (.construct atm.states) [] (Nest.construct atm.states).triggers).Fits
      atm)
    (hsuits : (Nest.construct atm.states).Suits atm ((doc.items cfg).map (printed cfg))) :
    ∃ s, XMLPathSelect.construct atm
        (.construct (cfg.inputCharSet.encode doc.chars) outputBuf outputBufSize) = .ok ⟨⟩ s ∧
      let selected := (Nest.construct atm.states).select atm.states
        ((doc.items cfg).map (printed cfg))
      Selects cfg atm (construct s) selected.1 selected.2 := by
  have hordered : Ordered atm.states := by
    rw [hstates]
    exact (placed_last acts).ordered
  exact selects_document hin hout hordered hlength hsize hfine hfits hsuits

open Definitions in
/-- The content of the tags `a` at the root, and any attributes `c`. -/
theorem document_selected_attribute :
    let acts : List Act := [.start, .step 0 (.tag (some (text "a"))), .step 0 .content,
      .step 0 (.output 1), .start, .step 1 .follow, .step 1 (.attrib (some (text "c"))),
      .step 1 (.output 2)]
    let atm : XMLPathSelectAutomaton :=
      ⟨4, 4, 4, 4, (Runs.last act .construct acts).states⟩
    let cfg : Setup := ⟨IsoLatin1, UTF8, none⟩
    let doc : Document := ⟨[32], none, [.openTag [.char 97] ⟨[], []⟩,
      .emptyTag [.char 98] ⟨[⟨[32], [.char 99], [], [], .double, [.char 101]⟩], [32]⟩,
      .word [.char 100], .closeTag [.char 97] []]⟩
    ∃ s, XMLPathSelect.construct atm
        (.construct (cfg.inputCharSet.encode doc.chars) (List.replicate 16 0) 16) = .ok ⟨⟩ s ∧
      let selected := (Nest.construct atm.states).select atm.states
        ((doc.items cfg).map (printed cfg))
      selected = ([(2, text "e"), (1, text "d")], false) ∧
        Selects cfg atm (construct s) selected.1 selected.2 := by
  intro acts atm cfg doc
  have hchar {isTok : IsTokenCharMap} {code : UChar}
      (h : isTok (TextScanner.classOf code) = true ∧ code.toNat < 128) :
      FineText cfg 256 (2 ^ 31) (UInt32.toNat 16) isTok [.char code] :=
    .char h.1 (Nat.lt_trans h.2 (by decide)) (Nat.lt_trans h.2 (by decide)) (by decide)
  have hfine : doc.Fine cfg 256 (2 ^ 31) (UInt32.toNat 16) := by
    refine ⟨by decide, fun _ hsome ↦ absurd hsome (Option.some_ne_none _).symm, ?_, by decide,
      fun _ ↦ ⟨_, _, rfl, trivial⟩⟩
    have hattribute : Attribute.Fine cfg 256 (2 ^ 31) (UInt32.toNat 16)
        ⟨[32], [.char 99], [], [], .double, [.char 101]⟩ :=
      ⟨by decide, by decide, by decide, hchar (by decide), by decide, by decide, hchar (by decide)⟩
    exact List.forall_mem_cons.mpr ⟨.openTag (by decide) (hchar (by decide))
        (.nil cfg _ _ _ (by decide)),
      List.forall_mem_cons.mpr ⟨.emptyTag (by decide) (hchar (by decide))
          ⟨List.forall_mem_singleton.mpr hattribute, by decide⟩,
        List.forall_mem_cons.mpr ⟨.word (by decide) (hchar (by decide)),
          List.forall_mem_singleton.mpr (.closeTag (hchar (by decide)) (by decide))⟩⟩⟩
  have hstates : atm.states = (Runs.last act .construct acts).states := rfl
  have hlength : (List.replicate 16 (0 : Byte)).length = (16 : UInt32).toNat := rfl
  obtain ⟨s, hconstruct, hselects⟩ := document_selected .isoLatin1 .utf8 acts hstates hlength
    (by decide) hfine (by decide) (by decide)
  exact ⟨s, hconstruct, by decide, hselects⟩

end SelectIterator

end Smerp.Textwolf
