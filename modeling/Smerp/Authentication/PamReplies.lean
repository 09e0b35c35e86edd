import Smerp.Authentication.Pam
import Smerp.Lib.Splits

/-!
# The responses of the conversation function

`pam_conv_func` with all responses that it allocates: the responses behind `*reply`, and the texts
to which no pointer is left. The pointer to the current response is never advanced, so that every
message is answered in the first response, where the answer before it is lost.
`answers_in_slots_iff` says which conversations go well all the same.
-/

namespace Smerp.Authentication

open Lib

/-- A message together with the text that a successful `pam_get_item( PAM_USER_PROMPT)` delivers. -/
structure AskedMessage extends PamMessage where
  prompt : List Byte
  deriving DecidableEq, Repr

/-- What the conversation function returns: its code, the responses behind `*reply`, where `none`
is the `NULL` pointer, and the allocated texts that are left behind. `resp_retcode` is always 0. -/
structure Replies where
  code : Int
  reply : Option (List (Option (List Byte)))
  lost : List (List Byte)
  deriving DecidableEq, Repr

/-- `null_and_free`: the texts of the first responses are freed, and the responses. What is left
behind are the texts of the other ones. -/
def nullAndFree (nmsg : Nat) (pr : List (Option (List Byte))) : List (List Byte) :=
  (pr.drop nmsg).filterMap id

/-- The exit `error`. -/
def convError (i : Nat) (r : List (Option (List Byte))) (lost : List (List Byte)) :
    Option Replies :=
  some ⟨pamConvErr, none, lost ++ nullAndFree i r⟩

/-- The loop of `pam_conv_func`, from message `i` on; `none` is undefined behaviour. `r` stays at
the first response, because `m++; r++;` stands behind the `break` of every case. -/
def answerEach (appdata : AppData) (i : Nat) (r : List (Option (List Byte)))
    (lost : List (List Byte)) : List AskedMessage → Option Replies
  | [] => some ⟨pamSuccess, some r, lost⟩
  | m :: rest =>
      if m.msg = none then convError i r lost
      else
        -- `r->resp = NULL`
        let lost := lost ++ r.head?.join.toList
        let r := r.set 0 none
        match m.style with
        | .promptEchoOff =>
            if !appdata.hasPass then some ⟨pamConvAgain, some r, lost⟩
            else if !m.strdup then convError i r lost
            else answerEach appdata (i + 1) (r.set 0 (some (cStr appdata.pass))) lost rest
        | .promptEchoOn =>
            if m.userPrompt ≠ pamSuccess then convError i r lost
            -- `strcmp( m->msg, login_prompt)`, where `login_prompt` is still `NULL`
            else none
        | .errorMsg => answerEach appdata (i + 1) r lost rest
        | .textInfo => answerEach appdata (i + 1) r lost rest
        | .unknown _ => convError i r lost

/-- `pam_conv_func` -/
def pamConvReplies (appdata : AppData) (calloc : Bool) (msgs : List AskedMessage) :
    Option Replies :=
  if msgs.length ≤ 0 ∨ msgs.length ≥ pamMaxNumMsg then some ⟨pamConvErr, none, []⟩
  else if !calloc then some ⟨pamBufErr, none, []⟩
  else answerEach appdata 0 (List.replicate msgs.length none) [] msgs

/-- The loop without the responses behind the first one. -/
theorem answer_all_eq (appdata : AppData) (i : Nat) (first : Option (List Byte))
    (others : List (Option (List Byte))) (lost : List (List Byte)) (msgs : List AskedMessage) :
    (answerAll appdata first (msgs.map AskedMessage.toPamMessage)).1 =
      (answerEach appdata i (first :: others) lost msgs).map fun replies ↦
        ⟨replies.code, replies.reply.bind fun r ↦ r.head?.join⟩ := by
  induction msgs generalizing i first lost with
  | nil => cases first <;> rfl
  | cons m rest ih =>
      rw [List.map_cons, answerAll, answerEach]
      by_cases htext : m.msg = none
      · rw [if_pos htext, if_pos htext]
        rfl
      · rw [if_neg htext, if_neg htext]
        cases hstyle : m.style with
        | promptEchoOff =>
            simp only [List.set_cons_zero]
            split_ifs
            · rfl
            · rfl
            · exact ih _ _ _
        | promptEchoOn =>
            simp only
            split_ifs <;> rfl
        | errorMsg => exact ih _ _ _
        | textInfo => exact ih _ _ _
        | unknown style => rfl

/-- **The conversation function of the authenticator** returns this code and this first response. -/
theorem pam_conv_func_eq (appdata : AppData) (calloc : Bool) (msgs : List AskedMessage) :
    (pamConvFunc appdata ⟨msgs.map AskedMessage.toPamMessage, calloc⟩).1 =
      (pamConvReplies appdata calloc msgs).map fun replies ↦
        ⟨replies.code, replies.reply.bind fun r ↦ r.head?.join⟩ := by
  rw [pamConvFunc, pamConvReplies, List.length_map]
  by_cases hbad : msgs.length ≤ 0 ∨ msgs.length ≥ pamMaxNumMsg
  · rw [if_pos hbad, if_pos hbad]
    rfl
  · rw [if_neg hbad, if_neg hbad]
    cases calloc with
    | false => rfl
    | true =>
        obtain ⟨n, hn⟩ : ∃ n, msgs.length = n + 1 := ⟨msgs.length - 1, by omega⟩
        rw [hn, List.replicate_succ]
        exact answer_all_eq appdata 0 none _ [] msgs

/-! ## Slots -/

/-- The answer to a message: the password, the login if the message is the prompt that
`pam_get_item` delivers, and no text otherwise. -/
def answerTo (appdata : AppData) (m : AskedMessage) : Option (List Byte) :=
  match m.style with
  | .promptEchoOff => some appdata.pass
  | .promptEchoOn => if m.msg = some m.prompt then some appdata.login else none
  | _ => none

/-- The function returns, with success and each message answered in its own response, or without
success, a null pointer, and nothing left behind. -/
def AnswersInSlots (appdata : AppData) (msgs : List AskedMessage) : Option Replies → Prop
  | none => False
  | some replies =>
      if replies.code = pamSuccess then replies.reply = some (msgs.map (answerTo appdata))
      else replies.reply = none ∧ replies.lost = []

/-- A message that needs no answer. -/
def isNotice (m : AskedMessage) : Bool := m.style = .errorMsg || m.style = .textInfo

/-- A message that ends the conversation with `PAM_CONV_ERR`: there is no memory for the password,
`pam_get_item` fails, or the style is unknown. -/
def EndsConversation (appdata : AppData) (m : AskedMessage) : Prop :=
  match m.style with
  | .promptEchoOff => appdata.hasPass = true ∧ m.strdup = false
  | .promptEchoOn => m.userPrompt ≠ pamSuccess
  | .unknown _ => True
  | _ => False

/-- A message that is answered with the password, which has no zero byte. -/
def IsAnswered (appdata : AppData) (m : AskedMessage) : Prop :=
  m.style = .promptEchoOff ∧ appdata.hasPass = true ∧ m.strdup = true ∧ (0 : Byte) ∉ appdata.pass

/-- The first message that needs an answer, if there is one, ends the conversation, or it is the
only message and answered with the password. -/
def Answerable (appdata : AppData) (msgs : List AskedMessage) : Prop :=
  match msgs.dropWhile isNotice with
  | [] => True
  | m :: _ => EndsConversation appdata m ∨ IsAnswered appdata m ∧ msgs = [m]

/-- A notice leaves the first response without a text. -/
theorem answer_notices (appdata : AppData) {front : List AskedMessage}
    (hfront : ∀ m ∈ front, isNotice m = true) (htext : ∀ m ∈ front, m.msg ≠ none) (i : Nat)
    (others : List (Option (List Byte))) (rest : List AskedMessage) :
    answerEach appdata i (none :: others) [] (front ++ rest) =
      answerEach appdata (i + front.length) (none :: others) [] rest := by
  induction front generalizing i with
  | nil => rfl
  | cons m front ih =>
      have hnext := ih (fun other hother ↦ hfront other (by simp [hother]))
        (fun other hother ↦ htext other (by simp [hother])) (i + 1)
      have hnotice := hfront m (by simp)
      rw [List.length_cons, show i + (front.length + 1) = i + 1 + front.length by omega, ← hnext,
        List.cons_append, answerEach, if_neg (htext m (by simp))]
      simp only [isNotice, Bool.or_eq_true, decide_eq_true_eq] at hnotice
      rcases hnotice with hstyle | hstyle <;> rw [hstyle] <;> rfl

/-- The last message decides about the first response. -/
def lastAnswer (appdata : AppData) (first : Option (List Byte)) (msgs : List AskedMessage) :
    Option (List Byte) :=
  msgs.foldl (fun _ m ↦ if m.style = .promptEchoOff then some (cStr appdata.pass) else none) first

/-- What the loop returns: the texts that were lost stay lost, the text of the first response is
lost with the next message, and with success only the first response has a text. -/
theorem answer_each_returns {appdata : AppData} {i : Nat} {first : Option (List Byte)}
    {others : List (Option (List Byte))} {lost : List (List Byte)} {msgs : List AskedMessage}
    {replies : Replies} (htext : ∀ m ∈ msgs, m.msg ≠ none)
    (h : answerEach appdata i (first :: others) lost msgs = some replies) :
    lost <+: replies.lost ∧ (msgs ≠ [] → lost ++ first.toList <+: replies.lost) ∧
      (replies.code = pamSuccess →
        replies.reply = some (lastAnswer appdata first msgs :: others)) := by
  induction msgs generalizing i first lost with
  | nil =>
      obtain rfl := Option.some.inj h
      exact ⟨List.prefix_refl _, fun hne ↦ absurd rfl hne, fun _ ↦ rfl⟩
  | cons m rest ih =>
      suffices hkept : lost ++ first.toList <+: replies.lost ∧ (replies.code = pamSuccess →
          replies.reply = some (lastAnswer appdata first (m :: rest) :: others)) from
        ⟨(List.prefix_append _ _).trans hkept.1, fun _ ↦ hkept.1, hkept.2⟩
      -- the exit with an error keeps what is lost, and any other code is no success
      have hexit (code : Int) (reply : Option (List (Option (List Byte)))) (more : List (List Byte))
          (hcode : code ≠ pamSuccess)
          (h : some ⟨code, reply, lost ++ first.toList ++ more⟩ = some replies) :
          lost ++ first.toList <+: replies.lost ∧ (replies.code = pamSuccess →
            replies.reply = some (lastAnswer appdata first (m :: rest) :: others)) := by
        obtain rfl := Option.some.inj h
        exact ⟨List.prefix_append _ _, fun hsuccess ↦ absurd hsuccess hcode⟩
      have hrest (next : Option (List Byte)) (h : answerEach appdata (i + 1) (next :: others)
          (lost ++ first.toList) rest = some replies) :=
        ih (fun other hother ↦ htext other (by simp [hother])) h
      rw [answerEach, if_neg (htext m (by simp))] at h
      cases hstyle : m.style with
      | promptEchoOff =>
          simp only [hstyle, List.set_cons_zero] at h
          split_ifs at h
          · refine hexit pamConvAgain (some (none :: others)) [] (by decide) ?_
            rw [List.append_nil]
            exact h
          · exact hexit _ _ _ (by decide) h
          · obtain ⟨hkept, -, hsuccess⟩ := hrest _ h
            exact ⟨hkept, fun hcode ↦ by simpa [lastAnswer, hstyle] using hsuccess hcode⟩
      | promptEchoOn =>
          simp only [hstyle] at h
          split_ifs at h
          exact hexit _ _ _ (by decide) h
      | errorMsg =>
          simp only [hstyle] at h
          obtain ⟨hkept, -, hsuccess⟩ := hrest _ h
          exact ⟨hkept, fun hcode ↦ by simpa [lastAnswer, hstyle] using hsuccess hcode⟩
      | textInfo =>
          simp only [hstyle] at h
          obtain ⟨hkept, -, hsuccess⟩ := hrest _ h
          exact ⟨hkept, fun hcode ↦ by simpa [lastAnswer, hstyle] using hsuccess hcode⟩
      | unknown style =>
          simp only [hstyle] at h
          exact hexit _ _ _ (by decide) h

/-- The answer to a password prompt. -/
theorem answer_to_password (appdata : AppData) {m : AskedMessage}
    (hstyle : m.style = .promptEchoOff) : answerTo appdata m = some appdata.pass := by
  rw [answerTo, hstyle]

/-- A password prompt behind another message has no text in its response. -/
theorem slots_behind {appdata : AppData} {first : Option (List Byte)} {n : Nat}
    {head m : AskedMessage} {front more : List AskedMessage} (hstyle : m.style = .promptEchoOff) :
    first :: List.replicate n none ≠ ((head :: front) ++ m :: more).map (answerTo appdata) := by
  intro hsame
  rw [List.cons_append, List.map_cons, List.map_append, List.map_cons] at hsame
  have hmem : answerTo appdata m ∈ List.replicate n none := by
    rw [(List.cons.inj hsame).2]
    simp
  rw [answer_to_password appdata hstyle] at hmem
  exact absurd (List.eq_of_mem_replicate hmem) (by simp)

/-- A message behind a password prompt takes its response. -/
theorem slots_taken {appdata : AppData} {first : Option (List Byte)} {n : Nat}
    {m final : AskedMessage} {before : List AskedMessage} (hstyle : m.style = .promptEchoOff) :
    lastAnswer appdata first (before ++ [final]) :: List.replicate n none ≠
      (m :: (before ++ [final])).map (answerTo appdata) := by
  intro hsame
  obtain ⟨hhead, htail⟩ := List.cons.inj hsame
  have hmem : answerTo appdata final ∈ List.replicate n none := by
    rw [htail]
    simp
  have hfinal : final.style ≠ .promptEchoOff := by
    intro hoff
    rw [answer_to_password appdata hoff] at hmem
    exact absurd (List.eq_of_mem_replicate hmem) (by simp)
  rw [answer_to_password appdata hstyle, lastAnswer, List.foldl_append, List.foldl_cons,
    List.foldl_nil, if_neg hfinal] at hhead
  cases hhead

/-- With a password in the first response no other message is answered in its slot. -/
theorem not_in_slots (appdata : AppData) {i : Nat} {front more : List AskedMessage}
    {m : AskedMessage} (htext : ∀ m ∈ more, m.msg ≠ none)
    (hstyle : m.style = .promptEchoOff) (hfront : front ≠ [] ∨ more ≠ []) :
    ¬ AnswersInSlots appdata (front ++ m :: more)
      (answerEach appdata i (some (cStr appdata.pass) ::
        List.replicate (front.length + more.length) none) [] more) := by
  intro hslots
  cases hreplies : answerEach appdata i (some (cStr appdata.pass) ::
      List.replicate (front.length + more.length) none) [] more with
  | none =>
      rw [hreplies] at hslots
      exact hslots
  | some replies =>
      rw [hreplies, AnswersInSlots] at hslots
      obtain ⟨-, hlost, hsuccess⟩ := answer_each_returns htext hreplies
      split_ifs at hslots with hcode
      · have hsame := Option.some.inj ((hsuccess hcode).symm.trans hslots)
        cases front with
        | cons head front => exact slots_behind hstyle hsame
        | nil =>
            obtain ⟨before, final, rfl⟩ := List.eq_nil_or_concat more |>.resolve_left
              (hfront.resolve_left (by simp))
            rw [List.concat_eq_append] at hsame
            exact slots_taken hstyle hsame
      · -- the password is freed, or lost to the next message
        cases more with
        | nil =>
            obtain rfl := Option.some.inj hreplies
            exact hcode rfl
        | cons next more =>
            have hkept := hlost (by simp)
            rw [hslots.2] at hkept
            simp at hkept

/-- Notices have no answer. -/
theorem answer_to_notice (appdata : AppData) {m : AskedMessage} (h : isNotice m = true) :
    answerTo appdata m = none := by
  simp only [isNotice, Bool.or_eq_true, decide_eq_true_eq] at h
  rcases h with hstyle | hstyle <;> rw [answerTo, hstyle]

/-- An exit with an error in front of any answer cleans up. -/
theorem error_in_slots (appdata : AppData) (msgs : List AskedMessage) (i n : Nat) :
    AnswersInSlots appdata msgs (convError i (List.replicate n none) []) := by
  have hcode : pamConvErr ≠ pamSuccess := by decide
  have hclean : nullAndFree i (List.replicate n none) = [] := by
    rw [nullAndFree, List.drop_replicate, List.filterMap_replicate_of_none rfl]
  rw [convError, AnswersInSlots, if_neg hcode]
  exact ⟨rfl, hclean⟩

/-- A password that is put into the first response is in its slot only if there is no other
message, and all of it only if it has no zero byte. -/
theorem password_in_slots_iff (appdata : AppData) (i : Nat) (front : List AskedMessage)
    {more : List AskedMessage} {m : AskedMessage} (htext : ∀ other ∈ more, other.msg ≠ none)
    (hstyle : m.style = .promptEchoOff) :
    AnswersInSlots appdata (front ++ m :: more)
      (answerEach appdata i (some (cStr appdata.pass) ::
        List.replicate (front.length + more.length) none) [] more) ↔
      (0 : Byte) ∉ appdata.pass ∧ front ++ m :: more = [m] := by
  by_cases honly : front = [] ∧ more = []
  · obtain ⟨rfl, rfl⟩ := honly
    simp [AnswersInSlots, answerEach, answerTo, hstyle, c_str_eq_iff]
  · have hslots := not_in_slots appdata (i := i) htext hstyle (not_and_or.mp honly)
    refine iff_of_false hslots ?_
    rintro ⟨-, heq⟩
    have hlen := congrArg List.length heq
    simp only [List.length_append, List.length_cons, List.length_nil] at hlen
    exact honly ⟨List.length_eq_zero_iff.mp (by omega), List.length_eq_zero_iff.mp (by omega)⟩

/-- From the first message on that needs an answer. -/
theorem first_prompt_iff {appdata : AppData} {i : Nat} {front more : List AskedMessage}
    {m : AskedMessage} (hm : isNotice m = false) (htext : ∀ other ∈ m :: more, other.msg ≠ none) :
    AnswersInSlots appdata (front ++ m :: more)
      (answerEach appdata i (List.replicate (front.length + more.length + 1) none) [] (m :: more)) ↔
      EndsConversation appdata m ∨ IsAnswered appdata m ∧ front ++ m :: more = [m] := by
  have hnone : (List.replicate (front.length + more.length + 1)
      (none : Option (List Byte))).head?.join.toList = [] := rfl
  have hset (text : Option (List Byte)) : (List.replicate (front.length + more.length + 1)
      (none : Option (List Byte))).set 0 text =
      text :: List.replicate (front.length + more.length) none := rfl
  have herror := error_in_slots appdata (front ++ m :: more) i (front.length + more.length + 1)
  simp only [isNotice, Bool.or_eq_false_iff, decide_eq_false_iff_not] at hm
  rw [answerEach, if_neg (htext m (by simp)), EndsConversation, IsAnswered, hnone, hset,
    List.append_nil, ← List.replicate_succ]
  cases hstyle : m.style with
  | promptEchoOff =>
      cases hpass : appdata.hasPass with
      | false =>
          -- `*reply` is left behind
          have hagain : pamConvAgain ≠ pamSuccess := by decide
          simp [AnswersInSlots, hagain]
      | true =>
          cases hmemory : m.strdup with
          | false => simpa using herror
          | true =>
              have hmore : ∀ other ∈ more, other.msg ≠ none :=
                fun other hother ↦ htext other (List.mem_cons_of_mem _ hother)
              have hslots := password_in_slots_iff appdata (i + 1) front hmore hstyle
              simpa [hset] using hslots
  | promptEchoOn =>
      by_cases hitem : m.userPrompt = pamSuccess
      · simp [AnswersInSlots, hitem]
      · simpa [hitem] using herror
  | errorMsg => exact absurd hstyle hm.1
  | textInfo => exact absurd hstyle hm.2
  | unknown style => simpa using herror

/-- **The conversation answers each message in its own slot**, and cleans up, exactly if there is no
memory for the responses or the conversation is answerable. -/
theorem answers_in_slots_iff (appdata : AppData) (calloc : Bool) (msgs : List AskedMessage)
    (hfirst : 1 ≤ msgs.length) (hlast : msgs.length ≤ pamMaxNumMsg - 1)
    (htext : ∀ m ∈ msgs, m.msg ≠ none) :
    AnswersInSlots appdata msgs (pamConvReplies appdata calloc msgs) ↔
      calloc = false ∨ Answerable appdata msgs := by
  have hsane : ¬ (msgs.length ≤ 0 ∨ msgs.length ≥ pamMaxNumMsg) := by
    rw [pamMaxNumMsg] at hlast ⊢
    omega
  rw [pamConvReplies, if_neg hsane]
  cases calloc with
  | false => exact iff_of_true ⟨rfl, rfl⟩ (.inl rfl)
  | true =>
      rw [Bool.not_true, if_neg Bool.false_ne_true]
      simp only [Bool.true_eq_false, false_or]
      rcases split_while isNotice msgs with hall | ⟨front, m, more, rfl, hfront, hm⟩
      · -- without prompts no response has a text
        have hnone : msgs.map (answerTo appdata) = List.replicate msgs.length none :=
          List.map_eq_replicate_iff.mpr fun m hmem ↦ answer_to_notice appdata (hall m hmem)
        obtain ⟨n, hn⟩ : ∃ n, msgs.length = n + 1 := ⟨msgs.length - 1, by omega⟩
        have hloop := answer_notices appdata hall htext 0 (List.replicate n none) []
        rw [List.append_nil, ← List.replicate_succ, ← hn] at hloop
        rw [hloop, Answerable, List.dropWhile_eq_nil_iff.mpr hall]
        refine iff_of_true ?_ trivial
        rw [answerEach, AnswersInSlots, if_pos rfl, hnone]
      · have hlen : (front ++ m :: more).length = front.length + more.length + 1 := by simp; omega
        have hloop := answer_notices appdata hfront
          (fun other hother ↦ htext other (by simp [hother])) 0
          (List.replicate (front.length + more.length) none) (m :: more)
        rw [← List.replicate_succ, ← hlen] at hloop
        rw [hloop, hlen, Answerable, drop_while_split more hfront hm]
        exact first_prompt_iff hm fun other hother ↦ htext other (List.mem_append_right _ hother)

/-- A password prompt alone. -/
theorem answers_in_slots_iff_password :
    AnswersInSlots ⟨text "alice", true, text "secret", some 0⟩
        [⟨⟨.promptEchoOff, some (text "Password: "), true, pamSuccess⟩, text "login: "⟩]
        (pamConvReplies ⟨text "alice", true, text "secret", some 0⟩ true
          [⟨⟨.promptEchoOff, some (text "Password: "), true, pamSuccess⟩, text "login: "⟩]) ↔
      true = false ∨ Answerable ⟨text "alice", true, text "secret", some 0⟩
        [⟨⟨.promptEchoOff, some (text "Password: "), true, pamSuccess⟩, text "login: "⟩] :=
  answers_in_slots_iff ⟨text "alice", true, text "secret", some 0⟩ true
    [⟨⟨.promptEchoOff, some (text "Password: "), true, pamSuccess⟩, text "login: "⟩] (by decide)
    (by decide) (by decide)

/-- **A notice in front of a password prompt takes its slot**: the password is the response to the
notice. -/
theorem not_answers_in_slots : ¬ ∀ (appdata : AppData) (calloc : Bool) (msgs : List AskedMessage),
    1 ≤ msgs.length → msgs.length ≤ pamMaxNumMsg - 1 → (∀ m ∈ msgs, m.msg ≠ none) →
      AnswersInSlots appdata msgs (pamConvReplies appdata calloc msgs) := by
  intro h
  have hslots := h ⟨text "alice", true, text "secret", some 0⟩ true
    [⟨⟨.textInfo, some (text "Welcome"), true, pamSuccess⟩, text "login: "⟩,
      ⟨⟨.promptEchoOff, some (text "Password: "), true, pamSuccess⟩, text "login: "⟩] (by decide)
    (by decide) (by decide)
  have hreplies : pamConvReplies ⟨text "alice", true, text "secret", some 0⟩ true
      [⟨⟨.textInfo, some (text "Welcome"), true, pamSuccess⟩, text "login: "⟩,
        ⟨⟨.promptEchoOff, some (text "Password: "), true, pamSuccess⟩, text "login: "⟩] =
      some ⟨pamSuccess, some [some (text "secret"), none], []⟩ := by decide +kernel
  rw [hreplies, AnswersInSlots, if_pos rfl] at hslots
  revert hslots
  decide +kernel

end Smerp.Authentication
