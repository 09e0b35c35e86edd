import Smerp.Authentication.PamConsent

/-!
# Login attempts are isolated from each other

Next to the authenticator runs a twin, which is newly constructed whenever an attempt ends. An
attempt is isolated when the authenticator does what its twin does, and when the conversation
function gives away the password of this attempt and no other. After `SUCCESS` the flag `has_pass`
stays set, so this takes a condition: `Session.Unmixed`.
-/

namespace Smerp.Authentication

open Lib PAMAuthenticator

/-! ## The conversation function -/

/-- The messages reach a prompt for the password. -/
def asks : List PamMessage → Bool
  | [] => false
  | m :: rest => m.msg.isSome && match m.style with
      | .promptEchoOff => true
      | .errorMsg => asks rest
      | .textInfo => asks rest
      | _ => false

/-- The conversation reaches a prompt for the password. -/
def Conversation.asksPassword (talk : Conversation) : Bool :=
  talk.msgs.length < pamMaxNumMsg && talk.calloc && asks talk.msgs

/-- Two authenticators give the same answers: they hold the same password, or none is asked for. -/
theorem answer_all_congr {a b : AppData} {msgs : List PamMessage} (hhandle : a.h = b.h)
    (hpass : a.hasPass = b.hasPass ∧ a.pass = b.pass ∨ asks msgs = false)
    (resp : Option (List Byte)) : answerAll a resp msgs = answerAll b resp msgs := by
  induction msgs generalizing resp with
  | nil => rfl
  | cons m rest ih =>
      unfold answerAll
      cases hmsg : m.msg with
      | none => rfl
      | some msg =>
          simp only [reduceCtorEq, if_false]
          cases hstyle : m.style with
          | promptEchoOff =>
              rcases hpass with ⟨hflag, hsame⟩ | hunasked
              · simp only [hflag, hsame, ih (.inl ⟨hflag, hsame⟩)]
              · simp [asks, hmsg, hstyle] at hunasked
          | promptEchoOn => simp only [hhandle]
          | errorMsg => exact ih (hpass.imp_right fun hunasked ↦
              by simpa [asks, hmsg, hstyle] using hunasked) none
          | textInfo => exact ih (hpass.imp_right fun hunasked ↦
              by simpa [asks, hmsg, hstyle] using hunasked) none
          | unknown style => rfl

/-- Without a password the first prompt for it ends the conversation. -/
theorem answer_all_again {a : AppData} {msgs : List PamMessage} (hpass : a.hasPass = false)
    (hasks : asks msgs = true) (resp : Option (List Byte)) :
    answerAll a resp msgs = (some ⟨pamConvAgain, none⟩, []) := by
  induction msgs generalizing resp with
  | nil => simp [asks] at hasks
  | cons m rest ih =>
      unfold asks at hasks
      unfold answerAll
      cases hmsg : m.msg with
      | none => simp [hmsg] at hasks
      | some msg =>
          cases hstyle : m.style with
          | promptEchoOff => simp [hpass]
          | promptEchoOn => simp [hstyle] at hasks
          | errorMsg => simpa using ih (by simpa [hmsg, hstyle] using hasks) none
          | textInfo => simpa using ih (by simpa [hmsg, hstyle] using hasks) none
          | unknown style => simp [hstyle] at hasks

/-- The only text that the conversation function gives away is the password, when it is asked
for. -/
theorem answer_all_resp {a : AppData} {msgs : List PamMessage} {resp : Option (List Byte)}
    {reply : Reply} {given : List Byte} (h : (answerAll a resp msgs).1 = some reply)
    (hgiven : reply.resp = some given) :
    resp = some given ∨ a.hasPass = true ∧ given = cStr a.pass ∧ asks msgs = true := by
  induction msgs generalizing resp with
  | nil =>
      cases h
      exact .inl hgiven
  | cons m rest ih =>
      unfold answerAll at h
      cases hmsg : m.msg with
      | none =>
          simp only [hmsg, if_true, Option.some.injEq] at h
          simp [← h] at hgiven
      | some msg =>
          simp only [hmsg, reduceCtorEq, if_false] at h
          cases hstyle : m.style with
          | promptEchoOff =>
              rw [hstyle] at h
              cases hpass : a.hasPass with
              | false =>
                  simp only [hpass, Bool.not_false, if_true, Option.some.injEq] at h
                  simp [← h] at hgiven
              | true =>
                  cases hstrdup : m.strdup with
                  | false =>
                      simp only [hpass, hstrdup, Bool.not_true, Bool.false_eq_true, if_false,
                        Bool.not_false, if_true, Option.some.injEq] at h
                      simp [← h] at hgiven
                  | true =>
                      simp only [hpass, hstrdup, Bool.not_true, Bool.false_eq_true, if_false] at h
                      refine .inr ⟨rfl, ?_, by simp [asks, hmsg, hstyle]⟩
                      rcases ih h with hsame | ⟨-, hsame, -⟩
                      · exact (Option.some.inj hsame).symm
                      · exact hsame
          | promptEchoOn =>
              rw [hstyle] at h
              by_cases hprompt : m.userPrompt = pamSuccess
              · simp [hprompt] at h
              · simp only [ne_eq, hprompt, not_false_eq_true, if_true, Option.some.injEq] at h
                simp [← h] at hgiven
          | errorMsg =>
              rw [hstyle] at h
              rcases ih h with hnone | hasked
              · cases hnone
              · exact .inr (by simpa [asks, hmsg, hstyle] using hasked)
          | textInfo =>
              rw [hstyle] at h
              rcases ih h with hnone | hasked
              · cases hnone
              · exact .inr (by simpa [asks, hmsg, hstyle] using hasked)
          | unknown style =>
              simp only [hstyle, Option.some.injEq] at h
              simp [← h] at hgiven

/-- Two authenticators give the same answers in a conversation. -/
theorem pam_conv_func_congr {a b : AppData} (talk : Conversation) (hhandle : a.h = b.h)
    (hpass : a.hasPass = b.hasPass ∧ a.pass = b.pass ∨ talk.asksPassword = false) :
    pamConvFunc a talk = pamConvFunc b talk := by
  unfold pamConvFunc
  by_cases hbad : talk.msgs.length ≤ 0 ∨ talk.msgs.length ≥ pamMaxNumMsg
  · rw [if_pos hbad, if_pos hbad]
  · rw [if_neg hbad, if_neg hbad]
    cases hcalloc : talk.calloc with
    | false => rfl
    | true =>
        refine answer_all_congr hhandle (hpass.imp_right ?_) none
        intro hunasked
        have hlt : talk.msgs.length < pamMaxNumMsg := by omega
        simpa [Conversation.asksPassword, hlt, hcalloc] using hunasked

/-- Two authenticators hold the same conversations. -/
theorem converse_all_congr {a b : AppData} {talks : List Conversation} (hhandle : a.h = b.h)
    (hpass : a.hasPass = b.hasPass ∧ a.pass = b.pass ∨ ∀ talk ∈ talks, talk.asksPassword = false) :
    converseAll a talks = converseAll b talks := by
  induction talks with
  | nil => rfl
  | cons talk more ih =>
      have hfirst := pam_conv_func_congr talk hhandle
        (hpass.imp_right fun hunasked ↦ hunasked talk (by simp))
      have hrest :=
        ih (hpass.imp_right fun hunasked other hother ↦ hunasked other (by simp [hother]))
      rw [converseAll, converseAll, hfirst, hrest]

/-- What a conversation gives away is the password. -/
theorem pam_conv_func_resp {a : AppData} {talk : Conversation} {reply : Reply} {given : List Byte}
    (h : (pamConvFunc a talk).1 = some reply) (hgiven : reply.resp = some given) :
    a.hasPass = true ∧ given = cStr a.pass ∧ talk.asksPassword = true := by
  unfold pamConvFunc at h
  by_cases hbad : talk.msgs.length ≤ 0 ∨ talk.msgs.length ≥ pamMaxNumMsg
  · rw [if_pos hbad, Option.some.injEq] at h
    simp [← h] at hgiven
  · rw [if_neg hbad] at h
    have hlt : talk.msgs.length < pamMaxNumMsg := by omega
    cases hcalloc : talk.calloc with
    | false =>
        simp only [hcalloc, Bool.not_false, if_true, Option.some.injEq] at h
        simp [← h] at hgiven
    | true =>
        simp only [hcalloc, Bool.not_true, Bool.false_eq_true, if_false] at h
        rcases answer_all_resp h hgiven with hnone | ⟨hpass, hsame, hasked⟩
        · cases hnone
        · exact ⟨hpass, hsame, by simp [Conversation.asksPassword, hlt, hcalloc, hasked]⟩

/-- Without a password a conversation that asks for it is to be continued. -/
theorem pam_conv_func_again {a : AppData} {talk : Conversation} (hpass : a.hasPass = false)
    (hasks : talk.asksPassword = true) : (pamConvFunc a talk).1 = some ⟨pamConvAgain, none⟩ := by
  simp only [Conversation.asksPassword, Bool.and_eq_true, decide_eq_true_eq] at hasks
  obtain ⟨⟨hlt, hcalloc⟩, hasked⟩ := hasks
  have hgood : ¬ (talk.msgs.length ≤ 0 ∨ talk.msgs.length ≥ pamMaxNumMsg) := by
    have hpos : talk.msgs ≠ [] := by
      intro hnil
      simp [hnil, asks] at hasked
    have := List.length_pos_iff.mpr hpos
    omega
  rw [pamConvFunc, if_neg hgood, hcalloc, Bool.not_true, if_neg Bool.false_ne_true,
    answer_all_again hpass hasked]

/-- The conversation function was called by one of the conversations that PAM holds. -/
theorem mem_converse_all {a : AppData} {talks : List Conversation} {talk : Conversation}
    {reply : Reply} (h : .converse talk reply ∈ (converseAll a talks).2) :
    talk ∈ talks ∧ (pamConvFunc a talk).1 = some reply := by
  induction talks with
  | nil => simp [converseAll] at h
  | cons first more ih =>
      have hnot : .converse talk reply ∉ (pamConvFunc a first).2 := by
        intro hcall
        rcases pam_conv_func_calls a first _ hcall with hsame | hsame <;> cases hsame
      unfold converseAll at h
      generalize hresult : pamConvFunc a first = result at h hnot
      obtain ⟨reply', calls⟩ := result
      cases reply' with
      | none => exact absurd h hnot
      | some reply' =>
          rcases List.mem_append.mp h with hfirst | hrest
          · exact absurd hfirst hnot
          · rcases List.mem_cons.mp hrest with hsame | hmore
            · cases hsame
              exact ⟨by simp, by rw [hresult]⟩
            · obtain ⟨hmem, hreply⟩ := ih hmore
              exact ⟨by simp [hmem], hreply⟩

/-! ## Steps -/

/-- The conversations that PAM holds during the checks. -/
def Answers.talks (answers : Answers) : List Conversation :=
  answers.authenticate.talks ++
    if answers.authenticate.code = pamSuccess then answers.acctMgmt.talks else []

/-- What is seen of a step: how it ends, the calls of the library, and what the protocol reads to go
on. -/
def Stepped.seen (step : Stepped) : Outcome AuthStep × List Call ×
    Option (List Byte × Outcome (List Byte)) :=
  (step.outcome, step.calls,
    if step.outcome = .returned .sendData ∨ step.outcome = .returned .recvData then
      some (step.auth.token, step.auth.sendData)
    else none)

/-- Two authenticators in the same attempt. The flag `has_pass` of the first one may be left from an
earlier attempt until a password is received. -/
structure Alike (a b : PAMAuthenticator) : Prop where
  service : a.service = b.service
  state : a.state = b.state
  login : a.state ≠ .needLogin → a.appdata.login = b.appdata.login
  handle : a.appdata.h = b.appdata.h
  pass : a.appdata.pass = b.appdata.pass
  hasPass : a.state = .hasPass → a.appdata.hasPass = b.appdata.hasPass

section Checks

variable {a b : PAMAuthenticator} {answers : Answers}

/-- An authenticator that is alike behind the login differs in the flag and in what was to be
sent. -/
theorem Alike.other (h : Alike a b) (hstate : a.state ≠ .needLogin) :
    ∃ flag token data, b = { a with
      appdata := { a.appdata with hasPass := flag }, token := token, data := data } := by
  obtain ⟨service, state, ⟨login, flag, pass, handle⟩, token, data⟩ := b
  obtain ⟨hservice, hsame, hlogin, hhandle, hpass, -⟩ := h
  refine ⟨flag, token, data, ?_⟩
  have hin : a.appdata.login = login := hlogin hstate
  simp only at hservice hsame hhandle hpass
  rw [← hservice, ← hsame, ← hhandle, ← hpass, ← hin]

/-- The same calls in front of alike steps. -/
theorem Stepped.seen_behind {first second : Stepped} (calls : List Call)
    (h : first.seen = second.seen) :
    ({ first with calls := calls ++ first.calls } : Stepped).seen =
      ({ second with calls := calls ++ second.calls } : Stepped).seen := by
  simp only [Stepped.seen, Prod.mk.injEq] at h ⊢
  obtain ⟨houtcome, hcalls, hsent⟩ := h
  exact ⟨houtcome, by rw [hcalls], hsent⟩

/-- Alike authenticators reject a login in the same way. -/
theorem Alike.rejected (h : Alike a b) (hstate : a.state ≠ .needLogin)
    (function strerror : List Byte) (rc : Int) (calls : List Call) :
    (⟨a.rejected function strerror rc, .returned .sendData, calls⟩ : Stepped).seen =
        (⟨b.rejected function strerror rc, .returned .sendData, calls⟩ : Stepped).seen ∧
      Alike (a.rejected function strerror rc) (b.rejected function strerror rc) := by
  obtain ⟨flag, token, data, rfl⟩ := h.other hstate
  exact ⟨rfl, rfl, rfl, fun _ ↦ rfl, rfl, rfl, by simp [PAMAuthenticator.rejected]⟩

/-- Alike authenticators end the session in the same way. -/
theorem Alike.end_session (h : Alike a b) (hstate : a.state ≠ .needLogin) (answers : Answers)
    (rc : Int) :
    (a.endSession answers rc).seen = (b.endSession answers rc).seen ∧
      Alike (a.endSession answers rc).auth (b.endSession answers rc).auth := by
  obtain ⟨flag, token, data, rfl⟩ := h.other hstate
  by_cases hfinish : answers.finish = pamSuccess
  · simp only [endSession, if_neg (not_not_intro hfinish)]
    refine ⟨?_, rfl, rfl, fun _ ↦ rfl, rfl, rfl, by simp⟩
    by_cases hrc : rc = pamSuccess <;> simp [Stepped.seen, hrc]
  · simp only [endSession, ne_eq, if_pos hfinish]
    exact ⟨rfl, h⟩

/-- Alike authenticators that hold the same conversations go through the same check of the
account. -/
theorem Alike.check_account (h : Alike a b) (hstate : a.state ≠ .needLogin)
    (hacct : converseAll a.appdata answers.acctMgmt.talks =
      converseAll b.appdata answers.acctMgmt.talks) :
    (a.checkAccount answers).seen = (b.checkAccount answers).seen ∧
      Alike (a.checkAccount answers).auth (b.checkAccount answers).auth := by
  have hends := h.end_session hstate answers answers.acctMgmt.code
  rw [checkAccount, checkAccount, ← hacct, ← h.handle]
  cases hdefined : (converseAll a.appdata answers.acctMgmt.talks).1 with
  | false => exact ⟨rfl, h⟩
  | true =>
      by_cases hcode : answers.acctMgmt.code = pamSuccess
      · simp only [Bool.not_true, Bool.false_eq_true, if_false, if_neg (not_not_intro hcode)]
        exact ⟨Stepped.seen_behind _ hends.1, hends.2⟩
      · simp only [Bool.not_true, Bool.false_eq_true, if_false, ne_eq, hcode, not_false_eq_true,
          if_true]
        exact h.rejected hstate _ _ _ _

/-- Alike authenticators that hold the same conversations go through the same checks. -/
theorem Alike.check_pass (h : Alike a b) (hgoes : a.state = .hasLogin ∨ a.state = .hasPass)
    (htalks : ∀ talks, (∀ talk ∈ talks, talk ∈ answers.talks) →
      converseAll a.appdata talks = converseAll b.appdata talks) :
    (a.checkPass answers).seen = (b.checkPass answers).seen ∧
      Alike (a.checkPass answers).auth (b.checkPass answers).auth := by
  have hstate : a.state ≠ .needLogin := by
    rcases hgoes with hlogin | hpass
    · simp [hlogin]
    · simp [hpass]
  have hauth := htalks answers.authenticate.talks (by simp +contextual [Answers.talks])
  have haccount (hcode : answers.authenticate.code = pamSuccess) :=
    h.check_account hstate
      (htalks answers.acctMgmt.talks (by simp +contextual [Answers.talks, hcode]))
  rw [checkPass, checkPass, ← hauth, ← h.handle, ← h.state]
  cases hdefined : (converseAll a.appdata answers.authenticate.talks).1 with
  | false => exact ⟨rfl, h⟩
  | true =>
      by_cases hincomplete : a.state = .hasLogin ∧ answers.authenticate.code = pamIncomplete
      · simp only [Bool.not_true, Bool.false_eq_true, if_false, if_pos hincomplete]
        obtain ⟨flag, token, data, rfl⟩ := h.other hstate
        exact ⟨rfl, rfl, rfl, fun _ ↦ rfl, rfl, rfl, by simp⟩
      · simp only [Bool.not_true, Bool.false_eq_true, if_false, if_neg hincomplete]
        by_cases hcode : answers.authenticate.code = pamSuccess
        · simp only [if_neg (not_not_intro hcode)]
          exact ⟨Stepped.seen_behind _ (haccount hcode).1, (haccount hcode).2⟩
        · simp only [ne_eq, hcode, not_false_eq_true, if_true]
          exact h.rejected hstate _ _ _ _

end Checks

/-- The conversations of the checks. -/
theorem PAMAuthenticator.Ending.mem_converse {a : PAMAuthenticator} {answers : Answers}
    {last : Stepped} {talk : Conversation} {reply : Reply} (h : Ending a answers last)
    (hmem : .converse talk reply ∈ last.calls) :
    talk ∈ answers.talks ∧ (pamConvFunc a.appdata talk).1 = some reply := by
  have hauth (hcall : .converse talk reply ∈ a.authTalk answers) :
      talk ∈ answers.talks ∧ (pamConvFunc a.appdata talk).1 = some reply := by
    obtain ⟨htalk, hreply⟩ := mem_converse_all hcall
    exact ⟨List.mem_append_left _ htalk, hreply⟩
  have hboth (hcode : answers.authenticate.code = pamSuccess)
      (hcall : .converse talk reply ∈ a.authTalk answers ∨
        .converse talk reply ∈ a.acctTalk answers) :
      talk ∈ answers.talks ∧ (pamConvFunc a.appdata talk).1 = some reply := by
    rcases hcall with hcall | hcall
    · exact hauth hcall
    · obtain ⟨htalk, hreply⟩ := mem_converse_all hcall
      exact ⟨List.mem_append_right _ (by rwa [if_pos hcode]), hreply⟩
  cases h with
  | authCrash _ => exact hauth hmem
  | incomplete _ _ => exact hauth (by simpa [authCalls] using hmem)
  | notAuthenticated _ => exact hauth (by simpa [authCalls] using hmem)
  | acctCrash hcode _ => exact hboth hcode (by simpa [authCalls] using hmem)
  | noAccount hcode _ => exact hboth hcode (by simpa [acctCalls, authCalls] using hmem)
  | endFailed hends _ => exact hboth hends.2.1 (by simpa [acctCalls, authCalls] using hmem)
  | success hends _ => exact hboth hends.2.1 (by simpa [acctCalls, authCalls] using hmem)

/-! ## Attempts -/

/-- The step ends an attempt. -/
def Stepped.Ends (step : Stepped) : Prop :=
  step.outcome = .returned .success ∨ step.outcome = .returned .fail

instance (step : Stepped) : Decidable step.Ends := inferInstanceAs (Decidable (_ ∨ _))

/-- A session, and next to it an authenticator that was constructed when the attempt began. -/
structure Watched where
  session : Session
  twin : PAMAuthenticator
  deriving DecidableEq, Repr

namespace Watched

/-- A new authenticator. -/
def start (service : List Byte) : Watched := ⟨.start service, .new service⟩

/-- Both authenticators take the same action with the same answers of PAM. -/
def act (w : Watched) (action : Action) : Watched :=
  if w.session.crashed then w
  else match action with
    | .nextStep answers =>
        { session := w.session.stepped answers
          twin :=
            if (w.session.auth.nextStep w.session.opened answers).Ends then .new w.twin.service
            else (w.twin.nextStep w.session.opened answers).auth }
    | .receiveData data => ⟨w.session.received data, (w.twin.receiveData data).1⟩

/-- An isolated step: the authenticator does what an authenticator does that was constructed when
the attempt began, and its conversation function gives away the password received in this attempt
and no other, and asks for one if none was received. -/
def Isolated (w : Watched) : Action → Prop
  | .nextStep answers => w.session.crashed = false →
      (w.session.auth.nextStep w.session.opened answers).seen =
          (w.twin.nextStep w.session.opened answers).seen ∧
        ∀ talk reply,
          .converse talk reply ∈ (w.session.auth.nextStep w.session.opened answers).calls →
          (∀ given, reply.resp = some given → w.session.passwords = [given]) ∧
            (w.session.passwords = [] → talk.asksPassword = true → reply.code = pamConvAgain)
  | .receiveData data => w.session.crashed = false →
      (w.session.auth.receiveData data).2 = (w.twin.receiveData data).2

/-- A step that mixes no passwords: when PAM asks for a password, the flag `has_pass` is not left
from an earlier attempt, and the password has no zero byte. -/
def Unmixed (w : Watched) : Action → Prop
  | .nextStep answers => ∀ talk ∈ answers.talks, talk.asksPassword = true →
      (w.session.auth.state = .hasLogin → answers.start = pamSuccess →
        w.session.auth.appdata.hasPass = false) ∧
        (w.session.auth.state = .hasPass → 0 ∉ w.session.auth.appdata.pass)
  | .receiveData _ => True

instance (w : Watched) : (action : Action) → Decidable (w.Unmixed action)
  | .nextStep answers => inferInstanceAs (Decidable (∀ talk ∈ answers.talks, _ → _))
  | .receiveData _ => inferInstanceAs (Decidable True)

/-- The authenticator and its twin are in the same attempt, with the same password if there is
one. -/
structure Twins (w : Watched) : Prop where
  alike : Alike w.session.auth w.twin
  fresh : w.session.auth.state = .needLogin ∨ w.session.auth.state = .hasLogin ∨
    w.session.auth.state = .needPass → w.twin.appdata.hasPass = false ∧ w.session.passwords = []
  pass : w.session.auth.state = .hasPass → w.session.auth.appdata.hasPass = true ∧
    w.session.passwords = [w.session.auth.appdata.pass]

/-- A new authenticator is its own twin. -/
theorem twins_start (service : List Byte) : (start service).Twins where
  alike := ⟨rfl, rfl, fun _ ↦ rfl, rfl, rfl, fun _ ↦ rfl⟩
  fresh := fun _ ↦ ⟨rfl, rfl⟩
  pass := by simp [start, Session.start, PAMAuthenticator.new]

/-- The conversations of the checks are isolated. -/
theorem Twins.converse {w : Watched} (h : w.Twins) {answers : Answers}
    (hclean : w.Unmixed (.nextStep answers)) {a : PAMAuthenticator} {last : Stepped}
    (hstate : w.session.auth.state = .hasLogin ∧ answers.start = pamSuccess ∨
      w.session.auth.state = .hasPass)
    (hflag : a.appdata.hasPass = w.session.auth.appdata.hasPass)
    (hpass : a.appdata.pass = w.session.auth.appdata.pass) (hlast : Ending a answers last)
    {talk : Conversation} {reply : Reply} (hmem : .converse talk reply ∈ last.calls) :
    (∀ given, reply.resp = some given → w.session.passwords = [given]) ∧
      (w.session.passwords = [] → talk.asksPassword = true → reply.code = pamConvAgain) := by
  obtain ⟨htalk, hreply⟩ := hlast.mem_converse hmem
  rcases hstate with ⟨hstate, hcode⟩ | hstate
  · constructor
    · intro given hgiven
      obtain ⟨hset, -, hasks⟩ := pam_conv_func_resp hreply hgiven
      have hunset := (hclean talk htalk hasks).1 hstate hcode
      rw [hflag, hunset] at hset
      cases hset
    · intro _ hasks
      have hunset := (hclean talk htalk hasks).1 hstate hcode
      rw [pam_conv_func_again (hflag.trans hunset) hasks] at hreply
      exact (congrArg Reply.code (Option.some.inj hreply)).symm
  · obtain ⟨-, hpasswords⟩ := h.pass hstate
    constructor
    · intro given hgiven
      obtain ⟨-, hsame, hasks⟩ := pam_conv_func_resp hreply hgiven
      have hzero := (hclean talk htalk hasks).2 hstate
      rw [hsame, hpass, (c_str_eq_iff _).mpr hzero]
      exact hpasswords
    · intro hnone
      rw [hpasswords] at hnone
      cases hnone

/-- What the authenticator and its twin do in a step when the step is isolated. -/
structure Agree (w : Watched) (mine other : Stepped) : Prop where
  seen : mine.seen = other.seen
  alike : Alike mine.auth other.auth
  ends : mine.Ends → mine.auth.service = w.twin.service ∧ mine.auth.state = .needLogin ∧
    mine.auth.appdata.h = none ∧ mine.auth.appdata.pass = []
  fresh : ¬ mine.Ends → mine.auth.state = .needLogin ∨ mine.auth.state = .hasLogin ∨
    mine.auth.state = .needPass → other.auth.appdata.hasPass = false ∧ w.session.passwords = []
  pass : ¬ mine.Ends → mine.auth.state = .hasPass → mine.auth.appdata.hasPass = true ∧
    w.session.passwords = [mine.auth.appdata.pass]
  converse : ∀ talk reply, .converse talk reply ∈ mine.calls →
    (∀ given, reply.resp = some given → w.session.passwords = [given]) ∧
      (w.session.passwords = [] → talk.asksPassword = true → reply.code = pamConvAgain)

/-- Steps that agree lead to twins. -/
theorem Agree.twins {w : Watched} {answers : Answers} (hcrashed : w.session.crashed = false)
    (h : w.Agree (w.session.auth.nextStep w.session.opened answers)
      (w.twin.nextStep w.session.opened answers)) :
    (w.act (.nextStep answers)).Twins := by
  rw [act, hcrashed, if_neg Bool.false_ne_true]
  generalize w.twin.nextStep w.session.opened answers = other at h
  show Twins ⟨w.session.stepped answers, _⟩
  unfold Session.stepped
  generalize w.session.auth.nextStep w.session.opened answers = mine at h
  by_cases hends : mine.Ends
  · obtain ⟨hservice, hstate, hhandle, hpass⟩ := h.ends hends
    rw [if_pos hends]
    refine ⟨⟨hservice, hstate, fun hnot ↦ absurd hstate hnot, hhandle, hpass, ?_⟩,
      fun _ ↦ ⟨rfl, if_pos hends⟩, ?_⟩
    · intro hgoes
      exact absurd (hstate.symm.trans hgoes) (by decide)
    · intro hgoes
      exact absurd (hstate.symm.trans hgoes) (by decide)
  · rw [if_neg hends]
    refine ⟨h.alike, ?_, ?_⟩
    · intro hgoes
      obtain ⟨hflag, hnone⟩ := h.fresh hends hgoes
      exact ⟨hflag, (if_neg hends).trans hnone⟩
    · intro hgoes
      obtain ⟨hflag, hone⟩ := h.pass hends hgoes
      exact ⟨hflag, (if_neg hends).trans hone⟩

/-- The checks leave the flag `has_pass` alone. -/
theorem ending_has_pass {a : PAMAuthenticator} {answers : Answers} {last : Stepped}
    (h : Ending a answers last) : last.auth.appdata.hasPass = a.appdata.hasPass := by
  cases h <;> rfl

/-- Checks behind which the authenticator still has its password have not changed it. -/
theorem ending_unchanged {a : PAMAuthenticator} {answers : Answers} {last : Stepped}
    (h : Ending a answers last) (hgoes : last.auth.state = .hasPass) : last.auth = a := by
  cases h with
  | authCrash _ => rfl
  | acctCrash _ _ => rfl
  | endFailed _ _ => rfl
  | incomplete _ _ => cases hgoes
  | notAuthenticated _ => cases hgoes
  | noAccount _ _ => cases hgoes
  | success _ _ => cases hgoes

/-- The checks end the attempt only with success. -/
theorem ending_ends {a : PAMAuthenticator} {answers : Answers} {last : Stepped}
    (h : Ending a answers last) (hends : last.Ends) :
    last.auth.service = a.service ∧ last.auth.state = .needLogin ∧
      last.auth.appdata.h = none ∧ last.auth.appdata.pass = [] := by
  cases h with
  | success _ _ => exact ⟨rfl, rfl, rfl, rfl⟩
  | authCrash _ => exact absurd hends (by simp [Stepped.Ends])
  | incomplete _ _ => exact absurd hends (by simp [Stepped.Ends])
  | notAuthenticated _ => exact absurd hends (by simp [Stepped.Ends])
  | acctCrash _ _ => exact absurd hends (by simp [Stepped.Ends])
  | noAccount _ _ => exact absurd hends (by simp [Stepped.Ends])
  | endFailed _ _ => exact absurd hends (by simp [Stepped.Ends])

/-- Behind the checks an attempt still waits for a password only if it began without one. -/
theorem ending_waits {a : PAMAuthenticator} {answers : Answers} {last : Stepped}
    (h : Ending a answers last) (hends : ¬ last.Ends) (hpass : a.state = .hasPass)
    (hgoes : last.auth.state = .needLogin ∨ last.auth.state = .hasLogin ∨
      last.auth.state = .needPass) : False := by
  cases h with
  | incomplete hlogin _ => exact absurd (hlogin.symm.trans hpass) (by decide)
  | success _ _ => exact absurd (.inl rfl) hends
  | authCrash _ => simp [hpass] at hgoes
  | notAuthenticated _ => simp [rejected] at hgoes
  | acctCrash _ _ => simp [hpass] at hgoes
  | noAccount _ _ => simp [rejected] at hgoes
  | endFailed _ _ => simp [hpass] at hgoes

/-- A leftover flag makes no difference as long as PAM does not ask for the password. -/
theorem Twins.talks {w : Watched} (h : w.Twins) {answers : Answers} {a b : PAMAuthenticator}
    (hclean : w.Unmixed (.nextStep answers))
    (hstate : w.session.auth.state = .hasLogin ∧ answers.start = pamSuccess ∨
      w.session.auth.state = .hasPass)
    (halike : Alike a b) (hmine : a.state = w.session.auth.state)
    (hflaga : a.appdata.hasPass = w.session.auth.appdata.hasPass)
    (hflagb : b.appdata.hasPass = w.twin.appdata.hasPass) {talks : List Conversation}
    (hmem : ∀ talk ∈ talks, talk ∈ answers.talks) :
    converseAll a.appdata talks = converseAll b.appdata talks := by
  refine converse_all_congr halike.handle ?_
  by_cases hunasked : ∀ talk ∈ talks, talk.asksPassword = false
  · exact .inr hunasked
  · obtain ⟨talk, htalk, hasks⟩ : ∃ talk ∈ talks, talk.asksPassword = true := by
      simpa using hunasked
    refine .inl ⟨?_, halike.pass⟩
    rcases hstate with ⟨hstate, hcode⟩ | hstate
    · have hunset := (hclean talk (hmem talk htalk) hasks).1 hstate hcode
      have hfresh := (h.fresh (.inr (.inl hstate))).1
      exact (hflaga.trans hunset).trans (hflagb.trans hfresh).symm
    · exact halike.hasPass (hmine.trans hstate)

/-- The checks of twins agree. -/
theorem Twins.checks {w : Watched} (h : w.Twins) {answers : Answers} {a b : PAMAuthenticator}
    (hclean : w.Unmixed (.nextStep answers))
    (hstate : w.session.auth.state = .hasLogin ∧ answers.start = pamSuccess ∨
      w.session.auth.state = .hasPass)
    (ha : ∃ handle, a =
      { w.session.auth with appdata := { w.session.auth.appdata with h := handle } } ∧
      b = { w.twin with appdata := { w.twin.appdata with h := handle } }) :
    w.Agree (a.checkPass answers) (b.checkPass answers) := by
  obtain ⟨handle, ha, hb⟩ := ha
  have hmine : a.state = w.session.auth.state := by rw [ha]
  have hflagb : b.appdata.hasPass = w.twin.appdata.hasPass := by rw [hb]
  have hflaga : a.appdata.hasPass = w.session.auth.appdata.hasPass := by rw [ha]
  have hpassa : a.appdata.pass = w.session.auth.appdata.pass := by rw [ha]
  have halike : Alike a b := by
    obtain ⟨hservice, hsame, hlogin, -, hpass, hflag⟩ := h.alike
    rw [ha, hb]
    exact ⟨hservice, hsame, hlogin, rfl, hpass, hflag⟩
  obtain ⟨hseen, hafter⟩ := halike.check_pass (by rw [hmine]; exact hstate.imp_left And.left)
    fun _ hmem ↦ h.talks hclean hstate halike hmine hflaga hflagb hmem
  have hother := check_pass_ending b answers
  have hlast := check_pass_ending a answers
  refine ⟨hseen, hafter, ?_, ?_, ?_,
    fun talk reply hcall ↦ h.converse hclean hstate hflaga hpassa hlast hcall⟩
  · intro hends
    have hservice : a.service = w.twin.service := by
      rw [ha]
      exact h.alike.service
    obtain ⟨hsame, hends⟩ := ending_ends hlast hends
    exact ⟨hsame.trans hservice, hends⟩
  · intro hends hgoes
    have hbegan : w.session.auth.state = .hasLogin := by
      rcases hstate with ⟨hstate, -⟩ | hstate
      · exact hstate
      · exact (ending_waits hlast hends (hmine.trans hstate) hgoes).elim
    obtain ⟨hflag, hnone⟩ := h.fresh (.inr (.inl hbegan))
    exact ⟨(ending_has_pass hother).trans (hflagb.trans hflag), hnone⟩
  · intro hends hgoes
    have hunchanged := ending_unchanged hlast hgoes
    rw [hunchanged, hmine] at hgoes
    rw [hunchanged, hflaga, hpassa]
    exact h.pass hgoes

/-- The calls in front do not matter for what is seen. -/
theorem seen_cons {mine other : Stepped} (h : mine.seen = other.seen) (call : Call) :
    Stepped.seen { mine with calls := call :: mine.calls } =
      Stepped.seen { other with calls := call :: other.calls } := by
  simp only [Stepped.seen, Prod.mk.injEq] at h ⊢
  exact ⟨h.1, by rw [h.2.1], h.2.2⟩

/-- A step of twins agrees if it mixes no passwords. -/
theorem Twins.next_step {w : Watched} (h : w.Twins) {answers : Answers}
    (hclean : w.Unmixed (.nextStep answers)) :
    w.Agree (w.session.auth.nextStep w.session.opened answers)
      (w.twin.nextStep w.session.opened answers) := by
  have hsame := h.alike.state
  cases hstate : w.session.auth.state with
  | needLogin =>
      rw [hstate] at hsame
      rw [nextStep, nextStep, hstate, ← hsame]
      obtain ⟨hservice, -, -, hhandle, hpass, -⟩ := h.alike
      refine ⟨?_, ⟨hservice, rfl, fun hnot ↦ absurd rfl hnot, hhandle, hpass, by simp⟩,
        by simp [Stepped.Ends], fun _ _ ↦ h.fresh (.inl hstate), by simp, by simp⟩
      simp [Stepped.seen, sendData]
  | hasLogin =>
      rw [hstate] at hsame
      have hlogin := h.alike.login (by simp [hstate])
      have hservice := h.alike.service
      rw [nextStep, nextStep, hstate, ← hsame]
      unfold startSession
      by_cases hcode : answers.start = pamSuccess
      · rw [if_neg (not_not_intro hcode), if_neg (not_not_intro hcode)]
        obtain ⟨hseen, halike, hends, hfresh, hpass, hconverse⟩ :=
          h.checks hclean (.inl ⟨hstate, hcode⟩) ⟨some w.session.opened, rfl, rfl⟩
        refine ⟨?_, halike, hends, hfresh, hpass, ?_⟩
        · rw [hlogin]
          exact seen_cons hseen _
        · intro talk reply hcall
          rcases List.mem_cons.mp hcall with hcall | hcall
          · cases hcall
          · exact hconverse talk reply hcall
      · rw [if_pos hcode, if_pos hcode]
        obtain ⟨-, hsame', -, -, hpass, hflag⟩ := h.alike
        refine ⟨?_, ⟨hservice, hsame', fun _ ↦ hlogin, rfl, hpass, hflag⟩, by simp [Stepped.Ends],
          fun _ _ ↦ h.fresh (.inr (.inl hstate)), fun _ hgoes ↦ h.pass hgoes, by simp⟩
        simp [Stepped.seen, failed, hlogin, hservice]
  | needPass =>
      rw [hstate] at hsame
      rw [nextStep, nextStep, hstate, ← hsame]
      exact ⟨rfl, h.alike, by simp [Stepped.Ends], fun _ _ ↦ h.fresh (.inr (.inr hstate)),
        fun _ hgoes ↦ h.pass hgoes, by simp⟩
  | hasPass =>
      rw [hstate] at hsame
      rw [nextStep, nextStep, hstate, ← hsame]
      refine h.checks hclean (.inr hstate) ⟨w.session.auth.appdata.h, rfl, ?_⟩
      rw [h.alike.handle]
  | error =>
      rw [hstate] at hsame
      rw [nextStep, nextStep, hstate, ← hsame]
      have hservice := h.alike.service
      refine ⟨?_, ⟨hservice, rfl, by simp, rfl, rfl, by simp⟩, fun _ ↦ ⟨hservice, rfl, rfl, rfl⟩,
        fun hends ↦ absurd (.inr rfl) hends, by simp, by simp⟩
      simp [Stepped.seen]

/-- Data is received by both. -/
theorem Twins.receive_data {w : Watched} (h : w.Twins) (data : List Byte) :
    (w.session.auth.receiveData data).2 = (w.twin.receiveData data).2 ∧
      Twins ⟨w.session.received data, (w.twin.receiveData data).1⟩ := by
  obtain ⟨⟨hservice, hsame, hlogin, hhandle, hpass, hflag⟩, hfresh, hgot⟩ := h
  unfold PAMAuthenticator.receiveData Session.received
  rw [← hsame]
  cases hstate : w.session.auth.state with
  | needLogin =>
      obtain ⟨hunset, hnone⟩ := hfresh (.inl hstate)
      simp only [PAMAuthenticator.receiveData, hstate]
      refine ⟨trivial,
        ⟨hservice, rfl, fun _ ↦ rfl, hhandle, hpass, by simp⟩, fun _ ↦ ⟨hunset, ?_⟩, by simp⟩
      simpa using hnone
  | needPass =>
      obtain ⟨-, hnone⟩ := hfresh (.inr (.inr hstate))
      simp only [PAMAuthenticator.receiveData, hstate]
      refine ⟨trivial,
        ⟨hservice, rfl, fun _ ↦ hlogin (by simp [hstate]), hhandle, rfl, fun _ ↦ rfl⟩, by simp,
        fun _ ↦ ⟨rfl, ?_⟩⟩
      simp [hnone]
  | hasLogin =>
      obtain ⟨hunset, hnone⟩ := hfresh (.inr (.inl hstate))
      simp only [PAMAuthenticator.receiveData, hstate]
      exact ⟨trivial, ⟨hservice, hsame, hlogin, hhandle, hpass, hflag⟩, fun _ ↦
        ⟨hunset, by simpa using hnone⟩,
        by simp [hstate]⟩
  | hasPass =>
      simp only [PAMAuthenticator.receiveData, hstate]
      exact ⟨trivial, ⟨hservice, hsame, hlogin, hhandle, hpass, hflag⟩, by simp [hstate],
        fun _ ↦ by simpa using hgot hstate⟩
  | error =>
      simp only [PAMAuthenticator.receiveData, hstate]
      exact ⟨trivial, ⟨hservice, hsame, hlogin, hhandle, hpass, hflag⟩,
        by simp [hstate], by simp [hstate]⟩

/-- A step of twins that mixes no passwords is isolated, and leads to twins. -/
theorem Twins.act {w : Watched} (h : w.Twins) {action : Action} (hclean : w.Unmixed action) :
    w.Isolated action ∧ (w.act action).Twins := by
  cases hcrashed : w.session.crashed with
  | true =>
      have hsame : w.act action = w := by
        unfold Watched.act
        rw [hcrashed, if_pos rfl]
      refine ⟨?_, by rwa [hsame]⟩
      cases action <;> exact fun hgoes ↦ absurd (hcrashed.symm.trans hgoes) (by decide)
  | false =>
      cases action with
      | nextStep answers =>
          have hagree := h.next_step hclean
          exact ⟨fun _ ↦ ⟨hagree.seen, hagree.converse⟩, hagree.twins hcrashed⟩
      | receiveData data =>
          obtain ⟨hsame, htwins⟩ := h.receive_data data
          refine ⟨fun _ ↦ hsame, ?_⟩
          rw [Watched.act, hcrashed, if_neg Bool.false_ne_true]
          exact htwins

end Watched

/-- Login attempts are isolated from each other in every run that mixes no passwords. -/
theorem attempts_isolated (service : List Byte) (actions : List Action)
    (hclean : Runs.Each Watched.act Watched.Unmixed (.start service) actions) :
    Runs.Each Watched.act Watched.Isolated (.start service) actions :=
  Runs.each_rule (fun _ _ htwins hunmixed ↦ Watched.Twins.act htwins hunmixed)
    (Watched.twins_start service) hclean

/-- A conversation that asks for the password. -/
def passwordTalk : Conversation :=
    ⟨[⟨.promptEchoOff, some (text "Password: "), true, pamSuccess⟩], true⟩

/-- A library that asks for the password when the user is authenticated with this result. -/
def asking (code : Int) : Answers := { consenting with authenticate := ⟨[passwordTalk], code⟩ }

/-- The attempt of the user `alice`, who has a password, and then the attempt of `bob`, whose check
asks for none. -/
theorem attempts_isolated_alice :
    Runs.Each Watched.act Watched.Isolated (.start (text "smerp"))
      [.receiveData (text "alice"), .nextStep (asking pamIncomplete), .receiveData (text "secret"),
        .nextStep (asking pamSuccess), .receiveData (text "bob"), .nextStep consenting] :=
  attempts_isolated (text "smerp") _ (by
    refine ⟨trivial, ?_, trivial, ?_, trivial, ?_, trivial⟩
    · decide
    · decide
    · decide)

/-- After the attempt of `alice` the check of `bob` gets an empty password, which nobody has
sent. -/
theorem not_attempts_isolated : ¬ ∀ (service : List Byte) (actions : List Action),
    Runs.Each Watched.act Watched.Isolated (.start service) actions := by
  intro h
  have hisolated := h (text "smerp")
    [.receiveData (text "alice"), .nextStep (asking pamIncomplete), .receiveData (text "secret"),
      .nextStep (asking pamSuccess), .receiveData (text "bob"), .nextStep (asking pamIncomplete)]
  obtain ⟨-, hreplies⟩ := hisolated.2.2.2.2.2.1 rfl
  have hcode := (hreplies passwordTalk ⟨pamSuccess, some []⟩ (by decide)).2 rfl rfl
  exact absurd hcode (by decide)

end Smerp.Authentication
