import Smerp.Authentication.Pam

/-!
# What a step of the PAM authenticator can do

`Ending` lists the ways through `case _SMERP_PAM_STATE_HAS_PASS`, with the calls of the library that
each of them makes. What holds of every session is derived from it.
-/

namespace Smerp.Authentication

/-! ## Conversations -/

/-- A call made while the conversation function runs: it is one of it, or it gets the handle of the
authenticator. -/
inductive IsTalk (h : Option Handle) : Call → Prop
  | converse (talk : Conversation) (reply : Reply) : IsTalk h (.converse talk reply)
  | getItem : IsTalk h (.getItem h)
  | strerror : IsTalk h (.strerror h)

/-- The calls made by the conversation function. -/
theorem answer_all_calls (appdata : AppData) (resp : Option (List Byte)) (msgs : List PamMessage) :
    ∀ call ∈ (answerAll appdata resp msgs).2,
      call = .getItem appdata.h ∨ call = .strerror appdata.h := by
  induction msgs generalizing resp with
  | nil => simp [answerAll]
  | cons m rest ih =>
      unfold answerAll
      by_cases hmsg : m.msg = none
      · simp [hmsg]
      · rw [if_neg hmsg]
        cases m.style with
        | promptEchoOff =>
            by_cases hpass : appdata.hasPass = true
            · cases m.strdup with
              | false => simp [hpass]
              | true => simpa [hpass] using ih (some (cStr appdata.pass))
            · simp [hpass]
        | promptEchoOn =>
            by_cases hprompt : m.userPrompt = pamSuccess
            · simp [hprompt]
            · simp [hprompt]
        | errorMsg => exact ih none
        | textInfo => exact ih none
        | unknown style => simp

/-- The calls made by the conversation function. -/
theorem pam_conv_func_calls (appdata : AppData) (talk : Conversation) :
    ∀ call ∈ (pamConvFunc appdata talk).2,
      call = .getItem appdata.h ∨ call = .strerror appdata.h := by
  unfold pamConvFunc
  split
  · simp
  · split
    · simp
    · exact answer_all_calls appdata none talk.msgs

/-- The calls of all conversations. -/
theorem converse_all_calls (appdata : AppData) (talks : List Conversation) :
    ∀ call ∈ (converseAll appdata talks).2, IsTalk appdata.h call := by
  induction talks with
  | nil => simp [converseAll]
  | cons talk more ih =>
      have hfirst : ∀ call ∈ (pamConvFunc appdata talk).2, IsTalk appdata.h call := by
        intro call hcall
        rcases pam_conv_func_calls appdata talk call hcall with rfl | rfl
        · exact .getItem
        · exact .strerror
      unfold converseAll
      generalize pamConvFunc appdata talk = result at hfirst
      obtain ⟨reply, calls⟩ := result
      cases reply with
      | none => exact hfirst
      | some reply =>
          intro call hcall
          simp only [List.mem_append, List.mem_cons] at hcall
          rcases hcall with hcall | rfl | hcall
          · exact hfirst call hcall
          · exact .converse talk reply
          · exact ih call hcall

/-! ## Checks -/

namespace PAMAuthenticator

/-- The calls of the conversations of `pam_authenticate`. -/
def authTalk (a : PAMAuthenticator) (answers : Answers) : List Call :=
  (converseAll a.appdata answers.authenticate.talks).2

/-- The calls of the conversations of `pam_acct_mgmt`. -/
def acctTalk (a : PAMAuthenticator) (answers : Answers) : List Call :=
  (converseAll a.appdata answers.acctMgmt.talks).2

/-- The calls up to the check of the account. -/
def authCalls (a : PAMAuthenticator) (answers : Answers) : List Call :=
  a.authTalk answers ++ [.authenticate a.appdata.h answers.authenticate.code]

/-- The calls up to the end of the session. -/
def acctCalls (a : PAMAuthenticator) (answers : Answers) : List Call :=
  a.authCalls answers ++ (a.acctTalk answers ++ [.acctMgmt a.appdata.h answers.acctMgmt.code])

/-- Both checks succeed, and `pam_end` is called. -/
def EndsSession (a : PAMAuthenticator) (answers : Answers) : Prop :=
  (converseAll a.appdata answers.authenticate.talks).1 = true ∧
    answers.authenticate.code = pamSuccess ∧
    (converseAll a.appdata answers.acctMgmt.talks).1 = true ∧ answers.acctMgmt.code = pamSuccess

instance (a : PAMAuthenticator) (answers : Answers) : Decidable (a.EndsSession answers) :=
  inferInstanceAs (Decidable (_ ∧ _))

/-- The ways through `case _SMERP_PAM_STATE_HAS_PASS`. -/
inductive Ending (a : PAMAuthenticator) (answers : Answers) : Stepped → Prop
  | authCrash (hcrash : (converseAll a.appdata answers.authenticate.talks).1 = false) :
      Ending a answers ⟨a, .undefined, a.authTalk answers⟩
  | incomplete (hstate : a.state = .hasLogin) (hcode : answers.authenticate.code = pamIncomplete) :
      Ending a answers
        ⟨{ a with token := text "password", state := .needPass }, .returned .recvData,
          a.authCalls answers⟩
  | notAuthenticated (hcode : answers.authenticate.code ≠ pamSuccess) :
      Ending a answers
        ⟨a.rejected (text "pam_authenticate") answers.strerror answers.authenticate.code,
          .returned .sendData, a.authCalls answers ++ [.strerror a.appdata.h]⟩
  | acctCrash (hcode : answers.authenticate.code = pamSuccess)
      (hcrash : (converseAll a.appdata answers.acctMgmt.talks).1 = false) :
      Ending a answers ⟨a, .undefined, a.authCalls answers ++ a.acctTalk answers⟩
  | noAccount (hcode : answers.authenticate.code = pamSuccess)
      (hacct : answers.acctMgmt.code ≠ pamSuccess) :
      Ending a answers
        ⟨a.rejected (text "pam_acct_mgmt") answers.strerror answers.acctMgmt.code,
          .returned .sendData,
          a.acctCalls answers ++ [.strerror a.appdata.h]⟩
  | endFailed (hends : a.EndsSession answers) (hfinish : answers.finish ≠ pamSuccess) :
      Ending a answers
        ⟨a, .threw (a.failed (text "pam_end") answers.strerror pamSuccess),
          a.acctCalls answers ++ [.finish a.appdata.h answers.finish, .strerror a.appdata.h,
            .finish a.appdata.h answers.finishAgain]⟩
  | success (hends : a.EndsSession answers) (hfinish : answers.finish = pamSuccess) :
      Ending a answers
        ⟨{ a with state := .needLogin, appdata := { a.appdata with h := none, pass := [] } },
          .returned .success, a.acctCalls answers ++ [.finish a.appdata.h pamSuccess]⟩

/-- The check of the account ends in one of the last four ways. -/
theorem check_account_ending {a : PAMAuthenticator} {answers : Answers}
    (htalk : (converseAll a.appdata answers.authenticate.talks).1 = true)
    (hcode : answers.authenticate.code = pamSuccess) :
    Ending a answers { a.checkAccount answers with
      calls := a.authCalls answers ++ (a.checkAccount answers).calls } := by
  cases hcrash : (converseAll a.appdata answers.acctMgmt.talks).1 with
  | false =>
      have hcheck : a.checkAccount answers = ⟨a, .undefined, a.acctTalk answers⟩ := by
        simp [checkAccount, acctTalk, hcrash]
      rw [hcheck]
      exact .acctCrash hcode hcrash
  | true =>
      by_cases hacct : answers.acctMgmt.code = pamSuccess
      · have hcheck : a.checkAccount answers = { a.endSession answers pamSuccess with
            calls := a.acctTalk answers ++ [.acctMgmt a.appdata.h pamSuccess] ++
              (a.endSession answers pamSuccess).calls } := by
          simp [checkAccount, acctTalk, hcrash, hacct]
        rw [hcheck]
        have hends : a.EndsSession answers := ⟨htalk, hcode, hcrash, hacct⟩
        by_cases hfinish : answers.finish = pamSuccess
        · simpa [endSession, hfinish, acctCalls, hacct] using
            Ending.success (a := a) hends hfinish
        · simpa [endSession, hfinish, acctCalls, hacct] using
            Ending.endFailed (a := a) hends hfinish
      · have hcheck : a.checkAccount answers =
            ⟨a.rejected (text "pam_acct_mgmt") answers.strerror answers.acctMgmt.code,
              .returned .sendData, a.acctTalk answers ++
                [.acctMgmt a.appdata.h answers.acctMgmt.code] ++ [.strerror a.appdata.h]⟩ := by
          simp [checkAccount, acctTalk, hcrash, hacct]
        rw [hcheck]
        simpa [acctCalls] using Ending.noAccount (a := a) hcode hacct

/-- `case _SMERP_PAM_STATE_HAS_PASS` ends in one of these ways. -/
theorem check_pass_ending (a : PAMAuthenticator) (answers : Answers) :
    Ending a answers (a.checkPass answers) := by
  cases hcrash : (converseAll a.appdata answers.authenticate.talks).1 with
  | false =>
      have hcheck : a.checkPass answers = ⟨a, .undefined, a.authTalk answers⟩ := by
        simp [checkPass, authTalk, hcrash]
      rw [hcheck]
      exact .authCrash hcrash
  | true =>
      by_cases hincomplete : a.state = .hasLogin ∧ answers.authenticate.code = pamIncomplete
      · have hcheck : a.checkPass answers =
            ⟨{ a with token := text "password", state := .needPass }, .returned .recvData,
              a.authCalls answers⟩ := by
          simp [checkPass, authCalls, authTalk, hcrash, hincomplete]
        rw [hcheck]
        exact .incomplete hincomplete.1 hincomplete.2
      · by_cases hcode : answers.authenticate.code = pamSuccess
        · have hcheck : a.checkPass answers = { a.checkAccount answers with
              calls := a.authCalls answers ++ (a.checkAccount answers).calls } := by
            have hne : pamSuccess ≠ pamIncomplete := by decide
            simp [checkPass, authCalls, authTalk, hcrash, hcode, hne]
          rw [hcheck]
          exact check_account_ending hcrash hcode
        · have hcheck : a.checkPass answers =
              ⟨a.rejected (text "pam_authenticate") answers.strerror answers.authenticate.code,
                .returned .sendData, a.authCalls answers ++ [.strerror a.appdata.h]⟩ := by
            simp [checkPass, authCalls, authTalk, hcrash, hincomplete, hcode]
          rw [hcheck]
          exact .notAuthenticated hcode

/-- The exits from `nextStep`: the states with a handle go through the checks. -/
inductive Step (a : PAMAuthenticator) (opened : Nat) (answers : Answers) : Stepped → Prop
  | needLogin (hstate : a.state = .needLogin) :
      Step a opened answers ⟨{ a with token := text "login" }, .returned .recvData, []⟩
  | startFailed (hstate : a.state = .hasLogin) (hcode : answers.start ≠ pamSuccess) :
      Step a opened answers
        ⟨{ a with appdata := { a.appdata with h := answers.left } },
          .threw (a.failed (text "pam_start") answers.strerror answers.start),
          [.start (cStr a.appdata.login) answers.start answers.left, .strerror answers.left]⟩
  | started {last : Stepped} (hstate : a.state = .hasLogin) (hcode : answers.start = pamSuccess)
      (hlast : Ending { a with appdata := { a.appdata with h := some opened } } answers last) :
      Step a opened answers
        { last with calls := .start (cStr a.appdata.login) pamSuccess (some opened) :: last.calls }
  | resumed {last : Stepped} (hstate : a.state = .hasPass) (hlast : Ending a answers last) :
      Step a opened answers last
  | error (hstate : a.state = .error) :
      Step a opened answers
        ⟨{ a with
            state := .needLogin
            appdata := { a.appdata with h := none, hasPass := false, pass := [] } },
          .returned .fail, [.finish none answers.finish]⟩
  | needPass (hstate : a.state = .needPass) :
      Step a opened answers ⟨a, .threwNew (text "Illegal state in PAMAuthenticator::nextStep!"), []⟩

/-- `nextStep` does one of these. -/
theorem next_step_step (a : PAMAuthenticator) (opened : Nat) (answers : Answers) :
    Step a opened answers (a.nextStep opened answers) := by
  cases hstate : a.state with
  | needLogin =>
      have hstep : a.nextStep opened answers =
          ⟨{ a with token := text "login" }, .returned .recvData, []⟩ := by
        rw [nextStep, hstate]
      rw [hstep]
      exact .needLogin hstate
  | hasLogin =>
      have hstep : a.nextStep opened answers = a.startSession opened answers := by
        rw [nextStep, hstate]
      rw [hstep, startSession]
      by_cases hcode : answers.start = pamSuccess
      · rw [if_neg (not_not_intro hcode), hcode]
        exact .started hstate hcode (check_pass_ending _ answers)
      · rw [if_pos hcode]
        exact .startFailed hstate hcode
  | needPass =>
      rw [nextStep, hstate]
      exact .needPass hstate
  | hasPass =>
      rw [nextStep, hstate]
      exact .resumed hstate (check_pass_ending a answers)
  | error =>
      rw [nextStep, hstate]
      exact .error hstate

end PAMAuthenticator

end Smerp.Authentication
