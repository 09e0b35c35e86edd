import Smerp.Authentication.PamSteps
import Smerp.Lib.Runs

/-!
# The PAM authenticator accepts nobody without the consent of PAM

Behind a login the session knows which login that was, and behind a `pam_start` which handle was
opened for it. `Session.Named` is the invariant that carries both over the password round trip and
over the exceptions of `pam_start` and `pam_end`.
-/

namespace Smerp.Authentication

open Lib PAMAuthenticator

/-- The user and the handle of a successful `pam_start`. -/
def started : Call → Option (List Byte × Handle)
  | .start user code (some h) => if code = pamSuccess then some (user, h) else none
  | _ => none

/-- The user and the handle of the latest successful `pam_start`. -/
def latestStart (calls : List Call) : Option (List Byte × Handle) :=
    (calls.filterMap started).getLast?

/-- A call of `pam_authenticate`, `pam_acct_mgmt` or `pam_end`. -/
def isCheck : Call → Bool
  | .authenticate .. => true
  | .acctMgmt .. => true
  | .finish .. => true
  | _ => false

/-- The calls of a step checked the user whose login was accepted: `pam_authenticate`,
`pam_acct_mgmt` and `pam_end` were called once each and returned `PAM_SUCCESS`, on the handle of the
latest successful `pam_start`, and this was opened for the one login accepted in this attempt. -/
def Consented (s : Session) (calls : List Call) : Prop :=
  ∃ login h, s.logins = [login] ∧ latestStart (s.calls ++ calls) = some (login, h) ∧
    calls.filter isCheck =
      [.authenticate (some h) pamSuccess, .acctMgmt (some h) pamSuccess,
        .finish (some h) pamSuccess]

/-! ## The calls of a step -/

/-- Conversations open no handle. -/
theorem IsTalk.not_started {h : Option Handle} {call : Call} (htalk : IsTalk h call) :
    started call = none := by
  cases htalk <;> rfl

/-- Conversations check nothing. -/
theorem IsTalk.not_check {h : Option Handle} {call : Call} (htalk : IsTalk h call) :
    isCheck call = false := by
  cases htalk <;> rfl

/-- The checks among the calls of a successful ending. -/
theorem filter_check {a : PAMAuthenticator} {answers : Answers} (hends : a.EndsSession answers) :
    (a.acctCalls answers ++ [Call.finish a.appdata.h pamSuccess]).filter isCheck =
      [.authenticate a.appdata.h pamSuccess, .acctMgmt a.appdata.h pamSuccess,
        .finish a.appdata.h pamSuccess] := by
  have htalk (talks : List Conversation) : (converseAll a.appdata talks).2.filter isCheck = [] := by
    refine List.filter_eq_nil_iff.mpr ?_
    intro call hcall
    rw [(converse_all_calls _ talks call hcall).not_check]
    exact Bool.false_ne_true
  simp only [acctCalls, authCalls, authTalk, acctTalk, List.filter_append, htalk, hends.2.1,
    hends.2.2.2]
  rfl

/-- The checks open no handle. -/
theorem PAMAuthenticator.Ending.no_start {a : PAMAuthenticator} {answers : Answers} {last : Stepped}
    (h : Ending a answers last) : last.calls.filterMap started = [] := by
  have htalk (talks : List Conversation) : (converseAll a.appdata talks).2.filterMap started = [] :=
    List.filterMap_eq_nil_iff.mpr fun call hcall ↦
      (converse_all_calls _ talks call hcall).not_started
  cases h <;>
    simp only [acctCalls, authCalls, authTalk, acctTalk, List.filterMap_append, htalk] <;> rfl

namespace Session

/-- In each state the session knows its login, and with a handle the user it was opened for. -/
structure Named (s : Session) : Prop where
  fresh : s.auth.state = .needLogin → s.logins = []
  login : s.auth.state ≠ .needLogin → s.logins = [s.auth.appdata.login]
  handle : s.auth.state = .needPass ∨ s.auth.state = .hasPass →
    ∃ h, s.auth.appdata.h = some h ∧ latestStart s.calls = some (cStr s.auth.appdata.login, h)

/-- A new authenticator has no login. -/
theorem named_start (service : List Byte) : (start service).Named where
  fresh := fun _ ↦ rfl
  login := fun h ↦ absurd rfl h
  handle := by simp [start, PAMAuthenticator.new]

/-- Calls that open no handle leave the latest one. -/
theorem latest_start_append (calls more : List Call) (h : more.filterMap started = []) :
    latestStart (calls ++ more) = latestStart calls := by
  rw [latestStart, List.filterMap_append, h, List.append_nil, latestStart]

/-- Calls that begin with a successful `pam_start` and open no other handle. -/
theorem latest_start_started (calls : List Call) {more : List Call} (user : List Byte)
    (handle : Handle) (h : more.filterMap started = []) :
    latestStart (calls ++ .start user pamSuccess (some handle) :: more) = some (user, handle) := by
  simp [latestStart, started, h]

/-- The checks end an attempt, or leave the login and the handle as they are. -/
theorem Named.ending {s : Session} {a : PAMAuthenticator} {answers : Answers} {last : Stepped}
    {calls : List Call} {handle : Handle} (opened : Nat) (hlast : Ending a answers last)
    (hstate : a.state = .hasLogin ∨ a.state = .hasPass) (hlogin : s.logins = [a.appdata.login])
    (hhandle : a.appdata.h = some handle)
    (hlatest : latestStart calls = some (cStr a.appdata.login, handle)) :
    Named
      { auth := last.auth
        opened := opened
        calls := calls ++ last.calls
        logins := if last.outcome = .returned .success ∨ last.outcome = .returned .fail then []
          else s.logins
        passwords := if last.outcome = .returned .success ∨ last.outcome = .returned .fail then []
          else s.passwords
        crashed := last.outcome = .undefined } := by
  have hstay : a.state ≠ .needLogin := by rcases hstate with hstate | hstate <;> simp [hstate]
  have hsame := latest_start_append calls last.calls hlast.no_start
  refine ⟨?_, ?_, ?_⟩
  · intro hfresh
    cases hlast <;> simp_all [rejected]
  · intro hgoes
    cases hlast <;> simp_all [rejected]
  · intro _
    refine ⟨handle, ?_, ?_⟩
    · cases hlast <;> simp_all [rejected]
    · rw [hsame, hlatest]
      cases hlast <;> rfl

/-- A call of `nextStep` keeps the names. -/
theorem Named.stepped {s : Session} (h : s.Named) (answers : Answers) :
    (s.stepped answers).Named := by
  have hstep := next_step_step s.auth s.opened answers
  rw [Session.stepped]
  generalize s.auth.nextStep s.opened answers = step at hstep
  cases hstep with
  | needLogin hstate =>
      refine ⟨?_, fun hgoes ↦ absurd hstate hgoes, ?_⟩
      · intro _
        simpa using h.fresh hstate
      · intro hhandle
        simp [hstate] at hhandle
  | startFailed hstate hcode =>
      refine ⟨?_, ?_, ?_⟩
      · intro hfresh
        simp [hstate] at hfresh
      · intro _
        simpa using h.login (by simp [hstate])
      · intro hhandle
        simp [hstate] at hhandle
  | @started last hstate hcode hlast =>
      have hlatest : latestStart (s.calls ++ [.start (cStr s.auth.appdata.login) pamSuccess
          (some s.opened)]) = some (cStr s.auth.appdata.login, s.opened) :=
        latest_start_started _ _ _ rfl
      have hnamed := Named.ending (s.opened + (Call.start (cStr s.auth.appdata.login) pamSuccess
          (some s.opened) :: last.calls).countP opens) hlast (.inl hstate)
        (h.login (by simp [hstate])) rfl hlatest
      rwa [List.append_assoc, List.singleton_append] at hnamed
  | resumed hstate hlast =>
      obtain ⟨handle, hhandle, hlatest⟩ := h.handle (.inr hstate)
      exact Named.ending _ hlast (.inr hstate) (h.login (by simp [hstate])) hhandle hlatest
  | error hstate => exact ⟨fun _ ↦ by simp, fun hgoes ↦ absurd rfl hgoes, by simp⟩
  | needPass hstate =>
      refine ⟨?_, ?_, ?_⟩
      · intro hfresh
        simp [hstate] at hfresh
      · intro _
        simpa using h.login (by simp [hstate])
      · intro _
        simpa using h.handle (.inl hstate)

/-- A call of `receiveData` keeps the names. -/
theorem Named.received {s : Session} (h : s.Named) (data : List Byte) :
    (s.received data).Named := by
  cases hstate : s.auth.state with
  | needLogin =>
      have hnone := h.fresh hstate
      refine ⟨?_, ?_, ?_⟩ <;> simp [Session.received, receiveData, hstate, hnone]
  | needPass =>
      have hlogin := h.login (by simp [hstate])
      have hhandle := h.handle (.inl hstate)
      refine ⟨?_, ?_, ?_⟩ <;> simp [Session.received, receiveData, hstate, hlogin, hhandle]
  | hasLogin =>
      have hlogin := h.login (by simp [hstate])
      refine ⟨?_, ?_, ?_⟩ <;> simp [Session.received, receiveData, hstate, hlogin]
  | hasPass =>
      have hlogin := h.login (by simp [hstate])
      have hhandle := h.handle (.inr hstate)
      refine ⟨?_, ?_, ?_⟩ <;> simp [Session.received, receiveData, hstate, hlogin, hhandle]
  | error =>
      have hlogin := h.login (by simp [hstate])
      refine ⟨?_, ?_, ?_⟩ <;> simp [Session.received, receiveData, hstate, hlogin]

/-- Every action keeps the names. -/
theorem Named.act {s : Session} (h : s.Named) (action : Action) : (s.act action).Named := by
  unfold Session.act
  by_cases hcrashed : s.crashed = true
  · rwa [if_pos hcrashed]
  · rw [if_neg hcrashed]
    cases action with
    | nextStep answers => exact h.stepped answers
    | receiveData data => exact h.received data

end Session

/-- **Nobody is accepted without the consent of PAM.** Behind any run, when `nextStep` returns
`SUCCESS`, the checks of this call consented to the login accepted in this attempt, if and only if
that login has no zero byte, at which the C string that `pam_start` gets would end. -/
theorem success_consented_iff (service : List Byte) (actions : List Action) (answers : Answers)
    (hsuccess : ((Runs.last Session.act (.start service) actions).auth.nextStep
      (Runs.last Session.act (.start service) actions).opened answers).outcome =
        .returned .success) :
    Consented (Runs.last Session.act (.start service) actions)
        ((Runs.last Session.act (.start service) actions).auth.nextStep
          (Runs.last Session.act (.start service) actions).opened answers).calls ↔
      ∀ login ∈ (Runs.last Session.act (.start service) actions).logins, 0 ∉ login := by
  have hnamed : Session.Named (Runs.last Session.act (.start service) actions) :=
    Runs.last_rule (fun _ action h ↦ h.act action) (Session.named_start service) actions
  generalize Runs.last Session.act (.start service) actions = s at hnamed hsuccess ⊢
  -- whatever the way to `SUCCESS`, the calls are the three checks on the handle of the login
  have hconsent {handle : Handle} (hlogins : s.logins = [s.auth.appdata.login])
      {calls : List Call}
      (hlatest : latestStart (s.calls ++ calls) = some (cStr s.auth.appdata.login, handle))
      (hchecks : calls.filter isCheck = [.authenticate (some handle) pamSuccess,
        .acctMgmt (some handle) pamSuccess, .finish (some handle) pamSuccess]) :
      Consented s calls ↔ ∀ login ∈ s.logins, 0 ∉ login := by
    rw [hlogins, List.forall_mem_singleton, ← c_str_eq_iff]
    constructor
    · rintro ⟨login, handle', hlogins', hlatest', -⟩
      rw [hlatest] at hlatest'
      rw [hlogins] at hlogins'
      cases hlatest'
      exact (List.singleton_inj.mp hlogins').symm
    · intro hlogin
      exact ⟨s.auth.appdata.login, handle, hlogins, by rw [hlatest, hlogin], hchecks⟩
  have hstep := next_step_step s.auth s.opened answers
  generalize s.auth.nextStep s.opened answers = step at hstep hsuccess ⊢
  cases hstep with
  | needLogin hstate => cases hsuccess
  | startFailed hstate hcode => cases hsuccess
  | @started last hstate hcode hlast =>
      have hlatest := Session.latest_start_started s.calls (cStr s.auth.appdata.login)
        s.opened hlast.no_start
      refine hconsent (hnamed.login (by simp [hstate])) hlatest ?_
      cases hlast with
      | success hends hfinish => exact filter_check hends
      | _ => cases hsuccess
  | @resumed last hstate hlast =>
      obtain ⟨handle, hhandle, hlatest⟩ := hnamed.handle (.inr hstate)
      have hsame := Session.latest_start_append s.calls step.calls hlast.no_start
      refine hconsent (hnamed.login (by simp [hstate])) (hsame.trans hlatest) ?_
      cases hlast with
      | success hends hfinish => exact hhandle ▸ filter_check hends
      | _ => cases hsuccess
  | error hstate => cases hsuccess
  | needPass hstate => cases hsuccess

/-- A library that consents to everybody. -/
def consenting : Answers :=
    ⟨pamSuccess, none, ⟨[], pamSuccess⟩, ⟨[], pamSuccess⟩, pamSuccess, pamSuccess, []⟩

/-- The user `alice` of the service `smerp`. -/
theorem success_consented_iff_alice :
    Consented (Runs.last Session.act (.start (text "smerp")) [.receiveData (text "alice")])
        ((Runs.last Session.act (.start (text "smerp")) [.receiveData (text "alice")]).auth.nextStep
          (Runs.last Session.act (.start (text "smerp")) [.receiveData (text "alice")]).opened
          consenting).calls ↔
      ∀ login ∈
        (Runs.last Session.act (.start (text "smerp")) [.receiveData (text "alice")]).logins,
        0 ∉ login :=
  success_consented_iff (text "smerp") [.receiveData (text "alice")] consenting rfl

/-- The login `alice`, a zero byte and `x`: the session is opened for the user `alice`. -/
theorem not_success_consented :
    ¬ ∀ (service : List Byte) (actions : List Action) (answers : Answers),
    ((Runs.last Session.act (.start service) actions).auth.nextStep
      (Runs.last Session.act (.start service) actions).opened answers).outcome =
        .returned .success →
    Consented (Runs.last Session.act (.start service) actions)
      ((Runs.last Session.act (.start service) actions).auth.nextStep
        (Runs.last Session.act (.start service) actions).opened answers).calls := by
  intro h
  obtain ⟨login, handle, hlogins, hlatest, -⟩ :=
    h (text "smerp") [.receiveData (text "alice" ++ [0] ++ text "x")] consenting rfl
  have hlogin : [text "alice" ++ [0] ++ text "x"] = [login] := hlogins
  have huser : some (text "alice", 0) = some (login, handle) := hlatest
  cases huser
  exact absurd hlogin (by decide)

end Smerp.Authentication
