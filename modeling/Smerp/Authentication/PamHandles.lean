import Smerp.Authentication.PamConsent
import Smerp.Lib.Logs

/-!
# The handles of the PAM authenticator

A handle is used linearly when it is opened, used, and ended once before the next one is opened. A
failed check leaves the state `_SMERP_PAM_STATE_ERROR`, in which the handle is lost.
`Session.Orderly` says which steps do no harm.
-/

namespace Smerp.Authentication

open Lib Lib.History PAMAuthenticator

/-- A call that ends this handle. -/
def endsHandle (h : Handle) : Call → Bool
  | .finish handle _ => handle = some h
  | _ => false

/-- How often this handle was passed to `pam_end`. -/
def endings (calls : List Call) (h : Handle) : Nat := calls.countP (endsHandle h)

/-- A handle that is neither `NULL` nor was passed to `pam_end`. -/
def Usable (before : List Call) (handle : Option Handle) : Prop :=
  ∃ h, handle = some h ∧ endings before h = 0

instance (before : List Call) (handle : Option Handle) : Decidable (Usable before handle) :=
  match handle with
  | none => isFalse fun ⟨_, hsome, _⟩ ↦ nomatch hsome
  | some h => decidable_of_iff (endings before h = 0)
      ⟨fun hzero ↦ ⟨h, rfl, hzero⟩, fun ⟨_, hsome, hzero⟩ ↦ Option.some.inj hsome ▸ hzero⟩

/-- A call behind others uses its handle linearly: in front of `pam_start` each handle opened was
ended exactly once, and every other function gets a usable handle. -/
def LinearCall (before : List Call) : Call → Prop
  | .start .. => ∀ opening ∈ before.filterMap started, endings before opening.2 = 1
  | .authenticate handle _ => Usable before handle
  | .acctMgmt handle _ => Usable before handle
  | .finish handle _ => Usable before handle
  | .strerror handle => Usable before handle
  | .getItem handle => Usable before handle
  | .converse .. => True

/-- **All calls use their handles linearly.** -/
def Linear (calls : List Call) : Prop := After LinearCall [] calls

/-- A call that gets this handle and does not end it. -/
inductive Uses (h : Option Handle) : Call → Prop
  | talk {call : Call} (htalk : IsTalk h call) : Uses h call
  | authenticate (code : Int) : Uses h (.authenticate h code)
  | acctMgmt (code : Int) : Uses h (.acctMgmt h code)

/-- Using a handle ends none. -/
theorem Uses.endings {h : Option Handle} {more : List Call} (huses : ∀ call ∈ more, Uses h call)
    (calls : List Call) (handle : Handle) : endings (calls ++ more) handle =
      endings calls handle := by
  have hnone : more.countP (endsHandle handle) = 0 := by
    refine List.countP_eq_zero.mpr ?_
    intro call hcall
    cases huses call hcall with
    | talk htalk => cases htalk <;> simp [endsHandle]
    | authenticate code => simp [endsHandle]
    | acctMgmt code => simp [endsHandle]
  rw [Authentication.endings, List.countP_append, hnone, Nat.add_zero, Authentication.endings]

/-- Using a usable handle is linear. -/
theorem Uses.linear {h : Option Handle} {calls more : List Call}
    (huses : ∀ call ∈ more, Uses h call)
    (husable : Usable calls h) : After LinearCall calls more := by
  refine after_of_forall ?_ huses
  intro seen call hseen hcall
  have hstill : Usable (calls ++ seen) h := by
    obtain ⟨handle, hhandle, hzero⟩ := husable
    exact ⟨handle, hhandle, (Uses.endings hseen calls handle).trans hzero⟩
  cases hcall with
  | talk htalk =>
      cases htalk with
      | converse talk reply => trivial
      | getItem => exact hstill
      | strerror => exact hstill
  | authenticate code => exact hstill
  | acctMgmt code => exact hstill

/-! ## The checks -/

section

variable {a : PAMAuthenticator} {answers : Answers}

/-- The calls up to the check of the account use the handle. -/
theorem auth_calls_use : ∀ call ∈ a.authCalls answers, Uses a.appdata.h call := by
  intro call hcall
  rcases List.mem_append.mp hcall with htalk | hlast
  · exact .talk (converse_all_calls a.appdata _ call htalk)
  · exact List.mem_singleton.mp hlast ▸ .authenticate answers.authenticate.code

/-- The calls up to the end of the session use the handle. -/
theorem acct_calls_use : ∀ call ∈ a.acctCalls answers, Uses a.appdata.h call := by
  intro call hcall
  rcases List.mem_append.mp hcall with hauth | hrest
  · exact auth_calls_use call hauth
  · rcases List.mem_append.mp hrest with htalk | hlast
    · exact .talk (converse_all_calls a.appdata _ call htalk)
    · exact List.mem_singleton.mp hlast ▸ .acctMgmt answers.acctMgmt.code

/-- The checks do not end the session: they use the handle. -/
theorem PAMAuthenticator.Ending.uses {last : Stepped} (h : Ending a answers last)
    (hopen : ¬ a.EndsSession answers) : ∀ call ∈ last.calls, Uses a.appdata.h call := by
  have htalk (talks : List Conversation) :
      ∀ call ∈ (converseAll a.appdata talks).2, Uses a.appdata.h call :=
    fun call hcall ↦ .talk (converse_all_calls a.appdata talks call hcall)
  cases h with
  | authCrash _ => exact htalk _
  | incomplete _ _ => exact auth_calls_use
  | notAuthenticated _ =>
      refine List.forall_mem_append.mpr ⟨auth_calls_use, ?_⟩
      exact List.forall_mem_singleton.mpr (.talk .strerror)
  | acctCrash _ _ => exact List.forall_mem_append.mpr ⟨auth_calls_use, htalk _⟩
  | noAccount _ _ =>
      refine List.forall_mem_append.mpr ⟨acct_calls_use, ?_⟩
      exact List.forall_mem_singleton.mpr (.talk .strerror)
  | endFailed hends _ => exact absurd hends hopen
  | success hends _ => exact absurd hends hopen

/-- The checks end the session: `pam_end` decides how. -/
theorem PAMAuthenticator.Ending.of_ends {last : Stepped} (h : Ending a answers last)
    (hends : a.EndsSession answers) :
    answers.finish = pamSuccess ∧ last =
        ⟨{ a with state := .needLogin, appdata := { a.appdata with h := none, pass := [] } },
          .returned .success, a.acctCalls answers ++ [.finish a.appdata.h pamSuccess]⟩ ∨
      answers.finish ≠ pamSuccess ∧ last =
        ⟨a, .threw (a.failed (text "pam_end") answers.strerror pamSuccess),
          a.acctCalls answers ++ [.finish a.appdata.h answers.finish, .strerror a.appdata.h,
            .finish a.appdata.h answers.finishAgain]⟩ := by
  obtain ⟨hauth, hcode, hacct, hcode'⟩ := hends
  cases h with
  | authCrash hcrash => exact absurd (hcrash.symm.trans hauth) Bool.false_ne_true
  | incomplete _ hcode'' => exact absurd (hcode''.symm.trans hcode) (by decide)
  | notAuthenticated hcode'' => exact absurd hcode hcode''
  | acctCrash _ hcrash => exact absurd (hcrash.symm.trans hacct) Bool.false_ne_true
  | noAccount _ hcode'' => exact absurd hcode' hcode''
  | endFailed _ hfinish => exact .inr ⟨hfinish, rfl⟩
  | success _ hfinish => exact .inl ⟨hfinish, rfl⟩

/-- The checks open no handle. -/
theorem PAMAuthenticator.Ending.no_opens {last : Stepped} (h : Ending a answers last) :
    last.calls.countP Session.opens = 0 := by
  have htalk (talks : List Conversation) :
      (converseAll a.appdata talks).2.countP Session.opens = 0 := by
    refine List.countP_eq_zero.mpr ?_
    intro call hcall
    cases converse_all_calls a.appdata talks call hcall <;> exact Bool.false_ne_true
  cases h <;> simp only [acctCalls, authCalls, authTalk, acctTalk, List.countP_append,
    htalk] <;> rfl

/-- The state behind checks that do not end the session. -/
theorem PAMAuthenticator.Ending.stays {last : Stepped} (h : Ending a answers last)
    (hopen : ¬ a.EndsSession answers) : last.auth.appdata = a.appdata ∧
      (last.auth.state = a.state ∧ last.outcome = .undefined ∨
        last.auth.state = .needPass ∨ last.auth.state = .error) := by
  cases h with
  | authCrash _ => exact ⟨rfl, .inl ⟨rfl, rfl⟩⟩
  | incomplete _ _ => exact ⟨rfl, .inr (.inl rfl)⟩
  | notAuthenticated _ => exact ⟨rfl, .inr (.inr rfl)⟩
  | acctCrash _ _ => exact ⟨rfl, .inl ⟨rfl, rfl⟩⟩
  | noAccount _ _ => exact ⟨rfl, .inr (.inr rfl)⟩
  | endFailed hends _ => exact absurd hends hopen
  | success hends _ => exact absurd hends hopen

end

namespace Session

/-- The authenticator behind a successful `pam_start`. -/
def withHandle (s : Session) : PAMAuthenticator :=
  { s.auth with appdata := { s.auth.appdata with h := some s.opened } }

/-- An action that does no harm to the handles: no call of `nextStep` behind a failed check, no
`pam_start` that fails with a handle that cannot be used, and no `pam_end` that fails. -/
def Orderly (s : Session) : Action → Prop
  | .nextStep answers => s.crashed = false →
      s.auth.state ≠ .error ∧
      (s.auth.state = .hasLogin → answers.start ≠ pamSuccess → Usable s.calls answers.left) ∧
      (s.auth.state = .hasLogin → answers.start = pamSuccess → s.withHandle.EndsSession answers →
        answers.finish = pamSuccess) ∧
      (s.auth.state = .hasPass → s.auth.EndsSession answers → answers.finish = pamSuccess)
  | .receiveData _ => True

instance (s : Session) (action : Action) : Decidable (s.Orderly action) := by
  cases action <;> simp only [Orderly] <;> infer_instance

/-- The handle that the authenticator holds. -/
def held (s : Session) : Option Handle :=
  match s.auth.state with
  | .needLogin => none
  | .hasLogin => none
  | _ => s.auth.appdata.h

/-- Every handle opened was ended once, but for the one that the authenticator holds. -/
structure Tidy (s : Session) : Prop where
  linear : Linear s.calls
  opened : ∀ opening ∈ s.calls.filterMap started, opening.2 < s.opened
  ended : s.crashed = false → ∀ h < s.opened, s.held ≠ some h → endings s.calls h = 1
  holds : s.crashed = false →
    s.auth.state = .needPass ∨ s.auth.state = .hasPass ∨ s.auth.state = .error →
    ∃ h < s.opened, s.auth.appdata.h = some h ∧ endings s.calls h = 0
  fresh : ∀ h, s.opened ≤ h → endings s.calls h = 0

/-- A new authenticator has opened no handle. -/
theorem tidy_start (service : List Byte) : (start service).Tidy where
  linear := trivial
  opened := by simp [start]
  ended := by simp [start]
  holds := by simp [start, PAMAuthenticator.new]
  fresh := fun _ _ ↦ rfl

/-- What the session looks like while the checks run: the handle is usable, every other one that was
opened was ended once. -/
structure Checking (calls : List Call) (opened : Nat) (handle : Handle) : Prop where
  linear : Linear calls
  openings : ∀ opening ∈ calls.filterMap started, opening.2 < opened
  ended : ∀ h < opened, h ≠ handle → endings calls h = 1
  usable : endings calls handle = 0
  lt : handle < opened
  fresh : ∀ h, opened ≤ h → endings calls h = 0

/-- Checks whose `pam_end` does not fail leave the session tidy. -/
theorem Checking.tidy {calls : List Call} {handle : Handle} {a : PAMAuthenticator}
    {answers : Answers} {last : Stepped} {s : Session} {opened : Nat}
    (h : Checking calls opened handle) (hlast : Ending a answers last)
    (hhandle : a.appdata.h = some handle)
    (hclean : a.EndsSession answers → answers.finish = pamSuccess) (hauth : s.auth = last.auth)
    (hopen : s.opened = opened) (hcalls : s.calls = calls ++ last.calls)
    (hcrashed : s.crashed = decide (last.outcome = .undefined)) : s.Tidy := by
  subst hopen
  have husable : Usable calls a.appdata.h := ⟨handle, hhandle, h.usable⟩
  have hopened : ∀ opening ∈ s.calls.filterMap started, opening.2 < s.opened := by
    rw [hcalls, List.filterMap_append, hlast.no_start, List.append_nil]
    exact h.openings
  by_cases hends : a.EndsSession answers
  · -- the handle is ended, once
    rcases hlast.of_ends hends with ⟨-, rfl⟩ | ⟨hfinish, -⟩
    · have hcount (other : Handle) : endings s.calls other =
          endings calls other + if other = handle then 1 else 0 := by
        rw [hcalls, ← List.append_assoc, endings, List.countP_append, ← endings,
          Uses.endings acct_calls_use]
        simp [endsHandle, hhandle, eq_comm]
      refine ⟨?_, hopened, ?_, ?_, ?_⟩
      · rw [hcalls]
        refine after_append.mpr
          ⟨h.linear, after_append.mpr ⟨Uses.linear acct_calls_use husable, ?_⟩⟩
        exact ⟨⟨handle, hhandle, by rw [List.nil_append, Uses.endings acct_calls_use, h.usable]⟩,
          trivial⟩
      · intro _ other hother _
        rw [hcount]
        by_cases hsame : other = handle
        · rw [hsame, if_pos rfl, h.usable]
        · rw [if_neg hsame, h.ended other hother hsame]
      · intro _ hheld
        simp [hauth] at hheld
      · intro other hother
        have hne : other ≠ handle := Nat.ne_of_gt (Nat.lt_of_lt_of_le h.lt hother)
        rw [hcount, if_neg hne, h.fresh other hother]
    · exact absurd (hclean hends) hfinish
  · -- the handle is kept for the password, or forgotten behind undefined behaviour
    have huses := hlast.uses hends
    obtain ⟨happdata, hgoes⟩ := hlast.stays hends
    have hcount (other : Handle) : endings s.calls other = endings calls other := by
      rw [hcalls, Uses.endings huses]
    have hheld : s.auth.appdata.h = some handle := by rw [hauth, happdata, hhandle]
    refine ⟨?_, hopened, ?_, ?_, ?_⟩
    · rw [hcalls]
      exact after_append.mpr ⟨h.linear, Uses.linear huses husable⟩
    · intro hgoing other hother hnot
      rw [hcount]
      refine h.ended other hother fun hsame ↦ hnot ?_
      rcases hgoes with ⟨-, hcrash⟩ | hneed | herror
      · simp [hcrashed, hcrash] at hgoing
      · simp [held, hauth, hneed, happdata, hhandle, hsame]
      · simp [held, hauth, herror, happdata, hhandle, hsame]
    · intro _ _
      exact ⟨handle, h.lt, hheld, by rw [hcount, h.usable]⟩
    · intro other hother
      rw [hcount]
      exact h.fresh other hother

/-- The session in the middle of its attempt, seen by the checks. -/
theorem Tidy.checking {s : Session} (h : s.Tidy) (hrunning : s.crashed = false)
    (hstate : s.auth.state = .hasPass) :
    ∃ handle, s.auth.appdata.h = some handle ∧ Checking s.calls s.opened handle := by
  obtain ⟨handle, hlt, hhandle, husable⟩ := h.holds hrunning (.inr (.inl hstate))
  refine ⟨handle, hhandle, h.linear, h.opened, ?_, husable, hlt, h.fresh⟩
  intro other hother hne
  refine h.ended hrunning other hother ?_
  simpa [held, hstate, hhandle] using Ne.symm hne

/-- All handles are ended when the authenticator holds none. -/
theorem Tidy.all_ended {s : Session} (h : s.Tidy) (hrunning : s.crashed = false)
    (hstate : s.auth.state = .hasLogin) : ∀ other < s.opened, endings s.calls other = 1 :=
  fun other hother ↦ h.ended hrunning other hother (by simp [held, hstate])

/-- A `pam_start` behind ended handles is linear. -/
theorem Tidy.start_linear {s : Session} (h : s.Tidy) (hrunning : s.crashed = false)
    (hstate : s.auth.state = .hasLogin) (user : List Byte) (code : Int) (handle : Option Handle) :
    Linear (s.calls ++ [.start user code handle]) := by
  refine after_append.mpr ⟨h.linear, ?_, trivial⟩
  intro opening hopening
  exact h.all_ended hrunning hstate opening.2 (h.opened opening hopening)

/-- A `pam_start` ends no handle. -/
theorem endings_start (calls : List Call) (user : List Byte) (code : Int) (handle : Option Handle)
    (other : Handle) :
    endings (calls ++ [.start user code handle]) other = endings calls other := by
  simp [endings, endsHandle]

/-- The session behind a successful `pam_start`, seen by the checks. -/
theorem Tidy.checking_started {s : Session} (h : s.Tidy) (hrunning : s.crashed = false)
    (hstate : s.auth.state = .hasLogin) (user : List Byte) :
    Checking (s.calls ++ [.start user pamSuccess (some s.opened)]) (s.opened + 1) s.opened := by
  refine ⟨h.start_linear hrunning hstate _ _ _, ?_, ?_, ?_, Nat.lt_succ_self _, ?_⟩
  · intro opening hopening
    rw [List.filterMap_append, List.mem_append] at hopening
    rcases hopening with hold | hnew
    · exact Nat.lt_succ_of_lt (h.opened opening hold)
    · have hsame : opening = (user, s.opened) := by simpa [started] using hnew
      rw [hsame]
      exact Nat.lt_succ_self _
  · intro other hother hne
    rw [endings_start]
    exact h.all_ended hrunning hstate other (Nat.lt_of_le_of_ne (Nat.le_of_lt_succ hother) hne)
  · rw [endings_start]
    exact h.fresh s.opened (Nat.le_refl _)
  · intro other hother
    rw [endings_start]
    exact h.fresh other (Nat.le_of_succ_le hother)

/-- A `pam_start` that failed with a handle that can be used leaves the session tidy. -/
theorem Tidy.start_failed {s next : Session} (h : s.Tidy) (hrunning : s.crashed = false)
    (hstate : s.auth.state = .hasLogin) {user : List Byte} {code : Int} {left : Option Handle}
    (hcode : code ≠ pamSuccess) (hleft : Usable s.calls left)
    (hnext : next.auth.state = .hasLogin)
    (hcalls : next.calls = s.calls ++ [.start user code left, .strerror left])
    (hopen : next.opened = s.opened) : next.Tidy := by
  have hcount (other : Handle) : endings next.calls other = endings s.calls other := by
    rw [hcalls]
    simp [endings, endsHandle]
  refine ⟨?_, ?_, ?_, ?_, ?_⟩
  · obtain ⟨handle, hhandle, hzero⟩ := hleft
    rw [hcalls, List.append_cons]
    refine after_append.mpr ⟨h.start_linear hrunning hstate user code left, ?_, trivial⟩
    refine ⟨handle, hhandle, ?_⟩
    rw [List.nil_append, endings_start]
    exact hzero
  · have hnone : [Call.start user code left, .strerror left].filterMap started = [] := by
      cases left <;> simp [started, hcode]
    rw [hcalls, hopen, List.filterMap_append, hnone, List.append_nil]
    exact h.opened
  · intro _ other hother _
    rw [hopen] at hother
    exact (hcount other).trans (h.all_ended hrunning hstate other hother)
  · intro _ hholds
    simp [hnext] at hholds
  · intro other hother
    rw [hopen] at hother
    exact (hcount other).trans (h.fresh other hother)

/-- **An orderly action keeps a session tidy.** -/
theorem Tidy.stepped {s : Session} (h : s.Tidy) (hrunning : s.crashed = false) {answers : Answers}
    (horderly : s.Orderly (.nextStep answers)) : (s.stepped answers).Tidy := by
  obtain ⟨hnotError, hleft, hstarted, hresumed⟩ := horderly hrunning
  have hstep := next_step_step s.auth s.opened answers
  rw [Session.stepped]
  generalize s.auth.nextStep s.opened answers = step at hstep
  cases hstep with
  | needLogin hstate =>
      refine ⟨?_, ?_, ?_, ?_, ?_⟩
      · simpa using h.linear
      · simpa using h.opened
      · intro _ other hother hnot
        simpa using h.ended hrunning other (by simpa using hother) (by simp [held, hstate])
      · intro _ hholds
        simp [hstate] at hholds
      · simpa using h.fresh
  | startFailed hstate hcode =>
      refine h.start_failed hrunning hstate hcode (hleft hstate hcode) hstate rfl ?_
      have hopens : [Call.start (cStr s.auth.appdata.login) answers.start answers.left,
          .strerror answers.left].countP opens = 0 := by
        simp [opens, hcode]
      show s.opened + _ = s.opened
      rw [hopens, Nat.add_zero]
  | @started last hstate hcode hlast =>
      have hchecking := h.checking_started hrunning hstate (cStr s.auth.appdata.login)
      refine hchecking.tidy hlast rfl (hstarted hstate hcode) rfl ?_ ?_ rfl
      · show s.opened + (_ :: last.calls).countP opens = s.opened + 1
        rw [List.countP_cons, hlast.no_opens]
        rfl
      · rw [List.append_assoc]
        rfl
  | @resumed last hstate hlast =>
      obtain ⟨handle, hhandle, hchecking⟩ := h.checking hrunning hstate
      refine hchecking.tidy hlast hhandle (hresumed hstate) rfl ?_ rfl rfl
      rw [hlast.no_opens]
      rfl
  | error hstate => exact absurd hstate hnotError
  | needPass hstate =>
      refine ⟨?_, ?_, ?_, ?_, ?_⟩
      · simpa using h.linear
      · simpa using h.opened
      · intro _ other hother hnot
        simpa using h.ended hrunning other (by simpa using hother) hnot
      · intro _ _
        simpa using h.holds hrunning (.inl hstate)
      · simpa using h.fresh

/-- Received data touch no handle. -/
theorem Tidy.received {s : Session} (h : s.Tidy) (data : List Byte) : (s.received data).Tidy := by
  refine ⟨h.linear, h.opened, ?_, ?_, h.fresh⟩
  · intro hrunning other hother hnot
    refine h.ended hrunning other hother fun hheld ↦ hnot ?_
    cases hstate : s.auth.state <;> simp_all [held, Session.received, receiveData]
  · intro hrunning hholds
    cases hstate : s.auth.state with
    | needLogin => simp [Session.received, receiveData, hstate] at hholds
    | hasLogin => simp [Session.received, receiveData, hstate] at hholds
    | needPass => simpa [Session.received, receiveData, hstate] using h.holds hrunning (.inl hstate)
    | hasPass =>
        simpa [Session.received, receiveData, hstate] using h.holds hrunning (.inr (.inl hstate))
    | error =>
        simpa [Session.received, receiveData, hstate] using h.holds hrunning (.inr (.inr hstate))

/-- An orderly action keeps a session tidy. -/
theorem Tidy.act {s : Session} (h : s.Tidy) {action : Action} (horderly : s.Orderly action) :
    (s.act action).Tidy := by
  unfold Session.act
  by_cases hcrashed : s.crashed = true
  · rwa [if_pos hcrashed]
  · rw [if_neg hcrashed]
    cases action with
    | nextStep answers => exact h.stepped (by simpa using hcrashed) horderly
    | receiveData data => exact h.received data

/-- A `pam_end` that fails is called again on the same handle. -/
theorem end_failed_not_linear {a : PAMAuthenticator} {answers : Answers} {last : Stepped}
    (hlast : Ending a answers last) (hends : a.EndsSession answers)
    (hfinish : answers.finish ≠ pamSuccess) (calls : List Call) :
    ¬ Linear (calls ++ last.calls) := by
  intro hlinear
  rcases hlast.of_ends hends with ⟨hsuccess, -⟩ | ⟨-, rfl⟩
  · exact hfinish hsuccess
  · obtain ⟨-, hlinear⟩ := after_append.mp hlinear
    obtain ⟨-, -, husable, -⟩ := after_append.mp hlinear
    obtain ⟨handle, hhandle, hzero⟩ := husable
    rw [endings, List.countP_append] at hzero
    simp [endsHandle, hhandle] at hzero

/-- **A disorderly action breaks the linear use of the handles.** -/
theorem not_linear {s : Session} {action : Action} (hdisorderly : ¬ s.Orderly action) :
    ¬ Linear (s.act action).calls := by
  cases action with
  | receiveData data => exact absurd trivial hdisorderly
  | nextStep answers =>
      by_cases hcrashed : s.crashed = true
      · exact absurd (fun hrunning ↦ by simp [hcrashed] at hrunning) hdisorderly
      · rw [Session.act, if_neg hcrashed]
        intro hlinear
        refine hdisorderly ?_
        intro _
        have hstep := next_step_step s.auth s.opened answers
        have hall : Linear (s.calls ++ (s.auth.nextStep s.opened answers).calls) := hlinear
        generalize s.auth.nextStep s.opened answers = step at hstep hall
        cases hstep with
        | needLogin hstate => simp [hstate]
        | needPass hstate => simp [hstate]
        | startFailed hstate hcode =>
            obtain ⟨-, -, husable, -⟩ := after_append.mp hall
            have hleft : Usable s.calls answers.left := by
              obtain ⟨handle, hhandle, hzero⟩ := husable
              exact ⟨handle, hhandle, (endings_start s.calls _ _ _ handle).symm.trans hzero⟩
            simp [hstate, hcode, hleft]
        | @started last hstate hcode hlast =>
            rw [List.append_cons] at hall
            refine ⟨by simp [hstate], fun _ hfailed ↦ absurd hcode hfailed, ?_, by simp [hstate]⟩
            intro _ _ hends
            by_contra hfinish
            exact end_failed_not_linear hlast hends hfinish _ hall
        | resumed hstate hlast =>
            refine ⟨by simp [hstate], by simp [hstate], by simp [hstate], ?_⟩
            intro _ hends
            by_contra hfinish
            exact end_failed_not_linear hlast hends hfinish _ hall
        | error hstate =>
            obtain ⟨-, ⟨handle, hhandle, -⟩, -⟩ := after_append.mp hall
            cases hhandle

end Session

/-- **The handles are used linearly if and only if every action is orderly.** -/
theorem handles_linear_iff (service : List Byte) (actions : List Action) :
    Runs.Always Session.act (fun s ↦ Linear s.calls) (.start service) actions ↔
      Runs.Each Session.act Session.Orderly (.start service) actions := by
  have hrun : Runs.Each Session.act (fun _ _ ↦ True) (.start service) actions :=
    Runs.each_of_forall fun _ _ ↦ trivial
  refine Runs.always_iff_rule ?_ (fun _ h ↦ h.linear) ?_ (Session.tidy_start service) hrun
  · intro s action h _ horderly
    exact h.act horderly
  · intro s action _ _ hdisorderly
    exact Session.not_linear hdisorderly

/-- A login that PAM does not know: the handle is lost, and `NULL` is passed to `pam_end`. -/
theorem not_handles_linear : ¬ ∀ (service : List Byte) (actions : List Action),
    Runs.Always Session.act (fun s ↦ Linear s.calls) (.start service) actions := by
  intro h
  have halways := h (text "smerp")
    [.receiveData (text "nobody"), .nextStep { consenting with authenticate := ⟨[], 10⟩ },
      .nextStep consenting]
  have hlast : Linear _ := halways.2.2.2
  obtain ⟨handle, hhandle, -⟩ : Usable _ none := hlast.2.2.2.1
  cases hhandle

end Smerp.Authentication
