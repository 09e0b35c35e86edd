import Mathlib.Data.List.TakeWhile
import Smerp.Protocol.Chars

/-!
# The PAM authenticator

`PAMAuthenticator` of `src/authentication_pam.cpp`. The PAM library is not part of the repository:
what it answers, and the conversations it holds while it checks a user, are arguments. A handle is
named by the number of handles that were opened before it, `none` is the `NULL` pointer. Every call
of the library is written to a log. `errmsg` is left out, since nothing reads it.
-/

namespace Smerp.Authentication

/-! ## The library -/

/-- `PAM_SUCCESS` -/
def pamSuccess : Int := 0
/-- `PAM_BUF_ERR` -/
def pamBufErr : Int := 5
/-- `PAM_CONV_ERR` -/
def pamConvErr : Int := 19
/-- `PAM_CONV_AGAIN` -/
def pamConvAgain : Int := 30
/-- `PAM_INCOMPLETE` -/
def pamIncomplete : Int := 31
/-- `PAM_MAX_NUM_MSG` -/
def pamMaxNumMsg : Nat := 32

/-- The string that a `const char*` to these bytes denotes. -/
def cStr (bytes : List Byte) : List Byte := bytes.takeWhile (· ≠ 0)

/-- Bytes without a zero are their own C string. -/
theorem c_str_eq_iff (bytes : List Byte) : cStr bytes = bytes ↔ 0 ∉ bytes := by
  rw [cStr, List.takeWhile_eq_self_iff]
  constructor
  · intro h hzero
    simpa using h 0 hzero
  · intro h ch hch
    have hne : ch ≠ 0 := fun heq ↦ h (heq ▸ hch)
    simpa using hne

/-- A PAM handle. -/
abbrev Handle := Nat

/-- `msg_style` -/
inductive MsgStyle where
  | promptEchoOff
  | promptEchoOn
  | errorMsg
  | textInfo
  | unknown (style : Int)
  deriving DecidableEq, Repr

/-- A message of a conversation, `none` is a `NULL` text. With it go the answers that the
conversation function gets while it handles the message: whether `strdup` finds memory, and the
result of `pam_get_item( PAM_USER_PROMPT)`. -/
structure PamMessage where
  style : MsgStyle
  msg : Option (List Byte)
  strdup : Bool
  userPrompt : Int
  deriving DecidableEq, Repr

/-- A call of the conversation function: its messages, and whether `calloc` finds memory. -/
structure Conversation where
  msgs : List PamMessage
  calloc : Bool
  deriving DecidableEq, Repr

/-- What the conversation function returns: its code, and what the first response points to. The
other responses are never written, because `m++; r++;` stands behind the `break` of every case. -/
structure Reply where
  code : Int
  resp : Option (List Byte)
  deriving DecidableEq, Repr

/-- The calls of the library, each with the handle it gets and what it returns, and the calls of the
conversation function by the library. -/
inductive Call where
  | start (user : List Byte) (code : Int) (handle : Option Handle)
  | authenticate (handle : Option Handle) (code : Int)
  | acctMgmt (handle : Option Handle) (code : Int)
  | finish (handle : Option Handle) (code : Int)
  | strerror (handle : Option Handle)
  | getItem (handle : Option Handle)
  | converse (talk : Conversation) (reply : Reply)
  deriving DecidableEq, Repr

/-- What `pam_authenticate` or `pam_acct_mgmt` does: it holds conversations and returns a code. -/
structure Check where
  talks : List Conversation
  code : Int
  deriving DecidableEq, Repr

/-- What the library answers during one call of `nextStep`. A failing `pam_start` leaves anything in
the handle. Its error text is the same for every code. -/
structure Answers where
  start : Int
  left : Option Handle
  authenticate : Check
  acctMgmt : Check
  finish : Int
  finishAgain : Int
  strerror : List Byte
  deriving DecidableEq, Repr

/-! ## The authenticator -/

/-- `m_state` -/
inductive State where
  | needLogin
  | hasLogin
  | needPass
  | hasPass
  | error
  deriving DecidableEq, Repr

/-- `pam_appdata` -/
structure AppData where
  login : List Byte
  hasPass : Bool
  pass : List Byte
  h : Option Handle
  deriving DecidableEq, Repr

/-- `PAMAuthenticator` -/
structure PAMAuthenticator where
  service : List Byte
  state : State
  appdata : AppData
  token : List Byte
  data : List Byte
  deriving DecidableEq, Repr

/-- `Step::AuthStep` -/
inductive AuthStep where
  | success
  | fail
  | sendData
  | recvData
  deriving DecidableEq, Repr

/-- How a method of the authenticator ends: it returns, throws an exception, throws a pointer to
one, or runs into undefined behaviour. -/
inductive Outcome (α : Type) where
  | returned (value : α)
  | threw (what : List Byte)
  | threwNew (what : List Byte)
  | undefined
  deriving DecidableEq, Repr

/-- The state behind a call, how the call ended, and the calls of the library made meanwhile. -/
structure Stepped where
  auth : PAMAuthenticator
  outcome : Outcome AuthStep
  calls : List Call
  deriving DecidableEq, Repr

/-- The loop of `pam_conv_func`, and the calls that it makes. `none` is undefined behaviour. Each
message clears the first response. -/
def answerAll (appdata : AppData) : Option (List Byte) → List PamMessage → Option Reply × List Call
  | resp, [] => (some ⟨pamSuccess, resp⟩, [])
  | _, m :: rest =>
      if m.msg = none then (some ⟨pamConvErr, none⟩, [])
      else match m.style with
        | .promptEchoOff =>
            if !appdata.hasPass then (some ⟨pamConvAgain, none⟩, [])
            else if !m.strdup then (some ⟨pamConvErr, none⟩, [])
            else answerAll appdata (some (cStr appdata.pass)) rest
        | .promptEchoOn =>
            if m.userPrompt ≠ pamSuccess then
              (some ⟨pamConvErr, none⟩, [.getItem appdata.h, .strerror appdata.h])
            -- `strcmp( m->msg, login_prompt)`, where `login_prompt` is still `NULL`
            else (none, [.getItem appdata.h])
        | .errorMsg => answerAll appdata none rest
        | .textInfo => answerAll appdata none rest
        | .unknown _ => (some ⟨pamConvErr, none⟩, [])

/-- `pam_conv_func` -/
def pamConvFunc (appdata : AppData) (talk : Conversation) : Option Reply × List Call :=
  if talk.msgs.length ≤ 0 ∨ talk.msgs.length ≥ pamMaxNumMsg then (some ⟨pamConvErr, none⟩, [])
  else if !talk.calloc then (some ⟨pamBufErr, none⟩, [])
  else answerAll appdata none talk.msgs

/-- The conversations that the library holds, until one of them runs into undefined behaviour. -/
def converseAll (appdata : AppData) : List Conversation → Bool × List Call
  | [] => (true, [])
  | talk :: more =>
      match pamConvFunc appdata talk with
      | (none, calls) => (false, calls)
      | (some reply, calls) =>
          let rest := converseAll appdata more
          (rest.1, calls ++ .converse talk reply :: rest.2)

namespace PAMAuthenticator

/-- The constructor. -/
def new (service : List Byte) : PAMAuthenticator where
  service := service
  state := .needLogin
  appdata := ⟨[], false, [], none⟩
  token := []
  data := []

/-- The message about a failed function. -/
def failed (a : PAMAuthenticator) (function strerror : List Byte) (rc : Int) : List Byte :=
  function ++ text " failed with service " ++ a.service ++ text ": " ++ strerror ++ text " (" ++
    text (toString rc) ++ text ")"

/-- The exit of a failed check. -/
def rejected (a : PAMAuthenticator) (function strerror : List Byte) (rc : Int) : PAMAuthenticator :=
  { a with token := text "message", data := a.failed function strerror rc, state := .error }

/-- The end of `case _SMERP_PAM_STATE_HAS_PASS`, behind the two checks. -/
def endSession (a : PAMAuthenticator) (answers : Answers) (rc : Int) : Stepped :=
  if answers.finish ≠ pamSuccess then
    ⟨a, .threw (a.failed (text "pam_end") answers.strerror rc),
      [.finish a.appdata.h answers.finish, .strerror a.appdata.h,
        .finish a.appdata.h answers.finishAgain]⟩
  else
    ⟨{ a with state := .needLogin, appdata := { a.appdata with h := none, pass := [] } },
      .returned (if rc = pamSuccess then .success else .fail), [.finish a.appdata.h answers.finish]⟩

/-- The check of the account. -/
def checkAccount (a : PAMAuthenticator) (answers : Answers) : Stepped :=
  let talk := converseAll a.appdata answers.acctMgmt.talks
  if !talk.1 then ⟨a, .undefined, talk.2⟩
  else
    let rc := answers.acctMgmt.code
    let calls := talk.2 ++ [.acctMgmt a.appdata.h rc]
    if rc ≠ pamSuccess then
      ⟨a.rejected (text "pam_acct_mgmt") answers.strerror rc, .returned .sendData,
        calls ++ [.strerror a.appdata.h]⟩
    else
      let last := a.endSession answers rc
      { last with calls := calls ++ last.calls }

/-- `case _SMERP_PAM_STATE_HAS_PASS` -/
def checkPass (a : PAMAuthenticator) (answers : Answers) : Stepped :=
  let talk := converseAll a.appdata answers.authenticate.talks
  if !talk.1 then ⟨a, .undefined, talk.2⟩
  else
    let rc := answers.authenticate.code
    let calls := talk.2 ++ [.authenticate a.appdata.h rc]
    if a.state = .hasLogin ∧ rc = pamIncomplete then
      ⟨{ a with token := text "password", state := .needPass }, .returned .recvData, calls⟩
    else if rc ≠ pamSuccess then
      ⟨a.rejected (text "pam_authenticate") answers.strerror rc, .returned .sendData,
        calls ++ [.strerror a.appdata.h]⟩
    else
      let last := a.checkAccount answers
      { last with calls := calls ++ last.calls }

/-- `case _SMERP_PAM_STATE_HAS_LOGIN`, when so many handles were opened before. -/
def startSession (a : PAMAuthenticator) (opened : Nat) (answers : Answers) : Stepped :=
  if answers.start ≠ pamSuccess then
    ⟨{ a with appdata := { a.appdata with h := answers.left } },
      .threw (a.failed (text "pam_start") answers.strerror answers.start),
      [.start (cStr a.appdata.login) answers.start answers.left, .strerror answers.left]⟩
  else
    -- no `break`: the state stays `_SMERP_PAM_STATE_HAS_LOGIN`
    let last := checkPass { a with appdata := { a.appdata with h := some opened } } answers
    { last with calls := .start (cStr a.appdata.login) answers.start (some opened) :: last.calls }

/-- `nextStep` -/
def nextStep (a : PAMAuthenticator) (opened : Nat) (answers : Answers) : Stepped :=
  match a.state with
  | .needLogin => ⟨{ a with token := text "login" }, .returned .recvData, []⟩
  | .hasLogin => a.startSession opened answers
  | .hasPass => a.checkPass answers
  | .error =>
      -- the handle is forgotten before it is given to `pam_end`
      ⟨{ a with
          state := .needLogin
          appdata := { a.appdata with h := none, hasPass := false, pass := [] } },
        .returned .fail, [.finish none answers.finish]⟩
  | .needPass => ⟨a, .threwNew (text "Illegal state in PAMAuthenticator::nextStep!"), []⟩

/-- `sendData` -/
def sendData (a : PAMAuthenticator) : Outcome (List Byte) :=
  match a.state with
  | .error => .returned a.data
  | _ => .threwNew (text "Illegal state in PAMAuthenticator::sendData!")

/-- `receiveData` -/
def receiveData (a : PAMAuthenticator) (data : List Byte) : PAMAuthenticator × Outcome Unit :=
  match a.state with
  | .needLogin =>
      ({ a with appdata := { a.appdata with login := data }, state := .hasLogin }, .returned ())
  | .needPass =>
      ({ a with appdata := { a.appdata with hasPass := true, pass := data }, state := .hasPass },
        .returned ())
  | _ => (a, .threwNew (text "Illegal state in PAMAuthenticator::receiveData!"))

end PAMAuthenticator

/-! ## Sessions -/

/-- The methods that change the authenticator. -/
inductive Action where
  | nextStep (answers : Answers)
  | receiveData (data : List Byte)
  deriving DecidableEq, Repr

/-- An authenticator and its history: the number of handles opened, all calls of the library, the
logins and the passwords accepted since the last `SUCCESS` or `FAIL`, and whether it ran into
undefined behaviour. -/
structure Session where
  auth : PAMAuthenticator
  opened : Nat
  calls : List Call
  logins : List (List Byte)
  passwords : List (List Byte)
  crashed : Bool
  deriving DecidableEq, Repr

namespace Session

/-- A new authenticator. -/
def start (service : List Byte) : Session := ⟨.new service, 0, [], [], [], false⟩

/-- A successful `pam_start`. -/
def opens : Call → Bool
  | .start _ code _ => code = pamSuccess
  | _ => false

/-- The session after a call of `nextStep`. -/
def stepped (s : Session) (answers : Answers) : Session :=
  let step := s.auth.nextStep s.opened answers
  let ended := step.outcome = .returned .success ∨ step.outcome = .returned .fail
  { auth := step.auth
    opened := s.opened + step.calls.countP opens
    calls := s.calls ++ step.calls
    logins := if ended then [] else s.logins
    passwords := if ended then [] else s.passwords
    crashed := step.outcome = .undefined }

/-- The session after a call of `receiveData`. -/
def received (s : Session) (data : List Byte) : Session :=
  { s with
    auth := (s.auth.receiveData data).1
    logins := if s.auth.state = .needLogin then s.logins ++ [data] else s.logins
    passwords := if s.auth.state = .needPass then s.passwords ++ [data] else s.passwords }

/-- The session after an action; nothing happens any more behind undefined behaviour. -/
def act (s : Session) (action : Action) : Session :=
  if s.crashed then s
  else match action with
    | .nextStep answers => s.stepped answers
    | .receiveData data => s.received data

end Session

end Smerp.Authentication
