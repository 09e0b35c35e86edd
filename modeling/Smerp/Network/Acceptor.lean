import Smerp.Lib.Runs

/-!
# The acceptors

`acceptor` and `SSLacceptor` of `src/acceptor.cpp`, with the parts of `src/connection.cpp` that
admit a connection and the lists of `src/connection.hpp`. A handler is cut into steps at the
operations on the lists: `isFull()` and `push()` are two steps, and handlers of other strands can
run in between. What a peer does is an argument: which errors completions come with, and whether the
calls on a socket that throw when the peer is gone return. An exception ends the handler; what the
thread makes of it is left open.
-/

namespace Smerp.Network

open Lib

/-! ## Lists of connections -/

/-- A connection object, and the handler it was constructed with. -/
structure ConnectionPtr where
  object : Nat
  handler : Nat
  deriving DecidableEq, Repr

/-- `SocketConnectionList` -/
structure SocketConnectionList where
  connList : List ConnectionPtr
  maxConn : UInt32
  deriving DecidableEq, Repr

namespace SocketConnectionList

/-- `size` -/
def size (l : SocketConnectionList) : Nat := l.connList.length

/-- `push` -/
def push (l : SocketConnectionList) (conn : ConnectionPtr) : SocketConnectionList :=
  { l with connList := l.connList ++ [conn] }

/-- `remove` -/
def remove (l : SocketConnectionList) (conn : ConnectionPtr) : SocketConnectionList :=
  { l with connList := l.connList.filter (· ≠ conn) }

/-- `pop`, `none` is the `NULL` pointer. -/
def pop (l : SocketConnectionList) : Option ConnectionPtr × SocketConnectionList :=
  match l.connList with
  | [] => (none, l)
  | conn :: rest => (some conn, { l with connList := rest })

/-- `isFull`, with the answer of the global list. -/
def isFull (l : SocketConnectionList) (globalFull : Bool) : Bool :=
  if l.maxConn > 0 then l.size ≥ l.maxConn.toNat || globalFull else globalFull

end SocketConnectionList

/-- `GlobalConnectionList::isFull`, over the sizes of the lists. -/
def globalIsFull (maxConn : UInt32) (sizes : List Nat) : Bool :=
  let conns := sizes.foldl (fun conns size ↦ conns + UInt32.ofNat size) 0
  if maxConn > 0 then conns ≥ maxConn else false

/-! ## Acceptors -/

/-- `acceptor` or `SSLacceptor` -/
inductive Kind where
  | tcp
  | ssl
  deriving DecidableEq, Repr

/-- An acceptor, and what goes on around it: the `async_accept`s and the handshakes in flight, the
connections that passed `isFull()` but are not pushed yet, and whether `handleStop` empties the list
or has done so. `accepted`, `running` and `signalled` are the connections that were accepted, those
that are started and not closed, and those that `handleStop` has signalled. -/
structure Acceptor where
  kind : Kind
  list : SocketConnectionList
  isOpen : Bool
  newConnection : ConnectionPtr
  objects : Nat
  handlers : Nat
  accepting : List ConnectionPtr
  handshaking : List ConnectionPtr
  tested : List ConnectionPtr
  stopping : Bool
  stopped : Bool
  accepted : List ConnectionPtr
  running : List ConnectionPtr
  signalled : List ConnectionPtr
  deriving DecidableEq, Repr

/-- The steps of the handlers. `identified`, `refused` and `named` say whether the calls of
`remote_endpoint()` and the `write_some()` of the refusal return. -/
inductive AcceptorAction where
  | handleAccept (e : Option Int) (identified refused : Bool)
  | handleHandshake (conn : ConnectionPtr) (e : Option Int)
  | push (conn : ConnectionPtr) (named : Bool)
  | close (conn : ConnectionPtr)
  | handleStop
  | pop
  deriving DecidableEq, Repr

namespace Acceptor

/-- The constructor. -/
def new (kind : Kind) (maxConnections : UInt32) : Acceptor where
  kind := kind
  list := ⟨[], maxConnections⟩
  isOpen := true
  newConnection := ⟨0, 0⟩
  objects := 1
  handlers := 1
  accepting := [⟨0, 0⟩]
  handshaking := []
  tested := []
  stopping := false
  stopped := false
  accepted := []
  running := []
  signalled := []

/-- The end of `handleAccept`. `local_endpoint()` throws when the acceptor was closed. -/
def acceptNext (a : Acceptor) : Acceptor :=
  if !a.isOpen then a
  else
    let conn : ConnectionPtr := ⟨a.objects, a.handlers⟩
    { a with
      newConnection := conn
      objects := a.objects + 1
      handlers := a.handlers + 1
      accepting := a.accepting ++ [conn] }

/-- `handleAccept`, up to the test of `connection::start` or to its end. -/
def handleAccept (a : Acceptor) (globalFull : Bool) (e : Option Int) (identified refused : Bool) :
    Acceptor :=
  let a := { a with accepting := a.accepting.tail }
  -- everything, the next `async_accept` included, stands inside of `if ( !e )`
  if e ≠ none then a
  else
    let conn := a.newConnection
    let a := { a with accepted := a.accepted ++ [conn] }
    if !identified then a
    else match a.kind with
      | .tcp =>
          if a.list.isFull globalFull then if refused then a.acceptNext else a
          else { a with tested := a.tested ++ [conn] }
      | .ssl => { a with handshaking := a.handshaking ++ [conn] }.acceptNext

/-- `handleHandshake`, up to the test. Nothing follows a refusal, whether it throws or not. -/
def handleHandshake (a : Acceptor) (globalFull : Bool) (conn : ConnectionPtr) (e : Option Int) :
    Acceptor :=
  let a := { a with handshaking := a.handshaking.erase conn }
  if e ≠ none then a
  else if a.list.isFull globalFull then a
  else { a with tested := a.tested ++ [conn] }

/-- The rest of `connection::start` and `handleAccept`, or of `handleHandshake`. -/
def push (a : Acceptor) (conn : ConnectionPtr) (named : Bool) : Acceptor :=
  let a := { a with tested := a.tested.erase conn, list := a.list.push conn }
  if !named then a
  else
    let a := { a with running := a.running ++ [conn] }
    match a.kind with
    | .tcp => a.acceptNext
    | .ssl => a

/-- A round of the loop of `handleStop`. -/
def pop (a : Acceptor) : Acceptor :=
  match a.list.pop with
  | (none, list) => { a with list := list, stopping := false, stopped := true }
  | (some conn, list) => { a with list := list, signalled := a.signalled ++ [conn] }

/-- The acceptor after an action, when this is the answer of the global list. -/
def act (a : Acceptor) (globalFull : Bool) : AcceptorAction → Acceptor
  | .handleAccept e identified refused => a.handleAccept globalFull e identified refused
  | .handleHandshake conn e => a.handleHandshake globalFull conn e
  | .push conn named => a.push conn named
  -- a started connection unregisters itself
  | .close conn => { a with list := a.list.remove conn, running := a.running.filter (· ≠ conn) }
  | .handleStop => { a with isOpen := false, stopping := true }
  | .pop => a.pop

/-- No handler runs on the strand of the acceptor. -/
def StrandFree (a : Acceptor) : Prop := a.stopping = false ∧ (a.kind = .tcp → a.tested = [])

/-- The actions that can happen. -/
def Possible (a : Acceptor) : AcceptorAction → Prop
  | .handleAccept _ _ _ => a.accepting ≠ [] ∧ a.StrandFree
  | .handleHandshake conn _ => conn ∈ a.handshaking
  | .push conn _ => conn ∈ a.tested
  | .close conn => conn ∈ a.running
  | .handleStop => a.StrandFree
  | .pop => a.stopping = true

instance (a : Acceptor) : Decidable a.StrandFree := inferInstanceAs (Decidable (_ ∧ _))

instance (a : Acceptor) (action : AcceptorAction) : Decidable (a.Possible action) := by
  cases action <;> simp only [Possible] <;> infer_instance

/-! ## What an action can do -/

/-- The acceptor after a successful accept, in front of `newConnection_->start()`. -/
def taken (a : Acceptor) : Acceptor :=
  { a with accepting := a.accepting.tail, accepted := a.accepted ++ [a.newConnection] }

/-- What an action can do. -/
inductive Acts (a : Acceptor) (globalFull : Bool) : AcceptorAction → Acceptor → Prop
  | acceptFailed (value : Int) (identified refused : Bool) :
      Acts a globalFull (.handleAccept (some value) identified refused)
        { a with accepting := a.accepting.tail }
  | unidentified (refused : Bool) : Acts a globalFull (.handleAccept none false refused) a.taken
  | refused (hkind : a.kind = .tcp) (hfull : a.list.isFull globalFull = true) :
      Acts a globalFull (.handleAccept none true true) a.taken.acceptNext
  | refusalFailed (hkind : a.kind = .tcp) (hfull : a.list.isFull globalFull = true) :
      Acts a globalFull (.handleAccept none true false) a.taken
  | tested (refused : Bool) (hkind : a.kind = .tcp) (hroom : a.list.isFull globalFull = false) :
      Acts a globalFull (.handleAccept none true refused)
        { a.taken with tested := a.tested ++ [a.newConnection] }
  | handshaking (refused : Bool) (hkind : a.kind = .ssl) :
      Acts a globalFull (.handleAccept none true refused)
        { a.taken with handshaking := a.handshaking ++ [a.newConnection] }.acceptNext
  | handshakeFailed (conn : ConnectionPtr) (e : Option Int)
      (hfailed : e = none → a.list.isFull globalFull = true) :
      Acts a globalFull (.handleHandshake conn e) { a with handshaking := a.handshaking.erase conn }
  | handshakeTested (conn : ConnectionPtr) (hroom : a.list.isFull globalFull = false) :
      Acts a globalFull (.handleHandshake conn none)
        { a with handshaking := a.handshaking.erase conn, tested := a.tested ++ [conn] }
  | pushed (conn : ConnectionPtr) (hkind : a.kind = .tcp) :
      Acts a globalFull (.push conn true)
        { a with
          tested := a.tested.erase conn
          list := a.list.push conn
          running := a.running ++ [conn] }.acceptNext
  | pushedSSL (conn : ConnectionPtr) (hkind : a.kind = .ssl) :
      Acts a globalFull (.push conn true)
        { a with
          tested := a.tested.erase conn
          list := a.list.push conn
          running := a.running ++ [conn] }
  | unnamed (conn : ConnectionPtr) :
      Acts a globalFull (.push conn false)
        { a with tested := a.tested.erase conn, list := a.list.push conn }
  | close (conn : ConnectionPtr) :
      Acts a globalFull (.close conn)
        { a with list := a.list.remove conn, running := a.running.filter (· ≠ conn) }
  | handleStop : Acts a globalFull .handleStop { a with isOpen := false, stopping := true }
  | popLast (hlist : a.list.connList = []) :
      Acts a globalFull .pop { a with stopping := false, stopped := true }
  | popped (conn : ConnectionPtr) (rest : List ConnectionPtr)
      (hlist : a.list.connList = conn :: rest) :
      Acts a globalFull .pop
        { a with list := { a.list with connList := rest }, signalled := a.signalled ++ [conn] }

/-- An action does one of these. -/
theorem act_acts (a : Acceptor) (globalFull : Bool) (action : AcceptorAction) :
    Acts a globalFull action (a.act globalFull action) := by
  cases action with
  | handleAccept e identified refused =>
      cases e with
      | some value => exact .acceptFailed value identified refused
      | none =>
          cases identified with
          | false => exact .unidentified refused
          | true =>
              cases hkind : a.kind with
              | ssl =>
                  simpa [act, handleAccept, taken, hkind] using Acts.handshaking refused hkind
              | tcp =>
                  cases hfull : a.list.isFull globalFull with
                  | false => simpa [act, handleAccept, taken, hkind, hfull] using
                      Acts.tested refused hkind hfull
                  | true =>
                      cases refused with
                      | false => simpa [act, handleAccept, taken, hkind, hfull] using
                          Acts.refusalFailed hkind hfull
                      | true => simpa [act, handleAccept, taken, hkind, hfull] using
                          Acts.refused hkind hfull
  | handleHandshake conn e =>
      cases e with
      | some value => exact .handshakeFailed conn (some value) (by simp)
      | none =>
          cases hfull : a.list.isFull globalFull with
          | true =>
              simpa [act, handleHandshake, hfull] using
                Acts.handshakeFailed conn none fun _ ↦ hfull
          | false => simpa [act, handleHandshake, hfull] using Acts.handshakeTested conn hfull
  | push conn named =>
      cases named with
      | false => exact .unnamed conn
      | true =>
          cases hkind : a.kind with
          | tcp => simpa [act, push, hkind] using Acts.pushed conn hkind
          | ssl => simpa [act, push, hkind] using Acts.pushedSSL conn hkind
  | close conn => exact .close conn
  | handleStop => exact .handleStop
  | pop =>
      unfold act pop SocketConnectionList.pop
      cases hlist : a.list.connList with
      | nil => exact .popLast hlist
      | cons conn rest => exact .popped conn rest hlist

/-- The end of `handleAccept` changes nothing but what is accepted next. -/
theorem accept_next_same (a : Acceptor) :
    a.acceptNext.kind = a.kind ∧ a.acceptNext.list = a.list ∧ a.acceptNext.isOpen = a.isOpen ∧
      a.acceptNext.handshaking = a.handshaking ∧ a.acceptNext.tested = a.tested ∧
      a.acceptNext.accepted = a.accepted ∧
      a.acceptNext.running = a.running ∧ a.acceptNext.signalled = a.signalled ∧
      a.acceptNext.stopping = a.stopping ∧ a.acceptNext.stopped = a.stopped := by
  unfold acceptNext
  split <;> simp

/-- An action of an acceptor, and the answer of the global list meanwhile. -/
abbrev Event := Bool × AcceptorAction

/-- The acceptor after an event. -/
def step (a : Acceptor) (event : Event) : Acceptor := a.act event.1 event.2

end Acceptor

/-! ## Servers -/

/-- The acceptors of a server share a global list. -/
structure Server where
  maxConn : UInt32
  acceptors : List Acceptor
  deriving DecidableEq, Repr

namespace Server

/-- A new server with these sockets. -/
def start (maxConnections : UInt32) (sockets : List (Kind × UInt32)) : Server where
  maxConn := maxConnections
  acceptors := sockets.map fun socket ↦ .new socket.1 socket.2

/-- `globalList_.isFull()` -/
def isFull (s : Server) : Bool := globalIsFull s.maxConn (s.acceptors.map fun a ↦ a.list.size)

/-- The server after an action of one of the acceptors. -/
def act (s : Server) (action : Nat × AcceptorAction) : Server :=
  { s with acceptors := s.acceptors.modify action.1 fun a ↦ a.act s.isFull action.2 }

/-- The actions that can happen. -/
def Possible (s : Server) (action : Nat × AcceptorAction) : Prop :=
  ∃ a ∈ s.acceptors[action.1]?, a.Possible action.2

end Server

end Smerp.Network
