import Mathlib.Algebra.GroupWithZero.Nat
import Smerp.Network.Acceptor

/-!
# The limits on connections

A connection is pushed when an earlier `isFull()` has let it in. In between handlers of other
strands can push connections of their own: those of other acceptors, and the handshakes of the same
`SSLacceptor`. The limits are kept in the runs in which this does not happen (`limits_hold_apart`):
what a test has found then still holds at the push. The acceptors without SSL keep their own limits
in any case, since their strand runs the test and the push without a break (`tcp_limits_hold`).
-/

namespace Smerp.Network

open Lib

/-! ## Lists of connections -/

/-- The sizes are added modulo the size of `unsigned`. -/
theorem conns_to_nat (sizes : List Nat) (conns : UInt32) :
    (sizes.foldl (fun conns size ↦ conns + UInt32.ofNat size) conns).toNat =
      (conns.toNat + sizes.sum) % 2 ^ 32 := by
  induction sizes generalizing conns with
  | nil => simp [Nat.mod_eq_of_lt conns.toNat_lt]
  | cons size rest ih =>
      rw [List.foldl_cons, ih, UInt32.toNat_add, UInt32.toNat_ofNat', Nat.add_mod_mod,
        Nat.mod_add_mod,
        List.sum_cons, Nat.add_assoc]

/-- The global list is not full when the connections have not reached the limit. -/
theorem lt_of_global_room {maxConn : UInt32} {sizes : List Nat}
    (hwithin : 0 < maxConn → sizes.sum ≤ maxConn.toNat) (h : globalIsFull maxConn sizes = false)
    (hlimit : 0 < maxConn) : sizes.sum < maxConn.toNat := by
  have hsmall : sizes.sum < 2 ^ 32 := Nat.lt_of_le_of_lt (hwithin hlimit) maxConn.toNat_lt
  have hconns : (sizes.foldl (fun conns size ↦ conns + UInt32.ofNat size) 0).toNat = sizes.sum := by
    rw [conns_to_nat, UInt32.toNat_zero, Nat.zero_add, Nat.mod_eq_of_lt hsmall]
  unfold globalIsFull at h
  rw [if_pos hlimit, decide_eq_false_iff_not, ge_iff_le, UInt32.le_iff_toNat_le, hconns] at h
  exact Nat.lt_of_not_le h

namespace SocketConnectionList

/-- The list keeps its limit. -/
def Within (l : SocketConnectionList) : Prop := 0 < l.maxConn → l.size ≤ l.maxConn.toNat

/-- A list that is not full has not reached its limit. -/
theorem lt_of_room {l : SocketConnectionList} {globalFull : Bool} (h : l.isFull globalFull = false)
    (hlimit : 0 < l.maxConn) : l.size < l.maxConn.toNat := by
  unfold isFull at h
  rw [if_pos hlimit, Bool.or_eq_false_iff, decide_eq_false_iff_not] at h
  exact Nat.lt_of_not_le h.1

/-- Then the global list is not full either. -/
theorem global_room {l : SocketConnectionList} {globalFull : Bool}
    (h : l.isFull globalFull = false) : globalFull = false := by
  unfold isFull at h
  split_ifs at h with hlimit
  · exact (Bool.or_eq_false_iff.mp h).2
  · exact h

end SocketConnectionList

/-! ## Acceptors -/

/-- The action pushes a connection. -/
def AcceptorAction.isPush : AcceptorAction → Bool
  | .push _ _ => true
  | _ => false

namespace Acceptor

/-- Only a push makes the list longer, and no action changes its limit. -/
theorem act_list (a : Acceptor) (globalFull : Bool) (action : AcceptorAction) :
    (a.act globalFull action).kind = a.kind ∧
      (a.act globalFull action).list.maxConn = a.list.maxConn ∧
      if action.isPush then (a.act globalFull action).list.size = a.list.size + 1
      else (a.act globalFull action).list.size ≤ a.list.size := by
  have hacts := act_acts a globalFull action
  have hnext (a' : Acceptor) : a'.acceptNext.list = a'.list ∧ a'.acceptNext.kind = a'.kind :=
    ⟨(accept_next_same a').2.1, (accept_next_same a').1⟩
  have hpush (conn : ConnectionPtr) : (a.list.push conn).size = a.list.size + 1 := by
    simp [SocketConnectionList.push, SocketConnectionList.size]
  generalize a.act globalFull action = a' at hacts ⊢
  cases hacts with
  | acceptFailed value identified refused => exact ⟨rfl, rfl, Nat.le_refl _⟩
  | unidentified refused => exact ⟨rfl, rfl, Nat.le_refl _⟩
  | refused hkind hfull =>
      rw [(hnext _).1, (hnext _).2]
      exact ⟨rfl, rfl, Nat.le_refl _⟩
  | refusalFailed hkind hfull => exact ⟨rfl, rfl, Nat.le_refl _⟩
  | tested refused hkind hroom => exact ⟨rfl, rfl, Nat.le_refl _⟩
  | handshaking refused hkind =>
      rw [(hnext _).1, (hnext _).2]
      exact ⟨rfl, rfl, Nat.le_refl _⟩
  | handshakeFailed conn e hfailed => exact ⟨rfl, rfl, Nat.le_refl _⟩
  | handshakeTested conn hroom => exact ⟨rfl, rfl, Nat.le_refl _⟩
  | pushed conn hkind =>
      rw [(hnext _).1, (hnext _).2]
      exact ⟨rfl, rfl, hpush conn⟩
  | pushedSSL conn hkind => exact ⟨rfl, rfl, hpush conn⟩
  | unnamed conn => exact ⟨rfl, rfl, hpush conn⟩
  | close conn => exact ⟨rfl, rfl, List.length_filter_le _ _⟩
  | handleStop => exact ⟨rfl, rfl, Nat.le_refl _⟩
  | popLast hlist => exact ⟨rfl, rfl, Nat.le_refl _⟩
  | popped conn rest hlist =>
      refine ⟨rfl, rfl, ?_⟩
      show rest.length ≤ a.list.connList.length
      rw [hlist]
      exact Nat.le_succ _

/-- A connection is tested in an action only if the list is not full. -/
theorem act_tested (a : Acceptor) {globalFull : Bool} {action : AcceptorAction}
    {conn : ConnectionPtr} (h : conn ∈ (a.act globalFull action).tested) :
    conn ∈ a.tested ∨ a.list.isFull globalFull = false := by
  have hacts := act_acts a globalFull action
  have hnext (a' : Acceptor) : a'.acceptNext.tested = a'.tested :=
    (accept_next_same a').2.2.2.2.1
  generalize a.act globalFull action = a' at hacts h
  cases hacts with
  | tested refused hkind hroom => exact .inr hroom
  | handshakeTested other hroom => exact .inr hroom
  | refused | handshaking =>
      rw [hnext] at h
      exact .inl h
  | pushed other hkind =>
      rw [hnext] at h
      exact .inl (List.mem_of_mem_erase h)
  | pushedSSL other hkind => exact .inl (List.mem_of_mem_erase h)
  | unnamed other => exact .inl (List.mem_of_mem_erase h)
  | acceptFailed | unidentified | refusalFailed | handshakeFailed | close | handleStop | popLast
  | popped => exact .inl h

/-- On the strand of an acceptor without SSL a test is followed by its push. -/
structure Serial (a : Acceptor) : Prop where
  within : a.list.Within
  handshaking : a.handshaking = []
  tested : a.tested = [] ∨ ∃ conn, a.tested = [conn] ∧
    (0 < a.list.maxConn → a.list.size < a.list.maxConn.toNat)

/-- A list that gets no longer stays within its limit, and keeps its room. -/
theorem Serial.shrink {a a' : Acceptor} (h : a.Serial) (hhandshaking : a'.handshaking = [])
    (htested : a'.tested = a.tested) (hmax : a'.list.maxConn = a.list.maxConn)
    (hsize : a'.list.size ≤ a.list.size) : a'.Serial := by
  refine ⟨?_, hhandshaking, ?_⟩
  · intro hlimit
    rw [hmax] at hlimit ⊢
    exact Nat.le_trans hsize (h.within hlimit)
  · rw [htested, hmax]
    refine h.tested.imp_right ?_
    intro ⟨conn, hconn, hroom⟩
    exact ⟨conn, hconn, fun hlimit ↦ Nat.lt_of_le_of_lt hsize (hroom hlimit)⟩

/-- A connection is pushed into the room that its test has found. -/
theorem Serial.pushed {a a' : Acceptor} (h : a.Serial) {conn : ConnectionPtr}
    (hconn : conn ∈ a.tested) (hhandshaking : a'.handshaking = a.handshaking)
    (htested : a'.tested = a.tested.erase conn) (hlist : a'.list = a.list.push conn) :
    a'.Serial := by
  rcases h.tested with hnone | ⟨other, hother, hroom⟩
  · rw [hnone] at hconn
    cases hconn
  · obtain rfl : conn = other := by simpa [hother] using hconn
    refine ⟨?_, hhandshaking.trans h.handshaking, .inl (by simp [htested, hother])⟩
    intro hlimit
    rw [hlist] at hlimit ⊢
    have hlt := hroom hlimit
    show (a.list.connList ++ [conn]).length ≤ _
    rw [List.length_append]
    exact hlt

/-- Every action of an acceptor without SSL keeps its limit. -/
theorem Serial.act {a : Acceptor} (h : a.Serial) (hkind : a.kind = .tcp) {action : AcceptorAction}
    (hpossible : a.Possible action) (globalFull : Bool) : (a.act globalFull action).Serial := by
  have hacts := act_acts a globalFull action
  generalize a.act globalFull action = a' at hacts ⊢
  cases hacts with
  | acceptFailed value identified refused => exact h.shrink h.handshaking rfl rfl (Nat.le_refl _)
  | unidentified refused => exact h.shrink h.handshaking rfl rfl (Nat.le_refl _)
  | refused _ hfull =>
      obtain ⟨-, hlist, -, hhandshaking, htested, -⟩ := accept_next_same a.taken
      exact h.shrink (hhandshaking.trans h.handshaking) htested (by rw [hlist]; rfl)
        (Nat.le_of_eq (by rw [hlist]; rfl))
  | refusalFailed _ hfull => exact h.shrink h.handshaking rfl rfl (Nat.le_refl _)
  | tested refused _ hroom =>
      -- nothing else was tested, since the strand was free
      have hfree : a.tested = [] := hpossible.2.2 hkind
      refine ⟨h.within, h.handshaking,
        .inr ⟨a.newConnection, ?_, fun hlimit ↦ SocketConnectionList.lt_of_room hroom hlimit⟩⟩
      rw [hfree, List.nil_append]
  | handshaking refused hssl => exact absurd (hssl.symm.trans hkind) (by decide)
  | handshakeFailed conn e hfailed =>
      refine h.shrink ?_ rfl rfl (Nat.le_refl _)
      rw [h.handshaking, List.erase_nil]
  | handshakeTested conn hroom =>
      have hmem : conn ∈ a.handshaking := hpossible
      rw [h.handshaking] at hmem
      cases hmem
  | pushed conn _ =>
      obtain ⟨-, hlist, -, hhandshaking, htested, -⟩ := accept_next_same
        { a with
          tested := a.tested.erase conn
          list := a.list.push conn
          running := a.running ++ [conn] }
      exact h.pushed hpossible hhandshaking htested hlist
  | pushedSSL conn hssl => exact absurd (hssl.symm.trans hkind) (by decide)
  | unnamed conn => exact h.pushed hpossible rfl rfl rfl
  | close conn => exact h.shrink h.handshaking rfl rfl (List.length_filter_le _ _)
  | handleStop => exact h.shrink h.handshaking rfl rfl (Nat.le_refl _)
  | popLast hlist => exact h.shrink h.handshaking rfl rfl (Nat.le_refl _)
  | popped conn rest hlist =>
      refine h.shrink h.handshaking rfl rfl ?_
      show rest.length ≤ a.list.connList.length
      rw [hlist]
      exact Nat.le_succ _

/-- A new acceptor has no connections. -/
theorem serial_new (kind : Kind) (maxConnections : UInt32) : (new kind maxConnections).Serial :=
  ⟨fun _ ↦ Nat.zero_le _, rfl, .inl rfl⟩

end Acceptor

/-! ## Servers -/

/-- The items after one of them was changed. -/
theorem mem_modify {α : Type} {items : List α} {index : Nat} {f : α → α} {other : α}
    (h : other ∈ items.modify index f) :
    other ∈ items ∨ ∃ item ∈ items[index]?, other = f item := by
  obtain ⟨pos, hpos⟩ := List.mem_iff_getElem?.mp h
  rw [List.getElem?_modify, Option.map_eq_map, Option.map_eq_some_iff] at hpos
  obtain ⟨item, hitem, hother⟩ := hpos
  by_cases hindex : index = pos
  · subst hindex
    rw [if_pos rfl] at hother
    exact .inr ⟨item, hitem, hother.symm⟩
  · rw [if_neg hindex] at hother
    exact .inl (hother ▸ List.mem_of_getElem? hitem)

/-- The total changes by what one of the numbers changes. -/
theorem sum_modify {α : Type} {items : List α} {index : Nat} {item : α}
    (hitem : items[index]? = some item) (f : α → α) (size : α → Nat) :
    ((items.modify index f).map size).sum + size item = (items.map size).sum + size (f item) := by
  induction items generalizing index with
  | nil => simp at hitem
  | cons first rest ih =>
      cases index with
      | zero =>
          obtain rfl : first = item := by simpa using hitem
          simp only [List.modify_zero_cons, List.map_cons, List.sum_cons]
          omega
      | succ index =>
          have hrest := ih (by simpa using hitem)
          simp only [List.modify_succ_cons, List.map_cons, List.sum_cons]
          omega

namespace Server

/-- The number of registered connections. -/
def registered (s : Server) : Nat := (s.acceptors.map fun a ↦ a.list.size).sum

/-- All limits are kept. -/
structure Within (s : Server) : Prop where
  total : 0 < s.maxConn → s.registered ≤ s.maxConn.toNat
  sockets : ∀ a ∈ s.acceptors, a.list.Within

/-- There is room for another connection of an acceptor. -/
structure Room (s : Server) (a : Acceptor) : Prop where
  total : 0 < s.maxConn → s.registered < s.maxConn.toNat
  own : 0 < a.list.maxConn → a.list.size < a.list.maxConn.toNat

/-- A test that lets a connection in has found room for it. -/
theorem Within.room {s : Server} {a : Acceptor} (h : s.Within)
    (hfull : a.list.isFull s.isFull = false) : s.Room a :=
  ⟨fun hlimit ↦ lt_of_global_room h.total (SocketConnectionList.global_room hfull) hlimit,
    fun hlimit ↦ SocketConnectionList.lt_of_room hfull hlimit⟩

variable {s : Server} {index : Nat} {a : Acceptor} {action : AcceptorAction}

/-- The number of registered connections after an action. -/
theorem registered_act (action : AcceptorAction) (ha : a ∈ s.acceptors[index]?) :
    (s.act (index, action)).registered + a.list.size =
      s.registered + (a.act s.isFull action).list.size :=
  sum_modify ha (fun a ↦ a.act s.isFull action) fun a ↦ a.list.size

/-- The limits are kept by an action that does not push, or pushes where there is room. -/
theorem Within.act (h : s.Within) (ha : a ∈ s.acceptors[index]?)
    (hroom : action.isPush = true → s.Room a) : (s.act (index, action)).Within := by
  obtain ⟨-, hmax, hsize⟩ := a.act_list s.isFull action
  have hwithin : a.list.Within := h.sockets a (List.mem_of_getElem? ha)
  have hsum := registered_act action ha
  have htotal : 0 < s.maxConn → (s.act (index, action)).registered ≤ s.maxConn.toNat := by
    intro hlimit
    have hregistered := h.total hlimit
    split_ifs at hsize with hpush
    · have hfree := (hroom hpush).total hlimit
      omega
    · omega
  have hown : (a.act s.isFull action).list.Within := by
    intro hlimit
    rw [hmax] at hlimit ⊢
    have hlist := hwithin hlimit
    split_ifs at hsize with hpush
    · have hfree := (hroom hpush).own hlimit
      omega
    · omega
  refine ⟨htotal, ?_⟩
  intro b hb
  rcases mem_modify hb with hb | ⟨a', ha', rfl⟩
  · exact h.sockets b hb
  · obtain rfl : a = a' := Option.some.inj (ha.symm.trans ha')
    exact hown

/-- The connections between their test and their push, with the acceptors they belong to. -/
def tested (s : Server) : List (Nat × ConnectionPtr) :=
  s.acceptors.zipIdx.flatMap fun (a, index) ↦ a.tested.map fun conn ↦ (index, conn)

theorem mem_tested {conn : ConnectionPtr} (ha : s.acceptors[index]? = some a)
    (hconn : conn ∈ a.tested) : (index, conn) ∈ s.tested :=
  List.mem_flatMap.mpr ⟨(a, index), List.mk_mem_zipIdx_iff_getElem?.mpr ha,
    List.mem_map_of_mem hconn⟩

/-- A new server has no connections. -/
theorem within_start (maxConnections : UInt32) (sockets : List (Kind × UInt32)) :
    (start maxConnections sockets).Within := by
  have hempty : ∀ a ∈ (start maxConnections sockets).acceptors, a.list.size = 0 := by
    intro a ha
    obtain ⟨socket, -, rfl⟩ := List.mem_map.mp ha
    rfl
  constructor
  · intro _
    have hnone : (start maxConnections sockets).registered = 0 := by
      simp [registered, start, Acceptor.new, SocketConnectionList.size, Function.comp_def]
    rw [hnone]
    exact Nat.zero_le _
  · intro a ha _
    rw [hempty a ha]
    exact Nat.zero_le _

end Server

/-! ## Overtaken connections -/

/-- A server, and the connections behind whose test another connection was pushed. -/
structure Overtaking where
  server : Server
  overtaken : List (Nat × ConnectionPtr)

namespace Overtaking

/-- A new server. -/
def start (maxConnections : UInt32) (sockets : List (Kind × UInt32)) : Overtaking :=
  ⟨.start maxConnections sockets, []⟩

/-- A push overtakes all connections that are between their test and their push. -/
def act (o : Overtaking) (action : Nat × AcceptorAction) : Overtaking :=
  let server := o.server.act action
  ⟨server, if action.2.isPush then server.tested else o.overtaken⟩

/-- No other connection was pushed between the test and the push of the connection. -/
def Apart (o : Overtaking) : Nat × AcceptorAction → Prop
  | (index, .push conn _) => (index, conn) ∉ o.overtaken
  | (_, _) => True

/-- The limits are kept, and what a test has found still holds until another connection is pushed.
-/
structure Guarded (o : Overtaking) : Prop where
  within : o.server.Within
  room : ∀ index a conn, o.server.acceptors[index]? = some a → conn ∈ a.tested →
    (index, conn) ∉ o.overtaken → o.server.Room a

variable {o : Overtaking} {index : Nat} {action : AcceptorAction}

/-- A push that is apart from others finds the room that its test has found. -/
theorem Guarded.push_room {a : Acceptor} (h : o.Guarded) (ha : o.server.acceptors[index]? = some a)
    (hpossible : a.Possible action) (hapart : o.Apart (index, action))
    (hpush : action.isPush = true) : o.server.Room a := by
  cases action with
  | push conn named => exact h.room index a conn ha hpossible hapart
  | handleAccept | handleHandshake | close | handleStop | pop =>
      exact absurd hpush Bool.false_ne_true

/-- An action that does not push leaves the room that was found. -/
theorem Guarded.keeps_room {a : Acceptor} (h : o.Guarded)
    (ha : o.server.acceptors[index]? = some a) (hpush : action.isPush = false) {other : Nat}
    {b : Acceptor} {conn : ConnectionPtr}
    (hb : (o.server.act (index, action)).acceptors[other]? = some b) (hconn : conn ∈ b.tested)
    (hovertaken : (other, conn) ∉ o.overtaken) : (o.server.act (index, action)).Room b := by
  obtain ⟨-, hmax, hsize⟩ := a.act_list o.server.isFull action
  rw [hpush, if_neg Bool.false_ne_true] at hsize
  have hsum := Server.registered_act action ha
  have htotal {c : Acceptor} (hroom : o.server.Room c) (hlimit : 0 < o.server.maxConn) :
      (o.server.act (index, action)).registered < o.server.maxConn.toNat := by
    have hfree := hroom.total hlimit
    omega
  have hmodify : (o.server.act (index, action)).acceptors =
      o.server.acceptors.modify index fun a ↦ a.act o.server.isFull action := rfl
  rw [hmodify, List.getElem?_modify] at hb
  by_cases heq : index = other
  · subst heq
    rw [ha] at hb
    obtain rfl : a.act o.server.isFull action = b := by simpa using hb
    -- the connection was tested before, or its test has found room just now
    have hroom : o.server.Room a := by
      rcases a.act_tested hconn with hbefore | hfull
      · exact h.room index a conn ha hbefore hovertaken
      · exact h.within.room hfull
    refine ⟨htotal hroom, ?_⟩
    intro hlimit
    rw [hmax] at hlimit ⊢
    have hfree := hroom.own hlimit
    omega
  · have hsame : o.server.acceptors[other]? = some b := by simpa [heq] using hb
    have hroom := h.room other b conn hsame hconn hovertaken
    exact ⟨htotal hroom, hroom.own⟩

/-- Every action whose pushes are apart keeps the limits. -/
theorem Guarded.act (h : o.Guarded) (hpossible : o.server.Possible (index, action))
    (hapart : o.Apart (index, action)) : (o.act (index, action)).Guarded := by
  obtain ⟨a, ha, hpossible⟩ := hpossible
  have hwithin := h.within.act ha (h.push_room ha hpossible hapart)
  refine ⟨hwithin, ?_⟩
  intro other b conn hb hconn hovertaken
  cases hpush : action.isPush with
  | true =>
      have hall : (o.act (index, action)).overtaken = (o.server.act (index, action)).tested :=
        if_pos hpush
      rw [hall] at hovertaken
      exact absurd (Server.mem_tested hb hconn) hovertaken
  | false =>
      have hsame : (o.act (index, action)).overtaken = o.overtaken := by
        rw [Overtaking.act, hpush]
        rfl
      rw [hsame] at hovertaken
      exact h.keeps_room ha hpush hb hconn hovertaken

/-- A new server has tested no connection. -/
theorem guarded_start (maxConnections : UInt32) (sockets : List (Kind × UInt32)) :
    (start maxConnections sockets).Guarded := by
  refine ⟨Server.within_start maxConnections sockets, ?_⟩
  intro index a conn ha hconn
  obtain ⟨socket, -, rfl⟩ := List.mem_map.mp (List.mem_of_getElem? ha)
  cases hconn

end Overtaking

variable (maxConnections : UInt32) (sockets : List (Kind × UInt32))
    (actions : List (Nat × AcceptorAction))

/-- Every acceptor without SSL keeps its own limit. -/
theorem tcp_limits_hold
    (hrun : Runs.Each Server.act Server.Possible (.start maxConnections sockets) actions) :
    Runs.Always Server.act (fun s ↦ ∀ a ∈ s.acceptors, a.kind = .tcp → a.list.Within)
      (.start maxConnections sockets) actions := by
  have hserial : Runs.Always Server.act (fun s ↦ ∀ a ∈ s.acceptors, a.kind = .tcp → a.Serial)
      (.start maxConnections sockets) actions := by
    refine Runs.always_rule ?_ ?_ hrun
    · intro s action h hpossible b hb
      obtain ⟨a, ha, hpossible⟩ := hpossible
      rcases mem_modify hb with hb | ⟨a', ha', rfl⟩
      · exact h b hb
      · obtain rfl : a = a' := Option.some.inj (ha.symm.trans ha')
        intro hkind
        rw [(a.act_list s.isFull action.2).1] at hkind
        exact (h a (List.mem_of_getElem? ha) hkind).act hkind hpossible s.isFull
    · intro a ha _
      obtain ⟨socket, -, rfl⟩ := List.mem_map.mp ha
      exact Acceptor.serial_new socket.1 socket.2
  exact hserial.mono fun s h a ha hkind ↦ (h a ha hkind).within

/-- **The limits on connections are kept** in every run in which no other connection is pushed
between the test of a connection and its push. -/
theorem limits_hold_apart
    (hrun : Runs.Each Server.act Server.Possible (.start maxConnections sockets) actions)
    (hapart : Runs.Each Overtaking.act Overtaking.Apart (.start maxConnections sockets) actions) :
    Runs.Always Server.act Server.Within (.start maxConnections sockets) actions := by
  have hview (o : Overtaking) (action : Nat × AcceptorAction) :
      (o.act action).server = o.server.act action := rfl
  have hstart : (Overtaking.start maxConnections sockets).server = .start maxConnections sockets :=
    rfl
  rw [← hstart, ← Runs.each_view Overtaking.server hview] at hrun
  rw [← hstart, ← Runs.always_view Overtaking.server hview]
  have hguarded := Runs.always_rule (fun o action h hallows ↦ h.act hallows.1 hallows.2)
    (Overtaking.guarded_start maxConnections sockets) (hrun.and hapart)
  exact hguarded.mono fun o h ↦ h.within

/-- Two sockets, and a limit of one connection: one client takes it, and the other one is refused.
-/
theorem limits_hold_apart_one :
    Runs.Always Server.act Server.Within (.start 1 [(.tcp, 0), (.ssl, 5)])
      [(0, .handleAccept none true true), (1, .handleAccept none true true),
        (0, .push ⟨0, 0⟩ true), (1, .handleHandshake ⟨0, 0⟩ none)] :=
  limits_hold_apart 1 [(.tcp, 0), (.ssl, 5)] _
    ⟨⟨_, rfl, by decide⟩, ⟨_, rfl, by decide⟩, ⟨_, rfl, by decide⟩, ⟨_, rfl, by decide⟩, trivial⟩
    ⟨trivial, trivial, List.not_mem_nil, trivial, trivial⟩

/-- Two clients connect to two sockets at once, and both pass the test for the only place. -/
theorem not_limits_hold :
    ¬ ∀ (maxConnections : UInt32) (sockets : List (Kind × UInt32))
      (actions : List (Nat × AcceptorAction)),
      Runs.Each Server.act Server.Possible (.start maxConnections sockets) actions →
        Runs.Always Server.act Server.Within (.start maxConnections sockets) actions := by
  intro h
  have halways := h 1 [(.tcp, 0), (.tcp, 0)]
    [(0, .handleAccept none true true), (1, .handleAccept none true true), (0, .push ⟨0, 0⟩ true),
      (1, .push ⟨0, 0⟩ true)]
    ⟨⟨_, rfl, by decide⟩, ⟨_, rfl, by decide⟩, ⟨_, rfl, by decide⟩, ⟨_, rfl, by decide⟩, trivial⟩
  have htotal := halways.2.2.2.2.total (by decide)
  exact absurd htotal (by decide)

end Smerp.Network
