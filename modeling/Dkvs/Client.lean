import Dkvs.Conversation.Connections

/-!
# One call of the command line client

The function `request` of the client sends its line again whenever no reply arrives, to the same
server or to another one. The call runs beside the connections of all clients. What it writes on
a connection reaches the server in pieces, and the pieces are cut into lines there; a connection
that the call has given up may still be read later.
-/

namespace Dkvs

variable {N : ℕ}

def kMaxRedirects : ℕ := 8

/-! ## The entry for a line -/

/-- A process that dies before its first effect has not written the entry. -/
def ServiceAction.appends : ServiceAction N → Bool
  | .die _ _ m => 0 < m
  | _ => true

/-- The connection whose line is taken by a leader, and the entry for it with its index. -/
def Service.taken (s : Service N) (a : ServiceAction N) : Option (ℕ × ℕ × LogEntry) := do
  let (k, chunks) ← a.input
  let (conn, line?) ← s.recvFrom k chunks
  let cmd ← line?.bind commandOf
  let slot ← s.cluster.place conn.server cmd
  if a.appends then some (k, slot.1, ⟨slot.2, cmd.encode⟩) else none

/-- The entry that an action writes for connection `k`. -/
def Service.entryOf (s : Service N) (a : ServiceAction N) (k : ℕ) : Option (ℕ × LogEntry) :=
  (s.taken a).bind fun x ↦ if x.1 = k then some x.2 else none

/-! ## The call -/

/-- What the call knows of a connection it has used, and what has become of it. -/
structure Channel where
  /-- All that was written, in earlier calls too. -/
  written : Bytes := []
  /-- How much of the replies earlier calls have read. -/
  read : ℕ := 0
  /-- The entries for the lines that were taken during the call. -/
  entries : List (ℕ × LogEntry) := []
  /-- The call has received a reply. -/
  replied : Bool := false
  deriving DecidableEq, Repr

/-- Add the entry for a line that was taken. -/
def Channel.credit (channel : Channel) (entry : Option (ℕ × LogEntry)) : Channel :=
  { channel with entries := channel.entries ++ entry.toList }

/-- The nodes and the connections, with one call of `request` in progress. -/
structure Session (N : ℕ) where
  service : Service N
  /-- The loop variable of `request`. -/
  attempt : ℕ
  conn : Option ℕ
  /-- The line was sent, and the call is in `recvLine`. -/
  awaiting : Bool
  channels : ℕ → Option Channel
  /-- Where the line was sent last. -/
  latest : Option ℕ
  /-- What the call returned: a reply, or `none` if the cluster is unreachable. -/
  result : Option (Option Bytes)

inductive ClientAction (N : ℕ) where
  /-- Anything that the nodes and the threads of the connections do, those of other clients
  included. -/
  | service (a : ServiceAction N)
  | connect (i : Fin N)
  | unreachable
  /-- The line goes to a connection that no node accepts any more. -/
  | unaccepted
  /-- The connection breaks after the first `accepted` bytes of the line. -/
  | sendFails (accepted : ℕ)
  | send
  /-- A reply arrives in these chunks. After a redirect `reached` is the node that the client is
  connected to. -/
  | receive (chunks : List Bytes) (reached : Option (Fin N))
  | receiveFails
  | exhausted

namespace Session

/-- The call begins, perhaps on a connection that an earlier call left open. -/
def start (service : Service N) (conn : Option ℕ) : Session N where
  service := service
  attempt := 0
  conn := conn
  awaiting := false
  channels k :=
    if conn = some k then
      service.connections[k]?.map fun old ↦ { written := old.received, read := old.sent.length }
    else none
  latest := none
  result := none

/-- The client is at the top of its loop. -/
def Ready (s : Session N) : Prop :=
  s.result = none ∧ s.awaiting = false ∧ s.attempt < kMaxRedirects

instance (s : Session N) : Decidable s.Ready := inferInstanceAs (Decidable (_ ∧ _))

/-- The loop goes round without a connection. -/
def retry (s : Session N) : Session N :=
  { s with awaiting := false, conn := none, attempt := s.attempt + 1 }

def update (s : Session N) (k : ℕ) (f : Channel → Channel) : Session N :=
  { s with channels := fun j ↦ if j = k then (s.channels k).map f else s.channels j }

def write (s : Session N) (k : ℕ) (text : Bytes) : Session N :=
  s.update k fun channel ↦ { channel with written := channel.written ++ text }

/-- `tcpConnect` reaches the node. -/
def tcpConnect (clientAddrs : List String) (s : Session N) (i : Fin N) : Option (Session N) :=
  (s.service.step clientAddrs (.accept i)).map fun service ↦
    { s with
      service
      conn := some s.service.connections.length
      channels := Function.update s.channels s.service.connections.length (some {}) }

/-- What arrives at the server was written by the client. -/
def Arrives (s : Session N) (a : ServiceAction N) : Prop :=
  ∀ x ∈ a.input, ∀ channel ∈ s.channels x.1, ∀ conn ∈ s.service.connections[x.1]?,
    conn.received ++ x.2.flatten <+: channel.written

instance (s : Session N) (a : ServiceAction N) : Decidable (s.Arrives a) :=
  inferInstanceAs (Decidable (∀ x ∈ a.input, _))

def serve (s : Session N) (a : ServiceAction N) (service : Service N) : Session N :=
  { s with
    service
    channels := fun k ↦ (s.channels k).map fun channel ↦
      channel.credit (s.service.entryOf a k) }

/-- The reply is returned or, if it is a redirect, followed. Where `Address::parse` overflows,
anything may be reached. -/
def onReply (clientAddrs : List String) (s : Session N) (reply : Bytes)
    (reached : Option (Fin N)) : Option (Session N) :=
  match redirectTarget reply, reached with
  | none, _ => some { s with awaiting := false, result := some (some reply) }
  | some (.ok none), _ | some _, none => some s.retry
  | some _, some i => s.retry.tcpConnect clientAddrs i

/-- One step of the call of `request` with the given line, or of its surroundings. The buffer of
a connection is empty when the call sends its line, and `recvLine` takes exactly the chunks. -/
def step (clientAddrs : List String) (line : Bytes) (s : Session N) :
    ClientAction N → Option (Session N)
  | .service a => if s.Arrives a then (s.service.step clientAddrs a).map (s.serve a) else none
  | .connect i => if s.Ready ∧ s.conn = none then s.tcpConnect clientAddrs i else none
  | .unreachable => if s.Ready ∧ s.conn = none then some { s with result := some none } else none
  | .unaccepted => if s.Ready ∧ s.conn = none then some s.retry else none
  | .sendFails accepted =>
      if s.Ready ∧ accepted < (sendLine line).length then
        s.conn.map fun k ↦ (s.write k ((sendLine line).take accepted)).retry
      else none
  | .send =>
      if s.Ready then
        s.conn.map fun k ↦
          { s.write k (sendLine line) with awaiting := true, latest := some k }
      else none
  | .receive chunks reached => do
      let k ← s.conn
      let channel ← s.channels k
      let conn ← s.service.connections[k]?
      if s.awaiting ∧ chunks.flatten <+: conn.sent.drop channel.read then
        match recvLine [] chunks with
        | some (reply, _, []) =>
            (s.update k fun channel ↦ { channel with replied := true }).onReply clientAddrs reply
              reached
        | _ => none
      else none
  | .receiveFails => if s.awaiting then some s.retry else none
  | .exhausted =>
      if s.result = none ∧ s.awaiting = false ∧ s.attempt = kMaxRedirects then
        some { s with result := some none }
      else none

/-- The nodes may do anything, and `STATUS` counts the keys. -/
def Admits (s : Session N) : ClientAction N → Prop
  | .service a => s.service.Admits (fun _ _ ↦ True) a
  | _ => True

/-- The entry was written for a line of the call. -/
def Created (s : Session N) (e : ℕ × LogEntry) : Prop :=
  ∃ k channel, s.channels k = some channel ∧ e ∈ channel.entries

/-- A leader has committed the entry, and some node has applied it. -/
def TookEffect (events : List (Event N)) (e : ℕ × LogEntry) : Prop :=
  Committed events e.1 e.2 ∧ ∃ x, .applied x e.1 e.2.term e.2.command ∈ events

def AtMostOnce (s : Session N) : Prop :=
  ∀ {e e' : ℕ × LogEntry}, s.Created e → s.Created e' → TookEffect s.service.cluster.trace e →
    TookEffect s.service.cluster.trace e' → e = e'

/-- The line is sent again only if no leader has taken it where the reply did not arrive, and
after that no leader takes it there. -/
def Patient (s : Session N) : ClientAction N → Prop
  | .send => ∀ k < s.service.connections.length, ∀ channel ∈ s.channels k,
      channel.replied = false → channel.entries = []
  | .service a => ∀ x ∈ s.service.taken a, (s.channels x.1).isSome → s.latest = some x.1
  | _ => True

end Session

/-- Nothing is left to read on either side of the connection. -/
def Service.Idle (service : Service N) (conn : Option ℕ) : Prop :=
  ∀ k ∈ conn, ∃ old, service.connections[k]? = some old ∧ old.buffer = [] ∧
    ∀ handler, old.phase ≠ .parked handler

/-- The states of a call that starts in some run of the nodes, by actions that all satisfy
`ok`. -/
inductive SessionRun (ok : Session N → ClientAction N → Prop) (clientAddrs : List String)
    (line : Bytes) : Session N → Prop
  | start {service : Service N} (hrun : ServiceRun (fun _ _ ↦ True) clientAddrs service)
      {conn : Option ℕ} (hidle : service.Idle conn) :
      SessionRun ok clientAddrs line (.start service conn)
  | step {s s' : Session N} {a : ClientAction N} (h : SessionRun ok clientAddrs line s)
      (hadmits : s.Admits a) (hok : ok s a) (hs : s.step clientAddrs line a = some s')
      (hb : s'.service.cluster.TermsBounded) : SessionRun ok clientAddrs line s'

/-! ## What a step does to one connection -/

/-- The bytes that arrive on connection `k`. -/
def ServiceAction.arrival (a : ServiceAction N) (k : ℕ) : Bytes :=
  (a.input.bind fun x ↦ if x.1 = k then some x.2.flatten else none).getD []

/-- A step as one connection sees it, with the bytes that arrive and the entry that is
written. -/
inductive ClientConnection.Turn (conn : ClientConnection N) :
    Bytes → Option (ℕ × LogEntry) → ClientConnection N → Prop
  | rest {phase : Phase} (hphase : ∀ handler, phase = .parked handler → conn.phase = phase) :
      Turn conn [] none { conn with phase }
  | hangUp (arrived : Bytes) :
      Turn conn arrived none { conn with received := conn.received ++ arrived, phase := .closed }
  | line {arrived raw : Bytes} {entry : Option (ℕ × LogEntry)} {next : ClientConnection N}
      (hraw : newline ∉ raw) (hcut : conn.buffer ++ arrived = sendLine raw ++ next.buffer)
      (hreceived : next.received = conn.received ++ arrived)
      (hsent : next.sent = conn.sent ∨ entry = none ∧ (∀ handler, next.phase ≠ .parked handler) ∧
        ∃ text accepted, next.sent = conn.sent ++ (sendLine text).take accepted) :
      Turn conn arrived entry next
  | answer {handler : Handler} (hparked : conn.phase = .parked handler) {text : Bytes}
      (htext : ¬ redirectWord <+: text) {accepted : ℕ} {phase : Phase}
      (hphase : ∀ handler, phase ≠ .parked handler) :
      Turn conn [] none
        { conn with sent := conn.sent ++ (sendLine text).take accepted, phase }

/-- The process ends after the turn. -/
theorem ClientConnection.Turn.close {conn next : ClientConnection N} {arrived : Bytes}
    {entry : Option (ℕ × LogEntry)} (hturn : conn.Turn arrived entry next) :
    conn.Turn arrived entry next.close := by
  cases hturn with
  | rest _ => exact .rest (by simp)
  | hangUp => exact .hangUp arrived
  | line hraw hcut hreceived hsent =>
      refine .line hraw hcut hreceived (hsent.imp_right ?_)
      exact fun ⟨hentry, _, hreply⟩ ↦ ⟨hentry, by simp [ClientConnection.close], hreply⟩
  | answer hparked htext _ => exact .answer hparked htext (by simp)

namespace Service

variable {clientAddrs : List String} {s s' : Service N} {a : ServiceAction N} {j k : ℕ}
  {conn : ClientConnection N} {chunks : List Bytes} {line rest : Bytes}

theorem recvFrom_took (htook : s.Took k conn chunks line rest) :
    s.recvFrom k chunks = some (conn.fill rest chunks, some line) := by
  simp [recvFrom, htook.mem, htook.phase, htook.line]

/-- The entry for a line that was received, if it is a command. -/
theorem taken_took (htook : s.Took k conn chunks line rest) (hinput : a.input = some (k, chunks)) :
    s.taken a = (commandOf line).bind fun cmd ↦ (s.cluster.place conn.server cmd).bind fun slot ↦
      if a.appends then some (k, slot.1, ⟨slot.2, cmd.encode⟩) else none := by
  simp [taken, hinput, recvFrom_took htook, ClientConnection.fill]

theorem entryOf_eq_none (htaken : ∀ x ∈ s.taken a, x.1 ≠ k) : s.entryOf a k = none := by
  rw [entryOf, Option.bind_eq_none_iff]
  exact fun x hx ↦ if_neg (htaken x hx)

/-- A request that needs no entry leaves none, and neither does one that is refused. -/
theorem entryOf_eq_none_of_place (htook : s.Took k conn chunks line rest)
    (hinput : a.input = some (k, chunks))
    (hplace : ∀ cmd, commandOf line = some cmd → s.cluster.place conn.server cmd = none) :
    s.entryOf a k = none := by
  refine entryOf_eq_none fun x hx ↦ ?_
  rw [taken_took htook hinput] at hx
  obtain ⟨cmd, hcmd, hslot⟩ := Option.bind_eq_some_iff.mp hx
  simp [hplace cmd hcmd] at hslot

/-- A connection takes a line only from its own input. -/
theorem input_of_taken {x : ℕ × ℕ × LogEntry} (hx : s.taken a = some x) :
    ∃ chunks, a.input = some (x.1, chunks) := by
  simp only [taken, Option.bind_eq_bind, Option.bind_eq_some_iff, Option.ite_none_right_eq_some,
    Option.some.injEq] at hx
  obtain ⟨⟨k, chunks⟩, hinput, -, -, -, -, slot, -, -, rfl⟩ := hx
  exact ⟨chunks, hinput⟩

theorem arrival_of_input (hinput : a.input = some (k, chunks)) :
    a.arrival k = chunks.flatten := by
  simp [ServiceAction.arrival, hinput]

theorem arrival_of_input_ne (hinput : ∀ x ∈ a.input, x.1 ≠ k) : a.arrival k = [] := by
  have hnone : (a.input.bind fun x ↦ if x.1 = k then some x.2.flatten else none) = none :=
    Option.bind_eq_none_iff.mpr fun x hx ↦ if_neg (hinput x hx)
  rw [ServiceAction.arrival, hnone, Option.getD_none]

/-- A connection that does not receive can only change its phase. -/
theorem turn_of_input_ne (hinput : ∀ x ∈ a.input, x.1 ≠ k) {phase : Phase}
    (hphase : ∀ handler, phase = .parked handler → conn.phase = phase) :
    conn.Turn (a.arrival k) (s.entryOf a k) { conn with phase } := by
  have hentry : s.entryOf a k = none := by
    refine entryOf_eq_none fun x hx ↦ ?_
    obtain ⟨chunks, hchunks⟩ := input_of_taken hx
    exact hinput _ hchunks
  rw [arrival_of_input_ne hinput, hentry]
  exact .rest hphase

theorem turn_took (htook : s.Took k conn chunks line rest) (hinput : a.input = some (k, chunks))
    {next : ClientConnection N} (hbuffer : next.buffer = rest)
    (hreceived : next.received = conn.received ++ chunks.flatten)
    (hsent : next.sent = conn.sent ∨
      s.entryOf a k = none ∧ (∀ handler, next.phase ≠ .parked handler) ∧
        ∃ text accepted, next.sent = conn.sent ++ (sendLine text).take accepted) :
    conn.Turn (a.arrival k) (s.entryOf a k) next := by
  obtain ⟨raw, hraw, -, hcut⟩ := recvLine_cuts htook.line
  rw [arrival_of_input hinput]
  refine .line hraw ?_ hreceived hsent
  rw [hcut, hbuffer, List.flatten_nil, List.append_nil]

/-- A step that replaces one connection. -/
theorem turn_set {old next : ClientConnection N} (hj : s.connections[j]? = some old)
    (hinput : ∀ x ∈ a.input, x.1 = j) (hturn : old.Turn (a.arrival j) (s.entryOf a j) next)
    (hk : s.connections[k]? = some conn) :
    ∃ next', (s.connections.set j next)[k]? = some next' ∧
      conn.Turn (a.arrival k) (s.entryOf a k) next' := by
  by_cases hjk : j = k
  · subst hjk
    obtain rfl := Option.some.inj (hj.symm.trans hk)
    exact ⟨next, List.getElem?_set_self (List.getElem?_eq_some_iff.mp hj).1, hturn⟩
  · refine ⟨conn, by rw [List.getElem?_set_ne hjk, hk], ?_⟩
    exact turn_of_input_ne (fun x hx hxk ↦ hjk ((hinput x hx).symm.trans hxk)) fun _ _ ↦ rfl

theorem turn_cutOff {arrived : Bytes} {entry : Option (ℕ × LogEntry)} (restarted : Option (Fin N))
    (hturn : ∃ next, s.connections[k]? = some next ∧ conn.Turn arrived entry next) :
    ∃ next, (s.cutOff restarted).connections[k]? = some next ∧ conn.Turn arrived entry next := by
  obtain ⟨next, hk, hturn⟩ := hturn
  refine ⟨if some next.server = restarted then next.close else next, by simp [cutOff, hk], ?_⟩
  split_ifs
  · exact hturn.close
  · exact hturn

theorem reply_not_parked (conn : ClientConnection N) (text : Bytes) (accepted : ℕ)
    (handler : Handler) : (conn.reply text accepted).phase ≠ .parked handler := by
  unfold ClientConnection.reply
  dsimp only
  split_ifs
  · simp
  · simp

theorem resume_ne_redirect (stopping : Bool) (waiters : Waiters) (handler : Handler)
    (leader : ℕ) : (resume stopping waiters handler).1 ≠ .redirect leader := by
  unfold resume
  dsimp only
  split_ifs with hpending hterm
  · simp
  · simp
  · intro hredirect
    have hsuccess := isSuccess_outcome handler.cmd ((waiters handler.index).getD {})
    rw [hredirect] at hsuccess
    simp [Response.isSuccess] at hsuccess

theorem turn (hs : s.step clientAddrs a = some s') (hk : s.connections[k]? = some conn) :
    ∃ next, s'.connections[k]? = some next ∧
      conn.Turn (a.arrival k) (s.entryOf a k) next := by
  cases outcome hs with
  | accept i =>
      refine ⟨conn, ?_, turn_of_input_ne (by simp [ServiceAction.input]) fun _ _ ↦ rfl⟩
      rw [List.getElem?_append_left (List.getElem?_eq_some_iff.mp hk).1, hk]
  | @loop j old hj _ phase hnext =>
      refine turn_set hj (by simp [ServiceAction.input]) ?_ hk
      refine turn_of_input_ne (by simp [ServiceAction.input]) fun handler hparked ↦ ?_
      rcases hnext with rfl | rfl
      · simp at hparked
      · simp at hparked
  | @hangUp j old chunks accepted hj hphase hline =>
      refine turn_set hj (by simp [ServiceAction.input]) ?_ hk
      have hentry : s.entryOf (.receive j chunks accepted) j = none := by
        refine entryOf_eq_none fun x hx ↦ ?_
        simp [taken, ServiceAction.input, recvFrom, hj, hphase, hline] at hx
      rw [hentry, arrival_of_input rfl]
      exact .hangUp _
  | @blank j old chunks rest accepted htook =>
      refine turn_set htook.mem (by simp [ServiceAction.input]) ?_ hk
      exact turn_took htook rfl rfl rfl (Or.inl rfl)
  | @spoke a j old chunks line rest text accepted hinput htook hne himm next hnext =>
      refine turn_set htook.mem (by simp [hinput]) ?_ hk
      have hentry : s.entryOf a j = none := by
        refine entryOf_eq_none_of_place htook hinput fun cmd hcmd ↦ ?_
        rw [commandOf_eq_some hcmd] at himm
        cases himm
      rcases hnext with ⟨-, rfl⟩ | rfl
      · exact turn_took htook hinput rfl rfl
          (Or.inr ⟨hentry, reply_not_parked _ _ _, text, accepted, rfl⟩)
      · exact turn_took htook hinput rfl rfl
          (Or.inr ⟨hentry, by simp [ClientConnection.close], text, accepted, rfl⟩)
  | @execute j old chunks line rest accepted htook cmd hcmd slot hplace c' hc =>
      refine turn_set htook.mem (by simp [ServiceAction.input]) ?_ hk
      exact turn_took htook rfl rfl rfl (Or.inl rfl)
  | @refused j old chunks line rest accepted htook cmd hcmd hplace c' hc =>
      refine turn_set htook.mem (by simp [ServiceAction.input]) ?_ hk
      have hentry : s.entryOf (.receive j chunks accepted) j = none := by
        refine entryOf_eq_none_of_place htook rfl fun cmd' hcmd' ↦ ?_
        have hsame : ClientRequest.command cmd = .command cmd' :=
          Option.some.inj (hcmd.symm.trans (commandOf_eq_some hcmd'))
        rw [← ClientRequest.command.inj hsame]
        exact hplace
      exact turn_took htook rfl rfl rfl
        (Or.inr ⟨hentry, reply_not_parked _ _ _, _, accepted, rfl⟩)
  | @answer j h accepted old hj handler hphase hparked c' hc =>
      refine turn_set hj (by simp [ServiceAction.input]) ?_ hk
      have hentry : s.entryOf (.answer j h accepted) j = none :=
        entryOf_eq_none fun x hx ↦ by simp [taken, ServiceAction.input] at hx
      rw [hentry]
      exact .answer hphase (not_redirectWord_isPrefix (resume_ne_redirect _ _ _) _)
        (reply_not_parked old _ _)
  | @die j old chunks line rest m htook cmd hcmd c' hc =>
      refine turn_cutOff _ (turn_set htook.mem (by simp [ServiceAction.input]) ?_ hk)
      exact turn_took htook rfl rfl rfl (Or.inl rfl)
  | @node b hinner c' hc =>
      refine turn_cutOff _ ⟨conn, hk, ?_⟩
      exact turn_of_input_ne (by simp [ServiceAction.input]) fun _ _ ↦ rfl

end Service

end Dkvs
