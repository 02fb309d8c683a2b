import Dkvs.Addresses
import Dkvs.Linearizability
import Dkvs.TextProtocol

/-!
# The nodes and the connections of their clients

A client may send any bytes on its connection, cut in any way and several lines at a time. Each
connection has a thread on its node, which takes a line, sends the reply and only then takes the
next one. Here these threads run beside the nodes, and all bytes received and sent are kept. A
connection may break at any byte of a reply, and it ends at the latest with the process.
-/

namespace Dkvs

variable {N : ℕ}

/-! ## Replies that need no log entry -/

def roleName : Role → Bytes
  | .follower => "follower".toUTF8.toList
  | .candidate => "candidate".toUTF8.toList
  | .leader => "leader".toUTF8.toList

structure RaftStatus where
  role : Role
  term : ℕ
  leaderHint : ℤ
  commitIndex : ℕ
  lastApplied : ℕ
  lastLogIndex : ℕ
  deriving DecidableEq, Repr

def RaftNode.status (n : RaftNode) : RaftStatus where
  role := n.role
  term := n.currentTerm
  leaderHint := n.leaderHint
  commitIndex := n.commitIndex
  lastApplied := n.lastApplied
  lastLogIndex := n.lastLogIndex

/-- `std::to_string` of an `int`. -/
def decimalInt (z : ℤ) : Bytes := if z < 0 then 45 :: decimal z.natAbs else decimal z.natAbs

/-- The reply to `STATUS`. -/
def RaftStatus.text (s : RaftStatus) (keys : ℕ) : Bytes :=
  "STATUS role=".toUTF8.toList ++ roleName s.role ++
    " term=".toUTF8.toList ++ decimal s.term ++
    " leader=".toUTF8.toList ++ decimalInt s.leaderHint ++
    " commit=".toUTF8.toList ++ decimal s.commitIndex ++
    " applied=".toUTF8.toList ++ decimal s.lastApplied ++
    " log=".toUTF8.toList ++ decimal s.lastLogIndex ++
    " keys=".toUTF8.toList ++ decimal keys

/-- `size` of the store. -/
def KVStore.HasSize (store : KVStore) (n : ℕ) : Prop := {key | (store.get key).isSome}.encard = n

def unknownText : Bytes := "ERROR unknown command".toUTF8.toList

def pongText : Bytes := "PONG".toUTF8.toList

def byeText : Bytes := "BYE".toUTF8.toList

/-! ## Connections -/

/-- Where the thread of a connection is in `handleClientConnection`. -/
inductive Phase where
  /-- Before the test of `stopping_`. -/
  | top
  | receiving
  /-- In the wait of `executeCommand`. -/
  | parked (handler : Handler)
  | closed
  deriving DecidableEq, Repr

structure ClientConnection (N : ℕ) where
  server : Fin N
  phase : Phase
  /-- What was received behind the last line taken. -/
  buffer : Bytes
  received : Bytes
  sent : Bytes
  /-- For each request taken its place in the history, if it was a command. This has no effect
  on the thread. -/
  calls : List (Option ℕ)
  deriving DecidableEq, Repr

namespace ClientConnection

def opened (i : Fin N) : ClientConnection N := ⟨i, .top, [], [], [], []⟩

def close (conn : ClientConnection N) : ClientConnection N := { conn with phase := .closed }

def fill (conn : ClientConnection N) (buffer : Bytes) (chunks : List Bytes) :
    ClientConnection N :=
  { conn with buffer := buffer, received := conn.received ++ chunks.flatten }

def note (conn : ClientConnection N) (call : Option ℕ) : ClientConnection N :=
  { conn with calls := conn.calls ++ [call] }

/-- The socket takes the first `accepted` bytes of the reply. If these are not all, `sendLine`
fails and the loop is left. -/
def reply (conn : ClientConnection N) (text : Bytes) (accepted : ℕ) : ClientConnection N :=
  { conn with
    sent := conn.sent ++ (sendLine text).take accepted
    phase := if (sendLine text).length ≤ accepted then .top else .closed }

end ClientConnection

structure Service (N : ℕ) where
  observed : Observed N
  connections : List (ClientConnection N)

inductive ServiceAction (N : ℕ) where
  | accept (i : Fin N)
  /-- The `k`-th connection tests `stopping_`. -/
  | loop (k : ℕ)
  /-- The `k`-th connection receives these chunks until it has a line or gives up, and acts on
  a line that is not `STATUS`. -/
  | receive (k : ℕ) (chunks : List Bytes) (accepted : ℕ)
  /-- The `k`-th connection receives `STATUS` while the store has `keys` keys. -/
  | status (k : ℕ) (chunks : List Bytes) (keys accepted : ℕ)
  /-- The `k`-th connection is the `h`-th handler parked on its node, and its wait ends. -/
  | answer (k h accepted : ℕ)
  /-- The process dies while the `k`-th connection submits the command it has received. -/
  | die (k : ℕ) (chunks : List Bytes) (m : ℕ)
  /-- Anything else that the nodes do. -/
  | node (a : Action N)

/-- The connection that receives, and what it receives. -/
def ServiceAction.input : ServiceAction N → Option (ℕ × List Bytes)
  | .receive k chunks _ | .status k chunks _ _ | .die k chunks _ => some (k, chunks)
  | .accept _ | .loop _ | .answer _ _ _ | .node _ => none

/-- The action does not run on the thread of a connection. -/
def Action.Inner : Action N → Bool
  | .submit _ _ | .execute _ _ | .resume _ _ => false
  | .crashDuring a _ => a.Inner
  | _ => true

def Observed.perform (o : Observed N) (a : Action N) : Option (Observed N) :=
  (o.cluster.step a).map (o.observe a)

namespace Service

def initial (N : ℕ) : Service N := ⟨.initial N, []⟩

def cluster (s : Service N) : Cluster N := s.observed.cluster

def setConnection (s : Service N) (k : ℕ) (conn : ClientConnection N) : Service N :=
  { s with connections := s.connections.set k conn }

/-- The threads of a process end with it. -/
def cutOff (s : Service N) (restarted : Option (Fin N)) : Service N :=
  { s with
    connections := s.connections.map fun conn ↦
      if some conn.server = restarted then conn.close else conn }

def executeCommand (clientAddrs : List String) (s : Service N) (k : ℕ)
    (conn : ClientConnection N) (cmd : Command) (accepted : ℕ) : Option (Service N) :=
  let result := ((s.cluster.raft conn.server).submit cmd.encode).2
  let noted := conn.note (some s.observed.history.length)
  let next :=
    if result.isLeader then { noted with phase := .parked ⟨result.index, result.term, cmd⟩ }
    else noted.reply ((refuse conn.server N result).text clientAddrs) accepted
  (s.observed.perform (.execute conn.server cmd)).map fun o ↦ ⟨o, s.connections.set k next⟩

/-- What `handleClientConnection` does with a line. An empty one is passed over. -/
def handleLine (clientAddrs : List String) (s : Service N) (k : ℕ) (conn : ClientConnection N)
    (line : Bytes) (accepted : ℕ) : Option (Service N) :=
  if line.isEmpty then some (s.setConnection k { conn with phase := .top })
  else
    match parseClientRequest line with
    | none => some (s.setConnection k ((conn.note none).reply unknownText accepted))
    | some .quit => some (s.setConnection k ((conn.note none).reply byeText accepted).close)
    | some .ping => some (s.setConnection k ((conn.note none).reply pongText accepted))
    | some .status => none
    | some (.command cmd) => s.executeCommand clientAddrs k conn cmd accepted

/-- The connection and the line that `recvLine` gets from exactly these chunks. -/
def recvFrom (s : Service N) (k : ℕ) (chunks : List Bytes) :
    Option (ClientConnection N × Option Bytes) := do
  let conn ← s.connections[k]?
  if conn.phase = .receiving then
    match recvLine conn.buffer chunks with
    | none => some (conn.fill conn.buffer chunks, none)
    | some (line, rest, []) => some (conn.fill rest chunks, some line)
    | some _ => none
  else none

def step (clientAddrs : List String) (s : Service N) : ServiceAction N → Option (Service N)
  | .accept i =>
      if (s.cluster.processes i).stopping then none
      else some { s with connections := s.connections ++ [.opened i] }
  | .loop k => do
      let conn ← s.connections[k]?
      if conn.phase = .top then
        let stopping := (s.cluster.processes conn.server).stopping
        some (s.setConnection k { conn with phase := if stopping then .closed else .receiving })
      else none
  | .receive k chunks accepted => do
      let (conn, line?) ← s.recvFrom k chunks
      match line? with
      | none => some (s.setConnection k conn.close)
      | some line => s.handleLine clientAddrs k conn line accepted
  | .status k chunks keys accepted => do
      let (conn, line?) ← s.recvFrom k chunks
      let line ← line?
      if parseClientRequest line = some .status then
        let text := (s.cluster.raft conn.server).status.text keys
        some (s.setConnection k ((conn.note none).reply text accepted))
      else none
  | .answer k h accepted => do
      let conn ← s.connections[k]?
      match conn.phase with
      | .parked handler =>
          let p := s.cluster.processes conn.server
          if p.handlers[h]? = some handler then
            let response := (resume p.stopping p.waiters handler).1
            (s.observed.perform (.resume conn.server h)).map fun o ↦
              ⟨o, s.connections.set k (conn.reply (response.text clientAddrs) accepted)⟩
          else none
      | _ => none
  | .die k chunks m => do
      let (conn, line?) ← s.recvFrom k chunks
      let line ← line?
      let cmd ← commandOf line
      (s.observed.perform (.crashDuring (.execute conn.server cmd) m)).map fun o ↦
        { (s.setConnection k (conn.note (some s.observed.history.length))).cutOff
            (some conn.server) with observed := o }
  | .node a =>
      if a.Inner then
        (s.observed.perform a).map fun o ↦
          { s.cutOff (s.cluster.restarted a) with observed := o }
      else none

/-- The actions of the nodes satisfy `ok`, and `STATUS` counts the keys. -/
def Admits (ok : Cluster N → Action N → Prop) (s : Service N) : ServiceAction N → Prop
  | .node a => ok s.cluster a
  | .status k _ keys _ => ∀ conn, s.connections[k]? = some conn →
      (s.cluster.processes conn.server).store.HasSize keys
  | _ => True

end Service

inductive ServiceRun (ok : Cluster N → Action N → Prop) (clientAddrs : List String) :
    Service N → Prop
  | initial (hpos : 0 < N) (hsize : N < 2 ^ 32) : ServiceRun ok clientAddrs (.initial N)
  | step {s s' : Service N} {a : ServiceAction N} (h : ServiceRun ok clientAddrs s)
      (hok : s.Admits ok a) (hs : s.step clientAddrs a = some s')
      (hb : s'.cluster.TermsBounded) : ServiceRun ok clientAddrs s'

/-! ## What a step does -/

/-- A reply that needs no log entry. -/
inductive Immediate (n : RaftNode) : Option ClientRequest → Bytes → Prop
  | unknown : Immediate n none unknownText
  | quit : Immediate n (some .quit) byeText
  | ping : Immediate n (some .ping) pongText
  | status (keys : ℕ) : Immediate n (some .status) (n.status.text keys)

namespace Service

variable {clientAddrs : List String} {s s' : Service N} {k : ℕ} {conn : ClientConnection N}
  {chunks : List Bytes} {line rest : Bytes}

/-- The connection has received exactly these chunks, and a line with them. -/
structure Took (s : Service N) (k : ℕ) (conn : ClientConnection N) (chunks : List Bytes)
    (line rest : Bytes) : Prop where
  mem : s.connections[k]? = some conn
  phase : conn.phase = .receiving
  line : recvLine conn.buffer chunks = some (line, rest, [])

/-- The enabled actions and what they do. -/
inductive Outcome (clientAddrs : List String) (s : Service N) :
    ServiceAction N → Service N → Prop
  | accept (i : Fin N) :
      Outcome clientAddrs s (.accept i) { s with connections := s.connections ++ [.opened i] }
  | loop {k : ℕ} {conn : ClientConnection N} (hk : s.connections[k]? = some conn)
      (hphase : conn.phase = .top) {phase : Phase} (hnext : phase = .receiving ∨ phase = .closed) :
      Outcome clientAddrs s (.loop k) (s.setConnection k { conn with phase })
  | hangUp {k : ℕ} {conn : ClientConnection N} {chunks : List Bytes} {accepted : ℕ}
      (hk : s.connections[k]? = some conn) (hphase : conn.phase = .receiving)
      (hline : recvLine conn.buffer chunks = none) :
      Outcome clientAddrs s (.receive k chunks accepted)
        (s.setConnection k (conn.fill conn.buffer chunks).close)
  | blank {k : ℕ} {conn : ClientConnection N} {chunks : List Bytes} {rest : Bytes} {accepted : ℕ}
      (htook : s.Took k conn chunks [] rest) :
      Outcome clientAddrs s (.receive k chunks accepted)
        (s.setConnection k { conn.fill rest chunks with phase := .top })
  | spoke {a : ServiceAction N} {k : ℕ} {conn : ClientConnection N} {chunks : List Bytes}
      {line rest text : Bytes} {accepted : ℕ} (hinput : a.input = some (k, chunks))
      (htook : s.Took k conn chunks line rest) (hne : line ≠ [])
      (himm : Immediate (s.cluster.raft conn.server) (parseClientRequest line) text)
      {next : ClientConnection N}
      (hnext : parseClientRequest line ≠ some .quit ∧
          next = ((conn.fill rest chunks).note none).reply text accepted ∨
        next = (((conn.fill rest chunks).note none).reply text accepted).close) :
      Outcome clientAddrs s a (s.setConnection k next)
  | execute {k : ℕ} {conn : ClientConnection N} {chunks : List Bytes} {line rest : Bytes}
      {accepted : ℕ} (htook : s.Took k conn chunks line rest) {cmd : Command}
      (hcmd : parseClientRequest line = some (.command cmd)) {slot : ℕ × ℕ}
      (hplace : s.cluster.place conn.server cmd = some slot) {c' : Cluster N}
      (hs : s.cluster.step (.execute conn.server cmd) = some c') :
      Outcome clientAddrs s (.receive k chunks accepted)
        ⟨s.observed.observe (.execute conn.server cmd) c', s.connections.set k
          { (conn.fill rest chunks).note (some s.observed.history.length) with
            phase := .parked ⟨slot.1, slot.2, cmd⟩ }⟩
  | refused {k : ℕ} {conn : ClientConnection N} {chunks : List Bytes} {line rest : Bytes}
      {accepted : ℕ} (htook : s.Took k conn chunks line rest) {cmd : Command}
      (hcmd : parseClientRequest line = some (.command cmd))
      (hplace : s.cluster.place conn.server cmd = none) {c' : Cluster N}
      (hs : s.cluster.step (.execute conn.server cmd) = some c') :
      Outcome clientAddrs s (.receive k chunks accepted)
        ⟨s.observed.observe (.execute conn.server cmd) c', s.connections.set k
          (((conn.fill rest chunks).note (some s.observed.history.length)).reply
            ((refuse conn.server N ((s.cluster.raft conn.server).submit cmd.encode).2).text
              clientAddrs) accepted)⟩
  | answer {k h accepted : ℕ} {conn : ClientConnection N} (hk : s.connections[k]? = some conn)
      {handler : Handler} (hphase : conn.phase = .parked handler)
      (hparked : (s.cluster.processes conn.server).handlers[h]? = some handler) {c' : Cluster N}
      (hs : s.cluster.step (.resume conn.server h) = some c') :
      Outcome clientAddrs s (.answer k h accepted)
        ⟨s.observed.observe (.resume conn.server h) c', s.connections.set k
          (conn.reply ((resume (s.cluster.processes conn.server).stopping
            (s.cluster.processes conn.server).waiters handler).1.text clientAddrs) accepted)⟩
  | die {k : ℕ} {conn : ClientConnection N} {chunks : List Bytes} {line rest : Bytes} {m : ℕ}
      (htook : s.Took k conn chunks line rest) {cmd : Command}
      (hcmd : parseClientRequest line = some (.command cmd)) {c' : Cluster N}
      (hs : s.cluster.step (.crashDuring (.execute conn.server cmd) m) = some c') :
      Outcome clientAddrs s (.die k chunks m)
        ⟨s.observed.observe (.crashDuring (.execute conn.server cmd) m) c',
          ((s.setConnection k ((conn.fill rest chunks).note
            (some s.observed.history.length))).cutOff (some conn.server)).connections⟩
  | node {a : Action N} (hinner : a.Inner = true) {c' : Cluster N}
      (hs : s.cluster.step a = some c') :
      Outcome clientAddrs s (.node a)
        ⟨s.observed.observe a c', (s.cutOff (s.cluster.restarted a)).connections⟩

theorem perform_eq_some {o o' : Observed N} {a : Action N} (ho : o.perform a = some o') :
    ∃ c', o.cluster.step a = some c' ∧ o' = o.observe a c' := by
  obtain ⟨c', hs, heq⟩ := Option.map_eq_some_iff.mp ho
  exact ⟨c', hs, heq.symm⟩

theorem recvFrom_eq_some {conn' : ClientConnection N} {line? : Option Bytes}
    (hrecv : s.recvFrom k chunks = some (conn', line?)) :
    ∃ conn, (s.connections[k]? = some conn ∧ conn.phase = .receiving ∧
        recvLine conn.buffer chunks = none ∧ line? = none ∧
        conn' = conn.fill conn.buffer chunks) ∨
      ∃ line rest, s.Took k conn chunks line rest ∧ line? = some line ∧
        conn' = conn.fill rest chunks := by
  obtain ⟨conn, hk, hrecv⟩ := Option.bind_eq_some_iff.mp hrecv
  refine ⟨conn, ?_⟩
  split_ifs at hrecv with hphase
  split at hrecv
  · rename_i hline
    obtain ⟨rfl, rfl⟩ := Prod.ext_iff.mp (Option.some.inj hrecv)
    exact Or.inl ⟨hk, hphase, hline, rfl, rfl⟩
  · rename_i line rest hline
    obtain ⟨rfl, rfl⟩ := Prod.ext_iff.mp (Option.some.inj hrecv)
    exact Or.inr ⟨line, rest, ⟨hk, hphase, hline⟩, rfl, rfl⟩
  · simp at hrecv

theorem outcome_executeCommand (htook : s.Took k conn chunks line rest) {cmd : Command}
    (hcmd : parseClientRequest line = some (.command cmd)) {accepted : ℕ}
    (hs : s.executeCommand clientAddrs k (conn.fill rest chunks) cmd accepted = some s') :
    Outcome clientAddrs s (.receive k chunks accepted) s' := by
  unfold executeCommand at hs
  dsimp only at hs
  obtain ⟨o, ho, rfl⟩ := Option.map_eq_some_iff.mp hs
  obtain ⟨c', hc, rfl⟩ := perform_eq_some ho
  by_cases hleader : ((s.cluster.raft conn.server).submit cmd.encode).2.isLeader = true
  · have hplace : s.cluster.place conn.server cmd = some
        (((s.cluster.raft conn.server).submit cmd.encode).2.index,
          ((s.cluster.raft conn.server).submit cmd.encode).2.term) := if_pos hleader
    have hout : Outcome clientAddrs s (.receive k chunks accepted) _ :=
      .execute htook hcmd hplace hc
    simpa [ClientConnection.fill, hleader] using hout
  · have hplace : s.cluster.place conn.server cmd = none := if_neg hleader
    have hout : Outcome clientAddrs s (.receive k chunks accepted) _ :=
      .refused htook hcmd hplace hc
    simpa [ClientConnection.fill, hleader] using hout

theorem outcome_handleLine (htook : s.Took k conn chunks line rest) {accepted : ℕ}
    (hs : s.handleLine clientAddrs k (conn.fill rest chunks) line accepted = some s') :
    Outcome clientAddrs s (.receive k chunks accepted) s' := by
  unfold handleLine at hs
  split_ifs at hs with hempty
  · obtain rfl := Option.some.inj hs
    obtain rfl := List.isEmpty_iff.mp hempty
    exact .blank htook
  · have hne : line ≠ [] := fun hnil ↦ hempty (by simp [hnil])
    split at hs
    · rename_i hparse
      obtain rfl := Option.some.inj hs
      exact .spoke rfl htook hne (hparse ▸ .unknown) (Or.inl ⟨by simp [hparse], rfl⟩)
    · rename_i hparse
      obtain rfl := Option.some.inj hs
      exact .spoke rfl htook hne (hparse ▸ .quit) (Or.inr rfl)
    · rename_i hparse
      obtain rfl := Option.some.inj hs
      exact .spoke rfl htook hne (hparse ▸ .ping) (Or.inl ⟨by simp [hparse], rfl⟩)
    · simp at hs
    · rename_i cmd hparse
      exact outcome_executeCommand htook hparse hs

theorem ne_nil_of_parse {request : ClientRequest}
    (hparse : parseClientRequest line = some request) : line ≠ [] := by
  rintro rfl
  have hnone : parseClientRequest [] = none := by decide
  simp [hnone] at hparse

theorem commandOf_eq_some {cmd : Command} (hcmd : commandOf line = some cmd) :
    parseClientRequest line = some (.command cmd) := by
  unfold commandOf at hcmd
  split at hcmd
  · rename_i other hparse
    rw [hparse, Option.some.inj hcmd]
  · simp at hcmd

theorem outcome {a : ServiceAction N} (hs : s.step clientAddrs a = some s') :
    Outcome clientAddrs s a s' := by
  cases a with
  | accept i =>
      rw [step] at hs
      split_ifs at hs
      obtain rfl := Option.some.inj hs
      exact .accept i
  | loop k =>
      obtain ⟨conn, hk, hs⟩ := Option.bind_eq_some_iff.mp hs
      split_ifs at hs with hphase
      obtain rfl := Option.some.inj hs
      refine .loop hk hphase ?_
      split_ifs
      · exact Or.inr rfl
      · exact Or.inl rfl
  | receive k chunks accepted =>
      obtain ⟨⟨conn', line?⟩, hrecv, hs⟩ := Option.bind_eq_some_iff.mp hs
      obtain ⟨conn, ⟨hk, hphase, hline, rfl, rfl⟩ | ⟨line, rest, htook, rfl, rfl⟩⟩ :=
        recvFrom_eq_some hrecv
      · obtain rfl := Option.some.inj hs
        exact .hangUp hk hphase hline
      · exact outcome_handleLine htook hs
  | status k chunks keys accepted =>
      obtain ⟨⟨conn', line?⟩, hrecv, hthen⟩ := Option.bind_eq_some_iff.mp hs
      obtain ⟨line, hline, hreply⟩ := Option.bind_eq_some_iff.mp hthen
      dsimp only at hline hreply
      obtain ⟨conn, ⟨-, -, -, rfl, -⟩ | ⟨line', rest, htook, rfl, rfl⟩⟩ := recvFrom_eq_some hrecv
      · simp at hline
      · obtain rfl := Option.some.inj hline
        split_ifs at hreply with hparse
        obtain rfl := Option.some.inj hreply
        exact .spoke rfl htook (ne_nil_of_parse hparse) (hparse ▸ .status keys)
          (Or.inl ⟨by simp [hparse], rfl⟩)
  | answer k h accepted =>
      obtain ⟨conn, hk, hs⟩ := Option.bind_eq_some_iff.mp hs
      dsimp only at hs
      split at hs
      · rename_i handler hphase
        split_ifs at hs with hparked
        obtain ⟨o, ho, rfl⟩ := Option.map_eq_some_iff.mp hs
        obtain ⟨c', hc, rfl⟩ := perform_eq_some ho
        exact .answer hk hphase hparked hc
      · simp at hs
  | die k chunks m =>
      obtain ⟨⟨conn', line?⟩, hrecv, hthen⟩ := Option.bind_eq_some_iff.mp hs
      obtain ⟨line, hline, hdies⟩ := Option.bind_eq_some_iff.mp hthen
      obtain ⟨cmd, hcmd, hlast⟩ := Option.bind_eq_some_iff.mp hdies
      dsimp only at hline hlast
      obtain ⟨conn, ⟨-, -, -, rfl, -⟩ | ⟨line', rest, htook, rfl, rfl⟩⟩ := recvFrom_eq_some hrecv
      · simp at hline
      · obtain rfl := Option.some.inj hline
        obtain ⟨o, ho, rfl⟩ := Option.map_eq_some_iff.mp hlast
        obtain ⟨c', hc, rfl⟩ := perform_eq_some ho
        exact .die htook (commandOf_eq_some hcmd) hc
  | node a =>
      rw [step] at hs
      split_ifs at hs with hinner
      obtain ⟨o, ho, rfl⟩ := Option.map_eq_some_iff.mp hs
      obtain ⟨c', hc, rfl⟩ := perform_eq_some ho
      exact .node hinner hc

end Service

/-! ## The run of the nodes -/

/-- The command can stand in a line. -/
def Command.Textual (cmd : Command) : Prop := cmd.Ranged ∧ newline ∉ cmd.value

/-- Commands come from lines only. -/
def Action.Typed : Action N → Prop
  | .submit _ _ => False
  | .execute _ cmd => cmd.Textual
  | .crashDuring a _ => a.Typed
  | _ => True

theorem Action.Typed.served : ∀ {a : Action N}, a.Typed → a.Served
  | .execute _ _, htyped => htyped.1
  | .crashDuring a _, htyped => Action.Typed.served (a := a) htyped
  | .submit _ _, htyped => htyped
  | .timeout _, _ | .resume _ _, _ | .send _ _, _ | .deliverVote _, _ | .deliverAppend _, _
  | .voteReply _ _ _, _ | .voteFailed _ _, _ | .appendReply _ _ _, _ | .appendFailed _ _, _
  | .fetch _, _ | .apply _, _ | .stopServer _, _ | .stopRaft _, _ | .crash _, _ => trivial

theorem Action.typed_of_inner : ∀ {a : Action N}, a.Inner = true → a.Typed
  | .execute _ _, hinner | .submit _ _, hinner => by simp [Action.Inner] at hinner
  | .crashDuring a _, hinner => Action.typed_of_inner (a := a) hinner
  | .timeout _, _ | .resume _ _, _ | .send _ _, _ | .deliverVote _, _ | .deliverAppend _, _
  | .voteReply _ _ _, _ | .voteFailed _ _, _ | .appendReply _ _ _, _ | .appendFailed _ _, _
  | .fetch _, _ | .apply _, _ | .stopServer _, _ | .stopRaft _, _ | .crash _, _ => trivial

/-- A line is cut off at the first newline. -/
theorem recvLine_cuts {buffer line rest : Bytes} {chunks chunks' : List Bytes}
    (hline : recvLine buffer chunks = some (line, rest, chunks')) :
    ∃ raw, newline ∉ raw ∧ line = chomp raw ∧
      buffer ++ chunks.flatten = sendLine raw ++ (rest ++ chunks'.flatten) := by
  fun_induction recvLine buffer chunks with
  | case1 buffer nl chunks hnl =>
      obtain ⟨rfl, rfl, rfl⟩ : chomp (buffer.take nl) = line ∧ buffer.drop (nl + 1) = rest ∧
        chunks = chunks' := by simpa using hline
      obtain ⟨hlt, hget, hfirst⟩ := List.findIdx?_eq_some_iff_getElem.mp hnl
      have hcut : buffer = sendLine (buffer.take nl) ++ buffer.drop (nl + 1) := by
        have hnewline : buffer[nl] = newline := by simpa using hget
        rw [sendLine, List.append_assoc, List.singleton_append, ← hnewline,
          List.cons_getElem_drop_succ, List.take_append_drop]
      refine ⟨buffer.take nl, fun hmem ↦ ?_, rfl, ?_⟩
      · obtain ⟨j, hj, hget⟩ := List.mem_take_iff_getElem.mp hmem
        exact hfirst j (by omega) (by simpa using hget)
      · rw [← List.append_assoc, ← hcut]
  | case2 => simp at hline
  | case3 => simp at hline
  | case4 buffer hnone chunk chunks hroom ih =>
      obtain ⟨raw, hraw, heq, hsplit⟩ := ih hline
      refine ⟨raw, hraw, heq, ?_⟩
      rw [List.flatten_cons, ← List.append_assoc, hsplit]

theorem Grammar.value_subset {line : Bytes} {cmd : Command} (h : Grammar line (.command cmd)) :
    cmd.value ⊆ line := by
  cases h with
  | @set _ _ _ _ tail _ _ _ _ _ _ =>
      have hvalue : valueOf tail ⊆ tail := by
        rw [← valueOf_eq]
        split_ifs
        · exact tail.tail_subset
        · exact List.Subset.refl _
      intro b hb
      simp [hvalue hb]
  | get _ _ _ _ _ _ => exact List.nil_subset _
  | del _ _ _ _ _ _ => exact List.nil_subset _

namespace Service

variable {ok : Cluster N → Action N → Prop} {clientAddrs : List String} {s s' : Service N}
  {k : ℕ} {conn : ClientConnection N} {chunks : List Bytes} {line rest : Bytes}
  {a : ServiceAction N}

/-- The buffers are within the limit of `recvLine`. -/
def Bounded (s : Service N) : Prop :=
  ∀ conn ∈ s.connections, conn.buffer.length ≤ kMaxFrameBytes

theorem Took.textual (htook : s.Took k conn chunks line rest) (hbounded : s.Bounded)
    {cmd : Command} (hcmd : parseClientRequest line = some (.command cmd)) : cmd.Textual := by
  have hlength := (recvLine_length (hbounded conn (List.mem_of_getElem? htook.mem))
    htook.line).1
  obtain ⟨raw, hraw, rfl, -⟩ := recvLine_cuts htook.line
  have hgrammar := grammar_of_parse hcmd
  have hle := hgrammar.length_le
  have hlimit : kMaxFrameBytes < 2 ^ 32 := by decide
  exact ⟨⟨by omega, by omega⟩, fun hmem ↦ hraw (chomp_subset raw (hgrammar.value_subset hmem))⟩

theorem forall_mem_set {P : ClientConnection N → Prop} (hall : ∀ conn ∈ s.connections, P conn)
    {next : ClientConnection N} (hnext : P next) : ∀ conn ∈ s.connections.set k next, P conn := by
  intro conn hmem
  rcases List.mem_or_eq_of_mem_set hmem with hmem | rfl
  · exact hall conn hmem
  · exact hnext

theorem forall_mem_cutOff {P : ClientConnection N → Prop} (hall : ∀ conn ∈ s.connections, P conn)
    (hclose : ∀ conn, P conn → P conn.close) (restarted : Option (Fin N)) :
    ∀ conn ∈ (s.cutOff restarted).connections, P conn := by
  intro conn hmem
  obtain ⟨old, hold, rfl⟩ := List.mem_map.mp hmem
  split_ifs
  · exact hclose old (hall old hold)
  · exact hall old hold

theorem Bounded.step (hbounded : s.Bounded) (hs : s.step clientAddrs a = some s') :
    s'.Bounded := by
  have hrest : ∀ {k conn chunks line rest}, s.Took k conn chunks line rest →
      rest.length ≤ kMaxFrameBytes := fun {_ conn _ _ _} htook ↦
    (recvLine_length (hbounded conn (List.mem_of_getElem? htook.mem)) htook.line).2
  have hold : ∀ {k : ℕ} {conn : ClientConnection N}, s.connections[k]? = some conn →
      conn.buffer.length ≤ kMaxFrameBytes := fun hk ↦ hbounded _ (List.mem_of_getElem? hk)
  cases outcome hs with
  | accept i =>
      intro conn hmem
      rcases List.mem_append.mp hmem with hmem | hmem
      · exact hbounded conn hmem
      · obtain rfl := List.mem_singleton.mp hmem
        exact Nat.zero_le _
  | @loop k conn hk _ _ _ =>
      exact forall_mem_set hbounded (show conn.buffer.length ≤ _ from hold hk)
  | @hangUp k conn _ _ hk _ _ =>
      exact forall_mem_set hbounded (show conn.buffer.length ≤ _ from hold hk)
  | blank htook => exact forall_mem_set hbounded (hrest htook)
  | spoke _ htook _ _ hnext =>
      rcases hnext with ⟨-, rfl⟩ | rfl
      · exact forall_mem_set hbounded (hrest htook)
      · exact forall_mem_set hbounded (hrest htook)
  | execute htook _ _ _ => exact forall_mem_set hbounded (hrest htook)
  | refused htook _ _ _ => exact forall_mem_set hbounded (hrest htook)
  | @answer k _ _ conn hk _ _ _ _ _ =>
      exact forall_mem_set hbounded (show conn.buffer.length ≤ _ from hold hk)
  | die htook _ _ =>
      exact forall_mem_cutOff (forall_mem_set hbounded (hrest htook)) (fun _ h ↦ h) _
  | node _ _ => exact forall_mem_cutOff hbounded (fun _ h ↦ h) _

/-- A step leaves the nodes alone or is one of their steps, and then what the clients see is
recorded. -/
theorem observed_step (hbounded : s.Bounded) (hok : s.Admits ok a)
    (hs : s.step clientAddrs a = some s') :
    s'.observed = s.observed ∨ ∃ b, s.cluster.step b = some s'.cluster ∧
      s'.observed = s.observed.observe b s'.cluster ∧ (b.Inner = true → ok s.cluster b) ∧
      b.Typed := by
  cases outcome hs with
  | execute htook hcmd _ hc =>
      exact Or.inr ⟨_, hc, rfl, by simp [Action.Inner], htook.textual hbounded hcmd⟩
  | refused htook hcmd _ hc =>
      exact Or.inr ⟨_, hc, rfl, by simp [Action.Inner], htook.textual hbounded hcmd⟩
  | answer _ _ _ hc => exact Or.inr ⟨_, hc, rfl, by simp [Action.Inner], trivial⟩
  | die htook hcmd hc =>
      exact Or.inr ⟨_, hc, rfl, by simp [Action.Inner], htook.textual hbounded hcmd⟩
  | node hinner hc => exact Or.inr ⟨_, hc, rfl, fun _ ↦ hok, Action.typed_of_inner hinner⟩
  | _ => exact Or.inl rfl

end Service

namespace ServiceRun

variable {ok : Cluster N → Action N → Prop} {clientAddrs : List String} {s : Service N}

theorem bounded (hrun : ServiceRun ok clientAddrs s) : s.Bounded := by
  induction hrun with
  | initial _ _ => simp [Service.Bounded, Service.initial]
  | step _ _ hs _ ih => exact ih.step hs

theorem run (hrun : ServiceRun ok clientAddrs s) :
    Run (fun c b ↦ (b.Inner = true → ok c b) ∧ b.Typed) s.cluster := by
  induction hrun with
  | initial hpos hsize => exact .initial hpos hsize
  | @step s s' a hrun hok hs hb ih =>
      rcases Service.observed_step hrun.bounded hok hs with hsame | ⟨b, hc, -, hinner, htyped⟩
      · rwa [Service.cluster, hsame]
      · exact .step ih ⟨hinner, htyped⟩ hc hb

theorem vouched_of_inner {c : Cluster N} {b : Action N} (hinner : b.Inner = true → Vouched c b) :
    Vouched c b := by
  cases b with
  | deliverAppend k => exact hinner rfl
  | _ => simp [Vouched, Cluster.delivered]

theorem observedRun (hrun : ServiceRun Vouched clientAddrs s) : ObservedRun s.observed := by
  induction hrun with
  | initial hpos hsize => exact .initial hpos hsize
  | @step s s' a hrun hok hs hb ih =>
      rcases Service.observed_step hrun.bounded hok hs with hsame | ⟨b, hc, heq, hinner, htyped⟩
      · rwa [hsame]
      · rw [heq]
        exact .step ih (vouched_of_inner hinner) htyped.served hc hb

end ServiceRun

namespace Service

/-- No request overtakes its receiver. The keys of a store are not counted. -/
def replayable (s : Service N) : ServiceAction N → Bool
  | .node b => Vouched s.cluster b
  | .status _ _ _ _ => false
  | _ => true

/-- Perform a list of actions as long as they are enabled. -/
def play (clientAddrs : List String) (s : Service N) : List (ServiceAction N) → Option (Service N)
  | [] => some s
  | a :: actions =>
      if s.replayable a then
        match s.step clientAddrs a with
        | some s' => if s'.cluster.TermsBounded then s'.play clientAddrs actions else none
        | none => none
      else none

end Service

theorem ServiceRun.play {clientAddrs : List String} {s s' : Service N}
    (hrun : ServiceRun Vouched clientAddrs s) {actions : List (ServiceAction N)}
    (hplay : s.play clientAddrs actions = some s') : ServiceRun Vouched clientAddrs s' := by
  induction actions generalizing s with
  | nil =>
      obtain rfl : s = s' := by simpa [Service.play] using hplay
      exact hrun
  | cons a actions ih =>
      rw [Service.play] at hplay
      split_ifs at hplay with hadmitted
      have hok : s.Admits Vouched a := by
        cases a with
        | node b => simpa [Service.replayable, Service.Admits] using hadmitted
        | status k chunks keys accepted => simp [Service.replayable] at hadmitted
        | _ => trivial
      split at hplay
      · rename_i next hs
        split_ifs at hplay with hb
        exact ih (.step hrun hok hs hb) hplay
      · simp at hplay

theorem exists_service_of_play (hpos : 0 < N) (hsize : N < 2 ^ 32) (clientAddrs : List String)
    (actions : List (ServiceAction N)) {P : Service N → Prop} [DecidablePred P]
    (hplay : ((Service.initial N).play clientAddrs actions).any (fun s ↦ P s) = true) :
    ∃ s, ServiceRun Vouched clientAddrs s ∧ P s := by
  cases hs : (Service.initial N).play clientAddrs actions with
  | none => simp [hs] at hplay
  | some s => exact ⟨s, (ServiceRun.initial hpos hsize).play hs, by simpa [hs] using hplay⟩

end Dkvs
