import Dkvs.Server

/-!
# A cluster and its runs

A cluster consists of `N` processes and of the requests and replies in flight.
An action is one scheduling decision: a timer fires, a thread runs one critical
section, a message arrives, a process crashes between two operations or in the
middle of one. A crash keeps exactly what the storage calls made so far left on
disk, and the process restarts from there. Everything observable is appended to
the trace.
-/

namespace Dkvs

/-- The durable content of one node's storage directory. -/
structure DurableState where
  currentTerm : ℕ
  votedFor : ℤ
  entries : List LogEntry
  deriving DecidableEq, Repr

namespace DurableState

def empty : DurableState := ⟨0, -1, []⟩

def perform (d : DurableState) : Effect → DurableState
  | .saveMeta currentTerm votedFor => { d with currentTerm, votedFor }
  | .append entry => { d with entries := d.entries ++ [entry] }
  | .truncateFrom fromIndex =>
      if fromIndex < 1 ∨ d.entries.length < fromIndex then d
      else { d with entries := d.entries.take (fromIndex - 1) }
  | .becomeLeader _ _ | .advanceCommit _ _ _ | .voteSender _ _ | .replicator _ _
  | .notify _ => d

def performAll (d : DurableState) (effects : List Effect) : DurableState :=
  effects.foldl perform d

end DurableState

/-- A `RequestVote` call of one vote sender. -/
structure VoteCall (N : ℕ) where
  src : Fin N
  dst : Fin N
  args : RequestVoteArgs
  deriving DecidableEq, Repr

/-- An `AppendEntries` call of one replicator. -/
structure AppendCall (N : ℕ) where
  call : ℕ
  src : Fin N
  dst : Fin N
  args : AppendEntriesArgs
  deriving DecidableEq, Repr

structure Replicator (N : ℕ) where
  peer : Fin N
  leaderTerm : ℕ
  waiting : Option (AppendCall N)
  deriving DecidableEq, Repr

structure Process (N : ℕ) where
  raft : RaftNode
  storage : DurableState
  /-- The entry the applier has copied out and not yet handed over. -/
  applying : Option (ℕ × LogEntry)
  store : KVStore
  waiters : Waiters
  handlers : List Handler
  voteSenders : List (VoteCall N)
  replicators : List (Replicator N)
  stopping : Bool

/-- A process that has just loaded its storage. -/
def Process.boot {N : ℕ} (i : Fin N) (storage : DurableState) : Process N where
  raft := RaftNode.recover i N storage.currentTerm storage.votedFor storage.entries
  storage := storage
  applying := none
  store := KVStore.empty
  waiters := fun _ ↦ none
  handlers := []
  voteSenders := []
  replicators := []
  stopping := false

inductive Event (N : ℕ) where
  | becomeLeader (node : Fin N) (term : ℕ) (log : List LogEntry)
  | advanceCommit (node : Fin N) (term index : ℕ) (log : List LogEntry)
  | submitted (node : Fin N) (index term : ℕ) (command : Bytes)
  | applied (node : Fin N) (index term : ℕ) (command : Bytes)
  | answered (node : Fin N) (handler : Handler) (response : Response)
  | refused (node : Fin N) (cmd : Command) (response : Response)
  deriving DecidableEq, Repr

structure Cluster (N : ℕ) where
  processes : Fin N → Process N
  voteRequests : List (VoteCall N)
  voteReplies : List (VoteCall N × RequestVoteReply)
  appendRequests : List (AppendCall N)
  appendReplies : List (AppendCall N × AppendEntriesReply)
  nextCall : ℕ
  trace : List (Event N)

inductive Action (N : ℕ) where
  /-- The ticker finds the election deadline passed. -/
  | timeout (i : Fin N)
  | submit (i : Fin N) (command : Bytes)
  /-- A client handler runs `executeCommand` up to its wait. -/
  | execute (i : Fin N) (cmd : Command)
  /-- The `k`-th parked handler returns from its wait. -/
  | resume (i : Fin N) (k : ℕ)
  /-- The `k`-th replicator builds and sends a request. -/
  | send (i : Fin N) (k : ℕ)
  | deliverVote (k : ℕ)
  | deliverAppend (k : ℕ)
  /-- The `k`-th vote sender receives the `j`-th reply in flight. -/
  | voteReply (i : Fin N) (k j : ℕ)
  | voteFailed (i : Fin N) (k : ℕ)
  /-- The `k`-th replicator receives the `j`-th reply in flight. -/
  | appendReply (i : Fin N) (k j : ℕ)
  | appendFailed (i : Fin N) (k : ℕ)
  /-- The applier copies the next committed entry out of the log. -/
  | fetch (i : Fin N)
  /-- The applier hands the copied entry to the state machine. -/
  | apply (i : Fin N)
  | stopServer (i : Fin N)
  | stopRaft (i : Fin N)
  | crash (i : Fin N)
  /-- The operation is cut off after `m` of its effects. -/
  | crashDuring (a : Action N) (m : ℕ)

namespace Cluster

variable {N : ℕ}

def initial (N : ℕ) : Cluster N where
  processes i := Process.boot i DurableState.empty
  voteRequests := []
  voteReplies := []
  appendRequests := []
  appendReplies := []
  nextCall := 0
  trace := []

abbrev raft (c : Cluster N) (i : Fin N) : RaftNode := (c.processes i).raft

def setProcess (c : Cluster N) (i : Fin N) (p : Process N) : Cluster N :=
  { c with processes := Function.update c.processes i p }

@[simp] theorem setProcess_self (c : Cluster N) (i : Fin N) (p : Process N) :
    (c.setProcess i p).processes i = p := by
  simp [setProcess]

@[simp] theorem setProcess_of_ne (c : Cluster N) {i j : Fin N} (h : j ≠ i) (p : Process N) :
    (c.setProcess i p).processes j = c.processes j := by
  simp [setProcess, h]

def record (c : Cluster N) (events : List (Event N)) : Cluster N :=
  { c with trace := c.trace ++ events }

@[simp] theorem record_nil (c : Cluster N) : c.record [] = c := by
  cases c
  simp [record]

def eventOf (i : Fin N) : Effect → Option (Event N)
  | .becomeLeader term log => some (.becomeLeader i term log)
  | .advanceCommit term index log => some (.advanceCommit i term index log)
  | _ => none

def voteCallOf (i : Fin N) : Effect → Option (VoteCall N)
  | .voteSender peer args => if h : peer < N then some ⟨i, ⟨peer, h⟩, args⟩ else none
  | _ => none

def replicatorOf : Effect → Option (Replicator N)
  | .replicator peer leaderTerm =>
      if h : peer < N then some ⟨⟨peer, h⟩, leaderTerm, none⟩ else none
  | _ => none

/-- Complete an operation that left node `i` in the state `n`. A vote sender
puts its request on the wire as soon as it is started. -/
def settle (c : Cluster N) (i : Fin N) (n : RaftNode) : Cluster N :=
  let p := c.processes i
  let calls := n.effects.filterMap (voteCallOf i)
  let c := c.setProcess i { p with
    raft := { n with effects := [] }
    storage := p.storage.performAll n.effects
    voteSenders := p.voteSenders ++ calls
    replicators := p.replicators ++ n.effects.filterMap replicatorOf }
  { c with voteRequests := c.voteRequests ++ calls }.record (n.effects.filterMap (eventOf i))

theorem settle_self (c : Cluster N) (i : Fin N) (n : RaftNode) :
    (c.settle i n).processes i = { c.processes i with
      raft := { n with effects := [] }
      storage := (c.processes i).storage.performAll n.effects
      voteSenders := (c.processes i).voteSenders ++ n.effects.filterMap (voteCallOf i)
      replicators := (c.processes i).replicators ++ n.effects.filterMap replicatorOf } := by
  simp [settle, record]

theorem settle_of_ne (c : Cluster N) {i j : Fin N} (h : j ≠ i) (n : RaftNode) :
    (c.settle i n).processes j = c.processes j := by
  simp [settle, record, h]

@[simp] theorem settle_trace (c : Cluster N) (i : Fin N) (n : RaftNode) :
    (c.settle i n).trace = c.trace ++ n.effects.filterMap (eventOf i) := rfl

/-- Node `i` loses its volatile state after the given effects and restarts. -/
def restart (c : Cluster N) (i : Fin N) (effects : List Effect) : Cluster N :=
  (c.setProcess i (Process.boot i ((c.processes i).storage.performAll effects))).record
    (effects.filterMap (eventOf i))

def updateProcess (c : Cluster N) (i : Fin N) (f : Process N → Process N) : Cluster N :=
  c.setProcess i (f (c.processes i))

/-- The reply in flight that answers the vote sender's own call. -/
def voteReplyTo (c : Cluster N) (q : VoteCall N) (j : ℕ) : Option RequestVoteReply :=
  match c.voteReplies[j]? with
  | some (q', reply) => if q' = q then some reply else none
  | none => none

def appendReplyTo (c : Cluster N) (q : AppendCall N) (j : ℕ) : Option AppendEntriesReply :=
  match c.appendReplies[j]? with
  | some (q', reply) => if q' = q then some reply else none
  | none => none

/-- The critical section an action runs: the node and its state at the end. -/
def operation (c : Cluster N) : Action N → Option (Fin N × RaftNode)
  | .timeout i =>
      if (c.raft i).stopping ∨ (c.raft i).role = .leader then none
      else some (i, (c.raft i).startElection)
  | .submit i command => some (i, ((c.raft i).submit command).1)
  | .execute i cmd => some (i, ((c.raft i).submit cmd.encode).1)
  | .deliverVote k => do
      let q ← c.voteRequests[k]?
      some (q.dst, ((c.raft q.dst).onRequestVote q.args).1)
  | .deliverAppend k => do
      let q ← c.appendRequests[k]?
      some (q.dst, ((c.raft q.dst).onAppendEntries q.args).1)
  | .voteReply i k j => do
      let q ← (c.processes i).voteSenders[k]?
      let reply ← c.voteReplyTo q j
      some (i, (c.raft i).onVoteReply q.args reply)
  | .appendReply i k j => do
      let r ← (c.processes i).replicators[k]?
      let q ← r.waiting
      let reply ← c.appendReplyTo q j
      some (i, ((c.raft i).onAppendReply r.peer r.leaderTerm q.args reply).1)
  | _ => none

/-- Take the request an action delivers off the wire. -/
def consume (c : Cluster N) : Action N → Cluster N
  | .deliverVote k => { c with voteRequests := c.voteRequests.eraseIdx k }
  | .deliverAppend k => { c with appendRequests := c.appendRequests.eraseIdx k }
  | _ => c

def setReplicator (c : Cluster N) (i : Fin N) (k : ℕ) (r : Replicator N) : Cluster N :=
  c.updateProcess i fun p ↦ { p with replicators := p.replicators.set k r }

def dropReplicator (c : Cluster N) (i : Fin N) (k : ℕ) : Cluster N :=
  c.updateProcess i fun p ↦ { p with replicators := p.replicators.eraseIdx k }

def dropVoteSender (c : Cluster N) (i : Fin N) (k : ℕ) : Cluster N :=
  c.updateProcess i fun p ↦ { p with voteSenders := p.voteSenders.eraseIdx k }

def submitStep (c : Cluster N) (i : Fin N) (command : Bytes) : Cluster N :=
  let result := ((c.raft i).submit command).2
  let c := c.settle i ((c.raft i).submit command).1
  if result.isLeader then c.record [.submitted i result.index result.term command] else c

/-- `submit` and the registration of the waiter happen under the wait mutex, so
no entry is applied in between. -/
def executeStep (c : Cluster N) (i : Fin N) (cmd : Command) : Cluster N :=
  let result := ((c.raft i).submit cmd.encode).2
  let c := c.submitStep i cmd.encode
  if result.isLeader then
    c.updateProcess i fun p ↦ { p with
      waiters := emplaceWaiter p.waiters result.index
      handlers := p.handlers ++ [⟨result.index, result.term, cmd⟩] }
  else c.record [.refused i cmd (refuse i N result)]

def resumeStep (c : Cluster N) (i : Fin N) (k : ℕ) (h : Handler) : Cluster N :=
  let p := c.processes i
  let answer := resume p.stopping p.waiters h
  (c.setProcess i { p with
    waiters := answer.2, handlers := p.handlers.eraseIdx k }).record [.answered i h answer.1]

def sendStep (c : Cluster N) (i : Fin N) (k : ℕ) (r : Replicator N) : Option (Cluster N) :=
  if (c.raft i).replicatorRetired r.leaderTerm then some (c.dropReplicator i k)
  else do
    let args ← (c.raft i).buildAppendEntries r.peer r.leaderTerm
    let q : AppendCall N := ⟨c.nextCall, i, r.peer, args⟩
    let c := c.setReplicator i k { r with waiting := some q }
    some { c with appendRequests := c.appendRequests ++ [q], nextCall := c.nextCall + 1 }

def deliverVoteStep (c : Cluster N) (k : ℕ) (q : VoteCall N) : Cluster N :=
  let answer := (c.raft q.dst).onRequestVote q.args
  let c := (c.settle q.dst answer.1).consume (.deliverVote k)
  { c with voteReplies := c.voteReplies ++ [(q, answer.2)] }

def deliverAppendStep (c : Cluster N) (k : ℕ) (q : AppendCall N) : Cluster N :=
  let answer := (c.raft q.dst).onAppendEntries q.args
  let c := (c.settle q.dst answer.1).consume (.deliverAppend k)
  { c with appendReplies := c.appendReplies ++ [(q, answer.2)] }

def voteReplyStep (c : Cluster N) (i : Fin N) (k j : ℕ) (q : VoteCall N)
    (reply : RequestVoteReply) : Cluster N :=
  let n := (c.raft i).onVoteReply q.args reply
  let c := (c.dropVoteSender i k).settle i n
  { c with voteReplies := c.voteReplies.eraseIdx j }

def appendReplyStep (c : Cluster N) (i : Fin N) (k j : ℕ) (r : Replicator N)
    (q : AppendCall N) (reply : AppendEntriesReply) : Cluster N :=
  let outcome := (c.raft i).onAppendReply r.peer r.leaderTerm q.args reply
  let c := if outcome.2 then c.setReplicator i k { r with waiting := none }
    else c.dropReplicator i k
  let c := c.settle i outcome.1
  { c with appendReplies := c.appendReplies.eraseIdx j }

/-- A call that fails is handled like a reply that changes nothing. -/
def appendFailedStep (c : Cluster N) (i : Fin N) (k : ℕ) (r : Replicator N) : Cluster N :=
  if (c.raft i).replicatorRetired r.leaderTerm then c.dropReplicator i k
  else c.setReplicator i k { r with waiting := none }

def fetchStep (c : Cluster N) (i : Fin N) : Option (Cluster N) :=
  let p := c.processes i
  if p.applying.isSome ∨ p.raft.commitIndex ≤ p.raft.lastApplied then none
  else do
    let idx := p.raft.lastApplied + 1
    let entry ← p.raft.log[idx]?
    some (c.setProcess i { p with applying := some (idx, entry) })

def applyStep (c : Cluster N) (i : Fin N) (idx : ℕ) (entry : LogEntry) : Cluster N :=
  let p := c.processes i
  let outcome := onApply p.store p.waiters idx entry.term entry.command
  (c.setProcess i { p with
    applying := none
    store := outcome.1
    waiters := outcome.2
    raft := { p.raft with lastApplied := idx } }).record
    [.applied i idx entry.term entry.command]

/-- One action, if it is enabled. -/
def step (c : Cluster N) : Action N → Option (Cluster N)
  | .timeout i => (c.operation (.timeout i)).map fun (i, n) ↦ c.settle i n
  | .submit i command => some (c.submitStep i command)
  | .execute i cmd => some (c.executeStep i cmd)
  | .resume i k => ((c.processes i).handlers[k]?).map (c.resumeStep i k)
  | .send i k => do
      let r ← (c.processes i).replicators[k]?
      if r.waiting.isSome then none else c.sendStep i k r
  | .deliverVote k => (c.voteRequests[k]?).map (c.deliverVoteStep k)
  | .deliverAppend k => (c.appendRequests[k]?).map (c.deliverAppendStep k)
  | .voteReply i k j => do
      let q ← (c.processes i).voteSenders[k]?
      let reply ← c.voteReplyTo q j
      some (c.voteReplyStep i k j q reply)
  | .voteFailed i k => do
      let _ ← (c.processes i).voteSenders[k]?
      some (c.dropVoteSender i k)
  | .appendReply i k j => do
      let r ← (c.processes i).replicators[k]?
      let q ← r.waiting
      let reply ← c.appendReplyTo q j
      some (c.appendReplyStep i k j r q reply)
  | .appendFailed i k => do
      let r ← (c.processes i).replicators[k]?
      if r.waiting.isSome then some (c.appendFailedStep i k r) else none
  | .fetch i => c.fetchStep i
  | .apply i => ((c.processes i).applying).map fun (idx, entry) ↦ c.applyStep i idx entry
  | .stopServer i => some (c.updateProcess i fun p ↦ { p with stopping := true })
  | .stopRaft i =>
      some (c.updateProcess i fun p ↦ { p with raft := { p.raft with stopping := true } })
  | .crash i => some (c.restart i [])
  | .crashDuring a m =>
      (c.operation a).map fun (i, n) ↦ (c.restart i (n.effects.take m)).consume a

/-- The enabled actions and what they do. -/
inductive Outcome (c : Cluster N) : Action N → Cluster N → Prop
  | timeout (i : Fin N) : Outcome c (.timeout i) (c.settle i (c.raft i).startElection)
  | submit (i : Fin N) (command : Bytes) :
      Outcome c (.submit i command) (c.submitStep i command)
  | execute (i : Fin N) (cmd : Command) : Outcome c (.execute i cmd) (c.executeStep i cmd)
  | resume {i : Fin N} {k : ℕ} {handler : Handler}
      (hmem : (c.processes i).handlers[k]? = some handler) :
      Outcome c (.resume i k) (c.resumeStep i k handler)
  | retire (i : Fin N) (k : ℕ) : Outcome c (.send i k) (c.dropReplicator i k)
  | send {i : Fin N} {k : ℕ} {r : Replicator N} {args : AppendEntriesArgs}
      (hrole : (c.raft i).role = .leader) (hterm : (c.raft i).currentTerm = r.leaderTerm)
      (hargs : (c.raft i).buildAppendEntries r.peer r.leaderTerm = some args) :
      Outcome c (.send i k)
        { c.setReplicator i k { r with waiting := some ⟨c.nextCall, i, r.peer, args⟩ } with
          appendRequests := c.appendRequests ++ [⟨c.nextCall, i, r.peer, args⟩]
          nextCall := c.nextCall + 1 }
  | deliverVote {k : ℕ} {q : VoteCall N} (hq : c.voteRequests[k]? = some q) :
      Outcome c (.deliverVote k) (c.deliverVoteStep k q)
  | deliverAppend {k : ℕ} {q : AppendCall N} (hq : c.appendRequests[k]? = some q) :
      Outcome c (.deliverAppend k) (c.deliverAppendStep k q)
  | voteReply {i : Fin N} {k j : ℕ} {q : VoteCall N} {reply : RequestVoteReply}
      (hq : (c.processes i).voteSenders[k]? = some q) (hreply : c.voteReplyTo q j = some reply) :
      Outcome c (.voteReply i k j) (c.voteReplyStep i k j q reply)
  | voteFailed (i : Fin N) (k : ℕ) : Outcome c (.voteFailed i k) (c.dropVoteSender i k)
  | appendReply {i : Fin N} {k j : ℕ} {r : Replicator N} {q : AppendCall N}
      {reply : AppendEntriesReply} (hr : (c.processes i).replicators[k]? = some r)
      (hq : r.waiting = some q) (hreply : c.appendReplyTo q j = some reply) :
      Outcome c (.appendReply i k j) (c.appendReplyStep i k j r q reply)
  | appendFailed (i : Fin N) (k : ℕ) (r : Replicator N) :
      Outcome c (.appendFailed i k) (c.appendFailedStep i k r)
  | fetch {i : Fin N} {entry : LogEntry}
      (hpending : (c.raft i).lastApplied < (c.raft i).commitIndex)
      (hentry : (c.raft i).log[(c.raft i).lastApplied + 1]? = some entry) :
      Outcome c (.fetch i) (c.setProcess i { c.processes i with
        applying := some ((c.raft i).lastApplied + 1, entry) })
  | apply {i : Fin N} {idx : ℕ} {entry : LogEntry}
      (happ : (c.processes i).applying = some (idx, entry)) :
      Outcome c (.apply i) (c.applyStep i idx entry)
  | stopServer (i : Fin N) :
      Outcome c (.stopServer i) (c.setProcess i { c.processes i with stopping := true })
  | stopRaft (i : Fin N) :
      Outcome c (.stopRaft i)
        (c.setProcess i { c.processes i with raft := { c.raft i with stopping := true } })
  | crash (i : Fin N) : Outcome c (.crash i) (c.restart i [])
  | crashDuring {a : Action N} {i : Fin N} {n : RaftNode} (m : ℕ)
      (hop : c.operation a = some (i, n)) :
      Outcome c (.crashDuring a m) ((c.restart i (n.effects.take m)).consume a)

theorem outcome {c c' : Cluster N} {a : Action N} (hs : c.step a = some c') :
    Outcome c a c' := by
  cases a with
  | timeout i =>
      obtain ⟨⟨j, n⟩, hop, rfl⟩ := Option.map_eq_some_iff.mp hs
      simp only [operation, Option.ite_none_left_eq_some, Option.some.injEq,
        Prod.mk.injEq] at hop
      obtain ⟨-, rfl, rfl⟩ := hop
      exact .timeout i
  | submit i command =>
      obtain rfl : c.submitStep i command = c' := by simpa [step] using hs
      exact .submit i command
  | execute i cmd =>
      obtain rfl : c.executeStep i cmd = c' := by simpa [step] using hs
      exact .execute i cmd
  | resume i k =>
      obtain ⟨handler, hmem, rfl⟩ := Option.map_eq_some_iff.mp hs
      exact .resume hmem
  | send i k =>
      simp only [step, Option.bind_eq_bind, Option.bind_eq_some_iff,
        Option.ite_none_left_eq_some] at hs
      obtain ⟨r, -, -, hsend⟩ := hs
      rw [sendStep] at hsend
      split_ifs at hsend with hretired
      · obtain rfl : c.dropReplicator i k = c' := by simpa using hsend
        exact .retire i k
      · simp only [Option.bind_eq_bind, Option.bind_eq_some_iff, Option.some.injEq] at hsend
        obtain ⟨args, hargs, rfl⟩ := hsend
        simp only [RaftNode.replicatorRetired, ne_eq, not_or, not_not] at hretired
        exact .send hretired.2.1 hretired.2.2 hargs
  | deliverVote k =>
      obtain ⟨q, hq, rfl⟩ := Option.map_eq_some_iff.mp hs
      exact .deliverVote hq
  | deliverAppend k =>
      obtain ⟨q, hq, rfl⟩ := Option.map_eq_some_iff.mp hs
      exact .deliverAppend hq
  | voteReply i k j =>
      simp only [step, Option.bind_eq_bind, Option.bind_eq_some_iff, Option.some.injEq] at hs
      obtain ⟨q, hq, reply, hreply, rfl⟩ := hs
      exact .voteReply hq hreply
  | voteFailed i k =>
      simp only [step, Option.bind_eq_bind, Option.bind_eq_some_iff, Option.some.injEq] at hs
      obtain ⟨q, -, rfl⟩ := hs
      exact .voteFailed i k
  | appendReply i k j =>
      simp only [step, Option.bind_eq_bind, Option.bind_eq_some_iff, Option.some.injEq] at hs
      obtain ⟨r, hr, q, hq, reply, hreply, rfl⟩ := hs
      exact .appendReply hr hq hreply
  | appendFailed i k =>
      simp only [step, Option.bind_eq_bind, Option.bind_eq_some_iff,
        Option.ite_none_right_eq_some, Option.some.injEq] at hs
      obtain ⟨r, -, -, rfl⟩ := hs
      exact .appendFailed i k r
  | fetch i =>
      have hfetch : c.fetchStep i = some c' := hs
      unfold fetchStep at hfetch
      dsimp only at hfetch
      split_ifs at hfetch with hidle
      simp only [Option.bind_eq_bind, Option.bind_eq_some_iff, Option.some.injEq] at hfetch
      obtain ⟨entry, hentry, rfl⟩ := hfetch
      simp only [not_or, not_le] at hidle
      exact .fetch hidle.2 hentry
  | apply i =>
      obtain ⟨⟨idx, entry⟩, happ, rfl⟩ := Option.map_eq_some_iff.mp hs
      exact .apply happ
  | stopServer i =>
      obtain rfl := Option.some.inj hs
      exact .stopServer i
  | stopRaft i =>
      obtain rfl := Option.some.inj hs
      exact .stopRaft i
  | crash i =>
      obtain rfl := Option.some.inj hs
      exact .crash i
  | crashDuring a m =>
      obtain ⟨⟨i, n⟩, hop, rfl⟩ := Option.map_eq_some_iff.mp hs
      exact .crashDuring m hop

/-- No term counter is about to wrap. -/
def TermsBounded (c : Cluster N) : Prop := ∀ i, (c.raft i).currentTerm < 2 ^ 64 - 1

instance (c : Cluster N) : Decidable c.TermsBounded :=
  inferInstanceAs (Decidable (∀ i, (c.raft i).currentTerm < 2 ^ 64 - 1))

/-- Perform a list of actions as long as they are enabled and satisfy `ok`. -/
def play (ok : Cluster N → Action N → Prop) [∀ c a, Decidable (ok c a)] (c : Cluster N) :
    List (Action N) → Option (Cluster N)
  | [] => some c
  | a :: actions =>
      if ok c a then
        match c.step a with
        | some c' => if c'.TermsBounded then c'.play ok actions else none
        | none => none
      else none

end Cluster

/-- The states reached from an empty cluster by actions that all satisfy `ok`,
while the term counters stay below `2 ^ 64 - 1`. -/
inductive Run {N : ℕ} (ok : Cluster N → Action N → Prop) : Cluster N → Prop
  | initial (hpos : 0 < N) (hsize : N < 2 ^ 32) : Run ok (Cluster.initial N)
  | step {c c' : Cluster N} {a : Action N} (h : Run ok c) (hok : ok c a)
      (hs : c.step a = some c') (hb : c'.TermsBounded) : Run ok c'

/-- Any run at all. -/
abbrev AnyRun {N : ℕ} : Cluster N → Prop := Run fun _ _ ↦ True

/-- What every step of a replay keeps holds at its end. -/
theorem Cluster.play_induction {N : ℕ} {ok : Cluster N → Action N → Prop}
    [∀ c a, Decidable (ok c a)] {P : Cluster N → Prop}
    (hstep : ∀ {c c' : Cluster N} {a : Action N}, P c → ok c a → c.step a = some c' →
      c'.TermsBounded → P c')
    {c c' : Cluster N} (h : P c) {actions : List (Action N)}
    (hplay : c.play ok actions = some c') : P c' := by
  induction actions generalizing c with
  | nil =>
      obtain rfl : c = c' := by simpa [Cluster.play] using hplay
      exact h
  | cons a actions ih =>
      rw [Cluster.play] at hplay
      split_ifs at hplay with hok
      split at hplay
      · rename_i c₁ hs
        split_ifs at hplay with hb
        exact ih (hstep h hok hs hb) hplay
      · simp at hplay

theorem Run.play {N : ℕ} {ok : Cluster N → Action N → Prop} [∀ c a, Decidable (ok c a)]
    {c c' : Cluster N} (h : Run ok c) {actions : List (Action N)}
    (hplay : c.play ok actions = some c') : Run ok c' :=
  Cluster.play_induction .step h hplay

theorem exists_run_of_play {N : ℕ} {ok : Cluster N → Action N → Prop} [∀ c a, Decidable (ok c a)]
    (hpos : 0 < N) (hsize : N < 2 ^ 32) (actions : List (Action N)) {P : Cluster N → Prop}
    [DecidablePred P] (hplay : ((Cluster.initial N).play ok actions).any (fun c ↦ P c) = true) :
    ∃ c, Run ok c ∧ P c := by
  cases hc : (Cluster.initial N).play ok actions with
  | none => simp [hc] at hplay
  | some c => exact ⟨c, (Run.initial hpos hsize).play hc, by simpa [hc] using hplay⟩

end Dkvs
