import Dkvs.Messages

/-!
# The consensus core of one node

Every operation runs under the node's mutex and is a function on the node's
volatile state. What an operation does outside that state is recorded in program
order in the field `effects`: the calls on the storage object, the entries into
`becomeLeader`, the advances of the commit index made by `advanceCommit`, the
detached threads it starts, and the condition variables it notifies. Timers are
left out; an operation that a timer triggers may run whenever its guard holds.
-/

namespace Dkvs

inductive Role where
  | follower
  | candidate
  | leader
  deriving DecidableEq, Repr

/-- The condition variables on which the threads of a node wait. -/
inductive RaftNode.CondVar where
  | applyCv
  | replCv
  deriving DecidableEq, Repr

inductive Effect where
  | saveMeta (currentTerm : ℕ) (votedFor : ℤ)
  | append (entry : LogEntry)
  | truncateFrom (fromIndex : ℕ)
  /-- The node enters `becomeLeader` with the given entries in its log. -/
  | becomeLeader (term : ℕ) (log : List LogEntry)
  /-- `advanceCommit` raises the commit index of a leader with the given log. -/
  | advanceCommit (term index : ℕ) (log : List LogEntry)
  | voteSender (peer : ℕ) (args : RequestVoteArgs)
  | replicator (peer leaderTerm : ℕ)
  /-- `notify_all`. -/
  | notify (cv : RaftNode.CondVar)
  deriving DecidableEq, Repr

/-- `static_cast<int32_t>` of an unsigned 32-bit value. -/
def toInt32 (x : ℕ) : ℤ :=
  if x % 2 ^ 32 < 2 ^ 31 then (x % 2 ^ 32 : ℕ) else (x % 2 ^ 32 : ℕ) - 2 ^ 32

def kMaxBatch : ℕ := 100

/-- The entry at index 0 of every log. -/
def sentinel : LogEntry := ⟨0, []⟩

structure RaftNode where
  id : ℕ
  clusterSize : ℕ
  role : Role
  currentTerm : ℕ
  votedFor : ℤ
  log : List LogEntry
  commitIndex : ℕ
  lastApplied : ℕ
  leaderHint : ℤ
  votesReceived : ℕ
  nextIndex : List ℕ
  matchIndex : List ℕ
  stopping : Bool
  effects : List Effect
  deriving DecidableEq, Repr

structure SubmitResult where
  isLeader : Bool
  leaderHint : ℤ
  index : ℕ
  term : ℕ
  deriving DecidableEq, Repr

namespace RaftNode

/-- The constructor: term, vote and log come from storage, the rest is fresh. -/
def recover (id clusterSize currentTerm : ℕ) (votedFor : ℤ) (entries : List LogEntry) :
    RaftNode where
  id := id
  clusterSize := clusterSize
  role := .follower
  currentTerm := currentTerm
  votedFor := votedFor
  log := sentinel :: entries
  commitIndex := 0
  lastApplied := 0
  leaderHint := -1
  votesReceived := 0
  nextIndex := List.replicate clusterSize 1
  matchIndex := List.replicate clusterSize 0
  stopping := false
  effects := []

def lastLogIndex (n : RaftNode) : ℕ := n.log.length - 1

def lastLogTerm (n : RaftNode) : ℕ := (n.log.getLast?.getD sentinel).term

def majority (n : RaftNode) : ℕ := n.clusterSize / 2 + 1

/-- `log_[i].term`, for an index inside the log. -/
def termAt (n : RaftNode) (i : ℕ) : ℕ := (n.log.getD i sentinel).term

def emit (n : RaftNode) (e : Effect) : RaftNode := { n with effects := n.effects ++ [e] }

/-- Append to the log in memory and on disk. -/
def push (n : RaftNode) (entry : LogEntry) : RaftNode :=
  { n with log := n.log ++ [entry] }.emit (.append entry)

def becomeFollower (n : RaftNode) (term : ℕ) : RaftNode :=
  let n : RaftNode :=
    if n.currentTerm < term then
      { n with currentTerm := term, votedFor := -1, leaderHint := -1 }.emit (.saveMeta term (-1))
    else n
  if n.role ≠ .follower then { n with role := .follower }.emit (.notify .replCv) else n

/-- How many peers are known to hold the entry at index `i`. -/
def replicas (n : RaftNode) (i : ℕ) : ℕ :=
  (List.range n.clusterSize).countP fun p ↦ i ≤ n.matchIndex.getD p 0

/-- The downward scan of `advanceCommit`. -/
def advanceLoop (n : RaftNode) : ℕ → RaftNode
  | 0 => n
  | i + 1 =>
      if n.commitIndex < i + 1 then
        if n.termAt (i + 1) ≠ n.currentTerm then n
        else if n.majority ≤ n.replicas (i + 1) then
          { n with commitIndex := i + 1 }.emit (.advanceCommit n.currentTerm (i + 1) n.log.tail)
            |>.emit (.notify .applyCv) |>.emit (.notify .replCv)
        else n.advanceLoop i
      else n

def advanceCommit (n : RaftNode) : RaftNode :=
  if n.role ≠ .leader then n else n.advanceLoop n.lastLogIndex

def peers (n : RaftNode) : List ℕ := (List.range n.clusterSize).filter (· ≠ n.id)

def spawn (n : RaftNode) (threads : List Effect) : RaftNode :=
  { n with effects := n.effects ++ threads }

/-- The first half of `becomeLeader`: the new role and fresh peer indices. -/
def takeOffice (n : RaftNode) : RaftNode :=
  { n.emit (.becomeLeader n.currentTerm n.log.tail) with
    role := .leader
    leaderHint := toInt32 n.id
    nextIndex := List.replicate n.nextIndex.length (n.lastLogIndex + 1)
    matchIndex := List.replicate n.matchIndex.length 0 }

/-- `matchIndex_[id_] = lastLogIndex()`. -/
def countSelf (n : RaftNode) : RaftNode :=
  { n with matchIndex := n.matchIndex.set n.id n.lastLogIndex }

/-- Take office and write the no-op of the new term. -/
def becomeLeader (n : RaftNode) : RaftNode :=
  let n : RaftNode := (n.takeOffice.push ⟨n.currentTerm, []⟩).countSelf.advanceCommit
  n.spawn (n.peers.map fun peer ↦ .replicator peer n.currentTerm)

/-- Enter the next term as a candidate. The term counter is a `uint64_t` and
wraps. -/
def stand (n : RaftNode) : RaftNode :=
  let n : RaftNode := { n with
    role := .candidate
    currentTerm := (n.currentTerm + 1) % 2 ^ 64
    votedFor := toInt32 n.id }
  { n.emit (.saveMeta n.currentTerm n.votedFor) with leaderHint := -1, votesReceived := 1 }

def voteRequest (n : RaftNode) : RequestVoteArgs :=
  ⟨n.currentTerm, n.id, n.lastLogIndex, n.lastLogTerm⟩

def startElection (n : RaftNode) : RaftNode :=
  let n : RaftNode := n.stand
  if n.majority ≤ n.votesReceived then n.becomeLeader
  else n.spawn (n.peers.map fun peer ↦ .voteSender peer n.voteRequest)

/-- What a vote sender does with the reply to its request `args`. -/
def onVoteReply (n : RaftNode) (args : RequestVoteArgs) (reply : RequestVoteReply) : RaftNode :=
  if n.stopping then n
  else if n.currentTerm < reply.term then n.becomeFollower reply.term
  else if n.role ≠ .candidate ∨ n.currentTerm ≠ args.term ∨ reply.voteGranted = false then n
  else
    let n : RaftNode := { n with votesReceived := n.votesReceived + 1 }
    if n.majority ≤ n.votesReceived then n.becomeLeader else n

def submit (n : RaftNode) (command : Bytes) : RaftNode × SubmitResult :=
  if n.stopping ∨ n.role ≠ .leader then (n, ⟨false, n.leaderHint, 0, 0⟩)
  else
    let n : RaftNode := (n.push ⟨n.currentTerm, command⟩).countSelf.advanceCommit
    let n : RaftNode := n.emit (.notify .replCv)
    (n, ⟨true, toInt32 n.id, n.lastLogIndex, n.currentTerm⟩)

def onRequestVote (n : RaftNode) (args : RequestVoteArgs) : RaftNode × RequestVoteReply :=
  if args.term < n.currentTerm then (n, ⟨n.currentTerm, false⟩)
  else
    let n : RaftNode := if n.currentTerm < args.term then n.becomeFollower args.term else n
    let logOk : Prop := n.lastLogTerm < args.lastLogTerm ∨
      args.lastLogTerm = n.lastLogTerm ∧ n.lastLogIndex ≤ args.lastLogIndex
    let canVote : Prop := n.votedFor = -1 ∨ n.votedFor = toInt32 args.candidateId
    if logOk ∧ canVote then
      let n : RaftNode := { n with votedFor := toInt32 args.candidateId }
      (n.emit (.saveMeta n.currentTerm n.votedFor), ⟨n.currentTerm, true⟩)
    else (n, ⟨n.currentTerm, false⟩)

/-- The backward scan to the first entry of the conflicting term. -/
def conflictScan (n : RaftNode) (conflictTerm : ℕ) : ℕ → ℕ
  | 0 => 0
  | 1 => 1
  | ci + 2 => if n.termAt (ci + 1) = conflictTerm then n.conflictScan conflictTerm (ci + 1)
      else ci + 2

/-- Drop the entries from index `pos` on, on disk and in memory. -/
def truncateLog (n : RaftNode) (pos : ℕ) : RaftNode :=
  { n with log := n.log.take pos }.emit (.truncateFrom pos)

def appendAll (n : RaftNode) (entries : List LogEntry) : RaftNode := entries.foldl push n

/-- The two loops over the entries of a request: skip what matches by term, cut
the log at the first divergence, append the rest. -/
def mergeEntries (n : RaftNode) (pos : ℕ) : List LogEntry → RaftNode
  | [] => n
  | e :: es =>
      if n.lastLogIndex < pos then n.appendAll (e :: es)
      else if n.termAt pos ≠ e.term then (n.truncateLog pos).appendAll (e :: es)
      else n.mergeEntries (pos + 1) es

/-- The follower's commit rule. -/
def followCommit (n : RaftNode) (leaderCommit : ℕ) : RaftNode :=
  if n.commitIndex < leaderCommit then
    { n with commitIndex := min leaderCommit n.lastLogIndex }.emit (.notify .applyCv)
  else n

/-- Follow the sender of a request as the leader of its term. -/
def heed (n : RaftNode) (args : AppendEntriesArgs) : RaftNode :=
  let n : RaftNode :=
    if n.currentTerm < args.term ∨ n.role ≠ .follower then n.becomeFollower args.term else n
  { n with leaderHint := toInt32 args.leaderId }

def onAppendEntries (n : RaftNode) (args : AppendEntriesArgs) : RaftNode × AppendEntriesReply :=
  if args.term < n.currentTerm then (n, ⟨n.currentTerm, false, 0⟩)
  else
    let n : RaftNode := n.heed args
    if n.lastLogIndex < args.prevLogIndex then
      (n, ⟨n.currentTerm, false, n.lastLogIndex + 1⟩)
    else if n.termAt args.prevLogIndex ≠ args.prevLogTerm then
      (n, ⟨n.currentTerm, false, n.conflictScan (n.termAt args.prevLogIndex) args.prevLogIndex⟩)
    else
      let n : RaftNode := n.mergeEntries (args.prevLogIndex + 1) args.entries
      (n.followCommit args.leaderCommit, ⟨n.currentTerm, true, 0⟩)

/-- A replicator thread leaves its loop when its term of office is over. -/
def replicatorRetired (n : RaftNode) (leaderTerm : ℕ) : Prop :=
  n.stopping ∨ n.role ≠ .leader ∨ n.currentTerm ≠ leaderTerm

instance (n : RaftNode) (leaderTerm : ℕ) : Decidable (n.replicatorRetired leaderTerm) :=
  inferInstanceAs (Decidable (_ ∨ _))

/-- The request a replicator builds for `peer`; `none` is an access outside the
log. -/
def buildAppendEntries (n : RaftNode) (peer leaderTerm : ℕ) : Option AppendEntriesArgs :=
  let next := n.nextIndex.getD peer 0
  if next = 0 then none
  else
    (n.log[next - 1]?).map fun previous ↦
      { term := leaderTerm
        leaderId := n.id
        prevLogIndex := next - 1
        prevLogTerm := previous.term
        leaderCommit := n.commitIndex
        entries := (n.log.drop next).take kMaxBatch }

/-- What a replicator does with a reply; the flag says whether the thread goes
on. -/
def onAppendReply (n : RaftNode) (peer leaderTerm : ℕ) (args : AppendEntriesArgs)
    (reply : AppendEntriesReply) : RaftNode × Bool :=
  if n.replicatorRetired leaderTerm then (n, false)
  else if n.currentTerm < reply.term then (n.becomeFollower reply.term, false)
  else if reply.term = n.currentTerm then
    if reply.success then
      let newMatch := max (n.matchIndex.getD peer 0) (args.prevLogIndex + args.entries.length)
      let n : RaftNode := { n with
        matchIndex := n.matchIndex.set peer newMatch
        nextIndex := n.nextIndex.set peer (newMatch + 1) }
      (n.advanceCommit, true)
    else
      let hint := max reply.conflictIndex 1
      ({ n with nextIndex := n.nextIndex.set peer (min hint (n.lastLogIndex + 1)) }, true)
  else (n, true)

end RaftNode

end Dkvs
