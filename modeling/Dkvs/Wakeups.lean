import Dkvs.Frontend
import Dkvs.Monitor
import Dkvs.Terms

/-!
# The condition variables of a node

The applier sleeps on `applyCv_` until something is committed, the replicators on `replCv_`
until there is something to ship or their term of office is over, and the handlers of clients
on `waitCv_` until their slot is filled. A function that runs under the mutex of a node has its
notifications among its effects. They suffice: no wake-up is lost, and what a sleeping thread
waits for has not happened.
-/

namespace Dkvs

open ReplicatedLog

variable {N : ℕ} {c c' : Cluster N} {h : History N} {a : Action N} {i x : Fin N}
  {n n' : RaftNode}

/-! ## What a step notifies -/

/-- The condition variables of the nodes and of their servers. -/
inductive CondVar (N : ℕ) where
  | raft (i : Fin N) (cv : RaftNode.CondVar)
  | waitCv (i : Fin N)
  deriving DecidableEq, Repr

namespace Cluster

def notifiedBy (i : Fin N) : Effect → Option (CondVar N)
  | .notify cv => some (.raft i cv)
  | _ => none

/-- The variables that are notified in a step. `stop` notifies once, and `onApply` if it finds
a slot. -/
def notifies (c : Cluster N) : Action N → List (CondVar N)
  | .apply i =>
      (c.processes i).applying.elim [] fun (idx, _) ↦
        if ((c.processes i).waiters idx).isSome then [.waitCv i] else []
  | .stopRaft i =>
      if (c.raft i).stopping then [] else [.raft i .applyCv, .raft i .replCv]
  | a => (c.operation a).elim [] fun (i, n) ↦ n.effects.filterMap (notifiedBy i)

/-- A critical section notifies the variables that are among its effects. -/
theorem mem_notifies {cv : RaftNode.CondVar} (hop : c.operation a = some (i, n)) :
    .raft i cv ∈ c.notifies a ↔ .notify cv ∈ n.effects := by
  have heq : c.notifies a = n.effects.filterMap (notifiedBy i) := by
    cases a with
    | apply j => simp [operation] at hop
    | stopRaft j => simp [operation] at hop
    | _ => simp only [notifies, hop, Option.elim_some]
  rw [heq, List.mem_filterMap]
  constructor
  · rintro ⟨effect, hmem, heffect⟩
    cases effect with
    | notify cv' =>
        obtain rfl : cv' = cv := by simpa [notifiedBy] using heffect
        exact hmem
    | _ => simp [notifiedBy] at heffect
  · exact fun hmem ↦ ⟨_, hmem, rfl⟩

end Cluster

/-! ## Nothing happens in silence -/

/-- A leader stays in office with its log, and knows no less of its peers. -/
structure Remains (n n' : RaftNode) : Prop where
  role : n'.role = .leader
  term : n'.currentTerm = n.currentTerm
  log : n'.log = n.log
  matched_le : ∀ p, n.matchIndex.getD p 0 ≤ n'.matchIndex.getD p 0

/-- Without a notification of `applyCv_` nothing is committed, and without one of `replCv_`
a leader remains. -/
structure Announced (n n' : RaftNode) : Prop where
  commit : .notify .applyCv ∉ n'.effects → n'.commitIndex = n.commitIndex
  office : .notify .replCv ∉ n'.effects → n.role = .leader → Remains n n'

namespace Announced

theorem refl (n : RaftNode) : Announced n n :=
  ⟨fun _ ↦ rfl, fun _ hrole ↦ ⟨hrole, rfl, rfl, fun _ ↦ le_rfl⟩⟩

theorem becomeFollower (n : RaftNode) (t : ℕ) : Announced n (n.becomeFollower t) := by
  refine ⟨fun _ ↦ n.becomeFollower_commitIndex t, fun hquiet hrole ↦ (hquiet ?_).elim⟩
  rcases Nat.lt_or_ge n.currentTerm t with hlt | hle
  · simp [RaftNode.becomeFollower_of_lt hlt, RaftNode.retirement, hrole]
  · simp [RaftNode.becomeFollower_of_le hle, RaftNode.retirement, hrole]

/-- A scan tells both when it finds something. -/
theorem advanceCommit {m : RaftNode} (hrole : n.role = .leader → m.role = .leader)
    (hterm : m.currentTerm = n.currentTerm) (hlog : m.log = n.log)
    (hcommit : m.commitIndex = n.commitIndex)
    (hmatched : ∀ p, n.matchIndex.getD p 0 ≤ m.matchIndex.getD p 0) :
    Announced n m.advanceCommit := by
  rcases m.advanceCommit_cases with hsame | ⟨-, k, -, -, -, -, hmove⟩
  · rw [hsame]
    exact ⟨fun _ ↦ hcommit, fun _ hleads ↦ ⟨hrole hleads, hterm, hlog, hmatched⟩⟩
  · rw [hmove]
    exact ⟨fun hquiet ↦ by simp at hquiet, fun hquiet ↦ by simp at hquiet⟩

/-- The commit index at the end of a scan, whatever follows it. -/
theorem commit_of_subset {m : RaftNode} (hcommit : m.commitIndex = n.commitIndex)
    {es : List Effect} (hsub : m.advanceCommit.effects ⊆ es) (hquiet : .notify .applyCv ∉ es) :
    m.advanceCommit.commitIndex = n.commitIndex := by
  rcases m.advanceCommit_cases with hsame | ⟨-, k, -, -, -, -, hmove⟩
  · rw [hsame, hcommit]
  · refine absurd (hsub ?_) hquiet
    rw [hmove]
    simp

/-- A node that takes office was not a leader. -/
theorem becomeLeader {m : RaftNode} (hrole : n.role ≠ .leader)
    (hcommit : m.commitIndex = n.commitIndex) : Announced n m.becomeLeader := by
  refine ⟨fun hquiet ↦ ?_, fun _ hleads ↦ absurd hleads hrole⟩
  have hscan : (m.takeOffice.push ⟨m.currentTerm, []⟩).countSelf.commitIndex = n.commitIndex :=
    hcommit
  exact commit_of_subset hscan (List.subset_append_left _ _) hquiet

theorem startElection (hrole : n.role ≠ .leader) : Announced n n.startElection := by
  rcases n.startElection_cases with hwon | hopen
  · rw [hwon]
    exact becomeLeader hrole rfl
  · rw [hopen]
    exact ⟨fun _ ↦ rfl, fun _ hleads ↦ absurd hleads hrole⟩

theorem onVoteReply (n : RaftNode) (args : RequestVoteArgs) (reply : RequestVoteReply) :
    Announced n (n.onVoteReply args reply) := by
  rcases n.onVoteReply_cases args reply with hnode | ⟨-, hnode⟩ |
    ⟨hrole, -, -, ⟨-, hnode⟩ | ⟨-, hnode⟩⟩
  · rw [hnode]
    exact refl n
  · rw [hnode]
    exact becomeFollower n reply.term
  · rw [hnode]
    exact ⟨fun _ ↦ rfl, fun _ hleads ↦ ⟨hleads, rfl, rfl, fun _ ↦ le_rfl⟩⟩
  · rw [hnode]
    exact becomeLeader (by simp [hrole]) rfl

theorem submit (n : RaftNode) (command : Bytes) : Announced n (n.submit command).1 := by
  rcases n.submit_cases command with ⟨hsame, -⟩ | ⟨-, hnode, -, -⟩
  · rw [hsame]
    exact refl n
  · rw [hnode]
    have hscan : (n.push ⟨n.currentTerm, command⟩).countSelf.commitIndex = n.commitIndex := rfl
    refine ⟨commit_of_subset hscan (List.subset_append_left _ _), fun hquiet ↦ ?_⟩
    simp [RaftNode.emit] at hquiet

theorem onRequestVote (n : RaftNode) (args : RequestVoteArgs) :
    Announced n (n.onRequestVote args).1 := by
  rcases n.onRequestVote_cases args with ⟨-, hsame, -⟩ | ⟨-, m, hm, hcases⟩
  · rw [hsame]
    exact refl n
  · have hfirst : Announced n m := by
      rw [hm]
      split_ifs with hlater
      · exact becomeFollower n args.term
      · exact refl n
    rcases hcases with ⟨hnode, -⟩ | ⟨-, -, hnode⟩
    · rw [hnode]
      exact hfirst
    · rw [hnode]
      refine ⟨fun hquiet ↦ hfirst.commit ?_, fun hquiet hrole ↦ ?_⟩
      · simpa using hquiet
      · obtain ⟨hleads, hterm, hlog, hmatched⟩ := hfirst.office (by simpa using hquiet) hrole
        exact ⟨hleads, hterm, hlog, hmatched⟩

/-- A leader that heeds a request steps down, and says so. -/
theorem replCv_mem_heed {args : AppendEntriesArgs} (hle : n.currentTerm ≤ args.term)
    (hrole : n.role = .leader) : .notify .replCv ∈ (n.heed args).effects := by
  rw [RaftNode.heed_eq hle]
  by_contra hquiet
  have hleads := ((becomeFollower n args.term).office hquiet hrole).role
  simp at hleads

theorem heed {args : AppendEntriesArgs} (hle : n.currentTerm ≤ args.term) :
    Announced n (n.heed args) :=
  ⟨fun _ ↦ RaftNode.heed_commitIndex hle,
    fun hquiet hrole ↦ absurd (replCv_mem_heed hle hrole) hquiet⟩

theorem onAppendEntries (hlog : n.log ≠ []) (args : AppendEntriesArgs) :
    Announced n (n.onAppendEntries args).1 := by
  rcases n.onAppendEntries_cases args with ⟨-, hsame, -⟩ | ⟨hle, ⟨hnode, -⟩ | ⟨hprev, -, hnode⟩⟩
  · rw [hsame]
    exact refl n
  · rw [hnode]
    exact heed hle
  · obtain ⟨log, es, -, hmerge⟩ := (n.heed args).mergeEntries_quiet args.entries
      (Nat.succ_pos args.prevLogIndex) (RaftNode.prevLogIndex_lt_heed hlog hprev)
    rw [hnode, hmerge]
    refine ⟨fun hquiet ↦ ?_, fun hquiet hrole ↦ (hquiet ?_).elim⟩
    · unfold RaftNode.followCommit at hquiet ⊢
      split_ifs at hquiet ⊢ with hlater
      · simp [RaftNode.emit] at hquiet
      · exact RaftNode.heed_commitIndex hle
    · obtain ⟨commit, fs, -, hfollow⟩ := ({ n.heed args with
        log := log, effects := (n.heed args).effects ++ es } : RaftNode).followCommit_frame
          args.leaderCommit
      rw [hfollow]
      exact List.mem_append_left _ (List.mem_append_left _ (replCv_mem_heed hle hrole))

theorem onAppendReply (n : RaftNode) (peer leaderTerm : ℕ) (args : AppendEntriesArgs)
    (reply : AppendEntriesReply) : Announced n (n.onAppendReply peer leaderTerm args reply).1 := by
  rcases n.onAppendReply_cases peer leaderTerm args reply with hnode | ⟨-, hnode⟩ |
    ⟨-, -, ⟨-, next, hnode⟩ | ⟨next, hnode⟩⟩
  · rw [hnode]
    exact refl n
  · rw [hnode]
    exact becomeFollower n reply.term
  · rw [hnode]
    refine advanceCommit id rfl rfl rfl fun p ↦ ?_
    simp only [List.getD_eq_getElem?_getD, List.getElem?_set]
    split_ifs with hp hlt
    · subst hp
      exact le_max_left _ _
    · simp [List.getElem?_eq_none (Nat.not_lt.mp hlt), ← hp]
    · exact le_rfl
  · rw [hnode]
    exact ⟨fun _ ↦ rfl, fun _ hrole ↦ ⟨hrole, rfl, rfl, fun _ ↦ le_rfl⟩⟩

end Announced

theorem CriticalSection.announced (hlog : (c.raft i).log ≠ []) (hop : CriticalSection c a i n) :
    Announced (c.raft i) n := by
  cases hop with
  | timeout hidle => exact .startElection fun hleads ↦ hidle (Or.inr hleads)
  | submit _ command => exact .submit _ command
  | execute _ cmd => exact .submit _ cmd.encode
  | deliverVote _ => exact .onRequestVote _ _
  | deliverAppend _ => exact .onAppendEntries hlog _
  | voteReply _ _ => exact .onVoteReply _ _ _
  | appendReply _ _ _ => exact .onAppendReply _ _ _ _ _

/-! ## The threads that sleep -/

/-- A thread and the place where it waits. A replicator waits for new entries after a reply, and
only for the end of its term after a call that failed. -/
inductive Waiter (N : ℕ) where
  | applier (i : Fin N)
  | replicator (i peer : Fin N) (leaderTerm : ℕ)
  | backoff (i peer : Fin N) (leaderTerm : ℕ)
  | handler (i : Fin N) (parked : Handler)
  deriving DecidableEq, Repr

namespace Waiter

def node : Waiter N → Fin N
  | .applier i | .replicator i _ _ | .backoff i _ _ | .handler i _ => i

def condVar : Waiter N → CondVar N
  | .applier i => .raft i .applyCv
  | .replicator i _ _ | .backoff i _ _ => .raft i .replCv
  | .handler i _ => .waitCv i

/-- The thread is outside of its calls, or parked. -/
def AtWait (c : Cluster N) : Waiter N → Prop
  | .applier i => (c.processes i).applying = none
  | .replicator i peer leaderTerm | .backoff i peer leaderTerm =>
      ⟨peer, leaderTerm, none⟩ ∈ (c.processes i).replicators
  | .handler i parked => parked ∈ (c.processes i).handlers ∧ (c.processes i).stopping = false

/-- The predicate of the wait. That of a handler has `stopping_` besides, which is not guarded
by the mutex. -/
def Ready (c : Cluster N) : Waiter N → Prop
  | .applier i => (c.raft i).stopping = true ∨ (c.raft i).lastApplied < (c.raft i).commitIndex
  | .replicator i peer leaderTerm => (c.raft i).replicatorRetired leaderTerm ∨
      (c.raft i).matchIndex.getD peer 0 < (c.raft i).lastLogIndex
  | .backoff i _ leaderTerm => (c.raft i).replicatorRetired leaderTerm
  | .handler i parked => ∃ r, (c.processes i).waiters parked.index = some r ∧ r.applied = true

/-- The steps that the thread itself takes. -/
def Runs (c : Cluster N) : Waiter N → Action N → Prop
  | .applier i, .fetch j | .applier i, .apply j => j = i
  | .replicator i peer leaderTerm, .send j k | .backoff i peer leaderTerm, .send j k =>
      j = i ∧ ∃ r, (c.processes i).replicators[k]? = some r ∧ r.peer = peer ∧
        r.leaderTerm = leaderTerm
  | .handler i parked, .resume j k => j = i ∧ (c.processes i).handlers[k]? = some parked
  | _, _ => False

end Waiter

/-- The nodes as a system of threads that sleep on condition variables. A restart ends the
threads of its node. -/
def waiting (N : ℕ) : Monitor.System (Cluster N) (Action N) (Waiter N) (CondVar N) where
  step := Cluster.step
  notifies := Cluster.notifies
  condVar := Waiter.condVar
  AtWait := Waiter.AtWait
  Ready := Waiter.Ready
  Runs := Waiter.Runs
  Ends c a w := c.restarted a = some w.node

/-- The states of the nodes and the threads that are asleep in them. -/
def SleepRun (c : Cluster N) (asleep : Set (Waiter N)) : Prop :=
  (waiting N).Run (fun c ↦ c = .initial N ∧ 0 < N ∧ N < 2 ^ 32)
    (fun _ _ c' ↦ c'.TermsBounded) c asleep

theorem SleepRun.anyRun {asleep : Set (Waiter N)} (hrun : SleepRun c asleep) : AnyRun c := by
  induction hrun with
  | start hs =>
      obtain ⟨rfl, hpos, hsize⟩ := hs
      exact .initial hpos hsize
  | act _ hs hok _ ih => exact .step ih trivial hs hok
  | sleep _ _ _ ih => exact ih
  | wake _ _ ih => exact ih

/-- Every run is one in which nobody sleeps. -/
theorem Run.awake {ok : Cluster N → Action N → Prop} (hrun : Run ok c) : SleepRun c ∅ := by
  induction hrun with
  | initial hpos hsize => exact .start ⟨rfl, hpos, hsize⟩
  | step _ _ hs hb ih => exact Monitor.System.Run.act_awake ih hs hb

section Slots

variable {idx : ℕ} {r : PendingResult}

theorem Cluster.waiters_setProcess {p : Process N}
    (hr : ((c.setProcess i p).processes x).waiters idx = some r)
    (hp : p.waiters idx = some r → (c.processes i).waiters idx = some r) :
    (c.processes x).waiters idx = some r := by
  by_cases hx : x = i
  · subst hx
    rw [setProcess_self] at hr
    exact hp hr
  · rwa [setProcess_of_ne c hx] at hr

theorem Cluster.waiters_settle (hr : ((c.settle i n).processes x).waiters idx = some r) :
    (c.processes x).waiters idx = some r :=
  waiters_setProcess hr id

theorem Cluster.waiters_submitStep {command : Bytes}
    (hr : ((c.submitStep i command).processes x).waiters idx = some r) :
    (c.processes x).waiters idx = some r := by
  obtain ⟨-, -, -, hprocesses, -⟩ := Moves.submitStep c i command
  rw [hprocesses] at hr
  exact waiters_settle hr

/-- A slot that is filled after a step was filled before, or the step has filled it. -/
theorem Cluster.waiters_step (hs : c.step a = some c') (hkeep : c.restarted a ≠ some x)
    (hr : (c'.processes x).waiters idx = some r) (hdone : r.applied = true) :
    (c.processes x).waiters idx = some r ∨
      a = .apply x ∧ ((c.processes x).waiters idx).isSome ∧
        ∃ entry, (c.processes x).applying = some (idx, entry) := by
  cases Cluster.outcome hs with
  | timeout i => exact Or.inl (waiters_settle hr)
  | submit i command => exact Or.inl (waiters_submitStep hr)
  | execute i cmd =>
      left
      unfold executeStep at hr
      dsimp only at hr
      split_ifs at hr with hleader
      · have hold := waiters_setProcess hr fun hp ↦ emplaceWaiter_applied hp hdone
        exact waiters_submitStep hold
      · exact waiters_submitStep hr
  | @resume i k parked hmem =>
      exact Or.inl (waiters_setProcess hr (@resume_waiters (c.processes i).stopping _ _ _ _))
  | deliverVote _ => exact Or.inl (waiters_settle hr)
  | deliverAppend _ => exact Or.inl (waiters_settle hr)
  | voteReply _ _ => exact Or.inl (waiters_setProcess (waiters_settle hr) id)
  | appendReply _ _ _ =>
      unfold appendReplyStep at hr
      dsimp only at hr
      have hrest := waiters_settle hr
      split_ifs at hrest with hgoes
      · exact Or.inl (waiters_setProcess hrest id)
      · exact Or.inl (waiters_setProcess hrest id)
  | appendFailed i k r' =>
      unfold appendFailedStep at hr
      split_ifs at hr with hretired
      · exact Or.inl (waiters_setProcess hr id)
      · exact Or.inl (waiters_setProcess hr id)
  | @apply i idx' entry happ =>
      by_cases hx : x = i
      · subst hx
        have hself : ((c.applyStep x idx' entry).processes x).waiters =
            (onApply (c.processes x).store (c.processes x).waiters idx' entry.term
              entry.command).2 :=
          congrArg Process.waiters (c.setProcess_self x _)
        rw [hself] at hr
        rcases onApply_waiters hr with ⟨rfl, -⟩ | hold
        · refine Or.inr ⟨rfl, ?_, entry, happ⟩
          cases hslot : (c.processes x).waiters idx with
          | none => simp [onApply, hslot] at hr
          | some slot => rfl
        · exact Or.inl hold
      · have hother : (c.applyStep i idx' entry).processes x = c.processes x :=
          c.setProcess_of_ne hx _
        rw [hother] at hr
        exact Or.inl hr
  | crash i =>
      have hx : x ≠ i := fun heq ↦ hkeep (by rw [heq]; rfl)
      have hother : (c.restart i []).processes x = c.processes x := c.setProcess_of_ne hx _
      rw [hother] at hr
      exact Or.inl hr
  | @crashDuring b i m k hb =>
      have hx : x ≠ i := fun heq ↦ hkeep (by simp [restarted, hb, heq])
      have hother : ((c.restart i (m.effects.take k)).consume b).processes x = c.processes x := by
        cases b with
        | _ => exact c.setProcess_of_ne hx _
      rw [hother] at hr
      exact Or.inl hr
  | _ => exact Or.inl (waiters_setProcess hr id)

end Slots

/-! ## No wake-up is lost -/

/-- A replicator whose node remains in office, with nothing new to ship, has nothing to do. -/
theorem Remains.not_retired {leaderTerm : ℕ} (hremains : Remains n n')
    (hstop : n'.stopping = n.stopping) (hactive : ¬ n.replicatorRetired leaderTerm) :
    ¬ n'.replicatorRetired leaderTerm := by
  obtain ⟨hrunning, -, hterm⟩ := RaftNode.active_iff.mp hactive
  exact RaftNode.active_iff.mpr
    ⟨hstop.trans hrunning, hremains.role, hremains.term.trans hterm⟩

/-- If `replCv_` of a node is not notified and the node is not restarted, a leader that does not
stop remains. -/
theorem Cluster.remains_step (hsim : Sim c h) (hs : c.step a = some c')
    (hkeep : c.restarted a ≠ some x) (hquiet : .raft x .replCv ∉ c.notifies a)
    (hstop : (c.raft x).stopping = false) (hrole : (c.raft x).role = .leader) :
    (c'.raft x).stopping = false ∧ Remains (c.raft x) (c'.raft x) := by
  have hlog : (c.raft x).log ≠ [] := by simp [(hsim.tracks x).log]
  rcases Cluster.raft_step hs hkeep with
    ⟨-, applied, stopping, heq, rfl | ⟨rfl, -⟩, -⟩ | ⟨n, hop, heq⟩
  · rw [heq]
    exact ⟨hstop, hrole, rfl, rfl, fun _ ↦ le_rfl⟩
  · simp [notifies, hstop] at hquiet
  · have hsection := Cluster.criticalSection hop
    rw [mem_notifies hop] at hquiet
    obtain ⟨hleads, hterm, hlog', hmatched⟩ := (hsection.announced hlog).office hquiet hrole
    rw [heq]
    exact ⟨(hsection.stopping hlog).trans hstop, hleads, hterm, hlog', hmatched⟩

theorem CriticalSection.lastApplied (hlog : (c.raft i).log ≠ []) (hop : CriticalSection c a i n) :
    n.lastApplied = (c.raft i).lastApplied := by
  cases hop with
  | timeout _ => exact (Raises.startElection _).lastApplied
  | submit _ command => exact (Raises.submit _ command).lastApplied
  | execute _ cmd => exact (Raises.submit _ cmd.encode).lastApplied
  | deliverVote _ => exact (Raises.onRequestVote _ _).lastApplied
  | deliverAppend _ => exact (RaftNode.onAppendEntries_commit hlog _).1
  | voteReply _ _ => exact (Raises.onVoteReply _ _ _).lastApplied
  | appendReply _ _ _ => exact (Raises.onAppendReply _ _ _ _ _).lastApplied

/-- If `applyCv_` of a node is not notified, an applier that has nothing to do goes on to have
nothing to do. -/
theorem Cluster.applied_step (hsim : Sim c h) (hs : c.step a = some c')
    (hkeep : c.restarted a ≠ some x) (hother : a ≠ .apply x)
    (hquiet : .raft x .applyCv ∉ c.notifies a) (hstop : (c.raft x).stopping = false)
    (hdone : (c.raft x).commitIndex ≤ (c.raft x).lastApplied) :
    (c'.raft x).stopping = false ∧ (c'.raft x).commitIndex ≤ (c'.raft x).lastApplied := by
  have hlog : (c.raft x).log ≠ [] := by simp [(hsim.tracks x).log]
  rcases Cluster.raft_step hs hkeep with
    ⟨-, applied, stopping, heq, hstopping, happlied⟩ | ⟨n, hop, heq⟩
  · obtain rfl := happlied.resolve_right hother
    rcases hstopping with rfl | ⟨rfl, -⟩
    · rw [heq]
      exact ⟨hstop, hdone⟩
    · simp [notifies, hstop] at hquiet
  · have hsection := Cluster.criticalSection hop
    rw [mem_notifies hop] at hquiet
    rw [heq]
    refine ⟨(hsection.stopping hlog).trans hstop, ?_⟩
    show n.commitIndex ≤ n.lastApplied
    rw [(hsection.announced hlog).commit hquiet, hsection.lastApplied hlog]
    exact hdone

/-- What a thread waits for does not come about without a notification. -/
theorem Waiter.announces (hsim : Sim c h) (hs : c.step a = some c') (w : Waiter N) :
    (waiting N).Announces c a c' w := by
  intro hnot hother hlives hready
  have hkeep : c.restarted a ≠ some w.node := hlives
  by_contra hmem
  have hquiet : w.condVar ∉ c.notifies a := hmem
  cases w with
  | applier i =>
      obtain ⟨hrunning, hdone⟩ : (c.raft i).stopping = false ∧
          (c.raft i).commitIndex ≤ (c.raft i).lastApplied := by
        simpa [waiting, Waiter.Ready] using hnot
      have hself : a ≠ .apply i := by
        rintro rfl
        exact hother rfl
      obtain ⟨hrunning', hdone'⟩ := Cluster.applied_step hsim hs hkeep hself hquiet hrunning hdone
      rcases hready with hstopped | hmore
      · exact absurd (hrunning'.symm.trans hstopped) (by simp)
      · exact absurd hmore (Nat.not_lt.mpr hdone')
  | replicator i peer leaderTerm =>
      obtain ⟨hactive, hshipped⟩ : ¬ (c.raft i).replicatorRetired leaderTerm ∧
          (c.raft i).lastLogIndex ≤ (c.raft i).matchIndex.getD peer 0 := by
        simpa [waiting, Waiter.Ready] using hnot
      obtain ⟨hrunning, hrole, -⟩ := RaftNode.active_iff.mp hactive
      obtain ⟨hrunning', hremains⟩ := Cluster.remains_step hsim hs hkeep hquiet hrunning hrole
      rcases hready with hretired | hmore
      · exact hremains.not_retired (hrunning'.trans hrunning.symm) hactive hretired
      · have hlast : (c'.raft i).lastLogIndex = (c.raft i).lastLogIndex :=
          congrArg (fun log : List LogEntry ↦ log.length - 1) hremains.log
        exact absurd hmore (Nat.not_lt.mpr (hlast.le.trans (hshipped.trans
          (hremains.matched_le peer))))
  | backoff i peer leaderTerm =>
      have hactive : ¬ (c.raft i).replicatorRetired leaderTerm := hnot
      obtain ⟨hrunning, hrole, -⟩ := RaftNode.active_iff.mp hactive
      obtain ⟨hrunning', hremains⟩ := Cluster.remains_step hsim hs hkeep hquiet hrunning hrole
      exact hremains.not_retired (hrunning'.trans hrunning.symm) hactive hready
  | handler i parked =>
      obtain ⟨r, hr, hdone⟩ := hready
      rcases Cluster.waiters_step hs hkeep hr hdone with hold | ⟨rfl, hslot, entry, happ⟩
      · exact hnot ⟨r, hold, hdone⟩
      · simp only [Cluster.notifies, happ, Option.elim_some, hslot, if_true] at hquiet
        exact hquiet (List.mem_singleton.mpr rfl)

/-- However the threads of all nodes are scheduled, a thread that is asleep has nothing to do:
an applier has applied all that is committed, a replicator leads and knows its peer to have the
whole log, one that backs off leads, and the slot of a handler is not filled. A commit index
that a peer has not been told of is not among the things a replicator wakes up for, although
`advanceCommit` notifies it: that goes out with the next heartbeat or the next entries. -/
theorem no_lost_wakeup {asleep : Set (Waiter N)} (hrun : SleepRun c asleep) :
    (∀ i, .applier i ∈ asleep → (c.raft i).stopping = false ∧
        (c.raft i).commitIndex ≤ (c.raft i).lastApplied) ∧
      (∀ i (peer : Fin N) leaderTerm, .replicator i peer leaderTerm ∈ asleep →
        (c.raft i).stopping = false ∧ (c.raft i).role = .leader ∧
        (c.raft i).currentTerm = leaderTerm ∧
        (c.raft i).lastLogIndex ≤ (c.raft i).matchIndex.getD peer 0) ∧
      (∀ i peer leaderTerm, .backoff i peer leaderTerm ∈ asleep →
        (c.raft i).stopping = false ∧ (c.raft i).role = .leader ∧
        (c.raft i).currentTerm = leaderTerm) ∧
      ∀ i parked, .handler i parked ∈ asleep →
        ∀ r, (c.processes i).waiters parked.index = some r → r.applied = false := by
  have hsleeps : ∀ w ∈ asleep, ¬ w.Ready c := by
    refine Monitor.System.Run.not_ready (S := waiting N) (fun hbefore hs _ w ↦ ?_) hrun
    obtain ⟨h, hsim⟩ := SleepRun.anyRun hbefore |>.exists_sim
    exact Waiter.announces hsim hs w
  refine ⟨fun i hi ↦ ?_, fun i peer leaderTerm hi ↦ ?_, fun i peer leaderTerm hi ↦ ?_,
    fun i parked hi r hr ↦ ?_⟩
  · simpa [Waiter.Ready] using hsleeps _ hi
  · obtain ⟨hactive, hshipped⟩ : ¬ (c.raft i).replicatorRetired leaderTerm ∧
        (c.raft i).lastLogIndex ≤ (c.raft i).matchIndex.getD peer 0 := by
      simpa [Waiter.Ready] using hsleeps _ hi
    obtain ⟨hrunning, hrole, hterm⟩ := RaftNode.active_iff.mp hactive
    exact ⟨hrunning, hrole, hterm, hshipped⟩
  · exact RaftNode.active_iff.mp (hsleeps _ hi)
  · have hnot := hsleeps _ hi
    cases hdone : r.applied with
    | false => rfl
    | true => exact absurd ⟨r, hr, hdone⟩ hnot

/-- A leader of two nodes has committed and applied its no-op, and its threads sleep. -/
theorem no_lost_wakeup_pair : ∃ (c : Cluster 2) (asleep : Set (Waiter 2)), SleepRun c asleep ∧
    .applier 0 ∈ asleep ∧ .replicator 0 1 1 ∈ asleep ∧ (c.raft 0).commitIndex = 1 ∧
    (c.raft 0).commitIndex ≤ (c.raft 0).lastApplied ∧
    (c.raft 0).lastLogIndex ≤ (c.raft 0).matchIndex.getD 1 0 := by
  obtain ⟨c, hrun, hcommit, happlier, happlied, hreplicator, hshipped⟩ : ∃ c : Cluster 2,
      AnyRun c ∧ (c.raft 0).commitIndex = 1 ∧ (c.processes 0).applying = none ∧
      ¬ ((c.raft 0).stopping = true ∨ (c.raft 0).lastApplied < (c.raft 0).commitIndex) ∧
      ⟨1, 1, none⟩ ∈ (c.processes 0).replicators ∧
      ¬ ((c.raft 0).replicatorRetired 1 ∨
        (c.raft 0).matchIndex.getD 1 0 < (c.raft 0).lastLogIndex) :=
    exists_run_of_play (by decide) (by decide)
      [.timeout 0, .deliverVote 0, .voteReply 0 0 0, .send 0 0, .deliverAppend 0,
        .appendReply 0 0 0, .fetch 0, .apply 0] (by decide +kernel)
  have hsleeps : SleepRun c {.replicator 0 1 1, .applier 0} := by
    have hfirst : SleepRun c {.applier 0} := by
      have hnext := hrun.awake.sleep (t := Waiter.applier 0) happlier happlied
      rwa [insert_empty_eq] at hnext
    exact hfirst.sleep (t := Waiter.replicator 0 1 1) hreplicator hshipped
  obtain ⟨hbusy, hships, -, -⟩ := no_lost_wakeup hsleeps
  exact ⟨c, _, hsleeps, by simp, by simp, hcommit, (hbusy 0 (by simp)).2,
    (hships 0 1 1 (by simp)).2.2.2⟩

end Dkvs
