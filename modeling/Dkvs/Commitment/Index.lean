import Dkvs.Simulation.Step

/-!
# How an operation moves the commit index

A leader raises its commit index in `advanceCommit`, which is recorded. A
follower takes over the commit index of a request, bounded only by the end of
its own log; the request need not vouch for the entries up to there.
-/

namespace Dkvs

variable {N : ℕ} {n n' m : RaftNode}

/-- The operation leaves the commit index alone or raises it in
`advanceCommit`. -/
structure Raises (n n' : RaftNode) : Prop where
  lastApplied : n'.lastApplied = n.lastApplied
  commit : n'.commitIndex = n.commitIndex ∨
    n.commitIndex < n'.commitIndex ∧
      .advanceCommit n'.currentTerm n'.commitIndex n'.log.tail ∈ n'.effects

namespace Raises

theorem of_eq (hcommit : n'.commitIndex = n.commitIndex)
    (happlied : n'.lastApplied = n.lastApplied) : Raises n n' :=
  ⟨happlied, Or.inl hcommit⟩

theorem commit_le (hraises : Raises n n') : n.commitIndex ≤ n'.commitIndex := by
  rcases hraises.commit with hsame | ⟨hlt, -⟩
  · exact hsame.ge
  · exact hlt.le

theorem advanceCommit (hcommit : m.commitIndex = n.commitIndex)
    (happlied : m.lastApplied = n.lastApplied) : Raises n m.advanceCommit := by
  rcases m.advanceCommit_cases with hsame | ⟨-, k, -, hk, -, -, hmove⟩
  · rw [hsame]
    exact of_eq hcommit happlied
  · rw [hmove]
    exact ⟨happlied, Or.inr ⟨hcommit ▸ hk, by simp⟩⟩

theorem spawn (hraises : Raises n m) (threads : List Effect) : Raises n (m.spawn threads) := by
  refine ⟨hraises.lastApplied, ?_⟩
  rcases hraises.commit with hsame | ⟨hlt, hmem⟩
  · exact Or.inl hsame
  · exact Or.inr ⟨hlt, List.mem_append_left _ hmem⟩

theorem becomeLeader (hcommit : m.commitIndex = n.commitIndex)
    (happlied : m.lastApplied = n.lastApplied) : Raises n m.becomeLeader := by
  have hadvance : Raises n (m.takeOffice.push ⟨m.currentTerm, []⟩).countSelf.advanceCommit :=
    advanceCommit hcommit happlied
  exact hadvance.spawn _

theorem startElection (n : RaftNode) : Raises n n.startElection := by
  rw [RaftNode.startElection]
  split_ifs with hwon
  · exact becomeLeader rfl rfl
  · exact of_eq rfl rfl

theorem onVoteReply (n : RaftNode) (args : RequestVoteArgs) (reply : RequestVoteReply) :
    Raises n (n.onVoteReply args reply) := by
  rcases n.onVoteReply_cases args reply with hnode | ⟨-, hnode⟩ |
    ⟨-, -, -, ⟨-, hnode⟩ | ⟨-, hnode⟩⟩
  · exact of_eq (by rw [hnode]) (by rw [hnode])
  · exact of_eq (by simp [hnode]) (by simp [hnode])
  · exact of_eq (by rw [hnode]) (by rw [hnode])
  · rw [hnode]
    exact becomeLeader rfl rfl

theorem submit (n : RaftNode) (command : Bytes) : Raises n (n.submit command).1 := by
  rcases n.submit_cases command with ⟨hsame, -⟩ | ⟨-, hnode, -, -⟩
  · exact of_eq (by rw [hsame]) (by rw [hsame])
  · have hadvance : Raises n (n.push ⟨n.currentTerm, command⟩).countSelf.advanceCommit :=
      advanceCommit rfl rfl
    rw [hnode]
    exact hadvance.spawn _

theorem onRequestVote (n : RaftNode) (args : RequestVoteArgs) :
    Raises n (n.onRequestVote args).1 := by
  rcases n.onRequestVote_cases args with ⟨-, hsame, -⟩ | ⟨-, m, hm, hcases⟩
  · exact of_eq (by rw [hsame]) (by rw [hsame])
  · have hfirst : m.commitIndex = n.commitIndex ∧ m.lastApplied = n.lastApplied := by
      rw [hm]
      split_ifs with hlt
      · simp
      · simp
    rcases hcases with ⟨hnode, -⟩ | ⟨-, -, hnode⟩
    · rw [hnode]
      exact of_eq hfirst.1 hfirst.2
    · rw [hnode]
      exact of_eq hfirst.1 hfirst.2

theorem onAppendReply (n : RaftNode) (peer leaderTerm : ℕ) (args : AppendEntriesArgs)
    (reply : AppendEntriesReply) :
    Raises n (n.onAppendReply peer leaderTerm args reply).1 := by
  rcases n.onAppendReply_cases peer leaderTerm args reply with hnode | ⟨-, hnode⟩ |
    ⟨-, -, ⟨-, next, hnode⟩ | ⟨next, hnode⟩⟩
  · exact of_eq (by rw [hnode]) (by rw [hnode])
  · exact of_eq (by simp [hnode]) (by simp [hnode])
  · rw [hnode]
    exact advanceCommit rfl rfl
  · exact of_eq (by rw [hnode]) (by rw [hnode])

end Raises

namespace RaftNode

/-- The request is accepted as it stands, but the commit index taken over from it
lies beyond what it covers and what was committed before, at an entry that is not
of the term of the leader's entry there. -/
def Overtakes (n leader : RaftNode) (args : AppendEntriesArgs) : Prop :=
  n.currentTerm ≤ args.term ∧ args.prevLogIndex ≤ n.lastLogIndex ∧
    n.termAt args.prevLogIndex = args.prevLogTerm ∧
    n.MatchesUpTo (args.prevLogIndex + 1) args.entries args.entries.length ∧
    max n.commitIndex (args.prevLogIndex + args.entries.length) <
      min args.leaderCommit n.lastLogIndex ∧
    n.termAt (min args.leaderCommit n.lastLogIndex) ≠
      leader.termAt (min args.leaderCommit n.lastLogIndex)

instance (n leader : RaftNode) (args : AppendEntriesArgs) : Decidable (n.Overtakes leader args) :=
  inferInstanceAs (Decidable (_ ∧ _))

/-- The commit index after a request: unchanged, or the one of the request cut at
the end of the log. -/
theorem onAppendEntries_commit (hlog : n.log ≠ []) (args : AppendEntriesArgs) :
    (n.onAppendEntries args).1.lastApplied = n.lastApplied ∧
      ((n.onAppendEntries args).1.commitIndex = n.commitIndex ∨
        n.currentTerm ≤ args.term ∧ args.prevLogIndex ≤ n.lastLogIndex ∧
        n.termAt args.prevLogIndex = args.prevLogTerm ∧
        n.commitIndex < args.leaderCommit ∧
        (n.onAppendEntries args).1.currentTerm = args.term ∧
        (n.onAppendEntries args).1.commitIndex =
          min args.leaderCommit (n.onAppendEntries args).1.lastLogIndex ∧
        ((n.onAppendEntries args).1.log = n.log ∧
            n.MatchesUpTo (args.prevLogIndex + 1) args.entries args.entries.length ∨
          (n.onAppendEntries args).1.lastLogIndex =
            args.prevLogIndex + args.entries.length)) := by
  rcases n.onAppendEntries_cases args with ⟨-, hsame, -⟩ |
    ⟨hle, ⟨hheed, -⟩ | ⟨hprev, hmatch, hmerge⟩⟩
  · rw [hsame]
    exact ⟨rfl, Or.inl rfl⟩
  · rw [hheed, heed_eq hle]
    simp
  · have hlen := prevLogIndex_lt_heed hlog hprev
    have hheed := heed_commitIndex hle
    have happlied : (n.heed args).lastApplied = n.lastApplied := by simp [heed_eq hle]
    have hterm := heed_currentTerm hle
    obtain ⟨log, effects, hframe⟩ := (n.heed args).mergeEntries_frame args.entries
      (Nat.succ_pos args.prevLogIndex) hlen
    have hcases := (n.heed args).mergeEntries_length args.entries
      (Nat.succ_pos args.prevLogIndex) hlen
    rw [hmerge]
    unfold followCommit
    split_ifs with hlt
    · rw [hframe] at hlt hcases ⊢
      refine ⟨happlied, Or.inr ⟨hle, hprev, hmatch, hheed ▸ hlt, hterm, rfl, ?_⟩⟩
      rcases hcases with ⟨hsame, hupto⟩ | hend
      · refine Or.inl ⟨?_, ?_⟩
        · rw [← heed_log n args, ← hsame]
          rfl
        · simpa [MatchesUpTo, termAt] using hupto
      · refine Or.inr ?_
        simp only [lastLogIndex, emit] at hend ⊢
        omega
    · rw [hframe]
      exact ⟨happlied, Or.inl hheed⟩

end RaftNode

/-- The request that an action delivers to completion. -/
def Cluster.delivered (c : Cluster N) : Action N → Option (AppendCall N)
  | .deliverAppend k => c.appendRequests[k]?
  | _ => none

/-- No request that the action delivers overtakes its receiver. -/
def Vouched (c : Cluster N) (a : Action N) : Prop :=
  ∀ q ∈ c.delivered a, ¬ (c.raft q.dst).Overtakes (c.raft q.src) q.args

instance (c : Cluster N) (a : Action N) : Decidable (Vouched c a) :=
  inferInstanceAs (Decidable (∀ q ∈ c.delivered a, _))

end Dkvs
