import Dkvs.Commitment.Index
import Dkvs.Moves
import Dkvs.Rpc

/-!
# The numbers in messages

A message is made from the state of the node that sends it: its term, its indices and
entries of its log. As long as the logs are short enough for a 64-bit index, everything
that is on its way fits the widths in which it is written.
-/

namespace Dkvs

open ReplicatedLog

variable {N : ℕ} {c c' : Cluster N} {h : History N} {i : Fin N} {n : RaftNode}

/-! ## Commit indices -/

namespace RaftNode

theorem advanceCommit_le (n : RaftNode) : n.advanceCommit.commitIndex = n.commitIndex ∨
    n.advanceCommit.commitIndex ≤ n.advanceCommit.lastLogIndex := by
  rcases n.advanceCommit_cases with hsame | ⟨-, m, hm, -, -, -, hmove⟩
  · exact Or.inl (by rw [hsame])
  · refine Or.inr ?_
    rw [hmove]
    exact hm

theorem becomeLeader_le (n : RaftNode) : n.becomeLeader.commitIndex = n.commitIndex ∨
    n.becomeLeader.commitIndex ≤ n.becomeLeader.lastLogIndex :=
  (n.takeOffice.push ⟨n.currentTerm, []⟩).countSelf.advanceCommit_le

end RaftNode

/-- An operation leaves the commit index or puts it inside the log. -/
theorem Operates.commit_le (hop : Operates c i n) (hlog : (c.raft i).log ≠ []) :
    n.commitIndex = (c.raft i).commitIndex ∨ n.commitIndex ≤ n.lastLogIndex := by
  cases hop with
  | startElection =>
      rcases (c.raft i).startElection_cases with hwon | hasks
      · rw [hwon]
        exact (c.raft i).stand.becomeLeader_le
      · rw [hasks]
        exact Or.inl rfl
  | submit command =>
      rcases (c.raft i).submit_cases command with ⟨hsame, -⟩ | ⟨-, hnode, -, -⟩
      · exact Or.inl (by rw [hsame])
      · rw [hnode]
        exact ((c.raft i).push ⟨(c.raft i).currentTerm, command⟩).countSelf.advanceCommit_le
  | @onRequestVote q hq hdst =>
      left
      rcases (c.raft i).onRequestVote_cases q.args with ⟨-, hsame, -⟩ | ⟨-, m, hm, hcases⟩
      · rw [hsame]
      · have hcommit : m.commitIndex = (c.raft i).commitIndex := by
          rw [hm]
          split_ifs with hlater
          · exact (c.raft i).becomeFollower_commitIndex q.args.term
          · rfl
        rcases hcases with ⟨hnode, -⟩ | ⟨-, -, hnode⟩
        · rw [hnode, hcommit]
        · rw [hnode, hcommit]
  | @onAppendEntries q hq hdst =>
      obtain ⟨-, hsame | ⟨-, -, -, -, -, hmin, -⟩⟩ := RaftNode.onAppendEntries_commit hlog q.args
      · exact Or.inl hsame
      · exact Or.inr (hmin ▸ min_le_right _ _)
  | @onVoteReply q reply hq hreply =>
      rcases (c.raft i).onVoteReply_cases q.args reply with hnode | ⟨-, hnode⟩ |
        ⟨-, -, -, ⟨-, hnode⟩ | ⟨-, hnode⟩⟩
      · exact Or.inl (by rw [hnode])
      · rw [hnode]
        exact Or.inl ((c.raft i).becomeFollower_commitIndex reply.term)
      · exact Or.inl (by rw [hnode])
      · rw [hnode]
        exact RaftNode.becomeLeader_le _
  | @onAppendReply r q reply hr hq hreply =>
      rcases (c.raft i).onAppendReply_cases r.peer r.leaderTerm q.args reply with hnode |
        ⟨-, hnode⟩ | ⟨-, -, ⟨-, next, hnode⟩ | ⟨next, hnode⟩⟩
      · exact Or.inl (by rw [hnode])
      · rw [hnode]
        exact Or.inl ((c.raft i).becomeFollower_commitIndex reply.term)
      · rw [hnode]
        exact RaftNode.advanceCommit_le _
      · exact Or.inl (by rw [hnode])

theorem Sim.commit_step (hsim : Sim c h) {a : Action N} (hs : c.step a = some c') (j : Fin N) :
    (c'.raft j).commitIndex = (c.raft j).commitIndex ∨
      (c'.raft j).commitIndex ≤ (c'.raft j).lastLogIndex := by
  obtain ⟨i, events, hmoves⟩ := Cluster.exists_moves hs
  by_cases hj : j = i
  · subst hj
    have hlog : (c.raft j).log ≠ [] := by simp [(hsim.tracks j).log]
    have hmove := hmoves.move
    unfold Cluster.raft
    generalize c'.processes j = p at hmove
    cases hmove with
    | operate hop _ _ _ _ => exact hop.commit_le hlog
    | @park cmd hleader _ _ _ => exact (Operates.submit cmd.encode).commit_le hlog
    | restart _ _ => exact Or.inr (Nat.zero_le _)
    | _ => exact Or.inl rfl
  · exact Or.inl (by rw [Cluster.raft, hmoves.other hj])

/-! ## Everything in flight -/

/-- No log is too long for a 64-bit index. -/
def Cluster.LogsBounded (c : Cluster N) : Prop := ∀ i, (c.raft i).log.length < 2 ^ 64

instance (c : Cluster N) : Decidable c.LogsBounded :=
  inferInstanceAs (Decidable (∀ i, (c.raft i).log.length < 2 ^ 64))

/-- Everything in flight fits the widths in which it is written. -/
structure Cluster.InRange (c : Cluster N) : Prop where
  voteRequests : ∀ q ∈ c.voteRequests, q.args.Ranged
  voteReplies : ∀ r ∈ c.voteReplies, r.2.term < 2 ^ 64
  appendRequests : ∀ q ∈ c.appendRequests, q.args.Ranged
  appendReplies : ∀ r ∈ c.appendReplies, r.2.Ranged
  commit : ∀ i, (c.raft i).commitIndex < 2 ^ 64

theorem Cluster.InRange.initial (N : ℕ) : (Cluster.initial N).InRange := by
  refine ⟨?_, ?_, ?_, ?_, fun _ ↦ Nat.two_pow_pos 64⟩
  all_goals simp [Cluster.initial]

theorem RaftNode.ranged_voteRequest {n : RaftNode} (hid : n.id < 2 ^ 32)
    (hlen : n.log.length < 2 ^ 64) (hfits : ∀ e ∈ n.log, e.term < 2 ^ 64) :
    n.stand.voteRequest.Ranged := by
  refine ⟨Nat.mod_lt _ (Nat.two_pow_pos 64), hid, ?_, ?_⟩
  · show n.log.length - 1 < 2 ^ 64
    omega
  · show (n.log.getLast?.getD sentinel).term < 2 ^ 64
    cases hlast : n.log.getLast? with
    | none => exact Nat.two_pow_pos 64
    | some e => exact hfits e (List.mem_of_getLast? hlast)

theorem RaftNode.ranged_buildAppendEntries {n : RaftNode} {peer leaderTerm : ℕ}
    {args : AppendEntriesArgs} (hargs : n.buildAppendEntries peer leaderTerm = some args)
    (hterm : leaderTerm < 2 ^ 64) (hid : n.id < 2 ^ 32) (hcommit : n.commitIndex < 2 ^ 64)
    (hlen : n.log.length < 2 ^ 64) (hfits : ∀ e ∈ n.log, e.Ranged) : args.Ranged := by
  unfold buildAppendEntries at hargs
  dsimp only at hargs
  split_ifs at hargs with hzero
  obtain ⟨previous, hget, rfl⟩ := Option.map_eq_some_iff.mp hargs
  obtain ⟨hlt, -⟩ := List.getElem?_eq_some_iff.mp hget
  refine ⟨hterm, hid, ?_, (hfits _ (List.mem_of_getElem? hget)).1, hcommit, ?_, fun e he ↦ ?_⟩
  · exact hlt.trans hlen
  · calc ((n.log.drop (n.nextIndex.getD peer 0)).take kMaxBatch).length ≤ kMaxBatch :=
          List.length_take_le _ _
      _ < 2 ^ 32 := by decide
  · exact hfits e (List.mem_of_mem_drop (List.mem_of_mem_take he))

theorem Cluster.InRange.step (hrange : c.InRange) (hsim : Sim c h) (hsize : N < 2 ^ 32)
    (hb : c.TermsBounded) (hlogs : c.LogsBounded) (hfits : ∀ i, ∀ e ∈ (c.raft i).log, e.Ranged)
    {a : Action N} (hs : c.step a = some c') (hlogs' : c'.LogsBounded) : c'.InRange := by
  have hvotes := hsim.votesStep hs
  have hcalls := Cluster.callsStep hs
  have hterm : ∀ i, (c.raft i).currentTerm < 2 ^ 64 := fun i ↦ (hb i).trans (by decide)
  have hid : ∀ i, (c.raft i).id < 2 ^ 32 := by
    intro i
    rw [(hsim.tracks i).id]
    exact i.isLt.trans hsize
  refine ⟨fun q hq ↦ ?_, fun r hr ↦ ?_, fun q hq ↦ ?_, fun r hr ↦ ?_, fun i ↦ ?_⟩
  · rcases hvotes.requests q hq with hold | ⟨-, hnew⟩
    · exact hrange.voteRequests q hold
    · rw [hnew]
      exact RaftNode.ranged_voteRequest (hid _) (hlogs _) fun e he ↦ (hfits _ e he).1
  · rcases hvotes.replies r hr with hold | ⟨hasked, hreply⟩
    · exact hrange.voteReplies r hold
    · have hle := (c.raft r.1.dst).onRequestVote_reply_term r.1.args
      rw [← hreply] at hle
      exact hle.trans_lt (max_lt (hterm _) (hrange.voteRequests _ hasked).1)
  · rcases hcalls.requests q hq with hold | ⟨-, i, k, r, args, hsends, rfl⟩
    · exact hrange.appendRequests q hold
    · have hactive := hsends.active
      simp only [RaftNode.replicatorRetired, not_or, not_not] at hactive
      exact RaftNode.ranged_buildAppendEntries hsends.request (hactive.2.2 ▸ hterm i) (hid i)
        (hrange.commit i) (hlogs i) (hfits i)
  · rcases hcalls.replies r hr with hold | ⟨hasked, hreply⟩
    · exact hrange.appendReplies r hold
    · have hlog : (c.raft r.1.dst).log ≠ [] := by simp [(hsim.tracks r.1.dst).log]
      obtain ⟨hle, hindex⟩ := RaftNode.onAppendEntries_reply hlog r.1.args
      have hargs := hrange.appendRequests _ hasked
      rw [← hreply] at hle hindex
      exact ⟨hle.trans_lt (max_lt (hterm _) hargs.1), hindex.trans_lt hargs.2.2.1⟩
  · rcases hsim.commit_step hs i with hsame | hle
    · rw [hsame]
      exact hrange.commit i
    · have hlen := hlogs' i
      rw [RaftNode.lastLogIndex] at hle
      omega

end Dkvs
