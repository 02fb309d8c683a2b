import Dkvs.Commitment.Safety

/-!
# Senders that keep requests from overtaking

Whether a request overtakes its receiver depends on both ends, but the sender alone can
rule it out: a batch that reaches the leader's commit index never does. The limit on a
batch is the only thing that cuts it short of that, so it is enough that no leader sends to
a peer that is a whole batch behind what is committed.
-/

namespace Dkvs

variable {N : ℕ} {c c' : Cluster N} {a : Action N}

/-- A request is only sent if its batch reaches the commit index. -/
def Covering (c : Cluster N) : Action N → Prop
  | .send i k => ∀ r ∈ (c.processes i).replicators[k]?,
      (c.raft i).commitIndex < (c.raft i).nextIndex.getD r.peer 0 + kMaxBatch
  | _ => True

instance (c : Cluster N) (a : Action N) : Decidable (Covering c a) := by
  unfold Covering
  split
  · infer_instance
  · infer_instance

/-- The entries of a request reach the commit index it carries. -/
def AppendEntriesArgs.Covers (args : AppendEntriesArgs) : Prop :=
  args.leaderCommit ≤ args.prevLogIndex + args.entries.length

theorem AppendEntriesArgs.Covers.not_overtakes {args : AppendEntriesArgs} (hargs : args.Covers)
    (n leader : RaftNode) : ¬ n.Overtakes leader args := by
  rintro ⟨-, -, -, -, hbeyond, -⟩
  rw [Covers] at hargs
  omega

theorem RaftNode.covers_buildAppendEntries {n : RaftNode} {peer leaderTerm : ℕ}
    {args : AppendEntriesArgs} (hargs : n.buildAppendEntries peer leaderTerm = some args)
    (hcommit : n.commitIndex ≤ n.lastLogIndex)
    (hnear : n.commitIndex < n.nextIndex.getD peer 0 + kMaxBatch) : args.Covers := by
  unfold buildAppendEntries at hargs
  dsimp only at hargs
  split_ifs at hargs with hzero
  obtain ⟨previous, hprevious, rfl⟩ := Option.map_eq_some_iff.mp hargs
  obtain ⟨hlt, -⟩ := List.getElem?_eq_some_iff.mp hprevious
  rw [lastLogIndex] at hcommit
  simp only [AppendEntriesArgs.Covers, List.length_take, List.length_drop]
  omega

/-- Only a replicator that sends puts a request on the wire. -/
theorem Cluster.requests_of_not_send (hs : c.step a = some c') (ha : ∀ i k, a ≠ .send i k) :
    c'.appendRequests ⊆ c.appendRequests := by
  cases Cluster.outcome hs with
  | submit i command =>
      obtain ⟨-, hrequests, -⟩ := CallsStep.submitStep c i command
      exact hrequests ▸ List.Subset.refl _
  | execute i cmd =>
      obtain ⟨-, hrequests, -⟩ := CallsStep.submitStep c i cmd.encode
      unfold Cluster.executeStep
      dsimp only
      split_ifs with hleader
      · exact hrequests ▸ List.Subset.refl _
      · exact hrequests ▸ List.Subset.refl _
  | retire i k => exact absurd rfl (ha i k)
  | @send i k _ _ _ _ _ => exact absurd rfl (ha i k)
  | deliverAppend _ => exact List.eraseIdx_subset
  | @appendReply i k j r q reply _ _ _ =>
      unfold Cluster.appendReplyStep
      dsimp only
      split_ifs with hgoes
      · exact List.Subset.refl _
      · exact List.Subset.refl _
  | appendFailed i k r =>
      unfold Cluster.appendFailedStep
      split_ifs with hretired
      · exact List.Subset.refl _
      · exact List.Subset.refl _
  | @crashDuring b _ _ _ _ =>
      cases b with
      | deliverAppend k => exact List.eraseIdx_subset
      | _ => exact List.Subset.refl _
  | _ => exact List.Subset.refl _

/-- The requests on the wire reach their commit indices. -/
theorem Run.covers_requests (hrun : Run Covering c) :
    Run Vouched c ∧ ∀ q ∈ c.appendRequests, q.args.Covers := by
  induction hrun with
  | initial hpos hsize => exact ⟨.initial hpos hsize, by simp [Cluster.initial]⟩
  | @step c c' a _ hcovering hs hb ih =>
      obtain ⟨hrun, hwire⟩ := ih
      have hvouched : Vouched c a := by
        intro q hq
        cases a with
        | deliverAppend k => exact (hwire q (List.mem_of_getElem? hq)).not_overtakes _ _
        | _ => simp [Cluster.delivered] at hq
      refine ⟨.step hrun hvouched hs hb, fun q hq ↦ ?_⟩
      by_cases hsend : ∃ i k, a = .send i k
      · obtain ⟨i, k, rfl⟩ := hsend
        obtain ⟨h, -, hcom⟩ := hrun.exists_commitSim
        rcases Cluster.send_cases hs with rfl | ⟨r, args, hsends, rfl⟩
        · exact hwire q hq
        · rcases List.mem_append.mp hq with hold | hnew
          · exact hwire q hold
          · obtain rfl := List.mem_singleton.mp hnew
            exact RaftNode.covers_buildAppendEntries hsends.request (hcom.nodes i).commit_le
              (hcovering r hsends.thread)
      · exact hwire q (Cluster.requests_of_not_send hs (fun i k ha ↦ hsend ⟨i, k, ha⟩) hq)

/-- If leaders only send to peers that are less than a batch behind the commit index, then no
request ever overtakes its receiver. -/
theorem covering_run_vouched (hrun : Run Covering c) : Run Vouched c := hrun.covers_requests.1

/-- Two nodes commit a command, and the follower learns of it. -/
theorem covering_run_vouched_pair : ∃ c : Cluster 2, Run Covering c ∧ Run Vouched c ∧
    (c.raft 1).commitIndex = 2 := by
  obtain ⟨c, hrun, hcommit⟩ : ∃ c : Cluster 2, Run Covering c ∧ (c.raft 1).commitIndex = 2 :=
    exists_run_of_play (by decide) (by decide)
      [.timeout 0, .deliverVote 0, .voteReply 0 0 0, .submit 0 [7], .send 0 0, .deliverAppend 0,
        .appendReply 0 0 0, .send 0 0, .deliverAppend 0] (by decide +kernel)
  exact ⟨c, hrun, covering_run_vouched hrun, hcommit⟩

end Dkvs
