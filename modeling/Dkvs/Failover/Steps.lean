import Dkvs.FrameLimit
import Dkvs.Physical.Wire
import Dkvs.Replication.Staffing

/-!
# Runs of a part of the cluster

A majority that is cut off from the other nodes has to get along on its own: its tickers,
threads and handlers run, the messages between its nodes arrive if they fit into a frame, and a
call that was under way before may time out. Nothing else fails. Here are these actions, and
what the steps of a run among such nodes leave in place.
-/

namespace Dkvs

open ReplicatedLog

variable {N : ℕ} {M : Finset (Fin N)} {c c' c'' : Cluster N} {h : History N} {i x y z : Fin N}
  {a : Action N} {n : RaftNode}

/-- The action involves only nodes of `M`, and it is none of the failures other than that of a
call. -/
def Cluster.Among (c : Cluster N) (M : Finset (Fin N)) : Action N → Prop
  | .timeout i | .execute i _ | .resume i _ | .fetch i | .apply i | .appendFailed i _ => i ∈ M
  | .send i k => i ∈ M ∧ ∀ r ∈ (c.processes i).replicators[k]?, r.peer ∈ M
  | .deliverVote k => ∀ q ∈ c.voteRequests[k]?, q.src ∈ M ∧ q.dst ∈ M
  | .deliverAppend k => ∀ q ∈ c.appendRequests[k]?, q.src ∈ M ∧ q.dst ∈ M ∧ q.args.Sendable
  | .voteReply i k _ => i ∈ M ∧ ∀ q ∈ (c.processes i).voteSenders[k]?, q.dst ∈ M
  | .appendReply i k _ => i ∈ M ∧ ∀ r ∈ (c.processes i).replicators[k]?, r.peer ∈ M
  | _ => False

/-- The state `c'` is reached from `c` by the nodes of `M` alone. -/
abbrev Path (M : Finset (Fin N)) (c c' : Cluster N) : Prop := Continues (fun c a ↦ c.Among M a) c c'

theorem Continues.trans {ok : Cluster N → Action N → Prop} (hc : Continues ok c c')
    (hc' : Continues ok c' c'') : Continues ok c c'' := by
  induction hc' with
  | refl => exact hc
  | step _ hok hs hb ih => exact .step ih hok hs hb

/-- One step, in which only process `i` changes. -/
theorem Path.single (hrun : AnyRun c) (hs : c.step a = some c') (ha : c.Among M a) (i : Fin N)
    (hother : ∀ x ≠ i, c'.processes x = c.processes x)
    (hterm : (c'.raft i).currentTerm < 2 ^ 64 - 1) : Path M c c' := by
  refine .step .refl ha hs fun x ↦ ?_
  by_cases hx : x = i
  · exact hx ▸ hterm
  · rw [Cluster.raft, hother x hx]
    exact hrun.termsBounded x

/-! ## Steps that end in an operation -/

theorem Cluster.voteReplyStep_self (c : Cluster N) (i : Fin N) (k j : ℕ) (q : VoteCall N)
    (reply : RequestVoteReply) : (c.voteReplyStep i k j q reply).processes i =
      { c.processes i with
        raft := { (c.raft i).onVoteReply q.args reply with effects := [] }
        storage := (c.processes i).storage.performAll
          ((c.raft i).onVoteReply q.args reply).effects
        voteSenders := (c.processes i).voteSenders.eraseIdx k ++
          ((c.raft i).onVoteReply q.args reply).effects.filterMap (Cluster.voteCallOf i)
        replicators := (c.processes i).replicators ++
          ((c.raft i).onVoteReply q.args reply).effects.filterMap Cluster.replicatorOf } := by
  simp [voteReplyStep, settle_self, dropVoteSender, updateProcess]

theorem Cluster.voteReplyStep_of_ne (c : Cluster N) (hx : x ≠ i) (k j : ℕ) (q : VoteCall N)
    (reply : RequestVoteReply) : (c.voteReplyStep i k j q reply).processes x = c.processes x := by
  simp [voteReplyStep, settle_of_ne _ hx, dropVoteSender, updateProcess, hx]

/-! ## The steps of a call -/

/-- The replicator sends its request. -/
theorem Path.send (hrun : AnyRun c) {k : ℕ} {r : Replicator N} {args : AppendEntriesArgs}
    (hsends : Sends c z k r args) (hz : z ∈ M) (hy : r.peer ∈ M) :
    ∃ c', Path M c c' ∧
      c'.processes z = { c.processes z with
        replicators := (c.processes z).replicators.set k
          { r with waiting := some ⟨c.nextCall, z, r.peer, args⟩ } } ∧
      (∀ x ≠ z, c'.processes x = c.processes x) ∧
      c'.appendRequests = c.appendRequests ++ [⟨c.nextCall, z, r.peer, args⟩] ∧
      c'.appendReplies = c.appendReplies := by
  let q : AppendCall N := ⟨c.nextCall, z, r.peer, args⟩
  let c₁ : Cluster N := { c.setReplicator z k { r with waiting := some q } with
    appendRequests := c.appendRequests ++ [q], nextCall := c.nextCall + 1 }
  have hs : c.step (.send z k) = some c₁ := by
    simp only [Cluster.step, hsends.thread, hsends.idle, Cluster.sendStep, hsends.active,
      hsends.request, Option.bind_eq_bind, Option.bind_some, Option.isSome_none, if_false]
    rfl
  have hself : c₁.processes z = { c.processes z with
      replicators := (c.processes z).replicators.set k { r with waiting := some q } } :=
    c.setProcess_self z _
  have hother : ∀ x ≠ z, c₁.processes x = c.processes x := fun x hx ↦ c.setProcess_of_ne hx _
  refine ⟨c₁, Path.single hrun hs ⟨hz, fun r' hr' ↦ ?_⟩ z hother ?_, hself, hother, rfl, rfl⟩
  · obtain rfl : r = r' := Option.some.inj (hsends.thread.symm.trans hr')
    exact hy
  · rw [Cluster.raft, hself]
    exact hrun.termsBounded z

/-- The peer takes the last request. -/
theorem Path.deliver (hrun : AnyRun c) {q : AppendCall N} {requests : List (AppendCall N)}
    (hlast : c.appendRequests = requests ++ [q]) (hsrc : q.src ∈ M) (hdst : q.dst ∈ M)
    (hsend : q.args.Sendable)
    (hb : ((c.raft q.dst).onAppendEntries q.args).1.currentTerm < 2 ^ 64 - 1) :
    ∃ c', Path M c c' ∧
      c'.raft q.dst = { ((c.raft q.dst).onAppendEntries q.args).1 with effects := [] } ∧
      (c'.processes q.dst).applying = (c.processes q.dst).applying ∧
      (∀ x ≠ q.dst, c'.processes x = c.processes x) ∧
      c'.appendReplies = c.appendReplies ++ [(q, ((c.raft q.dst).onAppendEntries q.args).2)] := by
  have hk : c.appendRequests[requests.length]? = some q := by simp [hlast]
  have hs : c.step (.deliverAppend requests.length) =
      some (c.deliverAppendStep requests.length q) := by
    simp [Cluster.step, hk]
  have hself : (c.deliverAppendStep requests.length q).raft q.dst =
      { ((c.raft q.dst).onAppendEntries q.args).1 with effects := [] } := by
    simp only [Cluster.deliverAppendStep, Cluster.consume, Cluster.raft, Cluster.settle_self]
  have happlying : ((c.deliverAppendStep requests.length q).processes q.dst).applying =
      (c.processes q.dst).applying := by
    simp only [Cluster.deliverAppendStep, Cluster.consume, Cluster.settle_self]
  have hother : ∀ x ≠ q.dst, (c.deliverAppendStep requests.length q).processes x =
      c.processes x :=
    fun x hx ↦ c.settle_of_ne hx _
  refine ⟨_, Path.single hrun hs (fun q' hq' ↦ ?_) q.dst hother (hself ▸ hb), hself, happlying,
    hother, rfl⟩
  obtain rfl : q = q' := Option.some.inj (hk.symm.trans hq')
  exact ⟨hsrc, hdst, hsend⟩

/-! ## The applier's side of a node -/

/-- The commit index lies inside the log, and the applier goes no further. -/
structure Process.Sound (p : Process N) : Prop where
  commit_le : p.raft.commitIndex ≤ p.raft.lastLogIndex
  applied_le : p.raft.lastApplied ≤ p.raft.commitIndex
  applying : ∀ {idx e}, p.applying = some (idx, e) →
    idx = p.raft.lastApplied + 1 ∧ idx ≤ p.raft.commitIndex

theorem NodeCommit.sound {events : List (Event N)} {p : Process N} (hcommit : NodeCommit events p) :
    p.Sound := by
  refine ⟨hcommit.commit_le, hcommit.applied_le, fun {idx e} happ ↦ ?_⟩
  obtain ⟨hidx, hget⟩ := hcommit.applying happ
  obtain ⟨hlt, -⟩ := List.getElem?_eq_some_iff.mp hget
  have hle : p.raft.committed.length ≤ p.raft.commitIndex := by
    rw [RaftNode.committed, List.length_take]
    exact min_le_left _ _
  exact ⟨hidx, by omega⟩

/-- An operation that only raises the commit index, and not beyond the log. -/
theorem Process.Sound.operate {p p' : Process N} (hsound : p.Sound) (hraises : Raises p.raft n)
    (hraft : p'.raft = { n with effects := [] }) (happlying : p'.applying = p.applying)
    (hle : n.commitIndex ≤ n.lastLogIndex) : p'.Sound := by
  have hcommit := hraises.commit_le
  have happlied := hraises.lastApplied
  have hbefore := hsound.applied_le
  refine ⟨?_, ?_, fun {idx e} happ ↦ ?_⟩
  · rw [hraft]
    exact hle
  · rw [hraft]
    show n.lastApplied ≤ n.commitIndex
    omega
  · rw [happlying] at happ
    obtain ⟨hidx, hin⟩ := hsound.applying happ
    rw [hraft]
    exact ⟨hidx.trans (congrArg Nat.succ happlied.symm), hin.trans hcommit⟩

end Dkvs
