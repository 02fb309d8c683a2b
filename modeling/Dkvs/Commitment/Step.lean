import Dkvs.Commitment.Invariant

/-!
# Committed prefixes along a run

Each action keeps the committed part of every log. The only action that needs
its side condition is the delivery of a request to a follower.
-/

namespace Dkvs

open ReplicatedLog

variable {N : ℕ} {h h' : History N} {c c' : Cluster N} {i x : Fin N}

namespace CommitSim

/-- What a node has committed stays in its log, whatever the cluster does. -/
theorem kept (hcom : CommitSim c h) (hsim : Sim c h) (hsim' : Sim c' h')
    (hsteps : NodeSteps x h h') (i : Fin N) :
    (c.raft i).committed <+: (c'.raft i).log.tail := by
  have hcert := (hcom.nodes i).certified
  have hterm : (c.processes i).raft.currentTerm = h.term i := (hsim.tracks i).term
  rw [hterm] at hcert
  have hpre : (c.raft i).committed <+: h.log i := by
    rw [RaftNode.committed, (hsim.tracks i).log, List.tail_cons]
    exact List.take_prefix _ _
  rw [(hsim'.tracks i).log, List.tail_cons]
  exact hcert.retained hsim hsteps hpre

theorem commit_le_last (hcom : CommitSim c h) (hsim : Sim c h) (hsim' : Sim c' h')
    (hsteps : NodeSteps x h h') (i : Fin N) :
    (c.raft i).commitIndex ≤ (c'.raft i).lastLogIndex := by
  have hle := (hcom.kept hsim hsim' hsteps i).length_le
  rw [RaftNode.length_committed (hcom.nodes i).commit_le, List.length_tail] at hle
  exact hle

theorem grown (hcom : CommitSim c h) (hsim : Sim c h) (hsim' : Sim c' h')
    (hsteps : NodeSteps x h h') (hle : (c.raft i).commitIndex ≤ (c'.raft i).commitIndex) :
    (c.raft i).committed <+: (c'.raft i).committed := by
  rw [RaftNode.committed, RaftNode.committed, List.prefix_take_iff]
  refine ⟨hcom.kept hsim hsim' hsteps i, ?_⟩
  exact (List.length_take_le _ _).trans hle

/-- The applier's side of a process is as before. -/
def SameApplier (p p' : Process N) : Prop :=
  p'.applying = p.applying ∧ p'.store = p.store ∧
    ∀ {k r}, p'.waiters (k + 1) = some r → r.applied = true → p.waiters (k + 1) = some r

theorem SameApplier.of_eq {p p' : Process N} (happlying : p'.applying = p.applying)
    (hstore : p'.store = p.store) (hwaiters : p'.waiters = p.waiters) : SameApplier p p' :=
  ⟨happlying, hstore, fun hr _ ↦ hwaiters ▸ hr⟩

theorem node_unmoved (hcom : CommitSim c h) (hsim : Sim c h) (hsim' : Sim c' h')
    (hsteps : NodeSteps x h h') (hsub : c.trace ⊆ c'.trace)
    (hcommit : (c'.raft i).commitIndex = (c.raft i).commitIndex)
    (happlied : (c'.raft i).lastApplied = (c.raft i).lastApplied)
    (hsame : SameApplier (c.processes i) (c'.processes i)) :
    NodeCommit c'.trace (c'.processes i) := by
  have hnode := hcom.nodes i
  have hlast := hcom.commit_le_last hsim hsim' hsteps i
  have hgrown := hcom.grown hsim hsim' hsteps hcommit.ge
  have hlen : (c'.raft i).commitIndex ≤ (c'.raft i).lastLogIndex := by omega
  have heq : (c'.raft i).committed = (c.raft i).committed := by
    refine (hgrown.eq_of_length ?_).symm
    rw [RaftNode.length_committed hlen, RaftNode.length_committed hnode.commit_le, hcommit]
  refine hnode.transfer hgrown hlen happlied ?_ hsame.1 hsame.2.1 hsame.2.2
  have hcert := hnode.certified.mono hsub (hsim.term_mono hsim' hsteps i)
  exact heq ▸ hcert

/-- The leader's commit rule. -/
theorem node_raised (hcom : CommitSim c h) (hsim : Sim c h) (hsim' : Sim c' h')
    (hsteps : NodeSteps x h h') (hsub : c.trace ⊆ c'.trace) {n : RaftNode}
    (hraises : Raises (c.raft i) n) (hraft : (c'.processes i).raft = { n with effects := [] })
    (hevents : n.effects.filterMap (Cluster.eventOf i) ⊆ c'.trace)
    (hsame : SameApplier (c.processes i) (c'.processes i)) :
    NodeCommit c'.trace (c'.processes i) := by
  have hraft' : c'.raft i = { n with effects := [] } := hraft
  rcases hraises.commit with hcommit | ⟨hlt, hmem⟩
  · exact hcom.node_unmoved hsim hsim' hsteps hsub (by rw [hraft', hcommit])
      (by rw [hraft', hraises.lastApplied]) hsame
  · have hevent : .advanceCommit i n.currentTerm n.commitIndex n.log.tail ∈ c'.trace :=
      hevents (List.mem_filterMap.mpr ⟨_, hmem, rfl⟩)
    have hlen : (c'.raft i).commitIndex ≤ (c'.raft i).lastLogIndex := by
      obtain ⟨-, -, hle, -⟩ := hsim'.trace.events _ hevent
      rw [hraft']
      simpa [RaftNode.lastLogIndex] using hle
    have hgrown := hcom.grown hsim hsim' hsteps (i := i) (by rw [hraft']; exact hlt.le)
    refine (hcom.nodes i).transfer hgrown hlen (by rw [hraft, hraises.lastApplied]) ?_
      hsame.1 hsame.2.1 hsame.2.2
    rw [hraft]
    exact Or.inr ⟨i, n.currentTerm, n.commitIndex, n.log.tail, hevent, le_rfl, List.prefix_rfl⟩

/-- A request that does not overtake its receiver moves the commit index only
within the sender's log. -/
theorem agree_followed (hcom : CommitSim c h) (hsim : Sim c h) {q : AppendCall N}
    (hq : q ∈ c.appendRequests) (hvouched : ¬ (c.raft q.dst).Overtakes (c.raft q.src) q.args)
    (hcommit : (c.raft q.dst).commitIndex <
      ((c.raft q.dst).onAppendEntries q.args).1.commitIndex) :
    let n := ((c.raft q.dst).onAppendEntries q.args).1
    n.currentTerm = q.args.term ∧ n.commitIndex ≤ q.args.leaderCommit ∧
      n.commitIndex ≤ n.lastLogIndex ∧
      n.committed = (h.chronicle q.args.term).take n.commitIndex := by
  have ht := hsim.tracks q.dst
  have hok := hsim.wire.appendRequests q hq
  have hlog : (c.raft q.dst).log ≠ [] := by simp [ht.log]
  obtain ⟨-, hsame | ⟨hle, hprev, hmatch, hlt, hterm, hmin, hcases⟩⟩ :=
    RaftNode.onAppendEntries_commit hlog q.args
  · omega
  · have hagree := ht.agree_accepted hsim.reach hok hle hprev hmatch
    refine ⟨hterm, by omega, by omega, ?_⟩
    by_cases hcover : ((c.raft q.dst).onAppendEntries q.args).1.commitIndex ≤
        q.args.prevLogIndex + q.args.entries.length
    · exact take_eq_of_le hagree hcover
    · obtain ⟨hunchanged, hupto⟩ : ((c.raft q.dst).onAppendEntries q.args).1.log =
          (c.raft q.dst).log ∧ (c.raft q.dst).MatchesUpTo (q.args.prevLogIndex + 1)
            q.args.entries q.args.entries.length := by
        rcases hcases with hunchanged | hend
        · exact hunchanged
        · omega
      have hlast : ((c.raft q.dst).onAppendEntries q.args).1.commitIndex =
          min q.args.leaderCommit (c.raft q.dst).lastLogIndex := by
        rw [hmin, RaftNode.lastLogIndex, RaftNode.lastLogIndex, hunchanged]
      have hown : (c.raft q.dst).termAt
          ((c.raft q.dst).onAppendEntries q.args).1.commitIndex =
            (c.raft q.src).termAt ((c.raft q.dst).onAppendEntries q.args).1.commitIndex := by
        by_contra hne
        refine hvouched ⟨hle, hprev, hmatch, hupto, ?_, hlast ▸ hne⟩
        rw [← hlast]
        exact max_lt hcommit (by omega)
      obtain ⟨k, hk⟩ := Nat.exists_eq_succ_of_ne_zero
        (show ((c.raft q.dst).onAppendEntries q.args).1.commitIndex ≠ 0 by omega)
      have hin : k < (h.log q.dst).length := by
        rw [← ht.lastLogIndex]
        omega
      have hget := List.getElem?_eq_getElem hin
      -- the sender has kept its entry there, and entries of one term agree up to them
      obtain ⟨hlength, -, -, hkept⟩ := hcom.requests q hq
      have hlead : k < q.args.leaderCommit := by omega
      have hchron := List.getElem?_eq_getElem (hlead.trans_le hlength)
      have hsrc := getElem?_of_isPrefix hkept ((List.getElem?_take_of_lt hlead).trans hchron)
      have hsound := (Invariant.of_reachable hsim.reach).log.log_sound
      rw [hk, ht.termAt_succ hget, (hsim.tracks q.src).termAt_succ hsrc] at hown
      rw [RaftNode.committed, hunchanged, ht.log, List.tail_cons, hk,
        (hsound q.dst).agree (hsound q.src) hget hsrc hown]
      exact take_eq_of_le (take_eq_of_take_isPrefix hkept hlength) hlead

/-- The follower's commit rule. -/
theorem node_followed (hcom : CommitSim c h) (hsim : Sim c h) (hsim' : Sim c' h')
    (hsteps : NodeSteps x h h') (hsub : c.trace ⊆ c'.trace) {q : AppendCall N}
    (hq : q ∈ c.appendRequests) (hvouched : ¬ (c.raft q.dst).Overtakes (c.raft q.src) q.args)
    (hraft : (c'.processes q.dst).raft =
      { ((c.raft q.dst).onAppendEntries q.args).1 with effects := [] })
    (hsame : SameApplier (c.processes q.dst) (c'.processes q.dst)) :
    NodeCommit c'.trace (c'.processes q.dst) := by
  have hraft' : c'.raft q.dst =
      { ((c.raft q.dst).onAppendEntries q.args).1 with effects := [] } := hraft
  have hlog : (c.raft q.dst).log ≠ [] := by simp [(hsim.tracks q.dst).log]
  obtain ⟨happlied, hcases⟩ := RaftNode.onAppendEntries_commit hlog q.args
  have hlast := hcom.commit_le_last hsim hsim' hsteps q.dst
  by_cases hmoved : (c.raft q.dst).commitIndex <
      ((c.raft q.dst).onAppendEntries q.args).1.commitIndex
  · obtain ⟨hterm, hlead, hlen, hagree⟩ := hcom.agree_followed hsim hq hvouched hmoved
    have hgrown := hcom.grown hsim hsim' hsteps (i := q.dst)
      (by rw [hraft']; exact hmoved.le)
    refine (hcom.nodes q.dst).transfer hgrown (by rw [hraft]; exact hlen)
      (by rw [hraft, happlied]) ?_ hsame.1 hsame.2.1 hsame.2.2
    have hcert := ((hcom.requests q hq).certified.mono hsub (le_refl _)).of_isPrefix
      (List.take_prefix_take_left hlead)
    rw [hraft]
    rw [← hagree] at hcert
    exact hcert.mono (List.Subset.refl _) hterm.ge
  · refine hcom.node_unmoved hsim hsim' hsteps hsub ?_ (by rw [hraft', happlied]) hsame
    rw [hraft'] at hlast ⊢
    rcases hcases with hcommit | ⟨-, -, -, hlt, -, hmin, -⟩
    · exact hcommit
    · have hbound : (c.raft q.dst).commitIndex ≤
          ((c.raft q.dst).onAppendEntries q.args).1.lastLogIndex := hlast
      show ((c.raft q.dst).onAppendEntries q.args).1.commitIndex = _
      omega

/-- A step changes one process, and what is new in it is certified. -/
theorem assemble (hcom : CommitSim c h) (hsim : Sim c h) (hsteps : NodeSteps x h h')
    (hsub : c.trace ⊆ c'.trace) (hother : ∀ j, j ≠ i → c'.processes j = c.processes j)
    (hnode : NodeCommit c'.trace (c'.processes i))
    (hrequests : ∀ q ∈ c'.appendRequests, q ∈ c.appendRequests ∨ RequestCert c'.trace h' q)
    (hevents : ∀ e ∈ c'.trace, e ∈ c.trace ∨ EventCert c'.trace e) : CommitSim c' h' := by
  refine ⟨fun j ↦ ?_, fun q hq ↦ ?_, fun e he ↦ ?_⟩
  · by_cases hj : j = i
    · exact hj ▸ hnode
    · rw [hother j hj]
      exact (hcom.nodes j).mono hsub
  · rcases hrequests q hq with hold | hnew
    · exact (hcom.requests q hold).steps hsim hsteps hsub (hsim.wire.appendRequests q hold).leader
    · exact hnew
  · rcases hevents e he with hold | hnew
    · exact (hcom.events e hold).mono hsub
    · exact hnew

theorem eventCert_eventOf {events : List (Event N)} {es : List Effect} {e : Event N}
    (he : e ∈ es.filterMap (Cluster.eventOf i)) : EventCert events e := by
  obtain ⟨effect, -, heq⟩ := List.mem_filterMap.mp he
  cases effect with
  | becomeLeader term log =>
      obtain rfl : Event.becomeLeader i term log = e := by simpa [Cluster.eventOf] using heq
      trivial
  | advanceCommit term index log =>
      obtain rfl : Event.advanceCommit i term index log = e := by
        simpa [Cluster.eventOf] using heq
      trivial
  | _ => simp [Cluster.eventOf] at heq

/-- An operation of node `i` that follows the leader's commit rule. -/
theorem raised (hcom : CommitSim c h) (hsim : Sim c h) (hsim' : Sim c' h')
    (hsteps : NodeSteps x h h') {n : RaftNode} (new : List (Event N))
    (hraises : Raises (c.raft i) n) (hraft : (c'.processes i).raft = { n with effects := [] })
    (hsame : SameApplier (c.processes i) (c'.processes i))
    (hother : ∀ j, j ≠ i → c'.processes j = c.processes j)
    (htrace : c'.trace = c.trace ++ n.effects.filterMap (Cluster.eventOf i) ++ new)
    (hnew : ∀ e ∈ new, EventCert c'.trace e) (hreq : c'.appendRequests ⊆ c.appendRequests) :
    CommitSim c' h' := by
  have hsub : c.trace ⊆ c'.trace := by
    rw [htrace, List.append_assoc]
    exact List.subset_append_left _ _
  refine hcom.assemble hsim hsteps hsub hother ?_ (fun q hq ↦ Or.inl (hreq hq)) fun e he ↦ ?_
  · refine hcom.node_raised hsim hsim' hsteps hsub hraises hraft ?_ hsame
    intro e he
    rw [htrace]
    exact List.mem_append_left _ (List.mem_append_right _ he)
  · rw [htrace] at he
    rcases List.mem_append.mp he with he | he
    · rcases List.mem_append.mp he with he | he
      · exact Or.inl he
      · exact Or.inr (eventCert_eventOf he)
    · exact Or.inr (hnew e he)

/-- A step that leaves every Raft node, the requests and the applier alone. -/
theorem quiet (hcom : CommitSim c h) (hsim : Sim c h) (hsim' : Sim c' h')
    (hsteps : NodeSteps x h h')
    (hcommit : (c'.raft i).commitIndex = (c.raft i).commitIndex)
    (happlied : (c'.raft i).lastApplied = (c.raft i).lastApplied)
    (hsame : SameApplier (c.processes i) (c'.processes i))
    (hother : ∀ j, j ≠ i → c'.processes j = c.processes j) (htrace : c'.trace = c.trace)
    (hreq : ∀ q ∈ c'.appendRequests, q ∈ c.appendRequests ∨ RequestCert c'.trace h' q) :
    CommitSim c' h' := by
  have hsub : c.trace ⊆ c'.trace := by rw [htrace]; exact List.Subset.refl _
  refine hcom.assemble hsim hsteps hsub hother
    (hcom.node_unmoved hsim hsim' hsteps hsub hcommit happlied hsame) hreq fun e he ↦ ?_
  exact Or.inl (htrace ▸ he)

theorem restart (hcom : CommitSim c h) (hsim : Sim c h) (hsteps : NodeSteps x h h')
    (es : List Effect) : CommitSim (c.restart i es) h' := by
  have hsub : c.trace ⊆ (c.restart i es).trace := List.subset_append_left _ _
  refine hcom.assemble (i := i) hsim hsteps hsub (fun j hj ↦ ?_) ?_ (fun q hq ↦ Or.inl hq)
    fun e he ↦ ?_
  · simp [Cluster.restart, Cluster.record, hj]
  · simpa [Cluster.restart, Cluster.record] using NodeCommit.boot _ i _
  · rcases List.mem_append.mp he with he | he
    · exact Or.inl he
    · exact Or.inr (eventCert_eventOf he)

theorem submitStep_eq (c : Cluster N) (i : Fin N) (command : Bytes) :
    ∃ new, (∀ events, ∀ e ∈ new, EventCert events e) ∧
      c.submitStep i command = (c.settle i ((c.raft i).submit command).1).record new := by
  unfold Cluster.submitStep
  dsimp only
  split_ifs with hleader
  · exact ⟨_, by simp [EventCert], rfl⟩
  · exact ⟨[], by simp, by simp⟩

theorem submitStep (hcom : CommitSim c h) (hsim : Sim c h) {command : Bytes}
    (hsim' : Sim (c.submitStep i command) h') (hsteps : NodeSteps x h h') :
    CommitSim (c.submitStep i command) h' := by
  obtain ⟨new, hnew, heq⟩ := submitStep_eq c i command
  rw [heq] at hsim' ⊢
  refine hcom.raised (i := i) hsim hsim' hsteps new (Raises.submit _ command) ?_ ?_ (fun j hj ↦ ?_)
    rfl (hnew _) (List.Subset.refl _)
  · simp [Cluster.record, Cluster.settle_self]
  · apply SameApplier.of_eq <;> simp [Cluster.record, Cluster.settle_self]
  · simp [Cluster.record, Cluster.settle_of_ne _ hj]

theorem executeStep (hcom : CommitSim c h) (hsim : Sim c h) {cmd : Command}
    (hsim' : Sim (c.executeStep i cmd) h') (hsteps : NodeSteps x h h') :
    CommitSim (c.executeStep i cmd) h' := by
  obtain ⟨new, hnew, heq⟩ := submitStep_eq c i cmd.encode
  unfold Cluster.executeStep at hsim' ⊢
  dsimp only at hsim' ⊢
  rw [heq] at hsim' ⊢
  split_ifs at hsim' ⊢ with hleader
  · refine hcom.raised (i := i) hsim hsim' hsteps new (Raises.submit _ cmd.encode) ?_ ?_
      (fun j hj ↦ ?_) rfl (hnew _) (List.Subset.refl _)
    · simp [Cluster.updateProcess, Cluster.record, Cluster.settle_self]
    · refine ⟨?_, ?_, fun {k r} hr hdone ↦ ?_⟩
      · simp [Cluster.updateProcess, Cluster.record, Cluster.settle_self]
      · simp [Cluster.updateProcess, Cluster.record, Cluster.settle_self]
      · simp only [Cluster.updateProcess, Cluster.record, Cluster.setProcess_self,
          Cluster.settle_self] at hr
        exact emplaceWaiter_applied hr hdone
    · simp [Cluster.updateProcess, Cluster.record, Cluster.settle_of_ne _ hj, hj]
  · refine hcom.raised (i := i) hsim hsim' hsteps
      (new ++ [.refused i cmd (refuse i N ((c.raft i).submit cmd.encode).2)])
      (Raises.submit _ cmd.encode) ?_ ?_ (fun j hj ↦ ?_) ?_ ?_ (List.Subset.refl _)
    · simp [Cluster.record, Cluster.settle_self]
    · apply SameApplier.of_eq <;> simp [Cluster.record, Cluster.settle_self]
    · simp [Cluster.record, Cluster.settle_of_ne _ hj]
    · simp [Cluster.record]
    · intro e he
      rcases List.mem_append.mp he with he | he
      · exact hnew _ e he
      · obtain rfl := List.mem_singleton.mp he
        trivial

theorem timeout (hcom : CommitSim c h) (hsim : Sim c h)
    (hsim' : Sim (c.settle i (c.raft i).startElection) h') (hsteps : NodeSteps x h h') :
    CommitSim (c.settle i (c.raft i).startElection) h' := by
  refine hcom.raised (i := i) hsim hsim' hsteps [] (Raises.startElection _) ?_ ?_
    (fun j hj ↦ ?_) (by simp) (by simp) (List.Subset.refl _)
  · simp [Cluster.settle_self]
  · apply SameApplier.of_eq <;> simp [Cluster.settle_self]
  · simp [Cluster.settle_of_ne _ hj]

theorem deliverVoteStep (hcom : CommitSim c h) (hsim : Sim c h) {k : ℕ} {q : VoteCall N}
    (hsim' : Sim (c.deliverVoteStep k q) h') (hsteps : NodeSteps x h h') :
    CommitSim (c.deliverVoteStep k q) h' := by
  refine hcom.raised (i := q.dst) hsim hsim' hsteps [] (Raises.onRequestVote _ q.args)
    ?_ ?_ (fun j hj ↦ ?_) (by simp [Cluster.deliverVoteStep, Cluster.consume]) (by simp)
    (List.Subset.refl _)
  · simp [Cluster.deliverVoteStep, Cluster.consume, Cluster.settle_self]
  · apply SameApplier.of_eq <;>
      simp [Cluster.deliverVoteStep, Cluster.consume, Cluster.settle_self]
  · simp [Cluster.deliverVoteStep, Cluster.consume, Cluster.settle_of_ne _ hj]

theorem voteReplyStep (hcom : CommitSim c h) (hsim : Sim c h) {k j : ℕ} {q : VoteCall N}
    {reply : RequestVoteReply} (hsim' : Sim (c.voteReplyStep i k j q reply) h')
    (hsteps : NodeSteps x h h') : CommitSim (c.voteReplyStep i k j q reply) h' := by
  refine hcom.raised (i := i) hsim hsim' hsteps [] (Raises.onVoteReply _ q.args reply)
    ?_ ?_ (fun y hy ↦ ?_) ?_ (by simp) (List.Subset.refl _)
  · simp [Cluster.voteReplyStep, Cluster.settle_self]
  · apply SameApplier.of_eq <;>
      simp [Cluster.voteReplyStep, Cluster.settle_self, Cluster.dropVoteSender,
        Cluster.updateProcess]
  · simp [Cluster.voteReplyStep, Cluster.settle_of_ne _ hy, Cluster.dropVoteSender,
      Cluster.updateProcess, hy]
  · simp [Cluster.voteReplyStep, Cluster.dropVoteSender, Cluster.updateProcess,
      Cluster.setProcess]

theorem appendReplyStep (hcom : CommitSim c h) (hsim : Sim c h) {k j : ℕ} {r : Replicator N}
    {q : AppendCall N} {reply : AppendEntriesReply}
    (hsim' : Sim (c.appendReplyStep i k j r q reply) h') (hsteps : NodeSteps x h h') :
    CommitSim (c.appendReplyStep i k j r q reply) h' := by
  have hbase : ∃ replicators, (if ((c.raft i).onAppendReply r.peer r.leaderTerm q.args reply).2
      then c.setReplicator i k { r with waiting := none } else c.dropReplicator i k) =
        c.setProcess i { c.processes i with replicators := replicators } := by
    split_ifs with hgoes
    · exact ⟨_, rfl⟩
    · exact ⟨_, rfl⟩
  obtain ⟨replicators, hbase⟩ := hbase
  unfold Cluster.appendReplyStep at hsim' ⊢
  dsimp only at hsim' ⊢
  rw [hbase] at hsim' ⊢
  refine hcom.raised (i := i) hsim hsim' hsteps []
    (Raises.onAppendReply _ r.peer r.leaderTerm q.args reply) ?_ ?_ (fun y hy ↦ ?_) ?_ (by simp)
    (List.Subset.refl _)
  · simp [Cluster.settle_self]
  · apply SameApplier.of_eq <;> simp [Cluster.settle_self]
  · simp [Cluster.settle_of_ne _ hy, hy]
  · simp [Cluster.setProcess]

theorem deliverAppendStep (hcom : CommitSim c h) (hsim : Sim c h) {k : ℕ} {q : AppendCall N}
    (hq : q ∈ c.appendRequests) (hvouched : ¬ (c.raft q.dst).Overtakes (c.raft q.src) q.args)
    (hsim' : Sim (c.deliverAppendStep k q) h') (hsteps : NodeSteps x h h') :
    CommitSim (c.deliverAppendStep k q) h' := by
  have hsub : c.trace ⊆ (c.deliverAppendStep k q).trace := List.subset_append_left _ _
  refine hcom.assemble (i := q.dst) hsim hsteps hsub (fun j hj ↦ ?_) ?_
    (fun q' hq' ↦ Or.inl (List.eraseIdx_subset hq')) fun e he ↦ ?_
  · simp [Cluster.deliverAppendStep, Cluster.consume, Cluster.settle_of_ne _ hj]
  · refine hcom.node_followed hsim hsim' hsteps hsub hq hvouched ?_ ?_
    · simp [Cluster.deliverAppendStep, Cluster.consume, Cluster.settle_self]
    · apply SameApplier.of_eq <;>
        simp [Cluster.deliverAppendStep, Cluster.consume, Cluster.settle_self]
  · rcases List.mem_append.mp he with he | he
    · exact Or.inl he
    · exact Or.inr (eventCert_eventOf he)

/-- A change of process `i` outside Raft and the applier. -/
theorem setProcess (hcom : CommitSim c h) (hsim : Sim c h) {p : Process N}
    (hsim' : Sim (c.setProcess i p) h') (hsteps : NodeSteps x h h')
    (hcommit : p.raft.commitIndex = (c.raft i).commitIndex)
    (happlied : p.raft.lastApplied = (c.raft i).lastApplied)
    (hsame : SameApplier (c.processes i) p) : CommitSim (c.setProcess i p) h' := by
  refine hcom.quiet (i := i) hsim hsim' hsteps ?_ ?_ ?_ (fun j hj ↦ ?_) rfl
    fun q hq ↦ Or.inl hq
  · simpa [Cluster.raft] using hcommit
  · simpa [Cluster.raft] using happlied
  · simpa using hsame
  · simp [hj]

theorem send (hcom : CommitSim c h) (hsim : Sim c h) {k : ℕ} {r : Replicator N}
    {args : AppendEntriesArgs} (hrole : (c.raft i).role = .leader)
    (hcur : (c.raft i).currentTerm = r.leaderTerm)
    (hargs : (c.raft i).buildAppendEntries r.peer r.leaderTerm = some args)
    (hsim' : Sim { c.setReplicator i k
      { r with waiting := some ⟨c.nextCall, i, r.peer, args⟩ } with
        appendRequests := c.appendRequests ++ [⟨c.nextCall, i, r.peer, args⟩]
        nextCall := c.nextCall + 1 } h') (hsteps : NodeSteps x h h') :
    CommitSim { c.setReplicator i k
      { r with waiting := some ⟨c.nextCall, i, r.peer, args⟩ } with
        appendRequests := c.appendRequests ++ [⟨c.nextCall, i, r.peer, args⟩]
        nextCall := c.nextCall + 1 } h' := by
  have ht := hsim.tracks i
  obtain ⟨hok, hterm⟩ := ht.buildAppendEntries hrole hcur hargs
  obtain ⟨-, hlog, -⟩ := ht.leads hrole
  have hlead : args.leaderCommit = (c.raft i).commitIndex := by
    unfold RaftNode.buildAppendEntries at hargs
    dsimp only at hargs
    split_ifs at hargs with hzero
    obtain ⟨previous, -, rfl⟩ := Option.map_eq_some_iff.mp hargs
    rfl
  have hchron : h.chronicle args.term = (c.raft i).log.tail := by
    rw [hterm, ← hcur, ht.term, ← hlog, ht.log, List.tail_cons]
  refine hcom.quiet (i := i) hsim hsim' hsteps ?_ ?_ ?_ (fun j hj ↦ ?_) rfl fun q hq ↦ ?_
  · simp [Cluster.raft, Cluster.setReplicator, Cluster.updateProcess]
  · simp [Cluster.raft, Cluster.setReplicator, Cluster.updateProcess]
  · apply SameApplier.of_eq <;> simp [Cluster.setReplicator, Cluster.updateProcess]
  · simp [Cluster.setReplicator, Cluster.updateProcess, hj]
  · rcases List.mem_append.mp hq with hq | hq
    · exact Or.inl hq
    · obtain rfl := List.mem_singleton.mp hq
      refine Or.inr (RequestCert.steps ⟨?_, ?_, ?_, ?_⟩ hsim hsteps (List.Subset.refl _) hok.leader)
      · have hle := (hcom.nodes i).commit_le
        rw [hchron, hlead, List.length_tail]
        exact hle
      · rw [hchron, hlead, hterm, ← hcur]
        exact (hcom.nodes i).certified
      · rw [hterm, ← hcur, ht.term]
      · rw [hchron, ht.log, List.tail_cons]
        exact List.take_prefix _ _

/-- A filled slot of the table of waiters stands for a committed entry. -/
theorem slot_committed (hcom : CommitSim c h) {k : ℕ} {r : PendingResult}
    (hr : (c.processes i).waiters (k + 1) = some r) (hdone : r.applied = true) :
    ∃ e, Committed c.trace (k + 1) e ∧ e.term = r.appliedTerm ∧
      (c.raft i).log.tail[k]? = some e := by
  obtain ⟨e, hget, hterm⟩ := (hcom.nodes i).waiters hr hdone
  have hcommitted := getElem?_of_isPrefix (List.take_prefix _ _) hget
  exact ⟨e, (hcom.nodes i).certified.committed hcommitted, hterm,
    getElem?_of_isPrefix (List.take_prefix _ _) hcommitted⟩

theorem answer_cert (hcom : CommitSim c h) (hsim : Sim c h) {handler : Handler}
    (hmem : handler ∈ (c.processes i).handlers) :
    EventCert c.trace (.answered i handler
      (resume (c.processes i).stopping (c.processes i).waiters handler).1) := by
  obtain ⟨hpos, -, hchron⟩ := (hsim.nodes i).handlers handler hmem
  obtain ⟨k, hk⟩ := Nat.exists_eq_succ_of_ne_zero hpos.ne'
  obtain ⟨hsuccess, hlost⟩ :=
    resume_response (c.processes i).stopping (c.processes i).waiters handler
  rw [hk] at hsuccess hlost
  refine ⟨fun hok ↦ ?_, fun hanswer ↦ ?_⟩
  · obtain ⟨r, hr, hdone, happlied⟩ := hsuccess hok
    obtain ⟨e, hcommitted, hterm, hget⟩ := hcom.slot_committed hr hdone
    rw [(hsim.tracks i).log, List.tail_cons] at hget
    obtain ⟨-, hsound⟩ := (Invariant.of_reachable hsim.reach).log.log_sound i hget
    have hsame := getElem?_eq_of_take_eq hsound (Nat.lt_succ_self k)
    rw [hget, hterm, happlied] at hsame
    rw [hk, Nat.succ_sub_one, ← hsame] at hchron
    rw [hk, ← Option.some.inj hchron]
    exact hcommitted
  · obtain ⟨r, hr, hdone, happlied⟩ := hlost hanswer
    obtain ⟨e, hcommitted, hterm, -⟩ := hcom.slot_committed hr hdone
    rw [hk]
    exact ⟨e, hcommitted, hterm ▸ happlied⟩

theorem resumeStep (hcom : CommitSim c h) (hsim : Sim c h) {k : ℕ} {handler : Handler}
    (hmem : handler ∈ (c.processes i).handlers)
    (hsim' : Sim (c.resumeStep i k handler) h') (hsteps : NodeSteps x h h') :
    CommitSim (c.resumeStep i k handler) h' := by
  have hsub : c.trace ⊆ (c.resumeStep i k handler).trace := List.subset_append_left _ _
  refine hcom.assemble (i := i) hsim hsteps hsub (fun j hj ↦ ?_) ?_ (fun q hq ↦ Or.inl hq)
    fun e he ↦ ?_
  · simp [Cluster.resumeStep, Cluster.record, hj]
  · refine hcom.node_unmoved hsim hsim' hsteps hsub ?_ ?_ ⟨?_, ?_, fun {k r} hr _ ↦ ?_⟩
    · simp [Cluster.raft, Cluster.resumeStep, Cluster.record]
    · simp [Cluster.raft, Cluster.resumeStep, Cluster.record]
    · simp [Cluster.resumeStep, Cluster.record]
    · simp [Cluster.resumeStep, Cluster.record]
    · simp only [Cluster.resumeStep, Cluster.record, Cluster.setProcess_self] at hr
      exact resume_waiters hr
  · rcases List.mem_append.mp he with he | he
    · exact Or.inl he
    · obtain rfl := List.mem_singleton.mp he
      exact Or.inr ((hcom.answer_cert hsim hmem).mono hsub)

theorem fetch (hcom : CommitSim c h) (hsim : Sim c h) {entry : LogEntry}
    (hpending : (c.raft i).lastApplied < (c.raft i).commitIndex)
    (hentry : (c.raft i).log[(c.raft i).lastApplied + 1]? = some entry)
    (hsteps : NodeSteps x h h') :
    CommitSim (c.setProcess i { c.processes i with
      applying := some ((c.raft i).lastApplied + 1, entry) }) h' := by
  refine hcom.assemble (i := i) hsim hsteps (List.Subset.refl _) (fun j hj ↦ ?_) ?_
    (fun q hq ↦ Or.inl hq) fun e he ↦ Or.inl he
  · simp [hj]
  · rw [Cluster.setProcess_self]
    refine { hcom.nodes i with applying := fun {idx e} happ ↦ ?_ }
    obtain ⟨rfl, rfl⟩ : (c.raft i).lastApplied + 1 = idx ∧ entry = e := by simpa using happ
    refine ⟨rfl, ?_⟩
    rw [RaftNode.committed, List.getElem?_take_of_lt hpending, List.getElem?_tail]
    exact hentry

theorem applyStep (hcom : CommitSim c h) (hsim : Sim c h) {idx : ℕ} {entry : LogEntry}
    (happ : (c.processes i).applying = some (idx, entry)) (hsteps : NodeSteps x h h') :
    CommitSim (c.applyStep i idx entry) h' := by
  have hnode := hcom.nodes i
  obtain ⟨hidx, hget⟩ := hnode.applying happ
  have hsub : c.trace ⊆ (c.applyStep i idx entry).trace := List.subset_append_left _ _
  refine hcom.assemble (i := i) hsim hsteps hsub (fun j hj ↦ ?_) ?_ (fun q hq ↦ Or.inl hq)
    fun e he ↦ ?_
  · simp [Cluster.applyStep, Cluster.record, hj]
  · simpa [Cluster.applyStep, Cluster.record] using (hnode.apply happ).mono hsub
  · rcases List.mem_append.mp he with he | he
    · exact Or.inl he
    · obtain rfl := List.mem_singleton.mp he
      have hcommitted := hnode.certified.committed hget
      rw [← hidx] at hcommitted
      exact Or.inr (hcommitted.mono hsub)

theorem step (hcom : CommitSim c h) (hsim : Sim c h) {a : Action N} (hok : Vouched c a)
    (hs : c.step a = some c') (hsim' : Sim c' h') (hsteps : NodeSteps x h h') :
    CommitSim c' h' := by
  cases Cluster.outcome hs with
  | timeout y => exact hcom.timeout hsim hsim' hsteps
  | submit y command => exact hcom.submitStep hsim hsim' hsteps
  | execute y cmd => exact hcom.executeStep hsim hsim' hsteps
  | resume hmem => exact hcom.resumeStep hsim (List.mem_of_getElem? hmem) hsim' hsteps
  | send hrole hterm hargs => exact hcom.send hsim hrole hterm hargs hsim' hsteps
  | deliverVote _ => exact hcom.deliverVoteStep hsim hsim' hsteps
  | @deliverAppend k q hq =>
      exact hcom.deliverAppendStep hsim (List.mem_of_getElem? hq) (hok q hq) hsim' hsteps
  | voteReply _ _ => exact hcom.voteReplyStep hsim hsim' hsteps
  | appendReply _ _ _ => exact hcom.appendReplyStep hsim hsim' hsteps
  | appendFailed y k r =>
      unfold Cluster.appendFailedStep at hsim' ⊢
      split_ifs at hsim' ⊢ with hretired
      · exact hcom.setProcess hsim hsim' hsteps rfl rfl (.of_eq rfl rfl rfl)
      · exact hcom.setProcess hsim hsim' hsteps rfl rfl (.of_eq rfl rfl rfl)
  | fetch hpending hentry => exact hcom.fetch hsim hpending hentry hsteps
  | apply happ => exact hcom.applyStep hsim happ hsteps
  | crash y => exact hcom.restart hsim hsteps []
  | @crashDuring a y n m hop =>
      have hrestart := hcom.restart (i := y) hsim hsteps (n.effects.take m)
      cases a with
      | deliverVote k => exact { hrestart with }
      | deliverAppend k =>
          refine { hrestart with requests := fun q hq ↦ ?_ }
          exact hrestart.requests q (List.eraseIdx_subset hq)
      | _ => exact hrestart
  | _ => exact hcom.setProcess hsim hsim' hsteps rfl rfl (.of_eq rfl rfl rfl)

end CommitSim

/-- A run in which no request overtakes its receiver has certified commits. -/
theorem Run.exists_commitSim (hrun : Run Vouched c) : ∃ h, Sim c h ∧ CommitSim c h :=
  hrun.exists_sim_of_step (CommitSim.initial N) fun _ hsim hcom hok hs hsim' hsteps ↦
    hcom.step hsim hok hs hsim' hsteps

end Dkvs
