import Dkvs.Failover.Steps

/-!
# Vacating the office

A leader does not stand for election, and one that does not know of a later term is in the
way of its successor. Its next request to a node of a later term is refused, and with the
reply it steps down. The logs stay as they are.
-/

namespace Dkvs

open ReplicatedLog

variable {N : ℕ} {M : Finset (Fin N)} {c c' c'' : Cluster N} {h : History N} {i x y z : Fin N}
  {n : RaftNode} {t : ℕ}

/-- The nodes have the same logs, run as before, and have not gone back to an earlier term. -/
structure SameLogs (c c' : Cluster N) : Prop where
  log : ∀ i, (c'.raft i).log = (c.raft i).log
  stopping : ∀ i, (c'.raft i).stopping = (c.raft i).stopping
  term_le : ∀ i, (c.raft i).currentTerm ≤ (c'.raft i).currentTerm
  sound : ∀ i, (c.processes i).Sound → (c'.processes i).Sound

namespace SameLogs

theorem refl (c : Cluster N) : SameLogs c c :=
  ⟨fun _ ↦ rfl, fun _ ↦ rfl, fun _ ↦ le_rfl, fun _ ↦ id⟩

theorem trans (h : SameLogs c c') (h' : SameLogs c' c'') : SameLogs c c'' :=
  ⟨fun i ↦ (h'.log i).trans (h.log i), fun i ↦ (h'.stopping i).trans (h.stopping i),
    fun i ↦ (h.term_le i).trans (h'.term_le i), fun i hsound ↦ h'.sound i (h.sound i hsound)⟩

theorem of_raft_eq (hraft : ∀ i, c'.raft i = c.raft i)
    (happlying : ∀ i, (c'.processes i).applying = (c.processes i).applying) : SameLogs c c' := by
  refine ⟨fun i ↦ ?_, fun i ↦ ?_, fun i ↦ ?_, fun i hsound ↦ ?_⟩
  · rw [hraft i]
  · rw [hraft i]
  · rw [hraft i]
  · obtain ⟨hcommit, happlied, happ⟩ := hsound
    have hi : (c'.processes i).raft = (c.processes i).raft := hraft i
    rw [← hi] at hcommit happlied happ
    rw [← happlying i] at happ
    exact ⟨hcommit, happlied, happ⟩

/-- Only node `x` has done something, and that in a later term or the same. -/
theorem of_operation (hother : ∀ i ≠ x, c'.processes i = c.processes i)
    (hraft : c'.raft x = { n with effects := [] })
    (happlying : (c'.processes x).applying = (c.processes x).applying)
    (hlog : n.log = (c.raft x).log) (hstop : n.stopping = (c.raft x).stopping)
    (hterm : (c.raft x).currentTerm ≤ n.currentTerm)
    (hcommit : n.commitIndex = (c.raft x).commitIndex)
    (happlied : n.lastApplied = (c.raft x).lastApplied) : SameLogs c c' := by
  have hsame : ∀ i ≠ x, c'.raft i = c.raft i := fun i hi ↦ congrArg Process.raft (hother i hi)
  refine ⟨fun i ↦ ?_, fun i ↦ ?_, fun i ↦ ?_, fun i hsound ↦ ?_⟩
  · by_cases hi : i = x
    · rw [hi, hraft]
      exact hlog
    · rw [hsame i hi]
  · by_cases hi : i = x
    · rw [hi, hraft]
      exact hstop
    · rw [hsame i hi]
  · by_cases hi : i = x
    · rw [hi, hraft]
      exact hterm
    · rw [hsame i hi]
  · by_cases hi : i = x
    · subst hi
      refine hsound.operate (.of_eq hcommit happlied) hraft happlying ?_
      rw [hcommit, RaftNode.lastLogIndex, hlog]
      exact hsound.commit_le
    · rw [hother i hi]
      exact hsound

end SameLogs

/-- A call that a replicator waits for times out. -/
theorem Path.giveUp (hrun : AnyRun c) {k : ℕ} {r : Replicator N}
    (hr : (c.processes x).replicators[k]? = some r) (hwaits : r.waiting.isSome)
    (hactive : ¬ (c.raft x).replicatorRetired r.leaderTerm) (hx : x ∈ M) :
    ∃ c', Path M c c' ∧
      c'.processes x = { c.processes x with
        replicators := (c.processes x).replicators.set k { r with waiting := none } } ∧
      ∀ i ≠ x, c'.processes i = c.processes i := by
  have hs : c.step (.appendFailed x k) = some (c.setReplicator x k { r with waiting := none }) := by
    simp [Cluster.step, hr, hwaits, Cluster.appendFailedStep, hactive]
  have hself := c.setProcess_self x { c.processes x with
    replicators := (c.processes x).replicators.set k { r with waiting := none } }
  have hother : ∀ i ≠ x, (c.setReplicator x k { r with waiting := none }).processes i =
      c.processes i :=
    fun i hi ↦ c.setProcess_of_ne hi _
  refine ⟨_, Path.single hrun hs hx x hother ?_, hself, hother⟩
  exact (congrArg (fun p : Process N ↦ p.raft.currentTerm) hself).trans_lt (hrun.termsBounded x)

/-- A leader has a replicator for every other node that sends next, or soon has one. -/
theorem Path.exists_idle (hrun : AnyRun c) (hx : x ∈ M) (hrole : (c.raft x).role = .leader)
    (hstop : (c.raft x).stopping = false) (hyx : y ≠ x) :
    ∃ (c' : Cluster N) (k : ℕ) (r : Replicator N), Path M c c' ∧
      (c'.processes x).replicators[k]? = some r ∧ r.peer = y ∧
      r.leaderTerm = (c.raft x).currentTerm ∧ r.waiting = none ∧
      c'.processes x = { c.processes x with replicators := (c'.processes x).replicators } ∧
      ∀ i ≠ x, c'.processes i = c.processes i := by
  have hkey := hrun.staffed x hrole hstop y hyx
  obtain ⟨r, hmem, hr⟩ := List.mem_map.mp hkey
  obtain ⟨hpeer, hterm⟩ : r.peer = y ∧ r.leaderTerm = (c.raft x).currentTerm := Prod.mk.inj hr
  obtain ⟨k, hk⟩ := List.mem_iff_getElem?.mp hmem
  cases hwaits : r.waiting with
  | none => exact ⟨c, k, r, .refl, hk, hpeer, hterm, hwaits, rfl, fun _ _ ↦ rfl⟩
  | some q =>
      have hactive := RaftNode.active_iff.mpr ⟨hstop, hrole, hterm.symm⟩
      obtain ⟨c', hpath, hself, hother⟩ := Path.giveUp hrun hk (by simp [hwaits]) hactive hx
      refine ⟨c', k, { r with waiting := none }, hpath, ?_, hpeer, hterm, rfl, ?_, hother⟩
      · obtain ⟨hlt, -⟩ := List.getElem?_eq_some_iff.mp hk
        rw [hself]
        exact List.getElem?_set_self hlt
      · rw [hself]

/-- In every run a leader can build its next request. -/
theorem exists_request (hrun : AnyRun c) (hrole : (c.raft x).role = .leader) (y : Fin N) :
    ∃ args, (c.raft x).buildAppendEntries y (c.raft x).currentTerm = some args ∧
      args.term = (c.raft x).currentTerm := by
  obtain ⟨h, -, hbook⟩ := hrun.exists_bookkept
  have hone : 1 ≤ (c.raft x).nextIndex.getD y 0 := (hbook.peers x).next.one_le y
  have hle : (c.raft x).nextIndex.getD y 0 ≤ (c.raft x).log.length :=
    (hbook.peers x).next.le hrole y
  have hin : (c.raft x).nextIndex.getD y 0 - 1 < (c.raft x).log.length := by omega
  obtain ⟨args, hargs⟩ : ∃ args,
      (c.raft x).buildAppendEntries y (c.raft x).currentTerm = some args := by
    rw [RaftNode.buildAppendEntries, if_neg (Nat.one_le_iff_ne_zero.mp hone),
      List.getElem?_eq_getElem hin]
    exact ⟨_, rfl⟩
  exact ⟨args, hargs, (RaftNode.buildAppendEntries_fields hargs).1⟩

/-- A leader receives a reply of a later term. -/
theorem Path.stepDown (hrun : AnyRun c) {k : ℕ} {r : Replicator N} {q : AppendCall N}
    {reply : AppendEntriesReply} {replies : List (AppendCall N × AppendEntriesReply)}
    (hr : (c.processes x).replicators[k]? = some r) (hq : r.waiting = some q)
    (hlast : c.appendReplies = replies ++ [(q, reply)]) (hx : x ∈ M) (hy : r.peer ∈ M)
    (hactive : ¬ (c.raft x).replicatorRetired r.leaderTerm)
    (hlater : (c.raft x).currentTerm < reply.term) (hb : reply.term < 2 ^ 64 - 1) :
    ∃ c', Path M c c' ∧
      c'.raft x = { (c.raft x).becomeFollower reply.term with effects := [] } ∧
      (c'.processes x).applying = (c.processes x).applying ∧
      ∀ i ≠ x, c'.processes i = c.processes i := by
  have hto : c.appendReplyTo q replies.length = some reply := by
    simp [Cluster.appendReplyTo, hlast]
  have hs : c.step (.appendReply x k replies.length) =
      some (c.appendReplyStep x k replies.length r q reply) := by
    simp [Cluster.step, hr, hq, hto]
  have hnode : (c.raft x).onAppendReply r.peer r.leaderTerm q.args reply =
      ((c.raft x).becomeFollower reply.term, false) := by
    rw [RaftNode.onAppendReply, if_neg hactive, if_pos hlater]
  have hraft : (c.appendReplyStep x k replies.length r q reply).raft x =
      { (c.raft x).becomeFollower reply.term with effects := [] } := by
    simp [Cluster.appendReplyStep, hnode, Cluster.raft, Cluster.settle_self]
  have happlying : ((c.appendReplyStep x k replies.length r q reply).processes x).applying =
      (c.processes x).applying := by
    simp [Cluster.appendReplyStep, hnode, Cluster.settle_self, Cluster.dropReplicator,
      Cluster.updateProcess]
  have hother : ∀ i ≠ x, (c.appendReplyStep x k replies.length r q reply).processes i =
      c.processes i := by
    intro i hi
    simp [Cluster.appendReplyStep, hnode, Cluster.settle_of_ne _ hi, Cluster.dropReplicator,
      Cluster.updateProcess, hi]
  refine ⟨_, Path.single hrun hs ⟨hx, fun r' hr' ↦ ?_⟩ x hother ?_, hraft, happlying, hother⟩
  · obtain rfl : r = r' := Option.some.inj (hr.symm.trans hr')
    exact hy
  · rw [hraft]
    exact (RaftNode.becomeFollower_currentTerm hlater.le).trans_lt hb

/-- A leader asks a node of a later term, and steps down. -/
theorem Path.overtaken (hrun : AnyRun c) (hx : x ∈ M) (hy : y ∈ M)
    (hrole : (c.raft x).role = .leader) (hstop : (c.raft x).stopping = false)
    (hfits : Shippable (c.raft x).log.tail)
    (hlater : (c.raft x).currentTerm < (c.raft y).currentTerm) :
    ∃ c', Path M c c' ∧ SameLogs c c' ∧ (c'.raft x).role = .follower ∧
      (c'.raft x).currentTerm = (c.raft y).currentTerm ∧ ∀ i ≠ x, c'.raft i = c.raft i := by
  have hyx : y ≠ x := by
    rintro rfl
    exact lt_irrefl _ hlater
  obtain ⟨c₁, k, r, hpath₁, hk, rfl, hterm, hidle, hself₁, hother₁⟩ :=
    Path.exists_idle hrun hx hrole hstop hyx
  have hrun₁ := hpath₁.anyRun hrun
  have hraft₁ : c₁.raft x = c.raft x := by rw [Cluster.raft, hself₁]
  have hactive : ¬ (c₁.raft x).replicatorRetired r.leaderTerm := by
    rw [hraft₁]
    exact RaftNode.active_iff.mpr ⟨hstop, hrole, hterm.symm⟩
  obtain ⟨args, hargs, hargs'⟩ := exists_request hrun₁ (hraft₁ ▸ hrole) r.peer
  rw [hraft₁, ← hterm] at hargs
  obtain ⟨c₂, hpath₂, hself₂, hother₂, hrequests₂, -⟩ :=
    Path.send hrun₁ ⟨hk, hidle, hactive, hraft₁ ▸ hargs⟩ hx hy
  have hrun₂ := hpath₂.anyRun hrun₁
  have hpeer₂ : c₂.raft r.peer = c.raft r.peer :=
    congrArg Process.raft ((hother₂ r.peer hyx).trans (hother₁ r.peer hyx))
  -- the request is stale, so the peer names its term and changes nothing
  have hstale : args.term < (c₂.raft r.peer).currentTerm := by
    rw [hpeer₂, hargs', hraft₁]
    exact hlater
  have hrefuses : ((c₂.raft r.peer).onAppendEntries args).1 = c₂.raft r.peer := by
    rw [RaftNode.onAppendEntries, if_pos hstale]
  obtain ⟨c₃, hpath₃, hraft₃, happlying₃, hother₃, hreplies₃⟩ :=
    Path.deliver hrun₂ hrequests₂ hx hy (RaftNode.sendable_of_shippable hargs hfits)
      (by rw [hrefuses]; exact hrun₂.termsBounded _)
  have hrun₃ := hpath₃.anyRun hrun₂
  have hself₃ : c₃.processes x = { c.processes x with
      replicators := (c₁.processes x).replicators.set k
        { r with waiting := some ⟨c₁.nextCall, x, r.peer, args⟩ } } := by
    rw [hother₃ x (Ne.symm hyx), hself₂, hself₁]
  have hsame₃ : ∀ i, c₃.raft i = c.raft i ∧
      (c₃.processes i).applying = (c.processes i).applying := by
    intro i
    by_cases hix : i = x
    · rw [hix, Cluster.raft, hself₃]
      exact ⟨rfl, rfl⟩
    · have hi₂ : c₂.processes i = c.processes i := (hother₂ i hix).trans (hother₁ i hix)
      by_cases hiy : i = r.peer
      · obtain ⟨h, hsim⟩ := hrun.exists_sim
        subst hiy
        refine ⟨?_, happlying₃.trans (by rw [hi₂])⟩
        rw [hraft₃, hrefuses, hpeer₂, ← (hsim.nodes r.peer).idle]
      · rw [Cluster.raft, hother₃ i hiy, hi₂]
        exact ⟨rfl, rfl⟩
  have hthread : (c₃.processes x).replicators[k]? =
      some { r with waiting := some ⟨c₁.nextCall, x, r.peer, args⟩ } := by
    obtain ⟨hlt, -⟩ := List.getElem?_eq_some_iff.mp hk
    rw [hself₃]
    exact List.getElem?_set_self hlt
  have hreply : ((c₂.raft r.peer).onAppendEntries args).2.term = (c.raft r.peer).currentTerm := by
    rw [RaftNode.onAppendEntries_term, hrefuses, hpeer₂]
  obtain ⟨c', hpath', hraft', happlying', hother'⟩ :=
    Path.stepDown hrun₃ hthread rfl hreplies₃ hx hy (by rw [(hsame₃ x).1, ← hraft₁]; exact hactive)
      (by rw [(hsame₃ x).1, hreply]; exact hlater) (by rw [hreply]; exact hrun.termsBounded _)
  rw [hreply, (hsame₃ x).1] at hraft'
  have hterm' := RaftNode.becomeFollower_currentTerm hlater.le
  refine ⟨c', ((hpath₁.trans hpath₂).trans hpath₃).trans hpath', ?_, ?_, ?_, fun i hi ↦ ?_⟩
  · refine (SameLogs.of_raft_eq (fun i ↦ (hsame₃ i).1) fun i ↦ (hsame₃ i).2).trans
      (.of_operation hother' hraft' happlying' ?_ ?_ ?_ ?_ ?_)
    · rw [(hsame₃ x).1, RaftNode.becomeFollower_log]
    · obtain ⟨term, vote, hint, role, effects, hframe⟩ :=
        (c.raft x).becomeFollower_frame (c.raft r.peer).currentTerm
      rw [(hsame₃ x).1, hframe]
    · rw [(hsame₃ x).1, hterm']
      exact hlater.le
    · rw [(hsame₃ x).1, RaftNode.becomeFollower_commitIndex]
    · rw [(hsame₃ x).1, RaftNode.becomeFollower_lastApplied]
  · rw [hraft']
    exact RaftNode.becomeFollower_role _ _
  · rw [hraft']
    exact hterm'
  · rw [Cluster.raft, hother' i hi]
    exact (hsame₃ i).1

end Dkvs
