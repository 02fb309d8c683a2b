import Dkvs.Failover.Vacancy

/-!
# Electing a leader of a majority

Of the nodes of a majority, one has a log that is not behind any of the others. If it leads
already, the others bring it to step down, since what its replicators wait for may never come.
It stands for election until its term is above all of theirs. Then every one of them grants
its vote, and when the votes are counted the candidate takes office.
-/

namespace Dkvs

open ReplicatedLog

variable {N : ℕ} {M voters : Finset (Fin N)} {c c' c'' : Cluster N} {h : History N}
  {i x y z : Fin N} {a : Action N} {n m : RaftNode} {t : ℕ}

/-! ## Votes -/

/-- The log of `n` is not behind that of `m`, in the order in which voters compare. -/
def RaftNode.UpToDate (n m : RaftNode) : Prop :=
  m.lastLogTerm < n.lastLogTerm ∨ n.lastLogTerm = m.lastLogTerm ∧ m.lastLogIndex ≤ n.lastLogIndex

theorem RaftNode.UpToDate.congr {n' m' : RaftNode} (hlog : n.UpToDate m) (hn : n'.log = n.log)
    (hm : m'.log = m.log) : n'.UpToDate m' := by
  unfold UpToDate lastLogTerm lastLogIndex at hlog ⊢
  rw [hn, hm]
  exact hlog

/-- Some node of a set is not behind any other. -/
theorem exists_upToDate (c : Cluster N) (hM : M.Nonempty) :
    ∃ z ∈ M, ∀ y ∈ M, (c.raft z).UpToDate (c.raft y) := by
  obtain ⟨z, hz, hmax⟩ := M.exists_max_image
    (fun i ↦ toLex ((c.raft i).lastLogTerm, (c.raft i).lastLogIndex)) hM
  refine ⟨z, hz, fun y hy ↦ ?_⟩
  have hle := Prod.Lex.le_iff.mp (hmax y hy)
  unfold RaftNode.UpToDate
  rcases hle with hlt | ⟨heq, hindex⟩
  · exact Or.inl hlt
  · exact Or.inr ⟨heq.symm, hindex⟩

/-- A node grants its vote to a candidate of a later term whose log is not behind. -/
theorem RaftNode.onRequestVote_granted (hterm : m.currentTerm < n.currentTerm)
    (hlog : n.UpToDate m) : (m.onRequestVote n.voteRequest).2 = ⟨n.currentTerm, true⟩ ∧
      (m.onRequestVote n.voteRequest).1.currentTerm = n.currentTerm := by
  have hstale : ¬ n.voteRequest.term < m.currentTerm := Nat.not_lt.mpr hterm.le
  have hlater : m.currentTerm < n.voteRequest.term := hterm
  unfold onRequestVote
  rw [if_neg hstale, if_pos hlater, becomeFollower_of_lt hlater]
  dsimp only
  rw [if_pos ⟨hlog, Or.inl rfl⟩]
  exact ⟨rfl, rfl⟩

/-- The candidate `z` of term `t`, which has asked the nodes in `voters`. They have not voted
yet, and with their votes it wins. -/
structure Campaign (M : Finset (Fin N)) (c : Cluster N) (z : Fin N) (t : ℕ)
    (voters : Finset (Fin N)) : Prop where
  run : AnyRun c
  role : (c.raft z).role = .candidate
  term : (c.raft z).currentTerm = t
  running : (c.raft z).stopping = false
  sound : (c.processes z).Sound
  mem : z ∈ M
  below : ∀ y ∈ M, (c.raft y).currentTerm ≤ t
  voters_subset : voters ⊆ M
  voters_ne : z ∉ voters
  requests : ∀ y ∈ voters, ⟨z, y, (c.raft z).voteRequest⟩ ∈ c.voteRequests
  senders : ∀ y ∈ voters, ⟨z, y, (c.raft z).voteRequest⟩ ∈ (c.processes z).voteSenders
  term_lt : ∀ y ∈ voters, (c.raft y).currentTerm < t
  upToDate : ∀ y ∈ voters, (c.raft z).UpToDate (c.raft y)
  undecided : (c.raft z).votesReceived < (c.raft z).majority
  enough : (c.raft z).majority ≤ (c.raft z).votesReceived + voters.card

/-- Node `z` has just taken office in term `t`. -/
structure Office (M : Finset (Fin N)) (c : Cluster N) (z : Fin N) (t : ℕ) : Prop where
  run : AnyRun c
  role : (c.raft z).role = .leader
  term : (c.raft z).currentTerm = t
  running : (c.raft z).stopping = false
  sound : (c.processes z).Sound
  mem : z ∈ M
  below : ∀ y ∈ M, (c.raft y).currentTerm ≤ t
  idle : ∀ r ∈ (c.processes z).replicators, r.leaderTerm = t → r.waiting = none
  unmatched : ∀ y ≠ z, (c.raft z).matchIndex.getD y 0 = 0

theorem RaftNode.becomeLeader_matchIndex (n : RaftNode) : n.becomeLeader.matchIndex =
    (List.replicate n.matchIndex.length 0).set n.id n.log.length := by
  obtain ⟨commit, es, -, hframe⟩ :=
    (n.takeOffice.push ⟨n.currentTerm, []⟩).countSelf.advanceCommit_frame
  unfold becomeLeader
  dsimp only
  rw [hframe]
  simp [spawn, countSelf, push, emit, takeOffice, lastLogIndex]

theorem RaftNode.becomeLeader_log (n : RaftNode) :
    n.becomeLeader.log = n.log ++ [⟨n.currentTerm, []⟩] := by
  obtain ⟨commit, found, es, -, hframe⟩ := n.becomeLeader_frame
  rw [hframe]

/-- A node that enters `becomeLeader` is in office. -/
theorem Office.of_becomeLeader (hraft : c'.raft z = { m.becomeLeader with effects := [] })
    (hrun : AnyRun c') (hz : z ∈ M) (hid : m.id = z) (hterm : m.currentTerm = t)
    (hstop : m.stopping = false) (hsound : (c'.processes z).Sound)
    (hbelow : ∀ y ∈ M, (c'.raft y).currentTerm ≤ t) {old : List (Replicator N)}
    (hthreads : (c'.processes z).replicators =
      old ++ m.becomeLeader.effects.filterMap Cluster.replicatorOf)
    (hold : ∀ r ∈ old, r.leaderTerm ≠ t) : Office M c' z t := by
  obtain ⟨commit, found, es, -, hframe⟩ := m.becomeLeader_frame
  refine ⟨hrun, ?_, ?_, ?_, hsound, hz, hbelow, fun r hr hr' ↦ ?_, fun y hy ↦ ?_⟩
  · rw [hraft, hframe]
  · rw [hraft, hframe]
    exact hterm
  · rw [hraft, hframe]
    exact hstop
  · rw [hthreads] at hr
    rcases List.mem_append.mp hr with hmem | hmem
    · exact absurd hr' (hold r hmem)
    · obtain ⟨e, -, he⟩ := List.mem_filterMap.mp hmem
      exact (Cluster.replicatorOf_eq_some he).2
  · rw [hraft]
    show m.becomeLeader.matchIndex.getD y 0 = 0
    have hne : (z : ℕ) ≠ y := fun heq ↦ hy (Fin.val_injective heq).symm
    rw [m.becomeLeader_matchIndex, hid, List.getD_eq_getElem?_getD, List.getElem?_set_ne hne,
      ← List.getD_eq_getElem?_getD]
    simp

/-! ## One vote -/

/-- The request to `y` is delivered, and the vote is on its way. -/
theorem Campaign.deliver (hcamp : Campaign M c z t voters) (hy : y ∈ voters) :
    ∃ c', Path M c c' ∧ (∀ x ≠ y, c'.processes x = c.processes x) ∧
      (c'.raft y).currentTerm = t ∧
      (∀ x ∈ voters.erase y, ⟨z, x, (c.raft z).voteRequest⟩ ∈ c'.voteRequests) ∧
      ∃ j, c'.voteReplyTo ⟨z, y, (c.raft z).voteRequest⟩ j = some ⟨t, true⟩ := by
  obtain ⟨h, hsim⟩ := hcamp.run.exists_sim
  obtain ⟨k, hk⟩ := List.mem_iff_getElem?.mp (hcamp.requests y hy)
  have hlater : (c.raft y).currentTerm < (c.raft z).currentTerm :=
    (hcamp.term_lt y hy).trans_eq hcamp.term.symm
  obtain ⟨hreply, hterm⟩ := RaftNode.onRequestVote_granted hlater (hcamp.upToDate y hy)
  have hs : c.step (.deliverVote k) = some (c.deliverVoteStep k
      ⟨z, y, (c.raft z).voteRequest⟩) := by
    simp [Cluster.step, hk]
  have hother : ∀ x ≠ y, (c.deliverVoteStep k ⟨z, y, (c.raft z).voteRequest⟩).processes x =
      c.processes x := by
    intro x hx
    exact Cluster.settle_of_ne c hx _
  have hself : ((c.deliverVoteStep k ⟨z, y, (c.raft z).voteRequest⟩).raft y).currentTerm = t := by
    simp only [Cluster.deliverVoteStep, Cluster.consume, Cluster.raft, Cluster.settle_self]
    exact hterm.trans hcamp.term
  have hbound : t < 2 ^ 64 - 1 := hcamp.term ▸ hcamp.run.termsBounded z
  refine ⟨_, .single hcamp.run hs ?_ y hother (hself ▸ hbound), hother, hself, fun x hx ↦ ?_,
    c.voteReplies.length, ?_⟩
  · intro q hq
    obtain rfl : ⟨z, y, (c.raft z).voteRequest⟩ = q := Option.some.inj (hk.symm.trans hq)
    exact ⟨hcamp.mem, hcamp.voters_subset hy⟩
  · obtain ⟨hne, hx⟩ := Finset.mem_erase.mp hx
    have hrequests := VotesStep.settle_voteRequests c y (hsim.nodes y).idle
      (Steady.onRequestVote (c.raft y) (c.raft z).voteRequest).effects
    show _ ∈ (c.settle y _).voteRequests.eraseIdx k
    rw [hrequests]
    rcases mem_eraseIdx_or (hcamp.requests x hx) k with hin | hat
    · exact hin
    · rw [hk] at hat
      exact absurd (congrArg VoteCall.dst (Option.some.inj hat)).symm hne
  · have hlast : (c.deliverVoteStep k ⟨z, y, (c.raft z).voteRequest⟩).voteReplies =
        c.voteReplies ++ [(⟨z, y, (c.raft z).voteRequest⟩, ⟨t, true⟩)] := by
      rw [← hcamp.term, ← hreply]
      rfl
    simp [Cluster.voteReplyTo, hlast]

/-- A candidate counts a vote for its term, and takes office with the last one it needs. -/
theorem RaftNode.onVoteReply_counts (hrole : n.role = .candidate) (hstop : n.stopping = false)
    (hterm : n.currentTerm = t) : n.onVoteReply n.voteRequest ⟨t, true⟩ =
      if n.majority ≤ n.votesReceived + 1 then
        { n with votesReceived := n.votesReceived + 1 }.becomeLeader
      else { n with votesReceived := n.votesReceived + 1 } := by
  subst hterm
  unfold onVoteReply
  rw [if_neg (by simp [hstop]), if_neg (lt_irrefl _), if_neg (by simp [hrole, voteRequest])]
  rfl

theorem RaftNode.onVoteReply_term (hrole : n.role = .candidate) (hstop : n.stopping = false)
    (hterm : n.currentTerm = t) : (n.onVoteReply n.voteRequest ⟨t, true⟩).currentTerm = t := by
  rw [onVoteReply_counts hrole hstop hterm]
  split_ifs with hwon
  · obtain ⟨commit, found, es, -, hframe⟩ :=
      ({ n with votesReceived := n.votesReceived + 1 } : RaftNode).becomeLeader_frame
    rw [hframe]
    exact hterm
  · exact hterm

/-- Taking office leaves the commit index inside the log. -/
theorem RaftNode.becomeLeader_commit_le (hle : n.commitIndex ≤ n.lastLogIndex) :
    n.becomeLeader.commitIndex ≤ n.becomeLeader.lastLogIndex := by
  rcases n.becomeLeader_le with hsame | hin
  · rw [lastLogIndex] at hle
    rw [hsame, lastLogIndex, becomeLeader_log, List.length_append, List.length_singleton]
    omega
  · exact hin

/-- The reply of `y` is counted. -/
theorem Campaign.count (hcamp : Campaign M c z t voters) (hy : y ∈ voters) :
    ∃ c', Path M c c' ∧ c'.processes z = { c.processes z with
        raft := { (c.raft z).onVoteReply (c.raft z).voteRequest ⟨t, true⟩ with effects := [] }
        storage := (c'.processes z).storage
        voteSenders := (c'.processes z).voteSenders
        replicators := (c.processes z).replicators ++
          ((c.raft z).onVoteReply (c.raft z).voteRequest ⟨t, true⟩).effects.filterMap
            Cluster.replicatorOf } ∧
      (∀ x ≠ z, x ≠ y → c'.processes x = c.processes x) ∧ (c'.raft y).currentTerm = t ∧
      ∀ x ∈ voters.erase y, ⟨z, x, (c.raft z).voteRequest⟩ ∈ c'.voteRequests ∧
        ⟨z, x, (c.raft z).voteRequest⟩ ∈ (c'.processes z).voteSenders := by
  obtain ⟨c₁, hpath, hother, hvoted, hrequests, j, hreply⟩ := hcamp.deliver hy
  have hne : z ≠ y := fun heq ↦ hcamp.voters_ne (heq ▸ hy)
  have hsame : c₁.processes z = c.processes z := hother z hne
  obtain ⟨k, hk⟩ := List.mem_iff_getElem?.mp (hcamp.senders y hy)
  have hs : c₁.step (.voteReply z k j) = some (c₁.voteReplyStep z k j
      ⟨z, y, (c.raft z).voteRequest⟩ ⟨t, true⟩) := by
    simp [Cluster.step, hsame, hk, hreply]
  have hself := c₁.voteReplyStep_self z k j ⟨z, y, (c.raft z).voteRequest⟩ ⟨t, true⟩
  have hraft : c₁.raft z = c.raft z := congrArg Process.raft hsame
  rw [hraft, hsame] at hself
  have hothers : ∀ x ≠ z, (c₁.voteReplyStep z k j ⟨z, y, (c.raft z).voteRequest⟩
      ⟨t, true⟩).processes x = c₁.processes x :=
    fun x hx ↦ c₁.voteReplyStep_of_ne hx k j _ _
  have hterm := RaftNode.onVoteReply_term hcamp.role hcamp.running hcamp.term
  refine ⟨_, hpath.trans (Path.single (hpath.anyRun hcamp.run) hs ?_ z hothers ?_), ?_, ?_, ?_, ?_⟩
  · refine ⟨hcamp.mem, fun q hq ↦ ?_⟩
    rw [hsame] at hq
    obtain rfl : ⟨z, y, (c.raft z).voteRequest⟩ = q := Option.some.inj (hk.symm.trans hq)
    exact hcamp.voters_subset hy
  · rw [Cluster.raft, hself]
    exact hterm.trans_lt (hcamp.term ▸ hcamp.run.termsBounded z)
  · rw [hself]
  · intro x hx hxy
    rw [hothers x hx, hother x hxy]
  · rw [Cluster.raft, hothers y hne.symm]
    exact hvoted
  · intro x hx
    refine ⟨List.mem_append_left _ (hrequests x hx), ?_⟩
    obtain ⟨hxy, hx⟩ := Finset.mem_erase.mp hx
    rw [hself]
    apply List.mem_append_left
    rcases mem_eraseIdx_or (hcamp.senders x hx) k with hin | hat
    · exact hin
    · rw [hk] at hat
      exact absurd (congrArg VoteCall.dst (Option.some.inj hat)).symm hxy

/-- With the vote of `y` the candidate is in office, or one vote closer to it. -/
theorem Campaign.ballot (hcamp : Campaign M c z t voters) (hy : y ∈ voters) :
    ∃ c', Path M c c' ∧
      (Office M c' z t ∧ (c'.raft z).log = (c.raft z).log ++ [⟨t, []⟩] ∨
        Campaign M c' z t (voters.erase y) ∧ (c'.raft z).log = (c.raft z).log) := by
  obtain ⟨c', hpath, hself, hother, hvoted, hcalls⟩ := hcamp.count hy
  have hrun' := hpath.anyRun hcamp.run
  obtain ⟨h, hsim, hbook⟩ := hcamp.run.exists_bookkept
  have hne : z ≠ y := fun heq ↦ hcamp.voters_ne (heq ▸ hy)
  have hcounts := RaftNode.onVoteReply_counts hcamp.role hcamp.running hcamp.term
  have hterm := RaftNode.onVoteReply_term hcamp.role hcamp.running hcamp.term
  have hraises := Raises.onVoteReply (c.raft z) (c.raft z).voteRequest ⟨t, true⟩
  have happlying : (c'.processes z).applying = (c.processes z).applying := by rw [hself]
  have hraft : c'.raft z = { (c.raft z).onVoteReply (c.raft z).voteRequest ⟨t, true⟩ with
      effects := [] } := by
    rw [Cluster.raft, hself]
  have hbelow : ∀ x ∈ M, (c'.raft x).currentTerm ≤ t := by
    intro x hx
    by_cases hxz : x = z
    · rw [hxz, hraft]
      exact hterm.le
    · by_cases hxy : x = y
      · exact (hxy ▸ hvoted).le
      · rw [Cluster.raft, hother x hxz hxy]
        exact hcamp.below x hx
  have hthreads : (c'.processes z).replicators = (c.processes z).replicators ++
      ((c.raft z).onVoteReply (c.raft z).voteRequest ⟨t, true⟩).effects.filterMap
        Cluster.replicatorOf := by
    rw [hself]
  have hsound : ∀ {n}, (c.raft z).onVoteReply (c.raft z).voteRequest ⟨t, true⟩ = n →
      n.commitIndex ≤ n.lastLogIndex → (c'.processes z).Sound := by
    rintro n rfl hle
    exact hcamp.sound.operate hraises hraft happlying hle
  refine ⟨c', hpath, ?_⟩
  split_ifs at hcounts with hwon
  · left
    rw [hcounts] at hraft hthreads
    refine ⟨.of_becomeLeader hraft hrun' hcamp.mem (hsim.tracks z).id hcamp.term hcamp.running
      (hsound hcounts (RaftNode.becomeLeader_commit_le hcamp.sound.commit_le)) hbelow hthreads
      fun r hr ↦ ?_, ?_⟩
    · have hstale := (hbook.peers z).keys.stale hcamp.role _ (List.mem_map_of_mem hr)
      exact (hstale.trans_eq hcamp.term).ne
    · rw [hraft, ← hcamp.term]
      exact RaftNode.becomeLeader_log _
  · right
    rw [hcounts] at hraft
    have hvoter : ∀ x ∈ voters.erase y, c'.raft x = c.raft x ∧ x ∈ voters := by
      intro x hx
      obtain ⟨hxy, hmem⟩ := Finset.mem_erase.mp hx
      have hxz : x ≠ z := fun heq ↦ hcamp.voters_ne (heq ▸ hmem)
      exact ⟨congrArg Process.raft (hother x hxz hxy), hmem⟩
    have hcard := Finset.card_erase_add_one hy
    have henough := hcamp.enough
    refine ⟨⟨hrun', ?_, ?_, ?_, hsound hcounts hcamp.sound.commit_le, hcamp.mem, hbelow,
      (Finset.erase_subset y voters).trans hcamp.voters_subset, ?_, ?_, ?_, ?_, ?_, ?_, ?_⟩,
      by rw [hraft]⟩
    · rw [hraft]
      exact hcamp.role
    · rw [hraft]
      exact hcamp.term
    · rw [hraft]
      exact hcamp.running
    · exact fun hmem ↦ hcamp.voters_ne (Finset.mem_of_mem_erase hmem)
    · rw [hraft]
      exact fun x hx ↦ (hcalls x hx).1
    · rw [hraft]
      exact fun x hx ↦ (hcalls x hx).2
    · intro x hx
      rw [(hvoter x hx).1]
      exact hcamp.term_lt x (hvoter x hx).2
    · intro x hx
      rw [hraft, (hvoter x hx).1]
      exact hcamp.upToDate x (hvoter x hx).2
    · rw [hraft]
      exact Nat.not_le.mp hwon
    · rw [hraft]
      show (c.raft z).majority ≤ (c.raft z).votesReceived + 1 + (voters.erase y).card
      omega

/-- A candidate that is not behind its voters takes office. -/
theorem Campaign.elected (hcamp : Campaign M c z t voters) :
    ∃ c', Path M c c' ∧ Office M c' z t ∧ (c'.raft z).log = (c.raft z).log ++ [⟨t, []⟩] := by
  induction hcard : voters.card generalizing c voters with
  | zero =>
      have henough := hcamp.enough
      have hopen := hcamp.undecided
      omega
  | succ k ih =>
      obtain ⟨y, hy⟩ := Finset.card_pos.mp (by omega : 0 < voters.card)
      obtain ⟨c₁, hpath, hoffice | ⟨hcamp₁, hlog₁⟩⟩ := hcamp.ballot hy
      · exact ⟨c₁, hpath, hoffice⟩
      · obtain ⟨c', hpath', hoffice, hlog⟩ :=
          ih hcamp₁ (by rw [Finset.card_erase_of_mem hy]; omega)
        exact ⟨c', hpath.trans hpath', hoffice, hlog.trans (by rw [hlog₁])⟩

/-! ## Standing for election -/

theorem RaftNode.stand_currentTerm (hb : n.currentTerm + 1 < 2 ^ 64 - 1) :
    n.stand.currentTerm = n.currentTerm + 1 :=
  Nat.mod_eq_of_lt (by omega)

/-- One election timeout of a node that is not alone: it asks all the others. -/
theorem Path.stand (hrun : AnyRun c) (hz : z ∈ M) (hrole : (c.raft z).role ≠ .leader)
    (hstop : (c.raft z).stopping = false) (hsize : 2 ≤ N)
    (hb : (c.raft z).currentTerm + 1 < 2 ^ 64 - 1) :
    ∃ c', Path M c c' ∧ c'.raft z = { (c.raft z).stand with effects := [] } ∧
      (c'.processes z).applying = (c.processes z).applying ∧
      (∀ x ≠ z, c'.processes x = c.processes x) ∧
      ∀ y ≠ z, ⟨z, y, (c.raft z).stand.voteRequest⟩ ∈ c'.voteRequests ∧
        ⟨z, y, (c.raft z).stand.voteRequest⟩ ∈ (c'.processes z).voteSenders := by
  obtain ⟨h, hsim⟩ := hrun.exists_sim
  have hlost : ¬ (c.raft z).stand.majority ≤ (c.raft z).stand.votesReceived := by
    show ¬ (c.raft z).clusterSize / 2 + 1 ≤ 1
    rw [(hsim.tracks z).size]
    omega
  have hnode : (c.raft z).startElection = (c.raft z).stand.spawn
      ((c.raft z).stand.peers.map fun peer ↦ .voteSender peer (c.raft z).stand.voteRequest) := by
    rw [RaftNode.startElection, if_neg hlost]
  have hs : c.step (.timeout z) = some (c.settle z (c.raft z).startElection) := by
    simp [Cluster.step, Cluster.operation, hrole, hstop]
  have hself := c.settle_self z (c.raft z).startElection
  have hother : ∀ x ≠ z, (c.settle z (c.raft z).startElection).processes x = c.processes x :=
    fun x hx ↦ c.settle_of_ne hx _
  have hraft : (c.settle z (c.raft z).startElection).raft z =
      { (c.raft z).stand with effects := [] } := by
    rw [Cluster.raft, hself, hnode]
    rfl
  refine ⟨_, Path.single hrun hs hz z hother ?_, hraft, by rw [hself], hother, fun y hy ↦ ?_⟩
  · rw [hraft]
    exact (RaftNode.stand_currentTerm hb).trans_lt hb
  · rcases startElection_calls (hsim.tracks z).id (hsim.tracks z).size (hsim.nodes z).idle with
      ⟨hwon, -⟩ | ⟨-, hcalls⟩
    · rw [hnode] at hwon
      simp [RaftNode.spawn, RaftNode.stand, RaftNode.emit] at hwon
    · have hmem : (⟨z, y, (c.raft z).stand.voteRequest⟩ : VoteCall N) ∈
          (c.raft z).startElection.effects.filterMap (Cluster.voteCallOf z) := by
        rw [hcalls]
        refine List.mem_map.mpr ⟨y, ?_, rfl⟩
        simpa using hy
      refine ⟨List.mem_append_right _ hmem, ?_⟩
      rw [hself]
      exact List.mem_append_right _ hmem

theorem SameLogs.stand (hraft : c'.raft z = { (c.raft z).stand with effects := [] })
    (happlying : (c'.processes z).applying = (c.processes z).applying)
    (hother : ∀ x ≠ z, c'.processes x = c.processes x)
    (hterm : (c.raft z).stand.currentTerm = (c.raft z).currentTerm + 1) : SameLogs c c' :=
  .of_operation hother hraft happlying rfl rfl (hterm ▸ Nat.le_succ _) rfl rfl

/-- A node that is not alone stands for election until it has reached term `t`. -/
theorem Path.standUpTo (hrun : AnyRun c) (hz : z ∈ M) (hrole : (c.raft z).role ≠ .leader)
    (hstop : (c.raft z).stopping = false) (hsize : 2 ≤ N) (hle : (c.raft z).currentTerm ≤ t)
    (hb : t < 2 ^ 64 - 1) :
    ∃ c', Path M c c' ∧ SameLogs c c' ∧ (c'.raft z).role ≠ .leader ∧
      (c'.raft z).currentTerm = t ∧ ∀ x ≠ z, c'.processes x = c.processes x := by
  obtain ⟨k, rfl⟩ := Nat.exists_eq_add_of_le hle
  induction k generalizing c with
  | zero => exact ⟨c, .refl, .refl c, hrole, rfl, fun _ _ ↦ rfl⟩
  | succ k ih =>
      obtain ⟨c₁, hpath, hraft, happlying, hother, -⟩ :=
        Path.stand hrun hz hrole hstop hsize (by omega)
      have hstands := RaftNode.stand_currentTerm (n := c.raft z) (by omega)
      have hsame := SameLogs.stand hraft happlying hother hstands
      have hterm : (c₁.raft z).currentTerm = (c.raft z).currentTerm + 1 := by
        rw [hraft]
        exact hstands
      have hrole₁ : (c₁.raft z).role ≠ .leader := by
        rw [hraft]
        simp [RaftNode.stand, RaftNode.emit]
      have hstop₁ := (hsame.stopping z).trans hstop
      obtain ⟨c', hpath', hsame', hrole', hterm', hother'⟩ :=
        ih (hpath.anyRun hrun) hrole₁ hstop₁ (Nat.le_add_right _ _) (by omega)
      refine ⟨c', hpath.trans hpath', hsame.trans hsame', hrole', by omega, fun x hx ↦ ?_⟩
      rw [hother' x hx, hother x hx]

/-- A node that does not lead becomes a candidate of term `t` and asks all the others. -/
theorem Path.campaign (hrun : AnyRun c) (hz : z ∈ M) (hrole : (c.raft z).role ≠ .leader)
    (hstop : (c.raft z).stopping = false) (hsound : (c.processes z).Sound) (hsize : 2 ≤ N)
    (hM : N < 2 * M.card) (hterm : ∀ y ∈ M, (c.raft y).currentTerm < t)
    (hlog : ∀ y ∈ M, (c.raft z).UpToDate (c.raft y)) (hb : t < 2 ^ 64 - 1) :
    ∃ c', Path M c c' ∧ Campaign M c' z t (M.erase z) ∧ (c'.raft z).log = (c.raft z).log := by
  have hlt := hterm z hz
  obtain ⟨c₁, hpath₁, hsame₁, hrole₁, hterm₁, hother₁⟩ :=
    Path.standUpTo hrun hz hrole hstop hsize (Nat.le_sub_one_of_lt hlt) (by omega)
  have hrun₁ := hpath₁.anyRun hrun
  obtain ⟨c', hpath, hraft, happlying, hother, hcalls⟩ := Path.stand hrun₁ hz hrole₁
    ((hsame₁.stopping z).trans hstop) hsize (by omega)
  have hstands := RaftNode.stand_currentTerm (n := c₁.raft z) (by omega)
  have hsame := hsame₁.trans (.stand hraft happlying hother hstands)
  have hterm' : (c'.raft z).currentTerm = t := by
    rw [hraft]
    show (c₁.raft z).stand.currentTerm = t
    omega
  have hvoter : ∀ y ∈ M.erase z, c'.raft y = c.raft y ∧ y ∈ M := by
    intro y hy
    obtain ⟨hyz, hmem⟩ := Finset.mem_erase.mp hy
    exact ⟨congrArg Process.raft ((hother y hyz).trans (hother₁ y hyz)), hmem⟩
  obtain ⟨h, hsim⟩ := hrun₁.exists_sim
  have hN := (hsim.tracks z).size
  have hcard := Finset.card_erase_add_one hz
  refine ⟨c', hpath₁.trans hpath, ⟨hpath.anyRun hrun₁, ?_, hterm',
    (hsame.stopping z).trans hstop, hsame.sound z hsound, hz, fun y hy ↦ ?_,
    Finset.erase_subset z M, Finset.notMem_erase z M, fun y hy ↦ ?_, fun y hy ↦ ?_,
    fun y hy ↦ ?_, fun y hy ↦ ?_, ?_, ?_⟩, hsame.log z⟩
  · rw [hraft]
    rfl
  · by_cases hyz : y = z
    · exact (hyz ▸ hterm').le
    · obtain ⟨heq, -⟩ := hvoter y (Finset.mem_erase.mpr ⟨hyz, hy⟩)
      rw [heq]
      exact (hterm y hy).le
  · rw [hraft]
    exact (hcalls y (Finset.ne_of_mem_erase hy)).1
  · rw [hraft]
    exact (hcalls y (Finset.ne_of_mem_erase hy)).2
  · rw [(hvoter y hy).1]
    exact hterm y (hvoter y hy).2
  · exact (hlog y (hvoter y hy).2).congr (hsame.log z) (hsame.log y)
  · rw [hraft]
    show 1 < (c₁.raft z).clusterSize / 2 + 1
    omega
  · rw [hraft]
    show (c₁.raft z).clusterSize / 2 + 1 ≤ 1 + (M.erase z).card
    omega

/-- A node that leads can be brought to step down by another one. -/
theorem Path.vacate (hrun : AnyRun c) (hup : ∀ i ∈ M, (c.raft i).stopping = false)
    (hfits : ∀ i ∈ M, Shippable (c.raft i).log.tail) (hsize : 2 ≤ N)
    (hterms : ∀ i ∈ M, (c.raft i).currentTerm ≤ t) (hb : t + 1 < 2 ^ 64 - 1) (hz : z ∈ M)
    (hy : y ∈ M) (hyz : y ≠ z) (hleads : (c.raft z).role = .leader)
    (hrole : (c.raft y).role ≠ .leader) :
    ∃ c', Path M c c' ∧ SameLogs c c' ∧ (c'.raft z).role ≠ .leader ∧
      ∀ i ∈ M, (c'.raft i).currentTerm ≤ t + 1 := by
  obtain ⟨c₁, hpath₁, hsame₁, -, hterm₁, hother₁⟩ :=
    Path.standUpTo hrun hy hrole (hup y hy) hsize ((hterms y hy).trans (Nat.le_succ t)) hb
  have hraft₁ : ∀ i ≠ y, c₁.raft i = c.raft i := fun i hi ↦ congrArg Process.raft (hother₁ i hi)
  have hlater : (c₁.raft z).currentTerm < (c₁.raft y).currentTerm := by
    rw [hterm₁, hraft₁ z (Ne.symm hyz)]
    exact Nat.lt_succ_of_le (hterms z hz)
  obtain ⟨c', hpath, hsame, hrole', hterm, hother⟩ := Path.overtaken (hpath₁.anyRun hrun) hz hy
    (by rw [hraft₁ z (Ne.symm hyz)]; exact hleads) ((hsame₁.stopping z).trans (hup z hz))
    (by rw [hsame₁.log z]; exact hfits z hz) hlater
  refine ⟨c', hpath₁.trans hpath, hsame₁.trans hsame, by simp [hrole'], fun i hi ↦ ?_⟩
  by_cases hiz : i = z
  · rw [hiz, hterm, hterm₁]
  · rw [hother i hiz]
    by_cases hiy : i = y
    · rw [hiy, hterm₁]
    · rw [hraft₁ i hiy]
      exact (hterms i hi).trans (Nat.le_succ t)

/-- Two leaders are not of the same term. -/
theorem Sim.leader_unique (hsim : Sim c h) (hx : (c.raft x).role = .leader)
    (hy : (c.raft y).role = .leader) (hterm : (c.raft x).currentTerm = (c.raft y).currentTerm) :
    x = y := by
  rw [(hsim.tracks x).term, (hsim.tracks y).term] at hterm
  have hleads := ((hsim.tracks x).leads hx).1
  rw [hterm, ((hsim.tracks y).leads hy).1] at hleads
  exact (Option.some.inj hleads).symm

/-- In a majority of more than one node, any of them can be brought to a state in which it
does not lead. -/
theorem exists_vacancy (hrun : AnyRun c) (hup : ∀ i ∈ M, (c.raft i).stopping = false)
    (hfits : ∀ i ∈ M, Shippable (c.raft i).log.tail) (hsize : 2 ≤ N) (hM : N < 2 * M.card)
    (hterms : ∀ i ∈ M, (c.raft i).currentTerm ≤ t) (hb : t + 1 < 2 ^ 64 - 1) (hz : z ∈ M) :
    ∃ c', Path M c c' ∧ SameLogs c c' ∧ (c'.raft z).role ≠ .leader ∧
      ∀ i ∈ M, (c'.raft i).currentTerm ≤ t + 1 := by
  by_cases hleads : (c.raft z).role = .leader
  · obtain ⟨y, hy, hyz⟩ := Finset.exists_mem_ne (by omega : 1 < M.card) z
    by_cases hrole : (c.raft y).role = .leader
    · obtain ⟨h, hsim⟩ := hrun.exists_sim
      rcases lt_trichotomy (c.raft y).currentTerm (c.raft z).currentTerm with hlt | heq | hlt
      -- the other leader steps down first
      · obtain ⟨c₁, hpath₁, hsame₁, hrole₁, hterm₁, hother₁⟩ :=
          Path.overtaken hrun hy hz hrole (hup y hy) (hfits y hy) hlt
        have hterms₁ : ∀ i ∈ M, (c₁.raft i).currentTerm ≤ t := by
          intro i hi
          by_cases hiy : i = y
          · rw [hiy, hterm₁]
            exact hterms z hz
          · rw [hother₁ i hiy]
            exact hterms i hi
        obtain ⟨c', hpath, hsame, hrest⟩ := Path.vacate (hpath₁.anyRun hrun)
          (fun i hi ↦ (hsame₁.stopping i).trans (hup i hi))
          (fun i hi ↦ by rw [hsame₁.log i]; exact hfits i hi) hsize hterms₁ hb hz hy hyz
          (by rw [hother₁ z (Ne.symm hyz)]; exact hleads) (by simp [hrole₁])
        exact ⟨c', hpath₁.trans hpath, hsame₁.trans hsame, hrest⟩
      · exact absurd (hsim.leader_unique hrole hleads heq) hyz
      · obtain ⟨c', hpath, hsame, hrole', hterm, hother⟩ :=
          Path.overtaken hrun hz hy hleads (hup z hz) (hfits z hz) hlt
        refine ⟨c', hpath, hsame, by simp [hrole'], fun i hi ↦ ?_⟩
        by_cases hiz : i = z
        · rw [hiz, hterm]
          exact (hterms y hy).trans (Nat.le_succ t)
        · rw [hother i hiz]
          exact (hterms i hi).trans (Nat.le_succ t)
    · exact Path.vacate hrun hup hfits hsize hterms hb hz hy hyz hleads hrole
  · exact ⟨c, .refl, .refl c, hleads, fun i hi ↦ (hterms i hi).trans (Nat.le_succ t)⟩

/-- A node on its own takes office at once. -/
theorem Path.solo (hrun : AnyRun c) (hz : z ∈ M) (hrole : (c.raft z).role ≠ .leader)
    (hstop : (c.raft z).stopping = false) (hsound : (c.processes z).Sound) (hsize : N ≤ 1)
    (hb : (c.raft z).currentTerm + 1 < 2 ^ 64 - 1) :
    ∃ c', Path M c c' ∧ Office M c' z ((c.raft z).currentTerm + 1) := by
  obtain ⟨h, hsim, hbook⟩ := hrun.exists_bookkept
  have hnode : (c.raft z).startElection = (c.raft z).stand.becomeLeader := by
    rw [RaftNode.startElection, if_pos]
    show (c.raft z).clusterSize / 2 + 1 ≤ 1
    rw [(hsim.tracks z).size]
    omega
  have hterm := RaftNode.stand_currentTerm hb
  have hs : c.step (.timeout z) = some (c.settle z (c.raft z).startElection) := by
    simp [Cluster.step, Cluster.operation, hrole, hstop]
  have hself := c.settle_self z (c.raft z).startElection
  rw [hnode] at hs hself
  have hraft : (c.settle z (c.raft z).stand.becomeLeader).raft z =
      { (c.raft z).stand.becomeLeader with effects := [] } := by
    rw [Cluster.raft, hself]
  have hterm' : ((c.settle z (c.raft z).stand.becomeLeader).raft z).currentTerm =
      (c.raft z).currentTerm + 1 := by
    obtain ⟨commit, found, es, -, hframe⟩ := (c.raft z).stand.becomeLeader_frame
    rw [hraft, hframe]
    exact hterm
  have hpath : Path M c (c.settle z (c.raft z).stand.becomeLeader) :=
    Path.single hrun hs hz z (fun x hx ↦ c.settle_of_ne hx _) (hterm' ▸ hb)
  have hsound' := hsound.operate (hnode ▸ Raises.startElection (c.raft z)) hraft (by rw [hself])
    (RaftNode.becomeLeader_commit_le hsound.commit_le)
  have hthreads : ((c.settle z (c.raft z).stand.becomeLeader).processes z).replicators =
      (c.processes z).replicators ++
        (c.raft z).stand.becomeLeader.effects.filterMap Cluster.replicatorOf := by
    rw [hself]
  refine ⟨_, hpath, .of_becomeLeader hraft (hpath.anyRun hrun) hz (hsim.tracks z).id hterm hstop
    hsound' (fun y hy ↦ ?_) hthreads fun r hr ↦ ?_⟩
  · obtain rfl : y = z := by
      apply Fin.ext
      omega
    exact hterm'.le
  · have hle := (hbook.peers z).keys.term_le _ (List.mem_map_of_mem hr)
    exact (Nat.lt_succ_of_le hle).ne

/-- A leader on its own is as good as a new one. -/
theorem Office.of_sole (hrun : AnyRun c) (hz : z ∈ M) (hleads : (c.raft z).role = .leader)
    (hstop : (c.raft z).stopping = false) (hsound : (c.processes z).Sound) (hsize : N ≤ 1) :
    Office M c z (c.raft z).currentTerm := by
  have hall : ∀ y : Fin N, y = z := by
    intro y
    apply Fin.ext
    omega
  obtain ⟨h, -, hbook⟩ := hrun.exists_bookkept
  refine ⟨hrun, hleads, rfl, hstop, hsound, hz, fun y _ ↦ ?_, fun r hr _ ↦ ?_, fun y hy ↦ ?_⟩
  · rw [hall y]
  · exact absurd (hall r.peer) ((hbook.peers z).keys.peer_ne _ (List.mem_map_of_mem hr))
  · exact absurd (hall y) hy

/-- A majority of running nodes, whatever their roles, has one of them elected. Unless it is on
its own, the new leader has a no-op behind its old log. -/
theorem exists_office (hrun : AnyRun c) (hsound : ∀ i, (c.processes i).Sound)
    (hM : N < 2 * M.card) (hup : ∀ i ∈ M, (c.raft i).stopping = false)
    (hfits : 1 < N → ∀ i ∈ M, Shippable (c.raft i).log.tail)
    (hterms : ∀ i ∈ M, (c.raft i).currentTerm < 2 ^ 64 - 3) :
    ∃ z t c', Path M c c' ∧ Office M c' z t ∧ (∀ i ∈ M, (c.raft i).currentTerm ≤ t) ∧
      (1 < N → (c'.raft z).log = (c.raft z).log ++ [⟨t, []⟩]) := by
  have hne : M.Nonempty := Finset.card_pos.mp (by omega)
  obtain ⟨z, hz, hlog⟩ := exists_upToDate c hne
  obtain ⟨y, hy, hmax⟩ := M.exists_max_image (fun i ↦ (c.raft i).currentTerm) hne
  have hb := hterms y hy
  rcases Nat.lt_or_ge 1 N with hsize | hsize
  · obtain ⟨c₁, hpath₁, hsame₁, hrole₁, hterms₁⟩ :=
      exists_vacancy hrun hup (hfits hsize) hsize hM hmax (by omega) hz
    obtain ⟨c₂, hpath₂, hcamp, hlog₂⟩ := Path.campaign (hpath₁.anyRun hrun) hz hrole₁
      ((hsame₁.stopping z).trans (hup z hz)) (hsame₁.sound z (hsound z)) hsize hM
      (fun i hi ↦ Nat.lt_succ_of_le (hterms₁ i hi))
      (fun i hi ↦ (hlog i hi).congr (hsame₁.log z) (hsame₁.log i)) (by omega)
    obtain ⟨c', hpath', hoffice, hlog'⟩ := hcamp.elected
    refine ⟨z, _, c', (hpath₁.trans hpath₂).trans hpath', hoffice, fun i hi ↦ ?_, fun _ ↦ ?_⟩
    · exact (hmax i hi).trans (by omega)
    · rw [hlog', hlog₂, hsame₁.log z]
  · have hall : ∀ i : Fin N, i = z := by
      intro i
      apply Fin.ext
      omega
    by_cases hleads : (c.raft z).role = .leader
    · refine ⟨z, _, c, .refl, .of_sole hrun hz hleads (hup z hz) (hsound z) hsize, fun i _ ↦ ?_,
        fun hmore ↦ absurd hmore (Nat.not_lt.mpr hsize)⟩
      rw [hall i]
    · have hbound := hterms z hz
      obtain ⟨c', hpath, hoffice⟩ :=
        Path.solo hrun hz hleads (hup z hz) (hsound z) hsize (by omega)
      refine ⟨z, _, c', hpath, hoffice, fun i _ ↦ ?_,
        fun hmore ↦ absurd hmore (Nat.not_lt.mpr hsize)⟩
      rw [hall i]
      exact Nat.le_succ _

end Dkvs
