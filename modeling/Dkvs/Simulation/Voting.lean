import Dkvs.Simulation.Follower

/-!
# Elections

Standing for election, granting a vote and counting a reply, matched with the
abstract protocol. Node numbers fit into `int32_t`, so that the stored value of
`votedFor_` determines the vote.
-/

namespace Dkvs

open ReplicatedLog

variable {N : ℕ} {h h' : History N} {i src : Fin N} {n : RaftNode}

theorem encodeVote_eq_neg_one (hsize : N < 2 ^ 32) {v : Option (Fin N)}
    (hv : encodeVote v = -1) : v = none := by
  cases v with
  | none => rfl
  | some j => exact (toInt32_ne_neg_one (by omega) hv).elim

theorem encodeVote_eq_some (hsize : N < 2 ^ 32) {v : Option (Fin N)} {j : Fin N}
    (hv : encodeVote v = toInt32 j) : v = some j := by
  cases v with
  | none => exact (toInt32_ne_neg_one (by omega) hv.symm).elim
  | some k => rw [Fin.ext (toInt32_injective (by omega) (by omega) hv)]

namespace Tracks

/-- The vote recorded in the history is the one the node remembers. -/
theorem vote_free (ht : Tracks h i n) (hsize : N < 2 ^ 32)
    (hfree : n.votedFor = -1 ∨ n.votedFor = toInt32 src) :
    h.vote i (h.term i) = none ∨ h.vote i (h.term i) = some src := by
  rw [ht.vote] at hfree
  rcases hfree with hnone | hsome
  · exact Or.inl (encodeVote_eq_neg_one hsize hnone)
  · exact Or.inr (encodeVote_eq_some hsize hsome)

theorem upToDate (ht : Tracks h i n) {args : RequestVoteArgs} {l : List LogEntry}
    (hindex : args.lastLogIndex = l.length)
    (hterm : args.lastLogTerm = lastTerm LogEntry.term l)
    (hlog : n.lastLogTerm < args.lastLogTerm ∨
      args.lastLogTerm = n.lastLogTerm ∧ n.lastLogIndex ≤ args.lastLogIndex) :
    UpToDate LogEntry.term l (h.log i) := by
  rw [ht.lastLogTerm, ht.lastLogIndex, hindex, hterm] at hlog
  exact hlog

theorem castVote (ht : Tracks h i n) (hsize : N < 2 ^ 32) {args : RequestVoteArgs}
    (hok : VoteRequestOk h src args) (hterm : h.term i = args.term)
    (hlog : n.lastLogTerm < args.lastLogTerm ∨
      args.lastLogTerm = n.lastLogTerm ∧ n.lastLogIndex ≤ args.lastLogIndex)
    (hfree : n.votedFor = -1 ∨ n.votedFor = toInt32 args.candidateId) :
    Performs i h n
      { n with
        votedFor := toInt32 args.candidateId
        effects := n.effects ++ [.saveMeta n.currentTerm (toInt32 args.candidateId)] }
      (h.castVote i src) := by
  obtain ⟨l, hbid, hcandidate, hindex, hlastTerm⟩ := hok
  rw [hcandidate] at hfree ⊢
  refine Performs.single (e := .saveMeta n.currentTerm (toInt32 src)) ?_ rfl ?_
  · refine ⟨.single (.castVote h src l ?_ (ht.vote_free hsize hfree)
      (ht.upToDate hindex hlastTerm hlog)), ?_, by simp, trivial⟩
    · rw [hterm]
      exact hbid
    · simp [durable, State.castVote, DurableState.perform, ht.term, encodeVote]
  · exact { ht with vote := by simp [State.castVote, encodeVote] }

/-- A granted vote is cast in the term of the request. -/
theorem onRequestVote (ht : Tracks h i n) (hr : ReachableHistory h) (hsize : N < 2 ^ 32)
    {args : RequestVoteArgs} (hok : VoteRequestOk h src args) :
    ∃ h', Performs i h n (n.onRequestVote args).1 h' ∧
      ((n.onRequestVote args).2.voteGranted = true → h'.vote i args.term = some src) := by
  rcases n.onRequestVote_cases args with ⟨-, hsame, hnot⟩ | ⟨hle, m, hm, hcases⟩
  · refine ⟨h, ?_, by simp [hnot]⟩
    rw [hsame]
    exact Performs.refl ht
  · obtain ⟨g, hg, hgterm⟩ : ∃ g, Performs i h n m g ∧ g.term i = args.term := by
      rw [hm]
      split_ifs with hlt
      · obtain ⟨g, hg, hgterm, -⟩ := ht.becomeFollower hr (t := args.term) (ht.term ▸ hle)
        exact ⟨g, hg, hgterm⟩
      · exact ⟨h, Performs.refl ht, by rw [← ht.term]; omega⟩
    obtain ⟨hrg, hext, -⟩ := hg.spec hr
    rcases hcases with ⟨hnode, hnot⟩ | ⟨hlog, hfree, hnode⟩
    · refine ⟨g, ?_, by simp [hnot]⟩
      rw [hnode]
      exact hg
    · have hcast := hg.tracks.castVote hsize (hok.mono hext) hgterm hlog hfree
      refine ⟨g.castVote i src, ?_, fun _ ↦ ?_⟩
      · rw [hnode]
        exact hg.trans hr hcast
      · simp [State.castVote, hgterm]

/-- A candidate enters a new term and votes for itself. -/
theorem stand (ht : Tracks h i n) (hr : ReachableHistory h)
    (hbound : n.currentTerm < 2 ^ 64 - 1) :
    Performs i h n n.stand (h.stand i (h.term i + 1)) := by
  have hwrap : (n.currentTerm + 1) % 2 ^ 64 = h.term i + 1 := by
    rw [Nat.mod_eq_of_lt (by omega), ht.term]
  have hnew : h.leader (h.term i + 1) ≠ some i := by
    intro hleader
    have hel := ElectionInv.of_reachable hr
    have hle := hel.vote_le (hel.bid_vote (hel.leader_bid hleader))
    omega
  refine Performs.single (e := .saveMeta (h.term i + 1) (toInt32 i)) ?_ ?_ ?_
  · refine ⟨.single (.stand h (h.term i + 1) (Nat.lt_succ_self _)), ?_, by simp, trivial⟩
    simp [durable, State.stand, DurableState.perform, encodeVote]
  · simp only [RaftNode.stand, RaftNode.emit, hwrap, ht.id]
  · exact { ht with
      term := by simp only [RaftNode.stand, RaftNode.emit, hwrap, State.stand,
        Function.update_self]
      vote := by simp [RaftNode.stand, RaftNode.emit, ht.id, State.stand, encodeVote]
      leads := fun hl ↦ by simp [RaftNode.stand, RaftNode.emit] at hl
      stands := fun _ ↦ by simpa [State.stand] using hnew }

theorem voteRequestOk (ht : Tracks h i n) (hrole : n.role = .candidate) :
    VoteRequestOk h i n.voteRequest := by
  refine ⟨h.log i, ?_, ht.id, ht.lastLogIndex, ht.lastLogTerm⟩
  simp only [RaftNode.voteRequest, ht.term]
  exact (ht.stands hrole).1

theorem startElection (ht : Tracks h i n) (hr : ReachableHistory h)
    (hbound : n.currentTerm < 2 ^ 64 - 1) :
    ∃ h', Performs i h n n.startElection h' ∧ h'.term i = h.term i + 1 ∧
      h'.vote i (h.term i + 1) = some i := by
  have hstand := ht.stand hr hbound
  obtain ⟨hrs, hext, -⟩ := hstand.spec hr
  have hvote : (h.stand i (h.term i + 1)).vote i (h.term i + 1) = some i := by
    simp [State.stand]
  have hterm : (h.stand i (h.term i + 1)).term i = h.term i + 1 := by simp [State.stand]
  rw [RaftNode.startElection]
  split_ifs with hwon
  · have hquorum : (Quorums N).IsQuorum {i} := by
      have hone : n.stand.majority ≤ 1 := hwon
      rw [RaftNode.majority, hstand.tracks.size] at hone
      simpa [QuorumSystem.majority] using hone
    obtain ⟨g, hg, hgterm⟩ := hstand.tracks.becomeLeader hrs rfl hquorum (by simp [hterm, hvote])
    obtain ⟨-, hext', -⟩ := hg.spec hrs
    exact ⟨g, hstand.trans hr hg, hgterm.trans hterm, hext'.vote hvote⟩
  · refine ⟨_, hstand.trans hr (hstand.tracks.spawn ?_), hterm, hvote⟩
    intro e he
    obtain ⟨peer, -, rfl⟩ := List.mem_map.mp he
    exact ⟨.refl, rfl, by simp, hstand.tracks.voteRequestOk rfl⟩

/-- A reply that completes a quorum of votes makes the candidate a leader. -/
theorem onVoteReply (ht : Tracks h i n) (hr : ReachableHistory h) {args : RequestVoteArgs}
    {reply : RequestVoteReply}
    (hquorum : n.role = .candidate → n.currentTerm = args.term → reply.voteGranted = true →
      n.majority ≤ n.votesReceived + 1 →
      ∃ V, (Quorums N).IsQuorum V ∧ ∀ x ∈ V, h.vote x (h.term i) = some i) :
    ∃ h', Performs i h n (n.onVoteReply args reply) h' := by
  rcases n.onVoteReply_cases args reply with hsame | ⟨hterm, hnode⟩ |
    ⟨hrole, hcur, hgranted, ⟨-, hnode⟩ | ⟨hwon, hnode⟩⟩
  · rw [hsame]
    exact ⟨h, Performs.refl ht⟩
  · obtain ⟨g, hg, -⟩ := ht.becomeFollower hr (t := reply.term) (ht.term ▸ hterm.le)
    rw [hnode]
    exact ⟨g, hg⟩
  · rw [hnode]
    exact ⟨h, Performs.silent .refl rfl rfl { ht with }⟩
  · obtain ⟨V, hV, hvotes⟩ := hquorum hrole hcur hgranted hwon
    have hcount : Performs i h n { n with votesReceived := n.votesReceived + 1 } h :=
      Performs.silent .refl rfl rfl { ht with }
    obtain ⟨g, hg, -⟩ := hcount.tracks.becomeLeader hr hrole hV hvotes
    rw [hnode]
    exact ⟨g, hcount.trans hr hg⟩

end Tracks

end Dkvs
