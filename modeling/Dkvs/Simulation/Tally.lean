import Dkvs.Simulation.Voting

/-!
# What a candidate has counted

`votesReceived_` is a bare counter. It never exceeds the number of nodes that
have cast their vote for the candidate in its present term and whose vote sender
is no longer waiting: each vote sender is started once, with the election, and
ends when it has delivered its reply.
-/

namespace Dkvs

open ReplicatedLog

variable {N : ℕ} {h h' : History N} {i : Fin N} {n n' n'' : RaftNode}

/-- The operation starts no vote sender, and a node that is a candidate at its
end was one with the same count before. -/
structure Steady (n n' : RaftNode) : Prop where
  effects : ∃ es, n'.effects = n.effects ++ es ∧ ∀ peer args, Effect.voteSender peer args ∉ es
  candidate : n'.role = .candidate → n.role = .candidate ∧
    n'.votesReceived = n.votesReceived ∧ n'.currentTerm = n.currentTerm

namespace Steady

theorem refl (n : RaftNode) : Steady n n :=
  ⟨⟨[], by simp, by simp⟩, fun hrole ↦ ⟨hrole, rfl, rfl⟩⟩

theorem trans (hs : Steady n n') (hs' : Steady n' n'') : Steady n n'' := by
  obtain ⟨es, hes, hquiet⟩ := hs.effects
  obtain ⟨fs, hfs, hquiet'⟩ := hs'.effects
  refine ⟨⟨es ++ fs, by rw [hfs, hes, List.append_assoc], fun peer args hmem ↦ ?_⟩, fun hrole ↦ ?_⟩
  · rcases List.mem_append.mp hmem with hmem | hmem
    · exact hquiet peer args hmem
    · exact hquiet' peer args hmem
  · obtain ⟨hrole', hvotes', hterm'⟩ := hs'.candidate hrole
    obtain ⟨hrole'', hvotes, hterm⟩ := hs.candidate hrole'
    exact ⟨hrole'', hvotes'.trans hvotes, hterm'.trans hterm⟩

theorem becomeFollower (n : RaftNode) (t : ℕ) : Steady n (n.becomeFollower t) := by
  refine ⟨?_, by simp⟩
  have hretirement : ∀ peer args, Effect.voteSender peer args ∉ n.retirement :=
    fun _ _ ↦ n.notices_retirement.notMem nofun
  rcases Nat.lt_or_ge n.currentTerm t with ht | ht
  · exact ⟨_, by rw [RaftNode.becomeFollower_of_lt ht], by simpa using hretirement⟩
  · exact ⟨_, by rw [RaftNode.becomeFollower_of_le ht], hretirement⟩

theorem push (n : RaftNode) (e : LogEntry) : Steady n (n.push e) :=
  ⟨⟨[.append e], rfl, by simp⟩, fun hrole ↦ ⟨hrole, rfl, rfl⟩⟩

theorem countSelf (n : RaftNode) : Steady n n.countSelf :=
  ⟨⟨[], by simp [RaftNode.countSelf], by simp⟩, fun hrole ↦ ⟨hrole, rfl, rfl⟩⟩

theorem advanceCommit (n : RaftNode) : Steady n n.advanceCommit := by
  rcases n.advanceCommit_cases with hsame | ⟨-, m, -, -, -, -, hmove⟩
  · rw [hsame]
    exact refl n
  · rw [hmove]
    exact ⟨⟨_, rfl, by simp⟩, fun hrole ↦ ⟨hrole, rfl, rfl⟩⟩

theorem notify (n : RaftNode) (cv : RaftNode.CondVar) : Steady n (n.emit (.notify cv)) :=
  ⟨⟨[_], rfl, by simp⟩, fun hrole ↦ ⟨hrole, rfl, rfl⟩⟩

/-- Appending as a leader, and the scan for a new commit index after it. -/
theorem appendOwn (n : RaftNode) (e : LogEntry) : Steady n (n.push e).countSelf.advanceCommit :=
  (push n e).trans ((countSelf _).trans (advanceCommit _))

theorem becomeLeader (n : RaftNode) : Steady n n.becomeLeader := by
  have hoffice : Steady n n.takeOffice :=
    ⟨⟨[_], rfl, by simp⟩, fun hrole ↦ by simp [RaftNode.takeOffice] at hrole⟩
  refine hoffice.trans ((appendOwn _ ⟨n.currentTerm, []⟩).trans ?_)
  exact ⟨⟨_, rfl, by simp⟩, fun hrole ↦ ⟨hrole, rfl, rfl⟩⟩

theorem submit (n : RaftNode) (command : Bytes) : Steady n (n.submit command).1 := by
  rcases n.submit_cases command with ⟨hsame, -⟩ | ⟨-, hnode, -, -⟩
  · rw [hsame]
    exact refl n
  · rw [hnode]
    exact (appendOwn n _).trans (notify _ _)

theorem heed (n : RaftNode) {args : AppendEntriesArgs} (hterm : n.currentTerm ≤ args.term) :
    Steady n (n.heed args) := by
  rw [RaftNode.heed_eq hterm]
  exact ⟨(becomeFollower n args.term).effects, by simp⟩

theorem appendAll (n : RaftNode) (es : List LogEntry) : Steady n (n.appendAll es) := by
  rw [RaftNode.appendAll_eq]
  exact ⟨⟨_, rfl, by simp⟩, fun hrole ↦ ⟨hrole, rfl, rfl⟩⟩

theorem mergeEntries (n : RaftNode) (es : List LogEntry) {pos : ℕ} (hpos : 0 < pos)
    (hlen : pos ≤ n.log.length) : Steady n (n.mergeEntries pos es) := by
  obtain ⟨j, -, ⟨-, heq⟩ | ⟨-, -, heq⟩ | ⟨e, -, -, -, heq⟩⟩ := n.mergeEntries_cases es hpos hlen
  · rw [heq]
    exact refl n
  · rw [heq]
    exact appendAll n _
  · rw [heq]
    have hcut : Steady n (n.truncateLog (pos + j)) :=
      ⟨⟨[_], rfl, by simp⟩, fun hrole ↦ ⟨hrole, rfl, rfl⟩⟩
    exact hcut.trans (appendAll _ _)

theorem followCommit (n : RaftNode) (leaderCommit : ℕ) :
    Steady n (n.followCommit leaderCommit) := by
  unfold RaftNode.followCommit
  split_ifs with hlt
  · exact ⟨⟨[_], rfl, by simp⟩, fun hrole ↦ ⟨hrole, rfl, rfl⟩⟩
  · exact refl n

theorem onAppendEntries (n : RaftNode) (hlog : n.log ≠ []) (args : AppendEntriesArgs) :
    Steady n (n.onAppendEntries args).1 := by
  rcases n.onAppendEntries_cases args with ⟨-, hsame, -⟩ |
    ⟨hle, ⟨hheed, -⟩ | ⟨hprev, -, hmerge⟩⟩
  · rw [hsame]
    exact refl n
  · rw [hheed]
    exact heed n hle
  · rw [hmerge]
    have hlen := RaftNode.prevLogIndex_lt_heed hlog hprev
    exact (heed n hle).trans ((mergeEntries _ _ (Nat.succ_pos _) hlen).trans (followCommit _ _))

theorem onRequestVote (n : RaftNode) (args : RequestVoteArgs) :
    Steady n (n.onRequestVote args).1 := by
  rcases n.onRequestVote_cases args with ⟨-, hsame, -⟩ | ⟨-, m, hm, hcases⟩
  · rw [hsame]
    exact refl n
  · have hfirst : Steady n m := by
      rw [hm]
      split_ifs with hlt
      · exact becomeFollower n args.term
      · exact refl n
    rcases hcases with ⟨hnode, -⟩ | ⟨-, -, hnode⟩
    · rw [hnode]
      exact hfirst
    · rw [hnode]
      exact hfirst.trans ⟨⟨[_], rfl, by simp⟩, fun hrole ↦ ⟨hrole, rfl, rfl⟩⟩

theorem onAppendReply (n : RaftNode) (peer leaderTerm : ℕ) (args : AppendEntriesArgs)
    (reply : AppendEntriesReply) :
    Steady n (n.onAppendReply peer leaderTerm args reply).1 := by
  rcases n.onAppendReply_cases peer leaderTerm args reply with hsame | ⟨-, hnode⟩ |
    ⟨-, -, ⟨-, next, hnode⟩ | ⟨next, hnode⟩⟩
  · rw [hsame]
    exact refl n
  · rw [hnode]
    exact becomeFollower n reply.term
  · rw [hnode]
    have hset : Steady n { n with
        matchIndex := n.matchIndex.set peer
          (max (n.matchIndex.getD peer 0) (args.prevLogIndex + args.entries.length))
        nextIndex := next } :=
      ⟨⟨[], by simp, by simp⟩, fun hrole ↦ ⟨hrole, rfl, rfl⟩⟩
    exact hset.trans (advanceCommit _)
  · rw [hnode]
    exact ⟨⟨[], by simp, by simp⟩, fun hrole ↦ ⟨hrole, rfl, rfl⟩⟩

end Steady

theorem onVoteReply_quiet (n : RaftNode) (args : RequestVoteArgs) (reply : RequestVoteReply) :
    ∃ es, (n.onVoteReply args reply).effects = n.effects ++ es ∧
      ∀ peer args', Effect.voteSender peer args' ∉ es := by
  rcases n.onVoteReply_cases args reply with hnode | ⟨-, hnode⟩ |
    ⟨-, -, -, ⟨-, hnode⟩ | ⟨-, hnode⟩⟩
  · rw [hnode]
    exact (Steady.refl n).effects
  · rw [hnode]
    exact (Steady.becomeFollower n reply.term).effects
  · rw [hnode]
    exact ⟨[], by simp, by simp⟩
  · rw [hnode]
    exact (Steady.becomeLeader { n with votesReceived := n.votesReceived + 1 }).effects

theorem calls_eq_nil {es : List Effect} (hquiet : ∀ peer args, Effect.voteSender peer args ∉ es) :
    es.filterMap (Cluster.voteCallOf i) = [] := by
  rw [List.filterMap_eq_nil_iff]
  intro e he
  cases e with
  | voteSender peer args => exact (hquiet peer args he).elim
  | _ => rfl

/-- The nodes whose vote for `i` in its present term has been counted. -/
def counted (h : History N) (i : Fin N) (senders : List (VoteCall N)) : Finset (Fin N) :=
  Finset.univ.filter fun x ↦ h.vote x (h.term i) = some i ∧
    ∀ q ∈ senders, q.args.term = h.term i → q.dst ≠ x

/-- The counter of a candidate is covered by votes. -/
def Tally (h : History N) (i : Fin N) (n : RaftNode) (senders : List (VoteCall N)) : Prop :=
  n.role = .candidate → n.votesReceived ≤ (counted h i senders).card

/-- The vote senders of one process differ in term or addressee. -/
def Distinct (senders : List (VoteCall N)) : Prop :=
  (senders.map fun q ↦ (q.args.term, q.dst)).Nodup

variable {senders senders' : List (VoteCall N)}

theorem counted_mono (hext : Extends h h') (hterm : h'.term i = h.term i)
    (hsub : senders' ⊆ senders) : counted h i senders ⊆ counted h' i senders' := by
  intro x hx
  simp only [counted, Finset.mem_filter, Finset.mem_univ, true_and] at hx ⊢
  rw [hterm]
  exact ⟨hext.vote hx.1, fun q hq ↦ hx.2 q (hsub hq)⟩

theorem Tally.mono (htally : Tally h i n senders) (hext : Extends h h')
    (hterm : h'.term i = h.term i) (hsub : senders' ⊆ senders) : Tally h' i n senders' :=
  fun hrole ↦ (htally hrole).trans (Finset.card_le_card (counted_mono hext hterm hsub))

theorem Tally.steady (htally : Tally h i n senders) (hext : Extends h h') (hs : Steady n n')
    (ht : Tracks h i n) (ht' : Tracks h' i n') : Tally h' i n' senders := by
  intro hrole
  obtain ⟨hrole', hvotes, hterm⟩ := hs.candidate hrole
  rw [ht.term, ht'.term] at hterm
  rw [hvotes]
  exact htally.mono hext hterm (List.Subset.refl senders) hrole'

/-- A vote sender that has delivered a granted vote adds one to the count. -/
theorem card_counted_eraseIdx (hdistinct : Distinct senders) {k : ℕ} {q : VoteCall N}
    (hq : senders[k]? = some q) (hterm : q.args.term = h.term i)
    (hvote : h.vote q.dst (h.term i) = some i) :
    (counted h i senders).card + 1 ≤ (counted h i (senders.eraseIdx k)).card := by
  have hnew : q.dst ∉ counted h i senders := by
    intro hmem
    simp only [counted, Finset.mem_filter, Finset.mem_univ, true_and] at hmem
    exact hmem.2 q (List.mem_of_getElem? hq) hterm rfl
  rw [← Finset.card_insert_of_notMem hnew]
  apply Finset.card_le_card
  apply Finset.insert_subset
  · simp only [counted, Finset.mem_filter, Finset.mem_univ, true_and]
    refine ⟨hvote, fun q' hq' hterm' hdst ↦ ?_⟩
    obtain ⟨j, hne, hj⟩ := List.mem_eraseIdx_iff_getElem?.mp hq'
    obtain ⟨hlt, -⟩ := List.getElem?_eq_some_iff.mp hj
    apply hne
    rw [← List.getElem?_inj (by simpa using hlt) hdistinct]
    simp [hj, hq, hterm', hterm, hdst]
  · exact counted_mono (Extends.refl h) rfl List.eraseIdx_subset

/-! ## The vote senders of a new election -/

theorem voteCalls_eq (hid : n.id = i) (hsize : n.clusterSize = N) (args : RequestVoteArgs) :
    (n.peers.map fun peer ↦ Effect.voteSender peer args).filterMap (Cluster.voteCallOf i) =
      ((List.finRange N).filter (· ≠ i)).map fun x ↦ ⟨i, x, args⟩ := by
  have hrange : List.range N = (List.finRange N).map Fin.val := by simp
  rw [RaftNode.peers, hid, hsize, hrange, List.filter_map, List.filterMap_map,
    List.filterMap_map, ← List.filterMap_eq_map]
  congr 1
  · funext x
    simp [Cluster.voteCallOf]
  · congr 1
    funext x
    simp [Fin.ext_iff]

/-- An election starts one vote sender for each peer, unless it is won at once. -/
theorem startElection_calls (hid : n.id = i) (hsize : n.clusterSize = N)
    (hidle : n.effects = []) :
    n.startElection.role = .leader ∧
        n.startElection.effects.filterMap (Cluster.voteCallOf i) = [] ∨
      n.startElection.votesReceived = 1 ∧
        n.startElection.effects.filterMap (Cluster.voteCallOf i) =
          ((List.finRange N).filter (· ≠ i)).map fun x ↦ ⟨i, x, n.stand.voteRequest⟩ := by
  have hstand : n.stand.effects.filterMap (Cluster.voteCallOf i) = [] := by
    simp [RaftNode.stand, RaftNode.emit, hidle, Cluster.voteCallOf]
  rw [RaftNode.startElection]
  split_ifs with hwon
  · left
    obtain ⟨es, hes, hquiet⟩ := (Steady.becomeLeader n.stand).effects
    refine ⟨n.stand.becomeLeader_role, ?_⟩
    rw [hes, List.filterMap_append, hstand, List.nil_append, calls_eq_nil hquiet]
  · right
    refine ⟨rfl, ?_⟩
    rw [RaftNode.spawn, List.filterMap_append, hstand, List.nil_append]
    exact voteCalls_eq hid hsize _

theorem Distinct.append_election (hdistinct : Distinct senders) {args : RequestVoteArgs}
    (hold : ∀ q ∈ senders, q.args.term < args.term) :
    Distinct (senders ++ ((List.finRange N).filter (· ≠ i)).map fun x ↦ ⟨i, x, args⟩) := by
  rw [Distinct, List.map_append, List.map_map]
  refine hdistinct.append ?_ ?_
  · refine ((List.nodup_finRange N).filter _).map fun x y hxy ↦ ?_
    simpa using hxy
  · intro key hkey hnew
    obtain ⟨q, hq, rfl⟩ := List.mem_map.mp hkey
    obtain ⟨x, -, hx⟩ := List.mem_map.mp hnew
    have hterm : args.term = q.args.term := congrArg Prod.fst hx
    have hlt := hold q hq
    omega

theorem one_le_card_counted {args : RequestVoteArgs}
    (hold : ∀ q ∈ senders, q.args.term < h.term i) (hvote : h.vote i (h.term i) = some i) :
    1 ≤ (counted h i
      (senders ++ ((List.finRange N).filter (· ≠ i)).map fun x ↦ ⟨i, x, args⟩)).card := by
  apply Finset.card_pos.mpr
  refine ⟨i, ?_⟩
  simp only [counted, Finset.mem_filter, Finset.mem_univ, true_and]
  refine ⟨hvote, fun q hq hterm ↦ ?_⟩
  rcases List.mem_append.mp hq with hq | hq
  · have hlt := hold q hq
    omega
  · obtain ⟨x, hx, rfl⟩ := List.mem_map.mp hq
    simpa using (List.mem_filter.mp hx).2

end Dkvs
