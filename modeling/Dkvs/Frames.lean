import Dkvs.Operations

/-!
# What an operation leaves alone

Each operation is written as an update of the node: every field it does not
mention keeps its value. The effects are followed only as far as the replicator
threads they start.
-/

namespace Dkvs

/-- No replicator is started. -/
def Quiet (es : List Effect) : Prop := ∀ peer term, Effect.replicator peer term ∉ es

theorem Quiet.append {es fs : List Effect} (h : Quiet es) (h' : Quiet fs) : Quiet (es ++ fs) := by
  intro peer term hmem
  rcases List.mem_append.mp hmem with hmem | hmem
  · exact h peer term hmem
  · exact h' peer term hmem

theorem Notices.quiet {es : List Effect} (h : Notices es) : Quiet es :=
  fun _ _ ↦ h.notMem nofun

namespace RaftNode

theorem advanceCommit_frame (n : RaftNode) : ∃ commit es, Quiet es ∧
    n.advanceCommit = { n with commitIndex := commit, effects := n.effects ++ es } := by
  rcases n.advanceCommit_cases with hsame | ⟨-, m, -, -, -, -, hmove⟩
  · exact ⟨n.commitIndex, [], by simp [Quiet], by rw [hsame, List.append_nil]⟩
  · exact ⟨m, _, by simp [Quiet], hmove⟩

theorem submit_frame (n : RaftNode) (command : Bytes) :
    (n.submit command).1 = n ∨ n.role = .leader ∧ ∃ commit found es, Quiet es ∧
      (n.submit command).1 = { n with
        log := n.log ++ [⟨n.currentTerm, command⟩], matchIndex := found, commitIndex := commit
        effects := n.effects ++ es } := by
  rcases n.submit_cases command with ⟨hsame, -⟩ | ⟨hrole, hnode, -, -⟩
  · exact Or.inl hsame
  · obtain ⟨commit, es, hquiet, hframe⟩ :=
      (n.push ⟨n.currentTerm, command⟩).countSelf.advanceCommit_frame
    have happend : Quiet [.append ⟨n.currentTerm, command⟩] := by simp [Quiet]
    refine Or.inr ⟨hrole, commit, (n.push ⟨n.currentTerm, command⟩).countSelf.matchIndex, _,
      (happend.append hquiet).append (Notices.single .replCv).quiet, ?_⟩
    rw [hnode, hframe]
    simp [countSelf, push, emit]

/-- Taking office writes the no-op and starts one replicator for each peer. -/
theorem becomeLeader_frame (n : RaftNode) : ∃ commit found es, Quiet es ∧
    n.becomeLeader = { n with
      role := .leader
      leaderHint := toInt32 n.id
      nextIndex := List.replicate n.nextIndex.length (n.lastLogIndex + 1)
      log := n.log ++ [⟨n.currentTerm, []⟩]
      matchIndex := found
      commitIndex := commit
      effects := n.effects ++ .becomeLeader n.currentTerm n.log.tail :: es ++
        n.peers.map fun peer ↦ .replicator peer n.currentTerm } := by
  obtain ⟨commit, es, hquiet, hframe⟩ :=
    (n.takeOffice.push ⟨n.currentTerm, []⟩).countSelf.advanceCommit_frame
  have happend : Quiet [.append ⟨n.currentTerm, []⟩] := by simp [Quiet]
  refine ⟨commit, (n.takeOffice.push ⟨n.currentTerm, []⟩).countSelf.matchIndex, _,
    happend.append hquiet, ?_⟩
  rw [becomeLeader, hframe]
  simp [spawn, countSelf, push, emit, takeOffice, peers]

theorem startElection_cases (n : RaftNode) :
    n.startElection = n.stand.becomeLeader ∨
      n.startElection = n.stand.spawn
        (n.stand.peers.map fun peer ↦ .voteSender peer n.stand.voteRequest) := by
  unfold startElection
  dsimp only
  split_ifs with hwon
  · exact Or.inl rfl
  · exact Or.inr rfl

theorem becomeFollower_later {n : RaftNode} {t : ℕ} (ht : n.currentTerm < t) :
    ∃ es, Quiet es ∧ n.becomeFollower t = { n with
      currentTerm := t, votedFor := -1, leaderHint := -1, role := .follower
      effects := n.effects ++ es } := by
  have hsave : Quiet [.saveMeta t (-1)] := by simp [Quiet]
  exact ⟨_, hsave.append n.notices_retirement.quiet, becomeFollower_of_lt ht⟩

/-- A vote request leaves the term alone, or it begins a later one. -/
theorem onRequestVote_frame (n : RaftNode) (args : RequestVoteArgs) :
    ∃ vote es, Quiet es ∧
      ((n.onRequestVote args).1 = { n with votedFor := vote, effects := n.effects ++ es } ∨
        n.currentTerm < args.term ∧ (n.onRequestVote args).1 = { n with
          currentTerm := args.term, votedFor := vote, leaderHint := -1, role := .follower
          effects := n.effects ++ es }) := by
  rcases n.onRequestVote_cases args with ⟨-, hsame, -⟩ | ⟨-, m, hm, hcases⟩
  · exact ⟨n.votedFor, [], by simp [Quiet], Or.inl (by rw [hsame, List.append_nil])⟩
  · have hfirst : ∃ vote es, Quiet es ∧
        (m = { n with votedFor := vote, effects := n.effects ++ es } ∨
          n.currentTerm < args.term ∧ m = { n with
            currentTerm := args.term, votedFor := vote, leaderHint := -1, role := .follower
            effects := n.effects ++ es }) := by
      rw [hm]
      split_ifs with hlt
      · obtain ⟨es, hquiet, heq⟩ := becomeFollower_later hlt
        exact ⟨-1, es, hquiet, Or.inr ⟨hlt, heq⟩⟩
      · exact ⟨n.votedFor, [], by simp [Quiet], Or.inl (by rw [List.append_nil])⟩
    rcases hcases with ⟨hnode, -⟩ | ⟨-, -, hnode⟩
    · rw [hnode]
      exact hfirst
    · obtain ⟨vote, es, hquiet, hframe⟩ := hfirst
      have hsave : Quiet [.saveMeta m.currentTerm (toInt32 args.candidateId)] := by simp [Quiet]
      refine ⟨toInt32 args.candidateId, es ++ _, hquiet.append hsave, ?_⟩
      rw [hnode]
      rcases hframe with hframe | ⟨hlt, hframe⟩
      · left
        rw [hframe]
        simp
      · right
        refine ⟨hlt, ?_⟩
        rw [hframe]
        simp

theorem mergeEntries_quiet (n : RaftNode) (entries : List LogEntry) {pos : ℕ} (hpos : 0 < pos)
    (hlen : pos ≤ n.log.length) : ∃ log es, Quiet es ∧
      n.mergeEntries pos entries = { n with log := log, effects := n.effects ++ es } := by
  have hcopies : ∀ copies : List LogEntry, Quiet (copies.map Effect.append) := by
    intro copies
    simp [Quiet]
  obtain ⟨j, -, ⟨-, heq⟩ | ⟨-, -, heq⟩ | ⟨e, -, -, -, heq⟩⟩ :=
    n.mergeEntries_cases entries hpos hlen
  · exact ⟨n.log, [], by simp [Quiet], by rw [heq, List.append_nil]⟩
  · exact ⟨_, _, hcopies _, heq.trans (appendAll_eq _ _)⟩
  · have hcut : Quiet [.truncateFrom (pos + j)] := by simp [Quiet]
    refine ⟨n.log.take (pos + j) ++ entries.drop j, _, hcut.append (hcopies (entries.drop j)), ?_⟩
    rw [heq, appendAll_eq]
    simp [truncateLog, emit]

theorem heed_frame {n : RaftNode} {args : AppendEntriesArgs} (hle : n.currentTerm ≤ args.term) :
    ∃ vote es, Quiet es ∧ n.heed args = { n with
      currentTerm := args.term, votedFor := vote, leaderHint := toInt32 args.leaderId
      role := .follower, effects := n.effects ++ es } := by
  rw [heed_eq hle]
  rcases Nat.eq_or_lt_of_le hle with heq | hlt
  · refine ⟨n.votedFor, n.retirement, n.notices_retirement.quiet, ?_⟩
    rw [becomeFollower_of_le heq.ge]
    simp [heq]
  · obtain ⟨es, hquiet, hframe⟩ := becomeFollower_later hlt
    exact ⟨-1, es, hquiet, by rw [hframe]⟩

/-- A request of a leader is out of date, or its sender is followed. -/
theorem onAppendEntries_frame {n : RaftNode} (hlog : n.log ≠ []) (args : AppendEntriesArgs) :
    (n.onAppendEntries args).1 = n ∨ n.currentTerm ≤ args.term ∧ ∃ log vote commit es, Quiet es ∧
      (n.onAppendEntries args).1 = { n with
        currentTerm := args.term, votedFor := vote, leaderHint := toInt32 args.leaderId
        role := .follower, log := log, commitIndex := commit, effects := n.effects ++ es } := by
  rcases n.onAppendEntries_cases args with ⟨-, hsame, -⟩ | ⟨hle, hcases⟩
  · exact Or.inl hsame
  · obtain ⟨vote, es, hquiet, hheed⟩ := heed_frame hle
    refine Or.inr ⟨hle, ?_⟩
    rcases hcases with ⟨hnode, -⟩ | ⟨hprev, -, hnode⟩
    · exact ⟨n.log, vote, n.commitIndex, es, hquiet, hnode.trans hheed⟩
    · have hlen := prevLogIndex_lt_heed hlog hprev
      obtain ⟨log, fs, hquiet', hmerge⟩ :=
        (n.heed args).mergeEntries_quiet args.entries (Nat.succ_pos _) hlen
      obtain ⟨commit, gs, hnotices, hfollow⟩ := ((n.heed args).mergeEntries
        (args.prevLogIndex + 1) args.entries).followCommit_frame args.leaderCommit
      refine ⟨log, vote, commit, es ++ fs ++ gs,
        (hquiet.append hquiet').append hnotices.quiet, ?_⟩
      rw [hnode, hfollow, hmerge, hheed]
      simp

/-- What the leader does with a reply, in the terms of its peer indices. -/
theorem onAppendReply_frame (n : RaftNode) (peer leaderTerm : ℕ) (args : AppendEntriesArgs)
    (reply : AppendEntriesReply) :
    (n.onAppendReply peer leaderTerm args reply).1 = n ∨
      n.currentTerm < reply.term ∧
        (n.onAppendReply peer leaderTerm args reply).1 = n.becomeFollower reply.term ∨
      ¬ n.replicatorRetired leaderTerm ∧ reply.term = n.currentTerm ∧
        (reply.success = true ∧ (∃ commit es, Quiet es ∧
          (n.onAppendReply peer leaderTerm args reply).1 = { n with
            matchIndex := n.matchIndex.set peer
              (max (n.matchIndex.getD peer 0) (args.prevLogIndex + args.entries.length))
            nextIndex := n.nextIndex.set peer
              (max (n.matchIndex.getD peer 0) (args.prevLogIndex + args.entries.length) + 1)
            commitIndex := commit, effects := n.effects ++ es }) ∨
        reply.success = false ∧ (n.onAppendReply peer leaderTerm args reply).1 = { n with
          nextIndex := n.nextIndex.set peer
            (min (max reply.conflictIndex 1) (n.lastLogIndex + 1)) }) := by
  unfold onAppendReply
  dsimp only
  split_ifs with hretired hterm hcurrent hsuccess
  · exact Or.inl rfl
  · exact Or.inr (Or.inl ⟨hterm, rfl⟩)
  · refine Or.inr (Or.inr ⟨hretired, hcurrent, Or.inl ⟨hsuccess, ?_⟩⟩)
    obtain ⟨commit, es, hquiet, hframe⟩ := advanceCommit_frame { n with
      matchIndex := n.matchIndex.set peer
        (max (n.matchIndex.getD peer 0) (args.prevLogIndex + args.entries.length))
      nextIndex := n.nextIndex.set peer
        (max (n.matchIndex.getD peer 0) (args.prevLogIndex + args.entries.length) + 1) }
    exact ⟨commit, es, hquiet, hframe⟩
  · exact Or.inr (Or.inr ⟨hretired, hcurrent, Or.inr ⟨by simpa using hsuccess, rfl⟩⟩)
  · exact Or.inl rfl

theorem onAppendReply_goes_on {n : RaftNode} {peer leaderTerm : ℕ} {args : AppendEntriesArgs}
    {reply : AppendEntriesReply} (hactive : ¬ n.replicatorRetired leaderTerm)
    (hterm : reply.term = n.currentTerm) :
    (n.onAppendReply peer leaderTerm args reply).2 = true := by
  unfold onAppendReply
  dsimp only
  split_ifs with hlater hsuccess
  · omega
  · rfl
  · rfl

theorem onAppendReply_accepted {n : RaftNode} {peer leaderTerm : ℕ} {args : AppendEntriesArgs}
    {reply : AppendEntriesReply} (hactive : ¬ n.replicatorRetired leaderTerm)
    (hterm : reply.term = n.currentTerm) (hsuccess : reply.success = true) :
    ∃ commit es, (n.onAppendReply peer leaderTerm args reply).1 = { n with
      matchIndex := n.matchIndex.set peer
        (max (n.matchIndex.getD peer 0) (args.prevLogIndex + args.entries.length))
      nextIndex := n.nextIndex.set peer
        (max (n.matchIndex.getD peer 0) (args.prevLogIndex + args.entries.length) + 1)
      commitIndex := commit, effects := n.effects ++ es } := by
  have hcur : ¬ n.currentTerm < reply.term := by omega
  obtain ⟨commit, es, -, hframe⟩ := advanceCommit_frame { n with
    matchIndex := n.matchIndex.set peer
      (max (n.matchIndex.getD peer 0) (args.prevLogIndex + args.entries.length))
    nextIndex := n.nextIndex.set peer
      (max (n.matchIndex.getD peer 0) (args.prevLogIndex + args.entries.length) + 1) }
  refine ⟨commit, es, ?_⟩
  rw [onAppendReply, if_neg hactive, if_neg hcur, if_pos hterm, if_pos hsuccess]
  exact hframe

theorem onAppendReply_rejected {n : RaftNode} {peer leaderTerm : ℕ} {args : AppendEntriesArgs}
    {reply : AppendEntriesReply} (hactive : ¬ n.replicatorRetired leaderTerm)
    (hterm : reply.term = n.currentTerm) (hfailed : reply.success = false) :
    (n.onAppendReply peer leaderTerm args reply).1 = { n with
      nextIndex := n.nextIndex.set peer
        (min (max reply.conflictIndex 1) (n.lastLogIndex + 1)) } := by
  have hcur : ¬ n.currentTerm < reply.term := by omega
  rw [onAppendReply, if_neg hactive, if_neg hcur, if_pos hterm, if_neg (by simp [hfailed])]

theorem onAppendReply_success {n : RaftNode} {peer leaderTerm : ℕ} {args : AppendEntriesArgs}
    {reply : AppendEntriesReply} (hactive : ¬ n.replicatorRetired leaderTerm)
    (hterm : reply.term = n.currentTerm) (hsuccess : reply.success = true) :
    (n.onAppendReply peer leaderTerm args reply).1.nextIndex = n.nextIndex.set peer
      (max (n.matchIndex.getD peer 0) (args.prevLogIndex + args.entries.length) + 1) := by
  obtain ⟨commit, es, hframe⟩ := onAppendReply_accepted hactive hterm hsuccess
  rw [hframe]

theorem onAppendEntries_stale {n : RaftNode} {args : AppendEntriesArgs}
    (hlt : args.term < n.currentTerm) : (n.onAppendEntries args).2.term = n.currentTerm := by
  simp [onAppendEntries, hlt]

theorem onAppendEntries_success {n : RaftNode} {args : AppendEntriesArgs}
    (hle : n.currentTerm ≤ args.term) (hprev : args.prevLogIndex ≤ n.lastLogIndex)
    (hmatch : n.termAt args.prevLogIndex = args.prevLogTerm) :
    (n.onAppendEntries args).2.success = true := by
  obtain ⟨hprev', hmatch'⟩ := heed_passes hprev hmatch
  simp [onAppendEntries, Nat.not_lt.mpr hle, hprev', hmatch']

/-- A request that is not out of date brings its term to the receiver. -/
theorem onAppendEntries_currentTerm {n : RaftNode} {args : AppendEntriesArgs} (hlog : n.log ≠ [])
    (hle : n.currentTerm ≤ args.term) : (n.onAppendEntries args).1.currentTerm = args.term := by
  rcases n.onAppendEntries_cases args with ⟨hlt, -⟩ | ⟨-, ⟨hnode, -⟩ | ⟨hprev, -, hnode⟩⟩
  · omega
  · rw [hnode, heed_currentTerm hle]
  · have hlen := prevLogIndex_lt_heed hlog hprev
    obtain ⟨log, es, hmerge⟩ :=
      (n.heed args).mergeEntries_frame args.entries (Nat.succ_pos _) hlen
    obtain ⟨commit, fs, -, hfollow⟩ := ((n.heed args).mergeEntries (args.prevLogIndex + 1)
      args.entries).followCommit_frame args.leaderCommit
    rw [hnode, hfollow, hmerge]
    exact heed_currentTerm hle

/-- The answer carries the term of the node that sends it. -/
theorem onAppendEntries_term (n : RaftNode) (args : AppendEntriesArgs) :
    (n.onAppendEntries args).2.term = (n.onAppendEntries args).1.currentTerm := by
  unfold onAppendEntries
  dsimp only
  split_ifs with hstale hprev hmatch
  · rfl
  · rfl
  · rfl
  · obtain ⟨commit, es, -, hfollow⟩ := ((n.heed args).mergeEntries (args.prevLogIndex + 1)
      args.entries).followCommit_frame args.leaderCommit
    rw [hfollow]

theorem buildAppendEntries_fields {n : RaftNode} {peer leaderTerm : ℕ} {args : AppendEntriesArgs}
    (hargs : n.buildAppendEntries peer leaderTerm = some args) :
    args.term = leaderTerm ∧ args.leaderId = n.id ∧
      args.prevLogIndex + 1 = n.nextIndex.getD peer 0 := by
  unfold buildAppendEntries at hargs
  dsimp only at hargs
  split_ifs at hargs with hzero
  obtain ⟨previous, -, rfl⟩ := Option.map_eq_some_iff.mp hargs
  exact ⟨rfl, rfl, Nat.sub_add_cancel (Nat.pos_of_ne_zero hzero)⟩

end RaftNode

end Dkvs
