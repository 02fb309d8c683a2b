import Dkvs.RaftNode

/-!
# What each operation does

One lemma for each operation says what it may do to the node. Later proofs use
these lemmas and never the bodies of the operations.
-/

namespace Dkvs

theorem toInt32_injective {a b : ℕ} (ha : a < 2 ^ 32) (hb : b < 2 ^ 32)
    (h : toInt32 a = toInt32 b) : a = b := by
  simp only [toInt32, Nat.mod_eq_of_lt ha, Nat.mod_eq_of_lt hb] at h
  split_ifs at h <;> omega

theorem toInt32_ne_neg_one {a : ℕ} (ha : a < 2 ^ 32 - 1) : toInt32 a ≠ -1 := by
  simp only [toInt32, Nat.mod_eq_of_lt (show a < 2 ^ 32 by omega)]
  split_ifs <;> omega

/-- All effects are notifications. -/
def Notices (es : List Effect) : Prop := ∀ e ∈ es, ∃ cv, e = .notify cv

theorem Notices.nil : Notices [] := by simp [Notices]

theorem Notices.append {es fs : List Effect} (hes : Notices es) (hfs : Notices fs) :
    Notices (es ++ fs) := by
  intro e he
  rcases List.mem_append.mp he with hmem | hmem
  · exact hes e hmem
  · exact hfs e hmem

theorem Notices.notMem {es : List Effect} (hes : Notices es) {e : Effect}
    (he : ∀ cv, e ≠ .notify cv) : e ∉ es := by
  intro hmem
  obtain ⟨cv, heq⟩ := hes e hmem
  exact he cv heq

theorem Notices.single (cv : RaftNode.CondVar) : Notices [.notify cv] := by simp [Notices]

namespace RaftNode

variable {n : RaftNode}

/-- What a node that gives up its role tells its threads. -/
def retirement (n : RaftNode) : List Effect :=
  if n.role = .follower then [] else [.notify .replCv]

theorem notices_retirement (n : RaftNode) : Notices n.retirement := by
  unfold retirement
  split_ifs with hrole
  · exact .nil
  · exact .single .replCv

theorem becomeFollower_of_lt {t : ℕ} (ht : n.currentTerm < t) :
    n.becomeFollower t = { n with
      currentTerm := t, votedFor := -1, leaderHint := -1, role := .follower
      effects := n.effects ++ .saveMeta t (-1) :: n.retirement } := by
  unfold becomeFollower
  simp only [ht, if_true, emit]
  split
  · rename_i hrole
    simp [retirement, show n.role ≠ .follower from hrole]
  · rename_i hrole
    simp only [ne_eq, not_not] at hrole
    simp [retirement, hrole]

theorem becomeFollower_of_le {t : ℕ} (ht : t ≤ n.currentTerm) :
    n.becomeFollower t = { n with
      role := .follower, effects := n.effects ++ n.retirement } := by
  unfold becomeFollower
  simp only [Nat.not_lt.mpr ht, if_false]
  split
  · rename_i hrole
    simp [retirement, show n.role ≠ .follower from hrole, emit]
  · rename_i hrole
    simp only [ne_eq, not_not] at hrole
    simp [retirement, ← hrole]

@[simp] theorem becomeFollower_role (n : RaftNode) (t : ℕ) :
    (n.becomeFollower t).role = .follower := by
  rcases Nat.lt_or_ge n.currentTerm t with ht | ht
  · simp [becomeFollower_of_lt ht]
  · simp [becomeFollower_of_le ht]

/-- A change of term leaves the log, the commit index and the applier alone. -/
theorem becomeFollower_frame (n : RaftNode) (t : ℕ) : ∃ term vote hint role effects,
    n.becomeFollower t = { n with
      currentTerm := term, votedFor := vote, leaderHint := hint, role := role
      effects := effects } := by
  rcases Nat.lt_or_ge n.currentTerm t with ht | ht
  · exact ⟨_, _, _, _, _, becomeFollower_of_lt ht⟩
  · exact ⟨_, _, _, _, _, becomeFollower_of_le ht⟩

@[simp] theorem becomeFollower_commitIndex (n : RaftNode) (t : ℕ) :
    (n.becomeFollower t).commitIndex = n.commitIndex := by
  obtain ⟨_, _, _, _, _, heq⟩ := n.becomeFollower_frame t
  rw [heq]

@[simp] theorem becomeFollower_lastApplied (n : RaftNode) (t : ℕ) :
    (n.becomeFollower t).lastApplied = n.lastApplied := by
  obtain ⟨_, _, _, _, _, heq⟩ := n.becomeFollower_frame t
  rw [heq]

theorem becomeFollower_currentTerm {t : ℕ} (ht : n.currentTerm ≤ t) :
    (n.becomeFollower t).currentTerm = t := by
  rcases Nat.eq_or_lt_of_le ht with heq | hlt
  · simp [becomeFollower_of_le heq.ge, heq]
  · simp [becomeFollower_of_lt hlt]

@[simp] theorem becomeFollower_log (n : RaftNode) (t : ℕ) :
    (n.becomeFollower t).log = n.log := by
  obtain ⟨_, _, _, _, _, heq⟩ := n.becomeFollower_frame t
  rw [heq]

/-- The scan of `advanceCommit` changes nothing, or it moves the commit index up
to an entry of the current term that a majority holds. -/
theorem advanceLoop_cases (n : RaftNode) (k : ℕ) :
    n.advanceLoop k = n ∨ ∃ m, m ≤ k ∧ n.commitIndex < m ∧ n.termAt m = n.currentTerm ∧
      n.majority ≤ n.replicas m ∧
      n.advanceLoop k = { n with
        commitIndex := m
        effects := n.effects ++ [.advanceCommit n.currentTerm m n.log.tail,
          .notify .applyCv, .notify .replCv] } := by
  induction k with
  | zero => exact Or.inl rfl
  | succ k ih =>
      rw [advanceLoop]
      split_ifs with hcommit hterm hcount
      · exact Or.inl rfl
      · exact Or.inr ⟨k + 1, le_rfl, hcommit, not_not.mp hterm, hcount, by simp [emit]⟩
      · rcases ih with hsame | ⟨m, hm, hrest⟩
        · exact Or.inl hsame
        · exact Or.inr ⟨m, hm.trans (Nat.le_succ k), hrest⟩
      · exact Or.inl rfl

theorem advanceCommit_cases (n : RaftNode) :
    n.advanceCommit = n ∨ n.role = .leader ∧ ∃ m, m ≤ n.lastLogIndex ∧ n.commitIndex < m ∧
      n.termAt m = n.currentTerm ∧ n.majority ≤ n.replicas m ∧
      n.advanceCommit = { n with
        commitIndex := m
        effects := n.effects ++ [.advanceCommit n.currentTerm m n.log.tail,
          .notify .applyCv, .notify .replCv] } := by
  unfold advanceCommit
  split_ifs with hrole
  · exact Or.inl rfl
  · rcases n.advanceLoop_cases n.lastLogIndex with hsame | hmove
    · exact Or.inl hsame
    · exact Or.inr ⟨not_not.mp hrole, hmove⟩

@[simp] theorem advanceCommit_log (n : RaftNode) : n.advanceCommit.log = n.log := by
  rcases n.advanceCommit_cases with hsame | ⟨-, m, -, -, -, -, hmove⟩
  · rw [hsame]
  · rw [hmove]

@[simp] theorem advanceCommit_currentTerm (n : RaftNode) :
    n.advanceCommit.currentTerm = n.currentTerm := by
  rcases n.advanceCommit_cases with hsame | ⟨-, m, -, -, -, -, hmove⟩
  · rw [hsame]
  · rw [hmove]

@[simp] theorem advanceCommit_role (n : RaftNode) : n.advanceCommit.role = n.role := by
  rcases n.advanceCommit_cases with hsame | ⟨-, m, -, -, -, -, hmove⟩
  · rw [hsame]
  · rw [hmove]

@[simp] theorem advanceCommit_stopping (n : RaftNode) :
    n.advanceCommit.stopping = n.stopping := by
  rcases n.advanceCommit_cases with hsame | ⟨-, m, -, -, -, -, hmove⟩
  · rw [hsame]
  · rw [hmove]

@[simp] theorem becomeLeader_role (n : RaftNode) : n.becomeLeader.role = .leader := by
  simp [becomeLeader, spawn, countSelf, push, emit, takeOffice]

theorem submit_cases (n : RaftNode) (command : Bytes) :
    (n.submit command).1 = n ∧ (n.submit command).2.isLeader = false ∨
      n.role = .leader ∧
        (n.submit command).1 =
          (n.push ⟨n.currentTerm, command⟩).countSelf.advanceCommit.emit (.notify .replCv) ∧
        (n.submit command).2.index = n.log.length ∧
        (n.submit command).2.term = n.currentTerm := by
  unfold submit
  split_ifs with hrefuse
  · exact Or.inl ⟨rfl, rfl⟩
  · refine Or.inr ⟨?_, rfl, ?_, ?_⟩
    · by_contra hrole
      exact hrefuse (Or.inr hrole)
    · simp [lastLogIndex, countSelf, push, emit]
    · simp [countSelf, push, emit]

theorem onVoteReply_cases (n : RaftNode) (args : RequestVoteArgs) (reply : RequestVoteReply) :
    n.onVoteReply args reply = n ∨
      n.currentTerm < reply.term ∧ n.onVoteReply args reply = n.becomeFollower reply.term ∨
      n.role = .candidate ∧ n.currentTerm = args.term ∧ reply.voteGranted = true ∧
        (n.votesReceived + 1 < n.majority ∧
          n.onVoteReply args reply = { n with votesReceived := n.votesReceived + 1 } ∨
        n.majority ≤ n.votesReceived + 1 ∧
          n.onVoteReply args reply =
            ({ n with votesReceived := n.votesReceived + 1 } : RaftNode).becomeLeader) := by
  unfold onVoteReply
  dsimp only
  split_ifs with hstop hterm hstale hwon
  · exact Or.inl rfl
  · exact Or.inr (Or.inl ⟨hterm, rfl⟩)
  · exact Or.inl rfl
  · simp only [ne_eq, not_or, not_not, Bool.not_eq_false] at hstale
    exact Or.inr (Or.inr ⟨hstale.1, hstale.2.1, hstale.2.2, Or.inr ⟨hwon, rfl⟩⟩)
  · simp only [ne_eq, not_or, not_not, Bool.not_eq_false] at hstale
    exact Or.inr (Or.inr ⟨hstale.1, hstale.2.1, hstale.2.2, Or.inl ⟨Nat.lt_of_not_le hwon, rfl⟩⟩)

/-- A reply is ignored, ends the term of office, confirms a match or moves
`nextIndex_` back. -/
theorem onAppendReply_cases (n : RaftNode) (peer leaderTerm : ℕ) (args : AppendEntriesArgs)
    (reply : AppendEntriesReply) :
    (n.onAppendReply peer leaderTerm args reply).1 = n ∨
      n.currentTerm < reply.term ∧
        (n.onAppendReply peer leaderTerm args reply).1 = n.becomeFollower reply.term ∨
      n.role = .leader ∧ n.currentTerm = leaderTerm ∧
        (reply.success = true ∧ (∃ next, (n.onAppendReply peer leaderTerm args reply).1 =
          ({ n with
            matchIndex := n.matchIndex.set peer
              (max (n.matchIndex.getD peer 0) (args.prevLogIndex + args.entries.length))
            nextIndex := next } : RaftNode).advanceCommit) ∨
        ∃ next, (n.onAppendReply peer leaderTerm args reply).1 = { n with nextIndex := next }) := by
  unfold onAppendReply
  dsimp only
  split_ifs with hretired hterm hcurrent hsuccess
  · exact Or.inl rfl
  · exact Or.inr (Or.inl ⟨hterm, rfl⟩)
  · simp only [replicatorRetired, ne_eq, not_or, not_not] at hretired
    exact Or.inr (Or.inr ⟨hretired.2.1, hretired.2.2, Or.inl ⟨hsuccess, _, rfl⟩⟩)
  · simp only [replicatorRetired, ne_eq, not_or, not_not] at hretired
    exact Or.inr (Or.inr ⟨hretired.2.1, hretired.2.2, Or.inr ⟨_, rfl⟩⟩)
  · exact Or.inl rfl

theorem appendAll_eq (n : RaftNode) (es : List LogEntry) :
    n.appendAll es =
      { n with log := n.log ++ es, effects := n.effects ++ es.map Effect.append } := by
  induction es generalizing n with
  | nil => simp [appendAll]
  | cons e es ih =>
      have hstep : n.appendAll (e :: es) = (n.push e).appendAll es := rfl
      rw [hstep, ih]
      simp [push, emit]

/-- The first `j` entries of a request match the log by term. -/
def MatchesUpTo (n : RaftNode) (pos : ℕ) (es : List LogEntry) (j : ℕ) : Prop :=
  ∀ x < j, pos + x < n.log.length ∧ n.termAt (pos + x) = (es.getD x sentinel).term

instance (n : RaftNode) (pos : ℕ) (es : List LogEntry) (j : ℕ) :
    Decidable (n.MatchesUpTo pos es j) :=
  inferInstanceAs (Decidable (∀ x < j, _ ∧ _))

/-- A request is merged at its first entry that does not match: none, the one
that would sit just past the end of the log, or one in conflict with it. -/
theorem mergeEntries_cases (n : RaftNode) (es : List LogEntry) {pos : ℕ} (hpos : 0 < pos)
    (hlen : pos ≤ n.log.length) :
    ∃ j, n.MatchesUpTo pos es j ∧
      (j = es.length ∧ n.mergeEntries pos es = n ∨
        j < es.length ∧ pos + j = n.log.length ∧
          n.mergeEntries pos es = n.appendAll (es.drop j) ∨
        ∃ e, es[j]? = some e ∧ pos + j < n.log.length ∧ n.termAt (pos + j) ≠ e.term ∧
          n.mergeEntries pos es = (n.truncateLog (pos + j)).appendAll (es.drop j)) := by
  induction es generalizing pos with
  | nil => exact ⟨0, by simp [MatchesUpTo], Or.inl ⟨rfl, rfl⟩⟩
  | cons e es ih =>
      rw [mergeEntries]
      split_ifs with hend hterm
      · refine ⟨0, by simp [MatchesUpTo], Or.inr (Or.inl ⟨by simp, ?_, rfl⟩)⟩
        rw [lastLogIndex] at hend
        omega
      · refine ⟨0, by simp [MatchesUpTo], Or.inr (Or.inr ⟨e, rfl, ?_, hterm, rfl⟩)⟩
        rw [lastLogIndex] at hend
        omega
      · have hlt : pos < n.log.length := by
          rw [lastLogIndex] at hend
          omega
        obtain ⟨j, hmatch, hcases⟩ := ih (Nat.succ_pos pos) hlt
        refine ⟨j + 1, ?_, ?_⟩
        · intro x hx
          cases x with
          | zero => exact ⟨hlt, not_not.mp hterm⟩
          | succ x =>
              have hrest := hmatch x (by omega)
              rwa [show pos + (x + 1) = pos + 1 + x by omega, List.getD_cons_succ]
        · rw [show pos + (j + 1) = pos + 1 + j by omega]
          simpa using hcases

/-- Following a commit index moves that of the node and wakes up its applier at
most. -/
theorem followCommit_frame (n : RaftNode) (leaderCommit : ℕ) : ∃ commit es, Notices es ∧
    n.followCommit leaderCommit =
      { n with commitIndex := commit, effects := n.effects ++ es } := by
  unfold followCommit
  split_ifs with hlt
  · exact ⟨_, [.notify .applyCv], .single .applyCv, rfl⟩
  · exact ⟨n.commitIndex, [], .nil, by simp⟩

@[simp] theorem followCommit_log (n : RaftNode) (leaderCommit : ℕ) :
    (n.followCommit leaderCommit).log = n.log := by
  obtain ⟨commit, es, -, heq⟩ := n.followCommit_frame leaderCommit
  rw [heq]

theorem mergeEntries_frame (n : RaftNode) (es : List LogEntry) {pos : ℕ} (hpos : 0 < pos)
    (hlen : pos ≤ n.log.length) :
    ∃ log effects, n.mergeEntries pos es = { n with log := log, effects := effects } := by
  obtain ⟨j, -, ⟨-, heq⟩ | ⟨-, -, heq⟩ | ⟨e, -, -, -, heq⟩⟩ := n.mergeEntries_cases es hpos hlen
  · exact ⟨_, _, heq⟩
  · exact ⟨_, _, heq.trans (appendAll_eq _ _)⟩
  · exact ⟨_, _, heq.trans (appendAll_eq _ _)⟩

/-- Merging leaves the log alone, or it ends where the request ends. -/
theorem mergeEntries_length (n : RaftNode) (es : List LogEntry) {pos : ℕ} (hpos : 0 < pos)
    (hlen : pos ≤ n.log.length) :
    n.mergeEntries pos es = n ∧ n.MatchesUpTo pos es es.length ∨
      (n.mergeEntries pos es).log.length = pos + es.length := by
  obtain ⟨j, hmatch, ⟨rfl, heq⟩ | ⟨hj, hend, heq⟩ | ⟨e, he, hlt, -, heq⟩⟩ :=
    n.mergeEntries_cases es hpos hlen
  · exact Or.inl ⟨heq, hmatch⟩
  · right
    rw [heq, appendAll_eq]
    simp only [List.length_append, List.length_drop]
    omega
  · obtain ⟨hj, -⟩ := List.getElem?_eq_some_iff.mp he
    right
    rw [heq, appendAll_eq]
    simp only [truncateLog, emit, List.length_append, List.length_take, List.length_drop]
    omega

theorem heed_eq {args : AppendEntriesArgs} (hterm : n.currentTerm ≤ args.term) :
    n.heed args = { n.becomeFollower args.term with leaderHint := toInt32 args.leaderId } := by
  unfold heed
  split_ifs with hcond
  · rfl
  · have hsame : n.currentTerm = args.term := by omega
    have hrole : n.role = .follower := by
      by_contra hrole
      exact hcond (Or.inr hrole)
    simp [becomeFollower_of_le hsame.ge, retirement, hrole]

@[simp] theorem heed_log (n : RaftNode) (args : AppendEntriesArgs) :
    (n.heed args).log = n.log := by
  unfold heed
  split_ifs with hcond
  · exact n.becomeFollower_log args.term
  · rfl

theorem heed_currentTerm {n : RaftNode} {args : AppendEntriesArgs}
    (hle : n.currentTerm ≤ args.term) : (n.heed args).currentTerm = args.term := by
  rw [heed_eq hle]
  exact becomeFollower_currentTerm hle

theorem heed_commitIndex {n : RaftNode} {args : AppendEntriesArgs}
    (hle : n.currentTerm ≤ args.term) : (n.heed args).commitIndex = n.commitIndex := by
  rw [heed_eq hle]
  exact n.becomeFollower_commitIndex args.term

/-- There is a place for the first entry of a request whose predecessor is in the log. -/
theorem prevLogIndex_lt_heed {n : RaftNode} {args : AppendEntriesArgs} (hlog : n.log ≠ [])
    (hprev : args.prevLogIndex ≤ n.lastLogIndex) :
    args.prevLogIndex + 1 ≤ (n.heed args).log.length := by
  have hpos := List.length_pos_of_ne_nil hlog
  rw [lastLogIndex] at hprev
  rw [heed_log]
  omega

/-- A request is refused, or its entries are merged into the log and its commit
index is followed. -/
theorem onAppendEntries_cases (n : RaftNode) (args : AppendEntriesArgs) :
    (args.term < n.currentTerm ∧ (n.onAppendEntries args).1 = n ∧
        (n.onAppendEntries args).2.success = false) ∨
      n.currentTerm ≤ args.term ∧
        ((n.onAppendEntries args).1 = n.heed args ∧
          (n.onAppendEntries args).2.success = false ∨
        args.prevLogIndex ≤ n.lastLogIndex ∧ n.termAt args.prevLogIndex = args.prevLogTerm ∧
          (n.onAppendEntries args).1 =
            ((n.heed args).mergeEntries (args.prevLogIndex + 1) args.entries).followCommit
              args.leaderCommit) := by
  unfold onAppendEntries
  dsimp only
  split_ifs with hstale hprev hmatch
  · exact Or.inl ⟨hstale, rfl, rfl⟩
  · exact Or.inr ⟨by omega, Or.inl ⟨rfl, rfl⟩⟩
  · exact Or.inr ⟨by omega, Or.inl ⟨rfl, rfl⟩⟩
  · refine Or.inr ⟨by omega, Or.inr ⟨?_, ?_, rfl⟩⟩
    · simpa [lastLogIndex] using hprev
    · simpa [termAt] using hmatch

/-- The tests of a request read the log, which heeding its term leaves alone. -/
theorem heed_passes {args : AppendEntriesArgs} (hprev : args.prevLogIndex ≤ n.lastLogIndex)
    (hmatch : n.termAt args.prevLogIndex = args.prevLogTerm) :
    ¬ (n.heed args).lastLogIndex < args.prevLogIndex ∧
      (n.heed args).termAt args.prevLogIndex = args.prevLogTerm := by
  constructor
  · simpa [lastLogIndex] using hprev
  · simpa [termAt] using hmatch

theorem onAppendEntries_accepted {args : AppendEntriesArgs} (hle : n.currentTerm ≤ args.term)
    (hprev : args.prevLogIndex ≤ n.lastLogIndex)
    (hmatch : n.termAt args.prevLogIndex = args.prevLogTerm) :
    (n.onAppendEntries args).1 =
      ((n.heed args).mergeEntries (args.prevLogIndex + 1) args.entries).followCommit
        args.leaderCommit := by
  obtain ⟨hprev', hmatch'⟩ := heed_passes hprev hmatch
  simp [onAppendEntries, Nat.not_lt.mpr hle, hprev', hmatch']

theorem onRequestVote_cases (n : RaftNode) (args : RequestVoteArgs) :
    (args.term < n.currentTerm ∧ (n.onRequestVote args).1 = n ∧
        (n.onRequestVote args).2.voteGranted = false) ∨
      n.currentTerm ≤ args.term ∧ ∃ m : RaftNode,
        m = (if n.currentTerm < args.term then n.becomeFollower args.term else n) ∧
        ((n.onRequestVote args).1 = m ∧ (n.onRequestVote args).2.voteGranted = false ∨
          (m.lastLogTerm < args.lastLogTerm ∨
            args.lastLogTerm = m.lastLogTerm ∧ m.lastLogIndex ≤ args.lastLogIndex) ∧
          (m.votedFor = -1 ∨ m.votedFor = toInt32 args.candidateId) ∧
          (n.onRequestVote args).1 =
            { m with
              votedFor := toInt32 args.candidateId
              effects := m.effects ++ [.saveMeta m.currentTerm (toInt32 args.candidateId)] }) := by
  unfold onRequestVote
  dsimp only
  generalize hm : (if n.currentTerm < args.term then n.becomeFollower args.term else n) = m
  split_ifs with hstale hgrant
  · exact Or.inl ⟨hstale, rfl, rfl⟩
  · exact Or.inr ⟨by omega, m, rfl, Or.inr ⟨hgrant.1, hgrant.2, rfl⟩⟩
  · exact Or.inr ⟨by omega, m, rfl, Or.inl ⟨rfl, rfl⟩⟩

end RaftNode

end Dkvs
