import Dkvs.Replication.Merge

/-!
# Finding the common prefix and shipping the rest

A replicator sends its request, and a refusal moves `nextIndex_` back to the index
that the follower names. Behind the end of the follower's log this happens once;
after that each refusal passes over all entries of one term, so the refusals are
bounded by the number of terms in the follower's log. From the first accepted request
on every request is accepted, and the match grows by a batch until it is the whole
log of the leader.
-/

namespace Dkvs

open ReplicatedLog

namespace RaftNode

variable {n : RaftNode} {F : List LogEntry}

theorem termAt_getElem (hlog : n.log = sentinel :: F) {i : ℕ} (hi : i < F.length) :
    n.termAt (i + 1) = F[i].term := by
  rw [termAt_of_log hlog, List.getD_cons_succ, List.getD_eq_getElem _ _ hi]

/-- The scan ends at the first of the entries of the conflicting term that stand
together. -/
theorem conflictScan_spec {i : ℕ} (hi : 1 ≤ i) :
    1 ≤ n.conflictScan (n.termAt i) i ∧ n.conflictScan (n.termAt i) i ≤ i ∧
      n.termAt (n.conflictScan (n.termAt i) i) = n.termAt i ∧
      (n.conflictScan (n.termAt i) i = 1 ∨
        n.termAt (n.conflictScan (n.termAt i) i - 1) ≠ n.termAt i) := by
  induction i with
  | zero => omega
  | succ i ih =>
      cases i with
      | zero => exact ⟨le_rfl, le_rfl, rfl, Or.inl rfl⟩
      | succ i =>
          rw [conflictScan]
          split_ifs with hterm
          · obtain ⟨hpos, hle, hsame, hfirst⟩ := ih (by omega)
            rw [hterm] at hpos hle hsame hfirst
            exact ⟨hpos, hle.trans (Nat.le_succ _), hsame, hfirst⟩
          · exact ⟨by omega, le_rfl, rfl, Or.inr hterm⟩

end RaftNode

/-! ## The number of refusals to come -/

/-- The terms of the first entries of a log. -/
def termsUpTo (F : List LogEntry) (k : ℕ) : Finset ℕ := ((F.take k).map LogEntry.term).toFinset

theorem mem_termsUpTo {F : List LogEntry} {k t : ℕ} :
    t ∈ termsUpTo F k ↔ ∃ i, ∃ hi : i < F.length, i < k ∧ F[i].term = t := by
  simp only [termsUpTo, List.mem_toFinset, List.mem_map, List.mem_take_iff_getElem]
  constructor
  · rintro ⟨e, ⟨i, hi, rfl⟩, rfl⟩
    exact ⟨i, by omega, by omega, rfl⟩
  · rintro ⟨i, hi, hk, rfl⟩
    exact ⟨F[i], ⟨i, by omega, rfl⟩, rfl⟩

/-- What bounds the refusals after a request that begins behind index `prev`. -/
def backlog (F : List LogEntry) (prev : ℕ) : ℕ :=
  (termsUpTo F prev).card + if F.length < prev then 1 else 0

theorem backlog_le (F : List LogEntry) (prev : ℕ) :
    backlog F prev ≤ (F.map LogEntry.term).toFinset.card + 1 := by
  have hsub : termsUpTo F prev ⊆ (F.map LogEntry.term).toFinset := by
    intro t ht
    obtain ⟨i, hi, -, rfl⟩ := mem_termsUpTo.mp ht
    simpa using ⟨F[i], List.getElem_mem hi, rfl⟩
  have hcard := Finset.card_le_card hsub
  rw [backlog]
  split_ifs with hlen
  · omega
  · omega

theorem backlog_short {F : List LogEntry} {prev : ℕ} (hlen : F.length < prev) :
    backlog F F.length < backlog F prev := by
  rw [backlog, backlog, termsUpTo, termsUpTo, List.take_of_length_le hlen.le, List.take_length,
    if_pos hlen, if_neg (lt_irrefl _)]
  omega

/-- Going back over all entries of one term of an ordered log leaves that term
behind. -/
theorem backlog_conflict {F : List LogEntry} {n : RaftNode} (hlog : n.log = sentinel :: F)
    (hsorted : F.Pairwise fun e e' ↦ e.term ≤ e'.term) {prev ci : ℕ} (hprev : prev ≤ F.length)
    (hpos : 1 ≤ ci) (hle : ci ≤ prev) (hsame : n.termAt ci = n.termAt prev)
    (hfirst : ci = 1 ∨ n.termAt (ci - 1) ≠ n.termAt prev) :
    backlog F (ci - 1) < backlog F prev := by
  have hmem : n.termAt prev ∈ termsUpTo F prev := by
    refine mem_termsUpTo.mpr ⟨prev - 1, by omega, by omega, ?_⟩
    rw [← RaftNode.termAt_getElem hlog (by omega), Nat.sub_add_cancel (by omega)]
  have hnot : n.termAt prev ∉ termsUpTo F (ci - 1) := by
    intro ht
    obtain ⟨i, hi, hlt, hterm⟩ := mem_termsUpTo.mp ht
    rcases hfirst with rfl | hother
    · omega
    · obtain ⟨k, rfl⟩ : ∃ k, ci = k + 2 := ⟨ci - 2, by omega⟩
      -- the entry before the run lies between two entries of the same term
      have hk : n.termAt (k + 1) = F[k].term := RaftNode.termAt_getElem hlog (by omega)
      have hk' : n.termAt (k + 2) = F[k + 1].term := RaftNode.termAt_getElem hlog (by omega)
      have hlow : F[i].term ≤ F[k].term := by
        rcases Nat.eq_or_lt_of_le (show i ≤ k by omega) with rfl | hik
        · exact le_rfl
        · exact List.pairwise_iff_getElem.mp hsorted i k _ _ hik
      have hhigh : F[k].term ≤ F[k + 1].term :=
        List.pairwise_iff_getElem.mp hsorted k (k + 1) _ _ (by omega)
      refine hother ?_
      rw [show k + 2 - 1 = k + 1 by omega]
      omega
  have hsub : termsUpTo F (ci - 1) ⊆ termsUpTo F prev := by
    intro t ht
    obtain ⟨i, hi, hlt, hterm⟩ := mem_termsUpTo.mp ht
    exact mem_termsUpTo.mpr ⟨i, hi, by omega, hterm⟩
  have hcard := Finset.card_lt_card (Finset.ssubset_iff_subset_ne.mpr
    ⟨hsub, fun heq ↦ hnot (heq ▸ hmem)⟩)
  rw [backlog, backlog, if_neg (by omega), if_neg (by omega)]
  omega

/-- A request in the follower's term is refused because the logs differ before it, and
the follower names an earlier index. -/
theorem RaftNode.refusal {n : RaftNode} {F L : List LogEntry} {args : AppendEntriesArgs}
    (hlog : n.log = sentinel :: F) (hquotes : args.Quotes L) (hle : n.currentTerm ≤ args.term)
    (hfailed : (n.onAppendEntries args).2.success = false) :
    F.take args.prevLogIndex ≠ L.take args.prevLogIndex ∧
      1 ≤ (n.onAppendEntries args).2.conflictIndex ∧
      (n.onAppendEntries args).2.conflictIndex ≤ args.prevLogIndex ∧
      (F.Pairwise (fun e e' ↦ e.term ≤ e'.term) →
        backlog F ((n.onAppendEntries args).2.conflictIndex - 1) <
          backlog F args.prevLogIndex) := by
  have hheed : (n.heed args).log = sentinel :: F := (n.heed_log args).trans hlog
  have hlast : (n.heed args).lastLogIndex = F.length := lastLogIndex_of_log hheed
  unfold onAppendEntries at hfailed ⊢
  dsimp only at hfailed ⊢
  split_ifs at hfailed ⊢ with hstale hshort hconflict
  · omega
  · rw [hlast] at hshort ⊢
    refine ⟨?_, by simp, by simpa using hshort, fun _ ↦ backlog_short hshort⟩
    intro hcommon
    have hlong := length_of_take_eq hcommon hquotes.prevLogIndex_le
    omega
  · have hdiffer : F.take args.prevLogIndex ≠ L.take args.prevLogIndex := by
      intro hcommon
      exact hconflict ((termAt_of_take_eq hheed hcommon).trans hquotes.prevLogTerm.symm)
    have hprev : 1 ≤ args.prevLogIndex := by
      by_contra hzero
      exact hdiffer (by rw [show args.prevLogIndex = 0 by omega, List.take_zero, List.take_zero])
    obtain ⟨hpos, hback, hsame, hfirst⟩ := (n.heed args).conflictScan_spec hprev
    refine ⟨hdiffer, hpos, hback, fun hsorted ↦ ?_⟩
    exact backlog_conflict hheed hsorted (by omega) hpos hback hsame hfirst

/-! ## Rounds -/

/-- A leader and the follower that one of its replicators talks to. -/
structure Exchange where
  leader : RaftNode
  follower : RaftNode

namespace Exchange

/-- One pass of the replicator's loop with a follower that answers: the flag is the
answer. -/
def round (peer leaderTerm : ℕ) (s : Exchange) : Option (Bool × Exchange) :=
  (s.leader.buildAppendEntries peer leaderTerm).map fun args ↦
    let (follower, reply) := s.follower.onAppendEntries args
    (reply.success, ⟨(s.leader.onAppendReply peer leaderTerm args reply).1, follower⟩)

def rounds (peer leaderTerm : ℕ) : ℕ → Exchange → Option (List Bool × Exchange)
  | 0, s => some ([], s)
  | k + 1, s => do
      let (success, s) ← s.round peer leaderTerm
      let (answers, s) ← rounds peer leaderTerm k s
      return (success :: answers, s)

def next (peer : ℕ) (s : Exchange) : ℕ := s.leader.nextIndex.getD peer 0

def matched (peer : ℕ) (s : Exchange) : ℕ := s.leader.matchIndex.getD peer 0

/-- The leader is in office with the log `L`, the follower is not ahead of its term and
has the log `F`, and the leader's match is one. -/
structure Ready (peer leaderTerm : ℕ) (F L : List LogEntry) (s : Exchange) : Prop where
  active : ¬ s.leader.replicatorRetired leaderTerm
  follows : s.follower.currentTerm ≤ leaderTerm
  leader_log : s.leader.log = sentinel :: L
  follower_log : s.follower.log = sentinel :: F
  matching : LogMatching F L
  next_lt : peer < s.leader.nextIndex.length
  matched_lt : peer < s.leader.matchIndex.length
  one_le_next : 1 ≤ s.next peer
  next_le : s.next peer ≤ L.length + 1
  matched_le : s.matched peer ≤ L.length
  agrees : F.take (s.matched peer) = L.take (s.matched peer)

variable {peer leaderTerm : ℕ} {F L : List LogEntry} {s : Exchange}

namespace Ready

theorem exists_args (h : Ready peer leaderTerm F L s) : ∃ args,
    s.leader.buildAppendEntries peer leaderTerm = some args ∧ args.term = leaderTerm ∧
      args.Quotes L ∧ args.prevLogIndex + 1 = s.next peer ∧
      args.lastIndex = min L.length (s.next peer - 1 + kMaxBatch) := by
  have hone : s.leader.nextIndex.getD peer 0 ≠ 0 := Nat.one_le_iff_ne_zero.mp h.one_le_next
  have hnext : s.leader.nextIndex.getD peer 0 ≤ L.length + 1 := h.next_le
  have hin : s.leader.nextIndex.getD peer 0 - 1 < s.leader.log.length := by
    rw [h.leader_log, List.length_cons]
    omega
  obtain ⟨args, hargs⟩ : ∃ args, s.leader.buildAppendEntries peer leaderTerm = some args := by
    rw [RaftNode.buildAppendEntries, if_neg hone, List.getElem?_eq_getElem hin]
    exact ⟨_, rfl⟩
  obtain ⟨hterm, -, hprev⟩ := RaftNode.buildAppendEntries_fields hargs
  refine ⟨args, hargs, hterm, RaftNode.buildAppendEntries_quotes h.leader_log hargs, hprev, ?_⟩
  rw [RaftNode.buildAppendEntries, if_neg hone, List.getElem?_eq_getElem hin, Option.map_some,
    Option.some.injEq] at hargs
  subst hargs
  simp only [AppendEntriesArgs.lastIndex, List.length_take, List.length_drop, h.leader_log,
    List.length_cons, next]
  omega

/-- What an answered request leaves to the next round, with the leader as it is after
the answer. -/
theorem answered (h : Ready peer leaderTerm F L s) {args : AppendEntriesArgs}
    (hterm : args.term = leaderTerm) {leader : RaftNode} {next found : List ℕ}
    {commit : ℕ} {es : List Effect}
    (hleader : leader = { s.leader with
      nextIndex := next, matchIndex := found, commitIndex := commit, effects := es })
    {F' : List LogEntry} (hlog : (s.follower.onAppendEntries args).1.log = sentinel :: F')
    (hmatching : LogMatching F' L) (hnext : peer < next.length) (hfound : peer < found.length)
    (hone : 1 ≤ next.getD peer 0) (hle : next.getD peer 0 ≤ L.length + 1)
    (hmatched : found.getD peer 0 ≤ L.length)
    (hagrees : F'.take (found.getD peer 0) = L.take (found.getD peer 0)) :
    Ready peer leaderTerm F' L ⟨leader, (s.follower.onAppendEntries args).1⟩ where
  active := by
    rw [hleader]
    exact h.active
  follows := by
    have hfull : s.follower.log ≠ [] := by simp [h.follower_log]
    have hcurrent := RaftNode.onAppendEntries_currentTerm hfull (h.follows.trans hterm.ge)
    exact hcurrent.le.trans hterm.le
  leader_log := by
    rw [hleader]
    exact h.leader_log
  follower_log := hlog
  matching := hmatching
  next_lt := by
    rw [hleader]
    exact hnext
  matched_lt := by
    rw [hleader]
    exact hfound
  one_le_next := by
    rw [hleader]
    exact hone
  next_le := by
    rw [hleader]
    exact hle
  matched_le := by
    rw [hleader]
    exact hmatched
  agrees := by
    rw [hleader]
    exact hagrees

/-- A round is refused and goes back, or it is accepted and continues behind the
match. -/
theorem round_cases (h : Ready peer leaderTerm F L s) :
    (∃ s', s.round peer leaderTerm = some (false, s') ∧ Ready peer leaderTerm F L s' ∧
      F.take (s.next peer - 1) ≠ L.take (s.next peer - 1) ∧ s'.next peer < s.next peer ∧
      (F.Pairwise (fun e e' ↦ e.term ≤ e'.term) →
        backlog F (s'.next peer - 1) < backlog F (s.next peer - 1))) ∨
    ∃ s' F', s.round peer leaderTerm = some (true, s') ∧ Ready peer leaderTerm F' L s' ∧
      s'.matched peer = max (s.matched peer) (min L.length (s.next peer - 1 + kMaxBatch)) ∧
      s'.next peer = s'.matched peer + 1 := by
  obtain ⟨args, hargs, hterm, hquotes, hprev, hlast⟩ := h.exists_args
  have hprev' : s.next peer - 1 = args.prevLogIndex := by omega
  have hle : s.follower.currentTerm ≤ args.term := hterm ▸ h.follows
  have hfull : s.follower.log ≠ [] := by simp [h.follower_log]
  have hcurrent : (s.follower.onAppendEntries args).2.term = s.leader.currentTerm := by
    have hactive := h.active
    simp only [RaftNode.replicatorRetired, ne_eq, not_or, not_not] at hactive
    rw [RaftNode.onAppendEntries_term, RaftNode.onAppendEntries_currentTerm hfull hle, hterm,
      hactive.2.2]
  have hround : s.round peer leaderTerm = some ((s.follower.onAppendEntries args).2.success,
      ⟨(s.leader.onAppendReply peer leaderTerm args (s.follower.onAppendEntries args).2).1,
        (s.follower.onAppendEntries args).1⟩) := by
    rw [round, hargs]
    rfl
  rw [hround, hprev', ← hprev]
  obtain ⟨hfailed, hlog⟩ | ⟨hsuccess, -, -, -, hlog, -⟩ :=
    RaftNode.onAppendEntries_adopts h.follower_log h.matching hquotes
  · obtain ⟨hdiffer, hpos, hback, hless⟩ := RaftNode.refusal h.follower_log hquotes hle hfailed
    have hleader := @RaftNode.onAppendReply_rejected _ peer _ args _ h.active hcurrent hfailed
    have hhint : min (max (s.follower.onAppendEntries args).2.conflictIndex 1)
        (s.leader.lastLogIndex + 1) = (s.follower.onAppendEntries args).2.conflictIndex := by
      have hend := hquotes.prevLogIndex_le
      rw [RaftNode.lastLogIndex_of_log h.leader_log]
      omega
    rw [hhint] at hleader
    have hnext : (s.leader.nextIndex.set peer
        (s.follower.onAppendEntries args).2.conflictIndex).getD peer 0 =
        (s.follower.onAppendEntries args).2.conflictIndex := by
      simp [List.getD_eq_getElem?_getD, h.next_lt]
    left
    refine ⟨_, by rw [hfailed], ?_, hdiffer, ?_, ?_⟩
    · refine h.answered hterm hleader (hlog.trans h.follower_log) h.matching ?_ h.matched_lt ?_ ?_
        h.matched_le h.agrees
      · simpa using h.next_lt
      · rwa [hnext]
      · have hend := hquotes.prevLogIndex_le
        omega
    · rw [next, hleader, hnext]
      omega
    · intro hsorted
      rw [next, hleader, hnext]
      exact hless hsorted
  · obtain ⟨commit, es, hleader⟩ :=
      @RaftNode.onAppendReply_accepted _ peer _ args _ h.active hcurrent hsuccess
    rw [← AppendEntriesArgs.lastIndex] at hleader
    set newMatch := max (s.leader.matchIndex.getD peer 0) args.lastIndex with hnewMatch
    have hfound : (s.leader.matchIndex.set peer newMatch).getD peer 0 = newMatch := by
      simp [List.getD_eq_getElem?_getD, h.matched_lt]
    have hnext : (s.leader.nextIndex.set peer (newMatch + 1)).getD peer 0 = newMatch + 1 := by
      simp [List.getD_eq_getElem?_getD, h.next_lt]
    have hend : newMatch ≤ L.length := max_le h.matched_le hquotes.lastIndex_le
    have hagrees : (adopt F L args.lastIndex).take newMatch = L.take newMatch := by
      rcases max_choice (s.leader.matchIndex.getD peer 0) args.lastIndex with hmax | hmax
      · rw [hnewMatch, hmax]
        exact take_adopt_of_take_eq h.agrees
      · rw [hnewMatch, hmax]
        exact take_adopt hquotes.lastIndex_le
    right
    refine ⟨_, adopt F L args.lastIndex, by rw [hsuccess], ?_, ?_, ?_⟩
    · refine h.answered hterm hleader hlog (h.matching.adopt (Matching.refl L) _) ?_ ?_ ?_ ?_ ?_ ?_
      · simpa using h.next_lt
      · simpa using h.matched_lt
      · omega
      · omega
      · omega
      · rwa [hfound]
    · rw [matched, hleader, hfound, hnewMatch, hlast, hprev']
      rfl
    · rw [next, matched, hleader, hnext, hfound]

/-- A replicator that continues behind its match is accepted. -/
theorem round_of_matched (h : Ready peer leaderTerm F L s)
    (hnext : s.next peer = s.matched peer + 1) :
    ∃ s' F', s.round peer leaderTerm = some (true, s') ∧ Ready peer leaderTerm F' L s' ∧
      s'.matched peer = min L.length (s.matched peer + kMaxBatch) ∧
      s'.next peer = s'.matched peer + 1 := by
  obtain ⟨s', -, -, hdiffer, -⟩ | ⟨s', F', hround, hready, hmatched, hnext'⟩ := h.round_cases
  · rw [hnext, Nat.add_sub_cancel] at hdiffer
    exact (hdiffer h.agrees).elim
  · have hle := h.matched_le
    refine ⟨s', F', hround, hready, ?_, hnext'⟩
    rw [hmatched, hnext, Nat.add_sub_cancel]
    omega

/-- From there on every round is accepted, and the match grows to the whole log. -/
theorem rounds_of_matched (h : Ready peer leaderTerm F L s)
    (hnext : s.next peer = s.matched peer + 1) (k : ℕ) :
    ∃ s' F', rounds peer leaderTerm k s = some (List.replicate k true, s') ∧
      Ready peer leaderTerm F' L s' ∧ min L.length k ≤ s'.matched peer := by
  suffices hgrows : ∃ s' F', rounds peer leaderTerm k s = some (List.replicate k true, s') ∧
      Ready peer leaderTerm F' L s' ∧ min L.length (s.matched peer + k) ≤ s'.matched peer by
    obtain ⟨s', F', hrounds, hready, hmatched⟩ := hgrows
    exact ⟨s', F', hrounds, hready, by omega⟩
  induction k generalizing s F with
  | zero => exact ⟨s, F, rfl, h, by omega⟩
  | succ k ih =>
      obtain ⟨s₁, F₁, hround, hready₁, hmatched₁, hnext₁⟩ := h.round_of_matched hnext
      obtain ⟨s', F', hrounds, hready, hmatched⟩ := ih hready₁ hnext₁
      refine ⟨s', F', ?_, hready, ?_⟩
      · simp [rounds, hround, hrounds, List.replicate_succ]
      · rw [kMaxBatch] at hmatched₁
        omega

/-- The refusals come first, at most as many as the backlog. -/
theorem rounds_of_sorted (h : Ready peer leaderTerm F L s)
    (hsorted : F.Pairwise fun e e' ↦ e.term ≤ e'.term) :
    ∃ r ≤ backlog F (s.next peer - 1), ∀ k, ∃ s' F',
      rounds peer leaderTerm k s =
        some (List.replicate (min k r) false ++ List.replicate (k - r) true, s') ∧
      Ready peer leaderTerm F' L s' ∧ (r + 1 + L.length ≤ k → s'.matched peer = L.length) := by
  induction hb : backlog F (s.next peer - 1) using Nat.strong_induction_on generalizing s with
  | _ b ih =>
      subst hb
      obtain ⟨s₁, hround, hready₁, -, -, hless⟩ | ⟨s₁, F₁, hround, hready₁, -, hnext₁⟩ :=
        h.round_cases
      · obtain ⟨r, hr, hall⟩ := ih _ (hless hsorted) hready₁ rfl
        refine ⟨r + 1, hr.trans_lt (hless hsorted), fun k ↦ ?_⟩
        cases k with
        | zero => exact ⟨s, F, by simp [rounds], h, by omega⟩
        | succ k =>
            obtain ⟨s', F', hrounds, hready, hmatched⟩ := hall k
            refine ⟨s', F', ?_, hready, fun hk ↦ hmatched (by omega)⟩
            simp [rounds, hround, hrounds, List.replicate_succ, Nat.add_min_add_right,
              Nat.add_sub_add_right]
      · refine ⟨0, Nat.zero_le _, fun k ↦ ?_⟩
        cases k with
        | zero => exact ⟨s, F, rfl, h, by omega⟩
        | succ k =>
            obtain ⟨s', F', hrounds, hready, hmatched⟩ := hready₁.rounds_of_matched hnext₁ k
            refine ⟨s', F', ?_, hready, fun hk ↦ ?_⟩
            · simp [rounds, hround, hrounds, List.replicate_succ]
            · have hle := hready.matched_le
              omega

end Ready

/-- With a follower log of ordered terms, there are at most as many refusals as the log
has terms, and one more; each of them moves `nextIndex_` strictly back, but not below
the first entry. After them every request is accepted, and after finitely many the
match is the whole log of the leader, which the follower then begins with. -/
theorem backup_converges (h : Ready peer leaderTerm F L s)
    (hsorted : F.Pairwise fun e e' ↦ e.term ≤ e'.term) :
    ∃ r ≤ (F.map LogEntry.term).toFinset.card + 1, ∃ enough, ∀ k, ∃ s',
      rounds peer leaderTerm k s =
        some (List.replicate (min k r) false ++ List.replicate (k - r) true, s') ∧
      (∀ s'', s'.round peer leaderTerm = some (false, s'') →
        1 ≤ s''.next peer ∧ s''.next peer < s'.next peer) ∧
      (enough ≤ k → s'.matched peer = L.length ∧
        s'.follower.log.tail.take L.length = L) := by
  obtain ⟨r, hr, hall⟩ := h.rounds_of_sorted hsorted
  refine ⟨r, hr.trans (backlog_le F _), r + 1 + L.length, fun k ↦ ?_⟩
  obtain ⟨s', F', hrounds, hready, hmatched⟩ := hall k
  refine ⟨s', hrounds, fun s'' hround ↦ ?_, fun hk ↦ ?_⟩
  · obtain ⟨s₁, hround', hready₁, -, hback, -⟩ | ⟨s₁, F₁, hround', -⟩ := hready.round_cases
    · obtain rfl : s₁ = s'' := by simpa [hround'] using hround
      exact ⟨hready₁.one_le_next, hback⟩
    · simp [hround'] at hround
  · have hagrees := hready.agrees
    rw [hmatched hk, List.take_length] at hagrees
    refine ⟨hmatched hk, ?_⟩
    rw [hready.follower_log, List.tail_cons, hagrees]

/-- A new leader of term 2 and a follower that has another entry at index 2. -/
def sampleExchange : Exchange where
  leader := { RaftNode.recover 0 2 2 0 [⟨1, []⟩, ⟨2, []⟩] with
    role := .leader, nextIndex := [1, 3] }
  follower := RaftNode.recover 1 2 1 0 [⟨1, []⟩, ⟨1, [7]⟩]

theorem backup_converges_conflict :
    ∃ r ≤ 2, ∃ enough, ∀ k, ∃ s',
      rounds 1 2 k sampleExchange =
        some (List.replicate (min k r) false ++ List.replicate (k - r) true, s') ∧
      (∀ s'', s'.round 1 2 = some (false, s'') →
        1 ≤ s''.next 1 ∧ s''.next 1 < s'.next 1) ∧
      (enough ≤ k → s'.matched 1 = 2 ∧
        s'.follower.log.tail.take 2 = [⟨1, []⟩, ⟨2, []⟩]) := by
  have hmatching : LogMatching ([⟨1, []⟩] ++ [⟨1, [7]⟩]) ([⟨1, []⟩] ++ [⟨2, []⟩]) :=
    Matching.concat _ (by decide)
  have hready : Ready 1 2 [⟨1, []⟩, ⟨1, [7]⟩] [⟨1, []⟩, ⟨2, []⟩] sampleExchange :=
    ⟨by decide, by decide, rfl, rfl, hmatching, by decide, by decide, by decide, by decide,
      by decide, rfl⟩
  exact backup_converges hready (by simp)

end Exchange

end Dkvs
