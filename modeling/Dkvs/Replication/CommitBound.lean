import Dkvs.Replication.Merge

/-!
# What a follower commits

A request vouches for the leader's log up to its last entry. The follower takes over
the leader's commit index bounded by the end of its own log, which may lie further
on: it keeps a tail behind a request that it already has. The entries it commits are
the leader's unless the bound falls into such a tail at an entry that is not.
-/

namespace Dkvs

open ReplicatedLog

namespace RaftNode

/-- The follower has all that the request vouches for, and the commit index it takes
over lies beyond the request and beyond what it had committed, at an entry that is
not of the term of the leader's entry there. -/
def CommitsBeyond (n leader : RaftNode) (args : AppendEntriesArgs) : Prop :=
  leader.log.take (args.lastIndex + 1) <+: n.log ∧
    max n.commitIndex args.lastIndex < min args.leaderCommit n.lastLogIndex ∧
    n.termAt (min args.leaderCommit n.lastLogIndex) ≠
      leader.termAt (min args.leaderCommit n.lastLogIndex)

instance (n leader : RaftNode) (args : AppendEntriesArgs) :
    Decidable (n.CommitsBeyond leader args) :=
  inferInstanceAs (Decidable (_ ∧ _))

variable {n leader : RaftNode} {F L : List LogEntry} {args : AppendEntriesArgs}

theorem leaderCommit_of_buildAppendEntries {peer leaderTerm : ℕ}
    (hargs : leader.buildAppendEntries peer leaderTerm = some args) :
    args.leaderCommit = leader.commitIndex := by
  unfold buildAppendEntries at hargs
  dsimp only at hargs
  split_ifs at hargs with hzero
  obtain ⟨previous, -, rfl⟩ := Option.map_eq_some_iff.mp hargs
  rfl

theorem getElem?_cons_of_take_eq {k i : ℕ} (h : F.take k = L.take k) (hi : i ≤ k) :
    (sentinel :: F)[i]? = (sentinel :: L)[i]? := by
  have hcons : (sentinel :: F).take (k + 1) = (sentinel :: L).take (k + 1) := by simp [h]
  exact getElem?_eq_of_take_eq hcons (Nat.lt_succ_of_le hi)

/-- An accepted request of a matching leader makes the follower commit only entries
of the leader's log, except when it commits beyond the request. -/
theorem commits_leader_entries_iff {peer leaderTerm : ℕ} (hlog : n.log = sentinel :: F)
    (hleader : leader.log = sentinel :: L) (hmatching : LogMatching F L)
    (hargs : leader.buildAppendEntries peer leaderTerm = some args)
    (hcommit : leader.commitIndex ≤ L.length)
    (hsuccess : (n.onAppendEntries args).2.success = true) :
    (∀ i, n.commitIndex < i → i ≤ (n.onAppendEntries args).1.commitIndex →
      i ≤ (n.onAppendEntries args).1.lastLogIndex ∧
        (n.onAppendEntries args).1.log[i]? = leader.log[i]?) ↔
      ¬ n.CommitsBeyond leader args := by
  have hquotes := buildAppendEntries_quotes hleader hargs
  have hbound : args.leaderCommit ≤ L.length :=
    (leaderCommit_of_buildAppendEntries hargs).trans_le hcommit
  obtain ⟨hrefused, -⟩ | ⟨-, -, -, -, hnew, hindex⟩ := onAppendEntries_adopts hlog hmatching hquotes
  · simp [hrefused] at hsuccess
  have hlast : (n.onAppendEntries args).1.lastLogIndex = (adopt F L args.lastIndex).length :=
    lastLogIndex_of_log hnew
  have hbegins : leader.log.take (args.lastIndex + 1) <+: n.log ↔ L.take args.lastIndex <+: F := by
    rw [hleader, hlog, List.take_succ_cons, List.cons_prefix_cons]
    simp
  rw [hlast, hnew, hleader, hindex, CommitsBeyond, hbegins, lastLogIndex_of_log hlog]
  constructor
  · rintro hall ⟨hpre, hbeyond, hterm⟩
    -- the bound itself is committed, and the entry there is not the leader's
    have hlt : n.commitIndex < args.leaderCommit := by omega
    rw [if_pos hlt, adopt_of_isPrefix hpre] at hall
    have hentry := (hall (min args.leaderCommit F.length) (by omega) le_rfl).2
    refine hterm ?_
    rw [termAt_of_log hlog, termAt_of_log hleader, List.getD_eq_getElem?_getD, hentry,
      List.getD_eq_getElem?_getD]
  · intro hnot i hi hle
    split_ifs at hle with hlt
    · refine ⟨by omega, ?_⟩
      have htaken : (adopt F L args.lastIndex).take args.lastIndex = L.take args.lastIndex :=
        take_adopt hquotes.lastIndex_le
      by_cases hpre : L.take args.lastIndex <+: F
      · rw [adopt_of_isPrefix hpre] at hle htaken ⊢
        rcases le_or_gt i args.lastIndex with hin | hout
        · exact getElem?_cons_of_take_eq htaken hin
        · -- beyond the request the entry at the bound is of the leader's term
          have hterm : n.termAt (min args.leaderCommit F.length) =
              leader.termAt (min args.leaderCommit F.length) := by
            by_contra hterm
            exact hnot ⟨hpre, by omega, hterm⟩
          rw [termAt_of_log hleader] at hterm
          have htake := take_eq_of_termAt hlog hmatching (by omega) (by omega) hterm
          exact getElem?_cons_of_take_eq htake hle
      · have hlen : (adopt F L args.lastIndex).length ≤ args.lastIndex := by
          rw [adopt_of_not_isPrefix hpre]
          exact List.length_take_le _ _
        exact getElem?_cons_of_take_eq htaken (by omega)
    · omega

/-- A leader of term 2 with a batch of entries of term 1 and one of its own, all of
them committed; nothing is known about the follower. -/
def batchLeader : RaftNode :=
  { recover 0 3 2 0 (List.replicate 100 ⟨1, []⟩ ++ [⟨2, []⟩]) with
    role := .leader, commitIndex := 101 }

/-- A follower that has the batch and behind it another entry of term 1. -/
def batchFollower : RaftNode := recover 1 3 2 0 (List.replicate 100 ⟨1, []⟩ ++ [⟨1, [7]⟩])

/-- The first batch is accepted, and the follower commits its own entry 101. -/
theorem commits_leader_entries_beyond : ∃ args, LogMatching batchFollower.log.tail
      batchLeader.log.tail ∧
    batchLeader.buildAppendEntries 1 2 = some args ∧
    batchLeader.commitIndex ≤ batchLeader.log.tail.length ∧
    (batchFollower.onAppendEntries args).2.success = true ∧
    batchFollower.commitIndex < 101 ∧ 101 ≤ (batchFollower.onAppendEntries args).1.commitIndex ∧
    (batchFollower.onAppendEntries args).1.log[101]? = some ⟨1, [7]⟩ ∧
    batchLeader.log[101]? = some ⟨2, []⟩ :=
  ⟨⟨2, 0, 0, 0, 101, List.replicate 100 ⟨1, []⟩⟩, Matching.concat _ (by decide),
    by decide +kernel, by decide +kernel, by decide +kernel, by decide +kernel,
    by decide +kernel, by decide +kernel, by decide +kernel⟩

/-- A follower that ends with the batch commits all of it. -/
theorem commits_leader_entries_batch : ∃ n args,
    n = recover 1 3 2 0 (List.replicate 100 ⟨1, []⟩) ∧
    batchLeader.buildAppendEntries 1 2 = some args ∧
    (n.onAppendEntries args).1.commitIndex = 100 ∧
    ∀ i, n.commitIndex < i → i ≤ (n.onAppendEntries args).1.commitIndex →
      i ≤ (n.onAppendEntries args).1.lastLogIndex ∧
        (n.onAppendEntries args).1.log[i]? = batchLeader.log[i]? := by
  have hmatching : LogMatching (List.replicate 100 ⟨1, []⟩)
      (List.replicate 100 ⟨1, []⟩ ++ [⟨2, []⟩]) :=
    (Matching.refl _).of_isPrefix_left (List.prefix_append _ _)
  have hargs : batchLeader.buildAppendEntries 1 2 =
      some ⟨2, 0, 0, 0, 101, List.replicate 100 ⟨1, []⟩⟩ := by decide +kernel
  refine ⟨_, _, rfl, hargs, by decide +kernel, ?_⟩
  exact (commits_leader_entries_iff rfl rfl hmatching hargs (by decide +kernel)
    (by decide +kernel)).mpr (by decide +kernel)

end RaftNode

end Dkvs
