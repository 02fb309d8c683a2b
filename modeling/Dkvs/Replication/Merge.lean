import Dkvs.ReplicatedLog.Adoption
import Dkvs.Frames

/-!
# A request is a part of the leader's log

A replicator cuts its request out of the leader's log. When the log of the
receiver and the log of the leader satisfy Log Matching, the term tests of
`onAppendEntries` compare whole prefixes, and an accepted request makes the receiver
adopt the leader's log up to the last entry of the request.
-/

namespace Dkvs

open ReplicatedLog

abbrev LogMatching (xs ys : List LogEntry) : Prop := Matching LogEntry.term xs ys

namespace AppendEntriesArgs

/-- The index of the last entry that the request vouches for. -/
def lastIndex (args : AppendEntriesArgs) : ℕ := args.prevLogIndex + args.entries.length

/-- The request is cut out of the log with the given entries. -/
structure Quotes (args : AppendEntriesArgs) (entries : List LogEntry) : Prop where
  prevLogIndex_le : args.prevLogIndex ≤ entries.length
  prevLogTerm : args.prevLogTerm = ((sentinel :: entries).getD args.prevLogIndex sentinel).term
  entries_isPrefix : args.entries <+: entries.drop args.prevLogIndex

namespace Quotes

variable {args : AppendEntriesArgs} {entries : List LogEntry}

theorem lastIndex_le (h : args.Quotes entries) : args.lastIndex ≤ entries.length := by
  have hlen := h.entries_isPrefix.length_le
  have hprev := h.prevLogIndex_le
  rw [List.length_drop] at hlen
  rw [lastIndex]
  omega

theorem take_add (h : args.Quotes entries) {j : ℕ} (hj : j ≤ args.entries.length) :
    entries.take (args.prevLogIndex + j) =
      entries.take args.prevLogIndex ++ args.entries.take j := by
  rw [List.take_add, take_eq_of_isPrefix h.entries_isPrefix hj]

theorem take_lastIndex (h : args.Quotes entries) :
    entries.take args.lastIndex = entries.take args.prevLogIndex ++ args.entries := by
  rw [lastIndex, h.take_add le_rfl, List.take_length]

theorem getElem?_eq (h : args.Quotes entries) {x : ℕ} (hx : x < args.entries.length) :
    entries[args.prevLogIndex + x]? = args.entries[x]? := by
  rw [← List.getElem?_drop]
  exact ReplicatedLog.getElem?_of_isPrefix h.entries_isPrefix (List.getElem?_eq_getElem hx)
    |>.trans (List.getElem?_eq_getElem hx).symm

/-- The same request can be cut out of every longer log. -/
theorem of_isPrefix (h : args.Quotes entries) {longer : List LogEntry} (hpre : entries <+: longer) :
    args.Quotes longer where
  prevLogIndex_le := h.prevLogIndex_le.trans hpre.length_le
  prevLogTerm := by
    obtain ⟨tail, rfl⟩ := hpre
    rw [h.prevLogTerm, ← List.cons_append]
    have hprev : args.prevLogIndex < (sentinel :: entries).length :=
      Nat.lt_succ_of_le h.prevLogIndex_le
    rw [List.getD_append _ _ _ _ hprev]
  entries_isPrefix := by
    obtain ⟨tail, rfl⟩ := hpre
    rw [List.drop_append_of_le_length h.prevLogIndex_le]
    exact h.entries_isPrefix.trans (List.prefix_append _ _)

end Quotes

end AppendEntriesArgs

namespace RaftNode

variable {n leader : RaftNode} {F L : List LogEntry} {args : AppendEntriesArgs}

theorem lastLogIndex_of_log (hlog : n.log = sentinel :: F) : n.lastLogIndex = F.length := by
  simp [lastLogIndex, hlog]

theorem termAt_of_log (hlog : n.log = sentinel :: F) (i : ℕ) :
    n.termAt i = ((sentinel :: F).getD i sentinel).term := by
  rw [termAt, hlog]

theorem buildAppendEntries_quotes {peer leaderTerm : ℕ} (hlog : leader.log = sentinel :: L)
    (hargs : leader.buildAppendEntries peer leaderTerm = some args) : args.Quotes L := by
  unfold buildAppendEntries at hargs
  dsimp only at hargs
  split_ifs at hargs with hzero
  obtain ⟨previous, hprev, rfl⟩ := Option.map_eq_some_iff.mp hargs
  rw [hlog] at hprev
  obtain ⟨hlt, hget⟩ := List.getElem?_eq_some_iff.mp hprev
  refine ⟨Nat.le_of_lt_succ hlt, ?_, ?_⟩
  · exact congrArg LogEntry.term (by rw [List.getD_eq_getElem _ _ hlt, hget])
  · obtain ⟨next, hnext⟩ := Nat.exists_eq_succ_of_ne_zero hzero
    simp only [hnext, hlog, List.drop_succ_cons, Nat.succ_sub_one]
    exact List.take_prefix _ _

/-- The test on the entry before the request compares the logs up to there. -/
theorem take_eq_of_termAt (hlog : n.log = sentinel :: F) (hmatching : LogMatching F L) {i : ℕ}
    (hF : i ≤ F.length) (hL : i ≤ L.length)
    (hterm : n.termAt i = ((sentinel :: L).getD i sentinel).term) : F.take i = L.take i := by
  cases i with
  | zero => rfl
  | succ i =>
      have hF' : F[i]? = some F[i] := List.getElem?_eq_getElem hF
      have hL' : L[i]? = some L[i] := List.getElem?_eq_getElem hL
      refine hmatching hF' hL' ?_
      rw [termAt_of_log hlog] at hterm
      simpa [List.getD_cons_succ, List.getD_eq_getElem?_getD, hF', hL'] using hterm

theorem termAt_of_take_eq (hlog : n.log = sentinel :: F) {i : ℕ} (h : F.take i = L.take i) :
    n.termAt i = ((sentinel :: L).getD i sentinel).term := by
  rw [termAt_of_log hlog]
  cases i with
  | zero => rfl
  | succ i =>
      rw [List.getD_cons_succ, List.getD_cons_succ, List.getD_eq_getElem?_getD,
        List.getD_eq_getElem?_getD, getElem?_eq_of_take_eq h (Nat.lt_succ_self i)]

/-- The entries of a request that match by term extend the common prefix. -/
theorem take_eq_of_matchesUpTo (hlog : n.log = sentinel :: F) (hmatching : LogMatching F L)
    (hquotes : args.Quotes L) (hcommon : F.take args.prevLogIndex = L.take args.prevLogIndex)
    {j : ℕ} (hj : j ≤ args.entries.length)
    (hupto : n.MatchesUpTo (args.prevLogIndex + 1) args.entries j) :
    F.take (args.prevLogIndex + j) = L.take (args.prevLogIndex + j) := by
  cases j with
  | zero => exact hcommon
  | succ j =>
      obtain ⟨hlt, hterm⟩ := hupto j (Nat.lt_succ_self j)
      have hpos : args.prevLogIndex + 1 + j = args.prevLogIndex + j + 1 := by omega
      have hF : args.prevLogIndex + (j + 1) ≤ F.length := by
        rw [hlog, List.length_cons] at hlt
        omega
      have hL : args.prevLogIndex + (j + 1) ≤ L.length :=
        (Nat.add_le_add_left hj _).trans hquotes.lastIndex_le
      refine take_eq_of_termAt hlog hmatching hF hL ?_
      rw [← Nat.add_assoc, ← hpos, hterm, hpos, List.getD_cons_succ, List.getD_eq_getElem?_getD,
        List.getD_eq_getElem?_getD, hquotes.getElem?_eq hj]

/-- Merging a request that follows a common prefix adopts the leader's log. -/
theorem mergeEntries_log (hlog : n.log = sentinel :: F) (hmatching : LogMatching F L)
    (hquotes : args.Quotes L) (hprev : args.prevLogIndex ≤ F.length)
    (hcommon : F.take args.prevLogIndex = L.take args.prevLogIndex) :
    (n.mergeEntries (args.prevLogIndex + 1) args.entries).log =
      sentinel :: adopt F L args.lastIndex := by
  have hlen : args.prevLogIndex + 1 ≤ n.log.length := by
    simpa [hlog] using hprev
  obtain ⟨j, hupto, hcases⟩ :=
    @mergeEntries_cases n args.entries (args.prevLogIndex + 1) (by omega) hlen
  have hpos : args.prevLogIndex + 1 + j = args.prevLogIndex + j + 1 := by omega
  have hrest : j ≤ args.entries.length →
      F.take (args.prevLogIndex + j) ++ args.entries.drop j = L.take args.lastIndex := by
    intro hj
    rw [take_eq_of_matchesUpTo hlog hmatching hquotes hcommon hj hupto, hquotes.take_add hj,
      List.append_assoc, List.take_append_drop, hquotes.take_lastIndex]
  rcases hcases with ⟨rfl, heq⟩ | ⟨hj, hend, heq⟩ | ⟨e, he, hlt, hterm, heq⟩
  · have hpre : L.take args.lastIndex <+: F := by
      rw [← hrest le_rfl, List.drop_length, List.append_nil]
      exact List.take_prefix _ _
    rw [heq, hlog, adopt_of_isPrefix hpre]
  · have hF : F.length = args.prevLogIndex + j := by
      rw [hlog, List.length_cons] at hend
      omega
    have hshort : ¬ L.take args.lastIndex <+: F := by
      intro hpre
      have hle := hpre.length_le
      rw [List.length_take, min_eq_left hquotes.lastIndex_le, AppendEntriesArgs.lastIndex] at hle
      omega
    rw [heq, appendAll_eq, adopt_of_not_isPrefix hshort, ← hrest hj.le,
      List.take_of_length_le hF.le]
    simp [hlog]
  · obtain ⟨hj, -⟩ := List.getElem?_eq_some_iff.mp he
    have hdiverge : ¬ L.take args.lastIndex <+: F := by
      intro hpre
      have hin : args.prevLogIndex + j < args.lastIndex := Nat.add_lt_add_left hj _
      have hget : (L.take args.lastIndex)[args.prevLogIndex + j]? = some e := by
        rw [List.getElem?_take_of_lt hin, hquotes.getElem?_eq hj, he]
      refine hterm ?_
      rw [termAt_of_log hlog, hpos, List.getD_cons_succ, List.getD_eq_getElem?_getD,
        getElem?_of_isPrefix hpre hget]
      rfl
    rw [heq, appendAll_eq, adopt_of_not_isPrefix hdiverge, ← hrest hj.le, hpos]
    simp [truncateLog, emit, hlog]

/-- A request from a matching log is refused and leaves the log as it is, or it
follows a common prefix and is adopted. -/
theorem onAppendEntries_adopts (hlog : n.log = sentinel :: F) (hmatching : LogMatching F L)
    (hquotes : args.Quotes L) :
    (n.onAppendEntries args).2.success = false ∧ (n.onAppendEntries args).1.log = n.log ∨
      (n.onAppendEntries args).2.success = true ∧ n.currentTerm ≤ args.term ∧
        args.prevLogIndex ≤ F.length ∧ F.take args.prevLogIndex = L.take args.prevLogIndex ∧
        (n.onAppendEntries args).1.log = sentinel :: adopt F L args.lastIndex ∧
        (n.onAppendEntries args).1.commitIndex =
          if n.commitIndex < args.leaderCommit then
            min args.leaderCommit (adopt F L args.lastIndex).length
          else n.commitIndex := by
  rcases n.onAppendEntries_cases args with ⟨-, hsame, hrefused⟩ |
    ⟨hle, ⟨hnode, hrefused⟩ | ⟨hprev, hmatch, hnode⟩⟩
  · exact Or.inl ⟨hrefused, by rw [hsame]⟩
  · exact Or.inl ⟨hrefused, by rw [hnode, heed_log]⟩
  · have hprevF : args.prevLogIndex ≤ F.length := lastLogIndex_of_log hlog ▸ hprev
    have hcommon : F.take args.prevLogIndex = L.take args.prevLogIndex :=
      take_eq_of_termAt hlog hmatching hprevF hquotes.prevLogIndex_le
        (hmatch.trans hquotes.prevLogTerm)
    have hmerge := mergeEntries_log ((n.heed_log args).trans hlog) hmatching hquotes hprevF hcommon
    obtain ⟨log, effects, hframe⟩ := @mergeEntries_frame (n.heed args) args.entries
      (args.prevLogIndex + 1) (by omega) (by simpa [hlog] using hprevF)
    rw [hframe] at hmerge
    refine Or.inr ⟨onAppendEntries_success hle hprev hmatch, hle, hprevF, hcommon, ?_, ?_⟩
    · rw [hnode, followCommit_log, hframe]
      exact hmerge
    · rw [hnode, hframe, followCommit, heed_eq hle]
      dsimp only at hmerge
      subst hmerge
      simp only [becomeFollower_commitIndex, lastLogIndex, List.length_cons, Nat.add_sub_cancel]
      split_ifs with hlt
      · rfl
      · rfl

end RaftNode

end Dkvs
