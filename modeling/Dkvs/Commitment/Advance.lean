import Dkvs.Operations

/-!
# The commit index of a leader

`advanceCommit` looks for the last entry of the current term that a majority holds. It
scans the log from its end and stops at the first entry of another term. In a log whose
terms are ordered and not beyond the current one, nothing below such an entry is of the
current term, so the scan does not miss anything.
-/

namespace Dkvs

namespace RaftNode

/-- A leader may commit up to the index `i`: it has not yet, the entry there is of its own
term, and a majority has it. -/
def Committable (n : RaftNode) (i : ℕ) : Prop :=
  i ≤ n.lastLogIndex ∧ n.commitIndex < i ∧ n.termAt i = n.currentTerm ∧
    n.majority ≤ n.replicas i

instance (n : RaftNode) (i : ℕ) : Decidable (n.Committable i) :=
  inferInstanceAs (Decidable (_ ∧ _))

/-- The terms of the log are ordered, and none is beyond the current term. -/
structure TermsOrdered (n : RaftNode) : Prop where
  ordered : n.log.Pairwise fun e e' ↦ e.term ≤ e'.term
  bounded : ∀ e ∈ n.log, e.term ≤ n.currentTerm

variable {n : RaftNode}

theorem termAt_eq_getElem {i : ℕ} (hi : i < n.log.length) : n.termAt i = n.log[i].term := by
  rw [termAt, List.getD_eq_getElem _ _ hi]

/-- Above an entry of the current term all entries are of the current term. -/
theorem TermsOrdered.termAt_eq (h : n.TermsOrdered) {i j : ℕ} (hij : i ≤ j)
    (hj : j < n.log.length) (hterm : n.termAt i = n.currentTerm) : n.termAt j = n.currentTerm := by
  rcases Nat.eq_or_lt_of_le hij with rfl | hlt
  · exact hterm
  · have hle := List.pairwise_iff_getElem.mp h.ordered i j (hlt.trans hj) hj hlt
    have hbound := h.bounded _ (List.getElem_mem hj)
    rw [termAt_eq_getElem (hlt.trans hj)] at hterm
    rw [termAt_eq_getElem hj]
    omega

/-- The scan from `k` ends at or above every index up to `k` that can be committed. -/
theorem TermsOrdered.le_advanceLoop (h : n.TermsOrdered) {i k : ℕ} (hk : k ≤ n.lastLogIndex)
    (hik : i ≤ k) (hi : n.Committable i) : i ≤ (n.advanceLoop k).commitIndex := by
  obtain ⟨-, hcommit, hterm, hcount⟩ := hi
  induction k with
  | zero => omega
  | succ k ih =>
      rw [advanceLoop]
      split_ifs with hlow hother hmajority
      · rw [lastLogIndex] at hk
        exact (hother (h.termAt_eq hik (by omega) hterm)).elim
      · exact hik
      · have hne : i ≠ k + 1 := by
          rintro rfl
          exact hmajority hcount
        exact ih (by omega) (by omega)
      · omega

theorem TermsOrdered.le_advanceCommit (h : n.TermsOrdered) (hrole : n.role = .leader) {i : ℕ}
    (hi : n.Committable i) : i ≤ n.advanceCommit.commitIndex := by
  rw [advanceCommit, if_neg (not_not.mpr hrole)]
  exact h.le_advanceLoop le_rfl hi.1 hi

theorem TermsOrdered.isGreatest (h : n.TermsOrdered) (hrole : n.role = .leader) {i : ℕ}
    (hi : n.Committable i) : IsGreatest {i | n.Committable i} n.advanceCommit.commitIndex := by
  refine ⟨?_, fun j hj ↦ h.le_advanceCommit hrole hj⟩
  have hle := h.le_advanceCommit hrole hi
  rcases n.advanceCommit_cases with hsame | ⟨-, m, hm, hlow, hterm, hcount, hmove⟩
  · rw [hsame] at hle
    exact (Nat.not_lt.mpr hle hi.2.1).elim
  · rw [hmove]
    exact ⟨hm, hlow, hterm, hcount⟩

theorem advanceCommit_eq_self (hnone : ¬ ∃ i, n.Committable i) : n.advanceCommit = n := by
  rcases n.advanceCommit_cases with hsame | ⟨-, m, hm, hlow, hterm, hcount, -⟩
  · exact hsame
  · exact (hnone ⟨m, hm, hlow, hterm, hcount⟩).elim

theorem commitIndex_le_advanceCommit (n : RaftNode) :
    n.commitIndex ≤ n.advanceCommit.commitIndex := by
  rcases n.advanceCommit_cases with hsame | ⟨-, m, -, hlow, -, -, hmove⟩
  · rw [hsame]
  · rw [hmove]
    exact hlow.le

theorem replicas_mono {found : List ℕ}
    (hle : ∀ p < n.clusterSize, n.matchIndex.getD p 0 ≤ found.getD p 0) (i : ℕ) :
    n.replicas i ≤ ({ n with matchIndex := found } : RaftNode).replicas i := by
  refine List.countP_mono_left fun p hp hi ↦ ?_
  have hmore := hle p (List.mem_range.mp hp)
  simp only [decide_eq_true_eq] at hi ⊢
  exact hi.trans hmore

/-- The commit index of a leader moves to the last index that can be committed, and stays
where there is none. It is no lower when the peers are known to have more, and a second
scan finds nothing. -/
theorem advanceCommit_greatest (hrole : n.role = .leader) (h : n.TermsOrdered) :
    ((∃ i, n.Committable i) →
        IsGreatest {i | n.Committable i} n.advanceCommit.commitIndex) ∧
      ((¬ ∃ i, n.Committable i) → n.advanceCommit = n) ∧
      (∀ found : List ℕ, (∀ p < n.clusterSize, n.matchIndex.getD p 0 ≤ found.getD p 0) →
        n.advanceCommit.commitIndex ≤
          ({ n with matchIndex := found } : RaftNode).advanceCommit.commitIndex) ∧
      n.advanceCommit.advanceCommit = n.advanceCommit := by
  refine ⟨fun ⟨i, hi⟩ ↦ h.isGreatest hrole hi, advanceCommit_eq_self, fun found hle ↦ ?_, ?_⟩
  · by_cases hnone : ∃ i, n.Committable i
    · obtain ⟨i, hi⟩ := hnone
      obtain ⟨⟨hlast, hlow, hterm, hcount⟩, -⟩ := h.isGreatest hrole hi
      have hmore : TermsOrdered { n with matchIndex := found } := ⟨h.ordered, h.bounded⟩
      exact hmore.le_advanceCommit hrole ⟨hlast, hlow, hterm, hcount.trans (replicas_mono hle _)⟩
    · rw [advanceCommit_eq_self hnone]
      exact commitIndex_le_advanceCommit { n with matchIndex := found }
  · refine advanceCommit_eq_self ?_
    rintro ⟨i, hlast, hlow, hterm, hcount⟩
    rcases n.advanceCommit_cases with hsame | ⟨-, m, hm, hmlow, -, -, hmove⟩
    · rw [hsame] at hlast hlow hterm hcount
      have hle := h.le_advanceCommit hrole ⟨hlast, hlow, hterm, hcount⟩
      rw [hsame] at hle
      omega
    · rw [hmove] at hlast hlow hterm hcount
      have hle := h.le_advanceCommit hrole ⟨hlast, hmlow.trans hlow, hterm, hcount⟩
      rw [hmove] at hle
      exact absurd hlow (Nat.not_lt.mpr hle)

/-- A leader of term 2 with one entry of term 1 and two of its own; one other node has
the second entry. -/
def countingLeader : RaftNode :=
  { recover 0 3 2 0 [⟨1, []⟩, ⟨2, []⟩, ⟨2, [7]⟩] with role := .leader, matchIndex := [3, 2, 0] }

theorem advanceCommit_greatest_counting :
    IsGreatest {i | countingLeader.Committable i} 2 ∧
      countingLeader.advanceCommit.commitIndex = 2 ∧
      countingLeader.advanceCommit.advanceCommit = countingLeader.advanceCommit := by
  have hordered : countingLeader.TermsOrdered := by
    constructor
    · simp [countingLeader, recover, sentinel]
    · simp [countingLeader, recover, sentinel]
  obtain ⟨hsome, -, -, htwice⟩ := advanceCommit_greatest (n := countingLeader) rfl hordered
  exact ⟨hsome ⟨2, by decide⟩, by decide, htwice⟩

end RaftNode

end Dkvs
