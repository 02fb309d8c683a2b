import Dkvs.Commitment.Safety

/-!
# A follower that commits entries of its own

A new leader brings a follower with a divergent log up to date in batches. As
long as a batch only repeats what the follower has, its divergent tail stays, and
the follower takes over the commit index of the leader up to the end of that
tail. The run below has a tail of one entry. From there on the follower applies
an entry that no leader committed, answers its client, and finally cuts the entry
off its log.
-/

namespace Dkvs

variable {N : ℕ} {c c₁ c₂ : Cluster N} {i : Fin N} {m : ℕ}

/-! ## The applier catches up -/

/-- The applier of node `i` went on from `c` up to index `m`. -/
structure CaughtUp (c : Cluster N) (i : Fin N) (m : ℕ) (c' : Cluster N) : Prop where
  raft : c'.raft i = { c.raft i with lastApplied := m }
  idle : (c'.processes i).applying = none
  handlers : (c'.processes i).handlers = (c.processes i).handlers
  others : ∀ j, j ≠ i → c'.processes j = c.processes j
  later : ∀ idx, m < idx → (c'.processes i).waiters idx = (c.processes i).waiters idx
  slots : ∀ {idx e}, (c.raft i).lastApplied < idx → idx ≤ m → (c.raft i).log[idx]? = some e →
    ((c.processes i).waiters idx).isSome → ∃ r, (c'.processes i).waiters idx = some r ∧
      r.applied = true ∧ r.appliedTerm = e.term
  events : ∃ es, c'.trace = c.trace ++ es ∧ (∀ e ∈ es, ∃ idx t command,
      e = .applied i idx t command) ∧
    ∀ {idx e}, (c.raft i).lastApplied < idx → idx ≤ m → (c.raft i).log[idx]? = some e →
      .applied i idx e.term e.command ∈ es

theorem CaughtUp.refl (hidle : (c.processes i).applying = none) :
    CaughtUp c i (c.raft i).lastApplied c where
  raft := rfl
  idle := hidle
  handlers := rfl
  others j _ := rfl
  later idx _ := rfl
  slots hlt hle := by omega
  events := ⟨[], by simp, by simp, fun hlt hle ↦ by omega⟩

/-- One round of the applier: copy the next entry out and hand it over. -/
theorem exists_apply (hrun : AnyRun c) (hidle : (c.processes i).applying = none) {e : LogEntry}
    (hlt : (c.raft i).lastApplied < (c.raft i).commitIndex)
    (hget : (c.raft i).log[(c.raft i).lastApplied + 1]? = some e) :
    ∃ c', AnyRun c' ∧
      c'.processes i = { c.processes i with
        store := (onApply (c.processes i).store (c.processes i).waiters
          ((c.raft i).lastApplied + 1) e.term e.command).1
        waiters := (onApply (c.processes i).store (c.processes i).waiters
          ((c.raft i).lastApplied + 1) e.term e.command).2
        raft := { c.raft i with lastApplied := (c.raft i).lastApplied + 1 } } ∧
      (∀ j, j ≠ i → c'.processes j = c.processes j) ∧
      c'.trace = c.trace ++ [.applied i ((c.raft i).lastApplied + 1) e.term e.command] := by
  have hfetch : c.step (.fetch i) = some (c.setProcess i { c.processes i with
      applying := some ((c.raft i).lastApplied + 1, e) }) := by
    simp [Cluster.step, Cluster.fetchStep, hidle, hlt, hget]
  have happly : (c.setProcess i { c.processes i with
      applying := some ((c.raft i).lastApplied + 1, e) }).step (.apply i) =
        some (Cluster.applyStep (c.setProcess i { c.processes i with
          applying := some ((c.raft i).lastApplied + 1, e) }) i
            ((c.raft i).lastApplied + 1) e) := by
    simp [Cluster.step]
  have hfetched := hrun.step trivial hfetch ?_
  · refine ⟨_, hfetched.step trivial happly ?_, ?_, fun j hj ↦ ?_, rfl⟩
    · intro j
      have hb := hrun.termsBounded j
      by_cases hj : j = i
      · subst hj
        simpa [Cluster.raft, Cluster.applyStep, Cluster.record] using hb
      · simpa [Cluster.raft, Cluster.applyStep, Cluster.record, hj] using hb
    · simp [Cluster.applyStep, Cluster.record, hidle]
    · simp [Cluster.applyStep, Cluster.record, hj]
  · intro j
    have hb := hrun.termsBounded j
    by_cases hj : j = i
    · subst hj
      simpa [Cluster.raft] using hb
    · simpa [Cluster.raft, hj] using hb

theorem CaughtUp.next (hup : CaughtUp c i m c₁) {e : LogEntry}
    (hget : (c.raft i).log[m + 1]? = some e)
    (hself : c₂.processes i = { c₁.processes i with
      store := (onApply (c₁.processes i).store (c₁.processes i).waiters (m + 1) e.term
        e.command).1
      waiters := (onApply (c₁.processes i).store (c₁.processes i).waiters (m + 1) e.term
        e.command).2
      raft := { c₁.raft i with lastApplied := m + 1 } })
    (hothers : ∀ j, j ≠ i → c₂.processes j = c₁.processes j)
    (htrace : c₂.trace = c₁.trace ++ [.applied i (m + 1) e.term e.command]) :
    CaughtUp c i (m + 1) c₂ where
  raft := by
    rw [Cluster.raft, hself]
    show { c₁.raft i with lastApplied := m + 1 } = _
    rw [hup.raft]
  idle := by rw [hself]; exact hup.idle
  handlers := by rw [hself]; exact hup.handlers
  others j hj := (hothers j hj).trans (hup.others j hj)
  later idx hidx := by
    rw [hself]
    exact (onApply_of_ne _ _ _ _ (by omega)).trans (hup.later idx (by omega))
  slots {idx e'} hlt hle hidx hslot := by
    rw [hself]
    by_cases hlast : idx = m + 1
    · subst hlast
      obtain rfl : e = e' := Option.some.inj (hget.symm.trans hidx)
      refine onApply_slot _ _ _ ?_
      rw [hup.later _ (Nat.lt_succ_self m)]
      exact hslot
    · obtain ⟨r, hr, hdone⟩ := hup.slots hlt (by omega) hidx hslot
      exact ⟨r, (onApply_of_ne _ _ _ _ hlast).trans hr, hdone⟩
  events := by
    obtain ⟨es, htail, hall, hmem⟩ := hup.events
    refine ⟨es ++ [.applied i (m + 1) e.term e.command], ?_, ?_, fun {idx e'} hlt hle hidx ↦ ?_⟩
    · rw [htrace, htail, List.append_assoc]
    · intro e' he'
      rcases List.mem_append.mp he' with he' | he'
      · exact hall e' he'
      · exact ⟨_, _, _, List.mem_singleton.mp he'⟩
    · by_cases hlast : idx = m + 1
      · subst hlast
        obtain rfl : e = e' := Option.some.inj (hget.symm.trans hidx)
        simp
      · exact List.mem_append_left _ (hmem hlt (by omega) hidx)

theorem exists_caughtUp (hrun : AnyRun c) (hidle : (c.processes i).applying = none)
    (hrange : (c.raft i).commitIndex ≤ (c.raft i).lastLogIndex) {k : ℕ}
    (hk : (c.raft i).lastApplied + k ≤ (c.raft i).commitIndex) :
    ∃ c', AnyRun c' ∧ CaughtUp c i ((c.raft i).lastApplied + k) c' := by
  induction k with
  | zero => exact ⟨c, hrun, .refl hidle⟩
  | succ k ih =>
      obtain ⟨c₁, hrun₁, hup⟩ := ih (by omega)
      have hin : (c.raft i).lastApplied + k + 1 < (c.raft i).log.length := by
        rw [RaftNode.lastLogIndex] at hrange
        omega
      have hget := List.getElem?_eq_getElem hin
      have hraft : (c₁.raft i).lastApplied = (c.raft i).lastApplied + k := by rw [hup.raft]
      obtain ⟨c₂, hrun₂, hself, hothers, htrace⟩ := exists_apply hrun₁ hup.idle
        (e := (c.raft i).log[(c.raft i).lastApplied + k + 1])
        (by rw [hup.raft]; exact hk) (by rw [hup.raft]; exact hget)
      rw [hraft] at hself htrace
      exact ⟨c₂, hrun₂, hup.next hget hself hothers htrace⟩

/-! ## The run -/

/-- The event commits the given entry at the given index. -/
def Event.commits (idx : ℕ) (entry : LogEntry) : Event N → Bool
  | .advanceCommit _ _ m log => idx ≤ m ∧ log[idx - 1]? = some entry
  | _ => false

def divergentCommand : Command := ⟨.set, [107], [118]⟩

/-- Node 0 takes `n` commands and replicates them to node 1. -/
def submitRound (n : ℕ) : List (Action 3) :=
  List.flatten [List.replicate n (.submit 0 []), [.send 0 0, .deliverAppend 0, .appendReply 0 0 0]]

def divergence : List (Action 3) :=
  List.flatten [
    -- node 0 leads in term 1 and commits 100 entries; entry 101 does not leave it
    [.timeout 0, .deliverVote 0, .voteReply 0 0 0],
    submitRound 9, (List.replicate 9 (submitRound 10)).flatten, [.execute 0 divergentCommand],
    -- node 1 leads in term 2, crashes, and leads again in term 3
    [.timeout 1, .deliverVote 2, .voteReply 1 1 0, .crash 1],
    [.timeout 1, .deliverVote 3, .voteReply 1 1 0],
    -- node 2 copies the log, and 102 entries are committed
    [.send 1 1, .deliverAppend 0, .appendReply 1 1 0, .send 1 1, .deliverAppend 0],
    [.appendReply 1 1 0, .send 1 1, .deliverAppend 0, .appendReply 1 1 0],
    -- node 0 refuses once; the second request ends at index 100
    [.send 1 0, .deliverAppend 0, .appendReply 1 0 0, .send 1 0, .deliverAppend 0]]

/-- The state at the end of the run, and the next request to node 0. -/
def Divergent (c : Cluster 3) : Prop :=
  ((c.raft 0).commitIndex = 101 ∧ (c.raft 0).lastLogIndex = 101 ∧
    (c.raft 0).log[101]? = some ⟨1, divergentCommand.encode⟩ ∧ (c.raft 0).lastApplied = 0 ∧
    (c.processes 0).applying = none ∧ ((c.processes 0).waiters 101).isSome ∧
    (c.processes 0).handlers = [⟨101, 1, divergentCommand⟩]) ∧
  ((c.raft 1).commitIndex = 102 ∧ (c.raft 1).lastLogIndex = 102 ∧
    (c.raft 1).log[101]? = some ⟨2, []⟩ ∧ (c.raft 1).lastApplied = 0 ∧
    (c.processes 1).applying = none) ∧
  (∀ e ∈ c.trace, Event.commits 101 ⟨1, divergentCommand.encode⟩ e = false) ∧
  (c.play (fun _ _ ↦ True) [.appendReply 1 0 0, .send 1 0]).any (fun c₁ ↦
    (c₁.raft 0).commitIndex = 101 ∧
    (c₁.raft 0).log[101]? = some ⟨1, divergentCommand.encode⟩ ∧
    (c₁.step (.deliverAppend 0)).any (fun c₂ ↦ c₂.TermsBounded ∧
      (c₂.raft 0).log[101]? = some ⟨2, []⟩)) = true

instance (c : Cluster 3) : Decidable (Divergent c) :=
  inferInstanceAs (Decidable ((_ ∧ _) ∧ _))

theorem exists_divergent_run : ∃ c : Cluster 3, AnyRun c ∧ Divergent c :=
  exists_run_of_play (by decide) (by decide) divergence (by decide +kernel)

/-- Node 0 applies its own entry 101 and node 1 applies the committed one. -/
theorem not_state_machine_safety :
    ¬ ∀ {N : ℕ} {c : Cluster N}, AnyRun c → ∀ {x y : Fin N} {idx t t' : ℕ}
      {command command' : Bytes}, .applied x idx t command ∈ c.trace →
        .applied y idx t' command' ∈ c.trace → t = t' ∧ command = command' := by
  intro hholds
  obtain ⟨c, hrun, ⟨hci, hlast, hget, hla, hidle, -⟩, ⟨hci', hlast', hget', hla', hidle'⟩, -⟩ :=
    exists_divergent_run
  obtain ⟨c₁, hrun₁, hup⟩ := exists_caughtUp (k := 101) hrun hidle (by omega) (by omega)
  have hother : c₁.processes 1 = c.processes 1 := hup.others 1 (by decide)
  have hraft : c₁.raft 1 = c.raft 1 := congrArg Process.raft hother
  obtain ⟨c₂, hrun₂, hup'⟩ := exists_caughtUp (i := 1) (k := 101) hrun₁ (by rw [hother, hidle'])
    (by rw [hraft]; omega) (by rw [hraft]; omega)
  obtain ⟨es, htrace, -, hmem⟩ := hup.events
  obtain ⟨es', htrace', -, hmem'⟩ := hup'.events
  rw [hraft] at hmem'
  have hzero : .applied 0 101 1 divergentCommand.encode ∈ c₂.trace := by
    rw [htrace', htrace]
    exact List.mem_append_left _ (List.mem_append_right _ (hmem (by omega) (by omega) hget))
  have hone : .applied 1 101 2 [] ∈ c₂.trace := by
    rw [htrace']
    exact List.mem_append_right _ (hmem' (by omega) (by omega) hget')
  obtain ⟨hterm, -⟩ := hholds hrun₂ hzero hone
  omega

/-- Node 0 tells its client that entry 101 is in force; no leader committed it. -/
theorem not_acknowledgement_sound :
    ¬ ∀ {N : ℕ} {c : Cluster N}, AnyRun c → ∀ {x : Fin N} {handler : Handler}
      {response : Response}, .answered x handler response ∈ c.trace →
        response.isSuccess = true → ∃ y t m log, .advanceCommit y t m log ∈ c.trace ∧
          handler.index ≤ m ∧
            log[handler.index - 1]? = some ⟨handler.term, handler.cmd.encode⟩ := by
  intro hholds
  obtain ⟨c, hrun, ⟨hci, hlast, hget, hla, hidle, hslot, hhandlers⟩, -, hnone, -⟩ :=
    exists_divergent_run
  obtain ⟨c₁, hrun₁, hup⟩ := exists_caughtUp (k := 101) hrun hidle (by omega) (by omega)
  obtain ⟨r, hr, hdone, hterm⟩ := hup.slots (by omega) (by omega) hget hslot
  have hstep : c₁.step (.resume 0 0) = some (c₁.resumeStep 0 0 ⟨101, 1, divergentCommand⟩) := by
    simp [Cluster.step, hup.handlers, hhandlers]
  have hanswer : (resume (c₁.processes 0).stopping (c₁.processes 0).waiters
      ⟨101, 1, divergentCommand⟩).1 = .ok := by
    simp [resume, hr, hdone, hterm, outcome, divergentCommand]
  have hrun₂ := hrun₁.step trivial hstep ?_
  · have hmem : .answered 0 ⟨101, 1, divergentCommand⟩ .ok ∈
        (c₁.resumeStep 0 0 ⟨101, 1, divergentCommand⟩).trace := by
      refine List.mem_append_right _ ?_
      rw [hanswer]
      exact List.mem_singleton_self _
    obtain ⟨y, t, m, log, hadvance, hm, hlog⟩ := hholds hrun₂ hmem rfl
    obtain ⟨es, htrace, hall, -⟩ := hup.events
    have hbefore : .advanceCommit y t m log ∈ c.trace := by
      rcases List.mem_append.mp hadvance with hadvance | hadvance
      · have hthen : .advanceCommit y t m log ∈ c₁.trace := hadvance
        rw [htrace] at hthen
        rcases List.mem_append.mp hthen with hadvance | hadvance
        · exact hadvance
        · obtain ⟨_, _, _, heq⟩ := hall _ hadvance
          simp at heq
      · simp at hadvance
    have hnot : decide (101 ≤ m ∧ log[100]? = some ⟨1, divergentCommand.encode⟩) = false :=
      hnone _ hbefore
    exact of_decide_eq_false hnot ⟨hm, hlog⟩
  · intro j
    have hb := hrun₁.termsBounded j
    by_cases hj : j = 0
    · subst hj
      simpa [Cluster.raft, Cluster.resumeStep, Cluster.record] using hb
    · simpa [Cluster.raft, Cluster.resumeStep, Cluster.record, hj] using hb

/-- Node 0 replaces entry 101, which is below its commit index. -/
theorem not_committed_immutable :
    ¬ ∀ {N : ℕ} {c c' : Cluster N} {a : Action N}, AnyRun c → c.step a = some c' →
      c'.TermsBounded → ∀ i, ∀ k ≤ (c.raft i).commitIndex,
        (c'.raft i).log[k]? = (c.raft i).log[k]? := by
  intro hholds
  obtain ⟨c, hrun, -, -, -, hplay⟩ := exists_divergent_run
  cases hc₁ : c.play (fun _ _ ↦ True) [.appendReply 1 0 0, .send 1 0] with
  | none => simp [hc₁] at hplay
  | some c₁ =>
      cases hc₂ : c₁.step (.deliverAppend 0) with
      | none => simp [hc₁, hc₂] at hplay
      | some c₂ =>
          simp only [hc₁, hc₂, Option.any_some, Bool.decide_and, Bool.and_eq_true,
            decide_eq_true_eq] at hplay
          obtain ⟨hci, hget, hb, hget'⟩ := hplay
          have hsame := hholds (hrun.play hc₁) hc₂ hb 0 101 hci.ge
          rw [hget, hget'] at hsame
          simp at hsame

end Dkvs
