import Dkvs.Simulation.Step

/-!
# Elections, logs and leaders in every run

Three results hold in every run whatever the followers do with their commit
index: there is one election for each term, logs that share a term at an index
share everything below it, and what a leader has committed is in the log of
every later leader.
-/

namespace Dkvs

open ReplicatedLog

variable {N : ℕ} {c : Cluster N}

/-- The log of node `i` in memory, without the sentinel, and the log on its
disk. -/
def Cluster.logs (c : Cluster N) (i : Fin N) : List (List LogEntry) :=
  [(c.raft i).log.tail, (c.processes i).storage.entries]

theorem Sim.eq_log {h : History N} (hsim : Sim c h) {i : Fin N} {l : List LogEntry}
    (hl : l ∈ c.logs i) : l = h.log i := by
  rcases List.mem_cons.mp hl with rfl | hl
  · simp [(hsim.tracks i).log]
  · rw [List.mem_singleton.mp hl, (hsim.nodes i).disk, durable]

theorem index_eq_of_elections_nodup {events : List (Event N)} (hnodup : (elections events).Nodup)
    {k k' t : ℕ} {i j : Fin N} {log log' : List LogEntry}
    (hk : events[k]? = some (.becomeLeader i t log))
    (hk' : events[k']? = some (.becomeLeader j t log')) : k = k' := by
  induction events generalizing k k' with
  | nil => simp at hk
  | cons e events ih =>
      have htail : (elections events).Nodup := by
        have hsplit : elections (e :: events) = elections [e] ++ elections events :=
          elections_append [e] events
        rw [hsplit] at hnodup
        exact hnodup.of_append_right
      have habsent : ∀ {x : Fin N} {m : ℕ} {lg : List LogEntry} {y : Fin N} {lg' : List LogEntry},
          e = .becomeLeader x t lg → events[m]? = some (.becomeLeader y t lg') → False := by
        rintro x m lg y lg' rfl hm
        have hmem : t ∈ elections events :=
          List.mem_filterMap.mpr ⟨_, List.mem_of_getElem? hm, rfl⟩
        exact (List.nodup_cons.mp hnodup).1 hmem
      cases k with
      | zero =>
          cases k' with
          | zero => rfl
          | succ k' => exact (habsent (by simpa using hk) (by simpa using hk')).elim
      | succ k =>
          cases k' with
          | zero => exact (habsent (by simpa using hk') (by simpa using hk)).elim
          | succ k' => exact congrArg Nat.succ (ih htail (by simpa using hk) (by simpa using hk'))

/-- Node 0 of three commits a command with node 1 and takes another that reaches
no one, and then node 1 is elected by node 2. -/
theorem exists_succession : ∃ c : Cluster 3, AnyRun c ∧
    c.trace = [.becomeLeader 0 1 [], .submitted 0 2 1 [7],
      .advanceCommit 0 1 2 [⟨1, []⟩, ⟨1, [7]⟩], .submitted 0 3 1 [8],
      .becomeLeader 1 2 [⟨1, []⟩, ⟨1, [7]⟩]] ∧
    (c.raft 0).log.tail = [⟨1, []⟩, ⟨1, [7]⟩, ⟨1, [8]⟩] ∧
    (c.processes 1).storage.entries = [⟨1, []⟩, ⟨1, [7]⟩, ⟨2, []⟩] :=
  exists_run_of_play (by decide) (by decide)
    [.timeout 0, .deliverVote 0, .voteReply 0 0 0, .submit 0 [7], .send 0 0, .deliverAppend 0,
      .appendReply 0 0 0, .submit 0 [8], .timeout 1, .deliverVote 2, .voteReply 1 1 0]
    (by decide +kernel)

theorem Sim.take_eq_of_elected {h : History N} (hsim : Sim c h) {i j : Fin N} {t t' n : ℕ}
    {log log' : List LogEntry} (hcommit : .advanceCommit i t n log ∈ c.trace)
    (helected : .becomeLeader j t' log' ∈ c.trace) (ht : t < t') :
    n ≤ log.length ∧ log'.take n = log.take n := by
  obtain ⟨-, hlog, hn, hchosen⟩ := hsim.trace.events _ hcommit
  obtain ⟨hleader, hstem⟩ := hsim.trace.events _ helected
  have hinv := Invariant.of_reachable hsim.reach
  have hpre := hinv.chosen_isPrefix_stem hchosen hleader ht
  rw [hstem] at hpre
  refine ⟨hn, ?_⟩
  rw [take_eq_of_take_isPrefix hpre (hinv.chosen_length hchosen), take_eq_of_isPrefix hlog hn]

/-- What a leader of term `t` has committed is in the log of every leader of a
later term when it takes office. -/
theorem leader_completeness (hrun : AnyRun c) {i j : Fin N} {t t' n : ℕ}
    {log log' : List LogEntry} (hcommit : .advanceCommit i t n log ∈ c.trace)
    (helected : .becomeLeader j t' log' ∈ c.trace) (ht : t < t') :
    n ≤ log.length ∧ log'.take n = log.take n := by
  obtain ⟨h, hsim⟩ := hrun.exists_sim
  exact hsim.take_eq_of_elected hcommit helected ht

theorem leader_completeness_succession : ∃ c : Cluster 3, AnyRun c ∧
    .advanceCommit 0 1 2 [⟨1, []⟩, ⟨1, [7]⟩] ∈ c.trace ∧
    .becomeLeader 1 2 [⟨1, []⟩, ⟨1, [7]⟩] ∈ c.trace ∧
    2 ≤ [(⟨1, []⟩ : LogEntry), ⟨1, [7]⟩].length ∧
      [(⟨1, []⟩ : LogEntry), ⟨1, [7]⟩].take 2 = [(⟨1, []⟩ : LogEntry), ⟨1, [7]⟩].take 2 := by
  obtain ⟨c, hrun, htrace, -⟩ := exists_succession
  have hcommit : .advanceCommit 0 1 2 [⟨1, []⟩, ⟨1, [7]⟩] ∈ c.trace := by simp [htrace]
  have helected : .becomeLeader 1 2 [⟨1, []⟩, ⟨1, [7]⟩] ∈ c.trace := by simp [htrace]
  exact ⟨c, hrun, hcommit, helected, leader_completeness hrun hcommit helected (by decide)⟩

/-- Two elections in one term are one and the same. -/
theorem election_safety (hrun : AnyRun c) {k k' t : ℕ} {i j : Fin N} {log log' : List LogEntry}
    (hk : c.trace[k]? = some (.becomeLeader i t log))
    (hk' : c.trace[k']? = some (.becomeLeader j t log')) : k = k' ∧ i = j := by
  obtain ⟨h, hsim⟩ := hrun.exists_sim
  have hpos := index_eq_of_elections_nodup hsim.trace.once hk hk'
  subst hpos
  rw [hk] at hk'
  exact ⟨rfl, (Event.becomeLeader.inj (Option.some.inj hk')).1⟩

theorem election_safety_succession : ∃ c : Cluster 3, AnyRun c ∧
    c.trace[0]? = some (.becomeLeader 0 1 []) ∧
    c.trace[4]? = some (.becomeLeader 1 2 [⟨1, []⟩, ⟨1, [7]⟩]) ∧
    (∀ k j log, c.trace[k]? = some (.becomeLeader j 1 log) → 0 = k ∧ 0 = j) ∧
    ∀ k j log, c.trace[k]? = some (.becomeLeader j 2 log) → 4 = k ∧ 1 = j := by
  obtain ⟨c, hrun, htrace, -⟩ := exists_succession
  have hfirst : c.trace[0]? = some (.becomeLeader 0 1 []) := by simp [htrace]
  have hsecond : c.trace[4]? = some (.becomeLeader 1 2 [⟨1, []⟩, ⟨1, [7]⟩]) := by simp [htrace]
  exact ⟨c, hrun, hfirst, hsecond, fun _ _ _ hk ↦ election_safety hrun hfirst hk,
    fun _ _ _ hk ↦ election_safety hrun hsecond hk⟩

/-- Equal terms at one index mean equal logs up to that index, terms never
decrease along a log, and none exceeds the node's current term. -/
theorem log_matching (hrun : AnyRun c) {i j : Fin N} {l l' : List LogEntry}
    (hl : l ∈ c.logs i) (hl' : l' ∈ c.logs j) :
    (∀ {k : ℕ} {e e' : LogEntry}, l[k]? = some e → l'[k]? = some e' → e.term = e'.term →
        l.take (k + 1) = l'.take (k + 1)) ∧
      (l.map LogEntry.term).Pairwise (· ≤ ·) ∧
      ∀ e ∈ l, e.term ≤ (c.raft i).currentTerm := by
  obtain ⟨h, hsim⟩ := hrun.exists_sim
  have hinv := Invariant.of_reachable hsim.reach
  rw [hsim.eq_log hl, hsim.eq_log hl']
  refine ⟨?_, ?_, ?_⟩
  · intro k e e' he he' hterm
    exact (hinv.log.log_sound i).agree (hinv.log.log_sound j) he he' hterm
  · rw [List.pairwise_map, List.pairwise_iff_getElem]
    intro k k' hk hk' hlt
    exact hinv.log.term_mono hinv.election (hinv.log.log_sound i) hlt.le
      (List.getElem?_eq_getElem hk) (List.getElem?_eq_getElem hk')
  · intro e he
    rw [(hsim.tracks i).term]
    exact hinv.log.log_le he

/-- The logs of the two leaders agree as far as the first one's commit and part
ways after it. -/
theorem log_matching_succession : ∃ c : Cluster 3, AnyRun c ∧
    (∀ {k : ℕ} {e e' : LogEntry}, [⟨1, []⟩, ⟨1, [7]⟩, ⟨1, [8]⟩][k]? = some e →
      [⟨1, []⟩, ⟨1, [7]⟩, ⟨2, []⟩][k]? = some e' → e.term = e'.term →
        [(⟨1, []⟩ : LogEntry), ⟨1, [7]⟩, ⟨1, [8]⟩].take (k + 1) =
          [(⟨1, []⟩ : LogEntry), ⟨1, [7]⟩, ⟨2, []⟩].take (k + 1)) ∧
      ([(⟨1, []⟩ : LogEntry), ⟨1, [7]⟩, ⟨1, [8]⟩].map LogEntry.term).Pairwise (· ≤ ·) ∧
      ∀ e ∈ [(⟨1, []⟩ : LogEntry), ⟨1, [7]⟩, ⟨1, [8]⟩], e.term ≤ (c.raft 0).currentTerm := by
  obtain ⟨c, hrun, -, hmemory, hdisk⟩ := exists_succession
  have hl : [⟨1, []⟩, ⟨1, [7]⟩, ⟨1, [8]⟩] ∈ c.logs 0 := by simp [Cluster.logs, hmemory]
  have hl' : [⟨1, []⟩, ⟨1, [7]⟩, ⟨2, []⟩] ∈ c.logs 1 := by simp [Cluster.logs, hdisk]
  exact ⟨c, hrun, log_matching hrun hl hl'⟩

end Dkvs
