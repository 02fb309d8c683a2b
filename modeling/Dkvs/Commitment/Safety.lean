import Dkvs.Moves
import Dkvs.Safety
import Dkvs.Commitment.Step

/-!
# Safety of the state machine

Results for the runs in which no request overtakes its receiver: replicas apply
the same commands, an answer to a client is never false, and what a node has
committed is never touched again.
-/

namespace Dkvs

open ReplicatedLog

variable {N : ℕ} {c c' : Cluster N} {i : Fin N}

/-- The node that an action restarts. -/
def Cluster.restarted (c : Cluster N) : Action N → Option (Fin N)
  | .crash i => some i
  | .crashDuring a _ => (c.operation a).map Prod.fst
  | _ => none

/-- The state `c'` is reached from `c` by actions that satisfy `ok`. -/
inductive Continues (ok : Cluster N → Action N → Prop) (c : Cluster N) : Cluster N → Prop
  | refl : Continues ok c c
  | step {c₁ c₂ : Cluster N} {a : Action N} (h : Continues ok c c₁) (hok : ok c₁ a)
      (hs : c₁.step a = some c₂) (hb : c₂.TermsBounded) : Continues ok c c₂

theorem Run.continues {ok : Cluster N → Action N → Prop} (hrun : Run ok c)
    (hc : Continues ok c c') : Run ok c' := by
  induction hc with
  | refl => exact hrun
  | step _ hok hs hb ih => exact .step ih hok hs hb

theorem Continues.play {ok : Cluster N → Action N → Prop} [∀ c a, Decidable (ok c a)]
    {actions : List (Action N)} (hplay : c.play ok actions = some c') : Continues ok c c' :=
  Cluster.play_induction .step .refl hplay

theorem Run.anyRun {ok : Cluster N → Action N → Prop} (hrun : Run ok c) : AnyRun c := by
  induction hrun with
  | initial hpos hsize => exact .initial hpos hsize
  | step _ _ hs hb ih => exact .step ih trivial hs hb

theorem Continues.anyRun {ok : Cluster N → Action N → Prop} (hrun : AnyRun c)
    (hc : Continues ok c c') : AnyRun c' := by
  induction hc with
  | refl => exact hrun
  | step _ _ hs hb ih => exact .step ih trivial hs hb

/-- A property of a cluster and its history that every step keeps is kept by the
continuations of a run. -/
theorem Continues.exists_sim_of_step {ok : Cluster N → Action N → Prop} {h : History N}
    {P : Cluster N → History N → Prop}
    (hstep : ∀ {c c' : Cluster N} {h h' : History N} {a : Action N} {x : Fin N}, Run ok c →
      Sim c h → P c h → c.step a = some c' → Sim c' h' → NodeSteps x h h' → P c' h')
    (hrun : Run ok c) (hsim : Sim c h) (hp : P c h) (hc : Continues ok c c') :
    ∃ h', Sim c' h' ∧ P c' h' := by
  induction hc with
  | refl => exact ⟨h, hsim, hp⟩
  | step hc _ hs _ ih =>
      obtain ⟨h₁, hsim₁, hp₁⟩ := ih
      have hrun₁ := hrun.continues hc
      obtain ⟨h₂, hsim₂, x, hsteps⟩ := hsim₁.step hrun₁.size hrun₁.termsBounded hs
      exact ⟨h₂, hsim₂, hstep hrun₁ hsim₁ hp₁ hs hsim₂ hsteps⟩

namespace Cluster

/-- Nothing is ever removed from the trace. -/
theorem trace_subset_step {a : Action N} (hs : c.step a = some c') : c.trace ⊆ c'.trace := by
  obtain ⟨y, events, hm⟩ := exists_moves hs
  rw [hm.trace]
  exact List.subset_append_left _ _

theorem commit_le_setProcess (c : Cluster N) (y : Fin N) (p : Process N)
    (hle : (c.raft y).commitIndex ≤ p.raft.commitIndex) (i : Fin N) :
    (c.raft i).commitIndex ≤ ((c.setProcess y p).raft i).commitIndex := by
  by_cases hi : i = y
  · subst hi
    rwa [raft, raft, setProcess_self]
  · rw [raft, raft, setProcess_of_ne c hi]

theorem commit_le_submitStep (c : Cluster N) (y : Fin N) (command : Bytes) (i : Fin N) :
    (c.raft i).commitIndex ≤ ((c.submitStep y command).raft i).commitIndex := by
  obtain ⟨new, -, heq⟩ := CommitSim.submitStep_eq c y command
  rw [heq]
  exact c.commit_le_setProcess y _ (Raises.submit _ command).commit_le i

end Cluster

/-- Only a restart lowers a commit index. -/
theorem CommitSim.commit_le_step {h h' : History N} {x : Fin N} (hcom : CommitSim c h)
    (hsim : Sim c h) (hsim' : Sim c' h') (hsteps : NodeSteps x h h') {a : Action N}
    (hs : c.step a = some c') (hkeep : c.restarted a ≠ some i) :
    (c.raft i).commitIndex ≤ (c'.raft i).commitIndex := by
  have hlast := hcom.commit_le_last hsim hsim' hsteps
  cases Cluster.outcome hs with
  | timeout y => exact c.commit_le_setProcess y _ (Raises.startElection _).commit_le i
  | submit y command => exact c.commit_le_submitStep y command i
  | execute y cmd =>
      have hle := c.commit_le_submitStep y cmd.encode i
      unfold Cluster.executeStep
      dsimp only
      split_ifs with hleader
      · refine hle.trans ((c.submitStep y cmd.encode).commit_le_setProcess y _ ?_ i)
        exact le_rfl
      · exact hle
  | @deliverVote k q _ =>
      exact c.commit_le_setProcess q.dst _ (Raises.onRequestVote _ q.args).commit_le i
  | @deliverAppend k q _ =>
      refine c.commit_le_setProcess q.dst _ ?_ i
      have hlog : (c.raft q.dst).log ≠ [] := by simp [(hsim.tracks q.dst).log]
      have hdst : (c.deliverAppendStep k q).raft q.dst =
          { ((c.raft q.dst).onAppendEntries q.args).1 with effects := [] } := by
        simp [Cluster.raft, Cluster.deliverAppendStep, Cluster.consume, Cluster.settle_self]
      have hbound := hlast q.dst
      rw [hdst] at hbound
      -- the new commit index may fall short of the request's, but not of the log
      obtain ⟨-, hsame | ⟨-, -, -, hlt, -, hmin, -⟩⟩ :=
        RaftNode.onAppendEntries_commit hlog q.args
      · exact hsame.ge
      · show _ ≤ ((c.raft q.dst).onAppendEntries q.args).1.commitIndex
        rw [hmin]
        exact le_min hlt.le hbound
  | @voteReply y k j q reply _ _ =>
      have hdrop := c.commit_le_setProcess y
        { c.processes y with voteSenders := (c.processes y).voteSenders.eraseIdx k } le_rfl i
      refine hdrop.trans ((c.dropVoteSender y k).commit_le_setProcess y _ ?_ i)
      simpa [Cluster.raft, Cluster.dropVoteSender, Cluster.updateProcess] using
        (Raises.onVoteReply (c.raft y) q.args reply).commit_le
  | @appendReply y k j r q reply _ _ _ =>
      have hle := (Raises.onAppendReply (c.raft y) r.peer r.leaderTerm q.args reply).commit_le
      unfold Cluster.appendReplyStep
      dsimp only
      split_ifs with hgoes
      · refine (c.commit_le_setProcess y _ ?_ i).trans
          ((c.setReplicator y k { r with waiting := none }).commit_le_setProcess y _ ?_ i)
        · exact le_rfl
        · simpa [Cluster.raft, Cluster.setReplicator, Cluster.updateProcess] using hle
      · refine (c.commit_le_setProcess y _ ?_ i).trans
          ((c.dropReplicator y k).commit_le_setProcess y _ ?_ i)
        · exact le_rfl
        · simpa [Cluster.raft, Cluster.dropReplicator, Cluster.updateProcess] using hle
  | appendFailed y k r =>
      unfold Cluster.appendFailedStep
      split_ifs with hretired
      · refine c.commit_le_setProcess y _ ?_ i
        exact le_rfl
      · refine c.commit_le_setProcess y _ ?_ i
        exact le_rfl
  | crash y =>
      have hne : i ≠ y := fun hi ↦ hkeep (by rw [hi]; rfl)
      simp [Cluster.raft, Cluster.restart, Cluster.record, hne]
  | @crashDuring a y n m hop =>
      have hne : i ≠ y := fun hi ↦ hkeep (by simp [Cluster.restarted, hop, hi])
      cases a with
      | _ => simp [Cluster.raft, Cluster.consume, Cluster.restart, Cluster.record, hne]
  | _ =>
      refine c.commit_le_setProcess _ _ ?_ i
      exact le_rfl

/-! ## The results -/

theorem Continues.trace_subset {ok : Cluster N → Action N → Prop} (hc : Continues ok c c') :
    c.trace ⊆ c'.trace := by
  induction hc with
  | refl => exact List.Subset.refl _
  | step _ _ hs _ ih => exact List.Subset.trans ih (Cluster.trace_subset_step hs)

/-- Two nodes elect one of them, commit a command, apply it and answer the
client. -/
theorem exists_pair_run : ∃ c : Cluster 2, Run Vouched c ∧
    .applied 0 2 1 [1, 0, 0, 0, 1, 107, 0, 0, 0, 1, 118] ∈ c.trace ∧
    .applied 1 2 1 [1, 0, 0, 0, 1, 107, 0, 0, 0, 1, 118] ∈ c.trace ∧
    .answered 0 ⟨2, 1, .set, [107], [118]⟩ .ok ∈ c.trace ∧
    (c.raft 0).lastApplied = 2 ∧ (c.raft 1).lastApplied = 2 ∧ (c.raft 1).commitIndex = 2 := by
  exact exists_run_of_play (by decide) (by decide)
    [.timeout 0, .deliverVote 0, .voteReply 0 0 0, .execute 0 ⟨.set, [107], [118]⟩, .send 0 0,
      .deliverAppend 0, .appendReply 0 0 0, .fetch 0, .apply 0, .fetch 0, .apply 0, .send 0 0,
      .deliverAppend 0, .fetch 1, .apply 1, .fetch 1, .apply 1, .resume 0 0] (by decide +kernel)

/-- A leader is deposed before it replicates a command; the next leader commits
another one in its place. -/
theorem exists_deposed_run : ∃ c : Cluster 3, Run Vouched c ∧
    .answered 0 ⟨2, 1, .set, [107], [118]⟩ .lostLeadership ∈ c.trace ∧
    .advanceCommit 1 2 2 [⟨2, []⟩, ⟨2, [7]⟩] ∈ c.trace := by
  exact exists_run_of_play (by decide) (by decide)
    [.timeout 0, .deliverVote 0, .voteReply 0 0 0, .execute 0 ⟨.set, [107], [118]⟩,
      .timeout 1, .deliverVote 2, .voteReply 1 1 0, .submit 1 [7], .send 1 1, .deliverAppend 0,
      .appendReply 1 1 0, .send 1 0, .deliverAppend 0, .fetch 0, .apply 0, .fetch 0, .apply 0,
      .resume 0 0] (by decide +kernel)

/-- Replicas that apply an index apply the same entry there, and replicas that
are equally far hold the same data. -/
theorem state_machine_safety (hrun : Run Vouched c) :
    (∀ {x y : Fin N} {idx t t' : ℕ} {command command' : Bytes},
      .applied x idx t command ∈ c.trace → .applied y idx t' command' ∈ c.trace →
        t = t' ∧ command = command') ∧
      ∀ {x y : Fin N}, (c.raft x).lastApplied = (c.raft y).lastApplied →
        (c.processes x).store = (c.processes y).store := by
  obtain ⟨h, hsim, hcom⟩ := hrun.exists_commitSim
  refine ⟨fun {x y idx t t' command command'} hx hy ↦ ?_, fun {x y} happlied ↦ ?_⟩
  · have hentry := Committed.unique (hcom.events _ hx) (hcom.events _ hy) hsim
    simpa using hentry
  · have hx := hcom.nodes x
    have hy := hcom.nodes y
    have hlenx := RaftNode.length_committed hx.commit_le
    have hleny := RaftNode.length_committed hy.commit_le
    have hlex := hx.applied_le
    have hley := hy.applied_le
    have hequal : (c.processes x).raft.lastApplied = (c.processes y).raft.lastApplied := happlied
    rw [hx.store, hy.store, hequal]
    -- both replayed the same part of two comparable committed logs
    rcases hx.certified.comparable hy.certified hsim with hle | hle
    · rw [take_eq_of_isPrefix hle (by omega)]
    · rw [take_eq_of_isPrefix hle (by omega)]

theorem state_machine_safety_pair : ∃ c : Cluster 2, Run Vouched c ∧
    .applied 0 2 1 [1, 0, 0, 0, 1, 107, 0, 0, 0, 1, 118] ∈ c.trace ∧
    .applied 1 2 1 [1, 0, 0, 0, 1, 107, 0, 0, 0, 1, 118] ∈ c.trace ∧
    (1 = 1 ∧ ([1, 0, 0, 0, 1, 107, 0, 0, 0, 1, 118] : Bytes) =
      [1, 0, 0, 0, 1, 107, 0, 0, 0, 1, 118]) ∧
    (c.raft 0).lastApplied = 2 ∧ (c.raft 1).lastApplied = 2 ∧
    (c.processes 0).store = (c.processes 1).store := by
  obtain ⟨c, hrun, hzero, hone, -, hleft, hright, -⟩ := exists_pair_run
  obtain ⟨hsame, hstores⟩ := state_machine_safety hrun
  exact ⟨c, hrun, hzero, hone, hsame hzero hone, hleft, hright, hstores (hleft.trans hright.symm)⟩

/-- A client that is told of success has its command committed for good; one that
is told of lost leadership will never have it committed. -/
theorem acknowledgement_sound (hrun : Run Vouched c) {x : Fin N} {handler : Handler}
    {response : Response} (hmem : .answered x handler response ∈ c.trace) :
    (response.isSuccess = true → ∃ y t m log, .advanceCommit y t m log ∈ c.trace ∧
        0 < handler.index ∧ handler.index ≤ m ∧
        log[handler.index - 1]? = some ⟨handler.term, handler.cmd.encode⟩ ∧
        ∀ {c' : Cluster N}, Continues (fun _ _ ↦ True) c c' → ∀ {z : Fin N} {t' : ℕ} {log'},
          .becomeLeader z t' log' ∈ c'.trace → t < t' →
            log'[handler.index - 1]? = some ⟨handler.term, handler.cmd.encode⟩) ∧
      (response = .lostLeadership → ∀ {c' : Cluster N}, Continues (fun _ _ ↦ True) c c' →
        ∀ {y : Fin N} {t m : ℕ} {log : List LogEntry}, .advanceCommit y t m log ∈ c'.trace →
          handler.index ≤ m →
            log[handler.index - 1]? ≠ some ⟨handler.term, handler.cmd.encode⟩) := by
  obtain ⟨h, hsim, hcom⟩ := hrun.exists_commitSim
  obtain ⟨hsuccess, hlost⟩ := hcom.events _ hmem
  refine ⟨fun hok ↦ ?_, fun hresponse {c'} hc {y t m log} hadvance hm hget ↦ ?_⟩
  · obtain ⟨hpos, y, t, m, log, hadvance, hm, hget⟩ := hsuccess hok
    refine ⟨y, t, m, log, hadvance, hpos, hm, hget, fun {c'} hc {z t' log'} hleader hlt ↦ ?_⟩
    obtain ⟨h', hsim'⟩ := (hc.anyRun hrun.anyRun).exists_sim
    obtain ⟨-, htake⟩ := hsim'.take_eq_of_elected (hc.trace_subset hadvance) hleader hlt
    have hin : handler.index - 1 < m := by omega
    rw [← List.getElem?_take_of_lt hin, htake, List.getElem?_take_of_lt hin]
    exact hget
  · obtain ⟨e, hcommitted, hne⟩ := hlost hresponse
    obtain ⟨h', hsim'⟩ := (hc.anyRun hrun.anyRun).exists_sim
    have hother : Committed c'.trace handler.index ⟨handler.term, handler.cmd.encode⟩ :=
      ⟨hcommitted.1, y, t, m, log, hadvance, hm, hget⟩
    have heq := hother.unique (hcommitted.mono hc.trace_subset) hsim'
    exact hne (by rw [← heq])

theorem acknowledgement_sound_runs :
    (∃ c : Cluster 2, Run Vouched c ∧
      .answered 0 ⟨2, 1, .set, [107], [118]⟩ .ok ∈ c.trace ∧
      ∃ y t m log, .advanceCommit y t m log ∈ c.trace ∧ 2 ≤ m ∧
        log[1]? = some ⟨1, [1, 0, 0, 0, 1, 107, 0, 0, 0, 1, 118]⟩) ∧
    ∃ c : Cluster 3, Run Vouched c ∧
      .answered 0 ⟨2, 1, .set, [107], [118]⟩ .lostLeadership ∈ c.trace ∧
      .advanceCommit 1 2 2 [⟨2, []⟩, ⟨2, [7]⟩] ∈ c.trace ∧
      [(⟨2, []⟩ : LogEntry), ⟨2, [7]⟩][1]? ≠
        some ⟨1, [1, 0, 0, 0, 1, 107, 0, 0, 0, 1, 118]⟩ := by
  constructor
  · obtain ⟨c, hrun, -, -, hmem, -⟩ := exists_pair_run
    obtain ⟨y, t, m, log, hadvance, -, hm, hget, -⟩ := (acknowledgement_sound hrun hmem).1 rfl
    exact ⟨c, hrun, hmem, y, t, m, log, hadvance, hm, hget⟩
  · obtain ⟨c, hrun, hmem, hadvance⟩ := exists_deposed_run
    exact ⟨c, hrun, hmem, hadvance,
      (acknowledgement_sound hrun hmem).2 rfl .refl hadvance le_rfl⟩

/-- The applier, the commit index and the end of the log are in order; only a
restart lowers a commit index, and not even that touches an entry below it. -/
theorem committed_immutable (hrun : Run Vouched c) :
    (∀ i, (c.raft i).lastApplied ≤ (c.raft i).commitIndex ∧
        (c.raft i).commitIndex ≤ (c.raft i).lastLogIndex) ∧
      (∀ i, (c.raft i).lastApplied < (c.raft i).commitIndex →
        (c.raft i).lastApplied + 1 < (c.raft i).log.length) ∧
      ∀ {a : Action N} {c' : Cluster N}, c.step a = some c' → ∀ i,
        (c.restarted a ≠ some i → (c.raft i).commitIndex ≤ (c'.raft i).commitIndex) ∧
          ∀ k ≤ (c.raft i).commitIndex, (c'.raft i).log[k]? = (c.raft i).log[k]? := by
  obtain ⟨h, hsim, hcom⟩ := hrun.exists_commitSim
  have hrange : ∀ i, (c.raft i).lastApplied ≤ (c.raft i).commitIndex ∧
      (c.raft i).commitIndex ≤ (c.raft i).lastLogIndex := fun i ↦
    ⟨(hcom.nodes i).applied_le, (hcom.nodes i).commit_le⟩
  refine ⟨hrange, fun i hlt ↦ ?_, fun {a c'} hs i ↦ ?_⟩
  · have hle := (hrange i).2
    rw [RaftNode.lastLogIndex] at hle
    omega
  · obtain ⟨h', hsim', x, hsteps⟩ := hsim.step hrun.size hrun.termsBounded hs
    refine ⟨hcom.commit_le_step hsim hsim' hsteps hs, fun k hk ↦ ?_⟩
    cases k with
    | zero => rw [(hsim.tracks i).log, (hsim'.tracks i).log]; rfl
    | succ k =>
        have hle := (hrange i).2
        rw [RaftNode.lastLogIndex, ← List.length_tail] at hle
        have htake := take_eq_of_take_isPrefix (hcom.kept hsim hsim' hsteps i) hle
        rw [← List.getElem?_tail, ← List.getElem?_tail]
        exact getElem?_eq_of_take_eq htake hk

theorem committed_immutable_pair : ∃ c c' : Cluster 2, Run Vouched c ∧
    c.step (.crash 1) = some c' ∧ (c.raft 1).commitIndex = 2 ∧
    2 ≤ (c.raft 1).lastLogIndex ∧ (c.raft 0).commitIndex ≤ (c'.raft 0).commitIndex ∧
    (c'.raft 1).log[2]? = (c.raft 1).log[2]? := by
  obtain ⟨c, hrun, -, -, -, -, -, hcommit⟩ := exists_pair_run
  have hs : c.step (.crash 1) = some (c.restart 1 []) := rfl
  obtain ⟨hrange, -, hstep⟩ := committed_immutable hrun
  refine ⟨c, c.restart 1 [], hrun, hs, hcommit, hcommit.ge.trans (hrange 1).2, ?_, ?_⟩
  · exact (hstep hs 0).1 (by simp [Cluster.restarted])
  · exact (hstep hs 1).2 2 hcommit.ge

end Dkvs
