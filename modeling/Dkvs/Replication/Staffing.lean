import Dkvs.Terms

/-!
# The replicators of a leader

A leader starts one replicator for each peer, and as long as it leads and runs, none of them
ends. Between two calls a replicator is idle; what a step does to a single one of them is
listed here.
-/

namespace Dkvs

open ReplicatedLog

variable {N : ℕ} {c c' : Cluster N} {h h' : History N} {i x y : Fin N} {n : RaftNode}
  {a : Action N} {r r' : Replicator N}

theorem mem_eraseIdx_or {α : Type} {l : List α} {e : α} (he : e ∈ l) (k : ℕ) :
    e ∈ l.eraseIdx k ∨ l[k]? = some e := by
  obtain ⟨m, hm⟩ := List.mem_iff_getElem?.mp he
  by_cases hk : m = k
  · exact Or.inr (hk ▸ hm)
  · exact Or.inl (List.mem_eraseIdx_iff_getElem?.mpr ⟨m, hk, hm⟩)

/-- The replicators that an action starts on node `x`. -/
def Cluster.spawns (c : Cluster N) (a : Action N) (x : Fin N) : List (Replicator N) :=
  match c.operation a with
  | some (i, n) => if i = x then n.effects.filterMap Cluster.replicatorOf else []
  | none => []

theorem Cluster.spawns_self (hop : c.operation a = some (x, n)) :
    c.spawns a x = n.effects.filterMap Cluster.replicatorOf := by
  simp [spawns, hop]

theorem Cluster.spawns_of_ne (hop : c.operation a = some (i, n)) (hx : x ≠ i) :
    c.spawns a x = [] := by
  simp [spawns, hop, hx.symm]

theorem Cluster.spawns_of_none (hop : c.operation a = none) (x : Fin N) : c.spawns a x = [] := by
  simp [spawns, hop]

/-- The node whose replicator acts. -/
def Action.replicates : Action N → Option (Fin N)
  | .send i _ | .appendReply i _ _ | .appendFailed i _ => some i
  | _ => none

/-- What becomes of the replicators of node `x`. -/
inductive ThreadStep (c : Cluster N) (x : Fin N) : Action N → List (Replicator N) → Prop
  | keep {a : Action N} (ha : a.replicates ≠ some x) :
      ThreadStep c x a ((c.processes x).replicators ++ c.spawns a x)
  | send {k : ℕ} {r : Replicator N} {args : AppendEntriesArgs} (hsends : Sends c x k r args) :
      ThreadStep c x (.send x k) ((c.processes x).replicators.set k
        { r with waiting := some ⟨c.nextCall, x, r.peer, args⟩ })
  /-- A thread whose term of office is over ends. -/
  | retire {a : Action N} {k : ℕ} {r : Replicator N}
      (ha : a = .send x k ∨ (∃ j, a = .appendReply x k j) ∨ a = .appendFailed x k)
      (hr : (c.processes x).replicators[k]? = some r)
      (hretired : (c.raft x).replicatorRetired r.leaderTerm) :
      ThreadStep c x a ((c.processes x).replicators.eraseIdx k)
  | reply {k j : ℕ} {r : Replicator N} {q : AppendCall N} {reply : AppendEntriesReply}
      (hr : (c.processes x).replicators[k]? = some r) (hq : r.waiting = some q)
      (hreply : c.appendReplyTo q j = some reply)
      (hactive : ¬ (c.raft x).replicatorRetired r.leaderTerm) :
      ThreadStep c x (.appendReply x k j)
        ((c.processes x).replicators.set k { r with waiting := none })
  /-- A thread that meets a later term ends. -/
  | depose {k j : ℕ} {r : Replicator N} {q : AppendCall N} {reply : AppendEntriesReply}
      (hr : (c.processes x).replicators[k]? = some r) (hq : r.waiting = some q)
      (hreply : c.appendReplyTo q j = some reply)
      (hactive : ¬ (c.raft x).replicatorRetired r.leaderTerm)
      (hlater : (c.raft x).currentTerm < reply.term) :
      ThreadStep c x (.appendReply x k j) ((c.processes x).replicators.eraseIdx k)
  | failed {k : ℕ} {r : Replicator N} (hr : (c.processes x).replicators[k]? = some r) :
      ThreadStep c x (.appendFailed x k)
        ((c.processes x).replicators.set k { r with waiting := none })

namespace ThreadStep

theorem rest (ha : a.replicates ≠ some x) (hspawns : c.spawns a x = []) :
    ThreadStep c x a (c.processes x).replicators := by
  have hkeep := keep (c := c) ha
  rwa [hspawns, List.append_nil] at hkeep

theorem setProcess {p : Process N} (ha : a.replicates = none ∨ a.replicates = some i)
    (hop : c.operation a = none) (hself : x = i → ThreadStep c i a p.replicators) :
    ThreadStep c x a ((c.setProcess i p).processes x).replicators := by
  by_cases hx : x = i
  · subst hx
    rw [Cluster.setProcess_self]
    exact hself rfl
  · rw [Cluster.setProcess_of_ne c hx]
    refine rest ?_ (Cluster.spawns_of_none hop x)
    rcases ha with ha | ha
    · simp [ha]
    · simpa [ha] using Ne.symm hx

theorem settle (ha : a.replicates = none) (hop : c.operation a = some (i, n)) (x : Fin N) :
    ThreadStep c x a ((c.settle i n).processes x).replicators := by
  have hkeep : a.replicates ≠ some x := by simp [ha]
  by_cases hx : x = i
  · subst hx
    rw [Cluster.settle_self, ← Cluster.spawns_self hop]
    exact keep hkeep
  · rw [Cluster.settle_of_ne c hx]
    exact rest hkeep (Cluster.spawns_of_ne hop hx)

end ThreadStep

/-- A replicator that is scheduled ends or sends. -/
theorem Cluster.send_thread {k : ℕ} (hs : c.step (.send i k) = some c') :
    (∃ r, (c.processes i).replicators[k]? = some r ∧
        (c.raft i).replicatorRetired r.leaderTerm ∧ c' = c.dropReplicator i k) ∨
      ∃ r args, Sends c i k r args ∧ c'.processes =
        (c.setReplicator i k
          { r with waiting := some ⟨c.nextCall, i, r.peer, args⟩ }).processes := by
  simp only [Cluster.step, Option.bind_eq_bind, Option.bind_eq_some_iff,
    Option.ite_none_left_eq_some] at hs
  obtain ⟨r, hr, hidle, hsend⟩ := hs
  rw [Cluster.sendStep] at hsend
  split_ifs at hsend with hretired
  · exact Or.inl ⟨r, hr, hretired, (Option.some.inj hsend).symm⟩
  · simp only [Option.bind_eq_bind, Option.bind_eq_some_iff, Option.some.injEq] at hsend
    obtain ⟨args, hargs, rfl⟩ := hsend
    exact Or.inr ⟨r, args, ⟨hr, by simpa using hidle, hretired, hargs⟩, rfl⟩

theorem ThreadStep.sendStep {k : ℕ} (hs : c.step (.send i k) = some c') (x : Fin N) :
    ThreadStep c x (.send i k) (c'.processes x).replicators := by
  rcases Cluster.send_thread hs with ⟨r, hr, hretired, rfl⟩ | ⟨r, args, hsends, heq⟩
  · exact .setProcess (Or.inr rfl) rfl fun _ ↦ .retire (Or.inl rfl) hr hretired
  · rw [heq]
    exact .setProcess (Or.inr rfl) rfl fun _ ↦ .send hsends

/-- A replicator that has its reply starts no thread. -/
theorem RaftNode.onAppendReply_spawns (hidle : n.effects = []) (peer leaderTerm : ℕ)
    (args : AppendEntriesArgs) (reply : AppendEntriesReply) :
    (n.onAppendReply peer leaderTerm args reply).1.effects.filterMap
      (Cluster.replicatorOf (N := N)) = [] := by
  rcases n.onAppendReply_frame peer leaderTerm args reply with hnode |
    ⟨hlater, hnode⟩ | ⟨-, -, ⟨-, commit, es, hquiet, hframe⟩ | ⟨-, hframe⟩⟩
  · rw [hnode, hidle]
    rfl
  · obtain ⟨es, hquiet, hframe⟩ := RaftNode.becomeFollower_later hlater
    rw [hnode, hframe, hidle]
    exact replicators_of_quiet hquiet
  · rw [hframe, hidle]
    exact replicators_of_quiet hquiet
  · rw [hframe]
    show n.effects.filterMap _ = []
    rw [hidle]
    rfl

theorem ThreadStep.appendReply (hsim : Sim c h) {k j : ℕ} {q : AppendCall N}
    {reply : AppendEntriesReply} (hr : (c.processes i).replicators[k]? = some r)
    (hq : r.waiting = some q) (hreply : c.appendReplyTo q j = some reply) (x : Fin N) :
    ThreadStep c x (.appendReply i k j)
      ((c.appendReplyStep i k j r q reply).processes x).replicators := by
  have hspawns := RaftNode.onAppendReply_spawns (N := N) (hsim.nodes i).idle r.peer r.leaderTerm
    q.args reply
  by_cases hx : x = i
  · subst hx
    by_cases hretired : (c.raft x).replicatorRetired r.leaderTerm
    · have hends : ((c.raft x).onAppendReply r.peer r.leaderTerm q.args reply).2 = false := by
        rw [RaftNode.onAppendReply, if_pos hretired]
      have hlist : ((c.appendReplyStep x k j r q reply).processes x).replicators =
          (c.processes x).replicators.eraseIdx k := by
        simp [Cluster.appendReplyStep, hends, Cluster.settle_self, Cluster.dropReplicator,
          Cluster.updateProcess, hspawns]
      rw [hlist]
      exact .retire (Or.inr (Or.inl ⟨j, rfl⟩)) hr hretired
    · by_cases hlater : (c.raft x).currentTerm < reply.term
      · have hends : ((c.raft x).onAppendReply r.peer r.leaderTerm q.args reply).2 = false := by
          rw [RaftNode.onAppendReply, if_neg hretired, if_pos hlater]
        have hlist : ((c.appendReplyStep x k j r q reply).processes x).replicators =
            (c.processes x).replicators.eraseIdx k := by
          simp [Cluster.appendReplyStep, hends, Cluster.settle_self, Cluster.dropReplicator,
            Cluster.updateProcess, hspawns]
        rw [hlist]
        exact .depose hr hq hreply hretired hlater
      · have hgoes : ((c.raft x).onAppendReply r.peer r.leaderTerm q.args reply).2 = true := by
          rw [RaftNode.onAppendReply, if_neg hretired, if_neg hlater]
          split_ifs with hterm hsuccess
          · rfl
          · rfl
          · rfl
        have hlist : ((c.appendReplyStep x k j r q reply).processes x).replicators =
            (c.processes x).replicators.set k { r with waiting := none } := by
          simp [Cluster.appendReplyStep, hgoes, Cluster.settle_self, Cluster.setReplicator,
            Cluster.updateProcess, hspawns]
        rw [hlist]
        exact .reply hr hq hreply hretired
  · have hlist : ((c.appendReplyStep i k j r q reply).processes x).replicators =
        (c.processes x).replicators := by
      unfold Cluster.appendReplyStep
      dsimp only
      split_ifs with hgoes
      · simp [Cluster.settle_of_ne _ hx, Cluster.setReplicator, Cluster.updateProcess, hx]
      · simp [Cluster.settle_of_ne _ hx, Cluster.dropReplicator, Cluster.updateProcess, hx]
    have hop : c.operation (.appendReply i k j) =
        some (i, ((c.raft i).onAppendReply r.peer r.leaderTerm q.args reply).1) := by
      simp [Cluster.operation, hr, hq, hreply]
    rw [hlist]
    exact .rest (by simpa [Action.replicates] using Ne.symm hx) (Cluster.spawns_of_ne hop hx)

/-- The replicators of a process that an action does not restart. -/
theorem Sim.threadStep (hsim : Sim c h) (hs : c.step a = some c')
    (hkeep : c.restarted a ≠ some x) : ThreadStep c x a (c'.processes x).replicators := by
  have hsubmit : ∀ (i : Fin N) (command : Bytes), (c.submitStep i command).processes =
      (c.settle i ((c.raft i).submit command).1).processes := by
    intro i command
    obtain ⟨-, -, -, hprocesses, -⟩ := Moves.submitStep c i command
    exact hprocesses
  cases Cluster.outcome hs with
  | timeout i =>
      obtain ⟨⟨y, n⟩, hop, heq⟩ := Option.map_eq_some_iff.mp hs
      rw [← heq]
      exact .settle rfl hop x
  | submit i command =>
      rw [hsubmit]
      exact .settle rfl rfl x
  | execute i cmd =>
      have hstep : ThreadStep c x (.execute i cmd)
          ((c.submitStep i cmd.encode).processes x).replicators := by
        rw [hsubmit]
        exact .settle rfl rfl x
      unfold Cluster.executeStep
      dsimp only
      split_ifs with hleader
      · by_cases hx : x = i
        · subst hx
          simpa [Cluster.updateProcess] using hstep
        · simpa [Cluster.updateProcess, hx] using hstep
      · exact hstep
  | @deliverVote k q hq => exact .settle rfl (by simp [Cluster.operation, hq]) x
  | @deliverAppend k q hq => exact .settle rfl (by simp [Cluster.operation, hq]) x
  | retire i k => exact .sendStep hs x
  | @send i k r args hrole hterm hargs => exact .sendStep hs x
  | @voteReply i k j q reply hq hreply =>
      have hop : c.operation (.voteReply i k j) =
          some (i, (c.raft i).onVoteReply q.args reply) := by
        simp [Cluster.operation, hq, hreply]
      by_cases hx : x = i
      · subst hx
        have hlist : ((c.voteReplyStep x k j q reply).processes x).replicators =
            (c.processes x).replicators ++ ((c.raft x).onVoteReply q.args reply).effects.filterMap
              Cluster.replicatorOf := by
          simp [Cluster.voteReplyStep, Cluster.settle_self, Cluster.dropVoteSender,
            Cluster.updateProcess]
        rw [hlist, ← Cluster.spawns_self hop]
        exact .keep (by simp [Action.replicates])
      · have hlist : ((c.voteReplyStep i k j q reply).processes x).replicators =
            (c.processes x).replicators := by
          simp [Cluster.voteReplyStep, Cluster.settle_of_ne _ hx, Cluster.dropVoteSender,
            Cluster.updateProcess, hx]
        rw [hlist]
        exact .rest (by simp [Action.replicates]) (Cluster.spawns_of_ne hop hx)
  | @appendReply i k j r q reply hr hq hreply => exact .appendReply hsim hr hq hreply x
  | appendFailed i k r =>
      obtain ⟨r, hr, heq⟩ := Cluster.appendFailed_cases hs
      rw [heq]
      unfold Cluster.appendFailedStep
      split_ifs with hretired
      · exact .setProcess (Or.inr rfl) rfl fun _ ↦ .retire (Or.inr (Or.inr rfl)) hr hretired
      · exact .setProcess (Or.inr rfl) rfl fun _ ↦ .failed hr
  | crash i =>
      exact .setProcess (Or.inl rfl) rfl fun heq ↦ absurd (by rw [heq]; rfl) hkeep
  | @crashDuring b i n m hop =>
      cases b with
      | _ =>
          exact .setProcess (Or.inl rfl) rfl fun heq ↦
            absurd (by simp [Cluster.restarted, hop, heq]) hkeep
  | _ =>
      exact .setProcess (Or.inl rfl) rfl fun _ ↦ .rest (by simp [Action.replicates])
        (Cluster.spawns_of_none rfl _)

theorem ThreadStep.spawns_subset {l : List (Replicator N)} (hstep : ThreadStep c x a l)
    (hsim : Sim c h) : c.spawns a x ⊆ l := by
  have hreply : ∀ {k j : ℕ}, c.spawns (.appendReply x k j) x = [] := by
    intro k j
    cases hop : c.operation (.appendReply x k j) with
    | none => exact Cluster.spawns_of_none hop x
    | some p =>
        obtain ⟨i, n⟩ := p
        cases Cluster.criticalSection hop with
        | @appendReply _ _ _ r q reply hr hq hreply =>
            rw [Cluster.spawns_self hop]
            exact RaftNode.onAppendReply_spawns (hsim.nodes x).idle r.peer r.leaderTerm q.args reply
  have hnone : ∀ {b : Action N} (l : List (Replicator N)), c.operation b = none →
      c.spawns b x ⊆ l := by
    intro b l hop
    simp [Cluster.spawns_of_none hop x]
  cases hstep with
  | keep _ => exact List.subset_append_right _ _
  | retire ha _ _ =>
      rcases ha with rfl | ⟨j, rfl⟩ | rfl
      · exact hnone _ rfl
      · simp [hreply]
      · exact hnone _ rfl
  | send _ => exact hnone _ rfl
  | reply _ _ _ _ => simp [hreply]
  | depose _ _ _ _ _ => simp [hreply]
  | failed _ => exact hnone _ rfl

/-! ## One replicator for each peer -/

/-- A new leader starts a replicator for every other node. -/
theorem RaftNode.becomeLeader_spawns {m : RaftNode} (hid : m.id = x) (hsize : m.clusterSize = N)
    (hy : y ≠ x) : (y, m.currentTerm) ∈
      (m.becomeLeader.effects.filterMap (Cluster.replicatorOf (N := N))).map Replicator.key := by
  obtain ⟨commit, found, es, -, hframe⟩ := m.becomeLeader_frame
  have hpeer : (y : ℕ) ∈ m.peers := by
    rw [RaftNode.peers, List.mem_filter, List.mem_range, hsize, hid]
    exact ⟨y.isLt, by simpa [Fin.val_inj] using hy⟩
  have hof : Cluster.replicatorOf (.replicator y m.currentTerm) =
      some (⟨y, m.currentTerm, none⟩ : Replicator N) := by
    simp [Cluster.replicatorOf]
  refine List.mem_map.mpr ⟨⟨y, m.currentTerm, none⟩, List.mem_filterMap.mpr ⟨_, ?_, hof⟩, rfl⟩
  rw [hframe]
  exact List.mem_append_right _ (List.mem_map_of_mem hpeer)

/-- A node that leads after an operation has led before, or it has just been elected. -/
theorem CriticalSection.office (hlog : (c.raft i).log ≠ []) (hop : CriticalSection c a i n)
    (hrole : n.role = .leader) :
    (c.raft i).role = .leader ∧ n.currentTerm = (c.raft i).currentTerm ∨
      ∃ m : RaftNode, n = m.becomeLeader ∧ m.id = (c.raft i).id ∧
        m.clusterSize = (c.raft i).clusterSize := by
  have hsubmit : ∀ command, ((c.raft i).submit command).1.role = .leader →
      (c.raft i).role = .leader ∧
        ((c.raft i).submit command).1.currentTerm = (c.raft i).currentTerm := by
    intro command hlead
    rcases (c.raft i).submit_frame command with hsame | ⟨hbefore, commit, found, es, -, hframe⟩
    · rw [hsame] at hlead ⊢
      exact ⟨hlead, rfl⟩
    · exact ⟨hbefore, by rw [hframe]⟩
  cases hop with
  | timeout _ =>
      rcases (c.raft i).startElection_cases with hwon | hasks
      · exact Or.inr ⟨_, hwon, rfl, rfl⟩
      · rw [hasks] at hrole
        simp [RaftNode.spawn, RaftNode.stand, RaftNode.emit] at hrole
  | submit _ command => exact Or.inl (hsubmit command hrole)
  | execute _ cmd => exact Or.inl (hsubmit cmd.encode hrole)
  | @deliverVote k q hq =>
      obtain ⟨vote, es, -, hframe | ⟨-, hframe⟩⟩ := (c.raft q.dst).onRequestVote_frame q.args
      · rw [hframe] at hrole ⊢
        exact Or.inl ⟨hrole, rfl⟩
      · simp [hframe] at hrole
  | @deliverAppend k q hq =>
      rcases RaftNode.onAppendEntries_frame hlog q.args with hsame |
        ⟨-, log, vote, commit, es, -, hframe⟩
      · rw [hsame] at hrole ⊢
        exact Or.inl ⟨hrole, rfl⟩
      · simp [hframe] at hrole
  | @voteReply _ k j q reply hq hreply =>
      rcases (c.raft i).onVoteReply_cases q.args reply with hnode | ⟨hlater, hnode⟩ |
        ⟨-, -, -, ⟨-, hnode⟩ | ⟨-, hnode⟩⟩
      · rw [hnode] at hrole ⊢
        exact Or.inl ⟨hrole, rfl⟩
      · simp [hnode, RaftNode.becomeFollower_of_lt hlater] at hrole
      · rw [hnode] at hrole ⊢
        exact Or.inl ⟨hrole, rfl⟩
      · exact Or.inr ⟨_, hnode, rfl, rfl⟩
  | @appendReply _ k j r q reply hr hq hreply =>
      rcases (c.raft i).onAppendReply_frame r.peer r.leaderTerm q.args reply with hnode |
        ⟨hlater, hnode⟩ | ⟨-, -, ⟨-, commit, es, -, hframe⟩ | ⟨-, hframe⟩⟩
      · rw [hnode] at hrole ⊢
        exact Or.inl ⟨hrole, rfl⟩
      · simp [hnode, RaftNode.becomeFollower_of_lt hlater] at hrole
      · rw [hframe] at hrole ⊢
        exact Or.inl ⟨hrole, rfl⟩
      · rw [hframe] at hrole ⊢
        exact Or.inl ⟨hrole, rfl⟩

/-- A replicator goes on unless its term of office is over or it meets a later term. -/
theorem ThreadStep.key_mem {l : List (Replicator N)} (hstep : ThreadStep c x a l) {t : ℕ}
    (hactive : ¬ (c.raft x).replicatorRetired t)
    (hkey : (y, t) ∈ (c.processes x).replicators.map Replicator.key) :
    (y, t) ∈ l.map Replicator.key ∨ ∃ n, c.operation a = some (x, n) ∧ n.role = .follower := by
  have herase : ∀ {k : ℕ} {r : Replicator N}, (c.processes x).replicators[k]? = some r →
      r.leaderTerm ≠ t →
        (y, t) ∈ ((c.processes x).replicators.eraseIdx k).map Replicator.key := by
    intro k r hr hne
    obtain ⟨r', hmem, hr'⟩ := List.mem_map.mp hkey
    rcases mem_eraseIdx_or hmem k with hin | hat
    · exact List.mem_map.mpr ⟨r', hin, hr'⟩
    · obtain rfl : r = r' := Option.some.inj (hr.symm.trans hat)
      exact absurd (congrArg Prod.snd hr') hne
  cases hstep with
  | keep _ =>
      rw [List.map_append]
      exact Or.inl (List.mem_append_left _ hkey)
  | send hsends =>
      rw [Threads.set_map_key hsends.thread]
      exact Or.inl hkey
  | retire _ hr hretired => exact Or.inl (herase hr fun heq ↦ hactive (heq ▸ hretired))
  | reply hr _ _ _ =>
      rw [Threads.set_map_key hr]
      exact Or.inl hkey
  | @depose k j r q reply hr hq hreply hserves hlater =>
      refine Or.inr ⟨_, by simp [Cluster.operation, hr, hq, hreply]; rfl, ?_⟩
      rw [RaftNode.onAppendReply, if_neg hserves, if_pos hlater,
        RaftNode.becomeFollower_of_lt hlater]
  | failed hr =>
      rw [Threads.set_map_key hr]
      exact Or.inl hkey

/-- A leader at work has a replicator for each other node. -/
def Cluster.Staffed (c : Cluster N) : Prop :=
  ∀ x, (c.raft x).role = .leader → (c.raft x).stopping = false → ∀ y ≠ x,
    (y, (c.raft x).currentTerm) ∈ (c.processes x).replicators.map Replicator.key

/-- A process that starts again is a follower. -/
theorem Cluster.role_of_restarted (hs : c.step a = some c') (ha : c.restarted a = some x) :
    (c'.raft x).role = .follower := by
  cases Cluster.outcome hs with
  | crash i =>
      obtain rfl : i = x := Option.some.inj ha
      simp [Cluster.raft, Cluster.restart, Cluster.record, Process.boot, RaftNode.recover]
  | @crashDuring b i n m hop =>
      obtain rfl : i = x := by simpa [Cluster.restarted, hop] using ha
      cases b with
      | _ =>
          simp [Cluster.raft, Cluster.consume, Cluster.restart, Cluster.record, Process.boot,
            RaftNode.recover]
  | _ => simp [Cluster.restarted] at ha

namespace Cluster.Staffed

theorem step (hstaffed : c.Staffed) (hsim : Sim c h) (hs : c.step a = some c') : c'.Staffed := by
  intro x hrole hstop y hy
  have hlog : (c.raft x).log ≠ [] := by simp [(hsim.tracks x).log]
  by_cases hkeep : c.restarted a = some x
  · simp [Cluster.role_of_restarted hs hkeep] at hrole
  · have hthreads := hsim.threadStep hs hkeep
    -- a leader that goes on keeps its replicators
    have hstays : (c.raft x).role = .leader → (c.raft x).stopping = false →
        (∀ n, c.operation a = some (x, n) → n.role = .leader) →
          (y, (c.raft x).currentTerm) ∈ (c'.processes x).replicators.map Replicator.key := by
      intro hlead hrun hop
      have hactive : ¬ (c.raft x).replicatorRetired (c.raft x).currentTerm :=
        RaftNode.active_iff.mpr ⟨hrun, hlead, rfl⟩
      rcases hthreads.key_mem hactive (hstaffed x hlead hrun y hy) with hmem | ⟨n, hn, hfollows⟩
      · exact hmem
      · simp [hop n hn] at hfollows
    rcases Cluster.raft_step hs hkeep with
      ⟨hnone, applied, stopping, heq, hkept, -⟩ | ⟨n, hop, heq⟩
    · rw [heq] at hrole hstop ⊢
      rcases hkept with rfl | ⟨-, rfl⟩
      · exact hstays hrole hstop fun n hn ↦ absurd hn (hnone n)
      · simp at hstop
    · have hsection := Cluster.criticalSection hop
      rw [heq] at hrole hstop ⊢
      rcases hsection.office hlog hrole with ⟨hlead, hterm⟩ | ⟨m, rfl, hid, hsize⟩
      · have hkept := hstays hlead ((hsection.stopping hlog).symm.trans hstop) fun n' hn' ↦ by
          obtain rfl : n = n' := congrArg Prod.snd (Option.some.inj (hop.symm.trans hn'))
          exact hrole
        rwa [← hterm] at hkept
      · have hspawns := RaftNode.becomeLeader_spawns (hid.trans (hsim.tracks x).id)
          (hsize.trans (hsim.tracks x).size) hy
        obtain ⟨commit, found, es, -, hframe⟩ := m.becomeLeader_frame
        have hterm : m.becomeLeader.currentTerm = m.currentTerm := by rw [hframe]
        show (y, m.becomeLeader.currentTerm) ∈ _
        rw [hterm]
        rw [← Cluster.spawns_self hop] at hspawns
        exact List.map_subset _ (hthreads.spawns_subset hsim) hspawns

end Cluster.Staffed

theorem Run.staffed {ok : Cluster N → Action N → Prop} (hrun : Run ok c) : c.Staffed := by
  induction hrun with
  | initial _ _ =>
      intro x hrole
      simp [Cluster.initial, Cluster.raft, Process.boot, RaftNode.recover] at hrole
  | step hrun _ hs _ ih =>
      obtain ⟨h, hsim⟩ := hrun.exists_sim
      exact ih.step hsim hs

/-- Each other node is served by exactly one replicator of a leader at work. -/
theorem leader_staffed (hrun : AnyRun c) (hrole : (c.raft x).role = .leader)
    (hstop : (c.raft x).stopping = false) (hy : y ≠ x) :
    ((c.processes x).replicators.map Replicator.key).count (y, (c.raft x).currentTerm) = 1 := by
  obtain ⟨h, hsim, hbook⟩ := hrun.exists_bookkept
  exact List.count_eq_one_of_mem (hbook.peers x).keys.nodup (hrun.staffed x hrole hstop y hy)

/-- A node that is elected again may still have the replicators of its first term of office. -/
theorem leader_staffed_again : ∃ c : Cluster 3, AnyRun c ∧ (c.raft 0).role = .leader ∧
    (c.processes 0).replicators.map Replicator.key = [(1, 1), (2, 1), (1, 3), (2, 3)] ∧
    ((c.processes 0).replicators.map Replicator.key).count (2, (c.raft 0).currentTerm) = 1 := by
  obtain ⟨c, hrun, hrole, hstop, hkeys⟩ : ∃ c : Cluster 3, AnyRun c ∧
      (c.raft 0).role = .leader ∧ (c.raft 0).stopping = false ∧
      (c.processes 0).replicators.map Replicator.key = [(1, 1), (2, 1), (1, 3), (2, 3)] :=
    exists_run_of_play (by decide) (by decide)
      [.timeout 0, .deliverVote 0, .voteReply 0 0 0, .timeout 1, .deliverVote 1, .timeout 0,
        .deliverVote 3, .voteReply 0 2 1] (by decide +kernel)
  exact ⟨c, hrun, hrole, hkeys, leader_staffed hrun hrole hstop (by decide)⟩

end Dkvs
