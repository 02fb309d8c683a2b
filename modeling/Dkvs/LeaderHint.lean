import Dkvs.Replication.Peers

/-!
# Whom a node takes for the leader

A node learns the leader of its term from a request of that leader, or by taking
office itself, and it forgets the leader whenever its term changes. So the hint a
client is given names the node that was elected in the term of the node that
answers, and a node that does not lead never sends a client to itself.
-/

namespace Dkvs

open ReplicatedLog

variable {N : ℕ} {c c' : Cluster N} {h h' : History N} {i x : Fin N} {n n' : RaftNode}

/-- Node `x` entered `becomeLeader` in the term `t`. -/
def Cluster.Elected (c : Cluster N) (x : Fin N) (t : ℕ) : Prop :=
  ∃ log, .becomeLeader x t log ∈ c.trace

/-- There is one election in a term. -/
theorem Sim.elected_unique (hsim : Sim c h) {x y : Fin N} {t : ℕ} (hx : c.Elected x t)
    (hy : c.Elected y t) : y = x := by
  obtain ⟨log, hmem⟩ := hx
  obtain ⟨log', hmem'⟩ := hy
  have hleader := (hsim.trace.events _ hmem).1
  have hleader' := (hsim.trace.events _ hmem').1
  exact Option.some.inj (hleader'.symm.trans hleader)

theorem Moves.elected {events : List (Event N)} (hm : Moves c c' i events) {t : ℕ}
    (hx : c.Elected x t) : c'.Elected x t := by
  obtain ⟨log, hmem⟩ := hx
  exact ⟨log, hm.trace ▸ List.mem_append_left _ hmem⟩

/-- The hint of node `i` is empty or names a node elected in its term, and it
names `i` only when `i` leads. -/
structure HintOk (elected : Fin N → ℕ → Prop) (i : Fin N) (n : RaftNode) : Prop where
  hint : n.leaderHint = -1 ∨ ∃ x : Fin N, elected x n.currentTerm ∧ n.leaderHint = toInt32 x
  other : n.role ≠ .leader → n.leaderHint ≠ toInt32 i
  leads : n.role = .leader → elected i n.currentTerm

namespace HintOk

variable {elected elected' : Fin N → ℕ → Prop}

theorem of_eq (hok : HintOk elected i n) (helected : ∀ {x t}, elected x t → elected' x t)
    (hhint : n'.leaderHint = n.leaderHint) (hrole : n'.role = n.role)
    (hterm : n'.currentTerm = n.currentTerm) : HintOk elected' i n' := by
  constructor
  · rw [hhint, hterm]
    rcases hok.hint with hnone | ⟨x, hx, heq⟩
    · exact Or.inl hnone
    · exact Or.inr ⟨x, helected hx, heq⟩
  · rw [hrole, hhint]
    exact hok.other
  · rw [hrole, hterm]
    exact fun hlead ↦ helected (hok.leads hlead)

theorem reset (hi : toInt32 i ≠ -1) (hrole : n.role ≠ .leader) (hhint : n.leaderHint = -1) :
    HintOk elected i n :=
  ⟨Or.inl hhint, fun _ heq ↦ hi (heq.symm.trans hhint), fun hlead ↦ (hrole hlead).elim⟩

theorem becomeLeader {m : RaftNode} (hid : m.id = i)
    (helected : ∀ {t log}, .becomeLeader t log ∈ m.becomeLeader.effects → elected i t) :
    HintOk elected i m.becomeLeader := by
  obtain ⟨commit, found, es, -, hframe⟩ := m.becomeLeader_frame
  rw [hframe] at helected ⊢
  have hself : elected i m.currentTerm := @helected m.currentTerm m.log.tail (by simp)
  exact ⟨Or.inr ⟨i, hself, by rw [hid]⟩, fun hrole ↦ (hrole rfl).elim, fun _ ↦ hself⟩

theorem becomeFollower (hi : toInt32 i ≠ -1) {t : ℕ} (ht : n.currentTerm < t) :
    HintOk elected i (n.becomeFollower t) :=
  reset hi (by simp) (by simp [RaftNode.becomeFollower_of_lt ht])

theorem startElection (hid : n.id = i) (hi : toInt32 i ≠ -1)
    (helected : ∀ {t log}, .becomeLeader t log ∈ n.startElection.effects → elected i t) :
    HintOk elected i n.startElection := by
  rcases n.startElection_cases with hwon | hlost
  · rw [hwon] at helected ⊢
    exact becomeLeader hid helected
  · rw [hlost]
    have hrole : n.stand.role = .candidate := rfl
    exact reset hi (by simp [RaftNode.spawn, hrole]) rfl

theorem onVoteReply (hok : HintOk elected i n) (hid : n.id = i) (hi : toInt32 i ≠ -1)
    (hmono : ∀ {x t}, elected x t → elected' x t) {args : RequestVoteArgs}
    {reply : RequestVoteReply}
    (helected : ∀ {t log}, .becomeLeader t log ∈ (n.onVoteReply args reply).effects →
      elected' i t) : HintOk elected' i (n.onVoteReply args reply) := by
  rcases n.onVoteReply_cases args reply with hnode | ⟨hlt, hnode⟩ |
    ⟨-, -, -, ⟨-, hnode⟩ | ⟨-, hnode⟩⟩
  · rw [hnode]
    exact hok.of_eq hmono rfl rfl rfl
  · rw [hnode]
    exact becomeFollower hi hlt
  · rw [hnode]
    exact hok.of_eq hmono rfl rfl rfl
  · rw [hnode] at helected ⊢
    exact becomeLeader hid helected

theorem onAppendEntries (hok : HintOk elected i n) (hmono : ∀ {x t}, elected x t → elected' x t)
    (hlog : n.log ≠ []) {args : AppendEntriesArgs} {src : Fin N} (hsrc : args.leaderId = src)
    (hne : toInt32 src ≠ toInt32 i) (helected : elected src args.term) :
    HintOk elected' i (n.onAppendEntries args).1 := by
  rcases RaftNode.onAppendEntries_frame hlog args with hsame |
    ⟨-, log, vote, commit, es, -, hframe⟩
  · rw [hsame]
    exact hok.of_eq hmono rfl rfl rfl
  · rw [hframe]
    refine ⟨Or.inr ⟨src, hmono helected, by rw [hsrc]⟩, fun _ ↦ ?_, by simp⟩
    rw [hsrc]
    exact hne

theorem onAppendReply (hok : HintOk elected i n) (hi : toInt32 i ≠ -1)
    (hmono : ∀ {x t}, elected x t → elected' x t) (peer leaderTerm : ℕ)
    (args : AppendEntriesArgs) (reply : AppendEntriesReply) :
    HintOk elected' i (n.onAppendReply peer leaderTerm args reply).1 := by
  rcases n.onAppendReply_frame peer leaderTerm args reply with hsame | ⟨hlt, hnode⟩ |
    ⟨-, -, ⟨-, commit, es, -, hframe⟩ | ⟨-, hframe⟩⟩
  · rw [hsame]
    exact hok.of_eq hmono rfl rfl rfl
  · rw [hnode]
    exact becomeFollower hi hlt
  · rw [hframe]
    exact hok.of_eq hmono rfl rfl rfl
  · rw [hframe]
    exact hok.of_eq hmono rfl rfl rfl

theorem submit (hok : HintOk elected i n) (hmono : ∀ {x t}, elected x t → elected' x t)
    (command : Bytes) : HintOk elected' i (n.submit command).1 := by
  rcases n.submit_frame command with hsame | ⟨-, commit, found, es, -, hframe⟩
  · rw [hsame]
    exact hok.of_eq hmono rfl rfl rfl
  · rw [hframe]
    exact hok.of_eq hmono rfl rfl rfl

theorem onRequestVote (hok : HintOk elected i n) (hi : toInt32 i ≠ -1)
    (hmono : ∀ {x t}, elected x t → elected' x t) (args : RequestVoteArgs) :
    HintOk elected' i (n.onRequestVote args).1 := by
  obtain ⟨vote, es, -, hframe | ⟨-, hframe⟩⟩ := n.onRequestVote_frame args
  · rw [hframe]
    exact hok.of_eq hmono rfl rfl rfl
  · rw [hframe]
    exact reset hi (by simp) rfl

end HintOk

/-- Every hint is right, and so is every request that may become a hint. -/
structure HintsOk (c : Cluster N) : Prop where
  nodes : ∀ i, HintOk c.Elected i (c.raft i)
  requests : ∀ q ∈ c.appendRequests, c.Elected q.src q.args.term

theorem toInt32_fin_ne_neg_one (hsize : N < 2 ^ 32) (i : Fin N) : toInt32 i ≠ -1 :=
  toInt32_ne_neg_one (by have hlt := i.isLt; omega)

theorem HintsOk.operate (hok : HintsOk c) (hsim : Sim c h) (hcalls : CallsOk c)
    (hsize : N < 2 ^ 32) (hop : Operates c i n) {elected : Fin N → ℕ → Prop}
    (hmono : ∀ {x t}, c.Elected x t → elected x t)
    (helected : ∀ {t log}, .becomeLeader t log ∈ n.effects → elected i t) :
    HintOk elected i n := by
  have hid := (hsim.tracks i).id
  have hi := toInt32_fin_ne_neg_one hsize i
  cases hop with
  | startElection => exact .startElection hid hi helected
  | submit command => exact (hok.nodes i).submit hmono command
  | onRequestVote _ _ => exact (hok.nodes i).onRequestVote hi hmono _
  | @onAppendEntries q hq hdst =>
      obtain ⟨-, hsrc, hne⟩ := hcalls.requests q hq
      refine (hok.nodes i).onAppendEntries hmono ?_ hsrc (fun heq ↦ ?_) (hok.requests q hq)
      · simp [(hsim.tracks i).log]
      · have hlt := q.src.isLt
        have hlt' := i.isLt
        have hsame := toInt32_injective (by omega) (by omega) heq
        exact hne (hdst.trans (Fin.ext hsame.symm))
  | onVoteReply _ _ => exact (hok.nodes i).onVoteReply hid hi hmono helected
  | onAppendReply _ _ _ => exact (hok.nodes i).onAppendReply hi hmono _ _ _ _

theorem HintsOk.move (hok : HintsOk c) (hsim : Sim c h) (hcalls : CallsOk c) (hsize : N < 2 ^ 32)
    {events : List (Event N)} (hm : Moves c c' i events) : HintOk c'.Elected i (c'.raft i) := by
  have hmono : ∀ {x t}, c.Elected x t → c'.Elected x t := hm.elected
  have hnode := hok.nodes i
  have htrace := hm.trace
  have hmove := hm.move
  unfold Cluster.raft
  generalize c'.processes i = p at hmove ⊢
  cases hmove with
  | @operate n hop _ _ _ _ _ hevents =>
      have hnew := hok.operate hsim hcalls hsize hop hmono fun {t log} hmem ↦
        ⟨log, htrace ▸ List.mem_append_right _ (hevents (List.mem_filterMap.mpr ⟨_, hmem, rfl⟩))⟩
      exact { hnew with }
  | @park cmd _ _ _ _ =>
      have hnew := hnode.submit hmono cmd.encode
      exact { hnew with }
  | restart storage _ =>
      have hrole : (Process.boot i storage).raft.role ≠ .leader := by
        simp [Process.boot, RaftNode.recover]
      exact .reset (toInt32_fin_ne_neg_one hsize i) hrole rfl
  | _ => exact hnode.of_eq hmono rfl rfl rfl

theorem HintsOk.step (hok : HintsOk c) (hsim : Sim c h) (hcalls : CallsOk c) (hsize : N < 2 ^ 32)
    {a : Action N} (hs : c.step a = some c') : HintsOk c' := by
  obtain ⟨i, events, hm⟩ := Cluster.exists_moves hs
  refine ⟨fun y ↦ ?_, fun q hq ↦ ?_⟩
  · by_cases hy : y = i
    · subst hy
      exact hok.move hsim hcalls hsize hm
    · rw [Cluster.raft, hm.other hy]
      exact (hok.nodes y).of_eq hm.elected rfl rfl rfl
  · rcases (Cluster.callsStep hs).requests q hq with hold | ⟨-, y, k, r, args, hsends, rfl⟩
    · exact hm.elected (hok.requests q hold)
    · -- only a leader sends, and it was elected in its term
      obtain ⟨-, hrole, hterm⟩ := RaftNode.active_iff.mp hsends.active
      have hargs := (RaftNode.buildAppendEntries_fields hsends.request).1
      have hleads := (hok.nodes y).leads hrole
      rw [hterm, ← hargs] at hleads
      exact hm.elected hleads

theorem Run.exists_hintsOk {ok : Cluster N → Action N → Prop} (hrun : Run ok c) :
    ∃ h, Sim c h ∧ HintsOk c := by
  have hsize := hrun.size
  apply Run.exists_sim_of_step (P := fun c _ ↦ HintsOk c) _ _ hrun
  · refine ⟨fun i ↦ .reset (toInt32_fin_ne_neg_one hsize i) ?_ rfl, by simp [Cluster.initial]⟩
    simp [Cluster.initial, Cluster.raft, Process.boot, RaftNode.recover]
  · intro c c' h h' a x hrun hsim hok _ hs _ _
    obtain ⟨-, -, hbook⟩ := hrun.exists_bookkept
    exact hok.step hsim hbook.calls hsize hs

theorem submit_refused (command : Bytes) (hrole : n.role ≠ .leader) :
    (n.submit command).2 = ⟨false, n.leaderHint, 0, 0⟩ := by
  simp [RaftNode.submit, hrole]

/-- A redirect names the node the hint stands for. -/
theorem refuse_eq_redirect {id addrs k y : ℕ} {result : SubmitResult} (hy : y < 2 ^ 32)
    (hhint : result.leaderHint = toInt32 y) (hredirect : refuse id addrs result = .redirect k) :
    k = y := by
  unfold refuse at hredirect
  split_ifs at hredirect with hcond
  rw [Response.redirect.injEq, hhint] at hredirect
  rw [hhint] at hcond
  have hpos := hcond.1
  simp only [toInt32, Nat.mod_eq_of_lt hy] at hredirect hpos
  split_ifs at hredirect hpos with hsmall <;> omega

/-- The hint of a node is empty or names the node that was elected in its term,
never the node itself unless it leads; so `submit` on a node that does not lead,
and the redirect made of its answer, name another node elected in that term. -/
theorem leader_hint_elected (hrun : AnyRun c) (i : Fin N) :
    ((c.raft i).leaderHint = -1 ∨ ∃ x, c.Elected x (c.raft i).currentTerm ∧
        (∀ y, c.Elected y (c.raft i).currentTerm → y = x) ∧ (c.raft i).leaderHint = toInt32 x) ∧
      ((c.raft i).role ≠ .leader → (c.raft i).leaderHint ≠ toInt32 i) ∧
      ((c.raft i).role ≠ .leader → ∀ command,
        ((c.raft i).submit command).2.isLeader = false ∧
          (((c.raft i).submit command).2.leaderHint = -1 ∨
            ∃ x, x ≠ i ∧ c.Elected x (c.raft i).currentTerm ∧
              ((c.raft i).submit command).2.leaderHint = toInt32 x ∧
              ∀ k, refuse i N ((c.raft i).submit command).2 = .redirect k → k = x)) := by
  obtain ⟨h, hsim, hok⟩ := hrun.exists_hintsOk
  have hnode := hok.nodes i
  refine ⟨?_, hnode.other, fun hrole command ↦ ?_⟩
  · rcases hnode.hint with hnone | ⟨x, hx, heq⟩
    · exact Or.inl hnone
    · exact Or.inr ⟨x, hx, fun y hy ↦ hsim.elected_unique hx hy, heq⟩
  · rw [submit_refused command hrole]
    refine ⟨rfl, ?_⟩
    rcases hnode.hint with hnone | ⟨x, hx, heq⟩
    · exact Or.inl hnone
    · refine Or.inr ⟨x, ?_, hx, heq, fun k hk ↦ refuse_eq_redirect ?_ heq hk⟩
      · rintro rfl
        exact hnode.other hrole heq
      · have hlt := x.isLt
        have hsize := hrun.size
        omega

/-- A follower that has heard of the new leader. -/
theorem leader_hint_elected_pair : ∃ c : Cluster 2, AnyRun c ∧ (c.raft 1).role = .follower ∧
    (c.raft 1).leaderHint = 0 ∧ (c.raft 1).leaderHint ≠ toInt32 1 ∧
    ((c.raft 1).submit []).2.isLeader = false := by
  have hplay : ∃ c : Cluster 2, AnyRun c ∧ (c.raft 1).role = .follower ∧
      (c.raft 1).leaderHint = 0 :=
    exists_run_of_play (by decide) (by decide)
      [.timeout 0, .deliverVote 0, .voteReply 0 0 0, .send 0 0, .deliverAppend 0]
      (by decide +kernel)
  obtain ⟨c, hrun, hrole, hhint⟩ := hplay
  obtain ⟨-, hother, hsubmit⟩ := leader_hint_elected hrun 1
  have hnot : (c.raft 1).role ≠ .leader := by simp [hrole]
  exact ⟨c, hrun, hrole, hhint, hother hnot, (hsubmit hnot []).1⟩

end Dkvs
