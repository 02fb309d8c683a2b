import Dkvs.Terms

/-!
# Election deadlines

Every node keeps a deadline, drawn anew whenever it hears from a leader, votes, stands for
election or meets a later term. Its ticker starts an election once the deadline has passed.
A timed cluster is a cluster with a clock and these deadlines. Times are in milliseconds;
beside each deadline stands the time at which it was set, which the code does not keep.
-/

namespace Dkvs

open ReplicatedLog

variable {N : ℕ}

structure RaftConfig where
  heartbeatInterval : ℕ
  electionTimeoutMin : ℕ
  electionTimeoutMax : ℕ
  tickInterval : ℕ
  deriving DecidableEq, Repr

def RaftConfig.default : RaftConfig := ⟨75, 300, 600, 15⟩

/-- The node that calls `resetElectionDeadline` in an action. -/
def Cluster.resets (c : Cluster N) : Action N → Option (Fin N)
  | .timeout i => some i
  | .deliverVote k => do
      let q ← c.voteRequests[k]?
      if (c.raft q.dst).currentTerm < q.args.term ∨
          ((c.raft q.dst).onRequestVote q.args).2.voteGranted then some q.dst else none
  | .deliverAppend k => do
      let q ← c.appendRequests[k]?
      if q.args.term < (c.raft q.dst).currentTerm then none else some q.dst
  | .voteReply i k j => do
      let q ← (c.processes i).voteSenders[k]?
      let reply ← c.voteReplyTo q j
      if ¬ (c.raft i).stopping ∧ (c.raft i).currentTerm < reply.term then some i else none
  | .appendReply i k j => do
      let r ← (c.processes i).replicators[k]?
      let q ← r.waiting
      let reply ← c.appendReplyTo q j
      if ¬ (c.raft i).replicatorRetired r.leaderTerm ∧ (c.raft i).currentTerm < reply.term then
        some i
      else none
  -- a process that starts again calls it in `start`
  | .crash i => some i
  | .crashDuring a _ => (c.operation a).map Prod.fst
  | _ => none

structure Timed (N : ℕ) where
  cluster : Cluster N
  now : ℕ
  deadline : Fin N → ℕ
  /-- When the deadline was set. -/
  contact : Fin N → ℕ

inductive TimedAction (N : ℕ) where
  | wait (d : ℕ)
  /-- An action, and the timeout that is drawn if it sets a deadline. -/
  | act (a : Action N) (draw : ℕ)

namespace Timed

/-- `resetElectionDeadline`. -/
def reset (s : Timed N) (i : Fin N) (draw : ℕ) : Timed N :=
  { s with
    deadline := Function.update s.deadline i (s.now + draw)
    contact := Function.update s.contact i s.now }

def step (cfg : RaftConfig) (s : Timed N) : TimedAction N → Option (Timed N)
  | .wait d => some { s with now := s.now + d }
  | .act a draw =>
      if cfg.electionTimeoutMin ≤ draw ∧ draw ≤ cfg.electionTimeoutMax ∧
          ∀ i ∈ a.timer, s.deadline i ≤ s.now then
        (s.cluster.step a).map fun c ↦
          match s.cluster.resets a with
          | some i => { s.reset i draw with cluster := c }
          | none => { s with cluster := c }
      else none

end Timed

/-- The timed clusters that start at time `0` and take actions that satisfy `ok`. -/
inductive TimedRun (cfg : RaftConfig) (ok : Timed N → TimedAction N → Prop) : Timed N → Prop
  | initial (hpos : 0 < N) (hsize : N < 2 ^ 32) {draw : Fin N → ℕ}
      (hdraw : ∀ i, cfg.electionTimeoutMin ≤ draw i ∧ draw i ≤ cfg.electionTimeoutMax) :
      TimedRun cfg ok ⟨Cluster.initial N, 0, draw, fun _ ↦ 0⟩
  | step {s s' : Timed N} {act : TimedAction N} (h : TimedRun cfg ok s) (hok : ok s act)
      (hs : s.step cfg act = some s') (hb : s'.cluster.TermsBounded) : TimedRun cfg ok s'

/-- The state `s'` is reached from `s` by actions that satisfy `ok`. -/
inductive TimedContinues (cfg : RaftConfig) (ok : Timed N → TimedAction N → Prop) (s : Timed N) :
    Timed N → Prop
  | refl : TimedContinues cfg ok s s
  | step {s₁ s₂ : Timed N} {act : TimedAction N} (h : TimedContinues cfg ok s s₁) (hok : ok s₁ act)
      (hs : s₁.step cfg act = some s₂) (hb : s₂.cluster.TermsBounded) : TimedContinues cfg ok s s₂

variable {cfg : RaftConfig} {ok : Timed N → TimedAction N → Prop} {s s' s₁ s₂ s₃ : Timed N}
  {a b : Action N} {i : Fin N} {draw : ℕ}

namespace Timed

/-- What an action needs and does. -/
theorem step_act (hs : s.step cfg (.act a draw) = some s') :
    s.cluster.step a = some s'.cluster ∧ s'.now = s.now ∧
      cfg.electionTimeoutMin ≤ draw ∧ draw ≤ cfg.electionTimeoutMax ∧
      (∀ i ∈ a.timer, s.deadline i ≤ s.now) ∧
      ∀ i, s.cluster.resets a = some i ∧ s'.deadline i = s.now + draw ∧ s'.contact i = s.now ∨
        s.cluster.resets a ≠ some i ∧ s'.deadline i = s.deadline i ∧
          s'.contact i = s.contact i := by
  simp only [step, Option.ite_none_right_eq_some, Option.map_eq_some_iff] at hs
  obtain ⟨⟨hmin, hmax, hdue⟩, c, hc, rfl⟩ := hs
  cases s.cluster.resets a with
  | none => exact ⟨hc, rfl, hmin, hmax, hdue, fun i ↦ Or.inr ⟨by simp, rfl, rfl⟩⟩
  | some j =>
      refine ⟨hc, rfl, hmin, hmax, hdue, fun i ↦ ?_⟩
      by_cases hi : i = j
      · subst hi
        exact Or.inl ⟨rfl, Function.update_self _ _ _, Function.update_self _ _ _⟩
      · exact Or.inr ⟨fun heq ↦ hi (Option.some.inj heq).symm, Function.update_of_ne hi _ _,
          Function.update_of_ne hi _ _⟩

/-- An election that is due. -/
theorem step_timeout (hmin : cfg.electionTimeoutMin ≤ draw) (hmax : draw ≤ cfg.electionTimeoutMax)
    (hdue : s.deadline i ≤ s.now)
    (hidle : ¬ ((s.cluster.raft i).stopping ∨ (s.cluster.raft i).role = .leader)) :
    s.step cfg (.act (.timeout i) draw) = some { s.reset i draw with
      cluster := s.cluster.settle i (s.cluster.raft i).startElection } := by
  have htimer : ∀ j ∈ Action.timer (.timeout i), s.deadline j ≤ s.now := by
    intro j hj
    obtain rfl := Option.some.inj hj
    exact hdue
  rw [step, if_pos ⟨hmin, hmax, htimer⟩, Cluster.step, Cluster.operation, if_neg hidle]
  rfl

/-- Time does not go back. -/
theorem now_le {act : TimedAction N} (hs : s.step cfg act = some s') : s.now ≤ s'.now := by
  cases act with
  | wait d =>
      obtain rfl := Option.some.inj hs
      exact Nat.le_add_right _ _
  | act a draw => exact (step_act hs).2.1.ge

/-- Each deadline was drawn when it was set. -/
structure Drawn (cfg : RaftConfig) (s : Timed N) : Prop where
  contact_le : ∀ i, s.contact i ≤ s.now
  min_le : ∀ i, s.contact i + cfg.electionTimeoutMin ≤ s.deadline i
  le_max : ∀ i, s.deadline i ≤ s.contact i + cfg.electionTimeoutMax

theorem Drawn.step (hdrawn : s.Drawn cfg) {act : TimedAction N} (hs : s.step cfg act = some s') :
    s'.Drawn cfg := by
  cases act with
  | wait d =>
      obtain rfl := Option.some.inj hs
      exact ⟨fun i ↦ (hdrawn.contact_le i).trans (Nat.le_add_right _ _), hdrawn.min_le,
        hdrawn.le_max⟩
  | act a draw =>
      obtain ⟨-, hnow, hmin, hmax, -, heach⟩ := step_act hs
      have hboth : ∀ i, s'.contact i ≤ s'.now ∧
          s'.contact i + cfg.electionTimeoutMin ≤ s'.deadline i ∧
          s'.deadline i ≤ s'.contact i + cfg.electionTimeoutMax := by
        intro i
        rcases heach i with ⟨-, hdeadline, hcontact⟩ | ⟨-, hdeadline, hcontact⟩
        · omega
        · have hle := hdrawn.contact_le i
          have hmin' := hdrawn.min_le i
          have hmax' := hdrawn.le_max i
          omega
      exact ⟨fun i ↦ (hboth i).1, fun i ↦ (hboth i).2.1, fun i ↦ (hboth i).2.2⟩

end Timed

theorem TimedRun.drawn (hrun : TimedRun cfg ok s) : s.Drawn cfg := by
  induction hrun with
  | initial _ _ hdraw =>
      exact ⟨fun _ ↦ le_rfl, fun i ↦ by simpa using (hdraw i).1, fun i ↦ by simpa using (hdraw i).2⟩
  | step _ _ hs _ ih => exact ih.step hs

/-- Perform a list of actions as long as they are enabled and satisfy `ok`. -/
def Timed.play (cfg : RaftConfig) (ok : Timed N → TimedAction N → Prop)
    [∀ s act, Decidable (ok s act)] (s : Timed N) : List (TimedAction N) → Option (Timed N)
  | [] => some s
  | act :: acts =>
      if ok s act then
        match s.step cfg act with
        | some s' => if s'.cluster.TermsBounded then s'.play cfg ok acts else none
        | none => none
      else none

theorem TimedRun.play [∀ s act, Decidable (ok s act)] (hrun : TimedRun cfg ok s)
    {acts : List (TimedAction N)} (hplay : s.play cfg ok acts = some s') : TimedRun cfg ok s' := by
  induction acts generalizing s with
  | nil =>
      obtain rfl : s = s' := by simpa [Timed.play] using hplay
      exact hrun
  | cons act acts ih =>
      rw [Timed.play] at hplay
      split_ifs at hplay with hok
      split at hplay
      · rename_i s₁ hs
        split_ifs at hplay with hb
        exact ih (.step hrun hok hs hb) hplay
      · simp at hplay

/-- A timed run is a run of the cluster. -/
theorem TimedRun.run (hrun : TimedRun cfg ok s) : AnyRun s.cluster := by
  induction hrun with
  | initial hpos hsize _ => exact .initial hpos hsize
  | @step s s' act _ _ hs hb ih =>
      cases act with
      | wait d =>
          obtain rfl := Option.some.inj hs
          exact ih
      | act a draw => exact .step ih trivial (Timed.step_act hs).1 hb

/-! ## No election too early -/

/-- A deadline does not come closer than `electionTimeoutMin` to a time at which it was
set. -/
theorem TimedContinues.deadline_ge {τ : ℕ} (hdeadline : τ + cfg.electionTimeoutMin ≤ s.deadline i)
    (hnow : τ ≤ s.now) (hc : TimedContinues cfg ok s s') :
    τ + cfg.electionTimeoutMin ≤ s'.deadline i ∧ τ ≤ s'.now := by
  induction hc with
  | refl => exact ⟨hdeadline, hnow⟩
  | @step s₁ s₂ act _ _ hs _ ih =>
      obtain ⟨hle, hτ⟩ := ih
      refine ⟨?_, hτ.trans (Timed.now_le hs)⟩
      cases act with
      | wait d =>
          obtain rfl := Option.some.inj hs
          exact hle
      | act a draw =>
          obtain ⟨-, -, hmin, -, -, heach⟩ := Timed.step_act hs
          rcases heach i with ⟨-, hset, -⟩ | ⟨-, hkept, -⟩
          · omega
          · omega

/-- A node that has just heard from a leader, voted, stood for election, met a later term or
started does not stand for election within `electionTimeoutMin`, whatever happens. -/
theorem no_early_election {draw' : ℕ} (hs : s.step cfg (.act a draw) = some s₁)
    (hreset : s.cluster.resets a = some i) (hc : TimedContinues cfg ok s₁ s₂)
    (hs' : s₂.step cfg (.act b draw') = some s₃) (hb : b.timer = some i) :
    s.now + cfg.electionTimeoutMin ≤ s₂.now := by
  obtain ⟨-, hnow, hmin, -, -, heach⟩ := Timed.step_act hs
  rcases heach i with ⟨-, hset, -⟩ | ⟨hnot, -⟩
  · have hdue := (Timed.step_act hs').2.2.2.2.1 i hb
    have hlate := (hc.deadline_ge (τ := s.now) (i := i) (by omega) hnow.ge).1
    exact hlate.trans hdue
  · exact absurd hreset hnot

/-- A candidate whose first election fails stands again after the timeout it has drawn. -/
theorem no_early_election_twice : ∃ s s₁ s₂ s₃ : Timed 3,
    s.step .default (.act (.timeout 0) 450) = some s₁ ∧
    TimedContinues .default (fun _ _ ↦ True) s₁ s₂ ∧
    s₂.step .default (.act (.timeout 0) 300) = some s₃ ∧
    (s₃.cluster.raft 0).currentTerm = 2 ∧ s₂.now = 750 ∧ s.now + 300 ≤ s₂.now := by
  let s : Timed 3 := ⟨Cluster.initial 3, 300, fun _ ↦ 300, fun _ ↦ 0⟩
  let s₁ : Timed 3 := { s.reset 0 450 with
    cluster := s.cluster.settle 0 (s.cluster.raft 0).startElection }
  let s₂ : Timed 3 := { s₁ with now := s₁.now + 450 }
  let s₃ : Timed 3 := { s₂.reset 0 300 with
    cluster := s₂.cluster.settle 0 (s₂.cluster.raft 0).startElection }
  have hs : s.step .default (.act (.timeout 0) 450) = some s₁ :=
    Timed.step_timeout (by decide) (by decide) (by decide) (by decide)
  have hwait : TimedContinues .default (fun _ _ ↦ True) s₁ s₂ :=
    .step .refl trivial (show s₁.step .default (.wait 450) = some s₂ from rfl) (by decide +kernel)
  have hs' : s₂.step .default (.act (.timeout 0) 300) = some s₃ :=
    Timed.step_timeout (by decide) (by decide) (by decide) (by decide +kernel)
  exact ⟨s, s₁, s₂, s₃, hs, hwait, hs', by decide +kernel, rfl,
    no_early_election hs rfl hwait hs' rfl⟩

/-! ## No silence too long -/

theorem Cluster.resets_of_restarted {c : Cluster N} (ha : c.restarted a = some i) :
    c.resets a = some i := by
  cases a with
  | crash j => exact ha
  | crashDuring b m => exact ha
  | _ => simp [Cluster.restarted] at ha

/-- A leader that steps down sets its deadline. -/
theorem CriticalSection.leader_of_not_reset {c : Cluster N} {n : RaftNode}
    (hop : CriticalSection c a i n) (hreset : c.resets a ≠ some i)
    (hrole : (c.raft i).role = .leader) : n.role = .leader := by
  have hsubmit : ∀ command, ((c.raft i).submit command).1.role = .leader := by
    intro command
    rcases (c.raft i).submit_frame command with hsame | ⟨-, commit, found, es, -, hframe⟩
    · rw [hsame, hrole]
    · rw [hframe, hrole]
  cases hop with
  | timeout hidle => exact absurd (Or.inr hrole) hidle
  | submit _ command => exact hsubmit command
  | execute _ cmd => exact hsubmit cmd.encode
  | @deliverVote k q hq =>
      obtain ⟨vote, es, -, hframe | ⟨hlater, -⟩⟩ := (c.raft q.dst).onRequestVote_frame q.args
      · rw [hframe]
        exact hrole
      · exact absurd (by simp [Cluster.resets, hq, hlater]) hreset
  | @deliverAppend k q hq =>
      by_cases hstale : q.args.term < (c.raft q.dst).currentTerm
      · rw [RaftNode.onAppendEntries, if_pos hstale]
        exact hrole
      · exact absurd (by simp [Cluster.resets, hq, hstale]) hreset
  | @voteReply _ k j q reply hq hreply =>
      by_cases hset : ¬ (c.raft i).stopping ∧ (c.raft i).currentTerm < reply.term
      · exact absurd (by simp [Cluster.resets, hq, hreply, hset]) hreset
      · have hsame : (c.raft i).onVoteReply q.args reply = c.raft i := by
          unfold RaftNode.onVoteReply
          split_ifs with hstop hlater hcount
          · rfl
          · exact absurd ⟨hstop, hlater⟩ hset
          · rfl
          · simp [hrole] at hcount
        rw [hsame, hrole]
  | @appendReply _ k j r q reply hr hq hreply =>
      by_cases hset : ¬ (c.raft i).replicatorRetired r.leaderTerm ∧
          (c.raft i).currentTerm < reply.term
      · exact absurd (by simp [Cluster.resets, hr, hq, hreply, hset]) hreset
      · rcases (c.raft i).onAppendReply_frame r.peer r.leaderTerm q.args reply with hnode |
          ⟨hlater, -⟩ | ⟨-, -, ⟨-, commit, es, -, hframe⟩ | ⟨-, hframe⟩⟩
        · rw [hnode, hrole]
        · have hretired : (c.raft i).replicatorRetired r.leaderTerm := by
            by_contra hactive
            exact hset ⟨hactive, hlater⟩
          rw [RaftNode.onAppendReply, if_pos hretired, hrole]
        · rw [hframe, hrole]
        · rw [hframe, hrole]

/-- A node whose ticker is at work after an action had it at work before, or its deadline
has just been set. -/
theorem Sim.ticking_step {c c' : Cluster N} {h : History N} (hsim : Sim c h)
    (hs : c.step a = some c') (hreset : c.resets a ≠ some i)
    (hrole : (c'.raft i).role ≠ .leader) (hstop : (c'.raft i).stopping = false) :
    (c.raft i).role ≠ .leader ∧ (c.raft i).stopping = false := by
  have hlog : (c.raft i).log ≠ [] := by simp [(hsim.tracks i).log]
  rcases Cluster.raft_step hs fun hrestarted ↦ hreset (Cluster.resets_of_restarted hrestarted) with
    ⟨-, applied, stopping, heq, hkept, -⟩ | ⟨n, hop, heq⟩
  · rw [heq] at hrole hstop
    rcases hkept with rfl | ⟨-, rfl⟩
    · exact ⟨hrole, hstop⟩
    · simp at hstop
  · rw [heq] at hrole hstop
    have hsection := Cluster.criticalSection hop
    exact ⟨fun hlead ↦ hrole (hsection.leader_of_not_reset hreset hlead),
      (hsection.stopping hlog).symm.trans hstop⟩

/-- The tickers wake up in time: none lets its deadline pass by more than `tickInterval`. -/
def Punctual (cfg : RaftConfig) (s : Timed N) : TimedAction N → Prop
  | .wait d => ∀ i, (s.cluster.raft i).role ≠ .leader → (s.cluster.raft i).stopping = false →
      s.now + d ≤ s.deadline i + cfg.tickInterval
  | .act _ _ => True

instance (s : Timed N) (act : TimedAction N) : Decidable (Punctual cfg s act) := by
  cases act <;> unfold Punctual <;> infer_instance

/-- Every running node that does not lead has heard from a leader, voted, stood for election,
met a later term or started within the last `electionTimeoutMax + tickInterval`. -/
theorem silence_bounded (hrun : TimedRun cfg (Punctual cfg) s) (i : Fin N)
    (hrole : (s.cluster.raft i).role ≠ .leader) (hstop : (s.cluster.raft i).stopping = false) :
    s.now ≤ s.contact i + cfg.electionTimeoutMax + cfg.tickInterval := by
  have hdue : s.now ≤ s.deadline i + cfg.tickInterval := by
    induction hrun with
    | initial _ _ _ => exact Nat.zero_le _
    | @step s s' act hrun hok hs hb ih =>
        cases act with
        | wait d =>
            obtain rfl := Option.some.inj hs
            exact hok i hrole hstop
        | act a draw =>
            obtain ⟨hc, hnow, -, -, -, heach⟩ := Timed.step_act hs
            rcases heach i with ⟨-, hset, -⟩ | ⟨hreset, hkept, -⟩
            · omega
            · obtain ⟨h, hsim⟩ := hrun.run.exists_sim
              obtain ⟨hrole₀, hstop₀⟩ := hsim.ticking_step hc hreset hrole hstop
              rw [hnow, hkept]
              exact ih hrole₀ hstop₀
  have hmax := hrun.drawn.le_max i
  omega

/-- Node 0 is elected, its first requests reach the others 75 ms later, and then nothing
happens for as long as the timeouts that they draw and the tickers allow. -/
theorem silence_bounded_heartbeat : ∃ s : Timed 3, TimedRun .default (Punctual .default) s ∧
    s.contact 2 = 375 ∧ s.now = 990 ∧ s.now ≤ s.contact 2 + 600 + 15 := by
  have hplay : (Timed.play .default (Punctual .default)
      ⟨Cluster.initial 3, 0, fun i ↦ if i = 0 then 300 else 600, fun _ ↦ 0⟩
      [.wait 300, .act (.timeout 0) 300, .act (.deliverVote 0) 600, .act (.voteReply 0 0 0) 300,
        .wait 75, .act (.send 0 0) 300, .act (.deliverAppend 0) 600, .act (.send 0 1) 300,
        .act (.deliverAppend 0) 600, .wait 615]).any
      (fun s ↦ (s.cluster.raft 2).role ≠ .leader ∧ (s.cluster.raft 2).stopping = false ∧
        s.contact 2 = 375 ∧ s.now = 990) = true := by
    decide +kernel
  simp only [Option.any_eq_true, decide_eq_true_eq] at hplay
  obtain ⟨s, hs, hrole, hstop, hcontact, hnow⟩ := hplay
  have hrun := TimedRun.play (.initial (by decide) (by decide) (by decide)) hs
  exact ⟨s, hrun, hcontact, hnow, silence_bounded hrun 2 hrole hstop⟩

end Dkvs
