import Dkvs.Replication.Staffing
import Dkvs.Timing

/-!
# A leader that is heard stays in office

Each replicator of a leader sends again `heartbeatInterval` after the last reply. As long as
its threads wake up in time and its calls are answered within a round trip, every other node
hears from it before an election timeout is over, and nobody stands for election. For this
the election timeout has to leave room for one interval and two round trips.
-/

namespace Dkvs

open ReplicatedLog

variable {N : ℕ}

/-- The peer whose replicator, at work on node `x`, sends or gets an answer in an action. -/
def Cluster.stirs (c : Cluster N) (x : Fin N) : Action N → Option (Fin N)
  | .send i k | .appendReply i k _ => do
      let r ← (c.processes i).replicators[k]?
      if i = x ∧ ¬ (c.raft i).replicatorRetired r.leaderTerm then some r.peer else none
  | _ => none

/-- A timed cluster, and for each peer the time at which the replicator of one node has last
sent or been answered. -/
structure Watch (N : ℕ) where
  timed : Timed N
  mark : Fin N → ℕ

/-- How long a replicator may stay as it is: an idle one wakes up after a heartbeat interval,
at most `slack` late, and a call takes `roundTrip`. -/
structure Pace where
  slack : ℕ
  roundTrip : ℕ

def Pace.patience (pace : Pace) (cfg : RaftConfig) (r : Replicator N) : ℕ :=
  match r.waiting with
  | none => cfg.heartbeatInterval + pace.slack
  | some _ => pace.roundTrip

/-- The node that is told to stop or whose call fails. -/
def Action.hampered : Action N → Option (Fin N)
  | .stopRaft i | .appendFailed i _ => some i
  | _ => none

namespace Watch

variable (cfg : RaftConfig) (pace : Pace) (x : Fin N)

def touch (w : Watch N) : TimedAction N → Fin N → ℕ
  | .wait _ => w.mark
  | .act a _ =>
      match w.timed.cluster.stirs x a with
      | some y => Function.update w.mark y w.timed.now
      | none => w.mark

def step (w : Watch N) (act : TimedAction N) : Option (Watch N) :=
  (w.timed.step cfg act).map fun s ↦ ⟨s, w.touch x act⟩

/-- The replicators of `x` are in time, and neither does its process end nor one of its
calls fail. -/
def Prompt (w : Watch N) : TimedAction N → Prop
  | .wait d => ∀ r ∈ (w.timed.cluster.processes x).replicators,
      ¬ (w.timed.cluster.raft x).replicatorRetired r.leaderTerm →
        w.timed.now + d ≤ w.mark r.peer + pace.patience cfg r
  | .act a _ => w.timed.cluster.restarted a ≠ some x ∧ a.hampered ≠ some x

instance (w : Watch N) (act : TimedAction N) : Decidable (w.Prompt cfg pace x act) :=
  match act with
  | .wait d => inferInstanceAs (Decidable (∀ r ∈ (w.timed.cluster.processes x).replicators,
      ¬ (w.timed.cluster.raft x).replicatorRetired r.leaderTerm →
        w.timed.now + d ≤ w.mark r.peer + pace.patience cfg r))
  | .act a _ => inferInstanceAs (Decidable
      (w.timed.cluster.restarted a ≠ some x ∧ a.hampered ≠ some x))

/-- Perform a list of actions as long as they are enabled and `x` is prompt. -/
def play (w : Watch N) : List (TimedAction N) → Option (Watch N)
  | [] => some w
  | act :: acts =>
      if w.Prompt cfg pace x act then
        match w.step cfg x act with
        | some w' => if w'.timed.cluster.TermsBounded then w'.play acts else none
        | none => none
      else none

end Watch

/-- The watched clusters that are reached from `w₀` while node `x` is prompt. -/
inductive PromptRun (cfg : RaftConfig) (pace : Pace) (x : Fin N) (w₀ : Watch N) : Watch N → Prop
  | refl : PromptRun cfg pace x w₀ w₀
  | step {w w' : Watch N} {act : TimedAction N} (h : PromptRun cfg pace x w₀ w)
      (hok : w.Prompt cfg pace x act) (hs : w.step cfg x act = some w')
      (hb : w'.timed.cluster.TermsBounded) : PromptRun cfg pace x w₀ w'

variable {cfg : RaftConfig} {pace : Pace} {c c' : Cluster N} {h : History N} {a : Action N}
  {x y : Fin N} {t : ℕ} {w w' : Watch N} {draw : ℕ}

/-! ## The facts about one action -/

/-- A leader is not among the nodes whose ticker starts an election. -/
theorem Action.timer_ne_leader {z : Fin N} (hs : c.step a = some c') (ha : a.timer = some z)
    (hrole : (c.raft x).role = .leader) : z ≠ x := by
  have htimeout : ∀ {b : Action N} {p : Fin N × RaftNode}, c.operation b = some p →
      b.timer = some z → z ≠ x := by
    rintro b ⟨i, n⟩ hop hb rfl
    cases Cluster.criticalSection hop with
    | timeout hidle =>
        obtain rfl := Option.some.inj hb
        exact hidle (Or.inr hrole)
    | _ => simp [Action.timer] at hb
  cases Cluster.outcome hs with
  | timeout i =>
      obtain ⟨p, hop, -⟩ := Option.map_eq_some_iff.mp hs
      exact htimeout hop ha
  | @crashDuring b i n m hop => exact htimeout hop ha
  | _ => simp [Action.timer] at ha

/-- A reply that is new comes from the node that has just taken the request. -/
theorem Cluster.new_reply (hs : c.step a = some c') {q : AppendCall N}
    {reply : AppendEntriesReply} (hreply : (q, reply) ∈ c'.appendReplies) :
    (q, reply) ∈ c.appendReplies ∨ ∃ k, a = .deliverAppend k ∧ c.appendRequests[k]? = some q := by
  cases Cluster.outcome hs with
  | @deliverAppend k q' hq' =>
      rcases List.mem_append.mp hreply with hold | hnew
      · exact Or.inl hold
      · obtain ⟨rfl, -⟩ := Prod.mk.inj (List.mem_singleton.mp hnew)
        exact Or.inr ⟨k, rfl, hq'⟩
  | submit i command =>
      rw [(CallsStep.submitStep c i command).2.2] at hreply
      exact Or.inl hreply
  | execute i cmd =>
      left
      unfold Cluster.executeStep at hreply
      dsimp only at hreply
      rw [← (CallsStep.submitStep c i cmd.encode).2.2]
      split_ifs at hreply with hleader
      · exact hreply
      · exact hreply
  | @appendReply i k j r q' reply' hr hq' hreply' =>
      left
      unfold Cluster.appendReplyStep at hreply
      dsimp only at hreply
      split_ifs at hreply with hgoes
      · exact List.eraseIdx_subset hreply
      · exact List.eraseIdx_subset hreply
  | appendFailed i k r =>
      left
      unfold Cluster.appendFailedStep at hreply
      split_ifs at hreply with hretired
      · exact hreply
      · exact hreply
  | @crashDuring b i n m hop =>
      cases b with
      | _ => exact Or.inl hreply
  | _ => exact Or.inl hreply

theorem Cluster.replicates_of_stirs (hstirs : c.stirs x a = some y) : a.replicates = some x := by
  cases a with
  | send i k | appendReply i k j =>
      simp only [stirs, Option.bind_eq_bind, Option.bind_eq_some_iff,
        Option.ite_none_right_eq_some] at hstirs
      obtain ⟨r, -, ⟨rfl, -⟩, -⟩ := hstirs
      rfl
  | _ => simp [stirs] at hstirs

/-- One replicator has taken a step, and no two of them work for the same peer and term. -/
theorem mem_set_or {l : List (Replicator N)} {k : ℕ} {r r' new : Replicator N}
    (hr : l[k]? = some r) (hkey : new.key = r.key)
    (hnodup : ((l.set k new).map Replicator.key).Nodup) (hr' : r' ∈ l.set k new) :
    r' = new ∨ r' ∈ l ∧ r'.key ≠ r.key := by
  obtain ⟨hk, -⟩ := List.getElem?_eq_some_iff.mp hr
  by_cases heq : r'.key = new.key
  · exact Or.inl (List.inj_on_of_nodup_map hnodup hr' (List.mem_set hk new) heq)
  · rcases List.mem_or_eq_of_mem_set hr' with hold | rfl
    · exact Or.inr ⟨hold, hkey ▸ heq⟩
    · exact absurd rfl heq

theorem Watch.step_act (hs : w.step cfg x (.act a draw) = some w') :
    w.timed.step cfg (.act a draw) = some w'.timed ∧
      ∀ y, w.timed.cluster.stirs x a = some y ∧ w'.mark y = w.timed.now ∨
        w.timed.cluster.stirs x a ≠ some y ∧ w'.mark y = w.mark y := by
  obtain ⟨s, htimed, rfl⟩ := Option.map_eq_some_iff.mp hs
  refine ⟨htimed, fun y ↦ ?_⟩
  dsimp only [touch]
  cases w.timed.cluster.stirs x a with
  | none => exact Or.inr ⟨by simp, rfl⟩
  | some z =>
      by_cases hy : y = z
      · subst hy
        exact Or.inl ⟨rfl, Function.update_self _ _ _⟩
      · exact Or.inr ⟨fun heq ↦ hy (Option.some.inj heq).symm, Function.update_of_ne hy _ _⟩

/-! ## Replicators in time -/

/-- A replicator has not been idle for longer than an interval, or in a call for longer than a
round trip, and its peer has heard from the leader when the last call was made. -/
structure InPace (cfg : RaftConfig) (pace : Pace) (w : Watch N) (r : Replicator N) : Prop where
  inTime : w.timed.now ≤ w.mark r.peer + pace.patience cfg r
  idle : r.waiting = none → w.mark r.peer ≤ w.timed.contact r.peer + pace.roundTrip
  busy : w.mark r.peer ≤ w.timed.contact r.peer + cfg.heartbeatInterval + pace.slack +
    pace.roundTrip
  answered : ∀ q reply, r.waiting = some q → (q, reply) ∈ w.timed.cluster.appendReplies →
    w.mark r.peer ≤ w.timed.contact r.peer

namespace InPace

variable {r : Replicator N}

/-- The peer of a replicator in time has heard from the leader within an interval and two
round trips. -/
theorem recent (hpace : InPace cfg pace w r) : w.timed.now ≤ w.timed.contact r.peer +
    cfg.heartbeatInterval + pace.slack + 2 * pace.roundTrip := by
  have hle := hpace.inTime
  have hbusy := hpace.busy
  rw [Pace.patience] at hle
  cases hq : r.waiting with
  | none =>
      have hidle := hpace.idle hq
      simp only [hq] at hle
      omega
  | some q =>
      simp only [hq] at hle
      omega

theorem wait {d : ℕ} (hpace : InPace cfg pace w r)
    (hin : w.timed.now + d ≤ w.mark r.peer + pace.patience cfg r) :
    InPace cfg pace ⟨{ w.timed with now := w.timed.now + d }, w.mark⟩ r :=
  ⟨hin, hpace.idle, hpace.busy, hpace.answered⟩

/-- An action of other threads. -/
theorem rest (hpace : InPace cfg pace w r) (hnow : w'.timed.now = w.timed.now)
    (hmark : w'.mark r.peer = w.mark r.peer)
    (hcontact : w.timed.contact r.peer ≤ w'.timed.contact r.peer)
    (hreplies : ∀ q reply, r.waiting = some q → (q, reply) ∈ w'.timed.cluster.appendReplies →
      (q, reply) ∈ w.timed.cluster.appendReplies ∨ w.mark r.peer ≤ w'.timed.contact r.peer) :
    InPace cfg pace w' r := by
  refine ⟨?_, fun hq ↦ ?_, ?_, fun q reply hq hreply ↦ ?_⟩
  · rw [hnow, hmark]
    exact hpace.inTime
  · have hidle := hpace.idle hq
    omega
  · have hbusy := hpace.busy
    omega
  · rw [hmark]
    rcases hreplies q reply hq hreply with hold | hheard
    · exact (hpace.answered q reply hq hold).trans hcontact
    · exact hheard

theorem send (hpace : InPace cfg pace w r) (hidle : r.waiting = none) {q : AppendCall N}
    (hnow : w'.timed.now = w.timed.now) (hmark : w'.mark r.peer = w.timed.now)
    (hcontact : w.timed.contact r.peer ≤ w'.timed.contact r.peer)
    (hfresh : ∀ reply, (q, reply) ∉ w'.timed.cluster.appendReplies) :
    InPace cfg pace w' { r with waiting := some q } := by
  have hin := hpace.inTime
  have hlast := hpace.idle hidle
  simp only [Pace.patience, hidle] at hin
  refine ⟨?_, by simp, ?_, fun q' reply hq' hreply ↦ ?_⟩
  · show w'.timed.now ≤ w'.mark r.peer + pace.roundTrip
    omega
  · show w'.mark r.peer ≤ w'.timed.contact r.peer + cfg.heartbeatInterval + pace.slack +
      pace.roundTrip
    omega
  · obtain rfl : q = q' := Option.some.inj hq'
    exact absurd hreply (hfresh reply)

theorem reply (hpace : InPace cfg pace w r) {q : AppendCall N} {reply : AppendEntriesReply}
    (hq : r.waiting = some q) (hreply : (q, reply) ∈ w.timed.cluster.appendReplies)
    (hnow : w'.timed.now = w.timed.now) (hmark : w'.mark r.peer = w.timed.now)
    (hcontact : w.timed.contact r.peer ≤ w'.timed.contact r.peer) :
    InPace cfg pace w' { r with waiting := none } := by
  have hin := hpace.inTime
  have hheard := hpace.answered q reply hq hreply
  simp only [Pace.patience, hq] at hin
  refine ⟨?_, fun _ ↦ ?_, ?_, by simp⟩
  · show w'.timed.now ≤ w'.mark r.peer + (cfg.heartbeatInterval + pace.slack)
    omega
  · show w'.mark r.peer ≤ w'.timed.contact r.peer + pace.roundTrip
    omega
  · show w'.mark r.peer ≤ w'.timed.contact r.peer + cfg.heartbeatInterval + pace.slack +
      pace.roundTrip
    omega

end InPace

/-- Node `x` leads in the highest term there is, and its replicators are in time. -/
structure Kept (cfg : RaftConfig) (pace : Pace) (x : Fin N) (t : ℕ) (w : Watch N) : Prop where
  run : AnyRun w.timed.cluster
  drawn : w.timed.Drawn cfg
  below : w.timed.cluster.Below t
  role : (w.timed.cluster.raft x).role = .leader
  term : (w.timed.cluster.raft x).currentTerm = t
  running : (w.timed.cluster.raft x).stopping = false
  mark_le : ∀ y, w.mark y ≤ w.timed.now
  pace : ∀ r ∈ (w.timed.cluster.processes x).replicators, r.leaderTerm = t → InPace cfg pace w r

namespace Kept

theorem active (hkept : Kept cfg pace x t w) :
    ¬ (w.timed.cluster.raft x).replicatorRetired t :=
  RaftNode.active_iff.mpr ⟨hkept.running, hkept.role, hkept.term⟩

theorem wait {d : ℕ} (hkept : Kept cfg pace x t w) (hok : w.Prompt cfg pace x (.wait d)) :
    Kept cfg pace x t ⟨{ w.timed with now := w.timed.now + d }, w.mark⟩ where
  run := hkept.run
  drawn := hkept.drawn.step (show w.timed.step cfg (.wait d) = some _ from rfl)
  below := hkept.below
  role := hkept.role
  term := hkept.term
  running := hkept.running
  mark_le y := (hkept.mark_le y).trans (Nat.le_add_right _ _)
  pace r hr hterm := (hkept.pace r hr hterm).wait (hok r hr (hterm ▸ hkept.active))

/-- While the leader is prompt, no ticker starts an election. -/
theorem timer_none (hkept : Kept cfg pace x t w)
    (hroom : cfg.heartbeatInterval + pace.slack + 2 * pace.roundTrip < cfg.electionTimeoutMin)
    (hs : w.step cfg x (.act a draw) = some w') : a.timer = none := by
  obtain ⟨hs, -⟩ := Watch.step_act hs
  obtain ⟨hc, -, -, -, hdue, -⟩ := Timed.step_act hs
  by_contra hne
  obtain ⟨z, hz⟩ := Option.ne_none_iff_exists'.mp hne
  have hpeer : z ≠ x := Action.timer_ne_leader hc hz hkept.role
  have hkey := hkept.run.staffed x hkept.role hkept.running z hpeer
  obtain ⟨r, hr, heq⟩ := List.mem_map.mp hkey
  obtain ⟨rfl, hterm⟩ : r.peer = z ∧ r.leaderTerm = (w.timed.cluster.raft x).currentTerm :=
    Prod.mk.inj heq
  have hrecent := (hkept.pace r hr (hterm.trans hkept.term)).recent
  have hmin := hkept.drawn.min_le r.peer
  have hlate := hdue r.peer hz
  omega

/-- A node that is sent a request of the highest term sets its deadline. -/
theorem hears (hkept : Kept cfg pace x t w) {h : History N} (hsim : Sim w.timed.cluster h)
    (hs : w.step cfg x (.act a draw) = some w') {r : Replicator N}
    (hr : r ∈ (w.timed.cluster.processes x).replicators) (hterm : r.leaderTerm = t)
    {q : AppendCall N} {reply : AppendEntriesReply} (hq : r.waiting = some q)
    (hreply : (q, reply) ∈ w'.timed.cluster.appendReplies) :
    (q, reply) ∈ w.timed.cluster.appendReplies ∨ w.mark r.peer ≤ w'.timed.contact r.peer := by
  obtain ⟨hs, -⟩ := Watch.step_act hs
  obtain ⟨hc, -, -, -, -, hcontact⟩ := Timed.step_act hs
  rcases Cluster.new_reply hc hreply with hold | ⟨k, rfl, hk⟩
  · exact Or.inl hold
  · obtain ⟨hargs, hdst⟩ := (hsim.nodes x).calls r hr q hq
    have hcurrent : ¬ q.args.term < (w.timed.cluster.raft q.dst).currentTerm := by
      have hle := hkept.below.nodes q.dst
      omega
    have hreset : w.timed.cluster.resets (.deliverAppend k) = some r.peer := by
      rw [hdst] at hcurrent
      simp [Cluster.resets, hk, hcurrent, hdst]
    rcases hcontact r.peer with ⟨-, -, hset⟩ | ⟨hnot, -⟩
    · rw [hset]
      exact Or.inr (hkept.mark_le r.peer)
    · exact absurd hreset hnot

theorem contact_mono (hkept : Kept cfg pace x t w)
    (hs : w.step cfg x (.act a draw) = some w') (y : Fin N) :
    w.timed.contact y ≤ w'.timed.contact y := by
  obtain ⟨hs, -⟩ := Watch.step_act hs
  have hpast := hkept.drawn.contact_le y
  rcases (Timed.step_act hs).2.2.2.2.2 y with ⟨-, -, heq⟩ | ⟨-, -, heq⟩
  · omega
  · omega

/-- A replicator that does not act stays in time. -/
theorem rest (hkept : Kept cfg pace x t w) {h : History N} (hsim : Sim w.timed.cluster h)
    (hs : w.step cfg x (.act a draw) = some w') {r : Replicator N}
    (hr : r ∈ (w.timed.cluster.processes x).replicators) (hterm : r.leaderTerm = t)
    (hstirs : w.timed.cluster.stirs x a ≠ some r.peer) : InPace cfg pace w' r := by
  obtain ⟨htimed, hmark⟩ := Watch.step_act hs
  have hsame : w'.mark r.peer = w.mark r.peer := by
    rcases hmark r.peer with ⟨heq, -⟩ | ⟨-, heq⟩
    · exact absurd heq hstirs
    · exact heq
  exact (hkept.pace r hr hterm).rest (Timed.step_act htimed).2.1 hsame (hkept.contact_mono hs _)
    fun q reply hq hreply ↦ hkept.hears hsim hs hr hterm hq hreply

/-- The replicators of the term of office stay in time. -/
theorem threads (hkept : Kept cfg pace x t w) (hok : w.Prompt cfg pace x (.act a draw))
    (hs : w.step cfg x (.act a draw) = some w') {h : History N} (hsim : Sim w.timed.cluster h)
    (hcalls : CallsOk w.timed.cluster) (hpeers : PeersOk x (w'.timed.cluster.processes x))
    {r' : Replicator N} (hr' : r' ∈ (w'.timed.cluster.processes x).replicators)
    (hterm' : r'.leaderTerm = t) : InPace cfg pace w' r' := by
  obtain ⟨htimed, hmark⟩ := Watch.step_act hs
  obtain ⟨hc, hnow, -, -, -, -⟩ := Timed.step_act htimed
  have hcontact := hkept.contact_mono hs
  have hkey := List.mem_map_of_mem (f := Replicator.key) hr'
  have hstaffed := hkept.run.staffed x hkept.role hkept.running r'.peer
    (hpeers.keys.peer_ne _ hkey)
  have hthreads := hsim.threadStep hc hok.1
  have hnodup := hpeers.keys.nodup
  have hstirred : ∀ {y : Fin N}, w.timed.cluster.stirs x a = some y →
      w'.mark y = w.timed.now := by
    intro y hy
    rcases hmark y with ⟨-, heq⟩ | ⟨hnot, -⟩
    · exact heq
    · exact absurd hy hnot
  generalize (w'.timed.cluster.processes x).replicators = l at hr' hnodup hthreads
  cases hthreads with
  | keep ha =>
      rcases List.mem_append.mp hr' with hold | hnew
      · exact hkept.rest hsim hs hold hterm' fun heq ↦ ha (Cluster.replicates_of_stirs heq)
      · -- the peer has a replicator already
        rw [List.map_append] at hnodup
        have hdisjoint := (List.nodup_append.mp hnodup).2.2 _ hstaffed _
          (List.mem_map_of_mem hnew)
        exact (hdisjoint (Prod.ext rfl (hkept.term.trans hterm'.symm))).elim
  | @send k r args hsends =>
      obtain ⟨-, -, hr⟩ := RaftNode.active_iff.mp hsends.active
      have hterm : r.leaderTerm = t := hr.symm.trans hkept.term
      have hstirs : w.timed.cluster.stirs x (.send x k) = some r.peer := by
        simp [Cluster.stirs, hsends.thread, hsends.active]
      rcases mem_set_or hsends.thread (by rfl) hnodup hr' with rfl | ⟨hold, hne⟩
      · refine (hkept.pace r (List.mem_of_getElem? hsends.thread) hterm).send hsends.idle hnow
          (hstirred hstirs) (hcontact _) fun reply hreply ↦ ?_
        rcases Cluster.new_reply hc hreply with hold | ⟨_, hother, -⟩
        · exact absurd (hcalls.replies _ hold) (lt_irrefl _)
        · cases hother
      · refine hkept.rest hsim hs hold hterm' fun heq ↦ hne ?_
        rw [hstirs] at heq
        exact Prod.ext (Option.some.inj heq).symm (hterm'.trans hterm.symm)
  | retire ha hr hretired =>
      refine hkept.rest hsim hs (List.eraseIdx_subset hr') hterm' ?_
      rcases ha with rfl | ⟨j, rfl⟩ | rfl
      · simp [Cluster.stirs, hr, hretired]
      · simp [Cluster.stirs, hr, hretired]
      · simp [Cluster.stirs]
  | @reply k j r q reply hr hq hreply hactive =>
      obtain ⟨-, -, hcurrent⟩ := RaftNode.active_iff.mp hactive
      have hterm : r.leaderTerm = t := hcurrent.symm.trans hkept.term
      have hstirs : w.timed.cluster.stirs x (.appendReply x k j) = some r.peer := by
        simp [Cluster.stirs, hr, hactive]
      rcases mem_set_or hr (by rfl) hnodup hr' with rfl | ⟨hold, hne⟩
      · exact (hkept.pace r (List.mem_of_getElem? hr) hterm).reply hq
          (Cluster.appendReplyTo_mem hreply) hnow (hstirred hstirs) (hcontact _)
      · refine hkept.rest hsim hs hold hterm' fun heq ↦ hne ?_
        rw [hstirs] at heq
        exact Prod.ext (Option.some.inj heq).symm (hterm'.trans hterm.symm)
  | depose hr hq hreply hactive hlater =>
      have hle := hkept.below.appendReplies _ (Cluster.appendReplyTo_mem hreply)
      exact absurd (hkept.term ▸ hlater) (Nat.not_lt.mpr hle)
  | failed hr => exact absurd rfl hok.2

theorem act (hkept : Kept cfg pace x t w)
    (hroom : cfg.heartbeatInterval + pace.slack + 2 * pace.roundTrip < cfg.electionTimeoutMin)
    (hok : w.Prompt cfg pace x (.act a draw)) (hs : w.step cfg x (.act a draw) = some w')
    (hb : w'.timed.cluster.TermsBounded) : Kept cfg pace x t w' := by
  have htimer := hkept.timer_none hroom hs
  obtain ⟨htimed, hmark⟩ := Watch.step_act hs
  obtain ⟨hc, hnow, -, -, -, -⟩ := Timed.step_act htimed
  have hrun' : AnyRun w'.timed.cluster := .step hkept.run trivial hc hb
  obtain ⟨h, hsim, hbook⟩ := hkept.run.exists_bookkept
  obtain ⟨h', hsim', hbook'⟩ := hrun'.exists_bookkept
  obtain ⟨hrole, hterm⟩ := hkept.below.leader_step hsim hbook.calls hkept.role hkept.term hc hok.1
  refine ⟨hrun', hkept.drawn.step htimed, hkept.below.step hsim hsim' htimer hc, hrole, hterm, ?_,
    fun y ↦ ?_, ?_⟩
  · rcases Cluster.raft_step hc hok.1 with
      ⟨-, applied, stopping, heq, rfl | ⟨rfl, -⟩, -⟩ | ⟨n, hop, heq⟩
    · rw [heq]
      exact hkept.running
    · exact absurd rfl hok.2
    · have hlog : (w.timed.cluster.raft x).log ≠ [] := by simp [(hsim.tracks x).log]
      rw [heq]
      exact ((Cluster.criticalSection hop).stopping hlog).trans hkept.running
  · have hpast := hkept.mark_le y
    rcases hmark y with ⟨-, heq⟩ | ⟨-, heq⟩
    · omega
    · omega
  · exact fun r hr hr' ↦ hkept.threads hok hs hsim hbook.calls (hbook'.peers x) hr hr'

end Kept

/-- Along a prompt run the leader stays in office. -/
theorem PromptRun.kept {w₀ : Watch N} (hkept : Kept cfg pace x t w₀)
    (hroom : cfg.heartbeatInterval + pace.slack + 2 * pace.roundTrip < cfg.electionTimeoutMin)
    (hrun : PromptRun cfg pace x w₀ w) : Kept cfg pace x t w := by
  induction hrun with
  | refl => exact hkept
  | @step w w' act _ hok hs hb ih =>
      cases act with
      | wait d =>
          obtain ⟨s, htimed, rfl⟩ := Option.map_eq_some_iff.mp hs
          obtain rfl := Option.some.inj htimed
          exact ih.wait hok
      | act a draw => exact ih.act hroom hok hs hb

/-- A leader of the highest term, whose peers have just been heard from and whose replicators
are idle, stays in office as long as its replicators are prompt, if the election timeout
leaves room for a heartbeat interval and two round trips. -/
theorem heard_leader_stays {ok : Timed N → TimedAction N → Prop} {s : Timed N}
    (hrun : TimedRun cfg ok s) (hbelow : s.cluster.Below t)
    (hrole : (s.cluster.raft x).role = .leader) (hterm : (s.cluster.raft x).currentTerm = t)
    (hstop : (s.cluster.raft x).stopping = false)
    (hidle : ∀ r ∈ (s.cluster.processes x).replicators, r.leaderTerm = t → r.waiting = none)
    (hheard : ∀ y ≠ x, s.now ≤ s.contact y + pace.roundTrip)
    (hroom : cfg.heartbeatInterval + pace.slack + 2 * pace.roundTrip < cfg.electionTimeoutMin)
    (hprompt : PromptRun cfg pace x ⟨s, fun _ ↦ s.now⟩ w) :
    (w.timed.cluster.raft x).role = .leader ∧ (w.timed.cluster.raft x).currentTerm = t ∧
      w.timed.cluster.Below t := by
  obtain ⟨h, hsim, hbook⟩ := hrun.run.exists_bookkept
  have hkept : Kept cfg pace x t ⟨s, fun _ ↦ s.now⟩ := by
    refine ⟨hrun.run, hrun.drawn, hbelow, hrole, hterm, hstop, fun _ ↦ le_rfl, fun r hr hr' ↦ ?_⟩
    have hrecent := hheard r.peer
      ((hbook.peers x).keys.peer_ne _ (List.mem_map_of_mem (f := Replicator.key) hr))
    refine ⟨Nat.le_add_right _ _, fun _ ↦ hrecent, ?_, fun q reply hq ↦ ?_⟩
    · show s.now ≤ s.contact r.peer + cfg.heartbeatInterval + pace.slack + pace.roundTrip
      omega
    · simp [hidle r hr hr'] at hq
  have hend := hprompt.kept hkept hroom
  exact ⟨hend.role, hend.term, hend.below⟩

theorem PromptRun.play {w₀ : Watch N} (hrun : PromptRun cfg pace x w₀ w)
    {acts : List (TimedAction N)} (hplay : w.play cfg pace x acts = some w') :
    PromptRun cfg pace x w₀ w' := by
  induction acts generalizing w with
  | nil =>
      obtain rfl : w = w' := by simpa [Watch.play] using hplay
      exact hrun
  | cons act acts ih =>
      rw [Watch.play] at hplay
      split_ifs at hplay with hok
      split at hplay
      · rename_i w₁ hs
        split_ifs at hplay with hb
        exact ih (.step hrun hok hs hb) hplay
      · simp at hplay

/-- With the default configuration, round trips of 100 ms and threads that are up to 5 ms late,
two heartbeats keep a leader in office for longer than an election timeout. -/
theorem heard_leader_stays_default : ∃ (s : Timed 2) (w : Watch 2),
    TimedRun .default (fun _ _ ↦ True) s ∧
    PromptRun .default ⟨5, 100⟩ 0 ⟨s, fun _ ↦ s.now⟩ w ∧ s.now + 360 = w.timed.now ∧
    (w.timed.cluster.raft 0).role = .leader ∧ (w.timed.cluster.raft 0).currentTerm = 1 ∧
    w.timed.cluster.Below 1 := by
  let elect : List (TimedAction 2) := [.wait 300, .act (.timeout 0) 300, .act (.deliverVote 0) 300,
    .act (.voteReply 0 0 0) 300]
  let beat : List (TimedAction 2) := [.wait 80, .act (.send 0 0) 300, .wait 50,
    .act (.deliverAppend 0) 300, .wait 50, .act (.appendReply 0 0 0) 300]
  have hplay : (Timed.play .default (fun _ _ ↦ True)
      ⟨Cluster.initial 2, 0, fun _ ↦ 300, fun _ ↦ 0⟩ elect).any
      (fun s ↦ ((∀ i, (s.cluster.raft i).currentTerm ≤ 1) ∧
          (∀ q ∈ s.cluster.voteRequests, q.args.term ≤ 1) ∧
          (∀ r ∈ s.cluster.voteReplies, r.2.term ≤ 1) ∧
          (∀ q ∈ s.cluster.appendRequests, q.args.term ≤ 1) ∧
          ∀ r ∈ s.cluster.appendReplies, r.2.term ≤ 1) ∧
        (s.cluster.raft 0).role = .leader ∧ (s.cluster.raft 0).currentTerm = 1 ∧
        (s.cluster.raft 0).stopping = false ∧
        (∀ r ∈ (s.cluster.processes 0).replicators, r.leaderTerm = 1 → r.waiting = none) ∧
        (∀ y ≠ 0, s.now ≤ s.contact y + 100) ∧
        ((Watch.mk s fun _ ↦ s.now).play .default ⟨5, 100⟩ 0 (beat ++ beat)).any
          (fun w ↦ s.now + 360 = w.timed.now) = true) = true := by
    decide +kernel
  simp only [Option.any_eq_true, decide_eq_true_eq] at hplay
  obtain ⟨s, hs, ⟨hnodes, hvotes, hgrants, hrequests, hreplies⟩, hrole, hterm, hstop, hidle, hheard,
    w, hw, hnow⟩ := hplay
  have hrun := TimedRun.play (.initial (by decide) (by decide) (by decide)) hs
  have hprompt := PromptRun.play .refl hw
  exact ⟨s, w, hrun, hprompt, hnow, heard_leader_stays hrun
    ⟨hnodes, hvotes, hgrants, hrequests, hreplies⟩ hrole hterm hstop hidle hheard (by decide)
    hprompt⟩

end Dkvs
