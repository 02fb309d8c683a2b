import Dkvs.Commitment.Safety
import Dkvs.Provenance
import Dkvs.Replication.Peers
import Dkvs.Rpc
import Dkvs.Storage.Promises

/-!
# How terms rise

A term comes into the world when a ticker finds its deadline passed. Everything else only
passes terms on, in messages or through the meta file. Until the next timeout no node and
no message goes beyond the highest term there is, and a leader of that term stays in office
unless its process ends.
-/

namespace Dkvs

open ReplicatedLog

variable {N : ℕ} {c c' : Cluster N} {h : History N} {i x : Fin N} {n n' n'' : RaftNode} {t : ℕ}
  {a : Action N}

/-- The node whose ticker an action runs. -/
def Action.timer : Action N → Option (Fin N)
  | .timeout i => some i
  | .crashDuring a _ => a.timer
  | _ => none

/-! ## What operations save -/

/-- The operation saves no term above `t`. -/
def SavesUpTo (t : ℕ) (n n' : RaftNode) : Prop :=
  ∃ es, n'.effects = n.effects ++ es ∧ ∀ u v, Effect.saveMeta u v ∈ es → u ≤ t

namespace SavesUpTo

theorem trans (hs : SavesUpTo t n n') (hs' : SavesUpTo t n' n'') : SavesUpTo t n n'' := by
  obtain ⟨es, hes, hle⟩ := hs
  obtain ⟨fs, hfs, hle'⟩ := hs'
  refine ⟨es ++ fs, by rw [hfs, hes, List.append_assoc], fun u v hmem ↦ ?_⟩
  rcases List.mem_append.mp hmem with hmem | hmem
  · exact hle u v hmem
  · exact hle' u v hmem

theorem of_keeps (hkeeps : KeepsPromise n n') : SavesUpTo t n n' := by
  obtain ⟨es, hes, hunsaved⟩ := hkeeps.effects
  refine ⟨es, hes, fun u v hmem ↦ ?_⟩
  have hsame := hunsaved _ hmem (u + 1, v)
  simp [Effect.saved] at hsame

theorem becomeFollower (n : RaftNode) {u : ℕ} (hu : u ≤ t) :
    SavesUpTo t n (n.becomeFollower u) := by
  have hnotices : ∀ u v, Effect.saveMeta u v ∉ n.retirement :=
    fun _ _ ↦ n.notices_retirement.notMem nofun
  rcases Nat.lt_or_ge n.currentTerm u with hlt | hle
  · refine ⟨_, by rw [RaftNode.becomeFollower_of_lt hlt], fun v w hmem ↦ ?_⟩
    rcases List.mem_cons.mp hmem with heq | hmem
    · exact (Effect.saveMeta.inj heq).1.trans_le hu
    · exact absurd hmem (hnotices v w)
  · exact ⟨_, by rw [RaftNode.becomeFollower_of_le hle], fun v w hmem ↦ absurd hmem (hnotices v w)⟩

theorem onRequestVote (hn : n.currentTerm ≤ t) {args : RequestVoteArgs} (hterm : args.term ≤ t) :
    SavesUpTo t n (n.onRequestVote args).1 := by
  rcases n.onRequestVote_cases args with ⟨-, hsame, -⟩ | ⟨-, m, hm, hcases⟩
  · rw [hsame]
    exact of_keeps (.refl n)
  · have hfirst : SavesUpTo t n m ∧ m.currentTerm ≤ t := by
      rw [hm]
      split_ifs with hlater
      · exact ⟨becomeFollower n hterm,
          (RaftNode.becomeFollower_currentTerm hlater.le).le.trans hterm⟩
      · exact ⟨of_keeps (.refl n), hn⟩
    rcases hcases with ⟨hnode, -⟩ | ⟨-, -, hnode⟩
    · rw [hnode]
      exact hfirst.1
    · refine hfirst.1.trans ⟨[.saveMeta m.currentTerm (toInt32 args.candidateId)], ?_, ?_⟩
      · rw [hnode]
      · rintro u v hmem
        obtain ⟨rfl, -⟩ : u = m.currentTerm ∧ v = toInt32 args.candidateId := by
          simpa using hmem
        exact hfirst.2

theorem onAppendEntries (n : RaftNode) {args : AppendEntriesArgs} (hterm : args.term ≤ t) :
    SavesUpTo t n (n.onAppendEntries args).1 := by
  have hheed : SavesUpTo t n (n.heed args) := by
    rw [RaftNode.heed]
    split_ifs with hcond
    · exact becomeFollower n hterm
    · exact of_keeps ⟨rfl, rfl, [], by simp, by simp [Unsaved]⟩
  rcases n.onAppendEntries_cases args with ⟨-, hsame, -⟩ | ⟨-, ⟨hnode, -⟩ | ⟨-, -, hnode⟩⟩
  · rw [hsame]
    exact of_keeps (.refl n)
  · rw [hnode]
    exact hheed
  · rw [hnode]
    exact hheed.trans (of_keeps ((KeepsPromise.mergeEntries _ _ _).trans
      (KeepsPromise.followCommit _ _)))

theorem onVoteReply (n : RaftNode) (args : RequestVoteArgs) {reply : RequestVoteReply}
    (hterm : reply.term ≤ t) : SavesUpTo t n (n.onVoteReply args reply) := by
  have hcount : KeepsPromise n { n with votesReceived := n.votesReceived + 1 } :=
    ⟨rfl, rfl, [], by simp, by simp [Unsaved]⟩
  rcases n.onVoteReply_cases args reply with hnode | ⟨-, hnode⟩ |
    ⟨-, -, -, ⟨-, hnode⟩ | ⟨-, hnode⟩⟩
  · rw [hnode]
    exact of_keeps (.refl n)
  · rw [hnode]
    exact becomeFollower n hterm
  · rw [hnode]
    exact of_keeps hcount
  · rw [hnode]
    exact of_keeps (hcount.trans (.becomeLeader _))

theorem onAppendReply (n : RaftNode) (peer leaderTerm : ℕ) (args : AppendEntriesArgs)
    {reply : AppendEntriesReply} (hterm : reply.term ≤ t) :
    SavesUpTo t n (n.onAppendReply peer leaderTerm args reply).1 := by
  rcases n.onAppendReply_cases peer leaderTerm args reply with hnode | ⟨-, hnode⟩ |
    ⟨-, -, ⟨-, next, hnode⟩ | ⟨next, hnode⟩⟩
  · rw [hnode]
    exact of_keeps (.refl n)
  · rw [hnode]
    exact becomeFollower n hterm
  · rw [hnode]
    refine of_keeps (KeepsPromise.trans ?_ (.advanceCommit _))
    exact ⟨rfl, rfl, [], by simp, by simp [Unsaved]⟩
  · rw [hnode]
    exact of_keeps ⟨rfl, rfl, [], by simp, by simp [Unsaved]⟩

end SavesUpTo

theorem DurableState.term_performAll {d : DurableState} (hd : d.currentTerm ≤ t)
    {es : List Effect} (hes : ∀ u v, Effect.saveMeta u v ∈ es → u ≤ t) :
    (d.performAll es).currentTerm ≤ t := by
  induction es generalizing d with
  | nil => exact hd
  | cons e es ih =>
      refine ih ?_ fun u v hmem ↦ hes u v (List.mem_cons_of_mem e hmem)
      cases e with
      | saveMeta u v => exact hes u v List.mem_cons_self
      | truncateFrom fromIndex =>
          rw [perform]
          split_ifs with hout
          · exact hd
          · exact hd
      | _ => exact hd

/-! ## The highest term -/

/-- No node and no message has a term above `t`. -/
structure Cluster.Below (t : ℕ) (c : Cluster N) : Prop where
  nodes : ∀ i, (c.raft i).currentTerm ≤ t
  voteRequests : ∀ q ∈ c.voteRequests, q.args.term ≤ t
  voteReplies : ∀ r ∈ c.voteReplies, r.2.term ≤ t
  appendRequests : ∀ q ∈ c.appendRequests, q.args.term ≤ t
  appendReplies : ∀ r ∈ c.appendReplies, r.2.term ≤ t

namespace Cluster.Below

theorem operation (hbelow : c.Below t) (ha : a.timer = none)
    (hop : c.operation a = some (i, n)) : SavesUpTo t (c.raft i) n := by
  cases Cluster.criticalSection hop with
  | timeout _ => simp [Action.timer] at ha
  | submit _ command => exact .of_keeps (.submit _ command)
  | execute _ cmd => exact .of_keeps (.submit _ cmd.encode)
  | @deliverVote k q hq =>
      exact .onRequestVote (hbelow.nodes q.dst)
        (hbelow.voteRequests q (List.mem_of_getElem? hq))
  | @deliverAppend k q hq =>
      exact .onAppendEntries _ (hbelow.appendRequests q (List.mem_of_getElem? hq))
  | @voteReply _ k j q reply hq hreply =>
      exact .onVoteReply _ q.args (hbelow.voteReplies _ (voteReplyTo_mem hreply))
  | @appendReply _ k j r q reply hr hq hreply =>
      exact .onAppendReply _ r.peer r.leaderTerm q.args
        (hbelow.appendReplies _ (appendReplyTo_mem hreply))

/-- Also a process that dies in the middle of an operation has no higher term on disk. -/
theorem storage (hbelow : c.Below t) (hsim : Sim c h) (ha : a.timer = none)
    (hs : c.step a = some c') (i : Fin N) : (c'.processes i).storage.currentTerm ≤ t := by
  have hold : ∀ j, (c.processes j).storage.currentTerm ≤ t := by
    intro j
    rw [hsim.storage_eq j]
    exact hbelow.nodes j
  rcases Cluster.storage_step hs with ⟨-, hsame⟩ | ⟨b, x, n, m, hop, hpart, hself, hother⟩
  · rw [hsame]
    exact hold i
  · have hb : b.timer = none := by
      rcases hpart with ⟨rfl, -⟩ | rfl
      · exact ha
      · exact ha
    by_cases hi : i = x
    · subst hi
      obtain ⟨es, hes, hle⟩ := hbelow.operation hb hop
      rw [(hsim.nodes i).idle, List.nil_append] at hes
      rw [hself, hes]
      exact DurableState.term_performAll (hold i) fun u v hmem ↦
        hle u v (List.mem_of_mem_take hmem)
    · rw [hother i hi]
      exact hold i

/-- Terms only rise through timeouts. -/
theorem step (hbelow : c.Below t) (hsim : Sim c h) {h' : History N} (hsim' : Sim c' h')
    (ha : a.timer = none) (hs : c.step a = some c') : c'.Below t := by
  have hvotes := hsim.votesStep hs
  have hcalls := Cluster.callsStep hs
  refine ⟨fun i ↦ ?_, fun q hq ↦ ?_, fun r hr ↦ ?_, fun q hq ↦ ?_, fun r hr ↦ ?_⟩
  · have hle := hbelow.storage hsim ha hs i
    rwa [hsim'.storage_eq i] at hle
  · rcases hvotes.requests q hq with hold | ⟨rfl, -⟩
    · exact hbelow.voteRequests q hold
    · simp [Action.timer] at ha
  · rcases hvotes.replies r hr with hold | ⟨hasked, hreply⟩
    · exact hbelow.voteReplies r hold
    · have hle := (c.raft r.1.dst).onRequestVote_reply_term r.1.args
      rw [← hreply] at hle
      exact hle.trans (max_le (hbelow.nodes _) (hbelow.voteRequests _ hasked))
  · rcases hcalls.requests q hq with hold | ⟨-, x, k, r, args, hsends, rfl⟩
    · exact hbelow.appendRequests q hold
    · obtain ⟨hterm, -, -⟩ := RaftNode.buildAppendEntries_fields hsends.request
      obtain ⟨-, -, hcurrent⟩ := RaftNode.active_iff.mp hsends.active
      show args.term ≤ t
      rw [hterm, ← hcurrent]
      exact hbelow.nodes x
  · rcases hcalls.replies r hr with hold | ⟨hasked, hreply⟩
    · exact hbelow.appendReplies r hold
    · have hlog : (c.raft r.1.dst).log ≠ [] := by simp [(hsim.tracks r.1.dst).log]
      have hle := (RaftNode.onAppendEntries_reply hlog r.1.args).1
      rw [← hreply] at hle
      exact hle.trans (max_le (hbelow.nodes _) (hbelow.appendRequests _ hasked))

end Cluster.Below

/-! ## What a step does to one consensus core -/

/-- The core of node `x` is left alone, except that it may be told to stop and that its
applier may go on. -/
def Cluster.Rests (c : Cluster N) (a : Action N) (c' : Cluster N) (x : Fin N) : Prop :=
  ∃ applied stopping, c'.raft x = { c.raft x with lastApplied := applied, stopping := stopping } ∧
    (stopping = (c.raft x).stopping ∨ a = .stopRaft x ∧ stopping = true) ∧
    (applied = (c.raft x).lastApplied ∨ a = .apply x)

theorem Cluster.Rests.of_eq (hsame : c'.raft x = c.raft x) : c.Rests a c' x :=
  ⟨(c.raft x).lastApplied, (c.raft x).stopping, by rw [hsame], Or.inl rfl, Or.inl rfl⟩

theorem Cluster.rests_setProcess {p : Process N} {applied : ℕ} {stopping : Bool}
    (hp : p.raft = { c.raft i with lastApplied := applied, stopping := stopping })
    (hstop : stopping = (c.raft i).stopping ∨ a = .stopRaft i ∧ stopping = true)
    (happlied : applied = (c.raft i).lastApplied ∨ a = .apply i) (x : Fin N) :
    c.Rests a (c.setProcess i p) x := by
  by_cases hx : x = i
  · subst hx
    exact ⟨applied, stopping, by rw [raft, setProcess_self, hp], hstop, happlied⟩
  · exact .of_eq (by rw [raft, setProcess_of_ne c hx])

/-- The operation of an action is completed on its node, and the other cores stay as they
are. -/
theorem Cluster.raft_operation (hs : c.step a = some c') (hop : c.operation a = some (i, n)) :
    c'.raft i = { n with effects := [] } ∧ ∀ x ≠ i, c'.raft x = c.raft x := by
  have hsettle : ∀ {d : Cluster N}, d.raft = (c.settle i n).raft →
      d.raft i = { n with effects := [] } ∧ ∀ x ≠ i, d.raft x = c.raft x := by
    intro d hd
    rw [hd]
    exact ⟨by rw [raft, settle_self], fun x hx ↦ by rw [raft, settle_of_ne c hx]⟩
  have hsubmit : ∀ (y : Fin N) (command : Bytes), (c.submitStep y command).raft =
      (c.settle y ((c.raft y).submit command).1).raft := by
    intro y command
    obtain ⟨-, -, -, hprocesses, -⟩ := Moves.submitStep c y command
    funext x
    rw [raft, hprocesses]
  cases Cluster.outcome hs with
  | timeout y =>
      rw [Cluster.step, hop] at hs
      exact hsettle (by rw [← Option.some.inj hs])
  | submit y command =>
      obtain ⟨rfl, rfl⟩ := Prod.mk.inj (Option.some.inj hop)
      exact hsettle (hsubmit y command)
  | execute y cmd =>
      obtain ⟨rfl, rfl⟩ := Prod.mk.inj (Option.some.inj hop)
      refine hsettle ?_
      rw [← hsubmit y cmd.encode]
      unfold Cluster.executeStep
      dsimp only
      split_ifs with hleader
      · funext x
        by_cases hx : x = y
        · subst hx
          simp [raft, updateProcess]
        · simp [raft, updateProcess, hx]
      · rfl
  | @deliverVote k q hq =>
      simp only [operation, hq, Option.bind_eq_bind, Option.bind_some, Option.some.injEq,
        Prod.mk.injEq] at hop
      obtain ⟨rfl, rfl⟩ := hop
      exact hsettle rfl
  | @deliverAppend k q hq =>
      simp only [operation, hq, Option.bind_eq_bind, Option.bind_some, Option.some.injEq,
        Prod.mk.injEq] at hop
      obtain ⟨rfl, rfl⟩ := hop
      exact hsettle rfl
  | @voteReply y k j q reply hq hreply =>
      simp only [operation, hq, hreply, Option.bind_eq_bind, Option.bind_some, Option.some.injEq,
        Prod.mk.injEq] at hop
      obtain ⟨rfl, rfl⟩ := hop
      refine ⟨?_, fun x hx ↦ ?_⟩
      · simp [voteReplyStep, raft, settle_self, dropVoteSender, updateProcess]
      · simp [voteReplyStep, raft, settle_of_ne _ hx, dropVoteSender, updateProcess, hx]
  | @appendReply y k j r q reply hr hq hreply =>
      simp only [operation, hr, hq, hreply, Option.bind_eq_bind, Option.bind_some,
        Option.some.injEq, Prod.mk.injEq] at hop
      obtain ⟨rfl, rfl⟩ := hop
      unfold appendReplyStep
      dsimp only
      split_ifs with hgoes
      · refine ⟨?_, fun x hx ↦ ?_⟩
        · simp [raft, settle_self, setReplicator, updateProcess]
        · simp [raft, settle_of_ne _ hx, setReplicator, updateProcess, hx]
      · refine ⟨?_, fun x hx ↦ ?_⟩
        · simp [raft, settle_self, dropReplicator, updateProcess]
        · simp [raft, settle_of_ne _ hx, dropReplicator, updateProcess, hx]
  | _ => simp [operation] at hop

/-- The core of a process that an action does not restart rests or has completed an
operation. -/
theorem Cluster.raft_step (hs : c.step a = some c') (hkeep : c.restarted a ≠ some x) :
    (∀ n, c.operation a ≠ some (x, n)) ∧ c.Rests a c' x ∨
      ∃ n, c.operation a = some (x, n) ∧ c'.raft x = { n with effects := [] } := by
  cases hop : c.operation a with
  | some p =>
      obtain ⟨i, n⟩ := p
      obtain ⟨hself, hother⟩ := Cluster.raft_operation hs hop
      by_cases hx : x = i
      · subst hx
        exact Or.inr ⟨n, rfl, hself⟩
      · refine Or.inl ⟨fun m heq ↦ hx ?_, .of_eq (hother x hx)⟩
        exact (congrArg Prod.fst (Option.some.inj heq)).symm
  | none =>
      refine Or.inl ⟨by simp, ?_⟩
      cases Cluster.outcome hs with
      | timeout y => simp [Cluster.step, hop] at hs
      | @deliverVote k q hq => simp [operation, hq] at hop
      | @deliverAppend k q hq => simp [operation, hq] at hop
      | @voteReply y k j q reply hq hreply => simp [operation, hq, hreply] at hop
      | @appendReply y k j r q reply hr hq hreply => simp [operation, hr, hq, hreply] at hop
      | submit y command => simp [operation] at hop
      | execute y cmd => simp [operation] at hop
      | appendFailed y k r =>
          unfold appendFailedStep
          split_ifs with hretired
          · exact rests_setProcess (by rfl) (Or.inl rfl) (Or.inl rfl) x
          · exact rests_setProcess (by rfl) (Or.inl rfl) (Or.inl rfl) x
      | crash y =>
          have hx : x ≠ y := fun heq ↦ hkeep (by rw [heq]; rfl)
          exact .of_eq (by simp [raft, restart, record, hx])
      | @crashDuring b y n m hb =>
          have hx : x ≠ y := fun heq ↦ hkeep (by simp [restarted, hb, heq])
          cases b with
          | _ => exact .of_eq (by simp [raft, consume, restart, record, hx])
      | apply happ => exact rests_setProcess (by rfl) (Or.inl rfl) (Or.inr rfl) x
      | stopRaft y => exact rests_setProcess (by rfl) (Or.inr ⟨rfl, rfl⟩) (Or.inl rfl) x
      | _ => exact rests_setProcess (by rfl) (Or.inl rfl) (Or.inl rfl) x

/-- No operation sets or clears the flag that ends the threads of a node. -/
theorem CriticalSection.stopping (hlog : (c.raft i).log ≠ []) (hop : CriticalSection c a i n) :
    n.stopping = (c.raft i).stopping := by
  have hlead : ∀ m : RaftNode, m.becomeLeader.stopping = m.stopping := by
    intro m
    obtain ⟨commit, found, es, -, hframe⟩ := m.becomeLeader_frame
    rw [hframe]
  have hfollow : ∀ (m : RaftNode) (u : ℕ), (m.becomeFollower u).stopping = m.stopping := by
    intro m u
    obtain ⟨_, _, _, _, _, heq⟩ := m.becomeFollower_frame u
    rw [heq]
  have hsubmit : ∀ command, ((c.raft i).submit command).1.stopping = (c.raft i).stopping := by
    intro command
    rcases (c.raft i).submit_frame command with hsame | ⟨-, commit, found, es, -, hframe⟩
    · rw [hsame]
    · rw [hframe]
  cases hop with
  | timeout _ =>
      rcases (c.raft i).startElection_cases with hwon | hasks
      · rw [hwon, hlead]
        rfl
      · rw [hasks]
        rfl
  | submit _ command => exact hsubmit command
  | execute _ cmd => exact hsubmit cmd.encode
  | @deliverVote k q hq =>
      obtain ⟨vote, es, -, hframe | ⟨-, hframe⟩⟩ := (c.raft q.dst).onRequestVote_frame q.args
      · rw [hframe]
      · rw [hframe]
  | @deliverAppend k q hq =>
      rcases RaftNode.onAppendEntries_frame hlog q.args with hsame |
        ⟨-, log, vote, commit, es, -, hframe⟩
      · rw [hsame]
      · rw [hframe]
  | @voteReply _ k j q reply hq hreply =>
      rcases (c.raft i).onVoteReply_cases q.args reply with hnode | ⟨-, hnode⟩ |
        ⟨-, -, -, ⟨-, hnode⟩ | ⟨-, hnode⟩⟩
      · rw [hnode]
      · rw [hnode, hfollow]
      · rw [hnode]
      · rw [hnode, hlead]
  | @appendReply _ k j r q reply hr hq hreply =>
      rcases (c.raft i).onAppendReply_frame r.peer r.leaderTerm q.args reply with hnode |
        ⟨-, hnode⟩ | ⟨-, -, ⟨-, commit, es, -, hframe⟩ | ⟨-, hframe⟩⟩
      · rw [hnode]
      · rw [hnode, hfollow]
      · rw [hframe]
      · rw [hframe]

/-- A leader keeps its office in an operation that does not meet a later term. -/
theorem CriticalSection.leader (hbelow : c.Below t) (hsim : Sim c h) (hcalls : CallsOk c)
    (hrole : (c.raft x).role = .leader) (hterm : (c.raft x).currentTerm = t)
    (hop : CriticalSection c a x n) : n.role = .leader ∧ n.currentTerm = t := by
  have hsubmit : ∀ command, ((c.raft x).submit command).1.role = .leader ∧
      ((c.raft x).submit command).1.currentTerm = t := by
    intro command
    rcases (c.raft x).submit_frame command with hsame | ⟨-, commit, found, es, -, hframe⟩
    · rw [hsame]
      exact ⟨hrole, hterm⟩
    · rw [hframe]
      exact ⟨hrole, hterm⟩
  cases hop with
  | timeout hidle => exact absurd (Or.inr hrole) hidle
  | submit _ command => exact hsubmit command
  | execute _ cmd => exact hsubmit cmd.encode
  | @deliverVote k q hq =>
      have hle := hbelow.voteRequests q (List.mem_of_getElem? hq)
      obtain ⟨vote, es, -, hframe | ⟨hlater, -⟩⟩ := (c.raft q.dst).onRequestVote_frame q.args
      · rw [hframe]
        exact ⟨hrole, hterm⟩
      · omega
  | @deliverAppend k q hq =>
      have hmem := List.mem_of_getElem? hq
      have hle := hbelow.appendRequests q hmem
      rcases Nat.lt_or_ge q.args.term t with hstale | hcurrent
      · rw [RaftNode.onAppendEntries, if_pos (hterm ▸ hstale)]
        exact ⟨hrole, hterm⟩
      · -- only the leader itself sends in its term, and not to itself
        have hsender := (hsim.wire.appendRequests q hmem).leader
        have hself := ((hsim.tracks q.dst).leads hrole).1
        rw [← (hsim.tracks q.dst).term, hterm, ← le_antisymm hle hcurrent, hsender] at hself
        exact absurd (Option.some.inj hself).symm (hcalls.requests q hmem).2.2
  | @voteReply _ k j q reply hq hreply =>
      have hle : reply.term ≤ t := hbelow.voteReplies _ (Cluster.voteReplyTo_mem hreply)
      rcases (c.raft x).onVoteReply_cases q.args reply with hnode | ⟨hlater, -⟩ | ⟨hcand, -⟩
      · rw [hnode]
        exact ⟨hrole, hterm⟩
      · omega
      · simp [hrole] at hcand
  | @appendReply _ k j r q reply hr hq hreply =>
      have hle : reply.term ≤ t := hbelow.appendReplies _ (Cluster.appendReplyTo_mem hreply)
      rcases (c.raft x).onAppendReply_frame r.peer r.leaderTerm q.args reply with hnode |
        ⟨hlater, -⟩ | ⟨-, -, ⟨-, commit, es, -, hframe⟩ | ⟨-, hframe⟩⟩
      · rw [hnode]
        exact ⟨hrole, hterm⟩
      · omega
      · rw [hframe]
        exact ⟨hrole, hterm⟩
      · rw [hframe]
        exact ⟨hrole, hterm⟩

/-- A leader of the highest term stays the leader of that term. -/
theorem Cluster.Below.leader_step (hbelow : c.Below t) (hsim : Sim c h) (hcalls : CallsOk c)
    (hrole : (c.raft x).role = .leader) (hterm : (c.raft x).currentTerm = t)
    (hs : c.step a = some c') (hkeep : c.restarted a ≠ some x) :
    (c'.raft x).role = .leader ∧ (c'.raft x).currentTerm = t := by
  rcases Cluster.raft_step hs hkeep with ⟨-, applied, stopping, heq, -⟩ | ⟨n, hop, heq⟩
  · rw [heq]
    exact ⟨hrole, hterm⟩
  · have hkept := (Cluster.criticalSection hop).leader hbelow hsim hcalls hrole hterm
    rw [heq]
    exact ⟨hkept.1, hkept.2⟩

end Dkvs
