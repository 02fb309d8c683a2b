import Dkvs.Simulation.Step

/-!
# What a step does to one process

A step of the cluster changes one process. What becomes of it is one of ten
things, and an invariant of single processes needs one lemma for each of them.
The requests and replies of the replicators and of the vote senders are followed
in the same way.
-/

namespace Dkvs

variable {N : ℕ} {c c' : Cluster N} {h : History N} {i : Fin N}

/-- The entry that node `x` applies in an event. -/
def appliedBy (x : Fin N) : Event N → Option LogEntry
  | .applied node _ term command => if node = x then some ⟨term, command⟩ else none
  | _ => none

/-- Nothing is applied. -/
def Silent (events : List (Event N)) : Prop := ∀ x, events.filterMap (appliedBy x) = []

theorem silent_eventOf (i : Fin N) (es : List Effect) :
    Silent (es.filterMap (Cluster.eventOf i)) := by
  intro x
  rw [List.filterMap_eq_nil_iff]
  intro e he
  obtain ⟨effect, -, heq⟩ := List.mem_filterMap.mp he
  cases effect with
  | becomeLeader term log =>
      obtain rfl : Event.becomeLeader i term log = e := by simpa [Cluster.eventOf] using heq
      rfl
  | advanceCommit term index log =>
      obtain rfl : Event.advanceCommit i term index log = e := by
        simpa [Cluster.eventOf] using heq
      rfl
  | _ => simp [Cluster.eventOf] at heq

theorem Silent.append {events events' : List (Event N)} (h : Silent events)
    (h' : Silent events') : Silent (events ++ events') := by
  intro x
  rw [List.filterMap_append, h x, h' x, List.append_nil]

/-- The state in which one critical section of node `i` ends. -/
inductive Operates (c : Cluster N) (i : Fin N) : RaftNode → Prop
  | startElection : Operates c i (c.raft i).startElection
  | submit (command : Bytes) : Operates c i ((c.raft i).submit command).1
  | onRequestVote {q : VoteCall N} (hq : q ∈ c.voteRequests) (hdst : q.dst = i) :
      Operates c i ((c.raft i).onRequestVote q.args).1
  | onAppendEntries {q : AppendCall N} (hq : q ∈ c.appendRequests) (hdst : q.dst = i) :
      Operates c i ((c.raft i).onAppendEntries q.args).1
  | onVoteReply {q : VoteCall N} {reply : RequestVoteReply}
      (hq : q ∈ (c.processes i).voteSenders) (hreply : (q, reply) ∈ c.voteReplies) :
      Operates c i ((c.raft i).onVoteReply q.args reply)
  | onAppendReply {r : Replicator N} {q : AppendCall N} {reply : AppendEntriesReply}
      (hr : r ∈ (c.processes i).replicators) (hq : r.waiting = some q)
      (hreply : (q, reply) ∈ c.appendReplies) :
      Operates c i ((c.raft i).onAppendReply r.peer r.leaderTerm q.args reply).1

/-- The critical sections that actions run, with their nodes and their outcomes. -/
inductive CriticalSection (c : Cluster N) : Action N → Fin N → RaftNode → Prop
  | timeout {i : Fin N} (hidle : ¬ ((c.raft i).stopping ∨ (c.raft i).role = .leader)) :
      CriticalSection c (.timeout i) i (c.raft i).startElection
  | submit (i : Fin N) (command : Bytes) :
      CriticalSection c (.submit i command) i ((c.raft i).submit command).1
  | execute (i : Fin N) (cmd : Command) :
      CriticalSection c (.execute i cmd) i ((c.raft i).submit cmd.encode).1
  | deliverVote {k : ℕ} {q : VoteCall N} (hq : c.voteRequests[k]? = some q) :
      CriticalSection c (.deliverVote k) q.dst ((c.raft q.dst).onRequestVote q.args).1
  | deliverAppend {k : ℕ} {q : AppendCall N} (hq : c.appendRequests[k]? = some q) :
      CriticalSection c (.deliverAppend k) q.dst ((c.raft q.dst).onAppendEntries q.args).1
  | voteReply {i : Fin N} {k j : ℕ} {q : VoteCall N} {reply : RequestVoteReply}
      (hq : (c.processes i).voteSenders[k]? = some q) (hreply : c.voteReplyTo q j = some reply) :
      CriticalSection c (.voteReply i k j) i ((c.raft i).onVoteReply q.args reply)
  | appendReply {i : Fin N} {k j : ℕ} {r : Replicator N} {q : AppendCall N}
      {reply : AppendEntriesReply} (hr : (c.processes i).replicators[k]? = some r)
      (hq : r.waiting = some q) (hreply : c.appendReplyTo q j = some reply) :
      CriticalSection c (.appendReply i k j) i
        ((c.raft i).onAppendReply r.peer r.leaderTerm q.args reply).1

theorem Cluster.criticalSection {a : Action N} {n : RaftNode}
    (hop : c.operation a = some (i, n)) : CriticalSection c a i n := by
  cases a with
  | timeout x =>
      simp only [Cluster.operation, Option.ite_none_left_eq_some, Option.some.injEq,
        Prod.mk.injEq] at hop
      obtain ⟨hidle, rfl, rfl⟩ := hop
      exact .timeout hidle
  | submit x command =>
      simp only [Cluster.operation, Option.some.injEq, Prod.mk.injEq] at hop
      obtain ⟨rfl, rfl⟩ := hop
      exact .submit x command
  | execute x cmd =>
      simp only [Cluster.operation, Option.some.injEq, Prod.mk.injEq] at hop
      obtain ⟨rfl, rfl⟩ := hop
      exact .execute x cmd
  | deliverVote k =>
      simp only [Cluster.operation, Option.bind_eq_bind, Option.bind_eq_some_iff,
        Option.some.injEq, Prod.mk.injEq] at hop
      obtain ⟨q, hq, rfl, rfl⟩ := hop
      exact .deliverVote hq
  | deliverAppend k =>
      simp only [Cluster.operation, Option.bind_eq_bind, Option.bind_eq_some_iff,
        Option.some.injEq, Prod.mk.injEq] at hop
      obtain ⟨q, hq, rfl, rfl⟩ := hop
      exact .deliverAppend hq
  | voteReply x k j =>
      simp only [Cluster.operation, Option.bind_eq_bind, Option.bind_eq_some_iff,
        Option.some.injEq, Prod.mk.injEq] at hop
      obtain ⟨q, hq, reply, hreply, rfl, rfl⟩ := hop
      exact .voteReply hq hreply
  | appendReply x k j =>
      simp only [Cluster.operation, Option.bind_eq_bind, Option.bind_eq_some_iff,
        Option.some.injEq, Prod.mk.injEq] at hop
      obtain ⟨r, hr, q, hq, reply, hreply, rfl, rfl⟩ := hop
      exact .appendReply hr hq hreply
  | _ => simp [Cluster.operation] at hop

/-- The peer and the term of office a replicator works for. -/
def Replicator.key (r : Replicator N) : Fin N × ℕ := (r.peer, r.leaderTerm)

/-- What is left of the replicators of a process: some may have ended, and some
may have ended their call. -/
structure Threads (old new : List (Replicator N)) : Prop where
  keys : (new.map Replicator.key).Sublist (old.map Replicator.key)
  waiting : ∀ r ∈ new, r ∈ old ∨ r.waiting = none

namespace Threads

variable {old : List (Replicator N)}

theorem refl (old : List (Replicator N)) : Threads old old :=
  ⟨.refl _, fun _ hr ↦ Or.inl hr⟩

theorem eraseIdx (old : List (Replicator N)) (k : ℕ) : Threads old (old.eraseIdx k) :=
  ⟨(List.eraseIdx_sublist old k).map _, fun _ hr ↦ Or.inl (List.eraseIdx_subset hr)⟩

theorem set_map_key {k : ℕ} {r : Replicator N} (hr : old[k]? = some r)
    (waiting : Option (AppendCall N)) :
    (old.set k { r with waiting := waiting }).map Replicator.key = old.map Replicator.key := by
  have hkey : (old.map Replicator.key)[k]? = some (Replicator.key r) := by
    rw [List.getElem?_map, hr, Option.map_some]
  rw [List.map_set]
  apply List.ext_getElem?
  intro m
  rw [List.getElem?_set]
  split_ifs with hm hlt
  · rw [← hm, hkey]
    rfl
  · rw [← hm, List.getElem?_eq_none (Nat.le_of_not_lt hlt)]
  · rfl

theorem set {k : ℕ} {r : Replicator N} (hr : old[k]? = some r) :
    Threads old (old.set k { r with waiting := none }) := by
  refine ⟨?_, fun r' hr' ↦ ?_⟩
  · rw [set_map_key hr none]
  · rcases List.mem_or_eq_of_mem_set hr' with hold | rfl
    · exact Or.inl hold
    · exact Or.inr rfl

end Threads

/-- The `k`-th replicator of node `i` is about to send `args`. -/
structure Sends (c : Cluster N) (i : Fin N) (k : ℕ) (r : Replicator N)
    (args : AppendEntriesArgs) : Prop where
  thread : (c.processes i).replicators[k]? = some r
  idle : r.waiting = none
  active : ¬ (c.raft i).replicatorRetired r.leaderTerm
  request : (c.raft i).buildAppendEntries r.peer r.leaderTerm = some args

/-- What becomes of process `i`, and the events that are recorded. -/
inductive Move (c : Cluster N) (i : Fin N) : Process N → List (Event N) → Prop
  | operate {n : RaftNode} (hop : Operates c i n) (voteSenders : List (VoteCall N))
      {replicators : List (Replicator N)}
      (hthreads : Threads (c.processes i).replicators replicators)
      {events : List (Event N)} (hsilent : Silent events)
      (hevents : n.effects.filterMap (Cluster.eventOf i) ⊆ events) :
      Move c i { c.processes i with
        raft := { n with effects := [] }
        storage := (c.processes i).storage.performAll n.effects
        voteSenders := voteSenders
        replicators := replicators ++ n.effects.filterMap Cluster.replicatorOf } events
  /-- A handler submits its command and parks. -/
  | park {cmd : Command} (hleader : ((c.raft i).submit cmd.encode).2.isLeader = true)
      (voteSenders : List (VoteCall N)) {events : List (Event N)} (hsilent : Silent events) :
      Move c i { c.processes i with
        raft := { ((c.raft i).submit cmd.encode).1 with effects := [] }
        storage := (c.processes i).storage.performAll ((c.raft i).submit cmd.encode).1.effects
        waiters := emplaceWaiter (c.processes i).waiters ((c.raft i).submit cmd.encode).2.index
        handlers := (c.processes i).handlers ++ [⟨((c.raft i).submit cmd.encode).2.index,
          ((c.raft i).submit cmd.encode).2.term, cmd⟩]
        voteSenders := voteSenders
        replicators := (c.processes i).replicators ++
          ((c.raft i).submit cmd.encode).1.effects.filterMap Cluster.replicatorOf } events
  | resume {k : ℕ} {handler : Handler} (hmem : (c.processes i).handlers[k]? = some handler) :
      Move c i { c.processes i with
        waiters := (resume (c.processes i).stopping (c.processes i).waiters handler).2
        handlers := (c.processes i).handlers.eraseIdx k }
        [.answered i handler (resume (c.processes i).stopping (c.processes i).waiters handler).1]
  /-- Only the threads that talk to other nodes change. -/
  | threads (voteSenders : List (VoteCall N)) {replicators : List (Replicator N)}
      (hthreads : Threads (c.processes i).replicators replicators) :
      Move c i { c.processes i with voteSenders := voteSenders, replicators := replicators } []
  | send {k : ℕ} {r : Replicator N} {args : AppendEntriesArgs} (hsends : Sends c i k r args) :
      Move c i { c.processes i with
        replicators := (c.processes i).replicators.set k
          { r with waiting := some ⟨c.nextCall, i, r.peer, args⟩ } } []
  | fetch {entry : LogEntry}
      (hentry : (c.raft i).log[(c.raft i).lastApplied + 1]? = some entry) :
      Move c i { c.processes i with applying := some ((c.raft i).lastApplied + 1, entry) } []
  | apply {idx : ℕ} {entry : LogEntry} (happ : (c.processes i).applying = some (idx, entry)) :
      Move c i { c.processes i with
        applying := none
        store := (onApply (c.processes i).store (c.processes i).waiters idx entry.term
          entry.command).1
        waiters := (onApply (c.processes i).store (c.processes i).waiters idx entry.term
          entry.command).2
        raft := { c.raft i with lastApplied := idx } } [.applied i idx entry.term entry.command]
  | stopServer : Move c i { c.processes i with stopping := true } []
  | stopRaft : Move c i { c.processes i with raft := { c.raft i with stopping := true } } []
  | restart (storage : DurableState) {events : List (Event N)} (hsilent : Silent events) :
      Move c i (Process.boot i storage) events

/-- The step from `c` to `c'` runs on process `i`. -/
structure Moves (c c' : Cluster N) (i : Fin N) (events : List (Event N)) : Prop where
  move : Move c i (c'.processes i) events
  other : ∀ {j}, j ≠ i → c'.processes j = c.processes j
  trace : c'.trace = c.trace ++ events

namespace Moves

theorem operate {n : RaftNode} {voteSenders : List (VoteCall N)}
    {replicators : List (Replicator N)} {events : List (Event N)} (hop : Operates c i n)
    (hthreads : Threads (c.processes i).replicators replicators)
    (hprocess : c'.processes i = { c.processes i with
      raft := { n with effects := [] }
      storage := (c.processes i).storage.performAll n.effects
      voteSenders := voteSenders
      replicators := replicators ++ n.effects.filterMap Cluster.replicatorOf })
    (hother : ∀ {j}, j ≠ i → c'.processes j = c.processes j)
    (htrace : c'.trace = c.trace ++ events) (hsilent : Silent events)
    (hevents : n.effects.filterMap (Cluster.eventOf i) ⊆ events) : Moves c c' i events where
  move := by
    rw [hprocess]
    exact .operate hop _ hthreads hsilent hevents
  other := hother
  trace := htrace

theorem settle {n : RaftNode} (hop : Operates c i n) :
    Moves c (c.settle i n) i (n.effects.filterMap (Cluster.eventOf i)) :=
  operate hop (.refl _) (Cluster.settle_self c i n) (fun hj ↦ Cluster.settle_of_ne c hj n) rfl
    (silent_eventOf i _) (List.Subset.refl _)

/-- An operation of a thread that has just received a reply. -/
theorem settle_threads {n : RaftNode} (hop : Operates c i n) (voteSenders : List (VoteCall N))
    {replicators : List (Replicator N)}
    (hthreads : Threads (c.processes i).replicators replicators) :
    Moves c ((c.setProcess i { c.processes i with
      voteSenders := voteSenders, replicators := replicators }).settle i n) i
      (n.effects.filterMap (Cluster.eventOf i)) := by
  refine ⟨?_, fun {j} hj ↦ ?_, rfl⟩
  · rw [Cluster.settle_self, Cluster.setProcess_self]
    exact .operate hop _ hthreads (silent_eventOf i _) (List.Subset.refl _)
  · rw [Cluster.settle_of_ne _ hj, Cluster.setProcess_of_ne _ hj]

theorem record {p : Process N} {events : List (Event N)} (hmove : Move c i p events) :
    Moves c ((c.setProcess i p).record events) i events where
  move := by simpa [Cluster.record] using hmove
  other hj := by simp [Cluster.record, hj]
  trace := rfl

theorem setProcess {p : Process N} (hmove : Move c i p []) : Moves c (c.setProcess i p) i [] := by
  have hmoves := record hmove
  rwa [Cluster.record_nil] at hmoves

/-- The network may change as well. -/
theorem congr {c₁ : Cluster N} {events : List (Event N)} (hmoves : Moves c c' i events)
    (hprocesses : c₁.processes = c'.processes) (htrace : c₁.trace = c'.trace) :
    Moves c c₁ i events := by
  refine ⟨?_, ?_, ?_⟩
  · rw [hprocesses]
    exact hmoves.move
  · rw [hprocesses]
    exact hmoves.other
  · rw [htrace]
    exact hmoves.trace

theorem submitStep (c : Cluster N) (i : Fin N) (command : Bytes) :
    ∃ events, Silent events ∧
      ((c.raft i).submit command).1.effects.filterMap (Cluster.eventOf i) ⊆ events ∧
      (c.submitStep i command).processes = (c.settle i ((c.raft i).submit command).1).processes ∧
      (c.submitStep i command).trace = c.trace ++ events := by
  have hsilent := silent_eventOf i ((c.raft i).submit command).1.effects
  unfold Cluster.submitStep
  dsimp only
  split_ifs with hleader
  · refine ⟨_ ++ [.submitted i ((c.raft i).submit command).2.index
      ((c.raft i).submit command).2.term command], hsilent.append fun x ↦ rfl,
      List.subset_append_left _ _, rfl, ?_⟩
    simp [Cluster.record]
  · exact ⟨_, hsilent, List.Subset.refl _, rfl, rfl⟩

theorem executeStep (c : Cluster N) (i : Fin N) (cmd : Command) :
    ∃ events, Moves c (c.executeStep i cmd) i events := by
  obtain ⟨events, hsilent, hevents, hprocesses, htrace⟩ := submitStep c i cmd.encode
  have hself := Cluster.settle_self c i ((c.raft i).submit cmd.encode).1
  have hother : ∀ {j}, j ≠ i → (c.submitStep i cmd.encode).processes j = c.processes j := by
    intro j hj
    rw [hprocesses, Cluster.settle_of_ne c hj]
  unfold Cluster.executeStep
  dsimp only
  split_ifs with hleader
  · refine ⟨events, ?_, ?_, htrace⟩
    · rw [Cluster.updateProcess, Cluster.setProcess_self, hprocesses, hself]
      exact .park hleader _ hsilent
    · intro j hj
      rw [Cluster.updateProcess, Cluster.setProcess_of_ne _ hj, hother hj]
  · refine ⟨events ++ [.refused i cmd (refuse i N ((c.raft i).submit cmd.encode).2)],
      operate (.submit cmd.encode) (.refl _) ((congrFun hprocesses i).trans hself) hother ?_
        (hsilent.append fun x ↦ rfl) (List.subset_append_of_subset_left _ hevents)⟩
    simp [Cluster.record, htrace]

theorem restart (c : Cluster N) (i : Fin N) (effects : List Effect) :
    Moves c (c.restart i effects) i (effects.filterMap (Cluster.eventOf i)) :=
  record (.restart _ (silent_eventOf i effects))

end Moves

/-- A replicator retires, or it puts its request on the wire. -/
theorem Cluster.send_cases {k : ℕ} (hs : c.step (.send i k) = some c') :
    c' = c.dropReplicator i k ∨ ∃ r args, Sends c i k r args ∧
      c' = { c.setReplicator i k { r with waiting := some ⟨c.nextCall, i, r.peer, args⟩ } with
        appendRequests := c.appendRequests ++ [⟨c.nextCall, i, r.peer, args⟩]
        nextCall := c.nextCall + 1 } := by
  simp only [Cluster.step, Option.bind_eq_bind, Option.bind_eq_some_iff,
    Option.ite_none_left_eq_some] at hs
  obtain ⟨r, hr, hidle, hsend⟩ := hs
  rw [Cluster.sendStep] at hsend
  split_ifs at hsend with hretired
  · exact Or.inl (Option.some.inj hsend).symm
  · simp only [Option.bind_eq_bind, Option.bind_eq_some_iff, Option.some.injEq] at hsend
    obtain ⟨args, hargs, rfl⟩ := hsend
    exact Or.inr ⟨r, args, ⟨hr, by simpa using hidle, hretired, hargs⟩, rfl⟩

theorem Cluster.appendFailed_cases {k : ℕ} (hs : c.step (.appendFailed i k) = some c') :
    ∃ r, (c.processes i).replicators[k]? = some r ∧ c' = c.appendFailedStep i k r := by
  simp only [Cluster.step, Option.bind_eq_bind, Option.bind_eq_some_iff,
    Option.ite_none_right_eq_some, Option.some.injEq] at hs
  obtain ⟨r, hr, -, rfl⟩ := hs
  exact ⟨r, hr, rfl⟩

theorem Moves.sendStep {k : ℕ} (hs : c.step (.send i k) = some c') : Moves c c' i [] := by
  rcases Cluster.send_cases hs with rfl | ⟨r, args, hsends, rfl⟩
  · exact .setProcess (.threads _ (.eraseIdx _ k))
  · exact (Moves.setProcess (.send hsends)).congr rfl rfl

theorem Moves.appendFailedStep {k : ℕ} (hs : c.step (.appendFailed i k) = some c') :
    Moves c c' i [] := by
  obtain ⟨r, hr, rfl⟩ := Cluster.appendFailed_cases hs
  unfold Cluster.appendFailedStep
  split_ifs with hretired
  · exact .setProcess (.threads _ (.eraseIdx _ k))
  · exact .setProcess (.threads _ (.set hr))

/-- Every step runs on one process. -/
theorem Cluster.exists_moves {a : Action N} (hs : c.step a = some c') :
    ∃ i events, Moves c c' i events := by
  cases Cluster.outcome hs with
  | timeout i => exact ⟨i, _, .settle .startElection⟩
  | submit i command =>
      obtain ⟨events, hsilent, hevents, hprocesses, htrace⟩ := Moves.submitStep c i command
      refine ⟨i, events, .operate (.submit command) (.refl _)
        ((congrFun hprocesses i).trans (Cluster.settle_self c i _)) (fun {j} hj ↦ ?_) htrace
        hsilent hevents⟩
      rw [hprocesses, Cluster.settle_of_ne c hj]
  | execute i cmd => exact ⟨i, Moves.executeStep c i cmd⟩
  | @resume i k handler hmem => exact ⟨i, _, .record (.resume hmem)⟩
  | retire i k => exact ⟨i, _, Moves.sendStep hs⟩
  | @send i k r args hrole hterm hargs => exact ⟨i, _, Moves.sendStep hs⟩
  | @deliverVote k q hq =>
      exact ⟨q.dst, _, (Moves.settle (.onRequestVote (List.mem_of_getElem? hq) rfl)).congr rfl rfl⟩
  | @deliverAppend k q hq =>
      have hop := Operates.onAppendEntries (List.mem_of_getElem? hq) rfl
      exact ⟨q.dst, _, (Moves.settle hop).congr rfl rfl⟩
  | @voteReply i k j q reply hq hreply =>
      have hop := Operates.onVoteReply (List.mem_of_getElem? hq) (Cluster.voteReplyTo_mem hreply)
      exact ⟨i, _, (Moves.settle_threads hop _ (.refl _)).congr rfl rfl⟩
  | voteFailed i k => exact ⟨i, _, .setProcess (.threads _ (.refl _))⟩
  | @appendReply i k j r q reply hr hq hreply =>
      have hop := Operates.onAppendReply (List.mem_of_getElem? hr) hq
        (Cluster.appendReplyTo_mem hreply)
      unfold Cluster.appendReplyStep
      dsimp only
      split_ifs with hgoes
      · exact ⟨i, _, (Moves.settle_threads hop _ (.set hr)).congr rfl rfl⟩
      · exact ⟨i, _, (Moves.settle_threads hop _ (.eraseIdx _ k)).congr rfl rfl⟩
  | appendFailed i k r => exact ⟨i, _, Moves.appendFailedStep hs⟩
  | @fetch i entry hpending hentry => exact ⟨i, _, .setProcess (.fetch hentry)⟩
  | @apply i idx entry happ => exact ⟨i, _, .record (.apply happ)⟩
  | stopServer i => exact ⟨i, _, .setProcess .stopServer⟩
  | stopRaft i => exact ⟨i, _, .setProcess .stopRaft⟩
  | crash i => exact ⟨i, _, Moves.restart c i []⟩
  | @crashDuring a i n m hop =>
      refine ⟨i, _, (Moves.restart c i (n.effects.take m)).congr ?_ ?_⟩
      · cases a with
        | _ => rfl
      · cases a with
        | _ => rfl

/-- What a step does to the calls of the replicators. -/
structure CallsStep (c c' : Cluster N) : Prop where
  next_le : c.nextCall ≤ c'.nextCall
  requests : ∀ q ∈ c'.appendRequests, q ∈ c.appendRequests ∨
    c'.nextCall = c.nextCall + 1 ∧ ∃ i k r args, Sends c i k r args ∧
      q = ⟨c.nextCall, i, r.peer, args⟩
  replies : ∀ r ∈ c'.appendReplies, r ∈ c.appendReplies ∨
    r.1 ∈ c.appendRequests ∧ r.2 = ((c.raft r.1.dst).onAppendEntries r.1.args).2

namespace CallsStep

theorem of_subset (hnext : c'.nextCall = c.nextCall)
    (hrequests : c'.appendRequests ⊆ c.appendRequests)
    (hreplies : c'.appendReplies ⊆ c.appendReplies) : CallsStep c c' :=
  ⟨hnext.ge, fun _ hq ↦ Or.inl (hrequests hq), fun _ hr ↦ Or.inl (hreplies hr)⟩

theorem of_eq (hnext : c'.nextCall = c.nextCall) (hrequests : c'.appendRequests = c.appendRequests)
    (hreplies : c'.appendReplies = c.appendReplies) : CallsStep c c' :=
  of_subset hnext (hrequests ▸ List.Subset.refl _) (hreplies ▸ List.Subset.refl _)

theorem submitStep (c : Cluster N) (i : Fin N) (command : Bytes) :
    (c.submitStep i command).nextCall = c.nextCall ∧
      (c.submitStep i command).appendRequests = c.appendRequests ∧
      (c.submitStep i command).appendReplies = c.appendReplies := by
  unfold Cluster.submitStep
  dsimp only
  split_ifs with hleader
  · exact ⟨rfl, rfl, rfl⟩
  · exact ⟨rfl, rfl, rfl⟩

theorem executeStep (c : Cluster N) (i : Fin N) (cmd : Command) :
    CallsStep c (c.executeStep i cmd) := by
  obtain ⟨hnext, hrequests, hreplies⟩ := submitStep c i cmd.encode
  unfold Cluster.executeStep
  dsimp only
  split_ifs with hleader
  · exact of_eq hnext hrequests hreplies
  · exact of_eq hnext hrequests hreplies

theorem sendStep {k : ℕ} (hs : c.step (.send i k) = some c') : CallsStep c c' := by
  rcases Cluster.send_cases hs with rfl | ⟨r, args, hsends, rfl⟩
  · exact of_eq rfl rfl rfl
  · refine ⟨Nat.le_succ _, fun q hq ↦ ?_, fun _ hr ↦ Or.inl hr⟩
    rcases List.mem_append.mp hq with hold | hnew
    · exact Or.inl hold
    · exact Or.inr ⟨rfl, i, k, r, args, hsends, List.mem_singleton.mp hnew⟩

theorem appendReplyStep (c : Cluster N) (i : Fin N) (k j : ℕ) (r : Replicator N)
    (q : AppendCall N) (reply : AppendEntriesReply) :
    CallsStep c (c.appendReplyStep i k j r q reply) := by
  unfold Cluster.appendReplyStep
  dsimp only
  split_ifs with hgoes
  · exact of_subset rfl (List.Subset.refl _) (List.eraseIdx_subset)
  · exact of_subset rfl (List.Subset.refl _) (List.eraseIdx_subset)

end CallsStep

theorem Cluster.callsStep {a : Action N} (hs : c.step a = some c') : CallsStep c c' := by
  cases Cluster.outcome hs with
  | submit i command =>
      obtain ⟨hnext, hrequests, hreplies⟩ := CallsStep.submitStep c i command
      exact .of_eq hnext hrequests hreplies
  | execute i cmd => exact .executeStep c i cmd
  | retire i k => exact .sendStep hs
  | @send i k r args hrole hterm hargs => exact .sendStep hs
  | @deliverAppend k q hq =>
      refine ⟨le_rfl, fun _ hq' ↦ Or.inl (List.eraseIdx_subset hq'), fun r hr ↦ ?_⟩
      rcases List.mem_append.mp hr with hold | hnew
      · exact Or.inl hold
      · obtain rfl := List.mem_singleton.mp hnew
        exact Or.inr ⟨List.mem_of_getElem? hq, rfl⟩
  | @appendReply i k j r q reply hr hq hreply => exact .appendReplyStep c i k j r q reply
  | appendFailed i k r =>
      unfold Cluster.appendFailedStep
      split_ifs with hretired
      · exact .of_eq rfl rfl rfl
      · exact .of_eq rfl rfl rfl
  | @crashDuring a i n m hop =>
      cases a with
      | deliverAppend k =>
          exact .of_subset rfl (List.eraseIdx_subset) (List.Subset.refl _)
      | _ => exact .of_eq rfl rfl rfl
  | _ => exact .of_eq rfl rfl rfl

/-- What a step does to the calls of the vote senders. -/
structure VotesStep (c : Cluster N) (a : Action N) (c' : Cluster N) : Prop where
  requests : ∀ q ∈ c'.voteRequests, q ∈ c.voteRequests ∨
    a = .timeout q.src ∧ q.args = (c.raft q.src).stand.voteRequest
  replies : ∀ r ∈ c'.voteReplies, r ∈ c.voteReplies ∨
    r.1 ∈ c.voteRequests ∧ r.2 = ((c.raft r.1.dst).onRequestVote r.1.args).2

namespace VotesStep

variable {a : Action N}

theorem of_subset (hrequests : c'.voteRequests ⊆ c.voteRequests)
    (hreplies : c'.voteReplies ⊆ c.voteReplies) : VotesStep c a c' :=
  ⟨fun _ hq ↦ Or.inl (hrequests hq), fun _ hr ↦ Or.inl (hreplies hr)⟩

theorem of_eq (hrequests : c'.voteRequests = c.voteRequests)
    (hreplies : c'.voteReplies = c.voteReplies) : VotesStep c a c' :=
  of_subset (hrequests ▸ List.Subset.refl _) (hreplies ▸ List.Subset.refl _)

/-- An operation that starts no vote sender asks nobody. -/
theorem settle_voteRequests (c : Cluster N) (i : Fin N) {n n₀ : RaftNode}
    (hidle : n₀.effects = []) (hsteady : ∃ es, n.effects = n₀.effects ++ es ∧
      ∀ peer args, Effect.voteSender peer args ∉ es) :
    (c.settle i n).voteRequests = c.voteRequests := by
  obtain ⟨es, hes, hquiet⟩ := hsteady
  rw [hidle, List.nil_append] at hes
  show c.voteRequests ++ n.effects.filterMap (Cluster.voteCallOf i) = c.voteRequests
  rw [hes, calls_eq_nil hquiet, List.append_nil]

theorem submitStep (hidle : (c.raft i).effects = []) (command : Bytes) :
    (c.submitStep i command).voteRequests = c.voteRequests ∧
      (c.submitStep i command).voteReplies = c.voteReplies := by
  have hsettle := settle_voteRequests c i hidle (Steady.submit (c.raft i) command).effects
  unfold Cluster.submitStep
  dsimp only
  split_ifs with hleader
  · exact ⟨hsettle, rfl⟩
  · exact ⟨hsettle, rfl⟩

theorem executeStep (hidle : (c.raft i).effects = []) (cmd : Command) :
    VotesStep c a (c.executeStep i cmd) := by
  obtain ⟨hrequests, hreplies⟩ := submitStep hidle cmd.encode
  unfold Cluster.executeStep
  dsimp only
  split_ifs with hleader
  · exact of_eq hrequests hreplies
  · exact of_eq hrequests hreplies

theorem appendReplyStep (hidle : (c.raft i).effects = []) (k j : ℕ) (r : Replicator N)
    (q : AppendCall N) (reply : AppendEntriesReply) :
    VotesStep c a (c.appendReplyStep i k j r q reply) := by
  have hsteady := (Steady.onAppendReply (c.raft i) r.peer r.leaderTerm q.args reply).effects
  unfold Cluster.appendReplyStep
  dsimp only
  split_ifs with hgoes
  · exact of_eq (settle_voteRequests _ i hidle hsteady) rfl
  · exact of_eq (settle_voteRequests _ i hidle hsteady) rfl

theorem timeout (hsim : Sim c h) (i : Fin N) :
    VotesStep c (.timeout i) (c.settle i (c.raft i).startElection) := by
  refine ⟨fun q hq ↦ ?_, fun _ hr ↦ Or.inl hr⟩
  rcases List.mem_append.mp hq with hold | hnew
  · exact Or.inl hold
  · rcases startElection_calls (hsim.tracks i).id (hsim.tracks i).size (hsim.nodes i).idle with
      ⟨-, hnone⟩ | ⟨-, hcalls⟩
    · rw [hnone] at hnew
      simp at hnew
    · rw [hcalls] at hnew
      obtain ⟨x, -, rfl⟩ := List.mem_map.mp hnew
      exact Or.inr ⟨rfl, rfl⟩

end VotesStep

theorem Sim.votesStep (hsim : Sim c h) {a : Action N} (hs : c.step a = some c') :
    VotesStep c a c' := by
  have hidle : ∀ j, (c.raft j).effects = [] := fun j ↦ (hsim.nodes j).idle
  cases Cluster.outcome hs with
  | timeout i => exact .timeout hsim i
  | submit i command =>
      obtain ⟨hrequests, hreplies⟩ := VotesStep.submitStep (hidle i) command
      exact .of_eq hrequests hreplies
  | execute i cmd => exact .executeStep (hidle i) cmd
  | @deliverVote k q hq =>
      have hsame := VotesStep.settle_voteRequests c q.dst (hidle q.dst)
        (Steady.onRequestVote (c.raft q.dst) q.args).effects
      refine ⟨fun q' hq' ↦ Or.inl ?_, fun r hr ↦ ?_⟩
      · exact hsame ▸ List.eraseIdx_subset hq'
      · rcases List.mem_append.mp hr with hold | hnew
        · exact Or.inl hold
        · obtain rfl := List.mem_singleton.mp hnew
          exact Or.inr ⟨List.mem_of_getElem? hq, rfl⟩
  | @deliverAppend k q hq =>
      have hlog : (c.raft q.dst).log ≠ [] := by simp [(hsim.tracks q.dst).log]
      exact .of_eq (VotesStep.settle_voteRequests c q.dst (hidle q.dst)
        (Steady.onAppendEntries (c.raft q.dst) hlog q.args).effects) rfl
  | @voteReply i k j q reply hq hreply =>
      have hsame := VotesStep.settle_voteRequests (c.dropVoteSender i k) i (hidle i)
        (onVoteReply_quiet (c.raft i) q.args reply)
      exact .of_subset (fun _ hq' ↦ hsame ▸ hq') List.eraseIdx_subset
  | @appendReply i k j r q reply hr hq hreply =>
      exact .appendReplyStep (hidle i) k j r q reply
  | appendFailed i k r =>
      unfold Cluster.appendFailedStep
      split_ifs with hretired
      · exact .of_eq rfl rfl
      · exact .of_eq rfl rfl
  | @crashDuring a i n m hop =>
      cases a with
      | deliverVote k => exact .of_subset List.eraseIdx_subset (List.Subset.refl _)
      | _ => exact .of_eq rfl rfl
  | _ => exact .of_eq rfl rfl

end Dkvs
