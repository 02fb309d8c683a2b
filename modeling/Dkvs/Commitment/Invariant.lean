import Dkvs.Commitment.Index

/-!
# What the commit index vouches for

In a run in which no request overtakes its receiver, the committed part of every
log is an initial part of what some leader committed in `advanceCommit`. The
applier, the store and the waiters only ever see that part.
-/

namespace Dkvs

open ReplicatedLog

variable {N : ℕ} {h h' : History N} {i : Fin N} {c c' : Cluster N}
  {events events' : List (Event N)} {p p' : Process N} {l l' : List LogEntry} {t t' : ℕ}

/-- Some leader of a term up to `t` committed at least `l`. -/
def Certified (events : List (Event N)) (t : ℕ) (l : List LogEntry) : Prop :=
  l = [] ∨ ∃ x u m log, .advanceCommit x u m log ∈ events ∧ u ≤ t ∧ l <+: log.take m

namespace Certified

theorem mono (hcert : Certified events t l) (hsub : events ⊆ events') (ht : t ≤ t') :
    Certified events' t' l := by
  rcases hcert with rfl | ⟨x, u, m, log, hmem, hu, hl⟩
  · exact Or.inl rfl
  · exact Or.inr ⟨x, u, m, log, hsub hmem, hu.trans ht, hl⟩

theorem of_isPrefix (hcert : Certified events t l) (hl : l' <+: l) : Certified events t l' := by
  rcases hcert with rfl | ⟨x, u, m, log, hmem, hu, hpre⟩
  · exact Or.inl (List.prefix_nil.mp hl)
  · exact Or.inr ⟨x, u, m, log, hmem, hu, hl.trans hpre⟩

/-- A certificate is a chosen prefix of the history. -/
theorem chosen (hcert : Certified c.trace t l) (hsim : Sim c h) :
    l = [] ∨ ∃ u m, Chosen (Quorums N) LogEntry.term h u m ∧ u ≤ t ∧
      l <+: (h.chronicle u).take m := by
  rcases hcert with rfl | ⟨x, u, m, log, hmem, hu, hl⟩
  · exact Or.inl rfl
  · obtain ⟨-, hlog, hm, hchosen⟩ := hsim.trace.events _ hmem
    refine Or.inr ⟨u, m, hchosen, hu, ?_⟩
    rwa [take_eq_of_isPrefix hlog hm]

theorem comparable (hcert : Certified c.trace t l) (hcert' : Certified c.trace t' l')
    (hsim : Sim c h) : l <+: l' ∨ l' <+: l := by
  rcases hcert.chosen hsim with rfl | ⟨u, m, hchosen, -, hl⟩
  · exact Or.inl List.nil_prefix
  · rcases hcert'.chosen hsim with rfl | ⟨u', m', hchosen', -, hl'⟩
    · exact Or.inr List.nil_prefix
    · rcases (Invariant.of_reachable hsim.reach).chosen_comparable hchosen hchosen' with hle | hle
      · exact List.prefix_or_prefix_of_prefix (hl.trans hle) hl'
      · exact List.prefix_or_prefix_of_prefix hl (hl'.trans hle)

/-- A certified part of a node's log stays in it. -/
theorem retained (hcert : Certified c.trace (h.term i) l) (hsim : Sim c h) {x : Fin N}
    (hsteps : NodeSteps x h h') (hl : l <+: h.log i) : l <+: h'.log i := by
  rcases hcert.chosen hsim with rfl | ⟨u, m, hchosen, hu, hpre⟩
  · exact List.nil_prefix
  · exact hsim.reach.steps_retain hsteps hchosen hu hpre hl

end Certified

/-- Some leader committed the entry `e` at index `idx`. -/
def Committed (events : List (Event N)) (idx : ℕ) (e : LogEntry) : Prop :=
  0 < idx ∧ ∃ x t m log, .advanceCommit x t m log ∈ events ∧ idx ≤ m ∧
    log[idx - 1]? = some e

theorem Certified.committed (hcert : Certified events t l) {k : ℕ} {e : LogEntry}
    (hk : l[k]? = some e) : Committed events (k + 1) e := by
  rcases hcert with rfl | ⟨x, u, m, log, hmem, -, hl⟩
  · simp at hk
  · have hget := getElem?_of_isPrefix hl hk
    have hkm : k < m := by
      by_contra hcon
      rw [List.getElem?_take_eq_none (by omega)] at hget
      simp at hget
    rw [List.getElem?_take_of_lt hkm] at hget
    exact ⟨Nat.succ_pos k, x, u, m, log, hmem, hkm, hget⟩

theorem Committed.mono {idx : ℕ} {e : LogEntry} (hcom : Committed events idx e)
    (hsub : events ⊆ events') : Committed events' idx e := by
  obtain ⟨hpos, x, t, m, log, hmem, hrest⟩ := hcom
  exact ⟨hpos, x, t, m, log, hsub hmem, hrest⟩

/-- No two entries are committed at one index. -/
theorem Committed.unique {idx : ℕ} {e e' : LogEntry} (hcom : Committed c.trace idx e)
    (hcom' : Committed c.trace idx e') (hsim : Sim c h) : e = e' := by
  obtain ⟨hpos, x, t, m, log, hmem, hm, hget⟩ := hcom
  obtain ⟨-, x', t', m', log', hmem', hm', hget'⟩ := hcom'
  have hcert : Certified c.trace t (log.take m) :=
    Or.inr ⟨x, t, m, log, hmem, le_rfl, List.prefix_rfl⟩
  have hcert' : Certified c.trace t' (log'.take m') :=
    Or.inr ⟨x', t', m', log', hmem', le_rfl, List.prefix_rfl⟩
  rw [← List.getElem?_take_of_lt (show idx - 1 < m by omega)] at hget
  rw [← List.getElem?_take_of_lt (show idx - 1 < m' by omega)] at hget'
  rcases hcert.comparable hcert' hsim with hle | hle
  · exact Option.some.inj ((getElem?_of_isPrefix hle hget).symm.trans hget')
  · exact Option.some.inj (hget.symm.trans (getElem?_of_isPrefix hle hget'))

/-! ## The invariant -/

def RaftNode.committed (n : RaftNode) : List LogEntry := n.log.tail.take n.commitIndex

/-- The store after the given entries. -/
def replay (l : List LogEntry) : KVStore :=
  l.foldl (fun store e ↦ (applyCommand store e.command).1) KVStore.empty

structure NodeCommit (events : List (Event N)) (p : Process N) : Prop where
  commit_le : p.raft.commitIndex ≤ p.raft.lastLogIndex
  applied_le : p.raft.lastApplied ≤ p.raft.commitIndex
  certified : Certified events p.raft.currentTerm p.raft.committed
  applying : ∀ {idx e}, p.applying = some (idx, e) → idx = p.raft.lastApplied + 1 ∧
    p.raft.committed[p.raft.lastApplied]? = some e
  store : p.store = replay (p.raft.committed.take p.raft.lastApplied)
  waiters : ∀ {k r}, p.waiters (k + 1) = some r → r.applied = true →
    ∃ e, (p.raft.committed.take p.raft.lastApplied)[k]? = some e ∧ e.term = r.appliedTerm

/-- What an answer tells the client. -/
def EventCert (events : List (Event N)) : Event N → Prop
  | .applied _ idx term command => Committed events idx ⟨term, command⟩
  | .answered _ handler response =>
      (response.isSuccess = true →
        Committed events handler.index ⟨handler.term, handler.cmd.encode⟩) ∧
      (response = .lostLeadership →
        ∃ e, Committed events handler.index e ∧ e.term ≠ handler.term)
  | _ => True

/-- The commit index a request carries is certified for the sender's log, and the
sender has kept what it stands for. -/
structure RequestCert (events : List (Event N)) (h : History N) (q : AppendCall N) : Prop where
  length : q.args.leaderCommit ≤ (h.chronicle q.args.term).length
  certified : Certified events q.args.term ((h.chronicle q.args.term).take q.args.leaderCommit)
  term_le : q.args.term ≤ h.term q.src
  kept : (h.chronicle q.args.term).take q.args.leaderCommit <+: h.log q.src

structure CommitSim (c : Cluster N) (h : History N) : Prop where
  nodes : ∀ i, NodeCommit c.trace (c.processes i)
  requests : ∀ q ∈ c.appendRequests, RequestCert c.trace h q
  events : ∀ e ∈ c.trace, EventCert c.trace e

theorem EventCert.mono {e : Event N} (hcert : EventCert events e) (hsub : events ⊆ events') :
    EventCert events' e := by
  cases e with
  | applied node idx term command => exact Committed.mono hcert hsub
  | answered node handler response =>
      refine ⟨fun hok ↦ (hcert.1 hok).mono hsub, fun hlost ↦ ?_⟩
      obtain ⟨e, hcom, hne⟩ := hcert.2 hlost
      exact ⟨e, hcom.mono hsub, hne⟩
  | _ => trivial

theorem RequestCert.steps {q : AppendCall N} (hcert : RequestCert c.trace h q) (hsim : Sim c h)
    {x y : Fin N} (hsteps : NodeSteps x h h') (hsub : c.trace ⊆ events')
    (hy : h.leader q.args.term = some y) : RequestCert events' h' q := by
  obtain ⟨-, hext, -⟩ := hsim.reach.steps_spec hsteps
  have hpre := hext.chronicle hy
  have htake := take_eq_of_isPrefix hpre hcert.length
  refine ⟨hcert.length.trans hpre.length_le, ?_, hcert.term_le.trans (hext.term_le q.src), ?_⟩
  · rw [htake]
    exact hcert.certified.mono hsub le_rfl
  · rw [htake]
    exact (hcert.certified.mono (List.Subset.refl _) hcert.term_le).retained hsim hsteps hcert.kept

theorem RaftNode.length_committed {n : RaftNode} (hle : n.commitIndex ≤ n.lastLogIndex) :
    n.committed.length = n.commitIndex := by
  simpa [committed, lastLogIndex] using hle

theorem NodeCommit.mono (hp : NodeCommit events p) (hsub : events ⊆ events') :
    NodeCommit events' p :=
  { hp with certified := hp.certified.mono hsub le_rfl }

/-- The committed part of the log grows, and nothing was applied meanwhile. -/
theorem NodeCommit.transfer (hp : NodeCommit events p)
    (hcommitted : p.raft.committed <+: p'.raft.committed)
    (hlen : p'.raft.commitIndex ≤ p'.raft.lastLogIndex)
    (happlied : p'.raft.lastApplied = p.raft.lastApplied)
    (hcert : Certified events' p'.raft.currentTerm p'.raft.committed)
    (happlying : p'.applying = p.applying) (hstore : p'.store = p.store)
    (hwaiters : ∀ {k r}, p'.waiters (k + 1) = some r → r.applied = true →
      p.waiters (k + 1) = some r) : NodeCommit events' p' := by
  have hle := hp.applied_le
  have hlength := RaftNode.length_committed hp.commit_le
  have htake : p'.raft.committed.take p'.raft.lastApplied =
      p.raft.committed.take p.raft.lastApplied := by
    rw [happlied]
    exact take_eq_of_isPrefix hcommitted (by omega)
  refine ⟨hlen, ?_, hcert, fun {idx e} happ ↦ ?_, ?_, fun {k r} hr hdone ↦ ?_⟩
  · have hgrow := hcommitted.length_le
    rw [hlength, RaftNode.length_committed hlen] at hgrow
    omega
  · rw [happlying] at happ
    obtain ⟨hidx, hget⟩ := hp.applying happ
    rw [happlied]
    exact ⟨hidx, getElem?_of_isPrefix hcommitted hget⟩
  · rw [hstore, htake]
    exact hp.store
  · rw [htake]
    exact hp.waiters (hwaiters hr hdone) hdone

theorem replay_snoc {l : List LogEntry} {k : ℕ} {e : LogEntry} (hk : l[k]? = some e) :
    replay (l.take (k + 1)) = (applyCommand (replay (l.take k)) e.command).1 := by
  rw [take_succ_of_getElem? hk, replay, replay, List.foldl_append]
  rfl

/-- The applier hands over the next committed entry. -/
theorem NodeCommit.apply (hp : NodeCommit events p) {idx : ℕ} {e : LogEntry}
    (happ : p.applying = some (idx, e)) :
    NodeCommit events { p with
      applying := none
      store := (onApply p.store p.waiters idx e.term e.command).1
      waiters := (onApply p.store p.waiters idx e.term e.command).2
      raft := { p.raft with lastApplied := idx } } := by
  obtain ⟨rfl, hget⟩ := hp.applying happ
  obtain ⟨hlt, -⟩ := List.getElem?_eq_some_iff.mp hget
  rw [RaftNode.length_committed hp.commit_le] at hlt
  refine ⟨hp.commit_le, hlt, hp.certified, by simp, ?_, fun {k r} hr hdone ↦ ?_⟩
  · rw [onApply_store, hp.store]
    exact (replay_snoc hget).symm
  · rcases onApply_waiters hr with ⟨hidx, hterm⟩ | hold
    · obtain rfl : k = p.raft.lastApplied := by omega
      refine ⟨e, ?_, hterm.symm⟩
      rw [List.getElem?_take_of_lt (Nat.lt_succ_self _)]
      exact hget
    · obtain ⟨e', hget', hterm⟩ := hp.waiters hold hdone
      have hpre : p.raft.committed.take p.raft.lastApplied <+:
          p.raft.committed.take (p.raft.lastApplied + 1) :=
        List.take_prefix_take_left (Nat.le_succ _)
      exact ⟨e', getElem?_of_isPrefix hpre hget', hterm⟩

theorem NodeCommit.boot (events : List (Event N)) (i : Fin N) (storage : DurableState) :
    NodeCommit events (Process.boot i storage) where
  commit_le := by simp [Process.boot, RaftNode.recover]
  applied_le := by simp [Process.boot, RaftNode.recover]
  certified := by simp [Process.boot, RaftNode.recover, RaftNode.committed, Certified]
  applying := by simp [Process.boot]
  store := by simp [Process.boot, RaftNode.recover, replay]
  waiters := by simp [Process.boot]

theorem CommitSim.initial (N : ℕ) :
    CommitSim (Cluster.initial N) (State.initial (Fin N) LogEntry) where
  nodes i := NodeCommit.boot _ i _
  requests := by simp [Cluster.initial]
  events := by simp [Cluster.initial]

end Dkvs
