import Dkvs.Frames
import Dkvs.Moves

/-!
# The peer indices and the replicators of a leader

A node keeps one `nextIndex_` for each peer and one replicator thread for each
peer and term of office. The threads outlive the term of office they were
started in, but no two of them work for the same peer in the same term, and the
calls they make are numbered.
-/

namespace Dkvs

open ReplicatedLog

variable {N : ℕ} {c c' : Cluster N} {h h' : History N} {i x : Fin N} {n : RaftNode}

/-- Fresh replicators of node `i` for the term `t`. -/
structure Spawned (i : Fin N) (t : ℕ) (new : List (Replicator N)) : Prop where
  nodup : (new.map Replicator.key).Nodup
  fresh : ∀ r ∈ new, r.waiting = none ∧ r.leaderTerm = t ∧ r.peer ≠ i

theorem Cluster.replicatorOf_eq_some {e : Effect} {r : Replicator N}
    (hr : Cluster.replicatorOf e = some r) :
    e = .replicator r.peer r.leaderTerm ∧ r.waiting = none := by
  cases e with
  | replicator peer leaderTerm =>
      simp only [Cluster.replicatorOf, Option.dite_none_right_eq_some, Option.some.injEq] at hr
      obtain ⟨hpeer, rfl⟩ := hr
      exact ⟨rfl, rfl⟩
  | _ => simp [Cluster.replicatorOf] at hr

theorem replicators_of_quiet {es : List Effect} (hquiet : Quiet es) :
    es.filterMap (Cluster.replicatorOf (N := N)) = [] := by
  rw [List.filterMap_eq_nil_iff]
  intro e he
  cases hr : Cluster.replicatorOf (N := N) e with
  | none => rfl
  | some r =>
      rw [(Cluster.replicatorOf_eq_some hr).1] at he
      exact (hquiet _ _ he).elim

theorem spawned_peers (hid : n.id = i) (t : ℕ) :
    Spawned i t ((n.peers.map fun peer ↦ Effect.replicator peer t).filterMap
      (Cluster.replicatorOf (N := N))) := by
  constructor
  · rw [List.filterMap_map, List.map_filterMap]
    refine List.Nodup.filterMap ?_ ((List.nodup_range).filter _)
    intro peer peer' key hkey hkey'
    simp only [Function.comp_apply, Option.mem_def, Option.map_eq_some_iff] at hkey hkey'
    obtain ⟨r, hr, rfl⟩ := hkey
    obtain ⟨r', hr', hsame⟩ := hkey'
    have heq := (Cluster.replicatorOf_eq_some hr).1
    have heq' := (Cluster.replicatorOf_eq_some hr').1
    rw [Effect.replicator.injEq] at heq heq'
    have hpeer : r'.peer = r.peer := congrArg Prod.fst hsame
    rw [heq.1, heq'.1, hpeer]
  · intro r hr
    obtain ⟨e, he, hof⟩ := List.mem_filterMap.mp hr
    obtain ⟨heq, hidle⟩ := Cluster.replicatorOf_eq_some hof
    obtain ⟨peer, hpeer, rfl⟩ := List.mem_map.mp he
    rw [Effect.replicator.injEq] at heq
    refine ⟨hidle, heq.2.symm, ?_⟩
    rintro rfl
    have hne := (List.mem_filter.mp hpeer).2
    simp [hid, heq.1] at hne

/-- What an operation of node `i` does to its peer indices and replicators. -/
inductive PeerMove (c : Cluster N) (i : Fin N) (n : RaftNode) : Prop
  | keep (hnext : n.nextIndex = (c.raft i).nextIndex)
      (hspawn : n.effects.filterMap (Cluster.replicatorOf (N := N)) = [])
      (hleads : n.role = .leader → (c.raft i).role = .leader ∧
        (c.raft i).log.length ≤ n.log.length)
      (hstands : n.role = .candidate →
        (c.raft i).role = .candidate ∧ n.currentTerm = (c.raft i).currentTerm ∨
          (c.raft i).currentTerm < n.currentTerm)
  | office (hrole : n.role = .leader)
      (hnext : n.nextIndex = List.replicate (c.raft i).nextIndex.length (c.raft i).log.length)
      (hlog : (c.raft i).log.length ≤ n.log.length)
      (hspawn : Spawned i n.currentTerm (n.effects.filterMap Cluster.replicatorOf))
      (hfresh : (c.raft i).role = .candidate ∧ n.currentTerm = (c.raft i).currentTerm ∨
        (c.raft i).currentTerm < n.currentTerm)
  | confirm {r : Replicator N} {q : AppendCall N} {reply : AppendEntriesReply}
      (hr : r ∈ (c.processes i).replicators) (hq : r.waiting = some q)
      (hreply : (q, reply) ∈ c.appendReplies)
      (hactive : ¬ (c.raft i).replicatorRetired r.leaderTerm)
      (hterm : reply.term = (c.raft i).currentTerm) (hsuccess : reply.success = true)
      (hnext : n.nextIndex = (c.raft i).nextIndex.set r.peer
        (max ((c.raft i).matchIndex.getD r.peer 0)
          (q.args.prevLogIndex + q.args.entries.length) + 1))
      (hsame : n.role = (c.raft i).role ∧ n.currentTerm = (c.raft i).currentTerm ∧
        n.log = (c.raft i).log)
      (hspawn : n.effects.filterMap (Cluster.replicatorOf (N := N)) = [])
  | refuse {r : Replicator N} {q : AppendCall N} {reply : AppendEntriesReply}
      (hr : r ∈ (c.processes i).replicators) (hq : r.waiting = some q)
      (hreply : (q, reply) ∈ c.appendReplies)
      (hactive : ¬ (c.raft i).replicatorRetired r.leaderTerm)
      (hterm : reply.term = (c.raft i).currentTerm) (hsuccess : reply.success = false)
      (hnext : n.nextIndex = (c.raft i).nextIndex.set r.peer
        (min (max reply.conflictIndex 1) ((c.raft i).lastLogIndex + 1)))
      (hsame : n.role = (c.raft i).role ∧ n.currentTerm = (c.raft i).currentTerm ∧
        n.log = (c.raft i).log)
      (hspawn : n.effects.filterMap (Cluster.replicatorOf (N := N)) = [])

namespace PeerMove

theorem of_eq {n : RaftNode} (hn : n = c.raft i) (hidle : (c.raft i).effects = []) :
    PeerMove c i n := by
  subst hn
  refine .keep rfl ?_ (fun hrole ↦ ⟨hrole, le_rfl⟩) (fun hrole ↦ Or.inl ⟨hrole, rfl⟩)
  rw [hidle]
  rfl

theorem becomeLeader {m : RaftNode} (hid : m.id = i) (hquiet : Quiet m.effects)
    (hnext : m.nextIndex = (c.raft i).nextIndex) (hlog : m.log = (c.raft i).log)
    (hne : (c.raft i).log ≠ [])
    (hfresh : (c.raft i).role = .candidate ∧ m.currentTerm = (c.raft i).currentTerm ∨
      (c.raft i).currentTerm < m.currentTerm) : PeerMove c i m.becomeLeader := by
  obtain ⟨commit, found, es, hquiet', hframe⟩ := m.becomeLeader_frame
  rw [hframe]
  refine .office rfl ?_ ?_ ?_ hfresh
  · have hpos := List.length_pos_of_ne_nil hne
    have hlast : m.lastLogIndex + 1 = (c.raft i).log.length := by
      rw [RaftNode.lastLogIndex, hlog]
      omega
    rw [hnext, hlast]
  · simp [hlog]
  · have hfirst : Quiet (m.effects ++ .becomeLeader m.currentTerm m.log.tail :: es) := by
      intro peer term hmem
      rcases List.mem_append.mp hmem with hmem | hmem
      · exact hquiet peer term hmem
      · exact hquiet' peer term (by simpa using hmem)
    rw [List.filterMap_append, replicators_of_quiet hfirst, List.nil_append]
    exact spawned_peers hid m.currentTerm

theorem becomeFollower {t : ℕ} (ht : (c.raft i).currentTerm < t) (hidle : (c.raft i).effects = []) :
    PeerMove c i ((c.raft i).becomeFollower t) := by
  obtain ⟨es, hquiet, hframe⟩ := RaftNode.becomeFollower_later ht
  rw [hframe, hidle]
  exact .keep rfl (replicators_of_quiet hquiet) (by simp) (by simp)

theorem startElection (hsim : Sim c h) (hb : c.TermsBounded) :
    PeerMove c i (c.raft i).startElection := by
  have hidle := (hsim.nodes i).idle
  have hlog : (c.raft i).log ≠ [] := by simp [(hsim.tracks i).log]
  have hterm : (c.raft i).stand.currentTerm = (c.raft i).currentTerm + 1 :=
    Nat.mod_eq_of_lt (by have hlt := hb i; omega)
  have heffects : (c.raft i).stand.effects =
      [.saveMeta ((c.raft i).currentTerm + 1) (toInt32 (c.raft i).id)] := by
    simp only [RaftNode.stand, RaftNode.emit] at hterm ⊢
    rw [hidle, hterm]
    rfl
  have hquiet : Quiet (c.raft i).stand.effects := by simp [heffects, Quiet]
  rcases (c.raft i).startElection_cases with hwon | hlost
  · rw [hwon]
    exact becomeLeader (hsim.tracks i).id hquiet rfl rfl hlog (Or.inr (by omega))
  · rw [hlost]
    have hrole : (c.raft i).stand.role = .candidate := rfl
    refine .keep rfl (replicators_of_quiet ?_) (by simp [RaftNode.spawn, hrole]) ?_
    · exact hquiet.append (by simp [Quiet])
    · intro _
      exact Or.inr (by simp only [RaftNode.spawn]; omega)

theorem onVoteReply (hsim : Sim c h) (args : RequestVoteArgs) (reply : RequestVoteReply) :
    PeerMove c i ((c.raft i).onVoteReply args reply) := by
  have hidle : (c.raft i).effects = [] := (hsim.nodes i).idle
  have hlog : (c.raft i).log ≠ [] := by simp [(hsim.tracks i).log]
  have hquiet : Quiet (c.raft i).effects := by simp [hidle, Quiet]
  rcases (c.raft i).onVoteReply_cases args reply with hnode | ⟨hlt, hnode⟩ |
    ⟨hrole, -, -, ⟨-, hnode⟩ | ⟨-, hnode⟩⟩
  · exact of_eq hnode hidle
  · rw [hnode]
    exact becomeFollower hlt hidle
  · rw [hnode]
    exact .keep rfl (replicators_of_quiet hquiet) (by simp [hrole])
      (fun _ ↦ Or.inl ⟨hrole, rfl⟩)
  · rw [hnode]
    exact becomeLeader (hsim.tracks i).id hquiet rfl rfl hlog (Or.inl ⟨hrole, rfl⟩)

theorem submit (hsim : Sim c h) (command : Bytes) : PeerMove c i ((c.raft i).submit command).1 := by
  have hidle : (c.raft i).effects = [] := (hsim.nodes i).idle
  rcases (c.raft i).submit_frame command with hsame | ⟨hrole, commit, found, es, hquiet, hframe⟩
  · exact of_eq hsame hidle
  · rw [hframe, hidle]
    exact .keep rfl (replicators_of_quiet hquiet) (fun _ ↦ ⟨hrole, by simp⟩) (by simp [hrole])

theorem onRequestVote (hsim : Sim c h) (args : RequestVoteArgs) :
    PeerMove c i ((c.raft i).onRequestVote args).1 := by
  have hidle : (c.raft i).effects = [] := (hsim.nodes i).idle
  obtain ⟨vote, es, hquiet, hframe | ⟨-, hframe⟩⟩ := (c.raft i).onRequestVote_frame args
  · rw [hframe, hidle]
    exact .keep rfl (replicators_of_quiet hquiet) (fun hrole ↦ ⟨hrole, le_rfl⟩)
      (fun hrole ↦ Or.inl ⟨hrole, rfl⟩)
  · rw [hframe, hidle]
    exact .keep rfl (replicators_of_quiet hquiet) (by simp) (by simp)

theorem onAppendEntries (hsim : Sim c h) (args : AppendEntriesArgs) :
    PeerMove c i ((c.raft i).onAppendEntries args).1 := by
  have hidle : (c.raft i).effects = [] := (hsim.nodes i).idle
  have hlog : (c.raft i).log ≠ [] := by simp [(hsim.tracks i).log]
  rcases RaftNode.onAppendEntries_frame hlog args with hsame |
    ⟨-, log, vote, commit, es, hquiet, hframe⟩
  · exact of_eq hsame hidle
  · rw [hframe, hidle]
    exact .keep rfl (replicators_of_quiet hquiet) (by simp) (by simp)

theorem onAppendReply (hsim : Sim c h) {r : Replicator N} {q : AppendCall N}
    {reply : AppendEntriesReply} (hr : r ∈ (c.processes i).replicators) (hq : r.waiting = some q)
    (hreply : (q, reply) ∈ c.appendReplies) :
    PeerMove c i ((c.raft i).onAppendReply r.peer r.leaderTerm q.args reply).1 := by
  have hidle : (c.raft i).effects = [] := (hsim.nodes i).idle
  rcases (c.raft i).onAppendReply_frame r.peer r.leaderTerm q.args reply with hsame |
    ⟨hlt, hnode⟩ | ⟨hactive, hterm, ⟨hsuccess, commit, es, hquiet, hframe⟩ | ⟨hfail, hframe⟩⟩
  · exact of_eq hsame hidle
  · rw [hnode]
    exact becomeFollower hlt hidle
  · rw [hframe, hidle]
    exact .confirm hr hq hreply hactive hterm hsuccess rfl ⟨rfl, rfl, rfl⟩
      (replicators_of_quiet hquiet)
  · rw [hframe]
    refine .refuse hr hq hreply hactive hterm hfail rfl ⟨rfl, rfl, rfl⟩ ?_
    rw [hidle]
    rfl

end PeerMove

theorem Operates.peerMove (hop : Operates c i n) (hsim : Sim c h) (hb : c.TermsBounded) :
    PeerMove c i n := by
  cases hop with
  | startElection => exact .startElection hsim hb
  | submit command => exact .submit hsim command
  | onRequestVote hq hdst => exact .onRequestVote hsim _
  | onAppendEntries hq hdst => exact .onAppendEntries hsim _
  | onVoteReply hq hreply => exact .onVoteReply hsim _ _
  | onAppendReply hr hq hreply => exact .onAppendReply hsim hr hq hreply

/-! ## What the leader knows of its peers -/

theorem RaftNode.active_iff {leaderTerm : ℕ} : ¬ n.replicatorRetired leaderTerm ↔
    n.stopping = false ∧ n.role = .leader ∧ n.currentTerm = leaderTerm := by
  simp [RaftNode.replicatorRetired]

/-- A leader does not count on more than its peers have acknowledged. -/
theorem Sim.confirmed_le_ack (hsim : Sim c h) {r : Replicator N} {q : AppendCall N}
    {reply : AppendEntriesReply} (hr : r ∈ (c.processes i).replicators) (hq : r.waiting = some q)
    (hreply : (q, reply) ∈ c.appendReplies)
    (hactive : ¬ (c.raft i).replicatorRetired r.leaderTerm) (hsuccess : reply.success = true) :
    max ((c.raft i).matchIndex.getD r.peer 0) (q.args.prevLogIndex + q.args.entries.length) ≤
      h.ack r.peer (c.raft i).currentTerm := by
  obtain ⟨-, hrole, hterm⟩ := RaftNode.active_iff.mp hactive
  obtain ⟨-, -, hmatch⟩ := (hsim.tracks i).leads hrole
  obtain ⟨hargs, hdst⟩ := (hsim.nodes i).calls r hr q hq
  have hack := hsim.wire.appendReplies (q, reply) hreply hsuccess
  rw [hdst, hargs, ← hterm] at hack
  rw [← (hsim.tracks i).term] at hmatch
  exact max_le (hmatch r.peer) hack

theorem Sim.ack_le_last (hsim : Sim c h) (hrole : (c.raft i).role = .leader) (x : Fin N) :
    h.ack x (c.raft i).currentTerm ≤ (c.raft i).lastLogIndex := by
  obtain ⟨-, hlog, -⟩ := (hsim.tracks i).leads hrole
  rw [(hsim.tracks i).lastLogIndex, (hsim.tracks i).term, hlog]
  exact (Invariant.of_reachable hsim.reach).ack.length_le x _

/-- Every `nextIndex_` points into the log of a leader or just behind it. -/
structure NextOk (N : ℕ) (n : RaftNode) : Prop where
  length : n.nextIndex.length = N
  one_le : ∀ x : Fin N, 1 ≤ n.nextIndex.getD x 0
  le : n.role = .leader → ∀ x : Fin N, n.nextIndex.getD x 0 ≤ n.log.length

namespace NextOk

theorem recover (i currentTerm : ℕ) (votedFor : ℤ) (entries : List LogEntry) :
    NextOk N (RaftNode.recover i N currentTerm votedFor entries) := by
  refine ⟨by simp [RaftNode.recover], fun x ↦ ?_, by simp [RaftNode.recover]⟩
  simp [RaftNode.recover, List.getD_eq_getElem?_getD]

theorem of_eq {n n' : RaftNode} (hok : NextOk N n) (hnext : n'.nextIndex = n.nextIndex)
    (hleads : n'.role = .leader → n.role = .leader ∧ n.log.length ≤ n'.log.length) :
    NextOk N n' := by
  refine ⟨by rw [hnext, hok.length], fun x ↦ by rw [hnext]; exact hok.one_le x, fun hrole x ↦ ?_⟩
  obtain ⟨hrole', hlen⟩ := hleads hrole
  rw [hnext]
  exact (hok.le hrole' x).trans hlen

/-- One index is set to a place inside the log or just behind it. -/
theorem set {n n' : RaftNode} (hok : NextOk N n) {peer : Fin N} {next : ℕ}
    (hnext : n'.nextIndex = n.nextIndex.set peer next) (hone : 1 ≤ next)
    (hlen : next ≤ n.log.length) (hrole : n'.role = n.role) (hlog : n'.log = n.log) :
    NextOk N n' := by
  have hget : ∀ x : Fin N, n'.nextIndex.getD x 0 = next ∨
      n'.nextIndex.getD x 0 = n.nextIndex.getD x 0 := by
    intro x
    rw [hnext, List.getD_eq_getElem?_getD, List.getD_eq_getElem?_getD, List.getElem?_set]
    split_ifs with hx hlt
    · exact Or.inl rfl
    · exact (hlt (by rw [hok.length]; exact peer.isLt)).elim
    · exact Or.inr rfl
  refine ⟨by rw [hnext, List.length_set, hok.length], fun x ↦ ?_, fun hlead x ↦ ?_⟩
  · rcases hget x with hx | hx
    · rw [hx]
      exact hone
    · rw [hx]
      exact hok.one_le x
  · rw [hlog]
    rcases hget x with hx | hx
    · rw [hx]
      exact hlen
    · rw [hx]
      exact hok.le (hrole ▸ hlead) x

theorem peerMove (hok : NextOk N (c.raft i)) (hsim : Sim c h) (hmove : PeerMove c i n) :
    NextOk N n := by
  have hlen : (c.raft i).lastLogIndex + 1 = (c.raft i).log.length := by
    rw [(hsim.tracks i).lastLogIndex, (hsim.tracks i).log_length]
  cases hmove with
  | keep hnext _ hleads _ => exact hok.of_eq hnext hleads
  | office hrole hnext hlog _ _ =>
      have hget : ∀ x : Fin N, n.nextIndex.getD x 0 = (c.raft i).log.length := by
        intro x
        rw [hnext, hok.length]
        simp [List.getD_eq_getElem?_getD]
      refine ⟨by rw [hnext, List.length_replicate, hok.length], fun x ↦ ?_, fun _ x ↦ ?_⟩
      · rw [hget x]
        omega
      · rw [hget x]
        exact hlog
  | @confirm r q reply hr hq hreply hactive _ hsuccess hnext hsame _ =>
      have hack := hsim.confirmed_le_ack hr hq hreply hactive hsuccess
      have hlast := hsim.ack_le_last (RaftNode.active_iff.mp hactive).2.1 r.peer
      have hle := hack.trans hlast
      exact hok.set hnext (Nat.le_add_left 1 _) (by omega) hsame.1 hsame.2.2
  | refuse hr hq hreply hactive _ hfail hnext hsame _ =>
      exact hok.set hnext (by omega) (by omega) hsame.1 hsame.2.2

end NextOk

/-- No two replicators of node `i` work for the same peer and term. -/
structure KeysOk (i : Fin N) (n : RaftNode) (keys : List (Fin N × ℕ)) : Prop where
  nodup : keys.Nodup
  term_le : ∀ k ∈ keys, k.2 ≤ n.currentTerm
  stale : n.role = .candidate → ∀ k ∈ keys, k.2 < n.currentTerm
  peer_ne : ∀ k ∈ keys, k.1 ≠ i

namespace KeysOk

variable {keys keys' : List (Fin N × ℕ)}

theorem sublist (hok : KeysOk i n keys) (hsub : keys'.Sublist keys) : KeysOk i n keys' :=
  ⟨hok.nodup.sublist hsub, fun k hk ↦ hok.term_le k (hsub.subset hk),
    fun hrole k hk ↦ hok.stale hrole k (hsub.subset hk), fun k hk ↦ hok.peer_ne k (hsub.subset hk)⟩

/-- In a term that a node has just begun or for which it still stands, none of
its replicators is at work. -/
theorem stale_of_fresh {n' : RaftNode} (hok : KeysOk i n keys)
    (hfresh : n.role = .candidate ∧ n'.currentTerm = n.currentTerm ∨
      n.currentTerm < n'.currentTerm) : ∀ k ∈ keys, k.2 < n'.currentTerm := by
  intro k hk
  rcases hfresh with ⟨hrole, hterm⟩ | hlt
  · rw [hterm]
    exact hok.stale hrole k hk
  · exact (hok.term_le k hk).trans_lt hlt

theorem peerMove (hok : KeysOk i (c.raft i) keys) (hmove : PeerMove c i n)
    (hle : (c.raft i).currentTerm ≤ n.currentTerm) :
    KeysOk i n (keys ++ (n.effects.filterMap Cluster.replicatorOf).map Replicator.key) := by
  have hterm : ∀ k ∈ keys, k.2 ≤ n.currentTerm := fun k hk ↦ (hok.term_le k hk).trans hle
  cases hmove with
  | keep _ hspawn _ hstands =>
      rw [hspawn, List.map_nil, List.append_nil]
      exact ⟨hok.nodup, hterm, fun hrole ↦ hok.stale_of_fresh (hstands hrole), hok.peer_ne⟩
  | office hrole _ _ hspawn hfresh =>
      have hold := hok.stale_of_fresh hfresh
      have hnew : ∀ k ∈ (n.effects.filterMap Cluster.replicatorOf).map Replicator.key,
          k.2 = n.currentTerm ∧ k.1 ≠ i := by
        intro k hk
        obtain ⟨r, hr, rfl⟩ := List.mem_map.mp hk
        exact (hspawn.fresh r hr).2
      refine ⟨hok.nodup.append hspawn.nodup fun k hk hk' ↦ ?_, fun k hk ↦ ?_, by simp [hrole],
        fun k hk ↦ ?_⟩
      · have hlt := hold k hk
        have heq := (hnew k hk').1
        omega
      · rcases List.mem_append.mp hk with hk | hk
        · exact hterm k hk
        · exact (hnew k hk).1.le
      · rcases List.mem_append.mp hk with hk | hk
        · exact hok.peer_ne k hk
        · exact (hnew k hk).2
  | confirm _ _ _ _ _ _ _ hsame hspawn =>
      rw [hspawn, List.map_nil, List.append_nil]
      refine ⟨hok.nodup, hterm, fun hrole ↦ ?_, hok.peer_ne⟩
      exact hok.stale_of_fresh (Or.inl ⟨hsame.1 ▸ hrole, hsame.2.1⟩)
  | refuse _ _ _ _ _ _ _ hsame hspawn =>
      rw [hspawn, List.map_nil, List.append_nil]
      refine ⟨hok.nodup, hterm, fun hrole ↦ ?_, hok.peer_ne⟩
      exact hok.stale_of_fresh (Or.inl ⟨hsame.1 ▸ hrole, hsame.2.1⟩)

end KeysOk

structure PeersOk (i : Fin N) (p : Process N) : Prop where
  next : NextOk N p.raft
  keys : KeysOk i p.raft (p.replicators.map Replicator.key)

theorem PeersOk.boot (i : Fin N) (storage : DurableState) : PeersOk i (Process.boot i storage) :=
  ⟨.recover _ _ _ _, by constructor <;> simp [Process.boot]⟩

theorem PeersOk.move {p : Process N} {events : List (Event N)} (hok : PeersOk i (c.processes i))
    (hsim : Sim c h) (hb : c.TermsBounded) (hmove : Move c i p events)
    (hle : (c.raft i).currentTerm ≤ p.raft.currentTerm) : PeersOk i p := by
  have hoperate : ∀ {n : RaftNode} {replicators : List (Replicator N)}, PeerMove c i n →
      (c.raft i).currentTerm ≤ n.currentTerm → Threads (c.processes i).replicators replicators →
        NextOk N n ∧ KeysOk i n
          ((replicators ++ n.effects.filterMap Cluster.replicatorOf).map Replicator.key) := by
    intro n replicators hpeer hterm hthreads
    rw [List.map_append]
    exact ⟨hok.next.peerMove hsim hpeer, (hok.keys.sublist hthreads.keys).peerMove hpeer hterm⟩
  cases hmove with
  | operate hop _ hthreads _ _ =>
      obtain ⟨hnext, hkeys⟩ := hoperate (hop.peerMove hsim hb) hle hthreads
      exact ⟨{ hnext with }, { hkeys with }⟩
  | park _ _ _ =>
      obtain ⟨hnext, hkeys⟩ := hoperate (.submit hsim _) hle (.refl _)
      exact ⟨{ hnext with }, { hkeys with }⟩
  | resume _ => exact ⟨hok.next, hok.keys⟩
  | threads _ hthreads => exact ⟨hok.next, hok.keys.sublist hthreads.keys⟩
  | @send k r args hsends =>
      have hkeys := Threads.set_map_key hsends.thread (some ⟨c.nextCall, i, r.peer, args⟩)
      exact ⟨hok.next, hkeys.symm ▸ hok.keys⟩
  | fetch _ => exact ⟨hok.next, hok.keys⟩
  | apply _ => exact ⟨{ hok.next with }, { hok.keys with }⟩
  | stopServer => exact ⟨hok.next, hok.keys⟩
  | stopRaft => exact ⟨{ hok.next with }, { hok.keys with }⟩
  | restart storage _ => exact .boot i storage

/-- Every call has a number of its own, and a node calls only its peers. -/
structure CallsOk (c : Cluster N) : Prop where
  requests : ∀ q ∈ c.appendRequests, q.call < c.nextCall ∧ q.args.leaderId = q.src ∧ q.dst ≠ q.src
  replies : ∀ r ∈ c.appendReplies, r.1.call < c.nextCall

theorem CallsOk.step (hok : CallsOk c) (hsim : Sim c h)
    (hpeers : ∀ i, PeersOk i (c.processes i)) (hcalls : CallsStep c c') : CallsOk c' := by
  constructor
  · intro q hq
    rcases hcalls.requests q hq with hold | ⟨hnext, i, k, r, args, hsends, rfl⟩
    · obtain ⟨hlt, hrest⟩ := hok.requests q hold
      exact ⟨hlt.trans_le hcalls.next_le, hrest⟩
    · obtain ⟨-, hid, -⟩ := RaftNode.buildAppendEntries_fields hsends.request
      refine ⟨hnext ▸ Nat.lt_succ_self _, hid.trans (hsim.tracks i).id, ?_⟩
      have hmem := List.mem_map_of_mem (f := Replicator.key) (List.mem_of_getElem? hsends.thread)
      exact (hpeers i).keys.peer_ne _ hmem
  · intro r hr
    rcases hcalls.replies r hr with hold | ⟨hreq, -⟩
    · exact (hok.replies r hold).trans_le hcalls.next_le
    · exact (hok.requests r.1 hreq).1.trans_le hcalls.next_le

structure Bookkept (c : Cluster N) : Prop where
  peers : ∀ i, PeersOk i (c.processes i)
  calls : CallsOk c

theorem Bookkept.step (hok : Bookkept c) (hsim : Sim c h) (hb : c.TermsBounded)
    (hsim' : Sim c' h') (hsteps : NodeSteps x h h') {a : Action N} (hs : c.step a = some c') :
    Bookkept c' := by
  obtain ⟨i, events, hm⟩ := Cluster.exists_moves hs
  refine ⟨fun y ↦ ?_, hok.calls.step hsim hok.peers (Cluster.callsStep hs)⟩
  by_cases hy : y = i
  · subst hy
    exact (hok.peers y).move hsim hb hm.move (hsim.term_mono hsim' hsteps y)
  · rw [hm.other hy]
    exact hok.peers y

theorem Run.exists_bookkept {ok : Cluster N → Action N → Prop} (hrun : Run ok c) :
    ∃ h, Sim c h ∧ Bookkept c := by
  apply Run.exists_sim_of_step (P := fun c _ ↦ Bookkept c) _ _ hrun
  · exact ⟨fun i ↦ .boot i _, by constructor <;> simp [Cluster.initial]⟩
  · intro c c' h h' a x hrun hsim hok _ hs hsim' hsteps
    exact hok.step hsim hrun.termsBounded hsim' hsteps hs

end Dkvs
