import Dkvs.Operations
import Dkvs.Cluster
import Dkvs.Storage.Refinement

/-!
# Every change of the durable state is written

The current term, the vote and the log of a node are held in memory and on disk.
Replaying the storage calls of an operation on the durable state before it gives
the durable state after it, whatever the arguments of the operation are.
-/

namespace Dkvs

/-- The part of a node's memory that must survive a crash. -/
def RaftNode.durable (n : RaftNode) : DurableState := ⟨n.currentTerm, n.votedFor, n.log.tail⟩

/-- The effect is no storage call, or one whose values fit their fields. -/
def Effect.Fits : Effect → Prop
  | .saveMeta currentTerm votedFor =>
      currentTerm < 2 ^ 64 ∧ -2 ^ 31 ≤ votedFor ∧ votedFor < 2 ^ 31
  | .append e => e.Fits
  | _ => True

/-- The term is a 64-bit number, and the log starts with the sentinel. -/
structure RaftNode.Ranged (n : RaftNode) : Prop where
  term : n.currentTerm < 2 ^ 64
  log : n.log.head? = some sentinel

theorem RaftNode.Ranged.log_eq {n : RaftNode} (hn : n.Ranged) : n.log = sentinel :: n.log.tail :=
  (List.cons_head?_tail hn.log).symm

theorem DurableState.performAll_append (d : DurableState) (es fs : List Effect) :
    d.performAll (es ++ fs) = (d.performAll es).performAll fs :=
  List.foldl_append

theorem Notices.idle {es : List Effect} (hes : Notices es) :
    ∀ e ∈ es, e.Fits ∧ ∀ d : DurableState, d.perform e = d := by
  intro e he
  obtain ⟨cv, rfl⟩ := hes e he
  exact ⟨trivial, fun d ↦ rfl⟩

/-- Effects that write no entry and remove none. -/
def Unwritten (es : List Effect) : Prop :=
  ∀ e ∈ es, ∀ d : DurableState, (d.perform e).entries = d.entries

theorem Unwritten.nil : Unwritten [] := by simp [Unwritten]

/-- Threads that are started write nothing. -/
theorem Unwritten.threads (f : ℕ → Effect)
    (hf : ∀ (peer : ℕ) (d : DurableState), d.perform (f peer) = d) (peers : List ℕ) :
    Unwritten (peers.map f) := by
  intro e he d
  obtain ⟨peer, -, rfl⟩ := List.mem_map.mp he
  rw [hf peer d]

theorem Unwritten.append {es fs : List Effect} (hes : Unwritten es) (hfs : Unwritten fs) :
    Unwritten (es ++ fs) := by
  intro e he
  rcases List.mem_append.mp he with hmem | hmem
  · exact hes e hmem
  · exact hfs e hmem

theorem Unwritten.entries {es : List Effect} (hes : Unwritten es) (d : DurableState) :
    (d.performAll es).entries = d.entries := by
  induction es generalizing d with
  | nil => rfl
  | cons e es ih =>
      have htail : Unwritten es := fun x hx ↦ hes x (List.mem_cons_of_mem _ hx)
      have hrest := ih htail (d.perform e)
      rw [hes e List.mem_cons_self d] at hrest
      exact hrest

theorem Unwritten.take {es : List Effect} (hes : Unwritten es) (m : ℕ) : Unwritten (es.take m) :=
  fun e he ↦ hes e (List.mem_of_mem_take he)

theorem Notices.unwritten {es : List Effect} (hes : Notices es) : Unwritten es := by
  intro e he d
  rw [(hes.idle e he).2 d]

/-- The operation that leads from `n` to `n'` writes what it changes. -/
structure Persists (n n' : RaftNode) : Prop where
  ranged : n'.Ranged
  effects : ∃ es, n'.effects = n.effects ++ es ∧ (∀ e ∈ es, e.Fits) ∧
    n'.durable = n.durable.performAll es

namespace Persists

variable {n n' n'' : RaftNode} {t : ℕ} {e : LogEntry} {es : List LogEntry}

/-- The operation changes nothing durable and makes no storage call. -/
theorem silent (hn : n.Ranged) (threads : List Effect)
    (heffects : n'.effects = n.effects ++ threads)
    (hthreads : ∀ e ∈ threads, e.Fits ∧ ∀ d : DurableState, d.perform e = d)
    (hterm : n'.currentTerm = n.currentTerm) (hvote : n'.votedFor = n.votedFor)
    (hlog : n'.log = n.log) : Persists n n' := by
  refine ⟨⟨hterm ▸ hn.term, hlog ▸ hn.log⟩, threads, heffects, fun e he ↦ (hthreads e he).1, ?_⟩
  have hsame : ∀ d : DurableState, d.performAll threads = d := by
    clear heffects
    induction threads with
    | nil => exact fun d ↦ rfl
    | cons e threads ih =>
        intro d
        rw [DurableState.performAll, List.foldl_cons, (hthreads e (by simp)).2 d]
        exact ih (fun x hx ↦ hthreads x (by simp [hx])) d
  rw [hsame, RaftNode.durable, RaftNode.durable, hterm, hvote, hlog]

theorem refl (hn : n.Ranged) : Persists n n :=
  silent hn [] (by simp) (by simp) rfl rfl rfl

theorem trans (h : Persists n n') (h' : Persists n' n'') : Persists n n'' := by
  obtain ⟨es, hes, hfits, hdurable⟩ := h.effects
  obtain ⟨fs, hfs, hfits', hdurable'⟩ := h'.effects
  refine ⟨h'.ranged, es ++ fs, by rw [hfs, hes, List.append_assoc], fun e he ↦ ?_, ?_⟩
  · rcases List.mem_append.mp he with he | he
    · exact hfits e he
    · exact hfits' e he
  · rw [DurableState.performAll_append, ← hdurable, hdurable']

theorem notices (hn : n.Ranged) {notified : List Effect} (hnotified : Notices notified)
    (heffects : n'.effects = n.effects ++ notified) (hterm : n'.currentTerm = n.currentTerm)
    (hvote : n'.votedFor = n.votedFor) (hlog : n'.log = n.log) : Persists n n' :=
  silent hn notified heffects hnotified.idle hterm hvote hlog

/-- A new term or vote is saved at once. -/
theorem saveMeta (hn : n.Ranged)
    (heffects : n'.effects = n.effects ++ [.saveMeta n'.currentTerm n'.votedFor])
    (hterm : n'.currentTerm < 2 ^ 64) (hvote : -2 ^ 31 ≤ n'.votedFor ∧ n'.votedFor < 2 ^ 31)
    (hlog : n'.log = n.log) : Persists n n' := by
  refine ⟨⟨hterm, hlog ▸ hn.log⟩, _, heffects, ?_, ?_⟩
  · intro e he
    obtain rfl := List.mem_singleton.mp he
    exact ⟨hterm, hvote⟩
  · rw [RaftNode.durable, hlog]
    rfl

theorem becomeFollower (hn : n.Ranged) (ht : t < 2 ^ 64) : Persists n (n.becomeFollower t) := by
  rcases Nat.lt_or_ge n.currentTerm t with hlt | hle
  · have hsave : Persists n { n with
        currentTerm := t, votedFor := -1, effects := n.effects ++ [.saveMeta t (-1)] } :=
      saveMeta hn rfl ht (by constructor <;> norm_num) rfl
    rw [RaftNode.becomeFollower_of_lt hlt]
    exact hsave.trans (notices hsave.ranged n.notices_retirement (by simp) rfl rfl rfl)
  · rw [RaftNode.becomeFollower_of_le hle]
    exact notices hn n.notices_retirement rfl rfl rfl rfl

theorem push (hn : n.Ranged) (he : e.Fits) : Persists n (n.push e) := by
  refine ⟨⟨hn.term, ?_⟩, [.append e], rfl, by simpa [Effect.Fits] using he, ?_⟩
  · simp [RaftNode.push, RaftNode.emit, hn.log]
  · rw [RaftNode.durable, RaftNode.push, RaftNode.emit, hn.log_eq]
    rfl

theorem appendAll (hn : n.Ranged) (hes : ∀ e ∈ es, e.Fits) : Persists n (n.appendAll es) := by
  induction es generalizing n with
  | nil => exact refl hn
  | cons e es ih =>
      have hpush := push hn (hes e (by simp))
      exact hpush.trans (ih hpush.ranged fun x hx ↦ hes x (by simp [hx]))

theorem truncateLog (hn : n.Ranged) {pos : ℕ} (hpos : 0 < pos) :
    Persists n (n.truncateLog pos) := by
  obtain ⟨k, rfl⟩ := Nat.exists_eq_succ_of_ne_zero hpos.ne'
  have hlog : n.log.take (k + 1) = sentinel :: n.log.tail.take k := by
    rw [hn.log_eq]
    rfl
  refine ⟨⟨hn.term, ?_⟩, [.truncateFrom (k + 1)], rfl, by simp [Effect.Fits], ?_⟩
  · simp [RaftNode.truncateLog, RaftNode.emit, hlog]
  · simp only [RaftNode.durable, RaftNode.truncateLog, RaftNode.emit, hlog, List.tail_cons,
      DurableState.performAll, List.foldl_cons, List.foldl_nil, DurableState.perform,
      Nat.add_sub_cancel]
    split_ifs with hout
    · rw [List.take_of_length_le (by omega)]
    · rfl

theorem advanceCommit (hn : n.Ranged) : Persists n n.advanceCommit := by
  rcases n.advanceCommit_cases with hsame | ⟨-, m, -, -, -, -, hmove⟩
  · rw [hsame]
    exact refl hn
  · rw [hmove]
    exact silent hn _ rfl (by simp [Effect.Fits, DurableState.perform]) rfl rfl rfl

/-- Appending as a leader, and the scan for a new commit index after it. -/
theorem appendOwn (hn : n.Ranged) (he : e.Fits) :
    Persists n (n.push e).countSelf.advanceCommit := by
  have hpush := push hn he
  have hcount : Persists (n.push e) (n.push e).countSelf :=
    silent hpush.ranged [] (by simp [RaftNode.countSelf]) (by simp) rfl rfl rfl
  exact hpush.trans (hcount.trans (advanceCommit hcount.ranged))

theorem becomeLeader (hn : n.Ranged) : Persists n n.becomeLeader := by
  have hoffice : Persists n n.takeOffice :=
    silent hn [_] rfl (by simp [Effect.Fits, DurableState.perform]) rfl rfl rfl
  have hown := appendOwn hoffice.ranged (e := ⟨n.currentTerm, []⟩) ⟨hn.term, by simp⟩
  refine hoffice.trans (hown.trans (silent hown.ranged _ rfl ?_ rfl rfl rfl))
  intro effect heffect
  obtain ⟨peer, -, rfl⟩ := List.mem_map.mp heffect
  exact ⟨trivial, fun d ↦ rfl⟩

theorem stand (hn : n.Ranged) : Persists n n.stand :=
  saveMeta hn rfl (Nat.mod_lt _ (by norm_num)) (toInt32_range _) rfl

theorem startElection (hn : n.Ranged) : Persists n n.startElection := by
  have hstand := stand hn
  rw [RaftNode.startElection]
  split_ifs with hwon
  · exact hstand.trans (becomeLeader hstand.ranged)
  · refine hstand.trans (silent hstand.ranged _ rfl ?_ rfl rfl rfl)
    intro effect heffect
    obtain ⟨peer, -, rfl⟩ := List.mem_map.mp heffect
    exact ⟨trivial, fun d ↦ rfl⟩

theorem submit (hn : n.Ranged) {command : Bytes} (hcommand : command.length < 2 ^ 32 - 20) :
    Persists n (n.submit command).1 := by
  rcases n.submit_cases command with ⟨hsame, -⟩ | ⟨-, hnode, -, -⟩
  · rw [hsame]
    exact refl hn
  · have hown : Persists n (n.push ⟨n.currentTerm, command⟩).countSelf.advanceCommit :=
      appendOwn hn ⟨hn.term, hcommand⟩
    rw [hnode]
    exact hown.trans (notices hown.ranged (.single .replCv) rfl rfl rfl rfl)

theorem onVoteReply (hn : n.Ranged) (args : RequestVoteArgs) {reply : RequestVoteReply}
    (hreply : reply.term < 2 ^ 64) : Persists n (n.onVoteReply args reply) := by
  have hcount : Persists n { n with votesReceived := n.votesReceived + 1 } :=
    silent hn [] (by simp) (by simp) rfl rfl rfl
  rcases n.onVoteReply_cases args reply with hnode | ⟨-, hnode⟩ |
    ⟨-, -, -, ⟨-, hnode⟩ | ⟨-, hnode⟩⟩
  · rw [hnode]
    exact refl hn
  · rw [hnode]
    exact becomeFollower hn hreply
  · rw [hnode]
    exact hcount
  · rw [hnode]
    exact hcount.trans (becomeLeader hcount.ranged)

theorem onAppendReply (hn : n.Ranged) (peer leaderTerm : ℕ) (args : AppendEntriesArgs)
    {reply : AppendEntriesReply} (hreply : reply.term < 2 ^ 64) :
    Persists n (n.onAppendReply peer leaderTerm args reply).1 := by
  rcases n.onAppendReply_cases peer leaderTerm args reply with hnode | ⟨-, hnode⟩ |
    ⟨-, -, ⟨-, next, hnode⟩ | ⟨next, hnode⟩⟩
  · rw [hnode]
    exact refl hn
  · rw [hnode]
    exact becomeFollower hn hreply
  · rw [hnode]
    have hmatch : Persists n { n with
        matchIndex := n.matchIndex.set peer
          (max (n.matchIndex.getD peer 0) (args.prevLogIndex + args.entries.length))
        nextIndex := next } := silent hn [] (by simp) (by simp) rfl rfl rfl
    exact hmatch.trans (advanceCommit hmatch.ranged)
  · rw [hnode]
    exact silent hn [] (by simp) (by simp) rfl rfl rfl

theorem onRequestVote (hn : n.Ranged) {args : RequestVoteArgs} (hterm : args.term < 2 ^ 64) :
    Persists n (n.onRequestVote args).1 := by
  rcases n.onRequestVote_cases args with ⟨-, hsame, -⟩ | ⟨-, m, hm, hcases⟩
  · rw [hsame]
    exact refl hn
  · have hfirst : Persists n m := by
      rw [hm]
      split_ifs with hlt
      · exact becomeFollower hn hterm
      · exact refl hn
    rcases hcases with ⟨hnode, -⟩ | ⟨-, -, hnode⟩
    · rw [hnode]
      exact hfirst
    · rw [hnode]
      exact hfirst.trans (saveMeta hfirst.ranged rfl hfirst.ranged.term (toInt32_range _) rfl)

theorem heed (hn : n.Ranged) {args : AppendEntriesArgs} (hterm : args.term < 2 ^ 64) :
    Persists n (n.heed args) := by
  have hfollow := becomeFollower hn hterm
  have hhint : ∀ {m : RaftNode}, m.Ranged →
      Persists m { m with leaderHint := toInt32 args.leaderId } := fun {m} hm ↦
    silent hm [] (by simp) (by simp) rfl rfl rfl
  rw [RaftNode.heed]
  split_ifs with hcond
  · exact hfollow.trans (hhint hfollow.ranged)
  · exact hhint hn

theorem mergeEntries (hn : n.Ranged) {pos : ℕ} (hpos : 0 < pos) (hes : ∀ e ∈ es, e.Fits) :
    Persists n (n.mergeEntries pos es) := by
  induction es generalizing pos with
  | nil => exact refl hn
  | cons e es ih =>
      rw [RaftNode.mergeEntries]
      split_ifs with hend hconflict
      · exact appendAll hn hes
      · have hcut := truncateLog hn hpos
        exact hcut.trans (appendAll hcut.ranged hes)
      · exact ih (Nat.succ_pos pos) fun x hx ↦ hes x (by simp [hx])

theorem onAppendEntries (hn : n.Ranged) {args : AppendEntriesArgs} (hterm : args.term < 2 ^ 64)
    (hes : ∀ e ∈ args.entries, e.Fits) : Persists n (n.onAppendEntries args).1 := by
  have hheed := heed hn hterm
  rcases n.onAppendEntries_cases args with ⟨-, hsame, -⟩ | ⟨-, ⟨hnode, -⟩ | ⟨-, -, hnode⟩⟩
  · rw [hsame]
    exact refl hn
  · rw [hnode]
    exact hheed
  · rw [hnode]
    have hmerge := hheed.trans (mergeEntries hheed.ranged (Nat.succ_pos args.prevLogIndex) hes)
    obtain ⟨commit, notified, hnotified, hfollow⟩ := ((n.heed args).mergeEntries
      (args.prevLogIndex + 1) args.entries).followCommit_frame args.leaderCommit
    rw [hfollow]
    exact hmerge.trans (notices hmerge.ranged hnotified rfl rfl rfl rfl)

end Persists

end Dkvs
