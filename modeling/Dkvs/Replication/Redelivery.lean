import Dkvs.Replication.Merge
import Dkvs.Storage.Node

/-!
# Requests of one term in any order

The log of a leader only grows during its term, and its requests may arrive late,
twice and in any order. A follower that has begun to agree with the leader keeps
agreeing as far, in memory and on disk, and a request that it has accepted once
changes nothing when it comes again.
-/

namespace Dkvs

open ReplicatedLog

namespace RaftNode

variable {n : RaftNode} {F L es : List LogEntry} {args : AppendEntriesArgs} {pos : ℕ}

/-- A merge that leaves the log as it is does nothing at all. -/
theorem mergeEntries_eq_self (hpos : 0 < pos) (hlen : pos ≤ n.log.length)
    (hsame : (n.mergeEntries pos es).log = n.log) : n.mergeEntries pos es = n := by
  obtain ⟨j, -, ⟨-, heq⟩ | ⟨hj, hend, heq⟩ | ⟨e, he, hlt, hterm, heq⟩⟩ :=
    n.mergeEntries_cases es hpos hlen
  · exact heq
  · rw [heq, appendAll_eq] at hsame
    have hgrown := congrArg List.length hsame
    simp only [List.length_append, List.length_drop] at hgrown
    omega
  · rw [heq, appendAll_eq] at hsame
    -- the entry at the cut is the one of the request, of another term
    have hcut := congrArg (fun log : List LogEntry ↦ log[pos + j]?) hsame
    have hfront : (n.log.take (pos + j)).length = pos + j := List.length_take_of_le hlt.le
    simp only [truncateLog, emit] at hcut
    rw [List.getElem?_append_right hfront.le, hfront, Nat.sub_self, List.getElem?_drop,
      Nat.add_zero, he] at hcut
    refine (hterm ?_).elim
    rw [termAt, List.getD_eq_getElem?_getD, ← hcut]
    rfl

/-- The writes of a merge do to the entries on disk what it does to the log. -/
theorem mergeEntries_writes (hlog : n.log = sentinel :: F) (hpos : 0 < pos)
    (hlen : pos ≤ n.log.length) :
    ∃ fs, (n.mergeEntries pos es).effects = n.effects ++ fs ∧
      ∃ F', (n.mergeEntries pos es).log = sentinel :: F' ∧
        ∀ d : DurableState, d.entries = F → (d.performAll fs).entries = F' := by
  obtain ⟨j, -, ⟨-, heq⟩ | ⟨hj, hend, heq⟩ | ⟨e, he, hlt, hterm, heq⟩⟩ :=
    n.mergeEntries_cases es hpos hlen
  · exact ⟨[], by simp [heq], F, by rw [heq, hlog], fun d hd ↦ hd⟩
  · refine ⟨(es.drop j).map .append, by rw [heq, appendAll_eq], F ++ es.drop j, ?_, fun d hd ↦ ?_⟩
    · rw [heq, appendAll_eq, hlog]
      rfl
    · rw [DurableState.entries_appends, hd]
  · obtain ⟨k, hk⟩ : ∃ k, pos + j = k + 1 := ⟨pos + j - 1, by omega⟩
    refine ⟨.truncateFrom (k + 1) :: (es.drop j).map .append, ?_, F.take k ++ es.drop j, ?_,
      fun d hd ↦ ?_⟩
    · rw [heq, appendAll_eq, hk]
      simp [truncateLog, emit]
    · rw [heq, appendAll_eq, hk]
      simp [truncateLog, emit, hlog]
    · have hin : ¬ (k + 1 < 1 ∨ d.entries.length < k + 1) := by
        rw [hlog, List.length_cons] at hlt
        rw [hd]
        omega
      have hcut : (d.perform (.truncateFrom (k + 1))).entries = F.take k := by
        rw [DurableState.perform, if_neg hin, hd]
        rfl
      rw [DurableState.performAll, List.foldl_cons, ← DurableState.performAll,
        DurableState.entries_appends, hcut]

theorem onAppendEntries_writes (hlog : n.log = sentinel :: F) (args : AppendEntriesArgs) :
    ∃ fs, (n.onAppendEntries args).1.effects = n.effects ++ fs ∧
      ∃ F', (n.onAppendEntries args).1.log = sentinel :: F' ∧
        ∀ d : DurableState, d.entries = F → (d.performAll fs).entries = F' := by
  obtain ⟨saves, hsaves, hheed⟩ := heed_effects n args
  rcases n.onAppendEntries_cases args with ⟨-, hsame, -⟩ | ⟨-, ⟨hnode, -⟩ | ⟨hprev, -, hnode⟩⟩
  · exact ⟨[], by rw [hsame, List.append_nil], F, by rw [hsame, hlog], fun d hd ↦ hd⟩
  · refine ⟨saves, by rw [hnode, hheed], F, by rw [hnode, heed_log, hlog], fun d hd ↦ ?_⟩
    rw [hsaves.entries, hd]
  · have hlog' : (n.heed args).log = sentinel :: F := (n.heed_log args).trans hlog
    have hlen := prevLogIndex_lt_heed (by simp [hlog]) hprev
    obtain ⟨fs, heffects, F', hmerged, hentries⟩ :=
      @mergeEntries_writes _ _ args.entries _ hlog' (Nat.succ_pos args.prevLogIndex) hlen
    obtain ⟨commit, notified, hnotified, hfollow⟩ := ((n.heed args).mergeEntries
      (args.prevLogIndex + 1) args.entries).followCommit_frame args.leaderCommit
    refine ⟨saves ++ fs ++ notified, ?_, F', ?_, fun d hd ↦ ?_⟩
    · rw [hnode, hfollow]
      simp [heffects, hheed]
    · rw [hnode, followCommit_log, hmerged]
    · rw [DurableState.performAll_append, hnotified.unwritten.entries,
        DurableState.performAll_append]
      exact hentries _ ((hsaves.entries d).trans hd)

/-- A request whose entries the follower has is accepted in its own term without a
write. It may wake up threads. -/
theorem onAppendEntries_again (hlog : n.log = sentinel :: F) (hmatching : LogMatching F L)
    (hquotes : args.Quotes L) (hterm : n.currentTerm = args.term)
    (hhas : F.take args.lastIndex = L.take args.lastIndex) :
    (n.onAppendEntries args).1.log = n.log ∧ ∃ notified, Notices notified ∧
      (n.onAppendEntries args).1.effects = n.effects ++ notified := by
  have hprev : args.prevLogIndex ≤ args.lastIndex := Nat.le_add_right _ _
  have hlong : args.lastIndex ≤ F.length := length_of_take_eq hhas hquotes.lastIndex_le
  have hcommon : F.take args.prevLogIndex = L.take args.prevLogIndex := take_eq_of_le hhas hprev
  have hlog' : (n.heed args).log = sentinel :: F := (n.heed_log args).trans hlog
  have hheed : (n.heed args).effects = n.effects ++ n.retirement := by
    rw [heed_eq hterm.le, becomeFollower_of_le hterm.ge]
  have hkept : ((n.heed args).mergeEntries (args.prevLogIndex + 1) args.entries).log =
      (n.heed args).log := by
    rw [mergeEntries_log hlog' hmatching hquotes (hprev.trans hlong) hcommon, hlog',
      adopt_of_isPrefix (take_isPrefix_of_take_eq hhas.symm)]
  have hnode := onAppendEntries_accepted hterm.le
    ((hprev.trans hlong).trans_eq (lastLogIndex_of_log hlog).symm)
    ((termAt_of_take_eq hlog hcommon).trans hquotes.prevLogTerm.symm)
  rw [mergeEntries_eq_self (Nat.succ_pos _) (by simpa [hlog] using hprev.trans hlong) hkept]
    at hnode
  obtain ⟨commit, notified, hnotified, hfollow⟩ :=
    (n.heed args).followCommit_frame args.leaderCommit
  rw [hnode]
  refine ⟨by rw [followCommit_log, heed_log], _, n.notices_retirement.append hnotified, ?_⟩
  rw [hfollow, ← List.append_assoc, ← hheed]

end RaftNode

/-! ## A follower on its files -/

/-- The request can be built by a replicator of a leader with the given log. -/
def AppendEntriesArgs.BuiltFrom (args : AppendEntriesArgs) (term : ℕ) (L : List LogEntry) : Prop :=
  ∃ (leader : RaftNode) (peer : ℕ), leader.log = sentinel :: L ∧
    leader.buildAppendEntries peer term = some args

namespace Node

/-- The node and its storage hold the entries of `L` up to index `m`. -/
def Agrees (x : Node) (L : List LogEntry) (m : ℕ) : Prop :=
  x.raft.log.tail.take m = L.take m ∧ x.storage.entries.take m = L.take m

/-- The requests are delivered one after the other. -/
def deliverAll (x : Node) (requests : List AppendEntriesArgs) : Node :=
  requests.foldl (fun x args ↦ x.perform (.onAppendEntries args)) x

/-- A follower of the leader of `term` whose log takes the values `logs`. -/
structure Follows (x : Node) (term : ℕ) (logs : ℕ → List LogEntry) : Prop where
  term_le : x.raft.currentTerm ≤ term
  log : x.raft.log = sentinel :: x.storage.entries
  effects : x.raft.effects = []
  matching : ∀ i, LogMatching x.storage.entries (logs i)

namespace Follows

variable {x : Node} {term i j m : ℕ} {logs : ℕ → List LogEntry} {args : AppendEntriesArgs}

theorem agrees_iff (hx : x.Follows term logs) (L : List LogEntry) (m : ℕ) :
    x.Agrees L m ↔ x.storage.entries.take m = L.take m := by
  rw [Agrees, hx.log, List.tail_cons, and_self]

/-- One delivery changes nothing, or the follower adopts the leader's log, as it was
then or at any later time, up to the end of the request. -/
theorem deliver (hx : x.Follows term logs) (hgrow : ∀ i, logs i <+: logs (i + 1))
    (hargs : args.BuiltFrom term (logs i)) :
    (x.perform (.onAppendEntries args)).Follows term logs ∧
      (x.perform (.onAppendEntries args)).raft.currentTerm = term ∧
      ((x.raft.onAppendEntries args).2.success = false ∧
          (x.perform (.onAppendEntries args)).storage.entries = x.storage.entries ∨
        ∀ k, i ≤ k → (x.perform (.onAppendEntries args)).storage.entries =
          adopt x.storage.entries (logs k) args.lastIndex) := by
  obtain ⟨leader, peer, hleader, hbuilt⟩ := hargs
  have hpre : ∀ {k l}, k ≤ l → logs k <+: logs l :=
    fun h ↦ Nat.rel_of_forall_rel_succ_of_le (· <+: ·) hgrow h
  have hquotes : ∀ k, i ≤ k → args.Quotes (logs k) := fun k hk ↦
    (RaftNode.buildAppendEntries_quotes hleader hbuilt).of_isPrefix (hpre hk)
  have hterm : (x.perform (.onAppendEntries args)).raft.currentTerm = term := by
    have hargs := (RaftNode.buildAppendEntries_fields hbuilt).1
    have hfull : x.raft.log ≠ [] := by simp [hx.log]
    exact (RaftNode.onAppendEntries_currentTerm hfull (hx.term_le.trans hargs.ge)).trans hargs
  -- the log in memory, and what its writes make of the entries on disk
  obtain ⟨fs, heffects, F', hlog, hentries⟩ := RaftNode.onAppendEntries_writes hx.log args
  have hstored : (x.perform (.onAppendEntries args)).storage.entries = F' := by
    have hdurable := x.storage.durable_performAll fs
    rw [hx.effects, List.nil_append] at heffects
    rw [perform, NodeOp.run, heffects]
    exact (congrArg DurableState.entries hdurable).trans (hentries _ rfl)
  have hcases : (x.raft.onAppendEntries args).2.success = false ∧ F' = x.storage.entries ∨
      ∀ k, i ≤ k → F' = adopt x.storage.entries (logs k) args.lastIndex := by
    by_cases hsuccess : (x.raft.onAppendEntries args).2.success = false
    · obtain ⟨-, hsame⟩ | ⟨hok, -⟩ :=
        RaftNode.onAppendEntries_adopts hx.log (hx.matching i) (hquotes i le_rfl)
      · rw [hlog, hx.log, List.cons.injEq] at hsame
        exact Or.inl ⟨hsuccess, hsame.2⟩
      · simp [hsuccess] at hok
    · refine Or.inr fun k hk ↦ ?_
      obtain ⟨hfailed, -⟩ | ⟨-, -, -, -, hadopted, -⟩ :=
        RaftNode.onAppendEntries_adopts hx.log (hx.matching k) (hquotes k hk)
      · exact (hsuccess hfailed).elim
      · rw [hlog, List.cons.injEq] at hadopted
        exact hadopted.2
  refine ⟨⟨hterm.le, ?_, rfl, fun k ↦ ?_⟩, hterm, ?_⟩
  · rw [hstored]
    exact hlog
  · rw [hstored]
    rcases hcases with ⟨-, rfl⟩ | hadopted
    · exact hx.matching k
    · rw [hadopted i le_rfl]
      exact (hx.matching k).adopt
        (Matching.of_isPrefix (hpre (le_max_left i k)) (hpre (le_max_right i k))) _
  · rw [hstored]
    exact hcases

theorem agrees_deliver (hx : x.Follows term logs) (hgrow : ∀ i, logs i <+: logs (i + 1))
    (hargs : args.BuiltFrom term (logs i)) (hm : m ≤ (logs j).length)
    (hagrees : x.Agrees (logs j) m) :
    (x.perform (.onAppendEntries args)).Agrees (logs j) m := by
  obtain ⟨hnext, -, hcases⟩ := hx.deliver hgrow hargs
  rw [hx.agrees_iff] at hagrees
  rw [hnext.agrees_iff]
  rcases hcases with ⟨-, hsame⟩ | hadopted
  · rw [hsame, hagrees]
  · -- compare with a log that extends both
    have hlater : (logs (max i j)).take m = (logs j).take m :=
      take_eq_of_isPrefix
        (Nat.rel_of_forall_rel_succ_of_le (· <+: ·) hgrow (le_max_right i j)) hm
    rw [hadopted _ (le_max_left i j), take_adopt_of_take_eq (hagrees.trans hlater.symm), hlater]

/-- Any number of deliveries. -/
theorem deliverAll {requests : List AppendEntriesArgs} (hx : x.Follows term logs)
    (hgrow : ∀ i, logs i <+: logs (i + 1))
    (hrequests : ∀ args ∈ requests, ∃ i, args.BuiltFrom term (logs i)) :
    (x.deliverAll requests).Follows term logs ∧
      (x.raft.currentTerm = term → (x.deliverAll requests).raft.currentTerm = term) ∧
      ∀ {j m}, m ≤ (logs j).length → x.Agrees (logs j) m →
        (x.deliverAll requests).Agrees (logs j) m := by
  induction requests generalizing x with
  | nil => exact ⟨hx, id, fun _ hagrees ↦ hagrees⟩
  | cons args requests ih =>
      obtain ⟨i, hargs⟩ := hrequests args (by simp)
      obtain ⟨hnext, hterm, -⟩ := hx.deliver hgrow hargs
      obtain ⟨hlast, hkeeps, hall⟩ := ih hnext fun r hr ↦ hrequests r (by simp [hr])
      refine ⟨hlast, fun _ ↦ hkeeps hterm, fun {j m} hm hagrees ↦ ?_⟩
      exact hall hm (hx.agrees_deliver hgrow hargs hm hagrees)

end Follows

/-- The requests of one leader in one term, delivered in any order and any number of
times. What agrees with the leader's log keeps agreeing; an accepted request makes the
follower agree up to its last entry; and when it comes again, after any other
deliveries, it changes neither the log nor the storage. -/
theorem redelivery_harmless {x : Node} {term : ℕ} {F : List LogEntry} {logs : ℕ → List LogEntry}
    (hgrow : ∀ i, logs i <+: logs (i + 1)) (hmatching : ∀ i, LogMatching F (logs i))
    (hterm : x.raft.currentTerm ≤ term) (hlog : x.raft.log = sentinel :: F)
    (hentries : x.storage.entries = F) (heffects : x.raft.effects = [])
    {prior later : List AppendEntriesArgs}
    (hprior : ∀ args ∈ prior, ∃ i, args.BuiltFrom term (logs i))
    (hlater : ∀ args ∈ later, ∃ i, args.BuiltFrom term (logs i)) :
    (∀ i m, m ≤ (logs i).length → (x.deliverAll prior).Agrees (logs i) m →
      ((x.deliverAll prior).deliverAll later).Agrees (logs i) m) ∧
    ∀ i args, args.BuiltFrom term (logs i) →
      ((x.deliverAll prior).raft.onAppendEntries args).2.success = true →
      ((x.deliverAll prior).perform (.onAppendEntries args)).Agrees (logs i) args.lastIndex ∧
      ∀ y, y = ((x.deliverAll prior).perform (.onAppendEntries args)).deliverAll later →
        (y.perform (.onAppendEntries args)).raft.log = y.raft.log ∧
          (y.perform (.onAppendEntries args)).storage = y.storage := by
  have hx : x.Follows term logs := by
    subst hentries
    exact ⟨hterm, hlog, heffects, hmatching⟩
  obtain ⟨hbefore, -, -⟩ := hx.deliverAll hgrow hprior
  refine ⟨fun i m ↦ (hbefore.deliverAll hgrow hlater).2.2, fun i args hargs hsuccess ↦ ?_⟩
  obtain ⟨hnext, hcurrent, ⟨hfailed, -⟩ | hadopted⟩ := hbefore.deliver hgrow hargs
  · simp [hsuccess] at hfailed
  obtain ⟨leader, peer, hleader, hbuilt⟩ := hargs
  have hquotes := RaftNode.buildAppendEntries_quotes hleader hbuilt
  have hagrees : ((x.deliverAll prior).perform (.onAppendEntries args)).Agrees (logs i)
      args.lastIndex := by
    rw [hnext.agrees_iff, hadopted i le_rfl]
    exact take_adopt hquotes.lastIndex_le
  refine ⟨hagrees, ?_⟩
  rintro y rfl
  obtain ⟨hlast, hkeeps, hall⟩ := hnext.deliverAll hgrow hlater
  have hhas := (hlast.agrees_iff _ _).mp (hall hquotes.lastIndex_le hagrees)
  have hsame : (((x.deliverAll prior).perform (.onAppendEntries args)).deliverAll
      later).raft.currentTerm = args.term :=
    (hkeeps hcurrent).trans (RaftNode.buildAppendEntries_fields hbuilt).1.symm
  obtain ⟨hlog', notified, hnotified, hnothing⟩ :=
    RaftNode.onAppendEntries_again hlast.log (hlast.matching i) hquotes hsame hhas
  refine ⟨hlog', ?_⟩
  rw [perform, NodeOp.run, hnothing, hlast.effects]
  exact Storage.performAll_notices _ hnotified

/-- A follower with an empty log. -/
def emptyFollower : Node := boot 1 2 ⟨Directory.empty, 1, -1, [], [], 0, 0⟩ []

/-- The log of a leader that begins with one entry and goes on with another. -/
def twoLogs (i : ℕ) : List LogEntry := [⟨1, [7]⟩, ⟨1, [8]⟩].take (i + 1)

/-- The request with both entries arrives before the request with the first one. -/
theorem redelivery_harmless_overtaken : ∃ both first : AppendEntriesArgs,
    both.BuiltFrom 1 (twoLogs 1) ∧ first.BuiltFrom 1 (twoLogs 0) ∧
    ((emptyFollower.deliverAll [both]).deliverAll [first]).Agrees (twoLogs 1) 2 ∧
    ((emptyFollower.deliverAll [both]).perform (.onAppendEntries first)).Agrees (twoLogs 0) 1 ∧
    ∀ y, y = ((emptyFollower.deliverAll [both]).perform (.onAppendEntries first)).deliverAll
        [first] →
      (y.perform (.onAppendEntries first)).raft.log = y.raft.log ∧
        (y.perform (.onAppendEntries first)).storage = y.storage := by
  have hgrow : ∀ i, twoLogs i <+: twoLogs (i + 1) :=
    fun i ↦ List.take_prefix_take_left (by omega)
  have hmatching : ∀ i, LogMatching [] (twoLogs i) := fun i ↦
    Matching.of_isPrefix List.nil_prefix List.prefix_rfl
  have hboth : AppendEntriesArgs.BuiltFrom ⟨1, 0, 0, 0, 0, [⟨1, [7]⟩, ⟨1, [8]⟩]⟩ 1 (twoLogs 1) :=
    ⟨RaftNode.recover 0 2 1 0 (twoLogs 1), 1, rfl, rfl⟩
  have hfirst : AppendEntriesArgs.BuiltFrom ⟨1, 0, 0, 0, 0, [⟨1, [7]⟩]⟩ 1 (twoLogs 0) :=
    ⟨RaftNode.recover 0 2 1 0 (twoLogs 0), 1, rfl, rfl⟩
  obtain ⟨hkeeps, hagain⟩ := @redelivery_harmless emptyFollower 1 [] twoLogs hgrow hmatching
    (by decide) rfl rfl rfl [_] [_] (by simpa using ⟨1, hboth⟩) (by simpa using ⟨0, hfirst⟩)
  exact ⟨_, _, hboth, hfirst, hkeeps 1 2 (by decide) ⟨rfl, rfl⟩, hagain 0 _ hfirst (by decide)⟩

end Node

end Dkvs
