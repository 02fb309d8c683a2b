import Dkvs.Simulation.Leader

/-!
# Answering requests

The two request handlers, matched with the abstract protocol. A request of a
leader quotes a part of the leader's chronicle; merging it into a log cuts the
log where it leaves the chronicle and copies entries of the chronicle.
-/

namespace Dkvs

open ReplicatedLog

variable {N : ℕ} {h h' : History N} {i src : Fin N} {n : RaftNode}

/-- The request of a leader quotes its own log. -/
structure AppendRequestOk (h : History N) (src : Fin N) (args : AppendEntriesArgs) : Prop where
  leader : h.leader args.term = some src
  prev_le : args.prevLogIndex ≤ (h.chronicle args.term).length
  prev_term : args.prevLogTerm =
    ((sentinel :: h.chronicle args.term).getD args.prevLogIndex sentinel).term
  entries : args.entries <+: (h.chronicle args.term).drop args.prevLogIndex

namespace AppendRequestOk

variable {args : AppendEntriesArgs}

theorem mono (hok : AppendRequestOk h src args) (hext : Extends h h') :
    AppendRequestOk h' src args := by
  have hpre := hext.chronicle hok.leader
  have hcons : sentinel :: h.chronicle args.term <+: sentinel :: h'.chronicle args.term := by
    simpa using hpre
  refine ⟨hext.leader hok.leader, hok.prev_le.trans hpre.length_le, ?_,
    hok.entries.trans (hpre.drop _)⟩
  have hlt : args.prevLogIndex < (sentinel :: h.chronicle args.term).length := by
    simpa using Nat.lt_succ_of_le hok.prev_le
  have hget := List.getElem?_eq_getElem hlt
  rw [hok.prev_term, List.getD_eq_getElem?_getD, List.getD_eq_getElem?_getD, hget,
    getElem?_of_isPrefix hcons hget]

theorem getElem?_chronicle (hok : AppendRequestOk h src args) {x : ℕ} {e : LogEntry}
    (he : args.entries[x]? = some e) :
    (h.chronicle args.term)[args.prevLogIndex + x]? = some e := by
  have hget := getElem?_of_isPrefix hok.entries he
  rwa [List.getElem?_drop] at hget

theorem length_le (hok : AppendRequestOk h src args) :
    args.prevLogIndex + args.entries.length ≤ (h.chronicle args.term).length := by
  have hle := hok.entries.length_le
  have hprev := hok.prev_le
  rw [List.length_drop] at hle
  omega

theorem drop_entries (hok : AppendRequestOk h src args) (j : ℕ) :
    args.entries.drop j <+: (h.chronicle args.term).drop (args.prevLogIndex + j) := by
  have hdrop := hok.entries.drop j
  rwa [List.drop_drop] at hdrop

theorem take_append_drop (hok : AppendRequestOk h src args) {j : ℕ}
    (hj : j ≤ args.entries.length) :
    ((h.chronicle args.term).take (args.prevLogIndex + j) ++ args.entries.drop j).take
        (args.prevLogIndex + args.entries.length) =
      (h.chronicle args.term).take (args.prevLogIndex + args.entries.length) := by
  obtain ⟨tail, htail⟩ := hok.drop_entries j
  have hlen := hok.length_le
  have hsplit := List.take_append_drop (args.prevLogIndex + j) (h.chronicle args.term)
  rw [← htail, ← List.append_assoc] at hsplit
  refine (take_eq_of_isPrefix ⟨tail, hsplit⟩ ?_).symm
  simp only [List.length_append, List.length_take, List.length_drop]
  omega

end AppendRequestOk

namespace Tracks

variable {args : AppendEntriesArgs}

theorem log_length (ht : Tracks h i n) : n.log.length = (h.log i).length + 1 := by
  simp [ht.log]

/-- An entry of the log under the term of an entry of a chronicle at the same
place comes with the chronicle up to there. -/
theorem agree_of_term (ht : Tracks h i n) (hr : ReachableHistory h) {t k : ℕ} {c : Fin N}
    {e : LogEntry} (hleader : h.leader t = some c) (hlen : k + 1 < n.log.length)
    (he : (h.chronicle t)[k]? = some e) (hterm : n.termAt (k + 1) = e.term) :
    (h.log i).take (k + 1) = (h.chronicle t).take (k + 1) := by
  have hlt : k < (h.log i).length := by
    rw [ht.log_length] at hlen
    omega
  have hget : (h.log i)[k]? = some (h.log i)[k] := List.getElem?_eq_getElem hlt
  have hinv := (Invariant.of_reachable hr).log
  rw [ht.termAt_succ hget] at hterm
  exact (hinv.log_sound i).agree (hinv.chronicle_sound hleader) hget he hterm

/-- The consistency check of a request. -/
theorem agree_prev (ht : Tracks h i n) (hr : ReachableHistory h)
    (hok : AppendRequestOk h src args) (hprev : args.prevLogIndex ≤ n.lastLogIndex)
    (hmatch : n.termAt args.prevLogIndex = args.prevLogTerm) :
    (h.log i).take args.prevLogIndex = (h.chronicle args.term).take args.prevLogIndex := by
  cases hp : args.prevLogIndex with
  | zero => simp
  | succ k =>
      have hle := hok.prev_le
      have hpterm := hok.prev_term
      rw [hp] at hprev hmatch hle hpterm
      have hget : (h.chronicle args.term)[k]? = some (h.chronicle args.term)[k] :=
        List.getElem?_eq_getElem hle
      refine ht.agree_of_term hr hok.leader ?_ hget ?_
      · rw [ht.log_length, ← ht.lastLogIndex]
        omega
      · rw [hmatch, hpterm]
        simp [List.getD_eq_getElem?_getD, hget]

theorem agree_matched (ht : Tracks h i n) (hr : ReachableHistory h)
    (hok : AppendRequestOk h src args) {j : ℕ} (hj : j ≤ args.entries.length)
    (hprev : (h.log i).take args.prevLogIndex =
      (h.chronicle args.term).take args.prevLogIndex)
    (hmatch : n.MatchesUpTo (args.prevLogIndex + 1) args.entries j) :
    (h.log i).take (args.prevLogIndex + j) =
      (h.chronicle args.term).take (args.prevLogIndex + j) := by
  cases j with
  | zero => exact hprev
  | succ x =>
      have hget : args.entries[x]? = some args.entries[x] := List.getElem?_eq_getElem hj
      obtain ⟨hlen, hterm⟩ := hmatch x (Nat.lt_succ_self x)
      rw [List.getD_eq_getElem?_getD, hget, Option.getD_some] at hterm
      rw [show args.prevLogIndex + 1 + x = args.prevLogIndex + x + 1 by omega] at hlen hterm
      exact ht.agree_of_term hr hok.leader hlen (hok.getElem?_chronicle hget) hterm

/-- What a leader sends is a quotation of its chronicle. -/
theorem buildAppendEntries (ht : Tracks h i n) (hrole : n.role = .leader) {peer leaderTerm : ℕ}
    (hcur : n.currentTerm = leaderTerm) (hargs : n.buildAppendEntries peer leaderTerm = some args) :
    AppendRequestOk h i args ∧ args.term = leaderTerm := by
  obtain ⟨hleader, hlog, -⟩ := ht.leads hrole
  rw [ht.term] at hcur
  rw [hcur] at hleader hlog
  unfold RaftNode.buildAppendEntries at hargs
  dsimp only at hargs
  split_ifs at hargs with hzero
  obtain ⟨k, hk⟩ := Nat.exists_eq_succ_of_ne_zero hzero
  rw [hk] at hargs
  obtain ⟨previous, hprev, rfl⟩ := Option.map_eq_some_iff.mp hargs
  rw [Nat.succ_sub_one, ht.log, hlog] at hprev
  obtain ⟨hlt, -⟩ := List.getElem?_eq_some_iff.mp hprev
  refine ⟨⟨hleader, ?_, ?_, ?_⟩, rfl⟩
  · simpa [Nat.lt_succ_iff] using hlt
  · simp [List.getD_eq_getElem?_getD, hprev]
  · simpa [ht.log, hlog] using List.take_prefix kMaxBatch ((h.chronicle leaderTerm).drop k)

/-- A follower appends what comes next in the chronicle. -/
theorem appendAll (ht : Tracks h i n) (hr : ReachableHistory h) (hrole : n.role = .follower)
    {c : Fin N} (hleader : h.leader (h.term i) = some c) (es : List LogEntry)
    (hagree : h.log i = (h.chronicle (h.term i)).take (h.log i).length)
    (hes : es <+: (h.chronicle (h.term i)).drop (h.log i).length) :
    Performs i h n (n.appendAll es) (h.setLog i (h.log i ++ es)) := by
  induction es generalizing h n with
  | nil => simpa [RaftNode.appendAll] using Performs.refl ht
  | cons e es ih =>
      have hnext : (h.chronicle (h.term i))[(h.log i).length]? = some e := by
        have hget := getElem?_of_isPrefix hes (i := 0) (x := e) rfl
        rwa [List.getElem?_drop, Nat.add_zero] at hget
      have hpush : Performs i h n (n.push e) (h.setLog i (h.log i ++ [e])) := by
        refine Performs.single (e := .append e) ?_ rfl ?_
        · refine ⟨.single (.copy h c e hleader hagree hnext), ?_, by simp, trivial⟩
          simp [durable, State.setLog, DurableState.perform]
        · exact { ht with
            log := by simp [RaftNode.push, RaftNode.emit, ht.log]
            leads := fun hl ↦ by simp [RaftNode.push, RaftNode.emit, hrole] at hl
            stands := fun hc ↦ by simp [RaftNode.push, RaftNode.emit, hrole] at hc }
      have hlen : ((h.setLog i (h.log i ++ [e])).log i).length = (h.log i).length + 1 := by simp
      have hrest := ih hpush.tracks (hpush.spec hr).1 hrole hleader ?_ ?_
      · rw [State.setLog_setLog, State.setLog_log, List.append_assoc] at hrest
        exact hpush.trans hr hrest
      · rw [hlen, State.setLog_log]
        exact (take_succ_of_getElem? hnext).trans (congrArg (· ++ [e]) hagree.symm) |>.symm
      · rw [hlen]
        have hdrop := hes.drop 1
        rwa [List.drop_drop, List.drop_one, List.tail_cons] at hdrop

/-- The log is cut where it leaves the chronicle. -/
theorem truncateLog (ht : Tracks h i n) (hrole : n.role = .follower) {c : Fin N}
    (hleader : h.leader (h.term i) = some c) {d : ℕ} (hd : d < (h.log i).length)
    (hagree : (h.log i).take d = (h.chronicle (h.term i)).take d)
    (hdiffer : (h.log i)[d]? ≠ (h.chronicle (h.term i))[d]?) :
    Performs i h n (n.truncateLog (d + 1)) (h.setLog i ((h.log i).take d)) := by
  refine Performs.single (e := .truncateFrom (d + 1)) ?_ rfl ?_
  · refine ⟨.single (.truncate h c d hleader hagree hdiffer), ?_, by simp, trivial⟩
    have hin : ¬ (h.log i).length < d + 1 := by omega
    simp [durable, State.setLog, DurableState.perform, hin]
  · exact { ht with
      log := by simp [RaftNode.truncateLog, RaftNode.emit, ht.log]
      leads := fun hl ↦ by simp [RaftNode.truncateLog, RaftNode.emit, hrole] at hl
      stands := fun hc ↦ by simp [RaftNode.truncateLog, RaftNode.emit, hrole] at hc }

/-- After the merge the log agrees with the chronicle as far as the request
reaches. -/
theorem mergeEntries (ht : Tracks h i n) (hr : ReachableHistory h) (hrole : n.role = .follower)
    (hok : AppendRequestOk h src args) (hterm : h.term i = args.term)
    (hprev : args.prevLogIndex ≤ n.lastLogIndex)
    (hmatch : n.termAt args.prevLogIndex = args.prevLogTerm) :
    ∃ l, Performs i h n (n.mergeEntries (args.prevLogIndex + 1) args.entries) (h.setLog i l) ∧
      l.take (args.prevLogIndex + args.entries.length) =
        (h.chronicle args.term).take (args.prevLogIndex + args.entries.length) := by
  have hagree := ht.agree_prev hr hok hprev hmatch
  have hlen : args.prevLogIndex + 1 ≤ n.log.length := by
    rw [ht.log_length, ← ht.lastLogIndex]
    omega
  have hleader : h.leader (h.term i) = some src := hterm ▸ hok.leader
  obtain ⟨j, hupto, ⟨rfl, heq⟩ | ⟨hj, hend, heq⟩ | ⟨e, he, hlt, hdiff, heq⟩⟩ :=
    n.mergeEntries_cases args.entries (Nat.succ_pos _) hlen
  · refine ⟨h.log i, ?_, ht.agree_matched hr hok le_rfl hagree hupto⟩
    rw [heq, State.setLog_self]
    exact Performs.refl ht
  · have hlast : (h.log i).length = args.prevLogIndex + j := by
      rw [ht.log_length] at hend
      omega
    have hfull := ht.agree_matched hr hok hj.le hagree hupto
    rw [← hlast, List.take_length] at hfull
    refine ⟨h.log i ++ args.entries.drop j, ?_, ?_⟩
    · rw [heq]
      apply ht.appendAll hr hrole hleader (args.entries.drop j)
      · rw [hterm]
        exact hfull
      · rw [hterm, hlast]
        exact hok.drop_entries j
    · rw [hfull, hlast]
      exact hok.take_append_drop hj.le
  · obtain ⟨hj, -⟩ := List.getElem?_eq_some_iff.mp he
    have hd : args.prevLogIndex + j < (h.log i).length := by
      rw [ht.log_length] at hlt
      omega
    have hpart := ht.agree_matched hr hok hj.le hagree hupto
    have hcut : Performs i h n (n.truncateLog (args.prevLogIndex + j + 1))
        (h.setLog i ((h.log i).take (args.prevLogIndex + j))) := by
      refine ht.truncateLog hrole hleader hd (by rw [hterm, hpart]) ?_
      intro hsame
      rw [hterm, hok.getElem?_chronicle he] at hsame
      apply hdiff
      rw [show args.prevLogIndex + 1 + j = args.prevLogIndex + j + 1 by omega]
      exact ht.termAt_succ hsame
    have hcutlen : ((h.setLog i ((h.log i).take (args.prevLogIndex + j))).log i).length =
        args.prevLogIndex + j := by
      simp [hd.le]
    have hcopy := hcut.tracks.appendAll (hcut.spec hr).1 hrole hleader (args.entries.drop j) ?_ ?_
    · rw [State.setLog_setLog, State.setLog_log] at hcopy
      refine ⟨(h.log i).take (args.prevLogIndex + j) ++ args.entries.drop j, ?_, ?_⟩
      · rw [heq, show args.prevLogIndex + 1 + j = args.prevLogIndex + j + 1 by omega]
        exact hcut.trans hr hcopy
      · rw [hpart]
        exact hok.take_append_drop hj.le
    · rw [hcutlen, State.setLog_log, hpart]
      simp [State.setLog, hterm]
    · rw [hcutlen]
      simpa [State.setLog, hterm] using hok.drop_entries j

theorem heed (ht : Tracks h i n) (hr : ReachableHistory h) (hle : n.currentTerm ≤ args.term) :
    ∃ h', Performs i h n (n.heed args) h' ∧ h'.term i = args.term ∧ Extends h h' := by
  obtain ⟨g, hg, hterm, -⟩ := ht.becomeFollower hr (ht.term ▸ hle)
  refine ⟨g, ?_, hterm, (hg.spec hr).2.1⟩
  rw [RaftNode.heed_eq hle]
  exact ⟨hg.effects, { hg.tracks with }⟩

/-- An accepted request leaves the receiver with the sender's log as far as the
request reaches. -/
theorem agree_accepted (ht : Tracks h i n) (hr : ReachableHistory h)
    (hok : AppendRequestOk h src args) (hle : n.currentTerm ≤ args.term)
    (hprev : args.prevLogIndex ≤ n.lastLogIndex)
    (hmatch : n.termAt args.prevLogIndex = args.prevLogTerm) :
    (n.onAppendEntries args).1.log.tail.take (args.prevLogIndex + args.entries.length) =
      (h.chronicle args.term).take (args.prevLogIndex + args.entries.length) := by
  obtain ⟨g, hg, hgterm, hext⟩ := ht.heed hr hle
  obtain ⟨l, hl, hagree⟩ := hg.tracks.mergeEntries (hg.spec hr).1 (by simp [RaftNode.heed_eq hle])
    (hok.mono hext) hgterm (by simpa [RaftNode.lastLogIndex] using hprev)
    (by simpa [RaftNode.termAt] using hmatch)
  rw [RaftNode.onAppendEntries_accepted hle hprev hmatch, RaftNode.followCommit_log, hl.tracks.log,
    List.tail_cons, State.setLog_log, hagree,
    take_eq_of_isPrefix (hext.chronicle hok.leader) hok.length_le]

theorem followCommit (ht : Tracks h i n) (leaderCommit : ℕ) :
    Performs i h n (n.followCommit leaderCommit) h := by
  obtain ⟨commit, es, hnotices, hframe⟩ := n.followCommit_frame leaderCommit
  rw [hframe]
  exact .notices hnotices rfl { ht with }

/-- A request of a leader is answered; a successful answer is an
acknowledgement. -/
theorem onAppendEntries (ht : Tracks h i n) (hr : ReachableHistory h)
    (hok : AppendRequestOk h src args) :
    ∃ h', Performs i h n (n.onAppendEntries args).1 h' ∧
      ((n.onAppendEntries args).2.success = true →
        args.prevLogIndex + args.entries.length ≤ h'.ack i args.term) := by
  rcases n.onAppendEntries_cases args with ⟨-, hsame, hfail⟩ |
    ⟨hle, ⟨hheed, hfail⟩ | ⟨hprev, hmatch, hmerge⟩⟩
  · refine ⟨h, ?_, by simp [hfail]⟩
    rw [hsame]
    exact Performs.refl ht
  · obtain ⟨g, hg, -⟩ := ht.heed hr hle
    exact ⟨g, hheed ▸ hg, by simp [hfail]⟩
  · obtain ⟨g, hg, hgterm, hext⟩ := ht.heed hr hle
    have hrg := (hg.spec hr).1
    have hokg := hok.mono hext
    obtain ⟨l, hl, hagree⟩ := hg.tracks.mergeEntries hrg (by simp [RaftNode.heed_eq hle]) hokg
      hgterm (by simpa [RaftNode.lastLogIndex] using hprev)
      (by simpa [RaftNode.termAt] using hmatch)
    have hrl := (hl.spec hrg).1
    let m := args.prevLogIndex + args.entries.length
    have hack : NodeSteps i (g.setLog i l) ((g.setLog i l).acknowledge i m) := by
      refine .single (.acknowledge _ src m ?_ ?_ ?_)
      · simpa [State.setLog, hgterm] using hokg.leader
      · simpa [State.setLog, hgterm] using hokg.length_le
      · simpa [State.setLog, hgterm] using hagree
    have hdone := hl.tracks.acknowledge hrl hack
    have hfollow := hdone.tracks.followCommit args.leaderCommit
    rw [hmerge]
    refine ⟨_, hg.trans hr (hl.trans hrg (hdone.trans hrl hfollow)), fun _ ↦ ?_⟩
    simp [State.acknowledge, State.setLog, hgterm, m]

end Tracks

end Dkvs
