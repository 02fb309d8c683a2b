import Dkvs.Operations
import Dkvs.Grammar

/-!
# Batches and the frame limit

A leader sends up to `kMaxBatch` entries in one request. The limit on a client's
line does not bound a batch, nor even a single entry, whose encoding is longer
than the line it came from.
-/

namespace Dkvs

/-- The bytes that the given entries take in a request. -/
def batchBytes (entries : List LogEntry) : ℕ := (entries.map fun e ↦ 12 + e.command.length).sum

theorem AppendEntriesArgs.length_encode (args : AppendEntriesArgs) :
    args.encode.length = 41 + batchBytes args.entries := by
  have hbatch : (args.entries.flatMap LogEntry.encode).length = batchBytes args.entries := by
    rw [List.length_flatMap, batchBytes]
    simp
  simp only [AppendEntriesArgs.encode, List.length_append, Encoder.length_u32,
    Encoder.length_u64, hbatch]
  show 1 + _ + _ + _ + _ + _ + _ + _ = _
  omega

namespace RaftNode

/-- A leader takes the given commands one after the other. -/
def submitAll (n : RaftNode) (cmds : List Command) : RaftNode :=
  cmds.foldl (fun n cmd ↦ (n.submit cmd.encode).1) n

theorem submit_leader {n : RaftNode} (hrole : n.role = .leader) (hrunning : n.stopping = false)
    (command : Bytes) :
    (n.submit command).1 =
      (n.push ⟨n.currentTerm, command⟩).countSelf.advanceCommit.emit (.notify .replCv) := by
  simp [submit, hrole, hrunning]

theorem submitAll_log {n : RaftNode} (hrole : n.role = .leader) (hrunning : n.stopping = false)
    (cmds : List Command) :
    (n.submitAll cmds).log = n.log ++ cmds.map fun cmd ↦ ⟨n.currentTerm, cmd.encode⟩ := by
  induction cmds generalizing n with
  | nil => simp [submitAll]
  | cons cmd cmds ih =>
      have hnext := submit_leader hrole hrunning cmd.encode
      have hleads : (n.submit cmd.encode).1.role = .leader := by
        simp [hnext, countSelf, push, emit, hrole]
      have hrest := ih hleads (by simp [hnext, countSelf, push, emit, hrunning])
      have hterm : (n.submit cmd.encode).1.currentTerm = n.currentTerm := by
        simp [hnext, countSelf, push, emit]
      have hlog : (n.submit cmd.encode).1.log = n.log ++ [⟨n.currentTerm, cmd.encode⟩] := by
        simp [hnext, countSelf, push, emit]
      rw [submitAll, List.foldl_cons]
      rw [submitAll, hterm, hlog] at hrest
      rw [hrest, List.map_cons, List.append_assoc, List.singleton_append]

/-- A request carries a batch of the log. -/
theorem buildAppendEntries_entries {n : RaftNode} {peer leaderTerm : ℕ} {args : AppendEntriesArgs}
    (hargs : n.buildAppendEntries peer leaderTerm = some args) :
    ∃ k, args.entries = (n.log.tail.drop k).take kMaxBatch := by
  unfold buildAppendEntries at hargs
  dsimp only at hargs
  split_ifs at hargs with hzero
  obtain ⟨k, hk⟩ := Nat.exists_eq_succ_of_ne_zero hzero
  rw [hk] at hargs
  obtain ⟨previous, -, rfl⟩ := Option.map_eq_some_iff.mp hargs
  exact ⟨k, by rw [← List.drop_one, List.drop_drop, Nat.add_comm]⟩

/-- Every batch of the log is sent for some `nextIndex_`. -/
theorem exists_buildAppendEntries {n : RaftNode} (hlog : n.log ≠ []) (peer leaderTerm : ℕ) {k : ℕ}
    (hk : k ≤ n.log.tail.length) :
    ∃ next args, { n with nextIndex := next }.buildAppendEntries peer leaderTerm = some args ∧
      args.entries = (n.log.tail.drop k).take kMaxBatch := by
  have hpos := List.length_pos_of_ne_nil hlog
  have hin : k < n.log.length := by
    rw [List.length_tail] at hk
    omega
  refine ⟨List.replicate (peer + 1) (k + 1), ⟨leaderTerm, n.id, k, n.log[k].term, n.commitIndex,
    (n.log.drop (k + 1)).take kMaxBatch⟩, ?_, ?_⟩
  · simp [buildAppendEntries, hin]
  · rw [← List.drop_one, List.drop_drop, Nat.add_comm]

end RaftNode

/-- The request fits into a frame, and the receiver takes the frame. -/
def AppendEntriesArgs.Sendable (args : AppendEntriesArgs) : Prop :=
  args.encode.length ≤ kMaxFrameBytes ∧
    recvFrame (sendFrame args.encode) = .payload args.encode []

theorem AppendEntriesArgs.sendable_iff (args : AppendEntriesArgs) :
    args.Sendable ↔ batchBytes args.entries ≤ kMaxFrameBytes - 41 := by
  have hlen := args.length_encode
  have hroom : 41 ≤ kMaxFrameBytes := by decide
  constructor
  · rintro ⟨hsize, -⟩
    omega
  · intro hbatch
    have hsize : args.encode.length ≤ kMaxFrameBytes := by omega
    have hframe := recvFrame_sendFrame hsize []
    rw [List.append_nil] at hframe
    exact ⟨hsize, hframe⟩

theorem batchBytes_append (es es' : List LogEntry) :
    batchBytes (es ++ es') = batchBytes es + batchBytes es' := by
  simp [batchBytes]

/-- No batch of these entries is over the limit. -/
def Shippable (entries : List LogEntry) : Prop :=
  ∀ k, batchBytes ((entries.drop k).take kMaxBatch) ≤ kMaxFrameBytes - 41

theorem batchBytes_le_of_sublist {es es' : List LogEntry} (hsub : es.Sublist es') :
    batchBytes es ≤ batchBytes es' :=
  (hsub.map _).sum_le_sum fun _ _ ↦ Nat.zero_le _

theorem Shippable.of_isPrefix {es es' : List LogEntry} (hfits : Shippable es') (hle : es <+: es') :
    Shippable es :=
  fun k ↦ (batchBytes_le_of_sublist ((hle.drop k).take kMaxBatch).sublist).trans (hfits k)

theorem Shippable.of_batchBytes {es : List LogEntry} (hall : batchBytes es ≤ kMaxFrameBytes - 41) :
    Shippable es :=
  fun k ↦ (batchBytes_le_of_sublist ((List.take_sublist _ _).trans (List.drop_sublist k es))).trans
    hall

theorem RaftNode.sendable_of_shippable {n : RaftNode} {peer leaderTerm : ℕ}
    {args : AppendEntriesArgs} (hargs : n.buildAppendEntries peer leaderTerm = some args)
    (hfits : Shippable n.log.tail) : args.Sendable := by
  obtain ⟨k, hentries⟩ := RaftNode.buildAppendEntries_entries hargs
  rw [args.sendable_iff, hentries]
  exact hfits k

/-- The log entries that the lines accepted as commands become in a term. -/
def entriesOf (term : ℕ) (lines : List Bytes) : List LogEntry :=
  (lines.filterMap commandOf).map fun cmd ↦ ⟨term, cmd.encode⟩

theorem RaftNode.submitAll_tail {n : RaftNode} (hrole : n.role = .leader)
    (hrunning : n.stopping = false) (hlog : n.log ≠ []) (lines : List Bytes) :
    (n.submitAll (lines.filterMap commandOf)).log.tail =
      n.log.tail ++ entriesOf n.currentTerm lines := by
  rw [submitAll_log hrole hrunning, List.tail_append_of_ne_nil hlog, entriesOf]

/-- Whatever lines a leader has accepted as commands, all its requests can be
sent exactly when no batch of its log is over the limit. -/
theorem sendable_iff_batches {n : RaftNode} (hrole : n.role = .leader)
    (hrunning : n.stopping = false) (hlog : n.log ≠ []) (lines : List Bytes)
    (peer leaderTerm : ℕ) :
    (∀ next args, { n.submitAll (lines.filterMap commandOf) with
        nextIndex := next }.buildAppendEntries peer leaderTerm = some args → args.Sendable) ↔
      ∀ k, batchBytes (((n.log.tail ++ entriesOf n.currentTerm lines).drop k).take kMaxBatch) ≤
        kMaxFrameBytes - 41 := by
  have htail := RaftNode.submitAll_tail hrole hrunning hlog lines
  rw [← htail]
  constructor
  · intro hsend k
    by_cases hk : k ≤ (n.submitAll (lines.filterMap commandOf)).log.tail.length
    · have hne : (n.submitAll (lines.filterMap commandOf)).log ≠ [] := by
        simp [RaftNode.submitAll_log hrole hrunning, hlog]
      obtain ⟨next, args, hargs, hentries⟩ :=
        RaftNode.exists_buildAppendEntries hne peer leaderTerm hk
      rw [← hentries]
      exact args.sendable_iff.mp (hsend next args hargs)
    · rw [List.drop_eq_nil_of_le (by omega)]
      simp [batchBytes]
  · intro hbatch next args hargs
    exact RaftNode.sendable_of_shippable hargs hbatch

/-- Node 0 of three, elected in term 1 with an empty log. -/
def freshLeader : RaftNode :=
  (RaftNode.recover 0 3 0 (-1) []).startElection.onVoteReply ⟨1, 0, 0, 0⟩ ⟨1, true⟩

theorem freshLeader_log : freshLeader.log = [sentinel, ⟨1, []⟩] := by decide

/-- The line `SET k` with a value of `m` bytes. -/
def setLine (m : ℕ) : Bytes := setRequest [107] (List.replicate m 97)

theorem entriesOf_setLine (term m : ℕ) :
    entriesOf term [setLine m] = [⟨term, Command.encode ⟨.set, [107], List.replicate m 97⟩⟩] := by
  have hparse : commandOf (setLine m) = some ⟨.set, [107], List.replicate m 97⟩ :=
    commandOf_setRequest (by simp [Word, isBlank]) _
  simp [entriesOf, hparse]

theorem sendable_iff_batches_fresh : freshLeader.role = .leader ∧
    freshLeader.stopping = false ∧ freshLeader.log ≠ [] ∧
    ∀ next args, { freshLeader.submitAll ([setLine 5].filterMap commandOf) with
      nextIndex := next }.buildAppendEntries 1 1 = some args → args.Sendable := by
  have hrole : freshLeader.role = .leader := by decide
  have hrunning : freshLeader.stopping = false := by decide
  have hlog : freshLeader.log ≠ [] := by decide
  refine ⟨hrole, hrunning, hlog, (sendable_iff_batches hrole hrunning hlog _ 1 1).mpr fun k ↦ ?_⟩
  rw [freshLeader_log, entriesOf_setLine]
  exact Shippable.of_batchBytes (by decide) k

theorem deliverable_setLine {m : ℕ} (hm : m + 7 ≤ kMaxFrameBytes) : Deliverable (setLine m) := by
  have hlast : (setLine m).getLast? ≠ some carriageReturn := by
    cases m with
    | zero => decide
    | succ m =>
        have hend : setLine (m + 1) = setLine m ++ [97] := by
          simp [setLine, setRequest, List.replicate_succ']
        rw [hend, List.getLast?_concat]
        decide
  have hchomp : chomp (setLine m) = setLine m := if_neg hlast
  rw [← hchomp]
  apply deliverable_of_length
  · simp [setLine, setRequest, setVerb, newline]
  · simp only [setLine, setRequest, setVerb, List.length_append, List.length_cons, List.length_nil,
      List.length_replicate]
    omega

/-- The longest line that the server takes is a command that no request can
carry. -/
theorem not_sendable :
    ¬ ∀ lines : List Bytes, (∀ line ∈ lines, Deliverable line ∧ (commandOf line).isSome) →
      ∀ next peer leaderTerm args, { freshLeader.submitAll (lines.filterMap commandOf) with
        nextIndex := next }.buildAppendEntries peer leaderTerm = some args →
          args.encode.length ≤ kMaxFrameBytes := by
  intro hholds
  obtain ⟨m, hm⟩ : ∃ m, m + 7 = kMaxFrameBytes := ⟨67108857, by decide⟩
  have hentries := entriesOf_setLine freshLeader.currentTerm m
  have htail := RaftNode.submitAll_tail (n := freshLeader) (by decide) (by decide) (by decide)
    [setLine m]
  rw [hentries, freshLeader_log, List.tail_cons] at htail
  have hne : (freshLeader.submitAll ([setLine m].filterMap commandOf)).log ≠ [] := by
    intro hnil
    simp [hnil] at htail
  obtain ⟨next, args, hargs, hbatch⟩ :=
    RaftNode.exists_buildAppendEntries hne 1 1 (k := 1) (by simp [htail])
  have hsize := hholds [setLine m] ?_ next 1 1 args hargs
  · rw [args.length_encode, hbatch, htail] at hsize
    simp only [List.singleton_append, List.drop_succ_cons, List.drop_zero, kMaxBatch,
      List.take_succ_cons, List.take_nil, batchBytes, List.map_cons, List.map_nil, List.sum_cons,
      List.sum_nil, Command.length_encode, List.length_singleton, List.length_replicate] at hsize
    omega
  · intro line hline
    obtain rfl := List.mem_singleton.mp hline
    refine ⟨deliverable_setLine hm.le, ?_⟩
    cases hcmd : commandOf (setLine m) with
    | none => simp [entriesOf, hcmd] at hentries
    | some cmd => rfl

end Dkvs
