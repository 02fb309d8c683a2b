import Dkvs.Storage.Promises

/-!
# One vote in a term

The node's ballots are the votes it has granted and its own candidacies. Messages come
from anyone: all that is known of them is that they were decoded. A node casts at most one
ballot in a term, and its term never goes back, as long as it grants no vote to the id whose
32-bit signed value is `-1`, which stands for no vote, and no election begins in the last
term of a 64-bit counter.
-/

namespace Dkvs

structure Ballot where
  term : ℕ
  candidate : ℕ
  deriving DecidableEq, Repr

namespace NodeOp

/-- Messages were decoded, from frames of any length. -/
def Decoded : NodeOp → Prop
  | .startElection | .becomeLeader | .submit _ => True
  | .becomeFollower term => term < 2 ^ 64
  | .onRequestVote args => ∃ frame, RequestVoteArgs.decode frame = some args
  | .onAppendEntries args => ∃ frame, AppendEntriesArgs.decode frame = some args
  | .onVoteReply _ reply => ∃ frame, RequestVoteReply.decode frame = some reply
  | .onAppendReply _ _ _ reply => ∃ frame, AppendEntriesReply.decode frame = some reply

/-- A candidate that gets the vote is not taken for none, and the next term is a 64-bit
number. -/
def Ordinary (n : RaftNode) : NodeOp → Prop
  | .onRequestVote args =>
      (n.onRequestVote args).2.voteGranted = true → args.candidateId ≠ 2 ^ 32 - 1
  | .startElection => n.currentTerm ≠ 2 ^ 64 - 1
  | _ => True

/-- The ballots that the operation casts. -/
def ballots (n : RaftNode) : NodeOp → List Ballot
  | .onRequestVote args =>
      if (n.onRequestVote args).2.voteGranted then
        [⟨(n.onRequestVote args).2.term, args.candidateId⟩]
      else []
  | .startElection => [⟨n.startElection.currentTerm, n.id⟩]
  | _ => []

/-- The ballots of an operation that is cut off after `m` effects: a candidacy that is
saved counts, a reply is not sent. -/
def ballotsAt (n : RaftNode) : NodeOp → ℕ → List Ballot
  | .startElection, _ + 1 => [⟨n.startElection.currentTerm, n.id⟩]
  | _, _ => []

theorem saves {n : RaftNode} (hn : MetaFits n.promise) {op : NodeOp} (hop : op.Decoded)
    (hordinary : op.Ordinary n) : Saves n (op.run n).1 := by
  cases op with
  | startElection =>
      have hterm := hn.1
      have hlast : n.currentTerm ≠ 2 ^ 64 - 1 := hordinary
      exact .startElection (by rw [RaftNode.promise] at hterm; omega)
  | becomeFollower term => exact .becomeFollower hn hop
  | becomeLeader => exact .of_keeps hn (.becomeLeader n)
  | submit command => exact .of_keeps hn (.submit n command)
  | onRequestVote args =>
      obtain ⟨frame, hdecode⟩ := hop
      exact .onRequestVote hn (RequestVoteArgs.decode_eq_some.mp hdecode).2.1
  | onAppendEntries args =>
      obtain ⟨frame, hdecode⟩ := hop
      exact .onAppendEntries hn (AppendEntriesArgs.decode_spec hdecode).1
  | onVoteReply args reply =>
      obtain ⟨frame, hdecode⟩ := hop
      exact .onVoteReply hn args (RequestVoteReply.decode_eq_some.mp hdecode).1
  | onAppendReply peer leaderTerm args reply =>
      obtain ⟨frame, hdecode⟩ := hop
      exact .onAppendReply hn peer leaderTerm args
        (AppendEntriesReply.decode_eq_some.mp hdecode).1.1

end NodeOp

/-! ## Ballots and promises -/

/-- The promise is the one that the ballot was cast with. -/
def Ballot.Binds (b : Ballot) (p : ℕ × ℤ) : Prop :=
  b.candidate < 2 ^ 32 - 1 ∧ p = (b.term, toInt32 b.candidate)

/-- The promise still respects the ballot. -/
def Ballot.Kept (b : Ballot) (p : ℕ × ℤ) : Prop :=
  b.candidate < 2 ^ 32 - 1 ∧
    (b.term < p.1 ∨ b.term = p.1 ∧ p.2 = toInt32 b.candidate)

theorem Ballot.Binds.kept {b : Ballot} {p : ℕ × ℤ} (h : b.Binds p) : b.Kept p := by
  obtain ⟨hsmall, rfl⟩ := h
  exact ⟨hsmall, Or.inr ⟨rfl, rfl⟩⟩

theorem Ballot.Kept.advances {b : Ballot} {p q : ℕ × ℤ} (h : b.Kept p) (hpq : Advances p q) :
    b.Kept q := by
  obtain ⟨hsmall, hkept⟩ := h
  refine ⟨hsmall, ?_⟩
  rcases hkept with hlt | ⟨hterm, hvote⟩
  · exact Or.inl (hlt.trans_le hpq.term_le)
  · rcases hpq with hlt | ⟨hsame, hnone | hvote'⟩
    · exact Or.inl (hterm ▸ hlt)
    · -- a vote for a candidate is not none
      exact (toInt32_ne_neg_one hsmall (hvote ▸ hnone)).elim
    · exact Or.inr ⟨hterm.trans hsame, hvote'.trans hvote⟩

theorem Ballot.Kept.unique {b b' : Ballot} {p : ℕ × ℤ} (h : b.Kept p) (h' : b'.Binds p)
    (hterm : b.term = b'.term) : b.candidate = b'.candidate := by
  obtain ⟨hsmall, hkept⟩ := h
  obtain ⟨hsmall', rfl⟩ := h'
  rcases hkept with hlt | ⟨-, hvote⟩
  · exact absurd hterm hlt.ne
  · exact (toInt32_injective (by omega) (by omega) hvote).symm

theorem onRequestVote_term (n : RaftNode) (args : RequestVoteArgs) :
    (n.onRequestVote args).2.term = (n.onRequestVote args).1.currentTerm := by
  unfold RaftNode.onRequestVote
  dsimp only
  split_ifs with hstale hlater hgrant
  all_goals rfl

theorem promise_of_granted {n : RaftNode} {args : RequestVoteArgs}
    (hgranted : (n.onRequestVote args).2.voteGranted = true) :
    (n.onRequestVote args).1.promise =
      ((n.onRequestVote args).2.term, toInt32 args.candidateId) := by
  rw [onRequestVote_term]
  rcases n.onRequestVote_cases args with ⟨-, -, hrefused⟩ | ⟨-, m, -, ⟨-, hrefused⟩ | ⟨-, -, hnode⟩⟩
  · simp [hgranted] at hrefused
  · simp [hgranted] at hrefused
  · rw [hnode]
    rfl

theorem promise_startElection (n : RaftNode) :
    n.startElection.promise = (n.startElection.currentTerm, toInt32 n.id) := by
  have hkeeps := (KeepsPromise.startElection n).promise
  have hvote : n.startElection.votedFor = toInt32 n.id := congrArg Prod.snd hkeeps
  rw [RaftNode.promise, hvote]

/-- A ballot is cast with the promise that the operation leaves. -/
theorem NodeOp.ballots_bind {n : RaftNode} {op : NodeOp} (hop : op.Decoded)
    (hordinary : op.Ordinary n) (hid : n.id < 2 ^ 32 - 1) {b : Ballot}
    (hb : b ∈ op.ballots n) : op.ballots n = [b] ∧ b.Binds (op.run n).1.promise := by
  cases op with
  | startElection =>
      obtain rfl := List.mem_singleton.mp hb
      exact ⟨rfl, hid, promise_startElection n⟩
  | onRequestVote args =>
      rw [ballots] at hb ⊢
      split_ifs at hb ⊢ with hgranted
      · obtain rfl := List.mem_singleton.mp hb
        obtain ⟨frame, hdecode⟩ := hop
        have hsmall := (RequestVoteArgs.decode_eq_some.mp hdecode).2.2.1
        have hne : args.candidateId ≠ 2 ^ 32 - 1 := hordinary hgranted
        exact ⟨rfl, by show args.candidateId < 2 ^ 32 - 1; omega, promise_of_granted hgranted⟩
      · simp at hb
  | _ => simp [ballots] at hb

/-- A candidacy is saved with the first effect. -/
theorem savedMeta_startElection {n : RaftNode} (hnil : n.effects = []) (p : ℕ × ℤ) (m : ℕ) :
    savedMeta p (n.startElection.effects.take (m + 1)) = n.startElection.promise := by
  have hkeeps := KeepsPromise.startElection n
  obtain ⟨es, hes, hunsaved⟩ := hkeeps.effects
  have hstand : n.stand.effects = [.saveMeta n.stand.currentTerm n.stand.votedFor] := by
    simp [RaftNode.stand, RaftNode.emit, hnil]
  have hrest : Unsaved (es.take m) := fun e he ↦ hunsaved e (List.mem_of_mem_take he)
  rw [hes, hstand, List.singleton_append, List.take_succ_cons, savedMeta, List.foldl_cons,
    ← savedMeta, hrest.savedMeta, hkeeps.promise]
  rfl

/-! ## The lives of a node -/

/-- An operation, a restart between two operations, or a death in the middle of one when
`m` of its effects were done, and `k` bytes of the next one if that is an `append`. -/
inductive NodeEvent where
  | perform (op : NodeOp)
  | restart
  | interrupt (op : NodeOp) (m k : ℕ)
  deriving DecidableEq, Repr

namespace NodeEvent

def Decoded : NodeEvent → Prop
  | .perform op | .interrupt op _ _ => op.Decoded
  | .restart => True

def Ordinary (x : Node) : NodeEvent → Prop
  | .perform op | .interrupt op _ _ => op.Ordinary x.raft
  | .restart => True

end NodeEvent

namespace Node

/-- The node after the event and the ballots it has cast; `none` if it cannot start
again. -/
def react (x : Node) : NodeEvent → Option (Node × List Ballot)
  | .perform op => some (x.perform op, op.ballots x.raft)
  | .restart => (x.restart x.storage.dir).map fun y ↦ (y, [])
  | .interrupt op m k =>
      (x.restart (x.filesAt op m k)).map fun y ↦ (y, op.ballotsAt x.raft m)

/-- Any number of events that are allowed where they happen, with the ballots they cast. -/
inductive Life (Allowed : Node → NodeEvent → Prop) (x : Node) : List Ballot → Node → Prop
  | start : Life Allowed x [] x
  | step {y z : Node} {ballots cast : List Ballot} {event : NodeEvent}
      (hlife : Life Allowed x ballots y) (hallowed : Allowed y event)
      (hreact : y.react event = some (z, cast)) : Life Allowed x (ballots ++ cast) z

/-- The promise in memory is the one in the file, and it respects all ballots; no two of
them are for different candidates in one term. -/
structure Votes (x : Node) (ballots : List Ballot) : Prop where
  id_lt : x.raft.id < 2 ^ 32 - 1
  stored : Storage.readMeta x.storage.dir = some x.raft.promise
  fits : MetaFits x.raft.promise
  effects : x.raft.effects = []
  kept : ∀ b ∈ ballots, b.Kept x.raft.promise
  single : ballots.Pairwise fun b b' ↦ b.term = b'.term → b.candidate = b'.candidate

theorem restart_promise {x y : Node} {dir : Directory} (hy : x.restart dir = some y) :
    Storage.readMeta dir = some y.raft.promise ∧
      Storage.readMeta y.storage.dir = some y.raft.promise ∧ y.raft.id = x.raft.id ∧
      y.raft.effects = [] := by
  unfold restart at hy
  split at hy
  · rename_i s hload
    obtain rfl := Option.some.inj hy
    obtain ⟨hread, hkept⟩ := Storage.readMeta_of_load hload
    exact ⟨hread, hkept, rfl, rfl⟩
  · simp at hy
  · simp at hy
  · simp at hy

theorem readMeta_filesAt (x : Node) (op : NodeOp) (m k : ℕ) :
    Storage.readMeta (x.filesAt op m k) =
      Storage.readMeta (x.storage.performAll ((op.run x.raft).1.effects.take m)).dir := by
  unfold filesAt
  dsimp only
  split
  · rfl
  · rfl

namespace Votes

variable {x y : Node} {ballots cast : List Ballot}

/-- A new promise that follows from the old one, and at most one ballot that is cast with
it. -/
theorem advance (hx : x.Votes ballots) (hid : y.raft.id = x.raft.id)
    (hstored : Storage.readMeta y.storage.dir = some y.raft.promise)
    (hfits : MetaFits y.raft.promise) (heffects : y.raft.effects = [])
    (hadvances : Advances x.raft.promise y.raft.promise)
    (hcast : ∀ b ∈ cast, cast = [b] ∧ b.Binds y.raft.promise) : y.Votes (ballots ++ cast) := by
  have hkept : ∀ b ∈ ballots, b.Kept y.raft.promise := fun b hb ↦
    (hx.kept b hb).advances hadvances
  refine ⟨hid ▸ hx.id_lt, hstored, hfits, heffects, ?_, ?_⟩
  · intro b hb
    rcases List.mem_append.mp hb with hb | hb
    · exact hkept b hb
    · exact (hcast b hb).2.kept
  · rw [List.pairwise_append]
    refine ⟨hx.single, ?_, fun b hb b' hb' ↦ (hkept b hb).unique (hcast b' hb').2⟩
    cases cast with
    | nil => exact List.Pairwise.nil
    | cons b cast =>
        rw [(hcast b (by simp)).1]
        exact List.pairwise_singleton _ b

/-- A restart on files whose meta file was written by some of the effects of an
operation. -/
theorem restart_after (hx : x.Votes ballots) {es : List Effect} (hes : Rising x.raft.promise es)
    {dir : Directory} (hdir : Storage.readMeta dir = some (savedMeta x.raft.promise es))
    (hy : x.restart dir = some y)
    (hcast : ∀ b ∈ cast, cast = [b] ∧ b.Binds (savedMeta x.raft.promise es)) :
    y.Votes (ballots ++ cast) ∧ Advances x.raft.promise y.raft.promise := by
  obtain ⟨hread, hstored, hid, heffects⟩ := restart_promise hy
  obtain ⟨hfits, hadvances⟩ := hes.savedMeta_spec hx.fits
  have hsame : savedMeta x.raft.promise es = y.raft.promise :=
    Option.some.inj (hdir.symm.trans hread)
  rw [hsame] at hfits hadvances hcast
  exact ⟨hx.advance hid hstored hfits heffects hadvances hcast, hadvances⟩

theorem react (hx : x.Votes ballots) {event : NodeEvent} (hdecoded : event.Decoded)
    (hordinary : event.Ordinary x) (hreact : x.react event = some (y, cast)) :
    y.Votes (ballots ++ cast) ∧ Advances x.raft.promise y.raft.promise := by
  cases event with
  | perform op =>
      obtain ⟨rfl, rfl⟩ : x.perform op = y ∧ op.ballots x.raft = cast := by
        simpa [Node.react] using hreact
      obtain ⟨hid, hfits, es, hes, hrising, hsaved⟩ := NodeOp.saves hx.fits hdecoded hordinary
      rw [hx.effects, List.nil_append] at hes
      have hadvances : Advances x.raft.promise (x.perform op).raft.promise := by
        have hrise := (hrising.savedMeta_spec hx.fits).2
        rwa [hsaved] at hrise
      have hstored : Storage.readMeta (x.perform op).storage.dir =
          some (x.perform op).raft.promise := by
        have hread := Storage.readMeta_performAll hx.stored hrising
        rwa [hsaved, ← hes] at hread
      exact ⟨hx.advance hid hstored hfits rfl hadvances
        fun b hb ↦ NodeOp.ballots_bind hdecoded hordinary hx.id_lt hb, hadvances⟩
  | restart =>
      obtain ⟨z, hz, heq⟩ := Option.map_eq_some_iff.mp hreact
      obtain ⟨rfl, rfl⟩ : z = y ∧ [] = cast := by simpa using heq
      exact @hx.restart_after _ _ _ _ [] trivial _ hx.stored hz (by simp)
  | interrupt op m k =>
      obtain ⟨z, hz, heq⟩ := Option.map_eq_some_iff.mp hreact
      obtain ⟨rfl, rfl⟩ : z = y ∧ op.ballotsAt x.raft m = cast := by simpa using heq
      obtain ⟨-, -, es, hes, hrising, -⟩ := NodeOp.saves hx.fits hdecoded hordinary
      rw [hx.effects, List.nil_append] at hes
      refine hx.restart_after (hrising.take m) ?_ hz fun b hb ↦ ?_
      · rw [readMeta_filesAt, hes]
        exact Storage.readMeta_performAll hx.stored (hrising.take m)
      · cases op with
        | startElection =>
            cases m with
            | zero => simp [NodeOp.ballotsAt] at hb
            | succ m =>
                obtain rfl := List.mem_singleton.mp hb
                have hsaved := savedMeta_startElection hx.effects x.raft.promise m
                rw [← hes]
                exact ⟨rfl, hx.id_lt, hsaved.trans (promise_startElection x.raft)⟩
        | _ => simp [NodeOp.ballotsAt] at hb

end Votes

/-- What a process finds in an empty directory. -/
def emptyStorage : Storage := ⟨Directory.empty, 0, -1, [], [], 0, 0⟩

theorem load_emptyStorage : Storage.load Directory.empty = .ok emptyStorage := rfl

theorem Life.perform {Allowed : Node → NodeEvent → Prop} {x y : Node} {ballots : List Ballot}
    (hlife : Life Allowed x ballots y) (op : NodeOp) (hallowed : Allowed y (.perform op))
    {more : List Ballot} (hmore : ballots ++ op.ballots y.raft = more) :
    Life Allowed x more (y.perform op) :=
  hmore ▸ hlife.step hallowed rfl

end Node

end Dkvs
