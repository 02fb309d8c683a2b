import Dkvs.ReplicatedLog.Frame
import Dkvs.Operations
import Dkvs.Cluster

/-!
# Effects of an operation as transitions of the abstract protocol

The history of a run is a state of the abstract replicated log. An operation of
node `i` is simulated one effect at a time: each effect is matched by abstract
transitions of node `i` that change its durable state in the same way. A crash
in the middle of the operation is then covered by a prefix of the transitions.
-/

namespace Dkvs

open ReplicatedLog

variable {N : ℕ}

abbrev History (N : ℕ) := ReplicatedLog.State (Fin N) LogEntry

abbrev Quorums (N : ℕ) : QuorumSystem (Fin N) := QuorumSystem.majority (Fin N)

abbrev NodeSteps (i : Fin N) : History N → History N → Prop :=
  Steps (Quorums N) LogEntry.term i

abbrev ReachableHistory (h : History N) : Prop := Reachable (Quorums N) LogEntry.term h

/-- The value of `votedFor_` that stands for a vote. -/
def encodeVote : Option (Fin N) → ℤ
  | none => -1
  | some j => toInt32 j

/-- What node `i` has on disk according to the history. -/
def durable (h : History N) (i : Fin N) : DurableState :=
  ⟨h.term i, encodeVote (h.vote i (h.term i)), h.log i⟩

/-- The request of a candidate tells the truth about the log it stood with. -/
def VoteRequestOk (h : History N) (src : Fin N) (args : RequestVoteArgs) : Prop :=
  ∃ l, h.bid src args.term = some l ∧ args.candidateId = src ∧
    args.lastLogIndex = l.length ∧ args.lastLogTerm = lastTerm LogEntry.term l

/-- What an effect other than a storage call says about the history. -/
def Witnessed (h : History N) (i : Fin N) : Effect → Prop
  | .becomeLeader term log => h.leader term = some i ∧ h.stem term = log
  | .advanceCommit term index log =>
      h.leader term = some i ∧ log <+: h.chronicle term ∧ index ≤ log.length ∧
        Chosen (Quorums N) LogEntry.term h term index
  | .voteSender _ args => VoteRequestOk h i args
  | _ => True

theorem VoteRequestOk.mono {h h' : History N} (hext : Extends h h') {src : Fin N}
    {args : RequestVoteArgs} (hok : VoteRequestOk h src args) : VoteRequestOk h' src args := by
  obtain ⟨l, hbid, hrest⟩ := hok
  exact ⟨l, hext.bid hbid, hrest⟩

theorem Witnessed.mono {h h' : History N} (hr : ReachableHistory h) (hext : Extends h h')
    {i : Fin N} {e : Effect} (hw : Witnessed h i e) : Witnessed h' i e := by
  cases e with
  | becomeLeader term log => exact ⟨hext.leader hw.1, (hext.stem hw.1).trans hw.2⟩
  | advanceCommit term index log =>
      obtain ⟨hleader, hlog, hindex, hchosen⟩ := hw
      exact ⟨hext.leader hleader, hlog.trans (hext.chronicle hleader), hindex,
        (Invariant.of_reachable hr).chosen_mono hext hchosen⟩
  | voteSender peer args => exact VoteRequestOk.mono hext hw
  | saveMeta currentTerm votedFor => trivial
  | append entry => trivial
  | truncateFrom fromIndex => trivial
  | replicator peer leaderTerm => trivial
  | notify cv => trivial

/-- The effect `e` of node `i`, matched by transitions from `h` to `h'`. -/
structure Allowed (i : Fin N) (h : History N) (e : Effect) (h' : History N) : Prop where
  steps : NodeSteps i h h'
  disk : durable h' i = (durable h i).perform e
  fresh : ∀ {term log}, e = .becomeLeader term log → h.leader term = none
  witnessed : Witnessed h' i e

inductive Permits (i : Fin N) : History N → List Effect → History N → Prop
  | done {h h' : History N} (hs : NodeSteps i h h') (hdisk : durable h' i = durable h i) :
      Permits i h [] h'
  | cons {h h' h'' : History N} {e : Effect} {es : List Effect} (ha : Allowed i h e h')
      (hp : Permits i h' es h'') : Permits i h (e :: es) h''

namespace Permits

variable {i : Fin N} {h h' h'' : History N} {es fs : List Effect}

theorem refl (i : Fin N) (h : History N) : Permits i h [] h := .done .refl rfl

/-- A notification leaves no trace in the history. -/
theorem notices (hes : Notices es) : Permits i h es h := by
  induction es with
  | nil => exact refl i h
  | cons e es ih =>
      obtain ⟨cv, rfl⟩ := hes e List.mem_cons_self
      have hrest : Notices es := fun x hx ↦ hes x (List.mem_cons_of_mem _ hx)
      exact .cons ⟨.refl, rfl, nofun, trivial⟩ (ih hrest)

theorem prepend (hr : ReachableHistory h) (hs : NodeSteps i h h')
    (hdisk : durable h' i = durable h i) (hp : Permits i h' es h'') : Permits i h es h'' := by
  cases hp with
  | done hs' hdisk' => exact .done (hs.trans hs') (hdisk'.trans hdisk)
  | cons ha hp =>
      refine .cons ⟨hs.trans ha.steps, hdisk ▸ ha.disk, fun {term log} he ↦ ?_, ha.witnessed⟩ hp
      obtain ⟨-, hext, -⟩ := hr.steps_spec hs
      cases hl : h.leader term with
      | none => rfl
      | some c =>
          have hnone := ha.fresh he
          rw [hext.leader hl] at hnone
          exact hnone

theorem steps (hp : Permits i h es h') : NodeSteps i h h' := by
  induction hp with
  | done hs _ => exact hs
  | cons ha _ ih => exact ha.steps.trans ih

theorem append (hr : ReachableHistory h) (hp : Permits i h es h')
    (hp' : Permits i h' fs h'') : Permits i h (es ++ fs) h'' := by
  induction hp with
  | done hs hdisk => exact prepend hr hs hdisk hp'
  | cons ha _ ih => exact .cons ha (ih (hr.steps ha.steps) hp')

theorem take (hp : Permits i h es h') (m : ℕ) : ∃ g, Permits i h (es.take m) g := by
  induction hp generalizing m with
  | @done h _ _ _ => exact ⟨h, by simpa using refl i h⟩
  | @cons h _ _ e es ha _ ih =>
      cases m with
      | zero => exact ⟨h, by simpa using refl i h⟩
      | succ m =>
          obtain ⟨g, hg⟩ := ih m
          exact ⟨g, .cons ha hg⟩

theorem disk (hp : Permits i h es h') : durable h' i = (durable h i).performAll es := by
  induction hp with
  | done _ hdisk => exact hdisk
  | cons ha _ ih =>
      rw [ih, ha.disk]
      rfl

theorem spec (hr : ReachableHistory h) (hp : Permits i h es h') :
    ReachableHistory h' ∧ Extends h h' ∧ Frame i h h' :=
  hr.steps_spec hp.steps

theorem witnessed (hr : ReachableHistory h) (hp : Permits i h es h') :
    ∀ e ∈ es, Witnessed h' i e := by
  induction hp with
  | done _ _ => simp
  | cons ha hp ih =>
      have hr' := hr.steps ha.steps
      intro e he
      rcases List.mem_cons.mp he with rfl | he
      · exact ha.witnessed.mono hr' (hp.spec hr').2.1
      · exact ih hr' e he

end Permits

/-! ## The node's volatile state and the history -/

/-- The volatile state `n` of node `i` agrees with the history. -/
structure Tracks (h : History N) (i : Fin N) (n : RaftNode) : Prop where
  id : n.id = i
  size : n.clusterSize = N
  log : n.log = sentinel :: h.log i
  term : n.currentTerm = h.term i
  vote : n.votedFor = encodeVote (h.vote i (h.term i))
  matchLength : n.matchIndex.length = N
  leads : n.role = .leader → h.leader (h.term i) = some i ∧
    h.log i = h.chronicle (h.term i) ∧
      ∀ x : Fin N, n.matchIndex.getD x 0 ≤ h.ack x (h.term i)
  stands : n.role = .candidate → h.bid i (h.term i) = some (h.log i) ∧
    h.leader (h.term i) ≠ some i

namespace Tracks

variable {h h' : History N} {i j : Fin N} {n : RaftNode}

theorem lastLogIndex (ht : Tracks h i n) : n.lastLogIndex = (h.log i).length := by
  simp [RaftNode.lastLogIndex, ht.log]

theorem lastLogTerm (ht : Tracks h i n) :
    n.lastLogTerm = lastTerm LogEntry.term (h.log i) := by
  rw [RaftNode.lastLogTerm, ht.log, lastTerm]
  cases hlast : (h.log i).getLast? with
  | none =>
      rw [List.getLast?_eq_none_iff] at hlast
      simp [hlast, sentinel]
  | some e =>
      have hcons : (sentinel :: h.log i).getLast? = some e := by
        rw [List.getLast?_cons, hlast]
        rfl
      simp [hcons]

theorem termAt_succ (ht : Tracks h i n) {k : ℕ} {e : LogEntry} (he : (h.log i)[k]? = some e) :
    n.termAt (k + 1) = e.term := by
  simp [RaftNode.termAt, ht.log, List.getD_eq_getElem?_getD, he]

/-- The steps of another node do not disturb what is known of node `i`. -/
theorem frame (ht : Tracks h i n) (hne : i ≠ j) (hf : Frame j h h') (hext : Extends h h') :
    Tracks h' i n where
  id := ht.id
  size := ht.size
  log := by rw [ht.log, hf.log hne]
  term := by rw [ht.term, hf.term hne]
  vote := by rw [ht.vote, hf.vote hne, hf.term hne]
  matchLength := ht.matchLength
  leads hrole := by
    obtain ⟨hleader, hlog, hack⟩ := ht.leads hrole
    rw [hf.term hne, hf.log hne, hf.chronicle hne hleader]
    exact ⟨hext.leader hleader, hlog, fun x ↦ (hack x).trans (hext.ack_le x _)⟩
  stands hrole := by
    obtain ⟨hbid, hnot⟩ := ht.stands hrole
    rw [hf.term hne, hf.log hne, hf.bid hne]
    exact ⟨hbid, fun hl ↦ hnot (hf.leader hne hl)⟩

/-- A process that restarts knows exactly what is on its disk. -/
theorem recover (h : History N) (i : Fin N) :
    Tracks h i (RaftNode.recover i N (durable h i).currentTerm (durable h i).votedFor
      (durable h i).entries) := by
  constructor <;> simp [RaftNode.recover, durable]

end Tracks

/-- An operation leads from `n` to `n'`, and the history from `h` to `h'`. -/
structure Performs (i : Fin N) (h : History N) (n n' : RaftNode) (h' : History N) : Prop where
  effects : ∃ es, n'.effects = n.effects ++ es ∧ Permits i h es h'
  tracks : Tracks h' i n'

namespace Performs

variable {i : Fin N} {h h' h'' : History N} {n n' n'' : RaftNode}

theorem refl (ht : Tracks h i n) : Performs i h n n h :=
  ⟨⟨[], by simp, .refl i h⟩, ht⟩

theorem trans (hr : ReachableHistory h) (hp : Performs i h n n' h')
    (hp' : Performs i h' n' n'' h'') : Performs i h n n'' h'' := by
  obtain ⟨es, hes, hpermits⟩ := hp.effects
  obtain ⟨fs, hfs, hpermits'⟩ := hp'.effects
  exact ⟨⟨es ++ fs, by rw [hfs, hes, List.append_assoc], hpermits.append hr hpermits'⟩, hp'.tracks⟩

theorem steps (hp : Performs i h n n' h') : NodeSteps i h h' := by
  obtain ⟨es, -, hpermits⟩ := hp.effects
  exact hpermits.steps

theorem spec (hr : ReachableHistory h) (hp : Performs i h n n' h') :
    ReachableHistory h' ∧ Extends h h' ∧ Frame i h h' :=
  hr.steps_spec hp.steps

/-- A change of fields that the history does not speak of. -/
theorem silent (hs : NodeSteps i h h') (hdisk : durable h' i = durable h i)
    (heffects : n'.effects = n.effects) (ht : Tracks h' i n') : Performs i h n n' h' :=
  ⟨⟨[], by simpa using heffects, .done hs hdisk⟩, ht⟩

/-- Nothing but notifications. -/
theorem notices {es : List Effect} (hes : Notices es) (heffects : n'.effects = n.effects ++ es)
    (ht : Tracks h i n') : Performs i h n n' h :=
  ⟨⟨es, heffects, .notices hes⟩, ht⟩

/-- One effect, and the notifications that follow it. -/
theorem noticed {e : Effect} {es : List Effect} (ha : Allowed i h e h') (hes : Notices es)
    (heffects : n'.effects = n.effects ++ e :: es) (ht : Tracks h' i n') : Performs i h n n' h' :=
  ⟨⟨e :: es, heffects, .cons ha (.notices hes)⟩, ht⟩

theorem single {e : Effect} (ha : Allowed i h e h') (heffects : n'.effects = n.effects ++ [e])
    (ht : Tracks h' i n') : Performs i h n n' h' :=
  noticed ha .nil heffects ht

end Performs

end Dkvs
