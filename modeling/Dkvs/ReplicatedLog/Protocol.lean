import Dkvs.ReplicatedLog.Quorum

/-!
# An abstract leader-based replicated log

The state keeps the whole history that a safety argument needs: every vote ever
cast, the log each candidate stood with, the leader of each term with the log
it was elected on (its `stem`) and the log it has reached since (its
`chronicle`), and the highest index each node has acknowledged in each term.
Every transition belongs to one acting node.
-/

namespace ReplicatedLog

structure State (N E : Type*) where
  term : N → ℕ
  log : N → List E
  vote : N → ℕ → Option N
  bid : N → ℕ → Option (List E)
  leader : ℕ → Option N
  voters : ℕ → Finset N
  stem : ℕ → List E
  chronicle : ℕ → List E
  ack : N → ℕ → ℕ

namespace State

def initial (N E : Type*) : State N E where
  term _ := 0
  log _ := []
  vote _ _ := none
  bid _ _ := none
  leader _ := none
  voters _ := ∅
  stem _ := []
  chronicle _ := []
  ack _ _ := 0

variable {N E : Type*} [DecidableEq N]

def adopt (s : State N E) (x : N) (t : ℕ) : State N E :=
  { s with term := Function.update s.term x t }

/-- Enter term `t` as a candidate with the present log, voting for oneself. -/
def stand (s : State N E) (c : N) (t : ℕ) : State N E :=
  { s with
    term := Function.update s.term c t
    vote := Function.update s.vote c (Function.update (s.vote c) t (some c))
    bid := Function.update s.bid c (Function.update (s.bid c) t (some (s.log c))) }

def castVote (s : State N E) (x c : N) : State N E :=
  { s with
    vote := Function.update s.vote x (Function.update (s.vote x) (s.term x) (some c)) }

def elect (s : State N E) (c : N) (Q : Finset N) : State N E :=
  { s with
    leader := Function.update s.leader (s.term c) (some c)
    voters := Function.update s.voters (s.term c) Q
    stem := Function.update s.stem (s.term c) (s.log c)
    chronicle := Function.update s.chronicle (s.term c) (s.log c) }

/-- The leader of its own term extends its log by one entry. -/
def extend (s : State N E) (c : N) (e : E) : State N E :=
  { s with
    log := Function.update s.log c (s.log c ++ [e])
    chronicle := Function.update s.chronicle (s.term c) (s.log c ++ [e]) }

def setLog (s : State N E) (x : N) (l : List E) : State N E :=
  { s with log := Function.update s.log x l }

def acknowledge (s : State N E) (x : N) (m : ℕ) : State N E :=
  { s with
    ack := Function.update s.ack x
      (Function.update (s.ack x) (s.term x) (max (s.ack x (s.term x)) m)) }

@[simp] theorem setLog_self (s : State N E) (x : N) : s.setLog x (s.log x) = s := by
  simp [setLog]

@[simp] theorem setLog_log (s : State N E) (x : N) (l : List E) : (s.setLog x l).log x = l := by
  simp [setLog]

@[simp] theorem setLog_setLog (s : State N E) (x : N) (l l' : List E) :
    (s.setLog x l).setLog x l' = s.setLog x l' := by
  simp [setLog]

end State

section Dynamics

variable {N E : Type*} [DecidableEq N] (Q : QuorumSystem N) (termOf : E → ℕ)

/-- The term of the last entry, with `0` for the empty log. -/
def lastTerm (l : List E) : ℕ := (l.getLast?.map termOf).getD 0

/-- The comparison a voter makes before it grants its vote. -/
def UpToDate (candidate voter : List E) : Prop :=
  lastTerm termOf voter < lastTerm termOf candidate ∨
    lastTerm termOf candidate = lastTerm termOf voter ∧ voter.length ≤ candidate.length

/-- The transitions of the node `i`. A follower changes its log one entry at a
time: it cuts off a tail at a point where it differs from the leader's
chronicle, or it copies the next entry of the chronicle. -/
inductive Step (i : N) : State N E → State N E → Prop
  | adopt (s : State N E) (t : ℕ) (hterm : s.term i ≤ t) : Step i s (s.adopt i t)
  | stand (s : State N E) (t : ℕ) (hterm : s.term i < t) : Step i s (s.stand i t)
  | castVote (s : State N E) (c : N) (l : List E)
      (hbid : s.bid c (s.term i) = some l)
      (hfree : s.vote i (s.term i) = none ∨ s.vote i (s.term i) = some c)
      (hlog : UpToDate termOf l (s.log i)) : Step i s (s.castVote i c)
  | elect (s : State N E) (V : Finset N) (hV : Q.IsQuorum V)
      (hvotes : ∀ x ∈ V, s.vote x (s.term i) = some i)
      (hbid : s.bid i (s.term i) = some (s.log i))
      (hnew : s.leader (s.term i) ≠ some i) : Step i s (s.elect i V)
  | extend (s : State N E) (e : E) (hleader : s.leader (s.term i) = some i)
      (hlog : s.log i = s.chronicle (s.term i)) (hterm : termOf e = s.term i) :
      Step i s (s.extend i e)
  | truncate (s : State N E) (c : N) (d : ℕ) (hleader : s.leader (s.term i) = some c)
      (hagree : (s.log i).take d = (s.chronicle (s.term i)).take d)
      (hdiffer : (s.log i)[d]? ≠ (s.chronicle (s.term i))[d]?) :
      Step i s (s.setLog i ((s.log i).take d))
  | copy (s : State N E) (c : N) (e : E) (hleader : s.leader (s.term i) = some c)
      (hagree : s.log i = (s.chronicle (s.term i)).take (s.log i).length)
      (hnext : (s.chronicle (s.term i))[(s.log i).length]? = some e) :
      Step i s (s.setLog i (s.log i ++ [e]))
  | acknowledge (s : State N E) (c : N) (m : ℕ) (hleader : s.leader (s.term i) = some c)
      (hm : m ≤ (s.chronicle (s.term i)).length)
      (hagree : (s.log i).take m = (s.chronicle (s.term i)).take m) :
      Step i s (s.acknowledge i m)

/-- Any number of transitions of one node. -/
def Steps (i : N) : State N E → State N E → Prop :=
  Relation.ReflTransGen (Step Q termOf i)

inductive Reachable : State N E → Prop
  | initial : Reachable (State.initial N E)
  | step {s s' : State N E} {i : N} (h : Reachable s) (hs : Step Q termOf i s s') :
      Reachable s'

variable {Q termOf}

theorem Reachable.steps {s s' : State N E} {i : N} (h : Reachable Q termOf s)
    (hs : Steps Q termOf i s s') : Reachable Q termOf s' := by
  induction hs with
  | refl => exact h
  | tail _ hstep ih => exact .step ih hstep

/-- Every invariant of the single transitions holds in every reachable state. -/
theorem Reachable.invariant {P : State N E → Prop} (hinit : P (State.initial N E))
    (hstep : ∀ {s s' : State N E} {i : N}, P s → Step Q termOf i s s' → P s')
    {s : State N E} (h : Reachable Q termOf s) : P s := by
  induction h with
  | initial => exact hinit
  | step _ hs ih => exact hstep ih hs

end Dynamics

end ReplicatedLog
