import Dkvs.Moves
import Dkvs.Commitment.Safety

/-!
# The client handlers and the applier of one process

The handlers that run `executeCommand` and the applier share the table of
waiters and the store. A process is seen here from that side only: a handler
parks with whatever index and term `submit` gave it, and the applier hands over
one entry after the other. Every process of a cluster behaves like this between
two restarts.
-/

namespace Dkvs

structure Frontend where
  stopping : Bool
  store : KVStore
  waiters : Waiters
  handlers : List Handler
  /-- The entries applied since the process started. -/
  applied : List LogEntry

inductive FrontendAction where
  /-- The handler has submitted its command and parks. -/
  | park (handler : Handler)
  | apply (entry : LogEntry)
  /-- The `k`-th parked handler wakes up or times out. -/
  | resume (k : ℕ)
  | stop

namespace Frontend

def boot : Frontend := ⟨false, .empty, fun _ ↦ none, [], []⟩

def park (f : Frontend) (handler : Handler) : Frontend :=
  { f with
    waiters := emplaceWaiter f.waiters handler.index
    handlers := f.handlers ++ [handler] }

def apply (f : Frontend) (entry : LogEntry) : Frontend :=
  let outcome := onApply f.store f.waiters (f.applied.length + 1) entry.term entry.command
  { f with store := outcome.1, waiters := outcome.2, applied := f.applied ++ [entry] }

/-- What the handler answers if it leaves its wait now. -/
def answer (f : Frontend) (handler : Handler) : Response :=
  (Dkvs.resume f.stopping f.waiters handler).1

def resume (f : Frontend) (k : ℕ) (handler : Handler) : Frontend :=
  { f with
    waiters := (Dkvs.resume f.stopping f.waiters handler).2
    handlers := f.handlers.eraseIdx k }

def step (f : Frontend) : FrontendAction → Option Frontend
  | .park handler => some (f.park handler)
  | .apply entry => some (f.apply entry)
  | .resume k => (f.handlers[k]?).map (f.resume k)
  | .stop => some { f with stopping := true }

/-- The enabled actions and what they do. -/
inductive Outcome (f : Frontend) : FrontendAction → Frontend → Prop
  | park (handler : Handler) : Outcome f (.park handler) (f.park handler)
  | apply (entry : LogEntry) : Outcome f (.apply entry) (f.apply entry)
  | resume {k : ℕ} {handler : Handler} (hmem : f.handlers[k]? = some handler) :
      Outcome f (.resume k) (f.resume k handler)
  | stop : Outcome f .stop { f with stopping := true }

theorem outcome {f f' : Frontend} {a : FrontendAction} (hs : f.step a = some f') :
    Outcome f a f' := by
  cases a with
  | park handler =>
      obtain rfl := Option.some.inj hs
      exact .park handler
  | apply entry =>
      obtain rfl := Option.some.inj hs
      exact .apply entry
  | resume k =>
      obtain ⟨handler, hmem, rfl⟩ := Option.map_eq_some_iff.mp hs
      exact .resume hmem
  | stop =>
      obtain rfl := Option.some.inj hs
      exact .stop

end Frontend

/-- The states of a process since it started, by actions that all satisfy `ok`. -/
inductive FrontendRun (ok : Frontend → FrontendAction → Prop) : Frontend → Prop
  | boot : FrontendRun ok .boot
  | step {f f' : Frontend} {a : FrontendAction} (h : FrontendRun ok f) (hok : ok f a)
      (hs : f.step a = some f') : FrontendRun ok f'

/-! ## The processes of a cluster -/

variable {N : ℕ} {c c' : Cluster N} {x : Fin N}

/-- The entries that node `x` has applied since it started: the last ones of all
that it ever applied. -/
def Cluster.appliedEntries (c : Cluster N) (x : Fin N) : List LogEntry :=
  let entries := c.trace.filterMap (appliedBy x)
  entries.drop (entries.length - (c.raft x).lastApplied)

def Cluster.frontend (c : Cluster N) (x : Fin N) : Frontend where
  stopping := (c.processes x).stopping
  store := (c.processes x).store
  waiters := (c.processes x).waiters
  handlers := (c.processes x).handlers
  applied := c.appliedEntries x

/-- The applier of node `x` goes through the log index by index. -/
structure ApplierOk (c : Cluster N) (x : Fin N) : Prop where
  recorded : (c.raft x).lastApplied ≤ (c.trace.filterMap (appliedBy x)).length
  applying : ∀ {idx e}, (c.processes x).applying = some (idx, e) →
    idx = (c.raft x).lastApplied + 1

theorem ApplierOk.length_appliedEntries (hok : ApplierOk c x) :
    (c.appliedEntries x).length = (c.raft x).lastApplied := by
  have hle := hok.recorded
  rw [Cluster.appliedEntries, List.length_drop]
  omega

theorem Operates.lastApplied {h : History N} {n : RaftNode} (hop : Operates c x n)
    (hsim : Sim c h) : n.lastApplied = (c.raft x).lastApplied := by
  cases hop with
  | startElection => exact (Raises.startElection _).lastApplied
  | submit command => exact (Raises.submit _ command).lastApplied
  | onRequestVote hq hdst => exact (Raises.onRequestVote _ _).lastApplied
  | onAppendEntries hq hdst =>
      have hlog : (c.raft x).log ≠ [] := by simp [(hsim.tracks x).log]
      exact (RaftNode.onAppendEntries_commit hlog _).1
  | onVoteReply hq hreply => exact (Raises.onVoteReply _ _ _).lastApplied
  | onAppendReply hr hq hreply => exact (Raises.onAppendReply _ _ _ _ _).lastApplied

theorem Move.appliedBy_of_ne {i : Fin N} {p : Process N} {events : List (Event N)}
    (hmove : Move c i p events) (hx : x ≠ i) : events.filterMap (appliedBy x) = [] := by
  cases hmove with
  | operate _ _ _ hsilent _ => exact hsilent x
  | park _ _ hsilent => exact hsilent x
  | restart _ hsilent => exact hsilent x
  | apply happ => simp [appliedBy, hx.symm]
  | _ => rfl

/-- What a step of the cluster is on the client side of process `x`. -/
inductive FrontendMove (c : Cluster N) (x : Fin N) (f : Frontend) : Prop
  | same (heq : f = c.frontend x)
  | boot (heq : f = .boot)
  | step {a : FrontendAction} (hs : (c.frontend x).step a = some f)
      (hsame : f.applied = c.appliedEntries x)
  | apply {idx : ℕ} {entry : LogEntry} (happ : (c.processes x).applying = some (idx, entry))
      (heq : f = (c.frontend x).apply entry)

/-- Nothing was applied, and the applier is as before. -/
theorem ApplierOk.unmoved (hok : ApplierOk c x)
    (htrace : c'.trace.filterMap (appliedBy x) = c.trace.filterMap (appliedBy x))
    (happlied : (c'.raft x).lastApplied = (c.raft x).lastApplied)
    (happlying : ∀ {idx e}, (c'.processes x).applying = some (idx, e) →
      idx = (c.raft x).lastApplied + 1) :
    ApplierOk c' x ∧ c'.appliedEntries x = c.appliedEntries x := by
  refine ⟨⟨?_, ?_⟩, ?_⟩
  · rw [htrace, happlied]
    exact hok.recorded
  · rw [happlied]
    exact happlying
  · rw [Cluster.appliedEntries, Cluster.appliedEntries, htrace, happlied]

theorem Cluster.frontend_eq {p : Process N} (hp : c.processes x = p) :
    c.frontend x = ⟨p.stopping, p.store, p.waiters, p.handlers, c.appliedEntries x⟩ := by
  rw [Cluster.frontend, hp]

/-- A process that applies an entry has one more of them. -/
theorem ApplierOk.apply {p : Process N} (hok : ApplierOk c x) {idx : ℕ} {e : LogEntry}
    (happ : (c.processes x).applying = some (idx, e))
    (htrace : c'.trace.filterMap (appliedBy x) = c.trace.filterMap (appliedBy x) ++ [e])
    (hp : c'.processes x = p) (happlied : p.raft.lastApplied = idx) (hidle : p.applying = none) :
    ApplierOk c' x ∧ c'.appliedEntries x = c.appliedEntries x ++ [e] := by
  have hle := hok.recorded
  have hidx := hok.applying happ
  have hlast : (c'.raft x).lastApplied = (c.raft x).lastApplied + 1 := by
    rw [Cluster.raft, hp, happlied, hidx]
  refine ⟨⟨?_, ?_⟩, ?_⟩
  · rw [htrace, hlast, List.length_append]
    exact Nat.succ_le_succ hle
  · intro idx e happ'
    rw [hp, hidle] at happ'
    simp at happ'
  · rw [Cluster.appliedEntries, Cluster.appliedEntries, htrace, hlast, List.length_append,
      List.length_singleton, Nat.add_sub_add_right, List.drop_append_of_le_length (by omega)]

/-- The step runs on process `x` itself. -/
theorem ApplierOk.move {h : History N} (hok : ApplierOk c x) (hsim : Sim c h) {p : Process N}
    {events : List (Event N)} (hmove : Move c x p events) (hp : c'.processes x = p)
    (htrace : c'.trace.filterMap (appliedBy x) =
      c.trace.filterMap (appliedBy x) ++ events.filterMap (appliedBy x)) :
    ApplierOk c' x ∧ FrontendMove c x (c'.frontend x) := by
  have hunmoved : events.filterMap (appliedBy x) = [] →
      p.raft.lastApplied = (c.raft x).lastApplied → p.applying = (c.processes x).applying →
        ApplierOk c' x ∧ c'.appliedEntries x = c.appliedEntries x := by
    intro hsilent happlied happlying
    rw [hsilent, List.append_nil] at htrace
    refine hok.unmoved htrace (by rw [Cluster.raft, hp, happlied]) ?_
    rw [hp, happlying]
    exact hok.applying
  rw [Cluster.frontend_eq hp]
  cases hmove with
  | @operate n hop voteSenders replicators hthreads events hsilent hevents =>
      obtain ⟨hok', hentries⟩ := hunmoved (hsilent x) (hop.lastApplied hsim) rfl
      exact ⟨hok', .same (by rw [hentries]; rfl)⟩
  | @park cmd hleader voteSenders events hsilent =>
      obtain ⟨hok', hentries⟩ := hunmoved (hsilent x) (Raises.submit _ _).lastApplied rfl
      refine ⟨hok', .step (a := .park ⟨((c.raft x).submit cmd.encode).2.index,
        ((c.raft x).submit cmd.encode).2.term, cmd⟩) ?_ hentries⟩
      rw [hentries]
      rfl
  | @resume k handler hmem =>
      obtain ⟨hok', hentries⟩ := hunmoved rfl rfl rfl
      refine ⟨hok', .step (a := .resume k) ?_ hentries⟩
      rw [hentries]
      exact Option.map_eq_some_iff.mpr ⟨handler, hmem, rfl⟩
  | threads voteSenders hthreads =>
      obtain ⟨hok', hentries⟩ := hunmoved rfl rfl rfl
      exact ⟨hok', .same (by rw [hentries]; rfl)⟩
  | send hsends =>
      obtain ⟨hok', hentries⟩ := hunmoved rfl rfl rfl
      exact ⟨hok', .same (by rw [hentries]; rfl)⟩
  | @fetch entry hentry =>
      rw [List.filterMap_nil, List.append_nil] at htrace
      obtain ⟨hok', hentries⟩ := hok.unmoved htrace (by rw [Cluster.raft, hp]) (by
        intro idx e happ
        rw [hp] at happ
        exact (Prod.ext_iff.mp (Option.some.inj happ)).1.symm)
      exact ⟨hok', .same (by rw [hentries]; rfl)⟩
  | @apply idx entry happ =>
      obtain ⟨hok', hentries⟩ := hok.apply happ (by simpa [appliedBy] using htrace) hp rfl rfl
      refine ⟨hok', .apply happ ?_⟩
      rw [hentries, Frontend.apply, Cluster.frontend, hok.length_appliedEntries,
        ← hok.applying happ]
  | stopServer =>
      obtain ⟨hok', hentries⟩ := hunmoved rfl rfl rfl
      refine ⟨hok', .step (a := .stop) ?_ hentries⟩
      rw [hentries]
      rfl
  | stopRaft =>
      obtain ⟨hok', hentries⟩ := hunmoved rfl rfl rfl
      exact ⟨hok', .same (by rw [hentries]; rfl)⟩
  | restart storage hsilent =>
      have hzero : (c'.raft x).lastApplied = 0 := by rw [Cluster.raft, hp]; rfl
      refine ⟨⟨?_, ?_⟩, .boot ?_⟩
      · rw [hzero]
        exact Nat.zero_le _
      · intro idx e happ
        rw [hp] at happ
        simp [Process.boot] at happ
      · rw [Cluster.appliedEntries, hzero, Nat.sub_zero, List.drop_length]
        rfl

theorem ApplierOk.step {h : History N} (hok : ApplierOk c x) (hsim : Sim c h) {a : Action N}
    (hs : c.step a = some c') :
    ApplierOk c' x ∧ FrontendMove c x (c'.frontend x) := by
  obtain ⟨i, events, hm⟩ := Cluster.exists_moves hs
  have htrace : c'.trace.filterMap (appliedBy x) =
      c.trace.filterMap (appliedBy x) ++ events.filterMap (appliedBy x) := by
    rw [hm.trace, List.filterMap_append]
  by_cases hx : x = i
  · subst hx
    exact hok.move hsim hm.move rfl htrace
  · rw [hm.move.appliedBy_of_ne hx, List.append_nil] at htrace
    have hsame := hm.other hx
    obtain ⟨hok', hentries⟩ := hok.unmoved htrace (by rw [Cluster.raft, hsame])
      (by rw [hsame]; exact hok.applying)
    refine ⟨hok', .same ?_⟩
    rw [Cluster.frontend, Cluster.frontend, hsame, hentries]

/-- Between two restarts every process of a cluster is a run of its client side. -/
theorem Run.frontend {ok : Cluster N → Action N → Prop} (hrun : Run ok c) (x : Fin N) :
    ApplierOk c x ∧ FrontendRun (fun _ _ ↦ True) (c.frontend x) := by
  induction hrun with
  | initial _ _ =>
      refine ⟨⟨Nat.zero_le _, ?_⟩, .boot⟩
      intro idx e happ
      simp [Cluster.initial, Process.boot] at happ
  | step hrun _ hs _ ih =>
      obtain ⟨h, hsim⟩ := hrun.exists_sim
      obtain ⟨hok, hfront⟩ := ih
      obtain ⟨hok', hmove⟩ := hok.step hsim hs
      refine ⟨hok', ?_⟩
      cases hmove with
      | same heq =>
          rw [heq]
          exact hfront
      | boot heq =>
          rw [heq]
          exact .boot
      | step hs' _ => exact .step hfront trivial hs'
      | @apply idx entry _ heq =>
          rw [heq]
          exact .step hfront trivial (a := .apply entry) rfl

end Dkvs
