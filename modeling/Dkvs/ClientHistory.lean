import Dkvs.Provenance
import Dkvs.Results
import Dkvs.Linearization

/-!
# What clients see of a run

A client's command is invoked when it reaches `executeCommand`. The call returns when its
handler answers with a result, it fails when the node refuses the command or reports lost
leadership, and it stays open after a commit timeout or a crash. Beside this history goes a
table that says which call wrote the entry of an index and a term. Neither has any effect on
the run.
-/

namespace Dkvs

/-- The map as a sequential object. -/
def kvObject : Linearization.Object KVStore Command Response where
  init := .empty
  next store cmd := cmd.run store
  result store cmd := cmd.result store

abbrev ClientEvent := Linearization.Event Command Response

variable {N : ℕ} {c c' : Cluster N} {i : Fin N} {cmd : Command} {slot : ℕ × ℕ} {a : Action N}

/-- The index and the term under which node `i` takes a command now. -/
def Cluster.place (c : Cluster N) (i : Fin N) (cmd : Command) : Option (ℕ × ℕ) :=
  let result := ((c.raft i).submit cmd.encode).2
  if result.isLeader then some (result.index, result.term) else none

/-- The place of the entry that an action writes for a client. An operation that is cut off
has written it if it got as far as its first effect. -/
def Cluster.issues (c : Cluster N) : Action N → Option (ℕ × ℕ)
  | .execute i cmd => c.place i cmd
  | .crashDuring (.execute i cmd) m => if 0 < m then c.place i cmd else none
  | _ => none

/-- Commands come from clients only, and their texts fit the codec. -/
def Action.Served : Action N → Prop
  | .submit _ _ => False
  | .execute _ cmd => cmd.Ranged
  | .crashDuring a _ => a.Served
  | _ => True

def Action.decideServed : (a : Action N) → Decidable a.Served
  | .submit _ _ => .isFalse id
  | .execute _ _ => inferInstanceAs (Decidable (_ < _ ∧ _ < _))
  | .crashDuring a _ => a.decideServed
  | .timeout _ | .resume _ _ | .send _ _ | .deliverVote _ | .deliverAppend _ | .voteReply _ _ _
  | .voteFailed _ _ | .appendReply _ _ _ | .appendFailed _ _ | .fetch _ | .apply _
  | .stopServer _ | .stopRaft _ | .crash _ => .isTrue trivial

instance (a : Action N) : Decidable a.Served := a.decideServed

/-- The end of a call, as the client sees it. -/
def answerEvents (call : ℕ) (response : Response) : List ClientEvent :=
  if response.isSuccess then [.returned call response]
  else if response = .lostLeadership then [.failed call]
  else []

structure Observed (N : ℕ) where
  cluster : Cluster N
  history : List ClientEvent
  /-- The call whose command was written at an index in a term. -/
  ticket : ℕ × ℕ → Option ℕ

namespace Observed

def initial (N : ℕ) : Observed N := ⟨.initial N, [], fun _ ↦ none⟩

/-- What an action adds to the history. -/
def notes (o : Observed N) : Action N → List ClientEvent
  | .execute i cmd =>
      .invoked cmd :: if (o.cluster.place i cmd).isSome then [] else [.failed o.history.length]
  | .crashDuring (.execute _ cmd) _ => [.invoked cmd]
  | .resume i k =>
      let p := o.cluster.processes i
      match p.handlers[k]? with
      | some handler =>
          match o.ticket (handler.index, handler.term) with
          | some call => answerEvents call (resume p.stopping p.waiters handler).1
          | none => []
      | none => []
  | _ => []

def observe (o : Observed N) (a : Action N) (c' : Cluster N) : Observed N where
  cluster := c'
  history := o.history ++ o.notes a
  ticket := (o.cluster.issues a).elim o.ticket fun slot ↦
    Function.update o.ticket slot (some o.history.length)

/-- Perform a list of client actions as long as they are enabled. -/
def play (o : Observed N) : List (Action N) → Option (Observed N)
  | [] => some o
  | a :: actions =>
      if Vouched o.cluster a ∧ a.Served then
        match o.cluster.step a with
        | some c' => if c'.TermsBounded then (o.observe a c').play actions else none
        | none => none
      else none

end Observed

/-- The runs in which no request overtakes its receiver and all commands come from clients. -/
inductive ObservedRun : Observed N → Prop
  | initial (hpos : 0 < N) (hsize : N < 2 ^ 32) : ObservedRun (.initial N)
  | step {o : Observed N} {a : Action N} {c' : Cluster N} (h : ObservedRun o)
      (hvouched : Vouched o.cluster a) (hserved : a.Served) (hs : o.cluster.step a = some c')
      (hb : c'.TermsBounded) : ObservedRun (o.observe a c')

theorem ObservedRun.run {o : Observed N} (h : ObservedRun o) : Run Vouched o.cluster := by
  induction h with
  | initial hpos hsize => exact .initial hpos hsize
  | step _ hvouched _ hs hb ih => exact .step ih hvouched hs hb

theorem ObservedRun.play {o o' : Observed N} (h : ObservedRun o) {actions : List (Action N)}
    (hplay : o.play actions = some o') : ObservedRun o' := by
  induction actions generalizing o with
  | nil =>
      obtain rfl : o = o' := by simpa [Observed.play] using hplay
      exact h
  | cons a actions ih =>
      rw [Observed.play] at hplay
      split_ifs at hplay with hok
      split at hplay
      · rename_i c' hs
        split_ifs at hplay with hb
        exact ih (.step h hok.1 hok.2 hs hb) hplay
      · simp at hplay

theorem exists_observed_of_play (hpos : 0 < N) (hsize : N < 2 ^ 32) (actions : List (Action N))
    {P : Observed N → Prop} [DecidablePred P]
    (hplay : ((Observed.initial N).play actions).any (fun o ↦ P o) = true) :
    ∃ o, ObservedRun o ∧ P o := by
  cases ho : (Observed.initial N).play actions with
  | none => simp [ho] at hplay
  | some o => exact ⟨o, (ObservedRun.initial hpos hsize).play ho, by simpa [ho] using hplay⟩

/-- Every run of clients can be observed. -/
theorem Run.exists_observed (hrun : Run (fun c a ↦ Vouched c a ∧ a.Served) c) :
    ∃ o : Observed N, ObservedRun o ∧ o.cluster = c := by
  induction hrun with
  | initial hpos hsize => exact ⟨_, .initial hpos hsize, rfl⟩
  | step _ hok hs hb ih =>
      obtain ⟨o, ho, rfl⟩ := ih
      exact ⟨_, .step ho hok.1 hok.2 hs hb, rfl⟩

/-! ## Places -/

theorem Cluster.place_eq_some (hplace : c.place i cmd = some slot) :
    (c.raft i).role = .leader ∧ slot = ((c.raft i).log.length, (c.raft i).currentTerm) ∧
      ((c.raft i).submit cmd.encode).2.isLeader = true ∧
      slot = (((c.raft i).submit cmd.encode).2.index, ((c.raft i).submit cmd.encode).2.term) := by
  unfold Cluster.place at hplace
  dsimp only at hplace
  split_ifs at hplace with hleader
  rcases (c.raft i).submit_cases cmd.encode with ⟨-, hrefused⟩ | ⟨hrole, -, hindex, hterm⟩
  · rw [hrefused] at hleader
    simp at hleader
  · rw [hindex, hterm] at hplace
    refine ⟨hrole, (Option.some.inj hplace).symm, hleader, ?_⟩
    rw [hindex, hterm]
    exact (Option.some.inj hplace).symm

/-- No entry stands at a place before it is given away. -/
theorem Sim.place_fresh {h : History N} (hsim : Sim c h) (hplace : c.place i cmd = some slot) :
    slot.1 = (h.chronicle slot.2).length + 1 := by
  obtain ⟨hrole, rfl, -, -⟩ := Cluster.place_eq_some hplace
  obtain ⟨-, hlog, -⟩ := (hsim.tracks i).leads hrole
  rw [(hsim.tracks i).term, ← hlog, (hsim.tracks i).log, List.length_cons]

theorem RaftNode.submit_effects {n : RaftNode} (hidle : n.effects = []) {command : Bytes}
    (hleader : (n.submit command).2.isLeader = true) :
    ∃ es, (n.submit command).1.effects = .append ⟨n.currentTerm, command⟩ :: es ∧
      Unwritten es := by
  obtain ⟨es, hes, hquiet⟩ := (n.push ⟨n.currentTerm, command⟩).countSelf.writes_advanceCommit
  refine ⟨_, ?_, hquiet.append (Notices.single .replCv).unwritten⟩
  rw [submit] at hleader ⊢
  split_ifs at hleader ⊢ with hrefuse
  simp only [emit, hes]
  simp [countSelf, push, emit, hidle]

theorem Cluster.issues_eq_some (hissues : c.issues a = some slot) :
    ∃ i cmd, c.place i cmd = some slot ∧
      (a = .execute i cmd ∨ ∃ m, 0 < m ∧ a = .crashDuring (.execute i cmd) m) := by
  unfold Cluster.issues at hissues
  split at hissues
  · exact ⟨_, _, hissues, Or.inl rfl⟩
  · split_ifs at hissues with hm
    exact ⟨_, _, hissues, Or.inr ⟨_, hm, rfl⟩⟩
  · simp at hissues

theorem Cluster.handler_mem_executeStep (hplace : c.place i cmd = some slot) :
    ⟨slot.1, slot.2, cmd⟩ ∈ ((c.executeStep i cmd).processes i).handlers := by
  obtain ⟨-, -, hleader, rfl⟩ := Cluster.place_eq_some hplace
  simp [Cluster.executeStep, hleader, Cluster.updateProcess]

/-- The entry of a command is in its leader's chronicle after the step that wrote it. -/
theorem Sim.handlerOk_of_issues {h h' : History N} (hsim : Sim c h) (hsim' : Sim c' h')
    (hs : c.step a = some c') (hplace : c.place i cmd = some slot)
    (ha : a = .execute i cmd ∨ ∃ m, 0 < m ∧ a = .crashDuring (.execute i cmd) m) :
    HandlerOk h' ⟨slot.1, slot.2, cmd⟩ := by
  rcases ha with rfl | ⟨m, hm, rfl⟩
  · obtain rfl : c.executeStep i cmd = c' := Option.some.inj hs
    exact (hsim'.nodes i).handlers _ (Cluster.handler_mem_executeStep hplace)
  · obtain ⟨-, rfl, hleader, -⟩ := Cluster.place_eq_some hplace
    obtain ⟨es, hes, hquiet⟩ := RaftNode.submit_effects (hsim.nodes i).idle hleader
    obtain ⟨k, rfl⟩ := Nat.exists_eq_succ_of_ne_zero hm.ne'
    obtain rfl : c.restart i (((c.raft i).submit cmd.encode).1.effects.take (k + 1)) = c' :=
      Option.some.inj hs
    -- the node comes back with the entry at the end of its log
    have hlen := hsim.log_length i
    have hdisk : ((c.restart i (((c.raft i).submit cmd.encode).1.effects.take
        (k + 1))).processes i).storage.entries =
        (c.processes i).storage.entries ++ [⟨(c.raft i).currentTerm, cmd.encode⟩] := by
      rw [hes, List.take_succ_cons]
      simp only [Cluster.restart, Cluster.record, Cluster.setProcess_self, Process.boot]
      exact (hquiet.take k).entries _
    have hget : ((c.restart i (((c.raft i).submit cmd.encode).1.effects.take
        (k + 1))).raft i).log[(c.processes i).storage.entries.length + 1]? =
        some ⟨(c.raft i).currentTerm, cmd.encode⟩ := by
      rw [hsim'.storage_eq i, RaftNode.durable] at hdisk
      rw [← List.getElem?_tail]
      simp only at hdisk
      rw [hdisk, List.getElem?_concat_length]
    obtain ⟨hleads, hchron⟩ := hsim'.placed hget
    refine ⟨by simp only; omega, hleads, ?_⟩
    rw [show (c.raft i).log.length - 1 = (c.processes i).storage.entries.length by omega]
    exact hchron

section Handlers

variable {x : Fin N}

theorem Cluster.handlers_setProcess {p : Process N}
    (hp : p.handlers = (c.processes i).handlers) :
    ((c.setProcess i p).processes x).handlers = (c.processes x).handlers := by
  by_cases hx : x = i
  · rw [hx, Cluster.setProcess_self, hp]
  · rw [Cluster.setProcess_of_ne c hx]

theorem Cluster.handlers_submitStep {command : Bytes} :
    ((c.submitStep i command).processes x).handlers = (c.processes x).handlers := by
  obtain ⟨-, -, -, hprocesses, -⟩ := Moves.submitStep c i command
  rw [hprocesses]
  exact Cluster.handlers_setProcess rfl

theorem Cluster.handlers_restart (writes : List Effect) :
    ((c.restart i writes).processes x).handlers =
      if some i = some x then [] else (c.processes x).handlers := by
  split_ifs with hx
  · obtain rfl := Option.some.inj hx
    simp [Cluster.restart, Cluster.record, Process.boot]
  · have hne : x ≠ i := fun heq ↦ hx (by rw [heq])
    simp [Cluster.restart, Cluster.record, hne]

/-- Handlers come and go on their own threads, or all at once. -/
theorem Cluster.handlers_keep (hs : c.step a = some c') (hexecute : ∀ i cmd, a ≠ .execute i cmd)
    (hresume : ∀ i k, a ≠ .resume i k) :
    (c'.processes x).handlers =
      if c.restarted a = some x then [] else (c.processes x).handlers := by
  cases Cluster.outcome hs with
  | execute i cmd => exact absurd rfl (hexecute i cmd)
  | @resume i k _ _ => exact absurd rfl (hresume i k)
  | submit i command => exact Cluster.handlers_submitStep
  | voteReply _ _ =>
      change _ = (c.processes x).handlers
      unfold Cluster.voteReplyStep
      dsimp only
      refine (Cluster.handlers_setProcess ?_).trans (Cluster.handlers_setProcess ?_)
      · rfl
      · rfl
  | appendReply _ _ _ =>
      change _ = (c.processes x).handlers
      unfold Cluster.appendReplyStep
      dsimp only
      refine (Cluster.handlers_setProcess ?_).trans ?_
      · rfl
      · split_ifs with hgoes
        · exact Cluster.handlers_setProcess rfl
        · exact Cluster.handlers_setProcess rfl
  | appendFailed i k r =>
      change _ = (c.processes x).handlers
      unfold Cluster.appendFailedStep
      split_ifs with hretired
      · exact Cluster.handlers_setProcess rfl
      · exact Cluster.handlers_setProcess rfl
  | crash i => exact Cluster.handlers_restart []
  | @crashDuring b i n m hop =>
      have hsame : ((c.restart i (n.effects.take m)).consume b).processes =
          (c.restart i (n.effects.take m)).processes := by
        cases b with
        | _ => rfl
      have hwho : c.restarted (.crashDuring b m) = some i := by simp [Cluster.restarted, hop]
      rw [hsame, hwho]
      exact Cluster.handlers_restart _
  | _ => exact Cluster.handlers_setProcess rfl

theorem Cluster.handlers_execute {cmd : Command} {slot : ℕ × ℕ}
    (hplace : c.place i cmd = some slot) (hs : c.step (.execute i cmd) = some c') :
    (c'.processes x).handlers =
      (c.processes x).handlers ++ if i = x then [⟨slot.1, slot.2, cmd⟩] else [] := by
  obtain ⟨-, -, hleader, rfl⟩ := Cluster.place_eq_some hplace
  obtain rfl : c.executeStep i cmd = c' := Option.some.inj hs
  unfold Cluster.executeStep
  dsimp only
  rw [if_pos hleader, Cluster.updateProcess]
  split_ifs with hx
  · subst hx
    rw [Cluster.setProcess_self]
    simp only [Cluster.handlers_submitStep]
  · rw [Cluster.setProcess_of_ne _ (Ne.symm hx), Cluster.handlers_submitStep, List.append_nil]

theorem Cluster.handlers_refused {cmd : Command} (hplace : c.place i cmd = none)
    (hs : c.step (.execute i cmd) = some c') :
    (c'.processes x).handlers = (c.processes x).handlers := by
  have hrefused : ¬ ((c.raft i).submit cmd.encode).2.isLeader = true := by
    intro hleader
    rw [Cluster.place, if_pos hleader] at hplace
    simp at hplace
  obtain rfl : c.executeStep i cmd = c' := Option.some.inj hs
  unfold Cluster.executeStep
  dsimp only
  rw [if_neg hrefused]
  exact Cluster.handlers_submitStep

theorem Cluster.handlers_resume {k : ℕ} (hs : c.step (.resume i k) = some c') :
    (c'.processes x).handlers =
      if i = x then (c.processes x).handlers.eraseIdx k else (c.processes x).handlers := by
  obtain ⟨handler, -, rfl⟩ := Option.map_eq_some_iff.mp hs
  split_ifs with hx
  · subst hx
    exact congrArg Process.handlers (c.setProcess_self i _)
  · exact congrArg Process.handlers (c.setProcess_of_ne (Ne.symm hx) _)

/-- A handler that is parked after a step was parked before, or the step parked it. -/
theorem Cluster.handlers_step (hs : c.step a = some c') {handler : Handler}
    (hmem : handler ∈ (c'.processes x).handlers) :
    handler ∈ (c.processes x).handlers ∨
      ∃ cmd slot, a = .execute x cmd ∧ c.place x cmd = some slot ∧
        handler = ⟨slot.1, slot.2, cmd⟩ := by
  by_cases hexecute : ∃ i cmd, a = .execute i cmd
  · obtain ⟨i, cmd, rfl⟩ := hexecute
    cases hplace : c.place i cmd with
    | none => exact Or.inl (Cluster.handlers_refused hplace hs ▸ hmem)
    | some slot =>
        rw [Cluster.handlers_execute hplace hs] at hmem
        rcases List.mem_append.mp hmem with hold | hnew
        · exact Or.inl hold
        · split_ifs at hnew with hx
          · subst hx
            exact Or.inr ⟨cmd, slot, rfl, hplace, List.mem_singleton.mp hnew⟩
          · simp at hnew
  by_cases hresume : ∃ i k, a = .resume i k
  · obtain ⟨i, k, rfl⟩ := hresume
    rw [Cluster.handlers_resume hs] at hmem
    split_ifs at hmem
    · exact Or.inl (List.eraseIdx_subset hmem)
    · exact Or.inl hmem
  · rw [Cluster.handlers_keep hs (fun i cmd heq ↦ hexecute ⟨i, cmd, heq⟩)
      fun i k heq ↦ hresume ⟨i, k, heq⟩] at hmem
    split_ifs at hmem
    · simp at hmem
    · exact Or.inl hmem

end Handlers

end Dkvs
