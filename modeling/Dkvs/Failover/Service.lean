import Dkvs.Failover.Replication

/-!
# A majority serves a command

A new leader takes a command of a client and ships its log to the majority. With the entry of
the command, which is of the leader's own term, everything before it is committed. The applier
catches up, fills the slot of the handler, and the client is answered.
-/

namespace Dkvs

open ReplicatedLog

variable {N : ℕ} {M : Finset (Fin N)} {c c' : Cluster N} {h : History N} {x y z : Fin N}
  {n : RaftNode} {t K : ℕ} {L : List LogEntry} {e : LogEntry}

/-! ## Taking the command -/

/-- What a running leader makes of a command. -/
theorem RaftNode.submit_taken (hrole : n.role = .leader) (hstop : n.stopping = false)
    (command : Bytes) : (n.submit command).2.isLeader = true ∧
      (n.submit command).1 =
        (n.push ⟨n.currentTerm, command⟩).countSelf.advanceCommit.emit (.notify .replCv) ∧
      (n.submit command).2.index = n.log.length ∧
      (n.submit command).2.term = n.currentTerm := by
  rcases n.submit_cases command with ⟨-, hrefused⟩ | ⟨-, hnode, hindex, hterm⟩
  · simp [submit, hrole, hstop] at hrefused
  · exact ⟨by simp [submit, hrole, hstop], hnode, hindex, hterm⟩

/-- The node at the end of `submit`: it has the entry, knows that it has it, and there is
nothing left to commit. -/
theorem RaftNode.push_settled (e : LogEntry) (hrole : n.role = .leader)
    (hordered : (n.push e).countSelf.advanceCommit.TermsOrdered)
    (hle : n.commitIndex ≤ n.lastLogIndex) :
    (n.push e).countSelf.advanceCommit.commitIndex ≤
        (n.push e).countSelf.advanceCommit.lastLogIndex ∧
      ∀ i, ¬ (n.push e).countSelf.advanceCommit.Committable i := by
  set m := (n.push e).countSelf with hm
  have hlog : m.log = n.log ++ [e] := rfl
  have hordered' : m.TermsOrdered := by
    obtain ⟨hsorted, hbounded⟩ := hordered
    rw [advanceCommit_log] at hsorted hbounded
    rw [advanceCommit_currentTerm] at hbounded
    exact ⟨hsorted, hbounded⟩
  refine ⟨?_, fun i ↦ hordered'.not_committable_advanceCommit hrole i⟩
  rcases m.advanceCommit_le with hsame | hin
  · rw [hsame, lastLogIndex, advanceCommit_log, hlog, List.length_append, List.length_singleton]
    rw [lastLogIndex] at hle
    exact hle.trans (by omega)
  · exact hin

theorem RaftNode.push_matchIndex (e : LogEntry) :
    (n.push e).countSelf.advanceCommit.matchIndex = n.matchIndex.set n.id n.log.length := by
  obtain ⟨commit, es, -, hframe⟩ := (n.push e).countSelf.advanceCommit_frame
  rw [hframe]
  simp [countSelf, push, emit, lastLogIndex]

theorem RaftNode.submit_quiet (hidle : n.effects = []) (command : Bytes) :
    Quiet (n.submit command).1.effects := by
  rcases n.submit_frame command with hsame | ⟨-, commit, found, es, hquiet, hframe⟩
  · rw [hsame, hidle]
    simp [Quiet]
  · rw [hframe, hidle]
    exact hquiet

theorem Cluster.executeStep_self (hidle : (c.raft z).effects = []) {cmd : Command}
    (hleads : ((c.raft z).submit cmd.encode).2.isLeader = true) :
    (c.executeStep z cmd).processes z = { c.processes z with
      raft := { ((c.raft z).submit cmd.encode).1 with effects := [] }
      storage := (c.processes z).storage.performAll ((c.raft z).submit cmd.encode).1.effects
      voteSenders := (c.processes z).voteSenders ++
        ((c.raft z).submit cmd.encode).1.effects.filterMap (voteCallOf z)
      waiters := emplaceWaiter (c.processes z).waiters ((c.raft z).submit cmd.encode).2.index
      handlers := (c.processes z).handlers ++ [⟨((c.raft z).submit cmd.encode).2.index,
        ((c.raft z).submit cmd.encode).2.term, cmd⟩] } := by
  have hspawns := replicators_of_quiet (N := N) (RaftNode.submit_quiet hidle cmd.encode)
  simp [executeStep, submitStep, hleads, updateProcess, record, settle_self, hspawns]

theorem Cluster.executeStep_of_ne (hx : x ≠ z) (cmd : Command) :
    (c.executeStep z cmd).processes x = c.processes x := by
  unfold executeStep submitStep
  dsimp only
  split_ifs with hleads
  · simp [updateProcess, record, settle_of_ne _ hx, hx]
  · simp [record, settle_of_ne _ hx]

/-- The leader takes a command, and has a log to ship with the command at its end. -/
theorem Office.execute (hoff : Office M c z t) (cmd : Command)
    (hfits : 1 < N → Shippable ((c.raft z).log.tail ++ [⟨t, cmd.encode⟩])) :
    ∃ (c' : Cluster N) (L : List LogEntry),
      c.step (.execute z cmd) = some c' ∧ Shipping M c' z t L ∧
      (c'.raft z).log[L.length]? = some ⟨t, cmd.encode⟩ ∧
      (c'.processes z).handlers = (c.processes z).handlers ++ [⟨L.length, t, cmd⟩] ∧
      ((c'.processes z).waiters L.length).isSome ∧ (c'.raft z).lastApplied < L.length ∧
      ∀ {idx e}, (c'.processes z).applying = some (idx, e) → idx < L.length := by
  obtain ⟨h, hsim⟩ := hoff.run.exists_sim
  have hlogz := (hsim.tracks z).log
  obtain ⟨hleads, hnode, hindex, hterm⟩ :=
    RaftNode.submit_taken hoff.role hoff.running cmd.encode
  rw [hoff.term] at hterm hnode
  let L : List LogEntry := h.log z ++ [⟨t, cmd.encode⟩]
  have hlength : (c.raft z).log.length = L.length := by
    rw [hlogz, List.length_cons, List.length_append, List.length_singleton]
  have hself := c.executeStep_self (hsim.nodes z).idle hleads
  rw [hindex, hterm, hlength] at hself
  have hraft : (c.executeStep z cmd).raft z =
      { ((c.raft z).submit cmd.encode).1 with effects := [] } := by
    rw [Cluster.raft, hself]
  have hterm' : ((c.executeStep z cmd).raft z).currentTerm = t := by
    rw [hraft]
    show ((c.raft z).submit cmd.encode).1.currentTerm = t
    rw [hnode]
    exact (RaftNode.advanceCommit_currentTerm _).trans hoff.term
  have hlog : ((c.executeStep z cmd).raft z).log = sentinel :: L := by
    rw [hraft]
    show ((c.raft z).submit cmd.encode).1.log = _
    rw [hnode]
    refine (RaftNode.advanceCommit_log _).trans ?_
    exact congrArg (· ++ [⟨t, cmd.encode⟩]) hlogz
  have hmatch : ((c.executeStep z cmd).raft z).matchIndex =
      (c.raft z).matchIndex.set z L.length := by
    rw [hraft]
    show ((c.raft z).submit cmd.encode).1.matchIndex = _
    rw [hnode, ← hlength, ← (hsim.tracks z).id]
    exact RaftNode.push_matchIndex _
  have hown : ((c.executeStep z cmd).raft z).matchIndex.getD z 0 = L.length := by
    rw [hmatch, List.getD_eq_getElem?_getD,
      List.getElem?_set_self ((hsim.tracks z).matchLength.symm ▸ z.isLt), Option.getD_some]
  have hnone : ∀ y ≠ z, ((c.executeStep z cmd).raft z).matchIndex.getD y 0 = 0 := by
    intro y hy
    rw [hmatch, List.getD_eq_getElem?_getD, List.getElem?_set_ne (Fin.val_injective.ne hy.symm),
      ← List.getD_eq_getElem?_getD]
    exact hoff.unmatched y hy
  have hs : c.step (.execute z cmd) = some (c.executeStep z cmd) := rfl
  have hpath : Path M c (c.executeStep z cmd) :=
    Path.single hoff.run hs hoff.mem z (fun x hx ↦ c.executeStep_of_ne hx cmd)
      (hterm'.trans_lt (hoff.term ▸ hoff.run.termsBounded z))
  have hrun' := hpath.anyRun hoff.run
  obtain ⟨h', hsim'⟩ := hrun'.exists_sim
  obtain ⟨hsorted, hbounded⟩ := hsim'.termsOrdered z
  rw [hraft, hnode] at hsorted hbounded
  have hdone : ((c.raft z).submit cmd.encode).1.commitIndex ≤
      ((c.raft z).submit cmd.encode).1.lastLogIndex ∧
        ∀ i, ¬ ((c.raft z).submit cmd.encode).1.Committable i := by
    rw [hnode]
    exact RaftNode.push_settled ⟨t, cmd.encode⟩ hoff.role ⟨hsorted, hbounded⟩ hoff.sound.commit_le
  have hraises := Raises.submit (c.raft z) cmd.encode
  have happlying : ((c.executeStep z cmd).processes z).applying = (c.processes z).applying := by
    rw [hself]
  have hend : (c.raft z).commitIndex < L.length := by
    have hle : (c.raft z).commitIndex ≤ (c.raft z).lastLogIndex := hoff.sound.commit_le
    rw [RaftNode.lastLogIndex, hlength] at hle
    have hpos : 0 < L.length := by simp [L]
    omega
  refine ⟨_, L, hs, ⟨hrun', ?_, hterm', ?_,
    hoff.sound.operate hraises hraft happlying hdone.1, hoff.mem, fun y hy ↦ ?_, ?_, hlog, hown,
    fun y hy ↦ ?_, fun y hy hyz ↦ ?_, fun i ↦ ?_, fun y _ hyz ↦ ?_⟩, ?_, ?_, ?_, ?_,
    fun {idx e} happ ↦ ?_⟩
  · rw [hraft]
    show ((c.raft z).submit cmd.encode).1.role = _
    rw [hnode]
    exact (RaftNode.advanceCommit_role _).trans hoff.role
  · rw [hraft]
    show ((c.raft z).submit cmd.encode).1.stopping = _
    rw [hnode]
    exact (RaftNode.advanceCommit_stopping _).trans hoff.running
  · by_cases hyz : y = z
    · rw [hyz, hterm']
    · rw [Cluster.raft, c.executeStep_of_ne hyz]
      exact hoff.below y hy
  · rw [hself]
    exact hoff.idle
  · by_cases hyz : y = z
    · rw [hyz, hown]
    · rw [hnone y hyz]
      exact Nat.zero_le _
  · rw [hnone y hyz, List.take_zero, List.take_zero]
  · rw [hraft]
    exact hdone.2 i
  · have hfits := hfits (by omega)
    rwa [hlogz, List.tail_cons] at hfits
  · rw [hlog]
    simp [L]
  · rw [hself]
  · rw [hself]
    exact emplaceWaiter_isSome _ _
  · rw [hraft]
    exact hraises.lastApplied.trans_lt (hoff.sound.applied_le.trans_lt hend)
  · rw [happlying] at happ
    exact (hoff.sound.applying happ).2.trans_lt hend

/-! ## Applying and answering -/

/-- The process has committed `K` entries, the last of which is `e`. A handler waits for it. -/
structure Process.Pending (p : Process N) (K : ℕ) (e : LogEntry) : Prop where
  sound : p.Sound
  commit : p.raft.commitIndex = K
  entry : p.raft.log[K]? = some e
  slot : (p.waiters K).isSome
  lastApplied_lt : p.raft.lastApplied < K
  applying : ∀ {e'}, p.applying = some (K, e') → e' = e

namespace Process.Pending

variable {p : Process N} {e' : LogEntry}

theorem lastApplied_lt_commit (hp : p.Pending K e) : p.raft.lastApplied < p.raft.commitIndex :=
  hp.lastApplied_lt.trans_eq hp.commit.symm

/-- The applier copies the next entry. -/
theorem fetched (hp : p.Pending K e) (he' : p.raft.log[p.raft.lastApplied + 1]? = some e') :
    Pending { p with applying := some (p.raft.lastApplied + 1, e') } K e := by
  refine ⟨⟨hp.sound.commit_le, hp.sound.applied_le, ?_⟩, hp.commit, hp.entry, hp.slot,
    hp.lastApplied_lt, ?_⟩
  · rintro idx e'' ⟨⟩
    exact ⟨rfl, hp.lastApplied_lt_commit⟩
  · rintro e'' heq
    obtain ⟨hidx, rfl⟩ := Prod.mk.inj (Option.some.inj heq)
    rw [hidx, hp.entry] at he'
    exact (Option.some.inj he').symm

/-- The applier hands over its copy. That fills the slot, or brings it closer. -/
theorem applied (hp : p.Pending K e)
    (hcopy : p.applying = some (p.raft.lastApplied + 1, e')) {p' : Process N}
    (hraft : p'.raft = { p.raft with lastApplied := p.raft.lastApplied + 1 })
    (hwaiters : p'.waiters =
      (onApply p.store p.waiters (p.raft.lastApplied + 1) e'.term e'.command).2)
    (hdone : p'.applying = none) :
    p'.Pending K e ∨ ∃ r, p'.waiters K = some r ∧ r.applied = true ∧ r.appliedTerm = e.term := by
  rcases Nat.eq_or_lt_of_le (Nat.succ_le_of_lt hp.lastApplied_lt) with heq | hlt
  · right
    rw [Nat.succ_eq_add_one] at heq
    rw [heq] at hcopy hwaiters
    rw [hwaiters, hp.applying hcopy]
    exact onApply_slot p.store e.term e.command hp.slot
  · left
    refine ⟨⟨?_, ?_, by simp [hdone]⟩, ?_, ?_, ?_, ?_, by simp [hdone]⟩
    · rw [hraft]
      exact hp.sound.commit_le
    · rw [hraft]
      exact hp.lastApplied_lt_commit
    · rw [hraft]
      exact hp.commit
    · rw [hraft]
      exact hp.entry
    · rw [hwaiters]
      exact onApply_isSome p.store _ _ _ hp.slot
    · rw [hraft]
      exact hlt

end Process.Pending

/-- The applier comes to its next entry. -/
theorem Path.fetch (hrun : AnyRun c) (hz : z ∈ M) (hp : (c.processes z).Pending K e) :
    ∃ c' e', Path M c c' ∧ (c'.processes z).Pending K e ∧
      (c'.processes z).applying = some ((c'.raft z).lastApplied + 1, e') ∧
      (c'.raft z).lastApplied = (c.raft z).lastApplied ∧
      (c'.processes z).handlers = (c.processes z).handlers := by
  cases hfree : (c.processes z).applying with
  | some copy =>
      obtain ⟨idx, e'⟩ := copy
      obtain ⟨rfl, -⟩ := hp.sound.applying hfree
      exact ⟨c, e', .refl, hp, hfree, rfl, rfl⟩
  | none =>
      obtain ⟨hin, -⟩ := List.getElem?_eq_some_iff.mp hp.entry
      obtain ⟨e', he'⟩ : ∃ e', (c.raft z).log[(c.raft z).lastApplied + 1]? = some e' :=
        ⟨_, List.getElem?_eq_getElem (lt_of_le_of_lt hp.lastApplied_lt hin)⟩
      have hs : c.step (.fetch z) = some (c.setProcess z { c.processes z with
          applying := some ((c.raft z).lastApplied + 1, e') }) := by
        simp [Cluster.step, Cluster.fetchStep, hfree, hp.lastApplied_lt_commit, he']
      have hself := c.setProcess_self z { c.processes z with
        applying := some ((c.raft z).lastApplied + 1, e') }
      have hraft := congrArg Process.raft hself
      have hlast := congrArg RaftNode.lastApplied hraft
      refine ⟨_, e', Path.single hrun hs hz z (fun x hx ↦ c.setProcess_of_ne hx _) ?_, ?_, ?_,
        hlast, by rw [hself]⟩
      · exact (congrArg RaftNode.currentTerm hraft).trans_lt (hrun.termsBounded z)
      · rw [hself]
        exact hp.fetched he'
      · rw [Cluster.raft, hlast, hself]

/-- The applier catches up, and the handler's slot is filled. -/
theorem Path.applyAll (hrun : AnyRun c) (hz : z ∈ M) (hp : (c.processes z).Pending K e) :
    ∃ c', Path M c c' ∧ (c'.processes z).handlers = (c.processes z).handlers ∧
      ∃ r, (c'.processes z).waiters K = some r ∧ r.applied = true ∧ r.appliedTerm = e.term := by
  induction hm : K - (c.raft z).lastApplied generalizing c with
  | zero =>
      have hlt : (c.raft z).lastApplied < K := hp.lastApplied_lt
      omega
  | succ m ih =>
      obtain ⟨c₁, e', hpath₁, hp₁, hcopy, hlast₁, hhandlers₁⟩ := Path.fetch hrun hz hp
      have hrun₁ := hpath₁.anyRun hrun
      have hs : c₁.step (.apply z) =
          some (c₁.applyStep z ((c₁.raft z).lastApplied + 1) e') := by
        simp [Cluster.step, hcopy]
      have hself : (c₁.applyStep z ((c₁.raft z).lastApplied + 1) e').processes z =
          { c₁.processes z with
            applying := none
            store := (onApply (c₁.processes z).store (c₁.processes z).waiters
              ((c₁.raft z).lastApplied + 1) e'.term e'.command).1
            waiters := (onApply (c₁.processes z).store (c₁.processes z).waiters
              ((c₁.raft z).lastApplied + 1) e'.term e'.command).2
            raft := { c₁.raft z with lastApplied := (c₁.raft z).lastApplied + 1 } } :=
        c₁.setProcess_self z _
      have hraft := congrArg Process.raft hself
      have hpath₂ := Path.single hrun₁ hs hz z (fun x hx ↦ c₁.setProcess_of_ne hx _)
        ((congrArg RaftNode.currentTerm hraft).trans_lt (hrun₁.termsBounded z))
      have hhandlers₂ := (congrArg Process.handlers hself).trans hhandlers₁
      rcases hp₁.applied hcopy hraft (congrArg Process.waiters hself)
        (congrArg Process.applying hself) with hp₂ | hfilled
      · have hlast₂ := congrArg RaftNode.lastApplied hraft
        dsimp only at hlast₂
        obtain ⟨c', hpath', hhandlers', hfilled⟩ := ih (hpath₂.anyRun hrun₁) hp₂ (by
          rw [Cluster.raft, hlast₂, hlast₁]
          omega)
        exact ⟨c', (hpath₁.trans hpath₂).trans hpath', hhandlers'.trans hhandlers₂, hfilled⟩
      · exact ⟨_, hpath₁.trans hpath₂, hhandlers₂, hfilled⟩

/-- The handler finds its slot filled and answers. -/
theorem Path.answer (hrun : AnyRun c) (hz : z ∈ M) {handlers : List Handler} {handler : Handler}
    (hhandlers : (c.processes z).handlers = handlers ++ [handler]) {r : PendingResult}
    (hslot : (c.processes z).waiters handler.index = some r) (happlied : r.applied = true)
    (hterm : r.appliedTerm = handler.term) :
    ∃ c', Path M c c' ∧
      c'.trace = c.trace ++ [.answered z handler (outcome handler.cmd r)] := by
  have hk : (c.processes z).handlers[handlers.length]? = some handler := by simp [hhandlers]
  have hs : c.step (.resume z handlers.length) =
      some (c.resumeStep z handlers.length handler) := by
    simp [Cluster.step, hk]
  have hraft : (c.resumeStep z handlers.length handler).raft z = c.raft z := by
    simp [Cluster.resumeStep, Cluster.record, Cluster.raft, Cluster.setProcess]
  refine ⟨_, Path.single hrun hs hz z (fun x hx ↦ c.setProcess_of_ne hx _) ?_, ?_⟩
  · rw [hraft]
    exact hrun.termsBounded z
  · show c.trace ++ [.answered z handler
      (resume (c.processes z).stopping (c.processes z).waiters handler).1] = _
    rw [resume_of_filled _ hslot happlied hterm]

/-! ## The whole run -/

/-- When the whole log is shipped, everything is applied and the handler answers. -/
theorem Shipping.serve (hship : Shipping M c z t L) (hM : N < 2 * M.card) {cmd : Command}
    (hentry : (c.raft z).log[L.length]? = some ⟨t, cmd.encode⟩) {handlers : List Handler}
    (hhandlers : (c.processes z).handlers = handlers ++ [⟨L.length, t, cmd⟩])
    (hslot : ((c.processes z).waiters L.length).isSome)
    (hlast : (c.raft z).lastApplied < L.length)
    (happlying : ∀ {idx e}, (c.processes z).applying = some (idx, e) → idx < L.length) :
    ∃ c' c'' response, Path M c c' ∧ Path M c' c'' ∧ response.isSuccess = true ∧
      c''.trace = c'.trace ++ [.answered z ⟨L.length, t, cmd⟩ response] := by
  obtain ⟨c₁, hpath₁, hship₁, hfront, hall⟩ := hship.ship_all (Finset.Subset.refl M)
  have hlog : (c₁.raft z).log = (c.raft z).log := hship₁.log.trans hship.log.symm
  have hentry₁ : (c₁.raft z).log[L.length]? = some ⟨t, cmd.encode⟩ := by rw [hlog, hentry]
  have hterm : (c₁.raft z).termAt L.length = t := by
    rw [RaftNode.termAt, List.getD_eq_getElem?_getD, hentry₁, Option.getD_some]
  have hpending : (c₁.processes z).Pending L.length ⟨t, cmd.encode⟩ := by
    refine ⟨hship₁.sound, hship₁.committed hM hterm hall, hentry₁, ?_, ?_, fun {e'} hcopy ↦ ?_⟩
    · rw [hfront.waiters]
      exact hslot
    · exact hfront.lastApplied.trans_lt hlast
    · rw [hfront.applying] at hcopy
      exact absurd (happlying hcopy) (lt_irrefl _)
  have hrun₁ := hship₁.run
  obtain ⟨c', hpath', hkept, r, hfilled, happlied, hmatches⟩ :=
    Path.applyAll hrun₁ hship.mem hpending
  rw [hfront.handlers, hhandlers] at hkept
  obtain ⟨c'', hpath'', htrace⟩ :=
    Path.answer (hpath'.anyRun hrun₁) hship.mem hkept hfilled happlied hmatches
  exact ⟨c', c'', _, hpath₁.trans hpath', hpath'', isSuccess_outcome cmd r, htrace⟩

/-- From every state of a run in which commit indices are vouched for, any majority of running
nodes can serve a command on its own, whatever they were doing and whatever becomes of the
others, if no batch of their logs with a no-op and the command behind them is over the frame
limit. They elect one of them. It takes the command in a term no earlier than theirs, and in
the end the handler of this command tells the client of its success. -/
theorem majority_serves (hrun : Run Vouched c) (hM : N < 2 * M.card)
    (hup : ∀ i ∈ M, (c.raft i).stopping = false)
    (hterms : ∀ i ∈ M, (c.raft i).currentTerm < 2 ^ 64 - 3) (cmd : Command)
    (hfits : 1 < N → ∀ i ∈ M, ∀ t,
      Shippable ((c.raft i).log.tail ++ [⟨t, []⟩, ⟨t, cmd.encode⟩])) :
    ∃ (z : Fin N) (c₁ c₂ c₃ c₄ : Cluster N) (handler : Handler) (response : Response),
      z ∈ M ∧ Path M c c₁ ∧ c₁.step (.execute z cmd) = some c₂ ∧
      (c₂.processes z).handlers = (c₁.processes z).handlers ++ [handler] ∧
      (∀ i ∈ M, (c.raft i).currentTerm ≤ handler.term) ∧ Path M c₂ c₃ ∧ Path M c₃ c₄ ∧
      c₄.trace = c₃.trace ++ [.answered z handler response] ∧ response.isSuccess = true := by
  obtain ⟨h, hsim, hcom⟩ := hrun.exists_commitSim
  obtain ⟨z, t, c₁, hpath₁, hoff, hle, hlog⟩ :=
    exists_office hrun.anyRun (fun i ↦ (hcom.nodes i).sound) hM hup
      (fun hmore i hi ↦ (hfits hmore i hi 0).of_isPrefix (List.prefix_append _ _)) hterms
  have hfits₁ : 1 < N → Shippable ((c₁.raft z).log.tail ++ [⟨t, cmd.encode⟩]) := by
    intro hmore
    have hne : (c.raft z).log ≠ [] := by simp [(hsim.tracks z).log]
    rw [hlog hmore, List.tail_append_of_ne_nil hne, List.append_assoc]
    exact hfits hmore z hoff.mem t
  obtain ⟨c₂, L, hexecute, hship, hentry, hhandlers, hslot, hlast, happlying⟩ :=
    hoff.execute cmd hfits₁
  obtain ⟨c₃, c₄, response, hpath₃, hpath₄, hsuccess, htrace⟩ :=
    hship.serve hM hentry hhandlers hslot hlast happlying
  exact ⟨z, c₁, c₂, c₃, c₄, _, response, hoff.mem, hpath₁, hexecute, hhandlers, hle, hpath₃,
    hpath₄, htrace, hsuccess⟩

/-- Node 0 does not know that node 1 leads a later term; node 2 is out of reach. -/
theorem majority_serves_two_leaders : ∃ c : Cluster 3, Run Vouched c ∧
    (c.raft 0).role = .leader ∧ (c.raft 1).role = .leader ∧
    ∃ (z : Fin 3) (c₁ c₂ c₃ c₄ : Cluster 3) (handler : Handler) (response : Response),
      z ∈ ({0, 1} : Finset (Fin 3)) ∧ Path {0, 1} c c₁ ∧
      c₁.step (.execute z ⟨.set, [7], [8]⟩) = some c₂ ∧
      (c₂.processes z).handlers = (c₁.processes z).handlers ++ [handler] ∧
      (∀ i ∈ ({0, 1} : Finset (Fin 3)), (c.raft i).currentTerm ≤ handler.term) ∧
      Path {0, 1} c₂ c₃ ∧ Path {0, 1} c₃ c₄ ∧
      c₄.trace = c₃.trace ++ [.answered z handler response] ∧ response.isSuccess = true := by
  obtain ⟨c, hrun, hrole, hrole', hup, hterms, hbytes⟩ : ∃ c : Cluster 3, Run Vouched c ∧
      (c.raft 0).role = .leader ∧ (c.raft 1).role = .leader ∧
      (∀ i ∈ ({0, 1} : Finset (Fin 3)), (c.raft i).stopping = false) ∧
      (∀ i ∈ ({0, 1} : Finset (Fin 3)), (c.raft i).currentTerm < 2 ^ 64 - 3) ∧
      ∀ i ∈ ({0, 1} : Finset (Fin 3)), batchBytes (c.raft i).log.tail = 12 :=
    exists_run_of_play (by decide) (by decide)
      [.timeout 0, .deliverVote 0, .voteReply 0 0 0, .timeout 1, .deliverVote 2, .voteReply 1 1 0]
      (by decide +kernel)
  refine ⟨c, hrun, hrole, hrole', majority_serves hrun (by decide) hup hterms _ fun _ i hi t ↦ ?_⟩
  apply Shippable.of_batchBytes
  rw [batchBytes_append, hbytes i hi, batchBytes]
  simp [Command.length_encode, kMaxFrameBytes]

end Dkvs
