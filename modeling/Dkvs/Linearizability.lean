import Dkvs.ClientHistory
import Dkvs.Durability

/-!
# The store is linearizable

The order in which commands take effect is the order of the longest log that was ever
committed. Every entry of that log is a no-op or belongs to one client call; a call that
returned has its entry there, one that failed has not, and a command that was taken after
another call had returned stands behind it.
-/

namespace Dkvs

open ReplicatedLog

variable {N : ℕ} {c c' : Cluster N} {h h' : History N} {o : Observed N} {a : Action N}

/-! ## What was committed -/

theorem Committed.placed {idx : ℕ} {e : LogEntry} (hcom : Committed c.trace idx e)
    (hsim : Sim c h) : Placed h (idx - 1) e := by
  obtain ⟨-, x, t, m, log, hmem, -, hget⟩ := hcom
  obtain ⟨hleader, hlog, -, -⟩ := hsim.trace.events _ hmem
  have hchron := getElem?_of_isPrefix hlog hget
  obtain ⟨helected, hagree⟩ :=
    (Invariant.of_reachable hsim.reach).log.chronicle_sound hleader hchron
  refine ⟨helected, ?_⟩
  rw [← getElem?_eq_of_take_eq hagree (Nat.lt_succ_self _)]
  exact hchron

theorem Committed.on_disk {idx : ℕ} {e : LogEntry} (hcom : Committed c.trace idx e)
    (hsim : Sim c h) : ∃ i, (c.processes i).storage.entries[idx - 1]? = some e := by
  obtain ⟨hpos, x, t, m, log, hmem, hm, hget⟩ := hcom
  obtain ⟨-, hlog, V, hquorum, hheld⟩ := hsim.exists_held hmem
  obtain ⟨i, hi, -⟩ := (Quorums N).meet hquorum hquorum
  refine ⟨i, ?_⟩
  rw [← List.getElem?_take_of_lt (show idx - 1 < m by omega), hlog] at hget
  rw [(hsim.nodes i).disk, durable]
  exact getElem?_of_isPrefix (hheld i hi).2 hget

/-- Of the parts of the log that were committed, one contains all the others. -/
theorem Sim.exists_certified_max (hsim : Sim c h) :
    ∃ t l, Certified c.trace t l ∧ ∀ {t' l'}, Certified c.trace t' l' → l' <+: l := by
  let parts : List (ℕ × List LogEntry) := (0, []) :: c.trace.filterMap fun
    | .advanceCommit _ t m log => some (t, log.take m)
    | .becomeLeader _ _ _ | .submitted _ _ _ _ | .applied _ _ _ _ => none
    | .answered _ _ _ | .refused _ _ _ => none
  have hcert : ∀ p ∈ parts, Certified c.trace p.1 p.2 := by
    intro p hp
    rcases List.mem_cons.mp hp with rfl | hp
    · exact Or.inl rfl
    · obtain ⟨e, he, heq⟩ := List.mem_filterMap.mp hp
      cases e with
      | advanceCommit x t m log =>
          obtain rfl : (t, log.take m) = p := by simpa using heq
          exact Or.inr ⟨x, t, m, log, he, le_rfl, List.prefix_rfl⟩
      | _ => simp at heq
  obtain ⟨p, hp, hmax⟩ := parts.toFinset.exists_max_image (fun p ↦ p.2.length)
    ⟨(0, []), by simp [parts]⟩
  rw [List.mem_toFinset] at hp
  refine ⟨p.1, p.2, hcert p hp, fun {t' l'} hl' ↦ ?_⟩
  rcases hl' with rfl | ⟨x, u, m, log, hmem, hu, hl'⟩
  · exact List.nil_prefix
  · have hpart : (u, log.take m) ∈ parts :=
      List.mem_cons_of_mem _ (List.mem_filterMap.mpr ⟨_, hmem, rfl⟩)
    have hle := hmax _ (List.mem_toFinset.mpr hpart)
    refine hl'.trans ?_
    rcases (hcert _ hpart).comparable (hcert p hp) hsim with hpre | hpre
    · exact hpre
    · exact (hpre.eq_of_length_le hle) ▸ List.prefix_rfl

/-- What a node has applied is part of what was committed. -/
theorem Run.certified_appliedEntries (hrun : Run Vouched c) (x : Fin N) :
    ∃ t, Certified c.trace t (c.appliedEntries x) := by
  induction hrun with
  | initial _ _ => exact ⟨0, Or.inl (by simp [Cluster.appliedEntries, Cluster.initial])⟩
  | @step c c' a hrun _ hs _ ih =>
      obtain ⟨t, hcert⟩ := ih
      obtain ⟨h, hsim, hcom⟩ := hrun.exists_commitSim
      have happlier := (hrun.frontend x).1
      have hsub := Cluster.trace_subset_step hs
      have hentries : (c'.frontend x).applied = c'.appliedEntries x := rfl
      rw [← hentries]
      cases (happlier.step hsim hs).2 with
      | same heq =>
          rw [heq]
          exact ⟨t, hcert.mono hsub le_rfl⟩
      | boot heq =>
          rw [heq]
          exact ⟨0, Or.inl rfl⟩
      | step _ hsame =>
          rw [hsame]
          exact ⟨t, hcert.mono hsub le_rfl⟩
      | @apply idx entry happ heq =>
          rw [heq]
          obtain ⟨-, hget⟩ := (hcom.nodes x).applying happ
          have hlen := happlier.length_appliedEntries
          have hnode : Certified c.trace (c.raft x).currentTerm (c.raft x).committed :=
            (hcom.nodes x).certified
          -- the applied entries are the committed ones up to `lastApplied`
          have htake : c.appliedEntries x = (c.raft x).committed.take (c.raft x).lastApplied := by
            have hle : (c.raft x).lastApplied ≤ (c.raft x).commitIndex :=
              (hcom.nodes x).applied_le
            have hcommitted : (c.raft x).committed.length = (c.raft x).commitIndex :=
              RaftNode.length_committed (hcom.nodes x).commit_le
            rcases hcert.comparable hnode hsim with hpre | hpre
            · rw [← hlen]
              exact List.prefix_iff_eq_take.mp hpre
            · rw [hpre.eq_of_length_le (by omega), ← hlen, List.take_length]
          refine ⟨_, (hnode.mono hsub le_rfl).of_isPrefix ?_⟩
          show c.appliedEntries x ++ [entry] <+: _
          rw [htake, ← take_succ_of_getElem? hget]
          exact List.take_prefix _ _

/-! ## The table of calls -/

/-- The entry is a no-op or belongs to a call. -/
def Observed.Ticketed (o : Observed N) (idx : ℕ) (e : LogEntry) : Prop :=
  e.command = [] ∨ ∃ call, o.ticket (idx, e.term) = some call

/-- The command was committed, and `r` is what it gives after the commands before it. -/
def Effected (events : List (Event N)) (slot : ℕ × ℕ) (cmd : Command) (r : Response) : Prop :=
  ∃ t l, Certified events t l ∧ l[slot.1 - 1]? = some ⟨slot.2, cmd.encode⟩ ∧
    r = cmd.result (foldCommands (l.take (slot.1 - 1)))

/-- Another term's entry was committed in its place. -/
def Overruled (events : List (Event N)) (slot : ℕ × ℕ) : Prop :=
  ∃ e, Committed events slot.1 e ∧ e.term ≠ slot.2

structure Ledger (o : Observed N) (h : History N) : Prop where
  issued : ∀ {slot call}, o.ticket slot = some call → ∃ cmd,
    o.history[call]? = some (.invoked cmd) ∧ cmd.Ranged ∧ HandlerOk h ⟨slot.1, slot.2, cmd⟩
  distinct : ∀ {slot slot' call}, o.ticket slot = some call → o.ticket slot' = some call →
    slot = slot'
  parked : ∀ x, ∀ handler ∈ (o.cluster.processes x).handlers, ∃ call,
    o.ticket (handler.index, handler.term) = some call ∧
      o.history[call]? = some (.invoked handler.cmd)
  carries : Carries o.Ticketed o.cluster
  returned : ∀ {call r}, .returned call r ∈ o.history → ∃ slot cmd,
    o.ticket slot = some call ∧ o.history[call]? = some (.invoked cmd) ∧
      Effected o.cluster.trace slot cmd r
  failed : ∀ {call}, .failed call ∈ o.history → call < o.history.length ∧
    ∀ {slot}, o.ticket slot = some call → Overruled o.cluster.trace slot
  ordered : ∀ {pos call : ℕ} {r : Response} {call' : ℕ} {slot slot' : ℕ × ℕ},
    o.history[pos]? = some (.returned call r) → pos < call' → o.ticket slot = some call →
      o.ticket slot' = some call' → slot.1 < slot'.1 ∨ Overruled o.cluster.trace slot'

theorem Effected.mono {events events' : List (Event N)} {slot : ℕ × ℕ} {cmd : Command}
    {r : Response} (heff : Effected events slot cmd r) (hsub : events ⊆ events') :
    Effected events' slot cmd r := by
  obtain ⟨t, l, hcert, hrest⟩ := heff
  exact ⟨t, l, hcert.mono hsub le_rfl, hrest⟩

theorem Overruled.mono {events events' : List (Event N)} {slot : ℕ × ℕ}
    (hover : Overruled events slot) (hsub : events ⊆ events') : Overruled events' slot := by
  obtain ⟨e, hcom, hne⟩ := hover
  exact ⟨e, hcom.mono hsub, hne⟩

/-- A command that is taken after another one was committed stands behind it, or its place
has been given to another term. -/
theorem Effected.behind {slot slot' : ℕ × ℕ} {cmd : Command} {r : Response}
    (heff : Effected c.trace slot cmd r) (hsim : Sim c h) (hissues : c.issues a = some slot') :
    slot.1 < slot'.1 ∨ Overruled c.trace slot' := by
  obtain ⟨t, l, hcert, hget, -⟩ := heff
  obtain ⟨i, cmd', hplace, -⟩ := Cluster.issues_eq_some hissues
  have hend := hsim.place_fresh hplace
  rcases Nat.lt_or_ge slot.1 slot'.1 with hlt | hge
  · exact Or.inl hlt
  · right
    obtain ⟨hin, -⟩ := List.getElem?_eq_some_iff.mp hget
    obtain ⟨e, he⟩ : ∃ e, l[slot'.1 - 1]? = some e :=
      ⟨_, List.getElem?_eq_getElem (show slot'.1 - 1 < l.length by omega)⟩
    have hcommitted := hcert.committed he
    obtain ⟨-, hchron⟩ := hcommitted.placed hsim
    rw [Nat.sub_add_cancel (by omega)] at hcommitted hchron
    refine ⟨e, hcommitted, ?_⟩
    rintro hterm
    rw [hterm] at hchron
    obtain ⟨hlt, -⟩ := List.getElem?_eq_some_iff.mp hchron
    omega

namespace Observed

theorem ticket_observe {slot : ℕ × ℕ} {call : ℕ}
    (hticket : (o.observe a c').ticket slot = some call) :
    o.ticket slot = some call ∨ o.cluster.issues a = some slot ∧ call = o.history.length := by
  cases hissues : o.cluster.issues a with
  | none =>
      rw [observe, hissues] at hticket
      exact Or.inl hticket
  | some place =>
      rw [observe, hissues] at hticket
      by_cases hslot : slot = place
      · subst hslot
        simp only [Option.elim_some, Function.update_self, Option.some.injEq] at hticket
        exact Or.inr ⟨rfl, hticket.symm⟩
      · simp only [Option.elim_some, Function.update_of_ne hslot] at hticket
        exact Or.inl hticket

theorem ticket_observe_of_issues {slot : ℕ × ℕ} (hissues : o.cluster.issues a = some slot) :
    (o.observe a c').ticket slot = some o.history.length := by
  simp [observe, hissues]

theorem history_observe {pos : ℕ} {e : ClientEvent} (hget : o.history[pos]? = some e) :
    (o.observe a c').history[pos]? = some e :=
  getElem?_of_isPrefix (List.prefix_append _ _) hget

theorem notes_of_issues {i : Fin N} {cmd : Command} {slot : ℕ × ℕ}
    (hplace : o.cluster.place i cmd = some slot)
    (ha : a = .execute i cmd ∨ ∃ m, 0 < m ∧ a = .crashDuring (.execute i cmd) m) :
    o.notes a = [.invoked cmd] := by
  rcases ha with rfl | ⟨m, -, rfl⟩
  · simp [notes, hplace]
  · rfl

/-- A call ends when its handler leaves its wait, or at once. -/
theorem mem_notes {e : ClientEvent} (hmem : e ∈ o.notes a) :
    (∃ cmd, e = .invoked cmd) ∨ e = .failed o.history.length ∧ o.cluster.issues a = none ∨
      ∃ i k handler call, a = .resume i k ∧
        (o.cluster.processes i).handlers[k]? = some handler ∧
        o.ticket (handler.index, handler.term) = some call ∧
        e ∈ answerEvents call (resume (o.cluster.processes i).stopping
          (o.cluster.processes i).waiters handler).1 := by
  unfold notes at hmem
  split at hmem
  · rcases List.mem_cons.mp hmem with rfl | hmem
    · exact Or.inl ⟨_, rfl⟩
    · split_ifs at hmem with hplace
      · simp at hmem
      · refine Or.inr (Or.inl ⟨List.mem_singleton.mp hmem, ?_⟩)
        simpa [Cluster.issues] using hplace
  · exact Or.inl ⟨_, List.mem_singleton.mp hmem⟩
  · dsimp only at hmem
    split at hmem
    · rename_i handler hhandler
      split at hmem
      · rename_i call hcall
        exact Or.inr (Or.inr ⟨_, _, handler, call, rfl, hhandler, hcall, hmem⟩)
      · simp at hmem
    · simp at hmem
  · simp at hmem

end Observed

theorem returned_mem_answerEvents {call call' : ℕ} {response r : Response}
    (hmem : .returned call' r ∈ answerEvents call response) :
    call' = call ∧ r = response ∧ response.isSuccess = true := by
  unfold answerEvents at hmem
  split_ifs at hmem with hok hlost
  · simp only [List.mem_singleton, Linearization.Event.returned.injEq] at hmem
    exact ⟨hmem.1, hmem.2, hok⟩
  · simp at hmem
  · simp at hmem

theorem failed_mem_answerEvents {call call' : ℕ} {response : Response}
    (hmem : .failed call' ∈ answerEvents call response) :
    call' = call ∧ response = .lostLeadership := by
  unfold answerEvents at hmem
  split_ifs at hmem with hok hlost
  · simp at hmem
  · simp only [List.mem_singleton, Linearization.Event.failed.injEq] at hmem
    exact ⟨hmem, hlost⟩
  · simp at hmem

namespace Ledger

section Step

variable (hled : Ledger o h) (hsim : Sim o.cluster h)

include hled

theorem call_lt {slot : ℕ × ℕ} {call : ℕ} (hticket : o.ticket slot = some call) :
    call < o.history.length := by
  obtain ⟨cmd, hget, -⟩ := hled.issued hticket
  exact (List.getElem?_eq_some_iff.mp hget).1

include hsim

/-- No call has a ticket for a place that is only now given away. -/
theorem fresh {slot : ℕ × ℕ} (hissues : o.cluster.issues a = some slot) :
    o.ticket slot = none := by
  obtain ⟨i, cmd, hplace, -⟩ := Cluster.issues_eq_some hissues
  have hend := hsim.place_fresh hplace
  cases hticket : o.ticket slot with
  | none => rfl
  | some call =>
      obtain ⟨cmd', -, -, -, -, hget⟩ := hled.issued hticket
      obtain ⟨hlt, -⟩ := List.getElem?_eq_some_iff.mp hget
      simp only at hlt
      omega

theorem ticket_mono {slot : ℕ × ℕ} {call : ℕ} (hticket : o.ticket slot = some call) :
    (o.observe a c').ticket slot = some call := by
  cases hissues : o.cluster.issues a with
  | none => simpa [Observed.observe, hissues] using hticket
  | some place =>
      have hne : slot ≠ place := by
        rintro rfl
        rw [hled.fresh hsim hissues] at hticket
        simp at hticket
      simpa [Observed.observe, hissues, Function.update_of_ne hne] using hticket

theorem issued_step (hsim' : Sim c' h') (hext : Extends h h') (hserved : a.Served)
    (hs : o.cluster.step a = some c') {slot : ℕ × ℕ} {call : ℕ}
    (hticket : (o.observe a c').ticket slot = some call) : ∃ cmd,
    (o.observe a c').history[call]? = some (.invoked cmd) ∧ cmd.Ranged ∧
      HandlerOk h' ⟨slot.1, slot.2, cmd⟩ := by
  rcases Observed.ticket_observe hticket with hold | ⟨hissues, rfl⟩
  · obtain ⟨cmd, hget, hcmd, hok⟩ := hled.issued hold
    exact ⟨cmd, Observed.history_observe hget, hcmd, hok.mono hext⟩
  · obtain ⟨i, cmd, hplace, ha⟩ := Cluster.issues_eq_some hissues
    refine ⟨cmd, ?_, ?_, hsim.handlerOk_of_issues hsim' hs hplace ha⟩
    · rw [Observed.observe, Observed.notes_of_issues hplace ha, List.getElem?_concat_length]
    · rcases ha with rfl | ⟨m, -, rfl⟩
      · exact hserved
      · exact hserved

omit hsim in
theorem distinct_step {slot slot' : ℕ × ℕ} {call : ℕ}
    (hticket : (o.observe a c').ticket slot = some call)
    (hticket' : (o.observe a c').ticket slot' = some call) : slot = slot' := by
  rcases Observed.ticket_observe hticket with hold | ⟨hissues, rfl⟩
  · rcases Observed.ticket_observe hticket' with hold' | ⟨-, rfl⟩
    · exact hled.distinct hold hold'
    · exact absurd (hled.call_lt hold) (lt_irrefl _)
  · rcases Observed.ticket_observe hticket' with hold' | ⟨hissues', -⟩
    · exact absurd (hled.call_lt hold') (lt_irrefl _)
    · exact Option.some.inj (hissues.symm.trans hissues')

theorem parked_step (hs : o.cluster.step a = some c') (x : Fin N) {handler : Handler}
    (hmem : handler ∈ (c'.processes x).handlers) : ∃ call,
    (o.observe a c').ticket (handler.index, handler.term) = some call ∧
      (o.observe a c').history[call]? = some (.invoked handler.cmd) := by
  rcases Cluster.handlers_step hs hmem with hold | ⟨cmd, slot, rfl, hplace, rfl⟩
  · obtain ⟨call, hticket, hget⟩ := hled.parked x handler hold
    exact ⟨call, hled.ticket_mono hsim hticket, Observed.history_observe hget⟩
  · refine ⟨o.history.length, Observed.ticket_observe_of_issues hplace, ?_⟩
    rw [Observed.observe, Observed.notes_of_issues hplace (Or.inl rfl),
      List.getElem?_concat_length]

theorem carries_step (hb : o.cluster.TermsBounded) (hserved : a.Served)
    (hs : o.cluster.step a = some c') : Carries (o.observe a c').Ticketed c' := by
  have hold : Carries (o.observe a c').Ticketed o.cluster := by
    refine hled.carries.mono fun idx e hticket ↦ hticket.imp_right ?_
    rintro ⟨call, hcall⟩
    exact ⟨call, hled.ticket_mono hsim hcall⟩
  have hnoop : ∀ k t, (o.observe a c').Ticketed k ⟨t, []⟩ := fun k t ↦ Or.inl rfl
  have htaken : ∀ {i cmd}, (o.cluster.place i cmd).isSome →
      o.cluster.issues a = o.cluster.place i cmd →
        (o.observe a c').Ticketed (o.cluster.raft i).log.length
          ⟨(o.cluster.raft i).currentTerm, cmd.encode⟩ := by
    intro i cmd hsome hissues
    obtain ⟨slot, hplace⟩ := Option.isSome_iff_exists.mp hsome
    obtain ⟨-, rfl, -, -⟩ := Cluster.place_eq_some hplace
    exact Or.inr ⟨_, Observed.ticket_observe_of_issues (hissues.trans hplace)⟩
  have hplaced : ∀ {i : Fin N} {cmd : Command},
      ((o.cluster.raft i).submit cmd.encode).2.isLeader = true →
        (o.cluster.place i cmd).isSome := by
    intro i cmd hleader
    simp [Cluster.place, hleader]
  -- a crash before the first effect is a crash between operations
  have hnothing : ∀ {b : Action N}, b.offer = none → o.cluster.step b = some c' →
      Carries (o.observe a c').Ticketed c' := by
    intro b hoffer hs'
    refine hold.step hsim hb hnoop (a := b) (fun i command hsome ↦ ?_) hs'
    simp [hoffer] at hsome
  cases a with
  | submit i command => exact absurd hserved id
  | execute i cmd =>
      refine hold.step hsim hb hnoop (fun j command hoffer hleader ↦ ?_) hs
      obtain ⟨rfl, rfl⟩ : i = j ∧ cmd.encode = command := by simpa [Action.offer] using hoffer
      exact htaken (hplaced hleader) rfl
  | crashDuring b m =>
      cases b with
      | submit i command => exact absurd hserved id
      | crashDuring b m' => simp [Cluster.step, Cluster.operation] at hs
      | execute i cmd =>
          rcases Nat.eq_zero_or_pos m with rfl | hm
          · exact @hnothing (.crash i) rfl hs
          · refine hold.step hsim hb hnoop (fun j command hoffer hleader ↦ ?_) hs
            obtain ⟨rfl, rfl⟩ : i = j ∧ cmd.encode = command := by
              simpa [Action.offer] using hoffer
            exact htaken (hplaced hleader) (if_pos hm)
      | _ => exact hnothing rfl hs
  | _ => exact hnothing rfl hs

/-- The handler's own entry is what its slot reports on. -/
theorem effected_answer (hrun : ObservedRun o) {i : Fin N} {k : ℕ} {handler : Handler}
    (hmem : (o.cluster.processes i).handlers[k]? = some handler)
    (hok : (resume (o.cluster.processes i).stopping (o.cluster.processes i).waiters
      handler).1.isSuccess = true) :
    Effected o.cluster.trace (handler.index, handler.term) handler.cmd
      (resume (o.cluster.processes i).stopping (o.cluster.processes i).waiters handler).1 := by
  obtain ⟨t, hcert⟩ := hrun.run.certified_appliedEntries i
  obtain ⟨r, hr, hdone, hterm⟩ := (resume_response _ _ _).1 hok
  obtain ⟨hpos, e, he, rfl⟩ := (hrun.run.frontend i).2.faithful.slots hr hdone
  have hget : (o.cluster.appliedEntries i)[handler.index - 1]? = some e := he
  have hhandler := List.mem_of_getElem? hmem
  obtain ⟨-, -, hsubmitted⟩ := (hsim.nodes i).handlers handler hhandler
  obtain ⟨call, hticket, hcall⟩ := hled.parked i handler hhandler
  obtain ⟨cmd, hinvoked, hcmd, -⟩ := hled.issued hticket
  obtain rfl : handler.cmd = cmd := by
    rw [hcall] at hinvoked
    exact Linearization.Event.invoked.inj (Option.some.inj hinvoked)
  -- index and term determine the entry
  have hplaced := ((hcert.committed hget).placed hsim).2
  have hsame : e = ⟨handler.term, handler.cmd.encode⟩ := by
    have heterm : e.term = handler.term := hterm
    rw [heterm] at hplaced
    exact Option.some.inj (hplaced.symm.trans hsubmitted)
  subst hsame
  refine ⟨t, _, hcert, hget, ?_⟩
  rw [resume_of_filled _ hr rfl rfl, ← replay_eq_foldCommands]
  exact outcome_applyCommand hcmd _ _

theorem returned_step (hrun : ObservedRun o) (hs : o.cluster.step a = some c') {call : ℕ}
    {r : Response} (hmem : .returned call r ∈ (o.observe a c').history) : ∃ slot cmd,
    (o.observe a c').ticket slot = some call ∧
      (o.observe a c').history[call]? = some (.invoked cmd) ∧ Effected c'.trace slot cmd r := by
  have hsub := Cluster.trace_subset_step hs
  rcases List.mem_append.mp hmem with hold | hnew
  · obtain ⟨slot, cmd, hticket, hget, heff⟩ := hled.returned hold
    exact ⟨slot, cmd, hled.ticket_mono hsim hticket, Observed.history_observe hget, heff.mono hsub⟩
  · rcases Observed.mem_notes hnew with ⟨cmd, heq⟩ | ⟨heq, -⟩ |
      ⟨i, k, handler, call', rfl, hhandler, hticket, hanswer⟩
    · simp at heq
    · simp at heq
    · obtain ⟨rfl, rfl, hok⟩ := returned_mem_answerEvents hanswer
      obtain ⟨call', hticket', hget⟩ := hled.parked i handler (List.mem_of_getElem? hhandler)
      obtain rfl : call = call' := Option.some.inj (hticket.symm.trans hticket')
      exact ⟨_, handler.cmd, hled.ticket_mono hsim hticket, Observed.history_observe hget,
        (hled.effected_answer hsim hrun hhandler hok).mono hsub⟩

theorem failed_step (hcom : CommitSim o.cluster h) (hs : o.cluster.step a = some c') {call : ℕ}
    (hmem : .failed call ∈ (o.observe a c').history) :
    call < (o.observe a c').history.length ∧
      ∀ {slot}, (o.observe a c').ticket slot = some call → Overruled c'.trace slot := by
  have hsub := Cluster.trace_subset_step hs
  have hlen : (o.observe a c').history.length = o.history.length + (o.notes a).length :=
    List.length_append
  rcases List.mem_append.mp hmem with hold | hnew
  · obtain ⟨hlt, hover⟩ := hled.failed hold
    refine ⟨by omega, fun {slot} hticket ↦ ?_⟩
    rcases Observed.ticket_observe hticket with hticket | ⟨-, rfl⟩
    · exact (hover hticket).mono hsub
    · exact absurd hlt (lt_irrefl _)
  · have hpos := List.length_pos_of_mem hnew
    rcases Observed.mem_notes hnew with ⟨cmd, heq⟩ | ⟨heq, hnone⟩ |
      ⟨i, k, handler, call', rfl, hhandler, hticket, hanswer⟩
    · simp at heq
    · -- a refused command has no place
      obtain rfl : call = o.history.length := by simpa using heq
      refine ⟨by omega, fun {slot} hticket ↦ ?_⟩
      rcases Observed.ticket_observe hticket with hticket | ⟨hissues, -⟩
      · exact absurd (hled.call_lt hticket) (lt_irrefl _)
      · simp [hnone] at hissues
    · obtain ⟨rfl, hlost⟩ := failed_mem_answerEvents hanswer
      have hlt := hled.call_lt hticket
      refine ⟨by omega, fun {slot} hticket' ↦ ?_⟩
      obtain rfl := hled.distinct_step hticket' (hled.ticket_mono hsim hticket)
      obtain ⟨-, hcert⟩ := hcom.answer_cert hsim (List.mem_of_getElem? hhandler)
      exact Overruled.mono (hcert hlost) hsub

theorem ordered_step (hs : o.cluster.step a = some c') {pos call : ℕ} {r : Response} {call' : ℕ}
    {slot slot' : ℕ × ℕ} (hret : (o.observe a c').history[pos]? = some (.returned call r))
    (hpos : pos < call') (hticket : (o.observe a c').ticket slot = some call)
    (hticket' : (o.observe a c').ticket slot' = some call') :
    slot.1 < slot'.1 ∨ Overruled c'.trace slot' := by
  have hsub := Cluster.trace_subset_step hs
  have hle : call' ≤ o.history.length := by
    rcases Observed.ticket_observe hticket' with hold | ⟨-, rfl⟩
    · exact (hled.call_lt hold).le
    · exact le_rfl
  -- the call had returned before the step
  have hret' : o.history[pos]? = some (.returned call r) := by
    rwa [Observed.observe, List.getElem?_append_left (by omega)] at hret
  obtain ⟨slot₁, cmd, hticket₁, -, heff⟩ := hled.returned (List.mem_of_getElem? hret')
  obtain rfl := hled.distinct_step hticket (hled.ticket_mono hsim hticket₁)
  rcases Observed.ticket_observe hticket' with hold | ⟨hissues, -⟩
  · exact (hled.ordered hret' hpos hticket₁ hold).imp_right (·.mono hsub)
  · exact (heff.behind hsim hissues).imp_right (·.mono hsub)

end Step

theorem initial (N : ℕ) : Ledger (.initial N) (State.initial (Fin N) LogEntry) where
  issued hticket := by simp [Observed.initial] at hticket
  distinct hticket := by simp [Observed.initial] at hticket
  parked x handler hmem := by simp [Observed.initial, Cluster.initial, Process.boot] at hmem
  carries := .initial _
  returned hmem := by simp [Observed.initial] at hmem
  failed hmem := by simp [Observed.initial] at hmem
  ordered hret := by simp [Observed.initial] at hret

theorem step (hled : Ledger o h) (hsim : Sim o.cluster h) (hcom : CommitSim o.cluster h)
    (hrun : ObservedRun o) (hsim' : Sim c' h') (hext : Extends h h') (hserved : a.Served)
    (hs : o.cluster.step a = some c') : Ledger (o.observe a c') h' where
  issued := hled.issued_step hsim hsim' hext hserved hs
  distinct := hled.distinct_step
  parked x _ hmem := hled.parked_step hsim hs x hmem
  carries := hled.carries_step hsim hrun.run.termsBounded hserved hs
  returned := hled.returned_step hsim hrun hs
  failed := hled.failed_step hsim hcom hs
  ordered := hled.ordered_step hsim hs

end Ledger

theorem ObservedRun.exists_ledger (hrun : ObservedRun o) :
    ∃ h, Sim o.cluster h ∧ CommitSim o.cluster h ∧ Ledger o h := by
  induction hrun with
  | initial _ _ => exact ⟨_, Sim.initial N, .initial N, .initial N⟩
  | step hrun hvouched hserved hs _ ih =>
      obtain ⟨h, hsim, hcom, hled⟩ := ih
      obtain ⟨h', hsim', x, hsteps⟩ := hsim.step hrun.run.size hrun.run.termsBounded hs
      obtain ⟨-, hext, -⟩ := hsim.reach.steps_spec hsteps
      exact ⟨h', hsim', hcom.step hsim hvouched hs hsim' hsteps,
        hled.step hsim hcom hrun hsim' hext hserved hs⟩

/-! ## The order of the log -/

/-- The calls of the entries of a log. -/
def Observed.journal (o : Observed N) (l : List LogEntry) : List (Option ℕ) :=
  l.mapIdx fun k e ↦ o.ticket (k + 1, e.term)

theorem Observed.getElem?_journal {l : List LogEntry} {k call : ℕ} :
    (o.journal l)[k]? = some (some call) ↔
      ∃ e, l[k]? = some e ∧ o.ticket (k + 1, e.term) = some call := by
  rw [journal, List.getElem?_mapIdx, Option.map_eq_some_iff]

theorem foldCommands_eq_run (l : List LogEntry) :
    foldCommands l = kvObject.run (l.filterMap fun e ↦ Command.decode e.command) := by
  rw [foldCommands, Linearization.Object.run, List.foldl_filterMap]
  congr
  funext store e
  cases Command.decode e.command with
  | none => rfl
  | some cmd => rfl

namespace Ledger

/-- The command of a committed entry is that of its call. -/
theorem decode_eq (hled : Ledger o h) (hsim : Sim o.cluster h) {k : ℕ} {e : LogEntry}
    (hcom : Committed o.cluster.trace (k + 1) e) :
    Command.decode e.command =
      (o.ticket (k + 1, e.term)).bind (Linearization.opOf o.history) := by
  cases hticket : o.ticket (k + 1, e.term) with
  | none =>
      obtain ⟨i, hdisk⟩ := hcom.on_disk hsim
      rcases hled.carries.disks i hdisk with hempty | ⟨call, hcall⟩
      · rw [hempty]
        rfl
      · simp only [Nat.add_sub_cancel, hticket] at hcall
        simp at hcall
  | some call =>
      obtain ⟨cmd, hget, hcmd, -, -, hchron⟩ := hled.issued hticket
      obtain ⟨-, hplaced⟩ := hcom.placed hsim
      have hsame : e = ⟨e.term, cmd.encode⟩ := Option.some.inj (hplaced.symm.trans hchron)
      rw [hsame, Option.bind_some, Linearization.opOf_eq_some hget]
      exact Command.decode_eq_some.mpr ⟨rfl, hcmd⟩

theorem foldCommands_eq (hled : Ledger o h) (hsim : Sim o.cluster h) {t : ℕ}
    {l : List LogEntry} (hcert : Certified o.cluster.trace t l) (k : ℕ) :
    foldCommands (l.take k) = kvObject.run
      (Linearization.opsOf o.history ((o.journal l).take k).reduceOption) := by
  have hmap : l.map (fun e ↦ Command.decode e.command) =
      (o.journal l).map fun call ↦ call.bind (Linearization.opOf o.history) := by
    apply List.ext_getElem?
    intro k
    cases hget : l[k]? with
    | none => simp [Observed.journal, hget]
    | some e => simp [Observed.journal, hget, hled.decode_eq hsim (hcert.committed hget)]
  rw [foldCommands_eq_run, Linearization.opsOf, List.reduceOption, List.filterMap_filterMap]
  congr 1
  calc (l.take k).filterMap (fun e ↦ Command.decode e.command)
      = ((l.map fun e ↦ Command.decode e.command).take k).reduceOption := by
        rw [← List.map_take, List.reduceOption, List.filterMap_map]
        rfl
    _ = (((o.journal l).map fun call ↦ call.bind (Linearization.opOf o.history)).take
          k).reduceOption := by rw [hmap]
    _ = ((o.journal l).take k).filterMap fun call ↦
          (id call).bind (Linearization.opOf o.history) := by
        rw [← List.map_take, List.reduceOption, List.filterMap_map]
        rfl

theorem isJournal (hled : Ledger o h) (hsim : Sim o.cluster h) {t : ℕ} {l : List LogEntry}
    (hcert : Certified o.cluster.trace t l)
    (hmax : ∀ {t' l'}, Certified o.cluster.trace t' l' → l' <+: l) :
    Linearization.IsJournal kvObject o.history (o.journal l) where
  distinct hi hj := by
    obtain ⟨e, -, hticket⟩ := Observed.getElem?_journal.mp hi
    obtain ⟨e', -, hticket'⟩ := Observed.getElem?_journal.mp hj
    exact Nat.succ.inj (Prod.ext_iff.mp (hled.distinct hticket hticket')).1
  invoked hi := by
    obtain ⟨e, -, hticket⟩ := Observed.getElem?_journal.mp hi
    obtain ⟨cmd, hget, -⟩ := hled.issued hticket
    exact ⟨cmd, hget⟩
  returned hmem := by
    obtain ⟨slot, cmd, hticket, hget, t', l', hcert', hentry, hr⟩ := hled.returned hmem
    obtain ⟨_, -, -, hpos, -⟩ := hled.issued hticket
    have hpre := hmax hcert'
    refine ⟨slot.1 - 1, cmd, Observed.getElem?_journal.mpr
      ⟨_, getElem?_of_isPrefix hpre hentry, ?_⟩, hget, ?_⟩
    · rw [Nat.sub_add_cancel hpos]
      exact hticket
    · obtain ⟨hlt, -⟩ := List.getElem?_eq_some_iff.mp hentry
      rw [hr, ← hled.foldCommands_eq hsim hcert, take_eq_of_isPrefix hpre hlt.le]
      rfl
  failed hmem hi := by
    obtain ⟨e, hentry, hticket⟩ := Observed.getElem?_journal.mp hi
    obtain ⟨e', hcom, hne⟩ := (hled.failed hmem).2 hticket
    exact hne (congrArg LogEntry.term (hcom.unique (hcert.committed hentry) hsim))
  ordered hret hpos hi hj := by
    obtain ⟨e, -, hticket⟩ := Observed.getElem?_journal.mp hi
    obtain ⟨e', hentry, hticket'⟩ := Observed.getElem?_journal.mp hj
    rcases hled.ordered hret hpos hticket hticket' with hlt | ⟨e'', hcom, hne⟩
    · exact Nat.lt_of_succ_lt_succ hlt
    · exact (hne (congrArg LogEntry.term (hcom.unique (hcert.committed hentry) hsim))).elim

end Ledger

/-- Whatever clients have seen of a run, the calls that took effect can be put in one order
that respects real time and in which every answer is the one a single map would give. -/
theorem history_linearizable (hrun : ObservedRun o) :
    Linearization.Linearizable kvObject o.history := by
  obtain ⟨h, hsim, -, hled⟩ := hrun.exists_ledger
  obtain ⟨t, l, hcert, hmax⟩ := hsim.exists_certified_max
  exact (hled.isJournal hsim hcert hmax).linearizable

/-- A leader is deposed with a command in its log that no other node has. Its successor
takes two commands; one call fails and one returns. -/
theorem history_linearizable_deposed : ∃ o : Observed 3, ObservedRun o ∧
    o.history = [.invoked ⟨.set, [107], [118]⟩, .invoked ⟨.set, [107], [119]⟩,
      .invoked ⟨.get, [107], []⟩, .returned 2 (.value [119]), .failed 0] ∧
    Linearization.Linearizable kvObject o.history := by
  obtain ⟨o, hrun, hhistory⟩ : ∃ o : Observed 3, ObservedRun o ∧
      o.history = [.invoked ⟨.set, [107], [118]⟩, .invoked ⟨.set, [107], [119]⟩,
        .invoked ⟨.get, [107], []⟩, .returned 2 (.value [119]), .failed 0] :=
    exists_observed_of_play (by decide) (by decide)
      [.timeout 0, .deliverVote 0, .voteReply 0 0 0, .execute 0 ⟨.set, [107], [118]⟩,
        .timeout 1, .deliverVote 2, .voteReply 1 1 0, .execute 1 ⟨.set, [107], [119]⟩,
        .execute 1 ⟨.get, [107], []⟩, .send 1 1, .deliverAppend 0, .appendReply 1 1 0,
        .fetch 1, .apply 1, .fetch 1, .apply 1, .fetch 1, .apply 1, .resume 1 1,
        .send 1 0, .deliverAppend 0, .fetch 0, .apply 0, .fetch 0, .apply 0, .resume 0 0]
      (by decide +kernel)
  exact ⟨o, hrun, hhistory, history_linearizable hrun⟩

end Dkvs
