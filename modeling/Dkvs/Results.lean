import Dkvs.Frontend

/-!
# A successful answer is the command's own result

What a command does and answers is defined here on the map alone. A handler that
reports success found in its slot the result of the entry applied at its index;
the entry has the handler's term, and index and term determine the command.
-/

namespace Dkvs

open ReplicatedLog

/-! ## Commands on the map -/

namespace Command

def run (cmd : Command) (store : KVStore) : KVStore :=
  match cmd.op with
  | .set => store.set cmd.key cmd.value
  | .get => store
  | .del => (store.remove cmd.key).1

def result (cmd : Command) (store : KVStore) : Response :=
  match cmd.op with
  | .set => .ok
  | .get => (store.get cmd.key).elim .notFound .value
  | .del => if (store.get cmd.key).isSome then .deleted else .notFound

end Command

/-- The map after the given entries. An entry that is no command changes nothing. -/
def foldCommands (entries : List LogEntry) : KVStore :=
  entries.foldl (fun store e ↦ (Command.decode e.command).elim store fun cmd ↦ cmd.run store)
    KVStore.empty

theorem Command.decode_nil : Command.decode [] = none := rfl

theorem applyCommand_store (store : KVStore) (rawCommand : Bytes) :
    (applyCommand store rawCommand).1 =
      (Command.decode rawCommand).elim store fun cmd ↦ cmd.run store := by
  unfold applyCommand
  split_ifs with hempty
  · rw [List.isEmpty_iff.mp hempty, Command.decode_nil]
    rfl
  · cases Command.decode rawCommand with
    | none => rfl
    | some cmd =>
        simp only [Option.elim_some, Command.run]
        cases cmd.op with
        | _ => rfl

theorem replay_eq_foldCommands (entries : List LogEntry) :
    replay entries = foldCommands entries := by
  simp only [replay, foldCommands, applyCommand_store]

/-- What `onApply` leaves for the handler of a command is its result. -/
theorem outcome_applyCommand {cmd : Command} (hcmd : cmd.Ranged) (store : KVStore) (term : ℕ) :
    outcome cmd ⟨true, term, (applyCommand store cmd.encode).2.1,
      (applyCommand store cmd.encode).2.2⟩ = cmd.result store := by
  have hdecode : Command.decode cmd.encode = some cmd := Command.decode_eq_some.mpr ⟨rfl, hcmd⟩
  have hempty : cmd.encode.isEmpty = false := by
    rw [Command.encode]
    rfl
  cases hop : cmd.op with
  | set => simp [outcome, Command.result, hop]
  | get => simp [applyCommand, outcome, Command.result, hempty, hdecode, hop]
  | del =>
      simp [applyCommand, outcome, Command.result, hempty, hdecode, hop, KVStore.remove,
        KVStore.get]
      rfl

/-! ## The slots of the table -/

namespace Frontend

/-- The store is the replay of what was applied, and a filled slot holds the result
of the entry at its index. -/
structure Faithful (f : Frontend) : Prop where
  store : f.store = replay f.applied
  slots : ∀ {idx r}, f.waiters idx = some r → r.applied = true →
    0 < idx ∧ ∃ e, f.applied[idx - 1]? = some e ∧ r = ⟨true, e.term,
      (applyCommand (replay (f.applied.take (idx - 1))) e.command).2.1,
      (applyCommand (replay (f.applied.take (idx - 1))) e.command).2.2⟩

namespace Faithful

variable {f f' : Frontend}

theorem boot : Faithful .boot := ⟨rfl, by simp [Frontend.boot]⟩

theorem apply (hf : f.Faithful) (entry : LogEntry) : (f.apply entry).Faithful := by
  refine ⟨?_, fun {idx r} hr hdone ↦ ?_⟩
  · rw [Frontend.apply, onApply_store, hf.store, replay, replay, List.foldl_append]
    rfl
  · by_cases hidx : idx = f.applied.length + 1
    · subst hidx
      cases hslot : f.waiters (f.applied.length + 1) with
      | none => simp [Frontend.apply, onApply, hslot] at hr
      | some slot =>
          simp only [Frontend.apply, onApply, hslot, Function.update_self, Option.some.injEq] at hr
          refine ⟨Nat.succ_pos _, entry, by simp [Frontend.apply], ?_⟩
          rw [← hr, Frontend.apply, Nat.add_sub_cancel, List.take_left, hf.store]
    · have hold : f.waiters idx = some r := (onApply_of_ne _ _ _ _ hidx).symm.trans hr
      obtain ⟨hpos, e, he, heq⟩ := hf.slots hold hdone
      obtain ⟨hlt, -⟩ := List.getElem?_eq_some_iff.mp he
      refine ⟨hpos, e, ?_, ?_⟩
      · rw [Frontend.apply, List.getElem?_append_left hlt]
        exact he
      · rw [Frontend.apply, List.take_append_of_le_length hlt.le]
        exact heq

theorem step (hf : f.Faithful) {a : FrontendAction} (hs : f.step a = some f') : f'.Faithful := by
  cases outcome hs with
  | park handler =>
      exact ⟨hf.store, fun hr hdone ↦ hf.slots (emplaceWaiter_applied hr hdone) hdone⟩
  | apply entry => exact hf.apply entry
  | @resume k handler hmem =>
      refine ⟨hf.store, fun {idx r} hr hdone ↦ ?_⟩
      have hkept : (Dkvs.resume f.stopping f.waiters handler).2 idx = some r := hr
      exact hf.slots (resume_waiters hkept) hdone
  | stop => exact ⟨hf.store, hf.slots⟩

end Faithful

end Frontend

theorem FrontendRun.faithful {ok : Frontend → FrontendAction → Prop} {f : Frontend}
    (hrun : FrontendRun ok f) : f.Faithful := by
  induction hrun with
  | boot => exact .boot
  | step _ _ hs ih => exact ih.step hs

/-! ## Index and term determine the command -/

variable {N : ℕ} {c c' : Cluster N} {x : Fin N} {h h' : History N}

/-- The entry is the one with position `k` in the chronicle of its term. -/
def Placed (h : History N) (k : ℕ) (e : LogEntry) : Prop :=
  (∃ y, h.leader e.term = some y) ∧ (h.chronicle e.term)[k]? = some e

theorem Placed.mono {k : ℕ} {e : LogEntry} (hplaced : Placed h k e) (hext : Extends h h') :
    Placed h' k e := by
  obtain ⟨⟨y, hy⟩, hget⟩ := hplaced
  exact ⟨⟨y, hext.leader hy⟩, getElem?_of_isPrefix (hext.chronicle hy) hget⟩

theorem Sim.placed (hsim : Sim c h) {k : ℕ} {e : LogEntry}
    (hget : (c.raft x).log[k + 1]? = some e) : Placed h k e := by
  rw [(hsim.tracks x).log, List.getElem?_cons_succ] at hget
  obtain ⟨hleader, hsound⟩ := (Invariant.of_reachable hsim.reach).log.log_sound x hget
  refine ⟨hleader, ?_⟩
  rw [← getElem?_eq_of_take_eq hsound (Nat.lt_succ_self k)]
  exact hget

/-- What a node has applied or is about to apply comes from the leaders' logs. -/
structure AppliedOk (c : Cluster N) (h : History N) (x : Fin N) : Prop where
  entries : ∀ {k e}, (c.appliedEntries x)[k]? = some e → Placed h k e
  applying : ∀ {idx e}, (c.processes x).applying = some (idx, e) → Placed h (idx - 1) e

theorem Cluster.applying_step {a : Action N} (hs : c.step a = some c') {idx : ℕ} {e : LogEntry}
    (happ : (c'.processes x).applying = some (idx, e)) :
    (c.processes x).applying = some (idx, e) ∨
      ∃ k, idx = k + 1 ∧ (c.raft x).log[k + 1]? = some e := by
  obtain ⟨i, events, hm⟩ := Cluster.exists_moves hs
  by_cases hx : x = i
  · subst hx
    have hmove := hm.move
    generalize c'.processes x = p at hmove happ
    cases hmove with
    | @fetch entry hentry =>
        obtain ⟨rfl, rfl⟩ : (c.raft x).lastApplied + 1 = idx ∧ entry = e := by simpa using happ
        exact Or.inr ⟨_, rfl, hentry⟩
    | apply _ => simp at happ
    | restart storage _ => simp [Process.boot] at happ
    | _ => exact Or.inl happ
  · rw [hm.other hx] at happ
    exact Or.inl happ

theorem AppliedOk.step (hok : AppliedOk c h x) (happlier : ApplierOk c x) (hsim : Sim c h)
    (hext : Extends h h') {a : Action N} (hs : c.step a = some c') : AppliedOk c' h' x := by
  refine ⟨fun {k e} hget ↦ ?_, fun {idx e} happ ↦ ?_⟩
  · refine Placed.mono ?_ hext
    have hentries : (c'.frontend x).applied = c'.appliedEntries x := rfl
    rw [← hentries] at hget
    cases (happlier.step hsim hs).2 with
    | same heq =>
        rw [heq] at hget
        exact hok.entries hget
    | boot heq =>
        rw [heq] at hget
        simp [Frontend.boot] at hget
    | step _ hsame =>
        rw [hsame] at hget
        exact hok.entries hget
    | @apply idx entry happ heq =>
        have happlied : ((c.frontend x).apply entry).applied = c.appliedEntries x ++ [entry] := rfl
        rw [heq, happlied] at hget
        have hlen := happlier.length_appliedEntries
        have hidx := happlier.applying happ
        rcases Nat.lt_or_ge k (c.appliedEntries x).length with hk | hk
        · rw [List.getElem?_append_left hk] at hget
          exact hok.entries hget
        · obtain ⟨rfl, rfl⟩ : k = idx - 1 ∧ entry = e := by
            rw [List.getElem?_append_right hk, List.getElem?_singleton] at hget
            split_ifs at hget with hzero
            exact ⟨by omega, Option.some.inj hget⟩
          exact hok.applying happ
  · refine Placed.mono ?_ hext
    rcases Cluster.applying_step hs happ with hold | ⟨k, rfl, hget⟩
    · exact hok.applying hold
    · exact hsim.placed hget

theorem Run.exists_appliedOk {ok : Cluster N → Action N → Prop} (hrun : Run ok c) :
    ∃ h, Sim c h ∧ ∀ x, AppliedOk c h x := by
  refine hrun.exists_sim_of_step (P := fun c h ↦ ∀ x, AppliedOk c h x) (fun x ↦ ⟨?_, ?_⟩) ?_
  · simp [Cluster.appliedEntries, Cluster.initial]
  · simp [Cluster.initial, Process.boot]
  · intro c c' h h' a i hrun hsim hall _ hs _ hsteps x
    obtain ⟨-, hext, -⟩ := hsim.reach.steps_spec hsteps
    exact (hall x).step (hrun.frontend x).1 hsim hext hs

/-- A handler that answers with a success has had its own command applied at its
index, and answers what the command gives on the map of the entries before it. -/
theorem answer_is_own_result (hrun : AnyRun c) {k : ℕ} (hs : c.step (.resume x k) = some c')
    {handler : Handler} {response : Response}
    (hanswer : c'.trace = c.trace ++ [.answered x handler response])
    (hsuccess : response.isSuccess = true) (hcmd : handler.cmd.Ranged) :
    0 < handler.index ∧
      (c.appliedEntries x)[handler.index - 1]? = some ⟨handler.term, handler.cmd.encode⟩ ∧
      response = handler.cmd.result
        (foldCommands ((c.appliedEntries x).take (handler.index - 1))) := by
  obtain ⟨h, hsim, hok⟩ := hrun.exists_appliedOk
  obtain ⟨other, hmem, rfl⟩ := Option.map_eq_some_iff.mp hs
  -- the event that was recorded is the answer of this very handler
  obtain ⟨rfl, rfl⟩ : other = handler ∧
      (resume (c.processes x).stopping (c.processes x).waiters other).1 = response := by
    simpa [Cluster.resumeStep, Cluster.record, Cluster.setProcess] using hanswer
  obtain ⟨r, hr, hdone, hterm⟩ := (resume_response _ _ _).1 hsuccess
  obtain ⟨hpos, e, he, rfl⟩ := (hrun.frontend x).2.faithful.slots hr hdone
  have hget : (c.appliedEntries x)[other.index - 1]? = some e := he
  -- both the entry and the handler's command are at this place in one chronicle
  obtain ⟨-, hplaced⟩ := (hok x).entries hget
  obtain ⟨-, -, hsubmitted⟩ := (hsim.nodes x).handlers other (List.mem_of_getElem? hmem)
  have hsame : e = ⟨other.term, other.cmd.encode⟩ := by
    have heterm : e.term = other.term := hterm
    rw [heterm] at hplaced
    exact Option.some.inj (hplaced.symm.trans hsubmitted)
  subst hsame
  refine ⟨hpos, hget, ?_⟩
  rw [resume_of_filled _ hr rfl rfl, ← replay_eq_foldCommands]
  exact outcome_applyCommand hcmd _ _

/-- A node on its own answers a `GET` after the `SET` before it. -/
theorem answer_is_own_result_solo : ∃ c c' : Cluster 1, AnyRun c ∧
    c.step (.resume 0 1) = some c' ∧
    c'.trace = c.trace ++ [.answered 0 ⟨3, 1, .get, [107], []⟩ (.value [118])] ∧
    (c.appliedEntries 0)[2]? = some ⟨1, Command.encode ⟨.get, [107], []⟩⟩ ∧
    .value [118] = Command.result ⟨.get, [107], []⟩
      (foldCommands ((c.appliedEntries 0).take 2)) := by
  obtain ⟨c, hrun, hhandler, hanswer⟩ : ∃ c : Cluster 1, AnyRun c ∧
      (c.processes 0).handlers[1]? = some ⟨3, 1, .get, [107], []⟩ ∧
      (resume (c.processes 0).stopping (c.processes 0).waiters ⟨3, 1, .get, [107], []⟩).1 =
        .value [118] :=
    exists_run_of_play (by decide) (by decide)
      [.timeout 0, .execute 0 ⟨.set, [107], [118]⟩, .execute 0 ⟨.get, [107], []⟩, .fetch 0,
        .apply 0, .fetch 0, .apply 0, .fetch 0, .apply 0] (by decide +kernel)
  have hs : c.step (.resume 0 1) = some (c.resumeStep 0 1 ⟨3, 1, .get, [107], []⟩) :=
    Option.map_eq_some_iff.mpr ⟨_, hhandler, rfl⟩
  have htrace : (c.resumeStep 0 1 ⟨3, 1, .get, [107], []⟩).trace =
      c.trace ++ [.answered 0 ⟨3, 1, .get, [107], []⟩ (.value [118])] := by
    rw [← hanswer]
    rfl
  obtain ⟨-, hentry, hresult⟩ := answer_is_own_result hrun hs htrace rfl (by simp [Command.Ranged])
  exact ⟨c, _, hrun, hs, htrace, hentry, hresult⟩

end Dkvs
