import Dkvs.Frontend

/-!
# Handlers that wait for the same index

The table of waiters has one slot for each index. As long as a handler has the slot
for itself, it gets the result of its own entry. After a quick loss and regain of
leadership two handlers can wait for one index, and the first of them to leave takes
the slot along.
-/

namespace Dkvs

namespace Frontend

variable {f f' g : Frontend} {handler : Handler} {r : PendingResult}

/-- The handler is not left behind when a handler leaves that waits for the same index. -/
def Undisturbed (handler : Handler) (f : Frontend) : FrontendAction → Prop
  | .resume k => ∀ other ∈ f.handlers[k]?, other.index = handler.index →
      handler ∉ f.handlers.eraseIdx k
  | _ => True

/-- Later states while the handler stays parked. -/
inductive Waits (ok : Frontend → FrontendAction → Prop) (handler : Handler) (f : Frontend) :
    Frontend → Prop
  | refl : Waits ok handler f f
  | step {g g' : Frontend} {a : FrontendAction} (h : Waits ok handler f g) (hok : ok g a)
      (hs : g.step a = some g') (hparked : handler ∈ g'.handlers) : Waits ok handler f g'

/-- While the handler is parked, it has a slot. -/
def Slotted (f : Frontend) (handler : Handler) : Prop :=
  handler ∈ f.handlers → (f.waiters handler.index).isSome

theorem Slotted.step (hs : f.Slotted handler) {a : FrontendAction} (hok : Undisturbed handler f a)
    (hstep : f.step a = some f') : f'.Slotted handler := by
  cases outcome hstep with
  | park other =>
      intro hmem
      rcases List.mem_append.mp hmem with hmem | hmem
      · obtain ⟨r, hr⟩ := Option.isSome_iff_exists.mp (hs hmem)
        exact Option.isSome_iff_exists.mpr ⟨r, emplaceWaiter_eq_some _ hr⟩
      · rw [List.mem_singleton.mp hmem]
        exact emplaceWaiter_isSome _ _
  | apply entry => exact fun hmem ↦ onApply_isSome _ _ _ _ (hs hmem)
  | @resume k other hk =>
      intro hmem
      have hne : handler.index ≠ other.index := fun heq ↦ hok other hk heq.symm hmem
      have hpresent := hs (List.eraseIdx_subset hmem)
      rw [← resume_of_ne f.stopping f.waiters hne] at hpresent
      exact hpresent
  | stop => exact hs

theorem Slotted.of_run (hrun : FrontendRun (Undisturbed handler) f) : f.Slotted handler := by
  induction hrun with
  | boot => simp [Slotted, Frontend.boot]
  | step _ hok hs ih => exact ih.step hok hs

/-- The slot of the handler holds `r`, and its index is behind the applier. -/
structure Filled (f : Frontend) (handler : Handler) (r : PendingResult) : Prop where
  slot : f.waiters handler.index = some r
  behind : handler.index ≤ f.applied.length

theorem Filled.step (hfilled : f.Filled handler r) {a : FrontendAction}
    (hok : Undisturbed handler f a) (hstep : f.step a = some f')
    (hparked : handler ∈ f'.handlers) : f'.Filled handler r := by
  have hbehind := hfilled.behind
  cases outcome hstep with
  | park other => exact ⟨emplaceWaiter_eq_some _ hfilled.slot, hbehind⟩
  | apply entry =>
      refine ⟨?_, ?_⟩
      · have hne : handler.index ≠ f.applied.length + 1 := by omega
        exact (onApply_of_ne _ _ _ _ hne).trans hfilled.slot
      · rw [apply, List.length_append]
        omega
  | @resume k other hk =>
      have hne : handler.index ≠ other.index := fun heq ↦ hok other hk heq.symm hparked
      exact ⟨(resume_of_ne f.stopping _ hne).trans hfilled.slot, hbehind⟩
  | stop => exact ⟨hfilled.slot, hbehind⟩

theorem Filled.apply (hs : f.Slotted handler) (hparked : handler ∈ f.handlers) {entry : LogEntry}
    (hindex : handler.index = f.applied.length + 1) :
    (f.apply entry).Filled handler ⟨true, entry.term, (applyCommand f.store entry.command).2.1,
      (applyCommand f.store entry.command).2.2⟩ := by
  obtain ⟨slot, hslot⟩ := Option.isSome_iff_exists.mp (hs hparked)
  refine ⟨?_, ?_⟩
  · rw [hindex] at hslot ⊢
    simp [Frontend.apply, onApply, hslot]
  · rw [Frontend.apply, List.length_append, hindex]
    rfl

end Frontend

open Frontend

/-- A handler whose entry is applied answers with the result of its command, whatever happens
until it leaves its wait, unless a handler that waits for the same index leaves before it. -/
theorem parked_handler_answered {f g : Frontend} {handler : Handler}
    (hrun : FrontendRun (Undisturbed handler) f) {entry : LogEntry}
    (hparked : handler ∈ f.handlers) (hindex : handler.index = f.applied.length + 1)
    (hterm : handler.term = entry.term)
    (hwaits : Waits (Undisturbed handler) handler (f.apply entry) g) :
    g.answer handler = outcome handler.cmd ⟨true, entry.term,
        (applyCommand f.store entry.command).2.1, (applyCommand f.store entry.command).2.2⟩ ∧
      (g.answer handler).isSuccess = true := by
  have hfilled : g.Filled handler ⟨true, entry.term,
      (applyCommand f.store entry.command).2.1, (applyCommand f.store entry.command).2.2⟩ := by
    induction hwaits with
    | refl => exact .apply (.of_run hrun) hparked hindex
    | step _ hok hs hstays ih => exact ih.step hok hs hstays
  have hanswer := resume_of_filled g.stopping hfilled.slot rfl hterm.symm
  rw [answer, hanswer]
  exact ⟨rfl, isSuccess_outcome _ _⟩

/-- A handler shares its slot with one of an earlier term, which stays. Its entry is applied, and
another handler parks at the next index. -/
theorem parked_handler_answered_shared :
    let lost : Handler := ⟨1, 1, .set, [107], [118]⟩
    let own : Handler := ⟨1, 2, .get, [107], []⟩
    let next : Handler := ⟨2, 2, .del, [107], []⟩
    let entry : LogEntry := ⟨2, Command.encode ⟨.get, [107], []⟩⟩
    let f := (Frontend.boot.park lost).park own
    FrontendRun (Undisturbed own) f ∧
      Waits (Undisturbed own) own (f.apply entry) ((f.apply entry).park next) ∧
      (((f.apply entry).park next).answer own).isSuccess = true := by
  intro lost own next entry f
  have hrun : FrontendRun (Undisturbed own) f :=
    .step (.step .boot trivial (a := .park lost) rfl) trivial (a := .park own) rfl
  have hwaits : Waits (Undisturbed own) own (f.apply entry) ((f.apply entry).park next) :=
    .step .refl trivial (a := .park next) rfl
      (by simp [f, Frontend.boot, Frontend.park, Frontend.apply])
  exact ⟨hrun, hwaits, (parked_handler_answered hrun (by simp [f, Frontend.park]) rfl rfl hwaits).2⟩

/-- Node 0 loses and regains leadership while two handlers wait for index 3. -/
theorem exists_shared_slot : ∃ c : Cluster 3, AnyRun c ∧
    (c.processes 0).applying = some (3, ⟨3, Command.encode ⟨.get, [107], []⟩⟩) ∧
    (c.processes 0).handlers = [⟨3, 1, .set, [107], [118]⟩, ⟨3, 3, .get, [107], []⟩] ∧
    (c.processes 0).stopping = false := by
  exact exists_run_of_play (by decide) (by decide)
    [.timeout 0, .deliverVote 0, .voteReply 0 0 0, .submit 0 [7],
      .execute 0 ⟨.set, [107], [118]⟩, .timeout 1, .deliverVote 2, .voteReply 1 1 0, .send 1 0,
      .deliverAppend 0, .timeout 0, .deliverVote 2, .voteReply 0 1 0,
      .execute 0 ⟨.get, [107], []⟩, .send 0 2, .deliverAppend 0, .appendReply 0 2 1,
      .fetch 0, .apply 0, .fetch 0, .apply 0, .fetch 0] (by decide +kernel)

/-- The handler of the lost term leaves first and erases the slot in which the
other one has its result. -/
theorem not_parked_handler_answered :
    ¬ ∀ {N : ℕ} {c : Cluster N} {x : Fin N} {g : Frontend} {handler : Handler} {entry : LogEntry},
      AnyRun c → (c.processes x).applying = some (handler.index, entry) →
        handler ∈ (c.frontend x).handlers → handler.term = entry.term →
        (c.processes x).stopping = false →
        Waits (fun _ _ ↦ True) handler ((c.frontend x).apply entry) g →
          (g.answer handler).isSuccess = true := by
  intro hholds
  obtain ⟨c, hrun, happ, hhandlers, hstop⟩ := exists_shared_slot
  let first : Handler := ⟨3, 1, .set, [107], [118]⟩
  let second : Handler := ⟨3, 3, .get, [107], []⟩
  let f := (c.frontend 0).apply ⟨3, second.cmd.encode⟩
  have hparked : (c.frontend 0).handlers = [first, second] := hhandlers
  have hwaits : Waits (fun _ _ ↦ True) second f (f.resume 0 first) := by
    refine .step .refl trivial (a := .resume 0) ?_ ?_
    · exact Option.map_eq_some_iff.mpr ⟨first, by simp [f, Frontend.apply, hparked], rfl⟩
    · simp [f, Frontend.apply, Frontend.resume, hparked]
  have hsuccess := hholds hrun happ (by simp [hparked]) rfl hstop hwaits
  simp [first, second, Frontend.answer, Frontend.resume, Dkvs.resume,
    Response.isSuccess] at hsuccess

end Dkvs
