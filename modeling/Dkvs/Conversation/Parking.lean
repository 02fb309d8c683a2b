import Dkvs.Conversation.Connections

/-!
# Handlers, slots and the connections they belong to

A node keeps a slot for each index that somebody waits for. The threads that wait are those of
connections: the handlers parked on a node are exactly the parked connections of that node. So
no slot is left behind by a connection that is over, and a connection that is parked can always
leave its wait.
-/

namespace Dkvs

variable {N : ℕ}

/-! ## Slots belong to handlers -/

namespace Frontend

/-- Some handler waits for the index of each slot. -/
def Owned (f : Frontend) : Prop :=
  ∀ idx, (f.waiters idx).isSome → ∃ handler ∈ f.handlers, handler.index = idx

namespace Owned

variable {f f' : Frontend}

theorem park (hf : f.Owned) (handler : Handler) : (f.park handler).Owned := by
  intro idx hslot
  by_cases hidx : idx = handler.index
  · exact ⟨handler, by simp [Frontend.park], hidx.symm⟩
  · have hold : (f.waiters idx).isSome := by
      have hsame : (f.park handler).waiters idx = f.waiters idx := by
        simp only [Frontend.park]
        cases hfree : f.waiters handler.index with
        | none => simp [emplaceWaiter, hfree, hidx]
        | some r => simp [emplaceWaiter, hfree]
      rwa [hsame] at hslot
    obtain ⟨other, hother, heq⟩ := hf idx hold
    exact ⟨other, by simp [Frontend.park, hother], heq⟩

theorem apply (hf : f.Owned) (entry : LogEntry) : (f.apply entry).Owned := by
  intro idx hslot
  apply hf
  obtain ⟨r, hr⟩ := Option.isSome_iff_exists.mp hslot
  rcases onApply_waiters hr with ⟨rfl, -⟩ | hold
  · cases hfree : f.waiters (f.applied.length + 1) with
    | none => simp [Frontend.apply, onApply, hfree] at hr
    | some r => rfl
  · rw [hold]
    rfl

/-- The slot goes with the first handler that leaves, so the others of its index have none. -/
theorem resume (hf : f.Owned) {k : ℕ} {handler : Handler}
    (hmem : f.handlers[k]? = some handler) : (f.resume k handler).Owned := by
  intro idx hslot
  have hne : idx ≠ handler.index := by
    rintro rfl
    simp [Frontend.resume, Dkvs.resume] at hslot
  obtain ⟨r, hr⟩ := Option.isSome_iff_exists.mp hslot
  have hold : f.waiters idx = some r := @resume_waiters f.stopping _ _ _ _ hr
  obtain ⟨other, hother, heq⟩ := hf idx (by rw [hold]; rfl)
  obtain ⟨hk, hget⟩ := List.getElem?_eq_some_iff.mp hmem
  refine ⟨other, ?_, heq⟩
  have hperm := (List.getElem_cons_eraseIdx_perm hk).mem_iff.mpr hother
  rcases List.mem_cons.mp hperm with rfl | hrest
  · exact absurd (heq.symm.trans (congrArg Handler.index hget)) hne
  · exact hrest

theorem step (hf : f.Owned) {b : FrontendAction} (hs : f.step b = some f') : f'.Owned := by
  cases outcome hs with
  | park handler => exact hf.park handler
  | apply entry => exact hf.apply entry
  | resume hmem => exact hf.resume hmem
  | stop => exact hf

end Owned

end Frontend

theorem FrontendRun.owned {ok : Frontend → FrontendAction → Prop} {f : Frontend}
    (hrun : FrontendRun ok f) : f.Owned := by
  induction hrun with
  | boot =>
      intro idx hslot
      simp [Frontend.boot] at hslot
  | step _ _ hs ih => exact ih.step hs

/-! ## Parked connections -/

/-- The handler of a connection that waits on node `i`. -/
def ClientConnection.parkedAt (conn : ClientConnection N) (i : Fin N) : Option Handler :=
  match conn.phase with
  | .parked handler => if conn.server = i then some handler else none
  | _ => none

namespace Service

variable {clientAddrs : List String} {s s' : Service N} {conn : ClientConnection N} {k : ℕ}

def parked (s : Service N) (i : Fin N) : List Handler :=
  s.connections.filterMap fun conn ↦ conn.parkedAt i

theorem parkedAt_reply (text : Bytes) (accepted : ℕ) (i : Fin N) :
    (conn.reply text accepted).parkedAt i = none := by
  have hphase : (conn.reply text accepted).phase = .top ∨
      (conn.reply text accepted).phase = .closed := by
    unfold ClientConnection.reply
    dsimp only
    split_ifs
    · exact Or.inl rfl
    · exact Or.inr rfl
  rcases hphase with hphase | hphase
  · rw [ClientConnection.parkedAt, hphase]
  · rw [ClientConnection.parkedAt, hphase]

/-- One connection is replaced, and the others are as before. -/
theorem parked_set (hk : s.connections[k]? = some conn) (next : ClientConnection N)
    (o : Observed N) (i : Fin N) :
    ∃ rest, (s.parked i).Perm ((conn.parkedAt i).toList ++ rest) ∧
      (parked ⟨o, s.connections.set k next⟩ i).Perm ((next.parkedAt i).toList ++ rest) := by
  obtain ⟨hlt, hget⟩ := List.getElem?_eq_some_iff.mp hk
  have hsplit : ∀ (head : ClientConnection N) (tail : List (ClientConnection N)),
      (head :: tail).filterMap (fun conn ↦ conn.parkedAt i) =
        (head.parkedAt i).toList ++ tail.filterMap fun conn ↦ conn.parkedAt i := by
    intro head tail
    cases hhead : head.parkedAt i with
    | none => simp [hhead]
    | some handler => simp [hhead]
  refine ⟨(s.connections.eraseIdx k).filterMap fun conn ↦ conn.parkedAt i, ?_, ?_⟩
  · rw [← hsplit, ← hget]
    exact (List.getElem_cons_eraseIdx_perm hlt).symm.filterMap _
  · rw [← hsplit]
    exact (List.set_perm_cons_eraseIdx hlt next).filterMap _

theorem parked_set_none (hk : s.connections[k]? = some conn) {next : ClientConnection N}
    (o : Observed N) {i : Fin N}
    (hconn : conn.parkedAt i = none) (hnext : next.parkedAt i = none) :
    (s.parked i).Perm (parked ⟨o, s.connections.set k next⟩ i) := by
  obtain ⟨rest, hbefore, hafter⟩ := parked_set hk next o i
  rw [hconn] at hbefore
  rw [hnext] at hafter
  exact hbefore.trans hafter.symm

theorem parked_cutOff (o : Observed N) (restarted : Option (Fin N)) (i : Fin N) :
    parked ⟨o, (s.cutOff restarted).connections⟩ i =
      if restarted = some i then [] else s.parked i := by
  have hone : ∀ conn : ClientConnection N,
      ClientConnection.parkedAt (if some conn.server = restarted then conn.close else conn) i =
        if restarted = some i then none else conn.parkedAt i := by
    intro conn
    by_cases hserver : conn.server = i
    · subst hserver
      by_cases hrestarted : some conn.server = restarted
      · rw [if_pos hrestarted, if_pos hrestarted.symm]
        rfl
      · rw [if_neg hrestarted, if_neg (Ne.symm hrestarted)]
    · have hnone : ∀ phase, ClientConnection.parkedAt { conn with phase } i = none := by
        intro phase
        cases phase with
        | parked handler => exact if_neg hserver
        | _ => rfl
      have hclosed : conn.close.parkedAt i = none := hnone .closed
      have hopen : conn.parkedAt i = none := hnone conn.phase
      split_ifs
      · exact hclosed
      · exact hclosed.trans hopen.symm
      · exact hopen
      · rfl
  unfold parked cutOff
  rw [List.filterMap_map]
  simp only [Function.comp_def, hone]
  split_ifs
  · simp
  · rfl

/-- The handlers parked on a node are those of its parked connections. -/
def Staffed (s : Service N) : Prop :=
  ∀ i, ((s.cluster.processes i).handlers).Perm (s.parked i)

theorem Staffed.step (hstaffed : s.Staffed) {a : ServiceAction N}
    (hs : s.step clientAddrs a = some s') : s'.Staffed := by
  intro i
  -- a thread that neither parks nor leaves its wait
  have hquiet : ∀ {k : ℕ} {conn next : ClientConnection N}, s.connections[k]? = some conn →
      conn.parkedAt i = none → next.parkedAt i = none → ∀ o : Observed N,
      ((s.cluster.processes i).handlers).Perm (parked ⟨o, s.connections.set k next⟩ i) :=
    fun hk hconn hnext o ↦ (hstaffed i).trans (parked_set_none hk o hconn hnext)
  have hfree : ∀ {conn : ClientConnection N}, conn.phase = .top ∨ conn.phase = .receiving →
      conn.parkedAt i = none := by
    rintro conn (hphase | hphase)
    · rw [ClientConnection.parkedAt, hphase]
    · rw [ClientConnection.parkedAt, hphase]
  cases outcome hs with
  | accept x =>
      have hnone : (ClientConnection.opened x).parkedAt i = none := rfl
      have hsame : parked { s with connections := s.connections ++ [.opened x] } i =
          s.parked i := by simp [parked, hnone]
      rw [hsame]
      exact hstaffed i
  | loop hk hphase hnext =>
      refine hquiet hk (hfree (Or.inl hphase)) ?_ s.observed
      rcases hnext with rfl | rfl
      · rfl
      · rfl
  | hangUp hk hphase _ => exact hquiet hk (hfree (Or.inr hphase)) rfl s.observed
  | blank htook => exact hquiet htook.mem (hfree (Or.inr htook.phase)) rfl s.observed
  | spoke _ htook _ _ hnext =>
      refine hquiet htook.mem (hfree (Or.inr htook.phase)) ?_ s.observed
      rcases hnext with ⟨-, rfl⟩ | rfl
      · exact parkedAt_reply _ _ _
      · rfl
  | @execute k conn chunks line rest accepted htook cmd hcmd slot hplace c' hc =>
      obtain ⟨others, hbefore, hafter⟩ := parked_set htook.mem
        { (conn.fill rest chunks).note (some s.observed.history.length) with
          phase := .parked ⟨slot.1, slot.2, cmd⟩ }
        (s.observed.observe (.execute conn.server cmd) c') i
      rw [hfree (Or.inr htook.phase)] at hbefore
      have hjoin : ((c'.processes i).handlers).Perm
          ((if conn.server = i then [⟨slot.1, slot.2, cmd⟩] else []) ++ others) := by
        rw [Cluster.handlers_execute hplace hc]
        exact List.perm_append_comm.trans (((hstaffed i).trans hbefore).append_left _)
      refine hjoin.trans (List.Perm.trans (List.Perm.of_eq ?_) hafter.symm)
      by_cases hserver : conn.server = i
      · simp [ClientConnection.parkedAt, ClientConnection.note, ClientConnection.fill, hserver]
      · simp [ClientConnection.parkedAt, ClientConnection.note, ClientConnection.fill, hserver]
  | refused htook _ hplace hc =>
      have hsame := Cluster.handlers_refused (x := i) hplace hc
      rw [← hsame] at hquiet
      exact hquiet htook.mem (hfree (Or.inr htook.phase)) (parkedAt_reply _ _ _) _
  | @answer k h accepted conn hk handler hphase hparked c' hc =>
      obtain ⟨others, hbefore, hafter⟩ := parked_set hk (conn.reply ((resume
        (s.cluster.processes conn.server).stopping (s.cluster.processes conn.server).waiters
          handler).1.text clientAddrs) accepted) (s.observed.observe (.resume conn.server h) c') i
      rw [parkedAt_reply] at hafter
      rw [ClientConnection.parkedAt, hphase] at hbefore
      have hleft : ((c'.processes i).handlers).Perm others := by
        rw [Cluster.handlers_resume hc]
        dsimp only at hbefore
        split_ifs at hbefore ⊢ with hserver
        · subst hserver
          obtain ⟨hlt, hget⟩ := List.getElem?_eq_some_iff.mp hparked
          have hcons := (List.getElem_cons_eraseIdx_perm hlt).trans
            ((hstaffed conn.server).trans hbefore)
          rw [hget] at hcons
          exact hcons.cons_inv
        · exact (hstaffed i).trans hbefore
      exact hleft.trans hafter.symm
  | @die k conn chunks line rest m htook cmd hcmd c' hc =>
      have hkeep := Cluster.handlers_keep (x := i) hc (by simp) (by simp)
      have hwho : s.cluster.restarted (.crashDuring (.execute conn.server cmd) m) =
          some conn.server := rfl
      have hnext : ((conn.fill rest chunks).note (some s.observed.history.length)).parkedAt i =
          none := hfree (Or.inr htook.phase)
      have hgoal : ((c'.processes i).handlers).Perm (parked ⟨s.observed.observe
          (.crashDuring (.execute conn.server cmd) m) c', ((s.setConnection k ((conn.fill rest
            chunks).note (some s.observed.history.length))).cutOff
              (some conn.server)).connections⟩ i) := by
        rw [hkeep, hwho, parked_cutOff]
        split_ifs
        · exact List.Perm.nil
        · exact hquiet htook.mem (hfree (Or.inr htook.phase)) hnext s.observed
      exact hgoal
  | @node a hinner c' hc =>
      have hkeep := Cluster.handlers_keep (x := i) hc
        (by rintro x cmd rfl; simp [Action.Inner] at hinner)
        (by rintro x k rfl; simp [Action.Inner] at hinner)
      have hgoal : ((c'.processes i).handlers).Perm (parked ⟨s.observed.observe a c',
          (s.cutOff (s.cluster.restarted a)).connections⟩ i) := by
        rw [hkeep, parked_cutOff]
        split_ifs
        · exact List.Perm.nil
        · exact hstaffed i
      exact hgoal

theorem mem_parked {i : Fin N} {handler : Handler} (hmem : handler ∈ s.parked i) :
    ∃ conn ∈ s.connections, conn.server = i ∧ conn.phase = .parked handler := by
  obtain ⟨conn, hconn, hparked⟩ := List.mem_filterMap.mp hmem
  refine ⟨conn, hconn, ?_⟩
  unfold ClientConnection.parkedAt at hparked
  split at hparked
  · rename_i other hphase
    split_ifs at hparked with hserver
    exact ⟨hserver, Option.some.inj hparked ▸ hphase⟩
  · simp at hparked

end Service

section Runs

variable {ok : Cluster N → Action N → Prop} {clientAddrs : List String} {s : Service N}

theorem ServiceRun.staffed (hrun : ServiceRun ok clientAddrs s) : s.Staffed := by
  induction hrun with
  | initial _ _ => exact fun i ↦ List.Perm.nil
  | step _ _ hs _ ih => exact ih.step hs

/-- In every state of the service the handlers parked on a node are those of its parked
connections, each slot of the table is one that a parked connection waits for, and every parked
connection can leave its wait now, whatever the others do. So neither handlers nor slots are
left behind when connections end. -/
theorem parked_connections (hrun : ServiceRun ok clientAddrs s) :
    (∀ i, ((s.cluster.processes i).handlers).Perm (s.parked i)) ∧
      (∀ i idx, ((s.cluster.processes i).waiters idx).isSome → ∃ conn ∈ s.connections,
        conn.server = i ∧ ∃ handler, conn.phase = .parked handler ∧ handler.index = idx) ∧
      ∀ {k : ℕ} {conn : ClientConnection N} {handler : Handler},
        s.connections[k]? = some conn → conn.phase = .parked handler → ∀ accepted,
        ∃ h s', s.step clientAddrs (.answer k h accepted) = some s' ∧
          ServiceRun ok clientAddrs s' := by
  refine ⟨hrun.staffed, fun i idx hslot ↦ ?_, fun {k conn handler} hk hphase accepted ↦ ?_⟩
  · obtain ⟨handler, hmem, hidx⟩ := (hrun.run.frontend i).2.owned idx hslot
    have hparked : handler ∈ s.parked i := (hrun.staffed i).mem_iff.mp hmem
    obtain ⟨conn, hconn, hserver, hphase⟩ := Service.mem_parked hparked
    exact ⟨conn, hconn, hserver, handler, hphase, hidx⟩
  · have hparked : handler ∈ s.parked conn.server := by
      refine List.mem_filterMap.mpr ⟨conn, List.mem_of_getElem? hk, ?_⟩
      rw [ClientConnection.parkedAt, hphase]
      exact if_pos rfl
    have hmem : handler ∈ (s.cluster.processes conn.server).handlers :=
      (hrun.staffed conn.server).mem_iff.mpr hparked
    obtain ⟨h, hh⟩ := List.mem_iff_getElem?.mp hmem
    have hresume : s.observed.perform (.resume conn.server h) = some
        (s.observed.observe (.resume conn.server h)
          (s.cluster.resumeStep conn.server h handler)) := by
      have hstep : s.observed.cluster.step (.resume conn.server h) =
          some (s.cluster.resumeStep conn.server h handler) :=
        Option.map_eq_some_iff.mpr ⟨handler, hh, rfl⟩
      rw [Observed.perform, hstep]
      rfl
    obtain ⟨s', hs, hcluster⟩ : ∃ s', s.step clientAddrs (.answer k h accepted) = some s' ∧
        s'.cluster = s.cluster.resumeStep conn.server h handler := by
      refine ⟨⟨s.observed.observe (.resume conn.server h) (s.cluster.resumeStep conn.server h
        handler), s.connections.set k (conn.reply ((resume (s.cluster.processes
          conn.server).stopping (s.cluster.processes conn.server).waiters handler).1.text
            clientAddrs) accepted)⟩, ?_, rfl⟩
      simp only [Service.step, hk, Option.bind_eq_bind, Option.bind_some, hphase, hh, if_true,
        hresume, Option.map_some]
    refine ⟨h, s', hs, .step hrun (show s.Admits ok (.answer k h accepted) from trivial) hs
      fun x ↦ ?_⟩
    -- no term changes
    have hraft : (s.cluster.resumeStep conn.server h handler).raft x = s.cluster.raft x := by
      by_cases hx : x = conn.server
      · subst hx
        simp [Cluster.raft, Cluster.resumeStep, Cluster.record]
      · exact congrArg Process.raft (s.cluster.setProcess_of_ne hx _)
    rw [hcluster, hraft]
    exact hrun.run.termsBounded x

/-- Two clients of one node wait for different indices. -/
theorem parked_connections_two : ∃ s : Service 1, ServiceRun Vouched [] s ∧
    s.parked 0 = [⟨2, 1, ⟨.set, [107], [118]⟩⟩, ⟨3, 1, ⟨.get, [107], []⟩⟩] ∧
    ((s.cluster.processes 0).handlers).Perm (s.parked 0) ∧
    ∃ h s', s.step [] (.answer 1 h 9) = some s' ∧ ServiceRun Vouched [] s' := by
  obtain ⟨s, hrun, hparked, hphases⟩ : ∃ s : Service 1, ServiceRun Vouched [] s ∧
      s.parked 0 = [⟨2, 1, ⟨.set, [107], [118]⟩⟩, ⟨3, 1, ⟨.get, [107], []⟩⟩] ∧
      (s.connections[1]?).map ClientConnection.phase =
        some (.parked ⟨3, 1, ⟨.get, [107], []⟩⟩) :=
    exists_service_of_play (by decide) (by decide) []
      [.accept 0, .accept 0, .node (.timeout 0), .loop 0, .loop 1,
        .receive 0 [[83, 69, 84, 32, 107, 32, 118, 10]] 9,
        .receive 1 [[71, 69, 84, 32, 107], [13, 10]] 9] (by decide +kernel)
  obtain ⟨hstaffed, -, hanswer⟩ := parked_connections hrun
  obtain ⟨conn, hk, hphase⟩ := Option.map_eq_some_iff.mp hphases
  exact ⟨s, hrun, hparked, hstaffed 0, hanswer hk hphase 9⟩

end Runs

end Dkvs
