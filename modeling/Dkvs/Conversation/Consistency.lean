import Dkvs.Conversation.Exchanges

/-!
# What clients read on their connections is linearizable

The history of calls is linearizable, but it is kept beside the run. Here it is tied to the
bytes: each command line that was answered is a call of its own, its reply is the text of the
result that the history has for the call, and on one connection a call is over before the next
one begins.
-/

namespace Dkvs

open ReplicatedLog

variable {N : ℕ} {clientAddrs : List String} {s s' : Service N} {a : ServiceAction N}

/-- A command is a call of the history. If the reply is a result, the history has it, and if the
reply says that the command was not executed, the history says that the call failed. -/
def TextExchange.Recorded (clientAddrs : List String) (history : List ClientEvent)
    (x : TextExchange) : Prop :=
  match x.request with
  | some (.command cmd) => ∃ call response, x.call = some call ∧
      x.reply = response.text clientAddrs ∧ history[call]? = some (.invoked cmd) ∧
      (response.isSuccess = true → .returned call response ∈ history) ∧
      (response.isSuccess = false → response ≠ .commitTimeout → .failed call ∈ history)
  | _ => x.call = none

theorem TextExchange.Recorded.mono {history history' : List ClientEvent} {x : TextExchange}
    (hrecorded : x.Recorded clientAddrs history) (hgrows : history <+: history') :
    x.Recorded clientAddrs history' := by
  unfold Recorded at hrecorded ⊢
  split at hrecorded
  · obtain ⟨call, response, hcall, hreply, hinvoked, hreturned, hfailed⟩ := hrecorded
    exact ⟨call, response, hcall, hreply, getElem?_of_isPrefix hgrows hinvoked,
      fun hok ↦ hgrows.subset (hreturned hok),
      fun hbad hknown ↦ hgrows.subset (hfailed hbad hknown)⟩
  · exact hrecorded

/-- An exchange is recorded before a later call, and a parked handler has its ticket. -/
def callBooks (clientAddrs : List String) (o : Observed N) : Books where
  exchanged x := Answers clientAddrs x.request x.reply ∧ x.Recorded clientAddrs o.history
  precedes x later := ∀ call, later = some call → x.Recorded clientAddrs (o.history.take call)
  waits handler call := ∃ n, call = some n ∧ o.ticket (handler.index, handler.term) = some n

theorem Immediate.recorded {n : RaftNode} {request : Option ClientRequest} {text : Bytes}
    (himm : Immediate n request text) (history : List ClientEvent) :
    TextExchange.Recorded clientAddrs history ⟨request, none, text⟩ := by
  cases himm with
  | _ => rfl

/-- A command that a node does not take fails at once. -/
theorem recorded_refused {o : Observed N} {i : Fin N} {cmd : Command} {c' : Cluster N}
    (hplace : o.cluster.place i cmd = none) (result : SubmitResult) :
    TextExchange.Recorded clientAddrs (o.observe (.execute i cmd) c').history
      ⟨some (.command cmd), some o.history.length, (refuse i N result).text clientAddrs⟩ := by
  have hnotes : o.notes (.execute i cmd) = [.invoked cmd, .failed o.history.length] := by
    simp [Observed.notes, hplace]
  have hrefusal : (refuse i N result).isSuccess = false := by
    unfold refuse
    split_ifs
    · rfl
    · rfl
  refine ⟨o.history.length, refuse i N result, rfl, rfl, ?_, fun hok ↦ ?_, fun _ _ ↦ ?_⟩
  · simp [Observed.observe, hnotes]
  · simp [hrefusal] at hok
  · simp [Observed.observe, hnotes]

/-- A handler that was parked gives no other bad news than these two. -/
theorem lost_of_resume {stopping : Bool} {waiters : Waiters} {handler : Handler}
    (hbad : (resume stopping waiters handler).1.isSuccess = false)
    (hknown : (resume stopping waiters handler).1 ≠ .commitTimeout) :
    (resume stopping waiters handler).1 = .lostLeadership := by
  unfold resume at hbad hknown ⊢
  dsimp only at hbad hknown ⊢
  split_ifs at hbad hknown ⊢ with hpending hterm
  · exact absurd rfl hknown
  · rfl
  · rw [isSuccess_outcome] at hbad
    simp at hbad

/-- The answer of a handler is recorded for the call that has its ticket. -/
theorem recorded_answered {o : Observed N} {i : Fin N} {k call : ℕ} {handler : Handler}
    {c' : Cluster N} (hparked : (o.cluster.processes i).handlers[k]? = some handler)
    (hticket : o.ticket (handler.index, handler.term) = some call)
    (hinvoked : o.history[call]? = some (.invoked handler.cmd)) :
    TextExchange.Recorded clientAddrs (o.observe (.resume i k) c').history
      ⟨some (.command handler.cmd), some call, (resume (o.cluster.processes i).stopping
        (o.cluster.processes i).waiters handler).1.text clientAddrs⟩ := by
  have hnotes : o.notes (.resume i k) = answerEvents call (resume (o.cluster.processes i).stopping
      (o.cluster.processes i).waiters handler).1 := by
    simp [Observed.notes, hparked, hticket]
  refine ⟨call, _, rfl, rfl, Observed.history_observe hinvoked, fun hok ↦ ?_,
    fun hbad hknown ↦ ?_⟩
  · apply List.mem_append_right
    rw [hnotes, answerEvents, if_pos hok]
    exact List.mem_singleton.mpr rfl
  · apply List.mem_append_right
    rw [hnotes, answerEvents, if_neg (by simp [hbad]), if_pos (lost_of_resume hbad hknown)]
    exact List.mem_singleton.mpr rfl

theorem ServiceRun.keeps (hrun : ServiceRun Vouched clientAddrs s)
    (haddrs : ∀ addr ∈ clientAddrs, newline ∉ addr.toUTF8.toList) (hok : s.Admits Vouched a)
    (hs : s.step clientAddrs a = some s') :
    Keeps clientAddrs s s' (callBooks clientAddrs s.observed)
      (callBooks clientAddrs s'.observed) := by
  obtain ⟨h, hsim, -, hled⟩ := hrun.observedRun.exists_ledger
  have hstep := Service.observed_step hrun.bounded hok hs
  have hgrows : s.observed.history <+: s'.observed.history := by
    rcases hstep with hsame | ⟨b, -, heq, -⟩
    · rw [hsame]
    · rw [heq]
      exact List.prefix_append _ _
  refine ⟨?_, ?_, ?_, ?_, ?_, ?_, ?_, ?_, ?_⟩
  · exact fun x hx ↦ ⟨hx.1, hx.2.mono hgrows⟩
  · exact fun x call hx n hn ↦ (hx n hn).mono (hgrows.take n)
  · rintro handler call ⟨n, rfl, hticket⟩
    refine ⟨n, rfl, ?_⟩
    rcases hstep with hsame | ⟨b, -, heq, -⟩
    · rwa [hsame]
    · rw [heq]
      exact hled.ticket_mono hsim hticket
  · exact fun x hx ↦ hx.1.newline_notMem haddrs
  · refine fun x hx ↦ ⟨fun n hn ↦ by simp at hn, fun n hn ↦ ?_⟩
    obtain rfl := Option.some.inj hn
    rw [← List.prefix_iff_eq_take.mp hgrows]
    exact hx.2
  · exact fun himm ↦ ⟨himm.answers clientAddrs, himm.recorded _⟩
  · intro i cmd hplace heq
    refine ⟨refuse_answers clientAddrs _ _ _, ?_⟩
    rw [heq]
    exact recorded_refused hplace _
  · intro i cmd slot hplace heq
    refine ⟨_, rfl, ?_⟩
    rw [heq]
    exact Observed.ticket_observe_of_issues hplace
  · rintro i k handler call hparked ⟨n, rfl, hticket⟩ heq
    have hplain := hrun.run.plain_resume (x := i) (fun hok ↦ hok.2) handler
    refine ⟨.command (fits_resume _ _ handler) hplain, ?_⟩
    obtain ⟨n', hticket', hinvoked⟩ := hled.parked i handler (List.mem_of_getElem? hparked)
    obtain rfl : n' = n := Option.some.inj (hticket'.symm.trans hticket)
    rw [heq]
    exact recorded_answered hparked hticket hinvoked

theorem ServiceRun.accounted (hrun : ServiceRun Vouched clientAddrs s)
    (haddrs : ∀ addr ∈ clientAddrs, newline ∉ addr.toUTF8.toList) :
    ∀ conn ∈ s.connections, Framed (callBooks clientAddrs s.observed) conn := by
  induction hrun with
  | initial _ _ => simp [Service.initial]
  | step hrun hok hs _ ih => exact (hrun.keeps haddrs hok hs).step ih hs

/-! ## Each command is a call of its own -/

namespace Service

variable {k j call : ℕ}

/-- The `j`-th request of the `k`-th connection is this call. -/
def Calls (s : Service N) (k j call : ℕ) : Prop :=
  ∃ conn, s.connections[k]? = some conn ∧ conn.calls[j]? = some (some call)

theorem calls_of_set {o : Observed N} {x : ℕ} {next : ClientConnection N}
    (hcalls : Calls ⟨o, s.connections.set x next⟩ k j call) :
    k = x ∧ next.calls[j]? = some (some call) ∨ s.Calls k j call := by
  obtain ⟨conn', hk, hget⟩ := hcalls
  rw [List.getElem?_set] at hk
  split_ifs at hk with heq hlt
  · obtain rfl := Option.some.inj hk
    exact Or.inl ⟨heq.symm, hget⟩
  · exact Or.inr ⟨conn', hk, hget⟩

theorem calls_of_set_same {o : Observed N} {x : ℕ} {conn next : ClientConnection N}
    (hx : s.connections[x]? = some conn) (hnext : next.calls = conn.calls)
    (hcalls : Calls ⟨o, s.connections.set x next⟩ k j call) : s.Calls k j call := by
  rcases calls_of_set hcalls with ⟨rfl, hget⟩ | hold
  · exact ⟨conn, hx, hnext ▸ hget⟩
  · exact hold

/-- A new call stands behind the others of its connection. -/
theorem calls_of_set_note {o : Observed N} {x : ℕ} {conn next : ClientConnection N}
    {new : Option ℕ} (hx : s.connections[x]? = some conn)
    (hnext : next.calls = conn.calls ++ [new])
    (hcalls : Calls ⟨o, s.connections.set x next⟩ k j call) :
    s.Calls k j call ∨ k = x ∧ j = conn.calls.length ∧ new = some call := by
  rcases calls_of_set hcalls with ⟨rfl, hget⟩ | hold
  · rw [hnext, List.getElem?_append] at hget
    split_ifs at hget with hj
    · exact Or.inl ⟨conn, hx, hget⟩
    · rw [List.getElem?_singleton] at hget
      split_ifs at hget with hlast
      exact Or.inr ⟨rfl, by omega, Option.some.inj hget⟩
  · exact Or.inl hold

theorem calls_of_cutOff {o : Observed N} {restarted : Option (Fin N)}
    (hcalls : Calls ⟨o, (s.cutOff restarted).connections⟩ k j call) : s.Calls k j call := by
  obtain ⟨conn', hk, hget⟩ := hcalls
  simp only [cutOff, List.getElem?_map, Option.map_eq_some_iff] at hk
  obtain ⟨conn, hk, rfl⟩ := hk
  refine ⟨conn, hk, ?_⟩
  split_ifs at hget
  · exact hget
  · exact hget

/-- A step adds one call at most, and the history grows with it. -/
theorem calls_step (hs : s.step clientAddrs a = some s') :
    ∃ x y, ∀ {k j call}, s'.Calls k j call → s.Calls k j call ∨
      k = x ∧ j = y ∧ call = s.observed.history.length ∧
        s.observed.history.length < s'.observed.history.length := by
  have hgrows : ∀ {b : Action N} {c' : Cluster N}, s.observed.notes b ≠ [] →
      s.observed.history.length < (s.observed.observe b c').history.length := by
    intro b c' hne
    have hpos := List.length_pos_iff.mpr hne
    simp only [Observed.observe, List.length_append]
    omega
  have hone : ∀ {x : ℕ} {conn next : ClientConnection N} {o : Observed N},
      s.connections[x]? = some conn → next.calls = conn.calls ++ [some s.observed.history.length] →
      s.observed.history.length < o.history.length → ∀ {k j call},
      Calls ⟨o, s.connections.set x next⟩ k j call → s.Calls k j call ∨
        k = x ∧ j = conn.calls.length ∧ call = s.observed.history.length ∧
          s.observed.history.length < o.history.length := by
    intro x conn next o hx hnext hlonger k j call hcalls
    rcases calls_of_set_note hx hnext hcalls with hold | ⟨hk, hj, hcall⟩
    · exact Or.inl hold
    · exact Or.inr ⟨hk, hj, (Option.some.inj hcall).symm, hlonger⟩
  cases outcome hs with
  | accept i =>
      refine ⟨0, 0, fun {k j call} ↦ ?_⟩
      rintro ⟨conn, hk, hget⟩
      simp only at hk
      rw [List.getElem?_append] at hk
      split_ifs at hk with hlt
      · exact Or.inl ⟨conn, hk, hget⟩
      · rw [List.getElem?_singleton] at hk
        split_ifs at hk
        obtain rfl := Option.some.inj hk
        simp [ClientConnection.opened] at hget
  | loop hk _ _ => exact ⟨0, 0, fun hcalls ↦ Or.inl (calls_of_set_same hk (by rfl) hcalls)⟩
  | hangUp hk _ _ => exact ⟨0, 0, fun hcalls ↦ Or.inl (calls_of_set_same hk (by rfl) hcalls)⟩
  | blank htook =>
      exact ⟨0, 0, fun hcalls ↦ Or.inl (calls_of_set_same htook.mem (by rfl) hcalls)⟩
  | @spoke _ k conn chunks line rest text accepted _ htook _ _ next hnext =>
      have hcalls : next.calls = conn.calls ++ [none] := by
        rcases hnext with ⟨-, rfl⟩ | rfl
        · rfl
        · rfl
      refine ⟨0, 0, fun hnew ↦ ?_⟩
      rcases calls_of_set_note htook.mem hcalls hnew with hold | ⟨-, -, hnone⟩
      · exact Or.inl hold
      · simp at hnone
  | execute htook _ _ _ =>
      exact ⟨_, _, fun hcalls ↦ hone htook.mem (by rfl) (hgrows (by simp [Observed.notes])) hcalls⟩
  | refused htook _ _ _ =>
      exact ⟨_, _, fun hcalls ↦ hone htook.mem (by rfl) (hgrows (by simp [Observed.notes])) hcalls⟩
  | answer hk _ _ _ => exact ⟨0, 0, fun hcalls ↦ Or.inl (calls_of_set_same hk (by rfl) hcalls)⟩
  | die htook _ _ =>
      exact ⟨_, _, fun hcalls ↦ hone htook.mem (by rfl) (hgrows (by simp [Observed.notes]))
        (calls_of_cutOff hcalls)⟩
  | node _ _ => exact ⟨0, 0, fun hcalls ↦ Or.inl (calls_of_cutOff hcalls)⟩

end Service

theorem ServiceRun.calls_distinct {ok : Cluster N → Action N → Prop}
    (hrun : ServiceRun ok clientAddrs s) :
    (∀ {k j call}, s.Calls k j call → call < s.observed.history.length) ∧
      ∀ {k j k' j' call}, s.Calls k j call → s.Calls k' j' call → k = k' ∧ j = j' := by
  induction hrun with
  | initial _ _ =>
      refine ⟨?_, ?_⟩
      · rintro k j call ⟨conn, hk, -⟩
        simp [Service.initial] at hk
      · rintro k j k' j' call ⟨conn, hk, -⟩
        simp [Service.initial] at hk
  | @step s s' a hrun hok hs _ ih =>
      obtain ⟨hlt, hunique⟩ := ih
      obtain ⟨x, y, hadds⟩ := Service.calls_step hs
      have hgrows : s.observed.history.length ≤ s'.observed.history.length := by
        rcases Service.observed_step hrun.bounded hok hs with hsame | ⟨b, -, heq, -⟩
        · rw [hsame]
        · rw [heq]
          exact (List.prefix_append _ _).length_le
      refine ⟨fun hcalls ↦ ?_, fun hcalls hcalls' ↦ ?_⟩
      · rcases hadds hcalls with hold | ⟨-, -, rfl, hless⟩
        · exact (hlt hold).trans_le hgrows
        · exact hless
      · rcases hadds hcalls with hold | ⟨rfl, rfl, rfl, -⟩
        · rcases hadds hcalls' with hold' | ⟨-, -, rfl, -⟩
          · exact hunique hold hold'
          · exact absurd (hlt hold) (lt_irrefl _)
        · rcases hadds hcalls' with hold' | ⟨rfl, rfl, -, -⟩
          · exact absurd (hlt hold') (lt_irrefl _)
          · exact ⟨rfl, rfl⟩

/-- What all clients read on their connections fits one order of their commands. The lines sent
on a connection are the replies to its first requests; each command among these is a call of its
own in a linearizable history, its reply is the result that the history has for it, or says
truly that the command was not executed, and it is over before the next call of the connection.
Only a commit timeout leaves open what became of the command. -/
theorem conversations_linearizable (hrun : ServiceRun Vouched clientAddrs s)
    (haddrs : ∀ addr ∈ clientAddrs, newline ∉ addr.toUTF8.toList) :
    Linearization.Linearizable kvObject s.observed.history ∧
      (∀ conn ∈ s.connections, ∃ exchanges : List TextExchange,
        exchanges.map TextExchange.reply = lines conn.sent ∧
        exchanges.map TextExchange.request <+: requestsOf ((lines conn.received).map chomp) ∧
        exchanges.map TextExchange.call <+: conn.calls ∧
        (∀ x ∈ exchanges, x.Recorded clientAddrs s.observed.history) ∧
        exchanges.Pairwise fun x y ↦ ∀ call, y.call = some call →
          x.Recorded clientAddrs (s.observed.history.take call)) ∧
      ∀ {k j k' j' call}, s.Calls k j call → s.Calls k' j' call → k = k' ∧ j = j' := by
  refine ⟨?_, fun conn hmem ↦ ?_, hrun.calls_distinct.2⟩
  · obtain ⟨h, hsim, -, hled⟩ := hrun.observedRun.exists_ledger
    obtain ⟨t, l, hcert, hmax⟩ := hsim.exists_certified_max
    exact (hled.isJournal hsim hcert hmax).linearizable
  · obtain ⟨taken, exchanges, rest, part, hspoken, hpart, hrequests, hcalls⟩ :=
      (hrun.accounted haddrs conn hmem).ended
    have hsent := hspoken.lines_sent (fun x hx ↦ hx.1.newline_notMem haddrs) hpart
    refine ⟨exchanges, hsent.symm, ?_, hcalls, fun x hx ↦ (hspoken.exchanged x hx).2,
      hspoken.ordered⟩
    rw [hspoken.lines_received, List.map_append]
    exact hrequests.trans (requestsOf_isPrefix _ _)

/-- Two clients of one node: the one that comes second is answered first. -/
theorem conversations_linearizable_two : ∃ s : Service 1, ServiceRun Vouched ["h:1"] s ∧
    s.observed.history = [.invoked ⟨.set, [107], [118]⟩, .invoked ⟨.get, [107], []⟩,
      .returned 1 (.value [118]), .returned 0 .ok] ∧
    s.connections.map (lines ∘ ClientConnection.sent) =
      [[[79, 75]], [[86, 65, 76, 85, 69, 32, 118]]] ∧
    Linearization.Linearizable kvObject s.observed.history := by
  obtain ⟨s, hrun, hhistory, hsent⟩ : ∃ s : Service 1, ServiceRun Vouched ["h:1"] s ∧
      s.observed.history = [.invoked ⟨.set, [107], [118]⟩, .invoked ⟨.get, [107], []⟩,
        .returned 1 (.value [118]), .returned 0 .ok] ∧
      s.connections.map (lines ∘ ClientConnection.sent) =
        [[[79, 75]], [[86, 65, 76, 85, 69, 32, 118]]] :=
    exists_service_of_play (by decide) (by decide) ["h:1"]
      [.accept 0, .accept 0, .node (.timeout 0), .loop 0, .loop 1,
        .receive 0 [[83, 69, 84, 32, 107, 32, 118, 10]] 9,
        .receive 1 [[71, 69, 84, 32, 107], [13, 10]] 9,
        .node (.fetch 0), .node (.apply 0), .node (.fetch 0), .node (.apply 0),
        .node (.fetch 0), .node (.apply 0), .answer 1 1 9, .answer 0 0 9] (by decide +kernel)
  exact ⟨s, hrun, hhistory, hsent, (conversations_linearizable hrun (by decide +kernel)).1⟩

end Dkvs
