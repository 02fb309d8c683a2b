import Dkvs.Client

/-!
# Sending a line again

A line without a newline leaves one entry at most on each connection where it is sent, because
a server cuts what it receives at newlines. So a call updates the store twice only if its line
is taken on two connections. A redirect says that the line was not taken; a reply that does not
arrive says nothing.
-/

namespace Dkvs

variable {N : ℕ}

/-! ## One line, one entry -/

namespace Channel

variable {channel : Channel} {conn next : ClientConnection N} {arrived : Bytes}
  {entry : Option (ℕ × LogEntry)}

/-- What the server has not yet cut into lines. -/
def unread (channel : Channel) (conn : ClientConnection N) : Bytes :=
  conn.buffer ++ channel.written.drop conn.received.length

/-- One line at most is still to be taken or has left an entry. A reply goes out only after that
line, and it is not a redirect if there is an entry. -/
structure Sound (channel : Channel) (conn : ClientConnection N) : Prop where
  received : conn.received <+: channel.written
  single : (channel.unread conn).count newline + channel.entries.length ≤ 1
  parked : ∀ handler, conn.phase = .parked handler →
    conn.sent.length = channel.read ∧ newline ∉ channel.unread conn
  reply : conn.sent.length = channel.read ∨ newline ∉ channel.unread conn ∧
    ∃ text, conn.sent.drop channel.read <+: sendLine text ∧
      (channel.entries ≠ [] → ¬ redirectWord <+: text)

/-- No line is left for the server, and none was taken. -/
structure Spent (channel : Channel) (conn : ClientConnection N) : Prop where
  unread : newline ∉ channel.unread conn
  entries : channel.entries = []

/-- The call has not sent its line on this connection. -/
structure Unused (channel : Channel) (conn : ClientConnection N) : Prop
    extends Spent channel conn where
  received : conn.received <+: channel.written
  silent : conn.sent.length = channel.read
  free : ∀ handler, conn.phase ≠ .parked handler
  replied : channel.replied = false

theorem Unused.sound (hunused : channel.Unused conn) : channel.Sound conn where
  received := hunused.received
  single := by simp [List.count_eq_zero.mpr hunused.unread, hunused.entries]
  parked handler hparked := (hunused.free handler hparked).elim
  reply := Or.inl hunused.silent

theorem Unused.opened (i : Fin N) : Unused {} (.opened i : ClientConnection N) := by
  refine ⟨⟨?_, rfl⟩, List.prefix_rfl, rfl, ?_, rfl⟩
  · simp [unread, ClientConnection.opened]
  · simp [ClientConnection.opened]

theorem unread_arrived (hwritten : conn.received ++ arrived <+: channel.written) :
    channel.unread conn =
      conn.buffer ++ arrived ++ channel.written.drop (conn.received ++ arrived).length := by
  obtain ⟨tail, htail⟩ := hwritten
  rw [unread, ← htail, List.drop_left, List.append_assoc conn.received, List.drop_left]
  simp

/-- A line that is taken has used up one of the newlines. -/
theorem count_unread_line {raw : Bytes} (hraw : newline ∉ raw)
    (hwritten : conn.received ++ arrived <+: channel.written)
    (hcut : conn.buffer ++ arrived = sendLine raw ++ next.buffer)
    (hreceived : next.received = conn.received ++ arrived) :
    (channel.unread conn).count newline = (channel.unread next).count newline + 1 := by
  rw [unread_arrived hwritten, hcut, unread, hreceived]
  simp only [sendLine, List.count_append, List.count_eq_zero.mpr hraw, List.count_singleton_self]
  omega

theorem unread_hangUp (hwritten : conn.received ++ arrived <+: channel.written) :
    (channel.unread { conn with received := conn.received ++ arrived, phase := .closed }).Sublist
      (channel.unread conn) := by
  rw [unread_arrived hwritten, unread, List.append_assoc]
  exact (List.sublist_append_right _ _).append_left _

@[simp] theorem credit_none (channel : Channel) : channel.credit none = channel := by
  simp [credit]

theorem take_prefix_drop_read {text : Bytes} {accepted : ℕ}
    (hsilent : conn.sent.length = channel.read) :
    (conn.sent ++ (sendLine text).take accepted).drop channel.read <+: sendLine text := by
  rw [← hsilent, List.drop_left]
  exact List.take_prefix _ _

theorem Sound.turn (hsound : channel.Sound conn)
    (hwritten : conn.received ++ arrived <+: channel.written)
    (hturn : conn.Turn arrived entry next) : (channel.credit entry).Sound next := by
  cases hturn with
  | rest hphase =>
      rw [credit_none]
      refine ⟨hsound.received, hsound.single, fun handler hparked ↦ ?_, hsound.reply⟩
      exact hsound.parked handler ((hphase handler hparked).trans hparked)
  | hangUp =>
      rw [credit_none]
      have hsub := unread_hangUp hwritten
      refine ⟨hwritten, ?_, by simp, ?_⟩
      · exact (Nat.add_le_add_right (hsub.count_le newline) _).trans hsound.single
      · exact hsound.reply.imp_right fun hreply ↦ ⟨fun hmem ↦ hreply.1 (hsub.subset hmem), hreply.2⟩
  | line hraw hcut hreceived hsent =>
      have hcount := count_unread_line hraw hwritten hcut hreceived
      have hsingle := hsound.single
      have hnone : channel.entries = [] := List.length_eq_zero_iff.mp (by omega)
      have hlast : newline ∉ channel.unread next := List.count_eq_zero.mp (by omega)
      -- the line that is taken was still to be read, so no reply has gone out yet
      have hsilent : conn.sent.length = channel.read := by
        rcases hsound.reply with hsilent | ⟨hnotMem, -⟩
        · exact hsilent
        · rw [List.count_eq_zero.mpr hnotMem] at hcount
          omega
      refine ⟨hreceived ▸ hwritten, ?_, fun handler hparked ↦ ?_, ?_⟩
      · have hzero : ((channel.credit entry).unread next).count newline = 0 :=
          List.count_eq_zero.mpr hlast
        rw [hzero, credit, hnone]
        cases entry with
        | none => simp
        | some e => simp
      · rcases hsent with hsent | ⟨-, hfree, -⟩
        · exact ⟨hsent ▸ hsilent, hlast⟩
        · exact (hfree handler hparked).elim
      · rcases hsent with hsent | ⟨rfl, -, text, accepted, hsent⟩
        · exact Or.inl (hsent ▸ hsilent)
        · refine Or.inr ⟨hlast, text, hsent ▸ take_prefix_drop_read hsilent, fun hentries ↦ ?_⟩
          rw [credit_none] at hentries
          exact (hentries hnone).elim
  | answer hparked htext hphase =>
      rw [credit_none]
      obtain ⟨hsilent, hlast⟩ := hsound.parked _ hparked
      refine ⟨hsound.received, hsound.single, fun handler h ↦ (hphase handler h).elim, ?_⟩
      exact Or.inr ⟨hlast, _, take_prefix_drop_read hsilent, fun _ ↦ htext⟩

/-- Without a newline there is nothing that the server could act on. -/
theorem Spent.turn (hspent : channel.Spent conn)
    (hwritten : conn.received ++ arrived <+: channel.written)
    (hturn : conn.Turn arrived entry next) : (channel.credit entry).Spent next := by
  cases hturn with
  | rest _ | answer _ _ _ =>
      rw [credit_none]
      exact ⟨hspent.unread, hspent.entries⟩
  | hangUp =>
      rw [credit_none]
      exact ⟨fun hmem ↦ hspent.unread ((unread_hangUp hwritten).subset hmem), hspent.entries⟩
  | line hraw hcut hreceived _ =>
      have hcount := count_unread_line hraw hwritten hcut hreceived
      rw [List.count_eq_zero.mpr hspent.unread] at hcount
      omega

theorem Unused.turn (hunused : channel.Unused conn)
    (hwritten : conn.received ++ arrived <+: channel.written)
    (hturn : conn.Turn arrived entry next) : (channel.credit entry).Unused next := by
  have hspent := hunused.toSpent.turn hwritten hturn
  cases hturn with
  | rest hphase =>
      refine ⟨hspent, hunused.received, hunused.silent, fun handler hparked ↦ ?_, hunused.replied⟩
      exact hunused.free handler ((hphase handler hparked).trans hparked)
  | hangUp => exact ⟨hspent, hwritten, hunused.silent, by simp, hunused.replied⟩
  | line hraw hcut hreceived _ =>
      have hcount := count_unread_line hraw hwritten hcut hreceived
      rw [List.count_eq_zero.mpr hunused.unread] at hcount
      omega
  | answer hparked _ _ => exact (hunused.free _ hparked).elim

/-- One line, or a part of it, is written on the connection. -/
theorem Unused.write (hunused : channel.Unused conn) {text : Bytes}
    (htext : text.count newline ≤ 1) :
    { channel with written := channel.written ++ text }.Sound conn := by
  have hunread : { channel with written := channel.written ++ text }.unread conn =
      channel.unread conn ++ text := by
    simp only [unread, List.append_assoc]
    rw [List.drop_append_of_le_length hunused.received.length_le]
  refine ⟨hunused.received.trans (List.prefix_append _ _), ?_,
    fun handler hparked ↦ (hunused.free handler hparked).elim, Or.inl hunused.silent⟩
  rw [hunread, List.count_append, List.count_eq_zero.mpr hunused.unread, hunused.entries]
  simpa using htext

/-- A server that redirects the client has not taken its line. -/
theorem Sound.spent_of_redirect (hsound : channel.Sound conn) {chunks : List Bytes}
    {reply rest : Bytes} (hsent : chunks.flatten <+: conn.sent.drop channel.read)
    (hline : recvLine [] chunks = some (reply, rest, []))
    (hredirect : redirectWord <+: reply) : channel.Spent conn := by
  obtain ⟨raw, -, rfl, hcut⟩ := recvLine_cuts hline
  have hraw : sendLine raw <+: conn.sent.drop channel.read :=
    List.IsPrefix.trans ⟨_, hcut.symm⟩ hsent
  rcases hsound.reply with hsilent | ⟨hunread, text, htext, hentries⟩
  · have hlength := hraw.length_le
    rw [List.length_drop, hsilent, Nat.sub_self, sendLine, List.length_append] at hlength
    simp at hlength
  · refine ⟨hunread, by_contra fun hne ↦ hentries hne ?_⟩
    -- the line that arrived is the first line of the reply
    have hfirst : sendLine raw <+: sendLine text := hraw.trans htext
    have hlength : raw.length ≤ text.length := by simpa [sendLine] using hfirst.length_le
    have hprefix : raw <+: text :=
      List.prefix_of_prefix_length_le ((List.prefix_append _ _).trans hfirst)
        (List.prefix_append _ _) hlength
    exact hredirect.trans ((chomp_isPrefix raw).trans hprefix)

end Channel

/-! ## The whole call -/

namespace Session

variable {clientAddrs : List String} {line : Bytes} {s s' : Session N}

/-- The enabled actions and what they do. -/
inductive Outcome (clientAddrs : List String) (line : Bytes) (s : Session N) :
    ClientAction N → Session N → Prop
  | service {a : ServiceAction N} {service : Service N} (harrives : s.Arrives a)
      (hs : s.service.step clientAddrs a = some service) :
      Outcome clientAddrs line s (.service a) (s.serve a service)
  | connect {i : Fin N} {s' : Session N} (hs : s.tcpConnect clientAddrs i = some s') :
      Outcome clientAddrs line s (.connect i) s'
  | giveUp {a : ClientAction N} : Outcome clientAddrs line s a s.retry
  | sendFails {accepted k : ℕ} (hready : s.Ready) (hconn : s.conn = some k) :
      Outcome clientAddrs line s (.sendFails accepted)
        (s.write k ((sendLine line).take accepted)).retry
  | send {k : ℕ} (hready : s.Ready) (hconn : s.conn = some k) :
      Outcome clientAddrs line s .send
        { s.write k (sendLine line) with awaiting := true, latest := some k }
  | receive {chunks : List Bytes} {reached : Option (Fin N)} {k : ℕ} {channel : Channel}
      {conn : ClientConnection N} {reply rest : Bytes} {s' : Session N}
      (hchannel : s.channels k = some channel) (hk : s.service.connections[k]? = some conn)
      (hsent : chunks.flatten <+: conn.sent.drop channel.read)
      (hline : recvLine [] chunks = some (reply, rest, []))
      (hs : (s.update k fun channel ↦ { channel with replied := true }).onReply clientAddrs reply
        reached = some s') : Outcome clientAddrs line s (.receive chunks reached) s'
  | finish {a : ClientAction N} {result : Option Bytes} :
      Outcome clientAddrs line s a { s with result := some result }

theorem outcome {a : ClientAction N} (hs : s.step clientAddrs line a = some s') :
    Outcome clientAddrs line s a s' := by
  cases a with
  | service a =>
      simp only [step, Option.ite_none_right_eq_some, Option.map_eq_some_iff] at hs
      obtain ⟨harrives, service, hservice, rfl⟩ := hs
      exact .service harrives hservice
  | connect i =>
      simp only [step, Option.ite_none_right_eq_some] at hs
      exact .connect hs.2
  | unreachable | exhausted =>
      simp only [step, Option.ite_none_right_eq_some, Option.some.injEq] at hs
      obtain ⟨-, rfl⟩ := hs
      exact .finish
  | unaccepted | receiveFails =>
      simp only [step, Option.ite_none_right_eq_some, Option.some.injEq] at hs
      obtain ⟨-, rfl⟩ := hs
      exact .giveUp
  | sendFails accepted =>
      simp only [step, Option.ite_none_right_eq_some, Option.map_eq_some_iff] at hs
      obtain ⟨⟨hready, -⟩, k, hconn, rfl⟩ := hs
      exact .sendFails hready hconn
  | send =>
      simp only [step, Option.ite_none_right_eq_some, Option.map_eq_some_iff] at hs
      obtain ⟨hready, k, hconn, rfl⟩ := hs
      exact .send hready hconn
  | receive chunks reached =>
      simp only [step, Option.bind_eq_bind, Option.bind_eq_some_iff,
        Option.ite_none_right_eq_some] at hs
      obtain ⟨k, -, channel, hchannel, conn, hk, ⟨-, hsent⟩, hreply⟩ := hs
      split at hreply
      · rename_i hline
        exact .receive hchannel hk hsent hline hreply
      · simp at hreply

theorem tcpConnect_eq_some {i : Fin N} (hs : s.tcpConnect clientAddrs i = some s') :
    s.service.step clientAddrs (.accept i) = some
        { s.service with connections := s.service.connections ++ [.opened i] } ∧
      s' = { s with
        service := { s.service with connections := s.service.connections ++ [.opened i] }
        conn := some s.service.connections.length
        channels := Function.update s.channels s.service.connections.length (some {}) } := by
  obtain ⟨service, hservice, rfl⟩ := Option.map_eq_some_iff.mp hs
  have hsame : service =
      { s.service with connections := s.service.connections ++ [.opened i] } := by
    cases Service.outcome hservice with
    | accept => rfl
    | spoke hinput _ _ _ _ => simp [ServiceAction.input] at hinput
  subst hsame
  exact ⟨hservice, rfl⟩

theorem onReply_cases {reply : Bytes} {reached : Option (Fin N)}
    (hs : s.onReply clientAddrs reply reached = some s') :
    s' = { s with awaiting := false, result := some (some reply) } ∨
      redirectWord <+: reply ∧
        (s' = s.retry ∨ ∃ i, s.retry.tcpConnect clientAddrs i = some s') := by
  have hword : ∀ {target}, redirectTarget reply = some target → redirectWord <+: reply := by
    intro target htarget
    by_contra hnot
    simp [redirectTarget_eq_none_iff.mpr hnot] at htarget
  unfold onReply at hs
  split at hs
  · exact Or.inl (Option.some.inj hs).symm
  · rename_i htarget
    exact Or.inr ⟨hword htarget, Or.inl (Option.some.inj hs).symm⟩
  · rename_i htarget
    exact Or.inr ⟨hword htarget, Or.inl (Option.some.inj hs).symm⟩
  · rename_i htarget
    exact Or.inr ⟨hword htarget, Or.inr ⟨_, hs⟩⟩

/-- What the client does at the connections is part of their run. -/
theorem service_step {a : ClientAction N} (hadmits : s.Admits a)
    (hs : s.step clientAddrs line a = some s') :
    s'.service = s.service ∨ ∃ b, s.service.Admits (fun _ _ ↦ True) b ∧
      s.service.step clientAddrs b = some s'.service := by
  have hconnect : ∀ {t : Session N} {i : Fin N}, t.tcpConnect clientAddrs i = some s' →
      t.service = s.service →
        ∃ b, s.service.Admits (fun _ _ ↦ True) b ∧
          s.service.step clientAddrs b = some s'.service := by
    intro t i hconnect ht
    obtain ⟨hstep, rfl⟩ := tcpConnect_eq_some hconnect
    exact ⟨.accept i, trivial, ht ▸ hstep⟩
  cases outcome hs with
  | service _ hservice => exact Or.inr ⟨_, hadmits, hservice⟩
  | connect hs => exact Or.inr (hconnect hs rfl)
  | receive _ _ _ _ hs =>
      rcases onReply_cases hs with rfl | ⟨-, rfl | ⟨i, hs⟩⟩
      · exact Or.inl rfl
      · exact Or.inl rfl
      · exact Or.inr (hconnect hs rfl)
  | _ => exact Or.inl rfl

/-- What arrives at a server is the next part of what the call has written. -/
theorem Arrives.arrival_written {a : ServiceAction N} (harrives : s.Arrives a) {k : ℕ}
    {channel : Channel} {conn : ClientConnection N} (hchannel : s.channels k = some channel)
    (hk : s.service.connections[k]? = some conn) (hreceived : conn.received <+: channel.written) :
    conn.received ++ a.arrival k <+: channel.written := by
  by_cases hinput : ∃ chunks, a.input = some (k, chunks)
  · obtain ⟨chunks, hinput⟩ := hinput
    rw [Service.arrival_of_input hinput]
    exact harrives _ hinput channel hchannel conn hk
  · have hnone : a.arrival k = [] :=
      Service.arrival_of_input_ne fun x hx hxk ↦ hinput ⟨x.2, by rw [hx, ← hxk]⟩
    rw [hnone, List.append_nil]
    exact hreceived

/-- At most one connection has entries, and only the last copy of the line can have left one. -/
structure Single (s : Session N) : Prop where
  sound : ∀ {k : ℕ} {channel : Channel}, s.channels k = some channel →
    ∃ conn, s.service.connections[k]? = some conn ∧ channel.Sound conn
  own : ∀ {k : ℕ} {channel : Channel}, s.channels k = some channel → channel.entries ≠ [] →
    s.latest = some k
  replied : s.result = none → ∀ {k : ℕ} {channel : Channel}, s.channels k = some channel →
    channel.replied = true → ∃ conn, s.service.connections[k]? = some conn ∧ channel.Spent conn
  unused : s.result = none → s.awaiting = false → ∀ {k : ℕ}, s.conn = some k →
    ∃ channel conn, s.channels k = some channel ∧ s.service.connections[k]? = some conn ∧
      channel.Unused conn

namespace Single

theorem start {service : Service N} {conn : Option ℕ} (hidle : service.Idle conn) :
    (Session.start service conn).Single := by
  -- the only connection known to the call is the one that it begins with
  have honly : ∀ {k channel}, (Session.start service conn).channels k = some channel →
      ∃ old, service.connections[k]? = some old ∧ channel.Unused old := by
    intro k channel hchannel
    simp only [Session.start, Option.ite_none_right_eq_some, Option.map_eq_some_iff] at hchannel
    obtain ⟨rfl, old, hold, rfl⟩ := hchannel
    obtain ⟨old', hold', hbuffer, hfree⟩ := hidle k rfl
    obtain rfl := Option.some.inj (hold.symm.trans hold')
    refine ⟨old, hold, ⟨?_, rfl⟩, List.prefix_rfl, rfl, hfree, rfl⟩
    simp [Channel.unread, hbuffer]
  refine ⟨?_, ?_, ?_, ?_⟩
  · intro k channel hchannel
    obtain ⟨old, hold, hunused⟩ := honly hchannel
    exact ⟨old, hold, hunused.sound⟩
  · intro k channel hchannel hentries
    obtain ⟨old, -, hunused⟩ := honly hchannel
    exact (hentries hunused.entries).elim
  · intro _ k channel hchannel _
    obtain ⟨old, hold, hunused⟩ := honly hchannel
    exact ⟨old, hold, hunused.toSpent⟩
  · rintro - - k hk
    obtain ⟨old, hold, -⟩ := hidle k hk
    have hchannel : (Session.start service conn).channels k =
        some { written := old.received, read := old.sent.length } := by
      have hconn : conn = some k := hk
      simp [Session.start, hconn, hold]
    obtain ⟨old', hold', hunused⟩ := honly hchannel
    exact ⟨_, old', hchannel, hold', hunused⟩

theorem serve (hs : s.Single) {a : ServiceAction N} {service : Service N}
    (hok : s.Patient (.service a)) (harrives : s.Arrives a)
    (hstep : s.service.step clientAddrs a = some service) : (s.serve a service).Single := by
  have hwritten : ∀ {k channel conn}, s.channels k = some channel →
      s.service.connections[k]? = some conn → channel.Sound conn →
        conn.received ++ a.arrival k <+: channel.written :=
    fun hchannel hk hsound ↦ harrives.arrival_written hchannel hk hsound.received
  refine ⟨?_, ?_, ?_, ?_⟩
  · intro k channel' hchannel'
    obtain ⟨channel, hchannel, rfl⟩ := Option.map_eq_some_iff.mp hchannel'
    obtain ⟨conn, hk, hsound⟩ := hs.sound hchannel
    obtain ⟨next, hnext, hturn⟩ := Service.turn hstep hk
    exact ⟨next, hnext, hsound.turn (hwritten hchannel hk hsound) hturn⟩
  · intro k channel' hchannel' hentries
    obtain ⟨channel, hchannel, rfl⟩ := Option.map_eq_some_iff.mp hchannel'
    cases hentry : s.service.entryOf a k with
    | none =>
        rw [hentry, Channel.credit_none] at hentries
        exact hs.own hchannel hentries
    | some e =>
        obtain ⟨x, hx, hxk⟩ := Option.bind_eq_some_iff.mp hentry
        split_ifs at hxk with heq
        rw [← heq]
        exact hok x hx (by simp [heq, hchannel])
  · intro hresult k channel' hchannel' hreplied
    obtain ⟨channel, hchannel, rfl⟩ := Option.map_eq_some_iff.mp hchannel'
    obtain ⟨conn, hk, hspent⟩ := hs.replied hresult hchannel hreplied
    obtain ⟨conn', hk', hsound⟩ := hs.sound hchannel
    obtain rfl := Option.some.inj (hk.symm.trans hk')
    obtain ⟨next, hnext, hturn⟩ := Service.turn hstep hk
    exact ⟨next, hnext, hspent.turn (hwritten hchannel hk hsound) hturn⟩
  · intro hresult hawaiting k hconn
    obtain ⟨channel, conn, hchannel, hk, hunused⟩ := hs.unused hresult hawaiting hconn
    obtain ⟨next, hnext, hturn⟩ := Service.turn hstep hk
    refine ⟨channel.credit (s.service.entryOf a k), next, ?_, hnext, ?_⟩
    · exact Option.map_eq_some_iff.mpr ⟨channel, hchannel, rfl⟩
    · exact hunused.turn (hwritten hchannel hk hunused.sound) hturn

theorem retry (hs : s.Single) : s.retry.Single :=
  ⟨hs.sound, hs.own, hs.replied, fun _ _ _ hconn ↦ by simp [Session.retry] at hconn⟩

theorem finish (hs : s.Single) (result : Option Bytes) :
    { s with result := some result }.Single :=
  ⟨hs.sound, hs.own, fun hnone ↦ by simp at hnone, fun hnone ↦ by simp at hnone⟩

theorem tcpConnect (hs : s.Single) {i : Fin N} (hstep : s.tcpConnect clientAddrs i = some s') :
    s'.Single := by
  obtain ⟨-, rfl⟩ := tcpConnect_eq_some hstep
  have hlast : (s.service.connections ++ [.opened i])[s.service.connections.length]? =
      some (.opened i) := by simp
  have hold : ∀ {k : ℕ} {conn : ClientConnection N}, s.service.connections[k]? = some conn →
      (s.service.connections ++ [.opened i])[k]? = some conn := by
    intro k conn hk
    rw [List.getElem?_append_left (List.getElem?_eq_some_iff.mp hk).1, hk]
  have hcases : ∀ {k channel}, Function.update s.channels s.service.connections.length
      (some {}) k = some channel →
      k = s.service.connections.length ∧ channel = {} ∨ s.channels k = some channel := by
    intro k channel hchannel
    by_cases hk : k = s.service.connections.length
    · subst hk
      rw [Function.update_self] at hchannel
      exact Or.inl ⟨rfl, (Option.some.inj hchannel).symm⟩
    · rw [Function.update_of_ne hk] at hchannel
      exact Or.inr hchannel
  refine ⟨?_, ?_, ?_, ?_⟩
  · intro k channel hchannel
    rcases hcases hchannel with ⟨rfl, rfl⟩ | hchannel
    · exact ⟨_, hlast, (Channel.Unused.opened i).sound⟩
    · obtain ⟨conn, hk, hsound⟩ := hs.sound hchannel
      exact ⟨conn, hold hk, hsound⟩
  · intro k channel hchannel hentries
    rcases hcases hchannel with ⟨rfl, rfl⟩ | hchannel
    · exact (hentries rfl).elim
    · exact hs.own hchannel hentries
  · intro hresult k channel hchannel hreplied
    rcases hcases hchannel with ⟨rfl, rfl⟩ | hchannel
    · simp at hreplied
    · obtain ⟨conn, hk, hspent⟩ := hs.replied hresult hchannel hreplied
      exact ⟨conn, hold hk, hspent⟩
  · rintro - - k hconn
    obtain rfl := Option.some.inj hconn
    exact ⟨{}, _, Function.update_self _ _ _, hlast, .opened i⟩

/-- No leader has taken the line before it is sent again. -/
theorem entries_eq_nil (hs : s.Single) (hresult : s.result = none) (hok : s.Patient .send)
    {k : ℕ} {channel : Channel} (hchannel : s.channels k = some channel) :
    channel.entries = [] := by
  cases hreplied : channel.replied with
  | true =>
      obtain ⟨conn, -, hspent⟩ := hs.replied hresult hchannel hreplied
      exact hspent.entries
  | false =>
      obtain ⟨conn, hk, -⟩ := hs.sound hchannel
      exact hok k (List.getElem?_eq_some_iff.mp hk).1 channel hchannel hreplied

theorem update_eq_some {k j : ℕ} {f : Channel → Channel} {channel : Channel}
    (hchannel : (s.update k f).channels j = some channel) :
    ∃ old, s.channels j = some old ∧ (j = k ∧ channel = f old ∨ j ≠ k ∧ channel = old) := by
  by_cases hjk : j = k
  · subst hjk
    simp only [Session.update, if_true, Option.map_eq_some_iff] at hchannel
    obtain ⟨old, hold, rfl⟩ := hchannel
    exact ⟨old, hold, Or.inl ⟨rfl, rfl⟩⟩
  · simp only [Session.update, if_neg hjk] at hchannel
    exact ⟨channel, hchannel, Or.inr ⟨hjk, rfl⟩⟩

/-- Writing a line, or a part of it, on a connection that has not been used. -/
theorem write_sound (hs : s.Single) (hready : s.Ready) {k : ℕ} (hconn : s.conn = some k)
    {text : Bytes} (htext : text.count newline ≤ 1) {j : ℕ} {channel : Channel}
    (hchannel : (s.write k text).channels j = some channel) :
    ∃ conn, s.service.connections[j]? = some conn ∧ channel.Sound conn ∧
      (channel.replied = true → s.channels j = some channel) ∧
      ∃ old, s.channels j = some old ∧ channel.entries = old.entries := by
  obtain ⟨old, hold, ⟨rfl, rfl⟩ | ⟨-, rfl⟩⟩ := update_eq_some hchannel
  · obtain ⟨channel, conn, hchannel, hk, hunused⟩ := hs.unused hready.1 hready.2.1 hconn
    obtain rfl := Option.some.inj (hold.symm.trans hchannel)
    refine ⟨conn, hk, hunused.write htext, fun hreplied ↦ ?_, old, hold, rfl⟩
    simp [hunused.replied] at hreplied
  · obtain ⟨conn, hk, hsound⟩ := hs.sound hold
    exact ⟨conn, hk, hsound, fun _ ↦ hold, channel, hold, rfl⟩

theorem count_sendLine (hline : newline ∉ line) : (sendLine line).count newline = 1 := by
  simp [sendLine, List.count_eq_zero.mpr hline]

theorem sendFails (hs : s.Single) (hline : newline ∉ line) (hready : s.Ready) {accepted k : ℕ}
    (hconn : s.conn = some k) : (s.write k ((sendLine line).take accepted)).retry.Single := by
  have htext : ((sendLine line).take accepted).count newline ≤ 1 :=
    ((List.take_sublist _ _).count_le newline).trans (count_sendLine hline).le
  refine ⟨fun hchannel ↦ ?_, fun hchannel hentries ↦ ?_, fun hresult _ _ hchannel hreplied ↦ ?_,
    fun _ _ _ hnone ↦ by simp [Session.retry] at hnone⟩
  · obtain ⟨conn, hk, hsound, -⟩ := hs.write_sound hready hconn htext hchannel
    exact ⟨conn, hk, hsound⟩
  · obtain ⟨-, -, -, -, old, hold, heq⟩ := hs.write_sound hready hconn htext hchannel
    exact hs.own hold (heq ▸ hentries)
  · obtain ⟨-, -, -, hsame, -⟩ := hs.write_sound hready hconn htext hchannel
    exact hs.replied hresult (hsame hreplied) hreplied

theorem send (hs : s.Single) (hline : newline ∉ line) (hready : s.Ready) {k : ℕ}
    (hconn : s.conn = some k) (hok : s.Patient .send) :
    { s.write k (sendLine line) with awaiting := true, latest := some k }.Single := by
  have htext := (count_sendLine hline).le
  refine ⟨fun hchannel ↦ ?_, fun hchannel hentries ↦ ?_, fun hresult _ _ hchannel hreplied ↦ ?_,
    fun _ hawaiting ↦ by simp at hawaiting⟩
  · obtain ⟨conn, hk, hsound, -⟩ := hs.write_sound hready hconn htext hchannel
    exact ⟨conn, hk, hsound⟩
  · obtain ⟨-, -, -, -, old, hold, heq⟩ := hs.write_sound hready hconn htext hchannel
    exact (hentries (heq.trans (hs.entries_eq_nil hready.1 hok hold))).elim
  · obtain ⟨-, -, -, hsame, -⟩ := hs.write_sound hready hconn htext hchannel
    exact hs.replied hresult (hsame hreplied) hreplied

theorem heard (hs : s.Single) {k j : ℕ} {channel : Channel}
    (hchannel : (s.update k fun channel ↦ { channel with replied := true }).channels j =
      some channel) :
    (∃ conn, s.service.connections[j]? = some conn ∧ channel.Sound conn) ∧
      (channel.entries ≠ [] → s.latest = some j) := by
  obtain ⟨old, hold, ⟨-, rfl⟩ | ⟨-, rfl⟩⟩ := update_eq_some hchannel
  · obtain ⟨conn, hconn, hsound⟩ := hs.sound hold
    exact ⟨⟨conn, hconn, hsound.received, hsound.single, hsound.parked, hsound.reply⟩,
      fun hentries ↦ hs.own hold hentries⟩
  · exact ⟨hs.sound hold, hs.own hold⟩

/-- A redirect is the reply to a line that no leader has taken. -/
theorem redirected (hs : s.Single) {k : ℕ} {channel : Channel} {conn : ClientConnection N}
    (hchannel : s.channels k = some channel) (hk : s.service.connections[k]? = some conn)
    (hspent : channel.Spent conn) :
    (s.update k fun channel ↦ { channel with replied := true }).retry.Single := by
  refine ⟨fun h ↦ (hs.heard h).1, fun h ↦ (hs.heard h).2, fun hresult _ _ h hreplied ↦ ?_,
    fun _ _ _ hnone ↦ by simp [Session.retry] at hnone⟩
  obtain ⟨old, hold, ⟨rfl, rfl⟩ | ⟨-, rfl⟩⟩ := update_eq_some h
  · obtain rfl := Option.some.inj (hold.symm.trans hchannel)
    exact ⟨conn, hk, hspent.unread, hspent.entries⟩
  · exact hs.replied hresult hold hreplied

theorem step (hs : s.Single) (hline : newline ∉ line) {a : ClientAction N} (hok : s.Patient a)
    (hstep : s.step clientAddrs line a = some s') : s'.Single := by
  cases outcome hstep with
  | service harrives hservice => exact hs.serve hok harrives hservice
  | connect hconnect => exact hs.tcpConnect hconnect
  | giveUp => exact hs.retry
  | sendFails hready hconn => exact hs.sendFails hline hready hconn
  | send hready hconn => exact hs.send hline hready hconn hok
  | receive hchannel hk hsent hreply hnext =>
      rcases onReply_cases hnext with rfl | ⟨hredirect, hnext⟩
      · exact ⟨fun h ↦ (hs.heard h).1, fun h ↦ (hs.heard h).2, fun hnone ↦ by simp at hnone,
          fun hnone ↦ by simp at hnone⟩
      · obtain ⟨conn, hconn, hsound⟩ := hs.sound hchannel
        obtain rfl := Option.some.inj (hk.symm.trans hconn)
        have hretry :=
          hs.redirected hchannel hk (hsound.spent_of_redirect hsent hreply hredirect)
        rcases hnext with rfl | ⟨i, hnext⟩
        · exact hretry
        · exact hretry.tcpConnect hnext
  | finish => exact hs.finish _

theorem created_unique (hs : s.Single) {e e' : ℕ × LogEntry} (he : s.Created e)
    (he' : s.Created e') : e = e' := by
  obtain ⟨k, channel, hchannel, hmem⟩ := he
  obtain ⟨k', channel', hchannel', hmem'⟩ := he'
  have hk := hs.own hchannel (List.ne_nil_of_mem hmem)
  have hk' := hs.own hchannel' (List.ne_nil_of_mem hmem')
  obtain rfl := Option.some.inj (hk.symm.trans hk')
  obtain rfl := Option.some.inj (hchannel.symm.trans hchannel')
  obtain ⟨conn, -, hsound⟩ := hs.sound hchannel
  have hlength : channel.entries.length ≤ 1 := (Nat.le_add_left _ _).trans hsound.single
  obtain ⟨e₀, heq⟩ := List.length_eq_one_iff.mp
    (hlength.antisymm (List.length_pos_of_mem hmem))
  rw [heq, List.mem_singleton] at hmem hmem'
  rw [hmem, hmem']

end Single

instance (s : Session N) (a : ClientAction N) : Decidable (s.Patient a) := by
  cases a with
  | send => exact inferInstanceAs (Decidable (∀ k < s.service.connections.length, _))
  | service a => exact inferInstanceAs (Decidable (∀ x ∈ s.service.taken a, _))
  | _ => exact isTrue trivial

/-- The keys of a store are not counted. -/
def replayable : ClientAction N → Bool
  | .service (.status _ _ _ _) => false
  | _ => true

theorem admits_of_replayable {a : ClientAction N} (ha : replayable a = true) : s.Admits a := by
  cases a with
  | service a =>
      cases a with
      | status => simp [replayable] at ha
      | _ => trivial
  | _ => trivial

/-- Perform a list of actions as long as they are enabled and satisfy `ok`. -/
def play (ok : Session N → ClientAction N → Prop) [∀ s a, Decidable (ok s a)]
    (clientAddrs : List String) (line : Bytes) (s : Session N) :
    List (ClientAction N) → Option (Session N)
  | [] => some s
  | a :: actions =>
      if replayable a ∧ ok s a then
        match s.step clientAddrs line a with
        | some s' =>
            if s'.service.cluster.TermsBounded then s'.play ok clientAddrs line actions else none
        | none => none
      else none

end Session

namespace SessionRun

variable {ok : Session N → ClientAction N → Prop} {clientAddrs : List String} {line : Bytes}
  {s s' : Session N}

theorem single (hline : newline ∉ line) (h : SessionRun Session.Patient clientAddrs line s) :
    s.Single := by
  induction h with
  | start hrun hidle => exact .start hidle
  | step _ _ hok hs _ ih => exact ih.step hline hok hs

theorem serviceRun (h : SessionRun ok clientAddrs line s) :
    ServiceRun (fun _ _ ↦ True) clientAddrs s.service := by
  induction h with
  | start hrun _ => exact hrun
  | step _ hadmits _ hs hb ih =>
      rcases Session.service_step hadmits hs with heq | ⟨b, hb', hstep⟩
      · rw [heq]
        exact ih
      · exact .step ih hb' hstep hb

theorem play [∀ s a, Decidable (ok s a)] (h : SessionRun ok clientAddrs line s)
    {actions : List (ClientAction N)} (hplay : s.play ok clientAddrs line actions = some s') :
    SessionRun ok clientAddrs line s' := by
  induction actions generalizing s with
  | nil =>
      obtain rfl : s = s' := by simpa [Session.play] using hplay
      exact h
  | cons a actions ih =>
      rw [Session.play] at hplay
      split_ifs at hplay with hok
      split at hplay
      · rename_i s₁ hs
        split_ifs at hplay with hb
        exact ih (.step h (Session.admits_of_replayable hok.1) hok.2 hs hb) hplay
      · simp at hplay

theorem exists_of_play [∀ s a, Decidable (ok s a)] (hpos : 0 < N) (hsize : N < 2 ^ 32)
    (actions : List (ClientAction N)) {P : Session N → Prop} [DecidablePred P]
    (hplay : ((Session.start (Service.initial N) none).play ok clientAddrs line actions).any
      (fun s ↦ P s) = true) : ∃ s, SessionRun ok clientAddrs line s ∧ P s := by
  cases hs : (Session.start (Service.initial N) none).play ok clientAddrs line actions with
  | none => simp [hs] at hplay
  | some s =>
      refine ⟨s, (start (.initial hpos hsize) ?_).play hs, by simpa [hs] using hplay⟩
      simp [Service.Idle]

end SessionRun

/-- A client that never sends again what a leader may have taken updates the store once at
most. -/
theorem update_at_most_once {clientAddrs : List String} {line : Bytes} (hline : newline ∉ line)
    {s : Session N} (hrun : SessionRun Session.Patient clientAddrs line s) :
    ServiceRun (fun _ _ ↦ True) clientAddrs s.service ∧ s.AtMostOnce := by
  refine ⟨hrun.serviceRun, ?_⟩
  intro e e' he he' _ _
  exact (hrun.single hline).created_unique he he'

/-- A connection breaks in the middle of the line, the next server redirects the client, and the
leader answers. -/
theorem update_at_most_once_redirected : ∃ s : Session 2,
    SessionRun Session.Patient ["h:1", "h:2"] (setRequest [107] [118]) s ∧
    s.result = some (some [79, 75]) ∧ s.attempt = 2 ∧
    s.Created (2, ⟨1, Command.encode ⟨.set, [107], [118]⟩⟩) ∧
    .applied 0 2 1 (Command.encode ⟨.set, [107], [118]⟩) ∈ s.service.cluster.trace ∧
    ServiceRun (fun _ _ ↦ True) ["h:1", "h:2"] s.service ∧ s.AtMostOnce := by
  obtain ⟨s, hrun, hresult, hattempt, hchannel, happlied⟩ : ∃ s : Session 2,
      SessionRun Session.Patient ["h:1", "h:2"] (setRequest [107] [118]) s ∧
      s.result = some (some [79, 75]) ∧ s.attempt = 2 ∧
      s.channels 2 = some ⟨sendLine (setRequest [107] [118]), 0,
        [(2, ⟨1, Command.encode ⟨.set, [107], [118]⟩⟩)], true⟩ ∧
      .applied 0 2 1 (Command.encode ⟨.set, [107], [118]⟩) ∈ s.service.cluster.trace :=
    SessionRun.exists_of_play (by decide) (by decide)
      [.service (.node (.timeout 0)), .service (.node (.deliverVote 0)),
        .service (.node (.voteReply 0 0 0)), .service (.node (.send 0 0)),
        .service (.node (.deliverAppend 0)), .service (.node (.appendReply 0 0 0)),
        .connect 1, .sendFails 3, .connect 1, .send, .service (.loop 1),
        .service (.receive 1 [sendLine (setRequest [107] [118])] 99),
        .receive [redirectWord, [104, 58, 49, 10]] (some 0), .send,
        .service (.loop 0), .service (.receive 0 [setVerb] 0), .service (.loop 2),
        .service (.receive 2 [setVerb, 32 :: 107 :: 32 :: sendLine [118]] 99),
        .service (.node (.send 0 0)), .service (.node (.deliverAppend 0)),
        .service (.node (.appendReply 0 0 0)), .service (.node (.fetch 0)),
        .service (.node (.apply 0)), .service (.node (.fetch 0)), .service (.node (.apply 0)),
        .service (.answer 2 0 99), .receive [[79, 75, 10]] none] (by decide +kernel)
  exact ⟨s, hrun, hresult, hattempt, ⟨2, _, hchannel, by simp⟩, happlied,
    update_at_most_once (by decide) hrun⟩

theorem not_atMostOnce_of_two {s : Session 1} {command : Bytes}
    (hfirst : s.Created (2, ⟨1, command⟩)) (hsecond : s.Created (3, ⟨1, command⟩))
    (hcommit : .advanceCommit 0 1 3 [⟨1, []⟩, ⟨1, command⟩, ⟨1, command⟩] ∈
      s.service.cluster.trace)
    (happlied : .applied 0 2 1 command ∈ s.service.cluster.trace)
    (happlied' : .applied 0 3 1 command ∈ s.service.cluster.trace) : ¬ s.AtMostOnce := by
  intro honce
  have htwo : Session.TookEffect s.service.cluster.trace (2, ⟨1, command⟩) :=
    ⟨⟨Nat.succ_pos 1, 0, 1, 3, _, hcommit, Nat.le_succ 2, rfl⟩, 0, happlied⟩
  have hthree : Session.TookEffect s.service.cluster.trace (3, ⟨1, command⟩) :=
    ⟨⟨Nat.succ_pos 2, 0, 1, 3, _, hcommit, le_rfl, rfl⟩, 0, happlied'⟩
  have hsame := honce hfirst hsecond htwo hthree
  simp at hsame

/-- The reply to the first copy is lost, and the second copy is taken as well. -/
theorem not_atMostOnce_resent : ∃ s : Session 1,
    SessionRun (fun _ _ ↦ True) ["h:1"] (setRequest [107] [118]) s ∧
    s.result = some (some [79, 75]) ∧ ¬ s.AtMostOnce := by
  obtain ⟨s, hrun, hresult, hfirst, hsecond, hcommit, happlied, happlied'⟩ : ∃ s : Session 1,
      SessionRun (fun _ _ ↦ True) ["h:1"] (setRequest [107] [118]) s ∧
      s.result = some (some [79, 75]) ∧
      s.channels 0 = some ⟨sendLine (setRequest [107] [118]), 0,
        [(2, ⟨1, Command.encode ⟨.set, [107], [118]⟩⟩)], false⟩ ∧
      s.channels 1 = some ⟨sendLine (setRequest [107] [118]), 0,
        [(3, ⟨1, Command.encode ⟨.set, [107], [118]⟩⟩)], true⟩ ∧
      .advanceCommit 0 1 3 [⟨1, []⟩, ⟨1, Command.encode ⟨.set, [107], [118]⟩⟩,
        ⟨1, Command.encode ⟨.set, [107], [118]⟩⟩] ∈ s.service.cluster.trace ∧
      .applied 0 2 1 (Command.encode ⟨.set, [107], [118]⟩) ∈ s.service.cluster.trace ∧
      .applied 0 3 1 (Command.encode ⟨.set, [107], [118]⟩) ∈ s.service.cluster.trace :=
    SessionRun.exists_of_play (by decide) (by decide)
      [.service (.node (.timeout 0)), .connect 0, .send, .service (.loop 0),
        .service (.receive 0 [sendLine (setRequest [107] [118])] 99), .receiveFails,
        .connect 0, .send, .service (.loop 1),
        .service (.receive 1 [sendLine (setRequest [107] [118])] 99),
        .service (.node (.fetch 0)), .service (.node (.apply 0)),
        .service (.node (.fetch 0)), .service (.node (.apply 0)),
        .service (.node (.fetch 0)), .service (.node (.apply 0)),
        .service (.answer 1 1 99), .receive [[79, 75, 10]] none] (by decide +kernel)
  exact ⟨s, hrun, hresult, not_atMostOnce_of_two ⟨0, _, hfirst, by simp⟩ ⟨1, _, hsecond, by simp⟩
    hcommit happlied happlied'⟩

/-- A line with a newline in it is two commands even if it is sent once. -/
theorem not_atMostOnce_newline : ∃ s : Session 1,
    SessionRun Session.Patient ["h:1"]
      (sendLine (setRequest [107] [118]) ++ setRequest [107] [118]) s ∧ ¬ s.AtMostOnce := by
  obtain ⟨s, hrun, hchannel, hcommit, happlied, happlied'⟩ : ∃ s : Session 1,
      SessionRun Session.Patient ["h:1"]
        (sendLine (setRequest [107] [118]) ++ setRequest [107] [118]) s ∧
      s.channels 0 = some ⟨sendLine (setRequest [107] [118]) ++
          sendLine (setRequest [107] [118]), 0,
        [(2, ⟨1, Command.encode ⟨.set, [107], [118]⟩⟩),
          (3, ⟨1, Command.encode ⟨.set, [107], [118]⟩⟩)], true⟩ ∧
      .advanceCommit 0 1 3 [⟨1, []⟩, ⟨1, Command.encode ⟨.set, [107], [118]⟩⟩,
        ⟨1, Command.encode ⟨.set, [107], [118]⟩⟩] ∈ s.service.cluster.trace ∧
      .applied 0 2 1 (Command.encode ⟨.set, [107], [118]⟩) ∈ s.service.cluster.trace ∧
      .applied 0 3 1 (Command.encode ⟨.set, [107], [118]⟩) ∈ s.service.cluster.trace :=
    SessionRun.exists_of_play (by decide) (by decide)
      [.service (.node (.timeout 0)), .connect 0, .send, .service (.loop 0),
        .service (.receive 0 [sendLine (setRequest [107] [118])] 99),
        .service (.node (.fetch 0)), .service (.node (.apply 0)),
        .service (.node (.fetch 0)), .service (.node (.apply 0)),
        .service (.answer 0 0 99), .receive [[79, 75, 10]] none, .service (.loop 0),
        .service (.receive 0 [sendLine (setRequest [107] [118])] 99),
        .service (.node (.fetch 0)), .service (.node (.apply 0))] (by decide +kernel)
  exact ⟨s, hrun, not_atMostOnce_of_two ⟨0, _, hchannel, by simp⟩ ⟨0, _, hchannel, by simp⟩
    hcommit happlied happlied'⟩

/-- A line that is sent twice may be taken twice, and so may one with a newline in it. -/
theorem not_update_at_most_once :
    (¬ ∀ {N : ℕ} {clientAddrs : List String} {line : Bytes} {s : Session N}, newline ∉ line →
      SessionRun (fun _ _ ↦ True) clientAddrs line s → s.AtMostOnce) ∧
    ¬ ∀ {N : ℕ} {clientAddrs : List String} {line : Bytes} {s : Session N},
      SessionRun Session.Patient clientAddrs line s → s.AtMostOnce := by
  constructor
  · intro hholds
    obtain ⟨s, hrun, -, htwice⟩ := not_atMostOnce_resent
    exact htwice (hholds (by decide) hrun)
  · intro hholds
    obtain ⟨s, hrun, htwice⟩ := not_atMostOnce_newline
    exact htwice (hholds hrun)

end Dkvs
