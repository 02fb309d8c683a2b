import Dkvs.Conversation.Replies

/-!
# One reply to each request, in order

The thread of a connection answers a request before it takes the next one. So the bytes that it
has sent are the replies to the requests in the bytes received, line for line, and at most the
last reply is cut off. What is known of the single exchanges, of their order and of a handler
that is still parked is a parameter here.
-/

namespace Dkvs

variable {N : ℕ}

/-! ## Lines and requests -/

theorem lines_flatMap_sendLine {ls : List Bytes} (hls : ∀ line ∈ ls, newline ∉ line)
    (rest : Bytes) : lines (ls.flatMap sendLine ++ rest) = ls ++ lines rest := by
  induction ls with
  | nil => rfl
  | cons line ls ih =>
      have hsplit : (line :: ls).flatMap sendLine ++ rest =
          line ++ newline :: (ls.flatMap sendLine ++ rest) := by simp [sendLine]
      rw [hsplit, lines_append (hls line (by simp)), ih fun l hl ↦ hls l (by simp [hl])]
      rfl

theorem requestsOf_cons {line : Bytes} (hne : line ≠ [])
    (hquit : parseClientRequest line ≠ some .quit) (ls : List Bytes) :
    requestsOf (line :: ls) = parseClientRequest line :: requestsOf ls := by
  rw [requestsOf, if_neg (by simpa using hne)]
  split
  · rename_i hparse
    rw [hparse]
  · rename_i hparse
    exact absurd hparse hquit
  · rename_i hparse
    rw [hparse]

theorem requestsOf_quit {line : Bytes} (hquit : parseClientRequest line = some .quit)
    (ls : List Bytes) : requestsOf (line :: ls) = [some .quit] := by
  have hne : line ≠ [] := Service.ne_nil_of_parse hquit
  rw [requestsOf, if_neg (by simpa using hne), hquit]

theorem requestsOf_nil_cons (ls : List Bytes) : requestsOf ([] :: ls) = requestsOf ls := by
  simp [requestsOf]

/-- Nothing behind a `QUIT` is read. -/
theorem requestsOf_append (front back : List Bytes) :
    requestsOf (front ++ back) =
      if some .quit ∈ requestsOf front then requestsOf front
      else requestsOf front ++ requestsOf back := by
  induction front with
  | nil => rfl
  | cons line front ih =>
      by_cases hne : line = []
      · subst hne
        rw [List.cons_append, requestsOf_nil_cons, requestsOf_nil_cons]
        exact ih
      by_cases hquit : parseClientRequest line = some .quit
      · rw [List.cons_append, requestsOf_quit hquit, requestsOf_quit hquit, if_pos (by simp)]
      · rw [List.cons_append, requestsOf_cons hne hquit, requestsOf_cons hne hquit, ih]
        have hmem : some .quit ∈ parseClientRequest line :: requestsOf front ↔
            some .quit ∈ requestsOf front := by simp [Ne.symm hquit]
        simp only [hmem]
        split_ifs
        · rfl
        · rfl

theorem requestsOf_isPrefix (front back : List Bytes) :
    requestsOf front <+: requestsOf (front ++ back) := by
  rw [requestsOf_append]
  split_ifs
  · exact List.prefix_rfl
  · exact List.prefix_append _ _

theorem requestsOf_concat {ls : List Bytes} (hopen : some .quit ∉ requestsOf ls) {line : Bytes}
    (hne : line ≠ []) : requestsOf (ls ++ [line]) = requestsOf ls ++ [parseClientRequest line] := by
  have hlast : requestsOf [line] = [parseClientRequest line] := by
    by_cases hquit : parseClientRequest line = some .quit
    · rw [requestsOf_quit hquit, hquit]
    · rw [requestsOf_cons hne hquit]
      rfl
  rw [requestsOf_append, if_neg hopen, hlast]

theorem requestsOf_concat_nil (ls : List Bytes) : requestsOf (ls ++ [[]]) = requestsOf ls := by
  have hnone : requestsOf [[]] = [] := requestsOf_nil_cons []
  rw [requestsOf_append, hnone, List.append_nil, ite_self]

/-! ## Exchanges -/

/-- A request and its reply. A command has a place in the history of calls. -/
structure TextExchange where
  request : Option ClientRequest
  call : Option ℕ
  reply : Bytes
  deriving DecidableEq, Repr

/-- What is known of the exchanges: of each, of one and the call of a later one, and of a
handler and its call. -/
structure Books where
  exchanged : TextExchange → Prop
  precedes : TextExchange → Option ℕ → Prop
  waits : Handler → Option ℕ → Prop

variable {books books' : Books} {conn : ClientConnection N}

/-- The bytes of a connection are those of the lines taken and of the replies sent, up to a
rest on either side. -/
structure Spoken (books : Books) (received sent : Bytes) (taken : List Bytes)
    (exchanges : List TextExchange) (rest part : Bytes) : Prop where
  received : received = taken.flatMap sendLine ++ rest
  sent : sent = (exchanges.map TextExchange.reply).flatMap sendLine ++ part
  taken : ∀ line ∈ taken, newline ∉ line
  exchanged : ∀ x ∈ exchanges, books.exchanged x
  ordered : exchanges.Pairwise fun x y ↦ books.precedes x y.call

/-- The requests taken are answered except for those that are pending. -/
def Owes (books : Books) (conn : ClientConnection N)
    (pending : List (Option ClientRequest × Option ℕ)) : Prop :=
  ∃ taken exchanges, Spoken books conn.received conn.sent taken exchanges conn.buffer [] ∧
    requestsOf (taken.map chomp) = exchanges.map TextExchange.request ++ pending.map Prod.fst ∧
    conn.calls = exchanges.map TextExchange.call ++ pending.map Prod.snd ∧
    some .quit ∉ exchanges.map TextExchange.request ∧
    ∀ x ∈ exchanges, ∀ p ∈ pending, books.precedes x p.2

/-- The connection is over. A reply may be cut off, and requests may be without one. -/
def Ended (books : Books) (conn : ClientConnection N) : Prop :=
  ∃ taken exchanges rest part,
    Spoken books conn.received conn.sent taken exchanges rest part ∧ newline ∉ part ∧
    exchanges.map TextExchange.request <+: requestsOf (taken.map chomp) ∧
    exchanges.map TextExchange.call <+: conn.calls

/-- The command whose result the thread waits for. -/
def Phase.pending : Phase → List (Option ClientRequest)
  | .parked handler => [some (.command handler.cmd)]
  | .top | .receiving | .closed => []

def Framed (books : Books) (conn : ClientConnection N) : Prop :=
  match conn.phase with
  | .top | .receiving => Owes books conn []
  | .parked handler =>
      ∃ call, books.waits handler call ∧ Owes books conn [(some (.command handler.cmd), call)]
  | .closed => Ended books conn

theorem Spoken.lines_received {received sent rest part : Bytes} {taken : List Bytes}
    {exchanges : List TextExchange}
    (hspoken : Spoken books received sent taken exchanges rest part) :
    lines received = taken ++ lines rest := by
  rw [hspoken.received, lines_flatMap_sendLine hspoken.taken]

theorem Spoken.lines_sent {received sent rest part : Bytes} {taken : List Bytes}
    {exchanges : List TextExchange} (hspoken : Spoken books received sent taken exchanges rest part)
    (hsingle : ∀ x, books.exchanged x → newline ∉ x.reply) (hpart : newline ∉ part) :
    lines sent = exchanges.map TextExchange.reply := by
  rw [hspoken.sent, lines_flatMap_sendLine, lines_eq_nil hpart, List.append_nil]
  intro line hline
  obtain ⟨x, hx, rfl⟩ := List.mem_map.mp hline
  exact hsingle x (hspoken.exchanged x hx)

theorem Spoken.mono {received sent rest part : Bytes} {taken : List Bytes}
    {exchanges : List TextExchange} (hspoken : Spoken books received sent taken exchanges rest part)
    (hexchanged : ∀ x, books.exchanged x → books'.exchanged x)
    (hprecedes : ∀ x call, books.precedes x call → books'.precedes x call) :
    Spoken books' received sent taken exchanges rest part where
  received := hspoken.received
  sent := hspoken.sent
  taken := hspoken.taken
  exchanged x hx := hexchanged x (hspoken.exchanged x hx)
  ordered := hspoken.ordered.imp fun h ↦ hprecedes _ _ h

namespace Owes

variable {pending : List (Option ClientRequest × Option ℕ)}

theorem opened (books : Books) (i : Fin N) : Owes books (.opened i) [] := by
  refine ⟨[], [], ⟨rfl, rfl, ?_, ?_, List.Pairwise.nil⟩, rfl, rfl, ?_, ?_⟩
  all_goals simp

theorem mono (howes : Owes books conn pending)
    (hexchanged : ∀ x, books.exchanged x → books'.exchanged x)
    (hprecedes : ∀ x call, books.precedes x call → books'.precedes x call) :
    Owes books' conn pending := by
  obtain ⟨taken, exchanges, hspoken, hrequests, hcalls, hquit, hpending⟩ := howes
  exact ⟨taken, exchanges, hspoken.mono hexchanged hprecedes, hrequests, hcalls, hquit,
    fun x hx p hp ↦ hprecedes x p.2 (hpending x hx p hp)⟩

theorem ended (howes : Owes books conn pending) : Ended books conn := by
  obtain ⟨taken, exchanges, hspoken, hrequests, hcalls, -, -⟩ := howes
  refine ⟨taken, exchanges, conn.buffer, [], hspoken, by simp, ?_, ?_⟩
  · exact hrequests ▸ List.prefix_append _ _
  · exact hcalls ▸ List.prefix_append _ _

/-- A line is taken off the connection. -/
theorem take {line rest : Bytes} {chunks : List Bytes} (howes : Owes books conn [])
    (hline : recvLine conn.buffer chunks = some (line, rest, [])) (hne : line ≠ [])
    {call : Option ℕ} (hlater : ∀ x, books.exchanged x → books.precedes x call) :
    Owes books ((conn.fill rest chunks).note call) [(parseClientRequest line, call)] := by
  obtain ⟨taken, exchanges, hspoken, hrequests, hcalls, hquit, -⟩ := howes
  obtain ⟨raw, hraw, rfl, hcut⟩ := recvLine_cuts hline
  simp only [List.map_nil, List.append_nil, List.flatten_nil] at hrequests hcalls hcut
  refine ⟨taken ++ [raw], exchanges, ⟨?_, hspoken.sent, ?_, hspoken.exchanged, hspoken.ordered⟩,
    ?_, ?_, hquit, ?_⟩
  · simp only [ClientConnection.note, ClientConnection.fill, hspoken.received, List.append_assoc,
      hcut, List.flatMap_append, List.flatMap_singleton]
  · intro l hl
    rcases List.mem_append.mp hl with hl | hl
    · exact hspoken.taken l hl
    · exact List.mem_singleton.mp hl ▸ hraw
  · rw [← hrequests] at hquit
    rw [List.map_append, List.map_singleton, requestsOf_concat hquit hne, hrequests]
    rfl
  · simp [ClientConnection.note, ClientConnection.fill, hcalls]
  · intro x hx p hp
    obtain rfl := List.mem_singleton.mp hp
    exact hlater x (hspoken.exchanged x hx)

theorem takeBlank {rest : Bytes} {chunks : List Bytes} (howes : Owes books conn [])
    (hline : recvLine conn.buffer chunks = some ([], rest, [])) :
    Owes books (conn.fill rest chunks) [] := by
  obtain ⟨taken, exchanges, hspoken, hrequests, hcalls, hquit, hpending⟩ := howes
  obtain ⟨raw, hraw, hblank, hcut⟩ := recvLine_cuts hline
  simp only [List.append_nil, List.flatten_nil] at hcut
  refine ⟨taken ++ [raw], exchanges, ⟨?_, hspoken.sent, ?_, hspoken.exchanged, hspoken.ordered⟩,
    ?_, hcalls, hquit, hpending⟩
  · simp only [ClientConnection.fill, hspoken.received, List.append_assoc, hcut,
      List.flatMap_append, List.flatMap_singleton]
  · intro l hl
    rcases List.mem_append.mp hl with hl | hl
    · exact hspoken.taken l hl
    · exact List.mem_singleton.mp hl ▸ hraw
  · rw [List.map_append, List.map_singleton, ← hblank, requestsOf_concat_nil, hrequests]

section Reply

variable {request : Option ClientRequest} {call : Option ℕ} {text : Bytes} {accepted : ℕ}

/-- The whole reply is sent. -/
theorem spoken_reply {taken : List Bytes} {exchanges : List TextExchange}
    (hspoken : Spoken books conn.received conn.sent taken exchanges conn.buffer [])
    (hprecedes : ∀ x ∈ exchanges, books.precedes x call)
    (hexchanged : books.exchanged ⟨request, call, text⟩)
    (hall : (sendLine text).length ≤ accepted) :
    Spoken books conn.received (conn.reply text accepted).sent taken
      (exchanges ++ [⟨request, call, text⟩]) conn.buffer [] := by
  refine ⟨hspoken.received, ?_, hspoken.taken, ?_, ?_⟩
  · simp [ClientConnection.reply, hspoken.sent, List.take_of_length_le hall]
  · intro x hx
    rcases List.mem_append.mp hx with hx | hx
    · exact hspoken.exchanged x hx
    · exact List.mem_singleton.mp hx ▸ hexchanged
  · rw [List.pairwise_append]
    refine ⟨hspoken.ordered, List.pairwise_singleton _ _, fun x hx y hy ↦ ?_⟩
    obtain rfl := List.mem_singleton.mp hy
    exact hprecedes x hx

theorem reply_ended (howes : Owes books conn [(request, call)]) (htext : newline ∉ text)
    (hexchanged : books.exchanged ⟨request, call, text⟩) :
    Ended books (conn.reply text accepted) := by
  obtain ⟨taken, exchanges, hspoken, hrequests, hcalls, -, hpending⟩ := howes
  by_cases hall : (sendLine text).length ≤ accepted
  · have hwhole := spoken_reply hspoken (fun x hx ↦ hpending x hx _ (List.mem_singleton.mpr rfl))
      hexchanged hall
    refine ⟨taken, _, _, _, hwhole, by simp, ?_, ?_⟩
    · rw [hrequests, List.map_append]
      rfl
    · have hsame : (conn.reply text accepted).calls = conn.calls := rfl
      rw [hsame, hcalls, List.map_append]
      rfl
  · -- what is sent of the reply ends before its newline
    have hpart : newline ∉ (sendLine text).take accepted := by
      have hshort : accepted ≤ text.length := by
        simp only [sendLine, List.length_append, List.length_singleton] at hall
        omega
      rw [sendLine, List.take_append_of_le_length hshort]
      exact fun hmem ↦ htext (List.mem_of_mem_take hmem)
    refine ⟨taken, exchanges, conn.buffer, (sendLine text).take accepted, ⟨hspoken.received, ?_,
      hspoken.taken, hspoken.exchanged, hspoken.ordered⟩, hpart, ?_, ?_⟩
    · simp [ClientConnection.reply, hspoken.sent]
    · rw [hrequests]
      exact List.prefix_append _ _
    · have hsame : (conn.reply text accepted).calls = conn.calls := rfl
      rw [hsame, hcalls]
      exact List.prefix_append _ _

theorem reply (howes : Owes books conn [(request, call)]) (hquit : request ≠ some .quit)
    (htext : newline ∉ text) (hexchanged : books.exchanged ⟨request, call, text⟩) :
    Framed books (conn.reply text accepted) := by
  by_cases hall : (sendLine text).length ≤ accepted
  · obtain ⟨taken, exchanges, hspoken, hrequests, hcalls, hopen, hpending⟩ := howes
    have hphase : (conn.reply text accepted).phase = .top := if_pos hall
    rw [Framed, hphase]
    refine ⟨taken, _, spoken_reply hspoken
      (fun x hx ↦ hpending x hx _ (List.mem_singleton.mpr rfl)) hexchanged hall, ?_, ?_, ?_, ?_⟩
    · simp [hrequests]
    · simp [ClientConnection.reply, hcalls]
    · simpa [hquit.symm] using hopen
    · simp
  · have hphase : (conn.reply text accepted).phase = .closed := if_neg hall
    rw [Framed, hphase]
    exact reply_ended howes htext hexchanged

end Reply

end Owes

namespace Ended

theorem mono (hended : Ended books conn)
    (hexchanged : ∀ x, books.exchanged x → books'.exchanged x)
    (hprecedes : ∀ x call, books.precedes x call → books'.precedes x call) :
    Ended books' conn := by
  obtain ⟨taken, exchanges, rest, part, hspoken, hrest⟩ := hended
  exact ⟨taken, exchanges, rest, part, hspoken.mono hexchanged hprecedes, hrest⟩

theorem fill (hended : Ended books conn) (buffer : Bytes) (chunks : List Bytes) :
    Ended books (conn.fill buffer chunks) := by
  obtain ⟨taken, exchanges, rest, part, hspoken, hpart⟩ := hended
  refine ⟨taken, exchanges, rest ++ chunks.flatten, part, ⟨?_, hspoken.sent, hspoken.taken,
    hspoken.exchanged, hspoken.ordered⟩, hpart⟩
  simp [ClientConnection.fill, hspoken.received]

end Ended

namespace Framed

theorem owes (hframed : Framed books conn) (hphase : conn.phase = .top ∨ conn.phase = .receiving) :
    Owes books conn [] := by
  rcases hphase with hphase | hphase
  · rwa [Framed, hphase] at hframed
  · rwa [Framed, hphase] at hframed

theorem ended (hframed : Framed books conn) : Ended books conn := by
  unfold Framed at hframed
  split at hframed
  · exact hframed.ended
  · exact hframed.ended
  · obtain ⟨call, -, howes⟩ := hframed
    exact howes.ended
  · exact hframed

theorem exists_owes (hframed : Framed books conn) (hphase : conn.phase ≠ .closed) :
    ∃ pending, Owes books conn pending ∧ pending.map Prod.fst = conn.phase.pending := by
  unfold Framed at hframed
  split at hframed
  · rename_i htop
    exact ⟨[], hframed, by rw [htop]; rfl⟩
  · rename_i hreceiving
    exact ⟨[], hframed, by rw [hreceiving]; rfl⟩
  · rename_i handler hparked
    obtain ⟨call, -, howes⟩ := hframed
    exact ⟨_, howes, by rw [hparked]; rfl⟩
  · rename_i hclosed
    exact absurd hclosed hphase

theorem mono (hframed : Framed books conn)
    (hexchanged : ∀ x, books.exchanged x → books'.exchanged x)
    (hprecedes : ∀ x call, books.precedes x call → books'.precedes x call)
    (hwaits : ∀ handler call, books.waits handler call → books'.waits handler call) :
    Framed books' conn := by
  unfold Framed at hframed ⊢
  split at hframed
  · exact hframed.mono hexchanged hprecedes
  · exact hframed.mono hexchanged hprecedes
  · obtain ⟨call, hcall, howes⟩ := hframed
    exact ⟨call, hwaits _ call hcall, howes.mono hexchanged hprecedes⟩
  · exact hframed.mono hexchanged hprecedes

theorem close (hframed : Framed books conn) : Framed books conn.close := hframed.ended

end Framed

/-! ## Steps of the service -/

variable {clientAddrs : List String} {s s' : Service N} {a : ServiceAction N}

/-- What the books must say after a step. -/
structure Keeps (clientAddrs : List String) (s s' : Service N) (books books' : Books) : Prop where
  exchanged : ∀ x, books.exchanged x → books'.exchanged x
  precedes : ∀ x call, books.precedes x call → books'.precedes x call
  waits : ∀ handler call, books.waits handler call → books'.waits handler call
  single : ∀ x, books'.exchanged x → newline ∉ x.reply
  later : ∀ x, books.exchanged x →
    books'.precedes x none ∧ books'.precedes x (some s.observed.history.length)
  immediate : ∀ {n request text}, Immediate n request text → books'.exchanged ⟨request, none, text⟩
  refused : ∀ {i cmd}, s.cluster.place i cmd = none →
    s'.observed = s.observed.observe (.execute i cmd) s'.cluster →
      books'.exchanged ⟨some (.command cmd), some s.observed.history.length,
        (refuse i N ((s.cluster.raft i).submit cmd.encode).2).text clientAddrs⟩
  parked : ∀ {i cmd slot}, s.cluster.place i cmd = some slot →
    s'.observed = s.observed.observe (.execute i cmd) s'.cluster →
      books'.waits ⟨slot.1, slot.2, cmd⟩ (some s.observed.history.length)
  answered : ∀ {i : Fin N} {h : ℕ} {handler call},
    (s.cluster.processes i).handlers[h]? = some handler → books.waits handler call →
    s'.observed = s.observed.observe (.resume i h) s'.cluster →
      books'.exchanged ⟨some (.command handler.cmd), call,
        (resume (s.cluster.processes i).stopping (s.cluster.processes i).waiters
          handler).1.text clientAddrs⟩

namespace Keeps

variable {k : ℕ} {chunks : List Bytes} {line rest : Bytes}

theorem mono (hkeeps : Keeps clientAddrs s s' books books') (hframed : Framed books conn) :
    Framed books' conn := hframed.mono hkeeps.exchanged hkeeps.precedes hkeeps.waits

/-- The books are brought up to date while the line is taken. -/
theorem take (hkeeps : Keeps clientAddrs s s' books books') (hframed : Framed books conn)
    (htook : s.Took k conn chunks line rest) (hne : line ≠ []) {call : Option ℕ}
    (hcall : call = none ∨ call = some s.observed.history.length) :
    Owes books' ((conn.fill rest chunks).note call) [(parseClientRequest line, call)] := by
  have howes : Owes { books with precedes := books'.precedes } conn [] :=
    (hframed.owes (Or.inr htook.phase)).mono (fun _ hx ↦ hx) hkeeps.precedes
  have hlater : ∀ x, books.exchanged x → books'.precedes x call := by
    intro x hx
    rcases hcall with rfl | rfl
    · exact (hkeeps.later x hx).1
    · exact (hkeeps.later x hx).2
  exact (howes.take htook.line hne hlater).mono hkeeps.exchanged fun _ _ h ↦ h

theorem step (hkeeps : Keeps clientAddrs s s' books books')
    (hall : ∀ conn ∈ s.connections, Framed books conn) (hs : s.step clientAddrs a = some s') :
    ∀ conn ∈ s'.connections, Framed books' conn := by
  have hall' : ∀ conn ∈ s.connections, Framed books' conn :=
    fun conn hmem ↦ hkeeps.mono (hall conn hmem)
  have hold : ∀ {k conn}, s.connections[k]? = some conn → Framed books conn :=
    fun hk ↦ hall _ (List.mem_of_getElem? hk)
  cases Service.outcome hs with
  | accept i =>
      intro conn hmem
      rcases List.mem_append.mp hmem with hmem | hmem
      · exact hall' conn hmem
      · obtain rfl := List.mem_singleton.mp hmem
        exact Owes.opened books' i
  | @loop k conn hk hphase phase hnext =>
      have howes : Owes books' conn [] := (hkeeps.mono (hold hk)).owes (Or.inl hphase)
      apply Service.forall_mem_set hall'
      rcases hnext with rfl | rfl
      · exact howes
      · exact howes.ended
  | @hangUp k conn chunks _ hk hphase _ =>
      apply Service.forall_mem_set hall'
      exact (hkeeps.mono (hold hk)).ended.fill conn.buffer chunks
  | blank htook =>
      have howes := (hkeeps.mono (hold htook.mem)).owes (Or.inr htook.phase)
      apply Service.forall_mem_set hall'
      exact howes.takeBlank htook.line
  | spoke _ htook hne himm hnext =>
      have howes := hkeeps.take (hold htook.mem) htook hne (Or.inl rfl)
      have hexchanged := hkeeps.immediate himm
      apply Service.forall_mem_set hall'
      rcases hnext with ⟨hquit, rfl⟩ | rfl
      · exact howes.reply hquit (hkeeps.single _ hexchanged) hexchanged
      · exact howes.reply_ended (hkeeps.single _ hexchanged) hexchanged
  | @execute k conn chunks line rest _ htook cmd hcmd slot hplace c' hc =>
      have hne := Service.ne_nil_of_parse hcmd
      have howes := hkeeps.take (hold htook.mem) htook hne (Or.inr rfl)
      rw [hcmd] at howes
      apply Service.forall_mem_set hall'
      exact ⟨_, hkeeps.parked hplace rfl, howes⟩
  | @refused k conn chunks line rest _ htook cmd hcmd hplace c' hc =>
      have hne := Service.ne_nil_of_parse hcmd
      have howes := hkeeps.take (hold htook.mem) htook hne (Or.inr rfl)
      rw [hcmd] at howes
      have hexchanged := hkeeps.refused hplace rfl
      apply Service.forall_mem_set hall'
      exact howes.reply (by simp) (hkeeps.single _ hexchanged) hexchanged
  | @answer k _ _ conn hk handler hphase hparked c' hc =>
      have hframed := hold hk
      rw [Framed, hphase] at hframed
      obtain ⟨call, hcall, howes⟩ := hframed
      have hexchanged := hkeeps.answered hparked hcall rfl
      apply Service.forall_mem_set hall'
      exact (howes.mono hkeeps.exchanged hkeeps.precedes).reply (by simp)
        (hkeeps.single _ hexchanged) hexchanged
  | @die k conn chunks line rest m htook cmd hcmd c' hc =>
      have hne := Service.ne_nil_of_parse hcmd
      have hended := (hkeeps.take (hold htook.mem) htook hne (Or.inr rfl)).ended
      intro other hmem
      obtain ⟨before, hbefore, rfl⟩ := List.mem_map.mp hmem
      rcases List.mem_or_eq_of_mem_set hbefore with hbefore | rfl
      · split_ifs
        · exact (hall' before hbefore).close
        · exact hall' before hbefore
      · have hcut : Framed books' ((conn.fill rest chunks).note
            (some s.observed.history.length)).close := hended
        simpa [ClientConnection.note, ClientConnection.fill] using hcut
  | node _ _ => exact Service.forall_mem_cutOff hall' (fun _ h ↦ h.close) _

end Keeps

/-! ## Replies in order -/

/-- Nothing is known of an exchange but that the reply answers the request. -/
def textBooks (clientAddrs : List String) : Books where
  exchanged x := Answers clientAddrs x.request x.reply
  precedes _ _ := True
  waits _ _ := True

variable {ok : Cluster N → Action N → Prop}

theorem ServiceRun.framed (hrun : ServiceRun ok clientAddrs s)
    (haddrs : ∀ addr ∈ clientAddrs, newline ∉ addr.toUTF8.toList) :
    ∀ conn ∈ s.connections, Framed (textBooks clientAddrs) conn := by
  induction hrun with
  | initial _ _ => simp [Service.initial]
  | @step s s' a hrun _ hs _ ih =>
      refine Keeps.step ⟨fun _ hx ↦ hx, fun _ _ h ↦ h, fun _ _ h ↦ h,
        fun _ hx ↦ hx.newline_notMem haddrs, fun _ _ ↦ ⟨trivial, trivial⟩,
        fun himm ↦ himm.answers clientAddrs, fun _ _ ↦ refuse_answers clientAddrs _ _ _,
        fun _ _ ↦ trivial, fun {i _ handler _} _ _ _ ↦ ?_⟩ ih hs
      have hplain := hrun.run.plain_resume (x := i) (fun hok ↦ hok.2) handler
      exact .command (fits_resume _ _ handler) hplain

theorem forall₂_of_exchanges {exchanges : List TextExchange}
    (hall : ∀ x ∈ exchanges, Answers clientAddrs x.request x.reply) :
    List.Forall₂ (Answers clientAddrs) (exchanges.map TextExchange.request)
      (exchanges.map TextExchange.reply) := by
  rw [List.forall₂_map_left_iff, List.forall₂_map_right_iff, List.forall₂_same]
  exact hall

/-- On every connection, in whatever order the threads run and whatever bytes the client
sends, the lines sent are the replies to the requests received, one for one and in order. A
command that waits in the log is the next request, and as long as the connection is open there
is no other unanswered request among the lines taken, and no reply is cut off. -/
theorem replies_in_order (hrun : ServiceRun ok clientAddrs s)
    (haddrs : ∀ addr ∈ clientAddrs, newline ∉ addr.toUTF8.toList)
    {conn : ClientConnection N} (hmem : conn ∈ s.connections) :
    ∃ answered, List.Forall₂ (Answers clientAddrs) answered (lines conn.sent) ∧
      answered ++ conn.phase.pending <+: requestsOf ((lines conn.received).map chomp) ∧
      (conn.phase ≠ .closed → conn.sent = (lines conn.sent).flatMap sendLine ∧
        ∃ taken, conn.received = taken ++ conn.buffer ∧
          requestsOf ((lines taken).map chomp) = answered ++ conn.phase.pending) := by
  have hframed := hrun.framed haddrs conn hmem
  have hsingle : ∀ x, (textBooks clientAddrs).exchanged x → newline ∉ x.reply :=
    fun x hx ↦ hx.newline_notMem haddrs
  by_cases hclosed : conn.phase = .closed
  · obtain ⟨taken, exchanges, rest, part, hspoken, hpart, hprefix, -⟩ := hframed.ended
    refine ⟨exchanges.map TextExchange.request, ?_, ?_, fun hopen ↦ absurd hclosed hopen⟩
    · rw [hspoken.lines_sent hsingle hpart]
      exact forall₂_of_exchanges hspoken.exchanged
    · rw [hclosed, Phase.pending, List.append_nil, hspoken.lines_received, List.map_append]
      exact hprefix.trans (requestsOf_isPrefix _ _)
  · obtain ⟨pending, ⟨taken, exchanges, hspoken, hrequests, -, -, -⟩, hpending⟩ :=
      hframed.exists_owes hclosed
    rw [hpending] at hrequests
    have hlines := hspoken.lines_sent hsingle (by simp)
    refine ⟨exchanges.map TextExchange.request, ?_, ?_, fun _ ↦ ⟨?_, taken.flatMap sendLine,
      hspoken.received, ?_⟩⟩
    · rw [hlines]
      exact forall₂_of_exchanges hspoken.exchanged
    · rw [← hrequests, hspoken.lines_received, List.map_append]
      exact requestsOf_isPrefix _ _
    · rw [hlines]
      exact hspoken.sent.trans (List.append_nil _)
    · have htaken := lines_flatMap_sendLine hspoken.taken []
      rw [List.append_nil] at htaken
      rw [htaken, lines_eq_nil (by simp), List.append_nil, hrequests]

/-- A client sends `SET k v` and the first half of `GET k` in one chunk, and is answered
twice. -/
theorem replies_in_order_two : ∃ (s : Service 1) (conn : ClientConnection 1),
    ServiceRun Vouched ["h:1"] s ∧ conn ∈ s.connections ∧
    lines conn.sent = [[79, 75], [86, 65, 76, 85, 69, 32, 118]] ∧
    ∃ answered, List.Forall₂ (Answers ["h:1"]) answered (lines conn.sent) := by
  obtain ⟨s, hrun, conn, hmem, hlines⟩ : ∃ s : Service 1, ServiceRun Vouched ["h:1"] s ∧
      ∃ conn ∈ s.connections, lines conn.sent = [[79, 75], [86, 65, 76, 85, 69, 32, 118]] :=
    exists_service_of_play (by decide) (by decide) ["h:1"]
      [.accept 0, .node (.timeout 0), .loop 0,
        .receive 0 [[83, 69, 84, 32, 107, 32, 118, 13, 10, 71, 69, 84]] 9,
        .node (.fetch 0), .node (.apply 0), .node (.fetch 0), .node (.apply 0), .answer 0 0 9,
        .loop 0, .receive 0 [[32, 107], [10, 81]] 9, .node (.fetch 0), .node (.apply 0),
        .answer 0 0 9] (by decide +kernel)
  obtain ⟨answered, hanswers, -⟩ := replies_in_order hrun (by decide +kernel) hmem
  exact ⟨s, conn, hrun, hmem, hlines, answered, hanswers⟩

end Dkvs
