import Dkvs.Conversation.Connections

/-!
# Replies are single lines

A value that is stored came out of a line, so it has no newline, and a reply that quotes it has
none either. This holds of every entry in every log, of what is applied from it and of what the
handlers find in their slots.
-/

namespace Dkvs

variable {N : ℕ} {c c' : Cluster N} {x : Fin N}

/-! ## Texts -/

theorem newline_notMem_decimal (n : ℕ) : newline ∉ decimal n := by
  intro hmem
  exact absurd (isDigit_of_mem_decimal hmem) (by decide)

theorem newline_notMem_decimalInt (z : ℤ) : newline ∉ decimalInt z := by
  unfold decimalInt
  split_ifs
  · intro hmem
    rcases List.mem_cons.mp hmem with heq | hmem
    · exact absurd heq (by decide)
    · exact newline_notMem_decimal _ hmem
  · exact newline_notMem_decimal _

theorem newline_notMem_roleName (role : Role) : newline ∉ roleName role := by
  cases role with
  | follower => decide +kernel
  | candidate => decide +kernel
  | leader => decide +kernel

theorem RaftStatus.newline_notMem_text (status : RaftStatus) (keys : ℕ) :
    newline ∉ status.text keys := by
  have hword : ∀ word ∈ ["STATUS role=", " term=", " leader=", " commit=", " applied=", " log=",
      " keys="], newline ∉ word.toUTF8.toList := by decide +kernel
  simp only [text, List.mem_append, not_or]
  refine ⟨⟨⟨⟨⟨⟨⟨⟨⟨⟨⟨⟨⟨?_, newline_notMem_roleName _⟩, ?_⟩, newline_notMem_decimal _⟩, ?_⟩,
    newline_notMem_decimalInt _⟩, ?_⟩, newline_notMem_decimal _⟩, ?_⟩,
    newline_notMem_decimal _⟩, ?_⟩, newline_notMem_decimal _⟩, ?_⟩, newline_notMem_decimal _⟩
  all_goals exact hword _ (by simp)

namespace Response

/-- A value that is quoted has no newline. -/
def Plain : Response → Prop
  | .value v => newline ∉ v
  | _ => True

/-- The answer is one to such an operation. -/
def Fits (op : Op) : Response → Prop
  | .ok => op = .set
  | .value _ => op = .get
  | .notFound => op ≠ .set
  | .deleted => op = .del
  | .redirect _ | .noLeader | .commitTimeout | .lostLeadership => True

theorem newline_notMem_text {clientAddrs : List String}
    (haddrs : ∀ addr ∈ clientAddrs, newline ∉ addr.toUTF8.toList) {response : Response}
    (hplain : response.Plain) : newline ∉ response.text clientAddrs := by
  have hfixed : ∀ word ∈ ["OK", "NOT_FOUND", "DELETED", "ERROR no leader known, retry",
      "ERROR commit timeout, retry", "ERROR lost leadership, retry"],
      newline ∉ word.toUTF8.toList := by decide +kernel
  cases response with
  | value v =>
      have hword : newline ∉ "VALUE ".toUTF8.toList := by decide +kernel
      rw [text, List.mem_append, not_or]
      exact ⟨hword, hplain⟩
  | redirect leader =>
      have hword : newline ∉ "REDIRECT ".toUTF8.toList := by decide +kernel
      rw [text, PlainText.toUTF8_append, List.mem_append, not_or]
      refine ⟨hword, ?_⟩
      rw [List.getD_eq_getElem?_getD]
      cases haddr : clientAddrs[leader]? with
      | none => decide +kernel
      | some addr => exact haddrs addr (List.mem_of_getElem? haddr)
  | ok => exact hfixed "OK" (by simp)
  | notFound => exact hfixed "NOT_FOUND" (by simp)
  | deleted => exact hfixed "DELETED" (by simp)
  | noLeader => exact hfixed "ERROR no leader known, retry" (by simp)
  | commitTimeout => exact hfixed "ERROR commit timeout, retry" (by simp)
  | lostLeadership => exact hfixed "ERROR lost leadership, retry" (by simp)

end Response

/-- The text is a reply to the request; `none` is a line that is no request. -/
inductive Answers (clientAddrs : List String) : Option ClientRequest → Bytes → Prop
  | unknown : Answers clientAddrs none unknownText
  | quit : Answers clientAddrs (some .quit) byeText
  | ping : Answers clientAddrs (some .ping) pongText
  | status (status : RaftStatus) (keys : ℕ) :
      Answers clientAddrs (some .status) (status.text keys)
  | command {cmd : Command} {response : Response} (hfits : response.Fits cmd.op)
      (hplain : response.Plain) :
      Answers clientAddrs (some (.command cmd)) (response.text clientAddrs)

theorem Answers.newline_notMem {clientAddrs : List String}
    (haddrs : ∀ addr ∈ clientAddrs, newline ∉ addr.toUTF8.toList) {request : Option ClientRequest}
    {text : Bytes} (hanswers : Answers clientAddrs request text) : newline ∉ text := by
  cases hanswers with
  | unknown => decide +kernel
  | quit => decide +kernel
  | ping => decide +kernel
  | status status keys => exact status.newline_notMem_text keys
  | command _ hplain => exact Response.newline_notMem_text haddrs hplain

theorem Immediate.answers {n : RaftNode} {request : Option ClientRequest} {text : Bytes}
    (himm : Immediate n request text) (clientAddrs : List String) :
    Answers clientAddrs request text := by
  cases himm with
  | unknown => exact .unknown
  | quit => exact .quit
  | ping => exact .ping
  | status keys => exact .status n.status keys

theorem refuse_answers (clientAddrs : List String) (i : Fin N) (result : SubmitResult)
    (cmd : Command) :
    Answers clientAddrs (some (.command cmd)) ((refuse i N result).text clientAddrs) := by
  unfold refuse
  split_ifs
  · exact .command trivial trivial
  · exact .command trivial trivial

theorem fits_outcome (cmd : Command) (pending : PendingResult) :
    (outcome cmd pending).Fits cmd.op := by
  unfold outcome
  cases hop : cmd.op with
  | set => rfl
  | get =>
      cases pending.value with
      | none => exact Op.noConfusion
      | some v => rfl
  | del =>
      dsimp only
      split_ifs
      · rfl
      · exact Op.noConfusion

theorem value_of_outcome {cmd : Command} {pending : PendingResult} {v : Bytes}
    (hvalue : outcome cmd pending = .value v) : pending.value = some v := by
  unfold outcome at hvalue
  cases hop : cmd.op with
  | set => simp [hop] at hvalue
  | get =>
      rw [hop] at hvalue
      cases hread : pending.value with
      | none => simp [hread] at hvalue
      | some w => simpa [hread] using hvalue
  | del =>
      rw [hop] at hvalue
      dsimp only at hvalue
      split_ifs at hvalue

theorem fits_resume (stopping : Bool) (waiters : Waiters) (handler : Handler) :
    (resume stopping waiters handler).1.Fits handler.cmd.op := by
  unfold resume
  dsimp only
  split_ifs
  · trivial
  · trivial
  · exact fits_outcome _ _

/-! ## Values -/

/-- A command in the entry has no newline in its value. -/
def LogEntry.Plain (e : LogEntry) : Prop :=
  ∀ cmd, Command.decode e.command = some cmd → newline ∉ cmd.value

def KVStore.Plain (store : KVStore) : Prop := ∀ key v, store.get key = some v → newline ∉ v

theorem KVStore.Plain.apply {store : KVStore} (hstore : store.Plain) {e : LogEntry}
    (he : e.Plain) : (applyCommand store e.command).1.Plain := by
  rw [applyCommand_store]
  cases hcmd : Command.decode e.command with
  | none => exact hstore
  | some cmd =>
      intro key v hget
      simp only [Option.elim_some, Command.run] at hget
      cases hop : cmd.op with
      | set =>
          rw [hop] at hget
          by_cases hkey : key = cmd.key
          · subst hkey
            obtain rfl : cmd.value = v := by simpa [KVStore.get, KVStore.set] using hget
            exact he cmd hcmd
          · exact hstore key v (by simpa [KVStore.get, KVStore.set, hkey] using hget)
      | get => exact hstore key v (by simpa [hop] using hget)
      | del =>
          rw [hop] at hget
          by_cases hkey : key = cmd.key
          · simp [KVStore.get, KVStore.remove, hkey] at hget
          · exact hstore key v (by simpa [KVStore.get, KVStore.remove, hkey] using hget)

theorem plain_replay {entries : List LogEntry} (hplain : ∀ e ∈ entries, e.Plain) :
    (replay entries).Plain := by
  induction entries using List.reverseRecOn with
  | nil =>
      intro key v hget
      simp [replay, KVStore.empty, KVStore.get] at hget
  | append_singleton entries e ih =>
      rw [replay, List.foldl_append]
      exact (ih fun e' he' ↦ hplain e' (by simp [he'])).apply (hplain e (by simp))

/-- What is read for a `GET` comes from the store. -/
theorem KVStore.Plain.value {store : KVStore} (hstore : store.Plain) {rawCommand v : Bytes}
    (hvalue : (applyCommand store rawCommand).2.1 = some v) : newline ∉ v := by
  unfold applyCommand at hvalue
  split_ifs at hvalue with hempty
  split at hvalue
  · simp at hvalue
  · split at hvalue
    · simp at hvalue
    · exact hstore _ v hvalue
    · simp at hvalue

/-! ## The nodes -/

/-- What a node has applied or is about to apply is plain. -/
structure AppliedPlain (c : Cluster N) (x : Fin N) : Prop where
  entries : ∀ e ∈ c.appliedEntries x, e.Plain
  applying : ∀ {idx e}, (c.processes x).applying = some (idx, e) → e.Plain

theorem AppliedPlain.step {h : History N} (hplain : AppliedPlain c x) (happlier : ApplierOk c x)
    (hsim : Sim c h) (hcarries : Carries (fun _ e ↦ e.Plain) c) {a : Action N}
    (hs : c.step a = some c') : AppliedPlain c' x := by
  refine ⟨fun e he ↦ ?_, fun {idx e} happ ↦ ?_⟩
  · have hmem : e ∈ (c'.frontend x).applied := he
    cases (happlier.step hsim hs).2 with
    | same heq =>
        rw [heq] at hmem
        exact hplain.entries e hmem
    | boot heq =>
        rw [heq] at hmem
        simp [Frontend.boot] at hmem
    | step _ hsame =>
        rw [hsame] at hmem
        exact hplain.entries e hmem
    | apply happ heq =>
        rw [heq] at hmem
        rcases List.mem_append.mp hmem with hmem | hmem
        · exact hplain.entries e hmem
        · obtain rfl := List.mem_singleton.mp hmem
          exact hplain.applying happ
  · rcases Cluster.applying_step hs happ with hold | ⟨k, rfl, hget⟩
    · exact hplain.applying hold
    · rw [← List.getElem?_tail] at hget
      exact hcarries.log hsim x hget

theorem Action.Typed.offers {a : Action N} (htyped : a.Typed) :
    Offers (fun _ e ↦ e.Plain) c a := by
  intro i command hoffer _ cmd hdecode
  induction a with
  | submit _ _ => exact absurd htyped id
  | execute _ cmd' =>
      obtain ⟨rfl, rfl⟩ := Prod.ext_iff.mp (Option.some.inj hoffer)
      have hsame : Command.decode cmd'.encode = some cmd' :=
        Command.decode_eq_some.mpr ⟨rfl, htyped.1⟩
      obtain rfl : cmd' = cmd := by simpa [hsame] using hdecode
      exact htyped.2
  | crashDuring b _ ih => exact ih htyped hoffer
  | _ => simp [Action.offer] at hoffer

theorem Run.appliedPlain {ok : Cluster N → Action N → Prop} (hrun : Run ok c)
    (hok : ∀ {c a}, ok c a → a.Typed) (x : Fin N) : AppliedPlain c x := by
  induction hrun with
  | initial _ _ =>
      refine ⟨fun e he ↦ ?_, fun {idx e} happ ↦ ?_⟩
      · simp [Cluster.appliedEntries, Cluster.initial] at he
      · simp [Cluster.initial, Process.boot] at happ
  | step hrun _ hs _ ih =>
      obtain ⟨h, hsim⟩ := hrun.exists_sim
      have hnoop : ∀ (_ t : ℕ), (⟨t, []⟩ : LogEntry).Plain := by
        intro _ t cmd hdecode
        rw [Command.decode_nil] at hdecode
        simp at hdecode
      exact ih.step (hrun.frontend x).1 hsim
        (hrun.carries hnoop fun hstep ↦ (hok hstep).offers) hs

/-- A handler quotes only plain values. -/
theorem Run.plain_resume {ok : Cluster N → Action N → Prop} (hrun : Run ok c)
    (hok : ∀ {c a}, ok c a → a.Typed) (handler : Handler) :
    (resume (c.processes x).stopping (c.processes x).waiters handler).1.Plain := by
  cases hresponse : (resume (c.processes x).stopping (c.processes x).waiters handler).1 with
  | value v =>
      have hsuccess : (resume (c.processes x).stopping
          (c.processes x).waiters handler).1.isSuccess = true := by rw [hresponse]; rfl
      obtain ⟨r, hr, hdone, hterm⟩ := (resume_response _ _ _).1 hsuccess
      rw [resume_of_filled _ hr hdone hterm] at hresponse
      obtain ⟨-, e, he, rfl⟩ := (hrun.frontend x).2.faithful.slots hr hdone
      have hstore : (replay ((c.frontend x).applied.take (handler.index - 1))).Plain :=
        plain_replay fun e he ↦ (hrun.appliedPlain hok x).entries e (List.mem_of_mem_take he)
      exact hstore.value (value_of_outcome hresponse)
  | _ => trivial

end Dkvs
