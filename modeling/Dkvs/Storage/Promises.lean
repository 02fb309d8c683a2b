import Dkvs.Frames
import Dkvs.Storage.Meta
import Dkvs.Storage.Node

/-!
# Term and vote of a node

The current term and the vote are a promise: a later one belongs to a later term, or it
keeps the vote once one was cast. Every operation writes each new promise before it does
anything else with it, so a process that dies in the operation finds one of them, and all
of them follow from the one before.
-/

namespace Dkvs

/-- From one pair of a term and a vote to a later one. -/
def Advances (p q : ℕ × ℤ) : Prop := p.1 < q.1 ∨ p.1 = q.1 ∧ (p.2 = -1 ∨ q.2 = p.2)

theorem Advances.refl (p : ℕ × ℤ) : Advances p p := Or.inr ⟨rfl, Or.inr rfl⟩

theorem Advances.trans {p q r : ℕ × ℤ} (h : Advances p q) (h' : Advances q r) : Advances p r := by
  rcases h with hlt | ⟨hterm, hvote⟩
  · rcases h' with hlt' | ⟨hterm', -⟩
    · exact Or.inl (hlt.trans hlt')
    · exact Or.inl (hterm' ▸ hlt)
  · rcases h' with hlt' | ⟨hterm', hvote'⟩
    · exact Or.inl (hterm ▸ hlt')
    · refine Or.inr ⟨hterm.trans hterm', ?_⟩
      rcases hvote with hnone | hsame
      · exact Or.inl hnone
      · rwa [hsame] at hvote'

theorem Advances.term_le {p q : ℕ × ℤ} (h : Advances p q) : p.1 ≤ q.1 := by
  rcases h with hlt | ⟨hterm, -⟩
  · exact hlt.le
  · exact hterm.le

/-! ## What a list of effects saves -/

/-- The pair in the meta file after an effect. -/
def Effect.saved (p : ℕ × ℤ) : Effect → ℕ × ℤ
  | .saveMeta currentTerm votedFor => (currentTerm, votedFor)
  | _ => p

def savedMeta (p : ℕ × ℤ) (es : List Effect) : ℕ × ℤ := es.foldl Effect.saved p

/-- Every pair that is saved fits the file and follows from the one before. -/
def Rising : ℕ × ℤ → List Effect → Prop
  | _, [] => True
  | p, e :: es => MetaFits (e.saved p) ∧ Advances p (e.saved p) ∧ Rising (e.saved p) es

namespace Rising

variable {p : ℕ × ℤ} {es fs : List Effect}

theorem append (h : Rising p es) (h' : Rising (savedMeta p es) fs) : Rising p (es ++ fs) := by
  induction es generalizing p with
  | nil => exact h'
  | cons e es ih => exact ⟨h.1, h.2.1, ih h.2.2 h'⟩

theorem take (h : Rising p es) (m : ℕ) : Rising p (es.take m) := by
  induction es generalizing p m with
  | nil => simp [Rising]
  | cons e es ih =>
      cases m with
      | zero => trivial
      | succ m => exact ⟨h.1, h.2.1, ih h.2.2 m⟩

theorem savedMeta_spec (h : Rising p es) (hp : MetaFits p) :
    MetaFits (savedMeta p es) ∧ Advances p (savedMeta p es) := by
  induction es generalizing p with
  | nil => exact ⟨hp, .refl p⟩
  | cons e es ih =>
      obtain ⟨hfits, hadvances⟩ := ih h.2.2 h.1
      exact ⟨hfits, h.2.1.trans hadvances⟩

end Rising

/-- No pair is saved. -/
def Unsaved (es : List Effect) : Prop := ∀ e ∈ es, ∀ p, e.saved p = p

theorem Unsaved.append {es fs : List Effect} (h : Unsaved es) (h' : Unsaved fs) :
    Unsaved (es ++ fs) := by
  intro e he
  rcases List.mem_append.mp he with he | he
  · exact h e he
  · exact h' e he

theorem Unsaved.savedMeta {es : List Effect} (h : Unsaved es) (p : ℕ × ℤ) :
    savedMeta p es = p := by
  induction es generalizing p with
  | nil => rfl
  | cons e es ih =>
      rw [Dkvs.savedMeta, List.foldl_cons, h e (by simp)]
      exact ih (fun x hx ↦ h x (by simp [hx])) p

theorem Unsaved.rising {es : List Effect} (h : Unsaved es) {p : ℕ × ℤ} (hp : MetaFits p) :
    Rising p es := by
  induction es with
  | nil => trivial
  | cons e es ih =>
      rw [Rising, h e (by simp)]
      exact ⟨hp, .refl p, ih fun x hx ↦ h x (by simp [hx])⟩

theorem Notices.unsaved {es : List Effect} (hes : Notices es) : Unsaved es := by
  intro e he p
  obtain ⟨cv, rfl⟩ := hes e he
  rfl

namespace Storage

theorem readMeta_perform {s : Storage} {p : ℕ × ℤ} (hs : readMeta s.dir = some p) {e : Effect}
    (he : MetaFits (e.saved p)) : readMeta (s.perform e).dir = some (e.saved p) := by
  cases e with
  | saveMeta currentTerm votedFor => exact decodeMeta_eq_some.mpr ⟨rfl, he⟩
  | truncateFrom fromIndex =>
      rw [perform, truncateFrom]
      split_ifs with hout
      · exact hs
      · exact hs
  | _ => exact hs

theorem readMeta_performAll {s : Storage} {p : ℕ × ℤ} (hs : readMeta s.dir = some p)
    {es : List Effect} (hes : Rising p es) :
    readMeta (s.performAll es).dir = some (savedMeta p es) := by
  induction es generalizing s p with
  | nil => exact hs
  | cons e es ih => exact ih (readMeta_perform hs hes.1) hes.2.2

/-- What a process finds is what is in the file, and it leaves it there. -/
theorem readMeta_of_load {dir : Directory} {s : Storage} (hload : load dir = .ok s) :
    readMeta dir = some (s.currentTerm, s.votedFor) ∧
      readMeta s.dir = some (s.currentTerm, s.votedFor) := by
  unfold load at hload
  split at hload
  · simp at hload
  · rename_i currentTerm votedFor hread
    unfold loadWal at hload
    split at hload
    · obtain rfl := LoadResult.ok.inj hload
      exact ⟨hread, hread⟩
    · simp at hload
    · simp at hload

end Storage

/-! ## Operations -/

namespace RaftNode

/-- The term and the vote in memory. -/
def promise (n : RaftNode) : ℕ × ℤ := (n.currentTerm, n.votedFor)

end RaftNode

/-- The operation neither changes nor saves the promise. -/
structure KeepsPromise (n n' : RaftNode) : Prop where
  id : n'.id = n.id
  promise : n'.promise = n.promise
  effects : ∃ es, n'.effects = n.effects ++ es ∧ Unsaved es

namespace KeepsPromise

variable {n n' n'' : RaftNode} {e : LogEntry} {es : List LogEntry}

theorem refl (n : RaftNode) : KeepsPromise n n := ⟨rfl, rfl, [], by simp, by simp [Unsaved]⟩

theorem trans (h : KeepsPromise n n') (h' : KeepsPromise n' n'') : KeepsPromise n n'' := by
  obtain ⟨es, hes, hunsaved⟩ := h.effects
  obtain ⟨fs, hfs, hunsaved'⟩ := h'.effects
  exact ⟨h'.id.trans h.id, h'.promise.trans h.promise, es ++ fs,
    by rw [hfs, hes, List.append_assoc], hunsaved.append hunsaved'⟩

theorem push (n : RaftNode) (e : LogEntry) : KeepsPromise n (n.push e) :=
  ⟨rfl, rfl, [.append e], rfl, by simp [Unsaved, Effect.saved]⟩

theorem appendAll (n : RaftNode) (es : List LogEntry) : KeepsPromise n (n.appendAll es) := by
  induction es generalizing n with
  | nil => exact refl n
  | cons e es ih => exact (push n e).trans (ih (n.push e))

theorem truncateLog (n : RaftNode) (pos : ℕ) : KeepsPromise n (n.truncateLog pos) :=
  ⟨rfl, rfl, [.truncateFrom pos], rfl, by simp [Unsaved, Effect.saved]⟩

theorem mergeEntries (n : RaftNode) (pos : ℕ) (es : List LogEntry) :
    KeepsPromise n (n.mergeEntries pos es) := by
  induction es generalizing pos with
  | nil => exact refl n
  | cons e es ih =>
      rw [RaftNode.mergeEntries]
      split_ifs with hend hconflict
      · exact appendAll n _
      · exact (truncateLog n pos).trans (appendAll _ _)
      · exact ih (pos + 1)

theorem followCommit (n : RaftNode) (leaderCommit : ℕ) :
    KeepsPromise n (n.followCommit leaderCommit) := by
  obtain ⟨commit, es, hnotices, hframe⟩ := n.followCommit_frame leaderCommit
  rw [hframe]
  exact ⟨rfl, rfl, es, rfl, hnotices.unsaved⟩

theorem advanceCommit (n : RaftNode) : KeepsPromise n n.advanceCommit := by
  rcases n.advanceCommit_cases with hsame | ⟨-, m, -, -, -, -, hmove⟩
  · rw [hsame]
    exact refl n
  · rw [hmove]
    exact ⟨rfl, rfl, _, rfl, by simp [Unsaved, Effect.saved]⟩

theorem appendOwn (n : RaftNode) (e : LogEntry) :
    KeepsPromise n (n.push e).countSelf.advanceCommit := by
  have hcount : KeepsPromise (n.push e) (n.push e).countSelf :=
    ⟨rfl, rfl, [], by simp [RaftNode.countSelf], by simp [Unsaved]⟩
  exact (push n e).trans (hcount.trans (advanceCommit _))

theorem spawn (n : RaftNode) {threads : List Effect} (hthreads : Unsaved threads) :
    KeepsPromise n (n.spawn threads) :=
  ⟨rfl, rfl, threads, rfl, hthreads⟩

theorem becomeLeader (n : RaftNode) : KeepsPromise n n.becomeLeader := by
  have hoffice : KeepsPromise n n.takeOffice :=
    ⟨rfl, rfl, _, rfl, by simp [Unsaved, Effect.saved]⟩
  refine hoffice.trans ((appendOwn _ _).trans (spawn _ ?_))
  intro effect heffect
  obtain ⟨peer, -, rfl⟩ := List.mem_map.mp heffect
  exact fun p ↦ rfl

theorem submit (n : RaftNode) (command : Bytes) : KeepsPromise n (n.submit command).1 := by
  rcases n.submit_cases command with ⟨hsame, -⟩ | ⟨-, hnode, -, -⟩
  · rw [hsame]
    exact refl n
  · rw [hnode]
    exact (appendOwn n _).trans (spawn _ (Notices.single .replCv).unsaved)

/-- Behind the candidacy nothing is saved. -/
theorem startElection (n : RaftNode) : KeepsPromise n.stand n.startElection := by
  rcases n.startElection_cases with hwon | hopen
  · rw [hwon]
    exact becomeLeader _
  · rw [hopen]
    refine spawn _ ?_
    intro effect heffect
    obtain ⟨peer, -, rfl⟩ := List.mem_map.mp heffect
    exact fun p ↦ rfl

end KeepsPromise

/-- The operation saves each new promise, and each follows from the one before. -/
structure Saves (n n' : RaftNode) : Prop where
  id : n'.id = n.id
  fits : MetaFits n'.promise
  effects : ∃ es, n'.effects = n.effects ++ es ∧ Rising n.promise es ∧
    savedMeta n.promise es = n'.promise

namespace Saves

variable {n n' n'' : RaftNode} {t : ℕ}

theorem of_keeps (hn : MetaFits n.promise) (h : KeepsPromise n n') : Saves n n' := by
  obtain ⟨es, hes, hunsaved⟩ := h.effects
  refine ⟨h.id, h.promise ▸ hn, es, hes, hunsaved.rising hn, ?_⟩
  rw [hunsaved.savedMeta, h.promise]

theorem trans (h : Saves n n') (h' : Saves n' n'') : Saves n n'' := by
  obtain ⟨es, hes, hrising, hsaved⟩ := h.effects
  obtain ⟨fs, hfs, hrising', hsaved'⟩ := h'.effects
  refine ⟨h'.id.trans h.id, h'.fits, es ++ fs, by rw [hfs, hes, List.append_assoc],
    hrising.append (hsaved ▸ hrising'), ?_⟩
  rw [← hsaved', ← hsaved]
  exact List.foldl_append

theorem save (hid : n'.id = n.id)
    (heffects : n'.effects = n.effects ++ [.saveMeta n'.currentTerm n'.votedFor])
    (hfits : MetaFits n'.promise) (hadvances : Advances n.promise n'.promise) : Saves n n' :=
  ⟨hid, hfits, _, heffects, ⟨hfits, hadvances, trivial⟩, rfl⟩

theorem becomeFollower (hn : MetaFits n.promise) (ht : t < 2 ^ 64) :
    Saves n (n.becomeFollower t) := by
  rcases Nat.lt_or_ge n.currentTerm t with hlt | hle
  · have hsave : Saves n { n with
        currentTerm := t, votedFor := -1, effects := n.effects ++ [.saveMeta t (-1)] } :=
      save rfl rfl ⟨ht, by norm_num [RaftNode.promise]⟩ (Or.inl hlt)
    rw [RaftNode.becomeFollower_of_lt hlt]
    exact hsave.trans (of_keeps hsave.fits
      ⟨rfl, rfl, n.retirement, by simp, n.notices_retirement.unsaved⟩)
  · rw [RaftNode.becomeFollower_of_le hle]
    exact of_keeps hn ⟨rfl, rfl, n.retirement, rfl, n.notices_retirement.unsaved⟩

theorem heed (hn : MetaFits n.promise) {args : AppendEntriesArgs} (hterm : args.term < 2 ^ 64) :
    Saves n (n.heed args) := by
  have hhint : ∀ m : RaftNode, KeepsPromise m { m with leaderHint := toInt32 args.leaderId } :=
    fun m ↦ ⟨rfl, rfl, [], by simp, by simp [Unsaved]⟩
  have hfollow := becomeFollower hn hterm
  rw [RaftNode.heed]
  split_ifs with hcond
  · exact hfollow.trans (of_keeps hfollow.fits (hhint _))
  · exact of_keeps hn (hhint n)

theorem onAppendEntries (hn : MetaFits n.promise) {args : AppendEntriesArgs}
    (hterm : args.term < 2 ^ 64) : Saves n (n.onAppendEntries args).1 := by
  have hheed := heed hn hterm
  rcases n.onAppendEntries_cases args with ⟨-, hsame, -⟩ | ⟨-, ⟨hnode, -⟩ | ⟨-, -, hnode⟩⟩
  · rw [hsame]
    exact of_keeps hn (.refl n)
  · rw [hnode]
    exact hheed
  · rw [hnode]
    exact hheed.trans (of_keeps hheed.fits ((KeepsPromise.mergeEntries _ _ _).trans
      (KeepsPromise.followCommit _ _)))

theorem onRequestVote (hn : MetaFits n.promise) {args : RequestVoteArgs}
    (hterm : args.term < 2 ^ 64) : Saves n (n.onRequestVote args).1 := by
  rcases n.onRequestVote_cases args with ⟨-, hsame, -⟩ | ⟨-, m, hm, hcases⟩
  · rw [hsame]
    exact of_keeps hn (.refl n)
  · have hfirst : Saves n m := by
      rw [hm]
      split_ifs with hlt
      · exact becomeFollower hn hterm
      · exact of_keeps hn (.refl n)
    rcases hcases with ⟨hnode, -⟩ | ⟨-, hvote, hnode⟩
    · rw [hnode]
      exact hfirst
    · rw [hnode]
      refine hfirst.trans (save rfl rfl ⟨hfirst.fits.1, toInt32_range _⟩ (Or.inr ⟨rfl, ?_⟩))
      rcases hvote with hnone | hsame
      · exact Or.inl hnone
      · exact Or.inr hsame.symm

theorem stand (hlast : n.currentTerm + 1 < 2 ^ 64) : Saves n n.stand := by
  have hterm : (n.currentTerm + 1) % 2 ^ 64 = n.currentTerm + 1 := Nat.mod_eq_of_lt hlast
  refine save rfl rfl ⟨Nat.mod_lt _ (by norm_num), toInt32_range _⟩ (Or.inl ?_)
  simp only [RaftNode.promise, RaftNode.stand, RaftNode.emit, hterm]
  exact Nat.lt_succ_self _

theorem startElection (hlast : n.currentTerm + 1 < 2 ^ 64) : Saves n n.startElection :=
  (stand hlast).trans (of_keeps (stand hlast).fits (.startElection n))

theorem onVoteReply (hn : MetaFits n.promise) (args : RequestVoteArgs) {reply : RequestVoteReply}
    (hreply : reply.term < 2 ^ 64) : Saves n (n.onVoteReply args reply) := by
  have hcount : KeepsPromise n { n with votesReceived := n.votesReceived + 1 } :=
    ⟨rfl, rfl, [], by simp, by simp [Unsaved]⟩
  rcases n.onVoteReply_cases args reply with hnode | ⟨-, hnode⟩ |
    ⟨-, -, -, ⟨-, hnode⟩ | ⟨-, hnode⟩⟩
  · rw [hnode]
    exact of_keeps hn (.refl n)
  · rw [hnode]
    exact becomeFollower hn hreply
  · rw [hnode]
    exact of_keeps hn hcount
  · rw [hnode]
    exact of_keeps hn (hcount.trans (.becomeLeader _))

theorem onAppendReply (hn : MetaFits n.promise) (peer leaderTerm : ℕ) (args : AppendEntriesArgs)
    {reply : AppendEntriesReply} (hreply : reply.term < 2 ^ 64) :
    Saves n (n.onAppendReply peer leaderTerm args reply).1 := by
  rcases n.onAppendReply_cases peer leaderTerm args reply with hnode | ⟨-, hnode⟩ |
    ⟨-, -, ⟨-, next, hnode⟩ | ⟨next, hnode⟩⟩
  · rw [hnode]
    exact of_keeps hn (.refl n)
  · rw [hnode]
    exact becomeFollower hn hreply
  · rw [hnode]
    have hmatch : KeepsPromise n { n with
        matchIndex := n.matchIndex.set peer
          (max (n.matchIndex.getD peer 0) (args.prevLogIndex + args.entries.length))
        nextIndex := next } := ⟨rfl, rfl, [], by simp, by simp [Unsaved]⟩
    exact of_keeps hn (hmatch.trans (.advanceCommit _))
  · rw [hnode]
    exact of_keeps hn ⟨rfl, rfl, [], by simp, by simp [Unsaved]⟩

end Saves

end Dkvs
