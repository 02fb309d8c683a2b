import Mathlib

/-!
# Sleeping on condition variables

Threads share a state that changes in critical sections. A thread may go to sleep on a
condition variable as long as what it waits for does not hold. A section notifies some of the
variables, and the threads that sleep on them wake up; a thread may also wake up for no
reason. If every section that brings about what a thread waits for notifies the variable of
that thread, then no sleeper misses it, whatever the order of the sections.
-/

namespace Monitor

variable {σ α τ ν : Type*}

/-- A state `σ` with sections `α`, and threads `τ` that sleep on variables `ν`. -/
structure System (σ α τ ν : Type*) where
  step : σ → α → Option σ
  /-- The variables that a section notifies. -/
  notifies : σ → α → List ν
  /-- The variable on which a thread sleeps. -/
  condVar : τ → ν
  /-- The thread has come to its wait. -/
  AtWait : σ → τ → Prop
  /-- What the thread waits for. -/
  Ready : σ → τ → Prop
  /-- The section is one of the thread itself. -/
  Runs : σ → τ → α → Prop
  /-- The thread is gone after the section. -/
  Ends : σ → α → τ → Prop

variable {S : System σ α τ ν} {start : σ → Prop} {ok : σ → α → σ → Prop} {s s' : σ} {a : α}
  {t : τ} {asleep : Set τ}

namespace System

/-- The threads that are still asleep after a section. -/
def left (S : System σ α τ ν) (s : σ) (a : α) (asleep : Set τ) : Set τ :=
  {t ∈ asleep | S.condVar t ∉ S.notifies s a ∧ ¬ S.Ends s a t}

/-- The states and sleepers that are reached when the sections satisfy `ok`. -/
inductive Run (S : System σ α τ ν) (start : σ → Prop) (ok : σ → α → σ → Prop) :
    σ → Set τ → Prop
  | start {s : σ} (hs : start s) : Run S start ok s ∅
  /-- Some thread that is awake runs a section. -/
  | act {s s' : σ} {asleep : Set τ} {a : α} (hrun : Run S start ok s asleep)
      (hs : S.step s a = some s') (hok : ok s a s') (hawake : ∀ t ∈ asleep, ¬ S.Runs s t a) :
      Run S start ok s' (S.left s a asleep)
  | sleep {s : σ} {asleep : Set τ} {t : τ} (hrun : Run S start ok s asleep) (hat : S.AtWait s t)
      (hnot : ¬ S.Ready s t) : Run S start ok s (insert t asleep)
  | wake {s : σ} {asleep : Set τ} (hrun : Run S start ok s asleep) (t : τ) :
      Run S start ok s (asleep \ {t})

/-- A section of another thread that brings about what a thread waits for tells it. -/
def Announces (S : System σ α τ ν) (s : σ) (a : α) (s' : σ) (t : τ) : Prop :=
  ¬ S.Ready s t → ¬ S.Runs s t a → ¬ S.Ends s a t → S.Ready s' t →
    S.condVar t ∈ S.notifies s a

/-- If all sections announce what they do, no sleeper has what it waits for. -/
theorem Run.not_ready
    (hannounces : ∀ {s s' asleep a}, S.Run start ok s asleep → S.step s a = some s' →
      ok s a s' → ∀ t, S.Announces s a s' t)
    (hrun : S.Run start ok s asleep) : ∀ t ∈ asleep, ¬ S.Ready s t := by
  induction hrun with
  | start _ => simp
  | act hrun hs hok hawake ih =>
      rintro t ⟨ht, hdeaf, hlives⟩ hready
      exact hdeaf (hannounces hrun hs hok t (ih t ht) (hawake t ht) hlives hready)
  | sleep _ _ hnot ih =>
      intro t ht
      rcases Set.mem_insert_iff.mp ht with rfl | ht
      · exact hnot
      · exact ih t ht
  | wake _ _ ih => exact fun t ht ↦ ih t ht.1

/-- Threads that never sleep do not disturb the sections. -/
theorem Run.act_awake (hrun : S.Run start ok s ∅) (hs : S.step s a = some s') (hok : ok s a s') :
    S.Run start ok s' ∅ := by
  have hnext := hrun.act hs hok (by simp)
  have hnone : S.left s a ∅ = ∅ := by simp [left]
  rwa [hnone] at hnext

end System

end Monitor
