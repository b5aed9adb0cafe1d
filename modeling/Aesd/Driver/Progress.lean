import Aesd.Driver.Tasks

/-!
# Calls complete

Tasks that are in a call take no more than seventeen steps each until all of them
have returned, and one of them can always take the next. The calls write something
and none is interrupted at the lock.
-/

namespace Aesd
open Library

/-- At most what a task has yet to do before it returns. -/
def FineTask.rank (task : FineTask) : Nat :=
  match task.pc with
  | .user => 0
  | .seeking _ _ _ => 1
  | .escaped _ => 2
  | .inside _ _ sec => sec.rank + 2
  | .waiting _ => 17

def FileOp.WritesSome : FileOp → Prop
  | .write buf => buf ≠ []
  | _ => True

instance : ∀ op : FileOp, Decidable op.WritesSome
  | .write buf => inferInstanceAs (Decidable (buf ≠ []))
  | .read _ | .llseek _ _ => isTrue trivial

namespace FineEvent

/-- A step of a call that has begun. -/
def Proceeds : FineEvent → Prop
  | .call _ => False
  | .lock env => env.interrupted = false
  | _ => True

instance : ∀ event : FineEvent, Decidable event.Proceeds
  | .lock env => inferInstanceAs (Decidable (env.interrupted = false))
  | .call _ => isFalse id
  | .access | .unlock | .seek => isTrue trivial

end FineEvent

namespace FineKernel

/-- The first `n` tasks call, write something, and wait at the lock without being interrupted. -/
def Orderly (n : Nat) (_ : FineKernel) (label : Nat × FineEvent) : Prop :=
  match label.2 with
  | .call op => label.1 < n ∧ op.WritesSome
  | .lock env => env.interrupted = false
  | _ => True

instance (n : Nat) (s : FineKernel) : ∀ label, Decidable (Orderly n s label)
  | (_, .call _) => inferInstanceAs (Decidable (_ ∧ _))
  | (_, .lock _) => inferInstanceAs (Decidable (_ = false))
  | (_, .access) | (_, .unlock) | (_, .seek) => isTrue trivial

/-- Each task in a call is one of the first `n` and writes something if it writes. -/
def Fits (n t : Nat) (task : FineTask) : Prop :=
  match task.pc with
  | .user => True
  | .waiting op => t < n ∧ op.WritesSome
  | .inside op _ sec => t < n ∧ op.WritesSome ∧ sec.rank ≤ 14
  | .seeking _ _ _ => t < n
  | .escaped _ => False

structure Busy (n : Nat) (s : FineKernel) : Prop where
  represents : ∃ f d, s.Represents f ∧ f.Represents d
  fits : ∀ t, Fits n t (s.tasks t)

end FineKernel

variable {s s' : FineKernel} {n t : Nat} {label : Nat × FineEvent} {event : FineEvent}
  {labels more : List (Nat × FineEvent)} {op : FileOp} {env : CallEnv} {sec : Section}

theorem enter_rank (env : CallEnv) (fpos : Int) (op : FileOp) : (Section.enter env fpos op).rank ≤ 14 := by
  cases op with
  | read count => exact show maxWriteOperations + 2 ≤ 14 by decide
  | write buf => exact Nat.le_refl _
  | llseek offSet whence => exact show maxWriteOperations - 0 + 1 ≤ 14 by decide

namespace FineKernel

theorem Busy.notEscaped (h : Busy n s) : (s.tasks t).pc ≠ .escaped op := by
  intro here
  have fits := h.fits t
  simp only [Fits, here] at fits

theorem Busy.stays (h : Busy n s) (label : Nat × FineEvent) : s.NoEscape label := by
  obtain ⟨t, event⟩ := label
  unfold NoEscape
  split
  · rename_i op here _
    exact h.notEscaped here
  · trivial

theorem fits_step (fits : ∀ u, Fits n u (s.tasks u)) (orderly : Orderly n s (t, event))
    (step : fineKernel.step s (t, event) = some s') : ∀ u, Fits n u (s'.tasks u) := by
  intro u
  have before := fits t
  have others {task : FineTask} (here : Fits n t task) : Fits n u (Function.update s.tasks t task u) := by
    by_cases me : u = t
    · rw [me, Function.update_self]
      exact here
    · rw [Function.update_of_ne me]
      exact fits u
  cases fineKernel_step step with
  | call user op => exact others orderly
  | interrupt waits interrupted =>
    rw [show _ = false from orderly] at interrupted
    cases interrupted
  | acquire waits =>
    rename_i op env _ _
    simp only [Fits, waits] at before
    exact others ⟨before.1, before.2, enter_rank env _ op⟩
  | access here more =>
    rename_i op env sec
    simp only [Fits, here] at before
    obtain ⟨mine, bytes, bound⟩ := before
    have lower := sec.step_rank s.driver (s.tasks t).fpos more
    exact others ⟨mine, bytes, by omega⟩
  | release here =>
    simp only [Fits, here] at before
    rename_i op env answer
    cases op with
    | llseek => exact others before.1
    | _ => exact others trivial
  | escape here => simp only [Fits, here] at before
  | seek => exact others trivial

theorem Busy.step (h : Busy n s) (orderly : Orderly n s label) (step : fineKernel.step s label = some s') : Busy n s' := by
  obtain ⟨f, d, represents, log⟩ := h.represents
  obtain ⟨f', reached, after, _⟩ := represents.step (h.stays label) step
  obtain ⟨d', _, log', _⟩ := files_simulate_log.run log Machine.along_true reached
  obtain ⟨t, event⟩ := label
  exact ⟨⟨f', d', after, log'⟩, fits_step h.fits orderly step⟩

/-- No body ends in a fault. -/
theorem Busy.alive (h : Busy n s) : (s.tasks t).pc ≠ .inside op env .dead := by
  intro here
  obtain ⟨f, d, represents, log⟩ := h.represents
  obtain ⟨lock, leads⟩ := represents.onward t op env _ here
  rw [final_ended rfl] at leads
  have fits := h.fits t
  simp only [Fits, here] at fits
  cases op with
  | read count => simp [FileOp.outcome] at leads
  | llseek offSet whence => simp [FileOp.outcome] at leads
  | write buf =>
    obtain ⟨ring, pending, lost, layout, _⟩ := log.layout
    have sound : (aesdWrite env buf f.driver (f.fpos t)).oops = false := by
      cases ok : granted env buf f.driver with
      | false =>
        obtain ⟨e, _, denied⟩ := aesdWrite_denied (f.fpos t) ok
        rw [denied]
      | true =>
        obtain ⟨_, _, _, _, sound, _⟩ := aesdWrite_granted (f.fpos t) layout fits.2.1 ok
        exact sound
    rw [aesdWrite, if_neg (by simp [lock])] at sound
    simp [FileOp.outcome, WriteResult.place, sound] at leads

/-- A step of a call lowers the rank of its task. -/
theorem Busy.lowers (h : Busy n s) (proceeds : label.2.Proceeds) (step : fineKernel.step s label = some s') :
    totalRank FineTask.rank n s'.tasks < totalRank FineTask.rank n s.tasks := by
  obtain ⟨t, event⟩ := label
  have fits := h.fits t
  cases fineKernel_step step with
  | call user op => exact proceeds.elim
  | interrupt waits interrupted =>
    rw [show _ = false from proceeds] at interrupted
    cases interrupted
  | acquire waits =>
    rename_i op env _ _
    simp only [Fits, waits] at fits
    apply totalRank_update fits.1
    have enters := enter_rank env (s.tasks t).fpos op
    simp only [FineTask.rank, waits]
    omega
  | access here more =>
    rename_i op env sec
    simp only [Fits, here] at fits
    apply totalRank_update fits.1
    have lower := sec.step_rank s.driver (s.tasks t).fpos more
    simp only [FineTask.rank, here]
    omega
  | release here =>
    rename_i op env answer
    simp only [Fits, here] at fits
    apply totalRank_update fits.1
    cases op <;> simp [FineTask.rank, here, FileOp.left]
  | escape here => exact (h.notEscaped here).elim
  | seek here =>
    simp only [Fits, here] at fits
    apply totalRank_update fits
    simp [FineTask.rank, here]

/-- The task that has the lock can go on; when none has it, one that waits for it can take it. -/
theorem Busy.moves (h : Busy n s) (calling : (s.tasks t).pc ≠ .user) :
    ∃ label s', label.2.Proceeds ∧ fineKernel.step s label = some s' := by
  obtain ⟨f, d, represents, _⟩ := h.represents
  have insider {u : Nat} {op : FileOp} {env : CallEnv} {sec : Section} (here : (s.tasks u).pc = .inside op env sec) :
      ∃ label s', label.2.Proceeds ∧ fineKernel.step s label = some s' := by
    cases sec with
    | out answer => exact ⟨(u, .unlock), _, trivial, by simp only [fineKernel, here]; rfl⟩
    | dead => exact (h.alive here).elim
    | _ => exact ⟨(u, .access), _, trivial, by simp [fineKernel, here, Section.ended]; rfl⟩
  cases held : s.lock with
  | some u =>
    have inside := (represents.exclusive u).mpr held
    cases here : (s.tasks u).pc with
    | inside op env sec => exact insider here
    | _ => simp [FineTask.Inside, here] at inside
  | none =>
    cases here : (s.tasks t).pc with
    | user => exact (calling here).elim
    | waiting op => exact ⟨(t, .lock {}), _, rfl, by simp [fineKernel, here, held]; rfl⟩
    | inside op env sec => exact insider here
    | escaped op => exact (h.notEscaped here).elim
    | seeking offSet whence devSize => exact ⟨(t, .seek), _, trivial, by simp only [fineKernel, here]; rfl⟩

theorem busy_init (n : Nat) : Busy n {} where
  represents := ⟨Files.init, LogDevice.init, Represents.init, Files.Represents.init⟩
  fits _ := trivial

theorem orderly_of_proceeds (proceeds : label.2.Proceeds) : Orderly n s label := by
  obtain ⟨t, event⟩ := label
  cases event with
  | call op => exact proceeds.elim
  | lock env => exact proceeds
  | _ => trivial

theorem busy_run (busy : Busy n s) (orderly : fineKernel.Along (Orderly n) s labels)
    (run : fineKernel.run s labels = some s') : Busy n s' :=
  Machine.run_invariant (fun busy orderly step => busy.step orderly step) busy orderly run

theorem Busy.rank_le (h : Busy n s) (t : Nat) : (s.tasks t).rank ≤ 17 := by
  have fits := h.fits t
  unfold FineTask.rank
  split
  · decide
  · decide
  · decide
  · rename_i here
    simp only [Fits, here] at fits
    omega
  · decide

/-- Whatever `n` tasks have called, and however the steps of their calls are scheduled, all have returned after at
most `17 * n` steps, and until then one of them can take the next: no deadlock, and no call that goes on for ever. -/
theorem calls_complete (orderly : fineKernel.Along (Orderly n) {} labels) (run : fineKernel.run {} labels = some s)
    (proceeds : ∀ label ∈ more, label.2.Proceeds) (later : fineKernel.run s more = some s') :
    more.length ≤ 17 * n ∧
      ((∃ t, (s'.tasks t).pc ≠ .user) → ∃ label s'', label.2.Proceeds ∧ fineKernel.step s' label = some s'') := by
  have busy : Busy n s := busy_run (busy_init n) orderly run
  have proceed : fineKernel.Along (fun _ label => label.2.Proceeds) s more := Machine.along_of_forall proceeds
  have onward : fineKernel.Along (Orderly n) s more := Machine.along_mono (fun _ _ => orderly_of_proceeds) proceed
  have guarded : fineKernel.Along (fun s label => Busy n s ∧ label.2.Proceeds) s more :=
    Machine.along_keeping (fun busy proceeds step => busy.step (orderly_of_proceeds proceeds) step) busy proceed
  have bound := Machine.length_le (fun both step => both.1.lowers both.2 step) guarded later
  have whole := totalRank_le (n := n) busy.rank_le
  refine ⟨by omega, ?_⟩
  intro calling
  obtain ⟨t, calling⟩ := calling
  exact (busy_run busy onward later).moves calling

/-- A writer waits for the lock that a reader has, and a third task seeks to the end. -/
theorem calls_complete_waiting :
    let labels : List (Nat × FineEvent) := [(0, .call (.read 5)), (1, .call (.write [97, newline])),
      (2, .call (.llseek 0 seekEnd)), (0, .lock {}), (0, .access)]
    let more : List (Nat × FineEvent) := [(0, .access), (0, .access)]
    let s := (fineKernel.run {} labels).getD {}
    let s' := (fineKernel.run s more).getD s
    more.length ≤ 17 * 3 ∧
      ((∃ t, (s'.tasks t).pc ≠ .user) → ∃ label s'', label.2.Proceeds ∧ fineKernel.step s' label = some s'') := by
  intro labels more s s'
  have run := Machine.run_getD (m := fineKernel) (s := {}) (l := labels) (by decide +kernel) {}
  have later := Machine.run_getD (m := fineKernel) (s := s) (l := more) (by decide +kernel) s
  exact calls_complete (by decide +kernel) run (by decide) later

end FineKernel
end Aesd
