import Aesd.Driver.Device
import Aesd.Library.Lock
import Aesd.Library.Machine

/-!
# The device's lock

Any number of tasks in `aesd_read`, `aesd_write` and `aesd_llseek`, one lock,
body or unlock step at a time. An interrupted `aesd_write` or `get_buffer_size`
goes to `out` and unlocks what it never locked; an interrupted `aesd_read`
returns.
-/

namespace Aesd
open Library

inductive FileOp where
  | read (count : Nat)
  | write (buf : List UInt8)
  | llseek (offSet whence : Int)

/-- Where a task is: outside, at its lock, in the body, at its unlock with the value to return, in `aesd_llseek`
after `get_buffer_size`, or faulted. -/
inductive Pc where
  | user
  | locking (op : FileOp)
  | body (op : FileOp)
  | unlocking (op : FileOp) (interrupted : Bool) (retval : Int)
  | seeking (offSet whence devSize : Int)
  | dead

structure Task where
  pc : Pc := .user
  fpos : Int := 0

structure Kernel where
  lock : Option Nat := none
  driver : Driver := Driver.init
  tasks : Nat → Task := fun _ => {}

inductive Event where
  | call (op : FileOp)
  | lock (interrupted : Bool)
  | body (env : CallEnv)
  | unlock
  | seek

namespace FileOp

/-- The body: the device, `*f_pos` and the value to return; `none` for a fault. -/
def locked (env : CallEnv) (s : Driver) (fpos : Int) : FileOp → Option (Driver × Int × Int)
  | read count =>
    let res := aesdReadLocked env count s fpos
    some (s, res.fpos, res.retval)
  | write buf =>
    let res := aesdWriteLocked env buf s fpos
    if res.oops then none else some (res.state, res.fpos, res.retval)
  | llseek _ _ => some (s, fpos, slotSum s.dev.buffer maxWriteOperations)

def interrupted : FileOp → Pc
  | read _ => .user
  | write buf => .unlocking (write buf) true (-erestartsys)
  | llseek offSet whence => .unlocking (llseek offSet whence) true (-enomem)

def unlocked (retval : Int) : FileOp → Pc
  | llseek offSet whence => .seeking offSet whence retval
  | _ => .user

end FileOp

/-- `mutex_unlock` frees the lock whoever holds it. -/
def kernel : Machine Kernel (Nat × Event) where
  step s label :=
    let t := label.1
    let task := s.tasks t
    match task.pc, label.2 with
    | .user, .call op => some { s with tasks := Function.update s.tasks t { task with pc := .locking op } }
    | .locking op, .lock true =>
      some { s with tasks := Function.update s.tasks t { task with pc := op.interrupted } }
    | .locking op, .lock false =>
      if s.lock = none then
        some { s with lock := some t, tasks := Function.update s.tasks t { task with pc := .body op } }
      else none
    | .body op, .body env =>
      match op.locked env s.driver task.fpos with
      | none => some { s with tasks := Function.update s.tasks t { task with pc := .dead } }
      | some (driver, fpos, retval) =>
        some { s with driver, tasks := Function.update s.tasks t ⟨.unlocking op false retval, fpos⟩ }
    | .unlocking op _ retval, .unlock =>
      some { s with lock := none, tasks := Function.update s.tasks t { task with pc := op.unlocked retval } }
    | .seeking offSet whence devSize, .seek =>
      some { s with
        tasks := Function.update s.tasks t ⟨.user, (seekWithin devSize offSet whence task.fpos).2⟩ }
    | _, _ => none

/-- Between a successful acquire and its own unlock. -/
def Task.Inside (task : Task) : Prop :=
  match task.pc with
  | .body _ | .unlocking _ false _ | .dead => True
  | _ => False

instance (task : Task) : Decidable task.Inside := by
  unfold Task.Inside; split <;> infer_instance

def UnlockByOwner (s : Kernel) (label : Nat × Event) : Prop :=
  match label.2 with
  | .unlock => s.lock = some label.1
  | _ => True

/-- Not an unlock by a task whose `mutex_lock_interruptible` was interrupted. -/
def NoEscape (s : Kernel) (label : Nat × Event) : Prop :=
  match (s.tasks label.1).pc, label.2 with
  | .unlocking _ true _, .unlock => False
  | _, _ => True

structure Disciplined (labels : List (Nat × Event)) : Prop where
  unlocks : kernel.Along UnlockByOwner {} labels
  exclusive : ∀ earlier later s, labels = earlier ++ later → kernel.run {} earlier = some s →
    ∀ t u, (s.tasks t).Inside → (s.tasks u).Inside → t = u

variable {s s' : Kernel} {t : Nat} {event : Event} {label : Nat × Event} {labels : List (Nat × Event)}

instance (s : Kernel) (label : Nat × Event) : Decidable (NoEscape s label) := by
  unfold NoEscape; split <;> infer_instance

theorem kernel_step (step : kernel.step s (t, event) = some s') :
    ∃ task, s'.tasks = Function.update s.tasks t task ∧
      ((¬ (s.tasks t).Inside ∧ task.Inside ∧ s.lock = none ∧ s'.lock = some t ∧ event = .lock false) ∨
      ((s.tasks t).Inside ∧ ¬ task.Inside ∧ s'.lock = none ∧ event = .unlock) ∨
      (¬ (s.tasks t).Inside ∧ ¬ task.Inside ∧ s'.lock = none ∧ event = .unlock ∧ ¬ NoEscape s (t, event)) ∨
      ((task.Inside ↔ (s.tasks t).Inside) ∧ s'.lock = s.lock ∧ event ≠ .unlock)) := by
  simp only [kernel] at step
  split at step
  case h_1 op user =>
    obtain rfl := Option.some.inj step
    exact ⟨_, rfl, Or.inr (Or.inr (Or.inr (by simp [Task.Inside, user])))⟩
  case h_2 op locking =>
    obtain rfl := Option.some.inj step
    refine ⟨_, rfl, Or.inr (Or.inr (Or.inr ⟨?_, rfl, nofun⟩))⟩
    cases op <;> simp [Task.Inside, FileOp.interrupted, locking]
  case h_3 op locking =>
    split at step
    · rename_i free
      obtain rfl := Option.some.inj step
      exact ⟨_, rfl, Or.inl (by simp [Task.Inside, locking, free])⟩
    · cases step
  case h_4 op env body =>
    split at step
    all_goals
      obtain rfl := Option.some.inj step
      exact ⟨_, rfl, Or.inr (Or.inr (Or.inr (by simp [Task.Inside, body])))⟩
  case h_5 op interrupted retval unlocking =>
    obtain rfl := Option.some.inj step
    have outside : ¬ ({ s.tasks t with pc := op.unlocked retval } : Task).Inside := by
      cases op <;> simp [Task.Inside, FileOp.unlocked]
    cases interrupted with
    | true => exact ⟨_, rfl, Or.inr (Or.inr (Or.inl
        ⟨by simp [Task.Inside, unlocking], outside, rfl, rfl, by simp [NoEscape, unlocking]⟩))⟩
    | false => exact ⟨_, rfl, Or.inr (Or.inl ⟨by simp [Task.Inside, unlocking], outside, rfl, rfl⟩)⟩
  case h_6 offSet whence devSize seeking =>
    obtain rfl := Option.some.inj step
    exact ⟨_, rfl, Or.inr (Or.inr (Or.inr (by simp [Task.Inside, seeking])))⟩
  case h_7 => cases step

theorem kernel_exclusive (h : Exclusive Task.Inside s.lock s.tasks) (stays : NoEscape s label)
    (step : kernel.step s label = some s') : Exclusive Task.Inside s'.lock s'.tasks := by
  obtain ⟨t, event⟩ := label
  obtain ⟨task, moved, ⟨_, inside, free, taken, _⟩ | ⟨held, outside, freed, _⟩ | ⟨_, _, _, _, escapes⟩ |
    ⟨same, kept, _⟩⟩ := kernel_step step
  · rw [moved, taken]
    rw [free] at h
    exact h.acquire inside
  · rw [moved, freed]
    exact h.release held outside
  · exact (escapes stays).elim
  · rw [moved, kept]
    exact h.within same

theorem unlockByOwner_iff (h : Exclusive Task.Inside s.lock s.tasks) (step : kernel.step s label = some s') :
    UnlockByOwner s label ↔ NoEscape s label := by
  obtain ⟨t, event⟩ := label
  obtain ⟨task, _, ⟨_, _, _, _, rfl⟩ | ⟨held, _, _, rfl⟩ | ⟨outside, _, _, rfl, escapes⟩ | ⟨_, _, other⟩⟩ :=
    kernel_step step
  · simp [UnlockByOwner, NoEscape]
  · apply iff_of_true ((h t).mp held)
    unfold NoEscape
    split
    · rename_i unlocking _
      simp [Task.Inside, unlocking] at held
    · trivial
  · exact iff_of_false (fun owner => outside ((h t).mpr owner)) escapes
  · cases event <;> simp_all [UnlockByOwner, NoEscape]

theorem init_exclusive : Exclusive Task.Inside ({} : Kernel).lock ({} : Kernel).tasks :=
  Exclusive.initial fun _ => id

/-- A run is disciplined exactly when no call whose lock was interrupted goes on to unlock. -/
theorem disciplined_iff (run : kernel.run {} labels = some s) :
    Disciplined labels ↔ kernel.Along NoEscape {} labels := by
  constructor
  · intro disciplined
    refine (Machine.run_induction (P := fun labels s => kernel.Along NoEscape {} labels ∧
      Exclusive Task.Inside s.lock s.tasks) ⟨trivial, init_exclusive⟩ ?_ disciplined.unlocks run).1
    intro labels s label s' before both byOwner step
    obtain ⟨stays, exclusive⟩ := both
    have here := (unlockByOwner_iff exclusive step).mp byOwner
    exact ⟨(Machine.along_snoc before).mpr ⟨stays, here⟩, kernel_exclusive exclusive here step⟩
  · intro stays
    have all : ∀ earlier later s, labels = earlier ++ later → kernel.run {} earlier = some s →
        kernel.Along UnlockByOwner {} earlier ∧ Exclusive Task.Inside s.lock s.tasks := by
      refine Machine.on_the_way (P := fun labels s => kernel.Along UnlockByOwner {} labels ∧
        Exclusive Task.Inside s.lock s.tasks) ⟨trivial, init_exclusive⟩ ?_ stays
      intro labels s label s' before both here step
      obtain ⟨byOwner, exclusive⟩ := both
      exact ⟨(Machine.along_snoc before).mpr ⟨byOwner, (unlockByOwner_iff exclusive step).mpr here⟩,
        kernel_exclusive exclusive here step⟩
    refine ⟨(all labels [] s (List.append_nil _).symm run).1, ?_⟩
    intro earlier later s split reached t u
    exact (all earlier later s split reached).2.unique

theorem interrupted_read_disciplined : Disciplined [(0, .call (.write [65])), (0, .lock false), (1, .call (.read 1)),
    (1, .lock true), (0, .body {}), (0, .unlock)] := by
  have run := Machine.run_getD (m := kernel) (s := {}) (l := [(0, .call (.write [65])), (0, .lock false),
    (1, .call (.read 1)), (1, .lock true), (0, .body {}), (0, .unlock)]) (by decide) {}
  exact (disciplined_iff run).mpr (by decide)

/-- Task 1 is interrupted while task 0 is inside, and its unlock lets task 2 in. -/
theorem interrupted_write_unlocks :
    ¬ ∀ (labels : List (Nat × Event)) (s : Kernel), kernel.run {} labels = some s → Disciplined labels := by
  intro disciplined
  let labels : List (Nat × Event) := [(0, .call (.write [65])), (0, .lock false), (1, .call (.write [66])),
    (1, .lock true), (1, .unlock), (2, .call (.write [67])), (2, .lock false)]
  have run := Machine.run_getD (m := kernel) (s := {}) (l := labels) (by decide) {}
  have one := (disciplined labels _ run).exclusive labels [] _ (List.append_nil _).symm run 0 2 (by decide) (by decide)
  cases one

end Aesd
