import Aesd.Driver.Files
import Aesd.Driver.Locking
import Aesd.Library.Countdown

/-!
# Tasks statement by statement

The bodies of `aesd_read`, `aesd_write` and `get_buffer_size` cut at each access
to the device or its memory, so that the tasks' accesses interleave. The lock
puts them back together: as long as no call that was interrupted at the lock goes
on to unlock it, a run is a run of whole calls.
-/

namespace Aesd
open Library

/-- Where a task is between its lock and its unlock. -/
inductive Section where
  -- `aesd_circular_buffer_find_entry_offset_for_fpos` with `left` iterations to go, then the copy
  | finding (env : CallEnv) (count charOffset left i cumulativeOffset : Nat)
  | copyingOut (env : CallEnv) (count value entryOffset : Nat)
  -- `aesd_write` from `kmalloc` to `*f_pos += count`
  | allocating (env : CallEnv) (buf : List UInt8)
  | copyingIn (env : CallEnv) (buf : List UInt8) (newBuff : Pointer)
  | choosing (env : CallEnv) (count : Nat) (newBuff : Pointer)
  | reallocating (env : CallEnv) (count : Nat) (newBuff : Pointer)
  | moving (env : CallEnv) (count : Nat) (newBuff combinedBuff : Pointer)
  | joining (env : CallEnv) (count : Nat) (newBuff combinedBuff : Pointer)
  | freeing (env : CallEnv) (count : Nat) (newBuff combinedBuff : Pointer)
  | pointing (env : CallEnv) (count : Nat) (buffptr : Pointer)
  | sizing (env : CallEnv) (count : Nat)
  | testing (count : Nat)
  | adding (count : Nat)
  | clearing (count : Nat)
  | counting (count : Nat)
  -- `kfree(new_buff)` on the way out
  | discarding (newBuff : Pointer) (error : Int)
  -- the loop of `get_buffer_size`
  | summing (i : Nat) (bufferSize : Int)
  | out (reply : Reply)
  | dead

namespace Section

def enter (env : CallEnv) (fpos : Int) : FileOp → Section
  | .read count => finding env count (toSizeT fpos) maxWriteOperations 0 0
  | .write buf => allocating env buf
  | .llseek _ _ => summing 0 0

/-- One access: the next place, the device and `*f_pos`. -/
def step (s : Driver) (fpos : Int) : Section → Section × Driver × Int
  | finding _ _ _ 0 _ _ => (out ⟨0, []⟩, s, fpos)
  | finding env count charOffset (left + 1) i cumulativeOffset =>
    let value := (i + s.dev.buffer.outOffs) % maxWriteOperations
    let sum := sizeT (cumulativeOffset + (s.dev.buffer.slot value).size)
    if sum > charOffset then (copyingOut env count value (sizeSub charOffset cumulativeOffset), s, fpos)
    else (finding env count charOffset left (i + 1) sum, s, fpos)
  | copyingOut env count value entryOffset =>
    let entry := s.dev.buffer.slot value
    let bytesToRead := min count (sizeSub entry.size entryOffset)
    if min env.notCopied bytesToRead ≠ 0 then (out ⟨-efault, []⟩, s, fpos)
    else (out ⟨loffT bytesToRead, (s.heap.bytes env.junk entry.buffptr (entryOffset + bytesToRead)).drop entryOffset⟩,
      s, loffT (fpos + bytesToRead))
  | allocating env buf =>
    match s.heap.kmalloc buf.length env.kmallocAt env.junk with
    | none => (out ⟨-enomem, []⟩, s, fpos)
    | some (newBuff, heap) => (copyingIn env buf newBuff, { s with heap }, fpos)
  | copyingIn env buf newBuff =>
    if min env.notCopied buf.length ≠ 0 then (discarding newBuff efault, s, fpos)
    else (choosing env buf.length newBuff, { s with heap := s.heap.store newBuff 0 buf }, fpos)
  | choosing env count newBuff =>
    if s.dev.entry.buffptr = .null then (pointing env count newBuff, s, fpos)
    else (reallocating env count newBuff, s, fpos)
  | reallocating env count newBuff =>
    match s.heap.krealloc s.dev.entry.buffptr (sizeT (s.dev.entry.size + count)) env.kreallocAt env.junk with
    | none => (discarding newBuff enomem, s, fpos)
    | some (combinedBuff, heap) => (moving env count newBuff combinedBuff, { s with heap }, fpos)
  | moving env count newBuff combinedBuff =>
    (joining env count newBuff combinedBuff, { s with
      heap := s.heap.store combinedBuff 0 (s.heap.bytes env.junk s.dev.entry.buffptr s.dev.entry.size) }, fpos)
  | joining env count newBuff combinedBuff =>
    (freeing env count newBuff combinedBuff, { s with
      heap := s.heap.store combinedBuff s.dev.entry.size (s.heap.bytes env.junk newBuff count) }, fpos)
  | freeing env count newBuff combinedBuff =>
    (pointing env count combinedBuff, { s with heap := s.heap.kfree newBuff }, fpos)
  | pointing env count buffptr =>
    (sizing env count, { s with dev := { s.dev with entry := { s.dev.entry with buffptr } } }, fpos)
  | sizing _ count =>
    (testing count, { s with dev := { s.dev with
      entry := { s.dev.entry with size := sizeT (s.dev.entry.size + count) } } }, fpos)
  | testing count =>
    match s.heap.load s.dev.entry.buffptr (sizeSub s.dev.entry.size 1) with
    | none => (dead, s, fpos)
    | some last => (if last = newline then adding count else counting count, s, fpos)
  | adding count => (clearing count, { s with dev := { s.dev with buffer := s.dev.buffer.addEntry s.dev.entry } }, fpos)
  | clearing count => (counting count, { s with dev := { s.dev with entry := .unused } }, fpos)
  | counting count => (out ⟨loffT count, []⟩, s, loffT (fpos + count))
  | discarding newBuff error => (out ⟨-error, []⟩, { s with heap := s.heap.kfree newBuff }, fpos)
  | summing i bufferSize =>
    if i < maxWriteOperations then (summing (i + 1) (loffT (bufferSize + (s.dev.buffer.slot i).size)), s, fpos)
    else (out ⟨bufferSize, []⟩, s, fpos)
  | out reply => (out reply, s, fpos)
  | dead => (dead, s, fpos)

def ended : Section → Bool
  | out _ | dead => true
  | _ => false

def rank : Section → Nat
  | finding _ _ _ left _ _ => left + 2
  | copyingOut .. => 1
  | allocating .. => 14
  | copyingIn .. => 13
  | choosing .. => 12
  | reallocating .. => 11
  | moving .. => 10
  | joining .. => 9
  | freeing .. => 8
  | pointing .. => 7
  | sizing .. => 6
  | testing _ => 5
  | adding _ => 4
  | clearing _ => 3
  | counting _ => 2
  | discarding .. => 1
  | summing i _ => maxWriteOperations - i + 1
  | out _ | dead => 0

theorem step_rank (sec : Section) (s : Driver) (fpos : Int) (more : sec.ended = false) :
    (sec.step s fpos).1.rank < sec.rank := by
  cases sec with
  | finding env count charOffset left i cumulativeOffset =>
    cases left with
    | zero => simp [step, rank]
    | succ left =>
      simp only [step]
      split <;> simp [rank]
  | summing i bufferSize =>
    simp only [step]
    split
    · rename_i inside
      have ten : i < 10 := inside
      simp only [rank]
      omega
    · simp [rank]
  | out reply => cases more
  | dead => cases more
  | _ =>
    simp only [step]
    repeat' split
    all_goals simp [rank]

end Section

def sections : Countdown (Section × Driver × Int) where
  step x := if x.1.ended then none else some (x.1.step x.2.1 x.2.2)
  rank x := x.1.rank
  descends := by
    intro x y step
    split at step
    · cases step
    · rename_i more
      obtain rfl := Option.some.inj step
      exact x.1.step_rank x.2.1 x.2.2 (by simpa using more)

/-! ### A whole body -/

def WriteResult.place (res : WriteResult) : Section × Driver × Int :=
  (if res.oops then .dead else .out ⟨res.retval, []⟩, res.state, res.fpos)

/-- Where the body of a call leads when nothing comes in between. -/
def FileOp.outcome (env : CallEnv) (s : Driver) (fpos : Int) : FileOp → Section × Driver × Int
  | read count =>
    let res := aesdReadLocked env count s fpos
    (.out ⟨res.retval, res.data⟩, s, res.fpos)
  | write buf => (aesdWriteLocked env buf s fpos).place
  | llseek _ _ => (.out ⟨slotSum s.dev.buffer maxWriteOperations, []⟩, s, fpos)

section
variable {env : CallEnv} {s : Driver} {fpos : Int} {sec : Section}

theorem final_next (more : sec.ended = false) :
    sections.final (sec, s, fpos) = sections.final (sec.step s fpos) := by
  apply Countdown.final_step
  simp [sections, more]

theorem final_ended (ended : sec.ended = true) : sections.final (sec, s, fpos) = (sec, s, fpos) := by
  apply Countdown.final_stopped
  simp [sections, ended]

theorem final_finding (env : CallEnv) (count charOffset left i cumulativeOffset : Nat) :
    sections.final (.finding env count charOffset left i cumulativeOffset, s, fpos) =
      match s.dev.buffer.findLoop charOffset left i cumulativeOffset with
      | none => (.out ⟨0, []⟩, s, fpos)
      | some (value, entryOffset) => sections.final (.copyingOut env count value entryOffset, s, fpos) := by
  induction left generalizing i cumulativeOffset with
  | zero => rw [final_next rfl, Section.step, final_ended rfl, CircularBuffer.findLoop]
  | succ left ih =>
    rw [final_next rfl, Section.step, CircularBuffer.findLoop]
    split
    · rfl
    · exact ih _ _

theorem final_read (count : Nat) :
    sections.final (.enter env fpos (.read count), s, fpos) = FileOp.outcome env s fpos (.read count) := by
  rw [Section.enter, final_finding, FileOp.outcome, aesdReadLocked, CircularBuffer.findEntryOffsetForFpos]
  cases found : s.dev.buffer.findLoop (toSizeT fpos) maxWriteOperations 0 0 with
  | none => rfl
  | some hit =>
    obtain ⟨value, entryOffset⟩ := hit
    simp only
    rw [final_next rfl, Section.step]
    split <;> rw [final_ended rfl]

theorem final_summing (i left : Nat) (bufferSize : Int) (count : left + i = maxWriteOperations) :
    sections.final (.summing i bufferSize, s, fpos) = (.out ⟨(List.range' i left).foldl
      (fun sum j => loffT (sum + (s.dev.buffer.slot j).size)) bufferSize, []⟩, s, fpos) := by
  induction left generalizing i bufferSize with
  | zero =>
    rw [final_next rfl, Section.step, if_neg (by omega), final_ended rfl]
    rfl
  | succ left ih =>
    rw [final_next rfl, Section.step, if_pos (by omega), ih _ _ (by omega)]
    rfl

theorem final_counting (count : Nat) : sections.final (.counting count, s, fpos) =
    (.out ⟨loffT count, []⟩, s, loffT (fpos + count)) := by
  rw [final_next rfl, Section.step, final_ended rfl]

theorem final_testing (env : CallEnv) (count : Nat) :
    sections.final (.testing count, s, fpos) = (commitEntry env s count fpos).place := by
  rw [final_next rfl, Section.step, commitEntry]
  cases s.heap.load s.dev.entry.buffptr (sizeSub s.dev.entry.size 1) with
  | none => exact final_ended rfl
  | some last =>
    simp only [WriteResult.place]
    split
    · rw [final_next rfl, Section.step, final_next rfl, Section.step, final_counting]
      simp only [Bool.false_eq_true, if_false]
    · rw [final_counting]
      simp only [Bool.false_eq_true, if_false]

theorem final_pointing (count : Nat) (buffptr : Pointer) : sections.final (.pointing env count buffptr, s, fpos) =
    (commitEntry env { s with dev := { s.dev with entry := ⟨buffptr, sizeT (s.dev.entry.size + count)⟩ } } count
      fpos).place := by
  rw [final_next rfl, Section.step, final_next rfl, Section.step, final_testing env]

theorem final_choosing (count : Nat) (newBuff : Pointer) : sections.final (.choosing env count newBuff, s, fpos) =
    match growEntry env s newBuff count with
    | none => (.out ⟨-enomem, []⟩, { s with heap := s.heap.kfree newBuff }, fpos)
    | some t => (commitEntry env t count fpos).place := by
  rw [final_next rfl, Section.step, growEntry]
  by_cases fresh : s.dev.entry.buffptr = .null
  · simp only [if_pos fresh]
    rw [final_pointing]
  · simp only [if_neg fresh]
    rw [final_next rfl, Section.step]
    cases s.heap.krealloc s.dev.entry.buffptr (sizeT (s.dev.entry.size + count)) env.kreallocAt env.junk with
    | none =>
      simp only
      rw [final_next rfl, Section.step, final_ended rfl]
    | some grown =>
      simp only
      rw [final_next rfl, Section.step, final_next rfl, Section.step, final_next rfl, Section.step, final_pointing]

theorem final_write (buf : List UInt8) :
    sections.final (.enter env fpos (.write buf), s, fpos) = FileOp.outcome env s fpos (.write buf) := by
  rw [Section.enter, FileOp.outcome, aesdWriteLocked, final_next rfl, Section.step]
  cases s.heap.kmalloc buf.length env.kmallocAt env.junk with
  | none =>
    simp only
    rw [final_ended rfl]
    rfl
  | some found =>
    simp only
    rw [final_next rfl, Section.step]
    by_cases missing : min env.notCopied buf.length ≠ 0
    · simp only [if_pos missing]
      rw [final_next rfl, Section.step, final_ended rfl]
      rfl
    · simp only [if_neg missing]
      rw [final_choosing]
      cases growEntry env { s with heap := found.2.store found.1 0 buf } found.1 buf.length <;> rfl

/-- The accesses of a body, one after the other, are the body. -/
theorem final_enter (op : FileOp) : sections.final (.enter env fpos op, s, fpos) = op.outcome env s fpos := by
  cases op with
  | read count => exact final_read count
  | write buf => exact final_write buf
  | llseek offSet whence =>
    rw [Section.enter, final_summing 0 maxWriteOperations 0 rfl, ← List.range_eq_range']
    rfl

end

/-! ### The tasks -/

/-- Outside, at the lock, in the body, at the unlock without the lock, in `aesd_llseek` after `get_buffer_size`. -/
inductive FinePc where
  | user
  | waiting (op : FileOp)
  | inside (op : FileOp) (env : CallEnv) (sec : Section)
  | escaped (op : FileOp)
  | seeking (offSet whence devSize : Int)

structure FineTask where
  pc : FinePc := .user
  fpos : Int := 0

structure FineKernel where
  lock : Option Nat := none
  driver : Driver := Driver.init
  tasks : Nat → FineTask := fun _ => {}

inductive FineEvent where
  | call (op : FileOp)
  | lock (env : CallEnv)
  | access
  | unlock
  | seek

namespace FileOp

def operation : FileOp → Operation
  | read count => .read count
  | write buf => .write buf
  | llseek offSet whence => .llseek offSet whence

def stopped : FileOp → FinePc
  | read _ => .user
  | op => .escaped op

def left (retval : Int) : FileOp → FinePc
  | llseek offSet whence => .seeking offSet whence retval
  | _ => .user

/-- What a call returns when its body comes to `out` with a value. -/
def answer (reply : Reply) (fpos : Int) : FileOp → Reply
  | llseek offSet whence => ⟨(seekWithin reply.retval offSet whence fpos).1, []⟩
  | _ => reply

end FileOp

def fineKernel : Machine FineKernel (Nat × FineEvent) where
  step s label :=
    let t := label.1
    let task := s.tasks t
    match task.pc, label.2 with
    | .user, .call op => some { s with tasks := Function.update s.tasks t { task with pc := .waiting op } }
    | .waiting op, .lock env =>
      if env.interrupted then some { s with tasks := Function.update s.tasks t { task with pc := op.stopped } }
      else if s.lock = none then
        some { s with
          lock := some t
          tasks := Function.update s.tasks t { task with pc := .inside op env (.enter env task.fpos op) } }
      else none
    | .inside op env sec, .access =>
      if sec.ended then none
      else
        let next := sec.step s.driver task.fpos
        some { s with driver := next.2.1, tasks := Function.update s.tasks t ⟨.inside op env next.1, next.2.2⟩ }
    | .inside op _ (.out reply), .unlock =>
      some { s with lock := none, tasks := Function.update s.tasks t { task with pc := op.left reply.retval } }
    | .escaped op, .unlock =>
      some { s with lock := none, tasks := Function.update s.tasks t { task with pc := op.left (-enomem) } }
    | .seeking offSet whence devSize, .seek =>
      some { s with tasks := Function.update s.tasks t ⟨.user, (seekWithin devSize offSet whence task.fpos).2⟩ }
    | _, _ => none

namespace FineTask

def Inside (task : FineTask) : Prop :=
  match task.pc with
  | .inside .. => True
  | _ => False

/-- `f_pos` once the task has done what is left to do outside the lock. -/
def settled (task : FineTask) : Int :=
  match task.pc with
  | .seeking offSet whence devSize => (seekWithin devSize offSet whence task.fpos).2
  | _ => task.fpos

/-- What a task that has left the lock has yet to return. -/
def owed (task : FineTask) : List Reply :=
  match task.pc with
  | .seeking offSet whence devSize => [⟨(seekWithin devSize offSet whence task.fpos).1, []⟩]
  | _ => []

end FineTask

namespace FineKernel

/-- A call interrupted at the lock does not go on to unlock it. -/
def NoEscape (s : FineKernel) (label : Nat × FineEvent) : Prop :=
  match (s.tasks label.1).pc, label.2 with
  | .escaped _, .unlock => False
  | _, _ => True

instance (s : FineKernel) (label : Nat × FineEvent) : Decidable (NoEscape s label) := by
  unfold NoEscape; split <;> infer_instance

/-- The whole call that a step stands for: at the unlock, or where an interrupted read returns. -/
def linearized (s : FineKernel) (label : Nat × FineEvent) : List FileCall :=
  match (s.tasks label.1).pc, label.2 with
  | .waiting (.read count), .lock env => if env.interrupted then [⟨label.1, env, .read count⟩] else []
  | .inside op env (.out _), .unlock => [⟨label.1, env, op.operation⟩]
  | _, _ => []

def returned (s : FineKernel) (label : Nat × FineEvent) : List (Nat × Reply) :=
  match (s.tasks label.1).pc, label.2 with
  | .waiting (.read _), .lock env => if env.interrupted then [(label.1, ⟨-erestartsys, []⟩)] else []
  | .inside (.llseek _ _) _ _, .unlock => []
  | .inside _ _ (.out reply), .unlock => [(label.1, reply)]
  | .seeking offSet whence devSize, .seek =>
    [(label.1, ⟨(seekWithin devSize offSet whence (s.tasks label.1).fpos).1, []⟩)]
  | _, _ => []

/-- The device and the positions between the calls. The task inside is on the way to where its whole call
leads from there. -/
structure Represents (s : FineKernel) (f : Files) : Prop where
  exclusive : Exclusive FineTask.Inside s.lock s.tasks
  free : s.lock = none → s.driver = f.driver
  onward : ∀ t op env sec, (s.tasks t).pc = .inside op env sec → env.interrupted = false ∧
    sections.final (sec, s.driver, (s.tasks t).fpos) = op.outcome env f.driver (f.fpos t)
  outside : ∀ t, ¬ (s.tasks t).Inside → f.fpos t = (s.tasks t).settled

/-- What the call returns, known when it leaves the lock. -/
def answered (s : FineKernel) (label : Nat × FineEvent) : List (Nat × Reply) :=
  match (s.tasks label.1).pc, label.2 with
  | .waiting (.read _), .lock env => if env.interrupted then [(label.1, ⟨-erestartsys, []⟩)] else []
  | .inside op _ (.out reply), .unlock => [(label.1, op.answer reply (s.tasks label.1).fpos)]
  | _, _ => []

end FineKernel

def Files.replies (f : Files) (call : FileCall) : List (Nat × Reply) :=
  [(call.opener, reply call.env f.driver (f.fpos call.opener) call.operation)]

variable {s s' : FineKernel} {f : Files} {t : Nat} {env : CallEnv} {op : FileOp} {sec : Section} {label : Nat × FineEvent}
  {labels : List (Nat × FineEvent)}

/-! ### One step -/

/-- A body that has come to its end is the whole call on the device as it was at the lock. -/
theorem outcome_step {driver : Driver} {fpos : Int} {answer : Reply} (lock : env.interrupted = false)
    (leads : op.outcome env f.driver (f.fpos t) = (.out answer, driver, fpos)) :
    files.step f ⟨t, env, op.operation⟩ = some ⟨driver, Function.update f.fpos t
        ({ pc := op.left answer.retval, fpos } : FineTask).settled⟩ ∧
      reply env f.driver (f.fpos t) op.operation = op.answer answer fpos := by
  cases op with
  | read count =>
    have body : aesdRead env count f.driver (f.fpos t) = aesdReadLocked env count f.driver (f.fpos t) := by
      rw [aesdRead, if_neg (by simp [lock])]
    simp only [FileOp.outcome, Prod.mk.injEq, Section.out.injEq] at leads
    obtain ⟨rfl, rfl, rfl⟩ := leads
    simp only [files, faults, FileOp.operation, perform, reply, body, Bool.false_eq_true, if_false]
    exact ⟨rfl, rfl⟩
  | write buf =>
    have body : aesdWrite env buf f.driver (f.fpos t) = aesdWriteLocked env buf f.driver (f.fpos t) := by
      rw [aesdWrite, if_neg (by simp [lock])]
    simp only [FileOp.outcome, WriteResult.place] at leads
    cases sound : (aesdWriteLocked env buf f.driver (f.fpos t)).oops with
    | true => simp [sound] at leads
    | false =>
      simp only [sound, Bool.false_eq_true, if_false, Prod.mk.injEq, Section.out.injEq] at leads
      obtain ⟨rfl, rfl, rfl⟩ := leads
      simp only [files, faults, FileOp.operation, perform, reply, body, sound, Bool.false_eq_true, if_false]
      exact ⟨rfl, rfl⟩
  | llseek offSet whence =>
    have size : getBufferSize env f.driver = slotSum f.driver.dev.buffer maxWriteOperations := by
      rw [getBufferSize, if_neg (by simp [lock])]
    simp only [FileOp.outcome, Prod.mk.injEq, Section.out.injEq] at leads
    obtain ⟨rfl, rfl, rfl⟩ := leads
    simp only [files, faults, FileOp.operation, perform, reply, aesdLlseek, size, Bool.false_eq_true, if_false,
      FineTask.settled, FileOp.left, FileOp.answer, and_self]

namespace FineKernel

theorem Represents.elsewhere {task : FineTask} (h : s.Represents f) (same : s'.lock = s.lock) (driver : s'.driver = s.driver)
    (tasks : s'.tasks = Function.update s.tasks t task) (before : ¬ (s.tasks t).Inside) (after : ¬ task.Inside)
    (settled : task.settled = (s.tasks t).settled) : s'.Represents f where
  exclusive := by
    rw [same, tasks]
    exact h.exclusive.within (iff_of_false after before)
  free := by
    rw [same, driver]
    exact h.free
  onward := by
    intro u op env sec here
    by_cases me : u = t
    · subst me
      rw [tasks, Function.update_self] at here
      exact (after (by simp [FineTask.Inside, here])).elim
    · rw [tasks, Function.update_of_ne me] at here ⊢
      rw [driver]
      exact h.onward u op env sec here
  outside := by
    intro u out
    by_cases me : u = t
    · subst me
      rw [tasks, Function.update_self, settled]
      exact h.outside u before
    · rw [tasks, Function.update_of_ne me] at out ⊢
      exact h.outside u out

theorem Represents.acquire (h : s.Represents f) (waits : (s.tasks t).pc = .waiting op) (free : s.lock = none)
    (lock : env.interrupted = false) : Represents { s with
      lock := some t
      tasks := Function.update s.tasks t { s.tasks t with pc := .inside op env (.enter env (s.tasks t).fpos op) } } f := by
  have nobody (u : Nat) : ¬ (s.tasks u).Inside := by
    intro inside
    have held := (h.exclusive u).mp inside
    rw [free] at held
    cases held
  refine ⟨?_, by simp, ?_, ?_⟩
  · have exclusive := h.exclusive
    rw [free] at exclusive
    exact exclusive.acquire trivial
  · intro u op' env' sec here
    by_cases me : u = t
    · subst me
      simp only [Function.update_self, FinePc.inside.injEq] at here
      obtain ⟨rfl, rfl, rfl⟩ := here
      have settled := h.outside u (nobody u)
      simp only [FineTask.settled, waits] at settled
      refine ⟨lock, ?_⟩
      simp only [Function.update_self]
      rw [final_enter, settled, ← h.free free]
    · simp only [Function.update_of_ne me] at here
      exact (nobody u (by simp [FineTask.Inside, here])).elim
  · intro u out
    by_cases me : u = t
    · subst me
      simp only [Function.update_self] at out
      exact (out trivial).elim
    · simp only [Function.update_of_ne me] at out ⊢
      exact h.outside u out

theorem Represents.access (h : s.Represents f) (here : (s.tasks t).pc = .inside op env sec) (more : sec.ended = false) :
    Represents { s with
      driver := (sec.step s.driver (s.tasks t).fpos).2.1
      tasks := Function.update s.tasks t
        ⟨.inside op env (sec.step s.driver (s.tasks t).fpos).1, (sec.step s.driver (s.tasks t).fpos).2.2⟩ } f := by
  have inside : (s.tasks t).Inside := by simp [FineTask.Inside, here]
  have held := (h.exclusive t).mp inside
  refine ⟨h.exclusive.within (iff_of_true trivial inside), by simp [held], ?_, ?_⟩
  · intro u op' env' sec' here'
    by_cases me : u = t
    · subst me
      simp only [Function.update_self, FinePc.inside.injEq] at here' ⊢
      obtain ⟨rfl, rfl, rfl⟩ := here'
      obtain ⟨lock, leads⟩ := h.onward u op env sec here
      rw [final_next more] at leads
      exact ⟨lock, leads⟩
    · simp only [Function.update_of_ne me] at here'
      exact (me (h.exclusive.unique (by simp [FineTask.Inside, here']) inside)).elim
  · intro u out
    by_cases me : u = t
    · subst me
      simp only [Function.update_self] at out
      exact (out trivial).elim
    · simp only [Function.update_of_ne me] at out ⊢
      exact h.outside u out

theorem Represents.release {answer : Reply} (h : s.Represents f) (here : (s.tasks t).pc = .inside op env (.out answer)) :
    ∃ f', files.step f ⟨t, env, op.operation⟩ = some f' ∧
      reply env f.driver (f.fpos t) op.operation = op.answer answer (s.tasks t).fpos ∧
      Represents { s with
        lock := none
        tasks := Function.update s.tasks t { s.tasks t with pc := op.left answer.retval } } f' := by
  have inside : (s.tasks t).Inside := by simp [FineTask.Inside, here]
  have outside : ¬ ({ s.tasks t with pc := op.left answer.retval } : FineTask).Inside := by
    cases op <;> simp [FineTask.Inside, FileOp.left]
  obtain ⟨lock, leads⟩ := h.onward t op env _ here
  rw [final_ended rfl] at leads
  obtain ⟨step, replied⟩ := outcome_step lock leads.symm
  refine ⟨_, step, replied, h.exclusive.release inside outside, fun _ => rfl, ?_, ?_⟩
  · intro u op' env' sec' here'
    by_cases me : u = t
    · subst me
      simp only [Function.update_self] at here'
      exact (outside (by simp [FineTask.Inside, here'])).elim
    · simp only [Function.update_of_ne me] at here'
      exact (me (h.exclusive.unique (by simp [FineTask.Inside, here']) inside)).elim
  · intro u out
    by_cases me : u = t
    · subst me
      simp only [Function.update_self]
    · simp only [Function.update_of_ne me] at out ⊢
      exact h.outside u out

/-- An interrupted read is a whole call that changes nothing. -/
theorem interrupted_read_step (f : Files) (t count : Nat) (interrupted : env.interrupted = true) :
    files.step f ⟨t, env, .read count⟩ = some f ∧
      reply env f.driver (f.fpos t) (.read count) = ⟨-erestartsys, []⟩ := by
  have body : aesdRead env count f.driver (f.fpos t) = ⟨-erestartsys, [], f.fpos t⟩ := by
    rw [aesdRead, if_pos interrupted]
  simp only [files, faults, perform, reply, body, Function.update_eq_self, Bool.false_eq_true, if_false, and_self]

/-- What a step can do. -/
inductive Moves (s : FineKernel) (t : Nat) : FineEvent → FineKernel → Prop where
  | call (user : (s.tasks t).pc = .user) (op : FileOp) : Moves s t (.call op)
      { s with tasks := Function.update s.tasks t { s.tasks t with pc := .waiting op } }
  | interrupt {op : FileOp} {env : CallEnv} (waits : (s.tasks t).pc = .waiting op) (interrupted : env.interrupted = true) :
      Moves s t (.lock env) { s with tasks := Function.update s.tasks t { s.tasks t with pc := op.stopped } }
  | acquire {op : FileOp} {env : CallEnv} (waits : (s.tasks t).pc = .waiting op) (lock : env.interrupted = false)
      (free : s.lock = none) : Moves s t (.lock env) { s with
        lock := some t
        tasks := Function.update s.tasks t { s.tasks t with pc := .inside op env (.enter env (s.tasks t).fpos op) } }
  | access {op : FileOp} {env : CallEnv} {sec : Section} (here : (s.tasks t).pc = .inside op env sec)
      (more : sec.ended = false) : Moves s t .access { s with
        driver := (sec.step s.driver (s.tasks t).fpos).2.1
        tasks := Function.update s.tasks t
          ⟨.inside op env (sec.step s.driver (s.tasks t).fpos).1, (sec.step s.driver (s.tasks t).fpos).2.2⟩ }
  | release {op : FileOp} {env : CallEnv} {answer : Reply} (here : (s.tasks t).pc = .inside op env (.out answer)) :
      Moves s t .unlock { s with
        lock := none
        tasks := Function.update s.tasks t { s.tasks t with pc := op.left answer.retval } }
  | escape {op : FileOp} (here : (s.tasks t).pc = .escaped op) : Moves s t .unlock { s with
        lock := none
        tasks := Function.update s.tasks t { s.tasks t with pc := op.left (-enomem) } }
  | seek {offSet whence devSize : Int} (here : (s.tasks t).pc = .seeking offSet whence devSize) : Moves s t .seek
      { s with tasks := Function.update s.tasks t ⟨.user, (seekWithin devSize offSet whence (s.tasks t).fpos).2⟩ }

theorem fineKernel_step {event : FineEvent} (step : fineKernel.step s (t, event) = some s') : Moves s t event s' := by
  simp only [fineKernel] at step
  split at step
  case h_1 op user =>
    obtain rfl := Option.some.inj step
    exact .call user op
  case h_2 op env waits =>
    split at step
    · rename_i interrupted
      obtain rfl := Option.some.inj step
      exact .interrupt waits interrupted
    · rename_i lock
      split at step
      · rename_i free
        obtain rfl := Option.some.inj step
        exact .acquire waits (by simpa using lock) free
      · cases step
  case h_3 op env sec here =>
    split at step
    · cases step
    · rename_i more
      obtain rfl := Option.some.inj step
      exact .access here (by simpa using more)
  case h_4 op env answer here =>
    obtain rfl := Option.some.inj step
    exact .release here
  case h_5 op here =>
    obtain rfl := Option.some.inj step
    exact .escape here
  case h_6 offSet whence devSize here =>
    obtain rfl := Option.some.inj step
    exact .seek here
  case h_7 => cases step

theorem Represents.step (h : s.Represents f) (stays : s.NoEscape label) (step : fineKernel.step s label = some s') :
    ∃ f', files.run f (s.linearized label) = some f' ∧ s'.Represents f' ∧
      s.answered label = files.observe Files.replies f (s.linearized label) := by
  obtain ⟨t, event⟩ := label
  cases fineKernel_step step with
  | call user op =>
    refine ⟨f, by simp [linearized, user], ?_, by simp [answered, linearized, user, Machine.observe]⟩
    exact h.elsewhere rfl rfl rfl (by simp [FineTask.Inside, user]) (by simp [FineTask.Inside])
      (by simp [FineTask.settled, user])
  | interrupt waits interrupted =>
    rename_i op env
    have after : Represents { s with tasks := Function.update s.tasks t { s.tasks t with pc := op.stopped } } f :=
      h.elsewhere rfl rfl rfl (by simp [FineTask.Inside, waits]) (by cases op <;> simp [FineTask.Inside, FileOp.stopped])
        (by cases op <;> simp [FineTask.settled, waits, FileOp.stopped])
    cases op with
    | read count =>
      obtain ⟨same, replied⟩ := interrupted_read_step f t count interrupted
      refine ⟨f, ?_, after, ?_⟩
      · simp only [linearized, waits, if_pos interrupted, Machine.run, same, Option.bind_some]
      · simp only [answered, linearized, waits, if_pos interrupted, Machine.observe, Files.replies, replied, same,
          Option.elim_some, List.append_nil]
    | write buf => exact ⟨f, by simp [linearized, waits], after, by simp [answered, linearized, waits, Machine.observe]⟩
    | llseek offSet whence =>
      exact ⟨f, by simp [linearized, waits], after, by simp [answered, linearized, waits, Machine.observe]⟩
  | acquire waits lock free =>
    rename_i op env
    refine ⟨f, ?_, h.acquire waits free lock, ?_⟩
    · cases op <;> simp [linearized, waits, lock]
    · cases op <;> simp [answered, linearized, waits, lock, Machine.observe]
  | access here more =>
    refine ⟨f, ?_, h.access here more, ?_⟩
    · simp [linearized, here]
    · simp [answered, linearized, here, Machine.observe]
  | release here =>
    obtain ⟨f', taken, replied, after⟩ := h.release here
    refine ⟨f', ?_, after, ?_⟩
    · simp only [linearized, here, Machine.run, taken, Option.bind_some]
    · simp only [answered, linearized, here, Machine.observe, Files.replies, replied, taken, Option.elim_some,
        List.append_nil]
  | escape here => simp [NoEscape, here] at stays
  | seek here =>
    refine ⟨f, by simp [linearized, here], ?_, by simp [answered, linearized, here, Machine.observe]⟩
    exact h.elsewhere rfl rfl rfl (by simp [FineTask.Inside, here]) (by simp [FineTask.Inside])
      (by simp [FineTask.settled, here])

theorem Represents.init : Represents {} Files.init where
  exclusive := Exclusive.initial fun _ => id
  free _ := rfl
  onward t op env sec here := by cases here
  outside t _ := rfl

theorem tasks_simulate_files : Simulates fineKernel files NoEscape Represents linearized answered Files.replies where
  step h stays step := h.step stays step

/-! ### What each task gets back -/

def ofTask (u : Nat) (replies : List (Nat × Reply)) : List Reply :=
  replies.filterMap fun entry => if entry.1 = u then some entry.2 else none

theorem ofTask_append (u : Nat) (first second : List (Nat × Reply)) :
    ofTask u (first ++ second) = ofTask u first ++ ofTask u second :=
  List.filterMap_append

theorem ofTask_other {u t : Nat} {replies : List (Nat × Reply)} (mine : ∀ entry ∈ replies, entry.1 = t) (other : u ≠ t) :
    ofTask u replies = [] := by
  apply List.filterMap_eq_nil_iff.mpr
  intro entry inside
  exact if_neg fun same => other (same.symm.trans (mine entry inside))

theorem answered_mine (s : FineKernel) (label : Nat × FineEvent) : ∀ entry ∈ s.answered label, entry.1 = label.1 := by
  unfold answered
  split
  · split <;> simp
  · simp
  · simp

theorem returned_mine (s : FineKernel) (label : Nat × FineEvent) : ∀ entry ∈ s.returned label, entry.1 = label.1 := by
  unfold returned
  split
  · split <;> simp
  · simp
  · simp
  · simp
  · simp

/-- What a task is owed and what a step answers is what the step returns and what the task is owed then. -/
theorem ledger_step (u : Nat) (stays : s.NoEscape label) (step : fineKernel.step s label = some s') :
    (s.tasks u).owed ++ ofTask u (s.answered label) = ofTask u (s.returned label) ++ (s'.tasks u).owed := by
  obtain ⟨t, event⟩ := label
  have moves := fineKernel_step step
  by_cases me : u = t
  · subst me
    cases moves with
    | call user op => simp [FineTask.owed, user, answered, returned, ofTask]
    | interrupt waits interrupted =>
      rename_i op env
      cases op <;> simp [FineTask.owed, waits, answered, returned, ofTask, FileOp.stopped]
    | acquire waits lock free =>
      rename_i op env
      cases op <;> simp [FineTask.owed, waits, answered, returned, ofTask, lock]
    | access here more =>
      rename_i op env sec
      cases op <;> simp [FineTask.owed, here, answered, returned, ofTask]
    | release here =>
      rename_i op env answer
      cases op <;> simp [FineTask.owed, here, answered, returned, ofTask, FileOp.left, FileOp.answer]
    | escape here => simp [NoEscape, here] at stays
    | seek here => simp [FineTask.owed, here, answered, returned, ofTask]
  · rw [ofTask_other (answered_mine s (t, event)) me, ofTask_other (returned_mine s (t, event)) me, List.append_nil,
      List.nil_append]
    cases moves <;> simp only [Function.update_of_ne me]

/-- In every interleaving of the tasks' accesses in which no call interrupted at the lock goes on to
unlock it, the device goes through whole calls, one after the other in the order of their unlocks, and
each task gets back what its calls return in that order. -/
theorem tasks_linearizable (run : fineKernel.run {} labels = some s) (stays : fineKernel.Along NoEscape {} labels) :
    let calls := fineKernel.observe linearized {} labels
    ∃ f, files.run Files.init calls = some f ∧ s.Represents f ∧ ∀ u,
      ofTask u (files.observe Files.replies Files.init calls) =
        ofTask u (fineKernel.observe returned {} labels) ++ (s.tasks u).owed := by
  obtain ⟨f, reached, represents, same⟩ := tasks_simulate_files.run Represents.init stays run
  refine ⟨f, reached, represents, fun u => ?_⟩
  rw [← same]
  refine Machine.run_induction (P := fun labels s => ofTask u (fineKernel.observe answered {} labels) =
    ofTask u (fineKernel.observe returned {} labels) ++ (s.tasks u).owed) rfl ?_ stays run
  intro labels s label s' before ledger stays step
  rw [Machine.observe_snoc before, Machine.observe_snoc before, ofTask_append, ofTask_append, ledger, List.append_assoc,
    ledger_step u stays step, List.append_assoc]

/-- A reader asks for the lock while a writer is between its accesses, and a third task is interrupted. -/
theorem tasks_linearizable_waiting :
    let access (t n : Nat) : List (Nat × FineEvent) := List.replicate n (t, .access)
    let labels : List (Nat × FineEvent) := [(1, .call (.write [97, newline])), (1, .lock { kmallocAt := some 1 })] ++
      access 1 3 ++ [(2, .call (.read 5)), (3, .call (.llseek 0 seekEnd)), (3, .lock { interrupted := true })] ++
      access 1 6 ++ [(1, .unlock), (2, .lock {})] ++ access 2 2 ++ [(2, .unlock)]
    let s := (fineKernel.run {} labels).getD {}
    let calls := fineKernel.observe linearized {} labels
    ∃ f, files.run Files.init calls = some f ∧ s.Represents f ∧ ∀ u,
      ofTask u (files.observe Files.replies Files.init calls) =
        ofTask u (fineKernel.observe returned {} labels) ++ (s.tasks u).owed := by
  intro access labels s calls
  exact tasks_linearizable (Machine.run_getD (by decide +kernel) {}) (by decide +kernel)

end FineKernel
end Aesd
