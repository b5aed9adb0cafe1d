import Aesd.Library.Lock
import Aesd.Server.HandleClient

/-!
# The server's threads

Client sessions and timestamp threads on one data file and one `file_mutex`, one
step of one thread at a time. A thread that calls `cleanup` ends the process.
-/

namespace Aesd
open Library

/-- Where `timestamp_thread` is: at `while (running)`, at its lock, before the write, at its unlock, returned. -/
inductive StampPc where
  | looping
  | waiting
  | writing
  | unlocking
  | finished
  deriving DecidableEq

inductive Thread where
  | client (c : Client)
  | stamper (pc : StampPc)

structure Server (W : Type) where
  world : W
  mutex : Option Nat := none
  threads : Nat → Thread
  exited : Bool := false

inductive Act (E : Type) where
  | client (answer : Answer E)
  | stampGo | stampStop
  | stamp (line : List UInt8) (openFails : Bool) (env : E)

variable {W E : Type}

def Client.owner (c : Client) (t : Nat) (mutex : Option Nat) : Option Nat :=
  if c.pc = .start then some t
  else if c.pc = .unlocking ∨ c.pc = .failing then none
  else mutex

def server (file : DataFile W E) : Machine (Server W) (Nat × Act E) where
  step s label :=
    let t := label.1
    if s.exited then none
    else match s.threads t, label.2 with
    | .client c, .client answer =>
      if c.pc = .start ∧ s.mutex ≠ none then none
      else (c.step file s.world answer).map fun next =>
        { world := next.2
          mutex := c.owner t s.mutex
          threads := Function.update s.threads t (.client next.1)
          exited := next.1.Ends }
    | .stamper .looping, .stampGo => some { s with threads := Function.update s.threads t (.stamper .waiting) }
    | .stamper .looping, .stampStop => some { s with threads := Function.update s.threads t (.stamper .finished) }
    | .stamper .waiting, .stampGo =>
      if s.mutex = none then
        some { s with mutex := some t, threads := Function.update s.threads t (.stamper .writing) }
      else none
    | .stamper .writing, .stamp line openFails env =>
      if openFails then some { s with world := file.unlink s.world, exited := true }
      else some { s with
        world := file.append env line s.world
        threads := Function.update s.threads t (.stamper .unlocking) }
    | .stamper .unlocking, .stampGo =>
      some { s with mutex := none, threads := Function.update s.threads t (.stamper .looping) }
    | _, _ => none

/-- Between its lock and its unlock. A session that hung up stays there, as does one that is killed. -/
def Thread.Holds : Thread → Prop
  | .client c => match c.pc with
    | .receiving | .replying _ | .unlocking | .failing | .hungUp | .killed => True
    | _ => False
  | .stamper pc => pc = .writing ∨ pc = .unlocking

instance (thread : Thread) : Decidable thread.Holds := by
  unfold Thread.Holds
  split
  · split <;> infer_instance
  · infer_instance

/-- The process as it starts: nobody has the mutex, and every thread is before its lock. -/
structure Server.Fresh (s : Server W) : Prop where
  free : s.mutex = none
  running : s.exited = false
  outside : ∀ t, (∃ buffer, s.threads t = .client { buffer }) ∨ s.threads t = .stamper .looping

variable {file : DataFile W E} {s s' : Server W} {t : Nat} {act : Act E} {labels : List (Nat × Act E)}

/-! ### One step -/

/-- A step of a timestamp thread: the mutex and the thread's place, or the write under the mutex, or the
end of the process. -/
inductive StampStep (file : DataFile W E) (s : Server W) (t : Nat) : StampPc → Act E → Server W → Prop where
  | wait : StampStep file s t .looping .stampGo { s with threads := Function.update s.threads t (.stamper .waiting) }
  | stop : StampStep file s t .looping .stampStop
      { s with threads := Function.update s.threads t (.stamper .finished) }
  | lock (free : s.mutex = none) : StampStep file s t .waiting .stampGo
      { s with mutex := some t, threads := Function.update s.threads t (.stamper .writing) }
  | fail (line : List UInt8) (env : E) : StampStep file s t .writing (.stamp line true env)
      { s with world := file.unlink s.world, exited := true }
  | write (line : List UInt8) (env : E) : StampStep file s t .writing (.stamp line false env)
      { s with world := file.append env line s.world, threads := Function.update s.threads t (.stamper .unlocking) }
  | unlock : StampStep file s t .unlocking .stampGo
      { s with mutex := none, threads := Function.update s.threads t (.stamper .looping) }

theorem server_step (step : (server file).step s (t, act) = some s') : s.exited = false ∧
    ((∃ c answer next, s.threads t = .client c ∧ act = .client answer ∧ (c.pc = .start → s.mutex = none) ∧
      c.step file s.world answer = some next ∧ s' =
        { world := next.2
          mutex := c.owner t s.mutex
          threads := Function.update s.threads t (.client next.1)
          exited := next.1.Ends }) ∨
    ∃ pc, s.threads t = .stamper pc ∧ StampStep file s t pc act s') := by
  simp only [server] at step
  split at step
  · cases step
  rename_i running
  refine ⟨by simpa using running, ?_⟩
  split at step
  case h_1 c answer here =>
    split at step
    · cases step
    · rename_i unblocked
      obtain ⟨next, moved, same⟩ := Option.map_eq_some_iff.mp step
      exact Or.inl ⟨c, answer, next, here, rfl, fun start => not_not.mp fun held => unblocked ⟨start, held⟩,
        moved, same.symm⟩
  case h_2 here => obtain rfl := Option.some.inj step; exact Or.inr ⟨_, here, .wait⟩
  case h_3 here => obtain rfl := Option.some.inj step; exact Or.inr ⟨_, here, .stop⟩
  case h_4 here =>
    split at step
    · rename_i free
      obtain rfl := Option.some.inj step
      exact Or.inr ⟨_, here, .lock free⟩
    · cases step
  case h_5 line openFails env here =>
    cases openFails with
    | true => obtain rfl := Option.some.inj step; exact Or.inr ⟨_, here, .fail line env⟩
    | false => obtain rfl := Option.some.inj step; exact Or.inr ⟨_, here, .write line env⟩
  case h_6 here => obtain rfl := Option.some.inj step; exact Or.inr ⟨_, here, .unlock⟩
  case h_7 => cases step

theorem Client.step_holds {c : Client} {w : W} {answer : Answer E} {next : Client × W}
    (step : c.step file w answer = some next) :
    (c.pc = .start ∧ ¬ (Thread.client c).Holds ∧ (Thread.client next.1).Holds) ∨
    ((c.pc = .unlocking ∨ c.pc = .failing) ∧ (Thread.client c).Holds ∧ ¬ (Thread.client next.1).Holds) ∨
    ((c.pc ≠ .start ∧ c.pc ≠ .unlocking ∧ c.pc ≠ .failing) ∧
      ((Thread.client next.1).Holds ↔ (Thread.client c).Holds)) := by
  cases here : c.pc with
  | start =>
    obtain ⟨_, rfl⟩ := Client.step_start here step
    exact Or.inl ⟨rfl, by simp [Thread.Holds, here], by simp [Thread.Holds]⟩
  | receiving =>
    obtain ⟨result, env, _, rfl⟩ := Client.step_receiving here step
    refine Or.inr (Or.inr ⟨by simp, ?_⟩)
    cases result with
    | data chunk =>
      obtain ⟨same | fails | ⟨fpos, replies⟩, _⟩ := Client.pass_pc file c w chunk env
      · simp [Thread.Holds, same]
      · simp [Thread.Holds, fails, here]
      · simp [Thread.Holds, replies, here]
    | _ => simp [Thread.Holds, here]
  | replying fpos =>
    refine Or.inr (Or.inr ⟨by simp, ?_⟩)
    obtain ⟨env, unsent, _, rfl⟩ | ⟨env, _, _, rfl⟩ := Client.step_replying here step
    · split <;> simp [Thread.Holds, here]
    · simp [Thread.Holds, here]
  | unlocking =>
    obtain ⟨_, rfl⟩ := Client.step_unlocking here step
    exact Or.inr (Or.inl ⟨by simp, by simp [Thread.Holds, here], by simp [Thread.Holds]⟩)
  | failing =>
    obtain ⟨_, rfl⟩ := Client.step_failing here step
    exact Or.inr (Or.inl ⟨by simp, by simp [Thread.Holds, here], by simp [Thread.Holds]⟩)
  | cleaning =>
    obtain ⟨_, rfl⟩ := Client.step_cleaning here step
    exact Or.inr (Or.inr ⟨by simp, by simp [Thread.Holds, here]⟩)
  | _ => exact absurd (by simp [Client.Done, here]) (Client.step_running step)

theorem all_clients {P : Client → Prop} {threads : Nat → Thread} {d : Client}
    (before : ∀ u c, threads u = .client c → P c) (here : P d) :
    ∀ u c, Function.update threads t (.client d) u = .client c → P c := by
  intro u c at'
  by_cases same : u = t
  · subst same
    rw [Function.update_self] at at'
    exact Thread.client.inj at' ▸ here
  · rw [Function.update_of_ne same] at at'
    exact before u c at'

theorem all_clients_stamper {P : Client → Prop} {threads : Nat → Thread} {pc : StampPc}
    (before : ∀ u c, threads u = .client c → P c) :
    ∀ u c, Function.update threads t (.stamper pc) u = .client c → P c := by
  intro u c at'
  by_cases same : u = t
  · subst same
    rw [Function.update_self] at at'
    cases at'
  · rw [Function.update_of_ne same] at at'
    exact before u c at'

/-! ### The mutex -/

theorem Server.Fresh.exclusive (h : s.Fresh) : Exclusive Thread.Holds s.mutex s.threads := by
  rw [h.free]
  apply Exclusive.initial
  intro t
  rcases h.outside t with ⟨buffer, here⟩ | here
  · rw [here]
    exact id
  · rw [here]
    simp [Thread.Holds]

theorem server_exclusive (h : Exclusive Thread.Holds s.mutex s.threads)
    (step : (server file).step s (t, act) = some s') : Exclusive Thread.Holds s'.mutex s'.threads := by
  obtain ⟨_, ⟨c, answer, next, here, _, free, moved, rfl⟩ | ⟨pc, here, stamped⟩⟩ := server_step step
  · rcases Client.step_holds moved with ⟨start, _, inside⟩ | ⟨leaving, held, outside⟩ |
      ⟨⟨notStart, notUnlocking, notFailing⟩, same⟩
    · rw [free start] at h
      simp only [Client.owner, if_pos start]
      exact h.acquire inside
    · have notStart : c.pc ≠ .start := by rcases leaving with at' | at' <;> simp [at']
      simp only [Client.owner, if_neg notStart, if_pos leaving]
      exact h.release (by rw [here]; exact held) outside
    · have staying : ¬ (c.pc = .unlocking ∨ c.pc = .failing) := fun leaving => leaving.elim notUnlocking notFailing
      simp only [Client.owner, if_neg notStart, if_neg staying]
      exact h.within (by rw [here]; exact same)
  · cases stamped with
    | wait => exact h.within (by simp [here, Thread.Holds])
    | stop => exact h.within (by simp [here, Thread.Holds])
    | lock free =>
      rw [free] at h
      exact h.acquire (by simp [Thread.Holds])
    | fail => exact h
    | write => exact h.within (by simp [here, Thread.Holds])
    | unlock => exact h.release (by rw [here]; simp [Thread.Holds]) (by simp [Thread.Holds])

/-! ### A process to run -/

def Thread.clientPc : Thread → Option ClientPc
  | .client c => some c.pc
  | .stamper _ => none

theorem client_at {thread : Thread} {pc : ClientPc} (here : thread.clientPc = some pc) :
    ∃ c, thread = .client c ∧ c.pc = pc := by
  cases thread with
  | client c => exact ⟨c, rfl, Option.some.inj here⟩
  | stamper _ => cases here

def oneStamper : Server (Option (List UInt8)) where
  world := none
  threads t := if t = 0 then .stamper .looping else .client { buffer := [] }

theorem oneStamper_fresh : oneStamper.Fresh where
  free := rfl
  running := rfl
  outside t := by
    by_cases first : t = 0
    · exact Or.inr (by simp [oneStamper, first])
    · exact Or.inl ⟨[], by simp [oneStamper, first]⟩

end Aesd
