import Aesd.Library.Countdown
import Aesd.Library.Lock

/-!
# Threads that obtain a mutex

`start_thread_obtaining_mutex` and the threads it starts, on any number of
mutexes, with the caller that joins them. How long they sleep is not modelled.
-/

namespace Aesd.Threading
open Library

/-- `struct thread_data` without its durations. -/
structure ThreadData where
  mutex : Nat
  threadCompleteSuccess : Bool
  deriving DecidableEq

/-- Where a thread is: not there, in its first sleep, at the lock, in its second sleep, past the unlock, returned,
joined. -/
inductive Pc where
  | absent
  | obtaining
  | locking
  | releasing
  | completing
  | returned
  | joined
  deriving DecidableEq

/-- The memory and the thread of each call, by the number of the call. -/
structure Starter where
  calls : Nat := 0
  args : Nat → Option ThreadData := fun _ => none
  pcs : Nat → Pc := fun _ => .absent
  owner : Nat → Option Nat := fun _ => none

/-- A call, with what `malloc` and `pthread_create` answer and what the new block holds; a step of a thread; the
caller's join, after which it frees what the thread returned. -/
inductive Event where
  | start (mutex : Nat) (allocated : Bool) (junk : Bool) (created : Bool)
  | step (thread : Nat)
  | join (thread : Nat)

namespace Starter

def goto (s : Starter) (k : Nat) (pc : Pc) : Starter := { s with pcs := Function.update s.pcs k pc }

def store (s : Starter) (k : Nat) (args : Option ThreadData) : Starter := { s with args := Function.update s.args k args }

def startThreadObtainingMutex (s : Starter) (mutex : Nat) (allocated junk created : Bool) : Bool × Starter :=
  let k := s.calls
  let s := { s with calls := k + 1 }
  if allocated = false then (false, s)
  else
    let s := s.store k (some ⟨mutex, junk⟩)
    if created = false then (false, s.store k none) else (true, s.goto k .obtaining)

/-- A step of `threadfunc`. -/
def threadfunc (s : Starter) (k : Nat) : Option Starter :=
  match s.pcs k, s.args k with
  | .obtaining, some _ => some (s.goto k .locking)
  | .locking, some args =>
    if s.owner args.mutex = none then
      some { s.goto k .releasing with owner := Function.update s.owner args.mutex (some k) }
    else none
  | .releasing, some args =>
    some { s.goto k .completing with owner := Function.update s.owner args.mutex none }
  | .completing, some args => some ((s.store k (some { args with threadCompleteSuccess := true })).goto k .returned)
  | _, _ => none

end Starter

def starter : Machine Starter Event where
  step s event :=
    match event with
    | .start mutex allocated junk created => some (s.startThreadObtainingMutex mutex allocated junk created).2
    | .step k => s.threadfunc k
    | .join k => if s.pcs k = .returned then some ((s.store k none).goto k .joined) else none

/-- The call has returned true. -/
def started (s : Starter) : Event → List Nat
  | .start mutex allocated junk created =>
    if (s.startThreadObtainingMutex mutex allocated junk created).1 then [s.calls] else []
  | _ => []

namespace Pc

def rank : Pc → Nat
  | obtaining => 4
  | locking => 3
  | releasing => 2
  | completing => 1
  | absent | returned | joined => 0

/-- The thread is there and has not been joined. -/
def Live : Pc → Prop
  | absent | joined => False
  | _ => True

end Pc

variable {s s' : Starter} {k m : Nat} {event : Event} {events more : List Event}

/-- A thread between its lock and its unlock of `m`. -/
def Holds (m : Nat) (thread : Pc × Option Nat) : Prop := thread.1 = .releasing ∧ thread.2 = some m

def Starter.thread (s : Starter) (k : Nat) : Pc × Option Nat := (s.pcs k, (s.args k).map ThreadData.mutex)

structure Sound (s : Starter) : Prop where
  memory : ∀ k, (s.args k).isSome ↔ (s.pcs k).Live
  later : ∀ k, s.calls ≤ k → s.pcs k = .absent
  exclusive : ∀ m, Exclusive (Holds m) (s.owner m) s.thread
  success : ∀ k args, s.args k = some args → s.pcs k = .returned → args.threadCompleteSuccess = true

theorem init_sound : Sound {} where
  memory k := by simp [Pc.Live]
  later _ _ := rfl
  exclusive m := Exclusive.initial fun k inside => by cases inside.1
  success k args here := by cases here

/-! ### One step -/

namespace Starter

@[simp] theorem goto_pcs (s : Starter) (k : Nat) (pc : Pc) : (s.goto k pc).pcs = Function.update s.pcs k pc := rfl
@[simp] theorem goto_args (s : Starter) (k : Nat) (pc : Pc) : (s.goto k pc).args = s.args := rfl
@[simp] theorem store_pcs (s : Starter) (k : Nat) (args : Option ThreadData) : (s.store k args).pcs = s.pcs := rfl
@[simp] theorem store_args (s : Starter) (k : Nat) (args : Option ThreadData) :
    (s.store k args).args = Function.update s.args k args := rfl

theorem thread_moved {t : Starter} {pc : Pc} {args : Option ThreadData} (pcs : t.pcs = Function.update s.pcs k pc)
    (memory : t.args = Function.update s.args k args) :
    t.thread = Function.update s.thread k (pc, args.map ThreadData.mutex) := by
  funext u
  by_cases same : u = k
  · subst same
    simp [thread, pcs, memory]
  · simp [thread, pcs, memory, same]

end Starter

/-- A step with what it finds: a call that fails, one that starts a thread, the steps of a thread, the join. -/
inductive Moves (s : Starter) : Event → Starter → Prop where
  | fail (mutex : Nat) (allocated junk created : Bool) (fails : allocated = false ∨ created = false)
      (t : Starter) (pcs : t.pcs = s.pcs)
      (memory : ∀ k, t.args k = if k = s.calls ∧ allocated = true then none else s.args k)
      (owner : t.owner = s.owner) (calls : t.calls = s.calls + 1) : Moves s (.start mutex allocated junk created) t
  | spawn (mutex : Nat) (junk : Bool) : Moves s (.start mutex true junk true)
      (({ s with calls := s.calls + 1 }.store s.calls (some ⟨mutex, junk⟩)).goto s.calls .obtaining)
  | wake (k : Nat) (here : s.pcs k = .obtaining) : Moves s (.step k) (s.goto k .locking)
  | lock (k : Nat) (args : ThreadData) (here : s.pcs k = .locking) (memory : s.args k = some args)
      (free : s.owner args.mutex = none) :
      Moves s (.step k) { s.goto k .releasing with owner := Function.update s.owner args.mutex (some k) }
  | unlock (k : Nat) (args : ThreadData) (here : s.pcs k = .releasing) (memory : s.args k = some args) :
      Moves s (.step k) { s.goto k .completing with owner := Function.update s.owner args.mutex none }
  | complete (k : Nat) (args : ThreadData) (here : s.pcs k = .completing) (memory : s.args k = some args) :
      Moves s (.step k) ((s.store k (some { args with threadCompleteSuccess := true })).goto k .returned)
  | join (k : Nat) (here : s.pcs k = .returned) : Moves s (.join k) ((s.store k none).goto k .joined)

theorem starter_step (step : starter.step s event = some s') : Moves s event s' := by
  cases event with
  | start mutex allocated junk created =>
    obtain rfl := Option.some.inj step
    cases allocated with
    | false =>
      refine .fail mutex false junk created (Or.inl rfl) _ rfl (fun k => ?_) rfl rfl
      simp [Starter.startThreadObtainingMutex]
    | true =>
      cases created with
      | false =>
        refine .fail mutex true junk false (Or.inr rfl) _ rfl (fun k => ?_) rfl rfl
        by_cases same : k = s.calls <;> simp [Starter.startThreadObtainingMutex, same]
      | true => exact .spawn mutex junk
  | step k =>
    simp only [starter, Starter.threadfunc] at step
    cases here : s.pcs k <;> cases memory : s.args k <;> simp only [here, memory] at step <;> try cases step
    · exact .wake k here
    · split at step
      · rename_i free
        obtain rfl := Option.some.inj step
        exact .lock k _ here memory free
      · cases step
    · exact .unlock k _ here memory
    · exact .complete k _ here memory
  | join k =>
    simp only [starter] at step
    split at step
    · rename_i here
      obtain rfl := Option.some.inj step
      exact .join k here
    · cases step

/-! ### What a step keeps -/

namespace Sound

theorem known (h : Sound s) (there : s.pcs k ≠ .absent) : k < s.calls := by
  by_contra new
  exact there (h.later k (Nat.le_of_not_lt new))

theorem unused (h : Sound s) : s.args s.calls = none := by
  rw [← Option.not_isSome_iff_eq_none, h.memory, h.later _ (Nat.le_refl _)]
  exact id

theorem moved (h : Sound s) {t : Starter} {pc : Pc} {args : Option ThreadData}
    (pcs : t.pcs = Function.update s.pcs k pc) (memory : t.args = Function.update s.args k args)
    (live : args.isSome ↔ pc.Live) (known : k < t.calls) (grows : s.calls ≤ t.calls)
    (done : ∀ d, args = some d → pc = .returned → d.threadCompleteSuccess = true)
    (exclusive : ∀ m, Exclusive (Holds m) (t.owner m) (Function.update s.thread k (pc, args.map ThreadData.mutex))) :
    Sound t where
  memory u := by
    rw [pcs, memory]
    by_cases same : u = k
    · subst same
      simpa using live
    · simpa [same] using h.memory u
  later u new := by
    rw [pcs, Function.update_of_ne (by omega)]
    exact h.later u (Nat.le_trans grows new)
  exclusive m := by
    rw [Starter.thread_moved pcs memory]
    exact exclusive m
  success u d here returned := by
    rw [pcs] at returned
    rw [memory] at here
    by_cases same : u = k
    · subst same
      rw [Function.update_self] at here returned
      exact done d here returned
    · rw [Function.update_of_ne same] at here returned
      exact h.success u d here returned

/-- A thread that stays outside every lock. -/
theorem outside (h : Sound s) {pc : Pc} {mutex : Option Nat} (before : s.pcs k ≠ .releasing) (after : pc ≠ .releasing)
    (m : Nat) : Exclusive (Holds m) (s.owner m) (Function.update s.thread k (pc, mutex)) := by
  apply (h.exclusive m).within
  constructor
  · intro inside
    exact (after inside.1).elim
  · intro inside
    exact (before inside.1).elim

theorem step (h : Sound s) (step : starter.step s event = some s') : Sound s' := by
  have kept (k : Nat) : s.args = Function.update s.args k (s.args k) := (Function.update_eq_self k s.args).symm
  cases starter_step step with
  | fail mutex allocated junk created fails t pcs memory owner calls =>
    have same : s'.args = s.args := by
      funext k
      rw [memory]
      split
      · rename_i new
        rw [new.1, h.unused]
      · rfl
    have thread : s'.thread = s.thread := by
      funext k
      simp only [Starter.thread, pcs, same]
    refine ⟨?_, ?_, ?_, ?_⟩
    · rw [same, pcs]
      exact h.memory
    · intro k new
      rw [pcs]
      exact h.later k (by omega)
    · rw [thread, owner]
      exact h.exclusive
    · rw [same, pcs]
      exact h.success
  | spawn mutex junk =>
    have absent : s.pcs s.calls ≠ .releasing := by simp [h.later _ (Nat.le_refl _)]
    exact h.moved (k := s.calls) rfl rfl (by simp [Pc.Live]) (Nat.lt_succ_self _) (Nat.le_succ _) (by simp)
      (h.outside absent (by simp))
  | wake k here =>
    refine h.moved (k := k) rfl (kept k) ?_ (h.known (by simp [here])) (Nat.le_refl _) (by simp)
      (h.outside (by simp [here]) (by simp))
    rw [h.memory, here]
    exact Iff.rfl
  | lock k args here memory free =>
    refine h.moved (k := k) rfl (kept k) (by simp [memory, Pc.Live]) (h.known (by simp [here])) (Nat.le_refl _) (by simp) ?_
    intro m
    simp only [memory, Option.map_some]
    by_cases same : m = args.mutex
    · subst same
      rw [Function.update_self]
      exact (free ▸ h.exclusive args.mutex).acquire ⟨rfl, rfl⟩
    · rw [Function.update_of_ne same]
      apply (h.exclusive m).within
      simp [Holds, Starter.thread, here, Ne.symm same]
  | unlock k args here memory =>
    refine h.moved (k := k) rfl (kept k) (by simp [memory, Pc.Live]) (h.known (by simp [here])) (Nat.le_refl _) (by simp) ?_
    intro m
    simp only [memory, Option.map_some]
    by_cases same : m = args.mutex
    · subst same
      rw [Function.update_self]
      exact (h.exclusive args.mutex).release (t := k) ⟨here, by simp [Starter.thread, memory]⟩ (by simp [Holds])
    · rw [Function.update_of_ne same]
      apply (h.exclusive m).within
      simp [Holds, Starter.thread, memory, Ne.symm same]
  | complete k args here memory =>
    exact h.moved (k := k) rfl rfl (by simp [Pc.Live]) (h.known (by simp [here])) (Nat.le_refl _) (by simp)
      (h.outside (by simp [here]) (by simp))
  | join k here =>
    exact h.moved (k := k) rfl rfl (by simp [Pc.Live]) (h.known (by simp [here])) (Nat.le_refl _) (by simp)
      (h.outside (by simp [here]) (by simp))

end Sound

/-! ### Every run -/

theorem started_step (step : starter.step s event = some s') (u : Nat) :
    s'.pcs u ≠ .absent ↔ u ∈ started s event ∨ s.pcs u ≠ .absent := by
  have moved {k : Nat} {pc : Pc} (there : s.pcs k ≠ .absent) (still : pc ≠ .absent) :
      Function.update s.pcs k pc u ≠ .absent ↔ u ∈ ([] : List Nat) ∨ s.pcs u ≠ .absent := by
    by_cases same : u = k
    · subst same
      simp [there, still]
    · simp [same]
  cases starter_step step with
  | fail mutex allocated junk created fails t pcs =>
    rw [pcs]
    rcases fails with rfl | rfl
    · simp [started, Starter.startThreadObtainingMutex]
    · cases allocated <;> simp [started, Starter.startThreadObtainingMutex]
  | spawn mutex junk =>
    by_cases same : u = s.calls
    · subst same
      simp [started, Starter.startThreadObtainingMutex]
    · simp [started, Starter.startThreadObtainingMutex, same]
  | wake k here | lock k _ here | unlock k _ here | complete k _ here | join k here =>
    exact moved (by simp [here]) (by simp)

/-- Whatever runs when: of each mutex at most one thread is between its lock and its unlock; the memory in use is that
of the calls that returned true and were not joined; and a thread that has returned says that it succeeded. -/
theorem threads_sound (run : starter.run {} events = some s) :
    (∀ k l d e, s.args k = some d → s.args l = some e → d.mutex = e.mutex → s.pcs k = .releasing →
      s.pcs l = .releasing → k = l) ∧
    (∀ k, (s.args k).isSome ↔ k ∈ starter.observe started {} events ∧ s.pcs k ≠ .joined) ∧
    ∀ k d, s.args k = some d → s.pcs k = .returned → d.threadCompleteSuccess = true := by
  obtain ⟨sound, listed⟩ := Machine.run_induction (P := fun events s => Sound s ∧
      ∀ k, s.pcs k ≠ .absent ↔ k ∈ starter.observe started {} events)
    ⟨init_sound, by simp [Machine.observe]⟩
    (by
      intro events s event s' reached before _ step
      obtain ⟨sound, listed⟩ := before
      refine ⟨sound.step step, fun k => ?_⟩
      rw [started_step step, listed, Machine.observe_snoc reached, List.mem_append, or_comm])
    Machine.along_true run
  refine ⟨?_, ?_, sound.success⟩
  · intro k l d e here there same inside inside'
    apply (sound.exclusive d.mutex).unique
    · exact ⟨inside, by simp [Starter.thread, here]⟩
    · exact ⟨inside', by simp [Starter.thread, there, same]⟩
  · intro k
    rw [sound.memory, ← listed]
    cases s.pcs k <;> simp [Pc.Live]

/-- Three calls on two mutexes: a thread that is joined, one that waits for the lock, one that was not created. -/
theorem threads_sound_three :
    let events : List Event := [.start 7 true false true, .start 7 true true true, .start 8 true false false, .step 0,
      .step 1, .step 0, .step 0, .step 0, .join 0]
    let s := (starter.run {} events).getD {}
    ∀ k, (s.args k).isSome ↔ k ∈ starter.observe started {} events ∧ s.pcs k ≠ .joined := by
  intro events s
  have run := Machine.run_getD (m := starter) (s := {}) (l := events) (by decide) {}
  exact (threads_sound (s := s) run).2.1

def Event.IsStep : Event → Prop
  | .step _ => True
  | _ => False

instance : ∀ event : Event, Decidable event.IsStep
  | .step _ => isTrue trivial
  | .start .. | .join _ => isFalse id

theorem step_lowers (h : Sound s) (isStep : event.IsStep) (step : starter.step s event = some s') :
    s'.calls = s.calls ∧ totalRank Pc.rank s.calls s'.pcs < totalRank Pc.rank s.calls s.pcs := by
  have lower {k : Nat} {pc : Pc} (less : pc.rank < (s.pcs k).rank) :
      totalRank Pc.rank s.calls (Function.update s.pcs k pc) < totalRank Pc.rank s.calls s.pcs := by
    refine totalRank_update (h.known ?_) less
    intro absent
    rw [absent] at less
    cases less
  cases starter_step step with
  | wake k here | lock k _ here | unlock k _ here | complete k _ here =>
    refine ⟨rfl, lower ?_⟩
    rw [here]
    decide
  | _ => exact isStep.elim

/-- A thread that cannot move has returned, or waits for one that can. -/
theorem Sound.stuck (h : Sound s) (stuck : ∀ k, s.threadfunc k = none) : (∀ m, s.owner m = none) ∧
    ∀ k d, s.args k = some d → s.pcs k = .returned := by
  have free (m : Nat) : s.owner m = none := by
    cases held : s.owner m with
    | none => rfl
    | some k =>
      obtain ⟨here, mutex⟩ := (h.exclusive m k).mpr held
      obtain ⟨d, memory, _⟩ := Option.map_eq_some_iff.mp mutex
      have moves := stuck k
      simp [Starter.threadfunc, show s.pcs k = .releasing from here, memory] at moves
  refine ⟨free, ?_⟩
  intro k d memory
  have live := (h.memory k).mp (by simp [memory])
  have moves := stuck k
  cases here : s.pcs k with
  | returned => rfl
  | absent | joined => simp [here, Pc.Live] at live
  | _ => simp [Starter.threadfunc, here, memory, free] at moves

/-- However many threads were started on however many mutexes, and however they are scheduled, they take no more than
four steps for each call; when no thread can take another, no mutex is held and every thread not yet joined has
returned with success. -/
theorem threads_complete (run : starter.run {} events = some s) (steps : ∀ event ∈ more, event.IsStep)
    (later : starter.run s more = some s') :
    more.length ≤ 4 * s.calls ∧ ((∀ k, s'.threadfunc k = none) → (∀ m, s'.owner m = none) ∧
      ∀ k d, s'.args k = some d → s'.pcs k = .returned ∧ d.threadCompleteSuccess = true) := by
  have sound : Sound s := Machine.run_invariant (fun before _ step => before.step step) init_sound Machine.along_true run
  have guarded : starter.Along (fun v event => (Sound v ∧ v.calls = s.calls) ∧ event.IsStep) s more := by
    refine Machine.along_keeping ?_ ⟨sound, rfl⟩ (Machine.along_of_forall steps)
    intro v event u before isStep step
    exact ⟨before.1.step step, (step_lowers before.1 isStep step).1.trans before.2⟩
  have bound := Machine.length_le (fun both step => both.1.2 ▸ (step_lowers both.1.1 both.2 step).2) guarded later
  have whole : totalRank Pc.rank s.calls s.pcs ≤ 4 * s.calls := totalRank_le fun k => by cases s.pcs k <;> decide
  refine ⟨by omega, fun stuck => ?_⟩
  have after : Sound s' := Machine.run_invariant (fun before _ step => before.step step) sound Machine.along_true later
  obtain ⟨free, returned⟩ := after.stuck stuck
  exact ⟨free, fun k d memory => ⟨returned k d memory, after.success k d memory (returned k d memory)⟩⟩

/-- Two threads on one mutex, to the end. -/
theorem threads_complete_two :
    let events : List Event := [.start 7 true false true, .start 7 true true true, .step 0, .step 1, .step 1]
    let more : List Event := [.step 1, .step 0, .step 1, .step 0, .step 0]
    let s := (starter.run {} events).getD {}
    let s' := (starter.run s more).getD s
    more.length ≤ 4 * s.calls ∧ ((∀ k, s'.threadfunc k = none) → (∀ m, s'.owner m = none) ∧
      ∀ k d, s'.args k = some d → s'.pcs k = .returned ∧ d.threadCompleteSuccess = true) := by
  intro events more s s'
  have run := Machine.run_getD (m := starter) (s := {}) (l := events) (by decide) {}
  have later := Machine.run_getD (m := starter) (s := s) (l := more) (by decide) s
  exact threads_complete run (by decide) later

end Aesd.Threading
