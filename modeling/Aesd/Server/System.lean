import Aesd.Library.Simulation
import Aesd.Server.Waiting
import Aesd.Server.Shutdown

/-!
# The whole server

`main`, the list of threads and what the threads do, as one machine. A thread
takes steps once `main` has created it and removes itself when its session has
ended; one that calls `cleanup` ends the process. The two models before this one
are its two views.
-/

namespace Aesd
open Library

structure System (W : Type) where
  process : Process
  server : Server W

/-- A step of `main`, of the list or of the kernel, or a step of a thread before its `remove_thread`. -/
inductive SystemEvent (E : Type) where
  | turn (turn : Turn)
  | act (tid : Tid) (act : Act E)

def Thread.isStamper : Thread → Bool
  | .client _ => false
  | .stamper _ => true

instance (thread : Thread) : Decidable thread.Ended :=
  match thread with
  | .client c => inferInstanceAs (Decidable c.Done)
  | .stamper pc => inferInstanceAs (Decidable (pc = .finished))

namespace System
variable {W E : Type}

/-- The process with the stack memory that each session will find; `timer` is the id the timestamp thread gets. -/
def start (device : Bool) (world : W) (timer : Tid) (buffers : Tid → List UInt8) : System W where
  process := Process.start device
  server :=
    { world, threads := fun t => if device = false ∧ t = timer then .stamper .looping else .client { buffer := buffers t } }

/-- A thread removes itself once it has ended. The thread `main` creates first, in a build that does, runs
`timestamp_thread`; `cleanup` in a thread is a step of that thread. -/
def Permits (s : System W) : Turn → Prop
  | .remove tid => (s.server.threads tid).Ended
  | .create (some tid) => (s.server.threads tid).isStamper = decide (s.process.main = .starting)
  | .abort _ => False
  | _ => True

instance decidablePermits (s : System W) : ∀ turn, Decidable (s.Permits turn)
  | .remove tid => inferInstanceAs (Decidable (s.server.threads tid).Ended)
  | .create (some tid) => inferInstanceAs (Decidable ((s.server.threads tid).isStamper = _))
  | .abort _ => isFalse id
  | .signal | .test | .accept _ | .create none | .createFails _ | .add _ | .join | .finish _ | .exit => isTrue trivial

/-- `while (running)` of a timestamp thread. -/
def Obeys (s : System W) (tid : Tid) (act : Act E) : Prop :=
  match s.server.threads tid, act with
  | .stamper .looping, .stampGo => s.process.running = true
  | .stamper .looping, .stampStop => s.process.running = false
  | _, _ => True

instance decidableObeys (s : System W) (tid : Tid) (act : Act E) : Decidable (s.Obeys tid act) := by
  unfold Obeys
  split <;> infer_instance

end System

variable {W E : Type}

/-- `cleanup` in `main` removes the data file and ends the process. -/
def Server.after (file : DataFile W E) (r : Server W) : Turn → Server W
  | .exit => { r with world := file.unlink r.world }
  | _ => r

def system (file : DataFile W E) : Machine (System W) (SystemEvent E) where
  step s event :=
    match event with
    | .turn turn =>
      if s.Permits turn then (process.step s.process turn).map fun p => ⟨p, s.server.after file turn⟩ else none
    | .act tid act =>
      if s.process.main ≠ .exited ∧ tid ∈ s.process.created ∧ s.Obeys tid act then
        ((server file).step s.server (tid, act)).bind fun r =>
          if r.exited then (process.step s.process (.abort tid)).map fun p => ⟨p, r⟩ else some ⟨s.process, r⟩
      else none

def turnsOf (file : DataFile W E) (s : System W) : SystemEvent E → List Turn
  | .turn turn => [turn]
  | .act tid act =>
    match (server file).step s.server (tid, act) with
    | some r => if r.exited then [.abort tid] else []
    | none => []

def actsOf (_ : System W) : SystemEvent E → List (Nat × Act E)
  | .turn _ => []
  | .act tid act => [(tid, act)]

variable {file : DataFile W E} {device : Bool} {world : W} {timer : Tid} {buffers : Tid → List UInt8}
  {s s' u : System W} {event : SystemEvent E} {events more : List (SystemEvent E)} {turn : Turn}
  {tid dead waiting : Tid} {act : Act E}

/-! ### One step -/

theorem system_step (step : (system file).step s event = some u) : s.process.main ≠ .exited ∧
    ((∃ turn, event = .turn turn ∧ s.Permits turn ∧ process.step s.process turn = some u.process ∧
      u.server = s.server.after file turn) ∨
    ∃ tid act, event = .act tid act ∧ tid ∈ s.process.created ∧
      (server file).step s.server (tid, act) = some u.server ∧
      (u.server.exited = true ∧ process.step s.process (.abort tid) = some u.process ∨
        u.server.exited = false ∧ u.process = s.process)) := by
  cases event with
  | turn turn =>
    simp only [system] at step
    split at step
    · rename_i permits
      obtain ⟨p, moved, rfl⟩ := Option.map_eq_some_iff.mp step
      exact ⟨(process_step moved).1, Or.inl ⟨turn, rfl, permits, moved, rfl⟩⟩
    · cases step
  | act tid act =>
    simp only [system] at step
    split at step
    · rename_i allowed
      obtain ⟨r, taken, step⟩ := Option.bind_eq_some_iff.mp step
      refine ⟨allowed.1, Or.inr ⟨tid, act, rfl, allowed.2.1, ?_⟩⟩
      cases exited : r.exited with
      | true =>
        rw [if_pos exited] at step
        obtain ⟨p, aborted, rfl⟩ := Option.map_eq_some_iff.mp step
        exact ⟨taken, Or.inl ⟨exited, aborted⟩⟩
      | false =>
        rw [if_neg (by simp [exited])] at step
        obtain rfl := Option.some.inj step
        exact ⟨taken, Or.inr ⟨exited, rfl⟩⟩
    · cases step

/-! ### The two views -/

theorem system_simulates_process (file : DataFile W E) :
    Simulates (system file) process (fun _ _ => True) (fun s p => p = s.process) (turnsOf file)
      (fun _ _ => ([] : List Unit)) (fun _ _ => []) where
  step := by
    intro s p event u same _ step
    subst same
    refine ⟨u.process, ?_, rfl, ?_⟩
    · obtain ⟨_, ⟨turn, rfl, _, moved, _⟩ | ⟨tid, act, rfl, _, taken, ends⟩⟩ := system_step step
      · simp [turnsOf, Machine.run, moved]
      · rcases ends with ⟨exited, aborted⟩ | ⟨running, same⟩
        · simp [turnsOf, taken, exited, Machine.run, aborted]
        · simp [turnsOf, taken, running, same]
    · exact (Machine.observe_silent _ _ _).symm

theorem system_simulates_server (file : DataFile W E) :
    Simulates (system file) (server file) (fun _ _ => True)
      (fun s r => s.process.main ≠ .exited → r = s.server) actsOf (fun _ _ => ([] : List Unit)) (fun _ _ => []) where
  step := by
    intro s r event u same _ step
    obtain ⟨here, ⟨turn, rfl, _, moved, after⟩ | ⟨tid, act, rfl, _, taken, _⟩⟩ := system_step step
    · refine ⟨r, rfl, ?_, rfl⟩
      intro stays
      rw [same here, after]
      cases turn with
      | exit =>
        refine absurd ?_ stays
        generalize u.process = p at moved
        obtain ⟨_, moves⟩ := process_step moved
        cases moves
        rfl
      | _ => rfl
    · refine ⟨u.server, ?_, fun _ => rfl, (Machine.observe_silent _ _ _).symm⟩
      rw [same here]
      exact Machine.run_cons.mpr ⟨u.server, taken, rfl⟩

/-! ### What links them -/

theorem ended_stops {r : Server W} (ended : (r.threads tid).Ended) : (server file).step r (tid, act) = none := by
  cases taken : (server file).step r (tid, act) with
  | none => rfl
  | some r' =>
    obtain ⟨_, ⟨c, answer, next, here, _, _, moved, _⟩ | ⟨pc, here, stamped⟩⟩ := server_step taken
    · rw [here] at ended
      rw [Client.step_done ended] at moved
      cases moved
    · rw [here] at ended
      obtain rfl : pc = .finished := ended
      cases stamped

theorem others_stay {r r' : Server W} {t : Tid} (other : t ≠ tid) (taken : (server file).step r (tid, act) = some r') :
    r'.threads t = r.threads t := by
  obtain ⟨_, ⟨c, answer, next, _, _, _, _, rfl⟩ | ⟨pc, _, stamped⟩⟩ := server_step taken
  · exact Function.update_of_ne other ..
  · cases stamped with
    | fail => rfl
    | _ => exact Function.update_of_ne other ..

/-- A thread that is not at work any more has ended, and one that has not been created has not begun. -/
structure Linked (s : System W) : Prop where
  tracked : Tracked s.process
  exclusive : Exclusive Thread.Holds s.server.mutex s.server.threads
  fresh : ∀ t, t ∉ s.process.created →
    (∃ buffer, s.server.threads t = .client { buffer }) ∨ s.server.threads t = .stamper .looping
  ended : ∀ t, s.process.threads t ≠ .working → (s.server.threads t).Ended

theorem start_linked (device : Bool) (world : W) (timer : Tid) (buffers : Tid → List UInt8) :
    Linked (System.start device world timer buffers) where
  tracked := start_tracked device
  exclusive := by
    apply Exclusive.initial
    intro t
    simp only [System.start]
    split <;> simp [Thread.Holds]
  fresh := by
    intro t _
    simp only [System.start]
    split
    · exact Or.inr rfl
    · exact Or.inl ⟨_, rfl⟩
  ended := fun _ busy => (busy rfl).elim

theorem process_frame {p q : Process} (step : process.step p turn = some q) :
    (∀ t ∈ p.created, t ∈ q.created) ∧
      ∀ t, q.threads t = p.threads t ∨ turn = .remove t ∨ p.threads t ≠ .working := by
  obtain ⟨_, moves⟩ := process_step step
  cases moves with
  | leave main off arrives =>
    obtain ⟨created, threads, _⟩ := arrive_frame arrives
    exact ⟨fun t listed => by rwa [created], fun t => Or.inl (by rw [threads])⟩
  | join current tid early node main finished live arrives =>
    obtain ⟨created, threads, _⟩ := arrive_frame arrives
    exact ⟨fun t listed => by rwa [created], fun t => Or.inl (by rw [threads])⟩
  | spawn tid timer main fresh => exact ⟨fun t listed => List.mem_append_left _ listed, fun _ => Or.inl rfl⟩
  | remove tid list removes walk =>
    refine ⟨fun _ => id, fun t => ?_⟩
    by_cases same : t = tid
    · exact Or.inr (Or.inl (by rw [same]))
    · exact Or.inl (Function.update_of_ne same ..)
  | finish tid early removed =>
    refine ⟨fun _ => id, fun t => ?_⟩
    by_cases same : t = tid
    · exact Or.inr (Or.inr (by rw [same, removed]; simp))
    · exact Or.inl (Function.update_of_ne same ..)
  | _ => exact ⟨fun _ => id, fun _ => Or.inl rfl⟩

theorem Server.after_threads (file : DataFile W E) (r : Server W) (turn : Turn) :
    (r.after file turn).threads = r.threads ∧ (r.after file turn).mutex = r.mutex := by
  cases turn <;> exact ⟨rfl, rfl⟩

theorem Linked.step (h : Linked s) (step : (system file).step s event = some u) : Linked u := by
  obtain ⟨_, ⟨turn, rfl, permits, moved, after⟩ | ⟨tid, act, rfl, listed, taken, ends⟩⟩ := system_step step
  · obtain ⟨created, threads⟩ := process_frame moved
    obtain ⟨same, mutex⟩ := Server.after_threads file s.server turn
    rw [← after] at same mutex
    refine ⟨h.tracked.step moved, ?_, ?_, ?_⟩
    · rw [same, mutex]
      exact h.exclusive
    · intro t unknown
      rw [same]
      exact h.fresh t fun old => unknown (created t old)
    · intro t busy
      rw [same]
      rcases threads t with kept | rfl | earlier
      · exact h.ended t (kept ▸ busy)
      · exact permits
      · exact h.ended t earlier
  · have working : s.process.threads tid = .working := by
      by_contra busy
      rw [ended_stops (h.ended tid busy)] at taken
      cases taken
    have kept : Tracked u.process ∧ u.process.created = s.process.created ∧ u.process.threads = s.process.threads := by
      rcases ends with ⟨_, aborted⟩ | ⟨_, same⟩
      · have tracked := h.tracked.step aborted
        generalize u.process = p at aborted tracked
        obtain ⟨_, moves⟩ := process_step aborted
        cases moves
        exact ⟨tracked, rfl, rfl⟩
      · rw [same]
        exact ⟨h.tracked, rfl, rfl⟩
    obtain ⟨tracked, created, threads⟩ := kept
    refine ⟨tracked, server_exclusive h.exclusive taken, ?_, ?_⟩
    · intro t unknown
      rw [created] at unknown
      have other : t ≠ tid := fun same => unknown (same ▸ listed)
      rw [others_stay other taken]
      exact h.fresh t unknown
    · intro t busy
      rw [threads] at busy
      have other : t ≠ tid := fun same => busy (same ▸ working)
      rw [others_stay other taken]
      exact h.ended t busy

theorem run_process (reached : (system file).run (System.start device world timer buffers) events = some s) :
    process.run (Process.start device)
      ((system file).observe (turnsOf file) (System.start device world timer buffers) events) = some s.process := by
  obtain ⟨p, run, rfl, _⟩ := (system_simulates_process file).run
    (show Process.start device = (System.start device world timer buffers).process from rfl) Machine.along_true reached
  exact run

/-! ### A client that hangs up -/

def Thread.Leaves : Thread → Prop
  | .client c => c.pc = .cleaning
  | .stamper _ => False

instance : ∀ thread : Thread, Decidable thread.Leaves
  | .client c => inferInstanceAs (Decidable (c.pc = .cleaning))
  | .stamper _ => isFalse id

/-- What of it the threads keep. -/
structure Blocked (r : Server W) (dead waiting : Tid) : Prop where
  held : r.mutex = some dead
  hungUp : (r.threads dead).HungUp
  waits : (r.threads waiting).Waits
  staying : ∀ t, ¬ (r.threads t).Leaves

/-- `accept` succeeds and `add_thread` finds memory. -/
def Proceeds : SystemEvent E → Prop
  | .turn (.accept ok) => ok = true
  | .turn (.add newNode) => newNode ≠ none
  | _ => True

instance : ∀ event : SystemEvent E, Decidable (Proceeds event)
  | .turn turn => match turn with
    | .accept ok => inferInstanceAs (Decidable (ok = true))
    | .add newNode => inferInstanceAs (Decidable (newNode ≠ none))
    | .signal | .test | .create _ | .createFails _ | .join | .remove _ | .finish _ | .abort _ | .exit => isTrue trivial
  | .act .. => isTrue trivial

theorem Thread.Waits.not_ended {thread : Thread} (waits : thread.Waits) : ¬ thread.Ended := by
  intro ended
  cases thread with
  | client c =>
    rcases ended with here | here | here | here <;> cases waits.symm.trans here
  | stamper pc => cases waits.symm.trans ended

theorem Blocked.stamper {r : Server W} (h : Blocked r dead waiting) (looping : r.threads tid = .stamper .looping)
    (pc : StampPc) : Blocked { r with threads := Function.update r.threads tid (.stamper pc) } dead waiting ∧
      ∀ t c, Function.update r.threads tid (.stamper pc) t = .client c ↔ r.threads t = .client c := by
  have same (t : Tid) (c : Client) :
      Function.update r.threads tid (.stamper pc) t = .client c ↔ r.threads t = .client c := by
    by_cases here : t = tid
    · subst here
      simp [looping]
    · rw [Function.update_of_ne here]
  refine ⟨⟨h.held, ?_, ?_, ?_⟩, same⟩
  · cases here : r.threads dead with
    | client c =>
      simp only [(same dead c).mpr here, ← here]
      exact h.hungUp
    | stamper pc =>
      have hungUp := h.hungUp
      rw [here] at hungUp
      exact hungUp.elim
  · have other : waiting ≠ tid := by
      rintro rfl
      have waits := h.waits
      rw [looping] at waits
      cases waits
    simp only [Function.update_of_ne other]
    exact h.waits
  · intro t
    by_cases here : t = tid
    · subst here
      simp [Thread.Leaves]
    · simp only [Function.update_of_ne here]
      exact h.staying t

/-- Only a timestamp thread can move, up to its lock or to its end. -/
theorem Blocked.move {r r' : Server W} (h : Blocked r dead waiting) (exclusive : Exclusive Thread.Holds r.mutex r.threads)
    (taken : (server file).step r (tid, act) = some r') : Blocked r' dead waiting ∧ r'.exited = false ∧
      r'.world = r.world ∧ ∀ t c, r'.threads t = .client c ↔ r.threads t = .client c := by
  obtain ⟨d, here, hungUp⟩ := h.hungUp.client
  have alone (inside : (r.threads tid).Holds) : tid = dead :=
    exclusive.unique inside (by rw [here]; simp [Thread.Holds, hungUp])
  obtain ⟨running, ⟨c, answer, next, at', _, free, moved, _⟩ | ⟨pc, at', stamped⟩⟩ := server_step taken
  · -- A client that could move would hold the mutex that the dead one has.
    exfalso
    have inside : (r.threads tid).Holds := by
      rw [at']
      cases pc : c.pc with
      | start => cases (free pc).symm.trans h.held
      | cleaning => exact (h.staying tid (by rw [at']; exact pc)).elim
      | returned | exited => exact absurd (by simp [Client.Done, pc]) (Client.step_running moved)
      | _ => simp [Thread.Holds, pc]
    obtain rfl := alone inside
    obtain rfl := Thread.client.inj (here.symm.trans at')
    exact Client.step_running moved (Or.inr (Or.inl hungUp))
  · have outside : ¬ (r.threads tid).Holds := by
      intro inside
      rw [alone inside, here] at at'
      cases at'
    rw [at'] at outside
    cases stamped with
    | wait => exact ⟨(h.stamper at' _).1, running, rfl, (h.stamper at' _).2⟩
    | stop => exact ⟨(h.stamper at' _).1, running, rfl, (h.stamper at' _).2⟩
    | lock free => cases free.symm.trans h.held
    | _ => simp [Thread.Holds] at outside

/-- `main` does not come to `cleanup` past a thread that has not ended. -/
theorem Linked.notCleaning (h : Linked s) (listed : waiting ∈ s.process.created)
    (busy : s.process.threads waiting = .working) (empty : s.process.list.head = none) : s.process.main ≠ .cleaning := by
  intro cleaning
  obtain ⟨registered, done⟩ := h.tracked.joined cleaning empty
  have joined := (registered.2 waiting).mpr ⟨List.mem_append_right _ listed, by rw [busy]; rfl⟩
  rw [done waiting joined] at busy
  cases busy

theorem arrive_main {p q : Process} {next : Option Nat} (arrives : p.arrive next = some q) :
    q.main ≠ .exited ∧ (q.main = .cleaning → q.list.head = none) := by
  refine ⟨?_, arrive_cleaning arrives⟩
  unfold Process.arrive at arrives
  cases next with
  | none =>
    obtain rfl := Option.some.inj arrives
    simp
  | some current =>
    obtain ⟨node, _, rfl⟩ := Option.map_eq_some_iff.mp arrives
    simp

/-- `main` comes to `cleanup` through `join_threads` only. -/
theorem proceeds_main {p q : Process} (moved : process.step p turn = some q) (proceeds : Proceeds (E := E) (.turn turn))
    (notAbort : ∀ t, turn ≠ .abort t) (notCleaning : p.main ≠ .cleaning) :
    turn ≠ .exit ∧ q.main ≠ .exited ∧ (q.main = .cleaning → q.list.head = none) := by
  obtain ⟨here, moves⟩ := process_step moved
  have stays {r : Process} (same : r.main = p.main) : r.main ≠ .exited ∧ (r.main = .cleaning → r.list.head = none) :=
    ⟨same ▸ here, fun cleaning => (notCleaning (same ▸ cleaning)).elim⟩
  cases moves with
  | signal | remove | finish => exact ⟨by simp, stays rfl⟩
  | leave main off arrives => exact ⟨by simp, arrive_main arrives⟩
  | join current tid early node main finished live arrives => exact ⟨by simp, arrive_main arrives⟩
  | accept ok =>
    obtain rfl : ok = true := proceeds
    simp
  | full => exact (proceeds rfl).elim
  | abort t => exact (notAbort t rfl).elim
  | exit main => exact (notCleaning main).elim
  | again | spawn | stray | close | add => simp

structure Stuck (s : System W) (dead waiting : Tid) : Prop where
  linked : Linked s
  blocked : Blocked s.server dead waiting
  created : waiting ∈ s.process.created
  notCleaning : s.process.main ≠ .cleaning
  notExited : s.process.main ≠ .exited

theorem Stuck.step (h : Stuck s dead waiting) (proceeds : Proceeds event) (step : (system file).step s event = some u) :
    Stuck u dead waiting ∧ u.server.world = s.server.world ∧
      ∀ t c, u.server.threads t = .client c ↔ s.server.threads t = .client c := by
  have linked := h.linked.step step
  have busy (still : Blocked u.server dead waiting) : u.process.threads waiting = .working := by
    by_contra removed
    exact still.waits.not_ended (linked.ended waiting removed)
  obtain ⟨_, ⟨turn, rfl, permits, moved, after⟩ | ⟨tid, act, rfl, _, taken, ends⟩⟩ := system_step step
  · have notAbort : ∀ t, turn ≠ .abort t := by
      rintro t rfl
      exact permits
    obtain ⟨notExit, notExited, cleaning⟩ := proceeds_main moved proceeds notAbort h.notCleaning
    have same : u.server = s.server := by
      rw [after]
      cases turn <;> first | rfl | exact absurd rfl notExit
    have still : Blocked u.server dead waiting := same ▸ h.blocked
    have created := (process_frame moved).1 waiting h.created
    refine ⟨⟨linked, still, created, ?_, notExited⟩, by rw [same], fun t c => by rw [same]⟩
    intro at'
    exact linked.notCleaning created (busy still) (cleaning at') at'
  · obtain ⟨still, running, world, clients⟩ := h.blocked.move h.linked.exclusive taken
    rcases ends with ⟨exited, _⟩ | ⟨_, same⟩
    · rw [running] at exited
      cases exited
    · exact ⟨⟨linked, still, same ▸ h.created, same ▸ h.notCleaning, same ▸ h.notExited⟩, world, clients⟩

end Aesd
