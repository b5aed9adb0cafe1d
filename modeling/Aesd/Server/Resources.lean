import Aesd.Server.System
import Mathlib.Data.List.Count

/-!
# Sockets and arguments

Each connection is closed once: by the thread that serves it, or by `main` when there
is no thread for it. The `ThreadArgs` of a thread are freed by the thread; those
of a thread that was not created are not.
-/

namespace Aesd
open Library

variable {W E : Type}

/-- `struct ThreadArgs` and the block it lies in, without the server's socket. -/
structure ThreadArgs where
  block : Nat
  clientSocket : Option Nat := none

/-- Connections and blocks by number, as `accept` and `malloc` have returned them: `threadData` is the variable of
`main`, first that of the timestamp thread, and `args` is what a thread was started with. -/
structure Holdings where
  accepted : Nat := 0
  allocated : Nat := 1
  threadData : ThreadArgs := { block := 0 }
  args : Tid → ThreadArgs := fun _ => { block := 0 }

def Holdings.after (h : Holdings) : SystemEvent E → Holdings
  | .turn (.accept true) => { h with
      accepted := h.accepted + 1
      allocated := h.allocated + 1
      threadData := { block := h.allocated, clientSocket := some h.accepted } }
  | .turn (.create (some tid)) => { h with args := Function.update h.args tid h.threadData }
  | _ => h

/-- The server with what `main` and the threads have been given. -/
def accounted (file : DataFile W E) : Machine (System W × Holdings) (SystemEvent E) where
  step s event := ((system file).step s.1 event).map fun u => (u, s.2.after event)

/-- The session has not closed its socket. -/
def Thread.connected : Thread → Bool
  | .client c => c.pc ≠ .returned ∧ c.pc ≠ .hungUp
  | .stamper _ => false

def Progress.holds : Progress → Bool
  | .finished _ => false
  | _ => true

namespace System

/-- The step with which `handle_client` comes to its `close(client_socket)`. -/
def returns (s : System W) (tid : Tid) : Act E → Bool
  | .client .go =>
    match s.server.threads tid with
    | .client c => c.pc = .unlocking
    | .stamper _ => false
  | .client (.recv .eof _) | .client (.recv .error _) => true
  | _ => false

/-- The connections that are closed, also after a failing `pthread_create`. -/
def closed (s : System W × Holdings) : SystemEvent E → List Nat
  | .turn (.create none) => s.2.threadData.clientSocket.toList
  | .act tid act => if s.1.returns tid act then (s.2.args tid).clientSocket.toList else []
  | _ => []

/-- `free(thread_args)` and `pthread_exit`. -/
def freed (s : System W × Holdings) : SystemEvent E → List Nat
  | .turn (.finish tid) => [(s.2.args tid).block]
  | _ => []

/-- The blocks that a failing `pthread_create` leaves to nobody. -/
def lost (s : System W × Holdings) : SystemEvent E → List Nat
  | .turn (.create none) | .turn (.createFails _) => [s.2.threadData.block]
  | _ => []

end System

/-- How often connection `n` is open in `main` or in a thread. -/
def connections (h : Holdings) (p : Process) (threads : Tid → Thread) (n : Nat) : Nat :=
  p.created.countP (fun t => (threads t).connected && (h.args t).clientSocket == some n) +
    if p.main = .creating ∧ h.threadData.clientSocket = some n then 1 else 0

/-- How often block `b` is still to be used by `main` or a thread. -/
def arguments (h : Holdings) (p : Process) (b : Nat) : Nat :=
  p.created.countP (fun t => (p.threads t).holds && (h.args t).block == b) +
    if (p.main = .creating ∨ p.main = .starting) ∧ h.threadData.block = b then 1 else 0

variable {file : DataFile W E} {device : Bool} {world : W} {timer : Tid} {buffers : Tid → List UInt8}
  {s u : System W} {h : Holdings} {event : SystemEvent E} {events : List (SystemEvent E)} {turn : Turn} {tid : Tid}
  {act : Act E} {n b : Nat}

theorem countP_one {l : List Tid} {p q : Tid → Bool} (distinct : l.Nodup) (inside : tid ∈ l)
    (same : ∀ t, t ≠ tid → p t = q t) :
    l.countP p + (q tid).toNat = l.countP q + (p tid).toNat := by
  induction l with
  | nil => cases inside
  | cons t l ih =>
    obtain ⟨apart, distinct⟩ := List.nodup_cons.mp distinct
    rw [List.countP_cons, List.countP_cons]
    rcases List.mem_cons.mp inside with rfl | later
    · have rest : l.countP p = l.countP q :=
        List.countP_congr fun t member => by rw [same t fun e => apart (e ▸ member)]
      rw [rest]
      cases p tid <;> cases q tid <;> simp
    · have other : t ≠ tid := fun e => apart (e ▸ later)
      have before := ih distinct later
      rw [same t other]
      omega

theorem count_toList (o : Option Nat) (n : Nat) : o.toList.count n = if o = some n then 1 else 0 := by
  cases o with
  | none => rfl
  | some m => simp [List.count_singleton]

theorem arrive_quiet {p q : Process} {next : Option Nat} (arrives : p.arrive next = some q) :
    q.main ≠ .creating ∧ q.main ≠ .starting := by
  unfold Process.arrive at arrives
  cases next with
  | none =>
    obtain rfl := Option.some.inj arrives
    simp
  | some current =>
    obtain ⟨node, _, rfl⟩ := Option.map_eq_some_iff.mp arrives
    simp

/-- A new thread has what `main` gave it, and the others what they had. -/
theorem countP_spawn {p : Process} (fresh : tid ∉ p.known) (test : Tid → ThreadArgs → Bool) :
    (p.created ++ [tid]).countP (fun t => test t (Function.update h.args tid h.threadData t)) =
      p.created.countP (fun t => test t (h.args t)) + (test tid h.threadData).toNat := by
  have others : p.created.countP (fun t => test t (Function.update h.args tid h.threadData t)) =
      p.created.countP fun t => test t (h.args t) := by
    apply List.countP_congr
    intro t member
    have other : t ≠ tid := fun same => fresh (List.mem_append_right _ (same ▸ member))
    rw [Function.update_of_ne other]
  rw [List.countP_append, others, List.countP_singleton, Function.update_self]
  cases test tid h.threadData <;> rfl

/-! ### One step -/

theorem turn_connections {p q : Process} {r : System W} {h' : Holdings} (moves : Moves p turn q)
    (given : h' = h.after (E := E) (.turn turn)) (alive : q.main ≠ .exited)
    (permits : ∀ tid, turn = .create (some tid) → (r.server.threads tid).isStamper = decide (p.main = .starting))
    (untouched : ∀ t, t ∉ p.created → (r.server.threads t).connected = !(r.server.threads t).isStamper) :
    (System.closed (E := E) (r, h) (.turn turn)).count n + connections h' q r.server.threads n +
        (if n < h.accepted then 1 else 0) =
      connections h p r.server.threads n + if n < h'.accepted then 1 else 0 := by
  cases moves with
  | signal | remove | finish =>
    obtain rfl : h' = h := given
    simp only [System.closed, List.count_nil, Nat.zero_add]
    rfl
  | again main | add _ _ main | stray _ main =>
    obtain rfl : h' = h := given
    simp [connections, System.closed, main]
  | close main =>
    obtain rfl : h' = h := given
    simp only [connections, System.closed, main, count_toList, true_and, reduceCtorEq, false_and, if_false]
    omega
  | leave main off arrives =>
    obtain rfl : h' = h := given
    obtain ⟨quiet, _⟩ := arrive_quiet arrives
    obtain ⟨same, _, _⟩ := arrive_frame arrives
    simp [connections, System.closed, main, quiet, same]
  | join current tid early node main finished live arrives =>
    obtain rfl : h' = h := given
    obtain ⟨quiet, _⟩ := arrive_quiet arrives
    obtain ⟨same, _, _⟩ := arrive_frame arrives
    simp [connections, System.closed, main, quiet, same]
  | accept ok main =>
    cases ok with
    | false =>
      obtain rfl : h' = h := given
      simp [connections, System.closed, main]
    | true =>
      subst given
      simp only [connections, System.closed, Holdings.after, main, List.count_nil]
      by_cases new : n = h.accepted
      · simp [new]
      · have later : n < h.accepted + 1 ↔ n < h.accepted := by omega
        simp [later, Ne.symm new]
  | spawn tid timer main fresh =>
    have kept : h'.accepted = h.accepted := by rw [given]; rfl
    have args : h'.args = Function.update h.args tid h.threadData := by rw [given]; rfl
    have unlisted : tid ∉ p.created := fun old => fresh (List.mem_append_right _ old)
    have threads := countP_spawn (h := h) fresh fun t args =>
      (r.server.threads t).connected && args.clientSocket == some n
    simp only [connections, System.closed, List.count_nil, args, kept, threads, untouched tid unlisted, permits tid rfl]
    rcases main with main | main
    · simp [main]
    · by_cases same : h.threadData.clientSocket = some n
      · simp [main, same]
      · simp [main, same, beq_eq_false_iff_ne.mpr same]
  | full | abort | exit => exact (alive rfl).elim

theorem turn_arguments {p q : Process} {r : System W} {h' : Holdings} (moves : Moves p turn q)
    (given : h' = h.after (E := E) (.turn turn)) (alive : q.main ≠ .exited) (distinct : p.created.Nodup)
    (untouched : ∀ t, t ∉ p.created → p.threads t = .working) :
    (System.freed (E := E) (r, h) (.turn turn)).count b + (System.lost (E := E) (r, h) (.turn turn)).count b +
        arguments h' q b + (if b < h.allocated then 1 else 0) =
      arguments h p b + if b < h'.allocated then 1 else 0 := by
  cases moves with
  | signal =>
    obtain rfl : h' = h := given
    simp only [System.freed, System.lost, List.count_nil, Nat.zero_add]
    rfl
  | again main | add _ _ main =>
    obtain rfl : h' = h := given
    simp [arguments, System.freed, System.lost, main]
  | close main | stray _ main =>
    obtain rfl : h' = h := given
    simp [arguments, System.freed, System.lost, main, List.count_singleton]
    omega
  | leave main off arrives =>
    obtain rfl : h' = h := given
    obtain ⟨creating, starting⟩ := arrive_quiet arrives
    obtain ⟨same, threads, _⟩ := arrive_frame arrives
    simp [arguments, System.freed, System.lost, main, creating, starting, same, threads]
  | join current tid early node main finished live arrives =>
    obtain rfl : h' = h := given
    obtain ⟨creating, starting⟩ := arrive_quiet arrives
    obtain ⟨same, threads, _⟩ := arrive_frame arrives
    simp [arguments, System.freed, System.lost, main, creating, starting, same, threads]
  | accept ok main =>
    cases ok with
    | false =>
      obtain rfl : h' = h := given
      simp [arguments, System.freed, System.lost, main]
    | true =>
      subst given
      simp only [arguments, System.freed, System.lost, Holdings.after, main, List.count_nil]
      by_cases new : b = h.allocated
      · simp [new]
      · have later : b < h.allocated + 1 ↔ b < h.allocated := by omega
        simp [later, Ne.symm new]
  | spawn tid timer main fresh =>
    have kept : h'.allocated = h.allocated := by rw [given]; rfl
    have args : h'.args = Function.update h.args tid h.threadData := by rw [given]; rfl
    have unlisted : tid ∉ p.created := fun old => fresh (List.mem_append_right _ old)
    have blocks := countP_spawn (h := h) fresh fun t args => (p.threads t).holds && args.block == b
    have working : (p.threads tid).holds = true := by rw [untouched tid unlisted]; rfl
    simp only [arguments, System.freed, System.lost, List.count_nil, args, kept, blocks, working]
    by_cases same : h.threadData.block = b
    · rcases main with main | main <;> simp [main, same]
    · rcases main with main | main <;> simp [main, same, beq_eq_false_iff_ne.mpr same]
  | remove tid list removes walk =>
    obtain rfl : h' = h := given
    have same (t : Tid) :
        (Function.update p.threads tid (.removed (p.main = .adding tid)) t).holds = (p.threads t).holds := by
      by_cases here : t = tid
      · rw [here, Function.update_self, removes.2.1]
        rfl
      · rw [Function.update_of_ne here]
    simp [arguments, System.freed, System.lost, same]
  | finish tid early removed =>
    obtain rfl : h' = h := given
    have listed : tid ∈ p.created := by
      by_contra unknown
      rw [untouched tid unknown] at removed
      cases removed
    have one := countP_one (p := fun t => (p.threads t).holds && (h'.args t).block == b)
      (q := fun t => (Function.update p.threads tid (.finished early) t).holds && (h'.args t).block == b) distinct listed
      fun t other => by rw [Function.update_of_ne other]
    have holds : (p.threads tid).holds = true := by rw [removed]; rfl
    have gone : (Progress.finished early).holds = false := rfl
    simp only [Function.update_self, holds, gone, Bool.false_and, Bool.true_and, Bool.toNat_false] at one
    simp only [arguments, System.freed, System.lost, List.count_nil, List.count_singleton]
    cases same : (h'.args tid).block == b <;>
      simp only [same, Bool.toNat_true, Bool.toNat_false, Bool.false_eq_true, if_false, if_true] at one ⊢ <;> omega
  | full | abort | exit => exact (alive rfl).elim

/-- A session closes its socket in the step in which it returns. -/
theorem client_closes {c : Client} {w : W} {answer : Answer E} {next : Client × W} (here : s.server.threads tid = .client c)
    (moved : c.step file w answer = some next) :
    s.returns tid (.client answer) = !(Thread.client next.1).connected := by
  cases pc : c.pc with
  | start =>
    obtain ⟨rfl, rfl⟩ := Client.step_start pc moved
    simp [System.returns, here, pc, Thread.connected]
  | receiving =>
    obtain ⟨result, env, rfl, rfl⟩ := Client.step_receiving pc moved
    cases result with
    | data chunk =>
      obtain ⟨same | fails | ⟨fpos, replies⟩, _⟩ := Client.pass_pc file c w chunk env
      · simp [System.returns, Thread.connected, same, pc]
      · simp [System.returns, Thread.connected, fails]
      · simp [System.returns, Thread.connected, replies]
    | _ => simp [System.returns, Thread.connected]
  | replying fpos =>
    obtain ⟨env, unsent, rfl, rfl⟩ | ⟨env, rfl, _, rfl⟩ := Client.step_replying pc moved
    · split <;> simp [System.returns, Thread.connected]
    · simp [System.returns, Thread.connected]
  | unlocking =>
    obtain ⟨rfl, rfl⟩ := Client.step_unlocking pc moved
    simp [System.returns, here, pc, Thread.connected]
  | failing =>
    obtain ⟨rfl, rfl⟩ := Client.step_failing pc moved
    simp [System.returns, here, pc, Thread.connected]
  | cleaning =>
    obtain ⟨rfl, rfl⟩ := Client.step_cleaning pc moved
    simp [System.returns, here, pc, Thread.connected]
  | _ => exact absurd (by simp [Client.Done, pc]) (Client.step_running moved)

theorem act_connections {r : Server W} (distinct : s.process.created.Nodup) (listed : tid ∈ s.process.created)
    (taken : (server file).step s.server (tid, act) = some r) (running : r.exited = false) :
    (System.closed (s, h) (.act tid act)).count n + connections h s.process r.threads n =
      connections h s.process s.server.threads n := by
  have one := countP_one (p := fun t => (s.server.threads t).connected && (h.args t).clientSocket == some n)
    (q := fun t => (r.threads t).connected && (h.args t).clientSocket == some n) distinct listed
    fun t other => by rw [others_stay other taken]
  obtain ⟨_, ⟨c, answer, next, here, rfl, _, moved, rfl⟩ | ⟨pc, here, stamped⟩⟩ := server_step taken
  · have open' : (Thread.client c).connected = true := by
      have busy := Client.step_running moved
      simp only [Client.Done, not_or] at busy
      simp [Thread.connected, busy]
    simp only [Function.update_self, here, open'] at one
    simp only [connections, System.closed, client_closes here moved]
    cases still : (Thread.client next.1).connected with
    | true =>
      simp only [still, Bool.not_true, Bool.false_eq_true, if_false, List.count_nil] at one ⊢
      omega
    | false =>
      simp only [still, Bool.not_false, if_true, count_toList, Bool.false_and, Bool.true_and] at one ⊢
      by_cases same : (h.args tid).clientSocket = some n
      · simp only [same, beq_self_eq_true, Bool.toNat_true, Bool.toNat_false, if_true] at one ⊢
        omega
      · simp only [beq_eq_false_iff_ne.mpr same, same, Bool.toNat_false, if_false] at one ⊢
        omega
  · have none' : s.returns tid act = false := by cases stamped <;> rfl
    have still : (r.threads tid).connected = (s.server.threads tid).connected := by
      rw [here]
      cases stamped with
      | fail => cases running
      | _ => simp [Thread.connected]
    rw [still] at one
    simp only [connections, System.closed, none', Bool.false_eq_true, if_false, List.count_nil]
    omega

/-! ### Every run -/

theorem created_nodup {p q : Process} (moves : Moves p turn q) (distinct : p.created.Nodup) : q.created.Nodup := by
  cases moves with
  | leave main off arrives =>
    rw [(arrive_frame arrives).1]
    exact distinct
  | join current tid early node main finished live arrives =>
    rw [(arrive_frame arrives).1]
    exact distinct
  | spawn tid timer main fresh =>
    rw [List.nodup_append]
    refine ⟨distinct, List.nodup_singleton tid, ?_⟩
    intro a old b new same
    obtain rfl := List.mem_singleton.mp new
    exact fresh (List.mem_append_right _ (same ▸ old))
  | _ => exact distinct

/-- What has become of each connection accepted and of each block allocated so far. -/
structure Accounted (file : DataFile W E) (device : Bool) (s₀ : System W × Holdings) (events : List (SystemEvent E))
    (s : System W) (h : Holdings) : Prop where
  linked : Linked s
  distinct : s.process.created.Nodup
  sockets : s.process.main ≠ .exited → ∀ n, ((accounted file).observe System.closed s₀ events).count n +
    connections h s.process s.server.threads n = if n < h.accepted then 1 else 0
  blocks : s.process.main ≠ .exited → ∀ b, ((accounted file).observe System.freed s₀ events).count b +
    ((accounted file).observe System.lost s₀ events).count b + arguments h s.process b +
      (if device = true ∧ b = 0 then 1 else 0) = if b < h.allocated then 1 else 0

theorem start_accounted (device : Bool) (world : W) (timer : Tid) (buffers : Tid → List UInt8) :
    Accounted file device (System.start device world timer buffers, {}) []
      (System.start device world timer buffers) {} where
  linked := start_linked device world timer buffers
  distinct := List.nodup_nil
  sockets := by
    intro _ n
    cases device <;> rfl
  blocks := by
    intro _ b
    by_cases first : b = 0
    · cases device <;> simp [Machine.observe, arguments, System.start, Process.start, first]
    · cases device <;> simp [Machine.observe, arguments, System.start, Process.start, first, Ne.symm first]

theorem Accounted.step {s₀ : System W × Holdings} (a : Accounted file device s₀ events s h)
    (reached : (accounted file).run s₀ events = some (s, h)) (step : (system file).step s event = some u) :
    Accounted file device s₀ (events ++ [event]) u (h.after event) := by
  have linked := a.linked.step step
  obtain ⟨here, ⟨turn, rfl, permits, moved, after⟩ | ⟨tid, act, rfl, listed, taken, ends⟩⟩ := system_step step
  · obtain ⟨same, _⟩ := Server.after_threads file s.server turn
    rw [← after] at same
    obtain ⟨_, moves⟩ := process_step moved
    have fresh (t : Tid) (unknown : t ∉ s.process.created) :
        (s.server.threads t).connected = !(s.server.threads t).isStamper := by
      rcases a.linked.fresh t unknown with ⟨buffer, at'⟩ | at' <;> simp [at', Thread.connected, Thread.isStamper]
    refine ⟨linked, created_nodup moves a.distinct, ?_, ?_⟩
    · intro alive n
      have counts := turn_connections (E := E) (h := h) (n := n) moves rfl alive (by rintro tid rfl; exact permits) fresh
      have before := a.sockets here n
      rw [Machine.observe_snoc reached, List.count_append, same]
      omega
    · intro alive b
      have counts := turn_arguments (E := E) (r := s) (h := h) (b := b) moves rfl alive a.distinct a.linked.tracked.untouched
      have before := a.blocks here b
      rw [Machine.observe_snoc reached, Machine.observe_snoc reached, List.count_append, List.count_append]
      omega
  · rcases ends with ⟨_, aborted⟩ | ⟨running, same⟩
    · have exited : u.process.main = .exited ∧ u.process.created = s.process.created := by
        generalize u.process = p at aborted
        obtain ⟨_, moves⟩ := process_step aborted
        cases moves
        exact ⟨rfl, rfl⟩
      exact ⟨linked, exited.2 ▸ a.distinct, fun alive => (alive exited.1).elim, fun alive => (alive exited.1).elim⟩
    · refine ⟨linked, same ▸ a.distinct, ?_, ?_⟩
      · intro _ n
        have counts := act_connections (h := h) (n := n) a.distinct listed taken running
        have before := a.sockets here n
        rw [Machine.observe_snoc reached, List.count_append, same]
        show _ + connections h _ _ n = if n < h.accepted then 1 else 0
        omega
      · intro _ b
        rw [Machine.observe_snoc reached, Machine.observe_snoc reached, same]
        rw [show System.freed (s, h) (.act tid act) = [] from rfl, show System.lost (s, h) (.act tid act) = [] from rfl,
          List.append_nil, List.append_nil]
        exact a.blocks here b

theorem accounted_run (reached : (system file).run s events = some u) (h : Holdings) :
    ∃ h', (accounted file).run (s, h) events = some (u, h') := by
  induction events generalizing s h with
  | nil =>
    obtain rfl := Option.some.inj reached
    exact ⟨h, rfl⟩
  | cons event events ih =>
    obtain ⟨v, step, reached⟩ := Machine.run_cons.mp reached
    obtain ⟨h', run⟩ := ih reached (h.after event)
    exact ⟨h', Machine.run_cons.mpr ⟨(v, h.after event), Option.map_eq_some_iff.mpr ⟨v, step, rfl⟩, run⟩⟩

/-- While the process runs, each connection that `accept` returned has been closed once, or it is open in `main` or in
its thread and has not been closed; each block of `ThreadArgs` has been freed once, or was lost with a thread that could
not be created, or is still to be used. The device build never frees the one for the timestamp thread it does not have. -/
theorem system_resources (reached : (system file).run (System.start device world timer buffers) events = some s)
    (running : s.process.main ≠ .exited) :
    ∃ h, (accounted file).run (System.start device world timer buffers, {}) events = some (s, h) ∧
    let shown (look : System W × Holdings → SystemEvent E → List Nat) : List Nat :=
      (accounted file).observe look (System.start device world timer buffers, {}) events
    (∀ n, (shown System.closed).count n + connections h s.process s.server.threads n = if n < h.accepted then 1 else 0) ∧
    ∀ b, (shown System.freed).count b + (shown System.lost).count b + arguments h s.process b +
      (if device = true ∧ b = 0 then 1 else 0) = if b < h.allocated then 1 else 0 := by
  obtain ⟨h, reached⟩ := accounted_run reached {}
  have all := Machine.run_induction
    (P := fun events t => Accounted file device (System.start device world timer buffers, {}) events t.1 t.2)
    (start_accounted device world timer buffers)
    (by
      intro events t event t' reached before _ step
      obtain ⟨u, taken, rfl⟩ := Option.map_eq_some_iff.mp step
      exact before.step reached taken)
    Machine.along_true reached
  exact ⟨h, reached, all.sockets running, all.blocks running⟩

/-- One connection for which there is no thread, one whose client hangs up and one just accepted. -/
theorem system_resources_three :
    let events : List (SystemEvent FileEnv) := [.turn (.create (some 0)), .turn (.add (some 0)), .turn .test,
      .turn (.accept true), .turn (.create none), .turn .test, .turn (.accept true), .turn (.create (some 1)),
      .turn (.add (some 1)), .act 1 (.client .go), .act 1 (.client (.recv .eof { call := {}, seek := {} })),
      .turn (.remove 1), .turn (.finish 1), .turn .test, .turn (.accept true)]
    let s₀ := System.start false none 0 fun _ => []
    let s := ((system regularFile).run s₀ events).getD s₀
    ∃ h, connections h s.process s.server.threads 0 = 0 ∧ connections h s.process s.server.threads 1 = 0 ∧
      connections h s.process s.server.threads 2 = 1 ∧ arguments h s.process 1 = 0 := by
  intro events s₀ s
  have reached := Machine.run_getD (m := system regularFile) (s := s₀) (l := events) (by decide +kernel) s₀
  obtain ⟨h, run, sockets, blocks⟩ := system_resources (s := s) reached (by decide +kernel)
  have three : ((accounted regularFile).run (s₀, {}) events).map (fun t => t.2.accepted) = some 3 := by decide +kernel
  have accepted : h.accepted = 3 := by
    rw [run] at three
    exact Option.some.inj three
  have closed : (accounted regularFile).observe System.closed (s₀, {}) events = [0, 1] := by decide +kernel
  have lost : (accounted regularFile).observe System.lost (s₀, {}) events = [1] := by decide +kernel
  have sockets (n : Nat) : [0, 1].count n + connections h s.process s.server.threads n = if n < 3 then 1 else 0 := by
    rw [← closed, ← accepted]
    exact sockets n
  have freed : (accounted regularFile).observe System.freed (s₀, {}) events = [2] := by decide +kernel
  have used : [2].count 1 + [1].count 1 + arguments h s.process 1 + 0 = if 1 < h.allocated then 1 else 0 := by
    rw [← lost, ← freed]
    exact blocks 1
  refine ⟨h, ?_, ?_, by simpa using sockets 2, ?_⟩
  · have first := sockets 0
    simp at first
    omega
  · have second := sockets 1
    simp at second
    omega
  · simp at used
    split at used <;> omega

end Aesd
