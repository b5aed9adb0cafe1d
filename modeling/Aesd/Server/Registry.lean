import Aesd.Server.ThreadList

/-!
# Who is on the list

The invariant of the process: which threads the list behind `head` holds, while
`main` accepts, while it adds a thread and while it joins. A thread that removed
itself after it was added is not on the list; one that removed itself before
stays on it.
-/

namespace Aesd
open Library

def Progress.late : Progress → Bool
  | .working => false
  | .removed early | .finished early => !early

/-- These are the known ids whose threads have not removed themselves late, each once. -/
def Registered (known : List Tid) (threads : Tid → Progress) (tids : List Tid) : Prop :=
  tids.Nodup ∧ ∀ t, t ∈ tids ↔ t ∈ known ∧ (threads t).late = false

def AllDone (s : Process) : Prop := ∀ t ∈ s.joined, s.threads t = .finished true

inductive Shape (s : Process) : Prop where
  | listing (cells : List (Nat × Tid)) (notAdding : ∀ t, s.main ≠ .adding t) (notJoining : ∀ a t, s.main ≠ .joining a t)
      (chain : Chain s.list.nodes s.list.head cells) (registered : Registered s.known s.threads (cells.map Prod.snd))
      (nobody : s.joined = [])
  | adding (tid : Tid) (cells : List (Nat × Tid)) (main : s.main = .adding tid)
      (chain : Chain s.list.nodes s.list.head cells)
      (registered : Registered s.known s.threads (tid :: cells.map Prod.snd)) (nobody : s.joined = [])
  /-- The first iteration of `join_threads`, whose node its thread may have freed. -/
  | waiting (current : Nat) (tid : Tid) (cells : List (Nat × Tid)) (main : s.main = .joining current tid)
      (chain : Chain s.list.nodes s.list.head cells) (registered : Registered s.known s.threads (cells.map Prod.snd))
      (first : (s.threads tid).late = true ∧ s.list.nodes current = none ∨
        (s.threads tid).late = false ∧ cells.head? = some (current, tid)) (nobody : s.joined = [])
  /-- A later iteration; `head` still points to the node freed first. -/
  | passing (current : Nat) (tid : Tid) (cells : List (Nat × Tid)) (main : s.main = .joining current tid)
      (chain : Chain s.list.nodes (some current) ((current, tid) :: cells))
      (registered : Registered s.known s.threads (s.joined ++ tid :: cells.map Prod.snd)) (done : AllDone s)
      (somebody : s.joined ≠ []) (head : Nat) (points : s.list.head = some head) (dead : s.list.nodes head = none)
  | cleared (main : s.main = .cleaning) (registered : Registered s.known s.threads s.joined) (done : AllDone s)
      (somebody : s.joined ≠ [])
  | gone (main : s.main = .exited)

structure Tracked (s : Process) : Prop where
  untouched : ∀ t, t ∉ s.created → s.threads t = .working
  apart : ∀ t ∈ s.strays, t ∉ s.created
  shape : Shape s

variable {s u : Process} {known : List Tid} {threads : Tid → Progress} {tids front back : List Tid} {tid t : Tid}
  {p : Progress} {cells : List (Nat × Tid)} {current : Nat}

theorem start_tracked (device : Bool) : Tracked (Process.start device) where
  untouched _ _ := rfl
  apart _ stray := by cases stray
  shape := by
    apply Shape.listing []
    · intro t
      unfold Process.start
      cases device <;> simp
    · intro a t
      unfold Process.start
      cases device <;> simp
    · exact .nil
    · simp [Registered, Process.start, Process.known]
    · rfl

theorem Shape.listed (h : Shape s) (notAdding : ∀ t, s.main ≠ .adding t) (notJoining : ∀ a t, s.main ≠ .joining a t)
    (notCleaning : s.main ≠ .cleaning) (notExited : s.main ≠ .exited) : ∃ cells, Chain s.list.nodes s.list.head cells ∧
      Registered s.known s.threads (cells.map Prod.snd) ∧ s.joined = [] := by
  cases h with
  | listing cells _ _ chain registered nobody => exact ⟨cells, chain, registered, nobody⟩
  | adding tid _ main => exact (notAdding tid main).elim
  | waiting current tid _ main => exact (notJoining current tid main).elim
  | passing current tid _ main => exact (notJoining current tid main).elim
  | cleared main => exact (notCleaning main).elim
  | gone main => exact (notExited main).elim

theorem Shape.added (h : Shape s) (main : s.main = .adding tid) : ∃ cells, Chain s.list.nodes s.list.head cells ∧
    Registered s.known s.threads (tid :: cells.map Prod.snd) ∧ s.joined = [] := by
  cases h with
  | listing _ notAdding => exact (notAdding tid main).elim
  | adding new cells main' chain registered nobody =>
    obtain rfl := MainPc.adding.inj (main.symm.trans main')
    exact ⟨cells, chain, registered, nobody⟩
  | waiting _ _ _ main' | passing _ _ _ main' | cleared main' | gone main' =>
    rw [main] at main'
    cases main'

/-! ### Registered threads -/

theorem Registered.length_le (h : Registered known threads tids) : tids.length ≤ known.length :=
  (List.subperm_of_subset h.1 fun t inside => ((h.2 t).mp inside).1).length_le

theorem Registered.grow {more : List Tid} (h : Registered known threads tids) (fresh : tid ∉ known)
    (working : threads tid = .working) (grown : ∀ t, t ∈ more ↔ t ∈ known ∨ t = tid) :
    Registered more threads (tid :: tids) := by
  constructor
  · rw [List.nodup_cons]
    exact ⟨fun inside => fresh ((h.2 tid).mp inside).1, h.1⟩
  · intro t
    rw [List.mem_cons, h.2, grown]
    by_cases same : t = tid
    · subst same
      simp [working, Progress.late]
    · simp [same]

theorem Registered.same (h : Registered known threads tids) (late : p.late = (threads tid).late) :
    Registered known (Function.update threads tid p) tids := by
  refine ⟨h.1, ?_⟩
  intro t
  rw [h.2]
  by_cases same : t = tid
  · subst same
    simp [late]
  · simp [same]

theorem Registered.remove (h : Registered known threads (front ++ tid :: back)) (late : p.late = true) :
    Registered known (Function.update threads tid p) (front ++ back) := by
  have moved := List.perm_middle.nodup_iff.mp h.1
  rw [List.nodup_cons] at moved
  refine ⟨moved.2, ?_⟩
  intro t
  have before := h.2 t
  by_cases same : t = tid
  · subst same
    simp only [Function.update_self, late]
    simpa using moved.1
  · rw [Function.update_of_ne same, ← before]
    simp [same]

/-- The cell of a registered thread, and that no cell before it is the thread's. -/
theorem Registered.cell (h : Registered known threads (front ++ cells.map Prod.snd)) (listed : tid ∈ known)
    (kept : (threads tid).late = false) (apart : tid ∉ front) :
    ∃ before a after, cells = before ++ (a, tid) :: after ∧ tid ∉ before.map Prod.snd := by
  have member := (List.mem_append.mp ((h.2 tid).mpr ⟨listed, kept⟩)).resolve_left apart
  obtain ⟨⟨a, x⟩, inside, same⟩ := List.mem_map.mp member
  obtain rfl : x = tid := same
  obtain ⟨before, after, rfl⟩ := List.append_of_mem inside
  refine ⟨before, a, after, rfl, ?_⟩
  intro earlier
  have distinct := (List.nodup_append.mp h.1).2.1
  rw [List.map_append, List.map_cons] at distinct
  exact (List.nodup_append.mp distinct).2.2 x earlier x List.mem_cons_self rfl

/-! ### `remove_thread` -/

/-- A thread on the list takes its node out, whoever else is registered. -/
theorem removeThread_listed (others : List Tid) (chain : Chain s.list.nodes s.list.head cells)
    (registered : Registered s.known s.threads (others ++ cells.map Prod.snd)) (removes : s.Removes tid)
    (apart : tid ∉ others) : ∃ before a after list, cells = before ++ (a, tid) :: after ∧ tid ∉ before.map Prod.snd ∧
      s.removeThread tid = .done list ∧ Chain list.nodes list.head (before ++ after) ∧
      (∀ b, list.nodes b = none ↔ b = a ∨ s.list.nodes b = none) ∧
      Registered s.known (Function.update s.threads tid (.removed false))
        (others ++ (before ++ after).map Prod.snd) := by
  obtain ⟨listed, working, _⟩ := removes
  have kept : (s.threads tid).late = false := by rw [working]; rfl
  obtain ⟨before, a, after, rfl, first⟩ := registered.cell (List.mem_append_right _ listed) kept apart
  have short := registered.length_le
  simp only [List.length_map, List.length_append, List.length_cons] at short
  obtain ⟨list, walk, chain', dead⟩ := ThreadList.removeThread_found chain first
    (show before.length < s.known.length by omega)
  refine ⟨before, a, after, list, rfl, first, walk, chain', dead, ?_⟩
  rw [List.map_append, List.map_cons, ← List.append_assoc] at registered
  rw [List.map_append, ← List.append_assoc]
  exact registered.remove rfl

theorem removeThread_unlisted (chain : Chain s.list.nodes s.list.head cells)
    (registered : Registered s.known s.threads (tid :: cells.map Prod.snd)) : s.removeThread tid = .done s.list := by
  have short := registered.length_le
  simp only [List.length_cons, List.length_map] at short
  exact ThreadList.removeThread_absent chain (List.nodup_cons.mp registered.1).1 (by omega)

/-- Once `join_threads` has freed a node, the walk starts at it. -/
theorem removeThread_dangling {head : Nat} (removes : s.Removes tid) (points : s.list.head = some head)
    (dead : s.list.nodes head = none) : s.removeThread tid = .freed :=
  ThreadList.removeThread_freed points dead (List.length_pos_of_mem (List.mem_append_right _ removes.1))

/-- After `join_threads` no thread is at work. -/
theorem nobody_removes (registered : Registered s.known s.threads s.joined) (done : AllDone s) : ¬ s.Removes tid := by
  intro removes
  obtain ⟨listed, working, _⟩ := removes
  have joined : tid ∈ s.joined := (registered.2 tid).mpr ⟨List.mem_append_right _ listed, by rw [working]; rfl⟩
  rw [done tid joined] at working
  cases working

theorem shape_remove {list : ThreadList} (shape : Shape s) (notExited : s.main ≠ .exited) (removes : s.Removes tid)
    (step : s.removeThread tid = .done list) :
    Shape { s with list, threads := Function.update s.threads tid (.removed (s.main = .adding tid)) } := by
  have working := removes.2.1
  cases shape with
  | listing cells notAdding notJoining chain registered nobody =>
    obtain ⟨before, a, after, list, rfl, _, walk, chain', _, registered'⟩ :=
      removeThread_listed [] chain registered removes List.not_mem_nil
    obtain rfl := Walk.done.inj (walk.symm.trans step)
    rw [decide_eq_false (notAdding tid)]
    exact .listing _ notAdding notJoining chain' registered' nobody
  | adding new cells main chain registered nobody =>
    by_cases same : tid = new
    · subst same
      rw [removeThread_unlisted chain registered] at step
      obtain rfl := Walk.done.inj step
      rw [decide_eq_true main]
      refine .adding tid cells main chain ?_ nobody
      apply registered.same
      rw [working]
      rfl
    · obtain ⟨before, a, after, list, rfl, _, walk, chain', _, registered'⟩ :=
        removeThread_listed [new] chain registered removes (by simpa using same)
      have notNew : ¬ s.main = .adding tid := by
        rw [main]
        intro e
        exact same (MainPc.adding.inj e).symm
      obtain rfl := Walk.done.inj (walk.symm.trans step)
      rw [decide_eq_false notNew]
      exact .adding new _ main chain' registered' nobody
  | waiting current waited cells main chain registered first nobody =>
    obtain ⟨before, a, after, list, rfl, apart, walk, chain', dead, registered'⟩ :=
      removeThread_listed [] chain registered removes List.not_mem_nil
    have notNew : ¬ s.main = .adding tid := by
      rw [main]
      intro e
      cases e
    obtain rfl := Walk.done.inj (walk.symm.trans step)
    rw [decide_eq_false notNew]
    refine .waiting current waited _ main chain' registered' ?_ nobody
    simp only [dead]
    by_cases same : waited = tid
    · subst same
      -- The thread that `main` waits for frees the node `main` stands on.
      left
      rcases first with gone | here
      · rw [working] at gone
        cases gone.1
      · rw [Function.update_self]
        refine ⟨rfl, Or.inl ?_⟩
        cases before with
        | nil => exact (congrArg Prod.fst (Option.some.inj here.2)).symm
        | cons cell before =>
          obtain rfl := Option.some.inj here.2
          simp at apart
    · rw [Function.update_of_ne same]
      rcases first with gone | here
      · exact Or.inl ⟨gone.1, Or.inr gone.2⟩
      · right
        refine ⟨here.1, ?_⟩
        cases before with
        | nil =>
          have cell := Option.some.inj here.2
          exact (same (congrArg Prod.snd cell).symm).elim
        | cons cell before => exact here.2
  | passing current waited cells main chain registered done somebody head points dead =>
    rw [removeThread_dangling removes points dead] at step
    cases step
  | cleared main registered done somebody => exact (nobody_removes registered done removes).elim
  | gone main => exact (notExited main).elim

/-! ### The other steps -/

theorem AllDone.finish {early : Bool} (h : AllDone s) (removed : s.threads tid = .removed early) :
    AllDone { s with threads := Function.update s.threads tid (.finished early) } := by
  intro t member
  have apart : t ≠ tid := by
    intro same
    have done := h t member
    rw [same, removed] at done
    cases done
  simp only [Function.update_of_ne apart]
  exact h t member

/-- `join_threads` begins. -/
theorem shape_enter (chain : Chain s.list.nodes s.list.head cells)
    (registered : Registered s.known s.threads (cells.map Prod.snd)) (nobody : s.joined = [])
    (arrives : s.arrive s.list.head = some u) : Shape u := by
  unfold Process.arrive at arrives
  cases head : s.list.head with
  | none =>
    rw [head] at chain arrives
    obtain rfl := Option.some.inj arrives
    obtain rfl := chain_nil.mp chain
    exact .listing [] (by simp) (by simp) .nil registered nobody
  | some current =>
    rw [head] at arrives
    have chain' := chain
    rw [head] at chain'
    obtain ⟨tid, next, rest, rfl, live, _⟩ := chain_some chain'
    simp only [live, Option.map_some, Option.some.injEq] at arrives
    subst arrives
    refine .waiting current tid _ rfl chain registered (Or.inr ⟨?_, rfl⟩) nobody
    exact ((registered.2 tid).mp List.mem_cons_self).2

/-- `join_threads` goes on to the next node, or is done. -/
theorem shape_onward {head : Nat} {next : Option Nat} (arrives : s.arrive next = some u)
    (points : s.list.head = some head) (dead : s.list.nodes head = none) (chain : Chain s.list.nodes next cells)
    (registered : Registered s.known s.threads (s.joined ++ cells.map Prod.snd)) (done : AllDone s)
    (somebody : s.joined ≠ []) : Shape u := by
  unfold Process.arrive at arrives
  cases next with
  | none =>
    obtain rfl := Option.some.inj arrives
    obtain rfl := chain_nil.mp chain
    rw [List.map_nil, List.append_nil] at registered
    exact .cleared rfl registered done somebody
  | some current =>
    obtain ⟨tid, _, rest, rfl, live, _⟩ := chain_some chain
    simp only [live, Option.map_some, Option.some.injEq] at arrives
    subst arrives
    exact .passing current tid rest rfl chain registered done somebody head points dead

/-- One iteration frees the node it stands on and goes on. -/
theorem shape_join {early : Bool} {node : ThreadNode} (shape : Shape s) (main : s.main = .joining current tid)
    (finished : s.threads tid = .finished early) (live : s.list.nodes current = some node)
    (arrives : { s with list := { s.list with nodes := free s.list.nodes current },
                        joined := s.joined ++ [tid] }.arrive node.next = some u) : Shape u := by
  cases shape with
  | listing cells notAdding notJoining chain registered nobody => exact (notJoining _ _ main).elim
  | adding new cells main' chain registered nobody =>
    rw [main] at main'
    cases main'
  | waiting a waited cells main' chain registered first nobody =>
    obtain ⟨rfl, rfl⟩ := MainPc.joining.inj (main.symm.trans main')
    rcases first with gone | here
    · rw [gone.2] at live
      cases live
    obtain ⟨kept, first⟩ := here
    cases cells with
    | nil => cases first
    | cons cell cells =>
      obtain rfl := Option.some.inj first
      have points : s.list.head = some current := chain_head chain
      rw [points] at chain
      obtain ⟨next, live', chain'⟩ := chain_free chain
      obtain rfl := Option.some.inj (live.symm.trans live')
      refine shape_onward arrives points (by simp) chain' ?_ ?_ (by simp)
      · simpa [nobody, Process.known] using registered
      · intro t member
        obtain rfl : t = tid := by simpa [nobody] using member
        rw [finished] at kept ⊢
        simpa [Progress.late] using kept
  | passing a waited cells main' chain registered done somebody head points dead =>
    obtain ⟨rfl, rfl⟩ := MainPc.joining.inj (main.symm.trans main')
    obtain ⟨next, live', chain'⟩ := chain_free chain
    obtain rfl := Option.some.inj (live.symm.trans live')
    have apart : head ≠ current := by
      intro same
      rw [same, live] at dead
      cases dead
    refine shape_onward arrives points (by simp [free_of_ne apart, dead]) chain' ?_ ?_ (by simp)
    · simpa [Process.known] using registered
    · intro t member
      rcases List.mem_append.mp member with old | new
      · exact done t old
      · obtain rfl := List.mem_singleton.mp new
        have kept := ((registered.2 t).mp (by simp)).2
        rw [finished] at kept ⊢
        simpa [Progress.late] using kept
  | cleared main' registered done somebody =>
    rw [main] at main'
    cases main'
  | gone main' =>
    rw [main] at main'
    cases main'

theorem process_shape {turn : Turn} (h : Tracked s) (step : process.step s turn = some u) : Shape u := by
  obtain ⟨notExited, moves⟩ := process_step step
  obtain ⟨untouched, _, shape⟩ := h
  cases moves with
  | signal =>
    cases shape with
    | listing cells notAdding notJoining chain registered nobody =>
      exact .listing cells notAdding notJoining chain registered nobody
    | adding new cells main chain registered nobody => exact .adding new cells main chain registered nobody
    | waiting a waited cells main chain registered first nobody =>
      exact .waiting a waited cells main chain registered first nobody
    | passing a waited cells main chain registered done somebody head points dead =>
      exact .passing a waited cells main chain registered done somebody head points dead
    | cleared main registered done somebody => exact .cleared main registered done somebody
    | gone main => exact .gone main
  | again main on =>
    obtain ⟨cells, chain, registered, nobody⟩ := shape.listed (by simp [main]) (by simp [main]) (by simp [main]) notExited
    exact .listing cells (by simp) (by simp) chain registered nobody
  | leave main off arrives =>
    obtain ⟨cells, chain, registered, nobody⟩ := shape.listed (by simp [main]) (by simp [main]) (by simp [main]) notExited
    exact shape_enter chain registered nobody arrives
  | accept ok main =>
    obtain ⟨cells, chain, registered, nobody⟩ := shape.listed (by simp [main]) (by simp [main]) (by simp [main]) notExited
    exact .listing cells (by cases ok <;> simp) (by cases ok <;> simp) chain registered nobody
  | spawn tid timer main fresh =>
    obtain ⟨cells, chain, registered, nobody⟩ := shape.listed (by rcases main with h | h <;> simp [h])
      (by rcases main with h | h <;> simp [h]) (by rcases main with h | h <;> simp [h]) notExited
    refine .adding tid cells rfl chain (registered.grow fresh (untouched tid ?_) ?_) nobody
    · exact fun old => fresh (List.mem_append_right _ old)
    · simp [Process.known, or_assoc]
  | stray left main fresh =>
    obtain ⟨cells, chain, registered, nobody⟩ := shape.listed (by simp [main]) (by simp [main]) (by simp [main]) notExited
    refine .adding left cells rfl chain (registered.grow fresh (untouched left ?_) ?_) nobody
    · exact fun old => fresh (List.mem_append_right _ old)
    · simp [Process.known, or_comm]
  | close main =>
    obtain ⟨cells, chain, registered, nobody⟩ := shape.listed (by simp [main]) (by simp [main]) (by simp [main]) notExited
    exact .listing cells (by simp) (by simp) chain registered nobody
  | add tid newNode main unused =>
    obtain ⟨cells, chain, registered, nobody⟩ := shape.added main
    exact .listing ((newNode, tid) :: cells) (by simp) (by simp) (chain_push chain unused tid) registered nobody
  | full tid main => exact .gone rfl
  | join current tid early node main finished live arrives => exact shape_join shape main finished live arrives
  | remove tid list removes walk => exact shape_remove shape notExited removes walk
  | finish tid early removed =>
    have late : (Progress.finished early).late = (s.threads tid).late := by rw [removed]; rfl
    cases shape with
    | listing cells notAdding notJoining chain registered nobody =>
      exact .listing cells notAdding notJoining chain (registered.same late) nobody
    | adding new cells main chain registered nobody => exact .adding new cells main chain (registered.same late) nobody
    | waiting a waited cells main chain registered first nobody =>
      refine .waiting a waited cells main chain (registered.same late) ?_ nobody
      have same : (Function.update s.threads tid (.finished early) waited).late = (s.threads waited).late := by
        by_cases same : waited = tid
        · rw [same, Function.update_self, late]
        · rw [Function.update_of_ne same]
      simp only [same]
      exact first
    | passing a waited cells main chain registered done somebody head points dead =>
      exact .passing a waited cells main chain (registered.same late) (done.finish removed) somebody head points dead
    | cleared main registered done somebody => exact .cleared main (registered.same late) (done.finish removed) somebody
    | gone main => exact (notExited main).elim
  | abort | exit => exact .gone rfl

theorem arrive_frame {next : Option Nat} (arrives : s.arrive next = some u) :
    u.created = s.created ∧ u.threads = s.threads ∧ u.joined = s.joined := by
  unfold Process.arrive at arrives
  cases next with
  | none =>
    obtain rfl := Option.some.inj arrives
    exact ⟨rfl, rfl, rfl⟩
  | some current =>
    obtain ⟨node, _, rfl⟩ := Option.map_eq_some_iff.mp arrives
    exact ⟨rfl, rfl, rfl⟩

theorem arrive_strays {next : Option Nat} (arrives : s.arrive next = some u) : u.strays = s.strays := by
  unfold Process.arrive at arrives
  cases next with
  | none =>
    obtain rfl := Option.some.inj arrives
    rfl
  | some current =>
    obtain ⟨node, _, rfl⟩ := Option.map_eq_some_iff.mp arrives
    rfl

/-- No thread gets the id that a failing `pthread_create` left behind. -/
theorem strays_apart {turn : Turn} (apart : ∀ t ∈ s.strays, t ∉ s.created) (step : process.step s turn = some u) :
    ∀ t ∈ u.strays, t ∉ u.created := by
  obtain ⟨_, moves⟩ := process_step step
  cases moves with
  | leave main off arrives | join current tid early node main finished live arrives =>
    rw [arrive_strays arrives, (arrive_frame arrives).1]
    exact apart
  | spawn tid timer main fresh =>
    intro t stray inside
    rcases List.mem_append.mp inside with old | new
    · exact apart t stray old
    · obtain rfl := List.mem_singleton.mp new
      exact fresh (List.mem_append_left _ stray)
  | stray left main fresh =>
    intro t stray inside
    rcases List.mem_cons.mp stray with rfl | old
    · exact fresh (List.mem_append_right _ inside)
    · exact apart t old inside
  | _ => exact apart

theorem Tracked.step {turn : Turn} (h : Tracked s) (step : process.step s turn = some u) : Tracked u := by
  refine ⟨?_, strays_apart h.apart step, process_shape h step⟩
  obtain ⟨_, moves⟩ := process_step step
  intro t unknown
  cases moves with
  | leave main off arrives =>
    obtain ⟨created, threads, _⟩ := arrive_frame arrives
    rw [threads]
    exact h.untouched t (created ▸ unknown)
  | join current tid early node main finished live arrives =>
    obtain ⟨created, threads, _⟩ := arrive_frame arrives
    rw [threads]
    exact h.untouched t (created ▸ unknown)
  | spawn tid timer main fresh => exact h.untouched t fun old => unknown (List.mem_append_left _ old)
  | remove tid list removes walk =>
    have apart : t ≠ tid := fun same => unknown (same ▸ removes.1)
    simp only [Function.update_of_ne apart]
    exact h.untouched t unknown
  | finish tid early removed =>
    have apart : t ≠ tid := by
      intro same
      have working := h.untouched t unknown
      rw [same, removed] at working
      cases working
    simp only [Function.update_of_ne apart]
    exact h.untouched t unknown
  | signal | again | accept | stray | close | add | full | abort | exit => exact h.untouched t unknown

/-- The list is as the invariant says after any steps in any order. -/
theorem run_tracked {device : Bool} {turns : List Turn} (run : process.run (Process.start device) turns = some s) :
    Tracked s :=
  Machine.run_invariant (P := Tracked) (fun tracked _ step => tracked.step step) (start_tracked device)
    Machine.along_true run

/-! ### The list against the running threads -/

/-- The list has one node for each created thread that has not executed `remove_thread`, and no other. -/
def Tracks (s : Process) : Prop :=
  ∃ cells, Chain s.list.nodes s.list.head cells ∧
    ∀ t, (cells.map Prod.snd).count t = if t ∈ s.created ∧ s.threads t = .working then 1 else 0

/-- The process is there, and no thread is between its creation and its `add_thread`. -/
def Settles (s : Process) : Prop := (∀ t ∈ s.created, s.main ≠ .adding t) ∧ s.main ≠ .exited

def ListExact (device : Bool) (turns : List Turn) : Prop :=
  ∀ earlier later s, turns = earlier ++ later → process.run (Process.start device) earlier = some s → Settles s → Tracks s

/-- `main` does not add a thread that it has not created or that has already executed `remove_thread`. -/
def AddsWorking (s : Process) (turn : Turn) : Prop :=
  ∀ tid newNode, turn = .add (some newNode) → s.main = .adding tid → s.list.nodes newNode = none →
    tid ∈ s.created ∧ s.threads tid = .working

/-- It removed itself before it was added. -/
def Progress.stale : Progress → Bool
  | .working => false
  | .removed early | .finished early => early

theorem working_iff (p : Progress) : p = .working ↔ p.late = false ∧ p.stale = false := by
  cases p with
  | working => simp [Progress.late, Progress.stale]
  | removed early => cases early <;> simp [Progress.late, Progress.stale]
  | finished early => cases early <;> simp [Progress.late, Progress.stale]

/-- The ids on the list, which are all but the one `main` is about to add. -/
theorem Shape.settled (h : Shape s) (notExited : s.main ≠ .exited) (nobody : s.joined = []) :
    ∃ cells, Chain s.list.nodes s.list.head cells ∧ (cells.map Prod.snd).Nodup ∧
      ∀ t, t ∈ cells.map Prod.snd ↔ (t ∈ s.known ∧ (s.threads t).late = false) ∧ s.main ≠ .adding t := by
  cases h with
  | listing cells notAdding _ chain registered =>
    exact ⟨cells, chain, registered.1, fun t => by rw [registered.2, and_iff_left (notAdding t)]⟩
  | adding tid cells main chain registered =>
    obtain ⟨absent, distinct⟩ := List.nodup_cons.mp registered.1
    refine ⟨cells, chain, distinct, fun t => ?_⟩
    rw [← registered.2, main, ne_eq, MainPc.adding.injEq, List.mem_cons]
    constructor
    · intro inside
      exact ⟨Or.inr inside, fun same => absent (same ▸ inside)⟩
    · intro both
      exact both.1.resolve_left fun same => both.2 same.symm
  | waiting _ _ cells main chain registered =>
    exact ⟨cells, chain, registered.1, fun t => by simp [registered.2, main]⟩
  | passing _ _ _ _ _ _ _ somebody => exact (somebody nobody).elim
  | cleared _ _ _ somebody => exact (somebody nobody).elim
  | gone main => exact (notExited main).elim

theorem tracks_iff (h : Tracked s) (settles : Settles s) (nobody : s.joined = []) :
    Tracks s ↔ (∀ t, (s.threads t).stale = false) ∧ ∀ t ∈ s.strays, s.main = .adding t := by
  obtain ⟨notAdding, notExited⟩ := settles
  obtain ⟨cells, chain, distinct, members⟩ := h.shape.settled notExited nobody
  have count (t : Tid) : (cells.map Prod.snd).count t =
      if (t ∈ s.known ∧ (s.threads t).late = false) ∧ s.main ≠ .adding t then 1 else 0 := by
    rw [distinct.count]
    exact if_congr (members t) rfl rfl
  constructor
  · intro tracks
    obtain ⟨cells', chain', counts⟩ := tracks
    obtain rfl := chain_unique chain chain'
    constructor
    · intro t
      by_cases listed : t ∈ s.created
      · by_contra stale
        have notWorking : s.threads t ≠ .working := fun working => stale ((working_iff _).mp working).2
        have kept : (s.threads t).late = false := by
          revert stale
          cases s.threads t <;> simp [Progress.late, Progress.stale]
        have both := (count t).symm.trans (counts t)
        have known : t ∈ s.known := List.mem_append_right _ listed
        simp [listed, known, kept, notWorking, notAdding t listed] at both
      · rw [h.untouched t listed]
        rfl
    · intro t stray
      by_contra notAdding
      have unlisted := h.apart t stray
      have both := (count t).symm.trans (counts t)
      have known : t ∈ s.known := List.mem_append_left _ stray
      simp [unlisted, known, h.untouched t unlisted, Progress.late, notAdding] at both
  · intro both
    obtain ⟨fresh, nobodyStray⟩ := both
    refine ⟨cells, chain, fun t => ?_⟩
    rw [count]
    apply if_congr _ rfl rfl
    rw [working_iff, fresh t]
    constructor
    · rintro ⟨⟨known, kept⟩, other⟩
      exact ⟨(List.mem_append.mp known).resolve_left fun stray => other (nobodyStray t stray), kept, rfl⟩
    · rintro ⟨listed, kept, _⟩
      exact ⟨⟨List.mem_append_right _ listed, kept⟩, notAdding t listed⟩

/-- A stale thread is one that `main` is about to add. -/
theorem stale_step {turn : Turn} (fresh : ∀ t, (s.threads t).stale = true → s.main = .adding t ∨ s.main = .exited)
    (adds : AddsWorking s turn) (step : process.step s turn = some u) :
    ∀ t, (u.threads t).stale = true → u.main = .adding t ∨ u.main = .exited := by
  obtain ⟨notExited, moves⟩ := process_step step
  have before (t : Tid) (stale : (s.threads t).stale = true) : s.main = .adding t := (fresh t stale).resolve_right notExited
  -- Where `main` adds nobody there is no stale thread.
  have nobody (t : Tid) (other : ∀ t, s.main ≠ .adding t) : (s.threads t).stale ≠ true :=
    fun stale => other t (before t stale)
  intro t stale
  cases moves with
  | signal => exact Or.inl (before t stale)
  | again main | accept _ main | close main | stray _ main => exact (nobody t (by simp [main]) stale).elim
  | leave main off arrives =>
    rw [(arrive_frame arrives).2.1] at stale
    exact (nobody t (by simp [main]) stale).elim
  | spawn tid timer main unknown =>
    rcases main with main | main
    · exact (nobody t (by simp [main]) stale).elim
    · exact (nobody t (by simp [main]) stale).elim
  | add tid newNode main unused =>
    obtain rfl := MainPc.adding.inj (main.symm.trans (before t stale))
    obtain ⟨_, working⟩ := adds tid newNode rfl main unused
    simp only [working, Progress.stale] at stale
    cases stale
  | join current tid early node main finished live arrives =>
    rw [(arrive_frame arrives).2.1] at stale
    exact (nobody t (by simp [main]) stale).elim
  | remove tid list removes walk =>
    by_cases same : t = tid
    · subst same
      simp only [Function.update_self, Progress.stale, decide_eq_true_eq] at stale
      exact Or.inl stale
    · simp only [Function.update_of_ne same] at stale
      exact Or.inl (before t stale)
  | finish tid early removed =>
    by_cases same : t = tid
    · subst same
      simp only [Function.update_self, Progress.stale] at stale
      exact Or.inl (before t (by rw [removed]; exact stale))
    · simp only [Function.update_of_ne same] at stale
      exact Or.inl (before t stale)
  | full | abort | exit => exact Or.inr rfl

/-- An id of no thread is one that `main` is about to add. -/
theorem stray_step {turn : Turn} (h : Tracked s) (adding : ∀ t ∈ s.strays, s.main = .adding t ∨ s.main = .exited)
    (adds : AddsWorking s turn) (step : process.step s turn = some u) :
    ∀ t ∈ u.strays, u.main = .adding t ∨ u.main = .exited := by
  obtain ⟨notExited, moves⟩ := process_step step
  have before (t : Tid) (stray : t ∈ s.strays) : s.main = .adding t := (adding t stray).resolve_right notExited
  have nobody (t : Tid) (other : ∀ t, s.main ≠ .adding t) : t ∉ s.strays := fun stray => other t (before t stray)
  intro t stray
  cases moves with
  | signal | remove | finish => exact Or.inl (before t stray)
  | again main | accept _ main | close main => exact (nobody t (by simp [main]) stray).elim
  | leave main _ arrives | join _ _ _ _ main _ _ arrives =>
    rw [arrive_strays arrives] at stray
    exact (nobody t (by simp [main]) stray).elim
  | spawn tid timer main unknown => exact (nobody t (by rcases main with main | main <;> simp [main]) stray).elim
  | stray left main =>
    rcases List.mem_cons.mp stray with rfl | old
    · exact Or.inl rfl
    · exact (nobody t (by simp [main]) old).elim
  | add tid newNode main unused =>
    obtain rfl := MainPc.adding.inj (main.symm.trans (before t stray))
    exact (h.apart tid stray (adds tid newNode rfl main unused).1).elim
  | full | abort | exit => exact Or.inr rfl

/-- A node that `main` could join has a stale thread. -/
theorem nobody_step {turn : Turn} (h : Tracked s)
    (fresh : ∀ t, (s.threads t).stale = true → s.main = .adding t ∨ s.main = .exited) (nobody : s.joined = [])
    (step : process.step s turn = some u) : u.joined = [] := by
  obtain ⟨_, moves⟩ := process_step step
  cases moves with
  | leave _ _ arrives =>
    rw [(arrive_frame arrives).2.2]
    exact nobody
  | join current tid early node main finished live =>
    cases h.shape with
    | waiting a waited cells main' _ _ first =>
      obtain ⟨rfl, rfl⟩ := MainPc.joining.inj (main.symm.trans main')
      have kept : (s.threads tid).late = false := by
        rcases first with ⟨_, dead⟩ | ⟨kept, _⟩
        · rw [live] at dead
          cases dead
        · exact kept
      have stale : (s.threads tid).stale = true := by
        rw [finished] at kept ⊢
        simpa [Progress.late, Progress.stale] using kept
      rcases fresh tid stale with other | other
      · rw [main] at other
        cases other
      · rw [main] at other
        cases other
    | listing _ _ notJoining => exact (notJoining _ _ main).elim
    | passing _ _ _ _ _ _ _ somebody => exact (somebody nobody).elim
    | adding _ _ main' | cleared main' | gone main' =>
      rw [main] at main'
      cases main'
  | _ => exact nobody

/-- In any run the list is exact in every state on the way in which no thread waits to be added exactly
when `main` never adds a thread that it could not create or that has already removed itself. -/
theorem list_exact_iff (device : Bool) (turns : List Turn) :
    ListExact device turns ↔ process.Along AddsWorking (Process.start device) turns := by
  constructor
  · intro exact'
    apply Machine.along_of_prefixes
    intro earlier turn later s split run tid newNode add main unused
    obtain ⟨cells, _, registered, nobody⟩ := (run_tracked run).shape.added main
    have step : process.step s turn = some { s with main := .looping, list := s.list.addThread newNode tid } := by
      rw [add]
      unfold process
      simp [main, Process.step, unused]
    have run' := Machine.run_snoc.mpr ⟨s, run, step⟩
    have settles : Settles { s with main := .looping, list := s.list.addThread newNode tid } :=
      ⟨by simp, by simp⟩
    have tracks := exact' (earlier ++ [turn]) later _ (by simp [split]) run' settles
    obtain ⟨fresh, nobodyStray⟩ := (tracks_iff (run_tracked run') settles nobody).mp tracks
    obtain ⟨known, kept⟩ := (registered.2 tid).mp List.mem_cons_self
    refine ⟨(List.mem_append.mp known).resolve_left fun stray => ?_, (working_iff _).mpr ⟨kept, fresh tid⟩⟩
    cases nobodyStray tid stray
  · intro adds earlier later s split run settles
    obtain ⟨fresh, nobody, strays⟩ := Machine.on_the_way
      (P := fun _ s => (∀ t, (s.threads t).stale = true → s.main = .adding t ∨ s.main = .exited) ∧ s.joined = [] ∧
        ∀ t ∈ s.strays, s.main = .adding t ∨ s.main = .exited)
      ⟨fun t stale => (by cases stale), rfl, fun t stray => (by cases stray)⟩
      (by
        intro _ v turn next reached before guard step
        have tracked := run_tracked reached
        exact ⟨stale_step before.1 guard step, nobody_step tracked before.1 before.2.1 step,
          stray_step tracked before.2.2 guard step⟩)
      adds earlier later s split run
    have tracked := run_tracked run
    refine (tracks_iff tracked settles nobody).mpr ⟨fun t => ?_, fun t stray => (strays t stray).resolve_right settles.2⟩
    by_contra stale
    rcases fresh t (by simpa using stale) with adding | exited
    · refine settles.1 t ?_ adding
      by_contra unknown
      rw [tracked.untouched t unknown] at stale
      exact stale rfl
    · exact settles.2 exited

/-- The client hangs up at once: its thread is past `remove_thread` before `main` adds it, and its node
stays. -/
theorem list_keeps_finished_thread : ¬ ∀ (device : Bool) (turns : List Turn), ListExact device turns := by
  intro exact'
  let turns : List Turn := [.test, .accept true, .create (some 1), .remove 1, .finish 1, .add (some 0)]
  have some' : (process.run (Process.start true) turns).isSome := by decide
  have run := Machine.run_getD some' (Process.start true)
  have main : ((process.run (Process.start true) turns).getD (Process.start true)).main = .looping := by decide
  have settles : Settles ((process.run (Process.start true) turns).getD (Process.start true)) :=
    ⟨by simp [main], by simp [main]⟩
  have tracks := exact' true turns turns [] _ (by simp) run settles
  have fresh := ((tracks_iff (run_tracked run) settles (by decide)).mp tracks).1 1
  revert fresh
  decide

end Aesd
