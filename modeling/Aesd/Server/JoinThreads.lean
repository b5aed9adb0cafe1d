import Aesd.Server.Registry

/-!
# Who frees a node

A node is freed by its own thread in `remove_thread` or by `main` in
`join_threads`. `main` waits at a node for the thread that frees it, and leaves
`head` on the first node it has freed.
-/

namespace Aesd
open Library

/-- The step frees no freed node and reads no `next` of one. -/
def TouchesLive (s : Process) : Turn → Prop
  | .join => ∀ current tid early, s.main = .joining current tid → s.threads tid = .finished early →
      s.list.nodes current ≠ none
  | .remove tid => s.main ≠ .exited → s.Removes tid → s.removeThread tid ≠ .freed
  | _ => True

/-- `main` joins only threads that removed themselves before they were added, and no thread removes itself
once `main` has joined one. -/
def JoinsEarly (s : Process) : Turn → Prop
  | .join => ∀ current tid early, s.main = .joining current tid → s.threads tid = .finished early → early = true
  | .remove tid => s.Removes tid → ∀ current waited, s.main = .joining current waited → s.joined = []
  | _ => True

variable {s : Process} {tid : Tid} {turn : Turn}

theorem joins_iff (h : Tracked s) : TouchesLive s .join ↔ JoinsEarly s .join := by
  unfold TouchesLive JoinsEarly
  apply forall_congr'
  intro current
  apply forall_congr'
  intro tid
  apply forall_congr'
  intro early
  apply imp_congr_right
  intro main
  apply imp_congr_right
  intro finished
  cases h.shape with
  | listing _ _ notJoining => exact (notJoining current tid main).elim
  | waiting a waited cells main' chain registered first =>
    obtain ⟨rfl, rfl⟩ := MainPc.joining.inj (main.symm.trans main')
    rw [finished] at first
    rcases first with gone | here
    · have late : early = false := by simpa [Progress.late] using gone.1
      simp [late, gone.2]
    · have kept : early = true := by simpa [Progress.late] using here.1
      obtain ⟨next, live⟩ := chain.live (List.mem_of_head? here.2)
      simp [kept, live]
  | passing a waited cells main' chain registered =>
    obtain ⟨rfl, rfl⟩ := MainPc.joining.inj (main.symm.trans main')
    obtain ⟨next, live⟩ := chain.live List.mem_cons_self
    have kept := ((registered.2 tid).mp (by simp)).2
    rw [finished] at kept
    have early' : early = true := by simpa [Progress.late] using kept
    simp [early', live]
  | adding _ _ main' | cleared main' | gone main' =>
    rw [main] at main'
    cases main'

/-- Before `main` has freed a node every thread finds its way through the list. -/
theorem removeThread_done (h : Tracked s) (removes : s.Removes tid) (nobody : s.joined = [])
    (notExited : s.main ≠ .exited) : ∃ list, s.removeThread tid = .done list := by
  cases h.shape with
  | listing cells _ _ chain registered =>
    obtain ⟨_, _, _, list, _, _, walk, _⟩ := removeThread_listed [] chain registered removes List.not_mem_nil
    exact ⟨list, walk⟩
  | adding new cells main chain registered =>
    by_cases same : tid = new
    · subst same
      exact ⟨s.list, removeThread_unlisted chain registered⟩
    · obtain ⟨_, _, _, list, _, _, walk, _⟩ := removeThread_listed [new] chain registered removes (by simpa using same)
      exact ⟨list, walk⟩
  | waiting _ _ cells _ chain registered =>
    obtain ⟨_, _, _, list, _, _, walk, _⟩ := removeThread_listed [] chain registered removes List.not_mem_nil
    exact ⟨list, walk⟩
  | passing _ _ _ _ _ _ _ somebody => exact (somebody nobody).elim
  | cleared _ _ _ somebody => exact (somebody nobody).elim
  | gone main => exact (notExited main).elim

theorem removes_iff (h : Tracked s) : TouchesLive s (.remove tid) ↔ JoinsEarly s (.remove tid) := by
  unfold TouchesLive JoinsEarly
  by_cases nobody : s.joined = []
  · refine iff_of_true ?_ fun _ _ _ _ => nobody
    intro notExited removes
    obtain ⟨list, walk⟩ := removeThread_done h removes nobody notExited
    rw [walk]
    intro e
    cases e
  · cases h.shape with
    | passing current waited _ main _ _ _ _ head points dead =>
      constructor
      · intro live removes
        exact (live (by simp [main]) removes (removeThread_dangling removes points dead)).elim
      · intro early _ removes
        exact (nobody (early removes current waited main)).elim
    | cleared _ registered done =>
      exact iff_of_true (fun _ removes => (nobody_removes registered done removes).elim)
        fun removes => (nobody_removes registered done removes).elim
    | gone main =>
      refine iff_of_true (fun notExited => (notExited main).elim) ?_
      intro _ current waited main'
      rw [main] at main'
      cases main'
    | listing _ _ _ _ _ nobody' | adding _ _ _ _ _ nobody' | waiting _ _ _ _ _ _ _ nobody' => exact (nobody nobody').elim

/-! ### Nothing else stops a step -/

theorem remove_taken (h : Tracked s) (notExited : s.main ≠ .exited)
    (removes : s.Removes tid) (live : TouchesLive s (.remove tid)) : ∃ u, process.step s (.remove tid) = some u := by
  have walk : ∃ list, s.removeThread tid = .done list := by
    by_cases nobody : s.joined = []
    · exact removeThread_done h removes nobody notExited
    · cases h.shape with
      | passing current waited _ main _ _ _ _ head points dead =>
        exact (live notExited removes (removeThread_dangling removes points dead)).elim
      | cleared _ registered done => exact (nobody_removes registered done removes).elim
      | gone main => exact (notExited main).elim
      | listing _ _ _ _ _ nobody' | adding _ _ _ _ _ nobody' | waiting _ _ _ _ _ _ _ nobody' =>
        exact (nobody nobody').elim
  obtain ⟨list, walk⟩ := walk
  unfold process
  simp [notExited, Process.step, removes, walk]

theorem join_taken {current : Nat} {early : Bool} (h : Tracked s) (main : s.main = .joining current tid)
    (finished : s.threads tid = .finished early) (live : TouchesLive s .join) : ∃ u, process.step s .join = some u := by
  have here := live current tid early main finished
  have chain : ∃ next cells, s.list.nodes current = some ⟨tid, next⟩ ∧ Chain (free s.list.nodes current) next cells := by
    cases h.shape with
    | listing _ _ notJoining => exact (notJoining current tid main).elim
    | waiting a waited cells main' chain registered first =>
      obtain ⟨rfl, rfl⟩ := MainPc.joining.inj (main.symm.trans main')
      obtain ⟨_, first⟩ := first.resolve_left fun gone => here gone.2
      obtain ⟨cells, rfl⟩ := List.head?_eq_some_iff.mp first
      rw [chain_head chain] at chain
      obtain ⟨next, live', rest⟩ := chain_free chain
      exact ⟨next, cells, live', rest⟩
    | passing a waited cells main' chain =>
      obtain ⟨rfl, rfl⟩ := MainPc.joining.inj (main.symm.trans main')
      obtain ⟨next, live', rest⟩ := chain_free chain
      exact ⟨next, cells, live', rest⟩
    | adding _ _ main' | cleared main' | gone main' =>
      rw [main] at main'
      cases main'
  obtain ⟨next, cells, found, rest⟩ := chain
  unfold process
  simp only [main, Process.step, finished, found, Option.bind_some, reduceCtorEq, if_false]
  unfold Process.arrive
  cases next with
  | none => exact ⟨_, rfl⟩
  | some following =>
    obtain ⟨_, _, _, rfl, found', _⟩ := chain_some rest
    simp only [found', Option.map_some]
    exact ⟨_, rfl⟩

/-- In any run every node is freed once and read only before exactly when `main` joins only threads that
removed themselves before they were added, and no thread removes itself after the first join. -/
theorem frees_once_iff (device : Bool) (turns : List Turn) :
    process.Along TouchesLive (Process.start device) turns ↔ process.Along JoinsEarly (Process.start device) turns := by
  apply Machine.along_congr (P := Tracked)
  · intro s turn tracked
    cases turn with
    | join => exact joins_iff tracked
    | remove tid => exact removes_iff tracked
    | signal | test | accept | create | createFails | add | finish | abort | exit => exact Iff.rfl
  · intro s turn u tracked step
    exact tracked.step step
  · exact start_tracked device

/-- One session is open when the signal comes: its thread frees the node that `main` waits at. -/
theorem open_session_frees_twice :
    ¬ ∀ (device : Bool) (turns : List Turn), process.Along TouchesLive (Process.start device) turns := by
  intro live
  let turns : List Turn := [.test, .accept true, .create (some 1), .add (some 0), .signal, .test, .remove 1, .finish 1]
  have some' : (process.run (Process.start true) turns).isSome = true := by decide
  have run := Machine.run_getD some' (Process.start true)
  have last := ((Machine.along_snoc run).mp (live true (turns ++ [.join]))).2
  exact last 0 1 false (by decide) (by decide) (by decide)

end Aesd
