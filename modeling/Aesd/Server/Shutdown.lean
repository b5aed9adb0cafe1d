import Aesd.Server.Registry

/-!
# Shutdown

Which threads `main` has joined when it begins `cleanup`. `join_threads` joins
the threads on the list, and a thread that removed itself late is not on it; a
failing `accept` leads to `cleanup` past `join_threads`.
-/

namespace Aesd
open Library

/-- Every created thread has finished and was joined once. -/
def AllJoined (s : Process) : Prop :=
  ∀ t ∈ s.created, (∃ early, s.threads t = .finished early) ∧ s.joined.count t = 1

/-- A thread removes itself only before it is added, and `accept` fails only while there is no thread. -/
def InOrder (s : Process) : Turn → Prop
  | .remove tid => s.Removes tid → s.main = .adding tid
  | .accept ok => ok = false → s.main = .accepting → s.created = []
  | _ => True

instance decidableInOrder (s : Process) : ∀ turn, Decidable (InOrder s turn)
  | .remove tid => inferInstanceAs (Decidable (s.Removes tid → s.main = .adding tid))
  | .accept ok => inferInstanceAs (Decidable (ok = false → s.main = .accepting → s.created = []))
  | .signal | .test | .create _ | .createFails _ | .add _ | .join | .finish _ | .abort _ | .exit => isTrue trivial

def NobodyLate (threads : Tid → Progress) : Prop := ∀ t, (threads t).late = false

variable {s u : Process} {turn : Turn} {turns : List Turn} {device : Bool}

theorem nobodyLate_update {threads : Tid → Progress} {tid : Tid} {p : Progress}
    (before : p.late = false → (threads tid).late = false) :
    NobodyLate (Function.update threads tid p) ↔ NobodyLate threads ∧ p.late = false := by
  constructor
  · intro nobody
    have here : p.late = false := by simpa using nobody tid
    refine ⟨fun t => ?_, here⟩
    by_cases same : t = tid
    · rw [same, before here]
    · simpa [same] using nobody t
  · intro both t
    by_cases same : t = tid
    · simp [same, both.2]
    · simpa [same] using both.1 t

theorem nobodyLate_step (step : process.step s turn = some u) (notCleaning : u.main ≠ .cleaning) :
    NobodyLate u.threads ↔ NobodyLate s.threads ∧ InOrder s turn := by
  obtain ⟨_, moves⟩ := process_step step
  cases moves with
  | signal | again | spawn | stray | close | add | full | abort | exit => exact (and_iff_left trivial).symm
  | accept ok main =>
    refine (and_iff_left ?_).symm
    intro failed
    subst failed
    exact (notCleaning rfl).elim
  | leave main off arrives =>
    rw [(arrive_frame arrives).2.1]
    exact (and_iff_left trivial).symm
  | join current tid early node main finished live arrives =>
    rw [(arrive_frame arrives).2.1]
    exact (and_iff_left trivial).symm
  | remove tid list removes walk =>
    rw [nobodyLate_update fun _ => by rw [removes.2.1]; rfl]
    unfold InOrder
    simp [Progress.late, removes]
  | finish tid early removed =>
    rw [and_iff_left (show InOrder s (.finish tid) from trivial), nobodyLate_update fun kept => by rw [removed]; exact kept,
      and_iff_left_iff_imp]
    intro nobody
    have kept := nobody tid
    rw [removed] at kept
    exact kept

theorem cleaning_stays (step : process.step s turn = some u) (main : s.main = .cleaning) :
    u.main = .cleaning ∨ u.main = .exited := by
  obtain ⟨_, moves⟩ := process_step step
  cases moves with
  | signal | remove | finish => exact Or.inl main
  | abort | exit => exact Or.inr rfl
  | again main' | leave main' | accept _ main' | stray _ main' | close main' | add _ _ main' | full _ main'
  | join _ _ _ _ main' =>
    rw [main] at main'
    cases main'
  | spawn _ _ main' =>
    rw [main] at main'
    simp at main'

/-- Until `main` begins `cleanup`, the steps were in order exactly when nobody removed itself late. -/
theorem inOrder_iff (run : process.run (Process.start device) turns = some s) (notCleaning : s.main ≠ .cleaning)
    (notExited : s.main ≠ .exited) : process.Along InOrder (Process.start device) turns ↔ NobodyLate s.threads := by
  induction turns using List.reverseRecOn generalizing s with
  | nil =>
    obtain rfl := Option.some.inj run
    exact iff_of_true trivial fun _ => rfl
  | append_singleton turns turn ih =>
    obtain ⟨v, run, step⟩ := Machine.run_snoc.mp run
    have earlier : v.main ≠ .cleaning := by
      intro main
      rcases cleaning_stays step main with cleaning | exited
      · exact notCleaning cleaning
      · exact notExited exited
    rw [Machine.along_snoc run, ih run earlier (process_step step).1, nobodyLate_step step notCleaning]

/-- At the end of `join_threads` the joined threads are the registered ones. -/
theorem Tracked.joined (h : Tracked s) (main : s.main = .cleaning) (empty : s.list.head = none) :
    Registered s.known s.threads s.joined ∧ AllDone s := by
  cases h.shape with
  | listing cells _ _ chain registered nobody =>
    rw [empty] at chain
    obtain rfl := chain_nil.mp chain
    unfold AllDone
    rw [nobody]
    exact ⟨registered, by simp⟩
  | cleared _ registered done => exact ⟨registered, done⟩
  | adding _ _ main' | waiting _ _ _ main' | passing _ _ _ main' | gone main' =>
    rw [main] at main'
    cases main'

theorem allJoined_iff (h : Tracked s) (registered : Registered s.known s.threads s.joined) (done : AllDone s) :
    AllJoined s ↔ NobodyLate s.threads := by
  constructor
  · intro all t
    by_cases listed : t ∈ s.created
    · have member : t ∈ s.joined := List.count_pos_iff.mp (by rw [(all t listed).2]; decide)
      exact ((registered.2 t).mp member).2
    · rw [h.untouched t listed]
      rfl
  · intro nobody t listed
    have member := (registered.2 t).mpr ⟨List.mem_append_right _ listed, nobody t⟩
    exact ⟨⟨true, done t member⟩, by rw [registered.1.count, if_pos member]⟩

theorem nobody_created (h : Tracked s) (none' : s.created = []) : NobodyLate s.threads := by
  intro t
  rw [h.untouched t (by simp [none'])]
  rfl

theorem arrive_cleaning {next : Option Nat} (arrives : s.arrive next = some u) (main : u.main = .cleaning) :
    u.list.head = none := by
  unfold Process.arrive at arrives
  cases next with
  | none =>
    obtain rfl := Option.some.inj arrives
    rfl
  | some current =>
    obtain ⟨node, _, rfl⟩ := Option.map_eq_some_iff.mp arrives
    cases main

/-- When `main` begins `cleanup` it has joined every thread, each finished and once, exactly when every
thread removed itself before it was added and no `accept` failed with a thread created. -/
theorem all_joined_iff (run : process.run (Process.start device) turns = some s) (before : s.main ≠ .cleaning)
    (step : process.step s turn = some u) (begins : u.main = .cleaning) :
    AllJoined u ↔ process.Along InOrder (Process.start device) (turns ++ [turn]) := by
  have tracked := run_tracked run
  have after := tracked.step step
  obtain ⟨notExited, moves⟩ := process_step step
  rw [Machine.along_snoc run, inOrder_iff run before notExited]
  cases moves with
  | accept ok accepting =>
    cases ok with
    | true => cases begins
    | false =>
      obtain ⟨_, _, _, nobody⟩ := tracked.shape.listed (by simp [accepting]) (by simp [accepting]) before notExited
      constructor
      · intro all
        have none' : s.created = [] := by
          apply List.eq_nil_iff_forall_not_mem.mpr
          intro t listed
          have once := (all t listed).2
          simp [nobody] at once
        exact ⟨nobody_created tracked none', fun _ _ => none'⟩
      · intro both t listed
        rw [show s.created = [] from both.2 rfl accepting] at listed
        cases listed
  | leave looping off arrives =>
    obtain ⟨registered, done⟩ := after.joined begins (arrive_cleaning arrives begins)
    rw [allJoined_iff after registered done, (arrive_frame arrives).2.1]
    exact (and_iff_left trivial).symm
  | join current tid early node joining finished live arrives =>
    obtain ⟨registered, done⟩ := after.joined begins (arrive_cleaning arrives begins)
    rw [allJoined_iff after registered done, (arrive_frame arrives).2.1]
    exact (and_iff_left trivial).symm
  | signal | remove | finish => exact (before begins).elim
  | again | spawn | stray | close | add | full | abort | exit => cases begins

/-- A client that hangs up before `main` has added its thread is joined at the signal. -/
theorem early_session_joined :
    let turns : List Turn := [.test, .accept true, .create (some 1), .remove 1, .finish 1, .add (some 0), .signal, .test]
    ∃ s u, process.run (Process.start true) turns = some s ∧ process.step s .join = some u ∧ AllJoined u := by
  intro turns
  have run := Machine.run_getD (m := process) (s := Process.start true) (l := turns) (by decide) (Process.start true)
  have whole := Machine.run_getD (m := process) (s := Process.start true) (l := turns ++ [.join]) (by decide)
    (Process.start true)
  obtain ⟨s, same, step⟩ := Machine.run_snoc.mp whole
  obtain rfl := Option.some.inj (same.symm.trans run)
  exact ⟨_, _, run, step, (all_joined_iff run (by decide) step (by decide)).mpr (by decide)⟩

/-- A session is open when the signal interrupts `accept`. -/
theorem interrupted_accept_joins_nobody :
    ¬ ∀ (device : Bool) (turns : List Turn) (turn : Turn) (s u : Process),
      process.run (Process.start device) turns = some s → s.main ≠ .cleaning → process.step s turn = some u →
      u.main = .cleaning → u.running = false → AllJoined u := by
  intro joined
  let turns : List Turn := [.test, .accept true, .create (some 1), .add (some 0), .test, .signal]
  have run := Machine.run_getD (m := process) (s := Process.start true) (l := turns) (by decide) (Process.start true)
  have whole := Machine.run_getD (m := process) (s := Process.start true) (l := turns ++ [.accept false]) (by decide)
    (Process.start true)
  obtain ⟨s, same, step⟩ := Machine.run_snoc.mp whole
  obtain rfl := Option.some.inj (same.symm.trans run)
  have all := joined true turns _ _ _ run (by decide) step (by decide) (by decide)
  have once := (all 1 (by decide)).2
  revert once
  decide

end Aesd
