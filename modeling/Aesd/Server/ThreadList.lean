import Aesd.Library.Chain
import Aesd.Library.Machine
import Mathlib.Data.List.Perm.Subperm

/-!
# The thread list

`add_thread`, `remove_thread` and `join_threads` on the list behind `head`, and
the process around them: `main` with its accept loop and the threads it creates,
one atomic step at a time. What `accept`, `pthread_create` and `malloc` answer is
in the label. Where a step would read a freed node there is no next state.
-/

namespace Aesd
open Library

abbrev Tid := Nat

abbrev ThreadNode := Node Tid

structure ThreadList where
  head : Option Nat := none
  nodes : Nodes Tid := fun _ => none

/-- How a walk through the list ends. -/
inductive Walk where
  | done (list : ThreadList)
  | freed
  | endless

namespace ThreadList

def addThread (l : ThreadList) (newNode : Nat) (tid : Tid) : ThreadList :=
  ⟨some newNode, Function.update l.nodes newNode (some ⟨tid, l.head⟩)⟩

/-- The loop of `remove_thread`, over at most `left` nodes. -/
def removeLoop (l : ThreadList) (tid : Tid) : (left : Nat) → (prev current : Option Nat) → Walk
  | _, _, none => .done l
  | 0, _, some _ => .endless
  | left + 1, prev, some current =>
    match l.nodes current with
    | none => .freed
    | some node =>
      if node.value = tid then
        match prev with
        | none => .done ⟨node.next, free l.nodes current⟩
        | some prev => .done ⟨l.head, free (setNext l.nodes prev node.next) current⟩
      else l.removeLoop tid left (some current) node.next

def removeThread (l : ThreadList) (tid : Tid) (left : Nat) : Walk := l.removeLoop tid left none l.head

end ThreadList

/-- A created thread: at work, past its `remove_thread` or finished. `early` is whether it removed itself
before `main` had added it. -/
inductive Progress where
  | working
  | removed (early : Bool)
  | finished (early : Bool)
  deriving DecidableEq

/-- Where `main` is: before the timestamp thread, at `while (running)`, in `accept`, before `pthread_create`,
before `add_thread`, at a node of `join_threads`, in `cleanup`, or the process is gone. -/
inductive MainPc where
  | starting
  | looping
  | accepting
  | creating
  | adding (tid : Tid)
  | joining (current : Nat) (tid : Tid)
  | cleaning
  | exited
  deriving DecidableEq

structure Process where
  running : Bool := true
  main : MainPc
  list : ThreadList := {}
  created : List Tid := []
  /-- What `pthread_create` left in `timestamp_tid` when it failed: the id of no thread. -/
  strays : List Tid := []
  threads : Tid → Progress := fun _ => .working
  /-- The thread that runs `timestamp_thread`. -/
  timer : Option Tid := none
  joined : List Tid := []

inductive Turn where
  | signal
  | test
  | accept (ok : Bool)
  | create (tid : Option Tid)
  | createFails (left : Tid)
  | add (newNode : Option Nat)
  | join
  | remove (tid : Tid)
  | finish (tid : Tid)
  | abort (tid : Tid)
  | exit

namespace Process

/-- The device build starts no timestamp thread. -/
def start (device : Bool) : Process := { main := if device then .looping else .starting }

/-- `while (current != NULL)` of `join_threads`, and the id that `pthread_join` is called with. -/
def arrive (s : Process) : Option Nat → Option Process
  | none => some { s with main := .cleaning, list := { s.list with head := none } }
  | some current => (s.list.nodes current).map fun node => { s with main := .joining current node.value }

/-- The ids that `add_thread` may have been given. -/
def known (s : Process) : List Tid := s.strays ++ s.created

/-- `pthread_create` succeeded. -/
def spawn (s : Process) (tid : Tid) (timer : Option Tid) : Option Process :=
  if tid ∈ s.known then none
  else some { s with main := .adding tid, created := s.created ++ [tid], timer }

def removeThread (s : Process) (tid : Tid) : Walk := s.list.removeThread tid s.known.length

/-- The thread is at its `remove_thread`; the timestamp thread gets there once `running` is 0. -/
def Removes (s : Process) (tid : Tid) : Prop :=
  tid ∈ s.created ∧ s.threads tid = .working ∧ (s.timer = some tid → s.running = false)

instance (s : Process) (tid : Tid) : Decidable (s.Removes tid) := inferInstanceAs (Decidable (_ ∧ _ ∧ (_ → _)))

def step (s : Process) : Turn → Option Process
  | .signal => some { s with running := false }
  | .test =>
    if s.main = .looping then
      if s.running then some { s with main := .accepting } else s.arrive s.list.head
    else none
  | .accept ok =>
    if s.main = .accepting then some { s with main := if ok then .creating else .cleaning } else none
  | .create tid =>
    match s.main, tid with
    | .starting, some tid => s.spawn tid (some tid)
    | .creating, some tid => s.spawn tid s.timer
    | .creating, none => some { s with main := .looping }
    | _, _ => none
  | .createFails left =>
    -- `main` prints an error and goes on to `add_thread(timestamp_tid)`.
    if s.main = .starting ∧ left ∉ s.known then some { s with main := .adding left, strays := left :: s.strays } else none
  | .add newNode =>
    match s.main, newNode with
    | .adding tid, some newNode =>
      if s.list.nodes newNode = none then some { s with main := .looping, list := s.list.addThread newNode tid }
      else none
    | .adding _, none => some { s with main := .exited }
    | _, _ => none
  | .join =>
    match s.main with
    | .joining current tid =>
      match s.threads tid with
      | .finished _ => (s.list.nodes current).bind fun node =>
        { s with list := { s.list with nodes := free s.list.nodes current }
                 joined := s.joined ++ [tid] }.arrive node.next
      | _ => none
    | _ => none
  | .remove tid =>
    if s.Removes tid then
      match s.removeThread tid with
      | .done list =>
        some { s with list, threads := Function.update s.threads tid (.removed (s.main = .adding tid)) }
      | _ => none
    else none
  | .finish tid =>
    match s.threads tid with
    | .removed early => some { s with threads := Function.update s.threads tid (.finished early) }
    | _ => none
  | .abort tid => if tid ∈ s.created ∧ s.threads tid = .working then some { s with main := .exited } else none
  | .exit => if s.main = .cleaning then some { s with main := .exited } else none

end Process

/-- The process until `main`, a thread or `add_thread` ends it. -/
def process : Machine Process Turn where
  step s turn := if s.main = .exited then none else s.step turn

/-- One step of the process, with what it finds. -/
inductive Moves (s : Process) : Turn → Process → Prop where
  | signal : Moves s .signal { s with running := false }
  | again (main : s.main = .looping) (on : s.running = true) : Moves s .test { s with main := .accepting }
  | leave {u : Process} (main : s.main = .looping) (off : s.running = false) (arrives : s.arrive s.list.head = some u) :
      Moves s .test u
  | accept (ok : Bool) (main : s.main = .accepting) :
      Moves s (.accept ok) { s with main := if ok then .creating else .cleaning }
  | spawn (tid : Tid) (timer : Option Tid) (main : s.main = .starting ∨ s.main = .creating) (fresh : tid ∉ s.known) :
      Moves s (.create (some tid)) { s with main := .adding tid, created := s.created ++ [tid], timer }
  | stray (left : Tid) (main : s.main = .starting) (fresh : left ∉ s.known) :
      Moves s (.createFails left) { s with main := .adding left, strays := left :: s.strays }
  | close (main : s.main = .creating) : Moves s (.create none) { s with main := .looping }
  | add (tid : Tid) (newNode : Nat) (main : s.main = .adding tid) (unused : s.list.nodes newNode = none) :
      Moves s (.add (some newNode)) { s with main := .looping, list := s.list.addThread newNode tid }
  | full (tid : Tid) (main : s.main = .adding tid) : Moves s (.add none) { s with main := .exited }
  | join {u : Process} (current : Nat) (tid : Tid) (early : Bool) (node : ThreadNode)
      (main : s.main = .joining current tid) (finished : s.threads tid = .finished early)
      (live : s.list.nodes current = some node) (arrives : { s with
        list := { s.list with nodes := free s.list.nodes current }
        joined := s.joined ++ [tid] }.arrive node.next = some u) :
      Moves s .join u
  | remove (tid : Tid) (list : ThreadList) (removes : s.Removes tid) (walk : s.removeThread tid = .done list) :
      Moves s (.remove tid)
        { s with list, threads := Function.update s.threads tid (.removed (s.main = .adding tid)) }
  | finish (tid : Tid) (early : Bool) (removed : s.threads tid = .removed early) :
      Moves s (.finish tid) { s with threads := Function.update s.threads tid (.finished early) }
  | abort (tid : Tid) (listed : tid ∈ s.created) (working : s.threads tid = .working) :
      Moves s (.abort tid) { s with main := .exited }
  | exit (main : s.main = .cleaning) : Moves s .exit { s with main := .exited }

theorem process_step {s u : Process} {turn : Turn} (step : process.step s turn = some u) :
    s.main ≠ .exited ∧ Moves s turn u := by
  unfold process at step
  simp only at step
  split at step
  · cases step
  rename_i notExited
  refine ⟨notExited, ?_⟩
  cases turn with
  | signal =>
    obtain rfl := Option.some.inj step
    exact .signal
  | test =>
    simp only [Process.step] at step
    split at step
    · rename_i main
      split at step
      · rename_i on
        obtain rfl := Option.some.inj step
        exact .again main on
      · rename_i off
        exact .leave main (by simpa using off) step
    · cases step
  | accept ok =>
    simp only [Process.step] at step
    split at step
    · rename_i main
      obtain rfl := Option.some.inj step
      exact .accept ok main
    · cases step
  | create tid =>
    simp only [Process.step, Process.spawn] at step
    split at step
    · rename_i tid main
      split at step
      · cases step
      · rename_i fresh
        obtain rfl := Option.some.inj step
        exact .spawn tid _ (Or.inl main) fresh
    · rename_i tid main
      split at step
      · cases step
      · rename_i fresh
        obtain rfl := Option.some.inj step
        exact .spawn tid _ (Or.inr main) fresh
    · rename_i main
      obtain rfl := Option.some.inj step
      exact .close main
    · cases step
  | createFails left =>
    simp only [Process.step] at step
    split at step
    · rename_i both
      obtain rfl := Option.some.inj step
      exact .stray left both.1 both.2
    · cases step
  | add newNode =>
    simp only [Process.step] at step
    split at step
    · rename_i tid newNode main
      split at step
      · rename_i unused
        obtain rfl := Option.some.inj step
        exact .add tid newNode main unused
      · cases step
    · rename_i tid main
      obtain rfl := Option.some.inj step
      exact .full tid main
    · cases step
  | join =>
    simp only [Process.step] at step
    split at step
    · rename_i current tid main
      split at step
      · rename_i early finished
        obtain ⟨node, live, arrives⟩ := Option.bind_eq_some_iff.mp step
        exact .join current tid early node main finished live arrives
      · cases step
    · cases step
  | remove tid =>
    simp only [Process.step] at step
    split at step
    · rename_i removes
      split at step
      · rename_i list walk
        obtain rfl := Option.some.inj step
        exact .remove tid list removes walk
      · cases step
    · cases step
  | finish tid =>
    simp only [Process.step] at step
    split at step
    · rename_i early removed
      obtain rfl := Option.some.inj step
      exact .finish tid early removed
    · cases step
  | abort tid =>
    simp only [Process.step] at step
    split at step
    · rename_i both
      obtain rfl := Option.some.inj step
      exact .abort tid both.1 both.2
    · cases step
  | exit =>
    simp only [Process.step] at step
    split at step
    · rename_i main
      obtain rfl := Option.some.inj step
      exact .exit main
    · cases step

/-! ### The walk of `remove_thread` -/

namespace ThreadList
variable {l : ThreadList} {tid : Tid} {left p a : Nat} {prev current : Option Nat}
  {cells front back middle : List (Nat × Tid)} {w : Tid}

theorem removeLoop_absent (rest : Chain l.nodes current cells) (absent : tid ∉ cells.map Prod.snd)
    (enough : cells.length ≤ left) : l.removeLoop tid left prev current = .done l := by
  induction cells generalizing left prev current with
  | nil =>
    cases rest
    simp [removeLoop]
  | cons cell cells ih =>
    obtain ⟨left, rfl⟩ : ∃ n, left = n + 1 := ⟨left - 1, by simp at enough; omega⟩
    simp only [List.map_cons, List.mem_cons, not_or] at absent
    cases rest with
    | cons here rest =>
      have other : ¬ _ = tid := fun same => absent.1 same.symm
      rw [removeLoop]
      simp only [here, if_neg other]
      exact ih rest absent.2 (by simpa using enough)

/-- Past the first node: `prev` is the node before. -/
theorem removeLoop_after (chain : Chain l.nodes l.head (front ++ (p, w) :: (middle ++ (a, tid) :: back)))
    (rest : Chain l.nodes current (middle ++ (a, tid) :: back)) (absent : tid ∉ middle.map Prod.snd)
    (enough : middle.length < left) :
    ∃ q next, l.removeLoop tid left (some p) current = .done ⟨l.head, free (setNext l.nodes q next) a⟩ ∧
      Chain (free (setNext l.nodes q next) a) l.head (front ++ (p, w) :: (middle ++ back)) := by
  obtain ⟨left, rfl⟩ : ∃ n, left = n + 1 := ⟨left - 1, by omega⟩
  induction middle generalizing front p w left current with
  | nil =>
    obtain ⟨next, here, chain'⟩ := chain_unlink chain
    cases rest with
    | cons here' _ =>
      rw [here] at here'
      refine ⟨p, next, ?_, chain'⟩
      rw [removeLoop]
      simp only [here, if_true]
  | cons cell middle ih =>
    obtain ⟨b, x⟩ := cell
    simp only [List.map_cons, List.mem_cons, not_or] at absent
    simp only [List.length_cons] at enough
    obtain ⟨left, rfl⟩ : ∃ n, left = n + 1 := ⟨left - 1, by omega⟩
    cases rest with
    | cons here rest =>
      have other : ¬ x = tid := fun same => absent.1 same.symm
      have chain' : Chain l.nodes l.head ((front ++ [(p, w)]) ++ (b, x) :: (middle ++ (a, tid) :: back)) := by
        simpa using chain
      obtain ⟨q, next, walk, left'⟩ := ih chain' rest absent.2 left (by omega)
      refine ⟨q, next, ?_, by simpa using left'⟩
      rw [removeLoop]
      simp only [here, if_neg other]
      exact walk

/-- The node of the thread is taken out and freed, and no other. -/
theorem removeThread_found (chain : Chain l.nodes l.head (front ++ (a, tid) :: back))
    (first : tid ∉ front.map Prod.snd) (enough : front.length < left) :
    ∃ l', l.removeThread tid left = .done l' ∧ Chain l'.nodes l'.head (front ++ back) ∧
      ∀ b, l'.nodes b = none ↔ b = a ∨ l.nodes b = none := by
  have frees (nodes : Nodes Tid) (b : Nat) : free nodes a b = none ↔ b = a ∨ nodes b = none := by
    by_cases same : b = a
    · simp [same]
    · simp [free_of_ne same, same]
  obtain ⟨left, rfl⟩ : ∃ n, left = n + 1 := ⟨left - 1, by omega⟩
  unfold removeThread
  cases front with
  | nil =>
    have head := chain_head chain
    rw [List.nil_append, head] at chain
    obtain ⟨next, here, chain'⟩ := chain_free chain
    refine ⟨⟨next, free l.nodes a⟩, ?_, chain', frees l.nodes⟩
    rw [head, removeLoop]
    simp only [here, if_true]
  | cons cell front =>
    obtain ⟨b, x⟩ := cell
    simp only [List.map_cons, List.mem_cons, not_or] at first
    simp only [List.length_cons] at enough
    have head : l.head = some b := chain_head chain
    have whole : Chain l.nodes l.head ([] ++ (b, x) :: (front ++ (a, tid) :: back)) := chain
    rw [head, List.cons_append] at chain
    cases chain with
    | cons here rest =>
      have other : ¬ x = tid := fun same => first.1 same.symm
      obtain ⟨q, next, walk, chain'⟩ := removeLoop_after whole rest first.2 (show front.length < left by omega)
      refine ⟨⟨l.head, free (setNext l.nodes q next) a⟩, ?_, chain', fun c => ?_⟩
      · rw [head, removeLoop]
        simp only [here, if_neg other]
        rw [walk, head]
      · rw [frees, setNext_eq_none]

theorem removeThread_absent (chain : Chain l.nodes l.head cells) (absent : tid ∉ cells.map Prod.snd)
    (enough : cells.length ≤ left) : l.removeThread tid left = .done l :=
  removeLoop_absent chain absent enough

/-- Behind a freed head the walk reads it. -/
theorem removeThread_freed (head : l.head = some a) (dead : l.nodes a = none) (some' : 0 < left) :
    l.removeThread tid left = .freed := by
  obtain ⟨left, rfl⟩ : ∃ n, left = n + 1 := ⟨left - 1, by omega⟩
  unfold removeThread
  rw [head, removeLoop]
  simp only [dead]

end ThreadList
end Aesd
