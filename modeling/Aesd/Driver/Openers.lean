import Aesd.Driver.Files

/-!
# What an opener notices of the others

Only what they write: with every read, seek and ioctl of the other openers left
out of a run, each call of the opener answers the same.
-/

namespace Aesd
open Library

def Operation.Writes : Operation → Prop
  | .write _ => True
  | _ => False

instance : ∀ operation : Operation, Decidable operation.Writes
  | .write _ => isTrue trivial
  | .read _ | .llseek _ _ | .ioctl _ _ => isFalse id

/-- The calls that reach `opener`: its own and what the others write. -/
def FileCall.Reaches (call : FileCall) (opener : Nat) : Prop :=
  call.opener = opener ∨ call.operation.Writes

instance (call : FileCall) (opener : Nat) : Decidable (call.Reaches opener) :=
  inferInstanceAs (Decidable (_ ∨ _))

/-- The answers to the calls of `opener`. -/
def Files.answers (opener : Nat) (f : Files) (call : FileCall) : List Reply :=
  if call.opener = opener then [reply call.env f.driver (f.fpos opener) call.operation] else []

/-- The same device, and the same position of `opener`. -/
structure Files.Alike (opener : Nat) (f g : Files) : Prop where
  driver : f.driver = g.driver
  fpos : f.fpos opener = g.fpos opener

variable {f f' g : Files} {opener : Nat} {call : FileCall} {calls : List FileCall}

/-! ### Where a write goes does not depend on `f_pos` -/

theorem commitEntry_fpos (env : CallEnv) (s : Driver) (count : Nat) (p q : Int) :
    (commitEntry env s count p).state = (commitEntry env s count q).state ∧
      (commitEntry env s count p).oops = (commitEntry env s count q).oops := by
  simp only [commitEntry]
  cases s.heap.load s.dev.entry.buffptr (sizeSub s.dev.entry.size 1) with
  | none => simp only [and_self]
  | some last =>
    by_cases ends : last = newline
    · simp only [if_pos ends, and_self]
    · simp only [if_neg ends, and_self]

theorem aesdWrite_fpos (env : CallEnv) (buf : List UInt8) (s : Driver) (p q : Int) :
    (aesdWrite env buf s p).state = (aesdWrite env buf s q).state ∧
      (aesdWrite env buf s p).oops = (aesdWrite env buf s q).oops := by
  cases ok : granted env buf s with
  | false =>
    obtain ⟨_, _, atP⟩ := aesdWrite_denied p ok
    obtain ⟨_, _, atQ⟩ := aesdWrite_denied q ok
    rw [atP, atQ]
    exact ⟨rfl, rfl⟩
  | true =>
    obtain ⟨t, tested⟩ := Option.isSome_iff_exists.mp (testedState_isSome env buf s ▸ ok)
    rw [aesdWrite_tested p tested, aesdWrite_tested q tested]
    exact commitEntry_fpos env t buf.length p q

/-! ### One call -/

theorem files_step_iff : files.step f call = some f' ↔
    faults call.env f.driver (f.fpos call.opener) call.operation = false ∧
      f' = ⟨(perform call.env f.driver (f.fpos call.opener) call.operation).state, Function.update f.fpos call.opener
        (perform call.env f.driver (f.fpos call.opener) call.operation).fpos⟩ := by
  simp only [files]
  cases faults call.env f.driver (f.fpos call.opener) call.operation with
  | true => simp
  | false => simp [eq_comm]

/-- A call that does not reach `opener` leaves it where it was. -/
theorem quiet_step (away : ¬ call.Reaches opener) (step : files.step f call = some f') : f'.Alike opener f := by
  obtain ⟨other, quiet⟩ := not_or.mp away
  obtain ⟨_, rfl⟩ := files_step_iff.mp step
  refine ⟨?_, Function.update_of_ne (Ne.symm other) _ _⟩
  cases operation : call.operation with
  | write buf => exact (quiet (operation ▸ trivial)).elim
  | read count => rfl
  | llseek offSet whence => rfl
  | ioctl cmd seekto => rfl

/-- A call that reaches `opener` does the same to it in both. -/
theorem reaching_step (alike : f.Alike opener g) (reaches : call.Reaches opener)
    (step : files.step f call = some f') : ∃ g', files.step g call = some g' ∧ f'.Alike opener g' := by
  obtain ⟨sound, rfl⟩ := files_step_iff.mp step
  obtain ⟨o, env, operation⟩ := call
  by_cases own : o = opener
  · subst own
    refine ⟨_, files_step_iff.mpr ⟨?_, rfl⟩, ?_, ?_⟩
    · rw [← alike.driver, ← alike.fpos]
      exact sound
    · simp only [alike.driver, alike.fpos]
    · simp only [alike.driver, alike.fpos, Function.update_self]
  · cases operation with
    | write buf =>
      obtain ⟨state, oops⟩ := aesdWrite_fpos env buf f.driver (f.fpos o) (g.fpos o)
      refine ⟨_, files_step_iff.mpr ⟨?_, rfl⟩, ?_, ?_⟩
      · rw [← alike.driver]
        exact oops.symm.trans sound
      · rw [← alike.driver]
        exact state
      · simp only [Function.update_of_ne (Ne.symm own), alike.fpos]
    | read count => exact (reaches.elim own id).elim
    | llseek offSet whence => exact (reaches.elim own id).elim
    | ioctl cmd seekto => exact (reaches.elim own id).elim

/-! ### Every run -/

theorem files_simulate_reaching (opener : Nat) : Simulates files files (fun _ _ => True) (Files.Alike opener)
    (fun _ call => if call.Reaches opener then [call] else []) (Files.answers opener) (Files.answers opener) where
  step := by
    intro f g call f' alike _ step
    by_cases reaches : call.Reaches opener
    · obtain ⟨g', taken, next⟩ := reaching_step alike reaches step
      rw [if_pos reaches]
      refine ⟨g', Machine.run_cons.mpr ⟨g', taken, rfl⟩, next, ?_⟩
      simp only [Machine.observe, taken, Option.elim_some, List.append_nil, Files.answers, alike.driver, alike.fpos]
    · have back := quiet_step reaches step
      rw [if_neg reaches]
      refine ⟨g, rfl, ⟨back.driver.trans alike.driver, back.fpos.trans alike.fpos⟩, ?_⟩
      rw [Files.answers, if_neg fun own => reaches (Or.inl own)]
      rfl

/-- An opener gets the same answers, from the same device at the same positions, whether the others read,
seek and send their ioctls or only write. -/
theorem others_unseen {opener : Nat} {calls : List FileCall} (run : files.run Files.init calls = some f) :
    ∃ g, files.run Files.init (calls.filter (·.Reaches opener)) = some g ∧ f.Alike opener g ∧
      files.observe (Files.answers opener) Files.init calls =
        files.observe (Files.answers opener) Files.init (calls.filter (·.Reaches opener)) := by
  have reached := (files_simulate_reaching opener).run ⟨rfl, rfl⟩ Machine.along_true run
  rwa [Machine.observe_filter run] at reached

/-- The second opener reads and seeks between the writes and reads of the first. -/
theorem others_unseen_shared :
    let calls : List FileCall := [⟨1, { kmallocAt := some 1 }, .write [97, newline]⟩, ⟨2, {}, .read 1⟩,
      ⟨2, { kmallocAt := some 2 }, .write [98, newline]⟩, ⟨2, {}, .ioctl iocSeekto ⟨1, 1⟩⟩, ⟨1, {}, .read 5⟩,
      ⟨2, {}, .llseek 0 seekSet⟩, ⟨1, {}, .read 5⟩]
    ∃ g, files.run Files.init (calls.filter (·.Reaches 1)) = some g ∧
      ((files.run Files.init calls).getD Files.init).Alike 1 g ∧
      files.observe (Files.answers 1) Files.init calls =
        files.observe (Files.answers 1) Files.init (calls.filter (·.Reaches 1)) := by
  intro calls
  exact others_unseen (Machine.run_getD (by decide) Files.init)

end Aesd
