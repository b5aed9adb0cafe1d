import Aesd.Driver.ReadBack

/-!
# Failing calls

A call of any file operation that returns an error leaves the device, its memory
and the caller's position as they were.
-/

namespace Aesd
open Library

inductive Operation where
  | read (count : Nat)
  | write (buf : List UInt8)
  | llseek (offSet whence : Int)
  | ioctl (cmd : Nat) (seekto : Seekto)

structure Outcome where
  retval : Int
  state : Driver
  fpos : Int

def perform (env : CallEnv) (s : Driver) (fpos : Int) : Operation → Outcome
  | .read count =>
    let res := aesdRead env count s fpos
    ⟨res.retval, s, res.fpos⟩
  | .write buf =>
    let res := aesdWrite env buf s fpos
    ⟨res.retval, res.state, res.fpos⟩
  | .llseek offSet whence =>
    let res := aesdLlseek env offSet whence s fpos
    ⟨res.1, s, res.2⟩
  | .ioctl cmd seekto =>
    let res := aesdIoctl env cmd seekto s fpos
    ⟨res.1, s, res.2⟩

variable {s : Driver} {ring : List Cell} {pending : Option Cell} {lost : List Nat} {env : CallEnv}
  {calls : List WriteCall}

theorem Layout.read_failed (h : Layout s ring pending lost) {count : Nat} {fpos : Int}
    (failed : (aesdRead env count s fpos).retval < 0) : (aesdRead env count s fpos).fpos = fpos := by
  unfold aesdRead at failed ⊢
  by_cases interrupted : env.interrupted
  · rw [if_pos interrupted]
  rw [if_neg interrupted] at failed ⊢
  unfold aesdReadLocked at failed ⊢
  rcases h.find (toSizeT fpos) with ⟨j, stored, above, below, found, slot⟩ | ⟨_, found⟩
  · simp only [found, slot] at failed ⊢
    split at failed
    · rename_i faulty
      rw [if_pos faulty]
    · -- What is left of an entry fits a `ssize_t`, so a count is never negative.
      have stored' : j < (ring.map Prod.snd).length := by simpa using stored
      have bound := h.records_lt
      have last := start_le (ring.map Prod.snd) (j + 1)
      rw [start_succ stored', List.getElem_map] at below last
      simp only [Cell.entry] at failed
      rw [sizeSub_of_le (by omega) (by omega), loffT_of_bounds (by omega) (by omega)] at failed
      omega
  · simp only [found]

theorem Layout.write_failed (h : Layout s ring pending lost) {buf : List UInt8} {fpos : Int}
    (failed : (aesdWrite env buf s fpos).retval < 0) :
    (aesdWrite env buf s fpos).state = s ∧ (aesdWrite env buf s fpos).fpos = fpos := by
  cases ok : granted env buf s with
  | false =>
    obtain ⟨e, _, same⟩ := aesdWrite_denied fpos ok
    simp only [same, and_self]
  | true =>
    exfalso
    by_cases bytes : buf ≠ [] ∨ pending ≠ none
    · obtain ⟨_, _, returned, _⟩ := aesdWrite_grown fpos h bytes ok
      omega
    · obtain ⟨nothing, fresh⟩ := not_or.mp bytes
      obtain rfl := not_not.mp fresh
      obtain rfl := not_not.mp nothing
      rw [← testedState_isSome] at ok
      obtain ⟨t, tested⟩ := Option.isSome_iff_exists.mp ok
      obtain rfl := layout_fresh_nothing h tested
      rw [aesdWrite_tested fpos tested] at failed
      exact Int.lt_irrefl 0 failed

theorem seekWithin_failed {devSize offSet whence fpos : Int}
    (failed : (seekWithin devSize offSet whence fpos).1 < 0) : (seekWithin devSize offSet whence fpos).2 = fpos := by
  have check (newpos : Int) (low : ¬ (newpos < 0 ∨ newpos > devSize)) : ¬ newpos < 0 := fun e => low (Or.inl e)
  unfold seekWithin at failed ⊢
  simp only at failed ⊢
  split_ifs at failed ⊢ with isSet inside isCur inside isEnd inside
  all_goals first | rfl | exact (check _ inside failed).elim

theorem aesdIoctl_failed {cmd : Nat} {seekto : Seekto} {fpos : Int}
    (failed : (aesdIoctl env cmd seekto s fpos).1 < 0) : (aesdIoctl env cmd seekto s fpos).2 = fpos := by
  unfold aesdIoctl at failed ⊢
  simp only at failed ⊢
  split_ifs at failed ⊢
  · rfl
  · rfl
  · rfl
  · exact (Int.lt_irrefl 0 failed).elim
  · rfl

/-- Whatever writes came before, a read, write, seek or ioctl that returns a negative value has changed
nothing. -/
theorem failing_operation_atomic (run : writer.run Driver.init calls = some s) (env : CallEnv)
    (operation : Operation) (fpos : Int) (failed : (perform env s fpos operation).retval < 0) :
    (perform env s fpos operation).state = s ∧ (perform env s fpos operation).fpos = fpos := by
  obtain ⟨ring, pending, lost, layout, _⟩ := run_settled run
  unfold perform at failed ⊢
  cases operation with
  | read count => exact ⟨rfl, layout.read_failed failed⟩
  | write buf => exact layout.write_failed failed
  | llseek offSet whence => exact ⟨rfl, seekWithin_failed failed⟩
  | ioctl cmd seekto => exact ⟨rfl, aesdIoctl_failed failed⟩

/-- The user's bytes cannot be read after `kmalloc` gave the block for them. -/
theorem failing_operation_atomic_efault :
    let calls : List WriteCall := [⟨{ kmallocAt := some 0 }, [97, newline], 0⟩, ⟨{ kmallocAt := some 1 }, [98], 2⟩]
    let s := (writer.run Driver.init calls).getD Driver.init
    let outcome := perform { kmallocAt := some 2, notCopied := 1 } s 3 (.write [99, newline])
    outcome.retval = -efault ∧ outcome.state = s ∧ outcome.fpos = 3 := by
  intro calls s outcome
  have run : writer.run Driver.init calls = some s := rfl
  exact ⟨rfl, failing_operation_atomic run _ (.write [99, newline]) 3 (by decide)⟩

end Aesd
