import Aesd.Driver.Seek

/-!
# The ioctl between writes

`aesd_ioctl` reads one slot after the other and takes no lock, so complete writes
run between its steps. Each write stores to one slot. The ioctl answers as if it
ran at once, unless a write to a slot it has read is followed by a write to one
it has yet to add, or only a write after it lets the last test pass.
-/

namespace Aesd
open Library

structure IoctlCall where
  env : CallEnv
  cmd : Nat
  seekto : Seekto
  fpos : Int

inductive IoctlPc where
  | entered
  | summing (i : Nat) (newpos : Int)
  | returned (retval fpos : Int)
  deriving DecidableEq

namespace IoctlCall

def Passes (io : IoctlCall) : Prop :=
  io.cmd = iocSeekto ∧ min io.env.notCopied 8 = 0 ∧ io.seekto.writeCmd.toNat < maxWriteOperations

instance (io : IoctlCall) : Decidable io.Passes := inferInstanceAs (Decidable (_ ∧ _ ∧ _))

/-- The checks of the arguments, then one slot a step: the loop body, or the slot of the last test. -/
def step (io : IoctlCall) (s : Driver) : IoctlPc → Option IoctlPc
  | .entered =>
    if io.cmd = iocSeekto then
      if min io.env.notCopied 8 ≠ 0 then some (.returned (-efault) io.fpos)
      else if io.seekto.writeCmd.toNat ≥ maxWriteOperations then some (.returned (-einval) io.fpos)
      else some (.summing 0 0)
    else some (.returned (-enotty) io.fpos)
  | .summing i newpos =>
    if i < io.seekto.writeCmd.toNat then some (.summing (i + 1) (loffT (newpos + (s.dev.buffer.slot i).size)))
    else if io.seekto.writeCmdOffset.toNat ≥ (s.dev.buffer.slot io.seekto.writeCmd.toNat).size then
      some (.returned (-einval) io.fpos)
    else some (.returned 0 (loffT (newpos + io.seekto.writeCmdOffset.toNat)))
  | .returned _ _ => none

end IoctlCall

structure Race where
  driver : Driver
  pc : IoctlPc

inductive RaceStep where
  | ioctl
  | write (call : WriteCall)

/-- The ioctl from its first step to its last and the writes of other tasks in between. -/
def race (io : IoctlCall) : Machine Race RaceStep where
  step r
    | .ioctl => (io.step r.driver r.pc).map fun pc => { r with pc }
    | .write call =>
      match r.pc with
      | .summing _ _ => (writer.step r.driver call).map fun driver => { r with driver }
      | _ => none

def Resizes (s : Driver) (call : WriteCall) (i : Nat) : Prop :=
  ∃ t, writer.step s call = some t ∧ (t.dev.buffer.slot i).size ≠ (s.dev.buffer.slot i).size

/-- The write changes the size of a slot that the loop has read. -/
def Behind (r : Race) (call : WriteCall) : Prop :=
  ∃ i newpos, r.pc = .summing i newpos ∧ ∃ j < i, Resizes r.driver call j

/-- The write changes the size of a slot that the loop has yet to add. -/
def Ahead (io : IoctlCall) (r : Race) (call : WriteCall) : Prop :=
  ∃ i newpos, r.pc = .summing i newpos ∧ ∃ j, i ≤ j ∧ j < io.seekto.writeCmd.toNat ∧ Resizes r.driver call j

/-- A write behind the loop is followed by a write ahead of it. -/
def Torn (io : IoctlCall) (r : Race) (labels : List RaceStep) : Prop :=
  ∃ first behind middle ahead last r₁ r₂, labels = first ++ .write behind :: (middle ++ .write ahead :: last) ∧
    (race io).run r first = some r₁ ∧ Behind r₁ behind ∧
    (race io).run r (first ++ .write behind :: middle) = some r₂ ∧ Ahead io r₂ ahead

/-- No write so far was behind the loop. -/
def Undisturbed (io : IoctlCall) (r : Race) (labels : List RaceStep) : Prop :=
  (race io).Along (fun u label => ∀ call, label = .write call → ¬ Behind u call) r labels

/-- The offset is past the end of slot `write_cmd` when the first write behind the loop comes. -/
def Overtaken (io : IoctlCall) (r : Race) (labels : List RaceStep) : Prop :=
  ∃ first behind last u, labels = first ++ .write behind :: last ∧ (race io).run r first = some u ∧
    Undisturbed io r first ∧ Behind u behind ∧
    (u.driver.dev.buffer.slot io.seekto.writeCmd.toNat).size ≤ io.seekto.writeCmdOffset.toNat

/-- The answer is that of the whole ioctl in a device state on the way. -/
def Atomic (io : IoctlCall) (r : Race) (labels : List RaceStep) (retval fpos : Int) : Prop :=
  ∃ first last u, labels = first ++ last ∧ (race io).run r first = some u ∧
    aesdIoctl io.env io.cmd io.seekto u.driver io.fpos = (retval, fpos)

variable {io : IoctlCall} {s t : Driver} {r u : Race} {labels : List RaceStep} {call : WriteCall} {i : Nat}

/-! ### One write stores to one slot -/

theorem growEntry_buffer {env : CallEnv} {newBuff : Pointer} {count : Nat}
    (found : growEntry env s newBuff count = some t) : t.dev.buffer = s.dev.buffer := by
  unfold growEntry at found
  simp only at found
  split at found
  · obtain rfl := Option.some.inj found
    rfl
  · split at found
    · cases found
    · obtain rfl := Option.some.inj found
      rfl

theorem testedState_buffer {env : CallEnv} {buf : List UInt8} (tested : testedState env buf s = some t) :
    t.dev.buffer = s.dev.buffer := by
  unfold testedState at tested
  split at tested
  · cases tested
  split at tested
  · cases tested
  have same := growEntry_buffer tested
  exact same

theorem slot_addEntry {b : CircularBuffer} {e : BufferEntry} {j : Nat} (other : j ≠ b.inOffs) :
    (b.addEntry e).slot j = b.slot j := by
  unfold CircularBuffer.addEntry
  split <;> simp [CircularBuffer.slot, Ne.symm other]

theorem writer_step_slot (step : writer.step s call = some t) {i j : Nat}
    (first : (t.dev.buffer.slot i).size ≠ (s.dev.buffer.slot i).size)
    (second : (t.dev.buffer.slot j).size ≠ (s.dev.buffer.slot j).size) : i = j := by
  unfold writer at step
  simp only at step
  cases ok : granted call.env call.buf s with
  | false =>
    obtain ⟨e, _, same⟩ := aesdWrite_denied call.fpos ok
    rw [same] at step
    obtain rfl := Option.some.inj step
    exact (first rfl).elim
  | true =>
    rw [← testedState_isSome] at ok
    obtain ⟨v, tested⟩ := Option.isSome_iff_exists.mp ok
    have buffer := testedState_buffer tested
    have store : t.dev.buffer = s.dev.buffer ∨ ∃ e, t.dev.buffer = s.dev.buffer.addEntry e := by
      rw [aesdWrite_tested call.fpos tested] at step
      unfold commitEntry at step
      simp only at step
      split at step
      · cases step
      · split at step
        · obtain rfl := Option.some.inj step
          exact Or.inr ⟨v.dev.entry, by rw [← buffer]⟩
        · obtain rfl := Option.some.inj step
          exact Or.inl buffer
    rcases store with same | ⟨e, same⟩
    · rw [same] at first
      exact (first rfl).elim
    · rw [same] at first second
      have here (l : Nat) (moved : ((s.dev.buffer.addEntry e).slot l).size ≠ (s.dev.buffer.slot l).size) :
          l = s.dev.buffer.inOffs := by
        by_contra other
        rw [slot_addEntry other] at moved
        exact moved rfl
      rw [here i first, here j second]

/-! ### The sum so far -/

theorem slotSum_congr {b c : CircularBuffer} {n : Nat} (same : ∀ j < n, (b.slot j).size = (c.slot j).size) :
    slotSum b n = slotSum c n := by
  induction n with
  | zero => rfl
  | succ n ih =>
    rw [slotSum_succ, slotSum_succ, ih fun j below => same j (Nat.lt_succ_of_lt below), same n (Nat.lt_succ_self n)]

theorem aesdIoctl_passes (ok : io.Passes) : aesdIoctl io.env io.cmd io.seekto s io.fpos =
    if io.seekto.writeCmdOffset.toNat ≥ (s.dev.buffer.slot io.seekto.writeCmd.toNat).size then (-einval, io.fpos)
    else (0, loffT (slotSum s.dev.buffer io.seekto.writeCmd.toNat + io.seekto.writeCmdOffset.toNat)) := by
  obtain ⟨cmd, copied, known⟩ := ok
  unfold aesdIoctl
  rw [if_pos cmd, if_neg (by simpa using copied), if_neg (by omega)]

/-! ### What the ioctl knows at each step -/

/-- The loop holds the sum of the state before the first write behind it, and the slots it has yet to add still have
their sizes. -/
def Cut (io : IoctlCall) (start : Race) (labels : List RaceStep) (r : Race) (i : Nat) (newpos : Int) : Prop :=
  ∃ first behind middle u, labels = first ++ .write behind :: middle ∧ (race io).run start first = some u ∧
    Undisturbed io start first ∧ Behind u behind ∧ newpos = slotSum u.driver.dev.buffer i ∧
    ∀ j, i ≤ j → j < io.seekto.writeCmd.toNat →
      (r.driver.dev.buffer.slot j).size = (u.driver.dev.buffer.slot j).size

def Knows (io : IoctlCall) (start : Race) (labels : List RaceStep) (r : Race) : Prop :=
  match r.pc with
  | .entered => Undisturbed io start labels
  | .summing i newpos => io.Passes ∧ i ≤ io.seekto.writeCmd.toNat ∧
      (Torn io start labels ∨ (Undisturbed io start labels ∧ newpos = slotSum r.driver.dev.buffer i) ∨
        Cut io start labels r i newpos)
  | .returned retval fpos => Atomic io start labels retval fpos ∨
      (Torn io start labels ∨ Overtaken io start labels) ∧
      io.seekto.writeCmdOffset.toNat < (r.driver.dev.buffer.slot io.seekto.writeCmd.toNat).size

variable {start : Race} {newpos retval fpos : Int} {label : RaceStep}

theorem torn_snoc (h : Torn io start labels) : Torn io start (labels ++ [label]) := by
  obtain ⟨first, behind, middle, ahead, last, r₁, r₂, rfl, rest⟩ := h
  refine ⟨first, behind, middle, ahead, last ++ [label], r₁, r₂, ?_, rest⟩
  simp only [List.append_assoc, List.cons_append]

theorem undisturbed_snoc (h : Undisturbed io start labels) (reached : (race io).run start labels = some r)
    (ahead : ∀ call, label = .write call → ¬ Behind r call) : Undisturbed io start (labels ++ [label]) :=
  (Machine.along_snoc reached).mpr ⟨h, ahead⟩

theorem atomic_here (reached : (race io).run start labels = some r)
    (same : aesdIoctl io.env io.cmd io.seekto r.driver io.fpos = (retval, fpos)) :
    Atomic io start (labels ++ [label]) retval fpos :=
  ⟨labels, [label], r, rfl, reached, same⟩

/-- The loop body. -/
theorem knows_loop (reached : (race io).run start labels = some ⟨s, .summing i newpos⟩)
    (before : Knows io start labels ⟨s, .summing i newpos⟩) (below : i < io.seekto.writeCmd.toNat) :
    Knows io start (labels ++ [.ioctl]) ⟨s, .summing (i + 1) (loffT (newpos + (s.dev.buffer.slot i).size))⟩ := by
  obtain ⟨ok, _, known⟩ := before
  refine ⟨ok, below, ?_⟩
  rcases known with torn | ⟨calm, now⟩ | cut
  · exact Or.inl (torn_snoc torn)
  · right; left
    refine ⟨undisturbed_snoc calm reached (fun call write => by cases write), ?_⟩
    rw [now, slotSum_succ]
  · right; right
    obtain ⟨first, behind, middle, u, rfl, reached, calm, moved, earlier, ahead⟩ := cut
    refine ⟨first, behind, middle ++ [.ioctl], u, by simp, reached, calm, moved, ?_, fun j above => ahead j (by omega)⟩
    have here := ahead i (Nat.le_refl i) below
    simp only at here
    rw [earlier, slotSum_succ, here]

/-- The test of the offset. -/
theorem knows_test (label : RaceStep) (reached : (race io).run start labels = some ⟨s, .summing i newpos⟩)
    (before : Knows io start labels ⟨s, .summing i newpos⟩) (past : ¬ i < io.seekto.writeCmd.toNat) :
    Knows io start (labels ++ [label]) ⟨s, if io.seekto.writeCmdOffset.toNat ≥
        (s.dev.buffer.slot io.seekto.writeCmd.toNat).size then .returned (-einval) io.fpos
      else .returned 0 (loffT (newpos + io.seekto.writeCmdOffset.toNat))⟩ := by
  obtain ⟨ok, le, known⟩ := before
  obtain rfl : i = io.seekto.writeCmd.toNat := by omega
  by_cases outside : io.seekto.writeCmdOffset.toNat ≥ (s.dev.buffer.slot io.seekto.writeCmd.toNat).size
  · rw [if_pos outside]
    left
    apply atomic_here reached
    rw [aesdIoctl_passes ok, if_pos outside]
  · rw [if_neg outside]
    rcases known with torn | ⟨_, now⟩ | cut
    · exact Or.inr ⟨Or.inl (torn_snoc torn), Nat.lt_of_not_le outside⟩
    · left
      apply atomic_here reached
      rw [aesdIoctl_passes ok, if_neg outside, now]
    · obtain ⟨first, behind, middle, u, rfl, reached, calm, moved, earlier, _⟩ := cut
      -- The sum is that of the state before the first write behind the loop; the last test may not be.
      by_cases early : (u.driver.dev.buffer.slot io.seekto.writeCmd.toNat).size ≤ io.seekto.writeCmdOffset.toNat
      · exact Or.inr ⟨Or.inr ⟨first, behind, middle ++ [label], u, by simp, reached, calm, moved, early⟩,
          Nat.lt_of_not_le outside⟩
      · left
        refine ⟨first, .write behind :: (middle ++ [label]), u, by simp, reached, ?_⟩
        rw [aesdIoctl_passes ok, if_neg early, earlier]

theorem knows_write (reached : (race io).run start labels = some ⟨s, .summing i newpos⟩)
    (before : Knows io start labels ⟨s, .summing i newpos⟩) (step : writer.step s call = some t) :
    Knows io start (labels ++ [.write call]) ⟨t, .summing i newpos⟩ := by
  obtain ⟨ok, le, known⟩ := before
  refine ⟨ok, le, ?_⟩
  rcases known with torn | ⟨calm, now⟩ | cut
  · exact Or.inl (torn_snoc torn)
  · right
    by_cases behind : Behind ⟨s, .summing i newpos⟩ call
    · -- The state before this write is the one to answer for.
      right
      refine ⟨labels, call, [], _, rfl, reached, calm, behind, now, ?_⟩
      intro j above _
      by_contra moved
      obtain ⟨_, _, pc, l, below, t', step', first⟩ := behind
      obtain ⟨rfl, rfl⟩ := IoctlPc.summing.inj pc
      obtain rfl := Option.some.inj (step.symm.trans step')
      have := writer_step_slot step first moved
      omega
    · left
      refine ⟨undisturbed_snoc calm reached (fun call' same => by cases same; exact behind), ?_⟩
      rw [now]
      apply slotSum_congr
      intro j below
      by_contra moved
      exact behind ⟨i, newpos, rfl, j, below, t, step, fun same => moved same.symm⟩
  · obtain ⟨first, behind, middle, u, rfl, reached', calm, moved, earlier, same⟩ := cut
    by_cases ahead : Ahead io ⟨s, .summing i newpos⟩ call
    · left
      exact ⟨first, behind, middle, call, [], u, _, by simp, reached', moved, reached, ahead⟩
    · right; right
      refine ⟨first, behind, middle ++ [.write call], u, by simp, reached', calm, moved, earlier, ?_⟩
      intro j above below
      rw [← same j above below]
      by_contra moved
      exact ahead ⟨i, newpos, rfl, j, above, below, t, step, moved⟩

theorem knows_step (reached : (race io).run start labels = some r) (before : Knows io start labels r)
    (step : (race io).step r label = some u) : Knows io start (labels ++ [label]) u := by
  obtain ⟨s, pc⟩ := r
  unfold race at step
  cases label with
  | ioctl =>
    obtain ⟨pc', advance, rfl⟩ := Option.map_eq_some_iff.mp step
    unfold IoctlCall.step at advance
    cases pc with
    | entered =>
      simp only at advance
      have answer : aesdIoctl io.env io.cmd io.seekto s io.fpos = aesdIoctl io.env io.cmd io.seekto s io.fpos := rfl
      conv at answer => rhs; unfold aesdIoctl
      split_ifs at advance with cmd faulty unknown
      · obtain rfl := Option.some.inj advance
        rw [if_pos cmd, if_pos faulty] at answer
        exact Or.inl (atomic_here reached answer)
      · obtain rfl := Option.some.inj advance
        rw [if_pos cmd, if_neg faulty, if_pos unknown] at answer
        exact Or.inl (atomic_here reached answer)
      · obtain rfl := Option.some.inj advance
        exact ⟨⟨cmd, not_not.mp faulty, by omega⟩, Nat.zero_le _, 
          Or.inr (Or.inl ⟨undisturbed_snoc before reached (fun call write => by cases write), rfl⟩)⟩
      · obtain rfl := Option.some.inj advance
        rw [if_neg cmd] at answer
        exact Or.inl (atomic_here reached answer)
    | summing i newpos =>
      simp only at advance
      by_cases below : i < io.seekto.writeCmd.toNat
      · rw [if_pos below] at advance
        obtain rfl := Option.some.inj advance
        exact knows_loop reached before below
      · rw [if_neg below] at advance
        have tested := knows_test .ioctl reached before below
        split_ifs at advance tested
        · obtain rfl := Option.some.inj advance
          exact tested
        · obtain rfl := Option.some.inj advance
          exact tested
    | returned retval fpos => cases advance
  | write call =>
    cases pc with
    | entered => cases step
    | returned retval fpos => cases step
    | summing i newpos =>
      obtain ⟨t, write, rfl⟩ := Option.map_eq_some_iff.mp step
      exact knows_write reached before write

/-- From any device state and with any writes between its steps, the ioctl answers as if it ran at once
in one of the states on the way, unless the last step accepts the offset and a write to a slot behind the loop
was followed by one to a slot yet to add, or came when the offset was not yet within slot `write_cmd`. -/
theorem ioctl_atomic_unless_torn (io : IoctlCall) (s t : Driver) (labels : List RaceStep) (retval fpos : Int)
    (run : (race io).run ⟨s, .entered⟩ labels = some ⟨t, .returned retval fpos⟩)
    (whole : ¬ ((Torn io ⟨s, .entered⟩ labels ∨ Overtaken io ⟨s, .entered⟩ labels) ∧
      io.seekto.writeCmdOffset.toNat < (t.dev.buffer.slot io.seekto.writeCmd.toNat).size)) :
    Atomic io ⟨s, .entered⟩ labels retval fpos := by
  have known : Knows io ⟨s, .entered⟩ labels ⟨t, .returned retval fpos⟩ :=
    Machine.run_induction (P := Knows io ⟨s, .entered⟩)
      (show Knows io ⟨s, .entered⟩ [] ⟨s, .entered⟩ from trivial)
      (fun reached before _ step => knows_step reached before step) Machine.along_true run
  exact known.resolve_right whole

/-- Ten records of two bytes and an ioctl for the third slot. -/
def tenRecords : List WriteCall := (List.range 10).map fun i => ⟨{ kmallocAt := some i }, [97, newline], 0⟩

def thirdSlot : IoctlCall := ⟨{}, iocSeekto, ⟨2, 0⟩, 0⟩

/-- One longer record replaces the oldest, in slot 0, once the loop has read it: the answer is that of
the state before. -/
theorem ioctl_atomic_one_write :
    let s := (writer.run Driver.init tenRecords).getD Driver.init
    let labels := [.ioctl, .ioctl, .write ⟨{ kmallocAt := some 10 }, [98, 98, 98, newline], 0⟩, .ioctl, .ioctl]
    Atomic thirdSlot ⟨s, .entered⟩ labels 0 4 := by
  intro s labels
  have ends : ((race thirdSlot).run ⟨s, .entered⟩ labels).map Race.pc = some (.returned 0 4) := by decide +kernel
  obtain ⟨⟨t, _⟩, run, rfl⟩ := Option.map_eq_some_iff.mp ends
  refine ioctl_atomic_unless_torn thirdSlot s t labels 0 4 run ?_
  intro both
  rcases both.1 with ⟨first, behind, middle, ahead, last, _, _, split, _⟩ | ⟨first, behind, last, u, split, reached, late⟩
  · have writes := congrArg (List.countP fun label => label matches .write _) split
    simp [labels] at writes
    omega
  · -- Slot 2 always has bytes.
    have sizes : ∀ n < 5, ((race thirdSlot).run ⟨s, .entered⟩ (labels.take n)).all (fun r =>
        0 < (r.driver.dev.buffer.slot 2).size) := by decide +kernel
    have short : first.length < 5 := by
      have := congrArg List.length split
      simp [labels] at this
      omega
    have sized := sizes first.length short
    rw [split, List.take_left, reached, Option.all_some, decide_eq_true_eq] at sized
    exact Nat.not_le_of_lt sized late.2.2

/-- After slot 0 is read, a longer record replaces it and another one slot 1: the ioctl adds the old size
of slot 0 to the new one of slot 1. -/
theorem ioctl_torn_by_two_writes :
    ¬ ∀ (calls : List WriteCall) (io : IoctlCall) (s t : Driver) (labels : List RaceStep) (retval fpos : Int),
      writer.run Driver.init calls = some s →
      (race io).run ⟨s, .entered⟩ labels = some ⟨t, .returned retval fpos⟩ →
      Atomic io ⟨s, .entered⟩ labels retval fpos := by
  intro atomic
  let s := (writer.run Driver.init tenRecords).getD Driver.init
  let labels : List RaceStep := [.ioctl, .ioctl, .write ⟨{ kmallocAt := some 10 }, [98, 98, 98, newline], 0⟩,
    .write ⟨{ kmallocAt := some 11 }, [99, 99, 99, 99, 99, newline], 0⟩, .ioctl, .ioctl]
  have ends : ((race thirdSlot).run ⟨s, .entered⟩ labels).map Race.pc = some (.returned 0 8) := by decide +kernel
  obtain ⟨⟨t, _⟩, run, rfl⟩ := Option.map_eq_some_iff.mp ends
  obtain ⟨first, last, u, split, reached, same⟩ := atomic tenRecords thirdSlot s t labels 0 8 rfl run
  have none' : ∀ n < 7, ((race thirdSlot).run ⟨s, .entered⟩ (labels.take n)).map (fun r =>
      aesdIoctl thirdSlot.env thirdSlot.cmd thirdSlot.seekto r.driver thirdSlot.fpos) ≠ some (0, 8) := by
    decide +kernel
  have short : first.length < 7 := by
    have := congrArg List.length split
    simp [labels] at this
    omega
  apply none' first.length short
  rw [split, List.take_left, reached, Option.map_some, same]

end Aesd
