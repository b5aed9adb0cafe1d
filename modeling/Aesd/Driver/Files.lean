import Aesd.Driver.Log
import Aesd.Driver.SeekRace

/-!
# The open device

Any number of openers, each with its `f_pos`, calling the file operations one
after the other. Every run of calls, granted or refused, is a run of the log.
-/

namespace Aesd
open Library

structure Files where
  driver : Driver
  fpos : Nat → Int

structure FileCall where
  opener : Nat
  env : CallEnv
  operation : Operation

def Files.init : Files := ⟨Driver.init, fun _ => 0⟩

def reply (env : CallEnv) (s : Driver) (fpos : Int) : Operation → Reply
  | .read count => ⟨(aesdRead env count s fpos).retval, (aesdRead env count s fpos).data⟩
  | operation => ⟨(perform env s fpos operation).retval, []⟩

def faults (env : CallEnv) (s : Driver) (fpos : Int) : Operation → Bool
  | .write buf => (aesdWrite env buf s fpos).oops
  | _ => false

/-- The device, stepped by calls that do not fault. -/
def files : Machine Files FileCall where
  step f call :=
    let outcome := perform call.env f.driver (f.fpos call.opener) call.operation
    if faults call.env f.driver (f.fpos call.opener) call.operation then none
    else some ⟨outcome.state, Function.update f.fpos call.opener outcome.fpos⟩

/-- What a write that is not granted is short of: the lock, memory, or bytes of the user's. -/
def refusal (env : CallEnv) (buf : List UInt8) (s : Driver) : Int :=
  if env.interrupted then erestartsys
  else if (s.heap.kmalloc buf.length env.kmallocAt env.junk).isSome ∧ min env.notCopied buf.length ≠ 0 then efault
  else enomem

namespace Files

/-- The record a call hands to the ring. -/
def handed (f : Files) (call : FileCall) : List (List UInt8) :=
  match call.operation with
  | .write buf => (aesdWrite call.env buf f.driver (f.fpos call.opener)).handed.toList
  | _ => []

def shown (f : Files) (call : FileCall) : List Shown :=
  [⟨call.opener, reply call.env f.driver (f.fpos call.opener) call.operation, f.handed call⟩]

def verdict (f : Files) (call : FileCall) : Verdict :=
  match call.operation with
  | .read _ =>
    if call.env.interrupted then .refused erestartsys else .uncopied call.env.notCopied
  | .write buf =>
    if granted call.env buf f.driver then
      match f.driver.dev.entry.buffptr with
      | .block a =>
        if call.env.kreallocAt = some a then .done
        else .moved (garbage call.env.junk f.driver.dev.entry.size)
      | _ => .done
    else .refused (refusal call.env buf f.driver)
  | .llseek _ _ => if call.env.interrupted then .refused einval else .done
  | .ioctl cmd _ => if cmd = iocSeekto ∧ min call.env.notCopied 8 ≠ 0 then .refused efault else .done

/-- The call as the log has it: the same opener and operation, with a verdict. -/
def request (f : Files) (call : FileCall) : Request := ⟨call.opener, call.operation, f.verdict call⟩

/-- The ring holds the last ten records of the log, each in its place, and the pending entry its pending
bytes. -/
structure Represents (f : Files) (d : LogDevice) : Prop where
  layout : ∃ ring pending lost, Layout f.driver ring pending lost ∧ ring.map Prod.snd = d.kept ∧
    pending.elim [] Prod.snd = d.pending
  number : f.driver.dev.buffer.inOffs = d.records.length % maxWriteOperations
  fpos : f.fpos = d.fpos

end Files

variable {f : Files} {d : LogDevice} {s : Driver} {ring : List Cell} {pending : Option Cell} {lost : List Nat}
  {env : CallEnv} {buf : List UInt8} {fpos : Int} {call : FileCall}

/-! ### Reads -/

theorem Layout.find_rest (h : Layout s ring pending lost) (p : Nat) :
    (∃ j, ∃ stored : j < ring.length, s.dev.buffer.findEntryOffsetForFpos p 0 =
        (some ((j + s.dev.buffer.outOffs) % maxWriteOperations), p - start (ring.map Prod.snd) j) ∧
      s.dev.buffer.slot ((j + s.dev.buffer.outOffs) % maxWriteOperations) = (ring[j]).entry ∧
      p - start (ring.map Prod.snd) j < (ring[j]).2.length ∧
      restOfRecord (ring.map Prod.snd) p = (ring[j]).2.drop (p - start (ring.map Prod.snd) j)) ∨
    (restOfRecord (ring.map Prod.snd) p = [] ∧ s.dev.buffer.findEntryOffsetForFpos p 0 = (none, 0)) := by
  rcases h.find p with ⟨j, stored, above, below, found, slot⟩ | ⟨past, found⟩
  · have stored' : j < (ring.map Prod.snd).length := by simpa using stored
    have rest := restOfRecord_inside stored' above below
    rw [start_succ stored', List.getElem_map] at below
    rw [List.getElem_map] at rest
    exact Or.inl ⟨j, stored, found, slot, by omega, rest⟩
  · exact Or.inr ⟨restOfRecord_beyond past, found⟩

/-- What a read that holds the lock returns. -/
theorem Layout.read_eq (h : Layout s ring pending lost) (env : CallEnv) (count : Nat) (fpos : Int) :
    let rest := restOfRecord (ring.map Prod.snd) (toSizeT fpos)
    aesdReadLocked env count s fpos =
      if rest = [] then ⟨0, [], fpos⟩
      else if min env.notCopied (min count rest.length) ≠ 0 then ⟨-efault, [], fpos⟩
      else ⟨(rest.take count).length, rest.take count, loffT (fpos + (rest.take count).length)⟩ := by
  intro rest
  unfold aesdReadLocked
  rcases h.find_rest (toSizeT fpos) with ⟨j, stored, found, slot, inside, record⟩ | ⟨nothing, found⟩
  · have live := h.live ring[j] (by simp)
    have bound : (ring[j]).2.length < 2 ^ 63 := by
      have := s.heap.sum_lengths_lt [ring[j]] (by simp) (by simpa using live)
      simpa [addressSpace] using this
    have length : rest.length = (ring[j]).2.length - (toSizeT fpos - start (ring.map Prod.snd) j) := by
      rw [show rest = _ from record, List.length_drop]
    have some' : rest ≠ [] := by
      rw [← List.length_pos_iff, length]
      omega
    rw [if_neg some']
    simp only [found, slot, Cell.entry]
    rw [sizeSub_of_le (by omega) (by omega), ← length]
    split
    · rfl
    · have data : ((s.heap.bytes env.junk (.block ring[j].1)
          (toSizeT fpos - start (ring.map Prod.snd) j + min count rest.length)).drop
          (toSizeT fpos - start (ring.map Prod.snd) j)) = rest.take count := by
        simp only [Heap.bytes, live]
        rw [List.drop_take, Nat.add_sub_cancel_left, show rest = _ from record, List.take_eq_take_iff]
        omega
      rw [data, List.length_take, loffT_of_bounds (x := (min count rest.length : Nat)) (by omega) (by omega)]
  · rw [if_pos nothing]
    simp only [found]

/-! ### Places -/

theorem Layout.place_size {records : List (List UInt8)} (h : Layout s ring pending lost)
    (kept : ring.map Prod.snd = records.rtake maxWriteOperations)
    (number : s.dev.buffer.inOffs = records.length % maxWriteOperations) {i : Nat} (inside : i < maxWriteOperations) :
    (s.dev.buffer.slot i).size = (placed maxWriteOperations records i).length := by
  have ten : i < 10 := inside
  have count : ring.length = min 10 records.length := by
    rw [← length_rtake, ← kept, List.length_map]
  -- Record `j` of the ring is number `records.length - 10 + j`; its slot is that number modulo 10.
  have stored (j : Nat) (here : j < ring.length) (slot : (s.dev.buffer.outOffs + j) % 10 = i)
      (place : (records.length - 10 + j) % 10 = i) :
      (s.dev.buffer.slot i).size = (placed maxWriteOperations records i).length := by
    have entry := h.holds.slot_eq (j := j) (by simpa using here)
    rw [slot, List.getElem_map] at entry
    have among : j < (records.rtake maxWriteOperations).length := by
      rw [← kept]
      simpa using here
    have record := placed_kept (by decide) among
    rw [place] at record
    simp only [entry, record, ← kept, List.getElem_map, Cell.entry]
  by_cases room : ring.length < 10
  · have out := h.holds.unwrapped (by simpa using room)
    by_cases known : i < records.length
    · exact stored i (by omega) (by omega) (by omega)
    · have unused := h.holds.unused i (by rw [List.length_map]; omega) inside
      rw [out, Nat.zero_add, Nat.mod_eq_of_lt inside] at unused
      rw [placed_outside (by omega), unused]
      rfl
  · have first := h.holds.in_eq
    have out : s.dev.buffer.outOffs < 10 := h.holds.out_lt
    rw [number, List.length_map] at first
    have first : records.length % 10 = (s.dev.buffer.outOffs + ring.length) % 10 := first
    exact stored ((i + 10 - s.dev.buffer.outOffs) % 10) (by omega) (by omega) (by omega)

/-! ### Writes -/

theorem refusal_error (env : CallEnv) (buf : List UInt8) (s : Driver) :
    refusal env buf s ∈ (Operation.write buf).errors := by
  unfold refusal
  split
  · simp [Operation.errors]
  split
  · simp [Operation.errors]
  · simp [Operation.errors]

theorem aesdWrite_refused (fpos : Int) (refused : testedState env buf s = none) :
    (aesdWrite env buf s fpos).retval = -refusal env buf s := by
  unfold testedState at refused
  unfold aesdWrite aesdWriteLocked refusal
  by_cases interrupted : env.interrupted
  · rw [if_pos interrupted, if_pos interrupted]
  rw [if_neg interrupted, if_neg interrupted]
  cases found : s.heap.kmalloc buf.length env.kmallocAt env.junk with
  | none => simp [found]
  | some result =>
    by_cases faulty : min env.notCopied buf.length ≠ 0
    · simp only [found, if_pos faulty, Option.isSome_some, true_and]
    · have grown : growEntry env { s with heap := result.2.store result.1 0 buf } result.1 buf.length = none := by
        simpa only [found, interrupted, faulty, false_or, if_false, Bool.false_eq_true] using refused
      simp only [found, if_neg faulty, grown]
      rw [if_neg fun both => faulty both.2]

theorem commitEntry_inOffs (env : CallEnv) (s : Driver) (count : Nat) (fpos : Int) :
    (commitEntry env s count fpos).state.dev.buffer.inOffs =
      if (commitEntry env s count fpos).handed.isSome then (s.dev.buffer.inOffs + 1) % maxWriteOperations
      else s.dev.buffer.inOffs := by
  unfold commitEntry
  simp only
  split
  · rfl
  split
  · simp only [Option.isSome_some, if_true, CircularBuffer.addEntry]
    split <;> rfl
  · rfl

/-- A granted write against the log: the line is pending or has become the newest record. -/
theorem Layout.write_represents (h : Layout f.driver ring pending lost) (kept : ring.map Prod.snd = d.kept)
    (number : f.driver.dev.buffer.inOffs = d.records.length % maxWriteOperations) (same : f.fpos = d.fpos)
    (opener : Nat) (ok : granted env buf f.driver = true)
    (sound : (aesdWrite env buf f.driver (f.fpos opener)).oops = false) :
    let res := aesdWrite env buf f.driver (f.fpos opener)
    res.retval = buf.length ∧ res.handed.toList = LogDevice.completed (carried env pending ++ buf) ∧
      Files.Represents ⟨res.state, Function.update f.fpos opener res.fpos⟩
        (d.write opener (carried env pending) buf).2 := by
  intro res
  obtain ⟨t, tested⟩ := Option.isSome_iff_exists.mp (testedState_isSome env buf f.driver ▸ ok)
  have number' : res.state.dev.buffer.inOffs = if res.handed.isSome then
      (d.records.length + 1) % maxWriteOperations else d.records.length % maxWriteOperations := by
    simp only [res, aesdWrite_tested _ tested, commitEntry_inOffs, testedState_buffer tested, number, Nat.mod_add_mod]
  by_cases bytes : buf ≠ [] ∨ pending ≠ none
  · obtain ⟨a, _, returned, moved, _, after⟩ := aesdWrite_grown (f.fpos opener) h bytes ok
    have fpos : Function.update f.fpos opener res.fpos =
        (d.write opener (carried env pending) buf).2.fpos := by
      simp only [LogDevice.write, LogDevice.moveTo_fpos, LogDevice.append, show res.fpos = _ from moved, same]
    by_cases ends : EndsLine (carried env pending ++ buf)
    · rw [if_pos ends] at after
      obtain ⟨handed, layout⟩ := after
      have completed : LogDevice.completed (carried env pending ++ buf) = [carried env pending ++ buf] := if_pos ends
      refine ⟨returned, ?_, ⟨_, none, _, layout, ?_, ?_⟩, ?_, fpos⟩
      · rw [completed, handed, Option.toList_some]
      · rw [LogDevice.write_kept, LogDevice.append_kept ends, ← kept]
        simp [List.rtake, List.map_drop]
      · exact (if_pos ends).symm
      · rw [LogDevice.write_records, completed, List.length_append]
        simp only [number', res, handed, Option.isSome_some, if_true, List.length_singleton]
    · rw [if_neg ends] at after
      obtain ⟨handed, layout⟩ := after
      have completed : LogDevice.completed (carried env pending ++ buf) = [] := if_neg ends
      refine ⟨returned, ?_, ⟨_, _, _, layout, ?_, ?_⟩, ?_, fpos⟩
      · rw [completed, handed, Option.toList_none]
      · rw [LogDevice.write_kept, LogDevice.append_more ends, kept]
      · exact (if_neg ends).symm
      · rw [LogDevice.write_records, completed, List.append_nil]
        simp only [number', res, handed, Option.isSome_none, Bool.false_eq_true, if_false]
  · obtain ⟨nothing, fresh⟩ := not_or.mp bytes
    obtain rfl := not_not.mp fresh
    obtain rfl := not_not.mp nothing
    obtain rfl := layout_fresh_nothing h tested
    rw [aesdWrite_tested _ tested] at sound
    cases sound

/-- The pending bytes are where `memcpy` looks for them, or others are in their place. -/
theorem Layout.verdict (h : Layout f.driver ring pending lost) (opener : Nat) (ok : granted env buf f.driver = true) :
    let found := carried env pending
    let waiting := pending.elim [] Prod.snd
    (f.verdict ⟨opener, env, .write buf⟩ = .done ∧ found = waiting) ∨
    (f.verdict ⟨opener, env, .write buf⟩ = .moved found ∧ waiting ≠ [] ∧ found.length = waiting.length) := by
  simp only [Files.verdict, if_pos ok, h.entry]
  cases pending with
  | none => exact Or.inl ⟨rfl, rfl⟩
  | some cell =>
    have filled := h.filled cell rfl
    simp only [Option.elim_some, Cell.entry, carried]
    split
    · exact Or.inl ⟨rfl, rfl⟩
    · exact Or.inr ⟨rfl, filled, garbage_length _ _⟩

/-! ### One call -/

namespace Files.Represents

theorem moved (h : f.Represents d) (opener : Nat) (fpos : Int) :
    Represents ⟨f.driver, Function.update f.fpos opener fpos⟩ (d.moveTo opener fpos) where
  layout := h.layout
  number := h.number
  fpos := by rw [h.fpos, LogDevice.moveTo_fpos]

theorem stayed (h : f.Represents d) (opener : Nat) :
    Represents ⟨f.driver, Function.update f.fpos opener (f.fpos opener)⟩ d := by
  rw [Function.update_eq_self]
  exact h

theorem read (h : f.Represents d) (opener : Nat) (env : CallEnv) (count : Nat) :
    ∃ d', d.answer (f.request ⟨opener, env, .read count⟩) =
        some (reply env f.driver (f.fpos opener) (.read count), d') ∧
      Represents ⟨f.driver, Function.update f.fpos opener (aesdRead env count f.driver (f.fpos opener)).fpos⟩ d' := by
  obtain ⟨ring, pending, lost, layout, kept, _⟩ := h.layout
  simp only [request, verdict, reply]
  by_cases interrupted : env.interrupted
  · have result : aesdRead env count f.driver (f.fpos opener) = ⟨-erestartsys, [], f.fpos opener⟩ := by
      rw [aesdRead, if_pos interrupted]
    rw [if_pos interrupted, result]
    exact ⟨d, by simp [LogDevice.answer, Operation.errors], h.stayed opener⟩
  rw [if_neg interrupted]
  have result := layout.read_eq env count (f.fpos opener)
  simp only [kept] at result
  rw [show aesdReadLocked env count f.driver (f.fpos opener) = aesdRead env count f.driver (f.fpos opener) by
    rw [aesdRead, if_neg interrupted]] at result
  by_cases ended : restOfRecord d.kept (toSizeT (f.fpos opener)) = []
  · rw [if_pos ended] at result
    rw [h.fpos] at ended
    rw [result]
    exact ⟨d, by simp only [LogDevice.answer, LogDevice.read, if_pos ended], h.stayed opener⟩
  rw [if_neg ended] at result
  by_cases faulty : min env.notCopied (min count (restOfRecord d.kept (toSizeT (f.fpos opener))).length) ≠ 0
  · rw [if_pos faulty] at result
    rw [h.fpos] at ended faulty
    rw [result]
    exact ⟨d, by simp only [LogDevice.answer, LogDevice.read, if_neg ended, if_pos faulty], h.stayed opener⟩
  · rw [if_neg faulty] at result
    rw [result]
    refine ⟨_, ?_, h.moved opener _⟩
    rw [h.fpos] at ended faulty ⊢
    simp only [LogDevice.answer, LogDevice.read, if_neg ended, if_neg faulty]

theorem llseek (h : f.Represents d) (opener : Nat) (env : CallEnv) (offSet whence : Int) :
    ∃ d', d.answer (f.request ⟨opener, env, .llseek offSet whence⟩) =
        some (reply env f.driver (f.fpos opener) (.llseek offSet whence), d') ∧
      Represents ⟨f.driver, Function.update f.fpos opener (aesdLlseek env offSet whence f.driver (f.fpos opener)).2⟩
        d' := by
  obtain ⟨ring, pending, lost, layout, kept, _⟩ := h.layout
  simp only [request, verdict, reply, perform]
  by_cases interrupted : env.interrupted
  · have result : aesdLlseek env offSet whence f.driver (f.fpos opener) = (-einval, f.fpos opener) := by
      -- The buffer is as long as `-ENOMEM`, and every position is outside.
      have outside (newpos : Int) : newpos < 0 ∨ newpos > -enomem := by
        have : enomem = 12 := rfl
        omega
      simp only [aesdLlseek, getBufferSize, if_pos interrupted, seekWithin, if_pos (outside _), ite_self]
    rw [if_pos interrupted, result]
    exact ⟨d, by simp [LogDevice.answer, Operation.errors], h.stayed opener⟩
  · have size := layout.getBufferSize_eq (by simpa using interrupted)
    rw [if_neg interrupted, aesdLlseek, size, kept, h.fpos, ← h.fpos]
    refine ⟨_, ?_, h.moved opener _⟩
    rw [h.fpos]
    rfl

theorem ioctl (h : f.Represents d) (opener : Nat) (env : CallEnv) (cmd : Nat) (seekto : Seekto) :
    ∃ d', d.answer (f.request ⟨opener, env, .ioctl cmd seekto⟩) =
        some (reply env f.driver (f.fpos opener) (.ioctl cmd seekto), d') ∧
      Represents ⟨f.driver, Function.update f.fpos opener (aesdIoctl env cmd seekto f.driver (f.fpos opener)).2⟩
        d' := by
  obtain ⟨ring, pending, lost, layout, kept, _⟩ := h.layout
  simp only [request, verdict, reply, perform]
  by_cases known : cmd = iocSeekto
  · subst known
    by_cases faulty : min env.notCopied 8 ≠ 0
    · have result : aesdIoctl env iocSeekto seekto f.driver (f.fpos opener) = (-efault, f.fpos opener) := by
        rw [aesdIoctl, if_pos rfl, if_pos faulty]
      rw [if_pos ⟨rfl, faulty⟩, result]
      exact ⟨d, by simp [LogDevice.answer, Operation.errors], h.stayed opener⟩
    · have place {i : Nat} (inside : i < maxWriteOperations) := layout.place_size kept h.number inside
      have sums {n : Nat} (le : n < maxWriteOperations) : ∑ i ∈ Finset.range n, (f.driver.dev.buffer.slot i).size =
          ∑ i ∈ Finset.range n, (placed maxWriteOperations d.records i).length :=
        Finset.sum_congr rfl fun i inside => place (Nat.lt_trans (Finset.mem_range.mp inside) le)
      rw [if_neg fun both => faulty both.2, layout.ioctl (by simpa using faulty)]
      simp only [LogDevice.answer, LogDevice.ioctl, ne_eq, not_true_eq_false, if_false]
      by_cases inside : seekto.writeCmd.toNat < maxWriteOperations ∧
          seekto.writeCmdOffset.toNat < (placed maxWriteOperations d.records seekto.writeCmd.toNat).length
      · rw [if_pos inside, if_pos ⟨inside.1, by rw [place inside.1]; exact inside.2⟩, sums inside.1]
        exact ⟨_, rfl, h.moved opener _⟩
      · rw [if_neg inside, if_neg fun both => inside ⟨both.1, by rw [← place both.1]; exact both.2⟩]
        exact ⟨d, rfl, h.stayed opener⟩
  · have result : aesdIoctl env cmd seekto f.driver (f.fpos opener) = (-enotty, f.fpos opener) := by
      rw [aesdIoctl, if_neg known]
    rw [if_neg fun both => known both.1, result]
    exact ⟨d, by simp only [LogDevice.answer, LogDevice.ioctl, if_pos (show cmd ≠ iocSeekto from known)],
      h.stayed opener⟩

theorem write (h : f.Represents d) (opener : Nat) (env : CallEnv) (buf : List UInt8)
    (sound : (aesdWrite env buf f.driver (f.fpos opener)).oops = false) :
    ∃ d', d.answer (f.request ⟨opener, env, .write buf⟩) =
        some (reply env f.driver (f.fpos opener) (.write buf), d') ∧
      f.handed ⟨opener, env, .write buf⟩ = d.completes (f.request ⟨opener, env, .write buf⟩) ∧
      let res := aesdWrite env buf f.driver (f.fpos opener)
      Represents ⟨res.state, Function.update f.fpos opener res.fpos⟩ d' := by
  obtain ⟨ring, pending, lost, layout, kept, waiting⟩ := h.layout
  cases ok : granted env buf f.driver with
  | false =>
    have refused := testedState_isSome env buf f.driver
    rw [ok, Option.isSome_eq_false_iff, Option.isNone_iff_eq_none] at refused
    have returned := aesdWrite_refused (f.fpos opener) refused
    obtain ⟨_, _, same⟩ := aesdWrite_denied (f.fpos opener) ok
    simp only [request, verdict, reply, perform, handed, ok, Bool.false_eq_true, if_false, same] at returned ⊢
    refine ⟨d, ?_, rfl, h.stayed opener⟩
    simp only [returned, LogDevice.answer, if_pos (refusal_error env buf f.driver)]
  | true =>
    obtain ⟨returned, line, after⟩ := layout.write_represents kept h.number h.fpos opener ok sound
    refine ⟨_, ?_, ?_, after⟩
    all_goals
      simp only [request, reply, perform, handed]
      rcases layout.verdict opener ok with ⟨same, kept⟩ | ⟨other, some', length⟩
    · rw [same, returned]
      simp only [LogDevice.answer, ← waiting, ← kept]
      rfl
    · rw [other, returned]
      simp only [LogDevice.answer, ← waiting, ne_eq, some', length, not_false_eq_true, and_self, if_true]
      rfl
    · rw [same, line]
      simp only [LogDevice.completes, ← waiting, ← kept]
    · rw [other, line]
      rfl

theorem step {f' : Files} (h : f.Represents d) (step : files.step f call = some f') :
    ∃ d', d.answer (f.request call) = some (reply call.env f.driver (f.fpos call.opener) call.operation, d') ∧
      f.handed call = d.completes (f.request call) ∧ f'.Represents d' := by
  obtain ⟨opener, env, operation⟩ := call
  simp only [files] at step
  split at step
  · cases step
  rename_i sound
  obtain rfl := Option.some.inj step
  cases operation with
  | read count =>
    obtain ⟨d', answered, after⟩ := h.read opener env count
    exact ⟨d', answered, rfl, after⟩
  | write buf => exact h.write opener env buf (by simpa [faults] using sound)
  | llseek offSet whence =>
    obtain ⟨d', answered, after⟩ := h.llseek opener env offSet whence
    exact ⟨d', answered, rfl, after⟩
  | ioctl cmd seekto =>
    obtain ⟨d', answered, after⟩ := h.ioctl opener env cmd seekto
    exact ⟨d', answered, rfl, after⟩

theorem init : Files.init.Represents LogDevice.init where
  layout := ⟨[], none, [], init_layout, rfl, rfl⟩
  number := rfl
  fpos := rfl

end Files.Represents

/-! ### Every run -/

theorem files_simulate_log : Simulates files logDevice (fun _ _ => True) Files.Represents
    (fun f call => [f.request call]) Files.shown LogDevice.shown where
  step := by
    intro f d call f' represents _ step
    obtain ⟨d', answered, record, after⟩ := represents.step step
    refine ⟨d', ?_, after, ?_⟩
    · simp only [Machine.run, logDevice, answered, Option.map_some, Option.bind_some]
    · simp only [Machine.observe, logDevice, Files.shown, LogDevice.shown, answered, record, Option.map_some,
        Option.toList_some, Option.elim_some, List.append_nil]
      rfl

end Aesd
