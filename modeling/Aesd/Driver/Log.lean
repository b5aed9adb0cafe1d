import Aesd.Driver.Failure
import Aesd.Driver.Seek
import Aesd.Library.RecordLog
import Aesd.Library.Simulation

/-!
# What the device is for

A log of lines. Every line ever completed has a number; the last ten can be read,
line after line, from a position that each opener has of its own, and what is
written after the last newline waits. There is no memory here: what the kernel
grants or refuses in a call is a verdict.
-/

namespace Aesd
open Library

structure LogDevice where
  records : List (List UInt8)
  pending : List UInt8
  fpos : Nat → Int

/-- What became of a call: refused with an error, carried out, carried out with so many bytes of the user's memory
out of reach, or carried out after other bytes took the place of the pending ones. -/
inductive Verdict where
  | refused (error : Int)
  | done
  | uncopied (bytes : Nat)
  | moved (found : List UInt8)
  deriving DecidableEq

structure Request where
  opener : Nat
  operation : Operation
  verdict : Verdict

structure Reply where
  retval : Int
  data : List UInt8 := []
  deriving DecidableEq

/-- The errors a call can be refused with. A read finds out by itself whether it can copy. -/
def Operation.errors : Operation → List Int
  | .read _ => [erestartsys]
  | .write _ => [erestartsys, enomem, efault]
  | .llseek _ _ => [einval]
  | .ioctl _ _ => [efault]

namespace LogDevice

def init : LogDevice := ⟨[], [], fun _ => 0⟩

def kept (d : LogDevice) : List (List UInt8) := d.records.rtake maxWriteOperations

def moveTo (d : LogDevice) (opener : Nat) (fpos : Int) : LogDevice :=
  { d with fpos := Function.update d.fpos opener fpos }

def read (d : LogDevice) (opener notCopied count : Nat) : Reply × LogDevice :=
  let rest := restOfRecord d.kept (toSizeT (d.fpos opener))
  if rest = [] then (⟨0, []⟩, d)
  else if min notCopied (min count rest.length) ≠ 0 then (⟨-efault, []⟩, d)
  else (⟨(rest.take count).length, rest.take count⟩,
    d.moveTo opener (loffT (d.fpos opener + (rest.take count).length)))

def completed (line : List UInt8) : List (List UInt8) := if EndsLine line then [line] else []

def append (d : LogDevice) (line : List UInt8) : LogDevice :=
  { d with records := d.records ++ completed line, pending := if EndsLine line then [] else line }

def write (d : LogDevice) (opener : Nat) (found buf : List UInt8) : Reply × LogDevice :=
  (⟨buf.length, []⟩, (d.append (found ++ buf)).moveTo opener (loffT (d.fpos opener + buf.length)))

def llseek (d : LogDevice) (opener : Nat) (offSet whence : Int) : Reply × LogDevice :=
  let res := seekWithin d.kept.flatten.length offSet whence (d.fpos opener)
  (⟨res.1, []⟩, d.moveTo opener res.2)

/-- The position counts the records in the places before `write_cmd`, not the older ones. -/
def ioctl (d : LogDevice) (opener cmd : Nat) (seekto : Seekto) : Reply × LogDevice :=
  let place (i : Nat) := (placed maxWriteOperations d.records i).length
  if cmd ≠ iocSeekto then (⟨-enotty, []⟩, d)
  else if seekto.writeCmd.toNat < maxWriteOperations ∧ seekto.writeCmdOffset.toNat < place seekto.writeCmd.toNat then
    (⟨0, []⟩, d.moveTo opener (((∑ i ∈ Finset.range seekto.writeCmd.toNat, place i) +
      seekto.writeCmdOffset.toNat : Nat) : Int))
  else (⟨-einval, []⟩, d)

def answer (d : LogDevice) (request : Request) : Option (Reply × LogDevice) :=
  match request.operation, request.verdict with
  | operation, .refused error => if error ∈ operation.errors then some (⟨-error, []⟩, d) else none
  | .read count, .uncopied bytes => some (d.read request.opener bytes count)
  | .write buf, .done => some (d.write request.opener d.pending buf)
  | .llseek offSet whence, .done => some (d.llseek request.opener offSet whence)
  | .ioctl cmd seekto, .done => some (d.ioctl request.opener cmd seekto)
  | .write buf, .moved found =>
    if d.pending ≠ [] ∧ found.length = d.pending.length then some (d.write request.opener found buf) else none
  | _, _ => none

variable {d : LogDevice} {line found buf : List UInt8} {opener : Nat} {fpos : Int}

@[simp] theorem moveTo_records : (d.moveTo opener fpos).records = d.records := rfl
@[simp] theorem moveTo_pending : (d.moveTo opener fpos).pending = d.pending := rfl
@[simp] theorem moveTo_kept : (d.moveTo opener fpos).kept = d.kept := rfl
@[simp] theorem moveTo_fpos : (d.moveTo opener fpos).fpos = Function.update d.fpos opener fpos := rfl

@[simp] theorem write_records : (d.write opener found buf).2.records = d.records ++ completed (found ++ buf) := rfl
@[simp] theorem write_kept : (d.write opener found buf).2.kept = (d.append (found ++ buf)).kept := rfl

theorem append_kept (ends : EndsLine line) : (d.append line).kept = (d.kept ++ [line]).rtake maxWriteOperations := by
  unfold append completed
  rw [if_pos ends]
  exact (rtake_push_rtake _ _ _).symm

theorem append_more (more : ¬ EndsLine line) : (d.append line).kept = d.kept := by
  unfold append completed
  rw [if_neg more, List.append_nil]
  rfl

/-- The record that a request completes. -/
def completes (d : LogDevice) (request : Request) : List (List UInt8) :=
  match request.operation, request.verdict with
  | .write buf, .done => completed (d.pending ++ buf)
  | .write buf, .moved found => completed (found ++ buf)
  | _, _ => []

theorem moveTo_self (d : LogDevice) (opener : Nat) : d.moveTo opener (d.fpos opener) = d := by
  unfold moveTo
  rw [Function.update_eq_self]

/-- A request moves its opener, and completes a record only by appending to the log. -/
theorem answer_cases {d' : LogDevice} {request : Request} {reply : Reply} (h : d.answer request = some (reply, d')) :
    ∃ fpos, (d' = d.moveTo request.opener fpos ∧ d.completes request = []) ∨
      ∃ line, d' = (d.append line).moveTo request.opener fpos ∧ d.completes request = completed line := by
  obtain ⟨opener, operation, verdict⟩ := request
  have still : d = d.moveTo opener (d.fpos opener) := (d.moveTo_self opener).symm
  cases verdict with
  | refused error =>
    simp only [answer] at h
    split at h
    · obtain ⟨_, rfl⟩ := Prod.mk.inj (Option.some.inj h)
      exact ⟨_, Or.inl ⟨still, by cases operation <;> rfl⟩⟩
    · cases h
  | moved found =>
    cases operation with
    | write buf =>
      simp only [answer] at h
      split at h
      · obtain ⟨_, rfl⟩ := Prod.mk.inj (Option.some.inj h)
        exact ⟨_, Or.inr ⟨_, rfl, rfl⟩⟩
      · cases h
    | read count => cases h
    | llseek offSet whence => cases h
    | ioctl cmd seekto => cases h
  | done =>
    cases operation with
    | write buf =>
      obtain ⟨_, rfl⟩ := Prod.mk.inj (Option.some.inj h)
      exact ⟨_, Or.inr ⟨_, rfl, rfl⟩⟩
    | read count => cases h
    | llseek offSet whence =>
      obtain ⟨_, rfl⟩ := Prod.mk.inj (Option.some.inj h)
      exact ⟨_, Or.inl ⟨rfl, rfl⟩⟩
    | ioctl cmd seekto =>
      have result : d' = (d.ioctl opener cmd seekto).2 := congrArg Prod.snd (Option.some.inj h).symm
      unfold ioctl at result
      simp only at result
      split at result
      · exact ⟨_, Or.inl ⟨result.trans still, rfl⟩⟩
      split at result
      · exact ⟨_, Or.inl ⟨result, rfl⟩⟩
      · exact ⟨_, Or.inl ⟨result.trans still, rfl⟩⟩
  | uncopied bytes =>
    cases operation with
    | read count =>
      have result : d' = (d.read opener bytes count).2 := congrArg Prod.snd (Option.some.inj h).symm
      unfold read at result
      simp only at result
      split at result
      · exact ⟨_, Or.inl ⟨result.trans still, rfl⟩⟩
      split at result
      · exact ⟨_, Or.inl ⟨result.trans still, rfl⟩⟩
      · exact ⟨_, Or.inl ⟨result, rfl⟩⟩
    | write buf => cases h
    | llseek offSet whence => cases h
    | ioctl cmd seekto => cases h

theorem answer_records {d' : LogDevice} {request : Request} {reply : Reply} (h : d.answer request = some (reply, d')) :
    d'.records = d.records ++ d.completes request := by
  obtain ⟨fpos, ⟨rfl, nothing⟩ | ⟨line, rfl, record⟩⟩ := answer_cases h
  · rw [nothing, List.append_nil, moveTo_records]
  · rw [record]
    rfl

theorem answer_others {d' : LogDevice} {request : Request} {reply : Reply} (h : d.answer request = some (reply, d'))
    (other : opener ≠ request.opener) : d'.fpos opener = d.fpos opener := by
  obtain ⟨fpos, ⟨rfl, _⟩ | ⟨line, rfl, _⟩⟩ := answer_cases h
  · exact Function.update_of_ne other _ _
  · exact Function.update_of_ne other _ _

end LogDevice

def logDevice : Machine LogDevice Request where
  step d request := (d.answer request).map Prod.snd

/-- What an observer sees of a call: who made it, what it returned, the record it completed. -/
structure Shown where
  opener : Nat
  reply : Reply
  completed : List (List UInt8)
  deriving DecidableEq

def LogDevice.shown (d : LogDevice) (request : Request) : List Shown :=
  ((d.answer request).map fun result => ⟨request.opener, result.1, d.completes request⟩).toList

end Aesd
