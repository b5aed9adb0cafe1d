import Aesd.Driver.CircularBuffer

/-!
# The character device

The file operations of `main.c` on the device and the kernel memory it uses.
What the rest of the kernel answers during a call is an argument. The lock is in
`Aesd.Driver.Locking`: here a call either gets it or is interrupted.
-/

namespace Aesd
open Library

def erestartsys : Int := 512
def enomem : Int := 12
def efault : Int := 14
def einval : Int := 22
def enotty : Int := 25

/-- A `loff_t` or `ssize_t`: 64 bits, signed, wrapping. -/
def loffT (x : Int) : Int := x.bmod (2 ^ 64)

def toSizeT (x : Int) : Nat := (x % 2 ^ 64).toNat

theorem loffT_of_bounds {x : Int} (low : -(2 ^ 63) ≤ x) (high : x < 2 ^ 63) : loffT x = x :=
  Int.bmod_eq_of_le (by omega) (by omega)

theorem toSizeT_natCast {n : Nat} (h : n < 2 ^ 64) : toSizeT n = n := by
  unfold toSizeT
  omega

def newline : UInt8 := 10

/-- What the rest of the kernel answers during one call of the driver. -/
structure CallEnv where
  interrupted : Bool := false
  kmallocAt : Option Nat := none
  notCopied : Nat := 0
  kreallocAt : Option Nat := none
  junk : Nat → UInt8 := fun _ => 0

/-- `struct aesd_dev`, without its lock and its `cdev`. -/
structure AesdDev where
  buffer : CircularBuffer
  entry : BufferEntry
  deriving DecidableEq

structure Driver where
  heap : Heap
  dev : AesdDev

def Driver.init : Driver := ⟨Heap.empty, ⟨CircularBuffer.init, .unused⟩⟩

/-! ### `aesd_write` -/

structure WriteResult where
  retval : Int
  state : Driver
  fpos : Int
  /-- The bytes of `dev->entry` when it is handed to `aesd_circular_buffer_add_entry`. -/
  handed : Option (List UInt8) := none
  /-- The call faulted and did not return. -/
  oops : Bool := false

/-- The new bytes become the pending entry or are appended to it; `none` when `krealloc` fails.
The first `memcpy` reads `dev->entry.buffptr`, which `krealloc` may have freed. -/
def growEntry (env : CallEnv) (s : Driver) (newBuff : Pointer) (count : Nat) : Option Driver :=
  let entry := s.dev.entry
  if entry.buffptr = .null then
    some { s with dev := { s.dev with entry := ⟨newBuff, sizeT (entry.size + count)⟩ } }
  else
    match s.heap.krealloc entry.buffptr (sizeT (entry.size + count)) env.kreallocAt env.junk with
    | none => none
    | some (combinedBuff, heap) =>
      let heap := heap.store combinedBuff 0 (heap.bytes env.junk entry.buffptr entry.size)
      let heap := heap.store combinedBuff entry.size (heap.bytes env.junk newBuff count)
      some ⟨heap.kfree newBuff, { s.dev with entry := ⟨combinedBuff, sizeT (entry.size + count)⟩ }⟩

/-- The newline test on the last byte of the entry and what follows it. -/
def commitEntry (env : CallEnv) (s : Driver) (count : Nat) (fpos : Int) : WriteResult :=
  let entry := s.dev.entry
  match s.heap.load entry.buffptr (sizeSub entry.size 1) with
  | none => { retval := 0, state := s, fpos, oops := true }
  | some last =>
    let returned : WriteResult := { retval := loffT count, state := s, fpos := loffT (fpos + count) }
    if last = newline then
      { returned with
        state := { s with dev := ⟨s.dev.buffer.addEntry entry, .unused⟩ }
        handed := some (s.heap.bytes env.junk entry.buffptr entry.size) }
    else returned

/-- `aesd_write` from the acquired lock to `out`. -/
def aesdWriteLocked (env : CallEnv) (buf : List UInt8) (s : Driver) (fpos : Int) : WriteResult :=
  let count := buf.length
  match s.heap.kmalloc count env.kmallocAt env.junk with
  | none => { retval := -enomem, state := s, fpos }
  | some (newBuff, heap) =>
    if min env.notCopied count ≠ 0 then
      { retval := -efault, state := { s with heap := heap.kfree newBuff }, fpos }
    else
      let heap := heap.store newBuff 0 buf
      match growEntry env { s with heap } newBuff count with
      | none => { retval := -enomem, state := { s with heap := heap.kfree newBuff }, fpos }
      | some s => commitEntry env s count fpos

def aesdWrite (env : CallEnv) (buf : List UInt8) (s : Driver) (fpos : Int) : WriteResult :=
  if env.interrupted then { retval := -erestartsys, state := s, fpos } else aesdWriteLocked env buf s fpos

/-! ### `aesd_read` -/

structure ReadResult where
  retval : Int
  data : List UInt8
  fpos : Int
  deriving DecidableEq

/-- `aesd_read` from the acquired lock to `out`. `total_bytes_read` is still 0 where a copy fails. -/
def aesdReadLocked (env : CallEnv) (count : Nat) (s : Driver) (fpos : Int) : ReadResult :=
  match s.dev.buffer.findEntryOffsetForFpos (toSizeT fpos) 0 with
  | (none, _) => ⟨0, [], fpos⟩
  | (some value, entryOffset) =>
    let entry := s.dev.buffer.slot value
    let bytesToRead := min count (sizeSub entry.size entryOffset)
    if min env.notCopied bytesToRead ≠ 0 then ⟨-efault, [], fpos⟩
    else
      let data := (s.heap.bytes env.junk entry.buffptr (entryOffset + bytesToRead)).drop entryOffset
      ⟨loffT bytesToRead, data, loffT (fpos + bytesToRead)⟩

def aesdRead (env : CallEnv) (count : Nat) (s : Driver) (fpos : Int) : ReadResult :=
  if env.interrupted then ⟨-erestartsys, [], fpos⟩ else aesdReadLocked env count s fpos

/-! ### `aesd_llseek` and `aesd_ioctl` -/

/-- The loop that sums the sizes of the first `n` physical slots into a `loff_t`. -/
def slotSum (b : CircularBuffer) (n : Nat) : Int :=
  (List.range n).foldl (fun sum i => loffT (sum + (b.slot i).size)) 0

def getBufferSize (env : CallEnv) (s : Driver) : Int :=
  if env.interrupted then -enomem else slotSum s.dev.buffer maxWriteOperations

def seekSet : Int := 0
def seekCur : Int := 1
def seekEnd : Int := 2

/-- `aesd_llseek` after `get_buffer_size`: the return value and the new `filp->f_pos`. -/
def seekWithin (devSize offSet whence fpos : Int) : Int × Int :=
  let check (newpos : Int) := if newpos < 0 ∨ newpos > devSize then (-einval, fpos) else (newpos, newpos)
  if whence = seekSet then check offSet
  else if whence = seekCur then check (loffT (fpos + offSet))
  else if whence = seekEnd then check (loffT (devSize + offSet))
  else (-einval, fpos)

def aesdLlseek (env : CallEnv) (offSet whence : Int) (s : Driver) (fpos : Int) : Int × Int :=
  seekWithin (getBufferSize env s) offSet whence fpos

structure Seekto where
  writeCmd : UInt32
  writeCmdOffset : UInt32
  deriving DecidableEq

/-- `AESDCHAR_IOCSEEKTO`, which is `_IOWR(0x16, 1, struct aesd_seekto)`. -/
def iocSeekto : Nat := 0xC0081601

def aesdIoctl (env : CallEnv) (cmd : Nat) (seekto : Seekto) (s : Driver) (fpos : Int) : Int × Int :=
  if cmd = iocSeekto then
    if min env.notCopied 8 ≠ 0 then (-efault, fpos)
    else if seekto.writeCmd.toNat ≥ maxWriteOperations then (-einval, fpos)
    else
      let newpos := slotSum s.dev.buffer seekto.writeCmd.toNat
      if seekto.writeCmdOffset.toNat ≥ (s.dev.buffer.slot seekto.writeCmd.toNat).size then (-einval, fpos)
      else (0, loffT (newpos + seekto.writeCmdOffset.toNat))
  else (-enotty, fpos)

end Aesd
