import Aesd.Driver.Seek
import Aesd.Server.HandleClient

/-!
# The server's calls on the device

What `write`, `lseek`, `read` and the ioctl do to a device in a known layout, and
how the pending block fares through the writes of one session.
-/

namespace Aesd
open Library

variable {s : Driver} {ring : List Cell} {pending : Option Cell} {lost : List Nat} {env : CallEnv}
  {bytes : List UInt8} {p : Nat}

theorem device_write (h : Layout s ring pending lost) (some' : bytes ≠ [])
    (full : (device.write env bytes s 0).1 = bytes.length) :
    ∃ a, target env pending = some a ∧
      if EndsLine bytes then
        Layout (device.write env bytes s 0).2.1 ((ring ++ [(a, carried env pending ++ bytes)]).rtake maxWriteOperations)
          none (lost ++ ((ring ++ [(a, carried env pending ++ bytes)]).rdrop maxWriteOperations).map Prod.fst)
      else Layout (device.write env bytes s 0).2.1 ring (some (a, carried env pending ++ bytes)) lost := by
  have returned : (aesdWrite env bytes s 0).retval = bytes.length := by
    simp only [device, sysret] at full
    split at full <;> omega
  have succeeds : Succeeds s ⟨env, bytes, 0⟩ := ⟨some', returned⟩
  have ok := (succeeds_iff h succeeds.1).mp succeeds
  obtain ⟨a, reached, _, _, _, after⟩ := aesdWrite_granted 0 h some' ok
  refine ⟨a, reached, ?_⟩
  by_cases ends : EndsLine bytes
  · rw [if_pos ends] at after ⊢
    exact after.2
  · rw [if_neg ends] at after ⊢
    exact after.2

/-- What the records and the pending bytes are after the write, whether or not it ended a record. -/
theorem Layout.written {w : Driver} {a : Nat} {line : List UInt8} {lost' : List Nat} (h : Layout s ring pending lost)
    (after : if EndsLine bytes then Layout w ((ring ++ [(a, line)]).rtake maxWriteOperations) none lost'
      else Layout w ring (some (a, line)) lost) :
    ∃ ring' pending' lost', Layout w ring' pending' lost' ∧
      ring'.map Prod.snd = (if EndsLine bytes then (s.records ++ [line]).rtake maxWriteOperations else s.records) ∧
      w.pending = (if EndsLine bytes then [] else line) ∧
      w.dev.entry = if EndsLine bytes then .unused else Cell.entry (a, line) := by
  rw [h.records_eq]
  split at after
  · rename_i whole
    rw [if_pos whole, if_pos whole, if_pos whole]
    exact ⟨_, _, _, after, by simp [List.rtake, List.map_drop], after.pending_eq, after.entry⟩
  · rename_i part
    rw [if_neg part, if_neg part, if_neg part]
    exact ⟨_, _, _, after, rfl, after.pending_eq, after.entry⟩

theorem device_lseek (h : Layout s ring pending lost) (lock : env.interrupted = false) (fpos : Int) :
    device.lseek env s fpos = (0, 0) := by
  simp [device, h.rewind lock, sysret]

/-- A rewind comes to the first byte or fails. -/
theorem device_rewinds (h : Layout s ring pending lost) (env : CallEnv) (fpos : Int) :
    device.lseek env s fpos = (0, 0) ∨ (device.lseek env s fpos).1 = -1 := by
  cases lock : env.interrupted with
  | false => exact Or.inl (device_lseek h lock fpos)
  | true =>
    refine Or.inr ?_
    simp [device, aesdLlseek, getBufferSize, lock, seekWithin, enomem, einval, sysret]

theorem device_read (h : Layout s ring pending lost) (lock : env.interrupted = false) (copies : env.notCopied = 0)
    (small : p < 2 ^ 63) :
    let source := (ring.map Prod.snd).flatten
    let res := device.read env s p
    res.retval = res.data.length ∧ res.fpos = (p + res.data.length : Nat) ∧ res.data <+: source.drop p ∧
      p + res.data.length ≤ max p source.length ∧ (res.data = [] → source.length ≤ p) := by
  intro source res
  obtain ⟨returned, moved, piece, below, _, last⟩ := h.read 1024 lock copies small
  refine ⟨?_, moved, piece, below, last (by decide)⟩
  simp only [res, device, sysret, returned]
  rw [if_neg (by omega)]

/-- Where the seek command in the buffer leads: to a position, or to the end of the process. -/
def seekPos (s : Driver) (buffer : List UInt8) : Option Int :=
  (scanSeekto (buffer.drop 19)).bind fun seekto =>
    if (aesdIoctl {} iocSeekto seekto s 0).1 = 0 then some (aesdIoctl {} iocSeekto seekto s 0).2 else none

theorem device_ioctl (copied : env.notCopied = 0) (seekto : Seekto) :
    ((device.ioctl env seekto s 0).1 = -1 ↔ (aesdIoctl {} iocSeekto seekto s 0).1 ≠ 0) ∧
      (device.ioctl env seekto s 0).2 = (aesdIoctl {} iocSeekto seekto s 0).2 := by
  have same : aesdIoctl env iocSeekto seekto s 0 = aesdIoctl {} iocSeekto seekto s 0 := by
    unfold aesdIoctl
    simp only [copied]
  have sign : (aesdIoctl {} iocSeekto seekto s 0).1 = 0 ∨ (aesdIoctl {} iocSeekto seekto s 0).1 = -einval := by
    unfold aesdIoctl
    simp only [if_true, Nat.zero_min, ne_eq, not_true_eq_false, if_false]
    split
    · exact Or.inr rfl
    · split
      · exact Or.inr rfl
      · exact Or.inl rfl
  simp only [device, same]
  rcases sign with zero | negative
  · simp [zero, sysret]
  · simp [negative, sysret, einval]

theorem device_ioctl_uncopied (uncopied : env.notCopied ≠ 0) (seekto : Seekto) :
    (device.ioctl env seekto s 0).1 = -1 := by
  have refused : min env.notCopied 8 ≠ 0 := by omega
  simp only [device, aesdIoctl, if_true, if_pos refused]
  rfl

theorem Layout.seekPos_lt (h : Layout s ring pending lost) {buffer : List UInt8} {pos : Int}
    (found : seekPos s buffer = some pos) : ∃ p : Nat, pos = p ∧ p < (ring.map Prod.snd).flatten.length := by
  obtain ⟨seekto, _, found⟩ := Option.bind_eq_some_iff.mp found
  rw [h.ioctl rfl] at found
  by_cases named : seekto.writeCmd.toNat < maxWriteOperations ∧
      seekto.writeCmdOffset.toNat < (s.dev.buffer.slot seekto.writeCmd.toNat).size
  · rw [if_pos named, if_pos rfl] at found
    refine ⟨_, (Option.some.inj found).symm, ?_⟩
    have part := (h.slotSum_eq (n := seekto.writeCmd.toNat + 1) named.1).2
    rw [Finset.sum_range_succ] at part
    omega
  · rw [if_neg named] at found
    simp [einval] at found

/-! ### The bytes of one session in the pending block -/

/-- The pending block across the writes of a session: where it is, how much it holds, what the session
wrote, and whether the writes came through the last move. -/
structure Trail where
  address : Option Nat
  held : Nat
  written : List UInt8 := []
  intact : Bool := true

namespace Trail

def start (pending : Option Cell) : Trail :=
  { address := pending.map Prod.fst, held := (pending.elim [] Prod.snd).length }

/-- A first block keeps what was written, so does one that grows in place; a moved one has in the place
of the earlier bytes what the freed block reads as. -/
def write (t : Trail) (env : CallEnv) (bytes : List UInt8) : Trail where
  address := match t.address with
    | none => env.kmallocAt
    | some _ => env.kreallocAt
  held := t.held + bytes.length
  written := t.written ++ bytes
  intact := match t.address with
    | none => t.intact
    | some a => if env.kreallocAt = some a then t.intact else decide (t.written <:+ garbage env.junk t.held)

structure Tracks (t : Trail) (pending : Option Cell) : Prop where
  address : t.address = pending.map Prod.fst
  held : t.held = (pending.elim [] Prod.snd).length
  intact : t.intact = true ↔ t.written <:+ pending.elim [] Prod.snd

theorem start_tracks (pending : Option Cell) : (start pending).Tracks pending :=
  ⟨rfl, rfl, by simp [start]⟩

theorem suffix_append_iff {xs ys zs : List UInt8} : xs ++ zs <:+ ys ++ zs ↔ xs <:+ ys := by
  constructor
  · intro suffix
    obtain ⟨front, same⟩ := suffix
    exact ⟨front, List.append_cancel_right (by rw [← same, List.append_assoc])⟩
  · intro suffix
    obtain ⟨front, rfl⟩ := suffix
    exact ⟨front, by simp⟩

theorem Tracks.write {t : Trail} (h : t.Tracks pending) {a : Nat} (reached : target env pending = some a) :
    (t.write env bytes).Tracks (some (a, carried env pending ++ bytes)) := by
  have length := carried_length env pending
  refine ⟨?_, by simp [Trail.write, h.held, length], ?_⟩
  · simp only [Trail.write, h.address]
    cases pending <;> exact reached
  · simp only [Trail.write, h.address, Option.elim_some, suffix_append_iff]
    rcases pending with _ | ⟨b, kept⟩
    · exact h.intact
    · simp only [Option.map_some, carried]
      by_cases same : env.kreallocAt = some b
      · rw [if_pos same, if_pos same]
        exact h.intact
      · rw [if_neg same, if_neg same, decide_eq_true_iff, h.held]
        rfl

end Trail

def Driver.trail (s : Driver) : Trail where
  address := match s.dev.entry.buffptr with
    | .block a => some a
    | _ => none
  held := s.dev.entry.size

theorem Layout.trail_tracks (h : Layout s ring pending lost) : s.trail.Tracks pending := by
  have same : s.trail = Trail.start pending := by
    rw [Driver.trail, h.entry]
    cases pending <;> rfl
  rw [same]
  exact Trail.start_tracks pending

/-! ### Sessions on the device -/

/-- The kernel and the client let the session's calls complete: `recv` delivers, `write` and `send` take
everything, `send` has a peer, and no call finds the device locked or the user's memory missing. -/
def Complete (s : Client × Driver) (answer : Answer CallEnv) : Prop :=
  match answer with
  | .go => True
  | .recv (.data chunk) env => env.call.notCopied = 0 ∧ env.seek.interrupted = false ∧
    (env.openFails = false → isSeek (recvInto s.1.buffer chunk.bytes) = false →
      (device.write env.call chunk.bytes s.2 0).1 = chunk.bytes.length)
  | .recv _ _ | .sigpipe _ => False
  | .read env unsent => env.interrupted = false ∧ env.notCopied = 0 ∧ unsent = 0

instance (s : Client × Driver) (answer : Answer CallEnv) : Decidable (Complete s answer) :=
  match answer with
  | .recv (.data _) _ => inferInstanceAs (Decidable (_ ∧ _ ∧ (_ → _ → _)))
  | .read _ _ => inferInstanceAs (Decidable (_ ∧ _ ∧ _))
  | .go => isTrue trivial
  | .recv .eof _ | .recv .error _ | .sigpipe _ => isFalse id

variable {c c' : Client} {s' : Driver} {chunk : Chunk} {answer : Answer CallEnv} {answers : List (Answer CallEnv)}

theorem pass_data (h : Layout s ring pending lost) {env : Pass CallEnv} (opens : env.openFails = false)
    (plain : isSeek (recvInto c.buffer chunk.bytes) = false)
    (ok : Complete (c, s) (.recv (.data chunk) env)) :
    let next := c.pass device s chunk env
    next.1.buffer = recvInto c.buffer chunk.bytes ∧ next.1.commands = c.commands ∧ next.1.reply = c.reply ∧
      next.1.written = c.written ++ chunk.bytes ∧ next.2 = (device.write env.call chunk.bytes s 0).2.1 ∧
      next.1.pc = if newline ∈ chunk.bytes then .replying 0 else c.pc := by
  intro next
  obtain ⟨_, lock, full⟩ := ok
  have full := full opens plain
  obtain ⟨a, _, after⟩ := device_write h chunk.nonempty full
  obtain ⟨_, _, _, layout, _⟩ := h.written after
  have seeks (fpos : Int) : device.lseek env.seek (device.write env.call chunk.bytes s 0).2.1 fpos = (0, 0) :=
    device_lseek layout lock fpos
  have unfolded : next = if newline ∈ chunk.bytes then
      ((((c.receive chunk.bytes).did .opened).did (.wrote chunk.bytes chunk.bytes)).goto (.replying 0),
        (device.write env.call chunk.bytes s 0).2.1)
      else (((c.receive chunk.bytes).did .opened).did (.wrote chunk.bytes chunk.bytes),
        (device.write env.call chunk.bytes s 0).2.1) := by
    simp only [next, Client.pass, opens, Bool.false_eq_true, if_false, Client.did_buffer, Client.receive_buffer,
      plain, show device.creat s = s from rfl, full, seeks, Int.toNat_natCast, List.take_length,
      show ¬ ((0 : Int) = -1) by decide]
  rw [unfolded]
  split <;> simp [Effect.written, Effect.reply, Effect.commands]

theorem pass_command {env : Pass CallEnv} (opens : env.openFails = false)
    (seek : isSeek (recvInto c.buffer chunk.bytes) = true) (copied : env.call.notCopied = 0) :
    let next := c.pass device s chunk env
    next.1.buffer = recvInto c.buffer chunk.bytes ∧
      next.1.commands = c.commands ++ [scanSeekto ((recvInto c.buffer chunk.bytes).drop 19)] ∧
      next.1.reply = c.reply ∧ next.1.written = c.written ∧ next.2 = s ∧
      next.1.pc = match seekPos s (recvInto c.buffer chunk.bytes) with
        | none => .failing
        | some pos => if newline ∈ chunk.bytes then .replying pos else c.pc := by
  intro next
  have world : device.creat s = s := rfl
  cases parsed : scanSeekto ((recvInto c.buffer chunk.bytes).drop 19) with
  | none =>
    have unfolded : next = ((((c.receive chunk.bytes).did .opened).did (.command none)).goto .failing, s) := by
      simp only [next, Client.pass, opens, Bool.false_eq_true, if_false, Client.did_buffer,
        Client.receive_buffer, seek, if_true, parsed, world]
    rw [unfolded, seekPos, parsed]
    simp [Effect.commands, Effect.reply, Effect.written]
  | some seekto =>
    have unfolded : next =
        let read := ((c.receive chunk.bytes).did .opened).did (.command (some seekto))
        if (device.ioctl env.call seekto s 0).1 = -1 then (read.goto .failing, s)
        else if newline ∈ chunk.bytes then (read.goto (.replying (device.ioctl env.call seekto s 0).2), s)
        else (read, s) := by
      simp only [next, Client.pass, opens, Bool.false_eq_true, if_false, Client.did_buffer,
        Client.receive_buffer, seek, if_true, parsed, world]
    rw [unfolded, seekPos, parsed]
    obtain ⟨sign, pos⟩ := device_ioctl (s := s) copied seekto
    by_cases refused : (aesdIoctl {} iocSeekto seekto s 0).1 = 0
    · have accepted : ¬ (device.ioctl env.call seekto s 0).1 = -1 := fun failed => sign.mp failed refused
      simp only [accepted, if_false, pos, Option.bind_some, refused, if_true]
      split <;> simp [Effect.commands, Effect.reply, Effect.written]
    · simp only [sign.mpr refused, if_true, Option.bind_some, refused, if_false]
      simp [Effect.commands, Effect.reply, Effect.written]

end Aesd
