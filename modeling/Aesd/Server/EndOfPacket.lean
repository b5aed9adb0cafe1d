import Aesd.Server.Session

/-!
# Where a packet ends

The server ends a session at a chunk with a newline anywhere in it; the driver
commits a record where a write ends in one.
-/

namespace Aesd
open Library

variable {s : Driver} {buffer : List UInt8} {e : Client × Driver} {answers : List (Answer CallEnv)}

structure PacketStored (e : Client × Driver) : Prop where
  committed : e.2.dev.entry = .unused
  answered : e.1.written <:+ e.1.reply

/-- A session without a seek command that has replied stored its packet exactly when the chunk that ended
it ends in a newline and the last move of the pending block left the session's bytes readable. -/
theorem packet_stored_iff (reach : Reachable s) (run : (session device).run ({ buffer }, s) answers = some e)
    (ok : (session device).Along Complete ({ buffer }, s) answers) (plain : e.1.commands = [])
    (replied : e.1.pc = .unlocking ∨ e.1.pc = .returned) :
    PacketStored e ↔ (∃ last ∈ (passes answers).getLast?, EndsLine last.1.bytes) ∧
      (s.trail.through (passes answers)).intact = true := by
  obtain ⟨ring, pending, lost, layout⟩ := reach.layout
  obtain ⟨rest, rfl, tail, ok⟩ := started run (by rcases replied with h | h <;> simp [h]) ok
  rw [passes_go]
  have data : DataPasses buffer (passes rest) := by
    rcases plain_session layout rfl tail ok plain with data | ⟨⟨notUnlocking, notReturned⟩, _⟩
    · exact data
    · rcases replied with h | h
      · exact (notUnlocking h).elim
      · exact (notReturned h).elim
  obtain ⟨before, last, a, line, split, _, _, tracks, _, _, written, reply, records, _, entry⟩ :=
    data_session layout layout.trail_tracks rfl tail ok (by rcases replied with h | h <;> simp [h]) data
  have final : (passes rest).getLast? = some last := by rw [split, List.getLast?_concat]
  have wrote : e.1.written = (s.trail.through (passes rest)).written := by
    rw [written, (s.trail.through_written _).1]
    rfl
  have held : (s.trail.through (passes rest)).written.length ≤ line.length := by
    have length := tracks.held
    obtain ⟨all, most⟩ := s.trail.through_written (passes rest)
    rw [most, Option.elim_some] at length
    rw [all]
    simp [Driver.trail] at length ⊢
    omega
  rw [tracks.intact, Option.elim_some, final]
  simp only [Option.mem_some_iff, exists_eq_left']
  by_cases ends : EndsLine last.1.bytes
  · rw [if_pos ends] at records entry
    have newest : line <:+ e.1.reply := by
      rw [reply, records, List.rtake_concat_succ, List.flatten_append, List.flatten_singleton]
      exact (List.suffix_append _ line).trans (List.suffix_append _ _)
    refine ⟨fun stored => ⟨ends, ?_⟩, fun intact => ⟨entry, ?_⟩⟩
    · have answered := stored.answered
      rw [wrote] at answered
      exact List.suffix_of_suffix_length_le answered newest held
    · rw [wrote]
      exact intact.2.trans newest
  · rw [if_neg ends] at entry
    refine iff_of_false (fun stored => ?_) (fun other => ends other.1)
    rw [stored.committed] at entry
    simp [BufferEntry.unused, Cell.entry] at entry

theorem two_chunks_stored :
    let answers : List (Answer CallEnv) := [.go,
      .recv (.data ⟨[97, 98], by decide, by decide⟩) { call := { kmallocAt := some 1 }, seek := {} },
      .recv (.data ⟨[99, newline], by decide, by decide⟩)
        { call := { kmallocAt := some 2, kreallocAt := some 1 }, seek := {} },
      .read {} 0, .read {} 0, .go]
    PacketStored (((session device).run ({ buffer := [] }, Driver.init) answers).getD ({ buffer := [] }, Driver.init)) := by
  intro answers
  have run := Machine.run_getD (m := session device) (s := ({ buffer := [] }, Driver.init)) (l := answers)
    (by decide +kernel) ({ buffer := [] }, Driver.init)
  have ok : (session device).Along Complete ({ buffer := [] }, Driver.init) answers := by decide +kernel
  refine (packet_stored_iff ⟨[], trivial, rfl⟩ run ok (by decide +kernel) (by decide +kernel)).mpr ⟨⟨_, rfl, ?_⟩, ?_⟩
  · decide
  · decide +kernel

/-- A newline inside the only chunk: the session ends, and the driver keeps the bytes pending. -/
theorem inner_newline_not_stored :
    ¬ ∀ (s : Driver) (buffer : List UInt8) (answers : List (Answer CallEnv)) (e : Client × Driver), Reachable s →
      (session device).run ({ buffer }, s) answers = some e →
      (session device).Along Complete ({ buffer }, s) answers → e.1.commands = [] →
      e.1.pc = .unlocking ∨ e.1.pc = .returned → PacketStored e := by
  intro stored
  let answers : List (Answer CallEnv) := [.go,
    .recv (.data ⟨[97, newline, 98], by decide, by decide⟩) { call := { kmallocAt := some 1 }, seek := {} },
    .read {} 0, .go]
  have committed := (stored Driver.init [] answers _ ⟨[], trivial, rfl⟩
    (Machine.run_getD (by decide +kernel) ({ buffer := [] }, Driver.init)) (by decide +kernel) (by decide +kernel)
    (by decide +kernel)).committed
  revert committed
  decide +kernel

end Aesd
