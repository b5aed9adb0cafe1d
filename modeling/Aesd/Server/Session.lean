import Aesd.Server.Store

/-!
# Sessions on the device

What a whole session leaves in the device and sends back, from the receive loop
on: the reply is the rest of the stored records, and a session whose chunks all
pass for data leaves one record or one pending block.
-/

namespace Aesd
open Library

variable {s : Driver} {ring : List Cell} {pending : Option Cell} {lost : List Nat} {c : Client} {p : Nat}
  {e : Client × Driver} {answers : List (Answer CallEnv)} {t : Trail}

/-- Each chunk is opened and passes for data over what the buffer holds by then. -/
def DataPasses {E : Type} : List UInt8 → List (Chunk × Pass E) → Prop
  | _, [] => True
  | buffer, (chunk, env) :: rest => env.openFails = false ∧ isSeek (recvInto buffer chunk.bytes) = false ∧
    DataPasses (recvInto buffer chunk.bytes) rest

def Trail.through (t : Trail) (ps : List (Chunk × Pass CallEnv)) : Trail :=
  ps.foldl (fun t pass => t.write pass.2.call pass.1.bytes) t

theorem Trail.through_written (t : Trail) (ps : List (Chunk × Pass CallEnv)) :
    (t.through ps).written = t.written ++ ps.flatMap (fun pass => pass.1.bytes) ∧
      (t.through ps).held = t.held + (ps.flatMap fun pass => pass.1.bytes).length := by
  induction ps generalizing t with
  | nil => simp [Trail.through]
  | cons pass ps ih =>
    obtain ⟨written, held⟩ := ih (t.write pass.2.call pass.1.bytes)
    simp only [Trail.through, List.foldl_cons] at written held ⊢
    rw [written, held]
    simp [Trail.write, Nat.add_assoc]

theorem started {W E : Type} {file : DataFile W E} {buffer : List UInt8} {w : W} {e : Client × W}
    {answers : List (Answer E)} {guard : Client × W → Answer E → Prop}
    (run : (session file).run ({ buffer }, w) answers = some e) (past : e.1.pc ≠ .start)
    (ok : (session file).Along guard ({ buffer }, w) answers) :
    ∃ rest, answers = .go :: rest ∧
      (session file).run ((({ buffer } : Client).did .locked).goto .receiving, w) rest = some e ∧
      (session file).Along guard ((({ buffer } : Client).did .locked).goto .receiving, w) rest := by
  cases answers with
  | nil =>
    obtain rfl := Option.some.inj run
    exact (past rfl).elim
  | cons answer rest =>
    obtain ⟨next, step, tail⟩ := Machine.run_cons.mp run
    obtain ⟨rfl, rfl⟩ := Client.step_start rfl step
    exact ⟨rest, rfl, tail, ok.2 _ step⟩

/-! ### The reply -/

theorem replying_run (h : Layout s ring pending lost) (here : c.pc = .replying p)
    (inside : p ≤ (ring.map Prod.snd).flatten.length) (run : (session device).run (c, s) answers = some e)
    (ok : (session device).Along Complete (c, s) answers) :
    passes answers = [] ∧ e.2 = s ∧ e.1.commands = c.commands ∧ e.1.written = c.written ∧
      ((∃ q : Nat, q ≤ (ring.map Prod.snd).flatten.length ∧ e.1.pc = .replying q ∧
        e.1.reply ++ (ring.map Prod.snd).flatten.drop q = c.reply ++ (ring.map Prod.snd).flatten.drop p) ∨
      (e.1.pc = .unlocking ∨ e.1.pc = .returned) ∧ e.1.reply = c.reply ++ (ring.map Prod.snd).flatten.drop p) := by
  refine Machine.run_induction (P := fun answers (e : Client × Driver) => passes answers = [] ∧ e.2 = s ∧
    e.1.commands = c.commands ∧ e.1.written = c.written ∧
    ((∃ q : Nat, q ≤ (ring.map Prod.snd).flatten.length ∧ e.1.pc = .replying q ∧
      e.1.reply ++ (ring.map Prod.snd).flatten.drop q = c.reply ++ (ring.map Prod.snd).flatten.drop p) ∨
    (e.1.pc = .unlocking ∨ e.1.pc = .returned) ∧ e.1.reply = c.reply ++ (ring.map Prod.snd).flatten.drop p))
    ⟨rfl, rfl, rfl, rfl, Or.inl ⟨p, inside, here, rfl⟩⟩ ?_ ok run
  intro answers state answer next _ before complete step
  obtain ⟨d, w⟩ := state
  simp only [session] at before step
  obtain ⟨none', rfl, commands, written, stage⟩ := before
  rcases stage with ⟨q, below, here, split⟩ | ⟨here | here, reply⟩
  · obtain ⟨env, unsent, rfl, rfl⟩ | ⟨env, rfl, _, rfl⟩ := Client.step_replying here step
    case inr => exact complete.elim
    obtain ⟨lock, copies, rfl⟩ := complete
    have small : q < 2 ^ 63 := Nat.lt_of_le_of_lt below h.records_lt
    obtain ⟨returned, moved, ⟨rest, piece⟩, within, last⟩ := device_read h lock copies small
    refine ⟨by simp [passes_append, none'], ?_⟩
    by_cases more : (device.read env w q).retval > 0
    · rw [if_pos more]
      refine ⟨rfl, by simp [commands, Effect.commands], by simp [written, Effect.written],
        Or.inl ⟨q + (device.read env w q).data.length, by omega, by rw [Client.goto_pc, moved], ?_⟩⟩
      rw [← List.drop_drop, ← piece, List.drop_left]
      simp only [Client.reply_goto, Client.reply_did, Effect.reply, Nat.sub_zero, List.take_length]
      rw [List.append_assoc, piece, split]
    · rw [if_neg more]
      have done := last (List.eq_nil_of_length_eq_zero (by omega))
      refine ⟨rfl, by simp [commands, Effect.commands], by simp [written, Effect.written],
        Or.inr ⟨Or.inl rfl, ?_⟩⟩
      rw [List.drop_eq_nil_of_le done, List.append_nil] at split
      simpa [Effect.reply] using split
  · obtain ⟨rfl, rfl⟩ := Client.step_unlocking here step
    exact ⟨by simp [passes_append, none'], rfl, by simp [commands, Effect.commands],
      by simp [written, Effect.written], Or.inr ⟨Or.inr rfl, by simp [reply, Effect.reply]⟩⟩
  · exact absurd (Or.inl here) (Client.step_running step)

theorem failing_run (here : c.pc = .failing ∨ c.pc = .cleaning ∨ c.pc = .exited)
    (run : (session device).run (c, s) answers = some e) :
    passes answers = [] ∧ e.2 = s ∧ e.1.commands = c.commands ∧ e.1.written = c.written ∧ e.1.reply = c.reply ∧
      (e.1.pc = .failing ∨ e.1.pc = .cleaning ∨ e.1.pc = .exited) := by
  refine Machine.run_induction (P := fun answers (e : Client × Driver) => passes answers = [] ∧ e.2 = s ∧
    e.1.commands = c.commands ∧ e.1.written = c.written ∧ e.1.reply = c.reply ∧
    (e.1.pc = .failing ∨ e.1.pc = .cleaning ∨ e.1.pc = .exited)) ⟨rfl, rfl, rfl, rfl, rfl, here⟩ ?_
    Machine.along_true run
  intro answers state answer next _ before _ step
  obtain ⟨d, w⟩ := state
  simp only [session] at before step
  obtain ⟨none', rfl, commands, written, reply, stage⟩ := before
  rcases stage with here | here | here
  · obtain ⟨rfl, rfl⟩ := Client.step_failing here step
    exact ⟨by simp [passes_append, none'], rfl, by simp [commands, Effect.commands],
      by simp [written, Effect.written], by simp [reply, Effect.reply], Or.inr (Or.inl rfl)⟩
  · obtain ⟨rfl, rfl⟩ := Client.step_cleaning here step
    exact ⟨by simp [passes_append, none'], rfl, commands, written, reply, Or.inr (Or.inr rfl)⟩
  · exact absurd (Or.inr (Or.inr (Or.inl here))) (Client.step_running step)

/-! ### Data -/

theorem not_endsLine {bytes : List UInt8} (none' : newline ∉ bytes) : ¬ EndsLine bytes :=
  fun ends => none' (List.mem_of_getLast? ends)

/-- A session of data chunks that has replied: it wrote all it received, its last chunk is the one with
the newline, and its bytes lie behind the pending ones of before in one block, committed if that chunk
ends in the newline. -/
theorem data_session (h : Layout s ring pending lost) (tracks : t.Tracks pending) (here : c.pc = .receiving)
    (run : (session device).run (c, s) answers = some e) (ok : (session device).Along Complete (c, s) answers)
    (past : e.1.pc ≠ .receiving ∧ ∀ q, e.1.pc ≠ .replying q) (data : DataPasses c.buffer (passes answers)) :
    ∃ before last a line, passes answers = before ++ [last] ∧ newline ∈ last.1.bytes ∧
      (∀ pass ∈ before, newline ∉ pass.1.bytes) ∧ (t.through (passes answers)).Tracks (some (a, line)) ∧
      (e.1.pc = .unlocking ∨ e.1.pc = .returned) ∧ e.1.commands = c.commands ∧
      e.1.written = c.written ++ receivedBytes answers ∧ e.1.reply = c.reply ++ e.2.records.flatten ∧
      e.2.records = (if EndsLine last.1.bytes then (s.records ++ [line]).rtake maxWriteOperations else s.records) ∧
      e.2.pending = (if EndsLine last.1.bytes then [] else line) ∧
      e.2.dev.entry = if EndsLine last.1.bytes then .unused else Cell.entry (a, line) := by
  induction answers generalizing c s pending t with
  | nil =>
    obtain rfl := Option.some.inj run
    exact (past.1 here).elim
  | cons answer answers ih =>
    obtain ⟨⟨d, w⟩, step, tail⟩ := Machine.run_cons.mp run
    obtain ⟨complete, later⟩ := ok
    have ok := later _ step
    obtain ⟨result, env, rfl, moved⟩ := Client.step_receiving here step
    cases result with
    | eof => exact complete.elim
    | error => exact complete.elim
    | data chunk =>
      obtain ⟨opens, plain, rest⟩ := data
      obtain ⟨buffer, commands, reply, written, world, pc⟩ := pass_data h opens plain complete
      simp only at moved
      rw [← moved] at buffer commands reply written world pc
      obtain ⟨a, reached, after⟩ := device_write h chunk.nonempty (complete.2.2 opens plain)
      rw [← world] at after
      have tracks : (t.write env.call chunk.bytes).Tracks _ := tracks.write reached
      by_cases ends : newline ∈ chunk.bytes
      · rw [if_pos ends] at pc
        obtain ⟨ring', pending', lost', layout, records, left, entry⟩ := h.written after
        obtain ⟨nothing, same, commands', written', stage⟩ :=
          replying_run (p := 0) layout pc (Nat.zero_le _) tail ok
        rcases stage with ⟨q, _, replying, _⟩ | ⟨replied, reply'⟩
        · exact (past.2 q replying).elim
        · have only : passes (.recv (.data chunk) env :: answers) = [(chunk, env)] := by
            rw [passes_data, nothing]
          refine ⟨[], (chunk, env), a, carried env.call pending ++ chunk.bytes, only, ends, by simp, ?_, replied,
            commands'.trans commands, ?_, ?_, ?_, ?_, ?_⟩
          · rw [only]
            exact tracks
          · rw [written', written, receivedBytes, only]
            simp
          · rw [reply', reply, List.drop_zero, same, layout.records_eq]
          · rw [same, layout.records_eq, records]
          · rw [same, left]
          · rw [same, entry]
      · rw [if_neg ends] at pc
        rw [if_neg (not_endsLine ends)] at after
        rw [← buffer] at rest
        obtain ⟨before, last, b, line, split, newline', open', tracks', replied, commands', written', reply',
          records', ended⟩ := ih after tracks (pc.trans here) tail ok rest
        refine ⟨(chunk, env) :: before, last, b, line, by rw [passes_data, split]; rfl, newline', ?_, tracks', replied,
          commands'.trans commands, ?_, by rw [reply', reply], ?_, ended⟩
        · intro pass member
          rcases List.mem_cons.mp member with rfl | member
          · exact ends
          · exact open' pass member
        · rw [written', written, receivedBytes, receivedBytes, passes_data]
          simp
        · rw [records', h.records_eq, after.records_eq]

theorem plain_session (h : Layout s ring pending lost) (here : c.pc = .receiving)
    (run : (session device).run (c, s) answers = some e) (ok : (session device).Along Complete (c, s) answers)
    (plain : e.1.commands = c.commands) :
    DataPasses c.buffer (passes answers) ∨ (e.1.pc ≠ .unlocking ∧ e.1.pc ≠ .returned) ∧
      ∃ more, more ≠ [] ∧ c.written ++ receivedBytes answers = e.1.written ++ more := by
  induction answers generalizing c s pending with
  | nil => exact Or.inl trivial
  | cons answer answers ih =>
    obtain ⟨⟨d, w⟩, step, tail⟩ := Machine.run_cons.mp run
    obtain ⟨complete, later⟩ := ok
    have ok := later _ step
    obtain ⟨result, env, rfl, moved⟩ := Client.step_receiving here step
    cases result with
    | eof => exact complete.elim
    | error => exact complete.elim
    | data chunk =>
      simp only at moved
      cases opens : env.openFails with
      | true =>
        rw [Client.pass_unopened device c s chunk opens] at moved
        obtain ⟨rfl, rfl⟩ := Prod.mk.inj moved
        obtain ⟨nothing, _, _, written, _, stage⟩ := failing_run (Or.inl rfl) tail
        refine Or.inr ⟨?_, chunk.bytes, chunk.nonempty, ?_⟩
        · rcases stage with at' | at' | at' <;> simp [at']
        · rw [receivedBytes, passes_data, nothing, written]
          simp
      | false =>
        cases seek : isSeek (recvInto c.buffer chunk.bytes) with
        | true =>
          obtain ⟨more, grown⟩ := session_log tail
          obtain ⟨_, longer, _⟩ := pass_command (s := s) opens seek complete.1
          rw [← moved] at longer
          have longest : e.1.commands = d.commands ++ more.flatMap Effect.commands := by
            simp [Client.commands, grown]
          rw [plain, longer] at longest
          have := congrArg List.length longest
          simp at this
        | false =>
          obtain ⟨buffer, commands, _, written, world, pc⟩ := pass_data h opens seek complete
          rw [← moved] at buffer commands written world pc
          obtain ⟨a, _, after⟩ := device_write h chunk.nonempty (complete.2.2 opens seek)
          rw [← world] at after
          by_cases ends : newline ∈ chunk.bytes
          · rw [if_pos ends] at pc
            obtain ⟨_, _, _, layout, _⟩ := h.written after
            obtain ⟨nothing, _⟩ := replying_run (p := 0) layout pc (Nat.zero_le _) tail ok
            rw [passes_data, nothing]
            left
            exact ⟨opens, seek, trivial⟩
          · rw [if_neg ends] at pc
            rw [if_neg (not_endsLine ends)] at after
            rcases ih after (pc.trans here) tail ok (plain.trans commands.symm) with data | ⟨failed, more, some', rest⟩
            · rw [buffer] at data
              exact Or.inl ⟨opens, seek, data⟩
            · refine Or.inr ⟨failed, more, some', ?_⟩
              rw [← rest, written, receivedBytes, receivedBytes, passes_data]
              simp

end Aesd
