import Aesd.Server.Session

/-!
# How a line is cut into chunks

Two sessions that receive one line. Whether a chunk is a seek command is decided
chunk by chunk, over what the buffer holds behind it, so the cuts decide what
becomes of the line.
-/

namespace Aesd
open Library

variable {s : Driver} {ring : List Cell} {lost : List Nat} {buffer line : List UInt8} {c : Client}
  {e e₁ e₂ : Client × Driver} {answers answers₁ answers₂ : List (Answer CallEnv)}

structure StoredLine (s : Driver) (line : List UInt8) (e : Client × Driver) : Prop where
  data : e.1.commands = []
  wrote : e.1.written = line
  stored : e.2.records = (s.records ++ [line]).rtake maxWriteOperations
  committed : e.2.pending = []

structure OneCommand (s : Driver) (e : Client × Driver) : Prop where
  single : e.1.commands.length = 1
  wrote : e.1.written = []
  kept : e.2.records = s.records
  committed : e.2.pending = []

/-- Two sessions did the same with the line. -/
structure SameLine (s : Driver) (line : List UInt8) (e₁ e₂ : Client × Driver) : Prop where
  records : e₁.2.records = e₂.2.records
  pending : e₁.2.pending = e₂.2.pending
  reply : e₁.1.reply = e₂.1.reply
  kind : (StoredLine s line e₁ ∧ StoredLine s line e₂) ∨ (OneCommand s e₁ ∧ OneCommand s e₂)

/-- The session ends with the seek command in its first chunk: with a reply from a position, or with
none because the command is refused or the next `open` fails. -/
def commandOnly (s : Driver) (buffer : List UInt8) : List (Chunk × Pass CallEnv) → Option (Option Int)
  | [] => none
  | (chunk, env) :: rest =>
    if env.openFails ∨ isSeek (recvInto buffer chunk.bytes) = false then none
    else match seekPos s (recvInto buffer chunk.bytes) with
      | none => some none
      | some pos =>
        if newline ∈ chunk.bytes then some (some pos)
        else if ∃ next ∈ rest.head?, next.2.openFails then some none
        else none

def replyFrom (s : Driver) : Option Int → List UInt8
  | none => []
  | some pos => s.records.flatten.drop pos.toNat

theorem written_of_data {env : Pass CallEnv} {chunk : Chunk} {pending : Option Cell} (h : Layout s ring pending lost)
    (opens : env.openFails = false) (plain : isSeek (recvInto c.buffer chunk.bytes) = false)
    (ok : Complete (c, s) (.recv (.data chunk) env))
    (run : (session device).run (c.pass device s chunk env) answers = some e) : e.1.written ≠ [] := by
  obtain ⟨_, _, _, written, _⟩ := pass_data h opens plain ok
  obtain ⟨more, grown⟩ := session_log run
  have longer : e.1.written = (c.pass device s chunk env).1.written ++ more.flatMap Effect.written := by
    simp [Client.written, grown]
  rw [longer, written]
  simp [chunk.nonempty]

theorem failed_open {env : Pass CallEnv} {chunk : Chunk} (opens : env.openFails = true)
    (run : (session device).run (c.pass device s chunk env) answers = some e) :
    e.2 = s ∧ e.1.commands = c.commands ∧ e.1.written = c.written ∧ e.1.reply = c.reply := by
  rw [Client.pass_unopened device c s chunk opens] at run
  obtain ⟨_, same, commands, written, reply, _⟩ := failing_run (Or.inl rfl) run
  exact ⟨same, by simp [commands], by simp [written], by simp [reply]⟩

theorem commands_grow {d : Client} {w : Driver} (run : (session device).run (d, w) answers = some e) :
    d.commands.length ≤ e.1.commands.length := by
  obtain ⟨more, grown⟩ := session_log run
  simp [Client.commands, grown]

theorem second_chunk {d : Client} (h : Layout s ring none lost) (here : d.pc = .receiving)
    (one : d.commands.length = 1) (quiet : d.written = [] ∧ d.reply = [])
    (run : (session device).run (d, s) answers = some e) (ok : (session device).Along Complete (d, s) answers)
    (done : e.1.Done) :
    (OneCommand s e ↔ ∃ next ∈ (passes answers).head?, next.2.openFails) ∧
      ((∃ next ∈ (passes answers).head?, next.2.openFails) → e.1.reply = []) := by
  cases answers with
  | nil =>
    obtain rfl := Option.some.inj run
    rcases done with at' | at' | at' | at' <;> rw [here] at at' <;> cases at'
  | cons answer answers =>
    obtain ⟨next, step, tail⟩ := Machine.run_cons.mp run
    obtain ⟨result, env, rfl, rfl⟩ := Client.step_receiving here step
    cases result with
    | eof => exact ok.1.elim
    | error => exact ok.1.elim
    | data chunk =>
      simp only [passes_data, List.head?_cons, Option.mem_some_iff, exists_eq_left']
      cases opens : env.openFails with
      | true =>
        obtain ⟨same, commands, written, reply⟩ := failed_open opens tail
        refine ⟨iff_of_true ⟨by rw [commands, one], by rw [written, quiet.1], by rw [same], ?_⟩ rfl, fun _ => ?_⟩
        · rw [same, h.pending_eq]
          rfl
        · rw [reply, quiet.2]
      | false =>
        refine ⟨iff_of_false (fun single => ?_) (by decide), fun failed => by cases failed⟩
        cases seek : isSeek (recvInto d.buffer chunk.bytes) with
        | false => exact written_of_data h opens seek ok.1 tail single.wrote
        | true =>
          obtain ⟨_, two, _⟩ := pass_command (s := s) opens seek ok.1.1
          have more := commands_grow (d := (d.pass device s chunk env).1) (w := (d.pass device s chunk env).2) tail
          rw [two, List.length_append, single.single, one] at more
          simp at more

theorem command_session (h : Layout s ring none lost)
    (run : (session device).run ((({ buffer } : Client).did .locked).goto .receiving, s) answers = some e)
    (ok : (session device).Along Complete ((({ buffer } : Client).did .locked).goto .receiving, s) answers)
    (done : e.1.Done) :
    (OneCommand s e ↔ (commandOnly s buffer (passes answers)).isSome) ∧
      ∀ r, commandOnly s buffer (passes answers) = some r → e.1.reply = replyFrom s r := by
  cases answers with
  | nil =>
    obtain rfl := Option.some.inj run
    rcases done with at' | at' | at' | at' <;> cases at'
  | cons answer answers =>
    obtain ⟨next, step, tail⟩ := Machine.run_cons.mp run
    obtain ⟨complete, later⟩ := ok
    have ok := later _ step
    obtain ⟨result, env, rfl, rfl⟩ := Client.step_receiving rfl step
    cases result with
    | eof => exact complete.elim
    | error => exact complete.elim
    | data chunk =>
      set c := (({ buffer } : Client).did .locked).goto .receiving
      have fresh : c.commands = [] ∧ c.written = [] ∧ c.reply = [] := ⟨rfl, rfl, rfl⟩
      simp only [passes_data, commandOnly]
      cases opens : env.openFails with
      | true =>
        obtain ⟨_, commands, _⟩ := failed_open opens tail
        have none' : ¬ OneCommand s e := fun one => by
          have := one.single
          rw [commands, fresh.1] at this
          cases this
        simp [none']
      | false =>
        cases seek : isSeek (recvInto buffer chunk.bytes) with
        | false =>
          have none' : ¬ OneCommand s e := fun one => written_of_data h opens seek complete tail one.wrote
          simp [none']
        | true =>
          obtain ⟨_, commands, reply, written, world, pc⟩ := pass_command (s := s) (c := c) opens seek complete.1
          rw [fresh.1] at commands
          rw [fresh.2.1] at written
          rw [fresh.2.2] at reply
          have empty : s.pending = [] := h.pending_eq
          dsimp only at tail ok
          generalize c.pass device s chunk env = next at *
          obtain ⟨d, w⟩ := next
          simp only at commands reply written world pc tail ok
          subst w
          have one : d.commands.length = 1 := by rw [commands]; rfl
          simp only [Bool.false_eq_true, Bool.true_eq_false, or_self, if_false]
          change d.pc = match seekPos s (recvInto buffer chunk.bytes) with
            | none => .failing
            | some pos => if newline ∈ chunk.bytes then .replying pos else .receiving at pc
          cases found : seekPos s (recvInto buffer chunk.bytes) with
          | none =>
            rw [found] at pc
            obtain ⟨_, same, commands', written', reply', _⟩ := failing_run (Or.inl pc) tail
            refine ⟨iff_of_true ⟨by rw [commands', one], by rw [written', written], by rw [same], by rw [same, empty]⟩
              rfl, ?_⟩
            rintro r ⟨⟩
            rw [reply', reply]
            rfl
          | some pos =>
            rw [found] at pc
            by_cases ends : newline ∈ chunk.bytes
            · obtain ⟨p, rfl, inside⟩ := h.seekPos_lt found
              simp only [if_pos ends] at pc ⊢
              obtain ⟨_, same, commands', written', stage⟩ := replying_run h pc (Nat.le_of_lt inside) tail ok
              refine ⟨iff_of_true ⟨by rw [commands', one], by rw [written', written], by rw [same],
                by rw [same, empty]⟩ rfl, ?_⟩
              rintro r ⟨⟩
              rcases stage with ⟨q, _, at', _⟩ | ⟨_, reply'⟩
              · rcases done with other | other | other | other <;> rw [at'] at other <;> cases other
              · rw [reply', reply, replyFrom, h.records_eq]
                rfl
            · simp only [if_neg ends] at pc ⊢
              obtain ⟨single, silent⟩ := second_chunk h pc one ⟨written, reply⟩ tail ok done
              rw [single]
              by_cases failed : ∃ next ∈ (passes answers).head?, next.2.openFails
              · rw [if_pos failed]
                refine ⟨iff_of_true failed rfl, ?_⟩
                rintro r ⟨⟩
                exact silent failed
              · rw [if_neg failed]
                exact ⟨iff_of_false failed (by simp), by simp⟩

/-! ### The line as data -/

/-- Some text whose only newline is its last byte. -/
def IsLine (line : List UInt8) : Prop := ∃ body, line = body ++ [newline] ∧ newline ∉ body

theorem IsLine.whole (h : IsLine line) {received : List UInt8} (within : received <+: line)
    (ends : newline ∈ received) : received = line := by
  obtain ⟨body, rfl, inner⟩ := h
  rcases List.prefix_concat_iff.mp within with same | short
  · exact same
  · exact (inner (short.subset ends)).elim

theorem IsLine.endsLine (h : IsLine line) : EndsLine line := by
  obtain ⟨body, rfl, _⟩ := h
  simp [EndsLine]

/-- The chunks pass for data, and the line came through the last move of the pending block. -/
def Kept (s : Driver) (buffer : List UInt8) (answers : List (Answer CallEnv)) : Prop :=
  DataPasses buffer (passes answers) ∧ (s.trail.through (passes answers)).intact = true

theorem stored_session (h : Layout s ring none lost) (isLine : IsLine line)
    (run : (session device).run ((({ buffer } : Client).did .locked).goto .receiving, s) answers = some e)
    (ok : (session device).Along Complete ((({ buffer } : Client).did .locked).goto .receiving, s) answers)
    (done : e.1.Done) (within : receivedBytes answers <+: line) :
    (StoredLine s line e ↔ Kept s buffer answers) ∧ (Kept s buffer answers → e.1.reply = e.2.records.flatten) := by
  have past : e.1.pc ≠ .receiving ∧ ∀ q, e.1.pc ≠ .replying q := by
    rcases done with at' | at' | at' | at' <;> simp [at']
  by_cases data : DataPasses buffer (passes answers)
  · obtain ⟨before, last, a, block, split, ends, _, tracks, _, commands, written, reply, records, pending, _⟩ :=
      data_session h h.trail_tracks rfl run ok past data
    have received : receivedBytes answers = before.flatMap (fun pass => pass.1.bytes) ++ last.1.bytes := by
      simp [receivedBytes, split]
    have whole : receivedBytes answers = line :=
      isLine.whole within (by rw [received]; exact List.mem_append_right _ ends)
    have lastEnds : EndsLine last.1.bytes := by
      have ends : EndsLine (before.flatMap (fun pass => pass.1.bytes) ++ last.1.bytes) := by
        rw [← received, whole]
        exact isLine.endsLine
      exact (endsLine_append last.1.nonempty).mp ends
    rw [if_pos lastEnds] at records pending
    have wrote : e.1.written = line := written.trans whole
    have kept : (s.trail.through (passes answers)).intact = true ↔ block = line := by
      obtain ⟨all, most⟩ := s.trail.through_written (passes answers)
      have trail : (s.trail.through (passes answers)).written = line := all.trans whole
      have length : block.length = line.length := by
        have held := tracks.held
        have start := h.trail_tracks.held
        rw [most, start, show (passes answers).flatMap (fun pass => pass.1.bytes) = line from whole] at held
        simpa using held.symm
      rw [tracks.intact, trail, Option.elim_some]
      exact ⟨fun suffix => (suffix.eq_of_length length.symm).symm, fun same => same ▸ List.suffix_refl _⟩
    refine ⟨⟨fun stored => ⟨data, kept.mpr ?_⟩, fun both => ?_⟩, fun _ => reply⟩
    · have same := records.symm.trans stored.stored
      rw [List.rtake_concat_succ, List.rtake_concat_succ] at same
      simpa using List.append_cancel_left same
    · obtain rfl := kept.mp both.2
      exact ⟨commands, wrote, records, pending⟩
  · refine ⟨iff_of_false (fun stored => ?_) (fun both => data both.1), fun both => (data both.1).elim⟩
    rcases plain_session h rfl run ok stored.data with other | ⟨_, more, some', rest⟩
    · exact data other
    · have short := within.length_le
      have longer := congrArg List.length rest
      have pos := List.length_pos_iff.mpr some'
      rw [stored.wrote] at longer
      simp only [List.length_append] at longer
      have nothing : ((({ buffer } : Client).did .locked).goto .receiving).written.length = 0 := rfl
      omega

/-! ### Two sessions -/

theorem commandOnly_lt {pending : Option Cell} (h : Layout s ring pending lost) {ps : List (Chunk × Pass CallEnv)}
    {pos : Int} (found : commandOnly s buffer ps = some (some pos)) :
    ∃ p : Nat, pos = p ∧ p < s.records.flatten.length := by
  rcases ps with _ | ⟨⟨chunk, env⟩, rest⟩
  · cases found
  · simp only [commandOnly] at found
    split at found
    · cases found
    · split at found
      · cases found
      · rename_i here
        split at found
        · obtain rfl := Option.some.inj (Option.some.inj found)
          rw [h.records_eq]
          exact h.seekPos_lt here
        · split at found <;> cases found

theorem replyFrom_inj {r₁ r₂ : Option Int} (inside₁ : ∀ pos ∈ r₁, ∃ p : Nat, pos = p ∧ p < s.records.flatten.length)
    (inside₂ : ∀ pos ∈ r₂, ∃ p : Nat, pos = p ∧ p < s.records.flatten.length)
    (same : replyFrom s r₁ = replyFrom s r₂) : r₁ = r₂ := by
  have lengths := congrArg List.length same
  rcases r₁ with _ | pos₁ <;> rcases r₂ with _ | pos₂
  · rfl
  · obtain ⟨p, rfl, inside⟩ := inside₂ _ rfl
    simp only [replyFrom, List.length_nil, List.length_drop, Int.toNat_natCast] at lengths
    omega
  · obtain ⟨p, rfl, inside⟩ := inside₁ _ rfl
    simp only [replyFrom, List.length_nil, List.length_drop, Int.toNat_natCast] at lengths
    omega
  · obtain ⟨p, rfl, inside⟩ := inside₁ _ rfl
    obtain ⟨q, rfl, inside'⟩ := inside₂ _ rfl
    simp only [replyFrom, List.length_drop, Int.toNat_natCast] at lengths
    rw [show p = q by omega]

structure Finished (s : Driver) (buffer line : List UInt8) (answers : List (Answer CallEnv)) (e : Client × Driver) :
    Prop where
  run : (session device).run ({ buffer }, s) answers = some e
  complete : (session device).Along Complete ({ buffer }, s) answers
  done : e.1.Done
  within : receivedBytes answers <+: line

/-- Two sessions on a device without pending bytes do the same with a line exactly when both keep it as
data, or both end with the seek command in their first chunk and in the same way. -/
theorem same_line_iff {buffer₁ buffer₂ : List UInt8} (reach : Reachable s) (empty : s.pending = [])
    (isLine : IsLine line) (first : Finished s buffer₁ line answers₁ e₁)
    (second : Finished s buffer₂ line answers₂ e₂) :
    SameLine s line e₁ e₂ ↔ (Kept s buffer₁ answers₁ ∧ Kept s buffer₂ answers₂) ∨
      ∃ r, commandOnly s buffer₁ (passes answers₁) = some r ∧ commandOnly s buffer₂ (passes answers₂) = some r := by
  obtain ⟨ring, pending, lost, h⟩ := reach.layout
  obtain rfl : pending = none := by
    cases pending with
    | none => rfl
    | some cell => exact (h.filled cell rfl (h.pending_eq.symm.trans empty)).elim
  have past (e : Client × Driver) (done : e.1.Done) : e.1.pc ≠ .start := by
    rcases done with at' | at' | at' | at' <;> simp [at']
  obtain ⟨rest₁, rfl, run₁, ok₁⟩ := started first.run (past _ first.done) first.complete
  obtain ⟨rest₂, rfl, run₂, ok₂⟩ := started second.run (past _ second.done) second.complete
  obtain ⟨stored₁, sent₁⟩ := stored_session h isLine run₁ ok₁ first.done first.within
  obtain ⟨stored₂, sent₂⟩ := stored_session h isLine run₂ ok₂ second.done second.within
  obtain ⟨one₁, reply₁⟩ := command_session h run₁ ok₁ first.done
  obtain ⟨one₂, reply₂⟩ := command_session h run₂ ok₂ second.done
  simp only [passes_go]
  constructor
  · intro same
    rcases same.kind with ⟨kept₁, kept₂⟩ | ⟨single₁, single₂⟩
    · exact Or.inl ⟨stored₁.mp kept₁, stored₂.mp kept₂⟩
    · obtain ⟨r₁, found₁⟩ := Option.isSome_iff_exists.mp (one₁.mp single₁)
      obtain ⟨r₂, found₂⟩ := Option.isSome_iff_exists.mp (one₂.mp single₂)
      have replies : replyFrom s r₁ = replyFrom s r₂ := by rw [← reply₁ _ found₁, ← reply₂ _ found₂, same.reply]
      obtain rfl := replyFrom_inj (fun pos here => commandOnly_lt h (here ▸ found₁))
        (fun pos here => commandOnly_lt h (here ▸ found₂)) replies
      exact Or.inr ⟨r₁, found₁, found₂⟩
  · rintro (⟨kept₁, kept₂⟩ | ⟨r, found₁, found₂⟩)
    · have left := stored₁.mpr kept₁
      have right := stored₂.mpr kept₂
      have records := left.stored.trans right.stored.symm
      exact ⟨records, left.committed.trans right.committed.symm, by rw [sent₁ kept₁, sent₂ kept₂, records],
        Or.inl ⟨left, right⟩⟩
    · have left := one₁.mpr (by rw [found₁]; rfl)
      have right := one₂.mpr (by rw [found₂]; rfl)
      exact ⟨left.kept.trans right.kept.symm, left.committed.trans right.committed.symm,
        (reply₁ _ found₁).trans (reply₂ _ found₂).symm, Or.inr ⟨left, right⟩⟩

theorem same_line_in_place :
    let one : List (Answer CallEnv) := [.go,
      .recv (.data ⟨[97, 98, newline], by decide, by decide⟩) { call := { kmallocAt := some 1 }, seek := {} },
      .read {} 0, .read {} 0, .go]
    let two : List (Answer CallEnv) := [.go,
      .recv (.data ⟨[97], by decide, by decide⟩) { call := { kmallocAt := some 1 }, seek := {} },
      .recv (.data ⟨[98, newline], by decide, by decide⟩)
        { call := { kmallocAt := some 2, kreallocAt := some 1 }, seek := {} },
      .read {} 0, .read {} 0, .go]
    SameLine Driver.init [97, 98, newline]
      (((session device).run ({ buffer := [] }, Driver.init) one).getD ({ buffer := [] }, Driver.init))
      (((session device).run ({ buffer := [7] }, Driver.init) two).getD ({ buffer := [] }, Driver.init)) := by
  intro one two
  have first : Finished Driver.init [] [97, 98, newline] one
      (((session device).run ({ buffer := [] }, Driver.init) one).getD ({ buffer := [] }, Driver.init)) :=
    ⟨Machine.run_getD (by decide +kernel) _, by decide +kernel, by decide +kernel, by decide +kernel⟩
  have second : Finished Driver.init [7] [97, 98, newline] two
      (((session device).run ({ buffer := [7] }, Driver.init) two).getD ({ buffer := [] }, Driver.init)) :=
    ⟨Machine.run_getD (by decide +kernel) _, by decide +kernel, by decide +kernel, by decide +kernel⟩
  refine (same_line_iff ⟨[], trivial, rfl⟩ rfl ⟨[97, 98], rfl, by decide⟩ first second).mpr (Or.inl ⟨⟨?_, ?_⟩, ?_, ?_⟩)
  · exact ⟨rfl, by decide +kernel, trivial⟩
  · decide +kernel
  · exact ⟨rfl, by decide +kernel, rfl, by decide +kernel, trivial⟩
  · decide +kernel

/-- A seek command cut inside its prefix is stored as a record; in one chunk it is refused. -/
theorem cut_prefix_not_same :
    ¬ ∀ (s : Driver) (line buffer₁ buffer₂ : List UInt8) (answers₁ answers₂ : List (Answer CallEnv))
      (e₁ e₂ : Client × Driver), Reachable s → s.pending = [] → IsLine line → Finished s buffer₁ line answers₁ e₁ →
      Finished s buffer₂ line answers₂ e₂ → SameLine s line e₁ e₂ := by
  intro same
  let rest : List UInt8 := seekPrefix.tail ++ [48, 44, 48, newline]
  let one : List (Answer CallEnv) := [.go,
    .recv (.data ⟨65 :: rest, by decide, by decide⟩) { call := {}, seek := {} }, .go, .go]
  let two : List (Answer CallEnv) := [.go,
    .recv (.data ⟨[65], by decide, by decide⟩) { call := { kmallocAt := some 1 }, seek := {} },
    .recv (.data ⟨rest, by decide, by decide⟩)
      { call := { kmallocAt := some 2, kreallocAt := some 1 }, seek := {} },
    .read {} 0, .read {} 0, .go]
  have first : Finished Driver.init [] (65 :: rest) one
      (((session device).run ({ buffer := [] }, Driver.init) one).getD ({ buffer := [] }, Driver.init)) :=
    ⟨Machine.run_getD (by decide +kernel) _, by decide +kernel, by decide +kernel, by decide +kernel⟩
  have second : Finished Driver.init [] (65 :: rest) two
      (((session device).run ({ buffer := [] }, Driver.init) two).getD ({ buffer := [] }, Driver.init)) :=
    ⟨Machine.run_getD (by decide +kernel) _, by decide +kernel, by decide +kernel, by decide +kernel⟩
  have records := (same _ _ _ _ _ _ _ _ ⟨[], trivial, rfl⟩ rfl ⟨65 :: rest.dropLast, rfl, by decide⟩ first second).records
  revert records
  decide +kernel

end Aesd
