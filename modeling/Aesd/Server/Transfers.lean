import Aesd.Library.Segments
import Aesd.Server.HandleClient

/-!
# What the calls take

`write` and `send` may take less than they are given, and `handle_client` does
not look at what they return.
-/

namespace Aesd
open Library

namespace Effect

/-- What `write` was given. -/
def offered : Effect → List UInt8
  | wrote bytes _ => bytes
  | _ => []

/-- What the read loop obtained, given to `send`. -/
def obtained : Effect → List UInt8
  | sent bytes _ => bytes
  | _ => []

/-- The call took a first part of what it was given. -/
def Part (e : Effect) : Prop := e.written <+: e.offered ∧ e.reply <+: e.obtained

/-- The call took all it was given. -/
def Whole (e : Effect) : Prop := e.written = e.offered ∧ e.reply = e.obtained

section
variable (bytes accepted : List UInt8) (parsed : Option Seekto)

@[simp] theorem part_wrote : (wrote bytes accepted).Part ↔ accepted <+: bytes := and_iff_left (List.prefix_refl _)
@[simp] theorem part_sent : (sent bytes accepted).Part ↔ accepted <+: bytes := and_iff_right (List.prefix_refl _)
@[simp] theorem whole_wrote : (wrote bytes accepted).Whole ↔ accepted = bytes := and_iff_left rfl
@[simp] theorem whole_sent : (sent bytes accepted).Whole ↔ accepted = bytes := and_iff_right rfl

@[simp] theorem whole_received : (received bytes).Whole := ⟨rfl, rfl⟩
@[simp] theorem whole_command : (command parsed).Whole := ⟨rfl, rfl⟩
@[simp] theorem whole_opened : opened.Whole := ⟨rfl, rfl⟩
@[simp] theorem whole_closed : closed.Whole := ⟨rfl, rfl⟩
@[simp] theorem whole_locked : locked.Whole := ⟨rfl, rfl⟩
@[simp] theorem whole_unlocked : unlocked.Whole := ⟨rfl, rfl⟩

theorem Whole.part {e : Effect} (h : e.Whole) : e.Part :=
  ⟨h.1 ▸ List.prefix_refl _, h.2 ▸ List.prefix_refl _⟩

end
end Effect

def Client.offered (c : Client) : List UInt8 := c.log.flatMap Effect.offered
def Client.obtained (c : Client) : List UInt8 := c.log.flatMap Effect.obtained

namespace Client
variable (c : Client) (e : Effect) (pc : ClientPc) (chunk : List UInt8)

@[simp] theorem offered_did : (c.did e).offered = c.offered ++ e.offered := by simp [offered]
@[simp] theorem offered_goto : (c.goto pc).offered = c.offered := rfl
@[simp] theorem offered_receive : (c.receive chunk).offered = c.offered := by simp [offered, Effect.offered]

end Client

variable {W E : Type}

/-- A `write` returns the number of bytes received, a `send` the number of bytes read. -/
def TakesAll (file : DataFile W E) (s : Client × W) : Answer E → Prop
  | .recv (.data chunk) env => env.openFails = false → isSeek (recvInto s.1.buffer chunk.bytes) = false →
    (chunk.bytes.length : Int) ≤ (file.write env.call chunk.bytes (file.creat s.2) 0).1
  | .read env unsent => ∀ fpos, s.1.pc = .replying fpos → (file.read env s.2 fpos).retval > 0 →
    (file.read env s.2 fpos).data.length ≤ (file.read env s.2 fpos).data.length - unsent
  | _ => True

variable {file : DataFile W E} {c : Client} {w : W} {answer : Answer E} {answers : List (Answer E)}
  {next : Client × W}

/-! ### One step -/

theorem Client.pass_whole (file : DataFile W E) (c : Client) (w : W) (chunk : Chunk) (env : Pass E) :
    ∃ more, (c.pass file w chunk env).1.log = c.log ++ more ∧ (∀ e ∈ more, e.Part) ∧
      ((∀ e ∈ more, e.Whole) ↔ TakesAll file (c, w) (.recv (.data chunk) env)) := by
  have length := List.length_pos_iff.mpr chunk.nonempty
  have taken (res : Int) : chunk.bytes.take res.toNat = chunk.bytes ↔ (chunk.bytes.length : Int) ≤ res := by
    rw [List.take_eq_self_iff]
    omega
  simp only [TakesAll]
  rcases Client.pass_cases file c w chunk env with
    ⟨fails, same⟩ | ⟨opens, ⟨seek, pc, _, same⟩ | ⟨data, same | ⟨pc, _, same⟩⟩⟩
  · exact ⟨[.received chunk.bytes], by simp [same], by simp [Effect.Whole.part], by simp [fails]⟩
  · exact ⟨[.received chunk.bytes, .opened, .command (scanSeekto ((recvInto c.buffer chunk.bytes).drop 19))],
      by simp [same], by simp [Effect.Whole.part], by simp [seek]⟩
  · generalize file.write env.call chunk.bytes (file.creat w) 0 = res at same ⊢
    exact ⟨[.received chunk.bytes, .opened, .wrote chunk.bytes (chunk.bytes.take res.1.toNat), .closed],
      by simp [same], by simp [Effect.Whole.part, List.take_prefix], by simp [opens, data, taken]⟩
  · generalize file.write env.call chunk.bytes (file.creat w) 0 = res at same ⊢
    exact ⟨[.received chunk.bytes, .opened, .wrote chunk.bytes (chunk.bytes.take res.1.toNat)],
      by simp [same], by simp [Effect.Whole.part, List.take_prefix], by simp [opens, data, taken]⟩

theorem Client.step_whole (step : c.step file w answer = some next) :
    ∃ more, next.1.log = c.log ++ more ∧ (∀ e ∈ more, e.Part) ∧
      ((∀ e ∈ more, e.Whole) ↔ TakesAll file (c, w) answer) := by
  cases here : c.pc with
  | start =>
    obtain ⟨rfl, rfl⟩ := Client.step_start here step
    exact ⟨_, rfl, by simp [Effect.Whole.part], by simp [TakesAll]⟩
  | receiving =>
    obtain ⟨result, env, rfl, rfl⟩ := Client.step_receiving here step
    cases result with
    | data chunk => exact Client.pass_whole file c w chunk env
    | _ => exact ⟨[], by simp, by simp, by simp [TakesAll]⟩
  | replying fpos =>
    obtain ⟨env, unsent, rfl, rfl⟩ | ⟨env, rfl, _, rfl⟩ := Client.step_replying here step
    case inr => exact ⟨[], by simp, by simp, by simp [TakesAll]⟩
    simp only [TakesAll, here, ClientPc.replying.injEq, forall_eq']
    split
    · rename_i more
      exact ⟨_, rfl, by simp [List.take_prefix], by simp [more]⟩
    · rename_i done
      exact ⟨_, rfl, by simp [Effect.Whole.part], by simp [done]⟩
  | unlocking =>
    obtain ⟨rfl, rfl⟩ := Client.step_unlocking here step
    exact ⟨_, rfl, by simp [Effect.Whole.part], by simp [TakesAll]⟩
  | failing =>
    obtain ⟨rfl, rfl⟩ := Client.step_failing here step
    exact ⟨_, rfl, by simp [Effect.Whole.part], by simp [TakesAll]⟩
  | cleaning =>
    obtain ⟨rfl, rfl⟩ := Client.step_cleaning here step
    exact ⟨[], by simp, by simp, by simp [TakesAll]⟩
  | _ => exact absurd (by simp [Client.Done, here]) (Client.step_running step)

/-! ### Any run of a session -/

/-- A session without commands has given `write` what it received, unless it is at its end by a failure. -/
def OffersAll (answers : List (Answer E)) (c : Client) : Prop :=
  c.commands ≠ [] ∨ c.pc = .failing ∨ c.pc = .cleaning ∨ c.pc = .exited ∨ c.offered = receivedBytes answers

theorem receivedBytes_snoc (answers : List (Answer E)) (answer : Answer E) :
    receivedBytes (answers ++ [answer]) = receivedBytes answers ++ receivedBytes [answer] := by
  unfold receivedBytes
  rw [passes_append, List.flatMap_append]

theorem Client.pass_offers (file : DataFile W E) (c : Client) (w : W) (chunk : Chunk) (env : Pass E) :
    (c.pass file w chunk env).1.commands ≠ [] ∨ (c.pass file w chunk env).1.pc = .failing ∨
      (c.pass file w chunk env).1.commands = c.commands ∧
        (c.pass file w chunk env).1.offered = c.offered ++ chunk.bytes := by
  rcases Client.pass_cases file c w chunk env with
    ⟨_, same⟩ | ⟨_, ⟨_, pc, _, same⟩ | ⟨_, same | ⟨pc, _, same⟩⟩⟩
  · exact Or.inr (Or.inl (by simp [same]))
  · exact Or.inl (by simp [same, Effect.commands])
  · exact Or.inr (Or.inl (by simp [same]))
  · exact Or.inr (Or.inr ⟨by simp [same, Effect.commands], by simp [same, Effect.offered]⟩)

theorem OffersAll.step (before : OffersAll answers c) (step : c.step file w answer = some next) :
    OffersAll (answers ++ [answer]) next.1 := by
  unfold OffersAll at before ⊢
  rw [receivedBytes_snoc]
  by_cases commands : c.commands = []
  · have offered (working : c.pc ≠ .failing ∧ c.pc ≠ .cleaning ∧ c.pc ≠ .exited) :
        c.offered = receivedBytes answers := by simpa [commands, working] using before
    cases here : c.pc with
    | start =>
      obtain ⟨rfl, rfl⟩ := Client.step_start here step
      simp [Effect.offered, receivedBytes, offered, here]
    | receiving =>
      obtain ⟨result, env, rfl, rfl⟩ := Client.step_receiving here step
      cases result with
      | data chunk =>
        rcases Client.pass_offers file c w chunk env with command | fails | ⟨_, more⟩
        · exact Or.inl command
        · exact Or.inr (Or.inl fails)
        · simp [more, offered, here, receivedBytes]
      | _ => simp [receivedBytes, passes, offered, here]
    | replying fpos =>
      obtain ⟨env, unsent, rfl, rfl⟩ | ⟨env, rfl, _, rfl⟩ := Client.step_replying here step
      · split <;> simp [Effect.offered, receivedBytes, offered, here]
      · simp [receivedBytes, passes, offered, here]
    | unlocking =>
      obtain ⟨rfl, rfl⟩ := Client.step_unlocking here step
      simp [Effect.offered, receivedBytes, offered, here]
    | failing =>
      obtain ⟨rfl, rfl⟩ := Client.step_failing here step
      exact Or.inr (Or.inr (Or.inl rfl))
    | cleaning =>
      obtain ⟨rfl, rfl⟩ := Client.step_cleaning here step
      exact Or.inr (Or.inr (Or.inr (Or.inl rfl)))
    | _ => exact absurd (by simp [Client.Done, here]) (Client.step_running step)
  · obtain ⟨more, log⟩ := Client.step_log step
    left
    intro none'
    unfold Client.commands at commands none'
    rw [log, List.flatMap_append, List.append_eq_nil_iff] at none'
    exact commands none'.1

theorem session_effects {buffer : List UInt8} {w₀ : W}
    (run : (session file).run ({ buffer }, w₀) answers = some (c, w)) :
    (∀ e ∈ c.log, e.Part) ∧
      ((∀ e ∈ c.log, e.Whole) ↔ (session file).Along (TakesAll file) ({ buffer }, w₀) answers) :=
  Machine.run_induction (m := session file)
    (P := fun answers (s : Client × W) => (∀ e ∈ s.1.log, e.Part) ∧
      ((∀ e ∈ s.1.log, e.Whole) ↔ (session file).Along (TakesAll file) ({ buffer }, w₀) answers))
    (by simp [Machine.Along])
    (by
      intro answers s answer next reached before _ step
      obtain ⟨more, log, part, whole⟩ := Client.step_whole step
      rw [log, Machine.along_snoc reached, List.forall_mem_append, List.forall_mem_append, ← before.2, whole]
      exact ⟨⟨before.1, part⟩, Iff.rfl⟩)
    Machine.along_true run

theorem session_offers {buffer : List UInt8} {w₀ : W}
    (run : (session file).run ({ buffer }, w₀) answers = some (c, w)) : OffersAll answers c := by
  have start : OffersAll ([] : List (Answer E)) { buffer } := Or.inr (Or.inr (Or.inr (Or.inr rfl)))
  exact Machine.run_induction (P := fun answers (e : Client × W) => OffersAll answers e.1) start
    (fun _ before _ step => before.step step) Machine.along_true run

/-- A data session that returns after its reply has lost nothing exactly when each call took all it was given. -/
theorem nothing_lost_iff {buffer : List UInt8} {w₀ : W}
    (run : (session file).run ({ buffer }, w₀) answers = some (c, w)) (back : c.pc = .returned)
    (data : c.commands = []) :
    c.written = receivedBytes answers ∧ c.reply = c.obtained ↔
      (session file).Along (TakesAll file) ({ buffer }, w₀) answers := by
  obtain ⟨part, whole⟩ := session_effects run
  have offered : c.offered = receivedBytes answers := by simpa [OffersAll, back, data] using session_offers run
  have written : c.written = c.offered ↔ ∀ e ∈ c.log, e.written = e.offered :=
    flatMap_whole_iff fun e member => (part e member).1
  have reply : c.reply = c.obtained ↔ ∀ e ∈ c.log, e.reply = e.obtained :=
    flatMap_whole_iff fun e member => (part e member).2
  rw [← offered, written, reply, ← whole]
  constructor
  · rintro ⟨written, reply⟩ e member
    exact ⟨written e member, reply e member⟩
  · intro both
    exact ⟨fun e member => (both e member).1, fun e member => (both e member).2⟩

theorem one_line_whole :
    let chunk : Chunk := ⟨[97, newline], by decide, by decide⟩
    let answers : List (Answer FileEnv) :=
      [.go, .recv (.data chunk) { call := {}, seek := {} }, .read {} 0, .read {} 0, .go]
    ∃ c w, (session regularFile).run ({ buffer := [] }, none) answers = some (c, w) ∧ c.written = [97, newline] ∧
      (session regularFile).Along (TakesAll regularFile) ({ buffer := [] }, none) answers := by
  intro chunk answers
  have run := Machine.run_getD (m := session regularFile) (s := (({ buffer := [] } : Client), none)) (l := answers)
    (by decide +kernel) ({ buffer := [] }, none)
  exact ⟨_, _, run, by decide +kernel,
    (nothing_lost_iff run (by decide +kernel) (by decide +kernel)).mp (by decide +kernel)⟩

/-- The line "a\n" of which `write` takes the first byte. -/
theorem short_write_loses_newline :
    ¬ ∀ (buffer : List UInt8) (answers : List (Answer FileEnv)) (c : Client) (w : Option (List UInt8)),
      (session regularFile).run ({ buffer }, none) answers = some (c, w) → c.pc = .returned → c.commands = [] →
      c.written = receivedBytes answers ∧ c.reply = c.obtained := by
  intro kept
  let chunk : Chunk := ⟨[97, newline], by decide, by decide⟩
  let answers : List (Answer FileEnv) :=
    [.go, .recv (.data chunk) { call := { short := 1 }, seek := {} }, .read {} 0, .read {} 0, .go]
  have run := Machine.run_getD (m := session regularFile) (s := (({ buffer := [] } : Client), none)) (l := answers)
    (by decide +kernel) ({ buffer := [] }, none)
  have written := (kept [] answers _ _ run (by decide +kernel) (by decide +kernel)).1
  revert written
  decide +kernel

end Aesd
