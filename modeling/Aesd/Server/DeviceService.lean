import Aesd.Driver.Integrity
import Aesd.Server.Service
import Aesd.Server.Session
import Aesd.Server.Threads

/-!
# The server on the device

All sessions of a process on one device. Whatever the interleaving and whatever
fails, the device goes through a run of `aesd_write` calls, one for each chunk
that passes for data, in the order in which the sessions hold the mutex. What a
session sends back is the stored records, from the position it was given on.
-/

namespace Aesd
open Library

abbrev DeviceServer := Server Driver

/-- The writes a step makes on the device. -/
def issued (s : DeviceServer) (label : Nat × Act CallEnv) : List WriteCall :=
  match s.threads label.1, label.2 with
  | .client c, .client (.recv (.data chunk) env) =>
    if env.openFails = false ∧ isSeek (recvInto c.buffer chunk.bytes) = false then [⟨env.call, chunk.bytes, 0⟩] else []
  | _, _ => []

/-- The process as it starts with the module just loaded, without a timestamp thread. -/
structure Started (s : DeviceServer) : Prop where
  free : s.mutex = none
  running : s.exited = false
  sessions : ∀ t, ∃ buffer, s.threads t = .client { buffer }
  world : s.world = Driver.init

/-- A `read` of a reply gets the lock and its bytes are copied, and the client takes what is sent. -/
def Attentive (_ : DeviceServer) (label : Nat × Act CallEnv) : Prop :=
  match label.2 with
  | .client (.read env unsent) => env.interrupted = false ∧ env.notCopied = 0 ∧ unsent = 0
  | _ => True

instance (s : DeviceServer) : ∀ label, Decidable (Attentive s label)
  | (_, .client (.read _ _)) => inferInstanceAs (Decidable (_ ∧ _ ∧ _))
  | (_, .client .go) | (_, .client (.recv _ _)) | (_, .client (.sigpipe _)) | (_, .stampGo) | (_, .stampStop)
  | (_, .stamp ..) => isTrue trivial

def Effect.seeks (before : Option Seekto) : Effect → Option Seekto
  | .command parsed => parsed
  | .wrote _ _ => none
  | _ => before

/-- The seek command of the session's last chunk, when that chunk was one. -/
def Client.lastSeek (c : Client) : Option Seekto := c.log.foldl Effect.seeks none

/-- A reply starts where the session's last chunk leads, when that is a seek command, else at the first record. -/
def RepliesFrom (w : Driver) (c : Client) (p : Nat) : Prop :=
  match c.lastSeek with
  | some seekto => aesdIoctl {} iocSeekto seekto w 0 = (0, (p : Int))
  | none => p = 0

/-- What a session on a device in this state has sent. -/
def Sending (w : Driver) (c : Client) : Prop :=
  match c.pc with
  | .start | .receiving => c.reply = []
  | .replying fpos => ∃ p q : Nat, fpos = q ∧ q ≤ w.records.flatten.length ∧ RepliesFrom w c p ∧
    c.reply ++ w.records.flatten.drop q = w.records.flatten.drop p
  | .unlocking => ∃ p, RepliesFrom w c p ∧ c.reply = w.records.flatten.drop p
  | _ => True

variable {s s' s₀ : DeviceServer} {t : Nat} {c : Client} {w : Driver} {ring : List Cell} {pending : Option Cell}
  {lost : List Nat} {chunk : Chunk} {env : Pass CallEnv} {answer : Answer CallEnv} {next : Client × Driver}
  {label : Nat × Act CallEnv} {labels : List (Nat × Act CallEnv)}

/-! ### The device under one step -/

theorem pass_device (c : Client) (w : Driver) (chunk : Chunk) (env : Pass CallEnv) :
    (c.pass device w chunk env).2 =
      if env.openFails = false ∧ isSeek (recvInto c.buffer chunk.bytes) = false then
        (aesdWrite env.call chunk.bytes w 0).state
      else w := by
  cases opens : env.openFails with
  | true => rw [Client.pass_unopened device c w chunk opens, if_neg (by simp)]
  | false =>
    cases seek : isSeek (recvInto c.buffer chunk.bytes) with
    | true =>
      rw [if_neg (by simp)]
      simp only [Client.pass, opens, Bool.false_eq_true, if_false, Client.did_buffer, Client.receive_buffer, seek, if_true]
      split
      · rfl
      · split
        · rfl
        · split <;> rfl
    | false =>
      rw [if_pos ⟨rfl, rfl⟩]
      simp only [Client.pass, opens, Bool.false_eq_true, if_false, Client.did_buffer, Client.receive_buffer, seek]
      split
      · split <;> rfl
      · rfl

/-- A step leaves the device alone or makes one call of `aesd_write`, which does not fault. -/
theorem device_step (clients : ∀ t, ∃ c, s.threads t = .client c) (layout : Layout s.world ring pending lost)
    (step : (server device).step s label = some s') :
    (∀ t, ∃ c, s'.threads t = .client c) ∧ ((issued s label = [] ∧ s'.world = s.world) ∨
      ∃ call, issued s label = [call] ∧ call.buf ≠ [] ∧ writer.step s.world call = some s'.world) := by
  obtain ⟨t, act⟩ := label
  obtain ⟨_, ⟨c, answer, next, here, rfl, _, moved, rfl⟩ | ⟨pc, here, _⟩⟩ := server_step step
  · refine ⟨?_, ?_⟩
    · intro u
      by_cases same : u = t
      · subst same
        exact ⟨next.1, Function.update_self _ _ _⟩
      · obtain ⟨d, at'⟩ := clients u
        exact ⟨d, by simpa only [Function.update_of_ne same] using at'⟩
    · rcases Client.step_world moved with ⟨chunk, env, rfl, rfl⟩ | ⟨other, world⟩
      · rw [pass_device]
        by_cases data : env.openFails = false ∧ isSeek (recvInto c.buffer chunk.bytes) = false
        · let call : WriteCall := ⟨env.call, chunk.bytes, 0⟩
          have some' : SomeBytes s.world call := chunk.nonempty
          obtain ⟨w, step⟩ := writer_enabled layout some'
          refine Or.inr ⟨call, by simp only [issued, here, if_pos data, call], some', ?_⟩
          rw [if_pos data, step]
          simp only [writer] at step
          split at step
          · cases step
          · exact step.symm
        · exact Or.inl ⟨by simp only [issued, here, if_neg data], if_neg data⟩
      · -- The device node cannot be removed: `unlink` leaves the device as it is.
        refine Or.inl ⟨?_, by rcases world with same | ⟨_, same⟩ <;> exact same⟩
        unfold issued
        simp only [here]
        split
        · rename_i same
          exact absurd (Act.client.inj same) (other _ _)
        · rfl
  · obtain ⟨c, at'⟩ := clients t
    rw [here] at at'
    cases at'

/-! ### The writes of a run -/

/-- The device has gone through the writes issued so far. -/
structure Written (s₀ : DeviceServer) (labels : List (Nat × Act CallEnv)) (s : DeviceServer) : Prop where
  clients : ∀ t, ∃ c, s.threads t = .client c
  some' : writer.Along SomeBytes Driver.init ((server device).observe issued s₀ labels)
  run : writer.run Driver.init ((server device).observe issued s₀ labels) = some s.world

theorem Started.fresh (h : Started s₀) : s₀.Fresh where
  free := h.free
  running := h.running
  outside t := Or.inl (h.sessions t)

theorem Started.written (h : Started s₀) : Written s₀ [] s₀ where
  clients t := by
    obtain ⟨buffer, here⟩ := h.sessions t
    exact ⟨_, here⟩
  some' := trivial
  run := by rw [h.world]; rfl

theorem Written.layout (h : Written s₀ labels s) : ∃ ring pending lost, Layout s.world ring pending lost ∧
    ring.map Prod.snd = (writer.observe handed Driver.init ((server device).observe issued s₀ labels)).rtake
      maxWriteOperations :=
  run_layout h.some' h.run

theorem Written.step (h : Written s₀ labels s) (reached : (server device).run s₀ labels = some s)
    (step : (server device).step s label = some s') : Written s₀ (labels ++ [label]) s' := by
  obtain ⟨ring, pending, lost, layout, _⟩ := h.layout
  obtain ⟨clients, ⟨nothing, same⟩ | ⟨call, one, bytes, write⟩⟩ := device_step h.clients layout step
  · refine ⟨clients, ?_, ?_⟩
    · rw [Machine.observe_snoc reached, nothing, List.append_nil]
      exact h.some'
    · rw [Machine.observe_snoc reached, nothing, List.append_nil, h.run, same]
  · refine ⟨clients, ?_, ?_⟩
    · rw [Machine.observe_snoc reached, one]
      exact (Machine.along_snoc h.run).mpr ⟨h.some', bytes⟩
    · rw [Machine.observe_snoc reached, one]
      exact Machine.run_snoc.mpr ⟨_, h.run, write⟩

/-! ### The replies -/

theorem sending_outside {w' : Driver} (outside : ¬ (Thread.client c).Holds) (h : Sending w c) : Sending w' c := by
  cases here : c.pc <;> simp_all [Thread.Holds, Sending]

section
variable (e : Effect) (pc : ClientPc) (bytes : List UInt8)

@[simp] theorem Client.lastSeek_did : (c.did e).lastSeek = e.seeks c.lastSeek := by simp [Client.lastSeek]
@[simp] theorem Client.lastSeek_goto : (c.goto pc).lastSeek = c.lastSeek := rfl
@[simp] theorem Client.lastSeek_receive : (c.receive bytes).lastSeek = c.lastSeek := by
  simp [Client.lastSeek, Effect.seeks]

end

theorem pass_lastSeek (c : Client) (w : Driver) (chunk : Chunk) (opens : env.openFails = false) :
    (c.pass device w chunk env).1.lastSeek =
      if isSeek (recvInto c.buffer chunk.bytes) then scanSeekto ((recvInto c.buffer chunk.bytes).drop 19) else none := by
  rcases Client.pass_cases device c w chunk env with
    ⟨fails, _⟩ | ⟨_, ⟨seek, pc, _, same⟩ | ⟨data, same | ⟨pc, _, same⟩⟩⟩
  · rw [opens] at fails
    cases fails
  · simp [same, seek, Effect.seeks]
  · simp [same, data, Effect.seeks]
  · simp [same, data, Effect.seeks]

/-- A pass with data fails, or leaves the session where a rewound reply starts. -/
theorem pass_sends (opens : env.openFails = false) (data : isSeek (recvInto c.buffer chunk.bytes) = false)
    (h : Layout (c.pass device w chunk env).2 ring pending lost) :
    (c.pass device w chunk env).1.pc = .failing ∨ (c.pass device w chunk env).1.reply = c.reply ∧
      (c.pass device w chunk env).1.pc = if newline ∈ chunk.bytes then .replying 0 else c.pc := by
  rw [pass_device, if_pos ⟨opens, data⟩] at h
  have rewinds (fpos : Int) := device_rewinds h env.seek fpos
  simp only [Client.pass, opens, Bool.false_eq_true, if_false, Client.did_buffer, Client.receive_buffer, data,
    show device.creat w = w from rfl]
  rcases rewinds (device.write env.call chunk.bytes w 0).2.2 with first | failed
  · rw [show device.lseek env.seek (device.write env.call chunk.bytes w 0).2.1 _ = (0, 0) from first]
    refine Or.inr ?_
    split <;> simp [Effect.reply]
  · rw [show (device.lseek env.seek (device.write env.call chunk.bytes w 0).2.1 _).1 = -1 from failed]
    by_cases line : newline ∈ chunk.bytes
    · simp [line]
    · exact Or.inr (by simp [line, Effect.reply])

/-- A seek command that cannot be copied fails. -/
theorem pass_uncopied (opens : env.openFails = false) (seek : isSeek (recvInto c.buffer chunk.bytes) = true)
    (uncopied : env.call.notCopied ≠ 0) : (c.pass device w chunk env).1.pc = .failing := by
  simp only [Client.pass, opens, Bool.false_eq_true, if_false, Client.did_buffer, Client.receive_buffer, seek, if_true]
  cases scanSeekto ((recvInto c.buffer chunk.bytes).drop 19) with
  | none => rfl
  | some seekto =>
    simp only [show device.creat w = w from rfl, device_ioctl_uncopied uncopied seekto, if_true, Client.goto_pc]

theorem sending_step (h : Layout w ring pending lost) (before : Sending w c)
    (step : c.step device w answer = some next)
    (after : ∃ ring pending lost, Layout next.2 ring pending lost)
    (reads : ∀ env unsent, answer = .read env unsent → env.interrupted = false ∧ env.notCopied = 0 ∧ unsent = 0) :
    Sending next.2 next.1 := by
  unfold Sending at before
  cases here : c.pc with
  | start =>
    rw [here] at before
    obtain ⟨rfl, rfl⟩ := Client.step_start here step
    simpa [Sending, Effect.reply] using before
  | receiving =>
    rw [here] at before
    obtain ⟨result, env, rfl, rfl⟩ := Client.step_receiving here step
    cases result with
    | eof => simp [Sending]
    | error => simp [Sending]
    | data chunk =>
      obtain ⟨ring', pending', lost', layout⟩ := after
      simp only at layout ⊢
      cases opens : env.openFails with
      | true =>
        rw [Client.pass_unopened device c w chunk opens]
        simp [Sending]
      | false =>
        cases seek : isSeek (recvInto c.buffer chunk.bytes) with
        | true =>
          by_cases copied : env.call.notCopied = 0
          case neg =>
            unfold Sending
            rw [pass_uncopied opens seek copied]
            trivial
          obtain ⟨_, _, reply, _, world, pc⟩ := pass_command (c := c) (s := w) opens seek copied
          have leads := pass_lastSeek c w chunk opens
          rw [if_pos seek] at leads
          rw [world] at layout ⊢
          unfold Sending
          rw [pc]
          cases found : seekPos w (recvInto c.buffer chunk.bytes) with
          | none => trivial
          | some pos =>
            by_cases line : newline ∈ chunk.bytes
            · obtain ⟨p, rfl, inside⟩ := h.seekPos_lt found
              simp only [if_pos line]
              refine ⟨p, p, rfl, by rw [h.records_eq]; omega, ?_, by rw [reply, before, List.nil_append]⟩
              obtain ⟨seekto, parsed, lands⟩ := Option.bind_eq_some_iff.mp found
              rw [RepliesFrom, leads, parsed]
              split at lands
              · rename_i zero
                exact Prod.ext zero (Option.some.inj lands)
              · cases lands
            · simpa only [if_neg line, here] using reply.trans before
        | false =>
          have leads := pass_lastSeek c w chunk opens
          rw [if_neg (by simp [seek])] at leads
          unfold Sending
          rcases pass_sends opens seek layout with failed | ⟨reply, pc⟩
          · rw [failed]
            trivial
          rw [pc]
          by_cases line : newline ∈ chunk.bytes
          · simp only [if_pos line]
            exact ⟨0, 0, rfl, Nat.zero_le _, by rw [RepliesFrom, leads], by rw [reply, before, List.nil_append]⟩
          · simpa only [if_neg line, here] using reply.trans before
  | replying fpos =>
    rw [here] at before
    obtain ⟨env, unsent, rfl, rfl⟩ | ⟨env, rfl, _, rfl⟩ := Client.step_replying here step
    case inr => simp [Sending]
    obtain ⟨lock, copies, rfl⟩ := reads env unsent rfl
    obtain ⟨p, q, rfl, inside, starts, split⟩ := before
    rw [h.records_eq] at inside split
    have small : q < 2 ^ 63 := Nat.lt_of_le_of_lt inside h.records_lt
    obtain ⟨returned, moved, ⟨rest, piece⟩, within, last⟩ := device_read h lock copies small
    by_cases more : (device.read env w q).retval > 0
    · rw [if_pos more]
      refine ⟨p, q + (device.read env w q).data.length, moved, by rw [h.records_eq]; omega, ?_, ?_⟩
      · simpa [RepliesFrom, Effect.seeks] using starts
      · rw [h.records_eq, ← split, ← List.drop_drop, ← piece, List.drop_left]
        simp only [Client.reply_goto, Client.reply_did, Effect.reply, Nat.sub_zero, List.take_length, List.append_assoc]
    · rw [if_neg more]
      have done := last (List.eq_nil_of_length_eq_zero (by omega))
      refine ⟨p, by simpa [RepliesFrom, Effect.seeks] using starts, ?_⟩
      rw [h.records_eq, ← split, List.drop_eq_nil_of_le done]
      simp [Effect.reply]
  | unlocking =>
    obtain ⟨rfl, rfl⟩ := Client.step_unlocking here step
    simp [Sending]
  | failing =>
    obtain ⟨rfl, rfl⟩ := Client.step_failing here step
    simp [Sending]
  | cleaning =>
    obtain ⟨rfl, rfl⟩ := Client.step_cleaning here step
    simp [Sending]
  | _ => exact absurd (by simp [Client.Done, here]) (Client.step_running step)

/-! ### Every run -/

structure Tended (s₀ : DeviceServer) (labels : List (Nat × Act CallEnv)) (s : DeviceServer) : Prop where
  written : Written s₀ labels s
  exclusive : Exclusive Thread.Holds s.mutex s.threads
  sending : ∀ t c, s.threads t = .client c → Sending s.world c

theorem Tended.step (h : Tended s₀ labels s) (reached : (server device).run s₀ labels = some s)
    (attentive : Attentive s label) (step : (server device).step s label = some s') :
    Tended s₀ (labels ++ [label]) s' := by
  have written := h.written.step reached step
  refine ⟨written, server_exclusive h.exclusive step, ?_⟩
  obtain ⟨ring, pending, lost, layout, _⟩ := h.written.layout
  obtain ⟨ring', pending', lost', layout', _⟩ := written.layout
  obtain ⟨t, act⟩ := label
  obtain ⟨_, ⟨c, answer, next, here, rfl, _, moved, rfl⟩ | ⟨pc, here, _⟩⟩ := server_step step
  · have after := sending_step layout (h.sending t c here) moved ⟨ring', pending', lost', layout'⟩
      (by rintro env unsent rfl; exact attentive)
    intro u d at'
    by_cases same : u = t
    · subst same
      simp only [Function.update_self] at at'
      exact Thread.client.inj at' ▸ after
    · simp only [Function.update_of_ne same] at at'
      rcases Client.step_world moved with ⟨chunk, env, rfl, _⟩ | ⟨_, world⟩
      · -- The chunk came to the session that holds the mutex, so this one is outside.
        have inside : (s.threads t).Holds := by
          rw [here]
          cases pc : c.pc <;> simp_all [Thread.Holds, Client.step]
        refine sending_outside ?_ (h.sending u d at')
        intro held
        exact same (h.exclusive.unique (by rw [at']; exact held) inside)
      · rw [show next.2 = s.world by rcases world with same | ⟨_, same⟩ <;> exact same]
        exact h.sending u d at'
  · obtain ⟨c, at'⟩ := h.written.clients t
    rw [here] at at'
    cases at'

theorem service_started (buffers : Nat → List UInt8) : Started (service buffers) :=
  ⟨rfl, rfl, fun t => ⟨buffers t, rfl⟩, rfl⟩

end Aesd
