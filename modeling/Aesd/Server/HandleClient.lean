import Aesd.Library.Machine
import Aesd.Server.DataFile
import Aesd.Server.Scan

/-!
# A client's session

`handle_client` between its system calls. A session keeps its receive buffer from
one chunk to the next and opens the data file anew for each.
-/

namespace Aesd
open Library

/-- What one `recv` returns: 1 to 1024 bytes. -/
structure Chunk where
  bytes : List UInt8
  nonempty : bytes ≠ []
  fits : bytes.length ≤ 1024

/-- Where `handle_client` is: at its lock, in the receive loop, in the reply loop at a position, at the unlock
after it, returned, returned because `recv` gave 0 or -1, at the unlock before `cleanup`, in `cleanup`, ended, ended
in a `send` by SIGPIPE. -/
inductive ClientPc where
  | start
  | receiving
  | replying (fpos : Int)
  | unlocking
  | returned
  | hungUp
  | failing
  | cleaning
  | exited
  | killed
  deriving DecidableEq

/-- What a session has done. A `write` and a `send` name the bytes given and those accepted, a seek command what
`sscanf` made of it. -/
inductive Effect where
  | locked | unlocked
  | received (chunk : List UInt8)
  | opened | closed
  | wrote (bytes accepted : List UInt8)
  | command (parsed : Option Seekto)
  | sent (bytes accepted : List UInt8)
  deriving DecidableEq

namespace Effect

def reply : Effect → List UInt8
  | sent _ accepted => accepted
  | _ => []

def written : Effect → List UInt8
  | wrote _ accepted => accepted
  | _ => []

def commands : Effect → List (Option Seekto)
  | command parsed => [parsed]
  | _ => []

end Effect

structure Client where
  pc : ClientPc := .start
  buffer : List UInt8
  log : List Effect := []

inductive Recv where
  | data (chunk : Chunk)
  | eof
  | error

/-- What the kernel answers in one pass through the receive loop: to `open`, to `write` or `ioctl`, and
to `lseek`. -/
structure Pass (E : Type) where
  openFails : Bool := false
  call : E
  seek : E

/-- `sigpipe` is a `read` whose data `send` has nobody to give to any more: the flags are 0 and nothing handles the
signal. -/
inductive Answer (E : Type) where
  | go
  | recv (result : Recv) (pass : Pass E)
  | read (env : E) (unsent : Nat)
  | sigpipe (env : E)

namespace Client
variable {W E : Type}

def did (c : Client) (e : Effect) : Client := { c with log := c.log ++ [e] }

def goto (c : Client) (pc : ClientPc) : Client := { c with pc }

def receive (c : Client) (chunk : List UInt8) : Client :=
  { c with buffer := recvInto c.buffer chunk, log := c.log ++ [.received chunk] }

/-- A pass through the receive loop with the bytes received. -/
def pass (file : DataFile W E) (c : Client) (w : W) (chunk : Chunk) (env : Pass E) : Client × W :=
  let c := c.receive chunk.bytes
  if env.openFails then (c.goto .failing, w)
  else
    let c := c.did .opened
    let w := file.creat w
    if isSeek c.buffer then
      let c := c.did (.command (scanSeekto (c.buffer.drop 19)))
      match scanSeekto (c.buffer.drop 19) with
      | none => (c.goto .failing, w)
      | some seekto =>
        let res := file.ioctl env.call seekto w 0
        if res.1 = -1 then (c.goto .failing, w)
        else if newline ∈ chunk.bytes then (c.goto (.replying res.2), w)
        else (c, w)
    else
      let res := file.write env.call chunk.bytes w 0
      let c := c.did (.wrote chunk.bytes (chunk.bytes.take res.1.toNat))
      if newline ∈ chunk.bytes then
        let pos := file.lseek env.seek res.2.1 res.2.2
        if pos.1 = -1 then ((c.did .closed).goto .failing, res.2.1)
        else (c.goto (.replying pos.2), res.2.1)
      else (c, res.2.1)

def step (file : DataFile W E) (c : Client) (w : W) (answer : Answer E) : Option (Client × W) :=
  match c.pc, answer with
  | .start, .go => some ((c.did .locked).goto .receiving, w)
  | .receiving, .recv (.data chunk) env => some (c.pass file w chunk env)
  | .receiving, .recv _ _ => some (c.goto .hungUp, w)
  | .replying fpos, .read env unsent =>
    let res := file.read env w fpos
    if res.retval > 0 then
      some ((c.did (.sent res.data (res.data.take (res.data.length - unsent)))).goto (.replying res.fpos), w)
    else some ((c.did .closed).goto .unlocking, w)
  | .replying fpos, .sigpipe env => if (file.read env w fpos).retval > 0 then some (c.goto .killed, w) else none
  | .unlocking, .go => some ((c.did .unlocked).goto .returned, w)
  | .failing, .go => some ((c.did .unlocked).goto .cleaning, w)
  | .cleaning, .go => some (c.goto .exited, file.unlink w)
  | _, _ => none

/-! ### Each step from where the session is -/

section
variable {file : DataFile W E} {c : Client} {w : W} {answer : Answer E} {next : Client × W} {fpos : Int}

theorem step_start (here : c.pc = .start) (step : c.step file w answer = some next) :
    answer = .go ∧ next = ((c.did .locked).goto .receiving, w) := by
  cases answer <;> simp_all [Client.step]

theorem step_receiving (here : c.pc = .receiving) (step : c.step file w answer = some next) :
    ∃ result env, answer = .recv result env ∧
      next = match result with
        | .data chunk => c.pass file w chunk env
        | _ => (c.goto .hungUp, w) := by
  rcases answer with _ | ⟨_ | _, _⟩ | _ | _ <;> simp_all [Client.step]

theorem step_replying (here : c.pc = .replying fpos) (step : c.step file w answer = some next) :
    (∃ env unsent, answer = .read env unsent ∧
      next = if (file.read env w fpos).retval > 0 then
        ((c.did (.sent (file.read env w fpos).data
          ((file.read env w fpos).data.take ((file.read env w fpos).data.length - unsent)))).goto
            (.replying (file.read env w fpos).fpos), w)
        else ((c.did .closed).goto .unlocking, w)) ∨
    ∃ env, answer = .sigpipe env ∧ (file.read env w fpos).retval > 0 ∧ next = (c.goto .killed, w) := by
  cases answer with
  | read env unsent =>
    refine Or.inl ⟨env, unsent, rfl, ?_⟩
    simp only [Client.step, here] at step
    split at step
    · rename_i more
      rw [if_pos more]
      exact (Option.some.inj step).symm
    · rename_i empty
      rw [if_neg empty]
      exact (Option.some.inj step).symm
  | sigpipe env =>
    refine Or.inr ⟨env, rfl, ?_⟩
    simp only [Client.step, here] at step
    split at step
    · rename_i more
      exact ⟨more, (Option.some.inj step).symm⟩
    · cases step
  | _ => simp [Client.step, here] at step

theorem step_unlocking (here : c.pc = .unlocking) (step : c.step file w answer = some next) :
    answer = .go ∧ next = ((c.did .unlocked).goto .returned, w) := by
  cases answer <;> simp_all [Client.step]

theorem step_failing (here : c.pc = .failing) (step : c.step file w answer = some next) :
    answer = .go ∧ next = ((c.did .unlocked).goto .cleaning, w) := by
  cases answer <;> simp_all [Client.step]

theorem step_cleaning (here : c.pc = .cleaning) (step : c.step file w answer = some next) :
    answer = .go ∧ next = (c.goto .exited, file.unlink w) := by
  cases answer <;> simp_all [Client.step]

end

/-- The process ends with the session. -/
def Ends (c : Client) : Prop := c.pc = .exited ∨ c.pc = .killed

def Done (c : Client) : Prop := c.pc = .returned ∨ c.pc = .hungUp ∨ c.pc = .exited ∨ c.pc = .killed

@[simp] theorem ends_iff {c : Client} : c.Ends ↔ c.pc = .exited ∨ c.pc = .killed := Iff.rfl

instance (c : Client) : Decidable c.Ends := inferInstanceAs (Decidable (_ ∨ _))
instance (c : Client) : Decidable c.Done := inferInstanceAs (Decidable (_ ∨ _))

theorem step_done {file : DataFile W E} {c : Client} {w : W} {answer : Answer E} (done : c.Done) :
    c.step file w answer = none := by
  rcases done with here | here | here | here <;> simp [Client.step, here]

theorem step_running {file : DataFile W E} {c : Client} {w : W} {answer : Answer E} {next : Client × W}
    (step : c.step file w answer = some next) : ¬ c.Done := by
  intro done
  rw [step_done done] at step
  cases step

/-- A step is a pass, or leaves the file as it is, or removes it. -/
theorem step_world {file : DataFile W E} {c : Client} {w : W} {answer : Answer E} {next : Client × W}
    (step : c.step file w answer = some next) :
    (∃ chunk env, answer = .recv (.data chunk) env ∧ next = c.pass file w chunk env) ∨
    (∀ chunk env, answer ≠ .recv (.data chunk) env) ∧ (next.2 = w ∨ next.1.pc = .exited ∧ next.2 = file.unlink w) := by
  cases here : c.pc with
  | start =>
    obtain ⟨rfl, rfl⟩ := step_start here step
    exact Or.inr ⟨by simp, Or.inl rfl⟩
  | receiving =>
    obtain ⟨result, env, rfl, rfl⟩ := step_receiving here step
    cases result with
    | data chunk => exact Or.inl ⟨chunk, env, rfl, rfl⟩
    | _ => exact Or.inr ⟨by simp, Or.inl rfl⟩
  | replying fpos =>
    obtain ⟨env, unsent, rfl, rfl⟩ | ⟨env, rfl, _, rfl⟩ := step_replying here step
    · refine Or.inr ⟨by simp, Or.inl ?_⟩
      split <;> rfl
    · exact Or.inr ⟨by simp, Or.inl rfl⟩
  | unlocking =>
    obtain ⟨rfl, rfl⟩ := step_unlocking here step
    exact Or.inr ⟨by simp, Or.inl rfl⟩
  | failing =>
    obtain ⟨rfl, rfl⟩ := step_failing here step
    exact Or.inr ⟨by simp, Or.inl rfl⟩
  | cleaning =>
    obtain ⟨rfl, rfl⟩ := step_cleaning here step
    exact Or.inr ⟨by simp, Or.inr ⟨rfl, rfl⟩⟩
  | _ => exact absurd (by simp [Done, here]) (step_running step)

/-! ### What a session has done -/

def reply (c : Client) : List UInt8 := c.log.flatMap Effect.reply
def written (c : Client) : List UInt8 := c.log.flatMap Effect.written
def commands (c : Client) : List (Option Seekto) := c.log.flatMap Effect.commands

section
variable (c : Client) (e : Effect) (next : ClientPc) (chunk : List UInt8)

@[simp] theorem did_pc : (c.did e).pc = c.pc := rfl
@[simp] theorem did_buffer : (c.did e).buffer = c.buffer := rfl
@[simp] theorem did_log : (c.did e).log = c.log ++ [e] := rfl
@[simp] theorem goto_pc : (c.goto next).pc = next := rfl
@[simp] theorem goto_buffer : (c.goto next).buffer = c.buffer := rfl
@[simp] theorem goto_log : (c.goto next).log = c.log := rfl
@[simp] theorem receive_pc : (c.receive chunk).pc = c.pc := rfl
@[simp] theorem receive_buffer : (c.receive chunk).buffer = recvInto c.buffer chunk := rfl
@[simp] theorem receive_log : (c.receive chunk).log = c.log ++ [.received chunk] := rfl

@[simp] theorem reply_did : (c.did e).reply = c.reply ++ e.reply := by simp [reply]
@[simp] theorem written_did : (c.did e).written = c.written ++ e.written := by simp [written]
@[simp] theorem commands_did : (c.did e).commands = c.commands ++ e.commands := by simp [commands]
@[simp] theorem reply_goto : (c.goto next).reply = c.reply := rfl
@[simp] theorem written_goto : (c.goto next).written = c.written := rfl
@[simp] theorem commands_goto : (c.goto next).commands = c.commands := rfl
@[simp] theorem reply_receive : (c.receive chunk).reply = c.reply := by simp [reply, Effect.reply]
@[simp] theorem written_receive : (c.receive chunk).written = c.written := by simp [written, Effect.written]
@[simp] theorem commands_receive : (c.receive chunk).commands = c.commands := by simp [commands, Effect.commands]

end
end Client

/-! ### One pass -/

namespace Client
variable {W E : Type}

/-- Where a pass that succeeds leaves the session: in the reply loop after a newline, else where it was. -/
def Onward (c : Client) (chunk : Chunk) (pc : ClientPc) : Prop :=
  newline ∉ chunk.bytes ∧ pc = c.pc ∨ newline ∈ chunk.bytes ∧ ∃ fpos, pc = .replying fpos

theorem Onward.replies {c : Client} {chunk : Chunk} {pc : ClientPc} (onward : c.Onward chunk pc)
    (line : newline ∈ chunk.bytes) : ∃ fpos, pc = .replying fpos := by
  rcases onward with ⟨more, _⟩ | ⟨_, replies⟩
  · exact absurd line more
  · exact replies

theorem pass_unopened (file : DataFile W E) (c : Client) (w : W) (chunk : Chunk) {env : Pass E}
    (fails : env.openFails = true) : c.pass file w chunk env = ((c.receive chunk.bytes).goto .failing, w) := by
  simp [pass, fails]

/-- What a pass can do: `open` fails; a command; data of which `write` takes a part, and then `lseek` fails or
does not. -/
theorem pass_cases (file : DataFile W E) (c : Client) (w : W) (chunk : Chunk) (env : Pass E) :
    let next := (c.pass file w chunk env).1
    let memory := recvInto c.buffer chunk.bytes
    let took := chunk.bytes.take (file.write env.call chunk.bytes (file.creat w) 0).1.toNat
    let opened := (c.receive chunk.bytes).did .opened
    (env.openFails = true ∧ next = (c.receive chunk.bytes).goto .failing) ∨
    env.openFails = false ∧
      ((isSeek memory = true ∧ ∃ pc, (pc = .failing ∨ c.Onward chunk pc) ∧
        next = (opened.did (.command (scanSeekto (memory.drop 19)))).goto pc) ∨
      isSeek memory = false ∧
        (next = ((opened.did (.wrote chunk.bytes took)).did .closed).goto .failing ∨
        ∃ pc, c.Onward chunk pc ∧ next = (opened.did (.wrote chunk.bytes took)).goto pc)) := by
  intro next memory took opened
  cases opens : env.openFails with
  | true => exact Or.inl ⟨rfl, congrArg Prod.fst (pass_unopened file c w chunk opens)⟩
  | false =>
    refine Or.inr ⟨rfl, ?_⟩
    cases seek : isSeek memory with
    | true =>
      refine Or.inl ⟨rfl, ?_⟩
      simp only [next, pass, opens, did_buffer, receive_buffer, seek, memory, Bool.false_eq_true, if_false, if_true]
      split
      · exact ⟨_, Or.inl rfl, rfl⟩
      · split
        · exact ⟨_, Or.inl rfl, rfl⟩
        · split
          · rename_i line
            exact ⟨_, Or.inr (Or.inr ⟨line, _, rfl⟩), rfl⟩
          · rename_i more
            exact ⟨_, Or.inr (Or.inl ⟨more, rfl⟩), rfl⟩
    | false =>
      refine Or.inr ⟨rfl, ?_⟩
      simp only [next, pass, opens, did_buffer, receive_buffer, seek, memory, Bool.false_eq_true, if_false]
      split
      · rename_i line
        split
        · exact Or.inl rfl
        · exact Or.inr ⟨_, Or.inr ⟨line, _, rfl⟩, rfl⟩
      · rename_i more
        exact Or.inr ⟨_, Or.inl ⟨more, rfl⟩, rfl⟩

end Client

/-! ### One session by itself -/

def session {W E : Type} (file : DataFile W E) : Machine (Client × W) (Answer E) where
  step s answer := s.1.step file s.2 answer

theorem Client.step_log {W E : Type} {file : DataFile W E} {c : Client} {w : W} {answer : Answer E}
    {next : Client × W} (step : c.step file w answer = some next) : ∃ more, next.1.log = c.log ++ more := by
  cases here : c.pc with
  | start => obtain ⟨_, rfl⟩ := Client.step_start here step; exact ⟨_, rfl⟩
  | receiving =>
    obtain ⟨result, env, _, rfl⟩ := Client.step_receiving here step
    cases result with
    | data chunk =>
      rcases Client.pass_cases file c w chunk env with
        ⟨_, same⟩ | ⟨_, ⟨_, pc, _, same⟩ | ⟨_, same | ⟨pc, _, same⟩⟩⟩ <;> simp [same]
    | _ => exact ⟨[], by simp⟩
  | replying fpos =>
    obtain ⟨env, unsent, _, rfl⟩ | ⟨env, _, _, rfl⟩ := Client.step_replying here step
    · split <;> exact ⟨_, rfl⟩
    · exact ⟨[], by simp⟩
  | unlocking => obtain ⟨_, rfl⟩ := Client.step_unlocking here step; exact ⟨_, rfl⟩
  | failing => obtain ⟨_, rfl⟩ := Client.step_failing here step; exact ⟨_, rfl⟩
  | cleaning => obtain ⟨_, rfl⟩ := Client.step_cleaning here step; exact ⟨[], by simp⟩
  | _ => exact absurd (by simp [Client.Done, here]) (Client.step_running step)

theorem Client.pass_pc {W E : Type} (file : DataFile W E) (c : Client) (w : W) (chunk : Chunk) (env : Pass E) :
    ((c.pass file w chunk env).1.pc = c.pc ∨ (c.pass file w chunk env).1.pc = .failing ∨
      ∃ fpos, (c.pass file w chunk env).1.pc = .replying fpos) ∧
    (c.pass file w chunk env).1.log.count .locked = c.log.count .locked ∧
    (c.pass file w chunk env).1.log.count .unlocked = c.log.count .unlocked := by
  rcases Client.pass_cases file c w chunk env with
    ⟨_, same⟩ | ⟨_, ⟨_, pc, ends, same⟩ | ⟨_, same | ⟨pc, onward, same⟩⟩⟩
  · simp [same]
  · rcases ends with rfl | ⟨_, rfl⟩ | ⟨_, fpos, rfl⟩ <;> simp [same]
  · simp [same]
  · rcases onward with ⟨_, rfl⟩ | ⟨_, fpos, rfl⟩ <;> simp [same]

theorem session_log {W E : Type} {file : DataFile W E} {s e : Client × W} {answers : List (Answer E)}
    (run : (session file).run s answers = some e) : ∃ more, e.1.log = s.1.log ++ more :=
  Machine.run_invariant (P := fun e => ∃ more, e.1.log = s.1.log ++ more)
    (by
      intro e answer next earlier _ step
      obtain ⟨more, before⟩ := earlier
      obtain ⟨new, after⟩ := Client.step_log step
      exact ⟨more ++ new, by rw [after, before, List.append_assoc]⟩)
    ⟨[], by simp⟩ Machine.along_true run

def passes {E : Type} (answers : List (Answer E)) : List (Chunk × Pass E) := answers.filterMap fun
  | .recv (.data chunk) env => some (chunk, env)
  | _ => none

theorem passes_append {E : Type} (xs ys : List (Answer E)) : passes (xs ++ ys) = passes xs ++ passes ys :=
  List.filterMap_append

@[simp] theorem passes_nil {E : Type} : passes ([] : List (Answer E)) = [] := rfl

@[simp] theorem passes_go {E : Type} (answers : List (Answer E)) : passes (.go :: answers) = passes answers := rfl

@[simp] theorem passes_read {E : Type} (env : E) (unsent : Nat) (answers : List (Answer E)) :
    passes (.read env unsent :: answers) = passes answers := rfl

@[simp] theorem passes_data {E : Type} (chunk : Chunk) (env : Pass E) (answers : List (Answer E)) :
    passes (.recv (.data chunk) env :: answers) = (chunk, env) :: passes answers := rfl

def receivedBytes {E : Type} (answers : List (Answer E)) : List UInt8 :=
  (passes answers).flatMap fun pass => pass.1.bytes

end Aesd
