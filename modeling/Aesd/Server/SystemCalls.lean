import Aesd.Library.Simulation
import Aesd.Server.Threads

/-!
# One system call at a time

The sessions and the timestamp threads cut at every call on the data file and the
socket. What they do between two of a session's calls the other threads cannot
tell from what they do before or after its whole pass, as long as nobody has
removed the file.
-/

namespace Aesd
open Library

/-- Between which calls a session is: not inside a pass or a turn of the reply loop, before `open`, before `write` or
`ioctl`, before `lseek`, before `close(data_fd)` because `lseek` failed, before `send`, before `close(data_fd)` because
`read` gave nothing, before `close(client_socket)`, in `cleanup` before `unlink` and before `exit`. -/
inductive PassStage where
  | between
  | received (chunk : Chunk)
  | opened (chunk : Chunk)
  | wrote (fpos : Int)
  | seekFailed
  | read (data : List UInt8) (fpos : Int)
  | readNothing
  | leaving
  | shut
  | unlinked

inductive FineThread where
  | client (c : Client) (stage : PassStage)
  | stamper (pc : StampPc)
  | stampOpened
  | stampWrote
  | stampFailed
  | stampShut
  | stampUnlinked

/-- `ending` is the thread that has removed the file to end the process, or has been killed. -/
structure FineServer (W : Type) where
  world : W
  mutex : Option Nat := none
  threads : Nat → FineThread
  ending : Option Nat := none
  exited : Bool := false

inductive FineAct (E : Type) where
  | go
  | recv (result : Recv)
  | opens (fails : Bool)
  | call (env : E)
  | lseek (env : E)
  | read (env : E)
  | send (unsent : Nat)
  | sigpipe
  | stampStop
  | stampWrite (line : List UInt8) (env : E)

namespace Client
variable {W E : Type}

/-- The `ioctl` of a pass, with what `strncmp` and `sscanf` make of the buffer, or its `write`. -/
def call (file : DataFile W E) (c : Client) (w : W) (chunk : Chunk) (env : E) : (Client × PassStage) × W :=
  if isSeek c.buffer then
    let c := c.did (.command (scanSeekto (c.buffer.drop 19)))
    match scanSeekto (c.buffer.drop 19) with
    | none => ((c.goto .failing, .between), w)
    | some seekto =>
      let res := file.ioctl env seekto w 0
      if res.1 = -1 then ((c.goto .failing, .between), w)
      else if newline ∈ chunk.bytes then ((c.goto (.replying res.2), .between), w)
      else ((c, .between), w)
  else
    let res := file.write env chunk.bytes w 0
    let c := c.did (.wrote chunk.bytes (chunk.bytes.take res.1.toNat))
    (if newline ∈ chunk.bytes then (c, .wrote res.2.2) else (c, .between), res.2.1)

def fineStep (file : DataFile W E) (c : Client) (stage : PassStage) (w : W) (act : FineAct E) :
    Option ((Client × PassStage) × W) :=
  match stage, c.pc, act with
  | .between, .start, .go => some (((c.did .locked).goto .receiving, .between), w)
  | .between, .receiving, .recv (.data chunk) => some ((c.receive chunk.bytes, .received chunk), w)
  | .between, .receiving, .recv _ => some ((c.goto .hungUp, .leaving), w)
  | .received chunk, _, .opens fails =>
    some (if fails then ((c.goto .failing, .between), w) else ((c.did .opened, .opened chunk), file.creat w))
  | .opened chunk, _, .call env => some (c.call file w chunk env)
  | .wrote fpos, _, .lseek env =>
    let pos := file.lseek env w fpos
    some (if pos.1 = -1 then (c, .seekFailed) else (c.goto (.replying pos.2), .between), w)
  | .seekFailed, _, .go => some (((c.did .closed).goto .failing, .between), w)
  | .between, .replying fpos, .read env =>
    let res := file.read env w fpos
    some ((c, if res.retval > 0 then .read res.data res.fpos else .readNothing), w)
  | .read data fpos, _, .send unsent =>
    some (((c.did (.sent data (data.take (data.length - unsent)))).goto (.replying fpos), .between), w)
  | .read _ _, _, .sigpipe => some ((c.goto .killed, .between), w)
  | .readNothing, _, .go => some (((c.did .closed).goto .unlocking, .between), w)
  | .between, .unlocking, .go => some (((c.did .unlocked).goto .returned, .leaving), w)
  | .leaving, _, .go => some ((c, .between), w)
  | .between, .failing, .go => some (((c.did .unlocked).goto .cleaning, .between), w)
  | .between, .cleaning, .go => some ((c, .shut), w)
  | .shut, _, .go => some ((c, .unlinked), file.unlink w)
  | .unlinked, _, .go => some ((c.goto .exited, .unlinked), w)
  | _, _, _ => none

end Client

namespace FineServer
variable {W E : Type}

def goto (s : FineServer W) (t : Nat) (thread : FineThread) : FineServer W :=
  { s with threads := Function.update s.threads t thread }

def moveClient (s : FineServer W) (t : Nat) (c : Client) (next : (Client × PassStage) × W) : FineServer W where
  world := next.2
  mutex := c.owner t s.mutex
  threads := Function.update s.threads t (.client next.1.1 next.1.2)
  ending := match next.1.2, next.1.1.pc with
    | .unlinked, _ | _, .killed => some t
    | _, _ => s.ending
  exited := next.1.1.Ends

end FineServer

def fineServer {W E : Type} (file : DataFile W E) : Machine (FineServer W) (Nat × FineAct E) where
  step s label :=
    let t := label.1
    if s.exited then none
    else match s.threads t, label.2 with
    | .client c stage, act =>
      if c.pc = .start ∧ s.mutex ≠ none then none
      else (c.fineStep file stage s.world act).map (s.moveClient t c)
    | .stamper .looping, .go => some (s.goto t (.stamper .waiting))
    | .stamper .looping, .stampStop => some (s.goto t (.stamper .finished))
    | .stamper .waiting, .go => if s.mutex = none then some { s.goto t (.stamper .writing) with mutex := some t } else none
    | .stamper .writing, .opens fails =>
      some (if fails then s.goto t .stampFailed else { s.goto t .stampOpened with world := file.creat s.world })
    | .stampOpened, .stampWrite line env => some { s.goto t .stampWrote with world := file.append env line s.world }
    | .stampWrote, .go => some (s.goto t (.stamper .unlocking))
    | .stamper .unlocking, .go => some { s.goto t (.stamper .looping) with mutex := none }
    | .stampFailed, .go => some (s.goto t .stampShut)
    | .stampShut, .go => some { s.goto t .stampUnlinked with world := file.unlink s.world, ending := some t }
    | .stampUnlinked, .go => some { s with exited := true }
    | _, _ => none

def Thread.fine : Thread → FineThread
  | .client c => .client c .between
  | .stamper pc => .stamper pc

def Server.fine {W : Type} (s : Server W) : FineServer W where
  world := s.world
  mutex := s.mutex
  threads t := (s.threads t).fine

variable {W E : Type} {file : DataFile W E} {w v : W} {c d : Client} {stage : PassStage} {act : FineAct E}
  {next : (Client × PassStage) × W} {chunk : Chunk} {s s' : FineServer W} {r : Server W} {t : Nat}
  {label : Nat × FineAct E} {labels : List (Nat × FineAct E)}

/-- `append` opens the file itself: another `open` before it changes nothing. -/
def DataFile.Reopens (file : DataFile W E) : Prop :=
  ∀ env buf w, file.append env buf (file.creat w) = file.append env buf w

theorem device_reopens : device.Reopens := fun _ _ _ => rfl

theorem regularFile_reopens : regularFile.Reopens := by
  intro env buf w
  cases w <;> rfl

/-! ### Within a pass -/

/-- Within no pass and no turn. -/
def PassStage.Outside : PassStage → Prop
  | .between | .leaving | .shut => True
  | _ => False

def Client.wrote (file : DataFile W E) (c : Client) (w : W) (chunk : Chunk) (env : E) : Client :=
  ((c.receive chunk.bytes).did .opened).did
    (.wrote chunk.bytes (chunk.bytes.take (file.write env chunk.bytes (file.creat w) 0).1.toNat))

/-- A session `d` that is within a pass which, seen whole, `c` has yet to make on the file `w`. -/
inductive Inside (file : DataFile W E) (w v : W) (c : Client) : Client → PassStage → Prop where
  | between : Inside file w v c c .between
  | leaving (gone : c.pc = .returned ∨ c.pc = .hungUp) : Inside file w v c c .leaving
  | shut (cleaning : c.pc = .cleaning) : Inside file w v c c .shut
  | received (receiving : c.pc = .receiving) (chunk : Chunk) (same : v = w) :
      Inside file w v c (c.receive chunk.bytes) (.received chunk)
  | opened (receiving : c.pc = .receiving) (chunk : Chunk) (created : v = file.creat w) :
      Inside file w v c ((c.receive chunk.bytes).did .opened) (.opened chunk)
  | wrote (receiving : c.pc = .receiving) (chunk : Chunk) (env : E) (data : isSeek (recvInto c.buffer chunk.bytes) = false)
      (line : newline ∈ chunk.bytes) (written : v = (file.write env chunk.bytes (file.creat w) 0).2.1) :
      Inside file w v c (c.wrote file w chunk env) (.wrote (file.write env chunk.bytes (file.creat w) 0).2.2)
  | seekFailed (receiving : c.pc = .receiving) (chunk : Chunk) (env seek : E)
      (failed : c.pass file w chunk { call := env, seek } = (((c.wrote file w chunk env).did .closed).goto .failing, v)) :
      Inside file w v c (c.wrote file w chunk env) .seekFailed
  | read (fpos : Int) (replying : c.pc = .replying fpos) (env : E) (some' : (file.read env w fpos).retval > 0)
      (same : v = w) : Inside file w v c c (.read (file.read env w fpos).data (file.read env w fpos).fpos)
  | readNothing (fpos : Int) (replying : c.pc = .replying fpos) (env : E) (none' : ¬ (file.read env w fpos).retval > 0)
      (same : v = w) : Inside file w v c c .readNothing

theorem Inside.pc (inside : Inside file w v c d stage) : d.pc = c.pc := by
  cases inside <;> rfl

theorem Inside.holds (inside : Inside file w v c d stage) (within : ¬ stage.Outside) : (Thread.client c).Holds := by
  cases inside with
  | between | leaving | shut => exact (within trivial).elim
  | received receiving | opened receiving | wrote receiving | seekFailed receiving => simp [Thread.Holds, receiving]
  | read fpos replying | readNothing fpos replying => simp [Thread.Holds, replying]

theorem Inside.anywhere (inside : Inside file w v c d stage) (outside : stage.Outside) (w' v' : W) :
    Inside file w' v' c d stage := by
  cases inside with
  | between => exact .between
  | leaving gone => exact .leaving gone
  | shut cleaning => exact .shut cleaning
  | _ => exact outside.elim

/-- What a call does to a session: it ends the pass or the turn, and the whole is one step of the session; or it goes on
within it; or it is no call on the file; or it removes the file or is the end of the process. -/
inductive Advance (file : DataFile W E) (w v : W) (c : Client) (stage : PassStage) (next : (Client × PassStage) × W) :
    Prop where
  | whole (answer : Answer E) (coarse : Client × W) (step : c.step file w answer = some coarse)
      (after : Inside file coarse.2 next.2 coarse.1 next.1.1 next.1.2) (outside : next.1.2.Outside)
      (alive : ¬ coarse.1.Ends)
      (world : (Thread.client c).Holds ∧ next.2 = coarse.2 ∨ ¬ (Thread.client c).Holds ∧ next.2 = v ∧ coarse.2 = w)
  | within (holds : (Thread.client c).Holds) (alive : ¬ c.Ends) (inside : Inside file w next.2 c next.1.1 next.1.2)
      (stays : ¬ next.1.2.Outside)
  | silent (before : stage.Outside) (inside : Inside file w next.2 c next.1.1 next.1.2) (outside : next.1.2.Outside)
      (alive : ¬ c.Ends) (mutex : ∀ t mutex, c.owner t mutex = mutex) (same : next.2 = v)
  | ends (ended : next.1.2 = .unlinked ∨ next.1.1.pc = .killed)

theorem Client.step_pass (receiving : c.pc = .receiving) (env : Pass E) :
    c.step file w (.recv (.data chunk) env) = some (c.pass file w chunk env) := by
  simp only [Client.step, receiving]

/-- The second call of a pass is its last, unless it writes a newline: then comes `lseek`. -/
theorem Client.pass_call (file : DataFile W E) (c : Client) (w : W) (chunk : Chunk) (env : E)
    {next : (Client × PassStage) × W}
    (called : ((c.receive chunk.bytes).did .opened).call file (file.creat w) chunk env = next) :
    let res := file.write env chunk.bytes (file.creat w) 0
    let wrote := c.wrote file w chunk env
    (next.1.2 = .between ∧ ∀ seek, c.pass file w chunk { call := env, seek } = (next.1.1, next.2)) ∨
    (isSeek (recvInto c.buffer chunk.bytes) = false ∧ newline ∈ chunk.bytes ∧ next = ((wrote, .wrote res.2.2), res.2.1) ∧
      ∀ seek, c.pass file w chunk { call := env, seek } =
        (if (file.lseek seek res.2.1 res.2.2).1 = -1 then (wrote.did .closed).goto .failing
          else wrote.goto (.replying (file.lseek seek res.2.1 res.2.2).2), res.2.1)) := by
  intro res wrote
  simp only [Client.call] at called
  simp only [Client.pass, Bool.false_eq_true, if_false]
  by_cases command : isSeek ((c.receive chunk.bytes).did .opened).buffer = true
  · rw [if_pos command] at called
    simp only [if_pos command]
    simp only [Client.did_buffer, Client.receive_buffer] at called ⊢
    cases parsed : scanSeekto ((recvInto c.buffer chunk.bytes).drop 19) with
    | none =>
      simp only [parsed] at called
      subst called
      exact Or.inl ⟨rfl, fun _ => rfl⟩
    | some seekto =>
      simp only [parsed] at called
      simp only
      by_cases refused : (file.ioctl env seekto (file.creat w) 0).1 = -1
      · rw [if_pos refused] at called
        subst called
        simp only [if_pos refused]
        exact Or.inl ⟨trivial, fun _ => trivial⟩
      · rw [if_neg refused] at called
        simp only [if_neg refused]
        by_cases line : newline ∈ chunk.bytes
        · rw [if_pos line] at called
          subst called
          simp only [if_pos line]
          exact Or.inl ⟨trivial, fun _ => trivial⟩
        · rw [if_neg line] at called
          subst called
          simp only [if_neg line]
          exact Or.inl ⟨trivial, fun _ => trivial⟩
  · rw [if_neg command] at called
    simp only [if_neg command]
    by_cases line : newline ∈ chunk.bytes
    · rw [if_pos line] at called
      subst called
      simp only [if_pos line]
      refine Or.inr ⟨by simpa using command, line, rfl, fun seek => ?_⟩
      split <;> rfl
    · rw [if_neg line] at called
      subst called
      simp only [if_neg line]
      exact Or.inl ⟨trivial, fun _ => trivial⟩

theorem between_step (v w : W) (quiet : (Thread.client c).Holds → v = w)
    (moved : c.fineStep file .between v act = some next) : Advance file w v c .between next := by
  cases here : c.pc with
  | start =>
    cases act <;> simp [Client.fineStep, here] at moved
    subst moved
    exact .whole .go ((c.did .locked).goto .receiving, w) (by simp only [Client.step, here]) .between trivial
      (by simp) (Or.inr ⟨by simp [Thread.Holds, here], rfl, rfl⟩)
  | receiving =>
    have holds : (Thread.client c).Holds := by simp [Thread.Holds, here]
    obtain rfl := quiet holds
    cases act with
    | recv result =>
      cases result with
      | data chunk =>
        obtain rfl : _ = next := by simpa [Client.fineStep, here] using moved
        exact .within holds (by simp [here]) (.received here chunk rfl) id
      | eof =>
        obtain rfl : _ = next := by simpa [Client.fineStep, here] using moved
        obtain ⟨env, _⟩ := file.readEnds v 0
        exact .whole (.recv .eof { call := env, seek := env }) (c.goto .hungUp, v) (by simp only [Client.step, here])
          (.leaving (Or.inr rfl)) trivial (by simp) (Or.inl ⟨holds, rfl⟩)
      | error =>
        obtain rfl : _ = next := by simpa [Client.fineStep, here] using moved
        obtain ⟨env, _⟩ := file.readEnds v 0
        exact .whole (.recv .error { call := env, seek := env }) (c.goto .hungUp, v) (by simp only [Client.step, here])
          (.leaving (Or.inr rfl)) trivial (by simp) (Or.inl ⟨holds, rfl⟩)
    | _ => simp [Client.fineStep, here] at moved
  | replying fpos =>
    have holds : (Thread.client c).Holds := by simp [Thread.Holds, here]
    obtain rfl := quiet holds
    cases act with
    | read env =>
      simp only [Client.fineStep, here, Option.some.injEq] at moved
      by_cases more : (file.read env v fpos).retval > 0
      · rw [if_pos more] at moved
        subst moved
        exact .within holds (by simp [here]) (.read fpos here env more rfl) id
      · rw [if_neg more] at moved
        subst moved
        exact .within holds (by simp [here]) (.readNothing fpos here env more rfl) id
    | _ => simp [Client.fineStep, here] at moved
  | unlocking =>
    have holds : (Thread.client c).Holds := by simp [Thread.Holds, here]
    obtain rfl := quiet holds
    cases act <;> simp [Client.fineStep, here] at moved
    subst moved
    exact .whole .go ((c.did .unlocked).goto .returned, v) (by simp only [Client.step, here]) (.leaving (Or.inl rfl)) trivial
      (by simp) (Or.inl ⟨holds, rfl⟩)
  | failing =>
    have holds : (Thread.client c).Holds := by simp [Thread.Holds, here]
    obtain rfl := quiet holds
    cases act <;> simp [Client.fineStep, here] at moved
    subst moved
    exact .whole .go ((c.did .unlocked).goto .cleaning, v) (by simp only [Client.step, here]) .between trivial (by simp)
      (Or.inl ⟨holds, rfl⟩)
  | cleaning =>
    cases act <;> simp [Client.fineStep, here] at moved
    subst moved
    exact .silent trivial (.shut here) trivial (by simp [here]) (by simp [Client.owner, here]) rfl
  | _ => cases act <;> simp [Client.fineStep, here] at moved

theorem Inside.step (inside : Inside file w v c d stage)
    (quiet : stage.Outside → (Thread.client c).Holds → v = w) (moved : d.fineStep file stage v act = some next) :
    Advance file w v c stage next := by
  cases inside with
  | between => exact between_step v w (quiet trivial) moved
  | leaving gone =>
    cases act <;> simp [Client.fineStep] at moved
    subst moved
    have owner (t : Nat) (mutex : Option Nat) : c.owner t mutex = mutex := by
      rcases gone with gone | gone <;> simp [Client.owner, gone]
    exact .silent trivial .between trivial (by rcases gone with gone | gone <;> simp [gone]) owner rfl
  | shut cleaning =>
    cases act <;> simp [Client.fineStep] at moved
    subst moved
    exact .ends (Or.inl rfl)
  | received receiving chunk same =>
    subst same
    have holds : (Thread.client c).Holds := by simp [Thread.Holds, receiving]
    cases act with
    | opens fails =>
      obtain rfl : _ = next := by simpa [Client.fineStep] using moved
      cases fails with
      | true =>
        obtain ⟨env, _⟩ := file.readEnds v 0
        refine .whole (.recv (.data chunk) { openFails := true, call := env, seek := env })
          ((c.receive chunk.bytes).goto .failing, v) ?_ .between trivial (by simp) (Or.inl ⟨holds, rfl⟩)
        simp only [Client.step_pass receiving, Client.pass_unopened]
      | false => exact .within holds (by simp [receiving]) (.opened receiving chunk rfl) id
    | _ => simp [Client.fineStep] at moved
  | opened receiving chunk created =>
    subst created
    have holds : (Thread.client c).Holds := by simp [Thread.Holds, receiving]
    cases act with
    | call env =>
      have called : ((c.receive chunk.bytes).did .opened).call file (file.creat w) chunk env = next := by
        simpa [Client.fineStep] using moved
      rcases Client.pass_call file c w chunk env called with ⟨ended, pass⟩ | ⟨data, line, rfl, _⟩
      · refine .whole (.recv (.data chunk) { call := env, seek := env }) (next.1.1, next.2) ?_ (ended ▸ .between)
          (ended ▸ trivial) ?_ (Or.inl ⟨holds, rfl⟩)
        · rw [Client.step_pass receiving, pass]
        · have pc := (Client.pass_pc file c w chunk { call := env, seek := env }).1
          rw [pass, receiving] at pc
          rcases pc with pc | pc | ⟨fpos, pc⟩ <;> simp [show next.1.1.pc = _ from pc]
      · exact .within holds (by simp [receiving]) (.wrote receiving chunk env data line rfl) id
    | _ => simp [Client.fineStep] at moved
  | wrote receiving chunk env data line written =>
    subst written
    have holds : (Thread.client c).Holds := by simp [Thread.Holds, receiving]
    cases act with
    | lseek seek =>
      simp only [Client.fineStep, Option.some.injEq] at moved
      rcases Client.pass_call file c w chunk env rfl with ⟨ended, _⟩ | ⟨_, _, _, pass⟩
      · simp [Client.call, data, line] at ended
      · have pass := pass seek
        split at moved
        · rename_i failed
          rw [if_pos failed] at pass
          subst moved
          exact .within holds (by simp [receiving]) (.seekFailed receiving chunk env seek pass) id
        · rename_i positioned
          rw [if_neg positioned] at pass
          subst moved
          exact .whole (.recv (.data chunk) { call := env, seek }) _
            ((Client.step_pass receiving _).trans (congrArg some pass)) .between trivial (by simp) (Or.inl ⟨holds, rfl⟩)
    | _ => simp [Client.fineStep] at moved
  | seekFailed receiving chunk env seek failed =>
    have holds : (Thread.client c).Holds := by simp [Thread.Holds, receiving]
    cases act <;> simp [Client.fineStep] at moved
    subst moved
    exact .whole (.recv (.data chunk) { call := env, seek }) _ ((Client.step_pass receiving _).trans (congrArg some failed))
      .between trivial (by simp) (Or.inl ⟨holds, rfl⟩)
  | read fpos replying env some' same =>
    subst same
    have holds : (Thread.client c).Holds := by simp [Thread.Holds, replying]
    cases act with
    | send unsent =>
      obtain rfl : _ = next := by simpa [Client.fineStep] using moved
      let data := (file.read env v fpos).data
      exact .whole (.read env unsent)
        ((c.did (.sent data (data.take (data.length - unsent)))).goto (.replying (file.read env v fpos).fpos), v)
        (by simp only [Client.step, replying, if_pos some', data]) .between trivial (by simp) (Or.inl ⟨holds, rfl⟩)
    | sigpipe =>
      obtain rfl : _ = next := by simpa [Client.fineStep] using moved
      exact .ends (Or.inr rfl)
    | _ => simp [Client.fineStep] at moved
  | readNothing fpos replying env none' same =>
    subst same
    have holds : (Thread.client c).Holds := by simp [Thread.Holds, replying]
    cases act <;> simp [Client.fineStep] at moved
    subst moved
    exact .whole (.read env 0) ((c.did .closed).goto .unlocking, v) (by simp only [Client.step, replying, if_neg none'])
      .between trivial (by simp) (Or.inl ⟨holds, rfl⟩)

/-! ### All threads -/

/-- A thread that is within nothing. -/
def FineThread.Between : FineThread → Prop
  | .client _ stage => stage.Outside
  | .stampOpened | .stampUnlinked => False
  | _ => True

inductive Matches (file : DataFile W E) (w v : W) : Thread → FineThread → Prop where
  | client {c d : Client} {stage : PassStage} (inside : Inside file w v c d stage) :
      Matches file w v (.client c) (.client d stage)
  | stamper (pc : StampPc) : Matches file w v (.stamper pc) (.stamper pc)
  | opened (created : v = file.creat w) : Matches file w v (.stamper .writing) .stampOpened
  | wrote : Matches file w v (.stamper .unlocking) .stampWrote
  | failed : Matches file w v (.stamper .writing) .stampFailed
  | shut : Matches file w v (.stamper .writing) .stampShut

theorem Matches.holds {thread : Thread} {fine : FineThread} (h : Matches file w v thread fine) (within : ¬ fine.Between) :
    thread.Holds := by
  cases h with
  | client inside => exact inside.holds within
  | opened => simp [Thread.Holds]
  | _ => exact (within trivial).elim

theorem Matches.elsewhere {thread : Thread} {fine : FineThread} (h : Matches file w v thread fine)
    (between : fine.Between) (w' v' : W) : Matches file w' v' thread fine := by
  cases h with
  | client inside => exact .client (inside.anywhere between w' v')
  | stamper pc => exact .stamper pc
  | opened => exact between.elim
  | wrote => exact .wrote
  | failed => exact .failed
  | shut => exact .shut

/-- While nobody has removed the file: the same mutex, each thread within what its whole counterpart is about to do,
and the same file when no thread is within anything. -/
structure FineServer.Represents (file : DataFile W E) (s : FineServer W) (r : Server W) : Prop where
  going : s.exited = false
  running : r.exited = false
  mutex : s.mutex = r.mutex
  exclusive : Exclusive Thread.Holds r.mutex r.threads
  threads : ∀ t, Matches file r.world s.world (r.threads t) (s.threads t)
  quiet : (∀ t, (s.threads t).Between) → s.world = r.world

namespace FineServer.Represents

theorem others (h : s.Represents file r) (inside : (r.threads t).Holds) : ∀ u ≠ t, (s.threads u).Between := by
  intro u other
  by_contra within
  exact other (h.exclusive.unique ((h.threads u).holds within) inside)

/-- The thread with the mutex moves: the others are within nothing. -/
theorem holder (h : s.Represents file r) (inside : (r.threads t).Holds) {s' : FineServer W} {r' : Server W}
    {thread : Thread} {fine : FineThread} (going : s'.exited = false) (running : r'.exited = false)
    (mutex : s'.mutex = r'.mutex) (exclusive : Exclusive Thread.Holds r'.mutex r'.threads)
    (coarse : r'.threads = Function.update r.threads t thread) (moved : s'.threads = Function.update s.threads t fine)
    (here : Matches file r'.world s'.world thread fine) (world : fine.Between → s'.world = r'.world) :
    s'.Represents file r' where
  going := going
  running := running
  mutex := mutex
  exclusive := exclusive
  threads u := by
    rw [coarse, moved]
    by_cases same : u = t
    · subst same
      rw [Function.update_self, Function.update_self]
      exact here
    · rw [Function.update_of_ne same, Function.update_of_ne same]
      exact (h.threads u).elsewhere (h.others inside u same) _ _
  quiet between := by
    apply world
    have here := between t
    rwa [moved, Function.update_self] at here

/-- A thread moves that is within nothing and stays so, and the files are left alone. -/
theorem outsider (h : s.Represents file r) {s' : FineServer W} {r' : Server W} {thread : Thread} {fine : FineThread}
    (going : s'.exited = false) (running : r'.exited = false) (mutex : s'.mutex = r'.mutex)
    (exclusive : Exclusive Thread.Holds r'.mutex r'.threads) (coarse : r'.threads = Function.update r.threads t thread)
    (moved : s'.threads = Function.update s.threads t fine) (before : (s.threads t).Between)
    (here : Matches file r'.world s'.world thread fine) (world : s'.world = s.world) (world' : r'.world = r.world) :
    s'.Represents file r' where
  going := going
  running := running
  mutex := mutex
  exclusive := exclusive
  threads u := by
    rw [coarse, moved]
    by_cases same : u = t
    · subst same
      rw [Function.update_self, Function.update_self]
      exact here
    · rw [Function.update_of_ne same, Function.update_of_ne same, world, world']
      exact h.threads u
  quiet between := by
    rw [world, world']
    apply h.quiet
    intro u
    by_cases same : u = t
    · subst same
      exact before
    · have there := between u
      rwa [moved, Function.update_of_ne same] at there

/-- A thread makes a call that is none on the file. -/
theorem silent (h : s.Represents file r) {s' : FineServer W} {fine : FineThread} (going : s'.exited = false)
    (mutex : s'.mutex = s.mutex) (moved : s'.threads = Function.update s.threads t fine) (before : (s.threads t).Between)
    (here : Matches file r.world s'.world (r.threads t) fine) (world : s'.world = s.world) : s'.Represents file r :=
  h.outsider going h.running (mutex.trans h.mutex) h.exclusive (Function.update_eq_self ..).symm moved before here world rfl

end FineServer.Represents

/-! ### One step -/

inductive FineStampStep (file : DataFile W E) (s : FineServer W) (t : Nat) :
    FineThread → FineAct E → FineServer W → Prop where
  | wait : FineStampStep file s t (.stamper .looping) .go (s.goto t (.stamper .waiting))
  | stop : FineStampStep file s t (.stamper .looping) .stampStop (s.goto t (.stamper .finished))
  | lock (free : s.mutex = none) :
      FineStampStep file s t (.stamper .waiting) .go { s.goto t (.stamper .writing) with mutex := some t }
  | fail : FineStampStep file s t (.stamper .writing) (.opens true) (s.goto t .stampFailed)
  | opens : FineStampStep file s t (.stamper .writing) (.opens false)
      { s.goto t .stampOpened with world := file.creat s.world }
  | write (line : List UInt8) (env : E) : FineStampStep file s t .stampOpened (.stampWrite line env)
      { s.goto t .stampWrote with world := file.append env line s.world }
  | close : FineStampStep file s t .stampWrote .go (s.goto t (.stamper .unlocking))
  | unlock : FineStampStep file s t (.stamper .unlocking) .go { s.goto t (.stamper .looping) with mutex := none }
  | shut : FineStampStep file s t .stampFailed .go (s.goto t .stampShut)
  | unlink : FineStampStep file s t .stampShut .go
      { s.goto t .stampUnlinked with world := file.unlink s.world, ending := some t }
  | exit : FineStampStep file s t .stampUnlinked .go { s with exited := true }

theorem fine_server_step (step : (fineServer file).step s (t, act) = some s') : s.exited = false ∧
    ((∃ c stage next, s.threads t = .client c stage ∧ (c.pc = .start → s.mutex = none) ∧
      c.fineStep file stage s.world act = some next ∧ s' = s.moveClient t c next) ∨
    ∃ thread, s.threads t = thread ∧ FineStampStep file s t thread act s') := by
  simp only [fineServer] at step
  split at step
  · cases step
  rename_i running
  refine ⟨by simpa using running, ?_⟩
  split at step
  case h_1 _ c stage here =>
    split at step
    · cases step
    · rename_i unblocked
      obtain ⟨next, moved, same⟩ := Option.map_eq_some_iff.mp step
      exact Or.inl ⟨c, stage, next, here, fun start => not_not.mp fun held => unblocked ⟨start, held⟩, moved, same.symm⟩
  case h_2 here => obtain rfl := Option.some.inj step; exact Or.inr ⟨_, here, .wait⟩
  case h_3 here => obtain rfl := Option.some.inj step; exact Or.inr ⟨_, here, .stop⟩
  case h_4 here =>
    split at step
    · rename_i free
      obtain rfl := Option.some.inj step
      exact Or.inr ⟨_, here, .lock free⟩
    · cases step
  case h_5 fails here =>
    cases fails with
    | true => obtain rfl := Option.some.inj step; exact Or.inr ⟨_, here, .fail⟩
    | false => obtain rfl := Option.some.inj step; exact Or.inr ⟨_, here, .opens⟩
  case h_6 line env here => obtain rfl := Option.some.inj step; exact Or.inr ⟨_, here, .write line env⟩
  case h_7 here => obtain rfl := Option.some.inj step; exact Or.inr ⟨_, here, .close⟩
  case h_8 here => obtain rfl := Option.some.inj step; exact Or.inr ⟨_, here, .unlock⟩
  case h_9 here => obtain rfl := Option.some.inj step; exact Or.inr ⟨_, here, .shut⟩
  case h_10 here => obtain rfl := Option.some.inj step; exact Or.inr ⟨_, here, .unlink⟩
  case h_11 here => obtain rfl := Option.some.inj step; exact Or.inr ⟨_, here, .exit⟩
  case h_12 => cases step

theorem Inside.owner (inside : Inside file w v c d stage) (within : ¬ stage.Outside) (t : Nat) (mutex : Option Nat) :
    c.owner t mutex = mutex := by
  cases inside with
  | between | leaving | shut => exact (within trivial).elim
  | received receiving | opened receiving | wrote receiving | seekFailed receiving => simp [Client.owner, receiving]
  | read fpos replying | readNothing fpos replying => simp [Client.owner, replying]

theorem FineServer.Represents.client_step (h : s.Represents file r)
    (here : s.threads t = .client d stage) (free : d.pc = .start → s.mutex = none)
    (moved : d.fineStep file stage s.world act = some next) :
    (s.moveClient t d next).ending ≠ none ∨
      ∃ whole r', (server file).run r whole = some r' ∧ (s.moveClient t d next).Represents file r' := by
  have pair := h.threads t
  rw [here] at pair
  cases at' : r.threads t with
  | stamper pc =>
    rw [at'] at pair
    cases pair
  | client c =>
    rw [at'] at pair
    cases pair with
    | client inside =>
      have quiet : stage.Outside → (Thread.client c).Holds → s.world = r.world := by
        intro outside holds
        apply h.quiet
        intro u
        by_cases same : u = t
        · subst same
          rw [here]
          exact outside
        · exact h.others (by rw [at']; exact holds) u same
      have owner (mutex : Option Nat) : d.owner t mutex = c.owner t mutex := by
        unfold Client.owner
        rw [inside.pc]
      cases inside.step quiet moved with
      | ends ended =>
        refine Or.inl ?_
        simp only [moveClient]
        split
        · simp
        · simp
        · rename_i linked alive
          exact (ended.elim linked alive).elim
      | silent before after outside alive mutex same =>
        have going : (s.moveClient t d next).exited = false := by simpa [moveClient, after.pc] using alive
        have kept : (s.moveClient t d next).mutex = s.mutex := by simp only [moveClient, owner, mutex]
        have there : Matches file r.world (s.moveClient t d next).world (r.threads t) (.client next.1.1 next.1.2) := by
          rw [at']
          exact .client after
        exact Or.inr ⟨[], r, rfl, h.silent going kept rfl (by rw [here]; exact before) there same⟩
      | within holds alive after stays =>
        have going : (s.moveClient t d next).exited = false := by simpa [moveClient, after.pc] using alive
        have here : Matches file r.world (s.moveClient t d next).world (.client c) (.client next.1.1 next.1.2) :=
          .client after
        refine Or.inr ⟨[], r, rfl, h.holder (by rw [at']; exact holds) going h.running ?_ h.exclusive ?_ rfl here
          fun outside => (stays outside).elim⟩
        · simp only [moveClient, owner, after.owner stays, h.mutex]
        · rw [← at', Function.update_eq_self]
      | whole answer coarse step after outside alive world =>
        have taken : (server file).step r (t, .client answer) = some
            { world := coarse.2
              mutex := c.owner t r.mutex
              threads := Function.update r.threads t (.client coarse.1)
              exited := coarse.1.Ends } := by
          have unblocked : ¬ (c.pc = .start ∧ r.mutex ≠ none) := by
            rintro ⟨start, held⟩
            exact held (h.mutex ▸ free (inside.pc.trans start))
          simp only [server, h.running, at', if_neg unblocked, step, Option.map_some, Bool.false_eq_true, if_false]
        refine Or.inr ⟨[(t, .client answer)], _, Machine.run_cons.mpr ⟨_, taken, rfl⟩, ?_⟩
        have exclusive := server_exclusive h.exclusive taken
        have going : (s.moveClient t d next).exited = false := by simpa [moveClient, after.pc] using alive
        have running : decide coarse.1.Ends = false := by simpa using alive
        have mutex : (s.moveClient t d next).mutex = c.owner t r.mutex := by simp only [moveClient, owner, h.mutex]
        rcases world with ⟨holds, written⟩ | ⟨outsider, kept, kept'⟩
        · exact h.holder (by rw [at']; exact holds) going running mutex exclusive rfl rfl (.client after) fun _ => written
        · refine h.outsider going running mutex exclusive rfl rfl ?_ (.client after) kept kept'
          by_contra within
          exact outsider (at' ▸ (h.threads t).holds within)

theorem Matches.stamper_eq {thread : Thread} {pc : StampPc} (h : Matches file w v thread (.stamper pc)) :
    thread = .stamper pc := by
  cases h
  rfl

theorem Matches.opened_eq {thread : Thread} (h : Matches file w v thread .stampOpened) :
    thread = .stamper .writing ∧ v = file.creat w := by
  cases h with
  | opened created => exact ⟨rfl, created⟩

theorem Matches.wrote_eq {thread : Thread} (h : Matches file w v thread .stampWrote) : thread = .stamper .unlocking := by
  cases h
  rfl

theorem Matches.cleaning_eq {thread : Thread} {fine : FineThread} (h : Matches file w v thread fine)
    (cleaning : fine = .stampFailed ∨ fine = .stampShut) : thread = .stamper .writing := by
  rcases cleaning with rfl | rfl <;> cases h <;> rfl

theorem Matches.not_unlinked {thread : Thread} : ¬ Matches file w v thread .stampUnlinked := by
  intro h
  cases h

theorem FineServer.Represents.stamp_step (h : s.Represents file r)
    (reopens : file.Reopens) {fine : FineThread}
    (here : s.threads t = fine) (stamped : FineStampStep file s t fine act s') :
    s'.ending ≠ none ∨ ∃ whole r', (server file).run r whole = some r' ∧ s'.Represents file r' := by
  have pair := here ▸ h.threads t
  have settled (between : fine.Between) (holds : (r.threads t).Holds) : s.world = r.world := by
    apply h.quiet
    intro u
    by_cases same : u = t
    · subst same
      rw [here]
      exact between
    · exact h.others holds u same
  have one {act : Act E} {r' : Server W} (step : (server file).step r (t, act) = some r') :
      (server file).run r [(t, act)] = some r' := Machine.run_cons.mpr ⟨r', step, rfl⟩
  cases stamped with
  | unlink => exact Or.inl (by simp)
  | exit => exact (Matches.not_unlinked pair).elim
  | fail =>
    have at' := pair.stamper_eq
    exact Or.inr ⟨[], r, rfl, h.silent h.going rfl rfl (here ▸ trivial) (at' ▸ .failed) rfl⟩
  | shut =>
    have at' := pair.cleaning_eq (Or.inl rfl)
    exact Or.inr ⟨[], r, rfl, h.silent h.going rfl rfl (here ▸ trivial) (at' ▸ .shut) rfl⟩
  | close =>
    have at' := pair.wrote_eq
    exact Or.inr ⟨[], r, rfl, h.silent h.going rfl rfl (here ▸ trivial) (at' ▸ .stamper _) rfl⟩
  | wait =>
    have at' := pair.stamper_eq
    have step : (server file).step r (t, .stampGo) =
        some { r with threads := Function.update r.threads t (.stamper .waiting) } := by simp [server, h.running, at']
    exact Or.inr ⟨_, _, one step, h.outsider h.going h.running h.mutex (server_exclusive h.exclusive step) rfl rfl
      (here ▸ trivial) (.stamper _) rfl rfl⟩
  | stop =>
    have at' := pair.stamper_eq
    have step : (server file).step r (t, .stampStop) =
        some { r with threads := Function.update r.threads t (.stamper .finished) } := by simp [server, h.running, at']
    exact Or.inr ⟨_, _, one step, h.outsider h.going h.running h.mutex (server_exclusive h.exclusive step) rfl rfl
      (here ▸ trivial) (.stamper _) rfl rfl⟩
  | lock free =>
    have at' := pair.stamper_eq
    have step : (server file).step r (t, .stampGo) =
        some { r with mutex := some t, threads := Function.update r.threads t (.stamper .writing) } := by
      simp [server, h.running, at', ← h.mutex, free]
    exact Or.inr ⟨_, _, one step, h.outsider h.going h.running rfl (server_exclusive h.exclusive step) rfl rfl
      (here ▸ trivial) (.stamper _) rfl rfl⟩
  | opens =>
    have at' := pair.stamper_eq
    have holds : (r.threads t).Holds := by simp [Thread.Holds, at']
    refine Or.inr ⟨[], r, rfl, h.holder holds h.going h.running h.mutex h.exclusive ?_ rfl (.opened ?_) (fun no => no.elim)⟩
    · rw [← at', Function.update_eq_self]
    · exact congrArg file.creat (settled trivial holds)
  | write line env =>
    obtain ⟨at', created⟩ := pair.opened_eq
    have holds : (r.threads t).Holds := by simp [Thread.Holds, at']
    have step : (server file).step r (t, .stamp line false env) = some { r with
        world := file.append env line r.world
        threads := Function.update r.threads t (.stamper .unlocking) } := by simp [server, h.running, at']
    refine Or.inr ⟨_, _, one step, h.holder holds h.going h.running h.mutex (server_exclusive h.exclusive step) rfl rfl
      .wrote fun _ => ?_⟩
    show file.append env line s.world = file.append env line r.world
    rw [created, reopens]
  | unlock =>
    have at' := pair.stamper_eq
    have holds : (r.threads t).Holds := by simp [Thread.Holds, at']
    have step : (server file).step r (t, .stampGo) =
        some { r with mutex := none, threads := Function.update r.threads t (.stamper .looping) } := by
      simp [server, h.running, at']
    exact Or.inr ⟨_, _, one step, h.holder holds h.going h.running rfl (server_exclusive h.exclusive step) rfl rfl
      (.stamper _) fun _ => settled trivial holds⟩

/-! ### Every run -/

theorem FineServer.Represents.step (h : s.Represents file r)
    (reopens : file.Reopens) (step : (fineServer file).step s label = some s') :
    s'.ending ≠ none ∨ ∃ whole r', (server file).run r whole = some r' ∧ s'.Represents file r' := by
  obtain ⟨t, act⟩ := label
  obtain ⟨_, ⟨d, stage, next, here, free, moved, rfl⟩ | ⟨fine, here, stamped⟩⟩ := fine_server_step step
  · exact h.client_step here free moved
  · exact h.stamp_step reopens here stamped

theorem ending_step (ending : s.ending ≠ none) (step : (fineServer file).step s label = some s') : s'.ending ≠ none := by
  obtain ⟨t, act⟩ := label
  obtain ⟨_, ⟨d, stage, next, here, free, moved, rfl⟩ | ⟨fine, here, stamped⟩⟩ := fine_server_step step
  · unfold FineServer.moveClient
    split
    · simp
    · simp
    · exact ending
  · cases stamped <;> first | exact ending | simp

theorem Matches.fine (thread : Thread) : Matches file w v thread thread.fine := by
  cases thread with
  | client c => exact .client .between
  | stamper pc => exact .stamper pc

theorem Server.Fresh.represents {s₀ : Server W} (fresh : s₀.Fresh) : s₀.fine.Represents file s₀ where
  going := rfl
  running := fresh.running
  mutex := rfl
  exclusive := fresh.exclusive
  threads t := .fine (s₀.threads t)
  quiet _ := rfl

/-- Up to the `unlink` of a thread that ends the process, or to a SIGPIPE, the calls of all threads come out as in
some run in which every pass, every turn of the reply loop and every stamp is one step. -/
theorem calls_serialise {s₀ : Server W} (reopens : file.Reopens) (fresh : s₀.Fresh)
    (run : (fineServer file).run s₀.fine labels = some s) (going : s.ending = none) :
    ∃ whole r, (server file).run s₀ whole = some r ∧ s.Represents file r := by
  rcases Machine.represented_until (P := fun s => s.ending ≠ none) ending_step (fun h => h.step reopens) fresh.represents
    run with ending | serial
  · exact (ending going).elim
  · exact serial

/-- A session between its `write` and its `lseek`, with a timestamp thread waiting: the file already has the line, in
the whole run the pass is still to come. -/
theorem calls_serialise_wrote :
    let labels : List (Nat × FineAct FileEnv) := [(1, .go), (0, .go),
      (1, .recv (.data ⟨[97, newline], by decide, by decide⟩)), (1, .opens false), (1, .call {})]
    let s := ((fineServer regularFile).run oneStamper.fine labels).getD oneStamper.fine
    s.world = some [97, newline] ∧ s.mutex = some 1 ∧
      ∃ whole r, (server regularFile).run oneStamper whole = some r ∧ s.Represents regularFile r := by
  intro labels s
  have run := Machine.run_getD (m := fineServer regularFile) (s := oneStamper.fine) (l := labels) (by decide +kernel)
    oneStamper.fine
  refine ⟨by decide +kernel, by decide +kernel,
    calls_serialise regularFile_reopens oneStamper_fresh run (by decide +kernel)⟩

end Aesd
