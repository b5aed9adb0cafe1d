import Aesd.Library.Nesting
import Aesd.Server.AppendLaw

/-!
# The old server

`aesdsocket_old.c` once it listens: `main` takes one connection after the other
and serves it before the next. Each chunk is appended to the data file, which is
sent back whole after the first newline.
-/

namespace Aesd
open Library

/-- At `while (running)`, in `accept`, in the receive loop, in the reply loop at a position, ended by `cleanup`, ended
by a signal it does not catch. -/
inductive OldPc where
  | looping
  | accepting
  | receiving
  | replying (fpos : Int)
  | exited
  | killed
  deriving DecidableEq

structure OldServer where
  pc : OldPc := .looping
  running : Bool := true
  world : Option (List UInt8) := none
  reply : List UInt8 := []

/-- What the kernel answers: to both `open` calls and to `write` for a chunk, to `read` and `send` in the reply loop.
A `send` to a connection the client has reset raises SIGPIPE. -/
inductive OldAct where
  | signal
  | test
  | accept (ok : Bool)
  | recv (result : Recv) (openFails : Bool) (env : FileEnv) (reopenFails : Bool)
  | read (env : FileEnv) (unsent : Nat)
  | sigpipe (env : FileEnv)

namespace OldServer

def content (s : OldServer) : List UInt8 := s.world.getD []

def cleanup (s : OldServer) : OldServer := { s with pc := .exited, world := regularFile.unlink s.world }

/-- A pass through the receive loop of `handle_client`. -/
def pass (s : OldServer) (chunk : Chunk) (openFails : Bool) (env : FileEnv) (reopenFails : Bool) : OldServer :=
  if openFails then s.cleanup
  else
    let s := { s with world := regularFile.append env chunk.bytes s.world }
    if newline ∈ chunk.bytes then
      if reopenFails then s.cleanup else { s with pc := .replying 0 }
    else s

def step (s : OldServer) (act : OldAct) : Option OldServer :=
  match s.pc, act with
  | .exited, _ | .killed, _ => none
  | _, .signal => some { s with running := false }
  | .looping, .test => some (if s.running then { s with pc := .accepting } else s.cleanup)
  | .accepting, .accept ok => some (if ok then { s with pc := .receiving, reply := [] } else s.cleanup)
  | .receiving, .recv (.data chunk) openFails env reopenFails => some (s.pass chunk openFails env reopenFails)
  | .receiving, .recv _ _ _ _ => some { s with pc := .looping }
  | .replying fpos, .read env unsent =>
    let res := regularFile.read env s.world fpos
    if res.retval > 0 then
      some { s with pc := .replying res.fpos, reply := s.reply ++ res.data.take (res.data.length - unsent) }
    else some { s with pc := .looping }
  | .replying fpos, .sigpipe env =>
    if (regularFile.read env s.world fpos).retval > 0 then some { s with pc := .killed } else none
  | _, _ => none

/-- What of a chunk is appended. -/
def appended (_ : OldServer) : OldAct → List UInt8
  | .recv (.data chunk) false env _ => if env.fails then [] else chunk.bytes.take (chunk.bytes.length - env.short)
  | _ => []

/-- The chunks that are written. -/
def journaled (_ : OldServer) : OldAct → List (List UInt8)
  | .recv (.data chunk) false _ _ => [chunk.bytes]
  | _ => []

def accepts (_ : OldServer) : OldAct → List Unit
  | .accept true => [()]
  | _ => []

end OldServer

def oldServer : Machine OldServer OldAct where
  step := OldServer.step

inductive OldFd where
  | server
  | client
  | data
  deriving DecidableEq

namespace OldServer

/-- The descriptors a step opens and closes. -/
def uses (s : OldServer) : OldAct → List (Use OldFd)
  | .test => if s.running then [] else [.release .server]
  | .accept ok => if ok then [.acquire .client] else [.release .server]
  | .recv (.data chunk) openFails _ reopenFails =>
    if openFails then [.release .server]
    else [.acquire .data, .release .data] ++
      if newline ∈ chunk.bytes then if reopenFails then [.release .server] else [.acquire .data] else []
  | .recv _ _ _ _ => [.release .client]
  | .read env _ =>
    match s.pc with
    | .replying fpos => if (regularFile.read env s.world fpos).retval > 0 then [] else [.release .data, .release .client]
    | _ => []
  | .signal | .sigpipe _ => []

/-- The descriptors the program has open; of a killed one the kernel closes them. -/
def held (s : OldServer) : List OldFd :=
  match s.pc with
  | .looping | .accepting => [.server]
  | .receiving => [.client, .server]
  | .replying _ | .killed => [.data, .client, .server]
  | .exited => []

/-- The data file opens. -/
def Opens (_ : OldServer) : OldAct → Prop
  | .recv (.data chunk) openFails _ reopenFails => openFails = false ∧ (newline ∈ chunk.bytes → reopenFails = false)
  | _ => True

/-- Nothing is lost on the way to the client. -/
def Answers (_ : OldServer) : OldAct → Prop
  | .read env unsent => env = {} ∧ unsent = 0
  | _ => True

/-- `write` takes the whole chunk. -/
def Writes (_ : OldServer) : OldAct → Prop
  | .recv (.data _) _ env _ => env = {}
  | _ => True

instance (s : OldServer) : ∀ act, Decidable (s.Opens act)
  | .recv (.data _) _ _ _ => inferInstanceAs (Decidable (_ ∧ (_ → _)))
  | .recv .eof _ _ _ | .recv .error _ _ _ | .signal | .test | .accept _ | .read _ _ | .sigpipe _ => isTrue trivial

instance (s : OldServer) : ∀ act, Decidable (s.Writes act)
  | .recv (.data _) _ env _ => inferInstanceAs (Decidable (env = _))
  | .recv .eof _ _ _ | .recv .error _ _ _ | .signal | .test | .accept _ | .read _ _ | .sigpipe _ => isTrue trivial

instance (s : OldServer) : ∀ act, Decidable (s.Answers act)
  | .read _ _ => inferInstanceAs (Decidable (_ ∧ _))
  | .recv _ _ _ _ | .signal | .test | .accept _ | .sigpipe _ => isTrue trivial

end OldServer

variable {s u s₀ : OldServer} {act : OldAct} {acts : List OldAct}

/-- One step, with what it finds. -/
inductive OldMoves (s : OldServer) : OldAct → OldServer → Prop where
  | signal : OldMoves s .signal { s with running := false }
  | again (here : s.pc = .looping) (on : s.running = true) : OldMoves s .test { s with pc := .accepting }
  | leave (here : s.pc = .looping) (off : s.running = false) : OldMoves s .test s.cleanup
  | accept (here : s.pc = .accepting) : OldMoves s (.accept true) { s with pc := .receiving, reply := [] }
  | refuse (here : s.pc = .accepting) : OldMoves s (.accept false) s.cleanup
  | unopened (here : s.pc = .receiving) (chunk : Chunk) (env : FileEnv) (reopenFails : Bool) :
      OldMoves s (.recv (.data chunk) true env reopenFails) s.cleanup
  | append (here : s.pc = .receiving) (chunk : Chunk) (env : FileEnv) (reopenFails : Bool)
      (more : newline ∉ chunk.bytes) : OldMoves s (.recv (.data chunk) false env reopenFails)
        { s with world := regularFile.append env chunk.bytes s.world }
  | unread (here : s.pc = .receiving) (chunk : Chunk) (env : FileEnv) (line : newline ∈ chunk.bytes) :
      OldMoves s (.recv (.data chunk) false env true)
        { s with world := regularFile.append env chunk.bytes s.world }.cleanup
  | line (here : s.pc = .receiving) (chunk : Chunk) (env : FileEnv) (line : newline ∈ chunk.bytes) :
      OldMoves s (.recv (.data chunk) false env false)
        { s with world := regularFile.append env chunk.bytes s.world, pc := .replying 0 }
  | hangUp (here : s.pc = .receiving) (result : Recv) (openFails : Bool) (env : FileEnv) (reopenFails : Bool)
      (nothing : ∀ chunk, result ≠ .data chunk) :
      OldMoves s (.recv result openFails env reopenFails) { s with pc := .looping }
  | send (fpos : Int) (here : s.pc = .replying fpos) (env : FileEnv) (unsent : Nat)
      (more : (regularFile.read env s.world fpos).retval > 0) : OldMoves s (.read env unsent)
        { s with
          pc := .replying (regularFile.read env s.world fpos).fpos
          reply := s.reply ++ (regularFile.read env s.world fpos).data.take
            ((regularFile.read env s.world fpos).data.length - unsent) }
  | done (fpos : Int) (here : s.pc = .replying fpos) (env : FileEnv) (unsent : Nat)
      (ends : ¬ (regularFile.read env s.world fpos).retval > 0) : OldMoves s (.read env unsent) { s with pc := .looping }
  | killed (fpos : Int) (here : s.pc = .replying fpos) (env : FileEnv)
      (more : (regularFile.read env s.world fpos).retval > 0) : OldMoves s (.sigpipe env) { s with pc := .killed }

theorem old_step (step : oldServer.step s act = some u) : s.pc ≠ .exited ∧ OldMoves s act u := by
  simp only [oldServer, OldServer.step] at step
  split at step
  · cases step
  · cases step
  · rename_i notExited _
    obtain rfl := Option.some.inj step
    exact ⟨notExited, .signal⟩
  · rename_i here
    obtain rfl := Option.some.inj step
    refine ⟨by simp [here], ?_⟩
    by_cases on : s.running = true
    · rw [if_pos on]
      exact .again here on
    · rw [if_neg on]
      exact .leave here (by simpa using on)
  · rename_i ok here
    obtain rfl := Option.some.inj step
    refine ⟨by simp [here], ?_⟩
    cases ok with
    | true => exact .accept here
    | false => exact .refuse here
  · rename_i chunk openFails env reopenFails here
    obtain rfl := Option.some.inj step
    refine ⟨by simp [here], ?_⟩
    cases openFails with
    | true => exact .unopened here chunk env reopenFails
    | false =>
      by_cases line : newline ∈ chunk.bytes
      · cases reopenFails with
        | true => simpa [OldServer.pass, line] using OldMoves.unread here chunk env line
        | false => simpa [OldServer.pass, line] using OldMoves.line here chunk env line
      · simpa [OldServer.pass, line] using OldMoves.append here chunk env reopenFails line
  · rename_i result openFails env reopenFails nothing here
    obtain rfl := Option.some.inj step
    exact ⟨by simp [here], .hangUp here result openFails env reopenFails nothing⟩
  · rename_i fpos env unsent here
    refine ⟨by simp [here], ?_⟩
    split at step
    · rename_i more
      obtain rfl := Option.some.inj step
      exact .send fpos here env unsent more
    · rename_i ends
      obtain rfl := Option.some.inj step
      exact .done fpos here env unsent ends
  · rename_i fpos env here
    refine ⟨by simp [here], ?_⟩
    split at step
    · rename_i more
      obtain rfl := Option.some.inj step
      exact .killed fpos here env more
    · cases step
  · cases step

/-! ### The file and the replies -/

theorem append_content (env : FileEnv) (bytes : List UInt8) (content : Option (List UInt8)) :
    (regularFile.append env bytes content).getD [] =
      content.getD [] ++ if env.fails then [] else bytes.take (bytes.length - env.short) := by
  simp only [regularFile]
  split <;> simp

/-- A read takes the reply further, up to the end of the file. -/
theorem regular_read (content : Option (List UInt8)) {q : Nat} (inside : q ≤ (content.getD []).length) :
    let res := regularFile.read {} content q
    (res.retval > 0 → ∃ q' : Nat, res.fpos = q' ∧ q' ≤ (content.getD []).length ∧
      (content.getD []).take q ++ res.data = (content.getD []).take q') ∧
    (¬ res.retval > 0 → q = (content.getD []).length) := by
  intro res
  have data : res.data = ((content.getD []).drop q).take 1024 := rfl
  have moved : res.fpos = (q : Int) + res.data.length := rfl
  have returned : res.retval = res.data.length := rfl
  have size := congrArg List.length data
  rw [List.length_take, List.length_drop] at size
  constructor
  · intro _
    refine ⟨q + res.data.length, by rw [moved]; rfl, by omega, ?_⟩
    rw [List.take_add, data, List.length_take]
    congr 1
    rw [List.take_eq_take_iff]
    omega
  · intro ends
    omega

/-- The file has all that was appended, until `cleanup` removes it, and a session starts with no reply. -/
structure Stored (s₀ : OldServer) (acts : List OldAct) (s : OldServer) : Prop where
  stored : s.pc ≠ .exited → s.content = s₀.content ++ oldServer.observe OldServer.appended s₀ acts
  removed : s.pc = .exited → s.world = none
  receiving : s.pc = .receiving → s.reply = []

theorem Stored.same (h : Stored s₀ acts s) (notExited : s.pc ≠ .exited) (nothing : s.appended act = [])
    (reached : oldServer.run s₀ acts = some s) (world : u.world = s.world) :
    u.content = s₀.content ++ oldServer.observe OldServer.appended s₀ (acts ++ [act]) := by
  rw [Machine.observe_snoc reached, nothing, List.append_nil, ← h.stored notExited, OldServer.content, world]
  rfl

theorem Stored.step (h : Stored s₀ acts s) (reached : oldServer.run s₀ acts = some s)
    (step : oldServer.step s act = some u) : Stored s₀ (acts ++ [act]) u := by
  obtain ⟨notExited, moves⟩ := old_step step
  have grown (chunk : Chunk) (env : FileEnv) (reopenFails : Bool) :
      (regularFile.append env chunk.bytes s.world).getD [] = s₀.content ++
        oldServer.observe OldServer.appended s₀ (acts ++ [.recv (.data chunk) false env reopenFails]) := by
    rw [Machine.observe_snoc reached, append_content, ← List.append_assoc, ← h.stored notExited]
    rfl
  cases moves with
  | signal => exact ⟨fun _ => h.same notExited rfl reached rfl, fun exited => (notExited exited).elim, h.receiving⟩
  | again | accept | send | done | killed => exact ⟨fun _ => h.same notExited rfl reached rfl, by simp, by simp⟩
  | leave | refuse | unopened | unread =>
    exact ⟨fun alive => (alive rfl).elim, fun _ => rfl, by simp [OldServer.cleanup]⟩
  | append here chunk env reopenFails =>
    exact ⟨fun _ => grown chunk env reopenFails, fun exited => (notExited exited).elim, h.receiving⟩
  | line here chunk env => exact ⟨fun _ => grown chunk env false, by simp, by simp⟩
  | hangUp here result openFails env reopenFails nothing =>
    have same : s.appended (.recv result openFails env reopenFails) = [] := by
      cases result with
      | data chunk => exact (nothing chunk rfl).elim
      | _ => rfl
    exact ⟨fun _ => h.same notExited same reached rfl, by simp, by simp⟩

theorem run_stored (listening : s₀.pc = .looping) (run : oldServer.run s₀ acts = some s) : Stored s₀ acts s := by
  refine Machine.run_induction (P := Stored s₀) ?_ ?_ Machine.along_true run
  · exact ⟨fun _ => by simp [Machine.observe], by simp [listening], by simp [listening]⟩
  · intro acts t act u reached stored _ step
    exact stored.step reached step

/-- What the client has of a reply is what the reply has read of the file. -/
structure Replies (s : OldServer) : Prop where
  receiving : s.pc = .receiving → s.reply = []
  replying : ∀ fpos, s.pc = .replying fpos → ∃ q : Nat, fpos = q ∧ q ≤ s.content.length ∧ s.reply = s.content.take q

theorem Replies.step (h : Replies s) (answers : s.Answers act) (step : oldServer.step s act = some u) : Replies u := by
  obtain ⟨_, moves⟩ := old_step step
  cases moves with
  | signal => exact ⟨h.receiving, h.replying⟩
  | again | accept | done | killed | hangUp => exact ⟨by simp, by simp⟩
  | leave | refuse | unopened | unread => exact ⟨by simp [OldServer.cleanup], by simp [OldServer.cleanup]⟩
  | append here chunk env reopenFails =>
    refine ⟨h.receiving, ?_⟩
    intro fpos replying
    cases here.symm.trans replying
  | line here chunk env =>
    refine ⟨by simp, ?_⟩
    intro fpos replying
    obtain rfl := OldPc.replying.inj replying
    exact ⟨0, rfl, Nat.zero_le _, by simpa using h.receiving here⟩
  | send fpos here env unsent more =>
    obtain ⟨rfl, rfl⟩ := answers
    obtain ⟨q, rfl, inside, sent⟩ := h.replying fpos here
    obtain ⟨q', moved, within, more⟩ := (regular_read s.world inside).1 more
    refine ⟨by simp, ?_⟩
    intro fpos replying
    obtain rfl := OldPc.replying.inj replying
    refine ⟨q', moved, within, ?_⟩
    rw [sent, Nat.sub_zero, List.take_length]
    exact more

theorem Replies.replied (h : Replies s) (answers : s.Answers act) (step : oldServer.step s act = some u)
    (replying : ∃ fpos, s.pc = .replying fpos) (done : u.pc = .looping) : s.reply = s.content := by
  obtain ⟨fpos, here⟩ := replying
  obtain ⟨_, moves⟩ := old_step step
  cases moves with
  | signal => cases here.symm.trans done
  | done fpos' here' env unsent ends =>
    obtain ⟨rfl, rfl⟩ := answers
    obtain ⟨q, rfl, inside, sent⟩ := h.replying _ here'
    rw [sent, (regular_read s.world inside).2 ends]
    exact List.take_length
  | again here' | accept here' | append here' | line here' | hangUp here' => cases here.symm.trans here'
  | leave | refuse | unopened | unread | send | killed => cases done

/-- The old server's file, whatever `write` takes of the chunks: what was there and all that was appended, in the
order received, which a server killed by a signal leaves behind and one that ends through `cleanup` removes. A reply
whose own reads and sends lose nothing is the file up to then. -/
theorem old_server_law (listening : s₀.pc = .looping) (run : oldServer.run s₀ acts = some s) :
    (s.pc ≠ .exited → s.content = s₀.content ++ oldServer.observe OldServer.appended s₀ acts) ∧
    (s.pc = .exited → s.world = none) ∧
    ∀ earlier during act later t u v, acts = earlier ++ during ++ act :: later →
      oldServer.run s₀ earlier = some t → t.pc = .receiving →
      oldServer.Along OldServer.Answers t during → oldServer.run t during = some u →
      u.Answers act → oldServer.step u act = some v → (∃ fpos, u.pc = .replying fpos) → v.pc = .looping →
        u.reply = s₀.content ++ oldServer.observe OldServer.appended s₀ (earlier ++ during) := by
  have stored := run_stored listening run
  refine ⟨stored.stored, stored.removed, ?_⟩
  intro earlier during act later t u v _ reached receiving answers replies answered step replying done
  have started : Replies t := ⟨fun _ => (run_stored listening reached).receiving receiving, by simp [receiving]⟩
  have before := Machine.run_invariant (P := Replies) Replies.step started answers replies
  rw [before.replied answered step replying done]
  apply (run_stored listening (Machine.run_append.mpr ⟨t, reached, replies⟩)).stored
  obtain ⟨fpos, here⟩ := replying
  simp [here]

/-- A file that was there before the first connection, a short `write`, a reply that loses a byte, one that does not,
and a client that resets the connection during the third. -/
theorem old_server_law_short :
    let s₀ : OldServer := { world := some [120] }
    let earlier : List OldAct := [.test, .accept true, .recv (.data ⟨[97, newline], by decide, by decide⟩) false {} false,
      .read {} 1, .read {} 0, .test, .accept true, .recv (.data ⟨[98, 98], by decide, by decide⟩) false { short := 1 } false]
    let during : List OldAct := [.recv (.data ⟨[99, newline], by decide, by decide⟩) false {} false, .read {} 0]
    let later : List OldAct := [.test, .accept true, .recv (.data ⟨[newline], by decide, by decide⟩) false {} false,
      .sigpipe {}]
    let s := (oldServer.run s₀ (earlier ++ during ++ .read {} 0 :: later)).getD s₀
    let t := (oldServer.run s₀ earlier).getD s₀
    let u := (oldServer.run t during).getD s₀
    s.pc = .killed ∧ s.content = [120, 97, newline, 98, 99, newline, newline] ∧
      s.content = s₀.content ++ oldServer.observe OldServer.appended s₀ (earlier ++ during ++ .read {} 0 :: later) ∧
      u.reply = s₀.content ++ oldServer.observe OldServer.appended s₀ (earlier ++ during) := by
  intro s₀ earlier during later s t u
  have run := Machine.run_getD (m := oldServer) (s := s₀) (l := earlier ++ during ++ .read {} 0 :: later)
    (by decide +kernel) s₀
  have law := old_server_law (s := s) rfl run
  have before := Machine.run_getD (m := oldServer) (s := s₀) (l := earlier) (by decide +kernel) s₀
  have replied := Machine.run_getD (m := oldServer) (s := t) (l := during) (by decide +kernel) s₀
  have ends := Option.some_get (show (oldServer.step u (.read {} 0)).isSome by decide +kernel)
  refine ⟨by decide +kernel, by decide +kernel, law.1 (by decide +kernel), ?_⟩
  exact law.2.2 earlier during (.read {} 0) later t u _ rfl before (by decide +kernel) (by decide +kernel) replied
    ⟨rfl, rfl⟩ ends.symm ⟨_, show u.pc = .replying 6 by decide +kernel⟩ (by decide +kernel)

/-- Where every `write` takes its whole chunk, the file is the one the new server is compared with. -/
theorem old_server_journal (empty : s₀.world = none)
    (writes : oldServer.Along OldServer.Writes s₀ acts) (run : oldServer.run s₀ acts = some s) :
    (s.pc = .exited ∧ s.world = none) ∨
      s.world = oldFile (oldServer.observe OldServer.journaled s₀ acts) := by
  refine Machine.run_induction (P := fun acts s => (s.pc = .exited ∧ s.world = none) ∨
    s.world = oldFile (oldServer.observe OldServer.journaled s₀ acts)) (Or.inr empty) ?_ writes run
  intro acts s act u reached before writes step
  obtain ⟨notExited, moves⟩ := old_step step
  obtain world := before.resolve_left fun gone => notExited gone.1
  rw [Machine.observe_snoc reached]
  have wrote (chunk : Chunk) (env : FileEnv) (full : env = {}) : regularFile.append env chunk.bytes s.world =
      oldFile (oldServer.observe OldServer.journaled s₀ acts ++ [chunk.bytes]) := by
    rw [oldFile_snoc, ← world, full]
    simp [regularFile]
  cases moves with
  | leave | refuse | unopened | unread => exact Or.inl ⟨rfl, rfl⟩
  | append here chunk env reopenFails => exact Or.inr (wrote chunk env writes)
  | line here chunk env => exact Or.inr (wrote chunk env writes)
  | hangUp here result openFails env reopenFails nothing =>
    right
    cases result with
    | data chunk => exact (nothing chunk rfl).elim
    | _ => simpa [OldServer.journaled] using world
  | signal | again | accept | send | done | killed => exact Or.inr (by simpa [OldServer.journaled] using world)

/-! ### Descriptors -/

/-- A step that opens what it needs uses the descriptors in order; one that does not ends the process out of it. -/
theorem held_move (step : oldServer.step s act = some u) :
    (s.Opens act → replay s.held (s.uses act) = some u.held) ∧
      (¬ s.Opens act → u.pc = .exited ∧ replay s.held (s.uses act) = none) := by
  obtain ⟨_, moves⟩ := old_step step
  cases moves with
  | signal => exact ⟨fun _ => rfl, fun fails => (fails trivial).elim⟩
  | again here on | leave here on =>
    refine ⟨fun _ => ?_, fun fails => (fails trivial).elim⟩
    simp [OldServer.held, OldServer.uses, OldServer.cleanup, here, on, replay]
  | accept here | refuse here =>
    refine ⟨fun _ => ?_, fun fails => (fails trivial).elim⟩
    simp [OldServer.held, OldServer.uses, OldServer.cleanup, here, replay]
  | unopened here chunk env reopenFails =>
    refine ⟨fun opens => (by cases opens.1), fun _ => ⟨rfl, ?_⟩⟩
    simp [OldServer.held, OldServer.uses, here, replay]
  | append here chunk env reopenFails more =>
    refine ⟨fun _ => ?_, fun fails => (fails ⟨rfl, fun line => (more line).elim⟩).elim⟩
    simp [OldServer.held, OldServer.uses, here, replay, more]
  | unread here chunk env line =>
    refine ⟨fun opens => (by cases opens.2 line), fun _ => ⟨rfl, ?_⟩⟩
    simp [OldServer.held, OldServer.uses, here, replay, line]
  | line here chunk env line =>
    refine ⟨fun _ => ?_, fun fails => (fails ⟨rfl, fun _ => rfl⟩).elim⟩
    simp [OldServer.held, OldServer.uses, here, replay, line]
  | hangUp here result openFails env reopenFails nothing =>
    cases result with
    | data chunk => exact (nothing chunk rfl).elim
    | _ =>
      refine ⟨fun _ => ?_, fun fails => (fails trivial).elim⟩
      simp [OldServer.held, OldServer.uses, here, replay]
  | send fpos here env unsent more | done fpos here env unsent more =>
    refine ⟨fun _ => ?_, fun fails => (fails trivial).elim⟩
    simp [OldServer.held, OldServer.uses, here, replay, more]
  | killed fpos here env =>
    refine ⟨fun _ => ?_, fun fails => (fails trivial).elim⟩
    simp [OldServer.held, OldServer.uses, here, replay]

/-- Descriptors are closed in the reverse order of opening and none is left from one connection to the next, unless
the data file does not open: then `cleanup` closes the listening socket under an open connection. -/
theorem old_server_descriptors (listening : s₀.pc = .looping) (run : oldServer.run s₀ acts = some s) :
    (oldServer.Along OldServer.Opens s₀ acts → replay [.server] (oldServer.observe OldServer.uses s₀ acts) = some s.held) ∧
    (¬ oldServer.Along OldServer.Opens s₀ acts →
      s.pc = .exited ∧ replay [.server] (oldServer.observe OldServer.uses s₀ acts) = none) := by
  refine Machine.run_induction (P := fun acts s =>
    (oldServer.Along OldServer.Opens s₀ acts → replay [.server] (oldServer.observe OldServer.uses s₀ acts) = some s.held) ∧
    (¬ oldServer.Along OldServer.Opens s₀ acts →
      s.pc = .exited ∧ replay [.server] (oldServer.observe OldServer.uses s₀ acts) = none)) ?_ ?_ Machine.along_true run
  · exact ⟨fun _ => by simp [OldServer.held, listening, Machine.observe, replay], fun fails => (fails trivial).elim⟩
  · intro acts s act u reached before _ step
    have opened : oldServer.Along OldServer.Opens s₀ acts := by
      by_contra fails
      exact (old_step step).1 (before.2 fails).1
    obtain ⟨opens, fails⟩ := held_move step
    rw [Machine.along_snoc reached, Machine.observe_snoc reached, replay_append, before.1 opened]
    exact ⟨fun both => opens both.2, fun not => fails fun now => not ⟨opened, now⟩⟩

/-- One connection served and a second one that is open. -/
theorem old_server_descriptors_open :
    let acts : List OldAct := [.test, .accept true, .recv (.data ⟨[newline], by decide, by decide⟩) false {} false,
      .read {} 0, .read {} 0, .test, .accept true, .recv (.data ⟨[97], by decide, by decide⟩) false {} false]
    replay [.server] (oldServer.observe OldServer.uses {} acts) = some [.client, .server] := by
  intro acts
  have run := Machine.run_getD (m := oldServer) (s := {}) (l := acts) (by decide +kernel) {}
  have held : ((oldServer.run {} acts).getD {}).held = [.client, .server] := by decide +kernel
  rw [(old_server_descriptors rfl run).1 (by decide +kernel), held]

/-! ### The signal -/

/-- After a signal at most the connection that `accept` already waits for is served. -/
theorem old_server_stops (signalled : s.running = false) (run : oldServer.run s acts = some u) :
    (oldServer.observe OldServer.accepts s acts).length ≤ if s.pc = .accepting then 1 else 0 := by
  have counted := Machine.run_induction (m := oldServer) (s := s) (P := fun acts t => t.running = false ∧
      (oldServer.observe OldServer.accepts s acts).length + (if t.pc = .accepting then 1 else 0) ≤
        if s.pc = .accepting then 1 else 0) ?_ ?_ Machine.along_true run
  · omega
  · exact ⟨signalled, by simp [Machine.observe]⟩
  · intro acts t act v reached before _ step
    obtain ⟨off, few⟩ := before
    rw [Machine.observe_snoc reached, List.length_append]
    obtain ⟨_, moves⟩ := old_step step
    cases moves with
    | again here on =>
      rw [off] at on
      cases on
    | signal => exact ⟨rfl, by simpa [OldServer.accepts] using few⟩
    | accept here =>
      refine ⟨off, ?_⟩
      simpa [OldServer.accepts, here] using few
    | hangUp here result openFails env reopenFails nothing =>
      refine ⟨off, ?_⟩
      simp [OldServer.accepts, here] at few ⊢
      exact few
    | leave here | refuse here | unopened here | append here | unread here | line here | send _ here | done _ here
    | killed _ here =>
      refine ⟨off, ?_⟩
      simp [OldServer.accepts, OldServer.cleanup, here] at few ⊢
      omega

theorem old_server_stops_waiting :
    let s : OldServer := { pc := .accepting, running := false }
    let acts : List OldAct := [.accept true, .recv .eof false {} false, .test]
    (oldServer.observe OldServer.accepts s acts).length ≤ 1 := by
  intro s acts
  have run := Machine.run_getD (m := oldServer) (s := s) (l := acts) (by decide +kernel) s
  exact old_server_stops rfl run

end Aesd
