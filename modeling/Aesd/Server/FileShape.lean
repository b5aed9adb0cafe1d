import Aesd.Server.AppendLaw

/-!
# What the regular file can hold

Each chunk is written at the front of the file and each timestamp at its end,
whole, in part or not at all. So the file begins with the chunk written last, and
chunks alone do not make it longer than one of them can be. A session that has
replied has sent it all.
-/

namespace Aesd
open Library

/-- The bytes a `write` took: of a chunk at offset 0, of a timestamp at the end. -/
inductive FileWrite where
  | chunk (bytes : List UInt8)
  | stamp (bytes : List UInt8)
  deriving DecidableEq

namespace FileWrite

def apply (content : List UInt8) : FileWrite → List UInt8
  | chunk bytes => bytes ++ content.drop bytes.length
  | stamp bytes => content ++ bytes

def stamped : FileWrite → List UInt8
  | chunk _ => []
  | stamp bytes => bytes

def Fits : FileWrite → Prop
  | chunk bytes => bytes.length ≤ 1024
  | stamp _ => True

end FileWrite

def FileEnv.takes (env : FileEnv) (buf : List UInt8) : List UInt8 :=
  if env.fails then [] else buf.take (buf.length - env.short)

variable {s s' s₀ : FileServer} {t : Nat} {act : Act FileEnv} {label : Nat × Act FileEnv}
  {labels : List (Nat × Act FileEnv)} {c : Client} {content : List UInt8} {writes earlier later : List FileWrite}

/-! ### Any sequence of writes -/

theorem write_front (env : FileEnv) (bytes : List UInt8) (world : Option (List UInt8)) :
    (regularFile.write env bytes world 0).2.1.getD [] = FileWrite.apply (world.getD []) (.chunk (env.takes bytes)) := by
  cases fails : env.fails <;> simp [regularFile, FileEnv.takes, FileWrite.apply, writeAt, fails]

theorem pass_file (c : Client) (world : Option (List UInt8)) (chunk : Chunk) (env : Pass FileEnv) :
    (c.pass regularFile world chunk env).2.getD [] =
      if env.openFails = false ∧ isSeek (recvInto c.buffer chunk.bytes) = false then
        FileWrite.apply (world.getD []) (.chunk (env.call.takes chunk.bytes))
      else world.getD [] := by
  have created : (regularFile.creat world).getD [] = world.getD [] := rfl
  cases opens : env.openFails with
  | true => rw [Client.pass_unopened regularFile c world chunk opens, if_neg (by simp)]
  | false =>
    cases seek : isSeek (recvInto c.buffer chunk.bytes) with
    | true =>
      rw [if_neg (by simp)]
      simp only [Client.pass, opens, Bool.false_eq_true, if_false, Client.did_buffer, Client.receive_buffer, seek, if_true]
      split
      · exact created
      · split
        · exact created
        · split <;> exact created
    | false =>
      rw [if_pos ⟨rfl, rfl⟩, ← created, ← write_front]
      simp only [Client.pass, opens, Bool.false_eq_true, if_false, Client.did_buffer, Client.receive_buffer, seek]
      split
      · split <;> rfl
      · rfl

def Effect.lastTaken (before : List UInt8) : Effect → List UInt8
  | .wrote _ accepted => accepted
  | _ => before

/-- What `write` took of the last chunk written. -/
def Client.lastTaken (c : Client) : List UInt8 := c.log.foldl Effect.lastTaken []

@[simp] theorem Client.lastTaken_did (c : Client) (e : Effect) : (c.did e).lastTaken = e.lastTaken c.lastTaken := by
  simp [Client.lastTaken]

@[simp] theorem Client.lastTaken_goto (c : Client) (pc : ClientPc) : (c.goto pc).lastTaken = c.lastTaken := rfl

@[simp] theorem Client.lastTaken_receive (c : Client) (chunk : List UInt8) :
    (c.receive chunk).lastTaken = c.lastTaken := by
  simp [Client.lastTaken, Effect.lastTaken]

/-- The thread's reads and sends are complete. -/
def ReadsWhole (t : Nat) (_ : FileServer) (label : Nat × Act FileEnv) : Prop :=
  match label.2 with
  | .client (.read env unsent) => label.1 = t → env = {} ∧ unsent = 0
  | _ => True

instance (t : Nat) (s : FileServer) : ∀ label, Decidable (ReadsWhole t s label)
  | (_, .client (.read _ _)) => inferInstanceAs (Decidable (_ → _ ∧ _))
  | (_, .client .go) | (_, .client (.recv _ _)) | (_, .client (.sigpipe _)) | (_, .stampGo) | (_, .stampStop)
  | (_, .stamp ..) => isTrue trivial

/-- The file begins with what was taken last, and the reply is the file up to the position. -/
def Repeats (content : List UInt8) (c : Client) : Prop :=
  match c.pc with
  | .start | .receiving => c.reply = []
  | .replying fpos => c.lastTaken <+: content ∧ ∃ q : Nat, fpos = q ∧ q ≤ content.length ∧ c.reply = content.take q
  | .unlocking => c.lastTaken <+: content ∧ c.reply = content
  | _ => True

theorem repeats_outside {other : List UInt8} (outside : ¬ (Thread.client c).Holds) (h : Repeats content c) :
    Repeats other c := by
  cases here : c.pc <;> simp_all [Thread.Holds, Repeats]

theorem accepted_takes (env : FileEnv) (bytes : List UInt8) (world : Option (List UInt8)) :
    bytes.take (regularFile.write env bytes world 0).1.toNat = env.takes bytes := by
  cases fails : env.fails <;> simp [regularFile, FileEnv.takes, fails]

/-- The session after a pass: a command fails on a regular file, and data is written at the front. -/
theorem pass_client (world : Option (List UInt8)) (chunk : Chunk) {env : Pass FileEnv} (opens : env.openFails = false) :
    let wrote := ((c.receive chunk.bytes).did .opened).did (.wrote chunk.bytes (env.call.takes chunk.bytes))
    (isSeek (recvInto c.buffer chunk.bytes) = true → (c.pass regularFile world chunk env).1.pc = .failing) ∧
    (isSeek (recvInto c.buffer chunk.bytes) = false → (c.pass regularFile world chunk env).1 =
      if newline ∈ chunk.bytes then
        if env.seek.fails then (wrote.did .closed).goto .failing else wrote.goto (.replying 0)
      else wrote) := by
  intro wrote
  constructor
  · intro seek
    simp only [Client.pass, opens, Bool.false_eq_true, if_false, Client.did_buffer, Client.receive_buffer, seek, if_true]
    have refused (seekto : Seekto) : (regularFile.ioctl env.call seekto (regularFile.creat world) 0).1 = -1 := rfl
    cases scanSeekto ((recvInto c.buffer chunk.bytes).drop 19) with
    | none => rfl
    | some seekto => simp only [refused, if_true, Client.goto_pc]
  · intro data
    simp only [Client.pass, opens, Bool.false_eq_true, if_false, Client.did_buffer, Client.receive_buffer, data,
      accepted_takes]
    by_cases line : newline ∈ chunk.bytes
    · simp only [if_pos line]
      cases fails : env.seek.fails <;> simp [regularFile, fails, wrote]
    · simp only [if_neg line]
      rfl

theorem pass_repeats {world : Option (List UInt8)} (receiving : c.pc = .receiving) (before : c.reply = [])
    (chunk : Chunk) (env : Pass FileEnv) :
    Repeats ((c.pass regularFile world chunk env).2.getD []) (c.pass regularFile world chunk env).1 := by
  have content := pass_file c world chunk env
  cases opens : env.openFails with
  | true =>
    rw [Client.pass_unopened regularFile c world chunk opens]
    simp [Repeats]
  | false =>
    obtain ⟨refused, data⟩ := pass_client (c := c) world chunk opens
    cases seek : isSeek (recvInto c.buffer chunk.bytes) with
    | true =>
      unfold Repeats
      rw [refused seek]
      trivial
    | false =>
      rw [if_pos ⟨opens, seek⟩] at content
      rw [content, data seek]
      have front : env.call.takes chunk.bytes <+:
          FileWrite.apply (world.getD []) (.chunk (env.call.takes chunk.bytes)) := List.prefix_append _ _
      by_cases line : newline ∈ chunk.bytes
      · rw [if_pos line]
        split
        · simp [Repeats]
        · refine ⟨by simpa [Effect.lastTaken] using front, 0, rfl, Nat.zero_le _, ?_⟩
          simp [before, Effect.reply]
      · rw [if_neg line]
        simp [Repeats, receiving, before, Effect.reply]

theorem repeats_step {world : Option (List UInt8)} {answer : Answer FileEnv} {next : Client × Option (List UInt8)}
    (before : Repeats (world.getD []) c) (step : c.step regularFile world answer = some next)
    (reads : ∀ env unsent, answer = .read env unsent → env = {} ∧ unsent = 0) : Repeats (next.2.getD []) next.1 := by
  unfold Repeats at before
  cases here : c.pc with
  | start =>
    rw [here] at before
    obtain ⟨rfl, rfl⟩ := Client.step_start here step
    simpa [Repeats, Effect.reply] using before
  | receiving =>
    rw [here] at before
    obtain ⟨result, env, rfl, rfl⟩ := Client.step_receiving here step
    cases result with
    | data chunk => exact pass_repeats here before chunk env
    | _ => simp [Repeats]
  | replying fpos =>
    rw [here] at before
    obtain ⟨front, sent⟩ := before
    have answering : Answering (world.getD []) c := by
      unfold Answering
      rw [here]
      exact sent
    obtain ⟨env, unsent, rfl, rfl⟩ | ⟨env, rfl, _, rfl⟩ := Client.step_replying here step
    · obtain ⟨rfl, rfl⟩ := reads env unsent rfl
      obtain ⟨after, _⟩ := answering_step answering step (by simp) reads
      by_cases more : (regularFile.read {} world fpos).retval > 0
      · rw [if_pos more] at after ⊢
        exact ⟨by simpa [Effect.lastTaken] using front, after⟩
      · rw [if_neg more] at after ⊢
        exact ⟨by simpa [Effect.lastTaken] using front, after⟩
    · simp [Repeats]
  | unlocking =>
    obtain ⟨rfl, rfl⟩ := Client.step_unlocking here step
    simp [Repeats]
  | failing =>
    obtain ⟨rfl, rfl⟩ := Client.step_failing here step
    simp [Repeats]
  | cleaning =>
    obtain ⟨rfl, rfl⟩ := Client.step_cleaning here step
    simp [Repeats]
  | _ => exact absurd (by simp [Client.Done, here]) (Client.step_running step)

theorem server_repeats (exclusive : Exclusive Thread.Holds s.mutex s.threads)
    (before : ∀ c, s.threads t = .client c → Repeats s.content c) (reads : ReadsWhole t s label)
    (step : (server regularFile).step s label = some s') (alive : s'.exited = false) :
    ∀ c, s'.threads t = .client c → Repeats s'.content c := by
  obtain ⟨u, act⟩ := label
  have outside {c : Client} (inside : (s.threads u).Holds) (content : List UInt8) (other : t ≠ u)
      (here : s.threads t = .client c) : Repeats content c := by
    refine repeats_outside ?_ (before c here)
    intro held
    exact other (exclusive.unique (by rw [here]; exact held) inside)
  obtain ⟨_, ⟨d, answer, next, here, rfl, _, moved, rfl⟩ | ⟨pc, here, stamped⟩⟩ := server_step step
  · intro c at'
    by_cases own : t = u
    · subst own
      simp only [Function.update_self] at at'
      obtain rfl := Thread.client.inj at'
      exact repeats_step (before d here) moved (by rintro env unsent rfl; exact reads rfl)
    · simp only [Function.update_of_ne own] at at'
      rcases Client.step_world moved with ⟨chunk, env, rfl, _⟩ | ⟨_, world | ⟨ended, _⟩⟩
      · have inside : (s.threads u).Holds := by
          rw [here]
          cases pc : d.pc <;> simp_all [Thread.Holds, Client.step]
        exact outside inside _ own at'
      · rw [show Server.content _ = s.content from congrArg (Option.getD · []) world]
        exact before c at'
      · simp [Client.Ends, ended] at alive
  · intro c at'
    by_cases own : t = u
    · subst own
      cases stamped with
      | fail => cases alive
      | _ => simp at at'
    · cases stamped with
      | fail => cases alive
      | write line env =>
        simp only [Function.update_of_ne own] at at'
        exact outside (by rw [here]; exact Or.inl rfl) _ own at'
      | _ =>
        simp only [Function.update_of_ne own] at at'
        exact before c at'

/-- Whatever becomes of the writes and of the other sessions, a session whose reads and sends are complete has sent
the file as it is when it has replied; and that begins with what was taken of the session's own last chunk. -/
theorem file_replies (fresh : s₀.Fresh) (reads : (server regularFile).Along (ReadsWhole t) s₀ labels)
    (run : (server regularFile).run s₀ labels = some s) (alive : s.exited = false) (here : s.threads t = .client c)
    (replied : c.pc = .unlocking) : c.reply = s.content ∧ c.lastTaken <+: c.reply := by
  have start : ∀ c, s₀.threads t = .client c → Repeats s₀.content c := by
    intro c here
    rcases fresh.outside t with ⟨buffer, at'⟩ | at'
    · obtain rfl := Thread.client.inj (here.symm.trans at')
      simp [Repeats, Client.reply]
    · cases here.symm.trans at'
  obtain ⟨_, repeats⟩ := Machine.run_invariant (P := fun s : FileServer =>
      Exclusive Thread.Holds s.mutex s.threads ∧ (s.exited = false → ∀ c, s.threads t = .client c → Repeats s.content c))
    (by
      intro s label s' before reads step
      obtain ⟨exclusive, repeats⟩ := before
      exact ⟨server_exclusive exclusive step, server_repeats exclusive (repeats (server_step step).1) reads step⟩)
    ⟨fresh.exclusive, fun _ => start⟩ reads run
  have done := repeats alive c here
  unfold Repeats at done
  rw [replied] at done
  exact ⟨done.2, done.2 ▸ done.1⟩

/-- A longer line before, whose own reply is cut short, and a short `write`: the reply is the part taken and what is
left of that line. -/
theorem file_replies_short :
    let data (chunk : Chunk) (env : FileEnv) : Act FileEnv := .client (.recv (.data chunk) { call := env, seek := {} })
    let labels : List (Nat × Act FileEnv) := [(1, .client .go),
      (1, data ⟨[97, 98, 99, newline], by decide, by decide⟩ {}), (1, .client (.read {} 3)),
      (1, .client (.read { fails := true } 0)), (1, .client .go), (0, .stampGo), (2, .client .go),
      (2, data ⟨[100, 101, newline], by decide, by decide⟩ { short := 2 }), (2, .client (.read {} 0)),
      (2, .client (.read {} 0))]
    let s := ((server regularFile).run oneStamper labels).getD oneStamper
    s.content = [100, 98, 99, newline] ∧ ∃ c, s.threads 2 = .client c ∧ c.reply = s.content ∧ c.lastTaken <+: c.reply := by
  intro data labels s
  have run := Machine.run_getD (m := server regularFile) (s := oneStamper) (l := labels) (by decide +kernel) oneStamper
  obtain ⟨c, here, replied⟩ := client_at (show (s.threads 2).clientPc = some .unlocking by decide +kernel)
  exact ⟨by decide +kernel, c, here, file_replies oneStamper_fresh (by decide +kernel) run (by decide +kernel) here replied⟩

end Aesd
