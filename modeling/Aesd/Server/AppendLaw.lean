import Aesd.Server.Threads

/-!
# The data file as a regular file

Sessions open it for each chunk without `O_APPEND` and write at offset 0;
timestamps, and the server in `aesdsocket_old.c`, append. The file is what the
appends make of the journal as long as no chunk meets bytes already there.
-/

namespace Aesd
open Library

abbrev FileServer := Server (Option (List UInt8))

variable {s s' s₀ : FileServer} {t : Nat} {act : Act FileEnv} {label : Nat × Act FileEnv}
  {labels : List (Nat × Act FileEnv)} {c : Client}

def Server.content (s : FileServer) : List UInt8 := s.world.getD []

/-- What a step under the mutex writes: a chunk or a timestamp. -/
def journaled (s : FileServer) (label : Nat × Act FileEnv) : List (List UInt8) :=
  match s.threads label.1, label.2 with
  | .client _, .client (.recv (.data chunk) _) => [chunk.bytes]
  | .stamper _, .stamp line _ _ => [line]
  | _, _ => []

/-- The system calls succeed, `write` and `send` in full unless SIGPIPE ends the process, and no chunk is taken for a
seek command. -/
def Whole (s : FileServer) (label : Nat × Act FileEnv) : Prop :=
  match s.threads label.1, label.2 with
  | .client c, .client (.recv (.data chunk) env) =>
    env.openFails = false ∧ isSeek (recvInto c.buffer chunk.bytes) = false ∧ env.call = {} ∧ env.seek = {}
  | .client _, .client (.read env unsent) => env = {} ∧ unsent = 0
  | .stamper _, .stamp _ openFails env => openFails = false ∧ env = {}
  | _, _ => True

/-- A chunk is written only to an empty file. -/
def MeetsNothing (s : FileServer) (label : Nat × Act FileEnv) : Prop :=
  match s.threads label.1, label.2 with
  | .client _, .client (.recv (.data _) _) => s.content = []
  | _, _ => True

instance (s : FileServer) (label : Nat × Act FileEnv) : Decidable (Whole s label) := by
  unfold Whole; split <;> infer_instance

instance (s : FileServer) (label : Nat × Act FileEnv) : Decidable (MeetsNothing s label) := by
  unfold MeetsNothing; split <;> infer_instance

/-- The file of `aesdsocket_old.c` after writes in this order. -/
def oldFile (journal : List (List UInt8)) : Option (List UInt8) :=
  journal.foldl (fun content bytes => regularFile.append {} bytes content) none

/-- The file holds the journal end to end, as the old server's would. -/
structure AppendLaw (s : FileServer) (journal : List (List UInt8)) : Prop where
  stored : s.content = journal.flatten
  old : s.world = oldFile journal

/-- A session that has replied has sent the whole file. -/
def WholeReplies (s : FileServer) : Prop :=
  ∀ t c, s.threads t = .client c → c.pc = .unlocking → c.reply = s.content

theorem oldFile_snoc (journal : List (List UInt8)) (bytes : List UInt8) :
    oldFile (journal ++ [bytes]) = some ((oldFile journal).getD [] ++ bytes) := by
  simp [oldFile, regularFile]

theorem oldFile_content (journal : List (List UInt8)) : (oldFile journal).getD [] = journal.flatten := by
  induction journal using List.reverseRecOn with
  | nil => rfl
  | append_singleton journal bytes ih => rw [oldFile_snoc, Option.getD_some, ih, List.flatten_append, List.flatten_singleton]

/-! ### One step -/

theorem pass_regular (content : Option (List UInt8)) {chunk : Chunk} {env : Pass FileEnv} (opens : env.openFails = false)
    (plain : isSeek (recvInto c.buffer chunk.bytes) = false) (full : env.call = {}) (seeks : env.seek = {}) :
    let next := c.pass regularFile content chunk env
    next.2 = some (writeAt (content.getD []) 0 chunk.bytes) ∧ next.1.reply = c.reply ∧
      next.1.pc = if newline ∈ chunk.bytes then .replying 0 else c.pc := by
  intro next
  have unfolded : next = if newline ∈ chunk.bytes then
      ((((c.receive chunk.bytes).did .opened).did (.wrote chunk.bytes chunk.bytes)).goto (.replying 0),
        some (writeAt (content.getD []) 0 chunk.bytes))
      else (((c.receive chunk.bytes).did .opened).did (.wrote chunk.bytes chunk.bytes),
        some (writeAt (content.getD []) 0 chunk.bytes)) := by
    simp [next, Client.pass, opens, plain, full, seeks, regularFile]
  rw [unfolded]
  split <;> simp [Effect.reply]

def Answering (content : List UInt8) (c : Client) : Prop :=
  match c.pc with
  | .start | .receiving => c.reply = []
  | .replying fpos => ∃ q : Nat, fpos = q ∧ q ≤ content.length ∧ c.reply = content.take q
  | .unlocking => c.reply = content
  | .failing | .cleaning | .exited => False
  | _ => True

theorem answering_step {content : Option (List UInt8)} {answer : Answer FileEnv} {next : Client × Option (List UInt8)}
    (h : Answering (content.getD []) c) (step : c.step regularFile content answer = some next)
    (whole : ∀ chunk env, answer = .recv (.data chunk) env → env.openFails = false ∧
      isSeek (recvInto c.buffer chunk.bytes) = false ∧ env.call = {} ∧ env.seek = {})
    (reads : ∀ env unsent, answer = .read env unsent → env = {} ∧ unsent = 0) :
    Answering (next.2.getD []) next.1 ∧
      ((∃ chunk env, answer = .recv (.data chunk) env ∧
        next.2 = some (writeAt (content.getD []) 0 chunk.bytes)) ∨
      (∀ chunk env, answer ≠ .recv (.data chunk) env) ∧ next.2 = content) := by
  cases here : c.pc with
  | start =>
    obtain ⟨rfl, rfl⟩ := Client.step_start here step
    unfold Answering at h
    rw [here] at h
    exact ⟨by simp [Answering, h, Effect.reply], Or.inr ⟨by simp, rfl⟩⟩
  | receiving =>
    obtain ⟨result, env, rfl, rfl⟩ := Client.step_receiving here step
    unfold Answering at h
    rw [here] at h
    cases result with
    | data chunk =>
      obtain ⟨opens, plain, full, seeks⟩ := whole chunk env rfl
      obtain ⟨world, reply, pc⟩ := pass_regular (c := c) content opens plain full seeks
      refine ⟨?_, Or.inl ⟨chunk, env, rfl, world⟩⟩
      rw [here] at pc
      unfold Answering
      simp only [pc]
      by_cases ends : newline ∈ chunk.bytes
      · rw [if_pos ends]
        exact ⟨0, rfl, Nat.zero_le _, by rw [reply, h, List.take_zero]⟩
      · rw [if_neg ends]
        exact reply.trans h
    | _ => exact ⟨by simp [Answering], Or.inr ⟨by simp, rfl⟩⟩
  | replying fpos =>
    obtain ⟨env, unsent, rfl, rfl⟩ | ⟨env, rfl, _, rfl⟩ := Client.step_replying here step
    case inr => exact ⟨trivial, Or.inr ⟨by simp, rfl⟩⟩
    obtain ⟨rfl, rfl⟩ := reads env unsent rfl
    unfold Answering at h
    rw [here] at h
    obtain ⟨q, rfl, inside, sent⟩ := h
    have data : (regularFile.read {} content q).data = ((content.getD []).drop q).take 1024 := by simp [regularFile]
    have length : (regularFile.read {} content q).retval = ((regularFile.read {} content q).data.length : Int) := rfl
    have moved : (regularFile.read {} content q).fpos = (q : Int) + (regularFile.read {} content q).data.length := rfl
    have size := congrArg List.length data
    rw [List.length_take, List.length_drop] at size
    by_cases more : (regularFile.read {} content q).retval > 0
    · rw [if_pos more]
      refine ⟨?_, Or.inr ⟨by simp, rfl⟩⟩
      have below : q + (regularFile.read {} content q).data.length ≤ (content.getD []).length := by omega
      refine ⟨q + (regularFile.read {} content q).data.length, by rw [moved]; rfl, below, ?_⟩
      simp only [Client.reply_goto, Client.reply_did, Effect.reply, Nat.sub_zero, List.take_length, sent]
      rw [List.take_add, data, List.length_take]
      congr 1
      rw [List.take_eq_take_iff]
      omega
    · rw [if_neg more]
      refine ⟨?_, Or.inr ⟨by simp, rfl⟩⟩
      have whole : (content.getD []).length ≤ q := by omega
      simp [Answering, sent, Effect.reply, List.take_of_length_le whole]
  | unlocking =>
    obtain ⟨rfl, rfl⟩ := Client.step_unlocking here step
    exact ⟨by simp [Answering], Or.inr ⟨by simp, rfl⟩⟩
  | returned => exact absurd (Or.inl here) (Client.step_running step)
  | hungUp => exact absurd (Or.inr (Or.inl here)) (Client.step_running step)
  | killed => exact absurd (Or.inr (Or.inr (Or.inr here))) (Client.step_running step)
  | _ => simp [Answering, here] at h

theorem answering_outside {content other : List UInt8} (outside : ¬ (Thread.client c).Holds)
    (h : Answering content c) : Answering other c := by
  cases here : c.pc <;> simp_all [Thread.Holds, Answering]

/-! ### One step of the server -/

structure Orderly (s : FileServer) : Prop where
  exclusive : Exclusive Thread.Holds s.mutex s.threads
  answering : ∀ t c, s.threads t = .client c → Answering s.content c

theorem Server.Fresh.orderly (h : s.Fresh) : Orderly s where
  exclusive := h.exclusive
  answering := by
    intro t c here
    rcases h.outside t with ⟨buffer, at'⟩ | at'
    · obtain rfl := Thread.client.inj (here.symm.trans at')
      simp [Answering, Client.reply]
    · cases here.symm.trans at'

theorem Orderly.others (h : Orderly s) (inside : (s.threads t).Holds) (content : List UInt8) :
    ∀ u c, u ≠ t → s.threads u = .client c → Answering content c := by
  intro u c other here
  apply answering_outside _ (h.answering u c here)
  intro held
  apply other
  exact h.exclusive.unique (by rw [here]; exact held) inside

theorem file_step (h : Orderly s) (whole : Whole s label) (step : (server regularFile).step s label = some s') :
    Orderly s' ∧
      ((journaled s label = [] ∧ s'.world = s.world ∧ MeetsNothing s label) ∨
      (∃ chunk : Chunk, journaled s label = [chunk.bytes] ∧ s'.world = some (writeAt s.content 0 chunk.bytes) ∧
        (MeetsNothing s label ↔ s.content = [])) ∨
      ∃ line, journaled s label = [line] ∧ s'.world = some (s.content ++ line) ∧ MeetsNothing s label) := by
  obtain ⟨t, act⟩ := label
  have exclusive := server_exclusive h.exclusive step
  obtain ⟨_, ⟨c, answer, next, here, rfl, _, moved, rfl⟩ | ⟨pc, here, stamped⟩⟩ := server_step step
  · obtain ⟨after, effect⟩ := answering_step (h.answering t c here) moved
      (by rintro chunk env rfl; simpa [Whole, here] using whole)
      (by rintro env unsent rfl; simpa [Whole, here] using whole)
    have rest (unchanged : next.2 = s.world ∨ (s.threads t).Holds) :
        ∀ u d, Function.update s.threads t (.client next.1) u = .client d → Answering (next.2.getD []) d := by
      intro u d at'
      by_cases same : u = t
      · subst same
        rw [Function.update_self] at at'
        exact Thread.client.inj at' ▸ after
      · rw [Function.update_of_ne same] at at'
        rcases unchanged with world | inside
        · rw [world]
          exact h.answering u d at'
        · exact h.others inside _ u d same at'
    rcases effect with ⟨chunk, env, rfl, wrote⟩ | ⟨nothing, kept⟩
    · have inside : (s.threads t).Holds := by
        rw [here]
        cases at' : c.pc <;> simp_all [Thread.Holds, Client.step]
      exact ⟨⟨exclusive, rest (Or.inr inside)⟩,
        Or.inr (Or.inl ⟨chunk, by simp [journaled, here], wrote, by simp [MeetsNothing, here]⟩)⟩
    · refine ⟨⟨exclusive, rest (Or.inl kept)⟩, Or.inl ⟨?_, kept, ?_⟩⟩
      · cases answer with
        | recv result env => cases result with
          | data chunk => exact (nothing chunk env rfl).elim
          | _ => simp [journaled, here]
        | _ => simp [journaled, here]
      · cases answer with
        | recv result env => cases result with
          | data chunk => exact (nothing chunk env rfl).elim
          | _ => simp [MeetsNothing, here]
        | _ => simp [MeetsNothing, here]
  · cases stamped with
    | fail line env => simp [Whole, here] at whole
    | write line env =>
      have full : env = {} := by simpa [Whole, here] using whole
      have appended : regularFile.append env line s.world = some (s.content ++ line) := by
        simp [full, regularFile, Server.content]
      refine ⟨⟨exclusive, ?_⟩, Or.inr (Or.inr ⟨line, by simp [journaled, here], appended,
        by simp [MeetsNothing, here]⟩)⟩
      intro u d at'
      by_cases same : u = t
      · subst same
        simp at at'
      · simp only [Function.update_of_ne same] at at'
        exact h.others (by rw [here]; simp [Thread.Holds]) _ u d same at'
    | _ =>
      exact ⟨⟨exclusive, all_clients_stamper h.answering⟩,
        Or.inl ⟨by simp [journaled, here], rfl, by simp [MeetsNothing, here]⟩⟩

/-! ### Every run -/

theorem writeAt_empty (bytes : List UInt8) : writeAt [] 0 bytes = bytes := by
  simp [writeAt]

theorem writeAt_length (content : List UInt8) {bytes : List UInt8} (some' : bytes ≠ []) :
    (writeAt content 0 bytes).length ≤ content.length + bytes.length ∧
      (content ≠ [] → (writeAt content 0 bytes).length < content.length + bytes.length) := by
  have pos := List.length_pos_iff.mpr some'
  have length : (writeAt content 0 bytes).length = bytes.length + (content.length - bytes.length) := by
    simp [writeAt]
  refine ⟨by omega, fun more => ?_⟩
  have := List.length_pos_iff.mpr more
  omega

structure Journal (s₀ : FileServer) (labels : List (Nat × Act FileEnv)) (s : FileServer) : Prop where
  orderly : Orderly s
  short : s.content.length ≤ ((server regularFile).observe journaled s₀ labels).flatten.length
  kept : (server regularFile).Along MeetsNothing s₀ labels →
    s.world = oldFile ((server regularFile).observe journaled s₀ labels)
  lost : ¬ (server regularFile).Along MeetsNothing s₀ labels →
    s.content.length < ((server regularFile).observe journaled s₀ labels).flatten.length

theorem Journal.step (h : Journal s₀ labels s) (reached : (server regularFile).run s₀ labels = some s)
    (whole : Whole s label) (step : (server regularFile).step s label = some s') :
    Journal s₀ (labels ++ [label]) s' := by
  obtain ⟨orderly, effect⟩ := file_step h.orderly whole step
  have along : (server regularFile).Along MeetsNothing s₀ (labels ++ [label]) ↔ _ := Machine.along_snoc reached
  have history : (server regularFile).observe journaled s₀ (labels ++ [label]) = _ := Machine.observe_snoc reached
  have short := h.short
  rcases effect with ⟨nothing, world, meets⟩ | ⟨chunk, wrote, world, meets⟩ | ⟨line, wrote, world, meets⟩
  · have content : s'.content = s.content := by rw [Server.content, world, Server.content]
    rw [nothing, List.append_nil] at history
    refine ⟨orderly, by rw [history, content]; exact short, fun stays => ?_, fun leaves => ?_⟩
    · rw [history, world]
      exact h.kept (along.mp stays).1
    · rw [history, content]
      exact h.lost fun stays => leaves (along.mpr ⟨stays, meets⟩)
  · have content : s'.content = writeAt s.content 0 chunk.bytes := by rw [Server.content, world, Option.getD_some]
    have lengths := writeAt_length s.content chunk.nonempty
    rw [wrote] at history
    refine ⟨orderly, ?_, fun stays => ?_, fun leaves => ?_⟩
    · rw [history, content, List.flatten_append, List.flatten_singleton, List.length_append]
      omega
    · obtain ⟨before, here⟩ := along.mp stays
      have empty := meets.mp here
      have old := h.kept before
      rw [history, oldFile_snoc, world, ← old, show s.world.getD [] = s.content from rfl, empty, writeAt_empty,
        List.nil_append]
    · rw [history, content, List.flatten_append, List.flatten_singleton, List.length_append]
      by_cases before : (server regularFile).Along MeetsNothing s₀ labels
      · have := lengths.2 fun empty => leaves (along.mpr ⟨before, meets.mpr empty⟩)
        omega
      · have := h.lost before
        omega
  · have content : s'.content = s.content ++ line := by rw [Server.content, world, Option.getD_some]
    rw [wrote] at history
    refine ⟨orderly, ?_, fun stays => ?_, fun leaves => ?_⟩
    · rw [history, content, List.flatten_append, List.flatten_singleton, List.length_append, List.length_append]
      omega
    · rw [history, oldFile_snoc, world, ← h.kept (along.mp stays).1]
      rfl
    · rw [history, content, List.flatten_append, List.flatten_singleton, List.length_append, List.length_append]
      have := h.lost fun before => leaves (along.mpr ⟨before, meets⟩)
      omega

/-- The append law holds whenever the mutex is free, in a run where every chunk is written to an empty
file; a run that ends with the mutex free keeps the law only if it is such a run. Replies are whole in
every run. -/
theorem append_law_iff (fresh : s₀.Fresh) (missing : s₀.world = none)
    (run : (server regularFile).run s₀ labels = some s) (ok : (server regularFile).Along Whole s₀ labels) :
    let law := ∀ earlier later t, labels = earlier ++ later → (server regularFile).run s₀ earlier = some t →
      t.mutex = none → AppendLaw t ((server regularFile).observe journaled s₀ earlier)
    (∀ earlier later t, labels = earlier ++ later → (server regularFile).run s₀ earlier = some t → WholeReplies t) ∧
      ((server regularFile).Along MeetsNothing s₀ labels → law) ∧
      (s.mutex = none → law → (server regularFile).Along MeetsNothing s₀ labels) := by
  intro law
  have journal : ∀ earlier later t, labels = earlier ++ later → (server regularFile).run s₀ earlier = some t →
      Journal s₀ earlier t :=
    Machine.on_the_way (P := fun earlier t => Journal s₀ earlier t)
      ⟨fresh.orderly, by simp [Server.content, missing], fun _ => missing, fun broken => (broken trivial).elim⟩
      (fun before here whole step => here.step before whole step) ok
  refine ⟨?_, ?_, ?_⟩
  · intro earlier later t split reached u c here unlocking
    have answering := (journal earlier later t split reached).orderly.answering u c here
    simpa [Answering, unlocking] using answering
  · intro meets earlier later t split reached _
    subst split
    have world := (journal earlier later t rfl reached).kept ((Machine.along_append reached).mp meets).1
    exact ⟨by rw [Server.content, world, oldFile_content], world⟩
  · intro free law
    by_contra broken
    have stored := (law labels [] s (List.append_nil _).symm run free).stored
    have lost := (journal labels [] s (List.append_nil _).symm run).lost broken
    rw [stored] at lost
    omega

theorem first_session_appended :
    let labels : List (Nat × Act FileEnv) := [(1, .client .go),
      (1, .client (.recv (.data ⟨[97, newline], by decide, by decide⟩) { call := {}, seek := {} })),
      (1, .client (.read {} 0)), (1, .client (.read {} 0)), (1, .client .go), (0, .stampGo), (0, .stampGo),
      (0, .stamp [98, newline] false {}), (0, .stampGo)]
    AppendLaw (((server regularFile).run oneStamper labels).getD oneStamper)
      ((server regularFile).observe journaled oneStamper labels) := by
  intro labels
  have run := Machine.run_getD (m := server regularFile) (s := oneStamper) (l := labels) (by decide +kernel) oneStamper
  exact (append_law_iff oneStamper_fresh rfl run (by decide +kernel)).2.1 (by decide +kernel) labels [] _
    (List.append_nil _).symm run (by decide +kernel)

/-- The second session writes over the first one's line. -/
theorem second_session_overwrites :
    ¬ ∀ (s₀ s : FileServer) (labels : List (Nat × Act FileEnv)), s₀.Fresh → s₀.world = none →
      (server regularFile).run s₀ labels = some s → (server regularFile).Along Whole s₀ labels → s.mutex = none →
      AppendLaw s ((server regularFile).observe journaled s₀ labels) := by
  intro law
  let line (byte : UInt8) : Act FileEnv :=
    .client (.recv (.data ⟨[byte, newline], by simp, by simp⟩) { call := {}, seek := {} })
  let labels : List (Nat × Act FileEnv) := [(1, .client .go), (1, line 97), (1, .client (.read {} 0)),
    (1, .client (.read {} 0)), (1, .client .go), (2, .client .go), (2, line 98), (2, .client (.read {} 0)),
    (2, .client (.read {} 0)), (2, .client .go)]
  have run := Machine.run_getD (m := server regularFile) (s := oneStamper) (l := labels) (by decide +kernel) oneStamper
  have stored := (law _ _ labels oneStamper_fresh rfl run (by decide +kernel) (by decide +kernel)).stored
  exact absurd stored (by decide +kernel)

end Aesd
