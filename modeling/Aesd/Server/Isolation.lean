import Aesd.Server.Threads

/-!
# Sessions and the mutex

A session locks `file_mutex` once, before its receive loop, and unlocks it in some
of the loop's exits. Where `recv` returns 0 or -1 it returns with the mutex.
-/

namespace Aesd
open Library

variable {W E : Type} {file : DataFile W E} {s s' s₀ : Server W} {t u : Nat} {act : Act E} {label : Nat × Act E}
  {labels : List (Nat × Act E)} {c : Client} {w : W}

def Thread.Ended : Thread → Prop
  | .client c => c.Done
  | .stamper pc => pc = .finished

/-- No ended thread has the mutex, each session that has returned locked and unlocked it once, and a
client that waits for it can still get it. -/
structure Isolated (file : DataFile W E) (s : Server W) : Prop where
  running : s.exited = false
  released : ∀ t, (s.threads t).Ended → s.mutex ≠ some t
  once : ∀ t c, s.threads t = .client c → c.pc = .returned ∨ c.pc = .hungUp →
    c.log.count .locked = 1 ∧ c.log.count .unlocked = 1
  serves : ∀ t c, s.threads t = .client c → c.pc = .start → ∃ labels s' c', (server file).run s labels = some s' ∧
    s'.mutex = some t ∧ s'.threads t = .client c' ∧ c'.pc = .receiving

/-- `recv` does not return 0 or -1, and the step does not end the process, by `exit` or by SIGPIPE. -/
def Stays (s : Server W) (label : Nat × Act E) : Prop :=
  match s.threads label.1, label.2 with
  | .client _, .client (.recv (.data _) _) => True
  | .client _, .client (.recv _ _) | .client _, .client (.sigpipe _) => False
  | .client c, .client .go => c.pc ≠ .cleaning
  | .stamper _, .stamp _ openFails _ => openFails = false
  | _, _ => True

instance (s : Server W) (label : Nat × Act E) : Decidable (Stays s label) := by
  unfold Stays; split <;> infer_instance

/-! ### Locks and unlocks of one session -/

def Client.Balanced (c : Client) : Prop :=
  c.log.count .locked = (if c.pc = .start then 0 else 1) ∧
    c.log.count .unlocked = if c.pc = .returned ∨ c.pc = .cleaning ∨ c.pc = .exited then 1 else 0

theorem Client.step_balanced {answer : Answer E} {next : Client × W} (h : c.Balanced)
    (step : c.step file w answer = some next) : next.1.Balanced := by
  obtain ⟨locks, unlocks⟩ := h
  cases here : c.pc with
  | start =>
    obtain ⟨_, rfl⟩ := Client.step_start here step
    simp_all [Balanced]
  | receiving =>
    obtain ⟨result, env, _, rfl⟩ := Client.step_receiving here step
    cases result with
    | data chunk =>
      obtain ⟨same | fails | ⟨fpos, replies⟩, locked, unlocked⟩ := Client.pass_pc file c w chunk env
      · simp_all [Balanced]
      · simp_all [Balanced]
      · simp_all [Balanced]
    | _ => simp_all [Balanced]
  | replying fpos =>
    obtain ⟨env, unsent, _, rfl⟩ | ⟨env, _, _, rfl⟩ := Client.step_replying here step
    · split <;> simp_all [Balanced]
    · simp_all [Balanced]
  | unlocking =>
    obtain ⟨_, rfl⟩ := Client.step_unlocking here step
    simp_all [Balanced]
  | failing =>
    obtain ⟨_, rfl⟩ := Client.step_failing here step
    simp_all [Balanced]
  | cleaning =>
    obtain ⟨_, rfl⟩ := Client.step_cleaning here step
    simp_all [Balanced]
  | _ => exact absurd (by simp [Client.Done, here]) (Client.step_running step)

/-! ### What holds as long as the process stays -/

structure Sound (s : Server W) : Prop where
  running : s.exited = false
  exclusive : Exclusive Thread.Holds s.mutex s.threads
  alive : ∀ t c, s.threads t = .client c → c.pc ≠ .hungUp ∧ ¬ c.Ends
  balanced : ∀ t c, s.threads t = .client c → c.Balanced

theorem Server.Fresh.sound (h : s.Fresh) : Sound s where
  running := h.running
  exclusive := h.exclusive
  alive := by
    intro t c here
    rcases h.outside t with ⟨buffer, at'⟩ | at'
    · obtain rfl := Thread.client.inj (here.symm.trans at')
      simp
    · cases here.symm.trans at'
  balanced := by
    intro t c here
    rcases h.outside t with ⟨buffer, at'⟩ | at'
    · obtain rfl := Thread.client.inj (here.symm.trans at')
      simp [Client.Balanced]
    · cases here.symm.trans at'

theorem stays_iff (h : Sound s) (step : (server file).step s label = some s') :
    (Stays s label → Sound s') ∧
      (¬ Stays s label → s'.exited = true ∨ ∃ t c, s'.threads t = .client c ∧ c.pc = .hungUp ∧ s'.mutex = some t) := by
  obtain ⟨t, act⟩ := label
  have exclusive := server_exclusive h.exclusive step
  obtain ⟨running, ⟨c, answer, next, here, rfl, _, moved, rfl⟩ | ⟨pc, here, stamped⟩⟩ := server_step step
  · have balanced := all_clients h.balanced (t := t) (Client.step_balanced (h.balanced t c here) moved)
    have sound (alive : next.1.pc ≠ .hungUp ∧ ¬ next.1.Ends) : Sound (W := W)
        { world := next.2, mutex := c.owner t s.mutex, threads := Function.update s.threads t (.client next.1)
          exited := next.1.Ends } :=
      ⟨by simpa using alive.2, exclusive, all_clients h.alive alive, balanced⟩
    have stays {P : Prop} (holds : P) (alive : next.1.pc ≠ .hungUp ∧ ¬ next.1.Ends) {Q : Prop} :
        (P → Sound (W := W)
          { world := next.2, mutex := c.owner t s.mutex, threads := Function.update s.threads t (.client next.1)
            exited := next.1.Ends }) ∧ (¬ P → Q) :=
      ⟨fun _ => sound alive, fun leaves => (leaves holds).elim⟩
    cases at' : c.pc with
    | start =>
      obtain ⟨rfl, rfl⟩ := Client.step_start at' moved
      exact stays (by simp [Stays, here, at']) (by simp)
    | receiving =>
      obtain ⟨result, env, rfl, rfl⟩ := Client.step_receiving at' moved
      cases result with
      | data chunk =>
        apply stays (by simp [Stays, here])
        obtain ⟨same | fails | ⟨fpos, replies⟩, _⟩ := Client.pass_pc file c s.world chunk env
        · simp [same, at']
        · simp [fails]
        · simp [replies]
      | _ =>
        refine ⟨by simp [Stays, here], fun _ => Or.inr ⟨t, c.goto .hungUp, Function.update_self .., rfl, ?_⟩⟩
        simp only [Client.owner, at']
        exact (h.exclusive t).mp (by rw [here]; simp [Thread.Holds, at'])
    | replying fpos =>
      obtain ⟨env, unsent, rfl, rfl⟩ | ⟨env, rfl, _, rfl⟩ := Client.step_replying at' moved
      · apply stays (by simp [Stays, here])
        split <;> simp
      · exact ⟨by simp [Stays, here], fun _ => Or.inl (by simp)⟩
    | unlocking =>
      obtain ⟨rfl, rfl⟩ := Client.step_unlocking at' moved
      exact stays (by simp [Stays, here, at']) (by simp)
    | failing =>
      obtain ⟨rfl, rfl⟩ := Client.step_failing at' moved
      exact stays (by simp [Stays, here, at']) (by simp)
    | cleaning =>
      obtain ⟨rfl, rfl⟩ := Client.step_cleaning at' moved
      exact ⟨by simp [Stays, here, at'], fun _ => Or.inl (by simp)⟩
    | _ => exact absurd (by simp [Client.Done, at']) (Client.step_running moved)
  · cases stamped with
    | fail line env => exact ⟨by simp [Stays, here], fun _ => Or.inl rfl⟩
    | _ =>
      exact ⟨fun _ => ⟨running, exclusive, all_clients_stamper h.alive, all_clients_stamper h.balanced⟩,
        fun leaves => (leaves (by simp [Stays, here])).elim⟩

/-! ### A waiting client can be served -/

theorem client_moves {answer : Answer E} {next : Client × W} (running : s.exited = false)
    (here : s.threads t = .client c) (past : c.pc ≠ .start) (moved : c.step file s.world answer = some next) :
    (server file).step s (t, .client answer) = some
      { world := next.2
        mutex := c.owner t s.mutex
        threads := Function.update s.threads t (.client next.1)
        exited := next.1.Ends } := by
  simp [server, running, here, past, moved]

/-- From `s` the steps of thread `u` alone can lead to a free mutex. -/
def Frees (file : DataFile W E) (u : Nat) (s : Server W) : Prop :=
  ∃ labels s', (server file).run s labels = some s' ∧ s'.mutex = none ∧ s'.exited = false ∧
    ∀ v ≠ u, s'.threads v = s.threads v

theorem Frees.after (step : (server file).step s (u, act) = some s')
    (others : ∀ v ≠ u, s'.threads v = s.threads v) (later : Frees file u s') : Frees file u s := by
  obtain ⟨labels, s'', run, free, running, same⟩ := later
  refine ⟨(u, act) :: labels, s'', Machine.run_cons.mpr ⟨s', step, run⟩, free, running, ?_⟩
  intro v other
  rw [same v other, others v other]

theorem Frees.now (step : (server file).step s (u, act) = some s') (free : s'.mutex = none)
    (running : s'.exited = false) (others : ∀ v ≠ u, s'.threads v = s.threads v) : Frees file u s :=
  ⟨[(u, act)], s', Machine.run_cons.mpr ⟨s', step, rfl⟩, free, running, others⟩

theorem frees_leaving (running : s.exited = false) (here : s.threads u = .client c)
    (leaving : c.pc = .unlocking ∨ c.pc = .failing) : Frees file u s := by
  have past : c.pc ≠ .start := by rcases leaving with at' | at' <;> simp [at']
  have moves : ∃ next : Client × W, c.step file s.world .go = some next ∧ ¬ next.1.Ends := by
    rcases leaving with at' | at'
    · exact ⟨((c.did .unlocked).goto .returned, s.world), by simp only [Client.step, at'], by simp⟩
    · exact ⟨((c.did .unlocked).goto .cleaning, s.world), by simp only [Client.step, at'], by simp⟩
  obtain ⟨next, moved, stays⟩ := moves
  refine Frees.now (client_moves running here past moved) ?_ (by simpa using stays)
    fun v other => Function.update_of_ne other _ _
  simp only [Client.owner, if_neg past, if_pos leaving]

theorem frees_replying {fpos : Int} (running : s.exited = false) (here : s.threads u = .client c)
    (replying : c.pc = .replying fpos) : Frees file u s := by
  obtain ⟨env, nothing⟩ := file.readEnds s.world fpos
  have moved : c.step file s.world (.read env 0) = some ((c.did .closed).goto .unlocking, s.world) := by
    simp only [Client.step, replying]
    rw [if_neg (by omega)]
  refine Frees.after (client_moves running here (by simp [replying]) moved)
    (fun v other => Function.update_of_ne other _ _) ?_
  exact frees_leaving (by simp) (Function.update_self ..) (Or.inl rfl)

theorem frees_receiving (running : s.exited = false) (here : s.threads u = .client c) (receiving : c.pc = .receiving) :
    Frees file u s := by
  obtain ⟨env, _⟩ := file.readEnds s.world 0
  let chunk : Chunk := ⟨[newline], by decide, by decide⟩
  have moved : c.step file s.world (.recv (.data chunk) { call := env, seek := env }) =
      some (c.pass file s.world chunk { call := env, seek := env }) := by
    simp only [Client.step, receiving]
  have leaves : (c.pass file s.world chunk { call := env, seek := env }).1.pc = .failing ∨
      ∃ fpos, (c.pass file s.world chunk { call := env, seek := env }).1.pc = .replying fpos := by
    have line : newline ∈ chunk.bytes := List.mem_singleton.mpr rfl
    rcases Client.pass_cases file c s.world chunk { call := env, seek := env } with
      ⟨_, same⟩ | ⟨_, ⟨_, pc, rfl | onward, same⟩ | ⟨_, same | ⟨pc, onward, same⟩⟩⟩
    · simp [same]
    · simp [same]
    · exact Or.inr (by simpa [same] using onward.replies line)
    · simp [same]
    · exact Or.inr (by simpa [same] using onward.replies line)
  refine Frees.after (client_moves running here (by simp [receiving]) moved)
    (fun v other => Function.update_of_ne other _ _) ?_
  rcases leaves with fails | ⟨fpos, replies⟩
  · exact frees_leaving (by simp [fails]) (Function.update_self ..) (Or.inr fails)
  · exact frees_replying (by simp [replies]) (Function.update_self ..) replies

theorem Sound.frees (h : Sound s) (held : s.mutex = some u) : Frees file u s := by
  have inside := (h.exclusive u).mpr held
  cases here : s.threads u with
  | client c =>
    rw [here] at inside
    cases at' : c.pc with
    | receiving => exact frees_receiving h.running here at'
    | replying fpos => exact frees_replying h.running here at'
    | unlocking => exact frees_leaving h.running here (Or.inl at')
    | failing => exact frees_leaving h.running here (Or.inr at')
    | hungUp => exact ((h.alive u c here).1 at').elim
    | killed => exact ((h.alive u c here).2 (Or.inr at')).elim
    | _ => simp [Thread.Holds, at'] at inside
  | stamper pc =>
    obtain ⟨env, _⟩ := file.readEnds s.world 0
    have unlocks (r : Server W) (running : r.exited = false) (at' : r.threads u = .stamper .unlocking) :
        Frees file u r := by
      have step : (server file).step r (u, .stampGo) =
          some { r with mutex := none, threads := Function.update r.threads u (.stamper .looping) } := by
        simp [server, running, at']
      exact Frees.now step rfl running fun v other => Function.update_of_ne other _ _
    rw [here] at inside
    rcases inside with rfl | rfl
    · have step : (server file).step s (u, .stamp [] false env) = some { s with
          world := file.append env [] s.world
          threads := Function.update s.threads u (.stamper .unlocking) } := by
        simp [server, h.running, here]
      apply Frees.after step fun v other => Function.update_of_ne other _ _
      exact unlocks _ h.running (Function.update_self ..)
    · exact unlocks s h.running here

theorem locks (running : s.exited = false) (free : s.mutex = none) (here : s.threads t = .client c)
    (start : c.pc = .start) : ∃ labels s' c', (server file).run s labels = some s' ∧ s'.mutex = some t ∧
      s'.threads t = .client c' ∧ c'.pc = .receiving := by
  refine ⟨[(t, .client .go)], { s with
    mutex := some t, threads := Function.update s.threads t (.client ((c.did .locked).goto .receiving)) },
    (c.did .locked).goto .receiving, ?_, rfl, Function.update_self .., rfl⟩
  simp [Machine.run, server, running, here, free, Client.step, start, Client.owner]

theorem Sound.isolated (h : Sound s) : Isolated file s where
  running := h.running
  released := by
    intro t ended held
    have inside := (h.exclusive t).mpr held
    cases here : s.threads t with
    | client c =>
      rw [here] at ended inside
      rcases ended with at' | at' | at'
      · simp [Thread.Holds, at'] at inside
      · exact (h.alive t c here).1 at'
      · exact (h.alive t c here).2 at'
    | stamper pc =>
      rw [here] at ended inside
      rcases inside with at' | at' <;> cases ended.symm.trans at'
  once := by
    rintro t c here (at' | at')
    · have balanced := h.balanced t c here
      simpa [Client.Balanced, at'] using balanced
    · exact ((h.alive t c here).1 at').elim
  serves := by
    intro t c here start
    cases held : s.mutex with
    | none => exact locks h.running held here start
    | some u =>
      have frees : Frees file u s := h.frees held
      obtain ⟨labels, s₁, run, free, running, same⟩ := frees
      have other : t ≠ u := by
        rintro rfl
        have inside := (h.exclusive t).mpr held
        simp [here, Thread.Holds, start] at inside
      obtain ⟨more, s₂, c', run', taken, here', receiving⟩ :=
        locks running free ((same t other).trans here) start
      exact ⟨labels ++ more, s₂, c', Machine.run_append.mpr ⟨s₁, run, run'⟩, taken, here', receiving⟩

/-! ### Every run -/

/-- Every state of a run is isolated exactly when in no session `recv` returns 0 or -1 and no thread ends
the process. -/
theorem isolated_iff (fresh : s₀.Fresh) (run : (server file).run s₀ labels = some s) :
    (∀ earlier later t, labels = earlier ++ later → (server file).run s₀ earlier = some t → Isolated file t) ↔
      (server file).Along Stays s₀ labels := by
  have sound {labels : List (Nat × Act E)} {s : Server W} (stays : (server file).Along Stays s₀ labels)
      (run : (server file).run s₀ labels = some s) : Sound s :=
    Machine.run_invariant (fun before here step => (stays_iff before step).1 here) fresh.sound stays run
  constructor
  · intro isolated
    have unguarded : (server file).Along (fun _ _ => True) s₀ labels := Machine.along_true
    refine (Machine.run_induction (P := fun earlier _ => earlier <+: labels → (server file).Along Stays s₀ earlier)
      (fun _ => trivial) ?_ unguarded run) (List.prefix_refl _)
    intro earlier t label u reached before _ step inside
    obtain ⟨later, split⟩ := inside
    have stays := before ⟨label :: later, by simpa using split⟩
    refine (Machine.along_snoc reached).mpr ⟨stays, ?_⟩
    by_contra leaves
    have next := isolated (earlier ++ [label]) later u split.symm (Machine.run_snoc.mpr ⟨t, reached, step⟩)
    rcases (stays_iff (sound stays reached) step).2 leaves with exited | ⟨v, c, here, hungUp, held⟩
    · rw [next.running] at exited
      cases exited
    · exact next.released v (by rw [here]; exact Or.inr (Or.inl hungUp)) held
  · intro stays earlier later t split reached
    subst split
    exact (sound ((Machine.along_append reached).mp stays).1 reached).isolated

theorem session_and_stamp_isolated :
    let labels : List (Nat × Act FileEnv) := [(0, .stampGo), (1, .client .go),
      (1, .client (.recv (.data ⟨[97, newline], by decide, by decide⟩) { call := {}, seek := {} })),
      (1, .client (.read {} 0)), (1, .client (.read {} 0)), (1, .client .go), (0, .stampGo),
      (0, .stamp [98, newline] false {}), (0, .stampGo)]
    Isolated regularFile (((server regularFile).run oneStamper labels).getD oneStamper) := by
  intro labels
  have run := Machine.run_getD (m := server regularFile) (s := oneStamper) (l := labels) (by decide +kernel) oneStamper
  exact (isolated_iff oneStamper_fresh run).mpr (by decide +kernel) labels [] _ (List.append_nil _).symm run

/-- A client that closes its connection before a newline leaves the mutex with a thread that has
returned. -/
theorem closed_client_keeps_mutex :
    ¬ ∀ (s₀ s : Server (Option (List UInt8))) (labels : List (Nat × Act FileEnv)), s₀.Fresh →
      (server regularFile).run s₀ labels = some s → Isolated regularFile s := by
  intro isolated
  let labels : List (Nat × Act FileEnv) := [(1, .client .go), (1, .client (.recv .eof { call := {}, seek := {} }))]
  have run := Machine.run_getD (m := server regularFile) (s := oneStamper) (l := labels) (by decide +kernel) oneStamper
  exact (isolated _ _ labels oneStamper_fresh run).released 1 (Or.inr (Or.inl rfl)) rfl

end Aesd
