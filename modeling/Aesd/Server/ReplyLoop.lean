import Aesd.Driver.Files
import Aesd.Server.DeviceService
import Aesd.Server.FileShape

/-!
# The reply loop ends

Each `read` that gives something moves on inside the file, and nobody else
changes the file while the loop runs. So a session that has had its newline takes
few more steps, and the mutex is held for ever only in the receive loop.
-/

namespace Aesd
open Library

/-- The positions that the calls leave are positions of the file, and a `read` that gives something moves on. -/
structure Advances {W E : Type} (file : DataFile W E) (good : W → Prop) (size : W → Nat) (place : Int → Prop) : Prop where
  lseek : ∀ env w fpos, (file.lseek env w fpos).1 ≠ -1 → place (file.lseek env w fpos).2
  ioctl : ∀ env seekto w, (file.ioctl env seekto w 0).1 ≠ -1 → place (file.ioctl env seekto w 0).2
  read : ∀ env w fpos, good w → place fpos → (file.read env w fpos).retval > 0 →
    place (file.read env w fpos).fpos ∧ fpos < (file.read env w fpos).fpos ∧ fpos < size w
  unlink : ∀ w, size (file.unlink w) ≤ size w

/-- How many steps a session past its newline may still take on a file of this size. -/
def Client.remaining (size : Nat) (c : Client) : Nat :=
  match c.pc with
  | .replying fpos => (size - fpos).toNat + 2
  | .failing => 2
  | .unlocking | .cleaning => 1
  | .start | .receiving | .returned | .hungUp | .exited | .killed => 0

/-- The newline has come, or the session has failed or ended. -/
def Client.Past (c : Client) : Prop := c.pc ≠ .start ∧ c.pc ≠ .receiving

instance (c : Client) : Decidable c.Past := inferInstanceAs (Decidable (_ ∧ _))

/-- What the session's next calls come back with in the reply loop, when its `send` returns, and after it. -/
def Client.Returns (c : Client) (answer : Answer E) : Prop :=
  match c.pc with
  | .replying _ => ∃ env unsent, answer = .read env unsent
  | _ => answer = .go

def Client.Placed (place : Int → Prop) (c : Client) : Prop := ∀ fpos, c.pc = .replying fpos → place fpos

variable {W E : Type} {file : DataFile W E} {good : W → Prop} {size : W → Nat} {place : Int → Prop} {c : Client}
  {w : W} {answer : Answer E} {next : Client × W} {chunk : Chunk} {env : Pass E} {s s' s₀ : Server W} {t : Nat}
  {label : Nat × Act E} {labels more : List (Nat × Act E)}

/-! ### One session -/

theorem Client.remaining_outside (outside : ∀ fpos, c.pc ≠ .replying fpos) (m n : Nat) :
    c.remaining m = c.remaining n := by
  cases here : c.pc with
  | replying fpos => exact (outside fpos here).elim
  | _ => simp only [Client.remaining, here]

namespace Advances

theorem pass (h : Advances file good size place) (receiving : c.pc = .receiving) :
    (c.pass file w chunk env).1.Placed place := by
  intro fpos replies
  unfold Client.pass at replies
  split at replies
  · simp at replies
  simp only at replies
  split at replies
  · split at replies
    · simp at replies
    · split at replies
      · simp at replies
      rename_i accepted
      split at replies
      · obtain rfl := ClientPc.replying.inj replies
        exact h.ioctl _ _ _ accepted
      · simp [receiving] at replies
  · split at replies
    · split at replies
      · simp at replies
      rename_i rewound
      obtain rfl := ClientPc.replying.inj replies
      exact h.lseek _ _ _ rewound
    · simp [receiving] at replies

theorem placed_step (h : Advances file good size place) (isGood : good w) (before : c.Placed place)
    (step : c.step file w answer = some next) : next.1.Placed place := by
  have away {pc : ClientPc} (same : next.1.pc = pc) (other : ∀ fpos, pc ≠ .replying fpos) : next.1.Placed place := by
    intro fpos replies
    exact (other fpos (same.symm.trans replies)).elim
  cases here : c.pc with
  | start =>
    obtain ⟨_, rfl⟩ := Client.step_start here step
    exact away rfl (by simp)
  | receiving =>
    obtain ⟨result, env, _, rfl⟩ := Client.step_receiving here step
    cases result with
    | data chunk => exact h.pass here
    | _ => exact away rfl (by simp)
  | replying fpos =>
    obtain ⟨env, unsent, _, rfl⟩ | ⟨env, _, _, rfl⟩ := Client.step_replying here step
    case inr => exact away rfl (by simp)
    by_cases more : (file.read env w fpos).retval > 0
    · rw [if_pos more]
      intro moved replies
      obtain rfl := ClientPc.replying.inj replies
      exact (h.read env w fpos isGood (before fpos here) more).1
    · rw [if_neg more]
      intro moved replies
      cases replies
  | unlocking =>
    obtain ⟨_, rfl⟩ := Client.step_unlocking here step
    exact away rfl (by simp)
  | failing =>
    obtain ⟨_, rfl⟩ := Client.step_failing here step
    exact away rfl (by simp)
  | cleaning =>
    obtain ⟨_, rfl⟩ := Client.step_cleaning here step
    exact away rfl (by simp)
  | _ => exact absurd (by simp [Client.Done, here]) (Client.step_running step)

theorem remaining_step (h : Advances file good size place) (isGood : good w) (before : c.Placed place) (past : c.Past)
    (step : c.step file w answer = some next) :
    next.1.Past ∧ next.1.remaining (size next.2) + 1 ≤ c.remaining (size w) := by
  cases here : c.pc with
  | start => exact (past.1 here).elim
  | receiving => exact (past.2 here).elim
  | replying fpos =>
    obtain ⟨env, unsent, _, rfl⟩ | ⟨env, _, _, rfl⟩ := Client.step_replying here step
    case inr => simp [Client.Past, Client.remaining, here]
    by_cases more : (file.read env w fpos).retval > 0
    · obtain ⟨_, onward, inside⟩ := h.read env w fpos isGood (before fpos here) more
      rw [if_pos more]
      refine ⟨by simp [Client.Past], ?_⟩
      simp only [Client.remaining, here, Client.goto_pc]
      omega
    · rw [if_neg more]
      refine ⟨by simp [Client.Past], ?_⟩
      simp only [Client.remaining, here, Client.goto_pc]
      omega
  | unlocking =>
    obtain ⟨_, rfl⟩ := Client.step_unlocking here step
    simp [Client.Past, Client.remaining, here]
  | failing =>
    obtain ⟨_, rfl⟩ := Client.step_failing here step
    simp [Client.Past, Client.remaining, here]
  | cleaning =>
    obtain ⟨_, rfl⟩ := Client.step_cleaning here step
    simp [Client.Past, Client.remaining, here]
  | _ => exact absurd (by simp [Client.Done, here]) (Client.step_running step)

end Advances

theorem Client.remaining_zero {m : Nat} (past : c.Past) (none' : c.remaining m = 0) : c.Done := by
  obtain ⟨started, received⟩ := past
  cases here : c.pc with
  | start => exact (started here).elim
  | receiving => exact (received here).elim
  | returned | hungUp | exited | killed => simp [Client.Done, here]
  | _ => simp [Client.remaining, here] at none'

theorem Client.step_returns (past : c.Past) (busy : ¬ c.Done) (returns : c.Returns answer) :
    (c.step file w answer).isSome := by
  obtain ⟨started, received⟩ := past
  unfold Client.Returns at returns
  cases here : c.pc with
  | start => exact (started here).elim
  | receiving => exact (received here).elim
  | replying fpos =>
    rw [here] at returns
    obtain ⟨env, unsent, rfl⟩ := returns
    simp only [Client.step, here]
    split <;> rfl
  | unlocking | failing | cleaning =>
    rw [here] at returns
    obtain rfl := returns
    simp [Client.step, here]
  | _ => exact (busy (by simp [Client.Done, here])).elim

theorem Client.remaining_mono {m n : Nat} (le : m ≤ n) : c.remaining m ≤ c.remaining n := by
  cases here : c.pc with
  | replying fpos =>
    simp only [Client.remaining, here]
    omega
  | _ => simp only [Client.remaining, here, Nat.le_refl]

/-! ### All threads -/

/-- The file is changed by who holds the mutex, or removed. -/
theorem changes_file (step : (server file).step s label = some s') :
    (s.threads label.1).Holds ∨ s'.world = s.world ∨ s'.world = file.unlink s.world := by
  obtain ⟨u, act⟩ := label
  obtain ⟨_, ⟨c, answer, next, here, rfl, _, moved, rfl⟩ | ⟨pc, here, stamped⟩⟩ := server_step step
  · simp only [here]
    cases at' : c.pc with
    | start =>
      obtain ⟨_, rfl⟩ := Client.step_start at' moved
      exact Or.inr (Or.inl rfl)
    | cleaning =>
      obtain ⟨_, rfl⟩ := Client.step_cleaning at' moved
      exact Or.inr (Or.inr rfl)
    | returned | exited | killed => exact absurd (by simp [Client.Done, at']) (Client.step_running moved)
    | _ => exact Or.inl (by simp [Thread.Holds, at'])
  · simp only [here]
    cases stamped with
    | wait | stop | lock => exact Or.inr (Or.inl rfl)
    | fail | write | unlock => exact Or.inl (by simp [Thread.Holds])

structure Placed (place : Int → Prop) (s : Server W) : Prop where
  exclusive : Exclusive Thread.Holds s.mutex s.threads
  placed : ∀ t c, s.threads t = .client c → c.Placed place

theorem Placed.step (advances : Advances file good size place) (h : Placed place s) (isGood : good s.world)
    (step : (server file).step s label = some s') : Placed place s' := by
  obtain ⟨u, act⟩ := label
  refine ⟨server_exclusive h.exclusive step, ?_⟩
  obtain ⟨_, ⟨c, answer, next, here, rfl, _, moved, rfl⟩ | ⟨pc, here, stamped⟩⟩ := server_step step
  · exact all_clients h.placed (advances.placed_step isGood (h.placed u c here) moved)
  · cases stamped with
    | fail => exact h.placed
    | _ => exact all_clients_stamper h.placed

theorem Server.Fresh.placed (fresh : s.Fresh) (place : Int → Prop) : Placed place s where
  exclusive := fresh.exclusive
  placed := by
    intro t c here fpos replies
    rcases fresh.outside t with ⟨buffer, at'⟩ | at'
    · obtain rfl := Thread.client.inj (here.symm.trans at')
      cases replies
    · cases here.symm.trans at'

/-- Nobody can keep a session past its newline from its next step. -/
theorem past_moves (running : s.exited = false) (here : s.threads t = .client c) (past : c.Past) (busy : ¬ c.Done)
    (returns : c.Returns answer) : ((server file).step s (t, .client answer)).isSome := by
  simp only [server, running, here, Bool.false_eq_true, if_false, past.1, false_and, Option.isSome_map]
  exact Client.step_returns past busy returns

/-- Steps of other threads leave a session past its newline where it is, on a file that did not grow. -/
theorem others_leave (advances : Advances file good size place) (h : Placed place s) (here : s.threads t = .client c)
    (other : t ≠ label.1) (step : (server file).step s label = some s') :
    s'.threads t = .client c ∧ c.remaining (size s'.world) ≤ c.remaining (size s.world) := by
  have same : s'.threads t = s.threads t := by
    obtain ⟨u, act⟩ := label
    obtain ⟨_, ⟨d, answer, next, _, _, _, _, rfl⟩ | ⟨pc, _, stamped⟩⟩ := server_step step
    · exact Function.update_of_ne other _ _
    · cases stamped with
      | fail => rfl
      | _ => exact Function.update_of_ne other _ _
  refine ⟨same.trans here, ?_⟩
  rcases changes_file step with inside | kept | removed
  · have outside : ∀ fpos, c.pc ≠ .replying fpos := by
      intro fpos replies
      apply other
      apply h.exclusive.unique _ inside
      rw [here]
      simp [Thread.Holds, replies]
    exact Nat.le_of_eq (Client.remaining_outside outside _ _)
  · rw [kept]
  · rw [removed]
    exact Client.remaining_mono (advances.unlink s.world)

/-! ### Every run -/

theorem steps_bounded (advances : Advances file good size place) (placed : Placed place s)
    (here : s.threads t = .client c) (past : c.Past)
    (fine : (server file).Along (fun s _ => good s.world) s more) (later : (server file).run s more = some s') :
    ∃ d, s'.threads t = .client d ∧ d.Past ∧
      more.countP (fun label => label.1 = t) + d.remaining (size s'.world) ≤ c.remaining (size s.world) := by
  have counted := Machine.run_induction (P := fun labels v => Placed place v ∧
      ∃ d, v.threads t = .client d ∧ d.Past ∧
        labels.countP (fun label => label.1 = t) + d.remaining (size v.world) ≤ c.remaining (size s.world))
    ⟨placed, c, here, past, by simp⟩
    (by
      intro labels v label v' _ before isGood step
      obtain ⟨placed, d, at', past, bound⟩ := before
      refine ⟨placed.step advances isGood step, ?_⟩
      rw [List.countP_append]
      by_cases own : t = label.1
      · obtain ⟨u, act⟩ := label
        obtain rfl : t = u := own
        obtain ⟨_, ⟨e, answer, next, there, rfl, _, moved, rfl⟩ | ⟨pc, there, _⟩⟩ := server_step step
        · obtain rfl := Thread.client.inj (at'.symm.trans there)
          obtain ⟨after, lower⟩ := advances.remaining_step isGood (placed.placed t d at') past moved
          refine ⟨next.1, Function.update_self .., after, ?_⟩
          simp only [List.countP_singleton, decide_true, if_true]
          omega
        · cases at'.symm.trans there
      · obtain ⟨same, lower⟩ := others_leave advances placed at' own step
        refine ⟨d, same, past, ?_⟩
        rw [List.countP_singleton, if_neg (by simpa using Ne.symm own)]
        omega)
    fine later
  exact counted.2

/-! ### The two files -/

theorem regular_advances : Advances regularFile (fun _ => True) (fun content => (content.getD []).length) (fun _ => True)
    where
  lseek _ _ _ _ := trivial
  ioctl _ _ _ _ := trivial
  read env content fpos _ _ more := by
    refine ⟨trivial, ?_⟩
    cases fails : env.fails with
    | true => simp [regularFile, fails] at more
    | false =>
      simp only [regularFile, fails, Bool.false_eq_true, if_false, List.length_take, List.length_drop] at more ⊢
      omega
  unlink content := by simp [regularFile]

/-- What a `loff_t` can be. -/
def IsLoff (fpos : Int) : Prop := -(2 ^ 63) ≤ fpos ∧ fpos < 2 ^ 63

theorem loffT_isLoff (x : Int) : IsLoff (loffT x) := by
  have low := Int.le_bmod (x := x) (m := 2 ^ 64) (by decide)
  have high := Int.bmod_lt (x := x) (m := 2 ^ 64) (by decide)
  unfold IsLoff loffT
  omega

theorem device_advances : Advances device (fun w => ∃ ring pending lost, Layout w ring pending lost)
    (fun w => w.records.flatten.length) IsLoff where
  lseek env w fpos worked := by
    simp only [device, aesdLlseek, seekWithin, if_true] at worked ⊢
    by_cases outside : (0 : Int) < 0 ∨ (0 : Int) > getBufferSize env w
    · rw [if_pos outside] at worked
      exact (worked rfl).elim
    · rw [if_neg outside]
      exact ⟨by decide, by decide⟩
  ioctl env seekto w _ := by
    have zero : IsLoff 0 := ⟨by decide, by decide⟩
    simp only [device, aesdIoctl, if_true]
    split
    · exact zero
    · split
      · exact zero
      · split
        · exact zero
        · exact loffT_isLoff _
  read env w fpos known position more := by
    obtain ⟨ring, pending, lost, layout⟩ := known
    obtain ⟨low, high⟩ := position
    have bound := layout.records_lt
    simp only [device] at more ⊢
    cases interrupted : env.interrupted with
    | true => simp [aesdRead, interrupted, sysret, erestartsys] at more
    | false =>
      have result := layout.read_eq env 1024 fpos
      simp only at result
      rw [aesdRead, interrupted, if_neg (by decide), result] at more ⊢
      by_cases ended : restOfRecord (ring.map Prod.snd) (toSizeT fpos) = []
      · simp [ended, sysret] at more
      rw [if_neg ended] at more ⊢
      split at more
      · simp [sysret, efault] at more
      · rename_i copied
        rw [if_neg copied]
        -- A position below 0 is past every record.
        have inside : toSizeT fpos < (ring.map Prod.snd).flatten.length := by
          by_contra past
          exact ended (restOfRecord_eq_nil.mpr (Nat.le_of_not_lt past))
        have same : fpos = toSizeT fpos := by
          unfold toSizeT at inside ⊢
          omega
        have short := (restOfRecord_front (ring.map Prod.snd) (toSizeT fpos)).length_le
        have some' := List.length_pos_of_ne_nil ended
        rw [List.length_drop] at short
        have moved : loffT (fpos + ((restOfRecord (ring.map Prod.snd) (toSizeT fpos)).take 1024).length) =
            fpos + ((restOfRecord (ring.map Prod.snd) (toSizeT fpos)).take 1024).length := by
          rw [List.length_take]
          exact loffT_of_bounds (by omega) (by omega)
        rw [layout.records_eq]
        refine ⟨loffT_isLoff _, ?_, by omega⟩
        show fpos < loffT _
        rw [moved, List.length_take]
        omega
  unlink w := Nat.le_refl _

/-- In every run of the regular-file build a session past its newline takes no more steps than its file has bytes
left for it, and two, and is done when it has taken them all. Until it is, nobody can keep it from its next step: as
long as `send` returns, the loop goes on. -/
theorem file_reply_ends {s₀ s s' : FileServer} {t : Nat} {labels more : List (Nat × Act FileEnv)} (fresh : s₀.Fresh)
    (run : (server regularFile).run s₀ labels = some s) (here : s.threads t = .client c) (past : c.Past)
    (later : (server regularFile).run s more = some s') :
    more.countP (fun label => label.1 = t) ≤ c.remaining s.content.length ∧
    ∃ d, s'.threads t = .client d ∧
      (more.countP (fun label => label.1 = t) = c.remaining s.content.length → d.Done) ∧
      (s'.exited = false → ¬ d.Done → ∀ answer, d.Returns answer →
        ((server regularFile).step s' (t, .client answer)).isSome) := by
  have placed := Machine.run_invariant (P := Placed fun _ => True)
    (fun before _ step => before.step regular_advances trivial step) (fresh.placed _) Machine.along_true run
  obtain ⟨d, at', past, bound⟩ := steps_bounded regular_advances placed here past Machine.along_true later
  refine ⟨Nat.le_of_add_right_le bound, d, at', ?_, fun running busy answer => past_moves running at' past busy⟩
  intro all
  exact Client.remaining_zero past (m := s'.content.length) (by simp only [Server.content] at all ⊢; omega)

/-- A file of four bytes: no more than six steps, and one of them is open while the timestamp thread waits. -/
theorem file_reply_ends_stamped :
    let labels : List (Nat × Act FileEnv) := [(1, .client .go),
      (1, .client (.recv (.data ⟨[97, 98, 99, newline], by decide, by decide⟩) { call := {}, seek := {} }))]
    let more : List (Nat × Act FileEnv) := [(0, .stampGo), (1, .client (.read {} 0))]
    let s := ((server regularFile).run oneStamper labels).getD oneStamper
    let s' := ((server regularFile).run s more).getD s
    ∃ c, s.threads 1 = .client c ∧ c.remaining s.content.length = 6 ∧
      more.countP (fun label => label.1 = 1) ≤ c.remaining s.content.length ∧
      ((server regularFile).step s' (1, .client (.read {} 0))).isSome := by
  intro labels more s s'
  have run := Machine.run_getD (m := server regularFile) (s := oneStamper) (l := labels) (by decide +kernel) oneStamper
  have later := Machine.run_getD (m := server regularFile) (s := s) (l := more) (by decide +kernel) s
  obtain ⟨c, here, replying⟩ := client_at (show (s.threads 1).clientPc = some (.replying 0) by decide +kernel)
  obtain ⟨bound, d, at', _, goes⟩ :=
    file_reply_ends (s := s) oneStamper_fresh run here (by simp [Client.Past, replying]) later
  have replied : (s'.threads 1).clientPc = some (.replying 4) := by decide +kernel
  have still : d.pc = .replying 4 := Option.some.inj ((congrArg Thread.clientPc at').symm.trans replied)
  refine ⟨c, here, ?_, bound, goes (by decide +kernel) (by simp [Client.Done, still]) _ ?_⟩
  · simp only [Client.remaining, replying]
    decide +kernel
  · simp [Client.Returns, still]

/-- So it is on the device, whose bytes are those of the stored records. -/
theorem device_reply_ends {s₀ s s' : DeviceServer} {t : Nat} {labels more : List (Nat × Act CallEnv)}
    (started : Started s₀) (run : (server device).run s₀ labels = some s) (here : s.threads t = .client c) (past : c.Past)
    (later : (server device).run s more = some s') :
    more.countP (fun label => label.1 = t) ≤ c.remaining s.world.records.flatten.length := by
  have known {labels : List (Nat × Act CallEnv)} {v : DeviceServer} (run : (server device).run s₀ labels = some v) :
      ∃ ring pending lost, Layout v.world ring pending lost := by
    have written := Machine.run_induction (P := Written s₀) started.written
      (fun reached before _ step => before.step reached step) Machine.along_true run
    obtain ⟨ring, pending, lost, layout, _⟩ := written.layout
    exact ⟨ring, pending, lost, layout⟩
  have placed := Machine.run_induction (P := fun _ => Placed IsLoff) (started.fresh.placed _)
    (fun reached before _ step => before.step device_advances (known reached) step) Machine.along_true run
  have stays : (server device).Along (fun v _ => ∃ ring pending lost, Layout v.world ring pending lost) s more := by
    apply Machine.along_of_prefixes
    intro earlier label rest v _ reached
    exact known (Machine.run_append.mpr ⟨s, run, reached⟩)
  obtain ⟨_, _, _, bound⟩ := steps_bounded device_advances placed here past stays later
  exact Nat.le_of_add_right_le bound

/-- A line of two bytes, and a second session that waits for the mutex and gets it. -/
theorem device_reply_ends_waiting :
    let labels : List (Nat × Act CallEnv) := [(1, .client .go),
      (1, .client (.recv (.data ⟨[97, newline], by decide, by decide⟩) { call := { kmallocAt := some 1 }, seek := {} }))]
    let more : List (Nat × Act CallEnv) := [(1, .client (.read {} 0)), (1, .client (.read {} 0)), (1, .client .go),
      (2, .client .go), (2, .client (.recv .eof { call := {}, seek := {} }))]
    let s₀ := service fun _ => []
    let s := ((server device).run s₀ labels).getD s₀
    ∃ c, s.threads 1 = .client c ∧ c.remaining s.world.records.flatten.length = 4 ∧
      more.countP (fun label => label.1 = 1) ≤ c.remaining s.world.records.flatten.length := by
  intro labels more s₀ s
  have run := Machine.run_getD (m := server device) (s := s₀) (l := labels) (by decide +kernel) s₀
  have later := Machine.run_getD (m := server device) (s := s) (l := more) (by decide +kernel) s
  obtain ⟨c, here, replying⟩ := client_at (show (s.threads 1).clientPc = some (.replying 0) by decide +kernel)
  refine ⟨c, here, ?_, device_reply_ends (s := s) (service_started _) run here (by simp [Client.Past, replying]) later⟩
  simp only [Client.remaining, replying]
  decide +kernel

end Aesd
