import Aesd.Server.Isolation

/-!
# Who is still served

Of the threads that wait for `file_mutex`: all of them, until a client hangs up
before its newline; from then on none.
-/

namespace Aesd
open Library

variable {W E : Type} {file : DataFile W E} {s s' s₀ : Server W} {t u : Nat} {act : Act E} {label : Nat × Act E}
  {labels more : List (Nat × Act E)} {c : Client}

def Thread.Waits : Thread → Prop
  | .client c => c.pc = .start
  | .stamper pc => pc = .waiting

/-- The session returned because `recv` gave 0 or -1. -/
def Thread.HungUp : Thread → Prop
  | .client c => c.pc = .hungUp
  | .stamper _ => False

instance : ∀ thread : Thread, Decidable thread.Waits
  | .client c => inferInstanceAs (Decidable (c.pc = .start))
  | .stamper pc => inferInstanceAs (Decidable (pc = .waiting))

instance : ∀ thread : Thread, Decidable thread.HungUp
  | .client c => inferInstanceAs (Decidable (c.pc = .hungUp))
  | .stamper _ => isFalse id

theorem Thread.HungUp.client {thread : Thread} (hungUp : thread.HungUp) :
    ∃ c, thread = .client c ∧ c.pc = .hungUp := by
  cases thread with
  | client c => exact ⟨c, rfl, hungUp⟩
  | stamper pc => exact hungUp.elim

theorem Thread.HungUp.holds {thread : Thread} (hungUp : thread.HungUp) : thread.Holds := by
  obtain ⟨c, rfl, here⟩ := hungUp.client
  simp [Thread.Holds, here]

theorem Thread.Waits.outside {thread : Thread} (waits : thread.Waits) : ¬ thread.Holds := by
  cases thread with
  | client c => simp [Thread.Holds, show c.pc = .start from waits]
  | stamper pc =>
    obtain rfl : pc = .waiting := waits
    simp [Thread.Holds]

/-! ### What every run keeps -/

structure Tidy (s : Server W) : Prop where
  exclusive : Exclusive Thread.Holds s.mutex s.threads
  balanced : ∀ t c, s.threads t = .client c → c.Balanced
  exited : ∀ t c, s.threads t = .client c → c.Ends → s.exited = true

theorem Server.Fresh.tidy (h : s.Fresh) : Tidy s where
  exclusive := h.exclusive
  balanced := h.sound.balanced
  exited := by
    intro t c here gone
    exact ((h.sound.alive t c here).2 gone).elim

theorem Tidy.step (h : Tidy s) (step : (server file).step s label = some s') : Tidy s' := by
  obtain ⟨t, act⟩ := label
  have exclusive := server_exclusive h.exclusive step
  obtain ⟨running, ⟨c, answer, next, here, rfl, _, moved, rfl⟩ | ⟨pc, here, stamped⟩⟩ := server_step step
  · have alive : ∀ u d, s.threads u = .client d → ¬ d.Ends := by
      intro u d at' gone
      cases running.symm.trans (h.exited u d at' gone)
    refine ⟨exclusive, all_clients h.balanced (Client.step_balanced (h.balanced t c here) moved), ?_⟩
    by_cases ends : next.1.Ends
    · intro u d _ _
      exact decide_eq_true ends
    · intro u d at' gone
      exact (all_clients alive ends u d at' gone).elim
  · cases stamped with
    | fail line env => exact ⟨exclusive, h.balanced, fun _ _ _ _ => rfl⟩
    | _ => exact ⟨exclusive, all_clients_stamper h.balanced, all_clients_stamper h.exited⟩

theorem run_tidy (fresh : s₀.Fresh) (run : (server file).run s₀ labels = some s) : Tidy s :=
  Machine.run_invariant (P := Tidy) (fun before _ step => before.step step) fresh.tidy Machine.along_true run

theorem Tidy.sound (h : Tidy s) (running : s.exited = false) (none' : ∀ u, ¬ (s.threads u).HungUp) : Sound s where
  running := running
  exclusive := h.exclusive
  alive := by
    intro t c here
    constructor
    · intro hungUp
      apply none' t
      rw [here]
      exact hungUp
    · intro gone
      cases running.symm.trans (h.exited t c here gone)
  balanced := h.balanced

/-- A thread that has returned with the mutex keeps it. -/
theorem hung_up_step (hungUp : (s.threads u).HungUp) (step : (server file).step s label = some s') :
    (s'.threads u).HungUp := by
  obtain ⟨t, act⟩ := label
  obtain ⟨d, dead, gone⟩ := hungUp.client
  have other {r : Thread} (same : t ≠ u) : (Function.update s.threads t r u).HungUp := by
    rw [Function.update_of_ne (Ne.symm same)]
    exact hungUp
  obtain ⟨_, ⟨c, answer, next, here, rfl, _, moved, rfl⟩ | ⟨pc, here, stamped⟩⟩ := server_step step
  · apply other
    rintro rfl
    obtain rfl := Thread.client.inj (dead.symm.trans here)
    exact Client.step_running moved (Or.inr (Or.inl gone))
  · have apart : t ≠ u := by
      rintro rfl
      cases dead.symm.trans here
    cases stamped with
    | fail => exact hungUp
    | _ => exact other apart

/-! ### Every run -/

theorem takes_mutex (running : s.exited = false) (free : s.mutex = none) (waits : (s.threads t).Waits) :
    ∃ labels s', (server file).run s labels = some s' ∧ s'.mutex = some t := by
  cases here : s.threads t with
  | client c =>
    rw [here] at waits
    have locked : ∃ labels s' c', (server file).run s labels = some s' ∧ s'.mutex = some t ∧
        s'.threads t = .client c' ∧ c'.pc = .receiving := locks running free here waits
    obtain ⟨labels, s', _, run, taken, _⟩ := locked
    exact ⟨labels, s', run, taken⟩
  | stamper pc =>
    rw [here] at waits
    obtain rfl : pc = .waiting := waits
    exact ⟨[(t, .stampGo)], { s with mutex := some t, threads := Function.update s.threads t (.stamper .writing) },
      by simp [Machine.run, server, running, here, free], rfl⟩

/-- Whatever has happened, a thread that waits for the mutex can still get it exactly when no session has returned
because `recv` gave 0 or -1. -/
theorem waiting_served_iff (fresh : s₀.Fresh) (run : (server file).run s₀ labels = some s) (running : s.exited = false)
    (waits : (s.threads t).Waits) :
    (∃ more s', (server file).run s more = some s' ∧ s'.mutex = some t) ↔ ∀ u, ¬ (s.threads u).HungUp := by
  have tidy := run_tidy fresh run
  constructor
  · intro served u hungUp
    obtain ⟨more, s', later, taken⟩ := served
    obtain ⟨still, kept⟩ := Machine.run_invariant (P := fun r => Tidy r ∧ (r.threads u).HungUp)
      (fun before _ step => ⟨before.1.step step, hung_up_step before.2 step⟩) ⟨tidy, hungUp⟩ Machine.along_true later
    have held := (still.exclusive u).mp kept.holds
    obtain rfl : t = u := Option.some.inj (taken.symm.trans held)
    exact waits.outside hungUp.holds
  · intro noneGone
    have sound := tidy.sound running noneGone
    cases held : s.mutex with
    | none => exact takes_mutex running held waits
    | some u =>
      have frees : Frees file u s := sound.frees held
      obtain ⟨more, s₁, later, free, alive, same⟩ := frees
      have other : t ≠ u := by
        rintro rfl
        exact waits.outside ((tidy.exclusive t).mpr held)
      rw [← same t other] at waits
      obtain ⟨last, s₂, taking, taken⟩ := takes_mutex alive free waits
      exact ⟨more ++ last, s₂, Machine.run_append.mpr ⟨s₁, later, taking⟩, taken⟩

/-- One session fails and waits to end the process, one has hung up, and the timestamp thread waits. -/
theorem waiting_served_iff_stamper :
    let labels : List (Nat × Act FileEnv) := [(0, .stampGo), (1, .client .go),
      (1, .client (.recv (.data ⟨[97], by decide, by decide⟩) { openFails := true, call := {}, seek := {} })),
      (1, .client .go), (2, .client .go), (2, .client (.recv .eof { call := {}, seek := {} }))]
    let s := ((server regularFile).run oneStamper labels).getD oneStamper
    ¬ ∃ more s', (server regularFile).run s more = some s' ∧ s'.mutex = some 0 := by
  intro labels s
  have run := Machine.run_getD (m := server regularFile) (s := oneStamper) (l := labels) (by decide +kernel) oneStamper
  intro served
  exact (waiting_served_iff (s := s) (t := 0) oneStamper_fresh run (by decide +kernel) (by decide +kernel)).mp served 2
    (by decide +kernel)

end Aesd
