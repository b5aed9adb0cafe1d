import Mathlib.Algebra.BigOperators.Group.Finset.Basic
import Mathlib.Algebra.Group.Action.Defs
import Mathlib.Algebra.Order.BigOperators.Group.List
import Aesd.Server.Store
import Aesd.Server.Threads

/-!
# The service

Sessions on a fresh device, each with one line to store, in whatever order they
get the mutex: a session is answered with the last ten lines of the sessions
served so far, its own among them.
-/

namespace Aesd
open Library

variable {message : Nat → Chunk} {order : List Nat} {w : Driver} {s s' : Server Driver} {c : Client} {t u n m : Nat}
  {answer : Answer CallEnv} {next : Client × Driver} {label : Nat × Act CallEnv} {labels : List (Nat × Act CallEnv)}

def service (buffers : Nat → List UInt8) : Server Driver where
  world := Driver.init
  threads t := .client { buffer := buffers t }

def lockOrder (s : Server Driver) (label : Nat × Act CallEnv) : List Nat :=
  match s.threads label.1 with
  | .client c => if c.pc = .start then [label.1] else []
  | _ => []

def Returned (s : Server Driver) (t : Nat) : Prop :=
  match s.threads t with
  | .client c => c.pc = .returned
  | _ => False

def replyTo (s : Server Driver) (t : Nat) : List UInt8 :=
  match s.threads t with
  | .client c => c.reply
  | _ => []

/-- `recv` brings the session's whole message, and the data file opens. -/
def Delivers (message : Chunk) : Answer CallEnv → Prop
  | .recv (.data chunk) env => chunk.bytes = message.bytes ∧ env.openFails = false
  | _ => True

/-- A step of a session whose system calls succeed, on its message. -/
def Served (message : Nat → Chunk) (s : Server Driver) (label : Nat × Act CallEnv) : Prop :=
  match s.threads label.1, label.2 with
  | .client c, .client answer => Complete (c, s.world) answer ∧ Delivers (message label.1) answer
  | _, _ => True

instance (s : Server Driver) (t : Nat) : Decidable (Returned s t) := by
  unfold Returned; split <;> infer_instance

instance (message : Chunk) (answer : Answer CallEnv) : Decidable (Delivers message answer) :=
  match answer with
  | .recv (.data _) _ => inferInstanceAs (Decidable (_ ∧ _))
  | .go | .recv .eof _ | .recv .error _ | .read _ _ | .sigpipe _ => isTrue trivial

instance (s : Server Driver) (label : Nat × Act CallEnv) : Decidable (Served message s label) := by
  unfold Served; split <;> infer_instance

/-- The last ten messages of the sessions served. -/
def lastServed (message : Nat → Chunk) (order : List Nat) : List (List UInt8) :=
  (order.map fun t => (message t).bytes).rtake maxWriteOperations

def Rest (message : Nat → Chunk) (order : List Nat) (w : Driver) : Prop :=
  ∃ ring lost, Layout w ring none lost ∧ ring.map Prod.snd = lastServed message order

theorem lastServed_snoc (message : Nat → Chunk) (order : List Nat) (t : Nat) :
    lastServed message (order ++ [t]) =
      (lastServed message order ++ [(message t).bytes]).rtake maxWriteOperations := by
  unfold lastServed
  rw [List.map_append, List.map_singleton, rtake_push_rtake]

theorem lastServed_length (message : Nat → Chunk) (order : List Nat) :
    (lastServed message order).flatten.length ≤ 10240 := by
  have few : (lastServed message order).length ≤ 10 := by
    rw [lastServed, length_rtake]
    exact Nat.min_le_left _ _
  have short : ∀ size ∈ (lastServed message order).map List.length, size ≤ 1024 := by
    intro size member
    obtain ⟨bytes, kept, rfl⟩ := List.mem_map.mp member
    obtain ⟨t, _, rfl⟩ := List.mem_map.mp (mem_of_mem_rtake kept)
    exact (message t).fits
  have total := List.sum_le_card_nsmul _ 1024 short
  rw [List.length_map, smul_eq_mul] at total
  rw [List.length_flatten]
  omega

/-! ### One step of a session -/

/-- Where a session is: not served yet, the last in the order and inside the mutex, or answered. Its
steps so far are counted. -/
inductive Stage (message : Nat → Chunk) (order : List Nat) (w : Driver) (t m : Nat) (c : Client) : Prop where
  | start (here : c.pc = .start) (reply : c.reply = []) (absent : t ∉ order) (count : m = 0)
  | receiving (before : List Nat) (here : c.pc = .receiving) (reply : c.reply = []) (last : order = before ++ [t])
    (rest : Rest message before w) (count : m = 1)
  | replying (q : Nat) (here : c.pc = .replying q) (inside : q ≤ (lastServed message order).flatten.length)
    (reply : c.reply = (lastServed message order).flatten.take q) (last : ∃ before, order = before ++ [t])
    (rest : Rest message order w) (count : m ≤ q + 2)
  | unlocking (here : c.pc = .unlocking) (reply : c.reply = (lastServed message order).flatten)
    (last : ∃ before, order = before ++ [t]) (rest : Rest message order w) (count : m ≤ c.reply.length + 3)
  | returned (k : Nat) (here : c.pc = .returned) (served : order[k]? = some t)
    (reply : c.reply = (lastServed message (order.take (k + 1))).flatten) (count : m ≤ c.reply.length + 4)

theorem Rest.pass {before : List Nat} {chunk : Chunk} {env : Pass CallEnv} (rest : Rest message before w)
    (line : EndsLine (message t).bytes) (data : ¬ seekPrefix <+: (message t).bytes)
    (whole : chunk.bytes = (message t).bytes) (opens : env.openFails = false)
    (ok : Complete (c, w) (.recv (.data chunk) env)) :
    let next := c.pass device w chunk env
    Rest message (before ++ [t]) next.2 ∧ next.1.reply = c.reply ∧ next.1.pc = .replying 0 := by
  intro next
  obtain ⟨ring, lost, layout, texts⟩ := rest
  have newline' : newline ∈ chunk.bytes := by
    rw [whole]
    exact List.mem_of_getLast? line
  have plain : isSeek (recvInto c.buffer chunk.bytes) = false := isSeek_line newline' (by rwa [whole]) c.buffer
  obtain ⟨_, _, reply, _, world, pc⟩ := pass_data layout opens plain ok
  obtain ⟨a, _, after⟩ := device_write layout chunk.nonempty (ok.2.2 opens plain)
  rw [← world, if_pos (whole ▸ line)] at after
  refine ⟨⟨_, _, after, ?_⟩, reply, by rw [pc, if_pos newline']⟩
  rw [lastServed_snoc, ← texts, ← whole]
  simp [List.rtake, List.map_drop, carried]

theorem Rest.read {env : CallEnv} {q : Nat} (rest : Rest message order w) (lock : env.interrupted = false)
    (copies : env.notCopied = 0) (inside : q ≤ (lastServed message order).flatten.length) :
    let source := (lastServed message order).flatten
    let res := device.read env w q
    (res.retval > 0 → ∃ p : Nat, q < p ∧ p ≤ source.length ∧ res.fpos = p ∧ source.take p = source.take q ++ res.data) ∧
      (¬ res.retval > 0 → source.take q = source) := by
  intro source res
  obtain ⟨ring, lost, layout, texts⟩ := rest
  have small : q < 2 ^ 63 := by
    have := lastServed_length message order
    omega
  obtain ⟨returned, moved, piece, below, last⟩ := device_read layout lock copies small
  simp only [texts] at piece below last
  change res.retval = res.data.length at returned
  change q + res.data.length ≤ max q source.length at below
  change q ≤ source.length at inside
  constructor
  · intro more
    refine ⟨q + res.data.length, by omega, by omega, moved, ?_⟩
    rw [List.take_add]
    congr 1
    exact (List.prefix_iff_eq_take.mp piece).symm
  · intro empty
    have nothing : res.data.length = 0 := by omega
    exact List.take_of_length_le (last (List.eq_nil_of_length_eq_zero nothing))

theorem Stage.step (h : Stage message order w t m c) (line : EndsLine (message t).bytes)
    (data : ¬ seekPrefix <+: (message t).bytes) (enter : c.pc = .start → Rest message order w)
    (step : c.step device w answer = some next) (ok : Complete (c, w) answer) (whole : Delivers (message t) answer) :
    Stage message (order ++ if c.pc = .start then [t] else []) next.2 t (m + 1) next.1 ∧
      (c.pc = .unlocking → Rest message order next.2) ∧ ¬ next.1.Ends := by
  cases h with
  | start here reply absent count =>
    obtain ⟨rfl, rfl⟩ := Client.step_start here step
    rw [if_pos here]
    exact ⟨.receiving order rfl (by simp [reply, Effect.reply]) rfl (enter here) (by omega), by simp [here],
      by simp⟩
  | receiving before here reply last rest count =>
    obtain ⟨result, env, rfl, rfl⟩ := Client.step_receiving here step
    rw [if_neg (by simp [here]), List.append_nil]
    cases result with
    | data chunk =>
      obtain ⟨stored, same, pc⟩ := rest.pass line data whole.1 whole.2 ok
      refine ⟨.replying 0 (by simpa using pc) (Nat.zero_le _) ?_ ⟨before, last⟩ (by rw [last]; exact stored) (by omega),
        by simp [here], by simp [pc]⟩
      rw [same, reply, List.take_zero]
    | eof => exact ok.elim
    | error => exact ok.elim
  | replying q here inside reply last rest count =>
    obtain ⟨env, unsent, rfl, rfl⟩ | ⟨env, rfl, _, rfl⟩ := Client.step_replying here step
    case inr => exact ok.elim
    obtain ⟨lock, copies, rfl⟩ := ok
    obtain ⟨more, done⟩ := rest.read lock copies inside
    rw [if_neg (by simp [here]), List.append_nil]
    by_cases positive : (device.read env w q).retval > 0
    · rw [if_pos positive]
      obtain ⟨p, further, within, moved, taken⟩ := more positive
      refine ⟨.replying p (by rw [Client.goto_pc, moved]) within ?_ last rest (by omega), by simp [here], by simp⟩
      rw [taken]
      simp [reply, Effect.reply]
    · rw [if_neg positive]
      have sent : (((c.did .closed).goto .unlocking)).reply = (lastServed message order).flatten := by
        simpa [Effect.reply, reply] using done positive
      refine ⟨.unlocking rfl sent last rest ?_, by simp [here], by simp⟩
      rw [sent]
      omega
  | unlocking here reply last rest count =>
    obtain ⟨rfl, rfl⟩ := Client.step_unlocking here step
    obtain ⟨before, rfl⟩ := last
    rw [if_neg (by simp [here]), List.append_nil]
    have same : ((c.did .unlocked).goto .returned).reply = c.reply := by simp [Effect.reply]
    refine ⟨.returned before.length rfl (by simp) ?_ (by rw [same]; omega), fun _ => rest, by simp⟩
    rw [same, reply, List.take_of_length_le (by simp)]
  | returned k here => exact absurd (Or.inl here) (Client.step_running step)

theorem Stage.inside (h : Stage message order w t m c) (working : c.pc ≠ .returned) :
    (c.pc = .start ∧ t ∉ order) ∨ ((Thread.client c).Holds ∧ c.pc ≠ .failing ∧ t ∈ order) := by
  cases h with
  | start here reply absent count => exact Or.inl ⟨here, absent⟩
  | receiving before here reply last => exact Or.inr ⟨by simp [Thread.Holds, here], by simp [here], by simp [last]⟩
  | replying q here inside reply last =>
    obtain ⟨before, last⟩ := last
    exact Or.inr ⟨by simp [Thread.Holds, here], by simp [here], by simp [last]⟩
  | unlocking here reply last =>
    obtain ⟨before, last⟩ := last
    exact Or.inr ⟨by simp [Thread.Holds, here], by simp [here], by simp [last]⟩
  | returned k here => exact (working here).elim

theorem Stage.other {more : List Nat} {w' : Driver} (h : Stage message order w u m c)
    (outside : ¬ (Thread.client c).Holds) (others : u ∉ more) : Stage message (order ++ more) w' u m c := by
  cases h with
  | start here reply absent count => exact .start here reply (by simp [absent, others]) count
  | receiving _ here => exact (outside (by simp [Thread.Holds, here])).elim
  | replying _ here => exact (outside (by simp [Thread.Holds, here])).elim
  | unlocking here => exact (outside (by simp [Thread.Holds, here])).elim
  | returned k here served reply count =>
    have inside : k < order.length := (List.getElem?_eq_some_iff.mp served).1
    refine .returned k here ?_ ?_ count
    · rw [List.getElem?_append_left inside, served]
    · rw [List.take_append_of_le_length (by omega), reply]

/-! ### One step of the server -/

structure Serving (message : Nat → Chunk) (labels : List (Nat × Act CallEnv)) (order : List Nat)
    (s : Server Driver) : Prop where
  running : s.exited = false
  exclusive : Exclusive Thread.Holds s.mutex s.threads
  distinct : order.Nodup
  known : order ⊆ labels.map Prod.fst
  rest : s.mutex = none → Rest message order s.world
  stages : ∀ t, ∃ c, s.threads t = .client c ∧ Stage message order s.world t ((labels.map Prod.fst).count t) c

theorem service_fresh (buffers : Nat → List UInt8) : (service buffers).Fresh :=
  ⟨rfl, rfl, fun t => Or.inl ⟨buffers t, rfl⟩⟩

theorem service_serving (buffers : Nat → List UInt8) : Serving message [] [] (service buffers) where
  running := rfl
  exclusive := (service_fresh buffers).exclusive
  distinct := List.nodup_nil
  known := List.nil_subset _
  rest _ := ⟨[], [], init_layout, rfl⟩
  stages _ := ⟨_, rfl, .start rfl rfl List.not_mem_nil rfl⟩

theorem Serving.step (h : Serving message labels order s) (lines : ∀ t, EndsLine (message t).bytes)
    (data : ∀ t, ¬ seekPrefix <+: (message t).bytes) (served : Served message s label)
    (step : (server device).step s label = some s') :
    Serving message (labels ++ [label]) (order ++ lockOrder s label) s' := by
  obtain ⟨t, act⟩ := label
  have exclusive := server_exclusive h.exclusive step
  obtain ⟨c, here, stage⟩ := h.stages t
  obtain ⟨_, ⟨d, answer, next, at', rfl, free, moved, rfl⟩ | ⟨pc, at', _⟩⟩ := server_step step
  · obtain rfl := Thread.client.inj (here.symm.trans at')
    obtain ⟨ok, whole⟩ : Complete (c, s.world) answer ∧ Delivers (message t) answer := by
      simpa only [Served, here] using served
    have added : lockOrder s (t, .client answer) = if c.pc = .start then [t] else [] := by
      unfold lockOrder
      simp only [here]
    have working : c.pc ≠ .returned := fun done => Client.step_running moved (Or.inl done)
    obtain ⟨after, left, alive⟩ :=
      stage.step (lines t) (data t) (fun start => h.rest (free start)) moved ok whole
    -- Thread `t` is inside, or nobody is.
    have others (u : Nat) (other : u ≠ t) : ¬ (s.threads u).Holds := by
      intro held
      rcases stage.inside working with ⟨start, _⟩ | ⟨inside, _⟩
      · exact Option.some_ne_none u (((h.exclusive u).mp held).symm.trans (free start))
      · exact other (h.exclusive.unique held (by rw [here]; exact inside))
    rw [added]
    refine ⟨by simpa using alive, exclusive, ?_, ?_, ?_, ?_⟩
    · split
      · rename_i start
        rcases stage.inside working with ⟨_, absent⟩ | ⟨inside, _⟩
        · rw [← List.concat_eq_append]
          exact h.distinct.concat absent
        · simp [Thread.Holds, start] at inside
      · simpa using h.distinct
    · rw [List.map_append]
      refine List.append_subset.mpr ⟨List.subset_append_of_subset_left _ h.known, ?_⟩
      split <;> simp
    · intro free'
      unfold Client.owner at free'
      rcases stage.inside working with ⟨start, _⟩ | ⟨inside, notFailing, _⟩
      · simp [start] at free'
      · have held : s.mutex = some t := (h.exclusive t).mp (by rw [here]; exact inside)
        have notStart : c.pc ≠ .start := fun start => by simp [Thread.Holds, start] at inside
        rw [if_neg notStart, held] at free'
        rw [if_neg notStart, List.append_nil]
        by_cases unlocking : c.pc = .unlocking
        · exact left unlocking
        · simp [unlocking, notFailing] at free'
    · intro u
      by_cases same : u = t
      · subst same
        exact ⟨next.1, Function.update_self .., by simpa using after⟩
      · obtain ⟨d, at', stage'⟩ := h.stages u
        have outside := others u same
        rw [at'] at outside
        refine ⟨d, (Function.update_of_ne same ..).trans at', ?_⟩
        have count : ((labels ++ [(t, Act.client answer)]).map Prod.fst).count u = (labels.map Prod.fst).count u := by
          simp [Ne.symm same]
        rw [count]
        exact stage'.other outside (by split <;> simp [same])
  · cases here.symm.trans at'

/-! ### Every run -/

theorem serving_run {buffers : Nat → List UInt8} (lines : ∀ t, EndsLine (message t).bytes)
    (data : ∀ t, ¬ seekPrefix <+: (message t).bytes)
    (run : (server device).run (service buffers) labels = some s)
    (served : (server device).Along (Served message) (service buffers) labels) :
    Serving message labels ((server device).observe lockOrder (service buffers) labels) s := by
  refine Machine.run_induction
    (P := fun labels s => Serving message labels ((server device).observe lockOrder (service buffers) labels) s)
    (service_serving buffers) ?_ served run
  intro labels t label u reached before here step
  rw [Machine.observe_snoc reached]
  exact before.step lines data here step

theorem Stage.count_le (h : Stage message order w t m c) : m ≤ 10244 := by
  have bound := lastServed_length message
  cases h with
  | start here reply absent count => omega
  | receiving before here reply last rest count => omega
  | replying q here inside reply last rest count =>
    have := bound order
    omega
  | unlocking here reply last rest count =>
    have := bound order
    rw [reply] at count
    omega
  | returned k here served reply count =>
    have := bound (order.take (k + 1))
    rw [reply] at count
    omega

theorem Serving.length_le (h : Serving message labels order s) (only : ∀ label ∈ labels, label.1 < n) :
    labels.length ≤ 10244 * n := by
  have inside : ∀ t ∈ (labels.map Prod.fst : Multiset Nat), t ∈ Finset.range n := by
    intro t member
    obtain ⟨label, known, rfl⟩ := List.mem_map.mp (Multiset.mem_coe.mp member)
    exact Finset.mem_range.mpr (only label known)
  have total := Multiset.sum_count_eq_card inside
  have each : ∀ t ∈ Finset.range n, (labels.map Prod.fst : Multiset Nat).count t ≤ 10244 := by
    intro t _
    obtain ⟨c, _, stage⟩ := h.stages t
    rw [Multiset.coe_count]
    exact stage.count_le
  have bounded := Finset.sum_le_card_nsmul _ _ _ each
  rw [total, Finset.card_range, smul_eq_mul, Multiset.coe_card, List.length_map] at bounded
  omega

theorem Stage.answered (h : Stage message order w t m c) (working : c.pc ≠ .returned) :
    ∃ answer, Delivers (message t) answer ∧ (c.step device w answer).isSome := by
  cases h with
  | start here => exact ⟨.go, trivial, by simp only [Client.step, here, Option.isSome_some]⟩
  | receiving before here =>
    refine ⟨.recv (.data (message t)) { call := {}, seek := {} }, ⟨rfl, rfl⟩, ?_⟩
    simp only [Client.step, here, Option.isSome_some]
  | replying q here =>
    refine ⟨.read {} 0, trivial, ?_⟩
    simp only [Client.step, here]
    split <;> rfl
  | unlocking here => exact ⟨.go, trivial, by simp only [Client.step, here, Option.isSome_some]⟩
  | returned k here => exact (working here).elim

/-- The session has not returned, it has a step to take on its message, and nothing but the kernel's answer keeps it
from a step. -/
def Unblocked (message : Nat → Chunk) (s : Server Driver) (t : Nat) : Prop :=
  ∃ c, s.threads t = .client c ∧ ¬ c.Done ∧
    (∃ answer, Delivers (message t) answer ∧ (c.step device s.world answer).isSome) ∧
    ∀ answer, (c.step device s.world answer).isSome → ((server device).step s (t, .client answer)).isSome

theorem Serving.unblocked (h : Serving message labels order s) (here : s.threads t = .client c)
    (working : c.pc ≠ .returned) (free : c.pc = .start → s.mutex = none) : Unblocked message s t := by
  obtain ⟨d, at', stage⟩ := h.stages t
  obtain rfl := Thread.client.inj (here.symm.trans at')
  refine ⟨c, here, ?_, stage.answered working, fun answer enabled => ?_⟩
  · rcases stage.inside working with ⟨start, _⟩ | ⟨inside, _⟩
    · simp [Client.Done, start]
    · rintro (done | done | done | done)
      · exact working done
      · cases stage <;> simp_all
      · cases stage <;> simp_all
      · cases stage <;> simp_all
  · have enters : ¬ (c.pc = .start ∧ s.mutex ≠ none) := fun waits => waits.2 (free waits.1)
    simp only [server, h.running, Bool.false_eq_true, if_false, here, if_neg enters, Option.isSome_map]
    exact enabled

theorem Serving.moves (h : Serving message labels order s) (here : s.threads t = .client c)
    (working : c.pc ≠ .returned) : Unblocked message s t ∨ ∃ u ∈ order, Unblocked message s u := by
  by_cases waits : c.pc = .start ∧ s.mutex ≠ none
  · obtain ⟨u, held⟩ := Option.ne_none_iff_exists'.mp waits.2
    obtain ⟨d, at', stage⟩ := h.stages u
    have inside : (Thread.client d).Holds := at' ▸ (h.exclusive u).mpr held
    have busy : d.pc ≠ .returned := fun done => by simp [Thread.Holds, done] at inside
    rcases stage.inside busy with ⟨start, _⟩ | ⟨_, _, known⟩
    · simp [Thread.Holds, start] at inside
    · refine Or.inr ⟨u, known, h.unblocked at' busy fun start => ?_⟩
      simp [Thread.Holds, start] at inside
  · exact Or.inl (h.unblocked here working fun start => not_not.mp fun held => waits ⟨start, held⟩)

/-- The session served `k`-th is sent the last ten messages up to its own, and nobody else's order or
buffer matters. `n` sessions take at most `10244 * n` steps, and until all have returned one of them can
go on. -/
theorem service_law {buffers : Nat → List UInt8} (lines : ∀ t, EndsLine (message t).bytes)
    (data : ∀ t, ¬ seekPrefix <+: (message t).bytes) (only : ∀ label ∈ labels, label.1 < n)
    (run : (server device).run (service buffers) labels = some s)
    (served : (server device).Along (Served message) (service buffers) labels) :
    let order := (server device).observe lockOrder (service buffers) labels
    order.Nodup ∧
      (∀ t, Returned s t → ∃ k, order[k]? = some t ∧
        replyTo s t = (lastServed message (order.take (k + 1))).flatten ∧ (message t).bytes <:+ replyTo s t) ∧
      labels.length ≤ 10244 * n ∧ ((∀ t < n, Returned s t) ∨ ∃ t < n, Unblocked message s t) := by
  intro order
  have serving : Serving message labels order s := serving_run lines data run served
  refine ⟨serving.distinct, ?_, serving.length_le only, ?_⟩
  · intro t done
    obtain ⟨c, here, stage⟩ := serving.stages t
    unfold Returned at done
    unfold replyTo
    simp only [here] at done ⊢
    cases stage with
    | returned k _ last reply =>
      refine ⟨k, last, reply, ?_⟩
      rw [reply, List.take_add_one, last, lastServed, List.map_append, Option.toList_some, List.map_singleton,
        List.rtake_concat_succ, List.flatten_append, List.flatten_singleton]
      exact List.suffix_append _ _
    | _ => simp_all
  · by_cases all : ∀ t < n, Returned s t
    · exact Or.inl all
    · push Not at all
      obtain ⟨t, below, working⟩ := all
      obtain ⟨c, here, _⟩ := serving.stages t
      unfold Returned at working
      simp only [here] at working
      rcases serving.moves here working with moves | ⟨u, member, moves⟩
      · exact Or.inr ⟨t, below, moves⟩
      · obtain ⟨label, known, rfl⟩ := List.mem_map.mp (serving.known member)
        exact Or.inr ⟨_, only label known, moves⟩

theorem two_sessions_served :
    let message : Nat → Chunk := fun t => ⟨[if t = 0 then 97 else 98, newline], by simp, by simp⟩
    let session (t reads : Nat) : List (Nat × Act CallEnv) := (t, .client .go) ::
      (t, .client (.recv (.data (message t)) { call := { kmallocAt := some t }, seek := {} })) ::
      List.replicate reads (t, .client (.read {} 0)) ++ [(t, .client .go)]
    let labels := session 1 2 ++ session 0 3
    let s₀ := service fun _ => seekPrefix
    let order := (server device).observe lockOrder s₀ labels
    ∃ k, order[k]? = some 0 ∧ replyTo (((server device).run s₀ labels).getD s₀) 0 =
      (lastServed message (order.take (k + 1))).flatten := by
  intro message session labels s₀ order
  have run := Machine.run_getD (m := server device) (s := s₀) (l := labels) (by decide +kernel) s₀
  have lines (t : Nat) : EndsLine (message t).bytes := rfl
  have short (t : Nat) : ¬ seekPrefix <+: (message t).bytes := fun inside =>
    absurd inside.length_le (show ¬ 19 ≤ 2 by decide)
  have law := service_law (n := 2) lines short (by decide) run (by decide +kernel)
  obtain ⟨k, last, reply, _⟩ := law.2.1 0 (by decide +kernel)
  exact ⟨k, last, reply⟩

end Aesd
