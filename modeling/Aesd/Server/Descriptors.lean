import Aesd.Server.HandleClient

/-!
# The descriptors of a session

`handle_client` opens the data file for each chunk and closes the last
descriptor after the reply.
-/

namespace Aesd
open Library

/-- A session's descriptors are 0, 1, … in the order opened, and `data_fd` is the last of them. -/
structure Descriptors where
  opened : Nat := 0
  closed : List Nat := []
  deriving DecidableEq

namespace Descriptors

def after (d : Descriptors) : Effect → Descriptors
  | .opened => { d with opened := d.opened + 1 }
  | .closed => { d with closed := d.closed ++ [d.opened - 1] }
  | _ => d

def stillOpen (d : Descriptors) : List Nat := (List.range d.opened).filter fun fd => fd ∉ d.closed

end Descriptors

def descriptors (log : List Effect) : Descriptors := log.foldl Descriptors.after {}

/-- At most one descriptor is open at any time, and in the end each has been closed once. -/
structure Balanced (log : List Effect) : Prop where
  one : ∀ earlier, earlier <+: log → (descriptors earlier).stillOpen.length ≤ 1
  once : ∀ fd < (descriptors log).opened, (descriptors log).closed.count fd = 1

variable {W E : Type} {file : DataFile W E} {c : Client} {w : W} {chunk : Chunk} {answers : List (Answer E)}
  {log earlier : List Effect}

@[simp] theorem descriptors_append (log more : List Effect) :
    descriptors (log ++ more) = more.foldl Descriptors.after (descriptors log) :=
  List.foldl_append

theorem opened_mono (before : earlier <+: log) : (descriptors earlier).opened ≤ (descriptors log).opened := by
  obtain ⟨more, rfl⟩ := before
  induction more using List.reverseRecOn with
  | nil => simp
  | append_singleton more e ih =>
    rw [← List.append_assoc, descriptors_append, List.foldl_cons, List.foldl_nil]
    apply Nat.le_trans ih
    cases e with
    | opened => exact Nat.le_succ _
    | _ => exact Nat.le_refl _

theorem balanced_of_few (few : (descriptors log).opened ≤ 1)
    (closes : (descriptors log).closed = List.range (descriptors log).opened) : Balanced log := by
  constructor
  · intro earlier before
    have stillOpen := List.length_filter_le (fun fd => fd ∉ (descriptors earlier).closed)
      (List.range (descriptors earlier).opened)
    rw [List.length_range] at stillOpen
    exact Nat.le_trans stillOpen (Nat.le_trans (opened_mono before) few)
  · intro fd below
    rw [closes, List.nodup_range.count, if_pos (List.mem_range.mpr below)]

/-- A pass that stays in the session has opened one more descriptor. -/
theorem Client.pass_descriptors (file : DataFile W E) (c : Client) (w : W) (chunk : Chunk) (env : Pass E) :
    let next := (c.pass file w chunk env).1
    next.pc = .failing ∨
      descriptors next.log = (descriptors c.log).after .opened ∧ c.Onward chunk next.pc := by
  rcases Client.pass_cases file c w chunk env with
    ⟨_, same⟩ | ⟨_, ⟨_, pc, fails | onward, same⟩ | ⟨_, same | ⟨pc, onward, same⟩⟩⟩
  · exact Or.inl (by simp [same])
  · exact Or.inl (by simp [same, fails])
  · exact Or.inr ⟨by simp [same, Descriptors.after], by simpa [same] using onward⟩
  · exact Or.inl (by simp [same])
  · exact Or.inr ⟨by simp [same, Descriptors.after], by simpa [same] using onward⟩

/-! ### Any run of a session -/

def NoLine (ps : List (Chunk × Pass E)) : Prop := ∀ pass ∈ ps, newline ∉ pass.1.bytes

theorem NoLine.eq_nil {ps : List (Chunk × Pass E)} (noLine : NoLine ps)
    (lines : ∀ pass ∈ ps, newline ∈ pass.1.bytes) : ps = [] := by
  apply List.eq_nil_iff_forall_not_mem.mpr
  intro pass inside
  exact noLine pass inside (lines pass inside)

def LastLine (ps : List (Chunk × Pass E)) : Prop :=
  ∃ front last, ps = front ++ [last] ∧ NoLine front ∧ newline ∈ last.1.bytes

/-- A descriptor for each chunk, and after the reply, which follows the first chunk with a newline, the last
one closed. -/
def OpenedSoFar (answers : List (Answer E)) (c : Client) : Prop :=
  match c.pc with
  | .start | .receiving | .hungUp => NoLine (passes answers) ∧ descriptors c.log = ⟨(passes answers).length, []⟩
  | .replying _ => LastLine (passes answers) ∧ descriptors c.log = ⟨(passes answers).length, []⟩
  | .unlocking | .returned => LastLine (passes answers) ∧
    descriptors c.log = ⟨(passes answers).length, [(passes answers).length - 1]⟩
  | .failing | .cleaning | .exited | .killed => True

theorem OpenedSoFar.step {answer : Answer E} {next : Client × W} (before : OpenedSoFar answers c)
    (step : c.step file w answer = some next) : OpenedSoFar (answers ++ [answer]) next.1 := by
  cases here : c.pc with
  | start =>
    obtain ⟨rfl, rfl⟩ := Client.step_start here step
    simp only [OpenedSoFar, here] at before
    simpa [OpenedSoFar, passes_append, Descriptors.after] using before
  | receiving =>
    obtain ⟨result, env, rfl, rfl⟩ := Client.step_receiving here step
    simp only [OpenedSoFar, here] at before
    obtain ⟨noLine, opened⟩ := before
    cases result with
    | data chunk =>
      rcases Client.pass_descriptors file c w chunk env with fails | ⟨more, ⟨none', stays⟩ | ⟨line, fpos, replies⟩⟩
      · simp [OpenedSoFar, fails]
      · simp only [OpenedSoFar, stays, here, more, opened, passes_append, passes_data, passes_nil]
        refine ⟨?_, by simp [Descriptors.after]⟩
        intro pass inside
        rcases List.mem_append.mp inside with old | new
        · exact noLine pass old
        · obtain rfl := List.mem_singleton.mp new
          exact none'
      · simp only [OpenedSoFar, replies, more, opened, passes_append, passes_data, passes_nil]
        exact ⟨⟨_, _, rfl, noLine, line⟩, by simp [Descriptors.after]⟩
    | _ => simpa [OpenedSoFar, passes_append, passes] using ⟨noLine, opened⟩
  | replying fpos =>
    obtain ⟨env, unsent, rfl, rfl⟩ | ⟨env, _, _, rfl⟩ := Client.step_replying here step
    case inr => trivial
    simp only [OpenedSoFar, here] at before
    split
    · simpa [OpenedSoFar, passes_append, Descriptors.after] using before
    · obtain ⟨last, opened⟩ := before
      simp [OpenedSoFar, passes_append, Descriptors.after, opened, last]
  | unlocking =>
    obtain ⟨rfl, rfl⟩ := Client.step_unlocking here step
    simp only [OpenedSoFar, here] at before
    simpa [OpenedSoFar, passes_append, Descriptors.after] using before
  | failing => obtain ⟨rfl, rfl⟩ := Client.step_failing here step; trivial
  | cleaning => obtain ⟨rfl, rfl⟩ := Client.step_cleaning here step; trivial
  | _ => exact absurd (by simp [Client.Done, here]) (Client.step_running step)

theorem session_opened {buffer : List UInt8} {w₀ : W}
    (run : (session file).run ({ buffer }, w₀) answers = some (c, w)) : OpenedSoFar answers c := by
  have start : OpenedSoFar ([] : List (Answer E)) { buffer } := by
    unfold OpenedSoFar
    constructor
    · intro pass inside
      cases inside
    · rfl
  exact Machine.run_induction (P := fun answers (e : Client × W) => OpenedSoFar answers e.1) start
    (fun _ before _ step => before.step step) Machine.along_true run

/-- When a session returns, its descriptors are balanced exactly when every chunk it received has a newline. -/
theorem descriptors_balanced_iff {buffer : List UInt8} {w₀ : W}
    (run : (session file).run ({ buffer }, w₀) answers = some (c, w)) (back : c.pc = .returned ∨ c.pc = .hungUp) :
    Balanced c.log ↔ ∀ pass ∈ passes answers, newline ∈ pass.1.bytes := by
  have opened := session_opened run
  constructor
  · intro balanced pass inside
    have once := balanced.once
    rcases back with here | here
    · simp only [OpenedSoFar, here] at opened
      obtain ⟨⟨front, last, split, _, line⟩, counts⟩ := opened
      rw [counts, split] at once
      simp only [List.length_append, List.length_singleton, Nat.add_sub_cancel] at once
      have none' : front = [] := by
        have first := List.count_pos_iff.mp (show 0 < [front.length].count 0 by rw [once 0 (Nat.succ_pos _)]; decide)
        exact List.eq_nil_of_length_eq_zero (List.mem_singleton.mp first).symm
      rw [split, none', List.nil_append, List.mem_singleton] at inside
      rw [inside]
      exact line
    · simp only [OpenedSoFar, here] at opened
      rw [opened.2] at once
      have first := once 0 (List.length_pos_of_mem inside)
      cases first
  · intro lines
    rcases back with here | here
    · simp only [OpenedSoFar, here] at opened
      obtain ⟨⟨front, last, split, noLine, _⟩, counts⟩ := opened
      have none' : front = [] :=
        noLine.eq_nil fun pass inside => lines pass (by rw [split]; exact List.mem_append_left _ inside)
      rw [split, none'] at counts
      exact balanced_of_few (by rw [counts]; exact Nat.le_refl _) (by rw [counts]; rfl)
    · simp only [OpenedSoFar, here] at opened
      obtain ⟨noLine, counts⟩ := opened
      rw [noLine.eq_nil lines] at counts
      exact balanced_of_few (by rw [counts]; exact Nat.zero_le _) (by rw [counts]; rfl)

theorem one_chunk_balanced :
    let chunk : Chunk := ⟨[97, newline], by decide, by decide⟩
    let answers : List (Answer FileEnv) :=
      [.go, .recv (.data chunk) { call := {}, seek := {} }, .read {} 0, .read {} 0, .go]
    ∃ c w, (session regularFile).run ({ buffer := [] }, none) answers = some (c, w) ∧ Balanced c.log := by
  intro chunk answers
  have run := Machine.run_getD (m := session regularFile) (s := (({ buffer := [] } : Client), none)) (l := answers)
    (by decide +kernel) ({ buffer := [] }, none)
  exact ⟨_, _, run, (descriptors_balanced_iff run (Or.inl (by decide +kernel))).mpr (by decide +kernel)⟩

/-- The line "ab\n" in two chunks: the first descriptor is never closed. -/
theorem two_chunks_leave_one_open :
    ¬ ∀ (buffer : List UInt8) (answers : List (Answer FileEnv)) (c : Client) (w : Option (List UInt8)),
      (session regularFile).run ({ buffer }, none) answers = some (c, w) → c.pc = .returned ∨ c.pc = .hungUp →
      Balanced c.log := by
  intro balanced
  let first : Chunk := ⟨[97], by decide, by decide⟩
  let second : Chunk := ⟨[98, newline], by decide, by decide⟩
  let answers : List (Answer FileEnv) :=
    [.go, .recv (.data first) { call := {}, seek := {} }, .recv (.data second) { call := {}, seek := {} },
      .read {} 0, .read {} 0, .go]
  have run := Machine.run_getD (m := session regularFile) (s := (({ buffer := [] } : Client), none)) (l := answers)
    (by decide +kernel) ({ buffer := [] }, none)
  have once := (balanced [] answers _ _ run (Or.inl (by decide +kernel))).once 0 (by decide +kernel)
  revert once
  decide +kernel

end Aesd
