import Aesd.Driver.Cleanup
import Aesd.Library.Nesting

/-!
# Loading and unloading

`aesd_init_module` with the ways out of it, `aesd_cleanup_module`, and the writes
in between, over and over. What a load registers and an unload takes back is
nested. What the ring gave up and what was pending at an unload stays allocated.
-/

namespace Aesd
open Library

inductive Registration where
  | region | cdev | cls | node
  deriving DecidableEq

/-- What `device_create` returns. -/
inductive Created where
  | made
  | error
  | null
  deriving DecidableEq

/-- What the kernel answers `aesd_init_module`: 0 or an error code to each step. -/
structure LoadEnv where
  region : Int := 0
  cdev : Int := 0
  cls : Int := 0
  node : Created := .made
  region_le : region ≤ 0 := by decide
  cdev_le : cdev ≤ 0 := by decide
  cls_le : cls ≤ 0 := by decide

/-- The return value and the registrations made and undone on the way. -/
def initModule (env : LoadEnv) : Int × List (Use Registration) :=
  if env.region < 0 then (env.region, [])
  else if env.cdev ≠ 0 then (env.cdev, [.acquire .region, .release .region])
  else if env.cls < 0 then
    (env.cls, [.acquire .region, .acquire .cdev, .release .cdev, .release .region])
  else if env.node = .null then
    (-1, [.acquire .region, .acquire .cdev, .acquire .cls, .release .cls, .release .cdev, .release .region])
  else
    (0, [.acquire .region, .acquire .cdev, .acquire .cls] ++ if env.node = .made then [.acquire .node] else [])

/-- The registrations that `aesd_cleanup_module` takes back; `device_destroy` finds no node that was not made. -/
def cleanupUses (node : Bool) : List (Use Registration) :=
  (if node then [.release .node] else []) ++ [.release .cls, .release .cdev, .release .region]

structure Module where
  loaded : Bool := false
  node : Bool := false
  driver : Driver := Driver.init

inductive Admin where
  | load (env : LoadEnv)
  | write (call : WriteCall)
  | unload

namespace Module

def machine : Machine Module Admin where
  step s label :=
    match label with
    | .load env =>
      if s.loaded then none
      else if (initModule env).1 < 0 then some s
      else some { loaded := true, node := env.node = .made, driver := { Driver.init with heap := s.driver.heap } }
    | .write call => if s.loaded then (writer.step s.driver call).map fun driver => { s with driver } else none
    | .unload =>
      if s.loaded then some { s with loaded := false, driver := { s.driver with heap := (cleanupModule s.driver).2 } }
      else none

def uses (s : Module) : Admin → List (Use Registration)
  | .load env => (initModule env).2
  | .write _ => []
  | .unload => cleanupUses s.node

def held (s : Module) : List Registration :=
  if s.loaded then (if s.node then [.node] else []) ++ [.cls, .cdev, .region] else []

/-- The pointers a step loses: to the oldest record when a full ring takes one more, to the pending bytes at
an unload. -/
def abandons (s : Module) : Admin → List Pointer
  | .write call =>
    if (handed s.driver call).isEmpty = false ∧ s.driver.dev.buffer.Evicts then
      [(s.driver.dev.buffer.slot s.driver.dev.buffer.outOffs).buffptr]
    else []
  | .unload => if s.driver.dev.entry.buffptr = .null then [] else [s.driver.dev.entry.buffptr]
  | .load _ => []

end Module

variable {s s' : Driver} {ring : List Cell} {pending : Option Cell} {lost : List Nat} {call : WriteCall}
  {m m' : Module} {label : Admin} {labels : List Admin} {env : LoadEnv}

/-! ### Registrations -/

theorem initModule_held (env : LoadEnv) : replay [] (initModule env).2 = some
    (if (initModule env).1 < 0 then [] else (if env.node = .made then [.node] else []) ++ [.cls, .cdev, .region]) := by
  have region := env.region_le
  have cdev := env.cdev_le
  have cls := env.cls_le
  unfold initModule
  split_ifs with first second third fourth fifth
  all_goals simp_all [replay]
  all_goals omega

theorem held_step (step : Module.machine.step m label = some m') : replay m.held (m.uses label) = some m'.held := by
  cases label with
  | load env =>
    simp only [Module.machine] at step
    split at step
    · cases step
    rename_i free
    have nothing : m.held = [] := by simp [Module.held, free]
    rw [nothing, Module.uses, initModule_held]
    split at step
    · rename_i failed
      obtain rfl := Option.some.inj step
      rw [if_pos failed, nothing]
    · rename_i succeeded
      obtain rfl := Option.some.inj step
      rw [if_neg succeeded]
      simp [Module.held]
  | write call =>
    simp only [Module.machine] at step
    split at step
    · obtain ⟨driver, _, rfl⟩ := Option.map_eq_some_iff.mp step
      rfl
    · cases step
  | unload =>
    simp only [Module.machine] at step
    split at step
    · rename_i loaded
      obtain rfl := Option.some.inj step
      cases node : m.node <;> simp [Module.held, Module.uses, cleanupUses, loaded, node, replay]
    · cases step

/-! ### Memory -/

/-- One write of any count, by what it hands to the ring. -/
theorem writer_any (h : Layout s ring pending lost) (step : writer.step s call = some s') :
    (s' = s ∧ handed s call = []) ∨ ∃ a line,
      (handed s call = [line] ∧ Layout s' ((ring ++ [(a, line)]).rtake maxWriteOperations) none
        (lost ++ ((ring ++ [(a, line)]).rdrop maxWriteOperations).map Prod.fst)) ∨
      (handed s call = [] ∧ Layout s' ring (some (a, line)) lost) := by
  simp only [writer] at step
  cases ok : granted call.env call.buf s with
  | false =>
    obtain ⟨e, _, same⟩ := aesdWrite_denied call.fpos ok
    rw [same] at step
    exact Or.inl ⟨(Option.some.inj step).symm, by simp [handed, same]⟩
  | true =>
    by_cases bytes : call.buf ≠ [] ∨ pending ≠ none
    · obtain ⟨a, _, _, _, sound, after⟩ := aesdWrite_grown call.fpos h bytes ok
      rw [sound] at step
      obtain rfl := Option.some.inj step
      refine Or.inr ⟨a, carried call.env pending ++ call.buf, ?_⟩
      by_cases ends : EndsLine (carried call.env pending ++ call.buf)
      · rw [if_pos ends] at after
        exact Or.inl ⟨by simp [handed, after.1], after.2⟩
      · rw [if_neg ends] at after
        exact Or.inr ⟨by simp [handed, after.1], after.2⟩
    · obtain ⟨nothing, fresh⟩ := not_or.mp bytes
      obtain rfl := not_not.mp fresh
      rw [not_not.mp nothing] at ok step
      rw [← testedState_isSome] at ok
      obtain ⟨t, tested⟩ := Option.isSome_iff_exists.mp ok
      obtain rfl := layout_fresh_nothing h tested
      rw [aesdWrite_tested call.fpos tested] at step
      cases step

/-- The block that a full ring gives up. -/
theorem Layout.evicted (h : Layout s ring pending lost) (cell : Cell) :
    (((ring ++ [cell]).rdrop maxWriteOperations).map Prod.fst).map Pointer.block =
      if s.dev.buffer.Evicts then [(s.dev.buffer.slot s.dev.buffer.outOffs).buffptr] else [] := by
  have few : ring.length ≤ 10 := by simpa using h.holds.few
  have full := h.holds.evicts_iff
  rw [List.length_map] at full
  cases ring with
  | nil =>
    rw [if_neg fun evicts => absurd (full.mp evicts) (by decide)]
    rfl
  | cons first rest =>
    have oldest := h.holds.ring.oldest (by simp)
    by_cases evicts : s.dev.buffer.Evicts
    · have ten : rest.length + 1 = 10 := full.mp evicts
      have one : (first :: rest ++ [cell]).length - maxWriteOperations = 1 := by
        simp [ten, maxWriteOperations]
      rw [if_pos evicts, oldest, List.rdrop, one]
      rfl
    · have room : rest.length + 1 ≠ 10 := fun ten => evicts (full.mpr ten)
      have short : rest.length + 1 < 10 := Nat.lt_of_le_of_ne few room
      have none' : rest.length + 1 + 1 - 10 = 0 := by omega
      rw [if_neg evicts]
      simp [List.rdrop, none']

theorem Layout.slotPointers_perm (h : Layout s ring pending lost) :
    s.slotPointers.Perm ((ring.map Prod.fst).map Pointer.block) := by
  have last : (if s.dev.entry.buffptr = .null then [] else [s.dev.entry.buffptr]) =
      (pending.toList.map Prod.fst).map Pointer.block := by
    rw [h.entry]
    cases pending <;> simp [BufferEntry.unused, Cell.entry]
  have all := h.pointers_perm
  rw [s.pointers_eq, last, List.map_append, List.map_append] at all
  exact (List.perm_append_right_iff _).mp all

/-- What stays allocated when the module is removed. -/
theorem Layout.unloaded (h : Layout s ring pending lost) :
    (lost ++ pending.toList.map Prod.fst).Nodup ∧
      ∀ a, (cleanupModule s).2.get a ≠ none ↔ a ∈ lost ++ pending.toList.map Prod.fst := by
  have freed (a : Nat) : Pointer.block a ∈ s.slotPointers ↔ a ∈ ring.map Prod.fst := by
    rw [h.slotPointers_perm.mem_iff]
    simp
  obtain ⟨apart, _, disjoint⟩ := List.nodup_append.mp h.distinct
  have distinct := h.distinct
  rw [List.map_append] at apart distinct disjoint
  constructor
  · rw [List.append_assoc] at distinct
    exact List.perm_append_comm.nodup_iff.mp (List.nodup_append.mp distinct).2.1
  · intro a
    rw [cleanupModule_eq, Heap.get_kfree_all]
    have owned := h.owned a
    rw [List.map_append] at owned
    by_cases inRing : a ∈ ring.map Prod.fst
    · have notLost : a ∉ lost := fun gone => disjoint a (List.mem_append_left _ inRing) a gone rfl
      have notPending : a ∉ pending.toList.map Prod.fst :=
        fun written => (List.nodup_append.mp apart).2.2 a inRing a written rfl
      simp [(freed a).mpr inRing, notLost, notPending]
    · rw [if_neg (mt (freed a).mp inRing), owned]
      simp only [List.mem_append, inRing, false_or]
      exact or_comm

/-- The blocks nothing points at: those lost while the module is loaded, all that are live while it is not. -/
def Module.Lost (m : Module) (lost : List Nat) : Prop :=
  if m.loaded then ∃ ring pending, Layout m.driver ring pending lost
  else lost.Nodup ∧ ∀ a, m.driver.heap.get a ≠ none ↔ a ∈ lost

theorem Module.Lost.step (h : m.Lost lost) (step : Module.machine.step m label = some m') :
    ∃ more, more.map Pointer.block = m.abandons label ∧ m'.Lost (lost ++ more) := by
  unfold Module.Lost at h
  cases label with
  | load env =>
    simp only [Module.machine] at step
    split at step
    · cases step
    rename_i free
    rw [if_neg free] at h
    refine ⟨[], rfl, ?_⟩
    rw [List.append_nil]
    split at step
    · obtain rfl := Option.some.inj step
      simpa only [Module.Lost, if_neg free] using h
    · obtain rfl := Option.some.inj step
      refine (if_pos rfl).mpr ⟨[], none, ?_⟩
      exact ⟨CircularBuffer.init_holds, rfl, by simp, by simp, by simpa using h.1, by simpa using h.2⟩
  | write call =>
    simp only [Module.machine] at step
    split at step
    · rename_i loaded
      rw [if_pos loaded] at h
      obtain ⟨ring, pending, layout⟩ := h
      obtain ⟨driver, moved, rfl⟩ := Option.map_eq_some_iff.mp step
      simp only [Module.Lost, if_pos loaded, Module.abandons]
      rcases writer_any layout moved with ⟨rfl, nothing⟩ | ⟨a, line, ⟨one, after⟩ | ⟨nothing, after⟩⟩
      · exact ⟨[], by simp [nothing], ring, pending, by rwa [List.append_nil]⟩
      · refine ⟨_, ?_, _, _, after⟩
        rw [layout.evicted, one]
        simp
      · exact ⟨[], by simp [nothing], ring, _, by rwa [List.append_nil]⟩
    · cases step
  | unload =>
    simp only [Module.machine] at step
    split at step
    · rename_i loaded
      rw [if_pos loaded] at h
      obtain ⟨ring, pending, layout⟩ := h
      obtain rfl := Option.some.inj step
      refine ⟨pending.toList.map Prod.fst, ?_, ?_⟩
      · rw [Module.abandons, layout.entry]
        cases pending <;> simp [BufferEntry.unused, Cell.entry]
      · exact layout.unloaded
    · cases step

theorem Module.Lost.live (h : m.Lost lost) : lost.Nodup ∧ ∀ a, m.driver.heap.get a ≠ none ↔
    a ∈ lost ∨ m.loaded = true ∧ .block a ∈ m.driver.pointers := by
  unfold Module.Lost at h
  split at h
  · rename_i loaded
    obtain ⟨ring, pending, layout⟩ := h
    refine ⟨(List.nodup_append.mp layout.distinct).2.1, fun a => ?_⟩
    have pointed : Pointer.block a ∈ m.driver.pointers ↔ a ∈ (ring ++ pending.toList).map Prod.fst := by
      rw [layout.pointers_perm.mem_iff]
      simp
    rw [layout.owned, List.mem_append, pointed]
    simp only [loaded, true_and]
    exact or_comm
  · rename_i unloaded
    refine ⟨h.1, fun a => ?_⟩
    simp [h.2, unloaded]

theorem Module.run_lost (reached : Module.machine.run {} labels = some m) :
    replay [] (Module.machine.observe Module.uses {} labels) = some m.held ∧
      ∃ lost : List Nat, Module.machine.observe Module.abandons {} labels = lost.map Pointer.block ∧ m.Lost lost := by
  refine Machine.run_induction
    (P := fun labels m => replay [] (Module.machine.observe Module.uses {} labels) = some m.held ∧
      ∃ lost : List Nat, Module.machine.observe Module.abandons {} labels = lost.map Pointer.block ∧ m.Lost lost)
    ?_ ?_ Machine.along_true reached
  · refine ⟨rfl, [], rfl, ?_⟩
    simp [Module.Lost, Driver.init]
  · intro labels m label m' before hyp _ step
    obtain ⟨nested, lost, abandoned, left⟩ := hyp
    obtain ⟨more, here, next⟩ := left.step step
    rw [Machine.observe_snoc before, Machine.observe_snoc before, replay_append, nested, abandoned, ← here]
    exact ⟨held_step step, lost ++ more, by rw [List.map_append], next⟩

/-- Over any loads (failing or not), writes and unloads, registrations nest and those held are those of a loaded
module; what is allocated is what the driver points at and what it lost, to evictions and to unloads. -/
theorem module_cycles (reached : Module.machine.run {} labels = some m) :
    replay [] (Module.machine.observe Module.uses {} labels) = some m.held ∧
      ∃ lost : List Nat, Module.machine.observe Module.abandons {} labels = lost.map Pointer.block ∧ lost.Nodup ∧
        ∀ a, m.driver.heap.get a ≠ none ↔ a ∈ lost ∨ m.loaded = true ∧ .block a ∈ m.driver.pointers := by
  obtain ⟨nested, lost, abandoned, left⟩ := Module.run_lost reached
  exact ⟨nested, lost, abandoned, left.live⟩

/-- A failed load, a load without its node, eleven records and a started one, an unload and a second load. -/
theorem module_cycles_reloaded :
    let labels : List Admin := [.load { cls := -12 }, .load { node := .error }] ++
      ((List.range 11).map fun i => .write ⟨{ kmallocAt := some i }, [65, newline], 0⟩) ++
      [.write ⟨{ kmallocAt := some 11 }, [66], 0⟩, .unload, .load {}, .write ⟨{ kmallocAt := some 12 }, [67], 0⟩]
    let m := (Module.machine.run {} labels).getD {}
    replay [] (Module.machine.observe Module.uses {} labels) = some [.node, .cls, .cdev, .region] ∧
      Module.machine.observe Module.abandons {} labels = [.block 0, .block 11] ∧
      ∀ a, m.driver.heap.get a ≠ none ↔ a ∈ [0, 11] ∨ .block a ∈ m.driver.pointers := by
  intro labels m
  have reached := Machine.run_getD (m := Module.machine) (s := {}) (l := labels) (by decide +kernel) {}
  obtain ⟨nested, lost, abandoned, _, live⟩ := module_cycles reached
  have two : Module.machine.observe Module.abandons {} labels = [.block 0, .block 11] := by decide +kernel
  have held : m.held = [.node, .cls, .cdev, .region] := by decide +kernel
  have loaded : m.loaded = true := by decide +kernel
  have same : lost = [0, 11] :=
    List.map_injective_iff.mpr (fun _ _ => Pointer.block.inj) (abandoned.symm.trans two)
  refine ⟨nested.trans (congrArg some held), two, fun a => ?_⟩
  rw [← same, live a]
  simp only [show ((Module.machine.run {} labels).getD {}).loaded = true from loaded, true_and]
  exact Iff.rfl

end Aesd
