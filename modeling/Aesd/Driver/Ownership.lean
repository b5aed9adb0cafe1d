import Aesd.Driver.Writer

/-!
# Who owns the blocks

The driver owns its memory exactly when the live blocks are those its eleven
entries point at, each pointed at once. It does until a record is added to a
full ring: `aesd_circular_buffer_add_entry` overwrites the oldest pointer and
nothing frees the block.
-/

namespace Aesd
open Library

namespace Driver

def pointers (s : Driver) : List Pointer :=
  ((List.range maxWriteOperations).map (fun i => (s.dev.buffer.slot i).buffptr) ++ [s.dev.entry.buffptr]).filter
    fun p => p ≠ .null

structure OwnsExactly (s : Driver) : Prop where
  owned : ∀ p, p ∈ s.pointers ↔ ∃ a, p = .block a ∧ s.heap.get a ≠ none
  distinct : s.pointers.Nodup
  few : s.heap.blocks.keys.length ≤ maxWriteOperations + 1

end Driver

/-- No record is added to a full ring. -/
def NoEviction (s : Driver) (call : WriteCall) : Prop :=
  ¬ (granted call.env call.buf s = true ∧ EndsLine call.buf ∧ s.dev.buffer.Evicts)

instance (s : Driver) (call : WriteCall) : Decidable (NoEviction s call) := inferInstanceAs (Decidable (¬ _))

variable {s t : Driver} {ring : List Cell} {pending : Option Cell} {lost : List Nat} {call : WriteCall}
  {calls : List WriteCall}

theorem Layout.pointers_perm (h : Layout s ring pending lost) :
    s.pointers.Perm (((ring ++ pending.toList).map Prod.fst).map Pointer.block) := by
  have turn := window_perm s.dev.buffer.slot maxWriteOperations s.dev.buffer.outOffs h.holds.out_lt
  rw [h.window_eq] at turn
  have slots : (List.range maxWriteOperations).map (fun i => (s.dev.buffer.slot i).buffptr) =
      (window s.dev.buffer.slot maxWriteOperations 0 maxWriteOperations).map BufferEntry.buffptr := by
    rw [window, List.map_map]
    apply List.map_congr_left
    intro i inside
    rw [Function.comp_apply, Nat.zero_add, Nat.mod_eq_of_lt (List.mem_range.mp inside)]
  have last : [s.dev.entry.buffptr].filter (fun p => decide (p ≠ .null)) =
      (pending.toList.map Prod.fst).map Pointer.block := by
    rw [h.entry]
    cases pending <;> simp [BufferEntry.unused, Cell.entry]
  have used : ((ring.map Cell.entry).map BufferEntry.buffptr).filter (fun p => decide (p ≠ .null)) =
      (ring.map Prod.fst).map Pointer.block := by
    rw [List.map_map, List.map_map]
    apply List.filter_eq_self.mpr
    intro p member
    obtain ⟨cell, _, rfl⟩ := List.mem_map.mp member
    rfl
  rw [Driver.pointers, List.filter_append, last, slots, List.map_append, List.map_append]
  refine List.Perm.append_right _ (((turn.map BufferEntry.buffptr).filter _).symm.trans ?_)
  rw [List.map_append, List.filter_append, used]
  simp [BufferEntry.unused]

theorem Layout.pointers_nodup (h : Layout s ring pending lost) : s.pointers.Nodup := by
  have blocks : ((ring ++ pending.toList).map Prod.fst).Nodup := (List.nodup_append.mp h.distinct).1
  exact h.pointers_perm.nodup_iff.mpr (blocks.map fun _ _ => Pointer.block.inj)

theorem Layout.ownsExactly_iff (h : Layout s ring pending lost) : s.OwnsExactly ↔ lost = [] := by
  have perm := h.pointers_perm
  constructor
  · intro owns
    rw [List.eq_nil_iff_forall_not_mem]
    intro a gone
    have live := (h.owned a).mpr (List.mem_append_right _ gone)
    have pointed := perm.mem_iff.mp ((owns.owned (.block a)).mpr ⟨a, rfl, live⟩)
    simp only [List.mem_map, Pointer.block.injEq, exists_eq_right] at pointed
    obtain ⟨cell, member, rfl⟩ := pointed
    exact (List.nodup_append.mp h.distinct).2.2 _ (List.mem_map_of_mem member) _ gone rfl
  · rintro rfl
    have owned := h.owned
    simp only [List.append_nil] at owned
    refine ⟨fun p => ?_, h.pointers_nodup, ?_⟩
    · rw [perm.mem_iff, List.mem_map]
      constructor
      · rintro ⟨a, member, rfl⟩
        exact ⟨a, rfl, (owned a).mpr member⟩
      · rintro ⟨a, rfl, live⟩
        exact ⟨a, (owned a).mp live, rfl⟩
    · have inside : s.heap.blocks.keys ⊆ (ring ++ pending.toList).map Prod.fst := by
        intro a member
        exact (owned a).mp fun dead => AList.lookup_eq_none.mp dead member
      have few : ring.length ≤ maxWriteOperations := by simpa using h.holds.few
      have one : pending.toList.length ≤ 1 := by cases pending <;> simp
      have below := (s.heap.blocks.keys_nodup.subperm inside).length_le
      rw [List.length_map, List.length_append] at below
      omega

theorem writer_step_lost (h : Layout s ring pending lost) (some' : SomeBytes s call)
    (step : writer.step s call = some t) :
    ∃ ring' pending' more, Layout t ring' pending' (lost ++ more) ∧ (more = [] ↔ NoEviction s call) := by
  rcases writer_step h some' step with ⟨denied, rfl, _⟩ | ⟨ok, a, _, after⟩
  · exact ⟨ring, pending, [], by rwa [List.append_nil], by simp [NoEviction, denied]⟩
  · simp only at after
    split at after
    · rename_i ends
      refine ⟨_, _, _, after.2, ?_⟩
      have few : ring.length ≤ maxWriteOperations := by simpa using h.holds.few
      have full := h.holds.evicts_iff
      rw [List.length_map] at full
      simp only [NoEviction, ok, ends, full, true_and, List.map_eq_nil_iff, List.rdrop, List.take_eq_nil_iff,
        List.length_append, List.length_singleton]
      constructor
      · rintro (short | none')
        · omega
        · simp at none'
      · intro room
        left
        omega
    · rename_i more
      exact ⟨_, _, [], by rw [List.append_nil]; exact after.2, by simp [NoEviction, more]⟩

/-- Every state of a run of writes, failing or not, owns exactly its memory when, and only when, the run
adds no record to a full ring. -/
theorem owns_exactly_iff (some' : writer.Along SomeBytes Driver.init calls) :
    (∀ earlier later t, calls = earlier ++ later → writer.run Driver.init earlier = some t → t.OwnsExactly) ↔
      writer.Along NoEviction Driver.init calls := by
  have layouts := layout_on_the_way some'
  constructor
  · intro owns
    apply Machine.along_of_prefixes
    intro earlier call later t split reached
    obtain ⟨ring, pending, lost, layout⟩ := layouts _ _ _ split reached
    have here : SomeBytes t call := by
      rw [split, Machine.along_append reached] at some'
      exact some'.2.1
    obtain ⟨u, step⟩ := writer_enabled layout here
    obtain ⟨_, _, more, layout', noMore⟩ := writer_step_lost layout here step
    have nothing := layout'.ownsExactly_iff.mp (owns (earlier ++ [call]) later u (by simpa using split)
      (Machine.run_snoc.mpr ⟨t, reached, step⟩))
    exact noMore.mp (List.append_eq_nil_iff.mp nothing).2
  · intro keeps earlier later t split reached
    have owned : ∃ ring pending, Layout t ring pending [] := by
      refine Machine.on_the_way (P := fun _ s => ∃ ring pending, Layout s ring pending [])
        ⟨[], none, init_layout⟩ ?_ (Machine.along_and.mpr ⟨some', keeps⟩) earlier later t split reached
      intro _ s call u _ earlier both step
      obtain ⟨ring, pending, layout⟩ := earlier
      obtain ⟨some', keeps⟩ := both
      obtain ⟨ring', pending', more, layout', noMore⟩ := writer_step_lost layout some' step
      rw [noMore.mpr keeps] at layout'
      exact ⟨ring', pending', layout'⟩
    obtain ⟨ring, pending, layout⟩ := owned
    exact layout.ownsExactly_iff.mpr rfl

theorem ten_records_owned :
    let calls : List WriteCall :=
      (List.range 10).map (fun i => ⟨{ kmallocAt := some i }, [i.toUInt8, newline], 0⟩) ++ [⟨{}, [65], 0⟩]
    ((writer.run Driver.init calls).getD Driver.init).OwnsExactly := by
  intro calls
  have some' : writer.Along SomeBytes Driver.init calls := by decide
  exact (owns_exactly_iff some').mpr (by decide) calls [] _ (List.append_nil _).symm rfl

/-- The eleventh record replaces the pointer to block 0, which stays allocated. -/
theorem eleventh_record_leaks :
    ¬ ∀ (calls : List WriteCall) (s : Driver), writer.Along SomeBytes Driver.init calls →
      writer.run Driver.init calls = some s → s.OwnsExactly := by
  intro owns
  let calls : List WriteCall := (List.range 11).map fun i => ⟨{ kmallocAt := some i }, [i.toUInt8, newline], 0⟩
  have owned := (owns calls ((writer.run Driver.init calls).getD Driver.init) (by decide) rfl).owned (.block 0)
  have forgotten : Pointer.block 0 ∉ ((writer.run Driver.init calls).getD Driver.init).pointers := by decide
  exact forgotten (owned.mpr ⟨0, rfl, by decide⟩)

end Aesd
