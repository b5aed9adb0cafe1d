import Aesd.Driver.Writer

/-!
# What becomes of the written bytes

The device is lossless when the bytes handed to the ring, and then the pending
ones, are the bytes written, cut into records after each write that ends a line.
It is as long as `krealloc` leaves the pending bytes where `memcpy` looks for
them.
-/

namespace Aesd
open Library

structure Lossless (calls : List WriteCall) (s : Driver) : Prop where
  conserved : (writer.observe handed Driver.init calls).flatten ++ s.pending = (calls.map WriteCall.buf).flatten
  grouped : ∃ groups rest, Grouped EndsLine (calls.map WriteCall.buf) groups rest ∧
    writer.observe handed Driver.init calls = groups.map List.flatten ∧ s.pending = rest.flatten

/-- `krealloc` keeps the pending block at its address, or what then lies at the old address reads as
the pending bytes. Nothing is asked of a call that finds no pending block. -/
def Keeps (s : Driver) (call : WriteCall) : Prop :=
  match s.dev.entry.buffptr with
  | .block a => call.env.kreallocAt = some a ∨ garbage call.env.junk s.dev.entry.size = s.pending
  | _ => True

instance (s : Driver) (call : WriteCall) : Decidable (Keeps s call) := by
  unfold Keeps; split <;> infer_instance

variable {s t : Driver} {ring : List Cell} {pending : Option Cell} {lost : List Nat} {call : WriteCall}
  {calls : List WriteCall}

theorem keeps_iff (h : Layout s ring pending lost) : Keeps s call ↔ carried call.env pending = s.pending := by
  have same := h.pending_eq
  unfold Keeps
  rw [h.entry]
  rcases pending with _ | ⟨a, bytes⟩
  · simp [BufferEntry.unused, carried, same]
  · simp only [Option.elim_some, Cell.entry, carried] at same ⊢
    rw [same]
    by_cases kept : call.env.kreallocAt = some a <;> simp [kept]

theorem write_effect (h : Layout s ring pending lost) (ok : Succeeds s call) (step : writer.step s call = some t) :
    if EndsLine call.buf then handed s call = [carried call.env pending ++ call.buf] ∧ t.pending = []
    else handed s call = [] ∧ t.pending = carried call.env pending ++ call.buf := by
  rcases writer_step h ok.1 step with ⟨denied, _⟩ | ⟨_, a, _, after⟩
  · rw [(succeeds_iff h ok.1).mp ok] at denied
    cases denied
  · simp only at after
    split at after
    · rename_i ends
      rw [if_pos ends]
      exact ⟨after.1, after.2.pending_eq⟩
    · rename_i more
      rw [if_neg more]
      exact ⟨after.1, after.2.pending_eq⟩

theorem init_lossless : Lossless [] Driver.init :=
  ⟨rfl, [], [], Grouped.nil _, rfl, rfl⟩

theorem Lossless.step (h : Lossless calls s) (run : writer.run Driver.init calls = some s)
    (layout : Layout s ring pending lost) (ok : Succeeds s call) (keeps : Keeps s call)
    (step : writer.step s call = some t) : Lossless (calls ++ [call]) t := by
  obtain ⟨conserved, groups, rest, grouped, records, opened⟩ := h
  have effect := write_effect layout ok step
  rw [(keeps_iff layout).mp keeps] at effect
  have buf : (calls ++ [call]).map WriteCall.buf = calls.map WriteCall.buf ++ [call.buf] := by simp
  split at effect
  · rename_i ends
    obtain ⟨new, empty⟩ := effect
    refine ⟨?_, groups ++ [rest ++ [call.buf]], [], by rw [buf]; exact grouped.close ends, ?_, ?_⟩
    · rw [Machine.observe_snoc run, new, empty, buf]
      simp [← conserved]
    · rw [Machine.observe_snoc run, new, records, opened]
      simp
    · rw [empty, List.flatten_nil]
  · rename_i more
    obtain ⟨nothing, grown⟩ := effect
    refine ⟨?_, groups, rest ++ [call.buf], by rw [buf]; exact grouped.extend more, ?_, ?_⟩
    · rw [Machine.observe_snoc run, nothing, grown, buf]
      simp [← conserved]
    · rw [Machine.observe_snoc run, nothing, List.append_nil, records]
    · rw [grown, opened]
      simp

theorem keeps_of_conserved (run : writer.run Driver.init calls = some s) (layout : Layout s ring pending lost)
    (ok : Succeeds s call) (step : writer.step s call = some t) (before : Lossless calls s)
    (after : Lossless (calls ++ [call]) t) : Keeps s call := by
  have conserved := after.conserved
  have effect := write_effect layout ok step
  rw [keeps_iff layout]
  rw [Machine.observe_snoc run, List.map_append, List.flatten_append, List.flatten_append, ← before.conserved]
    at conserved
  split at effect
  · obtain ⟨new, empty⟩ := effect
    rw [new, empty] at conserved
    simpa using conserved
  · obtain ⟨nothing, grown⟩ := effect
    rw [nothing, grown] at conserved
    simpa using conserved

/-- Every state of a run of successful writes is lossless exactly when each of its writes keeps the
pending bytes. -/
theorem writes_lossless_iff (ok : writer.Along Succeeds Driver.init calls) :
    (∀ earlier later t, calls = earlier ++ later → writer.run Driver.init earlier = some t → Lossless earlier t) ↔
      writer.Along Keeps Driver.init calls := by
  have layouts := layout_on_the_way (Machine.along_mono (fun _ _ h => h.1) ok)
  constructor
  · intro lossless
    apply Machine.along_of_prefixes
    intro earlier call later t split reached
    obtain ⟨ring, pending, lost, layout⟩ := layouts _ _ _ split reached
    have ok' := ok
    rw [split, Machine.along_append reached] at ok'
    have here : Succeeds t call := ok'.2.1
    obtain ⟨u, step⟩ := writer_enabled layout here.1
    exact keeps_of_conserved reached layout here step (lossless _ _ _ split reached)
      (lossless (earlier ++ [call]) later u (by simpa using split) (Machine.run_snoc.mpr ⟨t, reached, step⟩))
  · intro keeps earlier later t split reached
    refine (Machine.on_the_way (P := fun calls s => Lossless calls s ∧ ∃ ring pending lost,
      Layout s ring pending lost) ⟨init_lossless, [], none, [], init_layout⟩ ?_
      (Machine.along_and.mpr ⟨ok, keeps⟩) earlier later t split reached).1
    intro calls s call u before earlier both step
    obtain ⟨lossless, ring, pending, lost, layout⟩ := earlier
    obtain ⟨ok, keeps⟩ := both
    refine ⟨lossless.step before layout ok keeps step, ?_⟩
    rcases writer_step layout ok.1 step with ⟨_, rfl, _⟩ | ⟨_, a, _, after⟩
    · exact ⟨ring, pending, lost, layout⟩
    · simp only at after
      split at after
      · exact ⟨_, _, _, after.2⟩
      · exact ⟨_, _, _, after.2⟩

theorem in_place_lossless :
    let calls : List WriteCall := [⟨{ kmallocAt := some 1 }, [65], 0⟩,
      ⟨{ kmallocAt := some 2, kreallocAt := some 1 }, [66], 0⟩,
      ⟨{ kmallocAt := some 2, kreallocAt := some 1 }, [67, newline], 0⟩]
    Lossless calls ((writer.run Driver.init calls).getD Driver.init) := by
  intro calls
  have keeps : writer.Along Keeps Driver.init calls := by decide
  have ok : writer.Along Succeeds Driver.init calls := by decide
  exact (writes_lossless_iff ok).mpr keeps calls [] _ (List.append_nil _).symm rfl

/-- The second write moves the block, and the first byte is read from the freed one. -/
theorem moved_block_not_lossless :
    ¬ ∀ (calls : List WriteCall) (s : Driver), writer.run Driver.init calls = some s →
      writer.Along Succeeds Driver.init calls → Lossless calls s := by
  intro lossless
  let calls : List WriteCall := [⟨{ kmallocAt := some 1 }, [65], 0⟩,
    ⟨{ kmallocAt := some 2, kreallocAt := some 3 }, [66, newline], 0⟩]
  have conserved := (lossless calls _ (Machine.run_getD (by decide) Driver.init) (by decide)).conserved
  revert conserved
  decide

end Aesd
