import Aesd.Driver.Files

/-!
# A reader among writers

An opener that only reads, while others write, seek and read. The stream is all
records ever completed, end to end. A read delivers a piece of it, and the next
one goes on behind that piece, except that every byte the ring drops in between
is passed over, whether it was delivered or not.
-/

namespace Aesd
open Library

def Operation.isRead : Operation → Bool
  | .read _ => true
  | _ => false

def deliveredTo (opener : Nat) (f : Files) (call : FileCall) : List UInt8 :=
  if call.opener = opener then (reply call.env f.driver (f.fpos opener) call.operation).data else []

def OnlyReads (opener : Nat) (_ : Files) (call : FileCall) : Prop :=
  call.opener = opener → call.operation.isRead = true

instance (opener : Nat) (f : Files) (call : FileCall) : Decidable (OnlyReads opener f call) :=
  inferInstanceAs (Decidable (_ → _))

/-- The log has the records completed so far and the opener's position counts the bytes it got; with
nothing dropped these are the front of the stream. -/
structure Follows (opener : Nat) (calls : List FileCall) (f : Files) : Prop where
  log : ∃ d, f.Represents d ∧ d.records = files.observe Files.handed Files.init calls
  fpos : f.fpos opener = (files.observe (deliveredTo opener) Files.init calls).length
  small : (files.observe (deliveredTo opener) Files.init calls).length < 2 ^ 63
  front : droppedBytes maxWriteOperations (files.observe Files.handed Files.init calls) = 0 →
    files.observe (deliveredTo opener) Files.init calls <+: (files.observe Files.handed Files.init calls).flatten

/-- What a read from position `p` returns, granted or refused: the front of what is left of a record, and the position
past it. One that gets the lock and can copy has as much of it as was asked for. -/
structure ReadPiece (records : List (List UInt8)) (env : CallEnv) (count p : Nat) (res : ReadResult) : Prop where
  front : ∃ n, res.data = (restOfRecord records p).take n
  moved : res.fpos = (p + res.data.length : Nat)
  small : p + res.data.length < 2 ^ 63
  ended : 0 < count → res.retval = 0 → records.flatten.length ≤ p
  whole : env.interrupted = false → env.notCopied = 0 → res.data = (restOfRecord records p).take count

variable {s : Driver} {ring : List Cell} {pending : Option Cell} {lost : List Nat} {f f' : Files} {d d' : LogDevice}
  {opener p : Nat} {calls : List FileCall} {call : FileCall} {request : Request} {answered : Reply}

theorem ReadPiece.refused {records : List (List UInt8)} {env : CallEnv} {count : Nat} {e : Int} (error : e < 0)
    (small : p < 2 ^ 63) (stopped : ¬ (env.interrupted = false ∧ env.notCopied = 0)) :
    ReadPiece records env count p ⟨e, [], p⟩ where
  front := ⟨0, rfl⟩
  moved := rfl
  small := small
  ended _ zero := absurd zero (Int.ne_of_lt error)
  whole lock copies := (stopped ⟨lock, copies⟩).elim

theorem Layout.read_piece (h : Layout s ring pending lost) (env : CallEnv) (count : Nat) (small : p < 2 ^ 63) :
    ReadPiece (ring.map Prod.snd) env count p (aesdRead env count s p) := by
  have word : toSizeT (p : Int) = p := toSizeT_natCast (by omega)
  have bound := h.records_lt
  by_cases interrupted : env.interrupted
  · rw [aesdRead, if_pos interrupted]
    refine .refused (by decide) small ?_
    rw [interrupted]
    exact fun both => Bool.noConfusion both.1
  have result := h.read_eq env count p
  rw [word] at result
  rw [aesdRead, if_neg interrupted]
  simp only at result
  split at result
  · rename_i ended
    rw [result]
    exact ⟨⟨0, rfl⟩, rfl, small, fun _ _ => restOfRecord_eq_nil.mp ended, fun _ _ => by rw [ended, List.take_nil]⟩
  split at result
  · rename_i faulty
    rw [result]
    exact .refused (by decide) small (fun both => faulty (by rw [both.2, Nat.zero_min]))
  · rename_i more _
    have inside : ((restOfRecord (ring.map Prod.snd) p).take count).length ≤
        (ring.map Prod.snd).flatten.length - p := by
      rw [← List.length_drop]
      exact ((List.take_prefix _ _).trans (restOfRecord_front _ _)).length_le
    rw [result]
    refine ⟨⟨count, rfl⟩, ?_, ?_, ?_, fun _ _ => rfl⟩
    · rw [loffT_of_bounds (by omega) (by omega)]
      rfl
    · simp only
      omega
    · intro some' zero
      have positive := List.length_pos_iff.mpr more
      simp only [List.length_take] at zero
      omega

/-! ### One call -/

theorem Follows.init (opener : Nat) : Follows opener [] Files.init where
  log := ⟨LogDevice.init, Files.Represents.init, rfl⟩
  fpos := rfl
  small := by simp [Machine.observe]
  front _ := List.prefix_rfl

/-- The piece that the opener's next call delivers, by the bytes dropped and delivered so far. -/
theorem Follows.piece (h : Follows opener calls f) (mine : call.opener = opener) (reads : call.operation.isRead = true) :
    let records := files.observe Files.handed Files.init calls
    let got := files.observe (deliveredTo opener) Files.init calls
    let piece := deliveredTo opener f call
    piece <+: records.flatten.drop (droppedBytes maxWriteOperations records + got.length) ∧
      (piece = [] ∨ ∃ record ∈ records, piece <:+: record) ∧
      ((reply call.env f.driver (f.fpos opener) call.operation).retval = 0 → call.operation ≠ .read 0 →
        records.flatten.length ≤ droppedBytes maxWriteOperations records + got.length) ∧
      (∀ count, call.operation = .read count → 0 < count → call.env.interrupted = false → call.env.notCopied = 0 →
        droppedBytes maxWriteOperations records + got.length < records.flatten.length →
          piece ≠ [] ∧ (piece.length = count ∨ ∃ record ∈ records, piece <:+ record)) ∧
      (perform call.env f.driver (f.fpos opener) call.operation).fpos = (got.length + piece.length : Nat) ∧
      got.length + piece.length < 2 ^ 63 := by
  intro records got piece
  obtain ⟨caller, env, operation⟩ := call
  cases operation with
  | read count =>
    obtain ⟨d, represents, same⟩ := h.log
    obtain ⟨ring, pending, lost, layout, kept, _⟩ := represents.layout
    obtain ⟨⟨n, data⟩, moved, small, ended, whole⟩ := layout.read_piece env count h.small
    rw [← h.fpos] at data moved small ended whole
    have kept : ring.map Prod.snd = records.rtake maxWriteOperations := by rw [kept, LogDevice.kept, same]
    have piece_eq : piece = (aesdRead env count f.driver (f.fpos opener)).data := by
      simp only [piece, deliveredTo, reply, if_pos (show caller = opener from mine)]
    have front : piece <+: restOfRecord (records.rtake maxWriteOperations) got.length := by
      rw [piece_eq, data, kept]
      exact List.take_prefix _ _
    refine ⟨front.trans (restOfRecord_stream _ _ _), ?_, ?_, ?_, by rw [piece_eq]; exact moved,
      by rw [piece_eq]; exact small⟩
    · rcases restOfRecord_inside_one (records.rtake maxWriteOperations) got.length with nothing | ⟨record, inside, rest⟩
      · rw [nothing, List.prefix_nil] at front
        exact Or.inl front
      · exact Or.inr ⟨record, mem_of_mem_rtake inside, front.isInfix.trans rest.isInfix⟩
    · intro zero some'
      have past := ended (Nat.pos_of_ne_zero fun none' => some' (by rw [none'])) zero
      rw [kept] at past
      rw [← length_flatten_split maxWriteOperations records]
      exact Nat.add_le_add_left past _
    · intro count' asked some' lock copies left
      obtain rfl := Operation.read.inj asked
      rw [← length_flatten_split maxWriteOperations records] at left
      have whole : piece = (restOfRecord (records.rtake maxWriteOperations) got.length).take count := by
        rw [piece_eq, ← kept]
        exact whole lock copies
      obtain ⟨more, full | ⟨record, inside, rest⟩⟩ :=
        restOfRecord_take some' (Nat.lt_of_add_lt_add_left left)
      · rw [whole]
        exact ⟨more, Or.inl full⟩
      · rw [whole]
        exact ⟨more, Or.inr ⟨record, mem_of_mem_rtake inside, rest⟩⟩
  | write buf => cases reads
  | llseek offSet whence => cases reads
  | ioctl cmd seekto => cases reads

theorem Follows.step (h : Follows opener calls f) (run : files.run Files.init calls = some f)
    (guard : OnlyReads opener f call) (step : files.step f call = some f') : Follows opener (calls ++ [call]) f' := by
  obtain ⟨d, represents, same⟩ := h.log
  obtain ⟨d', answered, record, after⟩ := represents.step step
  have records : d'.records = files.observe Files.handed Files.init (calls ++ [call]) := by
    rw [LogDevice.answer_records answered, ← record, Machine.observe_snoc run, same]
  by_cases mine : call.opener = opener
  · obtain ⟨piece, _, _, _, moved, small⟩ := h.piece mine (guard mine)
    have nothing : f.handed call = [] := by
      obtain ⟨caller, env, operation⟩ := call
      cases operation with
      | write buf => cases guard mine
      | _ => rfl
    have position : f'.fpos opener = (perform call.env f.driver (f.fpos opener) call.operation).fpos := by
      simp only [files] at step
      split at step
      · cases step
      · obtain rfl := Option.some.inj step
        rw [mine]
        exact Function.update_self _ _ _
    refine ⟨⟨d', after, records⟩, ?_, ?_, ?_⟩
    · rw [position, moved, Machine.observe_snoc run, List.length_append]
    · rw [Machine.observe_snoc run, List.length_append]
      exact small
    · rw [Machine.observe_snoc run, Machine.observe_snoc run, nothing, List.append_nil]
      intro zero
      rw [zero, Nat.zero_add] at piece
      exact prefix_append_drop (h.front zero) piece
  · have nothing : deliveredTo opener f call = [] := if_neg mine
    have still : f'.fpos opener = f.fpos opener := by
      rw [after.fpos, LogDevice.answer_others answered (Ne.symm mine), represents.fpos]
    refine ⟨⟨d', after, records⟩, ?_, ?_, ?_⟩
    · rw [still, h.fpos, Machine.observe_snoc run, nothing, List.append_nil]
    · rw [Machine.observe_snoc run, nothing, List.append_nil]
      exact h.small
    · rw [Machine.observe_snoc run, Machine.observe_snoc run, nothing, List.append_nil, List.flatten_append]
      intro zero
      have earlier := droppedBytes_mono maxWriteOperations (files.observe Files.handed Files.init calls) (f.handed call)
      exact (h.front (by omega)).trans (List.prefix_append _ _)

/-! ### Every run -/

/-- Whatever the other openers do, each read of an opener that only reads delivers, from one record, the
stream of all records from where the bytes dropped and the bytes it got so far end, and reports the end
only there. Before the end, one that gets the lock and can copy delivers what it asked for or the rest of
the record. While nothing is dropped the opener gets the front of the stream. -/
theorem reads_follow_stream (opener : Nat) (reads : files.Along (OnlyReads opener) Files.init calls)
    (run : files.run Files.init calls = some f) :
    let stream := (files.observe Files.handed Files.init calls).flatten
    (∀ earlier call later t, calls = earlier ++ call :: later → files.run Files.init earlier = some t →
      call.opener = opener →
        let records := files.observe Files.handed Files.init earlier
        let offset := droppedBytes maxWriteOperations records +
          (files.observe (deliveredTo opener) Files.init earlier).length
        let piece := deliveredTo opener t call
        piece <+: stream.drop offset ∧ (piece = [] ∨ ∃ record ∈ records, piece <:+: record) ∧
        ((reply call.env t.driver (t.fpos opener) call.operation).retval = 0 → call.operation ≠ .read 0 →
          records.flatten.length ≤ offset) ∧
        (∀ count, call.operation = .read count → 0 < count → call.env.interrupted = false → call.env.notCopied = 0 →
          offset < records.flatten.length →
            piece ≠ [] ∧ (piece.length = count ∨ ∃ record ∈ records, piece <:+ record))) ∧
    ((files.observe Files.handed Files.init calls).length ≤ maxWriteOperations →
      files.observe (deliveredTo opener) Files.init calls <+: stream) := by
  intro stream
  have follows := Machine.on_the_way (P := Follows opener) (Follows.init opener)
    (fun before h guard step => h.step before guard step) reads
  constructor
  · intro earlier call later t split reached mine
    have guard : OnlyReads opener t call := by
      rw [split, Machine.along_append reached] at reads
      exact reads.2.1
    obtain ⟨piece, one, ended, some', _⟩ := (follows earlier (call :: later) t split reached).piece mine (guard mine)
    refine ⟨piece.trans ?_, one, ended, some'⟩
    have grows : (files.observe Files.handed Files.init earlier).flatten <+: stream := by
      simp only [stream]
      rw [split, Machine.observe_append reached, List.flatten_append]
      exact List.prefix_append _ _
    exact grows.drop _
  · intro few
    refine (follows calls [] f (by simp) run).front ?_
    rw [droppedBytes, List.rdrop, Nat.sub_eq_zero_of_le few]
    rfl

/-- Twelve lines of two bytes each, with a read of the first line after the tenth. -/
theorem reads_follow_stream_evicted :
    let write (i : Nat) : FileCall := ⟨1, { kmallocAt := some i }, .write [i.toUInt8, newline]⟩
    let earlier := (List.range 10).map write ++ [⟨2, {}, .read 9⟩, write 10, write 11]
    let t := (files.run Files.init earlier).getD Files.init
    let records := files.observe Files.handed Files.init earlier
    droppedBytes maxWriteOperations records = 4 ∧ deliveredTo 2 t ⟨2, {}, .read 9⟩ ≠ [] ∧
      deliveredTo 2 t ⟨2, {}, .read 9⟩ <+:
        (files.observe Files.handed Files.init (earlier ++ [⟨2, {}, .read 9⟩])).flatten.drop
          (droppedBytes maxWriteOperations records + (files.observe (deliveredTo 2) Files.init earlier).length) := by
  intro write earlier t records
  have law := (reads_follow_stream 2 (show files.Along (OnlyReads 2) Files.init (earlier ++ [⟨2, {}, .read 9⟩])
    by decide +kernel) (Machine.run_getD (by decide +kernel) Files.init)).1
  obtain ⟨piece, _, _, some'⟩ :=
    law earlier ⟨2, {}, .read 9⟩ [] t rfl (Machine.run_getD (by decide +kernel) Files.init) rfl
  exact ⟨by decide +kernel, (some' 9 rfl (by decide) rfl rfl (by decide +kernel)).1, piece⟩

end Aesd
