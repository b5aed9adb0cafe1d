import Mathlib.Algebra.GroupWithZero.Nat
import Mathlib.Data.List.AList

/-!
# A byte heap with the slab allocator's interface

Blocks of bytes by address. What the allocator may choose is an argument of each
call: whether it finds memory, at which address, and what uninitialised or freed
memory reads as. A call whose answer is not possible, because the address is live
or the memory does not fit, returns NULL.
-/

namespace Library

/-- NULL, what an allocation of no bytes returns, or the start of a block. -/
inductive Pointer where
  | null | zeroSize
  | block (address : Nat)
  deriving DecidableEq, Repr

abbrev Blocks := AList (fun _ : Nat => List UInt8)

def liveBytes (blocks : Blocks) : Nat := (blocks.entries.map fun entry => entry.2.length).sum

/-- Live blocks are disjoint, and all lie in the upper half of 64-bit addresses. -/
def addressSpace : Nat := 2 ^ 63

structure Heap where
  blocks : Blocks
  fits : liveBytes blocks < addressSpace

def garbage (junk : Nat → UInt8) (n : Nat) : List UInt8 := (List.range n).map junk

@[simp] theorem garbage_length (junk : Nat → UInt8) (n : Nat) : (garbage junk n).length = n := by
  simp [garbage]

theorem entries_erase (blocks : Blocks) (a : Nat) : (blocks.erase a).entries = blocks.entries.kerase a := rfl

theorem liveBytes_of_lookup {blocks : Blocks} {a : Nat} {c : List UInt8} (h : blocks.lookup a = some c) :
    liveBytes blocks = liveBytes (blocks.erase a) + c.length := by
  obtain ⟨entries, nodup⟩ := blocks
  simp only [AList.lookup, entries_erase, liveBytes] at h ⊢
  clear nodup
  induction entries with
  | nil => simp at h
  | cons entry rest ih =>
    obtain ⟨b, d⟩ := entry
    by_cases same : a = b
    · subst same
      rw [List.dlookup_cons_eq, Option.some.injEq] at h
      subst h
      simp [List.kerase, Nat.add_comm]
    · rw [List.dlookup_cons_ne _ _ same] at h
      rw [List.kerase_cons_ne (by exact same), List.map_cons, List.map_cons, List.sum_cons, List.sum_cons, ih h]
      omega

theorem liveBytes_insert (blocks : Blocks) (a : Nat) (c : List UInt8) :
    liveBytes (blocks.insert a c) = liveBytes (blocks.erase a) + c.length := by
  simp [liveBytes, AList.entries_insert, entries_erase, Nat.add_comm]

theorem liveBytes_erase_le (blocks : Blocks) (a : Nat) : liveBytes (blocks.erase a) ≤ liveBytes blocks := by
  cases h : blocks.lookup a with
  | none =>
    have absent : a ∉ blocks.entries.keys := AList.lookup_eq_none.mp h
    simp [liveBytes, entries_erase, List.kerase_of_notMem_keys absent]
  | some c => rw [liveBytes_of_lookup h]; exact Nat.le_add_right _ _

namespace Heap

def empty : Heap := ⟨∅, by simp [liveBytes, addressSpace]⟩

def get (h : Heap) (a : Nat) : Option (List UInt8) := h.blocks.lookup a

def put (h : Heap) (a : Nat) (c : List UInt8) : Option Heap :=
  if fits : liveBytes (h.blocks.insert a c) < addressSpace then some ⟨h.blocks.insert a c, fits⟩ else none

def drop (h : Heap) (a : Nat) : Heap :=
  ⟨h.blocks.erase a, Nat.lt_of_le_of_lt (liveBytes_erase_le _ _) h.fits⟩

def kmalloc (h : Heap) (size : Nat) (answer : Option Nat) (junk : Nat → UInt8) : Option (Pointer × Heap) :=
  if size = 0 then some (.zeroSize, h)
  else match answer with
    | none => none
    | some a => if (h.get a).isSome then none else (h.put a (garbage junk size)).map fun h' => (.block a, h')

def kfree (h : Heap) : Pointer → Heap
  | .block a => h.drop a
  | _ => h

/-- The answer is the old address (the block is resized in place) or a free one (its bytes move there
and the old block is freed). -/
def krealloc (h : Heap) (p : Pointer) (size : Nat) (answer : Option Nat) (junk : Nat → UInt8) :
    Option (Pointer × Heap) :=
  if size = 0 then some (.zeroSize, h.kfree p)
  else match p with
    | .block a =>
      let kept := ((h.get a).getD []).take size
      let grown := kept ++ garbage junk (size - kept.length)
      match answer with
      | none => none
      | some b =>
        if b = a then (h.put a grown).map fun h' => (.block a, h')
        else if (h.get b).isSome then none
        else (h.put b grown).map fun h' => (.block b, h'.drop a)
    | _ => h.kmalloc size answer junk

def overwrite (c : List UInt8) (offset : Nat) (bytes : List UInt8) : List UInt8 :=
  (c.take offset ++ bytes ++ c.drop (offset + bytes.length)).take c.length

def store (h : Heap) (p : Pointer) (offset : Nat) (bytes : List UInt8) : Heap :=
  match p with
  | .block a => match h.get a with
    | some c => (h.put a (overwrite c offset bytes)).getD h
    | none => h
  | _ => h

/-- The first `n` bytes behind a pointer; a block that is not live reads as garbage. -/
def bytes (h : Heap) (junk : Nat → UInt8) (p : Pointer) (n : Nat) : List UInt8 :=
  match p with
  | .block a => match h.get a with
    | some c => c.take n
    | none => garbage junk n
  | _ => []

def load (h : Heap) (p : Pointer) (index : Nat) : Option UInt8 :=
  match p with
  | .block a => (h.get a).bind fun content => content[index]?
  | _ => none

variable {h h' : Heap} {a b size : Nat} {c : List UInt8} {p : Pointer} {answer : Option Nat} {junk : Nat → UInt8}

/-! ### Reading after each call -/

@[simp] theorem get_empty : empty.get a = none := by simp [get, empty]

theorem get_put (found : h.put a c = some h') : h'.get = Function.update h.get a (some c) := by
  unfold put at found
  split at found
  · obtain rfl := Option.some.inj found
    funext b
    by_cases same : b = a
    · subst same; simp [get]
    · simp [get, same]
  · cases found

@[simp] theorem get_drop : (h.drop a).get = Function.update h.get a none := by
  funext b
  by_cases same : b = a
  · subst same; simp [get, drop]
  · simp [get, drop, same]

theorem get_kfree_all (ps : List Pointer) (h : Heap) (a : Nat) :
    (ps.foldl kfree h).get a = if .block a ∈ ps then none else h.get a := by
  induction ps generalizing h with
  | nil => rfl
  | cons p ps ih =>
    rw [List.foldl_cons, ih]
    by_cases later : Pointer.block a ∈ ps
    · rw [if_pos later, if_pos (List.mem_cons_of_mem _ later)]
    · rw [if_neg later]
      by_cases here : p = .block a
      · subst here
        simp [kfree]
      · rw [if_neg (by simp [later, Ne.symm here])]
        cases p with
        | block b =>
          have apart : a ≠ b := fun same => here (same ▸ rfl)
          simp [kfree, apart]
        | _ => rfl

theorem kfree_block : h.kfree (.block a) = h.drop a := rfl

theorem kmalloc_some (pos : 0 < size) (found : h.kmalloc size answer junk = some (p, h')) :
    ∃ a, answer = some a ∧ p = .block a ∧ h.get a = none ∧ h.put a (garbage junk size) = some h' := by
  unfold kmalloc at found
  rw [if_neg (by omega)] at found
  split at found
  · cases found
  · rename_i a
    split at found
    · cases found
    · rename_i dead
      obtain ⟨_, put, same⟩ := Option.map_eq_some_iff.mp found
      obtain ⟨rfl, rfl⟩ := Prod.mk.inj same
      exact ⟨a, rfl, rfl, by simpa using dead, put⟩

theorem drop_put (dead : h.get a = none) (found : h.put a c = some h') : h'.drop a = h := by
  unfold put at found
  split at found
  · obtain rfl := Option.some.inj found
    obtain ⟨blocks, fits⟩ := h
    have absent : a ∉ blocks.entries.keys := AList.lookup_eq_none.mp dead
    unfold drop
    simp only [Heap.mk.injEq]
    apply AList.ext
    simp [entries_erase, AList.entries_insert, List.kerase_of_notMem_keys absent]
  · cases found

theorem put_put {d : List UInt8} {h'' : Heap} (first : h.put a c = some h') (second : h'.put a d = some h'') :
    h.put a d = some h'' := by
  unfold put at *
  split at first
  · obtain rfl := Option.some.inj first
    simpa [AList.insert_insert] using second
  · cases first

theorem put_same_length (live : h.get a = some c) {d : List UInt8} (same : d.length = c.length) :
    ∃ h', h.put a d = some h' := by
  have fits := h.fits
  rw [liveBytes_of_lookup live] at fits
  unfold put
  rw [dif_pos (by rw [liveBytes_insert, same]; exact fits)]
  exact ⟨_, rfl⟩

theorem overwrite_inside {offset : Nat} {bytes : List UInt8} (inside : offset + bytes.length ≤ c.length) :
    overwrite c offset bytes = c.take offset ++ bytes ++ c.drop (offset + bytes.length) := by
  apply List.take_of_length_le
  simp only [List.length_append, List.length_take, List.length_drop]
  omega

theorem overwrite_whole {bytes : List UInt8} (same : bytes.length = c.length) : overwrite c 0 bytes = bytes := by
  rw [overwrite_inside (by omega)]
  simp [same]

theorem overwrite_length (c : List UInt8) {offset : Nat} {bytes : List UInt8}
    (inside : offset + bytes.length ≤ c.length) : (overwrite c offset bytes).length = c.length := by
  rw [overwrite_inside inside]
  simp only [List.length_append, List.length_take, List.length_drop]
  omega

theorem put_store (live : h.get a = some c) (offset : Nat) (bytes : List UInt8)
    (inside : offset + bytes.length ≤ c.length) :
    h.put a (overwrite c offset bytes) = some (h.store (.block a) offset bytes) := by
  obtain ⟨h', put⟩ := put_same_length live (overwrite_length c inside)
  simp [store, live, put]

theorem get_store (live : h.get a = some c) (offset : Nat) (bytes : List UInt8)
    (inside : offset + bytes.length ≤ c.length) :
    (h.store (.block a) offset bytes).get =
      Function.update h.get a (some (c.take offset ++ bytes ++ c.drop (offset + bytes.length))) := by
  rw [get_put (put_store live offset bytes inside), overwrite_inside inside]

theorem bytes_whole (live : h.get a = some c) : h.bytes junk (.block a) c.length = c := by
  simp [bytes, live]

theorem krealloc_some (live : h.get a = some c) (pos : 0 < size) (keeps : c.length ≤ size)
    (found : h.krealloc (.block a) size answer junk = some (p, h')) :
    ∃ b, answer = some b ∧ p = .block b ∧ (b = a ∨ h.get b = none) ∧
      h'.get = Function.update (Function.update h.get a none) b (some (c ++ garbage junk (size - c.length))) := by
  unfold krealloc at found
  simp only [if_neg (show size ≠ 0 by omega), live, Option.getD_some,
    List.take_of_length_le keeps] at found
  cases answer with
  | none => cases found
  | some b =>
    by_cases same : b = a
    · subst same
      simp only [if_true] at found
      obtain ⟨g, put, e⟩ := Option.map_eq_some_iff.mp found
      obtain ⟨rfl, rfl⟩ := Prod.mk.inj e
      exact ⟨b, rfl, rfl, Or.inl rfl, by rw [get_put put, Function.update_idem]⟩
    · simp only [if_neg same] at found
      split at found
      · cases found
      · rename_i dead
        obtain ⟨g, put, e⟩ := Option.map_eq_some_iff.mp found
        obtain ⟨rfl, rfl⟩ := Prod.mk.inj e
        refine ⟨b, rfl, rfl, Or.inr (by simpa using dead), ?_⟩
        rw [get_drop, get_put put, Function.update_comm (Ne.symm same)]

theorem sum_lengths_lt (h : Heap) (cells : List (Nat × List UInt8)) (distinct : (cells.map Prod.fst).Nodup)
    (live : ∀ cell ∈ cells, h.get cell.1 = some cell.2) :
    (cells.map fun cell => cell.2.length).sum < addressSpace := by
  suffices below : (cells.map fun cell => cell.2.length).sum ≤ liveBytes h.blocks from
    Nat.lt_of_le_of_lt below h.fits
  induction cells generalizing h with
  | nil => exact Nat.zero_le _
  | cons cell rest ih =>
    rw [List.map_cons, List.nodup_cons] at distinct
    have here := liveBytes_of_lookup (live cell List.mem_cons_self)
    have below := ih (h.drop cell.1) distinct.2 (fun other member => by
      have apart : other.1 ≠ cell.1 := fun e => distinct.1 (e ▸ List.mem_map_of_mem member)
      rw [get_drop, Function.update_of_ne apart]
      exact live other (List.mem_cons_of_mem _ member))
    simp only [List.map_cons, List.sum_cons]
    simp only [drop] at below
    omega

end Heap
end Library
