import Aesd.Driver.Device

/-!
# What the server finds in its buffer

The library calls `handle_client` makes on its receive buffer. They do not stop
at the bytes just received: what lies behind them is part of the argument.
-/

namespace Aesd

def seekPrefix : List UInt8 :=
  ['A', 'E', 'S', 'D', 'C', 'H', 'A', 'R', '_', 'I', 'O', 'C', 'S', 'E', 'E', 'K', 'T', 'O', ':'].map
    fun c => c.toNat.toUInt8

/-- `recv` into the buffer: the new bytes, then what was there before. -/
def recvInto (buffer chunk : List UInt8) : List UInt8 := chunk ++ buffer.drop chunk.length

/-- `strncmp(a, b, n) == 0`. Memory ends in a NUL. -/
def strncmpEq : Nat → List UInt8 → List UInt8 → Bool
  | 0, _, _ => true
  | n + 1, a, b => a.headD 0 == b.headD 0 && (a.headD 0 == 0 || strncmpEq n a.tail b.tail)

def isSeek (buffer : List UInt8) : Bool := strncmpEq 19 buffer seekPrefix

def cString (memory : List UInt8) : List UInt8 := memory.takeWhile fun c => c ≠ 0

def isSpace (c : UInt8) : Bool := c == 32 || (9 ≤ c && c ≤ 13)

def isDigit (c : UInt8) : Bool := 48 ≤ c && c ≤ 57

def digitsValue (digits : List UInt8) : Nat := digits.foldl (fun v d => 10 * v + (d.toNat - 48)) 0

/-- The `unsigned long` that `sscanf` converts the digits to, all ones where it overflows, stored in 32 bits. -/
def unsignedValue (negative : Bool) (digits : List UInt8) : UInt32 :=
  if digitsValue digits ≥ 2 ^ 64 then -1
  else if negative then -UInt32.ofNat (digitsValue digits)
  else UInt32.ofNat (digitsValue digits)

/-- `%u`: white space, an optional sign and the longest run of digits; the value and the rest of the
string. -/
def scanUnsigned (text : List UInt8) : Option (UInt32 × List UInt8) :=
  let text := text.dropWhile isSpace
  let negative := text.head? = some 45
  let text := if negative ∨ text.head? = some 43 then text.tail else text
  let digits := text.takeWhile isDigit
  if digits = [] then none
  else some (unsignedValue negative digits, text.dropWhile isDigit)

/-- `sscanf(memory, "%u,%u", &write_cmd, &write_cmd_offset) == 2` and the two numbers. -/
def scanSeekto (memory : List UInt8) : Option Seekto :=
  match scanUnsigned (cString memory) with
  | none => none
  | some (writeCmd, rest) =>
    if rest.head? = some 44 then (scanUnsigned rest.tail).map fun offset => ⟨writeCmd, offset.1⟩
    else none

theorem strncmpEq_iff {n : Nat} {a b : List UInt8} (length : n ≤ b.length) (text : 0 ∉ b.take n) :
    strncmpEq n a b = true ↔ b.take n <+: a := by
  induction n generalizing a b with
  | zero => simp [strncmpEq]
  | succ n ih =>
    obtain ⟨c, b, rfl⟩ : ∃ c b', b = c :: b' := List.exists_cons_of_length_pos (by omega)
    rw [List.take_succ_cons, List.mem_cons, not_or] at text
    obtain ⟨here, text⟩ := text
    cases a with
    | nil => simp [strncmpEq, here]
    | cons d a =>
      simp only [strncmpEq, List.headD_cons, List.tail_cons, Bool.and_eq_true, beq_iff_eq, Bool.or_eq_true,
        List.take_succ_cons, List.cons_prefix_cons]
      constructor
      · rintro ⟨rfl, zero | rest⟩
        · exact (here zero.symm).elim
        · exact ⟨rfl, (ih (by simpa using length) text).mp rest⟩
      · rintro ⟨rfl, rest⟩
        exact ⟨rfl, Or.inr ((ih (by simpa using length) text).mpr rest)⟩

theorem isSeek_iff (buffer : List UInt8) : isSeek buffer = true ↔ seekPrefix <+: buffer :=
  strncmpEq_iff (b := seekPrefix) (by decide) (by decide)

/-- A line is not taken for a command because of what lies behind it: the 19 characters have no newline. -/
theorem isSeek_line {bytes : List UInt8} (line : newline ∈ bytes) (data : ¬ seekPrefix <+: bytes)
    (buffer : List UInt8) : isSeek (recvInto buffer bytes) = false := by
  rw [Bool.eq_false_iff, ne_eq, isSeek_iff]
  intro seek
  rcases List.prefix_or_prefix_of_prefix seek (List.prefix_append _ _) with inside | beyond
  · exact data inside
  · exact absurd (beyond.subset line) (by decide)

end Aesd
