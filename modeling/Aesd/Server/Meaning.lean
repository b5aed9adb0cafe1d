import Aesd.Server.HandleClient

/-!
# What a chunk means

Whether a chunk is taken for a seek command, and the numbers read from it.
`strncmp` and `sscanf` look at the whole buffer and beyond: the answer is the
chunk's own when both stop inside it.
-/

namespace Aesd
open Library

/-- Data, or a seek command and what `sscanf` makes of it. -/
def meaning (memory : List UInt8) : Option (Option Seekto) :=
  if isSeek memory then some (scanSeekto (memory.drop 19)) else none

/-- Whatever was in the 1024 bytes of the buffer before, and with the same memory behind it, the chunk means
the same, and it is a command only if it begins like one. -/
def OwnBytes (chunk : Chunk) : Prop :=
  ∀ before other behind : List UInt8, before.length = 1024 → other.length = 1024 →
    meaning (recvInto before chunk.bytes ++ behind) = meaning (recvInto other chunk.bytes ++ behind) ∧
    (isSeek (recvInto before chunk.bytes ++ behind) = true → seekPrefix <+: chunk.bytes)

/-! ### Where the scanner stops -/

/-- The text at the digits of a `%u`. -/
def atDigits (text : List UInt8) : List UInt8 :=
  let text := text.dropWhile isSpace
  if text.head? = some 45 ∨ text.head? = some 43 then text.tail else text

def negative (text : List UInt8) : Bool := (text.dropWhile isSpace).head? = some 45

def digits (text : List UInt8) : List UInt8 := (atDigits text).takeWhile isDigit

def remainder (text : List UInt8) : List UInt8 := (atDigits text).dropWhile isDigit

/-- Any further digit overflows, and the number is all ones already. -/
def Pinned (text : List UInt8) : Prop :=
  2 ^ 64 ≤ 10 * digitsValue (atDigits text) ∧ unsignedValue (negative text) (atDigits text) = -1

/-- The text ends while a number is being read that the next byte may change. -/
def Unfinished (text : List UInt8) : Prop :=
  remainder text = [] ∨ digits text ≠ [] ∧ (remainder text).head? = some 44 ∧
    remainder (remainder text).tail = [] ∧ ¬ Pinned (remainder text).tail

/-- Not a proper beginning of the command word, and if a command then one that fills the buffer, holds a NUL
after the word or is read to the end of its numbers. -/
def SelfContained (bytes : List UInt8) : Prop :=
  ¬ (bytes.length < 19 ∧ bytes <+: seekPrefix) ∧
  (seekPrefix <+: bytes → bytes.length = 1024 ∨ 0 ∈ bytes.drop 19 ∨ ¬ Unfinished (bytes.drop 19))

variable {text t u : List UInt8} {d : UInt8}

theorem scanUnsigned_eq (text : List UInt8) : scanUnsigned text =
    if digits text = [] then none else some (unsignedValue (negative text) (digits text), remainder text) := by
  simp [scanUnsigned, digits, remainder, atDigits, negative]

theorem isDigit_apart (digit : isDigit d = true) : isSpace d = false ∧ d ≠ 45 ∧ d ≠ 43 ∧ d ≠ 0 := by
  simp only [isDigit, Bool.and_eq_true, decide_eq_true_eq, UInt8.le_iff_toNat_le] at digit
  simp only [isSpace, Bool.or_eq_false_iff, Bool.and_eq_false_iff, beq_eq_false_iff_ne, decide_eq_false_iff_not,
    UInt8.le_iff_toNat_le, ne_eq, ← UInt8.toNat_inj]
  simp only [UInt8.reduceToNat] at digit ⊢
  omega

theorem atDigits_append (more : text.dropWhile isSpace ≠ []) :
    atDigits (text ++ t) = atDigits text ++ t ∧ negative (text ++ t) = negative text := by
  obtain ⟨c, rest, same⟩ := List.exists_cons_of_ne_nil more
  have dropped : (text ++ t).dropWhile isSpace = c :: (rest ++ t) := by
    rw [List.dropWhile_append, same]
    rfl
  unfold atDigits negative
  simp only [dropped, same, List.head?_cons, Option.some.injEq]
  refine ⟨?_, trivial⟩
  split <;> rfl

theorem atDigits_digit (digit : isDigit d = true) :
    atDigits (text ++ d :: t) = atDigits text ++ d :: t ∧ negative (text ++ d :: t) = negative text := by
  by_cases more : text.dropWhile isSpace = []
  · obtain ⟨space, minus, plus, _⟩ := isDigit_apart digit
    unfold atDigits negative
    rw [List.dropWhile_append, more]
    simp [space, minus, plus]
  · exact atDigits_append more

/-- Past the number nothing that follows matters. -/
theorem scanUnsigned_append (stops : remainder text ≠ []) (t : List UInt8) :
    scanUnsigned (text ++ t) = (scanUnsigned text).map fun found => (found.1, found.2 ++ t) := by
  have more : text.dropWhile isSpace ≠ [] := by
    intro none'
    apply stops
    unfold remainder atDigits
    rw [none']
    rfl
  obtain ⟨number, sign⟩ := atDigits_append (t := t) more
  have rest : remainder (text ++ t) = remainder text ++ t := by
    unfold remainder at stops ⊢
    rw [number, List.dropWhile_append, if_neg (by simpa using stops)]
  have same : digits (text ++ t) = digits text := by
    have whole : digits (text ++ t) ++ remainder (text ++ t) = digits text ++ (remainder text ++ t) := by
      unfold digits remainder
      rw [List.takeWhile_append_dropWhile, ← List.append_assoc, List.takeWhile_append_dropWhile, number]
    rw [rest] at whole
    exact List.append_cancel_right whole
  rw [scanUnsigned_eq, scanUnsigned_eq, same, rest, sign]
  split <;> rfl

/-- A number that reaches the end of the text goes on with the digits that follow. -/
theorem scanUnsigned_open (opens : remainder text = []) (digit : isDigit d = true) (t : List UInt8) :
    scanUnsigned (text ++ d :: 44 :: t) =
      some (unsignedValue (negative text) (atDigits text ++ [d]), 44 :: t) := by
  obtain ⟨number, sign⟩ : atDigits (text ++ d :: 44 :: t) = atDigits text ++ d :: 44 :: t ∧
      negative (text ++ d :: 44 :: t) = negative text := atDigits_digit digit
  have all : ∀ c ∈ atDigits text, isDigit c = true := List.dropWhile_eq_nil_iff.mp opens
  have comma : isDigit 44 = false := by decide
  have read : digits (text ++ d :: 44 :: t) = atDigits text ++ [d] := by
    unfold digits
    rw [number, List.takeWhile_append_of_pos all, List.takeWhile_cons_of_pos digit,
      List.takeWhile_cons_of_neg (by simp [comma])]
  have left : remainder (text ++ d :: 44 :: t) = 44 :: t := by
    unfold remainder
    rw [number, List.dropWhile_append_of_pos all, List.dropWhile_cons_of_pos digit,
      List.dropWhile_cons_of_neg (by simp [comma])]
  rw [scanUnsigned_eq, read, left, if_neg (by simp), sign]

/-- It ends at a byte that is neither white space nor a sign nor a digit. -/
theorem scanUnsigned_closed (opens : remainder text = []) (t : List UInt8) :
    scanUnsigned (text ++ 122 :: t) =
      if atDigits text = [] then none
      else some (unsignedValue (negative text) (atDigits text), 122 :: t) := by
  have all : ∀ c ∈ atDigits text, isDigit c = true := List.dropWhile_eq_nil_iff.mp opens
  have letter : isDigit 122 = false := by decide
  have both : atDigits (text ++ 122 :: t) = atDigits text ++ 122 :: t ∧ negative (text ++ 122 :: t) = negative text := by
    by_cases more : text.dropWhile isSpace = []
    · have space : isSpace 122 = false := by decide
      unfold atDigits negative
      rw [List.dropWhile_append, more]
      simp [space]
    · exact atDigits_append more
  have read : digits (text ++ 122 :: t) = atDigits text := by
    unfold digits
    rw [both.1, List.takeWhile_append_of_pos all, List.takeWhile_cons_of_neg (by simp [letter]), List.append_nil]
  have left : remainder (text ++ 122 :: t) = 122 :: t := by
    unfold remainder
    rw [both.1, List.dropWhile_append_of_pos all, List.dropWhile_cons_of_neg (by simp [letter])]
  rw [scanUnsigned_eq, read, left, both.2]

theorem digitsValue_snoc (front : List UInt8) (d : UInt8) :
    digitsValue (front ++ [d]) = 10 * digitsValue front + (d.toNat - 48) := by
  simp [digitsValue]

/-- Two further digits make two numbers, unless both overflow. -/
theorem unsignedValue_apart (sign : Bool) {front : List UInt8} (room : ¬ 2 ^ 64 ≤ 10 * digitsValue front) :
    unsignedValue sign (front ++ [48]) ≠ unsignedValue sign (front ++ [49]) := by
  have apart : UInt32.ofNat (10 * digitsValue front) ≠ UInt32.ofNat (10 * digitsValue front + 1) := by
    intro same
    have words := congrArg UInt32.toNat same
    rw [UInt32.toNat_ofNat', UInt32.toNat_ofNat'] at words
    omega
  unfold unsignedValue
  rw [digitsValue_snoc, digitsValue_snoc]
  simp only [UInt8.reduceToNat, Nat.sub_self, Nat.add_zero, Nat.reduceSub]
  have below : ¬ 10 * digitsValue front ≥ 2 ^ 64 := room
  have next : ¬ 10 * digitsValue front + 1 ≥ 2 ^ 64 := by omega
  rw [if_neg below, if_neg next]
  cases sign with
  | true =>
    intro same
    exact apart (UInt32.neg_inj.mp same)
  | false => exact apart

theorem digitsValue_grows (front more : List UInt8) : digitsValue front ≤ digitsValue (front ++ more) := by
  induction more using List.reverseRecOn with
  | nil => simp
  | append_singleton more d ih =>
    rw [← List.append_assoc, digitsValue_snoc]
    omega

theorem digitsValue_shifts (front : List UInt8) {more : List UInt8} (further : more ≠ []) :
    10 * digitsValue front ≤ digitsValue (front ++ more) := by
  obtain ⟨middle, d, rfl⟩ := List.eq_nil_or_concat more |>.resolve_left further
  have grown := digitsValue_grows front middle
  rw [List.concat_eq_append, ← List.append_assoc, digitsValue_snoc]
  omega

theorem unsignedValue_overflow (sign : Bool) {front more : List UInt8} (large : 2 ^ 64 ≤ 10 * digitsValue front)
    (further : more ≠ []) : unsignedValue sign (front ++ more) = -1 := by
  have overflow : digitsValue (front ++ more) ≥ 2 ^ 64 := Nat.le_trans large (digitsValue_shifts front further)
  unfold unsignedValue
  rw [if_pos overflow]

theorem scanUnsigned_pinned (opens : remainder text = []) (pinned : Pinned text) (t : List UInt8) :
    (scanUnsigned (text ++ t)).map Prod.fst = some (-1) := by
  obtain ⟨large, ones⟩ := pinned
  have number : atDigits text ≠ [] := by
    intro none'
    rw [none'] at large
    exact absurd large (by decide)
  have more : text.dropWhile isSpace ≠ [] := by
    intro none'
    apply number
    unfold atDigits
    rw [none']
    rfl
  obtain ⟨goes, sign⟩ := atDigits_append (t := t) more
  have all : ∀ c ∈ atDigits text, isDigit c = true := List.dropWhile_eq_nil_iff.mp opens
  have read : digits (text ++ t) = atDigits text ++ t.takeWhile isDigit := by
    unfold digits
    rw [goes, List.takeWhile_append_of_pos all]
  rw [scanUnsigned_eq, read, sign, if_neg (by simp [number]), Option.map_some, Option.some.injEq]
  by_cases further : t.takeWhile isDigit = []
  · rw [further, List.append_nil]
    exact ones
  · exact unsignedValue_overflow _ large further

/-! ### The two numbers -/

theorem cString_append (clean : 0 ∉ text) (t : List UInt8) : cString (text ++ t) = text ++ cString t := by
  unfold cString
  apply List.takeWhile_append_of_pos
  intro c inside
  have byte : c ≠ 0 := fun zero => clean (zero ▸ inside)
  simp [byte]

theorem cString_stops (ends : 0 ∈ text) (t : List UInt8) : cString (text ++ t) = cString text := by
  unfold cString
  rw [List.takeWhile_append, if_neg]
  intro whole
  have all := List.takeWhile_eq_self_iff.mp ((List.takeWhile_prefix _).eq_of_length whole)
  simpa using all 0 ends

theorem scanSeekto_second (clean : 0 ∉ text) (first : digits text ≠ []) (comma : remainder text = 44 :: u)
    (t : List UInt8) : scanSeekto (text ++ t) = (scanUnsigned (u ++ cString t)).map fun offset =>
      ⟨unsignedValue (negative text) (digits text), offset.1⟩ := by
  have stops : remainder text ≠ [] := by simp [comma]
  unfold scanSeekto
  rw [cString_append clean, scanUnsigned_append stops, scanUnsigned_eq, if_neg first, comma]
  rfl

theorem scanSeekto_none (clean : 0 ∉ text) (stops : remainder text ≠ [])
    (broken : digits text = [] ∨ (remainder text).head? ≠ some 44) (t : List UInt8) : scanSeekto (text ++ t) = none := by
  unfold scanSeekto
  rw [cString_append clean, scanUnsigned_append stops, scanUnsigned_eq]
  by_cases first : digits text = []
  · rw [if_pos first]
    rfl
  · have comma := broken.resolve_left first
    obtain ⟨c, u, same⟩ := List.exists_cons_of_ne_nil stops
    rw [same, List.head?_cons] at comma
    rw [if_neg first, same]
    exact if_neg comma

theorem scanSeekto_finished (clean : 0 ∉ text) (finished : ¬ Unfinished text) (t t' : List UInt8) :
    scanSeekto (text ++ t) = scanSeekto (text ++ t') := by
  unfold Unfinished at finished
  rw [not_or] at finished
  obtain ⟨stops, second⟩ := finished
  by_cases broken : digits text = [] ∨ (remainder text).head? ≠ some 44
  · rw [scanSeekto_none clean stops broken, scanSeekto_none clean stops broken]
  · rw [not_or, not_not] at broken
    obtain ⟨first, comma⟩ := broken
    obtain ⟨u, comma⟩ := List.head?_eq_some_iff.mp comma
    rw [comma] at second
    rw [scanSeekto_second clean first comma, scanSeekto_second clean first comma]
    have offset : ∀ t : List UInt8, (scanUnsigned (u ++ t)).map Prod.fst =
        if remainder u = [] then some (-1) else (scanUnsigned u).map Prod.fst := by
      intro t
      split
      · rename_i opens
        apply scanUnsigned_pinned opens
        by_contra loose
        exact second ⟨first, rfl, opens, loose⟩
      · rename_i ends
        rw [scanUnsigned_append ends, Option.map_map]
        rfl
    have through : ∀ found : Option (UInt32 × List UInt8), (found.map fun offset =>
        (⟨unsignedValue (negative text) (digits text), offset.1⟩ : Seekto)) =
          (found.map Prod.fst).map fun offset => ⟨unsignedValue (negative text) (digits text), offset⟩ := by
      intro found
      rw [Option.map_map]
      rfl
    rw [through, through, offset, offset]

/-- The byte after an unfinished command decides what it asks for. -/
theorem scanSeekto_unfinished (clean : 0 ∉ text) (unfinished : Unfinished text) : ∃ d d' : UInt8,
    ∀ t, scanSeekto (text ++ d :: 44 :: 53 :: 0 :: t) ≠ scanSeekto (text ++ d' :: 44 :: 53 :: 0 :: t) := by
  have string : ∀ (d : UInt8) (t : List UInt8), d ≠ 0 → cString (d :: 44 :: 53 :: 0 :: t) = d :: 44 :: [53] := by
    intro d t byte
    simp [cString, byte]
  rcases unfinished with opens | ⟨first, comma, opens, loose⟩
  · refine ⟨122, 48, ?_⟩
    intro t
    have letter : scanSeekto (text ++ 122 :: 44 :: 53 :: 0 :: t) = none := by
      unfold scanSeekto
      rw [cString_append clean, string 122 t (by decide), scanUnsigned_closed opens]
      by_cases number : atDigits text = []
      · rw [if_pos number]
      · rw [if_neg number]
        rfl
    have digit : scanSeekto (text ++ 48 :: 44 :: 53 :: 0 :: t) ≠ none := by
      unfold scanSeekto
      rw [cString_append clean, string 48 t (by decide), scanUnsigned_open opens (by decide)]
      simp [show scanUnsigned [53] = some (5, []) by decide]
    rw [letter]
    exact digit.symm
  · obtain ⟨u, comma⟩ := List.head?_eq_some_iff.mp comma
    rw [comma, List.tail_cons] at opens loose
    have number : ∀ (d : UInt8) (t : List UInt8), isDigit d = true →
        scanSeekto (text ++ d :: 44 :: 53 :: 0 :: t) =
          some ⟨unsignedValue (negative text) (digits text), unsignedValue (negative u) (atDigits u ++ [d])⟩ := by
      intro d t digit
      rw [scanSeekto_second clean first comma, string d t (isDigit_apart digit).2.2.2, scanUnsigned_open opens digit]
      rfl
    by_cases room : 2 ^ 64 ≤ 10 * digitsValue (atDigits u)
    · refine ⟨122, 48, ?_⟩
      intro t
      have ones : unsignedValue (negative u) (atDigits u ++ [48]) = -1 :=
        unsignedValue_overflow _ room (List.cons_ne_nil 48 [])
      rw [number 48 t (by decide), ones, scanSeekto_second clean first comma, string 122 t (by decide),
        scanUnsigned_closed opens]
      split
      · simp
      · intro same
        apply loose
        refine ⟨room, ?_⟩
        simpa using same
    · refine ⟨48, 49, ?_⟩
      intro t
      rw [number 48 t (by decide), number 49 t (by decide)]
      intro same
      apply unsignedValue_apart (negative u) room
      simpa using same

/-! ### What the buffer adds -/

theorem recvInto_append {before chunk : List UInt8} (behind : List UInt8) :
    recvInto before chunk ++ behind = chunk ++ (before.drop chunk.length ++ behind) := by
  unfold recvInto
  rw [List.append_assoc]

/-- Any memory that starts with the chunk can be there. -/
theorem recvInto_fill (chunk fill behind : List UInt8) (fits : chunk.length ≤ 1024)
    (rest : fill.length = 1024 - chunk.length) :
    ∃ before : List UInt8, before.length = 1024 ∧
      recvInto before chunk ++ behind = chunk ++ (fill ++ behind) := by
  refine ⟨List.replicate chunk.length 0 ++ fill, ?_, ?_⟩
  · rw [List.length_append, List.length_replicate]
    omega
  · rw [recvInto_append, List.drop_left' (by simp)]

/-- Two bytes after a chunk that leaves room, with the same bytes following. -/
theorem recvInto_two (chunk : List UInt8) (room : chunk.length < 1024) (d d' : UInt8) (after : List UInt8) :
    ∃ before other behind t : List UInt8, before.length = 1024 ∧ other.length = 1024 ∧
      recvInto before chunk ++ behind = chunk ++ d :: (after ++ t) ∧
      recvInto other chunk ++ behind = chunk ++ d' :: (after ++ t) := by
  let whole := after ++ List.replicate 1024 0
  have fits : (whole.take (1023 - chunk.length)).length = 1023 - chunk.length := by
    rw [List.length_take, List.length_append, List.length_replicate]
    omega
  have fill : ∀ c : UInt8, ∃ before : List UInt8, before.length = 1024 ∧
      recvInto before chunk ++ whole.drop (1023 - chunk.length) = chunk ++ c :: whole := by
    intro c
    obtain ⟨before, size, memory⟩ := recvInto_fill chunk (c :: whole.take (1023 - chunk.length))
      (whole.drop (1023 - chunk.length)) (Nat.le_of_lt room) (by rw [List.length_cons, fits]; omega)
    refine ⟨before, size, ?_⟩
    rw [memory, List.cons_append, List.take_append_drop]
  obtain ⟨before, size, memory⟩ := fill d
  obtain ⟨other, size', memory'⟩ := fill d'
  exact ⟨before, other, whole.drop (1023 - chunk.length), List.replicate 1024 0, size, size', memory, memory'⟩

theorem isSeek_own {chunk : List UInt8} (whole : ¬ (chunk.length < 19 ∧ chunk <+: seekPrefix)) (t : List UInt8) :
    isSeek (chunk ++ t) = true ↔ seekPrefix <+: chunk := by
  rw [isSeek_iff]
  constructor
  · intro begins
    rcases List.prefix_or_prefix_of_prefix begins (List.prefix_append chunk t) with inside | short
    · exact inside
    · have long : seekPrefix.length ≤ chunk.length := by
        by_contra less
        exact whole ⟨by simpa [seekPrefix] using less, short⟩
      rw [short.eq_of_length_le long]
  · intro inside
    exact inside.trans (List.prefix_append chunk t)

/-- The rest of the command word can be there from before. -/
theorem isSeek_borrowed {chunk : List UInt8} (short : chunk.length < 19) (begins : chunk <+: seekPrefix) :
    ∃ before : List UInt8, before.length = 1024 ∧ isSeek (recvInto before chunk) = true ∧ ¬ seekPrefix <+: chunk := by
  obtain ⟨rest, word⟩ := begins
  have nineteen : chunk.length + rest.length = 19 := by
    rw [← List.length_append, word]
    rfl
  obtain ⟨before, size, memory⟩ := recvInto_fill chunk (rest ++ List.replicate 1005 0) []
    (by omega) (by rw [List.length_append, List.length_replicate]; omega)
  rw [List.append_nil, List.append_nil] at memory
  refine ⟨before, size, ?_, ?_⟩
  · rw [isSeek_iff, memory, ← List.append_assoc, word]
    exact List.prefix_append _ _
  · intro inside
    have long := inside.length_le
    have nineteen' : seekPrefix.length = 19 := rfl
    omega

theorem drop_word (text : List UInt8) : (seekPrefix ++ text).drop 19 = text := rfl

theorem meaning_command (text t : List UInt8) :
    meaning (seekPrefix ++ text ++ t) = some (scanSeekto (text ++ t)) := by
  have seek : isSeek (seekPrefix ++ text ++ t) = true := by
    rw [isSeek_iff, List.append_assoc]
    exact List.prefix_append _ _
  unfold meaning
  rw [if_pos seek, List.append_assoc, drop_word]

theorem meaning_data {chunk : List UInt8} (whole : ¬ (chunk.length < 19 ∧ chunk <+: seekPrefix))
    (data : ¬ seekPrefix <+: chunk) (t : List UInt8) : meaning (chunk ++ t) = none := by
  unfold meaning
  rw [if_neg]
  intro seek
  exact data ((isSeek_own whole t).mp seek)

theorem scanSeekto_own {text : List UInt8} (stops : 0 ∈ text ∨ ¬ Unfinished text) (t t' : List UInt8) :
    scanSeekto (text ++ t) = scanSeekto (text ++ t') := by
  by_cases ends : 0 ∈ text
  · unfold scanSeekto
    rw [cString_stops ends, cString_stops ends]
  · exact scanSeekto_finished ends (stops.resolve_left ends) t t'

/-! ### The session -/

/-- What the session takes the chunk for is the meaning of its buffer. -/
theorem Client.pass_commands {W E : Type} (file : DataFile W E) (c : Client) (w : W) (chunk : Chunk) {env : Pass E}
    (opened : env.openFails = false) :
    (c.pass file w chunk env).1.commands =
      c.commands ++ (meaning (recvInto c.buffer chunk.bytes)).toList := by
  unfold meaning
  rcases Client.pass_cases file c w chunk env with
    ⟨fails, _⟩ | ⟨_, ⟨seek, pc, _, same⟩ | ⟨data, same | ⟨pc, _, same⟩⟩⟩
  · rw [opened] at fails
    cases fails
  · simp [same, seek, Effect.commands]
  · simp [same, data, Effect.commands]
  · simp [same, data, Effect.commands]

/-- Exactly the self-contained chunks are taken by their own bytes. -/
theorem own_bytes_iff (chunk : Chunk) : OwnBytes chunk ↔ SelfContained chunk.bytes := by
  have fits := chunk.fits
  constructor
  · intro own
    constructor
    · rintro ⟨short, begins⟩
      obtain ⟨before, size, seek, data⟩ := isSeek_borrowed short begins
      apply data
      apply (own before before [] size size).2
      rw [List.append_nil]
      exact seek
    · rintro ⟨text, word⟩
      by_contra loose
      rw [not_or, not_or, not_not, ← word, drop_word] at loose
      obtain ⟨room, clean, unfinished⟩ := loose
      obtain ⟨d, d', apart⟩ := scanSeekto_unfinished clean unfinished
      obtain ⟨before, other, behind, t, size, size', memory, memory'⟩ :=
        recvInto_two chunk.bytes (by rw [word] at room; omega) d d' [44, 53, 0]
      have same := (own before other behind size size').1
      rw [memory, memory', ← word, meaning_command, meaning_command] at same
      exact apart t (Option.some.inj same)
  · rintro ⟨whole, stops⟩ before other behind size size'
    refine ⟨?_, ?_⟩
    · by_cases begins : seekPrefix <+: chunk.bytes
      · rcases stops begins with full | stops
        · have nothing : ∀ b : List UInt8, b.length = 1024 → recvInto b chunk.bytes = chunk.bytes := by
            intro b size
            unfold recvInto
            rw [full, List.drop_eq_nil_of_le (Nat.le_of_eq size), List.append_nil]
          rw [nothing before size, nothing other size']
        · obtain ⟨text, word⟩ := begins
          rw [← word, drop_word] at stops
          rw [recvInto_append, recvInto_append, ← word, meaning_command, meaning_command]
          exact congrArg some (scanSeekto_own stops _ _)
      · rw [recvInto_append, recvInto_append, meaning_data whole begins, meaning_data whole begins]
    · rw [recvInto_append]
      exact (isSeek_own whole _).mp

/-- A seek command without its newline, received over a buffer where the next byte is a digit. -/
theorem cut_command_borrows :
    let chunk : Chunk := ⟨seekPrefix ++ [48, 44, 49], by decide, by decide⟩
    let clear := List.replicate 1024 0
    let used := List.replicate 22 120 ++ 48 :: List.replicate 1001 0
    meaning (recvInto clear chunk.bytes) = some (some ⟨0, 1⟩) ∧
      meaning (recvInto used chunk.bytes) = some (some ⟨0, 10⟩) ∧ ¬ OwnBytes chunk := by
  intro chunk clear used
  have one : meaning (recvInto clear chunk.bytes) = some (some ⟨0, 1⟩) := by decide +kernel
  have ten : meaning (recvInto used chunk.bytes) = some (some ⟨0, 10⟩) := by decide +kernel
  refine ⟨one, ten, ?_⟩
  intro own
  have same := (own clear used [] (by decide +kernel) (by decide +kernel)).1
  rw [List.append_nil, List.append_nil, one, ten] at same
  exact absurd same (by decide)

end Aesd
