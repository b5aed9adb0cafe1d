import Aesd.Server.Meaning

/-!
# The grammar of a seek command

The word is followed by two decimal numbers of 32 bits, with a comma between
them and a newline behind. `sscanf` takes more than that.
-/

namespace Aesd
open Library

structure Digits (text : List UInt8) : Prop where
  nonempty : text ≠ []
  each : ∀ d ∈ text, isDigit d = true

/-- A decimal number that the field holds. -/
structure Decimal (text : List UInt8) (value : UInt32) : Prop where
  digits : Digits text
  denotes : digitsValue text = value.toNat

/-- The text of a seek command. -/
def Plain (text : List UInt8) (seekto : Seekto) : Prop :=
  ∃ x y, text = x ++ 44 :: y ∧ Decimal x seekto.writeCmd ∧ Decimal y seekto.writeCmdOffset

/-- What `%u` takes: white space, a sign, digits of any value. -/
structure Numeral (space sign number text : List UInt8) : Prop where
  split : text = space ++ (sign ++ number)
  white : ∀ c ∈ space, isSpace c = true
  signs : sign = [] ∨ sign = [43] ∨ sign = [45]
  digits : Digits number

def IsNumeral (text : List UInt8) : Prop := ∃ space sign number, Numeral space sign number text

/-- Memory that begins with what `%u,%u` takes. -/
def Loose (memory : List UInt8) : Prop := ∃ x y, IsNumeral x ∧ IsNumeral y ∧ x ++ 44 :: y <+: memory

def Effect.ioctls : Effect → List Seekto
  | command (some seekto) => [seekto]
  | _ => []

def Client.ioctls (c : Client) : List Seekto := c.log.flatMap Effect.ioctls

/-- With this chunk a session issues an `ioctl` for a command of the grammar, with its numbers, and for nothing
else. -/
def ExactCommand {W E : Type} (file : DataFile W E) (c : Client) (w : W) (chunk : Chunk) (env : Pass E)
    (text : List UInt8) : Prop :=
  ∀ seekto, (c.pass file w chunk env).1.ioctls = c.ioctls ++ [seekto] ↔ Plain text seekto

variable {space sign number text rest behind memory : List UInt8} {value : UInt32} {seekto : Seekto}

/-! ### One number -/

theorem digits_append (digits : Digits number) (rest : List UInt8) :
    (number ++ rest).takeWhile isDigit = number ++ rest.takeWhile isDigit ∧
      (number ++ rest).dropWhile isDigit = rest.dropWhile isDigit :=
  ⟨List.takeWhile_append_of_pos digits.each, List.dropWhile_append_of_pos digits.each⟩

theorem Numeral.atDigits (numeral : Numeral space sign number text) (rest : List UInt8) :
    atDigits (text ++ rest) = number ++ rest ∧ negative (text ++ rest) = decide (sign = [45]) := by
  obtain ⟨d, more, rfl⟩ := List.exists_cons_of_ne_nil numeral.digits.nonempty
  obtain ⟨space', minus, plus, _⟩ := isDigit_apart (numeral.digits.each d List.mem_cons_self)
  have dropped : (text ++ rest).dropWhile isSpace = sign ++ d :: (more ++ rest) := by
    rw [numeral.split, List.append_assoc, List.dropWhile_append_of_pos numeral.white, List.append_assoc,
      List.cons_append]
    rcases numeral.signs with rfl | rfl | rfl
    · exact List.dropWhile_cons_of_neg (by simp [space'])
    · exact List.dropWhile_cons_of_neg (by decide)
    · exact List.dropWhile_cons_of_neg (by decide)
  unfold Aesd.atDigits negative
  rw [dropped]
  rcases numeral.signs with rfl | rfl | rfl <;> simp [minus, plus]

/-- `%u` reads a numeral, the digits that follow it and nothing more. -/
theorem Numeral.scan (numeral : Numeral space sign number text) (rest : List UInt8) :
    scanUnsigned (text ++ rest) =
      some (unsignedValue (decide (sign = [45])) (number ++ rest.takeWhile isDigit), rest.dropWhile isDigit) := by
  obtain ⟨at', sign'⟩ := numeral.atDigits rest
  obtain ⟨read, left⟩ := digits_append numeral.digits rest
  rw [scanUnsigned_eq, Aesd.digits, remainder, at', read, left, sign', if_neg]
  intro none'
  exact numeral.digits.nonempty (List.append_eq_nil_iff.mp none').1

theorem sign_split (text : List UInt8) :
    ∃ sign, (sign = [] ∨ sign = [43] ∨ sign = [45]) ∧ text.dropWhile isSpace = sign ++ atDigits text := by
  unfold atDigits
  cases dropped : text.dropWhile isSpace with
  | nil => exact ⟨[], Or.inl rfl, rfl⟩
  | cons c more =>
    by_cases minus : c = 45
    · exact ⟨[45], Or.inr (Or.inr rfl), by simp [minus]⟩
    · by_cases plus : c = 43
      · exact ⟨[43], Or.inr (Or.inl rfl), by simp [plus]⟩
      · exact ⟨[], Or.inl rfl, by simp [minus, plus]⟩

/-- What `%u` has read is a numeral. -/
theorem scanUnsigned_sound (found : scanUnsigned text = some (value, rest)) :
    ∃ taken, IsNumeral taken ∧ text = taken ++ rest := by
  rw [scanUnsigned_eq] at found
  split at found
  · cases found
  · rename_i some'
    obtain ⟨_, rfl⟩ := Prod.mk.inj (Option.some.inj found)
    obtain ⟨sign, signs, split⟩ := sign_split text
    have number : Digits (digits text) := ⟨some', fun d inside => List.mem_takeWhile_imp inside⟩
    refine ⟨text.takeWhile isSpace ++ (sign ++ digits text),
      ⟨_, _, _, rfl, fun c inside => List.mem_takeWhile_imp inside, signs, number⟩, ?_⟩
    calc text = text.takeWhile isSpace ++ (sign ++ atDigits text) := by rw [← split, List.takeWhile_append_dropWhile]
      _ = text.takeWhile isSpace ++ (sign ++ (digits text ++ remainder text)) := by
        rw [digits, remainder, List.takeWhile_append_dropWhile]
      _ = _ := by rw [List.append_assoc, List.append_assoc]

/-! ### A command -/

theorem IsNumeral.clean (numeral : IsNumeral text) : 0 ∉ text := by
  obtain ⟨space, sign, number, rfl, white, signs, digits⟩ := numeral
  rw [List.mem_append, List.mem_append, not_or, not_or]
  refine ⟨?_, ?_, ?_⟩
  · intro inside
    exact absurd (white 0 inside) (by decide)
  · rcases signs with rfl | rfl | rfl <;> decide
  · intro inside
    exact absurd (digits.each 0 inside) (by decide)

theorem Decimal.numeral (decimal : Decimal text value) : Numeral [] [] text text :=
  ⟨rfl, by simp, Or.inl rfl, decimal.digits⟩

/-- `sscanf` finds two numbers in memory that begins so, and in no other. -/
theorem scanSeekto_loose : (∃ seekto, scanSeekto memory = some seekto) ↔ Loose memory := by
  constructor
  · rintro ⟨seekto, found⟩
    unfold scanSeekto at found
    split at found
    · cases found
    · rename_i writeCmd rest first
      split at found
      · rename_i comma
        obtain ⟨u, rfl⟩ := List.head?_eq_some_iff.mp comma
        obtain ⟨offset, second, _⟩ := Option.map_eq_some_iff.mp found
        obtain ⟨x, numeral, split⟩ := scanUnsigned_sound first
        obtain ⟨y, numeral', rfl⟩ := scanUnsigned_sound second
        refine ⟨x, y, numeral, numeral', ?_⟩
        have string : cString memory <+: memory := List.takeWhile_prefix _
        rw [split] at string
        exact List.IsPrefix.trans ⟨offset.2, by simp⟩ string
      · cases found
  · rintro ⟨x, y, first, second, behind, rfl⟩
    have clean : 0 ∉ x ++ 44 :: y := by
      simp [first.clean, second.clean]
    obtain ⟨_, _, _, first⟩ := first
    obtain ⟨_, _, _, second⟩ := second
    unfold scanSeekto
    rw [cString_append clean, List.append_assoc, List.cons_append, first.scan]
    simp [second.scan, show isDigit 44 = false by decide]

theorem Decimal.unsigned (decimal : Decimal text value) : unsignedValue false text = value := by
  have fits := value.toNat_lt
  unfold unsignedValue
  rw [decimal.denotes, if_neg (by omega)]
  exact UInt32.ofNat_toNat

theorem Decimal.scan (decimal : Decimal text value) {d : UInt8} (ends : isDigit d = false) (rest : List UInt8) :
    scanUnsigned (text ++ d :: rest) = some (value, d :: rest) := by
  rw [decimal.numeral.scan, List.takeWhile_cons_of_neg (by simp [ends]), List.dropWhile_cons_of_neg (by simp [ends]),
    List.append_nil]
  simp [decimal.unsigned]

/-- A command of the grammar is read with its numbers, whatever lies behind the newline. -/
theorem Plain.scan (plain : Plain text seekto) (behind : List UInt8) :
    scanSeekto (text ++ newline :: behind) = some seekto := by
  obtain ⟨x, y, rfl, first, second⟩ := plain
  have clean : 0 ∉ x ++ 44 :: y := by
    simp [IsNumeral.clean ⟨_, _, _, first.numeral⟩, IsNumeral.clean ⟨_, _, _, second.numeral⟩]
  have string : cString (newline :: behind) = newline :: cString behind := rfl
  unfold scanSeekto
  rw [cString_append clean, string, List.append_assoc, List.cons_append, first.scan (by decide)]
  simp [second.scan (show isDigit newline = false by decide)]

theorem Plain.first (plain : Plain text seekto) :
    digitsValue (text.takeWhile isDigit) = seekto.writeCmd.toNat := by
  obtain ⟨x, y, rfl, first, _⟩ := plain
  have comma : (44 :: y).takeWhile isDigit = [] := List.takeWhile_cons_of_neg (by decide)
  rw [(digits_append first.digits _).1, comma, List.append_nil, first.denotes]

/-! ### The session -/

theorem Client.ioctls_eq (c : Client) : c.ioctls = c.commands.filterMap id := by
  unfold Client.ioctls Client.commands
  rw [List.filterMap_flatMap]
  congr 1
  funext e
  cases e with
  | command parsed => cases parsed <;> rfl
  | _ => rfl

theorem Client.pass_ioctls {W E : Type} (file : DataFile W E) (c : Client) (w : W) {chunk : Chunk} (env : Pass E)
    (word : chunk.bytes = seekPrefix ++ text) : (c.pass file w chunk env).1.ioctls =
      c.ioctls ++ if env.openFails then [] else (scanSeekto (text ++ c.buffer.drop chunk.bytes.length)).toList := by
  cases opens : env.openFails with
  | true =>
    rw [Client.pass_unopened file c w chunk opens]
    simp [Client.ioctls, Effect.ioctls]
  | false =>
    have memory : recvInto c.buffer chunk.bytes = seekPrefix ++ text ++ c.buffer.drop chunk.bytes.length := by
      rw [recvInto, word]
    rw [Client.ioctls_eq, Client.ioctls_eq, Client.pass_commands file c w chunk opens, memory, meaning_command,
      List.filterMap_append]
    cases scanSeekto (text ++ c.buffer.drop chunk.bytes.length) <;> rfl

/-- It is exact unless the data file does not open for a command, or `sscanf` takes what is not one. -/
theorem exact_command_iff {W E : Type} (file : DataFile W E) (c : Client) (w : W) (chunk : Chunk) (env : Pass E)
    (text : List UInt8) (line : chunk.bytes = seekPrefix ++ (text ++ [newline])) :
    ExactCommand file c w chunk env text ↔
      ((∃ seekto, Plain text seekto) → env.openFails = false) ∧
      (Loose (text ++ newline :: c.buffer.drop chunk.bytes.length) →
        env.openFails = true ∨ ∃ seekto, Plain text seekto) := by
  have issued := Client.pass_ioctls file c w env line
  rw [List.append_assoc, List.singleton_append] at issued
  unfold ExactCommand
  rw [issued]
  simp only [List.append_cancel_left_eq]
  cases env.openFails with
  | true => simp
  | false =>
    simp only [Bool.false_eq_true, if_false, false_or, implies_true, true_and, Option.toList_eq_singleton_iff]
    constructor
    · intro exact' loose
      obtain ⟨seekto, found⟩ := scanSeekto_loose.mpr loose
      exact ⟨seekto, (exact' seekto).mp found⟩
    · intro narrow seekto
      constructor
      · intro found
        obtain ⟨other, plain⟩ := narrow (scanSeekto_loose.mp ⟨seekto, found⟩)
        rw [plain.scan] at found
        rwa [← Option.some.inj found]
      · intro plain
        exact plain.scan _

theorem seek_one_two_exact :
    let text : List UInt8 := [49, 44, 50]
    let chunk : Chunk := ⟨seekPrefix ++ (text ++ [newline]), by decide, by decide⟩
    ExactCommand device { buffer := List.replicate 1024 0 } Driver.init chunk { call := {}, seek := {} } text := by
  intro text chunk
  have one : Decimal [49] 1 := ⟨⟨List.cons_ne_nil 49 [], List.forall_mem_singleton.mpr rfl⟩, rfl⟩
  have two : Decimal [50] 2 := ⟨⟨List.cons_ne_nil 50 [], List.forall_mem_singleton.mpr rfl⟩, rfl⟩
  have plain : Plain text ⟨1, 2⟩ := ⟨[49], [50], rfl, one, two⟩
  exact (exact_command_iff device _ _ chunk _ text rfl).mpr ⟨fun _ => rfl, fun _ => Or.inr ⟨_, plain⟩⟩

/-- The command for the record 4294967296 is carried out for the record 0. -/
theorem number_taken_modulo :
    ¬ ∀ (c : Client) (s : Driver) (chunk : Chunk) (env : Pass CallEnv) (text : List UInt8),
      chunk.bytes = seekPrefix ++ (text ++ [newline]) → newline ∉ text → ExactCommand device c s chunk env text := by
  intro exact'
  let text : List UInt8 := [52, 50, 57, 52, 57, 54, 55, 50, 57, 54, 44, 48]
  let chunk : Chunk := ⟨seekPrefix ++ (text ++ [newline]), by decide, by decide⟩
  let c : Client := { buffer := List.replicate 1024 0 }
  let env : Pass CallEnv := { call := {}, seek := {} }
  have issued : (c.pass device Driver.init chunk env).1.ioctls = c.ioctls ++ [⟨0, 0⟩] := by decide +kernel
  have first := ((exact' c Driver.init chunk env text rfl (by decide) ⟨0, 0⟩).mp issued).first
  revert first
  decide +kernel

end Aesd
