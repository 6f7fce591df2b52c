set_option autoImplicit false

/-!
# Hexadecimal text

Numbers and byte strings are shown in base sixteen with lower-case digits.  A
number has two written forms: the shortest one (`digits`, where zero is a single
`0`) and one filled up with zeros on the left (`padded`), which is never cut when
the number needs more room.  A byte has exactly two digits.

Beside each writer stands a reader, and each reader gives back what its writer
was given (`value?_digits`, `bytes?_bytes`).  Readers take capital letters too.
-/

namespace EvmPrep.Hex

/-! ## Digits -/

/-- The value of one digit. -/
def digitValue? (c : Char) : Option Nat :=
  if '0' ≤ c ∧ c ≤ '9' then some (c.toNat - '0'.toNat)
  else if 'a' ≤ c ∧ c ≤ 'f' then some (c.toNat - 'a'.toNat + 10)
  else if 'A' ≤ c ∧ c ≤ 'F' then some (c.toNat - 'A'.toNat + 10)
  else none

theorem digitValue?_digitChar {n : Nat} (h : n < 16) : digitValue? n.digitChar = some n := by
  have all : ∀ k : Fin 16, digitValue? (Nat.digitChar k.val) = some k.val := by decide
  exact all ⟨n, h⟩

/-! ## Numbers -/

/-- The digits of `n`, most significant first, with no superfluous zero. -/
def digits (n : Nat) : List Char := Nat.toDigits 16 n

/-- `digits n` after as many zeros as it takes to fill `width` columns. -/
def padded (width n : Nat) : List Char := (digits n).leftpad width '0'

/-- One more digit `c` behind a number read so far. -/
def readDigit (n : Nat) (c : Char) : Option Nat := (digitValue? c).map (16 * n + ·)

/-- The number written by `cs`; the empty text writes none. -/
def value? (cs : List Char) : Option Nat :=
  if cs.isEmpty then none else cs.foldlM readDigit 0

theorem digits_of_lt {n : Nat} (h : n < 16) : digits n = [n.digitChar] :=
  Nat.toDigits_of_lt_base h

theorem digits_of_le {n : Nat} (h : 16 ≤ n) :
    digits n = digits (n / 16) ++ [(n % 16).digitChar] :=
  Nat.toDigits_of_base_le (by decide) h

theorem digits_ne_nil (n : Nat) : digits n ≠ [] := Nat.toDigits_ne_nil

theorem foldlM_readDigit_digits (n : Nat) : (digits n).foldlM readDigit 0 = some n := by
  induction n using Nat.strongRecOn with
  | ind n ih =>
    rcases Nat.lt_or_ge n 16 with h | h
    · simp [digits_of_lt h, readDigit, digitValue?_digitChar h]
    · rw [digits_of_le h, List.foldlM_append, ih (n / 16) (by omega)]
      simp only [Option.bind_eq_bind, Option.bind_some, List.foldlM_cons, List.foldlM_nil,
        readDigit, digitValue?_digitChar (Nat.mod_lt n (by decide : 16 > 0)), Option.map_some]
      simp only [Option.pure_def, Option.some.injEq]
      omega

/-- A number's shortest text reads back as the number. -/
theorem value?_digits (n : Nat) : value? (digits n) = some n := by
  simp [value?, digits_ne_nil, foldlM_readDigit_digits]

/-! ## Byte strings -/

/-- The two digits of a byte. -/
def byte (b : UInt8) : List Char := [(b.toNat / 16).digitChar, (b.toNat % 16).digitChar]

/-- The digits of a byte string, two for each byte and nothing between them. -/
def bytes (bs : List UInt8) : List Char := bs.flatMap byte

/-- The bytes written by `cs`, behind those read so far, which are held in reverse. -/
def bytesOnto? (read : List UInt8) : List Char → Option (List UInt8)
  | [] => some read.reverse
  | [_] => none
  | hi :: lo :: rest =>
    match digitValue? hi, digitValue? lo with
    | some h, some l => bytesOnto? (UInt8.ofNat (16 * h + l) :: read) rest
    | _, _ => none

/-- The byte string written by `cs`; an odd number of digits writes none. -/
def bytes? (cs : List Char) : Option (List UInt8) := bytesOnto? [] cs

theorem bytesOnto?_bytes (bs read : List UInt8) :
    bytesOnto? read (bytes bs) = some (read.reverse ++ bs) := by
  induction bs generalizing read with
  | nil => simp [bytes, bytesOnto?]
  | cons b rest ih =>
    have hb : b.toNat < 256 := b.toNat_lt_size
    have whole : UInt8.ofNat (16 * (b.toNat / 16) + b.toNat % 16) = b := by
      rw [Nat.div_add_mod]; exact UInt8.ofNat_toNat
    show bytesOnto? read (_ :: _ :: bytes rest) = _
    simp only [bytesOnto?, digitValue?_digitChar (show b.toNat / 16 < 16 by omega),
      digitValue?_digitChar (show b.toNat % 16 < 16 by omega), whole, ih]
    simp

/-- A byte string's text reads back as the byte string. -/
theorem bytes?_bytes (bs : List UInt8) : bytes? (bytes bs) = some bs := by
  simpa [bytes?] using bytesOnto?_bytes bs []

theorem byte_eq_padded (b : UInt8) : byte b = padded 2 b.toNat := by
  have hb : b.toNat < 256 := b.toNat_lt_size
  rcases Nat.lt_or_ge b.toNat 16 with h | h
  · have hz : b.toNat / 16 = 0 := by omega
    have hm : b.toNat % 16 = b.toNat := by omega
    simp [byte, padded, digits_of_lt h, List.leftpad, hz, hm, Nat.digitChar]
  · have hd : b.toNat / 16 < 16 := by omega
    simp [byte, padded, digits_of_le h, digits_of_lt hd, List.leftpad]

end EvmPrep.Hex
