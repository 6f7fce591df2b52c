import EvmPrep.Hex
set_option autoImplicit false

/-!
# Machine words

A word is a number of 256 bits.  A program spells words out as byte strings, most
significant byte first, and a byte string of more than 32 bytes spells none
(`Word.ofBytes?`).  `bytesOfNat n` writes the `n` low bytes of a number and is the
inverse of reading them (`bytesOfNat_natOfBytes`).

A word names a place in a program only if it fits in 64 bits (`Word.toOffset?`): a
larger word is never cut down to its low bits.
-/

namespace EvmPrep

/-! ## Big-endian byte strings -/

/-- The number whose base-256 digits are the given bytes, most significant first. -/
def natOfBytes : List UInt8 → Nat
  | [] => 0
  | b :: rest => b.toNat * Nat.pow 256 rest.length + natOfBytes rest

/-- The `n` least significant base-256 digits of `v`, most significant first. -/
def bytesOfNat : Nat → Nat → List UInt8
  | 0, _ => []
  | n + 1, v => UInt8.ofNat (v / Nat.pow 256 n) :: bytesOfNat n v

theorem natOfBytes_lt (bs : List UInt8) : natOfBytes bs < Nat.pow 256 bs.length := by
  induction bs with
  | nil => decide
  | cons b rest ih =>
    have hb : b.toNat + 1 ≤ 256 := b.toNat_lt_size
    calc natOfBytes (b :: rest)
        < b.toNat * Nat.pow 256 rest.length + Nat.pow 256 rest.length := Nat.add_lt_add_left ih _
      _ = (b.toNat + 1) * Nat.pow 256 rest.length := by rw [Nat.succ_mul]
      _ ≤ 256 * Nat.pow 256 rest.length := Nat.mul_le_mul_right _ hb
      _ = Nat.pow 256 (b :: rest).length := Nat.mul_comm ..

theorem natOfBytes_append (bs cs : List UInt8) :
    natOfBytes (bs ++ cs) = natOfBytes bs * Nat.pow 256 cs.length + natOfBytes cs := by
  induction bs with
  | nil => simp [natOfBytes]
  | cons b rest ih =>
    have hpow : Nat.pow 256 (rest ++ cs).length
        = Nat.pow 256 rest.length * Nat.pow 256 cs.length := by
      rw [List.length_append]
      exact Nat.pow_add ..
    simp only [List.cons_append, natOfBytes, ih, hpow, Nat.add_mul, Nat.mul_assoc, Nat.add_assoc]

/-- Digits beyond the `n`-th do not show in the `n` low bytes. -/
theorem bytesOfNat_add_mul (n v k : Nat) :
    bytesOfNat n (k * Nat.pow 256 n + v) = bytesOfNat n v := by
  induction n generalizing k with
  | zero => rfl
  | succ n ih =>
    have hpos : 0 < Nat.pow 256 n := Nat.pow_pos (by decide)
    have shift : k * Nat.pow 256 (n + 1) + v = (k * 256) * Nat.pow 256 n + v := by
      rw [Nat.mul_assoc, Nat.mul_comm 256]
      rfl
    have top : (k * Nat.pow 256 (n + 1) + v) / Nat.pow 256 n
        = k * 256 + v / Nat.pow 256 n := by
      rw [shift, Nat.add_comm, Nat.add_mul_div_right _ _ hpos, Nat.add_comm]
    have low : UInt8.ofNat (k * 256 + v / Nat.pow 256 n)
        = UInt8.ofNat (v / Nat.pow 256 n) := by
      apply UInt8.toNat_inj.mp
      simp only [UInt8.toNat_ofNat']
      omega
    rw [bytesOfNat, bytesOfNat, top, low, shift, ih]

/-- A byte string is recovered from its length and its number. -/
theorem bytesOfNat_natOfBytes (bs : List UInt8) : bytesOfNat bs.length (natOfBytes bs) = bs := by
  induction bs with
  | nil => rfl
  | cons b rest ih =>
    have hpos : 0 < Nat.pow 256 rest.length := Nat.pow_pos (by decide)
    have top : natOfBytes (b :: rest) / Nat.pow 256 rest.length = b.toNat := by
      rw [natOfBytes, Nat.add_comm, Nat.add_mul_div_right _ _ hpos,
        Nat.div_eq_of_lt (natOfBytes_lt rest), Nat.zero_add]
    rw [List.length_cons, bytesOfNat, top, UInt8.ofNat_toNat, natOfBytes, bytesOfNat_add_mul, ih]

/-! ## Words -/

/-- A 256-bit number. -/
abbrev Word : Type := BitVec 256

namespace Word

/-- The longest byte string that spells a word. -/
def maxBytes : Nat := 32

/-- The word spelled by `bs`, unless it is too long for one; the empty byte string spells zero. -/
def ofBytes? (bs : List UInt8) : Option Word :=
  if bs.length ≤ maxBytes then some (BitVec.ofNat 256 (natOfBytes bs)) else none

/-- The place in a program that `w` names, if it can name one. -/
def toOffset? (w : Word) : Option Nat :=
  if w.toNat < UInt64.size then some w.toNat else none

/-- The written form: a mark for base sixteen and the shortest digits. -/
def text (w : Word) : String := "0x" ++ String.ofList (Hex.digits w.toNat)

/-- Reads the written form; numbers of more than 256 bits write no word. -/
def ofText? (s : String) : Option Word :=
  match s.toList with
  | '0' :: 'x' :: cs =>
    match Hex.value? cs with
    | some n => if (BitVec.ofNat 256 n).toNat = n then some (BitVec.ofNat 256 n) else none
    | none => none
  | _ => none

theorem toNat_of_ofBytes? {bs : List UInt8} {w : Word} (h : ofBytes? bs = some w) :
    w.toNat = natOfBytes bs := by
  unfold ofBytes? at h
  split at h
  · rename_i hlen
    cases h
    exact Nat.mod_eq_of_lt (Nat.lt_of_lt_of_le (natOfBytes_lt bs)
      (Nat.pow_le_pow_right (by decide) hlen))
  · cases h

theorem toOffset?_eq_some_iff {w : Word} {n : Nat} :
    w.toOffset? = some n ↔ w.toNat = n ∧ n < UInt64.size := by
  unfold toOffset?
  split
  · constructor
    · intro h; cases h; exact ⟨rfl, by assumption⟩
    · rintro ⟨rfl, -⟩; rfl
  · constructor
    · intro h; cases h
    · rintro ⟨rfl, h⟩; exact absurd h (by assumption)

/-- A word's text reads back as the word. -/
theorem ofText?_text (w : Word) : ofText? w.text = some w := by
  have h : w.text.toList = '0' :: 'x' :: Hex.digits w.toNat := by
    simp [text, String.toList_append]
  simp [ofText?, h, Hex.value?_digits]

theorem text_injective {v w : Word} (h : v.text = w.text) : v = w := by
  simpa [ofText?_text] using congrArg ofText? h

end Word

end EvmPrep
