import Chfs.Block.Usize

namespace Chfs.Block.BitmapSearch

open Lib.Bytes Allocator Usize

variable {data : List UInt8} {bits i j k : ℕ}

def check (data : List UInt8) (index : ℕ) : Option Bool :=
  if index < totalBits data.length then some (Bitmap.check data index) else none

def checkBits (data : List UInt8) : ℕ → ℕ → Option (Option ℕ)
  | 0, _ => some none
  | k + 1, index => do
    if ← check data index then checkBits data k (index + 1) else some (some index)

def checkWords (data : List UInt8) : ℕ → ℕ → Option (Option ℕ)
  | 0, _ => some none
  | k + 1, i =>
    if getField data (8 * i) 8 ≠ 2 ^ 64 - 1 then do
      match ← checkBits data 64 (64 * i) with
      | some bitIndex => some (some bitIndex)
      | none => checkWords data k (i + 1)
    else checkWords data k (i + 1)

def findFirstFreeWBound (data : List UInt8) (bits : ℕ) : Option (Option ℕ) := do
  let refinedBits := min (totalBits data.length) bits
  let numWords := refinedBits / 64
  match ← checkWords data numWords 0 with
  | some bitIndex => some (some bitIndex)
  -- the remaining bits are those of the bound that was not clamped
  | none => checkBits data (bits % 64) (numWords * 64)

/-- The bit-wise definition: the smallest clear bit below the bound and inside the payload. -/
def firstClear (data : List UInt8) (bits : ℕ) : Option ℕ :=
  (List.range (min bits (data.length * bitsPerByte))).find? fun i => !Bitmap.check data i

/-- Where the bits from the last whole word on are those below the bound, or do not matter. -/
def Settled (data : List UInt8) (bits : ℕ) : Prop :=
  let total := totalBits data.length
  bits ≤ total ∨
  (∃ i < total / 64 * 64 + min (bits % 64) (total % 64), Bitmap.check data i = false) ∨
  (bits % 64 ≤ total % 64 ∧ ∀ i < min bits (data.length * bitsPerByte), Bitmap.check data i = true)

theorem check_of (h : i < totalBits data.length) : check data i = some (Bitmap.check data i) := if_pos h

theorem checkBits_eq (h : i + k ≤ totalBits data.length) :
    checkBits data k i = some (Bitmap.findBit data k i) := by
  induction k generalizing i with
  | zero => rfl
  | succ k ih =>
    rw [checkBits, Bitmap.findBit, check_of (by omega), Option.bind_eq_bind, Option.bind_some,
      ih (by omega)]
    split
    · rfl
    · rfl

theorem checkWords_eq (h : 64 * (i + k) ≤ totalBits data.length) :
    checkWords data k i = some (Bitmap.findWord data k i) := by
  induction k generalizing i with
  | zero => rfl
  | succ k ih =>
    rw [checkWords, Bitmap.findWord, checkBits_eq (by omega), Option.bind_eq_bind, Option.bind_some,
      ih (by omega)]
    split
    · cases Bitmap.findBit data 64 (64 * i) with
      | some j => rfl
      | none => rfl
    · rfl

theorem checkBits_of_found (h : Bitmap.findBit data k i = some j) (hj : j < totalBits data.length) :
    checkBits data k i = some (some j) := by
  induction k generalizing i with
  | zero => cases h
  | succ k ih =>
    obtain ⟨hij, -, -⟩ := Bitmap.findBit_spec h
    rw [Bitmap.findBit] at h
    rw [checkBits, check_of (by omega), Option.bind_eq_bind, Option.bind_some]
    split at h
    case isTrue hc => rw [if_pos hc, ih h]
    case isFalse hc => rw [if_neg hc, h]

theorem checkBits_none (hi : i ≤ totalBits data.length) (h : totalBits data.length < i + k)
    (hset : ∀ l, i ≤ l → l < totalBits data.length → Bitmap.check data l = true) :
    checkBits data k i = none := by
  induction k generalizing i with
  | zero => omega
  | succ k ih =>
    rw [checkBits]
    obtain heq | hlt := Nat.eq_or_lt_of_le hi
    · rw [check, if_neg (by omega)]
      rfl
    · rw [check_of hlt, Option.bind_eq_bind, Option.bind_some, if_pos (hset i (Nat.le_refl i) hlt)]
      exact ih hlt (by omega) fun l hl => hset l (by omega)

theorem totalBits_le (data : List UInt8) : totalBits data.length ≤ data.length * bitsPerByte := Nat.mod_le _ _

theorem firstClear_some (hj : j < min bits (data.length * bitsPerByte)) (hc : Bitmap.check data j = false)
    (hset : ∀ l < j, Bitmap.check data l = true) : firstClear data bits = some j := by
  rw [firstClear, List.find?_range_eq_some]
  refine ⟨by simpa using hc, List.mem_range.mpr hj, ?_⟩
  intro l hl
  simpa using hset l hl

theorem firstClear_none : firstClear data bits = none ↔
    ∀ l < min bits (data.length * bitsPerByte), Bitmap.check data l = true := by
  rw [firstClear, List.find?_eq_none]
  simp only [List.mem_range, Bool.not_eq_true', Bool.not_eq_false]

section Parts

def words (data : List UInt8) (bits : ℕ) : ℕ := min (totalBits data.length) bits / 64

def rest (data : List UInt8) (bits : ℕ) : ℕ :=
  min (bits % 64) (totalBits data.length - words data bits * 64)

theorem words_le (data : List UInt8) (bits : ℕ) : words data bits * 64 ≤ min (totalBits data.length) bits :=
  Nat.div_mul_le_self _ _

theorem rest_le (data : List UInt8) (bits : ℕ) : words data bits * 64 + rest data bits ≤ totalBits data.length := by
  have h := words_le data bits
  unfold rest
  omega

theorem rest_lt (data : List UInt8) (bits : ℕ) : words data bits * 64 + rest data bits ≤ bits := by
  have h := Nat.div_add_mod' bits 64
  unfold rest words
  obtain hle | hle := Nat.le_total (totalBits data.length) bits
  · rw [Nat.min_eq_left hle]
    omega
  · rw [Nat.min_eq_right hle]
    omega

theorem findFirstFreeWBound_eq : findFirstFreeWBound data bits =
    match Bitmap.findWord data (words data bits) 0 with
    | some j => some (some j)
    | none => checkBits data (bits % 64) (words data bits * 64) := by
  have h := words_le data bits
  unfold words at h
  rw [findFirstFreeWBound, checkWords_eq (by omega), Option.bind_eq_bind, Option.bind_some]
  rfl

theorem findBit_of_checkBits {r : Option ℕ} (h : checkBits data k i = some r) :
    Bitmap.findBit data k i = r := by
  induction k generalizing i with
  | zero => exact Option.some.inj h
  | succ k ih =>
    rw [checkBits, check] at h
    split at h
    case isTrue =>
      rw [Option.bind_eq_bind, Option.bind_some] at h
      rw [Bitmap.findBit]
      split at h
      case isTrue hc => rw [if_pos hc, ih h]
      case isFalse hc => rw [if_neg hc, Option.some.inj h]
    case isFalse => cases h

/-- Where no assertion fails this is the search of the allocator. -/
theorem usize_of_findFirstFreeWBound {r : Option ℕ} (h : findFirstFreeWBound data bits = some r) :
    Usize.findFirstFreeWBound data bits = r := by
  rw [findFirstFreeWBound_eq] at h
  simp only [Usize.findFirstFreeWBound]
  rw [← words]
  cases hw : Bitmap.findWord data (words data bits) 0 with
  | some j =>
    rw [hw] at h
    exact Option.some.inj h
  | none =>
    rw [hw] at h
    rw [Option.none_or, findBit_of_checkBits h]

theorem set_of_findWord (h : Bitmap.findWord data k 0 = none) (hj : j < k * 64) :
    Bitmap.check data j = true :=
  Bitmap.findWord_first (k := k) (i := 0) (by simp [h]) (Nat.zero_le _) (by omega)

theorem search_clear (hi : i < words data bits * 64 + rest data bits) (hc : Bitmap.check data i = false) :
    findFirstFreeWBound data bits = some (firstClear data bits) := by
  have htotal := totalBits_le data
  have hrest := rest_le data bits
  have hbits := rest_lt data bits
  have hleast : ∀ l, (∀ m < l, Bitmap.check data m = true) → l ≤ i := by
    intro l hl
    by_contra hlt
    rw [hl i (by omega)] at hc
    cases hc
  rw [findFirstFreeWBound_eq]
  cases hw : Bitmap.findWord data (words data bits) 0 with
  | some j =>
    obtain ⟨-, hclear⟩ := Bitmap.findWord_spec hw
    have hset : ∀ l < j, Bitmap.check data l = true := by
      intro l hl
      obtain ⟨hj, -⟩ := Bitmap.findWord_spec hw
      exact Bitmap.findWord_first (by rw [hw]; simpa using hl) (Nat.zero_le _) (by omega)
    have hji := hleast j hset
    rw [firstClear_some (by omega) hclear hset]
  | none =>
    have hwords := fun l => set_of_findWord (j := l) hw
    cases hb : Bitmap.findBit data (bits % 64) (words data bits * 64) with
    | some j =>
      obtain ⟨hge, hlt, hclear⟩ := Bitmap.findBit_spec hb
      have hset : ∀ l < j, Bitmap.check data l = true := by
        intro l hl
        obtain hlow | hhigh := Nat.lt_or_ge l (words data bits * 64)
        · exact hwords l hlow
        · exact Bitmap.findBit_first (by rw [hb]; simpa using hl) hhigh (by omega)
      have hji := hleast j hset
      rw [firstClear_some (by omega) hclear hset]
      exact checkBits_of_found hb (by omega)
    | none =>
      have hall := hleast (i + 1) fun l hl => by
        obtain hlow | hhigh := Nat.lt_or_ge l (words data bits * 64)
        · exact hwords l hlow
        · refine Bitmap.findBit_first (by simp [hb]) hhigh (?_ : l < _ + bits % 64)
          have := Nat.min_le_left (bits % 64) (totalBits data.length - words data bits * 64)
          unfold rest at hi
          omega
      omega

theorem search_set (hset : ∀ l < words data bits * 64 + rest data bits, Bitmap.check data l = true) :
    findFirstFreeWBound data bits =
      if bits % 64 ≤ totalBits data.length - words data bits * 64 then some none else none := by
  have hle := words_le data bits
  have hnone : ∀ {n m : ℕ}, m + n ≤ words data bits * 64 + rest data bits → Bitmap.findBit data n m = none := by
    intro n m hnm
    rw [Option.eq_none_iff_forall_ne_some]
    intro j hj
    obtain ⟨-, hlt, hclear⟩ := Bitmap.findBit_spec hj
    rw [hset j (by omega)] at hclear
    cases hclear
  have hw : Bitmap.findWord data (words data bits) 0 = none := by
    rw [Option.eq_none_iff_forall_ne_some]
    intro j hj
    obtain ⟨hlt, hclear⟩ := Bitmap.findWord_spec hj
    rw [hset j (by omega)] at hclear
    cases hclear
  rw [findFirstFreeWBound_eq, hw]
  simp only
  unfold rest at hset hnone
  split
  case isTrue h =>
    rw [checkBits_eq (by omega), hnone (by omega)]
  case isFalse h =>
    exact checkBits_none (by omega) (by omega) fun l _ hl => hset l (by omega)

end Parts

theorem search_inside (hle : bits ≤ totalBits data.length) :
    findFirstFreeWBound data bits = some (firstClear data bits) := by
  have htotal := totalBits_le data
  have hdm := Nat.div_add_mod' bits 64
  have hwords : words data bits = bits / 64 := by rw [words, Nat.min_eq_right hle]
  have hrest : rest data bits = bits % 64 := by
    rw [rest, hwords]
    omega
  by_cases hclear : ∃ i < words data bits * 64 + rest data bits, Bitmap.check data i = false
  · obtain ⟨i, hi, hc⟩ := hclear
    exact search_clear hi hc
  · simp only [not_exists, not_and, Bool.not_eq_false] at hclear
    rw [search_set hclear, if_pos (by rw [hwords]; omega), firstClear_none.mpr]
    intro l hl
    exact hclear l (by rw [hwords, hrest]; omega)

/-- The search agrees with the bit-wise definition in these cases only. -/
theorem agrees_iff_settled :
    findFirstFreeWBound data bits = some (firstClear data bits) ↔ Settled data bits := by
  by_cases hle : bits ≤ totalBits data.length
  · exact iff_of_true (search_inside hle) (Or.inl hle)
  · have hdm := Nat.div_add_mod' (totalBits data.length) 64
    have hwords : words data bits = totalBits data.length / 64 := by
      rw [words, Nat.min_eq_left (by omega)]
    have hrem : totalBits data.length - words data bits * 64 = totalBits data.length % 64 := by
      rw [hwords]
      omega
    have hrest : rest data bits = min (bits % 64) (totalBits data.length % 64) := by rw [rest, hrem]
    by_cases hclear : ∃ i < words data bits * 64 + rest data bits, Bitmap.check data i = false
    · have hclear' := hclear
      rw [hwords, hrest] at hclear'
      obtain ⟨i, hi, hc⟩ := hclear
      exact iff_of_true (search_clear hi hc) (Or.inr (Or.inl hclear'))
    · have hset := hclear
      simp only [not_exists, not_and, Bool.not_eq_false] at hset
      rw [hwords, hrest] at hclear
      rw [search_set hset, hrem, Settled]
      simp only [hle, hclear, false_or, ← firstClear_none]
      split
      case isTrue h => rw [Option.some.injEq, eq_comm, and_iff_right h]
      case isFalse h => exact iff_of_false nofun fun hs => h hs.1

/-- A bound of whole words on a payload that is not: the last bits are left out. -/
theorem not_agrees_tail : findFirstFreeWBound [0] 64 = some none ∧ firstClear [0] 64 = some 0 := by
  decide

/-- A bound that is not of whole words on a payload that is: a bit that does not exist is checked. -/
example : findFirstFreeWBound (List.replicate 8 255) 65 = none ∧
    firstClear (List.replicate 8 255) 65 = none := by
  decide

end Chfs.Block.BitmapSearch
