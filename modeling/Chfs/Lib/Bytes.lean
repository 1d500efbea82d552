import Mathlib.Algebra.Group.Nat.Defs
import Mathlib.Data.List.Basic

namespace Chfs.Lib.Bytes

variable {α : Type}

def slice (l : List α) (off k : ℕ) : List α := (l.drop off).take k

/-- The list with `d` written over it from `off` on. -/
def splice (l : List α) (off : ℕ) (d : List α) : List α :=
  l.take off ++ d ++ l.drop (off + d.length)

variable {l d : List α} {i k off off' : ℕ}

@[simp]
theorem length_splice (h : off + d.length ≤ l.length) : (splice l off d).length = l.length := by
  simp only [splice, List.length_append, List.length_take, List.length_drop]
  omega

theorem length_slice (h : off + k ≤ l.length) : (slice l off k).length = k := by
  simp only [slice, List.length_take, List.length_drop]
  omega

theorem getElem?_slice : (slice l off k)[i]? = if i < k then l[off + i]? else none := by
  rw [slice, List.getElem?_take]
  split
  · rw [List.getElem?_drop]
  · rfl

theorem getElem?_splice (h : off + d.length ≤ l.length) : (splice l off d)[i]? =
    if off ≤ i ∧ i < off + d.length then d[i - off]? else l[i]? := by
  have htake : (l.take off).length = off := by
    rw [List.length_take]
    omega
  rw [splice, List.append_assoc, List.getElem?_append, htake]
  by_cases h1 : i < off
  · rw [if_pos h1, if_neg (by omega), List.getElem?_take_of_lt h1]
  · rw [if_neg h1, List.getElem?_append]
    by_cases h2 : i - off < d.length
    · rw [if_pos h2, if_pos (by omega)]
    · rw [if_neg h2, if_neg (by omega), List.getElem?_drop]
      congr 1
      omega

theorem slice_splice_self (h : off + d.length ≤ l.length) :
    slice (splice l off d) off d.length = d := by
  apply List.ext_getElem?
  intro i
  rw [getElem?_slice, getElem?_splice h]
  split
  · rw [if_pos (by omega), Nat.add_sub_cancel_left]
  · rw [List.getElem?_eq_none (by omega)]

theorem slice_splice_of_disjoint (h : off + d.length ≤ l.length)
    (hd : off' + k ≤ off ∨ off + d.length ≤ off') :
    slice (splice l off d) off' k = slice l off' k := by
  apply List.ext_getElem?
  intro i
  rw [getElem?_slice, getElem?_slice]
  split
  · rw [getElem?_splice h, if_neg (by omega)]
  · rfl

theorem take_splice {n : ℕ} (hn : n ≤ off) (hl : n ≤ l.length) : (splice l off d).take n = l.take n := by
  have hlen : n ≤ (l.take off).length := by
    rw [List.length_take]
    omega
  rw [splice, List.append_assoc, List.take_append_of_le_length hlen, List.take_take, Nat.min_eq_left hn]

variable {x y : List α}

theorem splice_append_right (h : x.length ≤ off) :
    splice (x ++ y) off d = x ++ splice y (off - x.length) d := by
  unfold splice
  rw [List.take_append, List.take_of_length_le h, List.drop_append,
    List.drop_of_length_le (by omega : x.length ≤ off + d.length), List.nil_append, List.append_assoc,
    List.append_assoc, List.append_assoc, Nat.sub_add_comm h]

theorem splice_append_left (h : off ≤ x.length) : splice (x ++ y) off d =
    splice x off (d.take (x.length - off)) ++ splice y 0 (d.drop (x.length - off)) := by
  have hcut : x.drop (off + d.length) = x.drop (off + (d.take (x.length - off)).length) := by
    rw [List.length_take]
    obtain hle | hge := Nat.le_total (x.length - off) d.length
    · rw [Nat.min_eq_left hle, List.drop_of_length_le (by omega), List.drop_of_length_le (by omega)]
    · rw [Nat.min_eq_right hge]
  have hrest : off + d.length - x.length = (d.drop (x.length - off)).length := by
    rw [List.length_drop]
    omega
  unfold splice
  rw [List.take_append_of_le_length h, List.drop_append, hcut, hrest, List.take_zero, List.nil_append,
    Nat.zero_add]
  -- the data is cut where the first list ends
  obtain hle | hge := Nat.le_total (x.length - off) d.length
  · have hnil : x.drop (off + (d.take (x.length - off)).length) = [] := by
      rw [List.length_take, Nat.min_eq_left hle]
      exact List.drop_of_length_le (by omega)
    rw [hnil, List.nil_append, List.append_nil, List.append_assoc (x.take off) (d.take _),
      ← List.append_assoc (d.take _) (d.drop _), List.take_append_drop, List.append_assoc]
  · rw [List.take_of_length_le hge, List.drop_of_length_le hge, List.nil_append, List.append_assoc,
      List.append_assoc]
    simp

theorem slice_append_right (h : x.length ≤ off) : slice (x ++ y) off k = slice y (off - x.length) k := by
  unfold slice
  rw [List.drop_append, List.drop_of_length_le h, List.nil_append]

theorem slice_append_left (h : off ≤ x.length) : slice (x ++ y) off k =
    slice x off (min (x.length - off) k) ++ slice y 0 (k - (x.length - off)) := by
  unfold slice
  rw [List.drop_append_of_le_length h, List.take_append, List.length_drop, List.drop_zero]
  congr 1
  have hall : (x.drop off).take (x.length - off) = x.drop off := List.take_of_length_le (by simp)
  rw [Nat.min_comm, ← List.take_take, hall]

def leBytes : ℕ → ℕ → List UInt8
  | 0, _ => []
  | k + 1, v => UInt8.ofNat v :: leBytes k (v / 256)

def leVal : List UInt8 → ℕ
  | [] => 0
  | b :: bs => b.toNat + 256 * leVal bs

@[simp]
theorem length_leBytes (k v : ℕ) : (leBytes k v).length = k := by
  induction k generalizing v with
  | zero => rfl
  | succ k ih => rw [leBytes, List.length_cons, ih]

theorem leVal_leBytes {v : ℕ} (h : v < 256 ^ k) : leVal (leBytes k v) = v := by
  induction k generalizing v with
  | zero =>
    rw [Nat.pow_zero, Nat.lt_one_iff] at h
    rw [h]
    rfl
  | succ k ih =>
    have hdiv : v / 256 < 256 ^ k := by
      rw [Nat.div_lt_iff_lt_mul (by decide), ← Nat.pow_succ]
      exact h
    rw [leBytes, leVal, ih hdiv, UInt8.toNat_ofNat']
    omega

theorem leVal_lt (bs : List UInt8) : leVal bs < 256 ^ bs.length := by
  induction bs with
  | nil => decide
  | cons b bs ih =>
    have hb := b.toNat_lt
    rw [leVal, List.length_cons, Nat.pow_succ]
    omega

theorem eq_of_leVal_eq {bs : List UInt8} (hlen : bs.length ≤ k) (h : leVal bs = 256 ^ k - 1) (i : ℕ)
    (hi : i < k) : bs[i]? = some 255 := by
  induction bs generalizing i k with
  | nil =>
    have hone := Nat.one_lt_pow (by omega : k ≠ 0) (by decide : 1 < 256)
    rw [leVal] at h
    omega
  | cons b bs ih =>
    obtain ⟨k, rfl⟩ := Nat.exists_eq_add_one.mpr (by omega : 0 < k)
    rw [List.length_cons, Nat.add_le_add_iff_right] at hlen
    have hb := b.toNat_lt
    have hlt := Nat.lt_of_lt_of_le (leVal_lt bs) (Nat.pow_le_pow_right (by decide : 0 < 256) hlen)
    rw [leVal, Nat.pow_succ] at h
    cases i with
    | zero =>
      rw [List.getElem?_cons_zero, Option.some.injEq, ← UInt8.toNat_inj]
      exact (by omega : b.toNat = 255)
    | succ i =>
      rw [List.getElem?_cons_succ]
      exact ih hlen (by omega) i (by omega)

theorem leVal_replicate (k : ℕ) : leVal (List.replicate k 0) = 0 := by
  induction k with
  | zero => rfl
  | succ k ih =>
    rw [List.replicate_succ, leVal, ih]
    rfl

def getField (buf : List UInt8) (off k : ℕ) : ℕ := leVal (slice buf off k)

def setField (buf : List UInt8) (off k v : ℕ) : List UInt8 := splice buf off (leBytes k v)

variable {buf : List UInt8} {v j : ℕ}

@[simp]
theorem length_setField (h : off + k ≤ buf.length) : (setField buf off k v).length = buf.length :=
  length_splice (by rwa [length_leBytes])

theorem getField_lt (buf : List UInt8) (off k : ℕ) : getField buf off k < 256 ^ k := by
  have hlen : (slice buf off k).length ≤ k := by
    rw [slice, List.length_take]
    omega
  exact Nat.lt_of_lt_of_le (leVal_lt _) (Nat.pow_le_pow_right (by decide) hlen)

theorem getField_replicate (n off k : ℕ) : getField (List.replicate n 0) off k = 0 := by
  rw [getField, slice, List.drop_replicate, List.take_replicate, leVal_replicate]

theorem getField_setField_self (h : off + k ≤ buf.length) (hv : v < 256 ^ k) :
    getField (setField buf off k v) off k = v := by
  have hs : slice (splice buf off (leBytes k v)) off (leBytes k v).length = leBytes k v :=
    slice_splice_self (by rwa [length_leBytes])
  rw [length_leBytes] at hs
  rw [getField, setField, hs, leVal_leBytes hv]

theorem getField_setField_of_disjoint (h : off + k ≤ buf.length)
    (hd : off' + j ≤ off ∨ off + k ≤ off') :
    getField (setField buf off k v) off' j = getField buf off' j := by
  rw [getField, setField, slice_splice_of_disjoint (by rwa [length_leBytes])
    (by rwa [length_leBytes])]
  rfl

end Chfs.Lib.Bytes
