import Chfs.Block.Manager
import Chfs.Lib.Bytes

/-! `Bitmap` (`common/bitmap.h`) and `BlockAllocator` (`block/allocator.cc`). -/

namespace Chfs.Block.Allocator

open Lib.Effect Lib.Bytes Manager

def bitsPerByte : ℕ := 8

namespace Bitmap

def byteAt (data : List UInt8) (index : ℕ) : ℕ := (data.getD (index / bitsPerByte) 0).toNat

def check (data : List UInt8) (index : ℕ) : Bool := (byteAt data index).testBit (index % bitsPerByte)

def set (data : List UInt8) (index : ℕ) : List UInt8 :=
  data.set (index / bitsPerByte) (UInt8.ofNat (byteAt data index ||| 2 ^ (index % bitsPerByte)))

def clear (data : List UInt8) (index : ℕ) : List UInt8 :=
  data.set (index / bitsPerByte)
    (UInt8.ofNat (byteAt data index &&& (255 ^^^ 2 ^ (index % bitsPerByte))))

def findBit (data : List UInt8) : ℕ → ℕ → Option ℕ
  | 0, _ => none
  | k + 1, index => if check data index then findBit data k (index + 1) else some index

def findWord (data : List UInt8) : ℕ → ℕ → Option ℕ
  | 0, _ => none
  | k + 1, i =>
    if getField data (8 * i) 8 ≠ 2 ^ 64 - 1 then
      (findBit data 64 (64 * i)).or (findWord data k (i + 1))
    else findWord data k (i + 1)

def findFirstFreeWBound (data : List UInt8) (bits : ℕ) : Option ℕ :=
  let refinedBits := min (data.length * bitsPerByte) bits
  let numWords := refinedBits / 64
  (findWord data numWords 0).or (findBit data (bits % 64) (numWords * 64))

def findFirstFree (data : List UInt8) : Option ℕ :=
  findFirstFreeWBound data (data.length * bitsPerByte)

def countZerosToBound (data : List UInt8) (upbound : ℕ) : ℕ :=
  (List.range upbound).countP fun i => !check data i

def countOnes (data : List UInt8) : ℕ :=
  (List.range (data.length * bitsPerByte)).countP fun i => check data i

def countZeros (data : List UInt8) : ℕ := data.length * bitsPerByte - countOnes data

end Bitmap

structure BlockAllocator where
  bitmapBlockId : ℕ
  bitmapBlockCnt : ℕ
  lastBlockNum : ℕ
  deriving DecidableEq, Repr

variable {sz cnt logCnt : ℕ}

def BlockAllocator.fields (sz cnt bitmapBlockId : ℕ) : BlockAllocator where
  bitmapBlockId := bitmapBlockId
  bitmapBlockCnt := if cnt % (sz * bitsPerByte) ≠ 0 then cnt / (sz * bitsPerByte) + 1
    else cnt / (sz * bitsPerByte)
  lastBlockNum := if cnt % (sz * bitsPerByte) ≠ 0 then cnt % (sz * bitsPerByte)
    else sz * bitsPerByte

def zeroBlocks : ℕ → ℕ → Bm sz cnt logCnt Unit
  | 0, _ => pure ()
  | k + 1, i => do
    zeroBlock i
    zeroBlocks k (i + 1)

/-- The loop that marks the reserved blocks `i, i + 1, ..`; `buffer` is to be
written to `curBlockId`. -/
def BlockAllocator.markReserved (a : BlockAllocator) : ℕ → ℕ → ℕ → List UInt8 → Bm sz cnt logCnt Unit
  | 0, _, curBlockId, buffer => ignore (writeBlock curBlockId buffer)
  | k + 1, i, curBlockId, buffer => do
    let blockId := i / (sz * bitsPerByte) + a.bitmapBlockId
    let blockIdx := i % (sz * bitsPerByte)
    if blockId ≠ curBlockId then
      ignore (writeBlock curBlockId buffer)
      a.markReserved k (i + 1) blockId (Bitmap.set (List.replicate sz 0) blockIdx)
    else a.markReserved k (i + 1) curBlockId (Bitmap.set buffer blockIdx)

def BlockAllocator.create (bitmapBlockId : ℕ) (willInitialize : Bool) :
    Bm sz cnt logCnt BlockAllocator := do
  let a := BlockAllocator.fields sz cnt bitmapBlockId
  require (0 < a.bitmapBlockCnt)
  require (a.bitmapBlockCnt + a.bitmapBlockId ≤ cnt)
  if willInitialize then
    zeroBlocks a.bitmapBlockCnt a.bitmapBlockId
    a.markReserved (a.bitmapBlockCnt + a.bitmapBlockId) 0 a.bitmapBlockId (List.replicate sz 0)
  pure a

/-- The loop of `allocate` over the bitmap blocks `i, i + 1, ..`. What becomes
of the write is not looked at. -/
def BlockAllocator.allocateFrom (a : BlockAllocator) : ℕ → ℕ → Bm sz cnt logCnt ℕ
  | 0, _ => refuse .outOfResource
  | k + 1, i => do
    let buffer ← readBlock (i + a.bitmapBlockId)
    let res := if i = a.bitmapBlockCnt - 1 then Bitmap.findFirstFreeWBound buffer a.lastBlockNum
      else Bitmap.findFirstFree buffer
    match res with
    | some retval =>
      ignore (writeBlock (i + a.bitmapBlockId) (Bitmap.set buffer retval))
      pure (i * sz * bitsPerByte + retval)
    | none => a.allocateFrom k (i + 1)

def BlockAllocator.allocate (a : BlockAllocator) : Bm sz cnt logCnt ℕ :=
  a.allocateFrom a.bitmapBlockCnt 0

def BlockAllocator.deallocate (a : BlockAllocator) (blockId : ℕ) : Bm sz cnt logCnt Unit := do
  if cnt ≤ blockId then refuse .invalidArg else
    let bitmapBlockIdx := blockId / (sz * bitsPerByte)
    let bitIdx := blockId % (sz * bitsPerByte)
    let buffer ← readBlock (bitmapBlockIdx + a.bitmapBlockId)
    if !Bitmap.check buffer bitIdx then refuse .invalidArg else
      ignore (writeBlock (bitmapBlockIdx + a.bitmapBlockId) (Bitmap.clear buffer bitIdx))

def BlockAllocator.freeFrom (a : BlockAllocator) : ℕ → ℕ → Bm sz cnt logCnt ℕ
  | 0, _ => pure 0
  | k + 1, i => do
    let buffer ← readBlock (i + a.bitmapBlockId)
    let free := if i = a.bitmapBlockCnt - 1 then Bitmap.countZerosToBound buffer a.lastBlockNum
      else Bitmap.countZeros buffer
    let rest ← a.freeFrom k (i + 1)
    pure (free + rest)

def BlockAllocator.freeBlockCnt (a : BlockAllocator) : Bm sz cnt logCnt ℕ :=
  a.freeFrom a.bitmapBlockCnt 0

namespace Bitmap

variable {data : List UInt8} {i j k l : ℕ}

@[simp]
theorem length_set (data : List UInt8) (i : ℕ) : (set data i).length = data.length :=
  List.length_set

@[simp]
theorem length_clear (data : List UInt8) (i : ℕ) : (clear data i).length = data.length :=
  List.length_set

theorem check_set_byte (h : i < data.length * bitsPerByte) (v : ℕ) (hv : v < 256) :
    check (data.set (i / bitsPerByte) (UInt8.ofNat v)) j =
      if j / bitsPerByte = i / bitsPerByte then v.testBit (j % bitsPerByte) else check data j := by
  have hlt : i / bitsPerByte < data.length := by
    unfold bitsPerByte at h ⊢
    omega
  unfold check byteAt
  rw [List.getD_eq_getElem?_getD, List.getElem?_set]
  by_cases heq : j / bitsPerByte = i / bitsPerByte
  · rw [if_pos heq.symm, if_pos hlt, if_pos heq, Option.getD_some, UInt8.toNat_ofNat',
      Nat.mod_eq_of_lt hv]
  · rw [if_neg (Ne.symm heq), if_neg heq, List.getD_eq_getElem?_getD]

theorem byteAt_lt (data : List UInt8) (i : ℕ) : byteAt data i < 256 := UInt8.toNat_lt _

theorem byteAt_congr (h : j / bitsPerByte = i / bitsPerByte) : byteAt data j = byteAt data i := by
  unfold byteAt
  rw [h]

theorem check_set (h : i < data.length * bitsPerByte) :
    check (set data i) j = (decide (j = i) || check data j) := by
  have hlt : byteAt data i ||| 2 ^ (i % bitsPerByte) < 2 ^ 8 := by
    apply Nat.or_lt_two_pow (byteAt_lt data i)
    exact Nat.pow_lt_pow_right (by decide) (Nat.mod_lt _ (by decide))
  rw [set, check_set_byte h _ hlt]
  split
  case isTrue heq =>
    rw [Nat.testBit_or, Nat.testBit_two_pow, ← byteAt_congr heq, Bool.or_comm]
    unfold check
    congr 1
    apply decide_eq_decide.mpr
    unfold bitsPerByte at heq ⊢
    omega
  case isFalse hne =>
    have hji : j ≠ i := by
      rintro rfl
      exact hne rfl
    simp [hji]

theorem check_clear (h : i < data.length * bitsPerByte) :
    check (clear data i) j = (decide (j ≠ i) && check data j) := by
  have hlt : byteAt data i &&& (255 ^^^ 2 ^ (i % bitsPerByte)) < 256 :=
    Nat.lt_of_le_of_lt Nat.and_le_left (byteAt_lt data i)
  rw [clear, check_set_byte h _ hlt]
  split
  case isTrue heq =>
    have h8 : j % bitsPerByte < 8 := Nat.mod_lt _ (by decide)
    have hones : (255 : ℕ).testBit (j % bitsPerByte) = true := by
      rw [show (255 : ℕ) = 2 ^ 8 - 1 from rfl, Nat.testBit_two_pow_sub_one]
      exact decide_eq_true h8
    rw [Nat.testBit_and, Nat.testBit_xor, hones, Nat.testBit_two_pow, ← byteAt_congr heq, Bool.and_comm,
      Bool.true_xor]
    unfold check
    congr 1
    rw [← decide_not]
    apply decide_eq_decide.mpr
    unfold bitsPerByte at heq ⊢
    omega
  case isFalse hne =>
    have hji : j ≠ i := by
      rintro rfl
      exact hne rfl
    simp [hji]

theorem check_zeros (k i : ℕ) : check (List.replicate k 0) i = false := by
  unfold check byteAt
  rw [List.getD_eq_getElem?_getD, List.getElem?_replicate]
  split
  · exact Nat.zero_testBit _
  · exact Nat.zero_testBit _

theorem findBit_spec (h : findBit data k i = some j) : i ≤ j ∧ j < i + k ∧ check data j = false := by
  induction k generalizing i with
  | zero => cases h
  | succ k ih =>
    rw [findBit] at h
    split at h
    case isTrue =>
      obtain ⟨h1, h2, h3⟩ := ih h
      exact ⟨by omega, by omega, h3⟩
    case isFalse hc =>
      cases h
      exact ⟨Nat.le_refl _, by omega, by simpa using hc⟩

theorem findWord_spec (h : findWord data k i = some j) : j < 64 * (i + k) ∧ check data j = false := by
  induction k generalizing i with
  | zero => cases h
  | succ k ih =>
    rw [findWord] at h
    split at h
    case isTrue =>
      obtain h | ⟨-, h⟩ := Option.or_eq_some_iff.mp h
      · obtain ⟨-, h2, h3⟩ := findBit_spec h
        exact ⟨by omega, h3⟩
      · obtain ⟨h1, h2⟩ := ih h
        exact ⟨by omega, h2⟩
    case isFalse =>
      obtain ⟨h1, h2⟩ := ih h
      exact ⟨by omega, h2⟩

theorem findFirstFreeWBound_spec {bits : ℕ} (hb : bits ≤ data.length * bitsPerByte)
    (h : findFirstFreeWBound data bits = some j) : j < bits ∧ check data j = false := by
  unfold findFirstFreeWBound at h
  simp only [Nat.min_eq_right hb] at h
  obtain h | ⟨-, h⟩ := Option.or_eq_some_iff.mp h
  · obtain ⟨h1, h2⟩ := findWord_spec h
    exact ⟨by omega, h2⟩
  · obtain ⟨-, h2, h3⟩ := findBit_spec h
    exact ⟨by omega, h3⟩

theorem check_of_getField {w : ℕ} (h : getField data (8 * w) 8 = 2 ^ 64 - 1) (hi : 64 * w ≤ i)
    (hlt : i < 64 * (w + 1)) : check data i = true := by
  have hlen : (slice data (8 * w) 8).length ≤ 8 := by
    rw [slice, List.length_take]
    exact Nat.min_le_left ..
  have hbyte := eq_of_leVal_eq hlen h (i / 8 - 8 * w) (by omega)
  rw [getElem?_slice, if_pos (by omega), Nat.add_sub_cancel' (by omega)] at hbyte
  have hmod : i % bitsPerByte < 8 := Nat.mod_lt _ (by decide)
  unfold check byteAt
  rw [List.getD_eq_getElem?_getD, bitsPerByte, hbyte, Option.getD_some]
  unfold bitsPerByte at hmod
  generalize i % 8 = r at hmod
  decide +revert

theorem findBit_first (h : ∀ j ∈ findBit data k i, l < j) (hl : i ≤ l) (hlt : l < i + k) :
    check data l = true := by
  induction k generalizing i with
  | zero => omega
  | succ k ih =>
    rw [findBit] at h
    split at h
    case isTrue hc =>
      obtain rfl | hne := Nat.eq_or_lt_of_le hl
      · exact hc
      · exact ih h hne (by omega)
    case isFalse =>
      have := h i rfl
      omega

theorem findWord_first (h : ∀ j ∈ findWord data k i, l < j) (hl : 64 * i ≤ l) (hlt : l < 64 * (i + k)) :
    check data l = true := by
  induction k generalizing i with
  | zero => omega
  | succ k ih =>
    rw [findWord] at h
    by_cases hword : getField data (8 * i) 8 = 2 ^ 64 - 1
    · rw [if_neg (by simpa using hword)] at h
      by_cases hlast : l < 64 * (i + 1)
      · exact check_of_getField hword hl hlast
      · exact ih h (by omega) (by omega)
    · rw [if_pos hword] at h
      cases hbit : findBit data 64 (64 * i) with
      | some j =>
        rw [hbit, Option.some_or] at h
        have hlj := h j rfl
        obtain ⟨-, hj, -⟩ := findBit_spec hbit
        exact findBit_first (k := 64) (by rwa [hbit]) hl (by omega)
      | none =>
        rw [hbit, Option.none_or] at h
        by_cases hlast : l < 64 * (i + 1)
        · exact findBit_first (k := 64) (by simp [hbit]) hl (by omega)
        · exact ih h (by omega) (by omega)

theorem findFirstFreeWBound_first {bits : ℕ} (hb : bits ≤ data.length * bitsPerByte)
    (h : ∀ j ∈ findFirstFreeWBound data bits, l < j) (hl : l < bits) : check data l = true := by
  unfold findFirstFreeWBound at h
  simp only [Nat.min_eq_right hb] at h
  cases hw : findWord data (bits / 64) 0 with
  | some j =>
    rw [hw, Option.some_or] at h
    have hlj := h j rfl
    obtain ⟨hj, -⟩ := findWord_spec hw
    exact findWord_first (by rwa [hw]) (Nat.zero_le _) (by omega)
  | none =>
    rw [hw, Option.none_or] at h
    by_cases hlast : l < bits / 64 * 64
    · exact findWord_first (k := bits / 64) (i := 0) (by simp [hw]) (Nat.zero_le _) (by omega)
    · exact findBit_first h (by omega) (by omega)

theorem countZeros_eq (data : List UInt8) : countZeros data =
    (List.range (data.length * bitsPerByte)).countP fun i => !check data i := by
  have hsum := List.length_eq_countP_add_countP (fun i => check data i)
    (l := List.range (data.length * bitsPerByte))
  have hnot : (fun i => decide ¬ check data i = true) = fun i => !check data i := by
    funext i
    simp
  rw [List.length_range, hnot] at hsum
  unfold countZeros countOnes
  omega

end Bitmap

theorem countP_range (used : ℕ → Bool) {check : ℕ → Bool} {m start : ℕ}
    (h : ∀ j < m, used (start + j) = check j) :
    ((List.range m).countP fun j => !check j) = (List.range' start m).countP fun b => !used b := by
  rw [List.range'_eq_map_range, List.countP_map]
  apply List.countP_congr
  intro j hj
  simp only [Function.comp_apply, h j (List.mem_range.mp hj)]

def BlockAllocator.used (a : BlockAllocator) (bm : BlockManager sz cnt logCnt) (b : ℕ) : Bool :=
  Bitmap.check (bm.blocks (b / (sz * bitsPerByte) + a.bitmapBlockId)) (b % (sz * bitsPerByte))

structure BlockAllocator.Fits (a : BlockAllocator) (sz cnt : ℕ) : Prop where
  sz_pos : 0 < sz
  cnt_pos : 0 < a.bitmapBlockCnt
  last_le : a.lastBlockNum ≤ sz * bitsPerByte
  covers : (a.bitmapBlockCnt - 1) * (sz * bitsPerByte) + a.lastBlockNum = cnt
  room : a.bitmapBlockCnt + a.bitmapBlockId ≤ cnt

/-- The state `t` differs from `s` in the bitmap only, where the bits are those
of `u`. -/
structure BlockAllocator.Marks (a : BlockAllocator) (s t : BlockManager sz cnt logCnt)
    (u : ℕ → Bool) : Prop where
  works : t.maybeFailed = s.maybeFailed
  frame : ∀ i, i < a.bitmapBlockId ∨ a.bitmapBlockId + a.bitmapBlockCnt ≤ i →
    t.blocks i = s.blocks i
  bits : ∀ b < cnt, a.used t b = u b

section Spec

variable {a : BlockAllocator} (ha : a.Fits sz cnt) {s : BlockManager sz cnt logCnt} {b : ℕ}
include ha

theorem Fits.index_lt (hb : b < cnt) : b / (sz * bitsPerByte) < a.bitmapBlockCnt := by
  have h1 := ha.covers
  have h2 := ha.last_le
  have h3 := ha.cnt_pos
  rw [Nat.div_lt_iff_lt_mul (Nat.mul_pos ha.sz_pos (by decide))]
  calc b < (a.bitmapBlockCnt - 1) * (sz * bitsPerByte) + sz * bitsPerByte := by omega
    _ = (a.bitmapBlockCnt - 1 + 1) * (sz * bitsPerByte) := (Nat.succ_mul _ _).symm
    _ = a.bitmapBlockCnt * (sz * bitsPerByte) := by rw [Nat.sub_add_cancel h3]

theorem marks_setBlock (i j : ℕ) (hi : i < a.bitmapBlockCnt) (hj : j < sz * bitsPerByte)
    (data : List UInt8) (hlen : data.length = sz) (v : Bool)
    (hdata : ∀ j', Bitmap.check data j' =
      if j' = j then v else Bitmap.check (s.blocks (i + a.bitmapBlockId)) j') :
    a.Marks s (s.setBlock (i + a.bitmapBlockId) data hlen)
      (Function.update (a.used s) (i * (sz * bitsPerByte) + j) v) where
  works := rfl
  frame k hk := by
    rw [setBlock_blocks, Function.update_of_ne (by omega)]
  bits b hb := by
    have hpos : 0 < sz * bitsPerByte := Nat.mul_pos ha.sz_pos (by decide)
    unfold BlockAllocator.used
    rw [setBlock_blocks]
    by_cases hblk : b / (sz * bitsPerByte) = i
    · rw [hblk, Function.update_self, hdata]
      by_cases hbit : b % (sz * bitsPerByte) = j
      · have hbe : b = i * (sz * bitsPerByte) + j := by
          rw [← hblk, ← hbit, Nat.mul_comm, Nat.div_add_mod]
        rw [if_pos hbit, hbe, Function.update_self]
      · have hbe : b ≠ i * (sz * bitsPerByte) + j := by
          rintro rfl
          apply hbit
          rw [Nat.mul_comm, Nat.mul_add_mod, Nat.mod_eq_of_lt hj]
        rw [if_neg hbit, Function.update_of_ne hbe, hblk]
    · have hbe : b ≠ i * (sz * bitsPerByte) + j := by
        rintro rfl
        apply hblk
        rw [Nat.mul_comm, Nat.mul_add_div hpos, Nat.div_eq_of_lt hj, Nat.add_zero]
      rw [Function.update_of_ne (by omega), Function.update_of_ne hbe]

omit s in
theorem found_spec {i retval : ℕ} {data : List UInt8} (hi : i < a.bitmapBlockCnt)
    (hlen : data.length = sz)
    (hres : (if i = a.bitmapBlockCnt - 1 then Bitmap.findFirstFreeWBound data a.lastBlockNum
      else Bitmap.findFirstFree data) = some retval) :
    retval < sz * bitsPerByte ∧ i * (sz * bitsPerByte) + retval < cnt ∧
      Bitmap.check data retval = false := by
  have hcov := ha.covers
  have hlast := ha.last_le
  split at hres
  case isTrue hi =>
    obtain ⟨h1, h2⟩ := Bitmap.findFirstFreeWBound_spec (by rw [hlen]; exact hlast) hres
    refine ⟨by omega, ?_, h2⟩
    rw [hi]
    omega
  case isFalse hne =>
    obtain ⟨h1, h2⟩ := Bitmap.findFirstFreeWBound_spec (Nat.le_refl _) hres
    rw [hlen] at h1
    refine ⟨h1, ?_, h2⟩
    calc i * (sz * bitsPerByte) + retval < i * (sz * bitsPerByte) + sz * bitsPerByte := by omega
      _ = (i + 1) * (sz * bitsPerByte) := (Nat.succ_mul _ _).symm
      _ ≤ (a.bitmapBlockCnt - 1) * (sz * bitsPerByte) := Nat.mul_le_mul_right _ (by omega)
      _ ≤ cnt := by omega

theorem write_marks (i j : ℕ) (hi : i < a.bitmapBlockCnt) (hj : j < sz * bitsPerByte)
    (data : List UInt8) (hlen : data.length = sz) (v : Bool)
    (hdata : ∀ j', Bitmap.check data j' =
      if j' = j then v else Bitmap.check (s.blocks (i + a.bitmapBlockId)) j') :
    ∃ t, ignore (writeBlock (i + a.bitmapBlockId) data) s = some (.ok (), t) ∧
      a.Marks s t (if s.fails a.bitmapBlockId then a.used s
        else Function.update (a.used s) (i * (sz * bitsPerByte) + j) v) := by
  have hroom := ha.room
  have hcnt := ha.cnt_pos
  obtain ⟨r, t, hrun, hworks, hblocks⟩ := writeBlock_cases s (by omega : i + a.bitmapBlockId < cnt + logCnt) hlen
  have hfails : s.fails (i + a.bitmapBlockId) ↔ s.fails a.bitmapBlockId := by
    unfold BlockManager.fails
    rw [eq_true (by omega : i + a.bitmapBlockId < cnt), eq_true (by omega : a.bitmapBlockId < cnt)]
  refine ⟨t, ignore_apply hrun, ?_⟩
  by_cases hf : s.fails a.bitmapBlockId
  · rw [if_pos (hfails.mpr hf)] at hblocks
    rw [if_pos hf]
    exact ⟨hworks, fun k _ => congrFun hblocks k, fun b _ => by rw [BlockAllocator.used, hblocks]; rfl⟩
  · rw [if_neg (hfails.not.mpr hf)] at hblocks
    rw [if_neg hf]
    have hm := marks_setBlock ha i j hi hj data hlen v hdata
    refine ⟨hworks, fun k hk => (congrFun hblocks k).trans (hm.frame k hk), fun b hb => ?_⟩
    rw [← hm.bits b hb, BlockAllocator.used, hblocks]
    rfl

theorem allocateFrom_result (k i : ℕ) (hk : i + k = a.bitmapBlockCnt) :
    wp (a.allocateFrom k i) (fun r t => match r with
      | .ok b => b < cnt ∧ a.used s b = false ∧
          a.Marks s t (if s.fails a.bitmapBlockId then a.used s else Function.update (a.used s) b true)
      | .error e => e = .outOfResource ∧ t = s) s := by
  induction k generalizing i with
  | zero => exact wp_refuse.mpr ⟨rfl, rfl⟩
  | succ k ih =>
    have hroom := ha.room
    have hlen := s.length_blocks (i + a.bitmapBlockId)
    apply wp_bind_ok (readBlock_apply s (by omega))
    simp only
    split
    case h_2 => exact ih (i + 1) (by omega)
    case h_1 retval hres =>
      obtain ⟨hlt, hcnt, hcheck⟩ := found_spec ha (by omega) hlen hres
      have hset : (Bitmap.set (s.blocks (i + a.bitmapBlockId)) retval).length = sz := by
        rw [Bitmap.length_set, hlen]
      obtain ⟨t, hrun, hm⟩ := write_marks ha (s := s) i retval (by omega) hlt _ hset true fun j' => by
        rw [Bitmap.check_set (by rw [hlen]; exact hlt)]
        by_cases hj : j' = retval <;> simp [hj]
      apply wp_bind_ok hrun
      rw [wp_pure]
      have hb : i * sz * bitsPerByte + retval = i * (sz * bitsPerByte) + retval := by
        rw [Nat.mul_assoc]
      have hused : a.used s (i * (sz * bitsPerByte) + retval) = false := by
        have hpos : 0 < sz * bitsPerByte := Nat.mul_pos ha.sz_pos (by decide)
        unfold BlockAllocator.used
        rw [Nat.mul_comm i, Nat.mul_add_div hpos, Nat.div_eq_of_lt hlt, Nat.add_zero, Nat.mul_add_mod,
          Nat.mod_eq_of_lt hlt, hcheck]
      simp only [hb]
      exact ⟨hcnt, hused, hm⟩

theorem allocate_result : wp a.allocate (fun r t => match r with
      | .ok b => b < cnt ∧ a.used s b = false ∧
          a.Marks s t (if s.fails a.bitmapBlockId then a.used s else Function.update (a.used s) b true)
      | .error e => e = .outOfResource ∧ t = s) s :=
  allocateFrom_result ha _ _ (Nat.zero_add _)

theorem allocate_spec (hs : s.maybeFailed = false) :
    wp a.allocate (fun r t => match r with
      | .ok b => b < cnt ∧ a.used s b = false ∧ a.Marks s t (Function.update (a.used s) b true)
      | .error e => e = .outOfResource ∧ t = s) s := by
  refine (allocate_result ha).mono fun r t h => ?_
  cases r with
  | error e => exact h
  | ok b =>
    simp only [if_neg (not_fails hs a.bitmapBlockId)] at h
    exact h

theorem allocateFrom_first (hs : s.maybeFailed = false) (k i : ℕ) (hk : i + k = a.bitmapBlockCnt)
    (hfull : ∀ b < i * (sz * bitsPerByte), b < cnt → a.used s b = true) :
    wp (a.allocateFrom k i) (fun r _ => match r with
      | .ok b => ∀ b' < b, a.used s b' = true
      | .error _ => ∀ b < cnt, a.used s b = true) s := by
  have hpos : 0 < sz * bitsPerByte := Nat.mul_pos ha.sz_pos (by decide)
  induction k generalizing i with
  | zero =>
    refine wp_refuse.mpr fun b hb => hfull b ?_ hb
    rw [← Nat.div_lt_iff_lt_mul hpos]
    have := Fits.index_lt ha hb
    omega
  | succ k ih =>
    have hroom := ha.room
    have hcov := ha.covers
    have hlast := ha.last_le
    have hlen := s.length_blocks (i + a.bitmapBlockId)
    have hused : ∀ b, b / (sz * bitsPerByte) = i → a.used s b =
        Bitmap.check (s.blocks (i + a.bitmapBlockId)) (b % (sz * bitsPerByte)) := by
      intro b hb
      unfold BlockAllocator.used
      rw [hb]
    -- the bits of block `i` before the one found
    have hfirst : ∀ l, (∀ j ∈ (if i = a.bitmapBlockCnt - 1 then
          Bitmap.findFirstFreeWBound (s.blocks (i + a.bitmapBlockId)) a.lastBlockNum
        else Bitmap.findFirstFree (s.blocks (i + a.bitmapBlockId))), l < j) →
        l < sz * bitsPerByte → i * (sz * bitsPerByte) + l < cnt →
        Bitmap.check (s.blocks (i + a.bitmapBlockId)) l = true := by
      intro l hl hlt hcnt
      split at hl
      case isTrue hi =>
        apply Bitmap.findFirstFreeWBound_first (by rw [hlen]; exact hlast) hl
        rw [← hi] at hcov
        omega
      case isFalse hi =>
        exact Bitmap.findFirstFreeWBound_first (Nat.le_refl _) hl (by rw [hlen]; exact hlt)
    have hbefore : ∀ l, (∀ j ∈ (if i = a.bitmapBlockCnt - 1 then
          Bitmap.findFirstFreeWBound (s.blocks (i + a.bitmapBlockId)) a.lastBlockNum
        else Bitmap.findFirstFree (s.blocks (i + a.bitmapBlockId))), l ≤ j) →
        ∀ b < i * (sz * bitsPerByte) + l, b < (i + 1) * (sz * bitsPerByte) → b < cnt →
          a.used s b = true := by
      intro l hl b hb hblk hcnt
      by_cases hlow : b < i * (sz * bitsPerByte)
      · exact hfull b hlow hcnt
      · rw [Nat.succ_mul] at hblk
        have hdiv : b / (sz * bitsPerByte) = i := by
          rw [Nat.div_eq_iff hpos]
          omega
        have hmod : i * (sz * bitsPerByte) + b % (sz * bitsPerByte) = b := by
          have := Nat.div_add_mod' b (sz * bitsPerByte)
          rwa [hdiv] at this
        rw [hused b hdiv]
        refine hfirst _ (fun j hj => ?_) (Nat.mod_lt b hpos) (by omega)
        have := hl j hj
        omega
    apply wp_bind_ok (readBlock_apply s (by omega))
    simp only
    split
    case h_2 hnone =>
      refine ih (i + 1) (by omega) fun b hb hcnt => ?_
      refine hbefore (sz * bitsPerByte) (fun j hj => ?_) b (by rwa [Nat.succ_mul] at hb) hb hcnt
      rw [hnone] at hj
      cases hj
    case h_1 retval hres =>
      obtain ⟨hlt, hcnt, -⟩ := found_spec ha (by omega) hlen hres
      have hset : (Bitmap.set (s.blocks (i + a.bitmapBlockId)) retval).length = sz := by
        rw [Bitmap.length_set, hlen]
      apply wp_bind_ok (ignore_apply (writeBlock_apply hs (by omega) hset))
      rw [wp_pure]
      simp only
      intro b hb
      rw [Nat.mul_assoc] at hb
      refine hbefore retval (fun j hj => ?_) b hb ?_ (by omega)
      · rw [hres, Option.mem_some] at hj
        exact Nat.le_of_eq hj
      · rw [Nat.succ_mul]
        omega

theorem allocate_first (hs : s.maybeFailed = false) :
    wp a.allocate (fun r _ => match r with
      | .ok b => ∀ b' < b, a.used s b' = true
      | .error _ => ∀ b < cnt, a.used s b = true) s :=
  allocateFrom_first ha hs _ _ (Nat.zero_add _) fun b hb => by
    rw [Nat.zero_mul] at hb
    omega

theorem deallocate_result (hb : b < cnt) (hu : a.used s b = true) :
    ∃ t, a.deallocate b s = some (.ok (), t) ∧
      a.Marks s t (if s.fails a.bitmapBlockId then a.used s else Function.update (a.used s) b false) := by
  have hidx := Fits.index_lt ha hb
  have hroom := ha.room
  have hpos : 0 < sz * bitsPerByte := Nat.mul_pos ha.sz_pos (by decide)
  have hlen := s.length_blocks (b / (sz * bitsPerByte) + a.bitmapBlockId)
  have hclear : (Bitmap.clear (s.blocks (b / (sz * bitsPerByte) + a.bitmapBlockId))
      (b % (sz * bitsPerByte))).length = sz := by
    rw [Bitmap.length_clear, hlen]
  have hmod := Nat.mod_lt b hpos
  obtain ⟨t, hrun, hm⟩ := write_marks ha (b / (sz * bitsPerByte)) (b % (sz * bitsPerByte)) hidx hmod _ hclear
    (s := s) false fun j' => by
      rw [Bitmap.check_clear (by rw [hlen]; exact hmod)]
      by_cases hj : j' = b % (sz * bitsPerByte) <;> simp [hj]
  rw [Nat.div_add_mod'] at hm
  refine ⟨t, ?_, hm⟩
  unfold BlockAllocator.deallocate
  rw [if_neg (by omega), bind_ok (readBlock_apply s (by omega)), if_neg]
  · exact hrun
  · unfold BlockAllocator.used at hu
    rw [hu]
    decide

theorem deallocate_spec (hs : s.maybeFailed = false) (hb : b < cnt) (hu : a.used s b = true) :
    ∃ t, a.deallocate b s = some (.ok (), t) ∧ a.Marks s t (Function.update (a.used s) b false) := by
  obtain ⟨t, hrun, hm⟩ := deallocate_result ha hb hu
  rw [if_neg (not_fails hs a.bitmapBlockId)] at hm
  exact ⟨t, hrun, hm⟩

theorem deallocate_refused (hu : b < cnt → a.used s b = false) :
    a.deallocate b s = some (.error .invalidArg, s) := by
  unfold BlockAllocator.deallocate
  by_cases hb : cnt ≤ b
  · rw [if_pos hb]
    rfl
  · have hlt := Nat.lt_of_not_le hb
    have hidx := Fits.index_lt ha hlt
    have hroom := ha.room
    have hbit := hu hlt
    unfold BlockAllocator.used at hbit
    rw [if_neg hb, bind_ok (readBlock_apply s (by omega)), hbit]
    rfl

theorem freeFrom_spec (k i : ℕ) (hk : i + k = a.bitmapBlockCnt) : a.freeFrom k i s =
    some (.ok ((List.range' (i * (sz * bitsPerByte)) (cnt - i * (sz * bitsPerByte))).countP
      fun b => !a.used s b), s) := by
  have hpos : 0 < sz * bitsPerByte := Nat.mul_pos ha.sz_pos (by decide)
  have hcov := ha.covers
  have hlast := ha.last_le
  have hroom := ha.room
  have hused : ∀ i, ∀ j < sz * bitsPerByte, a.used s (i * (sz * bitsPerByte) + j) =
      Bitmap.check (s.blocks (i + a.bitmapBlockId)) j := by
    intro i j hj
    unfold BlockAllocator.used
    rw [Nat.mul_comm i, Nat.mul_add_div hpos, Nat.div_eq_of_lt hj, Nat.add_zero, Nat.mul_add_mod,
      Nat.mod_eq_of_lt hj]
  induction k generalizing i with
  | zero =>
    have hend : cnt ≤ i * (sz * bitsPerByte) := by
      rw [Nat.add_zero] at hk
      calc cnt = (a.bitmapBlockCnt - 1) * (sz * bitsPerByte) + a.lastBlockNum := hcov.symm
        _ ≤ (a.bitmapBlockCnt - 1) * (sz * bitsPerByte) + sz * bitsPerByte := by omega
        _ = (a.bitmapBlockCnt - 1 + 1) * (sz * bitsPerByte) := (Nat.succ_mul _ _).symm
        _ = i * (sz * bitsPerByte) := by rw [Nat.sub_add_cancel ha.cnt_pos, hk]
    rw [BlockAllocator.freeFrom, pure_apply, Nat.sub_eq_zero_of_le hend]
    rfl
  | succ k ih =>
    rw [BlockAllocator.freeFrom, bind_ok (readBlock_apply s (by omega)), bind_ok (ih (i + 1) (by omega)),
      pure_apply]
    by_cases hi : i = a.bitmapBlockCnt - 1
    · -- the last block, of which only the first bits are used
      rw [← hi] at hcov
      rw [if_pos hi, Bitmap.countZerosToBound, countP_range (a.used s) fun j hj => hused i j (by omega),
        show cnt - i * (sz * bitsPerByte) = a.lastBlockNum by omega,
        show cnt - (i + 1) * (sz * bitsPerByte) = 0 by rw [Nat.succ_mul]; omega]
      rfl
    · have hle : (i + 1) * (sz * bitsPerByte) ≤ cnt := by
        calc (i + 1) * (sz * bitsPerByte) ≤ (a.bitmapBlockCnt - 1) * (sz * bitsPerByte) :=
              Nat.mul_le_mul_right _ (by omega)
          _ ≤ cnt := by omega
      rw [if_neg hi, Bitmap.countZeros_eq, s.length_blocks, countP_range (a.used s) (hused i), ← List.countP_append,
        Nat.succ_mul, List.range'_append_1]
      rw [Nat.succ_mul] at hle
      rw [show sz * bitsPerByte + (cnt - (i * (sz * bitsPerByte) + sz * bitsPerByte)) =
        cnt - i * (sz * bitsPerByte) by omega]

theorem freeBlockCnt_spec : a.freeBlockCnt s =
    some (.ok ((List.range cnt).countP fun b => !a.used s b), s) := by
  rw [BlockAllocator.freeBlockCnt, freeFrom_spec ha _ 0 (Nat.zero_add _), Nat.zero_mul, Nat.sub_zero,
    List.range_eq_range']

omit ha in
theorem Marks.trans {t u : BlockManager sz cnt logCnt} {f g : ℕ → Bool} (h : a.Marks s t f)
    (h' : a.Marks t u g) : a.Marks s u g where
  works := h'.works.trans h.works
  frame i hi := (h'.frame i hi).trans (h.frame i hi)
  bits := h'.bits

omit ha in
theorem marks_pending (j : ℕ) (hj : j < a.bitmapBlockCnt) (buffer : List UInt8)
    (hlen : buffer.length = sz) {u : ℕ → Bool}
    (hu : ∀ b < cnt, (if b / (sz * bitsPerByte) = j then
      Bitmap.check buffer (b % (sz * bitsPerByte)) else a.used s b) = u b) :
    a.Marks s (s.setBlock (j + a.bitmapBlockId) buffer hlen) u where
  works := rfl
  frame i hi := by
    rw [setBlock_blocks, Function.update_of_ne (by omega)]
  bits b hb := by
    rw [← hu b hb]
    unfold BlockAllocator.used
    rw [setBlock_blocks]
    split
    case isTrue heq => rw [heq, Function.update_self]
    case isFalse hne => rw [Function.update_of_ne (by omega)]

theorem markReserved_spec (hs : s.maybeFailed = false) (k i j : ℕ) (buffer : List UInt8)
    (hlen : buffer.length = sz) (hk : i + k = a.bitmapBlockCnt + a.bitmapBlockId)
    (hj : j = (i - 1) / (sz * bitsPerByte))
    (hu : ∀ b < cnt, (if b / (sz * bitsPerByte) = j then
      Bitmap.check buffer (b % (sz * bitsPerByte)) else a.used s b) = decide (b < i)) :
    ∃ t, a.markReserved k i (j + a.bitmapBlockId) buffer s = some (.ok (), t) ∧
      a.Marks s t fun b => decide (b < a.bitmapBlockCnt + a.bitmapBlockId) := by
  have hpos : 0 < sz * bitsPerByte := Nat.mul_pos ha.sz_pos (by decide)
  have hroom := ha.room
  have hcnt := ha.cnt_pos
  have hjlt : j < a.bitmapBlockCnt := by
    rw [hj]
    exact Fits.index_lt ha (by omega)
  induction k generalizing s i j buffer with
  | zero =>
    refine ⟨_, ignore_apply (writeBlock_apply hs (by omega) hlen), ?_⟩
    rw [Nat.add_zero] at hk
    rw [← hk]
    exact marks_pending j hjlt buffer hlen hu
  | succ k ih =>
    have hi : i / (sz * bitsPerByte) < a.bitmapBlockCnt := Fits.index_lt ha (by omega)
    have hmod := Nat.mod_lt i hpos
    unfold BlockAllocator.markReserved
    simp only
    by_cases hne : i / (sz * bitsPerByte) + a.bitmapBlockId ≠ j + a.bitmapBlockId
    · -- bit `i` opens a new block
      have hzero : i % (sz * bitsPerByte) = 0 := by
        by_contra hnz
        apply hne
        rw [hj]
        congr 1
        have hdm := Nat.div_add_mod i (sz * bitsPerByte)
        symm
        rw [Nat.div_eq_iff hpos]
        constructor
        · rw [Nat.mul_comm]; omega
        · rw [Nat.mul_comm]; omega
      rw [if_pos hne]
      have hm := marks_pending j hjlt buffer hlen hu
      rw [bind_ok (ignore_apply (writeBlock_apply hs (by omega) hlen))]
      obtain ⟨t, ht, hmt⟩ := ih (s := s.setBlock (j + a.bitmapBlockId) buffer hlen) hs (i + 1)
        (i / (sz * bitsPerByte)) (Bitmap.set (List.replicate sz 0) (i % (sz * bitsPerByte)))
        (by rw [Bitmap.length_set, List.length_replicate]) (by omega) (by rw [Nat.add_sub_cancel])
        (by
          intro b hb
          split
          case isTrue heq =>
            rw [Bitmap.check_set (by rw [List.length_replicate]; exact hmod), Bitmap.check_zeros,
              Bool.or_false]
            apply decide_eq_decide.mpr
            have hb' := Nat.div_add_mod b (sz * bitsPerByte)
            have hi' := Nat.div_add_mod i (sz * bitsPerByte)
            rw [heq] at hb'
            omega
          case isFalse hblk =>
            rw [hm.bits b hb]
            apply decide_eq_decide.mpr
            have hbi : b ≠ i := by
              rintro rfl
              exact hblk rfl
            omega) hi
      exact ⟨t, ht, Marks.trans hm hmt⟩
    · rw [if_neg hne]
      have heq : i / (sz * bitsPerByte) = j := by omega
      obtain ⟨t, ht, hmt⟩ := ih hs (i + 1) j (Bitmap.set buffer (i % (sz * bitsPerByte)))
        (by rw [Bitmap.length_set, hlen]) (by omega) (by rw [Nat.add_sub_cancel, heq])
        (by
          intro b hb
          have hbit := hu b hb
          split at hbit
          case isTrue hblk =>
            rw [if_pos hblk, Bitmap.check_set (by rw [hlen]; exact hmod), hbit, ← Bool.decide_or]
            apply decide_eq_decide.mpr
            have hb' := Nat.div_add_mod b (sz * bitsPerByte)
            have hi' := Nat.div_add_mod i (sz * bitsPerByte)
            rw [hblk] at hb'
            rw [heq] at hi'
            omega
          case isFalse hblk =>
            rw [if_neg hblk, hbit]
            apply decide_eq_decide.mpr
            have hbi : b ≠ i := by
              rintro rfl
              exact hblk heq
            omega) hjlt
      exact ⟨t, ht, hmt⟩

end Spec

theorem zeroBlocks_spec (s : BlockManager sz cnt logCnt) (k i : ℕ) (hk : i + k ≤ cnt) :
    ∃ t : BlockManager sz cnt logCnt, zeroBlocks k i s = some (.ok (), t) ∧
      t.maybeFailed = s.maybeFailed ∧ t.writeFailCnt = s.writeFailCnt ∧
      ∀ b, t.blocks b = if i ≤ b ∧ b < i + k then List.replicate sz 0 else s.blocks b := by
  induction k generalizing s i with
  | zero => exact ⟨s, rfl, rfl, rfl, fun b => by rw [if_neg (by omega)]⟩
  | succ k ih =>
    obtain ⟨t, ht, hwork, hcnt, hblocks⟩ :=
      ih (s.setBlock i (List.replicate sz 0) List.length_replicate) (i + 1) (by omega)
    refine ⟨t, ?_, hwork, hcnt, fun b => ?_⟩
    · rw [zeroBlocks, bind_ok (zeroBlock_apply (by omega)), ht]
    · rw [hblocks, setBlock_blocks]
      by_cases hb : b = i
      · rw [hb, if_neg (by omega), if_pos (by omega), Function.update_self]
      · rw [Function.update_of_ne hb]
        by_cases hr : i + 1 ≤ b ∧ b < i + 1 + k
        · rw [if_pos hr, if_pos (by omega)]
        · rw [if_neg hr, if_neg (by omega)]

theorem fields_fits {bitmapBlockId : ℕ} (hsz : 0 < sz)
    (hcnt : 0 < (BlockAllocator.fields sz cnt bitmapBlockId).bitmapBlockCnt)
    (hroom : (BlockAllocator.fields sz cnt bitmapBlockId).bitmapBlockCnt + bitmapBlockId ≤ cnt) :
    (BlockAllocator.fields sz cnt bitmapBlockId).Fits sz cnt := by
  have hpos : 0 < sz * bitsPerByte := Nat.mul_pos hsz (by decide)
  have hdm := Nat.div_add_mod cnt (sz * bitsPerByte)
  have hlt := Nat.mod_lt cnt hpos
  refine ⟨hsz, hcnt, ?_, ?_, hroom⟩
  · unfold BlockAllocator.fields
    simp only
    split <;> omega
  · unfold BlockAllocator.fields at hcnt ⊢
    simp only at hcnt ⊢
    split at hcnt
    case isTrue hne =>
      rw [if_pos hne, if_pos hne, Nat.add_sub_cancel, Nat.mul_comm]
      exact hdm
    case isFalse heq =>
      rw [if_neg heq, if_neg heq, Nat.sub_mul, Nat.one_mul, Nat.sub_add_cancel, Nat.mul_comm]
      · omega
      · exact Nat.le_mul_of_pos_left _ hcnt

theorem create_spec {bitmapBlockId : ℕ} {s : BlockManager sz cnt logCnt} (hs : s.maybeFailed = false)
    (hsz : 0 < sz) (hcnt : 0 < (BlockAllocator.fields sz cnt bitmapBlockId).bitmapBlockCnt)
    (hroom : (BlockAllocator.fields sz cnt bitmapBlockId).bitmapBlockCnt + bitmapBlockId ≤ cnt) :
    ∃ t, BlockAllocator.create bitmapBlockId true s =
        some (.ok (BlockAllocator.fields sz cnt bitmapBlockId), t) ∧
      (BlockAllocator.fields sz cnt bitmapBlockId).Marks s t fun b =>
        decide (b < (BlockAllocator.fields sz cnt bitmapBlockId).bitmapBlockCnt + bitmapBlockId) := by
  have ha := fields_fits hsz hcnt hroom
  have hid : (BlockAllocator.fields sz cnt bitmapBlockId).bitmapBlockId = bitmapBlockId := rfl
  obtain ⟨t, ht, hwork, -, hblocks⟩ := zeroBlocks_spec s
    (BlockAllocator.fields sz cnt bitmapBlockId).bitmapBlockCnt bitmapBlockId (by omega)
  have hzero : ∀ b < cnt, (BlockAllocator.fields sz cnt bitmapBlockId).used t b = false := by
    intro b hb
    have hidx := Fits.index_lt ha hb
    unfold BlockAllocator.used
    generalize b / (sz * bitsPerByte) = q at hidx ⊢
    rw [hblocks, hid, if_pos (by omega), Bitmap.check_zeros]
  obtain ⟨u, hu, hm⟩ := markReserved_spec ha (hwork.trans hs)
    ((BlockAllocator.fields sz cnt bitmapBlockId).bitmapBlockCnt + bitmapBlockId) 0 0
    (List.replicate sz 0) List.length_replicate (by rw [hid]; omega) (by simp) (by
      intro b hb
      rw [Bitmap.check_zeros, hzero b hb, ite_self]
      simp)
  refine ⟨u, ?_, hm.works.trans hwork, fun i hi => ?_, hm.bits⟩
  · unfold BlockAllocator.create
    simp only [hid, if_true]
    rw [require_of hcnt, bind_ok (pure_apply ()), require_of ha.room, bind_ok (pure_apply ()),
      bind_ok ht]
    rw [hid, Nat.zero_add] at hu
    rw [bind_ok hu, pure_apply]
  · rw [hm.frame i hi, hblocks, if_neg]
    rw [hid] at hi
    omega

end Chfs.Block.Allocator
