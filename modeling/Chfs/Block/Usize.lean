import Chfs.Block.Allocator

namespace Chfs.Block.Usize

open Lib.Effect Manager Allocator

variable {sz cnt logCnt : ℕ}

def totalBits (sz : ℕ) : ℕ := sz * bitsPerByte % 2 ^ 32

def findFirstFreeWBound (data : List UInt8) (bits : ℕ) : Option ℕ :=
  let refinedBits := min (totalBits data.length) bits
  let numWords := refinedBits / 64
  (Bitmap.findWord data numWords 0).or (Bitmap.findBit data (bits % 64) (numWords * 64))

def findFirstFree (data : List UInt8) : Option ℕ :=
  findFirstFreeWBound data (totalBits data.length)

def countOnes (data : List UInt8) : ℕ :=
  (List.range (totalBits data.length)).countP fun i => Bitmap.check data i

def countZeros (data : List UInt8) : ℕ := totalBits data.length - countOnes data

def fields (sz cnt bitmapBlockId : ℕ) : BlockAllocator :=
  let totalBitmapBlock := if cnt % totalBits sz ≠ 0 then cnt / totalBits sz + 1
    else cnt / totalBits sz
  { bitmapBlockId := bitmapBlockId
    bitmapBlockCnt := totalBitmapBlock
    lastBlockNum := if totalBitmapBlock * totalBits sz = cnt then totalBits sz
      else cnt % totalBits sz }

def markReserved (a : BlockAllocator) : ℕ → ℕ → ℕ → List UInt8 → Bm sz cnt logCnt Unit
  | 0, _, curBlockId, buffer => ignore (writeBlock curBlockId buffer)
  | k + 1, i, curBlockId, buffer => do
    let blockId := i / totalBits sz + a.bitmapBlockId
    let blockIdx := i % totalBits sz
    if blockId ≠ curBlockId then
      ignore (writeBlock curBlockId buffer)
      markReserved a k (i + 1) blockId (Bitmap.set (List.replicate sz 0) blockIdx)
    else markReserved a k (i + 1) curBlockId (Bitmap.set buffer blockIdx)

def create (bitmapBlockId : ℕ) (willInitialize : Bool) : Bm sz cnt logCnt BlockAllocator := do
  require (totalBits sz ≠ 0)
  let a := fields sz cnt bitmapBlockId
  require (0 < a.bitmapBlockCnt)
  require (a.bitmapBlockCnt + a.bitmapBlockId ≤ cnt)
  if willInitialize then
    zeroBlocks a.bitmapBlockCnt a.bitmapBlockId
    markReserved a (a.bitmapBlockCnt + a.bitmapBlockId) 0 a.bitmapBlockId (List.replicate sz 0)
  pure a

def allocateFrom (a : BlockAllocator) : ℕ → ℕ → Bm sz cnt logCnt ℕ
  | 0, _ => refuse .outOfResource
  | k + 1, i => do
    let buffer ← readBlock (i + a.bitmapBlockId)
    let res := if i = a.bitmapBlockCnt - 1 then findFirstFreeWBound buffer a.lastBlockNum
      else findFirstFree buffer
    match res with
    | some retval =>
      ignore (writeBlock (i + a.bitmapBlockId) (Bitmap.set buffer retval))
      pure (i * sz * bitsPerByte % 2 ^ 32 + retval)
    | none => allocateFrom a k (i + 1)

def allocate (a : BlockAllocator) : Bm sz cnt logCnt ℕ := allocateFrom a a.bitmapBlockCnt 0

def deallocate (a : BlockAllocator) (blockId : ℕ) : Bm sz cnt logCnt Unit := do
  if cnt ≤ blockId then refuse .invalidArg else
    let bitmapBlockIdx := blockId / totalBits sz
    let bitIdx := blockId % totalBits sz
    let buffer ← readBlock (bitmapBlockIdx + a.bitmapBlockId)
    if !Bitmap.check buffer bitIdx then refuse .invalidArg else
      ignore (writeBlock (bitmapBlockIdx + a.bitmapBlockId) (Bitmap.clear buffer bitIdx))

def freeFrom (a : BlockAllocator) : ℕ → ℕ → Bm sz cnt logCnt ℕ
  | 0, _ => pure 0
  | k + 1, i => do
    let buffer ← readBlock (i + a.bitmapBlockId)
    let free := if i = a.bitmapBlockCnt - 1 then Bitmap.countZerosToBound buffer a.lastBlockNum
      else countZeros buffer
    let rest ← freeFrom a k (i + 1)
    pure ((free + rest) % 2 ^ 32)

def freeBlockCnt (a : BlockAllocator) : Bm sz cnt logCnt ℕ := freeFrom a a.bitmapBlockCnt 0

/-- The devices of the allocator: below 4 GiB, with blocks of whole words whose
number of bits is not 0 as a `usize`. -/
structure Geometry (sz cnt : ℕ) : Prop where
  words : sz % 8 = 0
  small : cnt * sz < 2 ^ 32
  bits : totalBits sz ≠ 0

structure Narrow (sz cnt : ℕ) : Prop where
  small : cnt * sz < 2 ^ 32
  bits : totalBits sz ≠ 0

theorem Geometry.narrow (hg : Geometry sz cnt) : Narrow sz cnt := ⟨hg.small, hg.bits⟩

section Narrow

variable (hg : Narrow sz cnt)
include hg

theorem Narrow.sz_pos : 0 < sz := by
  apply Nat.pos_of_ne_zero
  rintro rfl
  exact hg.bits rfl

theorem Narrow.cnt_lt : cnt < 2 ^ 32 := by
  have h1 := Nat.le_mul_of_pos_right cnt hg.sz_pos
  have h2 := hg.small
  omega

theorem Narrow.width : totalBits sz = sz * bitsPerByte ∨
    (cnt < totalBits sz ∧ cnt < sz * bitsPerByte) := by
  have hsmall := hg.small
  have hbits := hg.bits
  unfold totalBits bitsPerByte at *
  by_cases hlt : sz * 8 < 2 ^ 32
  · exact Or.inl (Nat.mod_eq_of_lt hlt)
  · have hcnt : cnt < 8 := by
      by_contra hge
      have := Nat.mul_le_mul (Nat.le_of_not_lt hge) (Nat.le_refl sz)
      omega
    exact Or.inr ⟨by omega, by omega⟩

theorem Narrow.index_eq {b : ℕ} (hb : b < cnt) :
    b / totalBits sz = b / (sz * bitsPerByte) ∧ b % totalBits sz = b % (sz * bitsPerByte) := by
  obtain heq | ⟨h1, h2⟩ := hg.width
  · rw [heq]
    exact ⟨rfl, rfl⟩
  · rw [Nat.div_eq_of_lt (by omega), Nat.div_eq_of_lt (by omega), Nat.mod_eq_of_lt (by omega),
      Nat.mod_eq_of_lt (by omega)]
    exact ⟨rfl, rfl⟩

theorem fields_eq (hcnt : 0 < cnt) (bitmapBlockId : ℕ) :
    fields sz cnt bitmapBlockId = BlockAllocator.fields sz cnt bitmapBlockId := by
  unfold fields BlockAllocator.fields
  obtain heq | ⟨h1, h2⟩ := hg.width
  · have hdm := Nat.div_add_mod' cnt (sz * bitsPerByte)
    rw [heq]
    simp only
    split
    case isTrue hne =>
      rw [if_neg]
      rw [Nat.succ_mul]
      have hpos : 0 < sz * bitsPerByte := Nat.mul_pos hg.sz_pos (by decide)
      have := Nat.mod_lt cnt hpos
      omega
    case isFalse hz => rw [if_pos (by omega)]
  · rw [Nat.mod_eq_of_lt h1, Nat.mod_eq_of_lt h2, Nat.div_eq_of_lt h1, Nat.div_eq_of_lt h2]
    have hne : cnt ≠ 0 := by omega
    have hlast : (0 + 1) * totalBits sz ≠ cnt := by omega
    simp only [hne, hlast, ne_eq, not_false_iff, if_true, if_false]

theorem markReserved_eq (a : BlockAllocator) (k i curBlockId : ℕ) (buffer : List UInt8)
    (hk : i + k ≤ cnt) :
    (markReserved a k i curBlockId buffer : Bm sz cnt logCnt Unit) =
      a.markReserved k i curBlockId buffer := by
  induction k generalizing i curBlockId buffer with
  | zero => rfl
  | succ k ih =>
    obtain ⟨hdiv, hmod⟩ := hg.index_eq (b := i) (by omega)
    unfold markReserved BlockAllocator.markReserved
    simp only [hdiv, hmod, ih (i + 1) _ _ (by omega)]

theorem create_eq (hcnt : 0 < cnt) (bitmapBlockId : ℕ) (willInitialize : Bool)
    (s : BlockManager sz cnt logCnt) :
    create bitmapBlockId willInitialize s = BlockAllocator.create bitmapBlockId willInitialize s := by
  unfold create BlockAllocator.create
  rw [require_of hg.bits, bind_ok (pure_apply ()), fields_eq hg hcnt]
  simp only
  by_cases h1 : 0 < (BlockAllocator.fields sz cnt bitmapBlockId).bitmapBlockCnt
  · rw [require_of h1, bind_ok (pure_apply ()), bind_ok (pure_apply ())]
    by_cases h2 : (BlockAllocator.fields sz cnt bitmapBlockId).bitmapBlockCnt +
        (BlockAllocator.fields sz cnt bitmapBlockId).bitmapBlockId ≤ cnt
    · rw [require_of h2, bind_ok (pure_apply ()), bind_ok (pure_apply ()),
        markReserved_eq hg _ _ _ _ _ (by omega)]
    · unfold require
      rw [if_neg h2]
      rfl
  · unfold require
    rw [if_neg h1]
    rfl

variable {a : BlockAllocator} (ha : a.Fits sz cnt) {s : BlockManager sz cnt logCnt}
include ha

theorem totalBits_eq {i : ℕ} (hi : i < a.bitmapBlockCnt) (hne : i ≠ a.bitmapBlockCnt - 1) :
    totalBits sz = sz * bitsPerByte := by
  obtain heq | ⟨h1, h2⟩ := hg.width
  · exact heq
  · have hcov := ha.covers
    have hle := Nat.le_mul_of_pos_left (sz * bitsPerByte) (by omega : 0 < a.bitmapBlockCnt - 1)
    omega

theorem findFirstFreeWBound_eq {data : List UInt8} (hlen : data.length = sz) :
    findFirstFreeWBound data a.lastBlockNum = Bitmap.findFirstFreeWBound data a.lastBlockNum := by
  have hlast := ha.last_le
  have hcov := ha.covers
  have hmin : min (totalBits sz) a.lastBlockNum = a.lastBlockNum := by
    obtain heq | ⟨h1, h2⟩ := hg.width
    · rw [heq]
      exact Nat.min_eq_right hlast
    · exact Nat.min_eq_right (by omega)
  unfold findFirstFreeWBound Bitmap.findFirstFreeWBound
  rw [hlen, hmin, Nat.min_eq_right hlast]

theorem base_eq {i : ℕ} (hi : i < a.bitmapBlockCnt) :
    i * sz * bitsPerByte % 2 ^ 32 = i * sz * bitsPerByte := by
  apply Nat.mod_eq_of_lt
  have hcov := ha.covers
  have hcnt := hg.cnt_lt
  have hle : i * (sz * bitsPerByte) ≤ (a.bitmapBlockCnt - 1) * (sz * bitsPerByte) :=
    Nat.mul_le_mul_right _ (by omega)
  rw [Nat.mul_assoc]
  omega

theorem allocateFrom_eq (k i : ℕ) (hk : i + k = a.bitmapBlockCnt) :
    allocateFrom a k i s = a.allocateFrom k i s := by
  induction k generalizing i with
  | zero => rfl
  | succ k ih =>
    have hroom := ha.room
    have hlen := s.length_blocks (i + a.bitmapBlockId)
    rw [allocateFrom, BlockAllocator.allocateFrom, bind_ok (readBlock_apply s (by omega)),
      bind_ok (readBlock_apply s (by omega)), findFirstFreeWBound_eq hg ha hlen,
      base_eq hg ha (by omega)]
    have hfind : i ≠ a.bitmapBlockCnt - 1 →
        findFirstFree (s.blocks (i + a.bitmapBlockId)) =
          Bitmap.findFirstFree (s.blocks (i + a.bitmapBlockId)) := by
      intro hne
      unfold findFirstFree findFirstFreeWBound Bitmap.findFirstFree Bitmap.findFirstFreeWBound
      rw [hlen, totalBits_eq hg ha (by omega) hne]
    have hres : (if i = a.bitmapBlockCnt - 1 then
          Bitmap.findFirstFreeWBound (s.blocks (i + a.bitmapBlockId)) a.lastBlockNum
        else findFirstFree (s.blocks (i + a.bitmapBlockId))) =
        if i = a.bitmapBlockCnt - 1 then
          Bitmap.findFirstFreeWBound (s.blocks (i + a.bitmapBlockId)) a.lastBlockNum
        else Bitmap.findFirstFree (s.blocks (i + a.bitmapBlockId)) := by
      split
      case isTrue => rfl
      case isFalse hne => exact hfind hne
    simp only [hres]
    generalize (if i = a.bitmapBlockCnt - 1 then
        Bitmap.findFirstFreeWBound (s.blocks (i + a.bitmapBlockId)) a.lastBlockNum
      else Bitmap.findFirstFree (s.blocks (i + a.bitmapBlockId))) = res
    cases res with
    | some retval => rfl
    | none => exact ih (i + 1) (by omega)

theorem allocate_eq : allocate a s = a.allocate s := allocateFrom_eq hg ha _ _ (Nat.zero_add _)

omit ha in
theorem deallocate_eq (a : BlockAllocator) (b : ℕ) (s : BlockManager sz cnt logCnt) :
    deallocate a b s = a.deallocate b s := by
  unfold deallocate BlockAllocator.deallocate
  by_cases hb : cnt ≤ b
  · rw [if_pos hb, if_pos hb]
  · obtain ⟨hdiv, hmod⟩ := hg.index_eq (Nat.lt_of_not_le hb)
    rw [if_neg hb, if_neg hb, hdiv, hmod]

theorem freeFrom_eq (k i : ℕ) (hk : i + k = a.bitmapBlockCnt) :
    freeFrom a k i s = a.freeFrom k i s := by
  induction k generalizing i with
  | zero => rfl
  | succ k ih =>
    have hroom := ha.room
    have hlen := s.length_blocks (i + a.bitmapBlockId)
    have hspec := freeFrom_spec ha (s := s) (k + 1) i hk
    have hrest := freeFrom_spec ha (s := s) k (i + 1) (by omega)
    have hzeros : (if i = a.bitmapBlockCnt - 1 then
          Bitmap.countZerosToBound (s.blocks (i + a.bitmapBlockId)) a.lastBlockNum
        else countZeros (s.blocks (i + a.bitmapBlockId))) =
        if i = a.bitmapBlockCnt - 1 then
          Bitmap.countZerosToBound (s.blocks (i + a.bitmapBlockId)) a.lastBlockNum
        else Bitmap.countZeros (s.blocks (i + a.bitmapBlockId)) := by
      split
      case isTrue => rfl
      case isFalse hne =>
        unfold countZeros countOnes Bitmap.countZeros Bitmap.countOnes
        rw [hlen, totalBits_eq hg ha (by omega) hne]
    -- the sum counts blocks of the device
    rw [BlockAllocator.freeFrom, bind_ok (readBlock_apply s (by omega)), bind_ok hrest, pure_apply,
      Option.some.injEq, Prod.mk.injEq, Except.ok.injEq] at hspec
    have hle := (List.countP_le_length (p := fun b => !a.used s b)
      (l := List.range' (i * (sz * bitsPerByte)) (cnt - i * (sz * bitsPerByte))))
    rw [List.length_range'] at hle
    have hcnt := hg.cnt_lt
    rw [freeFrom, BlockAllocator.freeFrom, bind_ok (readBlock_apply s (by omega)),
      bind_ok (readBlock_apply s (by omega)), bind_ok ((ih (i + 1) (by omega)).trans hrest),
      bind_ok hrest, pure_apply, pure_apply, hzeros, Nat.mod_eq_of_lt]
    rw [hspec.1]
    omega

theorem freeBlockCnt_eq : freeBlockCnt a s = a.freeBlockCnt s :=
  freeFrom_eq hg ha _ _ (Nat.zero_add _)

end Narrow

end Chfs.Block.Usize
