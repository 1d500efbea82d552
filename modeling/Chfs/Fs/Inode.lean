import Chfs.Block.Allocator

/-! The inode of a file (`metadata/inode.h`), the inode table and the inode
bitmap (`metadata/manager.cc`). -/

namespace Chfs.Fs.Inode

open Lib.Effect Lib.Bytes Block.Manager Block.Allocator

def invalidBlockId : ℕ := 0

def invalidInodeId : ℕ := 0

/-- `sizeof(Inode)`, packed: type, three times, size, block size and number of
block ids. The block ids follow. -/
def sizeofInode : ℕ := 44

def sizeofBlockId : ℕ := 8

def getSize (inode : List UInt8) : ℕ := getField inode 28 8

def setSize (inode : List UInt8) (size : ℕ) : List UInt8 := setField inode 28 8 size

def getBlockSize (inode : List UInt8) : ℕ := getField inode 36 4

def getNblocks (inode : List UInt8) : ℕ := getField inode 40 4

def getDirectBlockNum (inode : List UInt8) : ℕ := (getNblocks inode + (2 ^ 32 - 1)) % 2 ^ 32

def isDirectBlock (inode : List UInt8) (idx : ℕ) : Bool := idx < getDirectBlockNum inode

def getBlock (inode : List UInt8) (idx : ℕ) : ℕ :=
  getField inode (sizeofInode + sizeofBlockId * idx) sizeofBlockId

def setBlockDirect (inode : List UInt8) (idx bid : ℕ) : List UInt8 :=
  setField inode (sizeofInode + sizeofBlockId * idx) sizeofBlockId bid

def maxFileSzSupported (inode : List UInt8) : ℕ :=
  getBlockSize inode / sizeofBlockId * getBlockSize inode +
    getDirectBlockNum inode * getBlockSize inode

def setAllTime (inode : List UInt8) (t : ℕ) : List UInt8 :=
  setField (setField (setField inode 4 8 t) 12 8 t) 20 8 t

/-- `type`, an `InodeType`: 1 is `FILE` and 2 is `Directory`. -/
def getType (inode : List UInt8) : ℕ := getField inode 0 4

structure FileAttr where
  atime : ℕ
  mtime : ℕ
  ctime : ℕ
  size : ℕ
  deriving DecidableEq, Repr

def innerAttr (inode : List UInt8) : FileAttr :=
  ⟨getField inode 4 8, getField inode 12 8, getField inode 20 8, getSize inode⟩

structure InodeManager where
  maxInodeSupported : ℕ
  nTableBlocks : ℕ
  nBitmapBlocks : ℕ
  deriving DecidableEq, Repr

/-- The smallest number of blocks with `per` items each that hold `n` items. -/
def blocksFor (n per : ℕ) : ℕ := if n / per * per < n then n / per + 1 else n / per

def InodeManager.fields (sz maxInodeSupported : ℕ) : InodeManager :=
  let nBitmapBlocks := blocksFor maxInodeSupported (sz * bitsPerByte)
  let maxInodeSupported := nBitmapBlocks * bitsPerByte * sz
  { maxInodeSupported := maxInodeSupported
    nTableBlocks := blocksFor maxInodeSupported (sz / sizeofBlockId)
    nBitmapBlocks := nBitmapBlocks }

def InodeManager.reservedBlocks (im : InodeManager) : ℕ :=
  (1 + im.nTableBlocks + im.nBitmapBlocks) % 2 ^ 32

variable {sz cnt logCnt : ℕ}

def InodeManager.create (maxInodeSupported : ℕ) : Bm sz cnt logCnt InodeManager := do
  let im := InodeManager.fields sz maxInodeSupported
  zeroBlocks im.nTableBlocks 1
  zeroBlocks im.nBitmapBlocks (1 + im.nTableBlocks)
  pure im

def InodeManager.setTable (_im : InodeManager) (idx bid : ℕ) : Bm sz cnt logCnt Unit := do
  let inodePerBlock := sz / sizeofBlockId
  let iblockId := 1 + idx / inodePerBlock
  let iblockOffset := idx % inodePerBlock
  let buffer ← readBlock iblockId
  writeBlock iblockId (setField buffer (sizeofBlockId * iblockOffset) sizeofBlockId bid)

def InodeManager.allocateFrom (im : InodeManager) (bid : ℕ) :
    ℕ → ℕ → List UInt8 → Bm sz cnt logCnt ℕ
  | 0, _, _ => refuse .outOfResource
  | k + 1, count, buffer =>
    match Bitmap.findFirstFree buffer with
    | some freeIdx => do
      writeBlock (1 + im.nTableBlocks + count) (Bitmap.set buffer freeIdx)
      let idx := count * (sz * bitsPerByte) + freeIdx
      im.setTable idx bid
      pure (idx + 1)
    | none => do
      let buffer ← readBlock (1 + im.nTableBlocks + (count + 1))
      im.allocateFrom bid k (count + 1) buffer

def InodeManager.allocateInode (im : InodeManager) (bid : ℕ) : Bm sz cnt logCnt ℕ := do
  let buffer ← readBlock (1 + im.nTableBlocks)
  im.allocateFrom bid im.nBitmapBlocks 0 buffer

/-- The block of an inode. The index of the id 0 wraps around: the entry then
read is the last word of block 0. -/
def InodeManager.get (_im : InodeManager) (id : ℕ) : Bm sz cnt logCnt ℕ :=
  if id = 0 then do
    let buffer ← readBlock 0
    pure (getField buffer (sz - sizeofBlockId) sizeofBlockId)
  else do
    let inodePerBlock := sz / sizeofBlockId
    let buffer ← readBlock (1 + (id - 1) / inodePerBlock)
    pure (getField buffer (sizeofBlockId * ((id - 1) % inodePerBlock)) sizeofBlockId)

def InodeManager.readInode (im : InodeManager) (id : ℕ) : Bm sz cnt logCnt (ℕ × List UInt8) := do
  if (im.maxInodeSupported + (2 ^ 64 - 1)) % 2 ^ 64 ≤ id then refuse .invalidArg else
    let blockId ← im.get id
    if blockId = invalidBlockId then refuse .invalidArg else
      let buffer ← readBlock blockId
      pure (blockId, buffer)

/-- `free_inode`. What it does to the id 0, whose index wraps around, is left
undefined. -/
def InodeManager.freeInode (im : InodeManager) (id : ℕ) : Bm sz cnt logCnt Unit := do
  if (im.maxInodeSupported + (2 ^ 64 - 1)) % 2 ^ 64 ≤ id then refuse .invalidArg else
    require (id ≠ 0)
    im.setTable (id - 1) invalidBlockId
    let ibitBlockId := 1 + im.nTableBlocks + (id - 1) / (sz * bitsPerByte)
    let buffer ← readBlock ibitBlockId
    writeBlock ibitBlockId (Bitmap.clear buffer ((id - 1) % (sz * bitsPerByte)))

def InodeManager.freeFrom (im : InodeManager) : ℕ → ℕ → List UInt8 → Bm sz cnt logCnt ℕ
  | 0, _, _ => pure 0
  | k + 1, count, buffer => do
    let next ← readBlock (1 + im.nTableBlocks + (count + 1))
    let rest ← im.freeFrom k (count + 1) next
    pure (Bitmap.countZeros buffer + rest)

def InodeManager.freeInodeCnt (im : InodeManager) : Bm sz cnt logCnt ℕ := do
  let buffer ← readBlock (1 + im.nTableBlocks)
  im.freeFrom im.nBitmapBlocks 0 buffer

def InodeManager.getAttr (im : InodeManager) (id : ℕ) : Bm sz cnt logCnt FileAttr := do
  let (_, buffer) ← im.readInode id
  pure (innerAttr buffer)

def InodeManager.getType (im : InodeManager) (id : ℕ) : Bm sz cnt logCnt ℕ := do
  let (_, buffer) ← im.readInode id
  pure (Inode.getType buffer)

def InodeManager.getTypeAttr (im : InodeManager) (id : ℕ) : Bm sz cnt logCnt (ℕ × FileAttr) := do
  let (_, buffer) ← im.readInode id
  pure (Inode.getType buffer, innerAttr buffer)

def InodeManager.entry (_im : InodeManager) (bm : BlockManager sz cnt logCnt) (id : ℕ) : ℕ :=
  getField (bm.blocks (1 + (id - 1) / (sz / sizeofBlockId)))
    (sizeofBlockId * ((id - 1) % (sz / sizeofBlockId))) sizeofBlockId

def InodeManager.taken (im : InodeManager) (bm : BlockManager sz cnt logCnt) (id : ℕ) : Bool :=
  Bitmap.check (bm.blocks (1 + im.nTableBlocks + (id - 1) / (sz * bitsPerByte)))
    ((id - 1) % (sz * bitsPerByte))

def InodeManager.Valid (im : InodeManager) (id : ℕ) : Prop := 1 ≤ id ∧ id ≤ im.maxInodeSupported

structure InodeManager.Fits (im : InodeManager) (sz cnt : ℕ) : Prop where
  sz_pos : 0 < sz
  perBlock_pos : 0 < sz / sizeofBlockId
  max_eq : im.maxInodeSupported = im.nBitmapBlocks * (sz * bitsPerByte)
  bitmap_pos : 0 < im.nBitmapBlocks
  table : im.maxInodeSupported ≤ im.nTableBlocks * (sz / sizeofBlockId)
  room : 1 + im.nTableBlocks + im.nBitmapBlocks < cnt
  max_lt : im.maxInodeSupported < 2 ^ 64

/-- The state `t` differs from `s` in the inode table and the inode bitmap only,
where the entries are those of `e` and the bits those of `u`. -/
structure InodeManager.Records (im : InodeManager) (s t : BlockManager sz cnt logCnt) (e : ℕ → ℕ)
    (u : ℕ → Bool) : Prop where
  works : t.maybeFailed = s.maybeFailed
  frame : ∀ b, b = 0 ∨ 1 + im.nTableBlocks + im.nBitmapBlocks ≤ b → t.blocks b = s.blocks b
  entries : ∀ id, im.Valid id → im.entry t id = e id
  bits : ∀ id, im.Valid id → im.taken t id = u id

section Spec

variable {im : InodeManager} (him : im.Fits sz cnt) {s : BlockManager sz cnt logCnt} {id bid : ℕ}
include him

theorem Fits.table_lt (hid : im.Valid id) : (id - 1) / (sz / sizeofBlockId) < im.nTableBlocks := by
  rw [Nat.div_lt_iff_lt_mul him.perBlock_pos]
  have h1 := him.table
  have h2 := hid.1
  have h3 := hid.2
  omega

theorem Fits.bitmap_lt (hid : im.Valid id) : (id - 1) / (sz * bitsPerByte) < im.nBitmapBlocks := by
  have h1 := him.max_eq
  have h2 := hid.1
  have h3 := hid.2
  rw [Nat.div_lt_iff_lt_mul (Nat.mul_pos him.sz_pos (by decide)), ← h1]
  omega

theorem Fits.offset_le (i : ℕ) :
    sizeofBlockId * (i % (sz / sizeofBlockId)) + sizeofBlockId ≤ sz := by
  have h1 := Nat.mod_lt i him.perBlock_pos
  have h2 := Nat.div_mul_le_self sz sizeofBlockId
  rw [← Nat.mul_succ, Nat.mul_comm]
  exact Nat.le_trans (Nat.mul_le_mul_right _ h1) h2

omit him in
theorem Fits.index_inj {k i j : ℕ} (h1 : i / k = j / k) (h2 : i % k = j % k) : i = j := by
  rw [← Nat.div_add_mod i k, ← Nat.div_add_mod j k, h1, h2]

theorem setTable_spec (hs : s.maybeFailed = false) (hid : im.Valid id) (hbid : bid < 2 ^ 64) :
    ∃ t, im.setTable (id - 1) bid s = some (.ok (), t) ∧
      im.Records s t (Function.update (im.entry s) id bid) (im.taken s) := by
  have htab := Fits.table_lt him hid
  have hroom := him.room
  have hoff := Fits.offset_le him (id - 1)
  have hlen := s.length_blocks (1 + (id - 1) / (sz / sizeofBlockId))
  have hset : (setField (s.blocks (1 + (id - 1) / (sz / sizeofBlockId)))
      (sizeofBlockId * ((id - 1) % (sz / sizeofBlockId))) sizeofBlockId bid).length = sz := by
    rw [length_setField (by rw [hlen]; exact hoff), hlen]
  generalize hq : (id - 1) / (sz / sizeofBlockId) = q at htab hlen hset
  refine ⟨s.setBlock (1 + q) _ hset, ?_, rfl, fun b hb => ?_, fun i hi => ?_, fun i hi => ?_⟩
  · unfold InodeManager.setTable
    rw [hq, bind_ok (readBlock_apply s (by omega)), writeBlock_apply hs (by omega) hset]
  · rw [setBlock_blocks, Function.update_of_ne (by omega)]
  · unfold InodeManager.entry
    rw [setBlock_blocks]
    by_cases hblk : (i - 1) / (sz / sizeofBlockId) = q
    · rw [hblk, Function.update_self]
      by_cases hoff' : (i - 1) % (sz / sizeofBlockId) = (id - 1) % (sz / sizeofBlockId)
      · have hii := Fits.index_inj (hblk.trans hq.symm) hoff'
        have h1 := hid.1
        have h2 := hi.1
        rw [hoff', getField_setField_self (by rw [hlen]; exact hoff) hbid, show i = id by omega,
          Function.update_self]
      · have hii : i ≠ id := by
          rintro rfl
          exact hoff' rfl
        rw [Function.update_of_ne hii, hblk, getField_setField_of_disjoint (by rw [hlen]; exact hoff)]
        unfold sizeofBlockId at hoff' ⊢
        omega
    · have hii : i ≠ id := by
        rintro rfl
        exact hblk hq
      rw [Function.update_of_ne (by omega), Function.update_of_ne hii]
  · unfold InodeManager.taken
    rw [setBlock_blocks, Function.update_of_ne]
    generalize (i - 1) / (sz * bitsPerByte) = r
    omega

theorem records_setBlock (hid : im.Valid id) (data : List UInt8) (hlen : data.length = sz) (v : Bool)
    (hdata : ∀ j, Bitmap.check data j = if j = (id - 1) % (sz * bitsPerByte) then v
      else Bitmap.check (s.blocks (1 + im.nTableBlocks + (id - 1) / (sz * bitsPerByte))) j) :
    im.Records s (s.setBlock (1 + im.nTableBlocks + (id - 1) / (sz * bitsPerByte)) data hlen)
      (im.entry s) (Function.update (im.taken s) id v) := by
  have hbit := Fits.bitmap_lt him hid
  generalize hq : (id - 1) / (sz * bitsPerByte) = q at hbit hdata
  refine ⟨rfl, fun b hb => ?_, fun i hi => ?_, fun i hi => ?_⟩
  · rw [setBlock_blocks, Function.update_of_ne (by omega)]
  · have htab := Fits.table_lt him hi
    unfold InodeManager.entry
    rw [setBlock_blocks, Function.update_of_ne]
    generalize (i - 1) / (sz / sizeofBlockId) = r at htab
    omega
  · unfold InodeManager.taken
    rw [setBlock_blocks]
    by_cases hblk : (i - 1) / (sz * bitsPerByte) = q
    · rw [hblk, Function.update_self, hdata]
      by_cases hoff : (i - 1) % (sz * bitsPerByte) = (id - 1) % (sz * bitsPerByte)
      · have hii := Fits.index_inj (hblk.trans hq.symm) hoff
        have h1 := hid.1
        have h2 := hi.1
        rw [if_pos hoff, show i = id by omega, Function.update_self]
      · have hii : i ≠ id := by
          rintro rfl
          exact hoff rfl
        rw [if_neg hoff, Function.update_of_ne hii, hblk]
    · have hii : i ≠ id := by
        rintro rfl
        exact hblk hq
      rw [Function.update_of_ne (by omega), Function.update_of_ne hii]

omit him in
theorem Records.trans {t v : BlockManager sz cnt logCnt} {e e' : ℕ → ℕ} {u u' : ℕ → Bool}
    (h : im.Records s t e u) (h' : im.Records t v e' u') : im.Records s v e' u' where
  works := h'.works.trans h.works
  frame b hb := (h'.frame b hb).trans (h.frame b hb)
  entries := h'.entries
  bits := h'.bits

theorem Fits.taken_eq {count j : ℕ} (hj : j < sz * bitsPerByte) :
    im.taken s (count * (sz * bitsPerByte) + j + 1) =
      Bitmap.check (s.blocks (1 + im.nTableBlocks + count)) j := by
  have hpos : 0 < sz * bitsPerByte := Nat.mul_pos him.sz_pos (by decide)
  unfold InodeManager.taken
  rw [Nat.add_sub_cancel, Nat.mul_comm count, Nat.mul_add_div hpos, Nat.div_eq_of_lt hj, Nat.add_zero,
    Nat.mul_add_mod, Nat.mod_eq_of_lt hj]

/-- All inodes are taken before a bit of the block `count`, as far as those of
the earlier blocks are and those before it in the block. -/
theorem Fits.taken_before {count l : ℕ}
    (hfull : ∀ i, 1 ≤ i → i ≤ count * (sz * bitsPerByte) → im.taken s i = true)
    (hfirst : ∀ j < l, j < sz * bitsPerByte → Bitmap.check (s.blocks (1 + im.nTableBlocks + count)) j = true)
    (hl : l ≤ sz * bitsPerByte) (i : ℕ) (hi : 1 ≤ i) (hle : i ≤ count * (sz * bitsPerByte) + l) :
    im.taken s i = true := by
  by_cases hlow : i ≤ count * (sz * bitsPerByte)
  · exact hfull i hi hlow
  · have hj : im.taken s (count * (sz * bitsPerByte) + (i - 1 - count * (sz * bitsPerByte)) + 1) = _ :=
      Fits.taken_eq him (by omega)
    rw [Nat.add_sub_cancel' (by omega), Nat.sub_add_cancel hi] at hj
    rw [hj]
    exact hfirst _ (by omega) (by omega)

theorem allocateFrom_spec (hs : s.maybeFailed = false) (hbid : bid < 2 ^ 64) (k count : ℕ)
    (hk : count + k = im.nBitmapBlocks)
    (hfull : ∀ i, 1 ≤ i → i ≤ count * (sz * bitsPerByte) → im.taken s i = true) :
    wp (im.allocateFrom bid k count (s.blocks (1 + im.nTableBlocks + count))) (fun r t => match r with
      | .ok id => im.Valid id ∧ im.taken s id = false ∧ (∀ i, 1 ≤ i → i < id → im.taken s i = true) ∧
        im.Records s t (Function.update (im.entry s) id bid) (Function.update (im.taken s) id true)
      | .error e => e = .outOfResource ∧ t = s ∧ ∀ i, im.Valid i → im.taken s i = true) s := by
  have hroom := him.room
  have hpos : 0 < sz * bitsPerByte := Nat.mul_pos him.sz_pos (by decide)
  induction k generalizing count with
  | zero =>
    refine wp_refuse.mpr ⟨rfl, rfl, fun i hi => hfull i hi.1 ?_⟩
    have hle := hi.2
    rw [him.max_eq] at hle
    rw [Nat.add_zero] at hk
    exact hk ▸ hle
  | succ k ih =>
    have hlen := s.length_blocks (1 + im.nTableBlocks + count)
    unfold InodeManager.allocateFrom
    split
    case h_2 hnone =>
      apply wp_bind_ok (readBlock_apply s (by omega))
      refine ih (count + 1) (by omega) ?_
      rw [Nat.succ_mul]
      refine Fits.taken_before him hfull (fun j _ hj => ?_) (Nat.le_refl _)
      apply Bitmap.findFirstFreeWBound_first (Nat.le_refl _) _ (by rw [hlen]; exact hj)
      exact fun _ h => by cases hnone.symm.trans h
    case h_1 freeIdx hfree =>
      obtain ⟨hlt, hcheck⟩ := Bitmap.findFirstFreeWBound_spec (Nat.le_refl _) hfree
      rw [hlen] at hlt
      have hset : (Bitmap.set (s.blocks (1 + im.nTableBlocks + count)) freeIdx).length = sz := by
        rw [Bitmap.length_set, hlen]
      -- the id of the inode whose bit has been found
      have hdiv : (count * (sz * bitsPerByte) + freeIdx) / (sz * bitsPerByte) = count := by
        rw [Nat.mul_comm, Nat.mul_add_div hpos, Nat.div_eq_of_lt hlt, Nat.add_zero]
      have hmod : (count * (sz * bitsPerByte) + freeIdx) % (sz * bitsPerByte) = freeIdx := by
        rw [Nat.mul_comm, Nat.mul_add_mod, Nat.mod_eq_of_lt hlt]
      have hvalid : im.Valid (count * (sz * bitsPerByte) + freeIdx + 1) := by
        refine ⟨by omega, ?_⟩
        rw [him.max_eq]
        calc count * (sz * bitsPerByte) + freeIdx + 1 ≤ (count + 1) * (sz * bitsPerByte) := by
              rw [Nat.succ_mul]
              omega
          _ ≤ im.nBitmapBlocks * (sz * bitsPerByte) := Nat.mul_le_mul_right _ (by omega)
      generalize hid : count * (sz * bitsPerByte) + freeIdx = idx at hdiv hmod hvalid
      have htaken : im.taken s (idx + 1) = false := by
        unfold InodeManager.taken
        rw [Nat.add_sub_cancel, hdiv, hmod, hcheck]
      have hfirst : ∀ i, 1 ≤ i → i < idx + 1 → im.taken s i = true := by
        intro i hi hlti
        refine Fits.taken_before him hfull (l := freeIdx) (fun j hj hlt => ?_)
          (Nat.le_of_lt hlt) i hi (by omega)
        apply Bitmap.findFirstFreeWBound_first (Nat.le_refl _) _ (by rw [hlen]; exact hlt)
        intro j' hj'
        cases hfree.symm.trans hj'
        exact hj
      have hr := records_setBlock him hvalid (s := s) _ hset true fun j => by
        rw [Bitmap.check_set (by rw [hlen]; exact hlt), Nat.add_sub_cancel, hdiv, hmod]
        by_cases hj : j = freeIdx <;> simp [hj]
      rw [Nat.add_sub_cancel, hdiv] at hr
      apply wp_bind_ok (writeBlock_apply hs (by omega) hset)
      obtain ⟨t, ht, hrt⟩ := setTable_spec him (hr.works.trans hs) hvalid hbid
      rw [Nat.add_sub_cancel] at ht
      simp only
      apply wp_bind_ok ht
      rw [wp_pure]
      refine ⟨hvalid, htaken, hfirst, hrt.works.trans hr.works, fun b hb => ?_, fun i hi => ?_, fun i hi => ?_⟩
      · rw [hrt.frame b hb, hr.frame b hb]
      · rw [hrt.entries i hi]
        by_cases hii : i = idx + 1
        · rw [hii, Function.update_self, Function.update_self]
        · rw [Function.update_of_ne hii, Function.update_of_ne hii, hr.entries i hi]
      · rw [hrt.bits i hi, hr.bits i hi]

theorem allocateInode_spec (hs : s.maybeFailed = false) (hbid : bid < 2 ^ 64) :
    wp (im.allocateInode bid) (fun r t => match r with
      | .ok id => im.Valid id ∧ im.taken s id = false ∧ (∀ i, 1 ≤ i → i < id → im.taken s i = true) ∧
        im.Records s t (Function.update (im.entry s) id bid) (Function.update (im.taken s) id true)
      | .error e => e = .outOfResource ∧ t = s ∧ ∀ i, im.Valid i → im.taken s i = true) s := by
  have hroom := him.room
  apply wp_bind_ok (readBlock_apply s (by omega))
  refine allocateFrom_spec him hs hbid im.nBitmapBlocks 0 (Nat.zero_add _) fun i h1 h2 => ?_
  rw [Nat.zero_mul] at h2
  omega

theorem get_apply (hid : im.Valid id) : im.get id s = some (.ok (im.entry s id), s) := by
  have htab := Fits.table_lt him hid
  have hroom := him.room
  have h1 := hid.1
  unfold InodeManager.get
  rw [if_neg (by omega), bind_ok (readBlock_apply s (by omega)), pure_apply]
  rfl

theorem Fits.bound_eq : (im.maxInodeSupported + (2 ^ 64 - 1)) % 2 ^ 64 = im.maxInodeSupported - 1 := by
  have h1 := him.max_lt
  have h2 : 0 < im.maxInodeSupported := by
    rw [him.max_eq]
    exact Nat.mul_pos him.bitmap_pos (Nat.mul_pos him.sz_pos (by decide))
  omega

theorem readInode_apply (hid : 1 ≤ id) : im.readInode id s =
    if im.maxInodeSupported - 1 ≤ id ∨ im.entry s id = invalidBlockId
      then some (.error .invalidArg, s)
    else if im.entry s id < cnt + logCnt
      then some (.ok (im.entry s id, s.blocks (im.entry s id)), s) else none := by
  unfold InodeManager.readInode
  rw [Fits.bound_eq him]
  by_cases hlt : im.maxInodeSupported - 1 ≤ id
  · rw [if_pos hlt, if_pos (Or.inl hlt), refuse_apply]
  · rw [if_neg hlt, bind_ok (get_apply him ⟨hid, by omega⟩)]
    by_cases hz : im.entry s id = invalidBlockId
    · rw [if_pos hz, if_pos (Or.inr hz), refuse_apply]
    · rw [if_neg hz, if_neg (by simp only [hlt, hz, or_self, not_false_eq_true])]
      by_cases hb : im.entry s id < cnt + logCnt
      · rw [if_pos hb, bind_ok (readBlock_apply s hb), pure_apply]
      · rw [if_neg hb]
        change (readBlock (im.entry s id) s).bind _ = none
        unfold readBlock
        rw [if_neg hb]
        rfl

/-- The id 0 is refused as long as the end of block 0 is empty. -/
theorem readInode_zero
    (hz : getField (s.blocks 0) (sz - sizeofBlockId) sizeofBlockId = invalidBlockId) :
    im.readInode 0 s = some (.error .invalidArg, s) := by
  have hroom := him.room
  unfold InodeManager.readInode
  split
  · rfl
  · have hget : im.get 0 s = some (.ok invalidBlockId, s) := by
      unfold InodeManager.get
      rw [if_pos rfl, bind_ok (readBlock_apply s (by omega)), pure_apply, hz]
    rw [bind_ok hget, if_pos rfl, refuse_apply]

theorem freeInode_spec (hs : s.maybeFailed = false) (h1 : 1 ≤ id) (h2 : id < im.maxInodeSupported - 1) :
    ∃ t, im.freeInode id s = some (.ok (), t) ∧
      im.Records s t (Function.update (im.entry s) id invalidBlockId)
        (Function.update (im.taken s) id false) := by
  have hvalid : im.Valid id := ⟨h1, by omega⟩
  have hroom := him.room
  have hbit := Fits.bitmap_lt him hvalid
  obtain ⟨t, ht, hrt⟩ := setTable_spec him hs hvalid (by decide : invalidBlockId < 2 ^ 64)
  have hmod := Nat.mod_lt (id - 1) (Nat.mul_pos him.sz_pos (by decide : 0 < bitsPerByte))
  have hlen := t.length_blocks (1 + im.nTableBlocks + (id - 1) / (sz * bitsPerByte))
  have hclear : (Bitmap.clear (t.blocks (1 + im.nTableBlocks + (id - 1) / (sz * bitsPerByte)))
      ((id - 1) % (sz * bitsPerByte))).length = sz := by
    rw [Bitmap.length_clear, hlen]
  have hr := records_setBlock him hvalid (s := t) _ hclear false fun j => by
    rw [Bitmap.check_clear (by rw [hlen]; exact hmod)]
    by_cases hj : j = (id - 1) % (sz * bitsPerByte) <;> simp [hj]
  refine ⟨_, ?_, hr.works.trans hrt.works, fun b hb => ?_, fun i hi => ?_, fun i hi => ?_⟩
  · unfold InodeManager.freeInode
    rw [Fits.bound_eq him, if_neg (by omega), require_of (by omega), bind_ok (pure_apply ()),
      bind_ok ht, bind_ok (readBlock_apply t (by omega)), writeBlock_apply (hrt.works.trans hs) (by omega)
        hclear]
  · rw [hr.frame b hb, hrt.frame b hb]
  · rw [hr.entries i hi, hrt.entries i hi]
  · rw [hr.bits i hi]
    by_cases hii : i = id
    · rw [hii, Function.update_self, Function.update_self]
    · rw [Function.update_of_ne hii, Function.update_of_ne hii, hrt.bits i hi]

theorem freeFrom_spec (k count : ℕ) (hk : count + k = im.nBitmapBlocks) :
    im.freeFrom k count (s.blocks (1 + im.nTableBlocks + count)) s =
      some (.ok ((List.range' (count * (sz * bitsPerByte)) (k * (sz * bitsPerByte))).countP
        fun i => !im.taken s (i + 1)), s) := by
  have hpos : 0 < sz * bitsPerByte := Nat.mul_pos him.sz_pos (by decide)
  have hroom := him.room
  induction k generalizing count with
  | zero =>
    rw [InodeManager.freeFrom, pure_apply, Nat.zero_mul]
    rfl
  | succ k ih =>
    have htaken : ∀ j < sz * bitsPerByte, im.taken s (count * (sz * bitsPerByte) + j + 1) =
        Bitmap.check (s.blocks (1 + im.nTableBlocks + count)) j := fun j hj => Fits.taken_eq him hj
    rw [InodeManager.freeFrom, bind_ok (readBlock_apply s (by omega)), bind_ok (ih (count + 1) (by omega)),
      pure_apply, Bitmap.countZeros_eq, s.length_blocks, countP_range (fun i => im.taken s (i + 1)) htaken,
      ← List.countP_append,
      Nat.succ_mul, List.range'_append_1, Nat.succ_mul, Nat.add_comm (sz * bitsPerByte)]

theorem freeInodeCnt_spec : im.freeInodeCnt s =
    some (.ok ((List.range im.maxInodeSupported).countP fun i => !im.taken s (i + 1)), s) := by
  have hroom := him.room
  have hfree := freeFrom_spec him (s := s) im.nBitmapBlocks 0 (Nat.zero_add _)
  rw [Nat.add_zero, Nat.zero_mul, ← him.max_eq, ← List.range_eq_range'] at hfree
  rw [InodeManager.freeInodeCnt, bind_ok (readBlock_apply s (by omega)), hfree]

end Spec

end Chfs.Fs.Inode
