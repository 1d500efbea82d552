import Chfs.Fs.Operations
import Mathlib.Order.Basic
import Mathlib.Data.Nat.Basic

namespace Chfs.Fs.Files

open Lib.Effect Lib.Bytes Block.Manager Block.Allocator Inode Operations

def directNum (sz : ℕ) : ℕ := (sz - sizeofInode) / sizeofBlockId - 1

def maxBlocks (sz : ℕ) : ℕ := sz / sizeofBlockId + directNum sz

structure BlockSize (sz : ℕ) : Prop where
  ge : 52 ≤ sz
  lt : sz < 2 ^ 32

/-- The part of an inode that never changes. -/
structure Shape (sz : ℕ) (inode : List UInt8) : Prop where
  length : inode.length = sz
  blockSize : getBlockSize inode = sz
  nblocks : getNblocks inode = (sz - sizeofInode) / sizeofBlockId

section Shape

variable {sz : ℕ} (hsz : BlockSize sz) {inode : List UInt8} (h : Shape sz inode) {i j v : ℕ}
include hsz

theorem BlockSize.nblocks : (sz - sizeofInode) / sizeofBlockId = directNum sz + 1 := by
  have := hsz.ge
  unfold directNum sizeofInode sizeofBlockId
  omega

theorem BlockSize.slot_le (hi : i ≤ directNum sz) :
    sizeofInode + sizeofBlockId * i + sizeofBlockId ≤ sz := by
  have := hsz.ge
  unfold directNum at hi
  unfold sizeofInode sizeofBlockId at hi ⊢
  omega

include h

theorem Shape.directNum_eq : getDirectBlockNum inode = directNum sz := by
  have h1 := hsz.lt
  have h2 := hsz.nblocks
  have h3 : directNum sz + 1 ≤ sz := by
    rw [← h2]
    exact (Nat.div_le_self _ _).trans (Nat.sub_le _ _)
  unfold getDirectBlockNum
  rw [h.nblocks, h2]
  omega

theorem Shape.slot_eq : getNblocks inode - 1 = directNum sz := by
  rw [h.nblocks, hsz.nblocks, Nat.add_sub_cancel]

theorem Shape.maxFileSz_eq : maxFileSzSupported inode = maxBlocks sz * sz := by
  unfold maxFileSzSupported maxBlocks
  rw [h.blockSize, h.directNum_eq hsz, Nat.add_mul]

theorem Shape.setBlockDirect (hi : i ≤ directNum sz) : Shape sz (setBlockDirect inode i v) := by
  have hle : sizeofInode + sizeofBlockId * i + sizeofBlockId ≤ inode.length :=
    h.length ▸ hsz.slot_le hi
  refine ⟨?_, ?_, ?_⟩
  · rw [Inode.setBlockDirect, length_setField hle, h.length]
  · rw [← h.blockSize]
    exact getField_setField_of_disjoint hle (Or.inl (by unfold sizeofInode; omega))
  · rw [← h.nblocks]
    exact getField_setField_of_disjoint hle (Or.inl (by unfold sizeofInode; omega))

theorem Shape.getBlock_setBlockDirect (hi : i ≤ directNum sz) (hv : v < 2 ^ 64) :
    getBlock (Inode.setBlockDirect inode i v) j = if j = i then v else getBlock inode j := by
  have hle : sizeofInode + sizeofBlockId * i + sizeofBlockId ≤ inode.length :=
    h.length ▸ hsz.slot_le hi
  split
  case isTrue heq =>
    rw [heq]
    exact getField_setField_self hle hv
  case isFalse hne =>
    apply getField_setField_of_disjoint hle
    unfold sizeofBlockId
    omega

theorem Shape.getSize_setBlockDirect (hi : i ≤ directNum sz) :
    getSize (Inode.setBlockDirect inode i v) = getSize inode := by
  apply getField_setField_of_disjoint (h.length ▸ hsz.slot_le hi)
  unfold sizeofInode
  omega

theorem Shape.setSize (hv : v < 2 ^ 64) : Shape sz (setSize inode v) ∧ getSize (setSize inode v) = v ∧
    ∀ j, getBlock (Inode.setSize inode v) j = getBlock inode j := by
  have hle : 28 + 8 ≤ inode.length := by
    have := hsz.ge
    rw [h.length]
    omega
  refine ⟨⟨?_, ?_, ?_⟩, getField_setField_self hle hv, fun j => ?_⟩
  · rw [Inode.setSize, length_setField hle, h.length]
  · rw [← h.blockSize]
    exact getField_setField_of_disjoint hle (Or.inr (by omega))
  · rw [← h.nblocks]
    exact getField_setField_of_disjoint hle (Or.inr (by omega))
  · apply getField_setField_of_disjoint hle
    unfold sizeofInode
    omega

theorem Shape.setTime {off : ℕ} (hoff : off + 8 ≤ 28) : Shape sz (setField inode off 8 v) ∧
    getSize (setField inode off 8 v) = getSize inode ∧
    ∀ j, getBlock (setField inode off 8 v) j = getBlock inode j := by
  have hle : off + 8 ≤ inode.length := by
    have := hsz.ge
    rw [h.length]
    omega
  refine ⟨⟨?_, ?_, ?_⟩, ?_, fun j => ?_⟩
  · rw [length_setField hle, h.length]
  · rw [← h.blockSize]
    exact getField_setField_of_disjoint hle (Or.inr (by omega))
  · rw [← h.nblocks]
    exact getField_setField_of_disjoint hle (Or.inr (by omega))
  · exact getField_setField_of_disjoint hle (Or.inr (by omega))
  · apply getField_setField_of_disjoint hle
    unfold sizeofInode
    omega

theorem Shape.setAllTime : Shape sz (setAllTime inode v) ∧
    getSize (Inode.setAllTime inode v) = getSize inode ∧
    ∀ j, getBlock (Inode.setAllTime inode v) j = getBlock inode j := by
  obtain ⟨h1, s1, b1⟩ := h.setTime hsz (v := v) (by decide : 4 + 8 ≤ 28)
  obtain ⟨h2, s2, b2⟩ := h1.setTime hsz (v := v) (by decide : 12 + 8 ≤ 28)
  obtain ⟨h3, s3, b3⟩ := h2.setTime hsz (v := v) (by decide : 20 + 8 ≤ 28)
  exact ⟨h3, s3.trans (s2.trans s1), fun j => (b3 j).trans ((b2 j).trans (b1 j))⟩

end Shape

def blockAt (sz : ℕ) (inode buf : List UInt8) (i : ℕ) : ℕ :=
  if i < directNum sz then getBlock inode i
  else getField buf (sizeofBlockId * (i - directNum sz)) sizeofBlockId

/-- Inode and indirect block list the blocks `ids`; the other direct slots are
empty. -/
structure Lists (sz : ℕ) (inode buf : List UInt8) (ids : List ℕ) : Prop where
  entry : ∀ (i : ℕ) (b : ℕ), ids[i]? = some b → blockAt sz inode buf i = b
  rest : ∀ i, ids.length ≤ i → i < directNum sz → getBlock inode i = invalidBlockId

structure File where
  inode : ℕ
  blocks : List ℕ
  indirect : ℕ
  content : List UInt8

def blocksOf (inode indirect : ℕ) (ids : List ℕ) : List ℕ :=
  inode :: ((if indirect = invalidBlockId then [] else [indirect]) ++ ids)

def File.owned (f : File) : List ℕ := blocksOf f.inode f.indirect f.blocks

theorem mem_blocksOf {a i b : ℕ} {ids : List ℕ} : b ∈ blocksOf a i ids ↔
    b = a ∨ (i ≠ invalidBlockId ∧ b = i) ∨ b ∈ ids := by
  unfold blocksOf
  by_cases hi : i = invalidBlockId <;> simp [hi]

theorem nodup_blocksOf {a i : ℕ} {ids : List ℕ} : (blocksOf a i ids).Nodup ↔
    a ∉ ids ∧ ids.Nodup ∧ (i ≠ invalidBlockId → a ≠ i ∧ i ∉ ids) := by
  unfold blocksOf
  by_cases hi : i = invalidBlockId
  · simp [hi]
  · simp only [hi, if_false, List.singleton_append, List.nodup_cons, List.mem_cons, not_or, Ne,
      not_false_eq_true, forall_const]
    grind

structure Holds (sz : ℕ) (B : ℕ → List UInt8) (f : File) : Prop where
  shape : Shape sz (B f.inode)
  size : getSize (B f.inode) = f.content.length
  count : f.blocks.length = calculateBlockSz f.content.length sz
  le : f.blocks.length ≤ maxBlocks sz
  slot : getBlock (B f.inode) (directNum sz) = f.indirect
  indirect : f.indirect = invalidBlockId ↔ f.blocks.length ≤ directNum sz
  lists : Lists sz (B f.inode) (B f.indirect) f.blocks
  content : ∀ (i : ℕ) (b : ℕ), f.blocks[i]? = some b →
    (B b).take (f.content.length - i * sz) = slice f.content (i * sz) sz

theorem calculateBlockSz_spec {sz n : ℕ} (hsz : 0 < sz) :
    n ≤ calculateBlockSz n sz * sz ∧ ∀ k, k < calculateBlockSz n sz ↔ k * sz < n := by
  have hdm := Nat.div_add_mod n sz
  have hlt := Nat.mod_lt n hsz
  have hk : ∀ k, k < calculateBlockSz n sz ↔ k * sz < n := by
    intro k
    unfold calculateBlockSz
    split
    case isTrue hne =>
      rw [Nat.lt_succ_iff, Nat.le_div_iff_mul_le hsz]
      constructor
      · intro hle
        obtain heq | hlt' := Nat.eq_or_lt_of_le hle
        · exact absurd (by rw [← heq, Nat.mul_mod_left]) hne
        · exact hlt'
      · exact fun h => h.le
    case isFalse heq =>
      rw [not_not] at heq
      rw [Nat.lt_div_iff_mul_lt' (Nat.dvd_of_mod_eq_zero heq), Nat.mul_comm]
  refine ⟨?_, hk⟩
  by_contra hgt
  exact absurd ((hk _).mpr (Nat.lt_of_not_le hgt)) (Nat.lt_irrefl _)

variable {sz cnt logCnt : ℕ} (hsz : BlockSize sz) {s : BlockManager sz cnt logCnt} {f : File}

theorem slice_append_drop (l : List UInt8) (i k : ℕ) : slice l i k ++ l.drop (i + k) = l.drop i := by
  rw [slice, ← List.drop_drop, List.take_append_drop]

section Read

include hsz

theorem Shape.isDirect_eq {inode : List UInt8} (h : Shape sz inode) (idx : ℕ) :
    isDirectBlock inode idx = decide (idx < directNum sz) := by
  unfold isDirectBlock
  rw [h.directNum_eq hsz]

theorem loadIndirect_apply {inode : List UInt8} (h : Shape sz inode) {indirect : Option (List UInt8)}
    {b : ℕ} (hslot : getBlock inode (directNum sz) = b) (hb : b ≠ invalidBlockId) (hlt : b < cnt) :
    loadIndirect inode indirect s = some (.ok (indirect.getD (s.blocks b)), s) := by
  cases indirect with
  | some buf => rfl
  | none =>
    rw [loadIndirect, h.slot_eq hsz, hslot, require_of hb, bind_ok (pure_apply ()),
      readBlock_apply s (by omega), Option.getD_none]

theorem readContent_spec (hf : Holds sz s.blocks f) (hlt : ∀ b ∈ f.owned, b < cnt) (k idx : ℕ)
    (hk : idx + k = f.blocks.length) (indirect : Option (List UInt8))
    (hind : ∀ buf ∈ indirect, buf = s.blocks f.indirect) :
    readContent (s.blocks f.inode) k idx indirect s = some (.ok (f.content.drop (idx * sz)), s) := by
  have hpos : 0 < sz := by
    have := hsz.ge
    omega
  induction k generalizing idx indirect with
  | zero =>
    have hle := (calculateBlockSz_spec (n := f.content.length) hpos).1
    rw [readContent, pure_apply, List.drop_of_length_le]
    rw [Nat.add_zero] at hk
    rw [hk, hf.count]
    exact hle
  | succ k ih =>
    have hidx : f.blocks[idx]? = some f.blocks[idx] := List.getElem?_eq_getElem (by omega)
    generalize f.blocks[idx] = b at hidx
    have hentry := hf.lists.entry idx b hidx
    have hb : b < cnt := hlt b (mem_blocksOf.mpr (Or.inr (Or.inr (List.mem_of_getElem? hidx))))
    have hchunk : (s.blocks b).take (getSize (s.blocks f.inode) - idx * sz) ++
        f.content.drop ((idx + 1) * sz) = f.content.drop (idx * sz) := by
      rw [hf.size, hf.content idx b hidx, Nat.succ_mul, slice_append_drop]
    unfold readContent
    rw [hf.shape.isDirect_eq hsz]
    unfold blockAt at hentry
    by_cases hd : idx < directNum sz
    · rw [if_pos hd] at hentry
      rw [if_pos (by simpa using hd), hentry, bind_ok (readBlock_apply s (by omega)),
        bind_ok (ih (idx + 1) (by omega) indirect hind), pure_apply, hchunk]
    · have hne : f.indirect ≠ invalidBlockId := by
        rw [Ne, hf.indirect]
        omega
      have hlti : f.indirect < cnt := by
        apply hlt
        exact mem_blocksOf.mpr (Or.inr (Or.inl ⟨hne, rfl⟩))
      rw [if_neg hd] at hentry
      have hload : indirect.getD (s.blocks f.indirect) = s.blocks f.indirect := by
        cases indirect with
        | none => rfl
        | some buf => exact hind buf rfl
      rw [if_neg (by simpa using hd), bind_ok (loadIndirect_apply hsz hf.shape hf.slot hne hlti), hload]
      have hie : indirectEntry (s.blocks f.inode) (s.blocks f.indirect) idx = b := by
        unfold indirectEntry
        rw [hf.shape.directNum_eq hsz, hentry]
      rw [hie, bind_ok (readBlock_apply s (by omega)),
        bind_ok (ih (idx + 1) (by omega) (some _) fun buf hbuf => by cases hbuf; rfl), pure_apply, hchunk]

end Read

theorem Lists.congr {inode buf buf' : List UInt8} {ids : List ℕ} (h : Lists sz inode buf ids)
    (hbuf : directNum sz < ids.length → buf' = buf) : Lists sz inode buf' ids where
  entry i b hb := by
    rw [← h.entry i b hb]
    unfold blockAt
    split
    · rfl
    · have hi := (List.getElem?_eq_some_iff.mp hb).1
      rw [hbuf (by omega)]
  rest := h.rest

theorem Lists.congr_inode {inode inode' buf : List UInt8} {ids : List ℕ} (h : Lists sz inode buf ids)
    (heq : ∀ j, getBlock inode' j = getBlock inode j) : Lists sz inode' buf ids where
  entry i b hb := by
    rw [← h.entry i b hb]
    unfold blockAt
    rw [heq]
  rest i hi hlt := by rw [heq, h.rest i hi hlt]

theorem Holds.congr {B B' : ℕ → List UInt8} (h : Holds sz B f) (hB : ∀ b ∈ f.owned, B' b = B b) :
    Holds sz B' f := by
  have hinode : B' f.inode = B f.inode := hB _ List.mem_cons_self
  constructor
  case shape => exact hinode ▸ h.shape
  case size => exact hinode ▸ h.size
  case count => exact h.count
  case le => exact h.le
  case slot => exact hinode ▸ h.slot
  case indirect => exact h.indirect
  case lists =>
    rw [hinode]
    apply h.lists.congr
    intro hlt
    have hne : f.indirect ≠ invalidBlockId := by
      rw [Ne, h.indirect]
      omega
    apply hB
    exact mem_blocksOf.mpr (Or.inr (Or.inl ⟨hne, rfl⟩))
  case content =>
    intro i b hb
    rw [hB b (mem_blocksOf.mpr (Or.inr (Or.inr (List.mem_of_getElem? hb))))]
    exact h.content i b hb

structure Layout (fo : FileOperation) (sz cnt : ℕ) : Prop where
  size : BlockSize sz
  inodes : fo.inodeManager.Fits sz cnt
  blocks : fo.blockAllocator.Fits sz cnt
  bitmap : fo.blockAllocator.bitmapBlockId =
    1 + fo.inodeManager.nTableBlocks + fo.inodeManager.nBitmapBlocks
  cnt_lt : cnt < 2 ^ 32

def dataStart (fo : FileOperation) : ℕ :=
  fo.blockAllocator.bitmapBlockId + fo.blockAllocator.bitmapBlockCnt

/-- The blocks of a device hold the given files, by inode id, except that the
inodes in `others` may hold anything. Blocks that are marked but belong to no
file may exist. -/
structure InvBut (fo : FileOperation) (others : Set ℕ) (s : BlockManager sz cnt logCnt)
    (files : ℕ → Option File) : Prop where
  works : s.maybeFailed = false
  reserved : ∀ b < dataStart fo, fo.blockAllocator.used s b = true
  valid : ∀ id f, files id = some f → fo.inodeManager.Valid id
  entry : ∀ id, fo.inodeManager.Valid id →
    fo.inodeManager.entry s id = ((files id).map File.inode).getD invalidBlockId
  taken : ∀ id, fo.inodeManager.Valid id → fo.inodeManager.taken s id = (files id).isSome
  holds : ∀ id f, files id = some f → id ∉ others → Holds sz s.blocks f
  data : ∀ id f, files id = some f → ∀ b ∈ f.owned, dataStart fo ≤ b ∧ b < cnt ∧
    fo.blockAllocator.used s b = true
  nodup : ∀ id f, files id = some f → f.owned.Nodup
  disjoint : ∀ id id' f f', files id = some f → files id' = some f' → id ≠ id' →
    List.Disjoint f.owned f'.owned

abbrev Inv (fo : FileOperation) (s : BlockManager sz cnt logCnt) (files : ℕ → Option File) : Prop :=
  InvBut fo ∅ s files

/-- The id 0 stands for no inode, and is refused as long as the end of block 0
is empty. -/
def Named (s : BlockManager sz cnt logCnt) (id : ℕ) : Prop :=
  id ≠ invalidInodeId ∨ getField (s.blocks 0) (sz - sizeofBlockId) sizeofBlockId = invalidBlockId

theorem Named.congr {t : BlockManager sz cnt logCnt} {id : ℕ} (hn : Named s id)
    (h : t.blocks 0 = s.blocks 0) : Named t id := by
  unfold Named
  rw [h]
  exact hn

variable {fo : FileOperation} (hl : Layout fo sz cnt) {others : Set ℕ} {files : ℕ → Option File}
include hl

theorem Layout.entry_congr {t : BlockManager sz cnt logCnt} {id : ℕ} (hid : fo.inodeManager.Valid id)
    (h : ∀ b, 1 ≤ b → b < fo.blockAllocator.bitmapBlockId → t.blocks b = s.blocks b) :
    fo.inodeManager.entry t id = fo.inodeManager.entry s id ∧
      fo.inodeManager.taken t id = fo.inodeManager.taken s id := by
  have hb := hl.bitmap
  have h1 := Fits.table_lt hl.inodes hid
  have h2 := Fits.bitmap_lt hl.inodes hid
  constructor
  · unfold InodeManager.entry
    generalize (id - 1) / (sz / sizeofBlockId) = q at h1
    rw [h _ (by omega) (by omega)]
  · unfold InodeManager.taken
    generalize (id - 1) / (sz * bitsPerByte) = q at h2
    rw [h _ (by omega) (by omega)]

theorem Layout.used_congr {t : BlockManager sz cnt logCnt}
    (h : ∀ b, fo.blockAllocator.bitmapBlockId ≤ b → b < dataStart fo → t.blocks b = s.blocks b)
    {b : ℕ} (hb : b < cnt) : fo.blockAllocator.used t b = fo.blockAllocator.used s b := by
  have hq := Fits.index_lt hl.blocks hb
  unfold BlockAllocator.used
  generalize b / (sz * bitsPerByte) = q at hq
  rw [h _ (by omega) (by unfold dataStart; omega)]

theorem InvBut.marks (h : InvBut fo others s files) {t : BlockManager sz cnt logCnt} {u : ℕ → Bool}
    (hm : fo.blockAllocator.Marks s t u) (hres : ∀ b < dataStart fo, u b = true)
    (hown : ∀ id f, files id = some f → ∀ b ∈ f.owned, u b = true) : InvBut fo others t files := by
  have hroom := hl.blocks.room
  have hblocks : ∀ b, 1 ≤ b → b < fo.blockAllocator.bitmapBlockId → t.blocks b = s.blocks b :=
    fun b _ hb => hm.frame b (Or.inl hb)
  constructor
  case works => exact hm.works.trans h.works
  case reserved =>
    intro b hb
    rw [hm.bits b (by unfold dataStart at hb; omega), hres b hb]
  case valid => exact h.valid
  case entry => exact fun id hid => (hl.entry_congr hid hblocks).1.trans (h.entry id hid)
  case taken => exact fun id hid => (hl.entry_congr hid hblocks).2.trans (h.taken id hid)
  case holds =>
    intro id f hf hp
    apply (h.holds id f hf hp).congr
    intro b hb
    exact hm.frame b (Or.inr (h.data id f hf b hb).1)
  case data =>
    intro id f hf b hb
    obtain ⟨h1, h2, -⟩ := h.data id f hf b hb
    exact ⟨h1, h2, by rw [hm.bits b h2, hown id f hf b hb]⟩
  case nodup => exact h.nodup
  case disjoint => exact h.disjoint

omit hl in
theorem InvBut.owned_lt (h : InvBut fo others s files) {id : ℕ} (hf : files id = some f) :
    ∀ b ∈ f.owned, b < cnt := fun b hb => (h.data id f hf b hb).2.1

theorem dataStart_pos : 0 < dataStart fo := by
  have h1 := hl.bitmap
  unfold dataStart
  omega

theorem InvBut.readInode_some (h : InvBut fo others s files) {id : ℕ} (hf : files id = some f)
    (hlt : id < fo.inodeManager.maxInodeSupported - 1) :
    fo.inodeManager.readInode id s = some (.ok (f.inode, s.blocks f.inode), s) := by
  have hvalid := h.valid id f hf
  have hentry := h.entry id hvalid
  have hpos := dataStart_pos hl
  obtain ⟨h1, h2, -⟩ := h.data id f hf f.inode List.mem_cons_self
  rw [hf, Option.map_some, Option.getD_some] at hentry
  rw [readInode_apply hl.inodes hvalid.1, hentry, if_neg, if_pos (by omega)]
  unfold invalidBlockId
  omega

theorem InvBut.readInode_none (h : InvBut fo others s files) {id : ℕ} (hid : 1 ≤ id)
    (hf : files id = none ∨ fo.inodeManager.maxInodeSupported - 1 ≤ id) :
    fo.inodeManager.readInode id s = some (.error .invalidArg, s) := by
  rw [readInode_apply hl.inodes hid]
  by_cases hlt : fo.inodeManager.maxInodeSupported - 1 ≤ id
  · rw [if_pos (Or.inl hlt)]
  · obtain hf | hf := hf
    · have hentry := h.entry id ⟨hid, by omega⟩
      rw [hf, Option.map_none, Option.getD_none] at hentry
      rw [if_pos (Or.inr hentry)]
    · exact absurd hf hlt

theorem InvBut.readInode_refused (h : InvBut fo others s files) {id : ℕ} (hn : Named s id)
    (hf : files id = none ∨ fo.inodeManager.maxInodeSupported - 1 ≤ id) :
    fo.inodeManager.readInode id s = some (.error .invalidArg, s) := by
  by_cases hid : id = invalidInodeId
  · obtain hn | hn := hn
    · exact absurd hid hn
    · rw [hid]
      exact readInode_zero hl.inodes hn
  · apply h.readInode_none hl _ hf
    unfold invalidInodeId at hid
    omega

theorem InvBut.readFile_some (h : InvBut fo others s files) {id : ℕ} (hf : files id = some f) (hp : id ∉ others)
    (hlt : id < fo.inodeManager.maxInodeSupported - 1) :
    fo.readFile id s = some (.ok f.content, s) := by
  have hh := h.holds id f hf hp
  have hread := readContent_spec hl.size hh (h.owned_lt hf) f.blocks.length 0 (Nat.zero_add _) none
    (by simp)
  unfold FileOperation.readFile
  rw [bind_ok (h.readInode_some hl hf hlt)]
  simp only
  rw [hh.size, ← hh.count, hread, Nat.zero_mul, List.drop_zero]

theorem InvBut.readFile_none (h : InvBut fo others s files) {id : ℕ} (hn : Named s id)
    (hf : files id = none ∨ fo.inodeManager.maxInodeSupported - 1 ≤ id) :
    fo.readFile id s = some (.error .invalidArg, s) := by
  unfold FileOperation.readFile
  rw [bind_error (h.readInode_refused hl hn hf)]

end Chfs.Fs.Files
