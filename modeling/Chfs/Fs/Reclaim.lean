import Chfs.Fs.Contents

namespace Chfs.Fs.Reclaim

open Lib.Effect Lib.Bytes Lib.Run Block.Manager Block.Allocator Inode Operations Files Growth Writing Removal
  Contents

variable {sz cnt logCnt n : ℕ} {fo : FileOperation}

def fileBlocks (fo : FileOperation) (s : BlockManager sz cnt logCnt) (id : ℕ) : List ℕ :=
  let inode := s.blocks (fo.inodeManager.entry s id)
  let indirect := getBlock inode (directNum sz)
  blocksOf (fo.inodeManager.entry s id) indirect
    ((List.range (calculateBlockSz (getSize inode) sz)).map (blockAt sz inode (s.blocks indirect)))

/-- On `t` exactly the blocks of the inode `id` and the id itself are free that
were not on `s`. -/
structure GivesBack (fo : FileOperation) (s t : BlockManager sz cnt logCnt) (id : ℕ) : Prop where
  blocks : ∀ b < cnt, fo.blockAllocator.used t b =
    (!decide (b ∈ fileBlocks fo s id) && fo.blockAllocator.used s b)
  inodes : ∀ i, fo.inodeManager.Valid i → fo.inodeManager.taken t i =
    (!decide (i = id) && fo.inodeManager.taken s i)

/-- `remove_file` succeeds and gives back what belongs to the file. -/
def Removes (fo : FileOperation) (s : BlockManager sz cnt logCnt) (id : ℕ) : Prop :=
  ∃ t, fo.removeFile id s = some (.ok (), t) ∧ GivesBack fo s t id

def freeCounts (fo : FileOperation) (s : BlockManager sz cnt logCnt) :
    Option (Except ErrorType ℕ) × Option (Except ErrorType ℕ) :=
  ((fo.getFreeBlocksNum s).map Prod.fst, (fo.getFreeInodeNum s).map Prod.fst)

theorem calculateBlockSz_le_iff {size d : ℕ} (hsz : 0 < sz) :
    calculateBlockSz size sz ≤ d ↔ size ≤ d * sz := by
  have hlt := (calculateBlockSz_spec (n := size) hsz).2 d
  omega

section Files

variable (hl : Layout fo sz cnt) {s t u : BlockManager sz cnt logCnt} {files : ℕ → Option File} {f : File}
  {id : ℕ} {old mid new : Option File}

theorem fileBlocks_eq (h : Inv fo s files) (hf : files id = some f) : fileBlocks fo s id = f.owned := by
  have hentry := h.entry id (h.valid id f hf)
  rw [hf, Option.map_some, Option.getD_some] at hentry
  have hhold := h.holds id f hf (Set.notMem_empty _)
  unfold fileBlocks File.owned
  simp only
  rw [hentry, hhold.slot, hhold.size, ← hhold.count]
  congr 1
  apply List.ext_getElem?
  intro i
  rw [List.getElem?_map]
  by_cases hi : i < f.blocks.length
  · have hb : f.blocks[i]? = some f.blocks[i] := List.getElem?_eq_getElem hi
    rw [List.getElem?_range hi, Option.map_some, hhold.lists.entry i _ hb, hb]
  · rw [List.getElem?_eq_none (by rw [List.length_range]; omega), List.getElem?_eq_none (by omega)]
    rfl

def Rebits (fo : FileOperation) (s t : BlockManager sz cnt logCnt) (old new : Option File) : Prop :=
  ∀ b < cnt, fo.blockAllocator.used t b = if b ∈ ownedOf new then true
    else if b ∈ ownedOf old then false else fo.blockAllocator.used s b

/-- Of two replacements of one file the bitmap shows the first and the last
file only. -/
theorem Rebits.trans (h : Replaces fo s t id old mid) (h' : Rebits fo t u mid new) :
    Rebits fo s u old new := by
  intro b hb
  rw [h' b hb]
  split
  case isTrue => rfl
  case isFalse =>
    split
    case isTrue hmid =>
      split
      case isTrue => rfl
      case isFalse hold =>
        obtain hin | hfree := (h.data b hmid).2.2
        · exact absurd hin hold
        · exact hfree.symm
    case isFalse hmid => rw [h.bits b hb, if_neg hmid]

include hl

theorem removes_of_direct (h : Inv fo s files) (hf : files id = some f)
    (hlt : id < fo.inodeManager.maxInodeSupported - 1) (hi : f.indirect = invalidBlockId) :
    Removes fo s id := by
  obtain ⟨t, hrun, hr⟩ := removeFile_spec hl h hf (Set.notMem_empty _) hlt hi
  refine ⟨t, hrun, fun b hb => ?_, fun i hi => ?_⟩
  · rw [fileBlocks_eq h hf, hr.bits b hb, ownedOf, ownedOf, if_neg List.not_mem_nil]
    by_cases hmem : b ∈ f.owned
    · rw [if_pos hmem, decide_eq_true hmem]
      rfl
    · rw [if_neg hmem, decide_eq_false hmem]
      rfl
  · rw [hr.taken i hi]
    by_cases hid : i = id
    · rw [if_pos hid, decide_eq_true hid]
      rfl
    · rw [if_neg hid, decide_eq_false hid]
      rfl

theorem direct_iff (h : Inv fo s files) (hf : files id = some f) :
    f.indirect = invalidBlockId ↔ f.content.length ≤ directNum sz * sz := by
  have hge := hl.size.ge
  rw [(h.holds id f hf (Set.notMem_empty _)).indirect, (h.holds id f hf (Set.notMem_empty _)).count,
    calculateBlockSz_le_iff (by omega)]

theorem freeCounts_congr (hb : ∀ b < cnt, fo.blockAllocator.used t b = fo.blockAllocator.used s b)
    (hi : ∀ i, fo.inodeManager.Valid i → fo.inodeManager.taken t i = fo.inodeManager.taken s i) :
    freeCounts fo t = freeCounts fo s := by
  unfold freeCounts FileOperation.getFreeBlocksNum FileOperation.getFreeInodeNum
  rw [freeBlockCnt_spec hl.blocks, freeBlockCnt_spec hl.blocks, freeInodeCnt_spec hl.inodes,
    freeInodeCnt_spec hl.inodes]
  have hblocks : ((List.range cnt).countP fun b => !fo.blockAllocator.used t b) =
      (List.range cnt).countP fun b => !fo.blockAllocator.used s b := by
    apply List.countP_congr
    intro b hmem
    rw [hb b (List.mem_range.mp hmem)]
  have hinodes : ((List.range fo.inodeManager.maxInodeSupported).countP fun i =>
      !fo.inodeManager.taken t (i + 1)) = (List.range fo.inodeManager.maxInodeSupported).countP fun i =>
        !fo.inodeManager.taken s (i + 1) := by
    apply List.countP_congr
    intro i hmem
    rw [hi (i + 1) ⟨by omega, List.mem_range.mp hmem⟩]
  rw [hblocks, hinodes]
  rfl

end Files

section Reach

variable (hd : Dimensions sz cnt n) {s : BlockManager sz cnt logCnt}
include hd

/-- `remove_file` gives back a file exactly when it has no indirect block. Then
the numbers of free blocks and inodes are what they were before the file was
created. -/
theorem removes_iff (h : Reachable n fo s) :
    (∀ id content, Named s id → fo.readFile id s = some (.ok content, s) →
      (Removes fo s id ↔ content.length ≤ directNum sz * sz)) ∧
    ∀ type now id s₁ content now' s₂, fo.allocInode type now s = some (.ok id, s₁) →
      fo.writeFile id content now' s₁ = some (.ok (), s₂) →
      ((∃ t, fo.removeFile id s₂ = some (.ok (), t) ∧ freeCounts fo t = freeCounts fo s) ↔
        content.length ≤ directNum sz * sz) := by
  obtain ⟨hl, files, hinv⟩ := reachable_inv hd h
  refine ⟨fun id content hn hread => ?_, fun type now id s₁ content now' s₂ halloc hwrite => ?_⟩
  · have hc := (readFile_eq hl hinv hn (Set.notMem_empty _)).symm.trans hread
    simp only [Option.some.injEq, Prod.mk.injEq, and_true] at hc
    obtain ⟨f, hf, hlt, rfl⟩ := contentOf_ok hc
    rw [← direct_iff hl hinv hf]
    refine ⟨?_, removes_of_direct hl hinv hf hlt⟩
    rintro ⟨t, hrun, -⟩
    by_contra hi
    rw [removeFile_undefined hl hinv hf (Set.notMem_empty _) hlt hi] at hrun
    cases hrun
  · obtain ⟨b, hid, hnone, -, hr₁⟩ := (allocInode_spec hl hinv type now).of_eq halloc
    rw [← hnone] at hr₁
    have hinv₁ := hr₁.inv hinv hl hid
    have hn₁ : Named s₁ id := by
      have := hid.1
      exact Or.inl (by unfold invalidInodeId; omega)
    obtain ⟨f, i, ids, hf, hlt, hr₂⟩ := (writeFile_spec hl hinv₁ hn₁ (Set.notMem_empty _) content now').of_eq hwrite
    rw [← hf] at hr₂
    obtain ⟨files₂, hinv₂, hf₂⟩ : ∃ files₂, Inv fo s₂ files₂ ∧
        files₂ id = some ⟨f.inode, ids, i, content⟩ :=
      ⟨_, hr₂.inv hinv₁ hl hid, Function.update_self ..⟩
    rw [← direct_iff hl hinv₂ hf₂]
    constructor
    · rintro ⟨t, hrun, -⟩
      by_contra hi
      rw [removeFile_undefined hl hinv₂ hf₂ (Set.notMem_empty _) hlt hi] at hrun
      cases hrun
    · intro hi
      obtain ⟨t, hrun, hr₃⟩ := removeFile_spec hl hinv₂ hf₂ (Set.notMem_empty _) hlt hi
      rw [Function.update_self] at hr₂
      have hbits := Rebits.trans hr₁ (Rebits.trans hr₂ hr₃.bits)
      rw [hnone] at hbits
      refine ⟨t, hrun, freeCounts_congr hl (fun b hb => ?_) fun j hj => ?_⟩
      · rw [hbits b hb, ownedOf, if_neg List.not_mem_nil, if_neg List.not_mem_nil]
      · rw [hr₃.taken j hj, hr₂.taken j hj, hr₁.taken j hj]
        split
        case isTrue heq => rw [heq, hinv.taken id hid, hnone]
        case isFalse => rfl

end Reach

theorem dimensions_direct : Dimensions 64 72 1 := by
  constructor <;> decide

def oneFile (content : List UInt8) : Option (BlockManager 64 72 0) :=
  (FileOperation.create 1 (BlockManager.zeroed 64 72 0)).bind fun out =>
    execOk (Call.step (FileOperation.fields 64 72 1)) (fun _ c => c.hasName) out.2
      [.allocInode 1 5, .writeFile 1 content 6]

theorem reachable_oneFile {content : List UInt8} {s : BlockManager 64 72 0} (h : oneFile content = some s) :
    Reachable 1 (FileOperation.fields 64 72 1) s := by
  obtain ⟨t, hcreate, -⟩ := create_spec dimensions_direct (s := BlockManager.zeroed 64 72 0) rfl
  rw [oneFile, hcreate, Option.bind_some] at h
  exact ⟨_, t, rfl, hcreate, reach_of_execOk Call.names_of_hasName h⟩

theorem removes_iff_oneFile : ∃ s, oneFile (List.replicate 64 1) = some s ∧
    Removes (FileOperation.fields 64 72 1) s 1 := by
  have hread : ((oneFile (List.replicate 64 1)).bind fun s =>
      ((FileOperation.fields 64 72 1).readFile 1 s).map Prod.fst) =
        some (.ok (List.replicate 64 1)) := by decide +kernel
  obtain ⟨s, hs, hread⟩ := Option.bind_eq_some_iff.mp hread
  have hreach := reachable_oneFile hs
  have hn : Named s 1 := Or.inl (by decide)
  obtain ⟨hl, files, hinv⟩ := reachable_inv dimensions_direct hreach
  have hfile := readFile_eq hl hinv hn (Set.notMem_empty _)
  have hc : contentOf (FileOperation.fields 64 72 1) files 1 = .ok (List.replicate 64 1) := by
    rw [hfile] at hread
    exact Option.some.inj hread
  rw [hc] at hfile
  exact ⟨s, hs, ((removes_iff dimensions_direct hreach).1 1 _ hn hfile).mpr (by decide)⟩

/-- A file of one block more than an inode lists directly. -/
theorem not_removes_indirect : ∃ s, oneFile (List.replicate 65 1) = some s ∧
    Reachable 1 (FileOperation.fields 64 72 1) s ∧
    ((FileOperation.fields 64 72 1).readFile 1 s).map Prod.fst = some (.ok (List.replicate 65 1)) ∧
    ¬ Removes (FileOperation.fields 64 72 1) s 1 := by
  have hread : ((oneFile (List.replicate 65 1)).bind fun s =>
      ((FileOperation.fields 64 72 1).readFile 1 s).map Prod.fst) =
        some (.ok (List.replicate 65 1)) := by decide +kernel
  have hnone : ((oneFile (List.replicate 65 1)).bind fun s =>
      ((FileOperation.fields 64 72 1).removeFile 1 s).map Prod.fst) = none := by decide +kernel
  obtain ⟨s, hs, hread⟩ := Option.bind_eq_some_iff.mp hread
  refine ⟨s, hs, reachable_oneFile hs, hread, ?_⟩
  rw [hs, Option.bind_some, Option.map_eq_none_iff] at hnone
  rintro ⟨t, hrun, -⟩
  rw [hnone] at hrun
  cases hrun

end Chfs.Fs.Reclaim
