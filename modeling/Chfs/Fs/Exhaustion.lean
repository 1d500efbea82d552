import Chfs.Fs.Contents

namespace Chfs.Fs.Exhaustion

open Lib.Effect Lib.Bytes Lib.Run Block.Manager Block.Allocator Inode Operations Files Growth Writing Contents

variable {sz cnt logCnt n : ℕ} {fo : FileOperation}

structure AsBefore (fo : FileOperation) (s t : BlockManager sz cnt logCnt) : Prop where
  bitmap : ∀ b < cnt, fo.blockAllocator.used t b = fo.blockAllocator.used s b
  entry : ∀ id, fo.inodeManager.Valid id → fo.inodeManager.entry t id = fo.inodeManager.entry s id ∧
    fo.inodeManager.taken t id = fo.inodeManager.taken s id
  inode : ∀ id, fo.inodeManager.Valid id →
    t.blocks (fo.inodeManager.entry s id) = s.blocks (fo.inodeManager.entry s id)
  content : Keeps fo s t

/-- If `write_file` returns an error, nothing has changed. -/
def FailsClean (fo : FileOperation) (s : BlockManager sz cnt logCnt) (id : ℕ) (content : List UInt8) (now : ℕ) :
    Prop :=
  ∀ e t, fo.writeFile id content now s = some (.error e, t) → AsBefore fo s t

/-- Enough free blocks for the content, or none at all, unless the inode is
unknown or the content too large. -/
def Enough (fo : FileOperation) (s : BlockManager sz cnt logCnt) (id : ℕ) (content : List UInt8) : Prop :=
  ∀ blockId inode, fo.inodeManager.readInode id s = some (.ok (blockId, inode), s) →
    content.length ≤ maxFileSzSupported inode → freeBlocks fo s = ∅ ∨
      blocksNeeded (getDirectBlockNum inode) (calculateBlockSz (getSize inode) sz)
        (calculateBlockSz content.length sz) ≤ (freeBlocks fo s).card

section Files

variable (hl : Layout fo sz cnt) {s t : BlockManager sz cnt logCnt} {files : ℕ → Option File} {id : ℕ}
  {content : List UInt8}

theorem AsBefore.refl (s : BlockManager sz cnt logCnt) : AsBefore fo s s :=
  ⟨fun _ _ => rfl, fun _ _ => ⟨rfl, rfl⟩, fun _ _ => rfl, fun _ _ => rfl⟩

theorem AsBefore.freeBlocks_eq (h : AsBefore fo s t) : freeBlocks fo t = freeBlocks fo s := by
  ext b
  rw [mem_freeBlocks, mem_freeBlocks]
  exact and_congr_right fun hb => by rw [h.bitmap b hb]

include hl

/-- A device without a free block cannot gain marks. -/
theorem asBefore_of_full (h : Inv fo s files) (hk : Leaks fo s t) (hfull : freeBlocks fo s = ∅) : AsBefore fo s t where
  bitmap b hb := by
    have hused : fo.blockAllocator.used s b = true := by
      rw [← Bool.not_eq_false]
      intro hfree
      exact absurd (mem_freeBlocks.mpr ⟨hb, hfree⟩) (hfull ▸ Finset.notMem_empty b)
    rw [hused, hk.used b hb hused]
  entry id hid := hl.entry_congr hid fun b _ hb => hk.marks.frame b (Or.inl hb)
  inode id hid := by
    apply hk.marks.frame
    rw [h.entry id hid]
    cases hf : files id with
    | none =>
      have := hl.bitmap
      exact Or.inl (by simp only [Option.map_none, Option.getD_none, invalidBlockId]; omega)
    | some f => exact Or.inr (h.data id f hf f.inode List.mem_cons_self).1
  content := keeps_of_leaks hl h hk

theorem failsClean_iff (h : Inv fo s files) (hn : Named s id) (now : ℕ) :
    FailsClean fo s id content now ↔ Enough fo s id content := by
  by_cases hr : files id = none ∨ fo.inodeManager.maxInodeSupported - 1 ≤ id
  case pos =>
    have hread := h.readInode_refused hl hn hr
    refine iff_of_true (fun e t hrun => ?_) fun blockId inode hok => ?_
    · have herr : fo.writeFile id content now s = some (.error .invalidArg, s) := bind_error hread
      cases herr.symm.trans hrun
      exact AsBefore.refl s
    · cases hread.symm.trans hok
  case neg =>
    rw [not_or, Nat.not_le] at hr
    obtain ⟨f, hf⟩ := Option.ne_none_iff_exists'.mp hr.1
    have hhold := h.holds id f hf (Set.notMem_empty id)
    have hread := h.readInode_some hl hf hr.2
    have hmax := hhold.shape.maxFileSz_eq hl.size
    by_cases hle : content.length ≤ maxBlocks sz * sz
    case neg =>
      refine iff_of_true (fun e t hrun => ?_) fun blockId inode hok hsize => ?_
      · cases (writeFile_large hl h hf (Set.notMem_empty id) hr.2 (Nat.lt_of_not_le hle) now).symm.trans hrun
        exact AsBefore.refl s
      · cases hread.symm.trans hok
        exact absurd (hmax ▸ hsize) hle
    case pos =>
      have henough : Enough fo s id content ↔ freeBlocks fo s = ∅ ∨
          blocksNeeded (directNum sz) f.blocks.length (calculateBlockSz content.length sz) ≤
            (freeBlocks fo s).card := by
        rw [hhold.count, ← hhold.size, ← hhold.shape.directNum_eq hl.size]
        constructor
        · exact fun hall => hall _ _ hread (hmax.symm ▸ hle)
        · intro hcond blockId inode hok _
          cases hread.symm.trans hok
          exact hcond
      obtain ⟨r, t, hrun, hcounts⟩ := writeFile_counts hl h hf (Set.notMem_empty id) hr.2 hle now
      rw [henough]
      constructor
      · intro hclean
        cases r with
        | ok => exact Or.inr hcounts
        | error e => exact Or.inl ((hclean e t hrun).freeBlocks_eq ▸ hcounts.empty)
      · intro hcond e t' hrun'
        cases hrun.symm.trans hrun'
        obtain hfull | hneed := hcond
        · exact asBefore_of_full hl h hcounts.leaks hfull
        · exact absurd hcounts.lt (Nat.not_lt_of_le hneed)

end Files

theorem failsClean_iff_enough (hd : Dimensions sz cnt n) {s : BlockManager sz cnt logCnt} (h : Reachable n fo s)
    {id : ℕ} (hn : Named s id) (content : List UInt8) (now : ℕ) :
    FailsClean fo s id content now ↔ Enough fo s id content := by
  obtain ⟨hl, files, hinv⟩ := reachable_inv hd h
  exact failsClean_iff hl hinv hn now

theorem exists_allocated : ∃ s t : BlockManager 56 72 0, Reachable 1 (FileOperation.fields 56 72 1) s ∧
    (freeBlocks (FileOperation.fields 56 72 1) s).card = 4 ∧
    (FileOperation.fields 56 72 1).writeFile 1 (List.replicate 224 0) 6 s = some (.error .outOfResource, t) ∧
    freeBlocks (FileOperation.fields 56 72 1) t = ∅ := by
  have hrun : ((FileOperation.create 1 (BlockManager.zeroed 56 72 0)).bind fun out =>
      ((FileOperation.fields 56 72 1).allocInode 1 5 out.2).bind fun out' =>
        ((FileOperation.fields 56 72 1).writeFile 1 (List.replicate 224 0) 6 out'.2).map fun out'' =>
          ((freeBlocks (FileOperation.fields 56 72 1) out'.2).card, out''.1,
            decide (freeBlocks (FileOperation.fields 56 72 1) out''.2 = ∅))) =
        some (4, .error .outOfResource, true) := by decide +kernel
  obtain ⟨s₁, hcreate, -⟩ := create_spec dimensions_small (s := BlockManager.zeroed 56 72 0) rfl
  rw [hcreate, Option.bind_some] at hrun
  obtain ⟨⟨r, s⟩, halloc, hrun⟩ := Option.bind_eq_some_iff.mp hrun
  obtain ⟨⟨r', t⟩, hwrite, hrun⟩ := Option.map_eq_some_iff.mp hrun
  simp only [Prod.mk.injEq, decide_eq_true_eq] at hrun
  obtain ⟨hcard, rfl, hempty⟩ := hrun
  have hstep : Call.step (FileOperation.fields 56 72 1) s₁ (.allocInode 1 5) = some s := by
    rw [Call.step, halloc]
    rfl
  have hnames : Call.names s₁ (.allocInode 1 5) := trivial
  exact ⟨s, t, ⟨_, s₁, rfl, hcreate, Reach.refl.tail hnames hstep⟩, hcard, hwrite, hempty⟩

/-- Three bytes find enough blocks. -/
theorem failsClean_iff_enough_bytes : ∃ s : BlockManager 56 72 0, Reachable 1 (FileOperation.fields 56 72 1) s ∧
    Named s 1 ∧ FailsClean (FileOperation.fields 56 72 1) s 1 [1, 2, 3] 6 := by
  obtain ⟨s, t, hreach, hcard, -⟩ := exists_allocated
  have hn : Named s 1 := Or.inl (by decide)
  refine ⟨s, hreach, hn, (failsClean_iff_enough dimensions_small hreach hn _ _).mpr fun blockId inode _ _ => Or.inr ?_⟩
  rw [hcard, blocksNeeded]
  have hone : calculateBlockSz [(1 : UInt8), 2, 3].length 56 = 1 := rfl
  rw [hone]
  split <;> omega

/-- The blocks that have been allocated before the device is full stay marked. -/
theorem not_failsClean_full : ∃ s t : BlockManager 56 72 0, Reachable 1 (FileOperation.fields 56 72 1) s ∧
    (FileOperation.fields 56 72 1).writeFile 1 (List.replicate 224 0) 6 s = some (.error .outOfResource, t) ∧
    (freeBlocks (FileOperation.fields 56 72 1) s).card = 4 ∧ freeBlocks (FileOperation.fields 56 72 1) t = ∅ ∧
    ¬ FailsClean (FileOperation.fields 56 72 1) s 1 (List.replicate 224 0) 6 := by
  obtain ⟨s, t, hreach, hcard, hwrite, hempty⟩ := exists_allocated
  refine ⟨s, t, hreach, hwrite, hcard, hempty, fun hclean => ?_⟩
  have heq := (hclean _ _ hwrite).freeBlocks_eq
  rw [hempty] at heq
  rw [← heq, Finset.card_empty] at hcard
  cases hcard

end Chfs.Fs.Exhaustion
