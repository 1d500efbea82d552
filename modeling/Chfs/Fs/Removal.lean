import Chfs.Fs.Writing

namespace Chfs.Fs.Removal

open Lib.Effect Lib.Bytes Block.Manager Block.Allocator Inode Operations Files Growth Writing

variable {sz cnt logCnt : ℕ} {fo : FileOperation}

theorem directBlocks_eq {inode buf : List UInt8} {ids : List ℕ} (h : Lists sz inode buf ids)
    (hne : ∀ b ∈ ids, b ≠ invalidBlockId) (hle : ids.length ≤ directNum sz) (k i : ℕ)
    (hk : i + k = directNum sz) : directBlocks inode k i = ids.drop i := by
  induction k generalizing i with
  | zero => rw [directBlocks, List.drop_of_length_le (by omega)]
  | succ k ih =>
    rw [directBlocks, ih (i + 1) (by omega)]
    by_cases hi : i < ids.length
    · have hget := h.entry i ids[i] (List.getElem?_eq_getElem hi)
      unfold blockAt at hget
      rw [if_pos (by omega)] at hget
      rw [hget, if_neg (hne _ (List.getElem_mem hi)), List.drop_eq_getElem_cons hi]
    · rw [h.rest i (by omega) (by omega), if_pos rfl, List.drop_of_length_le (by omega)]

section Remove

variable (hl : Layout fo sz cnt) {s t : BlockManager sz cnt logCnt} {others : Set ℕ} {files : ℕ → Option File}
  {f : File} {id : ℕ}
include hl

theorem deallocateAll_spec (hs : s.maybeFailed = false) (l : List ℕ) (hnd : l.Nodup)
    (hused : ∀ b ∈ l, b < cnt ∧ fo.blockAllocator.used s b = true) :
    ∃ t, fo.deallocateAll l s = some (.ok (), t) ∧
      fo.blockAllocator.Marks s t fun b => !decide (b ∈ l) && fo.blockAllocator.used s b := by
  induction l generalizing s with
  | nil => exact ⟨s, rfl, rfl, fun _ _ => rfl, fun b _ => by simp⟩
  | cons a l ih =>
    obtain ⟨hcnt, hu⟩ := hused a List.mem_cons_self
    obtain ⟨hnot, hnd⟩ := List.nodup_cons.mp hnd
    obtain ⟨t₁, hrun₁, hm₁⟩ := deallocate_spec hl.blocks hs hcnt hu
    obtain ⟨t, hrun, hm⟩ := ih (s := t₁) (hm₁.works.trans hs) hnd fun b hb => by
      obtain ⟨h1, h2⟩ := hused b (List.mem_cons_of_mem _ hb)
      have hba : b ≠ a := by
        rintro rfl
        exact hnot hb
      exact ⟨h1, by rw [hm₁.bits b h1, Function.update_of_ne hba, h2]⟩
    refine ⟨t, ?_, hm.works.trans hm₁.works, fun j hj => (hm.frame j hj).trans (hm₁.frame j hj),
      fun b hb => ?_⟩
    · rw [FileOperation.deallocateAll, bind_ok hrun₁, hrun]
    · rw [hm.bits b hb, hm₁.bits b hb]
      by_cases hba : b = a
      · rw [hba, Function.update_self, Bool.and_false, decide_eq_true List.mem_cons_self]
        rfl
      · rw [Function.update_of_ne hba]
        simp [hba]

theorem removeFile_direct (h : InvBut fo others s files) (hf : files id = some f)
    (hlt : id < fo.inodeManager.maxInodeSupported - 1) (hshape : Shape sz (s.blocks f.inode))
    (hblocks : directBlocks (s.blocks f.inode) (directNum sz) 0 = f.blocks)
    (hslot : getBlock (s.blocks f.inode) (directNum sz) = invalidBlockId) (hi : f.indirect = invalidBlockId) :
    ∃ t, fo.removeFile id s = some (.ok (), t) ∧ Replaces fo s t id (some f) none := by
  have hvalid := h.valid id f hf
  have hbitmap := hl.bitmap
  have hnd := nodup_blocksOf.mp (h.nodup id f hf)
  have howned : ∀ b, b ∈ f.blocks ++ [f.inode] ↔ b ∈ f.owned := by
    intro b
    rw [List.mem_append, List.mem_singleton, File.owned, mem_blocksOf]
    grind
  obtain ⟨t₁, hrun₁, hrec⟩ := freeInode_spec hl.inodes h.works hvalid.1 hlt
  have hused₁ : ∀ b < cnt, fo.blockAllocator.used t₁ b = fo.blockAllocator.used s b :=
    fun b hb => hl.used_congr (fun y hy _ => hrec.frame y (Or.inr (by omega))) hb
  obtain ⟨t, hrun, hm⟩ := deallocateAll_spec hl (hrec.works.trans h.works) (f.blocks ++ [f.inode])
    (nodup_snoc hnd.2.1 hnd.1) fun b hb => by
      obtain ⟨-, h1, h2⟩ := h.data id f hf b ((howned b).mp hb)
      exact ⟨h1, (hused₁ b h1).trans h2⟩
  refine ⟨t, ?_, ?_⟩
  · unfold FileOperation.removeFile
    rw [bind_ok (h.readInode_some hl hf hlt)]
    simp only
    rw [hshape.directNum_eq hl.size, hblocks, require_of hslot, bind_ok (pure_apply ()),
      bind_ok hrun₁, hrun]
  · constructor
    case works => exact hm.works.trans hrec.works
    case super => rw [hm.frame 0 (Or.inl (by omega)), hrec.frame 0 (Or.inl rfl)]
    case entry =>
      intro x hx
      rw [(hl.entry_congr hx fun y _ hy => hm.frame y (Or.inl hy)).1, hrec.entries x hx]
      split
      case isTrue heq => rw [heq, Function.update_self]; rfl
      case isFalse hne => rw [Function.update_of_ne hne]
    case taken =>
      intro x hx
      rw [(hl.entry_congr hx fun y _ hy => hm.frame y (Or.inl hy)).2, hrec.bits x hx]
      split
      case isTrue heq => rw [heq, Function.update_self]; rfl
      case isFalse hne => rw [Function.update_of_ne hne]
    case bits =>
      intro b hb
      rw [hm.bits b hb, hused₁ b hb, decide_eq_decide.mpr (howned b), ownedOf, ownedOf,
        if_neg List.not_mem_nil]
      by_cases hmem : b ∈ f.owned
      · rw [if_pos hmem, decide_eq_true hmem]
        rfl
      · rw [if_neg hmem, decide_eq_false hmem]
        rfl
    case frame =>
      intro b hb _
      rw [hm.frame b (Or.inr hb), hrec.frame b (Or.inr (by unfold dataStart at hb; omega))]
    case nodup => exact List.nodup_nil
    case data => exact fun b hb => absurd hb List.not_mem_nil
    case holds => exact fun g hg => by cases hg

theorem removeFile_spec (h : InvBut fo others s files) (hf : files id = some f) (hp : id ∉ others)
    (hlt : id < fo.inodeManager.maxInodeSupported - 1) (hi : f.indirect = invalidBlockId) :
    ∃ t, fo.removeFile id s = some (.ok (), t) ∧ Replaces fo s t id (some f) none := by
  have hhold := h.holds id f hf hp
  have hblocks : directBlocks (s.blocks f.inode) (directNum sz) 0 = f.blocks := by
    refine directBlocks_eq hhold.lists (fun b hb => ?_) (hhold.indirect.mp hi) _ 0 (Nat.zero_add _)
    have h1 := (h.data id f hf b (mem_blocksOf.mpr (Or.inr (Or.inr hb)))).1
    have h2 := dataStart_pos hl
    unfold invalidBlockId
    omega
  exact removeFile_direct hl h hf hlt hhold.shape hblocks (hhold.slot.trans hi) hi

/-- With an indirect block the program is undefined. -/
theorem removeFile_undefined (h : InvBut fo others s files) (hf : files id = some f) (hp : id ∉ others)
    (hlt : id < fo.inodeManager.maxInodeSupported - 1) (hi : f.indirect ≠ invalidBlockId) :
    fo.removeFile id s = none := by
  have hhold := h.holds id f hf hp
  unfold FileOperation.removeFile
  rw [bind_ok (h.readInode_some hl hf hlt)]
  simp only
  rw [hhold.shape.directNum_eq hl.size, hhold.slot, require, if_neg hi]
  rfl

end Remove

end Chfs.Fs.Removal
