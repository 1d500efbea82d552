import Chfs.Fs.Contents

namespace Chfs.Fs.Attributes

open Lib.Effect Lib.Bytes Block.Manager Block.Allocator Inode Operations Files Growth Writing Contents

variable {sz cnt logCnt : ℕ} {fo : FileOperation}

/-- An inode of a given type whose three times are the same. -/
structure Stamped (inode : List UInt8) (type now : ℕ) : Prop where
  type_eq : getType inode = type
  atime : getField inode 4 8 = now
  mtime : getField inode 12 8 = now
  ctime : getField inode 20 8 = now

theorem Stamped.innerAttr {inode : List UInt8} {type now : ℕ} (h : Stamped inode type now) :
    innerAttr inode = ⟨now, now, now, getSize inode⟩ := by
  unfold Inode.innerAttr
  rw [h.atime, h.mtime, h.ctime]

theorem getField_of_take {buf buf' : List UInt8} {off k n : ℕ} (h : buf.take n = buf'.take n) (hn : off + k ≤ n) :
    getField buf off k = getField buf' off k := by
  have hslice : ∀ l : List UInt8, slice l off k = slice (l.take n) off k := by
    intro l
    unfold slice
    rw [List.drop_take, List.take_take, Nat.min_eq_left (by omega)]
  unfold getField
  rw [hslice buf, hslice buf', h]

theorem stamped_setAllTime {inode : List UInt8} {now : ℕ} (hlen : sizeofInode ≤ inode.length) (hnow : now < 2 ^ 64) :
    Stamped (setAllTime inode now) (getType inode) now := by
  have hlen' : 44 ≤ inode.length := hlen
  have h1 : (setField inode 4 8 now).length = inode.length := length_setField (by omega)
  have h2 : (setField (setField inode 4 8 now) 12 8 now).length = inode.length :=
    (length_setField (by omega)).trans h1
  constructor
  case type_eq =>
    unfold getType setAllTime
    rw [getField_setField_of_disjoint (by omega) (by omega), getField_setField_of_disjoint (by omega) (by omega),
      getField_setField_of_disjoint (by omega) (by omega)]
  case atime =>
    unfold setAllTime
    rw [getField_setField_of_disjoint (by omega) (by omega), getField_setField_of_disjoint (by omega) (by omega),
      getField_setField_self (by omega) hnow]
  case mtime =>
    unfold setAllTime
    rw [getField_setField_of_disjoint (by omega) (by omega), getField_setField_self (by omega) hnow]
  case ctime => exact getField_setField_self (by omega) hnow

theorem length_setAllTime {inode : List UInt8} (now : ℕ) (hlen : sizeofInode ≤ inode.length) :
    (setAllTime inode now).length = inode.length := by
  have hlen' : 44 ≤ inode.length := hlen
  have h1 : (setField inode 4 8 now).length = inode.length := length_setField (by omega)
  have h2 : (setField (setField inode 4 8 now) 12 8 now).length = inode.length :=
    (length_setField (by omega)).trans h1
  exact (length_setField (by omega)).trans h2

theorem Stamped.setField {inode : List UInt8} {type now off k v : ℕ} (h : Stamped inode type now)
    (hlen : sizeofInode ≤ inode.length) (hge : 28 ≤ off) (hle : off + k ≤ sizeofInode) :
    Stamped (setField inode off k v) type now := by
  have hkeep : ∀ off' k', off' + k' ≤ 28 →
      getField (Lib.Bytes.setField inode off k v) off' k' = getField inode off' k' :=
    fun off' k' hk => getField_setField_of_disjoint (by omega) (by omega)
  exact ⟨(hkeep 0 4 (by omega)).trans h.type_eq, (hkeep 4 8 (by omega)).trans h.atime,
    (hkeep 12 8 (by omega)).trans h.mtime, (hkeep 20 8 (by omega)).trans h.ctime⟩

theorem getType_setSize {inode : List UInt8} (n : ℕ) (hlen : sizeofInode ≤ inode.length) :
    getType (setSize inode n) = getType inode ∧ sizeofInode ≤ (setSize inode n).length := by
  have hlen' : 44 ≤ inode.length := hlen
  have hsize : (setSize inode n).length = inode.length := length_setField (by omega)
  exact ⟨getField_setField_of_disjoint (by omega) (by omega), hsize.symm ▸ hlen⟩

theorem stamped_newInode (hsz : BlockSize sz) {type now : ℕ} (htype : type < 2 ^ 32) (hnow : now < 2 ^ 64) :
    Stamped (newInode sz type now) type now := by
  have hge := hsz.ge
  have hzero : (List.replicate sz (0 : UInt8)).length = sz := List.length_replicate
  have hlen₀ : (setField (List.replicate sz (0 : UInt8)) 0 4 type).length = sz :=
    (length_setField (by omega)).trans hzero
  have htype' : getType (setField (List.replicate sz (0 : UInt8)) 0 4 type) = type :=
    getField_setField_self (by omega) htype
  unfold newInode
  generalize setField (List.replicate sz (0 : UInt8)) 0 4 type = inode at hlen₀ htype'
  have hroom : sizeofInode ≤ inode.length := by
    unfold sizeofInode
    omega
  have hlen₁ := length_setAllTime now hroom
  have hlen₂ : (setField (setAllTime inode now) 36 4 sz).length = inode.length :=
    (length_setField (by omega)).trans hlen₁
  have hstamped := htype' ▸ stamped_setAllTime hroom hnow
  exact (hstamped.setField (hlen₁ ▸ hroom) (by decide) (by decide)).setField (hlen₂ ▸ hroom) (by decide) (by decide)

section Header

variable {s t : BlockManager sz cnt logCnt}

def SameHeader (inode inode' : List UInt8) : Prop :=
  sizeofInode ≤ inode'.length ∧ inode'.take sizeofInode = inode.take sizeofInode

theorem SameHeader.refl {inode : List UInt8} (h : sizeofInode ≤ inode.length) : SameHeader inode inode := ⟨h, rfl⟩

theorem SameHeader.setBlockDirect {inode inode' : List UInt8} (h : SameHeader inode inode') (idx bid : ℕ) :
    SameHeader inode (setBlockDirect inode' idx bid) := by
  have htake : (Inode.setBlockDirect inode' idx bid).take sizeofInode = inode'.take sizeofInode :=
    take_splice (Nat.le_add_right _ _) h.1
  refine ⟨?_, htake.trans h.2⟩
  have hlen := congrArg List.length htake
  rw [List.length_take, List.length_take] at hlen
  have hle := h.1
  omega

theorem SameHeader.type_eq {inode inode' : List UInt8} (h : SameHeader inode inode') :
    getType inode' = getType inode := getField_of_take h.2 (by decide)

theorem getOrInsertIndirect_header {inode inode' : List UInt8} (h : SameHeader inode inode')
    {indirect : Option (List UInt8)} {out : List UInt8 × List UInt8}
    (hrun : fo.getOrInsertIndirect inode' indirect s = some (.ok out, t)) : SameHeader inode out.1 := by
  cases indirect with
  | some buf =>
    cases hrun
    exact h
  | none =>
    unfold FileOperation.getOrInsertIndirect at hrun
    simp only at hrun
    split at hrun
    case isTrue =>
      obtain ⟨bid, t₁, -, hrest⟩ := bind_eq_ok hrun
      obtain ⟨buf, t₂, -, hrest⟩ := bind_eq_ok hrest
      cases hrest
      exact h.setBlockDirect _ _
    case isFalse =>
      obtain ⟨buf, t₁, -, hrest⟩ := bind_eq_ok hrun
      cases hrest
      exact h

theorem grow_header {inode inode' : List UInt8} (h : SameHeader inode inode') (k idx : ℕ)
    {indirect : Option (List UInt8)} {out : List UInt8 × Option (List UInt8)}
    (hrun : fo.grow k idx inode' indirect s = some (.ok out, t)) : SameHeader inode out.1 := by
  induction k generalizing s idx inode' indirect with
  | zero =>
    cases hrun
    exact h
  | succ k ih =>
    unfold FileOperation.grow at hrun
    obtain ⟨bid, t₁, -, hrest⟩ := bind_eq_ok hrun
    split at hrest
    case isTrue => exact ih (h.setBlockDirect _ _) _ hrest
    case isFalse =>
      obtain ⟨out', t₂, hinsert, hrest⟩ := bind_eq_ok hrest
      exact ih (getOrInsertIndirect_header h hinsert) _ hrest

theorem shrink_header {inode inode' : List UInt8} (h : SameHeader inode inode') (k idx : ℕ)
    {indirect : Option (List UInt8)} {out : List UInt8 × Option (List UInt8)}
    (hrun : fo.shrink k idx inode' indirect s = some (.ok out, t)) : SameHeader inode out.1 := by
  induction k generalizing s idx inode' indirect with
  | zero =>
    cases hrun
    exact h
  | succ k ih =>
    unfold FileOperation.shrink at hrun
    split at hrun
    case isTrue =>
      obtain ⟨u, t₁, -, hrest⟩ := bind_eq_ok hrun
      exact ih (h.setBlockDirect _ _) _ hrest
    case isFalse =>
      obtain ⟨buf, t₁, -, hrest⟩ := bind_eq_ok hrun
      obtain ⟨u, t₂, -, hrest⟩ := bind_eq_ok hrest
      exact ih h _ hrest

theorem fitBlocks_header {inode : List UInt8} (hlen : sizeofInode ≤ inode.length) {old new : ℕ}
    {out : List UInt8 × Option (List UInt8)} (hrun : fo.fitBlocks inode old new s = some (.ok out, t)) :
    SameHeader inode out.1 := by
  unfold FileOperation.fitBlocks at hrun
  split at hrun
  case isTrue => exact grow_header (.refl hlen) _ _ hrun
  case isFalse =>
    obtain ⟨out', t₁, hshrink, hrest⟩ := bind_eq_ok hrun
    have hout := shrink_header (.refl hlen) _ _ hshrink
    simp only at hrest
    split at hrest
    case isTrue =>
      obtain ⟨u, t₂, -, hrest⟩ := bind_eq_ok hrest
      obtain ⟨u', t₃, -, hrest⟩ := bind_eq_ok hrest
      cases hrest
      exact hout.setBlockDirect _ _
    case isFalse =>
      cases hrest
      exact hout

end Header

section Calls

variable (hl : Layout fo sz cnt) {s t : BlockManager sz cnt logCnt} {others : Set ℕ} {files : ℕ → Option File}
  {f : File} {id : ℕ}
include hl

theorem length_inode (s : BlockManager sz cnt logCnt) (b : ℕ) : sizeofInode ≤ (s.blocks b).length := by
  have hge := hl.size.ge
  rw [s.length_blocks]
  unfold sizeofInode
  omega

theorem writeFile_stamped (h : InvBut fo others s files) (hf : files id = some f) (hp : id ∉ others)
    (hlt : id < fo.inodeManager.maxInodeSupported - 1) {content : List UInt8} {now : ℕ} (hnow : now < 2 ^ 64)
    (hrun : fo.writeFile id content now s = some (.ok (), t)) :
    Stamped (t.blocks f.inode) (getType (s.blocks f.inode)) now := by
  have hle : content.length ≤ maxBlocks sz * sz := by
    by_contra hgt
    cases (writeFile_large hl h hf hp hlt (Nat.lt_of_not_le hgt) now).symm.trans hrun
  rw [writeFile_eq hl h hf hp hlt hle] at hrun
  obtain ⟨out, t₁, hfit, hrest⟩ := bind_eq_ok hrun
  have hheader := fitBlocks_header (length_inode hl s f.inode) hfit
  obtain ⟨⟨i, ids, hlen, hd⟩, -⟩ :=
    (fitBlocks_spec hl h hf hp _ (blockNum_le hl.size hle).1).of_eq hfit
  obtain ⟨out', t₂, t', hcontent, hback, hw⟩ := draft_write hl h hd hlen (blockNum_le hl.size hle).2.2 now
  simp only at hrest
  rw [bind_ok hcontent] at hrest
  cases hback.symm.trans hrest
  obtain ⟨htype, hsize⟩ := getType_setSize content.length hheader.1
  rw [hw.inode, ← hheader.type_eq, ← htype]
  exact stamped_setAllTime hsize hnow

omit hl in
theorem inode_of_replaces {new : Option File} (h : InvBut fo others s files)
    (hr : Replaces fo s t id (files id) new) {id' : ℕ} (hf : files id' = some f) (hne : id' ≠ id) :
    t.blocks f.inode = s.blocks f.inode :=
  hr.frame _ (h.data id' f hf _ List.mem_cons_self).1 (hr.not_mem h hf hne List.mem_cons_self).1

omit hl in
theorem inode_of_leaks (h : InvBut fo others s files) (hk : Leaks fo s t) (hf : files id = some f) :
    t.blocks f.inode = s.blocks f.inode :=
  hk.marks.frame _ (Or.inr (h.data id f hf _ List.mem_cons_self).1)

omit hl in
theorem inv_forget (h : InvBut fo others s files) {others' : Set ℕ}
    (hdead : ∀ id ∈ others, id ∉ others' → files id = none) : InvBut fo others' s files where
  works := h.works
  reserved := h.reserved
  valid := h.valid
  entry := h.entry
  taken := h.taken
  holds id f hf hid := by
    refine h.holds id f hf fun hmem => ?_
    cases (hdead id hmem hid).symm.trans hf
  data := h.data
  nodup := h.nodup
  disjoint := h.disjoint

theorem allocInode_block (h : InvBut fo others s files) {type now : ℕ}
    (hrun : fo.allocInode type now s = some (.ok id, t)) :
    t.blocks (fo.inodeManager.entry t id) = newInode sz type now := by
  have hcnt := hl.cnt_lt
  have hbitmap := hl.bitmap
  obtain ⟨b, t₁, halloc, hrest⟩ := bind_eq_ok hrun
  obtain ⟨-, hb, hfree, hm⟩ := (allocate_counts hl h.works).of_eq halloc
  have hbd : dataStart fo ≤ b := by
    by_contra hlt
    rw [h.reserved b (by omega)] at hfree
    cases hfree
  obtain ⟨id', t₂, hid, hrest⟩ := bind_eq_ok hrest
  obtain ⟨hvalid, -, -, hrec⟩ :=
    (allocateInode_spec hl.inodes (hm.works.trans h.works) (by omega : b < 2 ^ 64)).of_eq hid
  have hlen := (newInode_spec hl.size type now).1.length
  have hwrite := writeBlock_apply (hrec.works.trans (hm.works.trans h.works)) (by omega : b < cnt + logCnt) hlen
  rw [bind_ok hwrite, pure_apply] at hrest
  cases hrest
  have hentry : fo.inodeManager.entry (t₂.setBlock b (newInode sz type now) hlen) id =
      fo.inodeManager.entry t₂ id := by
    refine (hl.entry_congr hvalid fun y _ hy => ?_).1
    rw [setBlock_blocks, Function.update_of_ne (by unfold dataStart at hbd; omega)]
  rw [hentry, hrec.entries id hvalid, Function.update_self, setBlock_blocks, Function.update_self]

theorem getTypeAttr_some (h : InvBut fo others s files) (hf : files id = some f)
    (hlt : id < fo.inodeManager.maxInodeSupported - 1) :
    fo.getTypeAttr id s = some (.ok (getType (s.blocks f.inode), innerAttr (s.blocks f.inode)), s) := by
  unfold FileOperation.getTypeAttr InodeManager.getTypeAttr
  rw [bind_ok (h.readInode_some hl hf hlt)]
  rfl

theorem getTypeAttr_none (h : InvBut fo others s files) (hid : 1 ≤ id)
    (hf : files id = none ∨ fo.inodeManager.maxInodeSupported - 1 ≤ id) :
    fo.getTypeAttr id s = some (.error .invalidArg, s) :=
  bind_error (h.readInode_none hl hid hf)

end Calls

end Chfs.Fs.Attributes
