import Chfs.Fs.Contents

namespace Chfs.Fs.Reopening

open Lib.Effect Lib.Bytes Lib.Run Block.Manager Block.Allocator Block.Usize Inode InodeTable Operations Files Growth
open Writing Contents

variable {sz cnt logCnt n : ℕ}

def create (maxInodeSupported : ℕ) : Bm sz cnt logCnt FileOperation := do
  let im ← InodeTable.create maxInodeSupported
  let a ← Block.Usize.create im.reservedBlocks true
  require (32 ≤ sz)
  writePartialBlock 0 (superBlock sz cnt im.maxInodeSupported) 0
  pure ⟨im, a⟩

def readNinodes : Bm sz cnt logCnt ℕ := do
  let buffer ← readBlock 0
  require (32 ≤ sz)
  pure (getField buffer 16 8)

def createFromBlockManager (maxInodeSupported : ℕ) : Bm sz cnt logCnt InodeManager := do
  require (totalBits sz ≠ 0 ∧ sz / sizeofBlockId ≠ 0)
  let nBitmapBlocks := maxInodeSupported / totalBits sz
  require (nBitmapBlocks * totalBits sz = maxInodeSupported)
  pure ⟨maxInodeSupported, blocksFor maxInodeSupported (sz / sizeofBlockId), nBitmapBlocks⟩

def createFromRaw : Bm sz cnt logCnt FileOperation := do
  let ninodes ← readNinodes
  let im ← createFromBlockManager ninodes
  let a ← Block.Usize.create im.reservedBlocks false
  pure ⟨im, a⟩

/-- Reopening gives the handle `fo` and changes nothing, so that whatever is
done afterwards has the same results. -/
structure Reopens (fo : FileOperation) (s : BlockManager sz cnt logCnt) : Prop where
  handle : createFromRaw s = some (.ok fo, s)
  further : ∀ {α : Type} (ops : FileOperation → Bm sz cnt logCnt α), (createFromRaw >>= ops) s = ops fo s

/-- `read_inode` refuses the id. What the id 0 wraps around to is in block 0
where the block size is a power of two. -/
def Refused (fo : FileOperation) (s : BlockManager sz cnt logCnt) (id : ℕ) : Prop :=
  (id = invalidInodeId → ∃ k, sz = 2 ^ k) ∧ ∃ e, fo.inodeManager.readInode id s = some (.error e, s)

/-- The id of an inode, whose block has room for a block id, or of none. -/
def Proper (n : ℕ) (fo : FileOperation) (s : BlockManager sz cnt logCnt) (id : ℕ) : Prop :=
  (id ≠ invalidInodeId ∧ 0 < n ∧ 52 ≤ sz) ∨ Refused fo s id

/-- A new inode fits into its block, and calls are about inodes. -/
def Guarded (n : ℕ) (fo : FileOperation) (s : BlockManager sz cnt logCnt) : Call → Prop
  | .allocInode .. => sizeofInode ≤ sz
  | .writeFile id .. | .writeFileWOff id .. | .resize id .. | .removeFile id => Proper n fo s id

section Create

variable {fo : FileOperation} {s t : BlockManager sz cnt logCnt}

theorem le_of_zeroBlocks {k i : ℕ} (hi : i ≤ cnt + logCnt) (h : zeroBlocks k i s = some (.ok (), t)) :
    i + k ≤ cnt + logCnt := by
  induction k generalizing s i with
  | zero => exact hi
  | succ k ih =>
    obtain ⟨_, u, hzero, hrest⟩ := bind_eq_ok h
    unfold zeroBlock at hzero
    split at hzero
    case isTrue hlt =>
      have := ih hlt hrest
      omega
    case isFalse => cases hzero

theorem fitting_of_create (hsmall : (cnt + logCnt) * sz < 2 ^ 32) (h : create n s = some (.ok fo, t)) :
    Fitting sz cnt n ∧ Narrow sz cnt ∧ sz / sizeofBlockId ≠ 0 ∧ fields64 sz n = InodeManager.fields sz n := by
  unfold create at h
  obtain ⟨im, s₁, him, h₁⟩ := bind_eq_ok h
  obtain ⟨a, s₂, ha, h₂⟩ := bind_eq_ok h₁
  obtain ⟨_, s₃, hge, -⟩ := bind_eq_ok h₂
  have hge := (of_require hge).1
  obtain rfl := eq_fields64 him
  unfold InodeTable.create at him
  obtain ⟨_, u, hper, him₁⟩ := bind_eq_ok him
  have hper := (of_require hper).1.2
  obtain ⟨_, u₁, hzero₁, him₂⟩ := bind_eq_ok him₁
  obtain ⟨_, u₂, hzero₂, -⟩ := bind_eq_ok him₂
  unfold Block.Usize.create at ha
  obtain ⟨_, v, hbits, ha₁⟩ := bind_eq_ok ha
  have hbits := (of_require hbits).1
  obtain ⟨_, v₁, hpos, ha₂⟩ := bind_eq_ok ha₁
  have hpos := (of_require hpos).1
  obtain ⟨_, v₂, hroom, -⟩ := bind_eq_ok ha₂
  have hroom := (of_require hroom).1
  have hcnt : 0 < cnt := by omega
  have hlt : cnt + logCnt < 2 ^ 32 := lt_of_le_of_lt (Nat.le_mul_of_pos_right _ (by omega)) hsmall
  have hdevice : cnt * sz < 2 ^ 32 :=
    lt_of_le_of_lt (Nat.mul_le_mul_right sz (Nat.le_add_right cnt logCnt)) hsmall
  have hn : Narrow sz cnt := ⟨hdevice, hbits⟩
  have hmapped := le_of_zeroBlocks (le_of_zeroBlocks (by omega) hzero₁) hzero₂
  have hres : (fields64 sz n).reservedBlocks =
      1 + (fields64 sz n).nTableBlocks + (fields64 sz n).nBitmapBlocks := Nat.mod_eq_of_lt (by omega)
  rw [fields_eq hn hcnt, hres] at hroom
  change (BlockAllocator.fields sz cnt 0).bitmapBlockCnt +
    (1 + (fields64 sz n).nTableBlocks + (fields64 sz n).nBitmapBlocks) ≤ cnt at hroom
  have heq := fields64_eq hdevice hper (n := n) (by omega)
  rw [heq] at hroom
  exact ⟨⟨hge, hdevice, by omega⟩, hn, hper, heq⟩

variable (hd : Fitting sz cnt n) (hg : Narrow sz cnt) (hper : sz / sizeofBlockId ≠ 0)

include hd

theorem bitsPerBlock_eq (hn : 0 < n) : totalBits sz = sz * bitsPerByte := by
  have him := hd.inodeFits hn
  have hdiv := Nat.div_mul_le_self sz sizeofBlockId
  -- the table has an entry for each bit of the bitmap
  have htable : 64 * (sz / sizeofBlockId) ≤ (InodeManager.fields sz n).nTableBlocks * (sz / sizeofBlockId) :=
    calc 64 * (sz / sizeofBlockId) ≤ sz * bitsPerByte := by
          unfold bitsPerByte
          unfold sizeofBlockId at hdiv ⊢
          omega
      _ ≤ (InodeManager.fields sz n).nBitmapBlocks * (sz * bitsPerByte) :=
          Nat.le_mul_of_pos_left _ him.bitmap_pos
      _ = (InodeManager.fields sz n).maxInodeSupported := him.max_eq.symm
      _ ≤ _ := him.table
  have hle := Nat.le_of_mul_le_mul_right htable him.perBlock_pos
  have hroom := him.room
  have hdevice := hd.device
  have hcnt : 64 * sz ≤ cnt * sz := Nat.mul_le_mul_right sz (by omega)
  apply Nat.mod_eq_of_lt
  unfold bitsPerByte
  omega

/-- The number of inodes has been rounded to whole blocks of the bitmap. -/
theorem maxInodeSupported_eq : (InodeManager.fields sz n).maxInodeSupported =
    (InodeManager.fields sz n).nBitmapBlocks * totalBits sz := by
  obtain rfl | hn := Nat.eq_zero_or_pos n
  · unfold InodeManager.fields
    simp only [blocksFor_zero, Nat.zero_mul]
  · rw [bitsPerBlock_eq hd hn]
    exact (hd.inodeFits hn).max_eq

include hg hper

theorem createFromBlockManager_eq : createFromBlockManager (InodeManager.fields sz n).maxInodeSupported s =
    some (.ok (InodeManager.fields sz n), s) := by
  have hmax := maxInodeSupported_eq hd
  have hdiv : (InodeManager.fields sz n).maxInodeSupported / totalBits sz =
      (InodeManager.fields sz n).nBitmapBlocks := by
    rw [hmax, Nat.mul_div_cancel _ (Nat.pos_of_ne_zero hg.bits)]
  unfold createFromBlockManager
  rw [require_of ⟨hg.bits, hper⟩, bind_ok (pure_apply ()), hdiv, require_of hmax.symm, bind_ok (pure_apply ()),
    pure_apply]
  rfl

theorem createFromRaw_eq
    (hs : getField (s.blocks 0) 16 8 = (FileOperation.fields sz cnt n).inodeManager.maxInodeSupported) :
    createFromRaw s = some (.ok (FileOperation.fields sz cnt n), s) := by
  have hcnt := hd.cnt_pos
  have hread : readNinodes s = some (.ok (InodeManager.fields sz n).maxInodeSupported, s) := by
    unfold readNinodes
    rw [bind_ok (readBlock_apply s (by omega)), require_of hd.ge, bind_ok (pure_apply ()), pure_apply, hs]
    rfl
  have hroom : (BlockAllocator.fields sz cnt (InodeManager.fields sz n).reservedBlocks).bitmapBlockCnt +
      (BlockAllocator.fields sz cnt (InodeManager.fields sz n).reservedBlocks).bitmapBlockId ≤ cnt := hd.room
  have ha : Block.Usize.create (InodeManager.fields sz n).reservedBlocks false s =
      some (.ok (FileOperation.fields sz cnt n).blockAllocator, s) := by
    rw [Block.Usize.create_eq hg hcnt]
    unfold BlockAllocator.create
    rw [require_of (hd.bitmap_pos _), bind_ok (pure_apply ()), require_of hroom, bind_ok (pure_apply ())]
    rfl
  unfold createFromRaw
  rw [bind_ok hread, bind_ok (createFromBlockManager_eq hd hg hper), bind_ok ha, pure_apply]
  rfl

theorem reopens_of_super
    (hs : getField (s.blocks 0) 16 8 = (FileOperation.fields sz cnt n).inodeManager.maxInodeSupported) :
    Reopens (FileOperation.fields sz cnt n) s :=
  ⟨createFromRaw_eq hd hg hper hs, fun _ => bind_ok (createFromRaw_eq hd hg hper hs)⟩

theorem create_eq (heq : fields64 sz n = InodeManager.fields sz n) :
    (create n : Bm sz cnt logCnt FileOperation) = FileOperation.create n := by
  have him : (InodeTable.create n : Bm sz cnt logCnt InodeManager) = InodeManager.create n := by
    funext s
    unfold InodeTable.create InodeManager.create
    rw [require_of ⟨hg.bits, hper⟩, bind_ok (pure_apply ()), heq]
  have ha : (Block.Usize.create : ℕ → Bool → Bm sz cnt logCnt BlockAllocator) = BlockAllocator.create := by
    funext b w s
    exact Block.Usize.create_eq hg hd.cnt_pos b w s
  unfold create FileOperation.create
  rw [him, ha]

end Create

theorem getField_superBlock {buf : List UInt8} {ninodes : ℕ} (hn : ninodes < 2 ^ 64) :
    getField (splice buf 0 (superBlock sz cnt ninodes)) 16 8 = ninodes := by
  have hlen : (superBlock sz cnt ninodes).length = 32 := by
    simp only [superBlock, List.length_append, length_leBytes]
  have hslice : slice (superBlock sz cnt ninodes) 16 8 = leBytes 8 ninodes := by
    unfold superBlock
    rw [List.append_assoc, slice_append_right (by simp), List.length_append, length_leBytes, length_leBytes]
    unfold slice
    simp
  unfold getField
  rw [splice, List.take_zero, List.nil_append, slice_append_left (by omega), hlen,
    show min (32 - 16) 8 = 8 from rfl, hslice, show 8 - (32 - 16) = 0 from rfl, slice, List.take_zero,
    List.append_nil]
  exact leVal_leBytes (hn.trans_eq (by decide))

section Alloc

structure Reserves (fo : FileOperation) (s t : BlockManager sz cnt logCnt) : Prop where
  works : t.maybeFailed = false
  super : t.blocks 0 = s.blocks 0
  used : ∀ b < cnt, b < dataStart fo → fo.blockAllocator.used t b = true

variable {s t u : BlockManager sz cnt logCnt}

theorem length_newInode (hsz : sizeofInode ≤ sz) (type now : ℕ) : (newInode sz type now).length = sz := by
  unfold sizeofInode at hsz
  have hlen : ∀ {buf : List UInt8} {off k v : ℕ}, buf.length = sz → off + k ≤ sz →
      (setField buf off k v).length = sz := fun hb hk => (length_setField (hb ▸ hk)).trans hb
  have htype := hlen (v := type) (List.length_replicate (a := (0 : UInt8))) (by omega : 0 + 4 ≤ sz)
  have htime := hlen (v := now) (hlen (v := now) (hlen (v := now) htype (by omega : 4 + 8 ≤ sz))
    (by omega : 12 + 8 ≤ sz)) (by omega : 20 + 8 ≤ sz)
  exact hlen (hlen htime (by omega)) (by omega)

variable (hd : Fitting sz cnt n)

include hd

theorem Reserves.congr (h : Reserves (FileOperation.fields sz cnt n) s t) (hw : u.maybeFailed = t.maybeFailed)
    (hblocks : ∀ b, b = 0 ∨ (FileOperation.fields sz cnt n).blockAllocator.bitmapBlockId ≤ b ∧
      b < dataStart (FileOperation.fields sz cnt n) → u.blocks b = t.blocks b) :
    Reserves (FileOperation.fields sz cnt n) s u where
  works := hw.trans h.works
  super := (hblocks 0 (Or.inl rfl)).trans h.super
  used b hb hlt := by
    have hq := Fits.index_lt hd.blockFits hb
    rw [← h.used b hb hlt]
    unfold BlockAllocator.used
    unfold dataStart at hblocks
    generalize b / (sz * bitsPerByte) = q at hq
    rw [hblocks _ (Or.inr (by omega))]

theorem allocateInode_reserves (h : Reserves (FileOperation.fields sz cnt n) s t) {bid : ℕ} (hbid : bid < 2 ^ 64) :
    wp ((InodeManager.fields sz n).allocateInode bid)
      (fun _ u => Reserves (FileOperation.fields sz cnt n) s u) t := by
  have hbitmap : (FileOperation.fields sz cnt n).blockAllocator.bitmapBlockId = _ := hd.reserved
  obtain rfl | hn := Nat.eq_zero_or_pos n
  · have hnone : InodeManager.fields sz 0 = ⟨0, 0, 0⟩ := by
      unfold InodeManager.fields
      simp only [blocksFor_zero, Nat.zero_mul]
    have hfits := hd.fits
    have hpos := hd.bitmap_pos 0
    rw [hnone] at hfits ⊢
    exact wp_bind_ok (readBlock_apply t (by omega)) (wp_refuse.mpr h)
  · refine (allocateInode_spec (hd.inodeFits hn) h.works hbid).mono fun r u hr => ?_
    cases r with
    | ok id =>
      obtain ⟨-, -, -, hrec⟩ := hr
      exact h.congr hd hrec.works fun b hb => hrec.frame b (hb.imp_right fun hb => hbitmap ▸ hb.1)
    | error =>
      obtain ⟨-, rfl, -⟩ := hr
      exact h

theorem allocInode_reserves (hsz : sizeofInode ≤ sz) (h : Reserves (FileOperation.fields sz cnt n) s t)
    (type now : ℕ) : wp ((FileOperation.fields sz cnt n).allocInode type now)
      (fun _ u => Reserves (FileOperation.fields sz cnt n) s u) t := by
  have hlt := hd.lt
  have hbitmap : (FileOperation.fields sz cnt n).blockAllocator.bitmapBlockId = _ := hd.reserved
  refine (allocate_spec hd.blockFits h.works).bind (fun b t₁ hb => ?_) fun e t₁ he => he.2 ▸ h
  obtain ⟨hbcnt, hfree, hm⟩ := hb
  have hdata : dataStart (FileOperation.fields sz cnt n) ≤ b := by
    by_contra hres
    cases hfree.symm.trans (h.used b hbcnt (by omega))
  have h₁ : Reserves (FileOperation.fields sz cnt n) s t₁ := by
    refine ⟨hm.works.trans h.works, (hm.frame 0 (Or.inl (by omega))).trans h.super, fun x hx hxlt => ?_⟩
    rw [hm.bits x hx, Function.update_of_ne (by omega), h.used x hx hxlt]
  refine (allocateInode_reserves hd h₁ (by omega : b < 2 ^ 64)).bind (fun id t₂ h₂ => ?_) fun _ _ h₂ => h₂
  apply wp_bind_ok (writeBlock_apply h₂.works (by omega : b < cnt + logCnt) (length_newInode hsz type now))
  refine (wp_pure _).mpr (h₂.congr hd rfl fun x hx => ?_)
  unfold dataStart at hdata hx
  rw [setBlock_blocks, Function.update_of_ne (by omega)]

end Alloc

section Run

variable {fo : FileOperation} {s₀ s t : BlockManager sz cnt logCnt}

theorem eq_of_error {α : Type} {x : Bm sz cnt logCnt α} {e : ErrorType} (hx : x s = some (.error e, s))
    (hstep : (x s).map Prod.snd = some t) : t = s := by
  rw [hx] at hstep
  cases hstep
  rfl

theorem Proper.cases {id : ℕ} (h : Proper n fo s id)
    (herr : ∀ e, fo.inodeManager.readInode id s = some (.error e, s) → t = s) :
    t = s ∨ (0 < n ∧ 52 ≤ sz ∧ Named s id) := by
  obtain ⟨hne, hn, hsz⟩ | ⟨-, e, he⟩ := h
  · exact Or.inr ⟨hn, hsz, Or.inl hne⟩
  · exact Or.inl (herr e he)

theorem guarded_cases {c : Call} (hc : Guarded n fo s c) (hstep : Call.step fo s c = some t) :
    t = s ∨ (sizeofInode ≤ sz ∧ ∃ type now, c = .allocInode type now) ∨ (0 < n ∧ 52 ≤ sz ∧ c.names s) := by
  cases c with
  | allocInode type now => exact Or.inr (Or.inl ⟨hc, type, now, rfl⟩)
  | writeFile id content now =>
    exact (hc.cases fun e he => eq_of_error (x := fo.writeFile id content now) (bind_error he) hstep).imp_right Or.inr
  | writeFileWOff id data offset now =>
    exact (hc.cases fun e he => eq_of_error (x := fo.writeFileWOff id data offset now)
      (bind_error (bind_error he)) hstep).imp_right Or.inr
  | resize id size now =>
    exact (hc.cases fun e he => eq_of_error (x := fo.resize id size now)
      (bind_error (bind_error he)) hstep).imp_right Or.inr
  | removeFile id =>
    exact (hc.cases fun e he => eq_of_error (x := fo.removeFile id) (bind_error he) hstep).imp_right Or.inr

theorem super_of_changes (hl : Layout fo sz cnt) {files : ℕ → Option File} (hc : Changes fo s t files) :
    t.blocks 0 = s.blocks 0 := by
  obtain hk | ⟨id, new, -, hr⟩ := hc
  · have := hl.bitmap
    exact hk.marks.frame 0 (Or.inl (by omega))
  · exact hr.super

theorem super_of_reach (hd : Fitting sz cnt n) (hc : Created (FileOperation.fields sz cnt n) s₀ t)
    (hreach : Reach (Call.step (FileOperation.fields sz cnt n)) (Guarded n (FileOperation.fields sz cnt n)) t s) :
    s.blocks 0 = t.blocks 0 := by
  by_cases hfiles : 0 < n ∧ 52 ≤ sz
  · have hl := hd.layout hfiles.2 hfiles.1
    have hinv : ∃ files, Inv (FileOperation.fields sz cnt n) s files ∧ s.blocks 0 = t.blocks 0 := by
      refine hreach.invariant_ghost
        (I := fun s files => Inv (FileOperation.fields sz cnt n) s files ∧ s.blocks 0 = t.blocks 0) _
        ⟨hc.inv hd hfiles.2 hfiles.1, rfl⟩ fun s c u files hs hcall hstep => ?_
      obtain rfl | hcase := guarded_cases hcall hstep
      · exact ⟨files, hs⟩
      · have hnames : c.names s := by
          obtain ⟨-, type, now, rfl⟩ | ⟨-, -, hnames⟩ := hcase
          · trivial
          · exact hnames
        have hchanges := step_changes hl hs.1 hnames c.avoids_empty hstep
        obtain ⟨files', hinv⟩ := changes_inv hl hs.1 hchanges
        exact ⟨files', hinv, (super_of_changes hl hchanges).trans hs.2⟩
    obtain ⟨files, -, hsuper⟩ := hinv
    exact hsuper
  · have hinv : Reserves (FileOperation.fields sz cnt n) t s := by
      refine hreach.invariant ⟨hc.works, rfl, fun b hb hlt => ?_⟩ fun s c u hs hcall hstep => ?_
      · rw [hc.used b hb, decide_eq_true hlt]
      · obtain rfl | ⟨hsz, type, now, rfl⟩ | ⟨hn, hsz, -⟩ := guarded_cases hcall hstep
        · exact hs
        · obtain ⟨⟨r, v⟩, hrun, rfl⟩ := Option.map_eq_some_iff.mp hstep
          exact (allocInode_reserves hd hsz hs type now).of_eq hrun
        · exact absurd ⟨hn, hsz⟩ hfiles
    exact hinv.super

/-- A file system that is reopened, in any state that guarded calls lead to, is
the one that was created. -/
theorem reopens_of_guarded (hsmall : (cnt + logCnt) * sz < 2 ^ 32) (hs : s₀.maybeFailed = false)
    (hcreate : create n s₀ = some (.ok fo, t)) (hreach : Reach (Call.step fo) (Guarded n fo) t s) :
    Reopens fo s := by
  obtain ⟨hd, hg, hper, heq⟩ := fitting_of_create hsmall hcreate
  rw [create_eq hd hg hper heq] at hcreate
  obtain ⟨t', hrun, hc⟩ := hd.create_spec hs
  cases hrun.symm.trans hcreate
  have hmax : (InodeManager.fields sz n).maxInodeSupported < 2 ^ 64 := by
    obtain rfl | hn := Nat.eq_zero_or_pos n
    · rw [InodeManager.fields, blocksFor_zero, Nat.zero_mul, Nat.zero_mul]
      exact Nat.two_pow_pos 64
    · exact (hd.inodeFits hn).max_lt
  apply reopens_of_super hd hg hper
  rw [super_of_reach hd hc hreach, hc.super]
  exact getField_superBlock hmax

theorem guarded_of_hasName (hn : 0 < n) (hsz : 52 ≤ sz) (s : BlockManager sz cnt logCnt) (c : Call)
    (h : c.hasName = true) : Guarded n fo s c := by
  cases c with
  | allocInode =>
    unfold Guarded sizeofInode
    omega
  | writeFile | writeFileWOff | resize | removeFile => exact Or.inl ⟨by simpa [Call.hasName] using h, hn, hsz⟩

end Run

/-- A file of a reopened file system is read as it has been written. -/
theorem reopens_smallCalls : ∃ s : BlockManager 64 75 0, Reopens (FileOperation.fields 64 75 1) s ∧
    ((createFromRaw >>= fun fo => fo.readFile 1) s).map Prod.fst =
      some (.ok ([1, 2, 3] ++ List.replicate 57 0 ++ [4])) := by
  have hd : Fitting 64 75 1 := ⟨by decide, by decide, by decide⟩
  have hrun : ((FileOperation.create 1 (BlockManager.zeroed 64 75 0)).bind fun out =>
      (execOk (Call.step (FileOperation.fields 64 75 1)) (fun _ c => c.hasName) out.2 smallCalls).bind
        fun s => ((FileOperation.fields 64 75 1).readFile 1 s).map Prod.fst) =
        some (.ok ([1, 2, 3] ++ List.replicate 57 0 ++ [4])) := by decide +kernel
  obtain ⟨t, hcreate, -⟩ := hd.create_spec (s := BlockManager.zeroed 64 75 0) rfl
  rw [hcreate, Option.bind_some] at hrun
  obtain ⟨s, hexec, hread⟩ := Option.bind_eq_some_iff.mp hrun
  have heq : (create 1 : Bm 64 75 0 FileOperation) = FileOperation.create 1 :=
    create_eq hd ⟨by decide, by decide⟩ (by decide) (by decide +kernel)
  have hreopens := reopens_of_guarded (by decide) rfl ((congrFun heq _).trans hcreate)
    (reach_of_execOk (guarded_of_hasName (by decide) (by decide)) hexec)
  exact ⟨s, hreopens, (congrArg _ (hreopens.further _)).trans hread⟩

def leftInode : List UInt8 := setField (setField (setField (List.replicate 64 0) 28 8 64) 36 4 64) 40 4 2

def usedDevice : BlockManager 64 75 0 :=
  ((BlockManager.zeroed 64 75 0).setBlock 0 (setField (List.replicate 64 0) 56 8 70) (by decide)).setBlock 70
    leftInode (by decide)

/-- A file that is written under the id 0 goes to block 0. -/
theorem not_reopens_used : ∃ fo t s, create 1 usedDevice = some (.ok fo, t) ∧
    Call.step fo t (.writeFile invalidInodeId (List.replicate 64 1) 5) = some s ∧ ¬ Reopens fo s := by
  have hrun : ((create 1 usedDevice).bind fun out => match out.1 with
      | .ok fo => (Call.step fo out.2 (.writeFile invalidInodeId (List.replicate 64 1) 5)).map fun s =>
          (createFromRaw s).isNone
      | .error _ => none) = some true := by decide +kernel
  obtain ⟨⟨r, t⟩, hcreate, hrest⟩ := Option.bind_eq_some_iff.mp hrun
  cases r with
  | error e => cases hrest
  | ok fo =>
    obtain ⟨s, hstep, hnone⟩ := Option.map_eq_some_iff.mp hrest
    refine ⟨fo, t, s, hcreate, hstep, fun h => ?_⟩
    rw [h.handle] at hnone
    cases hnone

end Chfs.Fs.Reopening
