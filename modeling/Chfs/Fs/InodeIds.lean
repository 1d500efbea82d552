import Chfs.Block.Address
import Chfs.Fs.InodeTable

namespace Chfs.Fs.InodeIds

open Lib.Effect Lib.Bytes Lib.Run Block Block.Manager Block.Allocator Inode InodeTable

variable {sz cnt logCnt : ℕ}

def logic2Raw (id : ℕ) : ℕ := (id + (2 ^ 64 - 1)) % 2 ^ 64

def iblockId (sz id : ℕ) : ℕ := (1 + logic2Raw id / (sz / sizeofBlockId)) % 2 ^ 64

def iblockOffset (sz id : ℕ) : ℕ := logic2Raw id % (sz / sizeofBlockId)

def idBound (im : InodeManager) : ℕ := (im.maxInodeSupported + (2 ^ 64 - 1)) % 2 ^ 64

def get (id : ℕ) : Bm sz cnt logCnt ℕ := do
  require (sz / sizeofBlockId ≠ 0)
  let buffer ← Address.readBlock (iblockId sz id)
  pure (getField buffer (sizeofBlockId * iblockOffset sz id) sizeofBlockId)

def readInode (im : InodeManager) (id : ℕ) : Bm sz cnt logCnt (ℕ × List UInt8) := do
  if idBound im ≤ id then refuse .invalidArg else
    let blockId ← get id
    if blockId = invalidBlockId then refuse .invalidArg else
      let buffer ← Address.readBlock blockId
      pure (blockId, buffer)

def freeInode (im : InodeManager) (id : ℕ) : Bm sz cnt logCnt Unit := do
  if idBound im ≤ id then refuse .invalidArg else
    require (sz / sizeofBlockId ≠ 0)
    let buffer ← Address.readBlock (iblockId sz id)
    Address.writeBlock (iblockId sz id)
      (setField buffer (sizeofBlockId * iblockOffset sz id) sizeofBlockId invalidBlockId)
    require (Usize.totalBits sz ≠ 0)
    let ibitBlockId := (1 + im.nTableBlocks + logic2Raw id / Usize.totalBits sz) % 2 ^ 64
    let buffer ← Address.readBlock ibitBlockId
    Address.writeBlock ibitBlockId (Bitmap.clear buffer (logic2Raw id % Usize.totalBits sz))

def SameTable (im : InodeManager) (s t : BlockManager sz cnt logCnt) : Prop :=
  t.maybeFailed = s.maybeFailed ∧ ∀ b, 1 ≤ b → b < 1 + im.nTableBlocks + im.nBitmapBlocks → t.blocks b = s.blocks b

/-- `elsewhere` is anything else that runs, a refused call included. -/
inductive Event
  | call (e : InodeTable.Event)
  | elsewhere
  deriving DecidableEq

/-- The block of a new inode is one that the allocator has handed out. -/
def Happens (im : InodeManager) (s : BlockManager sz cnt logCnt) (e : Event) (t : BlockManager sz cnt logCnt) : Prop :=
  match e with
  | .call (.allocated id bid) => bid < cnt ∧ InodeTable.Happens im s (.allocated id bid) t
  | .call e => InodeTable.Happens im s e t
  | .elsewhere => SameTable im s t

def nextLive (live : Finset ℕ) : Event → Finset ℕ
  | .call (.allocated id _) => insert id live
  | .call (.freed id) => live.erase id
  | _ => live

def live (es : List Event) : Finset ℕ := es.foldl nextLive ∅

inductive Request
  | read (id : ℕ)
  | free (id : ℕ)

def Request.id : Request → ℕ
  | .read id | .free id => id

def Request.run (im : InodeManager) : Request → Bm sz cnt logCnt Unit
  | .read id => do
    let _ ← readInode im id
    pure ()
  | .free id => freeInode im id

/-- A live id is served. Any other one is refused, whatever the blocks outside
table and bitmap hold, and these stay as they are. -/
def Serves (im : InodeManager) (s : BlockManager sz cnt logCnt) (ids : Finset ℕ) (req : Request) : Prop :=
  if req.id ∈ ids then ∃ t, req.run im s = some (.ok (), t)
  else ∀ s', SameTable im s s' → ∃ t, req.run im s' = some (.error .invalidArg, t) ∧
    ∀ b, b = 0 ∨ 1 + im.nTableBlocks + im.nBitmapBlocks ≤ b → t.blocks b = s'.blocks b

/-- The table has room for inodes, the id is not 0, and not one of those at or
above the bound while it is live. Only live ids are freed below the bound. -/
def Proper (im : InodeManager) (ids : Finset ℕ) : Request → Prop
  | .read id => if id < idBound im then 0 < im.maxInodeSupported ∧ id ≠ 0 else id ∉ ids
  | .free id => id < idBound im ↔ id ∈ ids

section Calls

variable {im : InodeManager} {s t : BlockManager sz cnt logCnt} {id : ℕ}

theorem logic2Raw_eq (h1 : 1 ≤ id) (hlt : id < 2 ^ 64) : logic2Raw id = id - 1 := by
  unfold logic2Raw
  omega

theorem getField_ne_zero {buf : List UInt8} {off k : ℕ} {b : UInt8} (h : buf[off]? = some b) (hb : b ≠ 0) :
    getField buf off (k + 1) ≠ 0 := by
  obtain ⟨hlt, hget⟩ := List.getElem?_eq_some_iff.mp h
  rw [getField, slice, List.drop_eq_getElem_cons hlt, hget, List.take_succ_cons, leVal]
  intro hzero
  apply hb
  rw [← UInt8.toNat_inj]
  exact Nat.eq_zero_of_add_eq_zero_right hzero

theorem safe_require {p : Prop} [Decidable p] : safe (require p : Bm sz cnt logCnt Unit) (fun _ t => t = s ∧ p) s := by
  intro r t h
  obtain ⟨hp, rfl⟩ := of_require h
  rw [require_of hp] at h
  cases h
  exact ⟨(), rfl, rfl, hp⟩

theorem safe_readBlock : safe (Address.readBlock id) (fun buffer t => t = s ∧
    buffer = Address.bytesFrom s (Address.offsetOf sz id)) s := by
  intro r t h
  unfold Address.readBlock at h
  split at h
  case isTrue =>
    cases h
    exact ⟨_, rfl, rfl, rfl⟩
  case isFalse => cases h

theorem safe_writeBlock {data : List UInt8} (hs : s.maybeFailed = false) :
    safe (Address.writeBlock id data) (fun _ t => t.maybeFailed = false) s := fun _ _ h =>
  ⟨(), Address.writeBlock_ok hs h⟩

theorem freeInode_safe (hs : s.maybeFailed = false) (hid : id < idBound im) :
    safe (freeInode im id) (fun _ _ => True) s := by
  unfold freeInode
  rw [if_neg (Nat.not_le_of_lt hid)]
  refine safe_require.bind fun _ s₁ ⟨hs₁, _⟩ => safe_readBlock.bind fun _ s₂ ⟨hs₂, _⟩ => ?_
  rw [hs₂, hs₁]
  refine (safe_writeBlock hs).bind fun _ s₃ hs₃ => safe_require.bind fun _ s₄ ⟨hs₄, _⟩ =>
    safe_readBlock.bind fun _ s₅ ⟨hs₅, _⟩ => ?_
  rw [hs₅, hs₄]
  exact fun r t h => ⟨(), (Address.writeBlock_ok hs₃ h).1, trivial⟩

theorem readInode_safe (hid : id < idBound im) (hbyte : Address.byteAt s
      (Address.offsetOf sz (iblockId sz id) + sizeofBlockId * iblockOffset sz id) ≠ 0) :
    safe (readInode im id) (fun _ _ => True) s := by
  unfold readInode
  rw [if_neg (Nat.not_le_of_lt hid)]
  have hget : safe (get id) (fun w _ => w ≠ invalidBlockId) s := by
    unfold get
    refine safe_require.bind fun _ s₁ ⟨hs₁, hper⟩ => safe_readBlock.bind fun buffer s₂ ⟨_, hbuffer⟩ => safe_pure ?_
    have hlt : sizeofBlockId * iblockOffset sz id < sz := by
      have h1 : iblockOffset sz id < sz / sizeofBlockId := Nat.mod_lt _ (Nat.pos_of_ne_zero hper)
      have h2 := Nat.div_mul_le_self sz sizeofBlockId
      unfold sizeofBlockId at h1 h2 ⊢
      omega
    rw [hbuffer, hs₁]
    exact getField_ne_zero (Address.getElem?_bytesFrom hlt) hbyte
  refine hget.bind fun w s₁ hw => ?_
  rw [if_neg hw]
  exact safe_readBlock.bind fun _ _ _ => safe_pure trivial

theorem SameTable.entry (h : SameTable im s t) (him : im.Fits sz cnt) (hid : im.Valid id) :
    im.entry t id = im.entry s id := by
  have hlt := Fits.table_lt him hid
  unfold InodeManager.entry
  generalize (id - 1) / (sz / sizeofBlockId) = q at hlt
  rw [h.2 _ (by omega) (by omega)]

theorem SameTable.taken (h : SameTable im s t) (him : im.Fits sz cnt) (hid : im.Valid id) :
    im.taken t id = im.taken s id := by
  have hlt := Fits.bitmap_lt him hid
  unfold InodeManager.taken
  generalize (id - 1) / (sz * bitsPerByte) = q at hlt
  rw [h.2 _ (by omega) (by omega)]

variable (him : im.Fits sz cnt) (hsmall : (cnt + logCnt) * sz < 2 ^ 32)
include him hsmall

theorem totalBits_eq : Usize.totalBits sz = sz * bitsPerByte := by
  have hroom := him.room
  have htable := him.table
  have hper : sz / sizeofBlockId * sizeofBlockId ≤ sz := Nat.div_mul_le_self sz sizeofBlockId
  apply Nat.mod_eq_of_lt
  calc sz * bitsPerByte ≤ im.maxInodeSupported := by
        rw [him.max_eq]
        exact Nat.le_mul_of_pos_left _ him.bitmap_pos
    _ ≤ im.nTableBlocks * (sz / sizeofBlockId) := htable
    _ ≤ (cnt + logCnt) * sz := Nat.mul_le_mul (by omega) (Nat.div_le_self _ _)
    _ < 2 ^ 32 := hsmall

theorem block_lt {b : ℕ} (hb : b < cnt) : b < 2 ^ 32 := by
  have hle : cnt + logCnt ≤ (cnt + logCnt) * sz := Nat.le_mul_of_pos_right _ him.sz_pos
  omega

variable (h1 : 1 ≤ id) (hlt : id < idBound im)
include h1 hlt

omit hsmall in
theorem valid_of_lt : im.Valid id ∧ id < im.maxInodeSupported - 1 ∧ id < 2 ^ 64 := by
  have hmax := him.max_lt
  unfold idBound at hlt
  rw [Fits.bound_eq him] at hlt
  exact ⟨⟨h1, by omega⟩, hlt, by omega⟩

theorem iblock_eq : iblockId sz id = 1 + (id - 1) / (sz / sizeofBlockId) ∧
    iblockOffset sz id = (id - 1) % (sz / sizeofBlockId) ∧ iblockId sz id < cnt := by
  obtain ⟨hvalid, -, h64⟩ := valid_of_lt him h1 hlt
  have hroom := him.room
  have htab := Fits.table_lt him hvalid
  unfold iblockId iblockOffset
  rw [logic2Raw_eq h1 h64]
  generalize (id - 1) / (sz / sizeofBlockId) = q at htab
  have hq := block_lt him hsmall (by omega : 1 + q < cnt)
  rw [Nat.mod_eq_of_lt (by omega)]
  exact ⟨rfl, rfl, by omega⟩

theorem get_eq : get id s = some (.ok (im.entry s id), s) := by
  obtain ⟨hblock, hoff, hcnt⟩ := iblock_eq him hsmall h1 hlt
  unfold get
  rw [require_of (Nat.ne_of_gt him.perBlock_pos), bind_ok (pure_apply ()),
    bind_ok ((Address.readBlock_eq hsmall him.sz_pos (by omega)).trans (readBlock_apply s (by omega))), pure_apply,
    hblock,
    hoff]
  rfl

theorem readInode_dead (hzero : im.entry s id = invalidBlockId) :
    readInode im id s = some (.error .invalidArg, s) := by
  unfold readInode
  rw [if_neg (Nat.not_le_of_lt hlt), bind_ok (get_eq him hsmall h1 hlt), if_pos hzero, refuse_apply]

theorem readInode_live (hne : im.entry s id ≠ invalidBlockId) (hbid : im.entry s id < cnt) :
    readInode im id s = some (.ok (im.entry s id, s.blocks (im.entry s id)), s) := by
  unfold readInode
  rw [if_neg (Nat.not_le_of_lt hlt), bind_ok (get_eq him hsmall h1 hlt), if_neg hne,
    bind_ok ((Address.readBlock_eq hsmall him.sz_pos (by omega)).trans (readBlock_apply s (by omega))), pure_apply]

theorem freeInode_eq (hs : s.maybeFailed = false) : freeInode im id s = im.freeInode id s := by
  obtain ⟨hvalid, hmax, h64⟩ := valid_of_lt him h1 hlt
  obtain ⟨hblock, hoff, hcnt⟩ := iblock_eq him hsmall h1 hlt
  have hroom := him.room
  have hbit := Fits.bitmap_lt him hvalid
  have hlow := Fits.offset_le him (id - 1)
  have hbits := totalBits_eq him hsmall
  have hpos : 0 < sz * bitsPerByte := Nat.mul_pos him.sz_pos (by decide)
  have hset : (setField (s.blocks (iblockId sz id)) (sizeofBlockId * iblockOffset sz id) sizeofBlockId
      invalidBlockId).length = sz := by
    rw [hoff, length_setField (by rw [s.length_blocks]; exact hlow), s.length_blocks]
  have hwrite := writeBlock_apply hs (by omega : iblockId sz id < cnt + logCnt) hset
  have htable : im.setTable (id - 1) invalidBlockId s = some (.ok (), s.setBlock (iblockId sz id) _ hset) := by
    unfold InodeManager.setTable
    rw [← hblock, ← hoff, bind_ok (readBlock_apply s (by omega)), hwrite]
  have hibit : (1 + im.nTableBlocks + logic2Raw id / Usize.totalBits sz) % 2 ^ 64 =
      1 + im.nTableBlocks + (id - 1) / (sz * bitsPerByte) := by
    rw [logic2Raw_eq h1 h64, hbits]
    have := block_lt him hsmall (by omega : 1 + im.nTableBlocks + (id - 1) / (sz * bitsPerByte) < cnt)
    exact Nat.mod_eq_of_lt (by omega)
  have hread := readBlock_apply (s.setBlock (iblockId sz id) _ hset)
    (by omega : 1 + im.nTableBlocks + (id - 1) / (sz * bitsPerByte) < cnt + logCnt)
  unfold freeInode InodeManager.freeInode
  rw [if_neg (Nat.not_le_of_lt hlt), Fits.bound_eq him, if_neg (Nat.not_le_of_lt hmax),
    require_of (Nat.ne_of_gt him.perBlock_pos), bind_ok (pure_apply ()),
    bind_ok ((Address.readBlock_eq hsmall him.sz_pos (by omega)).trans (readBlock_apply s (by omega))),
    bind_ok ((Address.writeBlock_eq hsmall him.sz_pos (by omega)).trans hwrite),
    require_of (by rw [hbits]; omega), bind_ok (pure_apply ()), hibit,
    bind_ok ((Address.readBlock_eq hsmall him.sz_pos (by omega)).trans hread),
    Address.writeBlock_eq hsmall him.sz_pos (by omega), require_of (by omega : id ≠ 0),
    bind_ok (pure_apply ()), bind_ok htable,
    bind_ok hread, logic2Raw_eq h1 h64, hbits]

end Calls

section Run

variable {im : InodeManager} {s₀ s₁ s t : BlockManager sz cnt logCnt} {es : List Event} {e : Event}
  {req : Request} {n : ℕ}

structure Tracks (im : InodeManager) (ids : Finset ℕ) (s : BlockManager sz cnt logCnt) : Prop where
  works : s.maybeFailed = false
  entries : ∀ id, im.Valid id → (im.entry s id ≠ 0 ↔ id ∈ ids) ∧ im.entry s id < cnt
  bits : ∀ id, im.Valid id → (im.taken s id = true ↔ id ∈ ids)
  valid : ∀ id ∈ ids, im.Valid id

theorem Tracks.allocated (him : im.Fits sz cnt) {ids : Finset ℕ} (h : Tracks im ids s) {id bid : ℕ} (hlt : bid < cnt)
    (hstep : InodeTable.Happens im s (.allocated id bid) t) : Tracks im (insert id ids) t := by
  obtain ⟨hpos, hbid, hrun⟩ := hstep
  obtain ⟨hvalid, -, -, hr⟩ := (allocateInode_spec him h.works hbid).of_eq hrun
  refine ⟨hr.works.trans h.works, fun i hi => ?_, fun i hi => ?_, fun i hi => ?_⟩
  · rw [hr.entries i hi, Finset.mem_insert]
    by_cases hii : i = id
    · rw [hii, Function.update_self]
      exact ⟨⟨fun _ => Or.inl rfl, fun _ => Nat.ne_of_gt hpos⟩, hlt⟩
    · rw [Function.update_of_ne hii, or_iff_right hii]
      exact h.entries i hi
  · rw [hr.bits i hi, Finset.mem_insert]
    by_cases hii : i = id
    · rw [hii, Function.update_self]
      exact ⟨fun _ => Or.inl rfl, fun _ => rfl⟩
    · rw [Function.update_of_ne hii, or_iff_right hii]
      exact h.bits i hi
  · obtain rfl | hold := Finset.mem_insert.mp hi
    · exact hvalid
    · exact h.valid i hold

theorem Tracks.freed (him : im.Fits sz cnt) {ids : Finset ℕ} (h : Tracks im ids s) {id : ℕ}
    (hstep : InodeTable.Happens im s (.freed id) t) : Tracks im (ids.erase id) t := by
  obtain ⟨hpos, hid, hrun⟩ := hstep
  obtain ⟨u, hu, hr⟩ := freeInode_spec him h.works hpos (by omega)
  have hcnt : 0 < cnt := Nat.lt_of_le_of_lt (Nat.zero_le _) him.room
  cases hu.symm.trans hrun
  refine ⟨hr.works.trans h.works, fun i hi => ?_, fun i hi => ?_, fun i hi => h.valid i (Finset.mem_of_mem_erase hi)⟩
  · rw [hr.entries i hi, Finset.mem_erase]
    by_cases hii : i = id
    · rw [hii, Function.update_self]
      exact ⟨⟨fun hne => absurd rfl hne, fun hne => absurd rfl hne.1⟩, hcnt⟩
    · rw [Function.update_of_ne hii, and_iff_right hii]
      exact h.entries i hi
  · rw [hr.bits i hi, Finset.mem_erase]
    by_cases hii : i = id
    · rw [hii, Function.update_self]
      exact ⟨nofun, fun hne => absurd rfl hne.1⟩
    · rw [Function.update_of_ne hii, and_iff_right hii]
      exact h.bits i hi

theorem Tracks.same (him : im.Fits sz cnt) {ids : Finset ℕ} (h : Tracks im ids s) (hst : SameTable im s t) :
    Tracks im ids t where
  works := hst.1.trans h.works
  entries id hid := by
    rw [hst.entry him hid]
    exact h.entries id hid
  bits id hid := by
    rw [hst.taken him hid]
    exact h.bits id hid
  valid := h.valid

theorem live_snoc (es : List Event) (e : Event) : live (es ++ [e]) = nextLive (live es) e :=
  List.foldl_concat ..

theorem Tracks.step (him : im.Fits sz cnt) (h : Tracks im (live es) s) (hstep : Happens im s e t) :
    Tracks im (live (es ++ [e])) t := by
  rw [live_snoc]
  match e, hstep with
  | .call (.allocated id bid), ⟨hlt, hcall⟩ => exact h.allocated him hlt hcall
  | .call (.freed id), hcall => exact h.freed him hcall
  | .call (.full bid), ⟨_, hbid, err, hrun⟩ =>
    obtain ⟨-, rfl, -⟩ := (allocateInode_spec him h.works hbid).of_eq hrun
    exact h
  | .elsewhere, hsame => exact h.same him hsame

theorem tracks_of_path (hn : 0 < n) (hsmall : cnt * sz < 2 ^ 32) (hs : s₀.maybeFailed = false)
    (hopen : InodeTable.create n s₀ = some (.ok im, s₁)) (hroom : 1 + im.nTableBlocks + im.nBitmapBlocks < cnt)
    (hpath : Path (Happens im) s₁ es s) : im.Fits sz cnt ∧ Tracks im (live es) s := by
  have hfields := eq_fields64 hopen
  rw [hfields] at hroom
  obtain ⟨him, hw, -, hr⟩ := recorded_created hn hsmall hs hopen hroom
  have hcnt : 0 < cnt := Nat.lt_of_le_of_lt (Nat.zero_le _) hroom
  refine ⟨him, hpath.invariant (I := fun es s => Tracks im (live es) s) ?_ fun _ _ _ _ h hstep => h.step him hstep⟩
  refine ⟨hw, fun id hid => ?_, fun id hid => ?_, fun id hid => absurd hid (Finset.notMem_empty id)⟩
  · rw [hr.entries id hid]
    exact ⟨⟨fun hne => absurd rfl hne, fun hid => absurd hid (Finset.notMem_empty id)⟩, hcnt⟩
  · rw [hr.bits id hid]
    exact ⟨fun hfalse => absurd rfl (of_decide_eq_true hfalse), fun hid => absurd hid (Finset.notMem_empty id)⟩

theorem live_none (hroom : 1 < cnt) (hs : s₁.maybeFailed = false) (hpath : Path (Happens ⟨0, 0, 0⟩) s₁ es s) :
    s.maybeFailed = false ∧ live es = ∅ := by
  refine hpath.invariant (I := fun es s => s.maybeFailed = false ∧ live es = ∅) ⟨hs, rfl⟩
    fun es s e t ⟨hw, h⟩ hstep => ?_
  rw [live_snoc, h]
  match e, hstep with
  | .call (.allocated id bid), ⟨_, _, _, hrun⟩ => cases (allocateInode_none hroom s bid).symm.trans hrun
  | .call (.freed id), hcall => exact absurd hcall.2.1 (Nat.not_lt_zero _)
  | .call (.full bid), ⟨_, _, err, hrun⟩ =>
    cases (allocateInode_none hroom s bid).symm.trans hrun
    exact ⟨hw, rfl⟩
  | .elsewhere, hsame => exact ⟨hsame.1.trans hw, rfl⟩

def scribbled (im : InodeManager) (s : BlockManager sz cnt logCnt) : BlockManager sz cnt logCnt where
  blocks b := if 1 ≤ b ∧ b < 1 + im.nTableBlocks + im.nBitmapBlocks then s.blocks b else List.replicate sz 1
  maybeFailed := s.maybeFailed
  writeFailCnt := s.writeFailCnt
  length_blocks b := by
    split
    · exact s.length_blocks b
    · exact List.length_replicate

theorem sameTable_scribbled (im : InodeManager) (s : BlockManager sz cnt logCnt) : SameTable im s (scribbled im s) :=
  ⟨rfl, fun _ h1 h2 => if_pos ⟨h1, h2⟩⟩

theorem byteAt_scribbled {a : ℕ} (hsz : 0 < sz)
    (ha : ¬ (1 ≤ a / sz ∧ a / sz < 1 + im.nTableBlocks + im.nBitmapBlocks)) :
    Address.byteAt (scribbled im s) a ≠ 0 := by
  have hblock : (scribbled im s).blocks (a / sz) = List.replicate sz 1 := if_neg ha
  rw [Address.byteAt, hblock, List.getD_eq_getElem?_getD, List.getElem?_replicate_of_lt (Nat.mod_lt a hsz)]
  decide

theorem serves_of_mem {ids : Finset ℕ} (hmem : req.id ∈ ids) :
    Serves im s ids req ↔ ∃ t, req.run im s = some (.ok (), t) := iff_of_eq (if_pos hmem)

theorem serves_of_notMem {ids : Finset ℕ} (hmem : req.id ∉ ids) : Serves im s ids req ↔
    ∀ s', SameTable im s s' → ∃ t, req.run im s' = some (.error .invalidArg, t) ∧
      ∀ b, b = 0 ∨ 1 + im.nTableBlocks + im.nBitmapBlocks ≤ b → t.blocks b = s'.blocks b :=
  iff_of_eq (if_neg hmem)

theorem serves_refused {ids : Finset ℕ} (hid : idBound im ≤ req.id) : Serves im s ids req ↔ req.id ∉ ids := by
  have hrun : ∀ u : BlockManager sz cnt logCnt, req.run im u = some (.error .invalidArg, u) := by
    intro u
    cases req with
    | read id =>
      have hread : readInode im id u = some (.error .invalidArg, u) := by
        unfold readInode
        rw [if_pos (show idBound im ≤ id from hid), refuse_apply]
      exact bind_error hread
    | free id =>
      have hfree : freeInode im id u = some (.error .invalidArg, u) := by
        unfold freeInode
        rw [if_pos (show idBound im ≤ id from hid), refuse_apply]
      exact hfree
  by_cases hmem : req.id ∈ ids
  · rw [serves_of_mem hmem]
    constructor
    · rintro ⟨t, ht⟩
      cases (hrun s).symm.trans ht
    · exact fun hnot => absurd hmem hnot
  · rw [serves_of_notMem hmem]
    exact ⟨fun _ => hmem, fun _ s' _ => ⟨s', hrun s', fun _ _ => rfl⟩⟩

theorem not_serves_of_safe {ids : Finset ℕ} (hmem : req.id ∉ ids) (hst : SameTable im s t)
    (hsafe : safe (req.run im) (fun _ _ => True) t) : ¬ Serves im s ids req := by
  intro h
  obtain ⟨u, hu, -⟩ := (serves_of_notMem hmem).mp h t hst
  obtain ⟨a, ha, -⟩ := hsafe _ _ hu
  cases ha

theorem run_read_safe {id : ℕ} (hid : id < idBound im) (hbyte : Address.byteAt s
      (Address.offsetOf sz (iblockId sz id) + sizeofBlockId * iblockOffset sz id) ≠ 0) :
    safe (Request.run im (.read id)) (fun _ _ => True) s :=
  (readInode_safe hid hbyte).bind fun _ _ _ => safe_pure trivial

/-- The entry of the id 0 is the last word of block 0. -/
theorem byteAt_zero (him : im.Fits sz cnt) (hsmall : (cnt + logCnt) * sz < 2 ^ 32) (hmod : sz % 8 = 0) :
    Address.byteAt (scribbled im s) (Address.offsetOf sz (iblockId sz 0) + sizeofBlockId * iblockOffset sz 0) ≠ 0 := by
  have hpos := him.sz_pos
  have hper := him.perBlock_pos
  obtain ⟨per, hsz⟩ : ∃ per, sz = 8 * per := ⟨sz / 8, (Nat.mul_div_cancel' (Nat.dvd_of_mod_eq_zero hmod)).symm⟩
  have hdiv : sz / sizeofBlockId = per := by
    rw [hsz]
    exact Nat.mul_div_cancel_left _ (by decide)
  have hle : sz ≤ (cnt + logCnt) * sz := Nat.le_mul_of_pos_left _ (by have := him.room; omega)
  have hoff := Address.offset_before (hdiv ▸ hper) (hsz ▸ Nat.lt_of_le_of_lt hle hsmall)
  rw [← hsz, ← hdiv] at hoff
  apply byteAt_scribbled hpos
  change ¬ (1 ≤ (Address.offsetOf sz ((1 + (2 ^ 64 - 1) / (sz / sizeofBlockId)) % 2 ^ 64) +
    8 * ((2 ^ 64 - 1) % (sz / sizeofBlockId))) / sz ∧ _)
  rw [hoff, Nat.div_eq_of_lt (by omega)]
  omega

theorem proper_read {ids : Finset ℕ} {id : ℕ} (hid : id < idBound im) :
    Proper im ids (.read id) ↔ 0 < im.maxInodeSupported ∧ id ≠ 0 := by
  simp only [Proper, if_pos hid]

theorem proper_refused {ids : Finset ℕ} (hid : ¬ req.id < idBound im) : Proper im ids req ↔ req.id ∉ ids := by
  cases req with
  | read id =>
    simp only [Proper, if_neg (show ¬ id < idBound im from hid), Request.id]
  | free id => exact ⟨fun h hmem => hid (h.mpr hmem), fun h => iff_of_false hid h⟩

/-- With no inodes the bound has wrapped around, and every id below it is looked
up somewhere on the device. -/
theorem not_serves_none {ids : Finset ℕ} (hsz : 0 < sz) (hs : s.maybeFailed = false) (hmem : req.id ∉ ids)
    (hid : req.id < idBound ⟨0, 0, 0⟩) : ¬ Serves ⟨0, 0, 0⟩ s ids req := by
  cases req with
  | read id =>
    apply not_serves_of_safe hmem (sameTable_scribbled _ s)
    refine run_read_safe hid (byteAt_scribbled hsz fun h => ?_)
    have hlt := h.2
    simp only at hlt
    omega
  | free id => exact not_serves_of_safe hmem ⟨rfl, fun _ _ _ => rfl⟩ (freeInode_safe hs hid)

theorem not_proper_none {ids : Finset ℕ} (hmem : req.id ∉ ids) (hid : req.id < idBound ⟨0, 0, 0⟩) :
    ¬ Proper ⟨0, 0, 0⟩ ids req := by
  cases req with
  | read id => exact fun h => Nat.lt_irrefl 0 ((proper_read hid).mp h).1
  | free id => exact fun h => hmem (h.mp hid)

theorem serves_read {ids : Finset ℕ} (him : im.Fits sz cnt) (hsmall : (cnt + logCnt) * sz < 2 ^ 32)
    (h : Tracks im ids s) {id : ℕ} (hid : id < idBound im) (hzero : id = 0 → sz % 8 = 0) :
    Serves im s ids (.read id) ↔ id ≠ 0 := by
  obtain rfl | h1 := Nat.eq_zero_or_pos id
  · refine iff_of_false ?_ fun hne => hne rfl
    have hmem : 0 ∉ ids := fun hmem => absurd (h.valid 0 hmem).1 (Nat.not_succ_le_zero 0)
    exact not_serves_of_safe hmem (sameTable_scribbled im s) (run_read_safe hid (byteAt_zero him hsmall (hzero rfl)))
  · refine iff_of_true ?_ (Nat.ne_of_gt h1)
    obtain ⟨hvalid, -, -⟩ := valid_of_lt him h1 hid
    obtain ⟨hlive, hlt⟩ := h.entries id hvalid
    by_cases hmem : id ∈ ids
    · refine (serves_of_mem hmem).mpr ⟨s, ?_⟩
      exact (bind_ok (readInode_live him hsmall h1 hid (hlive.mpr hmem) hlt)).trans (pure_apply ())
    · refine (serves_of_notMem hmem).mpr fun s' hst =>
        ⟨s', bind_error (readInode_dead him hsmall h1 hid ?_), fun _ _ => rfl⟩
      rw [hst.entry him hvalid]
      exact Classical.not_not.mp fun hne => hmem (hlive.mp hne)

theorem serves_free {ids : Finset ℕ} (him : im.Fits sz cnt) (hsmall : (cnt + logCnt) * sz < 2 ^ 32)
    (h : Tracks im ids s) {id : ℕ} (hid : id < idBound im) : Serves im s ids (.free id) ↔ id ∈ ids := by
  by_cases hmem : id ∈ ids
  · refine iff_of_true ?_ hmem
    have h1 := (h.valid id hmem).1
    obtain ⟨-, hmax, -⟩ := valid_of_lt him h1 hid
    obtain ⟨t, ht, -⟩ := freeInode_spec him h.works h1 hmax
    exact (serves_of_mem hmem).mpr ⟨t, (freeInode_eq him hsmall h1 hid h.works).trans ht⟩
  · exact iff_of_false (not_serves_of_safe hmem ⟨rfl, fun _ _ _ => rfl⟩ (freeInode_safe h.works hid)) hmem

theorem serves_iff_proper (hsmall : (cnt + logCnt) * sz < 2 ^ 32) (hs : s₀.maybeFailed = false)
    (hopen : InodeTable.create n s₀ = some (.ok im, s₁)) (hroom : 1 + im.nTableBlocks + im.nBitmapBlocks < cnt)
    (hpath : Path (Happens im) s₁ es s) (hzero : req.id = 0 → sz % 8 = 0) :
    Serves im s (live es) req ↔ Proper im (live es) req := by
  by_cases hid : req.id < idBound im
  case neg => rw [serves_refused (Nat.le_of_not_lt hid), proper_refused hid]
  case pos =>
    have hfields := eq_fields64 hopen
    obtain rfl | hn := Nat.eq_zero_or_pos n
    · obtain ⟨-, hper, hw, -⟩ := create_spec hs (hfields ▸ Nat.le_of_lt hroom) hopen
      have hsz : 0 < sz := by
        apply Nat.pos_of_ne_zero
        rintro rfl
        exact hper rfl
      rw [fields64_zero] at hfields
      subst hfields
      obtain ⟨hworks, hnone⟩ := live_none hroom hw hpath
      have hmem : req.id ∉ live es := by
        rw [hnone]
        exact Finset.notMem_empty _
      exact iff_of_false (not_serves_none hsz hworks hmem hid) (not_proper_none hmem hid)
    · have hle : cnt * sz ≤ (cnt + logCnt) * sz := Nat.mul_le_mul_right _ (Nat.le_add_right _ _)
      obtain ⟨him, h⟩ := tracks_of_path hn (Nat.lt_of_le_of_lt hle hsmall) hs hopen hroom hpath
      cases req with
      | read id =>
        refine (serves_read him hsmall h hid hzero).trans ?_
        have hpos : 0 < im.maxInodeSupported := by
          rw [him.max_eq]
          exact Nat.mul_pos him.bitmap_pos (Nat.mul_pos him.sz_pos (by decide))
        have hlt : id < idBound im := hid
        rw [proper_read hlt]
        exact ⟨fun hne => ⟨hpos, hne⟩, fun hp => hp.2⟩
      | free id =>
        refine (serves_free him hsmall h hid).trans ?_
        exact ⟨fun hmem => iff_of_true hid hmem, fun hp => hp.mp hid⟩

/-- An inode that has been allocated is read. -/
theorem serves_iff_proper_one : ∃ (im : InodeManager) (s₁ s : BlockManager 8 67 0) (id : ℕ),
    InodeTable.create 1 (BlockManager.zeroed 8 67 0) = some (.ok im, s₁) ∧
    Path (Happens im) s₁ [.call (.allocated id 66)] s ∧
    Serves im s (live [.call (.allocated id 66)]) (.read id) := by
  obtain ⟨s₁, hopen⟩ := exists_created (by decide : 65 < 67)
  obtain ⟨him, h⟩ := tracks_of_path (by decide) (by decide) rfl hopen (by decide) Path.nil
  obtain ⟨r, t, hrun, hspec⟩ := allocateInode_spec him h.works (by decide : 66 < 2 ^ 64)
  cases r with
  | ok id =>
    obtain ⟨hvalid, -, hfirst, -⟩ := hspec
    have hpath : Path (Happens _) s₁ [.call (.allocated id 66)] t :=
      Path.nil.snoc ⟨by decide, by decide, by decide, hrun⟩
    -- the first id is free
    have hle : id ≤ 1 := by
      by_contra hgt
      have hmem := (h.bits 1 ⟨Nat.le_refl 1, by decide⟩).mp (hfirst 1 (Nat.le_refl 1) (Nat.lt_of_not_le hgt))
      exact absurd hmem (Finset.notMem_empty 1)
    obtain rfl : id = 1 := Nat.le_antisymm hle hvalid.1
    exact ⟨_, s₁, t, 1, hopen, hpath,
      (serves_iff_proper (by decide) rfl hopen (by decide) hpath fun _ => rfl).mpr ⟨by decide, by decide⟩⟩
  | error err =>
    have hmem := (h.bits 1 ⟨Nat.le_refl 1, by decide⟩).mp (hspec.2.2 1 ⟨Nat.le_refl 1, by decide⟩)
    exact absurd hmem (Finset.notMem_empty 1)

/-- An inode that has never been allocated is freed. -/
theorem not_serves_free_unallocated : ∃ (im : InodeManager) (s₁ t : BlockManager 8 67 0),
    InodeTable.create 1 (BlockManager.zeroed 8 67 0) = some (.ok im, s₁) ∧
    freeInode im 1 s₁ = some (.ok (), t) ∧ ¬ Serves im s₁ (live []) (.free 1) := by
  obtain ⟨s₁, hopen⟩ := exists_created (by decide : 65 < 67)
  obtain ⟨him, h⟩ := tracks_of_path (by decide) (by decide) rfl hopen (by decide) Path.nil
  have hid : 1 < idBound ⟨64, 64, 1⟩ := by decide
  obtain ⟨t, ht, -⟩ := freeInode_spec him h.works (Nat.le_refl 1) (by decide)
  refine ⟨_, s₁, t, hopen, (freeInode_eq him (by decide) (Nat.le_refl 1) hid h.works).trans ht, fun hserves => ?_⟩
  exact absurd ((serves_free him (by decide) h hid).mp hserves) (Finset.notMem_empty 1)

end Run

end Chfs.Fs.InodeIds
