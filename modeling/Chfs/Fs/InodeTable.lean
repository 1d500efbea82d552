import Chfs.Block.Usize
import Chfs.Fs.Inode
import Chfs.Lib.Run
import Mathlib.Data.Finset.Card
import Mathlib.Order.Bounds.Basic
import Mathlib.Order.Interval.Finset.Nat

namespace Chfs.Fs.InodeTable

open Lib.Effect Lib.Bytes Lib.Run Block.Manager Block.Allocator Block.Usize Inode

variable {sz cnt logCnt : ℕ}

def fields64 (sz maxInodeSupported : ℕ) : InodeManager :=
  let nBitmapBlocks := blocksFor maxInodeSupported (totalBits sz)
  let maxInodeSupported := nBitmapBlocks * bitsPerByte * sz % 2 ^ 64
  { maxInodeSupported := maxInodeSupported
    nTableBlocks := blocksFor maxInodeSupported (sz / sizeofBlockId)
    nBitmapBlocks := nBitmapBlocks }

def create (maxInodeSupported : ℕ) : Bm sz cnt logCnt InodeManager := do
  require (totalBits sz ≠ 0 ∧ sz / sizeofBlockId ≠ 0)
  let im := fields64 sz maxInodeSupported
  zeroBlocks im.nTableBlocks 1
  zeroBlocks im.nBitmapBlocks (1 + im.nTableBlocks)
  pure im

/-- What a call returns. `free_inode` is called for ids below the last two. -/
inductive Event
  | allocated (id bid : ℕ)
  | full (bid : ℕ)
  | freed (id : ℕ)
  deriving DecidableEq

def Happens (im : InodeManager) (s : BlockManager sz cnt logCnt) (e : Event) (t : BlockManager sz cnt logCnt) :
    Prop :=
  match e with
  | .allocated id bid => 0 < bid ∧ bid < 2 ^ 64 ∧ im.allocateInode bid s = some (.ok id, t)
  | .full bid => 0 < bid ∧ bid < 2 ^ 64 ∧ ∃ err, im.allocateInode bid s = some (.error err, t)
  | .freed id => 1 ≤ id ∧ id + 1 < im.maxInodeSupported ∧ im.freeInode id s = some (.ok (), t)

def nextBid (id bid : ℕ) : Event → ℕ
  | .allocated id' bid' => if id' = id then bid' else bid
  | .freed id' => if id' = id then 0 else bid
  | .full _ => bid

/-- The block that the last allocation of the inode was made with, 0 if it has
been freed. -/
def bidOf (es : List Event) (id : ℕ) : ℕ := es.foldl (nextBid id) 0

/-- Table and bitmap agree with each other and with the calls. -/
structure InStep (im : InodeManager) (s₀ s : BlockManager sz cnt logCnt) (bids : ℕ → ℕ) : Prop where
  bit : ∀ r < im.maxInodeSupported, im.taken s (r + 1) = true ↔ im.entry s (r + 1) ≠ 0
  get : ∀ r < im.maxInodeSupported, im.get (r + 1) s = some (.ok (bids (r + 1)), s)
  allocate : ∀ bid, 0 < bid → bid < 2 ^ 64 → ∃ r t, im.allocateInode bid s = some (r, t) ∧
    ((∃ id, r = .ok id ∧ IsLeast {id | im.Valid id ∧ bids id = 0} id) ∨
      (r = .error .outOfResource ∧ ∀ id, im.Valid id → bids id ≠ 0))
  count : im.freeInodeCnt s = some (.ok (im.maxInodeSupported -
    ((Finset.Icc 1 im.maxInodeSupported).filter fun id => bids id ≠ 0).card), s)
  frame : ∀ b, b = 0 ∨ 1 + im.nTableBlocks + im.nBitmapBlocks ≤ b → s.blocks b = s₀.blocks b

section Constructor

variable {n : ℕ} {im : InodeManager} {s t : BlockManager sz cnt logCnt}

theorem blocksFor_zero (per : ℕ) : blocksFor 0 per = 0 := by
  unfold blocksFor
  rw [Nat.zero_div, Nat.zero_mul, if_neg (Nat.lt_irrefl 0)]

theorem le_blocksFor_mul {m per : ℕ} (hper : 0 < per) : m ≤ blocksFor m per * per := by
  have hdm := Nat.div_add_mod m per
  have hlt := Nat.mod_lt m hper
  rw [Nat.mul_comm] at hdm
  unfold blocksFor
  split
  case isTrue =>
    rw [Nat.succ_mul]
    omega
  case isFalse hnot => omega

theorem div_le_blocksFor (m per : ℕ) : m / per ≤ blocksFor m per := by
  unfold blocksFor
  split
  · exact Nat.le_succ _
  · exact Nat.le_refl _

theorem fields64_eq (hsmall : cnt * sz < 2 ^ 32) (hper : sz / sizeofBlockId ≠ 0)
    (hfits : 1 + (fields64 sz n).nTableBlocks + (fields64 sz n).nBitmapBlocks ≤ cnt) :
    fields64 sz n = InodeManager.fields sz n := by
  obtain rfl | hn := Nat.eq_zero_or_pos n
  · unfold fields64 InodeManager.fields
    simp only [blocksFor_zero, Nat.zero_mul, Nat.zero_mod]
  · obtain ⟨nb, hnb⟩ : ∃ nb, nb = blocksFor n (totalBits sz) := ⟨_, rfl⟩
    have hnb' : (fields64 sz n).nBitmapBlocks = nb := hnb.symm
    have hnt' : (fields64 sz n).nTableBlocks = blocksFor (nb * bitsPerByte * sz % 2 ^ 64) (sz / sizeofBlockId) := by
      rw [hnb]
      rfl
    have hone : 1 ≤ nb := by
      rw [hnb]
      unfold blocksFor
      split
      case isTrue => exact Nat.succ_pos _
      case isFalse hnot =>
        by_contra hz
        rw [Nat.eq_zero_of_not_pos hz, Nat.zero_mul] at hnot
        exact hnot hn
    have hsz : sz / sizeofBlockId * sizeofBlockId ≤ sz := Nat.div_mul_le_self _ _
    have hmul : nb * sz ≤ cnt * sz := Nat.mul_le_mul_right _ (by omega)
    have hmax : nb * bitsPerByte * sz % 2 ^ 64 = nb * bitsPerByte * sz := by
      apply Nat.mod_eq_of_lt
      calc nb * bitsPerByte * sz = nb * sz * bitsPerByte := Nat.mul_right_comm _ _ _
        _ < 2 ^ 64 := by
          unfold bitsPerByte
          omega
    rw [hmax] at hnt'
    -- a table block has room for an eighth of the bits of a bitmap block
    have htable : 64 ≤ nb * bitsPerByte * sz / (sz / sizeofBlockId) := by
      rw [Nat.le_div_iff_mul_le (Nat.pos_of_ne_zero hper)]
      have hle : sz ≤ nb * sz := Nat.le_mul_of_pos_left _ hone
      rw [Nat.mul_right_comm]
      unfold bitsPerByte
      unfold sizeofBlockId at hsz ⊢
      omega
    have hcnt : 66 ≤ cnt := by
      have := div_le_blocksFor (nb * bitsPerByte * sz) (sz / sizeofBlockId)
      omega
    have hbits : totalBits sz = sz * bitsPerByte := by
      apply Nat.mod_eq_of_lt
      have := Nat.mul_le_mul_right sz hcnt
      unfold bitsPerByte
      omega
    have hnb₂ : blocksFor n (sz * bitsPerByte) = nb := by rw [hnb, hbits]
    unfold fields64 InodeManager.fields
    simp only
    rw [hnb₂, ← hnb, hmax]

theorem fields_fits (hper : 0 < sz / sizeofBlockId) (hn : 0 < n) (hsmall : cnt * sz < 2 ^ 32)
    (hroom : 1 + (InodeManager.fields sz n).nTableBlocks + (InodeManager.fields sz n).nBitmapBlocks < cnt) :
    (InodeManager.fields sz n).Fits sz cnt := by
  have hsz : 0 < sz := by
    apply Nat.pos_of_ne_zero
    rintro rfl
    exact Nat.lt_irrefl 0 hper
  have hbits : 0 < sz * bitsPerByte := Nat.mul_pos hsz (by decide)
  have hnb : 0 < (InodeManager.fields sz n).nBitmapBlocks := by
    have hle := le_blocksFor_mul (m := n) hbits
    by_contra hz
    change ¬ 0 < blocksFor n (sz * bitsPerByte) at hz
    rw [Nat.eq_zero_of_not_pos hz, Nat.zero_mul] at hle
    omega
  have hmax : (InodeManager.fields sz n).maxInodeSupported =
      (InodeManager.fields sz n).nBitmapBlocks * (sz * bitsPerByte) := by
    change _ * _ * _ = _
    rw [Nat.mul_assoc, Nat.mul_comm bitsPerByte sz]
    rfl
  refine ⟨hsz, hper, hmax, hnb, le_blocksFor_mul hper, hroom, ?_⟩
  · rw [hmax, ← Nat.mul_assoc]
    have hle : (InodeManager.fields sz n).nBitmapBlocks * sz ≤ cnt * sz :=
      Nat.mul_le_mul_right _ (by omega)
    unfold bitsPerByte
    omega

theorem fields64_zero (sz : ℕ) : fields64 sz 0 = ⟨0, 0, 0⟩ := by
  unfold fields64
  simp only [blocksFor_zero, Nat.zero_mul, Nat.zero_mod]

theorem eq_fields64 (hopen : create n s = some (.ok im, t)) : im = fields64 sz n := by
  unfold create at hopen
  obtain ⟨_, s₁, -, hopen₁⟩ := bind_eq_ok hopen
  obtain ⟨_, s₂, -, hopen₂⟩ := bind_eq_ok hopen₁
  obtain ⟨_, s₃, -, hopen₃⟩ := bind_eq_ok hopen₂
  cases hopen₃
  rfl

theorem create_spec (hs : s.maybeFailed = false)
    (hfits : 1 + (fields64 sz n).nTableBlocks + (fields64 sz n).nBitmapBlocks ≤ cnt)
    (hopen : create n s = some (.ok im, t)) : im = fields64 sz n ∧ sz / sizeofBlockId ≠ 0 ∧
      t.maybeFailed = false ∧ ∀ b, t.blocks b =
        if 1 ≤ b ∧ b < 1 + im.nTableBlocks + im.nBitmapBlocks then List.replicate sz 0 else s.blocks b := by
  unfold create at hopen
  obtain ⟨_, s₁, hrequire, hopen₁⟩ := bind_eq_ok hopen
  obtain ⟨⟨-, hper⟩, rfl⟩ := of_require hrequire
  obtain ⟨t₁, hrun₁, hw₁, -, hblocks₁⟩ := zeroBlocks_spec s₁ (fields64 sz n).nTableBlocks 1 (by omega)
  obtain ⟨t₂, hrun₂, hw₂, -, hblocks₂⟩ := zeroBlocks_spec t₁ (fields64 sz n).nBitmapBlocks
    (1 + (fields64 sz n).nTableBlocks) (by omega)
  simp only at hopen₁
  rw [bind_ok hrun₁, bind_ok hrun₂, pure_apply] at hopen₁
  cases hopen₁
  refine ⟨rfl, hper, hw₂.trans (hw₁.trans hs), fun b => ?_⟩
  rw [hblocks₂, hblocks₁]
  by_cases hb : 1 + (fields64 sz n).nTableBlocks ≤ b ∧
      b < 1 + (fields64 sz n).nTableBlocks + (fields64 sz n).nBitmapBlocks
  · rw [if_pos hb, if_pos (by omega)]
  · rw [if_neg hb]
    by_cases hb' : 1 ≤ b ∧ b < 1 + (fields64 sz n).nTableBlocks
    · rw [if_pos hb', if_pos (by omega)]
    · rw [if_neg hb', if_neg (by omega)]

theorem records_zeroed (him : im.Fits sz cnt) (hw : t.maybeFailed = s.maybeFailed) (hblocks : ∀ b, t.blocks b =
      if 1 ≤ b ∧ b < 1 + im.nTableBlocks + im.nBitmapBlocks then List.replicate sz 0 else s.blocks b) :
    im.Records s t (fun _ => 0) fun _ => false where
  works := hw
  frame b hb := by rw [hblocks, if_neg (by omega)]
  entries id hid := by
    have hlt := Fits.table_lt him hid
    unfold InodeManager.entry
    generalize (id - 1) / (sz / sizeofBlockId) = q at hlt
    rw [hblocks, if_pos (by omega), getField_replicate]
  bits id hid := by
    have hlt := Fits.bitmap_lt him hid
    unfold InodeManager.taken
    generalize (id - 1) / (sz * bitsPerByte) = q at hlt
    rw [hblocks, if_pos (by omega), Bitmap.check_zeros]

end Constructor

section Run

variable {im : InodeManager} {s₀ s t : BlockManager sz cnt logCnt} {es : List Event} {e : Event} {bids : ℕ → ℕ}

def Recorded (im : InodeManager) (s₀ : BlockManager sz cnt logCnt) (es : List Event)
    (s : BlockManager sz cnt logCnt) : Prop :=
  s.maybeFailed = false ∧ (∀ id, bidOf es id < 2 ^ 64) ∧
    im.Records s₀ s (bidOf es) fun id => decide (bidOf es id ≠ 0)

theorem Recorded.put (h : Recorded im s₀ es s) {id bid : ℕ} (hbid : bid < 2 ^ 64)
    (hnext : bidOf (es ++ [e]) = Function.update (bidOf es) id bid)
    (hr : im.Records s t (Function.update (im.entry s) id bid) (Function.update (im.taken s) id (decide (bid ≠ 0)))) :
    Recorded im s₀ (es ++ [e]) t := by
  obtain ⟨hs, hlt, h⟩ := h
  rw [Recorded, hnext]
  refine ⟨hr.works.trans hs, fun i => ?_, hr.works.trans h.works, fun b hb => ?_, fun i hi => ?_, fun i hi => ?_⟩
  · by_cases hii : i = id
    · rw [hii, Function.update_self]
      exact hbid
    · rw [Function.update_of_ne hii]
      exact hlt i
  · rw [hr.frame b hb, h.frame b hb]
  · rw [hr.entries i hi]
    by_cases hii : i = id
    · rw [hii, Function.update_self, Function.update_self]
    · rw [Function.update_of_ne hii, Function.update_of_ne hii, h.entries i hi]
  · rw [hr.bits i hi]
    by_cases hii : i = id
    · rw [hii, Function.update_self, Function.update_self]
    · rw [Function.update_of_ne hii, Function.update_of_ne hii, h.bits i hi]

theorem bidOf_snoc (es : List Event) {id bid : ℕ}
    (he : ∀ i b, nextBid i b e = if id = i then bid else b) :
    bidOf (es ++ [e]) = Function.update (bidOf es) id bid := by
  funext i
  rw [bidOf, List.foldl_concat, he, Function.update_apply]
  by_cases hii : i = id
  · rw [if_pos hii.symm, if_pos hii]
  · rw [if_neg (Ne.symm hii), if_neg hii]
    rfl

theorem Recorded.step (him : im.Fits sz cnt) (h : Recorded im s₀ es s) (hstep : Happens im s e t) :
    Recorded im s₀ (es ++ [e]) t := by
  cases e with
  | allocated id bid =>
    obtain ⟨hpos, hbid, hrun⟩ := hstep
    obtain ⟨hvalid, hfree, -, hr⟩ := (allocateInode_spec him h.1 hbid).of_eq hrun
    refine h.put hbid (bidOf_snoc es fun _ _ => rfl) ?_
    rw [decide_eq_true (Nat.ne_of_gt hpos)]
    exact hr
  | full bid =>
    obtain ⟨-, hbid, err, hrun⟩ := hstep
    obtain ⟨-, rfl, -⟩ := (allocateInode_spec him h.1 hbid).of_eq hrun
    have hsame : bidOf (es ++ [.full bid]) = bidOf es := by
      funext i
      rw [bidOf, List.foldl_concat]
      rfl
    rw [Recorded, hsame]
    exact h
  | freed id =>
    obtain ⟨hpos, hid, hrun⟩ := hstep
    obtain ⟨u, hu, hr⟩ := freeInode_spec him h.1 hpos (by omega)
    cases hu.symm.trans hrun
    exact h.put (by decide) (bidOf_snoc es fun _ _ => rfl) hr

theorem countP_free {m : ℕ} {taken : ℕ → Bool} (h : ∀ id, 1 ≤ id → id ≤ m → taken id = decide (bids id ≠ 0)) :
    (List.range m).countP (fun i => !taken (i + 1)) = m - ((Finset.Icc 1 m).filter fun id => bids id ≠ 0).card := by
  have hcount : (List.range m).countP (fun i => taken (i + 1)) =
      ((Finset.Icc 1 m).filter fun id => bids id ≠ 0).card := by
    have himage : (Finset.Icc 1 m).filter (fun id => bids id ≠ 0) =
        ((Finset.range m).filter fun i => taken (i + 1) = true).map ⟨(· + 1), Nat.succ_injective⟩ := by
      ext id
      rw [Finset.mem_map, Finset.mem_filter, Finset.mem_Icc]
      constructor
      · rintro ⟨⟨h1, h2⟩, hne⟩
        refine ⟨id - 1, ?_, Nat.sub_add_cancel h1⟩
        rw [Finset.mem_filter, Finset.mem_range, Nat.sub_add_cancel h1, h id h1 h2, decide_eq_true_iff]
        exact ⟨by omega, hne⟩
      · rintro ⟨i, hi, rfl⟩
        rw [Finset.mem_filter, Finset.mem_range] at hi
        obtain ⟨hlt, htaken⟩ := hi
        rw [h (i + 1) (Nat.succ_pos i) hlt, decide_eq_true_iff] at htaken
        exact ⟨⟨Nat.succ_pos i, hlt⟩, htaken⟩
    rw [himage, Finset.card_map, List.countP_eq_length_filter, Finset.card_def, Finset.filter_val, Finset.range_val,
      Multiset.range, Multiset.filter_coe, Multiset.coe_card]
    simp
  have hsum := List.length_eq_countP_add_countP (fun i => taken (i + 1)) (l := List.range m)
  have hnot : (List.range m).countP (fun i => decide ¬ taken (i + 1) = true) =
      (List.range m).countP fun i => !taken (i + 1) := by
    congr 1
    funext i
    simp
  rw [List.length_range, hnot, hcount] at hsum
  omega

theorem Recorded.inStep (him : im.Fits sz cnt) (h : Recorded im s₀ es s) : InStep im s₀ s (bidOf es) := by
  obtain ⟨hs, hlt, hr⟩ := h
  have hvalid : ∀ r < im.maxInodeSupported, im.Valid (r + 1) := fun r hr => ⟨Nat.succ_pos r, hr⟩
  constructor
  case bit =>
    intro r hlt
    rw [hr.bits _ (hvalid r hlt), hr.entries _ (hvalid r hlt), decide_eq_true_iff]
  case get =>
    intro r hlt
    rw [get_apply him (hvalid r hlt), hr.entries _ (hvalid r hlt)]
  case allocate =>
    intro bid hpos hbid
    obtain ⟨r, t, hrun, hspec⟩ := allocateInode_spec him hs hbid
    refine ⟨r, t, hrun, ?_⟩
    cases r with
    | ok id =>
      obtain ⟨hid, hfree, hfirst, -⟩ := hspec
      refine Or.inl ⟨id, rfl, ⟨hid, ?_⟩, fun i ⟨hi, hzero⟩ => ?_⟩
      · rw [hr.bits id hid] at hfree
        simpa using hfree
      · by_contra hlow
        have htaken := hfirst i hi.1 (Nat.lt_of_not_le hlow)
        rw [hr.bits i hi, decide_eq_true_iff] at htaken
        exact htaken hzero
    | error err =>
      obtain ⟨rfl, rfl, hall⟩ := hspec
      refine Or.inr ⟨rfl, fun id hid => ?_⟩
      have htaken := hall id hid
      rw [hr.bits id hid, decide_eq_true_iff] at htaken
      exact htaken
  case count =>
    rw [freeInodeCnt_spec him, countP_free]
    exact fun id h1 h2 => hr.bits id ⟨h1, h2⟩
  case frame => exact hr.frame

theorem recorded_created {n : ℕ} (hn : 0 < n) (hsmall : cnt * sz < 2 ^ 32) (hs : s₀.maybeFailed = false)
    (hopen : create n s₀ = some (.ok im, t))
    (hroom : 1 + (fields64 sz n).nTableBlocks + (fields64 sz n).nBitmapBlocks < cnt) :
    im.Fits sz cnt ∧ Recorded im s₀ [] t := by
  obtain ⟨rfl, hper, hw, hblocks⟩ := create_spec hs (Nat.le_of_lt hroom) hopen
  have heq := fields64_eq hsmall hper (Nat.le_of_lt hroom)
  have him : (fields64 sz n).Fits sz cnt := by
    rw [heq] at hroom ⊢
    exact fields_fits (Nat.pos_of_ne_zero hper) hn hsmall hroom
  exact ⟨him, hw, fun _ => Nat.two_pow_pos 64, records_zeroed him (hw.trans hs.symm) hblocks⟩

theorem allocateInode_none (hroom : 1 < cnt) (s : BlockManager sz cnt logCnt) (bid : ℕ) :
    (⟨0, 0, 0⟩ : InodeManager).allocateInode bid s = some (.error .outOfResource, s) :=
  (bind_ok (readBlock_apply s (Nat.lt_add_right logCnt hroom))).trans rfl

theorem inStep_none {s : BlockManager sz cnt logCnt} (hroom : 1 < cnt) (hpath : Path (Happens ⟨0, 0, 0⟩) t es s)
    (hblocks : ∀ b, t.blocks b = s₀.blocks b) : InStep ⟨0, 0, 0⟩ s₀ s (bidOf es) := by
  have hsame : ∀ b, s.blocks b = s₀.blocks b := by
    refine hpath.invariant (I := fun _ s => ∀ b, s.blocks b = s₀.blocks b) hblocks ?_
    rintro es u e v hu hstep
    cases e with
    | allocated id bid =>
      obtain ⟨-, -, hrun⟩ := hstep
      cases (allocateInode_none hroom u bid).symm.trans hrun
    | full bid =>
      obtain ⟨-, -, err, hrun⟩ := hstep
      cases (allocateInode_none hroom u bid).symm.trans hrun
      exact hu
    | freed id => exact absurd hstep.2.1 (Nat.not_lt_zero _)
  refine ⟨fun r hr => absurd hr (Nat.not_lt_zero r), fun r hr => absurd hr (Nat.not_lt_zero r),
    fun bid _ _ => ⟨.error .outOfResource, s, allocateInode_none hroom s bid, Or.inr ⟨rfl, ?_⟩⟩,
    (bind_ok (readBlock_apply s (Nat.lt_add_right logCnt hroom))).trans rfl, fun b _ => hsame b⟩
  rintro id ⟨h1, h2⟩
  simp only at h2
  omega

/-- The iterator reads one block behind the bitmap. -/
theorem freeFrom_behind {s : BlockManager sz cnt 0} (hend : 1 + im.nTableBlocks + im.nBitmapBlocks = cnt) (k count : ℕ)
    (hk : count + (k + 1) = im.nBitmapBlocks) (buffer : List UInt8) : im.freeFrom (k + 1) count buffer s = none := by
  induction k generalizing count buffer with
  | zero =>
    have hout : ¬ 1 + im.nTableBlocks + (count + 1) < cnt + 0 := by omega
    rw [InodeManager.freeFrom]
    change Option.bind (readBlock _ s) _ = none
    rw [readBlock, if_neg hout]
    rfl
  | succ k ih =>
    rw [InodeManager.freeFrom, bind_ok (readBlock_apply s (by omega))]
    change Option.bind (im.freeFrom (k + 1) (count + 1) _ s) _ = none
    rw [ih (count + 1) (by omega)]
    rfl

theorem freeInodeCnt_behind {s : BlockManager sz cnt 0} (hend : 1 + im.nTableBlocks + im.nBitmapBlocks = cnt) :
    im.freeInodeCnt s = none := by
  rw [InodeManager.freeInodeCnt]
  cases hnb : im.nBitmapBlocks with
  | zero =>
    have hout : ¬ 1 + im.nTableBlocks < cnt + 0 := by omega
    change Option.bind (readBlock _ s) _ = none
    rw [readBlock, if_neg hout]
    rfl
  | succ k =>
    rw [bind_ok (readBlock_apply s (by omega))]
    exact freeFrom_behind hend k 0 (by omega) _

end Run

section Devices

variable {n : ℕ} {im : InodeManager} {s₀ s₁ s : BlockManager sz cnt 0} {es : List Event}

theorem inStep_iff_room (hsmall : cnt * sz < 2 ^ 32) (hs : s₀.maybeFailed = false)
    (hopen : create n s₀ = some (.ok im, s₁)) (hfits : 1 + im.nTableBlocks + im.nBitmapBlocks ≤ cnt)
    (hpath : Path (Happens im) s₁ es s) :
    InStep im s₀ s (bidOf es) ↔ 1 + im.nTableBlocks + im.nBitmapBlocks < cnt := by
  have hfields := eq_fields64 hopen
  constructor
  · intro h
    by_contra hfull
    cases h.count.symm.trans (freeInodeCnt_behind (by omega))
  · intro hroom
    rw [hfields] at hroom
    obtain rfl | hn := Nat.eq_zero_or_pos n
    · have hzero := fields64_zero sz
      obtain ⟨-, -, -, hblocks⟩ := create_spec hs (Nat.le_of_lt hroom) hopen
      rw [hfields, hzero] at hpath hblocks ⊢
      rw [hzero] at hroom
      refine inStep_none hroom hpath fun b => ?_
      rw [hblocks, if_neg (by simp only; omega)]
    · obtain ⟨him, hrec⟩ := recorded_created hn hsmall hs hopen hroom
      have hrun := hpath.invariant (I := fun es s => Recorded im s₀ es s) hrec fun _ _ _ _ h hstep => h.step him hstep
      exact hrun.inStep him

theorem exists_created (hfits : 65 < cnt) : ∃ s, create 1 (BlockManager.zeroed 8 cnt 0) =
    some (.ok (⟨64, 64, 1⟩ : InodeManager), s) := by
  obtain ⟨t, hrun, -⟩ := zeroBlocks_spec (BlockManager.zeroed 8 cnt 0) 64 1 (by omega)
  obtain ⟨u, hrun', -⟩ := zeroBlocks_spec t 1 65 (by omega)
  have hfields : fields64 8 1 = ⟨64, 64, 1⟩ := by decide
  refine ⟨u, ?_⟩
  rw [create, require_of (by decide), bind_ok (pure_apply ()), hfields]
  simp only
  rw [bind_ok hrun, bind_ok hrun', pure_apply]

/-- One inode is allocated. -/
theorem inStep_iff_room_one : ∃ (im : InodeManager) (s₁ s : BlockManager 8 67 0) (id : ℕ),
    create 1 (BlockManager.zeroed 8 67 0) = some (.ok im, s₁) ∧ Path (Happens im) s₁ [.allocated id 66] s ∧
    InStep im (BlockManager.zeroed 8 67 0) s (bidOf [.allocated id 66]) := by
  obtain ⟨s₁, hopen⟩ := exists_created (by decide : 65 < 67)
  have hnew := (inStep_iff_room (by decide) rfl hopen (by decide) .nil).mpr (by decide)
  obtain ⟨r, t, hrun, ⟨id, rfl, -⟩ | ⟨-, hfull⟩⟩ := hnew.allocate 66 (by decide) (by decide)
  · have hpath : Path (Happens _) s₁ [.allocated id 66] t := Path.nil.snoc ⟨by decide, by decide, hrun⟩
    exact ⟨_, s₁, t, id, hopen, hpath, (inStep_iff_room (by decide) rfl hopen (by decide) hpath).mpr (by decide)⟩
  · exact absurd rfl (hfull 1 ⟨by decide, by decide⟩)

/-- The bitmap is the last block of the device. -/
theorem not_inStep_full : ∃ (im : InodeManager) (s₁ : BlockManager 8 66 0),
    create 1 (BlockManager.zeroed 8 66 0) = some (.ok im, s₁) ∧
    1 + im.nTableBlocks + im.nBitmapBlocks ≤ 66 ∧ im.freeInodeCnt s₁ = none ∧
    ¬ InStep im (BlockManager.zeroed 8 66 0) s₁ (bidOf []) := by
  obtain ⟨s₁, hopen⟩ := exists_created (by decide : 65 < 66)
  have hnone : (⟨64, 64, 1⟩ : InodeManager).freeInodeCnt s₁ = none := freeInodeCnt_behind rfl
  refine ⟨_, s₁, hopen, by decide, hnone, fun h => ?_⟩
  cases h.count.symm.trans hnone

end Devices

end Chfs.Fs.InodeTable
