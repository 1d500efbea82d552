import Chfs.Fs.InodeTable
import Chfs.Fs.Removal
import Chfs.Lib.Run

namespace Chfs.Fs.Contents

open Lib.Effect Lib.Bytes Lib.Run Block.Manager Block.Allocator Inode Operations Files Growth Writing Removal

variable {sz cnt logCnt n : ℕ}

/-- Superblock, inode table and bitmaps fit on a device below 4 GiB. -/
structure Fitting (sz cnt n : ℕ) : Prop where
  ge : 32 ≤ sz
  device : cnt * sz < 2 ^ 32
  fits : 1 + (InodeManager.fields sz n).nTableBlocks + (InodeManager.fields sz n).nBitmapBlocks +
    (BlockAllocator.fields sz cnt 0).bitmapBlockCnt ≤ cnt

/-- Block size, number of blocks and number of inodes of a file system on a
device below 4 GiB: a block has room for an inode with at least one block id,
and superblock, inode table and bitmaps fit on the device. -/
structure Dimensions (sz cnt n : ℕ) : Prop where
  mod : sz % 8 = 0
  ge : 56 ≤ sz
  device : cnt * sz < 2 ^ 32
  inodes : 0 < n
  fits : 1 + (InodeManager.fields sz n).nTableBlocks + (InodeManager.fields sz n).nBitmapBlocks +
    (BlockAllocator.fields sz cnt 0).bitmapBlockCnt ≤ cnt

structure Created (fo : FileOperation) (s t : BlockManager sz cnt logCnt) : Prop where
  works : t.maybeFailed = false
  super : t.blocks 0 = splice (s.blocks 0) 0 (superBlock sz cnt fo.inodeManager.maxInodeSupported)
  zero : ∀ b, 1 ≤ b → b < 1 + fo.inodeManager.nTableBlocks + fo.inodeManager.nBitmapBlocks →
    t.blocks b = List.replicate sz 0
  used : ∀ b < cnt, fo.blockAllocator.used t b = decide (b < dataStart fo)

section Create

variable (hd : Fitting sz cnt n) {s t : BlockManager sz cnt logCnt}

include hd

theorem Fitting.cnt_pos : 0 < cnt := by
  have := hd.fits
  omega

theorem Fitting.lt : sz < 2 ^ 32 ∧ cnt < 2 ^ 32 := by
  have h1 := hd.device
  have h2 := hd.cnt_pos
  have h3 := hd.ge
  exact ⟨lt_of_le_of_lt (Nat.le_mul_of_pos_left sz h2) h1,
    lt_of_le_of_lt (Nat.le_mul_of_pos_right cnt (by omega)) h1⟩

theorem Fitting.bitmap_pos (b : ℕ) : 0 < (BlockAllocator.fields sz cnt b).bitmapBlockCnt := by
  have h1 := hd.cnt_pos
  have h2 := Nat.div_add_mod cnt (sz * bitsPerByte)
  unfold BlockAllocator.fields
  simp only
  split
  case isTrue => exact Nat.succ_pos _
  case isFalse hz =>
    rw [not_not] at hz
    rw [hz, Nat.add_zero] at h2
    by_contra hle
    rw [Nat.eq_zero_of_not_pos hle, Nat.mul_zero] at h2
    omega

theorem Fitting.inodeFits (hn : 0 < n) : (InodeManager.fields sz n).Fits sz cnt := by
  have hge := hd.ge
  have hfits := hd.fits
  have hbm := hd.bitmap_pos 0
  refine InodeTable.fields_fits ?_ hn hd.device (by omega)
  unfold sizeofBlockId
  omega

theorem Fitting.reserved : (InodeManager.fields sz n).reservedBlocks =
    1 + (InodeManager.fields sz n).nTableBlocks + (InodeManager.fields sz n).nBitmapBlocks := by
  have h1 := hd.fits
  have h2 := hd.lt
  exact Nat.mod_eq_of_lt (by omega)

theorem Fitting.room : (BlockAllocator.fields sz cnt (InodeManager.fields sz n).reservedBlocks).bitmapBlockCnt +
    (InodeManager.fields sz n).reservedBlocks ≤ cnt := by
  have hfits := hd.fits
  rw [hd.reserved]
  change (BlockAllocator.fields sz cnt 0).bitmapBlockCnt + _ ≤ cnt
  omega

theorem Fitting.blockFits : (FileOperation.fields sz cnt n).blockAllocator.Fits sz cnt :=
  fields_fits (by have := hd.ge; omega) (hd.bitmap_pos _) hd.room

theorem Fitting.layout (hge : 52 ≤ sz) (hn : 0 < n) : Layout (FileOperation.fields sz cnt n) sz cnt :=
  ⟨⟨hge, hd.lt.1⟩, hd.inodeFits hn, hd.blockFits, hd.reserved, hd.lt.2⟩

/-- The constructor does not fail, whatever has been on the device. -/
theorem Fitting.create_spec (hs : s.maybeFailed = false) :
    ∃ t, FileOperation.create n s = some (.ok (FileOperation.fields sz cnt n), t) ∧
      Created (FileOperation.fields sz cnt n) s t := by
  have hge := hd.ge
  have hfits := hd.fits
  have hbitmap : (FileOperation.fields sz cnt n).blockAllocator.bitmapBlockId = _ := hd.reserved
  obtain ⟨s₁, hrun₁, hw₁, -, hblocks₁⟩ :=
    zeroBlocks_spec s (InodeManager.fields sz n).nTableBlocks 1 (by omega)
  obtain ⟨s₂, hrun₂, hw₂, -, hblocks₂⟩ := zeroBlocks_spec s₁ (InodeManager.fields sz n).nBitmapBlocks
    (1 + (InodeManager.fields sz n).nTableBlocks) (by omega)
  obtain ⟨s₃, hrun₃, hm⟩ := Block.Allocator.create_spec (hw₂.trans (hw₁.trans hs)) (by omega)
    (hd.bitmap_pos (InodeManager.fields sz n).reservedBlocks) hd.room
  have hlen : 0 + (superBlock sz cnt (InodeManager.fields sz n).maxInodeSupported).length ≤ sz := by
    simp only [superBlock, List.length_append, length_leBytes]
    omega
  obtain ⟨t, hrun, hw, hblocks⟩ := writePartialBlock_blocks
    (hm.works.trans (hw₂.trans (hw₁.trans hs))) (by omega : 0 < cnt + logCnt) hlen
  have hframe : ∀ b, b ≠ 0 → t.blocks b = s₃.blocks b := by
    intro b hb
    rw [hblocks, Function.update_of_ne hb]
  have hzero : ∀ b, b < 1 + (InodeManager.fields sz n).nTableBlocks + (InodeManager.fields sz n).nBitmapBlocks →
      s₃.blocks b = if 1 ≤ b then List.replicate sz 0 else s.blocks b := by
    intro b hb
    rw [hm.frame b (Or.inl (lt_of_lt_of_eq hb hbitmap.symm)), hblocks₂, hblocks₁]
    by_cases h1 : 1 + (InodeManager.fields sz n).nTableBlocks ≤ b
    · rw [if_pos ⟨h1, hb⟩, if_pos (by omega)]
    · rw [if_neg fun hand => h1 hand.1]
      by_cases h2 : 1 ≤ b
      · rw [if_pos ⟨h2, by omega⟩, if_pos h2]
      · rw [if_neg fun hand => h2 hand.1, if_neg h2]
  have hcreate : InodeManager.create n s = some (.ok (InodeManager.fields sz n), s₂) := by
    unfold InodeManager.create
    rw [bind_ok hrun₁, bind_ok hrun₂, pure_apply]
  refine ⟨t, ?_, hw, ?_, fun b h1 h2 => ?_, fun b hb => ?_⟩
  · unfold FileOperation.create
    rw [bind_ok hcreate, bind_ok hrun₃, require_of hge, bind_ok (pure_apply ()),
      bind_ok hrun, pure_apply]
    rfl
  · rw [hblocks, Function.update_self, hzero 0 (by omega), if_neg (by omega)]
    rfl
  · rw [hframe b (by omega), hzero b h2, if_pos h1]
  · have hused : (FileOperation.fields sz cnt n).blockAllocator.used t b =
        (FileOperation.fields sz cnt n).blockAllocator.used s₃ b := by
      unfold BlockAllocator.used
      generalize b / (sz * bitsPerByte) = q
      rw [hframe _ (by omega)]
    rw [hused]
    refine (hm.bits b hb).trans (decide_eq_decide.mpr ?_)
    unfold dataStart
    rw [Nat.add_comm]
    rfl

theorem Created.inv (hge : 52 ≤ sz) (hn : 0 < n) (hc : Created (FileOperation.fields sz cnt n) s t) :
    Inv (FileOperation.fields sz cnt n) t fun _ => none := by
  have hl := hd.layout hge hn
  have hfits := hd.inodeFits hn
  have hzero : ∀ b, 1 ≤ b → b < 1 + (InodeManager.fields sz n).nTableBlocks +
      (InodeManager.fields sz n).nBitmapBlocks → t.blocks b = List.replicate sz 0 := hc.zero
  have hinit : ∀ id, (InodeManager.fields sz n).Valid id →
      (InodeManager.fields sz n).entry t id = 0 ∧ (InodeManager.fields sz n).taken t id = false := by
    intro id hid
    have h1 := Fits.table_lt hfits hid
    have h2 := Fits.bitmap_lt hfits hid
    constructor
    · unfold InodeManager.entry
      generalize (id - 1) / (sz / sizeofBlockId) = q at h1
      rw [hzero _ (by omega) (by omega), getField_replicate]
    · unfold InodeManager.taken
      generalize (id - 1) / (sz * bitsPerByte) = q at h2
      rw [hzero _ (by omega) (by omega), Bitmap.check_zeros]
  constructor
  case works => exact hc.works
  case reserved =>
    intro b hb
    have hlt : b < cnt := by
      have := hl.blocks.room
      unfold dataStart at hb
      omega
    exact (hc.used b hlt).trans (decide_eq_true hb)
  case entry => exact fun id hid => (hinit id hid).1
  case taken => exact fun id hid => (hinit id hid).2
  case valid | holds | data | nodup => exact fun id f hf => by cases hf
  case disjoint => exact fun id id' f f' hf => by cases hf

omit hd

theorem Dimensions.fitting (hd : Dimensions sz cnt n) : Fitting sz cnt n :=
  ⟨by have := hd.ge; omega, hd.device, hd.fits⟩

theorem Dimensions.layout (hd : Dimensions sz cnt n) : Layout (FileOperation.fields sz cnt n) sz cnt :=
  hd.fitting.layout (by have := hd.ge; omega) hd.inodes

theorem create_spec (hd : Dimensions sz cnt n) (hs : s.maybeFailed = false) :
    ∃ t, FileOperation.create n s = some (.ok (FileOperation.fields sz cnt n), t) ∧
      Inv (FileOperation.fields sz cnt n) t fun _ => none := by
  obtain ⟨t, hrun, hc⟩ := hd.fitting.create_spec hs
  exact ⟨t, hrun, hc.inv hd.fitting (by have := hd.ge; omega) hd.inodes⟩

end Create

inductive Call
  | allocInode (type now : ℕ)
  | writeFile (id : ℕ) (content : List UInt8) (now : ℕ)
  | writeFileWOff (id : ℕ) (data : List UInt8) (offset now : ℕ)
  | resize (id size now : ℕ)
  | removeFile (id : ℕ)

def Call.step (fo : FileOperation) (s : BlockManager sz cnt logCnt) : Call → Option (BlockManager sz cnt logCnt)
  | .allocInode type now => (fo.allocInode type now s).map Prod.snd
  | .writeFile id content now => (fo.writeFile id content now s).map Prod.snd
  | .writeFileWOff id data offset now => (fo.writeFileWOff id data offset now s).map Prod.snd
  | .resize id size now => (fo.resize id size now s).map Prod.snd
  | .removeFile id => (fo.removeFile id s).map Prod.snd

def Call.names (s : BlockManager sz cnt logCnt) : Call → Prop
  | .allocInode .. => True
  | .writeFile id .. | .writeFileWOff id .. | .resize id .. | .removeFile id => Named s id

def Call.avoids (others : Set ℕ) : Call → Prop
  | .allocInode .. => True
  | .writeFile id .. | .writeFileWOff id .. | .resize id .. | .removeFile id => id ∉ others

theorem Call.avoids_empty (c : Call) : c.avoids ∅ := by
  cases c with
  | allocInode => trivial
  | writeFile id | writeFileWOff id | resize id | removeFile id => exact Set.notMem_empty id

/-- The states after the creation of a file system for `n` inodes and any calls. -/
def Reachable (n : ℕ) (fo : FileOperation) (s : BlockManager sz cnt logCnt) : Prop :=
  ∃ s₀ t₀ : BlockManager sz cnt logCnt, s₀.maybeFailed = false ∧
    FileOperation.create n s₀ = some (.ok fo, t₀) ∧ Reach (Call.step fo) Call.names t₀ s

def contentOf (fo : FileOperation) (files : ℕ → Option File) (id : ℕ) : Except ErrorType (List UInt8) :=
  match files id with
  | none => .error .invalidArg
  | some f => if id < fo.inodeManager.maxInodeSupported - 1 then .ok f.content else .error .invalidArg

theorem contentOf_ok {fo : FileOperation} {files : ℕ → Option File} {id : ℕ} {content : List UInt8}
    (h : contentOf fo files id = .ok content) :
    ∃ f, files id = some f ∧ id < fo.inodeManager.maxInodeSupported - 1 ∧ f.content = content := by
  unfold contentOf at h
  split at h
  case h_1 => cases h
  case h_2 f hf =>
    split at h
    case isTrue hlt => exact ⟨f, hf, hlt, Except.ok.inj h⟩
    case isFalse => cases h

def Keeps (fo : FileOperation) (s t : BlockManager sz cnt logCnt) : Prop :=
  ∀ id, Named s id → (fo.readFile id t).map Prod.fst = (fo.readFile id s).map Prod.fst

/-- A content with `data` at `offset`, after it has been extended by zeros as
far as necessary. -/
def overwrite (old data : List UInt8) (offset : ℕ) : List UInt8 :=
  splice (resized old (max old.length (offset + data.length))) offset data

theorem length_resized (content : List UInt8) (n : ℕ) : (resized content n).length = n := by
  rw [resized, List.length_append, List.length_take, List.length_replicate]
  omega

section Calls

variable {fo : FileOperation} (hl : Layout fo sz cnt) {s t : BlockManager sz cnt logCnt} {others : Set ℕ}
  {files : ℕ → Option File} {id : ℕ} {new : Option File}
include hl

theorem readFile_eq (h : InvBut fo others s files) (hn : Named s id) (hp : id ∉ others) :
    fo.readFile id s = some (contentOf fo files id, s) := by
  unfold contentOf
  cases hf : files id with
  | none => exact h.readFile_none hl hn (Or.inl hf)
  | some f =>
    simp only
    split
    case isTrue hlt => exact h.readFile_some hl hf hp hlt
    case isFalse hge => exact h.readFile_none hl hn (Or.inr (by omega))

theorem keeps_of_leaks (h : Inv fo s files) (hk : Leaks fo s t) : Keeps fo s t := by
  intro id hn
  have hsuper : t.blocks 0 = s.blocks 0 := by
    have := hl.bitmap
    exact hk.marks.frame 0 (Or.inl (by omega))
  rw [readFile_eq hl h hn (Set.notMem_empty _),
    readFile_eq hl (leaks_inv hk h hl) (hn.congr hsuper) (Set.notMem_empty _)]
  rfl

omit hl in
theorem replaces_self (h : InvBut fo others s files) {f : File} (hf : files id = some f) (hp : id ∉ others) :
    Replaces fo s s id (some f) (some f) where
  works := rfl
  super := rfl
  entry i hi := by
    split
    case isTrue heq => rw [heq, h.entry id (h.valid id f hf), hf]
    case isFalse => rfl
  taken i hi := by
    split
    case isTrue heq => rw [heq, h.taken id (h.valid id f hf), hf]
    case isFalse => rfl
  bits b hb := by
    split
    case isTrue hmem => exact (h.data id f hf b hmem).2.2
    case isFalse => rfl
  frame _ _ _ := rfl
  holds g hg := by
    cases hg
    exact h.holds id f hf hp
  nodup := h.nodup id f hf
  data b hb := ⟨(h.data id f hf b hb).1, (h.data id f hf b hb).2.1, Or.inl hb⟩

theorem resize_spec (h : InvBut fo others s files) (hn : Named s id) (hp : id ∉ others) (size now : ℕ) :
    wp (fo.resize id size now) (Rewrites fo s files id fun f => resized f.content size) s := by
  by_cases hr : files id = none ∨ fo.inodeManager.maxInodeSupported - 1 ≤ id
  · exact ⟨_, _, bind_error (bind_error (h.readInode_refused hl hn hr)), Leaks.refl s⟩
  · rw [not_or, Nat.not_le] at hr
    obtain ⟨f, hf⟩ := Option.ne_none_iff_exists'.mp hr.1
    have hattr : fo.inodeManager.getAttr id s = some (.ok (innerAttr (s.blocks f.inode)), s) := by
      unfold InodeManager.getAttr
      rw [bind_ok (h.readInode_some hl hf hr.2)]
      rfl
    apply wp_bind_ok hattr
    apply wp_bind_ok (h.readFile_some hl hf hp hr.2)
    split
    case isTrue =>
      refine (writeFile_spec hl h hn hp _ now).bind (fun _ t ht => ?_) fun e t he => he
      obtain ⟨f', i, ids, hf', hlt, hrep⟩ := ht
      cases hf.symm.trans hf'
      exact (wp_pure _).mpr ⟨f, i, ids, hf, hlt, hrep⟩
    case isFalse heq =>
      have hsame : resized f.content size = f.content := by
        rw [not_not] at heq
        rw [← heq, resized, List.take_length, Nat.sub_self, List.replicate_zero, List.append_nil]
      refine (wp_pure _).mpr ⟨f, f.indirect, f.blocks, hf, hr.2, ?_⟩
      simp only
      rw [hsame]
      exact replaces_self h hf hp

omit hl in
def Changes (fo : FileOperation) (s t : BlockManager sz cnt logCnt) (files : ℕ → Option File) : Prop :=
  Leaks fo s t ∨ ∃ id new, fo.inodeManager.Valid id ∧ Replaces fo s t id (files id) new

theorem changes_inv (h : InvBut fo others s files) (hc : Changes fo s t files) :
    ∃ files', InvBut fo others t files' := by
  obtain hk | ⟨id, new, hid, hr⟩ := hc
  · exact ⟨files, leaks_inv hk h hl⟩
  · exact ⟨_, hr.inv h hl hid⟩

omit hl in
theorem changes_of_rewrites (h : InvBut fo others s files) {α : Type} {r : Except ErrorType α}
    {content : File → List UInt8} (hr : Rewrites fo s files id content r t) : Changes fo s t files := by
  cases r with
  | error => exact Or.inl hr
  | ok =>
    obtain ⟨f, i, ids, hf, -, hr⟩ := hr
    exact Or.inr ⟨id, _, h.valid id f hf, hf ▸ hr⟩

theorem writeFileWOff_changes (h : InvBut fo others s files) (hn : Named s id) (hp : id ∉ others)
    {data : List UInt8} {offset now : ℕ} {r : Except ErrorType ℕ}
    (hrun : fo.writeFileWOff id data offset now s = some (r, t)) :
    Changes fo s t files := by
  have hread := readFile_eq hl h hn hp
  unfold FileOperation.writeFileWOff at hrun
  cases hc : contentOf fo files id with
  | error e =>
    rw [hc] at hread
    rw [bind_error hread] at hrun
    cases hrun
    exact Or.inl (Leaks.refl s)
  | ok old =>
    rw [hc] at hread
    rw [bind_ok hread] at hrun
    generalize (if old.length < (offset + data.length) % 2 ^ 64
      then resized old ((offset + data.length) % 2 ^ 64) else old) = content at hrun
    by_cases hreq : offset + data.length ≤ content.length
    · rw [require_of hreq, bind_ok (pure_apply ())] at hrun
      have hspec := (writeFile_spec hl h hn hp (splice content offset data) now).bind
        (R := Rewrites fo s files id fun _ => splice content offset data)
        (f := fun _ => pure data.length) (fun _ t ht => (wp_pure _).mpr ht) fun e t he => he
      exact changes_of_rewrites h (hspec.of_eq hrun)
    · rw [require, if_neg hreq] at hrun
      cases hrun

theorem removeFile_changes (h : InvBut fo others s files) (hn : Named s id) (hp : id ∉ others)
    {r : Except ErrorType Unit} (hrun : fo.removeFile id s = some (r, t)) : Changes fo s t files := by
  by_cases hr : files id = none ∨ fo.inodeManager.maxInodeSupported - 1 ≤ id
  · have herr : fo.removeFile id s = _ := bind_error (h.readInode_refused hl hn hr)
    cases herr.symm.trans hrun
    exact Or.inl (Leaks.refl s)
  · rw [not_or, Nat.not_le] at hr
    obtain ⟨f, hf⟩ := Option.ne_none_iff_exists'.mp hr.1
    by_cases hi : f.indirect = invalidBlockId
    · obtain ⟨u, hu, hrep⟩ := removeFile_spec hl h hf hp hr.2 hi
      cases hu.symm.trans hrun
      exact Or.inr ⟨id, none, h.valid id f hf, hf ▸ hrep⟩
    · cases (removeFile_undefined hl h hf hp hr.2 hi).symm.trans hrun

theorem step_changes (h : InvBut fo others s files) {c : Call} (hc : c.names s) (hp : c.avoids others)
    (hstep : Call.step fo s c = some t) : Changes fo s t files := by
  cases c with
  | allocInode type now =>
    rw [Call.step, Option.map_eq_some_iff] at hstep
    obtain ⟨⟨r, u⟩, hrun, rfl⟩ := hstep
    have hspec := (allocInode_spec hl h type now).of_eq hrun
    cases r with
    | error => exact Or.inl hspec.2.leaks
    | ok id =>
      obtain ⟨b, hid, hf, -, hr⟩ := hspec
      exact Or.inr ⟨id, _, hid, hf ▸ hr⟩
  | writeFile id content now =>
    rw [Call.step, Option.map_eq_some_iff] at hstep
    obtain ⟨⟨r, u⟩, hrun, rfl⟩ := hstep
    exact changes_of_rewrites h ((writeFile_spec hl h hc hp content now).of_eq hrun)
  | writeFileWOff id data offset now =>
    rw [Call.step, Option.map_eq_some_iff] at hstep
    obtain ⟨⟨r, u⟩, hrun, rfl⟩ := hstep
    exact writeFileWOff_changes hl h hc hp hrun
  | resize id size now =>
    rw [Call.step, Option.map_eq_some_iff] at hstep
    obtain ⟨⟨r, u⟩, hrun, rfl⟩ := hstep
    exact changes_of_rewrites h ((resize_spec hl h hc hp size now).of_eq hrun)
  | removeFile id =>
    rw [Call.step, Option.map_eq_some_iff] at hstep
    obtain ⟨⟨r, u⟩, hrun, rfl⟩ := hstep
    exact removeFile_changes hl h hc hp hrun

end Calls

section Refines

variable {fo : FileOperation} (hl : Layout fo sz cnt) {s t : BlockManager sz cnt logCnt}
  {files : ℕ → Option File} {id : ℕ}
include hl

end Refines

section Reach

variable (hd : Dimensions sz cnt n) {fo : FileOperation} {s : BlockManager sz cnt logCnt}
include hd

theorem reachable_inv (h : Reachable n fo s) : Layout fo sz cnt ∧ ∃ files, Inv fo s files := by
  obtain ⟨s₀, t₀, hworks, hcreate, hreach⟩ := h
  obtain ⟨t, hcreate', hinv⟩ := create_spec hd hworks
  cases hcreate'.symm.trans hcreate
  have hl := hd.layout
  refine ⟨hl, ?_⟩
  exact hreach.invariant_ghost (I := fun s files => Inv _ s files) _ hinv
    fun s c t files hs hc hstep => changes_inv hl hs (step_changes hl hs hc c.avoids_empty hstep)

end Reach

theorem dimensions_small : Dimensions 56 72 1 := by
  constructor <;> decide

def smallCalls : List Call := [.allocInode 1 5, .writeFile 1 [1, 2, 3] 6, .writeFileWOff 1 [4] 60 7]

def Call.hasName : Call → Bool
  | .allocInode .. => true
  | .writeFile id .. | .writeFileWOff id .. | .resize id .. | .removeFile id => id ≠ invalidInodeId

theorem Call.names_of_hasName (s : BlockManager sz cnt logCnt) (c : Call) (h : c.hasName = true) :
    c.names s := by
  cases c with
  | allocInode => trivial
  | writeFile | writeFileWOff | resize | removeFile => exact Or.inl (by simpa [Call.hasName] using h)

end Chfs.Fs.Contents
