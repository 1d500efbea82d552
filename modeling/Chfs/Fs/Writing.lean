import Chfs.Fs.Growth

namespace Chfs.Fs.Writing

open Lib.Effect Lib.Bytes Block.Manager Block.Allocator Inode Operations Files Growth

variable {sz cnt logCnt : ℕ} {fo : FileOperation}

theorem length_chunk (content : List UInt8) (idx : ℕ) : (chunk sz content idx).length = sz := by
  have hle : (slice content (idx * sz) sz).length ≤ sz := by
    rw [slice, List.length_take]
    omega
  rw [chunk, List.length_append, List.length_replicate]
  omega

theorem take_chunk (content : List UInt8) (idx : ℕ) :
    (chunk sz content idx).take (content.length - idx * sz) = slice content (idx * sz) sz := by
  have hlen : (slice content (idx * sz) sz).length = min sz (content.length - idx * sz) := by
    rw [slice, List.length_take, List.length_drop]
  rw [chunk, List.take_append]
  by_cases hle : content.length - idx * sz ≤ sz
  · rw [hlen, Nat.min_eq_right hle, Nat.sub_self, List.take_zero, List.append_nil,
      List.take_of_length_le (by omega)]
  · rw [hlen, Nat.min_eq_left (by omega), Nat.sub_self, List.replicate_zero, List.take_nil,
      List.append_nil, List.take_of_length_le (by omega)]

section Content

variable (hsz : BlockSize sz) {t : BlockManager sz cnt logCnt} {inode : List UInt8}
  {i : ℕ} {ids : List ℕ}
include hsz

/-- The loop that writes the content changes the listed blocks only, and keeps
the indirect block as it is to be. -/
theorem writeContent_spec (hs : Shape sz inode) (hslot : getBlock inode (directNum sz) = i)
    (hi : directNum sz < ids.length → i ≠ invalidBlockId ∧ i < cnt) (hni : i ∉ ids)
    (hlt : ∀ b ∈ ids, b < cnt) (hnd : ids.Nodup) (hworks : t.maybeFailed = false)
    {indirect : Option (List UInt8)} (hbuf : ∀ buf ∈ indirect, buf.length = sz ∧ i ≠ invalidBlockId)
    (hlists : Lists sz inode (indirectView t i indirect) ids) (k idx : ℕ) (hk : idx + k = ids.length)
    (content : List UInt8) :
    ∃ indirect' t', writeContent inode content k idx indirect t = some (.ok indirect', t') ∧
      t'.maybeFailed = false ∧ (∀ b ∉ ids, t'.blocks b = t.blocks b) ∧
      (∀ j b, ids[j]? = some b → t'.blocks b = if idx ≤ j then chunk sz content j else t.blocks b) ∧
      indirectView t' i indirect' = indirectView t i indirect ∧
      ∀ buf ∈ indirect', buf.length = sz ∧ i ≠ invalidBlockId := by
  induction k generalizing t indirect idx with
  | zero =>
    refine ⟨indirect, t, rfl, hworks, fun _ _ => rfl, fun j b hb => ?_, rfl, hbuf⟩
    have hj := (List.getElem?_eq_some_iff.mp hb).1
    rw [if_neg (by omega)]
  | succ k ih =>
    have hb : ids[idx]? = some ids[idx] := List.getElem?_eq_getElem (by omega)
    generalize ids[idx] = b at hb
    have hmem := List.mem_of_getElem? hb
    have hbcnt := hlt b hmem
    have hbi : i ≠ b := fun heq => hni (heq ▸ hmem)
    have hentry := hlists.entry idx b hb
    have hwrite := ignore_apply (writeBlock_apply hworks (by omega : b < cnt + logCnt)
      (length_chunk content idx))
    -- what is left to do, when the copy of the indirect block is `indirect'`
    have hrest : ∀ indirect' : Option (List UInt8),
        indirectView t i indirect' = indirectView t i indirect →
        (∀ buf ∈ indirect', buf.length = sz ∧ i ≠ invalidBlockId) →
        ∃ out t', writeContent inode content k (idx + 1) indirect'
          (t.setBlock b (chunk sz content idx) (length_chunk content idx)) = some (.ok out, t') ∧
        t'.maybeFailed = false ∧ (∀ b ∉ ids, t'.blocks b = t.blocks b) ∧
        (∀ j b, ids[j]? = some b → t'.blocks b = if idx ≤ j then chunk sz content j else t.blocks b) ∧
        indirectView t' i out = indirectView t i indirect ∧
        ∀ buf ∈ out, buf.length = sz ∧ i ≠ invalidBlockId := by
      intro indirect' hview hbuf'
      have hset : indirectView (t.setBlock b (chunk sz content idx) (length_chunk content idx)) i
          indirect' = indirectView t i indirect := by
        rw [← hview]
        unfold indirectView
        rw [setBlock_blocks, Function.update_of_ne hbi]
      obtain ⟨out, t', hrun, hw, hframe, hblocks, hv, hb'⟩ := ih
        (t := t.setBlock b (chunk sz content idx) (length_chunk content idx)) hworks hbuf'
        (hset ▸ hlists) (idx + 1) (by omega)
      refine ⟨out, t', hrun, hw, fun x hx => ?_, fun j x hx => ?_, hv.trans hset, hb'⟩
      · rw [hframe x hx, setBlock_blocks, Function.update_of_ne]
        rintro rfl
        exact hx hmem
      · rw [hblocks j x hx, setBlock_blocks]
        by_cases hj : j = idx
        · have hxb : x = b := by
            rw [hj, hb] at hx
            exact (Option.some.inj hx).symm
          rw [if_neg (by omega), if_pos (by omega), hxb, Function.update_self, hj]
        · have hxb : x ≠ b := by
            rintro rfl
            exact hj ((List.getElem?_inj (List.getElem?_eq_some_iff.mp hx).1 hnd).mp (hx.trans hb.symm))
          rw [Function.update_of_ne hxb]
          by_cases hlt' : idx ≤ j
          · rw [if_pos (by omega), if_pos hlt']
          · rw [if_neg (by omega), if_neg hlt']
    unfold writeContent
    rw [hs.isDirect_eq hsz]
    unfold blockAt at hentry
    by_cases hdir : idx < directNum sz
    · rw [if_pos hdir] at hentry
      rw [if_pos (by simpa using hdir), hentry, bind_ok hwrite]
      exact hrest indirect rfl hbuf
    · obtain ⟨hne, hicnt⟩ := hi (by omega)
      rw [if_neg hdir] at hentry
      have hlen : (indirectView t i indirect).length = sz := by
        cases indirect with
        | none => exact t.length_blocks i
        | some buf => exact (hbuf buf rfl).1
      have hie : indirectEntry inode (indirectView t i indirect) idx = b := by
        unfold indirectEntry
        rw [hs.directNum_eq hsz, hentry]
      rw [if_neg (by simpa using hdir), bind_ok (loadIndirect_apply hsz hs hslot hne hicnt),
        show indirect.getD (t.blocks i) = indirectView t i indirect from rfl, hie, bind_ok hwrite]
      refine hrest (some _) rfl fun buf hbuf => ?_
      cases hbuf
      exact ⟨hlen, hne⟩

end Content

def ownedOf : Option File → List ℕ
  | none => []
  | some f => f.owned

/-- On the device `t` the inode `id` has the file `new` where it had the file
`old` on `s`; the other files are where they were. -/
structure Replaces (fo : FileOperation) (s t : BlockManager sz cnt logCnt) (id : ℕ)
    (old new : Option File) : Prop where
  works : t.maybeFailed = s.maybeFailed
  super : t.blocks 0 = s.blocks 0
  entry : ∀ i, fo.inodeManager.Valid i → fo.inodeManager.entry t i =
    if i = id then (new.map File.inode).getD invalidBlockId else fo.inodeManager.entry s i
  taken : ∀ i, fo.inodeManager.Valid i → fo.inodeManager.taken t i =
    if i = id then new.isSome else fo.inodeManager.taken s i
  bits : ∀ b < cnt, fo.blockAllocator.used t b = if b ∈ ownedOf new then true
    else if b ∈ ownedOf old then false else fo.blockAllocator.used s b
  frame : ∀ b, dataStart fo ≤ b → b ∉ ownedOf new → t.blocks b = s.blocks b
  holds : ∀ f ∈ new, Holds sz t.blocks f
  nodup : (ownedOf new).Nodup
  data : ∀ b ∈ ownedOf new, dataStart fo ≤ b ∧ b < cnt ∧
    (b ∈ ownedOf old ∨ fo.blockAllocator.used s b = false)

section Replaces

variable {s t : BlockManager sz cnt logCnt} {others : Set ℕ} {files : ℕ → Option File} {id : ℕ} {new : Option File}

theorem owned_data (h : InvBut fo others s files) (id : ℕ) : ∀ b ∈ ownedOf (files id), dataStart fo ≤ b ∧
    b < cnt ∧ fo.blockAllocator.used s b = true := by
  intro b hb
  cases hf : files id with
  | none =>
    rw [hf] at hb
    cases hb
  | some f =>
    rw [hf] at hb
    exact h.data id f hf b hb

theorem Replaces.not_mem (hr : Replaces fo s t id (files id) new) (h : InvBut fo others s files) {id' : ℕ}
    {f' : File} (hf' : files id' = some f') (hne : id' ≠ id) {b : ℕ} (hb : b ∈ f'.owned) :
    b ∉ ownedOf new ∧ b ∉ ownedOf (files id) := by
  have hold : b ∉ ownedOf (files id) := by
    intro hin
    cases hf : files id with
    | none =>
      rw [hf] at hin
      cases hin
    | some f =>
      rw [hf] at hin
      exact h.disjoint id' id f' f hf' hf hne hb hin
  refine ⟨fun hin => ?_, hold⟩
  obtain hin | hfree := (hr.data b hin).2.2
  · exact hold hin
  · rw [(h.data id' f' hf' b hb).2.2] at hfree
    cases hfree

theorem Replaces.inv (hr : Replaces fo s t id (files id) new) (h : InvBut fo others s files)
    (hl : Layout fo sz cnt) (hid : fo.inodeManager.Valid id) : InvBut fo others t (Function.update files id new) := by
  constructor
  case works => exact hr.works.trans h.works
  case reserved =>
    intro b hb
    have hlt : b < cnt := by
      have := hl.blocks.room
      unfold dataStart at hb
      omega
    rw [hr.bits b hlt, if_neg, if_neg, h.reserved b hb]
    · intro hin
      have := (owned_data h id b hin).1
      omega
    · intro hin
      have := (hr.data b hin).1
      omega
  case valid =>
    intro i f hf
    by_cases hi : i = id
    · exact hi ▸ hid
    · rw [Function.update_of_ne hi] at hf
      exact h.valid i f hf
  case entry =>
    intro i hi
    rw [hr.entry i hi]
    split
    case isTrue heq => rw [heq, Function.update_self]
    case isFalse hne => rw [Function.update_of_ne hne, h.entry i hi]
  case taken =>
    intro i hi
    rw [hr.taken i hi]
    split
    case isTrue heq => rw [heq, Function.update_self]
    case isFalse hne => rw [Function.update_of_ne hne, h.taken i hi]
  case holds =>
    intro i f hf hp
    by_cases hi : i = id
    · rw [hi, Function.update_self] at hf
      exact hr.holds f hf
    · rw [Function.update_of_ne hi] at hf
      apply (h.holds i f hf hp).congr
      intro b hb
      exact hr.frame b (h.data i f hf b hb).1 (hr.not_mem h hf hi hb).1
  case data =>
    intro i f hf b hb
    by_cases hi : i = id
    · rw [hi, Function.update_self] at hf
      subst hf
      obtain ⟨h1, h2, -⟩ := hr.data b hb
      exact ⟨h1, h2, (hr.bits b h2).trans (if_pos hb)⟩
    · rw [Function.update_of_ne hi] at hf
      obtain ⟨h1, h2, h3⟩ := h.data i f hf b hb
      obtain ⟨h4, h5⟩ := hr.not_mem h hf hi hb
      exact ⟨h1, h2, by rw [hr.bits b h2, if_neg h4, if_neg h5, h3]⟩
  case nodup =>
    intro i f hf
    by_cases hi : i = id
    · rw [hi, Function.update_self] at hf
      subst hf
      exact hr.nodup
    · rw [Function.update_of_ne hi] at hf
      exact h.nodup i f hf
  case disjoint =>
    intro i j f g hf hg hij b hbf hbg
    by_cases hi : i = id
    · rw [hi, Function.update_self] at hf
      rw [Function.update_of_ne (by omega)] at hg
      subst hf
      exact (hr.not_mem h hg (by omega) hbg).1 hbf
    · rw [Function.update_of_ne hi] at hf
      by_cases hj : j = id
      · rw [hj, Function.update_self] at hg
        subst hg
        exact (hr.not_mem h hf hi hbf).1 hbg
      · rw [Function.update_of_ne hj] at hg
        exact h.disjoint i j f g hf hg hij hbf hbg

end Replaces

structure Written (t t' : BlockManager sz cnt logCnt) (a : ℕ) (inode : List UInt8) (i : ℕ)
    (buf : List UInt8) (ids : List ℕ) (content : List UInt8) : Prop where
  works : t'.maybeFailed = false
  inode : t'.blocks a = inode
  indirect : i ≠ invalidBlockId → t'.blocks i = buf
  data : ∀ (j b : ℕ), ids[j]? = some b → t'.blocks b = chunk sz content j
  keep : ∀ b ∉ blocksOf a i ids, t'.blocks b = t.blocks b

/-- The outcome of a call that gives the file `id` a new content, which may
depend on what the file was. -/
def Rewrites (fo : FileOperation) (s : BlockManager sz cnt logCnt) (files : ℕ → Option File) (id : ℕ)
    (content : File → List UInt8) {α : Type} (r : Except ErrorType α) (t : BlockManager sz cnt logCnt) :
    Prop :=
  match r with
  | .ok _ => ∃ f i ids, files id = some f ∧ id < fo.inodeManager.maxInodeSupported - 1 ∧
      Replaces fo s t id (some f) (some ⟨f.inode, ids, i, content f⟩)
  | .error _ => Leaks fo s t

section Write

variable (hl : Layout fo sz cnt) {s t : BlockManager sz cnt logCnt} {others : Set ℕ} {files : ℕ → Option File}
  {f : File} {id i : ℕ} {inode content : List UInt8} {indirect : Option (List UInt8)} {ids : List ℕ}

theorem leaks_inv (hk : Leaks fo s t) (h : InvBut fo others s files) (hl : Layout fo sz cnt) :
    InvBut fo others t files := by
  have hroom := hl.blocks.room
  refine h.marks hl hk.marks (fun b hb => ?_) fun id f hf b hb => ?_
  · exact hk.used b (by unfold dataStart at hb; omega) (h.reserved b hb)
  · obtain ⟨-, hlt, hused⟩ := h.data id f hf b hb
    exact hk.used b hlt hused

theorem writeBack_spec (hworks : t.maybeFailed = false) {a : ℕ} (ha : a < cnt)
    (hi : i ≠ invalidBlockId → i < cnt ∧ a ≠ i) (hlen : inode.length = sz)
    (hslot : getBlock inode (getNblocks inode - 1) = i)
    (hbuf : ∀ buf ∈ indirect, buf.length = sz ∧ i ≠ invalidBlockId) :
    ∃ t', writeBack a inode indirect t = some (.ok (), t') ∧ t'.maybeFailed = t.maybeFailed ∧
      t'.blocks a = inode ∧ (i ≠ invalidBlockId → t'.blocks i = indirectView t i indirect) ∧
      ∀ b, b ≠ a → (i ≠ invalidBlockId → b ≠ i) → t'.blocks b = t.blocks b := by
  have hwrite := writeBlock_apply hworks (by omega : a < cnt + logCnt) hlen
  cases indirect with
  | none =>
    refine ⟨_, bind_ok hwrite, rfl, ?_, fun hne => ?_, fun b hb _ => ?_⟩
    · rw [setBlock_blocks, Function.update_self]
    · rw [setBlock_blocks, Function.update_of_ne (hi hne).2.symm]
      rfl
    · rw [setBlock_blocks, Function.update_of_ne hb]
  | some buf =>
    obtain ⟨hblen, hne⟩ := hbuf buf rfl
    obtain ⟨hicnt, hai⟩ := hi hne
    have hworks' : (t.setBlock a inode hlen).maybeFailed = false := hworks
    have hwrite' := writeBlock_apply hworks' (by omega : i < cnt + logCnt) hblen
    refine ⟨(t.setBlock a inode hlen).setBlock i buf hblen, ?_, rfl, ?_, fun _ => ?_, fun b hb hb' => ?_⟩
    · unfold writeBack
      rw [bind_ok hwrite]
      simp only
      rw [hslot, if_neg hne]
      exact hwrite'
    · rw [setBlock_blocks, Function.update_of_ne hai, setBlock_blocks, Function.update_self]
    · rw [setBlock_blocks, Function.update_self]
      rfl
    · rw [setBlock_blocks, Function.update_of_ne (hb' hne), setBlock_blocks, Function.update_of_ne hb]

include hl

theorem draft_write (h : InvBut fo others s files) (hd : Draft fo s f t inode indirect i ids)
    (hlen : ids.length = calculateBlockSz content.length sz) (hsize : content.length < 2 ^ 64) (now : ℕ) :
    ∃ out t₁ t', writeContent (setSize inode content.length) content
        (calculateBlockSz content.length sz) 0 indirect t = some (.ok out, t₁) ∧
      writeBack f.inode (setAllTime (setSize inode content.length) now) out t₁ = some (.ok (), t') ∧
      Written t t' f.inode (setAllTime (setSize inode content.length) now) i
        (indirectView t i indirect) ids content := by
  have hnd := nodup_blocksOf.mp hd.nodup
  obtain ⟨hs₁, -, hget₁⟩ := hd.shape.setSize hl.size hsize
  obtain ⟨hs₂, -, hget₂⟩ := hs₁.setAllTime hl.size (v := now)
  have hids : ∀ b ∈ ids, dataStart fo ≤ b ∧ b < cnt :=
    fun b hb => hd.data b (mem_blocksOf.mpr (Or.inr (Or.inr hb)))
  have hino := hd.data f.inode (mem_blocksOf.mpr (Or.inl rfl))
  have hind : i ≠ invalidBlockId → i < cnt :=
    fun hne => (hd.data i (mem_blocksOf.mpr (Or.inr (Or.inl ⟨hne, rfl⟩)))).2
  have hni : i ∉ ids := by
    intro hin
    by_cases hne : i = invalidBlockId
    · have h1 := dataStart_pos hl
      have h2 := (hids i hin).1
      unfold invalidBlockId at hne
      omega
    · exact (hnd.2.2 hne).2 hin
  have hindirect : directNum sz < ids.length → i ≠ invalidBlockId ∧ i < cnt := by
    intro hlt
    have hne : i ≠ invalidBlockId := by
      rw [Ne, hd.indirect_iff]
      omega
    exact ⟨hne, hind hne⟩
  obtain ⟨out, t₁, hrun, hw₁, hframe₁, hblocks₁, hview, hbuf⟩ := writeContent_spec hl.size
    hs₁ ((hget₁ _).trans hd.slot) hindirect hni (fun b hb => (hids b hb).2) hnd.2.1
    (hd.marks.works.trans h.works) hd.buf (hd.lists.congr_inode hget₁) _ 0 ((Nat.zero_add _).trans hlen.symm) content
  obtain ⟨t', hrun', hw', hinode', hind', hframe'⟩ := writeBack_spec (i := i) hw₁ hino.2
    (fun hne => ⟨hind hne, (hnd.2.2 hne).1⟩) hs₂.length
    (by rw [hs₂.slot_eq hl.size, hget₂, hget₁, hd.slot]) hbuf
  refine ⟨out, t₁, t', hrun, hrun', hw'.trans hw₁, hinode', fun hne => (hind' hne).trans hview,
    fun j b hb => ?_, fun b hb => ?_⟩
  · have hin := List.mem_of_getElem? hb
    rw [hframe' b (fun heq => hnd.1 (heq ▸ hin)) fun _ heq => hni (heq ▸ hin), hblocks₁ j b hb,
      if_pos (Nat.zero_le _)]
  · rw [mem_blocksOf] at hb
    rw [hframe' b (fun heq => hb (Or.inl heq)) fun hne heq => hb (Or.inr (Or.inl ⟨hne, heq⟩)),
      hframe₁ b fun hin => hb (Or.inr (Or.inr hin))]

theorem draft_replaces (h : InvBut fo others s files) (hf : files id = some f)
    (hd : Draft fo s f t inode indirect i ids) (hlen : ids.length = calculateBlockSz content.length sz)
    (hmax : ids.length ≤ maxBlocks sz) (hsize : content.length < 2 ^ 64) {now : ℕ}
    {t' : BlockManager sz cnt logCnt} (hw : Written t t' f.inode
      (setAllTime (setSize inode content.length) now) i (indirectView t i indirect) ids content) :
    Replaces fo s t' id (some f) (some ⟨f.inode, ids, i, content⟩) := by
  obtain ⟨hs₁, hsize₁, hget₁⟩ := hd.shape.setSize hl.size hsize
  obtain ⟨hs₂, hsize₂, hget₂⟩ := hs₁.setAllTime hl.size (v := now)
  have hget : ∀ j, getBlock (setAllTime (setSize inode content.length) now) j = getBlock inode j :=
    fun j => (hget₂ j).trans (hget₁ j)
  have hlow : ∀ b < dataStart fo, t'.blocks b = t.blocks b := by
    intro b hb
    apply hw.keep
    intro hin
    have := (hd.data b hin).1
    omega
  have hbitmap := hl.bitmap
  have htable : ∀ b, 1 ≤ b → b < fo.blockAllocator.bitmapBlockId → t'.blocks b = s.blocks b := by
    intro b _ hb
    rw [hlow b (by unfold dataStart; omega), hd.marks.frame b (Or.inl hb)]
  have hvalid := h.valid id f hf
  constructor
  case works => rw [hw.works, h.works]
  case super => rw [hlow 0 (dataStart_pos hl), hd.marks.frame 0 (Or.inl (by omega))]
  case entry =>
    intro j hj
    rw [(hl.entry_congr hj htable).1]
    split
    case isTrue heq => rw [heq, h.entry id hvalid, hf]; rfl
    case isFalse => rfl
  case taken =>
    intro j hj
    rw [(hl.entry_congr hj htable).2]
    split
    case isTrue heq => rw [heq, h.taken id hvalid, hf]; rfl
    case isFalse => rfl
  case bits =>
    intro b hb
    have hused := hl.used_congr (fun b _ hb => hlow b hb) hb
    rw [hused]
    exact hd.marks.bits b hb
  case frame =>
    intro b hb hnot
    rw [hw.keep b hnot, hd.marks.frame b (Or.inr hb)]
  case nodup => exact hd.nodup
  case data => exact fun b hb => ⟨(hd.data b hb).1, (hd.data b hb).2, hd.fresh b hb⟩
  case holds =>
    rintro _ ⟨⟩
    constructor
    case shape => exact hw.inode.symm ▸ hs₂
    case size => exact hw.inode.symm ▸ (hsize₂.trans hsize₁)
    case count => exact hlen
    case le => exact hmax
    case slot => exact hw.inode.symm ▸ ((hget _).trans hd.slot)
    case indirect => exact hd.indirect_iff
    case lists =>
      simp only
      rw [hw.inode]
      apply (hd.lists.congr_inode hget).congr
      intro hlt
      have hne : i ≠ invalidBlockId := by
        rw [Ne, hd.indirect_iff]
        omega
      exact hw.indirect hne
    case content =>
      intro j b hb
      rw [hw.data j b hb, take_chunk]

omit hl in
theorem blockNum_le (hsz : BlockSize sz) {n : ℕ} (hn : n ≤ maxBlocks sz * sz) :
    calculateBlockSz n sz ≤ maxBlocks sz ∧ maxBlocks sz < 2 ^ 32 ∧ n < 2 ^ 64 := by
  have h1 := hsz.ge
  have h2 := hsz.lt
  have hmax : maxBlocks sz ≤ sz := by
    unfold maxBlocks directNum sizeofBlockId
    omega
  refine ⟨?_, by omega, ?_⟩
  · by_contra hlt
    have := ((calculateBlockSz_spec (n := n) (by omega : 0 < sz)).2 (maxBlocks sz)).mp (by omega)
    omega
  · calc n ≤ maxBlocks sz * sz := hn
      _ ≤ sz * sz := Nat.mul_le_mul_right _ hmax
      _ < 2 ^ 32 * 2 ^ 32 := Nat.mul_lt_mul_of_lt_of_lt h2 h2
      _ = 2 ^ 64 := by decide

theorem writeFile_eq (h : InvBut fo others s files) (hf : files id = some f) (hp : id ∉ others)
    (hlt : id < fo.inodeManager.maxInodeSupported - 1) (hle : content.length ≤ maxBlocks sz * sz) (now : ℕ) :
    fo.writeFile id content now s = (do
      let (inode, indirect) ← fo.fitBlocks (s.blocks f.inode) f.blocks.length (calculateBlockSz content.length sz)
      let inode := setSize inode content.length
      let indirect ← writeContent inode content (calculateBlockSz content.length sz) 0 indirect
      writeBack f.inode (setAllTime inode now) indirect) s := by
  have hhold := h.holds id f hf hp
  have hold := hhold.le
  obtain ⟨hnum, hmax, -⟩ := blockNum_le hl.size hle
  unfold FileOperation.writeFile
  rw [bind_ok (h.readInode_some hl hf hlt)]
  simp only
  rw [hhold.shape.maxFileSz_eq hl.size, if_neg (by omega), hhold.size, ← hhold.count,
    Nat.mod_eq_of_lt (by omega), Nat.mod_eq_of_lt (by omega)]

theorem writeFile_fitted (h : InvBut fo others s files) (hf : files id = some f)
    (hlt : id < fo.inodeManager.maxInodeSupported - 1) (hle : content.length ≤ maxBlocks sz * sz) (now : ℕ)
    {out : List UInt8 × Option (List UInt8)} (hd : ∃ i ids, ids.length = calculateBlockSz content.length sz ∧
      Draft fo s f t out.1 out.2 i ids) :
    wp (do
      let indirect ← writeContent (setSize out.1 content.length) content
        (calculateBlockSz content.length sz) 0 out.2
      writeBack f.inode (setAllTime (setSize out.1 content.length) now) indirect)
      (fun r t' => r = .ok () ∧ Rewrites fo s files id (fun _ => content) r t') t := by
  obtain ⟨i, ids, hlen, hd⟩ := hd
  obtain ⟨hnum, -, hsize⟩ := blockNum_le hl.size hle
  obtain ⟨out', t₁, t', hrun, hrun', hw⟩ := draft_write hl h hd hlen hsize now
  apply wp_bind_ok hrun
  exact ⟨_, _, hrun', rfl, f, i, ids, hf, hlt, draft_replaces hl h hf hd hlen (by omega) hsize hw⟩

theorem writeFile_large (h : InvBut fo others s files) (hf : files id = some f) (hp : id ∉ others)
    (hlt : id < fo.inodeManager.maxInodeSupported - 1) (hgt : maxBlocks sz * sz < content.length) (now : ℕ) :
    fo.writeFile id content now s = some (.error .outOfResource, s) := by
  unfold FileOperation.writeFile
  rw [bind_ok (h.readInode_some hl hf hlt)]
  simp only
  rw [(h.holds id f hf hp).shape.maxFileSz_eq hl.size, if_pos hgt, refuse_apply]

theorem writeFile_spec (h : InvBut fo others s files) (hn : Named s id) (hp : id ∉ others) (content : List UInt8)
    (now : ℕ) :
    wp (fo.writeFile id content now) (Rewrites fo s files id fun _ => content) s := by
  by_cases hr : files id = none ∨ fo.inodeManager.maxInodeSupported - 1 ≤ id
  · exact ⟨_, _, bind_error (h.readInode_refused hl hn hr), Leaks.refl s⟩
  · rw [not_or, Nat.not_le] at hr
    obtain ⟨f, hf⟩ := Option.ne_none_iff_exists'.mp hr.1
    by_cases hle : content.length ≤ maxBlocks sz * sz
    · have hspec := (fitBlocks_spec hl h hf hp _ (blockNum_le hl.size hle).1).bind
        (R := Rewrites fo s files id fun _ => content)
        (fun out t hout => (writeFile_fitted hl h hf hr.2 hle now hout.1).mono fun r t' hr => hr.2)
        fun e t he => he.2.leaks
      obtain ⟨r, t, hrun, hres⟩ := hspec
      exact ⟨r, t, (writeFile_eq hl h hf hp hr.2 hle now).trans hrun, hres⟩
    · exact ⟨_, _, writeFile_large hl h hf hp hr.2 (Nat.lt_of_not_le hle) now, Leaks.refl s⟩

/-- A content of a size that the inode supports fails to be written if and only
if there are too few free blocks. -/
theorem writeFile_counts (h : InvBut fo others s files) (hf : files id = some f) (hp : id ∉ others)
    (hlt : id < fo.inodeManager.maxInodeSupported - 1) (hle : content.length ≤ maxBlocks sz * sz) (now : ℕ) :
    wp (fo.writeFile id content now) (fun r t => match r with
      | .ok _ => blocksNeeded (directNum sz) f.blocks.length (calculateBlockSz content.length sz) ≤
          (freeBlocks fo s).card
      | .error _ => Exhausts fo s t
          (blocksNeeded (directNum sz) f.blocks.length (calculateBlockSz content.length sz))) s := by
  have hspec := (fitBlocks_spec hl h hf hp _ (blockNum_le hl.size hle).1).bind
    (R := fun r t => match r with
      | .ok _ => blocksNeeded (directNum sz) f.blocks.length (calculateBlockSz content.length sz) ≤
          (freeBlocks fo s).card
      | .error _ => Exhausts fo s t
          (blocksNeeded (directNum sz) f.blocks.length (calculateBlockSz content.length sz)))
    (fun out t hout => (writeFile_fitted hl h hf hlt hle now hout.1).mono fun r t' hr => by
      rw [hr.1]
      exact hout.2) fun e t he => he.2
  obtain ⟨r, t, hrun, hres⟩ := hspec
  exact ⟨r, t, (writeFile_eq hl h hf hp hlt hle now).trans hrun, hres⟩

theorem writeFile_error (h : InvBut fo others s files) (hf : files id = some f) (hp : id ∉ others)
    (hlt : id < fo.inodeManager.maxInodeSupported - 1) {now : ℕ} {e : ErrorType}
    (hrun : fo.writeFile id content now s = some (.error e, t)) : e = .outOfResource := by
  by_cases hle : content.length ≤ maxBlocks sz * sz
  · rw [writeFile_eq hl h hf hp hlt hle] at hrun
    have hspec := (fitBlocks_spec hl h hf hp _ (blockNum_le hl.size hle).1).bind
      (R := fun r _ => ∀ e, r = .error e → e = .outOfResource)
      (fun out t hout => (writeFile_fitted hl h hf hlt hle now hout.1).mono fun r t' hr e he => by
        cases hr.1.symm.trans he) fun e t he e' heq => by
          cases heq
          exact he.1
    exact hspec.of_eq hrun e rfl
  · cases (writeFile_large hl h hf hp hlt (Nat.lt_of_not_le hle) now).symm.trans hrun
    rfl

theorem writeFile_shorter (h : InvBut fo others s files) (hf : files id = some f) (hp : id ∉ others)
    (hlt : id < fo.inodeManager.maxInodeSupported - 1) (hle : content.length ≤ f.content.length) (now : ℕ) :
    ∃ t, fo.writeFile id content now s = some (.ok (), t) ∧
      ∃ i ids, Replaces fo s t id (some f) (some ⟨f.inode, ids, i, content⟩) := by
  have hhold := h.holds id f hf hp
  have hpos : 0 < sz := by
    have := hl.size.ge
    omega
  have hnum := calculateBlockSz_spec (n := content.length) hpos
  have hfit : calculateBlockSz content.length sz ≤ f.blocks.length := by
    rw [hhold.count]
    by_contra hgt
    have hold := (calculateBlockSz_spec (n := f.content.length) hpos).1
    have hnew := (hnum.2 _).mp (Nat.lt_of_not_le hgt)
    omega
  have hmax : content.length ≤ maxBlocks sz * sz :=
    hnum.1.trans (Nat.mul_le_mul_right _ (hfit.trans hhold.le))
  obtain ⟨out, t₁, hrun, hd⟩ := fitBlocks_shrink hl h hf hp _ hfit
  obtain ⟨r, t, hrun', rfl, f', i, ids, hf', -, hr⟩ := writeFile_fitted hl h hf hlt hmax now hd
  cases hf.symm.trans hf'
  refine ⟨t, ?_, i, ids, hr⟩
  rw [writeFile_eq hl h hf hp hlt hmax, bind_ok hrun]
  exact hrun'

end Write

section Alloc

variable (hl : Layout fo sz cnt) {s t : BlockManager sz cnt logCnt} {others : Set ℕ} {files : ℕ → Option File}
  {id : ℕ}

def NoInode (fo : FileOperation) (s t : BlockManager sz cnt logCnt) : Prop :=
  (t = s ∧ freeBlocks fo s = ∅) ∨ (Spends fo s t 1 ∧ ∀ i, fo.inodeManager.Valid i → fo.inodeManager.taken s i = true)

theorem NoInode.leaks (h : NoInode fo s t) : Leaks fo s t := by
  obtain ⟨rfl, -⟩ | ⟨hspends, -⟩ := h
  · exact Leaks.refl t
  · exact hspends.leaks

theorem newInode_spec (hsz : BlockSize sz) (type now : ℕ) : Shape sz (newInode sz type now) ∧
    getSize (newInode sz type now) = 0 ∧ ∀ j, getBlock (newInode sz type now) j = 0 := by
  have h1 := hsz.ge
  have h2 := hsz.lt
  have hlen₀ : (setField (List.replicate sz (0 : UInt8)) 0 4 type).length = sz := by
    rw [length_setField, List.length_replicate]
    rw [List.length_replicate]
    omega
  -- writing a field before or behind the one that is read changes nothing
  have hkeep : ∀ {buf : List UInt8} {off k v off' j : ℕ}, buf.length = sz → off + k ≤ sz →
      off' + j ≤ off ∨ off + k ≤ off' → getField (setField buf off k v) off' j = getField buf off' j :=
    fun hb hk hd => getField_setField_of_disjoint (hb ▸ hk) hd
  have hlen : ∀ {buf : List UInt8} {off k v : ℕ}, buf.length = sz → off + k ≤ sz →
      (setField buf off k v).length = sz := fun hb hk => (length_setField (hb ▸ hk)).trans hb
  have hlen₁ := hlen (v := now) hlen₀ (by omega : 4 + 8 ≤ sz)
  have hlen₂ := hlen (v := now) hlen₁ (by omega : 12 + 8 ≤ sz)
  have hlen₃ := hlen (v := now) hlen₂ (by omega : 20 + 8 ≤ sz)
  have hlen₄ := hlen (v := sz) hlen₃ (by omega : 36 + 4 ≤ sz)
  have hzero : ∀ off k, 28 ≤ off → off + k ≤ 36 ∨ 44 ≤ off →
      getField (newInode sz type now) off k = 0 := by
    intro off k hge hoff
    unfold newInode setAllTime
    rw [hkeep hlen₄ (by omega) (by omega), hkeep hlen₃ (by omega) (by omega),
      hkeep hlen₂ (by omega) (by omega), hkeep hlen₁ (by omega) (by omega),
      hkeep hlen₀ (by omega) (by omega), hkeep List.length_replicate (by omega) (by omega),
      getField_replicate]
  refine ⟨⟨hlen hlen₄ (by omega), ?_, ?_⟩, hzero 28 8 (by omega) (by omega), fun j => ?_⟩
  · exact (hkeep hlen₄ (by omega) (by omega)).trans (getField_setField_self (by omega) (by omega))
  · apply getField_setField_self (le_of_le_of_eq (by omega : 40 + 4 ≤ sz) hlen₄.symm)
    unfold sizeofInode sizeofBlockId
    omega
  · apply hzero
    · unfold sizeofInode
      omega
    · unfold sizeofInode
      omega

include hl

theorem alloc_replaces (h : InvBut fo others s files) {b : ℕ} (hb : b < cnt)
    (hfree : fo.blockAllocator.used s b = false) {t₁ t₂ : BlockManager sz cnt logCnt}
    (hm : fo.blockAllocator.Marks s t₁ (Function.update (fo.blockAllocator.used s) b true))
    (hrec : fo.inodeManager.Records t₁ t₂ (Function.update (fo.inodeManager.entry t₁) id b)
      (Function.update (fo.inodeManager.taken t₁) id true)) {inode : List UInt8} (hs : Shape sz inode)
    (hsize : getSize inode = 0) (hget : ∀ j, getBlock inode j = 0) :
    Replaces fo s (t₂.setBlock b inode hs.length) id none (some ⟨b, [], invalidBlockId, []⟩) := by
  have hbitmap := hl.bitmap
  have howned : ownedOf (some ⟨b, [], invalidBlockId, []⟩) = [b] := rfl
  have hbd : dataStart fo ≤ b := by
    by_contra hlt
    rw [h.reserved b (by omega)] at hfree
    cases hfree
  have hlow : ∀ x < dataStart fo, (t₂.setBlock b inode hs.length).blocks x = t₂.blocks x := by
    intro x hx
    rw [setBlock_blocks, Function.update_of_ne (by omega)]
  have hentry₁ : ∀ {x}, fo.inodeManager.Valid x → _ :=
    fun hx => hl.entry_congr hx fun y _ hy => hm.frame y (Or.inl hy)
  have hentry₃ : ∀ {x}, fo.inodeManager.Valid x → _ :=
    fun hx => hl.entry_congr hx fun y _ hy => hlow y (by unfold dataStart; omega)
  constructor
  case works => exact hrec.works.trans hm.works
  case super => rw [hlow 0 (dataStart_pos hl), hrec.frame 0 (Or.inl rfl), hm.frame 0 (Or.inl (by omega))]
  case entry =>
    intro x hx
    rw [(hentry₃ hx).1, hrec.entries x hx]
    split
    case isTrue heq => rw [heq, Function.update_self]; rfl
    case isFalse hne => rw [Function.update_of_ne hne, (hentry₁ hx).1]
  case taken =>
    intro x hx
    rw [(hentry₃ hx).2, hrec.bits x hx]
    split
    case isTrue heq => rw [heq, Function.update_self]; rfl
    case isFalse hne => rw [Function.update_of_ne hne, (hentry₁ hx).2]
  case bits =>
    intro x hx
    have hused : fo.blockAllocator.used (t₂.setBlock b inode hs.length) x = fo.blockAllocator.used t₁ x := by
      refine hl.used_congr (fun y hy hlt => ?_) hx
      rw [hlow y hlt, hrec.frame y (Or.inr (by omega))]
    rw [hused, hm.bits x hx, howned]
    by_cases hxb : x = b
    · rw [hxb, Function.update_self, if_pos (List.mem_singleton.mpr rfl)]
    · rw [Function.update_of_ne hxb, if_neg (by simpa using hxb), if_neg (by simp [ownedOf])]
  case frame =>
    intro x hx hnot
    rw [howned, List.mem_singleton] at hnot
    rw [setBlock_blocks, Function.update_of_ne hnot, hrec.frame x (Or.inr (by unfold dataStart at hx; omega)),
      hm.frame x (Or.inr hx)]
  case nodup => exact List.nodup_singleton b
  case data =>
    intro x hx
    rw [howned, List.mem_singleton] at hx
    rw [hx]
    exact ⟨hbd, hb, Or.inr hfree⟩
  case holds =>
    rintro _ ⟨⟩
    have hblock : (t₂.setBlock b inode hs.length).blocks b = inode := by
      rw [setBlock_blocks, Function.update_self]
    constructor
    case shape => exact hblock.symm ▸ hs
    case size => exact hblock.symm ▸ hsize
    case count => rw [List.length_nil, List.length_nil, calculateBlockSz, Nat.zero_mod, Nat.zero_div]; rfl
    case le => exact Nat.zero_le _
    case slot => exact hblock.symm ▸ hget _
    case indirect => exact ⟨fun _ => Nat.zero_le _, fun _ => rfl⟩
    case lists =>
      refine ⟨fun j x hx => ?_, fun j _ _ => ?_⟩
      · cases hx
      · rw [hblock, hget]
        rfl
    case content => exact fun j x hx => by cases hx

/-- A block and an id are taken for a new inode. If no id is left, the block is
lost. -/
theorem allocInode_spec (h : InvBut fo others s files) (type now : ℕ) :
    wp (fo.allocInode type now) (fun r t => match r with
      | .ok id => ∃ b, fo.inodeManager.Valid id ∧ files id = none ∧
        (∀ i, 1 ≤ i → i < id → fo.inodeManager.taken s i = true) ∧
        Replaces fo s t id none (some ⟨b, [], invalidBlockId, []⟩)
      | .error e => e = .outOfResource ∧ NoInode fo s t) s := by
  refine (allocate_counts hl h.works).bind (fun b t₁ hb => ?_) fun e t₁ he => ?_
  · obtain ⟨hspends, hbcnt, hfree, hm⟩ := hb
    have hcnt := hl.cnt_lt
    refine (allocateInode_spec hl.inodes (hm.works.trans h.works) (by omega : b < 2 ^ 64)).bind
      (fun id t₂ hid => ?_) fun e t₂ he => ?_
    · obtain ⟨hvalid, hnot, hfirst, hrec⟩ := hid
      obtain ⟨hs, hsize, hget⟩ := newInode_spec hl.size type now
      have hworks₂ : t₂.maybeFailed = false := hrec.works.trans (hm.works.trans h.works)
      apply wp_bind_ok (writeBlock_apply hworks₂ (by omega : b < cnt + logCnt) hs.length)
      have htaken : ∀ {i}, fo.inodeManager.Valid i → fo.inodeManager.taken t₁ i = fo.inodeManager.taken s i :=
        fun hi => (hl.entry_congr hi fun x _ hx => hm.frame x (Or.inl hx)).2
      refine (wp_pure _).mpr ⟨b, hvalid, ?_, fun i h1 h2 => ?_,
        alloc_replaces hl h hbcnt hfree hm hrec hs hsize hget⟩
      · rw [htaken hvalid, h.taken id hvalid] at hnot
        simpa using hnot
      · rw [← htaken ⟨h1, h2.le.trans hvalid.2⟩]
        exact hfirst i h1 h2
    · obtain ⟨herr, rfl, hall⟩ := he
      refine ⟨herr, Or.inr ⟨hspends, fun i hi => ?_⟩⟩
      rw [← (hl.entry_congr hi fun x _ hx => hm.frame x (Or.inl hx)).2]
      exact hall i hi
  · obtain ⟨herr, rfl, hexhausts⟩ := he
    exact ⟨herr, Or.inl ⟨rfl, hexhausts.empty⟩⟩

end Alloc

end Chfs.Fs.Writing
