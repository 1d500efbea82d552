import Chfs.Fs.Files
import Mathlib.Data.Finset.Card
import Mathlib.Data.List.Nodup

namespace Chfs.Fs.Growth

open Lib.Effect Lib.Bytes Block.Manager Block.Allocator Inode Operations Files

variable {sz cnt logCnt : ℕ} {fo : FileOperation}

def indirectView (t : BlockManager sz cnt logCnt) (i : ℕ) (indirect : Option (List UInt8)) : List UInt8 :=
  indirect.getD (t.blocks i)

/-- A file `f` on the device `s` that is being rewritten: it has the inode
`inode` and the blocks `ids`, and the bitmap of `t` has been changed
accordingly. -/
structure Draft (fo : FileOperation) (s : BlockManager sz cnt logCnt) (f : File)
    (t : BlockManager sz cnt logCnt) (inode : List UInt8) (indirect : Option (List UInt8)) (i : ℕ)
    (ids : List ℕ) : Prop where
  marks : fo.blockAllocator.Marks s t fun b => if b ∈ blocksOf f.inode i ids then true
    else if b ∈ f.owned then false else fo.blockAllocator.used s b
  shape : Shape sz inode
  slot : getBlock inode (directNum sz) = i
  indirect_iff : i = invalidBlockId ↔ ids.length ≤ directNum sz
  lists : Lists sz inode (indirectView t i indirect) ids
  buf : ∀ buf ∈ indirect, buf.length = sz ∧ i ≠ invalidBlockId
  nodup : (blocksOf f.inode i ids).Nodup
  data : ∀ b ∈ blocksOf f.inode i ids, dataStart fo ≤ b ∧ b < cnt
  fresh : ∀ b ∈ blocksOf f.inode i ids, b ∈ f.owned ∨ fo.blockAllocator.used s b = false

section Draft

variable (hl : Layout fo sz cnt) {s t : BlockManager sz cnt logCnt} {others : Set ℕ} {files : ℕ → Option File}
  {f : File} {id i : ℕ} {inode : List UInt8} {indirect : Option (List UInt8)} {ids : List ℕ}

theorem draft_start (h : InvBut fo others s files) (hf : files id = some f) (hp : id ∉ others) :
    Draft fo s f s (s.blocks f.inode) none f.indirect f.blocks where
  marks := by
    refine ⟨rfl, fun _ _ => rfl, fun b hb => ?_⟩
    have howned : b ∈ f.owned → fo.blockAllocator.used s b = true :=
      fun hb => (h.data id f hf b hb).2.2
    change _ = if b ∈ f.owned then true else _
    split
    case isTrue hmem => rw [howned hmem]
    case isFalse hmem => rfl
  shape := (h.holds id f hf hp).shape
  slot := (h.holds id f hf hp).slot
  indirect_iff := (h.holds id f hf hp).indirect
  lists := (h.holds id f hf hp).lists
  buf _ hbuf := by cases hbuf
  nodup := h.nodup id f hf
  data b hb := ⟨(h.data id f hf b hb).1, (h.data id f hf b hb).2.1⟩
  fresh b hb := Or.inl hb

theorem Draft.free (h : InvBut fo others s files) (hf : files id = some f) (hd : Draft fo s f t inode indirect i ids)
    {b : ℕ} (hb : b < cnt) (hfree : fo.blockAllocator.used t b = false) :
    b ∉ blocksOf f.inode i ids ∧ dataStart fo ≤ b ∧
      (b ∈ f.owned ∨ fo.blockAllocator.used s b = false) := by
  rw [hd.marks.bits b hb] at hfree
  split at hfree
  case isTrue => cases hfree
  case isFalse hmem =>
    refine ⟨hmem, ?_, ?_⟩
    · by_contra hlt
      have hres := h.reserved b (by omega)
      split at hfree
      case isTrue hown =>
        have := (h.data id f hf b hown).1
        omega
      case isFalse => rw [hres] at hfree; cases hfree
    · split at hfree
      case isTrue hown => exact Or.inl hown
      case isFalse => exact Or.inr hfree

/-- The bitmap may have gained marks, and nothing else has changed. -/
structure Leaks (fo : FileOperation) (s t : BlockManager sz cnt logCnt) : Prop where
  marks : fo.blockAllocator.Marks s t (fo.blockAllocator.used t)
  used : ∀ b < cnt, fo.blockAllocator.used s b = true → fo.blockAllocator.used t b = true

structure Takes (fo : FileOperation) (s t : BlockManager sz cnt logCnt) (new : List ℕ) : Prop where
  free : ∀ b ∈ new, b < cnt ∧ fo.blockAllocator.used s b = false
  marks : fo.blockAllocator.Marks s t fun b => decide (b ∈ new) || fo.blockAllocator.used s b

theorem takes_one {b : ℕ} (hb : b < cnt) (hfree : fo.blockAllocator.used s b = false)
    (hm : fo.blockAllocator.Marks s t (Function.update (fo.blockAllocator.used s) b true)) :
    Takes fo s t [b] where
  free x hx := by
    obtain rfl := List.mem_singleton.mp hx
    exact ⟨hb, hfree⟩
  marks := by
    refine ⟨hm.works, hm.frame, fun x hx => ?_⟩
    rw [hm.bits x hx]
    by_cases hxb : x = b
    · rw [hxb, Function.update_self]
      simp
    · rw [Function.update_of_ne hxb]
      simp [hxb]

theorem Takes.cons {t' : BlockManager sz cnt logCnt} {b : ℕ} {new : List ℕ} (h : Takes fo s t new)
    (hb : b < cnt) (hfree : fo.blockAllocator.used t b = false)
    (hm : fo.blockAllocator.Marks t t' (Function.update (fo.blockAllocator.used t) b true)) :
    Takes fo s t' (b :: new) ∧ b ∉ new := by
  have hbits := h.marks.bits b hb
  rw [hfree] at hbits
  obtain ⟨hnot, hused⟩ : b ∉ new ∧ fo.blockAllocator.used s b = false := by simpa using hbits.symm
  refine ⟨⟨fun x hx => ?_, hm.works.trans h.marks.works, fun j hj => ?_, fun x hx => ?_⟩, hnot⟩
  · obtain rfl | hx := List.mem_cons.mp hx
    · exact ⟨hb, hused⟩
    · exact h.free x hx
  · rw [hm.frame j hj, h.marks.frame j hj]
  · rw [hm.bits x hx]
    by_cases hxb : x = b
    · rw [hxb, Function.update_self]
      simp
    · rw [Function.update_of_ne hxb, h.marks.bits x hx]
      simp [hxb]

theorem Takes.leaks {new : List ℕ} (h : Takes fo s t new) : Leaks fo s t where
  marks := ⟨h.marks.works, h.marks.frame, fun _ _ => rfl⟩
  used b hb hu := by rw [h.marks.bits b hb, hu, Bool.or_true]

theorem Leaks.trans {u : BlockManager sz cnt logCnt} (h : Leaks fo s t) (h' : Leaks fo t u) :
    Leaks fo s u where
  marks := ⟨h'.marks.works.trans h.marks.works,
    fun j hj => (h'.marks.frame j hj).trans (h.marks.frame j hj), fun _ _ => rfl⟩
  used b hb hu := h'.used b hb (h.used b hb hu)

theorem Leaks.refl (s : BlockManager sz cnt logCnt) : Leaks fo s s :=
  ⟨⟨rfl, fun _ _ => rfl, fun _ _ => rfl⟩, fun _ _ h => h⟩

def freeBlocks (fo : FileOperation) (s : BlockManager sz cnt logCnt) : Finset ℕ :=
  (Finset.range cnt).filter fun b => fo.blockAllocator.used s b = false

theorem mem_freeBlocks {b : ℕ} : b ∈ freeBlocks fo s ↔ b < cnt ∧ fo.blockAllocator.used s b = false := by
  rw [freeBlocks, Finset.mem_filter, Finset.mem_range]

/-- On `t` the bitmap has `k` more marks. -/
structure Spends (fo : FileOperation) (s t : BlockManager sz cnt logCnt) (k : ℕ) : Prop where
  leaks : Leaks fo s t
  card : (freeBlocks fo t).card + k = (freeBlocks fo s).card

theorem Spends.refl (s : BlockManager sz cnt logCnt) : Spends fo s s 0 := ⟨Leaks.refl s, rfl⟩

theorem Spends.trans {u : BlockManager sz cnt logCnt} {k l : ℕ} (h : Spends fo s t k) (h' : Spends fo t u l) :
    Spends fo s u (k + l) where
  leaks := h.leaks.trans h'.leaks
  card := by
    have h1 := h.card
    have h2 := h'.card
    omega

theorem card_freeBlocks {b : ℕ} (hb : b < cnt) (hfree : fo.blockAllocator.used s b = false)
    (hbits : ∀ x < cnt, fo.blockAllocator.used t x = if x = b then true else fo.blockAllocator.used s x) :
    (freeBlocks fo t).card + 1 = (freeBlocks fo s).card := by
  have herase : freeBlocks fo t = (freeBlocks fo s).erase b := by
    ext x
    rw [Finset.mem_erase, mem_freeBlocks, mem_freeBlocks]
    by_cases hx : x < cnt
    · rw [hbits x hx]
      by_cases hxb : x = b
      · simp [hxb]
      · rw [if_neg hxb]
        exact ⟨fun h => ⟨hxb, h⟩, fun h => h.2⟩
    · exact ⟨fun h => absurd h.1 hx, fun h => absurd h.2.1 hx⟩
  rw [herase]
  exact Finset.card_erase_add_one (mem_freeBlocks.mpr ⟨hb, hfree⟩)

theorem spends_one {b : ℕ} (hb : b < cnt) (hfree : fo.blockAllocator.used s b = false)
    (hm : fo.blockAllocator.Marks s t (Function.update (fo.blockAllocator.used s) b true)) : Spends fo s t 1 where
  leaks := (takes_one hb hfree hm).leaks
  card := card_freeBlocks hb hfree fun x hx => (hm.bits x hx).trans (Function.update_apply ..)

structure Exhausts (fo : FileOperation) (s t : BlockManager sz cnt logCnt) (k : ℕ) : Prop where
  empty : freeBlocks fo t = ∅
  spent : ∃ m < k, Spends fo s t m

theorem Exhausts.leaks {k : ℕ} (h : Exhausts fo s t k) : Leaks fo s t := by
  obtain ⟨_, _, hs⟩ := h.spent
  exact hs.leaks

theorem Exhausts.lt {k : ℕ} (h : Exhausts fo s t k) : (freeBlocks fo s).card < k := by
  obtain ⟨m, hm, hs⟩ := h.spent
  have hcard := hs.card
  rw [h.empty, Finset.card_empty] at hcard
  omega

theorem Exhausts.mono {k l : ℕ} (h : Exhausts fo s t k) (hle : k ≤ l) : Exhausts fo s t l where
  empty := h.empty
  spent := by
    obtain ⟨m, hm, hs⟩ := h.spent
    exact ⟨m, Nat.lt_of_lt_of_le hm hle, hs⟩

theorem Spends.exhausts {u : BlockManager sz cnt logCnt} {k l : ℕ} (h : Spends fo s t k) (h' : Exhausts fo t u l) :
    Exhausts fo s u (k + l) where
  empty := h'.empty
  spent := by
    obtain ⟨m, hm, hs⟩ := h'.spent
    exact ⟨k + m, by omega, h.trans hs⟩

theorem allocate_counts (hl : Layout fo sz cnt) (hs : s.maybeFailed = false) :
    wp fo.blockAllocator.allocate (fun r t => match r with
      | .ok b => Spends fo s t 1 ∧ b < cnt ∧ fo.blockAllocator.used s b = false ∧
          fo.blockAllocator.Marks s t (Function.update (fo.blockAllocator.used s) b true)
      | .error e => e = .outOfResource ∧ t = s ∧ Exhausts fo s s 1) s := by
  obtain ⟨r, t, hrun, hspec⟩ := allocate_spec hl.blocks hs
  have hfirst := (allocate_first hl.blocks hs).of_eq hrun
  refine ⟨r, t, hrun, ?_⟩
  cases r with
  | ok b => exact ⟨spends_one hspec.1 hspec.2.1 hspec.2.2, hspec⟩
  | error e =>
    refine ⟨hspec.1, hspec.2, ?_, 0, Nat.one_pos, Spends.refl s⟩
    rw [Finset.eq_empty_iff_forall_notMem]
    intro b hb
    obtain ⟨hlt, hfree⟩ := mem_freeBlocks.mp hb
    cases (hfirst b hlt).symm.trans hfree

/-- The number of blocks `write_file` allocates: those beyond the old ones, and
the indirect block, if it is not there yet. -/
def blocksNeeded (direct oldBlockNum newBlockNum : ℕ) : ℕ :=
  newBlockNum - oldBlockNum + if oldBlockNum ≤ direct ∧ direct < newBlockNum then 1 else 0

theorem Draft.join (h : InvBut fo others s files) (hf : files id = some f)
    (hd : Draft fo s f t inode indirect i ids) {i' : ℕ} {new ids' : List ℕ} {inode' : List UInt8}
    {indirect' : Option (List UInt8)} {t' : BlockManager sz cnt logCnt} (ht : Takes fo t t' new)
    (hmem : ∀ x, x ∈ blocksOf f.inode i' ids' ↔ x ∈ new ∨ x ∈ blocksOf f.inode i ids)
    (hnodup : (blocksOf f.inode i' ids').Nodup) (hshape : Shape sz inode')
    (hslot : getBlock inode' (directNum sz) = i')
    (hiff : i' = invalidBlockId ↔ ids'.length ≤ directNum sz)
    (hlists : Lists sz inode' (indirectView t' i' indirect') ids')
    (hbuf : ∀ buf ∈ indirect', buf.length = sz ∧ i' ≠ invalidBlockId) :
    Draft fo s f t' inode' indirect' i' ids' where
  marks := by
    refine ⟨ht.marks.works.trans hd.marks.works,
      fun j hj => (ht.marks.frame j hj).trans (hd.marks.frame j hj), fun x hx => ?_⟩
    rw [ht.marks.bits x hx, hd.marks.bits x hx]
    by_cases hnew : x ∈ new
    · rw [if_pos ((hmem x).mpr (Or.inl hnew)), decide_eq_true hnew, Bool.true_or]
    · rw [decide_eq_false hnew, Bool.false_or]
      by_cases hin : x ∈ blocksOf f.inode i ids
      · rw [if_pos hin, if_pos ((hmem x).mpr (Or.inr hin))]
      · have hnot : x ∉ blocksOf f.inode i' ids' := by
          rw [hmem]
          exact fun h => h.elim hnew hin
        rw [if_neg hin, if_neg hnot]
  shape := hshape
  slot := hslot
  indirect_iff := hiff
  lists := hlists
  buf := hbuf
  nodup := hnodup
  data x hx := by
    obtain hx | hx := (hmem x).mp hx
    · obtain ⟨hb, hfree⟩ := ht.free x hx
      exact ⟨(hd.free h hf hb hfree).2.1, hb⟩
    · exact hd.data x hx
  fresh x hx := by
    obtain hx | hx := (hmem x).mp hx
    · obtain ⟨hb, hfree⟩ := ht.free x hx
      exact (hd.free h hf hb hfree).2.2
    · exact hd.fresh x hx

end Draft

section Lists

variable (hsz : BlockSize sz) {inode buf : List UInt8} {ids : List ℕ} {b : ℕ}
include hsz

theorem lists_append_direct (h : Lists sz inode buf ids) (hs : Shape sz inode)
    (hlt : ids.length < directNum sz) (hb : b < 2 ^ 64) (buf' : List UInt8) :
    Lists sz (setBlockDirect inode ids.length b) buf' (ids ++ [b]) where
  entry j x hx := by
    have hj := (List.getElem?_eq_some_iff.mp hx).1
    rw [List.length_append, List.length_singleton] at hj
    unfold blockAt
    rw [if_pos (by omega), hs.getBlock_setBlockDirect hsz (by omega) hb]
    rw [List.getElem?_append] at hx
    split at hx
    case isTrue hlt' =>
      have he := h.entry j x hx
      unfold blockAt at he
      rw [if_pos (by omega)] at he
      rw [if_neg (by omega), he]
    case isFalse hge =>
      have hje : j = ids.length := by omega
      rw [hje, Nat.sub_self] at hx
      cases hx
      rw [if_pos hje]
  rest j hj hlt' := by
    rw [List.length_append, List.length_singleton] at hj
    rw [hs.getBlock_setBlockDirect hsz (by omega) hb, if_neg (by omega)]
    exact h.rest j (by omega) hlt'

omit hsz in
theorem lists_append_indirect (h : Lists sz inode buf ids)
    (hge : directNum sz ≤ ids.length) (hlt : ids.length < maxBlocks sz) (hbuf : buf.length = sz)
    (hb : b < 2 ^ 64) : Lists sz inode
      (setField buf (sizeofBlockId * (ids.length - directNum sz)) sizeofBlockId b) (ids ++ [b]) where
  entry j x hx := by
    have hoff : sizeofBlockId * (ids.length - directNum sz) + sizeofBlockId ≤ buf.length := by
      unfold maxBlocks sizeofBlockId at hlt
      unfold sizeofBlockId
      omega
    rw [List.getElem?_append] at hx
    unfold blockAt
    split at hx
    case isTrue hlt' =>
      have he := h.entry j x hx
      unfold blockAt at he
      split
      case isTrue hd => rwa [if_pos hd] at he
      case isFalse hd =>
        rw [if_neg hd] at he
        rw [← he]
        apply getField_setField_of_disjoint hoff
        unfold sizeofBlockId
        omega
    case isFalse hge' =>
      have hj := (List.getElem?_eq_some_iff.mp hx).1
      rw [List.length_singleton] at hj
      have hje : j = ids.length := by omega
      rw [hje, Nat.sub_self] at hx
      cases hx
      rw [if_neg (by omega), hje]
      exact getField_setField_self hoff hb
  rest j hj hlt' := by
    rw [List.length_append] at hj
    omega

theorem lists_setSlot (h : Lists sz inode buf ids) (hs : Shape sz inode)
    (hb : b < 2 ^ 64) : Lists sz (setBlockDirect inode (directNum sz) b) buf ids where
  entry j x hx := by
    rw [← h.entry j x hx]
    unfold blockAt
    split
    case isTrue hd =>
      rw [hs.getBlock_setBlockDirect hsz (Nat.le_refl _) hb, if_neg (by omega)]
    case isFalse => rfl
  rest j hj hlt := by
    rw [hs.getBlock_setBlockDirect hsz (Nat.le_refl _) hb, if_neg (by omega)]
    exact h.rest j hj hlt

end Lists

section Grow

variable (hl : Layout fo sz cnt) {s t : BlockManager sz cnt logCnt} {others : Set ℕ} {files : ℕ → Option File}
  {f : File} {id i : ℕ} {inode : List UInt8} {indirect : Option (List UInt8)} {ids : List ℕ}

theorem not_mem_of_free (h : InvBut fo others s files) (hf : files id = some f)
    (hd : Draft fo s f t inode indirect i ids) {new : List ℕ} {t' : BlockManager sz cnt logCnt}
    (ht : Takes fo t t' new) {b : ℕ} (hb : b ∈ new) : b ∉ blocksOf f.inode i ids :=
  (hd.free h hf (ht.free b hb).1 (ht.free b hb).2).1

theorem nodup_snoc {b : ℕ} (h : ids.Nodup) (hb : b ∉ ids) : (ids ++ [b]).Nodup := by
  rw [← List.concat_eq_append]
  exact h.concat hb

include hl

theorem Draft.addDirect (h : InvBut fo others s files) (hf : files id = some f)
    (hd : Draft fo s f t inode indirect i ids) {b : ℕ} {t' : BlockManager sz cnt logCnt}
    (ht : Takes fo t t' [b]) (hlt : ids.length < directNum sz) :
    Draft fo s f t' (setBlockDirect inode ids.length b) indirect i (ids ++ [b]) := by
  have hb := (ht.free b (List.mem_singleton.mpr rfl)).1
  have hb64 : b < 2 ^ 64 := by
    have := hl.cnt_lt
    omega
  have hi : i = invalidBlockId := hd.indirect_iff.mpr (by omega)
  have hnot := not_mem_of_free h hf hd ht (List.mem_singleton.mpr rfl)
  have hnd := nodup_blocksOf.mp hd.nodup
  rw [mem_blocksOf] at hnot
  refine hd.join h hf ht (fun x => ?_) ?_ (hd.shape.setBlockDirect hl.size (by omega)) ?_ ?_ ?_ hd.buf
  · simp only [mem_blocksOf, List.mem_append, List.mem_singleton]
    grind
  · rw [nodup_blocksOf]
    refine ⟨?_, ?_, fun hne => absurd hi hne⟩
    · simp only [List.mem_append, List.mem_singleton, not_or]
      exact ⟨hnd.1, fun heq => hnot (Or.inl heq.symm)⟩
    · exact nodup_snoc hnd.2.1 fun hmem => hnot (Or.inr (Or.inr hmem))
  · rw [hd.shape.getBlock_setBlockDirect hl.size (by omega) hb64, if_neg (by omega), hd.slot]
  · rw [List.length_append, List.length_singleton, hi]
    exact ⟨fun _ => by omega, fun _ => rfl⟩
  · exact lists_append_direct hl.size hd.lists hd.shape hlt hb64 _

theorem Draft.addIndirect (h : InvBut fo others s files) (hf : files id = some f)
    (hd : Draft fo s f t inode indirect i ids) {b : ℕ} {t' : BlockManager sz cnt logCnt}
    (ht : Takes fo t t' [b]) (hi : i ≠ invalidBlockId) (hlt : ids.length < maxBlocks sz) :
    Draft fo s f t' inode (some (setField (indirectView t i indirect)
      (sizeofBlockId * (ids.length - directNum sz)) sizeofBlockId b)) i (ids ++ [b]) := by
  have hge : directNum sz < ids.length := by
    by_contra hle
    exact hi (hd.indirect_iff.mpr (by omega))
  have hb64 : b < 2 ^ 64 := by
    have h1 := hl.cnt_lt
    have h2 := (ht.free b (List.mem_singleton.mpr rfl)).1
    omega
  have hlen : (indirectView t i indirect).length = sz := by
    cases indirect with
    | none => exact t.length_blocks i
    | some buf => exact (hd.buf buf rfl).1
  have hnot := not_mem_of_free h hf hd ht (List.mem_singleton.mpr rfl)
  have hnd := nodup_blocksOf.mp hd.nodup
  rw [mem_blocksOf] at hnot
  refine hd.join h hf ht (fun x => ?_) ?_ hd.shape hd.slot ?_ ?_ ?_
  · simp only [mem_blocksOf, List.mem_append, List.mem_singleton]
    grind
  · rw [nodup_blocksOf]
    refine ⟨?_, ?_, fun _ => ⟨(hnd.2.2 hi).1, ?_⟩⟩
    · simp only [List.mem_append, List.mem_singleton, not_or]
      exact ⟨hnd.1, fun heq => hnot (Or.inl heq.symm)⟩
    · exact nodup_snoc hnd.2.1 fun hmem => hnot (Or.inr (Or.inr hmem))
    · simp only [List.mem_append, List.mem_singleton, not_or]
      exact ⟨(hnd.2.2 hi).2, fun heq => hnot (Or.inr (Or.inl ⟨hi, heq.symm⟩))⟩
  · rw [List.length_append, List.length_singleton]
    exact ⟨fun heq => absurd heq hi, fun hle => by omega⟩
  · exact lists_append_indirect hd.lists (by omega) hlt hlen hb64
  · intro buf hbuf
    cases hbuf
    refine ⟨?_, hi⟩
    rw [length_setField, hlen]
    rw [hlen]
    unfold maxBlocks sizeofBlockId at hlt
    unfold sizeofBlockId
    omega

theorem Draft.addFirstIndirect (h : InvBut fo others s files) (hf : files id = some f)
    (hd : Draft fo s f t inode indirect i ids) {b i' : ℕ} {t' : BlockManager sz cnt logCnt}
    (ht : Takes fo t t' [i', b]) (hne : i' ≠ b) (hlen : ids.length = directNum sz) :
    Draft fo s f t' (setBlockDirect inode (directNum sz) i') (some (setField (t'.blocks i')
      (sizeofBlockId * (ids.length - directNum sz)) sizeofBlockId b)) i' (ids ++ [b]) := by
  have hi : i = invalidBlockId := hd.indirect_iff.mpr (by omega)
  have hfi := ht.free i' List.mem_cons_self
  have hfb := ht.free b (List.mem_cons_of_mem _ (List.mem_singleton.mpr rfl))
  have hcnt := hl.cnt_lt
  have hpos := dataStart_pos hl
  have hi' : i' ≠ invalidBlockId := by
    have := (hd.free h hf hfi.1 hfi.2).2.1
    unfold invalidBlockId
    omega
  have hnoti := not_mem_of_free h hf hd ht List.mem_cons_self
  have hnotb := not_mem_of_free h hf hd ht (List.mem_cons_of_mem _ (List.mem_singleton.mpr rfl))
  have hnd := nodup_blocksOf.mp hd.nodup
  rw [mem_blocksOf] at hnoti hnotb
  have hroom : ids.length < maxBlocks sz := by
    have h1 := hl.size.ge
    unfold maxBlocks sizeofBlockId
    omega
  have hslot : Lists sz (setBlockDirect inode (directNum sz) i') (t'.blocks i') ids :=
    (lists_setSlot hl.size hd.lists hd.shape (by omega)).congr fun hlt => absurd hlt (by omega)
  have hlists := lists_append_indirect hslot (by omega) hroom (t'.length_blocks i')
    (by omega : b < 2 ^ 64)
  refine hd.join h hf ht (fun x => ?_) ?_ (hd.shape.setBlockDirect hl.size (Nat.le_refl _)) ?_ ?_
    hlists ?_
  · simp only [mem_blocksOf, List.mem_append, List.mem_cons, hi]
    grind
  · rw [nodup_blocksOf]
    refine ⟨?_, ?_, fun _ => ⟨fun heq => hnoti (Or.inl heq.symm), ?_⟩⟩
    · simp only [List.mem_append, List.mem_singleton, not_or]
      exact ⟨hnd.1, fun heq => hnotb (Or.inl heq.symm)⟩
    · exact nodup_snoc hnd.2.1 fun hmem => hnotb (Or.inr (Or.inr hmem))
    · simp only [List.mem_append, List.mem_singleton, not_or]
      exact ⟨fun hmem => hnoti (Or.inr (Or.inr hmem)), hne⟩
  · rw [hd.shape.getBlock_setBlockDirect hl.size (Nat.le_refl _) (by omega : i' < 2 ^ 64), if_pos rfl]
  · rw [List.length_append, List.length_singleton]
    exact ⟨fun heq => absurd heq hi', fun hle => by omega⟩
  · intro buf hbuf
    cases hbuf
    refine ⟨?_, hi'⟩
    rw [length_setField, t'.length_blocks]
    rw [t'.length_blocks, hlen, Nat.sub_self]
    have := hl.size.ge
    unfold sizeofBlockId
    omega

omit hl in
theorem blocksNeeded_direct (m : ℕ) {len k : ℕ} (hlt : len < m) :
    blocksNeeded m len (len + (k + 1)) = 1 + blocksNeeded m (len + 1) (len + 1 + k) := by
  unfold blocksNeeded
  split <;> split <;> omega

omit hl in
theorem blocksNeeded_first (len k : ℕ) :
    blocksNeeded len len (len + (k + 1)) = 1 + 1 + blocksNeeded len (len + 1) (len + 1 + k) := by
  unfold blocksNeeded
  rw [if_pos (by omega), if_neg (by omega)]
  omega

omit hl in
theorem blocksNeeded_indirect {m len : ℕ} (k : ℕ) (hlt : m < len) :
    blocksNeeded m len (len + (k + 1)) = 1 + blocksNeeded m (len + 1) (len + 1 + k) := by
  unfold blocksNeeded
  rw [if_neg (by omega), if_neg (by omega)]
  omega

theorem Draft.loadIndirect (hd : Draft fo s f t inode indirect i ids) {t₁ : BlockManager sz cnt logCnt} {b : ℕ}
    (ht : Takes fo t t₁ [b]) (hi : i ≠ invalidBlockId) :
    fo.getOrInsertIndirect inode indirect t₁ = some (.ok (inode, indirectView t i indirect), t₁) := by
  cases indirect with
  | some buf => rfl
  | none =>
    have hdata := hd.data i (mem_blocksOf.mpr (Or.inr (Or.inl ⟨hi, rfl⟩)))
    rw [FileOperation.getOrInsertIndirect, hd.shape.slot_eq hl.size, hd.slot, if_neg hi,
      bind_ok (readBlock_apply t₁ (by omega)), pure_apply, ht.marks.frame i (Or.inr hdata.1)]
    rfl

theorem Draft.insertIndirect (hd : Draft fo s f t inode indirect invalidBlockId ids)
    {t₁ : BlockManager sz cnt logCnt} {b : ℕ} (hworks : t₁.maybeFailed = false) (ht : Takes fo t t₁ [b])
    (hspent : Spends fo t t₁ 1) : wp (fo.getOrInsertIndirect inode indirect) (fun r t₂ => match r with
      | .ok out => ∃ i', out = (setBlockDirect inode (directNum sz) i', t₂.blocks i') ∧
          Takes fo t t₂ [i', b] ∧ i' ≠ b ∧ Spends fo t t₂ (1 + 1)
      | .error e => e = .outOfResource ∧ Exhausts fo t t₂ (1 + 1)) t₁ := by
  obtain rfl : indirect = none := by
    cases indirect with
    | none => rfl
    | some buf => exact absurd rfl (hd.buf buf rfl).2
  rw [FileOperation.getOrInsertIndirect]
  rw [hd.shape.slot_eq hl.size, hd.slot, if_pos rfl]
  refine (allocate_counts hl hworks).bind (fun i' t₂ hi' => ?_) fun e t₂ he => ?_
  · obtain ⟨hspent', hi'⟩ := hi'
    obtain ⟨ht₂, hne⟩ := ht.cons hi'.1 hi'.2.1 hi'.2.2
    apply wp_bind_ok (readBlock_apply t₂ (by omega))
    exact (wp_pure _).mpr ⟨i', rfl, ht₂, fun heq => hne (List.mem_singleton.mpr heq), hspent.trans hspent'⟩
  · obtain ⟨herr, rfl, hfull⟩ := he
    exact ⟨herr, hspent.exhausts hfull⟩

/-- Growing a file takes one block after the other, and an indirect block where
the direct ones are used up. Without a free block it leaves marks only. -/
theorem grow_spec (h : InvBut fo others s files) (hf : files id = some f)
    (hd : Draft fo s f t inode indirect i ids) (k : ℕ) (hk : ids.length + k ≤ maxBlocks sz) :
    wp (fo.grow k ids.length inode indirect) (fun r t' => match r with
      | .ok out => (∃ i' ids', ids'.length = ids.length + k ∧ Draft fo s f t' out.1 out.2 i' ids') ∧
          Spends fo t t' (blocksNeeded (directNum sz) ids.length (ids.length + k))
      | .error e => e = .outOfResource ∧
          Exhausts fo t t' (blocksNeeded (directNum sz) ids.length (ids.length + k))) t := by
  induction k generalizing t inode indirect i ids with
  | zero =>
    refine (wp_pure _).mpr ⟨⟨i, ids, rfl, hd⟩, ?_⟩
    rw [blocksNeeded, Nat.add_zero, Nat.sub_self, if_neg (by omega)]
    exact Spends.refl t
  | succ k ih =>
    have hworks : t.maybeFailed = false := hd.marks.works.trans h.works
    -- the rest of the loop, with one more block in the list
    have hrest : ∀ {t' : BlockManager sz cnt logCnt} {inode' indirect' i' b c},
        Draft fo s f t' inode' indirect' i' (ids ++ [b]) → Spends fo t t' c →
        blocksNeeded (directNum sz) ids.length (ids.length + (k + 1)) =
          c + blocksNeeded (directNum sz) (ids.length + 1) (ids.length + 1 + k) →
        wp (fo.grow k (ids.length + 1) inode' indirect') (fun r t' => match r with
          | .ok out => (∃ i' ids', ids'.length = ids.length + (k + 1) ∧ Draft fo s f t' out.1 out.2 i' ids') ∧
              Spends fo t t' (blocksNeeded (directNum sz) ids.length (ids.length + (k + 1)))
          | .error e => e = .outOfResource ∧
              Exhausts fo t t' (blocksNeeded (directNum sz) ids.length (ids.length + (k + 1)))) t' := by
      intro t' inode' indirect' i' b c hd' hspent hneed
      have hlen : (ids ++ [b]).length = ids.length + 1 := by
        rw [List.length_append, List.length_singleton]
      have hih := ih hd' (by omega)
      rw [hlen] at hih
      refine hih.mono fun r t'' hr => ?_
      rw [hneed]
      cases r with
      | error => exact ⟨hr.1, hspent.exhausts hr.2⟩
      | ok out =>
        obtain ⟨⟨i'', ids'', hids, hd''⟩, hrest⟩ := hr
        exact ⟨⟨i'', ids'', by omega, hd''⟩, hspent.trans hrest⟩
    refine (allocate_counts hl hworks).bind (fun b t₁ hb => ?_) fun e t₁ he => ?_
    · obtain ⟨hspent, hb⟩ := hb
      have ht : Takes fo t t₁ [b] := takes_one hb.1 hb.2.1 hb.2.2
      rw [hd.shape.isDirect_eq hl.size]
      by_cases hdir : ids.length < directNum sz
      · rw [if_pos (by simpa using hdir)]
        exact hrest (hd.addDirect hl h hf ht hdir) hspent (blocksNeeded_direct _ hdir)
      · rw [if_neg (by simpa using hdir)]
        by_cases hi : i = invalidBlockId
        · subst hi
          have hlen : ids.length = directNum sz := by
            have := hd.indirect_iff.mp rfl
            omega
          have hneed := blocksNeeded_first ids.length k
          rw [hlen] at hneed
          refine (hd.insertIndirect hl (ht.marks.works.trans hworks) ht hspent).bind (fun out t₂ hout => ?_)
            fun e t₂ he => ⟨he.1, he.2.mono (by rw [hlen]; omega)⟩
          obtain ⟨i', rfl, ht₂, hne, hspent₂⟩ := hout
          simp only
          have hd₂ := hd.addFirstIndirect hl h hf ht₂ hne hlen
          have hdn : getDirectBlockNum (setBlockDirect inode (directNum sz) i') = directNum sz :=
            (hd.shape.setBlockDirect hl.size (Nat.le_refl _)).directNum_eq hl.size
          unfold setIndirectEntry
          rw [hdn]
          exact hrest hd₂ hspent₂ (by rw [hlen]; exact hneed)
        · have hlong : directNum sz < ids.length := by
            by_contra hle
            exact hi (hd.indirect_iff.mpr (Nat.le_of_not_lt hle))
          apply wp_bind_ok (hd.loadIndirect hl ht hi)
          simp only
          unfold setIndirectEntry
          rw [hd.shape.directNum_eq hl.size]
          exact hrest (hd.addIndirect hl h hf ht hi (by omega)) hspent (blocksNeeded_indirect k hlong)
    · obtain ⟨herr, rfl, hfull⟩ := he
      have hone : 1 ≤ blocksNeeded (directNum sz) ids.length (ids.length + (k + 1)) := by
        unfold blocksNeeded
        omega
      exact ⟨herr, hfull.mono hone⟩

end Grow

/-- A file whose blocks `lo .. hi - 1` have been freed, in the bitmap and in the
copies of inode and indirect block. -/
structure Shrinking (fo : FileOperation) (s : BlockManager sz cnt logCnt) (f : File)
    (t : BlockManager sz cnt logCnt) (inode : List UInt8) (indirect : Option (List UInt8))
    (lo hi : ℕ) : Prop where
  marks : fo.blockAllocator.Marks s t fun b =>
    !decide (b ∈ slice f.blocks lo (hi - lo)) && fo.blockAllocator.used s b
  shape : Shape sz inode
  slot : getBlock inode (directNum sz) = f.indirect
  entry : ∀ j b, f.blocks[j]? = some b → j < lo ∨ hi ≤ j →
    blockAt sz inode (indirectView t f.indirect indirect) j = b
  rest : ∀ j < directNum sz, f.blocks.length ≤ j ∨ (lo ≤ j ∧ j < hi) → getBlock inode j = invalidBlockId
  buf : ∀ buf ∈ indirect, buf.length = sz ∧ f.indirect ≠ invalidBlockId

section Shrink

variable (hl : Layout fo sz cnt) {s t : BlockManager sz cnt logCnt} {others : Set ℕ} {files : ℕ → Option File}
  {f : File} {id lo hi : ℕ} {inode : List UInt8} {indirect : Option (List UInt8)}

theorem shrinking_start (h : InvBut fo others s files) (hf : files id = some f) (hp : id ∉ others) (lo : ℕ) :
    Shrinking fo s f s (s.blocks f.inode) none lo lo where
  marks := ⟨rfl, fun _ _ => rfl, fun b _ => by simp [slice]⟩
  shape := (h.holds id f hf hp).shape
  slot := (h.holds id f hf hp).slot
  entry j b hb _ := (h.holds id f hf hp).lists.entry j b hb
  rest j hj hr := (h.holds id f hf hp).lists.rest j (by omega) hj
  buf _ hbuf := by cases hbuf

theorem slice_snoc {l : List ℕ} {i k b : ℕ} (hb : l[i + k]? = some b) :
    slice l i (k + 1) = slice l i k ++ [b] := by
  unfold slice
  rw [List.take_add_one, List.getElem?_drop, hb]
  rfl

theorem Shrinking.freed (h : InvBut fo others s files) (hf : files id = some f)
    (hd : Shrinking fo s f t inode indirect lo hi) (hlo : lo ≤ hi) {b : ℕ}
    (hb : f.blocks[hi]? = some b) : b < cnt ∧ fo.blockAllocator.used t b = true ∧
      ∀ t', fo.blockAllocator.Marks t t' (Function.update (fo.blockAllocator.used t) b false) →
        fo.blockAllocator.Marks s t' fun x =>
          !decide (x ∈ slice f.blocks lo (hi + 1 - lo)) && fo.blockAllocator.used s x := by
  have hmem : b ∈ f.owned := mem_blocksOf.mpr (Or.inr (Or.inr (List.mem_of_getElem? hb)))
  obtain ⟨-, hlt, hused⟩ := h.data id f hf b hmem
  have hnd := (nodup_blocksOf.mp (h.nodup id f hf)).2.1
  have hsnoc : slice f.blocks lo (hi + 1 - lo) = slice f.blocks lo (hi - lo) ++ [b] := by
    rw [show hi + 1 - lo = hi - lo + 1 by omega]
    apply slice_snoc
    rw [show lo + (hi - lo) = hi by omega, hb]
  have hnot : b ∉ slice f.blocks lo (hi - lo) := by
    intro hin
    obtain ⟨j, hj⟩ := List.mem_iff_getElem?.mp hin
    rw [getElem?_slice] at hj
    split at hj
    case isTrue hlt' =>
      have := (List.getElem?_inj (List.getElem?_eq_some_iff.mp hj).1 hnd).mp (hj.trans hb.symm)
      omega
    case isFalse => cases hj
  refine ⟨hlt, ?_, fun t' hm => ⟨hm.works.trans hd.marks.works, fun j hj => ?_, fun x hx => ?_⟩⟩
  · rw [hd.marks.bits b hlt, hused, decide_eq_false hnot]
    rfl
  · rw [hm.frame j hj, hd.marks.frame j hj]
  · rw [hm.bits x hx, hsnoc]
    by_cases hxb : x = b
    · rw [hxb, Function.update_self]
      simp
    · rw [Function.update_of_ne hxb, hd.marks.bits x hx]
      simp [hxb]

include hl

theorem indirectView_congr (h : InvBut fo others s files) (hf : files id = some f) {t t' : BlockManager sz cnt logCnt}
    {u : ℕ → Bool} (hm : fo.blockAllocator.Marks t t' u) (indirect : Option (List UInt8)) :
    indirectView t' f.indirect indirect = indirectView t f.indirect indirect := by
  unfold indirectView
  rw [hm.frame]
  by_cases hi : f.indirect = invalidBlockId
  · have h1 := hl.bitmap
    unfold invalidBlockId at hi
    omega
  · exact Or.inr (h.data id f hf _ (mem_blocksOf.mpr (Or.inr (Or.inl ⟨hi, rfl⟩)))).1

theorem shrink_spec (h : InvBut fo others s files) (hf : files id = some f) (hp : id ∉ others)
    (hd : Shrinking fo s f t inode indirect lo hi) (hlo : lo ≤ hi) (k : ℕ)
    (hk : hi + k = f.blocks.length) :
    ∃ out t', fo.shrink k hi inode indirect t = some (.ok out, t') ∧
      Shrinking fo s f t' out.1 out.2 lo f.blocks.length := by
  induction k generalizing t inode indirect hi with
  | zero =>
    rw [Nat.add_zero] at hk
    exact ⟨(inode, indirect), t, rfl, hk ▸ hd⟩
  | succ k ih =>
    have hhold := h.holds id f hf hp
    have hb : f.blocks[hi]? = some f.blocks[hi] := List.getElem?_eq_getElem (by omega)
    generalize f.blocks[hi] = b at hb
    obtain ⟨hlt, hused, hfreed⟩ := hd.freed h hf hlo hb
    obtain ⟨t₁, ht₁, hm⟩ := deallocate_spec hl.blocks (hd.marks.works.trans h.works) hlt hused
    have hview := indirectView_congr hl h hf hm indirect
    have hentry := hd.entry hi b hb (Or.inr (Nat.le_refl _))
    unfold blockAt at hentry
    rw [FileOperation.shrink, hd.shape.isDirect_eq hl.size]
    by_cases hdir : hi < directNum sz
    · rw [if_pos hdir] at hentry
      rw [if_pos (by simpa using hdir), hentry, bind_ok ht₁]
      have hget : ∀ j, getBlock (setBlockDirect inode hi invalidBlockId) j =
          if j = hi then invalidBlockId else getBlock inode j :=
        fun j => hd.shape.getBlock_setBlockDirect hl.size (by omega) (by decide)
      refine ih ⟨hfreed t₁ hm, hd.shape.setBlockDirect hl.size (by omega), ?_, fun j x hx hj => ?_,
        fun j hj hr => ?_, hd.buf⟩ (by omega) (by omega)
      · rw [hget, if_neg (by omega), hd.slot]
      · rw [← hd.entry j x hx (by omega), hview]
        unfold blockAt
        rw [hget, if_neg (by omega : ¬ j = hi)]
      · rw [hget]
        split
        case isTrue => rfl
        case isFalse hne => exact hd.rest j hj (by omega)
    · have hne : f.indirect ≠ invalidBlockId := by
        rw [Ne, hhold.indirect]
        omega
      have hdata := h.data id f hf _ (mem_blocksOf.mpr (Or.inr (Or.inl ⟨hne, rfl⟩)))
      rw [if_neg hdir] at hentry
      have hlen : (indirectView t f.indirect indirect).length = sz := by
        cases indirect with
        | none => exact t.length_blocks _
        | some buf => exact (hd.buf buf rfl).1
      have hoff : sizeofBlockId * (hi - directNum sz) + sizeofBlockId ≤
          (indirectView t f.indirect indirect).length := by
        have h2 := hhold.le
        rw [hlen]
        unfold maxBlocks sizeofBlockId at h2
        unfold sizeofBlockId
        omega
      rw [if_neg (by simpa using hdir),
        bind_ok (loadIndirect_apply hl.size hd.shape hd.slot hne hdata.2.1)]
      have hie : indirectEntry inode (indirectView t f.indirect indirect) hi = b := by
        unfold indirectEntry
        rw [hd.shape.directNum_eq hl.size, hentry]
      rw [show indirect.getD (t.blocks f.indirect) = indirectView t f.indirect indirect from rfl, hie,
        bind_ok ht₁]
      unfold setIndirectEntry
      rw [hd.shape.directNum_eq hl.size]
      refine ih ⟨hfreed t₁ hm, hd.shape, hd.slot, fun j x hx hj => ?_, fun j hj hr => ?_,
        fun buf hbuf => ?_⟩ (by omega) (by omega)
      · rw [← hd.entry j x hx (by omega)]
        unfold blockAt
        split
        case isTrue => rfl
        case isFalse hj' =>
          apply getField_setField_of_disjoint hoff
          unfold sizeofBlockId
          omega
      · exact hd.rest j hj (by omega)
      · cases hbuf
        exact ⟨(length_setField hoff).trans hlen, hne⟩

omit hl in
theorem marks_kept (h : InvBut fo others s files) (hf : files id = some f) {kept freed : List ℕ}
    (hpart : ∀ b, b ∈ f.owned ↔ b ∈ kept ∨ b ∈ freed) (hdisj : ∀ b ∈ kept, b ∉ freed)
    (hm : fo.blockAllocator.Marks s t fun b => !decide (b ∈ freed) && fo.blockAllocator.used s b) :
    fo.blockAllocator.Marks s t fun b => if b ∈ kept then true
      else if b ∈ f.owned then false else fo.blockAllocator.used s b := by
  refine ⟨hm.works, hm.frame, fun b hb => ?_⟩
  rw [hm.bits b hb]
  by_cases hkept : b ∈ kept
  · have hused := (h.data id f hf b ((hpart b).mpr (Or.inl hkept))).2.2
    rw [if_pos hkept, decide_eq_false (hdisj b hkept), hused]
    rfl
  · rw [if_neg hkept]
    by_cases hfreed : b ∈ freed
    · rw [if_pos ((hpart b).mpr (Or.inr hfreed)), decide_eq_true hfreed]
      rfl
    · rw [if_neg (fun hown => ((hpart b).mp hown).elim hkept hfreed), decide_eq_false hfreed]
      rfl

omit hl in
theorem mem_take_or_drop {l : List ℕ} (n b : ℕ) : b ∈ l ↔ b ∈ l.take n ∨ b ∈ l.drop n := by
  rw [← List.mem_append, List.take_append_drop]

omit hl in
theorem not_mem_drop {l : List ℕ} (h : l.Nodup) {n b : ℕ} (hb : b ∈ l.take n) : b ∉ l.drop n :=
  fun hd => List.disjoint_take_drop h (Nat.le_refl n) hb hd

omit hl in
theorem Shrinking.draft (h : InvBut fo others s files) (hf : files id = some f)
    (hd : Shrinking fo s f t inode indirect lo f.blocks.length) (hlo : lo ≤ f.blocks.length)
    (hi : f.indirect = invalidBlockId ↔ lo ≤ directNum sz) :
    Draft fo s f t inode indirect f.indirect (f.blocks.take lo) := by
  have hnd := nodup_blocksOf.mp (h.nodup id f hf)
  have hslice : slice f.blocks lo (f.blocks.length - lo) = f.blocks.drop lo := by
    unfold slice
    rw [List.take_of_length_le]
    rw [List.length_drop]
  have hsub : ∀ b ∈ blocksOf f.inode f.indirect (f.blocks.take lo), b ∈ f.owned := by
    intro b hb
    rw [mem_blocksOf] at hb
    rw [File.owned, mem_blocksOf, mem_take_or_drop lo b]
    grind
  have hmarks := hd.marks
  rw [hslice] at hmarks
  constructor
  case marks =>
    refine marks_kept h hf (fun b => ?_) (fun b hb hdrop => ?_) hmarks
    · rw [File.owned, mem_blocksOf, mem_blocksOf, mem_take_or_drop lo b]
      grind
    · have hin := List.mem_of_mem_drop hdrop
      obtain rfl | ⟨hne, rfl⟩ | hb := mem_blocksOf.mp hb
      · exact hnd.1 hin
      · exact (hnd.2.2 hne).2 hin
      · exact not_mem_drop hnd.2.1 hb hdrop
  case shape => exact hd.shape
  case slot => exact hd.slot
  case indirect_iff =>
    rw [List.length_take, Nat.min_eq_left hlo]
    exact hi
  case lists =>
    refine ⟨fun j b hb => ?_, fun j hj hlt => hd.rest j hlt ?_⟩
    · rw [List.getElem?_take] at hb
      split at hb
      case isTrue hj => exact hd.entry j b hb (Or.inl hj)
      case isFalse => cases hb
    · rw [List.length_take, Nat.min_eq_left hlo] at hj
      omega
  case buf => exact hd.buf
  case nodup =>
    rw [nodup_blocksOf]
    exact ⟨fun hin => hnd.1 (List.mem_of_mem_take hin), hnd.2.1.sublist (List.take_sublist _ _),
      fun hne => ⟨(hnd.2.2 hne).1, fun hin => (hnd.2.2 hne).2 (List.mem_of_mem_take hin)⟩⟩
  case data => exact fun b hb => ⟨(h.data id f hf b (hsub b hb)).1, (h.data id f hf b (hsub b hb)).2.1⟩
  case fresh => exact fun b hb => Or.inl (hsub b hb)

theorem Shrinking.draftDirect (h : InvBut fo others s files) (hf : files id = some f) (hp : id ∉ others)
    (hd : Shrinking fo s f t inode indirect lo f.blocks.length) (hlo : lo ≤ directNum sz)
    (hi : directNum sz < f.blocks.length) :
    f.indirect ≠ invalidBlockId ∧ ∃ t', fo.blockAllocator.deallocate f.indirect t = some (.ok (), t') ∧
      Draft fo s f t' (setBlockDirect inode (directNum sz) invalidBlockId) none invalidBlockId
        (f.blocks.take lo) := by
  have hnd := nodup_blocksOf.mp (h.nodup id f hf)
  have hne : f.indirect ≠ invalidBlockId := by
    rw [Ne, (h.holds id f hf hp).indirect]
    omega
  have hslice : slice f.blocks lo (f.blocks.length - lo) = f.blocks.drop lo := by
    unfold slice
    rw [List.take_of_length_le]
    rw [List.length_drop]
  have hmarks := hd.marks
  rw [hslice] at hmarks
  obtain ⟨-, hlt, hused⟩ := h.data id f hf _ (mem_blocksOf.mpr (Or.inr (Or.inl ⟨hne, rfl⟩)))
  have hnot : f.indirect ∉ f.blocks.drop lo := fun hin => (hnd.2.2 hne).2 (List.mem_of_mem_drop hin)
  have husedt : fo.blockAllocator.used t f.indirect = true := by
    rw [hmarks.bits _ hlt, hused, decide_eq_false hnot]
    rfl
  obtain ⟨t', ht', hm⟩ := deallocate_spec hl.blocks (hd.marks.works.trans h.works) hlt husedt
  have hmarks' : fo.blockAllocator.Marks s t' fun b =>
      !decide (b ∈ f.indirect :: f.blocks.drop lo) && fo.blockAllocator.used s b := by
    refine ⟨hm.works.trans hmarks.works, fun j hj => (hm.frame j hj).trans (hmarks.frame j hj),
      fun b hb => ?_⟩
    rw [hm.bits b hb]
    by_cases hbi : b = f.indirect
    · rw [hbi, Function.update_self]
      simp
    · rw [Function.update_of_ne hbi, hmarks.bits b hb]
      simp [hbi]
  have hget : ∀ j, getBlock (setBlockDirect inode (directNum sz) invalidBlockId) j =
      if j = directNum sz then invalidBlockId else getBlock inode j :=
    fun j => hd.shape.getBlock_setBlockDirect hl.size (Nat.le_refl _) (by decide)
  have hlen : (f.blocks.take lo).length = lo := by
    rw [List.length_take]
    omega
  have hsub : ∀ b ∈ blocksOf f.inode invalidBlockId (f.blocks.take lo), b ∈ f.owned := by
    intro b hb
    rw [mem_blocksOf] at hb
    rw [File.owned, mem_blocksOf, mem_take_or_drop lo b]
    grind
  refine ⟨hne, t', ht', ?_⟩
  constructor
  case marks =>
    refine marks_kept h hf (fun b => ?_) (fun b hb hfreed => ?_) hmarks'
    · rw [File.owned, mem_blocksOf, mem_blocksOf, mem_take_or_drop lo b, List.mem_cons]
      grind
    · obtain rfl | ⟨hz, -⟩ | hb := mem_blocksOf.mp hb
      · obtain heq | hin := List.mem_cons.mp hfreed
        · exact (hnd.2.2 hne).1 heq
        · exact hnd.1 (List.mem_of_mem_drop hin)
      · exact absurd rfl hz
      · obtain rfl | hin := List.mem_cons.mp hfreed
        · exact (hnd.2.2 hne).2 (List.mem_of_mem_take hb)
        · exact not_mem_drop hnd.2.1 hb hin
  case shape => exact hd.shape.setBlockDirect hl.size (Nat.le_refl _)
  case slot => rw [hget, if_pos rfl]
  case indirect_iff => exact ⟨fun _ => by omega, fun _ => rfl⟩
  case lists =>
    refine ⟨fun j b hb => ?_, fun j hj hlt' => ?_⟩
    · have hj := (List.getElem?_eq_some_iff.mp hb).1
      rw [List.getElem?_take] at hb
      have he := hd.entry j b (by rwa [if_pos (by omega)] at hb) (Or.inl (by omega))
      unfold blockAt at he ⊢
      rw [if_pos (by omega)] at he
      rw [if_pos (by omega), hget, if_neg (by omega), he]
    · rw [hget, if_neg (by omega)]
      exact hd.rest j hlt' (by omega)
  case buf => exact fun _ hbuf => by cases hbuf
  case nodup =>
    rw [nodup_blocksOf]
    exact ⟨fun hin => hnd.1 (List.mem_of_mem_take hin), hnd.2.1.sublist (List.take_sublist _ _),
      fun hz => absurd rfl hz⟩
  case data => exact fun b hb => ⟨(h.data id f hf b (hsub b hb)).1, (h.data id f hf b (hsub b hb)).2.1⟩
  case fresh => exact fun b hb => Or.inl (hsub b hb)

theorem fitBlocks_shrink (h : InvBut fo others s files) (hf : files id = some f) (hp : id ∉ others) (new : ℕ)
    (hnew : new ≤ f.blocks.length) :
    ∃ out t, fo.fitBlocks (s.blocks f.inode) f.blocks.length new s = some (.ok out, t) ∧
      ∃ i ids, ids.length = new ∧ Draft fo s f t out.1 out.2 i ids := by
  have hhold := h.holds id f hf hp
  obtain ⟨⟨inode, indirect⟩, t, ht, hd⟩ := shrink_spec hl h hf hp (shrinking_start h hf hp new)
    (Nat.le_refl _) (f.blocks.length - new) (by omega)
  have hlen : (f.blocks.take new).length = new := by
    rw [List.length_take]
    omega
  unfold FileOperation.fitBlocks
  rw [if_neg (by omega), bind_ok ht]
  simp only at hd ⊢
  rw [hd.shape.directNum_eq hl.size, hd.shape.slot_eq hl.size, hd.slot]
  split
  case isTrue hfree =>
    obtain ⟨hne, t', ht', hd'⟩ := hd.draftDirect hl h hf hp hfree.2 hfree.1
    rw [require_of hne, bind_ok (pure_apply ()), bind_ok ht', pure_apply]
    exact ⟨_, _, rfl, _, _, hlen, hd'⟩
  case isFalse hkeep =>
    rw [pure_apply]
    refine ⟨_, _, rfl, _, _, hlen, hd.draft h hf (by omega) ?_⟩
    rw [hhold.indirect]
    omega

/-- Whatever the new number of blocks, the file gets a draft with that many, or
else the device has too few free blocks, and the bitmap has gained marks only. -/
theorem fitBlocks_spec (h : InvBut fo others s files) (hf : files id = some f) (hp : id ∉ others) (new : ℕ)
    (hnew : new ≤ maxBlocks sz) :
    wp (fo.fitBlocks (s.blocks f.inode) f.blocks.length new) (fun r t => match r with
      | .ok out => (∃ i ids, ids.length = new ∧ Draft fo s f t out.1 out.2 i ids) ∧
          blocksNeeded (directNum sz) f.blocks.length new ≤ (freeBlocks fo s).card
      | .error e => e = .outOfResource ∧
          Exhausts fo s t (blocksNeeded (directNum sz) f.blocks.length new)) s := by
  by_cases hlt : f.blocks.length < new
  · unfold FileOperation.fitBlocks
    rw [if_pos hlt]
    have hsum : f.blocks.length + (new - f.blocks.length) = new := by omega
    have hgrow := grow_spec hl h hf (draft_start h hf hp) (new - f.blocks.length) (by omega)
    rw [hsum] at hgrow
    refine hgrow.mono fun r t hr => ?_
    cases r with
    | error => exact hr
    | ok out => exact ⟨hr.1, hr.2.card ▸ Nat.le_add_left _ _⟩
  · obtain ⟨out, t, hrun, hd⟩ := fitBlocks_shrink hl h hf hp new (by omega)
    refine ⟨_, _, hrun, hd, ?_⟩
    rw [blocksNeeded, if_neg (by omega)]
    omega

end Shrink

end Chfs.Fs.Growth
