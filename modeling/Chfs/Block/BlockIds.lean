import Chfs.Block.Usize
import Chfs.Lib.Server
import Mathlib.Data.Finset.Max
import Mathlib.Data.Finset.Range

namespace Chfs.Block.BlockIds

open Lib.Effect Lib.Server Manager Allocator

inductive Request
  | allocate
  | deallocate (blockId : ℕ)
  | freeBlockCnt
  | reopen
  deriving DecidableEq, Repr

inductive Answer
  | block (blockId : ℕ)
  | count (k : ℕ)
  | done
  | refused (e : ErrorType)
  deriving DecidableEq, Repr

def serveSet (cnt : ℕ) (ids : Finset ℕ) : Request → Answer × Finset ℕ
  | .allocate =>
    if h : (Finset.range cnt \ ids).Nonempty then
      (.block ((Finset.range cnt \ ids).min' h), insert ((Finset.range cnt \ ids).min' h) ids)
    else (.refused .outOfResource, ids)
  | .deallocate b => if b ∈ ids then (.done, ids.erase b) else (.refused .invalidArg, ids)
  | .freeBlockCnt => (.count (cnt - ids.card), ids)
  | .reopen => (.done, ids)

variable {sz cnt logCnt : ℕ}

def report {α : Type} (ok : α → Answer) : Except ErrorType α → Answer
  | .ok r => ok r
  | .error e => .refused e

def serve (st : BlockAllocator × BlockManager sz cnt logCnt) :
    Request → Option (Answer × BlockAllocator × BlockManager sz cnt logCnt)
  | .allocate => (Usize.allocate st.1 st.2).map fun out => (report .block out.1, st.1, out.2)
  | .deallocate b =>
    (Usize.deallocate st.1 b st.2).map fun out => (report (fun _ => .done) out.1, st.1, out.2)
  | .freeBlockCnt => (Usize.freeBlockCnt st.1 st.2).map fun out => (report .count out.1, st.1, out.2)
  | .reopen => (Usize.create st.1.bitmapBlockId false st.2).map fun out =>
      match out.1 with
      | .ok a => (.done, a, out.2)
      | .error e => (.refused e, st.1, out.2)

/-- The bitmap of an allocator holds a set of ids. -/
structure Holds (bitmapBlockId : ℕ) (st : BlockAllocator × BlockManager sz cnt logCnt)
    (ids : Finset ℕ) : Prop where
  fields : st.1 = BlockAllocator.fields sz cnt bitmapBlockId
  fits : st.1.Fits sz cnt
  works : st.2.maybeFailed = false
  used : ∀ b < cnt, st.1.used st.2 b = decide (b ∈ ids)
  inside : ∀ b ∈ ids, b < cnt

variable {bitmapBlockId : ℕ} {a : BlockAllocator} {s t : BlockManager sz cnt logCnt} {ids : Finset ℕ}

theorem Holds.marks {u : ℕ → Bool} {ids' : Finset ℕ} (h : Holds bitmapBlockId (a, s) ids)
    (hm : a.Marks s t u) (hu : ∀ b < cnt, u b = decide (b ∈ ids')) (hin : ∀ b ∈ ids', b < cnt) :
    Holds bitmapBlockId (a, t) ids' where
  fields := h.fields
  fits := h.fits
  works := hm.works.trans h.works
  used b hb := (hm.bits b hb).trans (hu b hb)
  inside := hin

theorem Holds.mem_iff (h : Holds bitmapBlockId (a, s) ids) {b : ℕ} (hb : b < cnt) :
    b ∈ ids ↔ a.used s b = true := by
  rw [h.used b hb, decide_eq_true_iff]

section Step

variable (hg : Usize.Geometry sz cnt) (h : Holds bitmapBlockId (a, s) ids)
include hg h

theorem allocate_holds : ∃ t, serve (a, s) .allocate = some ((serveSet cnt ids .allocate).1, a, t) ∧
    Holds bitmapBlockId (a, t) (serveSet cnt ids .allocate).2 := by
  obtain ⟨r, t, hrun, hspec⟩ := allocate_spec h.fits h.works
  have hfirst := (allocate_first h.fits h.works).of_eq hrun
  have hserve : serve (a, s) .allocate = some (report .block r, a, t) := by
    rw [serve, Usize.allocate_eq hg.narrow h.fits, hrun]
    rfl
  cases r with
  | error e =>
    obtain ⟨rfl, rfl⟩ := hspec
    have hfull : ¬ (Finset.range cnt \ ids).Nonempty := by
      rintro ⟨b, hb⟩
      obtain ⟨hlt, hnot⟩ := Finset.mem_sdiff.mp hb
      rw [Finset.mem_range] at hlt
      exact hnot ((h.mem_iff hlt).mpr (hfirst b hlt))
    rw [serveSet, dif_neg hfull]
    exact ⟨t, hserve, h⟩
  | ok b =>
    obtain ⟨hlt, hfree, hm⟩ := hspec
    have hnot : b ∉ ids := by
      rw [h.mem_iff hlt, hfree]
      decide
    have hmem : b ∈ Finset.range cnt \ ids := Finset.mem_sdiff.mpr ⟨Finset.mem_range.mpr hlt, hnot⟩
    have hmin : (Finset.range cnt \ ids).min' ⟨b, hmem⟩ = b := by
      apply le_antisymm (Finset.min'_le _ b hmem)
      apply Finset.le_min'
      intro b' hb'
      obtain ⟨hlt', hnot'⟩ := Finset.mem_sdiff.mp hb'
      by_contra hlow
      exact hnot' ((h.mem_iff (Finset.mem_range.mp hlt')).mpr (hfirst b' (by omega)))
    rw [serveSet, dif_pos ⟨b, hmem⟩, hmin]
    refine ⟨t, hserve, h.marks hm (fun b' hb' => ?_) fun b' hb' => ?_⟩
    · by_cases heq : b' = b
      · rw [heq, Function.update_self]
        simp
      · rw [Function.update_of_ne heq, h.used b' hb']
        simp [heq]
    · obtain rfl | hb' := Finset.mem_insert.mp hb'
      · exact hlt
      · exact h.inside b' hb'

theorem deallocate_holds (b : ℕ) :
    ∃ t, serve (a, s) (.deallocate b) = some ((serveSet cnt ids (.deallocate b)).1, a, t) ∧
      Holds bitmapBlockId (a, t) (serveSet cnt ids (.deallocate b)).2 := by
  rw [serveSet, serve, Usize.deallocate_eq hg.narrow]
  by_cases hmem : b ∈ ids
  · have hlt := h.inside b hmem
    obtain ⟨t, hrun, hm⟩ := deallocate_spec h.fits h.works hlt ((h.mem_iff hlt).mp hmem)
    rw [if_pos hmem, hrun]
    refine ⟨t, rfl, h.marks hm (fun b' hb' => ?_) fun b' hb' => h.inside b' (Finset.mem_of_mem_erase hb')⟩
    by_cases heq : b' = b
    · rw [heq, Function.update_self]
      simp
    · rw [Function.update_of_ne heq, h.used b' hb']
      simp [heq]
  · rw [if_neg hmem, deallocate_refused h.fits]
    · exact ⟨s, rfl, h⟩
    · intro hlt
      rw [h.used b hlt]
      exact decide_eq_false hmem

theorem freeBlockCnt_holds :
    ∃ t, serve (a, s) .freeBlockCnt = some ((serveSet cnt ids .freeBlockCnt).1, a, t) ∧
      Holds bitmapBlockId (a, t) (serveSet cnt ids .freeBlockCnt).2 := by
  refine ⟨s, ?_, h⟩
  have hcount : ((List.range cnt).countP fun b => !a.used s b) = cnt - ids.card := by
    have hsub : ids ⊆ Finset.range cnt := fun b hb => Finset.mem_range.mpr (h.inside b hb)
    have hfilter : (Finset.range cnt).filter (fun b => (!a.used s b) = true) = Finset.range cnt \ ids := by
      ext b
      rw [Finset.mem_filter, Finset.mem_sdiff]
      refine and_congr_right fun hb => ?_
      rw [h.used b (Finset.mem_range.mp hb)]
      simp
    calc ((List.range cnt).countP fun b => !a.used s b)
        = ((Finset.range cnt).filter fun b => (!a.used s b) = true).card := by
          rw [List.countP_eq_length_filter, Finset.card_def, Finset.filter_val, Finset.range_val,
            Multiset.range, Multiset.filter_coe, Multiset.coe_card]
          simp
      _ = (Finset.range cnt \ ids).card := by rw [hfilter]
      _ = cnt - ids.card := by rw [Finset.card_sdiff_of_subset hsub, Finset.card_range]
  rw [serve, Usize.freeBlockCnt_eq hg.narrow h.fits, freeBlockCnt_spec h.fits, hcount]
  rfl

theorem reopen_holds : ∃ t, serve (a, s) .reopen = some ((serveSet cnt ids .reopen).1, a, t) ∧
    Holds bitmapBlockId (a, t) (serveSet cnt ids .reopen).2 := by
  refine ⟨s, ?_, h⟩
  have hfields : BlockAllocator.fields sz cnt a.bitmapBlockId = a := by
    rw [show a = _ from h.fields]
    rfl
  have hpos : 0 < cnt := by
    have h1 := h.fits.room
    have h2 := h.fits.cnt_pos
    simp only at h1 h2
    omega
  rw [serve, Usize.create_eq hg.narrow hpos, BlockAllocator.create, hfields, require_of h.fits.cnt_pos,
    bind_ok (pure_apply ()), require_of h.fits.room, bind_ok (pure_apply ())]
  rfl

theorem serve_holds (q : Request) : ∃ t, serve (a, s) q = some ((serveSet cnt ids q).1, a, t) ∧
    Holds bitmapBlockId (a, t) (serveSet cnt ids q).2 := by
  cases q with
  | allocate => exact allocate_holds hg h
  | deallocate b => exact deallocate_holds hg h b
  | freeBlockCnt => exact freeBlockCnt_holds hg h
  | reopen => exact reopen_holds hg h

end Step

theorem create_inv {willInitialize : Bool} (h : Usize.create bitmapBlockId willInitialize s = some (.ok a, t)) :
    Usize.totalBits sz ≠ 0 ∧ 0 < (Usize.fields sz cnt bitmapBlockId).bitmapBlockCnt ∧
      (Usize.fields sz cnt bitmapBlockId).bitmapBlockCnt + bitmapBlockId ≤ cnt := by
  unfold Usize.create require at h
  simp only at h
  refine ⟨?_, ?_, ?_⟩
  · intro hno
    rw [if_neg (not_not.mpr hno)] at h
    cases h
  · by_contra hno
    split_ifs at h <;> cases h
  · by_contra hno
    rw [if_neg (show ¬ (Usize.fields sz cnt bitmapBlockId).bitmapBlockCnt +
      (Usize.fields sz cnt bitmapBlockId).bitmapBlockId ≤ cnt from hno)] at h
    split_ifs at h <;> cases h

theorem create_holds (hwords : sz % 8 = 0) (hsmall : cnt * sz < 2 ^ 32) (hs : s.maybeFailed = false)
    (h : Usize.create bitmapBlockId true s = some (.ok a, t)) :
    Usize.Geometry sz cnt ∧
      Holds bitmapBlockId (a, t) (Finset.range (bitmapBlockId + a.bitmapBlockCnt)) := by
  obtain ⟨hbits, hpos, hroom⟩ := create_inv h
  have hg : Usize.Geometry sz cnt := ⟨hwords, hsmall, hbits⟩
  have hcnt : 0 < cnt := by omega
  rw [Usize.fields_eq hg.narrow hcnt] at hpos hroom
  obtain ⟨u, hu, hm⟩ := create_spec hs hg.narrow.sz_pos hpos hroom
  rw [Usize.create_eq hg.narrow hcnt, hu] at h
  cases h
  refine ⟨hg, rfl, fields_fits hg.narrow.sz_pos hpos hroom, hm.works.trans hs, fun b hb => ?_, fun b hb => ?_⟩
  · rw [hm.bits b hb]
    apply decide_eq_decide.mpr
    rw [Finset.mem_range, Nat.add_comm]
  · have := Finset.mem_range.mp hb
    omega

/-- An allocator answers every list of requests as the set of the blocks in use
does, which first holds the blocks up to the end of the bitmap. -/
theorem answers_eq_serveSet (hwords : sz % 8 = 0) (hsmall : cnt * sz < 2 ^ 32)
    (hs : s.maybeFailed = false) (hopen : Usize.create bitmapBlockId true s = some (.ok a, t))
    (qs : List Request) :
    ∃ u, answers serve (a, t) qs = some
      ((specAnswers (serveSet cnt) (Finset.range (bitmapBlockId + a.bitmapBlockCnt)) qs).1, a, u) := by
  obtain ⟨hg, h⟩ := create_holds hwords hsmall hs hopen
  have hstep : ∀ (st : BlockAllocator × BlockManager sz cnt logCnt) (ids : Finset ℕ) (q : Request),
      st.1 = a ∧ Holds bitmapBlockId st ids → True → ∃ st', serve st q = some ((serveSet cnt ids q).1, st') ∧
        st'.1 = a ∧ Holds bitmapBlockId st' (serveSet cnt ids q).2 := by
    intro st ids q hst _
    obtain ⟨t, ht, hh⟩ := serve_holds hg hst.2 q
    exact ⟨(st.1, t), ht, hst.1, hh⟩
  obtain ⟨⟨a', u⟩, hans, hR⟩ := answers_of_related hstep (fun q (_ : q ∈ qs) => trivial) ⟨rfl, h⟩
  obtain ⟨rfl, -⟩ := hR
  exact ⟨u, hans⟩

/-- A bitmap over three blocks, the last of them with two bits. -/
theorem answers_eq_serveSet_three : ∃ a t u,
    Usize.create 1 true (BlockManager.zeroed 8 130 0) = some (.ok a, t) ∧
    answers serve (a, t) [.allocate, .deallocate 3, .reopen, .allocate, .deallocate 200, .freeBlockCnt] =
      some ([.block 4, .done, .done, .block 3, .refused .invalidArg, .count 125], a, u) := by
  have hg : Usize.Geometry 8 130 := ⟨rfl, by decide, by decide⟩
  obtain ⟨t, ht, -⟩ : ∃ t, BlockAllocator.create 1 true (BlockManager.zeroed 8 130 0) =
      some (.ok (BlockAllocator.fields 8 130 1), t) ∧ _ :=
    create_spec rfl (by decide) (by decide) (by decide)
  rw [← Usize.create_eq hg.narrow (by decide)] at ht
  obtain ⟨u, hu⟩ := answers_eq_serveSet hg.words hg.small rfl ht
    [.allocate, .deallocate 3, .reopen, .allocate, .deallocate 200, .freeBlockCnt]
  refine ⟨_, t, u, ht, hu.trans ?_⟩
  rw [show (specAnswers (serveSet 130) (Finset.range (1 + (BlockAllocator.fields 8 130 1).bitmapBlockCnt))
    [.allocate, .deallocate 3, .reopen, .allocate, .deallocate 200, .freeBlockCnt]).1 =
      [.block 4, .done, .done, .block 3, .refused .invalidArg, .count 125] by decide +kernel]

end Chfs.Block.BlockIds
