import Chfs.Block.BlockIds
import Chfs.Lib.Run

namespace Chfs.Block.FailedWrites

open Lib.Effect Lib.Run Manager Allocator

variable {sz cnt logCnt : ℕ}

/-- What a call returns. Other users of the device do not write to the bitmap. -/
inductive Event
  | allocated (blockId : ℕ)
  | deallocated (blockId : ℕ)
  | refused
  | elsewhere
  deriving DecidableEq

def Happens (a : BlockAllocator) (s : BlockManager sz cnt logCnt) (e : Event) (t : BlockManager sz cnt logCnt) :
    Prop :=
  match e with
  | .allocated b => Usize.allocate a s = some (.ok b, t)
  | .deallocated b => Usize.deallocate a b s = some (.ok (), t)
  | .refused => ∃ err, Usize.allocate a s = some (.error err, t) ∨
      ∃ b, Usize.deallocate a b s = some (.error err, t)
  | .elsewhere => ∀ i, a.bitmapBlockId ≤ i → i < a.bitmapBlockId + a.bitmapBlockCnt → t.blocks i = s.blocks i

/-- The bit of the block is on the device as the result says. -/
def Shown (a : BlockAllocator) (t : BlockManager sz cnt logCnt) : Event → Prop
  | .allocated b => a.used t b = true
  | .deallocated b => a.used t b = false
  | _ => True

/-- The call is not the one whose write is made to fail. -/
def Written (s : BlockManager sz cnt logCnt) : Event → Prop
  | .allocated _ | .deallocated _ => ¬ (s.maybeFailed = true ∧ 3 ≤ s.writeFailCnt)
  | _ => True

/-- A block is handed out again only after it has been given back. -/
def Once (es : List Event) : Prop :=
  ∀ i j b : ℕ, i < j → es[i]? = some (Event.allocated b) → es[j]? = some (Event.allocated b) →
    ∃ k : ℕ, i < k ∧ k < j ∧ es[k]? = some (Event.deallocated b)

variable {bitmapBlockId : ℕ} {a : BlockAllocator} {s₀ s₁ s t : BlockManager sz cnt logCnt} {e : Event}
  {es : List Event}

/-- Blocks that have been handed out and not given back. -/
def Held (es : List Event) (b : ℕ) : Prop :=
  ∃ i : ℕ, es[i]? = some (Event.allocated b) ∧ ∀ k : ℕ, i < k → es[k]? ≠ some (Event.deallocated b)

theorem getElem?_snoc {i : ℕ} {e' : Event} (h : (es ++ [e])[i]? = some e') :
    es[i]? = some e' ∨ (i = es.length ∧ e' = e) := by
  rw [List.getElem?_append] at h
  split at h
  case isTrue => exact Or.inl h
  case isFalse hge =>
    rw [List.getElem?_singleton] at h
    split at h
    case isTrue hz =>
      cases h
      exact Or.inr ⟨by omega, rfl⟩
    case isFalse => cases h

theorem Held.of_snoc {b : ℕ} (h : Held (es ++ [e]) b) : e = .allocated b ∨ (Held es b ∧ e ≠ .deallocated b) := by
  obtain ⟨i, hi, hkeep⟩ := h
  obtain hold | ⟨-, rfl⟩ := getElem?_snoc hi
  · have hlt := (List.getElem?_eq_some_iff.mp hold).1
    refine Or.inr ⟨⟨i, hold, fun k hk heq => hkeep k hk ?_⟩, ?_⟩
    · rw [List.getElem?_append_left (List.getElem?_eq_some_iff.mp heq).1]
      exact heq
    · rintro rfl
      apply hkeep es.length hlt
      rw [List.getElem?_append_right (Nat.le_refl _), Nat.sub_self]
      rfl
  · exact Or.inl rfl

theorem Once.snoc (h : Once es) (he : ∀ b, e = .allocated b → ¬ Held es b) : Once (es ++ [e]) := by
  intro i j b hij hi hj
  obtain hj' | ⟨rfl, heq⟩ := getElem?_snoc hj
  · have hlt := (List.getElem?_eq_some_iff.mp hj').1
    rw [List.getElem?_append_left (by omega)] at hi
    obtain ⟨k, hik, hkj, hk⟩ := h i j b hij hi hj'
    refine ⟨k, hik, hkj, ?_⟩
    rw [List.getElem?_append_left (by omega)]
    exact hk
  · rw [List.getElem?_append_left hij] at hi
    have hback : ∃ k, i < k ∧ es[k]? = some (Event.deallocated b) := by
      by_contra hno
      exact he b heq.symm ⟨i, hi, fun k hk hdone => hno ⟨k, hk, hdone⟩⟩
    obtain ⟨k, hik, hk⟩ := hback
    have hlt := (List.getElem?_eq_some_iff.mp hk).1
    refine ⟨k, hik, hlt, ?_⟩
    rw [List.getElem?_append_left hlt]
    exact hk

section Step

variable (hg : Usize.Narrow sz cnt) (ha : a.Fits sz cnt)
include hg ha

omit hg in
theorem fails_iff (s : BlockManager sz cnt logCnt) :
    s.fails a.bitmapBlockId ↔ s.maybeFailed = true ∧ 3 ≤ s.writeFailCnt := by
  have hroom := ha.room
  have hcnt := ha.cnt_pos
  unfold BlockManager.fails
  rw [eq_true (by omega : a.bitmapBlockId < cnt), true_and]

theorem bits_of_happens (h : Happens a s e t) : match e with
    | .allocated b => b < cnt ∧ a.used s b = false ∧ ∀ b' < cnt, a.used t b' =
        if s.fails a.bitmapBlockId then a.used s b' else Function.update (a.used s) b true b'
    | .deallocated b => b < cnt ∧ a.used s b = true ∧ ∀ b' < cnt, a.used t b' =
        if s.fails a.bitmapBlockId then a.used s b' else Function.update (a.used s) b false b'
    | _ => ∀ b' < cnt, a.used t b' = a.used s b' := by
  cases e with
  | allocated b =>
    rw [Happens, Usize.allocate_eq hg ha] at h
    obtain ⟨hlt, hfree, hm⟩ := (allocate_result ha).of_eq h
    refine ⟨hlt, hfree, fun b' hb' => ?_⟩
    rw [hm.bits b' hb']
    split <;> rfl
  | deallocated b =>
    rw [Happens, Usize.deallocate_eq hg] at h
    by_cases hu : b < cnt ∧ a.used s b = true
    · obtain ⟨u, hrun, hm⟩ := deallocate_result ha hu.1 hu.2
      cases hrun.symm.trans h
      refine ⟨hu.1, hu.2, fun b' hb' => ?_⟩
      rw [hm.bits b' hb']
      split <;> rfl
    · have hfree : b < cnt → a.used s b = false := fun hb => Bool.of_not_eq_true fun hset => hu ⟨hb, hset⟩
      cases h.symm.trans (deallocate_refused ha hfree)
  | refused =>
    obtain ⟨err, hrun | ⟨b, hrun⟩⟩ := h
    · rw [Usize.allocate_eq hg ha] at hrun
      obtain ⟨-, rfl⟩ := (allocate_result ha).of_eq hrun
      exact fun _ _ => rfl
    · rw [Usize.deallocate_eq hg] at hrun
      by_cases hu : b < cnt ∧ a.used s b = true
      · obtain ⟨u, hok, -⟩ := deallocate_result ha hu.1 hu.2
        cases hok.symm.trans hrun
      · have hfree : b < cnt → a.used s b = false := fun hb => Bool.of_not_eq_true fun hset => hu ⟨hb, hset⟩
        cases hrun.symm.trans (deallocate_refused ha hfree)
        exact fun _ _ => rfl
  | elsewhere =>
    intro b' hb'
    have hidx := Fits.index_lt ha hb'
    unfold BlockAllocator.used
    rw [h (b' / (sz * bitsPerByte) + a.bitmapBlockId) (Nat.le_add_left _ _) (by omega)]

theorem shown_iff (h : Happens a s e t) : Shown a t e ↔ Written s e := by
  have hbits := bits_of_happens hg ha h
  cases e with
  | allocated b =>
    obtain ⟨hlt, hfree, hall⟩ := hbits
    rw [Shown, Written, ← fails_iff ha, hall b hlt, Function.update_self, hfree]
    split <;> simp_all
  | deallocated b =>
    obtain ⟨hlt, hset, hall⟩ := hbits
    rw [Shown, Written, ← fails_iff ha, hall b hlt, Function.update_self, hset]
    split <;> simp_all
  | refused | elsewhere => exact Iff.rfl

theorem once_of_path (hpath : Path (fun s e t => Happens a s e t ∧ Written s e) s₀ es s) :
    Once es ∧ ∀ b, Held es b → b < cnt ∧ a.used s b = true := by
  refine hpath.invariant (I := fun es s => Once es ∧ ∀ b, Held es b → b < cnt ∧ a.used s b = true) ?_ ?_
  · exact ⟨fun i j b _ hi => by simp at hi, fun b ⟨i, hi, _⟩ => by simp at hi⟩
  · rintro es s e t ⟨honce, hheld⟩ ⟨hstep, hwritten⟩
    have hbits := bits_of_happens hg ha hstep
    constructor
    · apply honce.snoc
      rintro b rfl hb
      exact Bool.noConfusion ((hheld b hb).2.symm.trans hbits.2.1)
    · intro b hb
      cases e with
      | allocated b' =>
        rw [Written, ← fails_iff ha] at hwritten
        obtain ⟨hlt, hfree, hall⟩ := hbits
        by_cases heq : b = b'
        · rw [heq, hall b' hlt, if_neg hwritten, Function.update_self]
          exact ⟨hlt, rfl⟩
        · obtain hnew | ⟨hold, -⟩ := hb.of_snoc
          · cases hnew
            exact absurd rfl heq
          · rw [hall b (hheld b hold).1, if_neg hwritten, Function.update_of_ne heq]
            exact hheld b hold
      | deallocated b' =>
        rw [Written, ← fails_iff ha] at hwritten
        obtain ⟨hlt, hset, hall⟩ := hbits
        obtain hnew | ⟨hold, hne⟩ := hb.of_snoc
        · cases hnew
        · have heq : b ≠ b' := by
            rintro rfl
            exact hne rfl
          rw [hall b (hheld b hold).1, if_neg hwritten, Function.update_of_ne heq]
          exact hheld b hold
      | refused | elsewhere =>
        obtain hnew | ⟨hold, -⟩ := hb.of_snoc
        · cases hnew
        · rw [hbits b (hheld b hold).1]
          exact hheld b hold

end Step

theorem fits_of_create {willInitialize : Bool} (hsmall : cnt * sz < 2 ^ 32)
    (hopen : Usize.create bitmapBlockId willInitialize s₀ = some (.ok a, s₁)) :
    Usize.Narrow sz cnt ∧ a.Fits sz cnt := by
  obtain ⟨hbits, hpos, hroom⟩ := BlockIds.create_inv hopen
  have hg : Usize.Narrow sz cnt := ⟨hsmall, hbits⟩
  have hcnt : 0 < cnt := by omega
  rw [Usize.fields_eq hg hcnt] at hpos hroom
  rw [Usize.create_eq hg hcnt] at hopen
  unfold BlockAllocator.create at hopen
  obtain ⟨_, t₁, -, hopen₁⟩ := bind_eq_ok hopen
  obtain ⟨_, t₂, -, hopen₂⟩ := bind_eq_ok hopen₁
  have hfields : a = BlockAllocator.fields sz cnt bitmapBlockId := by
    cases willInitialize with
    | false =>
      cases hopen₂
      rfl
    | true =>
      obtain ⟨_, t₃, -, hopen₃⟩ := bind_eq_ok hopen₂
      obtain ⟨_, t₄, -, hopen₄⟩ := bind_eq_ok hopen₃
      cases hopen₄
      rfl
  rw [hfields]
  exact ⟨hg, fields_fits hg.sz_pos hpos hroom⟩

theorem shown_iff_written {willInitialize : Bool} (hsmall : cnt * sz < 2 ^ 32)
    (hopen : Usize.create bitmapBlockId willInitialize s₀ = some (.ok a, s₁))
    (hpath : Path (fun s e t => Happens a s e t ∧ Written s e) s es t) :
    Once es ∧ ∀ e u, Happens a t e u → (Shown a u e ↔ Written t e) := by
  obtain ⟨hg, ha⟩ := fits_of_create hsmall hopen
  exact ⟨(once_of_path hg ha hpath).1, fun _ _ h => shown_iff hg ha h⟩

def ten : BlockAllocator := ⟨0, 1, 10⟩

def failing (bm : BlockManager 8 10 0) : BlockManager 8 10 0 := { bm with maybeFailed := true }

theorem exists_five : ∃ bm, Usize.create 0 true (BlockManager.zeroed 8 10 0) = some (.ok ten, bm) ∧
    (failing bm).writeFailCnt = 0 ∧
    ∃ t₁ t₂ t₃ t₄ t₅, Usize.allocate ten (failing bm) = some (.ok 1, t₁) ∧ Usize.allocate ten t₁ = some (.ok 2, t₂) ∧
      Usize.allocate ten t₂ = some (.ok 3, t₃) ∧ Usize.allocate ten t₃ = some (.ok 4, t₄) ∧
      Usize.allocate ten t₄ = some (.ok 4, t₅) :=
  ⟨_, rfl, rfl, _, _, _, _, _, rfl, rfl, rfl, rfl, rfl⟩

theorem shown_one : ∃ bm t, Usize.create 0 true (BlockManager.zeroed 8 10 0) = some (.ok ten, bm) ∧
    Happens ten (failing bm) (.allocated 1) t ∧ Once [.allocated 1] ∧
    ∀ e u, Happens ten t e u → (Shown ten u e ↔ Written t e) := by
  obtain ⟨bm, hopen, hzero, t, _, _, _, _, hrun, -⟩ := exists_five
  have hwritten : Written (failing bm) (.allocated 1) := by
    rintro ⟨-, hthree⟩
    omega
  have hpath : Path (fun s e t => Happens ten s e t ∧ Written s e) (failing bm) [.allocated 1] t :=
    Path.nil.snoc ⟨hrun, hwritten⟩
  exact ⟨bm, t, hopen, hrun, shown_iff_written (by decide) hopen hpath⟩

/-- The fourth call returns a block whose bit is clear, and the fifth one
returns it again. -/
theorem not_shown_fourth : ∃ bm t, Usize.create 0 true (BlockManager.zeroed 8 10 0) = some (.ok ten, bm) ∧
    Path (Happens ten) (failing bm) [.allocated 1, .allocated 2, .allocated 3, .allocated 4] t ∧
    ¬ Shown ten t (.allocated 4) ∧
    ∃ u, Path (Happens ten) (failing bm) [.allocated 1, .allocated 2, .allocated 3, .allocated 4, .allocated 4] u ∧
      ¬ Once [.allocated 1, .allocated 2, .allocated 3, .allocated 4, .allocated 4] := by
  obtain ⟨bm, hopen, -, t₁, t₂, t₃, t₄, t₅, h₁, h₂, h₃, h₄, h₅⟩ := exists_five
  obtain ⟨hg, ha⟩ := fits_of_create (by decide) hopen
  have hfour : Path (Happens ten) (failing bm) [.allocated 1, .allocated 2, .allocated 3, .allocated 4] t₄ :=
    (((Path.nil.snoc h₁).snoc h₂).snoc h₃).snoc h₄
  refine ⟨bm, t₄, hopen, hfour, fun hshown => ?_, t₅, hfour.snoc h₅, fun honce => ?_⟩
  · have hfree := (bits_of_happens hg ha (e := .allocated 4) h₅).2.1
    cases hfree.symm.trans hshown
  · obtain ⟨k, h3, h4, -⟩ := honce 3 4 4 (by decide) rfl rfl
    omega

end Chfs.Block.FailedWrites
