import Chfs.Distributed.DataServer
import Mathlib.Algebra.Order.Group.Nat

namespace Chfs.Distributed.Versions

open Lib.Effect Lib.Bytes Lib.Run Block.Manager Block.Allocator DataServer

inductive Event
  | allocated (blockId version : ℕ)
  | freed (blockId : ℕ)
  | none
  deriving DecidableEq

inductive Serves : Server → Event → Server → Prop
  | allocBlock {s t : Server} {b v : ℕ} : allocBlock s = some (.ok (b, v), t) → Serves s (.allocated b v) t
  | freeBlock {s t : Server} {b : ℕ} : freeBlock b s = some (.ok true, t) → Serves s (.freed b) t
  | refused {s t : Server} {b : ℕ} : freeBlock b s = some (.ok false, t) → Serves s .none t
  | writeData {s t : Server} {b offset : ℕ} {buffer : List UInt8} {r : Bool} :
      writeData b offset buffer s = some (.ok r, t) → Serves s .none t

def Event.allocates (b : ℕ) : Event → Bool
  | .allocated b' _ => b' = b
  | _ => false

def Event.frees (b : ℕ) : Event → Bool
  | .freed b' => b' = b
  | _ => false

def allocs (b : ℕ) (es : List Event) : ℕ := es.countP (Event.allocates b)

def frees (b : ℕ) (es : List Event) : ℕ := es.countP (Event.frees b)

section Serves

variable {s t : Server} {e : Event} {b : ℕ}

theorem allocated_iff : allocated s b = true ↔ (version s b).toNat % 2 = 1 := by
  unfold allocated isAllocated
  rw [decide_eq_true_eq]
  rfl

/-- One request moves the version of a block on by one if it allocates or frees
the block, which it does only in turn. -/
theorem Serves.version (h : Serves s e t) (hs : s.maybeFailed = false) (hb : 1 ≤ b) :
    t.maybeFailed = false ∧
    (version t b).toNat = ((version s b).toNat + (e.allocates b).toNat + (e.frees b).toNat) % 256 ∧
    (e.allocates b = true → allocated s b = false) ∧ (e.frees b = true → allocated s b = true) := by
  have hlt := (DataServer.version s b).toNat_lt
  have hsame : (DataServer.version s b).toNat = ((DataServer.version s b).toNat + 0 + 0) % 256 := by omega
  -- the version after a change of hands
  have hchanged : ∀ b', b' < 4096 → (DataServer.version (changed s b') b).toNat =
      ((DataServer.version s b).toNat + (decide (b' = b)).toNat) % 256 := by
    intro b' hb'
    rw [version_changed hb']
    by_cases heq : b = b'
    · rw [if_pos heq, ← heq, UInt8.toNat_add]
      simp
    · rw [if_neg heq, decide_eq_false (Ne.symm heq)]
      exact (Nat.mod_eq_of_lt hlt).symm
  cases h with
  | allocBlock h =>
    obtain ⟨hr, rfl, -⟩ | ⟨c, hr, h1, h2, h3, -, rfl⟩ := allocBlock_cases hs h
    · cases hr
      have hne : (Event.allocated 0 0).allocates b = false := decide_eq_false (by omega)
      rw [hne]
      exact ⟨hs, hsame, fun h => (by cases h), fun h => by cases h⟩
    · cases hr
      refine ⟨hs, ?_, fun h => ?_, fun h => by cases h⟩
      · rw [version_handedOut h1, hchanged _ h2]
        rfl
      · rw [Event.allocates, decide_eq_true_eq] at h
        exact h ▸ h3
  | freeBlock h =>
    obtain ⟨hr, -⟩ | ⟨-, -, h2, h3, rfl⟩ := freeBlock_cases hs h
    · cases hr
    · refine ⟨hs, ?_, fun h => (by cases h), fun h => ?_⟩
      · rw [hchanged _ h2]
        rfl
      · rw [Event.frees, decide_eq_true_eq] at h
        exact h ▸ h3
  | refused h =>
    obtain ⟨-, rfl, -⟩ | ⟨hr, -⟩ := freeBlock_cases hs h
    · exact ⟨hs, hsame, fun h => (by cases h), fun h => by cases h⟩
    · cases hr
  | writeData h =>
    rw [version_writeData hs h]
    obtain ⟨-, rfl, -⟩ | ⟨-, -, -, -, -, hw, -⟩ := writeData_cases hs h
    · exact ⟨hs, hsame, fun h => (by cases h), fun h => by cases h⟩
    · exact ⟨hw, hsame, fun h => (by cases h), fun h => by cases h⟩

end Serves

section Run

variable {s t u : Server} {es : List Event} {b v : ℕ}

/-- After an allocation the version tells how often the block has changed
hands, modulo 256. Frees and allocations take turns. -/
theorem version_of_path (hs : s.maybeFailed = false) (hb : 1 ≤ b) (hv : allocated s b = true)
    (h : Path Serves s es u) : u.maybeFailed = false ∧
      (version u b).toNat = ((version s b).toNat + allocs b es + frees b es) % 256 ∧
      (frees b es = allocs b es ∨ frees b es = allocs b es + 1) := by
  rw [allocated_iff] at hv
  have hlt := (version s b).toNat_lt
  refine h.invariant (I := fun es u => u.maybeFailed = false ∧
      (version u b).toNat = ((version s b).toNat + allocs b es + frees b es) % 256 ∧
      (frees b es = allocs b es ∨ frees b es = allocs b es + 1)) ?_ ?_
  · refine ⟨hs, ?_, Or.inl rfl⟩
    change _ = ((version s b).toNat + 0 + 0) % 256
    omega
  · intro es u e w hI hstep
    obtain ⟨hu, hver, hturn⟩ := hI
    obtain ⟨hw, hver', ha, hf⟩ := hstep.version hu hb
    have hallocs : allocs b (es ++ [e]) = allocs b es + (e.allocates b).toNat := by
      rw [allocs, allocs, List.countP_append]
      cases hc : e.allocates b <;> simp [hc]
    have hfrees : frees b (es ++ [e]) = frees b es + (e.frees b).toNat := by
      rw [frees, frees, List.countP_append]
      cases hc : e.frees b <;> simp [hc]
    -- the block is allocated exactly when every free has been followed by an allocation
    have hodd : allocated u b = true ↔ frees b es = allocs b es := by
      rw [allocated_iff, hver]
      omega
    refine ⟨hw, by rw [hver', hallocs, hfrees]; omega, ?_⟩
    rw [hallocs, hfrees]
    cases hca : e.allocates b with
    | true =>
      have hnot : ¬ frees b es = allocs b es := by
        rw [← hodd, ha hca]
        decide
      cases hcf : e.frees b with
      | true => exact absurd (hodd.mp (hf hcf)) hnot
      | false =>
        simp only [Bool.toNat_true, Bool.toNat_false]
        omega
    | false =>
      cases hcf : e.frees b with
      | true =>
        have := hodd.mp (hf hcf)
        simp only [Bool.toNat_true, Bool.toNat_false]
        omega
      | false => exact hturn

theorem readData_eq (hb : b < 4096) (offset len : ℕ) : readData b offset len v s =
    if allocated s b = true ∧ (version s b).toNat = v then
      if offset + len ≤ 4096 then some (.ok (slice (s.blocks b) offset len), s) else none
    else some (.ok [], s) := by
  unfold readData
  rw [if_neg (by omega), bind_ok (readBlock_apply s (by decide))]
  by_cases ha : allocated s b = true
  · rw [if_neg (by simpa [allocated] using ha)]
    by_cases hv : (versionAt (s.blocks 0) b).toNat = v
    · rw [if_neg (not_not.mpr hv), if_pos ⟨ha, hv⟩, bind_ok (readBlock_apply s (by omega))]
      split
      case isTrue hle => rw [require_of hle, bind_ok (pure_apply ()), pure_apply]
      case isFalse hgt =>
        rw [require, if_neg hgt]
        rfl
    · rw [if_pos hv, if_neg (fun h => hv h.2), pure_apply]
  · rw [if_pos (by simpa [allocated] using ha), if_neg (fun h => ha h.1), pure_apply]

/-- What a reader gets with the version of an earlier allocation: after 128
frees and allocations the same version is back. -/
theorem readData_after (hs : s.maybeFailed = false) (halloc : allocBlock s = some (.ok (b, v), t))
    (hb : b ≠ 0) (h : Path Serves t es u) (offset len : ℕ) : readData b offset len v u =
      if allocs b es = frees b es ∧ 128 ∣ frees b es then
        if offset + len ≤ 4096 then some (.ok (slice (u.blocks b) offset len), u) else none
      else some (.ok [], u) := by
  obtain ⟨hr, -⟩ | ⟨c, hr, h1, h2, hfree, -, rfl⟩ := allocBlock_cases hs halloc
  · cases hr
    exact absurd rfl hb
  obtain ⟨rfl, rfl⟩ : b = c ∧ v = (version s c + 1).toNat := by simpa using hr
  have hver : version (handedOut s b) b = version s b + 1 := by
    rw [version_handedOut h1, version_changed h2, if_pos rfl]
  have heven : ¬ (version s b).toNat % 2 = 1 := by
    rw [← allocated_iff, hfree]
    decide
  have hnew : (version s b + 1).toNat = ((version s b).toNat + 1) % 256 := UInt8.toNat_add _ _
  have hodd : allocated (handedOut s b) b = true := by
    rw [allocated_iff, hver, hnew]
    omega
  obtain ⟨-, hu, hturn⟩ := version_of_path (by exact hs) h1 hodd h
  rw [hver, hnew] at hu
  have hback : (allocated u b = true ∧ (version u b).toNat = (version s b + 1).toNat) ↔
      allocs b es = frees b es ∧ 128 ∣ frees b es := by
    rw [allocated_iff, hnew]
    omega
  rw [readData_eq h2]
  exact if_congr hback rfl rfl

/-- A block that has been freed since the version was handed out: the reader is
turned away unless the block has been freed and allocated again a multiple of
128 times. -/
theorem readData_stale_iff (hs : s.maybeFailed = false) (halloc : allocBlock s = some (.ok (b, v), t))
    (hb : b ≠ 0) (h : Path Serves t es u) (_hfreed : .freed b ∈ es) (offset len : ℕ) :
    readData b offset len v u = some (.ok [], u) ↔
      (len = 0 ∧ offset ≤ 4096) ∨ ¬ (allocs b es = frees b es ∧ 128 ∣ frees b es) := by
  rw [readData_after hs halloc hb h]
  by_cases hc : allocs b es = frees b es ∧ 128 ∣ frees b es
  · rw [if_pos hc]
    constructor
    · intro hread
      split at hread
      case isTrue hle =>
        have hlen := congrArg List.length (Except.ok.inj (Prod.mk.inj (Option.some.inj hread)).1)
        rw [length_slice (by rw [u.length_blocks]; exact hle), List.length_nil] at hlen
        exact Or.inl ⟨hlen, by omega⟩
      case isFalse => cases hread
    · rintro (⟨rfl, hoff⟩ | hnot)
      · rw [if_pos (by omega)]
        rfl
      · exact absurd hc hnot
  · rw [if_neg hc]
    exact ⟨fun _ => Or.inr hc, fun _ => rfl⟩

theorem exists_cycle (hs : s.maybeFailed = false) (ha : allocated s 1 = true) (k : ℕ) :
    ∃ es u, Path Serves s es u ∧ u.maybeFailed = false ∧ allocated u 1 = true ∧ allocs 1 es = k ∧
      frees 1 es = k := by
  induction k with
  | zero => exact ⟨[], s, .nil, hs, ha, rfl, rfl⟩
  | succ k ih =>
    obtain ⟨es, u, hpath, hu, hau, hallocs, hfrees⟩ := ih
    have hfree : freeBlock 1 u = some (.ok true, changed u 1) := by
      rw [freeBlock_eq hu, if_neg (by decide), if_neg (by decide), if_pos hau]
    have hstep := (Serves.freeBlock hfree).version hu (Nat.le_refl 1)
    have hodd := allocated_iff.mp hau
    have hv : (version (changed u 1) 1).toNat = ((version u 1).toNat + 0 + 1) % 256 := hstep.2.1
    have hnot : isAllocated ((changed u 1).blocks 0) 1 = false := by
      change allocated (changed u 1) 1 = false
      rw [← Bool.not_eq_true, allocated_iff]
      omega
    have halloc : allocBlock (changed u 1) =
        some (.ok (1, (version (changed u 1) 1 + 1).toNat), handedOut (changed u 1) 1) := by
      rw [allocBlock_eq hstep.1, findFree, hnot]
      rfl
    refine ⟨_, handedOut (changed u 1) 1, (hpath.snoc (.freeBlock hfree)).snoc (.allocBlock halloc),
      hu, ?_, ?_, ?_⟩
    · have hv' := ((Serves.allocBlock halloc).version hu (Nat.le_refl 1)).2.1
      have hval : (version (handedOut (changed u 1) 1) 1).toNat =
        ((version (changed u 1) 1).toNat + 1 + 0) % 256 := hv'
      rw [allocated_iff]
      omega
    · rw [allocs, List.countP_append, List.countP_append]
      change allocs 1 es + 0 + 1 = k + 1
      omega
    · rw [frees, List.countP_append, List.countP_append]
      change frees 1 es + 1 + 0 = k + 1
      omega

end Run

theorem exists_first : ∃ (a : BlockAllocator) (s : Server),
    initializeServer (BlockManager.zeroed 4096 4096 0) = some (.ok a, s) ∧ s.maybeFailed = false ∧
      allocBlock s = some (.ok (1, 1), handedOut s 1) ∧ allocated (handedOut s 1) 1 = true := by
  have hinit : (initializeServer (BlockManager.zeroed 4096 4096 0)).map (fun out =>
      (out.1.toOption.isSome, out.2.maybeFailed, version out.2 1)) = some (true, false, 0) := by
    decide +kernel
  obtain ⟨⟨r, s⟩, hrun, hout⟩ := Option.map_eq_some_iff.mp hinit
  simp only [Prod.mk.injEq] at hout
  obtain ⟨hr, hs, hv⟩ := hout
  cases r with
  | error => cases hr
  | ok a =>
    have hnot : isAllocated (s.blocks 0) 1 = false := by
      change allocated s 1 = false
      rw [← Bool.not_eq_true, allocated_iff, hv]
      decide
    refine ⟨a, s, hrun, hs, ?_, ?_⟩
    · rw [allocBlock_eq hs, findFree, hnot]
      simp only [Bool.false_eq_true, if_false, hv]
      rfl
    · rw [allocated_iff, version_handedOut (Nat.le_refl 1), version_changed (by decide), if_pos rfl, hv]
      decide

/-- A block that is freed and stays free. -/
theorem readData_stale_freed : ∃ (a : BlockAllocator) (s t u : Server),
    initializeServer (BlockManager.zeroed 4096 4096 0) = some (.ok a, s) ∧
      allocBlock s = some (.ok (1, 1), t) ∧ freeBlock 1 t = some (.ok true, u) ∧
      readData 1 0 4096 1 u = some (.ok [], u) := by
  obtain ⟨a, s, hinit, hs, halloc, ha⟩ := exists_first
  have hfree : freeBlock 1 (handedOut s 1) = some (.ok true, changed (handedOut s 1) 1) := by
    rw [freeBlock_eq (by exact hs), if_neg (by decide), if_neg (by decide), if_pos ha]
  refine ⟨a, s, _, _, hinit, halloc, hfree, ?_⟩
  have hpath : Path Serves (handedOut s 1) ([] ++ [.freed 1]) _ := Path.nil.snoc (.freeBlock hfree)
  exact (readData_stale_iff hs halloc (by decide) hpath (by simp) 0 4096).mpr (Or.inr (by decide))

/-- After 128 rounds the version of the first allocation is valid again. -/
theorem readData_reused : ∃ (a : BlockAllocator) (s t u : Server) (es : List Event),
    initializeServer (BlockManager.zeroed 4096 4096 0) = some (.ok a, s) ∧
      allocBlock s = some (.ok (1, 1), t) ∧ Path Serves t es u ∧ .freed 1 ∈ es ∧
      ∃ content, readData 1 0 4096 1 u = some (.ok content, u) ∧ content ≠ [] := by
  obtain ⟨a, s, hinit, hs, halloc, ha⟩ := exists_first
  obtain ⟨es, u, hpath, hu, -, hallocs, hfrees⟩ := exists_cycle (by exact hs) ha 128
  have hread := readData_after hs halloc (by decide) hpath 0 4096
  rw [hallocs, hfrees, if_pos (by decide), if_pos (by decide)] at hread
  refine ⟨a, s, _, u, es, hinit, halloc, hpath, ?_, _, hread, ?_⟩
  · obtain ⟨e, he, hfree⟩ := List.countP_pos_iff.mp (by rw [← frees, hfrees]; decide : 0 < es.countP _)
    cases e with
    | freed b =>
      rw [Event.frees, decide_eq_true_eq] at hfree
      exact hfree ▸ he
    | allocated | none => cases hfree
  · intro hnil
    have hlen := congrArg List.length hnil
    rw [length_slice (by rw [u.length_blocks]), List.length_nil] at hlen
    cases hlen

end Chfs.Distributed.Versions
