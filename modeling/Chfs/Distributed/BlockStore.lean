import Chfs.Distributed.Versions
import Chfs.Lib.Server

namespace Chfs.Distributed.BlockStore

open Lib.Effect Lib.Bytes Lib.Server Block.Manager Block.Allocator DataServer Versions

inductive Request
  | allocBlock
  | freeBlock (blockId : ℕ)
  | writeData (blockId offset : ℕ) (buffer : List UInt8)
  | readData (blockId offset len version : ℕ)
  | restart
  deriving DecidableEq, Repr

inductive Answer
  | block (blockId version : ℕ)
  | success (ok : Bool)
  | data (content : List UInt8)
  | started
  | failed
  deriving DecidableEq, Repr

def Request.Inside : Request → Prop
  | .allocBlock | .restart => True
  | .freeBlock b => 1 ≤ b ∧ b < 4096
  | .writeData b offset buffer => 1 ≤ b ∧ b < 4096 ∧ offset + buffer.length ≤ 4096
  | .readData b offset len _ => 1 ≤ b ∧ b < 4096 ∧ offset + len ≤ 4096

def report {α : Type} (ok : α → Answer) : Except ErrorType α → Answer
  | .ok r => ok r
  | .error _ => .failed

/-- `initialize`, on the file that the last server has left. -/
def restart (s : Server) : Option (Except ErrorType BlockAllocator × Server) :=
  (BlockAllocator.create 0 false : Bm 4096 4096 0 BlockAllocator)
    { s with maybeFailed := false, writeFailCnt := 0 }

def serve (s : Server) : Request → Option (Answer × Server)
  | .allocBlock => (allocBlock s).map fun out => (report (fun r => .block r.1 r.2) out.1, out.2)
  | .freeBlock b => (freeBlock b s).map fun out => (report .success out.1, out.2)
  | .writeData b offset buffer => (writeData b offset buffer s).map fun out => (report .success out.1, out.2)
  | .readData b offset len version =>
    (readData b offset len version s).map fun out => (report .data out.1, out.2)
  | .restart => (restart s).map fun out => (report (fun _ => .started) out.1, out.2)

/-- The blocks that are allocated, each with the version of its allocation and
the bytes written since. -/
abbrev Store : Type := ℕ → Option (ℕ × List UInt8)

inductive Acts : Store → Request → Answer → Store → Prop
  | alloc {S : Store} {b v : ℕ} : 1 ≤ b → b < 4096 → S b = none → (∀ j, 1 ≤ j → j < b → S j ≠ none) →
      v % 2 = 1 → Acts S .allocBlock (.block b v) (Function.update S b (some (v, List.replicate 4096 0)))
  | full {S : Store} : (∀ j, 1 ≤ j → j < 4096 → S j ≠ none) → Acts S .allocBlock (.block 0 0) S
  | free {S : Store} {b : ℕ} :
      Acts S (.freeBlock b) (.success (S b).isSome) (Function.update S b none)
  | write {S : Store} {b offset : ℕ} {buffer : List UInt8} :
      Acts S (.writeData b offset buffer) (.success (S b).isSome)
        (Function.update S b ((S b).map fun cell => (cell.1, splice cell.2 offset buffer)))
  | read {S : Store} {b offset len v : ℕ} {content : List UInt8} : S b = some (v, content) →
      Acts S (.readData b offset len v) (.data (slice content offset len)) S
  | stale {S : Store} {b offset len v : ℕ} : (∀ content, S b ≠ some (v, content)) →
      Acts S (.readData b offset len v) (.data []) S
  | restart {S : Store} : Acts S .restart .started S

/-- A server holds a store. -/
structure Holds (s : Server) (S : Store) : Prop where
  works : s.maybeFailed = false
  free : ∀ b, 1 ≤ b → b < 4096 → S b = none → allocated s b = false
  used : ∀ b v content, 1 ≤ b → b < 4096 → S b = some (v, content) →
    allocated s b = true ∧ (version s b).toNat = v ∧ s.blocks b = content

section Step

variable {s : Server} {S : Store} (h : Holds s S)
include h

theorem Holds.isSome {b : ℕ} (hb : 1 ≤ b) (hlt : b < 4096) : (S b).isSome = allocated s b := by
  cases hS : S b with
  | none =>
    rw [h.free b hb hlt hS]
    rfl
  | some cell =>
    rw [(h.used b cell.1 cell.2 hb hlt hS).1]
    rfl

theorem Holds.ne_none {b : ℕ} (hb : 1 ≤ b) (hlt : b < 4096) (ha : allocated s b = true) : S b ≠ none := by
  rw [← Option.isSome_iff_ne_none, h.isSome hb hlt, ha]

theorem Holds.update {t : Server} {b : ℕ} {cell : Option (ℕ × List UInt8)} (hworks : t.maybeFailed = false)
    (hfree : cell = none → allocated t b = false)
    (hused : ∀ v content, cell = some (v, content) →
      allocated t b = true ∧ (version t b).toNat = v ∧ t.blocks b = content)
    (hver : ∀ j, j ≠ b → version t j = version s j) (hblocks : ∀ j, 1 ≤ j → j ≠ b → t.blocks j = s.blocks j) :
    Holds t (Function.update S b cell) where
  works := hworks
  free j hj hlt hS := by
    by_cases hjb : j = b
    · subst hjb
      rw [Function.update_self] at hS
      exact hfree hS
    · rw [Function.update_of_ne hjb] at hS
      rw [← Bool.not_eq_true, allocated_iff, hver j hjb, ← allocated_iff, h.free j hj hlt hS]
      decide
  used j v content hj hlt hS := by
    by_cases hjb : j = b
    · subst hjb
      rw [Function.update_self] at hS
      exact hused v content hS
    · rw [Function.update_of_ne hjb] at hS
      obtain ⟨ha, hv, hc⟩ := h.used j v content hj hlt hS
      rw [allocated_iff, hver j hjb, ← allocated_iff, hblocks j hj hjb]
      exact ⟨ha, hv, hc⟩

theorem allocBlock_holds : ∃ r t S', serve s .allocBlock = some (r, t) ∧ Acts S .allocBlock r S' ∧ Holds t S' := by
  have hrun := allocBlock_eq h.works
  cases hfree : findFree (s.blocks 0) 4095 1 with
  | none =>
    rw [hfree] at hrun
    refine ⟨_, _, S, congrArg (Option.map _) hrun, .full fun j hj hlt => ?_, h⟩
    exact h.ne_none hj hlt (findFree_none hfree hj (by omega))
  | some b =>
    rw [hfree] at hrun
    obtain ⟨hb, hlt, hnot, hfirst⟩ := findFree_some hfree
    have hver : ∀ j, version (handedOut s b) j = if j = b then version s b + 1 else version s j := by
      intro j
      rw [version_handedOut hb, version_changed (by omega)]
    have heven : ¬ (version s b).toNat % 2 = 1 := by
      rw [← allocated_iff]
      exact Bool.eq_false_iff.mp hnot
    have hodd : (version s b + 1).toNat % 2 = 1 := by
      have hnew : (version s b + 1).toNat = ((version s b).toNat + 1) % 256 := UInt8.toNat_add _ _
      omega
    refine ⟨_, _, _, congrArg (Option.map _) hrun, .alloc hb (by omega) ?_ (fun j hj hjb => ?_) hodd,
      h.update h.works (fun hno => by cases hno) ?_ (fun j hj => by rw [hver, if_neg hj]) fun j hj hjb => ?_⟩
    · rw [← Option.not_isSome_iff_eq_none, h.isSome hb (by omega), Bool.not_eq_true]
      exact hnot
    · exact h.ne_none hj (by omega) (hfirst j hj hjb)
    · intro v content hcell
      cases hcell
      rw [allocated_iff, hver, if_pos rfl]
      exact ⟨hodd, rfl, Function.update_self ..⟩
    · rw [handedOut, changed, setBlock_blocks, setBlock_blocks, Function.update_of_ne hjb,
        Function.update_of_ne (by omega)]

theorem freeBlock_holds {b : ℕ} (hb : 1 ≤ b) (hlt : b < 4096) :
    ∃ r t S', serve s (.freeBlock b) = some (r, t) ∧ Acts S (.freeBlock b) r S' ∧ Holds t S' := by
  have hrun := freeBlock_eq (b := b) h.works
  rw [if_neg (by omega), if_neg (by omega)] at hrun
  have hact : Acts S (.freeBlock b) (.success (allocated s b)) (Function.update S b none) := by
    rw [← h.isSome hb hlt]
    exact .free
  cases ha : allocated s b with
  | true =>
    rw [if_pos ha] at hrun
    rw [ha] at hact
    have hver : ∀ j, version (changed s b) j = if j = b then version s b + 1 else version s j :=
      fun j => version_changed hlt
    refine ⟨_, _, _, congrArg (Option.map _) hrun, hact, h.update h.works (fun _ => ?_)
      (fun v content hcell => by cases hcell) (fun j hj => by rw [hver, if_neg hj]) fun j hj _ => ?_⟩
    · have hodd := allocated_iff.mp ha
      have hnew : (version s b + 1).toNat = ((version s b).toNat + 1) % 256 := UInt8.toNat_add _ _
      rw [← Bool.not_eq_true, allocated_iff, hver, if_pos rfl]
      omega
    · rw [changed, setBlock_blocks, Function.update_of_ne (by omega)]
  | false =>
    rw [if_neg (by rw [ha]; decide)] at hrun
    rw [ha] at hact
    refine ⟨_, _, _, congrArg (Option.map _) hrun, hact, h.update h.works (fun _ => ha)
      (fun v content hcell => by cases hcell) (fun j _ => rfl) fun j _ _ => rfl⟩

theorem writeData_holds {b offset : ℕ} {buffer : List UInt8} (hb : 1 ≤ b) (hlt : b < 4096)
    (hle : offset + buffer.length ≤ 4096) : ∃ r t S', serve s (.writeData b offset buffer) = some (r, t) ∧
      Acts S (.writeData b offset buffer) r S' ∧ Holds t S' := by
  have hact : Acts S (.writeData b offset buffer) (.success (allocated s b))
      (Function.update S b ((S b).map fun cell => (cell.1, splice cell.2 offset buffer))) := by
    rw [← h.isSome hb hlt]
    exact .write
  cases ha : allocated s b with
  | true =>
    rw [ha] at hact
    obtain ⟨t, ht, hworks, hblocks⟩ := writeData_ok h.works hb hlt hle ha
    have hver := version_writeData h.works ht
    refine ⟨_, _, _, congrArg (Option.map _) ht, hact, h.update hworks (fun hno => ?_) (fun v content hcell => ?_)
      (fun j _ => hver j) fun j _ hj => by rw [hblocks, Function.update_of_ne hj]⟩
    · exact absurd (Option.map_eq_none_iff.mp hno) (h.ne_none hb hlt ha)
    · obtain ⟨⟨v', c⟩, hS, heq⟩ := Option.map_eq_some_iff.mp hcell
      cases heq
      obtain ⟨-, hv, hc⟩ := h.used b v' c hb hlt hS
      rw [allocated_iff, hver, ← allocated_iff, hblocks, Function.update_self, hc]
      exact ⟨ha, hv, rfl⟩
  | false =>
    rw [ha] at hact
    have hnone : S b = none := by
      rw [← Option.not_isSome_iff_eq_none, h.isSome hb hlt, ha]
      decide
    rw [hnone, Option.map_none] at hact
    exact ⟨_, _, _, congrArg (Option.map _) (writeData_refused ha), hact, h.update h.works (fun _ => ha)
      (fun v content hcell => by cases hcell) (fun j _ => rfl) fun j _ _ => rfl⟩

theorem readData_holds {b offset len v : ℕ} (hb : 1 ≤ b) (hlt : b < 4096) (hle : offset + len ≤ 4096) :
    ∃ r t S', serve s (.readData b offset len v) = some (r, t) ∧ Acts S (.readData b offset len v) r S' ∧
      Holds t S' := by
  have hrun := readData_eq (s := s) (v := v) hlt offset len
  rw [if_pos hle] at hrun
  by_cases hv : allocated s b = true ∧ (version s b).toNat = v
  · rw [if_pos hv] at hrun
    obtain ⟨⟨v', content⟩, hS⟩ := Option.ne_none_iff_exists'.mp (h.ne_none hb hlt hv.1)
    obtain ⟨-, hv', hc⟩ := h.used b v' content hb hlt hS
    rw [hc] at hrun
    rw [← hv', hv.2] at hS
    exact ⟨_, _, S, congrArg (Option.map _) hrun, .read hS, h⟩
  · rw [if_neg hv] at hrun
    refine ⟨_, _, S, congrArg (Option.map _) hrun, .stale fun content hS => ?_, h⟩
    obtain ⟨ha, hv', -⟩ := h.used b v content hb hlt hS
    exact hv ⟨ha, hv'⟩

theorem restart_holds : ∃ r t S', serve s .restart = some (r, t) ∧ Acts S .restart r S' ∧ Holds t S' :=
  ⟨_, _, S, rfl, .restart, rfl, h.free, h.used⟩

theorem serve_holds {q : Request} (hq : q.Inside) :
    ∃ r t S', serve s q = some (r, t) ∧ Acts S q r S' ∧ Holds t S' := by
  cases q with
  | allocBlock => exact allocBlock_holds h
  | freeBlock b => exact freeBlock_holds h hq.1 hq.2
  | writeData b offset buffer => exact writeData_holds h hq.1 hq.2.1 hq.2.2
  | readData b offset len v => exact readData_holds h hq.1 hq.2.1 hq.2.2
  | restart => exact restart_holds h

end Step

theorem create_zero {sz cnt : ℕ} {s : BlockManager sz cnt 0} (hs : s.maybeFailed = false) (hcnt : 0 < cnt)
    (hone : (BlockAllocator.fields sz cnt 0).bitmapBlockCnt = 1) :
    ∃ t, BlockAllocator.create 0 true s = some (.ok (BlockAllocator.fields sz cnt 0), t) ∧
      t.maybeFailed = false ∧ t.blocks 0 = Bitmap.set (List.replicate sz 0) 0 := by
  have hid : (BlockAllocator.fields sz cnt 0).bitmapBlockId = 0 := rfl
  have hlen : (Bitmap.set (List.replicate sz 0) 0).length = sz := by
    rw [Bitmap.length_set, List.length_replicate]
  obtain ⟨t, ht, hworks, -, -⟩ := zeroBlocks_spec s 1 0 (by omega)
  refine ⟨t.setBlock 0 (Bitmap.set (List.replicate sz 0) 0) hlen, ?_, hworks.trans hs, ?_⟩
  · unfold BlockAllocator.create
    simp only [hid, hone, if_true]
    rw [require_of (by omega), bind_ok (pure_apply ()), require_of (by omega), bind_ok (pure_apply ()),
      bind_ok ht]
    have hmark : (BlockAllocator.fields sz cnt 0).markReserved (1 + 0) 0 0 (List.replicate sz 0) t =
        some (.ok (), t.setBlock 0 (Bitmap.set (List.replicate sz 0) 0) hlen) := by
      rw [BlockAllocator.markReserved]
      simp only [Nat.zero_div, Nat.zero_mod, hid, ne_eq, not_true_eq_false, if_false]
      rw [BlockAllocator.markReserved]
      exact ignore_apply (writeBlock_apply (hworks.trans hs) (by omega) hlen)
    rw [bind_ok hmark, pure_apply]
  · rw [setBlock_blocks, Function.update_self]

theorem initializeServer_holds : ∃ (a : BlockAllocator) (s : Server),
    initializeServer (BlockManager.zeroed 4096 4096 0) = some (.ok a, s) ∧ Holds s fun _ => none := by
  obtain ⟨s, hs, hworks, hblock⟩ : ∃ t : Server, BlockAllocator.create 0 true (BlockManager.zeroed 4096 4096 0) =
      some (.ok (BlockAllocator.fields 4096 4096 0), t) ∧ t.maybeFailed = false ∧
      t.blocks 0 = Bitmap.set (List.replicate 4096 0) 0 := create_zero rfl (by decide) (by decide)
  refine ⟨_, s, hs, hworks, fun b hb hlt _ => ?_, fun b v content _ _ hS => by cases hS⟩
  have hv : version s b = 0 := by
    rw [version, hblock, versionAt, Bitmap.set, Nat.zero_div, List.getD_eq_getElem?_getD,
      List.getElem?_set_ne (by omega), List.getElem?_replicate_of_lt hlt]
    rfl
  rw [← Bool.not_eq_true, allocated_iff, hv]
  decide

/-- A data server answers every list of requests as the store of its blocks. -/
theorem answers_conform_store {a : BlockAllocator} {s : Server} {qs : List Request}
    (hinit : initializeServer (BlockManager.zeroed 4096 4096 0) = some (.ok a, s))
    (hqs : ∀ q ∈ qs, q.Inside) :
    ∃ rs t S, answers serve s qs = some (rs, t) ∧ Conforms Acts (fun _ => none) qs rs S := by
  obtain ⟨a', s', hinit', h⟩ := initializeServer_holds
  obtain ⟨rfl, rfl⟩ : a' = a ∧ s' = s := by simpa using hinit'.symm.trans hinit
  have hstep : ∀ (s : Server) (S : Store) (q : Request), Holds s S → q.Inside →
      ∃ r t S', serve s q = some (r, t) ∧ Acts S q r S' ∧ Holds t S' :=
    fun _ _ _ hS hq => serve_holds hS hq
  obtain ⟨rs, t, S, hans, hconf, -⟩ := answers_conform hstep hqs h
  exact ⟨rs, t, S, hans, hconf⟩

/-- A block that is written, freed, and handed out again after a restart. -/
theorem answers_conform_store_reused : ∃ (a : BlockAllocator) (s : Server),
    initializeServer (BlockManager.zeroed 4096 4096 0) = some (.ok a, s) ∧ ∃ rs t S,
      answers serve s [.allocBlock, .writeData 1 0 [7], .freeBlock 1, .restart, .allocBlock,
        .readData 1 0 1 3] = some (rs, t) ∧
      Conforms Acts (fun _ => none) [.allocBlock, .writeData 1 0 [7], .freeBlock 1, .restart, .allocBlock,
        .readData 1 0 1 3] rs S := by
  obtain ⟨a, s, hinit, -⟩ := initializeServer_holds
  refine ⟨a, s, hinit, answers_conform_store hinit ?_⟩
  simp [Request.Inside]

end Chfs.Distributed.BlockStore
