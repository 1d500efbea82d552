import Chfs.Lib.Effect
import Chfs.Lib.Bytes

/-! `BlockManager` (`block/manager.cc`): a device of `cnt` blocks of `sz` bytes,
with `logCnt` further blocks behind them where the log is enabled. -/

namespace Chfs.Block.Manager

open Lib.Effect Lib.Bytes

inductive ErrorType
  | done
  | invalidArg
  | outOfResource
  | invalid
  | notExist
  | alreadyExist
  | notEmpty
  | badResponse
  deriving DecidableEq, Repr

/-- The bytes of the device, block by block, and its simulated write failures. -/
structure BlockManager (sz cnt logCnt : ℕ) where
  blocks : ℕ → List UInt8
  maybeFailed : Bool
  writeFailCnt : ℕ
  length_blocks : ∀ i, (blocks i).length = sz

variable {sz cnt logCnt : ℕ}

def BlockManager.zeroed (sz cnt logCnt : ℕ) : BlockManager sz cnt logCnt where
  blocks _ := List.replicate sz 0
  maybeFailed := false
  writeFailCnt := 0
  length_blocks _ := List.length_replicate

def BlockManager.setBlock (bm : BlockManager sz cnt logCnt) (id : ℕ) (data : List UInt8)
    (h : data.length = sz) : BlockManager sz cnt logCnt :=
  { bm with
    blocks := Function.update bm.blocks id data
    length_blocks := by
      intro i
      by_cases hi : i = id
      · rw [hi, Function.update_self, h]
      · rw [Function.update_of_ne hi, bm.length_blocks] }

def BlockManager.fails (bm : BlockManager sz cnt logCnt) (id : ℕ) : Prop :=
  bm.maybeFailed = true ∧ id < cnt ∧ 3 ≤ bm.writeFailCnt

instance (bm : BlockManager sz cnt logCnt) (id : ℕ) : Decidable (bm.fails id) :=
  inferInstanceAs (Decidable (_ ∧ _ ∧ _))

/-- The state of a `BlockManager` program. A block that is not mapped and a
buffer that is too short leave the program undefined. -/
abbrev Bm (sz cnt logCnt : ℕ) (α : Type) : Type := Op (BlockManager sz cnt logCnt) ErrorType α

def writeBlock (id : ℕ) (data : List UInt8) : Bm sz cnt logCnt Unit := fun bm =>
  if bm.fails id then some (.error .invalid, { bm with writeFailCnt := 0 })
  else if h : id < cnt + logCnt ∧ data.length = sz then
    some (.ok (), { bm.setBlock id data h.2 with
      writeFailCnt := if bm.maybeFailed = true ∧ id < cnt then (bm.writeFailCnt + 1) % 2 ^ 32
        else bm.writeFailCnt })
  else none

/-- `write_partial_block` within one block. It counts its writes in any case. -/
def writePartialBlock (id : ℕ) (data : List UInt8) (offset : ℕ) : Bm sz cnt logCnt Unit := fun bm =>
  if bm.fails id then some (.error .invalid, { bm with writeFailCnt := 0 })
  else if h : id < cnt + logCnt ∧ offset + data.length ≤ sz then
    some (.ok (), { bm.setBlock id
        ((bm.blocks id).take offset ++ data ++ (bm.blocks id).drop (offset + data.length))
        (by simp only [List.length_append, List.length_take, List.length_drop, bm.length_blocks]
            omega) with
      writeFailCnt := (bm.writeFailCnt + 1) % 2 ^ 32 })
  else none

def readBlock (id : ℕ) : Bm sz cnt logCnt (List UInt8) := fun bm =>
  if id < cnt + logCnt then some (.ok (bm.blocks id), bm) else none

def zeroBlock (id : ℕ) : Bm sz cnt logCnt Unit := fun bm =>
  if id < cnt + logCnt then
    some (.ok (), bm.setBlock id (List.replicate sz 0) List.length_replicate)
  else none

variable {bm : BlockManager sz cnt logCnt} {id : ℕ} {data : List UInt8}

@[simp]
theorem setBlock_blocks (h : data.length = sz) :
    (bm.setBlock id data h).blocks = Function.update bm.blocks id data := rfl

@[simp]
theorem setBlock_maybeFailed (h : data.length = sz) :
    (bm.setBlock id data h).maybeFailed = bm.maybeFailed := rfl

theorem readBlock_apply (bm : BlockManager sz cnt logCnt) (h : id < cnt + logCnt) :
    readBlock id bm = some (.ok (bm.blocks id), bm) := if_pos h

theorem writeBlock_apply (hbm : bm.maybeFailed = false) (hid : id < cnt + logCnt)
    (h : data.length = sz) : writeBlock id data bm = some (.ok (), bm.setBlock id data h) := by
  unfold writeBlock
  rw [if_neg (by simp [BlockManager.fails, hbm]), dif_pos ⟨hid, h⟩]
  simp [hbm, BlockManager.setBlock]

theorem writeBlock_cases (bm : BlockManager sz cnt logCnt) (hid : id < cnt + logCnt) (h : data.length = sz) :
    ∃ r t, writeBlock id data bm = some (r, t) ∧ t.maybeFailed = bm.maybeFailed ∧
      t.blocks = if bm.fails id then bm.blocks else Function.update bm.blocks id data := by
  unfold writeBlock
  by_cases hf : bm.fails id
  · rw [if_pos hf, if_pos hf]
    exact ⟨_, _, rfl, rfl, rfl⟩
  · rw [if_neg hf, if_neg hf, dif_pos ⟨hid, h⟩]
    exact ⟨_, _, rfl, rfl, rfl⟩

theorem not_fails (hbm : bm.maybeFailed = false) (id : ℕ) : ¬ bm.fails id := by
  rintro ⟨hfail, -⟩
  cases hbm.symm.trans hfail

theorem writePartialBlock_blocks (hbm : bm.maybeFailed = false) (hid : id < cnt + logCnt) {offset : ℕ}
    (h : offset + data.length ≤ sz) : ∃ t : BlockManager sz cnt logCnt,
      writePartialBlock id data offset bm = some (.ok (), t) ∧ t.maybeFailed = false ∧
      t.blocks = Function.update bm.blocks id (splice (bm.blocks id) offset data) := by
  unfold writePartialBlock
  rw [if_neg (by simp [BlockManager.fails, hbm]), dif_pos ⟨hid, h⟩]
  exact ⟨_, rfl, hbm, rfl⟩

theorem zeroBlock_apply (h : id < cnt + logCnt) :
    zeroBlock id bm = some (.ok (), bm.setBlock id (List.replicate sz 0) List.length_replicate) :=
  if_pos h

end Chfs.Block.Manager
