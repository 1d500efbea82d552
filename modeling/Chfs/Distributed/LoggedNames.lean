import Chfs.Distributed.LogImage
import Chfs.Distributed.Names

/-! `mknode` and `unlink` of a metadata server with a log
(`distributed/metadata_server.cc`). The file system works on the blocks of the
device; where it would leave them for the log behind, the request is undefined. -/

namespace Chfs.Distributed.LoggedNames

open Lib.Effect Block.Manager Fs.Inode Fs.Operations Fs.Directory Logging LogImage

variable {cnt : ℕ} {α : Type}

def home (cl : CommitLog cnt) : BlockManager 4096 cnt 0 where
  blocks := cl.bm.blocks
  maybeFailed := cl.bm.maybeFailed
  writeFailCnt := cl.bm.writeFailCnt
  length_blocks := cl.bm.length_blocks

def withHome (cl : CommitLog cnt) (s : BlockManager 4096 cnt 0) : CommitLog cnt :=
  { cl with
    bm :=
      { blocks := fun id => if id < cnt then s.blocks id else cl.bm.blocks id
        maybeFailed := s.maybeFailed
        writeFailCnt := s.writeFailCnt
        length_blocks := by
          intro id
          split
          · exact s.length_blocks id
          · exact cl.bm.length_blocks id } }

/-- Whether the log blocks that a call of the log asks for are there, and the
entry of its transaction is inside the superblock. -/
def Finds (cl : CommitLog cnt) : Call → Prop
  | .allocTxn _ => (findFreeLogBlock (cl.log 0)).isSome = true ∧ txnOffset cl.maxTxnId + 3 < 4096
  | .appendLog txnId ops => (findFreeLogBlocks ops.length (cl.log 0)).isSome = true ∧ txnOffset txnId + 3 < 4096
  | .commitLog txnId => txnOffset txnId + 3 < 4096

instance (cl : CommitLog cnt) (c : Call) : Decidable (Finds cl c) := by
  cases c <;> unfold Finds <;> infer_instance

/-- A program of the server. Its only error is a call for which the log has no
room. -/
abbrev Sv (cnt : ℕ) (α : Type) : Type := Op (CommitLog cnt) Call α

def issue (c : Call) : Sv cnt Unit := fun cl =>
  if Finds cl c then (call cl c).map fun cl' => (.ok (), cl') else some (.error c, cl)

def begin (operation : ServerOperation) : Sv cnt ℕ := do
  let txnId ← fun cl => some (.ok cl.maxTxnId, cl)
  issue (.allocTxn operation)
  pure txnId

def onHome (x : Bm 4096 cnt 0 α) : Sv cnt (Except ErrorType α) := fun cl =>
  (x (home cl)).map fun out => (.ok out.1, withHome cl out.2)

def unwrap : Except ErrorType α → Sv cnt α
  | .ok a => pure a
  | .error _ => undefined

/-- The present state of a block, as it is logged. -/
def image (id : ℕ) : Sv cnt BlockOperation := fun cl =>
  if id < cnt + logBlockCnt then some (.ok ⟨UInt64.ofNat id, cl.bm.blocks id, cl.bm.length_blocks id⟩, cl)
  else none

def inodeOps (fo : FileOperation) (inodeId : ℕ) : Sv cnt (List BlockOperation) := do
  let blockBitmap ← image (1 + fo.inodeManager.nTableBlocks + fo.inodeManager.nBitmapBlocks)
  let inodeBitmap ← image (1 + fo.inodeManager.nTableBlocks)
  let inodeTable ← image (1 + (inodeId - 1) / (4096 / sizeofBlockId))
  let inodeBlockId ← unwrap (← onHome (fo.inodeManager.get inodeId))
  let inode ← image inodeBlockId
  pure [blockBitmap, inodeBitmap, inodeTable, inode]

def parentOps (fo : FileOperation) (parent : ℕ) : Sv cnt (List BlockOperation) := do
  let parentBlockId ← unwrap (← onHome (fo.inodeManager.get parent))
  let inode ← image parentBlockId
  pure [inode]

def finish (fo : FileOperation) (txnId parent : ℕ) (content : List UInt8) (now : ℕ) : Sv cnt Bool := do
  let writeDirRes ← onHome (fo.writeFile parent content now)
  issue (.appendLog txnId (← parentOps fo parent))
  match writeDirRes with
  | .error _ => pure false
  | .ok _ =>
    issue (.commitLog txnId)
    pure true

def mknode (fo : FileOperation) (type : UInt8) (parent : UInt64) (name : List UInt8) (now now' : ℕ) :
    Sv cnt ℕ := do
  let txnId ← begin ⟨type, parent, name⟩
  let dirContent ← unwrap (← onHome (Names.readdir fo parent.toNat))
  if dirContent.any (·.name = name) then pure 0 else
    match ← onHome (fo.allocInode type.toNat now) with
    | .error _ => pure 0
    | .ok newInodeId =>
      issue (.appendLog txnId (← inodeOps fo newInodeId))
      if ← finish fo txnId parent.toNat (dirListToString (dirContent ++ [⟨name, newInodeId⟩])) now' then
        pure newInodeId
      else pure 0

/-- `unlink`. It logs under the type 0. -/
def unlink (fo : FileOperation) (parent : UInt64) (name : List UInt8) (now : ℕ) : Sv cnt Bool := do
  let txnId ← begin ⟨0, parent, name⟩
  let dirContent ← unwrap (← onHome (Names.readdir fo parent.toNat))
  let inodeId ← unwrap (← onHome (Names.lookup fo parent.toNat name))
  if inodeId = 0 then pure false else
    match ← onHome (fo.removeFile inodeId) with
    | .error _ => pure false
    | .ok _ =>
      issue (.appendLog txnId (← inodeOps fo inodeId))
      match dirContent.findIdx? (·.id = inodeId) with
      | none => undefined
      | some contentPos => finish fo txnId parent.toNat (dirListToString (dirContent.eraseIdx contentPos)) now

inductive Request
  | mknode (type : UInt8) (parent : UInt64) (name : List UInt8) (now now' : ℕ)
  | unlink (parent : UInt64) (name : List UInt8) (now : ℕ)

def serve (fo : FileOperation) : Request → Sv cnt Unit
  | .mknode type parent name now now' => do
    let _ ← mknode fo type parent name now now'
    pure ()
  | .unlink parent name now => do
    let _ ← unlink fo parent name now
    pure ()

def step (fo : FileOperation) (cl : CommitLog cnt) (q : Request) : Option (CommitLog cnt) :=
  match serve fo q cl with
  | some (.ok _, cl') => some cl'
  | _ => none

end Chfs.Distributed.LoggedNames
