import Chfs.Fs.Inode

/-! `FileOperation` (`filesystem/data_op.cc`, `filesystem/control_op.cc`): files
in the blocks of a device. The value of `time(0)` is an argument. -/

namespace Chfs.Fs.Operations

open Lib.Effect Lib.Bytes Block.Manager Block.Allocator Inode

structure FileOperation where
  inodeManager : InodeManager
  blockAllocator : BlockAllocator
  deriving DecidableEq, Repr

variable {sz cnt logCnt : ℕ}

/-- `SuperBlockInternal`. Padding and the file system size, which nothing sets
or reads, are given as zero. -/
def superBlock (sz cnt ninodes : ℕ) : List UInt8 :=
  leBytes 8 sz ++ leBytes 8 cnt ++ leBytes 8 ninodes ++ leBytes 8 0

def FileOperation.fields (sz cnt n : ℕ) : FileOperation where
  inodeManager := InodeManager.fields sz n
  blockAllocator := BlockAllocator.fields sz cnt (InodeManager.fields sz n).reservedBlocks

def FileOperation.create (maxInodeSupported : ℕ) : Bm sz cnt logCnt FileOperation := do
  let im ← InodeManager.create maxInodeSupported
  let a ← BlockAllocator.create im.reservedBlocks true
  require (32 ≤ sz)
  writePartialBlock 0 (superBlock sz cnt im.maxInodeSupported) 0
  pure ⟨im, a⟩

def newInode (sz type now : ℕ) : List UInt8 :=
  setField (setField (setAllTime (setField (List.replicate sz 0) 0 4 type) now) 36 4 sz) 40 4
    ((sz - sizeofInode) / sizeofBlockId)

def FileOperation.allocInode (fo : FileOperation) (type now : ℕ) : Bm sz cnt logCnt ℕ := do
  let bid ← fo.blockAllocator.allocate
  let id ← fo.inodeManager.allocateInode bid
  writeBlock bid (newInode sz type now)
  pure id

def FileOperation.getattr (fo : FileOperation) (id : ℕ) : Bm sz cnt logCnt FileAttr :=
  fo.inodeManager.getAttr id

def FileOperation.gettype (fo : FileOperation) (id : ℕ) : Bm sz cnt logCnt ℕ :=
  fo.inodeManager.getType id

def FileOperation.getTypeAttr (fo : FileOperation) (id : ℕ) : Bm sz cnt logCnt (ℕ × FileAttr) :=
  fo.inodeManager.getTypeAttr id

def calculateBlockSz (fileSz blockSz : ℕ) : ℕ :=
  if fileSz % blockSz ≠ 0 then fileSz / blockSz + 1 else fileSz / blockSz

/-- `get_or_insert_indirect_block` and the indirect block, read at its first
use. The id is set in the inode. -/
def FileOperation.getOrInsertIndirect (fo : FileOperation) (inode : List UInt8) :
    Option (List UInt8) → Bm sz cnt logCnt (List UInt8 × List UInt8)
  | some buf => pure (inode, buf)
  | none => do
    let slot := getNblocks inode - 1
    if getBlock inode slot = invalidBlockId then
      let bid ← fo.blockAllocator.allocate
      let buf ← readBlock bid
      pure (setBlockDirect inode slot bid, buf)
    else
      let buf ← readBlock (getBlock inode slot)
      pure (inode, buf)

def loadIndirect (inode : List UInt8) : Option (List UInt8) → Bm sz cnt logCnt (List UInt8)
  | some buf => pure buf
  | none => do
    require (getBlock inode (getNblocks inode - 1) ≠ invalidBlockId)
    readBlock (getBlock inode (getNblocks inode - 1))

def indirectEntry (inode buf : List UInt8) (idx : ℕ) : ℕ :=
  getField buf (sizeofBlockId * (idx - getDirectBlockNum inode)) sizeofBlockId

def setIndirectEntry (inode buf : List UInt8) (idx bid : ℕ) : List UInt8 :=
  setField buf (sizeofBlockId * (idx - getDirectBlockNum inode)) sizeofBlockId bid

/-- `write_file` allocates the blocks `idx, idx + 1, ..`. The second component
is the indirect block once it has been read. -/
def FileOperation.grow (fo : FileOperation) : ℕ → ℕ → List UInt8 → Option (List UInt8) →
    Bm sz cnt logCnt (List UInt8 × Option (List UInt8))
  | 0, _, inode, indirect => pure (inode, indirect)
  | k + 1, idx, inode, indirect => do
    let blockId ← fo.blockAllocator.allocate
    if isDirectBlock inode idx then
      fo.grow k (idx + 1) (setBlockDirect inode idx blockId) indirect
    else
      let (inode, buf) ← fo.getOrInsertIndirect inode indirect
      fo.grow k (idx + 1) inode (some (setIndirectEntry inode buf idx blockId))

def FileOperation.shrink (fo : FileOperation) : ℕ → ℕ → List UInt8 → Option (List UInt8) →
    Bm sz cnt logCnt (List UInt8 × Option (List UInt8))
  | 0, _, inode, indirect => pure (inode, indirect)
  | k + 1, idx, inode, indirect => do
    if isDirectBlock inode idx then
      fo.blockAllocator.deallocate (getBlock inode idx)
      fo.shrink k (idx + 1) (setBlockDirect inode idx invalidBlockId) indirect
    else
      let buf ← loadIndirect inode indirect
      fo.blockAllocator.deallocate (indirectEntry inode buf idx)
      fo.shrink k (idx + 1) inode (some (setIndirectEntry inode buf idx 0))

def chunk (sz : ℕ) (content : List UInt8) (idx : ℕ) : List UInt8 :=
  slice content (idx * sz) sz ++ List.replicate (sz - (slice content (idx * sz) sz).length) 0

def writeContent (inode content : List UInt8) : ℕ → ℕ → Option (List UInt8) →
    Bm sz cnt logCnt (Option (List UInt8))
  | 0, _, indirect => pure indirect
  | k + 1, idx, indirect => do
    if isDirectBlock inode idx then
      ignore (writeBlock (getBlock inode idx) (chunk sz content idx))
      writeContent inode content k (idx + 1) indirect
    else
      let buf ← loadIndirect inode indirect
      ignore (writeBlock (indirectEntry inode buf idx) (chunk sz content idx))
      writeContent inode content k (idx + 1) (some buf)

def FileOperation.fitBlocks (fo : FileOperation) (inode : List UInt8) (oldBlockNum newBlockNum : ℕ) :
    Bm sz cnt logCnt (List UInt8 × Option (List UInt8)) := do
  if oldBlockNum < newBlockNum then
    fo.grow (newBlockNum - oldBlockNum) oldBlockNum inode none
  else
    let (inode, indirect) ← fo.shrink (oldBlockNum - newBlockNum) newBlockNum inode none
    if getDirectBlockNum inode < oldBlockNum ∧ newBlockNum ≤ getDirectBlockNum inode then
      require (getBlock inode (getNblocks inode - 1) ≠ invalidBlockId)
      fo.blockAllocator.deallocate (getBlock inode (getNblocks inode - 1))
      pure (setBlockDirect inode (getNblocks inode - 1) invalidBlockId, none)
    else pure (inode, indirect)

def writeBack (blockId : ℕ) (inode : List UInt8) (indirect : Option (List UInt8)) :
    Bm sz cnt logCnt Unit := do
  writeBlock blockId inode
  match indirect with
  | none => pure ()
  | some buf =>
    if getBlock inode (getNblocks inode - 1) = invalidBlockId then refuse .invalidArg
    else writeBlock (getBlock inode (getNblocks inode - 1)) buf

def FileOperation.writeFile (fo : FileOperation) (id : ℕ) (content : List UInt8) (now : ℕ) :
    Bm sz cnt logCnt Unit := do
  let (blockId, inode) ← fo.inodeManager.readInode id
  if maxFileSzSupported inode < content.length then refuse .outOfResource else
    let oldBlockNum := calculateBlockSz (getSize inode) sz % 2 ^ 32
    let newBlockNum := calculateBlockSz content.length sz % 2 ^ 32
    let (inode, indirect) ← fo.fitBlocks inode oldBlockNum newBlockNum
    let inode := setSize inode content.length
    let indirect ← writeContent inode content (calculateBlockSz content.length sz) 0 indirect
    writeBack blockId (setAllTime inode now) indirect

def readContent (inode : List UInt8) : ℕ → ℕ → Option (List UInt8) → Bm sz cnt logCnt (List UInt8)
  | 0, _, _ => pure []
  | k + 1, idx, indirect => do
    if isDirectBlock inode idx then
      let buffer ← readBlock (getBlock inode idx)
      let rest ← readContent inode k (idx + 1) indirect
      pure (buffer.take (getSize inode - idx * sz) ++ rest)
    else
      let buf ← loadIndirect inode indirect
      let buffer ← readBlock (indirectEntry inode buf idx)
      let rest ← readContent inode k (idx + 1) (some buf)
      pure (buffer.take (getSize inode - idx * sz) ++ rest)

def FileOperation.readFile (fo : FileOperation) (id : ℕ) : Bm sz cnt logCnt (List UInt8) := do
  let (_, inode) ← fo.inodeManager.readInode id
  readContent inode (calculateBlockSz (getSize inode) sz) 0 none

def resized (content : List UInt8) (n : ℕ) : List UInt8 :=
  content.take n ++ List.replicate (n - content.length) 0

/-- `write_file_w_off`; `offset + sz` is computed on 64 bits. -/
def FileOperation.writeFileWOff (fo : FileOperation) (id : ℕ) (data : List UInt8) (offset now : ℕ) :
    Bm sz cnt logCnt ℕ := do
  let content ← fo.readFile id
  let content := if content.length < (offset + data.length) % 2 ^ 64
    then resized content ((offset + data.length) % 2 ^ 64) else content
  require (offset + data.length ≤ content.length)
  fo.writeFile id (splice content offset data) now
  pure data.length

def FileOperation.readFileWOff (fo : FileOperation) (id n offset : ℕ) :
    Bm sz cnt logCnt (List UInt8) := do
  let content ← fo.readFile id
  require (offset + n ≤ content.length)
  pure (slice content offset n)

def FileOperation.resize (fo : FileOperation) (id n now : ℕ) : Bm sz cnt logCnt FileAttr := do
  let attr ← fo.inodeManager.getAttr id
  let content ← fo.readFile id
  if content.length ≠ n then
    fo.writeFile id (resized content n) now
  pure { attr with size := n }

def directBlocks (inode : List UInt8) : ℕ → ℕ → List ℕ
  | 0, _ => []
  | k + 1, i => if getBlock inode i = invalidBlockId then []
    else getBlock inode i :: directBlocks inode k (i + 1)

def FileOperation.deallocateAll (fo : FileOperation) : List ℕ → Bm sz cnt logCnt Unit
  | [] => pure ()
  | bid :: rest => do
    fo.blockAllocator.deallocate bid
    fo.deallocateAll rest

/-- `remove_file`. The indirect block is read into a vector without elements,
through a null pointer. -/
def FileOperation.removeFile (fo : FileOperation) (id : ℕ) : Bm sz cnt logCnt Unit := do
  let (blockId, inode) ← fo.inodeManager.readInode id
  let freeSet := directBlocks inode (getDirectBlockNum inode) 0
  require (getBlock inode (getDirectBlockNum inode) = invalidBlockId)
  fo.inodeManager.freeInode id
  fo.deallocateAll (freeSet ++ [blockId])

def FileOperation.getFreeBlocksNum (fo : FileOperation) : Bm sz cnt logCnt ℕ :=
  fo.blockAllocator.freeBlockCnt

def FileOperation.getFreeInodeNum (fo : FileOperation) : Bm sz cnt logCnt ℕ :=
  fo.inodeManager.freeInodeCnt

end Chfs.Fs.Operations
