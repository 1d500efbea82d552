import Chfs.Fs.Attributes
import Chfs.Fs.Orphans
import Chfs.Fs.Volumes

/-! The FUSE handlers of `daemons/single_node_fs/main.cc`, and how the device
stores the file system that its user sees. -/

namespace Chfs.Fs.Daemon

open Lib.Effect Lib.Bytes Lib.Tree Lib.Run Block.Manager Block.Allocator Inode Operations Files Growth Writing
  Removal Contents Directory Naming Attributes Volumes

variable {sz cnt logCnt : ℕ}

def toSigned (n : ℕ) : ℤ := Int.bmod n (2 ^ 64)

/-- `Result::unwrap`, which throws on an error. -/
def unwrap {α : Type} (x : Bm sz cnt logCnt α) : Bm sz cnt logCnt α := fun s => do
  match ← x s with
  | (.ok a, t) => some (.ok a, t)
  | (.error _, _) => none

def getattrHelper (type : ℕ) (attr : FileAttr) : Bm sz cnt logCnt Stat :=
  if type = 1 then
    pure ⟨0o100666, 1, toSigned attr.atime, toSigned attr.mtime, toSigned attr.ctime, toSigned attr.size⟩
  else if type = 2 then
    pure ⟨0o040777, 1 + 1, toSigned attr.atime, toSigned attr.mtime, toSigned attr.ctime, toSigned attr.size⟩
  else undefined

def replyStat (fs : FileOperation) (ino : ℕ) (code : ℤ) (reply : Stat → Reply) : Bm sz cnt logCnt Reply := do
  match ← attempt (fs.getTypeAttr ino) with
  | .error _ => pure (.err code)
  | .ok (type, attr) =>
    let st ← getattrHelper type attr
    pure (reply st)

def chfsGetattr (fs : FileOperation) (ino : ℕ) : Bm sz cnt logCnt Reply := replyStat fs ino enoent .attr

/-- `std::string::c_str` ends before the first NUL. -/
def cStr (name : List UInt8) : List UInt8 := name.takeWhile (· ≠ 0)

def DirectoryBuf.add (d : Direntry) (p : List UInt8) (e : DirectoryEntry) : List UInt8 :=
  p ++ d.encode (cStr e.name) e.id (p.length + d.size (cStr e.name))

def replyBufLimited (p : List UInt8) (off maxsize : ℕ) : Reply :=
  if off < p.length then .buf (slice p off (min (p.length - off) maxsize)) else .buf []

def chfsReaddir (d : Direntry) (fs : FileOperation) (ino size off : ℕ) : Bm sz cnt logCnt Reply := do
  let type ← unwrap (fs.gettype ino)
  if type ≠ 2 then pure (.err enotdir) else
    match ← attempt (readDirectory fs ino) with
    | .error _ => pure (.err (-1))
    | .ok list => pure (replyBufLimited (list.foldl (DirectoryBuf.add d) []) off size)

/-- Offsets are not negative. -/
def chfsRead (fs : FileOperation) (ino size off : ℕ) : Bm sz cnt logCnt Reply := do
  match ← attempt (fs.getTypeAttr ino) with
  | .error _ => pure (.err (-1))
  | .ok (type, attr) =>
    let st ← getattrHelper type attr
    if st.size ≤ off then pure (.buf []) else
      let readSize := if st.size < toSigned (off + size) then (st.size - off).toNat else size
      match ← attempt (fs.readFileWOff ino readSize off) with
      | .error _ => pure (.err (-1))
      | .ok data => pure (.buf (data.take readSize))

def replyMade (fs : FileOperation) (made : Bm sz cnt logCnt ℕ) (code : ℤ) : Bm sz cnt logCnt Reply := do
  match ← attempt made with
  | .ok ino => replyStat fs ino (-1) (.entry ino)
  | .error .alreadyExist => pure (.err eexist)
  | .error _ => pure (.err code)

def chfsMknod (fs : FileOperation) (parent : ℕ) (name : List UInt8) (now now' : ℕ) : Bm sz cnt logCnt Reply :=
  replyMade fs (Orphans.mkfile fs parent name now now') enoent

def chfsMkdir (fs : FileOperation) (parent : ℕ) (name : List UInt8) (now now' : ℕ) : Bm sz cnt logCnt Reply :=
  replyMade fs (Orphans.mkdir fs parent name now now') enosys

def chfsUnlink (fs : FileOperation) (parent : ℕ) (name : List UInt8) (now : ℕ) : Bm sz cnt logCnt Reply := do
  match ← attempt (Directory.unlink fs parent name now) with
  | .ok _ => pure (.err 0)
  | .error .notExist => pure (.err enoent)
  | .error .notEmpty => pure (.err enotempty)
  | .error _ => pure (.err enosys)

/-- Whatever is to be set, the size is. -/
def chfsSetattr (fs : FileOperation) (ino size now : ℕ) : Bm sz cnt logCnt Reply := do
  match ← attempt (fs.resize ino size now) with
  | .error _ => pure (.err enosys)
  | .ok _ => replyStat fs ino (-1) .attr

def chfsWrite (fs : FileOperation) (ino : ℕ) (data : List UInt8) (off now : ℕ) : Bm sz cnt logCnt Reply := do
  match ← attempt (fs.writeFileWOff ino data off now) with
  | .ok count => pure (.written count)
  | .error .outOfResource =>
    let _ ← unwrap fs.getFreeBlocksNum
    pure (.err enosys)
  | .error _ => undefined

def chfsLookup (fs : FileOperation) (parent : ℕ) (name : List UInt8) : Bm sz cnt logCnt Reply := do
  match ← attempt (readDirectory fs parent) with
  | .error _ => pure (.err (-1))
  | .ok list =>
    match find list name with
    | some e => replyStat fs e.id (-1) (.entry e.id)
    | none => pure (.err enoent)

/-- The handlers that are registered. Those without an implementation abort. -/
def serve (d : Direntry) (fs : FileOperation) : Request → Bm sz cnt logCnt Reply
  | .getattr ino => chfsGetattr fs ino
  | .lookup parent name => chfsLookup fs parent name
  | .readdir ino size off => chfsReaddir d fs ino size off
  | .read ino size off => chfsRead fs ino size off
  | .mknod parent name now now' => chfsMknod fs parent name now now'
  | .mkdir parent name now now' => chfsMkdir fs parent name now now'
  | .unlink parent name now => chfsUnlink fs parent name now
  | .setattr ino size now => chfsSetattr fs ino size now
  | .openFile _ => pure .opened
  | .write ino data off now => chfsWrite fs ino data off now
  | .readlink _ | .rmdir .. | .symlink .. | .rename .. | .link .. | .statfs _ => undefined

def bootstrapFuse (maxInodeSupported now : ℕ) : Bm sz cnt logCnt FileOperation := do
  let fs ← FileOperation.create maxInodeSupported
  let id ← unwrap (fs.allocInode 2 now)
  require (id = 1)
  pure fs

def nodeOf (type : ℕ) (attr : FileAttr) (text : List UInt8) : Option Node :=
  if type = 1 then some ⟨.file text, attr.mtime⟩
  else if type = 2 then (parseDirectory text).map fun es => ⟨.directory es, attr.mtime⟩
  else none

def volume (fo : FileOperation) (s : BlockManager sz cnt logCnt) : Volume := fun id =>
  if id = invalidInodeId then none else
    match fo.getTypeAttr id s, fo.readFile id s with
    | some (.ok (type, attr), _), some (.ok text, _) => nodeOf type attr text
    | _, _ => none

def disk (fo : FileOperation) (s : BlockManager sz cnt logCnt) : Disk := ⟨volume fo s, (freeBlocks fo s).card⟩

/-- An inode and a content show the node. -/
structure Depicts (inode content : List UInt8) (node : Node) : Prop where
  stamped : Stamped inode node.body.type node.time
  text : content = node.body.text
  time : node.time < 2 ^ 63

/-- The files of a device are the nodes of a disk. Those in `others` are empty
there, and their inodes are `raw`. -/
structure StoresBut (fo : FileOperation) (others : Set ℕ) (raw : ℕ → List UInt8) (s : BlockManager sz cnt logCnt)
    (files : ℕ → Option File) (x : Disk) : Prop where
  inv : InvBut fo others s files
  node : ∀ id f, files id = some f → ∃ node, x.volume id = some node ∧ Depicts (s.blocks f.inode) f.content node
  dead : ∀ id, files id = none → x.volume id = none
  bound : ∀ id f, files id = some f → id < fo.inodeManager.maxInodeSupported - 1
  free : (freeBlocks fo s).card = x.free
  kept : ∀ id ∈ others, ∃ b, files id = some ⟨b, [], invalidBlockId, []⟩ ∧ s.blocks b = raw id

abbrev Stores (fo : FileOperation) (s : BlockManager sz cnt logCnt) (files : ℕ → Option File) (x : Disk) : Prop :=
  StoresBut fo ∅ (fun _ => []) s files x

theorem toSigned_of_lt {n : ℕ} (h : n < 2 ^ 63) : toSigned n = n := by
  unfold toSigned
  rw [Int.bmod_eq_of_le] <;> omega

theorem unwrap_apply {α : Type} {x : Bm sz cnt logCnt α} {a : α} {s t : BlockManager sz cnt logCnt}
    (hx : x s = some (.ok a, t)) : unwrap x s = some (.ok a, t) := by
  unfold unwrap
  rw [hx]
  rfl

theorem unwrap_error {α : Type} {x : Bm sz cnt logCnt α} {e : ErrorType} {s t : BlockManager sz cnt logCnt}
    (hx : x s = some (.error e, t)) : unwrap x s = none := by
  unfold unwrap
  rw [hx]
  rfl

theorem of_unwrap {α : Type} {x : Bm sz cnt logCnt α} {a : α} {s t : BlockManager sz cnt logCnt}
    (h : unwrap x s = some (.ok a, t)) : x s = some (.ok a, t) := by
  obtain ⟨⟨r, t'⟩, hx, hrest⟩ := Option.bind_eq_some_iff.mp h
  cases r with
  | ok a' =>
    cases hrest
    exact hx
  | error e => cases hrest

theorem cStr_eq {name : List UInt8} (h : ValidName name) : cStr name = name := by
  unfold cStr
  rw [List.takeWhile_eq_self_iff]
  rintro c hc
  rw [decide_eq_true_iff]
  rintro rfl
  exact h.nul hc

theorem foldl_add (d : Direntry) (p : List UInt8) {es : List DirectoryEntry} (hnames : ∀ e ∈ es, ValidName e.name) :
    es.foldl (DirectoryBuf.add d) p = p ++ d.listing p.length es := by
  induction es generalizing p with
  | nil => rw [List.foldl_nil, Direntry.listing, List.append_nil]
  | cons e es ih =>
    have hname := cStr_eq (hnames e List.mem_cons_self)
    rw [List.foldl_cons, ih _ fun x hx => hnames x (List.mem_cons_of_mem e hx), DirectoryBuf.add, hname,
      List.length_append, d.length_encode, Direntry.listing, List.append_assoc]

theorem replyBufLimited_eq (p : List UInt8) (off maxsize : ℕ) :
    replyBufLimited p off maxsize = .buf (slice p off maxsize) := by
  unfold replyBufLimited slice
  split
  case isTrue =>
    rw [← List.length_drop, Nat.min_comm, ← List.take_take, List.take_length]
  case isFalse hge => rw [List.drop_of_length_le (by omega), List.take_nil]

theorem getattrHelper_node {node : Node} (htime : node.time < 2 ^ 63) (hlen : node.body.text.length < 2 ^ 63) :
    (getattrHelper node.body.type ⟨node.time, node.time, node.time, node.body.text.length⟩ :
      Bm sz cnt logCnt Stat) = pure node.stat := by
  have htime' := toSigned_of_lt htime
  have hlen' := toSigned_of_lt hlen
  unfold getattrHelper
  simp only
  rw [htime', hlen']
  obtain ⟨body, time⟩ := node
  cases body <;> rfl

section Stores

variable {fo : FileOperation} (hl : Layout fo sz cnt) {s t : BlockManager sz cnt logCnt} {others : Set ℕ}
  {raw : ℕ → List UInt8} {files : ℕ → Option File} {x : Disk} {id p time now : ℕ} {node : Node}
  {es : List DirectoryEntry}
  {content : List UInt8} {f g : File} {name : List UInt8} {e : DirectoryEntry}

theorem StoresBut.exists_file (h : StoresBut fo others raw s files x) (hv : x.volume id = some node) :
    ∃ f, files id = some f ∧ Depicts (s.blocks f.inode) f.content node := by
  cases hf : files id with
  | none => cases hv.symm.trans (h.dead id hf)
  | some f =>
    obtain ⟨node', hv', hd⟩ := h.node id f hf
    cases hv.symm.trans hv'
    exact ⟨f, rfl, hd⟩

theorem StoresBut.file_none (h : StoresBut fo others raw s files x) (hv : x.volume id = none) : files id = none := by
  cases hf : files id with
  | none => rfl
  | some f =>
    obtain ⟨node, hv', -⟩ := h.node id f hf
    cases hv.symm.trans hv'

theorem StoresBut.id_pos (h : StoresBut fo others raw s files x) (hv : x.volume id = some node) : 1 ≤ id := by
  obtain ⟨f, hf, -⟩ := h.exists_file hv
  exact (h.inv.valid id f hf).1

include hl

theorem StoresBut.length_lt (h : StoresBut fo others raw s files x) (hp : id ∉ others) (hv : x.volume id = some node) :
    node.body.text.length < 2 ^ 63 := by
  obtain ⟨f, hf, hd⟩ := h.exists_file hv
  have hhold := h.inv.holds id f hf hp
  have hge := hl.size.ge
  have hlt := hl.size.lt
  have hnum := (calculateBlockSz_spec (n := f.content.length) (by omega : 0 < sz)).1
  have hmax : maxBlocks sz ≤ sz / 2 := by
    unfold maxBlocks directNum sizeofBlockId
    omega
  rw [← hd.text]
  calc f.content.length ≤ maxBlocks sz * sz := by
        rw [← hhold.count] at hnum
        exact hnum.trans (Nat.mul_le_mul_right _ hhold.le)
    _ ≤ sz / 2 * sz := Nat.mul_le_mul_right _ hmax
    _ < 2 ^ 31 * 2 ^ 32 := Nat.mul_lt_mul_of_le_of_lt (by omega) hlt (by decide)
    _ = 2 ^ 63 := by decide

theorem StoresBut.getTypeAttr (h : StoresBut fo others raw s files x) (hp : id ∉ others)
    (hv : x.volume id = some node) :
    fo.getTypeAttr id s =
      some (.ok (node.body.type, ⟨node.time, node.time, node.time, node.body.text.length⟩), s) := by
  obtain ⟨f, hf, hd⟩ := h.exists_file hv
  rw [getTypeAttr_some hl h.inv hf (h.bound id f hf), hd.stamped.innerAttr, hd.stamped.type_eq,
    (h.inv.holds id f hf hp).size, hd.text]

theorem StoresBut.gettype (h : StoresBut fo others raw s files x) (hv : x.volume id = some node) :
    fo.gettype id s = some (.ok node.body.type, s) := by
  obtain ⟨f, hf, hd⟩ := h.exists_file hv
  unfold FileOperation.gettype InodeManager.getType
  rw [bind_ok (h.inv.readInode_some hl hf (h.bound id f hf)), ← hd.stamped.type_eq]
  rfl

theorem StoresBut.getTypeAttr_none (h : StoresBut fo others raw s files x) (hid : id ≠ 0) (hv : x.volume id = none) :
    fo.getTypeAttr id s = some (.error .invalidArg, s) :=
  Attributes.getTypeAttr_none hl h.inv (by omega) (Or.inl (h.file_none hv))

theorem StoresBut.readFile (h : StoresBut fo others raw s files x) (hp : id ∉ others) (hv : x.volume id = some node) :
    fo.readFile id s = some (.ok node.body.text, s) := by
  obtain ⟨f, hf, hd⟩ := h.exists_file hv
  rw [h.inv.readFile_some hl hf hp (h.bound id f hf), hd.text]

theorem StoresBut.readFileWOff (h : StoresBut fo others raw s files x) (hp : id ∉ others)
    (hv : x.volume id = some node) {k off : ℕ} (hk : off + k ≤ node.body.text.length) :
    fo.readFileWOff id k off s = some (.ok (slice node.body.text off k), s) := by
  unfold FileOperation.readFileWOff
  rw [bind_ok (h.readFile hl hp hv), require_of hk]
  rfl

omit hl in
theorem named_of_ne (s : BlockManager sz cnt logCnt) (hid : id ≠ 0) : Named s id := Or.inl hid

theorem StoresBut.readFile_none (h : StoresBut fo others raw s files x) (hid : id ≠ 0) (hv : x.volume id = none) :
    fo.readFile id s = some (.error .invalidArg, s) :=
  h.inv.readFile_none hl (named_of_ne s hid) (Or.inl (h.file_none hv))

theorem StoresBut.id_lt (h : StoresBut fo others raw s files x) (hw : WellFormed x.volume)
    (he : e ∈ entries x.volume p) : e.id < 2 ^ 64 := by
  obtain ⟨node, hnode⟩ := Option.ne_none_iff_exists'.mp (hw.linked.target p e he)
  obtain ⟨f, hf, -⟩ := h.exists_file hnode
  exact Nat.lt_of_le_of_lt (h.inv.valid _ f hf).2 hl.inodes.max_lt

theorem StoresBut.parse (h : StoresBut fo others raw s files x) (hw : WellFormed x.volume)
    (hv : x.volume p = some ⟨.directory es, time⟩) : parseDirectory (dirListToString es) = some es := by
  have hes := entries_of hv
  exact parseDirectory_dirListToString (fun e he => (hw.named p e (hes ▸ he)).slash)
    (fun e he => (hw.named p e (hes ▸ he)).colon) fun e he => h.id_lt hl hw (hes ▸ he)

theorem StoresBut.readDirectory (h : StoresBut fo others raw s files x) (hw : WellFormed x.volume) (hp : p ∉ others)
    (hv : x.volume p = some ⟨.directory es, time⟩) : readDirectory fo p s = some (.ok es, s) := by
  unfold Directory.readDirectory
  rw [bind_ok (h.readFile hl hp hv), parsed, Body.text, h.parse hl hw hv]
  rfl

theorem StoresBut.readDirectory_none (h : StoresBut fo others raw s files x) (hid : p ≠ 0) (hv : x.volume p = none) :
    Directory.readDirectory fo p s = some (.error .invalidArg, s) :=
  bind_error (h.readFile_none hl hid hv)

theorem StoresBut.getattrHelper (h : Stores fo s files x) (hv : x.volume id = some node) :
    (getattrHelper node.body.type ⟨node.time, node.time, node.time, node.body.text.length⟩ :
      Bm sz cnt logCnt Stat) = pure node.stat := by
  obtain ⟨f, hf, hd⟩ := h.exists_file hv
  exact getattrHelper_node hd.time (h.length_lt hl (Set.notMem_empty _) hv)

theorem StoresBut.replyStat (h : Stores fo s files x) (hv : x.volume id = some node) (code : ℤ) (reply : Stat → Reply) :
    replyStat fo id code reply s = some (.ok (reply node.stat), s) := by
  unfold Daemon.replyStat
  rw [bind_ok (attempt_apply (h.getTypeAttr hl (Set.notMem_empty _) hv))]
  simp only
  rw [h.getattrHelper hl hv]
  rfl

theorem StoresBut.leak (h : StoresBut fo others raw s files x) (hk : Leaks fo s t) :
    StoresBut fo others raw t files ⟨x.volume, (freeBlocks fo t).card⟩ where
  inv := leaks_inv hk h.inv hl
  node id f hf := by
    rw [inode_of_leaks h.inv hk hf]
    exact h.node id f hf
  dead := h.dead
  bound := h.bound
  free := rfl
  kept id hid := by
    obtain ⟨b, hf, hraw⟩ := h.kept id hid
    exact ⟨b, hf, (inode_of_leaks h.inv hk hf).trans hraw⟩

theorem StoresBut.put (h : StoresBut fo others raw s files x) (hp : id ∉ others) (hid : fo.inodeManager.Valid id)
    (hlt : id < fo.inodeManager.maxInodeSupported - 1) (hr : Replaces fo s t id (files id) (some g)) {body : Body}
    (hd : Depicts (t.blocks g.inode) g.content ⟨body, time⟩) :
    StoresBut fo others raw t (Function.update files id (some g))
      ⟨put x.volume id body time, (freeBlocks fo t).card⟩ where
  inv := hr.inv h.inv hl hid
  node y f hf := by
    simp only [Volumes.put]
    by_cases hy : y = id
    · rw [hy, Function.update_self] at hf
      cases hf
      rw [hy, Function.update_self]
      exact ⟨_, rfl, hd⟩
    · rw [Function.update_of_ne hy] at hf
      rw [Function.update_of_ne hy, inode_of_replaces h.inv hr hf hy]
      exact h.node y f hf
  dead y hy := by
    simp only [Volumes.put]
    by_cases heq : y = id
    · rw [heq, Function.update_self] at hy
      cases hy
    · rw [Function.update_of_ne heq] at hy
      rw [Function.update_of_ne heq, h.dead y hy]
  bound y f hf := by
    by_cases hy : y = id
    · exact hy ▸ hlt
    · rw [Function.update_of_ne hy] at hf
      exact h.bound y f hf
  free := rfl
  kept y hy := by
    obtain ⟨b, hf, hraw⟩ := h.kept y hy
    have hne : y ≠ id := fun heq => hp (heq ▸ hy)
    exact ⟨b, (Function.update_of_ne hne ..).trans hf, (inode_of_replaces h.inv hr hf hne).trans hraw⟩

theorem StoresBut.delete (h : StoresBut fo others raw s files x) (hid : fo.inodeManager.Valid id)
    (hr : Replaces fo s t id (files id) none) : StoresBut fo (others \ {id}) raw t (Function.update files id none)
      ⟨Function.update x.volume id none, (freeBlocks fo t).card⟩ where
  inv := inv_forget (hr.inv h.inv hl hid) fun y hy hnot => by
    obtain rfl : y = id := by_contra fun hne => hnot ⟨hy, hne⟩
    exact Function.update_self ..
  node y f hf := by
    simp only
    by_cases hy : y = id
    · rw [hy, Function.update_self] at hf
      cases hf
    · rw [Function.update_of_ne hy] at hf
      rw [Function.update_of_ne hy, inode_of_replaces h.inv hr hf hy]
      exact h.node y f hf
  dead y hy := by
    simp only
    by_cases heq : y = id
    · rw [heq, Function.update_self]
    · rw [Function.update_of_ne heq] at hy
      rw [Function.update_of_ne heq, h.dead y hy]
  bound y f hf := by
    by_cases hy : y = id
    · rw [hy, Function.update_self] at hf
      cases hf
    · rw [Function.update_of_ne hy] at hf
      exact h.bound y f hf
  free := rfl
  kept y hy := by
    obtain ⟨hy, hne⟩ := hy
    obtain ⟨b, hf, hraw⟩ := h.kept y hy
    exact ⟨b, (Function.update_of_ne hne ..).trans hf, (inode_of_replaces h.inv hr hf hne).trans hraw⟩

end Stores

section Counting

variable {fo : FileOperation} {s t : BlockManager sz cnt logCnt} {others : Set ℕ} {files : ℕ → Option File} {x : Disk}
  {id time now : ℕ} {f : File} {new : Option File}

theorem length_owned {B : ℕ → List UInt8} (h : Holds sz B f) : f.owned.length = blockCount sz f.content.length := by
  have hcount := h.count
  have hindirect := h.indirect
  unfold File.owned blocksOf blockCount
  rw [List.length_cons, List.length_append, hcount]
  by_cases hi : f.indirect = invalidBlockId
  · rw [if_pos hi, if_neg (by have := hindirect.mp hi; omega), List.length_nil]
    omega
  · rw [if_neg hi, if_pos (by rw [hindirect] at hi; omega), List.length_singleton]

/-- The blocks of a file that is replaced become free, and those of the new one
are taken from the free ones. -/
theorem card_of_replaces (h : InvBut fo others s files) (hr : Replaces fo s t id (files id) new) :
    (freeBlocks fo t).card + (ownedOf new).length = (freeBlocks fo s).card + (ownedOf (files id)).length := by
  have hnodup : (ownedOf (files id)).Nodup := by
    cases hf : files id with
    | none => exact List.nodup_nil
    | some f => exact h.nodup id f hf
  have hdisj : Disjoint (freeBlocks fo s) (ownedOf (files id)).toFinset := by
    rw [Finset.disjoint_left]
    intro b hb hown
    have hused := (owned_data h id b (List.mem_toFinset.mp hown)).2.2
    rw [(mem_freeBlocks.mp hb).2] at hused
    cases hused
  have hsub : (ownedOf new).toFinset ⊆ freeBlocks fo s ∪ (ownedOf (files id)).toFinset := by
    intro b hb
    obtain ⟨-, hlt, hold | hfree⟩ := hr.data b (List.mem_toFinset.mp hb)
    · exact Finset.mem_union_right _ (List.mem_toFinset.mpr hold)
    · exact Finset.mem_union_left _ (mem_freeBlocks.mpr ⟨hlt, hfree⟩)
  have hfree : freeBlocks fo t = (freeBlocks fo s ∪ (ownedOf (files id)).toFinset) \ (ownedOf new).toFinset := by
    ext b
    rw [Finset.mem_sdiff, Finset.mem_union, mem_freeBlocks, mem_freeBlocks, List.mem_toFinset, List.mem_toFinset]
    by_cases hlt : b < cnt
    · rw [hr.bits b hlt]
      by_cases hnew : b ∈ ownedOf new
      · simp [hnew]
      · by_cases hold : b ∈ ownedOf (files id)
        · simp [hnew, hold, hlt]
        · simp [hnew, hold]
    · refine iff_of_false (fun hb => hlt hb.1) fun hb => ?_
      obtain hb | hb := hb.1
      · exact hlt hb.1
      · exact hlt (owned_data h id b hb).2.1
  rw [hfree, ← List.toFinset_card_of_nodup hr.nodup, Finset.card_sdiff_add_card_eq_card hsub,
    Finset.card_union_of_disjoint hdisj, List.toFinset_card_of_nodup hnodup]

end Counting

end Chfs.Fs.Daemon
