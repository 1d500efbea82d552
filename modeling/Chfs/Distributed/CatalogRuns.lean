import Chfs.Distributed.Catalogs
import Chfs.Distributed.FailedCreates
import Chfs.Distributed.Names
import Chfs.Fs.Serving
import Chfs.Lib.Server

namespace Chfs.Distributed.CatalogRuns

open Lib.Effect Lib.Bytes Lib.Tree Lib.Server Block.Manager Block.Allocator Fs.Inode Fs.Operations Fs.Files Fs.Growth
  Fs.Writing Fs.Removal Fs.Contents Fs.Directory Fs.Attributes Fs.Storage BlockMap DataServer Requests Catalogs
open Fs.Volumes (Body Node Volume Disk put live entries makeNode removeNode freeId IsFile IsDirectory)
open Fs.Daemon (StoresBut Depicts)

variable {logCnt : ℕ}

def getTypeAttr (fo : FileOperation) (id : ℕ) : Bm 4096 4096 logCnt Reply := do
  match ← attempt (fo.getTypeAttr id) with
  | .error _ => pure (.attr 0 0 0 0 0)
  | .ok (type, fillAttr) => pure (.attr fillAttr.size fillAttr.atime fillAttr.mtime fillAttr.ctime type)

def serve (ms : MetadataServer) : Catalogs.Request → Cl logCnt Reply
  | .mknode type parent name now now' => do
    let id ← onDevice (Names.mknode operation type parent name now now')
    pure (.id id)
  | .unlink parent name now => do
    let success ← onDevice (Names.unlink operation parent name now)
    pure (.done success)
  | .lookup parent name => do
    let id ← onDevice (Names.lookup operation parent name)
    pure (.id id)
  | .readdir node => do
    let es ← onDevice (Names.readdir operation node)
    pure (.listing es)
  | .getTypeAttr id => onDevice (getTypeAttr operation id)
  | .getBlockMap id => do
    let l ← ms.getBlockMap id
    pure (.blockMap l)
  | .allocateBlock id generatedId now => do
    let info ← ms.allocateBlock id generatedId now
    pure (.info info)
  | .freeBlock id blockId machineId now => do
    let success ← ms.freeBlock id blockId machineId now
    pure (.done success)
  | .readData machineId blockId offset len version => do
    let bytes ← call machineId (readData blockId offset len version)
    pure (.data bytes)
  | .writeData machineId blockId offset buffer => do
    let success ← call machineId (writeData blockId offset buffer)
    pure (.done success)

/-- The inode of a file with a block map. -/
structure Mapped (inode : List UInt8) (l : List BlockInfo) : Prop where
  type : getType inode = 1
  maps : Maps inode l
  slot : getBlock inode (directNum 4096) = invalidBlockId

/-- The device and the data servers are those of a catalog. The inodes in
`others` may have had blocks. -/
structure Keeps (others : Set ℕ) (raw : ℕ → List UInt8) (c : Cluster logCnt) (files : ℕ → Option File) (x : Catalog) :
    Prop where
  stores : StoresBut operation others raw c.device files x.disk
  servers : c.servers = x.servers
  mapped : ∀ id ∈ others, Mapped (raw id) (x.maps id)
  unmapped : ∀ id ∉ others, x.maps id = []

section Records

variable {inode : List UInt8} {l : List BlockInfo} {info : BlockInfo} {pos now time : ℕ}

theorem moveDown_header {inode₀ : List UInt8} (h : SameHeader inode₀ inode) (k i : ℕ) :
    SameHeader inode₀ (moveDown inode k i) := by
  induction k generalizing inode i with
  | zero => exact h
  | succ k ih => exact ih ((h.setBlockDirect _ _).setBlockDirect _ _) (i + 1)

theorem stamped_stamp {inode' : List UInt8} (h : SameHeader inode inode') {type : ℕ} (htype : getType inode = type)
    (size : ℕ) (hnow : now < 2 ^ 63) : Stamped (setAllTime (setSize inode' size) now) type now := by
  obtain ⟨htype', hlen⟩ := getType_setSize size h.1
  have hstamped := stamped_setAllTime hlen (by omega : now < 2 ^ 64)
  rw [htype', h.type_eq, htype] at hstamped
  exact hstamped

theorem length_header (h : Shape 4096 inode) : sizeofInode ≤ inode.length := by
  rw [h.length]
  decide

theorem record_stamped (h : Maps inode l) {type : ℕ} (htype : getType inode = type) (hnow : now < 2 ^ 63) :
    Stamped (record inode info now) type now := by
  have hheader := ((SameHeader.refl (length_header h.shape)).setBlockDirect (2 * blockCnt inode)
    info.blockId).setBlockDirect (2 * blockCnt inode + 1) (mixedId info)
  exact stamped_stamp hheader htype _ hnow

theorem dropEntry_stamped (h : Maps inode l) {type : ℕ} (htype : getType inode = type) (hnow : now < 2 ^ 63) :
    Stamped (dropEntry inode pos now) type now := by
  have hheader := ((SameHeader.refl (length_header h.shape)).setBlockDirect (2 * pos + 1) 0).setBlockDirect (2 * pos) 0
  exact stamped_stamp (moveDown_header hheader _ _) htype _ hnow

theorem record_slot (h : Maps inode l) (hlt : l.length < 252) (hfits : Fits info) (now : ℕ) :
    getBlock (record inode info now) (directNum 4096) = getBlock inode (directNum 4096) := by
  have hnum : directNum 4096 = 505 := by decide
  obtain ⟨hs₁, hsize₁, hget₁⟩ := setSlot_spec h.shape (by omega : 2 * l.length ≤ 505) hfits.blockId
  obtain ⟨hs₂, hsize₂, hget₂⟩ := setSlot_spec hs₁ (by omega : 2 * l.length + 1 ≤ 505) (mixedId_lt hfits)
  unfold record
  rw [h.blockCnt]
  simp only
  rw [hsize₂, hsize₁, h.size, hnum]
  obtain ⟨-, -, hget⟩ := stamp_spec hs₂ (by omega : l.length * 4096 + 4096 < 2 ^ 64) now
  rw [hget, hget₂, if_neg (by omega), hget₁, if_neg (by omega)]

theorem dropEntry_slot (h : Maps inode l) (hpos : pos < l.length) (hle : l.length ≤ 252) (now : ℕ) :
    getBlock (dropEntry inode pos now) (directNum 4096) = getBlock inode (directNum 4096) := by
  have hnum : directNum 4096 = 505 := by decide
  obtain ⟨hs₁, hsize₁, hget₁⟩ := setSlot_spec h.shape (by omega : 2 * pos + 1 ≤ 505) (by decide : 0 < 2 ^ 64)
  obtain ⟨hs₂, hsize₂, hget₂⟩ := setSlot_spec hs₁ (by omega : 2 * pos ≤ 505) (by decide : 0 < 2 ^ 64)
  obtain ⟨hs₃, hsize₃, hget₃⟩ := moveDown_spec hs₂ (by omega : 1 ≤ pos + 1)
    (by omega : pos + 1 + (l.length - (pos + 1)) ≤ 253)
  unfold dropEntry
  rw [h.blockCnt]
  simp only
  rw [hsize₃, hsize₂, hsize₁, h.size, hnum]
  obtain ⟨-, -, hget⟩ := stamp_spec hs₃
    (Nat.mod_lt _ (by decide) : (l.length * 4096 + (2 ^ 64 - 4096)) % 2 ^ 64 < 2 ^ 64) now
  rw [hget, hget₃, if_neg (by omega), hget₂, if_neg (by omega), hget₁, if_neg (by omega)]

end Records

section Keeps

variable {ms : MetadataServer} {others others' : Set ℕ} {raw : ℕ → List UInt8} {c : Cluster logCnt}
  {files files' : ℕ → Option File} {x : Catalog} {id p now time b : ℕ} {content inode : List UInt8}
  {f : File} {l : List BlockInfo}

theorem mapped_of_holds {B : ℕ → List UInt8} (h : Holds 4096 B f) (hnil : f.content = [])
    (htype : getType (B f.inode) = 1) : f = ⟨f.inode, [], invalidBlockId, []⟩ ∧ Mapped (B f.inode) [] := by
  have hcount := h.count
  rw [hnil] at hcount
  have hblocks : f.blocks = [] := List.length_eq_zero_iff.mp hcount
  have hindirect : f.indirect = invalidBlockId := h.indirect.mpr (by rw [hblocks]; exact Nat.zero_le _)
  have hsize := h.size
  rw [hnil] at hsize
  refine ⟨?_, htype, ⟨h.shape, hsize, by decide, nofun, nofun, fun _ =>
    h.lists.rest 0 (by rw [hblocks]; exact Nat.le_refl 0) (by decide)⟩, h.slot.trans hindirect⟩
  obtain ⟨i, blocks, indirect, content⟩ := f
  obtain rfl : blocks = [] := hblocks
  obtain rfl : indirect = invalidBlockId := hindirect
  obtain rfl : content = [] := hnil
  rfl

theorem Keeps.exists_mapped (h : Keeps others raw c files x) (hw : WellFormed ms x)
    (hv : x.disk.volume id = some ⟨.file content, time⟩) : ∃ b, files id = some ⟨b, [], invalidBlockId, []⟩ ∧
      Stamped (c.device.blocks b) 1 time ∧ Mapped (c.device.blocks b) (x.maps id) := by
  obtain rfl := hw.empty id content time hv
  obtain ⟨f, hf, hd⟩ := h.stores.exists_file hv
  by_cases hid : id ∈ others
  · obtain ⟨b, hf', hraw⟩ := h.stores.kept id hid
    cases hf.symm.trans hf'
    exact ⟨b, hf, hd.stamped, hraw.symm ▸ h.mapped id hid⟩
  · rw [h.unmapped id hid]
    obtain ⟨hfile, hmapped⟩ := mapped_of_holds (h.stores.inv.holds id f hf hid) hd.text hd.stamped.type_eq
    exact ⟨f.inode, hfile ▸ hf, hd.stamped, hmapped⟩

theorem Keeps.located (h : Keeps others raw c files x) (hf : files id = some f) :
    Located c.device {id} fun _ => f.inode where
  works := h.stores.inv.works
  lt := by
    rintro _ rfl
    exact ⟨(h.stores.inv.valid _ f hf).1, h.stores.bound _ f hf⟩
  entry := by
    rintro _ rfl
    rw [h.stores.inv.entry _ (h.stores.inv.valid _ f hf), hf]
    rfl
  data := by
    rintro _ rfl
    obtain ⟨h1, h2, -⟩ := h.stores.inv.data _ f hf f.inode List.mem_cons_self
    exact ⟨h1, h2⟩
  distinct := by
    rintro _ rfl _ rfl _
    rfl

theorem Keeps.not_mem (h : Keeps others raw c files x) {es : List DirectoryEntry}
    (hv : x.disk.volume p = some ⟨.directory es, time⟩) : p ∉ others := by
  intro hp
  obtain ⟨b, hf, hraw⟩ := h.stores.kept p hp
  obtain ⟨node, hnode, hd⟩ := h.stores.node p _ hf
  cases hv.symm.trans hnode
  have htype := hd.stamped.type_eq
  simp only at htype
  rw [hraw, (h.mapped p hp).type] at htype
  cases htype

theorem Keeps.withDisk (h : Keeps others raw c files x) {t : BlockManager 4096 4096 logCnt} {y : Disk}
    (hstores : StoresBut operation others' raw t files' y) (hsub : others' ⊆ others)
    (hgone : ∀ id ∈ others, id ∉ others' → x.maps id = []) :
    Keeps others' raw { c with device := t } files' { x with disk := y } where
  stores := hstores
  servers := h.servers
  mapped id hid := h.mapped id (hsub hid)
  unmapped id hid := by
    by_cases hmem : id ∈ others
    · exact hgone id hmem hid
    · exact h.unmapped id hmem

theorem used_setBlock {d : BlockManager 4096 4096 logCnt} {i : ℕ} (hb : dataStart operation ≤ b)
    (hlen : inode.length = 4096) (hi : i < 4096) :
    operation.blockAllocator.used (d.setBlock b inode hlen) i = operation.blockAllocator.used d i := by
  have hbitmap := layout.bitmap
  refine layout.used_congr (fun y _ hy => ?_) hi
  rw [setBlock_blocks, Function.update_of_ne (by omega)]

theorem Keeps.remap (h : Keeps others raw c files x) (hf : files id = some ⟨b, [], invalidBlockId, []⟩)
    (hmapped : Mapped inode l) (hlen : inode.length = 4096) (hstamped : Stamped inode 1 now) (hnow : now < 2 ^ 63)
    (servers : ℕ → Server) : Keeps (insert id others) (Function.update raw id inode)
      ⟨c.device.setBlock b inode hlen, servers⟩ files (x.remap id l now servers) := by
  have hinv := FailedCreates.inv_rewritten layout h.stores.inv hf hlen
  rw [← hf, Function.update_eq_self] at hinv
  have hdata := (h.stores.inv.data id _ hf b List.mem_cons_self).1
  have hself : (c.device.setBlock b inode hlen).blocks b = inode := by
    rw [setBlock_blocks, Function.update_self]
  have hother : ∀ i g, i ≠ id → files i = some g →
      (c.device.setBlock b inode hlen).blocks g.inode = c.device.blocks g.inode := by
    intro i g hi hg
    rw [setBlock_blocks, Function.update_of_ne]
    intro heq
    exact h.stores.inv.disjoint i id g _ hg hf hi List.mem_cons_self (heq ▸ List.mem_cons_self)
  have hfree : freeBlocks operation (c.device.setBlock b inode hlen) = freeBlocks operation c.device := by
    ext i
    rw [mem_freeBlocks, mem_freeBlocks]
    exact and_congr_right fun hi => by rw [used_setBlock hdata hlen hi]
  constructor
  case stores =>
    constructor
    case inv => exact hinv
    case node =>
      intro i g hg
      by_cases hi : i = id
      · rw [hi] at hg
        cases hf.symm.trans hg
        refine ⟨⟨.file [], now⟩, ?_, ?_, rfl, hnow⟩
        · rw [hi]
          exact Function.update_self ..
        · simp only
          rw [hself]
          exact hstamped
      · obtain ⟨node, hnode, hd⟩ := h.stores.node i g hg
        refine ⟨node, (Function.update_of_ne hi ..).trans hnode, ?_⟩
        simp only
        rw [hother i g hi hg]
        exact hd
    case dead =>
      intro i hi
      have hne : i ≠ id := by
        rintro rfl
        cases hi.symm.trans hf
      exact (Function.update_of_ne hne ..).trans (h.stores.dead i hi)
    case bound => exact h.stores.bound
    case free =>
      simp only
      rw [hfree, h.stores.free]
      rfl
    case kept =>
      intro i hi
      by_cases heq : i = id
      · exact ⟨b, heq ▸ hf, by rw [heq, Function.update_self]; exact hself⟩
      · obtain ⟨b', hf', hraw⟩ := h.stores.kept i ((Set.mem_insert_iff.mp hi).resolve_left heq)
        exact ⟨b', hf', by rw [Function.update_of_ne heq]; exact (hother i _ heq hf').trans hraw⟩
  case servers => rfl
  case mapped =>
    intro i hi
    simp only [Catalog.remap]
    by_cases heq : i = id
    · rw [heq, Function.update_self, Function.update_self]
      exact hmapped
    · rw [Function.update_of_ne heq, Function.update_of_ne heq]
      exact h.mapped i ((Set.mem_insert_iff.mp hi).resolve_left heq)
  case unmapped =>
    intro i hi
    obtain ⟨hne, hi⟩ := not_or.mp hi
    simp only [Catalog.remap]
    rw [Function.update_of_ne hne]
    exact h.unmapped i hi

end Keeps

/-- The servers do with a request what the catalog says. -/
def Answers (ms : MetadataServer) (c : Cluster logCnt) (q : Catalogs.Request) : Option (Reply × Catalog) → Prop
  | none => serve ms q c = none
  | some (reply, y) => ∃ c' others raw files, serve ms q c = some (.ok reply, c') ∧ Keeps others raw c' files y

section Handlers

variable {ms : MetadataServer} {others : Set ℕ} {raw : ℕ → List UInt8} {c : Cluster logCnt}
  {files : ℕ → Option File} {x : Catalog} {q : Catalogs.Request} {id p now : ℕ} {name : List UInt8}

theorem onDevice_apply {α : Type} {call : Bm 4096 4096 logCnt α} {r : Except ErrorType α}
    {t : BlockManager 4096 4096 logCnt} (h : call c.device = some (r, t)) :
    onDevice call c = some (r, { c with device := t }) := onPart_apply h

theorem onDevice_none {α : Type} {call : Bm 4096 4096 logCnt α} (h : call c.device = none) :
    onDevice call c = none := by
  change Option.map _ (call c.device) = none
  rw [h]
  rfl

theorem answers_of_run (h : Keeps others raw c files x) {reply : Reply} (hrun : serve ms q c = some (.ok reply, c)) :
    Answers ms c q (some (reply, x)) := ⟨c, others, raw, files, hrun, h⟩

theorem Keeps.readdir (h : Keeps others raw c files x) (hw : WellFormed ms x) (hp : p ≠ 0)
    (hdir : ¬ IsFile x.disk.volume p) :
    Names.readdir operation p c.device = some (.ok (entries x.disk.volume p), c.device) := by
  unfold Names.readdir
  cases hv : x.disk.volume p with
  | none =>
    rw [bind_ok (attempt_apply (h.stores.readFile_none layout hp hv)), Fs.Volumes.entries_none hv]
    rfl
  | some node =>
    obtain ⟨_ | es, time⟩ := node
    · exact absurd ⟨_, _, hv⟩ hdir
    have hread : operation.readFile p c.device = some (.ok (dirListToString es), c.device) :=
      h.stores.readFile layout (h.not_mem hv) hv
    rw [bind_ok (attempt_apply hread), Fs.Volumes.entries_of hv]
    simp only
    rw [parsed, h.stores.parse layout hw.tree hv]
    rfl

theorem Keeps.lookup (h : Keeps others raw c files x) (hw : WellFormed ms x) (hp : p ≠ 0)
    (hdir : ¬ IsFile x.disk.volume p) (hname : ValidName name) : Names.lookup operation p name c.device =
      some (.ok (((find (entries x.disk.volume p) name).map Entry.id).getD 0), c.device) := by
  unfold Names.lookup
  rw [Names.cStr_eq hname]
  cases hv : x.disk.volume p with
  | none =>
    have hlook : Fs.Directory.lookup operation p name c.device = some (.error .invalidArg, c.device) :=
      bind_error (h.stores.readDirectory_none layout hp hv)
    rw [bind_ok (attempt_apply hlook), Fs.Volumes.entries_none hv]
    rfl
  | some node =>
    obtain ⟨_ | es, time⟩ := node
    · exact absurd ⟨_, _, hv⟩ hdir
    have hread := h.stores.readDirectory layout hw.tree (h.not_mem hv) hv
    rw [Fs.Volumes.entries_of hv]
    cases hfind : find es name with
    | none =>
      have hlook : Fs.Directory.lookup operation p name c.device = some (.error .notExist, c.device) := by
        unfold Fs.Directory.lookup
        rw [bind_ok hread, hfind]
        rfl
      rw [bind_ok (attempt_apply hlook)]
      rfl
    | some e =>
      have hlook : Fs.Directory.lookup operation p name c.device = some (.ok e.id, c.device) := by
        unfold Fs.Directory.lookup
        rw [bind_ok hread, hfind]
        rfl
      rw [bind_ok (attempt_apply hlook)]
      rfl

theorem readdir_answers (h : Keeps others raw c files x) (hw : WellFormed ms x) (hp : p ≠ 0)
    (hdir : ¬ IsFile x.disk.volume p) :
    Answers ms c (.readdir p) (some (.listing (entries x.disk.volume p), x)) := by
  have hrun := onDevice_apply (h.readdir hw hp hdir)
  exact answers_of_run h (bind_ok hrun)

theorem lookup_answers (h : Keeps others raw c files x) (hw : WellFormed ms x) (hp : p ≠ 0)
    (hdir : ¬ IsFile x.disk.volume p) (hname : ValidName name) : Answers ms c (.lookup p name)
      (some (.id (((find (entries x.disk.volume p) name).map Entry.id).getD 0), x)) := by
  have hrun := onDevice_apply (h.lookup hw hp hdir hname)
  exact answers_of_run h (bind_ok hrun)

theorem mknode_eq {s : BlockManager 4096 4096 logCnt} {es : List DirectoryEntry}
    (hread : Names.readdir operation p s = some (.ok es, s))
    (hread' : readDirectory operation p s = some (.ok es, s)) (name : List UInt8) (type now now' : ℕ) :
    Names.mknode operation type p name now now' s =
      outcome Names.idOf (mkHelper operation p name type now now') s := by
  unfold Names.mknode
  rw [bind_ok hread]
  by_cases hany : es.any (·.name = name) = true
  · have hrun : mkHelper operation p name type now now' s = some (.error .alreadyExist, s) := by
      unfold mkHelper
      rw [bind_ok hread', if_pos hany, refuse_apply]
    rw [if_pos hany, outcome_apply hrun]
    rfl
  · rw [if_neg hany, outcome, mkHelper, bind_ok hread', if_neg hany]
    refine attempt_bind s (fun id t _ => ?_) fun _ => rfl
    exact attempt_bind t (fun _ _ _ => rfl) fun _ => rfl

theorem mknode_answers (h : Keeps others raw c files x) (hw : WellFormed ms x) {type now' : ℕ}
    (htype : type = 1 ∨ type = 2) (hdir : IsDirectory x.disk.volume p) (hnow : now < 2 ^ 63) (hnow' : now' < 2 ^ 63)
    (hfree : freeId (idLimit operation) x.disk.volume ≠ none) : Answers ms c (.mknode type p name now now')
      (act ms (idLimit operation) x (.mknode type p name now now')) := by
  obtain ⟨es, time, hv⟩ := hdir
  have hp : p ≠ 0 := by
    have := h.stores.id_pos hv
    omega
  have hbody : nodeBody type = .file [] ∨ nodeBody type = .directory [] := by
    obtain rfl | rfl := htype
    · exact Or.inl rfl
    · exact Or.inr rfl
  have htype' : (nodeBody type).type = type := by
    obtain rfl | rfl := htype <;> rfl
  obtain ⟨r, t, files', hrun, hstores, hreply⟩ := mkHelper_makes layout h.stores hw.tree (h.not_mem hv) hv hbody
    hnow hnow' hfree name 0
  rw [htype'] at hrun
  have hread := h.readdir hw hp fun hfile => not_isDirectory hfile ⟨es, time, hv⟩
  rw [Fs.Volumes.entries_of hv] at hread
  have hmade := mknode_eq hread (h.stores.readDirectory layout hw.tree (h.not_mem hv) hv) name type now now'
  rw [outcome_apply hrun] at hmade
  have hid : Names.idOf r = madeId (makeNode 4096 (idLimit operation) x.disk p name (nodeBody type) now now' 0).1 := by
    cases r with
    | ok id =>
      rw [hreply.1]
      rfl
    | error e =>
      have herr := hreply
      simp only at herr
      rw [herr]
      rfl
  refine ⟨_, others, raw, files', ?_, h.withDisk hstores subset_rfl fun i hi hnot => absurd hi hnot⟩
  rw [← hid]
  exact bind_ok (onDevice_apply hmade)

theorem Keeps.unlink_eq (h : Keeps others raw c files x) (hw : WellFormed ms x) {es : List DirectoryEntry} {time : ℕ}
    (hv : x.disk.volume p = some ⟨.directory es, time⟩) (hname : ValidName name) (now : ℕ) :
    Names.unlink operation p name now c.device =
      outcome (·.isOk) (Fs.Directory.unlink operation p name now) c.device := by
  have hp : p ≠ 0 := by
    have := h.stores.id_pos hv
    omega
  have hdir : ¬ IsFile x.disk.volume p := fun hfile => not_isDirectory hfile ⟨es, time, hv⟩
  have hread := h.stores.readDirectory layout hw.tree (h.not_mem hv) hv
  have hread' := h.readdir hw hp hdir
  have hlook' := h.lookup hw hp hdir hname
  rw [Fs.Volumes.entries_of hv] at hread' hlook'
  unfold Names.unlink
  rw [bind_ok hread', bind_ok hlook']
  cases he : find es name with
  | none =>
    have hlook : Fs.Directory.lookup operation p name c.device = some (.error .notExist, c.device) := by
      unfold Fs.Directory.lookup
      rw [bind_ok hread, he]
      rfl
    have hrun : Fs.Directory.unlink operation p name now c.device = some (.error .notExist, c.device) := by
      unfold Fs.Directory.unlink
      rw [bind_ok hread, bind_error hlook]
    rw [outcome_apply hrun]
    rfl
  | some e =>
    have hlook : Fs.Directory.lookup operation p name c.device = some (.ok e.id, c.device) := by
      unfold Fs.Directory.lookup
      rw [bind_ok hread, he]
      rfl
    have hmem : e ∈ entries x.disk.volume p := Fs.Volumes.entries_of hv ▸ (find_eq_some he).1
    obtain ⟨node, hnode⟩ := Option.ne_none_iff_exists'.mp (hw.tree.linked.target p e hmem)
    have hid := h.stores.id_pos hnode
    obtain ⟨i, hi, herase⟩ := hw.tree.linked.exists_findIdx hmem
    have hfilter := hw.tree.linked.filter_eq_erase hmem
    rw [Fs.Volumes.entries_of hv] at hi herase hfilter
    simp only [Option.map_some, Option.getD_some]
    rw [if_neg (by omega), outcome, Fs.Directory.unlink, bind_ok hread, bind_ok hlook]
    refine attempt_bind c.device (fun _ t _ => ?_) fun _ => rfl
    simp only
    rw [hi]
    simp only
    rw [herase, hfilter]
    refine attempt_bind_pure t fun r => ?_
    cases r <;> rfl

theorem Mapped.bare {inode : List UInt8} (h : Mapped inode []) : Bare 4096 inode :=
  ⟨h.maps.shape, h.maps.first rfl, h.slot⟩

theorem unlink_answers (h : Keeps others raw c files x) (hw : WellFormed ms x) (hp : p ≠ 0)
    (hdir : ¬ IsFile x.disk.volume p) (hname : ValidName name) (hnow : now < 2 ^ 63)
    (hmaps : ∀ e ∈ find (entries x.disk.volume p) name, x.maps e.id = []) {limit : ℕ} :
    Answers ms c (.unlink p name now) (act ms limit x (.unlink p name now)) := by
  change Answers ms c _ (Option.map _ _)
  unfold removeNode
  cases hv : x.disk.volume p with
  | none =>
    have hread := h.readdir hw hp hdir
    have hlook := h.lookup hw hp hdir hname
    rw [Fs.Volumes.entries_none hv] at hread hlook
    have hrun : Names.unlink operation p name now c.device = some (.ok false, c.device) := by
      unfold Names.unlink
      rw [bind_ok hread, bind_ok hlook]
      rfl
    exact answers_of_run h (bind_ok (onDevice_apply hrun))
  | some node =>
    obtain ⟨_ | es, time⟩ := node
    · exact absurd ⟨_, _, hv⟩ hdir
    have hunlink := h.unlink_eq hw hv hname now
    have hread := h.stores.readDirectory layout hw.tree (h.not_mem hv) hv
    rw [Fs.Volumes.entries_of hv] at hmaps
    simp only
    cases he : find es name with
    | none =>
      have hlook : Fs.Directory.lookup operation p name c.device = some (.error .notExist, c.device) := by
        unfold Fs.Directory.lookup
        rw [bind_ok hread, he]
        rfl
      have hrun : Fs.Directory.unlink operation p name now c.device = some (.error .notExist, c.device) := by
        unfold Fs.Directory.unlink
        rw [bind_ok hread, bind_error hlook]
      rw [outcome_apply hrun] at hunlink
      exact answers_of_run h (bind_ok (onDevice_apply hunlink))
    | some e =>
      have hmem : e ∈ entries x.disk.volume p := Fs.Volumes.entries_of hv ▸ (find_eq_some he).1
      obtain ⟨node, hnode⟩ := Option.ne_none_iff_exists'.mp (hw.tree.linked.target p e hmem)
      have hnil : x.maps e.id = [] := hmaps e he
      have hbare : e.id ∈ others → Bare 4096 (raw e.id) := fun hid => by
        have hmapped := h.mapped e.id hid
        rw [hnil] at hmapped
        exact hmapped.bare
      have hstores := unlink_stores layout h.stores hw.tree (h.not_mem hv) hv he hnode hbare hnow
      simp only
      rw [hnode]
      simp only
      split at hstores
      case isTrue hlarge =>
        rw [if_pos hlarge]
        have hnone : Names.unlink operation p name now c.device = none := by
          rw [hunlink]
          unfold outcome
          rw [hstores]
          rfl
        exact bind_none (onDevice_none hnone)
      case isFalse hsmall =>
        obtain ⟨t, files', hrun, hstores⟩ := hstores
        rw [if_neg hsmall]
        rw [outcome_apply hrun] at hunlink
        refine ⟨_, others \ {e.id}, raw, files', bind_ok (onDevice_apply hunlink), ?_⟩
        refine h.withDisk hstores Set.sdiff_subset fun id hid hnot => ?_
        obtain rfl : id = e.id := by_contra fun hne => hnot ⟨hid, hne⟩
        exact hnil

theorem getTypeAttr_answers (h : Keeps others raw c files x) (hw : WellFormed ms x) (hid : id ≠ 0) :
    Answers ms c (.getTypeAttr id) (some (attrReply x id, x)) := by
  have hreply : ∀ {type : ℕ} {attr : FileAttr},
      operation.getTypeAttr id c.device = some (.ok (type, attr), c.device) →
      getTypeAttr operation id c.device =
        some (.ok (.attr attr.size attr.atime attr.mtime attr.ctime type), c.device) := by
    intro type attr hattr
    unfold getTypeAttr
    rw [bind_ok (attempt_apply hattr)]
    rfl
  unfold attrReply
  cases hv : x.disk.volume id with
  | none =>
    have hrun : getTypeAttr operation id c.device = some (.ok (.attr 0 0 0 0 0), c.device) := by
      unfold getTypeAttr
      rw [bind_ok (attempt_apply (h.stores.getTypeAttr_none layout hid hv))]
      rfl
    exact answers_of_run h (onDevice_apply hrun)
  | some node =>
    obtain ⟨content | es, time⟩ := node
    · obtain ⟨b, hf, hstamped, hmapped⟩ := h.exists_mapped hw hv
      have hattr := getTypeAttr_some layout h.stores.inv hf (h.stores.bound id _ hf)
      rw [hstamped.innerAttr, hstamped.type_eq, hmapped.maps.size] at hattr
      exact answers_of_run h (onDevice_apply (hreply hattr))
    · have hattr := h.stores.getTypeAttr layout (h.not_mem hv) hv
      exact answers_of_run h (onDevice_apply (hreply hattr))

theorem Keeps.readInode_none (h : Keeps others raw c files x) (hid : id ≠ 0) (hv : x.disk.volume id = none) :
    onDevice (attempt (operation.inodeManager.readInode id)) c = some (.ok (.error .invalidArg), c) :=
  onDevice_apply (attempt_apply
    (h.stores.inv.readInode_none layout (by omega) (Or.inl (h.stores.file_none hv))))

theorem isFile_of_not {v : Volume} (hdir : ¬ IsDirectory v id) {node : Node} (hv : v id = some node) :
    ∃ content time, v id = some ⟨.file content, time⟩ := by
  obtain ⟨content | es, time⟩ := node
  · exact ⟨content, time, hv⟩
  · exact absurd ⟨es, time, hv⟩ hdir

theorem getBlockMap_answers (h : Keeps others raw c files x) (hw : WellFormed ms x) (hid : id ≠ 0)
    (hdir : ¬ IsDirectory x.disk.volume id) :
    Answers ms c (.getBlockMap id) (some (.blockMap ((x.maps id).map trimmed), x)) := by
  cases hv : x.disk.volume id with
  | none =>
    have hnil : x.maps id = [] := hw.maps_nil fun hfile => ne_none_of_isFile hfile hv
    have hrun : ms.getBlockMap id c = some (.ok [], c) := by
      unfold MetadataServer.getBlockMap
      rw [bind_ok (h.readInode_none hid hv)]
      rfl
    rw [hnil]
    exact answers_of_run h (bind_ok hrun)
  | some node =>
    obtain ⟨content, time, hv⟩ := isFile_of_not hdir hv
    obtain ⟨b, hf, -, hmapped⟩ := h.exists_mapped hw hv
    have hrun : ms.getBlockMap id c = some (.ok ((x.maps id).map trimmed), c) :=
      getBlockMap_eq (h.located hf) (Set.mem_singleton id) hmapped.maps
    exact answers_of_run h (bind_ok hrun)

/-- The loop of `allocate_block` ends at the chosen data server. -/
theorem probe_eq (hw : ∀ m, (c.servers m).maybeFailed = false) (g k i : ℕ) : ms.probe g k i c =
    ((List.range' i k).findSome? fun j =>
      (findFree ((c.servers (ms.curId g j)).blocks 0) 4095 1).map fun b => (ms.curId g j, b)).map fun (m, b) =>
        (.ok ⟨b, m, (version (c.servers m) b + 1).toNat⟩, granted c m b) := by
  induction k generalizing i with
  | zero => rfl
  | succ k ih =>
    rw [MetadataServer.probe, List.range'_succ, List.findSome?_cons]
    cases hfree : findFree ((c.servers (ms.curId g i)).blocks 0) 4095 1 with
    | none =>
      rw [bind_ok (call_full (hw _) hfree)]
      exact ih (i + 1)
    | some b =>
      have hb := (findFree_some hfree).1
      rw [bind_ok (call_free (hw _) hfree)]
      simp only
      rw [if_neg (by omega)]
      rfl

theorem allocateBlock_answers (h : Keeps others raw c files x) (hw : WellFormed ms x) (hid : id ≠ 0)
    (hdir : ¬ IsDirectory x.disk.volume id) (hlen : (x.maps id).length < 252) (hnow : now < 2 ^ 63)
    (generatedId : ℕ) :
    Answers ms c (.allocateBlock id generatedId now) (addBlock ms x id generatedId now) := by
  unfold addBlock
  cases hv : x.disk.volume id with
  | none =>
    have hrun : ms.allocateBlock id generatedId now c = some (.ok ⟨0, 0, 0⟩, c) := by
      unfold MetadataServer.allocateBlock
      rw [bind_ok (h.readInode_none hid hv)]
      rfl
    exact answers_of_run h (bind_ok hrun)
  | some node =>
    obtain ⟨content, time, hv⟩ := isFile_of_not hdir hv
    obtain ⟨b, hf, hstamped, hmapped⟩ := h.exists_mapped hw hv
    have hl := h.located hf
    have hworks : ∀ m, (c.servers m).maybeFailed = false := h.servers ▸ hw.works
    have hprobe : ms.probe generatedId ms.numDataServers 0 c = (chosen ms c.servers generatedId).map fun (m, b) =>
        (.ok ⟨b, m, (version (c.servers m) b + 1).toNat⟩, granted c m b) := by
      rw [probe_eq hworks, ← List.range_eq_range']
      rfl
    simp only
    rw [← h.servers]
    cases hchosen : chosen ms c.servers generatedId with
    | none =>
      rw [hchosen] at hprobe
      have hrun : ms.allocateBlock id generatedId now c = none := by
        unfold MetadataServer.allocateBlock
        rw [bind_ok (onDevice_readInode hl (Set.mem_singleton id))]
        exact bind_none hprobe
      exact bind_none hrun
    | some out =>
      obtain ⟨m, i⟩ := out
      rw [hchosen] at hprobe
      obtain ⟨hm, hfree⟩ := chosen_eq_some hchosen
      obtain ⟨-, hi, -⟩ := findFree_some hfree
      have hfits := fits_granted hm.2 (by omega : i < 4096) (v := version (c.servers m) i + 1)
      have hmaps := hmapped.maps.record (by omega) hfits now
      have hrun : ms.allocateBlock id generatedId now c = some (.ok ⟨i, m, (version (c.servers m) i + 1).toNat⟩,
          written (granted c m i) b _ hmaps.shape.length) := by
        unfold MetadataServer.allocateBlock
        rw [bind_ok (onDevice_readInode hl (Set.mem_singleton id))]
        simp only
        rw [bind_ok hprobe, hmapped.maps.blockCnt, require_of (by omega), bind_ok (pure_apply ()),
          bind_ok (onDevice_write (c := granted c m i) hl (Set.mem_singleton id) hmaps.shape.length)]
        rfl
      have hmapped' : Mapped (record (c.device.blocks b) ⟨i, m, (version (c.servers m) i + 1).toNat⟩ now)
          (x.maps id ++ [⟨i, m, (version (c.servers m) i + 1).toNat⟩]) :=
        ⟨(record_stamped hmapped.maps hmapped.type hnow).type_eq, hmaps,
          (record_slot hmapped.maps hlen hfits now).trans hmapped.slot⟩
      exact ⟨_, _, _, files, bind_ok hrun,
        h.remap hf hmapped' hmaps.shape.length (record_stamped hmapped.maps hmapped.type hnow) hnow _⟩

theorem freeBlock_answers (h : Keeps others raw c files x) (hw : WellFormed ms x) (hid : id ≠ 0)
    (hdir : ¬ IsDirectory x.disk.volume id) (hnow : now < 2 ^ 63) (b m : ℕ) :
    Answers ms c (.freeBlock id b m now) (some (dropBlock x id b m now)) := by
  unfold dropBlock
  cases hv : x.disk.volume id with
  | none =>
    have hnil : x.maps id = [] := hw.maps_nil fun hfile => ne_none_of_isFile hfile hv
    have hrun : ms.freeBlock id b m now c = some (.ok false, c) := by
      unfold MetadataServer.freeBlock
      rw [bind_ok (h.readInode_none hid hv)]
      rfl
    rw [hnil]
    exact answers_of_run h (bind_ok hrun)
  | some node =>
    obtain ⟨content, time, hv⟩ := isFile_of_not hdir hv
    obtain ⟨i, hf, -, hmapped⟩ := h.exists_mapped hw hv
    have hl := h.located hf
    have hworks : ∀ m, (c.servers m).maybeFailed = false := h.servers ▸ hw.works
    have hread := onDevice_readInode hl (Set.mem_singleton id)
    cases hplace : placeOf (x.maps id) b m with
    | none =>
      have hrun : ms.freeBlock id b m now c = some (.ok false, c) := by
        unfold MetadataServer.freeBlock
        rw [bind_ok hread]
        simp only
        rw [hmapped.maps.blockCnt, require_of hmapped.maps.le, bind_ok (pure_apply ()), placeOf_eq hmapped.maps,
          hplace]
        rfl
      exact answers_of_run h (bind_ok hrun)
    | some pos =>
      obtain ⟨hpos, heq, -⟩ := List.findIdx?_eq_some_iff_getElem.mp hplace
      obtain ⟨hb, hm⟩ := of_decide_eq_true heq
      obtain ⟨hmac, hb1, hb2⟩ := hw.placed id _ (List.getElem_mem hpos)
      rw [hb] at hb1 hb2
      rw [hm] at hmac
      have hcall := freeBlock_eq (b := b) (hworks m)
      rw [if_neg (by omega), if_neg (by omega)] at hcall
      simp only
      rw [← h.servers]
      split
      case isFalse hno =>
        rw [if_neg hno] at hcall
        have hrun : ms.freeBlock id b m now c = some (.ok false, c) := by
          unfold MetadataServer.freeBlock
          rw [bind_ok hread]
          simp only
          rw [hmapped.maps.blockCnt, require_of hmapped.maps.le, bind_ok (pure_apply ()), placeOf_eq hmapped.maps,
            hplace]
          simp only
          rw [require_of hmac, bind_ok (pure_apply ()), bind_ok (call_self hcall), if_neg (by decide), pure_apply]
        exact answers_of_run h (bind_ok hrun)
      case isTrue hyes =>
        rw [if_pos hyes] at hcall
        have hmaps := hmapped.maps.dropEntry hpos now
        have hcall' : call m (DataServer.freeBlock b) c = some (.ok true, released c m b) := call_apply hcall
        have hrun : ms.freeBlock id b m now c = some (.ok true, written (released c m b) i _ hmaps.shape.length) := by
          unfold MetadataServer.freeBlock
          rw [bind_ok hread]
          simp only
          rw [hmapped.maps.blockCnt, require_of hmapped.maps.le, bind_ok (pure_apply ()), placeOf_eq hmapped.maps,
            hplace]
          simp only
          rw [require_of hmac, bind_ok (pure_apply ()), bind_ok hcall', if_pos rfl,
            bind_ok (onDevice_write (c := released c m b) hl (Set.mem_singleton id) hmaps.shape.length)]
          rfl
        have hstamped : Stamped (dropEntry (c.device.blocks i) pos now) 1 now :=
          dropEntry_stamped hmapped.maps hmapped.type hnow
        have hmapped' : Mapped (dropEntry (c.device.blocks i) pos now) ((x.maps id).eraseIdx pos) :=
          ⟨hstamped.type_eq, hmaps, (dropEntry_slot hmapped.maps hpos (hw.short id) now).trans hmapped.slot⟩
        exact ⟨_, _, _, files, bind_ok hrun, h.remap hf hmapped' hmaps.shape.length hstamped hnow _⟩

theorem Keeps.withServers (h : Keeps others raw c files x) (servers : ℕ → Server) :
    Keeps others raw { c with servers } files { x with servers } :=
  ⟨h.stores, rfl, h.mapped, h.unmapped⟩

theorem atServer_answers (h : Keeps others raw c files x) {α : Type} {m : ℕ} {request : Bm 4096 4096 0 α}
    {reply : α → Reply} (hserve : serve ms q = (call m request >>= fun a => pure (reply a) : Cl logCnt Reply))
    (hok : ∀ r t, request (x.servers m) = some (r, t) → ∃ a, r = .ok a) :
    Answers ms c q (atServer x m request reply) := by
  unfold atServer
  have hservers := h.servers
  cases hrun : request (x.servers m) with
  | none =>
    have hcall : call m request c = none := by
      change Option.map _ (request (c.servers m)) = none
      rw [hservers, hrun]
      rfl
    change serve ms q c = none
    rw [hserve]
    exact bind_none hcall
  | some out =>
    obtain ⟨r, t⟩ := out
    obtain ⟨a, rfl⟩ := hok r t hrun
    have hcall : call m request c = some (.ok a, { c with servers := Function.update c.servers m t }) :=
      call_apply (hservers ▸ hrun)
    refine ⟨_, others, raw, files, ?_, h.withServers _⟩
    rw [hserve, ← hservers]
    exact bind_ok hcall

theorem serve_answers (h : Keeps others raw c files x) (hw : WellFormed ms x)
    (hq : Proper ms (idLimit operation) x q) : Answers ms c q (act ms (idLimit operation) x q) := by
  cases q with
  | mknode type p name now now' =>
    obtain ⟨htype, hdir, -, hnow, hnow', hfree⟩ := hq
    exact mknode_answers h hw htype hdir hnow hnow' hfree
  | unlink p name now =>
    obtain ⟨hp, hdir, hname, hnow, hmaps⟩ := hq
    exact unlink_answers h hw hp hdir hname hnow hmaps
  | lookup p name => exact lookup_answers h hw hq.1 hq.2.1 hq.2.2
  | readdir p => exact readdir_answers h hw hq.1 hq.2
  | getTypeAttr id => exact getTypeAttr_answers h hw hq
  | getBlockMap id => exact getBlockMap_answers h hw hq.1 hq.2
  | allocateBlock id generatedId now =>
    exact allocateBlock_answers h hw hq.1 hq.2.1 hq.2.2.1 hq.2.2.2 generatedId
  | freeBlock id b m now => exact freeBlock_answers h hw hq.1 hq.2.1 hq.2.2 b m
  | readData m b offset len version => exact atServer_answers h rfl fun r t ht => (readData_cases ht).2
  | writeData m b offset buffer =>
    refine atServer_answers h rfl fun r t ht => ?_
    obtain ⟨hr, -⟩ | ⟨hr, -⟩ := writeData_cases (hw.works m) ht
    · exact ⟨false, hr⟩
    · exact ⟨true, hr⟩

end Handlers

def initFs (now : ℕ) : Bm 4096 4096 logCnt FileOperation := do
  let operation ← FileOperation.create 4096
  match ← attempt (operation.allocInode 2 now) with
  | .error _ => undefined
  | .ok id =>
    require (id = 1)
    pure operation

/-- The server with its data servers. No handler passes an error on. -/
def respond (ms : MetadataServer) (c : Cluster logCnt) (q : Catalogs.Request) : Option (Reply × Cluster logCnt) :=
  match serve ms q c with
  | some (.ok reply, c') => some (reply, c')
  | _ => none

def Shows (ms : MetadataServer) (c : Cluster logCnt) (x : Catalog) : Prop :=
  WellFormed ms x ∧ ∃ others raw files, Keeps others raw c files x

def newCatalog (now : ℕ) (servers : ℕ → Server) : Catalog :=
  ⟨Fs.Serving.newDisk 4096 4096 4096 now, fun _ => [], servers⟩

section Runs

variable {ms : MetadataServer} {c : Cluster logCnt} {x : Catalog} {q : Catalogs.Request} {now : ℕ}
  {qs : List Catalogs.Request}

theorem Shows.respond (h : Shows ms c x) (hq : Proper ms (idLimit operation) x q) :
    Alike (Shows ms) (respond ms c q) (act ms (idLimit operation) x q) := by
  obtain ⟨hw, others, raw, files, h⟩ := h
  have hans := serve_answers h hw hq
  unfold CatalogRuns.respond
  cases ha : act ms (idLimit operation) x q with
  | none =>
    rw [ha] at hans
    have hrun : serve ms q c = none := hans
    rw [hrun]
    exact .none
  | some out =>
    rw [ha] at hans
    obtain ⟨c', others', raw', files', hrun, h'⟩ := hans
    rw [hrun]
    exact .some ⟨rfl, act_wellFormed ha hw hq, others', raw', files', h'⟩

theorem initFs_of_bootstrapFuse {s t : BlockManager 4096 4096 logCnt} {fo : FileOperation}
    (h : Fs.Daemon.bootstrapFuse 4096 now s = some (.ok fo, t)) : initFs now s = some (.ok fo, t) := by
  obtain ⟨fo', s₁, hcreate, h⟩ := bind_eq_ok h
  obtain ⟨id, s₂, halloc, h⟩ := bind_eq_ok h
  unfold initFs
  rw [bind_ok hcreate, bind_ok (attempt_apply (Fs.Daemon.of_unwrap halloc))]
  exact h

theorem initFs_shows (ms : MetadataServer) (hs : c.device.maybeFailed = false)
    (hworks : ∀ m, (c.servers m).maybeFailed = false) (hnow : now < 2 ^ 63) :
    ∃ c₁, onDevice (initFs now) c = some (.ok operation, c₁) ∧ Shows ms c₁ (newCatalog now c.servers) := by
  have hroom : dataStart operation < 4096 := by decide +kernel
  obtain ⟨t, hboot, htree, files, hstores⟩ := Fs.Serving.bootstrapFuse_shows dimensions hs hnow hroom
  have hvolume : ∀ id, (newCatalog now c.servers).disk.volume id =
      if id = 1 then some ⟨.directory [], now⟩ else none := fun id => put_apply (v := fun _ => none) id
  refine ⟨{ c with device := t }, onDevice_apply (initFs_of_bootstrapFuse hboot), ?_, ∅, fun _ => [], files, hstores,
    rfl, nofun, fun _ _ => rfl⟩
  refine ⟨htree, fun id content time hv => ?_, fun id hid => absurd rfl hid, fun id => Nat.zero_le _, nofun, hworks⟩
  rw [hvolume] at hv
  split at hv
  case isTrue => cases hv
  case isFalse => cases hv

end Runs

end Chfs.Distributed.CatalogRuns
