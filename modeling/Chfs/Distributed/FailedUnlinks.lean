import Chfs.Distributed.CatalogRuns

namespace Chfs.Distributed.FailedUnlinks

open Lib.Effect Lib.Tree Lib.Server Block.Manager Block.Allocator Fs.Inode Fs.Operations Fs.Files Fs.Removal
  Fs.Directory Fs.Storage BlockMap DataServer Requests Catalogs CatalogRuns
open Fs.Volumes (Node entries IsFile)

variable {logCnt : ℕ}

/-- The file of inode `id` is gone, but not its blocks, and block `b` counts as
free. -/
structure Abandoned (s t : BlockManager 4096 4096 logCnt) (id b : ℕ) : Prop where
  works : t.maybeFailed = false
  entry : ∀ i, operation.inodeManager.Valid i →
    operation.inodeManager.entry t i = if i = id then invalidBlockId else operation.inodeManager.entry s i
  data : ∀ i, dataStart operation ≤ i → t.blocks i = s.blocks i
  used : ∀ i < 4096, operation.blockAllocator.used t i = (operation.blockAllocator.used s i && i ≠ b)

section Remove

variable {ms : MetadataServer} {others : Set ℕ} {raw : ℕ → List UInt8} {c : Cluster logCnt}
  {files : ℕ → Option File} {x : Catalog} {id p now time b : ℕ} {content inode : List UInt8} {info : BlockInfo}
  {rest : List BlockInfo} {es : List DirectoryEntry} {name : List UInt8} {s t : BlockManager 4096 4096 logCnt}

theorem Abandoned.readFile (ha : Abandoned c.device t id b) (h : Keeps others raw c files x)
    (hv : x.disk.volume p = some ⟨.directory es, time⟩) (hne : p ≠ id) :
    operation.readFile p t = some (.ok (dirListToString es), t) := by
  obtain ⟨f, hf, hd⟩ := h.stores.exists_file hv
  have hinv := h.stores.inv
  have hvalid := hinv.valid p f hf
  have hlt := h.stores.bound p f hf
  have hpos := dataStart_pos layout
  have hdata := hinv.data p f hf
  have hholds : Holds 4096 t.blocks f :=
    (hinv.holds p f hf (h.not_mem hv)).congr fun i hi => ha.data i (hdata i hi).1
  have hread : operation.inodeManager.readInode p t = some (.ok (f.inode, t.blocks f.inode), t) := by
    obtain ⟨h1, h2, -⟩ := hdata f.inode List.mem_cons_self
    have hentry := hinv.entry p hvalid
    rw [hf, Option.map_some, Option.getD_some] at hentry
    rw [readInode_apply layout.inodes hvalid.1, ha.entry p hvalid, if_neg hne, hentry, if_neg, if_pos (by omega)]
    unfold invalidBlockId
    omega
  have hcontent := readContent_spec layout.size hholds (hinv.owned_lt hf) f.blocks.length 0 (Nat.zero_add _) none
    (by simp)
  have htext : f.content = dirListToString es := hd.text
  unfold FileOperation.readFile
  rw [bind_ok hread]
  simp only
  rw [hholds.size, ← hholds.count, hcontent, Nat.zero_mul, List.drop_zero, htext]

/-- A reserved block that counts as free is the next one to be handed out. -/
theorem Abandoned.allocate (ha : Abandoned s t id b)
    (hreserved : ∀ i < dataStart operation, operation.blockAllocator.used s i = true) (hb : b < dataStart operation) :
    ∃ u, operation.blockAllocator.allocate t = some (.ok b, u) := by
  have hstart : dataStart operation ≤ 4096 := by decide +kernel
  have hfree : operation.blockAllocator.used t b = false := by
    rw [ha.used b (by omega)]
    simp
  obtain ⟨r, u, hrun, hspec⟩ := allocate_spec layout.blocks ha.works
  have hfirst := (allocate_first layout.blocks ha.works).of_eq hrun
  cases r with
  | error e =>
    have hall := hfirst b (by omega)
    rw [hfree] at hall
    cases hall
  | ok b' =>
    obtain hlt | heq | hgt := Nat.lt_trichotomy b' b
    · have hused := ha.used b' (by omega)
      rw [hspec.2.1, hreserved b' (by omega), Bool.true_and, eq_comm, decide_eq_false_iff_not] at hused
      exact absurd (Nat.ne_of_lt hlt) hused
    · exact ⟨u, heq ▸ hrun⟩
    · have hall := hfirst b hgt
      rw [hfree] at hall
      cases hall

theorem Abandoned.getTypeAttr (ha : Abandoned s t id b) (hid : operation.inodeManager.Valid id) :
    getTypeAttr operation id t = some (.ok (.attr 0 0 0 0 0), t) := by
  have hread : operation.inodeManager.readInode id t = some (.error .invalidArg, t) := by
    rw [readInode_apply layout.inodes hid.1, if_pos]
    exact Or.inr ((ha.entry id hid).trans (if_pos rfl))
  have hattr : operation.getTypeAttr id t = some (.error .invalidArg, t) := bind_error hread
  unfold CatalogRuns.getTypeAttr
  rw [bind_ok (attempt_apply hattr)]
  rfl

end Remove

section Runs

variable {ms : MetadataServer} {c : Cluster logCnt} {x : Catalog} {qs : List Catalogs.Request} {rs : List Reply}
  {now now' p time : ℕ} {es : List DirectoryEntry} {e : DirectoryEntry} {name : List UInt8} {info : BlockInfo}
  {rest : List BlockInfo}

end Runs

end Chfs.Distributed.FailedUnlinks
