import Chfs.Fs.Naming

/-! The requests about names (`distributed/metadata_server.cc`) to a metadata
server without a log. `operation_` is a file system of any size. -/

namespace Chfs.Distributed.Names

open Lib.Effect Lib.Tree Block.Manager Block.Allocator Fs.Inode Fs.Operations Fs.Files Fs.Writing Fs.Directory
  Fs.Naming

variable {sz cnt logCnt : ℕ}

def readdir (fo : FileOperation) (node : ℕ) : Bm sz cnt logCnt (List DirectoryEntry) := do
  match ← attempt (fo.readFile node) with
  | .error _ => pure []
  | .ok dirContent => parsed dirContent

def cStr (name : List UInt8) : List UInt8 := name.takeWhile (· ≠ 0)

def lookup (fo : FileOperation) (parent : ℕ) (name : List UInt8) : Bm sz cnt logCnt ℕ := do
  match ← attempt (Fs.Directory.lookup fo parent (cStr name)) with
  | .error _ => pure 0
  | .ok id => pure id

def mknode (fo : FileOperation) (type parent : ℕ) (name : List UInt8) (now now' : ℕ) :
    Bm sz cnt logCnt ℕ := do
  let dirContent ← readdir fo parent
  if dirContent.any (·.name = name) then pure 0 else
    match ← attempt (fo.allocInode type now) with
    | .error _ => pure 0
    | .ok newInodeId =>
      match ← attempt (fo.writeFile parent (dirListToString (dirContent ++ [⟨name, newInodeId⟩])) now') with
      | .error _ => pure 0
      | .ok _ => pure newInodeId

/-- `unlink`. If the id is not among the entries, `erase` is called with an
iterator before the first one. -/
def unlink (fo : FileOperation) (parent : ℕ) (name : List UInt8) (now : ℕ) : Bm sz cnt logCnt Bool := do
  let dirContent ← readdir fo parent
  let inodeId ← lookup fo parent name
  if inodeId = 0 then pure false else
    match ← attempt (fo.removeFile inodeId) with
    | .error _ => pure false
    | .ok _ =>
      match dirContent.findIdx? (·.id = inodeId) with
      | none => undefined
      | some contentPos =>
        match ← attempt (fo.writeFile parent (dirListToString (dirContent.eraseIdx contentPos)) now) with
        | .error _ => pure false
        | .ok _ => pure true

def idOf : Except ErrorType ℕ → ℕ
  | .ok id => id
  | .error _ => 0

section Server

variable {fo : FileOperation} (hl : Layout fo sz cnt) {s t : BlockManager sz cnt logCnt}
  {files : ℕ → Option File} {dirs : ℕ → List DirectoryEntry} {f : File} {p : ℕ} {name : List UInt8}
include hl

theorem readdir_eq (h : Directories fo s files dirs) (hf : files p = some f)
    (hlt : p < fo.inodeManager.maxInodeSupported - 1) : readdir fo p s = some (.ok (dirs p), s) := by
  unfold readdir
  rw [bind_ok (attempt_apply (h.inv.readFile_some hl hf (Set.notMem_empty _) hlt))]
  simp only
  rw [parsed, h.parse hl hf]
  rfl

omit hl in
theorem cStr_eq (hname : ValidName name) : cStr name = name := by
  apply List.takeWhile_eq_self_iff.mpr
  intro c hc
  rw [decide_eq_true_iff]
  rintro rfl
  exact hname.nul hc

theorem lookup_eq (h : Directories fo s files dirs) (hf : files p = some f)
    (hlt : p < fo.inodeManager.maxInodeSupported - 1) (hname : ValidName name) :
    lookup fo p name s = some (.ok (((find (dirs p) name).map Entry.id).getD 0), s) := by
  have hlook := h.lookup hl hf hlt name
  unfold lookup
  rw [cStr_eq hname, bind_ok (attempt_apply hlook)]
  cases find (dirs p) name <;> rfl

theorem mknode_eq (h : Directories fo s files dirs) (hf : files p = some f)
    (hlt : p < fo.inodeManager.maxInodeSupported - 1) (type now now' : ℕ) :
    mknode fo type p name now now' s = outcome idOf (mkHelper fo p name type now now') s := by
  have hread := h.readDirectory hl hf hlt
  unfold mknode
  rw [bind_ok (readdir_eq hl h hf hlt)]
  by_cases hany : (dirs p).any (·.name = name) = true
  · have hrun : mkHelper fo p name type now now' s = some (.error .alreadyExist, s) := by
      unfold mkHelper
      rw [bind_ok hread, if_pos hany, refuse_apply]
    rw [if_pos hany, outcome_apply hrun]
    rfl
  · rw [if_neg hany, outcome, mkHelper, bind_ok hread, if_neg hany]
    refine attempt_bind s (fun id t _ => ?_) fun _ => rfl
    exact attempt_bind t (fun _ _ _ => rfl) fun _ => rfl

theorem unlink_eq (h : Directories fo s files dirs) (hf : files p = some f)
    (hlt : p < fo.inodeManager.maxInodeSupported - 1) (hname : ValidName name) (now : ℕ) :
    unlink fo p name now s = outcome (·.isOk) (Fs.Directory.unlink fo p name now) s := by
  have hread := h.readDirectory hl hf hlt
  have hlook := h.lookup hl hf hlt name
  have hlook' := lookup_eq hl h hf hlt hname
  unfold unlink
  rw [bind_ok (readdir_eq hl h hf hlt)]
  cases he : find (dirs p) name with
  | none =>
    simp only [he, Option.map_none, Option.getD_none] at hlook hlook'
    have hrun : Fs.Directory.unlink fo p name now s = some (.error .notExist, s) := by
      unfold Fs.Directory.unlink
      rw [bind_ok hread, bind_error hlook]
    rw [bind_ok hlook', if_pos rfl, outcome_apply hrun]
    rfl
  | some e =>
    simp only [he, Option.map_some, Option.getD_some] at hlook hlook'
    obtain ⟨hmem, -⟩ := find_eq_some he
    have hid := (h.id_lt hl hmem).1
    obtain ⟨i, hi, herase⟩ := h.linked.exists_findIdx hmem
    rw [bind_ok hlook', if_neg (by omega), outcome, Fs.Directory.unlink, bind_ok hread, bind_ok hlook]
    refine attempt_bind s (fun _ t _ => ?_) fun _ => rfl
    simp only
    rw [hi]
    simp only
    rw [herase, h.linked.filter_eq_erase hmem]
    refine attempt_bind_pure t fun r => ?_
    cases r <;> rfl

end Server

def liveNum (fo : FileOperation) (s : BlockManager sz cnt logCnt) : ℕ :=
  (List.range fo.inodeManager.maxInodeSupported).countP fun i => fo.inodeManager.taken s (i + 1)

/-- Room for another inode, below the last two. -/
def Room (fo : FileOperation) (s : BlockManager sz cnt logCnt) : Prop :=
  liveNum fo s < fo.inodeManager.maxInodeSupported - 2

/-- If the name is in the directory, it is that of an object without an indirect
block. -/
def Removable (fo : FileOperation) (s : BlockManager sz cnt logCnt) (parent : ℕ) (name : List UInt8) : Prop :=
  ∀ id, Fs.Directory.lookup fo parent name s = some (.ok id, s) → Direct fo s id

inductive Event
  | made (parent : ℕ) (name : List UInt8) (id : ℕ)
  | unlinked (parent : ℕ) (name : List UInt8)
  | unchanged

def record (dirs : ℕ → List DirectoryEntry) : Event → ℕ → List DirectoryEntry
  | .made parent name id => link dirs parent ⟨name, id⟩
  | .unlinked parent name => cut dirs parent name
  | .unchanged => dirs

/-- The entries that have been made in each directory and not been removed, in
the order in which they were made. -/
def listing (es : List Event) : ℕ → List DirectoryEntry := es.foldl record fun _ => []

def madeEvent (parent : ℕ) (name : List UInt8) (id : ℕ) : Event :=
  if id = 0 then .unchanged else .made parent name id

def unlinkedEvent (parent : ℕ) (name : List UInt8) (done : Bool) : Event :=
  if done then .unlinked parent name else .unchanged

/-- The requests of the server, and the operations of `FileOperation` on which
they could be built. The parent is any live inode. -/
inductive Step (fo : FileOperation) (s : BlockManager sz cnt logCnt) : Event → BlockManager sz cnt logCnt → Prop
  | mknode {type p name now now' id t} (hp : Live fo s p) (hname : ValidName name) (hroom : Room fo s)
      (h : mknode fo type p name now now' s = some (.ok id, t)) : Step fo s (madeEvent p name id) t
  | unlink {p name now done t} (hp : Live fo s p) (hname : ValidName name) (hr : Removable fo s p name)
      (h : unlink fo p name now s = some (.ok done, t)) : Step fo s (unlinkedEvent p name done) t
  | lookup {p name id t} (hp : Live fo s p) (hname : ValidName name)
      (h : lookup fo p name s = some (.ok id, t)) : Step fo s .unchanged t
  | readdir {p l t} (hp : Live fo s p) (h : readdir fo p s = some (.ok l, t)) : Step fo s .unchanged t
  | mkHelper {type p name now now' r t} (hp : Live fo s p) (hname : ValidName name) (hroom : Room fo s)
      (h : mkHelper fo p name type now now' s = some (r, t)) : Step fo s (madeEvent p name (idOf r)) t
  | fsUnlink {p name now r t} (hp : Live fo s p) (hname : ValidName name) (hr : Removable fo s p name)
      (h : Fs.Directory.unlink fo p name now s = some (r, t)) : Step fo s (unlinkedEvent p name r.isOk) t
  | fsLookup {p name r t} (hp : Live fo s p) (hname : ValidName name)
      (h : Fs.Directory.lookup fo p name s = some (r, t)) : Step fo s .unchanged t
  | readDirectory {p r t} (hp : Live fo s p) (h : readDirectory fo p s = some (r, t)) :
      Step fo s .unchanged t

/-- What a request leaves: directories that are read as the given ones, and all
inodes except the one it has removed. -/
structure Leaves (fo : FileOperation) (s t : BlockManager sz cnt logCnt) (dirs : ℕ → List DirectoryEntry)
    (removed : Option DirectoryEntry) : Prop where
  readdir : ∀ q, Live fo t q → readdir fo q t = some (.ok (dirs q), t)
  keeps : ∀ q, Live fo s q → (∀ e ∈ removed, q ≠ e.id) → Live fo t q
  gone : ∀ e ∈ removed, ¬ Live fo t e.id

structure NewId (fo : FileOperation) (s t : BlockManager sz cnt logCnt) (dirs : ℕ → List DirectoryEntry)
    (p : ℕ) (name : List UInt8) (id : ℕ) : Prop where
  exists_zero : find (dirs p) name ≠ none → id = 0
  fresh : id ≠ 0 → ¬ Live fo s id ∧ Live fo t id
  leaves : Leaves fo s t (record dirs (madeEvent p name id)) none

/-- The requests treat the directories as finite maps with the given entries. -/
structure IsMap (fo : FileOperation) (s : BlockManager sz cnt logCnt) (dirs : ℕ → List DirectoryEntry) :
    Prop where
  readdir : ∀ p, Live fo s p → readdir fo p s = some (.ok (dirs p), s)
  readDirectory : ∀ p, Live fo s p → readDirectory fo p s = some (.ok (dirs p), s)
  nodup : ∀ p, Live fo s p → ((dirs p).map Entry.name).Nodup ∧ ((dirs p).map Entry.id).Nodup
  lookup : ∀ p name, Live fo s p → ValidName name →
    lookup fo p name s = some (.ok (((find (dirs p) name).map Entry.id).getD 0), s)
  fsLookup : ∀ p name, Live fo s p → ValidName name → Fs.Directory.lookup fo p name s =
    some (match find (dirs p) name with
      | some e => .ok e.id
      | none => .error .notExist, s)
  mknode : ∀ type p name now now', Live fo s p → ValidName name → Room fo s →
    ∃ id t, mknode fo type p name now now' s = some (.ok id, t) ∧ NewId fo s t dirs p name id
  mkHelper : ∀ type p name now now', Live fo s p → ValidName name → Room fo s →
    ∃ r t, mkHelper fo p name type now now' s = some (r, t) ∧ NewId fo s t dirs p name (idOf r) ∧
      (find (dirs p) name ≠ none → r = .error .alreadyExist) ∧ ∀ id, r = .ok id → id ≠ 0
  unlink : ∀ p name now, Live fo s p → ValidName name → Removable fo s p name →
    ∃ t, unlink fo p name now s = some (.ok (find (dirs p) name).isSome, t) ∧
      Leaves fo s t (cut dirs p name) (find (dirs p) name)
  fsUnlink : ∀ p name now, Live fo s p → ValidName name → Removable fo s p name →
    ∃ r t, Fs.Directory.unlink fo p name now s = some (r, t) ∧ r.isOk = (find (dirs p) name).isSome ∧
      Leaves fo s t (cut dirs p name) (find (dirs p) name)

structure Kept (fo : FileOperation) (s : BlockManager sz cnt logCnt) (files : ℕ → Option File)
    (dirs : ℕ → List DirectoryEntry) : Prop where
  directories : Directories fo s files dirs
  readable : ∀ id ∈ liveOf files, id < fo.inodeManager.maxInodeSupported - 1

section Steps

variable {fo : FileOperation} (hl : Layout fo sz cnt) {s t : BlockManager sz cnt logCnt}
  {files files' : ℕ → Option File} {dirs dirs' : ℕ → List DirectoryEntry} {p id : ℕ} {name : List UInt8}

theorem FirstFree.lt (h : FirstFree fo s files id) (hroom : Room fo s) :
    id < fo.inodeManager.maxInodeSupported - 1 := by
  have hcount : id - 1 ≤ liveNum fo s := by
    have hall : (List.range (id - 1)).countP (fun i => fo.inodeManager.taken s (i + 1)) = id - 1 := by
      rw [List.countP_eq_length.mpr, List.length_range]
      intro i hi
      rw [List.mem_range] at hi
      exact h.first (i + 1) (by omega) (by omega)
    have hle : id - 1 ≤ fo.inodeManager.maxInodeSupported := by
      have := h.valid.2
      omega
    rw [← hall]
    exact (List.range_sublist.mpr hle).countP_le
  unfold Room at hroom
  omega

theorem Kept.file (h : Kept fo s files dirs) (hp : Live fo s p) :
    ∃ f, files p = some f ∧ p < fo.inodeManager.maxInodeSupported - 1 := by
  have hmem := (live_iff h.directories.inv).mp hp
  obtain ⟨f, hf⟩ := mem_liveOf.mp hmem
  exact ⟨f, hf, h.readable p hmem⟩

include hl

theorem Kept.readdir (h : Kept fo s files dirs) (hp : Live fo s p) :
    readdir fo p s = some (.ok (dirs p), s) := by
  obtain ⟨f, hf, hlt⟩ := h.file hp
  exact readdir_eq hl h.directories hf hlt

theorem Kept.leaves (h : Kept fo s files dirs) (h' : Kept fo t files' dirs') (removed : Option DirectoryEntry)
    (hkeep : ∀ q ∈ liveOf files, (∀ e ∈ removed, q ≠ e.id) → q ∈ liveOf files')
    (hgone : ∀ e ∈ removed, e.id ∉ liveOf files') : Leaves fo s t dirs' removed where
  readdir _ hq := h'.readdir hl hq
  keeps q hq hne := (live_iff h'.directories.inv).mpr (hkeep q ((live_iff h.directories.inv).mp hq) hne)
  gone e he hlive := hgone e he ((live_iff h'.directories.inv).mp hlive)

theorem Kept.same (h : Kept fo s files dirs) (hdirs : Directories fo t files' dirs')
    (hlive : liveOf files' = liveOf files) : Kept fo t files' dirs' ∧ Leaves fo s t dirs' none := by
  have h' : Kept fo t files' dirs' := ⟨hdirs, hlive ▸ h.readable⟩
  refine ⟨h', h.leaves hl h' none (fun q hq _ => hlive ▸ hq) fun e he => ?_⟩
  cases he

theorem Kept.grown (h : Kept fo s files dirs) (hroom : Room fo s) (hid : FirstFree fo s files id)
    (hdirs : Directories fo t files' dirs') (hlive : liveOf files' = insert id (liveOf files)) :
    Kept fo t files' dirs' ∧ Leaves fo s t dirs' none := by
  have h' : Kept fo t files' dirs' := by
    refine ⟨hdirs, fun x hx => ?_⟩
    rw [hlive] at hx
    obtain rfl | hx := hx
    · exact FirstFree.lt hid hroom
    · exact h.readable x hx
  refine ⟨h', h.leaves hl h' none (fun q hq _ => ?_) fun e he => ?_⟩
  · rw [hlive]
    exact Set.mem_insert_of_mem id hq
  · cases he

theorem Kept.mkHelper (h : Kept fo s files dirs) (hp : Live fo s p) (hname : ValidName name)
    (hroom : Room fo s) (type now now' : ℕ) :
    ∃ r t, mkHelper fo p name type now now' s = some (r, t) ∧
      (∃ files', Kept fo t files' (record dirs (madeEvent p name (idOf r)))) ∧
      NewId fo s t dirs p name (idOf r) ∧ (find (dirs p) name ≠ none → r = .error .alreadyExist) ∧
      ∀ id, r = .ok id → id ≠ 0 := by
  obtain ⟨f, hf, hlt⟩ := h.file hp
  cases he : find (dirs p) name with
  | some e =>
    obtain ⟨-, hself⟩ := h.same hl h.directories rfl
    refine ⟨_, s, mkHelper_listed hl h.directories hf hlt he type now now', ⟨files, h⟩,
      ⟨fun _ => rfl, fun hne => absurd rfl hne, hself⟩, fun _ => rfl, fun id hid => ?_⟩
    cases hid
  | none =>
    obtain ⟨r, t, hrun, hmade⟩ := mkHelper_spec hl h.directories hf hlt hname he type now now'
    refine ⟨r, t, hrun, ?_⟩
    cases r with
    | ok id =>
      obtain ⟨hid, files', hlive, hdirs⟩ := hmade
      obtain ⟨hkept, hleaves⟩ := h.grown hl hroom hid hdirs hlive
      have hne : id ≠ 0 := by
        have := hid.valid.1
        omega
      have hevent : madeEvent p name (idOf (.ok id)) = .made p name id := if_neg hne
      rw [hevent]
      refine ⟨⟨files', hkept⟩, ⟨fun hnone => absurd he hnone, fun _ => ⟨?_, ?_⟩, hevent ▸ hleaves⟩,
        fun hnone => absurd rfl hnone, fun x hx => Except.ok.inj hx ▸ hne⟩
      · rw [live_iff h.directories.inv, mem_liveOf, idOf, hid.free]
        simp
      · rw [live_iff hdirs.inv, hlive]
        exact Set.mem_insert id _
    | error e =>
      obtain ⟨-, files', hlive, hdirs⟩ := hmade
      have hkept : Kept fo t files' dirs ∧ Leaves fo s t dirs none := by
        obtain hlive | ⟨id, hid, hlive⟩ := hlive
        · exact h.same hl hdirs hlive
        · exact h.grown hl hroom hid hdirs hlive
      refine ⟨⟨files', hkept.1⟩, ⟨fun _ => rfl, fun hne => absurd rfl hne, hkept.2⟩,
        fun hnone => absurd rfl hnone, fun x hx => ?_⟩
      cases hx

theorem Kept.unlink (h : Kept fo s files dirs) (hp : Live fo s p) (hr : Removable fo s p name) (now : ℕ) :
    ∃ r t, Fs.Directory.unlink fo p name now s = some (r, t) ∧ r.isOk = (find (dirs p) name).isSome ∧
      (∃ files', Kept fo t files' (cut dirs p name)) ∧
      Leaves fo s t (cut dirs p name) (find (dirs p) name) := by
  obtain ⟨f, hf, hlt⟩ := h.file hp
  have hlook := h.directories.lookup hl hf hlt name
  cases he : find (dirs p) name with
  | none =>
    have hcut : cut dirs p name = dirs := by rw [cut, he]
    obtain ⟨err, hrun⟩ := unlink_refused hl h.directories hf (fun _ e hmem => by cases he.symm.trans hmem) now
    rw [hcut]
    exact ⟨_, s, hrun, rfl, ⟨files, h⟩, (h.same hl h.directories rfl).2⟩
  | some e =>
    rw [he] at hlook
    have hlive := h.directories.linked.target p e (find_eq_some he).1
    obtain ⟨t, hrun, files', hfiles, hdirs⟩ := unlink_spec hl h.directories hf hlt he (h.readable e.id hlive)
      (fun g hg => (direct_iff hl h.directories.inv hg).mp (hr e.id hlook)) now
    have h' : Kept fo t files' (cut dirs p name) := by
      refine ⟨hdirs, fun x hx => ?_⟩
      rw [hfiles] at hx
      exact h.readable x hx.1
    refine ⟨_, t, hrun, rfl, ⟨files', h'⟩, h.leaves hl h' _ (fun q hq hne => ?_) fun e' he' => ?_⟩
    · rw [hfiles]
      exact ⟨hq, hne e rfl⟩
    · cases he'
      rw [hfiles]
      exact fun hmem => hmem.2 rfl

theorem Kept.isMap (h : Kept fo s files dirs) : IsMap fo s dirs where
  readdir p hp := h.readdir hl hp
  readDirectory p hp := by
    obtain ⟨f, hf, hlt⟩ := h.file hp
    exact h.directories.readDirectory hl hf hlt
  nodup p _ := ⟨h.directories.linked.names p, h.directories.linked.nodup_ids p⟩
  lookup p name hp hname := by
    obtain ⟨f, hf, hlt⟩ := h.file hp
    exact lookup_eq hl h.directories hf hlt hname
  fsLookup p name hp _ := by
    obtain ⟨f, hf, hlt⟩ := h.file hp
    exact h.directories.lookup hl hf hlt name
  mknode type p name now now' hp hname hroom := by
    obtain ⟨f, hf, hlt⟩ := h.file hp
    obtain ⟨r, t, hrun, -, hnew, -⟩ := h.mkHelper hl hp hname hroom type now now'
    exact ⟨idOf r, t, (mknode_eq hl h.directories hf hlt type now now').trans (outcome_apply hrun), hnew⟩
  mkHelper type p name now now' hp hname hroom := by
    obtain ⟨r, t, hrun, -, hnew, hexists⟩ := h.mkHelper hl hp hname hroom type now now'
    exact ⟨r, t, hrun, hnew, hexists⟩
  unlink p name now hp hname hr := by
    obtain ⟨f, hf, hlt⟩ := h.file hp
    obtain ⟨r, t, hrun, hok, -, hleaves⟩ := h.unlink hl hp hr now
    refine ⟨t, ?_, hleaves⟩
    rw [unlink_eq hl h.directories hf hlt hname, outcome_apply hrun, hok]
  fsUnlink p name now hp _ hr := by
    obtain ⟨r, t, hrun, hok, -, hleaves⟩ := h.unlink hl hp hr now
    exact ⟨r, t, hrun, hok, hleaves⟩

omit hl in
theorem record_unlinkedEvent (dirs : ℕ → List DirectoryEntry) (p : ℕ) (name : List UInt8) :
    record dirs (unlinkedEvent p name (find (dirs p) name).isSome) = cut dirs p name := by
  unfold unlinkedEvent
  cases he : find (dirs p) name with
  | none => rw [cut, he]; rfl
  | some e => rfl

/-- Each request does to the directories what its event says. -/
theorem Kept.step (h : Kept fo s files dirs) {e : Event} (hstep : Step fo s e t) :
    ∃ files', Kept fo t files' (record dirs e) := by
  cases hstep with
  | mknode hp hname hroom hrun =>
    obtain ⟨f, hf, hlt⟩ := h.file hp
    rename_i type p name now now' id
    obtain ⟨r, t', hrun', hkept, -⟩ := h.mkHelper hl hp hname hroom type now now'
    rw [mknode_eq hl h.directories hf hlt, outcome_apply hrun'] at hrun
    cases hrun
    exact hkept
  | unlink hp hname hr hrun =>
    obtain ⟨f, hf, hlt⟩ := h.file hp
    rename_i p name now done
    obtain ⟨r, t', hrun', hok, hkept, -⟩ := h.unlink hl hp hr now
    rw [unlink_eq hl h.directories hf hlt hname, outcome_apply hrun', hok] at hrun
    cases hrun
    rw [record_unlinkedEvent]
    exact hkept
  | lookup hp hname hrun =>
    obtain ⟨f, hf, hlt⟩ := h.file hp
    rw [lookup_eq hl h.directories hf hlt hname] at hrun
    cases hrun
    exact ⟨files, h⟩
  | readdir hp hrun =>
    rw [h.readdir hl hp] at hrun
    cases hrun
    exact ⟨files, h⟩
  | mkHelper hp hname hroom hrun =>
    rename_i type p name now now' r
    obtain ⟨r', t', hrun', hkept, -⟩ := h.mkHelper hl hp hname hroom type now now'
    cases hrun'.symm.trans hrun
    exact hkept
  | fsUnlink hp hname hr hrun =>
    rename_i p name now r
    obtain ⟨r', t', hrun', hok, hkept, -⟩ := h.unlink hl hp hr now
    cases hrun'.symm.trans hrun
    rw [hok, record_unlinkedEvent]
    exact hkept
  | fsLookup hp hname hrun =>
    obtain ⟨f, hf, hlt⟩ := h.file hp
    rw [h.directories.lookup hl hf hlt] at hrun
    cases hrun
    exact ⟨files, h⟩
  | readDirectory hp hrun =>
    obtain ⟨f, hf, hlt⟩ := h.file hp
    rw [h.directories.readDirectory hl hf hlt] at hrun
    cases hrun
    exact ⟨files, h⟩

end Steps

section Runs

variable {n : ℕ} (hd : Fs.Contents.Dimensions sz cnt n) {fo : FileOperation} {s₀ s : BlockManager sz cnt logCnt}
  {es : List Event}
include hd

theorem kept_of_start (h : Start n fo s) : Layout fo sz cnt ∧ ∃ files, Kept fo s files fun _ => [] := by
  obtain ⟨hl, files, hlive, hdirs⟩ := directories_of_start hd h
  refine ⟨hl, files, hdirs, fun x hx => ?_⟩
  rw [hlive, Set.mem_singleton_iff] at hx
  rw [hx]
  exact root_lt hl

/-- The run lemma: after any requests the directories hold what the requests
have reported. -/
theorem kept_of_path (h₀ : Start n fo s₀) (hpath : Lib.Run.Path (Step fo) s₀ es s) :
    ∃ files, Kept fo s files (listing es) := by
  obtain ⟨hl, h⟩ := kept_of_start hd h₀
  refine hpath.invariant (I := fun es s => ∃ files, Kept fo s files (listing es)) h ?_
  rintro es s e t ⟨files, hkept⟩ hstep
  unfold listing
  rw [List.foldl_append]
  exact hkept.step hl hstep

/-- Directories are finite maps from names to inodes, after any sequence of
requests. -/
theorem isMap_of_path (h₀ : Start n fo s₀) (hpath : Lib.Run.Path (Step fo) s₀ es s) :
    IsMap fo s (listing es) := by
  obtain ⟨hl, -⟩ := kept_of_start hd h₀
  obtain ⟨files, hkept⟩ := kept_of_path hd h₀ hpath
  exact hkept.isMap hl

end Runs

theorem exists_mknode : ∃ s t : BlockManager 56 72 0, Start 1 (FileOperation.fields 56 72 1) s ∧
    Live (FileOperation.fields 56 72 1) s 1 ∧ Room (FileOperation.fields 56 72 1) s ∧
    mknode (FileOperation.fields 56 72 1) 1 1 [97] 6 7 s = some (.ok 2, t) := by
  have hrun : ((FileOperation.create 1 (BlockManager.zeroed 56 72 0)).bind fun out =>
      ((FileOperation.fields 56 72 1).allocInode 2 5 out.2).bind fun out' =>
        (mknode (FileOperation.fields 56 72 1) 1 1 [97] 6 7 out'.2).map fun out'' =>
          (out'.1, (FileOperation.fields 56 72 1).inodeManager.taken out'.2 1,
            decide (liveNum (FileOperation.fields 56 72 1) out'.2 < 446), out''.1)) =
        some (.ok 1, true, true, .ok 2) := by decide +kernel
  obtain ⟨s₁, hcreate, -⟩ :=
    Fs.Contents.create_spec Fs.Contents.dimensions_small (s := BlockManager.zeroed 56 72 0) rfl
  rw [hcreate, Option.bind_some] at hrun
  obtain ⟨⟨r, s⟩, halloc, hrun⟩ := Option.bind_eq_some_iff.mp hrun
  obtain ⟨⟨r', t⟩, hmake, hrun⟩ := Option.map_eq_some_iff.mp hrun
  simp only [Prod.mk.injEq, decide_eq_true_eq] at hrun
  obtain ⟨rfl, htaken, hroom, rfl⟩ := hrun
  exact ⟨s, t, ⟨_, s₁, 5, rfl, hcreate, halloc⟩, ⟨⟨by decide, by decide⟩, htaken⟩, hroom, hmake⟩

theorem isMap_of_mknode : ∃ s t : BlockManager 56 72 0, Start 1 (FileOperation.fields 56 72 1) s ∧
    Lib.Run.Path (Step (FileOperation.fields 56 72 1)) s [.made 1 [97] 2] t ∧
    IsMap (FileOperation.fields 56 72 1) t (listing [.made 1 [97] 2]) := by
  obtain ⟨s, t, hstart, hlive, hroom, hmake⟩ := exists_mknode
  have hpath : Lib.Run.Path (Step (FileOperation.fields 56 72 1)) s [.made 1 [97] 2] t :=
    Lib.Run.Path.nil.snoc (.mknode hlive ⟨by decide, by decide, by decide⟩ hroom hmake)
  exact ⟨s, t, hstart, hpath, isMap_of_path Fs.Contents.dimensions_small hstart hpath⟩

end Chfs.Distributed.Names
