import Chfs.Distributed.Names

namespace Chfs.Distributed.FailedCreates

open Lib.Effect Lib.Run Lib.Tree Block.Manager Block.Allocator Fs.Inode Fs.Operations Fs.Files Fs.Growth Fs.Writing
  Fs.Contents Fs.Directory Names

variable {sz cnt logCnt n : ℕ} {fo : FileOperation}

/-- What `allocate_block` and `free_block` do to the device: an inode is read
and written back with another block map. -/
def rewriteInode (fo : FileOperation) (id : ℕ) (change : List UInt8 → List UInt8) : Bm sz cnt logCnt Unit := do
  let (blockId, inode) ← fo.inodeManager.readInode id
  writeBlock blockId (change inode)

/-- The devices of file systems and of metadata servers without a log, after
any calls and requests. The inodes in `others` have been given block maps: they
are not read as directories, nor removed. -/
inductive Device (n : ℕ) (fo : FileOperation) : Set ℕ → BlockManager sz cnt logCnt → Prop
  | create {s₀ s} (hworks : s₀.maybeFailed = false) (h : FileOperation.create n s₀ = some (.ok fo, s)) :
      Device n fo ∅ s
  | call {others s t} {c : Call} (hs : Device n fo others s) (hn : c.names s) (hp : c.avoids others)
      (h : c.step fo s = some t) : Device n fo others t
  | mkHelper {others s p name type now now' r t} (hs : Device n fo others s) (hn : Named s p) (hp : p ∉ others)
      (h : mkHelper fo p name type now now' s = some (r, t)) : Device n fo others t
  | fsUnlink {others s p name now r t} (hs : Device n fo others s) (hn : Named s p) (hp : p ∉ others)
      (hr : ∀ id, Fs.Directory.lookup fo p name s = some (.ok id, s) → Named s id ∧ id ∉ others)
      (h : Fs.Directory.unlink fo p name now s = some (r, t)) : Device n fo others t
  | mknode {others s type p name now now' r t} (hs : Device n fo others s) (hn : Named s p) (hp : p ∉ others)
      (h : mknode fo type p name now now' s = some (r, t)) : Device n fo others t
  | unlink {others s p name now r t} (hs : Device n fo others s) (hn : Named s p) (hp : p ∉ others)
      (hr : ∀ id, Names.lookup fo p name s = some (.ok id, s) → id ∉ others)
      (h : Names.unlink fo p name now s = some (r, t)) : Device n fo others t
  | rewriteInode {others s id change r t} (hs : Device n fo others s) (hn : Named s id)
      (h : rewriteInode fo id change s = some (r, t)) : Device n fo (insert id others) t

section Device

variable (hl : Layout fo sz cnt) {s t : BlockManager sz cnt logCnt} {others : Set ℕ} {files : ℕ → Option File}
  {id p : ℕ} {f : File} {name : List UInt8}
include hl

/-- An inode with a block map owns no block but its own. -/
theorem inv_rewritten (h : InvBut fo others s files) (hf : files id = some f) {inode : List UInt8}
    (hlen : inode.length = sz) : InvBut fo (insert id others) (s.setBlock f.inode inode hlen)
      (Function.update files id (some ⟨f.inode, [], invalidBlockId, []⟩)) := by
  have hdata := h.data id f hf f.inode List.mem_cons_self
  have hframe : ∀ b, b ≠ f.inode → (s.setBlock f.inode inode hlen).blocks b = s.blocks b :=
    fun b hb => by rw [setBlock_blocks, Function.update_of_ne hb]
  have hbitmap := hl.bitmap
  have hused : ∀ {b}, b < cnt → fo.blockAllocator.used (s.setBlock f.inode inode hlen) b = fo.blockAllocator.used s b :=
    fun hb => hl.used_congr (fun y _ hy => hframe y (by omega)) hb
  have hentry : ∀ {x}, fo.inodeManager.Valid x → _ :=
    fun hx => hl.entry_congr (t := s.setBlock f.inode inode hlen) hx
      fun y _ hy => hframe y (by have := hdata.1; unfold dataStart at this; omega)
  -- the blocks of the inode are some of those of the file
  have howned : ∀ {i g}, Function.update files id (some ⟨f.inode, [], invalidBlockId, []⟩) i = some g →
      ∃ g', files i = some g' ∧ (∀ b ∈ g.owned, b ∈ g'.owned) ∧ (i ≠ id → g = g') := by
    intro i g hg
    by_cases hi : i = id
    · rw [hi, Function.update_self, Option.some.injEq] at hg
      refine ⟨f, hi ▸ hf, fun b hb => ?_, fun hne => absurd hi hne⟩
      rw [← hg] at hb
      rw [List.mem_singleton.mp hb]
      exact List.mem_cons_self
    · rw [Function.update_of_ne hi] at hg
      exact ⟨g, hg, fun b hb => hb, fun _ => rfl⟩
  constructor
  case works => exact h.works
  case reserved =>
    intro b hb
    rw [hused (by omega), h.reserved b hb]
  case valid =>
    intro i g hg
    obtain ⟨g', hg', -⟩ := howned hg
    exact h.valid i g' hg'
  case entry =>
    intro i hi
    rw [(hentry hi).1, h.entry i hi]
    by_cases heq : i = id
    · rw [heq, hf, Function.update_self]
      rfl
    · rw [Function.update_of_ne heq]
  case taken =>
    intro i hi
    rw [(hentry hi).2, h.taken i hi]
    by_cases heq : i = id
    · rw [heq, hf, Function.update_self]
      rfl
    · rw [Function.update_of_ne heq]
  case holds =>
    intro i g hg hp
    rw [Set.mem_insert_iff, not_or] at hp
    obtain ⟨g', hg', -, heq⟩ := howned hg
    obtain rfl := heq hp.1
    apply (h.holds i g hg' hp.2).congr
    intro b hb
    apply hframe
    rintro rfl
    exact h.disjoint i id g f hg' hf hp.1 hb List.mem_cons_self
  case data =>
    intro i g hg b hb
    obtain ⟨g', hg', hsub, -⟩ := howned hg
    obtain ⟨h1, h2, h3⟩ := h.data i g' hg' b (hsub b hb)
    exact ⟨h1, h2, (hused h2).trans h3⟩
  case nodup =>
    intro i g hg
    by_cases hi : i = id
    · rw [hi, Function.update_self, Option.some.injEq] at hg
      rw [← hg]
      exact List.nodup_singleton _
    · rw [Function.update_of_ne hi] at hg
      exact h.nodup i g hg
  case disjoint =>
    intro i j g k hg hk hij b hb hb'
    obtain ⟨g', hg', hsub, -⟩ := howned hg
    obtain ⟨k', hk', hsub', -⟩ := howned hk
    exact h.disjoint i j g' k' hg' hk' hij (hsub b hb) (hsub' b hb')

/-- The device holds files, and block 0 is the given one. -/
def Sane (fo : FileOperation) (others : Set ℕ) (super : List UInt8) (s : BlockManager sz cnt logCnt) : Prop :=
  s.blocks 0 = super ∧ ∃ files, InvBut fo others s files

variable {super : List UInt8}

theorem Sane.call (h : Sane fo others super s) {c : Call} (hn : c.names s) (hp : c.avoids others)
    (hstep : c.step fo s = some t) : Sane fo others super t := by
  obtain ⟨hsuper, files, hinv⟩ := h
  have hchanges := step_changes hl hinv hn hp hstep
  refine ⟨?_, changes_inv hl hinv hchanges⟩
  have hbitmap := hl.bitmap
  obtain hk | ⟨_, _, -, hr⟩ := hchanges
  · exact (hk.marks.frame 0 (Or.inl (by omega))).trans hsuper
  · exact hr.super.trans hsuper

theorem Sane.allocInode (h : Sane fo others super s) (type now : ℕ) :
    ends (fo.allocInode type now) (Sane fo others super) s := by
  intro r t hrun
  refine h.call hl (c := .allocInode type now) trivial trivial ?_
  rw [Call.step, hrun]
  rfl

theorem Sane.writeFile (h : Sane fo others super s) (hn : Named s p) (hp : p ∉ others) (content : List UInt8)
    (now : ℕ) : ends (fo.writeFile p content now) (Sane fo others super) s := by
  intro r t hrun
  refine h.call hl (c := .writeFile p content now) hn hp ?_
  rw [Call.step, hrun]
  rfl

theorem Sane.removeFile (h : Sane fo others super s) (hn : Named s id) (hp : id ∉ others) :
    ends (fo.removeFile id) (Sane fo others super) s := by
  intro r t hrun
  refine h.call hl (c := .removeFile id) hn hp ?_
  rw [Call.step, hrun]
  rfl

omit hl in
theorem Sane.named (h : Sane fo others super s) (h' : Sane fo others super t) (hn : Named s p) : Named t p :=
  hn.congr (h'.1.trans h.1.symm)

theorem Sane.readFile (h : Sane fo others super s) (hn : Named s p) (hp : p ∉ others) :
    ∃ r, fo.readFile p s = some (r, s) := by
  obtain ⟨-, files, hinv⟩ := h
  exact ⟨_, readFile_eq hl hinv hn hp⟩

omit hl in
theorem parsed_ends {I : BlockManager sz cnt logCnt → Prop} (h : I s) (content : List UInt8) :
    ends (parsed content) I s := by
  unfold parsed
  split
  · exact ends_undefined
  · exact ends_pure h

theorem Sane.readDirectory (h : Sane fo others super s) (hn : Named s p) (hp : p ∉ others) :
    ends (readDirectory fo p) (· = s) s := by
  obtain ⟨r, hread⟩ := h.readFile hl hn hp
  unfold Fs.Directory.readDirectory
  refine ends.bind (J := (· = s)) (fun r' t hrun => ?_) (fun content t _ ht => parsed_ends (I := (· = s)) ht content)
    fun t ht => ht
  cases hread.symm.trans hrun
  rfl

theorem Sane.fsLookup (h : Sane fo others super s) (hn : Named s p) (hp : p ∉ others) (name : List UInt8) :
    ends (Fs.Directory.lookup fo p name) (· = s) s := by
  unfold Fs.Directory.lookup
  refine (h.readDirectory hl hn hp).bind (fun list t _ ht => ?_) fun t ht => ht
  cases find list name with
  | some e => exact ends_pure ht
  | none => exact ends_refuse ht

theorem Sane.readdir (h : Sane fo others super s) (hn : Named s p) (hp : p ∉ others) :
    ends (readdir fo p) (· = s) s := by
  obtain ⟨r, hread⟩ := h.readFile hl hn hp
  unfold Names.readdir
  refine ends.bind (J := (· = s)) (fun r' t hrun => ?_) (fun r' t _ ht => ?_) fun t ht => ht
  · cases (attempt_apply hread).symm.trans hrun
    rfl
  · cases r' with
    | error e => exact ends_pure ht
    | ok content => exact parsed_ends (I := (· = s)) ht content

theorem Sane.lookup (h : Sane fo others super s) (hn : Named s p) (hp : p ∉ others) (name : List UInt8) :
    ends (Names.lookup fo p name) (· = s) s := by
  unfold Names.lookup
  refine (h.fsLookup hl hn hp (cStr name)).attempt.bind (fun r t _ ht => ?_) fun t ht => ht
  cases r with
  | error e => exact ends_pure ht
  | ok id => exact ends_pure ht

theorem Sane.mkHelper (h : Sane fo others super s) (hn : Named s p) (hp : p ∉ others) (type now now' : ℕ) :
    ends (mkHelper fo p name type now now') (Sane fo others super) s := by
  unfold Fs.Directory.mkHelper
  refine (h.readDirectory hl hn hp).bind (fun list t _ ht => ?_) fun t ht => ht ▸ h
  subst ht
  split
  · exact ends_refuse h
  · refine (h.allocInode hl type now).bind (fun id u _ hu => ?_) fun u hu => hu
    exact (hu.writeFile hl (h.named hu hn) hp _ now').bind (fun _ v _ hv => ends_pure hv) fun v hv => hv

theorem Sane.mknode (h : Sane fo others super s) (hn : Named s p) (hp : p ∉ others) (type now now' : ℕ) :
    ends (mknode fo type p name now now') (Sane fo others super) s := by
  unfold Names.mknode
  refine (h.readdir hl hn hp).bind (fun list t _ ht => ?_) fun t ht => ht ▸ h
  subst ht
  split
  · exact ends_pure h
  · refine (h.allocInode hl type now).attempt.bind (fun r u _ hu => ?_) fun u hu => hu
    cases r with
    | error e => exact ends_pure hu
    | ok id =>
      refine (hu.writeFile hl (h.named hu hn) hp _ now').attempt.bind (fun r v _ hv => ?_) fun v hv => hv
      cases r with
      | error e => exact ends_pure hv
      | ok _ => exact ends_pure hv

theorem Sane.fsUnlink (h : Sane fo others super s) (hn : Named s p) (hp : p ∉ others)
    (hr : ∀ id, Fs.Directory.lookup fo p name s = some (.ok id, s) → Named s id ∧ id ∉ others) (now : ℕ) :
    ends (Fs.Directory.unlink fo p name now) (Sane fo others super) s := by
  unfold Fs.Directory.unlink
  refine (h.readDirectory hl hn hp).bind (fun list t _ ht => ?_) fun t ht => ht ▸ h
  subst ht
  refine (h.fsLookup hl hn hp name).bind (fun id t hrun ht => ?_) fun t ht => ht ▸ h
  subst ht
  obtain ⟨hn', hp'⟩ := hr id hrun
  exact (h.removeFile hl hn' hp').bind (fun _ u _ hu => hu.writeFile hl (h.named hu hn) hp _ now) fun u hu => hu

theorem Sane.unlink (h : Sane fo others super s) (hn : Named s p) (hp : p ∉ others)
    (hr : ∀ id, Names.lookup fo p name s = some (.ok id, s) → id ∉ others) (now : ℕ) :
    ends (Names.unlink fo p name now) (Sane fo others super) s := by
  unfold Names.unlink
  refine (h.readdir hl hn hp).bind (fun list t _ ht => ?_) fun t ht => ht ▸ h
  subst ht
  refine (h.lookup hl hn hp name).bind (fun id t hrun ht => ?_) fun t ht => ht ▸ h
  subst ht
  split
  case isTrue => exact ends_pure h
  case isFalse hne =>
    refine (h.removeFile hl (Or.inl hne) (hr id hrun)).attempt.bind (fun r u _ hu => ?_) fun u hu => hu
    cases r with
    | error e => exact ends_pure hu
    | ok _ =>
      cases hpos : list.findIdx? (·.id = id) with
      | none => exact ends_undefined
      | some pos =>
        refine (hu.writeFile hl (h.named hu hn) hp _ now).attempt.bind (fun r v _ hv => ?_) fun v hv => hv
        cases r with
        | error e => exact ends_pure hv
        | ok _ => exact ends_pure hv

theorem Sane.rewriteInode (h : Sane fo others super s) (hn : Named s id) (change : List UInt8 → List UInt8) :
    ends (rewriteInode fo id change) (Sane fo (insert id others) super) s := by
  obtain ⟨hsuper, files, hinv⟩ := h
  have hmono : Sane fo (insert id others) super s :=
    ⟨hsuper, files, { hinv with
      holds := fun i g hg hi => hinv.holds i g hg fun hmem => hi (Set.mem_insert_of_mem id hmem) }⟩
  unfold FailedCreates.rewriteInode
  rintro r t hrun
  by_cases hr : files id = none ∨ fo.inodeManager.maxInodeSupported - 1 ≤ id
  · rw [bind_error (hinv.readInode_refused hl hn hr)] at hrun
    cases hrun
    exact hmono
  · rw [not_or, Nat.not_le] at hr
    obtain ⟨f, hf⟩ := Option.ne_none_iff_exists'.mp hr.1
    obtain ⟨hge, hlt, -⟩ := hinv.data id f hf f.inode List.mem_cons_self
    rw [bind_ok (hinv.readInode_some hl hf hr.2)] at hrun
    simp only at hrun
    by_cases hlen : (change (s.blocks f.inode)).length = sz
    · rw [writeBlock_apply hinv.works (by omega) hlen] at hrun
      cases hrun
      refine ⟨?_, _, inv_rewritten hl hinv hf hlen⟩
      have hpos := dataStart_pos hl
      rw [setBlock_blocks, Function.update_of_ne (by omega), hsuper]
    · unfold writeBlock at hrun
      rw [if_neg (by simp [BlockManager.fails, hinv.works]), dif_neg fun hand => hlen hand.2] at hrun
      cases hrun

omit hl in
theorem sane_of_device (hd : Dimensions sz cnt n) (h : Device n fo others s) :
    Layout fo sz cnt ∧ ∃ super, Sane fo others super s := by
  induction h with
  | create hworks hcreate =>
    obtain ⟨t, hcreate', hinv⟩ := Fs.Contents.create_spec hd hworks
    cases hcreate'.symm.trans hcreate
    exact ⟨hd.layout, _, rfl, _, hinv⟩
  | call _ hn hp hstep ih =>
    obtain ⟨hl, super, hs⟩ := ih
    exact ⟨hl, super, hs.call hl hn hp hstep⟩
  | mkHelper _ hn hp hrun ih =>
    obtain ⟨hl, super, hs⟩ := ih
    exact ⟨hl, super, hs.mkHelper hl hn hp _ _ _ _ _ hrun⟩
  | fsUnlink _ hn hp hr hrun ih =>
    obtain ⟨hl, super, hs⟩ := ih
    exact ⟨hl, super, hs.fsUnlink hl hn hp hr _ _ _ hrun⟩
  | mknode _ hn hp hrun ih =>
    obtain ⟨hl, super, hs⟩ := ih
    exact ⟨hl, super, hs.mknode hl hn hp _ _ _ _ _ hrun⟩
  | unlink _ hn hp hr hrun ih =>
    obtain ⟨hl, super, hs⟩ := ih
    exact ⟨hl, super, hs.unlink hl hn hp hr _ _ _ hrun⟩
  | rewriteInode _ hn hrun ih =>
    obtain ⟨hl, super, hs⟩ := ih
    exact ⟨hl, super, hs.rewriteInode hl hn _ _ _ hrun⟩

end Device

structure NoTrace (fo : FileOperation) (s t : BlockManager sz cnt logCnt) : Prop where
  bitmap : ∀ b < cnt, fo.blockAllocator.used t b = fo.blockAllocator.used s b
  table : ∀ id, fo.inodeManager.Valid id → fo.inodeManager.entry t id = fo.inodeManager.entry s id
  inodes : ∀ id, fo.inodeManager.Valid id → fo.inodeManager.taken t id = fo.inodeManager.taken s id
  directories : ∀ id, (readDirectory fo id t).map Prod.fst = (readDirectory fo id s).map Prod.fst

/-- If `mk_helper` returns an error, nothing has changed. -/
def HelperClean (fo : FileOperation) (s : BlockManager sz cnt logCnt) (p : ℕ) (name : List UInt8)
    (type now now' : ℕ) : Prop :=
  ∀ e t, mkHelper fo p name type now now' s = some (.error e, t) → NoTrace fo s t

/-- If `mknode` returns 0, nothing has changed. -/
def MknodeClean (fo : FileOperation) (s : BlockManager sz cnt logCnt) (p : ℕ) (name : List UInt8)
    (type now now' : ℕ) : Prop :=
  ∀ t, mknode fo type p name now now' s = some (.ok 0, t) → NoTrace fo s t

def fileSize (fo : FileOperation) (s : BlockManager sz cnt logCnt) (id : ℕ) : ℕ :=
  ((fo.inodeManager.readInode id s).bind fun out => out.1.toOption).elim 0 fun out => getSize out.2

def extended (entries : List DirectoryEntry) (name : List UInt8) (id : ℕ) : List UInt8 :=
  dirListToString (entries ++ [⟨name, id⟩])

/-- The free inode `id` can be entered under the name: the directory can be
written, or is going to be the new inode itself, its text is not too large, and
there are blocks for the inode and for the text. -/
structure HasRoom (fo : FileOperation) (s : BlockManager sz cnt logCnt) (p : ℕ) (entries : List DirectoryEntry)
    (name : List UInt8) (id : ℕ) : Prop where
  free : IsLeast {i | fo.inodeManager.Valid i ∧ fo.inodeManager.taken s i = false} id
  parent : (∃ out, fo.inodeManager.readInode p s = some (.ok out, s)) ∨
    (p = id ∧ id < fo.inodeManager.maxInodeSupported - 1)
  size : (extended entries name id).length ≤ maxBlocks sz * sz
  blocks : 1 + blocksNeeded (directNum sz) (calculateBlockSz (fileSize fo s p) sz)
    (calculateBlockSz (extended entries name id).length sz) ≤ (freeBlocks fo s).card

/-- Nothing is begun, or everything can be finished. -/
def Settled (fo : FileOperation) (s : BlockManager sz cnt logCnt) (p : ℕ) (name : List UInt8)
    (entries : List DirectoryEntry) : Prop :=
  entries.any (·.name = name) = true ∨ freeBlocks fo s = ∅ ∨ ∃ id, HasRoom fo s p entries name id

/-- What `mk_helper` and `mknode` do once the directory has been read. -/
def make (fo : FileOperation) (p : ℕ) (entries : List DirectoryEntry) (name : List UInt8) (type now now' : ℕ) :
    Bm sz cnt logCnt ℕ := do
  let newInodeId ← fo.allocInode type now
  fo.writeFile p (extended entries name newInodeId) now'
  pure newInodeId

section Make

variable (hl : Layout fo sz cnt) {s t : BlockManager sz cnt logCnt} {others : Set ℕ} {files : ℕ → Option File}
  {id p : ℕ} {name : List UInt8} {entries : List DirectoryEntry} {super : List UInt8}

theorem NoTrace.refl (s : BlockManager sz cnt logCnt) : NoTrace fo s s :=
  ⟨fun _ _ => rfl, fun _ _ => rfl, fun _ _ => rfl, fun _ => rfl⟩

theorem NoTrace.freeBlocks_eq (h : NoTrace fo s t) : freeBlocks fo t = freeBlocks fo s := by
  ext b
  rw [mem_freeBlocks, mem_freeBlocks]
  exact and_congr_right fun hb => by rw [h.bitmap b hb]

theorem card_le_of_leaks (h : Leaks fo s t) : (freeBlocks fo t).card ≤ (freeBlocks fo s).card := by
  refine Finset.card_le_card fun b hb => ?_
  rw [mem_freeBlocks] at hb ⊢
  refine ⟨hb.1, ?_⟩
  rw [← Bool.not_eq_true]
  intro hused
  rw [h.used b hb.1 hused] at hb
  cases hb.2

theorem mkHelper_make (hread : readDirectory fo p s = some (.ok entries, s)) (type now now' : ℕ) :
    mkHelper fo p name type now now' s = if entries.any (·.name = name) = true
      then some (.error .alreadyExist, s) else make fo p entries name type now now' s := by
  unfold Fs.Directory.mkHelper
  rw [bind_ok hread]
  split
  · rfl
  · rfl

theorem mknode_make (hread : readdir fo p s = some (.ok entries, s)) (type now now' : ℕ) :
    mknode fo type p name now now' s = if entries.any (·.name = name) = true
      then some (.ok 0, s) else outcome idOf (make fo p entries name type now now') s := by
  unfold Names.mknode
  rw [bind_ok hread]
  split
  · rfl
  · refine attempt_bind s (fun id t _ => ?_) fun _ => rfl
    exact attempt_bind t (fun _ _ _ => rfl) fun _ => rfl

theorem fileSize_refused {e : ErrorType} (h : fo.inodeManager.readInode p s = some (.error e, t)) :
    fileSize fo s p = 0 := by
  simp only [fileSize, h, Option.bind_some, Except.toOption, Option.elim_none]

theorem fileSize_read {blockId : ℕ} {inode : List UInt8}
    (h : fo.inodeManager.readInode p s = some (.ok (blockId, inode), t)) : fileSize fo s p = getSize inode := by
  simp only [fileSize, h, Option.bind_some, Except.toOption, Option.elim_some]

include hl

theorem blockNum_eq (h : InvBut fo others s files) (hn : Named s p) (hp : p ∉ others) (hfree : files id = none)
    {b : ℕ} {g : File} (hg : Function.update files id (some ⟨b, [], invalidBlockId, []⟩) p = some g)
    (hlt : p < fo.inodeManager.maxInodeSupported - 1) :
    g.blocks.length = calculateBlockSz (fileSize fo s p) sz ∧
      ((∃ out, fo.inodeManager.readInode p s = some (.ok out, s)) ∨
        (p = id ∧ id < fo.inodeManager.maxInodeSupported - 1)) := by
  by_cases hpid : p = id
  · rw [hpid, Function.update_self] at hg
    cases hg
    rw [hpid] at hn hlt
    rw [hpid, fileSize_refused (h.readInode_refused hl hn (Or.inl hfree))]
    refine ⟨?_, Or.inr ⟨rfl, hlt⟩⟩
    rw [List.length_nil, calculateBlockSz, Nat.zero_mod, Nat.zero_div]
    exact (if_neg (not_not.mpr rfl)).symm
  · rw [Function.update_of_ne hpid] at hg
    have hhold := h.holds p g hg hp
    have hread := h.readInode_some hl hg hlt
    rw [fileSize_read hread, hhold.size]
    exact ⟨hhold.count, Or.inl ⟨_, hread⟩⟩

theorem make_spec (h : InvBut fo others s files) (hn : Named s p) (hp : p ∉ others)
    (entries : List DirectoryEntry) (name : List UInt8) (type now now' : ℕ) :
    wp (make fo p entries name type now now') (fun r t => match r with
      | .ok id => id ≠ 0 ∧ HasRoom fo s p entries name id
      | .error _ => (t = s ∧ freeBlocks fo s = ∅) ∨ ((freeBlocks fo t).card < (freeBlocks fo s).card ∧
          ∀ id, ¬ HasRoom fo s p entries name id)) s := by
  refine (allocInode_spec hl h type now).bind (fun id t₁ hid => ?_) fun e t₁ he => ?_
  · obtain ⟨b, hvalid, hfree, hfirst, hr⟩ := hid
    have hleast : IsLeast {i | fo.inodeManager.Valid i ∧ fo.inodeManager.taken s i = false} id := by
      refine ⟨⟨hvalid, by rw [h.taken id hvalid, hfree]; rfl⟩, fun i hi => ?_⟩
      by_contra hlt
      cases (hfirst i hi.1.1 (Nat.lt_of_not_le hlt)).symm.trans hi.2
    have hcard : (freeBlocks fo t₁).card + 1 = (freeBlocks fo s).card := by
      have hb : b ∈ ownedOf (some ⟨b, [], invalidBlockId, []⟩) := List.mem_singleton.mpr rfl
      obtain ⟨-, hlt, hold⟩ := hr.data b hb
      refine card_freeBlocks hlt (hold.resolve_left List.not_mem_nil) fun x hx => ?_
      rw [hr.bits x hx, if_neg (c := x ∈ ownedOf none) List.not_mem_nil]
      exact if_congr List.mem_singleton rfl rfl
    have h₁ := (hfree.symm ▸ hr : Replaces fo s t₁ id (files id) _).inv h hl hvalid
    have hn₁ : Named t₁ p := hn.congr hr.super
    by_cases hdead : Function.update files id (some ⟨b, [], invalidBlockId, []⟩) p = none ∨
        fo.inodeManager.maxInodeSupported - 1 ≤ p
    · -- the parent is not there, but the inode is
      have hrun : fo.writeFile p (extended entries name id) now' t₁ = _ :=
        bind_error (h₁.readInode_refused hl hn₁ hdead)
      refine ⟨_, t₁, bind_error hrun, Or.inr ⟨by omega, fun id' hroom => ?_⟩⟩
      obtain rfl := hleast.unique hroom.free
      obtain ⟨out, hout⟩ | ⟨rfl, hlt⟩ := hroom.parent
      · have hnone : files p = none ∨ fo.inodeManager.maxInodeSupported - 1 ≤ p := by
          refine hdead.imp_left fun hnone => ?_
          by_cases hpid : p = id
          · rw [hpid, hfree]
          · rwa [Function.update_of_ne hpid] at hnone
        cases (h.readInode_refused hl hn hnone).symm.trans hout
      · rw [Function.update_self] at hdead
        obtain hdead | hdead := hdead
        · cases hdead
        · omega
    · rw [not_or, Nat.not_le] at hdead
      obtain ⟨g, hg⟩ := Option.ne_none_iff_exists'.mp hdead.1
      obtain ⟨hold, hparent⟩ := blockNum_eq hl h hn hp hfree hg hdead.2
      by_cases hle : (extended entries name id).length ≤ maxBlocks sz * sz
      · refine (writeFile_counts hl h₁ hg hp hdead.2 hle now').bind (fun _ t₂ hcount => ?_) fun e t₂ hcount => ?_
        · rw [hold] at hcount
          have hne : id ≠ 0 := by
            have := hvalid.1
            omega
          exact (wp_pure _).mpr ⟨hne, hleast, hparent, hle, by omega⟩
        · rw [hold] at hcount
          have hleft := card_le_of_leaks hcount.leaks
          have hlt := hcount.lt
          refine Or.inr ⟨by omega, fun id' hroom => ?_⟩
          obtain rfl := hleast.unique hroom.free
          have := hroom.blocks
          omega
      · have hrun := writeFile_large hl h₁ hg hp hdead.2 (Nat.lt_of_not_le hle) now'
        refine ⟨_, t₁, bind_error hrun, Or.inr ⟨by omega, fun id' hroom => ?_⟩⟩
        obtain rfl := hleast.unique hroom.free
        exact hle hroom.size
  · obtain ⟨-, ⟨rfl, hnone⟩ | ⟨hspends, hall⟩⟩ := he
    · exact Or.inl ⟨rfl, hnone⟩
    · have := hspends.card
      refine Or.inr ⟨by omega, fun id hroom => ?_⟩
      obtain ⟨hvalid, hnot⟩ := hroom.free.1
      cases (hall id hvalid).symm.trans hnot

/-- The end of `mk_helper` and `mknode` leaves no trace if it fails. -/
theorem make_clean_iff (h : InvBut fo others s files) (hn : Named s p) (hp : p ∉ others)
    (entries : List DirectoryEntry) (name : List UInt8) (type now now' : ℕ) :
    (∀ e t, make fo p entries name type now now' s = some (.error e, t) → NoTrace fo s t) ↔
      freeBlocks fo s = ∅ ∨ ∃ id, HasRoom fo s p entries name id := by
  obtain ⟨r, t, hrun, hspec⟩ := make_spec hl h hn hp entries name type now now'
  cases r with
  | ok id =>
    refine iff_of_true (fun e t' hrun' => ?_) (Or.inr ⟨id, hspec.2⟩)
    cases hrun.symm.trans hrun'
  | error e =>
    constructor
    · intro hclean
      obtain ⟨-, hnone⟩ | ⟨hlt, -⟩ := hspec
      · exact Or.inl hnone
      · rw [(hclean e t hrun).freeBlocks_eq] at hlt
        exact absurd hlt (Nat.lt_irrefl _)
    · intro hroom e' t' hrun'
      cases hrun.symm.trans hrun'
      obtain ⟨rfl, -⟩ | ⟨hlt, hno⟩ := hspec
      · exact NoTrace.refl _
      · obtain hnone | ⟨id, hid⟩ := hroom
        · rw [hnone, Finset.card_empty] at hlt
          exact absurd hlt (Nat.not_lt_zero _)
        · exact absurd hid (hno id)

theorem helperClean_iff (h : Sane fo others super s) (hn : Named s p) (hp : p ∉ others) (name : List UInt8)
    (type now now' : ℕ) : HelperClean fo s p name type now now' ↔
      ∀ entries, readDirectory fo p s = some (.ok entries, s) → Settled fo s p name entries := by
  have hsame := h.readDirectory hl hn hp
  obtain ⟨-, files, hinv⟩ := h
  cases hread : readDirectory fo p s with
  | none =>
    refine iff_of_true (fun e t hrun => ?_) fun entries hok => by cases hok
    unfold Fs.Directory.mkHelper at hrun
    change (readDirectory fo p s).bind _ = _ at hrun
    rw [hread] at hrun
    cases hrun
  | some out =>
    obtain ⟨r, t⟩ := out
    obtain rfl : t = s := hsame r t hread
    cases r with
    | error e =>
      refine iff_of_true (fun e' t' hrun => ?_) fun entries hok => by cases hok
      have hrun' : mkHelper fo p name type now now' t = _ := bind_error hread
      cases hrun'.symm.trans hrun
      exact NoTrace.refl _
    | ok entries =>
      unfold HelperClean Settled
      rw [mkHelper_make hread]
      by_cases hany : entries.any (·.name = name) = true
      · rw [if_pos hany]
        refine iff_of_true (fun e t' hrun => ?_) fun entries' hok => ?_
        · cases hrun
          exact NoTrace.refl _
        · cases hok
          exact Or.inl hany
      · rw [if_neg hany, make_clean_iff hl hinv hn hp]
        constructor
        · intro hroom entries' hok
          cases hok
          exact Or.inr hroom
        · exact fun hall => (hall entries rfl).resolve_left hany

theorem mknodeClean_iff (h : Sane fo others super s) (hn : Named s p) (hp : p ∉ others) (name : List UInt8)
    (type now now' : ℕ) : MknodeClean fo s p name type now now' ↔
      ∀ entries, readdir fo p s = some (.ok entries, s) → Settled fo s p name entries := by
  have hsame := h.readdir hl hn hp
  obtain ⟨-, files, hinv⟩ := h
  cases hread : readdir fo p s with
  | none =>
    refine iff_of_true (fun t hrun => ?_) fun entries hok => by cases hok
    unfold Names.mknode at hrun
    change (readdir fo p s).bind _ = _ at hrun
    rw [hread] at hrun
    cases hrun
  | some out =>
    obtain ⟨r, t⟩ := out
    obtain rfl : t = s := hsame r t hread
    cases r with
    | error e =>
      refine iff_of_true (fun t' hrun => ?_) fun entries hok => by cases hok
      have hrun' : mknode fo type p name now now' t = _ := bind_error hread
      cases hrun'.symm.trans hrun
    | ok entries =>
      unfold MknodeClean Settled
      rw [mknode_make hread]
      by_cases hany : entries.any (·.name = name) = true
      · rw [if_pos hany]
        refine iff_of_true (fun t' hrun => ?_) fun entries' hok => ?_
        · cases hrun
          exact NoTrace.refl _
        · cases hok
          exact Or.inl hany
      · obtain ⟨r, u, hmake, hspec⟩ := make_spec hl hinv hn hp entries name type now now'
        have hclean := make_clean_iff hl hinv hn hp entries name type now now'
        rw [if_neg hany, outcome_apply hmake]
        trans ∀ e t', make fo p entries name type now now' t = some (.error e, t') → NoTrace fo t t'
        · constructor
          · intro hzero e t' hrun
            cases hmake.symm.trans hrun
            exact hzero _ rfl
          · intro herr t' heq
            cases r with
            | ok id => exact absurd (by cases heq; rfl) hspec.1
            | error e =>
              cases heq
              exact herr e _ hmake
        · rw [hclean]
          constructor
          · intro hroom entries' hok
            cases hok
            exact Or.inr hroom
          · exact fun hall => (hall entries rfl).resolve_left hany

end Make

/-- On a file system or a metadata server, after any calls and requests, a
`mk_helper` that fails and a `mknode` that fails leave no trace if and only if
they cannot fail half-way. -/
theorem clean_iff_settled (hd : Dimensions sz cnt n) {others : Set ℕ} {s : BlockManager sz cnt logCnt}
    (h : Device n fo others s) {p : ℕ} (hn : Named s p) (hp : p ∉ others) (name : List UInt8)
    (type now now' : ℕ) :
    (HelperClean fo s p name type now now' ↔
      ∀ entries, readDirectory fo p s = some (.ok entries, s) → Settled fo s p name entries) ∧
    (MknodeClean fo s p name type now now' ↔
      ∀ entries, readdir fo p s = some (.ok entries, s) → Settled fo s p name entries) := by
  obtain ⟨hl, super, hs⟩ := sane_of_device hd h
  exact ⟨helperClean_iff hl hs hn hp name type now now', mknodeClean_iff hl hs hn hp name type now now'⟩

theorem device_of_reachable {s : BlockManager sz cnt logCnt} (h : Reachable n fo s) : Device n fo ∅ s := by
  obtain ⟨s₀, t₀, hworks, hcreate, hreach⟩ := h
  induction hreach with
  | refl => exact .create hworks hcreate
  | tail _ hc hs ih => exact ih.call hc (Call.avoids_empty _) hs

def sample (calls : List Call) : Option (BlockManager 56 72 0) :=
  (FileOperation.create 1 (BlockManager.zeroed 56 72 0)).bind fun out =>
    execOk (Call.step (FileOperation.fields 56 72 1)) (fun _ c => c.hasName) out.2 calls

theorem device_sample {calls : List Call} {s : BlockManager 56 72 0} (h : sample calls = some s) :
    Device 1 (FileOperation.fields 56 72 1) ∅ s := by
  obtain ⟨t, hcreate, -⟩ := Fs.Contents.create_spec dimensions_small (s := BlockManager.zeroed 56 72 0) rfl
  unfold sample at h
  rw [hcreate, Option.bind_some] at h
  exact device_of_reachable ⟨_, t, rfl, hcreate, reach_of_execOk Call.names_of_hasName h⟩

/-- A root directory, with room for an entry. -/
theorem clean_iff_settled_root : ∃ s : BlockManager 56 72 0, Device 1 (FileOperation.fields 56 72 1) ∅ s ∧
    Named s 1 ∧ HelperClean (FileOperation.fields 56 72 1) s 1 [97] 1 6 7 ∧
    MknodeClean (FileOperation.fields 56 72 1) s 1 [97] 1 6 7 := by
  have hrun : (sample [.allocInode 2 5]).map (fun s => ((freeBlocks (FileOperation.fields 56 72 1) s).card,
      (FileOperation.fields 56 72 1).inodeManager.taken s 1, (FileOperation.fields 56 72 1).inodeManager.taken s 2,
      (FileOperation.fields 56 72 1).inodeManager.entry s 1, fileSize (FileOperation.fields 56 72 1) s 1)) =
      some (4, true, false, 67, 0) := by decide +kernel
  have hread : (sample [.allocInode 2 5]).map (fun s =>
      (readDirectory (FileOperation.fields 56 72 1) 1 s).map Prod.fst) = some (some (.ok [])) := by decide +kernel
  have hread' : (sample [.allocInode 2 5]).map (fun s =>
      (readdir (FileOperation.fields 56 72 1) 1 s).map Prod.fst) = some (some (.ok [])) := by decide +kernel
  obtain ⟨s, hs, heval⟩ := Option.map_eq_some_iff.mp hrun
  simp only [Prod.mk.injEq] at heval
  obtain ⟨hcard, htaken, hfree, hentry, hsize⟩ := heval
  rw [hs, Option.map_some, Option.some.injEq] at hread hread'
  have hdevice := device_sample hs
  have hn : Named s 1 := Or.inl (by decide)
  have hroom : HasRoom (FileOperation.fields 56 72 1) s 1 [] [97] 2 := by
    refine ⟨⟨⟨⟨by decide, by decide⟩, hfree⟩, fun i hi => ?_⟩, ?_, by decide, ?_⟩
    · by_contra hlt
      have h1 := hi.1.1
      obtain rfl : i = 1 := by omega
      cases htaken.symm.trans hi.2
    · refine Or.inl ⟨(67, s.blocks 67), ?_⟩
      rw [readInode_apply dimensions_small.layout.inodes (Nat.le_refl 1), hentry]
      exact (if_neg (by decide)).trans (if_pos (by decide))
    · rw [hcard, hsize]
      decide
  obtain ⟨hhelper, hmknode⟩ := clean_iff_settled dimensions_small hdevice hn (Set.notMem_empty 1) [97] 1 6 7
  refine ⟨s, hdevice, hn, hhelper.mpr fun entries hok => ?_, hmknode.mpr fun entries hok => ?_⟩
  · rw [hok] at hread
    cases hread
    exact Or.inr (Or.inr ⟨2, hroom⟩)
  · rw [hok] at hread'
    cases hread'
    exact Or.inr (Or.inr ⟨2, hroom⟩)

/-- An inode that no directory names: `mknode` in a directory that does not
exist, and `mk_helper` with no block left for the text of the directory. -/
theorem not_clean_dead_or_full : ∃ s t u v : BlockManager 56 72 0, Device 1 (FileOperation.fields 56 72 1) ∅ s ∧
    mknode (FileOperation.fields 56 72 1) 1 7 [97] 6 7 s = some (.ok 0, t) ∧
    (FileOperation.fields 56 72 1).inodeManager.taken s 2 = false ∧
    (FileOperation.fields 56 72 1).inodeManager.taken t 2 = true ∧
    ¬ MknodeClean (FileOperation.fields 56 72 1) s 7 [97] 1 6 7 ∧
    Device 1 (FileOperation.fields 56 72 1) ∅ u ∧
    mkHelper (FileOperation.fields 56 72 1) 1 [97] 1 6 7 u = some (.error .outOfResource, v) ∧
    (FileOperation.fields 56 72 1).inodeManager.taken u 5 = false ∧
    (FileOperation.fields 56 72 1).inodeManager.taken v 5 = true ∧
    ¬ HelperClean (FileOperation.fields 56 72 1) u 1 [97] 1 6 7 := by
  have hrun : ((sample [.allocInode 2 5]).bind fun s =>
      (mknode (FileOperation.fields 56 72 1) 1 7 [97] 6 7 s).map fun out =>
        (out.1, (FileOperation.fields 56 72 1).inodeManager.taken s 2,
          (FileOperation.fields 56 72 1).inodeManager.taken out.2 2)) = some (.ok 0, false, true) := by
    decide +kernel
  have hrun' : ((sample (List.replicate 4 (.allocInode 2 5))).bind fun s =>
      (mkHelper (FileOperation.fields 56 72 1) 1 [97] 1 6 7 s).map fun out =>
        (out.1, (FileOperation.fields 56 72 1).inodeManager.taken s 5,
          (FileOperation.fields 56 72 1).inodeManager.taken out.2 5)) =
      some (.error .outOfResource, false, true) := by decide +kernel
  obtain ⟨s, hs, heval⟩ := Option.bind_eq_some_iff.mp hrun
  obtain ⟨⟨r, t⟩, hmknode, heq⟩ := Option.map_eq_some_iff.mp heval
  simp only [Prod.mk.injEq] at heq
  obtain ⟨rfl, hs2, ht2⟩ := heq
  obtain ⟨u, hu, heval'⟩ := Option.bind_eq_some_iff.mp hrun'
  obtain ⟨⟨r', v⟩, hhelper, heq'⟩ := Option.map_eq_some_iff.mp heval'
  simp only [Prod.mk.injEq] at heq'
  obtain ⟨rfl, hu5, hv5⟩ := heq'
  refine ⟨s, t, u, v, device_sample hs, hmknode, hs2, ht2, fun hclean => ?_, device_sample hu, hhelper, hu5, hv5,
    fun hclean => ?_⟩
  · have hbit := (hclean t hmknode).inodes 2 ⟨by decide, by decide⟩
    rw [hs2, ht2] at hbit
    cases hbit
  · have hbit := (hclean _ v hhelper).inodes 5 ⟨by decide, by decide⟩
    rw [hu5, hv5] at hbit
    cases hbit

end Chfs.Distributed.FailedCreates
