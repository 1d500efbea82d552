import Chfs.Fs.Contents
import Chfs.Fs.Directory

namespace Chfs.Fs.Naming

open Lib.Effect Lib.Tree Block.Manager Block.Allocator Inode Operations Files Growth Writing Removal Contents
  Directory

variable {sz cnt logCnt : ℕ} {fo : FileOperation}

def liveOf (files : ℕ → Option File) : Set ℕ := {id | (files id).isSome = true}

def Live (fo : FileOperation) (s : BlockManager sz cnt logCnt) (id : ℕ) : Prop :=
  fo.inodeManager.Valid id ∧ fo.inodeManager.taken s id = true

def Direct (fo : FileOperation) (s : BlockManager sz cnt logCnt) (id : ℕ) : Prop :=
  let inode := s.blocks (fo.inodeManager.entry s id)
  getBlock inode (getDirectBlockNum inode) = invalidBlockId

structure Start (n : ℕ) (fo : FileOperation) (s : BlockManager sz cnt logCnt) : Prop where
  exists_create : ∃ (s₀ s₁ : BlockManager sz cnt logCnt) (now : ℕ), s₀.maybeFailed = false ∧
    FileOperation.create n s₀ = some (.ok fo, s₁) ∧ fo.allocInode 2 now s₁ = some (.ok 1, s)

structure Directories (fo : FileOperation) (s : BlockManager sz cnt logCnt) (files : ℕ → Option File)
    (dirs : ℕ → List DirectoryEntry) : Prop where
  inv : Inv fo s files
  text : ∀ id f, files id = some f → f.content = dirListToString (dirs id)
  named : ∀ id, ∀ e ∈ dirs id, ValidName e.name
  linked : Linked (liveOf files) dirs

section Live

variable {s : BlockManager sz cnt logCnt} {files : ℕ → Option File} {id : ℕ} {f : File}

theorem mem_liveOf : id ∈ liveOf files ↔ ∃ f, files id = some f := Option.isSome_iff_exists

theorem liveOf_update_some : liveOf (Function.update files id (some f)) = insert id (liveOf files) := by
  ext x
  rw [Set.mem_insert_iff, liveOf, Set.mem_ofPred_eq]
  by_cases hx : x = id
  · simp [hx]
  · rw [Function.update_of_ne hx]
    simp [hx, liveOf]

theorem liveOf_update_none : liveOf (Function.update files id none) = liveOf files \ {id} := by
  ext x
  rw [Set.mem_sdiff, Set.mem_singleton_iff, liveOf, Set.mem_ofPred_eq]
  by_cases hx : x = id
  · simp [hx]
  · rw [Function.update_of_ne hx]
    simp [hx, liveOf]

theorem liveOf_update_self {g : File} (hf : files id = some f) :
    liveOf (Function.update files id (some g)) = liveOf files := by
  rw [liveOf_update_some, Set.insert_eq_of_mem (mem_liveOf.mpr ⟨f, hf⟩)]

theorem live_iff (h : Inv fo s files) : Live fo s id ↔ id ∈ liveOf files := by
  unfold Live
  rw [mem_liveOf]
  constructor
  · rintro ⟨hvalid, htaken⟩
    rw [h.taken id hvalid] at htaken
    exact Option.isSome_iff_exists.mp htaken
  · rintro ⟨f, hf⟩
    have hvalid := h.valid id f hf
    exact ⟨hvalid, by rw [h.taken id hvalid, hf]; rfl⟩

end Live

section Read

variable (hl : Layout fo sz cnt) {s t : BlockManager sz cnt logCnt} {files : ℕ → Option File}
  {dirs : ℕ → List DirectoryEntry} {f : File} {p id : ℕ} {name : List UInt8} {e : DirectoryEntry}
include hl

theorem direct_iff (h : Inv fo s files) (hf : files id = some f) :
    Direct fo s id ↔ f.indirect = invalidBlockId := by
  have hhold := h.holds id f hf (Set.notMem_empty _)
  have hentry := h.entry id (h.valid id f hf)
  rw [hf, Option.map_some, Option.getD_some] at hentry
  unfold Direct
  simp only
  rw [hentry, hhold.shape.directNum_eq hl.size, hhold.slot]

theorem root_lt : 1 < fo.inodeManager.maxInodeSupported - 1 := by
  have hge := hl.size.ge
  have hle : 1 * (sz * bitsPerByte) ≤ fo.inodeManager.maxInodeSupported :=
    hl.inodes.max_eq ▸ Nat.mul_le_mul_right _ hl.inodes.bitmap_pos
  unfold bitsPerByte at hle
  omega

theorem Directories.id_lt (h : Directories fo s files dirs) (he : e ∈ dirs p) :
    1 ≤ e.id ∧ e.id < 2 ^ 64 := by
  obtain ⟨f, hf⟩ := mem_liveOf.mp (h.linked.target p e he)
  have hvalid := h.inv.valid _ f hf
  exact ⟨hvalid.1, Nat.lt_of_le_of_lt hvalid.2 hl.inodes.max_lt⟩

theorem Directories.parse (h : Directories fo s files dirs) (hf : files p = some f) :
    parseDirectory f.content = some (dirs p) := by
  rw [h.text p f hf]
  exact parseDirectory_dirListToString (fun e he => (h.named p e he).slash) (fun e he => (h.named p e he).colon)
    fun e he => (h.id_lt hl he).2

theorem Directories.readDirectory (h : Directories fo s files dirs) (hf : files p = some f)
    (hlt : p < fo.inodeManager.maxInodeSupported - 1) :
    readDirectory fo p s = some (.ok (dirs p), s) := by
  unfold Directory.readDirectory
  rw [bind_ok (h.inv.readFile_some hl hf (Set.notMem_empty _) hlt), parsed, h.parse hl hf]
  rfl

theorem Directories.readDirectory_refused (h : Directories fo s files dirs) (hf : files p = some f)
    (hge : fo.inodeManager.maxInodeSupported - 1 ≤ p) :
    Directory.readDirectory fo p s = some (.error .invalidArg, s) := by
  have hn : Named s p := by
    have := (h.inv.valid p f hf).1
    exact Or.inl (by unfold invalidInodeId; omega)
  unfold Directory.readDirectory
  rw [bind_error (h.inv.readFile_none hl hn (Or.inr hge))]

theorem Directories.lookup (h : Directories fo s files dirs) (hf : files p = some f)
    (hlt : p < fo.inodeManager.maxInodeSupported - 1) (name : List UInt8) :
    lookup fo p name s = some (match find (dirs p) name with
      | some e => .ok e.id
      | none => .error .notExist, s) := by
  unfold Directory.lookup
  rw [bind_ok (h.readDirectory hl hf hlt)]
  cases find (dirs p) name <;> rfl

theorem Directories.replace (h : Directories fo s files dirs) (hid : fo.inodeManager.Valid id)
    {new : Option File} (hr : Replaces fo s t id (files id) new) (dirs' : ℕ → List DirectoryEntry)
    (htext : ∀ g, new = some g → g.content = dirListToString (dirs' id))
    (hother : ∀ x, x ≠ id → dirs' x = dirs x) (hnamed : ∀ x, ∀ e ∈ dirs' x, ValidName e.name)
    (hlinked : Linked (liveOf (Function.update files id new)) dirs') :
    Directories fo t (Function.update files id new) dirs' where
  inv := hr.inv h.inv hl hid
  text := by
    intro x g hg
    by_cases hx : x = id
    · rw [hx, Function.update_self] at hg
      rw [hx]
      exact htext g hg
    · rw [Function.update_of_ne hx] at hg
      rw [hother x hx]
      exact h.text x g hg
  named := hnamed
  linked := hlinked

theorem Directories.leak (h : Directories fo s files dirs) (hk : Leaks fo s t) :
    Directories fo t files dirs :=
  ⟨leaks_inv hk h.inv hl, h.text, h.named, h.linked⟩

end Read

structure FirstFree (fo : FileOperation) (s : BlockManager sz cnt logCnt) (files : ℕ → Option File) (id : ℕ) :
    Prop where
  valid : fo.inodeManager.Valid id
  free : files id = none
  first : ∀ i, 1 ≤ i → i < id → fo.inodeManager.taken s i = true

/-- What `mk_helper` can do. If space runs out, a new inode without an entry may
be left. -/
def Made (fo : FileOperation) (s : BlockManager sz cnt logCnt) (files : ℕ → Option File)
    (dirs : ℕ → List DirectoryEntry) (p : ℕ) (name : List UInt8) (r : Except ErrorType ℕ)
    (t : BlockManager sz cnt logCnt) : Prop :=
  match r with
  | .ok id => FirstFree fo s files id ∧ ∃ files', liveOf files' = insert id (liveOf files) ∧
      Directories fo t files' (link dirs p ⟨name, id⟩)
  | .error e => e = .outOfResource ∧ ∃ files', (liveOf files' = liveOf files ∨
      ∃ id, FirstFree fo s files id ∧ liveOf files' = insert id (liveOf files)) ∧
      Directories fo t files' dirs

section Change

variable (hl : Layout fo sz cnt) {s t : BlockManager sz cnt logCnt} {files : ℕ → Option File}
  {dirs : ℕ → List DirectoryEntry} {f : File} {p : ℕ} {name : List UInt8} {e : DirectoryEntry}
include hl

theorem mkHelper_listed (h : Directories fo s files dirs) (hf : files p = some f)
    (hlt : p < fo.inodeManager.maxInodeSupported - 1) (he : find (dirs p) name = some e) (type now now' : ℕ) :
    mkHelper fo p name type now now' s = some (.error .alreadyExist, s) := by
  have hany : (dirs p).any (·.name = name) = true := by
    obtain ⟨hmem, hname⟩ := find_eq_some he
    exact List.any_eq_true.mpr ⟨e, hmem, by simpa using hname⟩
  unfold mkHelper
  rw [bind_ok (h.readDirectory hl hf hlt), if_pos hany, refuse_apply]

theorem Directories.allocated (h : Directories fo s files dirs) {id b : ℕ} (hfree : files id = none)
    (hid : fo.inodeManager.Valid id) (hr : Replaces fo s t id none (some ⟨b, [], invalidBlockId, []⟩)) :
    Directories fo t (Function.update files id (some ⟨b, [], invalidBlockId, []⟩)) dirs := by
  have hdead : id ∉ liveOf files := by
    rw [mem_liveOf, hfree]
    simp
  refine h.replace hl hid (hfree.symm ▸ hr) dirs (fun g hg => ?_) (fun x _ => rfl) h.named ?_
  · cases hg
    rw [h.linked.dead id hdead]
    rfl
  · rw [liveOf_update_some]
    exact h.linked.grow id

omit hl in
theorem directories_of_start {n : ℕ} (hd : Dimensions sz cnt n) (h : Start n fo s) : Layout fo sz cnt ∧
    ∃ files, liveOf files = {1} ∧ Directories fo s files fun _ => [] := by
  obtain ⟨s₀, s₁, now, hworks, hcreate, halloc⟩ := h.exists_create
  obtain ⟨t, hcreate', hinv⟩ := create_spec hd hworks
  cases hcreate'.symm.trans hcreate
  have hl := hd.layout
  obtain ⟨b, hvalid, hfree, -, hr⟩ := (allocInode_spec hl hinv 2 now).of_eq halloc
  have hlive : liveOf (fun _ => none) = ∅ := by
    ext x
    rw [mem_liveOf]
    simp
  have h₁ : Directories (FileOperation.fields sz cnt n) s₁ (fun _ => none) fun _ => [] := by
    refine ⟨hinv, fun id f hf => ?_, fun id e he => absurd he List.not_mem_nil, ?_⟩
    · cases hf
    · rw [hlive]
      exact linked_empty
  refine ⟨hl, _, ?_, h₁.allocated hl hfree hvalid hr⟩
  rw [liveOf_update_some, hlive, insert_empty_eq]

theorem mkHelper_spec (h : Directories fo s files dirs) (hf : files p = some f)
    (hlt : p < fo.inodeManager.maxInodeSupported - 1) (hname : ValidName name)
    (hnone : find (dirs p) name = none) (type now now' : ℕ) :
    wp (mkHelper fo p name type now now') (Made fo s files dirs p name) s := by
  have hnot := find_eq_none.mp hnone
  apply wp_bind_ok (h.readDirectory hl hf hlt)
  have hany : ¬ (dirs p).any (·.name = name) = true := by
    rw [List.any_eq_true]
    rintro ⟨e, he, heq⟩
    exact hnot e he (by simpa using heq)
  rw [if_neg hany]
  refine (allocInode_spec hl h.inv type now).bind (fun id t₁ hid => ?_) fun e t₁ he => ?_
  · obtain ⟨b, hvalid, hfree, hfirst, hr⟩ := hid
    have h₁ := h.allocated hl hfree hvalid hr
    have hpid : p ≠ id := by
      rintro rfl
      cases hf.symm.trans hfree
    have hf₁ : Function.update files id (some ⟨b, [], invalidBlockId, []⟩) p = some f := by
      rw [Function.update_of_ne hpid, hf]
    have hn₁ : Named t₁ p := by
      have := (h.inv.valid p f hf).1
      exact Or.inl (by unfold invalidInodeId; omega)
    obtain ⟨r, t, hrun, hspec⟩ :=
      writeFile_spec hl h₁.inv hn₁ (Set.notMem_empty _) (dirListToString (dirs p ++ [⟨name, id⟩])) now'
    cases r with
    | ok u =>
      obtain ⟨f', i, ids, hf', -, hr'⟩ := hspec
      cases hf₁.symm.trans hf'
      have hlive := fun g => (liveOf_update_self (g := g) hf₁).trans liveOf_update_some
      have h₂ := h₁.replace hl (h.inv.valid p f hf) (hf₁.symm ▸ hr') (link dirs p ⟨name, id⟩)
        (fun g hg => by
          cases hg
          rw [link, Function.update_self]) (fun x hx => by rw [link, Function.update_of_ne hx])
        (fun x e he => by
          obtain he | ⟨-, rfl⟩ := mem_link.mp he
          · exact h.named x e he
          · exact hname)
        (by
          rw [hlive]
          refine h.linked.link (mem_liveOf.mpr ⟨f, hf⟩) ?_ hnot
          rw [mem_liveOf, hfree]
          simp)
      exact ⟨_, _, bind_ok hrun, ⟨hvalid, hfree, hfirst⟩, _, hlive _, h₂⟩
    | error e =>
      refine ⟨_, _, bind_error hrun, writeFile_error hl h₁.inv hf₁ (Set.notMem_empty _) hlt hrun, _,
        Or.inr ⟨id, ⟨hvalid, hfree, hfirst⟩, liveOf_update_some⟩, h₁.leak hl hspec⟩
  · exact ⟨he.1, files, Or.inl rfl, h.leak hl he.2.leaks⟩

theorem unlink_refused (h : Directories fo s files dirs) (hf : files p = some f)
    (hr : p < fo.inodeManager.maxInodeSupported - 1 → ∀ e ∈ find (dirs p) name,
      fo.inodeManager.maxInodeSupported - 1 ≤ e.id) (now : ℕ) :
    ∃ e, unlink fo p name now s = some (.error e, s) := by
  unfold unlink
  by_cases hlt : p < fo.inodeManager.maxInodeSupported - 1
  · have hlook := h.lookup hl hf hlt name
    rw [bind_ok (h.readDirectory hl hf hlt)]
    cases he : find (dirs p) name with
    | none =>
      rw [he] at hlook
      exact ⟨_, bind_error hlook⟩
    | some e =>
      rw [he] at hlook
      rw [bind_ok hlook]
      have hid := (h.id_lt hl (find_eq_some he).1).1
      have herr : fo.removeFile e.id s = some (.error .invalidArg, s) :=
        bind_error (h.inv.readInode_none hl hid (Or.inr (hr hlt e he)))
      exact ⟨_, bind_error herr⟩
  · exact ⟨_, bind_error (h.readDirectory_refused hl hf (by omega))⟩

theorem unlink_spec (h : Directories fo s files dirs) (hf : files p = some f)
    (hlt : p < fo.inodeManager.maxInodeSupported - 1) (he : find (dirs p) name = some e)
    (hlte : e.id < fo.inodeManager.maxInodeSupported - 1)
    (hi : ∀ g, files e.id = some g → g.indirect = invalidBlockId) (now : ℕ) :
    ∃ t, unlink fo p name now s = some (.ok (), t) ∧ ∃ files', liveOf files' = liveOf files \ {e.id} ∧
      Directories fo t files' (cut dirs p name) := by
  obtain ⟨hmem, -⟩ := find_eq_some he
  obtain ⟨g, hg⟩ := mem_liveOf.mp (h.linked.target p e hmem)
  have hne : p ≠ e.id := (h.linked.irrefl p e hmem).symm
  have hlook := h.lookup hl hf hlt name
  rw [he] at hlook
  obtain ⟨t₁, hrun₁, hr₁⟩ := removeFile_spec hl h.inv hg (Set.notMem_empty _) hlte (hi g hg)
  rw [← hg] at hr₁
  have hinv₁ := hr₁.inv h.inv hl (h.inv.valid e.id g hg)
  have hf₁ : Function.update files e.id none p = some f := by rw [Function.update_of_ne hne, hf]
  -- without the entry the text is not longer
  have hle : (dirListToString ((dirs p).erase e)).length ≤ f.content.length := by
    rw [h.text p f hf]
    exact length_dirListToString_le List.erase_sublist
  obtain ⟨t, hrun, i, ids, hr⟩ := writeFile_shorter hl hinv₁ hf₁ (Set.notMem_empty _) hlt hle now
  refine ⟨t, ?_, Function.update (Function.update files e.id none) p
    (some ⟨f.inode, ids, i, dirListToString ((dirs p).erase e)⟩), ?_, ?_⟩
  · unfold unlink
    rw [bind_ok (h.readDirectory hl hf hlt), bind_ok hlook, bind_ok hrun₁,
      h.linked.filter_eq_erase hmem, hrun]
  · rw [liveOf_update_self hf₁, liveOf_update_none]
  · have hself : cut dirs p name p = (dirs p).erase e := by
      rw [cut, he]
      simp only
      rw [Function.update_of_ne hne, Function.update_self]
    have hother : ∀ x, x ≠ p → x ≠ e.id → cut dirs p name x = dirs x := by
      intro x hx hxe
      rw [cut, he]
      simp only
      rw [Function.update_of_ne hxe, Function.update_of_ne hx]
    constructor
    case inv =>
      rw [← hf₁] at hr
      exact hr.inv hinv₁ hl (h.inv.valid p f hf)
    case text =>
      intro x g' hg'
      by_cases hx : x = p
      · rw [hx, Function.update_self, Option.some.injEq] at hg'
        rw [hx, hself, ← hg']
      · rw [Function.update_of_ne hx] at hg'
        by_cases hxe : x = e.id
        · rw [hxe, Function.update_self] at hg'
          cases hg'
        · rw [Function.update_of_ne hxe] at hg'
          rw [hother x hx hxe]
          exact h.text x g' hg'
    case named => exact fun x e' he' => h.named x e' ((mem_cut h.linked he).mp he').2.2
    case linked =>
      rw [liveOf_update_self hf₁, liveOf_update_none]
      exact h.linked.cut he

end Change

end Chfs.Fs.Naming
