import Chfs.Fs.Daemon

namespace Chfs.Fs.Storage

open Lib.Effect Lib.Bytes Lib.Tree Block.Manager Block.Allocator Inode Operations Files Growth Writing Removal
  Contents Directory Naming Attributes Volumes Daemon

variable {sz cnt logCnt : ℕ}

def idLimit (fo : FileOperation) : ℕ := fo.inodeManager.maxInodeSupported - 1

section Calls

variable {fo : FileOperation} (hl : Layout fo sz cnt) {s : BlockManager sz cnt logCnt} {others : Set ℕ}
  {raw : ℕ → List UInt8} {files : ℕ → Option File} {x : Disk} {id p time now now' : ℕ} {node : Node}
  {es : List DirectoryEntry}
  {content : List UInt8} {name : List UInt8} {body old : Body} {e : DirectoryEntry}
include hl

theorem allocInode_stores (h : StoresBut fo others raw s files x) (hbody : body = .file [] ∨ body = .directory [])
    (hnow : now < 2 ^ 63) (hid : freeId (idLimit fo) x.volume = some id) : match x.free with
      | 0 => fo.allocInode body.type now s = some (.error .outOfResource, s)
      | k + 1 => ∃ t files', fo.allocInode body.type now s = some (.ok id, t) ∧
          StoresBut fo others raw t files' ⟨put x.volume id body now, k⟩ := by
  obtain ⟨hpos, hnone, hlt, hleast⟩ := freeId_eq_some hid
  have hfree := h.free
  obtain ⟨r, t, hrun, hspec⟩ := allocInode_spec hl h.inv body.type now
  cases r with
  | error e =>
    obtain ⟨rfl, ⟨rfl, hempty⟩ | ⟨-, hall⟩⟩ := hspec
    · rw [hempty, Finset.card_empty] at hfree
      rw [← hfree]
      exact hrun
    · have hvalid : fo.inodeManager.Valid id := ⟨hpos, by unfold idLimit at hlt; omega⟩
      have htaken := hall id hvalid
      rw [h.inv.taken id hvalid, h.file_none hnone] at htaken
      cases htaken
  | ok id' =>
    obtain ⟨b, hvalid, hdead, hfirst, hr⟩ := hspec
    obtain rfl : id' = id := by
      obtain hlt' | heq | hgt := Nat.lt_trichotomy id' id
      · exact absurd (h.dead id' hdead) (hleast id' hvalid.1 hlt')
      · exact heq
      · have htaken := hfirst id hpos hgt
        rw [h.inv.taken id ⟨hpos, hgt.le.trans hvalid.2⟩, h.file_none hnone] at htaken
        cases htaken
    rw [← hdead] at hr
    have hcard := card_of_replaces h.inv hr
    rw [hdead] at hcard
    have hcard' : (freeBlocks fo t).card + 1 = x.free := hcard.trans hfree
    have hentry := (hr.inv h.inv hl hvalid).entry id' hvalid
    rw [Function.update_self, Option.map_some, Option.getD_some] at hentry
    have hblock := allocInode_block hl h.inv hrun
    rw [hentry] at hblock
    have htype : body.type < 2 ^ 32 := by
      obtain rfl | rfl := hbody <;> decide
    have htext : body.text = [] := by
      obtain rfl | rfl := hbody <;> rfl
    have hstamped : Depicts (t.blocks b) [] ⟨body, now⟩ :=
      ⟨hblock ▸ stamped_newInode hl.size htype (by omega), htext.symm, hnow⟩
    have hp : id' ∉ others := by
      intro hmem
      obtain ⟨b', hf, -⟩ := h.kept id' hmem
      cases hdead.symm.trans hf
    rw [← hcard']
    exact ⟨t, _, hrun, h.put hl hp hvalid hlt hr hstamped⟩

theorem writeFile_stores (h : StoresBut fo others raw s files x) (hp : id ∉ others)
    (hv : x.volume id = some ⟨old, time⟩) (new : Body) (htype : new.type = old.type) (hnow : now < 2 ^ 63) :
    match x.write sz id old new now with
      | .ok y => ∃ t files', fo.writeFile id new.text now s = some (.ok (), t) ∧ StoresBut fo others raw t files' y
      | .error y => ∃ t, fo.writeFile id new.text now s = some (.error .outOfResource, t) ∧
          StoresBut fo others raw t files y := by
  obtain ⟨f, hf, hd⟩ := h.exists_file hv
  have hlt := h.bound id f hf
  have hhold := h.inv.holds id f hf hp
  have hold := length_owned hhold
  have hfree := h.free
  have htext : f.content = old.text := hd.text
  rw [htext] at hold
  unfold Disk.write
  by_cases hlarge : maxBlocks sz * sz < new.text.length
  · rw [if_pos hlarge]
    exact ⟨s, writeFile_large hl h.inv hf hp hlt hlarge now, h⟩
  rw [if_neg hlarge]
  have hn : Named s id := named_of_ne s (by have := h.id_pos hv; omega)
  have hneeded : blocksNeeded (directNum sz) f.blocks.length (calculateBlockSz new.text.length sz) ≤ x.free ↔
      blockCount sz new.text.length ≤ x.free + blockCount sz old.text.length := by
    rw [hhold.count, htext]
    unfold blocksNeeded blockCount
    split <;> split <;> split <;> omega
  obtain ⟨r, t, hrun, hcount⟩ :=
    writeFile_counts hl h.inv hf hp hlt (Nat.le_of_not_lt hlarge) now
  have hspec := (writeFile_spec hl h.inv hn hp new.text now).of_eq hrun
  cases r with
  | error e =>
    have hshort := hcount.lt
    rw [hfree] at hshort
    rw [if_neg (by rw [← hneeded]; omega)]
    obtain rfl := writeFile_error hl h.inv hf hp hlt hrun
    have hleak := h.leak hl hspec
    rw [hcount.empty, Finset.card_empty] at hleak
    exact ⟨t, hrun, hleak⟩
  | ok u =>
    rw [hfree] at hcount
    rw [if_pos (hneeded.mp hcount)]
    have hstamped := writeFile_stamped hl h.inv hf hp hlt (by omega : now < 2 ^ 64) hrun
    obtain ⟨f', i, ids, hf', -, hr⟩ := hspec
    cases hf.symm.trans hf'
    rw [← hf] at hr
    rw [hd.stamped.type_eq, ← htype] at hstamped
    have hcard := card_of_replaces h.inv hr
    have hnew := length_owned (hr.holds _ rfl)
    rw [hf, hfree] at hcard
    have hleft : (freeBlocks fo t).card =
        x.free + blockCount sz old.text.length - blockCount sz new.text.length := by
      have hcard' : (freeBlocks fo t).card + blockCount sz new.text.length =
          x.free + blockCount sz old.text.length := by
        rw [← hold, ← hnew]
        exact hcard
      omega
    have hput := h.put hl hp (h.inv.valid id f hf) hlt hr ⟨hstamped, rfl, hnow⟩
    rw [hleft] at hput
    exact ⟨t, _, hrun, hput⟩

theorem mkHelper_stores (h : StoresBut fo others raw s files x) (hw : WellFormed x.volume) (hp : p ∉ others)
    (hv : x.volume p = some ⟨.directory es, time⟩) (hnone : find es name = none)
    (hbody : body = .file [] ∨ body = .directory []) (hnow : now < 2 ^ 63) (hnow' : now' < 2 ^ 63)
    (hid : freeId (idLimit fo) x.volume = some id) : match x.free with
      | 0 => mkHelper fo p name body.type now now' s = some (.error .outOfResource, s)
      | k + 1 => match Disk.write sz ⟨put x.volume id body now, k⟩ p (.directory es)
            (.directory (es ++ [⟨name, id⟩])) now' with
        | .ok y => ∃ t files', mkHelper fo p name body.type now now' s = some (.ok id, t) ∧
            StoresBut fo others raw t files' y
        | .error y => ∃ t files', mkHelper fo p name body.type now now' s = some (.error .outOfResource, t) ∧
            StoresBut fo others raw t files' y := by
  have hany : ¬ es.any (·.name = name) = true := by
    have hfind : (find es name).isSome = es.any (·.name = name) := List.isSome_find?
    rw [← hfind, hnone]
    decide
  -- the directory is read, and the name is not in it
  have hstart : ∀ {r t}, (do
      let id ← fo.allocInode body.type now
      fo.writeFile p (dirListToString (es ++ [(⟨name, id⟩ : DirectoryEntry)])) now'
      pure id) s = some (r, t) → mkHelper fo p name body.type now now' s = some (r, t) := by
    intro r t hrun
    unfold mkHelper
    rw [bind_ok (h.readDirectory hl hw hp hv), if_neg hany, hrun]
  have halloc := allocInode_stores hl h hbody hnow hid
  cases hfree : x.free with
  | zero =>
    rw [hfree] at halloc
    exact hstart (bind_error halloc)
  | succ k =>
    rw [hfree] at halloc
    obtain ⟨t₁, files₁, hrun₁, h₁⟩ := halloc
    have hne : p ≠ id := by
      rintro rfl
      rw [(freeId_eq_some hid).2.1] at hv
      cases hv
    have hv₁ : put x.volume id body now p = some ⟨.directory es, time⟩ := by
      unfold put
      rw [Function.update_of_ne hne, hv]
    have hwrite := writeFile_stores hl h₁ hp hv₁ (.directory (es ++ [⟨name, id⟩])) rfl hnow'
    simp only
    split
    case h_1 y hy =>
      rw [hy] at hwrite
      obtain ⟨t, files', hrun, h'⟩ := hwrite
      exact ⟨t, files', hstart (by rw [bind_ok hrun₁]; exact bind_ok hrun), h'⟩
    case h_2 y hy =>
      rw [hy] at hwrite
      obtain ⟨t, hrun, h'⟩ := hwrite
      exact ⟨t, files₁, hstart (by rw [bind_ok hrun₁]; exact bind_error hrun), h'⟩

theorem mkHelper_makes (h : StoresBut fo others raw s files x) (hw : WellFormed x.volume) (hp : p ∉ others)
    (hv : x.volume p = some ⟨.directory es, time⟩) (hbody : body = .file [] ∨ body = .directory [])
    (hnow : now < 2 ^ 63) (hnow' : now' < 2 ^ 63) (hfree : freeId (idLimit fo) x.volume ≠ none)
    (name : List UInt8) (code : ℤ) :
    ∃ r t files', mkHelper fo p name body.type now now' s = some (r, t) ∧
      StoresBut fo others raw t files' (makeNode sz (idLimit fo) x p name body now now' code).2 ∧ match r with
        | .ok id => (makeNode sz (idLimit fo) x p name body now now' code).1 = .entry id (Node.stat ⟨body, now⟩) ∧
            (makeNode sz (idLimit fo) x p name body now now' code).2.volume id = some ⟨body, now⟩
        | .error e => (makeNode sz (idLimit fo) x p name body now now' code).1 =
            .err (if e = .alreadyExist then eexist else code) := by
  unfold makeNode
  rw [hv]
  simp only
  cases hfind : find es name with
  | some e =>
    have hany : es.any (·.name = name) = true := by
      have hsome : (find es name).isSome = es.any (·.name = name) := List.isSome_find?
      rw [← hsome, hfind, Option.isSome_some]
    have hrun : mkHelper fo p name body.type now now' s = some (.error .alreadyExist, s) := by
      unfold mkHelper
      rw [bind_ok (h.readDirectory hl hw hp hv), if_pos hany, refuse_apply]
    exact ⟨_, _, _, hrun, h, rfl⟩
  | none =>
    obtain ⟨id, hid⟩ := Option.ne_none_iff_exists'.mp hfree
    have hmake := mkHelper_stores hl h hw hp hv hfind hbody hnow hnow' hid
    rw [hid]
    cases hk : x.free with
    | zero =>
      rw [hk] at hmake
      exact ⟨_, _, _, hmake, h, rfl⟩
    | succ k =>
      rw [hk] at hmake
      simp only at hmake ⊢
      split
      case h_1 y hy =>
        rw [hy] at hmake
        obtain ⟨t, files', hrun, h'⟩ := hmake
        have hvol := volume_write hy
        have hne : id ≠ p := by
          rintro rfl
          rw [(freeId_eq_some hid).2.1] at hv
          cases hv
        refine ⟨_, t, files', hrun, h', rfl, ?_⟩
        rw [hvol, put, Function.update_of_ne hne]
        exact Function.update_self ..
      case h_2 y hy =>
        rw [hy] at hmake
        obtain ⟨t, files', hrun, h'⟩ := hmake
        exact ⟨_, t, files', hrun, h', rfl⟩

/-- An inode in `others` can be removed like that of an empty file. -/
def Bare (sz : ℕ) (inode : List UInt8) : Prop :=
  Shape sz inode ∧ getBlock inode 0 = invalidBlockId ∧ getBlock inode (directNum sz) = invalidBlockId

theorem removeFile_stores (h : StoresBut fo others raw s files x) (hv : x.volume id = some node)
    (hbare : id ∈ others → Bare sz (raw id)) :
    if directNum sz * sz < node.body.text.length then fo.removeFile id s = none
    else ∃ t files', fo.removeFile id s = some (.ok (), t) ∧ StoresBut fo (others \ {id}) raw t files'
      ⟨Function.update x.volume id none, x.free + blockCount sz node.body.text.length⟩ := by
  obtain ⟨f, hf, hd⟩ := h.exists_file hv
  have hlt := h.bound id f hf
  -- the blocks of the file are free again, and it had as many as its size needs
  have hremoved : ∀ t, fo.removeFile id s = some (.ok (), t) → Replaces fo s t id (some f) none →
      f.owned.length = blockCount sz node.body.text.length →
      ∃ t files', fo.removeFile id s = some (.ok (), t) ∧ StoresBut fo (others \ {id}) raw t files'
        ⟨Function.update x.volume id none, x.free + blockCount sz node.body.text.length⟩ := by
    intro t hrun hr howned
    rw [← hf] at hr
    have hcard := card_of_replaces h.inv hr
    rw [hf] at hcard
    have hdelete := h.delete hl (h.inv.valid id f hf) hr
    rw [← h.free, ← howned]
    have hcard' : (freeBlocks fo t).card = (freeBlocks fo s).card + f.owned.length := hcard
    rw [← hcard']
    exact ⟨t, _, hrun, hdelete⟩
  by_cases hp : id ∈ others
  · obtain ⟨b, hf', hraw⟩ := h.kept id hp
    cases hf.symm.trans hf'
    obtain ⟨hshape, hfirst, hslot⟩ := hbare hp
    rw [← hraw] at hshape hfirst hslot
    have htext : node.body.text = [] := hd.text.symm
    have hblocks : directBlocks (s.blocks b) (directNum sz) 0 = [] := by
      cases hnum : directNum sz with
      | zero => rfl
      | succ k => rw [directBlocks, if_pos hfirst]
    obtain ⟨t, hrun, hr⟩ := removeFile_direct hl h.inv hf hlt hshape hblocks hslot rfl
    rw [if_neg (by rw [htext]; exact Nat.not_lt_zero _)]
    refine hremoved t hrun hr ?_
    rw [htext]
    have hge := hl.size.ge
    simp [File.owned, blocksOf, blockCount, calculateBlockSz]
  · have hhold := h.inv.holds id f hf hp
    have hge := hl.size.ge
    have hindirect : f.indirect = invalidBlockId ↔ ¬ directNum sz * sz < node.body.text.length := by
      rw [hhold.indirect, hhold.count, hd.text, ← (calculateBlockSz_spec (by omega : 0 < sz)).2 (directNum sz)]
      omega
    split
    case isTrue hlarge =>
      exact removeFile_undefined hl h.inv hf hp hlt fun hi => hindirect.mp hi hlarge
    case isFalse hsmall =>
      obtain ⟨t, hrun, hr⟩ := removeFile_spec hl h.inv hf hp hlt (hindirect.mpr hsmall)
      exact hremoved t hrun hr ((length_owned hhold).trans (by rw [hd.text]))

omit hl in
theorem blockCount_mono {k l : ℕ} (hsz : 0 < sz) (hle : k ≤ l) : blockCount sz k ≤ blockCount sz l := by
  have hblocks : calculateBlockSz k sz ≤ calculateBlockSz l sz := by
    by_contra hlt
    have h1 := ((calculateBlockSz_spec hsz).2 _).mp (Nat.lt_of_not_le hlt)
    have h2 := (calculateBlockSz_spec (n := l) hsz).1
    omega
  unfold blockCount
  split <;> split <;> omega

/-- Without one of its entries a directory can always be written. -/
theorem write_erase (h : StoresBut fo others raw s files x) (hp : p ∉ others)
    (hv : x.volume p = some ⟨.directory es, time⟩) (e : DirectoryEntry) (now : ℕ) :
    x.write sz p (.directory es) (.directory (es.erase e)) now =
      .ok ⟨put x.volume p (.directory (es.erase e)) now,
        x.free + blockCount sz (dirListToString es).length - blockCount sz (dirListToString (es.erase e)).length⟩ := by
  obtain ⟨f, hf, hd⟩ := h.exists_file hv
  have hhold := h.inv.holds p f hf hp
  have hpos : 0 < sz := by
    have := hl.size.ge
    omega
  have hmax : (dirListToString es).length ≤ maxBlocks sz * sz := by
    have htext : f.content = dirListToString es := hd.text
    have hnum := (calculateBlockSz_spec (n := f.content.length) hpos).1
    rw [← hhold.count] at hnum
    rw [← htext]
    exact hnum.trans (Nat.mul_le_mul_right _ hhold.le)
  have hle : (dirListToString (es.erase e)).length ≤ (dirListToString es).length :=
    length_dirListToString_le List.erase_sublist
  have hcount := blockCount_mono hpos hle
  have hfits : ¬ maxBlocks sz * sz < (Body.directory (es.erase e)).text.length := Nat.not_lt.mpr (hle.trans hmax)
  have henough : blockCount sz (Body.directory (es.erase e)).text.length ≤
      x.free + blockCount sz (Body.directory es).text.length := Nat.le_add_left_of_le hcount
  unfold Disk.write
  rw [if_neg hfits, if_pos henough]
  rfl

theorem unlink_stores (h : StoresBut fo others raw s files x) (hw : WellFormed x.volume) (hp : p ∉ others)
    (hv : x.volume p = some ⟨.directory es, time⟩) (he : find es name = some e)
    (hnode : x.volume e.id = some node) (hbare : e.id ∈ others → Bare sz (raw e.id)) (hnow : now < 2 ^ 63) :
    if directNum sz * sz < node.body.text.length then unlink fo p name now s = none
    else ∃ t files', unlink fo p name now s = some (.ok (), t) ∧ StoresBut fo (others \ {e.id}) raw t files'
      ⟨put (Function.update x.volume e.id none) p (.directory (es.erase e)) now,
        x.free + blockCount sz node.body.text.length + blockCount sz (dirListToString es).length -
          blockCount sz (dirListToString (es.erase e)).length⟩ := by
  have hmem : e ∈ entries x.volume p := entries_of hv ▸ (find_eq_some he).1
  have hread := h.readDirectory hl hw hp hv
  have hlook : lookup fo p name s = some (.ok e.id, s) := by
    unfold lookup
    rw [bind_ok hread, he]
    rfl
  have hne : p ≠ e.id := (hw.linked.irrefl p e hmem).symm
  have hfilter := hw.linked.filter_eq_erase hmem
  rw [entries_of hv] at hfilter
  have hremove := removeFile_stores hl h hnode hbare
  unfold unlink
  rw [bind_ok hread, bind_ok hlook]
  split at hremove
  case isTrue hlarge =>
    rw [if_pos hlarge]
    exact bind_none hremove
  case isFalse hsmall =>
    obtain ⟨t₁, files₁, hrun₁, h₁⟩ := hremove
    rw [if_neg hsmall]
    have hv₁ : Function.update x.volume e.id none p = some ⟨.directory es, time⟩ := by
      rw [Function.update_of_ne hne, hv]
    have hp₁ : p ∉ others \ {e.id} := fun hmem => hp hmem.1
    have hwrite := writeFile_stores hl h₁ hp₁ hv₁ (.directory (es.erase e)) rfl hnow
    rw [write_erase hl h₁ hp₁ hv₁] at hwrite
    obtain ⟨t, files', hrun, h'⟩ := hwrite
    refine ⟨t, files', ?_, h'⟩
    rw [bind_ok hrun₁, hfilter]
    exact hrun

theorem resize_stores (h : StoresBut fo others raw s files x) (hp : id ∉ others)
    (hv : x.volume id = some ⟨.file content, time⟩) (size : ℕ)
    (hnow : now < 2 ^ 63) :
    if content.length = size then ∃ attr, fo.resize id size now s = some (.ok attr, s)
    else match x.write sz id (.file content) (.file (resized content size)) now with
      | .ok y => ∃ attr t files', fo.resize id size now s = some (.ok attr, t) ∧ StoresBut fo others raw t files' y
      | .error y => ∃ t, fo.resize id size now s = some (.error .outOfResource, t) ∧
          StoresBut fo others raw t files y := by
  obtain ⟨f, hf, hd⟩ := h.exists_file hv
  have hattr : fo.inodeManager.getAttr id s = some (.ok (innerAttr (s.blocks f.inode)), s) := by
    unfold InodeManager.getAttr
    rw [bind_ok (h.inv.readInode_some hl hf (h.bound id f hf))]
    rfl
  have hread : fo.readFile id s = some (.ok content, s) := h.readFile hl hp hv
  unfold FileOperation.resize
  rw [bind_ok hattr, bind_ok hread]
  by_cases hsize : content.length = size
  · rw [if_pos hsize, if_neg (not_not.mpr hsize)]
    exact ⟨_, rfl⟩
  · rw [if_neg hsize, if_pos hsize]
    have hwrite := writeFile_stores hl h hp hv (.file (resized content size)) rfl hnow
    split
    case h_1 y hy =>
      rw [hy] at hwrite
      obtain ⟨t, files', hrun, h'⟩ := hwrite
      exact ⟨_, t, files', bind_ok hrun, h'⟩
    case h_2 y hy =>
      rw [hy] at hwrite
      obtain ⟨t, hrun, h'⟩ := hwrite
      exact ⟨t, bind_error hrun, h'⟩

theorem writeFileWOff_stores (h : StoresBut fo others raw s files x) (hp : id ∉ others)
    (hv : x.volume id = some ⟨.file content, time⟩) (data : List UInt8) (off : ℕ)
    (hoff : off + data.length < 2 ^ 63) (hnow : now < 2 ^ 63) :
    match x.write sz id (.file content) (.file (overwrite content data off)) now with
      | .ok y => ∃ t files', fo.writeFileWOff id data off now s = some (.ok data.length, t) ∧
          StoresBut fo others raw t files' y
      | .error y => ∃ t, fo.writeFileWOff id data off now s = some (.error .outOfResource, t) ∧
          StoresBut fo others raw t files y := by
  have hext : (if content.length < (off + data.length) % 2 ^ 64
      then resized content ((off + data.length) % 2 ^ 64) else content) =
      resized content (max content.length (off + data.length)) := by
    rw [Nat.mod_eq_of_lt (by omega)]
    split
    case isTrue hlt => rw [Nat.max_eq_right hlt.le]
    case isFalse hge =>
      rw [Nat.max_eq_left (by omega), resized, List.take_length, Nat.sub_self, List.replicate_zero, List.append_nil]
  have hlen := length_resized content (max content.length (off + data.length))
  have hroom : off + data.length ≤ (resized content (max content.length (off + data.length))).length := by omega
  have hread : fo.readFile id s = some (.ok content, s) := h.readFile hl hp hv
  have hwrite := writeFile_stores hl h hp hv (.file (overwrite content data off)) rfl hnow
  unfold FileOperation.writeFileWOff
  rw [bind_ok hread, hext, require_of hroom, bind_ok (pure_apply ())]
  split
  case h_1 y hy =>
    rw [hy] at hwrite
    obtain ⟨t, files', hrun, h'⟩ := hwrite
    exact ⟨t, files', bind_ok hrun, h'⟩
  case h_2 y hy =>
    rw [hy] at hwrite
    obtain ⟨t, hrun, h'⟩ := hwrite
    exact ⟨t, bind_error hrun, h'⟩

end Calls

end Chfs.Fs.Storage
