import Chfs.Fs.Storage
import Chfs.Lib.Server

namespace Chfs.Fs.Serving

open Lib.Effect Lib.Bytes Lib.Tree Lib.Server Block.Manager Block.Allocator Inode Operations Files Growth Contents
  Directory Naming Volumes Daemon Storage

variable {sz cnt logCnt : ℕ}

/-- An empty root directory, which has its inode in one of the blocks for data. -/
def newDisk (sz cnt n now : ℕ) : Disk :=
  ⟨put (fun _ => none) 1 (.directory []) now, cnt - dataStart (FileOperation.fields sz cnt n) - 1⟩

/-- The daemon does with a request what is said about it. -/
def Answers (d : Direntry) (fo : FileOperation) (s : BlockManager sz cnt logCnt) (q : Request) :
    Option (Reply × Disk) → Prop
  | none => serve d fo q s = none
  | some (reply, y) => ∃ t files, serve d fo q s = some (.ok reply, t) ∧ Stores fo t files y

section Handlers

variable {fo : FileOperation} (hl : Layout fo sz cnt) {s : BlockManager sz cnt logCnt} {files : ℕ → Option File}
  {x : Disk} {d : Direntry} {q : Request} {p ino : ℕ} {name : List UInt8}

theorem answers_of_run (h : Stores fo s files x) {reply : Reply} (hrun : serve d fo q s = some (.ok reply, s)) :
    Answers d fo s q (some (reply, x)) := ⟨s, files, hrun, h⟩

include hl

theorem getattr_answers (h : Stores fo s files x) (hino : ino ≠ 0) :
    Answers d fo s (.getattr ino) (some (getattrReply x.volume ino, x)) := by
  unfold getattrReply
  cases hv : x.volume ino with
  | none =>
    have hrun : chfsGetattr fo ino s = some (.ok (.err enoent), s) :=
      bind_ok (attempt_apply (h.getTypeAttr_none hl hino hv))
    exact answers_of_run h hrun
  | some node => exact answers_of_run h (h.replyStat hl hv enoent .attr)

theorem lookup_answers (h : Stores fo s files x) (hw : WellFormed x.volume) (hp : p ≠ 0)
    (hdir : ¬ IsFile x.volume p) : Answers d fo s (.lookup p name) (some (lookupReply x.volume p name, x)) := by
  unfold lookupReply
  cases hv : x.volume p with
  | none =>
    have hrun : chfsLookup fo p name s = some (.ok (.err (-1)), s) :=
      bind_ok (attempt_apply (h.readDirectory_none hl hp hv))
    exact answers_of_run h hrun
  | some node =>
    obtain ⟨_ | es, time⟩ := node
    · exact absurd ⟨_, _, hv⟩ hdir
    have hread := attempt_apply (h.readDirectory hl hw (Set.notMem_empty _) hv)
    simp only
    rw [entries_of hv]
    cases hfind : find es name with
    | none =>
      have hrun : chfsLookup fo p name s = some (.ok (.err enoent), s) := by
        unfold chfsLookup
        rw [bind_ok hread]
        simp only [hfind]
        rfl
      exact answers_of_run h hrun
    | some e =>
      have hmem : e ∈ entries x.volume p := entries_of hv ▸ (find_eq_some hfind).1
      obtain ⟨node, hnode⟩ := Option.ne_none_iff_exists'.mp (hw.linked.target p e hmem)
      have hrun : chfsLookup fo p name s = some (.ok (.entry e.id node.stat), s) := by
        unfold chfsLookup
        rw [bind_ok hread]
        simp only [hfind]
        exact h.replyStat hl hnode (-1) (.entry e.id)
      simp only
      rw [hnode]
      exact answers_of_run h hrun

theorem chfsReaddir_apply (h : Stores fo s files x) (hw : WellFormed x.volume) {es : List DirectoryEntry} {time : ℕ}
    (hv : x.volume ino = some ⟨.directory es, time⟩) (size off : ℕ) :
    chfsReaddir d fo ino size off s = some (.ok (.buf (slice (d.listing 0 es) off size)), s) := by
  have htype := unwrap_apply (h.gettype hl hv)
  have hread := attempt_apply (h.readDirectory hl hw (Set.notMem_empty _) hv)
  have hnamed : ∀ e ∈ es, ValidName e.name := entries_of hv ▸ hw.named ino
  have hbuf : replyBufLimited (es.foldl (DirectoryBuf.add d) []) off size = .buf (slice (d.listing 0 es) off size) := by
    rw [replyBufLimited_eq, foldl_add d [] hnamed, List.nil_append, List.length_nil]
  rw [← hbuf]
  exact (bind_ok htype).trans (bind_ok hread)

theorem readdir_answers (h : Stores fo s files x) (hw : WellFormed x.volume) (hino : ino ≠ 0) (size off : ℕ) :
    Answers d fo s (.readdir ino size off) ((readdirReply d x.volume ino size off).map (·, x)) := by
  unfold readdirReply
  cases hv : x.volume ino with
  | none =>
    have htype : fo.gettype ino s = some (.error .invalidArg, s) :=
      bind_error (h.inv.readInode_none hl (by omega) (Or.inl (h.file_none hv)))
    exact bind_none (unwrap_error htype)
  | some node =>
    obtain ⟨content | es, time⟩ := node
    · have htype := unwrap_apply (h.gettype hl hv)
      have hrun : chfsReaddir d fo ino size off s = some (.ok (.err enotdir), s) := bind_ok htype
      exact answers_of_run h hrun
    · exact answers_of_run h (chfsReaddir_apply hl h hw hv size off)

theorem read_answers (h : Stores fo s files x) (hino : ino ≠ 0) {size off : ℕ} (hoff : off + size < 2 ^ 63) :
    Answers d fo s (.read ino size off) (some (readReply x.volume ino size off, x)) := by
  unfold readReply
  cases hv : x.volume ino with
  | none =>
    have hrun : chfsRead fo ino size off s = some (.ok (.err (-1)), s) :=
      bind_ok (attempt_apply (h.getTypeAttr_none hl hino hv))
    exact answers_of_run h hrun
  | some node =>
    have hsize : node.stat.size = node.body.text.length := by
      obtain ⟨body, time⟩ := node
      cases body <;> rfl
    have hrun : chfsRead fo ino size off s = some (.ok (.buf (slice node.body.text off size)), s) := by
      unfold chfsRead
      rw [bind_ok (attempt_apply (h.getTypeAttr hl (Set.notMem_empty _) hv))]
      simp only
      rw [h.getattrHelper hl hv, bind_ok (pure_apply _), hsize, toSigned_of_lt hoff]
      by_cases hle : node.body.text.length ≤ off
      · rw [if_pos (by omega), slice, List.drop_of_length_le hle, List.take_nil, pure_apply]
      · have hsize : (if (node.body.text.length : ℤ) < (off + size : ℕ) then
            ((node.body.text.length : ℤ) - off).toNat else size) = min size (node.body.text.length - off) := by
          split <;> omega
        have hslice : (slice node.body.text off (min size (node.body.text.length - off))).take
            (min size (node.body.text.length - off)) = slice node.body.text off size := by
          rw [slice, List.take_take, Nat.min_self, ← List.length_drop, ← List.take_take, List.take_length, slice]
        rw [if_neg (by omega)]
        simp only [hsize]
        rw [bind_ok (attempt_apply (h.readFileWOff hl (Set.notMem_empty _) hv (by omega)))]
        simp only
        rw [hslice, pure_apply]
    exact answers_of_run h hrun

theorem replyMade_answers (h : Stores fo s files x) (hw : WellFormed x.volume) (hp : p ≠ 0)
    (hdir : ¬ IsFile x.volume p) {body : Body} (hbody : body = .file [] ∨ body = .directory []) {now now' : ℕ}
    (hnow : now < 2 ^ 63) (hnow' : now' < 2 ^ 63) (hfree : freeId (idLimit fo) x.volume ≠ none) (code : ℤ)
    (hserve : serve d fo q = replyMade fo (mkHelper fo p name body.type now now' : Bm sz cnt logCnt ℕ) code) :
    Answers d fo s q (some (makeNode sz (idLimit fo) x p name body now now' code)) := by
  have herror : ∀ {e t}, mkHelper fo p name body.type now now' s = some (.error e, t) →
      serve d fo q s = some (.ok (.err (if e = .alreadyExist then eexist else code)), t) := by
    intro e t hrun
    rw [hserve, replyMade, bind_ok (attempt_apply hrun)]
    cases e <;> rfl
  cases hv : x.volume p with
  | none =>
    have hmake : makeNode sz (idLimit fo) x p name body now now' code = (.err code, x) := by
      unfold makeNode
      rw [hv]
    rw [hmake]
    exact answers_of_run h (herror (bind_error (h.readDirectory_none hl hp hv)))
  | some node =>
    obtain ⟨_ | es, time⟩ := node
    · exact absurd ⟨_, _, hv⟩ hdir
    obtain ⟨r, t, files', hrun, h', hreply⟩ :=
      mkHelper_makes hl h hw (Set.notMem_empty _) hv hbody hnow hnow' hfree name code
    generalize makeNode sz (idLimit fo) x p name body now now' code = out at h' hreply ⊢
    obtain ⟨reply, y⟩ := out
    cases r with
    | error e =>
      obtain rfl : reply = .err (if e = .alreadyExist then eexist else code) := hreply
      exact ⟨t, files', herror hrun, h'⟩
    | ok id =>
      obtain ⟨rfl, hnode⟩ : reply = .entry id (Node.stat ⟨body, now⟩) ∧ y.volume id = some ⟨body, now⟩ := hreply
      refine ⟨t, files', ?_, h'⟩
      rw [hserve, replyMade, bind_ok (attempt_apply hrun)]
      exact h'.replyStat hl hnode (-1) (.entry id)

theorem unlink_answers (h : Stores fo s files x) (hw : WellFormed x.volume) (hp : p ≠ 0) (hdir : ¬ IsFile x.volume p)
    {now : ℕ} (hnow : now < 2 ^ 63) : Answers d fo s (.unlink p name now) (removeNode sz x p name now) := by
  unfold removeNode
  cases hv : x.volume p with
  | none =>
    have hunlink : unlink fo p name now s = some (.error .invalidArg, s) :=
      bind_error (h.readDirectory_none hl hp hv)
    have hrun : chfsUnlink fo p name now s = some (.ok (.err enosys), s) := bind_ok (attempt_apply hunlink)
    exact answers_of_run h hrun
  | some node =>
    obtain ⟨_ | es, time⟩ := node
    · exact absurd ⟨_, _, hv⟩ hdir
    simp only
    cases hfind : find es name with
    | none =>
      have hread := h.readDirectory hl hw (Set.notMem_empty _) hv
      have hlook : lookup fo p name s = some (.error .notExist, s) := by
        unfold lookup
        rw [bind_ok hread, hfind]
        rfl
      have hunlink : unlink fo p name now s = some (.error .notExist, s) := by
        unfold unlink
        rw [bind_ok hread, bind_error hlook]
      have hrun : chfsUnlink fo p name now s = some (.ok (.err enoent), s) := bind_ok (attempt_apply hunlink)
      exact answers_of_run h hrun
    | some e =>
      have hmem : e ∈ entries x.volume p := entries_of hv ▸ (find_eq_some hfind).1
      obtain ⟨node, hnode⟩ := Option.ne_none_iff_exists'.mp (hw.linked.target p e hmem)
      have hunlink := unlink_stores hl h hw (Set.notMem_empty _) hv hfind hnode nofun hnow
      simp only
      rw [hnode]
      simp only
      split at hunlink
      case isTrue hlarge =>
        rw [if_pos hlarge]
        exact bind_none (attempt_none hunlink)
      case isFalse hsmall =>
        obtain ⟨t, files', hunlink, h'⟩ := hunlink
        rw [Set.empty_sdiff] at h'
        rw [if_neg hsmall]
        exact ⟨t, files', bind_ok (attempt_apply hunlink), h'⟩

theorem setattr_answers (h : Stores fo s files x) (hino : ino ≠ 0) (hfile : ¬ IsDirectory x.volume ino) (size : ℕ)
    {now : ℕ} (hnow : now < 2 ^ 63) :
    Answers d fo s (.setattr ino size now) (some (resizeNode sz x ino size now)) := by
  unfold resizeNode
  cases hv : x.volume ino with
  | none =>
    have hattr : fo.inodeManager.getAttr ino s = some (.error .invalidArg, s) :=
      bind_error (h.inv.readInode_none hl (by omega) (Or.inl (h.file_none hv)))
    have hresize : fo.resize ino size now s = some (.error .invalidArg, s) := bind_error hattr
    have hrun : chfsSetattr fo ino size now s = some (.ok (.err enosys), s) := bind_ok (attempt_apply hresize)
    exact answers_of_run h hrun
  | some node =>
    obtain ⟨content | es, time⟩ := node
    case directory => exact absurd ⟨_, _, hv⟩ hfile
    -- the attributes that are answered are read anew
    have hreply : ∀ {attr t files' y node}, fo.resize ino size now s = some (.ok attr, t) → Stores fo t files' y →
        y.volume ino = some node → Answers d fo s (.setattr ino size now) (some (.attr node.stat, y)) := by
      intro attr t files' y node hresize h' hnode
      refine ⟨t, files', ?_, h'⟩
      change chfsSetattr fo ino size now s = _
      unfold chfsSetattr
      rw [bind_ok (attempt_apply hresize)]
      exact h'.replyStat hl hnode (-1) .attr
    have hresize := resize_stores hl h (Set.notMem_empty _) hv size hnow
    simp only
    split at hresize
    case isTrue heq =>
      obtain ⟨attr, hresize⟩ := hresize
      rw [if_pos heq]
      exact hreply hresize h hv
    case isFalse hne =>
      rw [if_neg hne]
      split
      case h_1 y hy =>
        rw [hy] at hresize
        obtain ⟨attr, t, files', hresize, h'⟩ := hresize
        refine hreply hresize h' ?_
        rw [volume_write hy, put, Function.update_self]
      case h_2 y hy =>
        rw [hy] at hresize
        obtain ⟨t, hresize, h'⟩ := hresize
        exact ⟨t, files, bind_ok (attempt_apply hresize), h'⟩

theorem write_answers (h : Stores fo s files x) (hino : ino ≠ 0) (hfile : ¬ IsDirectory x.volume ino)
    (data : List UInt8) {off now : ℕ} (hoff : off + data.length < 2 ^ 63) (hnow : now < 2 ^ 63) :
    Answers d fo s (.write ino data off now) (writeNode sz x ino data off now) := by
  unfold writeNode
  cases hv : x.volume ino with
  | none =>
    have hwrite : fo.writeFileWOff ino data off now s = some (.error .invalidArg, s) :=
      bind_error (h.readFile_none hl hino hv)
    exact bind_ok (attempt_apply hwrite)
  | some node =>
    obtain ⟨content | es, time⟩ := node
    case directory => exact absurd ⟨_, _, hv⟩ hfile
    have hwrite := writeFileWOff_stores hl h (Set.notMem_empty _) hv data off hoff hnow
    simp only
    split
    case h_1 y hy =>
      rw [hy] at hwrite
      obtain ⟨t, files', hwrite, h'⟩ := hwrite
      exact ⟨t, files', bind_ok (attempt_apply hwrite), h'⟩
    case h_2 y hy =>
      rw [hy] at hwrite
      obtain ⟨t, hwrite, h'⟩ := hwrite
      have hfree : fo.getFreeBlocksNum t = some (.ok _, t) := freeBlockCnt_spec hl.blocks
      exact ⟨t, files, (bind_ok (attempt_apply hwrite)).trans (bind_ok (unwrap_apply hfree)), h'⟩

/-- Every request the kernel makes is answered as it must be, or aborts the
daemon where it must. -/
theorem serve_answers (h : Stores fo s files x) (hw : WellFormed x.volume)
    (hq : Proper (idLimit fo) x.volume q) : Answers d fo s q (act d sz (idLimit fo) x q) := by
  cases q with
  | getattr ino => exact getattr_answers hl h hq
  | lookup p name => exact lookup_answers hl h hw hq.1 hq.2
  | readdir ino size off => exact readdir_answers hl h hw hq size off
  | read ino size off => exact read_answers hl h hq.1 hq.2
  | mknod p name now now' =>
    obtain ⟨hp, hdir, -, hnow, hnow', hfree⟩ := hq
    exact replyMade_answers hl h hw hp hdir (Or.inl rfl) hnow hnow' hfree enoent rfl
  | mkdir p name now now' =>
    obtain ⟨hp, hdir, -, hnow, hnow', hfree⟩ := hq
    exact replyMade_answers hl h hw hp hdir (Or.inr rfl) hnow hnow' hfree enosys rfl
  | unlink p name now => exact unlink_answers hl h hw hq.1 hq.2.1 hq.2.2
  | setattr ino size now => exact setattr_answers hl h hq.1 hq.2.1 size hq.2.2.2
  | openFile ino => exact answers_of_run h (pure_apply _)
  | write ino data off now => exact write_answers hl h hq.1 hq.2.1 data hq.2.2.1 hq.2.2.2
  | readlink | rmdir | symlink | rename | link | statfs => exact rfl

end Handlers

def respond (d : Direntry) (fo : FileOperation) (s : BlockManager sz cnt logCnt) (q : Request) :
    Option (Reply × BlockManager sz cnt logCnt) :=
  match serve d fo q s with
  | some (.ok reply, t) => some (reply, t)
  | _ => none

def Shows (fo : FileOperation) (s : BlockManager sz cnt logCnt) (x : Disk) : Prop :=
  WellFormed x.volume ∧ ∃ files, Stores fo s files x

section Runs

variable {fo : FileOperation} {s₀ s t : BlockManager sz cnt logCnt} {d : Direntry} {x : Disk} {q : Request}
  {n now : ℕ} {qs : List Request}

theorem Shows.respond (hl : Layout fo sz cnt) (h : Shows fo s x) (hq : Proper (idLimit fo) x.volume q) :
    Alike (Shows fo) (respond d fo s q) (act d sz (idLimit fo) x q) := by
  obtain ⟨hw, files, h⟩ := h
  have hans := serve_answers (d := d) hl h hw hq
  unfold Serving.respond
  cases ha : act d sz (idLimit fo) x q with
  | none =>
    rw [ha] at hans
    have hrun : serve d fo q s = none := hans
    rw [hrun]
    exact .none
  | some out =>
    rw [ha] at hans
    obtain ⟨t, files', hrun, h'⟩ := hans
    rw [hrun]
    exact .some ⟨rfl, act_wellFormed ha hw hq, files', h'⟩

theorem card_created (hc : Created fo s t) : (freeBlocks fo t).card = cnt - dataStart fo := by
  have hfree : freeBlocks fo t = Finset.Ico (dataStart fo) cnt := by
    ext b
    rw [mem_freeBlocks, Finset.mem_Ico]
    constructor
    · rintro ⟨hlt, hused⟩
      rw [hc.used b hlt, decide_eq_false_iff_not] at hused
      exact ⟨Nat.le_of_not_lt hused, hlt⟩
    · rintro ⟨hge, hlt⟩
      exact ⟨hlt, (hc.used b hlt).trans (decide_eq_false (Nat.not_lt.mpr hge))⟩
  rw [hfree, Nat.card_Ico]

theorem freeId_empty {limit : ℕ} (hlimit : 1 < limit) : freeId limit (fun _ => none) = some 1 := by
  unfold freeId
  rw [List.find?_range_eq_some]
  refine ⟨rfl, List.mem_range.mpr hlimit, fun i hi => ?_⟩
  obtain rfl : i = 0 := by omega
  rfl

theorem bootstrapFuse_shows (hd : Dimensions sz cnt n) (hs : s₀.maybeFailed = false) (hnow : now < 2 ^ 63)
    (hroom : dataStart (FileOperation.fields sz cnt n) < cnt) :
    ∃ s₁, bootstrapFuse n now s₀ = some (.ok (FileOperation.fields sz cnt n), s₁) ∧
      Shows (FileOperation.fields sz cnt n) s₁ (newDisk sz cnt n now) := by
  have hl := hd.layout
  obtain ⟨t, hcreate, hc⟩ := hd.fitting.create_spec hs
  have hinv := hc.inv hd.fitting (by have := hd.ge; omega) hd.inodes
  have hempty : Stores (FileOperation.fields sz cnt n) t (fun _ => none)
      ⟨fun _ => none, cnt - dataStart (FileOperation.fields sz cnt n)⟩ :=
    ⟨hinv, nofun, fun _ _ => rfl, nofun, card_created hc, nofun⟩
  obtain ⟨k, hk⟩ := Nat.exists_eq_add_one.mpr (Nat.sub_pos_of_lt hroom)
  have halloc := allocInode_stores hl hempty (Or.inr rfl) hnow (freeId_empty (root_lt hl))
  rw [hk] at halloc
  obtain ⟨s₁, files, halloc, h⟩ := halloc
  have hroot : (FileOperation.fields sz cnt n).allocInode 2 now t = some (.ok 1, s₁) := halloc
  have hwell : WellFormed (fun _ => none : Volume) := by
    have hlive : live (fun _ => none) = ∅ := by
      ext x
      simp [live]
    exact ⟨hlive ▸ linked_empty, fun id e he => absurd he List.not_mem_nil⟩
  refine ⟨s₁, ?_, hwell.make rfl (Or.inr rfl), files, ?_⟩
  · unfold bootstrapFuse
    rw [bind_ok hcreate, bind_ok (unwrap_apply hroot), require_of rfl, bind_ok (pure_apply ()), pure_apply]
  · rw [newDisk, hk]
    exact h

theorem alike_bootstrapFuse (hd : Dimensions sz cnt n) (hs : s₀.maybeFailed = false) (hnow : now < 2 ^ 63)
    (hroom : dataStart (FileOperation.fields sz cnt n) < cnt)
    (hqs : Admitted (act d sz (idLimit (FileOperation.fields sz cnt n)))
      (fun x q => Proper (idLimit (FileOperation.fields sz cnt n)) x.volume q) (newDisk sz cnt n now) qs) :
    ∃ s₁, bootstrapFuse n now s₀ = some (.ok (FileOperation.fields sz cnt n), s₁) ∧
      Alike (Shows (FileOperation.fields sz cnt n)) (answers (respond d (FileOperation.fields sz cnt n)) s₁ qs)
        (answers (act d sz (idLimit (FileOperation.fields sz cnt n))) (newDisk sz cnt n now) qs) := by
  obtain ⟨s₁, hboot, h⟩ := bootstrapFuse_shows hd hs hnow hroom
  exact ⟨s₁, hboot, answers_alike (fun s x q h hq => h.respond hd.layout hq) h hqs⟩

end Runs

/-- The entries as they are sent to the kernel, padded to words. -/
def fuseDirent : Direntry where
  size name := (24 + name.length + 7) / 8 * 8
  encode name ino off := leBytes 8 ino ++ leBytes 8 off ++ leBytes 4 name.length ++ leBytes 4 0 ++ name ++
    List.replicate ((24 + name.length + 7) / 8 * 8 - (24 + name.length)) 0
  length_encode name ino off := by
    simp only [List.length_append, length_leBytes, List.length_replicate]
    omega

theorem dimensions_daemon : Dimensions 1024 16384 1024 := by
  constructor <;> decide +kernel

end Chfs.Fs.Serving
