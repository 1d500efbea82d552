import Chfs.Distributed.FailedCreates
import Chfs.Distributed.MountDaemon
import Chfs.MapReduce.Job
import Chfs.MapReduce.Reexecution

namespace Chfs.MapReduce.StoredFiles

open Lib.Effect Lib.Bytes Lib.Tree Block.Manager Fs.Inode Fs.Operations Fs.Files Fs.Directory Fs.Storage
  Distributed Distributed.Requests Distributed.Client Distributed.CatalogRuns Distributed.Mounts
  Distributed.MountedFiles Distributed.MountDaemon Words Reexecution
open Fs.Volumes (Disk Body entries put makeNode freeId IsFile IsDirectory eexist)
open Tasks (AskTaskReply)

variable {logCnt : ℕ}

def bytesOf (name : String) : List UInt8 := name.toByteArray.data.toList

theorem bytesOf_injective {name name' : String} (h : bytesOf name = bytesOf name') : name = name' :=
  String.toByteArray_inj.mp (ByteArray.ext (Array.toList_inj.mp h))

/-- What the workers see of a mounted file system: the files in its root directory. -/
def storeOf (m : Mount) : Job.Store := fun name =>
  (find (entries m.disk.volume 1) (bytesOf name)).map fun e => ofVec (m.contents e.id)

/-- The times of a task: those of its `mknode` and that of its `write_file`. -/
structure Times where
  alloc : ℕ
  entry : ℕ
  write : ℕ

def writeFile (ms : MetadataServer) (gen : ℕ → ℕ) (now : ℕ) (filename : List UInt8) (kvs : List KeyVal) :
    Cl logCnt Unit := do
  let outputInodeId ← onDevice (Names.lookup operation 1 filename)
  let _ ← attempt (Client.writeFile ms gen now outputInodeId 0 (contVec (render kvs)))
  pure ()

def doMap (ms : MetadataServer) (gen : ℕ → ℕ) (t : Times) (filename outputFile : String) : Cl logCnt Unit := do
  let content ← getContentFromFile ms (bytesOf filename)
  let _ ← onDevice (Names.mknode operation 1 1 (bytesOf outputFile) t.alloc t.entry)
  writeFile ms gen t.write (bytesOf outputFile) (mapContent content)

def readFiles (ms : MetadataServer) : List String → Cl logCnt (List KeyVal)
  | [] => pure []
  | file :: files => do
    let kv ← readKeyVals ms (bytesOf file)
    let kvs ← readFiles ms files
    pure (kv ++ kvs)

def doReduce (sort : List KeyVal → List KeyVal) (ms : MetadataServer) (gen : ℕ → ℕ) (t : Times) (files : List String)
    (outputFile : String) : Cl logCnt Unit := do
  let _ ← onDevice (Names.mknode operation 1 1 (bytesOf outputFile) t.alloc t.entry)
  let kvs ← readFiles ms files
  match reduceRuns (sort kvs).length (sort kvs) with
  | some res => writeFile ms gen t.write (bytesOf outputFile) res
  | none => undefined

def perform (sort : List KeyVal → List KeyVal) (ms : MetadataServer) (gen : ℕ → ℕ) (t : Times)
    (reply : AskTaskReply) : Cl logCnt Unit :=
  match reply.res with
  | .mapTask => match reply.files with
    | filename :: _ => doMap ms gen t filename reply.outputFile
    | [] => undefined
  | .reduceTask => doReduce sort ms gen t reply.files reply.outputFile
  | .noTask | .busy => undefined

/-- A mounted file system of which the root directory holds files only. The end of
block 0 is empty, so that the id 0 is refused. -/
structure Shared (ms : MetadataServer) (c : Cluster logCnt) (m : Mount) : Prop where
  mounted : Mounted ms c m
  root : IsDirectory m.disk.volume 1
  files : ∀ e ∈ entries m.disk.volume 1, IsFile m.disk.volume e.id
  zero : Named c.device 0

section Disk

variable {sz limit p id now now' : ℕ} {x y : Disk} {name : List UInt8} {es : List DirectoryEntry} {time : ℕ}

theorem makeNode_entry {st : Fs.Volumes.Stat} (hp : x.volume p = some ⟨.directory es, time⟩)
    (h : makeNode sz limit x p name (.file []) now now' 0 = (.entry id st, y)) :
    find es name = none ∧ x.volume id = none ∧
      y.volume = put (put x.volume id (.file []) now) p (.directory (es ++ [⟨name, id⟩])) now' := by
  unfold makeNode at h
  rw [hp] at h
  simp only at h
  split at h
  case h_1 => cases h
  case h_2 hnone =>
    split at h
    case h_2 => cases h
    case h_1 i k hid hfree =>
      split at h
      case h_2 => cases h
      case h_1 hy =>
        cases h
        exact ⟨hnone, (Fs.Volumes.freeId_eq_some hid).2.1, Fs.Volumes.volume_write hy⟩

theorem makeNode_exists (hp : x.volume p = some ⟨.directory es, time⟩)
    (h : makeNode sz limit x p name (.file []) now now' 0 = (.err eexist, y)) : y = x ∧ (find es name).isSome := by
  unfold makeNode at h
  rw [hp] at h
  simp only at h
  split at h
  case h_1 e he =>
    cases h
    exact ⟨rfl, by rw [he]; rfl⟩
  case h_2 =>
    split at h
    case h_2 => cases h
    case h_1 =>
      split at h
      case h_1 => cases h
      case h_2 => cases h

end Disk

section Pad

theorem length_ofVec (bytes : List UInt8) : (ofVec bytes).length = bytes.length := List.length_map _

theorem length_contVec (content : Text) : (contVec content).length = content.length := List.length_map _

theorem ofVec_drop (bytes : List UInt8) (n : ℕ) : ofVec (bytes.drop n) = (ofVec bytes).drop n := List.map_drop

/-- A file of whole blocks is written at its beginning, and has grown for that by as
many blocks as are missing. -/
theorem ofVec_splice {old : List UInt8} {k : ℕ} (hold : old.length = k * 4096) (data : List UInt8) :
    ofVec (splice (old ++ List.replicate (blocksMissing old.length 0 data.length * 4096) 0) 0 data) =
      Job.pad (ofVec data ++ (ofVec old).drop data.length) := by
  have hspec := calculateBlockSz_spec (n := 0 + data.length - old.length) (by decide : 0 < 4096)
  have hcnt : blocksMissing old.length 0 data.length = calculateBlockSz (0 + data.length - old.length) 4096 := rfl
  rw [splice, List.take_zero, List.nil_append, Nat.zero_add, ofVec_append, ← ofVec_drop, Job.pad, List.append_assoc]
  congr 1
  rw [List.length_append, length_ofVec, length_ofVec, List.length_drop]
  obtain hle | hgt := Nat.le_total data.length old.length
  · have hnone : blocksMissing old.length 0 data.length = 0 := by
      rw [hcnt, Nat.zero_add, Nat.sub_eq_zero_of_le hle]
      rfl
    have hwhole : (4096 - (data.length + (old.length - data.length)) % 4096) % 4096 = 0 := by
      rw [Nat.add_sub_cancel' hle, hold, Nat.mul_mod_left]
    rw [hnone, hwhole, Nat.zero_mul, List.replicate_zero, List.append_nil, List.replicate_zero, List.append_nil]
  · rw [List.drop_append, List.drop_of_length_le hgt, List.nil_append, List.drop_replicate, ofVec_zeros]
    change _ = [] ++ _
    rw [List.nil_append]
    congr 1
    have hle := hspec.1
    have hlast := hspec.2 (calculateBlockSz (0 + data.length - old.length) 4096 - 1)
    rw [hcnt]
    omega

end Pad

section Entries

variable {m : Mount} {y : Disk} {name : String} {es : List DirectoryEntry} {id time now now' : ℕ}

theorem files_made (hv : m.disk.volume 1 = some ⟨.directory es, time⟩)
    (hfiles : ∀ e ∈ entries m.disk.volume 1, IsFile m.disk.volume e.id) (hdead : m.disk.volume id = none)
    (hvol : y.volume = put (put m.disk.volume id (.file []) now) 1 (.directory (es ++ [⟨bytesOf name, id⟩])) now') :
    ∀ e ∈ entries y.volume 1, IsFile y.volume e.id := by
  rw [hvol, Fs.Volumes.entries_put_directory, Function.update_self]
  have hid : id ≠ 1 := by
    rintro rfl
    cases hdead.symm.trans hv
  intro e he
  unfold IsFile
  rw [Catalogs.put_apply, Catalogs.put_apply]
  obtain he | he := List.mem_append.mp he
  · obtain ⟨content, time', hfile⟩ := hfiles e (Fs.Volumes.entries_of hv ▸ he)
    have hroot : e.id ≠ 1 := by
      intro heq
      rw [heq, hv] at hfile
      cases hfile
    have hne : e.id ≠ id := by
      intro heq
      rw [heq, hdead] at hfile
      cases hfile
    exact ⟨content, time', by rw [if_neg hroot, if_neg hne, hfile]⟩
  · rw [List.mem_singleton.mp he]
    exact ⟨[], now, by rw [if_neg hid, if_pos rfl]⟩

theorem storeOf_made (hv : m.disk.volume 1 = some ⟨.directory es, time⟩) (hfind : find es (bytesOf name) = none)
    (hnil : m.contents id = [])
    (hvol : y.volume = put (put m.disk.volume id (.file []) now) 1 (.directory (es ++ [⟨bytesOf name, id⟩])) now') :
    storeOf { m with disk := y } = Job.mknode (storeOf m) name := by
  have hnone : storeOf m name = none := by
    unfold storeOf
    rw [Fs.Volumes.entries_of hv, hfind]
    rfl
  unfold Job.mknode
  rw [hnone, if_neg (by decide)]
  funext name'
  have hentries : entries y.volume 1 = es ++ [⟨bytesOf name, id⟩] := by
    rw [hvol, Fs.Volumes.entries_put_directory, Function.update_self]
  by_cases heq : name' = name
  · rw [heq, Function.update_self]
    unfold storeOf
    simp only
    rw [hentries, find, List.find?_append, ← find, hfind, Option.none_or, List.find?_singleton]
    simp only [decide_true, if_true, Option.map_some]
    rw [hnil]
    rfl
  · have hne : bytesOf name ≠ bytesOf name' := fun hbytes => heq (bytesOf_injective hbytes).symm
    rw [Function.update_of_ne heq]
    unfold storeOf
    simp only
    rw [hentries, Fs.Volumes.entries_of hv, find, List.find?_append, List.find?_singleton]
    simp only [hne, decide_false, Bool.false_eq_true, if_false, Option.or_none]
    rfl

theorem storeOf_written {e : DirectoryEntry} (hlinked : Linked (Fs.Volumes.live m.disk.volume) (entries m.disk.volume))
    (hfind : find (entries m.disk.volume 1) (bytesOf name) = some e) {disk : Disk}
    (hentries : entries disk.volume = entries m.disk.volume) (bytes : List UInt8) (room : ℕ) :
    storeOf ⟨disk, Function.update m.contents e.id bytes, room⟩ =
      Function.update (storeOf m) name (some (ofVec bytes)) := by
  obtain ⟨he, hname⟩ := find_eq_some hfind
  funext name'
  by_cases heq : name' = name
  · rw [heq, Function.update_self]
    unfold storeOf
    simp only
    rw [hentries, hfind, Option.map_some, Function.update_self]
  · rw [Function.update_of_ne heq]
    unfold storeOf
    simp only
    rw [hentries]
    cases hfind' : find (entries m.disk.volume 1) (bytesOf name') with
    | none => rfl
    | some e' =>
      obtain ⟨he', hname'⟩ := find_eq_some hfind'
      have hid : e'.id ≠ e.id := by
        intro hid
        have hsame := (hlinked.once 1 1 e' he' e he hid).2
        exact heq (bytesOf_injective (by rw [← hname', hsame, hname]))
      rw [Option.map_some, Option.map_some, Function.update_of_ne hid]

theorem grown_apply (x : Disk) (id k now i : ℕ) :
    (grown x id k now).volume i = x.volume i ∨ i = id ∧ (grown x id k now).volume i = some ⟨.file [], now⟩ := by
  unfold grown
  split
  · exact Or.inl rfl
  · simp only [Catalogs.put_apply]
    split
    case isTrue hi => exact Or.inr ⟨hi, rfl⟩
    case isFalse => exact Or.inl rfl

theorem entries_grown {x : Disk} (hfile : IsFile x.volume id) (k now : ℕ) :
    entries (grown x id k now).volume = entries x.volume := by
  obtain ⟨content, time, hv⟩ := hfile
  unfold grown
  split
  · rfl
  · refine Fs.Volumes.entries_put_file ?_
    unfold entries
    rw [hv]

end Entries

section Tasks

variable {ms : MetadataServer} {c : Cluster logCnt} {m : Mount} {t : Times} {now : ℕ} {name : String}
  {kvs : List KeyVal}

theorem Shared.not_isFile (h : Shared ms c m) : ¬ IsFile m.disk.volume 1 := fun hfile =>
  Catalogs.not_isDirectory hfile h.root

theorem Shared.lookup (h : Shared ms c m) (hname : ValidName (bytesOf name)) :
    onDevice (Names.lookup operation 1 (bytesOf name)) c =
      some (.ok (((find (entries m.disk.volume 1) (bytesOf name)).map Entry.id).getD 0), c) := by
  obtain ⟨x, hx⟩ := h.mounted
  obtain ⟨others, raw, files, hk⟩ := hx.keeps
  have hroot := h.not_isFile
  rw [hx.mirrors.disk] at hroot ⊢
  exact onDevice_apply (hk.lookup hx.wellFormed Nat.one_ne_zero hroot hname)

theorem Shared.getContentFromFile_missing (h : Shared ms c m) (hname : ValidName (bytesOf name))
    (hfind : find (entries m.disk.volume 1) (bytesOf name) = none) :
    getContentFromFile ms (bytesOf name) c = some (.ok [], c) := by
  have hlook := h.lookup hname
  rw [hfind] at hlook
  have hzero : operation.inodeManager.readInode 0 c.device = some (.error .invalidArg, c.device) :=
    readInode_zero layout.inodes (h.zero.resolve_left fun hne => hne rfl)
  have hattr : Reexecution.getTypeAttr 0 c = some (.ok ⟨0, 0, 0, 0⟩, c) := by
    have hread : onDevice (attempt (operation.inodeManager.getAttr 0)) c = some (.ok (.error .invalidArg), c) :=
      onDevice_apply (attempt_apply (bind_error hzero))
    unfold Reexecution.getTypeAttr
    rw [bind_ok hread]
    rfl
  have hmap : ms.getBlockMap 0 c = some (.ok [], c) := by
    unfold MetadataServer.getBlockMap
    rw [bind_ok (onDevice_apply (attempt_apply hzero))]
    rfl
  exact getContentFromFile_eq hlook hattr (bind_ok hmap)

/-- A name that was never created reads as an empty file. -/
theorem Shared.getContentFromFile (h : Shared ms c m) (hname : ValidName (bytesOf name)) :
    getContentFromFile ms (bytesOf name) c = some (.ok (Job.getContentFromFile (storeOf m) name), c) := by
  unfold Job.getContentFromFile storeOf
  cases hfind : find (entries m.disk.volume 1) (bytesOf name) with
  | none => exact h.getContentFromFile_missing hname hfind
  | some e =>
    have hlook := h.lookup hname
    rw [hfind] at hlook
    obtain ⟨x, hx⟩ := h.mounted
    obtain ⟨others, raw, files, hk⟩ := hx.keeps
    have hfile : IsFile x.disk.volume e.id := hx.mirrors.disk ▸ h.files e (find_eq_some hfind).1
    obtain ⟨attr, hattr, hsize⟩ := getTypeAttr_eq (lists_of_keeps hk hx.wellFormed) hfile
    have hread := readFile_mirrors hk hx.wellFormed hx.mirrors hfile 0 ((x.maps e.id).length * 4096)
    rw [hx.mirrors.length_contents, Nat.zero_add, if_pos (Or.inl (Nat.le_refl _)), slice, List.drop_zero,
      List.take_of_length_le (Nat.le_of_eq (hx.mirrors.length_contents e.id)), ← hsize] at hread
    exact getContentFromFile_eq hlook hattr hread

theorem Shared.readFiles (h : Shared ms c m) {files : List String} (hnames : ∀ name ∈ files, ValidName (bytesOf name)) :
    readFiles ms files c =
      some (.ok (files.flatMap fun file => parse (Job.getContentFromFile (storeOf m) file)), c) := by
  induction files with
  | nil => rfl
  | cons file files ih =>
    have hread : readKeyVals ms (bytesOf file) c =
        some (.ok (parse (Job.getContentFromFile (storeOf m) file)), c) :=
      bind_ok (h.getContentFromFile (hnames file List.mem_cons_self))
    unfold StoredFiles.readFiles
    rw [bind_ok hread, bind_ok (ih fun name hname => hnames name (List.mem_cons_of_mem _ hname))]
    rfl

theorem Shared.mknode (h : Shared ms c m) (hname : ValidName (bytesOf name)) (hnow : t.alloc < 2 ^ 63)
    (hnow' : t.entry < 2 ^ 63) (hfree : freeId (idLimit operation) m.disk.volume ≠ none) {reply : Fs.Volumes.Reply}
    {y : Disk} (hmade : makeNode 4096 (idLimit operation) m.disk 1 (bytesOf name) (.file []) t.alloc t.entry 0 =
      (reply, y)) (hreply : reply = .err eexist ∨ ∃ id st, reply = .entry id st) :
    ∃ id c₁, onDevice (Names.mknode operation 1 1 (bytesOf name) t.alloc t.entry) c = some (.ok id, c₁) ∧
      Shared ms c₁ { m with disk := y } ∧ storeOf { m with disk := y } = Job.mknode (storeOf m) name := by
  obtain ⟨x, hx⟩ := h.mounted
  obtain ⟨es, time, hv⟩ := id h.root
  have hdisk := hx.mirrors.disk
  have hact : Catalogs.act ms (idLimit operation) x (.mknode 1 1 (bytesOf name) t.alloc t.entry) =
      some (.id (Catalogs.madeId reply), { x with disk := y }) := by
    rw [hdisk] at hmade
    rw [Catalogs.act, Catalogs.nodeBody, if_pos rfl, hmade]
  obtain ⟨c₁, hserve, hx₁⟩ := hx.call (q := .mknode 1 1 (bytesOf name) t.alloc t.entry)
    ⟨Or.inl rfl, hdisk ▸ h.root, hname, hnow, hnow', hdisk ▸ hfree⟩ hact
  have hrun : onDevice (Names.mknode operation 1 1 (bytesOf name) t.alloc t.entry) c =
      some (.ok (Catalogs.madeId reply), c₁) := of_reply (fun _ _ heq => Catalogs.Reply.id.inj heq) hserve
  have hzero : Named c₁.device 0 := by
    obtain ⟨d, hmk, rfl⟩ := onPart_eq_some.mp hrun
    obtain ⟨others, raw, files, hk⟩ := hx.keeps
    have hsane : FailedCreates.Sane operation others (c.device.blocks 0) c.device := ⟨rfl, files, hk.stores.inv⟩
    have hnamed : Named c.device 1 := Or.inl (by decide)
    exact h.zero.congr (hsane.mknode layout hnamed (hk.not_mem (hdisk ▸ hv)) 1 t.alloc t.entry _ _ hmk).1
  obtain rfl | ⟨id, st, rfl⟩ := hreply
  · obtain ⟨rfl, hfind⟩ := makeNode_exists hv hmade
    refine ⟨_, c₁, hrun, ⟨⟨_, hx₁⟩, h.root, h.files, hzero⟩, ?_⟩
    have hsome : (storeOf m name).isSome := by
      rw [storeOf, Option.isSome_map, Fs.Volumes.entries_of hv]
      exact hfind
    rw [Job.mknode, if_pos hsome]
  · obtain ⟨hfind, hdead, hvol⟩ := makeNode_entry hv hmade
    have hnil : m.contents id = [] := by
      have hlen := hx.mirrors.length_contents id
      rw [hx.wellFormed.maps_nil fun hf => Catalogs.ne_none_of_isFile hf (hdisk ▸ hdead)] at hlen
      exact List.eq_nil_of_length_eq_zero hlen
    have hroot : IsDirectory y.volume 1 := by
      rw [hvol]
      exact ⟨_, _, Function.update_self ..⟩
    exact ⟨_, c₁, hrun, ⟨⟨_, hx₁⟩, hroot, files_made hv h.files hdead hvol, hzero⟩, storeOf_made hv hfind hnil hvol⟩

theorem Shared.writeFile (h : Shared ms c m) (hname : ValidName (bytesOf name)) (hs : (storeOf m name).isSome)
    (hkvs : ∀ kv ∈ kvs, kv.Readable) (hnow : now < 2 ^ 63) (hshort : (render kvs).length ≤ 252 * 4096)
    (hroom : (render kvs).length ≤ m.room * 4096) (gen : ℕ → ℕ) :
    ∃ c' m', writeFile ms gen now (bytesOf name) kvs c = some (.ok (), c') ∧ Shared ms c' m' ∧
      Job.writeContent (storeOf m) name (render kvs) = some (storeOf m') := by
  obtain ⟨e, hfind⟩ : ∃ e, find (entries m.disk.volume 1) (bytesOf name) = some e := by
    unfold storeOf at hs
    rw [Option.isSome_map] at hs
    exact Option.isSome_iff_exists.mp hs
  have hlook := h.lookup hname
  rw [hfind] at hlook
  obtain ⟨x, hx⟩ := h.mounted
  obtain ⟨others, raw, files, hk⟩ := hx.keeps
  have hfile := h.files e (find_eq_some hfind).1
  have hlen := length_contVec (render kvs)
  have hfit : 0 + (contVec (render kvs)).length ≤ 252 * 4096 := by
    omega
  have hwrite := writeFile_mirrors hk hx.wellFormed hx.mirrors (hx.mirrors.disk ▸ hfile) hfit hnow gen
  have henough : blocksMissing (m.contents e.id).length 0 (contVec (render kvs)).length ≤ m.room := by
    have hspec := (calculateBlockSz_spec (n := 0 + (contVec (render kvs)).length - (m.contents e.id).length)
      (by decide : 0 < 4096)).2 m.room
    unfold blocksMissing
    omega
  unfold Mounts.writeFile at hwrite
  simp only at hwrite
  rw [if_pos henough] at hwrite
  obtain ⟨c', others', raw', files', y, hrun, hk', hw', hm', hsuper⟩ := hwrite
  have hbytes := ofVec_splice (hx.mirrors.length_contents e.id) (contVec (render kvs))
  rw [ofVec_render hkvs, hlen] at hbytes
  have hentries := entries_grown hfile (blocksMissing (m.contents e.id).length 0 (contVec (render kvs)).length) now
  refine ⟨c', _, ?_, ⟨⟨y, hw', ⟨others', raw', files', hk'⟩, hm'⟩, ?_, fun e' he' => ?_, h.zero.congr hsuper⟩, ?_⟩
  · unfold StoredFiles.writeFile
    rw [bind_ok hlook]
    exact bind_ok (attempt_apply hrun)
  · obtain ⟨es, time, hv⟩ := h.root
    obtain hsame | ⟨heq, -⟩ := grown_apply m.disk e.id _ now 1
    · exact ⟨es, time, hsame.trans hv⟩
    · exact absurd (heq ▸ hfile) h.not_isFile
  · rw [hentries] at he'
    obtain ⟨content, time, hv⟩ := h.files e' he'
    obtain hsame | ⟨-, hnew⟩ := grown_apply m.disk e.id _ now e'.id
    · exact ⟨content, time, hsame.trans hv⟩
    · exact ⟨[], now, hnew⟩
  · have hlinked := hx.wellFormed.tree.linked
    rw [← hx.mirrors.disk] at hlinked
    rw [hlen] at hentries
    rw [hlen, storeOf_written hlinked hfind hentries, hbytes]
    unfold Job.writeContent storeOf
    rw [hfind]
    rfl

/-- What a task that writes a text needs: its output file can be made or is there, and
there is room for the text. -/
structure Fits (m : Mount) (outputFile : String) (text : Text) (t : Times) : Prop where
  alloc : t.alloc < 2 ^ 63
  entry : t.entry < 2 ^ 63
  write : t.write < 2 ^ 63
  free : freeId (idLimit operation) m.disk.volume ≠ none
  made : ∃ reply y, makeNode 4096 (idLimit operation) m.disk 1 (bytesOf outputFile) (.file []) t.alloc t.entry 0 =
    (reply, y) ∧ (reply = .err eexist ∨ ∃ id st, reply = .entry id st)
  short : text.length ≤ 252 * 4096
  room : text.length ≤ m.room * 4096

theorem isSome_mknode (store : Job.Store) (name : String) : (Job.mknode store name name).isSome := by
  unfold Job.mknode
  split
  case isTrue h => exact h
  case isFalse => rw [Function.update_self]; rfl

variable {filename outputFile : String} {files : List String} {text : Text} {store : Job.Store}
  {sort : List KeyVal → List KeyVal} {reply : AskTaskReply}

theorem Shared.doMap (h : Shared ms c m) (hin : ValidName (bytesOf filename)) (hout : ValidName (bytesOf outputFile))
    (hjob : Job.doMap (storeOf m) filename outputFile = some (text, store)) (hfits : Fits m outputFile text t)
    (gen : ℕ → ℕ) :
    ∃ c' m', doMap ms gen t filename outputFile c = some (.ok (), c') ∧ Shared ms c' m' ∧ storeOf m' = store := by
  obtain ⟨store', hwrite, heq⟩ := Option.bind_eq_some_iff.mp hjob
  cases heq
  obtain ⟨r, y, hmade, hr⟩ := hfits.made
  obtain ⟨id, c₁, hmk, h₁, hstore⟩ := h.mknode hout hfits.alloc hfits.entry hfits.free hmade hr
  obtain ⟨c', m', hrun, h', hwritten⟩ := h₁.writeFile hout (hstore ▸ isSome_mknode _ _)
    (fun kv hkv => (mapContent_good hkv).readable) hfits.write hfits.short hfits.room gen
  rw [hstore, hwrite] at hwritten
  refine ⟨c', m', ?_, h', (Option.some.inj hwritten).symm⟩
  unfold StoredFiles.doMap
  rw [bind_ok (h.getContentFromFile hin), bind_ok hmk, hrun]

theorem Shared.doReduce (h : Shared ms c m) (hsort : ∀ kvs, (sort kvs).Perm kvs)
    (hin : ∀ name ∈ files, ValidName (bytesOf name)) (hout : ValidName (bytesOf outputFile))
    (hjob : Job.doReduce sort (storeOf m) files outputFile = some (text, store)) (hfits : Fits m outputFile text t)
    (gen : ℕ → ℕ) :
    ∃ c' m', doReduce sort ms gen t files outputFile c = some (.ok (), c') ∧ Shared ms c' m' ∧ storeOf m' = store := by
  obtain ⟨res, hres, hjob⟩ := Option.bind_eq_some_iff.mp hjob
  obtain ⟨store', hwrite, heq⟩ := Option.bind_eq_some_iff.mp hjob
  cases heq
  obtain ⟨r, y, hmade, hr⟩ := hfits.made
  obtain ⟨id, c₁, hmk, h₁, hstore⟩ := h.mknode hout hfits.alloc hfits.entry hfits.free hmade hr
  have hreadable : ∀ kv ∈ res, kv.Readable := by
    refine reduceRuns_readable (fun kv hkv => ?_) hres
    obtain ⟨file, -, hkv⟩ := List.mem_flatMap.mp ((hsort _).mem_iff.mp hkv)
    exact parse_readable hkv
  obtain ⟨c', m', hrun, h', hwritten⟩ := h₁.writeFile hout (hstore ▸ isSome_mknode _ _) hreadable hfits.write
    hfits.short hfits.room gen
  rw [hstore, hwrite] at hwritten
  refine ⟨c', m', ?_, h', (Option.some.inj hwritten).symm⟩
  unfold StoredFiles.doReduce
  rw [bind_ok hmk, bind_ok (h₁.readFiles hin), hstore, hres]
  exact hrun

/-- What a task makes of the files by name, the servers make of the blocks. -/
theorem Shared.perform (h : Shared ms c m) (hsort : ∀ kvs, (sort kvs).Perm kvs)
    (hin : ∀ name ∈ reply.files, ValidName (bytesOf name)) (hout : ValidName (bytesOf reply.outputFile))
    (hjob : Job.perform sort (storeOf m) reply = some (text, store)) (hfits : Fits m reply.outputFile text t)
    (gen : ℕ → ℕ) :
    ∃ c' m', perform sort ms gen t reply c = some (.ok (), c') ∧ Shared ms c' m' ∧ storeOf m' = store := by
  unfold Job.perform at hjob
  unfold StoredFiles.perform
  cases hres : reply.res with
  | mapTask =>
    rw [hres] at hjob
    obtain ⟨filename, hhead, hjob⟩ := Option.bind_eq_some_iff.mp hjob
    obtain ⟨rest, hfiles⟩ := List.head?_eq_some_iff.mp hhead
    rw [hfiles] at hin
    simp only
    rw [hfiles]
    exact h.doMap (hin filename List.mem_cons_self) hout hjob hfits gen
  | reduceTask =>
    rw [hres] at hjob
    exact h.doReduce hsort hin hout hjob hfits gen
  | noTask | busy =>
    rw [hres] at hjob
    cases hjob

end Tasks

section Start

open Distributed.DataServer Distributed.Ownership

variable {ms : MetadataServer} {c c₁ : Cluster logCnt} {now : ℕ}

theorem initFs_zero (hs : c.device.maybeFailed = false)
    (hzero : getField (c.device.blocks 0) (4096 - sizeofBlockId) sizeofBlockId = invalidBlockId)
    (hrun : onDevice (initFs now) c = some (.ok operation, c₁)) : Named c₁.device 0 := by
  obtain ⟨d, hinit, rfl⟩ := onPart_eq_some.mp hrun
  obtain ⟨s, hcreate, hcreated⟩ := dimensions.fitting.create_spec hs
  obtain ⟨_, hempty, hinv⟩ := Fs.Contents.create_spec dimensions hs
  cases hcreate.symm.trans hempty
  have hlen : (superBlock 4096 4096 operation.inodeManager.maxInodeSupported).length = 32 := by
    simp only [superBlock, List.length_append, length_leBytes]
  have hlast : Named s 0 := by
    refine Or.inr ?_
    have hfit : 0 + (superBlock 4096 4096 operation.inodeManager.maxInodeSupported).length ≤
        (c.device.blocks 0).length := by
      rw [hlen, c.device.length_blocks]
      decide
    have hafter : 4096 - sizeofBlockId + sizeofBlockId ≤ 0 ∨
        0 + (superBlock 4096 4096 operation.inodeManager.maxInodeSupported).length ≤ 4096 - sizeofBlockId := by
      rw [hlen]
      decide
    have hslice := slice_splice_of_disjoint hfit hafter
    rw [getField, hcreated.super]
    exact (congrArg leVal hslice).trans hzero
  unfold initFs at hinit
  rw [bind_ok hcreate] at hinit
  obtain ⟨r, s₁, halloc, hrest⟩ := bind_eq_ok hinit
  have hsane : FailedCreates.Sane operation ∅ (s.blocks 0) s := ⟨rfl, _, hinv⟩
  have hsuper : s₁.blocks 0 = s.blocks 0 := ((hsane.allocInode layout 2 now).attempt _ _ halloc).1
  cases r with
  | error e => cases hrest
  | ok id =>
    obtain ⟨_, s₂, hreq, hpure⟩ := bind_eq_ok hrest
    obtain ⟨-, rfl⟩ := of_require hreq
    cases hpure
    exact hlast.congr hsuper

/-- A new metadata server has the empty store. -/
theorem initFs_shared (hs : c.device.maybeFailed = false) (hworks : ∀ i, (c.servers i).maybeFailed = false)
    (hzero : getField (c.device.blocks 0) (4096 - sizeofBlockId) sizeofBlockId = invalidBlockId)
    (hunused : Unused ms c) (hver : ∀ i b, (1 ≤ i ∧ i ≤ ms.numDataServers) → (1 ≤ b ∧ b < 4096) →
      (version (c.servers i) b).toNat < 31) (hnow : now < 2 ^ 63) :
    ∃ c₁, onDevice (initFs now) c = some (.ok operation, c₁) ∧ Shared ms c₁ (newMount ms now) ∧
      storeOf (newMount ms now) = fun _ => none := by
  obtain ⟨c₁, hrun, hmounted⟩ := initFs_mounted hs hworks hunused hver hnow
  have hroot : (newMount ms now).disk.volume 1 = some ⟨.directory [], now⟩ :=
    (Catalogs.put_apply (v := fun _ => none) 1).trans (if_pos rfl)
  have hentries : entries (newMount ms now).disk.volume 1 = [] := Fs.Volumes.entries_of hroot
  refine ⟨c₁, hrun, ⟨hmounted, ⟨[], now, hroot⟩, ?_, initFs_zero hs hzero hrun⟩, ?_⟩
  · rw [hentries]
    exact fun e he => absurd he List.not_mem_nil
  · funext name
    unfold storeOf
    rw [hentries]
    rfl

end Start

end Chfs.MapReduce.StoredFiles
