import Chfs.Fs.Contents
import Chfs.Fs.Directory

namespace Chfs.Fs.Volumes

open Lib.Bytes Lib.Tree Operations Files Contents Directory

inductive Body
  | file (content : List UInt8)
  | directory (entries : List DirectoryEntry)
  deriving DecidableEq, Repr

/-- The three times of a file are always the same. -/
structure Node where
  body : Body
  time : ℕ
  deriving DecidableEq, Repr

abbrev Volume : Type := ℕ → Option Node

def Body.text : Body → List UInt8
  | .file content => content
  | .directory es => dirListToString es

def Body.type : Body → ℕ
  | .file _ => 1
  | .directory _ => 2

def entries (v : Volume) (id : ℕ) : List DirectoryEntry :=
  match v id with
  | some ⟨.directory es, _⟩ => es
  | _ => []

def live (v : Volume) : Set ℕ := {id | v id ≠ none}

def put (v : Volume) (id : ℕ) (body : Body) (time : ℕ) : Volume := Function.update v id (some ⟨body, time⟩)

structure Stat where
  mode : ℕ
  nlink : ℕ
  atime : ℤ
  mtime : ℤ
  ctime : ℤ
  size : ℤ
  deriving DecidableEq, Repr

def Node.stat (node : Node) : Stat :=
  match node.body with
  | .file content => ⟨0o100666, 1, node.time, node.time, node.time, content.length⟩
  | .directory es => ⟨0o040777, 2, node.time, node.time, node.time, (dirListToString es).length⟩

/-- `fuse_add_direntry`: the size of an entry with a given name, and the entry
with a name, an inode number and the offset of the next entry. -/
structure Direntry where
  size : List UInt8 → ℕ
  encode : List UInt8 → ℕ → ℕ → List UInt8
  length_encode : ∀ name ino off, (encode name ino off).length = size name

def Direntry.listing (d : Direntry) : ℕ → List DirectoryEntry → List UInt8
  | _, [] => []
  | off, e :: es => d.encode e.name e.id (off + d.size e.name) ++ d.listing (off + d.size e.name) es

inductive Request
  | getattr (ino : ℕ)
  | lookup (parent : ℕ) (name : List UInt8)
  | readdir (ino size off : ℕ)
  | read (ino size off : ℕ)
  | mknod (parent : ℕ) (name : List UInt8) (now now' : ℕ)
  | mkdir (parent : ℕ) (name : List UInt8) (now now' : ℕ)
  | unlink (parent : ℕ) (name : List UInt8) (now : ℕ)
  | setattr (ino size now : ℕ)
  | openFile (ino : ℕ)
  | write (ino : ℕ) (data : List UInt8) (off now : ℕ)
  | readlink (ino : ℕ)
  | rmdir (parent : ℕ) (name : List UInt8)
  | symlink (link : List UInt8) (parent : ℕ) (name : List UInt8)
  | rename (parent : ℕ) (name : List UInt8) (newparent : ℕ) (newname : List UInt8)
  | link (ino newparent : ℕ) (newname : List UInt8)
  | statfs (ino : ℕ)
  deriving DecidableEq, Repr

inductive Reply
  | err (code : ℤ)
  | attr (st : Stat)
  | entry (ino : ℕ) (st : Stat)
  | buf (bytes : List UInt8)
  | opened
  | written (count : ℕ)
  deriving DecidableEq, Repr

def enoent : ℤ := 2
def eexist : ℤ := 17
def enotdir : ℤ := 20
def enosys : ℤ := 38
def enotempty : ℤ := 39

/-- The number of blocks for a text of a given length: the inode, the blocks of
the text and the indirect block, if there are too many of them. -/
def blockCount (sz len : ℕ) : ℕ :=
  1 + calculateBlockSz len sz + if directNum sz < calculateBlockSz len sz then 1 else 0

structure Disk where
  volume : Volume
  free : ℕ

/-- A node gets another body, if that is not too large. Without enough blocks for
it all free ones are lost. -/
def Disk.write (sz : ℕ) (x : Disk) (id : ℕ) (old new : Body) (now : ℕ) : Except Disk Disk :=
  if maxBlocks sz * sz < new.text.length then .error x
  else if blockCount sz new.text.length ≤ x.free + blockCount sz old.text.length then
    .ok ⟨put x.volume id new now, x.free + blockCount sz old.text.length - blockCount sz new.text.length⟩
  else .error ⟨x.volume, 0⟩

def freeId (limit : ℕ) (v : Volume) : Option ℕ := (List.range limit).find? fun id => 1 ≤ id ∧ v id = none

/-- A new file or directory; `code` stands for any error but an existing name.
If there is no space for the entry, the node stays without one. -/
def makeNode (sz limit : ℕ) (x : Disk) (p : ℕ) (name : List UInt8) (body : Body) (now now' : ℕ) (code : ℤ) :
    Reply × Disk :=
  match x.volume p with
  | some ⟨.directory es, _⟩ =>
    match find es name with
    | some _ => (.err eexist, x)
    | none =>
      match freeId limit x.volume, x.free with
      | some id, k + 1 =>
        match Disk.write sz ⟨put x.volume id body now, k⟩ p (.directory es) (.directory (es ++ [⟨name, id⟩])) now' with
        | .ok y => (.entry id (Node.stat ⟨body, now⟩), y)
        | .error y => (.err code, y)
      | _, _ => (.err code, x)
  | _ => (.err code, x)

def getattrReply (v : Volume) (ino : ℕ) : Reply :=
  match v ino with
  | some node => .attr node.stat
  | none => .err enoent

def lookupReply (v : Volume) (p : ℕ) (name : List UInt8) : Reply :=
  match v p with
  | none => .err (-1)
  | some _ =>
    match find (entries v p) name with
    | none => .err enoent
    | some e =>
      match v e.id with
      | some node => .entry e.id node.stat
      | none => .err (-1)

def readdirReply (d : Direntry) (v : Volume) (ino size off : ℕ) : Option Reply :=
  match v ino with
  | some ⟨.directory es, _⟩ => some (.buf (slice (d.listing 0 es) off size))
  | some ⟨.file _, _⟩ => some (.err enotdir)
  | none => none

def readReply (v : Volume) (ino size off : ℕ) : Reply :=
  match v ino with
  | some node => .buf (slice node.body.text off size)
  | none => .err (-1)

/-- A node is removed together with its entry, unless it has more than the direct
blocks. -/
def removeNode (sz : ℕ) (x : Disk) (p : ℕ) (name : List UInt8) (now : ℕ) : Option (Reply × Disk) :=
  match x.volume p with
  | some ⟨.directory es, _⟩ =>
    match find es name with
    | none => some (.err enoent, x)
    | some e =>
      match x.volume e.id with
      | none => none
      | some node =>
        if directNum sz * sz < node.body.text.length then none else
          some (.err 0, ⟨put (Function.update x.volume e.id none) p (.directory (es.erase e)) now,
            x.free + blockCount sz node.body.text.length + blockCount sz (dirListToString es).length -
              blockCount sz (dirListToString (es.erase e)).length⟩)
  | _ => some (.err enosys, x)

def resizeNode (sz : ℕ) (x : Disk) (ino size now : ℕ) : Reply × Disk :=
  match x.volume ino with
  | some ⟨.file content, time⟩ =>
    if content.length = size then (.attr (Node.stat ⟨.file content, time⟩), x) else
      match x.write sz ino (.file content) (.file (resized content size)) now with
      | .ok y => (.attr (Node.stat ⟨.file (resized content size), now⟩), y)
      | .error y => (.err enosys, y)
  | _ => (.err enosys, x)

def writeNode (sz : ℕ) (x : Disk) (ino : ℕ) (data : List UInt8) (off now : ℕ) : Option (Reply × Disk) :=
  match x.volume ino with
  | some ⟨.file content, _⟩ =>
    match x.write sz ino (.file content) (.file (overwrite content data off)) now with
    | .ok y => some (.written data.length, y)
    | .error y => some (.err enosys, y)
  | _ => none

/-- The reply to a request and the disk after it. There is none where the daemon
aborts. -/
def act (d : Direntry) (sz limit : ℕ) (x : Disk) : Request → Option (Reply × Disk)
  | .getattr ino => some (getattrReply x.volume ino, x)
  | .lookup p name => some (lookupReply x.volume p name, x)
  | .readdir ino size off => (readdirReply d x.volume ino size off).map (·, x)
  | .read ino size off => some (readReply x.volume ino size off, x)
  | .mknod p name now now' => some (makeNode sz limit x p name (.file []) now now' enoent)
  | .mkdir p name now now' => some (makeNode sz limit x p name (.directory []) now now' enosys)
  | .unlink p name now => removeNode sz x p name now
  | .setattr ino size now => some (resizeNode sz x ino size now)
  | .openFile _ => some (.opened, x)
  | .write ino data off now => writeNode sz x ino data off now
  | .readlink _ | .rmdir .. | .symlink .. | .rename .. | .link .. | .statfs _ => none

def IsFile (v : Volume) (id : ℕ) : Prop := ∃ content time, v id = some ⟨.file content, time⟩

def IsDirectory (v : Volume) (id : ℕ) : Prop := ∃ es time, v id = some ⟨.directory es, time⟩

/-- The requests the daemon can cope with. No inode id is 0. Lookups, new nodes and
removals are not in a file, and writes and new sizes are not of a directory. A new
name has no colon, slash or zero byte, and there is an inode number below `limit`
for its node. All times, sizes and ends of pieces are below `2 ^ 63`. -/
def Proper (limit : ℕ) (v : Volume) : Request → Prop
  | .getattr ino | .readdir ino _ _ => ino ≠ 0
  | .lookup p _ => p ≠ 0 ∧ ¬ IsFile v p
  | .read ino size off => ino ≠ 0 ∧ off + size < 2 ^ 63
  | .mknod p name now now' | .mkdir p name now now' => p ≠ 0 ∧ ¬ IsFile v p ∧ ValidName name ∧ now < 2 ^ 63 ∧
      now' < 2 ^ 63 ∧ freeId limit v ≠ none
  | .unlink p _ now => p ≠ 0 ∧ ¬ IsFile v p ∧ now < 2 ^ 63
  | .setattr ino size now => ino ≠ 0 ∧ ¬ IsDirectory v ino ∧ size < 2 ^ 63 ∧ now < 2 ^ 63
  | .write ino data off now => ino ≠ 0 ∧ ¬ IsDirectory v ino ∧ off + data.length < 2 ^ 63 ∧ now < 2 ^ 63
  | .openFile _ | .readlink _ | .rmdir .. | .symlink .. | .rename .. | .link .. | .statfs _ => True

instance (v : Volume) (id : ℕ) : Decidable (IsFile v id) :=
  match h : v id with
  | some ⟨.file content, time⟩ => .isTrue ⟨content, time, h⟩
  | some ⟨.directory _, _⟩ => .isFalse fun ⟨_, _, hfile⟩ => nomatch h.symm.trans hfile
  | none => .isFalse fun ⟨_, _, hfile⟩ => nomatch h.symm.trans hfile

instance (v : Volume) (id : ℕ) : Decidable (IsDirectory v id) :=
  match h : v id with
  | some ⟨.directory es, time⟩ => .isTrue ⟨es, time, h⟩
  | some ⟨.file _, _⟩ => .isFalse fun ⟨_, _, hdir⟩ => nomatch h.symm.trans hdir
  | none => .isFalse fun ⟨_, _, hdir⟩ => nomatch h.symm.trans hdir

instance (name : List UInt8) : Decidable (ValidName name) :=
  decidable_of_iff (slash ∉ name ∧ colon ∉ name ∧ 0 ∉ name)
    ⟨fun h => ⟨h.1, h.2.1, h.2.2⟩, fun h => ⟨h.slash, h.colon, h.nul⟩⟩

instance (limit : ℕ) (v : Volume) (q : Request) : Decidable (Proper limit v q) :=
  match q with
  | .getattr _ | .readdir .. => inferInstanceAs (Decidable (_ ≠ _))
  | .lookup .. | .read .. | .mknod .. | .mkdir .. | .unlink .. | .setattr .. | .write .. =>
    inferInstanceAs (Decidable (_ ∧ _))
  | .openFile _ | .readlink _ | .rmdir .. | .symlink .. | .rename .. | .link .. | .statfs _ => .isTrue trivial

/-- Entries have names that can be stored and lead to nodes, each to another
one. -/
structure WellFormed (v : Volume) : Prop where
  linked : Linked (live v) (entries v)
  named : ∀ id, ∀ e ∈ entries v id, ValidName e.name

section WellFormed

variable {v : Volume} {p id time now now' : ℕ} {body : Body} {name : List UInt8} {es : List DirectoryEntry}
  {e : DirectoryEntry} {content content' : List UInt8}

theorem live_put : live (put v id body time) = insert id (live v) := by
  ext x
  rw [Set.mem_insert_iff]
  unfold live put
  by_cases hx : x = id
  · simp [hx]
  · simp [hx]

theorem live_of (h : v id = some ⟨body, time⟩) : id ∈ live v := by
  unfold live
  simp [h]

theorem entries_of (h : v p = some ⟨.directory es, time⟩) : entries v p = es := by
  unfold entries
  rw [h]

theorem entries_put_directory : entries (put v p (.directory es) time) = Function.update (entries v) p es := by
  funext x
  unfold entries put
  by_cases hx : x = p
  · rw [hx, Function.update_self, Function.update_self]
  · rw [Function.update_of_ne hx, Function.update_of_ne hx]

theorem entries_put_file (hnil : entries v id = []) : entries (put v id (.file content) time) = entries v := by
  funext x
  by_cases hx : x = id
  · rw [hx, hnil]
    unfold entries put
    rw [Function.update_self]
  · unfold entries put
    rw [Function.update_of_ne hx]

theorem entries_file (h : v id = some ⟨.file content, time⟩) : entries v id = [] := by
  unfold entries
  rw [h]

theorem entries_none (h : v id = none) : entries v id = [] := by
  unfold entries
  rw [h]

theorem entries_make (h : v id = none) (hbody : body = .file [] ∨ body = .directory []) :
    entries (put v id body now) = entries v := by
  obtain rfl | rfl := hbody
  · exact entries_put_file (entries_none h)
  · rw [entries_put_directory, ← entries_none h, Function.update_eq_self]

theorem WellFormed.make (h : WellFormed v) (hid : v id = none) (hbody : body = .file [] ∨ body = .directory []) :
    WellFormed (put v id body now) := by
  have hentries : entries (put v id body now) = entries v := entries_make hid hbody
  constructor
  · rw [hentries, live_put]
    exact h.linked.grow id
  · rw [hentries]
    exact h.named

theorem WellFormed.rewrite (h : WellFormed v) (hid : v id = some ⟨.file content, time⟩) :
    WellFormed (put v id (.file content') now) := by
  have hentries : entries (put v id (.file content') now) = entries v := entries_put_file (entries_file hid)
  constructor
  · rw [hentries, live_put, Set.insert_eq_of_mem (live_of hid)]
    exact h.linked
  · rw [hentries]
    exact h.named

theorem WellFormed.create (h : WellFormed v) (hp : v p = some ⟨.directory es, time⟩) (hid : v id = none)
    (hbody : body = .file [] ∨ body = .directory []) (hname : ValidName name) (hnone : find es name = none) :
    WellFormed (put (put v id body now) p (.directory (es ++ [⟨name, id⟩])) now') := by
  have hentries : entries (put (put v id body now) p (.directory (es ++ [⟨name, id⟩])) now') =
      link (entries v) p ⟨name, id⟩ := by
    rw [entries_put_directory, entries_make hid hbody, link, entries_of hp]
  have hlive : live (put (put v id body now) p (.directory (es ++ [⟨name, id⟩])) now') = insert id (live v) := by
    rw [live_put, live_put, Set.insert_eq_of_mem (Set.mem_insert_of_mem id (live_of hp))]
  constructor
  · rw [hentries, hlive]
    refine h.linked.link (live_of hp) (fun hin => hin hid) ?_
    rw [entries_of hp]
    exact find_eq_none.mp hnone
  · rw [hentries]
    intro x e he
    obtain he | ⟨-, rfl⟩ := mem_link.mp he
    · exact h.named x e he
    · exact hname

theorem entries_delete : entries (Function.update v id none) = Function.update (entries v) id [] := by
  funext x
  unfold entries
  by_cases hx : x = id
  · rw [hx, Function.update_self, Function.update_self]
  · rw [Function.update_of_ne hx, Function.update_of_ne hx]

theorem WellFormed.unlink (h : WellFormed v) (hp : v p = some ⟨.directory es, time⟩) (he : find es name = some e) :
    WellFormed (put (Function.update v e.id none) p (.directory (es.erase e)) now) := by
  rw [← entries_of hp] at he
  have hne : p ≠ e.id := (h.linked.irrefl p e (find_eq_some he).1).symm
  have hentries : entries (put (Function.update v e.id none) p (.directory (es.erase e)) now) =
      cut (entries v) p name := by
    unfold cut
    rw [entries_put_directory, entries_delete, he, entries_of hp, Function.update_comm hne.symm]
  have hlive : live (put (Function.update v e.id none) p (.directory (es.erase e)) now) = live v \ {e.id} := by
    have hdelete : live (Function.update v e.id none) = live v \ {e.id} := by
      ext x
      unfold live
      by_cases hx : x = e.id
      · simp [hx]
      · simp [hx]
    rw [live_put, hdelete, Set.insert_eq_of_mem]
    exact ⟨live_of hp, hne⟩
  constructor
  · rw [hentries, hlive]
    exact h.linked.cut he
  · rw [hentries]
    exact fun x e' he' => h.named x e' ((mem_cut h.linked he).mp he').2.2

theorem volume_write {sz : ℕ} {x y : Disk} {old new : Body} (h : x.write sz id old new now = .ok y) :
    y.volume = put x.volume id new now := by
  unfold Disk.write at h
  split at h
  case isTrue => cases h
  case isFalse =>
    split at h
    case isTrue =>
      cases h
      rfl
    case isFalse => cases h

theorem volume_write_error {sz : ℕ} {x y : Disk} {old new : Body} (h : x.write sz id old new now = .error y) :
    y.volume = x.volume := by
  unfold Disk.write at h
  split at h
  case isTrue =>
    cases h
    rfl
  case isFalse =>
    split at h
    case isTrue => cases h
    case isFalse =>
      cases h
      rfl

theorem freeId_eq_some {limit : ℕ} (h : freeId limit v = some id) :
    1 ≤ id ∧ v id = none ∧ id < limit ∧ ∀ i, 1 ≤ i → i < id → v i ≠ none := by
  unfold freeId at h
  rw [List.find?_range_eq_some] at h
  obtain ⟨hid, hlt, hfirst⟩ := h
  rw [decide_eq_true_eq] at hid
  refine ⟨hid.1, hid.2, List.mem_range.mp hlt, fun i hi hlt' hnone => ?_⟩
  have hnot := hfirst i hlt'
  rw [decide_eq_true ⟨hi, hnone⟩] at hnot
  cases hnot

theorem makeNode_wellFormed {sz limit : ℕ} {x : Disk} {code : ℤ} (h : WellFormed x.volume) (hname : ValidName name)
    (hbody : body = .file [] ∨ body = .directory []) :
    WellFormed (makeNode sz limit x p name body now now' code).2.volume := by
  unfold makeNode
  split
  case h_2 => exact h
  case h_1 es time hp =>
    split
    case h_1 => exact h
    case h_2 hnone =>
      split
      case h_2 => exact h
      case h_1 id k hid hfree =>
        have hdead := (freeId_eq_some hid).2.1
        split
        case h_1 y hy =>
          simp only
          rw [volume_write hy]
          exact h.create hp hdead hbody hname hnone
        case h_2 y hy =>
          simp only
          rw [volume_write_error hy]
          exact h.make hdead hbody

theorem WellFormed.writeFile {sz : ℕ} {x : Disk} (h : WellFormed x.volume)
    (hid : x.volume id = some ⟨.file content, time⟩) :
    (∀ y, x.write sz id (.file content) (.file content') now = .ok y → WellFormed y.volume) ∧
    ∀ y, x.write sz id (.file content) (.file content') now = .error y → WellFormed y.volume := by
  constructor
  · intro y hy
    rw [volume_write hy]
    exact h.rewrite hid
  · intro y hy
    rw [volume_write_error hy]
    exact h

theorem resizeNode_wellFormed {sz size : ℕ} {x : Disk} (h : WellFormed x.volume) :
    WellFormed (resizeNode sz x id size now).2.volume := by
  unfold resizeNode
  split
  case h_2 => exact h
  case h_1 content time hid =>
    split
    case isTrue => exact h
    case isFalse =>
      split
      case h_1 y hy => exact (h.writeFile hid).1 y hy
      case h_2 y hy => exact (h.writeFile hid).2 y hy

theorem writeNode_wellFormed {sz off : ℕ} {data : List UInt8} {x : Disk} (h : WellFormed x.volume) :
    ∀ out ∈ writeNode sz x id data off now, WellFormed out.2.volume := by
  unfold writeNode
  split
  case h_2 => nofun
  case h_1 content time hid =>
    split
    case h_1 y hy =>
      rintro _ ⟨⟩
      exact (h.writeFile hid).1 y hy
    case h_2 y hy =>
      rintro _ ⟨⟩
      exact (h.writeFile hid).2 y hy

theorem removeNode_wellFormed {sz : ℕ} {x : Disk} (h : WellFormed x.volume) :
    ∀ out ∈ removeNode sz x p name now, WellFormed out.2.volume := by
  unfold removeNode
  split
  case h_2 =>
    rintro _ ⟨⟩
    exact h
  case h_1 es time hp =>
    split
    case h_1 =>
      rintro _ ⟨⟩
      exact h
    case h_2 e he =>
      split
      case h_1 => nofun
      case h_2 node hnode =>
        split
        case isTrue => nofun
        case isFalse =>
          rintro _ ⟨⟩
          exact h.unlink hp he

theorem act_wellFormed {d : Direntry} {sz limit : ℕ} {x y : Disk} {q : Request} {r : Reply}
    (ha : act d sz limit x q = some (r, y)) (h : WellFormed x.volume) (hq : Proper limit x.volume q) :
    WellFormed y.volume := by
  have hsome : ∀ out : Reply × Disk, some out = some (r, y) → WellFormed out.2.volume → WellFormed y.volume := by
    intro out heq hw
    cases heq
    exact hw
  cases q with
  | getattr | lookup | read | openFile => exact hsome _ ha h
  | readdir =>
    obtain ⟨r', -, heq⟩ := Option.map_eq_some_iff.mp ha
    exact hsome _ (congrArg some heq) h
  | mknod => exact hsome _ ha (makeNode_wellFormed h hq.2.2.1 (Or.inl rfl))
  | mkdir => exact hsome _ ha (makeNode_wellFormed h hq.2.2.1 (Or.inr rfl))
  | unlink => exact removeNode_wellFormed h _ ha
  | setattr => exact hsome _ ha (resizeNode_wellFormed h)
  | write => exact writeNode_wellFormed h _ ha
  | readlink | rmdir | symlink | rename | link | statfs => cases ha

end WellFormed

end Chfs.Fs.Volumes
