import Chfs.Distributed.Catalogs

namespace Chfs.Distributed.Mounts

open Lib.Bytes Lib.Tree Fs.Operations Fs.Files Fs.Contents Fs.Directory
open Fs.Volumes (Disk Request Reply Stat Direntry Node Body put entries makeNode removeNode freeId IsFile IsDirectory
  enoent enosys)

/-- The nodes, of which the files are empty on the disk of the metadata server,
the bytes of the files and the number of free blocks on the data servers. -/
structure Mount where
  disk : Disk
  contents : ℕ → List UInt8
  room : ℕ

def Mount.stat (m : Mount) (id : ℕ) : Option Stat :=
  (m.disk.volume id).map fun node => match node.body with
    | .file _ => Node.stat ⟨.file (m.contents id), node.time⟩
    | .directory _ => node.stat

def blocksMissing (len off count : ℕ) : ℕ := calculateBlockSz (off + count - len) 4096

def readReply (m : Mount) (ino size off : ℕ) : Option Reply :=
  if IsFile m.disk.volume ino then
    some (if (m.contents ino).length ≤ off then .buf []
      else if off + size ≤ (m.contents ino).length then .buf (slice (m.contents ino) off size)
      else .err (-1))
  else none

/-- The inode is written for each block that the file gets. -/
def grown (x : Disk) (ino k now : ℕ) : Disk :=
  if k = 0 then x else ⟨put x.volume ino (.file []) now, x.free⟩

/-- A file grows by whole blocks of zeros. Without enough of them the daemon
waits for ever. -/
def writeFile (m : Mount) (ino : ℕ) (data : List UInt8) (off now : ℕ) : Option (Reply × Mount) :=
  let k := blocksMissing (m.contents ino).length off data.length
  if k ≤ m.room then
    some (.written data.length, ⟨grown m.disk ino k now,
      Function.update m.contents ino (splice (m.contents ino ++ List.replicate (k * 4096) 0) off data), m.room - k⟩)
  else none

def madeReply (code : ℤ) : Reply → Reply
  | .entry id st => .entry id st
  | _ => .err code

/-- The reply to a request and the file system after it. There is none where the
daemon aborts or waits for ever. -/
def act (d : Direntry) (limit : ℕ) (m : Mount) : Request → Option (Reply × Mount)
  | .getattr ino | .setattr ino _ _ => (m.stat ino).map fun st => (.attr st, m)
  | .lookup p name =>
    match find (entries m.disk.volume p) name with
    | none => some (.err enoent, m)
    | some e => (m.stat e.id).map fun st => (.entry e.id st, m)
  | .readdir ino size off => some (.buf (slice (d.listing 0 (entries m.disk.volume ino)) off size), m)
  | .read ino size off => (readReply m ino size off).map (·, m)
  | .mknod p name now now' =>
    let out := makeNode 4096 limit m.disk p name (.file []) now now' 0
    some (madeReply enoent out.1, { m with disk := out.2 })
  | .mkdir p name now now' =>
    let out := makeNode 4096 limit m.disk p name (.directory []) now now' 0
    some (madeReply enosys out.1, { m with disk := out.2 })
  | .unlink p name now => (removeNode 4096 m.disk p name now).map fun out =>
      (.err (if out.1 = .err 0 then 0 else enosys), { m with disk := out.2 })
  | .openFile _ => some (.opened, m)
  | .write ino data off now => writeFile m ino data off now
  | .readlink _ | .rmdir .. | .symlink .. | .rename .. | .link .. | .statfs _ => none

/-- The requests the daemon and the servers can cope with. New nodes are in a
directory, and there is an inode number below `limit` for them; a file that is
written ends within 252 blocks. No other id is 0: lookups, listings and removals are
not in a file, and reads, of less than `2 ^ 32` bytes, not of a directory. Names have
no colon, slash or zero byte, times are below `2 ^ 63`, and a file that is removed is
empty. -/
def Proper (limit : ℕ) (m : Mount) : Request → Prop
  | .getattr ino | .setattr ino _ _ => ino ≠ 0
  | .lookup p name => p ≠ 0 ∧ ¬ IsFile m.disk.volume p ∧ ValidName name
  | .readdir ino _ _ => ino ≠ 0 ∧ ¬ IsFile m.disk.volume ino
  | .read ino size _ => ino ≠ 0 ∧ ¬ IsDirectory m.disk.volume ino ∧ size < 2 ^ 32
  | .mknod p name now now' | .mkdir p name now now' => IsDirectory m.disk.volume p ∧ ValidName name ∧ now < 2 ^ 63 ∧
      now' < 2 ^ 63 ∧ freeId limit m.disk.volume ≠ none
  | .unlink p name now => p ≠ 0 ∧ ¬ IsFile m.disk.volume p ∧ ValidName name ∧ now < 2 ^ 63 ∧
      ∀ e ∈ find (entries m.disk.volume p) name, m.contents e.id = []
  | .write ino data off now => IsFile m.disk.volume ino ∧ off + data.length ≤ 252 * 4096 ∧ now < 2 ^ 63
  | .openFile _ | .readlink _ | .rmdir .. | .symlink .. | .rename .. | .link .. | .statfs _ => True

instance (limit : ℕ) (m : Mount) (q : Request) : Decidable (Proper limit m q) :=
  match q with
  | .getattr _ | .setattr .. => inferInstanceAs (Decidable (_ ≠ _))
  | .lookup .. | .readdir .. | .read .. | .mknod .. | .mkdir .. | .unlink .. | .write .. =>
    inferInstanceAs (Decidable (_ ∧ _))
  | .openFile _ | .readlink _ | .rmdir .. | .symlink .. | .rename .. | .link .. | .statfs _ => .isTrue trivial

section Stat

variable {m : Mount} {id time : ℕ} {content : List UInt8} {es : List DirectoryEntry}

theorem stat_file (hv : m.disk.volume id = some ⟨.file content, time⟩) :
    m.stat id = some (Node.stat ⟨.file (m.contents id), time⟩) := by
  unfold Mount.stat
  rw [hv]
  rfl

theorem stat_directory (hv : m.disk.volume id = some ⟨.directory es, time⟩) :
    m.stat id = some (Node.stat ⟨.directory es, time⟩) := by
  unfold Mount.stat
  rw [hv]
  rfl

theorem stat_none (hv : m.disk.volume id = none) : m.stat id = none := by
  unfold Mount.stat
  rw [hv]
  rfl

theorem stat_new {body : Body} (hbody : body = .file [] ∨ body = .directory []) (hnil : m.contents id = [])
    (hv : m.disk.volume id = some ⟨body, time⟩) : m.stat id = some (Node.stat ⟨body, time⟩) := by
  obtain rfl | rfl := hbody
  · rw [stat_file hv, hnil]
  · exact stat_directory hv

end Stat

theorem written_of_writeFile {m m' : Mount} {ino off now : ℕ} {data : List UInt8} {r : Reply}
    (h : writeFile m ino data off now = some (r, m')) : r = .written data.length := by
  unfold writeFile at h
  simp only at h
  split at h
  case isTrue =>
    cases h
    rfl
  case isFalse => cases h

end Chfs.Distributed.Mounts
