import Chfs.Distributed.MountedFiles

/-! `ChfsClient` (`distributed/client.cc`) and the FUSE handlers of
`daemons/distributed/main.cc`, on the metadata server and the data servers: the
daemon does what a file system in memory does. -/

namespace Chfs.Distributed.MountDaemon

open Lib.Effect Lib.Bytes Lib.Tree Lib.Server Block.Manager Block.Allocator Fs.Inode Fs.Operations Fs.Files
  Fs.Directory Fs.Storage DataServer Requests Listing Ownership Client Catalogs CatalogRuns Mounts MountedFiles
open Fs.Volumes (Node Body Disk Stat Direntry put entries makeNode removeNode freeId IsFile IsDirectory enoent eexist
  enotdir enosys enotempty)
open Fs.Daemon (DirectoryBuf.add replyBufLimited)

variable {logCnt : ℕ}

namespace ChfsClient

def mknode (ms : MetadataServer) (type parent : ℕ) (name : List UInt8) (now now' : ℕ) : Cl logCnt ℕ := do
  match ← serve ms (.mknode type parent name now now') with
  | .id response => if response = 0 then refuse .badResponse else pure response
  | _ => undefined

def unlink (ms : MetadataServer) (parent : ℕ) (name : List UInt8) (now : ℕ) : Cl logCnt Unit := do
  match ← serve ms (.unlink parent name now) with
  | .done response => if response then pure () else refuse .badResponse
  | _ => undefined

def lookup (ms : MetadataServer) (parent : ℕ) (name : List UInt8) : Cl logCnt ℕ := do
  match ← serve ms (.lookup parent name) with
  | .id response => pure response
  | _ => undefined

def readdir (ms : MetadataServer) (id : ℕ) : Cl logCnt (List DirectoryEntry) := do
  match ← serve ms (.readdir id) with
  | .listing response => pure response
  | _ => undefined

def getTypeAttr (ms : MetadataServer) (id : ℕ) : Cl logCnt (ℕ × FileAttr) := do
  match ← serve ms (.getTypeAttr id) with
  | .attr size atime mtime ctime type => pure (type, ⟨atime, mtime, ctime, size⟩)
  | _ => undefined

end ChfsClient

def getattrHelper (type : ℕ) (attr : FileAttr) : Cl logCnt Stat := onDevice (Fs.Daemon.getattrHelper type attr)

def replyStat (ms : MetadataServer) (ino : ℕ) (code : ℤ) (reply : Stat → Fs.Volumes.Reply) :
    Cl logCnt Fs.Volumes.Reply := do
  match ← attempt (ChfsClient.getTypeAttr ms ino) with
  | .error _ => pure (.err code)
  | .ok (type, attr) =>
    let st ← getattrHelper type attr
    pure (reply st)

def chfsGetattr (ms : MetadataServer) (ino : ℕ) : Cl logCnt Fs.Volumes.Reply := replyStat ms ino enoent .attr

def chfsReaddir (d : Direntry) (ms : MetadataServer) (ino size off : ℕ) : Cl logCnt Fs.Volumes.Reply := do
  match ← attempt (ChfsClient.readdir ms ino) with
  | .error _ => pure (.err enotdir)
  | .ok list => pure (replyBufLimited (list.foldl (DirectoryBuf.add d) []) off size)

/-- Offsets are not negative. They are cut to 32 bits, as sizes are. -/
def chfsRead (ms : MetadataServer) (ino size off : ℕ) : Cl logCnt Fs.Volumes.Reply := do
  match ← attempt (ChfsClient.getTypeAttr ms ino) with
  | .error _ => pure (.err (-1))
  | .ok (type, attr) =>
    let st ← getattrHelper type attr
    if st.size ≤ off then pure (.buf []) else
      match ← attempt (readFile ms ino (off % 2 ^ 32) (size % 2 ^ 32)) with
      | .error _ => pure (.err (-1))
      | .ok resData =>
        require (size ≤ resData.length)
        pure (.buf (resData.take size))

def replyMade (ms : MetadataServer) (made : Cl logCnt ℕ) (code : ℤ) : Cl logCnt Fs.Volumes.Reply := do
  match ← attempt made with
  | .ok ino => replyStat ms ino (-1) (.entry ino)
  | .error .alreadyExist => pure (.err eexist)
  | .error _ => pure (.err code)

def chfsMknod (ms : MetadataServer) (parent : ℕ) (name : List UInt8) (now now' : ℕ) : Cl logCnt Fs.Volumes.Reply :=
  replyMade ms (ChfsClient.mknode ms 1 parent name now now') enoent

def chfsMkdir (ms : MetadataServer) (parent : ℕ) (name : List UInt8) (now now' : ℕ) : Cl logCnt Fs.Volumes.Reply :=
  replyMade ms (ChfsClient.mknode ms 2 parent name now now') enosys

def chfsUnlink (ms : MetadataServer) (parent : ℕ) (name : List UInt8) (now : ℕ) : Cl logCnt Fs.Volumes.Reply := do
  match ← attempt (ChfsClient.unlink ms parent name now) with
  | .ok _ => pure (.err 0)
  | .error .notExist => pure (.err enoent)
  | .error .notEmpty => pure (.err enotempty)
  | .error _ => pure (.err enosys)

def chfsSetattr (ms : MetadataServer) (ino : ℕ) : Cl logCnt Fs.Volumes.Reply := replyStat ms ino (-1) .attr

def chfsWrite (ms : MetadataServer) (gen : ℕ → ℕ) (ino : ℕ) (data : List UInt8) (off now : ℕ) :
    Cl logCnt Fs.Volumes.Reply := do
  match ← attempt (Client.writeFile ms gen now ino (off % 2 ^ 32) data) with
  | .error _ => pure (.err enosys)
  | .ok _ => pure (.written data.length)

def chfsLookup (ms : MetadataServer) (parent : ℕ) (name : List UInt8) : Cl logCnt Fs.Volumes.Reply := do
  match ← attempt (ChfsClient.lookup ms parent name) with
  | .error .notExist => pure (.err enoent)
  | .error _ => pure (.err (-1))
  | .ok lookup => if lookup = 0 then pure (.err enoent) else replyStat ms lookup (-1) (.entry lookup)

/-- The handlers that are registered; `gen` are the random numbers of the metadata
server. Those without an implementation abort. -/
def handle (d : Direntry) (ms : MetadataServer) (gen : ℕ → ℕ) : Fs.Volumes.Request → Cl logCnt Fs.Volumes.Reply
  | .getattr ino => chfsGetattr ms ino
  | .lookup parent name => chfsLookup ms parent name
  | .readdir ino size off => chfsReaddir d ms ino size off
  | .read ino size off => chfsRead ms ino size off
  | .mknod parent name now now' => chfsMknod ms parent name now now'
  | .mkdir parent name now now' => chfsMkdir ms parent name now now'
  | .unlink parent name now => chfsUnlink ms parent name now
  | .setattr ino _ _ => chfsSetattr ms ino
  | .openFile _ => pure .opened
  | .write ino data off now => chfsWrite ms gen ino data off now
  | .readlink _ | .rmdir .. | .symlink .. | .rename .. | .link .. | .statfs _ => undefined

/-- The servers stand for a catalog, and the catalog for a mounted file system. -/
structure Serves (ms : MetadataServer) (c : Cluster logCnt) (x : Catalog) (m : Mount) : Prop where
  wellFormed : WellFormed ms x
  keeps : ∃ others raw files, Keeps others raw c files x
  mirrors : Mirrors ms c x m

def Mounted (ms : MetadataServer) (c : Cluster logCnt) (m : Mount) : Prop := ∃ x, Serves ms c x m

/-- The daemon does with a request what is said about it. -/
def Handles (d : Direntry) (ms : MetadataServer) (gen : ℕ → ℕ) (c : Cluster logCnt) (q : Fs.Volumes.Request) :
    Option (Fs.Volumes.Reply × Mount) → Prop
  | none => handle d ms gen q c = none
  | some (reply, m) => ∃ c', handle d ms gen q c = some (.ok reply, c') ∧ Mounted ms c' m

section Calls

variable {ms : MetadataServer} {c c' : Cluster logCnt} {x y : Catalog} {m : Mount} {q : Catalogs.Request}
  {reply : Catalogs.Reply} {id p now now' : ℕ} {name : List UInt8}

theorem mirrors_withDisk (h : Mirrors ms c x m) (hservers : c'.servers = c.servers) (disk : Disk) :
    Mirrors ms c' { x with disk } { m with disk } := by
  have hcontent : ∀ l, content c' l = content c l := fun l => by
    unfold content
    rw [hservers]
  exact ⟨rfl, fun id => (h.contents id).trans (hcontent _).symm, hservers ▸ h.room, hservers ▸ h.owns,
    hservers ▸ h.small⟩

theorem Serves.call (h : Serves ms c x m) (hq : Catalogs.Proper ms (idLimit operation) x q)
    {disk : Disk} (ha : Catalogs.act ms (idLimit operation) x q = some (reply, { x with disk })) :
    ∃ c', serve ms q c = some (.ok reply, c') ∧ Serves ms c' { x with disk } { m with disk } := by
  obtain ⟨others, raw, files, hk⟩ := h.keeps
  have hans := serve_answers hk h.wellFormed hq
  rw [ha] at hans
  obtain ⟨c', others', raw', files', hrun, hk'⟩ := hans
  have hservers : c'.servers = c.servers := hk'.servers.trans hk.servers.symm
  exact ⟨c', hrun, act_wellFormed ha h.wellFormed hq, ⟨others', raw', files', hk'⟩,
    mirrors_withDisk h.mirrors hservers disk⟩

theorem Serves.ask (h : Serves ms c x m) (hq : Catalogs.Proper ms (idLimit operation) x q)
    (ha : Catalogs.act ms (idLimit operation) x q = some (reply, x)) :
    ∃ c', serve ms q c = some (.ok reply, c') ∧ Serves ms c' x m := by
  obtain ⟨c', hrun, h'⟩ := h.call hq ha
  have hm : { m with disk := x.disk } = m := by
    rw [← h.mirrors.disk]
  exact ⟨c', hrun, hm ▸ h'⟩

theorem getattrHelper_stat (node : Node) (htime : node.time < 2 ^ 63) (hlen : node.body.text.length < 2 ^ 63) :
    (getattrHelper node.body.type ⟨node.time, node.time, node.time, node.body.text.length⟩ : Cl logCnt Stat) =
      pure node.stat := by
  unfold getattrHelper
  rw [Fs.Daemon.getattrHelper_node htime hlen]
  rfl

theorem Serves.typeAttr (h : Serves ms c x m) (hid : id ≠ 0) : match m.stat id with
    | some st => ∃ type attr c', ChfsClient.getTypeAttr ms id c = some (.ok (type, attr), c') ∧
        (getattrHelper type attr : Cl logCnt Stat) = pure st ∧ Serves ms c' x m
    | none => ∃ c', ChfsClient.getTypeAttr ms id c = some (.ok (0, ⟨0, 0, 0, 0⟩), c') := by
  obtain ⟨others, raw, files, hk⟩ := h.keeps
  have hw := h.wellFormed
  obtain ⟨c', hrun, h'⟩ := h.ask (q := .getTypeAttr id) hid rfl
  unfold ChfsClient.getTypeAttr
  rw [bind_ok hrun]
  unfold attrReply
  cases hv : x.disk.volume id with
  | none =>
    rw [stat_none (h.mirrors.disk ▸ hv)]
    exact ⟨c', rfl⟩
  | some node =>
    obtain ⟨content | es, time⟩ := node
    · rw [stat_file (h.mirrors.disk ▸ hv)]
      obtain ⟨f, hf, hd⟩ := hk.stores.exists_file hv
      have hshort := hw.short id
      have hlen := h.mirrors.length_contents id
      have hlt : (Body.file (m.contents id)).text.length < 2 ^ 63 := by
        change (m.contents id).length < 2 ^ 63
        omega
      have hstat : (getattrHelper 1 ⟨time, time, time, (m.contents id).length⟩ : Cl logCnt Stat) =
          pure (Node.stat ⟨.file (m.contents id), time⟩) :=
        getattrHelper_stat ⟨.file (m.contents id), time⟩ hd.time hlt
      refine ⟨1, ⟨time, time, time, (x.maps id).length * 4096⟩, c', rfl, ?_, h'⟩
      rw [← hlen]
      exact hstat
    · rw [stat_directory (h.mirrors.disk ▸ hv)]
      obtain ⟨f, hf, hd⟩ := hk.stores.exists_file hv
      have hlen := hk.stores.length_lt layout (hk.not_mem hv) hv
      exact ⟨2, _, c', rfl, getattrHelper_stat ⟨.directory es, time⟩ hd.time hlen, h'⟩

theorem Serves.statReplied (h : Serves ms c x m) (hid : id ≠ 0) (code : ℤ) (reply : Stat → Fs.Volumes.Reply) :
    match m.stat id with
    | some st => ∃ c', replyStat ms id code reply c = some (.ok (reply st), c') ∧ Serves ms c' x m
    | none => replyStat ms id code reply c = none := by
  have hattr := h.typeAttr hid
  unfold MountDaemon.replyStat
  cases hst : m.stat id with
  | none =>
    rw [hst] at hattr
    obtain ⟨c', hrun⟩ := hattr
    rw [bind_ok (attempt_apply hrun)]
    rfl
  | some st =>
    rw [hst] at hattr
    obtain ⟨type, attr, c', hrun, hhelper, h'⟩ := hattr
    refine ⟨c', ?_, h'⟩
    rw [bind_ok (attempt_apply hrun)]
    simp only
    rw [hhelper]
    rfl

end Calls

section Handlers

variable {d : Direntry} {ms : MetadataServer} {gen : ℕ → ℕ} {c : Cluster logCnt} {x : Catalog} {m : Mount}
  {q : Fs.Volumes.Request} {ino p now now' : ℕ} {name : List UInt8}

theorem Serves.handles_stat {c₁ : Cluster logCnt} (h : Serves ms c₁ x m) (hino : ino ≠ 0) {code : ℤ}
    {reply : Stat → Fs.Volumes.Reply} (hq : handle d ms gen q c = replyStat ms ino code reply c₁) :
    Handles d ms gen c q ((m.stat ino).map fun st => (reply st, m)) := by
  have hstat := h.statReplied hino code reply
  cases hst : m.stat ino with
  | none =>
    rw [hst] at hstat
    exact hq.trans hstat
  | some st =>
    rw [hst] at hstat
    obtain ⟨c', hrun, h'⟩ := hstat
    exact ⟨c', hq.trans hrun, x, h'⟩

theorem lookup_handles (h : Serves ms c x m) (hp : p ≠ 0) (hdir : ¬ IsFile m.disk.volume p) (hname : ValidName name) :
    Handles d ms gen c (.lookup p name) (match find (entries m.disk.volume p) name with
      | none => some (.err enoent, m)
      | some e => (m.stat e.id).map fun st => (.entry e.id st, m)) := by
  rw [h.mirrors.disk] at hdir ⊢
  obtain ⟨c₁, hrun, h₁⟩ := h.ask (q := .lookup p name) ⟨hp, hdir, hname⟩ rfl
  have hclient : ChfsClient.lookup ms p name c =
      some (.ok (((find (entries x.disk.volume p) name).map Entry.id).getD 0), c₁) := bind_ok hrun
  have hhandle : handle d ms gen (.lookup p name) c =
      (if ((find (entries x.disk.volume p) name).map Entry.id).getD 0 = 0 then pure (.err enoent) else
        replyStat ms (((find (entries x.disk.volume p) name).map Entry.id).getD 0) (-1)
          (.entry (((find (entries x.disk.volume p) name).map Entry.id).getD 0)) :
            Cl logCnt Fs.Volumes.Reply) c₁ := bind_ok (attempt_apply hclient)
  cases he : find (entries x.disk.volume p) name with
  | none =>
    rw [he] at hhandle
    exact ⟨c₁, hhandle, x, h₁⟩
  | some e =>
    rw [he] at hhandle
    obtain ⟨others, raw, files, hk⟩ := h.keeps
    obtain ⟨node, hnode⟩ := Option.ne_none_iff_exists'.mp (h.wellFormed.tree.linked.target p e (find_eq_some he).1)
    have hid : e.id ≠ 0 := by
      have := hk.stores.id_pos hnode
      omega
    simp only [Option.map_some, Option.getD_some, if_neg hid] at hhandle
    exact h₁.handles_stat hid hhandle

theorem readdir_handles (h : Serves ms c x m) (hino : ino ≠ 0) (hdir : ¬ IsFile m.disk.volume ino) (size off : ℕ) :
    Handles d ms gen c (.readdir ino size off)
      (some (.buf (slice (d.listing 0 (entries m.disk.volume ino)) off size), m)) := by
  rw [h.mirrors.disk] at hdir ⊢
  obtain ⟨c₁, hrun, h₁⟩ := h.ask (q := .readdir ino) ⟨hino, hdir⟩ rfl
  have hclient : ChfsClient.readdir ms ino c = some (.ok (entries x.disk.volume ino), c₁) := bind_ok hrun
  have hbuf : replyBufLimited ((entries x.disk.volume ino).foldl (DirectoryBuf.add d) []) off size =
      .buf (slice (d.listing 0 (entries x.disk.volume ino)) off size) := by
    rw [Fs.Daemon.replyBufLimited_eq, Fs.Daemon.foldl_add d [] (h.wellFormed.tree.named ino), List.nil_append,
      List.length_nil]
  refine ⟨c₁, ?_, x, h₁⟩
  rw [← hbuf]
  exact bind_ok (attempt_apply hclient)

theorem Serves.chfsRead (h : Serves ms c x m) (hino : ino ≠ 0) (hfile : IsFile m.disk.volume ino) {size : ℕ}
    (hsize : size < 2 ^ 32) (off : ℕ) : ∃ c', MountDaemon.chfsRead ms ino size off c =
      some (.ok (if (m.contents ino).length ≤ off then .buf []
        else if off + size ≤ (m.contents ino).length then .buf (slice (m.contents ino) off size)
        else .err (-1)), c') ∧ Serves ms c' x m := by
  have hattr := h.typeAttr hino
  obtain ⟨content, time, hv⟩ := id hfile
  rw [stat_file hv] at hattr
  obtain ⟨type, attr, c₁, hrun, hhelper, h₁⟩ := hattr
  obtain ⟨others, raw, files, hk⟩ := h₁.keeps
  have hlen := h₁.mirrors.length_contents ino
  have hshort := h₁.wellFormed.short ino
  refine ⟨c₁, ?_, h₁⟩
  unfold MountDaemon.chfsRead
  rw [bind_ok (attempt_apply hrun)]
  simp only
  rw [hhelper, bind_ok (pure_apply _)]
  have hsz : (Node.stat ⟨.file (m.contents ino), time⟩).size = (m.contents ino).length := rfl
  rw [hsz]
  by_cases hend : (m.contents ino).length ≤ off
  · rw [if_pos hend, if_pos (by exact_mod_cast hend)]
    rfl
  · have hoff : off % 2 ^ 32 = off := Nat.mod_eq_of_lt (by omega)
    have hread := readFile_mirrors hk h₁.wellFormed h₁.mirrors (h₁.mirrors.disk ▸ hfile) off size
    rw [if_neg hend, if_neg (by exact_mod_cast hend), hoff, Nat.mod_eq_of_lt hsize]
    by_cases hin : off + size ≤ (m.contents ino).length
    · have hslice : (slice (m.contents ino) off size).length = size := by
        rw [length_slice]
        omega
      rw [if_pos (Or.inl hin)] at hread
      rw [if_pos hin, bind_ok (attempt_apply hread)]
      simp only
      rw [hslice, require_of (le_refl size), bind_ok (pure_apply _), List.take_of_length_le (Nat.le_of_eq hslice)]
      rfl
    · rw [if_neg (by omega)] at hread
      rw [if_neg hin, bind_ok (attempt_apply hread)]
      rfl

theorem read_handles (h : Serves ms c x m) (hino : ino ≠ 0) (hdir : ¬ IsDirectory m.disk.volume ino) {size : ℕ}
    (hsize : size < 2 ^ 32) (off : ℕ) :
    Handles d ms gen c (.read ino size off) ((readReply m ino size off).map (·, m)) := by
  unfold readReply
  by_cases hfile : IsFile m.disk.volume ino
  · obtain ⟨c', hrun, h'⟩ := h.chfsRead hino hfile hsize off
    rw [if_pos hfile]
    exact ⟨c', hrun, x, h'⟩
  · rw [if_neg hfile]
    change MountDaemon.chfsRead ms ino size off c = none
    have hattr := h.typeAttr hino
    cases hv : m.disk.volume ino with
    | some node =>
      obtain ⟨content, time, hv⟩ := isFile_of_not hdir hv
      exact absurd ⟨content, time, hv⟩ hfile
    | none =>
      rw [stat_none hv] at hattr
      obtain ⟨c₁, hrun⟩ := hattr
      unfold MountDaemon.chfsRead
      rw [bind_ok (attempt_apply hrun)]
      rfl

theorem made_handles (h : Serves ms c x m) {type : ℕ} (htype : type = 1 ∨ type = 2) (hdir : IsDirectory m.disk.volume p)
    (hname : ValidName name) (hnow : now < 2 ^ 63) (hnow' : now' < 2 ^ 63)
    (hfree : freeId (idLimit operation) m.disk.volume ≠ none) {code : ℤ}
    (hq : handle d ms gen q c = replyMade ms (ChfsClient.mknode ms type p name now now') code c) :
    Handles d ms gen c q
      (some (madeReply code (makeNode 4096 (idLimit operation) m.disk p name (nodeBody type) now now' 0).1,
        { m with disk := (makeNode 4096 (idLimit operation) m.disk p name (nodeBody type) now now' 0).2 })) := by
  have hbody : nodeBody type = .file [] ∨ nodeBody type = .directory [] := by
    unfold nodeBody
    split
    · exact Or.inl rfl
    · exact Or.inr rfl
  rw [h.mirrors.disk] at hdir hfree ⊢
  obtain ⟨c₁, hrun, h₁⟩ := h.call (q := .mknode type p name now now') ⟨htype, hdir, hname, hnow, hnow', hfree⟩ rfl
  cases hmade : makeNode 4096 (idLimit operation) x.disk p name (nodeBody type) now now' 0 with
  | mk made disk =>
    rw [hmade] at hrun h₁
    obtain ⟨id, rfl, hpos, hdead, hnode⟩ | ⟨e, rfl⟩ := makeNode_reply hmade
    · have hid : id ≠ 0 := Nat.ne_of_gt hpos
      have hclient : ChfsClient.mknode ms type p name now now' c = some (.ok id, c₁) := by
        unfold ChfsClient.mknode
        rw [bind_ok hrun]
        exact (congrFun (if_neg hid) c₁).trans (pure_apply _)
      have hnil : m.contents id = [] := by
        have hempty := h.mirrors.length_contents id
        rw [h.wellFormed.maps_nil fun hf => ne_none_of_isFile hf hdead] at hempty
        exact List.eq_nil_of_length_eq_zero hempty
      have hprog : handle d ms gen q c = replyStat ms id (-1) (.entry id) c₁ := by
        rw [hq]
        unfold replyMade
        rw [bind_ok (attempt_apply hclient)]
      have hstat : Mount.stat { m with disk } id = some (Node.stat ⟨nodeBody type, now⟩) := stat_new hbody hnil hnode
      have hend := h₁.handles_stat hid hprog
      rw [hstat] at hend
      exact hend
    · have hclient : ChfsClient.mknode ms type p name now now' c = some (.error .badResponse, c₁) := by
        unfold ChfsClient.mknode
        rw [bind_ok hrun]
        rfl
      refine ⟨c₁, ?_, _, h₁⟩
      rw [hq]
      unfold replyMade
      rw [bind_ok (attempt_apply hclient)]
      rfl

theorem unlink_handles (h : Serves ms c x m) (hp : p ≠ 0) (hdir : ¬ IsFile m.disk.volume p) (hname : ValidName name)
    (hnow : now < 2 ^ 63) (hempty : ∀ e ∈ find (entries m.disk.volume p) name, m.contents e.id = []) :
    Handles d ms gen c (.unlink p name now) ((removeNode 4096 m.disk p name now).map fun out =>
      (.err (if out.1 = .err 0 then 0 else enosys), { m with disk := out.2 })) := by
  rw [h.mirrors.disk] at hdir hempty ⊢
  have hmap : ∀ e ∈ find (entries x.disk.volume p) name, x.maps e.id = [] := by
    intro e he
    have hlen := h.mirrors.length_contents e.id
    rw [hempty e he, List.length_nil] at hlen
    exact List.eq_nil_of_length_eq_zero (by omega)
  have hq : Catalogs.Proper ms (idLimit operation) x (.unlink p name now) := ⟨hp, hdir, hname, hnow, hmap⟩
  cases hout : removeNode 4096 x.disk p name now with
  | none =>
    obtain ⟨others, raw, files, hk⟩ := h.keeps
    have hans := serve_answers hk h.wellFormed hq
    have hact : Catalogs.act ms (idLimit operation) x (.unlink p name now) = none :=
      congrArg (Option.map _) hout
    rw [hact] at hans
    have hclient : ChfsClient.unlink ms p name now c = none := bind_none hans
    change chfsUnlink ms p name now c = none
    unfold chfsUnlink
    rw [bind_none (attempt_none hclient)]
  | some out =>
    obtain ⟨reply, disk⟩ := out
    have hact : Catalogs.act ms (idLimit operation) x (.unlink p name now) =
        some (.done (reply = .err 0), { x with disk }) :=
      congrArg (Option.map _) hout
    obtain ⟨c₁, hrun, h₁⟩ := h.call hq hact
    refine ⟨c₁, ?_, _, h₁⟩
    change chfsUnlink ms p name now c = _
    by_cases hdone : reply = .err 0
    · have hclient : ChfsClient.unlink ms p name now c = some (.ok (), c₁) := by
        unfold ChfsClient.unlink
        rw [bind_ok hrun, decide_eq_true hdone]
        rfl
      unfold chfsUnlink
      rw [bind_ok (attempt_apply hclient), if_pos hdone]
      rfl
    · have hclient : ChfsClient.unlink ms p name now c = some (.error .badResponse, c₁) := by
        unfold ChfsClient.unlink
        rw [bind_ok hrun, decide_eq_false hdone]
        rfl
      unfold chfsUnlink
      rw [bind_ok (attempt_apply hclient), if_neg hdone]
      rfl

theorem write_handles (h : Serves ms c x m) (hfile : IsFile m.disk.volume ino) {off : ℕ} {data : List UInt8}
    (hfit : off + data.length ≤ 252 * 4096) (hnow : now < 2 ^ 63) :
    Handles d ms gen c (.write ino data off now) (Mounts.writeFile m ino data off now) := by
  obtain ⟨others, raw, files, hk⟩ := h.keeps
  have hwrite := writeFile_mirrors hk h.wellFormed h.mirrors (h.mirrors.disk ▸ hfile) hfit hnow gen
  have hoff : off % 2 ^ 32 = off := Nat.mod_eq_of_lt (by omega)
  cases hout : Mounts.writeFile m ino data off now with
  | none =>
    rw [hout] at hwrite
    change chfsWrite ms gen ino data off now c = none
    unfold chfsWrite
    rw [hoff, bind_none (attempt_none hwrite)]
  | some out =>
    obtain ⟨reply, m'⟩ := out
    rw [hout] at hwrite
    obtain ⟨c₁, others₁, raw₁, files₁, y, hrun, hk₁, hw₁, hm₁, -⟩ := hwrite
    refine ⟨c₁, ?_, y, hw₁, ⟨others₁, raw₁, files₁, hk₁⟩, hm₁⟩
    change chfsWrite ms gen ino data off now c = _
    unfold chfsWrite
    rw [hoff, bind_ok (attempt_apply hrun), written_of_writeFile hout]
    rfl

theorem handle_handles (h : Serves ms c x m) (hq : Mounts.Proper (idLimit operation) m q) :
    Handles d ms gen c q (Mounts.act d (idLimit operation) m q) := by
  cases q with
  | getattr ino | setattr ino => exact h.handles_stat hq rfl
  | lookup p name => exact lookup_handles h hq.1 hq.2.1 hq.2.2
  | readdir ino size off => exact readdir_handles h hq.1 hq.2 size off
  | read ino size off => exact read_handles h hq.1 hq.2.1 hq.2.2 off
  | mknod p name now now' =>
    obtain ⟨hdir, hname, hnow, hnow', hfree⟩ := hq
    exact made_handles h (Or.inl rfl) hdir hname hnow hnow' hfree rfl
  | mkdir p name now now' =>
    obtain ⟨hdir, hname, hnow, hnow', hfree⟩ := hq
    exact made_handles h (Or.inr rfl) hdir hname hnow hnow' hfree rfl
  | unlink p name now =>
    obtain ⟨hp, hdir, hname, hnow, hempty⟩ := hq
    exact unlink_handles h hp hdir hname hnow hempty
  | openFile ino => exact ⟨c, rfl, x, h⟩
  | write ino data off now => exact write_handles h hq.1 hq.2.1 hq.2.2
  | readlink | rmdir | symlink | rename | link | statfs => exact rfl

end Handlers

def respond (d : Direntry) (ms : MetadataServer) (c : Cluster logCnt) (q : Fs.Volumes.Request × (ℕ → ℕ)) :
    Option (Fs.Volumes.Reply × Cluster logCnt) :=
  match handle d ms q.2 q.1 c with
  | some (.ok reply, c') => some (reply, c')
  | _ => none

def newMount (ms : MetadataServer) (now : ℕ) : Mount :=
  ⟨Fs.Serving.newDisk 4096 4096 4096 now, fun _ => [], ms.numDataServers * 4095⟩

section Runs

variable {d : Direntry} {ms : MetadataServer} {c : Cluster logCnt} {m : Mount} {now : ℕ}
  {qs : List (Fs.Volumes.Request × (ℕ → ℕ))}

theorem Mounted.respond (h : Mounted ms c m) {q : Fs.Volumes.Request × (ℕ → ℕ)}
    (hq : Mounts.Proper (idLimit operation) m q.1) :
    Alike (Mounted ms) (respond d ms c q) (Mounts.act d (idLimit operation) m q.1) := by
  obtain ⟨x, h⟩ := h
  have hhandles : Handles d ms q.2 c q.1 (Mounts.act d (idLimit operation) m q.1) := handle_handles h hq
  unfold MountDaemon.respond
  cases ha : Mounts.act d (idLimit operation) m q.1 with
  | none =>
    rw [ha] at hhandles
    have hrun : handle d ms q.2 q.1 c = none := hhandles
    rw [hrun]
    exact .none
  | some out =>
    rw [ha] at hhandles
    obtain ⟨c', hrun, h'⟩ := hhandles
    rw [hrun]
    exact .some ⟨rfl, h'⟩

theorem initFs_mounted (hs : c.device.maybeFailed = false) (hworks : ∀ i, (c.servers i).maybeFailed = false)
    (hunused : Unused ms c) (hver : ∀ i b, (1 ≤ i ∧ i ≤ ms.numDataServers) → (1 ≤ b ∧ b < 4096) →
      (version (c.servers i) b).toNat < 31) (hnow : now < 2 ^ 63) :
    ∃ c₁, onDevice (initFs now) c = some (.ok operation, c₁) ∧ Mounted ms c₁ (newMount ms now) := by
  obtain ⟨c₁, hrun, hw, others, raw, files, hk⟩ := initFs_shows ms hs hworks hnow
  have hservers : c₁.servers = c.servers := hk.servers
  have hunused₁ : Unused ms c₁ := fun p hp => hunused p (hservers ▸ hp)
  refine ⟨c₁, hrun, newCatalog now c.servers, hw, ⟨others, raw, files, hk⟩, ?_⟩
  constructor
  case disk => rfl
  case contents => exact fun _ => rfl
  case room => exact card_of_unused hunused₁
  case owns => exact owns_of_unused hunused₁
  case small =>
    intro i b hi hb
    rw [hservers]
    have hlt := hver i b hi hb
    split <;> omega

end Runs

end Chfs.Distributed.MountDaemon
