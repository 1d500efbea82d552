import Chfs.Distributed.Requests
import Chfs.Distributed.Versions
import Chfs.Fs.Volumes

namespace Chfs.Distributed.Catalogs

open Lib.Effect Lib.Bytes Lib.Tree Block.Manager Fs.Operations Fs.Directory BlockMap DataServer Requests
open Fs.Volumes (Body Node Volume Disk put live entries makeNode removeNode freeId IsFile IsDirectory)

/-- The nodes, of which the files are empty on the disk of the metadata server,
the blocks of the files and the data servers that have them. -/
structure Catalog where
  disk : Disk
  maps : ℕ → List BlockInfo
  servers : ℕ → Server

/-- The RPCs of the metadata server with the times and the random numbers they
use, and those of the data servers for clients. -/
inductive Request
  | mknode (type parent : ℕ) (name : List UInt8) (now now' : ℕ)
  | unlink (parent : ℕ) (name : List UInt8) (now : ℕ)
  | lookup (parent : ℕ) (name : List UInt8)
  | readdir (node : ℕ)
  | getTypeAttr (id : ℕ)
  | getBlockMap (id : ℕ)
  | allocateBlock (id generatedId now : ℕ)
  | freeBlock (id blockId machineId now : ℕ)
  | readData (machineId blockId offset len version : ℕ)
  | writeData (machineId blockId offset : ℕ) (buffer : List UInt8)
  deriving DecidableEq, Repr

inductive Reply
  | id (id : ℕ)
  | done (success : Bool)
  | listing (es : List DirectoryEntry)
  | attr (size atime mtime ctime type : ℕ)
  | blockMap (l : List BlockInfo)
  | info (info : BlockInfo)
  | data (bytes : List UInt8)
  deriving DecidableEq, Repr

def nodeBody (type : ℕ) : Body := if type = 1 then .file [] else .directory []

/-- 0 stands for any error. -/
def madeId : Fs.Volumes.Reply → ℕ
  | .entry id _ => id
  | _ => 0

def attrReply (x : Catalog) (id : ℕ) : Reply :=
  match x.disk.volume id with
  | some ⟨.file _, time⟩ => .attr ((x.maps id).length * 4096) time time time 1
  | some ⟨.directory es, time⟩ => .attr (dirListToString es).length time time time 2
  | none => .attr 0 0 0 0 0

def chosen (ms : MetadataServer) (servers : ℕ → Server) (generatedId : ℕ) : Option (ℕ × ℕ) :=
  (List.range ms.numDataServers).findSome? fun i =>
    (findFree ((servers (ms.curId generatedId i)).blocks 0) 4095 1).map fun b => (ms.curId generatedId i, b)

def Catalog.remap (x : Catalog) (id : ℕ) (l : List BlockInfo) (now : ℕ) (servers : ℕ → Server) : Catalog :=
  ⟨⟨put x.disk.volume id (.file []) now, x.disk.free⟩, Function.update x.maps id l, servers⟩

/-- Without a free block on any of the data servers the loop does not end. -/
def addBlock (ms : MetadataServer) (x : Catalog) (id generatedId now : ℕ) : Option (Reply × Catalog) :=
  match x.disk.volume id with
  | some _ => (chosen ms x.servers generatedId).map fun (m, b) =>
      (.info ⟨b, m, (version (x.servers m) b + 1).toNat⟩,
        x.remap id (x.maps id ++ [⟨b, m, (version (x.servers m) b + 1).toNat⟩]) now
          (Function.update x.servers m (handedOut (x.servers m) b)))
  | none => some (.info ⟨0, 0, 0⟩, x)

def dropBlock (x : Catalog) (id b m now : ℕ) : Reply × Catalog :=
  match placeOf (x.maps id) b m with
  | some pos =>
    if allocated (x.servers m) b then
      (.done true, x.remap id ((x.maps id).eraseIdx pos) now (Function.update x.servers m (changed (x.servers m) b)))
    else (.done false, x)
  | none => (.done false, x)

def atServer {α : Type} (x : Catalog) (m : ℕ) (call : Bm 4096 4096 0 α) (reply : α → Reply) :
    Option (Reply × Catalog) :=
  match call (x.servers m) with
  | some (.ok a, s) => some (reply a, { x with servers := Function.update x.servers m s })
  | _ => none

/-- The reply to a request and the catalog after it. There is none where a server
aborts or does not come to an end. -/
def act (ms : MetadataServer) (limit : ℕ) (x : Catalog) : Request → Option (Reply × Catalog)
  | .mknode type p name now now' =>
    let out := makeNode 4096 limit x.disk p name (nodeBody type) now now' 0
    some (.id (madeId out.1), { x with disk := out.2 })
  | .unlink p name now =>
    (removeNode 4096 x.disk p name now).map fun out => (.done (out.1 = .err 0), { x with disk := out.2 })
  | .lookup p name => some (.id (((find (entries x.disk.volume p) name).map Entry.id).getD 0), x)
  | .readdir p => some (.listing (entries x.disk.volume p), x)
  | .getTypeAttr id => some (attrReply x id, x)
  | .getBlockMap id => some (.blockMap ((x.maps id).map trimmed), x)
  | .allocateBlock id generatedId now => addBlock ms x id generatedId now
  | .freeBlock id b m now => some (dropBlock x id b m now)
  | .readData m b offset len version => atServer x m (readData b offset len version) .data
  | .writeData m b offset buffer => atServer x m (writeData b offset buffer) .done

/-- The requests that the servers can cope with. A new node is a file or a directory,
its parent is a directory, and there is an inode number below `limit` for it. No
other id is 0: removals, lookups and listings are not in a file, block maps not of a
directory. Names have no colon, slash or zero byte, and times are below `2 ^ 63`. A
file that gets a block has less than 252, one that is removed has none, and data is
read and written at a data server that exists. -/
def Proper (ms : MetadataServer) (limit : ℕ) (x : Catalog) : Request → Prop
  | .mknode type p name now now' => (type = 1 ∨ type = 2) ∧ IsDirectory x.disk.volume p ∧ ValidName name ∧
      now < 2 ^ 63 ∧ now' < 2 ^ 63 ∧ freeId limit x.disk.volume ≠ none
  | .unlink p name now => p ≠ 0 ∧ ¬ IsFile x.disk.volume p ∧ ValidName name ∧ now < 2 ^ 63 ∧
      ∀ e ∈ find (entries x.disk.volume p) name, x.maps e.id = []
  | .lookup p name => p ≠ 0 ∧ ¬ IsFile x.disk.volume p ∧ ValidName name
  | .readdir p => p ≠ 0 ∧ ¬ IsFile x.disk.volume p
  | .getTypeAttr id => id ≠ 0
  | .getBlockMap id => id ≠ 0 ∧ ¬ IsDirectory x.disk.volume id
  | .allocateBlock id _ now => id ≠ 0 ∧ ¬ IsDirectory x.disk.volume id ∧ (x.maps id).length < 252 ∧ now < 2 ^ 63
  | .freeBlock id _ _ now => id ≠ 0 ∧ ¬ IsDirectory x.disk.volume id ∧ now < 2 ^ 63
  | .readData m _ _ _ _ | .writeData m _ _ _ => 1 ≤ m ∧ m ≤ ms.numDataServers

instance (ms : MetadataServer) (limit : ℕ) (x : Catalog) (q : Request) : Decidable (Proper ms limit x q) :=
  match q with
  | .mknode .. | .unlink .. | .lookup .. | .readdir .. | .getBlockMap .. | .allocateBlock .. | .freeBlock ..
  | .readData .. | .writeData .. => inferInstanceAs (Decidable (_ ∧ _))
  | .getTypeAttr _ => inferInstanceAs (Decidable (_ ≠ _))

/-- Files have few blocks, each on one of the data servers, and the data servers
work. -/
structure WellFormed (ms : MetadataServer) (x : Catalog) : Prop where
  tree : Fs.Volumes.WellFormed x.disk.volume
  empty : ∀ id content time, x.disk.volume id = some ⟨.file content, time⟩ → content = []
  mapped : ∀ id, x.maps id ≠ [] → IsFile x.disk.volume id
  short : ∀ id, (x.maps id).length ≤ 252
  placed : ∀ id, ∀ info ∈ x.maps id, (1 ≤ info.machineId ∧ info.machineId ≤ ms.numDataServers) ∧
    1 ≤ info.blockId ∧ info.blockId < 4096
  works : ∀ m, (x.servers m).maybeFailed = false

section Nodes

variable {sz limit p now now' : ℕ} {x : Disk} {name : List UInt8} {body : Body} {code : ℤ}

theorem put_apply {v : Volume} {id time : ℕ} (i : ℕ) :
    put v id body time i = if i = id then some ⟨body, time⟩ else v i := Function.update_apply ..

theorem makeNode_node (limit id : ℕ) : (makeNode sz limit x p name body now now' code).2.volume id = x.volume id ∨
    (x.volume id = none ∧ (makeNode sz limit x p name body now now' code).2.volume id = some ⟨body, now⟩) ∨
    (IsDirectory x.volume id ∧ IsDirectory (makeNode sz limit x p name body now now' code).2.volume id) := by
  unfold makeNode
  split
  case h_2 => exact Or.inl rfl
  case h_1 es time hp =>
    split
    case h_1 => exact Or.inl rfl
    case h_2 =>
      split
      case h_2 => exact Or.inl rfl
      case h_1 id' k hid _ =>
        have hdead := (Fs.Volumes.freeId_eq_some hid).2.1
        split
        case h_1 y hy =>
          unfold IsDirectory
          simp only [Fs.Volumes.volume_write hy, put_apply]
          split
          case isTrue hx => exact Or.inr (Or.inr ⟨⟨es, time, hx ▸ hp⟩, _, now', rfl⟩)
          case isFalse =>
            split
            case isTrue hx => exact Or.inr (Or.inl ⟨hx ▸ hdead, rfl⟩)
            case isFalse => exact Or.inl rfl
        case h_2 y hy =>
          simp only [Fs.Volumes.volume_write_error hy, put_apply]
          split
          case isTrue hx => exact Or.inr (Or.inl ⟨hx ▸ hdead, rfl⟩)
          case isFalse => exact Or.inl rfl

theorem makeNode_reply {y : Disk} {r : Fs.Volumes.Reply}
    (h : makeNode sz limit x p name body now now' code = (r, y)) :
    (∃ id, r = .entry id (Node.stat ⟨body, now⟩) ∧ 1 ≤ id ∧ x.volume id = none ∧ y.volume id = some ⟨body, now⟩) ∨
      ∃ e, r = .err e := by
  unfold makeNode at h
  split at h
  case h_2 =>
    cases h
    exact Or.inr ⟨_, rfl⟩
  case h_1 es time hp =>
    split at h
    case h_1 =>
      cases h
      exact Or.inr ⟨_, rfl⟩
    case h_2 =>
      split at h
      case h_2 =>
        cases h
        exact Or.inr ⟨_, rfl⟩
      case h_1 id k hid _ =>
        obtain ⟨hpos, hdead, -⟩ := Fs.Volumes.freeId_eq_some hid
        split at h
        case h_2 =>
          cases h
          exact Or.inr ⟨_, rfl⟩
        case h_1 hy =>
          cases h
          have hne : id ≠ p := by
            rintro rfl
            cases hdead.symm.trans hp
          refine Or.inl ⟨id, rfl, hpos, hdead, ?_⟩
          rw [Fs.Volumes.volume_write hy, put_apply, if_neg hne]
          exact Function.update_self ..

theorem removeNode_node (id : ℕ) : ∀ out ∈ removeNode sz x p name now, out.2.volume id = x.volume id ∨
    (∃ e ∈ find (entries x.volume p) name, e.id = id ∧ out.2.volume id = none) ∨
    (IsDirectory x.volume id ∧ IsDirectory out.2.volume id) := by
  unfold removeNode
  split
  case h_2 =>
    rintro _ ⟨⟩
    exact Or.inl rfl
  case h_1 es time hp =>
    split
    case h_1 =>
      rintro _ ⟨⟩
      exact Or.inl rfl
    case h_2 e he =>
      split
      case h_1 => nofun
      case h_2 node hnode =>
        split
        case isTrue => nofun
        case isFalse =>
          rintro _ ⟨⟩
          unfold IsDirectory
          simp only [put_apply, Function.update_apply]
          split
          case isTrue hx => exact Or.inr (Or.inr ⟨⟨es, time, hx ▸ hp⟩, _, now, rfl⟩)
          case isFalse =>
            split
            case isTrue hx => exact Or.inr (Or.inl ⟨e, (Fs.Volumes.entries_of hp).symm ▸ he, hx.symm, rfl⟩)
            case isFalse => exact Or.inl rfl

end Nodes

section WellFormed

variable {ms : MetadataServer} {limit id p now : ℕ} {x y : Catalog} {r : Reply} {q : Request}

theorem WellFormed.maps_nil (h : WellFormed ms x) (hid : ¬ IsFile x.disk.volume id) : x.maps id = [] := by
  by_contra hne
  exact hid (h.mapped id hne)

theorem WellFormed.withDisk (h : WellFormed ms x) {disk : Disk} (htree : Fs.Volumes.WellFormed disk.volume)
    (hempty : ∀ id content time, disk.volume id = some ⟨.file content, time⟩ → content = [])
    (hkeep : ∀ id, x.maps id ≠ [] → disk.volume id = x.disk.volume id) :
    WellFormed ms { x with disk } where
  tree := htree
  empty := hempty
  mapped id hid := by
    unfold Fs.Volumes.IsFile
    rw [hkeep id hid]
    exact h.mapped id hid
  short := h.short
  placed := h.placed
  works := h.works

theorem not_isDirectory {v : Volume} (h : IsFile v id) : ¬ IsDirectory v id := by
  rintro ⟨es, time, hdir⟩
  obtain ⟨content, time', hfile⟩ := h
  cases hfile.symm.trans hdir

theorem ne_none_of_isFile {v : Volume} (h : IsFile v id) : v id ≠ none := by
  obtain ⟨content, time, hfile⟩ := h
  rw [hfile]
  nofun

theorem WellFormed.mknode (h : WellFormed ms x) {type now' : ℕ} {name : List UInt8} (hname : ValidName name) :
    WellFormed ms { x with disk := (makeNode 4096 limit x.disk p name (nodeBody type) now now' 0).2 } := by
  have hbody : nodeBody type = .file [] ∨ nodeBody type = .directory [] := by
    unfold nodeBody
    split
    · exact Or.inl rfl
    · exact Or.inr rfl
  refine h.withDisk (Fs.Volumes.makeNode_wellFormed h.tree hname hbody) (fun id content time hv => ?_) fun id hid => ?_
  · obtain heq | ⟨-, hnew⟩ | ⟨-, es, time', hdir⟩ := makeNode_node limit id
    · exact h.empty id content time (heq.symm.trans hv)
    · have heq := hnew.symm.trans hv
      obtain hb | hb := hbody
      · rw [hb] at heq
        cases heq
        rfl
      · rw [hb] at heq
        cases heq
    · cases hdir.symm.trans hv
  · have hfile := h.mapped id hid
    obtain heq | ⟨hdead, -⟩ | ⟨hdir, -⟩ := makeNode_node limit id
    · exact heq
    · exact absurd hdead (ne_none_of_isFile hfile)
    · exact absurd hdir (not_isDirectory hfile)

theorem WellFormed.unlink (h : WellFormed ms x) {name : List UInt8}
    (hmap : ∀ e ∈ find (entries x.disk.volume p) name, x.maps e.id = []) :
    ∀ out ∈ removeNode 4096 x.disk p name now, WellFormed ms { x with disk := out.2 } := by
  intro out hout
  refine h.withDisk (Fs.Volumes.removeNode_wellFormed h.tree out hout) (fun id content time hv => ?_) fun id hid => ?_
  · obtain heq | ⟨e, -, -, hnone⟩ | ⟨-, es, time', hdir⟩ := removeNode_node id out hout
    · exact h.empty id content time (heq.symm.trans hv)
    · cases hnone.symm.trans hv
    · cases hdir.symm.trans hv
  · obtain heq | ⟨e, he, rfl, -⟩ | ⟨hdir, -⟩ := removeNode_node id out hout
    · exact heq
    · exact absurd (hmap e he) hid
    · exact absurd hdir (not_isDirectory (h.mapped id hid))

theorem WellFormed.remap (h : WellFormed ms x) (hfile : IsFile x.disk.volume id) {l : List BlockInfo}
    (hlen : l.length ≤ 252) (hplaced : ∀ info ∈ l, (1 ≤ info.machineId ∧ info.machineId ≤ ms.numDataServers) ∧
      1 ≤ info.blockId ∧ info.blockId < 4096) {servers : ℕ → Server} (hworks : ∀ m, (servers m).maybeFailed = false) :
    WellFormed ms (x.remap id l now servers) := by
  obtain ⟨content, time, hv⟩ := hfile
  have hvolume : ∀ i, i ≠ id → put x.disk.volume id (.file []) now i = x.disk.volume i :=
    fun i hi => Function.update_of_ne hi ..
  have hself : put x.disk.volume id (.file []) now id = some ⟨.file [], now⟩ := Function.update_self ..
  constructor
  case tree => exact h.tree.rewrite hv
  case empty =>
    intro i content' time' hi
    by_cases heq : i = id
    · rw [heq] at hi
      cases hself.symm.trans hi
      rfl
    · exact h.empty i content' time' ((hvolume i heq).symm.trans hi)
  case mapped =>
    intro i hi
    by_cases heq : i = id
    · rw [heq]
      exact ⟨[], now, hself⟩
    · have hne : x.maps i ≠ [] := by
        rw [← Function.update_of_ne heq l x.maps]
        exact hi
      obtain ⟨content', time', hfile⟩ := h.mapped i hne
      exact ⟨content', time', (hvolume i heq).trans hfile⟩
  case short =>
    intro i
    simp only [Catalog.remap]
    by_cases heq : i = id
    · rw [heq, Function.update_self]
      exact hlen
    · rw [Function.update_of_ne heq]
      exact h.short i
  case placed =>
    intro i info hi
    simp only [Catalog.remap] at hi
    by_cases heq : i = id
    · rw [heq, Function.update_self] at hi
      exact hplaced info hi
    · rw [Function.update_of_ne heq] at hi
      exact h.placed i info hi
  case works => exact hworks

theorem works_update {servers : ℕ → Server} (h : ∀ m, (servers m).maybeFailed = false) {s : Server}
    (hs : s.maybeFailed = false) (m i : ℕ) : (Function.update servers m s i).maybeFailed = false := by
  by_cases heq : i = m
  · rw [heq, Function.update_self, hs]
  · rw [Function.update_of_ne heq, h i]

theorem chosen_eq_some {servers : ℕ → Server} {generatedId m b : ℕ} (h : chosen ms servers generatedId = some (m, b)) :
    (1 ≤ m ∧ m ≤ ms.numDataServers) ∧ findFree ((servers m).blocks 0) 4095 1 = some b := by
  obtain ⟨i, hi, hout⟩ := List.exists_of_findSome?_eq_some h
  obtain ⟨b', hfree, heq⟩ := Option.map_eq_some_iff.mp hout
  cases heq
  have hpos : 0 < ms.numDataServers := by
    have := List.mem_range.mp hi
    omega
  exact ⟨curId_mem hpos generatedId i, hfree⟩

theorem readData_cases {s t : Server} {b offset len v : ℕ} {r : Except ErrorType (List UInt8)}
    (h : readData b offset len v s = some (r, t)) : t = s ∧ ∃ bytes, r = .ok bytes := by
  by_cases hb : b < 4096
  · rw [Versions.readData_eq hb] at h
    split at h
    case isTrue =>
      split at h
      case isTrue =>
        cases h
        exact ⟨rfl, _, rfl⟩
      case isFalse => cases h
    case isFalse =>
      cases h
      exact ⟨rfl, _, rfl⟩
  · unfold readData at h
    rw [if_pos (Nat.le_of_not_lt hb)] at h
    cases h
    exact ⟨rfl, _, rfl⟩

theorem WellFormed.atServer (h : WellFormed ms x) {α : Type} {m : ℕ} {call : Bm 4096 4096 0 α} {reply : α → Reply}
    (hcall : ∀ r t, call (x.servers m) = some (r, t) → t.maybeFailed = false)
    (ha : atServer x m call reply = some (r, y)) : WellFormed ms y := by
  unfold Catalogs.atServer at ha
  split at ha
  case h_1 a s hs =>
    cases ha
    exact ⟨h.tree, h.empty, h.mapped, h.short, h.placed, works_update h.works (hcall _ _ hs) m⟩
  case h_2 => cases ha

theorem act_wellFormed (ha : act ms limit x q = some (r, y)) (h : WellFormed ms x) (hq : Proper ms limit x q) :
    WellFormed ms y := by
  have hsome : ∀ out : Reply × Catalog, some out = some (r, y) → WellFormed ms out.2 → WellFormed ms y := by
    intro out heq hw
    cases heq
    exact hw
  cases q with
  | mknode => exact hsome _ ha (h.mknode hq.2.2.1)
  | unlink =>
    obtain ⟨out, hout, heq⟩ := Option.map_eq_some_iff.mp ha
    exact hsome _ (congrArg some heq) (h.unlink hq.2.2.2.2 out hout)
  | lookup | readdir | getTypeAttr | getBlockMap => exact hsome _ ha h
  | allocateBlock id generatedId now =>
    change addBlock ms x id generatedId now = _ at ha
    unfold addBlock at ha
    split at ha
    case h_2 => exact hsome _ ha h
    case h_1 node hv =>
      obtain ⟨⟨m, b⟩, hchosen, heq⟩ := Option.map_eq_some_iff.mp ha
      obtain ⟨hm, hfree⟩ := chosen_eq_some hchosen
      obtain ⟨hb, hlt, -⟩ := findFree_some hfree
      have hfile : IsFile x.disk.volume id := by
        obtain ⟨content | es, time⟩ := node
        · exact ⟨content, time, hv⟩
        · exact absurd ⟨es, time, hv⟩ hq.2.1
      have hlen := hq.2.2.1
      have hworks : (handedOut (x.servers m) b).maybeFailed = false := h.works m
      refine hsome _ (congrArg some heq) (h.remap hfile ?_ (fun info hi => ?_) (works_update h.works hworks m))
      · rw [List.length_append, List.length_singleton]
        omega
      · obtain hi | hi := List.mem_append.mp hi
        · exact h.placed id info hi
        · rw [List.mem_singleton.mp hi]
          exact ⟨hm, hb, by omega⟩
  | freeBlock id b m now =>
    refine hsome _ ha ?_
    unfold dropBlock
    split
    case h_2 => exact h
    case h_1 pos hplace =>
      split
      case isFalse => exact h
      case isTrue =>
        have hlen := h.short id
        have hle := List.length_eraseIdx_le (x.maps id) pos
        have hne : x.maps id ≠ [] := by
          intro hnil
          rw [hnil] at hplace
          cases hplace
        have hworks : (changed (x.servers m) b).maybeFailed = false := h.works m
        exact h.remap (h.mapped id hne) (by omega) (fun info hi => h.placed id info (List.mem_of_mem_eraseIdx hi))
          (works_update h.works hworks m)
  | readData m b offset len version =>
    refine h.atServer (fun r t ht => ?_) ha
    rw [(readData_cases ht).1]
    exact h.works m
  | writeData m b offset buffer =>
    refine h.atServer (fun r t ht => ?_) ha
    obtain ⟨-, rfl, -⟩ | ⟨-, -, -, -, -, hworks, -⟩ := writeData_cases (h.works m) ht
    · exact h.works m
    · exact hworks

end WellFormed

end Chfs.Distributed.Catalogs
