import Chfs.Distributed.Client
import Chfs.Distributed.Names
import Chfs.MapReduce.Words

/-! Two workers that execute the same task (`map_reduce/mr_worker.cc`), one
request at a time. The requests of a worker that reads its input files change
nothing: what it has read is part of its task. -/

namespace Chfs.MapReduce.Reexecution

open Lib.Effect Lib.Bytes Lib.Run Lib.Tree Block.Manager Fs.Inode Fs.Operations Fs.Files Fs.Writing Fs.Directory
  Distributed.BlockMap Distributed.DataServer Distributed.Requests Distributed.Listing Distributed.Ownership
  Distributed.Client Words

variable {logCnt : ℕ}

inductive Task
  | map (content : Text)
  | reduce (contents : List Text)

/-- The entries that `doMap` and `doReduce` pass to `writeFile`. What `std::sort`
does is a parameter. -/
def Task.entries (sort : List KeyVal → List KeyVal) : Task → Option (List KeyVal)
  | .map content => some (mapContent content)
  | .reduce contents =>
    let kvs := sort (contents.flatMap parse)
    reduceRuns kvs.length kvs

def contVec (content : Text) : List UInt8 := content.map fun c => UInt8.ofNat c.toNat

def ofVec (bytes : List UInt8) : Text := bytes.map fun b => Char.ofNat b.toNat

/-- How far a worker is: the request it makes next, with what it knows. -/
inductive Phase
  | mknode
  | lookup
  | getBlockMap (id : ℕ)
  | allocating (id : ℕ) (blockMap : List BlockInfo)
  | writing (blockMap : List BlockInfo) (data : List UInt8)
  | finished
  deriving DecidableEq

/-- The loop of `write_file` over the rest of the block map ends where there are
no blocks or no data. Whether all was written does not matter to the worker. -/
def Phase.write (blockMap : List BlockInfo) (data : List UInt8) : Phase :=
  if blockMap = [] ∨ data = [] then .finished else .writing blockMap data

def Phase.fit (id : ℕ) (data : List UInt8) (blockMap : List BlockInfo) : Phase :=
  if blockMap.length * 4096 < data.length then .allocating id blockMap else .write blockMap data

/-- The next request of a worker that writes `data` to the file `name`, and what
it does with the answer. The random number and the times are those of the
metadata server. -/
def advance (ms : MetadataServer) (name data : List UInt8) (generatedId now now' : ℕ) :
    Phase → Cl logCnt Phase
  | .mknode => do
    let _ ← onDevice (Distributed.Names.mknode operation 1 1 name now now')
    pure .lookup
  | .lookup => do
    let id ← onDevice (Distributed.Names.lookup operation 1 name)
    pure (.getBlockMap id)
  | .getBlockMap id => do
    let blockMap ← ms.getBlockMap id
    pure (.fit id data blockMap)
  | .allocating id blockMap => do
    let info ← ms.allocateBlock id generatedId now
    pure (.fit id data (blockMap ++ [info]))
  | .writing [] _ => undefined
  | .writing (info :: rest) left => do
    let writeLen := min 4096 (left.length % 2 ^ 32)
    require (1 ≤ info.machineId ∧ info.machineId ≤ ms.numDataServers)
    if ← call info.machineId (writeData info.blockId 0 (left.take writeLen)) then
      pure (.write rest (left.drop writeLen))
    else pure .finished
  | .finished => undefined

structure System (logCnt : ℕ) where
  cluster : Cluster logCnt
  workers : Fin 2 → Phase

def System.new (c : Cluster logCnt) : System logCnt := ⟨c, fun _ => .mknode⟩

inductive Step (ms : MetadataServer) (name data : List UInt8) : System logCnt → Fin 2 → System logCnt → Prop
  | request {s : System logCnt} {w : Fin 2} {g now now' : ℕ} {p : Phase} {c : Cluster logCnt} :
      advance ms name data g now now' (s.workers w) s.cluster = some (.ok p, c) →
      Step ms name data s w ⟨c, Function.update s.workers w p⟩

def Phase.Fitting : Phase → Prop
  | .allocating _ _ => True
  | _ => False

/-- `get_block_map` is not called while the other worker asks for blocks. -/
def Apart (s : System logCnt) (w : Fin 2) : Prop :=
  ∀ id, s.workers w = .getBlockMap id → ∀ w', ¬ (s.workers w').Fitting

def ApartStep (ms : MetadataServer) (name data : List UInt8) (s : System logCnt) (w : Fin 2)
    (t : System logCnt) : Prop :=
  Apart s w ∧ Step ms name data s w t

def getTypeAttr (id : ℕ) : Cl logCnt FileAttr := do
  match ← onDevice (attempt (operation.inodeManager.getAttr id)) with
  | .error _ => pure ⟨0, 0, 0, 0⟩
  | .ok attr => pure attr

def getContentFromFile (ms : MetadataServer) (filename : List UInt8) : Cl logCnt Text := do
  let inodeId ← onDevice (Distributed.Names.lookup operation 1 filename)
  let attr ← getTypeAttr inodeId
  let contentVec ← readFile ms inodeId 0 (attr.size % 2 ^ 32)
  pure (ofVec contentVec)

def readKeyVals (ms : MetadataServer) (filename : List UInt8) : Cl logCnt (List KeyVal) := do
  let content ← getContentFromFile ms filename
  pure (parse content)

section Bytes

theorem ofVec_contVec {content : Text} (h : ∀ c ∈ content, c.toNat < 256) : ofVec (contVec content) = content := by
  unfold ofVec contVec
  rw [List.map_map]
  refine (List.map_congr_left fun c hc => ?_).trans (List.map_id _)
  change Char.ofNat (UInt8.ofNat c.toNat).toNat = c
  rw [UInt8.toNat_ofNat', Nat.mod_eq_of_lt (h c hc), Char.ofNat_toNat]

theorem ofVec_zeros (k : ℕ) : ofVec (List.replicate k 0) = List.replicate k '\x00' := List.map_replicate

theorem ofVec_append (x y : List UInt8) : ofVec (x ++ y) = ofVec x ++ ofVec y := List.map_append

theorem lt_of_isAlpha {c : Char} (h : c.isAlpha = true) : c.toNat < 256 := by
  have := code_of_isAlpha h
  omega

theorem lt_of_isDigit {c : Char} (h : c.isDigit = true) : c.toNat < 256 := by
  simp only [Char.isDigit, Bool.and_eq_true, decide_eq_true_eq, UInt32.le_iff_toNat_le] at h
  have h9 : '9'.val.toNat = 57 := rfl
  change c.val.toNat < 256
  omega

theorem lt_of_mem_render {kvs : List KeyVal} (h : ∀ kv ∈ kvs, kv.Readable) {c : Char} (hc : c ∈ render kvs) :
    c.toNat < 256 := by
  obtain ⟨kv, hkv, hc⟩ := List.mem_flatMap.mp hc
  simp only [List.mem_append, List.mem_cons, List.not_mem_nil, or_false] at hc
  obtain (hc | rfl | hc) | rfl := hc
  · exact lt_of_isAlpha ((h kv hkv).key_alpha c hc)
  · decide
  · exact lt_of_isDigit ((h kv hkv).val_digit c hc)
  · decide

theorem ofVec_render {kvs : List KeyVal} (h : ∀ kv ∈ kvs, kv.Readable) : ofVec (contVec (render kvs)) = render kvs :=
  ofVec_contVec fun _ hc => lt_of_mem_render h hc

theorem parse_ofVec {kvs : List KeyVal} (h : ∀ kv ∈ kvs, kv.Readable) (k : ℕ) :
    parse (ofVec (contVec (render kvs) ++ List.replicate k 0)) = kvs := by
  rw [ofVec_append, ofVec_render h, ofVec_zeros, parse_render h]

theorem Task.entries_readable {sort : List KeyVal → List KeyVal} (hsort : ∀ kvs, (sort kvs).Perm kvs)
    {task : Task} {kvs : List KeyVal} (h : task.entries sort = some kvs) : ∀ kv ∈ kvs, kv.Readable := by
  cases task with
  | map content =>
    cases h
    exact fun kv hkv => (mapContent_good hkv).readable
  | reduce contents =>
    refine reduceRuns_readable (fun kv hkv => ?_) h
    obtain ⟨content, -, hkv⟩ := List.mem_flatMap.mp ((hsort _).mem_iff.mp hkv)
    exact parse_readable hkv

end Bytes

structure Root (d : BlockManager 4096 4096 logCnt) (ids : Set ℕ) (bid : ℕ → ℕ) (f : File)
    (entries : List DirectoryEntry) : Prop where
  holds : Holds 4096 d.blocks f
  entry : operation.inodeManager.entry d 1 = f.inode
  data : ∀ b ∈ f.owned, dataStart operation ≤ b ∧ b < 4096
  apart : ∀ id ∈ ids, dataStart operation ≤ bid id ∧ bid id ∉ f.owned
  text : parseDirectory f.content = some entries

section Root

variable {d : BlockManager 4096 4096 logCnt} {ids : Set ℕ} {bid : ℕ → ℕ} {f : File}
  {entries : List DirectoryEntry} {name : List UInt8} {id : ℕ}

theorem one_lt_max : 1 < operation.inodeManager.maxInodeSupported - 1 := by decide

theorem Root.readFile (h : Root d ids bid f entries) : operation.readFile 1 d = some (.ok f.content, d) := by
  have hpos := dataStart_pos layout
  obtain ⟨h1, h2⟩ := h.data f.inode List.mem_cons_self
  have hinode : operation.inodeManager.readInode 1 d = some (.ok (f.inode, d.blocks f.inode), d) := by
    rw [readInode_apply layout.inodes (Nat.le_refl 1), h.entry, if_neg, if_pos (by omega)]
    have hmax := one_lt_max
    unfold invalidBlockId
    omega
  have hread := readContent_spec layout.size h.holds (fun b hb => (h.data b hb).2) f.blocks.length 0
    (Nat.zero_add _) none (by simp)
  unfold FileOperation.readFile
  rw [bind_ok hinode]
  simp only
  rw [h.holds.size, ← h.holds.count, hread, Nat.zero_mul, List.drop_zero]

theorem Root.write (h : Root d ids bid f entries) (hid : id ∈ ids) {inode : List UInt8}
    (hlen : inode.length = 4096) : Root (d.setBlock (bid id) inode hlen) ids bid f entries where
  holds := by
    refine h.holds.congr fun b hb => ?_
    rw [setBlock_blocks, Function.update_of_ne]
    rintro rfl
    exact (h.apart id hid).2 hb
  entry := by
    rw [← h.entry]
    refine (layout.entry_congr ⟨Nat.le_refl 1, by decide⟩ fun b _ hb => ?_).1
    have hge := (h.apart id hid).1
    unfold dataStart at hge
    rw [setBlock_blocks, Function.update_of_ne (by omega)]
  data := h.data
  apart := h.apart
  text := h.text

theorem Root.readdir (h : Root d ids bid f entries) :
    Distributed.Names.readdir operation 1 d = some (.ok entries, d) := by
  unfold Distributed.Names.readdir
  rw [bind_ok (attempt_apply h.readFile)]
  simp only
  rw [parsed, h.text]
  rfl

theorem Root.mknode (h : Root d ids bid f entries) (hname : find entries name = some ⟨name, id⟩) (now now' : ℕ) :
    Distributed.Names.mknode operation 1 1 name now now' d = some (.ok 0, d) := by
  have hany : entries.any (·.name = name) = true :=
    List.any_eq_true.mpr ⟨_, (find_eq_some hname).1, by simp⟩
  unfold Distributed.Names.mknode
  rw [bind_ok h.readdir, if_pos hany, pure_apply]

theorem Root.lookup (h : Root d ids bid f entries) (hvalid : ValidName name)
    (hname : find entries name = some ⟨name, id⟩) :
    Distributed.Names.lookup operation 1 name d = some (.ok id, d) := by
  have hlook : Fs.Directory.lookup operation 1 name d = some (.ok id, d) := by
    unfold Fs.Directory.lookup readDirectory
    rw [bind_ok (bind_ok h.readFile |>.trans (by rw [parsed, h.text]; rfl)), hname]
    rfl
  unfold Distributed.Names.lookup
  rw [Distributed.Names.cStr_eq hvalid, bind_ok (attempt_apply hlook)]
  rfl

end Root

section Chunks

variable {sz : ℕ} {data : List UInt8}

theorem chunk_ge {i : ℕ} (h : data.length ≤ i * sz) : chunk sz data i = List.replicate sz 0 := by
  have hnil : slice data (i * sz) sz = [] := by
    rw [slice, List.drop_of_length_le h, List.take_nil]
  rw [chunk, hnil, List.nil_append, List.length_nil, Nat.sub_zero]

theorem flatMap_chunk (sz : ℕ) (data : List UInt8) (k : ℕ) : (List.range k).flatMap (chunk sz data) =
    data.take (k * sz) ++ List.replicate (k * sz - data.length) 0 := by
  induction k with
  | zero => simp
  | succ k ih =>
    rw [List.range_succ, List.flatMap_append, ih, List.flatMap_singleton]
    obtain hle | hgt := Nat.le_total data.length (k * sz)
    · rw [chunk_ge hle, List.take_of_length_le hle, List.take_of_length_le (by rw [Nat.succ_mul]; omega),
        List.append_assoc,
        List.replicate_append_replicate]
      congr 2
      rw [Nat.succ_mul]
      omega
    · have hsplit : data.take ((k + 1) * sz) = data.take (k * sz) ++ slice data (k * sz) sz := by
        rw [Nat.succ_mul, slice, List.take_add]
      rw [Nat.sub_eq_zero_of_le hgt, List.replicate_zero, List.append_nil, chunk, hsplit, List.append_assoc]
      congr 3
      rw [slice, List.length_take, List.length_drop, Nat.succ_mul]
      omega

theorem splice_chunk (data : List UInt8) (i : ℕ) {block : List UInt8}
    (h : block = List.replicate sz 0 ∨ block = chunk sz data i) :
    splice block 0 (slice data (i * sz) sz) = chunk sz data i := by
  have hle : (slice data (i * sz) sz).length ≤ sz := by
    rw [slice, List.length_take]
    exact Nat.min_le_left _ _
  have hdrop : block.drop (slice data (i * sz) sz).length =
      List.replicate (sz - (slice data (i * sz) sz).length) 0 := by
    obtain rfl | rfl := h
    · rw [List.drop_replicate]
    · rw [chunk, List.drop_left]
  rw [splice, Nat.zero_add, hdrop, List.take_zero, List.nil_append, chunk]

end Chunks

structure Made (ms : MetadataServer) (ids : Set ℕ) (bid : ℕ → ℕ) (ls : ℕ → List BlockInfo) (name : List UInt8)
    (id : ℕ) (c : Cluster logCnt) : Prop where
  lists : Lists c ids bid ls
  owns : Owns ms c.servers ids ls
  mem : id ∈ ids
  valid : ValidName name
  root : ∃ f entries, Root c.device ids bid f entries ∧ find entries name = some ⟨name, id⟩

def block (c : Cluster logCnt) (info : BlockInfo) : List UInt8 := (c.servers info.machineId).blocks info.blockId

section Made

variable {ms : MetadataServer} {ids : Set ℕ} {bid : ℕ → ℕ} {ls : ℕ → List BlockInfo} {name : List UInt8}
  {id : ℕ} {c c' : Cluster logCnt} {info : BlockInfo}

theorem Made.used (h : Made ms ids bid ls name id c) (hinfo : info ∈ ls id) : InUse ms c.servers (pair info) :=
  h.owns.balanced.listed id h.mem _ (List.mem_map_of_mem hinfo)

theorem Made.mknode (h : Made ms ids bid ls name id c) (now now' : ℕ) :
    onDevice (Distributed.Names.mknode operation 1 1 name now now') c = some (.ok 0, c) := by
  obtain ⟨f, entries, hroot, hfind⟩ := h.root
  exact onPart_apply (hroot.mknode hfind now now')

theorem Made.lookup (h : Made ms ids bid ls name id c) :
    onDevice (Distributed.Names.lookup operation 1 name) c = some (.ok id, c) := by
  obtain ⟨f, entries, hroot, hfind⟩ := h.root
  exact onPart_apply (hroot.lookup h.valid hfind)

theorem Made.getBlockMap (h : Made ms ids bid ls name id c) :
    ms.getBlockMap id c = some (.ok ((ls id).map trimmed), c) :=
  getBlockMap_eq h.lists.located h.mem (h.lists.maps id h.mem)

theorem Made.allocateBlock (h : Made ms ids bid ls name id c) {g now : ℕ} {r : Except ErrorType BlockInfo}
    (hrun : ms.allocateBlock id g now c = some (r, c')) : ∃ info, r = .ok info ∧
      Made ms ids bid (Function.update ls id (ls id ++ [info])) name id c' ∧ Bumped c c' ∧
      block c' info = List.replicate 4096 0 ∧ ∀ x ∈ ls id, block c' x = block c x := by
  obtain ⟨m, b, h1, h2, h3, h4, h5, -, rfl, -, inode, hlen, hm, rfl⟩ :=
    allocateBlock_cases h.lists.works h.lists.located h.mem (h.lists.maps id h.mem) hrun
  have hserved : Lists (granted c m b) ids bid ls := h.lists.serve (h.lists.works m)
  refine ⟨_, rfl, ⟨hserved.write h.mem hlen hm, h.owns.grant h.mem ⟨h1, h2⟩ ⟨h3, h4⟩ h5, h.mem, h.valid, ?_⟩,
    bumped_granted h3 h4 h5, ?_, fun x hx => ?_⟩
  · obtain ⟨f, entries, hroot, hfind⟩ := h.root
    exact ⟨f, entries, hroot.write h.mem hlen, hfind⟩
  · exact (blocks_granted m b m b h3).trans (if_pos rfl)
  · obtain ⟨-, hb, ha⟩ := inUse_pair.mp (h.used hx)
    refine (blocks_granted m b _ _ hb.1).trans (if_neg ?_)
    rintro heq
    cases heq
    rw [h5] at ha
    cases ha

theorem Made.writeData (h : Made ms ids bid ls name id c) (hinfo : pair info ∈ (ls id).map pair)
    (buffer : List UInt8) (hle : buffer.length ≤ 4096) :
    (1 ≤ info.machineId ∧ info.machineId ≤ ms.numDataServers) ∧
    ∃ c', call info.machineId (writeData info.blockId 0 buffer) c = some (.ok true, c') ∧
      Made ms ids bid ls name id c' ∧ Bumped c c' ∧
      ∀ x, block c' x = if pair x = pair info then splice (block c info) 0 buffer else block c x := by
  have hused : InUse ms c.servers (pair info) := h.owns.balanced.listed id h.mem _ hinfo
  obtain ⟨s, hwrite, hs, hversion, hblocks⟩ := call_writeData h.lists.works hused (by omega : 0 + buffer.length ≤ 4096)
  refine ⟨hused.1, _, hwrite, ⟨h.lists.serve hs, ?_, h.mem, h.valid, h.root⟩, fun m b => Or.inl (hversion m b),
    fun x => hblocks x.machineId x.blockId⟩
  exact h.owns.congr fun m b _ => hversion m b

theorem small_of_bumped (h : VersionsSmall ms c) (hb : Bumped c c') : VersionsSmall ms c' := by
  intro m b h1 h2 h3 h4
  have hlt := h m b h1 h2 h3 h4
  obtain hsame | ⟨hfree, hnext⟩ := hb m b
  · rwa [hsame]
  · have heven : ¬ (version (c.servers m) b).toNat % 2 = 1 := by
      rw [← Distributed.Versions.allocated_iff, hfree]
      decide
    have hval : (version (c.servers m) b + 1).toNat = ((version (c.servers m) b).toNat + 1) % 256 :=
      UInt8.toNat_add _ _
    rw [hnext, hval]
    omega

end Made

def blockNum (data : List UInt8) : ℕ := calculateBlockSz data.length 4096

def Whole (data : List UInt8) (c : Cluster logCnt) (l : List BlockInfo) (i : ℕ) : Prop :=
  ∀ info, l[i]? = some info → block c info = chunk 4096 data i

def PhaseOk (id : ℕ) (data : List UInt8) (c : Cluster logCnt) (l : List BlockInfo) : Phase → Prop
  | .mknode | .lookup => True
  | .getBlockMap id' => id' = id
  | .allocating id' blockMap => id' = id ∧ blockMap.map pair = l.map pair ∧ l.length < blockNum data
  | .writing rest left => l.length = blockNum data ∧ ∃ j < l.length, rest.map pair = (l.map pair).drop j ∧
      left = data.drop (j * 4096) ∧ ∀ i < j, Whole data c l i
  | .finished => l.length = blockNum data ∧ ∀ i, Whole data c l i

/-- The file grows to the blocks it needs while one worker asks for them, and a
block is empty until it has its part of the data. -/
structure Inv (ms : MetadataServer) (ids : Set ℕ) (bid : ℕ → ℕ) (ls : ℕ → List BlockInfo)
    (name data : List UInt8) (id : ℕ) (s : System logCnt) : Prop where
  made : Made ms ids bid ls name id s.cluster
  small : VersionsSmall ms s.cluster
  blocks : ∀ i info, (ls id)[i]? = some info →
    block s.cluster info = List.replicate 4096 0 ∨ block s.cluster info = chunk 4096 data i
  phases : ∀ w, PhaseOk id data s.cluster (ls id) (s.workers w)
  one : ∀ w w', (s.workers w).Fitting → (s.workers w').Fitting → w = w'
  settled : (∀ w, ¬ (s.workers w).Fitting) → ls id = [] ∨ (ls id).length = blockNum data

section Steps

variable {ms : MetadataServer} {ids : Set ℕ} {bid : ℕ → ℕ} {ls : ℕ → List BlockInfo} {name data : List UInt8}
  {id : ℕ} {c : Cluster logCnt} {s t : System logCnt} {w : Fin 2} {p : Phase}

theorem lt_blockNum {k : ℕ} : k < blockNum data ↔ k * 4096 < data.length :=
  (calculateBlockSz_spec (by decide : 0 < 4096)).2 k

theorem Inv.goOn {ls' : ℕ → List BlockInfo} (h : Inv ms ids bid ls name data id s)
    (hmade : Made ms ids bid ls' name id c) (hbumped : Bumped s.cluster c)
    (hblocks : ∀ i info, (ls' id)[i]? = some info →
      block c info = List.replicate 4096 0 ∨ block c info = chunk 4096 data i)
    (hothers : ∀ w' ≠ w, PhaseOk id data c (ls' id) (s.workers w')) (hp : PhaseOk id data c (ls' id) p)
    (hone : p.Fitting → ∀ w' ≠ w, ¬ (s.workers w').Fitting)
    (hsettled : ¬ p.Fitting → (∀ w' ≠ w, ¬ (s.workers w').Fitting) →
      ls' id = [] ∨ (ls' id).length = blockNum data) :
    Inv ms ids bid ls' name data id ⟨c, Function.update s.workers w p⟩ where
  made := hmade
  small := small_of_bumped h.small hbumped
  blocks := hblocks
  phases := by
    intro w'
    by_cases heq : w' = w
    · simpa only [heq, Function.update_self] using hp
    · simpa only [Function.update_of_ne heq] using hothers w' heq
  one := by
    intro w₁ w₂ h₁ h₂
    by_cases heq₁ : w₁ = w
    · by_contra hne
      simp only [heq₁, Function.update_self] at h₁
      have hne₂ : w₂ ≠ w := fun heq => hne (heq₁.trans heq.symm)
      simp only [Function.update_of_ne hne₂] at h₂
      exact hone h₁ w₂ hne₂ h₂
    · by_cases heq₂ : w₂ = w
      · simp only [heq₂, Function.update_self] at h₂
        simp only [Function.update_of_ne heq₁] at h₁
        exact absurd h₁ (hone h₂ w₁ heq₁)
      · simp only [Function.update_of_ne heq₁] at h₁
        simp only [Function.update_of_ne heq₂] at h₂
        exact h.one w₁ w₂ h₁ h₂
  settled := by
    intro hno
    refine hsettled ?_ fun w' hne => ?_
    · simpa only [Function.update_self] using hno w
    · simpa only [Function.update_of_ne hne] using hno w'

theorem Inv.settled_of_ne (h : Inv ms ids bid ls name data id s) (hw : ¬ (s.workers w).Fitting)
    (hno : ∀ w' ≠ w, ¬ (s.workers w').Fitting) : ls id = [] ∨ (ls id).length = blockNum data := by
  refine h.settled fun w' => ?_
  by_cases heq : w' = w
  · exact heq ▸ hw
  · exact hno w' heq

theorem Inv.move (h : Inv ms ids bid ls name data id s) (hp : PhaseOk id data s.cluster (ls id) p)
    (hone : p.Fitting → ∀ w' ≠ w, ¬ (s.workers w').Fitting) (hw : ¬ (s.workers w).Fitting) :
    Inv ms ids bid ls name data id ⟨s.cluster, Function.update s.workers w p⟩ :=
  h.goOn h.made (fun _ _ => Or.inl rfl) h.blocks (fun w' _ => h.phases w') hp hone fun _ => h.settled_of_ne hw

theorem phaseOk_write (id : ℕ) (c : Cluster logCnt) {rest l : List BlockInfo} {left : List UInt8} {j : ℕ}
    (hl : l.length = blockNum data) (hj : j ≤ l.length) (hrest : rest.map pair = (l.map pair).drop j)
    (hleft : left = data.drop (j * 4096)) (hwhole : ∀ i < j, Whole data c l i) :
    PhaseOk id data c l (.write rest left) ∧ ¬ (Phase.write rest left).Fitting := by
  have hlen := congrArg List.length hrest
  rw [List.length_map, List.length_drop, List.length_map] at hlen
  unfold Phase.write
  split
  case isTrue hend =>
    -- no block is left
    have hall : l.length ≤ j := by
      obtain rfl | hnil := hend
      · rw [List.length_nil] at hlen
        omega
      · rw [hleft, List.drop_eq_nil_iff] at hnil
        by_contra hlt
        have := lt_blockNum.mp (hl ▸ Nat.lt_of_not_le hlt)
        omega
    refine ⟨⟨hl, fun i info hinfo => ?_⟩, fun h => h⟩
    have hi := (List.getElem?_eq_some_iff.mp hinfo).1
    exact hwhole i (by omega) info hinfo
  case isFalse hend =>
    have hne : rest ≠ [] := fun hnil => hend (Or.inl hnil)
    have hpos := List.length_pos_iff.mpr hne
    exact ⟨⟨hl, j, by omega, hrest, hleft, hwhole⟩, fun h => h⟩

theorem phaseOk_fit (id : ℕ) (c : Cluster logCnt) {blockMap l : List BlockInfo}
    (hpairs : blockMap.map pair = l.map pair)
    (hlen : blockNum data ≤ l.length → l.length = blockNum data) :
    PhaseOk id data c l (.fit id data blockMap) ∧
      (¬ (Phase.fit id data blockMap).Fitting → l.length = blockNum data) := by
  have hnum : blockMap.length = l.length := by simpa using congrArg List.length hpairs
  unfold Phase.fit
  rw [hnum]
  split
  case isTrue hlt => exact ⟨⟨rfl, hpairs, lt_blockNum.mpr hlt⟩, fun hno => absurd trivial hno⟩
  case isFalse hge =>
    have hl := hlen (Nat.le_of_not_lt fun hlt => hge (lt_blockNum.mp hlt))
    refine ⟨(phaseOk_write id c hl (Nat.zero_le _) hpairs (by rw [Nat.zero_mul, List.drop_zero]) ?_).1, fun _ => hl⟩
    exact fun i hi => absurd hi (Nat.not_lt_zero i)

/-- With both workers apart, the file has no block or all of them when its block
map is fetched. -/
theorem Inv.fetch (h : Inv ms ids bid ls name data id s) (hapart : ∀ w, ¬ (s.workers w).Fitting) :
    Inv ms ids bid ls name data id
      ⟨s.cluster, Function.update s.workers w (.fit id data ((ls id).map trimmed))⟩ := by
  refine h.move (phaseOk_fit id s.cluster (map_pair_trimmed _) fun hle => ?_).1 (fun _ w' _ => hapart w') (hapart w)
  obtain hnil | hlen := h.settled hapart
  · rw [hnil] at hle ⊢
    exact Nat.le_antisymm (Nat.zero_le _) hle
  · exact hlen

theorem Inv.allocate (h : Inv ms ids bid ls name data id s) {blockMap : List BlockInfo} {info : BlockInfo}
    {id' g now : ℕ} (hw : s.workers w = .allocating id' blockMap)
    (hrun : ms.allocateBlock id' g now s.cluster = some (.ok info, c)) :
    ∃ ls', Inv ms ids bid ls' name data id
      ⟨c, Function.update s.workers w (.fit id' data (blockMap ++ [info]))⟩ := by
  have hphase := h.phases w
  rw [hw] at hphase
  obtain ⟨rfl, hpairs, hlt⟩ := hphase
  obtain ⟨info', hr, hmade, hbumped, hzero, hold⟩ := h.made.allocateBlock hrun
  cases hr
  have hself : Function.update ls id' (ls id' ++ [info]) id' = ls id' ++ [info] := Function.update_self _ _ _
  have hothers : ∀ w' ≠ w, ¬ (s.workers w').Fitting := by
    intro w' hne hfit
    exact hne (h.one w' w hfit (by rw [hw]; trivial))
  have hpairs' : (blockMap ++ [info]).map pair = (ls id' ++ [info]).map pair := by
    rw [List.map_append, List.map_append, hpairs]
  have hnum : blockNum data ≤ (ls id' ++ [info]).length → (ls id' ++ [info]).length = blockNum data := by
    rw [List.length_append, List.length_singleton]
    omega
  obtain ⟨hp, hfull⟩ := phaseOk_fit id' c hpairs' hnum
  refine ⟨_, h.goOn hmade hbumped ?_ ?_ ?_ (fun _ => hothers) ?_⟩
  · rw [hself]
    intro i x hx
    obtain hi | hi := Nat.lt_or_ge i (ls id').length
    · rw [List.getElem?_append_left hi] at hx
      rw [hold x (List.mem_of_getElem? hx)]
      exact h.blocks i x hx
    · rw [List.getElem?_append_right hi] at hx
      rw [List.mem_singleton.mp (List.mem_of_getElem? hx)]
      exact Or.inl hzero
  · -- the other worker has not fetched the block map
    intro w' hne
    have hother := h.phases w'
    have hnot := hothers w' hne
    cases hphase : s.workers w' with
    | mknode => trivial
    | lookup => trivial
    | getBlockMap id'' =>
      rw [hphase] at hother
      exact hother
    | allocating id'' blockMap' =>
      rw [hphase] at hnot
      exact absurd trivial hnot
    | writing rest left =>
      rw [hphase] at hother
      exact absurd hother.1 (Nat.ne_of_lt hlt)
    | finished =>
      rw [hphase] at hother
      exact absurd hother.1 (Nat.ne_of_lt hlt)
  · rw [hself]
    exact hp
  · rw [hself]
    exact fun hno _ => Or.inr (hfull hno)

theorem PhaseOk.mono {c' : Cluster logCnt} {l : List BlockInfo} (h : PhaseOk id data c l p)
    (hc : ∀ i, Whole data c l i → Whole data c' l i) : PhaseOk id data c' l p := by
  cases p with
  | mknode => trivial
  | lookup => trivial
  | getBlockMap id' => exact h
  | allocating id' blockMap => exact h
  | writing rest left =>
    obtain ⟨hl, j, hj, hrest, hleft, hwhole⟩ := h
    exact ⟨hl, j, hj, hrest, hleft, fun i hi => hc i (hwhole i hi)⟩
  | finished => exact ⟨h.1, fun i => hc i (h.2 i)⟩

theorem Inv.write (h : Inv ms ids bid ls name data id s) {info : BlockInfo} {rest : List BlockInfo}
    {left : List UInt8} {g now now' : ℕ} (hw : s.workers w = .writing (info :: rest) left)
    (hrun : advance ms name data g now now' (.writing (info :: rest) left) s.cluster = some (.ok p, c)) :
    Inv ms ids bid ls name data id ⟨c, Function.update s.workers w p⟩ := by
  have hphase := h.phases w
  rw [hw] at hphase
  obtain ⟨hl, j, hj, hrest, rfl, hwhole⟩ := hphase
  -- the block is block `j` of the file
  have hx : (ls id)[j]? = some (ls id)[j] := List.getElem?_eq_getElem hj
  generalize (ls id)[j] = x at hx
  obtain ⟨hpair, hrest'⟩ : pair info = pair x ∧ rest.map pair = ((ls id).map pair).drop (j + 1) := by
    have hj' : j < ((ls id).map pair).length := by rwa [List.length_map]
    rw [List.drop_eq_getElem_cons hj', List.map_cons, List.cons.injEq] at hrest
    refine ⟨hrest.1.trans ?_, hrest.2⟩
    rw [List.getElem_map]
    exact congrArg pair (List.getElem?_eq_some_iff.mp hx).2
  have hmem : pair info ∈ (ls id).map pair := hpair ▸ List.mem_map_of_mem (List.mem_of_getElem? hx)
  have hsmall : (data.drop (j * 4096)).length < 2 ^ 32 := by
    have hle := (h.made.lists.maps id h.made.mem).le
    have hdata := (calculateBlockSz_spec (n := data.length) (by decide : 0 < 4096)).1
    have hnum : calculateBlockSz data.length 4096 = (ls id).length := hl.symm
    rw [List.length_drop]
    omega
  have hslice : (data.drop (j * 4096)).take 4096 = slice data (j * 4096) 4096 := rfl
  rw [advance] at hrun
  simp only [Nat.mod_eq_of_lt hsmall, take_min_length, drop_min_length] at hrun
  rw [hslice, List.drop_drop, ← Nat.succ_mul] at hrun
  obtain ⟨hm, c', hwrite, hmade, hbumped, hblock⟩ := h.made.writeData hmem (slice data (j * 4096) 4096)
    (by rw [slice, List.length_take]; exact Nat.min_le_left _ _)
  rw [require_of hm, bind_ok (pure_apply ()), bind_ok hwrite, if_pos rfl, pure_apply] at hrun
  cases hrun
  have hsame : block s.cluster info = block s.cluster x := by
    unfold block
    have h1 := (Prod.mk.inj hpair).1
    have h2 := (Prod.mk.inj hpair).2
    rw [h1, h2]
  rw [hsame, splice_chunk data j (h.blocks j x hx)] at hblock
  have hwritten : ∀ i y, (ls id)[i]? = some y →
      block c y = if i = j then chunk 4096 data j else block s.cluster y := by
    intro i y hy
    have hnodup : ((ls id).map pair).Nodup := h.made.owns.balanced.nodup id h.made.mem
    rw [hblock y]
    refine if_congr ⟨fun heq => ?_, ?_⟩ rfl rfl
    · refine (List.getElem?_inj ?_ hnodup).mp ?_
      · rw [List.length_map]
        exact (List.getElem?_eq_some_iff.mp hy).1
      · rw [List.getElem?_map, List.getElem?_map, hy, hx, Option.map_some, Option.map_some, heq, hpair]
    · rintro rfl
      rw [Option.some.inj (hy.symm.trans hx), hpair]
  have hkeep : ∀ i, Whole data s.cluster (ls id) i → Whole data c (ls id) i := by
    intro i hi y hy
    rw [hwritten i y hy]
    split
    case isTrue heq => rw [heq]
    case isFalse => exact hi y hy
  obtain ⟨hp, hno⟩ := phaseOk_write id c hl hj hrest' rfl fun i hi y hy => by
    obtain hlt | rfl := Nat.lt_succ_iff_lt_or_eq.mp hi
    · exact hkeep i (hwhole i hlt) y hy
    · rw [hwritten i y hy, if_pos rfl]
  refine h.goOn hmade hbumped (fun i y hy => ?_) (fun w' _ => (h.phases w').mono hkeep) hp
    (fun hfit => absurd hfit hno) fun _ _ => Or.inr hl
  rw [hwritten i y hy]
  split
  case isTrue heq => exact Or.inr (by rw [heq])
  case isFalse => exact h.blocks i y hy

theorem Inv.step (h : Inv ms ids bid ls name data id s) (hs : ApartStep ms name data s w t) :
    ∃ ls', Inv ms ids bid ls' name data id t := by
  obtain ⟨hapart, hs⟩ := hs
  cases hs with
  | @request g now now' p c hrun =>
    have hphase := h.phases w
    cases hw : s.workers w with
    | mknode =>
      rw [hw, advance, bind_ok (h.made.mknode now now')] at hrun
      cases hrun
      exact ⟨ls, h.move trivial (fun hfit => hfit.elim) (by rw [hw]; exact fun hfit => hfit)⟩
    | lookup =>
      rw [hw, advance, bind_ok h.made.lookup] at hrun
      cases hrun
      exact ⟨ls, h.move rfl (fun hfit => hfit.elim) (by rw [hw]; exact fun hfit => hfit)⟩
    | getBlockMap id' =>
      rw [hw] at hphase
      obtain rfl : id' = id := hphase
      rw [hw, advance, bind_ok h.made.getBlockMap] at hrun
      cases hrun
      exact ⟨ls, h.fetch (hapart id' hw)⟩
    | allocating id' blockMap =>
      rw [hw, advance] at hrun
      obtain ⟨info, c', halloc, hrun⟩ := bind_eq_ok hrun
      cases hrun
      exact h.allocate hw halloc
    | writing blockMap left =>
      rw [hw] at hrun
      cases blockMap with
      | nil => cases hrun
      | cons info rest => exact ⟨ls, h.write hw hrun⟩
    | finished =>
      rw [hw] at hrun
      cases hrun

end Steps

def Ready (ms : MetadataServer) (name : List UInt8) (c₀ : Cluster logCnt) : Prop :=
  ∀ now now' r c, onDevice (Distributed.Names.mknode operation 1 1 name now now') c₀ = some (r, c) →
    ∃ ids bid ls id, Made ms ids bid ls name id c ∧ ls id = []

section Run

variable {ms : MetadataServer} {ids : Set ℕ} {bid : ℕ → ℕ} {ls : ℕ → List BlockInfo} {name data : List UInt8}
  {id : ℕ} {c₀ : Cluster logCnt} {s : System logCnt} {w : Fin 2} {ws : List (Fin 2)}

theorem inv_of_first (h₀ : Ready ms name c₀) (hver : VersionsSmall ms c₀)
    (hs : Step ms name data (System.new c₀) w s) : ∃ ids bid ls id, Inv ms ids bid ls name data id s := by
  cases hs with
  | @request g now now' p c hrun =>
    change advance ms name data g now now' .mknode c₀ = _ at hrun
    rw [advance] at hrun
    obtain ⟨r, c', hmk, hrun⟩ := bind_eq_ok hrun
    cases hrun
    obtain ⟨ids, bid, ls, id, hmade, hnil⟩ := h₀ _ _ _ _ hmk
    have hphase : ∀ w', Function.update (System.new c₀).workers w Phase.lookup w' = .lookup ∨
        Function.update (System.new c₀).workers w Phase.lookup w' = .mknode := by
      intro w'
      by_cases heq : w' = w
      · rw [heq, Function.update_self]
        exact Or.inl rfl
      · rw [Function.update_of_ne heq]
        exact Or.inr rfl
    have hno : ∀ w', ¬ (Function.update (System.new c₀).workers w Phase.lookup w').Fitting := by
      intro w'
      obtain heq | heq := hphase w'
      · rw [heq]
        exact fun hfit => hfit
      · rw [heq]
        exact fun hfit => hfit
    refine ⟨ids, bid, ls, id, hmade, ?_, ?_, fun w' => ?_, fun w₁ _ h₁ => absurd h₁ (hno w₁), fun _ => Or.inl hnil⟩
    · obtain ⟨d, -, rfl⟩ := onPart_eq_some.mp hmk
      exact hver
    · rw [hnil]
      intro i info hinfo
      cases hinfo
    · change PhaseOk id data c (ls id) (Function.update (System.new c₀).workers w Phase.lookup w')
      obtain heq | heq := hphase w'
      · rw [heq]
        trivial
      · rw [heq]
        trivial

theorem inv_of_path (h₀ : Ready ms name c₀) (hver : VersionsSmall ms c₀)
    (h : Path (ApartStep ms name data) (System.new c₀) ws s) :
    s = System.new c₀ ∨ ∃ ids bid ls id, Inv ms ids bid ls name data id s := by
  refine h.invariant (I := fun _ s => s = System.new c₀ ∨ ∃ ids bid ls id, Inv ms ids bid ls name data id s)
    (Or.inl rfl) fun _ s w t hI hs => Or.inr ?_
  obtain rfl | ⟨ids, bid, ls, id, hinv⟩ := hI
  · exact inv_of_first h₀ hver hs.2
  · obtain ⟨ls', hinv'⟩ := hinv.step hs
    exact ⟨ids, bid, ls', id, hinv'⟩

theorem content_of_whole {c : Cluster logCnt} {l : List BlockInfo} (hl : l.length = blockNum data)
    (h : ∀ i, Whole data c l i) : content c l = data ++ List.replicate (l.length * 4096 - data.length) 0 := by
  have hmap : l.map (block c) = (List.range l.length).map (chunk 4096 data) := by
    apply List.ext_getElem?
    intro i
    rw [List.getElem?_map, List.getElem?_map]
    obtain hi | hi := Nat.lt_or_ge i l.length
    · rw [List.getElem?_range hi, List.getElem?_eq_getElem hi, Option.map_some, Option.map_some,
        h i _ (List.getElem?_eq_getElem hi)]
    · rw [List.getElem?_eq_none hi, List.getElem?_eq_none (by rwa [List.length_range])]
      rfl
  have hle : data.length ≤ l.length * 4096 := by
    rw [hl]
    exact (calculateBlockSz_spec (by decide)).1
  have hall : data.take (l.length * 4096) = data := List.take_of_length_le hle
  rw [← hall, List.length_take, Nat.min_eq_right hle]
  exact (congrArg List.flatten hmap).trans (flatMap_chunk 4096 data l.length)

theorem getTypeAttr_eq {c : Cluster logCnt} (hl : Lists c ids bid ls) (hid : id ∈ ids) :
    ∃ attr, getTypeAttr id c = some (.ok attr, c) ∧ attr.size % 2 ^ 32 = (ls id).length * 4096 := by
  have hmaps := hl.maps id hid
  have hread : operation.inodeManager.getAttr id c.device =
      some (.ok (innerAttr (c.device.blocks (bid id))), c.device) := by
    unfold InodeManager.getAttr
    rw [bind_ok (hl.located.readInode hid)]
    rfl
  have hon : onDevice (attempt (operation.inodeManager.getAttr id)) c = some (.ok (.ok _), c) :=
    onPart_apply (attempt_apply hread)
  refine ⟨innerAttr (c.device.blocks (bid id)), ?_, ?_⟩
  · unfold getTypeAttr
    rw [bind_ok hon]
    rfl
  · have hle := hmaps.le
    change getSize _ % 2 ^ 32 = _
    rw [hmaps.size, Nat.mod_eq_of_lt (by omega)]

theorem getContentFromFile_eq {c : Cluster logCnt} {attr : FileAttr} {bytes : List UInt8}
    (hlook : onDevice (Distributed.Names.lookup operation 1 name) c = some (.ok id, c))
    (hattr : getTypeAttr id c = some (.ok attr, c))
    (hread : readFile ms id 0 (attr.size % 2 ^ 32) c = some (.ok bytes, c)) :
    getContentFromFile ms name c = some (.ok (ofVec bytes), c) := by
  unfold getContentFromFile
  rw [bind_ok hlook, bind_ok hattr, bind_ok hread]
  rfl

/-- When a worker has finished, the file is read as the data and zeros. -/
theorem Inv.getContentFromFile (h : Inv ms ids bid ls name data id s) (hw : s.workers w = .finished) :
    ∃ k, getContentFromFile ms name s.cluster = some (.ok (ofVec (data ++ List.replicate k 0)), s.cluster) := by
  have hphase := h.phases w
  rw [hw] at hphase
  obtain ⟨attr, hattr, hsize⟩ := getTypeAttr_eq h.made.lists h.made.mem
  have hcontent := content_of_whole hphase.1 hphase.2
  obtain ⟨-, hread⟩ := readFile_eq_content h.made.lists h.made.owns h.small h.made.mem 0 ((ls id).length * 4096)
  have hslice : slice (content s.cluster (ls id)) 0 ((ls id).length * 4096) = content s.cluster (ls id) := by
    rw [slice, List.drop_zero, List.take_of_length_le (by rw [length_content])]
  rw [if_pos (Or.inl (by omega)), hslice, hcontent] at hread
  exact ⟨(ls id).length * 4096 - data.length, getContentFromFile_eq h.made.lookup hattr (hsize.symm ▸ hread)⟩

def Alone (ms : MetadataServer) (name data : List UInt8) (c₀ : Cluster logCnt) (s : System logCnt) : Prop :=
  ∃ ws, Path (Step ms name data) (System.new c₀) ws s ∧ (∀ w ∈ ws, w = 0) ∧ s.workers 0 = .finished

theorem apart_of_alone (h : Path (Step ms name data) (System.new c₀) ws s) (hws : ∀ w ∈ ws, w = 0) :
    Path (ApartStep ms name data) (System.new c₀) ws s := by
  have hinv : (∀ w ∈ ws, w = 0) → Path (ApartStep ms name data) (System.new c₀) ws s ∧ s.workers 1 = .mknode := by
    refine h.invariant (I := fun ws s => (∀ w ∈ ws, w = 0) →
      Path (ApartStep ms name data) (System.new c₀) ws s ∧ s.workers 1 = .mknode) (fun _ => ⟨.nil, rfl⟩) ?_
    intro ws s w t hI hs hws
    obtain ⟨hpath, hone⟩ := hI fun w hw => hws w (List.mem_append_left _ hw)
    obtain rfl : w = 0 := hws w (by simp)
    refine ⟨hpath.snoc ⟨fun id hid w' => ?_, hs⟩, ?_⟩
    · obtain rfl | rfl : w' = 0 ∨ w' = 1 := by omega
      · rw [hid]
        exact fun hfit => hfit
      · rw [hone]
        exact fun hfit => hfit
    · cases hs with
      | @request _ _ _ p =>
        have hne : (1 : Fin 2) ≠ 0 := by decide
        change Function.update s.workers 0 p 1 = _
        rw [Function.update_of_ne hne, hone]
  exact (hinv hws).1

theorem readKeyVals_of_finished {kvs : List KeyVal} (hkvs : ∀ kv ∈ kvs, kv.Readable) (h₀ : Ready ms name c₀)
    (hver : VersionsSmall ms c₀) (h : Path (ApartStep ms name (contVec (render kvs))) (System.new c₀) ws s)
    (hw : s.workers w = .finished) : readKeyVals ms name s.cluster = some (.ok kvs, s.cluster) := by
  obtain rfl | ⟨ids, bid, ls, id, hinv⟩ := inv_of_path h₀ hver h
  · cases hw
  · obtain ⟨k, hread⟩ := hinv.getContentFromFile hw
    unfold readKeyVals
    rw [bind_ok hread, pure_apply, parse_ofVec hkvs]

/-- Executing a task twice is harmless if the workers do not ask for blocks at the
same time: what is read is what one worker leaves. -/
theorem readKeyVals_of_apart {sort : List KeyVal → List KeyVal} (hsort : ∀ kvs, (sort kvs).Perm kvs) {task : Task}
    {kvs : List KeyVal} (htask : task.entries sort = some kvs) (h₀ : Ready ms name c₀) (hver : VersionsSmall ms c₀)
    (h : Path (ApartStep ms name (contVec (render kvs))) (System.new c₀) ws s)
    (hdone : ∀ w, s.workers w = .finished) {s₁ : System logCnt}
    (halone : Alone ms name (contVec (render kvs)) c₀ s₁) :
    readKeyVals ms name s.cluster = some (.ok kvs, s.cluster) ∧
      readKeyVals ms name s₁.cluster = some (.ok kvs, s₁.cluster) := by
  have hkvs := Task.entries_readable hsort htask
  obtain ⟨ws₁, hpath, hws, hfinished⟩ := halone
  exact ⟨readKeyVals_of_finished hkvs h₀ hver h (hdone 0),
    readKeyVals_of_finished hkvs h₀ hver (apart_of_alone hpath hws) hfinished⟩

end Run

section Samples

variable {ms : MetadataServer} {name : List UInt8} {id : ℕ} {c : Cluster logCnt}

theorem made_of_directories {files : ℕ → Option File} {dirs : ℕ → List DirectoryEntry}
    (hd : Fs.Naming.Directories operation c.device files dirs) {f g : File} (hf : files 1 = some f)
    (hg : files id = some g) (hne : id ≠ 1) (hlt : id < operation.inodeManager.maxInodeSupported - 1)
    (hname : ValidName name) (hfind : find (dirs 1) name = some ⟨name, id⟩) (hempty : dirs id = [])
    (hworks : ∀ m, (c.servers m).maybeFailed = false) (hunused : Unused ms c) :
    Made ms {id} (fun _ => g.inode) (fun _ => []) name id c := by
  have hvalid := hd.inv.valid id g hg
  have hnil : g.content = [] := by
    rw [hd.text id g hg, hempty]
    rfl
  have hholds := hd.inv.holds id g hg (Set.notMem_empty _)
  have hblocks : g.blocks = [] := by
    apply List.eq_nil_of_length_eq_zero
    rw [hholds.count, hnil]
    rfl
  have hmaps : Maps (c.device.blocks g.inode) [] := by
    refine ⟨hholds.shape, by rw [hholds.size, hnil]; rfl, Nat.zero_le _, fun _ h => (by cases h),
      fun _ _ h => (by cases h), fun _ => hholds.lists.rest 0 ?_ (by decide)⟩
    rw [hblocks]
    exact Nat.le_refl 0
  have hinode : dataStart operation ≤ g.inode ∧ g.inode < 4096 := by
    obtain ⟨h1, h2, -⟩ := hd.inv.data id g hg g.inode List.mem_cons_self
    exact ⟨h1, h2⟩
  constructor
  case lists =>
    refine ⟨hworks, ⟨hd.inv.works, ?_, ?_, fun _ _ => hinode, ?_⟩, fun _ _ => hmaps⟩
    · intro i hi
      rw [Set.mem_singleton_iff.mp hi]
      exact ⟨hvalid.1, hlt⟩
    · intro i hi
      rw [Set.mem_singleton_iff.mp hi, hd.inv.entry id hvalid, hg]
      rfl
    · intro i hi i' hi' _
      exact (Set.mem_singleton_iff.mp hi).trans (Set.mem_singleton_iff.mp hi').symm
  case owns => exact owns_of_unused hunused
  case mem => rfl
  case valid => exact hname
  case root =>
    refine ⟨f, dirs 1, ⟨hd.inv.holds 1 f hf (Set.notMem_empty _), ?_, fun b hb => ?_,
      fun _ _ => ⟨hinode.1, ?_⟩, hd.parse layout hf⟩, hfind⟩
    · rw [hd.inv.entry 1 (hd.inv.valid 1 f hf), hf]
      rfl
    · obtain ⟨h1, h2, -⟩ := hd.inv.data 1 f hf b hb
      exact ⟨h1, h2⟩
    · exact fun hmem => hd.inv.disjoint 1 id f g hf hg (Ne.symm hne) hmem List.mem_cons_self

theorem made_of_mknode {files : ℕ → Option File} {dirs : ℕ → List DirectoryEntry} {c₀ : Cluster logCnt}
    (hd : Fs.Naming.Directories operation c₀.device files dirs) {f : File} (hf : files 1 = some f)
    (hname : ValidName name) (hnone : find (dirs 1) name = none) {now now' : ℕ}
    (hrun : onDevice (Distributed.Names.mknode operation 1 1 name now now') c₀ = some (.ok id, c))
    (hid : id ≠ 0) (hlt : id < operation.inodeManager.maxInodeSupported - 1)
    (hworks : ∀ m, (c₀.servers m).maybeFailed = false) (hunused : Unused ms c₀) :
    ∃ bid, Made ms {id} bid (fun _ => []) name id c := by
  obtain ⟨d, hmk, rfl⟩ := onPart_eq_some.mp hrun
  obtain ⟨r, t, hhelp, hmade⟩ := Fs.Naming.mkHelper_spec layout hd hf one_lt_max hname hnone 1 now now'
  rw [Distributed.Names.mknode_eq layout hd hf one_lt_max, outcome_apply hhelp] at hmk
  cases r with
  | error e =>
    simp only [Distributed.Names.idOf, Option.some.injEq, Prod.mk.injEq, Except.ok.injEq] at hmk
    exact absurd hmk.1.symm hid
  | ok id' =>
    simp only [Distributed.Names.idOf, Option.some.injEq, Prod.mk.injEq, Except.ok.injEq] at hmk
    obtain ⟨rfl, rfl⟩ := hmk
    obtain ⟨hfirst, files', hlive, hd'⟩ := hmade
    have hne : id' ≠ 1 := by
      rintro rfl
      cases hf.symm.trans hfirst.free
    obtain ⟨f', hf'⟩ : ∃ f', files' 1 = some f' := by
      rw [← Fs.Naming.mem_liveOf, hlive]
      exact Or.inr (Fs.Naming.mem_liveOf.mpr ⟨f, hf⟩)
    obtain ⟨g, hg⟩ : ∃ g, files' id' = some g := by
      rw [← Fs.Naming.mem_liveOf, hlive]
      exact Or.inl rfl
    have hdead : dirs id' = [] := by
      refine hd.linked.dead id' fun hmem => ?_
      obtain ⟨g', hg'⟩ := Fs.Naming.mem_liveOf.mp hmem
      cases hg'.symm.trans hfirst.free
    refine ⟨_, made_of_directories (c := { c₀ with device := t }) hd' hf' hg hne hlt hname ?_ ?_ hworks hunused⟩
    · rw [link, Function.update_self, find, List.find?_append]
      rw [find] at hnone
      rw [hnone]
      simp
    · rw [link, Function.update_of_ne hne, hdead]

def request (name data : List UInt8) (s : System 0) (w : Fin 2) : Option (System 0) :=
  match advance single name data 1 0 0 (s.workers w) s.cluster with
  | some (.ok p, c) => some ⟨c, Function.update s.workers w p⟩
  | _ => none

theorem step_of_request {data : List UInt8} {s t : System 0} {w : Fin 2} (h : request name data s w = some t) :
    Step single name data s w t := by
  unfold request at h
  split at h
  case h_1 heq =>
    cases h
    exact .request heq
  case h_2 => cases h

instance (p : Phase) : Decidable p.Fitting :=
  match p with
  | .allocating _ _ => isTrue trivial
  | .mknode | .lookup | .getBlockMap _ | .writing _ _ | .finished => isFalse fun h => h

def apart (s : System 0) (w : Fin 2) : Bool :=
  match s.workers w with
  | .getBlockMap _ => decide (∀ w', ¬ (s.workers w').Fitting)
  | _ => true

theorem apart_of_apart {s : System 0} {w : Fin 2} (h : apart s w = true) : Apart s w := by
  intro id hid
  unfold apart at h
  rw [hid] at h
  exact of_decide_eq_true h

def newRoot : Bm 4096 4096 0 ℕ := do
  let fo ← FileOperation.create 4096
  fo.allocInode 2 0

def newFile : Bm 4096 4096 0 ℕ := do
  let _ ← newRoot
  Distributed.Names.mknode operation 1 1 [102] 0 0

def sampleData : List UInt8 := contVec (render [⟨['a'], ['1']⟩])

def sampleRun (device : Bm 4096 4096 0 ℕ) (allowed : System 0 → Fin 2 → Bool) (ws : List (Fin 2)) :
    Option (System 0) := do
  let (_, d) ← device (BlockManager.zeroed 4096 4096 0)
  let (_, server) ← initializeServer (BlockManager.zeroed 4096 4096 0)
  execOk (request [102] sampleData) allowed (System.new ⟨d, fun _ => server⟩) ws

def phasesOf (s : System 0) : Phase × Phase := (s.workers 0, s.workers 1)

def outcomeOf (s : System 0) : (Phase × Phase) × Option (Option (List KeyVal)) :=
  (phasesOf s, (readKeyVals single [102] s.cluster).map fun out => out.1.toOption)

theorem sampleRun_eq {device : Bm 4096 4096 0 ℕ} {d : BlockManager 4096 4096 0} {server : Server}
    {r : Except ErrorType ℕ} {r' : Except ErrorType Block.Allocator.BlockAllocator}
    (hd : device (BlockManager.zeroed 4096 4096 0) = some (r, d))
    (hs : initializeServer (BlockManager.zeroed 4096 4096 0) = some (r', server))
    (allowed : System 0 → Fin 2 → Bool) (ws : List (Fin 2)) : sampleRun device allowed ws =
      execOk (request [102] sampleData) allowed (System.new ⟨d, fun _ => server⟩) ws := by
  unfold sampleRun
  rw [hd, hs]
  rfl

theorem finished_of_phasesOf {s : System 0} (h : phasesOf s = (.finished, .finished)) (w : Fin 2) :
    s.workers w = .finished := by
  obtain ⟨h0, h1⟩ := Prod.mk.inj h
  obtain rfl | rfl : w = 0 ∨ w = 1 := by omega
  · exact h0
  · exact h1

theorem path_of_execOk {c₀ : Cluster 0} {ws : List (Fin 2)} {s : System 0}
    (h : execOk (request [102] sampleData) (fun _ _ => true) (System.new c₀) ws = some s) :
    Path (Step single [102] sampleData) (System.new c₀) ws s :=
  Path.nil.execOk (fun _ _ _ _ hs => step_of_request hs) h

theorem read_of_outcomeOf {s : System 0} {ps : Phase × Phase} {kvs : List KeyVal}
    (h : outcomeOf s = (ps, some (some kvs))) :
    phasesOf s = ps ∧ ∃ c, readKeyVals single [102] s.cluster = some (.ok kvs, c) := by
  obtain ⟨hphases, hread⟩ := Prod.mk.inj h
  refine ⟨hphases, ?_⟩
  obtain ⟨⟨r, c⟩, hrun, hr⟩ := Option.map_eq_some_iff.mp hread
  cases r with
  | error => cases hr
  | ok kvs' =>
    cases hr
    exact ⟨c, hrun⟩

theorem exists_server : ∃ (a : Block.Allocator.BlockAllocator) (server : Server),
    initializeServer (BlockManager.zeroed 4096 4096 0) = some (.ok a, server) ∧ server.maybeFailed = false ∧
    ∀ b, 1 ≤ b → b < 4096 → version server b = 0 := by
  obtain ⟨d, a, server, bid, -, hinit, h₀, hv⟩ := exists_start
  exact ⟨a, server, hinit, h₀.works 0, hv⟩

theorem exists_newRoot : ∃ d : BlockManager 4096 4096 0, newRoot (BlockManager.zeroed 4096 4096 0) = some (.ok 1, d) ∧
    Fs.Naming.Start 4096 operation d := by
  have hrun : (newRoot (BlockManager.zeroed 4096 4096 0)).map (fun out => out.1.toOption) = some (some 1) := by
    decide +kernel
  obtain ⟨⟨r, d⟩, hroot, hr⟩ := Option.map_eq_some_iff.mp hrun
  cases r with
  | error => cases hr
  | ok id =>
    cases hr
    obtain ⟨fo, s₁, hcreate, halloc⟩ := bind_eq_ok hroot
    obtain ⟨t, hcreate', -⟩ := Fs.Contents.create_spec dimensions (s := BlockManager.zeroed 4096 4096 0) rfl
    cases hcreate'.symm.trans hcreate
    exact ⟨d, hroot, ⟨_, s₁, 0, rfl, hcreate, halloc⟩⟩

theorem exists_newFile {server : Server} (hworks : server.maybeFailed = false)
    (hv : ∀ b, 1 ≤ b → b < 4096 → version server b = 0) : ∃ d : BlockManager 4096 4096 0,
      newFile (BlockManager.zeroed 4096 4096 0) = some (.ok 2, d) ∧
      Ready single [102] (⟨d, fun _ => server⟩ : Cluster 0) := by
  have hrun : (newFile (BlockManager.zeroed 4096 4096 0)).map (fun out => out.1.toOption) = some (some 2) := by
    decide +kernel
  obtain ⟨⟨r, d⟩, hfile, hr⟩ := Option.map_eq_some_iff.mp hrun
  cases r with
  | error => cases hr
  | ok id =>
    cases hr
    refine ⟨d, hfile, ?_⟩
    obtain ⟨d₁, hroot, hstart⟩ := exists_newRoot
    unfold newFile at hfile
    rw [bind_ok hroot] at hfile
    obtain ⟨-, files, hlive, hdirs⟩ := Fs.Naming.directories_of_start dimensions hstart
    obtain ⟨f, hf⟩ : ∃ f, files 1 = some f := by
      rw [← Fs.Naming.mem_liveOf, hlive]
      rfl
    have hunused : Unused single (⟨d₁, fun _ => server⟩ : Cluster 0) := by
      rintro p ⟨-, hb, hused⟩
      rw [Distributed.Versions.allocated_iff] at hused
      change (version server p.2).toNat % 2 = 1 at hused
      rw [hv p.2 hb.1 hb.2] at hused
      cases hused
    have hmk : onDevice (Distributed.Names.mknode operation 1 1 [102] 0 0) (⟨d₁, fun _ => server⟩ : Cluster 0) =
        some (.ok 2, ⟨d, fun _ => server⟩) := onPart_apply hfile
    obtain ⟨bid, hmade⟩ := made_of_mknode hdirs hf ⟨by decide, by decide, by decide⟩ rfl hmk (by decide) (by decide)
      (fun _ => hworks) hunused
    intro now now' r c h
    rw [hmade.mknode] at h
    cases h
    exact ⟨_, _, _, _, hmade, rfl⟩

/-- The second worker fetches the block map when the first one has its block. -/
theorem readKeyVals_of_apart_second : ∃ (c₀ : Cluster 0) (s s₁ : System 0),
    newFile (BlockManager.zeroed 4096 4096 0) = some (.ok 2, c₀.device) ∧
    Ready single [102] c₀ ∧ VersionsSmall single c₀ ∧
    Path (ApartStep single [102] (contVec (render [⟨['a'], ['1']⟩]))) (System.new c₀)
      [0, 1, 0, 1, 0, 0, 1, 0, 1] s ∧
    (∀ w, s.workers w = .finished) ∧ Alone single [102] (contVec (render [⟨['a'], ['1']⟩])) c₀ s₁ ∧
    readKeyVals single [102] s.cluster = some (.ok [⟨['a'], ['1']⟩], s.cluster) ∧
    readKeyVals single [102] s₁.cluster = some (.ok [⟨['a'], ['1']⟩], s₁.cluster) := by
  obtain ⟨a, server, hinit, hworks, hv⟩ := exists_server
  obtain ⟨d, hfile, hready⟩ := exists_newFile hworks hv
  have htwo : (sampleRun newFile apart [0, 1, 0, 1, 0, 0, 1, 0, 1]).map phasesOf =
      some (.finished, .finished) := by decide +kernel
  have hone : (sampleRun newFile (fun _ _ => true) [0, 0, 0, 0, 0]).map phasesOf =
      some (.finished, .mknode) := by decide +kernel
  rw [sampleRun_eq hfile hinit] at htwo hone
  obtain ⟨s, hs, hdone⟩ := Option.map_eq_some_iff.mp htwo
  obtain ⟨s₁, hs₁, hdone₁⟩ := Option.map_eq_some_iff.mp hone
  have hsmall : VersionsSmall single (⟨d, fun _ => server⟩ : Cluster 0) := by
    intro m b _ _ h3 h4
    change (version server b).toNat < 32
    rw [hv b h3 h4]
    decide
  have hpath : Path (ApartStep single [102] sampleData)
      (System.new ⟨d, fun _ => server⟩) [0, 1, 0, 1, 0, 0, 1, 0, 1] s :=
    Path.nil.execOk (fun _ _ _ ha hstep => ⟨apart_of_apart ha, step_of_request hstep⟩) hs
  have halone : Alone single [102] sampleData (⟨d, fun _ => server⟩ : Cluster 0) s₁ :=
    ⟨_, path_of_execOk hs₁, by simp, (Prod.mk.inj hdone₁).1⟩
  have htask : (Task.map ['a']).entries (fun kvs => kvs) = some [⟨['a'], ['1']⟩] := by decide
  exact ⟨_, s, s₁, hfile, hready, hsmall, hpath, finished_of_phasesOf hdone, halone,
    readKeyVals_of_apart (fun kvs => List.Perm.refl kvs) htask hready hsmall hpath (finished_of_phasesOf hdone) halone⟩

/-- Both workers fetch the block map of the empty file. -/
theorem readKeyVals_doubled : ∃ (c₀ c c₁ : Cluster 0) (s s₁ : System 0),
    newRoot (BlockManager.zeroed 4096 4096 0) = some (.ok 1, c₀.device) ∧
    (∀ m, ∃ a, initializeServer (BlockManager.zeroed 4096 4096 0) = some (.ok a, c₀.servers m)) ∧
    (Task.map ['a']).entries (fun kvs => kvs) = some [⟨['a'], ['1']⟩] ∧
    Path (Step single [102] (contVec (render [⟨['a'], ['1']⟩]))) (System.new c₀) [0, 1, 0, 1, 0, 1, 0, 1, 0, 1] s ∧
    (∀ w, s.workers w = .finished) ∧ Alone single [102] (contVec (render [⟨['a'], ['1']⟩])) c₀ s₁ ∧
    readKeyVals single [102] s₁.cluster = some (.ok [⟨['a'], ['1']⟩], c₁) ∧
    readKeyVals single [102] s.cluster = some (.ok [⟨['a'], ['1']⟩, ⟨['a'], ['1']⟩], c) := by
  obtain ⟨a, server, hinit, -, -⟩ := exists_server
  obtain ⟨d, hdev, -⟩ := exists_newRoot
  have htwo : (sampleRun newRoot (fun _ _ => true) [0, 1, 0, 1, 0, 1, 0, 1, 0, 1]).map outcomeOf =
      some ((.finished, .finished), some (some [⟨['a'], ['1']⟩, ⟨['a'], ['1']⟩])) := by decide +kernel
  have hone : (sampleRun newRoot (fun _ _ => true) [0, 0, 0, 0, 0]).map outcomeOf =
      some ((.finished, .mknode), some (some [⟨['a'], ['1']⟩])) := by decide +kernel
  rw [sampleRun_eq hdev hinit] at htwo hone
  obtain ⟨s, hs, hout⟩ := Option.map_eq_some_iff.mp htwo
  obtain ⟨s₁, hs₁, hout₁⟩ := Option.map_eq_some_iff.mp hone
  obtain ⟨hdone, c, hread⟩ := read_of_outcomeOf hout
  obtain ⟨hdone₁, c₁, hread₁⟩ := read_of_outcomeOf hout₁
  exact ⟨⟨d, fun _ => server⟩, c, c₁, s, s₁, hdev, fun _ => ⟨a, hinit⟩, by decide, path_of_execOk hs,
    finished_of_phasesOf hdone, ⟨_, path_of_execOk hs₁, by simp, (Prod.mk.inj hdone₁).1⟩, hread₁, hread⟩

end Samples

end Chfs.MapReduce.Reexecution
