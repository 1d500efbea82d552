import Chfs.Fs.Serving

namespace Chfs.Fs.Readdir

open Lib.Effect Lib.Bytes Lib.Server Block.Manager Inode Operations Files Growth Contents Directory Attributes Volumes
  Daemon Storage Serving

variable {sz cnt logCnt : ℕ}

structure Dirent where
  name : List UInt8
  ino : ℕ
  off : ℕ
  deriving DecidableEq, Repr

/-- How the kernel takes an entry off the front of a buffer, unless it is not
whole. -/
structure Reader (d : Direntry) where
  next : List UInt8 → Option (Dirent × List UInt8)
  size_pos : ∀ name, 0 < d.size name
  next_encode : ∀ name ino off rest, name.length < 2 ^ 32 → ino < 2 ^ 64 → off < 2 ^ 64 →
    next (d.encode name ino off ++ rest) = some (⟨name, ino, off⟩, rest)
  next_short : ∀ name ino off k, name.length < 2 ^ 32 → k < d.size name →
    next ((d.encode name ino off).take k) = none

variable {d : Direntry}

def Reader.whole (rd : Reader d) : ℕ → List UInt8 → List Dirent
  | 0, _ => []
  | k + 1, bytes =>
    match rd.next bytes with
    | none => []
    | some (e, rest) => e :: rd.whole k rest

/-- A directory is read from an offset on, with a buffer of a given size, until a
buffer comes without a whole entry. -/
def Reader.readdir (rd : Reader d) (fs : FileOperation) (ino size : ℕ) : ℕ → ℕ →
    Bm sz cnt logCnt (List (List UInt8 × ℕ))
  | 0, _ => pure []
  | k + 1, off => do
    match ← serve d fs (.readdir ino size off) with
    | .buf bytes =>
      let got := rd.whole bytes.length bytes
      match got.getLast? with
      | none => pure []
      | some e =>
        let rest ← rd.readdir fs ino size k e.off
        pure (got.map (fun e => (e.name, e.ino)) ++ rest)
    | _ => pure []

/-- The entries of a listing that begin and end within the first `m` bytes. -/
def fitting (d : Direntry) : ℕ → ℕ → List DirectoryEntry → List Dirent
  | _, _, [] => []
  | m, off, e :: es =>
    if d.size e.name ≤ m then
      ⟨e.name, e.id, off + d.size e.name⟩ :: fitting d (m - d.size e.name) (off + d.size e.name) es
    else []

section Listing

variable {es es' : List DirectoryEntry} {off m : ℕ}

theorem listing_append (off : ℕ) : d.listing off (es ++ es') =
    d.listing off es ++ d.listing (off + (d.listing off es).length) es' := by
  induction es generalizing off with
  | nil => rfl
  | cons e es ih =>
    rw [List.cons_append, Direntry.listing, ih, Direntry.listing, List.append_assoc, List.length_append,
      d.length_encode, Nat.add_assoc]

theorem whole_take (rd : Reader d) (k : ℕ) (hes : ∀ e ∈ es, e.name.length < 2 ^ 32 ∧ e.id < 2 ^ 64)
    (hoff : off + (d.listing off es).length < 2 ^ 64) (hk : ((d.listing off es).take m).length ≤ k) :
    rd.whole k ((d.listing off es).take m) = fitting d m off es := by
  have hnil : ∀ k, rd.whole k [] = [] := by
    intro k
    have hshort : rd.next [] = none := rd.next_short [] 0 0 0 (by decide) (rd.size_pos [])
    cases k with
    | zero => rfl
    | succ k => rw [Reader.whole, hshort]
  induction es generalizing off m k with
  | nil => rw [Direntry.listing, List.take_nil, hnil, fitting]
  | cons e es ih =>
    have hlen := d.length_encode e.name e.id (off + d.size e.name)
    obtain ⟨⟨hname, hid⟩, hes⟩ := List.forall_mem_cons.mp hes
    rw [Direntry.listing] at hk hoff ⊢
    rw [List.length_append, hlen] at hoff
    unfold fitting
    split
    case isTrue hle =>
      have htake : (d.encode e.name e.id (off + d.size e.name) ++ d.listing (off + d.size e.name) es).take m =
          d.encode e.name e.id (off + d.size e.name) ++
            (d.listing (off + d.size e.name) es).take (m - d.size e.name) := by
        rw [List.take_append, hlen, List.take_of_length_le (by omega)]
      rw [htake] at hk ⊢
      rw [List.length_append, hlen] at hk
      have hpos := rd.size_pos e.name
      obtain ⟨k, rfl⟩ := Nat.exists_eq_add_one.mpr (by omega : 0 < k)
      rw [Reader.whole, rd.next_encode _ _ _ _ hname hid (by omega)]
      simp only
      rw [ih k hes (by omega) (by omega)]
    case isFalse hlt =>
      rw [List.take_append_of_le_length (by omega)]
      cases k with
      | zero => rfl
      | succ k => rw [Reader.whole, rd.next_short _ _ _ _ hname (by omega)]

/-- What fits is a number of entries from the first one on, and at least that
one, as long as it is not too large itself. The last one tells where to go on. -/
theorem fitting_spec (d : Direntry) (m off : ℕ) (es : List DirectoryEntry) : ∃ j,
    (fitting d m off es).map (fun e => (e.name, e.ino)) = (es.take j).map (fun e => (e.name, e.id)) ∧
    (∀ e ∈ es.take j, d.size e.name ≤ m) ∧
    (∀ last ∈ (fitting d m off es).getLast?, 0 < j ∧ last.off = off + (d.listing off (es.take j)).length) ∧
    ((fitting d m off es).getLast? = none → ∀ e ∈ es.head?, m < d.size e.name) := by
  induction es generalizing m off with
  | nil => exact ⟨0, rfl, by simp, by simp [fitting], by simp⟩
  | cons e es ih =>
    unfold fitting
    split
    case isFalse hlt => exact ⟨0, rfl, by simp, by simp, by simpa using hlt⟩
    case isTrue hle =>
      obtain ⟨j, hmap, hsize, hlast, hnone⟩ := ih (m - d.size e.name) (off + d.size e.name)
      refine ⟨j + 1, ?_, ?_, ?_, by simp⟩
      · rw [List.map_cons, hmap, List.take_succ_cons, List.map_cons]
      · rw [List.take_succ_cons, List.forall_mem_cons]
        exact ⟨hle, fun x hx => (hsize x hx).trans (Nat.sub_le _ _)⟩
      · intro last hmem
        refine ⟨Nat.succ_pos j, ?_⟩
        rw [List.take_succ_cons, Direntry.listing, List.length_append, d.length_encode]
        rw [List.getLast?_cons, Option.mem_some_iff] at hmem
        cases hl : (fitting d (m - d.size e.name) (off + d.size e.name) es).getLast? with
        | none =>
          have hnil : fitting d (m - d.size e.name) (off + d.size e.name) es = [] := List.getLast?_eq_none_iff.mp hl
          rw [hnil, List.map_nil] at hmap
          have htake : es.take j = [] := List.map_eq_nil_iff.mp hmap.symm
          rw [hl] at hmem
          rw [htake, ← hmem]
          rfl
        | some last' =>
          rw [hl] at hmem
          have heq := (hlast last' hl).2
          rw [← hmem, Option.getD_some, heq, Nat.add_assoc]

end Listing

section Runs

variable {fo : FileOperation} {s₀ s : BlockManager sz cnt logCnt} {files : ℕ → Option File} {x : Disk}
  {n now p time : ℕ} {qs : List Request} {rs : List Reply} {es : List DirectoryEntry}

/-- The induction is on the number of buffers; `done` has been read. -/
theorem readdir_from (hl : Layout fo sz cnt) (h : Stores fo s files x) (hw : WellFormed x.volume) (rd : Reader d)
    (size k : ℕ) {done rest : List DirectoryEntry} (hv : x.volume p = some ⟨.directory (done ++ rest), time⟩)
    (hes : ∀ e ∈ done ++ rest, e.name.length < 2 ^ 32) (hoff : (d.listing 0 (done ++ rest)).length < 2 ^ 64)
    (hk : rest.length < k) : rd.readdir fo p size k (d.listing 0 done).length s =
      some (.ok ((rest.takeWhile fun e => d.size e.name ≤ size).map fun e => (e.name, e.id)), s) := by
  induction k generalizing done rest with
  | zero => exact absurd hk (Nat.not_lt_zero _)
  | succ k ih =>
    have hserve : serve d fo (.readdir p size (d.listing 0 done).length) s =
        some (.ok (.buf ((d.listing (d.listing 0 done).length rest).take size)), s) := by
      have hrun := chfsReaddir_apply (d := d) hl h hw hv size (d.listing 0 done).length
      rw [listing_append, Nat.zero_add, slice, List.drop_left] at hrun
      exact hrun
    have hlen := hoff
    rw [listing_append, List.length_append, Nat.zero_add] at hlen
    have hrest : ∀ e ∈ rest, e.name.length < 2 ^ 32 ∧ e.id < 2 ^ 64 := fun e he =>
      ⟨hes e (List.mem_append_right _ he), h.id_lt hl hw (entries_of hv ▸ List.mem_append_right _ he)⟩
    have hwhole := whole_take (m := size) rd _ hrest hlen (Nat.le_refl _)
    generalize hbegin : (d.listing 0 done).length = off at hserve hwhole
    obtain ⟨j, hmap, hsize, hlast, hnone⟩ := fitting_spec d size off rest
    unfold Reader.readdir
    rw [bind_ok hserve]
    simp only
    rw [hwhole]
    cases hl' : (fitting d size off rest).getLast? with
    | none =>
      have hhead := hnone hl'
      have htake : rest.takeWhile (fun e => d.size e.name ≤ size) = [] := by
        cases rest with
        | nil => rfl
        | cons e rest => rw [List.takeWhile_cons_of_neg (by simpa using hhead e rfl)]
      rw [htake]
      rfl
    | some last =>
      obtain ⟨hj, hnext⟩ := hlast last hl'
      have hsplit : done ++ rest = (done ++ rest.take j) ++ rest.drop j := by
        rw [List.append_assoc, List.take_append_drop]
      rw [hsplit] at hv hes hoff
      have hnextOff : last.off = (d.listing 0 (done ++ rest.take j)).length := by
        rw [listing_append, List.length_append, Nat.zero_add, hbegin, hnext]
      have hne : rest ≠ [] := by
        rintro rfl
        rw [fitting] at hl'
        cases hl'
      have hpos := List.length_pos_iff.mpr hne
      have hread := ih hv hes hoff (by rw [List.length_drop]; omega)
      rw [← hnextOff] at hread
      have htake : rest.takeWhile (fun e => d.size e.name ≤ size) =
          rest.take j ++ (rest.drop j).takeWhile fun e => d.size e.name ≤ size := by
        conv_lhs => rw [← List.take_append_drop j rest]
        rw [List.takeWhile_append_of_pos fun e he => decide_eq_true (hsize e he)]
      simp only
      rw [bind_ok hread, htake, List.map_append, hmap]
      rfl

/-- Whatever the size of the buffers, the kernel gets each entry of a directory
once and in order, up to the first one that is too large for a buffer. -/
theorem readdir_of_answers (hd : Dimensions sz cnt n) (hs : s₀.maybeFailed = false) (hnow : now < 2 ^ 63)
    (hroom : dataStart (FileOperation.fields sz cnt n) < cnt)
    (hqs : Admitted (act d sz (idLimit (FileOperation.fields sz cnt n)))
      (fun x q => Proper (idLimit (FileOperation.fields sz cnt n)) x.volume q) (newDisk sz cnt n now) qs)
    (hrun : answers (act d sz (idLimit (FileOperation.fields sz cnt n))) (newDisk sz cnt n now) qs = some (rs, x))
    (hv : x.volume p = some ⟨.directory es, time⟩) (hes : ∀ e ∈ es, e.name.length < 2 ^ 32)
    (hoff : (d.listing 0 es).length < 2 ^ 64) (rd : Reader d) (size : ℕ) {k : ℕ} (hk : es.length < k) :
    ∃ s₁ s, bootstrapFuse n now s₀ = some (.ok (FileOperation.fields sz cnt n), s₁) ∧
      answers (respond d (FileOperation.fields sz cnt n)) s₁ qs = some (rs, s) ∧
      rd.readdir (FileOperation.fields sz cnt n) p size k 0 s =
        some (.ok ((es.takeWhile fun e => d.size e.name ≤ size).map fun e => (e.name, e.id)), s) := by
  obtain ⟨s₁, hboot, halike⟩ := alike_bootstrapFuse hd hs hnow hroom hqs
  rw [hrun] at halike
  generalize hserved : answers (respond d (FileOperation.fields sz cnt n)) s₁ qs = out at halike
  obtain ⟨rfl, hw, files, h⟩ | _ := halike
  have hv' : x.volume p = some ⟨.directory ([] ++ es), time⟩ := hv
  exact ⟨s₁, _, hboot, hserved, readdir_from hd.layout h hw rd size k hv' hes hoff hk⟩

end Runs

theorem slice_mid {α : Type} (x y z : List α) {a k : ℕ} (ha : x.length = a) (hk : y.length = k) :
    slice (x ++ (y ++ z)) a k = y := by
  rw [slice, List.drop_left' ha, List.take_left' hk]

theorem slice_fuseDirent (name : List UInt8) (ino off : ℕ) (rest : List UInt8) :
    slice (fuseDirent.encode name ino off ++ rest) 0 8 = leBytes 8 ino ∧
    slice (fuseDirent.encode name ino off ++ rest) 8 8 = leBytes 8 off ∧
    slice (fuseDirent.encode name ino off ++ rest) 16 4 = leBytes 4 name.length ∧
    slice (fuseDirent.encode name ino off ++ rest) 24 name.length = name := by
  unfold fuseDirent
  simp only
  generalize List.replicate ((24 + name.length + 7) / 8 * 8 - (24 + name.length)) (0 : UInt8) = pad
  have h1 := slice_mid [] (leBytes 8 ino) (leBytes 8 off ++ leBytes 4 name.length ++ leBytes 4 0 ++ name ++
    pad ++ rest) (a := 0) rfl (length_leBytes 8 ino)
  have h2 := slice_mid (leBytes 8 ino) (leBytes 8 off) (leBytes 4 name.length ++ leBytes 4 0 ++ name ++ pad ++ rest)
    (length_leBytes 8 ino) (length_leBytes 8 off)
  have h3 := slice_mid (leBytes 8 ino ++ leBytes 8 off) (leBytes 4 name.length) (leBytes 4 0 ++ name ++ pad ++ rest)
    (a := 16) (by simp) (length_leBytes 4 _)
  have h4 := slice_mid (leBytes 8 ino ++ leBytes 8 off ++ leBytes 4 name.length ++ leBytes 4 0) name (pad ++ rest)
    (a := 24) (by simp) rfl
  simp only [List.nil_append, List.append_assoc] at h1 h2 h3 h4 ⊢
  exact ⟨h1, h2, h3, h4⟩

theorem nameLength_fuseDirent {name : List UInt8} (hname : name.length < 2 ^ 32) (ino off : ℕ) (rest : List UInt8) :
    getField (fuseDirent.encode name ino off ++ rest) 16 4 = name.length := by
  rw [getField, (slice_fuseDirent name ino off rest).2.2.1, leVal_leBytes hname]

/-- An entry begins with 24 bytes of its own, and the name is padded. -/
def fuseNext (bytes : List UInt8) : Option (Dirent × List UInt8) :=
  let size := (24 + getField bytes 16 4 + 7) / 8 * 8
  if bytes.length < 24 ∨ bytes.length < size then none
  else some (⟨slice bytes 24 (getField bytes 16 4), getField bytes 0 8, getField bytes 8 8⟩, bytes.drop size)

theorem size_fuseDirent (name : List UInt8) : fuseDirent.size name = (24 + name.length + 7) / 8 * 8 := rfl

theorem fuseDirent_size_pos (name : List UInt8) : 0 < fuseDirent.size name := by
  rw [size_fuseDirent]
  omega

theorem fuseNext_encode (name : List UInt8) (ino off : ℕ) (rest : List UInt8) (hname : name.length < 2 ^ 32)
    (hino : ino < 2 ^ 64) (hoff : off < 2 ^ 64) :
    fuseNext (fuseDirent.encode name ino off ++ rest) = some (⟨name, ino, off⟩, rest) := by
  obtain ⟨h1, h2, -, h4⟩ := slice_fuseDirent name ino off rest
  have hlen := fuseDirent.length_encode name ino off
  have hsize := size_fuseDirent name
  unfold fuseNext
  simp only
  rw [nameLength_fuseDirent hname, h4, getField, getField, h1, h2, leVal_leBytes hino, leVal_leBytes hoff,
    if_neg (by rw [List.length_append]; omega), List.drop_left' (hlen.trans hsize)]

theorem fuseNext_short (name : List UInt8) (ino off k : ℕ) (hname : name.length < 2 ^ 32)
    (hk : k < fuseDirent.size name) : fuseNext ((fuseDirent.encode name ino off).take k) = none := by
  have hlen := fuseDirent.length_encode name ino off
  have hsize := size_fuseDirent name
  have hshort : ((fuseDirent.encode name ino off).take k).length = k := by
    rw [List.length_take]
    omega
  unfold fuseNext
  simp only
  rw [hshort]
  by_cases h24 : k < 24
  · rw [if_pos (Or.inl h24)]
  · have hfield : getField ((fuseDirent.encode name ino off).take k) 16 4 = name.length := by
      have htake : ((fuseDirent.encode name ino off).take k).take 24 = (fuseDirent.encode name ino off).take 24 := by
        rw [List.take_take, Nat.min_eq_left (by omega)]
      have henc := nameLength_fuseDirent hname ino off []
      rw [List.append_nil] at henc
      rw [getField_of_take htake (by decide), henc]
    rw [hfield, if_pos (Or.inr (by omega))]

def fuseReader : Reader fuseDirent where
  next := fuseNext
  size_pos := fuseDirent_size_pos
  next_encode := fuseNext_encode
  next_short := fuseNext_short

def listedRequests : List Request := [.mknod 1 [97] 6 7, .mkdir 1 [98] 9 10]

theorem readdir_listedRequests : ∃ s₁ s : BlockManager 1024 16384 0,
    bootstrapFuse 1024 5 (BlockManager.zeroed 1024 16384 0) = some (.ok (FileOperation.fields 1024 16384 1024), s₁) ∧
    answers (respond fuseDirent (FileOperation.fields 1024 16384 1024)) s₁ listedRequests =
      some ([.entry 2 ⟨0o100666, 1, 6, 6, 6, 0⟩, .entry 3 ⟨0o040777, 2, 9, 9, 9, 0⟩], s) ∧
    fuseReader.readdir (FileOperation.fields 1024 16384 1024) 1 40 3 0 s = some (.ok [([97], 2), ([98], 3)], s) := by
  have hworks : (BlockManager.zeroed 1024 16384 0).maybeFailed = false := rfl
  have hroom : dataStart (FileOperation.fields 1024 16384 1024) < 16384 := by decide +kernel
  have hnow : 5 < 2 ^ 63 := by decide
  have hproper : Admitted (act fuseDirent 1024 (idLimit (FileOperation.fields 1024 16384 1024)))
      (fun x q => Proper (idLimit (FileOperation.fields 1024 16384 1024)) x.volume q) (newDisk 1024 16384 1024 5)
      listedRequests := by decide +kernel
  have hlisted : ((answers (act fuseDirent 1024 (idLimit (FileOperation.fields 1024 16384 1024)))
      (newDisk 1024 16384 1024 5) listedRequests).map fun out => (out.1, out.2.volume 1)) =
      some ([.entry 2 ⟨0o100666, 1, 6, 6, 6, 0⟩, .entry 3 ⟨0o040777, 2, 9, 9, 9, 0⟩],
        some ⟨.directory [⟨[97], 2⟩, ⟨[98], 3⟩], 10⟩) := by decide +kernel
  obtain ⟨⟨rs, x⟩, hrun, hout⟩ := Option.map_eq_some_iff.mp hlisted
  obtain ⟨rfl, hv⟩ := Prod.mk.inj hout
  exact readdir_of_answers dimensions_daemon hworks hnow hroom hproper hrun hv (by decide) (by decide) fuseReader 40
    (by decide)

end Chfs.Fs.Readdir
