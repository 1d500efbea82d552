import Chfs.Fs.Operations
import Chfs.Lib.Tree
import Mathlib.Data.List.TakeWhile
import Mathlib.Data.Nat.Digits.Lemmas

/-! The text of a directory and the operations on it
(`filesystem/directory_op.cc`). Names and texts are lists of bytes. -/

namespace Chfs.Fs.Directory

open Lib.Effect Lib.Tree Block.Manager Operations

def slash : UInt8 := 47

def colon : UInt8 := 58

abbrev DirectoryEntry : Type := Entry (List UInt8) ℕ

def inodeIdToString (id : ℕ) : List UInt8 :=
  if id = 0 then [48] else (Nat.digits 10 id).reverse.map fun d => UInt8.ofNat (48 + d)

def isSpace (c : UInt8) : Bool := c = 32 ∨ (9 ≤ c ∧ c ≤ 13)

def isDigit (c : UInt8) : Bool := 48 ≤ c ∧ c ≤ 57

def readDigits (text : List UInt8) : ℕ :=
  (text.takeWhile isDigit).foldl (fun v c => 10 * v + (c.toNat - 48)) 0

/-- A value that is too large is the largest one, with any sign. -/
def unsigned (negative : Bool) (v : ℕ) : ℕ :=
  if 2 ^ 64 ≤ v then 2 ^ 64 - 1 else if negative then (2 ^ 64 - v) % 2 ^ 64 else v

/-- `string_to_inode_id`: `operator>>` for an unsigned number. It skips white
space and takes a sign. If there is nothing behind the white space, the number
is not set. -/
def stringToInodeId (data : List UInt8) : Option ℕ :=
  match data.dropWhile isSpace with
  | [] => none
  | c :: rest =>
    if c = 45 then some (unsigned true (readDigits rest))
    else if c = 43 then some (unsigned false (readDigits rest))
    else some (unsigned false (readDigits (c :: rest)))

def entryToString (entry : DirectoryEntry) : List UInt8 :=
  entry.name ++ colon :: inodeIdToString entry.id

def dirListToString (entries : List DirectoryEntry) : List UInt8 :=
  [slash].intercalate (entries.map entryToString)

def parseEntry (entry : List UInt8) : Option DirectoryEntry := do
  let id ← stringToInodeId ((entry.dropWhile (· ≠ colon)).drop 1)
  pure ⟨entry.takeWhile (· ≠ colon), id⟩

/-- `parse_directory`. Pieces without a colon are skipped, so that it does not
matter whether an empty piece at the end is one. -/
def parseDirectory (src : List UInt8) : Option (List DirectoryEntry) :=
  ((src.splitOn slash).filter (colon ∈ ·)).mapM parseEntry

def appendToDirectory (src filename : List UInt8) (id : ℕ) : List UInt8 :=
  (if src = [] then [] else src ++ [slash]) ++ filename ++ colon :: inodeIdToString id

def rmFromDirectory (src filename : List UInt8) : Option (List UInt8) := do
  let entries ← parseDirectory src
  pure (dirListToString (entries.filter fun entry => entry.name ≠ filename))

variable {sz cnt logCnt : ℕ}

def parsed (src : List UInt8) : Bm sz cnt logCnt (List DirectoryEntry) :=
  match parseDirectory src with
  | none => undefined
  | some entries => pure entries

def readDirectory (fs : FileOperation) (id : ℕ) : Bm sz cnt logCnt (List DirectoryEntry) := do
  let dirContent ← fs.readFile id
  parsed dirContent

def lookup (fs : FileOperation) (id : ℕ) (name : List UInt8) : Bm sz cnt logCnt ℕ := do
  let list ← readDirectory fs id
  match find list name with
  | some entry => pure entry.id
  | none => refuse .notExist

def mkHelper (fs : FileOperation) (id : ℕ) (name : List UInt8) (type now now' : ℕ) :
    Bm sz cnt logCnt ℕ := do
  let list ← readDirectory fs id
  if list.any (·.name = name) then refuse .alreadyExist else
    let newInodeId ← fs.allocInode type now
    fs.writeFile id (dirListToString (list ++ [⟨name, newInodeId⟩])) now'
    pure newInodeId

def unlink (fs : FileOperation) (parent : ℕ) (name : List UInt8) (now : ℕ) : Bm sz cnt logCnt Unit := do
  let entries ← readDirectory fs parent
  let fileId ← lookup fs parent name
  fs.removeFile fileId
  fs.writeFile parent (dirListToString (entries.filter fun entry => entry.id ≠ fileId)) now

structure ValidName (name : List UInt8) : Prop where
  slash : slash ∉ name
  colon : colon ∉ name
  nul : 0 ∉ name

section Codec

theorem mem_inodeIdToString {id : ℕ} {c : UInt8} (hc : c ∈ inodeIdToString id) : isDigit c = true := by
  unfold inodeIdToString at hc
  split at hc
  case isTrue =>
    obtain rfl := List.mem_singleton.mp hc
    decide
  case isFalse =>
    obtain ⟨d, hd, rfl⟩ := List.mem_map.mp hc
    have hdigit : ∀ d < 10, isDigit (UInt8.ofNat (48 + d)) = true := by decide
    exact hdigit d (Nat.digits_lt_base (by decide : 1 < 10) (List.mem_reverse.mp hd))

theorem inodeIdToString_ne_nil (id : ℕ) : inodeIdToString id ≠ [] := by
  unfold inodeIdToString
  split
  case isTrue => exact List.cons_ne_nil _ _
  case isFalse hne =>
    rw [Ne, List.map_eq_nil_iff, List.reverse_eq_nil_iff, Nat.digits_eq_nil_iff_eq_zero]
    exact hne

theorem foldl_digits (l : List ℕ) (hl : ∀ d ∈ l, d < 10) :
    (l.reverse.map fun d => UInt8.ofNat (48 + d)).foldl (fun v c => 10 * v + (c.toNat - 48)) 0 =
      Nat.ofDigits 10 l := by
  induction l with
  | nil => rfl
  | cons d l ih =>
    have hd := hl d List.mem_cons_self
    rw [List.reverse_cons, List.map_append, List.foldl_append, ih fun x hx => hl x (List.mem_cons_of_mem _ hx),
      List.map_singleton, List.foldl_cons, List.foldl_nil, UInt8.toNat_ofNat', Nat.ofDigits_cons]
    omega

theorem readDigits_inodeIdToString (id : ℕ) : readDigits (inodeIdToString id) = id := by
  have hall : (inodeIdToString id).takeWhile isDigit = inodeIdToString id :=
    List.takeWhile_eq_self_iff.mpr fun c hc => mem_inodeIdToString hc
  unfold readDigits
  rw [hall]
  unfold inodeIdToString
  split
  case isTrue hz =>
    rw [hz]
    rfl
  case isFalse =>
    rw [foldl_digits _ fun d hd => Nat.digits_lt_base (by decide) hd, Nat.ofDigits_digits]

theorem stringToInodeId_inodeIdToString {id : ℕ} (hid : id < 2 ^ 64) :
    stringToInodeId (inodeIdToString id) = some id := by
  have hread := readDigits_inodeIdToString id
  obtain ⟨c, rest, heq⟩ := List.exists_cons_of_ne_nil (inodeIdToString_ne_nil id)
  have hc : isDigit c = true := mem_inodeIdToString (heq ▸ List.mem_cons_self)
  have hkind : isSpace c = false ∧ c ≠ 45 ∧ c ≠ 43 := by
    simp only [isDigit, isSpace, decide_eq_true_eq, decide_eq_false_iff_not, UInt8.le_iff_toNat_le, Ne,
      ← UInt8.toNat_inj, UInt8.reduceToNat] at hc ⊢
    omega
  rw [heq] at hread ⊢
  unfold stringToInodeId
  rw [List.dropWhile_cons_of_neg (by simp [hkind.1])]
  simp only
  rw [if_neg hkind.2.1, if_neg hkind.2.2, hread, unsigned, if_neg (by omega)]
  rfl

variable {entry : DirectoryEntry} {entries : List DirectoryEntry}

theorem parseEntry_entryToString (hcolon : colon ∉ entry.name) (hid : entry.id < 2 ^ 64) :
    parseEntry (entryToString entry) = some entry := by
  have hne : ∀ c ∈ entry.name, (decide (c ≠ colon)) = true := by
    intro c hc
    rw [decide_eq_true_iff]
    rintro rfl
    exact hcolon hc
  unfold parseEntry entryToString
  rw [List.dropWhile_append_of_pos hne, List.takeWhile_append_of_pos hne,
    List.dropWhile_cons_of_neg (by simp), List.takeWhile_cons_of_neg (by simp), List.drop_one, List.tail_cons,
    stringToInodeId_inodeIdToString hid, List.append_nil]
  rfl

theorem slash_not_mem (hslash : slash ∉ entry.name) : slash ∉ entryToString entry := by
  unfold entryToString
  rw [List.mem_append, List.mem_cons, not_or, not_or]
  refine ⟨hslash, by decide, fun hmem => ?_⟩
  have := mem_inodeIdToString hmem
  revert this
  decide

theorem colon_mem (entry : DirectoryEntry) : colon ∈ entryToString entry := by
  unfold entryToString
  exact List.mem_append_right _ List.mem_cons_self

/-- The text of a directory is cut into the texts of its entries. -/
theorem parseDirectory_eq_mapM (hslash : ∀ e ∈ entries, slash ∉ e.name) :
    parseDirectory (dirListToString entries) = entries.mapM (parseEntry ∘ entryToString) := by
  unfold parseDirectory dirListToString
  obtain rfl | hne := eq_or_ne entries []
  · rfl
  · rw [List.splitOn_intercalate]
    · rw [List.filter_eq_self.mpr, List.mapM_map]
      intro piece hpiece
      obtain ⟨e, -, rfl⟩ := List.mem_map.mp hpiece
      exact decide_eq_true (colon_mem e)
    · intro piece hpiece
      obtain ⟨e, he, rfl⟩ := List.mem_map.mp hpiece
      exact slash_not_mem (hslash e he)
    · simpa using hne

theorem mapM_parseEntry (hcolon : ∀ e ∈ entries, colon ∉ e.name) (hid : ∀ e ∈ entries, e.id < 2 ^ 64) :
    entries.mapM (parseEntry ∘ entryToString) = some entries := by
  induction entries with
  | nil => rfl
  | cons e l ih =>
    rw [List.mapM_cons, Function.comp_apply,
      parseEntry_entryToString (hcolon e List.mem_cons_self) (hid e List.mem_cons_self),
      ih (fun x hx => hcolon x (List.mem_cons_of_mem _ hx)) fun x hx => hid x (List.mem_cons_of_mem _ hx)]
    rfl

theorem parseDirectory_dirListToString (hslash : ∀ e ∈ entries, slash ∉ e.name)
    (hcolon : ∀ e ∈ entries, colon ∉ e.name) (hid : ∀ e ∈ entries, e.id < 2 ^ 64) :
    parseDirectory (dirListToString entries) = some entries := by
  rw [parseDirectory_eq_mapM hslash, mapM_parseEntry hcolon hid]

theorem length_dirListToString_cons (entry : DirectoryEntry) (entries : List DirectoryEntry) :
    (dirListToString (entry :: entries)).length =
      (entryToString entry).length + if entries = [] then 0 else 1 + (dirListToString entries).length := by
  unfold dirListToString
  rw [List.map_cons]
  split
  case isTrue hnil =>
    rw [hnil, List.map_nil, List.intercalate_singleton]
    rfl
  case isFalse hne =>
    rw [List.intercalate_cons_of_ne_nil (by simpa using hne), List.length_append, List.length_append,
      List.length_singleton, Nat.add_assoc]

theorem length_dirListToString_le {entries' : List DirectoryEntry} (h : entries'.Sublist entries) :
    (dirListToString entries').length ≤ (dirListToString entries).length := by
  induction h with
  | slnil => exact Nat.le_refl _
  | cons e h ih =>
    rw [length_dirListToString_cons]
    split
    case isTrue hnil =>
      rw [hnil, List.sublist_nil] at h
      rw [h]
      exact Nat.zero_le _
    case isFalse => omega
  | cons_cons e h ih =>
    rw [length_dirListToString_cons, length_dirListToString_cons]
    apply Nat.add_le_add_left
    split
    case isTrue => exact Nat.zero_le _
    case isFalse hne =>
      rw [if_neg]
      · omega
      · intro hnil
        rw [hnil, List.sublist_nil] at h
        exact hne h

end Codec

section Text

variable {entries : List DirectoryEntry} {name : List UInt8} {id : ℕ}

theorem colon_of_parseEntry {piece : List UInt8} {entry : DirectoryEntry} (h : parseEntry piece = some entry) :
    colon ∉ entry.name := by
  obtain ⟨id, -, heq⟩ := Option.bind_eq_some_iff.mp h
  cases heq
  intro hmem
  have hne := List.mem_takeWhile_imp hmem
  simp at hne

/-- The entries that are read back are those that were written exactly if no
name has a colon. -/
theorem colon_of_mapM (h : entries.mapM (parseEntry ∘ entryToString) = some entries) :
    ∀ e ∈ entries, colon ∉ e.name := by
  induction entries with
  | nil => exact nofun
  | cons e l ih =>
    rw [List.mapM_cons, Option.bind_eq_bind] at h
    obtain ⟨e', he', hrest⟩ := Option.bind_eq_some_iff.mp h
    obtain ⟨l', hl', heq⟩ := Option.bind_eq_some_iff.mp hrest
    cases heq
    exact List.forall_mem_cons.mpr ⟨colon_of_parseEntry he', ih hl'⟩

theorem dirListToString_snoc (hne : entries ≠ []) (e : DirectoryEntry) :
    dirListToString (entries ++ [e]) = dirListToString entries ++ [slash] ++ entryToString e := by
  unfold dirListToString
  induction entries with
  | nil => exact absurd rfl hne
  | cons x l ih =>
    obtain rfl | hl := eq_or_ne l []
    · simp
    · rw [List.cons_append, List.map_cons, List.intercalate_cons_of_ne_nil (by simp), ih hl, List.map_cons,
        List.intercalate_cons_of_ne_nil (by simpa using hl)]
      simp only [List.append_assoc]

theorem appendToDirectory_eq (entries : List DirectoryEntry) (name : List UInt8) (id : ℕ) :
    appendToDirectory (dirListToString entries) name id = dirListToString (entries ++ [⟨name, id⟩]) := by
  unfold appendToDirectory
  obtain rfl | hne := eq_or_ne entries []
  · simp [dirListToString, entryToString]
  · have htext : dirListToString entries ≠ [] := by
      obtain ⟨x, l, rfl⟩ := List.exists_cons_of_ne_nil hne
      intro hnil
      have hlen := length_dirListToString_cons x l
      rw [hnil, entryToString, List.length_append, List.length_cons, List.length_nil] at hlen
      omega
    rw [if_neg htext, dirListToString_snoc hne, entryToString, List.append_assoc]

/-- The laws of the text for a list of entries, a name and an id. -/
structure Codec (entries : List DirectoryEntry) (name : List UInt8) (id : ℕ) : Prop where
  parse : parseDirectory (dirListToString entries) = some entries
  append : parseDirectory (appendToDirectory (dirListToString entries) name id) =
    (parseDirectory (dirListToString entries)).map (· ++ [⟨name, id⟩])
  remove : (rmFromDirectory (dirListToString entries) name).bind parseDirectory =
    (parseDirectory (dirListToString entries)).map (·.filter fun e => e.name ≠ name)

/-- For names without a slash, the laws hold exactly if there is no colon in
them either. -/
theorem codec_iff (hentries : ∀ e ∈ entries, slash ∉ e.name ∧ e.id < 2 ^ 64) (hname : slash ∉ name)
    (hid : id < 2 ^ 64) : Codec entries name id ↔ (∀ e ∈ entries, colon ∉ e.name) ∧ colon ∉ name := by
  have hslash : ∀ e ∈ entries, slash ∉ e.name := fun e he => (hentries e he).1
  have hslash' : ∀ e ∈ entries ++ [⟨name, id⟩], slash ∉ e.name := by
    rw [List.forall_mem_append]
    exact ⟨hslash, List.forall_mem_singleton.mpr hname⟩
  constructor
  · intro h
    have hall := h.append
    rw [h.parse, Option.map_some, appendToDirectory_eq, parseDirectory_eq_mapM hslash'] at hall
    have hcolon := colon_of_mapM hall
    rw [List.forall_mem_append] at hcolon
    exact ⟨hcolon.1, hcolon.2 _ (List.mem_singleton.mpr rfl)⟩
  · rintro ⟨hcolon, hcolon'⟩
    have hparse := parseDirectory_dirListToString hslash hcolon fun e he => (hentries e he).2
    constructor
    case parse => exact hparse
    case append =>
      rw [hparse, appendToDirectory_eq, parseDirectory_dirListToString hslash' ?_ ?_, Option.map_some]
      · rw [List.forall_mem_append]
        exact ⟨hcolon, List.forall_mem_singleton.mpr hcolon'⟩
      · rw [List.forall_mem_append]
        exact ⟨fun e he => (hentries e he).2, List.forall_mem_singleton.mpr hid⟩
    case remove =>
      have hsub : ∀ e ∈ entries.filter (fun e => e.name ≠ name), e ∈ entries := fun e he => (List.mem_filter.mp he).1
      rw [rmFromDirectory, hparse, Option.bind_eq_bind, Option.bind_some, Option.map_some]
      exact parseDirectory_dirListToString (fun e he => hslash e (hsub e he)) (fun e he => hcolon e (hsub e he))
        fun e he => (hentries e (hsub e he)).2

/-- The names `a` and `b`. -/
theorem codec_plain : Codec [⟨[97], 2⟩] [98] 3 :=
  (codec_iff (by decide) (by decide) (by decide)).mpr (by decide)

/-- The name `a:b` is read back as `a`. -/
theorem not_codec_colon : (∀ e ∈ [(⟨[97, 58, 98], 2⟩ : DirectoryEntry)], slash ∉ e.name) ∧
    ¬ Codec [⟨[97, 58, 98], 2⟩] [99] 3 := by
  refine ⟨by decide, fun h => ?_⟩
  have hparse := h.parse
  rw [parseDirectory_eq_mapM (by decide)] at hparse
  exact colon_of_mapM hparse _ (List.mem_singleton.mpr rfl) (by decide)

end Text

end Chfs.Fs.Directory
