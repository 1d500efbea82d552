import Chfs.Fs.Naming

namespace Chfs.Fs.Orphans

open Lib.Effect Lib.Tree Lib.Run Block.Manager Block.Allocator Inode Operations Files Contents Directory Naming

variable {sz cnt logCnt : ℕ}

def mkdir (fo : FileOperation) (parent : ℕ) (name : List UInt8) (now now' : ℕ) : Bm sz cnt logCnt ℕ :=
  mkHelper fo parent name 2 now now'

def mkfile (fo : FileOperation) (parent : ℕ) (name : List UInt8) (now now' : ℕ) : Bm sz cnt logCnt ℕ :=
  mkHelper fo parent name 1 now now'

inductive Call
  | mkdir (parent : ℕ) (name : List UInt8) (now now' : ℕ)
  | mkfile (parent : ℕ) (name : List UInt8) (now now' : ℕ)
  | unlink (parent : ℕ) (name : List UInt8) (now : ℕ)

def Call.step (fo : FileOperation) (s : BlockManager sz cnt logCnt) : Call → Option (BlockManager sz cnt logCnt)
  | .mkdir parent name now now' => (Orphans.mkdir fo parent name now now' s).map Prod.snd
  | .mkfile parent name now now' => (Orphans.mkfile fo parent name now now' s).map Prod.snd
  | .unlink parent name now => (Directory.unlink fo parent name now s).map Prod.snd

def Call.parent : Call → ℕ
  | .mkdir parent .. | .mkfile parent .. | .unlink parent .. => parent

def Call.name : Call → List UInt8
  | .mkdir _ name .. | .mkfile _ name .. | .unlink _ name .. => name

def Call.HasSpace (fo : FileOperation) (s : BlockManager sz cnt logCnt) : Call → Prop
  | .mkdir parent name now now' =>
    (Orphans.mkdir fo parent name now now' s).map Prod.fst ≠ some (.error .outOfResource)
  | .mkfile parent name now now' =>
    (Orphans.mkfile fo parent name now now' s).map Prod.fst ≠ some (.error .outOfResource)
  | .unlink .. => True

structure Call.Proper (fo : FileOperation) (s : BlockManager sz cnt logCnt) (c : Call) : Prop where
  parent : Live fo s c.parent
  name : ValidName c.name
  space : c.HasSpace fo s

/-- What `read_directory` returns, if it returns. -/
def entries (fo : FileOperation) (s : BlockManager sz cnt logCnt) (p : ℕ) : List DirectoryEntry :=
  ((readDirectory fo p s).bind fun out => out.1.toOption).getD []

/-- The object that is removed, if there is one, is not a directory with
entries. -/
def Call.RemovesEmpty (fo : FileOperation) (s : BlockManager sz cnt logCnt) : Call → Prop
  | .mkdir .. | .mkfile .. => True
  | .unlink parent name _ => ∀ e ∈ find (entries fo s parent) name, entries fo s e.id = []

/-- Each inode but the root is named by exactly one entry, in a directory that
the root leads to, and each entry names an inode. -/
structure NoOrphans (fo : FileOperation) (s : BlockManager sz cnt logCnt) : Prop where
  exists_entry : ∀ id, Live fo s id → id ≠ 1 → ∃ p e, Reaches (entries fo s) 1 p ∧ Live fo s p ∧
    e ∈ entries fo s p ∧ e.id = id
  once : ∀ p p' e e', Live fo s p → Live fo s p' → e ∈ entries fo s p → e' ∈ entries fo s p' →
    e.id = e'.id → p = p' ∧ e = e'
  nodup : ∀ p, Live fo s p → (entries fo s p).Nodup
  target : ∀ p, Live fo s p → ∀ e ∈ entries fo s p, Live fo s e.id

/-- The directories of a device are a tree. -/
structure Whole (fo : FileOperation) (s : BlockManager sz cnt logCnt) (files : ℕ → Option File)
    (dirs : ℕ → List DirectoryEntry) : Prop where
  directories : Directories fo s files dirs
  rooted : Rooted (liveOf files) dirs 1
  unread : ∀ p, fo.inodeManager.maxInodeSupported - 1 ≤ p → dirs p = []

section Steps

variable {fo : FileOperation} (hl : Layout fo sz cnt) {s t : BlockManager sz cnt logCnt}
  {files : ℕ → Option File} {dirs : ℕ → List DirectoryEntry} {p id : ℕ} {name : List UInt8}
include hl

omit hl in
theorem entries_of_ok {l : List DirectoryEntry} (h : readDirectory fo p s = some (.ok l, t)) :
    entries fo s p = l := by
  unfold entries
  rw [h, Option.bind_some, Except.toOption, Option.getD_some]

theorem Whole.entries_eq (h : Whole fo s files dirs) (hp : p ∈ liveOf files) : entries fo s p = dirs p := by
  obtain ⟨f, hf⟩ := mem_liveOf.mp hp
  by_cases hlt : p < fo.inodeManager.maxInodeSupported - 1
  · exact entries_of_ok (h.directories.readDirectory hl hf hlt)
  · unfold entries
    rw [h.directories.readDirectory_refused hl hf (by omega), h.unread p (by omega), Option.bind_some,
      Except.toOption, Option.getD_none]

theorem Whole.noOrphans (h : Whole fo s files dirs) : NoOrphans fo s := by
  have hlive : ∀ {id}, Live fo s id ↔ id ∈ liveOf files := live_iff h.directories.inv
  have hentries : ∀ {p}, Live fo s p → entries fo s p = dirs p := fun hp => h.entries_eq hl (hlive.mp hp)
  -- what the entries lead to are inodes
  have hreach : ∀ {x}, Reaches dirs 1 x → x ∈ liveOf files ∧ Reaches (entries fo s) 1 x := by
    intro x hx
    induction hx with
    | root => exact ⟨h.rooted.root_mem, .root⟩
    | entry _ he ih =>
      exact ⟨h.rooted.linked.target _ _ he, ih.2.entry (by rwa [h.entries_eq hl ih.1])⟩
  constructor
  case exists_entry =>
    intro id hid hne
    obtain ⟨p, e, hp, he, heq⟩ := h.rooted.exists_entry (hlive.mp hid) hne
    obtain ⟨hmem, hp'⟩ := hreach hp
    exact ⟨p, e, hp', hlive.mpr hmem, by rwa [h.entries_eq hl hmem], heq⟩
  case once =>
    intro p p' e e' hp hp' he he' heq
    rw [hentries hp] at he
    rw [hentries hp'] at he'
    exact h.rooted.linked.once p p' e he e' he' heq
  case nodup =>
    intro p hp
    rw [hentries hp]
    exact h.rooted.linked.nodup p
  case target =>
    intro p hp e he
    rw [hentries hp] at he
    exact hlive.mpr (h.rooted.linked.target p e he)

theorem Whole.mkHelper (h : Whole fo s files dirs) (hp : Live fo s p) (hname : ValidName name)
    {type now now' : ℕ} {r : Except ErrorType ℕ} (hrun : mkHelper fo p name type now now' s = some (r, t))
    (hspace : r ≠ .error .outOfResource) : ∃ files dirs, Whole fo t files dirs := by
  have hmem := (live_iff h.directories.inv).mp hp
  obtain ⟨f, hf⟩ := mem_liveOf.mp hmem
  by_cases hlt : p < fo.inodeManager.maxInodeSupported - 1
  · cases he : find (dirs p) name with
    | some e =>
      cases (mkHelper_listed hl h.directories hf hlt he type now now').symm.trans hrun
      exact ⟨files, dirs, h⟩
    | none =>
      have hmade := (mkHelper_spec hl h.directories hf hlt hname he type now now').of_eq hrun
      cases r with
      | error e => exact absurd (congrArg Except.error hmade.1) hspace
      | ok id =>
        obtain ⟨hid, files', hlive, hdirs⟩ := hmade
        refine ⟨files', link dirs p ⟨name, id⟩, hdirs, ?_, fun x hx => ?_⟩
        · rw [hlive]
          refine h.rooted.link hmem ?_ (find_eq_none.mp he)
          rw [mem_liveOf, hid.free]
          simp
        · rw [link, Function.update_of_ne (by omega), h.unread x hx]
  · have herr : Directory.mkHelper fo p name type now now' s = _ :=
      bind_error (h.directories.readDirectory_refused hl hf (by omega))
    cases herr.symm.trans hrun
    exact ⟨files, dirs, h⟩

omit hl in
/-- An inode without entries has no blocks. -/
theorem Whole.indirect {g : File} (h : Whole fo s files dirs) (hg : files id = some g) (hnil : dirs id = []) :
    g.indirect = invalidBlockId := by
  have hhold := h.directories.inv.holds id g hg (Set.notMem_empty _)
  have htext := h.directories.text id g hg
  rw [hhold.indirect, hhold.count, htext, hnil]
  exact (Nat.le_of_eq (by rw [calculateBlockSz]; simp [dirListToString])).trans (Nat.zero_le _)

theorem Whole.unlink (h : Whole fo s files dirs) (hp : Live fo s p) {now : ℕ}
    (hempty : ∀ e ∈ find (entries fo s p) name, entries fo s e.id = []) {r : Except ErrorType Unit}
    (hrun : unlink fo p name now s = some (r, t)) : ∃ files dirs, Whole fo t files dirs := by
  have hmem := (live_iff h.directories.inv).mp hp
  obtain ⟨f, hf⟩ := mem_liveOf.mp hmem
  rw [h.entries_eq hl hmem] at hempty
  by_cases hr : p < fo.inodeManager.maxInodeSupported - 1 → ∀ e ∈ find (dirs p) name,
      fo.inodeManager.maxInodeSupported - 1 ≤ e.id
  · obtain ⟨e, herr⟩ := unlink_refused hl h.directories hf hr now
    cases herr.symm.trans hrun
    exact ⟨files, dirs, h⟩
  · push Not at hr
    obtain ⟨hlt, e, he, hlte⟩ := hr
    have hlive := h.rooted.linked.target p e (find_eq_some he).1
    have hnil : dirs e.id = [] := by
      rw [← h.entries_eq hl hlive]
      exact hempty e he
    obtain ⟨t', hrun', files', hfiles, hdirs⟩ := unlink_spec hl h.directories hf hlt he hlte
      (fun g hg => h.indirect hg hnil) now
    cases hrun'.symm.trans hrun
    refine ⟨files', cut dirs p name, hdirs, ?_, fun x hx => ?_⟩
    · rw [hfiles]
      exact h.rooted.cut he hnil
    · rw [List.eq_nil_iff_forall_not_mem]
      intro e' he'
      have hin := ((mem_cut h.rooted.linked he).mp he').2.2
      rw [h.unread x hx] at hin
      exact List.not_mem_nil hin

theorem Whole.step (h : Whole fo s files dirs) {c : Call} (hc : c.Proper fo s) (hempty : c.RemovesEmpty fo s)
    (hstep : c.step fo s = some t) : ∃ files dirs, Whole fo t files dirs := by
  obtain ⟨hp, hname, hspace⟩ := hc
  cases c with
  | mkdir p name now now' | mkfile p name now now' =>
    rw [Call.step, Option.map_eq_some_iff] at hstep
    obtain ⟨⟨r, t'⟩, hrun, rfl⟩ := hstep
    refine h.mkHelper hl hp hname hrun fun heq => hspace ?_
    rw [hrun, heq]
    rfl
  | unlink p name now =>
    rw [Call.step, Option.map_eq_some_iff] at hstep
    obtain ⟨⟨r, t'⟩, hrun, rfl⟩ := hstep
    exact h.unlink hl hp hempty hrun

end Steps

section Runs

variable {n : ℕ} (hd : Dimensions sz cnt n) {fo : FileOperation} {s₀ s : BlockManager sz cnt logCnt}
include hd

theorem whole_of_start (h : Start n fo s) : Layout fo sz cnt ∧ ∃ files, Whole fo s files fun _ => [] := by
  obtain ⟨hl, files, hlive, hdirs⟩ := directories_of_start hd h
  refine ⟨hl, files, hdirs, ⟨hdirs.linked, ?_, fun q hq => ?_, fun p e he => ?_⟩, fun _ _ => rfl⟩
  · rw [hlive]
    exact Set.mem_singleton 1
  · rw [hlive, Set.mem_singleton_iff] at hq
    rw [hq]
    exact .root
  · exact absurd he List.not_mem_nil

/-- As long as only objects without entries are removed, the directories are a
tree. -/
theorem noOrphans_of_reach (h₀ : Start n fo s₀)
    (hreach : Reach (fun s c => Call.step fo s c) (fun s c => c.Proper fo s ∧ c.RemovesEmpty fo s) s₀ s) :
    NoOrphans fo s := by
  obtain ⟨hl, files₀, h⟩ := whole_of_start hd h₀
  obtain ⟨⟨files, dirs⟩, hwhole⟩ := hreach.invariant_ghost (I := fun s g => Whole fo s g.1 g.2)
    (files₀, fun _ => []) h fun s c t g hs hc hstep => by
      obtain ⟨files, dirs, hw⟩ := Whole.step hl hs hc.1 hc.2 hstep
      exact ⟨(files, dirs), hw⟩
  exact hwhole.noOrphans hl

end Runs

def Call.hasSpace (fo : FileOperation) (s : BlockManager sz cnt logCnt) : Call → Bool
  | .mkdir parent name now now' =>
    (Orphans.mkdir fo parent name now now' s).map Prod.fst ≠ some (.error .outOfResource)
  | .mkfile parent name now now' =>
    (Orphans.mkfile fo parent name now now' s).map Prod.fst ≠ some (.error .outOfResource)
  | .unlink .. => true

def Call.proper (fo : FileOperation) (s : BlockManager sz cnt logCnt) (c : Call) : Bool :=
  (1 ≤ c.parent ∧ c.parent ≤ fo.inodeManager.maxInodeSupported ∧ fo.inodeManager.taken s c.parent = true) ∧
    (slash ∉ c.name ∧ colon ∉ c.name ∧ 0 ∉ c.name) ∧ c.hasSpace fo s = true

def Call.removesEmpty (fo : FileOperation) (s : BlockManager sz cnt logCnt) : Call → Bool
  | .mkdir .. | .mkfile .. => true
  | .unlink parent name _ => (find (entries fo s parent) name).all fun e => (entries fo s e.id).isEmpty

theorem Call.proper_of {fo : FileOperation} (s : BlockManager sz cnt logCnt) (c : Call)
    (h : c.proper fo s = true) : c.Proper fo s := by
  rw [Call.proper, decide_eq_true_eq] at h
  obtain ⟨⟨h1, h2, h3⟩, ⟨h4, h5, h6⟩, h7⟩ := h
  refine ⟨⟨⟨h1, h2⟩, h3⟩, ⟨h4, h5, h6⟩, ?_⟩
  cases c with
  | mkdir | mkfile =>
    rw [Call.hasSpace, decide_eq_true_eq] at h7
    exact h7
  | unlink => trivial

theorem Call.removesEmpty_of {fo : FileOperation} (s : BlockManager sz cnt logCnt) (c : Call)
    (h : c.removesEmpty fo s = true) : c.RemovesEmpty fo s := by
  cases c with
  | mkdir | mkfile => trivial
  | unlink p name now =>
    intro e he
    rw [Call.removesEmpty, Option.all_eq_true] at h
    exact List.isEmpty_iff.mp (h e he)

theorem dimensions_orphans : Dimensions 64 80 1 := by
  constructor <;> decide

def sample (allowed : BlockManager 64 80 0 → Call → Bool) (calls : List Call) : Option (BlockManager 64 80 0) :=
  (FileOperation.create 1 (BlockManager.zeroed 64 80 0)).bind fun out =>
    ((FileOperation.fields 64 80 1).allocInode 2 5 out.2).bind fun out' =>
      if out'.1 = .ok 1 then execOk (Call.step (FileOperation.fields 64 80 1)) allowed out'.2 calls else none

theorem reach_of_sample {allowed : BlockManager 64 80 0 → Call → Bool}
    {ok : BlockManager 64 80 0 → Call → Prop} (hok : ∀ s c, allowed s c = true → ok s c) {calls : List Call}
    {s : BlockManager 64 80 0} (h : sample allowed calls = some s) :
    ∃ s₀, Start 1 (FileOperation.fields 64 80 1) s₀ ∧
      Reach (Call.step (FileOperation.fields 64 80 1)) ok s₀ s := by
  obtain ⟨s₁, hcreate, -⟩ := create_spec dimensions_orphans (s := BlockManager.zeroed 64 80 0) rfl
  unfold sample at h
  rw [hcreate, Option.bind_some] at h
  obtain ⟨⟨r, s₀⟩, halloc, h⟩ := Option.bind_eq_some_iff.mp h
  split at h
  case isTrue hr =>
    obtain rfl : r = .ok 1 := hr
    exact ⟨s₀, ⟨_, s₁, 5, rfl, hcreate, halloc⟩, reach_of_execOk hok h⟩
  case isFalse => cases h

def emptiedCalls : List Call :=
  [.mkdir 1 [97] 6 7, .mkfile 2 [98] 6 7, .unlink 2 [98] 8, .unlink 1 [97] 8, .mkfile 1 [99] 6 7]

def orphanCalls : List Call := [.mkdir 1 [97] 6 7, .mkfile 2 [98] 6 7, .unlink 1 [97] 8]

theorem noOrphans_emptied : ∃ s₀ s : BlockManager 64 80 0, Start 1 (FileOperation.fields 64 80 1) s₀ ∧
    Reach (Call.step (FileOperation.fields 64 80 1)) (fun s c => c.Proper (FileOperation.fields 64 80 1) s ∧
      c.RemovesEmpty (FileOperation.fields 64 80 1) s) s₀ s ∧
    entries (FileOperation.fields 64 80 1) s 1 = [⟨[99], 2⟩] ∧
    NoOrphans (FileOperation.fields 64 80 1) s := by
  have hrun : (sample (fun s c => c.proper (FileOperation.fields 64 80 1) s &&
      c.removesEmpty (FileOperation.fields 64 80 1) s) emptiedCalls).map
        (fun s => entries (FileOperation.fields 64 80 1) s 1) = some [⟨[99], 2⟩] := by decide +kernel
  obtain ⟨s, hs, hentries⟩ := Option.map_eq_some_iff.mp hrun
  have hok : ∀ (s : BlockManager 64 80 0) (c : Call), (c.proper (FileOperation.fields 64 80 1) s &&
      c.removesEmpty (FileOperation.fields 64 80 1) s) = true → c.Proper (FileOperation.fields 64 80 1) s ∧
        c.RemovesEmpty (FileOperation.fields 64 80 1) s := by
    intro s c hc
    rw [Bool.and_eq_true] at hc
    exact ⟨Call.proper_of s c hc.1, Call.removesEmpty_of s c hc.2⟩
  obtain ⟨s₀, hstart, hreach⟩ := reach_of_sample hok hs
  exact ⟨s₀, s, hstart, hreach, hentries, noOrphans_of_reach dimensions_orphans hstart hreach⟩

theorem not_noOrphans_orphan : ∃ s₀ s : BlockManager 64 80 0, Start 1 (FileOperation.fields 64 80 1) s₀ ∧
    Reach (Call.step (FileOperation.fields 64 80 1)) (fun s c => c.Proper (FileOperation.fields 64 80 1) s)
      s₀ s ∧ ¬ NoOrphans (FileOperation.fields 64 80 1) s := by
  have hrun : (sample (fun s c => c.proper (FileOperation.fields 64 80 1) s) orphanCalls).map
      (fun s => ((FileOperation.fields 64 80 1).inodeManager.taken s 3,
        (List.range 513).all fun p => !(FileOperation.fields 64 80 1).inodeManager.taken s p ||
          (entries (FileOperation.fields 64 80 1) s p).all fun e => e.id ≠ 3)) = some (true, true) := by
    decide +kernel
  obtain ⟨s, hs, heval⟩ := Option.map_eq_some_iff.mp hrun
  obtain ⟨htaken, hall⟩ := Prod.mk.inj heval
  obtain ⟨s₀, hstart, hreach⟩ := reach_of_sample Call.proper_of hs
  refine ⟨s₀, s, hstart, hreach, fun h => ?_⟩
  -- the file is still allocated, and no entry of any inode names it
  obtain ⟨p, e, -, hp, he, heq⟩ := h.exists_entry 3 ⟨⟨by decide, by decide⟩, htaken⟩ (by decide)
  have hlt : p < 513 := Nat.lt_succ_of_le hp.1.2
  have hnot := List.all_eq_true.mp hall p (List.mem_range.mpr hlt)
  rw [hp.2, Bool.not_true, Bool.false_or, List.all_eq_true] at hnot
  exact of_decide_eq_true (hnot e he) heq

end Chfs.Fs.Orphans
