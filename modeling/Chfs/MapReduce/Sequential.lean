import Chfs.MapReduce.Job

namespace Chfs.MapReduce.Sequential

open Lib.Sorting Words

section Loops

def swap (kvs : List KeyVal) (i j : ℕ) : Option (List KeyVal) := do
  let a ← kvs[i]?
  let b ← kvs[j]?
  some ((kvs.set i b).set j a)

def sweepFrom (i : ℕ) : ℕ → ℕ → List KeyVal → Option (List KeyVal)
  | 0, _, kvs => some kvs
  | k + 1, j, kvs => do
    let a ← kvs[j]?
    let b ← kvs[i]?
    let kvs ← if a.key < b.key then swap kvs i j else some kvs
    sweepFrom i k (j + 1) kvs

def sortFrom : ℕ → ℕ → List KeyVal → Option (List KeyVal)
  | 0, _, kvs => some kvs
  | k + 1, i, kvs => do
    let kvs ← sweepFrom i k (i + 1) kvs
    sortFrom k (i + 1) kvs

/-- The inner loop of the grouping. There is no result where the fuel ends. -/
def collect (kvs : List KeyVal) (totalIdx : ℕ) : ℕ → ℕ → List Text → Option (ℕ × List Text)
  | 0, _, _ => none
  | fuel + 1, endIdx, values =>
    -- `total_idx` is not 0 here
    if endIdx < totalIdx - 1 then do
      let a ← kvs[endIdx]?
      let b ← kvs[endIdx + 1]?
      if a.key = b.key then collect kvs totalIdx fuel (endIdx + 1) (values ++ [a.val])
      else some (endIdx, values)
    else some (endIdx, values)

def group (kvs : List KeyVal) (totalIdx : ℕ) : ℕ → ℕ → ℕ → List KeyVal → Option (List KeyVal)
  | 0, _, _, _ => none
  | fuel + 1, startIdx, endIdx, resKvs =>
    if endIdx < totalIdx then do
      let key ← (kvs[startIdx]?).map KeyVal.key
      let (endIdx, values) ← collect kvs totalIdx (totalIdx + 1) endIdx []
      let last ← kvs[endIdx]?
      let reduceRes ← reduceValues (values ++ [last.val])
      group kvs totalIdx fuel (endIdx + 1) (endIdx + 1) (resKvs ++ [⟨key, reduceRes⟩])
    else some resKvs

/-- `doWork` on what it reads. The indices of the sort are of type `int`. -/
def doWork (contents : List Text) : Option Text := do
  let kvs := contents.flatMap mapContent
  if kvs.length < 2 ^ 31 then
    let kvs ← sortFrom kvs.length 0 kvs
    let resKvs ← group kvs kvs.length (kvs.length + 1) 0 0 []
    some (render resKvs)
  else none

end Loops

section Refinement

variable {pre mid l rest run : List KeyVal} {x y last : KeyVal} {vals : List Text}

theorem getElem?_mid : (pre ++ x :: l)[pre.length]? = some x := by
  rw [List.getElem?_append_right (Nat.le_refl _), Nat.sub_self, List.getElem?_cons_zero]

theorem swap_eq : swap (pre ++ x :: mid ++ y :: rest) pre.length (pre.length + 1 + mid.length) =
    some (pre ++ y :: (mid ++ [x]) ++ rest) := by
  have hj : pre.length + 1 + mid.length = (pre ++ x :: mid).length := by
    rw [List.length_append, List.length_cons]
    omega
  have hx : (pre ++ x :: mid ++ y :: rest)[pre.length]? = some x := by
    rw [List.append_assoc, List.cons_append]
    exact getElem?_mid
  have hj' : pre.length + 1 + mid.length = (pre ++ y :: mid).length := by
    rw [List.length_append, List.length_cons]
    omega
  have hset : (pre ++ x :: mid ++ y :: rest).set pre.length y = pre ++ y :: mid ++ y :: rest := by
    rw [List.append_assoc, List.cons_append, List.set_append_right _ _ (Nat.le_refl _), Nat.sub_self,
      List.set_cons_zero, List.append_assoc, List.cons_append]
  rw [swap, hx, Option.bind_eq_bind, Option.bind_some, hj, getElem?_mid, Option.bind_some, hset, ← hj, hj',
    List.set_append_right _ _ (Nat.le_refl _), Nat.sub_self,
    List.set_cons_zero, List.append_assoc, List.append_assoc, List.cons_append, List.cons_append,
    List.append_assoc, List.singleton_append]

theorem sweepFrom_eq (pre mid : List KeyVal) (x : KeyVal) (rest : List KeyVal) :
    sweepFrom pre.length rest.length (pre.length + 1 + mid.length) (pre ++ x :: mid ++ rest) =
      some (pre ++ (sweep KeyVal.key x rest).1 :: mid ++ (sweep KeyVal.key x rest).2) := by
  induction rest generalizing x mid with
  | nil => rfl
  | cons y ys ih =>
    have hj : pre.length + 1 + mid.length = (pre ++ x :: mid).length := by
      rw [List.length_append, List.length_cons]
      omega
    have hx : (pre ++ x :: mid ++ y :: ys)[pre.length]? = some x := by
      rw [List.append_assoc, List.cons_append]
      exact getElem?_mid
    have hy : (pre ++ x :: mid ++ y :: ys)[pre.length + 1 + mid.length]? = some y := by
      rw [hj]
      exact getElem?_mid
    have hnext : ∀ z, pre.length + 1 + mid.length + 1 = pre.length + 1 + (mid ++ [z]).length := by
      intro z
      rw [List.length_append, List.length_singleton]
      omega
    rw [List.length_cons, sweepFrom, hy, Option.bind_eq_bind, Option.bind_some, hx, Option.bind_eq_bind,
      Option.bind_some, sweep]
    by_cases hlt : y.key < x.key
    · rw [if_pos hlt, if_pos hlt, swap_eq, Option.bind_some, hnext x]
      refine (ih _ _).trans ?_
      simp only [List.append_assoc, List.cons_append, List.nil_append]
    · rw [if_neg hlt, if_neg hlt, Option.bind_some, hnext y]
      have hassoc : pre ++ x :: mid ++ y :: ys = pre ++ x :: (mid ++ [y]) ++ ys := by
        simp only [List.append_assoc, List.cons_append, List.nil_append]
      rw [hassoc]
      refine (ih _ _).trans ?_
      simp only [List.append_assoc, List.cons_append, List.nil_append]

theorem sortFrom_eq (pre l : List KeyVal) : sortFrom l.length pre.length (pre ++ l) =
    some (pre ++ exchangeSort KeyVal.key l.length l) := by
  generalize hn : l.length = n
  induction n generalizing pre l with
  | zero => rw [List.length_eq_zero_iff.mp hn, sortFrom, exchangeSort]
  | succ n ih =>
    cases l with
    | nil => cases hn
    | cons x xs =>
      have hn' : xs.length = n := Nat.succ.inj hn
      have hsweep := sweepFrom_eq pre [] x xs
      rw [List.length_nil, Nat.add_zero, hn', List.append_assoc, List.cons_append, List.nil_append] at hsweep
      have hrest := ih (pre ++ [(sweep KeyVal.key x xs).1]) (sweep KeyVal.key x xs).2
        (length_sweep.trans hn')
      rw [List.length_append, List.length_singleton, List.append_assoc, List.singleton_append] at hrest
      rw [sortFrom, hsweep, Option.bind_eq_bind, Option.bind_some, List.append_assoc, List.cons_append,
        List.nil_append, hrest, exchangeSort, List.append_assoc, List.singleton_append]

theorem length_mid : (pre ++ x :: l).length = pre.length + l.length + 1 := by
  rw [List.length_append, List.length_cons]
  rfl

/-- The inner loop of the grouping stops at the last element of the run, whose
value is still missing. -/
theorem collect_eq (pre : List KeyVal) (x : KeyVal) (l : List KeyVal) (vals : List Text) {fuel : ℕ}
    (hfuel : l.length < fuel) : ∃ endIdx values last,
    collect (pre ++ x :: l) (pre ++ x :: l).length fuel pre.length vals = some (endIdx, values) ∧
    (pre ++ x :: l)[endIdx]? = some last ∧
    values ++ [last.val] = vals ++ (takeRun KeyVal.key x l).1.map KeyVal.val ∧
    endIdx + 1 = pre.length + (takeRun KeyVal.key x l).1.length := by
  induction l generalizing pre x vals fuel with
  | nil =>
    obtain ⟨fuel, rfl⟩ := Nat.exists_eq_succ_of_ne_zero (Nat.ne_zero_of_lt hfuel)
    refine ⟨pre.length, vals, x, ?_, getElem?_mid, rfl, rfl⟩
    rw [collect, if_neg]
    rw [length_mid, List.length_nil]
    omega
  | cons y ys ih =>
    obtain ⟨fuel, rfl⟩ := Nat.exists_eq_succ_of_ne_zero (Nat.ne_zero_of_lt hfuel)
    have hassoc : pre ++ x :: y :: ys = (pre ++ [x]) ++ y :: ys := by
      rw [List.append_assoc, List.singleton_append]
    have hnext : pre.length + 1 = (pre ++ [x]).length := by
      rw [List.length_append, List.length_singleton]
    have hy : (pre ++ x :: y :: ys)[pre.length + 1]? = some y := by
      rw [hassoc, hnext]
      exact getElem?_mid
    have hlt : pre.length < (pre ++ x :: y :: ys).length - 1 := by
      rw [length_mid, List.length_cons]
      omega
    rw [takeRun]
    by_cases hkey : x.key = y.key
    · rw [List.length_cons] at hfuel
      obtain ⟨endIdx, values, last, hcollect, hlast, hvalues, hend⟩ :=
        ih (pre ++ [x]) y (vals ++ [x.val]) (by omega : ys.length < fuel)
      rw [← hassoc] at hcollect hlast
      refine ⟨endIdx, values, last, ?_, hlast, ?_, ?_⟩
      · rw [collect, if_pos hlt, getElem?_mid, Option.bind_eq_bind, Option.bind_some, hy,
          Option.bind_some, if_pos hkey, hnext, hcollect]
      · rw [hvalues, if_pos hkey, List.map_cons, List.append_assoc, List.singleton_append]
      · rw [if_pos hkey, List.length_cons, hend, ← hnext]
        omega
    · refine ⟨pre.length, vals, x, ?_, getElem?_mid, ?_, ?_⟩
      · rw [collect, if_pos hlt, getElem?_mid, Option.bind_eq_bind, Option.bind_some, hy,
          Option.bind_some, if_neg hkey]
      · rw [if_neg hkey]
        rfl
      · rw [if_neg hkey]
        rfl

theorem group_eq (pre l rest : List KeyVal) {fuel n : ℕ} (hfuel : l.length < fuel) (hn : l.length ≤ n) :
    group (pre ++ l) (pre ++ l).length fuel pre.length pre.length rest =
      (reduceRuns n l).map (rest ++ ·) := by
  induction fuel generalizing pre l rest n with
  | zero => cases hfuel
  | succ fuel ih =>
    cases l with
    | nil =>
      have hruns : reduceRuns n [] = some [] := by
        cases n with
        | zero => rfl
        | succ n => rfl
      rw [hruns, group, if_neg (by simp), Option.map_some, List.append_nil]
    | cons x xs =>
      obtain ⟨n, rfl⟩ := Nat.exists_eq_succ_of_ne_zero (Nat.ne_zero_of_lt hn)
      obtain ⟨endIdx, values, last, hcollect, hlast, hvalues, hend⟩ :=
        collect_eq pre x xs [] (by rw [length_mid]; omega : xs.length < (pre ++ x :: xs).length + 1)
      have happ := takeRun_append KeyVal.key x xs
      have hne := List.length_pos_iff.mpr (takeRun_ne_nil KeyVal.key x xs)
      have hlen := congrArg List.length happ
      rw [List.length_append, List.length_cons] at hlen
      rw [List.length_cons] at hfuel hn
      rw [List.nil_append] at hvalues
      have hassoc : pre ++ x :: xs =
          (pre ++ (takeRun KeyVal.key x xs).1) ++ (takeRun KeyVal.key x xs).2 := by
        rw [List.append_assoc, happ]
      have hidx : endIdx + 1 = (pre ++ (takeRun KeyVal.key x xs).1).length := by
        rw [List.length_append, hend]
      have hlt : pre.length < (pre ++ x :: xs).length := by
        rw [length_mid]
        omega
      rw [group, if_pos hlt, getElem?_mid, Option.map_some, Option.bind_eq_bind, Option.bind_some, hcollect,
        Option.bind_eq_bind, Option.bind_some]
      simp only [hlast, Option.bind_eq_bind, Option.bind_some, hvalues]
      rw [reduceRuns]
      simp only [Option.bind_eq_bind]
      cases reduceValues ((takeRun KeyVal.key x xs).1.map KeyVal.val) with
      | none => rfl
      | some res =>
        rw [Option.bind_some, Option.bind_some, hassoc, hidx, ih _ _ _ (by omega) (by omega : _ ≤ n)]
        cases reduceRuns n (takeRun KeyVal.key x xs).2 with
        | none => rfl
        | some rest' =>
          rw [Option.map_some, Option.bind_some, Option.map_some, List.append_assoc, List.singleton_append]

theorem doWork_eq {contents : List Text} (h : (contents.flatMap mapContent).length < 2 ^ 31) :
    doWork contents = (reduceRuns (contents.flatMap mapContent).length
      (exchangeSort KeyVal.key (contents.flatMap mapContent).length (contents.flatMap mapContent))).map
        render := by
  have hsort := sortFrom_eq [] (contents.flatMap mapContent)
  have hlen : (exchangeSort KeyVal.key (contents.flatMap mapContent).length
      (contents.flatMap mapContent)).length = (contents.flatMap mapContent).length :=
    (exchangeSort_perm _ _).length_eq
  simp only [List.nil_append, List.length_nil] at hsort
  have hgroup := group_eq []
    (exchangeSort KeyVal.key (contents.flatMap mapContent).length (contents.flatMap mapContent)) []
    (Nat.lt_succ_self _) hlen.le
  simp only [List.nil_append, List.length_nil] at hgroup
  rw [doWork]
  simp only [h, if_true, hsort, Option.bind_eq_bind, Option.bind_some, hgroup, Option.map_id_fun', id_eq]
  rw [Option.map_eq_bind]
  rfl

theorem job_doWork_eq {store : Job.Store} {files : List String}
    (h : (files.flatMap fun file => mapContent (Job.getContentFromFile store file)).length < 2 ^ 31) :
    Job.doWork store files = doWork (files.map (Job.getContentFromFile store)) := by
  have hmap : (files.map (Job.getContentFromFile store)).flatMap mapContent =
      files.flatMap fun file => mapContent (Job.getContentFromFile store file) := List.flatMap_map ..
  rw [doWork_eq (by rw [hmap]; exact h), hmap, Job.doWork, Option.map_eq_bind]
  rfl

end Refinement

section Spec

variable {content cur a b w : Text} {c : Char} {i : ℕ}

/-- The maximal run of letters that starts at a position. -/
def wordAt (content : Text) (i : ℕ) : Option Text :=
  let word := (content.drop i).takeWhile Char.isAlpha
  if word = [] ∨ (content.take i).getLast?.any Char.isAlpha = true then none else some word

def words (content : Text) : List Text := (List.range content.length).filterMap (wordAt content)

theorem wordAt_iff : wordAt content i = some w ↔ ∃ a b, content = a ++ w ++ b ∧ a.length = i ∧ w ≠ [] ∧
    (∀ c ∈ w, c.isAlpha = true) ∧ (∀ c ∈ a.getLast?, c.isAlpha = false) ∧ ∀ c ∈ b.head?, c.isAlpha = false := by
  unfold wordAt
  constructor
  · intro h
    simp only at h
    split at h
    case isTrue => cases h
    case isFalse hnot =>
      obtain ⟨hne, hbefore⟩ := not_or.mp hnot
      have hi : i ≤ content.length := by
        by_contra hlt
        exact hne (by rw [List.drop_eq_nil_of_le (by omega), List.takeWhile_nil])
      cases h
      refine ⟨content.take i, (content.drop i).dropWhile Char.isAlpha, ?_, List.length_take_of_le hi, hne, ?_, ?_, ?_⟩
      · rw [List.append_assoc, List.takeWhile_append_dropWhile, List.take_append_drop]
      · exact fun c hc => List.mem_takeWhile_imp hc
      · intro c hc
        rw [Option.mem_def.mp hc] at hbefore
        simpa using hbefore
      · intro c hc
        have hhead := List.head?_dropWhile_not Char.isAlpha (content.drop i)
        rw [Option.mem_def.mp hc] at hhead
        simpa using hhead
  · rintro ⟨a, b, rfl, rfl, hne, hw, ha, hb⟩
    have hword : ((a ++ w ++ b).drop a.length).takeWhile Char.isAlpha = w := by
      rw [List.append_assoc, List.drop_left, List.takeWhile_append_of_pos hw]
      cases b with
      | nil => rw [List.takeWhile_nil, List.append_nil]
      | cons x xs =>
        rw [List.takeWhile_cons_of_neg (by rw [hb x rfl]; exact Bool.false_ne_true), List.append_nil]
    have hbefore : ¬ ((a ++ w ++ b).take a.length).getLast?.any Char.isAlpha = true := by
      rw [List.append_assoc, List.take_left]
      cases hlast : a.getLast? with
      | none => exact Bool.false_ne_true
      | some x =>
        rw [Option.any_some, ha x hlast]
        exact Bool.false_ne_true
    simp only [hword]
    exact if_neg (not_or.mpr ⟨hne, hbefore⟩)

theorem wordAt_append (ha : i < a.length) (hc : c.isAlpha = false) : wordAt (a ++ c :: b) i = wordAt a i := by
  have htake : ∀ l : Text, (l ++ c :: b).takeWhile Char.isAlpha = l.takeWhile Char.isAlpha := by
    intro l
    induction l with
    | nil => exact List.takeWhile_cons_of_neg (by rw [hc]; exact Bool.false_ne_true)
    | cons x xs ih => rw [List.cons_append, List.takeWhile_cons, List.takeWhile_cons, ih]
  unfold wordAt
  rw [List.drop_append_of_le_length ha.le, List.take_append_of_le_length ha.le, htake]

theorem wordAt_shift (hc : c.isAlpha = false) : wordAt (a ++ c :: b) (a.length + (1 + i)) = wordAt b i := by
  have hlast : ((a ++ c :: b).take (a.length + (1 + i))).getLast?.any Char.isAlpha =
      (b.take i).getLast?.any Char.isAlpha := by
    rw [List.take_length_add_append, Nat.add_comm 1 i, List.take_succ_cons, List.getLast?_append_of_ne_nil,
      List.getLast?_cons]
    · cases (b.take i).getLast? with
      | none => exact hc
      | some x => rfl
    · exact List.cons_ne_nil _ _
  unfold wordAt
  rw [hlast, List.drop_length_add_append, Nat.add_comm 1 i, List.drop_succ_cons]

theorem words_append (a b : Text) (hc : c.isAlpha = false) : words (a ++ c :: b) = words a ++ words b := by
  have hmid : wordAt (a ++ c :: b) a.length = none := by
    unfold wordAt
    rw [List.drop_left, List.takeWhile_cons_of_neg (by rw [hc]; exact Bool.false_ne_true)]
    exact if_pos (Or.inl rfl)
  unfold words
  rw [List.length_append, List.length_cons, Nat.add_comm b.length 1, List.range_add, List.filterMap_append,
    List.range_add, List.map_append, List.filterMap_append]
  congr 1
  · exact List.filterMap_congr fun i hi => wordAt_append (List.mem_range.mp hi) hc
  · rw [List.range_one, List.map_singleton, Nat.add_zero, List.filterMap_cons_none hmid, List.filterMap_nil,
      List.nil_append, List.map_map, List.filterMap_map]
    exact List.filterMap_congr fun i _ => wordAt_shift hc

theorem words_letters (h : ∀ c ∈ cur, c.isAlpha = true) : words cur = if cur = [] then [] else [cur] := by
  cases cur with
  | nil => rfl
  | cons x xs =>
    have hfirst : wordAt (x :: xs) 0 = some (x :: xs) := by
      unfold wordAt
      rw [List.drop_zero, List.takeWhile_eq_self_iff.mpr h]
      exact if_neg (by simp)
    have hlater : ∀ i, wordAt (x :: xs) (i + 1) = none := by
      intro i
      unfold wordAt
      rw [if_pos (Or.inr _)]
      rw [List.take_succ_cons, List.getLast?_cons, Option.any_some]
      apply h
      cases hlast : (xs.take i).getLast? with
      | none => exact List.mem_cons_self
      | some y =>
        exact List.mem_cons_of_mem x (List.mem_of_mem_take (List.mem_of_getLast? hlast))
    have hnone : (List.range xs.length).filterMap (wordAt (x :: xs) ∘ Nat.succ) = [] :=
      List.filterMap_eq_nil_iff.mpr fun i _ => hlater i
    rw [words, List.length_cons, List.range_succ_eq_map, List.filterMap_cons_some hfirst, List.filterMap_map,
      hnone, if_neg (List.cons_ne_nil _ _)]

def once (w : Text) : KeyVal := ⟨w, ['1']⟩

/-- `Map` gives one entry for each word of a file, in their order. -/
theorem mapFrom_eq (h : ∀ c ∈ cur, c.isAlpha = true) : mapFrom cur content = (words (cur ++ content)).map once := by
  have hentry : ∀ {word : Text}, (∀ c ∈ word, c.isAlpha = true) → wordEntry word = (words word).map once := by
    intro word hword
    rw [words_letters hword, wordEntry]
    split
    · rfl
    · rfl
  induction content generalizing cur with
  | nil => rw [mapFrom, hentry h, List.append_nil]
  | cons c cs ih =>
    rw [mapFrom]
    cases hc : c.isAlpha with
    | true =>
      have hnext : ∀ x ∈ cur ++ [c], x.isAlpha = true := by
        intro x hx
        obtain hx | hx := List.mem_append.mp hx
        · exact h x hx
        · exact List.mem_singleton.mp hx ▸ hc
      rw [if_neg (by decide), ih hnext, List.append_assoc, List.singleton_append]
    | false =>
      rw [if_pos (by decide), words_append cur cs hc, List.map_append, hentry h, ih fun c hc => by cases hc]
      rfl

theorem mapContent_eq (content : Text) : mapContent content = (words content).map once :=
  mapFrom_eq fun c hc => by cases hc

theorem total_once (ws : List Text) (w : Text) : total (ws.map once) w = ws.count w := by
  induction ws with
  | nil => rfl
  | cons x xs ih =>
    have hcons : total ((x :: xs).map once) w = (if x = w then 1 else 0) + total (xs.map once) w := rfl
    rw [hcons, ih, List.count_cons, Nat.add_comm]
    congr 1
    exact if_congr beq_iff_eq.symm rfl rfl

def padded (content : Text) (zeros : ℕ) : Text := content ++ List.replicate zeros '\x00'

/-- The text of the job: a line for each word, in increasing order. A word is a run
of letters that goes on neither to the left nor to the right. -/
theorem doWork_counts (files : List (Text × ℕ)) (h : (files.flatMap fun file => words file.1).length < 2 ^ 31) :
    (∃ ws : List Text, ws.Pairwise (· < ·) ∧ (∀ w, w ∈ ws ↔ ∃ file ∈ files, w ∈ words file.1) ∧
      doWork (files.map fun file => padded file.1 file.2) = some (ws.flatMap fun w =>
        w ++ ' ' :: Nat.toDigits 10 ((files.flatMap fun file => words file.1).count w) ++ ['\n'])) ∧
    ∀ (content : Text) (i : ℕ) (w : Text), wordAt content i = some w ↔ ∃ a b, content = a ++ w ++ b ∧
      a.length = i ∧ w ≠ [] ∧ (∀ c ∈ w, c.isAlpha = true) ∧ (∀ c ∈ a.getLast?, c.isAlpha = false) ∧
      ∀ c ∈ b.head?, c.isAlpha = false := by
  refine ⟨?_, fun _ _ _ => wordAt_iff⟩
  have hkvs : (files.map fun file => padded file.1 file.2).flatMap mapContent =
      (files.flatMap fun file => words file.1).map once := by
    rw [List.flatMap_map, List.map_flatMap]
    congr 1
    funext file
    rw [padded, mapContent, mapFrom_zeros]
    exact mapContent_eq file.1
  generalize hws : (files.flatMap fun file => words file.1) = ws at h hkvs
  have hgood : ∀ kv ∈ ws.map once, kv.Good := by
    intro kv hkv
    rw [← hkvs] at hkv
    obtain ⟨content, -, hkv⟩ := List.mem_flatMap.mp hkv
    exact mapContent_good hkv
  have hlen : (ws.map once).length = ws.length := List.length_map once
  obtain ⟨res, hres, htally⟩ := reduceRuns_of_sorted
    (exchangeSort_perm (ws.map once).length (ws.map once)) (exchangeSort_sorted (Nat.le_refl _)) hgood
    fun w => by
      rw [total_once]
      exact List.count_le_length.trans_lt h
  refine ⟨res.map KeyVal.key, htally.sorted, ?_, ?_⟩
  · intro w
    rw [htally.mem_iff, total_once, List.count_pos_iff, ← hws, List.mem_flatMap]
  · rw [doWork_eq (by rw [hkvs, hlen]; exact h), hkvs]
    rw [(exchangeSort_perm (ws.map once).length (ws.map once)).length_eq] at hres
    rw [hres, Option.map_some, render]
    conv_lhs => rw [htally.eq_map]
    rw [List.flatMap_map]
    simp only [total_once]

/-- Two files of which one is padded. -/
theorem doWork_counts_two : ∃ ws : List Text, ws.Pairwise (· < ·) ∧
    (∀ w, w ∈ ws ↔ ∃ file ∈ [("b a".toList, 3), ("a1".toList, 0)], w ∈ words file.1) ∧
    doWork ([("b a".toList, 3), ("a1".toList, 0)].map fun file => padded file.1 file.2) =
      some (ws.flatMap fun w => w ++ ' ' :: Nat.toDigits 10
        (([("b a".toList, 3), ("a1".toList, 0)].flatMap fun file => words file.1).count w) ++ ['\n']) :=
  (doWork_counts _ (by decide)).1

example : doWork [padded "b a".toList 3, padded "a1".toList 0] = some "a 2\nb 1\n".toList := by decide

end Spec

end Chfs.MapReduce.Sequential
