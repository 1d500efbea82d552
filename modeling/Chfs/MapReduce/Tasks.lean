import Chfs.Lib.Run
import Mathlib.Data.Int.Notation

/-! The coordinator of a map-reduce job (`map_reduce/mr_coordinator.cc`), and the
order in which it hands out the tasks of its three stages. -/

namespace Chfs.MapReduce.Tasks

open Lib.Run

/-- `mr_tasktype`, without the value that no call uses. -/
inductive TaskType
  | map
  | reduce
  deriving DecidableEq, Repr

structure Task where
  files : List String
  outputFile : String
  startTime : ℤ
  finished : Bool
  hasAligned : Bool
  deriving DecidableEq, Repr

def Task.new (files : List String) (outputFile : String) : Task where
  files := files
  outputFile := outputFile
  startTime := 0
  finished := false
  hasAligned := false

inductive AskRes
  | noTask
  | mapTask
  | reduceTask
  | busy
  deriving DecidableEq, Repr

structure AskTaskReply where
  res : AskRes
  index : ℤ
  outputFile : String
  files : List String
  deriving DecidableEq, Repr

def AskTaskReply.empty (res : AskRes) : AskTaskReply := ⟨res, 0, "", []⟩

structure Coordinator where
  isFinished : Bool
  mapTasks : List Task
  reduceTasks : List Task
  mapFileCnt : ℕ
  mapCompCnt : ℕ
  reduceFileCnt : ℕ
  reduceCompCnt : ℕ
  finalTask : Task
  workStage : ℕ
  deriving DecidableEq, Repr

/-- The constructor's loop over pairs of map outputs: the last three go together
where their number is odd, and `i` jumps past the end before the output file is
named. The second file of a pair need not exist. -/
def pairOutputs (mapFileCnt : ℕ) : ℕ → ℕ → List Task
  | 0, _ => []
  | fuel + 1, i =>
    if i < mapFileCnt then
      if i + 2 + 1 = mapFileCnt then
        Task.new ["map" ++ toString i, "map" ++ toString (i + 1), "map" ++ toString (i + 2)]
          ("reduce" ++ toString ((i + 3) / 2)) :: pairOutputs mapFileCnt fuel (i + 3 + 2)
      else
        Task.new ["map" ++ toString i, "map" ++ toString (i + 1)]
          ("reduce" ++ toString (i / 2)) :: pairOutputs mapFileCnt fuel (i + 2)
    else []

def Coordinator.new (files : List String) (resultFile : String) : Coordinator :=
  let reduceTasks := pairOutputs files.length files.length 0
  { isFinished := false
    mapTasks := files.mapIdx fun i file => Task.new [file] ("map" ++ toString i)
    reduceTasks := reduceTasks
    mapFileCnt := files.length
    mapCompCnt := 0
    reduceFileCnt := reduceTasks.length
    reduceCompCnt := 0
    finalTask := Task.new (reduceTasks.map (·.outputFile)) resultFile
    workStage := 0 }

/-- The readings of the clock in one call: when task `i` is looked at, and when
the task that is handed out starts, in nanoseconds. -/
structure Clock where
  looked : ℕ → ℤ
  started : ℤ

def Task.timedOut (t : Task) (now : ℤ) : Bool := decide (1000 ≤ (now - t.startTime).tdiv 1000000)

/-- A task is due unless it is finished or has been given to a worker lately. -/
def Task.due (t : Task) (now : ℤ) : Bool := !t.finished && (!t.hasAligned || t.timedOut now)

def Task.hand (t : Task) (now : ℤ) : Task := { t with startTime := now, hasAligned := true }

def firstDue (clock : Clock) : List Task → ℕ → Option (ℕ × Task)
  | [], _ => none
  | t :: ts, i => if t.due (clock.looked i) then some (i, t) else firstDue clock ts (i + 1)

def offer (clock : Clock) (res : AskRes) (tasks : List Task) : AskTaskReply × List Task :=
  match firstDue clock tasks 0 with
  | some (i, t) => (⟨res, i, t.outputFile, t.files⟩, tasks.set i (t.hand clock.started))
  | none => (.empty .busy, tasks)

def askTask (clock : Clock) (c : Coordinator) : AskTaskReply × Coordinator :=
  if c.isFinished then (.empty .noTask, c)
  else if c.workStage = 0 then
    let out := offer clock .mapTask c.mapTasks
    (out.1, { c with mapTasks := out.2 })
  else if c.workStage = 1 then
    let out := offer clock .reduceTask c.reduceTasks
    (out.1, { c with reduceTasks := out.2 })
  else if !c.finalTask.hasAligned || c.finalTask.timedOut (clock.looked 0) then
    (⟨.reduceTask, -1, c.finalTask.outputFile, c.finalTask.files⟩,
      { c with finalTask := c.finalTask.hand clock.started })
  else (.empty .busy, c)

/-- `submitTask`. An index outside of the tasks leaves the program undefined. -/
def submitTask (taskType : TaskType) (index : ℤ) (c : Coordinator) : Option (ℤ × Coordinator) :=
  if c.isFinished then some (0, c)
  else match taskType with
    | .map =>
      if index < 0 then none else do
        let t ← c.mapTasks[index.toNat]?
        if t.finished then some (0, c) else
          some (1, { c with
            mapTasks := c.mapTasks.set index.toNat { t with finished := true }
            mapCompCnt := c.mapCompCnt + 1
            workStage := if c.mapCompCnt + 1 = c.mapFileCnt then c.workStage + 1 else c.workStage })
    | .reduce =>
      if 0 ≤ index then do
        let t ← c.reduceTasks[index.toNat]?
        if t.finished then some (0, c) else
          some (1, { c with
            reduceTasks := c.reduceTasks.set index.toNat { t with finished := true }
            reduceCompCnt := c.reduceCompCnt + 1
            workStage := if c.reduceCompCnt + 1 = c.reduceFileCnt then c.workStage + 1
              else c.workStage })
      else some (1, { c with finalTask := { c.finalTask with finished := true }, isFinished := true })

def Coordinator.done (c : Coordinator) : Bool := c.isFinished

def AskTaskReply.task (r : AskTaskReply) : Option (TaskType × ℤ) :=
  match r.res with
  | .mapTask => some (.map, r.index)
  | .reduceTask => some (.reduce, r.index)
  | .noTask | .busy => none

structure System where
  coordinator : Coordinator
  given : List (ℕ × TaskType × ℤ)
  submitted : List (TaskType × ℤ)

def System.new (files : List String) (resultFile : String) : System where
  coordinator := Coordinator.new files resultFile
  given := []
  submitted := []

inductive Event
  | ask (worker : ℕ) (clock : Clock)
  | submit (worker : ℕ) (taskType : TaskType) (index : ℤ)

/-- The calls of the workers, one at a time: the server has one thread. -/
def step (s : System) : Event → Option System
  | .ask worker clock =>
    let out := askTask clock s.coordinator
    some { s with
      coordinator := out.2
      given := (out.1.task.map fun t => (worker, t)).toList ++ s.given }
  | .submit _ taskType index => do
    let out ← submitTask taskType index s.coordinator
    some { s with coordinator := out.2, submitted := (taskType, index) :: s.submitted }

/-- A worker submits a task it was given, at any time and any number of times. -/
def Allowed (s : System) : Event → Prop
  | .ask _ _ => True
  | .submit worker taskType index => (worker, taskType, index) ∈ s.given

section Tally

/-- A stage: its counter is the number of its finished tasks, and these are the
tasks that were submitted. -/
structure Tally (tasks : List Task) (fileCnt compCnt : ℕ) (submitted : ℕ → Prop) : Prop where
  length : tasks.length = fileCnt
  count : compCnt = tasks.countP (·.finished)
  finished : ∀ i t, tasks[i]? = some t → (t.finished = true ↔ submitted i)

variable {tasks : List Task} {fileCnt compCnt : ℕ} {submitted submitted' : ℕ → Prop} {i : ℕ} {t : Task}

theorem Tally.le (h : Tally tasks fileCnt compCnt submitted) : compCnt ≤ fileCnt := by
  rw [h.count, ← h.length]
  exact List.countP_le_length

theorem Tally.complete_iff (h : Tally tasks fileCnt compCnt submitted) :
    compCnt = fileCnt ↔ ∀ i < fileCnt, submitted i := by
  rw [h.count, ← h.length, List.countP_eq_length]
  constructor
  · intro hall i hi
    exact (h.finished i _ (List.getElem?_eq_getElem hi)).mp (hall _ (List.getElem_mem hi))
  · intro hall t ht
    obtain ⟨i, hi, rfl⟩ := List.getElem_of_mem ht
    exact (h.finished i _ (List.getElem?_eq_getElem hi)).mpr (hall i hi)

theorem Tally.congr (h : Tally tasks fileCnt compCnt submitted)
    (hsub : ∀ i < fileCnt, submitted i ↔ submitted' i) : Tally tasks fileCnt compCnt submitted' where
  length := h.length
  count := h.count
  finished i t ht := by
    obtain ⟨hi, -⟩ := List.getElem?_eq_some_iff.mp ht
    rw [h.finished i t ht, hsub i (h.length ▸ hi)]

theorem Tally.set (t' : Task) (submitted' : ℕ → Prop) (h : Tally tasks fileCnt compCnt submitted)
    (ht : tasks[i]? = some t) (hmono : t.finished = true → t'.finished = true)
    (hsub : ∀ k, submitted' k ↔ submitted k ∨ (k = i ∧ t'.finished = true)) :
    Tally (tasks.set i t') fileCnt (compCnt + if t'.finished = true ∧ t.finished = false then 1 else 0)
      submitted' where
  length := List.length_set.trans h.length
  count := by
    obtain ⟨hi, rfl⟩ := List.getElem?_eq_some_iff.mp ht
    have hpos : tasks[i].finished = true → 0 < tasks.countP (·.finished) := fun hf =>
      List.countP_pos_iff.mpr ⟨_, List.getElem_mem hi, hf⟩
    rw [List.countP_set hi, h.count]
    cases hold : tasks[i].finished with
    | false => simp
    | true =>
      have := hpos hold
      rw [hmono hold]
      simp only [if_true, Bool.true_eq_false, and_false, if_false]
      omega
  finished k t'' hk := by
    rw [hsub k]
    by_cases hik : i = k
    · subst hik
      obtain ⟨hi, -⟩ := List.getElem?_eq_some_iff.mp ht
      rw [List.getElem?_set_self hi, Option.some.injEq] at hk
      subst hk
      rw [← h.finished i t ht]
      constructor
      · exact fun hf => Or.inr ⟨rfl, hf⟩
      · rintro (hf | ⟨-, hf⟩)
        · exact hmono hf
        · exact hf
    · rw [List.getElem?_set_ne hik] at hk
      rw [h.finished k t'' hk]
      constructor
      · exact Or.inl
      · rintro (hf | ⟨rfl, -⟩)
        · exact hf
        · exact absurd rfl hik

theorem Tally.hand (h : Tally tasks fileCnt compCnt submitted) (ht : tasks[i]? = some t)
    (hfin : t.finished = false) (now : ℤ) :
    Tally (tasks.set i (t.hand now)) fileCnt compCnt submitted := by
  have hhand : (t.hand now).finished = false := hfin
  have := h.set (t.hand now) submitted ht id fun k => by simp [hhand]
  rwa [hhand, if_neg (by simp), Nat.add_zero] at this

theorem Tally.finish (submitted' : ℕ → Prop) (h : Tally tasks fileCnt compCnt submitted) (ht : tasks[i]? = some t)
    (hfin : t.finished = false) (hsub : ∀ k, submitted' k ↔ submitted k ∨ k = i) :
    Tally (tasks.set i { t with finished := true }) fileCnt (compCnt + 1) submitted' := by
  have := h.set { t with finished := true } submitted' ht (fun _ => rfl) fun k => by
    rw [hsub k]
    simp
  rwa [hfin, if_pos ⟨rfl, rfl⟩] at this

end Tally

theorem firstDue_spec {clock : Clock} {tasks : List Task} {k i : ℕ} {t : Task}
    (h : firstDue clock tasks k = some (i, t)) : k ≤ i ∧ tasks[i - k]? = some t ∧ t.finished = false := by
  induction tasks generalizing k with
  | nil => cases h
  | cons t' ts ih =>
    rw [firstDue] at h
    split at h
    case isTrue hdue =>
      cases h
      rw [Nat.sub_self]
      refine ⟨Nat.le_refl _, rfl, ?_⟩
      rw [Task.due, Bool.and_eq_true] at hdue
      simpa using hdue.1
    case isFalse =>
      obtain ⟨hle, hget, hfin⟩ := ih h
      refine ⟨by omega, ?_, hfin⟩
      rw [show i - k = (i - (k + 1)) + 1 by omega]
      exact hget

def Handed (c : Coordinator) : TaskType → ℤ → Prop
  | .map, i => 0 ≤ i ∧ i < c.mapFileCnt
  | .reduce, i => c.mapCompCnt = c.mapFileCnt ∧
      (0 ≤ i ∧ i < c.reduceFileCnt ∨ i = -1 ∧ c.reduceCompCnt = c.reduceFileCnt)

/-- What holds of the coordinator and the tasks that are out. -/
structure Inv (s : System) : Prop where
  maps : Tally s.coordinator.mapTasks s.coordinator.mapFileCnt s.coordinator.mapCompCnt
    fun i => (.map, (i : ℤ)) ∈ s.submitted
  reduces : Tally s.coordinator.reduceTasks s.coordinator.reduceFileCnt s.coordinator.reduceCompCnt
    fun i => (.reduce, (i : ℤ)) ∈ s.submitted
  some_map : 0 < s.coordinator.mapFileCnt
  some_reduce : 0 < s.coordinator.reduceFileCnt
  stage : s.coordinator.workStage =
    (if s.coordinator.mapCompCnt = s.coordinator.mapFileCnt then 1 else 0) +
      if s.coordinator.reduceCompCnt = s.coordinator.reduceFileCnt then 1 else 0
  handed : ∀ w ty i, (w, ty, i) ∈ s.given → Handed s.coordinator ty i
  submitted : ∀ ty i, (ty, i) ∈ s.submitted → Handed s.coordinator ty i
  isFinished : s.coordinator.isFinished = true ↔ (.reduce, -1) ∈ s.submitted

theorem offer_cases (clock : Clock) (res : AskRes) (tasks : List Task) :
    offer clock res tasks = (.empty .busy, tasks) ∨
    ∃ (i : ℕ) (t : Task), tasks[i]? = some t ∧ t.finished = false ∧ offer clock res tasks =
      (⟨res, i, t.outputFile, t.files⟩, tasks.set i (t.hand clock.started)) := by
  unfold offer
  cases h : firstDue clock tasks 0 with
  | none => exact Or.inl rfl
  | some out =>
    obtain ⟨-, hget, hfin⟩ := firstDue_spec h
    exact Or.inr ⟨out.1, out.2, hget, hfin, rfl⟩

theorem askTask_cases (clock : Clock) (c : Coordinator) :
    (∃ res, (res = .noTask ∨ res = .busy) ∧ askTask clock c = (.empty res, c)) ∨
    (∃ (i : ℕ) (t : Task), c.isFinished = false ∧ c.workStage = 0 ∧ c.mapTasks[i]? = some t ∧ t.finished = false ∧
      askTask clock c = (⟨.mapTask, i, t.outputFile, t.files⟩,
        { c with mapTasks := c.mapTasks.set i (t.hand clock.started) })) ∨
    (∃ (i : ℕ) (t : Task), c.isFinished = false ∧ c.workStage = 1 ∧ c.reduceTasks[i]? = some t ∧ t.finished = false ∧
      askTask clock c = (⟨.reduceTask, i, t.outputFile, t.files⟩,
        { c with reduceTasks := c.reduceTasks.set i (t.hand clock.started) })) ∨
    (c.isFinished = false ∧ c.workStage ≠ 0 ∧ c.workStage ≠ 1 ∧
      askTask clock c = (⟨.reduceTask, -1, c.finalTask.outputFile, c.finalTask.files⟩,
        { c with finalTask := c.finalTask.hand clock.started })) := by
  unfold askTask
  split
  case isTrue => exact Or.inl ⟨_, Or.inl rfl, rfl⟩
  case isFalse hfin =>
    rw [Bool.not_eq_true] at hfin
    split
    case isTrue h0 =>
      obtain heq | ⟨i, t, hget, ht, heq⟩ := offer_cases clock .mapTask c.mapTasks
      · refine Or.inl ⟨_, Or.inr rfl, ?_⟩
        rw [heq]
      · refine Or.inr (Or.inl ⟨i, t, hfin, h0, hget, ht, ?_⟩)
        rw [heq]
    case isFalse h0 =>
      split
      case isTrue h1 =>
        obtain heq | ⟨i, t, hget, ht, heq⟩ := offer_cases clock .reduceTask c.reduceTasks
        · refine Or.inl ⟨_, Or.inr rfl, ?_⟩
          rw [heq]
        · refine Or.inr (Or.inr (Or.inl ⟨i, t, hfin, h1, hget, ht, ?_⟩))
          rw [heq]
      case isFalse h1 =>
        split
        case isTrue => exact Or.inr (Or.inr (Or.inr ⟨hfin, h0, h1, rfl⟩))
        case isFalse => exact Or.inl ⟨_, Or.inr rfl, rfl⟩

section Inv

variable {s : System} (h : Inv s)
include h

theorem Inv.maps_first (hred : s.coordinator.reduceCompCnt = s.coordinator.reduceFileCnt) :
    s.coordinator.mapCompCnt = s.coordinator.mapFileCnt :=
  (h.submitted _ _ (h.reduces.complete_iff.mp hred 0 h.some_reduce)).1

theorem Inv.stage_one (h1 : s.coordinator.workStage = 1) :
    s.coordinator.mapCompCnt = s.coordinator.mapFileCnt ∧
      s.coordinator.reduceCompCnt ≠ s.coordinator.reduceFileCnt := by
  have hstage := h.stage
  by_cases hred : s.coordinator.reduceCompCnt = s.coordinator.reduceFileCnt
  · rw [if_pos (h.maps_first hred), if_pos hred] at hstage
    omega
  · rw [if_neg hred] at hstage
    refine ⟨?_, hred⟩
    by_contra hmap
    rw [if_neg hmap] at hstage
    omega

theorem Inv.stage_two (h0 : s.coordinator.workStage ≠ 0) (h1 : s.coordinator.workStage ≠ 1) :
    s.coordinator.reduceCompCnt = s.coordinator.reduceFileCnt := by
  have hstage := h.stage
  by_contra hred
  rw [if_neg hred] at hstage
  split at hstage <;> omega

end Inv

theorem Handed.mono {c c' : Coordinator} {ty : TaskType} {i : ℤ} (h : Handed c ty i)
    (hm : c'.mapFileCnt = c.mapFileCnt) (hr : c'.reduceFileCnt = c.reduceFileCnt)
    (hmap : c.mapCompCnt = c.mapFileCnt → c'.mapCompCnt = c.mapFileCnt)
    (hred : c.reduceCompCnt = c.reduceFileCnt → c'.reduceCompCnt = c.reduceFileCnt) : Handed c' ty i := by
  cases ty with
  | map => exact ⟨h.1, hm ▸ h.2⟩
  | reduce =>
    refine ⟨hm ▸ hmap h.1, ?_⟩
    obtain ⟨h0, hlt⟩ | ⟨hi, heq⟩ := h.2
    · exact Or.inl ⟨h0, hr ▸ hlt⟩
    · exact Or.inr ⟨hi, hr ▸ hred heq⟩

theorem Inv.ask {s : System} (h : Inv s) (worker : ℕ) (clock : Clock) :
    Inv { s with
      coordinator := (askTask clock s.coordinator).2
      given := ((askTask clock s.coordinator).1.task.map fun t => (worker, t)).toList ++ s.given } := by
  obtain ⟨res, hres, heq⟩ | ⟨i, t, -, h0, hget, ht, heq⟩ | ⟨i, t, -, h1, hget, ht, heq⟩ | ⟨-, h0, h1, heq⟩ :=
    askTask_cases clock s.coordinator
  · have hnone : (AskTaskReply.empty res).task = none := by
      obtain rfl | rfl := hres <;> rfl
    simp only [heq, hnone]
    exact h
  · simp only [heq]
    obtain ⟨hi, -⟩ := List.getElem?_eq_some_iff.mp hget
    refine ⟨h.maps.hand hget ht _, h.reduces, h.some_map, h.some_reduce, h.stage, ?_, h.submitted, h.isFinished⟩
    intro w ty j hmem
    obtain hmem | hmem := List.mem_append.mp hmem
    · cases List.mem_singleton.mp hmem
      exact ⟨Int.natCast_nonneg i, Int.ofNat_lt.mpr (h.maps.length ▸ hi)⟩
    · exact h.handed w ty j hmem
  · simp only [heq]
    obtain ⟨hi, -⟩ := List.getElem?_eq_some_iff.mp hget
    refine ⟨h.maps, h.reduces.hand hget ht _, h.some_map, h.some_reduce, h.stage, ?_, h.submitted, h.isFinished⟩
    intro w ty j hmem
    obtain hmem | hmem := List.mem_append.mp hmem
    · cases List.mem_singleton.mp hmem
      exact ⟨(h.stage_one h1).1, Or.inl ⟨Int.natCast_nonneg i, Int.ofNat_lt.mpr (h.reduces.length ▸ hi)⟩⟩
    · exact h.handed w ty j hmem
  · simp only [heq]
    refine ⟨h.maps, h.reduces, h.some_map, h.some_reduce, h.stage, ?_, h.submitted, h.isFinished⟩
    intro w ty j hmem
    have hred := h.stage_two h0 h1
    obtain hmem | hmem := List.mem_append.mp hmem
    · cases List.mem_singleton.mp hmem
      exact ⟨h.maps_first hred, Or.inr ⟨rfl, hred⟩⟩
    · exact h.handed w ty j hmem

section Submit

variable {s : System} (h : Inv s)
include h

theorem Inv.again {ty : TaskType} {i : ℤ} (hsub : (ty, i) ∈ s.submitted) :
    Inv { s with submitted := (ty, i) :: s.submitted } := by
  have hmem : ∀ x, x ∈ s.submitted ↔ x ∈ (ty, i) :: s.submitted := by
    intro x
    rw [List.mem_cons]
    constructor
    · exact Or.inr
    · rintro (rfl | hx)
      · exact hsub
      · exact hx
  exact ⟨h.maps.congr fun _ _ => hmem _, h.reduces.congr fun _ _ => hmem _, h.some_map, h.some_reduce,
    h.stage, h.handed, fun ty i hx => h.submitted ty i ((hmem _).mpr hx), h.isFinished.trans (hmem _)⟩

/-- When the job is finished, every task that is out has been submitted. -/
theorem Inv.submitted_of_isFinished (hfin : s.coordinator.isFinished = true) {ty : TaskType} {i : ℤ}
    (hh : Handed s.coordinator ty i) : (ty, i) ∈ s.submitted := by
  have hlast := h.isFinished.mp hfin
  obtain ⟨hmap, ⟨h0, -⟩ | ⟨-, hred⟩⟩ := h.submitted _ _ hlast
  · omega
  · cases ty with
    | map =>
      obtain ⟨k, rfl⟩ := Int.eq_ofNat_of_zero_le hh.1
      exact h.maps.complete_iff.mp hmap k (Int.ofNat_lt.mp hh.2)
    | reduce =>
      obtain ⟨h0, hlt⟩ | ⟨rfl, -⟩ := hh.2
      · obtain ⟨k, rfl⟩ := Int.eq_ofNat_of_zero_le h0
        exact h.reduces.complete_iff.mp hred k (Int.ofNat_lt.mp hlt)
      · exact hlast

theorem Inv.submit_map {k : ℕ} {t : Task} (hget : s.coordinator.mapTasks[k]? = some t)
    (ht : t.finished = false) :
    Inv { s with
      coordinator := { s.coordinator with
        mapTasks := s.coordinator.mapTasks.set k { t with finished := true }
        mapCompCnt := s.coordinator.mapCompCnt + 1
        workStage := if s.coordinator.mapCompCnt + 1 = s.coordinator.mapFileCnt then
          s.coordinator.workStage + 1 else s.coordinator.workStage }
      submitted := (.map, (k : ℤ)) :: s.submitted } := by
  have hmaps := h.maps.finish (fun i => (.map, (i : ℤ)) ∈ (.map, (k : ℤ)) :: s.submitted) hget ht
    fun i => by simp only [List.mem_cons, Prod.mk.injEq, true_and, Int.natCast_inj, or_comm]
  have hle := hmaps.le
  have hlt : ∀ {ty i}, Handed s.coordinator ty i → Handed { s.coordinator with
      mapCompCnt := s.coordinator.mapCompCnt + 1 } ty i := by
    intro ty i hh
    exact hh.mono rfl rfl (fun heq => by omega) fun heq => heq
  obtain ⟨hk, -⟩ := List.getElem?_eq_some_iff.mp hget
  refine ⟨hmaps, h.reduces.congr fun i _ => by simp, h.some_map, h.some_reduce, ?_, fun w ty i hg =>
    hlt (h.handed w ty i hg), fun ty i hx => ?_, h.isFinished.trans (by simp)⟩
  · have hstage := h.stage
    rw [if_neg (by omega : s.coordinator.mapCompCnt ≠ s.coordinator.mapFileCnt)] at hstage
    simp only
    rw [hstage]
    split <;> omega
  · obtain heq | hx := List.mem_cons.mp hx
    · cases heq
      exact ⟨Int.natCast_nonneg k, Int.ofNat_lt.mpr (h.maps.length ▸ hk)⟩
    · exact hlt (h.submitted ty i hx)

theorem Inv.submit_reduce {k : ℕ} {t : Task} (hget : s.coordinator.reduceTasks[k]? = some t)
    (ht : t.finished = false) (hmap : s.coordinator.mapCompCnt = s.coordinator.mapFileCnt) :
    Inv { s with
      coordinator := { s.coordinator with
        reduceTasks := s.coordinator.reduceTasks.set k { t with finished := true }
        reduceCompCnt := s.coordinator.reduceCompCnt + 1
        workStage := if s.coordinator.reduceCompCnt + 1 = s.coordinator.reduceFileCnt then
          s.coordinator.workStage + 1 else s.coordinator.workStage }
      submitted := (.reduce, (k : ℤ)) :: s.submitted } := by
  have hreduces := h.reduces.finish
    (fun i => (.reduce, (i : ℤ)) ∈ (.reduce, (k : ℤ)) :: s.submitted) hget ht
    fun i => by simp only [List.mem_cons, Prod.mk.injEq, true_and, Int.natCast_inj, or_comm]
  have hle := hreduces.le
  have hlt : ∀ {ty i}, Handed s.coordinator ty i → Handed { s.coordinator with
      reduceCompCnt := s.coordinator.reduceCompCnt + 1 } ty i := by
    intro ty i hh
    exact hh.mono rfl rfl (fun heq => heq) fun heq => by omega
  obtain ⟨hk, -⟩ := List.getElem?_eq_some_iff.mp hget
  refine ⟨h.maps.congr fun i _ => by simp, hreduces, h.some_map, h.some_reduce, ?_, fun w ty i hg =>
    hlt (h.handed w ty i hg), fun ty i hx => ?_, h.isFinished.trans (by simp)⟩
  · have hstage := h.stage
    rw [if_neg (by omega : s.coordinator.reduceCompCnt ≠ s.coordinator.reduceFileCnt)] at hstage
    simp only
    rw [hstage]
    split <;> omega
  · obtain heq | hx := List.mem_cons.mp hx
    · cases heq
      exact ⟨hmap, Or.inl ⟨Int.natCast_nonneg k, Int.ofNat_lt.mpr (h.reduces.length ▸ hk)⟩⟩
    · exact hlt (h.submitted ty i hx)

theorem Inv.submit_final (hmap : s.coordinator.mapCompCnt = s.coordinator.mapFileCnt)
    (hred : s.coordinator.reduceCompCnt = s.coordinator.reduceFileCnt) (t : Task) :
    Inv { s with
      coordinator := { s.coordinator with finalTask := t, isFinished := true }
      submitted := (.reduce, -1) :: s.submitted } := by
  refine ⟨h.maps.congr fun i _ => by simp, h.reduces.congr fun i _ => ?_, h.some_map, h.some_reduce,
    h.stage, h.handed, fun ty i hx => ?_, by simp⟩
  · rw [List.mem_cons, Prod.mk.injEq]
    constructor
    · exact Or.inr
    · rintro (⟨-, hi⟩ | hx)
      · omega
      · exact hx
  · obtain heq | hx := List.mem_cons.mp hx
    · cases heq
      exact ⟨hmap, Or.inr ⟨rfl, hred⟩⟩
    · exact h.submitted ty i hx

theorem Inv.submit {ty : TaskType} {i : ℤ} (hh : Handed s.coordinator ty i) :
    ∃ out, submitTask ty i s.coordinator = some out ∧
      Inv { s with coordinator := out.2, submitted := (ty, i) :: s.submitted } ∧
      (s.coordinator.isFinished = true → out.2.isFinished = true) := by
  unfold submitTask
  by_cases hfin : s.coordinator.isFinished = true
  · rw [if_pos hfin]
    exact ⟨_, rfl, h.again (h.submitted_of_isFinished hfin hh), id⟩
  · rw [if_neg hfin]
    cases ty with
    | map =>
      obtain ⟨k, rfl⟩ := Int.eq_ofNat_of_zero_le hh.1
      have hk : k < s.coordinator.mapTasks.length := by
        rw [h.maps.length]
        exact Int.ofNat_lt.mp hh.2
      have hget := List.getElem?_eq_getElem hk
      simp only [Int.toNat_natCast, hget, Option.bind_eq_bind, Option.bind_some]
      rw [if_neg (by omega)]
      cases ht : s.coordinator.mapTasks[k].finished with
      | true => exact ⟨_, rfl, h.again ((h.maps.finished k _ hget).mp ht), id⟩
      | false => exact ⟨_, rfl, h.submit_map hget ht, fun hf => hf⟩
    | reduce =>
      obtain ⟨hmap, ⟨h0, hlt⟩ | ⟨rfl, hred⟩⟩ := hh
      · obtain ⟨k, rfl⟩ := Int.eq_ofNat_of_zero_le h0
        have hk : k < s.coordinator.reduceTasks.length := by
          rw [h.reduces.length]
          exact Int.ofNat_lt.mp hlt
        have hget := List.getElem?_eq_getElem hk
        simp only [Int.toNat_natCast, hget, Option.bind_eq_bind, Option.bind_some]
        rw [if_pos h0]
        cases ht : s.coordinator.reduceTasks[k].finished with
        | true => exact ⟨_, rfl, h.again ((h.reduces.finished k _ hget).mp ht), id⟩
        | false => exact ⟨_, rfl, h.submit_reduce hget ht hmap, fun hf => hf⟩
      · dsimp only
        rw [if_neg (by decide)]
        exact ⟨_, rfl, h.submit_final hmap hred _, fun _ => rfl⟩

end Submit

section New

theorem pairOutputs_unfinished {n fuel i : ℕ} {t : Task} (h : t ∈ pairOutputs n fuel i) :
    t.finished = false := by
  induction fuel generalizing i with
  | zero => cases h
  | succ fuel ih =>
    rw [pairOutputs] at h
    split at h
    case isTrue =>
      split at h
      all_goals
        obtain rfl | h := List.mem_cons.mp h
        · rfl
        · exact ih h
    case isFalse => cases h

theorem pairOutputs_ne_nil {n : ℕ} (hn : 0 < n) : 0 < (pairOutputs n n 0).length := by
  obtain ⟨m, rfl⟩ : ∃ m, n = m + 1 := ⟨n - 1, by omega⟩
  rw [pairOutputs, if_pos hn]
  split <;> exact Nat.succ_pos _

theorem tally_new (tasks : List Task) (h : ∀ t ∈ tasks, t.finished = false) (ty : TaskType) :
    Tally tasks tasks.length 0 fun i => (ty, (i : ℤ)) ∈ ([] : List (TaskType × ℤ)) where
  length := rfl
  count := by
    symm
    rw [List.countP_eq_zero]
    intro t ht
    simp [h t ht]
  finished i t ht := by simp [h t (List.mem_of_getElem? ht)]

theorem inv_new {files : List String} (hfiles : files ≠ []) (resultFile : String) :
    Inv (System.new files resultFile) := by
  have hpos : 0 < files.length := List.length_pos_iff.mpr hfiles
  have hmaps := tally_new (files.mapIdx fun i file => Task.new [file] ("map" ++ toString i))
    (by
      intro t ht
      obtain ⟨i, hi, rfl⟩ := List.mem_mapIdx.mp ht
      rfl) .map
  rw [List.length_mapIdx] at hmaps
  refine ⟨hmaps, tally_new _ (fun t => pairOutputs_unfinished) .reduce, hpos, pairOutputs_ne_nil hpos, ?_,
    fun w ty i hx => ?_, fun ty i hx => ?_, by simp [System.new, Coordinator.new]⟩
  · have hred := pairOutputs_ne_nil hpos
    change 0 = (if 0 = files.length then 1 else 0) +
      if 0 = (pairOutputs files.length files.length 0).length then 1 else 0
    rw [if_neg (by omega), if_neg (by omega)]
  · cases hx
  · cases hx

end New

theorem Inv.next {s t : System} {e : Event} (h : Inv s) (he : Allowed s e) (hs : step s e = some t) :
    Inv t ∧ (s.coordinator.isFinished = true → t.coordinator.isFinished = true) := by
  cases e with
  | ask worker clock =>
    cases hs
    refine ⟨h.ask worker clock, fun hfin => ?_⟩
    simp only [askTask, hfin, if_true]
  | submit worker ty i =>
    obtain ⟨out, hout, hinv, hkeep⟩ := h.submit (h.handed worker ty i he)
    rw [step, hout] at hs
    cases hs
    exact ⟨hinv, hkeep⟩

theorem Inv.reach {s t : System} (h : Inv s) (hr : Reach step Allowed s t) : Inv t :=
  hr.invariant h fun _ _ _ hs he hst => (hs.next he hst).1

theorem Inv.done_stays {s t : System} (h : Inv s) (hr : Reach step Allowed s t)
    (hdone : s.coordinator.isFinished = true) : t.coordinator.isFinished = true :=
  (hr.invariant (I := fun t => Inv t ∧ t.coordinator.isFinished = true) ⟨h, hdone⟩
    fun _ _ _ hs he hst => ⟨(hs.1.next he hst).1, (hs.1.next he hst).2 hs.2⟩).2

section Plan

def Task.plan (t : Task) : List String × String := (t.files, t.outputFile)

def Coordinator.plan (c : Coordinator) :
    List (List String × String) × List (List String × String) × (List String × String) :=
  (c.mapTasks.map Task.plan, c.reduceTasks.map Task.plan, c.finalTask.plan)

theorem map_plan_set {tasks : List Task} {i : ℕ} {t t' : Task} (h : tasks[i]? = some t)
    (hplan : t'.plan = t.plan) : (tasks.set i t').map Task.plan = tasks.map Task.plan := by
  obtain ⟨hi, rfl⟩ := List.getElem?_eq_some_iff.mp h
  rw [List.map_set, hplan]
  apply List.ext_getElem?
  intro k
  by_cases hk : i = k
  · subst hk
    rw [List.getElem?_set_self (by rwa [List.length_map]), List.getElem?_map, h, Option.map_some]
  · rw [List.getElem?_set_ne hk]

theorem askTask_plan (clock : Clock) (c : Coordinator) : (askTask clock c).2.plan = c.plan := by
  obtain ⟨res, -, heq⟩ | ⟨i, t, -, -, hget, -, heq⟩ | ⟨i, t, -, -, hget, -, heq⟩ | ⟨-, -, -, heq⟩ :=
    askTask_cases clock c
  · rw [heq]
  · rw [heq]
    simp only [Coordinator.plan, map_plan_set hget (rfl : (t.hand clock.started).plan = t.plan)]
  · rw [heq]
    simp only [Coordinator.plan, map_plan_set hget (rfl : (t.hand clock.started).plan = t.plan)]
  · rw [heq]
    rfl

theorem submitTask_plan {ty : TaskType} {i : ℤ} {c : Coordinator} {out : ℤ × Coordinator}
    (h : submitTask ty i c = some out) : out.2.plan = c.plan := by
  unfold submitTask at h
  split at h
  case isTrue =>
    cases h
    rfl
  case isFalse =>
    cases ty with
    | map =>
      dsimp only at h
      split at h
      case isTrue => cases h
      case isFalse =>
        obtain ⟨t, hget, h⟩ := Option.bind_eq_some_iff.mp h
        split at h
        · cases h
          rfl
        · cases h
          simp only [Coordinator.plan, map_plan_set hget (rfl : ({ t with finished := true } : Task).plan = t.plan)]
    | reduce =>
      dsimp only at h
      split at h
      case isTrue =>
        obtain ⟨t, hget, h⟩ := Option.bind_eq_some_iff.mp h
        split at h
        · cases h
          rfl
        · cases h
          simp only [Coordinator.plan, map_plan_set hget (rfl : ({ t with finished := true } : Task).plan = t.plan)]
      case isFalse =>
        cases h
        rfl

theorem step_plan {s t : System} {e : Event} (h : step s e = some t) :
    t.coordinator.plan = s.coordinator.plan := by
  cases e with
  | ask worker clock =>
    cases h
    exact askTask_plan clock s.coordinator
  | submit worker ty i =>
    obtain ⟨out, hout, h⟩ := Option.bind_eq_some_iff.mp h
    cases h
    exact submitTask_plan hout

end Plan

/-- The order in which a job is done, seen from a state `s` of it. -/
structure Discipline (s : System) : Prop where
  reduce_after_maps : ∀ clock, (askTask clock s.coordinator).1.res = .reduceTask →
    ∀ i < s.coordinator.mapTasks.length, (.map, (i : ℤ)) ∈ s.submitted
  final_after_reduces : ∀ clock, (askTask clock s.coordinator).1.res = .reduceTask →
    (askTask clock s.coordinator).1.index = -1 →
    ∀ j < s.coordinator.reduceTasks.length, (.reduce, (j : ℤ)) ∈ s.submitted
  not_again : ∀ clock task, (askTask clock s.coordinator).1.task = some task → task ∉ s.submitted
  done_after_final : s.coordinator.done = true → (.reduce, -1) ∈ s.submitted
  done_stays : ∀ t, Reach step Allowed s t → s.coordinator.done = true → t.coordinator.done = true
  map_finished : ∀ (i : ℕ) (t : Task), s.coordinator.mapTasks[i]? = some t →
    (t.finished = true ↔ (.map, (i : ℤ)) ∈ s.submitted)
  map_count : s.coordinator.mapCompCnt = s.coordinator.mapTasks.countP (·.finished)
  reduce_finished : ∀ (i : ℕ) (t : Task), s.coordinator.reduceTasks[i]? = some t →
    (t.finished = true ↔ (.reduce, (i : ℤ)) ∈ s.submitted)
  reduce_count : s.coordinator.reduceCompCnt = s.coordinator.reduceTasks.countP (·.finished)
  defined : ∀ e, Allowed s e → ∃ t, step s e = some t

theorem Inv.discipline {s : System} (h : Inv s) : Discipline s where
  reduce_after_maps clock hres i hi := by
    rw [h.maps.length] at hi
    apply h.maps.complete_iff.mp _ i hi
    obtain ⟨res, hno, heq⟩ | ⟨i, t, -, -, -, -, heq⟩ | ⟨i, t, -, h1, -, -, -⟩ | ⟨-, h0, h1, -⟩ :=
      askTask_cases clock s.coordinator
    · rw [heq] at hres
      obtain rfl | rfl := hno <;> cases hres
    · rw [heq] at hres
      cases hres
    · exact (h.stage_one h1).1
    · exact h.maps_first (h.stage_two h0 h1)
  final_after_reduces clock hres hidx j hj := by
    rw [h.reduces.length] at hj
    apply h.reduces.complete_iff.mp _ j hj
    obtain ⟨res, hno, heq⟩ | ⟨i, t, -, -, -, -, heq⟩ | ⟨i, t, -, -, -, -, heq⟩ | ⟨-, h0, h1, -⟩ :=
      askTask_cases clock s.coordinator
    · rw [heq] at hres
      obtain rfl | rfl := hno <;> cases hres
    · rw [heq] at hres
      cases hres
    · rw [heq] at hidx
      exact absurd hidx (by simp only; omega)
    · exact h.stage_two h0 h1
  not_again clock task htask hsub := by
    obtain ⟨res, hno, heq⟩ | ⟨i, t, -, -, hget, ht, heq⟩ | ⟨i, t, -, -, hget, ht, heq⟩ | ⟨hfin, -, -, heq⟩ :=
      askTask_cases clock s.coordinator
    · rw [heq] at htask
      obtain rfl | rfl := hno <;> cases htask
    · rw [heq] at htask
      cases htask
      rw [(h.maps.finished i t hget).mpr hsub] at ht
      cases ht
    · rw [heq] at htask
      cases htask
      rw [(h.reduces.finished i t hget).mpr hsub] at ht
      cases ht
    · rw [heq] at htask
      cases htask
      rw [h.isFinished.mpr hsub] at hfin
      cases hfin
  done_after_final hdone := h.isFinished.mp hdone
  done_stays t hr hdone := h.done_stays hr hdone
  map_finished := h.maps.finished
  map_count := h.maps.count
  reduce_finished := h.reduces.finished
  reduce_count := h.reduces.count
  defined e he := by
    cases e with
    | ask worker clock => exact ⟨_, rfl⟩
    | submit worker ty i =>
      obtain ⟨out, hout, -⟩ := h.submit (h.handed worker ty i he)
      exact ⟨_, congrArg (Option.bind · _) hout⟩

/-- Every state of a job keeps the order of the stages, for the tasks that the
constructor has laid out. -/
theorem discipline_of_reach {files : List String} {resultFile : String} {s : System} (hfiles : files ≠ [])
    (h : Reach step Allowed (System.new files resultFile) s) :
    Discipline s ∧ s.coordinator.plan = (Coordinator.new files resultFile).plan := by
  refine ⟨((inv_new hfiles resultFile).reach h).discipline, ?_⟩
  exact h.invariant (I := fun t => t.coordinator.plan = (Coordinator.new files resultFile).plan) rfl
    fun _ _ _ hs _ hst => (step_plan hst).trans hs

def allowed (s : System) : Event → Bool
  | .ask _ _ => true
  | .submit worker taskType index => decide ((worker, taskType, index) ∈ s.given)

def lateRun : List Event :=
  [.ask 0 ⟨fun _ => 0, 0⟩, .ask 1 ⟨fun _ => 0, 0⟩, .submit 1 .map 1, .ask 1 ⟨fun _ => 1000000000, 1000000000⟩,
    .submit 1 .map 0, .ask 1 ⟨fun _ => 1000000000, 1000000000⟩, .submit 0 .map 0, .submit 1 .reduce 0,
    .ask 0 ⟨fun _ => 1000000000, 1000000000⟩, .submit 0 .reduce (-1)]

theorem discipline_of_reach_lateRun : ∃ s, Reach step Allowed (System.new ["a", "b"] "out") s ∧
    s.coordinator.done = true ∧ Discipline s := by
  have hrun : ((execOk step allowed (System.new ["a", "b"] "out") lateRun).map
      (·.coordinator.done)) = some true := by decide +kernel
  obtain ⟨s, hs, hdone⟩ := Option.map_eq_some_iff.mp hrun
  have hreach : Reach step Allowed (System.new ["a", "b"] "out") s := by
    apply reach_of_execOk _ hs
    intro s e he
    cases e with
    | ask => trivial
    | submit worker ty i => exact of_decide_eq_true (p := (worker, ty, i) ∈ s.given) he
  exact ⟨s, hreach, hdone, (discipline_of_reach (by decide) hreach).1⟩

end Chfs.MapReduce.Tasks
