import GraphLowering.Lower.Run
import GraphLowering.Subtarget.BuiltIn
import GraphLowering.Usim.Target
import Mathlib.Algebra.Ring.Nat
import Mathlib.Data.List.Count
import Mathlib.Data.List.Nodup

/-!
# Lowering the functions of a module by several workers

A loop gives the functions out in order, each to a task of its own, while there are free slots. A
task looks whether work was called off; if not it lowers its function and reports the outcome. The
first error is recorded, then the rest is called off, and only then is the slot of that task free
again. When all tasks have ended the loop returns the error that was recorded.

Loop and tasks take their steps in any order: a schedule says which of them moves next (`Crew.run`).
Every schedule comes to an end and none gets stuck (`Crew.length_add_rank_le`, `Crew.exists_step`),
and what is returned and reported hardly depends on it (`crew_outcome`).
-/

namespace GraphLowering.Lower

/-- What a task ends with if it does not succeed. -/
inductive TaskError where
  | lowering (f : Failure)
  /-- The work was called off before the task began. -/
  | calledOff
deriving DecidableEq, Repr

/-- Where a task stands. From `calling` on, `own` tells whether it lowered its function. -/
inductive TaskStage where
  | started
  | lowering
  | lowered (r : Except Failure Unit)
  | reported (r : Except Failure Unit)
  | skipping
  /-- Its error is recorded, and it is about to call the rest off. -/
  | calling (own : Bool)
  /-- It is done but has its slot still. -/
  | ending (own : Bool)
  | released (own : Bool)
deriving DecidableEq, Repr

namespace TaskStage

def isReleased : TaskStage → Bool
  | released _ => true
  | _ => false

/-- Whether the function has been lowered. -/
def hasLowered : TaskStage → Bool
  | lowered _ | reported _ => true
  | calling own | ending own | released own => own
  | _ => false

/-- Whether the outcome has been reported. -/
def hasReported : TaskStage → Bool
  | reported _ => true
  | calling own | ending own | released own => own
  | _ => false

/-- How many steps a task has still to take at most. -/
def rank : TaskStage → Nat
  | started => 6
  | lowering => 5
  | lowered _ => 4
  | reported _ | skipping => 3
  | calling _ => 2
  | ending _ => 1
  | released _ => 0

end TaskStage

/-- Where the loop stands: it looks whether work was called off, gives a function out, waits for the
tasks to end, or has returned. -/
inductive LoopStage where
  | looking
  | giving
  | waiting
  | returned (e : Option TaskError)
deriving DecidableEq, Repr

def LoopStage.rank : LoopStage → Nat
  | looking => 3
  | giving => 2
  | waiting => 1
  | returned _ => 0

/-- What can take a step: the loop, or the task for function number `i`. -/
inductive Worker where
  | loop
  | task (i : Nat)
deriving DecidableEq, Repr

structure Crew where
  loop : LoopStage := .looking
  /-- The tasks for the functions that were given out. -/
  tasks : List TaskStage := []
  /-- The error that was recorded. -/
  failure : Option TaskError := none
  calledOff : Bool := false
  /-- The functions that were lowered, in the order in which this ended. -/
  lowered : List Nat := []
  /-- The outcomes that were reported, in order. -/
  reports : List (Nat × Except Failure Unit) := []
deriving DecidableEq, Repr

/-- What lowering a function on its own gives. -/
def ownOutcome (t : Target) (o : Options) (gs : List Graph) (i : Nat) : Except Failure Unit :=
  (lowerGraph t o (gs.getD i default)).1

namespace Crew

/-- How many slots are taken. -/
def busy (c : Crew) : Nat := c.tasks.countP (!·.isReleased)

def setTask (c : Crew) (i : Nat) (st : TaskStage) : Crew := { c with tasks := c.tasks.set i st }

/-- A task returns an error: the first is recorded. -/
def fail (c : Crew) (i : Nat) (own : Bool) (e : TaskError) : Crew :=
  match c.failure with
  | none => { c with failure := some e }.setTask i (.calling own)
  | some _ => c.setTask i (.ending own)

section

variable (t : Target) (o : Options) (gs : List Graph) (workers : Int)

/-- The next step of the loop; `none` while it has to wait. The slots are limited if `workers` is
positive. -/
def stepLoop (c : Crew) : Option Crew :=
  match c.loop with
  | .looking =>
    if gs.length ≤ c.tasks.length || c.calledOff then some { c with loop := .waiting }
    else some { c with loop := .giving }
  | .giving =>
    if 0 < workers ∧ workers ≤ c.busy then none
    else some { c with loop := .looking, tasks := c.tasks ++ [.started] }
  | .waiting => if c.busy = 0 then some { c with loop := .returned c.failure } else none
  | .returned _ => none

/-- The next step of the task for function number `i`. -/
def stepTask (c : Crew) (i : Nat) : Option Crew :=
  match c.tasks[i]? with
  | none => none
  | some .started => some (c.setTask i (if c.calledOff then .skipping else .lowering))
  | some .lowering =>
    some ({ c with lowered := c.lowered ++ [i] }.setTask i (.lowered (ownOutcome t o gs i)))
  | some (.lowered r) => some ({ c with reports := c.reports ++ [(i, r)] }.setTask i (.reported r))
  | some (.reported (.ok _)) => some (c.setTask i (.ending true))
  | some (.reported (.error e)) => some (c.fail i true (.lowering e))
  | some .skipping => some (c.fail i false .calledOff)
  | some (.calling own) => some ({ c with calledOff := true }.setTask i (.ending own))
  | some (.ending own) => some (c.setTask i (.released own))
  | some (.released _) => none

def step (c : Crew) : Worker → Option Crew
  | .loop => c.stepLoop gs workers
  | .task i => c.stepTask t o gs i

/-- What a crew comes to when its workers take steps as a schedule says. -/
def run (c : Crew) (schedule : List Worker) : Option Crew := schedule.foldlM (step t o gs workers) c

/-- How many steps the crew has still to take at most. -/
def rank (c : Crew) : Nat :=
  10 * (gs.length - c.tasks.length) + c.loop.rank + (c.tasks.map TaskStage.rank).sum

end

end Crew

/-- Outcomes up to the first failure. -/
def untilFailure : List (Nat × Except Failure Unit) → List (Nat × Except Failure Unit)
  | [] => []
  | (i, .ok u) :: rest => (i, .ok u) :: untilFailure rest
  | (i, .error e) :: _ => [(i, .error e)]

variable {t : Target} {o : Options} {gs : List Graph} {workers : Int} {c c' : Crew} {i j : Nat}
  {schedule : List Worker} {tasks : List TaskStage}

namespace Crew

/-! ### Steps -/

/-- What a step of a task can be. -/
inductive TaskMove (own : Except Failure Unit) (c : Crew) (i : Nat) : Crew → Prop where
  | begin (h : c.tasks[i]? = some .started) (hoff : c.calledOff = false) :
      TaskMove own c i (c.setTask i .lowering)
  | skip (h : c.tasks[i]? = some .started) (hoff : c.calledOff) :
      TaskMove own c i (c.setTask i .skipping)
  | lower (h : c.tasks[i]? = some .lowering) :
      TaskMove own c i ({ c with lowered := c.lowered ++ [i] }.setTask i (.lowered own))
  | report (r : Except Failure Unit) (h : c.tasks[i]? = some (.lowered r)) :
      TaskMove own c i ({ c with reports := c.reports ++ [(i, r)] }.setTask i (.reported r))
  | succeed (u : Unit) (h : c.tasks[i]? = some (.reported (.ok u))) :
      TaskMove own c i (c.setTask i (.ending true))
  | recordFailure (f : Failure) (h : c.tasks[i]? = some (.reported (.error f)))
      (hf : c.failure = none) :
      TaskMove own c i ({ c with failure := some (.lowering f) }.setTask i (.calling true))
  | dropFailure (f : Failure) (h : c.tasks[i]? = some (.reported (.error f)))
      (hf : c.failure.isSome) : TaskMove own c i (c.setTask i (.ending true))
  | recordSkip (h : c.tasks[i]? = some .skipping) (hf : c.failure = none) :
      TaskMove own c i ({ c with failure := some .calledOff }.setTask i (.calling false))
  | dropSkip (h : c.tasks[i]? = some .skipping) (hf : c.failure.isSome) :
      TaskMove own c i (c.setTask i (.ending false))
  | callOff (b : Bool) (h : c.tasks[i]? = some (.calling b)) :
      TaskMove own c i ({ c with calledOff := true }.setTask i (.ending b))
  | release (b : Bool) (h : c.tasks[i]? = some (.ending b)) :
      TaskMove own c i (c.setTask i (.released b))

/-- What a step of the loop can be. -/
inductive LoopMove (gs : List Graph) (workers : Int) (c : Crew) : Crew → Prop where
  | look (h : c.loop = .looking) (hlt : c.tasks.length < gs.length) (hoff : c.calledOff = false) :
      LoopMove gs workers c { c with loop := .giving }
  | rest (h : c.loop = .looking) (hend : gs.length ≤ c.tasks.length ∨ c.calledOff) :
      LoopMove gs workers c { c with loop := .waiting }
  | give (h : c.loop = .giving) (hslot : 0 < workers → (c.busy : Int) < workers) :
      LoopMove gs workers c { c with loop := .looking, tasks := c.tasks ++ [.started] }
  | ret (h : c.loop = .waiting) (hbusy : c.busy = 0) :
      LoopMove gs workers c { c with loop := .returned c.failure }

theorem taskMove_of_stepTask (h : c.stepTask t o gs i = some c') :
    TaskMove (ownOutcome t o gs i) c i c' := by
  have hfail : ∀ b e, c.fail i b e = match c.failure with
      | none => { c with failure := some e }.setTask i (.calling b)
      | some _ => c.setTask i (.ending b) := fun _ _ => rfl
  unfold stepTask at h
  split at h <;> rename_i hst
  · cases h
  · cases h
    split <;> rename_i hoff
    · exact .skip hst hoff
    · exact .begin hst (by simpa using hoff)
  · cases h
    exact .lower hst
  · cases h
    exact .report _ hst
  · cases h
    exact .succeed _ hst
  · cases h
    rw [hfail]
    cases hf : c.failure with
    | none => exact .recordFailure _ hst hf
    | some e => exact .dropFailure _ hst (by simp [hf])
  · cases h
    rw [hfail]
    cases hf : c.failure with
    | none => exact .recordSkip hst hf
    | some e => exact .dropSkip hst (by simp [hf])
  · cases h
    exact .callOff _ hst
  · cases h
    exact .release _ hst
  · cases h

theorem loopMove_of_stepLoop (h : c.stepLoop gs workers = some c') : LoopMove gs workers c c' := by
  unfold stepLoop at h
  split at h <;> rename_i hst
  · split at h <;> rename_i hend <;> cases h
    · exact .rest hst (by simpa using hend)
    · simp only [Bool.or_eq_true, decide_eq_true_eq, not_or, Bool.not_eq_true] at hend
      exact .look hst (by omega) hend.2
  · split at h <;> rename_i hslot <;> cases h
    exact .give hst (by omega)
  · split at h <;> rename_i hbusy <;> cases h
    exact .ret hst hbusy
  · cases h

theorem exists_of_run {w : Worker} :
    c.run t o gs workers (w :: schedule) = some c' ↔
      ∃ c₁, c.step t o gs workers w = some c₁ ∧ c₁.run t o gs workers schedule = some c' := by
  simp [run, List.foldlM_cons, Option.bind_eq_some_iff]

theorem run_keeps {P : Crew → Prop}
    (htask : ∀ c i c', P c → TaskMove (ownOutcome t o gs i) c i c' → P c')
    (hloop : ∀ c c', P c → LoopMove gs workers c c' → P c')
    (h : c.run t o gs workers schedule = some c') (hc : P c) : P c' := by
  induction schedule generalizing c with
  | nil =>
    cases h
    exact hc
  | cons w schedule ih =>
    obtain ⟨c₁, hstep, hrun⟩ := exists_of_run.1 h
    refine ih hrun ?_
    cases w with
    | loop => exact hloop c c₁ hc (loopMove_of_stepLoop hstep)
    | task i => exact htask c i c₁ hc (taskMove_of_stepTask hstep)

/-! ### Every schedule ends -/

theorem sum_rank_set {st : TaskStage} (st' : TaskStage) (h : tasks[i]? = some st) :
    ((tasks.set i st').map TaskStage.rank).sum + st.rank =
      (tasks.map TaskStage.rank).sum + st'.rank := by
  induction tasks generalizing i with
  | nil => cases h
  | cons a tasks ih =>
    cases i with
    | zero =>
      cases h
      simp
      omega
    | succ i =>
      have := ih (i := i) (by simpa using h)
      simp only [List.set_cons_succ, List.map_cons, List.sum_cons]
      omega

theorem rank_setTask {st st' : TaskStage} (h : c.tasks[i]? = some st) (hlt : st'.rank < st.rank)
    (hc : c'.tasks = c.tasks.set i st') (hloop : c'.loop = c.loop) : c'.rank gs < c.rank gs := by
  have := sum_rank_set st' h
  simp only [rank, hc, hloop, List.length_set]
  omega

theorem rank_taskMove {own : Except Failure Unit} (h : TaskMove own c i c') :
    c'.rank gs < c.rank gs := by
  cases h with
  | begin h | skip h | lower h | report _ h | succeed _ h | recordFailure _ h | dropFailure _ h
  | recordSkip h | dropSkip h | callOff _ h | release _ h =>
    exact rank_setTask h (by simp [TaskStage.rank]) rfl rfl

theorem rank_loopMove (hlen : c.loop = .giving → c.tasks.length < gs.length)
    (h : LoopMove gs workers c c') : c'.rank gs < c.rank gs := by
  cases h with
  | look h | rest h | ret h => simp [rank, h, LoopStage.rank]
  | give h =>
    have := hlen h
    simp only [rank, h, LoopStage.rank, List.length_append, List.length_singleton, List.map_append,
      List.map_singleton, List.sum_append, List.sum_singleton, TaskStage.rank]
    omega

/-- A task that has its slot can take a step. -/
theorem exists_stepTask {st : TaskStage} (h : c.tasks[i]? = some st) (hst : st.isReleased = false) :
    ∃ c', c.stepTask t o gs i = some c' := by
  unfold stepTask
  rw [h]
  cases st with
  | reported r => cases r <;> exact ⟨_, rfl⟩
  | released => cases hst
  | _ => exact ⟨_, rfl⟩

/-- Until the loop has returned, something can take a step. -/
theorem exists_step (h : ∀ e, c.loop ≠ .returned e) :
    ∃ w c', c.step t o gs workers w = some c' := by
  -- while slots are taken their tasks can go on
  have htask : c.busy ≠ 0 → ∃ w c', c.step t o gs workers w = some c' := by
    intro hbusy
    obtain ⟨st, hmem, hst⟩ := List.countP_pos_iff.1 (Nat.pos_of_ne_zero hbusy)
    obtain ⟨i, hi⟩ := List.mem_iff_getElem?.1 hmem
    obtain ⟨c', hc'⟩ : ∃ c', c.stepTask t o gs i = some c' :=
      exists_stepTask hi (by simpa using hst)
    exact ⟨.task i, c', hc'⟩
  cases hl : c.loop with
  | looking =>
    refine ⟨.loop, ?_⟩
    simp only [step, stepLoop, hl]
    split <;> exact ⟨_, rfl⟩
  | giving =>
    by_cases hslot : 0 < workers ∧ workers ≤ c.busy
    · exact htask (by omega)
    · exact ⟨.loop, by simp only [step, stepLoop, hl, if_neg hslot]; exact ⟨_, rfl⟩⟩
  | waiting =>
    by_cases hbusy : c.busy = 0
    · exact ⟨.loop, by simp only [step, stepLoop, hl, if_pos hbusy]; exact ⟨_, rfl⟩⟩
    · exact htask hbusy
  | returned e => exact absurd hl (h e)

end Crew

/-! ### What holds of every crew -/

/-- What holds of a task, given what lowering its function gives. -/
def TaskStage.Fits (own : Except Failure Unit) (c : Crew) : TaskStage → Prop
  | started | lowering => True
  | lowered r | reported r => r = own
  | skipping => c.calledOff
  | calling b => c.failure.isSome ∧ (b = false → c.calledOff)
  | ending b | released b => (b = false → c.calledOff) ∧ (b → own = .ok () ∨ c.failure.isSome)

theorem TaskStage.Fits.mono {own : Except Failure Unit} {st : TaskStage} (h : st.Fits own c)
    (hoff : c.calledOff → c'.calledOff) (hf : c.failure.isSome → c'.failure.isSome) :
    st.Fits own c' := by
  cases st with
  | started | lowering => trivial
  | lowered r | reported r => exact h
  | skipping => exact hoff h
  | calling b => exact ⟨hf h.1, fun hb => hoff (h.2 hb)⟩
  | ending b | released b => exact ⟨fun hb => hoff (h.1 hb), fun hb => (h.2 hb).imp_right hf⟩

namespace Crew

/-- What holds of a crew whatever its schedule was. -/
structure Sane (own : Nat → Except Failure Unit) (gs : List Graph) (c : Crew) : Prop where
  length : c.tasks.length ≤ gs.length
  giving : c.loop = .giving → c.tasks.length < gs.length
  fits : ∀ i st, c.tasks[i]? = some st → TaskStage.Fits (own i) c st
  lowered : ∀ i, c.lowered.count i = if (c.tasks[i]?).any (·.hasLowered) then 1 else 0
  reported : ∀ i, (c.reports.map Prod.fst).count i = if (c.tasks[i]?).any
    (·.hasReported) then 1 else 0
  reports : ∀ r ∈ c.reports, r.2 = own r.1
  failure : ∀ e, c.failure = some e → ∃ i f, e = .lowering f ∧ (i, .error f) ∈ c.reports
  calledOff : c.calledOff → c.failure.isSome
  waiting : c.loop = .waiting → c.tasks.length = gs.length ∨ c.calledOff
  returned : ∀ e, c.loop = .returned e →
    e = c.failure ∧ c.busy = 0 ∧ (c.tasks.length = gs.length ∨ c.calledOff)

variable {own : Nat → Except Failure Unit} {st st' : TaskStage}

theorem Sane.start (own : Nat → Except Failure Unit) (gs : List Graph) : Sane own gs {} where
  length := Nat.zero_le _
  giving := nofun
  fits := fun _ _ h => nomatch h
  lowered := fun _ => rfl
  reported := fun _ => rfl
  reports := fun _ h => nomatch h
  failure := fun _ h => nomatch h
  calledOff := nofun
  waiting := nofun
  returned := fun _ h => nomatch h

theorem busy_ne_zero (h : c.tasks[i]? = some st) (hst : st.isReleased = false) : c.busy ≠ 0 := by
  rw [busy, Nat.ne_zero_iff_zero_lt, List.countP_pos_iff]
  exact ⟨st, List.mem_of_getElem? h, by simp [hst]⟩

/-- A history in which a task is noted when its stage says so. -/
theorem count_set {l l' : List Nat} {noted : TaskStage → Bool}
    (h : ∀ j, l.count j = if (tasks[j]?).any noted then 1 else 0) (hst : tasks[i]? = some st)
    (hl : l' = l ∧ noted st' = noted st ∨ l' = l ++ [i] ∧ noted st = false ∧ noted st' = true)
    (j : Nat) : l'.count j = if ((tasks.set i st')[j]?).any noted then 1 else 0 := by
  have hi := (List.getElem?_eq_some_iff.1 hst).1
  have hj := h j
  by_cases hij : i = j
  · subst hij
    rw [List.getElem?_set_self hi]
    rw [hst] at hj
    rcases hl with ⟨rfl, he⟩ | ⟨rfl, he, he'⟩
    · simpa [he] using hj
    · simpa [he, he'] using hj
  · rw [List.getElem?_set_ne hij, ← hj]
    rcases hl with ⟨rfl, -⟩ | ⟨rfl, -⟩
    · rfl
    · simp [List.count_append, hij]

/-- What a step of a task changes of what holds: its own stage, and what it notes. -/
theorem Sane.setTask (h : Sane own gs c) (hst : c.tasks[i]? = some st)
    (hrel : st.isReleased = false) (htasks : c'.tasks = c.tasks.set i st')
    (hloop : c'.loop = c.loop) (hfit : TaskStage.Fits (own i) c' st')
    (hoff : c.calledOff → c'.calledOff) (hf : c.failure.isSome → c'.failure.isSome)
    (hlowered : c'.lowered = c.lowered ∧ st'.hasLowered = st.hasLowered ∨
      c'.lowered = c.lowered ++ [i] ∧ st.hasLowered = false ∧ st'.hasLowered = true)
    (hreported : c'.reports = c.reports ∧ st'.hasReported = st.hasReported ∨
      c'.reports = c.reports ++ [(i, own i)] ∧ st.hasReported = false ∧ st'.hasReported = true)
    (hfailure : ∀ e, c'.failure = some e → ∃ i f, e = .lowering f ∧ (i, .error f) ∈ c'.reports)
    (hcalled : c'.calledOff → c'.failure.isSome) : Sane own gs c' := by
  refine ⟨?_, ?_, fun j st hj => ?_, ?_, ?_, fun r hr => ?_, hfailure, hcalled, fun hw => ?_,
    fun e he => ?_⟩
  · simpa [htasks] using h.length
  · simpa [htasks, hloop] using h.giving
  · rw [htasks] at hj
    by_cases hij : i = j
    · subst hij
      rw [List.getElem?_set_self (List.getElem?_eq_some_iff.1 hst).1] at hj
      cases hj
      exact hfit
    · rw [List.getElem?_set_ne hij] at hj
      exact (h.fits j st hj).mono hoff hf
  · rw [htasks]
    exact count_set h.lowered hst hlowered
  · rw [htasks]
    refine count_set h.reported hst
      (hreported.imp (And.imp_left fun he => ?_) (And.imp_left fun he => ?_))
    · rw [he]
    · rw [he, List.map_append, List.map_singleton]
  · rcases hreported with ⟨he, -⟩ | ⟨he, -⟩ <;> rw [he] at hr
    · exact h.reports r hr
    · rcases List.mem_append.1 hr with hr | hr
      · exact h.reports r hr
      · cases List.mem_singleton.1 hr
        rfl
  · rw [hloop] at hw
    simpa [htasks] using (h.waiting hw).imp_right hoff
  · rw [hloop] at he
    exact absurd (h.returned e he).2.1 (busy_ne_zero hst hrel)

theorem Sane.taskMove (h : Sane own gs c) (hm : TaskMove (own i) c i c') : Sane own gs c' := by
  -- nothing but a report adds to the reports, and nothing but a first error changes what is
  -- recorded
  have hsame : ∀ {c' : Crew}, c'.failure = c.failure → c'.reports = c.reports →
      ∀ e, c'.failure = some e → ∃ i f, e = .lowering f ∧ (i, .error f) ∈ c'.reports := by
    intro c' hf hr e he
    rw [hr]
    exact h.failure e (hf ▸ he)
  cases hm with
  | begin hst hoff =>
    exact h.setTask hst rfl rfl rfl trivial id id (.inl ⟨rfl, rfl⟩) (.inl ⟨rfl, rfl⟩)
      (hsame rfl rfl) h.calledOff
  | skip hst hoff =>
    exact h.setTask hst rfl rfl rfl hoff id id (.inl ⟨rfl, rfl⟩) (.inl ⟨rfl, rfl⟩) (hsame rfl rfl)
      h.calledOff
  | lower hst =>
    exact h.setTask hst rfl rfl rfl rfl id id (.inr ⟨rfl, rfl, rfl⟩) (.inl ⟨rfl, rfl⟩)
      (hsame rfl rfl) h.calledOff
  | report r hst =>
    obtain rfl : r = own i := h.fits i _ hst
    refine h.setTask hst rfl rfl rfl rfl id id (.inl ⟨rfl, rfl⟩) (.inr ⟨rfl, rfl, rfl⟩)
      (fun e he => ?_) h.calledOff
    obtain ⟨j, f, rfl, hmem⟩ := h.failure e he
    exact ⟨j, f, rfl, List.mem_append_left _ hmem⟩
  | succeed u hst =>
    have hown : Except.ok u = own i := h.fits i _ hst
    exact h.setTask hst rfl rfl rfl ⟨nofun, fun _ => .inl hown.symm⟩ id id (.inl ⟨rfl, rfl⟩)
      (.inl ⟨rfl, rfl⟩) (hsame rfl rfl) h.calledOff
  | recordFailure f hst hf =>
    have hown : Except.error f = own i := h.fits i _ hst
    refine h.setTask hst rfl rfl rfl ⟨rfl, nofun⟩ id (fun _ => rfl) (.inl ⟨rfl, rfl⟩)
      (.inl ⟨rfl, rfl⟩) (fun e he => ?_) fun _ => rfl
    cases he
    -- the task has reported what it records
    have hcount := h.reported i
    rw [hst] at hcount
    have hmem : i ∈ c.reports.map Prod.fst :=
      List.count_pos_iff.1 (by simp [hcount, TaskStage.hasReported])
    obtain ⟨r, hr, rfl⟩ := List.mem_map.1 hmem
    refine ⟨r.1, f, rfl, ?_⟩
    rw [hown, ← h.reports r hr]
    exact hr
  | dropFailure f hst hf =>
    exact h.setTask hst rfl rfl rfl ⟨nofun, fun _ => .inr hf⟩ id id (.inl ⟨rfl, rfl⟩)
      (.inl ⟨rfl, rfl⟩) (hsame rfl rfl) h.calledOff
  | recordSkip hst hf =>
    -- work is called off after an error was recorded only
    have hoff : c.calledOff := h.fits i _ hst
    have := h.calledOff hoff
    rw [hf] at this
    cases this
  | dropSkip hst hf =>
    exact h.setTask hst rfl rfl rfl ⟨fun _ => h.fits i _ hst, nofun⟩ id id (.inl ⟨rfl, rfl⟩)
      (.inl ⟨rfl, rfl⟩) (hsame rfl rfl) h.calledOff
  | callOff b hst =>
    have hf := h.fits i _ hst
    exact h.setTask hst rfl rfl rfl ⟨fun _ => rfl, fun _ => .inr hf.1⟩ (fun _ => rfl) id
      (.inl ⟨rfl, rfl⟩) (.inl ⟨rfl, rfl⟩) (hsame rfl rfl) fun _ => hf.1
  | release b hst =>
    exact h.setTask hst rfl rfl rfl (h.fits i _ hst) id id (.inl ⟨rfl, rfl⟩) (.inl ⟨rfl, rfl⟩)
      (hsame rfl rfl) h.calledOff

theorem Sane.loopMove (h : Sane own gs c) (hm : LoopMove gs workers c c') : Sane own gs c' := by
  cases hm with
  | look hl hlt hoff =>
    exact ⟨h.length, fun _ => hlt, h.fits, h.lowered, h.reported, h.reports, h.failure, h.calledOff,
      nofun, fun _ he => nomatch he⟩
  | rest hl hend =>
    exact ⟨h.length, nofun, h.fits, h.lowered, h.reported, h.reports, h.failure, h.calledOff,
      fun _ => hend.imp_left fun hle => Nat.le_antisymm h.length hle,
      fun _ he => nomatch he⟩
  | give hl hslot =>
    have hlt := h.giving hl
    -- the new task has noted nothing yet
    have hany : ∀ (noted : TaskStage → Bool) (j : Nat), noted .started = false →
        ((c.tasks ++ [.started])[j]?).any noted = (c.tasks[j]?).any noted := by
      intro noted j hn
      rw [List.getElem?_append]
      split
      · rfl
      · rename_i hj
        rw [List.getElem?_eq_none (Nat.le_of_not_lt hj)]
        rcases Nat.eq_zero_or_pos (j - c.tasks.length) with he | hpos
        · simp [he, hn]
        · rw [List.getElem?_eq_none hpos]
    refine ⟨?_, nofun, fun j st hj => ?_, fun j => ?_,
      fun j => ?_, h.reports, h.failure, h.calledOff, nofun, fun _ he => nomatch he⟩
    · simp only [List.length_append, List.length_singleton]
      omega
    · rw [List.getElem?_append] at hj
      split at hj
      · exact h.fits j st hj
      · obtain rfl := List.mem_singleton.1 (List.mem_of_getElem? hj)
        trivial
    · rw [hany _ j rfl]
      exact h.lowered j
    · rw [hany _ j rfl]
      exact h.reported j
  | ret hl hbusy =>
    refine ⟨h.length, nofun, h.fits, h.lowered, h.reported, h.reports, h.failure,
      h.calledOff, nofun, fun e he => ?_⟩
    cases he
    exact ⟨rfl, hbusy, h.waiting hl⟩

theorem Sane.run (h : run t o gs workers {} schedule = some c) :
    Sane (ownOutcome t o gs) gs c :=
  run_keeps (fun _ _ _ hc hm => hc.taskMove hm) (fun _ _ hc hm => hc.loopMove hm) h (.start _ _)

/-! ### One worker -/

end Crew

/-- What holds of the task of a single worker beside that. -/
def TaskStage.Single (own : Except Failure Unit) (c : Crew) : TaskStage → Prop
  | started | skipping => True
  | lowering | lowered _ | reported _ => c.calledOff = false ∧ c.failure = none
  | calling b => b ∧ own ≠ .ok ()
  | ending b | released b => b → own = .ok () ∨ c.calledOff

variable {e : Option TaskError}

namespace Crew

/-- The first `n` functions were reported, all but the last of them were lowered, and the last was
not if work was called off. -/
structure Reported (own : Nat → Except Failure Unit) (c : Crew) (n : Nat) : Prop where
  reports : c.reports = (List.range n).map fun i => (i, own i)
  noted : ∀ i st, c.tasks[i]? = some st → (st.hasReported ↔ i < n)
  length : n ≤ c.tasks.length
  before : ∀ i, i + 1 < n → own i = .ok ()
  last : c.calledOff → ∃ i, n = i + 1 ∧ own i ≠ .ok ()

/-- What holds of a single worker: one function is worked on after the other, and none after a
failure. -/
structure InOrder (own : Nat → Except Failure Unit) (c : Crew) : Prop where
  alone : ∀ i st, c.tasks[i]? = some st → st.isReleased = false → i + 1 = c.tasks.length
  single : ∀ i st, c.tasks[i]? = some st → TaskStage.Single (own i) c st
  recorded : c.failure.isSome → c.calledOff ∨ ∃ i : Nat, c.tasks[i]? = some (.calling true)
  reported : ∃ n, Reported own c n

theorem InOrder.start (own : Nat → Except Failure Unit) : InOrder own {} :=
  ⟨fun _ _ h => (nomatch h), fun _ _ h => (nomatch h), nofun, 0, rfl, fun _ _ h => (nomatch h),
    Nat.le_refl _, fun _ h => (nomatch h), nofun⟩

theorem getElem?_set (h : tasks[i]? = some st) (j : Nat) :
    (tasks.set i st')[j]? = if i = j then some st' else tasks[j]? := by
  rw [List.getElem?_set, if_pos (List.getElem?_eq_some_iff.1 h).1]

/-- A step of a task that reports nothing and does not call work off. -/
theorem Reported.setTask {n : Nat} (h : Reported own c n) (hst : c.tasks[i]? = some st)
    (htasks : c'.tasks = c.tasks.set i st') (hreports : c'.reports = c.reports)
    (hnoted : st'.hasReported = st.hasReported) (hoff : c'.calledOff = c.calledOff) :
    Reported own c' n := by
  refine ⟨hreports.trans h.reports, fun j st'' hj => ?_, ?_, h.before, hoff ▸ h.last⟩
  · rw [htasks, getElem?_set hst] at hj
    split at hj <;> rename_i hij
    · subst hij
      cases hj
      rw [hnoted]
      exact h.noted i st hst
    · exact h.noted j st'' hj
  · simpa [htasks] using h.length

namespace InOrder

theorem other (h : InOrder own c) (hst : c.tasks[i]? = some st) (hrel : st.isReleased = false)
    (hst' : c.tasks[j]? = some st') (hij : i ≠ j) : j < i ∧ ∃ b, st' = .released b := by
  have hi := h.alone i st hst hrel
  have hj := (List.getElem?_eq_some_iff.1 hst').1
  cases hr : st'.isReleased with
  | false =>
    have := h.alone j st' hst' hr
    omega
  | true =>
    refine ⟨by omega, ?_⟩
    cases st' with
    | released b => exact ⟨b, rfl⟩
    | _ => cases hr

/-- While nothing is called off, an error is recorded by the task that is about to do so. -/
theorem calledOff_of_failure (h : InOrder own c) (hst : c.tasks[i]? = some st)
    (hrel : st.isReleased = false) (hne : st ≠ .calling true) (hf : c.failure.isSome) :
    c.calledOff := by
  rcases h.recorded hf with hoff | ⟨j, hj⟩
  · exact hoff
  · by_cases hij : i = j
    · subst hij
      rw [hst] at hj
      cases hj
      exact absurd rfl hne
    · obtain ⟨-, b, hb⟩ := h.other hst hrel hj hij
      cases hb

/-- Nothing was called off: then all that was given out before was reported and lowered. -/
theorem before (h : InOrder own c) (hs : Sane own gs c) (hst : c.tasks[i]? = some st)
    (hrel : st.isReleased = false) (hoff : c.calledOff = false) (hj : j < i) :
    c.tasks[j]? = some (.released true) ∧ own j = .ok () := by
  have hlen := h.alone i st hst hrel
  have hst' := List.getElem?_eq_getElem (l := c.tasks) (i := j) (by omega)
  obtain ⟨-, b, hb⟩ := h.other hst hrel hst' (by omega)
  rw [hb] at hst'
  have hfits := hs.fits j _ hst'
  have hsingle := h.single j _ hst'
  cases b with
  | false =>
    rw [hfits.1 rfl] at hoff
    cases hoff
  | true =>
    refine ⟨hst', (hsingle rfl).resolve_right ?_⟩
    simp [hoff]

/-- The function that is worked on comes right behind those that were reported. -/
theorem reported_eq {n : Nat} (h : InOrder own c) (hs : Sane own gs c) (hst : c.tasks[i]? = some st)
    (hrel : st.isReleased = false) (hoff : c.calledOff = false) (hn : Reported own c n) :
    n = if st.hasReported then i + 1 else i := by
  have hlen := h.alone i st hst hrel
  have hle := hn.length
  have hself := hn.noted i st hst
  have hbefore : ∀ j, j < i → j < n := fun j hj =>
    (hn.noted j _ (h.before hs hst hrel hoff hj).1).1 rfl
  split <;> rename_i hr
  · have := hself.1 hr
    omega
  · have : ¬ i < n := fun hlt => hr (hself.2 hlt)
    rcases Nat.eq_zero_or_pos i with rfl | hpos
    · omega
    · have := hbefore (i - 1) (by omega)
      omega

theorem setTask (h : InOrder own c) (hst : c.tasks[i]? = some st) (hrel : st.isReleased = false)
    (htasks : c'.tasks = c.tasks.set i st') (hoff : c.calledOff → c'.calledOff)
    (hf : c'.failure.isSome → c'.calledOff ∨ st' = .calling true)
    (hsingle : TaskStage.Single (own i) c' st') (hreported : ∃ n, Reported own c' n) :
    InOrder own c' := by
  refine ⟨fun j st'' hj hrel' => ?_, fun j st'' hj => ?_, fun hf' => ?_, hreported⟩
  · rw [htasks, List.length_set]
    rw [htasks, getElem?_set hst] at hj
    split at hj <;> rename_i hij
    · exact hij ▸ h.alone i st hst hrel
    · exact h.alone j st'' hj hrel'
  · rw [htasks, getElem?_set hst] at hj
    split at hj <;> rename_i hij
    · subst hij
      cases hj
      exact hsingle
    · have hs := h.single j st'' hj
      obtain ⟨-, b, rfl⟩ := h.other hst hrel hj hij
      exact fun hb => (hs hb).imp_right hoff
  · refine (hf hf').imp_right fun he => ⟨i, ?_⟩
    rw [htasks, getElem?_set hst, if_pos rfl, he]

theorem silent (h : InOrder own c) (hst : c.tasks[i]? = some st) (hrel : st.isReleased = false)
    (hne : st ≠ .calling true) (htasks : c'.tasks = c.tasks.set i st')
    (hnoted : st'.hasReported = st.hasReported) (hreports : c'.reports = c.reports)
    (hoff : c'.calledOff = c.calledOff) (hf : c'.failure = c.failure)
    (hsingle : TaskStage.Single (own i) c' st') : InOrder own c' := by
  obtain ⟨n, hn⟩ := h.reported
  refine h.setTask hst hrel htasks (fun h' => hoff ▸ h') (fun hf' => .inl ?_) hsingle
    ⟨n, hn.setTask hst htasks hreports hnoted hoff⟩
  rw [hoff]
  exact h.calledOff_of_failure hst hrel hne (hf ▸ hf')

theorem taskMove (h : InOrder own c) (hs : Sane own gs c) (hm : TaskMove (own i) c i c') :
    InOrder own c' := by
  obtain ⟨n, hn⟩ := h.reported
  cases hm with
  | begin hst hoff =>
    refine h.silent hst rfl nofun rfl rfl rfl rfl rfl ⟨hoff, ?_⟩
    show c.failure = none
    rw [← Option.not_isSome_iff_eq_none]
    intro hf
    simp [h.calledOff_of_failure hst rfl nofun hf] at hoff
  | skip hst hoff => exact h.silent hst rfl nofun rfl rfl rfl rfl rfl trivial
  | lower hst => exact h.silent hst rfl nofun rfl rfl rfl rfl rfl (h.single i _ hst)
  | report r hst =>
    obtain rfl : r = own i := hs.fits i _ hst
    obtain ⟨hoff, hnone⟩ := h.single i _ hst
    obtain rfl : n = i := h.reported_eq hs hst rfl hoff hn
    refine h.setTask hst rfl rfl id (fun hf => ?_) ⟨hoff, hnone⟩ ⟨n + 1, ?_, fun j st hj => ?_, ?_,
      fun j hj => (h.before hs hst rfl hoff (by omega)).2, fun hoff' => ?_⟩
    · rw [show c.failure = none from hnone] at hf
      cases hf
    · simp [hn.reports, Crew.setTask, List.range_succ]
    · rw [Crew.setTask, getElem?_set hst] at hj
      split at hj <;> rename_i hij
      · cases hj
        simp [TaskStage.hasReported, hij]
      · rw [hn.noted j st hj]
        omega
    · have := (List.getElem?_eq_some_iff.1 hst).1
      rw [Crew.setTask, List.length_set]
      exact this
    · rw [show c.calledOff = true from hoff'] at hoff
      cases hoff
  | succeed u hst =>
    have hown : Except.ok u = own i := hs.fits i _ hst
    exact h.silent hst rfl nofun rfl rfl rfl rfl rfl fun _ => .inl hown.symm
  | recordFailure f hst hf =>
    have hown : Except.error f = own i := hs.fits i _ hst
    exact h.setTask hst rfl rfl id (fun _ => .inr rfl) ⟨rfl, by rw [← hown]; nofun⟩
      ⟨n, hn.setTask hst rfl rfl rfl rfl⟩
  | dropFailure f hst hf =>
    rw [(h.single i _ hst).2] at hf
    cases hf
  | recordSkip hst hf =>
    have := hs.calledOff (hs.fits i _ hst)
    rw [hf] at this
    cases this
  | dropSkip hst hf => exact h.silent hst rfl nofun rfl rfl rfl rfl rfl nofun
  | callOff b hst =>
    obtain ⟨rfl, hown⟩ := h.single i _ hst
    have hlast : n = i + 1 := by
      have h₁ := (hn.noted i _ hst).1 rfl
      have h₂ := hn.length
      have h₃ := h.alone i _ hst rfl
      omega
    have hn' : Reported own (c.setTask i (.ending true)) n := hn.setTask hst rfl rfl rfl rfl
    exact h.setTask hst rfl rfl (fun _ => rfl) (fun _ => .inl rfl) (fun _ => .inr rfl)
      ⟨n, hn'.reports, hn'.noted, hn'.length, hn'.before, fun _ => ⟨i, hlast, hown⟩⟩
  | release b hst => exact h.silent hst rfl nofun rfl rfl rfl rfl rfl (h.single i _ hst)

theorem loopMove (h : InOrder own c) (hm : LoopMove gs 1 c c') : InOrder own c' := by
  obtain ⟨n, hn⟩ := h.reported
  cases hm with
  | look | rest | ret =>
    exact ⟨h.alone, h.single, h.recorded, n, hn.reports, hn.noted, hn.length, hn.before, hn.last⟩
  | give hl hslot =>
    -- the slot is free, so all tasks before the new one have ended
    have hbusy : c.busy = 0 := by
      have := hslot (by decide)
      omega
    have hcases : ∀ {j : Nat} {st : TaskStage}, (c.tasks ++ [.started])[j]? = some st →
        c.tasks[j]? = some st ∨ j = c.tasks.length ∧ st = .started := by
      intro j st hj
      rw [List.getElem?_append] at hj
      split at hj <;> rename_i hlt
      · exact .inl hj
      · have := (List.getElem?_eq_some_iff.1 hj).1
        rw [List.length_singleton] at this
        exact .inr ⟨by omega, List.mem_singleton.1 (List.mem_of_getElem? hj)⟩
    refine ⟨fun j st hj hrel => ?_, fun j st hj => ?_, fun hf => ?_, n, hn.reports,
      fun j st hj => ?_, ?_, hn.before, hn.last⟩
    · rcases hcases hj with hj | ⟨rfl, rfl⟩
      · exact absurd hbusy (busy_ne_zero hj hrel)
      · simp
    · rcases hcases hj with hj | ⟨rfl, rfl⟩
      · exact h.single j st hj
      · trivial
    · refine (h.recorded hf).imp_right fun ⟨j, hj⟩ => ⟨j, ?_⟩
      rw [List.getElem?_append_left (List.getElem?_eq_some_iff.1 hj).1]
      exact hj
    · rcases hcases hj with hj | ⟨rfl, rfl⟩
      · exact hn.noted j st hj
      · have := hn.length
        simp only [TaskStage.hasReported, Bool.false_eq_true, false_iff]
        omega
    · have := hn.length
      simp only [List.length_append, List.length_singleton]
      omega

theorem run (h : Crew.run t o gs 1 {} schedule = some c) :
    InOrder (ownOutcome t o gs) c := by
  have hboth : InOrder (ownOutcome t o gs) c ∧ Sane (ownOutcome t o gs) gs c :=
    run_keeps (P := fun c => InOrder (ownOutcome t o gs) c ∧ Sane (ownOutcome t o gs) gs c)
      (fun _ _ _ hc hm => ⟨hc.1.taskMove hc.2 hm, hc.2.taskMove hm⟩)
      (fun _ _ hc hm => ⟨hc.1.loopMove hm, hc.2.loopMove hm⟩) h ⟨.start _, .start _ _⟩
  exact hboth.1

end InOrder

/-! ### Outcomes -/

/-- A schedule is at most as long as the steps that there are to take. -/
theorem length_add_rank_le (hc : Sane (ownOutcome t o gs) gs c)
    (h : c.run t o gs workers schedule = some c') : schedule.length + c'.rank gs ≤ c.rank gs := by
  induction schedule generalizing c with
  | nil =>
    cases h
    simp
  | cons w schedule ih =>
    obtain ⟨c₁, hstep, hrun⟩ := exists_of_run.1 h
    have hlt : c₁.rank gs < c.rank gs ∧ Sane (ownOutcome t o gs) gs c₁ := by
      cases w with
      | loop =>
        have hm := loopMove_of_stepLoop hstep
        exact ⟨rank_loopMove hc.giving hm, hc.loopMove hm⟩
      | task i =>
        have hm := taskMove_of_stepTask hstep
        exact ⟨rank_taskMove hm, hc.taskMove hm⟩
    have := ih hlt.2 hrun
    rw [List.length_cons]
    omega

/-- When the loop has returned, every task has ended. -/
theorem Sane.released (h : Sane own gs c) (he : c.loop = .returned e)
    (hst : c.tasks[i]? = some st) : ∃ b, st = .released b := by
  cases hr : st.isReleased with
  | false => exact absurd (h.returned e he).2.1 (busy_ne_zero hst hr)
  | true =>
    cases st with
    | released b => exact ⟨b, rfl⟩
    | _ => cases hr

theorem Sane.lt_of_mem_reports {r : Except Failure Unit} (h : Sane own gs c)
    (hmem : (i, r) ∈ c.reports) : i < gs.length := by
  by_contra hge
  have hpos : 0 < (c.reports.map Prod.fst).count i :=
    List.count_pos_iff.2 (List.mem_map_of_mem hmem)
  have hlen := h.length
  rw [h.reported, List.getElem?_eq_none (by omega)] at hpos
  simp at hpos

theorem Sane.failure_eq_none_iff (h : Sane own gs c)
    (he : c.loop = .returned e) : e = none ↔ ∀ i < gs.length, own i = .ok () := by
  obtain ⟨rfl, -, hall⟩ := h.returned e he
  constructor
  · intro hnone i hi
    have hoff : c.calledOff = false := by
      cases hoff : c.calledOff with
      | false => rfl
      | true =>
        have := h.calledOff hoff
        rw [hnone] at this
        cases this
    have hlen : c.tasks.length = gs.length := hall.resolve_right (by simp [hoff])
    have hst := List.getElem?_eq_getElem (hlen ▸ hi)
    have hfits := h.fits i _ hst
    obtain ⟨b, hb⟩ := h.released he hst
    rw [hb] at hfits
    cases b with
    | false =>
      rw [hfits.1 rfl] at hoff
      cases hoff
    | true =>
      refine (hfits.2 rfl).resolve_right ?_
      rw [hnone]
      nofun
  · intro hok
    cases hf : c.failure with
    | none => rfl
    | some err =>
      obtain ⟨i, f, -, hmem⟩ := h.failure err hf
      have hown := h.reports _ hmem
      rw [hok i (h.lt_of_mem_reports hmem)] at hown
      cases hown

end Crew

theorem untilFailure_append {l l' : List (Nat × Except Failure Unit)} (h : ∀ r ∈ l, r.2 = .ok ()) :
    untilFailure (l ++ l') = l ++ untilFailure l' := by
  induction l with
  | nil => rfl
  | cons r l ih =>
    obtain ⟨i, r⟩ := r
    cases h (i, r) (by simp)
    rw [List.cons_append, untilFailure, ih fun r hr => h r (by simp [hr]), List.cons_append]

namespace Crew

theorem InOrder.reports_eq (h : InOrder own c) (hs : Sane own gs c)
    (he : c.loop = .returned e) :
    c.reports = untilFailure ((List.range gs.length).map fun i => (i, own i)) := by
  obtain ⟨n, hn⟩ := h.reported
  obtain ⟨-, -, hall⟩ := hs.returned e he
  have hlen := hs.length
  have hle := hn.length
  rw [hn.reports]
  by_cases hoff : c.calledOff
  · -- the last function that was reported failed
    obtain ⟨k, rfl, hk⟩ := hn.last hoff
    obtain ⟨m, hm⟩ : ∃ m, gs.length = k + 1 + m := ⟨gs.length - (k + 1), by omega⟩
    have hrange : List.range (k + 1 + m) = List.range k ++ k :: (List.range m).map (k + 1 + ·) := by
      rw [List.range_add (n := k + 1), List.range_succ, List.append_assoc]
      rfl
    rw [hm, hrange, List.map_append, untilFailure_append, List.range_succ, List.map_append]
    · cases hown : own k with
      | ok u => exact absurd hown hk
      | error f => simp [hown, untilFailure]
    · intro r hr
      obtain ⟨i, hi, rfl⟩ := List.mem_map.1 hr
      exact hn.before i (by simpa using hi)
  · -- everything was given out and reported
    replace hall := hall.resolve_right hoff
    have hlast : n = gs.length := by
      by_contra hne
      have hst := List.getElem?_eq_getElem (l := c.tasks) (i := n) (by omega)
      obtain ⟨b, hb⟩ := hs.released he hst
      have hfits := hs.fits n _ hst
      have hnoted := hn.noted n _ hst
      rw [hb] at hfits hnoted
      cases b with
      | false => exact hoff (hfits.1 rfl)
      | true => exact absurd (hnoted.1 rfl) (Nat.lt_irrefl n)
    subst hlast
    cases hk : gs.length with
    | zero => rfl
    | succ k =>
      rw [List.range_succ, List.map_append, untilFailure_append]
      · cases hown : own k <;> simp [hown, untilFailure]
      · intro r hr
        obtain ⟨i, hi, rfl⟩ := List.mem_map.1 hr
        rw [List.mem_range] at hi
        exact hn.before i (by omega)

end Crew

/-- Whatever the schedule, the loop returns: a schedule has boundedly many steps, and until the loop
has returned there is a step to take. It returns no error just if every function can be lowered on
its own, and otherwise the error of a function that was reported with it, never that work was called
off. Every function that was lowered is reported once, with its own outcome, and no other is. A
single worker reports the functions in order, up to the first that fails. -/
theorem crew_outcome (t : Target) (o : Options) (gs : List Graph) (workers : Int)
    (schedule : List Worker) (c : Crew) (h : Crew.run t o gs workers {} schedule = some c) :
    schedule.length ≤ 10 * gs.length + 3 ∧
    ((∀ e, c.loop ≠ .returned e) → ∃ w c', c.step t o gs workers w = some c') ∧
    ∀ e, c.loop = .returned e →
      (e = none ↔ ∀ i < gs.length, ownOutcome t o gs i = .ok ()) ∧
      (∀ err, e = some err → ∃ i f, i < gs.length ∧ err = .lowering f ∧
        ownOutcome t o gs i = .error f ∧ (i, .error f) ∈ c.reports) ∧
      (∀ i, (c.reports.map Prod.fst).count i = c.lowered.count i ∧ c.lowered.count i ≤ 1) ∧
      (∀ r ∈ c.reports, r.2 = ownOutcome t o gs r.1) ∧
      (workers = 1 →
        c.reports = untilFailure
        ((List.range gs.length).map fun i => (i, ownOutcome t o gs i))) := by
  have hs := Crew.Sane.run h
  refine ⟨?_, Crew.exists_step,
    fun e he => ⟨hs.failure_eq_none_iff he, ?_, fun i => ?_, hs.reports, ?_⟩⟩
  · have := Crew.length_add_rank_le (.start _ _) h
    simp only [Crew.rank, LoopStage.rank, List.length_nil, List.map_nil, List.sum_nil] at this
    omega
  · rintro err rfl
    obtain ⟨i, f, rfl, hmem⟩ := hs.failure err (hs.returned _ he).1.symm
    exact ⟨i, f, hs.lt_of_mem_reports hmem, rfl, (hs.reports _ hmem).symm, hmem⟩
  · -- a task that has ended has reported if it has lowered
    rw [hs.reported, hs.lowered]
    cases hst : c.tasks[i]? with
    | none => simp
    | some st =>
      obtain ⟨b, rfl⟩ := hs.released he hst
      cases b <;> simp [TaskStage.hasReported, TaskStage.hasLowered]
  · rintro rfl
    exact (Crew.InOrder.run h).reports_eq hs he

/-- Three functions, the second of which needs a parameter that it does not have. -/
def wantingModule : List Graph :=
  let (g, v) := (Graph.empty { name := "wanting" }).argument 0 .i32
  [.empty { name := "first" }, { g with root := some v }, .empty { name := "last" }]

/-- A single worker on that module: the last function is given out before work is called off, and
skipped. -/
def wantingSchedule : List Worker :=
  [(3, Worker.loop), (5, .task 0), (2, .loop), (6, .task 1), (2, .loop), (3, .task 2),
    (1, .loop)].flatMap fun (n, w) => List.replicate n w

/-- The loop returned an error. -/
def LoopStage.isFailed : LoopStage → Bool
  | .returned (some _) => true
  | _ => false

theorem crew_outcome_wanting :
    ∃ c f, Crew.run (Usim.target Subtarget.Description.builtIn)
    {} wantingModule 1 {} wantingSchedule =
        some c ∧ c.tasks = [.released true, .released true, .released false] ∧
      c.loop = .returned (some (.lowering f)) ∧ c.reports = [(0, .ok ()), (1, .error f)] := by
  have hrun : (Crew.run (Usim.target Subtarget.Description.builtIn) {} wantingModule 1 {}
      wantingSchedule).any (fun c => c.tasks = [.released true, .released true, .released false] ∧
        c.loop.isFailed) := by
    decide +kernel
  have hown : ownOutcome (Usim.target Subtarget.Description.builtIn) {} wantingModule 0 = .ok () ∧
      ownOutcome (Usim.target Subtarget.Description.builtIn) {} wantingModule 2 = .ok () := by
    decide +kernel
  obtain ⟨c, hc, htasks⟩ := (Option.any_eq_true _ _).1 hrun
  obtain ⟨htasks, hloop⟩ := of_decide_eq_true htasks
  obtain ⟨-, -, hreturned⟩ := crew_outcome _ _ _ _ _ c hc
  cases hl : c.loop with
  | returned e =>
    cases e with
    | none => simp [hl, LoopStage.isFailed] at hloop
    | some err =>
      obtain ⟨-, herr, -, -, horder⟩ := hreturned _ hl
      obtain ⟨i, f, hi, rfl, hf, -⟩ := herr err rfl
      refine ⟨c, f, hc, htasks, hl, ?_⟩
      rw [horder rfl, show List.range wantingModule.length = [0, 1, 2] from rfl]
      have hi : i = 0 ∨ i = 1 ∨ i = 2 := by
        have : i < 3 := hi
        omega
      rcases hi with rfl | rfl | rfl
      · rw [hown.1] at hf
        cases hf
      · simp [untilFailure, hown.1, hf]
      · rw [hown.2] at hf
        cases hf
  | _ => simp [hl, LoopStage.isFailed] at hloop

/-! ### One function after the other -/

/-- The first failure among outcomes. -/
def firstFailure? (reports : List (Nat × Except Failure Unit)) : Option Failure :=
  reports.findSome? fun
    | (_, .ok _) => none
    | (_, .error f) => some f

theorem firstFailure?_untilFailure {l : List (Nat × Except Failure Unit)} {f : Failure}
    (h : (i, .error f) ∈ untilFailure l) : firstFailure? (untilFailure l) = some f := by
  induction l with
  | nil => cases h
  | cons r l ih =>
    obtain ⟨j, r⟩ := r
    cases r with
    | ok u => exact ih ((List.mem_cons.1 h).resolve_left nofun)
    | error f' =>
      cases List.mem_singleton.1 h
      rfl

/-- The name of a function after its lowering. -/
def nameAfter (t : Target) (o : Options) (gs : List Graph) (i : Nat) : String :=
  (lowerGraph t o (gs.getD i default)).2.graph.signature.name

/-- Functions from number `k` on are added to what was done until one of them fails. -/
theorem lowerModule_from {m : ModuleResult} {all : List Graph} {k : Nat} (hm : m.failure = none)
    (hall : all.drop k = gs) :
    let reports := untilFailure
      ((List.range' k gs.length).map fun i => (i, ownOutcome t o all i))
    (lowerModule t o m gs).failure = firstFailure? reports ∧
      (lowerModule t o m gs).done =
        m.done ++ reports.map fun r => (nameAfter t o all r.1, r.2.isOk) := by
  induction gs generalizing m k with
  | nil => exact ⟨hm, (List.append_nil _).symm⟩
  | cons g gs ih =>
    have hg : all.getD k default = g := by
      rw [List.getD_eq_getElem?_getD, ← List.head?_drop, hall]
      rfl
    have hrest : all.drop (k + 1) = gs := by
      rw [← List.drop_drop, hall]
      rfl
    have hown : ownOutcome t o all k = (lowerGraph t o g).1 := by rw [ownOutcome, hg]
    have hname : nameAfter t o all k = (lowerGraph t o g).2.graph.signature.name := by
      rw [nameAfter, hg]
    rw [lowerModule, List.length_cons, List.range'_succ, List.map_cons, hown]
    cases hr : (lowerGraph t o g).1 with
    | error f =>
      have hadd : m.add (lowerGraph t o g) = { m.add (lowerGraph t o g) with
          done := m.done ++ [(nameAfter t o all k, false)], failure := some f } := by
        rw [hname]
        simp only [ModuleResult.add, hr]
      rw [hadd]
      exact ⟨rfl, rfl⟩
    | ok u =>
      obtain ⟨hfailure, hdone⟩ : (m.add (lowerGraph t o g)).failure = none ∧
          (m.add (lowerGraph t o g)).done = m.done ++ [(nameAfter t o all k, true)] := by
        rw [hname]
        simp only [ModuleResult.add, hr, hm, and_self]
      obtain ⟨ih₁, ih₂⟩ := ih hfailure hrest
      rw [if_neg (by simp [hfailure]), ih₂, hdone, List.append_assoc]
      exact ⟨ih₁, rfl⟩

/-- A single worker does what lowering the functions one after the other does: it returns the same
error, and reports the functions that are worked on, each as lowered or failed. -/
theorem lone_worker_lowers_module (h : Crew.run t o gs 1 {} schedule = some c)
    (he : c.loop = .returned e) :
    e = (lowerModule t o {} gs).failure.map .lowering ∧
      (lowerModule t o {} gs).done = c.reports.map fun r => (nameAfter t o gs r.1, r.2.isOk) := by
  have hs := Crew.Sane.run h
  have hreports := (Crew.InOrder.run h).reports_eq hs he
  obtain ⟨hfailure, hdone⟩ := lowerModule_from (t := t) (o := o) (m := {}) (k := 0) rfl
    (List.drop_zero (l := gs))
  rw [← List.range_eq_range', ← hreports] at hfailure hdone
  refine ⟨?_, hdone⟩
  rw [hfailure]
  cases e with
  | none =>
    have hok := (hs.failure_eq_none_iff he).1 rfl
    rw [firstFailure?, List.findSome?_eq_none_iff.2, Option.map_none]
    rintro ⟨j, r⟩ hr
    obtain rfl : r = .ok () := (hs.reports _ hr).trans (hok j (hs.lt_of_mem_reports hr))
    rfl
  | some err =>
    obtain ⟨i, f, rfl, hmem⟩ := hs.failure err (hs.returned _ he).1.symm
    rw [hreports] at hmem ⊢
    rw [firstFailure?_untilFailure hmem, Option.map_some]

end GraphLowering.Lower
