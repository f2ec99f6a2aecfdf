import GraphLowering.Lower.Run
import GraphLowering.Proofs.Lower.Execution
import Mathlib.Logic.Function.Iterate
import Mathlib.Logic.Relation

/-!
# The course of a lowering

Lowering as a machine that takes one node at a time: a point says what is to be done next, and
`next` does it. Between two steps the graph is as the last rewrite left it, so what is to hold after
every rewrite is stated of all points that a course comes to (`Course`). A course ends where `lower`
does and with the same outcome (`course_lower`).
-/

namespace GraphLowering.Lower

open Lowering Relation

/-- Where a lowering stands. -/
inductive Point where
  /-- Before a sweep, when `left` of them are allowed. -/
  | round (left : Nat) (kept : List Nat)
  /-- In a sweep that has still to treat `rest`. -/
  | sweep (left : Nat) (done : Sweep) (rest : List Nat)
  | cleanup (kept : List Nat)
  | combine (kept : List Nat) (budget : Nat) (worklist : List Nat)
  | verify (kept : List Nat)
  | ended (kept : List Nat)
  | failed (e : Failure)

namespace Point

/-- The node that is treated next. -/
def subject? : Point → Option Nat
  | sweep _ _ (id :: _) | combine _ _ (id :: _) => some id
  | _ => none

/-- The node that legalization treats next. -/
def treated? : Point → Option Nat
  | sweep _ _ (id :: _) => some id
  | _ => none

theorem treated?_eq_some {p : Point} {id : Nat} (h : p.treated? = some id) :
    ∃ left done rest, p = .sweep left done (id :: rest) := by
  unfold treated? at h
  split at h <;> cases h
  exact ⟨_, _, _, rfl⟩

/-- What a finished lowering gives. -/
def result? : Point → Option (Except Failure (List Nat))
  | ended kept => some (.ok kept)
  | failed e => some (.error e)
  | _ => none

end Point

/-- Puts a value in place of a node that is combined; gives the nodes to look at next. -/
def putCombined (id : Nat) (v : Option Value) (rest : List Nat) : Lowering (List Nat) := do
  let users := (← graph).valueUsers (some ⟨id, 0⟩)
  setGraph ((← graph).replaceValue (some ⟨id, 0⟩) v)
  count fun m => { m with combines := m.combines + 1 }
  let g ← graph
  let new ← orMalformed v
  return Graph.enqueue rest (targetNodes g (new.node :: users))

/-- What a step gives: the point that comes after a success, or a failure of the stage. -/
def arrive {α : Type} (stage : Phase) (k : α → Session → Point × Session) :
    Except Failure α × Session → Point × Session
  | (.ok a, s) => k a s
  | (.error e, s) => (.failed e, if stage.notesFailure then s.note stage else s)

/-- One step of a lowering. -/
def next (t : Target) (o : Options) : Point × Session → Point × Session
  | (.round 0 _, s) => (.failed (.rounds s.target s.graph.signature.name o.rounds),
      s.note .legalize)
  | (.round (left + 1) kept, s) => (.sweep left { kept } s.graph.nodes, s)
  | (.sweep left done (id :: rest), s) =>
    arrive .legalize (fun done s => (.sweep left done rest, s))
      (outcome (legalizeNode t o.libcalls done id) s)
  | (.sweep left done [], s) =>
    if done.changed then (.round left done.kept, s) else (.cleanup done.kept, s.note .legalize)
  | (.cleanup kept, s) =>
    let s := (outcome cleanup s).2.note .cleanup
    let g := s.graph
    (.combine kept (16 * (g.size + 1)) (Graph.ascending (targetNodes g g.nodes)), s)
  | (.combine kept _ [], s) =>
    (.verify kept, { s with graph := s.graph.removeDead.1 }.note .combine)
  | (.combine kept budget (id :: rest), s) =>
    arrive .combine (fun v s =>
      match v, budget with
      | none, budget => (.combine kept budget rest, s)
      | some _, 0 => (.failed (.noFixedPoint s.target s.graph.signature.name), s)
      | some v, budget + 1 =>
        arrive .combine (fun worklist s => (.combine kept budget worklist, s))
          (outcome (putCombined id v rest) s))
      (outcome (combined? t id) s)
  | (.verify kept, s) =>
    arrive .verify (fun _ s => (.ended kept, s.note .verify)) (outcome (verify t kept) s)
  | (.ended kept, s) => (.ended kept, s)
  | (.failed e, s) => (.failed e, s)

/-- What a lowering comes to from a point, step by step. -/
def Course (t : Target) (o : Options) : Point × Session → Point × Session → Prop :=
  ReflTransGen fun c c' => c' = next t o c

/-- Where lowering begins. -/
def outset (o : Options) (s : Session) : Point × Session :=
  (.round o.rounds.toNat [], { s with formals := none })

variable {t : Target} {o : Options} {s s' : Session} {c c' : Point × Session} {α : Type}

namespace Course

theorem step : Course t o c (next t o c) := .single rfl

theorem refl : Course t o c c := ReflTransGen.refl

theorem trans {c'' : Point × Session} (h : Course t o c c') (h' : Course t o c' c'') :
    Course t o c c'' :=
  ReflTransGen.trans h h'

theorem iterate (k : Nat) : Course t o c ((next t o)^[k] c) := by
  induction k with
  | zero => exact .refl
  | succ k ih =>
    rw [Function.iterate_succ_apply']
    exact ih.trans .step

/-- What every step keeps holds along a course. -/
theorem keeps {P : Point × Session → Prop} (hstep : ∀ c, P c → P (next t o c)) (h : Course t o c c')
    (hc : P c) : P c' := by
  induction h with
  | refl => exact hc
  | tail _ he ih => exact he ▸ hstep _ ih

/-- Of two points that a course comes to, one comes first. -/
theorem linear {c'' : Point × Session} (h : Course t o c c') (h' : Course t o c c'') :
    Course t o c' c'' ∨ Course t o c'' c' :=
  ReflTransGen.total_of_right_unique (fun _ _ _ he he' => he.trans he'.symm) h h'

/-- A course does not go on from where it has its result. -/
theorem eq_of_result (h : Course t o c c') (hc : c.1.result?.isSome) : c' = c := by
  have hstill : next t o c = c := by
    obtain ⟨p, s⟩ := c
    cases p <;> first | rfl | cases hc
  exact h.keeps (P := (· = c)) (fun c'' he => by rw [he, hstill]) rfl

end Course

/-! ### Legalization -/

/-- What is left of a sweep is a fold over the nodes that are left. -/
theorem course_sweep {left : Nat} {done : Sweep} {rest : List Nat} :
    Course t o (.sweep left done rest, s)
      (arrive .legalize (fun done s => (.sweep left done [], s))
        (outcome (rest.foldlM (legalizeNode t o.libcalls) done) s)) := by
  induction rest generalizing done s with
  | nil => exact .refl
  | cons id rest ih =>
    rw [List.foldlM_cons, outcome_bind]
    have hstep : Course t o (.sweep left done (id :: rest), s) _ := .step
    rw [next] at hstep
    rcases hm : outcome (legalizeNode t o.libcalls done id) s with ⟨e | done', s'⟩
    · rw [hm] at hstep
      exact hstep
    · rw [hm] at hstep
      exact hstep.trans ih

theorem course_legalize {left : Nat} {kept : List Nat} :
    Course t o (.round left kept, s)
      (arrive .legalize (fun kept s => (.cleanup kept, s.note .legalize))
        (outcome (legalizeWithin t o.libcalls o.rounds left kept) s)) := by
  induction left generalizing kept s with
  | zero => exact .step
  | succ left ih =>
    have hround : Course t o (.round (left + 1) kept, s) (.sweep left { kept } s.graph.nodes, s) :=
      .step
    refine hround.trans (course_sweep.trans ?_)
    rw [legalizeWithin, outcome_bind, sweep, outcome_bind, outcome_graph]
    dsimp only
    rcases outcome (s.graph.nodes.foldlM (legalizeNode t o.libcalls) { kept }) s with ⟨e | done, s'⟩
    · exact .refl
    have hend : Course t o (.sweep left done [], s') _ := .step
    rw [next] at hend
    refine hend.trans ?_
    dsimp only
    split
    · exact ih
    · exact .refl

/-! ### Combining -/

/-- A step over a node that is combined, or over one that is not. -/
theorem combineAll_cons {budget id : Nat} {rest : List Nat} :
    combineAll t budget (id :: rest) = (do
      match ← combined? t id with
      | none => combineAll t budget rest
      | some v =>
        match budget with
        | 0 => throw (.noFixedPoint (← targetName) (← functionName))
        | budget + 1 => combineAll t budget (← putCombined id v rest)) := by
  rw [combineAll, nextCombined?]
  simp only [bind_assoc]
  congr 1
  funext v
  cases v with
  | none =>
    dsimp only
    conv_rhs => rw [combineAll]
  | some v =>
    rw [pure_bind]
    cases budget with
    | zero => rfl
    | succ budget => simp only [putCombined, bind_assoc, pure_bind]

theorem combineAll_nil {budget : Nat} : combineAll t budget [] = pure () := by
  rw [combineAll, nextCombined?, pure_bind]

theorem course_combine {kept : List Nat} {budget : Nat} {worklist : List Nat} :
    Course t o (.combine kept budget worklist, s)
      (arrive .combine
        (fun _ s => (.verify kept, { s with graph := s.graph.removeDead.1 }.note .combine))
        (outcome (combineAll t budget worklist) s)) := by
  -- a step takes a node off the list, or it lowers the budget
  induction budget using Nat.strong_induction_on generalizing worklist s with
  | _ budget ihb =>
    induction worklist generalizing s with
    | nil =>
      rw [combineAll_nil]
      exact .step
    | cons id rest ih =>
      have hstep : Course t o (.combine kept budget (id :: rest), s) _ := .step
      rw [next] at hstep
      refine hstep.trans ?_
      rw [combineAll_cons, outcome_bind]
      rcases outcome (combined? t id) s with ⟨e | v, s'⟩
      · exact .refl
      cases v with
      | none => exact ih
      | some v =>
        cases budget with
        | zero => exact .refl
        | succ budget =>
          simp only [arrive, outcome_bind]
          rcases outcome (putCombined id v rest) s' with ⟨e | worklist, s''⟩
          · exact .refl
          · exact ihb budget (Nat.lt_succ_self _)

/-! ### The whole course -/

/-- A stage that succeeds hands on the nodes that were kept; after a failure nothing more is
done. -/
def conclude (stage : Phase) : Except Failure (List Nat) × Session → Progress
  | (.ok kept, s) => (.ok kept, s.note stage)
  | (.error e, s) => (.error e, if stage.notesFailure then s.note stage else s)

theorem advance_ok {kept : List Nat} {p : Phase} :
    advance t o (.ok kept, s) p = conclude p (outcome (stage t o kept p) s) := by
  rw [advance, outcome]
  rcases stage t o kept p s with ⟨e | kept', s'⟩ <;> rfl

theorem foldl_advance_error {e : Failure} {ps : List Phase} :
    ps.foldl (advance t o) (.error e, s) = (.error e, s) := by
  induction ps with
  | nil => rfl
  | cons p ps ih => exact ih

theorem outcome_cleanup (s : Session) :
    ∃ log, outcome cleanup s = (.ok (), { s with graph := s.graph.removeDead.1, log }) :=
  ⟨_, rfl⟩

theorem course_lower (t : Target) (o : Options) (s : Session) :
    ∃ p s', Course t o (outset o s) (p, s') ∧
      ∃ r, p.result? = some r ∧ lower t o s = finish (r, s') := by
  have hl : Course t o (outset o s) _ := course_legalize
  unfold lower
  rw [Phase.all, begin, List.foldl_cons, advance_ok, stage]
  generalize outcome (legalizeWithin t o.libcalls o.rounds o.rounds.toNat []) _ = r₁ at hl ⊢
  rcases r₁ with ⟨e | kept, s₁⟩
  · rw [conclude, foldl_advance_error]
    exact ⟨_, _, hl, _, rfl, rfl⟩
  have hclean : Course t o (.cleanup kept, s₁.note .legalize) _ := .step
  have hc := (hl.trans hclean).trans course_combine
  rw [conclude, List.foldl_cons, advance_ok, stage, outcome_bind]
  obtain ⟨log, hlog⟩ := outcome_cleanup (s₁.note .legalize)
  rw [hlog] at hc ⊢
  dsimp only at hc ⊢
  rw [outcome_pure, conclude, List.foldl_cons, advance_ok, stage, combine]
  simp only [outcome_bind, outcome_graph]
  generalize outcome (combineAll t _ _) _ = r₃ at hc ⊢
  rcases r₃ with ⟨e | _, s₃⟩
  · exact ⟨_, _, hc, _, rfl, rfl⟩
  have hv : Course t o (.verify kept, { s₃ with graph := s₃.graph.removeDead.1 }.note .combine) _ :=
    .step
  replace hv := hc.trans hv
  rw [next] at hv
  dsimp only
  have hset : outcome (setGraph s₃.graph.removeDead.1) s₃ =
      (.ok (), { s₃ with graph := s₃.graph.removeDead.1 }) := rfl
  rw [hset]
  simp only [outcome_pure, conclude, List.foldl_cons, List.foldl_nil, advance_ok,
    stage, outcome_bind]
  generalize outcome (verify t kept) _ = r₄ at hv ⊢
  rcases r₄ with ⟨e | _, s₄⟩
  · exact ⟨_, _, hv, _, rfl, rfl⟩
  · exact ⟨_, _, hv, _, rfl, rfl⟩

theorem lower_cases (t : Target) (o : Options) (s : Session) :
    (∃ kept s', Course t o (outset o s) (.ended kept, s') ∧ lower t o s = finish (.ok kept, s')) ∨
      ∃ e s', Course t o (outset o s) (.failed e, s') ∧ lower t o s = finish (.error e, s') := by
  obtain ⟨p, s', hc, r, hr, h⟩ := course_lower t o s
  cases p <;> cases hr
  · exact .inl ⟨_, _, hc, h⟩
  · exact .inr ⟨_, _, hc, h⟩

theorem Course.lower_eq {p : Point} {r : Except Failure (List Nat)}
    (h : Course t o (outset o s) (p, s')) (hr : p.result? = some r) :
    lower t o s = finish (r, s') := by
  obtain ⟨p', s'', hc, r', hr', hlower⟩ := course_lower t o s
  have he : (p', s'') = (p, s') := by
    rcases h.linear hc with hc | hc
    · exact hc.eq_of_result (by simp [hr])
    · exact (hc.eq_of_result (by simp [hr'])).symm
  cases he
  cases hr.symm.trans hr'
  exact hlower

end GraphLowering.Lower
