import GraphLowering.Lower.Legalize
import GraphLowering.Proofs.Graph.Dependence

/-!
# Running the steps of a rule

What the small steps of which rules consist do to a session: they read it, add to it or fail. The
types of a node are a function of the graph (`Graph.nodeTypes?`), and they stay while the graph
grows.
-/

namespace GraphLowering

namespace Graph

variable {g g' : Graph} {id : Nat}

/-- The types that decide how a node is treated, if all its operands have types. -/
def nodeTypes? (g : Graph) (id : Nat) : Option (List ValueType) :=
  ((g.node id).operands.mapM g.operandType?).map fun types =>
    (g.node id).types ++ types.filter (!·.isToken)

theorem mapM_congr {α β : Type} {l : List α} {f f' : α → Option β} (h : ∀ a ∈ l, f' a = f a) :
    l.mapM f' = l.mapM f := by
  induction l with
  | nil => rfl
  | cons a l ih =>
    rw [List.mapM_cons, List.mapM_cons, h a (by simp), ih fun b hb => h b (by simp [hb])]

theorem mapM_operandType?_isSome {l : List (Option Value)}
    (h : ∀ o ∈ l, ∃ v, o = some v ∧ (g.type? v).isSome) : (l.mapM g.operandType?).isSome := by
  induction l with
  | nil => rfl
  | cons o l ih =>
    obtain ⟨v, rfl, hv⟩ := h o (by simp)
    obtain ⟨vt, hvt⟩ := Option.isSome_iff_exists.1 hv
    obtain ⟨ts, hts⟩ := Option.isSome_iff_exists.1 (ih fun o ho => h o (by simp [ho]))
    simp [operandType?, hvt, hts]

theorem Sound.nodeTypes?_isSome (h : g.Sound) (hid : g.contains id) : (g.nodeTypes? id).isSome := by
  rw [nodeTypes?, Option.isSome_map]
  exact mapM_operandType?_isSome fun o ho => by
    obtain ⟨v, rfl, hv⟩ := h.operands id hid o ho
    exact ⟨v, rfl, hv.2⟩

theorem nodeTypes?_congr (hn : g'.node id = g.node id)
    (ht : ∀ v, some v ∈ (g.node id).operands → g'.type? v = g.type? v) :
    g'.nodeTypes? id = g.nodeTypes? id := by
  rw [nodeTypes?, nodeTypes?, hn, mapM_congr]
  intro o ho
  cases o with
  | none => rfl
  | some v => exact ht v ho

end Graph

namespace Lower.Lowering

variable {α β : Type} {s : Session}

/-- What a computation gives on a session, and what it leaves. -/
def outcome (m : Lowering α) (s : Session) : Except Failure α × Session := m s

/-- What an optional value gives: a missing one is a failure. -/
def required : Option α → Except Failure α
  | some a => .ok a
  | none => .error .malformed

theorem required_eq_ok {o : Option α} {a : α} : required o = .ok a ↔ o = some a := by
  cases o <;> simp [required]

theorem outcome_bind (m : Lowering α) (k : α → Lowering β) (s : Session) :
    outcome (m >>= k) s = match outcome m s with
      | (.ok a, s') => outcome (k a) s'
      | (.error e, s') => (.error e, s') := by
  simp only [outcome, bind, ExceptT.bind, ExceptT.mk, StateT.bind, ExceptT.bindCont]
  rcases m s with ⟨a | a, s'⟩ <;> rfl

theorem outcome_bind_ok {m : Lowering α} {k : α → Lowering β} {s s' : Session} {b : β} :
    outcome (m >>= k) s = (.ok b, s') ↔
      ∃ a s₁, outcome m s = (.ok a, s₁) ∧ outcome (k a) s₁ = (.ok b, s') := by
  rw [outcome_bind]
  rcases outcome m s with ⟨a | a, s₁⟩
  · simp
  · simp only [Prod.mk.injEq, Except.ok.injEq]
    exact ⟨fun h => ⟨a, s₁, ⟨rfl, rfl⟩, h⟩, fun ⟨_, _, ⟨rfl, rfl⟩, h⟩ => h⟩

@[simp] theorem outcome_pure (a : α) (s : Session) : outcome (pure a : Lowering α) s = (.ok a, s) :=
  rfl

@[simp] theorem outcome_graph (s : Session) : outcome graph s = (.ok s.graph, s) := rfl

@[simp] theorem outcome_node (id : Nat) (s : Session) :
    outcome (node id) s = (.ok (s.graph.node id), s) := rfl

theorem outcome_build (h : Graph → Graph × α) (s : Session) :
    outcome (build h) s = (.ok (h s.graph).2, { s with graph := (h s.graph).1 }) := rfl

@[simp] theorem outcome_orMalformed (o : Option α) (s : Session) :
    outcome (orMalformed o) s = (required o, s) := by
  cases o <;> rfl

@[simp] theorem outcome_operand (id i : Nat) (s : Session) :
    outcome (operand id i) s = (required ((s.graph.node id).operands[i]?), s) := by
  show outcome (orMalformed _) s = _
  exact outcome_orMalformed _ s

@[simp] theorem outcome_resultType (id i : Nat) (s : Session) :
    outcome (resultType id i) s = (required ((s.graph.node id).types[i]?), s) := by
  show outcome (orMalformed _) s = _
  exact outcome_orMalformed _ s

@[simp] theorem outcome_typeOf (v : Option Value) (s : Session) :
    outcome (typeOf v) s = (required (s.graph.operandType? v), s) := by
  show outcome (orMalformed _) s = _
  exact outcome_orMalformed _ s

@[simp] theorem outcome_mapM_typeOf (l : List (Option Value)) (s : Session) :
    outcome (l.mapM typeOf) s = (required (l.mapM s.graph.operandType?), s) := by
  induction l with
  | nil => rfl
  | cons v l ih =>
    rw [List.mapM_cons, outcome_bind, outcome_typeOf]
    cases hv : s.graph.operandType? v with
    | none => simp [required, hv]
    | some vt =>
      simp only [required, outcome_bind, ih]
      cases hl : l.mapM s.graph.operandType? with
      | none => simp [hv, hl]
      | some ts => simp [hv, hl]

@[simp] theorem outcome_nodeTypes (id : Nat) (s : Session) :
    outcome (nodeTypes id) s = (required (s.graph.nodeTypes? id), s) := by
  rw [nodeTypes, outcome_bind, outcome_node]
  simp only [outcome_bind, outcome_mapM_typeOf, Graph.nodeTypes?]
  cases (s.graph.node id).operands.mapM s.graph.operandType? with
  | none => rfl
  | some ts => rfl

end Lower.Lowering

end GraphLowering
