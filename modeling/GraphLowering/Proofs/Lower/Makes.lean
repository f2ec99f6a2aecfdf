import GraphLowering.Proofs.Lower.Execution

/-!
# Rules that succeed

`Makes H m Q` says of a computation that it succeeds on every graph with `H`, that it does nothing
but add nodes, and that what it gives satisfies `Q` in every later graph. Every node that it adds
takes only values from before (`Grows`), so that new values can be computed one after the other.
-/

namespace GraphLowering

namespace Graph

/-- An operand is a value of a node of the graph. -/
def Present (g : Graph) (o : Option Value) : Prop := ∃ v, o = some v ∧ g.contains v.node

theorem Present.mono {g g' : Graph} {o : Option Value} (h : g.Present o) (hx : g.Extends g') :
    g'.Present o := by
  obtain ⟨v, rfl, hc⟩ := h
  exact ⟨v, rfl, (hx.contains _ (contains_lt hc)).trans hc⟩

theorem map_some_taken {g : Graph} {operands : List (Option Value)}
    (h : ∀ o ∈ operands, g.Present o) : (taken operands).map some = operands := by
  induction operands with
  | nil => rfl
  | cons o operands ih =>
    obtain ⟨v, rfl, -⟩ := h o List.mem_cons_self
    exact congrArg (some v :: ·) (ih fun o ho => h o (List.mem_cons_of_mem _ ho))

/-- The second graph is the first one with more nodes, each of which takes values of nodes before
it. -/
structure Grows (g g' : Graph) : Prop where
  extension : g.Extends g'
  earlier : ∀ id, g.entries.size ≤ id → id < g'.entries.size →
    ∀ v, some v ∈ (g'.node id).operands → v.node < id

namespace Grows

variable {g g' g'' : Graph}

theorem refl (g : Graph) : g.Grows g :=
  ⟨.refl g, fun _ hle hlt => absurd hlt (Nat.not_lt.2 hle)⟩

theorem trans (h : g.Grows g') (h' : g'.Grows g'') : g.Grows g'' := by
  refine ⟨h.extension.trans h'.extension, fun id hle hlt v hv => ?_⟩
  by_cases hid : id < g'.entries.size
  · rw [h'.extension.node id hid] at hv
    exact h.earlier id hle hid v hv
  · exact h'.earlier id (Nat.le_of_not_lt hid) hlt v hv

theorem newNode {op : Opcode} {types : List ValueType} {operands : List (Option Value)}
    {payload : Payload} (h : ∀ v ∈ taken operands, v.node < g.entries.size) :
    g.Grows (g.newNode op types operands payload).1 := by
  refine ⟨.newNode .., fun id hle hlt v hv => ?_⟩
  obtain rfl : id = g.entries.size := by
    simp only [size_newNode] at hlt
    omega
  rw [node_newNode_self] at hv
  simp only [List.mem_map, Option.some.injEq, exists_eq_right] at hv
  exact h v hv

end Grows

end Graph

namespace Lower

open Lowering
open GraphLowering.Graph (taken)

variable {α β : Type} {id i : Nat} {o : Option Value} {vt : ValueType} {n : Node}

/-- A computation that succeeds, adds nodes and gives what it should. -/
def Makes (H : Graph → Prop) (m : Lowering α) (Q : α → Graph → Prop) : Prop :=
  ∀ s, (∀ g, s.graph.Extends g → H g) → ∃ a g', outcome m s = (.ok a, { s with graph := g' }) ∧
    s.graph.Grows g' ∧ ∀ g, g'.Extends g → Q a g

namespace Makes

variable {H H' : Graph → Prop} {m m' : Lowering α} {k : α → Lowering β} {Q Q' : α → Graph → Prop}
  {R : β → Graph → Prop}

theorem mono (h : Makes H m Q) (hq : ∀ a g, H g → Q a g → Q' a g) : Makes H m Q' := by
  intro s hH
  obtain ⟨a, g', hm, hx, hQ⟩ := h s hH
  exact ⟨a, g', hm, hx, fun g hg => hq a g (hH g (hx.extension.trans hg)) (hQ g hg)⟩

theorem bind (h : Makes H m Q) (hk : ∀ a, Makes (fun g => H g ∧ Q a g) (k a) R) :
    Makes H (m >>= k) R := by
  intro s hH
  obtain ⟨a, g₁, hm, hx₁, hQ⟩ := h s hH
  obtain ⟨b, g₂, hb, hx₂, hR⟩ :=
    hk a { s with graph := g₁ } fun g hg => ⟨hH g (hx₁.extension.trans hg), hQ g hg⟩
  exact ⟨b, g₂, by rw [outcome_bind, hm]; exact hb, hx₁.trans hx₂, hR⟩

theorem pure {a : α} (h : ∀ g, H g → Q a g) : Makes H (Pure.pure a) Q :=
  fun s hH => ⟨a, s.graph, rfl, .refl _, fun g hg => h g (hH g hg)⟩

theorem ite {c : Prop} [Decidable c] (ht : c → Makes H m Q) (hf : ¬ c → Makes H m' Q) :
    Makes H (if c then m else m') Q := by
  split
  · exact ht ‹_›
  · exact hf ‹_›

theorem ite_bind {c : Prop} [Decidable c] (ht : c → Makes H m Q) (hf : ¬ c → Makes H m' Q)
    (hk : ∀ a, Makes (fun g => H g ∧ Q a g) (k a) R) :
    Makes H (if c then m >>= k else m' >>= k) R :=
  ite (fun hc => bind (ht hc) hk) fun hc => bind (hf hc) hk

/-- What is known does not always speak of a graph. -/
theorem given {P : Prop} (h : ∀ g, H g → P) (hm : P → Makes H m Q) : Makes H m Q :=
  fun s hH => hm (h s.graph (hH _ (.refl _))) s hH

/-! ### Reading -/

/-- What a rule reads is as it was at the start. -/
theorem fix (h : ∀ g₀, H g₀ → Makes (fun g => H g ∧ g₀.Extends g) m Q) : Makes H m Q :=
  fun s hH => h s.graph (hH _ (.refl _)) s fun g hg => ⟨hH g hg, hg⟩

theorem read_bind {r : Session → Except Failure α} {a : α} (hr : ∀ s, outcome m s = (r s, s))
    (h : ∀ s, H s.graph → r s = .ok a) (hk : Makes H (k a) R) : Makes H (m >>= k) R := by
  intro s hH
  obtain ⟨b, g', hb, hx, hR⟩ := hk s hH
  refine ⟨b, g', ?_, hx, hR⟩
  rw [outcome_bind, hr, h s (hH _ (.refl _))]
  exact hb

theorem node_bind {k : Node → Lowering β} (h : ∀ g, H g → g.node id = n) (hk : Makes H (k n) R) :
    Makes H (Lowering.node id >>= k) R :=
  read_bind (outcome_node id) (fun s hs => by rw [h _ hs]) hk

theorem operand_bind {k : Option Value → Lowering β}
    (h : ∀ g, H g → (g.node id).operands[i]? = some o) (hk : Makes H (k o) R) :
    Makes H (Lowering.operand id i >>= k) R :=
  read_bind (outcome_operand id i) (fun s hs => by rw [h _ hs]; rfl) hk

theorem resultType_bind {k : ValueType → Lowering β}
    (h : ∀ g, H g → (g.node id).types[i]? = some vt) (hk : Makes H (k vt) R) :
    Makes H (Lowering.resultType id i >>= k) R :=
  read_bind (outcome_resultType id i) (fun s hs => by rw [h _ hs]; rfl) hk

theorem typeOf_bind {k : ValueType → Lowering β} (h : ∀ g, H g → g.operandType? o = some vt)
    (hk : Makes H (k vt) R) : Makes H (Lowering.typeOf o >>= k) R :=
  read_bind (outcome_typeOf o) (fun s hs => by rw [h _ hs]; rfl) hk

theorem orMalformed_bind {a : α} (hk : Makes H (k a) R) :
    Makes H (Lowering.orMalformed (some a) >>= k) R :=
  hk

theorem graph_bind {k : Graph → Lowering β}
    (hk : ∀ g₀, H g₀ → Makes (fun g => H g ∧ g₀.Extends g) (k g₀) R) :
    Makes H (Lowering.graph >>= k) R := by
  intro s hH
  exact hk s.graph (hH _ (.refl _)) s fun g hg => ⟨hH g hg, hg⟩

/-! ### Building -/

variable {op : Opcode} {types : List ValueType} {operands : List (Option Value)} {payload : Payload}

theorem newNode_fresh (h : ∀ g, H g → ∀ o ∈ operands, g.Present o) :
    Makes H (build (·.newNode op types operands payload)) fun id g =>
      (∀ k, (∀ g, H g → g.contains k) → k ≠ id) ∧ g.contains id ∧
      g.node id = ⟨op, types, operands, payload⟩ := by
  intro s hH
  have hpresent := h _ (hH _ (.refl _))
  have hin (v : Value) (hv : v ∈ taken operands) : v.node < s.graph.entries.size := by
    simp only [taken, List.mem_filterMap] at hv
    obtain ⟨o, ho, rfl⟩ := hv
    obtain ⟨w, hw, hc⟩ := hpresent _ ho
    cases hw
    exact Graph.contains_lt hc
  refine ⟨_, _, outcome_build _ s, .newNode hin, fun g hg => ?_⟩
  have hlt : s.graph.entries.size < (s.graph.newNode op types operands payload).1.entries.size := by
    simp
  rw [Graph.newNode_id]
  refine ⟨fun k hk => Nat.ne_of_lt (Graph.contains_lt (hk _ (hH _ (.refl _)))), ?_, ?_⟩
  · rw [hg.contains _ hlt]
    simp [Graph.contains_newNode]
  · rw [hg.node _ hlt, Graph.node_newNode_self, Graph.map_some_taken hpresent]

theorem newNode (h : ∀ g, H g → ∀ o ∈ operands, g.Present o) :
    Makes H (build (·.newNode op types operands payload)) fun id g =>
      g.contains id ∧ g.node id = ⟨op, types, operands, payload⟩ :=
  (newNode_fresh h).mono fun _ _ _ hid => hid.2

theorem build_seq {h : Graph → Graph × α} {k : α → Graph → Graph × β} (hb : Makes H (build h) Q)
    (hk : ∀ a, Makes (fun g => H g ∧ Q a g) (build (k a)) R) :
    Makes H (build fun g => k (h g).2 (h g).1) R := by
  show Makes H (build h >>= fun a => build (k a)) R
  exact bind hb hk

theorem value {h : Graph → Graph × Value} {Q : Value → Graph → Prop} (hb : Makes H (build h) Q) :
    Makes H (Lowering.value h) fun o g => ∃ v, o = some v ∧ Q v g := by
  show Makes H (build h >>= fun v => Pure.pure (some v)) _
  exact bind hb fun v => pure fun g hv => ⟨v, rfl, hv.2⟩

theorem single_fresh (h : ∀ g, H g → ∀ o ∈ operands, g.Present o) :
    Makes H (build (·.single op vt operands)) fun v g =>
    (∀ k, (∀ g, H g → g.contains k) → k ≠ v.node) ∧
      v.result = 0 ∧ g.contains v.node ∧ g.node v.node = ⟨op, [vt], operands, .none⟩ :=
  build_seq (h := (·.newNode op [vt] operands)) (k := fun id g => (g, (⟨id, 0⟩ : Value)))
    (newNode_fresh h) fun _ => pure fun _ h => ⟨h.2.1, rfl, h.2.2⟩

theorem single (h : ∀ g, H g → ∀ o ∈ operands, g.Present o) :
    Makes H (build (·.single op vt operands)) fun v g =>
      v.result = 0 ∧ g.contains v.node ∧ g.node v.node = ⟨op, [vt], operands, .none⟩ :=
  (single_fresh h).mono fun _ _ _ hv => hv.2

theorem leaf : Makes H (build (·.leaf op vt payload)) fun v g =>
    v.result = 0 ∧ g.contains v.node ∧ g.node v.node = ⟨op, [vt], [], payload⟩ :=
  build_seq (h := (·.newNode op [vt] [] payload)) (k := fun id g => (g, (⟨id, 0⟩ : Value)))
    (newNode fun _ _ _ ho => absurd ho List.not_mem_nil) fun _ => pure fun _ h => ⟨rfl, h.2⟩

end Makes

end Lower

end GraphLowering
