import GraphLowering.Proofs.Lower.Execution

/-!
# What rules add

`Adds H m Q` says of a computation that it adds nodes, and that what it gives satisfies `Q` in every
later graph with `H`. In a sequence the second step may use what the first one gave.
-/

namespace GraphLowering.Lower

open Lowering
open GraphLowering.Graph (taken)

variable {α β : Type} {i : Nat}

def Adds (H : Graph → Prop) (m : Lowering α) (Q : α → Graph → Prop) : Prop :=
  ∀ s a s', outcome m s = (.ok a, s') → s.graph.Extends s'.graph ∧
    ∀ g, s'.graph.Extends g → H g → Q a g

namespace Adds

variable {H H' : Graph → Prop} {m m' : Lowering α} {k : α → Lowering β} {Q Q' : α → Graph → Prop}
  {R : β → Graph → Prop}

theorem mono (h : Adds H m Q) (hq : ∀ a g, H g → Q a g → Q' a g) : Adds H m Q' :=
  fun s a s' hm => (h s a s' hm).imp_right fun hg g hge hH => hq a g hH (hg g hge hH)

theorem under (h : Adds H m Q) (hH : ∀ g, H' g → H g) : Adds H' m Q :=
  fun s a s' hm => (h s a s' hm).imp_right fun hg g hge hH' => hg g hge (hH g hH')

theorem bind (h : Adds H m Q) (hk : ∀ a, Adds (fun g => H g ∧ Q a g) (k a) R) :
    Adds H (m >>= k) R := by
  intro s b s' hb
  obtain ⟨a, s₁, hm, hka⟩ := outcome_bind_ok.1 hb
  obtain ⟨hx₁, hg₁⟩ := h s a s₁ hm
  obtain ⟨hx₂, hg₂⟩ := hk a s₁ b s' hka
  exact ⟨hx₁.trans hx₂, fun g hg hH => hg₂ g hg ⟨hH, hg₁ g (hx₂.trans hg) hH⟩⟩

theorem pure {a : α} (h : ∀ g, H g → Q a g) : Adds H (Pure.pure a) Q := by
  intro s b s' hb
  cases hb
  exact ⟨.refl _, fun g _ => h g⟩

theorem malformed : Adds H (Lowering.malformed : Lowering α) Q := fun _ _ _ hm => by cases hm

theorem ite {c : Prop} [Decidable c] (ht : c → Adds H m Q) (hf : ¬ c → Adds H m' Q) :
    Adds H (if c then m else m') Q := by
  split
  · exact ht ‹_›
  · exact hf ‹_›

theorem createFixed {size offset : Int64} {immutable : Bool} {k : Int → Lowering β}
    (hk : ∀ i, Adds H (k i) R) : Adds H (do
      let g ← Lowering.graph
      setGraph { g with frame := (g.frame.createFixed size offset immutable).1 }
      k (g.frame.createFixed size offset immutable).2) R := by
  intro s b s' hb
  obtain ⟨hx, hg⟩ := hk _ _ b s' hb
  exact ⟨.trans (.createFixed s.graph size offset immutable) hx, hg⟩

section Build

variable {op : Opcode} {vt : ValueType} {types : List ValueType} {operands : List (Option Value)}
  {payload : Payload}

theorem newNode : Adds H (build (·.newNode op types operands payload)) fun id g =>
    g.node id = ⟨op, types, (taken operands).map some, payload⟩ := by
  intro s id s' hm
  simp only [outcome_build, Graph.newNode_id, Prod.mk.injEq, Except.ok.injEq] at hm
  obtain ⟨rfl, rfl⟩ := hm
  exact ⟨.newNode .., fun g hg _ => (hg.node _ (by simp)).trans (Graph.node_newNode_self ..)⟩

theorem build_seq {h : Graph → Graph × α} {k : α → Graph → Graph × β} (hb : Adds H (build h) Q)
    (hk : ∀ a, Adds (fun g => H g ∧ Q a g) (build (k a)) R) :
    Adds H (build fun g => k (h g).2 (h g).1) R := by
  show Adds H (build h >>= fun a => build (k a)) R
  exact bind hb hk

theorem value {h : Graph → Graph × Value} {Q : Value → Graph → Prop} (hb : Adds H (build h) Q) :
    Adds H (Lowering.value h) fun o g => ∃ v, o = some v ∧ Q v g := by
  show Adds H (build h >>= fun v => Pure.pure (some v)) _
  exact bind hb fun v => pure fun g hv => ⟨v, rfl, hv.2⟩

theorem result {h : Graph → Graph × Nat} {Q : Nat → Graph → Prop} (hb : Adds H (build h) Q) :
    Adds H (Lowering.result i h) fun o g => ∃ id, o = some ⟨id, i⟩ ∧ Q id g := by
  show Adds H (build h >>= fun id => Pure.pure (some (⟨id, i⟩ : Value))) _
  exact bind hb fun v => pure fun g hv => ⟨v, rfl, hv.2⟩

theorem single : Adds H (build (·.single op vt operands)) fun v g => v.result = 0 ∧
    g.node v.node = ⟨op, [vt], (taken operands).map some, .none⟩ :=
  build_seq (h := (·.newNode op [vt] operands)) (k := fun id g => (g, (⟨id, 0⟩ : Value)))
    newNode fun _ => pure fun _ h => ⟨rfl, h.2⟩

theorem leaf : Adds H (build (·.leaf op vt payload)) fun v g => v.result = 0 ∧
    g.node v.node = ⟨op, [vt], [], payload⟩ :=
  build_seq (h := (·.newNode op [vt] [] payload)) (k := fun id g => (g, (⟨id, 0⟩ : Value)))
    newNode fun _ => pure fun _ h => ⟨rfl, h.2⟩

end Build

theorem mapM {l : List α} {m : α → Lowering β} {R : α → β → Graph → Prop}
    (h : ∀ a ∈ l, Adds H (m a) (R a)) :
    Adds H (l.mapM m) fun bs g => List.Forall₂ (fun a b => R a b g) l bs := by
  induction l with
  | nil => exact pure fun g _ => .nil
  | cons a l ih =>
    rw [List.mapM_cons]
    refine bind (h a (by simp)) fun b =>
      bind ((ih fun a ha => h a (by simp [ha])).under fun _ => And.left) fun bs => ?_
    exact pure fun g hg => .cons hg.1.2 hg.2

end Adds

end GraphLowering.Lower
