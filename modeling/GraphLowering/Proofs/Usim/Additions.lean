import GraphLowering.Proofs.Lower.Execution
import GraphLowering.Usim.Target

/-!
# What rules keep

Whatever the graph, a rule that succeeds keeps what no new node breaks (`Lasting`), be it the nodes
from before, the root or the absence of jumps.
-/

namespace GraphLowering.Usim

open Lower (Lowering Session Failure)
open Lower.Lowering
open Subtarget (Description)

variable {α β : Type} {I : Graph → Prop} {id : Nat} {d : Description} {op : Opcode} {vt : ValueType}
  {payload : Payload} {operands : List (Option Value)} {cc : CondCode}
  {o a b lhs rhs chain callee glue : Option Value} {ls : List Location}
  {words : List (List (Option Value))}

/-- What holds of a graph before a computation that succeeds holds after it. -/
def Preserves (I : Graph → Prop) (m : Lowering α) : Prop :=
  ∀ s a s', I s.graph → outcome m s = (.ok a, s') → I s'.graph

namespace Preserves

variable {m m' : Lowering α} {k : α → Lowering β}

theorem bind (hm : Preserves I m) (hk : ∀ a, Preserves I (k a)) : Preserves I (m >>= k) := by
  intro s b s' hs hb
  obtain ⟨a, s₁, ha, hb⟩ := outcome_bind_ok.1 hb
  exact hk a s₁ b s' (hm s a s₁ hs ha) hb

theorem still (h : ∀ s, (outcome m s).2.graph = s.graph) : Preserves I m := by
  intro s a s' hs hm
  have hsame := h s
  rw [hm] at hsame
  exact hsame ▸ hs

theorem read {r : Session → Except Failure α} (h : ∀ s, outcome m s = (r s, s)) : Preserves I m :=
  still fun s => by rw [h]

theorem pure (a : α) : Preserves I (Pure.pure a) := still fun _ => rfl

theorem orMalformed (o : Option α) : Preserves I (Lowering.orMalformed o) :=
  read (outcome_orMalformed o)

theorem operand (id i : Nat) : Preserves I (Lowering.operand id i) := read (outcome_operand id i)

theorem typeOf (o : Option Value) : Preserves I (Lowering.typeOf o) := read (outcome_typeOf o)

theorem nodeOf (o : Option Value) : Preserves I (Lowering.nodeOf o) :=
  bind (orMalformed o) fun _ => read (outcome_node _)

theorem ite {c : Prop} [Decidable c] (ht : c → Preserves I m) (hf : ¬ c → Preserves I m') :
    Preserves I (if c then m else m') := by
  split
  · exact ht ‹_›
  · exact hf ‹_›

theorem build {f : Graph → Graph × α} (h : ∀ g, I g → I (f g).1) :
    Preserves I (Lowering.build f) := by
  intro s a s' hs hm
  rw [outcome_build, Prod.mk.injEq] at hm
  exact hm.2 ▸ h _ hs

theorem build? {f : Graph → Option (Graph × α)} (h : ∀ g r, I g → f g = some r → I r.1) :
    Preserves I (Lowering.build? f) := by
  intro s a s' hs hm
  rw [Lowering.build?, outcome_bind, outcome_graph] at hm
  obtain ⟨r, s₁, hr, hm⟩ := outcome_bind_ok.1 hm
  rw [outcome_orMalformed, Prod.mk.injEq] at hr
  cases hm
  exact hr.2 ▸ h _ r hs (required_eq_ok.1 hr.1)

theorem value {f : Graph → Graph × Value} (h : ∀ g, I g → I (f g).1) :
    Preserves I (Lowering.value f) :=
  (build h).bind fun _ => pure _

theorem mapM {l : List α} {m : α → Lowering β} (h : ∀ a ∈ l, Preserves I (m a)) :
    Preserves I (l.mapM m) := by
  induction l with
  | nil => exact pure _
  | cons a l ih =>
    rw [List.mapM_cons]
    exact (h a List.mem_cons_self).bind fun _ =>
      (ih fun a ha => h a (List.mem_cons_of_mem _ ha)).bind fun _ => pure _

theorem foldlM {l : List α} {m : β → α → Lowering β} (h : ∀ b a, Preserves I (m b a)) (b : β) :
    Preserves I (l.foldlM m b) := by
  induction l generalizing b with
  | nil => exact pure _
  | cons a l ih =>
    rw [List.foldlM_cons]
    exact (h b a).bind ih

end Preserves

/-- What no new node breaks but a jump. -/
def Lasting (I : Graph → Prop) : Prop :=
  ∀ g (op : Opcode) types operands payload, op ≠ Op.tailCall → I g →
    I (g.newNode op types operands payload).1

theorem lasting_extends (g : Graph) : Lasting g.Extends :=
  fun _ _ _ _ _ _ h => h.trans (.newNode ..)

section

variable (hI : Lasting I)
include hI

/-! ### Values -/

theorem preserves_leaf (hop : op ≠ Op.tailCall) : Preserves I (value (·.leaf op vt payload)) :=
  .value fun g => hI g _ _ _ _ hop

theorem preserves_single (hop : op ≠ Op.tailCall) : Preserves I (value (·.single op vt operands)) :=
  .value fun g => hI g _ _ _ _ hop

theorem preserves_halves : Preserves I (halves o) := by
  have hextract (v : Option Value) (i : Int64) : Preserves I (value (·.extractElement .i32 v i)) :=
    .value fun g h => hI (g.constant i .i32).1 _ _ _ _ (by decide)
      (hI g .constant _ _ _ (by decide) h)
  refine .bind (.orMalformed o) fun v => .bind (.read (outcome_node _)) fun n => ?_
  split
  · exact .bind (.operand _ _) fun _ => .bind (.operand _ _) fun _ => .pure _
  · exact .bind (preserves_leaf hI (by decide)) fun _ => .bind (preserves_leaf hI (by decide))
      fun _ => .pure _
  · exact .bind (preserves_leaf hI (by decide)) fun _ => .bind (preserves_leaf hI (by decide))
      fun _ => .pure _
  · exact .bind (hextract _ _) fun _ => .bind (hextract _ _) fun _ => .pure _

theorem preserves_selectNode {c : Cond} : Preserves I (selectNode lhs rhs a b c) :=
  .bind (.typeOf a) fun _ => .bind (preserves_leaf hI (by decide)) fun _ =>
    preserves_single hI (by decide)

theorem preserves_selectOn {c : Comparison} : Preserves I (selectOn c a b) := by
  unfold selectOn
  split
  · exact preserves_selectNode hI
  · exact .bind (preserves_selectNode hI) fun _ => preserves_selectNode hI

theorem preserves_narrow : Preserves I (narrow id lhs rhs cc) := by
  refine .bind (preserves_halves hI) fun l => .bind (preserves_halves hI) fun r =>
    .bind (preserves_leaf hI (by decide)) fun zero =>
      .bind (preserves_leaf hI (by decide)) fun one => ?_
  split
  · exact .bind (preserves_single hI (by decide)) fun _ =>
      .bind (preserves_single hI (by decide)) fun _ => .bind (preserves_single hI (by decide))
      fun _ => .pure _
  · refine .ite (fun _ => .pure _) fun _ => ?_
    split
    · exact .still fun _ => rfl
    · exact .bind (preserves_selectNode hI) fun _ => .bind (preserves_selectNode hI) fun _ =>
        .bind (preserves_selectNode hI) fun _ => .pure _

theorem preserves_compare : Preserves I (compare id lhs rhs cc) := by
  refine .bind (.typeOf lhs) fun vt => .ite (fun _ => .still fun _ => rfl) fun _ =>
    .ite (fun _ => .bind (preserves_narrow hI) fun r => ?_) fun _ => .bind (.pure _) fun r => ?_
  all_goals
    refine .bind (.typeOf _) fun vt => ?_
    split
    · exact .still fun _ => rfl
    · exact .pure _

omit hI in
theorem preserves_booleanOf? : Preserves I (booleanOf? o) := by
  have hnone : Preserves I (pure none : Lowering (Option Comparison)) := .pure _
  refine .bind (.orMalformed o) fun v => .bind (.read (outcome_node _)) fun n =>
    .ite (fun _ => hnone) fun _ => ?_
  refine .bind (.read outcome_graph) fun g => .bind (.operand _ _) fun _ =>
    .bind (.operand _ _) fun _ => .bind (.operand _ _) fun _ => .ite (fun _ => hnone) fun _ =>
    .bind (.operand _ _) fun _ => .bind (.operand _ _) fun _ => .ite (fun _ => .pure _) fun _ => ?_
  refine .bind (.orMalformed _) fun v => .bind (.read (outcome_node _)) fun n =>
    .ite (fun _ => hnone) fun _ => .bind (.operand _ _) fun _ => .ite (fun _ => hnone) fun _ =>
    .bind (.operand _ _) fun _ => .ite (fun _ => hnone) fun _ => ?_
  exact .bind (.operand _ _) fun _ => .bind (.operand _ _) fun _ => .ite (fun _ => hnone) fun _ =>
    .bind (.operand _ _) fun _ => .pure _

theorem preserves_selectByTruth : Preserves I (selectByTruth id o a b) := by
  refine .bind (.bind preserves_booleanOf? fun r => ?_) fun _ => preserves_selectOn hI
  split
  · exact .pure _
  · exact .bind (.typeOf o) fun _ => .bind (preserves_leaf hI (by decide)) fun _ =>
      preserves_compare hI

theorem preserves_selectByPredicate : Preserves I (selectByPredicate id lhs rhs a b cc) :=
  .bind (preserves_compare hI) fun _ => preserves_selectOn hI

/-! ### Arguments -/

theorem preserves_words : Preserves I (wordsOf o) :=
  .bind (.typeOf o) fun _ => .ite (fun _ => .bind (preserves_halves hI) fun _ => .pure _) fun _ =>
    .ite (fun _ => .bind (preserves_single hI (by decide)) fun _ => .pure _) fun _ => .pure _

theorem preserves_tokenFactor {chains : List (Option Value)} :
    Preserves I (value (·.tokenFactor chains)) := by
  refine .value fun g h => ?_
  unfold Graph.tokenFactor
  split
  · exact h
  · exact hI _ _ _ _ _ (by decide) h

theorem preserves_copyToRegisters : Preserves I (copyToRegisters chain ls words) := by
  refine .foldlM (fun c l => ?_) _
  split
  · exact .pure _
  · refine .bind (.orMalformed _) fun word => .bind (.build? fun g r h hr => ?_) fun copy =>
      .bind (preserves_leaf hI (by decide)) fun _ => .pure _
    obtain ⟨vt, -, hr⟩ := Option.bind_eq_some_iff.1 hr
    cases hr
    exact hI (g.register _ vt).1 _ _ _ _ (by decide) (hI g .register _ _ _ (by decide) h)

theorem preserves_targetCallee : Preserves I (targetCallee callee) := by
  refine .bind (.nodeOf callee) fun n => ?_
  split
  · exact preserves_leaf hI (by decide)
  · exact preserves_leaf hI (by decide)
  · exact .pure _

theorem preserves_storeOverIncoming (hframe : ∀ g (f : Frame), I g → I { g with frame := f }) :
    Preserves I (storeOverIncoming chain ls words) := by
  have hloads : Preserves I incomingLoads := by
    refine .bind (.read outcome_graph) fun g =>
      .foldlM (fun chains id => .ite (fun _ => .pure _) fun _ => ?_) _
    exact .bind (.operand _ _) fun _ => .bind (.nodeOf _) fun _ => .ite (fun _ => .pure _)
      fun _ => .pure _
  have hslot (size offset : Int64) : Preserves I (outgoingSlot size offset) := by
    intro s i s' hs hm
    unfold outgoingSlot at hm
    rw [outcome_bind, outcome_graph] at hm
    dsimp only at hm
    split at hm
    · cases hm
      exact hs
    · cases hm
      exact hframe _ _ hs
  refine .ite (fun _ => .pure _) fun _ => .bind hloads fun _ =>
    .bind (preserves_tokenFactor hI) fun _ => .bind (.mapM fun l _ => ?_) fun _ =>
    preserves_tokenFactor hI
  split
  · exact .still fun _ => rfl
  · exact .bind (hslot _ _) fun _ => .bind (.orMalformed _) fun _ =>
      .bind (preserves_leaf hI (by decide)) fun _ => preserves_single hI (by decide)

end

end GraphLowering.Usim
