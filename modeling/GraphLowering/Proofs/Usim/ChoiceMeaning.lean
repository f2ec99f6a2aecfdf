import GraphLowering.Proofs.Usim.CompareMeaning
import GraphLowering.Subtarget.BuiltIn

/-!
# What selects and branches choose

A select or a branch that is lowered chooses as the node that it stands for: by a predicate, or by
whether a value is zero, also where the value is itself a choice between one and zero that is looked
through.
-/

namespace GraphLowering.Usim

open Lower (Lowering Makes)
open Lower.Lowering

variable {φ : Nat → Nat → FloatOrder} {g g₁ : Graph} {ρ : Valuation}
  {o lhs rhs ifTrue ifFalse cond : Option Value} {vt : ValueType} {cc : CondCode}
  {H : Graph → Prop} {id : Nat}

/-! ### Reading nodes -/

theorem constant?_extends (hx : g₁.Extends g) (ho : g₁.Present o) :
    g.constant? o = g₁.constant? o := by
  obtain ⟨v, rfl, hv⟩ := ho
  simp only [Graph.constant?, Option.bind_some, hx.node _ (Graph.contains_lt hv)]

theorem condOfValue_extends (hx : g₁.Extends g) (ho : g₁.Present o) :
    condOfValue g o = condOfValue g₁ o := by
  rw [condOfValue, condOfValue, constant?_extends hx ho]

theorem coded_condOfValue (g : Graph) (o : Option Value) : (condOfValue g o).Coded := by
  rw [Cond.Coded, condOfValue, Cond.number_ofNumber]
  exact UInt8.toNat_lt _

namespace WellTyped

variable (h : WellTyped g) (hρ : Obeys φ g ρ)
include h hρ

theorem value_constant {n : Int64} (ho : g.Typed o vt) (hn : g.constant? o = some n) :
    valueAt ρ o = (BitVec.ofInt vt.bits n.toInt).toNat := by
  obtain ⟨v, rfl, hv, ht⟩ := ho
  refine hρ.value_constant (h.single _ hv ?_) hv ht hn
  rcases (eq_of_constant? (n := g.node v.node) hn).1 with hop | hop <;> rw [hop] <;> decide

theorem value_zero (ho : g.Typed o vt) (hn : g.constant? o = some 0) : valueAt ρ o = 0 := by
  rw [h.value_constant hρ ho hn, toNat_ofInt_zero]

theorem value_one (hvt : 0 < vt.bits) (ho : g.Typed o vt) (hn : g.constant? o = some 1) :
    valueAt ρ o = 1 := by
  rw [h.value_constant hρ ho hn, toNat_ofInt_one hvt]

/-- A select of the machine between one and another value. -/
theorem value_choice {v : Value} (hv : g.contains v.node) (ht : g.type? v = some vt)
    (hop : (g.node v.node).op = Op.selectCC)
    (hops : (g.node v.node).operands = [lhs, rhs, ifTrue, ifFalse, cond])
    (hone : g.constant? ifTrue = some 1) : ρ v ≠ 0 ↔ (condOfValue g cond).holds φ (valueAt ρ lhs)
    (valueAt ρ rhs) = true ∨ valueAt ρ ifFalse ≠ 0 := by
  obtain ⟨_, _, _, _, _, _, hbits, hts, hops', htrue, hfalse⟩ := h.select _ hv hop
  cases hops.symm.trans hops'
  obtain ⟨hr, hts'⟩ := only_result (by rw [hts]; rfl) ht
  cases hts.symm.trans hts'
  have hvalue := hρ.value (x :=
    if (condOfValue g cond).holds φ (valueAt ρ lhs) (valueAt ρ rhs) then valueAt ρ ifTrue
      else valueAt ρ ifFalse) hr hv hts <| by
    simp only [Setting.compute?, settingOf, hop, operandValues, hops, List.map_cons,
      List.map_nil, Op.selectCC]
    rfl
  rw [hvalue]
  split
  · rename_i hcond
    have htv := htrue.lt hρ
    rw [h.value_one hρ hbits htrue hone] at htv ⊢
    rw [Nat.mod_eq_of_lt htv]
    simp [hcond]
  · rename_i hcond
    rw [Nat.mod_eq_of_lt (hfalse.lt hρ)]
    simp [hcond]

end WellTyped

/-! ### Truth values -/

section

variable (hwt : WellTyped g₁) (hx : ∀ g, H g → g₁.Extends g)
include hwt hx

/-- A choice between one and zero that is looked through holds if it is not zero. -/
theorem booleanOf?_makes (φ : Nat → Nat → FloatOrder) (ho : g₁.Typed o vt) :
    Makes H (booleanOf? o) fun r g => ∀ c, r = some c →
      c.Ready g ∧ ∀ ρ, Obeys φ g ρ → (c.holds φ ρ = true ↔ valueAt ρ o ≠ 0) := by
  obtain ⟨v, rfl, hv, ht⟩ := ho
  unfold booleanOf?
  refine Makes.orMalformed_bind
    (Makes.node_bind (fun g hg => (hx g hg).node _ (Graph.contains_lt hv)) ?_)
  refine Makes.ite (fun _ => Makes.pure fun g _ c hc => by cases hc) fun hop => ?_
  rw [ne_eq, not_not] at hop
  obtain ⟨vt', lhs, rhs, ifTrue, ifFalse, cond, -, -, hops, htrue, hfalse⟩ := hwt.select _ hv hop
  have hoperand {i : Nat} {o : Option Value} (hi : (g₁.node v.node).operands[i]? = some o)
    (g : Graph) (hg : H g) :
      (g.node v.node).operands[i]? = some o := by
    rw [(hx g hg).node _ (Graph.contains_lt hv), hi]
  have hpresent {o : Option Value} (hmem : o ∈ [lhs, rhs, ifTrue, ifFalse, cond]) : g₁.Present o :=
    hwt.present hv (by rwa [hops])
  refine Makes.graph_bind fun g₀ hg₀ => ?_
  have hx₀ := hx g₀ hg₀
  refine Makes.operand_bind (o := lhs) (fun g hg => hoperand (by rw [hops]; rfl) g hg.1) ?_
  refine Makes.operand_bind (o := rhs) (fun g hg => hoperand (by rw [hops]; rfl) g hg.1) ?_
  refine Makes.operand_bind (o := ifTrue) (fun g hg => hoperand (by rw [hops]; rfl) g hg.1) ?_
  rw [constant?_extends hx₀ htrue.present]
  refine Makes.ite (fun _ => Makes.pure fun g _ c hc => by cases hc) fun hone => ?_
  rw [ne_eq, not_not] at hone
  refine Makes.operand_bind (o := cond) (fun g hg => hoperand (by rw [hops]; rfl) g hg.1) ?_
  refine Makes.operand_bind (o := ifFalse) (fun g hg => hoperand (by rw [hops]; rfl) g hg.1) ?_
  rw [constant?_extends hx₀ hfalse.present, condOfValue_extends hx₀ (hpresent (by simp))]
  have hcode := coded_condOfValue g₁ cond
  refine Makes.ite (fun hzero => Makes.pure fun g hg c hc => ?_) fun _ => ?_
  · cases hc
    refine ⟨⟨(hpresent (by simp)).mono (hx g hg.1), (hpresent (by simp)).mono (hx g hg.1), hcode⟩,
      fun ρ hρ => ?_⟩
    have hρ₁ := hρ.restrict hwt.operand_lt (hx g hg.1)
    show _ ↔ ρ v ≠ 0
    rw [hwt.value_choice hρ₁ hv ht hop hops hone, hwt.value_zero hρ₁ hfalse hzero]
    simp [Comparison.holds, FlagTest.holds]
  obtain ⟨w, rfl, hw, hwt'⟩ := hfalse
  have hnode (g : Graph) (hg : H g) : g.node w.node = g₁.node w.node :=
    (hx g hg).node _ (Graph.contains_lt hw)
  refine Makes.orMalformed_bind (Makes.node_bind (fun g hg => hnode g hg.1) ?_)
  refine Makes.ite (fun _ => Makes.pure fun g _ c hc => by cases hc) fun hop' => ?_
  rw [ne_eq, not_not] at hop'
  obtain ⟨vt'', lhs', rhs', ifTrue', ifFalse', cond', -, -, hops', htrue', hfalse'⟩ :=
    hwt.select _ hw hop'
  have hoperand' {i : Nat} {o : Option Value} (hi : (g₁.node w.node).operands[i]? = some o)
    (g : Graph) (hg : H g) :
      (g.node w.node).operands[i]? = some o := by
    rw [hnode g hg, hi]
  refine Makes.operand_bind (o := lhs') (fun g hg => hoperand' (by rw [hops']; rfl) g hg.1) ?_
  refine Makes.ite (fun _ => Makes.pure fun g _ c hc => by cases hc) fun hlhs => ?_
  refine Makes.operand_bind (o := rhs') (fun g hg => hoperand' (by rw [hops']; rfl) g hg.1) ?_
  refine Makes.ite (fun _ => Makes.pure fun g _ c hc => by cases hc) fun hrhs => ?_
  rw [ne_eq, not_not] at hlhs hrhs
  subst hlhs hrhs
  refine Makes.operand_bind (o := ifTrue') (fun g hg => hoperand' (by rw [hops']; rfl) g hg.1) ?_
  refine Makes.operand_bind (o := ifFalse') (fun g hg => hoperand' (by rw [hops']; rfl) g hg.1) ?_
  rw [constant?_extends hx₀ htrue'.present, constant?_extends hx₀ hfalse'.present]
  refine Makes.ite (fun _ => Makes.pure fun g _ c hc => by cases hc) fun harms => ?_
  simp only [ne_eq, decide_not, Bool.or_eq_true, Bool.not_eq_true', decide_eq_false_iff_not, not_or,
    not_not] at harms
  refine Makes.operand_bind (o := cond') (fun g hg => hoperand' (by rw [hops']; rfl) g hg.1) ?_
  rw [condOfValue_extends hx₀ (hwt.present hw (by rw [hops']; simp))]
  refine Makes.pure fun g hg c hc => ?_
  cases hc
  have hcode' := coded_condOfValue g₁ cond'
  refine ⟨⟨(hpresent (by simp)).mono (hx g hg.1), (hpresent (by simp)).mono (hx g hg.1), ?_⟩,
    fun ρ hρ => ?_⟩
  · split
    · exact hcode
    · exact ⟨hcode, hcode'⟩
  · have hρ₁ := hρ.restrict hwt.operand_lt (hx g hg.1)
    show _ ↔ ρ v ≠ 0
    rw [hwt.value_choice hρ₁ hv ht hop hops hone, show valueAt ρ (some w) = ρ w from rfl,
      hwt.value_choice hρ₁ hw hwt' hop' hops' harms.1, hwt.value_zero hρ₁ hfalse' harms.2,
      Comparison.holds]
    split
    · rename_i hinvalid
      rw [hinvalid]
      simp [FlagTest.holds, Cond.holds, Cond.isFloat, Cond.holds?]
    · simp [FlagTest.holds]

theorem truthOf_makes (φ : Nat → Nat → FloatOrder) (ho : g₁.Typed o vt)
    (hvt : vt ∈ [.i1, .i8, .i16, .i32, .i64]) : Makes H (truthOf id o) fun c g => c.Ready g ∧
      ∀ ρ, Obeys φ g ρ → ∃ x, Reads g ρ o x ∧ c.holds φ ρ = (x != 0) := by
  unfold truthOf
  refine Makes.bind (booleanOf?_makes hwt hx φ ho) fun r => ?_
  cases r with
  | some c =>
    refine Makes.pure fun g hg => ?_
    obtain ⟨hready, hholds⟩ := hg.2 c rfl
    refine ⟨hready, fun ρ hρ => ⟨valueAt ρ o, .of_value (ho.present.mono (hx g hg.1)), ?_⟩⟩
    rw [Bool.eq_iff_iff, hholds ρ hρ, bne_iff_ne]
  | none =>
    have hfloat : vt.isFloat ≠ true ∧ Comparable vt .ne := by
      simp only [List.mem_cons, List.not_mem_nil, or_false] at hvt
      rcases hvt with rfl | rfl | rfl | rfl | rfl <;>
        exact ⟨by decide, by simp [Comparable, ValueType.isNarrow, CondCode.readsSign]⟩
    refine Makes.typeOf_bind (fun g hg => (ho.mono (hx g hg.1)).operandType?) ?_
    refine Makes.bind (constant_makes 0 vt) fun zero => ?_
    refine (compare_makes φ (fun g hg => ho.mono (hx g hg.1.1))
      (fun g hg => (hg.2.denotes φ).1) ?_ hfloat.2 rfl).mono ?_
    · rintro rfl g hg
      exact ⟨(hwt.halvable ho (by decide)).mono (hx g hg.1.1), hg.2.halvable (by decide)⟩
    · intro c g hg hc
      refine ⟨hc.1, fun ρ hρ => ?_⟩
      obtain ⟨a, b, ha, hb, hp⟩ := hc.2 ρ hρ
      have hzero : b = 0 := by
        rw [hb.eq_value hg.2.ne_undef, (hg.2.denotes φ).value hρ, toNat_ofInt_zero]
      subst hzero
      refine ⟨a, ha, hp _ ?_⟩
      rw [CondCode.outcome?, if_neg hfloat.1, onIntegers_ne (ha.lt (ho.mono (hx g hg.1.1)) hρ)
        (Nat.two_pow_pos _)]

end

/-! ### Choosing -/

/-- A branch of the machine to a block. -/
def IsBranch (g : Graph) (chain dest : Option Value) (id : Nat) : Prop :=
  g.contains id ∧ ∃ code lhs rhs, g.node id =
    ⟨Op.brCC, [.chain], [chain, code, lhs, rhs, dest], .none⟩

/-- Whether a branch is taken. -/
def branchTaken (φ : Nat → Nat → FloatOrder) (g : Graph) (ρ : Valuation) (id : Nat) : Bool :=
  match (g.node id).operands with
  | [_, code, lhs, rhs, _] => (condOfValue g code).holds φ (valueAt ρ lhs) (valueAt ρ rhs)
  | _ => false

/-- Branches to one block, each after the one before. -/
inductive Branches (g : Graph) (dest : Option Value) : Option Value → List Nat → Option Value → Prop
  | nil {chain : Option Value} : Branches g dest chain [] chain
  | cons {chain out : Option Value} {id : Nat} {bs : List Nat} (h : IsBranch g chain dest id)
      (hbs : Branches g dest (some ⟨id, 0⟩) bs out) : Branches g dest chain (id :: bs) out

theorem branchNode_makes (φ : Nat → Nat → FloatOrder) {chain dest : Option Value}
    {c : Cond} (hc : c.Coded) (hchain : ∀ g, H g → g.Present chain) (hl : ∀ g, H g → g.Present lhs)
    (hr : ∀ g, H g → g.Present rhs) (hdest : ∀ g, H g → g.Present dest) :
    Makes H (branchNode chain c lhs rhs dest) fun o g => ∃ id, o = some ⟨id, 0⟩ ∧
    IsBranch g chain dest id ∧
      ∀ ρ, branchTaken φ g ρ id = c.holds φ (valueAt ρ lhs) (valueAt ρ rhs) := by
  refine Makes.bind (code_makes hc) fun code => ?_
  refine (Makes.value (.single fun g hg => ?_)).mono fun o g hg ho => ?_
  · simp only [List.forall_mem_cons]
    exact ⟨hchain g hg.1, hg.2.1, hl g hg.1, hr g hg.1, hdest g hg.1, List.forall_mem_nil _⟩
  · obtain ⟨⟨id, i⟩, rfl, hi, hcontains, hn⟩ := ho
    obtain rfl : i = 0 := hi
    refine ⟨id, rfl, ⟨hcontains, code, lhs, rhs, hn⟩, fun ρ => ?_⟩
    simp only [branchTaken, hn, hg.2.2]

section

variable {c : Comparison} (hc : ∀ g, H g → c.Ready g)
include hc

theorem selectOn_makes (φ : Nat → Nat → FloatOrder) (ht : ∀ g, H g → g.Typed ifTrue vt)
    (hf : ∀ g, H g → g.Typed ifFalse vt) :
    Makes H (selectOn c ifTrue ifFalse) fun o g =>
      Denotes φ g o vt fun ρ => if c.holds φ ρ then valueAt ρ ifTrue else valueAt ρ ifFalse := by
  obtain ⟨lhs, rhs, test⟩ := c
  refine Makes.given (P := test.Coded) (fun g hg => (hc g hg).coded) fun hcoded => ?_
  cases test with
  | one a =>
    exact selectNode_makes φ hcoded (fun g hg => (hc g hg).lhs) (fun g hg => (hc g hg).rhs) ht hf
  | either a b =>
    refine Makes.bind (selectNode_makes φ hcoded.2 (fun g hg => (hc g hg).lhs)
      (fun g hg => (hc g hg).rhs) ht hf) fun inner => ?_
    refine (selectNode_makes φ hcoded.1 (fun g hg => (hc g hg.1).lhs) (fun g hg => (hc g hg.1).rhs)
      (fun g hg => ht g hg.1) fun g hg => hg.2.1).mono fun o g hg ho => ho.congr fun ρ hρ => ?_
    rw [hg.2.value hρ]
    simp only [Comparison.holds, FlagTest.holds, Bool.or_eq_true]
    by_cases ha : a.holds φ (valueAt ρ lhs) (valueAt ρ rhs) = true
    · rw [if_pos ha, if_pos (.inl ha)]
    · rw [if_neg ha]
      simp only [ha, Bool.false_eq_true, false_or]

theorem branchOn_makes (φ : Nat → Nat → FloatOrder) {chain dest : Option Value}
    (hchain : ∀ g, H g → g.Present chain) (hdest : ∀ g, H g → g.Present dest) :
    Makes H (branchOn c chain dest) fun o g => ∃ bs, Branches g dest chain bs o ∧
      ∀ ρ, (∃ b ∈ bs, branchTaken φ g ρ b = true) ↔ c.holds φ ρ = true := by
  obtain ⟨lhs, rhs, test⟩ := c
  refine Makes.given (P := test.Coded) (fun g hg => (hc g hg).coded) fun hcoded => ?_
  cases test with
  | one a =>
    refine (branchNode_makes φ hcoded hchain (fun g hg => (hc g hg).lhs)
      (fun g hg => (hc g hg).rhs) hdest).mono fun o g _ ho => ?_
    obtain ⟨id, rfl, hb, htaken⟩ := ho
    refine ⟨[id], .cons hb .nil, fun ρ => ?_⟩
    simp only [List.mem_singleton, exists_eq_left, htaken ρ]
    rfl
  | either a b =>
    refine Makes.bind (branchNode_makes φ hcoded.1 hchain (fun g hg => (hc g hg).lhs)
      (fun g hg => (hc g hg).rhs) hdest) fun between => ?_
    refine (branchNode_makes φ hcoded.2 (fun g hg => ?_) (fun g hg => (hc g hg.1).lhs)
      (fun g hg => (hc g hg.1).rhs) fun g hg => hdest g hg.1).mono fun o g hg ho => ?_
    · obtain ⟨id, rfl, hb, -⟩ := hg.2
      exact ⟨_, rfl, hb.1⟩
    · obtain ⟨id, rfl, hb, htaken⟩ := hg.2
      obtain ⟨id', rfl, hb', htaken'⟩ := ho
      refine ⟨[id, id'], .cons hb (.cons hb' .nil), fun ρ => ?_⟩
      simp only [List.mem_cons, List.not_mem_nil, or_false, exists_eq_or_imp, exists_eq_left,
        htaken ρ, htaken' ρ]
      simp only [Comparison.holds, FlagTest.holds, Bool.or_eq_true]

end

/-! ### Lowered nodes -/

/-- Each word of a value is what a node makes of its operands. -/
def ComputesWords (φ : Nat → Nat → FloatOrder) (g : Graph) (ρ : Valuation) (n : Node) (y : Nat) :
    Prop :=
  ∃ low high, Computes φ g ρ n low ∧ Computes φ g ρ n high ∧ y % 2 ^ 32 = low % 2 ^ 32 ∧
    y / 2 ^ 32 = high / 2 ^ 32

/-- What a node that compares or chooses comes to. -/
def Chooses (φ : Nat → Nat → FloatOrder) (g : Graph) (ρ : Valuation) (n : Node) (o : Option Value) :
    Prop :=
  match n.op, n.operands with
  | .brCC, [chain, cond, lhs, rhs, dest] =>
    ∃ bs p, Branches g dest chain bs o ∧
      Decides φ g ρ ((g.operandType? lhs).getD .chain) lhs rhs (predicateAt g cond) p ∧
      ((∃ b ∈ bs, branchTaken φ g ρ b = true) ↔ p = true)
  | .brCond, [chain, cond, dest] =>
    ∃ bs x, Branches g dest chain bs o ∧ Reads g ρ cond x ∧
      ((∃ b ∈ bs, branchTaken φ g ρ b = true) ↔ x ≠ 0)
  | _, _ =>
    ComputesWords φ g ρ n (valueAt ρ o) ∧
      (Defined g n → ∀ x, computed? φ g ρ n = some x → valueAt ρ o = x)

/-- A well-typed node that compares or chooses. -/
inductive IsChoice (g : Graph) : Node → Prop
  | setCC {vt cvt : ValueType} {lhs rhs cond : Option Value} {payload : Payload}
    (hvt : vt.isInteger)
      (hcvt : cvt ∈ [.i32, .i64, .f32]) (hl : g.Typed lhs cvt) (hr : g.Typed rhs cvt)
      (hc : (predicateAt g cond).isValid) :
      IsChoice g ⟨.setCC, [vt], [lhs, rhs, cond], payload⟩
  | selectCC {vt cvt : ValueType} {lhs rhs ifTrue ifFalse cond : Option Value} {payload : Payload}
      (hcvt : cvt ∈ [.i32, .i64, .f32]) (hl : g.Typed lhs cvt) (hr : g.Typed rhs cvt)
      (ht : g.Typed ifTrue vt) (hf : g.Typed ifFalse vt) (hc : (predicateAt g cond).isValid) :
      IsChoice g ⟨.selectCC, [vt], [lhs, rhs, ifTrue, ifFalse, cond], payload⟩
  | select {vt cvt : ValueType} {cond ifTrue ifFalse : Option Value} {payload : Payload}
      (hcvt : cvt ∈ [.i1, .i8, .i16, .i32, .i64]) (hc : g.Typed cond cvt) (ht : g.Typed ifTrue vt)
      (hf : g.Typed ifFalse vt) : IsChoice g ⟨.select, [vt], [cond, ifTrue, ifFalse], payload⟩
  | brCC {cvt : ValueType} {chain cond lhs rhs dest : Option Value} {payload : Payload}
      (hcvt : cvt ∈ [.i32, .i64, .f32]) (hl : g.Typed lhs cvt) (hr : g.Typed rhs cvt)
      (hc : (predicateAt g cond).isValid) :
      IsChoice g ⟨.brCC, [.chain], [chain, cond, lhs, rhs, dest], payload⟩
  | brCond {cvt : ValueType} {chain cond dest : Option Value} {payload : Payload}
      (hcvt : cvt ∈ [.i1, .i8, .i16, .i32, .i64]) (hc : g.Typed cond cvt) :
      IsChoice g ⟨.brCond, [.chain], [chain, cond, dest], payload⟩

theorem predicateAt_extends (hx : g₁.Extends g) (ho : g₁.Present o) :
    predicateAt g o = predicateAt g₁ o := by
  obtain ⟨v, rfl, hv⟩ := ho
  rw [predicateAt, predicateAt, hx.node _ (Graph.contains_lt hv)]

section

variable (hx : ∀ g, H g → g₁.Extends g)
include hx

theorem predicate_makes {α : Type} {k : CondCode → Lowering α} {Q : α → Graph → Prop}
    (ho : g₁.Present o) (hk : Makes H (k (predicateAt g₁ o)) Q) :
    Makes H (predicateOf o >>= k) Q := by
  obtain ⟨v, rfl, hv⟩ := ho
  simp only [predicateOf, nodeOf, orMalformed, pure_bind, bind_assoc]
  exact Makes.node_bind (fun g hg => (hx g hg).node _ (Graph.contains_lt hv)) hk

theorem compare_operands_makes (φ : Nat → Nat → FloatOrder) (hwt : WellTyped g₁)
    (hvt : Comparable vt cc) (hl : g₁.Typed lhs vt) (hr : g₁.Typed rhs vt) (hcc : cc.isValid) :
    Makes H (compare id lhs rhs cc) fun c g =>
      c.Ready g ∧ ∀ ρ, Obeys φ g ρ → Decides φ g ρ vt lhs rhs cc (c.holds φ ρ) := by
  refine compare_makes φ (fun g hg => hl.mono (hx g hg)) (fun g hg => hr.mono (hx g hg)) ?_ hvt hcc
  rintro rfl g hg
  exact ⟨(hwt.halvable hl (by decide)).mono (hx g hg), (hwt.halvable hr (by decide)).mono (hx g hg)⟩

end

section

variable (φ : Nat → Nat → FloatOrder) (hwt : WellTyped g₁) (hx : ∀ g, H g → g₁.Extends g)
  {payload : Payload} {cvt : ValueType} (hid : g₁.contains id)
include hwt hx hid

theorem lowerSetCC_makes (hn : g₁.node id = ⟨.setCC, [vt], [lhs, rhs, cond], payload⟩)
    (hvt : vt.isInteger) (hcvt : cvt ∈ [.i32, .i64, .f32]) (hl : g₁.Typed lhs cvt)
    (hr : g₁.Typed rhs cvt) (hc : (predicateAt g₁ cond).isValid) :
    Makes H (lowerSetCC id) fun os g => ∃ o, os = [o] ∧ ∀ ρ, Obeys φ g ρ →
      Computes φ g ρ ⟨.setCC, [vt], [lhs, rhs, cond], payload⟩ (valueAt ρ o) := by
  have hcond : g₁.Present cond := hwt.present hid (by rw [hn]; simp)
  have hin := hwt.operand_lt id hid
  rw [hn] at hin
  unfold lowerSetCC
  refine resultType_makes hx hid hn 0 rfl ?_
  refine operand_makes hx hid hn 0 rfl
    (operand_makes hx hid hn 1 rfl (operand_makes hx hid hn 2 rfl ?_))
  refine predicate_makes hx hcond ?_
  refine Makes.bind (compare_operands_makes hx φ hwt (.inl hcvt) hl hr hc) fun c => ?_
  refine Makes.bind (constant_makes 1 vt) fun one => ?_
  refine Makes.bind (constant_makes 0 vt) fun zero => ?_
  refine Makes.bind (selectOn_makes (fun g hg => hg.1.1.2.1) φ (fun g hg => (hg.1.2.denotes φ).1)
    fun g hg => (hg.2.denotes φ).1) fun o => ?_
  refine Makes.pure fun g hg => ⟨o, rfl, fun ρ hρ => ?_⟩
  obtain ⟨⟨⟨⟨hH, -, hdec⟩, hone⟩, hzero⟩, ho⟩ := hg
  obtain ⟨a, b, ha, hb, hp⟩ := hdec ρ hρ
  refine ⟨[a, b, valueAt ρ cond],
    .cons ha (.cons hb (.cons (.of_value (hcond.mono (hx g hH))) .nil)), fun x hcx => ?_⟩
  rw [settingOf_extends (hx g hH) hin] at hcx
  change ((predicateAt g₁ cond).outcome? φ ((g₁.operandType? lhs).getD .chain) a b).map
    (·.toNat) = some x at hcx
  rw [hl.operandType?, Option.getD_some] at hcx
  obtain ⟨q, hq, rfl⟩ := Option.map_eq_some_iff.1 hcx
  have hbits : 0 < vt.bits := by
    cases vt <;> first | decide | cases hvt
  rw [ho.value hρ, hp q hq, (hone.denotes φ).value hρ, (hzero.denotes φ).value hρ,
    toNat_ofInt_one hbits, toNat_ofInt_zero]
  cases q with
  | false => exact (Nat.zero_mod _).symm
  | true => exact (Nat.mod_eq_of_lt (Nat.one_lt_two_pow (Nat.ne_of_gt hbits))).symm

end

/-- A choice between two values, however they are read, is what a node makes of its operands. -/
def Picks (φ : Nat → Nat → FloatOrder) (g : Graph) (ρ : Valuation) (n : Node)
    (ifTrue ifFalse : Option Value) (p : Bool) : Prop :=
  ∀ t f, Reads g ρ ifTrue t → Reads g ρ ifFalse f → t < 2 ^ resultBits n → f < 2 ^ resultBits n →
    Computes φ g ρ n (if p then t else f)

/-- A value that is chosen between two others as a node chooses. -/
def Picked (φ : Nat → Nat → FloatOrder) (g : Graph) (n : Node) (ifTrue ifFalse : Option Value)
    (vt : ValueType) (t f o : Option Value) : Prop :=
  g.Typed o vt ∧ ∀ ρ, Obeys φ g ρ → ∃ p, Picks φ g ρ n ifTrue ifFalse p ∧
    valueAt ρ o = if p then valueAt ρ t else valueAt ρ f

section

variable (φ : Nat → Nat → FloatOrder) (hwt : WellTyped g₁) (hx : ∀ g, H g → g₁.Extends g)
  {payload : Payload} {cvt : ValueType} {t f : Option Value} {tvt : ValueType}
include hwt hx

theorem selectByPredicate_makes (hid : g₁.contains id)
    (hn : g₁.node id = ⟨.selectCC, [vt], [lhs, rhs, ifTrue, ifFalse, cond], payload⟩)
    (hcvt : Comparable cvt (predicateAt g₁ cond)) (hl : g₁.Typed lhs cvt) (hr : g₁.Typed rhs cvt)
    (hc : (predicateAt g₁ cond).isValid) (ht : ∀ g, H g → g.Typed t tvt)
    (hf : ∀ g, H g → g.Typed f tvt) :
    Makes H (selectByPredicate id lhs rhs t f (predicateAt g₁ cond)) fun o g =>
      Picked φ g (g₁.node id) ifTrue ifFalse tvt t f o := by
  have hcond : g₁.Present cond := hwt.present hid (by rw [hn]; simp)
  have hin := hwt.operand_lt id hid
  rw [hn] at hin
  refine Makes.bind (compare_operands_makes hx φ hwt hcvt hl hr hc) fun c => ?_
  refine (selectOn_makes (fun g hg => hg.2.1) φ (fun g hg => ht g hg.1) fun g hg => hf g hg.1).mono
    fun o g hg ho => ?_
  refine ⟨ho.1, fun ρ hρ => ⟨c.holds φ ρ, fun t f hrt hrf htlt hflt => ?_, ho.value hρ⟩⟩
  obtain ⟨a, b, ha, hb, hp⟩ := hg.2.2 ρ hρ
  rw [hn] at htlt hflt ⊢
  refine ⟨[a, b, t, f, valueAt ρ cond], .cons ha (.cons hb (.cons hrt (.cons hrf (.cons
    (.of_value (hcond.mono (hx g hg.1))) .nil)))), fun x hcx => ?_⟩
  rw [settingOf_extends (hx g hg.1) hin] at hcx
  change ((predicateAt g₁ cond).outcome? φ ((g₁.operandType? lhs).getD .chain) a b).map
    (fun p => if p then t else f) = some x at hcx
  rw [hl.operandType?, Option.getD_some] at hcx
  obtain ⟨q, hq, rfl⟩ := Option.map_eq_some_iff.1 hcx
  rw [hp q hq]
  refine (Nat.mod_eq_of_lt ?_).symm
  split
  · exact htlt
  · exact hflt

theorem selectByTruth_makes (hn : g₁.node id = ⟨.select, [vt], [cond, ifTrue, ifFalse], payload⟩)
    (hcvt : cvt ∈ [.i1, .i8, .i16, .i32, .i64]) (hc : g₁.Typed cond cvt)
    (ht : ∀ g, H g → g.Typed t tvt) (hf : ∀ g, H g → g.Typed f tvt) :
    Makes H (selectByTruth id cond t f) fun o g =>
    Picked φ g (g₁.node id) ifTrue ifFalse tvt t f o := by
  refine Makes.bind (truthOf_makes hwt hx φ hc hcvt) fun c => ?_
  refine (selectOn_makes (fun g hg => hg.2.1) φ (fun g hg => ht g hg.1) fun g hg => hf g hg.1).mono
    fun o g hg ho => ?_
  refine ⟨ho.1, fun ρ hρ => ⟨c.holds φ ρ, fun t f hrt hrf htlt hflt => ?_, ho.value hρ⟩⟩
  obtain ⟨x, hxr, hp⟩ := hg.2.2 ρ hρ
  rw [hn] at htlt hflt ⊢
  refine ⟨[x, t, f], .cons hxr (.cons hrt (.cons hrf .nil)), fun y hcy => ?_⟩
  cases hcy
  rw [hp]
  simp only [bne_iff_ne]
  refine (Nat.mod_eq_of_lt ?_).symm
  split
  · exact htlt
  · exact hflt

end

/-- A choice between the two values themselves. -/
theorem Picked.computes {n : Node} (h : Picked φ g n ifTrue ifFalse vt ifTrue ifFalse o)
    (ht : g.Typed ifTrue vt) (hf : g.Typed ifFalse vt) (hn : n.types = [vt]) (hρ : Obeys φ g ρ) :
    Computes φ g ρ n (valueAt ρ o) := by
  have hbits : resultBits n = vt.bits := by
    rw [resultBits, hn]
    rfl
  obtain ⟨p, hp, hvalue⟩ := h.2 ρ hρ
  rw [hvalue]
  exact hp _ _ (.of_value ht.present) (.of_value hf.present) (hbits ▸ ht.lt hρ) (hbits ▸ hf.lt hρ)

theorem Computes.words {n : Node} {y : Nat} (h : Computes φ g ρ n y) : ComputesWords φ g ρ n y :=
  ⟨y, y, h, h, rfl, rfl⟩

/-- The words of two values, the low one chosen by `p` and the high one by `q`, make up the words of
the values that `p` and `q` choose. -/
theorem chosen_words {bits tl th fl fh : Nat} (hbits : bits ≤ 32 ∨ bits = 64) (htl : tl < 2 ^ 32)
    (hth : th < 2 ^ 32) (hfl : fl < 2 ^ 32) (hfh : fh < 2 ^ 32) (p q : Bool) (y : Bool → Nat)
    (hy : ∀ r : Bool, y r = if r then (tl + 2 ^ 32 * th) % 2 ^
      bits else (fl + 2 ^ 32 * fh) % 2 ^ bits) :
    ((if p then tl else fl) + 2 ^ 32 * (if q then th else fh)) % 2 ^ bits % 2 ^ 32 = y p % 2 ^ 32 ∧
    ((if p then tl else fl) + 2 ^ 32 * (if q then th else fh)) % 2 ^ bits / 2 ^ 32 =
    y q / 2 ^ 32 := by
  rcases hbits with hle | rfl
  · -- a narrow value is its low word
    obtain ⟨k, hk⟩ : 2 ^ bits ∣ 2 ^ 32 := Nat.pow_dvd_pow 2 hle
    have hlow (l h : Nat) : (l + 2 ^ 32 * h) % 2 ^ bits = l % 2 ^ bits := by
      rw [hk, Nat.mul_assoc, Nat.add_mul_mod_self_left]
    have hlt (l : Nat) : l % 2 ^ bits / 2 ^ 32 = 0 :=
      Nat.div_eq_of_lt (Nat.lt_of_lt_of_le (Nat.mod_lt _ (Nat.two_pow_pos _))
        (Nat.pow_le_pow_right (by decide) hle))
    refine ⟨?_, ?_⟩
    · rw [hlow, hy]
      cases p <;> simp only [Bool.false_eq_true, if_false, if_true, hlow]
    · rw [hlow, hlt, hy]
      cases q <;> simp only [Bool.false_eq_true, if_false, if_true, hlow, hlt]
  · have hsum {l h : Nat} (hl : l < 2 ^ 32) (hh : h < 2 ^ 32) : (l + 2 ^ 32 * h) % 2 ^ 64 =
      l + 2 ^ 32 * h := Nat.mod_eq_of_lt (by omega)
    have hl : (if p then tl else fl) < 2 ^ 32 := by split <;> assumption
    have hh : (if q then th else fh) < 2 ^ 32 := by split <;> assumption
    rw [hsum hl hh, hy p, hy q, hsum htl hth, hsum hfl hfh]
    refine ⟨?_, ?_⟩
    · cases p <;> simp only [Bool.false_eq_true, if_false, if_true] <;> omega
    · cases q <;> simp only [Bool.false_eq_true, if_false, if_true] <;> omega

theorem bits_le_or_eq (h : vt.bits ≤ 64) : vt.bits ≤ 32 ∨ vt.bits = 64 := by
  cases vt <;> simp_all [ValueType.bits]

/-- Both words are chosen as the node chooses. -/
theorem splitSelect_makes (φ : Nat → Nat → FloatOrder) (hwt : WellTyped g₁)
    (hx : ∀ g, H g → g₁.Extends g) (hid : g₁.contains id) (hn : (g₁.node id).types = [vt])
    (hvt : vt.bits ≤ 64) (ht : g₁.Typed ifTrue vt) (hf : g₁.Typed ifFalse vt)
    {select : Option Value → Option Value → Lowering (Option Value)}
    (hselect : ∀ {H : Graph → Prop} {t f : Option Value}, (∀ g, H g → g₁.Extends g) →
      (∀ g, H g → g.Typed t .i32) → (∀ g, H g → g.Typed f .i32) → Makes H (select t f) fun o g =>
      Picked φ g (g₁.node id) ifTrue ifFalse .i32 t f o) :
    Makes H (splitSelect id select ifTrue ifFalse) fun os g => ∃ o, os = [o] ∧ g.Typed o vt ∧
    ∀ ρ, Obeys φ g ρ →
      ComputesWords φ g ρ (g₁.node id) (valueAt ρ o) := by
  unfold splitSelect
  refine Makes.bind (halves_mod_makes φ fun g hg => (hwt.halvable ht hvt).mono (hx g hg))
    fun t => ?_
  refine Makes.bind (halves_mod_makes φ fun g hg => (hwt.halvable hf hvt).mono (hx g hg.1))
    fun f => ?_
  refine Makes.bind (hselect (fun g hg => hx g hg.1.1) (fun g hg => hg.1.2.1.1)
    fun g hg => hg.2.1.1) fun low => ?_
  refine Makes.bind (hselect (fun g hg => hx g hg.1.1.1) (fun g hg => hg.1.1.2.1.2)
    fun g hg => hg.1.2.1.2) fun high => ?_
  refine resultType_makes (fun g hg => hx g hg.1.1.1.1) hid rfl 0 (by rw [hn]; rfl) ?_
  refine Makes.bind (buildPair_makes (fun g hg => hg.1.2.1) fun g hg => hg.2.1) fun o => ?_
  refine Makes.pure fun g hg => ⟨o, rfl, (hg.2.denotes_mod φ).1, fun ρ hρ => ?_⟩
  obtain ⟨⟨⟨⟨⟨hH, ⟨htl, hth⟩, htrue⟩, ⟨hfl, hfh⟩, hfalse⟩, hlow⟩, hhigh⟩, ho⟩ := hg
  obtain ⟨p, hp, hplow⟩ := hlow.2 ρ hρ
  obtain ⟨q, hq, hqhigh⟩ := hhigh.2 ρ hρ
  have hbits : resultBits (g₁.node id) = vt.bits := by
    rw [resultBits, hn]
    rfl
  have hlt (k : Nat) : k % 2 ^ vt.bits < 2 ^ resultBits (g₁.node id) := by
    rw [hbits]
    exact Nat.mod_lt _ (Nat.two_pow_pos _)
  have hboth (p : Bool) (hp : Picks φ g ρ (g₁.node id) ifTrue ifFalse p) :=
    hp _ _ (htrue ρ hρ) (hfalse ρ hρ) (hlt _) (hlt _)
  have hwords := chosen_words (bits_le_or_eq hvt) (htl.lt hρ) (hth.lt hρ) (hfl.lt hρ) (hfh.lt hρ) p
    q _ fun _ => rfl
  rw [(ho.denotes_mod φ).value hρ, hplow, hqhigh]
  exact ⟨_, _, hboth p hp, hboth q hq, hwords⟩

section

variable (φ : Nat → Nat → FloatOrder) (hwt : WellTyped g₁) (hx : ∀ g, H g → g₁.Extends g)
  (hid : g₁.contains id) {d : Subtarget.Description} {payload : Payload} {cvt : ValueType}
  {chain dest : Option Value}
include hwt hx hid

theorem lowerWide_makes {Q : Option (List (Option Value)) → Graph → Prop}
    (hw : ∃ vt ∈ (g₁.node id).types, vt.isWide) (hk : Makes H (split id) Q) :
    Makes H (lowerWide id) Q :=
  touchesWide_makes hx hid hwt (.inl hw) hk

theorem split_select_makes (hn : g₁.node id = ⟨.select, [vt], [cond, ifTrue, ifFalse], payload⟩)
    (hvt : vt.bits ≤ 64) (hw : (∃ vt ∈ (g₁.node id).types, vt.isWide) ∨ ∃ o ∈ (g₁.node id).operands,
      ∃ vt, g₁.Typed o vt ∧ vt.isWide)
    (hcvt : cvt ∈ [.i1, .i8, .i16, .i32, .i64]) (hc : g₁.Typed cond cvt) (ht : g₁.Typed ifTrue vt)
    (hf : g₁.Typed ifFalse vt) :
    Makes H (split id) fun r g => ∃ o, r = some [o] ∧ g.Typed o vt ∧ ∀ ρ, Obeys φ g ρ →
      ComputesWords φ g ρ (g₁.node id) (valueAt ρ o) := by
  unfold split
  refine Makes.node_bind (fun g hg => by rw [(hx g hg).node _ (Graph.contains_lt hid), hn]) ?_
  refine Makes.ite (fun h => by cases h) fun _ => ?_
  refine touchesWide_makes hx hid hwt hw ?_
  refine Makes.ite (fun h => by cases h) fun _ => ?_
  refine operand_makes hx hid hn 1 rfl (operand_makes hx hid hn 2 rfl ?_)
  refine Makes.bind (splitSelect_makes φ hwt hx hid (by rw [hn]) hvt ht hf fun hx ht hf =>
    operand_makes hx hid hn 0 rfl (selectByTruth_makes φ hwt hx hn hcvt hc ht hf)) fun os =>
    Makes.pure fun g hg => ?_
  obtain ⟨-, o, rfl, ho⟩ := hg
  exact ⟨o, rfl, ho⟩

theorem split_selectCC_makes
    (hn : g₁.node id = ⟨.selectCC, [vt], [lhs, rhs, ifTrue, ifFalse, cond], payload⟩)
    (hwide : vt.isWide) (hcvt : Comparable cvt (predicateAt g₁ cond)) (hl : g₁.Typed lhs cvt)
    (hr : g₁.Typed rhs cvt) (hc : (predicateAt g₁ cond).isValid) (ht : g₁.Typed ifTrue vt)
    (hf : g₁.Typed ifFalse vt) : Makes H (split id) fun r g => ∃ o, r = some [o] ∧ g.Typed o vt ∧
    ∀ ρ, Obeys φ g ρ →
      ComputesWords φ g ρ (g₁.node id) (valueAt ρ o) := by
  have hcond : g₁.Present cond := hwt.present hid (by rw [hn]; simp)
  unfold split
  refine Makes.node_bind (fun g hg => by rw [(hx g hg).node _ (Graph.contains_lt hid), hn]) ?_
  refine Makes.ite (fun h => by cases h) fun _ => ?_
  refine touchesWide_makes hx hid hwt
    (.inl ⟨vt, by rw [hn]; exact List.mem_singleton_self _, hwide⟩) ?_
  refine Makes.ite (fun h => by cases h) fun _ => ?_
  refine resultType_makes hx hid hn 0 rfl ?_
  refine Makes.ite (fun _ => ?_) fun hword => absurd hwide hword
  refine operand_makes hx hid hn 2 rfl (operand_makes hx hid hn 3 rfl ?_)
  refine Makes.bind (splitSelect_makes φ hwt hx hid (by rw [hn])
    (ValueType.bits_of_isWide hwide).le ht hf fun hx ht hf => operand_makes hx hid hn 0 rfl
    (operand_makes hx hid hn 1 rfl (operand_makes hx hid hn 4 rfl
      (predicate_makes hx hcond (selectByPredicate_makes φ hwt hx hid hn hcvt hl hr hc ht hf)))))
    fun os => Makes.pure fun g hg => ?_
  obtain ⟨-, o, rfl, ho⟩ := hg
  exact ⟨o, rfl, ho⟩

/-- Selects of values that are lowered. -/
theorem lowerNode_select_makes (hn : g₁.node id = ⟨.select, [vt], [cond, ifTrue, ifFalse], payload⟩)
    (hcvt : cvt ∈ [.i1, .i8, .i16, .i32, .i64]) (hc : g₁.Typed cond cvt) (ht : g₁.Typed ifTrue vt)
    (hf : g₁.Typed ifFalse vt) :
    Makes H (lowerNode d id) fun r g => ∃ o, r = some [o] ∧ g.Typed o vt ∧ ∀ ρ, Obeys φ g ρ →
      ComputesWords φ g ρ (g₁.node id) (valueAt ρ o) := by
  unfold lowerNode
  refine Makes.node_bind (fun g hg => by rw [(hx g hg).node _ (Graph.contains_lt hid), hn]) ?_
  refine resultType_makes hx hid hn 0 rfl ?_
  refine Makes.ite (fun hwide => ?_) fun hword => ?_
  · have hw : ∃ vt ∈ (g₁.node id).types, vt.isWide :=
      ⟨vt, by rw [hn]; exact List.mem_singleton_self _, hwide⟩
    exact lowerWide_makes hwt hx hid hw
      (split_select_makes φ hwt hx hid hn (ValueType.bits_of_isWide hwide).le
      (.inl hw) hcvt hc ht hf)
  · refine Makes.bind (Q :=
      fun os g => ∃ o, os = [o] ∧ Picked φ g (g₁.node id) ifTrue ifFalse vt ifTrue ifFalse o)
      ?_ fun os => ?_
    · refine operand_makes hx hid hn 0 rfl
        (operand_makes hx hid hn 1 rfl (operand_makes hx hid hn 2 rfl ?_))
      refine Makes.bind (selectByTruth_makes φ hwt hx hn hcvt hc (fun g hg => ht.mono (hx g hg))
        fun g hg => hf.mono (hx g hg)) fun o => Makes.pure fun g hg => ⟨o, rfl, hg.2⟩
    · refine Makes.pure fun g hg => ?_
      obtain ⟨hH, o, rfl, ho⟩ := hg
      exact ⟨o, rfl, ho.1, fun ρ hρ =>
        (ho.computes (ht.mono (hx g hH)) (hf.mono (hx g hH)) (by rw [hn]) hρ).words⟩

theorem lowerNode_selectCC_makes
    (hn : g₁.node id = ⟨.selectCC, [vt], [lhs, rhs, ifTrue, ifFalse, cond], payload⟩)
    (hcvt : Comparable cvt (predicateAt g₁ cond)) (hl : g₁.Typed lhs cvt) (hr : g₁.Typed rhs cvt)
    (hc : (predicateAt g₁ cond).isValid) (ht : g₁.Typed ifTrue vt) (hf : g₁.Typed ifFalse vt) :
    Makes H (lowerNode d id) fun r g => ∃ o, r = some [o] ∧ g.Typed o vt ∧ ∀ ρ, Obeys φ g ρ →
      ComputesWords φ g ρ (g₁.node id) (valueAt ρ o) := by
  have hcond : g₁.Present cond := hwt.present hid (by rw [hn]; simp)
  unfold lowerNode
  refine Makes.node_bind (fun g hg => by rw [(hx g hg).node _ (Graph.contains_lt hid), hn]) ?_
  refine resultType_makes hx hid hn 0 rfl ?_
  refine Makes.ite (fun hwide => ?_) fun hword => ?_
  · exact lowerWide_makes hwt hx hid ⟨vt, by rw [hn]; exact List.mem_singleton_self _, hwide⟩
      (split_selectCC_makes φ hwt hx hid hn hwide hcvt hl hr hc ht hf)
  · refine Makes.bind (Q :=
      fun os g => ∃ o, os = [o] ∧ Picked φ g (g₁.node id) ifTrue ifFalse vt ifTrue ifFalse o)
      ?_ fun os => ?_
    · refine operand_makes hx hid hn 0 rfl
        (operand_makes hx hid hn 1 rfl
        (operand_makes hx hid hn 2 rfl
        (operand_makes hx hid hn 3 rfl
        (operand_makes hx hid hn 4 rfl (predicate_makes hx hcond ?_)))))
      exact Makes.bind (selectByPredicate_makes φ hwt hx hid hn hcvt hl hr hc
        (fun g hg => ht.mono (hx g hg)) fun g hg => hf.mono (hx g hg)) fun o => Makes.pure
        fun g hg => ⟨o, rfl, hg.2⟩
    · refine Makes.pure fun g hg => ?_
      obtain ⟨hH, o, rfl, ho⟩ := hg
      exact ⟨o, rfl, ho.1, fun ρ hρ =>
        (ho.computes (ht.mono (hx g hH)) (hf.mono (hx g hH)) (by rw [hn]) hρ).words⟩

theorem lowerBrCC_makes
    (hn : g₁.node id = ⟨.brCC, [.chain], [chain, cond, lhs, rhs, dest], payload⟩)
    (hcvt : cvt ∈ [.i32, .i64, .f32]) (hl : g₁.Typed lhs cvt) (hr : g₁.Typed rhs cvt)
    (hc : (predicateAt g₁ cond).isValid) : Makes H (lowerBrCC id) fun os g => ∃ o, os = [o] ∧
    ∀ ρ, Obeys φ g ρ →
      ∃ bs p, Branches g dest chain bs o ∧ Decides φ g ρ cvt lhs rhs (predicateAt g₁ cond) p ∧
        ((∃ b ∈ bs, branchTaken φ g ρ b = true) ↔ p = true) := by
  have hpresent {o : Option Value} (ho : o ∈ [chain, cond, lhs, rhs, dest]) : g₁.Present o :=
    hwt.present hid (by rwa [hn])
  refine operand_makes hx hid hn 2 rfl
    (operand_makes hx hid hn 3 rfl (operand_makes hx hid hn 1 rfl ?_))
  refine predicate_makes hx (hpresent (by simp)) ?_
  refine Makes.bind (compare_operands_makes hx φ hwt (.inl hcvt) hl hr hc) fun c => ?_
  refine operand_makes (fun g hg => hx g hg.1) hid hn 0 rfl
    (operand_makes (fun g hg => hx g hg.1) hid hn 4 rfl ?_)
  refine Makes.bind (branchOn_makes (fun g hg => hg.2.1) φ
    (fun g hg => (hpresent (by simp)).mono (hx g hg.1)) fun g hg => (hpresent (by simp)).mono
    (hx g hg.1)) fun o => Makes.pure fun g hg => ⟨o, rfl, fun ρ hρ => ?_⟩
  obtain ⟨bs, hbs, htaken⟩ := hg.2
  exact ⟨bs, _, hbs, hg.1.2.2 ρ hρ, htaken ρ⟩

theorem lowerBrCond_makes (hn : g₁.node id = ⟨.brCond, [.chain], [chain, cond, dest], payload⟩)
    (hcvt : cvt ∈ [.i1, .i8, .i16, .i32, .i64]) (hc : g₁.Typed cond cvt) :
    Makes H (lowerBrCond id) fun os g => ∃ o, os = [o] ∧ ∀ ρ, Obeys φ g ρ →
      ∃ bs x, Branches g dest chain bs o ∧ Reads g ρ cond x ∧
      ((∃ b ∈ bs, branchTaken φ g ρ b = true) ↔ x ≠ 0) := by
  have hpresent {o : Option Value} (ho : o ∈ [chain, cond, dest]) : g₁.Present o :=
    hwt.present hid (by rwa [hn])
  refine operand_makes hx hid hn 1 rfl ?_
  refine Makes.bind (truthOf_makes hwt hx φ hc hcvt) fun c => ?_
  refine operand_makes (fun g hg => hx g hg.1) hid hn 0 rfl
    (operand_makes (fun g hg => hx g hg.1) hid hn 2 rfl ?_)
  refine Makes.bind (branchOn_makes (fun g hg => hg.2.1) φ
    (fun g hg => (hpresent (by simp)).mono (hx g hg.1)) fun g hg => (hpresent (by simp)).mono
    (hx g hg.1)) fun o => Makes.pure fun g hg => ⟨o, rfl, fun ρ hρ => ?_⟩
  obtain ⟨bs, hbs, htaken⟩ := hg.2
  obtain ⟨x, hxr, hp⟩ := hg.1.2.2 ρ hρ
  refine ⟨bs, x, hbs, hxr, ?_⟩
  rw [htaken ρ, hp, bne_iff_ne]

end

theorem ComputesWords.eq {n : Node} {x y : Nat} (h : ComputesWords φ g ρ n y) (hn : Defined g n)
    (hx : computed? φ g ρ n = some x) : y = x := by
  obtain ⟨low, high, hlow, hhigh, hl, hh⟩ := h
  rw [hlow.eq hn hx] at hl
  rw [hhigh.eq hn hx] at hh
  omega

theorem lowerNode_makes (φ : Nat → Nat → FloatOrder) (d : Subtarget.Description)
    (hwt : WellTyped g₁) (hid : g₁.contains id) (hc : IsChoice g₁ (g₁.node id)) :
    Makes (fun g => g₁.Extends g) (lowerNode d id) fun r g => ∃ o, r = some [o] ∧
      ∀ ρ, Obeys φ g ρ → Chooses φ g ρ (g₁.node id) o := by
  have hx (g : Graph) (hg : g₁.Extends g) : g₁.Extends g := hg
  have hnode (g : Graph) (hg : g₁.Extends g) : g.node id = g₁.node id :=
    hg.node _ (Graph.contains_lt hid)
  generalize hn : g₁.node id = n at hc hnode
  cases hc with
  | setCC hvt hcvt hl hr hc =>
    unfold lowerNode
    refine Makes.node_bind hnode
      (Makes.bind (lowerSetCC_makes φ hwt hx hid hn hvt hcvt hl hr hc) fun os => Makes.pure
      fun g hg => ?_)
    obtain ⟨-, o, rfl, ho⟩ := hg
    exact ⟨o, rfl, fun ρ hρ => ⟨(ho ρ hρ).words, fun hdef x hcx => (ho ρ hρ).eq hdef hcx⟩⟩
  | selectCC hcvt hl hr ht hf hc =>
    refine (lowerNode_selectCC_makes φ hwt hx hid hn (.inl hcvt) hl hr hc ht hf).mono
      fun r g _ hr => ?_
    obtain ⟨o, rfl, -, ho⟩ := hr
    rw [hn] at ho
    exact ⟨o, rfl, fun ρ hρ => ⟨ho ρ hρ, fun hdef x hcx => (ho ρ hρ).eq hdef hcx⟩⟩
  | select hcvt hc ht hf =>
    refine (lowerNode_select_makes φ hwt hx hid hn hcvt hc ht hf).mono fun r g _ hr => ?_
    obtain ⟨o, rfl, -, ho⟩ := hr
    rw [hn] at ho
    exact ⟨o, rfl, fun ρ hρ => ⟨ho ρ hρ, fun hdef x hcx => (ho ρ hρ).eq hdef hcx⟩⟩
  | brCC hcvt hl hr hc =>
    unfold lowerNode
    refine Makes.node_bind hnode
      (Makes.bind (lowerBrCC_makes φ hwt hx hid hn hcvt hl hr hc) fun os => Makes.pure
      fun g hg => ?_)
    obtain ⟨hg, o, rfl, ho⟩ := hg
    refine ⟨o, rfl, fun ρ hρ => ?_⟩
    obtain ⟨bs, p, hbs, hp, htaken⟩ := ho ρ hρ
    refine ⟨bs, p, hbs, ?_, htaken⟩
    rw [(hl.mono hg).operandType?, Option.getD_some,
      predicateAt_extends hg (hwt.present hid (by rw [hn]; simp))]
    exact hp
  | brCond hcvt hc =>
    unfold lowerNode
    refine Makes.node_bind hnode (Makes.bind (lowerBrCond_makes φ hwt hx hid hn hcvt hc) fun os =>
      Makes.pure fun g hg => ?_)
    obtain ⟨-, o, rfl, ho⟩ := hg
    exact ⟨o, rfl, ho⟩

/-- Lowering a node that compares or chooses succeeds, and what takes its place chooses as the
node. -/
theorem lowerNode_chooses (φ : Nat → Nat → FloatOrder) (d : Subtarget.Description)
    {s : Lower.Session} (hwt : WellTyped s.graph) (hid : s.graph.contains id)
    (hc : IsChoice s.graph (s.graph.node id)) :
    ∃ o g', outcome (lowerNode d id) s = (.ok (some [o]), { s with graph := g' }) ∧
    s.graph.Grows g' ∧
      (∀ ρ, Obeys φ s.graph ρ → ∃ ρ', Obeys φ g' ρ' ∧
        ∀ v, v.node < s.graph.entries.size → ρ' v = ρ v) ∧
      ∀ ρ, Obeys φ g' ρ → Chooses φ g' ρ (s.graph.node id) o := by
  obtain ⟨r, g', hout, hgrows, hall⟩ := lowerNode_makes φ d hwt hid hc s fun _ hg => hg
  obtain ⟨o, rfl, hchooses⟩ := hall g' (.refl _)
  exact ⟨o, g', hout, hgrows, fun ρ hρ => exists_obeys hwt.operand_lt hgrows hρ, hchooses⟩

/-- Two arguments of two words that are compared. -/
def lessGraph : Graph :=
  let g := Graph.empty { params := [.i64, .i64] }
  let (g, a) := g.argument 0 .i64
  let (g, b) := g.argument 1 .i64
  (g.setCC .i1 (some a) (some b) .lt).1

theorem wellTyped_lessGraph : WellTyped lessGraph :=
  .of_forall (by decide) (by decide)

/-- The arguments are minus one and one. -/
def lessValues : Valuation := fun v => if v = ⟨1, 0⟩ then 2 ^ 64 - 1 else if v = ⟨2, 0⟩ ∨
    v = ⟨4, 0⟩ then 1 else 0

/-- No floats are compared. -/
def noFloats : Nat → Nat → FloatOrder := fun _ _ => .unordered

theorem obeys_lessValues : Obeys noFloats lessGraph lessValues :=
  .of_forall (by decide) (by decide) (by decide)

/-- Minus one is less than one, although its low word is not below. -/
theorem lowerNode_chooses_less :
    ∃ o g' ρ, outcome (lowerNode .builtIn 4) ((target .builtIn).session lessGraph) =
        (.ok (some [o]), { (target .builtIn).session lessGraph with graph := g' }) ∧
      Obeys noFloats g' ρ ∧ ρ ⟨1, 0⟩ = 2 ^ 64 - 1 ∧ ρ ⟨2, 0⟩ = 1 ∧ valueAt ρ o = 1 := by
  have hc : IsChoice lessGraph (lessGraph.node 4) := by
    have htyped : lessGraph.Typed (some ⟨1, 0⟩) .i64 ∧ lessGraph.Typed (some ⟨2, 0⟩) .i64 :=
      ⟨⟨_, rfl, by decide, by decide⟩, ⟨_, rfl, by decide, by decide⟩⟩
    exact .setCC (show ValueType.i1.isInteger from rfl) (by decide) htyped.1 htyped.2 (by decide)
  obtain ⟨o, g', hout, hgrows, hgo, hchooses⟩ :=
    lowerNode_chooses noFloats .builtIn (s := (target .builtIn).session lessGraph)
      wellTyped_lessGraph (by decide) hc
  obtain ⟨ρ, hρ, hagree⟩ := hgo lessValues obeys_lessValues
  refine ⟨o, g', ρ, hout, hρ, hagree _ (by decide), hagree _ (by decide), ?_⟩
  have hin := wellTyped_lessGraph.operand_lt 4 (by decide)
  refine (hchooses ρ hρ).2 (fun v hv => ?_) 1 ?_
  · have hdefined : ∀ o ∈ (lessGraph.node 4).operands, ∀ v ∈ o, (lessGraph.node v.node).op ≠
      .undef := by decide
    rw [hgrows.extension.node _ (hin v hv)]
    exact hdefined _ hv v rfl
  · have hvalue : computed? noFloats lessGraph lessValues (lessGraph.node 4) = some 1 := by decide
    exact (computed?_extends hgrows.extension hin hagree).trans hvalue

end GraphLowering.Usim
