import GraphLowering.Proofs.Usim.Additions
import GraphLowering.Proofs.Usim.ChoiceMeaning

/-!
# The two ways to lower a select

A select that has to do with values of two words is lowered by `lowerNode` or split by `split`. If
its result has at most two words (`select_entries_agree`), both give a value of its type, and where
the condition can be compared both give the arm that is chosen. A select of four words is split as
if it had two (`split_drops_words`).
-/

namespace GraphLowering.Usim

open Lower (Lowering Session)
open Lower.Lowering

variable {φ : Nat → Nat → FloatOrder} {g g' : Graph} {o : Option Value} {cvt vt : ValueType}
  {cc : CondCode} {id : Nat} {s s' : Session} {r : Option (List (Option Value))}

/-- A well-typed select of values of type `vt`, by a predicate on values of type `cvt`. -/
inductive SelectAt (g : Graph) (cvt vt : ValueType) : CondCode → Node → Prop
  | select {cond ifTrue ifFalse : Option Value} {payload : Payload} (hcvt : cvt.isInteger)
    (hc : g.Typed cond cvt)
      (ht : g.Typed ifTrue vt) (hf : g.Typed ifFalse vt) :
      SelectAt g cvt vt .ne ⟨.select, [vt], [cond, ifTrue, ifFalse], payload⟩
  | selectCC {lhs rhs ifTrue ifFalse cond : Option Value} {payload : Payload} (hl : g.Typed lhs cvt)
      (hr : g.Typed rhs cvt) (hc : (predicateAt g cond).isValid) (ht : g.Typed ifTrue vt)
      (hf : g.Typed ifFalse vt) :
      SelectAt g cvt vt (predicateAt g cond)
      ⟨.selectCC, [vt], [lhs, rhs, ifTrue, ifFalse, cond], payload⟩

/-- A value of a grown graph is what a node of the graph before makes of its operands, whatever they
are. -/
structure StandsFor (φ : Nat → Nat → FloatOrder) (g : Graph) (n : Node) (g' : Graph)
    (o : Option Value) : Prop where
  valuations : ∀ ρ, Obeys φ g ρ → ∃ ρ', Obeys φ g' ρ' ∧ ∀ v, v.node < g.entries.size → ρ' v = ρ v
  value : Defined g n → ∀ ρ, Obeys φ g' ρ → ∀ x, computed? φ g ρ n = some x → valueAt ρ o = x

namespace SelectAt

variable {n : Node} (h : SelectAt g cvt vt cc n)
include h

theorem types : n.types = [vt] := by
  cases h <;> rfl

theorem touches (hwide : cvt.isWide ∨ vt.isWide) :
    (∃ vt ∈ n.types, vt.isWide) ∨ ∃ o ∈ n.operands, ∃ vt, g.Typed o vt ∧ vt.isWide := by
  rcases hwide with hw | hw
  · right
    cases h with
    | select _ hc => exact ⟨_, List.mem_cons_self, cvt, hc, hw⟩
    | selectCC hl => exact ⟨_, List.mem_cons_self, cvt, hl, hw⟩
  · exact .inl ⟨vt, by rw [h.types]; exact List.mem_singleton_self _, hw⟩

end SelectAt

theorem outcome_touchesWide (hwt : WellTyped s.graph) (hid : s.graph.contains id)
    (hw : (∃ vt ∈ (s.graph.node id).types, vt.isWide) ∨
      ∃ o ∈ (s.graph.node id).operands, ∃ vt, s.graph.Typed o vt ∧ vt.isWide) :
    outcome (touchesWide id) s = (.ok true, s) := by
  obtain ⟨types, htypes, hany⟩ := hwt.touches hid hw
  rw [touchesWide, outcome_bind, outcome_nodeTypes, htypes]
  simp only [required, outcome_pure, hany]

section

variable {a b : Option Value} {os : List (Option Value)}
  {select : Option Value → Option Value → Lowering (Option Value)}

theorem splitSelect_typed (hs : ∀ t f, Preserves s.graph.Extends (select t f))
    (hid : s.graph.contains id) (hn : (s.graph.node id).types = [vt])
    (h : outcome (splitSelect id select a b) s = (.ok os, s')) :
    ∃ o, os = [o] ∧ s'.graph.Typed o vt := by
  obtain ⟨t, s₁, h₁, h⟩ := outcome_bind_ok.1 h
  obtain ⟨f, s₂, h₂, h⟩ := outcome_bind_ok.1 h
  obtain ⟨low, s₃, h₃, h⟩ := outcome_bind_ok.1 h
  obtain ⟨high, s₄, h₄, h⟩ := outcome_bind_ok.1 h
  have hhalves (o : Option Value) := preserves_halves (lasting_extends s.graph) (o := o)
  have hx : s.graph.Extends s₄.graph :=
    hs _ _ _ _ _ (hs _ _ _ _ _ (hhalves _ _ _ _ (hhalves _ _ _ _ (.refl _) h₁) h₂) h₃) h₄
  obtain ⟨vt', s₅, h₅, h⟩ := outcome_bind_ok.1 h
  rw [outcome_resultType, hx.node _ (Graph.contains_lt hid), hn] at h₅
  cases h₅
  obtain ⟨o, s₆, h₆, h⟩ := outcome_bind_ok.1 h
  cases h
  cases h₆
  refine ⟨_, rfl, _, rfl, ?_, ?_⟩
  · show (Graph.newNode _ _ _ _ _).1.contains _
    rw [Graph.contains_newNode]
    simp
  · exact Graph.type?_newNode_self ..

end

theorem outcome_split_select {cond ifTrue ifFalse : Option Value} {payload : Payload}
    (hn : s.graph.node id = ⟨.select, [vt], [cond, ifTrue, ifFalse], payload⟩)
    (htouch : outcome (touchesWide id) s = (.ok true, s)) :
    outcome (split id) s =
    outcome (splitSelect id (fun t f => do selectByTruth id (← operand id 0) t f) ifTrue ifFalse
      >>= fun os => pure (some os)) s := by
  rw [split, outcome_bind, outcome_node, hn]
  simp only [carriesPairs, Bool.false_eq_true, if_false]
  rw [outcome_bind, htouch]
  simp only [Bool.not_true, Bool.false_eq_true, if_false]
  rw [outcome_bind, outcome_operand, hn]
  show outcome (operand id 2 >>= _) s = _
  rw [outcome_bind, outcome_operand, hn]
  rfl

theorem outcome_split_selectCC {lhs rhs ifTrue ifFalse cond : Option Value} {payload : Payload}
    (hn : s.graph.node id = ⟨.selectCC, [vt], [lhs, rhs, ifTrue, ifFalse, cond], payload⟩)
    (htouch : outcome (touchesWide id) s = (.ok true, s)) :
    outcome (split id) s =
      if vt.isWide then
        outcome (splitSelect id (fun t f => do
          let lhs ← operand id 0
          let rhs ← operand id 1
          selectByPredicate id lhs rhs t f (← predicateOf (← operand id 4))) ifTrue ifFalse
          >>= fun os => pure (some os)) s
      else outcome (noSplit id) s := by
  rw [split, outcome_bind, outcome_node, hn]
  simp only [carriesPairs, Bool.false_eq_true, if_false]
  rw [outcome_bind, htouch]
  simp only [Bool.not_true, Bool.false_eq_true, if_false]
  rw [outcome_bind, outcome_resultType, hn]
  show outcome (if vt.isWide then _ else _) s = _
  split
  · rw [outcome_bind, outcome_operand, hn]
    show outcome (operand id 3 >>= _) s = _
    rw [outcome_bind, outcome_operand, hn]
    rfl
  · rfl

theorem outcome_lowerNode_wide (d : Subtarget.Description) {n : Node} (h : SelectAt g cvt vt cc n)
    (hn : s.graph.node id = n) (hwide : vt.isWide)
    (htouch : outcome (touchesWide id) s = (.ok true, s)) :
    outcome (lowerNode d id) s = outcome (split id) s := by
  have hlower : outcome (lowerWide id) s = outcome (split id) s := by
    rw [lowerWide, outcome_bind, htouch]
    rfl
  rw [lowerNode, outcome_bind, outcome_node, hn]
  cases h <;>
  · simp only
    rw [outcome_bind, outcome_resultType, hn]
    show outcome (if vt.isWide then _ else _) s = _
    rw [if_pos hwide, hlower]

theorem split_typed (hwt : WellTyped s.graph) (hid : s.graph.contains id)
    (h : SelectAt s.graph cvt vt cc (s.graph.node id)) (hwide : cvt.isWide ∨ vt.isWide)
    (hout : outcome (split id) s = (.ok r, s')) :
    (∃ o, r = some [o] ∧ s'.graph.Typed o vt) ∧
    (vt.isWide ∨ (s.graph.node id).op = .select ∧ cvt = .i64) := by
  have htypes := h.types
  have htouch := outcome_touchesWide hwt hid (h.touches hwide)
  generalize hn : s.graph.node id = n at h htypes
  cases h with
  | select hcvt =>
    rw [outcome_split_select hn htouch] at hout
    obtain ⟨os, s₁, h₁, h₂⟩ := outcome_bind_ok.1 hout
    cases h₂
    obtain ⟨o, rfl, ho⟩ := splitSelect_typed (fun t f => .bind (.operand _ _) fun _ =>
      preserves_selectByTruth (lasting_extends _)) hid (by rw [hn]) h₁
    refine ⟨⟨o, rfl, ho⟩, hwide.symm.imp_right fun hw => ⟨rfl, ?_⟩⟩
    cases cvt <;> simp_all [ValueType.isWide, ValueType.isInteger]
  | selectCC =>
    rw [outcome_split_selectCC hn htouch] at hout
    split at hout
    · rename_i hvt
      obtain ⟨os, s₁, h₁, h₂⟩ := outcome_bind_ok.1 hout
      cases h₂
      obtain ⟨o, rfl, ho⟩ :=
        splitSelect_typed (fun t f => .bind (.operand _ _) fun _ => .bind (.operand _ _) fun _ =>
        .bind (.operand _ _) fun _ => .bind (.bind (.nodeOf _) fun _ => .pure _) fun _ =>
        preserves_selectByPredicate (lasting_extends _)) hid (by rw [hn]) h₁
      exact ⟨⟨o, rfl, ho⟩, .inl hvt⟩
    · obtain ⟨_, _, _, h₂⟩ := outcome_bind_ok.1 hout
      cases h₂

/-- What a rule gives stands for a node if its words are those that the node computes. -/
theorem exists_standsFor {m : Lowering (Option (List (Option Value)))} (hwt : WellTyped s.graph)
    (hid : s.graph.contains id)
    (hm : Lower.Makes (fun g => s.graph.Extends g) m fun r g => ∃ o, r = some [o] ∧ g.Typed o vt ∧
      ∀ ρ, Obeys φ g ρ → ComputesWords φ g ρ (s.graph.node id) (valueAt ρ o)) :
    ∃ o s', outcome m s = (.ok (some [o]), s') ∧ s'.graph.Typed o vt ∧
      StandsFor φ s.graph (s.graph.node id) s'.graph o := by
  obtain ⟨r, g', hout, hgrows, hall⟩ := hm s fun _ hg => hg
  obtain ⟨o, rfl, ho, hwords⟩ := hall g' (.refl _)
  have hin := hwt.operand_lt id hid
  refine ⟨o, _, hout, ho, ⟨fun ρ hρ => exists_obeys hwt.operand_lt hgrows hρ,
    fun hdef ρ hρ x hx => ?_⟩⟩
  refine (hwords ρ hρ).eq (fun v hv => ?_)
    ((computed?_extends hgrows.extension hin fun _ _ => rfl).trans hx)
  rw [hgrows.extension.node _ (hin v hv)]
  exact hdef v hv

theorem SelectAt.split_makes (φ : Nat → Nat → FloatOrder) (hwt : WellTyped g) (hid : g.contains id)
    (h : SelectAt g cvt vt cc (g.node id)) (hwide : vt.isWide) (hcmp : Comparable cvt cc) :
    Lower.Makes (fun g' => g.Extends g') (split id) fun r g' => ∃ o, r = some [o] ∧ g'.Typed o vt ∧
      ∀ ρ, Obeys φ g' ρ → ComputesWords φ g' ρ (g.node id) (valueAt ρ o) := by
  have htouch := h.touches (.inr hwide)
  generalize hn : g.node id = n at h htouch
  rw [← hn] at htouch ⊢
  cases h with
  | select hcvt hc ht hf =>
    have hmem : cvt ∈ [.i1, .i8, .i16, .i32, .i64] := by
      cases cvt <;> simp_all [Comparable, ValueType.isInteger, ValueType.isNarrow]
    exact split_select_makes φ hwt (fun _ hg => hg) hid hn (ValueType.bits_of_isWide hwide).le
      htouch hmem hc ht hf
  | selectCC hl hr hc ht hf =>
    exact split_selectCC_makes φ hwt (fun _ hg => hg) hid hn hwide hcmp hl hr hc ht hf

/-- A select that has to do with values of two words, and has at most two words itself, is split as
it is lowered. Both give a value of its type, for two words the same one, and the value is the
chosen arm, for all values of the operands. -/
theorem select_entries_agree (φ : Nat → Nat → FloatOrder) (d : Subtarget.Description)
    (hwt : WellTyped s.graph) (hid : s.graph.contains id)
    (h : SelectAt s.graph cvt vt cc (s.graph.node id)) (hwide : cvt.isWide ∨ vt.isWide)
    (hbits : vt.bits ≤ 64) (hout : outcome (split id) s = (.ok r, s')) :
    ∃ o o' s'', r = some [o] ∧ s'.graph.Typed o vt ∧
      outcome (lowerNode d id) s = (.ok (some [o']), s'') ∧ s''.graph.Typed o' vt ∧
      (vt.isWide → o' = o ∧ s'' = s') ∧
      (Comparable cvt cc → StandsFor φ s.graph (s.graph.node id) s'.graph o ∧
        StandsFor φ s.graph (s.graph.node id) s''.graph o') := by
  obtain ⟨⟨o, rfl, ho⟩, hkind⟩ := split_typed hwt hid h hwide hout
  by_cases hvt : vt.isWide
  · have hlower := outcome_lowerNode_wide d h rfl hvt
      (outcome_touchesWide hwt hid (h.touches hwide))
    refine ⟨o, o, s', rfl, ho, hlower.trans hout, ho, fun _ => ⟨rfl, rfl⟩, fun hcmp => ?_⟩
    obtain ⟨o₁, s₁, h₁, -, hstands⟩ := exists_standsFor hwt hid (h.split_makes φ hwt hid hvt hcmp)
    cases hout.symm.trans h₁
    exact ⟨hstands, hstands⟩
  · obtain ⟨hop, rfl⟩ := hkind.resolve_left hvt
    have htouch := h.touches hwide
    generalize hn : s.graph.node id = n at h hop htouch
    rw [← hn] at htouch ⊢
    cases h with
    | selectCC => cases hop
    | select _ hc ht hf =>
      obtain ⟨o₁, s₁, h₁, -, hstands₁⟩ := exists_standsFor hwt hid
        (split_select_makes φ hwt (fun _ hg => hg) hid hn hbits htouch (by decide) hc ht hf)
      obtain ⟨o₂, s₂, h₂, ho₂, hstands₂⟩ := exists_standsFor hwt hid
        (lowerNode_select_makes φ hwt (fun _ hg => hg) hid (d := d) hn (by decide) hc ht hf)
      cases hout.symm.trans h₁
      exact ⟨o, o₂, s₂, rfl, ho, h₂, ho₂, fun hw => absurd hw hvt, fun _ => ⟨hstands₁, hstands₂⟩⟩

/-- A select by a value of two words. -/
def selectGraph (vt : ValueType) : Graph :=
  let g := Graph.empty { params := [.i64, vt, vt] }
  let (g, c) := g.argument 0 .i64
  let (g, a) := g.argument 1 vt
  let (g, b) := g.argument 2 vt
  (g.select vt (some c) (some a) (some b)).1

theorem selectAt_selectGraph
    (hn : (selectGraph vt).node 4 = ⟨.select, [vt], [some ⟨1, 0⟩, some ⟨2, 0⟩, some ⟨3, 0⟩], .none⟩)
    (hc : (selectGraph vt).contains 1 ∧ (selectGraph vt).contains 2 ∧ (selectGraph vt).contains 3)
    (ht : (selectGraph vt).type? ⟨1, 0⟩ = some .i64 ∧ (selectGraph vt).type? ⟨2, 0⟩ = some vt ∧
      (selectGraph vt).type? ⟨3, 0⟩ = some vt) :
    SelectAt (selectGraph vt) .i64 vt .ne ((selectGraph vt).node 4) := by
  rw [hn]
  exact .select rfl ⟨_, rfl, hc.1, ht.1⟩ ⟨_, rfl, hc.2.1, ht.2.1⟩ ⟨_, rfl, hc.2.2, ht.2.2⟩

/-- What splitting the select, and lowering it, makes of the graph. -/
def splitArms (vt : ValueType) : Lower.Session :=
  (outcome (split 4) ((target .builtIn).session (selectGraph vt))).2

def loweredArms (vt : ValueType) : Lower.Session :=
  (outcome (lowerNode .builtIn 4) ((target .builtIn).session (selectGraph vt))).2

/-- A valuation of nodes with one result each. -/
def valuesOf (xs : List Nat) : Valuation := fun v => xs.getD v.node 0

/-- A condition whose low word is zero holds: both ways give the first of two bytes. -/
theorem select_entries_agree_bytes :
    outcome (split 4) ((target .builtIn).session (selectGraph .i8)) =
        (.ok (some [some ⟨41, 0⟩]), splitArms .i8) ∧
      ∃ o ρ ρ', outcome (lowerNode .builtIn 4) ((target .builtIn).session (selectGraph .i8)) =
          (.ok (some [o]), loweredArms .i8) ∧
        Obeys noFloats (splitArms .i8).graph ρ ∧ Obeys noFloats (loweredArms .i8).graph ρ' ∧
        ρ ⟨1, 0⟩ = 2 ^ 32 ∧ ρ' ⟨1, 0⟩ = 2 ^ 32 ∧ valueAt ρ (some ⟨41, 0⟩) = 200 ∧
        valueAt ρ' o = 200 := by
  have hout : outcome (split 4) ((target .builtIn).session (selectGraph .i8)) =
      (.ok (some [some ⟨41, 0⟩]), splitArms .i8) := rfl
  obtain ⟨o, o', s'', ho, -, hlower, -, -, hstands⟩ := select_entries_agree noFloats .builtIn
    (.of_forall (g := selectGraph .i8) (by decide) (by decide)) rfl
    (selectAt_selectGraph (by decide) (by decide) (by decide)) (.inl rfl) (by decide) hout
  cases ho
  obtain rfl : loweredArms .i8 = s'' := congrArg Prod.snd hlower
  obtain ⟨hsplit, hlowered⟩ := hstands (.inl (by decide))
  have hρ : Obeys noFloats (selectGraph .i8) (valuesOf [0, 2 ^ 32, 200, 7, 200]) :=
    .of_forall (by decide) (by decide) (by decide)
  have hall : ∀ o ∈ ((selectGraph .i8).node 4).operands, ∀ v ∈ o,
    ((selectGraph .i8).node v.node).op ≠ .undef ∧
      v.node < (selectGraph .i8).entries.size := by
    decide
  have hdefined : Defined (selectGraph .i8) ((selectGraph .i8).node 4) :=
    fun v hv => (hall _ hv v rfl).1
  obtain ⟨ρ, hρ₁, hagree⟩ := hsplit.valuations _ hρ
  obtain ⟨ρ', hρ₂, hagree'⟩ := hlowered.valuations _ hρ
  have hvalue : computed? noFloats (selectGraph .i8) (valuesOf [0, 2 ^ 32, 200, 7, 200])
    ((selectGraph .i8).node 4) =
      some 200 := by decide
  have hin (v : Value) (hv : some v ∈ ((selectGraph .i8).node 4).operands) := (hall _ hv v rfl).2
  refine ⟨hout, o', ρ, ρ', hlower, hρ₁, hρ₂, hagree _ (by decide), hagree' _ (by decide), ?_, ?_⟩
  · exact hsplit.value hdefined ρ hρ₁ _ ((computed?_extends (.refl _) hin hagree).trans hvalue)
  · exact hlowered.value hdefined ρ' hρ₂ _ ((computed?_extends (.refl _) hin hagree').trans hvalue)

/-- A select of four words is well typed and is split without a failure, but into two words: of the
chosen arm the high half is lost, which the other way keeps. -/
theorem split_drops_words :
    SelectAt (selectGraph .i128) .i64 .i128 .ne ((selectGraph .i128).node 4) ∧
    outcome (split 4) ((target .builtIn).session (selectGraph .i128)) =
      (.ok (some [some ⟨41, 0⟩]), splitArms .i128) ∧
    outcome (lowerNode .builtIn 4) ((target .builtIn).session (selectGraph .i128)) =
      (.ok (some [some ⟨18, 0⟩]), loweredArms .i128) ∧
    ∃ ρ ρ', Obeys noFloats (splitArms .i128).graph ρ ∧ Obeys noFloats (loweredArms .i128).graph ρ' ∧
      [ρ ⟨1, 0⟩, ρ ⟨2, 0⟩, ρ ⟨3, 0⟩] = [1, 2 ^ 64, 5] ∧ [ρ' ⟨1, 0⟩, ρ' ⟨2, 0⟩, ρ' ⟨3, 0⟩] =
      [1, 2 ^ 64, 5] ∧ ρ ⟨41, 0⟩ = 0 ∧ ρ' ⟨18, 0⟩ = 2 ^ 64 := by
  refine ⟨selectAt_selectGraph (by decide) (by decide) (by decide), rfl, rfl,
    valuesOf [0, 1, 2 ^ 64, 5, 2 ^ 64, 0, 0, 1, 0, 0, 5, 1, 0, 0, 0, 1, 1, 0, 0, 0, 0, 1, 1, 0, 1,
    4, 0, 0, 0, 1, 1,
      0, 0, 0, 0, 1, 1, 0, 1, 4, 0, 0],
    valuesOf [0, 1, 2 ^ 64, 5, 2 ^ 64, 0, 0, 1, 1, 0, 0, 0, 0, 1, 1, 0, 1, 4, 2 ^ 64], ?_, ?_,
    rfl, rfl, rfl, rfl⟩
  · exact .of_forall (by decide +kernel) (by decide +kernel) (by decide +kernel)
  · exact .of_forall (by decide +kernel) (by decide +kernel) (by decide +kernel)

end GraphLowering.Usim
