import GraphLowering.Proofs.Usim.Combining
import GraphLowering.Proofs.Usim.CompareMeaning

/-!
# Conditions on constants

A select or a branch that compares two constants is combined to what the condition says of them.
Constants are compared as words, whatever their type is: for words that is the comparison of the
type, and for a narrower type it is if the words extend the numbers of the type alike
(`combine_constants`). Otherwise two constants that are one number of the type may compare as
different (`narrow_constants_differ`).
-/

namespace GraphLowering.Usim

open Lower (Session)
open Lower.Lowering

variable {w : Nat} {a b : Int64} {c : Cond}

/-! ### Conditions -/

/-- The conditions after a compare of integers. -/
def Cond.isInteger : Cond → Bool
  | al | nv | eq | ne | lt | le | gt | ge | ult | ule | ugt | uge => true
  | _ => false

/-- The orderings that read a sign. -/
def Cond.isSigned : Cond → Bool
  | lt | le | gt | ge => true
  | _ => false

theorem Cond.holds?_of_isInteger (h : c.isInteger) (a b : Int64) :
    c.holds? a b = some (c.onIntegers a.toInt32.toBitVec b.toInt32.toBitVec) := by
  rw [← getD_holds?]
  cases c <;> first | rfl | cases h

/-- Where numbers of a width go to words in their order, conditions stay as they are. -/
theorem Cond.onIntegers_of_monotone {f : BitVec w → BitVec 32} (c : Cond)
    (hu : ∀ x y, (f x).toNat < (f y).toNat ↔ x.toNat < y.toNat)
    (hs : c.isSigned → ∀ x y, (f x).toInt < (f y).toInt ↔ x.toInt < y.toInt) (x y : BitVec w) :
    c.onIntegers (f x) (f y) = c.onIntegers x y := by
  have heq : f x = f y ↔ x = y := by
    rw [← BitVec.toNat_inj, ← BitVec.toNat_inj]
    have := hu x y
    have := hu y x
    omega
  have hsle (h : c.isSigned) (x y : BitVec w) : (f x).toInt ≤ (f y).toInt ↔ x.toInt ≤ y.toInt := by
    rw [← Int.not_lt, ← Int.not_lt, hs h]
  have hule (x y : BitVec w) : (f x).toNat ≤ (f y).toNat ↔ x.toNat ≤ y.toNat := by
    rw [← Nat.not_lt, ← Nat.not_lt, hu]
  rw [Bool.eq_iff_iff]
  cases c <;> simp only [onIntegers, BitVec.slt, BitVec.sle, BitVec.ult, BitVec.ule, beq_iff_eq,
    bne_iff_ne, ne_eq, decide_eq_true_eq, heq, hu, hule]
  all_goals first | exact hs rfl _ _ | exact hsle rfl _ _

theorem Cond.onIntegers_signExtend (hw : w ≤ 32) (c : Cond) (x y : BitVec w) :
    c.onIntegers (x.signExtend 32) (y.signExtend 32) = c.onIntegers x y := by
  refine c.onIntegers_of_monotone (fun x y => ?_) (fun _ x y => ?_) x y
  · have hpow : 2 ^ w ≤ 2 ^ 32 := Nat.pow_le_pow_right (by decide) hw
    have hx := x.isLt
    have hy := y.isLt
    rw [BitVec.toNat_signExtend, BitVec.toNat_signExtend, BitVec.toNat_setWidth_of_le hw,
      BitVec.toNat_setWidth_of_le hw, x.msb_eq_decide, y.msb_eq_decide]
    simp only [decide_eq_true_eq]
    split <;> split <;> omega
  · rw [BitVec.toInt_signExtend_of_le hw, BitVec.toInt_signExtend_of_le hw]

theorem Cond.onIntegers_setWidth (hw : w ≤ 32) (hc : c.isSigned = false) (x y : BitVec w) :
    c.onIntegers (x.setWidth 32) (y.setWidth 32) = c.onIntegers x y := by
  refine c.onIntegers_of_monotone (fun x y => ?_) (fun h => absurd h (by simp [hc])) x y
  rw [BitVec.toNat_setWidth_of_le hw, BitVec.toNat_setWidth_of_le hw]

/-! ### Constants -/

/-- The number of some bits that a constant stands for. -/
def numberOf (w : Nat) (n : Int64) : BitVec w := BitVec.ofInt w n.toInt

theorem numberOf_word (n : Int64) : numberOf 32 n = n.toInt32.toBitVec := by
  rw [numberOf, ← Int32.toBitVec_ofInt, ← Int64.toInt32_ofInt, Int64.ofInt_toInt]

/-- The words of two constants extend their numbers alike: both by the sign, or both by zeros if the
condition does not read a sign. -/
def ExtendAlike (c : Cond) (w : Nat) (a b : Int64) : Prop :=
  (numberOf 32 a = (numberOf w a).signExtend 32 ∧ numberOf 32 b = (numberOf w b).signExtend 32) ∨
  (c.isSigned = false ∧ numberOf 32 a = (numberOf w a).setWidth 32 ∧
    numberOf 32 b = (numberOf w b).setWidth 32)

theorem knownOutcome?_constants {g : Graph} {l r : Option Value} (hc : c.isInteger)
    (hl : g.constant? l = some a) (hr : g.constant? r = some b) :
    knownOutcome? g c l r = some (c.onIntegers (numberOf 32 a) (numberOf 32 b)) := by
  have hfloat : c.isFloat = false := by
    cases c <;> first | rfl | cases hc
  rw [numberOf_word, numberOf_word, ← Cond.holds?_of_isInteger hc]
  unfold knownOutcome?
  split
  · rfl
  · rfl
  · rw [hfloat, if_neg Bool.false_ne_true, hl, hr]

theorem ExtendAlike.onIntegers (h : ExtendAlike c w a b) (hw : w ≤ 32) :
    c.onIntegers (numberOf 32 a) (numberOf 32 b) = c.onIntegers (numberOf w a) (numberOf w b) := by
  rcases h with ⟨ha, hb⟩ | ⟨hc, ha, hb⟩
  · rw [ha, hb, Cond.onIntegers_signExtend hw]
  · rw [ha, hb, Cond.onIntegers_setWidth hw hc]

/-- A select of the machine or a branch that compares two constants of an integer type under a
condition. -/
inductive ComparesConstants (g : Graph) (vt : ValueType) (a b : Int64) (c : Cond) : Node → Prop
  | select {types : List ValueType} {payload : Payload} {l r t f k : Option Value}
    (hl : IsConstant g l a vt)
      (hr : IsConstant g r b vt) (hk : condOfValue g k = c) :
      ComparesConstants g vt a b c ⟨Op.selectCC, types, [l, r, t, f, k], payload⟩
  | branch {types : List ValueType} {payload : Payload} {chain l r dest k : Option Value}
      (hl : IsConstant g l a vt) (hr : IsConstant g r b vt) (hk : condOfValue g k = c) :
      ComparesConstants g vt a b c ⟨Op.brCC, types, [chain, k, l, r, dest], payload⟩

/-- What a select or a branch with an outcome is combined to. -/
def combinedBy (s : Session) (n : Node) (p : Bool) :
    Except Lower.Failure (Option (Option Value)) × Session :=
  match n.operands with
  | [x, _, t, f, dest] =>
    if n.op = Op.selectCC then (.ok (some (if p then t else f)), s)
    else if p then (.ok (some (some ⟨s.graph.entries.size, 0⟩)),
      { s with graph := (s.graph.single .br .chain [x, dest]).1 })
    else (.ok (some x), s)
  | _ => (.error .malformed, s)

theorem IsConstant.constant? {g : Graph} {o : Option Value} {vt : ValueType}
    (h : IsConstant g o a vt) : g.constant? o = some a := by
  obtain ⟨v, rfl, -, -, hn⟩ := h
  simp [Graph.constant?, hn, Node.constant?, Node.integer]

theorem outcome_combineNode_constants {s : Session} {id : Nat} {vt : ValueType} (hc : c.isInteger)
    (h : ComparesConstants s.graph vt a b c (s.graph.node id)) :
    outcome (combineNode id) s =
      combinedBy s (s.graph.node id) (c.onIntegers (numberOf 32 a) (numberOf 32 b)) := by
  rw [outcome_combineNode]
  generalize s.graph.node id = n at h ⊢
  cases h with
  | @select _ _ l r t f k hl hr hk =>
    have hknown := knownOutcome?_constants (g := s.graph) hc hl.constant? hr.constant?
    generalize c.onIntegers (numberOf 32 a) (numberOf 32 b) = p at hknown
    simp only [combination?, selectCombination?, combinedBy, if_true, List.getElem?_cons_zero,
      List.getElem?_cons_succ, Option.bind_eq_bind, Option.bind_some, hk, hknown]
    by_cases harms : t = f
    · rw [if_pos harms, harms, ite_self]
      rfl
    · rw [if_neg harms]
      cases p <;> rfl
  | @branch _ _ chain l r dest k hl hr hk =>
    have hknown := knownOutcome?_constants (g := s.graph) hc hl.constant? hr.constant?
    generalize c.onIntegers (numberOf 32 a) (numberOf 32 b) = p at hknown
    simp only [combination?, branchCombination?, combinedBy,
      if_neg (show Op.brCC ≠ Op.selectCC by decide), if_true,
      List.getElem?_cons_zero, List.getElem?_cons_succ, Option.bind_eq_bind,
      Option.bind_some, hk, hknown]
    cases p <;> rfl

/-- A select or a branch that compares two constants of a type of at most a word is combined to what
the condition says of the numbers of the type: always if the type is the word, and for a narrower
type if the words of the constants extend their numbers alike. So it is for other constants that are
the same numbers. -/
theorem combine_constants {s : Session} {id : Nat} {vt : ValueType} (hbits : vt.bits ≤ 32)
    (hc : c.isInteger) (h : ComparesConstants s.graph vt a b c (s.graph.node id))
    (halike : vt = .i32 ∨ ExtendAlike c vt.bits a b) : outcome (combineNode id) s =
      combinedBy s (s.graph.node id) (c.onIntegers (numberOf vt.bits a) (numberOf vt.bits b)) ∧
    ∀ (s' : Session) (id' : Nat) (a' b' : Int64),
    ComparesConstants s'.graph vt a' b' c (s'.graph.node id') →
      vt = .i32 ∨ ExtendAlike c vt.bits a' b' → a'.toInt % 2 ^ vt.bits = a.toInt % 2 ^ vt.bits →
      b'.toInt % 2 ^ vt.bits = b.toInt % 2 ^ vt.bits →
      outcome (combineNode id') s' =
        combinedBy s' (s'.graph.node id')
        (c.onIntegers (numberOf vt.bits a) (numberOf vt.bits b)) := by
  have hfold {s : Session} {id : Nat} {a b : Int64}
    (h : ComparesConstants s.graph vt a b c (s.graph.node id))
      (halike : vt = .i32 ∨ ExtendAlike c vt.bits a b) : outcome (combineNode id) s =
        combinedBy s (s.graph.node id)
            (c.onIntegers (numberOf vt.bits a) (numberOf vt.bits b)) := by
    rw [outcome_combineNode_constants hc h]
    rcases halike with rfl | halike
    · rfl
    · rw [halike.onIntegers hbits]
  have hnumber {n n' : Int64} (he : n'.toInt % 2 ^ vt.bits = n.toInt % 2 ^ vt.bits) :
      numberOf vt.bits n' = numberOf vt.bits n := by
    refine BitVec.eq_of_toNat_eq ?_
    rw [numberOf, numberOf, BitVec.toNat_ofInt, BitVec.toNat_ofInt]
    exact_mod_cast congrArg Int.toNat he
  refine ⟨hfold h halike, fun s' id' a' b' h' halike' ha hb => ?_⟩
  rw [hfold h' halike', hnumber ha, hnumber hb]

/-- A select between two arguments by whether two constants of a type are equal. -/
def constantsGraph (vt : ValueType) (a b : Int64) : Graph :=
  let (g, x) := (Graph.empty { params := [.i32, .i32] }).argument 0 .i32
  let (g, y) := g.argument 1 .i32
  let (g, l) := g.constant a vt
  let (g, r) := g.constant b vt
  let (g, code) := g.targetConstant (.ofNat Cond.eq.number) .i32
  (g.single Op.selectCC .i32 [some l, some r, some x, some y, some code]).1

/-- Minus one and `2 ^ 32 - 1` are the same word. -/
theorem combine_constants_word :
    (outcome (combineNode 6) ((target .builtIn).session (constantsGraph .i32 (-1) 4294967295))).1 =
      .ok (some (some ⟨1, 0⟩)) := by
  have hnode : (constantsGraph .i32 (-1) 4294967295).node 6 = ⟨Op.selectCC, [.i32],
      [some ⟨3, 0⟩, some ⟨4, 0⟩, some ⟨1, 0⟩, some ⟨2, 0⟩, some ⟨5, 0⟩], .none⟩ := by decide
  have hcompares : ComparesConstants (constantsGraph .i32 (-1) 4294967295) .i32 (-1) 4294967295 .eq
      ((constantsGraph .i32 (-1) 4294967295).node 6) := by
    rw [hnode]
    exact .select ⟨_, rfl, rfl, by decide, by decide⟩
      ⟨_, rfl, rfl, by decide, by decide⟩ (by decide)
  have h := (combine_constants (s :=
    (target .builtIn).session (constantsGraph .i32 (-1) 4294967295)) (by decide) rfl
    hcompares (.inl rfl)).1
  rw [h]
  show (combinedBy _ ((constantsGraph .i32 (-1) 4294967295).node 6) _).1 = _
  rw [hnode]
  rfl

/-- Minus one and 255 are the same byte, but the select of their equality is combined to its second
value. -/
theorem narrow_constants_differ :
    ComparesConstants (constantsGraph .i8 255 (-1)) .i8 255 (-1) .eq
    ((constantsGraph .i8 255 (-1)).node 6) ∧ numberOf 8 255 = numberOf 8 (-1) ∧
    (outcome (combineNode 6) ((target .builtIn).session (constantsGraph .i8 255 (-1)))).1 =
      .ok (some (some ⟨2, 0⟩)) := by
  have hnode : (constantsGraph .i8 255 (-1)).node 6 = ⟨Op.selectCC, [.i32],
      [some ⟨3, 0⟩, some ⟨4, 0⟩, some ⟨1, 0⟩, some ⟨2, 0⟩, some ⟨5, 0⟩], .none⟩ := by decide
  have hcompares : ComparesConstants (constantsGraph .i8 255 (-1)) .i8 255 (-1) .eq
      ((constantsGraph .i8 255 (-1)).node 6) := by
    rw [hnode]
    exact .select ⟨_, rfl, rfl, by decide, by decide⟩
      ⟨_, rfl, rfl, by decide, by decide⟩ (by decide)
  refine ⟨hcompares, by decide, ?_⟩
  rw [outcome_combineNode_constants rfl hcompares]
  show (combinedBy _ ((constantsGraph .i8 255 (-1)).node 6) _).1 = _
  rw [hnode]
  rfl

end GraphLowering.Usim
