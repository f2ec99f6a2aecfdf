import GraphLowering.Proofs.Usim.WordValues
import GraphLowering.Usim.Target

/-!
# What comparisons decide

A predicate on two values is decided by the test that stands for it: on words by one compare, or by
one of two, and on values of two words by compares of the words.
-/

namespace GraphLowering

/-- The orderings of integers that read a sign. -/
def CondCode.readsSign : CondCode → Bool
  | gt | ge | lt | le | ogt | oge | olt | ole => true
  | _ => false

namespace Usim

open Lower (Lowering Makes)
open Lower.Lowering

variable {φ : Nat → Nat → FloatOrder} {g g' : Graph} {ρ : Valuation} {o lhs rhs : Option Value}
  {vt : ValueType} {cc : CondCode} {H : Graph → Prop} {id : Nat}

/-! ### Conditions -/

/-- A condition on two integers of one width. -/
def Cond.onIntegers {w : Nat} (c : Cond) (x y : BitVec w) : Bool :=
  match c with
  | al => true
  | eq => x == y
  | ne => x != y
  | lt => x.slt y
  | le => x.sle y
  | gt => y.slt x
  | ge => y.sle x
  | ult => x.ult y
  | ule => x.ule y
  | ugt => y.ult x
  | uge => y.ule x
  | _ => false

section

variable (s t : Int32)

theorem beq_toBitVec : (s == t) = (s.toBitVec == t.toBitVec) := by
  rw [Bool.eq_iff_iff, beq_iff_eq, beq_iff_eq, Int32.toBitVec_inj]

theorem lt_toBitVec : decide (s < t) = s.toBitVec.slt t.toBitVec := by
  rw [Bool.eq_iff_iff, decide_eq_true_iff]
  exact Int32.lt_iff_toBitVec_slt

theorem le_toBitVec : decide (s ≤ t) = s.toBitVec.sle t.toBitVec := by
  rw [Bool.eq_iff_iff, decide_eq_true_iff]
  exact Int32.le_iff_toBitVec_sle

theorem lt_toUInt32 : decide (s.toUInt32 < t.toUInt32) = s.toBitVec.ult t.toBitVec := by
  rw [Bool.eq_iff_iff, decide_eq_true_iff, UInt32.lt_iff_toBitVec_lt, BitVec.ult_iff_lt]
  rfl

theorem le_toUInt32 : decide (s.toUInt32 ≤ t.toUInt32) = s.toBitVec.ule t.toBitVec := by
  rw [Bool.eq_iff_iff, decide_eq_true_iff, UInt32.le_iff_toBitVec_le, BitVec.ule_iff_le]
  rfl

end

/-- The machine's conditions on words; what is no such condition does not hold. -/
theorem Cond.getD_holds? (c : Cond) (a b : Int64) :
    (c.holds? a b).getD false = c.onIntegers a.toInt32.toBitVec b.toInt32.toBitVec := by
  cases c <;> simp only [holds?, Option.getD_some, Option.getD_none, onIntegers, bne,
    beq_toBitVec, lt_toBitVec, le_toBitVec, lt_toUInt32, le_toUInt32]

theorem Cond.holds_of_isWord {c : Cond} (h : c.isFloat = false) (a b : Nat) :
    c.holds φ a b = c.onIntegers (BitVec.ofNat 32 a) (BitVec.ofNat 32 b) := by
  have hword (a : Nat) : (Int64.ofNat a).toInt32.toBitVec = BitVec.ofNat 32 a := by simp
  rw [holds, h, if_neg Bool.false_ne_true, getD_holds?, hword, hword]

/-! ### Tests -/

namespace FlagTest

/-- Both conditions of a test are read back as they are named. -/
def Coded : FlagTest → Prop
  | one c => c.Coded
  | either c c' => c.Coded ∧ c'.Coded

variable {t : FlagTest}

theorem coded_of_ofPredicate? (h : ofPredicate? cc vt = some t) : t.Coded := by
  unfold ofPredicate? at h
  split at h <;> cases cc <;> cases h <;> simp only [Coded, Cond.Coded] <;> decide

theorem isSome_ofPredicate? (vt : ValueType) (h : cc.isValid) : (ofPredicate? cc vt).isSome := by
  unfold ofPredicate?
  split <;> cases cc <;> first | rfl | cases h

theorem holds_ofInteger? (h : ofInteger? cc = some t) (a b : Nat) :
    t.holds φ a b = cc.onIntegers (BitVec.ofNat 32 a) (BitVec.ofNat 32 b) := by
  cases cc <;> cases h <;> rw [holds, Cond.holds_of_isWord rfl] <;> rfl

theorem holds_ofFloat? {a b : Nat} {p : Bool} (h : ofFloat? cc = some t)
    (hp : cc.onFloats (φ a b) = some p) : t.holds φ a b = p := by
  cases cc <;> cases h <;> simp only [holds, Cond.holds, Cond.isFloat, Cond.onFloats,
    CondCode.onFloats] at hp ⊢ <;> cases hφ : φ a b <;> simp_all [CondCode.onFloats.ordered,
    Cond.holds?]

end FlagTest

/-! ### Values of two words -/

section Pairs

theorem toInt_ofNat_pair {l h : Nat} (hl : l < 2 ^ 32) (hh : h < 2 ^ 32) :
    (BitVec.ofNat 64 (l + 2 ^ 32 * h)).toInt = (BitVec.ofNat 32 h).toInt * 2 ^ 32 + l := by
  simp only [BitVec.toInt_eq_toNat_cond, BitVec.toNat_ofNat]
  rw [Nat.mod_eq_of_lt (by omega), Nat.mod_eq_of_lt hh]
  split <;> split <;> omega

theorem toNat_ofNat_pair {l h : Nat} (hl : l < 2 ^ 32) (hh : h < 2 ^ 32) :
    (BitVec.ofNat 64 (l + 2 ^ 32 * h)).toNat = l + 2 ^ 32 * h := by
  rw [BitVec.toNat_ofNat]
  exact Nat.mod_eq_of_lt (by omega)

theorem ofNat_inj_of_lt {w h k : Nat} (hh : h < 2 ^ w) (hk : k < 2 ^ w) :
    BitVec.ofNat w h = BitVec.ofNat w k ↔ h = k := by
  rw [← BitVec.toNat_inj, BitVec.toNat_ofNat, BitVec.toNat_ofNat, Nat.mod_eq_of_lt hh,
    Nat.mod_eq_of_lt hk]

variable {xl xh yl yh : Nat} (hxl : xl < 2 ^ 32) (hxh : xh < 2 ^ 32) (hyl : yl < 2 ^ 32)
  (hyh : yh < 2 ^ 32)
include hxl hxh hyl hyh

/-- The high words decide an ordering unless they are equal, and then the low words do. -/
theorem onIntegers_ordering {high low : Cond} (h : wideOrdering? cc = some (high, low)) :
    cc.onIntegers (BitVec.ofNat 64 (xl + 2 ^ 32 * xh)) (BitVec.ofNat 64 (yl + 2 ^ 32 * yh)) =
      if xh = yh then low.onIntegers (BitVec.ofNat 32 xl) (BitVec.ofNat 32 yl)
      else high.onIntegers (BitVec.ofNat 32 xh) (BitVec.ofNat 32 yh) := by
  have hinj : (BitVec.ofNat 32 xh).toInt = (BitVec.ofNat 32 yh).toInt ↔ xh = yh := by
    rw [BitVec.toInt_inj, ofNat_inj_of_lt hxh hyh]
  have hnat {k : Nat} (hk : k < 2 ^ 32) : (BitVec.ofNat 32 k).toNat = k := by
    rw [BitVec.toNat_ofNat, Nat.mod_eq_of_lt hk]
  cases cc <;> cases h <;>
    simp only [CondCode.onIntegers, Cond.onIntegers, BitVec.slt, BitVec.sle, BitVec.ult, BitVec.ule,
      toInt_ofNat_pair hxl hxh, toInt_ofNat_pair hyl hyh, toNat_ofNat_pair hxl hxh,
      toNat_ofNat_pair hyl hyh, hnat hxl, hnat hyl, hnat hxh, hnat hyh] <;>
    split <;> rw [decide_eq_decide] <;> omega

/-- Two values are equal if no word differs. -/
theorem onIntegers_equality {equality : CondCode} (h : wideEquality? cc = some equality) :
    cc.onIntegers (BitVec.ofNat 64 (xl + 2 ^ 32 * xh)) (BitVec.ofNat 64 (yl + 2 ^ 32 * yh)) =
      equality.onIntegers
        ((BitVec.ofNat 32 xl ^^^ BitVec.ofNat 32 yl) |||
        (BitVec.ofNat 32 xh ^^^ BitVec.ofNat 32 yh)) 0#32 := by
  have hzero : (BitVec.ofNat 32 xl ^^^ BitVec.ofNat 32 yl) |||
    (BitVec.ofNat 32 xh ^^^ BitVec.ofNat 32 yh) = 0#32 ↔
      xl = yl ∧ xh = yh := by
    rw [BitVec.or_eq_zero_iff, BitVec.xor_eq_zero_iff, BitVec.xor_eq_zero_iff,
      ofNat_inj_of_lt hxl hyl, ofNat_inj_of_lt hxh hyh]
  have hpair : BitVec.ofNat 64 (xl + 2 ^ 32 * xh) = BitVec.ofNat 64 (yl + 2 ^ 32 * yh) ↔
      xl = yl ∧ xh = yh := by
    rw [ofNat_inj_of_lt (by omega) (by omega)]
    omega
  have hbeq : (BitVec.ofNat 64 (xl + 2 ^ 32 * xh) == BitVec.ofNat 64 (yl + 2 ^ 32 * yh)) =
      ((BitVec.ofNat 32 xl ^^^ BitVec.ofNat 32 yl) |||
          (BitVec.ofNat 32 xh ^^^ BitVec.ofNat 32 yh) == 0#32) := by
    rw [Bool.eq_iff_iff, beq_iff_eq, beq_iff_eq, hzero, hpair]
  cases cc <;> cases h <;> simp only [CondCode.onIntegers, bne, hbeq]

end Pairs

/-! ### Comparing -/

/-- What the machine finds when it compares. -/
def Comparison.holds (φ : Nat → Nat → FloatOrder) (ρ : Valuation) (c : Comparison) : Bool :=
  c.test.holds φ (valueAt ρ c.lhs) (valueAt ρ c.rhs)

/-- A comparison of values that are there, by conditions that have a number. -/
structure Comparison.Ready (g : Graph) (c : Comparison) : Prop where
  lhs : g.Present c.lhs
  rhs : g.Present c.rhs
  coded : c.test.Coded

/-- A truth value is what a predicate says of two values, where it says something. -/
def Decides (φ : Nat → Nat → FloatOrder) (g : Graph) (ρ : Valuation) (vt : ValueType)
    (lhs rhs : Option Value) (cc : CondCode) (p : Bool) : Prop :=
  ∃ a b, Reads g ρ lhs a ∧ Reads g ρ rhs b ∧ ∀ q, cc.outcome? φ vt a b = some q → p = q

variable (φ)

/-- A comparison of words decides a predicate on values of two words. -/
structure Narrowed (g : Graph) (lhs rhs : Option Value) (cc : CondCode) (a b : Option Value)
    (cc' : CondCode) : Prop where
  typed : g.Typed a .i32 ∧ g.Typed b .i32
  valid : cc'.isValid
  same : ∀ ρ, Obeys φ g ρ → ∃ x y, Reads g ρ lhs x ∧ Reads g ρ rhs y ∧
    cc.onIntegers (BitVec.ofNat 64 x) (BitVec.ofNat 64 y) =
      cc'.onIntegers (BitVec.ofNat 32 (valueAt ρ a)) (BitVec.ofNat 32 (valueAt ρ b))

section

variable {xl xh yl yh zero one : Option Value} (hx : ∀ g, H g → Halved φ g lhs xl xh)
  (hy : ∀ g, H g → Halved φ g rhs yl yh) (hzero : ∀ g, H g → IsConstant g zero 0 .i32)
include hx hy hzero

theorem difference_makes {equality : CondCode} (h : wideEquality? cc = some equality) :
    Makes H (do
      let low ← value (·.binary .xor .i32 xl yl)
      let high ← value (·.binary .xor .i32 xh yh)
      let difference ← value (·.binary .or .i32 low high)
      return (difference, zero, equality)) fun p g => Narrowed φ g lhs rhs cc p.1 p.2.1 p.2.2 := by
  refine Makes.bind (binary_makes φ (· ^^^ ·) (fun _ _ => rfl)
    (fun g hg => (hx g hg).typed.1.present) fun g hg => (hy g hg).typed.1.present) fun low => ?_
  refine Makes.bind (binary_makes φ (· ^^^ ·) (fun _ _ => rfl)
    (fun g hg => (hx g hg.1).typed.2.present) fun g hg => (hy g hg.1).typed.2.present)
    fun high => ?_
  refine Makes.bind (binary_makes φ (· ||| ·) (fun _ _ => rfl) (fun g hg => hg.1.2.1.present)
    fun g hg => hg.2.1.present) fun difference => ?_
  refine Makes.pure fun g hg => ?_
  obtain ⟨⟨⟨hH, hlow⟩, hhigh⟩, hdiff⟩ := hg
  have hz := (hzero g hH).denotes φ
  refine ⟨⟨hdiff.1, hz.1⟩, by cases cc <;> cases h <;> rfl, fun ρ hρ => ?_⟩
  refine ⟨_, _, (hx g hH).reads ρ hρ, (hy g hH).reads ρ hρ, ?_⟩
  rw [onIntegers_equality ((hx g hH).typed.1.lt hρ) ((hx g hH).typed.2.lt hρ)
    ((hy g hH).typed.1.lt hρ) ((hy g hH).typed.2.lt hρ) h, hz.value hρ, hdiff.value hρ,
    hlow.value hρ, hhigh.value hρ]
  simp only [BitVec.ofNat_toNat, BitVec.setWidth_eq]
  rfl

/-- The outcome on the high words or, if they are equal, on the low words, compared with zero. -/
theorem ordering_makes (hone : ∀ g, H g → IsConstant g one 1 .i32) {highCond lowCond : Cond}
    (h : wideOrdering? cc = some (highCond, lowCond)) :
    Makes H (do
      let low ← selectNode xl yl one zero lowCond
      let high ← selectNode xh yh one zero highCond
      let result ← selectNode xh yh low high .eq
      return (result, zero, CondCode.ne)) fun p g => Narrowed φ g lhs rhs cc p.1 p.2.1 p.2.2 := by
  have hcoded : highCond.Coded ∧ lowCond.Coded := by
    cases cc <;> cases h <;> simp only [Cond.Coded] <;> decide
  have hfloat : highCond.isFloat = false ∧ lowCond.isFloat = false := by
    cases cc <;> cases h <;> decide
  have hz (g : Graph) (hg : H g) := (hzero g hg).denotes φ
  have ho (g : Graph) (hg : H g) := (hone g hg).denotes φ
  refine Makes.bind (selectNode_makes φ hcoded.2 (fun g hg => (hx g hg).typed.1.present)
    (fun g hg => (hy g hg).typed.1.present) (fun g hg => (ho g hg).1) fun g hg => (hz g hg).1)
    fun low => ?_
  refine Makes.bind (selectNode_makes φ hcoded.1 (fun g hg => (hx g hg.1).typed.2.present)
    (fun g hg => (hy g hg.1).typed.2.present) (fun g hg => (ho g hg.1).1) fun g hg => (hz g hg.1).1)
    fun high => ?_
  refine Makes.bind (selectNode_makes φ (by decide) (fun g hg => (hx g hg.1.1).typed.2.present)
    (fun g hg => (hy g hg.1.1).typed.2.present) (fun g hg => hg.1.2.1) fun g hg => hg.2.1)
    fun result => ?_
  refine Makes.pure fun g hg => ?_
  obtain ⟨⟨⟨hH, hlow⟩, hhigh⟩, hresult⟩ := hg
  refine ⟨⟨hresult.1, (hz g hH).1⟩, rfl,
    fun ρ hρ => ⟨_, _, (hx g hH).reads ρ hρ, (hy g hH).reads ρ hρ, ?_⟩⟩
  have hxh := (hx g hH).typed.2.lt hρ
  have hyh := (hy g hH).typed.2.lt hρ
  have hequal : Cond.eq.onIntegers (BitVec.ofNat 32 (valueAt ρ xh))
    (BitVec.ofNat 32 (valueAt ρ yh)) =
      decide (valueAt ρ xh = valueAt ρ yh) := by
    rw [Bool.eq_iff_iff, decide_eq_true_iff, ← ofNat_inj_of_lt hxh hyh]
    exact beq_iff_eq
  rw [onIntegers_ordering ((hx g hH).typed.1.lt hρ) hxh ((hy g hH).typed.1.lt hρ) hyh h,
    hresult.value hρ, hlow.value hρ, hhigh.value hρ, (hz g hH).value hρ, (ho g hH).value hρ,
    Cond.holds_of_isWord rfl, Cond.holds_of_isWord hfloat.1, Cond.holds_of_isWord hfloat.2, hequal]
  generalize lowCond.onIntegers _ _ = low, highCond.onIntegers _ _ = high
  by_cases h : valueAt ρ xh = valueAt ρ yh
  · rw [if_pos h, decide_eq_true h]
    cases low <;> rfl
  · rw [if_neg h, decide_eq_false h]
    cases high <;> rfl

end

/-- Every predicate is an equality, has a fixed outcome or is an ordering. -/
theorem wideOrdering?_isSome (hcc : cc.isValid) (hequality : wideEquality? cc = none)
    (hfixed : isFixedOutcome cc = false) : (wideOrdering? cc).isSome := by
  cases cc <;> simp_all [CondCode.isValid, wideEquality?, isFixedOutcome, wideOrdering?]

theorem narrow_makes (hl : ∀ g, H g → Halvable g lhs .i64) (hr : ∀ g, H g → Halvable g rhs .i64)
    (hcc : cc.isValid) : Makes H (narrow id lhs rhs cc) fun p g =>
    Narrowed φ g lhs rhs cc p.1 p.2.1 p.2.2 := by
  unfold narrow
  refine Makes.bind (halves_makes φ rfl hl) fun x => ?_
  refine Makes.bind (halves_makes φ rfl fun g hg => hr g hg.1) fun y => ?_
  refine Makes.bind (constant_makes 0 .i32) fun zero => ?_
  refine Makes.bind (constant_makes 1 .i32) fun one => ?_
  split
  · rename_i equality hequality
    exact difference_makes φ (fun g hg => hg.1.1.1.2) (fun g hg => hg.1.1.2)
      (fun g hg => hg.1.2) hequality
  · rename_i hequality
    refine Makes.ite (fun hfixed => ?_) fun hfixed => ?_
    · refine Makes.pure fun g hg => ?_
      obtain ⟨⟨⟨⟨-, hx⟩, hy⟩, -⟩, -⟩ := hg
      refine ⟨⟨hx.typed.1, hy.typed.1⟩, hcc, fun ρ hρ => ⟨_, _, hx.reads ρ hρ, hy.reads ρ hρ, ?_⟩⟩
      cases cc <;> first | rfl | cases hfixed
    · have hsome := wideOrdering?_isSome hcc hequality (Bool.eq_false_iff.2 hfixed)
      split
      · rename_i hordering
        rw [hordering] at hsome
        cases hsome
      · rename_i highCond lowCond hordering
        exact ordering_makes φ (fun g hg => hg.1.1.1.2) (fun g hg => hg.1.1.2) (fun g hg => hg.1.2)
          (fun g hg => hg.2) hordering

/-- The types whose values are compared: words and pairs under any predicate, and what is narrower
than a word under those that do not read a sign. -/
def Comparable (vt : ValueType) (cc : CondCode) : Prop :=
  vt ∈ [.i32, .i64, .f32] ∨ vt.isNarrow ∧ cc.readsSign = false

theorem test_makes {a b : Option Value} (ha : ∀ g, H g → g.Typed a vt) (hb : ∀ g, H g → g.Present b)
    (hcc : cc.isValid) :
    Makes (α := Comparison) H (do
      match FlagTest.ofPredicate? cc (← typeOf a) with
      | none => unsupported id (.invalidCond cc)
      | some test => return { lhs := a, rhs := b, test }) fun c g =>
        c.Ready g ∧ ∃ t, FlagTest.ofPredicate? cc vt = some t ∧
          ∀ ρ, c.holds φ ρ = t.holds φ (valueAt ρ a) (valueAt ρ b) := by
  refine Makes.typeOf_bind (fun g hg => (ha g hg).operandType?) ?_
  obtain ⟨t, ht⟩ := Option.isSome_iff_exists.1 (FlagTest.isSome_ofPredicate? vt hcc)
  rw [ht]
  exact Makes.pure fun g hg =>
    ⟨⟨(ha g hg).present, hb g hg, FlagTest.coded_of_ofPredicate? ht⟩, t, rfl, fun _ => rfl⟩

theorem onIntegers_ne {w a b : Nat} (ha : a < 2 ^ w) (hb : b < 2 ^ w) :
    CondCode.ne.onIntegers (BitVec.ofNat w a) (BitVec.ofNat w b) = (a != b) := by
  rw [CondCode.onIntegers, Bool.eq_iff_iff, bne_iff_ne, bne_iff_ne, ne_eq, ne_eq,
    ofNat_inj_of_lt ha hb]

/-- Predicates that do not read a sign say the same of patterns as words. -/
theorem onIntegers_word {w a b : Nat} (hcc : cc.readsSign = false) (hw : w ≤ 32) (ha : a < 2 ^ w)
    (hb : b < 2 ^ w) : cc.onIntegers (BitVec.ofNat 32 a) (BitVec.ofNat 32 b) =
    cc.onIntegers (BitVec.ofNat w a) (BitVec.ofNat w b) := by
  have hpow : 2 ^ w ≤ 2 ^ 32 := Nat.pow_le_pow_right (by decide) hw
  have hbeq : (BitVec.ofNat 32 a == BitVec.ofNat 32 b) =
      (BitVec.ofNat w a == BitVec.ofNat w b) := by
    rw [Bool.eq_iff_iff, beq_iff_eq, beq_iff_eq, ofNat_inj_of_lt ha hb,
      ofNat_inj_of_lt (Nat.lt_of_lt_of_le ha hpow) (Nat.lt_of_lt_of_le hb hpow)]
  have hnat {k : Nat} (hk : k < 2 ^ w) : (BitVec.ofNat 32 k).toNat = k ∧
      (BitVec.ofNat w k).toNat = k := by
    rw [BitVec.toNat_ofNat, BitVec.toNat_ofNat]
    exact ⟨Nat.mod_eq_of_lt (Nat.lt_of_lt_of_le hk hpow), Nat.mod_eq_of_lt hk⟩
  cases cc <;> first
    | (simp only [CondCode.onIntegers, bne, hbeq, BitVec.ult, BitVec.ule, (hnat ha).1,
        (hnat ha).2, (hnat hb).1, (hnat hb).2]; done)
    | cases hcc

theorem holds_of_outcome? {t : FlagTest} {a b : Nat} {p : Bool}
    (hvt : vt ∈ [.i32, .f32] ∨ vt.isNarrow ∧ cc.readsSign = false)
    (ha : a < 2 ^ vt.bits) (hb : b < 2 ^ vt.bits) (ht : FlagTest.ofPredicate? cc vt = some t)
    (hp : cc.outcome? φ vt a b = some p) : t.holds φ a b = p := by
  rcases hvt with hvt | ⟨hvt, hcc⟩
  · simp only [List.mem_cons, List.not_mem_nil, or_false] at hvt
    rcases hvt with rfl | rfl
    · cases hp
      exact FlagTest.holds_ofInteger? ht a b
    · exact FlagTest.holds_ofFloat? ht hp
  · have hbits : vt.isFloat = false ∧ vt.bits ≤ 32 := by
      cases vt <;> first | decide | cases hvt
    have hfloat := Bool.eq_false_iff.1 hbits.1
    rw [CondCode.outcome?, if_neg hfloat] at hp
    rw [FlagTest.ofPredicate?, if_neg hfloat] at ht
    cases hp
    rw [FlagTest.holds_ofInteger? ht, onIntegers_word hcc hbits.2 ha hb]

theorem compare_makes (hl : ∀ g, H g → g.Typed lhs vt) (hr : ∀ g, H g → g.Typed rhs vt)
    (hw : vt = .i64 → ∀ g, H g → Halvable g lhs .i64 ∧ Halvable g rhs .i64) (hvt : Comparable vt cc)
    (hcc : cc.isValid) : Makes H (compare id lhs rhs cc) fun c g =>
      c.Ready g ∧ ∀ ρ, Obeys φ g ρ → Decides φ g ρ vt lhs rhs cc (c.holds φ ρ) := by
  have hdouble : vt ≠ .f64 := by
    rintro rfl
    cases hvt with
    | inl h => revert h; decide
    | inr h => cases h.1
  unfold compare
  refine Makes.typeOf_bind (fun g hg => (hl g hg).operandType?) ?_
  rw [if_neg hdouble]
  refine Makes.ite (fun hwide => ?_) fun hword => ?_
  · subst hwide
    refine Makes.bind (narrow_makes φ (fun g hg => (hw rfl g hg).1) (fun g hg => (hw rfl g hg).2)
      hcc) fun p => ?_
    obtain ⟨a, b, cc'⟩ := p
    refine Makes.given (P := cc'.isValid) (fun g hg => hg.2.valid) fun hvalid => ?_
    refine (test_makes φ (fun g hg => hg.2.typed.1) (fun g hg => hg.2.typed.2.present) hvalid).mono
      fun c g hg hc => ?_
    obtain ⟨hready, t, ht, hholds⟩ := hc
    refine ⟨hready, fun ρ hρ => ?_⟩
    obtain ⟨x, y, hx, hy, hsame⟩ := hg.2.same ρ hρ
    refine ⟨x, y, hx, hy, fun q hq => ?_⟩
    cases hq
    rw [hholds, FlagTest.holds_ofInteger? ht]
    exact hsame.symm
  · refine (test_makes φ hl (fun g hg => (hr g hg).present) hcc).mono fun c g hg hc => ?_
    obtain ⟨hready, t, ht, hholds⟩ := hc
    refine ⟨hready, fun ρ hρ => ?_⟩
    have hla := (hl g hg).lt hρ
    have hlb := (hr g hg).lt hρ
    obtain ⟨v, rfl, -⟩ := hl g hg
    obtain ⟨w, rfl, -⟩ := hr g hg
    refine ⟨ρ v, ρ w, ⟨v, rfl, .inl rfl⟩, ⟨w, rfl, .inl rfl⟩, fun q hq => ?_⟩
    rw [hholds]
    refine holds_of_outcome? φ ?_ hla hlb ht hq
    cases hvt with
    | inl h =>
      simp only [List.mem_cons, List.not_mem_nil, or_false] at h ⊢
      rcases h with rfl | rfl | rfl
      · exact .inl (.inl rfl)
      · exact absurd rfl hword
      · exact .inl (.inr rfl)
    | inr h => exact .inr h

end Usim

end GraphLowering
