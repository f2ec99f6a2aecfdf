import GraphLowering.Proofs.Usim.Meaning
import Mathlib.Algebra.Ring.Int.Defs

/-!
# The values that rules build

`Denotes φ g o vt f` says that an operand has a type and, in every valuation that obeys the graph,
the value that `f` gives. Every builder denotes what its operation makes of the values of its
operands, and the two halves of a value denote its words (`Halved`).
-/

namespace GraphLowering

open Usim (Obeys Valuation valueAt)

/-- An operand is a value of a type. -/
def Graph.Typed (g : Graph) (o : Option Value) (vt : ValueType) : Prop :=
  ∃ v, o = some v ∧ g.contains v.node ∧ g.type? v = some vt

namespace Graph.Typed

variable {g g' : Graph} {o : Option Value} {vt : ValueType}

theorem mono (h : g.Typed o vt) (hx : g.Extends g') : g'.Typed o vt := by
  obtain ⟨v, rfl, hc, ht⟩ := h
  have hlt := contains_lt hc
  exact ⟨v, rfl, by rwa [hx.contains _ hlt], by rwa [hx.type? hlt]⟩

theorem operandType? (h : g.Typed o vt) : g.operandType? o = some vt := by
  obtain ⟨v, rfl, -, ht⟩ := h
  exact ht

theorem present (h : g.Typed o vt) : g.Present o := by
  obtain ⟨v, rfl, hc, -⟩ := h
  exact ⟨v, rfl, hc⟩

theorem of_node {id i : Nat} {n : Node} (hc : g.contains id) (hn : g.node id = n)
    (ht : n.types[i]? = some vt) : g.Typed (some ⟨id, i⟩) vt :=
  ⟨_, rfl, hc, by rw [type?_eq, hn, ht]⟩

theorem contains {v : Value} (h : g.Typed (some v) vt) : g.contains v.node := by
  obtain ⟨w, hw, hc, -⟩ := h
  cases hw
  exact hc

theorem lt {φ : Nat → Nat → FloatOrder} {ρ : Valuation} (h : g.Typed o vt) (hρ : Obeys φ g ρ) :
    valueAt ρ o < 2 ^ vt.bits := by
  obtain ⟨v, rfl, hc, ht⟩ := h
  exact (hρ v.node hc).range v.result vt ht

end Graph.Typed

theorem ValueType.bits_of_isWide {vt : ValueType} (h : vt.isWide) : vt.bits = 64 := by
  cases vt <;> first | rfl | cases h

namespace Usim

open Lower (Lowering Makes)
open Lower.Lowering

variable {φ : Nat → Nat → FloatOrder} {g g' : Graph} {ρ : Valuation} {o a b : Option Value}
  {vt : ValueType} {op : Opcode} {operands : List (Option Value)} {payload : Payload} {v : Value}
  {H : Graph → Prop}

theorem Obeys.value {x : Nat} (h : Obeys φ g ρ) (hr : v.result = 0) (hc : g.contains v.node)
    (ht : (g.node v.node).types = [vt])
    (hx : (settingOf g (g.node v.node)).compute? φ (operandValues ρ (g.node v.node)) = some x) :
    ρ v = x % 2 ^ vt.bits := by
  obtain ⟨id, i⟩ := v
  obtain rfl : i = 0 := hr
  refine (h id hc).node _ ?_
  rw [computed?, hx, resultBits, ht]
  rfl

theorem only_result (h : (g.node v.node).types.length = 1) (ht : g.type? v = some vt) :
    v.result = 0 ∧ (g.node v.node).types = [vt] := by
  obtain ⟨t, hts⟩ := List.length_eq_one_iff.1 h
  rw [Graph.type?_eq, hts, List.getElem?_singleton] at ht
  split at ht
  · cases ht
    exact ⟨‹_›, hts⟩
  · cases ht

theorem eq_of_constant? {n : Node} {k : Int64} (h : n.constant? = some k) :
    (n.op = .constant ∨ n.op = .targetConstant) ∧ n.integer = k := by
  unfold Node.constant? at h
  split at h
  · exact ⟨.inl ‹_›, Option.some.inj h⟩
  · exact ⟨.inr ‹_›, Option.some.inj h⟩
  · cases h

/-- A constant has the value that it says, up to its width. -/
theorem Obeys.value_constant {k : Int64} (h : Obeys φ g ρ) (hone : (g.node v.node).types.length = 1)
    (hv : g.contains v.node) (ht : g.type? v = some vt) (hk : g.constant? (some v) = some k) :
    ρ v = (BitVec.ofInt vt.bits k.toInt).toNat := by
  obtain ⟨hop, hint⟩ := eq_of_constant? (n := g.node v.node) hk
  obtain ⟨hr, hts⟩ := only_result hone ht
  have hbits : resultBits (g.node v.node) = vt.bits := by
    rw [resultBits, hts]
    rfl
  have hvalue := h.value (x := (BitVec.ofInt vt.bits k.toInt).toNat) hr hv hts <| by
    rcases hop with hop | hop <;> simp only [Setting.compute?, settingOf, hop] <;> rw [hbits, hint]
  exact hvalue.trans (Nat.mod_eq_of_lt (BitVec.isLt _))

theorem Obeys.of_forall (hsingle : ∀ id < g.entries.size, (g.node id).types.length = 1)
    (hrange : ∀ id < g.entries.size, ∀ vt ∈ g.type? ⟨id, 0⟩, ρ ⟨id, 0⟩ < 2 ^ vt.bits)
    (hcomputed : ∀ id < g.entries.size, ∀ x ∈ computed? φ g ρ (g.node id), ρ ⟨id, 0⟩ = x) :
    Obeys φ g ρ := by
  intro id hid
  have hlt := Graph.contains_lt hid
  refine ⟨fun i vt hvt => ?_, fun x hx => hcomputed id hlt x hx⟩
  obtain ⟨rfl, -⟩ := only_result (hsingle id hlt) hvt
  exact hrange id hlt vt hvt

/-- An operand has a type and, in every valuation, a value. -/
def Denotes (φ : Nat → Nat → FloatOrder) (g : Graph) (o : Option Value) (vt : ValueType)
    (f : Valuation → Nat) : Prop :=
  g.Typed o vt ∧ ∀ ρ, Obeys φ g ρ → valueAt ρ o = f ρ

namespace Denotes

variable {f f' : Valuation → Nat}

theorem value (h : Denotes φ g o vt f) (hρ : Obeys φ g ρ) : valueAt ρ o = f ρ := h.2 ρ hρ

theorem congr (h : Denotes φ g o vt f) (hf : ∀ ρ, Obeys φ g ρ → f ρ = f' ρ) : Denotes φ g o vt f' :=
  ⟨h.1, fun ρ hρ => (h.2 ρ hρ).trans (hf ρ hρ)⟩

theorem of_node {n : Node} (hr : v.result = 0) (hc : g.contains v.node) (hn : g.node v.node = n)
    (ht : n.types = [vt])
    (hf : ∀ ρ, Obeys φ g ρ → ∃ x, (settingOf g n).compute? φ (operandValues ρ n) = some x ∧
      x % 2 ^ vt.bits = f ρ) :
    Denotes φ g (some v) vt f := by
  subst hn
  refine ⟨⟨_, rfl, hc, ?_⟩, fun ρ hρ => ?_⟩
  · rw [Graph.type?_eq, ht, hr]
    rfl
  · obtain ⟨x, hx, hxf⟩ := hf ρ hρ
    exact (hρ.value hr hc ht hx).trans hxf

end Denotes

/-! ### Builders -/

variable (φ)

theorem single_makes {f : Valuation → Nat} (h : ∀ g, H g → ∀ o ∈ operands, g.Present o)
    (hf : ∀ g, H g → ∀ ρ, Obeys φ g ρ → ∃ x, (settingOf g ⟨op, [vt], operands, .none⟩).compute? φ
      (operands.map (valueAt ρ)) = some x ∧ x % 2 ^ vt.bits = f ρ) :
    Makes H (value (·.single op vt operands)) fun o g => Denotes φ g o vt f := by
  refine (Makes.value (.single h)).mono fun o g hg ho => ?_
  obtain ⟨v, rfl, hr, hc, hn⟩ := ho
  exact .of_node hr hc hn rfl (hf g hg)

theorem toNat_ofInt_zero (w : Nat) : (BitVec.ofInt w (Int64.toInt 0)).toNat = 0 := by
  rw [Int64.toInt_zero]
  simp

theorem toNat_ofInt_one {w : Nat} (hw : 0 < w) : (BitVec.ofInt w (Int64.toInt 1)).toNat = 1 := by
  have hone : BitVec.ofInt w (Int64.toInt 1) = BitVec.ofNat w 1 := BitVec.ofInt_natCast _ 1
  rw [hone, BitVec.toNat_ofNat]
  exact Nat.mod_eq_of_lt (Nat.one_lt_two_pow (Nat.ne_of_gt hw))

namespace Reads

variable {φ} {x : Nat}

theorem of_value (ho : g.Present o) : Reads g ρ o (valueAt ρ o) := by
  obtain ⟨v, rfl, -⟩ := ho
  exact ⟨v, rfl, .inl rfl⟩

theorem lt (h : Reads g ρ o x) (ho : g.Typed o vt) (hρ : Obeys φ g ρ) : x < 2 ^ vt.bits := by
  obtain ⟨v, rfl, hx | ⟨-, vt', ht', hx⟩⟩ := h
  · rw [← hx]
    exact ho.lt hρ
  · cases ho.operandType?.symm.trans ht'
    exact hx

theorem eq_value (h : Reads g ρ o x) (ho : ∀ v, o = some v → (g.node v.node).op ≠ .undef) :
    x = valueAt ρ o := by
  obtain ⟨v, rfl, hx | ⟨hop, -⟩⟩ := h
  · exact hx.symm
  · exact absurd hop (ho v rfl)

end Reads

/-- A constant, as the graph holds it. -/
def IsConstant (g : Graph) (o : Option Value) (n : Int64) (vt : ValueType) : Prop :=
  ∃ v, o = some v ∧ v.result = 0 ∧ g.contains v.node ∧
    g.node v.node = ⟨.constant, [vt], [], .integer n⟩

theorem constant_makes (n : Int64) (vt : ValueType) :
    Makes H (value (·.constant n vt)) fun o g => IsConstant g o n vt :=
  Makes.value .leaf

theorem IsConstant.ne_undef {n : Int64} (h : IsConstant g o n vt) (v : Value) (hv : o = some v) :
    (g.node v.node).op ≠ .undef := by
  obtain ⟨w, hw, -, -, hn⟩ := h
  cases hv.symm.trans hw
  rw [hn]
  intro hop
  cases hop

theorem IsConstant.denotes {n : Int64} (h : IsConstant g o n vt) :
    Denotes φ g o vt fun _ => (BitVec.ofInt vt.bits n.toInt).toNat := by
  obtain ⟨v, rfl, hr, hc, hn⟩ := h
  exact .of_node hr hc hn rfl fun ρ _ => ⟨_, rfl, Nat.mod_eq_of_lt (BitVec.isLt _)⟩

theorem Setting.compute?_arithmetic {c : Setting} {x y : Nat} {z : BitVec c.bits}
    (h : arithmetic? c.op (BitVec.ofNat _ x) (BitVec.ofNat _ y) = some z) :
    c.compute? φ [x, y] = some z.toNat := by
  unfold compute?
  cases hop : c.op <;> simp_all [arithmetic?]

theorem binary_makes (f : BitVec 32 → BitVec 32 → BitVec 32)
    (h : ∀ x y, arithmetic? op x y = some (f x y)) (ha : ∀ g, H g → g.Present a)
    (hb : ∀ g, H g → g.Present b) : Makes H (value (·.binary op .i32 a b)) fun o g =>
      Denotes φ g o .i32 fun ρ =>
      (f (BitVec.ofNat 32 (valueAt ρ a)) (BitVec.ofNat 32 (valueAt ρ b))).toNat := by
  exact single_makes _ (fun g hg =>
    List.forall_mem_cons.2 ⟨ha g hg, List.forall_mem_singleton.2 (hb g hg)⟩) fun g _ ρ _ =>
    ⟨_, Setting.compute?_arithmetic φ (c := settingOf g ⟨op, [.i32], [a, b], .none⟩) (h _ _),
      Nat.mod_eq_of_lt (BitVec.isLt _)⟩

theorem zeroExtend_makes (ha : ∀ g, H g → g.Typed a vt) (hvt : vt.bits ≤ 32) :
    Makes H (value (·.unary .zeroExtend .i32 a)) fun o g => Denotes φ g o .i32 fun ρ =>
    valueAt ρ a := by
  refine single_makes _ (fun g hg => List.forall_mem_singleton.2 (ha g hg).present)
    fun g hg ρ hρ => ⟨_, rfl, ?_⟩
  exact Nat.mod_eq_of_lt
    (Nat.lt_of_lt_of_le ((ha g hg).lt hρ) (Nat.pow_le_pow_right (by decide) hvt))

theorem signExtend_makes (ha : ∀ g, H g → g.Typed a vt) :
    Makes H (value (·.unary .signExtend .i32 a)) fun o g =>
      Denotes φ g o .i32 fun ρ => ((BitVec.ofNat vt.bits (valueAt ρ a)).signExtend 32).toNat := by
  refine single_makes _ (fun g hg => List.forall_mem_singleton.2 (ha g hg).present)
    fun g hg ρ hρ => ⟨_, rfl, ?_⟩
  have htype : (settingOf g ⟨.signExtend, [.i32], [a], .none⟩).operandType = vt := by
    simp only [settingOf, List.head?_cons, Option.join_some, (ha g hg).operandType?,
      Option.getD_some]
  rw [htype]
  exact Nat.mod_eq_of_lt (BitVec.isLt _)

theorem truncate_makes (ha : ∀ g, H g → g.Present a) :
    Makes H (value (·.unary .truncate vt a)) fun o g => Denotes φ g o vt fun ρ =>
    valueAt ρ a % 2 ^ vt.bits :=
  single_makes _ (fun g hg => List.forall_mem_singleton.2 (ha g hg)) fun _ _ _ _ => ⟨_, rfl, rfl⟩

/-- A value that is built from two words. -/
def IsPair (g : Graph) (o : Option Value) (vt : ValueType) (low high : Option Value) : Prop :=
  (∃ v, o = some v ∧ v.result = 0 ∧ g.contains v.node ∧
    g.node v.node = ⟨.buildPair, [vt], [low, high], .none⟩) ∧ g.Typed low .i32 ∧ g.Typed high .i32

theorem buildPair_makes (ha : ∀ g, H g → g.Typed a .i32) (hb : ∀ g, H g → g.Typed b .i32) :
    Makes H (value (·.buildPair vt a b)) fun o g => IsPair g o vt a b :=
  (Makes.value (.single fun g hg => List.forall_mem_cons.2
    ⟨(ha g hg).present, List.forall_mem_singleton.2 (hb g hg).present⟩)).mono fun _ g hg ho =>
    ⟨ho, ha g hg, hb g hg⟩

theorem IsPair.denotes_mod (h : IsPair g o vt a b) :
    Denotes φ g o vt fun ρ => (valueAt ρ a + 2 ^ 32 * valueAt ρ b) % 2 ^ vt.bits := by
  obtain ⟨⟨v, rfl, hr, hc, hn⟩, -, -⟩ := h
  exact .of_node hr hc hn rfl fun ρ _ => ⟨_, rfl, rfl⟩

theorem IsPair.denotes (h : IsPair g o vt a b) (hvt : vt.isWide) :
    Denotes φ g o vt fun ρ => valueAt ρ a + 2 ^ 32 * valueAt ρ b := by
  refine (h.denotes_mod φ).congr fun ρ hρ => ?_
  have hla : valueAt ρ a < 2 ^ 32 := h.2.1.lt hρ
  have hlb : valueAt ρ b < 2 ^ 32 := h.2.2.lt hρ
  rw [ValueType.bits_of_isWide hvt]
  exact Nat.mod_eq_of_lt (by omega)

theorem extractElement_makes (ha : ∀ g, H g → g.Present a) (i : Int64) :
    Makes H (value (·.extractElement .i32 a i)) fun o g =>
      Denotes φ g o .i32 fun ρ => valueAt ρ a / 2 ^ (32 * (BitVec.ofInt 32 i.toInt).toNat) % 2 ^
      32 := by
  have hbuild : Makes H (build (·.extractElement .i32 a i)) fun v g => v.result = 0 ∧
    g.contains v.node ∧
      ∃ c, IsConstant g (some c) i .i32 ∧
          g.node v.node = ⟨.extractElement, [.i32], [a, some c], .none⟩ := by
    refine Makes.build_seq (h := (·.constant i .i32)) (k :=
      fun c g => g.single .extractElement .i32 [a, some c]) .leaf fun c => ?_
    refine (Makes.single fun g hg => ?_).mono fun v g hg hv =>
      ⟨hv.1, hv.2.1, c, ⟨c, rfl, hg.2⟩, hv.2.2⟩
    exact List.forall_mem_cons.2 ⟨ha g hg.1, List.forall_mem_singleton.2 ⟨c, rfl, hg.2.2.1⟩⟩
  refine (Makes.value hbuild).mono fun o g _ ho => ?_
  obtain ⟨v, rfl, hr, hc, c, hconst, hn⟩ := ho
  refine .of_node hr hc hn rfl fun ρ hρ => ⟨_, rfl, ?_⟩
  rw [show valueAt ρ (some c) = _ from (hconst.denotes φ).2 ρ hρ]
  rfl

/-! ### Conditions -/

namespace Cond

theorem ofNumber_number (c : Cond) : ofNumber c.number = c := by
  cases c with
  | unknown n => simp [number, ofNumber, known]
  | _ => rfl

theorem number_ofNumber (n : Nat) : (ofNumber n).number = n := by
  by_cases h : n < known.length
  · revert n
    decide
  · rw [ofNumber, List.getElem?_eq_none (Nat.le_of_not_lt h), Option.getD_none, number]
    omega

/-- The number of a condition fits the eight bits from which it is read. -/
def Coded (c : Cond) : Prop := c.number < 256

instance (c : Cond) : Decidable c.Coded := inferInstanceAs (Decidable (_ < _))

end Cond

variable {c : Cond}

theorem code_makes (hc : c.Coded) :
    Makes H (value (·.targetConstant (Int64.ofNat c.number) .i32)) fun o g => g.Present o ∧
    condOfValue g o = c := by
  have hbyte : (Int64.ofNat c.number).toInt8.toUInt8.toNat = c.number := by
    rw [Int64.toInt8_ofNat', Int8.toUInt8_ofNat', UInt8.toNat_ofNat']
    exact Nat.mod_eq_of_lt hc
  refine (Makes.value .leaf).mono fun o g _ ho => ?_
  obtain ⟨v, rfl, -, hv, hn⟩ := ho
  refine ⟨⟨v, rfl, hv⟩, ?_⟩
  simp only [condOfValue, Graph.constant?, Option.bind_some, hn, Node.constant?, Node.integer,
    Option.getD_some, hbyte, Cond.ofNumber_number]

/-- A select of the machine chooses by its condition. -/
theorem selectNode_makes {ifTrue ifFalse : Option Value} (hc : c.Coded)
    (ha : ∀ g, H g → g.Present a) (hb : ∀ g, H g → g.Present b) (ht : ∀ g, H g → g.Typed ifTrue vt)
    (hf : ∀ g, H g → g.Typed ifFalse vt) :
    Makes H (selectNode a b ifTrue ifFalse c) fun o g => Denotes φ g o vt fun ρ =>
      if c.holds φ (valueAt ρ a) (valueAt ρ b) then valueAt ρ ifTrue else valueAt ρ ifFalse := by
  refine Makes.typeOf_bind (fun g hg => (ht g hg).operandType?) ?_
  refine Makes.bind (code_makes hc) fun code => ?_
  refine single_makes _ (fun g hg => ?_) fun g hg ρ hρ => ⟨_, rfl, ?_⟩
  · simp only [List.forall_mem_cons]
    exact ⟨ha g hg.1, hb g hg.1, (ht g hg.1).present, (hf g hg.1).present, hg.2.1,
      List.forall_mem_nil _⟩
  · have hcond : (settingOf g ⟨Op.selectCC, [vt], [a, b, ifTrue, ifFalse, code], .none⟩).condition =
      c := hg.2.2
    rw [hcond]
    split
    · exact Nat.mod_eq_of_lt ((ht g hg.1).lt hρ)
    · exact Nat.mod_eq_of_lt ((hf g hg.1).lt hρ)

/-! ### Halves -/

variable {φ}

/-- A value of at most two words in a form that can be halved: what is a constant, undefined or a
pair is so by its only result, and a pair is made of words. -/
structure Halvable (g : Graph) (o : Option Value) (vt : ValueType) : Prop where
  bits : vt.bits ≤ 64
  typed : g.Typed o vt
  single : ∀ v, o = some v → (g.node v.node).op ∈ [.constant, .undef, .buildPair] →
    (g.node v.node).types.length = 1
  words : ∀ v, o = some v → (g.node v.node).op = .buildPair →
    ∃ low high, (g.node v.node).operands = [low, high] ∧ g.Typed low .i32 ∧ g.Typed high .i32

theorem toNat_ofInt_mod {w : Nat} (hw : w ≤ 64) (n : Int) :
    (BitVec.ofInt w n).toNat = (BitVec.ofInt 64 n).toNat % 2 ^ w := by
  have hdvd : ((2 ^ w : Nat) : Int) ∣ ((2 ^ 64 : Nat) : Int) := by
    exact_mod_cast Nat.pow_dvd_pow 2 hw
  rw [BitVec.toNat_ofInt, BitVec.toNat_ofInt, ← Int.emod_emod_of_dvd n hdvd,
    Int.toNat_emod (Int.emod_nonneg _ (by decide)) (Int.natCast_nonneg _), Int.toNat_natCast]

namespace Halvable

theorem mono (h : Halvable g o vt) (hx : g.Extends g') : Halvable g' o vt := by
  have hnode (v : Value) (hv : o = some v) : g'.node v.node = g.node v.node := by
    subst hv
    exact hx.node _ (Graph.contains_lt h.typed.contains)
  refine ⟨h.bits, h.typed.mono hx,
    fun v hv => by rw [hnode v hv]; exact h.single v hv, fun v hv hop => ?_⟩
  rw [hnode v hv] at hop ⊢
  obtain ⟨low, high, hops, hlow, hhigh⟩ := h.words v hv hop
  exact ⟨low, high, hops, hlow.mono hx, hhigh.mono hx⟩

theorem only (h : Halvable g (some v) vt)
    (hop : (g.node v.node).op ∈ [.constant, .undef, .buildPair]) :
    v.result = 0 ∧ (g.node v.node).types = [vt] := by
  obtain ⟨w, hw, -, ht⟩ := h.typed
  cases hw
  exact only_result (h.single v rfl hop) ht

theorem value_pair {low high : Option Value} (h : Halvable g (some v) vt)
    (hop : (g.node v.node).op = .buildPair) (hops : (g.node v.node).operands = [low, high])
    (hρ : Obeys φ g ρ) : ρ v = (valueAt ρ low + 2 ^ 32 * valueAt ρ high) % 2 ^ vt.bits := by
  obtain ⟨hr, hts⟩ := h.only (by rw [hop]; decide)
  refine hρ.value hr h.typed.contains hts ?_
  simp only [Setting.compute?, settingOf, hop, operandValues, hops, List.map_cons, List.map_nil]

theorem value_constant (h : Halvable g (some v) vt) (hop : (g.node v.node).op = .constant)
    (hρ : Obeys φ g ρ) : ρ v = (BitVec.ofInt 64 (g.node v.node).integer.toInt).toNat %
    2 ^ vt.bits := by
  obtain ⟨hr, hts⟩ := h.only (by rw [hop]; decide)
  have hwidth : resultBits (g.node v.node) = vt.bits := by
    rw [resultBits, hts]
    rfl
  have hvalue := hρ.value (x := (BitVec.ofInt vt.bits (g.node v.node).integer.toInt).toNat) hr
      h.typed.contains hts <| by
    simp only [Setting.compute?, settingOf, hop]
    rw [hwidth]
  rw [hvalue, Nat.mod_eq_of_lt (BitVec.isLt _), toNat_ofInt_mod h.bits]

end Halvable

/-- Two words that make up a value. -/
structure Halved (φ : Nat → Nat → FloatOrder) (g : Graph) (o low high : Option Value) : Prop where
  typed : g.Typed low .i32 ∧ g.Typed high .i32
  reads : ∀ ρ, Obeys φ g ρ → Reads g ρ o (valueAt ρ low + 2 ^ 32 * valueAt ρ high)

theorem toNat_ofInt_lowWord (n : Int64) :
    (BitVec.ofInt 32 (lowWord n).toInt).toNat = (n.toInt % 2 ^ 32).toNat := by
  rw [lowWord, Int32.toInt_toInt64, Int64.toInt_toInt32, BitVec.toNat_ofInt]
  simp only [Int.bmod_emod]
  omega

theorem toNat_ofInt_highWord (n : Int64) :
    (BitVec.ofInt 32 (highWord n).toInt).toNat = (n.toInt / 2 ^ 32 % 2 ^ 32).toNat := by
  have hshift : (n >>> 32).toInt = n.toInt / 2 ^ 32 := by
    rw [← Int64.toInt_toBitVec, Int64.toBitVec_shiftRight, BitVec.sshiftRight_eq',
      BitVec.toInt_sshiftRight, Int.shiftRight_eq_div_pow]
    rfl
  rw [highWord, Int32.toInt_toInt64, Int64.toInt_toInt32, BitVec.toNat_ofInt, hshift]
  simp only [Int.bmod_emod]
  omega

theorem IsConstant.halvable {n : Int64} (h : IsConstant g o n vt) (hvt : vt.bits ≤ 64) :
    Halvable g o vt := by
  refine ⟨hvt, (h.denotes (fun _ _ => .equal)).1, fun v hv _ => ?_, fun v hv hop => ?_⟩ <;>
    obtain ⟨w, hw, -, -, hn⟩ := h <;> cases hv.symm.trans hw
  · rw [hn]
    rfl
  · rw [hn] at hop
    cases hop

variable (φ)

theorem constantHalves_makes (n : Int64) : Makes H (constantHalves n) fun p g =>
    (g.Typed p.1 .i32 ∧ g.Typed p.2 .i32) ∧
      ∀ ρ, Obeys φ g ρ → valueAt ρ p.1 + 2 ^ 32 * valueAt ρ p.2 =
      (BitVec.ofInt 64 n.toInt).toNat := by
  refine Makes.bind (constant_makes _ _) fun low => ?_
  refine Makes.bind (constant_makes _ _) fun high => ?_
  refine Makes.pure fun g hg => ?_
  have hlow := hg.1.2.denotes φ
  have hhigh := hg.2.denotes φ
  refine ⟨⟨hlow.1, hhigh.1⟩, fun ρ hρ => ?_⟩
  rw [hlow.2 ρ hρ, hhigh.2 ρ hρ]
  simp only [ValueType.bits]
  rw [toNat_ofInt_lowWord, toNat_ofInt_highWord, BitVec.toNat_ofInt]
  omega

theorem undefHalves_makes : Makes H undefHalves fun p g => g.Typed p.1 .i32 ∧ g.Typed p.2 .i32 := by
  have hundef {H : Graph → Prop} : Makes H (value (·.undef .i32)) fun o g => g.Typed o .i32 := by
    refine (Makes.value .leaf).mono fun o g _ ho => ?_
    obtain ⟨v, rfl, hr, hc, hn⟩ := ho
    refine ⟨v, rfl, hc, ?_⟩
    rw [Graph.type?_eq, hn, hr]
    rfl
  exact Makes.bind hundef fun low => Makes.bind hundef fun high => Makes.pure
    fun g hg => ⟨hg.1.2, hg.2⟩

/-- The halves of a value are its words, up to the width of its type. -/
theorem halves_mod_makes (h : ∀ g, H g → Halvable g o vt) :
    Makes H (halves o) fun p g => (g.Typed p.1 .i32 ∧ g.Typed p.2 .i32) ∧
      ∀ ρ, Obeys φ g ρ → Reads g ρ o ((valueAt ρ p.1 + 2 ^ 32 * valueAt ρ p.2) % 2 ^ vt.bits) := by
  refine Makes.fix fun g₀ hg₀ => ?_
  obtain ⟨v, rfl, hv, ht⟩ := (h g₀ hg₀).typed
  have hnode (g : Graph) (hg : H g ∧ g₀.Extends g) : g.node v.node = g₀.node v.node :=
    hg.2.node _ (Graph.contains_lt hv)
  refine Makes.orMalformed_bind (Makes.node_bind hnode ?_)
  split
  · rename_i hop
    obtain ⟨low, high, hops, hlow, hhigh⟩ := (h g₀ hg₀).words v rfl hop
    refine Makes.operand_bind (o := low) (fun g hg => by rw [hnode g hg, hops]; rfl) ?_
    refine Makes.operand_bind (o := high) (fun g hg => by rw [hnode g hg, hops]; rfl) ?_
    refine Makes.pure fun g hg => ⟨⟨hlow.mono hg.2, hhigh.mono hg.2⟩, fun ρ hρ => ⟨v, rfl, .inl ?_⟩⟩
    exact (h g hg.1).value_pair (by rw [hnode g hg, hop]) (by rw [hnode g hg, hops]) hρ
  · rename_i hop
    refine (constantHalves_makes φ _).mono fun p g hg hp => ⟨hp.1, fun ρ hρ => ⟨v, rfl, .inl ?_⟩⟩
    rw [hp.2 ρ hρ, (h g hg.1).value_constant (by rw [hnode g hg, hop]) hρ, hnode g hg]
  · rename_i hop
    refine undefHalves_makes.mono fun p g hg hp => ⟨hp, fun ρ hρ => ⟨v, rfl, .inr ⟨?_, vt, ?_, ?_⟩⟩⟩
    · rw [hnode g hg, hop]
    · rw [hg.2.type? (Graph.contains_lt hv), ht]
    · exact Nat.mod_lt _ (Nat.two_pow_pos _)
  · have hpresent (g : Graph) (hg : H g ∧ g₀.Extends g) : g.Present (some v) :=
      (h g hg.1).typed.present
    refine Makes.bind (extractElement_makes φ hpresent 0) fun low => ?_
    refine Makes.bind (extractElement_makes φ (fun g hg => hpresent g hg.1) 1) fun high => ?_
    refine Makes.pure fun g hg => ⟨⟨hg.1.2.1, hg.2.1⟩, fun ρ hρ => ⟨v, rfl, .inl ?_⟩⟩
    have hlt : ρ v < 2 ^ vt.bits := (h g hg.1.1.1).typed.lt hρ
    have hwide : 2 ^ vt.bits ≤ 2 ^ 64 := Nat.pow_le_pow_right (by decide) (h g hg.1.1.1).bits
    have hwords : ρ v / 2 ^ 0 % 2 ^ 32 + 2 ^ 32 * (ρ v / 2 ^ 32 % 2 ^ 32) = ρ v := by omega
    rw [hg.1.2.2 ρ hρ, hg.2.2 ρ hρ]
    show ρ v = (ρ v / 2 ^ 0 % 2 ^ 32 + 2 ^ 32 * (ρ v / 2 ^ 32 % 2 ^ 32)) % 2 ^ vt.bits
    rw [hwords, Nat.mod_eq_of_lt hlt]

theorem halves_makes (hvt : vt.isWide) (h : ∀ g, H g → Halvable g o vt) :
    Makes H (halves o) fun p g => Halved φ g o p.1 p.2 := by
  refine (halves_mod_makes φ h).mono fun p g _ hp => ⟨hp.1, fun ρ hρ => ?_⟩
  have hlow : valueAt ρ p.1 < 2 ^ 32 := hp.1.1.lt hρ
  have hhigh : valueAt ρ p.2 < 2 ^ 32 := hp.1.2.lt hρ
  have hread := hp.2 ρ hρ
  rw [ValueType.bits_of_isWide hvt, Nat.mod_eq_of_lt (by omega)] at hread
  exact hread

/-! ### Well-typed graphs -/

theorem mem_of_mapM {α β : Type} {f : α → Option β} {l : List α} {bs : List β} {a : α} {b : β}
    (h : l.mapM f = some bs) (ha : a ∈ l) (hb : f a = some b) : b ∈ bs := by
  induction l generalizing bs with
  | nil => cases ha
  | cons c l ih =>
    rw [List.mapM_cons] at h
    obtain ⟨d, hd, h⟩ := Option.bind_eq_some_iff.1 h
    obtain ⟨ds, hds, h⟩ := Option.bind_eq_some_iff.1 h
    cases h
    rcases List.mem_cons.1 ha with rfl | ha
    · cases hd.symm.trans hb
      exact List.mem_cons_self
    · exact List.mem_cons_of_mem _ (ih hds ha)

/-- What rules take for granted of the nodes that they look at: all operands are there, a constant,
an undefined value or a pair has one result, a pair is made of words, and a select of the machine
chooses between values of its type. -/
structure WellTyped (g : Graph) : Prop where
  operands : ∀ id, g.contains id → ∀ o ∈ (g.node id).operands, ∃ v, o = some v ∧ g.Has v
  single : ∀ id, g.contains id → (g.node id).op ∈ [.constant, .targetConstant, .undef, .buildPair] →
    (g.node id).types.length = 1
  pair : ∀ id, g.contains id → (g.node id).op = .buildPair →
    ∃ low high, (g.node id).operands = [low, high] ∧ g.Typed low .i32 ∧ g.Typed high .i32
  select : ∀ id, g.contains id → (g.node id).op = Op.selectCC →
    ∃ vt lhs rhs ifTrue ifFalse cond, 0 < vt.bits ∧ (g.node id).types = [vt] ∧
      (g.node id).operands = [lhs, rhs, ifTrue, ifFalse, cond] ∧ g.Typed ifTrue vt ∧
        g.Typed ifFalse vt

namespace WellTyped

/-- A graph without constants, pairs and selects of the machine only needs its operands. -/
theorem of_forall
    (hoperands : ∀ id < g.entries.size, ∀ o ∈ (g.node id).operands, ∃ v ∈ o, g.contains v.node ∧
      (g.type? v).isSome)
    (hops : ∀ id < g.entries.size,
      (g.node id).op ∉ [.constant, .targetConstant, .undef, .buildPair, Op.selectCC]) :
      WellTyped g := by
  refine ⟨fun id hid o ho => ?_, fun id hid hop => ?_, fun id hid hop => ?_, fun id hid hop => ?_⟩
  · obtain ⟨v, hv, hhas⟩ := hoperands id (Graph.contains_lt hid) o ho
    exact ⟨v, hv, hhas⟩
  · exact absurd (List.mem_append_left [Op.selectCC] hop) (hops id (Graph.contains_lt hid))
  · exact absurd (by rw [hop]; decide) (hops id (Graph.contains_lt hid))
  · exact absurd (by rw [hop]; decide) (hops id (Graph.contains_lt hid))

theorem present (h : WellTyped g) {id : Nat} (hid : g.contains id) (ho : o ∈ (g.node id).operands) :
    g.Present o := by
  obtain ⟨v, rfl, hv⟩ := h.operands id hid o ho
  exact ⟨v, rfl, hv.1⟩

theorem operand_lt (h : WellTyped g) (id : Nat) (hid : g.contains id) (v : Value)
    (hv : some v ∈ (g.node id).operands) : v.node < g.entries.size := by
  obtain ⟨w, hw, hc⟩ := h.present hid hv
  cases hw
  exact Graph.contains_lt hc

theorem touches (h : WellTyped g) {id : Nat} (hid : g.contains id)
    (hw : (∃ vt ∈ (g.node id).types, vt.isWide) ∨ ∃ o ∈ (g.node id).operands, ∃ vt,
      g.Typed o vt ∧ vt.isWide) :
    ∃ types, g.nodeTypes? id = some types ∧ types.any (·.isWide) := by
  have hsome : ((g.node id).operands.mapM g.operandType?).isSome :=
      Graph.mapM_operandType?_isSome fun o ho => by
    obtain ⟨v, rfl, hv⟩ := h.operands id hid o ho
    exact ⟨v, rfl, hv.2⟩
  obtain ⟨types, htypes⟩ := Option.isSome_iff_exists.1 hsome
  refine ⟨_, by rw [Graph.nodeTypes?, htypes, Option.map_some], List.any_eq_true.2 ?_⟩
  rcases hw with ⟨vt, hvt, hw⟩ | ⟨o, ho, vt, hty, hw⟩
  · exact ⟨vt, List.mem_append_left _ hvt, hw⟩
  · have hmem := mem_of_mapM htypes ho hty.operandType?
    refine ⟨vt, List.mem_append_right _ (List.mem_filter.2 ⟨hmem, ?_⟩), hw⟩
    cases vt <;> first | rfl | cases hw

theorem halvable (h : WellTyped g) (ho : g.Typed o vt) (hvt : vt.bits ≤ 64) : Halvable g o vt := by
  refine ⟨hvt, ho, fun v hv hop => ?_, fun v hv hop => ?_⟩
  · subst hv
    refine h.single _ ho.contains ?_
    simp only [List.mem_cons, List.not_mem_nil, or_false] at hop ⊢
    rcases hop with hop | hop | hop <;> simp [hop]
  · subst hv
    exact h.pair _ ho.contains hop

end WellTyped

/-! ### The node that is lowered -/

variable {φ}

/-- A value is what a node makes of its operands as they may be read, where it makes something of
them. -/
def Computes (φ : Nat → Nat → FloatOrder) (g : Graph) (ρ : Valuation) (n : Node) (y : Nat) : Prop :=
  ∃ xs, List.Forall₂ (Reads g ρ) n.operands xs ∧
    ∀ x, (settingOf g n).compute? φ xs = some x → y = x % 2 ^ resultBits n

/-- No operand of a node is undefined. -/
def Defined (g : Graph) (n : Node) : Prop := ∀ v, some v ∈ n.operands → (g.node v.node).op ≠ .undef

theorem eq_map_valueAt {os : List (Option Value)} {xs : List Nat}
    (h : List.Forall₂ (Reads g ρ) os xs) (hdef : ∀ v, some v ∈ os → (g.node v.node).op ≠ .undef) :
    xs = os.map (valueAt ρ) := by
  induction h with
  | nil => rfl
  | cons hread _ ih =>
    rw [List.map_cons, hread.eq_value fun v hv => hdef v (hv ▸ List.mem_cons_self),
      ih fun v hv => hdef v (List.mem_cons_of_mem _ hv)]

theorem Computes.eq {n : Node} {x y : Nat} (h : Computes φ g ρ n y) (hn : Defined g n)
    (hx : computed? φ g ρ n = some x) : y = x := by
  obtain ⟨xs, hxs, hcompute⟩ := h
  rw [eq_map_valueAt hxs hn] at hcompute
  obtain ⟨z, hz, rfl⟩ := Option.map_eq_some_iff.1 hx
  exact hcompute z hz

section

variable {g₁ : Graph} {id : Nat} {n : Node} {α : Type} {Q : α → Graph → Prop}
  (hx : ∀ g, H g → g₁.Extends g) (hid : g₁.contains id)
include hx hid

theorem operand_makes {k : Option Value → Lowering α} (hn : g₁.node id = n) (i : Nat)
    (hi : n.operands[i]? = some o) (hk : Makes H (k o) Q) : Makes H (operand id i >>= k) Q :=
  Makes.operand_bind (fun g hg => by rw [(hx g hg).node _ (Graph.contains_lt hid), hn, hi]) hk

theorem resultType_makes {k : ValueType → Lowering α} (hn : g₁.node id = n) (i : Nat)
    (hi : n.types[i]? = some vt) (hk : Makes H (k vt) Q) : Makes H (resultType id i >>= k) Q :=
  Makes.resultType_bind (fun g hg => by rw [(hx g hg).node _ (Graph.contains_lt hid), hn, hi]) hk

theorem touchesWide_makes {k : Bool → Lowering α} (hwt : WellTyped g₁)
    (hw : (∃ vt ∈ (g₁.node id).types, vt.isWide) ∨ ∃ o ∈ (g₁.node id).operands, ∃ vt,
      g₁.Typed o vt ∧ vt.isWide)
    (hk : Makes H (k true) Q) : Makes H (touchesWide id >>= k) Q := by
  obtain ⟨types, htypes, hany⟩ := hwt.touches hid hw
  simp only [touchesWide, bind_assoc, pure_bind]
  refine Makes.read_bind (outcome_nodeTypes id) (fun s hs => ?_) (hany.symm ▸ hk)
  have hsame : s.graph.nodeTypes? id = g₁.nodeTypes? id :=
    Graph.nodeTypes?_congr ((hx _ hs).node _ (Graph.contains_lt hid)) fun v hv =>
      (hx _ hs).type? (hwt.operand_lt id hid v hv)
  rw [hsame, htypes]
  rfl

end

end Usim

end GraphLowering
