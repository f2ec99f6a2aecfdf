import GraphLowering.Proofs.Usim.CompareMeaning
import GraphLowering.Proofs.Usim.Memory
import GraphLowering.Subtarget.BuiltIn
import Mathlib.Data.List.Permutation

/-!
# What split operations compute

An operation on values of two words that is split into operations on words gives a pair that is, as
a number, what the operation makes of its operands. A value that is loaded or stored in two words is
loaded or stored as one, in whatever order the words are accessed.
-/

namespace GraphLowering.Usim

open Lower (Lowering Makes)
open Lower.Lowering

variable {φ : Nat → Nat → FloatOrder} {g g₁ : Graph} {ρ : Valuation} {o a b : Option Value}
  {vt : ValueType} {op : Opcode} {H : Graph → Prop} {id : Nat}

/-! ### Arithmetic -/

/-- A pair of words is what an operation makes of two values. -/
def Operates (φ : Nat → Nat → FloatOrder) (g : Graph) (op : Opcode) (a b o : Option Value) : Prop :=
  (∃ low high, IsPair g o .i64 low high) ∧ ∀ ρ, Obeys φ g ρ → ∃ x y, Reads g ρ a x ∧ Reads g ρ b y ∧
    arithmetic? op (BitVec.ofNat 64 x) (BitVec.ofNat 64 y) = some (BitVec.ofNat 64 (valueAt ρ o))

/-- The carry out of the low words: a sum is below an addend if it carries, and a difference borrows
if the first word is below the second. -/
def carryOf (op : Opcode) (x y : Nat) : Nat :=
  if op = .add then if (BitVec.ofNat 32 x + BitVec.ofNat 32 y).toNat < x then 1 else 0
  else if x < y then 1 else 0

theorem addition_words (hop : op = .add ∨ op = .sub) :
    ∃ f : (w : Nat) → BitVec w → BitVec w → BitVec w,
    (∀ w (x y : BitVec w), arithmetic? op x y = some (f w x y)) ∧
      ∀ {xl xh yl yh : Nat}, xl < 2 ^ 32 → yl < 2 ^ 32 → yh < 2 ^ 32 →
        f 64 (BitVec.ofNat 64 (xl + 2 ^ 32 * xh)) (BitVec.ofNat 64 (yl + 2 ^ 32 * yh)) =
          BitVec.ofNat 64 ((f 32 (BitVec.ofNat 32 xl) (BitVec.ofNat 32 yl)).toNat + 2 ^ 32 *
            (f 32 (f 32 (BitVec.ofNat 32 xh) (BitVec.ofNat 32 yh))
            (BitVec.ofNat 32 (carryOf op xl yl))).toNat) := by
  rcases hop with rfl | rfl
  · refine ⟨fun _ x y => x + y, fun _ _ _ => rfl, fun hxl hyl _ => BitVec.eq_of_toNat_eq ?_⟩
    simp only [carryOf, if_true, BitVec.toNat_add, BitVec.toNat_ofNat]
    split <;> omega
  · refine ⟨fun _ x y => x - y, fun _ _ _ => rfl, fun hxl hyl hyh => BitVec.eq_of_toNat_eq ?_⟩
    simp only [carryOf, reduceCtorEq, if_false, BitVec.toNat_sub, BitVec.toNat_ofNat]
    split <;> omega

theorem ult_holds {x y : Nat} (hx : x < 2 ^ 32) (hy : y < 2 ^ 32) :
    Cond.ult.holds φ x y = true ↔ x < y := by
  rw [Cond.holds_of_isWord rfl, Cond.onIntegers, BitVec.ult, BitVec.toNat_ofNat, BitVec.toNat_ofNat,
    Nat.mod_eq_of_lt hx, Nat.mod_eq_of_lt hy, decide_eq_true_iff]

variable (φ)

theorem splitAdd_makes (hop : op = .add ∨ op = .sub) (ha : ∀ g, H g → Halvable g a .i64)
    (hb : ∀ g, H g → Halvable g b .i64) :
    Makes H (splitAdd op a b) fun os g => ∃ o, os = [o] ∧ Operates φ g op a b o := by
  obtain ⟨f, hf, hwords⟩ := addition_words hop
  unfold splitAdd
  refine Makes.bind (halves_makes φ rfl ha) fun x => ?_
  refine Makes.bind (halves_makes φ rfl fun g hg => hb g hg.1) fun y => ?_
  refine Makes.bind (binary_makes φ (f 32) (hf 32) (fun g hg => hg.1.2.typed.1.present)
    fun g hg => hg.2.typed.1.present) fun low => ?_
  refine Makes.bind (constant_makes 1 .i32) fun one => ?_
  refine Makes.bind (constant_makes 0 .i32) fun zero => ?_
  -- the carry, and what is done with it
  refine Makes.ite_bind (Q :=
    fun carry g => Denotes φ g carry .i32 fun ρ => carryOf op (valueAt ρ x.1) (valueAt ρ y.1))
    (fun hadd => ?_) (fun hsub => ?_) fun carry => ?_
  · refine (selectNode_makes φ (by decide) (fun g hg => hg.1.1.2.1.present)
      (fun g hg => hg.1.1.1.1.2.typed.1.present) (fun g hg => (hg.1.2.denotes φ).1) fun g hg =>
      (hg.2.denotes φ).1).mono fun carry g hg hc => hc.congr fun ρ hρ => ?_
    have hsum : valueAt ρ low =
        (BitVec.ofNat 32 (valueAt ρ x.1) + BitVec.ofNat 32 (valueAt ρ y.1)).toNat := by
      subst hadd
      rw [hg.1.1.2.value hρ, Option.some.inj (hf 32 _ _)]
    rw [(hg.1.2.denotes φ).value hρ, (hg.2.denotes φ).value hρ, toNat_ofInt_one (by decide),
      toNat_ofInt_zero, carryOf, if_pos hadd, hsum]
    simp only [ult_holds (BitVec.isLt _) (hg.1.1.1.1.2.typed.1.lt hρ)]
  · refine (selectNode_makes φ (by decide) (fun g hg => hg.1.1.1.1.2.typed.1.present)
      (fun g hg => hg.1.1.1.2.typed.1.present) (fun g hg => (hg.1.2.denotes φ).1)
      fun g hg => (hg.2.denotes φ).1).mono fun carry g hg hc => hc.congr fun ρ hρ => ?_
    rw [(hg.1.2.denotes φ).value hρ, (hg.2.denotes φ).value hρ, toNat_ofInt_one (by decide),
      toNat_ofInt_zero, carryOf, if_neg hsub]
    simp only [ult_holds (hg.1.1.1.1.2.typed.1.lt hρ) (hg.1.1.1.2.typed.1.lt hρ)]
  refine Makes.bind (binary_makes φ (f 32) (hf 32) (fun g hg => hg.1.1.1.1.1.2.typed.2.present)
    fun g hg => hg.1.1.1.1.2.typed.2.present) fun sum => ?_
  refine Makes.bind (binary_makes φ (f 32) (hf 32) (fun g hg => hg.2.1.present)
    fun g hg => hg.1.2.1.present) fun high => ?_
  refine Makes.bind (buildPair_makes (fun g hg => hg.1.1.1.1.1.2.1) fun g hg => hg.2.1) fun o => ?_
  refine Makes.pure fun g hg => ⟨o, rfl, ?_⟩
  obtain ⟨⟨⟨⟨⟨⟨⟨⟨⟨-, hx⟩, hy⟩, hlow⟩, -⟩, -⟩, hcarry⟩, hsum⟩, hhigh⟩, ho⟩ := hg
  refine ⟨⟨low, high, ho⟩, fun ρ hρ => ⟨_, _, hx.reads ρ hρ, hy.reads ρ hρ, ?_⟩⟩
  rw [hf 64, hwords (hx.typed.1.lt hρ) (hy.typed.1.lt hρ) (hy.typed.2.lt hρ),
    (ho.denotes φ rfl).value hρ, hhigh.value hρ, hsum.value hρ, hcarry.value hρ, hlow.value hρ]
  simp only [BitVec.ofNat_toNat, BitVec.setWidth_eq]

theorem append_words (l h : BitVec 32) : BitVec.ofNat 64 (l.toNat + 2 ^ 32 * h.toNat) = h ++ l := by
  refine BitVec.eq_of_toNat_eq ?_
  have hl := l.isLt
  have hh := h.isLt
  rw [BitVec.toNat_append, ← Nat.shiftLeft_add_eq_or_of_lt hl, Nat.shiftLeft_eq, BitVec.toNat_ofNat,
    Nat.mod_eq_of_lt (by omega)]
  omega

theorem bitwise_words (hop : op = .and ∨ op = .or ∨ op = .xor) :
    ∃ f : (w : Nat) → BitVec w → BitVec w → BitVec w,
    (∀ w (x y : BitVec w), arithmetic? op x y = some (f w x y)) ∧
      ∀ xl xh yl yh : BitVec 32, f 64 (xh ++ xl) (yh ++ yl) = f 32 xh yh ++ f 32 xl yl := by
  rcases hop with rfl | rfl | rfl
  · exact ⟨fun _ x y => x &&& y, fun _ _ _ => rfl, fun _ _ _ _ => BitVec.and_append⟩
  · exact ⟨fun _ x y => x ||| y, fun _ _ _ => rfl, fun _ _ _ _ => BitVec.or_append⟩
  · exact ⟨fun _ x y => x ^^^ y, fun _ _ _ => rfl, fun _ _ _ _ => BitVec.xor_append⟩

theorem splitBitwise_makes (hop : op = .and ∨ op = .or ∨ op = .xor)
    (ha : ∀ g, H g → Halvable g a .i64) (hb : ∀ g, H g → Halvable g b .i64) :
    Makes H (splitBitwise op a b) fun os g => ∃ o, os = [o] ∧ Operates φ g op a b o := by
  obtain ⟨f, hf, hwords⟩ := bitwise_words hop
  refine Makes.bind (halves_makes φ rfl ha) fun x => ?_
  refine Makes.bind (halves_makes φ rfl fun g hg => hb g hg.1) fun y => ?_
  refine Makes.bind (binary_makes φ (f 32) (hf 32) (fun g hg => hg.1.2.typed.1.present)
    fun g hg => hg.2.typed.1.present) fun low => ?_
  refine Makes.bind (binary_makes φ (f 32) (hf 32) (fun g hg => hg.1.1.2.typed.2.present)
    fun g hg => hg.1.2.typed.2.present) fun high => ?_
  refine Makes.bind (buildPair_makes (fun g hg => hg.1.2.1) fun g hg => hg.2.1) fun o => ?_
  refine Makes.pure fun g hg => ⟨o, rfl, ?_⟩
  obtain ⟨⟨⟨⟨⟨-, hx⟩, hy⟩, hlow⟩, hhigh⟩, ho⟩ := hg
  refine ⟨⟨low, high, ho⟩, fun ρ hρ => ⟨_, _, hx.reads ρ hρ, hy.reads ρ hρ, ?_⟩⟩
  have hword {o : Option Value} (ho : g.Typed o .i32) :
    (BitVec.ofNat 32 (valueAt ρ o)).toNat = valueAt ρ o := Nat.mod_eq_of_lt (ho.lt hρ)
  rw [hf 64, (ho.denotes φ rfl).value hρ, hlow.value hρ, hhigh.value hρ, append_words, ← hwords,
    ← append_words, ← append_words, hword hx.typed.1, hword hx.typed.2, hword hy.typed.1,
    hword hy.typed.2]

/-! ### Extensions and truncations -/

theorem signExtend_words (w : BitVec 32) :
    w.toNat + 2 ^ 32 * (w.sshiftRight' (BitVec.ofNat 32 31)).toNat = (w.signExtend 64).toNat := by
  have hlt := w.isLt
  have hmsb := BitVec.msb_eq_decide w
  have hcount : (BitVec.ofNat 32 31).toNat = 31 := rfl
  rw [BitVec.toNat_signExtend, BitVec.toNat_setWidth, BitVec.sshiftRight_eq', hcount]
  cases h : w.msb with
  | false =>
    have hpositive := of_decide_eq_false (hmsb.symm.trans h)
    rw [BitVec.toNat_sshiftRight_of_msb_false h, Nat.shiftRight_eq_div_pow,
      if_neg Bool.false_ne_true]
    omega
  | true =>
    have hnegative := of_decide_eq_true (hmsb.symm.trans h)
    rw [BitVec.toNat_sshiftRight_of_msb_true h, Nat.shiftRight_eq_div_pow, if_pos rfl]
    omega

theorem signExtend_signExtend {w : Nat} (hw : w ≤ 32) (x : BitVec w) :
    (x.signExtend 32).signExtend 64 = x.signExtend 64 := by
  refine BitVec.eq_of_toInt_eq ?_
  rw [BitVec.toInt_signExtend_of_le (by decide), BitVec.toInt_signExtend_of_le hw,
    BitVec.toInt_signExtend_of_le (by omega)]

theorem bits_le_of_mem (hvt : vt ∈ [.i1, .i8, .i16, .i32]) : vt.bits ≤ 32 := by
  simp only [List.mem_cons, List.not_mem_nil, or_false] at hvt
  rcases hvt with rfl | rfl | rfl | rfl <;> decide

/-- What an extension of a value to some bits gives. -/
def extended (op : Opcode) (vt : ValueType) (w x : Nat) : Nat :=
  if op = .signExtend then ((BitVec.ofNat vt.bits x).signExtend w).toNat else x

section

variable (hvt : vt ∈ [.i1, .i8, .i16, .i32]) (ha : ∀ g, H g → g.Typed a vt)
include hvt ha

theorem word_makes {α : Type} {k : Option Value → Lowering α} {Q : α → Graph → Prop}
    (hop : op = .zeroExtend ∨ op = .signExtend)
    (hk : ∀ word, Makes (fun g => H g ∧ Denotes φ g word .i32 fun ρ =>
      extended op vt 32 (valueAt ρ a)) (k word) Q) :
    Makes H (if vt = .i32 then pure a >>= k else value (·.unary op .i32 a) >>= k) Q := by
  refine Makes.ite_bind (fun hword => Makes.pure fun g hg => ?_) (fun _ => ?_) hk
  · subst hword
    refine ⟨ha g hg, fun ρ hρ => ?_⟩
    have hlt : valueAt ρ a < 2 ^ 32 := (ha g hg).lt hρ
    show valueAt ρ a = if op =
      .signExtend then ((BitVec.ofNat 32 (valueAt ρ a)).signExtend 32).toNat else valueAt ρ a
    rw [BitVec.signExtend_eq, BitVec.toNat_ofNat, Nat.mod_eq_of_lt hlt, ite_self]
  · rcases hop with rfl | rfl
    · exact zeroExtend_makes φ ha (bits_le_of_mem hvt)
    · exact signExtend_makes φ ha

theorem splitExtend_zero_makes : Makes H (splitExtend .zeroExtend a) fun os g => ∃ o, os = [o] ∧
    (∃ low high, IsPair g o .i64 low high) ∧ ∀ ρ, Obeys φ g ρ → valueAt ρ o = valueAt ρ a := by
  refine Makes.typeOf_bind (fun g hg => (ha g hg).operandType?) ?_
  refine word_makes φ hvt ha (.inl rfl) fun word => ?_
  refine Makes.bind (constant_makes 0 .i32) fun zero => ?_
  simp only [reduceCtorEq, if_false, pure_bind]
  refine Makes.bind (buildPair_makes (fun g hg => hg.1.2.1) fun g hg => (hg.2.denotes φ).1)
    fun o => ?_
  refine Makes.pure fun g hg => ⟨o, rfl, ⟨word, zero, hg.2⟩, fun ρ hρ => ?_⟩
  rw [(hg.2.denotes φ rfl).value hρ, (hg.1.2.denotes φ).value hρ, hg.1.1.2.value hρ,
    toNat_ofInt_zero]
  rfl

theorem splitExtend_sign_makes : Makes H (splitExtend .signExtend a) fun os g => ∃ o, os = [o] ∧
    (∃ low high, IsPair g o .i64 low high) ∧
      ∀ ρ, Obeys φ g ρ → valueAt ρ o =
      ((BitVec.ofNat vt.bits (valueAt ρ a)).signExtend 64).toNat := by
  refine Makes.typeOf_bind (fun g hg => (ha g hg).operandType?) ?_
  refine word_makes φ hvt ha (.inr rfl) fun word => ?_
  refine Makes.bind (constant_makes 0 .i32) fun zero => ?_
  refine Makes.bind (constant_makes 31 .i32) fun count => ?_
  refine Makes.bind (binary_makes φ (·.sshiftRight' ·) (fun _ _ => rfl)
    (fun g hg => hg.1.1.2.1.present) fun g hg => (hg.2.denotes φ).1.present) fun high => ?_
  refine Makes.bind (buildPair_makes (fun g hg => hg.1.1.1.2.1) fun g hg => hg.2.1) fun o => ?_
  refine Makes.pure fun g hg => ⟨o, rfl, ⟨word, high, hg.2⟩, fun ρ hρ => ?_⟩
  obtain ⟨⟨⟨⟨⟨hH, hword⟩, -⟩, hcount⟩, hhigh⟩, ho⟩ := hg
  rw [(ho.denotes φ rfl).value hρ, hhigh.value hρ, (hcount.denotes φ).value hρ,
    hword.value hρ, extended, if_pos rfl, BitVec.ofNat_toNat, BitVec.setWidth_eq,
    ← signExtend_signExtend (bits_le_of_mem hvt)]
  exact signExtend_words _

end

theorem splitTruncate_makes (hvt : vt ∈ [.i1, .i8, .i16, .i32])
    (ha : ∀ g, H g → Halvable g a .i64) :
    Makes H (splitTruncate vt a) fun os g => ∃ o, os = [o] ∧ g.Typed o vt ∧
      ∀ ρ, Obeys φ g ρ → ∃ x, Reads g ρ a x ∧ valueAt ρ o = x % 2 ^ vt.bits := by
  refine Makes.bind (halves_makes φ rfl ha) fun x => ?_
  refine Makes.ite (fun hword => ?_) fun hnarrow => ?_
  · subst hword
    refine Makes.pure fun g hg => ⟨x.1, rfl, hg.2.typed.1, fun ρ hρ => ⟨_, hg.2.reads ρ hρ, ?_⟩⟩
    have hlt : valueAt ρ x.1 < 2 ^ 32 := hg.2.typed.1.lt hρ
    simp only [ValueType.bits]
    omega
  · refine Makes.bind (truncate_makes φ fun g hg => hg.2.typed.1.present) fun o => ?_
    refine Makes.pure fun g hg => ⟨o, rfl, hg.2.1, fun ρ hρ => ⟨_, hg.1.2.reads ρ hρ, ?_⟩⟩
    have hdvd : 2 ^ vt.bits ∣ 2 ^ 32 := Nat.pow_dvd_pow 2 (bits_le_of_mem hvt)
    rw [hg.2.value hρ, Nat.add_mod, Nat.mod_eq_zero_of_dvd (Dvd.dvd.mul_right hdvd _),
      Nat.add_zero, Nat.mod_mod]

/-! ### Memory -/

def address (ρ : Valuation) (o : Option Value) : Address := BitVec.ofNat 32 (valueAt ρ o)

/-- What a node does to memory, given the values of the graph. -/
def Effect (g : Graph) (ρ : Valuation) (id : Nat) (m m' : Memory) : Prop :=
  match (g.node id).op, (g.node id).operands with
  | .load, [_, ptr] => m' = m ∧ ρ ⟨id, 0⟩ = m.read (address ρ ptr) (resultBits (g.node id) / 8)
  | .store, [_, v, ptr] =>
    m' = m.write (address ρ ptr) (((g.operandType? v).getD .chain).bits / 8) (valueAt ρ v)
  | _, _ => m' = m

/-- What nodes do to memory one after the other. -/
def Effects (g : Graph) (ρ : Valuation) : List Nat → Memory → Memory → Prop
  | [], m, m' => m' = m
  | id :: ids, m, m' => ∃ m₁, Effect g ρ id m m₁ ∧ Effects g ρ ids m₁ m'

/-- Nodes that follow one chain, in no order among themselves, and are followed by another. -/
structure Forks (g : Graph) (chain out : Option Value) (ids : List Nat) : Prop where
  starts : ∀ id ∈ ids, g.contains id ∧ (g.node id).operands.head? = some chain
  joins : ∃ v i, out = some v ∧ g.contains v.node ∧
    g.node v.node = ⟨.tokenFactor, [.chain], ids.map fun id => some ⟨id, i⟩, .none⟩ ∧
    ∀ id ∈ ids, g.type? ⟨id, i⟩ = some .chain

theorem Forks.pair {chain : Option Value} {w : Value} {low high i : Nat} {l h : Node}
    (hw : g.contains w.node)
    (hjoin : g.node w.node = ⟨.tokenFactor, [.chain], [some ⟨low, i⟩, some ⟨high, i⟩], .none⟩)
    (hlow : g.contains low ∧ g.node low = l)
    (hl : l.operands.head? = some chain ∧ l.types[i]? = some .chain)
    (hhigh : g.contains high ∧ g.node high = h)
    (hh : h.operands.head? = some chain ∧ h.types[i]? = some .chain) :
    Forks g chain (some w) [low, high] := by
  obtain ⟨hclow, rfl⟩ := hlow
  obtain ⟨hchigh, rfl⟩ := hhigh
  refine ⟨List.forall_mem_cons.2 ⟨⟨hclow, hl.1⟩, List.forall_mem_singleton.2 ⟨hchigh, hh.1⟩⟩, w, i,
    rfl, hw, hjoin, ?_⟩
  exact List.forall_mem_cons.2
    ⟨(g.type?_eq _).trans hl.2, List.forall_mem_singleton.2 ((g.type?_eq _).trans hh.2)⟩

theorem addressAt_makes {ptr : Option Value} (hptr : ∀ g, H g → g.Present ptr) :
    Makes H (addressAt ptr wordSize) fun o g =>
      g.Typed o .i32 ∧ ∀ ρ, Obeys φ g ρ → address ρ o = address ρ ptr + BitVec.ofNat 32 4 := by
  unfold addressAt
  refine Makes.ite (fun h => absurd h (by decide)) fun _ => ?_
  refine Makes.bind (constant_makes wordSize .i32) fun offset => ?_
  refine (binary_makes φ (· + ·) (fun _ _ => rfl) (fun g hg => hptr g hg.1)
    fun g hg => (hg.2.denotes φ).1.present).mono fun o g hg ho => ⟨ho.1, fun ρ hρ => ?_⟩
  rw [address, ho.value hρ, (hg.2.denotes φ).value hρ, BitVec.ofNat_toNat, BitVec.setWidth_eq]
  rfl

theorem tokenFactor_makes {u v : Value} (huv : u ≠ v) (hu : ∀ g, H g → g.contains u.node)
    (hv : ∀ g, H g → g.contains v.node) :
    Makes H (value (·.tokenFactor [some u, some v])) fun o g => ∃ w, o = some w ∧
    g.contains w.node ∧
      g.node w.node = ⟨.tokenFactor, [.chain], [some u, some v], .none⟩ := by
  have hsingle : (fun g : Graph => g.tokenFactor [some u, some v]) =
      fun g => g.single .tokenFactor .chain [some u, some v] := by
    funext g
    simp [Graph.tokenFactor, List.eraseDups_cons, huv.symm]
  rw [hsingle]
  refine (Makes.value (.single fun g hg => ?_)).mono fun o g _ ho => ?_
  · exact List.forall_mem_cons.2 ⟨⟨u, rfl, hu g hg⟩, List.forall_mem_singleton.2 ⟨v, rfl, hv g hg⟩⟩
  · obtain ⟨w, rfl, -, hw, hn⟩ := ho
    exact ⟨w, rfl, hw, hn⟩

section

variable {chain ptr v : Option Value} {m m' : Memory} {i j : Nat}

theorem effects_pair : Effects g ρ [i, j] m m' ↔ ∃ m₁, Effect g ρ i m m₁ ∧ Effect g ρ j m₁ m' := by
  simp [Effects]

theorem effect_load (hn : g.node id = ⟨.load, [.i32, .chain], [chain, ptr], .none⟩) :
    Effect g ρ id m m' ↔ m' = m ∧ ρ ⟨id, 0⟩ = m.read (address ρ ptr) 4 := by
  have hsize : resultBits (g.node id) / 8 = 4 := by
    rw [resultBits, hn]
    simp only [List.headD_cons]
    rfl
  rw [Effect, hsize, hn]

theorem effect_store (hn : g.node id = ⟨.store, [.chain], [chain, v, ptr], .none⟩)
    (hv : g.Typed v .i32) : Effect g ρ id m m' ↔ m' = m.write (address ρ ptr) 4 (valueAt ρ v) := by
  have hsize : ((g.operandType? v).getD .chain).bits / 8 = 4 := by
    rw [hv.operandType?]
    rfl
  simp only [Effect, hn, hsize]

end

/-- The two words of a value are read as one number, in either order. -/
theorem splitLoad_makes {chain ptr : Option Value} (hx : ∀ g, H g → g₁.Extends g)
    (hwt : WellTyped g₁) (hid : g₁.contains id) {payload : Payload} (hvt : vt.isWide)
    (hn : g₁.node id = ⟨.load, [vt, .chain], [chain, ptr], payload⟩) :
    Makes H (splitLoad id vt) fun os g => ∃ o out ids, os = [o, out] ∧
    (∃ low high, IsPair g o vt low high) ∧
      Forks g chain out ids ∧ ∀ ρ, Obeys φ g ρ → ∀ order, order.Perm ids → ∀ m m',
        Effects g ρ order m m' ↔ m' = m ∧ valueAt ρ o = m.read (address ρ ptr) 8 := by
  have hpresent {o : Option Value} (ho : o ∈ [chain, ptr]) (g : Graph) (hg : H g) : g.Present o :=
    (hwt.present hid (by rwa [hn])).mono (hx g hg)
  unfold splitLoad
  refine operand_makes hx hid hn 0 rfl (operand_makes hx hid hn 1 rfl ?_)
  refine Makes.bind (.newNode fun g hg o ho => hpresent ho g hg) fun low => ?_
  refine Makes.bind (addressAt_makes φ fun g hg => hpresent (by simp) g hg.1) fun highPtr => ?_
  refine Makes.bind (.newNode_fresh fun g hg => List.forall_mem_cons.2
    ⟨hpresent (by simp) g hg.1.1, List.forall_mem_singleton.2 hg.2.1.present⟩) fun high => ?_
  refine Makes.given (P := low ≠ high) (fun g hg => hg.2.1 low fun g hg => hg.1.2.1) fun hne => ?_
  have hword {id : Nat} {ptr : Option Value} {g : Graph} (hc : g.contains id)
      (hn : g.node id = ⟨.load, [.i32, .chain], [chain, ptr], .none⟩) :
        g.Typed (some ⟨id, 0⟩) .i32 :=
    .of_node hc hn rfl
  refine Makes.bind (tokenFactor_makes (u := ⟨low, 1⟩) (v := ⟨high, 1⟩) (by simp [hne])
    (fun g hg => hg.1.1.2.1) fun g hg => hg.2.2.1) fun out => ?_
  refine Makes.bind (buildPair_makes (fun g hg => hword hg.1.1.1.2.1 hg.1.1.1.2.2)
    fun g hg => hword hg.1.2.2.1 hg.1.2.2.2) fun o => ?_
  refine Makes.pure fun g hg => ?_
  obtain ⟨⟨⟨⟨⟨-, hl, hlow⟩, hptr⟩, -, hh, hhigh⟩, w, rfl, hw, hjoin⟩, ho⟩ := hg
  refine ⟨o, some w, [low, high], rfl, ⟨_, _, ho⟩, .pair hw hjoin ⟨hl, hlow⟩ ⟨rfl, rfl⟩
    ⟨hh, hhigh⟩ ⟨rfl, rfl⟩, fun ρ hρ order horder m m' => ?_⟩
  have hnumber : valueAt ρ o = m.read (address ρ ptr) 8 ↔ ρ ⟨low, 0⟩ = m.read (address ρ ptr) 4 ∧
      ρ ⟨high, 0⟩ = m.read (address ρ highPtr) 4 := by
    have hlt : ρ ⟨low, 0⟩ < 2 ^ 32 := (hword hl hlow).lt hρ
    have hread := m.read_lt (address ρ ptr) 4
    rw [(ho.denotes φ hvt).value hρ, m.read_add _ 4 4, hptr.2 ρ hρ]
    simp only [valueAt]
    omega
  rw [hnumber]
  rcases List.perm_pair.1 horder with rfl | rfl <;> simp only [effects_pair, effect_load hlow,
    effect_load hhigh]
  · constructor
    · rintro ⟨m₁, ⟨rfl, hlow⟩, rfl, hhigh⟩
      exact ⟨rfl, hlow, hhigh⟩
    · rintro ⟨rfl, hlow, hhigh⟩
      exact ⟨_, ⟨rfl, hlow⟩, rfl, hhigh⟩
  · constructor
    · rintro ⟨m₁, ⟨rfl, hhigh⟩, rfl, hlow⟩
      exact ⟨rfl, hlow, hhigh⟩
    · rintro ⟨rfl, hlow, hhigh⟩
      exact ⟨_, ⟨rfl, hhigh⟩, rfl, hlow⟩

theorem store_makes {chain v ptr : Option Value} (hchain : ∀ g, H g → g.Present chain)
    (hv : ∀ g, H g → g.Present v) (hptr : ∀ g, H g → g.Present ptr) :
    Makes H (value (·.store chain v ptr)) fun o g => ∃ id, o = some ⟨id, 0⟩ ∧
      (∀ k, (∀ g, H g → g.contains k) → k ≠ id) ∧ g.contains id ∧
      g.node id = ⟨.store, [.chain], [chain, v, ptr], .none⟩ := by
  refine (Makes.value (.single_fresh fun g hg => ?_)).mono fun o g _ ho => ?_
  · exact List.forall_mem_cons.2 ⟨hchain g hg, List.forall_mem_cons.2
      ⟨hv g hg, List.forall_mem_singleton.2 (hptr g hg)⟩⟩
  · obtain ⟨⟨id, r⟩, rfl, hfresh, rfl, hc, hn⟩ := ho
    exact ⟨id, rfl, hfresh, hc, hn⟩

theorem splitStore_makes {chain v ptr : Option Value} (hvt : vt.isWide)
    (hv : ∀ g, H g → Halvable g v vt) (hchain : ∀ g, H g → g.Present chain)
    (hptr : ∀ g, H g → g.Present ptr) : Makes H (splitStore chain v ptr) fun os g => ∃ out ids, os =
    [out] ∧ Forks g chain out ids ∧
      ∀ ρ, Obeys φ g ρ → ∃ x, Reads g ρ v x ∧ x < 2 ^ 64 ∧ ∀ order, order.Perm ids → ∀ m m',
        Effects g ρ order m m' ↔ m' = m.write (address ρ ptr) 8 x := by
  unfold splitStore
  refine Makes.bind (halves_makes φ hvt hv) fun words => ?_
  refine Makes.bind (store_makes (fun g hg => hchain g hg.1) (fun g hg => hg.2.typed.1.present)
    fun g hg => hptr g hg.1) fun lowStore => ?_
  refine Makes.bind (addressAt_makes φ fun g hg => hptr g hg.1.1) fun highPtr => ?_
  refine Makes.bind (store_makes (fun g hg => hchain g hg.1.1.1)
    (fun g hg => hg.1.1.2.typed.2.present) fun g hg => hg.2.1.present) fun highStore => ?_
  refine Makes.given (P := ∃ low high, lowStore = some ⟨low, 0⟩ ∧
    highStore = some ⟨high, 0⟩ ∧ low ≠ high) (fun g hg => ?_) fun hstores => ?_
  · obtain ⟨⟨⟨-, low, hlow, -⟩, -⟩, high, hhigh, hfresh, -⟩ := hg
    refine ⟨low, high, hlow, hhigh, hfresh low fun g hg => ?_⟩
    obtain ⟨id, hid, -, hc, -⟩ := hg.1.2
    cases hlow.symm.trans hid
    exact hc
  obtain ⟨low, high, rfl, rfl, hne⟩ := hstores
  refine Makes.bind (tokenFactor_makes (u := ⟨low, 0⟩) (v := ⟨high, 0⟩) (by simp [hne])
    (fun g hg => ?_) fun g hg => ?_) fun out => ?_
  · obtain ⟨_, ⟨⟩, -, hc, -⟩ := hg.1.1.2
    exact hc
  · obtain ⟨_, ⟨⟩, -, hc, -⟩ := hg.2
    exact hc
  refine Makes.pure fun g hg => ?_
  obtain ⟨⟨⟨⟨⟨-, hwords⟩, _, ⟨⟩, -, hl, hlow⟩, hptr⟩, _, ⟨⟩, -, hh, hhigh⟩, w, rfl, hw, hjoin⟩ := hg
  refine ⟨some w, [low, high], rfl, .pair hw hjoin ⟨hl, hlow⟩ ⟨rfl, rfl⟩ ⟨hh, hhigh⟩ ⟨rfl, rfl⟩,
    fun ρ hρ => ?_⟩
  have hltlow := hwords.typed.1.lt hρ
  have hlthigh := hwords.typed.2.lt hρ
  refine ⟨_, hwords.reads ρ hρ, ?_, fun order horder m m' => ?_⟩
  · change _ < 2 ^ 32 at hltlow
    change _ < 2 ^ 32 at hlthigh
    omega
  rw [m.write_words _ hltlow]
  rcases List.perm_pair.1 horder with rfl | rfl <;>
    simp only [effects_pair, effect_store hlow hwords.typed.1, effect_store hhigh hwords.typed.2,
      exists_eq_left, hptr.2 ρ hρ]
  rw [m.write_words_comm]

/-! ### Nodes -/

variable {n : Node}

/-- A value is what a node makes of its operands as they may be read. -/
def Results (g : Graph) (ρ : Valuation) (n : Node) (y : Nat) : Prop :=
  ∃ xs x, List.Forall₂ (Reads g ρ) n.operands xs ∧ (settingOf g n).compute? φ xs = some x ∧
    y = x % 2 ^ resultBits n

/-- A value is a pair of words, of the type of the node. -/
def PairFor (g : Graph) (n : Node) (o : Option Value) : Prop :=
  ∃ low high, IsPair g o (n.types.headD .chain) low high

/-- What takes the place of a node that is split does what the node does. The parts of a load or a
store are done in any order. -/
def Splits (g : Graph) (ρ : Valuation) (n : Node) (os : List (Option Value)) : Prop :=
  match n.op, n.operands, os with
  | .load, [chain, ptr], [o, out] =>
    PairFor g n o ∧ ∃ ids, Forks g chain out ids ∧ ∀ order, order.Perm ids →
      ∀ m m', Effects g ρ order m m' ↔ m' = m ∧ valueAt ρ o = m.read (address ρ ptr) 8
  | .store, [chain, v, ptr], [out] => ∃ ids x, Forks g chain out ids ∧ Reads g ρ v x ∧ x < 2 ^ 64 ∧
      ∀ order, order.Perm ids → ∀ m m', Effects g ρ order m m' ↔ m' = m.write (address ρ ptr) 8 x
  | .undef, _, [o] => PairFor g n o
  | .truncate, _, [o] => g.Typed o (n.types.headD .chain) ∧ Results φ g ρ n (valueAt ρ o)
  | _, _, [o] => PairFor g n o ∧ Results φ g ρ n (valueAt ρ o)
  | _, _, _ => False

/-- A well-typed node that takes or gives values of two words, and that can be split without a
choice. -/
inductive IsWideNode (g : Graph) : Node → Prop
  | constant {vt : ValueType} {payload : Payload} (hvt : vt.isWide) :
    IsWideNode g ⟨.constant, [vt], [], payload⟩
  | undef {vt : ValueType} {payload : Payload} (hvt : vt.isWide) :
    IsWideNode g ⟨.undef, [vt], [], payload⟩
  | load {vt : ValueType} {chain ptr : Option Value} {payload : Payload} (hvt : vt.isWide) :
      IsWideNode g ⟨.load, [vt, .chain], [chain, ptr], payload⟩
  | store {vt : ValueType} {chain v ptr : Option Value} {payload : Payload} (hvt : vt.isWide)
    (hv : g.Typed v vt) :
      IsWideNode g ⟨.store, [.chain], [chain, v, ptr], payload⟩
  | add {op : Opcode} {a b : Option Value} {payload : Payload} (hop : op = .add ∨ op = .sub)
    (ha : g.Typed a .i64)
      (hb : g.Typed b .i64) : IsWideNode g ⟨op, [.i64], [a, b], payload⟩
  | bitwise {op : Opcode} {a b : Option Value} {payload : Payload}
    (hop : op = .and ∨ op = .or ∨ op = .xor)
      (ha : g.Typed a .i64) (hb : g.Typed b .i64) : IsWideNode g ⟨op, [.i64], [a, b], payload⟩
  | extend {op : Opcode} {vt : ValueType} {a : Option Value} {payload : Payload}
      (hop : op = .zeroExtend ∨ op = .signExtend) (hvt : vt ∈ [.i1, .i8, .i16, .i32])
      (ha : g.Typed a vt) : IsWideNode g ⟨op, [.i64], [a], payload⟩
  | truncate {vt : ValueType} {a : Option Value} {payload : Payload}
    (hvt : vt ∈ [.i1, .i8, .i16, .i32])
      (ha : g.Typed a .i64) : IsWideNode g ⟨.truncate, [vt], [a], payload⟩

namespace IsWideNode

theorem touches (h : IsWideNode g n) :
    (∃ vt ∈ n.types, vt.isWide) ∨ ∃ o ∈ n.operands, ∃ vt, g.Typed o vt ∧ vt.isWide := by
  cases h with
  | constant hvt => exact .inl ⟨_, List.mem_singleton_self _, hvt⟩
  | undef hvt => exact .inl ⟨_, List.mem_singleton_self _, hvt⟩
  | load hvt => exact .inl ⟨_, List.mem_cons_self, hvt⟩
  | store hvt hv => exact .inr ⟨_, List.mem_cons_of_mem _ List.mem_cons_self, _, hv, hvt⟩
  | add => exact .inl ⟨_, List.mem_singleton_self _, rfl⟩
  | bitwise => exact .inl ⟨_, List.mem_singleton_self _, rfl⟩
  | extend => exact .inl ⟨_, List.mem_singleton_self _, rfl⟩
  | truncate _ ha => exact .inr ⟨_, List.mem_singleton_self _, _, ha, rfl⟩

theorem carriesPairs_eq (h : IsWideNode g n) : carriesPairs n.op = false := by
  cases h with
  | add hop => rcases hop with rfl | rfl <;> rfl
  | bitwise hop => rcases hop with rfl | rfl | rfl <;> rfl
  | extend hop => rcases hop with rfl | rfl <;> rfl
  | _ => rfl

end IsWideNode

theorem Operates.results {payload : Payload} (h : Operates φ g op a b o) (hρ : Obeys φ g ρ) :
    Results φ g ρ ⟨op, [.i64], [a, b], payload⟩ (valueAt ρ o) := by
  obtain ⟨⟨low, high, ho⟩, hall⟩ := h
  obtain ⟨x, y, hx, hy, hxy⟩ := hall ρ hρ
  have hlt : valueAt ρ o < 2 ^ 64 := (ho.denotes φ rfl).1.lt hρ
  refine ⟨[x, y], _, .cons hx (.cons hy .nil), Setting.compute?_arithmetic φ hxy, ?_⟩
  show valueAt ρ o = valueAt ρ o % 2 ^ 64 % 2 ^ 64
  omega

theorem split_makes (hwt : WellTyped g₁) (hid : g₁.contains id) (hw : IsWideNode g₁ (g₁.node id)) :
    Makes (fun g => g₁.Extends g) (split id) fun r g => ∃ os, r = some os ∧
      ∀ ρ, Obeys φ g ρ → Splits φ g ρ (g₁.node id) os := by
  have hx (g : Graph) (hg : g₁.Extends g) : g₁.Extends g := hg
  have hpresent {o : Option Value} (ho : o ∈ (g₁.node id).operands) (g : Graph)
    (hg : g₁.Extends g) : g.Present o := (hwt.present hid ho).mono hg
  have hhalvable {o : Option Value} {vt : ValueType} (ho : g₁.Typed o vt)
    (hvt : vt.isWide) (g : Graph)
      (hg : g₁.Extends g) : Halvable g o vt :=
        (hwt.halvable ho (ValueType.bits_of_isWide hvt).le).mono hg
  unfold split
  refine Makes.node_bind (fun g hg => hg.node _ (Graph.contains_lt hid)) ?_
  refine Makes.ite (fun h => absurd h (by simp [hw.carriesPairs_eq])) fun _ => ?_
  refine touchesWide_makes hx hid hwt hw.touches ?_
  refine Makes.ite (fun h => by cases h) fun _ => ?_
  generalize hn : g₁.node id = n at hw hpresent
  cases hw with
  | @constant vt payload hvt =>
    refine Makes.bind (constantHalves_makes φ _) fun words => resultType_makes (fun g hg => hg.1)
      hid hn 0 rfl ?_
    refine Makes.bind (buildPair_makes (fun g hg => hg.2.1.1) fun g hg => hg.2.1.2) fun o =>
      Makes.pure fun g hg => ?_
    refine ⟨[o], rfl, fun ρ hρ => ⟨⟨_, _, hg.2⟩, [], _, .nil, rfl, ?_⟩⟩
    rw [(hg.2.denotes φ hvt).value hρ, hg.1.2.2 ρ hρ]
    show (BitVec.ofInt 64 _).toNat = (BitVec.ofInt vt.bits _).toNat % 2 ^ vt.bits
    rw [ValueType.bits_of_isWide hvt, Nat.mod_eq_of_lt (BitVec.isLt _)]
    rfl
  | undef hvt =>
    refine resultType_makes hx hid hn 0 rfl (Makes.bind undefHalves_makes fun words => ?_)
    refine Makes.bind (buildPair_makes (fun g hg => hg.2.1) fun g hg => hg.2.2) fun o =>
      Makes.pure fun g hg => ?_
    exact ⟨[o], rfl, fun ρ hρ => ⟨_, _, hg.2⟩⟩
  | load hvt =>
    refine resultType_makes hx hid hn 0 rfl
      (Makes.bind (splitLoad_makes φ hx hwt hid hvt hn) fun os => Makes.pure fun g hg => ?_)
    obtain ⟨-, o, out, ids, rfl, ho, hforks, heffects⟩ := hg
    exact ⟨_, rfl, fun ρ hρ => ⟨ho, ids, hforks, heffects ρ hρ⟩⟩
  | store hvt hv =>
    refine operand_makes hx hid hn 0 rfl
      (operand_makes hx hid hn 1 rfl (operand_makes hx hid hn 2 rfl ?_))
    refine Makes.typeOf_bind (fun g hg => (hv.mono hg).operandType?) ?_
    refine Makes.ite (fun _ => ?_) fun h => absurd hvt h
    refine Makes.bind (splitStore_makes φ hvt (hhalvable hv hvt) (hpresent (by simp))
      (hpresent (by simp))) fun os => Makes.pure fun g hg => ?_
    obtain ⟨-, out, ids, rfl, hforks, heffects⟩ := hg
    refine ⟨_, rfl, fun ρ hρ => ?_⟩
    obtain ⟨x, hread, hlt, horder⟩ := heffects ρ hρ
    exact ⟨ids, x, hforks, hread, hlt, horder⟩
  | add hop ha hb =>
    rcases hop with rfl | rfl <;>
      refine resultType_makes hx hid hn 0 rfl (Makes.ite (fun _ => ?_) fun h => absurd rfl h) <;>
      refine operand_makes hx hid hn 0 rfl (operand_makes hx hid hn 1 rfl ?_) <;>
      refine Makes.bind (splitAdd_makes φ (by simp) (hhalvable ha rfl) (hhalvable hb rfl)) fun os =>
        Makes.pure fun g hg => ?_
    all_goals
      obtain ⟨-, o, rfl, ho⟩ := hg
      exact ⟨_, rfl, fun ρ hρ => ⟨ho.1, ho.results φ hρ⟩⟩
  | bitwise hop ha hb =>
    rcases hop with rfl | rfl | rfl <;>
      refine resultType_makes hx hid hn 0 rfl (Makes.ite (fun _ => ?_) fun h => absurd rfl h) <;>
      refine operand_makes hx hid hn 0 rfl (operand_makes hx hid hn 1 rfl ?_) <;>
      refine Makes.bind (splitBitwise_makes φ (by simp) (hhalvable ha rfl) (hhalvable hb rfl))
        fun os => Makes.pure fun g hg => ?_
    all_goals
      obtain ⟨-, o, rfl, ho⟩ := hg
      exact ⟨_, rfl, fun ρ hρ => ⟨ho.1, ho.results φ hρ⟩⟩
  | @extend op vt a payload hop hvt ha =>
    rcases hop with rfl | rfl <;>
      refine resultType_makes hx hid hn 0 rfl (Makes.ite (fun _ => ?_) fun h => absurd rfl h) <;>
      refine operand_makes hx hid hn 0 rfl ?_
    · refine Makes.bind (splitExtend_zero_makes φ hvt fun g hg => ha.mono hg) fun os =>
        Makes.pure fun g hg => ?_
      obtain ⟨hg, o, rfl, ho, hvalue⟩ := hg
      refine ⟨_, rfl, fun ρ hρ => ⟨ho, _, _, .cons (.of_value (ha.mono hg).present) .nil, rfl, ?_⟩⟩
      obtain ⟨low, high, ho⟩ := ho
      rw [← hvalue ρ hρ]
      exact (Nat.mod_eq_of_lt ((ho.denotes φ rfl).1.lt hρ)).symm
    · refine Makes.bind (splitExtend_sign_makes φ hvt fun g hg => ha.mono hg) fun os =>
        Makes.pure fun g hg => ?_
      obtain ⟨hg, o, rfl, ho, hvalue⟩ := hg
      refine ⟨_, rfl, fun ρ hρ => ⟨ho, _, _, .cons (.of_value (ha.mono hg).present) .nil, rfl, ?_⟩⟩
      have htype : (settingOf g ⟨.signExtend, [.i64], [a], payload⟩).operandType = vt := by
        simp only [settingOf, List.head?_cons, Option.join_some, (ha.mono hg).operandType?,
          Option.getD_some]
      rw [htype, hvalue ρ hρ]
      exact (Nat.mod_eq_of_lt (BitVec.isLt _)).symm
  | truncate hvt ha =>
    refine operand_makes hx hid hn 0 rfl
      (Makes.typeOf_bind (fun g hg => (ha.mono hg).operandType?) ?_)
    refine Makes.ite (fun _ => ?_) fun h => absurd rfl h
    refine resultType_makes hx hid hn 0 rfl
      (Makes.bind (splitTruncate_makes φ hvt (hhalvable ha rfl)) fun os => Makes.pure
      fun g hg => ?_)
    obtain ⟨-, o, rfl, ho, hvalue⟩ := hg
    refine ⟨_, rfl, fun ρ hρ => ⟨ho, ?_⟩⟩
    obtain ⟨x, hread, hvalue⟩ := hvalue ρ hρ
    exact ⟨[x], x, .cons hread .nil, rfl, hvalue⟩

/-- Splitting a node succeeds, and what takes its place does what the node does, for all values of
its operands. What is stored so is loaded again. -/
theorem split_computes {s : Lower.Session} (hwt : WellTyped s.graph) (hid : s.graph.contains id)
    (hw : IsWideNode s.graph (s.graph.node id)) :
    (∃ os g', outcome (split id) s = (.ok (some os), { s with graph := g' }) ∧ s.graph.Grows g' ∧
      (∀ ρ, Obeys φ s.graph ρ → ∃ ρ', Obeys φ g' ρ' ∧
        ∀ v, v.node < s.graph.entries.size → ρ' v = ρ v) ∧
      ∀ ρ, Obeys φ g' ρ → Splits φ g' ρ (s.graph.node id) os) ∧
    ∀ (m : Memory) (p : Address) (x : Nat), x < 2 ^ 64 → (m.write p 8 x).read p 8 = x := by
  refine ⟨?_, fun m p x hlt => ?_⟩
  · obtain ⟨r, g', hout, hgrows, hall⟩ := split_makes φ hwt hid hw s fun _ hg => hg
    obtain ⟨os, rfl, hsplits⟩ := hall g' (.refl _)
    exact ⟨os, g', hout, hgrows, fun ρ hρ => exists_obeys hwt.operand_lt hgrows hρ, hsplits⟩
  · exact m.read_write p (by decide) hlt

theorem Results.computes {y : Nat} (h : Results φ g ρ n y) : Computes φ g ρ n y := by
  obtain ⟨xs, x, hread, hx, rfl⟩ := h
  refine ⟨xs, hread, fun z hz => ?_⟩
  cases hx.symm.trans hz
  rfl

/-- Two arguments of two words that are added. -/
def sumGraph : Graph :=
  let g := Graph.empty { params := [.i64, .i64] }
  let (g, a) := g.argument 0 .i64
  let (g, b) := g.argument 1 .i64
  (g.binary .add .i64 (some a) (some b)).1

/-- The sum of the low words carries. -/
def sumValues : Valuation := fun v =>
  if v = ⟨1, 0⟩ then 2 ^ 32 - 1 else if v = ⟨2, 0⟩ then 1 else if v = ⟨3, 0⟩ then 2 ^ 32 else 0

/-- The carry reaches the high word. -/
theorem split_computes_carry :
    ∃ o g' ρ, outcome (split 3) ((target .builtIn).session sumGraph) =
        (.ok (some [o]), { (target .builtIn).session sumGraph with graph := g' }) ∧
      Obeys (fun _ _ => .unordered) g' ρ ∧ ρ ⟨1, 0⟩ = 2 ^ 32 - 1 ∧ ρ ⟨2, 0⟩ = 1 ∧
          valueAt ρ o = 2 ^ 32 := by
  have hwt : WellTyped sumGraph := .of_forall (by decide) (by decide)
  have htyped : sumGraph.Typed (some ⟨1, 0⟩) .i64 ∧ sumGraph.Typed (some ⟨2, 0⟩) .i64 :=
    ⟨⟨_, rfl, by decide, by decide⟩, ⟨_, rfl, by decide, by decide⟩⟩
  have hρ₀ : Obeys (fun _ _ => .unordered) sumGraph sumValues :=
    .of_forall (by decide) (by decide) (by decide)
  obtain ⟨⟨os, g', hout, hgrows, hgo, hsplits⟩, -⟩ := split_computes (fun _ _ => .unordered)
    (s := (target .builtIn).session sumGraph) hwt (show sumGraph.contains 3 by decide)
    (.add (.inl rfl) htyped.1 htyped.2)
  obtain ⟨ρ, hρ, hagree⟩ := hgo sumValues hρ₀
  have hin := hwt.operand_lt 3 (by decide)
  have hvalue : computed? (fun _ _ => .unordered) sumGraph sumValues (sumGraph.node 3) =
    some (2 ^ 32) := by decide
  have hdefined : Defined g' (sumGraph.node 3) := by
    have hall : ∀ o ∈ (sumGraph.node 3).operands, ∀ v ∈ o, (sumGraph.node v.node).op ≠ .undef := by
      decide
    intro v hv
    rw [hgrows.extension.node _ (hin v hv)]
    exact hall _ hv v rfl
  have hsplit := hsplits ρ hρ
  obtain _ | ⟨o, _ | ⟨o', os⟩⟩ := os
  · cases hsplit
  · refine ⟨o, g', ρ, hout, hρ, hagree _ (by decide), hagree _ (by decide), ?_⟩
    exact (Results.computes _ hsplit.2).eq hdefined
      ((computed?_extends hgrows.extension hin hagree).trans hvalue)
  · cases hsplit

end GraphLowering.Usim
