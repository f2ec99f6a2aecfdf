import GraphLowering.Proofs.Lower.Makes
import GraphLowering.Usim.Combine
import Mathlib.Algebra.Ring.Nat

/-!
# What graphs compute

Values are bit patterns. A valuation gives every value of a graph a pattern of its width, and it
obeys the graph if the value of every node that computes is what its operation makes of the values
of its operands (`Obeys`). Arguments, loads and other values from outside are free, and so is an
undefined value; a rule that splits an undefined value reads it as it likes (`Reads`). How floats
compare is a parameter.

A graph that grows by nodes that take earlier values has, for every valuation of the old graph, a
valuation of the new one that goes on from it (`exists_obeys`).
-/

namespace GraphLowering

/-! ### Predicates -/

/-- How two floats compare. -/
inductive FloatOrder where
  | less
  | equal
  | greater
  | unordered
deriving DecidableEq, Repr

namespace CondCode

/-- A predicate on integers; the unordered orderings compare unsigned. -/
def onIntegers {w : Nat} (cc : CondCode) (a b : BitVec w) : Bool :=
  match cc with
  | setFalse | setFalse2 | uno | invalid _ => false
  | setTrue | setTrue2 | ord => true
  | oeq | ueq | eq => a == b
  | one | une | ne => a != b
  | ogt | gt => b.slt a
  | oge | ge => b.sle a
  | olt | lt => a.slt b
  | ole | le => a.sle b
  | ugt => b.ult a
  | uge => b.ule a
  | ult => a.ult b
  | ule => a.ule b

/-- A predicate on floats; the forms that ignore order say nothing about unordered floats. -/
def onFloats (cc : CondCode) (o : FloatOrder) : Option Bool :=
  match cc with
  | setFalse | setFalse2 => some false
  | setTrue | setTrue2 => some true
  | ord => some (o != .unordered)
  | uno => some (o == .unordered)
  | oeq => some (o == .equal)
  | ogt => some (o == .greater)
  | oge => some (o == .greater || o == .equal)
  | olt => some (o == .less)
  | ole => some (o == .less || o == .equal)
  | one => some (o == .less || o == .greater)
  | ueq => some (o == .equal || o == .unordered)
  | ugt => some (o == .greater || o == .unordered)
  | uge => some (o != .less)
  | ult => some (o == .less || o == .unordered)
  | ule => some (o != .greater)
  | une => some (o != .equal)
  | eq => ordered (o == .equal)
  | gt => ordered (o == .greater)
  | ge => ordered (o == .greater || o == .equal)
  | lt => ordered (o == .less)
  | le => ordered (o == .less || o == .equal)
  | ne => ordered (o != .equal)
  | invalid _ => none
where
  /-- An outcome that only ordered floats have. -/
  ordered (p : Bool) : Option Bool := if o = .unordered then none else some p

/-- The outcome of a predicate on two patterns of a type, where it has one. -/
def outcome? (φ : Nat → Nat → FloatOrder) (cc : CondCode) (vt : ValueType) (a b : Nat) :
    Option Bool :=
  if vt.isFloat then cc.onFloats (φ a b)
  else some (cc.onIntegers (BitVec.ofNat vt.bits a) (BitVec.ofNat vt.bits b))

end CondCode

namespace Usim

variable (φ : Nat → Nat → FloatOrder)

/-- A condition after a float compare. -/
def Cond.onFloats (c : Cond) (o : FloatOrder) : Bool :=
  match c with
  | feq => o == .equal
  | fne => o != .equal
  | flt => o == .less
  | fle => o == .less || o == .equal
  | fgt => o == .greater
  | fge => o == .greater || o == .equal
  | fult => o == .less || o == .unordered
  | fule => o != .greater
  | fugt => o == .greater || o == .unordered
  | fuge => o != .less
  | ford => o != .unordered
  | funo => o == .unordered
  | _ => false

/-- A condition on two words; what is no condition never holds. -/
def Cond.holds (c : Cond) (a b : Nat) : Bool :=
  if c.isFloat then c.onFloats (φ a b) else (c.holds? (Int64.ofNat a) (Int64.ofNat b)).getD false

def FlagTest.holds (t : FlagTest) (a b : Nat) : Bool :=
  match t with
  | one c => c.holds φ a b
  | either c c' => c.holds φ a b || c'.holds φ a b

/-! ### Operations -/

/-- What an operation on two patterns gives. -/
def arithmetic? {w : Nat} (op : Opcode) (a b : BitVec w) : Option (BitVec w) :=
  match op with
  | .add => some (a + b)
  | .sub => some (a - b)
  | .mul => some (a * b)
  | .and => some (a &&& b)
  | .or => some (a ||| b)
  | .xor => some (a ^^^ b)
  | .shl => some (a <<< b)
  | .srl => some (a >>> b)
  | .sra => some (a.sshiftRight' b)
  | _ => none

/-- What a node computes with, beside the patterns of its operands. -/
structure Setting where
  op : Opcode
  /-- The number of a constant. -/
  integer : Int64
  /-- The width of the result. -/
  bits : Nat
  /-- The type of the first operand. -/
  operandType : ValueType
  /-- The predicate that the last operand names. -/
  predicate : CondCode
  /-- The condition that the last operand names. -/
  condition : Cond

/-- What a node that computes makes of the patterns of its operands, up to the width of its
result. -/
def Setting.compute? (c : Setting) (xs : List Nat) : Option Nat :=
  match c.op, xs with
  | .constant, _ => some (BitVec.ofInt c.bits c.integer.toInt).toNat
  | .targetConstant, _ => some (BitVec.ofInt c.bits c.integer.toInt).toNat
  | .buildPair, [low, high] => some (low + 2 ^ 32 * high)
  | .extractElement, [x, i] => some (x / 2 ^ (32 * i))
  | .zeroExtend, [x] => some x
  | .signExtend, [x] => some ((BitVec.ofNat c.operandType.bits x).signExtend c.bits).toNat
  | .truncate, [x] => some x
  | .setCC, [a, b, _] => (c.predicate.outcome? φ c.operandType a b).map (·.toNat)
  | .select, [x, t, f] => some (if x ≠ 0 then t else f)
  | .selectCC, [a, b, t, f, _] =>
    (c.predicate.outcome? φ c.operandType a b).map fun p => if p then t else f
  | op, [a, b, t, f, _] =>
    if op = Op.selectCC then some (if c.condition.holds φ a b then t else f) else none
  | op, [a, b] => (arithmetic? op (BitVec.ofNat c.bits a) (BitVec.ofNat c.bits b)).map BitVec.toNat
  | _, _ => none

/-- The predicate that a value names. -/
def predicateAt (g : Graph) : Option Value → CondCode
  | some v => (g.node v.node).condition
  | none => .setFalse

/-- The width of the first result of a node. -/
def resultBits (n : Node) : Nat := (n.types.headD .chain).bits

def settingOf (g : Graph) (n : Node) : Setting where
  op := n.op
  integer := n.integer
  bits := resultBits n
  operandType := (g.operandType? n.operands.head?.join).getD .chain
  predicate := predicateAt g n.operands.getLast?.join
  condition := condOfValue g n.operands.getLast?.join

/-! ### Valuations -/

/-- A pattern for every value. -/
abbrev Valuation := Value → Nat

def valueAt (ρ : Valuation) : Option Value → Nat
  | some v => ρ v
  | none => 0

/-- The patterns that the operands of a node have. -/
def operandValues (ρ : Valuation) (n : Node) : List Nat := n.operands.map (valueAt ρ)

/-- What a node computes from the values of its operands. -/
def computed? (g : Graph) (ρ : Valuation) (n : Node) : Option Nat :=
  ((settingOf g n).compute? φ (operandValues ρ n)).map (· % 2 ^ resultBits n)

/-- The values of a node fit their types, and a node that computes has the value that it
computes. -/
structure ObeysAt (g : Graph) (ρ : Valuation) (id : Nat) : Prop where
  range : ∀ i vt, g.type? ⟨id, i⟩ = some vt → ρ ⟨id, i⟩ < 2 ^ vt.bits
  node : ∀ x, computed? φ g ρ (g.node id) = some x → ρ ⟨id, 0⟩ = x

def Obeys (g : Graph) (ρ : Valuation) : Prop := ∀ id, g.contains id → ObeysAt φ g ρ id

/-- A value as it may be read: an undefined one is anything. -/
def Reads (g : Graph) (ρ : Valuation) (o : Option Value) (x : Nat) : Prop :=
  ∃ v, o = some v ∧ (ρ v = x ∨ (g.node v.node).op = .undef ∧ ∃ vt, g.type? v = some vt ∧
    x < 2 ^ vt.bits)

variable {φ} {g g' : Graph} {ρ ρ' : Valuation} {n : Node}

/-! ### Growth -/

theorem settingOf_congr (h : ∀ v, some v ∈ n.operands → g'.node v.node = g.node v.node) :
    settingOf g' n = settingOf g n := by
  have htype : g'.operandType? n.operands.head?.join = g.operandType? n.operands.head?.join := by
    cases ho : n.operands.head?.join with
    | none => rfl
    | some v =>
      have hv := h v (List.mem_of_mem_head? (Option.join_eq_some_iff.1 ho))
      exact (Graph.type?_eq g' v).trans (hv ▸ (Graph.type?_eq g v).symm)
  have hlast {v : Value} (ho : n.operands.getLast?.join = some v) :
    g'.node v.node = g.node v.node := h v (List.mem_of_getLast? (Option.join_eq_some_iff.1 ho))
  have hpredicate : predicateAt g' n.operands.getLast?.join =
      predicateAt g n.operands.getLast?.join := by
    cases ho : n.operands.getLast?.join with
    | none => rfl
    | some v => rw [predicateAt, hlast ho, predicateAt]
  have hcondition : condOfValue g' n.operands.getLast?.join =
      condOfValue g n.operands.getLast?.join := by
    cases ho : n.operands.getLast?.join with
    | none => rfl
    | some v =>
      simp only [condOfValue, Graph.constant?, Option.bind_some]
      rw [hlast ho]
  simp only [settingOf, htype, hpredicate, hcondition]

theorem settingOf_extends (hx : g.Extends g')
    (hin : ∀ v, some v ∈ n.operands → v.node < g.entries.size) : settingOf g' n = settingOf g n :=
  settingOf_congr fun v hv => hx.node _ (hin v hv)

theorem computed?_congr (h : ∀ v, some v ∈ n.operands → ρ' v = ρ v) :
    computed? φ g ρ' n = computed? φ g ρ n := by
  have hvalues : operandValues ρ' n = operandValues ρ n := by
    refine List.map_congr_left fun o ho => ?_
    cases o with
    | none => rfl
    | some v => exact h v ho
  rw [computed?, computed?, hvalues]

theorem computed?_extends (hx : g.Extends g')
    (hin : ∀ v, some v ∈ n.operands → v.node < g.entries.size)
    (hρ : ∀ v : Value, v.node < g.entries.size → ρ' v = ρ v) :
    computed? φ g' ρ' n = computed? φ g ρ n := by
  rw [computed?_congr fun v hv => hρ v (hin v hv), computed?, computed?, settingOf_extends hx hin]

theorem computed?_lt {x : Nat} (h : computed? φ g ρ n = some x) : x < 2 ^ resultBits n := by
  obtain ⟨y, -, rfl⟩ := Option.map_eq_some_iff.1 h
  exact Nat.mod_lt _ (Nat.two_pow_pos _)

namespace ObeysAt

variable {id k : Nat}

/-- What a node says of a valuation is about the values of the nodes up to it. -/
theorem congr (h : ObeysAt φ g ρ id) (hid : id < k)
    (hin : ∀ v, some v ∈ (g.node id).operands → v.node < k)
    (hρ : ∀ v : Value, v.node < k → ρ' v = ρ v) : ObeysAt φ g ρ' id := by
  refine ⟨fun i vt hvt => ?_, fun x hc => ?_⟩
  · rw [hρ _ hid]
    exact h.range i vt hvt
  · rw [computed?_congr fun v hv => hρ v (hin v hv)] at hc
    rw [hρ _ hid]
    exact h.node x hc

theorem extends_iff (hx : g.Extends g') (hid : id < g.entries.size)
    (hin : ∀ v, some v ∈ (g.node id).operands → v.node < g.entries.size) :
    ObeysAt φ g' ρ id ↔ ObeysAt φ g ρ id := by
  have hcomputed : computed? φ g' ρ (g'.node id) = computed? φ g ρ (g.node id) := by
    rw [hx.node _ hid, computed?, computed?, settingOf_extends hx hin]
  constructor
  · intro h
    exact ⟨fun i vt hvt => h.range i vt (by rwa [hx.type? hid]),
      fun x hc => h.node x (hcomputed.trans hc)⟩
  · intro h
    exact ⟨fun i vt hvt => h.range i vt (by rwa [hx.type? hid] at hvt),
      fun x hc => h.node x (hcomputed.symm.trans hc)⟩

end ObeysAt

/-- A valuation in which one node has the value that it computes. -/
def computing (φ : Nat → Nat → FloatOrder) (g : Graph) (ρ : Valuation) (id : Nat) :
    Valuation := fun v =>
  if v.node = id then if v.result = 0 then (computed? φ g ρ (g.node id)).getD 0 else 0 else ρ v

theorem computing_of_ne {id : Nat} {v : Value} (h : v.node ≠ id) :
    computing φ g ρ id v = ρ v := if_neg h

theorem obeysAt_computing {id : Nat} (hin : ∀ v, some v ∈ (g.node id).operands → v.node ≠ id) :
    ObeysAt φ g (computing φ g ρ id) id := by
  have hsame : computed? φ g (computing φ g ρ id) (g.node id) = computed? φ g ρ (g.node id) :=
    computed?_congr fun v hv => computing_of_ne (hin v hv)
  refine ⟨fun i vt hvt => ?_, fun x hc => ?_⟩
  · by_cases hi : i = 0
    · subst hi
      have hbits : resultBits (g.node id) = vt.bits := by
        rw [Graph.type?_eq] at hvt
        rw [resultBits, List.headD_eq_head?_getD, List.head?_eq_getElem?, hvt, Option.getD_some]
      simp only [computing, if_true]
      cases hc : computed? φ g ρ (g.node id) with
      | none => exact Nat.two_pow_pos _
      | some x => exact hbits ▸ computed?_lt hc
    · simp only [computing, if_true, if_neg hi]
      exact Nat.two_pow_pos _
  · rw [hsame] at hc
    simp [computing, hc]

section

variable (hin : ∀ id, g.contains id → ∀ v, some v ∈ (g.node id).operands → v.node < g.entries.size)
include hin

theorem Obeys.restrict (hx : g.Extends g') (hρ : Obeys φ g' ρ) : Obeys φ g ρ := by
  intro id hid
  have hlt := Graph.contains_lt hid
  exact (ObeysAt.extends_iff hx hlt (hin id hid)).1 (hρ id ((hx.contains _ hlt).trans hid))

theorem exists_obeys (hx : g.Grows g') (hρ : Obeys φ g ρ) :
    ∃ ρ', Obeys φ g' ρ' ∧ ∀ v, v.node < g.entries.size → ρ' v = ρ v := by
  -- the new nodes get their values one after the other
  have hupto (j : Nat) : ∃ ρ' : Valuation, (∀ v, v.node < g.entries.size → ρ' v = ρ v) ∧
      ∀ id < g.entries.size + j, g'.contains id → ObeysAt φ g' ρ' id := by
    induction j with
    | zero =>
      refine ⟨ρ, fun _ _ => rfl, fun id hid hc => ?_⟩
      have hc' : g.contains id := (hx.extension.contains _ hid).symm.trans hc
      exact (ObeysAt.extends_iff hx.extension hid (hin id hc')).2 (hρ id hc')
    | succ j ih =>
      obtain ⟨ρ', hagree, hall⟩ := ih
      have hbefore (id : Nat) (hid : id < g.entries.size + (j + 1))
        (hc : g'.contains id) (v : Value)
          (hv : some v ∈ (g'.node id).operands) : v.node < g.entries.size + j := by
        by_cases hlt : id < g.entries.size
        · rw [hx.extension.node _ hlt] at hv
          exact Nat.lt_add_right _ (hin id ((hx.extension.contains _ hlt).symm.trans hc) v hv)
        · have := hx.earlier id (Nat.le_of_not_lt hlt) (Graph.contains_lt hc) v hv
          omega
      refine ⟨computing φ g' ρ' (g.entries.size + j), fun v hv => ?_, fun id hid hc => ?_⟩
      · rw [computing_of_ne (by omega), hagree v hv]
      · by_cases hlt : id < g.entries.size + j
        · exact (hall id hlt hc).congr hlt (hbefore id hid hc) fun v hv =>
            computing_of_ne (Nat.ne_of_lt hv)
        · obtain rfl : id = g.entries.size + j := by omega
          exact obeysAt_computing fun v hv => Nat.ne_of_lt (hbefore _ hid hc v hv)
  obtain ⟨ρ', hagree, hall⟩ := hupto g'.entries.size
  exact ⟨ρ', fun id hc => hall id (Nat.lt_add_left _ (Graph.contains_lt hc)) hc, hagree⟩

end

end Usim

end GraphLowering
