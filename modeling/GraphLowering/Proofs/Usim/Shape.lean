import GraphLowering.Proofs.FunctionFile.Written
import GraphLowering.Proofs.Graph.Removal
import GraphLowering.Proofs.Usim.Chains
import GraphLowering.Proofs.Usim.Lockstep
import GraphLowering.Usim.Legality

/-!
# Graphs in which rules find what they look for

Rules address operands and results by their numbers. In a shaped graph (`Shaped`) every node has the
operands that its operation takes. What else is asked of the graph is said by a `Regime`: that a
choice has the type of its arm and the low half of a pair is a word (`Formed`), that side effects
are in order (`Ordered`), and that what a rule adds is disciplined and rests on what two sessions
have in common (`Sober`, `Coupled`). If nothing else is asked, nothing is assumed about glue or
about cycles.
-/

namespace GraphLowering.Usim

open GraphLowering.Graph (taken)
open Lower (Session)
open Subtarget (Features)

/-- How much is asked of the types of operands. -/
inductive Typing where
  | basic
  | full
deriving DecidableEq

/-- What is asked of a graph and of what a rule does to it. -/
structure Regime where
  asks : Typing → Prop
  ordered : Prop
  quiet : Prop
  /-- The scope of a rule that is followed on two sessions at once. -/
  pairing : Option (Features × Scope)

namespace Regime

/-- Only types may be asked for. -/
abbrev types (W : Typing → Prop) : Regime := ⟨W, False, False, none⟩

/-- Nothing but the shape is asked for. -/
abbrev bare : Regime := .types fun _ => False

/-- Values keep their types. -/
abbrev typed (K : Regime) : Prop := ∃ l, K.asks l

/-- A rule is followed on two sessions. -/
abbrev strict (K : Regime) : Prop := K.pairing.isSome

theorem strict_iff {K : Regime} : K.strict ↔ ∃ x, K.pairing = some x := Option.isSome_iff_exists

/-- A node that may be built on. -/
def Base (K : Regime) (id : Nat) : Prop := ∀ x, K.pairing = some x → x.2.base id

/-- A node that the sessions have in common. -/
def Shares (K : Regime) (id : Nat) : Prop := ∀ x, K.pairing = some x → x.2.shared id

/-- The node that the rule is for. -/
def Subject (K : Regime) (id : Nat) : Prop := ∀ x, K.pairing = some x → x.2.subject = id

/-- A type that a value may have. -/
structure Allows (K : Regime) (vt : ValueType) : Prop where
  chain : K.ordered → vt ≠ .chain
  glue : K.strict → vt ≠ .glue

theorem Allows.of {K : Regime} {vt : ValueType} (h : vt ≠ .chain ∧ vt ≠ .glue) : K.Allows vt :=
  ⟨fun _ => h.1, fun _ => h.2⟩

theorem allows_word (K : Regime) : K.Allows .i32 := .of (by decide)

theorem Base.shares {K : Regime} {id : Nat} (h : K.Base id) : K.Shares id :=
  fun x hx => x.2.shared_of_base (h x hx)

end Regime

/-- How many operands a node has at least. -/
def arity : Opcode → Nat
  | .target 2 => 1
  | .target 3 | .target 4 => 5
  | op => op.arity

/-- The operands that must have the type of the node: arms of choices, and the chain and the
destination of a branch. -/
def Typing.arms (l : Typing) (op : Opcode) : List Nat :=
  match l with
  | .basic => op.arm?.toList
  | .full => match op with
    | .select => [1, 2]
    | .selectCC | .target 4 => [2, 3]
    | .brCond => [0, 2]
    | .brCC | .target 3 => [0, 4]
    | _ => []

theorem Typing.mem_arms {l : Typing} {op : Opcode} {i : Nat} (h : op.arm? = some i) :
    i ∈ l.arms op := by
  cases l with
  | basic => simp [arms, h]
  | full =>
    unfold Opcode.arm? at h
    split at h <;> cases h <;> decide

/-- The halves of a pair of the type that must be words. -/
def Typing.halves (l : Typing) (vt : ValueType) : List Nat :=
  match l with
  | .basic => if vt = .i64 then [0] else []
  | .full => if vt.isWide then [0, 1] else []

/-- The type that an operand must have. -/
def expected? (l : Typing) (n : Node) (i : Nat) : Option ValueType :=
  if i ∈ l.arms n.op then n.types.head?
  else if n.op = .buildPair ∧ i ∈ n.types.flatMap l.halves then some .i32
  else none

/-- Operations that ask no type of an operand. -/
def isPlain : Opcode → Bool
  | .select | .selectCC | .brCond | .brCC | .target 3 | .target 4 | .buildPair => false
  | _ => true

/-- Operations on values that take no more than `k` operands, ask no type of them and may give this
type. -/
def isMade (op : Opcode) (k : Nat) (vt : ValueType) : Bool :=
  arity op ≤ k && op.gives [vt] && isPlain op && isValue op && isOrdinary op

/-- Operands have the types that they must have. -/
def Formed (l : Typing) (g : Graph) (n : Node) : Prop :=
  ∀ i vt, expected? l n i = some vt → ∃ v, n.operands[i]? = some (some v) ∧ g.type? v = some vt

variable {α β : Type} {K : Regime} {l : Typing} {W : Typing → Prop} {g g' : Graph} {id i : Nat}
  {v w : Value} {n n' : Node} {o : Option Value} {s s' : Session} {op : Opcode} {vt : ValueType}
  {types : List ValueType} {operands : List (Option Value)} {payload : Payload}

theorem expected?_of_isPlain (h : isPlain n.op) : expected? l n i = none := by
  have hnone : l.arms n.op = [] ∧ n.op ≠ .buildPair := by
    unfold isPlain at h
    split at h
    case h_8 =>
      refine ⟨?_, ‹_›⟩
      cases l with
      | basic =>
        dsimp only [Typing.arms, Opcode.arm?]
        split <;> first | rfl | contradiction
      | full =>
        dsimp only [Typing.arms]
        split <;> first | rfl | contradiction
    all_goals cases h
  simp [expected?, hnone]

theorem Formed.plain (h : isPlain n.op) : Formed l g n := fun i vt hi => by
  rw [expected?_of_isPlain h] at hi
  cases hi

theorem Formed.congr (h : Formed l g n) (hop : n'.op = n.op) (ht : n'.types = n.types)
    (ho : ∀ i vt v, expected? l n i = some vt → n.operands[i]? = some (some v) →
      g.type? v = some vt → ∃ w, n'.operands[i]? = some (some w) ∧ g'.type? w = some vt) :
      Formed l g' n' := by
  intro i vt hi
  have hi' : expected? l n i = some vt := by rwa [expected?, hop, ht] at hi
  obtain ⟨v, hv, htype⟩ := h i vt hi'
  exact ho i vt v hi' hv htype

theorem Formed.mono (h : Formed l g n) (ht : ∀ v, some v ∈ n.operands → g'.type? v = g.type? v) :
    Formed l g' n :=
  h.congr rfl rfl fun _ _ v _ hv htype => ⟨v, hv, (ht v (List.mem_of_getElem? hv)).trans htype⟩

/-- A node has the types that are asked of it. -/
structure Typed (K : Regime) (g : Graph) (n : Node) : Prop where
  formed : ∀ l, K.asks l → Formed l g n

theorem Typed.plain (h : isPlain n.op) : Typed K g n := ⟨fun _ _ => .plain h⟩

theorem Typed.mono (h : Typed K g n) (ht : ∀ v, some v ∈ n.operands → g'.type? v = g.type? v) :
    Typed K g' n :=
  ⟨fun l hl => (h.formed l hl).mono ht⟩

/-! ### Values -/

/-- An operand that is a value of the graph. -/
def Filled (g : Graph) (o : Option Value) : Prop := ∃ v, o = some v ∧ g.Has v

theorem Filled.extends (h : Filled g o) (hx : g.Extends g') : Filled g' o :=
  let ⟨v, hv, hhas⟩ := h
  ⟨v, hv, hx.has hhas⟩

theorem filled_of_mem_taken (h : ∀ o ∈ operands, o = none ∨ Filled g o) :
    ∀ o ∈ (taken operands).map some, Filled g o := by
  intro o ho
  obtain ⟨v, hv, rfl⟩ := List.mem_map.1 ho
  obtain ⟨o, ho, rfl⟩ := List.mem_filterMap.1 hv
  exact (h _ ho).resolve_left nofun

/-- A value that a rule may build on. -/
structure Good (K : Regime) (g : Graph) (v : Value) : Prop where
  has : g.Has v
  base : K.Base v.node
  plain : K.strict → Plain g v

theorem Good.extends (h : Good K g v) (hx : g.Extends g') : Good K g' v :=
  ⟨hx.has h.has, h.base, fun hK => (alike_extends hx h.has.lt).plain (h.plain hK)⟩

/-- An operand that a rule may build on. -/
def Holds (K : Regime) (g : Graph) (o : Option Value) : Prop := ∃ v, o = some v ∧ Good K g v

theorem Holds.filled (h : Holds K g o) : Filled g o := h.imp fun _ hv => ⟨hv.1, hv.2.has⟩

theorem Holds.extends (h : Holds K g o) (hx : g.Extends g') : Holds K g' o :=
  h.imp fun _ hv => ⟨hv.1, hv.2.extends hx⟩

theorem Filled.holds (h : Filled g o) (hK : K.pairing = none) : Holds K g o :=
  h.imp fun _ hv => ⟨hv.1, hv.2,
    fun x hx => by simp [hK] at hx, fun h => by simp [Regime.strict, hK] at h⟩

theorem Holds.exists (h : Holds K g o) : ∃ v, o = some v := h.imp fun _ => And.left

theorem Holds.good (h : Holds K g (some v)) : Good K g v := by
  obtain ⟨w, hw, h⟩ := h
  cases hw
  exact h

/-- Such an operand that is no chain if the order is kept. -/
structure Data (K : Regime) (g : Graph) (o : Option Value) : Prop where
  holds : Holds K g o
  datum : K.ordered → Datum g o

theorem Data.filled (h : Data K g o) : Filled g o := h.holds.filled

theorem Data.allows (h : Data K g o) (ht : g.operandType? o = some vt) : K.Allows vt := by
  obtain ⟨v, rfl, hv⟩ := h.holds
  refine ⟨?_, ?_⟩
  · rintro hK rfl
    exact h.datum hK v rfl ht
  · rintro hK rfl
    exact (hv.plain hK).type ht

/-- What operations that may take names take for a chain is a name. -/
def Names (K : Regime) (g : Graph) (op : Opcode) (o : Option Value) : Prop :=
  K.ordered → ∀ v, o = some v → g.type? v = some .chain → (∀ i, isNameSlot op i) ∧
    isName (g.node v.node).op

theorem Names.of_datum (h : K.ordered → Datum g o) : Names K g op o :=
  fun hK v hv ht => absurd ht (h hK v hv)

/-- What may stand beside the chain of an operation: data, or a name if the operation may take
names. -/
structure Beside (K : Regime) (g : Graph) (op : Opcode) (o : Option Value) : Prop where
  holds : Holds K g o
  name : Names K g op o

theorem Data.beside (h : Data K g o) : Beside K g op o := ⟨h.holds, .of_datum h.datum⟩

/-- Where a word may be stored, or an offset added. -/
structure Pointer (K : Regime) (g : Graph) (o : Option Value) : Prop where
  datum : K.ordered → Datum g o
  place : ∃ v, o = some v ∧ g.Has v ∧ K.Base v.node ∧ (K.strict → Plain g v ∨ IsSlot g v.node)

theorem Pointer.filled (h : Pointer K g o) : Filled g o := h.place.imp fun _ hv => ⟨hv.1, hv.2.1⟩

theorem Data.pointer (h : Data K g o) : Pointer K g o :=
  ⟨h.datum, h.holds.imp fun _ hv => ⟨hv.1, hv.2.has, hv.2.base, fun hK => .inl (hv.2.plain hK)⟩⟩

/-- A value that has the type. -/
def OfType (K : Regime) (g : Graph) (vt : ValueType) (o : Option Value) : Prop :=
  ∃ v, o = some v ∧ Good K g v ∧ g.type? v = some vt

theorem OfType.holds (h : OfType K g vt o) : Holds K g o := h.imp fun _ hv => ⟨hv.1, hv.2.1⟩

theorem OfType.filled (h : OfType K g vt o) : Filled g o := h.holds.filled

theorem OfType.operandType? (h : OfType K g vt o) : g.operandType? o = some vt := by
  obtain ⟨v, rfl, -, ht⟩ := h
  exact ht

theorem OfType.data (h : OfType K g vt o) (hvt : K.Allows vt) : Data K g o := by
  refine ⟨h.holds, fun hK v hv hc => hvt.chain hK ?_⟩
  obtain ⟨w, rfl, -, ht⟩ := h
  cases hv
  exact Option.some.inj (ht.symm.trans hc)

theorem OfType.word (h : OfType K g .i32 o) : Data K g o := h.data K.allows_word

theorem Holds.ofType (h : Holds K g o) (ht : g.operandType? o = some vt) : OfType K g vt o := by
  obtain ⟨v, rfl, hv⟩ := h
  exact ⟨v, rfl, hv, ht⟩

theorem length_taken (h : ∀ o ∈ operands, Filled g o) :
    (taken operands).length = operands.length := by
  induction operands with
  | nil => rfl
  | cons o operands ih =>
    obtain ⟨v, rfl, -⟩ := h o (by simp)
    simpa [taken] using ih fun o ho => h o (by simp [ho])

/-! ### Nodes -/

/-- A node has the operands that its operation takes, and its results; if it is asked for, operands
have the types that they must have, and the node keeps the order. -/
structure Proper (K : Regime) (g : Graph) (n : Node) : Prop where
  operands : ∀ o ∈ n.operands, Filled g o
  arity : Usim.arity n.op ≤ n.operands.length
  gives : n.op.gives n.types
  typed : Typed K g n
  ordered : K.ordered → Ordered g n

variable {chain : Option Value}

namespace Proper

theorem has (h : Proper K g n) (hv : some v ∈ n.operands) : g.Has v := by
  obtain ⟨w, hw, hhas⟩ := h.operands _ hv
  cases hw
  exact hhas

theorem grow (h : Proper K g n) (hx : g.Extends g') : Proper K g' n where
  operands o ho := (h.operands o ho).extends hx
  arity := h.arity
  gives := h.gives
  typed := h.typed.mono fun _ hv => hx.type? (h.has hv).lt
  ordered hK := (h.ordered hK).grow (fun _ hv => (h.has hv).lt) hx

theorem value (hv : ∀ o ∈ operands, Filled g o ∧ (K.ordered → Datum g o))
    (hop : Usim.arity op ≤ operands.length) (hgives : op.gives [vt]) (hvalue : isValue op)
    (hvt : K.ordered → vt ≠ .chain)
    (htyped : Typed K g ⟨op, [vt], (taken operands).map some, payload⟩) :
    Proper K g ⟨op, [vt], (taken operands).map some, payload⟩ where
  operands := filled_of_mem_taken fun o ho => .inr (hv o ho).1
  arity := by
    rw [List.length_map, length_taken fun o ho => (hv o ho).1]
    exact hop
  gives := hgives
  typed := htyped
  ordered hK := .value hvalue (hvt hK) fun v hmem => by
    obtain ⟨o, ho, rfl⟩ := List.mem_filterMap.1 hmem
    exact (hv _ ho).2 hK v rfl

theorem chained (before after : List ValueType) (hc : Filled g chain)
    (hr : ∀ o ∈ operands, o = none ∨ Filled g o ∧ Names K g op o)
    (hop : Usim.arity op ≤ (taken (chain :: operands)).length)
    (hgives : op.gives (before ++ .chain :: after)) (hlink : isChained op && !isName op)
    (htyped : Typed K g ⟨op, before ++ .chain :: after,
      (taken (chain :: operands)).map some, payload⟩)
    (hk : ∀ os, chainResult? ⟨op, before ++ .chain :: after, os, payload⟩ = some before.length)
    (ht : K.ordered → ∀ vt ∈ before ++ after, vt ≠ .chain) :
    Proper K g ⟨op, before ++ .chain :: after, (taken (chain :: operands)).map some, payload⟩ := by
  simp only [Bool.and_eq_true, Bool.not_eq_true'] at hlink
  refine ⟨filled_of_mem_taken fun o ho => ?_, by simpa using hop, hgives, htyped, fun hK =>
    .chained _ _ hlink.1 hlink.2 (hk _) (ht hK) fun v hmem => ?_⟩
  · rcases List.mem_cons.1 ho with rfl | ho
    · exact .inr hc
    · exact (hr o ho).imp_right And.left
  · obtain ⟨o, ho, rfl⟩ := List.mem_filterMap.1 hmem
    have hbeside := (hr _ ho).resolve_left nofun
    by_cases hchain : g.type? v = some .chain
    · exact .inr (hbeside.2 hK v rfl hchain)
    · exact .inl hchain

theorem arm (h : Proper K g n) (hl : K.asks l) (hi : i ∈ l.arms n.op)
    (ho : n.operands[i]? = some o) : g.operandType? o = n.types[0]? := by
  obtain ⟨vt, rest, ht⟩ := List.exists_cons_of_ne_nil (Opcode.ne_nil_of_gives h.gives)
  obtain ⟨v, hv, htype⟩ := h.typed.formed l hl i vt (by rw [expected?, if_pos hi, ht]; rfl)
  rw [ho, Option.some.injEq] at hv
  rw [hv, ht]
  exact htype

theorem half (h : Proper K g n) (hl : K.asks l) (hop : n.op = .buildPair) (ht : n.types = [vt])
    (hi : i ∈ l.halves vt) (ho : n.operands[i]? = some o) : g.operandType? o = some .i32 := by
  have harms : l.arms .buildPair = [] := by cases l <;> rfl
  obtain ⟨v, hv, htype⟩ := h.typed.formed l hl i .i32 (by simp [expected?, hop, harms, ht, hi])
  rw [ho, Option.some.injEq] at hv
  rw [hv]
  exact htype

end Proper

/-- A node that may be added. -/
structure Addable (K : Regime) (g : Graph) (op : Opcode) (types : List ValueType)
    (os : List (Option Value)) (payload : Payload) :
    Prop extends Proper K g ⟨op, types, (taken os).map some, payload⟩ where
  base : ∀ v ∈ taken os, K.Base v.node
  sober : K.strict → Sober g op types os payload

namespace Addable

theorem length_of_isChoice (h : op.gives types) (hc : isChoice op) : types.length = 1 := by
  unfold isChoice at hc
  split at hc
  · rw [of_decide_eq_true (p := types = [.chain]) h]
    rfl
  · exact of_decide_eq_true h
  · cases hc

theorem ordinary (h : Proper K g ⟨op, types, (taken operands).map some, payload⟩)
    (hop : isOrdinary op) (hglue : K.strict → .glue ∉ types)
    (hv : ∀ o ∈ operands, o = none ∨ Holds K g o) : Addable K g op types operands payload := by
  have hgood : ∀ v ∈ taken operands, Good K g v := fun v hmem => by
    obtain ⟨o, ho, rfl⟩ := List.mem_filterMap.1 hmem
    exact ((hv _ ho).resolve_left nofun).good
  exact ⟨h, fun v hv => (hgood v hv).base,
    fun hK => .ordinary hop (length_of_isChoice h.gives) (hglue hK) fun v hv =>
    ⟨(hgood v hv).has, (hgood v hv).plain hK⟩⟩

theorem value (hv : ∀ o ∈ operands, Data K g o) (hop : Usim.arity op ≤ operands.length)
    (hgives : op.gives [vt]) (hvalue : isValue op) (hord : isOrdinary op) (hvt : K.Allows vt)
    (htyped : Typed K g ⟨op, [vt], (taken operands).map some, payload⟩) :
    Addable K g op [vt] operands payload :=
  ordinary (.value (fun o ho => ⟨(hv o ho).filled, (hv o ho).datum⟩) hop hgives hvalue
    hvt.chain htyped) hord (fun hK => by simpa using (hvt.glue hK).symm) fun o ho =>
    .inr (hv o ho).holds

theorem made (hv : ∀ o ∈ operands, Data K g o) (hop : isMade op operands.length vt)
    (hvt : K.Allows vt) : Addable K g op [vt] operands payload := by
  simp only [isMade, Bool.and_eq_true, decide_eq_true_eq] at hop
  exact value hv hop.1.1.1.1 hop.1.1.1.2 hop.1.2 hop.2 hvt (.plain hop.1.1.2)

theorem chained (before after : List ValueType) (hc : Holds K g chain)
    (hr : ∀ o ∈ operands, o = none ∨ Beside K g op o)
    (hop : Usim.arity op ≤ (taken (chain :: operands)).length)
    (hgives : op.gives (before ++ .chain :: after))
    (hlink : isChained op && !isName op && isOrdinary op)
    (htyped : Typed K g ⟨op, before ++ .chain :: after,
      (taken (chain :: operands)).map some, payload⟩)
    (hk : ∀ os, chainResult? ⟨op, before ++ .chain :: after, os, payload⟩ = some before.length)
    (ht : ∀ vt ∈ before ++ after, K.Allows vt) :
    Addable K g op (before ++ .chain :: after) (chain :: operands) payload := by
  rw [Bool.and_eq_true] at hlink
  refine ordinary (.chained before after hc.filled (fun o ho => (hr o ho).imp_right fun h =>
    ⟨h.holds.filled, h.name⟩) hop hgives hlink.1 htyped hk fun hK vt hvt => (ht vt hvt).chain hK)
    hlink.2 (fun hK hmem => ?_) fun o ho => ?_
  · have : ValueType.glue ∈ before ++ after := by simpa using hmem
    exact (ht _ this).glue hK rfl
  · rcases List.mem_cons.1 ho with rfl | ho
    · exact .inr hc
    · exact (hr o ho).imp_right Beside.holds

end Addable

/-- All nodes fit, and the root is no pair whose halves must be words. -/
structure Shaped (K : Regime) (g : Graph) : Prop where
  sound : g.Sound
  fits : ∀ id, g.contains id → Proper K g (g.node id)
  root : ∀ l, K.asks l → ∀ v, g.root = some v → ∀ vt, g.type? v = some vt → l.halves vt = []

/-- All nodes are still there and have the results that they had. -/
def KeepsResults (g g' : Graph) : Prop := ∀ id, g.contains id → g'.contains id ∧
    (g'.node id).types = (g.node id).types

namespace KeepsResults

theorem trans {g'' : Graph} (h : KeepsResults g g') (h' : KeepsResults g' g'') :
    KeepsResults g g'' := fun id hid =>
  ⟨(h' id (h id hid).1).1, (h' id (h id hid).1).2.trans (h id hid).2⟩

theorem of_extends (h : g.Extends g') : KeepsResults g g' := fun id hid =>
  ⟨(h.contains id (Graph.contains_lt hid)).trans hid, by rw [h.node id (Graph.contains_lt hid)]⟩

theorem type? (h : KeepsResults g g') (hv : g.Has v) : g'.type? v = g.type? v := by
  rw [Graph.type?_eq, Graph.type?_eq, (h _ hv.1).2]

theorem has (h : KeepsResults g g') (hv : g.Has v) : g'.Has v :=
  ⟨(h _ hv.1).1, by rw [h.type? hv]; exact hv.2⟩

end KeepsResults

theorem OfType.keeps (h : OfType (.types W) g vt o) (hk : KeepsResults g g') :
    OfType (.types W) g' vt o := by
  obtain ⟨v, rfl, hv, ht⟩ := h
  exact ⟨v, rfl, ⟨hk.has hv.has, hv.base, nofun⟩, (hk.type? hv.has).trans ht⟩

/-- Operands have the types of those that were in their places. -/
def Retyped (g g' : Graph) : Prop := ∀ id, g.contains id → ∀ (i : Nat) v,
  (g.node id).operands[i]? = some (some v) → ∃ w, (g'.node id).operands[i]? = some (some w) ∧
    g'.type? w = g.type? v

namespace Shaped

/-- A file gives the type of one operand of a choice and of a branch; the others must be known. -/
theorem of_written (h : FunctionFile.Written g)
    (harms : ∀ l, W l → ∀ id, g.contains id → ∀ i ∈ l.arms (g.node id).op,
      (g.node id).op.arm? ≠ some i → ∃ v, (g.node id).operands[i]? = some (some v) ∧
      g.type? v = (g.node id).types.head?)
    (hhalves : ∀ l, W l → ∀ id, g.contains id → (g.node id).op = .buildPair →
      ∀ vt ∈ (g.node id).types, ∀ i ∈ l.halves vt,
        ∃ v, (g.node id).operands[i]? = some (some v) ∧ g.type? v = some .i32)
    (hroot : ∀ l, W l → ∀ v, g.root = some v → ∀ vt, g.type? v = some vt → l.halves vt = []) :
    Shaped (.types W) g := by
  have harity : ∀ {op : Opcode} {k : Nat}, op.isWritten k → arity op = op.arity := by
    intro op k hop
    cases op <;> first | rfl | cases hop
  refine ⟨h.sound, fun id hid => ⟨h.sound.operands id hid, ?_, h.gives id (Graph.contains_lt hid),
    ⟨fun l hl i vt hi => ?_⟩, nofun⟩, hroot⟩
  · have hop := h.op id (Graph.contains_lt hid)
    rw [harity hop]
    exact Opcode.arity_le_of_isWritten hop
  · unfold expected? at hi
    split at hi
    · by_cases harm : (g.node id).op.arm? = some i
      · exact hi ▸ h.arm id (Graph.contains_lt hid) i harm
      · exact hi ▸ harms l hl id hid i ‹_› harm
    · split at hi
      · rename_i hpair
        cases hi
        obtain ⟨vt, hvt, hi⟩ := List.mem_flatMap.1 hpair.2
        exact hhalves l hl id hid hpair.1 vt hvt i hi
      · cases hi

theorem bare_of_written (h : FunctionFile.Written g) : Shaped .bare g :=
  of_written h nofun nofun nofun

/-- The order may be added; types may only be given up. -/
theorem under {K' : Regime} (h : Shaped K g) (ht : ∀ l, K'.asks l → K.asks l)
    (ho : K'.ordered → ∀ id, g.contains id → Ordered g (g.node id)) : Shaped K' g :=
  ⟨h.sound,
    fun id hid => { h.fits id hid with
      typed := ⟨fun l => (h.fits id hid).typed.formed l ∘ ht l⟩
      ordered := (ho · id hid) },
    fun l => h.root l ∘ ht l⟩

theorem weaken (h : Shaped K g) : Shaped .bare g := h.under nofun nofun

theorem newNode (h : Shaped K g)
    (hproper : Proper K g ⟨op, types, (taken operands).map some, payload⟩) :
    Shaped K (g.newNode op types operands payload).1 := by
  have hx := Graph.Extends.newNode g op types operands payload
  refine ⟨h.sound.newNode fun v hv => hproper.has (List.mem_map_of_mem hv), fun id hid => ?_,
    fun l hl v hroot => ?_⟩
  · rw [Graph.node_newNode]
    split
    · exact hproper.grow hx
    · rename_i hne
      exact (h.fits id (by simpa [Graph.contains_newNode, hne] using hid)).grow hx
  · rw [Graph.root_newNode] at hroot
    rw [hx.type? (h.sound.has_root hroot).lt]
    exact h.root l hl v hroot

theorem of_nodes (h : Shaped K g) (hs : g'.Sound) (hx : g.Extends g')
    (hsize : g'.entries.size = g.entries.size)
    (hroot : ∀ l, K.asks l → ∀ v, g'.root = some v → ∀ vt, g'.type? v = some vt →
      l.halves vt = []) : Shaped K g' := by
  refine ⟨hs, fun id hid => ?_, hroot⟩
  have hlt : id < g.entries.size := hsize ▸ Graph.contains_lt hid
  rw [hx.node id hlt]
  exact (h.fits id ((hx.contains id hlt).symm.trans hid)).grow hx

theorem congr (h : Shaped (.types W) g) (hs : g'.Sound) (hc : ∀ id, g'.contains id → g.contains id)
    (hn : ∀ id, g.contains id → (g'.node id).op = (g.node id).op ∧
      (g'.node id).types = (g.node id).types ∧ (g'.node id).operands.length =
      (g.node id).operands.length)
    (hformed : ∀ l, W l → ∀ id, g.contains id → ∀ i vt v, expected? l (g.node id) i = some vt →
      (g.node id).operands[i]? = some (some v) → g.type? v = some vt →
        ∃ w, (g'.node id).operands[i]? = some (some w) ∧ g'.type? w = some vt)
    (hroot : ∀ l, W l → ∀ v, g'.root = some v → ∀ vt, g'.type? v = some vt → l.halves vt = []) :
    Shaped (.types W) g' := by
  refine ⟨hs, fun id hid => ?_, hroot⟩
  obtain ⟨hop, ht, ho⟩ := hn id (hc id hid)
  have hproper := h.fits id (hc id hid)
  exact ⟨hs.operands id
    hid, by rw [hop, ho]; exact hproper.arity, by rw [hop, ht]; exact hproper.gives,
    ⟨fun l hl => (hproper.typed.formed l hl).congr hop ht (hformed l hl id (hc id hid))⟩, nofun⟩

theorem retyped_replaceValue (h : Shaped (.types W) g) (ht : g.type? w = g.type? v) :
    Retyped g (g.replaceValue (some v) (some w)) := by
  intro id hid i u hu
  by_cases hvw : some v = some w
  · rw [Graph.replaceValue, if_pos hvw]
    exact ⟨u, hu, rfl⟩
  rw [h.sound.exact.node_replaceValue hvw hid]
  simp only [List.getElem?_map, hu, Option.map_some, h.sound.exact.type?_replaceValue hvw]
  unfold Graph.rewire
  split
  · rename_i hmoved
    cases hmoved.1
    exact ⟨w, rfl, ht⟩
  · exact ⟨u, rfl, rfl⟩

theorem replaceValue (h : Shaped (.types W) g) (hw : g.Has w)
    (ht : (∃ l, W l) → g.type? w = g.type? v) :
    Shaped (.types W) (g.replaceValue (some v) (some w)) := by
  by_cases hvw : some v = some w
  · rw [Graph.replaceValue, if_pos hvw]
    exact h
  have htype := h.sound.exact.type?_replaceValue hvw
  refine h.congr (h.sound.replaceValue hvw hw) (fun id hid => ?_) (fun id hid => ?_)
    (fun l hl id hid i vt u _ hu hut => ?_) fun l hl u hu => ?_
  · rwa [Graph.contains_replaceValue hvw] at hid
  · rw [h.sound.exact.node_replaceValue hvw hid]
    exact ⟨rfl, rfl, List.length_map _⟩
  · obtain ⟨x, hx, hxt⟩ := h.retyped_replaceValue (ht ⟨l, hl⟩) id hid i u hu
    exact ⟨x, hx, hxt.trans hut⟩
  · rw [Graph.root_replaceValue hvw] at hu
    rw [htype]
    split at hu <;> rename_i hroot
    · cases hu
      rw [ht ⟨l, hl⟩]
      exact h.root l hl v hroot
    · exact h.root l hl u hu

theorem keeps_replaceValue (h : Shaped (.types W) g) :
    KeepsResults g (g.replaceValue o (some w)) := by
  intro id hid
  by_cases ho : o = some w
  · rw [Graph.replaceValue, if_pos ho]
    exact ⟨hid, rfl⟩
  · rw [Graph.contains_replaceValue ho, h.sound.exact.node_replaceValue ho hid]
    exact ⟨hid, rfl⟩

theorem type?_replaceValue (h : Shaped (.types W) g) (v : Value) :
    (g.replaceValue o (some w)).type? v = g.type? v := by
  by_cases ho : o = some w
  · rw [Graph.replaceValue, if_pos ho]
  · exact h.sound.exact.type?_replaceValue ho v

/-- Values take the places of the results of a node. -/
theorem replaceResults {k : Nat} {values : List (Option Value)} (h : Shaped (.types W) g)
    (hv : ∀ i v, values[i]? = some (some v) → g.Has v ∧
      ((∃ l, W l) → g.type? v = g.type? ⟨id, k + i⟩)) :
    Shaped (.types W) (g.replaceResults id k values) ∧
    KeepsResults g (g.replaceResults id k values) ∧
      ((∃ l, W l) → Retyped g (g.replaceResults id k values)) := by
  induction values generalizing g k with
  | nil => exact ⟨h, fun _ hid => ⟨hid, rfl⟩, fun _ _ _ _ v hv => ⟨v, hv, rfl⟩⟩
  | cons o rest ih =>
    have hrest : ∀ i v, rest[i]? = some (some v) → g.Has v ∧
      ((∃ l, W l) → g.type? v = g.type? ⟨id, k + 1 + i⟩) := fun i v hi => by
        have := hv (i + 1) v (by simpa using hi)
        rwa [Nat.add_assoc, Nat.add_comm 1 i]
    cases o with
    | none => exact ih h hrest
    | some v =>
      obtain ⟨hhas, ht⟩ := hv 0 v rfl
      have htype := h.type?_replaceValue (o := some ⟨id, k⟩) (w := v)
      have hkeep : KeepsResults g (g.replaceValue (some ⟨id, k⟩) (some v)) := h.keeps_replaceValue
      obtain ⟨hs, hh, hr⟩ :=
          ih (k := k + 1) (h.replaceValue (v := ⟨id, k⟩) hhas ht) fun i u hi => by
        rw [htype, htype]
        exact ⟨hkeep.has (hrest i u hi).1, (hrest i u hi).2⟩
      refine ⟨hs, hkeep.trans hh, fun hW a ha i u hu => ?_⟩
      obtain ⟨x, hx, hxt⟩ := h.retyped_replaceValue (v := ⟨id, k⟩) (ht hW) a ha i u hu
      obtain ⟨y, hy, hyt⟩ := hr hW a (hkeep a ha).1 i x hx
      exact ⟨y, hy, hyt.trans hxt⟩

theorem updateOperand {u : Use} (h : Shaped (.types W) g) (hu : g.contains u.user) (hw : g.Has w)
    (hfit : ∀ l, W l → ∀ vt, expected? l (g.node u.user) u.slot = some vt → g.type? w = some vt)
    (hg : g.updateOperand u (some w) = some g') :
    Shaped (.types W) g' ∧ KeepsResults g g' := by
  obtain ⟨hs, hup⟩ := h.sound.updateOperand hu hw hg
  refine ⟨h.congr hs (fun id hid => hup.contains id ▸ hid) (fun id hid => ?_)
    (fun l hl id hid i vt v hi hv ht => ?_) fun l hl v hv => ?_,
    fun id hid => ⟨(hup.contains id).trans hid, ?_⟩⟩
  · rw [hup.node]
    split
    · exact ⟨rfl, rfl, List.length_set⟩
    · exact ⟨rfl, rfl, rfl⟩
  · by_cases hat : id = u.user ∧ u.slot = i
    · obtain ⟨rfl, rfl⟩ := hat
      refine ⟨w, ?_, (hup.type? w).trans (hfit l hl vt hi)⟩
      rw [hup.node, if_pos rfl]
      exact List.getElem?_set_self (List.getElem?_eq_some_iff.1 hv).1
    · refine ⟨v, ?_, (hup.type? v).trans ht⟩
      rw [hup.node]
      split
      · rename_i hid
        rw [List.getElem?_set_ne fun hi => hat ⟨hid, hi⟩]
        exact hv
      · exact hv
  · rw [hup.type?]
    exact h.root l hl v (hup.root ▸ hv)
  · rw [hup.node]
    split <;> rfl

theorem removeDead (h : Shaped (.types W) g) : Shaped (.types W) g.removeDead.1 := by
  have htype : ∀ v, g.removeDead.1.type? v = g.type? v := fun v => by
    rw [Graph.type?_eq, Graph.type?_eq, Graph.removeDead_eq, Graph.node_removeNodes]
  refine h.congr h.sound.removeDead (fun id hid => ?_) (fun id _ => ?_)
    (fun l hl id hid i vt v _ hv ht => ⟨v, ?_, ?_⟩) fun l hl v hv => ?_
  · exact h.sound.contains_of_live (h.sound.contains_removeDead.1 hid)
  · rw [Graph.removeDead_eq, Graph.node_removeNodes]
    exact ⟨rfl, rfl, rfl⟩
  · rw [Graph.removeDead_eq, Graph.node_removeNodes]
    exact hv
  · rw [htype]
    exact ht
  · rw [htype]
    rw [Graph.removeDead_eq, Graph.root_removeNodes] at hv
    exact h.root l hl v hv

end Shaped

/-! ### Nodes that are looked at, and new ones -/

/-- Operations whose operands a rule looks at: those that it is for, and those through which it
looks. -/
def isViewed (op : Opcode) : Bool := isRewritten op || isTransparent op

/-- A node of the graph whose operands may be built on. -/
structure Known (K : Regime) (g : Graph) (id : Nat) (n : Node) : Prop extends Proper K g n where
  contains : g.contains id
  node : g.node id = n
  shares : K.Shares id
  glue : K.strict → .glue ∈ n.types → givesGlue n.op
  view : isViewed n.op → ∀ i v, n.operands[i]? = some (some v) →
    K.Base v.node ∧ (K.strict → Plain g v ∨ (n.op = .store ∧ i = 2) ∧ IsSlot g v.node)

/-- A node that was added. -/
structure Made (K : Regime) (g : Graph) (id : Nat) (n : Node) : Prop extends Proper K g n where
  contains : g.contains id
  node : g.node id = n
  base : K.Base id

theorem Shaped.known (h : Shaped K g) (hK : K.pairing = none) (hid : g.contains id) :
    Known K g id (g.node id) := by
  have hloose : ¬ K.strict := by simp [Regime.strict, hK]
  have hfree : ∀ (P : Features × Scope → Prop) x, K.pairing = some x → P x :=
    fun P x hx => by simp [hK] at hx
  exact ⟨h.fits id hid, hid, rfl, hfree _, (absurd · hloose),
    fun _ _ _ _ => ⟨hfree _, (absurd · hloose)⟩⟩

theorem Known.extends (h : Known K g id n) (hx : g.Extends g') : Known K g' id n := by
  have hlt := Graph.contains_lt h.contains
  refine ⟨h.toProper.grow hx, (hx.contains id hlt).trans h.contains, (hx.node id hlt).trans h.node,
    h.shares, h.glue, fun hop i v hv => ⟨(h.view hop i v hv).1, fun hK => ?_⟩⟩
  have halike := alike_extends hx (h.toProper.has (List.mem_of_getElem? hv)).lt
  exact ((h.view hop i v hv).2 hK).imp halike.plain fun hs => ⟨hs.1, halike.isSlot.2 hs.2⟩

theorem Made.extends (h : Made K g id n) (hx : g.Extends g') : Made K g' id n :=
  ⟨h.toProper.grow hx, (hx.contains id (Graph.contains_lt h.contains)).trans h.contains,
    (hx.node id (Graph.contains_lt h.contains)).trans h.node, h.base⟩

theorem Made.type? (h : Made K g id n) (hi : n.types[i]? = some vt) :
    g.Has ⟨id, i⟩ ∧ g.type? ⟨id, i⟩ = some vt := by
  have ht : g.type? ⟨id, i⟩ = some vt := by rw [Graph.type?_eq, h.node, hi]
  exact ⟨⟨h.contains, by rw [ht]; rfl⟩, ht⟩

/-- Operations whose results may be built on, but for glue. -/
def isFree (op : Opcode) : Bool := op ≠ .copyToReg && op ≠ .frameIndex

theorem isFree_of_isOrdinary (h : isOrdinary op) : isFree op := by
  obtain ⟨hg, hf, -⟩ := isOrdinary_iff.1 h
  have hc : op ≠ .copyToReg := by
    rintro rfl
    cases hg
  simp [isFree, hc, hf]

theorem Made.ofType (h : Made K g id n) (hi : n.types[i]? = some vt) (hop : isFree n.op)
    (hvt : K.strict → vt ≠ .glue) : OfType K g vt (some ⟨id, i⟩) := by
  obtain ⟨hhas, ht⟩ := h.type? hi
  simp only [isFree, ne_eq, Bool.and_eq_true, decide_eq_true_eq] at hop
  refine ⟨_, rfl, ⟨hhas, h.base, fun hK => ⟨?_, ?_, ?_⟩⟩, ht⟩
  · rw [ht]
    exact fun he => hvt hK (Option.some.inj he)
  · rw [IsCopy, h.node]
    exact hop.1
  · rw [IsSlot, h.node]
    exact fun hs => hop.2 hs.1

/-- A chain that leads to another one. -/
structure Link (K : Regime) (g : Graph) (o chain : Option Value) : Prop where
  ofType : OfType K g .chain o
  continues : Continues g o chain

theorem Link.holds (h : Link K g o chain) : Holds K g o := h.ofType.holds

theorem Link.filled (h : Link K g o chain) : Filled g o := h.ofType.filled

theorem Link.isChain (h : Link K g o chain) : IsChain g o :=
  let ⟨v, hv, _, ht⟩ := h.ofType
  ⟨v, hv, ht⟩

theorem Link.trans {a b : Option Value} (h : Link K g o a) (h' : Continues g a b) : Link K g o b :=
  ⟨h.ofType, h.continues.trans h'⟩

/-- A value that leads to a chain. -/
structure LeadsOn (K : Regime) (g : Graph) (o chain : Option Value) : Prop where
  holds : Holds K g o
  continues : Continues g o chain

theorem Made.continues (h : Made K g id ⟨op, types, (taken (chain :: operands)).map some, payload⟩)
    (hi : types[i]? = some .chain) : Continues g (some ⟨id, i⟩) chain :=
  .node h.node hi

theorem Made.link (h : Made K g id ⟨op, types, (taken (chain :: operands)).map some, payload⟩)
    (hi : types[i]? = some .chain) (hop : isFree op) : Link K g (some ⟨id, i⟩) chain :=
  ⟨h.ofType hi hop fun _ => by decide, h.continues hi⟩

end GraphLowering.Usim
