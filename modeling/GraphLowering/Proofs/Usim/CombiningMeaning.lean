import GraphLowering.Proofs.Graph.Removal
import GraphLowering.Proofs.Usim.Combining
import GraphLowering.Proofs.Usim.CompareMeaning

/-!
# What combining keeps

A select with a known outcome has the value of the arm that takes its place, and a branch with a
known outcome goes where the jump goes that takes its place, or nowhere (`TakesPlace`). So every
operand keeps its value, and control leaves the chain of the root for the same block (`Leads`):
after one step, and after all of them (`combining_keeps_meaning`).
-/

namespace GraphLowering.Usim

open GraphLowering.Graph (taken)
open Lower (Session Point Course)
open Lower.Lowering
open Subtarget (Description)

variable {φ : Nat → Nat → FloatOrder} {g g' g₀ : Graph} {ρ : Valuation} {id a : Nat} {u v w : Value}
  {x y : Option Value}

/-! ### Choices as they are made -/

/-- Two values and the condition on them: they are words, unless it is a condition on floats. -/
structure Compares (g : Graph) (c l r : Value) : Prop where
  code : isChoice (g.node c.node).op = false
  words : (condOfValue g (some c)).isFloat = false → g.type? l = some .i32 ∧ g.type? r = some .i32

/-- A select between two values of its type. -/
structure SelectsAt (g : Graph) (id : Nat) (vt : ValueType) (l r t f c : Value) : Prop where
  operands : (g.node id).operands = [some l, some r, some t, some f, some c]
  types : (g.node id).types = [vt]
  data : vt ≠ .chain
  ifTrue : g.type? t = some vt
  ifFalse : g.type? f = some vt
  compares : Compares g c l r

/-- A branch or a jump on a chain, to a block. -/
structure LeavesAt (g : Graph) (id : Nat) (k dest : Value) : Prop where
  types : (g.node id).types = [.chain]
  chain : g.type? k = some .chain
  block : isChoice (g.node dest.node).op = false

def JumpsAt (g : Graph) (id : Nat) : Prop :=
  ∃ k dest, LeavesAt g id k dest ∧ (g.node id).operands = [some k, some dest]

/-- A graph in which selects, branches and jumps have their operands, and what names a predicate or
is a constant is no choice. Every select is one of values, and its arms have its own type: graphs
with a select of chains, or with an arm of another type than its select, are left out. -/
structure ChoicesFormed (g : Graph) : Prop where
  select : ∀ id, g.contains id → (g.node id).op = Op.selectCC →
    ∃ vt l r t f c, SelectsAt g id vt l r t f c
  branch : ∀ id, g.contains id → (g.node id).op = Op.brCC → ∃ k c l r dest, LeavesAt g id k dest ∧
    (g.node id).operands = [some k, some c, some l, some r, some dest] ∧ Compares g c l r
  jump : ∀ id, g.contains id → (g.node id).op = .br → JumpsAt g id
  predicate : ∀ id, g.contains id → (g.node id).op = .setCC ∨ (g.node id).op = .selectCC → ∀ v,
    (g.node id).operands.getLast? = some (some v) → isChoice (g.node v.node).op = false
  constant : ∀ id, g.contains id → (g.node id).constant?.isSome → (g.node id).types.length = 1

/-! ### Where control goes -/

/-- The block for which control leaves a chain at a node, if it does. -/
def exit? (φ : Nat → Nat → FloatOrder) (g : Graph) (ρ : Valuation) (id : Nat) : Option Value :=
  match (g.node id).operands with
  | [_, dest] => if (g.node id).op = .br then dest else none
  | [_, c, l, r, dest] =>
    if (g.node id).op = Op.brCC ∧
      (condOfValue g c).holds φ (valueAt ρ l) (valueAt ρ r) then dest else none
  | _ => none

/-- The block for which control leaves a chain up to a value, if it does: the first node that leaves
it decides. -/
inductive Leads (φ : Nat → Nat → FloatOrder) (g : Graph) (ρ : Valuation) :
    Value → Option Value → Prop where
  | start {v : Value} (h : g.type? v = some .chain → ∀ u, g.chain v.node ≠ .follows u) :
      Leads φ g ρ v none
  | after {u v : Value} {x : Option Value} (ht : g.type? v = some .chain)
      (hu : g.chain v.node = .follows u) (h : Leads φ g ρ u x) :
      Leads φ g ρ v (x.or (exit? φ g ρ v.node))

theorem Leads.unique (h : Leads φ g ρ v x) (h' : Leads φ g ρ v y) : y = x := by
  induction h generalizing y with
  | start hno =>
    cases h' with
    | start => rfl
    | after ht hu => exact absurd hu (hno ht _)
  | after ht hu _ ih =>
    cases h' with
    | start hno => exact absurd hu (hno ht _)
    | after _ hu' h' =>
      cases hu.symm.trans hu'
      rw [ih h']

theorem exists_leads (hs : g.Sound) (ha : g.Acyclic) (hv : g.contains v.node) :
    ∃ x, Leads φ g ρ v x := by
  obtain ⟨n, i⟩ := v
  induction ha.acc hs n generalizing i with
  | intro n _ ih =>
    by_cases h : g.type? ⟨n, i⟩ = some .chain ∧ ∃ u, g.chain n = .follows u
    · obtain ⟨ht, u, hu⟩ := h
      have hn : g.Needs n u.node := Graph.Follows.needs ⟨u.result, hu⟩ hv
      obtain ⟨x, hx⟩ := ih _ hn u.result (hs.contains_of_needs hn)
      exact ⟨_, .after ht hu hx⟩
    · exact ⟨none, .start fun ht u hu => h ⟨ht, u, hu⟩⟩

theorem exit?_of_ne (hbr : (g.node id).op ≠ .br) (hcc : (g.node id).op ≠ Op.brCC) :
    exit? φ g ρ id = none := by
  unfold exit?
  split
  · exact if_neg hbr
  · exact if_neg fun h => hcc h.1
  · rfl

/-! ### Nodes that stay as they are -/

section Congr

variable (hs : g.Sound) (hn : ∀ a, g.contains a → g'.node a = g.node a)
include hn

theorem type?_congr_node (hv : g.contains v.node) : g'.type? v = g.type? v := by
  rw [Graph.type?_eq, Graph.type?_eq, hn _ hv]

theorem condOfValue_congr_node (hv : g.contains v.node) :
    condOfValue g' (some v) = condOfValue g (some v) := by
  simp only [condOfValue, Graph.constant?, Option.bind_some, hn _ hv]

include hs

theorem chain_congr_node (ha : g.contains a) :
    g'.chain a = .follows u ↔ g.chain a = .follows u := by
  rw [Graph.chain_eq_follows, Graph.chain_eq_follows, hn a ha]
  refine and_congr_right fun ho => ?_
  rw [type?_congr_node hn (hs.has_operand ha (List.mem_of_getElem? ho)).1]

theorem exit?_congr_node (ha : g.contains a) : exit? φ g' ρ a = exit? φ g ρ a := by
  unfold exit?
  rw [hn a ha]
  split
  · rfl
  · rename_i c _ _ _ hops
    obtain ⟨v, rfl, hv⟩ := hs.operands a ha c (by rw [hops]; simp)
    rw [condOfValue_congr_node hn hv.1]
  · rfl

theorem Leads.congr_node (h : Leads φ g ρ v x) (hv : g.contains v.node) : Leads φ g' ρ v x := by
  induction h with
  | start hno =>
    refine .start fun ht u hu => ?_
    exact hno (type?_congr_node hn hv ▸ ht) u ((chain_congr_node hs hn hv).1 hu)
  | @after u v x ht hu _ ih =>
    rw [← exit?_congr_node hs hn hv]
    refine .after ((type?_congr_node hn hv).trans ht) ((chain_congr_node hs hn hv).2 hu) (ih ?_)
    exact hs.contains_of_needs (Graph.Follows.needs ⟨u.result, hu⟩ hv)

omit hs

theorem Compares.congr_node {c l r : Value} (h : Compares g c l r) (hc : g.contains c.node)
    (hl : g.contains l.node) (hr : g.contains r.node) : Compares g' c l r := by
  refine ⟨hn _ hc ▸ h.code, fun hf => ?_⟩
  rw [type?_congr_node hn hl, type?_congr_node hn hr]
  exact h.words (condOfValue_congr_node hn hc ▸ hf)

theorem LeavesAt.congr_node {k dest : Value} (h : LeavesAt g a k dest) (ha : g.contains a)
    (hk : g.contains k.node) (hd : g.contains dest.node) : LeavesAt g' a k dest :=
  ⟨hn a ha ▸ h.types, (type?_congr_node hn hk).trans h.chain, hn _ hd ▸ h.block⟩

include hs

theorem ChoicesFormed.congr_node (h : ChoicesFormed g)
    (hnew : ∀ a, g'.contains a → ¬ g.contains a → (g'.node a).op = .br ∧ JumpsAt g' a) :
    ChoicesFormed g' := by
  have hold {a : Nat} {op : Opcode} (ha : g'.contains a) (hop : (g'.node a).op = op)
    (hne : op ≠ .br) :
      g.contains a ∧ (g.node a).op = op := by
    by_cases hc : g.contains a
    · exact ⟨hc, hn a hc ▸ hop⟩
    · exact absurd (hop.symm.trans (hnew a ha hc).1) hne
  have hin {a : Nat} {o : Value} {ops : List (Option Value)} (ha : g.contains a)
    (hops : (g.node a).operands = ops)
      (ho : some o ∈ ops) : g.contains o.node := (hs.has_operand ha (hops ▸ ho)).1
  refine ⟨fun a ha hop => ?_, fun a ha hop => ?_, fun a ha hop => ?_, fun a ha hop u hu => ?_,
    fun a ha hk => ?_⟩
  · obtain ⟨hc, hop⟩ := hold ha hop nofun
    obtain ⟨vt, l, r, t, f, c, hsel⟩ := h.select a hc hop
    have hin {o : Value} := hin (o := o) hc hsel.operands
    exact ⟨vt, l, r, t, f, c, hn a hc ▸ hsel.operands, hn a hc ▸ hsel.types, hsel.data,
      (type?_congr_node hn (hin (by simp))).trans hsel.ifTrue,
      (type?_congr_node hn (hin (by simp))).trans hsel.ifFalse,
      hsel.compares.congr_node hn (hin (by simp)) (hin (by simp)) (hin (by simp))⟩
  · obtain ⟨hc, hop⟩ := hold ha hop nofun
    obtain ⟨k, c, l, r, dest, hl, hops, hcmp⟩ := h.branch a hc hop
    have hin {o : Value} := hin (o := o) hc hops
    exact ⟨k, c, l, r, dest, hl.congr_node hn hc (hin (by simp)) (hin (by simp)), hn a hc ▸ hops,
      hcmp.congr_node hn (hin (by simp)) (hin (by simp)) (hin (by simp))⟩
  · by_cases hc : g.contains a
    · obtain ⟨k, dest, hl, hops⟩ := h.jump a hc (hn a hc ▸ hop)
      have hin {o : Value} := hin (o := o) hc hops
      exact ⟨k, dest, hl.congr_node hn hc (hin (by simp)) (hin (by simp)), hn a hc ▸ hops⟩
    · exact (hnew a ha hc).2
  · have hc : g.contains a := by
      rcases hop with hop | hop
      · exact (hold ha hop nofun).1
      · exact (hold ha hop nofun).1
    rw [hn a hc] at hop hu
    rw [hn _ (hin hc rfl (List.mem_of_getLast? hu))]
    exact h.predicate a hc hop u hu
  · have hc : g.contains a := by
      by_contra hc
      rw [Node.constant?, (hnew a ha hc).1] at hk
      cases hk
    rw [hn a hc] at hk ⊢
    exact h.constant a hc hk

theorem ObeysAt.congr_node (h : ObeysAt φ g ρ a) (ha : g.contains a) : ObeysAt φ g' ρ a := by
  refine ⟨fun i vt ht => h.range i vt (type?_congr_node hn (v := ⟨a, i⟩) ha ▸ ht),
    fun x hx => h.node x ?_⟩
  rw [← hx, computed?, computed?, hn a ha, settingOf_congr fun v hv =>
    hn _ (hs.has_operand ha hv).1]

end Congr

/-! ### Known outcomes -/

theorem Obeys.word_of_constant {k : Int64} (h : Obeys φ g ρ) (hc : ChoicesFormed g)
    (hv : g.contains v.node) (ht : g.type? v = some .i32) (hk : g.constant? (some v) = some k) :
    BitVec.ofNat 32 (ρ v) = k.toInt32.toBitVec := by
  have hone := hc.constant _ hv (Option.isSome_iff_exists.2 ⟨k, hk⟩)
  rw [h.value_constant hone hv ht hk, show ValueType.i32.bits = 32 from rfl, BitVec.ofNat_toNat,
    BitVec.setWidth_eq, ← Int32.toBitVec_ofInt, ← Int64.toInt32_ofInt, Int64.ofInt_toInt]

theorem Cond.onIntegers_self (c : Cond) (b : BitVec 32) :
    c.onIntegers b b = c.onIntegers 0#32 0#32 := by
  cases c <;> simp [onIntegers, BitVec.slt, BitVec.sle, BitVec.ult, BitVec.ule]

theorem holds_of_knownOutcome? {l r c : Value} {p : Bool} (hρ : Obeys φ g ρ) (hc : ChoicesFormed g)
    (hl : g.contains l.node) (hr : g.contains r.node) (hcmp : Compares g c l r)
    (h : knownOutcome? g (condOfValue g (some c)) (some l) (some r) = some p) :
    (condOfValue g (some c)).holds φ (ρ l) (ρ r) = p := by
  have hwords := hcmp.words
  generalize condOfValue g (some c) = cond at h hwords ⊢
  unfold knownOutcome? at h
  split at h
  · cases h
    rfl
  · cases h
    rfl
  split at h
  · cases h
  rename_i hfloat
  rw [Bool.not_eq_true] at hfloat
  obtain ⟨htl, htr⟩ := hwords hfloat
  rw [Cond.holds_of_isWord hfloat]
  split at h
  · rename_i a b ha hb
    rw [hρ.word_of_constant hc hl htl ha, hρ.word_of_constant hc hr htr hb, ← Cond.getD_holds?, h]
    rfl
  · split at h
    · rename_i he
      cases he
      rw [Cond.onIntegers_self]
      exact (Cond.getD_holds? cond 0 0).symm.trans (by rw [h]; rfl)
    · cases h

/-! ### A value in the place of a choice -/

/-- The value that is taken where a value was: `v` has the place of the first result of a node. -/
def swap (id : Nat) (v u : Value) : Value := if u = ⟨id, 0⟩ then v else u

/-- One value has the place of another everywhere. -/
structure Swapped (g g' : Graph) (id : Nat) (v : Value) : Prop where
  contains : ∀ a, g'.contains a = g.contains a
  alike : ∀ a, Alike (g.node a) (g'.node a)
  operands : ∀ a, g.contains a → (g'.node a).operands = (g.node a).operands.map
    (Option.map (swap id v))
  root : g'.root = g.root.map (swap id v)

theorem Swapped.of_rewired (hr : g.Rewired g' id (Graph.valuesFrom 0 [some v])) (hs : g.Sound)
    (hv : ¬ g.Reaches v.node id) : Swapped g g' id v := by
  have hvalue (i : Nat) : Graph.valuesFrom 0 [some v] i = if i = 0 then some v else none := by
    rw [Graph.valuesFrom_some, Graph.valuesFrom_nil]
  refine ⟨hr.contains, alike_rewired hr, fun a ha => ?_, ?_⟩
  · rw [hr.node a ha]
    refine List.map_congr_left fun o ho => ?_
    obtain ⟨⟨n, i⟩, rfl, -⟩ := hs.operands a ha o ho
    rw [Graph.rewireBy, Option.map_some, swap, hvalue]
    by_cases hn : n = id
    · subst hn
      have hne : v.node ≠ a := by
        rintro rfl
        exact hv (.single (Graph.needs_iff.2 ⟨ha, i, ho⟩))
      by_cases hi : i = 0 <;> simp [hi, hne]
    · simp [hn]
  · rw [hr.root]
    refine congrArg (g.root.map ·) (funext fun u => ?_)
    obtain ⟨n, i⟩ := u
    rw [Graph.rewireRoot, swap, hvalue]
    by_cases hn : n = id <;> by_cases hi : i = 0 <;> simp [hn, hi]

/-- A value that may take the place of a choice: it is equal, and control leaves the chain there as
it did at the choice. -/
structure TakesPlace (φ : Nat → Nat → FloatOrder) (g : Graph) (ρ : Valuation) (id : Nat)
    (v : Value) : Prop where
  choice : isChoice (g.node id).op
  has : g.Has v
  apart : ¬ g.Reaches v.node id
  type : g.type? v = g.type? ⟨id, 0⟩
  value : ρ v = ρ ⟨id, 0⟩
  control : g.type? ⟨id, 0⟩ = some .chain → ∃ k, g.chain id = .follows k ∧
    (v = k ∧ exit? φ g ρ id = none ∨ g.chain v.node = .follows k ∧
      exit? φ g ρ v.node = exit? φ g ρ id)

theorem Setting.compute?_congr {c c' : Setting} (hop : c'.op = c.op) (hint : c'.integer = c.integer)
    (hbits : c'.bits = c.bits) (htype : c'.operandType = c.operandType)
    (hp : c.op = .setCC ∨ c.op = .selectCC → c'.predicate = c.predicate)
    (hc : c.op = Op.selectCC → c'.condition = c.condition) (xs : List Nat) :
    c'.compute? φ xs = c.compute? φ xs := by
  obtain ⟨op, integer, bits, operandType, p, q⟩ := c
  obtain ⟨op', integer', bits', operandType', p', q'⟩ := c'
  dsimp only at hop hint hbits htype hp hc
  subst hop hint hbits htype
  unfold Setting.compute?
  dsimp only
  split
  all_goals first | rfl | skip
  · rw [hp (.inl rfl)]
  · rw [hp (.inr rfl)]
  · split
    · rename_i h
      rw [hc h]
    · rfl

section Swap

variable (h : Swapped g g' id v) (hp : TakesPlace φ g ρ id v)
include h

theorem Swapped.type? (u : Value) : g'.type? u = g.type? u := by
  rw [Graph.type?_eq, Graph.type?_eq, (h.alike _).types]

theorem Swapped.constant? (a : Nat) : (g'.node a).constant? = (g.node a).constant? := by
  simp only [Node.constant?, Node.integer, (h.alike a).op, (h.alike a).payload]

theorem Swapped.condOfValue (o : Option Value) : condOfValue g' o = condOfValue g o := by
  cases o with
  | none => rfl
  | some u => simp only [Usim.condOfValue, Graph.constant?, Option.bind_some, h.constant?]

omit h
include hp

theorem TakesPlace.value_swap (u : Value) : ρ (swap id v u) = ρ u := by
  unfold swap
  split
  · rename_i he
    rw [he, hp.value]
  · rfl

theorem TakesPlace.type_swap (u : Value) : g.type? (swap id v u) = g.type? u := by
  unfold swap
  split
  · rename_i he
    rw [he, hp.type]
  · rfl

theorem TakesPlace.swap_eq (hu : isChoice (g.node u.node).op = false) : swap id v u = u := by
  refine if_neg fun he => ?_
  rw [he, hp.choice] at hu
  cases hu

include h

theorem Swapped.operandValues (ha : g.contains a) :
    operandValues ρ (g'.node a) = operandValues ρ (g.node a) := by
  rw [Usim.operandValues, Usim.operandValues, h.operands a ha, List.map_map]
  refine List.map_congr_left fun o _ => ?_
  cases o with
  | none => rfl
  | some u => exact hp.value_swap u

theorem Swapped.obeys (hc : ChoicesFormed g) (hρ : Obeys φ g ρ) : Obeys φ g' ρ := by
  intro a ha
  rw [h.contains] at ha
  obtain ⟨hrange, hnode⟩ := hρ a ha
  refine ⟨fun i vt ht => hrange i vt (h.type? _ ▸ ht), fun x hx => hnode x ?_⟩
  rw [← hx]
  have hbits : resultBits (g'.node a) = resultBits (g.node a) := by
    rw [resultBits, resultBits, (h.alike a).types]
  have hlast : (g'.node a).operands.getLast?.join = (g.node a).operands.getLast?.join.map
      (swap id v) := by
    rw [h.operands a ha, List.getLast?_map]
    cases (g.node a).operands.getLast? with
    | none => rfl
    | some o => rfl
  -- what names a predicate or a condition is no choice, so it has not changed
  have hsame (hu : ∀ u, (g.node a).operands.getLast? = some (some u) →
    isChoice (g.node u.node).op = false) :
      (g'.node a).operands.getLast?.join = (g.node a).operands.getLast?.join := by
    rw [hlast]
    cases ho : (g.node a).operands.getLast?.join with
    | none => rfl
    | some u => rw [Option.map_some, hp.swap_eq (hu u (Option.join_eq_some_iff.1 ho))]
  rw [computed?, computed?, hbits, h.operandValues hp ha]
  refine congrArg (Option.map _)
    (Eq.symm (Setting.compute?_congr (h.alike a).op ?_ hbits ?_ (fun hop => ?_) (fun hop => ?_) _))
  · simp only [settingOf, Node.integer, (h.alike a).payload]
  · simp only [settingOf, h.operands a ha, List.head?_map]
    cases (g.node a).operands.head? with
    | none => rfl
    | some o =>
      cases o with
      | none => rfl
      | some u =>
        show (g'.type? (swap id v u)).getD .chain = (g.type? u).getD .chain
        rw [h.type?, hp.type_swap]
  · rw [settingOf, settingOf, hsame (hc.predicate a ha hop)]
    cases (g.node a).operands.getLast?.join with
    | none => rfl
    | some u => simp only [predicateAt, Node.condition, (h.alike _).payload]
  · obtain ⟨_, _, _, _, _, c, hsel⟩ := hc.select a ha hop
    rw [settingOf, settingOf, hsame (fun u hu => ?_), h.condOfValue]
    rw [hsel.operands] at hu
    cases hu
    exact hsel.compares.code

theorem Compares.swapped {c l r : Value} (hcmp : Compares g c l r) :
    Compares g' c (swap id v l) (swap id v r) := by
  refine ⟨(congrArg isChoice (h.alike _).op).trans hcmp.code, fun hf => ?_⟩
  rw [h.condOfValue] at hf
  rw [h.type?, h.type?, hp.type_swap, hp.type_swap]
  exact hcmp.words hf

theorem LeavesAt.swapped {k dest : Value} (hl : LeavesAt g a k dest) :
    LeavesAt g' a (swap id v k) dest :=
  ⟨(h.alike a).types.trans hl.types, by rw [h.type?, hp.type_swap, hl.chain],
    (congrArg isChoice (h.alike _).op).trans hl.block⟩

theorem ChoicesFormed.swapped (hc : ChoicesFormed g) : ChoicesFormed g' := by
  have hcon (a : Nat) (ha : g'.contains a) : g.contains a := h.contains a ▸ ha
  refine ⟨fun a ha hop => ?_, fun a ha hop => ?_, fun a ha hop => ?_, fun a ha hop u hu => ?_,
    fun a ha hk => ?_⟩
  · obtain ⟨vt, l, r, t, f, c, hsel⟩ := hc.select a (hcon a ha) ((h.alike a).op ▸ hop)
    refine ⟨vt, swap id v l, swap id v r, swap id v t, swap id v f, c, ?_,
      (h.alike a).types.trans hsel.types, hsel.data, ?_, ?_, hsel.compares.swapped h hp⟩
    · rw [h.operands a (hcon a ha), hsel.operands]
      simp only [List.map_cons, Option.map_some, List.map_nil, hp.swap_eq hsel.compares.code]
    · rw [h.type?, hp.type_swap, hsel.ifTrue]
    · rw [h.type?, hp.type_swap, hsel.ifFalse]
  · obtain ⟨k, c, l, r, dest, hl, hops, hcmp⟩ := hc.branch a (hcon a ha) ((h.alike a).op ▸ hop)
    refine ⟨_, c, _, _, dest, hl.swapped h hp, ?_, hcmp.swapped h hp⟩
    rw [h.operands a (hcon a ha), hops]
    simp only [List.map_cons, Option.map_some, List.map_nil, hp.swap_eq hcmp.code,
      hp.swap_eq hl.block]
  · obtain ⟨k, dest, hl, hops⟩ := hc.jump a (hcon a ha) ((h.alike a).op ▸ hop)
    refine ⟨_, dest, hl.swapped h hp, ?_⟩
    rw [h.operands a (hcon a ha), hops]
    simp only [List.map_cons, Option.map_some, List.map_nil, hp.swap_eq hl.block]
  · rw [h.operands a (hcon a ha), List.getLast?_map, Option.map_eq_some_iff] at hu
    obtain ⟨o, ho, hu⟩ := hu
    obtain ⟨w, rfl, rfl⟩ := Option.map_eq_some_iff.1 hu
    have hw := hc.predicate a (hcon a ha) ((h.alike a).op ▸ hop) w ho
    rw [hp.swap_eq hw]
    exact (congrArg isChoice (h.alike _).op).trans hw
  · rw [(h.alike a).types]
    exact hc.constant a (hcon a ha) (h.constant? a ▸ hk)

theorem Swapped.exit? (hc : ChoicesFormed g) (ha : g.contains a) :
    exit? φ g' ρ a = exit? φ g ρ a := by
  by_cases hbr : (g.node a).op = .br
  · obtain ⟨k, dest, hl, hops⟩ := hc.jump a ha hbr
    simp only [Usim.exit?, h.operands a ha, hops, (h.alike a).op, List.map_cons, List.map_nil,
      Option.map_some, hp.swap_eq hl.block]
  by_cases hcc : (g.node a).op = Op.brCC
  · obtain ⟨k, c, l, r, dest, hl, hops, hcmp⟩ := hc.branch a ha hcc
    simp only [Usim.exit?, h.operands a ha, hops, (h.alike a).op, List.map_cons, List.map_nil,
      Option.map_some, hp.swap_eq hl.block, hp.swap_eq hcmp.code, h.condOfValue,
      valueAt, hp.value_swap]
    rfl
  · rw [exit?_of_ne hbr hcc, exit?_of_ne ((h.alike a).op ▸ hbr) ((h.alike a).op ▸ hcc)]

theorem Swapped.chain (ha : g.contains a) :
    g'.chain a = .follows w ↔ ∃ u, g.chain a = .follows u ∧ swap id v u = w := by
  simp only [Graph.chain_eq_follows, h.operands a ha, List.getElem?_map,
    Option.map_eq_some_iff, h.type?]
  constructor
  · rintro ⟨⟨o, ho, u, rfl, rfl⟩, ht⟩
    exact ⟨u, ⟨ho, hp.type_swap u ▸ ht⟩, rfl⟩
  · rintro ⟨u, ⟨ho, ht⟩, rfl⟩
    exact ⟨⟨_, ho, u, rfl, rfl⟩, (hp.type_swap u).trans ht⟩

/-- Control goes where it went. -/
theorem Leads.swapped (hs : g.Sound) (ha : g.Acyclic) (hc : ChoicesFormed g) (hl : Leads φ g ρ u x)
    (hu : g.contains u.node) : Leads φ g' ρ (swap id v u) x := by
  induction hl with
  | @start u hno =>
    refine .start fun ht w hw => ?_
    rw [h.type?, hp.type_swap] at ht
    by_cases he : u = ⟨id, 0⟩
    · subst he
      obtain ⟨k, hk, -⟩ := hp.control ht
      exact hno ht k hk
    · rw [show swap id v u = u from if_neg he] at hw
      obtain ⟨k, hk, -⟩ := (h.chain hp hu).1 hw
      exact hno ht k hk
  | @after k u x ht hk _ ih =>
    have ih := ih (hs.contains_of_needs (Graph.Follows.needs ⟨k.result, hk⟩ hu))
    by_cases he : u = ⟨id, 0⟩
    · subst he
      rw [show swap id v ⟨id, 0⟩ = v from if_pos rfl]
      obtain ⟨k', hk', hcases⟩ := hp.control ht
      cases hk.symm.trans hk'
      have hne : swap id v k = k := if_neg fun he =>
        ha.not_reaches (Graph.Follows.needs ⟨k.result, hk⟩ hu) (by rw [he]; exact .refl)
      rw [hne] at ih
      rcases hcases with ⟨rfl, hexit⟩ | ⟨hchain, hexit⟩
      · rw [hexit, Option.or_none]
        exact ih
      · rw [← hexit, ← h.exit? hp hc hp.has.1]
        exact .after ((h.type? v).trans (hp.type.trans ht))
          ((h.chain hp hp.has.1).2 ⟨k, hchain, hne⟩) ih
    · rw [show swap id v u = u from if_neg he, ← h.exit? hp hc hu]
      exact .after ((h.type? u).trans ht) ((h.chain hp hu).2 ⟨k, hk, rfl⟩) ih

end Swap

/-! ### What a step keeps -/

/-- A graph that is left of another one: under one valuation operands have the values that they had,
and control goes where it went. -/
structure Same (φ : Nat → Nat → FloatOrder) (ρ : Valuation) (g₀ g : Graph) : Prop where
  sound : g.Sound
  acyclic : g.Acyclic
  chooses : ChoicesFormed g
  obeys : Obeys φ g ρ
  fresh : ∀ v, g.entries.size ≤ v.node → ρ v = 0
  size : g₀.entries.size ≤ g.entries.size
  operands : ∀ a, g.contains a → a < g₀.entries.size → operandValues ρ (g.node a) =
    operandValues ρ (g₀.node a)
  leads : ∀ r₀, g₀.root = some r₀ → ∃ r, g.root = some r ∧ ∀ x, Leads φ g₀ ρ r₀ x → Leads φ g ρ r x

namespace Same

variable (h : Same φ ρ g₀ g)
include h

theorem contains_root {r : Value} (hr : g.root = some r) : g.contains r.node := by
  obtain ⟨w, hw, hhas⟩ := h.sound.root
  cases hr.symm.trans hw
  exact hhas.1

theorem swapped (hp : TakesPlace φ g ρ id v) : Same φ ρ g₀ (g.replaceResults id 0 [some v]) := by
  have hne : v.node ≠ id := fun he => hp.apart (he ▸ .refl)
  have hvalues : ∀ w, some w ∈ [some v] → g.Has w ∧ w.node ≠ id := by
    intro w hw
    cases List.mem_singleton.1 hw
    exact ⟨hp.has, hne⟩
  obtain ⟨hs, hr⟩ := h.sound.replaceResults (k := 0) hvalues
  have hsw := Swapped.of_rewired hr h.sound hp.apart
  refine ⟨hs, h.acyclic.rewired hr fun i w hw => ?_, h.chooses.swapped hsw hp,
    hsw.obeys hp h.chooses h.obeys, fun w hw => h.fresh w (hr.size ▸ hw), hr.size ▸ h.size,
    fun a ha hlt => ?_, fun r₀ hr₀ => ?_⟩
  · rw [Graph.valuesFrom_some, Graph.valuesFrom_nil] at hw
    split at hw <;> cases hw
    exact hp.apart
  · rw [hsw.contains] at ha
    rw [hsw.operandValues hp ha, h.operands a ha hlt]
  · obtain ⟨r, hroot, hleads⟩ := h.leads r₀ hr₀
    refine ⟨swap id v r, by rw [hsw.root, hroot, Option.map_some], fun x hx => ?_⟩
    exact (hleads x hx).swapped hsw hp h.sound h.acyclic h.chooses (h.contains_root hroot)

theorem congr_node (hs : g'.Sound) (ha : g'.Acyclic) (hn : ∀ a, g.contains a → g'.node a = g.node a)
    (hsize : g.entries.size ≤ g'.entries.size) (hroot : g'.root = g.root)
    (hnew : ∀ a, g'.contains a → ¬ g.contains a → g.entries.size ≤ a ∧ (g'.node a).op = .br ∧
      JumpsAt g' a) :
    Same φ ρ g₀ g' := by
  refine ⟨hs, ha, h.chooses.congr_node h.sound hn fun a ha hc => (hnew a ha hc).2, fun a ha => ?_,
    fun v hv => h.fresh v (hsize.trans hv), h.size.trans hsize, fun a ha hlt => ?_,
    fun r₀ hr₀ => ?_⟩
  · by_cases hc : g.contains a
    · exact (h.obeys a hc).congr_node h.sound hn hc
    obtain ⟨hle, hop, k, dest, hl, hops⟩ := hnew a ha hc
    have hzero (i : Nat) : ρ ⟨a, i⟩ = 0 := h.fresh _ hle
    refine ⟨fun i vt _ => by rw [hzero]; exact Nat.two_pow_pos _, fun x hx => ?_⟩
    simp [computed?, settingOf, operandValues, hop, hops, Setting.compute?, arithmetic?] at hx
  · have hc : g.contains a := by
      by_contra hc
      exact absurd (h.size.trans (hnew a ha hc).1) (Nat.not_le.2 hlt)
    rw [hn a hc, h.operands a hc hlt]
  · obtain ⟨r, hr, hleads⟩ := h.leads r₀ hr₀
    exact ⟨r, hroot.trans hr, fun x hx => (hleads x hx).congr_node h.sound hn (h.contains_root hr)⟩

theorem jump {k dest : Value} (hk : g.Has k) (hd : g.Has dest) (hchain : g.type? k = some .chain)
    (hblock : isChoice (g.node dest.node).op = false) :
    Same φ ρ g₀ (g.single .br .chain [some k, some dest]).1 := by
  have hmem : ∀ v ∈ taken [some k, some dest], g.Has v :=
    show ∀ v ∈ [k, dest], g.Has v by simp [hk, hd]
  have hn (a : Nat) (ha : g.contains a) : (g.single .br .chain [some k, some dest]).1.node
    a = g.node a := Graph.node_newNode_of_ne _ _ _ _ _ (Nat.ne_of_lt (Graph.contains_lt ha))
  have hnode : (g.single .br .chain [some k, some dest]).1.node g.entries.size =
      ⟨.br, [.chain], [some k, some dest], .none⟩ := Graph.node_newNode_self ..
  refine h.congr_node (h.sound.newNode hmem) (h.acyclic.newNode h.sound hmem) hn ?_
    (Graph.root_newNode ..) fun a ha hc => ?_
  · exact (Graph.size_newNode ..).symm ▸ Nat.le_succ _
  · obtain rfl : a = g.entries.size := by simpa [Graph.single, Graph.contains_newNode, hc] using ha
    refine ⟨Nat.le_refl _, by rw [hnode], k, dest, ⟨by rw [hnode], ?_, ?_⟩, by rw [hnode]⟩
    · exact (type?_congr_node hn hk.1).trans hchain
    · rw [hn _ hd.1]
      exact hblock

theorem removeDead : Same φ ρ g₀ g.removeDead.1 := by
  refine h.congr_node h.sound.removeDead (h.acyclic.removeDead h.sound) (fun a _ => ?_) ?_ ?_
    fun a ha hc => ?_
  · rw [Graph.removeDead_eq, Graph.node_removeNodes]
  · rw [Graph.removeDead_eq, Graph.size_removeNodes]
  · rw [Graph.removeDead_eq, Graph.root_removeNodes]
  · exact absurd (h.sound.contains_of_live (h.sound.contains_removeDead.1 ha)) hc

/-- A select has the value of the arm that its condition selects. -/
theorem value_select {vt : ValueType} {l r t f c : Value} (hc : g.contains id)
    (hop : (g.node id).op = Op.selectCC) (hsel : SelectsAt g id vt l r t f c) :
    ρ ⟨id, 0⟩ = if (condOfValue g (some c)).holds φ (ρ l) (ρ r) then ρ t else ρ f := by
  have hlt {u : Value} (hu : some u ∈ (g.node id).operands) (ht : g.type? u = some vt) :
    ρ u < 2 ^ vt.bits := (h.obeys u.node (h.sound.has_operand hc hu).1).range u.result vt ht
  have hvalue := h.obeys.value (v := ⟨id, 0⟩)
    (x := if (condOfValue g (some c)).holds φ (ρ l) (ρ r) then ρ t else ρ f) rfl hc hsel.types <| by
      simp only [Setting.compute?, settingOf, hop, operandValues, hsel.operands, List.map_cons,
        List.map_nil, Op.selectCC]
      rfl
  rw [hvalue]
  refine Nat.mod_eq_of_lt ?_
  split
  · exact hlt (by rw [hsel.operands]; simp) hsel.ifTrue
  · exact hlt (by rw [hsel.operands]; simp) hsel.ifFalse

theorem takesPlace_operand (hc : g.contains id) (hop : isChoice (g.node id).op)
    (hv : some v ∈ (g.node id).operands) (ht : g.type? v = g.type? ⟨id, 0⟩)
    (hvalue : ρ v = ρ ⟨id, 0⟩) (hcontrol : g.type? ⟨id, 0⟩ = some .chain →
      g.chain id = .follows v ∧ exit? φ g ρ id = none) : TakesPlace φ g ρ id v :=
  ⟨hop, h.sound.has_operand hc hv, h.acyclic.not_reaches (Graph.needs_iff.2 ⟨hc, v.result, hv⟩), ht,
    hvalue, fun hchain => ⟨v, (hcontrol hchain).1, .inl ⟨rfl, (hcontrol hchain).2⟩⟩⟩

theorem takesPlace_select {o : Option Value} (hc : g.contains id)
    (hop : (g.node id).op = Op.selectCC) (hx : selectCombination? g (g.node id) = some (.takes o)) :
    ∃ v, o = some v ∧ TakesPlace φ g ρ id v := by
  obtain ⟨vt, l, r, t, f, c, hsel⟩ := h.chooses.select id hc hop
  have hvalue := h.value_select hc hop hsel
  have htype : g.type? ⟨id, 0⟩ = some vt := by rw [Graph.type?_eq, hsel.types]; rfl
  have harm {u : Value} (hu : u = t ∨ u = f) (he : ρ u = ρ ⟨id, 0⟩) : TakesPlace φ g ρ id u := by
    refine h.takesPlace_operand hc (hop ▸ rfl) ?_ ?_ he fun hchain =>
      absurd (Option.some.inj (htype.symm.trans hchain)) hsel.data
    · rcases hu with rfl | rfl <;> rw [hsel.operands] <;> simp
    · rcases hu with rfl | rfl
      · rw [htype, hsel.ifTrue]
      · rw [htype, hsel.ifFalse]
  have hin {u : Value} (hu : some u ∈ (g.node id).operands) := (h.sound.has_operand hc hu).1
  have hknown (p : Bool)
    (hp : knownOutcome? g (condOfValue g (some c)) (some l) (some r) = some p) :=
    holds_of_knownOutcome? h.obeys h.chooses (hin (by rw [hsel.operands]; simp))
    (hin (by rw [hsel.operands]; simp))
      hsel.compares hp
  simp only [selectCombination?, hsel.operands, List.getElem?_cons_zero, List.getElem?_cons_succ,
    Option.bind_eq_bind, Option.bind_some] at hx
  split at hx
  · rename_i he
    cases he
    cases hx
    exact ⟨t, rfl, harm (.inl rfl) (by rw [hvalue, ite_self])⟩
  split at hx <;> cases hx <;> rename_i hp
  · exact ⟨t, rfl, harm (.inl rfl) (by rw [hvalue, hknown _ hp]; rfl)⟩
  · exact ⟨f, rfl, harm (.inr rfl) (by rw [hvalue, hknown _ hp]; rfl)⟩

theorem value_chain (hv : g.contains v.node) (ht : g.type? v = some .chain) : ρ v = 0 :=
  Nat.lt_one_iff.1 ((h.obeys v.node hv).range v.result .chain ht)

/-- A branch goes to its block or not, as its condition says. -/
theorem branch_spec (hc : g.contains id) (hop : (g.node id).op = Op.brCC) :
    ∃ k c l r dest, LeavesAt g id k dest ∧ (g.node id).operands =
    [some k, some c, some l, some r, some dest] ∧ g.type? ⟨id, 0⟩ = some .chain ∧
    g.chain id = .follows k ∧ ∀ p, knownOutcome? g (condOfValue g (some c)) (some l)
    (some r) = some p →
      exit? φ g ρ id = if p then some dest else none := by
  obtain ⟨k, c, l, r, dest, hl, hops, hcmp⟩ := h.chooses.branch id hc hop
  have hin {u : Value} (hu : some u ∈ (g.node id).operands) := (h.sound.has_operand hc hu).1
  refine ⟨k, c, l, r, dest, hl, hops, by rw [Graph.type?_eq, hl.types]; rfl,
    Graph.chain_eq_follows.2 ⟨by rw [hops]; rfl, hl.chain⟩, fun p hp => ?_⟩
  have hholds := holds_of_knownOutcome? h.obeys h.chooses (hin (by rw [hops]; simp))
    (hin (by rw [hops]; simp)) hcmp hp
  simp only [exit?, hops, hop, true_and, valueAt, hholds]

theorem takesPlace_chain {o : Option Value} (hc : g.contains id) (hop : (g.node id).op = Op.brCC)
    (hx : branchCombination? g (g.node id) = some (.takes o)) :
    ∃ v, o = some v ∧ TakesPlace φ g ρ id v := by
  obtain ⟨k, c, l, r, dest, hl, hops, htype, hchain, hexit⟩ := h.branch_spec hc hop
  have hk : some k ∈ (g.node id).operands := by rw [hops]; simp
  simp only [branchCombination?, hops, List.getElem?_cons_zero, List.getElem?_cons_succ,
    Option.bind_eq_bind, Option.bind_some] at hx
  split at hx <;> cases hx
  rename_i hp
  refine ⟨k, rfl, h.takesPlace_operand hc (hop ▸ rfl) hk (by rw [htype, hl.chain]) ?_ fun _ =>
    ⟨hchain, hexit _ hp⟩⟩
  rw [h.value_chain (h.sound.has_operand hc hk).1 hl.chain, h.value_chain hc htype]

theorem takesPlace_jump {chain dest : Option Value} (hc : g.contains id)
    (hop : (g.node id).op = Op.brCC)
    (hx : branchCombination? g (g.node id) = some (.jumps chain dest)) :
    Same φ ρ g₀ (g.single .br .chain [chain, dest]).1 ∧
      TakesPlace φ (g.single .br .chain [chain, dest]).1 ρ id ⟨g.entries.size, 0⟩ := by
  obtain ⟨k, c, l, r, d, hl, hops, htype, hchain, hexit⟩ := h.branch_spec hc hop
  have hhas {u : Value} (hu : some u ∈ (g.node id).operands) := h.sound.has_operand hc hu
  simp only [branchCombination?, hops, List.getElem?_cons_zero, List.getElem?_cons_succ,
    Option.bind_eq_bind, Option.bind_some] at hx
  split at hx <;> cases hx
  rename_i hp
  have hsame := h.jump (hhas (u := k) (by rw [hops]; simp)) (hhas (u := d) (by rw [hops]; simp))
    hl.chain hl.block
  have hn (a : Nat) (ha : g.contains a) : (g.single .br .chain [some k, some d]).1.node
    a = g.node a := Graph.node_newNode_of_ne _ _ _ _ _ (Nat.ne_of_lt (Graph.contains_lt ha))
  have hnode : (g.single .br .chain [some k, some d]).1.node g.entries.size =
      ⟨.br, [.chain], [some k, some d], .none⟩ := Graph.node_newNode_self ..
  have hc₁ : (g.single .br .chain [some k, some d]).1.contains id := by
    simp [Graph.single, Graph.contains_newNode, hc]
  have hnew : (g.single .br .chain [some k, some d]).1.contains g.entries.size := by
    simp [Graph.single, Graph.contains_newNode]
  generalize (g.single .br .chain [some k, some d]).1 = g₁ at hsame hn hnode hc₁ hnew ⊢
  have htype₁ : g₁.type? ⟨g.entries.size, 0⟩ = some .chain := by rw [Graph.type?_eq, hnode]; rfl
  have htype₂ : g₁.type? ⟨id, 0⟩ = some .chain :=
    (type?_congr_node hn (v := ⟨id, 0⟩) hc).trans htype
  refine ⟨hsame, hn id hc ▸ hop ▸ rfl, ⟨hnew, by rw [htype₁]; rfl⟩,
    fun hr => ?_, htype₁.trans htype₂.symm, ?_, fun _ => ?_⟩
  · -- what the jump takes is an operand of the branch
    rcases hr.cases_head with he | ⟨b, hb, hr⟩
    · exact absurd he (Nat.ne_of_gt (Graph.contains_lt hc))
    obtain ⟨-, i, hi⟩ := Graph.needs_iff.1 hb
    refine hsame.acyclic.not_reaches (Graph.needs_iff.2 ⟨hc₁, i, ?_⟩) hr
    rw [hnode] at hi
    rw [hn id hc, hops]
    simp only [List.mem_cons, List.not_mem_nil, or_false] at hi ⊢
    tauto
  · rw [hsame.value_chain (v := ⟨g.entries.size, 0⟩) hnew htype₁, hsame.value_chain (v :=
      ⟨id, 0⟩) hc₁ htype₂]
  · refine ⟨k, (chain_congr_node h.sound hn hc).2 hchain,
      .inr ⟨Graph.chain_eq_follows.2 ⟨by rw [hnode]; rfl, ?_⟩, ?_⟩⟩
    · exact (type?_congr_node hn (hhas (by rw [hops]; simp)).1).trans hl.chain
    · rw [exit?_congr_node h.sound hn hc, hexit _ hp]
      simp [exit?, hnode]

end Same

theorem Same.combined {d : Description} {s s' : Session} {r : Option (Option Value)}
    (h : Same φ ρ g₀ s.graph) (hout : outcome (Lower.combined? (target d) id) s = (.ok r, s')) :
    Same φ ρ g₀ s'.graph ∧ ∀ o, r = some o → ∃ v, o = some v ∧ TakesPlace φ s'.graph ρ id v := by
  rw [outcome_combined? h.acyclic] at hout
  split at hout
  swap
  · cases hout
    exact ⟨h, nofun⟩
  rename_i hc
  cases hx : combination? s.graph (s.graph.node id) with
  | none =>
    rw [hx] at hout
    cases hout
  | some c =>
    rw [hx] at hout
    cases c with
    | stays =>
      cases hout
      exact ⟨h, nofun⟩
    | takes o =>
      cases hout
      refine ⟨h, fun o' ho => ?_⟩
      cases ho
      unfold combination? at hx
      split at hx
      · exact h.takesPlace_select hc.1 ‹_› hx
      split at hx
      · exact h.takesPlace_chain hc.1 ‹_› hx
      · cases hx
    | jumps chain dest =>
      cases hout
      unfold combination? at hx
      split at hx
      · rename_i hop
        have hspec := selectCombination?_spec hop hx
        cases hspec with
        | jumps hop' => exact absurd (hop.symm.trans hop') (by decide)
      split at hx
      · obtain ⟨hsame, hp⟩ := h.takesPlace_jump hc.1 ‹_› hx
        refine ⟨hsame, fun o ho => ?_⟩
        cases ho
        exact ⟨_, rfl, hp⟩
      · cases hx

theorem Same.combineAll {d : Description} {s s' : Session} {budget : Nat} {worklist : List Nat}
    (h : Same φ ρ g₀ s.graph)
    (hout : outcome (Lower.combineAll (target d) budget worklist) s = (.ok (), s')) :
    Same φ ρ g₀ s'.graph := by
  induction budget using Nat.strong_induction_on generalizing worklist s with
  | _ budget ihb =>
    induction worklist generalizing s with
    | nil =>
      rw [Lower.combineAll_nil] at hout
      cases hout
      exact h
    | cons id rest ih =>
      rw [Lower.combineAll_cons] at hout
      obtain ⟨r, s₁, hr, hout⟩ := outcome_bind_ok.1 hout
      obtain ⟨hsame, hplace⟩ := h.combined hr
      cases r with
      | none => exact ih hsame hout
      | some o =>
        cases budget with
        | zero => cases hout
        | succ budget =>
          obtain ⟨v, rfl, hp⟩ := hplace o rfl
          obtain ⟨w, s₂, hput, hout⟩ := outcome_bind_ok.1 hout
          rw [outcome_putCombined] at hput
          cases hput
          exact ihb budget (Nat.lt_succ_self _) (hsame.swapped hp) hout

/-! ### Valuations from leaves -/

/-- The values that a graph computes are given by all others. -/
theorem exists_valuation (hs : g.Sound) (ha : g.Acyclic) (α : Valuation) : ∃ ρ, Obeys φ g ρ ∧
    (∀ v, ¬ g.contains v.node → ρ v = 0) ∧ ∀ v vt, g.contains v.node → g.type? v = some vt →
      (v.result = 0 → computed? φ g ρ (g.node v.node) = none) → ρ v = α v % 2 ^ vt.bits := by
  classical
  have hwf : WellFounded fun b a => g.Needs a b := ⟨ha.acc hs⟩
  let free (v : Value) : Nat := α v % 2 ^ ((g.type? v).getD .chain).bits
  let before (a : Nat) (rec : ∀ b, g.Needs a b → Nat → Nat) : Valuation := fun v =>
    if h : g.Needs a v.node then rec v.node h v.result else 0
  let F (a : Nat) (rec : ∀ b, g.Needs a b → Nat → Nat) (i : Nat) : Nat :=
    if g.contains a then
      if i = 0 then (computed? φ g (before a rec) (g.node a)).getD (free ⟨a, 0⟩) else free ⟨a, i⟩
    else 0
  let ρ : Valuation := fun v => hwf.fix F v.node v.result
  have hρ (a i : Nat) : ρ ⟨a, i⟩ = if g.contains a then
      if i = 0 then (computed? φ g ρ (g.node a)).getD (free ⟨a, 0⟩) else free ⟨a, i⟩ else 0 := by
    show hwf.fix F a i = _
    rw [hwf.fix_eq]
    refine ite_congr rfl (fun hc => ?_) fun _ => rfl
    have hbefore : computed? φ g (before a fun b _ => hwf.fix F b) (g.node a) =
      computed? φ g ρ (g.node a) :=
      computed?_congr fun v hv => dif_pos (Graph.needs_iff.2 ⟨hc, v.result, hv⟩)
    rw [hbefore]
  have hfree (a i : Nat) (vt : ValueType) (ht : g.type? ⟨a, i⟩ = some vt) :
      free ⟨a, i⟩ = α ⟨a, i⟩ % 2 ^ vt.bits := by
    simp only [free, ht, Option.getD_some]
  refine ⟨ρ, fun a hc => ⟨fun i vt ht => ?_, fun x hx => ?_⟩, fun v hv => ?_,
    fun v vt hv ht hnone => ?_⟩
  · have hbits := hfree a i vt ht
    rw [hρ, if_pos hc]
    split
    · subst i
      cases hx : computed? φ g ρ (g.node a) with
      | none => exact hbits ▸ Nat.mod_lt _ (Nat.two_pow_pos _)
      | some x =>
        have hres : resultBits (g.node a) = vt.bits := by
          rw [Graph.type?_eq] at ht
          rw [resultBits, List.headD_eq_head?_getD, List.head?_eq_getElem?, ht, Option.getD_some]
        exact hres ▸ computed?_lt hx
    · exact hbits ▸ Nat.mod_lt _ (Nat.two_pow_pos _)
  · rw [hρ, if_pos hc, if_pos rfl, hx, Option.getD_some]
  · exact (hρ v.node v.result).trans (if_neg hv)
  · obtain ⟨a, i⟩ := v
    rw [hρ, if_pos hv]
    split
    · subst i
      rw [hnone rfl, Option.getD_none, hfree a 0 vt ht]
    · exact hfree a i vt ht

/-! ### The stage -/

/-- Combining to the end keeps what an acyclic graph computes. Whatever the values are that come
from outside, operands of the nodes that are left have the values that they had, and control leaves
the chain of the root for the same block, or not at all. -/
theorem combining_keeps_meaning {d : Description} {s s' : Session} (φ : Nat → Nat → FloatOrder)
    (hs : s.graph.Sound) (ha : s.graph.Acyclic) (hc : ChoicesFormed s.graph)
    (hout : outcome (Lower.combine (target d)) s = (.ok (), s')) :
    (∀ α : Valuation, ∃ ρ, Obeys φ s.graph ρ ∧ (∀ v, ¬ s.graph.contains v.node → ρ v = 0) ∧
      ∀ v vt, s.graph.contains v.node → s.graph.type? v = some vt →
        (v.result = 0 → computed? φ s.graph ρ (s.graph.node v.node) = none) →
        ρ v = α v % 2 ^ vt.bits) ∧
    ∀ ρ, Obeys φ s.graph ρ → (∀ v, ¬ s.graph.contains v.node → ρ v = 0) → Obeys φ s'.graph ρ ∧
      (∀ a, s'.graph.contains a → a < s.graph.entries.size →
        operandValues ρ (s'.graph.node a) = operandValues ρ (s.graph.node a)) ∧
      ∃ r r' x, s.graph.root = some r ∧ s'.graph.root = some r' ∧
        (∀ y, Leads φ s.graph ρ r y ↔ y = x) ∧ ∀ y, Leads φ s'.graph ρ r' y ↔ y = x := by
  refine ⟨exists_valuation hs ha, fun ρ hρ hzero => ?_⟩
  have hstart : Same φ ρ s.graph s.graph :=
    ⟨hs, ha, hc, hρ, fun v hv => hzero v fun h => absurd (Graph.contains_lt h)
      (Nat.not_lt.2 hv), Nat.le_refl _, fun _ _ _ => rfl, fun r hr => ⟨r, hr, fun _ hx => hx⟩⟩
  obtain ⟨_, _, hg, hout⟩ := outcome_bind_ok.1 hout
  cases hg
  obtain ⟨_, s₁, hall, hset⟩ := outcome_bind_ok.1 hout
  cases hset
  have hend : Same φ ρ s.graph s₁.graph.removeDead.1 := (hstart.combineAll hall).removeDead
  obtain ⟨r, hr, hhas⟩ := hs.root
  obtain ⟨x, hx⟩ := exists_leads (φ := φ) (ρ := ρ) hs ha hhas.1
  obtain ⟨r', hr', hleads⟩ := hend.leads r hr
  refine ⟨hend.obeys, hend.operands, r, r', x, hr, hr', fun y => ⟨hx.unique, ?_⟩,
    fun y => ⟨(hleads x hx).unique, ?_⟩⟩
  · rintro rfl
    exact hx
  · rintro rfl
    exact hleads _ hx

/-- A branch that is taken when a parameter equals itself, and a jump after it. -/
def settledBranch : Graph :=
  let (g, n) := (Graph.empty { params := [.i32] }).argument 0 .i32
  let (g, cc) := g.targetConstant (.ofNat Cond.eq.number) .i32
  let (g, same) := g.basicBlock "same"
  let (g, branch) := g.single Op.brCC .chain [some Graph.entry, some cc, some n, some n, some same]
  let (g, other) := g.basicBlock "other"
  let (g, jump) := g.single .br .chain [some branch, some other]
  { g with root := some jump }

theorem made_settledBranch : settledBranch.Sound ∧ settledBranch.Acyclic := by
  have step (g : Graph) (op types operands payload) (h : g.Sound ∧ g.Acyclic)
      (hv : ∀ v ∈ taken operands, g.contains v.node ∧ (g.type? v).isSome) :
      (g.newNode op types operands payload).1.Sound ∧
        (g.newNode op types operands payload).1.Acyclic :=
    ⟨h.1.newNode hv, h.2.newNode h.1 hv⟩
  have h := step _ .br [.chain] [some ⟨4, 0⟩, some ⟨5, 0⟩] .none
    (step _ .basicBlock [.chain] [] (.symbol "other" 0) (step _ Op.brCC [.chain]
      [some Graph.entry, some ⟨2, 0⟩, some ⟨1, 0⟩, some ⟨1, 0⟩, some ⟨3, 0⟩] .none
      (step _ .basicBlock [.chain] [] (.symbol "same" 0) (step _ .targetConstant [.i32] []
        (.integer (.ofNat Cond.eq.number)) (step _ .argument [.i32] [] (.index 0)
          ⟨.empty { params := [.i32] }, (FunctionFile.Written.empty _).acyclic⟩
          (by decide)) (by decide)) (by decide)) (by decide)) (by decide)) (by decide)
  exact ⟨h.1.of_root ⟨rfl, rfl⟩, h.2⟩

theorem choicesFormed_settledBranch : ChoicesFormed settledBranch := by
  have hin (a : Nat) (ha : settledBranch.contains a) : a < 7 := Graph.contains_lt ha
  have hops : ∀ a < 7, ((settledBranch.node a).op = Op.brCC → a = 4) ∧
    ((settledBranch.node a).op = .br → a = 6) ∧
      (settledBranch.node a).op ≠ Op.selectCC ∧ (settledBranch.node a).op ≠ .setCC ∧
      (settledBranch.node a).op ≠ .selectCC ∧ (settledBranch.node a).types.length = 1 := by decide
  refine ⟨fun a ha h => absurd h (hops a (hin a ha)).2.2.1, fun a ha h => ?_, fun a ha h => ?_,
    fun a ha h => ?_, fun a ha _ => (hops a (hin a ha)).2.2.2.2.2⟩
  · obtain rfl := (hops a (hin a ha)).1 h
    exact ⟨_, _, _, _, _, ⟨rfl, rfl, rfl⟩, rfl, rfl, fun _ => ⟨rfl, rfl⟩⟩
  · obtain rfl := (hops a (hin a ha)).2.1 h
    exact ⟨_, _, ⟨rfl, rfl, rfl⟩, rfl⟩
  · exact absurd h (not_or.2 ⟨(hops a (hin a ha)).2.2.2.1, (hops a (hin a ha)).2.2.2.2.1⟩)

theorem combining_keeps_meaning_settledBranch : ∃ s' ρ r',
    outcome (Lower.combine (target .builtIn))
    ((target .builtIn).session settledBranch) = (.ok (), s') ∧ s'.graph.contains 4 = false ∧
    Obeys (fun _ _ => .unordered) settledBranch ρ ∧ s'.graph.root = some r' ∧
    Leads (fun _ _ => .unordered) settledBranch ρ ⟨6, 0⟩ (some ⟨3, 0⟩) ∧
    Leads (fun _ _ => .unordered) s'.graph ρ r' (some ⟨3, 0⟩) := by
  have hrun : (outcome (Lower.combine (target .builtIn))
    ((target .builtIn).session settledBranch)).1.isOk = true ∧
      (outcome (Lower.combine (target .builtIn))
        ((target .builtIn).session settledBranch)).2.graph.contains 4 = false := by
    decide +kernel
  generalize hout : outcome (Lower.combine (target .builtIn)) _ = out at hrun
  obtain ⟨_ | _, s'⟩ := out
  · cases hrun.1
  obtain ⟨hvalues, hkeeps⟩ := combining_keeps_meaning (fun _ _ => .unordered) made_settledBranch.1
    made_settledBranch.2 choicesFormed_settledBranch hout
  obtain ⟨ρ, hρ, hzero, -⟩ := hvalues fun _ => 5
  obtain ⟨-, -, r, r', x, hr, hr', hx, hx'⟩ := hkeeps ρ hρ hzero
  cases hr
  have hbranch : exit? (fun _ _ => .unordered) settledBranch ρ 4 = some ⟨3, 0⟩ := by
    show (if Op.brCC = Op.brCC ∧ (condOfValue settledBranch (some ⟨2, 0⟩)).holds _ (ρ ⟨1, 0⟩)
      (ρ ⟨1, 0⟩) then
      some (⟨3, 0⟩ : Value) else none) = _
    rw [show condOfValue settledBranch (some ⟨2, 0⟩) = .eq by decide, Cond.holds_of_isWord rfl]
    simp [Cond.onIntegers]
  have hleads : Leads (fun _ _ => .unordered) settledBranch ρ ⟨6, 0⟩
    ((none.or (exit? _ settledBranch ρ 4)).or _) :=
    .after rfl rfl (.after rfl rfl (.start (v := Graph.entry) fun _ u hu => by cases hu))
  rw [hbranch] at hleads
  obtain rfl := (hx _).1 hleads
  exact ⟨s', ρ, r', rfl, hrun.2, hρ, hr', hleads, (hx' _).2 rfl⟩

end GraphLowering.Usim
