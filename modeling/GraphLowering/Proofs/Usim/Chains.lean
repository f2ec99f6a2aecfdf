import GraphLowering.Proofs.Graph.Thread

/-!
# The order of side effects

Side effects are ordered by chains. In an ordered graph (`Ordered`) only operations on the chain
give chains, and only they take them. Values that take the place of a node keep the order if none of
them is a chain but the one in place of its chain, and that one leads to the chain that the node
took (`Replaced`).
-/

namespace GraphLowering.Usim

open GraphLowering.Graph (taken Thread)

/-- Operations that the chain orders. -/
def isChained : Opcode → Bool
  | .entryToken | .tokenFactor | .load | .store | .atomicLoadAdd | .call | .ret
  | .br | .brCond | .brCC | .copyToReg | .copyFromReg | .callSeqStart | .callSeqEnd
  | .target 1 | .target 2 | .target 3 | .target 5 => true
  | _ => false

/-- The number of the result that is the chain. -/
def chainResult? (n : Node) : Option Nat :=
  match n.op with
  | .load | .atomicLoadAdd | .copyFromReg => some 1
  | .call => some (n.types.length - 1)
  | op => if isChained op then some 0 else none

/-- Leaves that name something and count as chains. -/
def isName : Opcode → Bool
  | .condCode | .basicBlock | .registerMask => true
  | _ => false

/-- The operands that may be such leaves. -/
def isNameSlot : Opcode → Nat → Bool
  | .setCC, 2 | .selectCC, 4 | .br, 1 | .brCond, 2 | .brCC, 1 | .brCC, 4 => true
  | .target 2, _ | .target 3, _ => true
  | _, _ => false

/-- Operands of a node that stand neither where a chain goes nor where chains are joined. -/
def isBeside (op : Opcode) (i : Nat) : Bool := !isChained op || i != 0 && op != .tokenFactor

/-- Operations that have nothing to do with chains. -/
def isValue (op : Opcode) : Bool := !isChained op && !isName op

theorem isValue_iff {op : Opcode} : isValue op ↔ isChained op = false ∧ isName op = false := by
  simp [isValue]

theorem chainResult?_eq_none {x : Node} (h : isChained x.op = false) : chainResult? x = none := by
  rw [chainResult?]
  split
  · rename_i hx
    rw [hx] at h
    cases h
  · rename_i hx
    rw [hx] at h
    cases h
  · rename_i hx
    rw [hx] at h
    cases h
  · rename_i hx
    rw [hx] at h
    cases h
  · rw [h]
    rfl

/-- The part of a node in the order of side effects. -/
structure Ordered (g : Graph) (n : Node) : Prop where
  gives : ∀ i, n.types[i]? = some .chain → chainResult? n = some i ∨ isName n.op
  result : ∀ i, chainResult? n = some i → n.types[i]? = some .chain
  takes : ∀ i v, n.operands[i]? = some (some v) → g.type? v = some .chain →
    isChained n.op ∧ i = 0 ∨ n.op = .tokenFactor ∨ isNameSlot n.op i ∧ isName (g.node v.node).op
  name : isName n.op → n.operands = []

variable {op : Opcode} {vt : ValueType} {g g' : Graph} {id i : Nat} {types : List ValueType}
  {operands rest : List (Option Value)} {payload : Payload} {o a b chain : Option Value} {x : Node}

/-- A value is no chain. -/
def Datum (g : Graph) (o : Option Value) : Prop := ∀ v, o = some v → g.type? v ≠ some .chain

/-- A value is a chain. -/
def IsChain (g : Graph) (o : Option Value) : Prop := ∃ u, o = some u ∧ g.type? u = some .chain

theorem type?_of_node (hn : g.node id = x) (hi : x.types[i]? = some vt) :
    g.type? ⟨id, i⟩ = some vt := by
  rw [Graph.type?_eq, hn]
  exact hi

namespace Ordered

theorem grow {n : Node} (h : Ordered g n) (hn : ∀ v, some v ∈ n.operands → v.node < g.entries.size)
    (hx : g.Extends g') : Ordered g' n := by
  refine ⟨h.gives, h.result, fun i v hi hv => ?_, h.name⟩
  have hlt := hn v (List.mem_of_getElem? hi)
  rw [hx.type? hlt] at hv
  rw [hx.node _ hlt]
  exact h.takes i v hi hv

theorem value (hn : isValue op) (hvt : vt ≠ .chain)
    (ho : ∀ v ∈ taken operands, g.type? v ≠ some .chain) :
    Ordered g ⟨op, [vt], (taken operands).map some, payload⟩ := by
  obtain ⟨hc, hn⟩ := isValue_iff.1 hn
  refine ⟨fun i hi => ?_, fun i hi => ?_, fun i v hi hv => ?_, fun h => ?_⟩
  · cases List.mem_singleton.1 (List.mem_of_getElem? hi)
    exact absurd rfl hvt
  · rw [chainResult?_eq_none hc] at hi
    cases hi
  · have hmem : some v ∈ (taken operands).map some := List.mem_of_getElem? hi
    exact absurd hv (ho v (by simpa using hmem))
  · rw [show isName op = true from h] at hn
    cases hn

theorem leaf (hn : isValue op) (hvt : vt ≠ .chain) : Ordered g ⟨op, [vt], [], payload⟩ :=
  show Ordered g ⟨op, [vt], (taken []).map some, payload⟩ from value hn hvt nofun

theorem named (hn : isName op) (hc : isChained op = false) :
    Ordered g ⟨op, types, [], payload⟩ := by
  refine ⟨fun _ _ => .inr hn, fun i hi => ?_, nofun, fun _ => rfl⟩
  rw [chainResult?_eq_none hc] at hi
  cases hi

/-- A node on the chain whose other operands are no chains, or names. -/
theorem chained (before after : List ValueType) (hc : isChained op) (hn : isName op = false)
    (hk : chainResult? ⟨op, before ++ .chain :: after, (taken (chain :: rest)).map some, payload⟩ =
      some before.length)
    (ht : ∀ vt ∈ before ++ after, vt ≠ .chain)
    (hr : ∀ v ∈ taken rest, g.type? v ≠ some .chain ∨ (∀ i, isNameSlot op i) ∧
      isName (g.node v.node).op) :
    Ordered g ⟨op, before ++ .chain :: after, (taken (chain :: rest)).map some, payload⟩ := by
  refine ⟨fun i hi => .inl (hk.trans ?_), fun i hi => ?_, fun i v hi hv => ?_, fun h => ?_⟩
  · rcases Nat.lt_trichotomy i before.length with hlt | rfl | hlt
    · rw [List.getElem?_append_left hlt] at hi
      exact absurd rfl (ht _ (List.mem_append_left _ (List.mem_of_getElem? hi)))
    · rfl
    · obtain ⟨k, rfl⟩ := Nat.exists_eq_add_of_lt hlt
      rw [List.getElem?_append_right (by omega), show before.length + k + 1 - before.length =
        k + 1 by omega] at hi
      exact absurd rfl (ht _ (List.mem_append_right _ (List.mem_of_getElem? hi)))
  · rw [hk] at hi
    cases hi
    simp
  · by_cases hi0 : i = 0 ∧ chain ≠ none
    · exact .inl ⟨hc, hi0.1⟩
    · have hmem : v ∈ taken rest := by
        cases chain with
        | none =>
          have hm : some v ∈ (taken rest).map some := List.mem_of_getElem? hi
          simpa using hm
        | some c =>
          cases i with
          | zero => exact absurd ⟨rfl, by simp⟩ hi0
          | succ i =>
            have hm : some v ∈ (taken rest).map some := List.mem_of_getElem? hi
            simpa using hm
      rcases hr v hmem with h | ⟨hs, hname⟩
      · exact absurd hv h
      · exact .inr (.inr ⟨hs i, hname⟩)
  · rw [show isName op = true from h] at hn
    cases hn

theorem tokenFactor : Ordered g ⟨.tokenFactor, [.chain], operands, .none⟩ := by
  refine ⟨fun i hi => ?_, fun i hi => ?_, fun i v _ _ => .inr (.inl rfl), fun h => by cases h⟩
  · cases i with
    | zero => exact .inl rfl
    | succ i => simp at hi
  · cases hi
    rfl

/-- What stands beside the chain of a node is a name if it counts as a chain. -/
theorem beside {v : Value} (h : Ordered g x) (ho : x.operands[i]? = some (some v))
    (hi : isBeside x.op i) (hv : g.type? v = some .chain) :
    isNameSlot x.op i ∧ isName (g.node v.node).op := by
  rcases h.takes i v ho hv with ⟨hop, rfl⟩ | hop | hname
  · simp [isBeside, hop] at hi
  · simp [isBeside, hop, isChained] at hi
  · exact hname

theorem datum (h : Ordered g x) (ho : x.operands[i]? = some o) (hi : isBeside x.op i)
    (hs : isNameSlot x.op i = false) : Datum g o := by
  rintro v rfl hv
  rw [(h.beside ho hi hv).1] at hs
  cases hs

theorem ne_chain (h : Ordered g x) (ht : x.types[i]? = some vt) (hc : chainResult? x ≠ some i)
    (hn : isName x.op = false) : vt ≠ .chain := by
  rintro rfl
  rcases h.gives i ht with h | h
  · exact hc h
  · rw [h] at hn
    cases hn

end Ordered

/-! ### Chains that lead on -/

/-- A chain leads to another one, if that is a chain. -/
def Continues (g : Graph) (o chain : Option Value) : Prop :=
  ∀ c, chain = some c → g.type? c = some .chain → ∃ u l, o = some u ∧ Thread g u l c

theorem Continues.refl : Continues g o o := fun c hc _ => ⟨c, [], hc, .refl⟩

theorem Continues.trans (h : Continues g o a) (h' : Continues g a b) : Continues g o b := by
  intro c hc ht
  obtain ⟨w, l', hw, hl'⟩ := h' c hc ht
  obtain ⟨u, l, hu, hl⟩ := h w hw (hl'.type_start ht)
  exact ⟨u, l ++ l', hu, hl.trans hl'⟩

/-- A chain that a node gives leads to the one it takes. -/
theorem Continues.node (hn : g.node id = ⟨op, types, (taken (chain :: rest)).map some, payload⟩)
    (hi : types[i]? = some .chain) : Continues g (some ⟨id, i⟩) chain := by
  rintro c rfl hc
  have hchain : g.chain id = .follows c := by
    refine Graph.chain_eq_follows.2 ⟨?_, hc⟩
    rw [hn]
    rfl
  exact ⟨_, _, rfl, Thread.single (v := ⟨id, i⟩) (type?_of_node hn hi) hchain⟩

/-- What holds of values in place of a node. -/
structure Rejoined (g : Graph) (x : Node) (values : List (Option Value)) : Prop where
  data : ∀ i o, chainResult? x ≠ some i → values[i]? = some o → Datum g o
  chain : ∀ i o chain, chainResult? x = some i → values[i]? = some o → x.operands[0]? = some chain →
    Continues g o chain

/-- What holds of the values that a rule gives. -/
structure Replaced (g : Graph) (x : Node) (values : List (Option Value)) :
    Prop extends Rejoined g x values where
  typed : ∀ i o, chainResult? x = some i → values[i]? = some o → IsChain g o

/-- An operation on values is replaced by a value. -/
theorem Replaced.value (ho : Datum g o) (hc : chainResult? x = none) : Replaced g x [o] := by
  refine ⟨⟨fun i o' _ hi => ?_, fun i o' c hi => ?_⟩, fun i o' hi => ?_⟩
  · cases List.mem_singleton.1 (List.mem_of_getElem? hi)
    exact ho
  · rw [hc] at hi
    cases hi
  · rw [hc] at hi
    cases hi

/-- An operation that gives a chain after other results is replaced by data and a chain. -/
theorem Replaced.link (data : List (Option Value)) (hd : ∀ o ∈ data, Datum g o)
    (h0 : x.operands[0]? = some chain) (ho : IsChain g o ∧ Continues g o chain)
    (hc : chainResult? x = some data.length) : Replaced g x (data ++ [o]) := by
  have hlast : ∀ {i o'}, chainResult? x = some i → (data ++ [o])[i]? = some o' → o' = o := by
    intro i o' hi ho'
    obtain rfl := Option.some.inj (hc.symm.trans hi)
    simpa using ho'.symm
  refine ⟨⟨fun i o' hne hi => ?_, fun i o' c hi ho' hc' => ?_⟩,
    fun i o' hi ho' => hlast hi ho' ▸ ho.1⟩
  · have hlt := (List.getElem?_eq_some_iff.1 hi).1
    rw [hc, ne_eq, Option.some.injEq] at hne
    rw [List.length_append, List.length_singleton] at hlt
    rw [List.getElem?_append_left (by omega)] at hi
    exact hd o' (List.mem_of_getElem? hi)
  · rw [h0, Option.some.injEq] at hc'
    exact hlast hi ho' ▸ hc' ▸ ho.2

end GraphLowering.Usim
