import GraphLowering.Graph.Build
import GraphLowering.Graph.Reach
import Mathlib.Data.List.Basic

/-!
# Exact use lists

What can be asked about a graph (`node`, `contains`, `usesOf`, `operand`) after each of its
primitive changes, and two invariants. `Exact`: every use list holds the operands that take a result
of its node, each once, and nothing else. `Sound`: besides, every operand is a result that a node of
the graph has. Adding a node keeps both (`Exact.newNode`, `Sound.newNode`).
-/

namespace GraphLowering.Graph

variable {g : Graph} {id : Nat} {v : Value} {u : Use}

/-! ### Reading -/

theorem node_of_le (h : g.entries.size ≤ id) : g.node id = default := by
  simp [node, Array.getD, Nat.not_lt.mpr h]
  rfl

theorem contains_lt (h : g.contains id) : id < g.entries.size := by
  by_contra hlt
  simp [contains, Array.getElem?_eq_none (Nat.not_lt.mp hlt)] at h

theorem contains_of_le (h : g.entries.size ≤ id) : g.contains id = false := by
  simp [contains, Array.getElem?_eq_none h]

theorem type?_eq (g : Graph) (v : Value) : g.type? v = (g.node v.node).types[v.result]? := by
  by_cases h : v.node < g.entries.size
  · simp [type?, node?, node, Array.getD, h]
  · rw [node_of_le (Nat.not_lt.mp h)]
    rw [type?, node?, Array.getElem?_eq_none (Nat.not_lt.mp h)]
    rfl

theorem mem_operandNodes {b : Nat} :
    b ∈ g.operandNodes id ↔ ∃ i, some (⟨b, i⟩ : Value) ∈ (g.node id).operands := by
  simp only [operandNodes, List.mem_filterMap, Option.map_eq_some_iff]
  constructor
  · rintro ⟨_, ho, ⟨n, i⟩, rfl, rfl⟩
    exact ⟨i, ho⟩
  · rintro ⟨i, h⟩
    exact ⟨_, h, ⟨b, i⟩, rfl, rfl⟩

theorem operand_eq_some :
    g.operand u = some v ↔ (g.node u.user).operands[u.slot]? = some (some v) := by
  simp [operand, Option.join_eq_some_iff]

/-- The graph has the node of a value and the node has that result. -/
def Has (g : Graph) (v : Value) : Prop := g.contains v.node ∧ (g.type? v).isSome

/-! ### Changing use lists and operands -/

section Primitive

variable (g) (of : Option Nat) (uses : List Use) (w : Option Value)

@[simp] theorem size_setUses : (g.setUses of uses).entries.size = g.entries.size := by
  cases of <;> simp [setUses]

@[simp] theorem root_setUses : (g.setUses of uses).root = g.root := by cases of <;> rfl

@[simp] theorem frame_setUses : (g.setUses of uses).frame = g.frame := by cases of <;> rfl

@[simp] theorem signature_setUses : (g.setUses of uses).signature = g.signature := by
  cases of <;> rfl

@[simp] theorem node_setUses (id : Nat) : (g.setUses of uses).node id = g.node id := by
  cases of with
  | none => rfl
  | some k =>
    simp only [setUses, node, Array.getD_eq_getD_getElem?, Array.getElem?_modify]
    split
    · cases g.entries[id]? <;> rfl
    · rfl

@[simp] theorem contains_setUses (id : Nat) : (g.setUses of uses).contains id = g.contains id := by
  cases of with
  | none => rfl
  | some k =>
    simp only [setUses, contains, Array.getElem?_modify]
    split
    · cases g.entries[id]? <;> rfl
    · rfl

theorem usesOf_setUses_of_ne {of' : Option Nat} (h : of' ≠ of) :
    (g.setUses of uses).usesOf of' = g.usesOf of' := by
  cases of with
  | none =>
    cases of' with
    | none => exact absurd rfl h
    | some k => rfl
  | some k =>
    cases of' with
    | none => rfl
    | some k' =>
      have hk : k ≠ k' := fun e => h (e ▸ rfl)
      simp [setUses, usesOf, Array.getD_eq_getD_getElem?, Array.getElem?_modify, hk]

theorem usesOf_setUses_self {id : Nat} (h : id < g.entries.size) :
    (g.setUses (some id) uses).usesOf (some id) = uses := by
  simp only [setUses, usesOf, Array.getD_eq_getD_getElem?, Array.getElem?_modify]
  simp [h]

@[simp] theorem emptyUses_setUses_some (id : Nat) :
    (g.setUses (some id) uses).emptyUses = g.emptyUses := rfl

@[simp] theorem size_setOperand : (g.setOperand u w).entries.size = g.entries.size := by
  simp [setOperand]

@[simp] theorem root_setOperand : (g.setOperand u w).root = g.root := rfl

@[simp] theorem frame_setOperand : (g.setOperand u w).frame = g.frame := rfl

@[simp] theorem signature_setOperand : (g.setOperand u w).signature = g.signature := rfl

@[simp] theorem emptyUses_setOperand : (g.setOperand u w).emptyUses = g.emptyUses := rfl

@[simp] theorem contains_setOperand (id : Nat) :
    (g.setOperand u w).contains id = g.contains id := by
  simp only [setOperand, contains, Array.getElem?_modify]
  split
  · cases g.entries[id]? <;> rfl
  · rfl

@[simp] theorem usesOf_setOperand (of : Option Nat) :
    (g.setOperand u w).usesOf of = g.usesOf of := by
  cases of with
  | none => rfl
  | some id =>
    simp only [setOperand, usesOf, Array.getD_eq_getD_getElem?, Array.getElem?_modify]
    split
    · cases g.entries[id]? <;> rfl
    · rfl

theorem node_setOperand (id : Nat) :
    (g.setOperand u w).node id =
      if id = u.user then
        { g.node id with operands := (g.node id).operands.set u.slot w }
      else g.node id := by
  simp only [setOperand, node, Array.getD_eq_getD_getElem?, Array.getElem?_modify]
  split <;> rename_i h
  · subst h
    simp only [if_true]
    cases g.entries[u.user]? <;> rfl
  · rw [if_neg (Ne.symm h)]

theorem usesOf_addUse (hid : id < g.entries.size) (of : Option Nat) :
    (g.addUse (some id) u).usesOf of =
      if of = some id then g.usesOf of ++ [u] else g.usesOf of := by
  split <;> rename_i h
  · subst h
    exact usesOf_setUses_self _ _ hid
  · exact usesOf_setUses_of_ne _ _ _ h

@[simp] theorem size_addUse : (g.addUse of u).entries.size = g.entries.size := size_setUses ..

@[simp] theorem node_addUse (id : Nat) : (g.addUse of u).node id = g.node id := node_setUses ..

@[simp] theorem contains_addUse (id : Nat) : (g.addUse of u).contains id = g.contains id :=
  contains_setUses ..

@[simp] theorem root_addUse : (g.addUse of u).root = g.root := root_setUses ..

@[simp] theorem frame_addUse : (g.addUse of u).frame = g.frame := frame_setUses ..

@[simp] theorem signature_addUse : (g.addUse of u).signature = g.signature := signature_setUses ..

@[simp] theorem emptyUses_addUse_some (id : Nat) :
    (g.addUse (some id) u).emptyUses = g.emptyUses := rfl

end Primitive

/-! ### Adding a node -/

theorem foldl_keeps {α β γ : Type} (p : α → γ) {f : α → β → α}
    (h : ∀ a b, p (f a b) = p a) (l : List β) (a : α) : p (l.foldl f a) = p a := by
  induction l generalizing a with
  | nil => rfl
  | cons b l ih => exact (ih _).trans (h a b)

/-- Enters the operands of node `user` into the use lists. -/
def addUses (g : Graph) (user : Nat) (values : List (Value × Nat)) : Graph :=
  values.foldl (fun g (v, slot) => g.addUse (some v.node) { user, slot }) g

section AddUses

variable (g) (user : Nat) (values : List (Value × Nat))

@[simp] theorem size_addUses : (g.addUses user values).entries.size = g.entries.size :=
  foldl_keeps (·.entries.size) (fun _ _ => size_addUse ..) values g

@[simp] theorem node_addUses (id : Nat) : (g.addUses user values).node id = g.node id :=
  foldl_keeps (·.node id) (fun _ _ => node_addUse ..) values g

@[simp] theorem contains_addUses (id : Nat) :
    (g.addUses user values).contains id = g.contains id :=
  foldl_keeps (·.contains id) (fun _ _ => contains_addUse ..) values g

@[simp] theorem root_addUses : (g.addUses user values).root = g.root :=
  foldl_keeps (·.root) (fun _ _ => root_addUse ..) values g

@[simp] theorem frame_addUses : (g.addUses user values).frame = g.frame :=
  foldl_keeps (·.frame) (fun _ _ => frame_addUse ..) values g

@[simp] theorem signature_addUses : (g.addUses user values).signature = g.signature :=
  foldl_keeps (·.signature) (fun _ _ => signature_addUse ..) values g

@[simp] theorem emptyUses_addUses : (g.addUses user values).emptyUses = g.emptyUses :=
  foldl_keeps (·.emptyUses) (fun _ _ => emptyUses_addUse_some ..) values g

theorem usesOf_addUses {id : Nat} (hid : id < g.entries.size) :
    (g.addUses user values).usesOf (some id) =
      g.usesOf (some id) ++
        (values.filter (·.1.node = id)).map fun p => ({ user, slot := p.2 } : Use) := by
  induction values generalizing g with
  | nil => simp [addUses]
  | cons p rest ih =>
    have hrest := ih (g.addUse (some p.1.node) { user, slot := p.2 }) (by simpa using hid)
    rw [addUses, List.foldl_cons, ← addUses, hrest]
    by_cases hp : p.1.node = id
    · subst hp
      simp [usesOf_addUse _ hid]
    · rw [List.filter_cons_of_neg (by simpa using hp), addUse,
        usesOf_setUses_of_ne _ _ _ (by simpa using Ne.symm hp)]

end AddUses

section NewNode

variable (g) (op : Opcode) (types : List ValueType) (operands : List (Option Value))
  (payload : Payload)

/-- The operands of a node that are not empty. -/
def taken (operands : List (Option Value)) : List Value := operands.filterMap (·)

theorem newNode_eq :
    g.newNode op types operands payload =
      (({ g with
          entries := g.entries.push
            { node := { op, types, operands := (taken operands).map some, payload } } } :
              Graph).addUses
          g.entries.size (taken operands).zipIdx, g.entries.size) := rfl

@[simp] theorem newNode_id : (g.newNode op types operands payload).2 = g.entries.size := rfl

@[simp] theorem size_newNode :
    (g.newNode op types operands payload).1.entries.size = g.entries.size + 1 := by
  simp [newNode_eq]

theorem node_newNode (id : Nat) :
    (g.newNode op types operands payload).1.node id =
      if id = g.entries.size then { op, types, operands := (taken operands).map some, payload }
      else g.node id := by
  rw [newNode_eq, node_addUses]
  simp only [node, Array.getD_eq_getD_getElem?, Array.getElem?_push]
  split <;> simp

theorem node_newNode_self :
    (g.newNode op types operands payload).1.node g.entries.size =
      { op, types, operands := (taken operands).map some, payload } := by
  rw [node_newNode, if_pos rfl]

theorem node_newNode_of_ne {id : Nat} (h : id ≠ g.entries.size) :
    (g.newNode op types operands payload).1.node id = g.node id := by
  rw [node_newNode, if_neg h]

theorem contains_newNode (id : Nat) :
    (g.newNode op types operands payload).1.contains id =
      (decide (id = g.entries.size) || g.contains id) := by
  rw [newNode_eq, contains_addUses]
  simp only [contains, Array.getElem?_push]
  split <;> rename_i h
  · simp [h]
  · simp [h]

@[simp] theorem root_newNode : (g.newNode op types operands payload).1.root = g.root := by
  simp [newNode_eq]

@[simp] theorem frame_newNode : (g.newNode op types operands payload).1.frame = g.frame := by
  simp [newNode_eq]

@[simp] theorem signature_newNode :
    (g.newNode op types operands payload).1.signature = g.signature := by
  simp [newNode_eq]

@[simp] theorem emptyUses_newNode :
    (g.newNode op types operands payload).1.emptyUses = g.emptyUses := by
  simp [newNode_eq]

theorem usesOf_newNode {id : Nat} (hid : id < g.entries.size) :
    (g.newNode op types operands payload).1.usesOf (some id) =
      g.usesOf (some id) ++
        ((taken operands).zipIdx.filter (·.1.node = id)).map
          fun p => ({ user := g.entries.size, slot := p.2 } : Use) := by
  rw [newNode_eq, usesOf_addUses _ _ _ (by simp; omega)]
  simp [usesOf, Array.getD_eq_getD_getElem?, Array.getElem?_push, Nat.ne_of_lt hid]

theorem type?_newNode_of_ne {v : Value} (h : v.node ≠ g.entries.size) :
    (g.newNode op types operands payload).1.type? v = g.type? v := by
  rw [type?_eq, type?_eq, node_newNode_of_ne _ _ _ _ _ h]

theorem type?_newNode_self (i : Nat) :
    (g.newNode op types operands payload).1.type? ⟨g.entries.size, i⟩ = types[i]? := by
  rw [type?_eq, node_newNode_self]

end NewNode

theorem Has.lt (h : g.Has v) : v.node < g.entries.size := contains_lt h.1

theorem usesOf_of_le (h : g.entries.size ≤ id) : g.usesOf (some id) = [] := by
  simp only [usesOf, Array.getD_eq_getD_getElem?, Array.getElem?_eq_none h]
  rfl

theorem has_newNode {op : Opcode} {types : List ValueType} {operands : List (Option Value)}
    {payload : Payload} (h : g.Has v) : (g.newNode op types operands payload).1.Has v := by
  refine ⟨by simp [contains_newNode, h.1], ?_⟩
  rw [type?_newNode_of_ne _ _ _ _ _ (Nat.ne_of_lt h.lt)]
  exact h.2

/-! ### Exact use lists -/

/-- Operand `u` of a node of the graph is `o`. -/
def Slot (g : Graph) (u : Use) (o : Option Value) : Prop :=
  g.contains u.user ∧ (g.node u.user).operands[u.slot]? = some o

theorem slot_some : g.Slot u (some v) ↔ g.contains u.user ∧ g.operand u = some v := by
  rw [Slot, operand_eq_some]

theorem Slot.operand {o : Option Value} (h : g.Slot u o) : g.operand u = o := by
  rw [Graph.operand, h.2]
  rfl

theorem Slot.unique {o o' : Option Value} (h : g.Slot u o) (h' : g.Slot u o') : o = o' :=
  h.operand.symm.trans h'.operand

/-- The operands of the nodes of the graph name nodes that were made, and the use list of a node
holds the operands that take a result of it, each once; so does the list of the empty operands. -/
structure Exact (g : Graph) : Prop where
  known : ∀ u v, g.Slot u (some v) → v.node < g.entries.size
  mem_usesOf : ∀ of u, u ∈ g.usesOf of ↔ ∃ o, g.Slot u o ∧ o.map (·.node) = of
  nodup : ∀ of, (g.usesOf of).Nodup

theorem Exact.congr {g' : Graph} (h : g.Exact) (he : g'.entries = g.entries)
    (hu : g'.emptyUses = g.emptyUses) : g'.Exact := by
  obtain ⟨s, f, es, us, r⟩ := g
  obtain ⟨s', f', es', us', r'⟩ := g'
  cases he
  cases hu
  exact ⟨h.known, h.mem_usesOf, h.nodup⟩

/-- The uses that a new node brings. -/
theorem mem_newUses {values : List Value} {n : Nat} :
    u ∈ ((values.zipIdx.filter (·.1.node = id)).map fun p => ({ user := n, slot := p.2 } : Use)) ↔
      u.user = n ∧ ∃ i, values[u.slot]? = some ⟨id, i⟩ := by
  simp only [List.mem_map, List.mem_filter, decide_eq_true_eq, Prod.exists]
  constructor
  · rintro ⟨w, i, ⟨hw, rfl⟩, rfl⟩
    exact ⟨rfl, w.result, List.mk_mem_zipIdx_iff_getElem?.1 hw⟩
  · rintro ⟨rfl, i, hi⟩
    exact ⟨⟨id, i⟩, u.slot, ⟨List.mk_mem_zipIdx_iff_getElem?.2 hi, rfl⟩, rfl⟩

theorem nodup_newUses (values : List Value) (id n : Nat) :
    ((values.zipIdx.filter (·.1.node = id)).map fun p =>
      ({ user := n, slot := p.2 } : Use)).Nodup := by
  have hslots : (values.zipIdx.map (·.2)).Nodup := by
    rw [List.zipIdx_map_snd]
    exact List.nodup_range'
  have hpairs : (values.zipIdx.filter (·.1.node = id)).Pairwise fun p q => p.2 ≠ q.2 :=
    (List.pairwise_map.1 hslots).filter _
  exact List.pairwise_map.2 (hpairs.imp fun hpq e => hpq (congrArg Use.slot e))

section NewNode

variable {op : Opcode} {types : List ValueType} {operands : List (Option Value)} {payload : Payload}

theorem usesOf_newNode_of_le (hv : ∀ v ∈ taken operands, v.node < g.entries.size)
    (hid : g.entries.size ≤ id) :
    (g.newNode op types operands payload).1.usesOf (some id) = [] := by
  rcases Nat.eq_or_lt_of_le hid with rfl | hlt
  · rw [newNode_eq, usesOf_addUses _ _ _ (by simp)]
    have hnone : (taken operands).zipIdx.filter (·.1.node = g.entries.size) = [] := by
      rw [List.filter_eq_nil_iff]
      rintro ⟨w, i⟩ hw
      have hlt := hv w (List.mem_of_getElem? (List.mk_mem_zipIdx_iff_getElem?.1 hw))
      simpa using Nat.ne_of_lt hlt
    rw [hnone]
    simp [usesOf, Array.getD_eq_getD_getElem?]
  · exact usesOf_of_le (by rw [size_newNode]; exact hlt)

theorem slot_newNode {o : Option Value} :
    (g.newNode op types operands payload).1.Slot u o ↔
      (u.user = g.entries.size ∧ ∃ v, (taken operands)[u.slot]? = some v ∧ o = some v) ∨
        g.Slot u o := by
  rw [Slot, contains_newNode, node_newNode]
  by_cases hu : u.user = g.entries.size
  · have hfresh : ¬ g.Slot u o := fun h => absurd (contains_lt h.1) (by omega)
    simp only [hu, if_true, decide_true, Bool.true_or, true_and, List.getElem?_map,
      Option.map_eq_some_iff, hfresh, or_false]
    exact exists_congr fun v => and_congr_right fun _ => eq_comm
  · simp [hu, Slot]

theorem Exact.newNode (h : g.Exact) (hv : ∀ v ∈ taken operands, v.node < g.entries.size) :
    (g.newNode op types operands payload).1.Exact := by
  have hslot : ∀ {i : Nat} {w : Value}, (taken operands)[i]? = some w → w.node < g.entries.size :=
    fun hi => hv _ (List.mem_of_getElem? hi)
  refine ⟨?_, ?_, ?_⟩
  · intro u v hu
    rw [size_newNode]
    rcases slot_newNode.1 hu with ⟨-, w, hw, he⟩ | hu
    · cases he
      exact Nat.lt_succ_of_lt (hslot hw)
    · exact Nat.lt_succ_of_lt (h.known u v hu)
  · intro of u
    simp only [slot_newNode, or_and_right, exists_or]
    cases of with
    | none =>
      rw [show (g.newNode op types operands payload).1.usesOf none = g.usesOf none from
        emptyUses_newNode .., h.mem_usesOf]
      constructor
      · exact .inr
      · rintro (⟨o, ⟨-, w, -, rfl⟩, ho⟩ | ho)
        · cases ho
        · exact ho
    | some id =>
      by_cases hid : id < g.entries.size
      · rw [usesOf_newNode _ _ _ _ _ hid, List.mem_append, h.mem_usesOf, mem_newUses, or_comm]
        refine or_congr_left ⟨?_, ?_⟩
        · rintro ⟨hu, i, hi⟩
          exact ⟨_, ⟨hu, _, hi, rfl⟩, rfl⟩
        · rintro ⟨o, ⟨hu, w, hw, rfl⟩, hn⟩
          cases hn
          exact ⟨hu, w.result, hw⟩
      · rw [usesOf_newNode_of_le hv (Nat.not_lt.1 hid)]
        simp only [List.not_mem_nil, false_iff, not_or, not_exists]
        constructor
        · rintro o ⟨⟨-, w, hw, rfl⟩, hn⟩
          cases hn
          exact hid (hslot hw)
        · rintro o ⟨hs, hn⟩
          obtain ⟨w, rfl, rfl⟩ := Option.map_eq_some_iff.1 hn
          exact hid (h.known u w hs)
  · intro of
    cases of with
    | none =>
      rw [show (g.newNode op types operands payload).1.usesOf none = g.usesOf none from
        emptyUses_newNode ..]
      exact h.nodup none
    | some id =>
      by_cases hid : id < g.entries.size
      · rw [usesOf_newNode _ _ _ _ _ hid]
        refine List.nodup_append.2 ⟨h.nodup _, nodup_newUses .., ?_⟩
        rintro a ha b hb rfl
        obtain ⟨o, hs, -⟩ := (h.mem_usesOf _ a).1 ha
        have hc := contains_lt hs.1
        rw [(mem_newUses.1 hb).1] at hc
        exact Nat.lt_irrefl _ hc
      · rw [usesOf_newNode_of_le hv (Nat.not_lt.1 hid)]
        exact List.nodup_nil

end NewNode

theorem node_empty (signature : Signature) (id : Nat) : (Graph.empty signature).node id =
    if id = 0 then ⟨.entryToken, [.chain], [], .none⟩ else default := by
  rcases id with - | id
  · rfl
  · exact node_of_le (by simp [Graph.empty, Graph.newNode])

theorem Exact.empty (signature : Signature) : (Graph.empty signature).Exact := by
  have hslot : ∀ u o, ¬ (Graph.empty signature).Slot u o := by
    rintro u o ⟨-, ho⟩
    rw [node_empty] at ho
    split at ho <;> cases ho
  have huses : ∀ of, (Graph.empty signature).usesOf of = [] := by
    rintro (- | - | id)
    · rfl
    · rfl
    · exact usesOf_of_le (by simp [Graph.empty, Graph.newNode])
  refine ⟨fun u v hu => absurd hu (hslot _ _), fun of u => ?_, fun of => ?_⟩
  · simp [huses, hslot]
  · rw [huses]
    exact List.nodup_nil

/-! ### Soundness -/

/-- Use lists are exact, and operands and root are results that the graph has. -/
structure Sound (g : Graph) : Prop where
  exact : g.Exact
  operands : ∀ id, g.contains id → ∀ o ∈ (g.node id).operands, ∃ v, o = some v ∧ g.Has v
  root : ∃ v, g.root = some v ∧ g.Has v
  entry : g.contains entry.node ∧ g.node entry.node = ⟨.entryToken, [.chain], [], .none⟩

namespace Sound

theorem has_root (h : g.Sound) (hr : g.root = some v) : g.Has v := by
  obtain ⟨r, hr', hhas⟩ := h.root
  exact Option.some.inj (hr'.symm.trans hr) ▸ hhas

theorem mem_usesOf (h : g.Sound) (id : Nat) (u : Use) :
    u ∈ g.usesOf (some id) ↔ g.contains u.user ∧ ∃ i, g.operand u = some ⟨id, i⟩ := by
  rw [h.exact.mem_usesOf]
  constructor
  · rintro ⟨o, hs, ho⟩
    obtain ⟨v, rfl, rfl⟩ := Option.map_eq_some_iff.1 ho
    exact ⟨hs.1, v.result, hs.operand⟩
  · rintro ⟨hc, i, hi⟩
    exact ⟨_, slot_some.2 ⟨hc, hi⟩, rfl⟩

theorem nodup (h : g.Sound) (id : Nat) : (g.usesOf (some id)).Nodup := h.exact.nodup _

theorem emptyUses (h : g.Sound) : g.emptyUses = [] := by
  refine List.eq_nil_iff_forall_not_mem.2 fun u hu => ?_
  obtain ⟨o, hs, ho⟩ := (h.exact.mem_usesOf none u).1 hu
  obtain ⟨v, rfl, -⟩ := h.operands u.user hs.1 o (List.mem_of_getElem? hs.2)
  cases ho

theorem has_operand (h : g.Sound) (hid : g.contains id) (hv : some v ∈ (g.node id).operands) :
    g.Has v := by
  obtain ⟨w, hw, hhas⟩ := h.operands id hid _ hv
  cases hw
  exact hhas

theorem has_of_getElem? (h : g.Sound) (hid : g.contains id) {i : Nat} {o : Option Value}
    (ho : (g.node id).operands[i]? = some o) : ∃ v, o = some v ∧ g.Has v :=
  h.operands id hid o (List.mem_of_getElem? ho)

theorem newNode {op : Opcode} {types : List ValueType} {operands : List (Option Value)}
    {payload : Payload} (h : g.Sound) (hv : ∀ v ∈ taken operands, g.Has v) :
    (g.newNode op types operands payload).1.Sound := by
  refine ⟨h.exact.newNode fun v hv' => (hv v hv').lt, ?_, ?_, ?_, ?_⟩
  · intro id hid o ho
    rw [node_newNode] at ho
    split at ho
    · obtain ⟨w, hw, rfl⟩ := List.mem_map.1 ho
      exact ⟨w, rfl, has_newNode (hv w hw)⟩
    · rename_i hne
      obtain ⟨w, rfl, hw⟩ := h.operands id (by simpa [contains_newNode, hne] using hid) o ho
      exact ⟨w, rfl, has_newNode hw⟩
  · obtain ⟨w, hw, hhas⟩ := h.root
    exact ⟨w, by simp [hw], has_newNode hhas⟩
  · simp [contains_newNode, h.entry.1]
  · rw [node_newNode_of_ne _ _ _ _ _ (Nat.ne_of_lt (contains_lt h.entry.1)), h.entry.2]

theorem of_root (h : g.Sound) (hv : g.Has v) : ({ g with root := some v } : Graph).Sound :=
  ⟨h.exact.congr rfl rfl, h.operands, ⟨v, rfl, hv⟩, h.entry⟩

theorem of_frame (h : g.Sound) (f : Frame) : ({ g with frame := f } : Graph).Sound :=
  ⟨h.exact.congr rfl rfl, h.operands, h.root, h.entry⟩

theorem empty (signature : Signature) : (Graph.empty signature).Sound := by
  refine ⟨.empty signature, ?_, ⟨Graph.entry, rfl, rfl, rfl⟩, rfl, rfl⟩
  intro id _ o ho
  rw [node_empty] at ho
  split at ho <;> exact absurd ho List.not_mem_nil

end Sound

/-! ### Growth -/

/-- Only negative indices name fixed objects. -/
structure FixedBelow (f : Frame) : Prop where
  fixed : ∀ o ∈ f.fixed.toList, o.index < 0
  byIndex : ∀ i o, f.object? i = some o → o.fixed → i < 0

theorem FixedBelow.createFixed {f : Frame} (h : FixedBelow f) (size offset : Int64)
    (immutable : Bool) : FixedBelow (f.createFixed size offset immutable).1 := by
  have hindex : -((f.fixed.size : Int) + 1) < 0 := by omega
  refine ⟨fun o ho => ?_, fun i o ho hfixed => ?_⟩
  · rcases ObjectSet.mem_of_mem_putInto ho with rfl | ho
    · exact hindex
    · exact h.fixed o ho
  · rw [Frame.object?, Frame.createFixed, List.lookup_cons] at ho
    split at ho <;> rename_i hi
    · exact beq_iff_eq.1 hi ▸ hindex
    · exact h.byIndex i o ho hfixed

/-- The second graph has the nodes of the first, as they are, and maybe more; so with fixed frame
objects, which are numbered downwards as they come. -/
structure Extends (g g' : Graph) : Prop where
  size : g.entries.size ≤ g'.entries.size
  node : ∀ id < g.entries.size, g'.node id = g.node id
  contains : ∀ id < g.entries.size, g'.contains id = g.contains id
  signature : g'.signature = g.signature
  frame : FixedBelow g.frame → FixedBelow g'.frame

namespace Extends

variable {g' g'' : Graph}

theorem refl (g : Graph) : g.Extends g :=
  ⟨Nat.le_refl _, fun _ _ => rfl, fun _ _ => rfl, rfl, id⟩

theorem trans (h : g.Extends g') (h' : g'.Extends g'') : g.Extends g'' where
  size := Nat.le_trans h.size h'.size
  node id hid := (h'.node id (Nat.lt_of_lt_of_le hid h.size)).trans (h.node id hid)
  contains id hid := (h'.contains id (Nat.lt_of_lt_of_le hid h.size)).trans (h.contains id hid)
  signature := h'.signature.trans h.signature
  frame hf := h'.frame (h.frame hf)

theorem newNode (g : Graph) (op : Opcode) (types : List ValueType) (operands : List (Option Value))
    (payload : Payload) : g.Extends (g.newNode op types operands payload).1 where
  size := by simp
  node id hid := node_newNode_of_ne _ _ _ _ _ (Nat.ne_of_lt hid)
  contains id hid := by simp [contains_newNode, Nat.ne_of_lt hid]
  signature := by simp
  frame := by simp

theorem createFixed (g : Graph) (size offset : Int64) (immutable : Bool) :
    g.Extends { g with frame := (g.frame.createFixed size offset immutable).1 } where
  size := Nat.le_refl _
  node _ _ := rfl
  contains _ _ := rfl
  signature := rfl
  frame hf := hf.createFixed size offset immutable

theorem reframe (g : Graph) {f : Frame} (hf : f.fixed = g.frame.fixed)
    (hi : f.byIndex = g.frame.byIndex) : g.Extends { g with frame := f } where
  size := Nat.le_refl _
  node _ _ := rfl
  contains _ _ := rfl
  signature := rfl
  frame h := ⟨hf ▸ h.fixed, fun i o => by rw [Frame.object?, hi]; exact h.byIndex i o⟩

theorem reroot (g : Graph) (root : Option Value) : g.Extends { g with root } :=
  ⟨Nat.le_refl _, fun _ _ => rfl, fun _ _ => rfl, rfl, id⟩

theorem has (h : g.Extends g') (hv : g.Has v) : g'.Has v := by
  refine ⟨by rw [h.contains _ hv.lt]; exact hv.1, ?_⟩
  rw [type?_eq, h.node _ hv.lt, ← type?_eq]
  exact hv.2

theorem type? (h : g.Extends g') (hv : v.node < g.entries.size) : g'.type? v = g.type? v := by
  rw [type?_eq, h.node _ hv, ← type?_eq]

end Extends

end GraphLowering.Graph
