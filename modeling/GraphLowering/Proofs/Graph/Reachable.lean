import GraphLowering.Proofs.Graph.Removal
import GraphLowering.Proofs.Graph.Users

/-!
# Graphs that the interface can make

`Reachable` is every graph that comes of the empty one by building nodes, by setting the root, by
replacements, by writing operands and by removing dead nodes, in any order. Values may name removed
nodes, roots and operands may be empty, and results need not be there: the use lists are exact all
the same, and what is read off them is what the operands and the root say.
-/

namespace GraphLowering.Graph

variable {g g' : Graph} {o : Option Value}

/-! ### Building nodes -/

/-- An operand that is empty or names a node that was made. -/
def Made (g : Graph) (o : Option Value) : Prop := ∀ v, o = some v → v.node < g.entries.size

/-- The ways to build nodes. Constants, registers, symbols and the like are leaves; unary and binary
operations, pairs, selects, stores and returns have a single result. -/
inductive Builds (g : Graph) : Graph → Prop where
  | newNode (op : Opcode) (types : List ValueType) (operands : List (Option Value))
      (payload : Payload) (h : ∀ o ∈ operands, g.Made o) :
      Builds g (g.newNode op types operands payload).1
  | leaf (op : Opcode) (vt : ValueType) (payload : Payload) : Builds g (g.leaf op vt payload).1
  | single (op : Opcode) (vt : ValueType) (operands : List (Option Value))
      (h : ∀ o ∈ operands, g.Made o) : Builds g (g.single op vt operands).1
  | mergeValues (values : List (Option Value)) (h : ∀ o ∈ values, g.Made o) {r : Graph × Nat}
      (hr : g.mergeValues? values = some r) : Builds g r.1
  | extractElement (vt : ValueType) (pair : Option Value) (i : Int64) (h : g.Made pair) :
      Builds g (g.extractElement vt pair i).1
  | setCC (vt : ValueType) (a b : Option Value) (cc : CondCode) (h : ∀ o ∈ [a, b], g.Made o) :
      Builds g (g.setCC vt a b cc).1
  | select (a t f : Option Value) (h : ∀ o ∈ [a, t, f], g.Made o) {r : Graph × Value}
      (hr : g.select? a t f = some r) : Builds g r.1
  | selectCC (a b t f : Option Value) (cc : CondCode) (h : ∀ o ∈ [a, b, t, f], g.Made o)
      {r : Graph × Value} (hr : g.selectCC? a b t f cc = some r) : Builds g r.1
  | frameAddr (depth : Int64) (vt : ValueType) : Builds g (g.frameAddr depth vt).1
  | returnAddr (depth : Int64) (vt : ValueType) : Builds g (g.returnAddr depth vt).1
  | tokenFactor (chains : List (Option Value)) (h : ∀ o ∈ chains, g.Made o) :
      Builds g (g.tokenFactor chains).1
  | copyToReg (chain : Option Value) (r : Register) (v glue : Option Value)
      (h : ∀ o ∈ [chain, v, glue], g.Made o) {r' : Graph × Nat}
      (hr : g.copyToReg? chain r v glue = some r') : Builds g r'.1
  | copyFromReg (chain : Option Value) (r : Register) (vt : ValueType) (glue : Option Value)
      (h : ∀ o ∈ [chain, glue], g.Made o) : Builds g (g.copyFromReg chain r vt glue).1
  | load (chain ptr : Option Value) (vt : ValueType) (h : ∀ o ∈ [chain, ptr], g.Made o) :
      Builds g (g.load chain ptr vt).1
  | atomicLoadAdd (chain ptr inc : Option Value) (h : ∀ o ∈ [chain, ptr, inc], g.Made o)
      {r : Graph × Nat} (hr : g.atomicLoadAdd? chain ptr inc = some r) : Builds g r.1
  | br (chain : Option Value) (block : String) (h : g.Made chain) : Builds g (g.br chain block).1
  | brCond (chain cond : Option Value) (block : String) (h : ∀ o ∈ [chain, cond], g.Made o) :
      Builds g (g.brCond chain cond block).1
  | brCC (chain : Option Value) (cc : CondCode) (a b : Option Value) (block : String)
      (h : ∀ o ∈ [chain, a, b], g.Made o) : Builds g (g.brCC chain cc a b block).1
  | call (chain callee : Option Value) (args : List (Option Value)) (results : List ValueType)
      (info : CallInfo) (h : ∀ o ∈ chain :: callee :: args, g.Made o) :
      Builds g (g.call chain callee args results info).1
  | callSeqStart (chain : Option Value) (bytes : Int64) (h : g.Made chain) :
      Builds g (g.callSeqStart chain bytes).1
  | callSeqEnd (chain : Option Value) (bytes : Int64) (glue : Option Value)
      (h : ∀ o ∈ [chain, glue], g.Made o) : Builds g (g.callSeqEnd chain bytes glue).1

theorem Made.mono (h : g.Made o) (hle : g.entries.size ≤ g'.entries.size) : g'.Made o :=
  fun v hv => Nat.lt_of_lt_of_le (h v hv) hle

namespace Exact

section NewNode

variable {op : Opcode} {types : List ValueType} {operands : List (Option Value)} {payload : Payload}

theorem newNode_of_made (h : g.Exact) (ho : ∀ o ∈ operands, g.Made o) :
    (g.newNode op types operands payload).1.Exact := by
  refine h.newNode fun v hv => ?_
  obtain ⟨o, ho', rfl⟩ := List.mem_filterMap.1 hv
  exact ho _ ho' v rfl

theorem newNode_leaf {op' : Opcode} {vt : ValueType} {payload' : Payload} (h : g.Exact)
    (before after : List (Option Value)) (ho : ∀ o ∈ before ++ after, g.Made o) :
    ((g.leaf op' vt payload').1.newNode op types
      (before ++ some (g.leaf op' vt payload').2 :: after) payload).1.Exact := by
  have hleaf : (g.leaf op' vt payload').1.Exact := h.newNode_of_made (by simp)
  have hsize : (g.leaf op' vt payload').1.entries.size = g.entries.size + 1 := size_newNode ..
  have hmade : ∀ o ∈ before ++ after, (g.leaf op' vt payload').1.Made o := fun o ho' =>
    (ho o ho').mono (by omega)
  refine hleaf.newNode_of_made fun o ho' => ?_
  rcases List.mem_append.1 ho' with ho' | ho'
  · exact hmade o (List.mem_append_left _ ho')
  rcases List.mem_cons.1 ho' with rfl | ho'
  · intro v hv
    cases hv
    exact hsize ▸ Nat.lt_succ_self _
  · exact hmade o (List.mem_append_right _ ho')

end NewNode

theorem builds (h : g.Exact) (hb : g.Builds g') : g'.Exact := by
  -- a leaf can be taken by whatever is made after it
  have hleaf : ∀ (op : Opcode) (vt : ValueType) (payload : Payload) (ops : List (Option Value)),
      (∀ o ∈ ops, g.Made o) → (g.leaf op vt payload).1.Exact ∧
        ∀ o ∈ some (g.leaf op vt payload).2 :: ops, (g.leaf op vt payload).1.Made o := by
    refine fun op vt payload ops ho => ⟨h.newNode_of_made (by simp), fun o ho' => ?_⟩
    rcases List.mem_cons.1 ho' with rfl | ho'
    · intro v hv
      cases hv
      simp [Graph.leaf]
    · exact (ho o ho').mono (by simp [Graph.leaf])
  cases hb with
  | newNode op types operands payload ho => exact h.newNode_of_made ho
  | leaf op vt payload => exact h.newNode_of_made (by simp)
  | single op vt operands ho => exact h.newNode_of_made ho
  | mergeValues values ho hr =>
    obtain ⟨types, -, hr⟩ := Option.bind_eq_some_iff.1 hr
    cases hr
    exact h.newNode_of_made ho
  | extractElement vt pair i ho => exact h.newNode_leaf [pair] [] (by simpa using ho)
  | setCC vt a b cc ho => exact h.newNode_leaf [a, b] [] ho
  | select a t f ho hr =>
    obtain ⟨vt, -, hr⟩ := Option.bind_eq_some_iff.1 hr
    cases hr
    exact h.newNode_of_made ho
  | selectCC a b t f cc ho hr =>
    obtain ⟨vt, -, hr⟩ := Option.bind_eq_some_iff.1 hr
    cases hr
    exact h.newNode_leaf [a, b, t, f] [] ho
  | frameAddr depth vt => exact h.newNode_leaf [] [] (by simp)
  | returnAddr depth vt => exact h.newNode_leaf [] [] (by simp)
  | tokenFactor chains ho =>
    unfold Graph.tokenFactor
    split
    · exact h
    · refine h.newNode_of_made fun o ho' => ?_
      obtain ⟨c, hc, rfl⟩ := List.mem_map.1 ho'
      obtain ⟨o, ho', rfl⟩ := List.mem_filterMap.1 (List.mem_eraseDups.1 hc)
      exact ho _ ho'
  | copyToReg chain r v glue ho hr =>
    obtain ⟨vt, -, hr⟩ := Option.bind_eq_some_iff.1 hr
    cases hr
    exact h.newNode_leaf [chain] [v, glue] ho
  | copyFromReg chain r vt glue ho => exact h.newNode_leaf [chain] [glue] ho
  | load chain ptr vt ho => exact h.newNode_of_made ho
  | atomicLoadAdd chain ptr inc ho hr =>
    obtain ⟨vt, -, hr⟩ := Option.bind_eq_some_iff.1 hr
    cases hr
    exact h.newNode_of_made ho
  | br chain block ho => exact h.newNode_leaf [chain] [] (by simpa using ho)
  | brCond chain cond block ho => exact h.newNode_leaf [chain, cond] [] ho
  | brCC chain cc a b block ho =>
    obtain ⟨hcc, hmade⟩ := hleaf .condCode .chain (.condition cc) [chain, a, b] ho
    refine hcc.newNode_leaf [chain, _, a, b] [] fun o ho' => hmade o ?_
    simp only [List.append_nil, List.mem_cons, List.not_mem_nil, or_false] at ho' ⊢
    tauto
  | call chain callee args results info ho => exact h.newNode_of_made ho
  | callSeqStart chain bytes ho => exact h.newNode_leaf [chain] [] (by simpa using ho)
  | callSeqEnd chain bytes glue ho =>
    obtain ⟨hb, hmade⟩ := hleaf .targetConstant .i32 (.integer bytes) [chain, glue] ho
    refine hb.newNode_leaf [chain, _] [glue] fun o ho' => hmade o ?_
    simp only [List.cons_append, List.nil_append, List.mem_cons, List.not_mem_nil,
      or_false] at ho' ⊢
    tauto

end Exact

/-! ### All changes -/

/-- One change of a graph through its interface. Dead nodes may be removed in any order. -/
inductive Change (g : Graph) : Graph → Prop where
  | build {g' : Graph} (h : g.Builds g') : Change g g'
  | setRoot (root : Option Value) : Change g { g with root }
  | setFrame (frame : Frame) : Change g { g with frame }
  | replaceValue (old : Option Value) (new : Value) (h : g.Made (some new)) :
      Change g (g.replaceValue old (some new))
  | replaceNode (id : Nat) (values : List (Option Value)) (h : ∀ o ∈ values, g.Made o) {g' : Graph}
      (hg : g.replaceNode id values = .ok g') : Change g g'
  | updateOperand (u : Use) (w : Option Value) (hu : g.contains u.user) (h : g.Made w) {g' : Graph}
      (hg : g.updateOperand u w = some g') : Change g g'
  | removeDead (ids : List Nat) (h : ids.Perm g.deadNodes) :
      Change g (ids.foldl removeCounted (g, 0)).1

/-- The graphs that changes make of an empty one. -/
inductive Reachable : Graph → Prop where
  | empty (signature : Signature) : Reachable (Graph.empty signature)
  | step {g g' : Graph} (h : Reachable g) (hc : g.Change g') : Reachable g'

theorem size_replaceValue_some (g : Graph) (old : Option Value) (new : Value) :
    (g.replaceValue old (some new)).entries.size = g.entries.size := by
  by_cases hne : old = some new
  · rw [replaceValue, if_pos hne]
  · exact size_replaceValue hne

namespace Exact

theorem replaceValue_of_made (h : g.Exact) (old : Option Value) {new : Value}
    (hn : g.Made (some new)) : (g.replaceValue old (some new)).Exact := by
  by_cases hne : old = some new
  · rw [Graph.replaceValue, if_pos hne]
    exact h
  · exact h.replaceValue hne (hn new rfl)

theorem replaceResults {id k : Nat} {values : List (Option Value)} (h : g.Exact)
    (hv : ∀ o ∈ values, g.Made o) : (g.replaceResults id k values).Exact := by
  induction values generalizing g k with
  | nil => exact h
  | cons o rest ih =>
    have hrest := fun o ho => hv o (List.mem_cons_of_mem _ ho)
    cases o with
    | none => exact ih h hrest
    | some v =>
      have hv' := hv (some v) List.mem_cons_self
      refine ih (h.replaceValue_of_made (some ⟨id, k⟩) hv') fun o ho => ?_
      exact (hrest o ho).mono (size_replaceValue_some ..).ge

theorem change (h : g.Exact) (hc : g.Change g') : g'.Exact := by
  cases hc with
  | build hb => exact h.builds hb
  | setRoot root => exact h.congr rfl rfl
  | setFrame frame => exact h.congr rfl rfl
  | replaceValue old new hn => exact h.replaceValue_of_made old hn
  | replaceNode id values hv hg =>
    rw [replaceNode_eq] at hg
    split at hg <;> cases hg
    exact h.replaceResults hv
  | updateOperand u w hu hw hg => exact h.updateOperand hu hw hg
  | removeDead ids hids =>
    rw [foldl_removeCounted]
    exact h.removeDead hids

end Exact

theorem Reachable.exact (h : g.Reachable) : g.Exact := by
  induction h with
  | empty signature => exact .empty signature
  | step _ hc ih => exact ih.change hc

/-- In every graph that the interface can make, the use list of a node holds each operand that takes
a result of it once and nothing else, so the users and the uses that are reported are those that the
operands and the root show. -/
theorem Reachable.uses_eq_operands (h : g.Reachable) (id : Nat) :
    (∀ u, (g.usesOf (some id)).count u =
      if g.contains u.user ∧ (g.operand u).map (·.node) = some id then 1 else 0) ∧
    (Ascending (g.users (some id)) ∧ ∀ a, a ∈ g.users (some id) ↔
      g.contains a ∧ ∃ i, some ⟨id, i⟩ ∈ (g.node a).operands) ∧
    (g.hasUses (some id) ↔
      (∃ a i, g.contains a ∧ some ⟨id, i⟩ ∈ (g.node a).operands) ∨ ∃ i, g.root = some ⟨id, i⟩) ∧
    ∀ i, (Ascending (g.valueUsers (some ⟨id, i⟩)) ∧ ∀ a, a ∈ g.valueUsers (some ⟨id, i⟩) ↔
        g.contains a ∧ some ⟨id, i⟩ ∈ (g.node a).operands) ∧
      (g.valueHasUses (some ⟨id, i⟩) ↔
        (∃ a, g.contains a ∧ some ⟨id, i⟩ ∈ (g.node a).operands) ∨ g.root = some ⟨id, i⟩) := by
  have he := h.exact
  -- an operand of a node of the graph is a slot
  have hslot : ∀ v, (∃ u, g.Slot u (some v)) ↔ ∃ a, g.contains a ∧
      some v ∈ (g.node a).operands := by
    intro v
    constructor
    · rintro ⟨u, hc, ho⟩
      exact ⟨u.user, hc, List.mem_of_getElem? ho⟩
    · rintro ⟨a, hc, hv⟩
      obtain ⟨k, hk⟩ := List.mem_iff_getElem?.1 hv
      exact ⟨⟨a, k⟩, hc, hk⟩
  refine ⟨fun u => ?_, ⟨ascending_ascending _, fun a => he.mem_users⟩, ?_, fun i =>
    ⟨⟨ascending_ascending _, fun a => he.mem_valueUsers⟩, ?_⟩⟩
  · rw [(he.nodup _).count]
    refine if_congr ((he.mem_usesOf _ u).trans ⟨?_, ?_⟩) rfl rfl
    · rintro ⟨o, hs, ho⟩
      exact ⟨hs.1, hs.operand ▸ ho⟩
    · rintro ⟨hc, ho⟩
      obtain ⟨v, hv, rfl⟩ := Option.map_eq_some_iff.1 ho
      exact ⟨_, slot_some.2 ⟨hc, hv⟩, rfl⟩
  · rw [he.hasUses_iff]
    refine or_congr ?_ ⟨?_, ?_⟩
    · rw [exists_comm]
      simp only [hslot]
      exact exists_comm
    · rintro ⟨v, hr, rfl⟩
      exact ⟨v.result, hr⟩
    · rintro ⟨i, hr⟩
      exact ⟨_, hr, rfl⟩
  · rw [he.valueHasUses_iff, hslot]

/-- Two equal operands of one node are two uses, and stay so when the node is the root and what it
uses is replaced by a removed node. -/
theorem uses_eq_operands_removed :
    let g := (Graph.empty {}).leaf .constant .i32 (.integer 1) |>.1.removeDead.1
    let g := g.leaf .constant .i32 (.integer 2) |>.1
    let g := g.single .add .i32 [some ⟨2, 0⟩, some ⟨2, 0⟩] |>.1
    let g := g.replaceValue (some ⟨2, 0⟩) (some ⟨1, 0⟩)
    g.Reachable ∧ (g.usesOf (some 1)).count ⟨3, 1⟩ = 1 := by
  intro g₁ g₂ g₃ g₄
  have h : g₄.Reachable := by
    refine .step (.step (.step (.step (.step (.empty {}) (.build (.leaf ..)))
      (.removeDead _ (.refl _))) (.build (.leaf ..))) (.build (.single _ _ _ ?_)))
      (.replaceValue _ _ ?_)
    · intro o ho v hv
      subst hv
      have : v = ⟨2, 0⟩ := by simpa using ho
      subst this
      decide
    · intro v hv
      cases hv
      decide
  exact ⟨h, (h.uses_eq_operands 1).1 ⟨3, 1⟩ |>.trans (if_pos (by decide))⟩

end GraphLowering.Graph
