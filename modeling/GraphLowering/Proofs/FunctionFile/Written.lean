import GraphLowering.FunctionFile.Build
import GraphLowering.Proofs.Failures
import GraphLowering.Proofs.Graph.Dependence
import GraphLowering.Proofs.Graph.Frame

/-!
# Graphs of function files

A graph that was read from a file is sound and acyclic: every node is in it, operands come before
their users, and its operations, frame objects and parameters are those that can be written
(`Written`). Reading a node keeps this (`Draft.build_written`), so every graph of an accepted file
has it (`parse_written`).
-/

namespace GraphLowering

/-- How many operands a node of a shared operation has at least. -/
def Opcode.arity : Opcode → Nat
  | .signExtend | .zeroExtend | .truncate | .ret | .frameAddr | .returnAddr | .copyFromReg => 1
  | .buildPair | .extractElement | .add | .sub | .mul | .sdiv | .udiv | .srem | .urem | .and | .or
  | .xor | .shl | .sra | .srl | .load | .br | .call | .copyToReg | .callSeqEnd => 2
  | .setCC | .select | .brCond | .store | .atomicLoadAdd => 3
  | .selectCC | .brCC => 5
  | _ => 0

/-- Whether a node of an operation may have results of these types: a load and a call also give a
chain. -/
def Opcode.gives (op : Opcode) (types : List ValueType) : Bool :=
  match op with
  | .load | .atomicLoadAdd => types.length = 2 && types.getLast? = some .chain
  | .call => types.getLast? = some .chain
  | .store | .ret | .br | .brCond | .brCC | .target 3 => types = [.chain]
  | .copyToReg | .callSeqEnd | .target 2 => types.length = 2
  | .copyFromReg => types.length = 3
  | _ => types.length = 1

variable {op : Opcode}

theorem Opcode.ne_nil_of_gives {types : List ValueType} (h : op.gives types) : types ≠ [] := by
  rintro rfl
  unfold Opcode.gives at h
  split at h <;> cases h

/-- The operand whose type a choice has; a branch has the type of its destination. -/
def Opcode.arm? : Opcode → Option Nat
  | .select => some 1
  | .selectCC | .brCond => some 2
  | .brCC => some 4
  | _ => none

/-- Operations that a file brings into a graph, by name or as part of another node, with a number of
operands. -/
def Opcode.isWritten (op : Opcode) (count : Nat) : Bool :=
  match op with
  | .load => count = 2
  | .entryToken | .tokenFactor | .constant | .basicBlock | .frameIndex | .globalAddress
  | .externalSymbol | .condCode | .undef | .argument | .buildPair | .extractElement | .add | .sub
  | .mul | .sdiv | .udiv | .srem | .urem | .and | .or | .xor | .shl | .sra | .srl | .signExtend
  | .zeroExtend | .truncate | .setCC | .select | .selectCC | .brCC | .brCond | .br | .store
  | .atomicLoadAdd | .call | .ret | .frameAddr | .returnAddr => op.arity ≤ count
  | _ => false

theorem Opcode.arity_le_of_isWritten {count : Nat} (h : op.isWritten count) : op.arity ≤ count := by
  unfold Opcode.isWritten at h
  split at h
  · exact (of_decide_eq_true h).ge
  all_goals first | exact of_decide_eq_true h | cases h

namespace FunctionFile

variable {g : Graph}

/-- What a graph that was read from a file looks like. -/
structure Written (g : Graph) : Prop where
  sound : g.Sound
  present : ∀ id < g.entries.size, g.contains id
  before : ∀ id v, some v ∈ (g.node id).operands → v.node < id
  op : ∀ id < g.entries.size, (g.node id).op.isWritten (g.node id).operands.length
  gives : ∀ id < g.entries.size, (g.node id).op.gives (g.node id).types
  arm : ∀ id < g.entries.size, ∀ i, (g.node id).op.arm? = some i →
    ∃ v, (g.node id).operands[i]? = some (some v) ∧ g.type? v = (g.node id).types.head?
  frameIndex : ∀ id, (g.node id).op = .frameIndex →
    0 ≤ (g.node id).index ∧ (g.node id).index < g.frame.locals.length
  argument : ∀ id, (g.node id).op = .argument →
    0 ≤ (g.node id).index ∧ (g.node id).index < g.signature.params.length
  objects : g.frame.Holds g.frame.locals

namespace Written

theorem acyclic (h : Written g) : g.Acyclic := by
  have hdown : ∀ a b, Relation.TransGen g.Needs a b → b < a := by
    intro a b hab
    induction hab with
    | single hn =>
      obtain ⟨-, i, hi⟩ := Graph.needs_iff.1 hn
      exact h.before _ _ hi
    | tail _ hn ih =>
      obtain ⟨-, i, hi⟩ := Graph.needs_iff.1 hn
      exact Nat.lt_trans (h.before _ _ hi) ih
  exact fun a ha => Nat.lt_irrefl a (hdown a a ha)

theorem empty (signature : Signature) : Written (Graph.empty signature) := by
  have hnode : ∀ id, (Graph.empty signature).node id =
      if id = 0 then ⟨.entryToken, [.chain], [], .none⟩ else default := by
    intro id
    rcases id with - | id
    · rfl
    · exact Graph.node_of_le (by simp [Graph.empty, Graph.newNode])
  have hzero : ∀ id < (Graph.empty signature).entries.size, id = 0 := by
    intro id hid
    simpa [Graph.empty, Graph.newNode] using hid
  refine ⟨.empty signature, ?_, ?_, ?_, ?_, ?_, ?_, ?_, .empty⟩
  · intro id hid
    rw [hzero id hid]
    rfl
  · intro id v hv
    rw [hnode] at hv
    split at hv <;> exact absurd hv List.not_mem_nil
  · intro id hid
    rw [hzero id hid]
    rfl
  · intro id hid
    rw [hnode, if_pos (hzero id hid)]
    rfl
  · intro id hid i hi
    rw [hnode, if_pos (hzero id hid)] at hi
    cases hi
  · intro id hid
    rw [hnode] at hid
    split at hid <;> cases hid
  · intro id hid
    rw [hnode] at hid
    split at hid <;> cases hid

/-- A node that can be written may join, if its index names a local object or a parameter. -/
theorem newNode (h : Written g) {types : List ValueType}
    {operands : List (Option Value)} {payload : Payload}
    (hop : op.isWritten (Graph.taken operands).length) (hv : ∀ v ∈ Graph.taken operands, g.Has v)
    (hframe : op = .frameIndex → ∃ i, payload = .index i ∧ 0 ≤ i ∧ i < g.frame.locals.length)
    (harg : op = .argument → ∃ i, payload = .index i ∧ 0 ≤ i ∧ i < g.signature.params.length)
    (hgives : op.gives types) (harm : ∀ i, op.arm? = some i →
      ∃ v, (Graph.taken operands)[i]? = some v ∧ g.type? v = types.head?) :
    Written (g.newNode op types operands payload).1 := by
  refine ⟨h.sound.newNode hv, ?_, ?_, ?_, ?_, ?_, ?_, ?_, by simpa using h.objects⟩
  · intro id hid
    rw [Graph.size_newNode] at hid
    rw [Graph.contains_newNode]
    by_cases hnew : id = g.entries.size
    · simp [hnew]
    · simp [h.present id (by omega)]
  · intro id v hid
    rw [Graph.node_newNode] at hid
    split at hid <;> rename_i hnew
    · subst hnew
      obtain ⟨w, hw, e⟩ := List.mem_map.1 hid
      cases e
      exact (hv v hw).lt
    · exact h.before id v hid
  · intro id hid
    rw [Graph.size_newNode] at hid
    rw [Graph.node_newNode]
    split
    · simpa using hop
    · exact h.op id (by omega)
  · intro id hid
    rw [Graph.size_newNode] at hid
    rw [Graph.node_newNode]
    split
    · exact hgives
    · exact h.gives id (by omega)
  · intro id hid i hi
    rw [Graph.size_newNode] at hid
    rw [Graph.node_newNode] at hi ⊢
    have hold : ∀ v : Value, v.node < g.entries.size →
        (g.newNode op types operands payload).1.type? v = g.type? v := fun v hlt =>
      Graph.type?_newNode_of_ne _ _ _ _ _ (Nat.ne_of_lt hlt)
    split at hi <;> rename_i hnew
    · obtain ⟨v, hvi, ht⟩ := harm i hi
      rw [if_pos hnew]
      exact ⟨v, by simp [hvi], (hold v (hv v (List.mem_of_getElem? hvi)).lt).trans ht⟩
    · obtain ⟨v, hvi, ht⟩ := h.arm id (by omega) i hi
      have hlt := h.before id v (List.mem_of_getElem? hvi)
      rw [if_neg hnew]
      exact ⟨v, hvi, (hold v (by omega)).trans ht⟩
  · intro id hid
    rw [Graph.node_newNode] at hid ⊢
    rw [Graph.frame_newNode]
    split at hid <;> rename_i hnew
    · obtain ⟨i, rfl, hi⟩ := hframe hid
      rw [if_pos hnew]
      exact hi
    · rw [if_neg hnew]
      exact h.frameIndex id hid
  · intro id hid
    rw [Graph.node_newNode] at hid ⊢
    rw [Graph.signature_newNode]
    split at hid <;> rename_i hnew
    · obtain ⟨i, rfl, hi⟩ := harg hid
      rw [if_pos hnew]
      exact hi
    · rw [if_neg hnew]
      exact h.argument id hid

theorem createLocal (h : Written g) (size align : Int64) :
    Written { g with frame := (g.frame.createLocal size align).1 } := by
  refine ⟨h.sound.of_frame _, h.present, h.before, h.op, h.gives, h.arm,
    fun id hid => ?_, h.argument, h.objects.apply (.stack size align)⟩
  have := h.frameIndex id hid
  refine ⟨this.1, Int.lt_trans this.2 ?_⟩
  simp [Frame.createLocal, Int.lt_succ]

theorem fixed_eq_false (h : Written g) {o : FrameObject} (ho : o ∈ g.frame.locals) :
    o.fixed = false := by
  rw [h.objects.locals] at ho
  simpa using (List.mem_filter.1 ho).2

theorem fixedBelow (h : Written g) : Graph.FixedBelow g.frame := by
  refine ⟨fun o ho => ?_, fun i o ho hfixed => ?_⟩
  · obtain ⟨ho, hfixed⟩ := h.objects.mem_fixed.1 ho
    rw [h.fixed_eq_false ho] at hfixed
    cases hfixed
  · rw [h.fixed_eq_false ((h.objects.byIndex i o).1 ho).1] at hfixed
    cases hfixed

end Written

/-! ### Reading a node -/

/-- A graph that grew by what a file may bring, with the first result of a node of it. -/
structure Built (g : Graph) (r : Graph × Value) : Prop where
  written : Written r.1
  has : r.1.Has r.2
  first : r.2.result = 0
  contains : ∀ id, g.contains id → r.1.contains id
  signature : r.1.signature = g.signature

namespace Built

variable {op : Opcode} {vt : ValueType} {types : List ValueType} {operands : List (Option Value)}
  {payload : Payload}

theorem trans {r r' : Graph × Value} (h : Built g r) (h' : Built r.1 r') : Built g r' :=
  ⟨h'.written, h'.has, h'.first, fun id hid => h'.contains id (h.contains id hid),
    h'.signature.trans h.signature⟩

theorem newNode (h : Written g) (hop : op.isWritten (Graph.taken operands).length)
    (hv : ∀ v ∈ Graph.taken operands, g.Has v)
    (hframe : op = .frameIndex → ∃ i, payload = .index i ∧ 0 ≤ i ∧ i < g.frame.locals.length)
    (harg : op = .argument → ∃ i, payload = .index i ∧ 0 ≤ i ∧ i < g.signature.params.length)
    (hgives : op.gives types) (harm : ∀ i, op.arm? = some i →
      ∃ v, (Graph.taken operands)[i]? = some v ∧ g.type? v = types.head?) :
    Built g ((g.newNode op types operands payload).1, ⟨g.entries.size, 0⟩) := by
  refine ⟨h.newNode hop hv hframe harg hgives harm, ⟨?_, ?_⟩, rfl,
    fun id hid => ?_, Graph.signature_newNode ..⟩
  · simp [Graph.contains_newNode]
  · rw [Graph.type?_newNode_self]
    obtain ⟨t, ts, rfl⟩ := List.exists_cons_of_ne_nil (Opcode.ne_nil_of_gives hgives)
    rfl
  · simp [Graph.contains_newNode, hid]

theorem plain (h : Written g) (hop : op.isWritten (Graph.taken operands).length)
    (hne : op ≠ .frameIndex ∧ op ≠ .argument ∧ op.arm? = none)
    (hv : ∀ v ∈ Graph.taken operands, g.Has v) (hgives : op.gives types) :
    Built g ((g.newNode op types operands payload).1, ⟨g.entries.size, 0⟩) :=
  newNode h hop hv (fun e => absurd e hne.1) (fun e => absurd e hne.2.1) hgives fun i hi => by
    rw [hne.2.2] at hi
    cases hi

theorem leaf (h : Written g) (hop : op.isWritten 0) (hgives : op.gives [vt])
    (hne : op ≠ .frameIndex ∧ op ≠ .argument ∧ op.arm? = none) :
    Built g (g.leaf op vt payload) := by
  show Built g ((g.newNode op [vt] [] payload).1, ⟨g.entries.size, 0⟩)
  exact plain h hop hne (by simp [Graph.taken]) hgives

theorem indexed {i : Int} (h : Written g) (hop : op.isWritten 0)
    (hgives : op.gives [vt]) (hpos : 0 ≤ i) (hframe : op = .frameIndex → i < g.frame.locals.length)
    (harg : op = .argument → i < g.signature.params.length) (harm : op.arm? = none) :
    Built g (g.leaf op vt (.index i)) := by
  show Built g ((g.newNode op [vt] [] (.index i)).1, ⟨g.entries.size, 0⟩)
  exact newNode h hop (by simp [Graph.taken]) (fun e => ⟨i, rfl, hpos, hframe e⟩)
    (fun e => ⟨i, rfl, hpos, harg e⟩) hgives fun i hi => by
      rw [harm] at hi
      cases hi

theorem single (h : Written g) (hop : op.isWritten (Graph.taken operands).length)
    (hgives : op.gives [vt]) (hne : op ≠ .frameIndex ∧ op ≠ .argument ∧ op.arm? = none)
    (hv : ∀ v ∈ Graph.taken operands, g.Has v) : Built g (g.single op vt operands) :=
  plain h hop hne hv hgives

theorem choice {i : Nat} (h : Written g) (hop : op.isWritten (Graph.taken operands).length)
    (hgives : op.gives [vt]) (hne : op ≠ .frameIndex ∧ op ≠ .argument) (hi : op.arm? = some i)
    (hv : ∀ v ∈ Graph.taken operands, g.Has v)
    (harm : ∃ v, (Graph.taken operands)[i]? = some v ∧ g.type? v = some vt) :
    Built g (g.single op vt operands) :=
  newNode h hop hv (fun e => absurd e hne.1) (fun e => absurd e hne.2) hgives fun _ hj =>
    Option.some.inj (hi.symm.trans hj) ▸ harm

theorem single_leaf {leafOp : Opcode} {leafType : ValueType} {f : Value → List (Option Value)}
    (h : Written g) (hleaf : leafOp.isWritten 0) (hleaf' : leafOp.gives [leafType])
    (hleaf'' : leafOp ≠ .frameIndex ∧ leafOp ≠ .argument ∧ leafOp.arm? = none)
    (hop : ∀ l, op.isWritten (Graph.taken (f l)).length) (hgives : op.gives [vt])
    (hne : op ≠ .frameIndex ∧ op ≠ .argument)
    (harm : ∀ i, op.arm? = some i → vt = leafType ∧ ∀ l, (Graph.taken (f l))[i]? = some l)
    (hv : ∀ l, ∀ v ∈ Graph.taken (f l), v = l ∨ g.Has v) :
    Built g ((g.leaf leafOp leafType payload).1.single op vt
      (f (g.leaf leafOp leafType payload).2)) := by
  have hl : Built g (g.leaf leafOp leafType payload) := leaf h hleaf hleaf' hleaf''
  refine hl.trans (newNode hl.written (hop _) (fun v hmem => ?_) (fun e => absurd e hne.1)
    (fun e => absurd e hne.2) hgives fun i hi => ?_)
  · rcases hv _ v hmem with rfl | hhas
    · exact hl.has
    · exact Graph.has_newNode hhas
  · obtain ⟨rfl, hf⟩ := harm i hi
    exact ⟨_, hf _, Graph.type?_newNode_self ..⟩

end Built

/-- Names refer to nodes of the graph. -/
structure Draft.Sound (d : Draft) : Prop where
  written : Written d.graph
  names : ∀ p ∈ d.names, d.graph.contains p.2
  last : ∀ v, d.last = some v → d.graph.Has v

namespace Draft

variable {d : Draft} {e : NodeEntry}

theorem reference_has (h : d.Sound) {s : String} {t : Typed} (hr : d.reference s = .ok t) :
    d.graph.Has t.value ∧ d.graph.type? t.value = some t.type := by
  simp only [reference, bind_eq_ok] at hr
  obtain ⟨⟨name, result⟩, -, hr⟩ := hr
  split at hr
  · cases hr
  · rename_i id hid
    split at hr
    · simp [bind, Except.bind] at hr
    · split at hr
      · cases hr
      · rename_i type htype
        cases hr
        obtain ⟨l₁, l₂, hl, -⟩ := List.lookup_eq_some_iff.1 hid
        have ht : d.graph.type? ⟨id, result.toNatClampNeg⟩ = some type := by
          rw [Graph.type?_eq, htype]
        exact ⟨⟨h.names (name, id) (by simp [hl]), by simp [ht]⟩, ht⟩

theorem references_has (h : d.Sound) {ts : List Typed} (hr : d.references e = .ok ts) :
    ∀ t ∈ ts, d.graph.Has t.value ∧ d.graph.type? t.value = some t.type := by
  rw [references] at hr
  generalize e.ops = ops at hr
  induction ops generalizing ts with
  | nil =>
    cases hr
    simp
  | cons s ops ih =>
    simp only [List.mapM_cons, bind_eq_ok, pure_eq_ok] at hr
    obtain ⟨t, ht, ts, hts, rfl⟩ := hr
    intro t' ht'
    rcases List.mem_cons.1 ht' with rfl | ht'
    · exact reference_has h ht
    · exact ih hts t' ht'

theorem exactly_has (h : d.Sound) {want : Nat} {ts : List Typed} (hr : d.exactly e want = .ok ts) :
    ∀ t ∈ ts, d.graph.Has t.value ∧ d.graph.type? t.value = some t.type := by
  simp only [exactly] at hr
  split at hr
  · simp [bind, Except.bind] at hr
  · exact references_has h hr

theorem mem_taken_operands {ts : List Typed} {v : Value} :
    v ∈ Graph.taken (ts.map (·.operand)) ↔ ∃ t ∈ ts, t.value = v := by
  simp [Graph.taken, Typed.operand]

variable {r : Graph × Value}

theorem leaf_built (h : d.Sound) (hr : d.leaf e op = .ok r) :
    Built d.graph r := by
  have hg := h.written
  unfold leaf at hr
  split at hr <;> simp only [check_eq_ok, bind_eq_ok, pure_eq_ok] at hr
  · obtain ⟨vt, -, rfl⟩ := hr
    exact .leaf hg rfl rfl (by decide)
  · obtain ⟨vt, -, rfl⟩ := hr
    exact .leaf hg rfl rfl (by decide)
  · obtain ⟨vt, -, hrange, rfl⟩ := hr
    simp only [Bool.or_eq_true, decide_eq_true_eq, not_or, Int64.not_lt, Int64.not_le] at hrange
    refine .indexed hg rfl rfl (Int64.le_iff_toInt_le.1 hrange.1) (by simp) (fun _ => ?_) rfl
    have hlt := Int64.lt_iff_toInt_lt.1 hrange.2
    rw [Int64.toInt_ofNat'] at hlt
    have := Int.bmod_def (d.graph.signature.params.length : Int) Int64.size
    simp only [Int64.size] at this hlt
    omega
  · obtain ⟨vt, -, rfl⟩ := hr
    exact .single_leaf (f := fun l => [some l]) hg rfl rfl (by decide) (fun _ => rfl)
      rfl (by decide) (by simp [Opcode.arm?]) (by simp [Graph.taken])
  · obtain ⟨vt, -, rfl⟩ := hr
    exact .single_leaf (f := fun l => [some l]) hg rfl rfl (by decide) (fun _ => rfl)
      rfl (by decide) (by simp [Opcode.arm?]) (by simp [Graph.taken])
  · obtain ⟨-, vt, -, rfl⟩ := hr
    exact .leaf hg rfl rfl (by decide)
  · obtain ⟨-, vt, -, rfl⟩ := hr
    exact .leaf hg rfl rfl (by decide)
  · obtain ⟨vt, -, -, rfl⟩ := hr
    have hlocal := hg.createLocal e.size (if e.align = 0 then e.size else e.align)
    have hnew : Built _ (Graph.leaf _ .frameIndex vt (.index d.graph.frame.locals.length)) :=
      .indexed hlocal rfl rfl (by simp) (fun _ => by simp [Frame.createLocal, Int.lt_succ])
        (by simp) rfl
    exact ⟨hnew.written, hnew.has, rfl, hnew.contains, hnew.signature⟩
  · cases hr

theorem branch_built (h : d.Sound) (hr : d.branch e op = .ok r) :
    Built d.graph r := by
  have hg := h.written
  simp only [branch] at hr
  split at hr
  · cases hr
  split at hr
  · obtain ⟨ts, hts, hr⟩ := bind_eq_ok.1 hr
    have hhas := exactly_has h hts
    split at hr
    · cases hr
      exact .single_leaf (f := fun l => [_, some l]) hg rfl rfl (by decide) (fun _ => rfl)
        rfl (by decide) (by simp [Opcode.arm?]) (by simp_all [Graph.taken, Typed.operand])
    · cases hr
  · obtain ⟨ts, hts, hr⟩ := bind_eq_ok.1 hr
    have hhas := exactly_has h hts
    split at hr
    · cases hr
      exact .single_leaf (f := fun l => [_, _, some l]) hg rfl rfl (by decide) (fun _ => rfl)
        rfl (by decide) (by simp [Opcode.arm?, Graph.taken, Typed.operand])
        (by simp_all [Graph.taken, Typed.operand])
    · cases hr
  · obtain ⟨ts, hts, hr⟩ := bind_eq_ok.1 hr
    have hhas := exactly_has h hts
    split at hr
    · obtain ⟨cc, -, hr⟩ := bind_eq_ok.1 hr
      cases hr
      have hcc : Built d.graph (d.graph.condCode cc) := .leaf hg rfl rfl (by decide)
      refine hcc.trans (.single_leaf (f := fun l => [_, _, _, _, some l]) hcc.written rfl
        rfl (by decide) (fun _ => rfl) rfl (by decide)
        (by simp [Opcode.arm?, Graph.taken, Typed.operand]) fun l v hv => ?_)
      have hold : ∀ {v}, d.graph.Has v → (d.graph.condCode cc).1.Has v := Graph.has_newNode
      simp only [Graph.taken, Typed.operand, List.filterMap_cons, List.filterMap_nil, List.mem_cons,
        List.not_mem_nil, or_false] at hv
      rcases hv with rfl | rfl | rfl | rfl | rfl
      · exact .inr (hold (hhas _ (by simp)).1)
      · exact .inr hcc.has
      · exact .inr (hold (hhas _ (by simp)).1)
      · exact .inr (hold (hhas _ (by simp)).1)
      · exact .inl rfl
    · cases hr
  · cases hr

theorem call_built (h : d.Sound) (hr : d.call e = .ok r) : Built d.graph r := by
  have hg := h.written
  simp only [call, bind_eq_ok] at hr
  obtain ⟨ts, hts, hr⟩ := hr
  have hhas := references_has h hts
  split at hr
  · simp only [check_eq_ok, bind_eq_ok, pure_eq_ok] at hr
    obtain ⟨results, -, callConv, -, -, rfl⟩ := hr
    refine .plain hg (by simp [Opcode.isWritten, Opcode.arity, Graph.taken, Typed.operand])
      (by decide) (fun v hv => ?_) (by simp [Opcode.gives])
    rw [show ∀ c f : Typed, ∀ as : List Typed, c.operand :: f.operand :: as.map (·.operand) =
      (c :: f :: as).map (·.operand) from fun _ _ _ => rfl, mem_taken_operands] at hv
    obtain ⟨t, ht, rfl⟩ := hv
    exact (hhas t ht).1
  · cases hr

theorem binary_built (h : d.Sound) {vt : ValueType} {a b : Typed}
    (hop : op.isWritten 2) (hgives : op.gives [vt])
    (hne : op ≠ .frameIndex ∧ op ≠ .argument ∧ op.arm? = none) (ha : d.graph.Has a.value)
    (hb : d.graph.Has b.value) : Built d.graph (d.graph.binary op vt a.operand b.operand) :=
  .single h.written hop hgives hne (by simp [Graph.taken, Typed.operand, ha, hb])

/-- The entry gives a value that was there, as a token factor of one chain does. -/
def Merges (d : Draft) (e : NodeEntry) (v : Value) : Prop :=
  Opcode.parse e.op = .ok .tokenFactor ∧
    ∃ ts, d.references e = .ok ts ∧ (Graph.taken (ts.map (·.operand))).eraseDups = [v]

/-- An entry gives the first result of a node that it adds, or is a token factor of one chain. -/
theorem build_built (h : d.Sound) (hr : d.build e = .ok r) :
    Built d.graph r ∨ r.1 = d.graph ∧ d.graph.Has r.2 ∧ d.Merges e r.2 := by
  have hg := h.written
  simp only [build, bind_eq_ok] at hr
  obtain ⟨op, hop, hr⟩ := hr
  have hparse : Opcode.parse e.op = .ok op := by
    cases hp : Opcode.parse e.op with
    | error m => simp [hp, Except.mapError] at hop
    | ok op' => simpa [hp, Except.mapError] using hop
  cases op with
  | constant | undef | argument | frameAddr | returnAddr | globalAddress | externalSymbol
  | frameIndex =>
    exact .inl (leaf_built h hr)
  | br | brCond | brCC => exact .inl (branch_built h hr)
  | call => exact .inl (call_built h hr)
  | add | sub | mul | sdiv | udiv | srem | urem | and | or | xor | shl | sra | srl | buildPair =>
    obtain ⟨ts, hts, hr⟩ := bind_eq_ok.1 hr
    have hhas := exactly_has h hts
    split at hr
    · obtain ⟨vt, -, hr⟩ := bind_eq_ok.1 hr
      cases hr
      exact .inl (binary_built h rfl rfl (by decide) (hhas _ (by simp)).1 (hhas _ (by simp)).1)
    · cases hr
  | signExtend | zeroExtend | truncate =>
    obtain ⟨ts, hts, hr⟩ := bind_eq_ok.1 hr
    have hhas := exactly_has h hts
    split at hr
    · obtain ⟨vt, -, hr⟩ := bind_eq_ok.1 hr
      cases hr
      exact .inl (.single hg rfl rfl (by decide) (by simp_all [Graph.taken, Typed.operand]))
    · cases hr
  | extractElement =>
    obtain ⟨ts, hts, hr⟩ := bind_eq_ok.1 hr
    have hhas := exactly_has h hts
    split at hr
    · obtain ⟨vt, -, hr⟩ := bind_eq_ok.1 hr
      cases hr
      exact .inl <| .single_leaf (f := fun l => [_, some l]) hg rfl rfl (by decide) (fun _ => rfl)
        rfl (by decide) (by simp [Opcode.arm?]) (by simp_all [Graph.taken, Typed.operand])
    · cases hr
  | setCC =>
    obtain ⟨ts, hts, hr⟩ := bind_eq_ok.1 hr
    have hhas := exactly_has h hts
    split at hr
    · obtain ⟨vt, -, hr⟩ := bind_eq_ok.1 hr
      obtain ⟨cc, -, hr⟩ := bind_eq_ok.1 hr
      cases hr
      exact .inl <| .single_leaf (f := fun l => [_, _, some l]) hg rfl rfl (by decide)
        (fun _ => rfl) rfl (by decide) (by simp [Opcode.arm?])
        (by simp_all [Graph.taken, Typed.operand])
    · cases hr
  | select =>
    obtain ⟨ts, hts, hr⟩ := bind_eq_ok.1 hr
    have hhas := exactly_has h hts
    split at hr
    · cases hr
      exact .inl <| .choice hg rfl rfl (by decide) rfl (by simp_all [Graph.taken, Typed.operand])
        ⟨_, rfl, (hhas _ (by simp)).2⟩
    · cases hr
  | selectCC =>
    obtain ⟨ts, hts, hr⟩ := bind_eq_ok.1 hr
    have hhas := exactly_has h hts
    split at hr
    · obtain ⟨cc, -, hr⟩ := bind_eq_ok.1 hr
      cases hr
      have hcc : Built d.graph (d.graph.condCode cc) := .leaf hg rfl rfl (by decide)
      have hold : ∀ {v}, d.graph.Has v → (d.graph.condCode cc).1.Has v := Graph.has_newNode
      refine .inl (hcc.trans (.choice hcc.written rfl rfl (by decide) rfl ?_ ⟨_, rfl, ?_⟩))
      · have hlast : (d.graph.condCode cc).1.Has ⟨d.graph.entries.size, 0⟩ := hcc.has
        simp_all [Graph.taken, Typed.operand]
      · exact (Graph.type?_newNode_of_ne _ _ _ _ _ (Nat.ne_of_lt (hhas _ (by simp)).1.lt)).trans
          (hhas _ (by simp)).2
    · cases hr
  | load =>
    obtain ⟨ts, hts, hr⟩ := bind_eq_ok.1 hr
    have hhas := exactly_has h hts
    split at hr
    · obtain ⟨vt, -, hr⟩ := bind_eq_ok.1 hr
      cases hr
      exact .inl (.plain hg rfl (by decide) (by simp_all [Graph.taken, Typed.operand]) rfl)
    · cases hr
  | store =>
    obtain ⟨ts, hts, hr⟩ := bind_eq_ok.1 hr
    have hhas := exactly_has h hts
    split at hr
    · cases hr
      exact .inl (.single hg rfl rfl (by decide) (by simp_all [Graph.taken, Typed.operand]))
    · cases hr
  | atomicLoadAdd =>
    obtain ⟨ts, hts, hr⟩ := bind_eq_ok.1 hr
    have hhas := exactly_has h hts
    split at hr
    · cases hr
      exact .inl (.plain hg rfl (by decide) (by simp_all [Graph.taken, Typed.operand]) rfl)
    · cases hr
  | tokenFactor =>
    obtain ⟨ts, hts, hr⟩ := bind_eq_ok.1 hr
    have hhas := references_has h hts
    cases hr
    have hmem : ∀ v ∈ (Graph.taken (ts.map (·.operand))).eraseDups, d.graph.Has v := by
      intro v hv
      obtain ⟨t, ht, rfl⟩ := mem_taken_operands.1 (List.mem_eraseDups.1 hv)
      exact (hhas t ht).1
    rw [Graph.tokenFactor]
    split <;> rename_i hcs
    · rename_i c
      rw [show (ts.map (·.operand)).filterMap (·) =
        Graph.taken (ts.map (·.operand)) from rfl] at hcs
      exact .inr ⟨rfl, hmem c (by simp [hcs]), hparse, ts, hts, hcs⟩
    · refine .inl (.single hg rfl rfl (by decide) fun v hv => hmem v ?_)
      simpa [Graph.taken] using hv
  | ret =>
    obtain ⟨ts, hts, hr⟩ := bind_eq_ok.1 hr
    have hhas := references_has h hts
    split at hr
    · cases hr
      refine .inl (.single hg rfl rfl (by decide) fun v hv => ?_)
      rw [show ∀ c : Typed, ∀ vs : List Typed, c.operand :: vs.map (·.operand) =
        (c :: vs).map (·.operand) from fun _ _ => rfl, mem_taken_operands] at hv
      obtain ⟨t, ht, rfl⟩ := hv
      exact (hhas t ht).1
    · cases hr
  | _ => cases hr

theorem Sound.add {k : Decoder} (h : d.Sound) {n : Yaml.Node} {d' : Draft}
    (hd : d.add k n = .ok d') : d'.Sound ∧ d'.graph.signature = d.graph.signature := by
  simp only [Draft.add] at hd
  split at hd
  · cases hd
  · simp only [check_eq_ok, bind_eq_ok, pure_eq_ok] at hd
    obtain ⟨-, -, ⟨g', v⟩, hb, rfl⟩ := hd
    have hbuilt : Written g' ∧ g'.Has v ∧ (∀ id, d.graph.contains id → g'.contains id) ∧
        g'.signature = d.graph.signature := by
      rcases build_built h hb with hb | ⟨rfl, hv, -⟩
      · exact ⟨hb.written, hb.has, hb.contains, hb.signature⟩
      · exact ⟨h.written, hv, fun _ => id, rfl⟩
    refine ⟨⟨hbuilt.1, fun p hp => ?_, fun w hw => ?_⟩, hbuilt.2.2.2⟩
    · rcases List.mem_cons.1 hp with rfl | hp
      · exact hbuilt.2.1.1
      · exact hbuilt.2.2.1 _ (h.names p hp)
    · cases hw
      exact hbuilt.2.1

end Draft

/-! ### Reading a file -/

namespace FunctionEntry

variable {k : Decoder} {f : FunctionEntry}

theorem readNodes_sound {ns : List Yaml.Node} {d d' : Draft} (h : d.Sound)
    (hd : f.readNodes k d ns = .ok d') : d'.Sound ∧ d'.graph.signature = d.graph.signature := by
  induction ns generalizing d with
  | nil =>
    cases hd
    exact ⟨h, rfl⟩
  | cons n ns ih =>
    rw [readNodes] at hd
    split at hd
    · cases hd
    · rename_i d₁ h₁
      obtain ⟨hs, hsig⟩ := h.add h₁
      obtain ⟨hs', hsig'⟩ := ih hs hd
      exact ⟨hs', hsig'.trans hsig⟩

theorem rootOf_has {d : Draft} {v : Value} (h : d.Sound) (hv : f.rootOf d = .ok v) :
    d.graph.Has v := by
  simp only [rootOf] at hv
  split at hv
  · obtain ⟨t, ht, hv⟩ := bind_eq_ok.1 hv
    cases hv
    exact (Draft.reference_has h ht).1
  · split at hv
    · rename_i w hw
      cases hv
      exact h.last _ hw
    · cases hv

theorem graph_written (hg : f.graph k = .ok g) : Written g := by
  simp only [FunctionEntry.graph, bind_eq_ok, pure_eq_ok] at hg
  obtain ⟨signature, -, d, hd, root, hroot, rfl⟩ := hg
  have hstart : Draft.Sound
      { graph := Graph.empty signature, names := [("entry", Graph.entry.node)] } := by
    refine ⟨.empty signature, ?_, by simp⟩
    simp only [List.mem_singleton, forall_eq]
    rfl
  obtain ⟨hs, -⟩ := readNodes_sound hstart hd
  have hhas : d.graph.Has root := by
    cases hr : f.rootOf d with
    | error e => simp [hr, Except.mapError] at hroot
    | ok v =>
      have : v = root := by simpa [hr, Except.mapError] using hroot
      exact this ▸ rootOf_has hs hr
  have hw := hs.written
  exact ⟨hw.sound.of_root hhas, hw.present, hw.before, hw.op, hw.gives, hw.arm,
    hw.frameIndex, hw.argument, hw.objects⟩

end FunctionEntry

theorem buildAll_written {k : Decoder} {seen : List String} {fs : List FunctionEntry}
    {gs : List Graph} (h : buildAll k seen fs = .ok gs) (hg : g ∈ gs) : Written g := by
  induction fs generalizing seen gs with
  | nil =>
    cases h
    exact absurd hg List.not_mem_nil
  | cons f fs ih =>
    simp only [buildAll, check_eq_ok, bind_eq_ok, pure_eq_ok] at h
    obtain ⟨-, -, g₁, h₁, gs₁, hgs, rfl⟩ := h
    rcases List.mem_cons.1 hg with rfl | hg
    · exact FunctionEntry.graph_written h₁
    · exact ih hgs hg

/-- Every graph of an accepted file is one that can be written, however texts are decoded. -/
theorem parse_written {k : Decoder} {text : String} {gs : List Graph} (h : k.parse text = .ok gs)
    (hg : g ∈ gs) : Written g := by
  rw [Decoder.parse] at h
  cases hfs : k.functions? text with
  | none =>
    rw [hfs] at h
    cases h
  | some fs =>
    rw [hfs] at h
    exact buildAll_written h hg

theorem functions?_join (pieces : List String) :
    yaml.functions? (String.join pieces) = entries? (pieces.flatMap String.toList) :=
  congrArg entries? String.toList_join

/-- Whether a text is one function, and `p` holds of it. -/
def holdsOfOnly (p : Graph → Bool) : Except Fault (List Graph) → Bool
  | .ok [g] => p g
  | _ => false

theorem holdsOfOnly_join {p : Graph → Bool} {pieces : List String}
    (h : holdsOfOnly p (yaml.build (entries? (pieces.flatMap String.toList))) = true) :
    holdsOfOnly p (parse (String.join pieces)) = true := by
  rwa [parse, Decoder.parse, functions?_join]

theorem exists_of_holdsOfOnly {p : Graph → Bool} {r : Except Fault (List Graph)}
    (h : holdsOfOnly p r) : ∃ g, r = .ok [g] ∧ p g := by
  unfold holdsOfOnly at h
  split at h
  · exact ⟨_, rfl, h⟩
  · cases h

end FunctionFile

end GraphLowering
