import GraphLowering.Proofs.FunctionFile.Written
import GraphLowering.Proofs.Graph.Order

/-!
# Graphs of function files are well founded

An entry refers to entries before it, so operands have smaller ids than their users. Then the least
node that is ready is always the next one (`leastFirst_range'`), and the nodes are listed by their
ids. `parse_grounded` collects what holds of every graph that was read.
-/

namespace GraphLowering.FunctionFile

variable {g : Graph}

/-- Everything a node refers to is there: values before the node, local objects and parameters. -/
structure Grounded (g : Graph) : Prop where
  operand : ∀ id, g.contains id → ∀ o ∈ (g.node id).operands, ∃ v, o = some v ∧ v.node < id ∧
    g.contains v.node ∧ v.result < (g.node v.node).types.length
  use : ∀ id u, u ∈ g.usesOf (some id) ↔
    g.contains u.user ∧ ∃ i, (g.node u.user).operands[u.slot]? = some (some ⟨id, i⟩)
  useOnce : ∀ id, (g.usesOf (some id)).Nodup
  noEmptyUse : g.usesOf none = []
  root : ∃ v, g.root = some v ∧ g.contains v.node ∧ v.result < (g.node v.node).types.length
  frameIndex : ∀ id, g.contains id → (g.node id).op = .frameIndex →
    ∃ o ∈ g.frame.locals, g.frame.object? (g.node id).index = some o ∧
      o.index = (g.node id).index ∧ ¬ o.fixed
  argument : ∀ id, g.contains id → (g.node id).op = .argument →
    0 ≤ (g.node id).index ∧ (g.node id).index < g.signature.params.length
  mem_nodes : ∀ id, id ∈ g.nodes ↔ g.contains id
  nodes_ascending : g.nodes.Pairwise (· < ·)

namespace Written

/-- After the nodes below `k`, node `k` is the least that is ready. -/
theorem leastFirst_range' (h : Written g) {k n : Nat} (hk : k + n = g.entries.size) :
    g.LeastFirst (List.range k) (List.range' k n) := by
  induction n generalizing k with
  | zero =>
    refine .nil fun y hy => hy.2.1 (List.mem_range.2 ?_)
    have := Graph.contains_lt hy.1
    omega
  | succ n ih =>
    rw [List.range'_succ]
    refine .cons ⟨h.present k (by omega), by simp, fun b hb _ => ?_⟩ (fun y hy => ?_) ?_
    · obtain ⟨-, i, hi⟩ := Graph.needs_iff.1 hb
      exact List.mem_range.2 (h.before k _ hi)
    · exact Nat.le_of_not_lt fun hlt => hy.2.1 (List.mem_range.2 hlt)
    · rw [← List.range_succ]
      exact ih (by omega)

theorem nodes_eq_range (h : Written g) : g.nodes = List.range g.entries.size := by
  rw [List.range_eq_range']
  exact h.sound.exact.leastFirst_nodes.unique (h.leastFirst_range' (k := 0) (Nat.zero_add _))

theorem object?_eq (h : Written g) {i : Int} (hpos : 0 ≤ i) (hlt : i < g.frame.locals.length) :
    ∃ o ∈ g.frame.locals, g.frame.object? i = some o ∧ o.index = i ∧ ¬ o.fixed := by
  have hbound : i.toNat < g.frame.locals.length := by omega
  have hmem := List.getElem_mem hbound
  have hindex : g.frame.locals[i.toNat].index = i := by
    have hat : (g.frame.locals.filter (!·.fixed))[i.toNat]? = some g.frame.locals[i.toNat] := by
      rw [← h.objects.locals, List.getElem?_eq_getElem hbound]
    rw [h.objects.localNumbers i.toNat _ hat, Int.toNat_of_nonneg hpos]
  exact ⟨_, hmem, (h.objects.byIndex i _).2 ⟨hmem, hindex⟩, hindex, by simp [h.fixed_eq_false hmem]⟩

theorem grounded (h : Written g) : Grounded g := by
  have hresult : ∀ {v}, g.Has v → g.contains v.node ∧ v.result < (g.node v.node).types.length := by
    intro v hv
    exact ⟨hv.1, by simpa [Graph.type?_eq] using hv.2⟩
  refine ⟨fun id hid o ho => ?_, fun id u => ?_, h.sound.nodup, h.sound.emptyUses, ?_,
    fun id _ hop => h.object?_eq (h.frameIndex id hop).1 (h.frameIndex id hop).2,
    fun id _ => h.argument id, fun id => h.acyclic.mem_nodes h.sound, ?_⟩
  · obtain ⟨v, rfl, hv⟩ := h.sound.operands id hid o ho
    exact ⟨v, rfl, h.before id v ho, hresult hv⟩
  · simp only [h.sound.mem_usesOf, Graph.operand_eq_some]
  · obtain ⟨v, hroot, hv⟩ := h.sound.root
    exact ⟨v, hroot, hresult hv⟩
  · rw [h.nodes_eq_range]
    exact List.pairwise_lt_range

end Written

/-- In every graph of an accepted file, operands are results of nodes with smaller ids, use lists
are exact, the root is a result, indices name local objects and parameters, and the nodes are listed
by their ids. -/
theorem parse_grounded {k : Decoder} {text : String} {gs : List Graph} (h : k.parse text = .ok gs)
    (hg : g ∈ gs) : Grounded g :=
  (parse_written h hg).grounded

/-- A function that adds its parameter to the address of a local object. -/
def localFile : String := String.join [
  "functions:\n- name: f\n  params: [i32]\n  nodes:\n",
  "  - name: s\n    op: FrameIndex\n    size: 4\n",
  "  - name: a\n    op: Argument\n    type: i32\n",
  "  - name: d\n    op: add\n    ops: [a, s]\n"]

theorem parse_grounded_local : ∃ g, parse localFile = .ok [g] ∧ Grounded g ∧
    g.nodes = [0, 1, 2, 3] ∧ (g.node 1).op = .frameIndex ∧ (g.node 2).op = .argument ∧
    (g.node 3).operands = [some ⟨2, 0⟩, some ⟨1, 0⟩] := by
  have h : holdsOfOnly (fun g => decide (g.entries.size = 4 ∧ (g.node 1).op = .frameIndex ∧
      (g.node 2).op = .argument ∧ (g.node 3).operands = [some ⟨2, 0⟩, some ⟨1, 0⟩]))
      (parse localFile) = true := by
    exact FunctionFile.holdsOfOnly_join (by decide +kernel)
  obtain ⟨g, hparse, h⟩ := exists_of_holdsOfOnly h
  obtain ⟨hsize, hrest⟩ := of_decide_eq_true h
  refine ⟨g, hparse, parse_grounded hparse (by simp), ?_, hrest⟩
  rw [(parse_written hparse (by simp)).nodes_eq_range, hsize]
  rfl

end GraphLowering.FunctionFile
