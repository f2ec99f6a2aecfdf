import GraphLowering.Proofs.Graph.Removal
import GraphLowering.Proofs.Usim.Combining
import GraphLowering.Proofs.Usim.Treatment

/-!
# The stages of a lowering

A file without glue starts a lowering in a disciplined graph, and the removal of dead nodes and
verification leave it so. Two sessions that agree on what is live have the same nodes once dead
nodes are removed, and are verified alike.
-/

namespace GraphLowering.Usim

open Lower (Session Lowering)
open Lower.Lowering
open FunctionFile (Written)
open Subtarget (Features Description)

variable {f : Features} {d : Description} {S : Nat → Prop} {g g' : Graph} {s t : Session} {id : Nat}
  {v : Value}

/-! ### The start -/

theorem followsCall_of_isWritten {op : Opcode} {n : Nat} (h : op.isWritten n) :
    followsCall op = false ∧ givesGlue op = false ∧ op ≠ .copyToReg ∧ isChoice op = false := by
  cases op <;> first | exact ⟨rfl, rfl, nofun, rfl⟩ | cases h

theorem followsCall_of_written (h : Written g) (id : Nat) : followsCall (g.node id).op = false ∧
    givesGlue (g.node id).op = false ∧ (g.node id).op ≠ .copyToReg ∧
    isChoice (g.node id).op = false := by
  by_cases hid : id < g.entries.size
  · exact followsCall_of_isWritten (h.op id hid)
  · rw [Graph.node_of_le (Nat.le_of_not_lt hid)]
    exact ⟨rfl, rfl, by decide, rfl⟩

theorem not_isSlot_of_written (h : Written g) (id : Nat) : ¬ IsSlot g id := fun hs =>
  absurd (h.frameIndex id hs.1).1 (Int.not_le.2 hs.2)

theorem plain_of_written (h : Written g) (hglue : ∀ id, .glue ∉ (g.node id).types) (v : Value) :
    Plain g v :=
  ⟨fun ht => hglue v.node (List.mem_of_getElem? (Graph.type?_eq g v ▸ ht)),
    (followsCall_of_written h v.node).2.2.1, not_isSlot_of_written h v.node⟩

/-- A file without glue gives disciplined graphs. -/
theorem Disciplined.of_written (h : Written g) (hglue : ∀ id, .glue ∉ (g.node id).types) :
    Disciplined none g := by
  have hop := followsCall_of_written h
  have hslot := not_isSlot_of_written h
  have hplain := plain_of_written h hglue
  refine ⟨h.sound, h.acyclic, fun id => ?_, fun id _ i v _ => .plain (hplain v) (hop id).1,
    fun y _ _ hy => absurd hy (hop y).2.2.1, fun _ h => (by cases h), fun v _ => hplain v,
    fun id hs => absurd hs (hslot id),
    fun id hl => ?_, fun id hc => ?_, h.fixedBelow⟩
  · simp [hglue id, (hop id).2.1]
  · have hid : id < g.entries.size := by
      by_contra hge
      rw [Graph.node_of_le (Nat.le_of_not_lt hge)] at hl
      cases hl
    have := h.op id hid
    rw [hl] at this
    simpa [Opcode.isWritten] using this
  · rw [(hop id).2.2.2] at hc
    cases hc

/-! ### Dead nodes -/

theorem Disciplined.removeDead (h : Disciplined none g) : Disciplined none g.removeDead.1 := by
  have hnode : ∀ id, g.removeDead.1.node id = g.node id := fun id => by
    rw [Graph.removeDead_eq, Graph.node_removeNodes]
  have halike : ∀ id, Alike (g.node id) (g.removeDead.1.node id) := fun id => hnode id ▸ .refl _
  have hcontains : ∀ {id}, g.removeDead.1.contains id → g.contains id := fun hid =>
    h.sound.contains_of_live (h.sound.contains_removeDead.1 hid)
  have hneeds : ∀ {a b}, g.removeDead.1.Needs a b → g.Needs a b := fun hn =>
    (h.sound.needs_removeDead.1 hn).2
  refine ⟨h.sound.removeDead, h.acyclic.removeDead h.sound, fun id => hnode id ▸ h.gives id,
    fun id hid i v hi => ?_, fun y a b hy ha hb => ?_, nofun, fun v hv => ?_,
    fun id hs => hnode id ▸ h.slot id ((halike id).isSlot.1 hs), fun id hl => ?_,
    fun id hc => hnode id ▸ h.choice id (hnode id ▸ hc), ?_⟩
  · rw [hnode] at hi ⊢
    exact (h.takes id (hcontains hid) i v hi).congr (halike _) fun _ _ => halike _
  · exact h.alone y a b ((halike y).isCopy.1 hy) (hneeds ha) (hneeds hb)
  · rw [Graph.removeDead_eq, Graph.root_removeNodes] at hv
    exact (halike _).plain (h.root v hv)
  · rw [hnode] at hl ⊢
    exact h.load id hl
  · rw [Graph.removeDead_eq, Graph.frame_removeNodes]
    exact h.frame

theorem Matched.live_iff (h : Matched S g g') : g'.Live id ↔ g.Live id := by
  rw [Graph.Live, Graph.Live, h.root]
  exact or_congr_right (exists_congr fun r => and_congr_right fun hr =>
    h.reaches_iff (h.shared_root hr))

/-- What is live in either graph is in both. -/
theorem Matched.shared_of_live (h : Matched S g g') (hl : g.Live id) : S id :=
  h.only id (h.right.sound.contains_of_live (h.live_iff.2 hl))

theorem live_of_mem_operands (hs : g.Sound) (hid : g.Live id ∨ g.entries.size ≤ id)
    (hv : some v ∈ (g.node id).operands) : g.Live v.node := by
  rcases hid with hl | hle
  · exact hl.of_needs (Graph.needs_iff.2 ⟨hs.contains_of_live hl, v.result, hv⟩) hs
  · rw [Graph.node_of_le hle] at hv
    cases hv

/-- Without dead nodes, two graphs that agree on what is live have the same nodes. -/
theorem Matched.removeDead (h : Matched S g g') :
    Matched (fun id => g.Live id ∨ g.entries.size ≤ id) g.removeDead.1 g'.removeDead.1 := by
  have hS : ∀ {id}, g.Live id ∨ g.entries.size ≤ id → S id := fun hid =>
    hid.elim h.shared_of_live (h.fresh _)
  refine ⟨h.left.removeDead, h.right.removeDead, ?_, ?_, ?_, ?_, fun id hid => ?_, fun id hid => ?_,
    fun id hid => ?_, fun id v hid hv => ?_, fun id hid => ?_, fun id v hid _ _ => ?_⟩
  · simp only [Graph.removeDead_eq, Graph.size_removeNodes, h.size]
  · simp only [Graph.removeDead_eq, Graph.signature_removeNodes, h.signature]
  · simp only [Graph.removeDead_eq, Graph.frame_removeNodes, h.frame]
  · simp only [Graph.removeDead_eq, Graph.root_removeNodes, h.root]
  · simp only [Graph.removeDead_eq, Graph.node_removeNodes, h.node id (hS hid)]
  · rw [Bool.eq_iff_iff, h.left.sound.contains_removeDead,
      h.right.sound.contains_removeDead, h.live_iff]
  · exact .inl (h.live_iff.1 (h.right.sound.contains_removeDead.1 hid))
  · rw [Graph.removeDead_eq, Graph.node_removeNodes] at hv
    exact .inl (live_of_mem_operands h.left.sound hid hv)
  · rw [Graph.removeDead_eq, Graph.size_removeNodes] at hid
    exact .inr hid
  · exact .inl (h.left.sound.contains_removeDead.1 hid)

/-! ### Verification -/

/-- Whether verification lets a node pass. -/
def Passes (f : Features) (g : Graph) (id : Nat) : Prop :=
  (g.node id).op.isTarget ∨ IsLegal f g id

theorem outcome_verifyNode (d : Description) (id : Nat) (s : Session) :
    ∃ r, outcome (Lower.verifyNode (target d) [] id) s = (r, s) ∧
      (r = .ok () ↔ Passes d.features s.graph id) := by
  rw [Lower.verifyNode, outcome_bind, outcome_node]
  simp only [List.not_mem_nil, decide_false, Bool.or_false]
  by_cases htarget : (s.graph.node id).op.isTarget
  · rw [if_pos htarget]
    exact ⟨_, rfl, by simp [Passes, htarget]⟩
  rw [if_neg htarget, outcome_bind, outcome_nodeTypes]
  cases htypes : s.graph.nodeTypes? id with
  | none =>
    refine ⟨_, rfl, ?_⟩
    simp [Passes, htarget, IsLegal, htypes]
  | some types =>
    have hclass : (target d).classify = classify d.features := rfl
    dsimp only [required]
    rw [hclass]
    by_cases hl : classify d.features (s.graph.node id).op types = .legal
    · rw [if_neg (not_not.2 hl)]
      exact ⟨_, rfl, by simp [Passes, IsLegal, htypes, hl]⟩
    · rw [if_pos hl]
      exact ⟨_, rfl, by simp [Passes, IsLegal, htypes, hl, htarget]⟩

theorem outcome_verifyNodes (d : Description) (ids : List Nat) (s : Session) :
    ∃ r, outcome (ids.forM (Lower.verifyNode (target d) [])) s = (r, s) ∧
      (r = .ok () ↔ ∀ id ∈ ids, Passes d.features s.graph id) := by
  induction ids with
  | nil => exact ⟨_, rfl, by simp⟩
  | cons id ids ih =>
    obtain ⟨r, hr, hpass⟩ := outcome_verifyNode d id s
    rw [List.forM, outcome_bind, hr]
    cases r with
    | error e =>
      refine ⟨_, rfl, ?_⟩
      simp [← hpass]
    | ok _ =>
      obtain ⟨r', hr', hpass'⟩ := ih
      refine ⟨r', hr', ?_⟩
      rw [hpass', List.forall_mem_cons, ← hpass]
      simp

theorem outcome_verify (d : Description) (s : Session) (h : Disciplined none s.graph) :
    ∃ r, outcome (Lower.verify (target d) []) s = (r, s) ∧
      (r = .ok () ↔ ∀ id, s.graph.contains id → Passes d.features s.graph id) := by
  obtain ⟨r, hr, hpass⟩ := outcome_verifyNodes d s.graph.nodes s
  refine ⟨r, ?_, ?_⟩
  · rw [Lower.verify, outcome_bind, outcome_graph]
    exact hr
  · simp only [hpass, h.acyclic.mem_nodes h.sound]

end GraphLowering.Usim
