import GraphLowering.Proofs.Usim.Stages

/-!
# Combining until nothing changes

Nodes that are not on the worklist stay as they are (`Settled`). This holds of a worklist of all
operations of the machine, and every step of combining keeps it: a node that is replaced is not used
any more, its users are looked at again, and all others keep their operands. So nothing is left to
combine when the worklist is empty.
-/

namespace GraphLowering.Usim

open GraphLowering.Graph (taken)
open Lower (Session Lowering)
open Lower.Lowering
open Subtarget (Description)

variable {d : Description} {g g' : Graph} {s s' : Session} {id : Nat} {v : Value} {rest : List Nat}

/-- Nodes that are used and not on the worklist stay as they are. -/
def Settled (g : Graph) (worklist : List Nat) : Prop :=
  ∀ id, g.contains id → g.hasUses (some id) → id ∉ worklist →
    combination? g (g.node id) = some .stays

theorem combination?_of_isChoice {x : Node} (h : isChoice x.op = false) :
    combination? g x = some .stays := by
  unfold combination?
  rw [if_neg, if_neg]
  · intro hop
    rw [hop] at h
    cases h
  · intro hop
    rw [hop] at h
    cases h

theorem isTarget_of_isChoice {op : Opcode} (h : isChoice op) : op.isTarget := by
  unfold isChoice at h
  split at h <;> first | rfl | cases h

theorem Settled.start (h : g.Sound) (ha : g.Acyclic) :
    Settled g (Graph.ascending (Lower.targetNodes g g.nodes)) := by
  intro id hc _ hid
  refine combination?_of_isChoice ?_
  rw [Graph.mem_ascending, Lower.targetNodes, List.mem_filter, ha.mem_nodes h] at hid
  rw [← Bool.not_eq_true]
  exact fun hch => hid ⟨hc, isTarget_of_isChoice hch⟩

theorem constant?_congr (h : Alike (g.node v.node) (g'.node v.node)) :
    g'.constant? (some v) = g.constant? (some v) := by
  show (g'.node v.node).constant? = (g.node v.node).constant?
  rw [Node.constant?, Node.constant?, h.op, Node.integer, Node.integer, h.payload]

/-- What becomes of a node depends on the node and on what kind of nodes its operands are. -/
theorem combination?_alike (hs : g.Sound) (hc : g.contains id) (hn : g'.node id = g.node id)
    (ha : ∀ v, g.Has v → Alike (g.node v.node) (g'.node v.node)) :
    combination? g' (g'.node id) = combination? g (g.node id) := by
  rw [hn]
  refine combination?_congr fun o ho => ?_
  obtain ⟨v, rfl, hv⟩ := hs.operands id hc o ho
  exact constant?_congr (ha v hv)

theorem Settled.removeDead (h : Settled g rest) (hs : g.Sound) : Settled g.removeDead.1 rest := by
  have hnode : ∀ id, g.removeDead.1.node id = g.node id := fun id => by
    rw [Graph.removeDead_eq, Graph.node_removeNodes]
  intro id hc hu hid
  have hc' := hs.contains_of_live (hs.contains_removeDead.1 hc)
  have hu' : g.hasUses (some id) := by
    rw [hs.hasUses_iff]
    rcases hs.removeDead.hasUses_iff.1 hu with ⟨a, ha⟩ | hr
    · exact .inl ⟨a, (hs.needs_removeDead.1 ha).2⟩
    · rw [Graph.removeDead_eq, Graph.root_removeNodes] at hr
      exact .inr hr
  rw [combination?_alike hs hc' (hnode id) fun v _ => hnode v.node ▸ .refl _]
  exact h id hc' hu' hid

section Jump

variable {chain dest : Option Value} (hs : g.Sound)
  (hs' : (g.single .br .chain [chain, dest]).1.Sound) (hc : g.contains id)
  (hchain : chain ∈ (g.node id).operands) (hdest : dest ∈ (g.node id).operands)
include hs hs' hc hchain hdest

/-- A jump that takes what a node takes uses nothing that was not used. -/
theorem hasUses_of_jump {m : Nat} (hu : (g.single .br .chain [chain, dest]).1.hasUses (some m)) :
    g.hasUses (some m) := by
  rw [hs.hasUses_iff]
  rcases hs'.hasUses_iff.1 hu with ⟨a, ha⟩ | hr
  · rcases Disciplined.needs_newNode ha with ⟨-, i, hi⟩ | ⟨-, ha⟩
    · refine .inl ⟨id, Graph.needs_iff.2 ⟨hc, i, ?_⟩⟩
      obtain ⟨o, ho, rfl⟩ := List.mem_filterMap.1 hi
      simp only [List.mem_cons, List.not_mem_nil, or_false] at ho
      rcases ho with rfl | rfl
      · exact hchain
      · exact hdest
    · exact .inl ⟨a, ha⟩
  · have hroot : (g.single .br .chain [chain, dest]).1.root = g.root := Graph.root_newNode ..
    exact .inr (hroot ▸ hr)

theorem Settled.jump (h : Settled g rest) : Settled (g.single .br .chain [chain, dest]).1 rest := by
  intro m hm hu hrest
  have hx : g.Extends (g.single .br .chain [chain, dest]).1 := .newNode ..
  by_cases hnew : m = g.entries.size
  · refine combination?_of_isChoice ?_
    subst hnew
    exact congrArg (fun n : Node => isChoice n.op) (Graph.node_newNode_self ..)
  · have hm' : g.contains m := by simpa [Graph.single, Graph.contains_newNode, hnew] using hm
    have hlt := Graph.contains_lt hm'
    rw [combination?_alike hs hm' (hx.node m hlt) fun v hv => hx.node _ hv.lt ▸ .refl _]
    exact h m hm' (hasUses_of_jump hs hs' hc hchain hdest hu) hrest

end Jump

/-- A value that does not depend on a choice takes its place. -/
structure Supplants (g g' : Graph) (id : Nat) (v : Value) : Prop where
  before : Disciplined none g
  after : Disciplined none g'
  contains : g.contains id
  choice : isChoice (g.node id).op
  ne : v.node ≠ id
  apart : ¬ g.Reaches v.node id
  rewired : g.Rewired g' id fun i => ([some v][i]?).join

section Supplants

variable (h : Supplants g g' id v)
include h

theorem Supplants.result_eq_zero {i : Nat} (hi : g.Has ⟨id, i⟩) : i = 0 := by
  have hlen := h.before.choice id h.choice
  obtain ⟨vt, hvt⟩ := Option.isSome_iff_exists.1 hi.2
  rw [Graph.type?_eq] at hvt
  have hlt := (List.getElem?_eq_some_iff.1 hvt).1
  dsimp only at hlt
  omega

/-- A choice that a value takes the place of is used no more, and only the value may be used that
was not. -/
theorem Supplants.hasUses {m : Nat} (hu : g'.hasUses (some m)) :
    m ≠ id ∧ (m = v.node ∨ g.hasUses (some m)) := by
  have hs := h.before.sound
  have hr := h.rewired
  have hall : ∀ i, g.Has ⟨id, i⟩ → ∃ w, ([some v][i]?).join = some w ∧ w.node ≠ id ∧
      ¬ g.Needs w.node id := by
    intro i hi
    rw [h.result_eq_zero hi]
    exact ⟨v, rfl, h.ne, fun hn => h.apart (.single hn)⟩
  have hσ : ∀ {i : Nat} {w}, ([some v][i]?).join = some w → w = v := by
    intro i w hw
    have := Fits.mem_of_join hw
    simpa using this
  rw [hs.hasUses_iff]
  rcases h.after.sound.hasUses_iff.1 hu with ⟨a, ha⟩ | ⟨w, hw, hwm⟩
  · refine ⟨fun he => hr.not_needs hs hall a (he ▸ ha), ?_⟩
    rcases hr.needs_cases ha with ha | ⟨-, i, w, hw, hwm⟩
    · exact .inr (.inl ⟨a, ha⟩)
    · exact .inl (hσ hw ▸ hwm.symm)
  · refine ⟨fun he => hr.root_node_ne hs (fun i hi => (hall i hi).imp fun _ h => ⟨h.1, h.2.1⟩) hw
      (hwm.trans he), ?_⟩
    rw [hr.root, Option.map_eq_some_iff] at hw
    obtain ⟨r, hroot, rfl⟩ := hw
    rw [Graph.rewireRoot] at hwm
    split at hwm
    · cases hσr : ([some v][r.result]?).join with
      | none =>
        rw [hσr] at hwm
        exact .inr (.inr ⟨r, hroot, hwm⟩)
      | some w =>
        rw [hσr] at hwm
        exact .inl (hσ hσr ▸ hwm.symm)
    · exact .inr (.inr ⟨r, hroot, hwm⟩)

/-- When a value takes the place of a choice, only its users are to be looked at again, and the node
of the value. -/
theorem Settled.replaced (hset : Settled g (id :: rest)) :
    Settled g' (Graph.enqueue rest
      (Lower.targetNodes g' (v.node :: g.valueUsers (some ⟨id, 0⟩)))) := by
  have hs := h.before.sound
  have hr := h.rewired
  intro m hm hu hrest
  rw [Graph.mem_enqueue, not_or] at hrest
  obtain ⟨hrest, hnew⟩ := hrest
  have hm' : g.contains m := hr.contains m ▸ hm
  by_cases hch : isChoice (g'.node m).op = false
  · exact combination?_of_isChoice hch
  replace hch : isChoice (g'.node m).op := by simpa using hch
  rw [Lower.targetNodes, List.mem_filter, not_and_or] at hnew
  replace hnew := hnew.resolve_right (not_not.2 (isTarget_of_isChoice hch))
  rw [List.mem_cons, not_or, hs.exact.mem_valueUsers, not_and] at hnew
  obtain ⟨hmv, hnot⟩ := hnew
  obtain ⟨hmid, hu'⟩ := h.hasUses hu
  have hnode : g'.node m = g.node m := by
    refine hr.node_eq fun i hi => ?_
    have hi' := h.result_eq_zero (hs.has_operand hm' hi)
    subst hi'
    exact hnot hm' hi
  rw [combination?_alike hs hm' hnode fun v _ => alike_rewired hr v.node]
  exact hset m hm' (hu'.resolve_left hmv) (by simp [hmid, hrest])

end Supplants

end GraphLowering.Usim
