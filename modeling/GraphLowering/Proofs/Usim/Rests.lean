import GraphLowering.Proofs.Lower.Adds
import GraphLowering.Proofs.Usim.Arrival
import GraphLowering.Proofs.Usim.Lockstep

/-!
# Values that rest on legal nodes

What a value is computed from is its cone. A legal node on legal cones has a legal cone. Parameters
are read at the entry and put together from words, and all the nodes that this takes are legal.
-/

namespace GraphLowering.Usim

open Lower (Lowering Adds)
open Lower.Lowering
open Subtarget (Features)

variable {f : Features} {id : Nat} {g : Graph} {H : Graph → Prop} {l : Location} {vt : ValueType}

/-- A value of type `vt` that rests on legal nodes. -/
def Rests (f : Features) (g : Graph) (vt : ValueType) (o : Option Value) : Prop :=
  ∃ v, o = some v ∧ g.type? v = some vt ∧ ∀ id, g.Reaches v.node id → IsLegal f g id

theorem legal_cone {a : Nat} (ha : IsLegal f g a)
    (ho : ∀ w, some w ∈ (g.node a).operands → ∀ id, g.Reaches w.node id → IsLegal f g id) :
    ∀ id, g.Reaches a id → IsLegal f g id := by
  intro id hr
  rcases hr.cases_head with rfl | ⟨b, hn, hr⟩
  · exact ha
  · obtain ⟨-, j, hj⟩ := Graph.needs_iff.1 hn
    exact ho _ hj id hr

theorem legal_leaf {a : Nat} (hw : wordAction? f (g.node a).op = some .legal)
    (ht : ∀ vt ∈ (g.node a).types, vt ≠ .i128 ∧ vt.isWide = false) (ho : (g.node a).operands = []) :
    ∀ id, g.Reaches a id → IsLegal f g id := by
  refine legal_cone ⟨(g.node a).types, ?_, classify_words hw ht⟩ fun w hw => ?_
  · simp [Graph.nodeTypes?, ho]
  · rw [ho] at hw
    cases hw

theorem Rests.of_node {n : Node} {types : List ValueType} (hn : g.node id = n)
    (ho : List.Forall₂ (Rests f g) types n.operands)
    (hc : classify f n.op (n.types ++ types.filter (!·.isToken)) = .legal)
    (ht : n.types[0]? = some vt) : Rests f g vt (some ⟨id, 0⟩) := by
  subst hn
  have htypes : (g.node id).operands.mapM g.operandType? = some types := by
    clear hc ht
    generalize (g.node id).operands = operands at ho
    induction ho with
    | nil => rfl
    | cons h _ ih =>
      obtain ⟨v, rfl, hv, -⟩ := h
      rw [List.mapM_cons, ih]
      simp [Graph.operandType?, hv]
  refine ⟨_, rfl, by rw [Graph.type?_eq, ht],
    legal_cone ⟨_, by rw [Graph.nodeTypes?, htypes]; rfl, hc⟩ ?_⟩
  intro w hw
  obtain ⟨_, -, v, hv, -, hlegal⟩ := exists_left_of_forall₂ ho hw
  cases hv
  exact hlegal

theorem rests_entry (hs : g.Sound) : Rests f g .chain (some Graph.entry) :=
  .of_node hs.entry.2 .nil rfl rfl

theorem legal_entry (hs : g.Sound) : ∀ id, g.Reaches Graph.entry.node id → IsLegal f g id := by
  obtain ⟨_, hv, -, h⟩ := rests_entry (f := f) hs
  cases hv
  exact h

theorem rests_readIncoming (hl : IsWordType l.type) (hH : ∀ g, H g → g.Sound) :
    Adds H (readIncoming l) fun o g => Rests f g l.type o := by
  unfold readIncoming
  split
  · rename_i r _
    refine (Adds.result (Q := fun id g => Rests f g l.type (some ⟨id, 0⟩)) (Adds.build_seq
      (h := (·.register r l.type))
      (k := fun v g => g.newNode .copyFromReg [l.type, .chain, .glue]
      [some Graph.entry, some v, none]) Adds.leaf fun v => Adds.newNode.mono
      fun id g hg hid => ?_)).mono fun o g _ ⟨id, ho, h⟩ => ho ▸ h
    obtain ⟨reg, i⟩ := v
    obtain ⟨hg, rfl, hreg⟩ := hg
    refine .of_node hid (.cons (rests_entry (hH g hg)) (.cons (.of_node hreg .nil ?_ rfl) .nil)) ?_
      rfl <;> rcases hl with hl | hl <;> rw [hl] <;> rfl
  · refine Adds.createFixed (k := fun i => do
      result 0 (·.load (some Graph.entry) (← value (·.frameIndex i pointerType)) l.type))
      fun i => ?_
    refine Adds.bind (Adds.value Adds.leaf) fun ptr =>
      (Adds.result Adds.newNode).mono fun o g hg ho => ?_
    obtain ⟨hg, ⟨p, j⟩, rfl, rfl, hp⟩ := hg
    obtain ⟨id, rfl, hn⟩ := ho
    refine .of_node hn (.cons (rests_entry (hH g hg)) (.cons (.of_node hp .nil rfl rfl) .nil)) ?_
      rfl
    rcases hl with hl | hl <;> rw [hl] <;> rfl

theorem rests_ofWords {words : List (Option Value)}
    (hw : ∀ g, H g → ∀ o ∈ words, ∃ k, IsWordType k ∧ Rests f g k o) :
    Adds H (ofWords vt words) fun o g => ∃ k, Rests f g k o := by
  unfold ofWords
  split
  · refine (Adds.value Adds.single).mono fun o g hg ho => ?_
    obtain ⟨⟨id, i⟩, rfl, rfl, hn⟩ := ho
    obtain ⟨k, -, low, rfl, hlow⟩ := hw g hg _ List.mem_cons_self
    obtain ⟨k', -, high, rfl, hhigh⟩ := hw g hg _ (List.mem_cons_of_mem _ List.mem_cons_self)
    exact ⟨_, .of_node hn (.cons ⟨low, rfl, hlow⟩ (.cons ⟨high, rfl, hhigh⟩ .nil)) rfl rfl⟩
  · refine Adds.ite (fun hvt => ?_) fun _ => Adds.pure fun g hg => ?_
    · refine (Adds.value Adds.single).mono fun o g hg ho => ?_
      obtain ⟨⟨id, i⟩, rfl, rfl, hn⟩ := ho
      obtain ⟨k, hk, v, rfl, hv⟩ := hw g hg _ List.mem_cons_self
      refine ⟨_, .of_node hn (.cons ⟨v, rfl, hv⟩ .nil) ?_ rfl⟩
      rcases hk with rfl | rfl <;> cases vt <;> first | rfl | cases hvt
    · obtain ⟨k, -, h⟩ := hw g hg _ List.mem_cons_self
      exact ⟨k, h⟩
  · exact Adds.malformed

theorem rests_formalsAt {params : List ValueType} {ls : List Location}
    (hl : ∀ l ∈ ls, IsWordType l.type) (hH : ∀ g, H g → g.Sound) :
    Adds H (formalsAt params ls) fun vs g => ∀ o ∈ vs, ∃ k, Rests f g k o := by
  refine Adds.bind (Adds.mapM (R := fun l w g => Rests f g l.type w.2) fun l hl' => ?_)
    fun ws => (Adds.mapM (R := fun _ o g => ∃ k, Rests f g k o) fun q _ => rests_ofWords
      fun g hg o ho => ?_).mono
    fun vs g _ h o ho => ?_
  · exact Adds.bind (rests_readIncoming (hl l hl') hH) fun o => Adds.pure fun g hg => hg.2
  · obtain ⟨w, hw, rfl⟩ := List.mem_map.1 ho
    obtain ⟨l, hl', h⟩ := exists_left_of_forall₂ hg.2 (List.mem_filter.1 hw).1
    exact ⟨_, hl l hl', h⟩
  · obtain ⟨_, -, h⟩ := exists_left_of_forall₂ h ho
    exact h

end GraphLowering.Usim
