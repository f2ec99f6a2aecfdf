import GraphLowering.Proofs.Graph.Replace
import Mathlib.Data.Fintype.EquivFin
import Mathlib.Logic.Relation
import Mathlib.Order.WellFounded

/-!
# Dependence

A node needs the nodes of its operands; what it needs, directly or not, it reaches. A graph is
acyclic if no node reaches itself in one or more steps. Each change of a graph keeps it acyclic
under a condition on the values that come in: a new node may take any (`Acyclic.newNode`), values in
place of a node may not reach it (`Acyclic.rewired`), nor may a value that is put into an operand
reach its user (`Acyclic.updated`). All three follow from one fact about relations: edges may be
redirected into a set that is left as it is and that nothing leaves (`acyclic_of_redirect`).
-/

namespace GraphLowering.Graph

open Relation

/-- If `r'` has the edges of `r`, or edges into a set `S` that `r'` does not leave and on which it
is `r`, then `r'` has a cycle only if `r` has one. -/
theorem acyclic_of_redirect {r r' : Nat → Nat → Prop} (S : Nat → Prop) (hr : ∀ a, ¬ TransGen r a a)
    (hin : ∀ a b, S a → r' a b → S b ∧ r a b) (hout : ∀ a b, ¬ S a → r' a b → S b ∨ r a b) :
    ∀ a, ¬ TransGen r' a a := by
  have hstay : ∀ {a b}, S a → TransGen r' a b → S b ∧ TransGen r a b := by
    intro a b ha h
    induction h with
    | single h => exact ⟨(hin _ _ ha h).1, .single (hin _ _ ha h).2⟩
    | tail _ h ih => exact ⟨(hin _ _ ih.1 h).1, ih.2.tail (hin _ _ ih.1 h).2⟩
  have hcross : ∀ {a b}, ¬ S a → TransGen r' a b → S b ∨ TransGen r a b := by
    intro a b ha h
    induction h with
    | single h => exact (hout _ _ ha h).imp_right .single
    | @tail b c _ h ih =>
      by_cases hb : S b
      · exact .inl (hin _ _ hb h).1
      · exact (hout _ _ hb h).imp_right (ih.resolve_left hb).tail
  intro a h
  by_cases ha : S a
  · exact hr a (hstay ha h).2
  · exact (hcross ha h).elim ha (hr a)

variable {g g' : Graph} {id a b : Nat} {v w : Value} {u : Use}

/-- Node `a` of the graph has a result of `b` as an operand. -/
def Needs (g : Graph) (a b : Nat) : Prop := g.contains a ∧ b ∈ g.operandNodes a

/-- Node `a` is `b` or is computed from it. -/
def Reaches (g : Graph) : Nat → Nat → Prop := ReflTransGen g.Needs

def Acyclic (g : Graph) : Prop := ∀ a, ¬ TransGen g.Needs a a

theorem needs_iff :
    g.Needs a b ↔ g.contains a ∧ ∃ i, some (⟨b, i⟩ : Value) ∈ (g.node a).operands := by
  rw [Needs, mem_operandNodes]

theorem Sound.contains_of_needs (h : g.Sound) (hn : g.Needs a b) : g.contains b := by
  obtain ⟨ha, i, hi⟩ := needs_iff.1 hn
  exact (h.has_operand ha hi).1

theorem Sound.contains_of_reaches (h : g.Sound) (ha : g.contains a) (hr : g.Reaches a b) :
    g.contains b := by
  induction hr with
  | refl => exact ha
  | tail _ hn _ => exact h.contains_of_needs hn

theorem Sound.needs_iff_uses (h : g.Sound) :
    g.Needs a b ↔ a ∈ (g.usesOf (some b)).map (·.user) := by
  simp only [needs_iff, List.mem_map, h.mem_usesOf, operand_eq_some]
  constructor
  · rintro ⟨ha, i, hi⟩
    obtain ⟨s, hs⟩ := List.mem_iff_getElem?.1 hi
    exact ⟨⟨a, s⟩, ⟨ha, i, hs⟩, rfl⟩
  · rintro ⟨u, ⟨hu, i, hi⟩, rfl⟩
    exact ⟨hu, i, List.mem_of_getElem? hi⟩

/-! ### Growth -/

namespace Extends

variable (hx : g.Extends g')
include hx

theorem needs_iff (ha : a < g.entries.size) : g'.Needs a b ↔ g.Needs a b := by
  rw [Graph.needs_iff, Graph.needs_iff, hx.contains a ha, hx.node a ha]

theorem reaches (h : g.Reaches a b) : g'.Reaches a b := by
  induction h with
  | refl => exact .refl
  | tail _ hn ih => exact ih.tail ((hx.needs_iff (contains_lt hn.1)).2 hn)

theorem reaches_iff (h : g.Sound) (ha : a < g.entries.size) : g'.Reaches a b ↔ g.Reaches a b := by
  refine ⟨fun hr => ?_, hx.reaches⟩
  have hboth : b < g.entries.size ∧ g.Reaches a b := by
    induction hr with
    | refl => exact ⟨ha, .refl⟩
    | tail _ hn ih =>
      have hn := (hx.needs_iff ih.1).1 hn
      exact ⟨contains_lt (h.contains_of_needs hn), ih.2.tail hn⟩
  exact hboth.2

end Extends

section NewNode

variable {op : Opcode} {types : List ValueType} {operands : List (Option Value)} {payload : Payload}

theorem needs_newNode_self :
    (g.newNode op types operands payload).1.Needs g.entries.size b ↔
      ∃ i, (⟨b, i⟩ : Value) ∈ taken operands := by
  rw [needs_iff, contains_newNode, node_newNode_self]
  simp

theorem Acyclic.newNode (h : g.Acyclic) (hs : g.Sound) (hv : ∀ v ∈ taken operands, g.Has v) :
    (g.newNode op types operands payload).1.Acyclic := by
  have hx := Extends.newNode g op types operands payload
  refine acyclic_of_redirect (· < g.entries.size) h (fun a b ha hn => ?_) fun a b ha hn => .inl ?_
  · have hn := (hx.needs_iff ha).1 hn
    exact ⟨contains_lt (hs.contains_of_needs hn), hn⟩
  · have hlt := contains_lt hn.1
    rw [size_newNode] at hlt
    obtain rfl : a = g.entries.size := by omega
    obtain ⟨i, hi⟩ := needs_newNode_self.1 hn
    exact (hv _ hi).lt

end NewNode

/-! ### Replacement -/

theorem rewireBy_cases {σ : Nat → Option Value} {user : Nat} {o : Option Value}
    (h : rewireBy σ id user o = some w) :
    o = some w ∨ ∃ i, o = some ⟨id, i⟩ ∧ σ i = some w := by
  rcases o with - | ⟨n, i⟩
  · cases h
  · simp only [rewireBy] at h
    split at h
    · rename_i hn
      subst hn
      split at h
      · rename_i v hv
        split at h
        · exact .inl h
        · exact .inr ⟨i, rfl, hv.trans h⟩
      · exact .inl h
    · exact .inl h

namespace Rewired

variable {σ : Nat → Option Value} (hr : g.Rewired g' id σ)
include hr

theorem type? (v : Value) : g'.type? v = g.type? v := by
  rw [type?_eq, type?_eq]
  by_cases hm : g.contains v.node
  · rw [hr.node _ hm]
  · rw [hr.gone _ hm]

theorem has_iff : g'.Has v ↔ g.Has v := by
  rw [Has, Has, hr.contains, hr.type?]

/-- An operand is as it was, or it was a result of the replaced node. -/
theorem mem_operands (ha : g.contains a) (hw : some w ∈ (g'.node a).operands) :
    some w ∈ (g.node a).operands ∨
      ∃ i, some ⟨id, i⟩ ∈ (g.node a).operands ∧ σ i = some w := by
  rw [hr.node a ha] at hw
  obtain ⟨o, ho, hw⟩ := List.mem_map.1 hw
  rcases rewireBy_cases hw with rfl | ⟨i, rfl, hi⟩
  · exact .inl ho
  · exact .inr ⟨i, ho, hi⟩

theorem needs_cases (hn : g'.Needs a b) :
    g.Needs a b ∨ (g.Needs a id ∧ ∃ i w, σ i = some w ∧ w.node = b) := by
  obtain ⟨ha, i, hi⟩ := needs_iff.1 hn
  rw [hr.contains] at ha
  rcases hr.mem_operands ha hi with h | ⟨j, h, hj⟩
  · exact .inl (needs_iff.2 ⟨ha, i, h⟩)
  · exact .inr ⟨needs_iff.2 ⟨ha, j, h⟩, j, _, hj, rfl⟩

theorem node_eq (ha : ∀ i, some ⟨id, i⟩ ∉ (g.node a).operands) : g'.node a = g.node a := by
  by_cases hc : g.contains a
  · rw [hr.node a hc]
    have hmap : (g.node a).operands.map (rewireBy σ id a) = (g.node a).operands := by
      conv_rhs => rw [← List.map_id (g.node a).operands]
      refine List.map_congr_left fun o ho => ?_
      rcases o with - | ⟨n, i⟩
      · rfl
      · have hn : n ≠ id := fun e => ha i (e ▸ ho)
        simp [rewireBy, hn]
    rw [hmap]
  · exact hr.gone a hc

/-- A node of which all results are replaced by values that do not take it is not needed any
more. -/
theorem not_needs (h : g.Sound) (hall : ∀ i, g.Has ⟨id, i⟩ →
    ∃ v, σ i = some v ∧ v.node ≠ id ∧ ¬ g.Needs v.node id) (a : Nat) : ¬ g'.Needs a id := by
  intro hn
  obtain ⟨ha, k, hk⟩ := needs_iff.1 hn
  rw [hr.contains] at ha
  rw [hr.node a ha] at hk
  obtain ⟨o, ho, hw⟩ := List.mem_map.1 hk
  obtain ⟨w, rfl, hhas⟩ := h.operands a ha o ho
  by_cases hwid : w.node = id
  · obtain ⟨v, hv, hne, hfree⟩ := hall w.result (hwid ▸ hhas)
    rw [rewireBy] at hw
    simp only [hwid, if_true, hv] at hw
    split at hw <;> rename_i hva
    · exact hfree (needs_iff.2 ⟨hva ▸ ha, w.result, hwid ▸ hva ▸ ho⟩)
    · cases hw
      exact hne rfl
  · simp only [rewireBy, hwid, if_false] at hw
    cases hw
    exact hwid rfl

theorem root_node_ne (h : g.Sound) (hall : ∀ i, g.Has ⟨id, i⟩ → ∃ v, σ i = some v ∧ v.node ≠ id)
    (hw : g'.root = some w) : w.node ≠ id := by
  obtain ⟨r, hroot, hhas⟩ := h.root
  rw [hr.root, hroot] at hw
  cases hw
  rw [rewireRoot]
  split <;> rename_i hid
  · obtain ⟨v, hv, hne⟩ := hall r.result (hid ▸ hhas)
    rw [hv]
    exact hne
  · exact hid

end Rewired

theorem Acyclic.rewired {σ : Nat → Option Value} (h : g.Acyclic) (hr : g.Rewired g' id σ)
    (hσ : ∀ i v, σ i = some v → ¬ g.Reaches v.node id) : g'.Acyclic := by
  refine acyclic_of_redirect (fun a => ¬ g.Reaches a id) h (fun a b ha hn => ?_) fun a b _ hn => ?_
  · rcases hr.needs_cases hn with hn | ⟨hid, -⟩
    · exact ⟨fun hb => ha (hb.head hn), hn⟩
    · exact absurd (ReflTransGen.single hid) ha
  · rcases hr.needs_cases hn with hn | ⟨-, i, w, hw, rfl⟩
    · exact .inr hn
    · exact .inl (hσ i w hw)

/-- The node of the new values may itself take the one that is replaced, if it does not depend on it
in another way: it keeps it as an operand. -/
theorem Acyclic.rewired_through {σ : Nat → Option Value} {m : Nat} (h : g.Acyclic)
    (hr : g.Rewired g' id σ) (hσ : ∀ i v, σ i = some v → v.node = m)
    (hm : ∀ b, g.Needs m b → b ≠ id → ¬ g.Reaches b id) : g'.Acyclic := by
  have hkeep : ∀ o, rewireBy σ id m o = o := by
    intro o
    cases o with
    | none => rfl
    | some w =>
      unfold rewireBy
      dsimp only
      split
      · cases hw : σ w.result with
        | none => rfl
        | some v => simp [hσ _ v hw]
      · rfl
  refine acyclic_of_redirect (g.Reaches m) h (fun a b ha hn => ?_) fun a b _ hn => ?_
  · have hn' : g.Needs a b := by
      rcases hr.needs_cases hn with hn' | ⟨hid, -⟩
      · exact hn'
      rcases ha.cases_head with rfl | ⟨c, hmc, hca⟩
      · have hc : g.contains m := hr.contains m ▸ hn.1
        rw [Graph.needs_iff, hr.node m hc, hr.contains, funext hkeep, List.map_id'] at hn
        exact Graph.needs_iff.2 hn
      · by_cases hc : c = id
        · subst hc
          exact absurd (TransGen.tail' hca hid) (h c)
        · exact absurd (hca.tail hid) (hm c hmc hc)
    exact ⟨ha.tail hn', hn'⟩
  · rcases hr.needs_cases hn with hn | ⟨-, i, w, hw, rfl⟩
    · exact .inr hn
    · exact .inl (hσ i w hw ▸ .refl)

namespace Updated

variable (hup : g.Updated g' u w)
include hup

theorem needs_cases (hn : g'.Needs a b) : g.Needs a b ∨ (a = u.user ∧ b = w.node) := by
  obtain ⟨ha, i, hi⟩ := needs_iff.1 hn
  rw [hup.contains] at ha
  rw [hup.node] at hi
  split at hi <;> rename_i hm
  · rcases List.mem_or_eq_of_mem_set hi with hi | hi
    · exact .inl (needs_iff.2 ⟨ha, i, hi⟩)
    · exact .inr ⟨hm, congrArg Value.node (Option.some.inj hi)⟩
  · exact .inl (needs_iff.2 ⟨ha, i, hi⟩)

theorem reaches (ha : ¬ g.Reaches a u.user) (hr : g'.Reaches a b) : g.Reaches a b := by
  induction hr with
  | refl => exact .refl
  | tail _ hn ih =>
    rcases hup.needs_cases hn with hn | ⟨rfl, -⟩
    · exact ih.tail hn
    · exact absurd ih ha

end Updated

theorem Acyclic.updated (h : g.Acyclic) (hup : g.Updated g' u w)
    (hw : ¬ g.Reaches w.node u.user) : g'.Acyclic := by
  refine acyclic_of_redirect (fun a => ¬ g.Reaches a u.user) h (fun a b ha hn => ?_)
    fun a b _ hn => ?_
  · rcases hup.needs_cases hn with hn | ⟨rfl, -⟩
    · exact ⟨fun hb => ha (hb.head hn), hn⟩
    · exact absurd ReflTransGen.refl ha
  · rcases hup.needs_cases hn with hn | ⟨-, rfl⟩
    · exact .inr hn
    · exact .inl hw

/-! ### Order -/

theorem Acyclic.not_reaches (h : g.Acyclic) (hn : g.Needs a b) : ¬ g.Reaches b a := fun hr =>
  h a (TransGen.head' hn hr)

/-- A node that is not computed from a cycle can be computed once its operands are. -/
theorem Exact.acc (h : g.Exact) {a : Nat} (hc : ∀ c, g.Reaches a c → ¬ TransGen g.Needs c c) :
    Acc (fun b a => g.Needs a b) a := by
  have hlt : ∀ {a b}, g.Needs a b → b < g.entries.size := by
    intro a b hn
    obtain ⟨ha, i, hi⟩ := needs_iff.1 hn
    obtain ⟨s, hs⟩ := List.mem_iff_getElem?.1 hi
    exact h.known ⟨a, s⟩ ⟨b, i⟩ ⟨ha, hs⟩
  -- among what `a` is computed from, being computed from is a finite order
  let r : Fin g.entries.size → Fin g.entries.size → Prop :=
    fun y x => g.Reaches a x ∧ TransGen g.Needs x y
  have : IsTrans _ r := ⟨fun _ _ _ hab hbc => ⟨hbc.1, hbc.2.trans hab.2⟩⟩
  have : Std.Irrefl r := ⟨fun x hx => hc x hx.1 hx.2⟩
  have hwf : WellFounded r := Finite.wellFounded_of_trans_of_irrefl r
  have hall : ∀ x : Fin g.entries.size, g.Reaches a x → Acc (fun b a => g.Needs a b) x.1 := by
    intro x
    induction x using hwf.induction with
    | _ x ih =>
      exact fun hx => Acc.intro _ fun b hb => ih ⟨b, hlt hb⟩ ⟨hx, .single hb⟩ (hx.tail hb)
  exact Acc.intro _ fun b hb => hall ⟨b, hlt hb⟩ (.single hb)

theorem Acyclic.acc (h : g.Acyclic) (hs : g.Sound) (a : Nat) : Acc (fun b a => g.Needs a b) a :=
  hs.exact.acc fun c _ => h c

end GraphLowering.Graph
