import GraphLowering.Proofs.Graph.Marking

/-!
# Removing dead nodes

Removing nodes, in any order, leaves the others as they are and takes the removed users out of their
use lists (`Exact.usesOf_removeNodes`), which stay exact if the users of the removed nodes are
removed too. Dead nodes are those that are not live, so what remains is sound (`Sound.removeDead`)
and consists of the live nodes (`Sound.contains_removeDead`). If operands and the root may name
removed nodes, what is kept is what they lead to, through removed nodes too
(`Exact.removeDead_keeps_named`).
-/

namespace GraphLowering.Graph

variable {g : Graph} {id y : Nat}

/-! ### Forgetting the operands of a node -/

/-- Takes operands of `user` out of the use lists. -/
def dropUses (g : Graph) (user : Nat) (operands : List (Option Value × Nat)) : Graph :=
  operands.foldl (fun g (v, slot) => g.dropUse (v.map (·.node)) { user, slot }) g

section DropUses

variable (g) (user : Nat) (operands : List (Option Value × Nat))

@[simp] theorem size_dropUses : (g.dropUses user operands).entries.size = g.entries.size :=
  foldl_keeps (·.entries.size) (fun _ _ => size_setUses ..) operands g

@[simp] theorem node_dropUses (id : Nat) : (g.dropUses user operands).node id = g.node id :=
  foldl_keeps (·.node id) (fun _ _ => node_setUses ..) operands g

@[simp] theorem contains_dropUses (id : Nat) :
    (g.dropUses user operands).contains id = g.contains id :=
  foldl_keeps (·.contains id) (fun _ _ => contains_setUses ..) operands g

@[simp] theorem root_dropUses : (g.dropUses user operands).root = g.root :=
  foldl_keeps (·.root) (fun _ _ => root_setUses ..) operands g

@[simp] theorem frame_dropUses : (g.dropUses user operands).frame = g.frame :=
  foldl_keeps (·.frame) (fun _ _ => frame_setUses ..) operands g

@[simp] theorem signature_dropUses : (g.dropUses user operands).signature = g.signature :=
  foldl_keeps (·.signature) (fun _ _ => signature_setUses ..) operands g

variable {g}

theorem usesOf_dropUses {of : Option Nat} (hnd : (g.usesOf of).Nodup)
    (hof : ∀ y, of = some y → y < g.entries.size) :
    (g.dropUses user operands).usesOf of =
      (g.usesOf of).filter fun u =>
        !operands.any fun p => p.1.map (·.node) = of ∧ u = { user, slot := p.2 } := by
  induction operands generalizing g with
  | nil => simp [dropUses]
  | cons p rest ih =>
    rcases p with ⟨v, slot⟩
    have hone : (g.dropUse (v.map (·.node)) { user, slot }).usesOf of =
        (g.usesOf of).filter fun u => !(v.map (·.node) = of ∧ u = { user, slot } : Bool) := by
      rw [dropUse]
      by_cases hv : v.map (·.node) = of
      · have hset : (g.setUses of ((g.usesOf of).erase { user, slot })).usesOf of =
            (g.usesOf of).erase { user, slot } := by
          cases of with
          | none => rfl
          | some y => exact usesOf_setUses_self _ _ (hof y rfl)
        rw [hv, hset, hnd.erase_eq_filter]
        exact List.filter_congr fun u _ => by simp [bne, beq_eq_decide]
      · rw [usesOf_setUses_of_ne _ _ _ (Ne.symm hv)]
        simp [hv]
    have hstep := ih (g := g.dropUse (v.map (·.node)) { user, slot })
      (by rw [hone]; exact hnd.filter _) (by simpa [dropUse] using hof)
    rw [dropUses, List.foldl_cons, ← dropUses, hstep, hone, List.filter_filter]
    refine List.filter_congr fun u _ => ?_
    simp [Bool.and_comm]

end DropUses

/-! ### Removing nodes -/

theorem removeNode_eq (g : Graph) (id : Nat) :
    g.removeNode id =
      let h := g.dropUses id (g.node id).operands.zipIdx
      { h with entries := h.entries.modify id fun e => { e with present := false, uses := [] } } :=
        rfl

section RemoveNode

variable (g) (id : Nat)

@[simp] theorem size_removeNode : (g.removeNode id).entries.size = g.entries.size := by
  simp [removeNode_eq]

@[simp] theorem node_removeNode (k : Nat) : (g.removeNode id).node k = g.node k := by
  conv_rhs => rw [← node_dropUses g id (g.node id).operands.zipIdx k]
  simp only [removeNode_eq, node, Array.getD_eq_getD_getElem?, Array.getElem?_modify]
  split
  · cases (g.dropUses id _).entries[k]? <;> rfl
  · rfl

@[simp] theorem root_removeNode : (g.removeNode id).root = g.root := by simp [removeNode_eq]

@[simp] theorem frame_removeNode : (g.removeNode id).frame = g.frame := by simp [removeNode_eq]

@[simp] theorem signature_removeNode : (g.removeNode id).signature = g.signature := by
  simp [removeNode_eq]

theorem contains_removeNode (k : Nat) :
    (g.removeNode id).contains k = (g.contains k && !decide (k = id)) := by
  conv_rhs => rw [← contains_dropUses g id (g.node id).operands.zipIdx k]
  simp only [removeNode_eq, contains, Array.getElem?_modify]
  by_cases hk : id = k
  · subst hk
    cases (g.dropUses id _).entries[id]? <;> simp
  · simp [hk, Ne.symm hk]

theorem usesOf_removeNode_self : (g.removeNode id).usesOf (some id) = [] := by
  simp only [removeNode_eq, usesOf, Array.getD_eq_getD_getElem?, Array.getElem?_modify, if_true]
  cases (g.dropUses id _).entries[id]? <;> rfl

theorem usesOf_removeNode_of_ne {of : Option Nat} (hof : of ≠ some id) :
    (g.removeNode id).usesOf of = (g.dropUses id (g.node id).operands.zipIdx).usesOf of := by
  cases of with
  | none => rfl
  | some k =>
    have hk : id ≠ k := fun e => hof (e ▸ rfl)
    simp [removeNode_eq, usesOf, Array.getD_eq_getD_getElem?, Array.getElem?_modify, hk]

end RemoveNode

/-- The graph without the nodes of a list. -/
def removeNodes (g : Graph) (ids : List Nat) : Graph := ids.foldl removeNode g

section RemoveNodes

variable (g) (ids : List Nat)

theorem removeNodes_append (last : Nat) :
    g.removeNodes (ids ++ [last]) = (g.removeNodes ids).removeNode last := by
  simp [removeNodes]

@[simp] theorem size_removeNodes : (g.removeNodes ids).entries.size = g.entries.size :=
  foldl_keeps (·.entries.size) (fun _ _ => size_removeNode ..) ids g

@[simp] theorem node_removeNodes (k : Nat) : (g.removeNodes ids).node k = g.node k :=
  foldl_keeps (·.node k) (fun _ _ => node_removeNode ..) ids g

@[simp] theorem root_removeNodes : (g.removeNodes ids).root = g.root :=
  foldl_keeps (·.root) (fun _ _ => root_removeNode ..) ids g

@[simp] theorem frame_removeNodes : (g.removeNodes ids).frame = g.frame :=
  foldl_keeps (·.frame) (fun _ _ => frame_removeNode ..) ids g

@[simp] theorem signature_removeNodes : (g.removeNodes ids).signature = g.signature :=
  foldl_keeps (·.signature) (fun _ _ => signature_removeNode ..) ids g

@[simp] theorem type?_removeNodes (v : Value) : (g.removeNodes ids).type? v = g.type? v := by
  rw [type?_eq, type?_eq, node_removeNodes]

theorem contains_removeNodes (k : Nat) :
    (g.removeNodes ids).contains k = (g.contains k && !decide (k ∈ ids)) := by
  induction ids generalizing g with
  | nil => simp [removeNodes]
  | cons i ids ih =>
    rw [removeNodes, List.foldl_cons, ← removeNodes, ih, contains_removeNode]
    by_cases hk : k = i <;> simp [hk]

end RemoveNodes

/-- The use lists lose the removed users; the removed nodes have no uses. -/
theorem Exact.usesOf_removeNodes (h : g.Exact) (ids : List Nat) (of : Option Nat) :
    (g.removeNodes ids).usesOf of =
      if of ∈ ids.map some then [] else (g.usesOf of).filter fun u => u.user ∉ ids := by
  by_cases hof : ∀ y, of = some y → y < g.entries.size
  swap
  · obtain ⟨y, hy⟩ := not_forall.1 hof
    obtain ⟨rfl, hlt⟩ := Classical.not_imp.1 hy
    have hle := Nat.not_lt.1 hlt
    rw [usesOf_of_le (by simpa using hle), usesOf_of_le hle]
    simp
  induction ids using List.reverseRecOn with
  | nil => simp [removeNodes]
  | append_singleton ids last ih =>
    rw [removeNodes_append]
    by_cases hlast : of = some last
    · subst hlast
      rw [usesOf_removeNode_self, if_pos (by simp)]
    have hnd : ((g.removeNodes ids).usesOf of).Nodup := by
      rw [ih]
      split
      · exact List.nodup_nil
      · exact (h.nodup of).filter _
    rw [usesOf_removeNode_of_ne _ _ hlast, usesOf_dropUses _ _ hnd (by simpa using hof), ih]
    simp only [List.map_append, List.map_cons, List.map_nil, List.mem_append, List.mem_singleton,
      hlast, or_false]
    split
    · rfl
    · rw [List.filter_filter]
      refine List.filter_congr fun u hu => ?_
      obtain ⟨o, hs, ho⟩ := (h.mem_usesOf of u).1 hu
      -- a use by the removed node is one of its operands, and the others stay
      have hdrop : (((g.removeNodes ids).node last).operands.zipIdx.any fun p =>
          p.1.map (·.node) = of ∧ u = { user := last, slot := p.2 }) = decide (u.user = last) := by
        rw [node_removeNodes]
        by_cases hu' : u.user = last
        · have hmem := List.mk_mem_zipIdx_iff_getElem?.2 hs.2
          rw [decide_eq_true hu', List.any_eq_true]
          exact ⟨_, hu' ▸ hmem, by simp [ho, ← hu']⟩
        · rw [decide_eq_false hu', List.any_eq_false]
          rintro ⟨o', s⟩ -
          simp only [decide_eq_true_eq, not_and]
          rintro - rfl
          exact hu' rfl
      rw [hdrop]
      by_cases hin : u.user ∈ ids <;> by_cases hl : u.user = last <;> simp [hin, hl]

theorem slot_removeNodes {ids : List Nat} {u : Use} {o : Option Value} :
    (g.removeNodes ids).Slot u o ↔ g.Slot u o ∧ u.user ∉ ids := by
  rw [Slot, contains_removeNodes, node_removeNodes, Slot, Bool.and_eq_true, Bool.not_eq_true',
    decide_eq_false_iff_not, and_right_comm]

/-- Use lists stay exact when nodes are removed together with all their users. -/
theorem Exact.removeNodes (h : g.Exact) {ids : List Nat}
    (hids : ∀ u v, g.Slot u (some v) → v.node ∈ ids → u.user ∈ ids) :
    (g.removeNodes ids).Exact := by
  refine ⟨fun u v hu => ?_, fun of u => ?_, fun of => ?_⟩
  · rw [size_removeNodes]
    exact h.known u v (slot_removeNodes.1 hu).1
  · rw [h.usesOf_removeNodes]
    simp only [slot_removeNodes]
    split <;> rename_i hof
    · obtain ⟨k, hk, rfl⟩ := List.mem_map.1 hof
      simp only [List.not_mem_nil, false_iff, not_exists]
      rintro o ⟨⟨hs, hu⟩, ho⟩
      obtain ⟨v, rfl, rfl⟩ := Option.map_eq_some_iff.1 ho
      exact hu (hids u v hs hk)
    · rw [List.mem_filter, h.mem_usesOf, decide_eq_true_eq]
      constructor
      · rintro ⟨⟨o, hs, ho⟩, hu⟩
        exact ⟨o, ⟨hs, hu⟩, ho⟩
      · rintro ⟨o, ⟨hs, hu⟩, ho⟩
        exact ⟨⟨o, hs, ho⟩, hu⟩
  · rw [h.usesOf_removeNodes]
    split
    · exact List.nodup_nil
    · exact (h.nodup of).filter _

/-! ### Dead nodes -/

theorem foldl_removeCounted (g : Graph) (ids : List Nat) (n : Nat) :
    ids.foldl removeCounted (g, n) = (g.removeNodes ids, n + ids.length) := by
  induction ids generalizing g n with
  | nil => rfl
  | cons id ids ih =>
    rw [List.foldl_cons, removeCounted, ih, List.length_cons, Nat.add_right_comm, Nat.add_assoc]
    rfl

theorem removeDead_eq (g : Graph) : g.removeDead.1 = g.removeNodes g.deadNodes := by
  rw [removeDead, foldl_removeCounted]

/-- Every node that is removed is counted, and it was in the graph. -/
theorem removeDead_count (g : Graph) :
    g.removeDead.2 = ((List.range g.entries.size).filter fun id =>
      g.contains id && !g.removeDead.1.contains id).length := by
  have hgone : ∀ id, (g.contains id && !g.removeDead.1.contains id) =
      (g.contains id && !g.live.getD id false) := by
    intro id
    rw [removeDead_eq, contains_removeNodes, deadNodes]
    by_cases hc : g.contains id
    · simp [hc, contains_lt hc]
    · simp [hc]
  simp only [hgone]
  rw [removeDead, foldl_removeCounted, Nat.zero_add, deadNodes]

theorem mem_deadNodes : id ∈ g.deadNodes ↔ g.contains id ∧ ¬ Marked g.live id := by
  simp only [deadNodes, List.mem_filter, List.mem_range, Bool.and_eq_true,
    Bool.not_eq_true', Marked, Bool.not_eq_true]
  exact ⟨fun hid => hid.2, fun hid => ⟨contains_lt hid.1, hid⟩⟩

/-- What uses a dead node is dead. -/
theorem Exact.mem_deadNodes_of_slot (h : g.Exact) {u : Use} {v : Value} (hs : g.Slot u (some v))
    (hv : v.node ∈ g.deadNodes) : u.user ∈ g.deadNodes := by
  refine mem_deadNodes.2 ⟨hs.1,
    fun hm => (mem_deadNodes.1 hv).2 (marked_live_of_mem hm ?_ (h.known u v hs))⟩
  exact mem_operandNodes.2 ⟨v.result, List.mem_of_getElem? hs.2⟩

theorem Exact.removeDead (h : g.Exact) {ids : List Nat} (hids : ids.Perm g.deadNodes) :
    (g.removeNodes ids).Exact :=
  h.removeNodes fun _ _ hs hv => hids.mem_iff.2 (h.mem_deadNodes_of_slot hs (hids.mem_iff.1 hv))

theorem Sound.mem_deadNodes (h : g.Sound) : id ∈ g.deadNodes ↔ g.contains id ∧ ¬ g.Live id := by
  rw [Graph.mem_deadNodes, h.marked_live]

/-- Exactly the live nodes remain. -/
theorem Sound.contains_removeDead (h : g.Sound) : g.removeDead.1.contains id ↔ g.Live id := by
  rw [removeDead_eq, contains_removeNodes]
  simp only [Bool.and_eq_true, Bool.not_eq_true', decide_eq_false_iff_not, h.mem_deadNodes, not_and,
    not_not]
  exact ⟨fun hid => hid.2 hid.1, fun hl => ⟨h.contains_of_live hl, fun _ => hl⟩⟩

theorem Live.of_needs {b : Nat} (hl : g.Live id) (hn : g.Needs id b) (h : g.Sound) : g.Live b := by
  rcases hl with rfl | ⟨r, hr, hreach⟩
  · obtain ⟨-, i, hi⟩ := needs_iff.1 hn
    rw [h.entry.2] at hi
    exact absurd hi List.not_mem_nil
  · exact .inr ⟨r, hr, hreach.tail hn⟩

theorem Sound.needs_removeDead (h : g.Sound) {a b : Nat} :
    g.removeDead.1.Needs a b ↔ g.Live a ∧ g.Needs a b := by
  rw [needs_iff, h.contains_removeDead, removeDead_eq, node_removeNodes, needs_iff]
  exact ⟨fun hn => ⟨hn.1, h.contains_of_live hn.1, hn.2⟩, fun hn => ⟨hn.1, hn.2.2⟩⟩

theorem Sound.removeDead (h : g.Sound) : g.removeDead.1.Sound := by
  have hhas : ∀ {v : Value}, g.Live v.node → g.Has v → g.removeDead.1.Has v := fun hl hv =>
    ⟨h.contains_removeDead.2 hl, by rw [removeDead_eq, type?_removeNodes]; exact hv.2⟩
  refine ⟨removeDead_eq g ▸ h.exact.removeDead (.refl _), ?_, ?_, ?_⟩
  · intro k hk o ho
    rw [h.contains_removeDead] at hk
    rw [removeDead_eq, node_removeNodes] at ho
    obtain ⟨v, rfl, hv⟩ := h.operands k (h.contains_of_live hk) o ho
    have hn : g.Needs k v.node := needs_iff.2 ⟨h.contains_of_live hk, v.result, ho⟩
    exact ⟨v, rfl, hhas (hk.of_needs hn h) hv⟩
  · obtain ⟨r, hr, hv⟩ := h.root
    exact ⟨r, by rw [removeDead_eq, root_removeNodes, hr], hhas (.inr ⟨r, hr, .refl⟩) hv⟩
  · exact ⟨h.contains_removeDead.2 (.inl rfl), by rw [removeDead_eq, node_removeNodes, h.entry.2]⟩

theorem Acyclic.removeDead (ha : g.Acyclic) (h : g.Sound) : g.removeDead.1.Acyclic := by
  refine acyclic_of_redirect (fun _ => False) ha (fun _ _ hf => hf.elim) fun _ _ _ hn => ?_
  exact .inr (h.needs_removeDead.1 hn).2

theorem Sound.reaches_removeDead (h : g.Sound) {a b : Nat} (ha : g.Live a) :
    g.removeDead.1.Reaches a b ↔ g.Reaches a b := by
  constructor
  · intro hr
    induction hr with
    | refl => exact .refl
    | tail _ hn ih => exact ih.tail (h.needs_removeDead.1 hn).2
  · intro hr
    have hboth : g.Live b ∧ g.removeDead.1.Reaches a b := by
      induction hr with
      | refl => exact ⟨ha, .refl⟩
      | tail _ hn ih => exact ⟨ih.1.of_needs hn h, ih.2.tail (h.needs_removeDead.2 ⟨ih.1, hn⟩)⟩
    exact hboth.2

theorem Sound.live_removeDead (h : g.Sound) : g.removeDead.1.Live id ↔ g.Live id := by
  rw [Live, Live, removeDead_eq, root_removeNodes, ← removeDead_eq]
  refine or_congr_right (exists_congr fun r => and_congr_right fun hr => ?_)
  exact h.reaches_removeDead (.inr ⟨r, hr, .refl⟩)

/-! ### Named nodes -/

/-- The entry token and what the root leads to through operands, whether the nodes are in the graph
or not. -/
def Named (g : Graph) (id : Nat) : Prop :=
  id = entry.node ∨ ∃ r, g.root = some r ∧
    Relation.ReflTransGen (fun a b => b ∈ g.operandNodes a) r.node id

theorem Named.congr {g' : Graph} (hnode : ∀ id, g'.node id = g.node id) (hroot : g'.root = g.root) :
    g'.Named id ↔ g.Named id := by
  simp only [Named, operandNodes, hnode, hroot]

/-- Among the nodes that were made, those that are named are marked: a path of operands that ends in
one does not leave them, as there are no operands beyond. -/
theorem marked_live_iff (hentry : (g.node entry.node).operands = []) (hlt : id < g.entries.size) :
    Marked g.live id ↔ g.Named id := by
  have hmade : ∀ {a}, Relation.ReflTransGen (fun a b => b ∈ g.operandNodes a) a id →
      a < g.entries.size := by
    intro a hr
    rcases hr.cases_head with rfl | ⟨b, hab, -⟩
    · exact hlt
    · by_contra hle
      rw [operandNodes, node_of_le (Nat.not_lt.1 hle)] at hab
      exact List.not_mem_nil hab
  have hpath : ∀ {a}, Relation.ReflTransGen (Leads g.operandNodes g.entries.size) a id ↔
      Relation.ReflTransGen (fun a b => b ∈ g.operandNodes a) a id := by
    refine ⟨Relation.ReflTransGen.mono (fun _ _ hab => hab.1) _ _, fun hr => ?_⟩
    induction hr using Relation.ReflTransGen.head_induction_on with
    | refl => exact .refl
    | head hab hb ih => exact ih.head ⟨hab, hmade hb⟩
  rw [live, unmarked, marked_spread]
  constructor
  · rintro ⟨s, hs, -, hr⟩
    rcases List.mem_cons.1 hs with rfl | hs
    · rcases (hpath.1 hr).cases_head with rfl | ⟨b, hb, -⟩
      · exact .inl rfl
      · rw [operandNodes, hentry] at hb
        exact absurd hb List.not_mem_nil
    · obtain ⟨r, hroot, rfl⟩ : ∃ r, g.root = some r ∧ r.node = s := by simpa using hs
      exact .inr ⟨r, hroot, hpath.1 hr⟩
  · rintro (rfl | ⟨r, hroot, hr⟩)
    · exact ⟨_, List.mem_cons_self, hlt, .refl⟩
    · exact ⟨r.node, by simp [hroot], hmade hr, hpath.2 hr⟩

theorem size_eq (g : Graph) : g.size = ((List.range g.entries.size).filter g.contains).length := by
  rw [size, ← List.countP_eq_length_filter, ← Array.countP_eq_size_filter, ← Array.countP_toList]
  have hentries : g.entries.toList = (List.range g.entries.size).map fun i =>
      g.entries.getD i default := by
    refine List.ext_getElem (by simp) fun i hi _ => ?_
    rw [Array.length_toList] at hi
    simp [Array.getD_eq_getD_getElem?, hi]
  conv_lhs => rw [hentries, List.countP_map]
  refine List.countP_congr fun i hi => ?_
  simp [contains, Array.getD_eq_getD_getElem?, List.mem_range.1 hi]

/-- The order in which nodes are removed does not matter. -/
theorem Exact.removeNodes_perm (h : g.Exact) {ids ids' : List Nat} (hp : ids.Perm ids') :
    g.removeNodes ids = g.removeNodes ids' := by
  have huses : ∀ of, (g.removeNodes ids).usesOf of = (g.removeNodes ids').usesOf of := by
    intro of
    simp only [h.usesOf_removeNodes, List.mem_map, hp.mem_iff]
  have hentries : (g.removeNodes ids).entries = (g.removeNodes ids').entries := by
    refine Array.ext (by simp) fun i hi hi' => ?_
    have hnode : (g.removeNodes ids).node i = (g.removeNodes ids').node i := by simp
    have hin : (g.removeNodes ids).contains i = (g.removeNodes ids').contains i := by
      simp only [contains_removeNodes, hp.mem_iff]
    have hu := huses (some i)
    simp only [node, contains, usesOf, Array.getD_eq_getD_getElem?, Array.getElem?_eq_getElem hi,
      Array.getElem?_eq_getElem hi', Option.getD_some, Option.any_some] at hnode hin hu
    rcases he : (g.removeNodes ids).entries[i] with ⟨n, p, us⟩
    rcases he' : (g.removeNodes ids').entries[i] with ⟨n', p', us'⟩
    simp_all
  have hempty : (g.removeNodes ids).emptyUses = (g.removeNodes ids').emptyUses := huses none
  have hrest : (g.removeNodes ids).signature = (g.removeNodes ids').signature ∧
      (g.removeNodes ids).frame = (g.removeNodes ids').frame ∧
      (g.removeNodes ids).root = (g.removeNodes ids').root := by simp
  cases hg : g.removeNodes ids
  cases hg' : g.removeNodes ids'
  simp_all

theorem size_removeDead (g : Graph) : g.removeDead.1.size + g.removeDead.2 = g.size := by
  have hkept : g.removeDead.1.size =
      ((List.range g.entries.size).filter fun id => g.contains id && g.removeDead.1.contains
          id).length := by
    rw [size_eq, removeDead_eq, size_removeNodes]
    congr 2
    funext id
    rw [contains_removeNodes, ← Bool.and_assoc, Bool.and_self]
  have hsplit := List.length_eq_length_filter_add (l :=
    (List.range g.entries.size).filter g.contains) fun id => g.removeDead.1.contains id
  simp only [List.filter_filter, ← size_eq, Bool.and_comm _ (g.contains _)] at hsplit
  rw [hsplit, hkept, removeDead_count]

/-- Removing dead nodes keeps those that are named, with their operands, and takes the others out of
the use lists, which keep their order; it is the same whatever order they are removed in. The number
it gives is that of the nodes that are gone, and a second time it is none. -/
theorem Exact.removeDead_keeps_named (h : g.Exact) (hentry : (g.node entry.node).operands = []) :
    (∀ id, g.removeDead.1.contains id ↔ g.contains id ∧ (id = entry.node ∨
      ∃ r, g.root = some r ∧ Relation.ReflTransGen (fun a b => b ∈ g.operandNodes a) r.node id)) ∧
    g.removeDead.2 =
      ((List.range g.entries.size).filter fun id =>
      g.contains id && !g.removeDead.1.contains id).length ∧
    g.removeDead.1.size + g.removeDead.2 = g.size ∧
    (∀ id, g.removeDead.1.contains id → g.removeDead.1.node id = g.node id) ∧
    g.removeDead.1.root = g.root ∧ g.removeDead.1.frame = g.frame ∧
    (∀ id, g.removeDead.1.contains id → g.removeDead.1.usesOf (some id) =
      (g.usesOf (some id)).filter fun u => g.removeDead.1.contains u.user) ∧
    (∀ ids : List Nat, ids.Perm g.deadNodes → ids.foldl removeCounted (g, 0) = g.removeDead) ∧
    g.removeDead.1.removeDead = (g.removeDead.1, 0) := by
  have hcontains : ∀ id, g.removeDead.1.contains id ↔ g.contains id ∧ g.Named id := by
    intro id
    rw [removeDead_eq, contains_removeNodes]
    simp only [Bool.and_eq_true, Bool.not_eq_true', decide_eq_false_iff_not, mem_deadNodes,
      not_and, not_not]
    exact and_congr_right fun hc => ⟨fun hm => (marked_live_iff hentry (contains_lt hc)).1 (hm hc),
      fun hn _ => (marked_live_iff hentry (contains_lt hc)).2 hn⟩
  have hnone : g.removeDead.1.deadNodes = [] := by
    refine List.eq_nil_iff_forall_not_mem.2 fun id hid => ?_
    obtain ⟨hc, hm⟩ := mem_deadNodes.1 hid
    refine hm ((marked_live_iff ?_ (contains_lt hc)).2 ?_)
    · rw [removeDead_eq, node_removeNodes, hentry]
    · rw [Named.congr (g := g) (fun _ => by rw [removeDead_eq, node_removeNodes])
        (by rw [removeDead_eq, root_removeNodes])]
      exact ((hcontains id).1 hc).2
  refine ⟨hcontains, removeDead_count g, size_removeDead g, fun id _ => ?_, ?_, ?_,
    fun id hid => ?_, fun ids hids => ?_, ?_⟩
  · rw [removeDead_eq, node_removeNodes]
  · rw [removeDead_eq, root_removeNodes]
  · rw [removeDead_eq, frame_removeNodes]
  · rw [removeDead_eq, contains_removeNodes, Bool.and_eq_true, Bool.not_eq_true',
      decide_eq_false_iff_not] at hid
    rw [removeDead_eq, h.usesOf_removeNodes, if_neg (by simpa using hid.2)]
    refine List.filter_congr fun u hu => ?_
    obtain ⟨o, hs, -⟩ := (h.mem_usesOf _ u).1 hu
    rw [contains_removeNodes, hs.1, Bool.true_and]
    simp
  · rw [foldl_removeCounted, h.removeNodes_perm hids, hids.length_eq, Graph.removeDead,
      foldl_removeCounted]
  · rw [Graph.removeDead.eq_1 g.removeDead.1, hnone, List.foldl_nil]

/-- A sum, and two that take one another; all of them take a constant. -/
def sumBesideCycle : Graph :=
  let g := ((Graph.empty {}).leaf .constant .i32 (.integer 1)).1
  let g := (g.leaf .constant .i32 (.integer 2)).1
  let g := (g.single .add .i32 [some ⟨2, 0⟩, some ⟨1, 0⟩]).1
  let g := (g.single .add .i32 [some ⟨3, 0⟩, some ⟨1, 0⟩]).1
  let g := (g.single .add .i32 [some ⟨1, 0⟩, some ⟨1, 0⟩]).1
  g.replaceValue (some ⟨2, 0⟩) (some ⟨4, 0⟩)

theorem removeDead_keeps_named_cycle :
    let g := { sumBesideCycle with root := some ⟨5, 0⟩ }
    g.Exact ∧ g.operandNodes 3 = [4, 1] ∧ g.operandNodes 4 = [3, 1] ∧
      g.usesOf (some 1) = [⟨3, 1⟩, ⟨4, 1⟩, ⟨5, 0⟩, ⟨5, 1⟩] ∧
      g.removeDead.1.usesOf (some 1) = [⟨5, 0⟩, ⟨5, 1⟩] ∧ g.removeDead.2 = 3 ∧
      g.removeDead.1.removeDead.2 = 0 := by
  intro g
  have hsums : sumBesideCycle.Exact := by
    refine ((((((Exact.empty {}).newNode ?_).newNode ?_).newNode ?_).newNode ?_).newNode
      ?_).replaceValue ?_ ?_ <;> decide
  have h : g.Exact := hsums.congr rfl rfl
  obtain ⟨-, hcount, -, -, -, -, huses, -, hagain⟩ := h.removeDead_keeps_named (by decide)
  exact ⟨h, by decide, by decide, by decide, (huses 1 (by decide)).trans (by decide),
    hcount.trans (by decide), congrArg Prod.snd hagain⟩

end GraphLowering.Graph
