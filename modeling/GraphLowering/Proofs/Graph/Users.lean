import GraphLowering.Proofs.Graph.Order

/-!
# Users of a value

If use lists are exact, the users of a value are the nodes that have it as an operand. They are
listed in ascending order, so graphs in which the same nodes use a value list the same users.
-/

namespace GraphLowering.Graph

variable {g g' : Graph} {l : List Nat} {v : Value} {a x : Nat}

/-! ### Worklists -/

theorem mem_enqueue {w ids : List Nat} : x ∈ enqueue w ids ↔ x ∈ w ∨ x ∈ ids := by
  unfold enqueue
  induction ids generalizing w with
  | nil => simp
  | cons y ids ih =>
    rw [List.foldl_cons, ih, List.mem_cons]
    split
    · rename_i hy
      constructor
      · rintro (h | h)
        · exact .inl h
        · exact .inr (.inr h)
      · rintro (h | rfl | h)
        · exact .inl h
        · exact .inl hy
        · exact .inr h
    · rw [mem_insertAscending]
      tauto

theorem Ascending.enqueue {w : List Nat} (h : Ascending w) (ids : List Nat) :
    Ascending (enqueue w ids) := by
  unfold Graph.enqueue
  induction ids generalizing w with
  | nil => exact h
  | cons y ids ih =>
    rw [List.foldl_cons]
    split
    · exact ih h
    · rename_i hy
      exact ih (h.insert hy)

theorem mem_ascending : x ∈ ascending l ↔ x ∈ l := by
  simp [ascending, mem_enqueue]

theorem ascending_ascending (l : List Nat) : Ascending (ascending l) :=
  Ascending.enqueue List.Pairwise.nil l

/-! ### Users -/

theorem Exact.mem_users (h : g.Exact) {id : Nat} :
    a ∈ g.users (some id) ↔ g.contains a ∧ ∃ i, some ⟨id, i⟩ ∈ (g.node a).operands := by
  rw [users, mem_ascending, List.mem_map]
  constructor
  · rintro ⟨u, hu, rfl⟩
    obtain ⟨o, hs, ho⟩ := (h.mem_usesOf _ u).1 hu
    obtain ⟨v, rfl, rfl⟩ := Option.map_eq_some_iff.1 ho
    exact ⟨hs.1, v.result, List.mem_of_getElem? hs.2⟩
  · rintro ⟨hc, i, hv⟩
    obtain ⟨k, hk⟩ := List.mem_iff_getElem?.1 hv
    exact ⟨⟨a, k⟩, (h.mem_usesOf _ _).2 ⟨_, ⟨hc, hk⟩, rfl⟩, rfl⟩

variable {o : Option Value}

theorem Exact.mem_valueUses (h : g.Exact) {u : Use} : u ∈ g.valueUses o ↔ g.Slot u o := by
  rw [valueUses, List.mem_filter, h.mem_usesOf, decide_eq_true_eq]
  constructor
  · rintro ⟨⟨o', hs, ho⟩, hres⟩
    rw [hs.operand] at hres
    obtain rfl : o' = o := by
      rcases o with _ | ⟨n, i⟩ <;> rcases o' with _ | ⟨n', i'⟩ <;> simp_all [resultNo]
    exact hs
  · intro hs
    exact ⟨⟨_, hs, rfl⟩, by rw [hs.operand]⟩

theorem Exact.mem_valueUsers (h : g.Exact) :
    a ∈ g.valueUsers o ↔ g.contains a ∧ o ∈ (g.node a).operands := by
  rw [valueUsers, mem_ascending, List.mem_map]
  constructor
  · rintro ⟨u, hu, rfl⟩
    have hs := h.mem_valueUses.1 hu
    exact ⟨hs.1, List.mem_of_getElem? hs.2⟩
  · rintro ⟨hc, hv⟩
    obtain ⟨i, hi⟩ := List.mem_iff_getElem?.1 hv
    exact ⟨⟨a, i⟩, h.mem_valueUses.2 ⟨hc, hi⟩, rfl⟩

theorem Exact.hasUses_iff (h : g.Exact) {id : Nat} : g.hasUses (some id) ↔
    (∃ u i, g.Slot u (some ⟨id, i⟩)) ∨ ∃ v, g.root = some v ∧ v.node = id := by
  rw [hasUses, Bool.or_eq_true, decide_eq_true_eq, Option.map_eq_some_iff]
  refine or_congr ?_ Iff.rfl
  rw [Bool.not_eq_true', List.isEmpty_eq_false_iff_exists_mem]
  refine exists_congr fun u => (h.mem_usesOf _ u).trans ⟨?_, ?_⟩
  · rintro ⟨o, hs, ho⟩
    obtain ⟨v, rfl, rfl⟩ := Option.map_eq_some_iff.1 ho
    exact ⟨v.result, hs⟩
  · rintro ⟨i, hs⟩
    exact ⟨_, hs, rfl⟩

theorem Exact.valueHasUses_iff (h : g.Exact) :
    g.valueHasUses (some v) ↔ (∃ u, g.Slot u (some v)) ∨ g.root = some v := by
  rw [valueHasUses, Bool.or_eq_true, decide_eq_true_eq, Bool.not_eq_true',
    List.isEmpty_eq_false_iff_exists_mem, or_comm]
  exact or_congr (exists_congr fun u => h.mem_valueUses) Iff.rfl

theorem valueUsers_congr (h : g.Exact) (h' : g'.Exact)
    (hm : ∀ a, (g.contains a ∧ o ∈ (g.node a).operands) ↔
      (g'.contains a ∧ o ∈ (g'.node a).operands)) :
    g.valueUsers o = g'.valueUsers o :=
  (ascending_ascending _).eq (ascending_ascending _) fun a => by
    show a ∈ g.valueUsers o ↔ a ∈ g'.valueUsers o
    rw [h.mem_valueUsers, h'.mem_valueUsers, hm]

theorem Sound.valueUsers_none (h : g.Sound) : g.valueUsers none = [] := by
  simp [valueUsers, valueUses, usesOf, h.emptyUses, ascending, enqueue]

theorem Sound.hasUses_iff (h : g.Sound) {id : Nat} :
    g.hasUses (some id) ↔ (∃ a, g.Needs a id) ∨ ∃ v, g.root = some v ∧ v.node = id := by
  rw [h.exact.hasUses_iff]
  refine or_congr ⟨?_, ?_⟩ Iff.rfl
  · rintro ⟨u, i, hs⟩
    exact ⟨u.user, needs_iff.2 ⟨hs.1, i, List.mem_of_getElem? hs.2⟩⟩
  · rintro ⟨a, ha⟩
    obtain ⟨hc, i, hi⟩ := needs_iff.1 ha
    obtain ⟨k, hk⟩ := List.mem_iff_getElem?.1 hi
    exact ⟨⟨a, k⟩, i, hc, hk⟩

theorem Sound.contains_of_hasUses (h : g.Sound) {id : Nat} (hu : g.hasUses (some id)) :
    g.contains id := by
  rcases h.hasUses_iff.1 hu with ⟨a, ha⟩ | ⟨v, hv, rfl⟩
  · exact h.contains_of_needs ha
  · exact (h.has_root hv).1

/-- Nodes that were added without taking a value do not use it. -/
theorem Extends.valueUsers (hx : g.Extends g') (h : g.Exact) (h' : g'.Exact)
    (hnew : ∀ a, g.entries.size ≤ a → o ∉ (g'.node a).operands) :
    g'.valueUsers o = g.valueUsers o := by
  refine valueUsers_congr h' h fun a => ?_
  by_cases ha : a < g.entries.size
  · rw [hx.node a ha, hx.contains a ha]
  · have hle := Nat.le_of_not_lt ha
    constructor
    · rintro ⟨-, hv⟩
      exact absurd hv (hnew a hle)
    · rintro ⟨hc, -⟩
      exact absurd (contains_lt hc) ha

end GraphLowering.Graph
