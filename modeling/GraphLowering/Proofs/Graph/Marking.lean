import GraphLowering.Proofs.Graph.Dependence

/-!
# Marking what can be reached

`spread` marks exactly what the nodes it starts from lead to (`marked_spread`). So `dependents`
marks the nodes that are computed from a node, and `live` the entry token and what the root is
computed from.
-/

namespace GraphLowering.Graph

open Relation

/-! ### Marks -/

/-- Whether an id is marked. -/
def Marked (marks : Array Bool) (id : Nat) : Prop := marks.getD id false = true

theorem Marked.lt {marks : Array Bool} {id : Nat} (h : Marked marks id) : id < marks.size := by
  by_contra hlt
  simp [Marked, Array.getD_eq_getD_getElem?, Array.getElem?_eq_none (Nat.not_lt.1 hlt)] at h

section Visit

variable {stack : List Nat} {marks : Array Bool} {id : Nat}

/-- How many ids are not marked. -/
def unmarkedCount (marks : Array Bool) : Nat := marks.count false

theorem visit_of_marked (h : Marked marks id ∨ marks.size ≤ id) :
    visit (stack, marks) id = (stack, marks) := by
  have hget : marks.getD id true = true := by
    rcases h with h | h
    · have hlt := h.lt
      simpa [Marked, Array.getD_eq_getD_getElem?, hlt] using h
    · simp [Array.getD_eq_getD_getElem?, Array.getElem?_eq_none h]
  simp [visit, hget]

theorem visit_of_unmarked (h : ¬ Marked marks id) (hlt : id < marks.size) :
    visit (stack, marks) id = (id :: stack, marks.setIfInBounds id true) := by
  have hget : marks.getD id true = false := by
    simpa [Marked, Array.getD_eq_getD_getElem?, hlt] using h
  simp [visit, hget]

theorem marked_setIfInBounds (hlt : id < marks.size) (j : Nat) :
    Marked (marks.setIfInBounds id true) j ↔ j = id ∨ Marked marks j := by
  by_cases hj : j = id
  · subst hj
    simp [Marked, Array.getD_eq_getD_getElem?, hlt]
  · have hne : id ≠ j := fun e => hj e.symm
    simp [Marked, Array.getD_eq_getD_getElem?, hj, Array.getElem?_setIfInBounds_ne hne]

theorem unmarkedCount_setIfInBounds (h : ¬ Marked marks id) (hlt : id < marks.size) :
    unmarkedCount (marks.setIfInBounds id true) + 1 = unmarkedCount marks := by
  have hfalse : marks[id] = false := by
    simpa [Marked, Array.getD_eq_getD_getElem?, hlt] using h
  have hpos : 0 < marks.count false := Array.count_pos_iff.2 (hfalse ▸ Array.getElem_mem hlt)
  have hset : marks.setIfInBounds id true = marks.set id true hlt := by
    simp [Array.setIfInBounds, hlt]
  rw [unmarkedCount, unmarkedCount, hset, Array.count_set hlt, hfalse]
  simp only [beq_self_eq_true, if_true, Bool.true_beq, Bool.false_eq_true, if_false]
  omega

/-- Visiting a list marks its ids and puts those that were not marked on the stack. -/
theorem foldl_visit (ids : List Nat) (stack : List Nat) (marks : Array Bool) :
    let s := ids.foldl visit (stack, marks)
    s.2.size = marks.size ∧
      (∀ j, Marked s.2 j ↔ Marked marks j ∨ (j ∈ ids ∧ j < marks.size)) ∧
      (∀ j, j ∈ s.1 ↔ j ∈ stack ∨ (j ∈ ids ∧ j < marks.size ∧ ¬ Marked marks j)) ∧
      s.1.length + unmarkedCount s.2 = stack.length + unmarkedCount marks := by
  induction ids generalizing stack marks with
  | nil => simp
  | cons i ids ih =>
    rw [List.foldl_cons]
    by_cases hskip : Marked marks i ∨ marks.size ≤ i
    · rw [visit_of_marked hskip]
      obtain ⟨hsize, hmark, hstack, hcount⟩ := ih stack marks
      refine ⟨hsize, fun j => (hmark j).trans ?_, fun j => (hstack j).trans ?_, hcount⟩
      · rw [List.mem_cons]
        constructor
        · rintro (h | ⟨h, hlt⟩)
          · exact .inl h
          · exact .inr ⟨.inr h, hlt⟩
        · rintro (h | ⟨rfl | h, hlt⟩)
          · exact .inl h
          · exact .inl (hskip.resolve_right (by omega))
          · exact .inr ⟨h, hlt⟩
      · rw [List.mem_cons]
        constructor
        · rintro (h | ⟨h, hlt, hm⟩)
          · exact .inl h
          · exact .inr ⟨.inr h, hlt, hm⟩
        · rintro (h | ⟨rfl | h, hlt, hm⟩)
          · exact .inl h
          · exact absurd (hskip.resolve_right (by omega)) hm
          · exact .inr ⟨h, hlt, hm⟩
    · obtain ⟨hm, hlt⟩ := not_or.1 hskip
      have hlt := Nat.not_le.1 hlt
      rw [visit_of_unmarked hm hlt]
      obtain ⟨hsize, hmark, hstack, hcount⟩ := ih (i :: stack) (marks.setIfInBounds i true)
      rw [Array.size_setIfInBounds] at hsize hmark hstack
      refine ⟨hsize, fun j => (hmark j).trans ?_, fun j => (hstack j).trans ?_, ?_⟩
      · rw [marked_setIfInBounds hlt, List.mem_cons]
        constructor
        · rintro ((rfl | h) | ⟨h, hj⟩)
          · exact .inr ⟨.inl rfl, hlt⟩
          · exact .inl h
          · exact .inr ⟨.inr h, hj⟩
        · rintro (h | ⟨rfl | h, hj⟩)
          · exact .inl (.inr h)
          · exact .inl (.inl rfl)
          · exact .inr ⟨h, hj⟩
      · rw [marked_setIfInBounds hlt, List.mem_cons, List.mem_cons]
        constructor
        · rintro ((rfl | h) | ⟨h, hj, hnm⟩)
          · exact .inr ⟨.inl rfl, hlt, hm⟩
          · exact .inl h
          · exact .inr ⟨.inr h, hj, fun hmj => hnm (.inr hmj)⟩
        · rintro (h | ⟨rfl | h, hj, hnm⟩)
          · exact .inl (.inr h)
          · exact .inl (.inl rfl)
          · by_cases hji : j = i
            · exact .inl (.inl hji)
            · exact .inr ⟨h, hj, fun hmj => hmj.elim hji hnm⟩
      · have hdown := unmarkedCount_setIfInBounds hm hlt
        simp only [List.length_cons] at hcount
        omega

end Visit

section Spread

variable {next : Nat → List Nat}

/-- One step of marking, within the ids below `n`. -/
def Leads (next : Nat → List Nat) (n a b : Nat) : Prop := b ∈ next a ∧ b < n

/-- What holds while marks are spread: what is on the stack is marked, and what a marked id leads to
is marked too unless the id is still on the stack. The fuel covers what is still to be visited. -/
structure Spreading (next : Nat → List Nat) (n : Nat) (start : Nat → Prop) (fuel : Nat)
    (stack : List Nat) (marks : Array Bool) : Prop where
  size : marks.size = n
  stacked : ∀ i ∈ stack, Marked marks i
  closed : ∀ i, Marked marks i → i ∈ stack ∨ ∀ j, Leads next n i j → Marked marks j
  starts : ∀ i, start i → i < n → Marked marks i
  reached : ∀ i, Marked marks i → ∃ s, start s ∧ s < n ∧ ReflTransGen (Leads next n) s i
  fuel : stack.length + unmarkedCount marks ≤ fuel

/-- With nothing on the stack the marks are closed. -/
theorem Spreading.marked_iff {n fuel : Nat} {start : Nat → Prop} {marks : Array Bool}
    (h : Spreading next n start fuel [] marks) (i : Nat) :
    Marked marks i ↔ ∃ s, start s ∧ s < n ∧ ReflTransGen (Leads next n) s i := by
  refine ⟨h.reached i, ?_⟩
  rintro ⟨s, hs, hlt, hr⟩
  induction hr with
  | refl => exact h.starts s hs hlt
  | tail _ hab ih => exact (h.closed _ ih).resolve_left List.not_mem_nil _ hab

theorem Spreading.marked_spread {n fuel : Nat} {start : Nat → Prop} {stack : List Nat}
    {marks : Array Bool} (h : Spreading next n start fuel stack marks) (i : Nat) :
    Marked (spread next fuel stack marks) i ↔
      ∃ s, start s ∧ s < n ∧ ReflTransGen (Leads next n) s i := by
  induction fuel generalizing stack marks with
  | zero =>
    obtain rfl : stack = [] := List.eq_nil_of_length_eq_zero (by have := h.fuel; omega)
    exact h.marked_iff i
  | succ fuel ih =>
    cases stack with
    | nil => exact h.marked_iff i
    | cons id rest =>
      obtain ⟨hsize, hmark, hstack, hcount⟩ := foldl_visit (next id) rest marks
      rw [h.size] at hsize hmark hstack
      refine ih ⟨hsize, ?_, ?_, ?_, ?_, ?_⟩
      · intro j hj
        rcases (hstack j).1 hj with hj | ⟨hj, hlt, -⟩
        · exact (hmark j).2 (.inl (h.stacked j (List.mem_cons_of_mem _ hj)))
        · exact (hmark j).2 (.inr ⟨hj, hlt⟩)
      · intro j hj
        by_cases hid : j = id
        · subst hid
          exact .inr fun k hk => (hmark k).2 (.inr hk)
        by_cases hmj : Marked marks j
        · rcases h.closed j hmj with hin | hall
          · exact .inl ((hstack j).2 (.inl ((List.mem_cons.1 hin).resolve_left hid)))
          · exact .inr fun k hk => (hmark k).2 (.inl (hall k hk))
        · have hnew := ((hmark j).1 hj).resolve_left hmj
          exact .inl ((hstack j).2 (.inr ⟨hnew.1, hnew.2, hmj⟩))
      · intro j hj hlt
        exact (hmark j).2 (.inl (h.starts j hj hlt))
      · intro j hj
        rcases (hmark j).1 hj with hj | hj
        · exact h.reached j hj
        · obtain ⟨s, hs, hlt, hr⟩ := h.reached id (h.stacked id List.mem_cons_self)
          exact ⟨s, hs, hlt, hr.tail hj⟩
      · have := h.fuel
        simp only [List.length_cons] at this
        omega

/-- Spreading from some ids over an array without marks marks what they lead to. -/
theorem marked_spread (ids : List Nat) (n i : Nat) :
    Marked (spread next n (ids.foldl visit ([], Array.replicate n false)).1
        (ids.foldl visit ([], Array.replicate n false)).2) i ↔
      ∃ s ∈ ids, s < n ∧ ReflTransGen (Leads next n) s i := by
  obtain ⟨hsize, hmark, hstack, hcount⟩ := foldl_visit ids [] (Array.replicate n false)
  have hnone : ∀ j, ¬ Marked (Array.replicate n false) j := by
    intro j hj
    have hlt := hj.lt
    rw [Array.size_replicate] at hlt
    simp [Marked, Array.getD_eq_getD_getElem?, hlt] at hj
  have hall : unmarkedCount (Array.replicate n false) = n := by simp [unmarkedCount]
  rw [Array.size_replicate] at hsize hmark hstack
  refine Spreading.marked_spread (show Spreading next n (· ∈ ids) n _ _ from
    ⟨hsize, ?_, ?_, ?_, ?_, ?_⟩) i
  · intro j hj
    have hj := ((hstack j).1 hj).resolve_left List.not_mem_nil
    exact (hmark j).2 (.inr ⟨hj.1, hj.2.1⟩)
  · intro j hj
    have hj := ((hmark j).1 hj).resolve_left (hnone j)
    exact .inl ((hstack j).2 (.inr ⟨hj.1, hj.2, hnone j⟩))
  · exact fun j hj hlt => (hmark j).2 (.inr ⟨hj, hlt⟩)
  · intro j hj
    have hj := ((hmark j).1 hj).resolve_left (hnone j)
    exact ⟨j, hj.1, hj.2, .refl⟩
  · rw [hcount, hall]
    simp

end Spread

/-! ### Dependents and live nodes -/

variable {g : Graph} {id of : Nat}

theorem Sound.marked_dependents (h : g.Sound) :
    Marked (g.dependents (some of)) id ↔ TransGen g.Needs id of := by
  rw [dependents, unmarked, marked_spread]
  have hleads : ∀ a b, Leads (fun id => (g.usesOf (some id)).map (·.user)) g.entries.size a b ↔
      g.Needs b a := by
    intro a b
    rw [h.needs_iff_uses]
    refine ⟨fun hab => hab.1, fun hab => ⟨hab, contains_lt (h.needs_iff_uses.2 hab).1⟩⟩
  constructor
  · rintro ⟨s, hs, -, hr⟩
    have hlast := h.needs_iff_uses.2 hs
    induction hr with
    | refl => exact .single hlast
    | tail _ hab ih => exact .head ((hleads _ _).1 hab) ih
  · intro hr
    induction hr using TransGen.head_induction_on with
    | single hab => exact ⟨_, h.needs_iff_uses.1 hab, contains_lt hab.1, .refl⟩
    | head hab _ ih =>
      obtain ⟨s, hs, hlt, hr⟩ := ih
      exact ⟨s, hs, hlt, hr.tail ((hleads _ _).2 hab)⟩

theorem marked_live_of_mem {a b : Nat} (ha : Marked g.live a) (hb : b ∈ g.operandNodes a)
    (hlt : b < g.entries.size) : Marked g.live b := by
  rw [live, unmarked, marked_spread] at ha ⊢
  obtain ⟨s, hs, hs', hr⟩ := ha
  exact ⟨s, hs, hs', hr.tail ⟨hb, hlt⟩⟩

/-- The entry token and what the root is computed from. -/
def Live (g : Graph) (id : Nat) : Prop :=
  id = entry.node ∨ ∃ r, g.root = some r ∧ g.Reaches r.node id

theorem Sound.contains_of_live (h : g.Sound) (hl : g.Live id) : g.contains id := by
  rcases hl with rfl | ⟨r, hr, hreach⟩
  · exact h.entry.1
  · obtain ⟨r', hr', hhas⟩ := h.root
    rw [hr] at hr'
    cases hr'
    exact h.contains_of_reaches hhas.1 hreach

theorem Sound.marked_live (h : g.Sound) : Marked g.live id ↔ g.Live id := by
  obtain ⟨r, hroot, hhas⟩ := h.root
  have hleads : ∀ {a b}, g.contains a →
      (Leads g.operandNodes g.entries.size a b ↔ g.Needs a b) := by
    intro a b ha
    refine ⟨fun hab => ⟨ha, hab.1⟩, fun hab => ⟨hab.2, contains_lt (h.contains_of_needs hab)⟩⟩
  have hpath : ∀ {a b}, g.contains a →
      (ReflTransGen (Leads g.operandNodes g.entries.size) a b ↔ g.Reaches a b) := by
    intro a b ha
    constructor
    · intro hr
      induction hr with
      | refl => exact .refl
      | tail _ hab ih => exact ih.tail ((hleads (h.contains_of_reaches ha ih)).1 hab)
    · intro hr
      induction hr with
      | refl => exact .refl
      | tail hac hab ih => exact ih.tail ((hleads (h.contains_of_reaches ha hac)).2 hab)
  have hentry : ∀ {b}, g.Reaches Graph.entry.node b → b = Graph.entry.node := by
    intro b hr
    rcases ReflTransGen.cases_head hr with rfl | ⟨c, hc, -⟩
    · rfl
    · obtain ⟨-, i, hi⟩ := needs_iff.1 hc
      rw [h.entry.2] at hi
      exact absurd hi List.not_mem_nil
  rw [live, unmarked, marked_spread, hroot]
  simp only [Option.map_some, Option.toList_some, List.mem_cons, List.not_mem_nil, or_false]
  constructor
  · rintro ⟨s, rfl | rfl, -, hr⟩
    · exact .inl (hentry ((hpath h.entry.1).1 hr))
    · exact .inr ⟨r, hroot, (hpath hhas.1).1 hr⟩
  · rintro (rfl | ⟨r', hr', hreach⟩)
    · exact ⟨_, .inl rfl, contains_lt h.entry.1, .refl⟩
    · rw [hroot] at hr'
      cases hr'
      exact ⟨_, .inr rfl, hhas.lt, (hpath hhas.1).2 hreach⟩

end GraphLowering.Graph
