import GraphLowering.Proofs.Graph.Spine

/-!
# Threads

A thread leads from a chain to an earlier one, along the chain operands of the nodes in between
(`Thread`). Where the chain operands on it do not change, it stays when the graph changes
(`Thread.congr`). A new node can be put into a thread, and a node on it can be replaced by a thread.
-/

namespace GraphLowering.Graph

open Relation

variable {g g' : Graph} {id m : Nat} {u v w : Value} {l l' : List Nat}

/-- The nodes of `l`, each of which takes the chain of the next, lead from one chain to another. -/
inductive Thread (g : Graph) : Value → List Nat → Value → Prop where
  | refl {v : Value} : Thread g v [] v
  | step {u v w : Value} {l : List Nat} (ht : g.type? v = some .chain)
      (hu : g.chain v.node = .follows u) (h : Thread g u l w) : Thread g v (v.node :: l) w

namespace Thread

theorem single (ht : g.type? v = some .chain) (hu : g.chain v.node = .follows u) :
    Thread g v [v.node] u :=
  .step ht hu .refl

theorem trans (h : Thread g u l v) (h' : Thread g v l' w) : Thread g u (l ++ l') w := by
  induction h with
  | refl => exact h'
  | step ht hu _ ih => exact .step ht hu (ih h')

theorem parts (h : Thread g v l w) (hm : m ∈ l) : ∃ l₁ l₂ i u, l = l₁ ++ m :: l₂ ∧
    Thread g v l₁ ⟨m, i⟩ ∧ g.type? ⟨m, i⟩ = some .chain ∧ g.chain m = .follows u ∧
    Thread g u l₂ w := by
  induction h with
  | refl => cases hm
  | @step u v w l ht hu h ih =>
    rcases List.mem_cons.1 hm with rfl | hm
    · exact ⟨[], l, v.result, u, rfl, .refl, ht, hu, h⟩
    · obtain ⟨l₁, l₂, i, u', rfl, h₁, hi, hu', h₂⟩ := ih hm
      exact ⟨v.node :: l₁, l₂, i, u', rfl, .step ht hu h₁, hi, hu', h₂⟩

theorem follows (h : Thread g v l w) (hm : m ∈ l) : ReflTransGen g.Follows v.node m := by
  induction h with
  | refl => cases hm
  | @step u v w l _ hu _ ih =>
    rcases List.mem_cons.1 hm with rfl | hm
    · exact .refl
    · exact (ih hm).head ⟨u.result, hu⟩

theorem follows_end (h : Thread g v l w) : ReflTransGen g.Follows v.node w.node := by
  induction h with
  | refl => exact .refl
  | @step u v w l _ hu _ ih => exact ih.head ⟨u.result, hu⟩

/-- A node on a thread comes before its end. -/
theorem follows_of_mem (h : Thread g v l w) (hm : m ∈ l) : TransGen g.Follows m w.node := by
  obtain ⟨l₁, l₂, i, u, -, -, -, hu, h₂⟩ := h.parts hm
  exact TransGen.head' ⟨u.result, hu⟩ h₂.follows_end

theorem type_start (h : Thread g v l w) (hw : g.type? w = some .chain) :
    g.type? v = some .chain := by
  cases h with
  | refl => exact hw
  | step ht => exact ht

theorem congr (h : Thread g v l w)
    (hl : ∀ m ∈ l, ∀ u, g.chain m = .follows u → g'.chain m = .follows u)
    (ht : ∀ m ∈ l, ∀ i, g.type? ⟨m, i⟩ = some .chain → g'.type? ⟨m, i⟩ = some .chain) :
    Thread g' v l w := by
  induction h with
  | refl => exact .refl
  | @step u v w l hv hu _ ih =>
    exact .step (ht v.node (by simp) v.result hv) (hl v.node (by simp) u hu)
      (ih (fun m hm => hl m (by simp [hm])) fun m hm => ht m (by simp [hm]))

theorem lt (h : Thread g v l w) (hs : g.Sound) (hv : g.contains v.node) (hm : m ∈ l) :
    m < g.entries.size :=
  contains_lt (hs.contains_of_follows hv (h.follows hm))

theorem grow (h : Thread g v l w) (hs : g.Sound) (hv : g.contains v.node) (hx : g.Extends g') :
    Thread g' v l w := by
  refine h.congr (fun m hm u hu => ?_) fun m hm i hi => ?_
  · have hlt := h.lt hs hv hm
    have hc := hs.contains_of_follows hv (h.follows hm)
    obtain ⟨ho, htu⟩ := chain_eq_follows.1 hu
    refine chain_eq_follows.2 ⟨hx.node m hlt ▸ ho, ?_⟩
    rw [hx.type? (hs.has_operand hc (List.mem_of_getElem? ho)).lt, htu]
  · rw [hx.type? (v := ⟨m, i⟩) (h.lt hs hv hm), hi]

theorem nodup (h : Thread g v l w) (hs : g.Sound) (ha : g.Acyclic) (hv : g.contains v.node) :
    l.Nodup := by
  induction h with
  | refl => exact List.nodup_nil
  | @step u v w l _ hu h ih =>
    have hn : g.Needs v.node u.node := Follows.needs ⟨u.result, hu⟩ hv
    have hc := hs.contains_of_needs hn
    refine List.nodup_cons.2 ⟨fun hm => ?_, ih hc⟩
    exact ha.not_reaches hn (hs.reaches_of_follows hc (h.follows hm))

theorem notMem_end (h : Thread g v l w) (hs : g.Sound) (ha : g.Acyclic) (hv : g.contains v.node) :
    w.node ∉ l := by
  intro hm
  have hc := hs.contains_of_follows hv (h.follows hm)
  obtain ⟨b, ⟨i, hb⟩, hr⟩ := TransGen.head'_iff.1 (h.follows_of_mem hm)
  have hn : g.Needs w.node b := Follows.needs ⟨i, hb⟩ hc
  exact ha.not_reaches hn (hs.reaches_of_follows (hs.contains_of_needs hn) hr)

theorem follows_iff (h : Thread g v l w) (hw : g.chain w.node = .ends) :
    ReflTransGen g.Follows v.node id ↔ id ∈ l ∨ id = w.node := by
  induction h with
  | @refl v =>
    constructor
    · intro hf
      rcases hf.cases_head with he | ⟨b, ⟨i, hi⟩, -⟩
      · exact .inr he.symm
      · rw [hw] at hi
        cases hi
    · rintro (hm | rfl)
      · cases hm
      · exact .refl
  | @step u v w l ht hu h ih =>
    have ih := ih hw
    constructor
    · intro hf
      rcases hf.cases_head with rfl | ⟨b, ⟨i, hi⟩, hf⟩
      · simp
      · rw [hu] at hi
        cases hi
        rcases ih.1 hf with hm | he
        · exact .inl (by simp [hm])
        · exact .inr he
    · rintro (hm | rfl)
      · rcases List.mem_cons.1 hm with rfl | hm
        · exact .refl
        · exact (ih.2 (.inl hm)).head ⟨u.result, hu⟩
      · exact (ih.2 (.inr rfl)).head ⟨u.result, hu⟩

/-- A thread from the root to a chain without predecessors has all nodes of the spine. -/
theorem onSpine_iff (h : Thread g v l w) (hr : g.root = some v) (hw : g.chain w.node = .ends) :
    g.OnSpine id ↔ id ∈ l ∨ id = w.node := by
  rw [OnSpine, hr]
  simpa using h.follows_iff hw

theorem rewired {σ : Nat → Option Value} (h : Thread g v l w) (hs : g.Sound)
    (hv : g.contains v.node) (hr : g.Rewired g' id σ) (hid : id ∉ l) (hw : w.node ≠ id) :
    Thread g' v l w := by
  refine h.congr (fun m hm u hu => ?_) fun m _ i hi => (hr.type? _).trans hi
  have hc := hs.contains_of_follows hv (h.follows hm)
  obtain ⟨ho, htu⟩ := chain_eq_follows.1 hu
  refine chain_eq_follows.2 ⟨?_, (hr.type? u).trans htu⟩
  have hne : u.node ≠ id := by
    obtain ⟨l₁, l₂, i, u', rfl, -, -, hu', h₂⟩ := h.parts hm
    rw [hu] at hu'
    cases hu'
    cases h₂ with
    | refl => exact hw
    | step => exact fun he => hid (by simp [he])
  rw [hr.node m hc]
  simp [ho, rewireBy, hne]

theorem updated {t : Use} {x : Value} (h : Thread g v l w) (hu : g.Updated g' t x)
    (ht : t.user ∉ l) : Thread g' v l w := by
  refine h.congr (fun m hm u hu' => ?_) fun m _ i hi => (hu.type? _).trans hi
  obtain ⟨ho, htu⟩ := chain_eq_follows.1 hu'
  refine chain_eq_follows.2 ⟨?_, (hu.type? u).trans htu⟩
  rw [hu.node, if_neg]
  · exact ho
  · rintro rfl
    exact ht hm

end Thread

end GraphLowering.Graph
