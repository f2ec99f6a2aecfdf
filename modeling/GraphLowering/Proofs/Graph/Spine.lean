import GraphLowering.Proofs.Graph.Marking
import Mathlib.Data.List.Chain

/-!
# The chain of the root

The spine runs from the root along chain operands. A new operation joins it behind all that the
replaced node may not follow: before the deepest node on the spine that depends on the node, and
before what that one is glued to. `SplicePoint` says where this is.
-/

namespace GraphLowering.Graph

open Relation

variable {g g' : Graph} {n a b id : Nat} {v : Value} {l : List Nat}

/-- The second node is where the chain operand of the first comes from. -/
def Follows (g : Graph) (a b : Nat) : Prop := ∃ i, g.chain a = .follows ⟨b, i⟩

theorem chain_eq_follows : g.chain a = .follows v ↔
    (g.node a).operands[0]? = some (some v) ∧ g.type? v = some .chain := by
  have hhead : (g.node a).operands[0]? = some (some v) ↔
      ∃ rest, (g.node a).operands = some v :: rest := by
    cases (g.node a).operands <;> simp
  rw [hhead]
  unfold chain
  constructor
  · intro h
    split at h
    · rename_i w rest hops
      split at h <;> cases h
      exact ⟨⟨rest, hops⟩, ‹_›⟩
    · cases h
  · rintro ⟨⟨rest, hops⟩, ht⟩
    simp only [hops, ht]

theorem Follows.needs (h : g.Follows a b) (ha : g.contains a) : g.Needs a b := by
  obtain ⟨i, hi⟩ := h
  exact needs_iff.2 ⟨ha, i, List.mem_of_getElem? (chain_eq_follows.1 hi).1⟩

theorem Follows.unique {b' : Nat} (h : g.Follows a b) (h' : g.Follows a b') : b' = b := by
  obtain ⟨i, hi⟩ := h
  obtain ⟨j, hj⟩ := h'
  rw [hi] at hj
  cases hj
  rfl

theorem Sound.contains_of_follows (hs : g.Sound) (ha : g.contains a)
    (h : ReflTransGen g.Follows a b) : g.contains b := by
  induction h with
  | refl => exact ha
  | tail _ hf ih => exact hs.contains_of_needs (hf.needs ih)

theorem Sound.reaches_of_follows (hs : g.Sound) (ha : g.contains a)
    (h : ReflTransGen g.Follows a b) : g.Reaches a b := by
  induction h with
  | refl => exact .refl
  | tail hr hf ih => exact ih.tail (hf.needs (hs.contains_of_follows ha hr))

/-- The nodes on the chain of the root. -/
def OnSpine (g : Graph) (id : Nat) : Prop := ∃ r, g.root = some r ∧ ReflTransGen g.Follows r.node id

theorem Sound.live_of_onSpine (hs : g.Sound) (h : g.OnSpine id) : g.Live id := by
  obtain ⟨r, hr, hf⟩ := h
  obtain ⟨r', hr', hhas⟩ := hs.root
  rw [hr] at hr'
  cases hr'
  exact .inr ⟨r, hr, hs.reaches_of_follows hhas.1 hf⟩

/-! ### The spine as a list -/

/-- A list runs along the chain to its end. -/
inductive Along (g : Graph) : Nat → List Nat → Prop where
  | ends {id : Nat} (h : g.chain id = .ends) : Along g id [id]
  | follows {id : Nat} {v : Value} {l : List Nat} (h : g.chain id = .follows v)
      (hl : Along g v.node l) : Along g id (id :: l)

namespace Along

theorem mem_iff (h : g.Along a l) : b ∈ l ↔ ReflTransGen g.Follows a b := by
  induction h with
  | ends h =>
    rw [List.mem_singleton]
    constructor
    · rintro rfl
      exact .refl
    · intro hr
      rcases hr.cases_head with he | ⟨c, ⟨i, hi⟩, -⟩
      · exact he.symm
      · rw [h] at hi
        cases hi
  | follows h _ ih =>
    rw [List.mem_cons, ih]
    constructor
    · rintro (rfl | hr)
      · exact .refl
      · exact hr.head ⟨_, h⟩
    · intro hr
      rcases hr.cases_head with he | ⟨c, ⟨i, hi⟩, hr⟩
      · exact .inl he.symm
      · rw [h] at hi
        cases hi
        exact .inr hr

theorem head (h : g.Along a l) : ∃ rest, l = a :: rest := by
  cases h <;> exact ⟨_, rfl⟩

theorem suffix {pre rest : List Nat} (h : g.Along a (pre ++ b :: rest)) :
    g.Along b (b :: rest) := by
  induction pre generalizing a with
  | nil =>
    obtain ⟨_, he⟩ := h.head
    cases he
    exact h
  | cons c pre ih =>
    generalize hl : c :: pre ++ b :: rest = l at h
    cases h with
    | follows _ hl' =>
      cases hl
      exact ih hl'
    | ends => simp at hl

end Along

/-- A chain is shorter than the graph is large, so the walk along it gets to its end. -/
theorem Sound.along_spineFrom (hs : g.Sound) (hacyc : g.Acyclic) {fuel : Nat} {seen : List Nat}
    (hnodup : seen.Nodup) (hseen : ∀ s ∈ seen, g.contains s ∧ TransGen g.Needs s a)
    (hfuel : seen.length + fuel = g.entries.size + 1) (ha : g.contains a)
    (h : g.spineFrom fuel a = some l) : g.Along a l := by
  induction fuel generalizing a l seen with
  | zero =>
    have hle : seen.length ≤ (List.range g.entries.size).length :=
      (List.Nodup.subperm hnodup fun s hs =>
        List.mem_range.2 (contains_lt (hseen s hs).1)).length_le
    rw [List.length_range] at hle
    omega
  | succ fuel ih =>
    rw [spineFrom] at h
    split at h
    · cases h
      exact .ends ‹_›
    · rename_i v hv
      obtain ⟨rest, hrest, rfl⟩ := Option.map_eq_some_iff.1 h
      have hn : g.Needs a v.node := Follows.needs ⟨v.result, hv⟩ ha
      have hnodup' : (a :: seen).Nodup :=
        List.nodup_cons.2 ⟨fun hm => hacyc a (hseen a hm).2, hnodup⟩
      refine .follows hv (ih hnodup' ?_ ?_ (hs.contains_of_needs hn) hrest)
      · intro s hs'
        rcases List.mem_cons.1 hs' with rfl | hs'
        · exact ⟨ha, .single hn⟩
        · exact ⟨(hseen s hs').1, (hseen s hs').2.tail hn⟩
      · simp only [List.length_cons]
        omega
    · cases h

/-! ### Glue along the spine -/

/-- A node takes glue from another. -/
def TakesGlue (g : Graph) (a b : Nat) : Prop :=
  ∃ i, some (⟨b, i⟩ : Value) ∈ (g.node a).operands ∧ g.type? ⟨b, i⟩ = some .glue

theorem gluedTo_eq {r : Bool} (h : g.gluedTo a b = some r) : r = true ↔ g.TakesGlue a b := by
  unfold gluedTo at h
  dsimp only at h
  split at h
  · rename_i hnone
    cases h
    simp only [Bool.false_eq_true, false_iff]
    rintro ⟨i, hi, ht⟩
    have := List.find?_eq_none.1 hnone ⟨b, i⟩ (List.mem_filterMap.2 ⟨_, hi, by simp⟩)
    simp [ht] at this
  · rename_i w hw
    obtain ⟨vt, hvt, rfl⟩ := Option.map_eq_some_iff.1 h
    obtain ⟨o, ho, hf⟩ := List.mem_filterMap.1 (List.mem_of_find?_eq_some hw)
    have hprop := List.find?_some hw
    simp only [hvt, reduceCtorEq, decide_false, Bool.or_false, decide_eq_true_eq,
      Option.some.injEq] at hprop
    rw [Option.filter_eq_some_iff] at hf
    obtain ⟨rfl, hb⟩ := hf
    have hb' : w.node = b := by simpa using hb
    subst hb'
    simp only [true_iff]
    exact ⟨w.result, ho, by rw [hvt, hprop]⟩

/-- One link of a chain that is also glue. -/
def GluedLink (g : Graph) (a b : Nat) : Prop := g.Follows a b ∧ g.TakesGlue a b

theorem unglue_subset {l' : List Nat} (h : g.unglue l = some l') : l' ⊆ l := by
  induction l with
  | nil =>
    cases h
    exact List.Subset.refl _
  | cons a l ih =>
    cases l with
    | nil =>
      cases h
      exact List.Subset.refl _
    | cons b l =>
      rw [unglue] at h
      obtain ⟨r, -, h⟩ := Option.bind_eq_some_iff.1 h
      split at h
      · exact List.subset_cons_of_subset _ (ih h)
      · cases h
        exact List.Subset.refl _

/-- The walk over glued links stops at the first node that is not glued to the one below. -/
theorem Sound.unglue_spec (hs : g.Sound) {l' : List Nat} (ha : g.contains a) (hl : g.Along a l)
    (h : g.unglue l = some l') : ∃ user rest, l' = user :: rest ∧ g.Along user l' ∧
      ReflTransGen g.GluedLink a user ∧ ∀ b, g.Follows user b → ¬ g.TakesGlue user b := by
  induction hl generalizing l' with
  | ends he =>
    cases h
    refine ⟨_, _, rfl, .ends he, .refl, ?_⟩
    rintro b ⟨i, hi⟩
    rw [he] at hi
    cases hi
  | @follows id v l hv hl ih =>
    obtain ⟨rest, rfl⟩ := hl.head
    rw [unglue] at h
    obtain ⟨r, hr, h⟩ := Option.bind_eq_some_iff.1 h
    have hfol : g.Follows id v.node := ⟨v.result, hv⟩
    have hiff := gluedTo_eq hr
    cases r with
    | true =>
      obtain ⟨user, rest', rfl, halong, hwalk, hstop⟩ :=
        ih (hs.contains_of_needs (hfol.needs ha)) (by simpa using h)
      exact ⟨user, rest', rfl, halong, hwalk.head ⟨hfol, hiff.1 rfl⟩, hstop⟩
    | false =>
      simp only [Bool.false_eq_true, if_false, Option.some.injEq] at h
      subst h
      refine ⟨_, _, rfl, .follows hv hl, .refl, fun b hb hg => ?_⟩
      rw [hfol.unique hb] at hg
      exact absurd (hiff.2 hg) (by simp)

/-! ### Where to join the spine -/

/-- Where a chained replacement of `n` joins the spine: before which node and with what chain. -/
inductive SplicePoint (g : Graph) (n : Nat) : Option Nat → Option Value → Prop where
  /-- Nothing on the spine depends on `n`. -/
  | last (h : ∀ id, g.OnSpine id → ¬ TransGen g.Needs id n) : SplicePoint g n none g.root
  /-- `deepest` depends on `n` and nothing below it does; it is glued to `user`. -/
  | before {deepest user : Nat} {chain : Option Value} (hs : g.OnSpine deepest)
      (hd : TransGen g.Needs deepest n)
      (hbelow : ∀ id, TransGen g.Follows deepest id → ¬ TransGen g.Needs id n)
      (hg : ReflTransGen g.GluedLink deepest user)
      (hu : ∀ b, g.Follows user b → ¬ g.TakesGlue user b)
      (hc : ∀ v, chain = some v ↔ g.chain user = .follows v) : SplicePoint g n (some user) chain

/-- What is left after the last elements of a list that do not satisfy `p`, turned around. -/
theorem dropWhile_reverse_cases {α : Type} (p : α → Bool) (l : List α) :
    (l.reverse.dropWhile (fun x => !p x) = [] ∧ ∀ x ∈ l, p x = false) ∨
      ∃ pre a rest, l = pre ++ a :: rest ∧ p a = true ∧ (∀ x ∈ rest, p x = false) ∧
        l.reverse.dropWhile (fun x => !p x) = a :: pre.reverse := by
  induction l with
  | nil => exact .inl ⟨rfl, by simp⟩
  | cons x l ih =>
    rw [List.reverse_cons]
    rcases ih with ⟨hnil, hall⟩ | ⟨pre, a, rest, rfl, ha, hrest, hdrop⟩
    · rw [List.dropWhile_append, hnil]
      cases hx : p x with
      | true => exact .inr ⟨[], x, l, rfl, hx, hall, by simp [hx]⟩
      | false => exact .inl ⟨by simp [hx], by simpa [hx] using hall⟩
    · refine .inr ⟨x :: pre, a, rest, rfl, ha, hrest, ?_⟩
      rw [List.dropWhile_append, hdrop]
      simp

theorem Sound.splicePoint_spec (hs : g.Sound) (hacyc : g.Acyclic) {before : Option Nat}
    {chain : Option Value} (h : g.splicePoint (some n) = some (before, chain)) :
    SplicePoint g n before chain := by
  obtain ⟨r, hr, hhas⟩ := hs.root
  unfold splicePoint at h
  obtain ⟨line, hline, h⟩ := Option.bind_eq_some_iff.1 h
  rw [spine, hr] at hline
  have halong : g.Along r.node line := hs.along_spineFrom hacyc List.nodup_nil (by simp) (by simp)
    hhas.1 hline
  have hmem : ∀ id, id ∈ line ↔ g.OnSpine id := fun id => by
    rw [halong.mem_iff, OnSpine, hr]
    simp
  have hdep : ∀ id, (g.dependents (some n)).getD id false = true ↔ TransGen g.Needs id n :=
    fun id => hs.marked_dependents
  have hnot : ∀ id, (g.dependents (some n)).getD id false = false → ¬ TransGen g.Needs id n :=
    fun id hid ht => by simp [(hdep id).2 ht] at hid
  dsimp only at h
  rcases dropWhile_reverse_cases (fun id => (g.dependents (some n)).getD id false) line with
    ⟨hnil, hall⟩ | ⟨pre, a, rest, rfl, ha, hrest, hdrop⟩
  · rw [hnil] at h
    cases h
    exact .last fun id hid => hnot id (hall id ((hmem id).2 hid))
  · have hon := (hmem a).1 (by simp)
    have hca := hs.contains_of_follows hhas.1 (halong.mem_iff.1 (by simp : a ∈ pre ++ a :: rest))
    have halong' := halong.suffix
    rw [hdrop] at h
    simp only [List.length_cons, List.length_reverse, Nat.add_sub_cancel, List.drop_left] at h
    obtain ⟨l', hl', h⟩ := Option.bind_eq_some_iff.1 h
    obtain ⟨user, rest', rfl, -, hwalk, hstop⟩ := hs.unglue_spec hca halong' hl'
    have hbelow : ∀ id, TransGen g.Follows a id → ¬ TransGen g.Needs id n := by
      intro id hid
      obtain ⟨b, hab, hb⟩ := TransGen.head'_iff.1 hid
      refine hnot id (hrest id ?_)
      cases halong' with
      | ends he =>
        obtain ⟨i, hi⟩ := hab
        rw [he] at hi
        cases hi
      | follows hv hl =>
        rw [hl.mem_iff]
        obtain rfl := hab.unique ⟨_, hv⟩
        exact hb
    dsimp only at h
    split at h
    · rename_i v hv
      cases h
      exact .before hon ((hdep a).1 ha) hbelow hwalk hstop fun w => by simp [hv]
    · rename_i hv
      cases h
      exact .before hon ((hdep a).1 ha) hbelow hwalk hstop fun w => by simp [hv]
    · cases h

/-! ### There is a place to join, also in a graph with cycles -/

theorem Sound.chain_ne_broken (hs : g.Sound) (ha : g.contains a) : g.chain a ≠ .broken := by
  unfold chain
  split
  · rename_i v rest hops
    obtain ⟨w, hw, hhas⟩ := hs.operands a ha (some v) (by simp [hops])
    cases hw
    obtain ⟨vt, hvt⟩ := Option.isSome_iff_exists.1 hhas.2
    rw [hvt]
    cases vt <;> simp
  · simp

theorem Sound.spineFrom_found (hs : g.Sound) {fuel : Nat} (ha : g.contains a) :
    ∃ l, g.spineFrom fuel a = some l ∧ l.IsChain g.Follows ∧ (∀ b ∈ l, g.contains b) ∧
      ∀ b ∈ l.head?, b = a := by
  induction fuel generalizing a with
  | zero => exact ⟨[], rfl, .nil, by simp, by simp⟩
  | succ fuel ih =>
    rw [spineFrom]
    split
    · exact ⟨[a], rfl, .singleton a, by simp [ha], by simp⟩
    · rename_i v hv
      have hfol : g.Follows a v.node := ⟨v.result, hv⟩
      obtain ⟨l, hl, hchain, hmem, hhead⟩ := ih (hs.contains_of_needs (hfol.needs ha))
      rw [hl]
      refine ⟨a :: l, rfl, List.isChain_cons.2 ⟨fun b hb => hhead b hb ▸ hfol, hchain⟩, ?_, by simp⟩
      simpa [ha] using hmem
    · exact absurd ‹_› (hs.chain_ne_broken ha)

theorem Sound.gluedTo_found (hs : g.Sound) (ha : g.contains a) : ∃ r, g.gluedTo a b = some r := by
  unfold gluedTo
  dsimp only
  split
  · exact ⟨_, rfl⟩
  · rename_i w hw
    obtain ⟨o, ho, hf⟩ := List.mem_filterMap.1 (List.mem_of_find?_eq_some hw)
    obtain ⟨rfl, -⟩ := Option.filter_eq_some_iff.1 hf
    obtain ⟨u, hu, hhas⟩ := hs.operands a ha _ ho
    cases hu
    obtain ⟨vt, hvt⟩ := Option.isSome_iff_exists.1 hhas.2
    exact ⟨true, by rw [hvt]; rfl⟩

/-- The walk over glued links ends at its first node, or at one that gives a chain and glue. -/
theorem Sound.unglue_found (hs : g.Sound) (hl : (a :: l).IsChain g.Follows)
    (hmem : ∀ b ∈ a :: l, g.contains b) : ∃ user rest, g.unglue (a :: l) = some (user :: rest) ∧
    g.contains user ∧
      (user = a ∨ ∃ b, g.GluedLink b user) := by
  induction l generalizing a with
  | nil => exact ⟨a, [], rfl, hmem a (by simp), .inl rfl⟩
  | cons b l ih =>
    rw [unglue]
    obtain ⟨r, hr⟩ := hs.gluedTo_found (b := b) (hmem a (by simp))
    rw [hr]
    cases r with
    | false => exact ⟨a, b :: l, rfl, hmem a (by simp), .inl rfl⟩
    | true =>
      obtain ⟨hfol, hrest⟩ := List.isChain_cons_cons.1 hl
      obtain ⟨user, rest, hu, hc, hlast⟩ := ih hrest fun b hb => hmem b (List.mem_cons_of_mem _ hb)
      refine ⟨user, rest, hu, hc, ?_⟩
      rcases hlast with rfl | hlast
      · exact .inr ⟨a, hfol, (gluedTo_eq hr).1 rfl⟩
      · exact .inr hlast

theorem head_or_follows {pre rest : List Nat} (h : (pre ++ a :: rest).IsChain g.Follows) :
    a ∈ (pre ++ a :: rest).head? ∨ ∃ b, g.Follows b a := by
  rcases pre.eq_nil_or_concat with rfl | ⟨pre, b, rfl⟩
  · exact .inl (by simp)
  · exact .inr ⟨b, (List.isChain_append.1 h).2.2 b (by simp) a (by simp)⟩

theorem Sound.splicePoint_found (hs : g.Sound) :
    ∃ before chain, g.splicePoint (some n) = some (before, chain) ∧
    (∀ v, chain = some v → g.Has v) ∧ ∀ user, before = some user → g.contains user ∧
      (TransGen g.Needs user n ∨ ∃ b, g.GluedLink b user) ∧
      ((∃ r, g.root = some r ∧ r.node = user) ∨ ∃ b, g.Follows b user) := by
  obtain ⟨r, hr, hhas⟩ := hs.root
  obtain ⟨line, hline, hchain, hmem, hhead⟩ := hs.spineFrom_found hhas.1
  have hspine : g.spine = some line := by
    rw [spine, hr]
    exact hline
  unfold splicePoint
  rw [hspine]
  simp only [Option.bind_eq_bind, Option.bind_some]
  rcases dropWhile_reverse_cases (fun id => (g.dependents (some n)).getD id false) line with
    ⟨hnil, -⟩ | ⟨pre, a, rest, rfl, ha, -, hdrop⟩
  · rw [hnil]
    refine ⟨none, g.root, rfl, fun v hv => ?_, fun _ h => (nomatch h)⟩
    rw [hr] at hv
    cases hv
    exact hhas
  · rw [hdrop]
    simp only [List.length_cons, List.length_reverse, Nat.add_sub_cancel, List.drop_left]
    obtain ⟨user, rest', hu, hc, hlast⟩ :=
      hs.unglue_found (hchain.suffix (List.suffix_append pre (a :: rest))) fun b hb =>
      hmem b (List.mem_append_right _ hb)
    rw [hu]
    simp only [Option.bind_some]
    have hdeep : (TransGen g.Needs user n ∨ ∃ b, g.GluedLink b user) ∧
        ((∃ r, g.root = some r ∧ r.node = user) ∨ ∃ b, g.Follows b user) := by
      rcases hlast with rfl | ⟨b, hb⟩
      · exact ⟨.inl (hs.marked_dependents.1 ha),
          (head_or_follows hchain).imp_left fun h => ⟨r, hr, (hhead _ h).symm⟩⟩
      · exact ⟨.inr ⟨b, hb⟩, .inr ⟨b, hb.1⟩⟩
    cases hv : g.chain user with
    | ends =>
      refine ⟨_, _, rfl, fun _ h => (nomatch h), fun u hu => ?_⟩
      cases hu
      exact ⟨hc, hdeep⟩
    | follows v =>
      refine ⟨_, _, rfl, fun w hw => ?_, fun u hu => ?_⟩
      · cases hw
        obtain ⟨w, hw, hhas⟩ :=
          hs.operands user hc _ (List.mem_of_getElem? (chain_eq_follows.1 hv).1)
        cases hw
        exact hhas
      · cases hu
        exact ⟨hc, hdeep⟩
    | broken => exact absurd hv (hs.chain_ne_broken hc)

/-! ### Graphs with the same spine -/

/-- Two graphs agree on a set of nodes that contains the operands of its nodes. -/
structure Agree (S : Nat → Prop) (g g' : Graph) : Prop where
  node : ∀ id, S id → g'.node id = g.node id
  contains : ∀ id, S id → g'.contains id = g.contains id
  closed : ∀ id v, S id → some v ∈ (g.node id).operands → S v.node

namespace Agree

variable {S : Nat → Prop} (h : Agree S g g')

include h

theorem type? (hv : S v.node) : g'.type? v = g.type? v := by
  rw [type?_eq, type?_eq, h.node _ hv]

theorem needs_iff (ha : S a) : g'.Needs a b ↔ g.Needs a b := by
  rw [Graph.needs_iff, Graph.needs_iff, h.node a ha, h.contains a ha]

theorem of_needs (ha : S a) (hn : g.Needs a b) : S b := by
  obtain ⟨-, i, hi⟩ := Graph.needs_iff.1 hn
  exact h.closed a _ ha hi

theorem transGen_iff (ha : S a) : TransGen g'.Needs a b ↔ TransGen g.Needs a b := by
  constructor
  · intro ht
    induction ht using TransGen.head_induction_on with
    | single hn => exact .single ((h.needs_iff ha).1 hn)
    | head hn _ ih =>
      have hn' := (h.needs_iff ha).1 hn
      exact .head hn' (ih (h.of_needs ha hn'))
  · intro ht
    induction ht using TransGen.head_induction_on with
    | single hn => exact .single ((h.needs_iff ha).2 hn)
    | head hn _ ih => exact .head ((h.needs_iff ha).2 hn) (ih (h.of_needs ha hn))

theorem chain (ha : S a) : g'.chain a = g.chain a := by
  unfold Graph.chain
  rw [h.node a ha]
  cases hops : (g.node a).operands with
  | nil => rfl
  | cons o rest =>
    cases o with
    | none => rfl
    | some v =>
      dsimp only
      rw [h.type? (h.closed a v ha (by simp [hops]))]

theorem of_chain (ha : S a) (hv : g.chain a = .follows v) : S v.node :=
  h.closed a v ha (List.mem_of_getElem? (chain_eq_follows.1 hv).1)

theorem spineFrom {fuel : Nat} (ha : S a) : g'.spineFrom fuel a = g.spineFrom fuel a ∧
    ∀ l, g.spineFrom fuel a = some l → ∀ id ∈ l, S id := by
  induction fuel generalizing a with
  | zero => exact ⟨rfl, fun l hl id hid => by cases hl; cases hid⟩
  | succ fuel ih =>
    rw [Graph.spineFrom, Graph.spineFrom, h.chain ha]
    split
    · exact ⟨rfl, fun l hl id hid => by cases hl; exact List.mem_singleton.1 hid ▸ ha⟩
    · rename_i v hv
      obtain ⟨heq, hmem⟩ := ih (h.of_chain ha hv)
      refine ⟨by rw [heq], fun l hl id hid => ?_⟩
      obtain ⟨rest, hrest, rfl⟩ := Option.map_eq_some_iff.1 hl
      rcases List.mem_cons.1 hid with rfl | hid
      · exact ha
      · exact hmem rest hrest id hid
    · exact ⟨rfl, fun l hl => by cases hl⟩

theorem gluedTo (ha : S a) : g'.gluedTo a b = g.gluedTo a b := by
  have htypes : ∀ v ∈ (g.node a).operands.filterMap fun v => v.filter (·.node = b),
      g'.type? v = g.type? v := by
    intro v hv
    obtain ⟨o, ho, hf⟩ := List.mem_filterMap.1 hv
    obtain ⟨rfl, -⟩ := Option.filter_eq_some_iff.1 hf
    exact h.type? (h.closed a v ha ho)
  unfold Graph.gluedTo
  rw [h.node a ha]
  dsimp only
  generalize (g.node a).operands.filterMap (fun v => v.filter (·.node = b)) = vs at htypes
  induction vs with
  | nil => rfl
  | cons v vs ih =>
    have hv := htypes v (by simp)
    rw [List.find?_cons, List.find?_cons, hv]
    cases hp : decide (g.type? v = some .glue) || decide (g.type? v = none) with
    | true => simp only [hv]
    | false => exact ih fun w hw => htypes w (by simp [hw])

theorem unglue (hl : ∀ id ∈ l, S id) : g'.unglue l = g.unglue l := by
  induction l with
  | nil => rfl
  | cons a l ih =>
    cases l with
    | nil => rfl
    | cons b l =>
      rw [Graph.unglue, Graph.unglue, h.gluedTo (hl a (by simp)), ih fun id hid =>
        hl id (by simp_all)]

theorem splicePoint (hs : g.Sound) (hs' : g'.Sound) (hsize : g'.entries.size = g.entries.size)
    (hroot : g'.root = g.root) (hr : ∀ v, g.root = some v → S v.node) :
    g'.splicePoint (some n) = g.splicePoint (some n) := by
  have hspine : g'.spine = g.spine ∧ ∀ l, g.spine = some l → ∀ id ∈ l, S id := by
    unfold Graph.spine
    rw [hroot, hsize]
    split
    · exact ⟨rfl, fun l hl id hid => by cases hl; cases hid⟩
    · rename_i r hr'
      exact h.spineFrom (hr r hr')
  have hdeps : ∀ id, S id →
      (g'.dependents (some n)).getD id false = (g.dependents (some n)).getD id false := by
    intro id hid
    rw [Bool.eq_iff_iff]
    exact hs'.marked_dependents.trans ((h.transGen_iff hid).trans hs.marked_dependents.symm)
  unfold Graph.splicePoint
  dsimp only
  rw [hspine.1, hroot]
  cases hl : g.spine with
  | none => rfl
  | some line =>
    have hline := hspine.2 line hl
    have hdrop : line.reverse.dropWhile (fun id => !(g'.dependents (some n)).getD id false) =
        line.reverse.dropWhile fun id => !(g.dependents (some n)).getD id false := by
      have : ∀ id ∈ line.reverse, S id := fun id hid => hline id (List.mem_reverse.1 hid)
      generalize line.reverse = rev at this
      induction rev with
      | nil => rfl
      | cons id rev ih =>
        rw [List.dropWhile_cons, List.dropWhile_cons, hdeps id (this id (by simp)),
          ih fun id hid => this id (by simp [hid])]
    simp only [Option.bind_eq_bind, Option.bind_some]
    rw [hdrop]
    split
    · rfl
    · rw [h.unglue fun id hid => hline id (List.mem_of_mem_drop hid)]
      refine Option.bind_congr fun rest hu => ?_
      cases rest with
      | nil => rfl
      | cons user rest =>
        have huser := hline user (List.mem_of_mem_drop (unglue_subset hu (by simp)))
        dsimp only
        rw [h.chain huser]

end Agree

end GraphLowering.Graph
