import GraphLowering.Proofs.Graph.Spine
import GraphLowering.Proofs.Usim.CallsFound

/-!
# Sessions between rewrites

Between two rewrites no node is the subject of a rule. `Matched` relates two graphs then: the second
is the part of the first that lies in a set `S`. `Paired` says the same of two sessions. A rule
takes paired sessions to paired sessions (`Paired.lowerNode`), and so does what follows it, the
replacement of the node (`Paired.replaceNode`). A graph is matched with itself, so all this is also
about one session.
-/

namespace GraphLowering.Usim

open GraphLowering.Graph (taken)
open Lower (Session Lowering)
open Lower.Lowering
open Subtarget (Features Description)

variable {f : Features} {S : Nat → Prop} {g g' g₁ g₁' : Graph} {s t : Session} {id a b : Nat}
  {v w : Value} {σ : Nat → Option Value} {values : List (Option Value)}

structure Matched (S : Nat → Prop) (g g' : Graph) : Prop where
  left : Disciplined none g
  right : Disciplined none g'
  size : g'.entries.size = g.entries.size
  signature : g'.signature = g.signature
  frame : g'.frame = g.frame
  root : g'.root = g.root
  node : ∀ id, S id → g'.node id = g.node id
  contains : ∀ id, S id → g'.contains id = g.contains id
  /-- The second graph has nothing else. -/
  only : ∀ id, g'.contains id → S id
  closed : ∀ id v, S id → some v ∈ (g.node id).operands → S v.node
  fresh : ∀ id, g.entries.size ≤ id → S id
  /-- What takes the address of an incoming slot is in both. -/
  slots : ∀ id v, g.contains id → some v ∈ (g.node id).operands → IsSlot g v.node → S id

namespace Matched

theorem refl (h : Disciplined none g) : Matched (fun _ => True) g g :=
  ⟨h, h, rfl, rfl, rfl, rfl, fun _ _ => rfl, fun _ _ => rfl, fun _ _ => trivial,
    fun _ _ _ _ => trivial, fun _ _ => trivial, fun _ _ _ _ _ => trivial⟩

section

variable (h : Matched S g g')
include h

theorem agree : g.Agree S g' := ⟨h.node, h.contains, h.closed⟩

theorem type? (hv : S v.node) : g'.type? v = g.type? v := h.agree.type? hv

theorem has_iff (hv : S v.node) : g'.Has v ↔ g.Has v := by
  rw [Graph.Has, Graph.Has, h.contains _ hv, h.type? hv]

theorem shared_root (hv : g.root = some v) : S v.node := by
  obtain ⟨r, hr, hhas⟩ := h.right.sound.root
  rw [h.root, hv] at hr
  cases hr
  exact h.only _ hhas.1

theorem shared_entry : S Graph.entry.node := h.only _ h.right.sound.entry.1

theorem contains_left (ha : g'.contains a) : g.contains a := h.contains a (h.only a ha) ▸ ha

theorem contains_iff (ha : g.contains a) : g'.contains a ↔ S a :=
  ⟨h.only a, fun hS => (h.contains a hS).trans ha⟩

theorem needs_iff (ha : g'.contains a) : g'.Needs a b ↔ g.Needs a b :=
  h.agree.needs_iff (h.only a ha)

theorem plain (hv : S v.node) (hp : Plain g v) : Plain g' v :=
  Alike.plain (h.node _ hv ▸ .refl _) hp

theorem reaches_iff (ha : S a) : g'.Reaches a b ↔ g.Reaches a b := by
  rw [Graph.Reaches, Graph.Reaches, Relation.reflTransGen_iff_eq_or_transGen,
    Relation.reflTransGen_iff_eq_or_transGen, h.agree.transGen_iff ha]

end

end Matched

/-! ### Replacement -/

/-- Values that may take the place of a node. -/
structure Fits (S : Nat → Prop) (g : Graph) (id : Nat) (values : List (Option Value)) : Prop where
  shared : S id
  node : Replaceable g id
  each : ∀ o ∈ values, ∃ v, o = some v ∧ g.Has v ∧ Plain g v ∧ S v.node ∧ v.node ≠ id
  /-- Either no value depends on the node, or all are results of a node that just takes it. -/
  apart : (∀ v, some v ∈ values → ¬ g.Reaches v.node id) ∨
    ∃ m, (∀ v, some v ∈ values → v.node = m) ∧ ∀ b, g.Needs m b → b ≠ id → ¬ g.Reaches b id

namespace Fits

theorem value (h : Fits S g id values) (hv : some v ∈ values) :
    g.Has v ∧ Plain g v ∧ S v.node ∧ v.node ≠ id := by
  obtain ⟨w, hw, h⟩ := h.each _ hv
  cases hw
  exact h

theorem mem_of_join {i : Nat} (hv : (values[i]?).join = some v) : some v ∈ values :=
  List.mem_of_getElem? (Option.join_eq_some_iff.1 hv)

/-- What fits a graph fits its part. -/
theorem right (h : Fits S g id values) (hm : Matched S g g') : Fits S g' id values := by
  have hid := hm.node _ h.shared
  refine ⟨h.shared, ⟨?_, ?_, ?_, ?_, ?_⟩, fun o ho => ?_, ?_⟩
  · exact hid ▸ h.node.glue
  · exact hid ▸ h.node.fence
  · rw [IsSlot, hid]
    exact h.node.slot
  · rw [IsMark, hid]
    exact h.node.mark
  · rw [IsWordConstant, hid]
    exact h.node.constant
  · obtain ⟨v, rfl, hhas, hp, hv, hne⟩ := h.each o ho
    exact ⟨v, rfl, (hm.has_iff hv).2 hhas, hm.plain hv hp, hv, hne⟩
  · rcases h.apart with ha | ⟨m, hm', ha⟩
    · exact .inl fun v hv hr => ha v hv ((hm.reaches_iff (h.value hv).2.2.1).1 hr)
    · by_cases hS : S m
      · refine .inr ⟨m, hm', fun b hb hne hr => ?_⟩
        have hb' := (hm.agree.needs_iff hS).1 hb
        exact ha b hb' hne ((hm.reaches_iff (hm.agree.of_needs hS hb')).1 hr)
      · refine .inl fun v hv => absurd (hm' v hv ▸ (h.value hv).2.2.1) hS

theorem acyclic (h : Fits S g id values) (hd : Disciplined none g)
    (hr : g.Rewired g₁ id fun i => (values[i]?).join) : g₁.Acyclic := by
  rcases h.apart with ha | ⟨m, hm, ha⟩
  · exact hd.acyclic.rewired hr fun i v hv => ha v (mem_of_join hv)
  · exact hd.acyclic.rewired_through hr (fun i v hv => hm v (mem_of_join hv)) ha

theorem disciplined (h : Fits S g id values) (hd : Disciplined none g) (hs : g₁.Sound)
    (hr : g.Rewired g₁ id fun i => (values[i]?).join) : Disciplined none g₁ :=
  hd.rewired h.node hr hs (h.acyclic hd hr) fun _ _ hv => (h.value (mem_of_join hv)).2.1

end Fits

theorem Matched.rewired (h : Matched S g g') (hr : g.Rewired g₁ id σ) (hr' : g'.Rewired g₁' id σ)
    (hd : Disciplined none g₁) (hd' : Disciplined none g₁')
    (hσ : ∀ i v, σ i = some v → S v.node ∧ Plain g v) : Matched S g₁ g₁' := by
  refine ⟨hd, hd', ?_, ?_, ?_, ?_, fun m hm => ?_, fun m hm => ?_, fun m hm => ?_,
    fun m v hm hv => ?_, fun m hm => ?_, fun m v hm hv hslot => ?_⟩
  · rw [hr.size, hr'.size, h.size]
  · rw [hr.signature, hr'.signature, h.signature]
  · rw [hr.frame, hr'.frame, h.frame]
  · rw [hr.root, hr'.root, h.root]
  · by_cases hc : g.contains m
    · rw [hr.node m hc, hr'.node m (h.contains m hm ▸ hc), h.node m hm]
    · rw [hr.gone m hc, hr'.gone m (h.contains m hm ▸ hc), h.node m hm]
  · rw [hr.contains, hr'.contains, h.contains m hm]
  · exact h.only m (hr'.contains m ▸ hm)
  · by_cases hc : g.contains m
    · rcases hr.mem_operands hc hv with hv | ⟨i, -, hi⟩
      · exact h.closed m v hm hv
      · exact (hσ i v hi).1
    · exact h.closed m v hm (hr.gone m hc ▸ hv)
  · exact h.fresh m (hr.size ▸ hm)
  · have hc : g.contains m := hr.contains m ▸ hm
    have hslot' := (alike_rewired hr _).isSlot.1 hslot
    rcases hr.mem_operands hc hv with hv | ⟨i, -, hi⟩
    · exact h.slots m v hc hv hslot'
    · exact absurd hslot' (hσ i v hi).2.slot

theorem Matched.replaceResults (h : Matched S g g') (hf : Fits S g id values) :
    Matched S (g.replaceResults id 0 values) (g'.replaceResults id 0 values) ∧
      g.Rewired (g.replaceResults id 0 values) id (fun i => (values[i]?).join) ∧
      g'.Rewired (g'.replaceResults id 0 values) id fun i => (values[i]?).join := by
  have hf' := hf.right h
  have hσ : Graph.valuesFrom 0 values = fun i => (values[i]?).join := by
    funext i
    simp [Graph.valuesFrom]
  obtain ⟨hs, hr⟩ := h.left.sound.replaceResults (k := 0) fun v hv =>
    ⟨(hf.value hv).1, (hf.value hv).2.2.2⟩
  obtain ⟨hs', hr'⟩ := h.right.sound.replaceResults (k := 0) fun v hv =>
    ⟨(hf'.value hv).1, (hf'.value hv).2.2.2⟩
  rw [hσ] at hr hr'
  refine ⟨h.rewired hr hr' (hf.disciplined h.left hs hr) (hf'.disciplined h.right hs' hr')
    fun i v hv => ?_, hr, hr'⟩
  have hval := hf.value (Fits.mem_of_join hv)
  exact ⟨hval.2.2.1, hval.2.1⟩

theorem Matched.replaceNode (h : Matched S g g') (hf : Fits S g id values) :
    (∃ e, g.replaceNode id values = .error e ∧ g'.replaceNode id values = .error e) ∨
      ∃ g₁ g₁', g.replaceNode id values = .ok g₁ ∧ g'.replaceNode id values = .ok g₁' ∧
        Matched S g₁ g₁' ∧ g.Rewired g₁ id (fun i => (values[i]?).join) ∧
          g'.Rewired g₁' id fun i => (values[i]?).join := by
  rw [Graph.replaceNode_eq, Graph.replaceNode_eq, h.node id hf.shared]
  split
  · exact .inl ⟨_, rfl, rfl⟩
  · exact .inr ⟨_, _, rfl, rfl, h.replaceResults hf⟩

/-! ### Sessions -/

/-- A secure value does not depend on a node that is not legal, so it stays as it is when the node
is replaced. -/
theorem Secure.rewired (h : Secure f g v) (hs : g.Sound) (hr : g.Rewired g₁ id σ)
    (hl : ¬ IsLegal f g id) : Secure f g₁ v := by
  refine ⟨hr.has_iff.2 h.has, (alike_rewired hr _).plain h.plain, fun k hk => ?_⟩
  have hfree : ∀ m, g.Reaches v.node m → ∀ i, some ⟨id, i⟩ ∉ (g.node m).operands := by
    intro m hm i hi
    have hc := hs.contains_of_reaches h.has.1 hm
    exact hl (h.legal id (hm.tail (Graph.needs_iff.2 ⟨hc, i, hi⟩)))
  have hk' : g.Reaches v.node k := by
    induction hk with
    | refl => exact .refl
    | tail _ hn ih =>
      rcases hr.needs_cases hn with hn | ⟨hn, -⟩
      · exact ih.tail hn
      · exact absurd (h.legal id (ih.tail hn)) hl
  have hlk := h.legal k hk'
  rwa [isLegal_congr (hr.node_eq (hfree k hk')) fun w _ => hr.type? w]

theorem Steady.rewired (h : Steady f none s) (hr : s.graph.Rewired g₁ id σ)
    (hl : ¬ IsLegal f s.graph id) (hd : Disciplined none g₁) :
    Steady f none { s with graph := g₁ } :=
  ⟨hd, fun vs hvs o ho => (h.formals vs hvs o ho).imp fun _ hv =>
    ⟨hv.1, hv.2.rewired h.disciplined.sound hr hl⟩⟩

structure Paired (f : Features) (S : Nat → Prop) (s t : Session) : Prop where
  graphs : Matched S s.graph t.graph
  left : Steady f none s
  right : Steady f none t
  formals : t.formals = s.formals
  target : t.target = s.target
  opName : t.opName = s.opName

namespace Paired

theorem refl (h : Steady f none s) : Paired f (fun _ => True) s s :=
  ⟨.refl h.disciplined, h, h, rfl, rfl, rfl⟩

variable (h : Paired f S s t)
include h

theorem isLegal_iff (hid : S id) : IsLegal f t.graph id ↔ IsLegal f s.graph id :=
  isLegal_congr (h.graphs.node id hid) fun _ hv =>
    h.graphs.type? (h.graphs.closed id _ hid hv)

theorem of_logs {s' t' : Session} (hs : s'.graph = s.graph) (ht : t'.graph = t.graph)
    (hfs : s'.formals = s.formals) (hft : t'.formals = t.formals) (hts : s'.target = s.target)
    (htt : t'.target = t.target) (hos : s'.opName = s.opName) (hot : t'.opName = t.opName) :
    Paired f S s' t' := by
  refine ⟨hs ▸ ht ▸ h.graphs, ⟨hs ▸ h.left.disciplined, ?_⟩, ⟨ht ▸ h.right.disciplined, ?_⟩,
    by rw [hft, hfs, h.formals], by rw [htt, hts, h.target], by rw [hot, hos, h.opName]⟩
  · rw [hfs, hs]
    exact h.left.formals
  · rw [hft, ht]
    exact h.right.formals

end Paired

/-! ### Rules -/

theorem legal_slotLoad {p : Option Nat} (h : Disciplined p g) (ha : g.contains a)
    (hop : (g.node a).op = .load) (hv : (g.node a).operands[1]? = some (some v))
    (hs : IsSlot g v.node) : ∀ k, g.Reaches a k → IsLegal f g k := by
  have hleaf : ∀ k, g.Reaches v.node k → IsLegal f g k := by
    obtain ⟨ht, ho⟩ := h.slot _ hs
    refine legal_leaf ?_ ?_ ho
    · rw [hs.1]
      rfl
    · rw [ht]
      decide
  refine legal_cone (isLegal_of_slot h ha hv hs (by simp [hop])) fun w hw => ?_
  cases h.takes a ha 1 v hv with
  | plain hp => exact absurd hs hp.slot
  | mark hp => exact absurd hs hp.slot
  | fence hp => exact absurd hs hp.slot
  | glue _ hx =>
    rw [hop] at hx
    cases hx
  | copy _ _ hx =>
    rw [hop] at hx
    cases hx
  | load _ _ ho =>
    rw [ho] at hw
    simp only [List.mem_cons, Option.some.injEq, List.not_mem_nil, or_false] at hw
    rcases hw with rfl | rfl
    · exact legal_entry h.sound
    · exact hleaf
  | store _ hx =>
    rw [hop] at hx
    cases hx
  | add _ hx =>
    rw [hop] at hx
    cases hx

/-- What a rule for node `id` builds on: what it adds, and nodes that do not depend on `id` and are
used or legal. -/
def Base (f : Features) (S : Nat → Prop) (g : Graph) (id b : Nat) : Prop :=
  S b ∧ (g.entries.size ≤ b ∨
    g.contains b ∧ ¬ g.Reaches b id ∧ (g.hasUses (some b) ∨ IsLegal f g b))

/-- A call that may end the function has the same users in both graphs. -/
def SameUsers (g g' : Graph) (id : Nat) : Prop :=
  (g.node id).op = .call → ∀ info, (g.node id).callInfo? = some info → info.tail → ∀ i,
    g'.valueUsers (some ⟨id, i⟩) = g.valueUsers (some ⟨id, i⟩)

theorem Base.of_legal (hl : ¬ IsLegal f g id) (ha : S a) (hc : g.contains a)
    (hlegal : ∀ k, g.Reaches a k → IsLegal f g k) : Base f S g id a :=
  ⟨ha, .inr ⟨hc, fun hr => hl (hlegal id hr), .inr (hlegal a .refl)⟩⟩

/-- A set that a rule for a node keeps to: what the rule starts from is in it, and what it comes to
from there. -/
structure Ground (P : Nat → Prop) (s : Session) (id : Nat) : Prop where
  entry : P Graph.entry.node
  operands : ∀ v, some v ∈ (s.graph.node id).operands → P v.node
  formals : ∀ vs, s.formals = some vs → ∀ v, some v ∈ vs → P v.node
  reads : ∀ b v, s.graph.contains b → (s.graph.node b).op = .load →
    (s.graph.node b).operands[1]? = some (some v) → IsSlot s.graph v.node → P b
  down : ∀ b v, P b → s.graph.contains b → isTransparent (s.graph.node b).op →
    some v ∈ (s.graph.node b).operands → P v.node
  fresh : ∀ b, s.graph.entries.size ≤ b → P b

theorem Ground.all : Ground (fun _ => True) s id := by
  constructor <;> intros <;> trivial

namespace Paired

variable {P : Nat → Prop}

/-- The scope of a rule for a node that is not legal. -/
def scope (h : Paired f S s t) (hid : S id) (hc : s.graph.contains id)
    (hl : ¬ IsLegal f s.graph id) (hP : Ground P s id) : Scope where
  start := s.graph.entries.size
  shared := S
  base b := Base f S s.graph id b ∧ P b
  subject := id
  shared_of_base hb := hb.1.1
  base_entry := ⟨Base.of_legal hl h.graphs.shared_entry h.left.disciplined.sound.entry.1
    (legal_entry h.left.disciplined.sound), hP.entry⟩
  shared_subject := hid
  not_base_subject hb := by
    rcases hb.1.2 with hle | ⟨-, hr, -⟩
    · exact absurd (Graph.contains_lt hc) (Nat.not_lt.2 hle)
    · exact hr .refl

theorem coupled (h : Paired f S s t) (hid : S id) (hc : s.graph.contains id)
    (hl : ¬ IsLegal f s.graph id) (hu : SameUsers s.graph t.graph id) (hP : Ground P s id) :
    Coupled f (h.scope hid hc hl hP) none s t := by
  have hs := h.left.disciplined.sound
  have hacyc := h.left.disciplined.acyclic
  have hoperand : ∀ b v, s.graph.contains b → S b → ¬ s.graph.Reaches v.node id →
      some v ∈ (s.graph.node b).operands → Base f S s.graph id v.node := by
    intro b v hb hS hr hv
    refine ⟨h.graphs.closed b v hS hv, .inr ⟨(hs.has_operand hb hv).1, hr, .inl ?_⟩⟩
    exact hs.hasUses_iff.2 (.inl ⟨b, Graph.needs_iff.2 ⟨hb, v.result, hv⟩⟩)
  refine {
    left := h.left
    right := h.right
    size := h.graphs.size
    signature := h.graphs.signature
    frame := h.graphs.frame
    root := h.graphs.root
    formals := h.formals
    target := h.target
    opName := h.opName
    node := h.graphs.node
    contains := h.graphs.contains
    only := h.graphs.only
    closed := h.graphs.closed
    down := fun b v hb hop hv => ?_
    added := fun b v hb hv => ?_
    apart := fun b hb hr => ?_
    fresh := fun b hb => ⟨⟨h.graphs.fresh b hb, .inl hb⟩, hP.fresh b hb⟩
    shared_root := fun v hv => h.graphs.shared_root hv
    subject := hc
    illegal := hl
    operands := fun v hv => ?_
    formals_base := fun vs hvs v hv => ?_
    reads := fun b v hb hop hv hslot => ?_
    slots := h.graphs.slots
    users := hu }
  · rcases hb.1.2 with hle | ⟨hcb, hr, -⟩
    · rw [Graph.node_of_le hle] at hv
      cases hv
    · exact ⟨hoperand b v hcb hb.1.1
        (fun hr' => hr (hr'.head (Graph.needs_iff.2 ⟨hcb, v.result, hv⟩))) hv,
        hP.down b v hb.2 hcb hop hv⟩
  · rw [Graph.node_of_le hb] at hv
    cases hv
  · rcases hb.1.2 with hle | ⟨-, hr', -⟩
    · rcases hr.cases_head with rfl | ⟨k, hn, -⟩
      · exact absurd (Graph.contains_lt hc) (Nat.not_lt.2 hle)
      · exact absurd (Graph.contains_lt hn.1) (Nat.not_lt.2 hle)
    · exact hr' hr
  · exact ⟨hoperand id v hc hid (hacyc.not_reaches (Graph.needs_iff.2 ⟨hc, v.result, hv⟩)) hv,
      hP.operands v hv⟩
  · obtain ⟨w, hw, hhas, -, hlegal⟩ := h.left.formals vs hvs _ hv
    cases hw
    obtain ⟨w, hw, hhas', -⟩ := h.right.formals vs (h.formals.trans hvs) _ hv
    cases hw
    exact ⟨Base.of_legal hl (h.graphs.only _ hhas'.1) hhas.1 hlegal, hP.formals vs hvs v hv⟩
  · exact ⟨Base.of_legal hl (h.graphs.slots b v hb (List.mem_of_getElem? hv) hslot) hb
      (legal_slotLoad h.left.disciplined hb hop hv hslot), hP.reads b v hb hop hv hslot⟩

end Paired

theorem Coupled.paired {c : Scope} (h : Coupled f c none s t) : Paired f c.shared s t :=
  ⟨⟨h.left.disciplined, h.right.disciplined, h.size, h.signature, h.frame, h.root,
    h.node, h.contains, h.only, h.closed, fun id hid => c.shared_of_base (h.fresh id hid), h.slots⟩,
    h.left, h.right, h.formals, h.target, h.opName⟩

/-- A node that is not legal and that a rule is for may be replaced. -/
theorem Replaceable.of_isRewritten (hop : isRewritten (g.node id).op) (hl : ¬ IsLegal f g id) :
    Replaceable g id := by
  refine ⟨(isRewritten_spec hop).2, ?_, fun hs => ?_, fun hm => ?_, fun hc => hl ?_⟩
  · generalize (g.node id).op = op at hop
    cases op <;> first | rfl | cases hop
  · rw [hs.1] at hop
    cases hop
  · rcases hm.2 with h | h <;> rw [h] at hop <;> cases hop
  · refine legal_leaf ?_ ?_ hc.2.2 id .refl
    · rw [hc.1]
      rfl
    · rw [hc.2.1]
      decide

/-- How a rule leaves two sessions: it gives the same on both, and what it gives may take the place
of the node. It adds nodes that rest on nodes that are used or legal. -/
structure Ruled (f : Features) (S : Nat → Prop) (id : Nat) (s t s' t' : Session)
    (values : Option (List (Option Value))) : Prop where
  paired : Paired f S s' t'
  grows : s.graph.Extends s'.graph
  base : ∀ b v, s.graph.entries.size ≤ b → some v ∈ (s'.graph.node b).operands →
    Base f S s.graph id v.node
  apart : ∀ vs, values = some vs → ∀ v, some v ∈ vs → ¬ s'.graph.Reaches v.node id
  values : ∀ vs, values = some vs → isRewritten (s.graph.node id).op ∧ Fits S s'.graph id vs ∧
    ∀ v, some v ∈ vs → Base f S s.graph id v.node

theorem Coupled.known {c : Scope} {p : Option Nat} {K : Regime} (h : Coupled f c p s t)
    (hK : K.pairing = some (f, c)) (hg : Shaped K s.graph) :
    Known K s.graph c.subject (s.graph.node c.subject) := by
  refine ⟨hg.fits _ h.subject, h.subject, rfl, fun x hx => ?_,
    fun _ => (h.left.disciplined.gives _).1, fun hop i v hv => ⟨fun x hx => ?_, fun _ => ?_⟩⟩
  · cases hK.symm.trans hx
    exact c.shared_subject
  · cases hK.symm.trans hx
    exact h.operands v (List.mem_of_getElem? hv)
  · rcases Bool.or_eq_true_iff.1 hop with hop | hop
    · exact h.subject_operand hop hv
    · exact .inl ((h.left.disciplined.takes _ h.subject i v hv).of_takesPlain
        (takesPlain_of_isTransparent hop))

/-- A rule does the same to two paired sessions, and it keeps to its ground. -/
theorem Paired.lowerNode {P : Nat → Prop} (h : Paired f S s t) (hg : Shaped .bare s.graph)
    (d : Description) (hid : S id) (hc : s.graph.contains id) (hl : ¬ IsLegal f s.graph id)
    (hu : SameUsers s.graph t.graph id) (hP : Ground P s id) :
    ∃ r s' t', outcome (lowerNode d id) s = (r, s') ∧ outcome (lowerNode d id) t = (r, t') ∧
      s'.graph.Acyclic ∧ ∀ a, r = .ok a → Ruled f S id s t s' t' a ∧
        (∀ b v, s.graph.entries.size ≤ b → some v ∈ (s'.graph.node b).operands → P v.node) ∧
        ∀ vs, a = some vs → ∀ v, some v ∈ vs → P v.node := by
  have hcoupled := h.coupled hid hc hl hu hP
  let K : Regime := ⟨fun _ => False, False, False, some (f, h.scope hid hc hl hP)⟩
  have hready : Ready K s := ⟨hg.under nofun nofun, fun vs hvs o ho => by
    obtain ⟨v, rfl, hv⟩ := h.left.formals vs hvs o ho
    exact ⟨v, rfl, hv.has⟩⟩
  have hknown : Known K s.graph id (s.graph.node id) := hcoupled.known rfl hready.shaped
  obtain ⟨r, p, s', t', hs, ht, -, hy, hx, hq⟩ := lowerNode_settles (K := K) (d := d)
    (H := (Known K · id (s.graph.node id))) (fun _ hg => hg) (fun _ => nofun)
      (fun x hx => by cases hx; rfl) s t hready
    (fun x hx => by cases hx; exact hcoupled) fun g => hknown.extends
  replace hy : Coupled f (h.scope hid hc hl hP) p s' t' := hy _ rfl
  refine ⟨r, s', t', hs, ht rfl, hy.left.disciplined.acyclic, fun a ha => ?_⟩
  subst ha
  replace hx := hx.extension
  obtain ⟨rfl, hstands⟩ := hq _ (.refl _)
  have hvals : ∀ vs, a = some vs → ∀ o ∈ vs, Holds K s'.graph o := fun vs hvs o ho => by
    obtain ⟨_, -, hholds, -⟩ := exists_left_of_forall₂ (hstands vs hvs).2.types ho
    exact hholds
  have hbase : ∀ vs, a = some vs → ∀ v, some v ∈ vs → Base f S s.graph id v.node ∧ P v.node :=
    fun vs hvs v hv => (hvals vs hvs _ hv).good.base _ rfl
  have hapart : ∀ vs, a = some vs → ∀ v, some v ∈ vs → ¬ s'.graph.Reaches v.node id :=
    fun vs hvs v hv => hy.apart v.node (hbase vs hvs v hv)
  refine ⟨⟨hy.paired, hx, fun b v hb hv => (hy.added b v hb hv).1, hapart, fun vs hvs => ?_⟩,
    fun b v hb hv => (hy.added b v hb hv).2, fun vs hvs v hv => (hbase vs hvs v hv).2⟩
  have hop := (hstands vs hvs).1
  have hnode : s'.graph.node id = s.graph.node id := hx.node id (Graph.contains_lt hc)
  refine ⟨hop, ⟨hid, ?_, fun o ho => ?_, .inl (hapart vs hvs)⟩, fun v hv => (hbase vs hvs v hv).1⟩
  · refine .of_isRewritten (f := f) (hnode ▸ hop) fun hl' => ?_
    exact hl ((isLegal_extends hx h.left.disciplined.sound hc).1 hl')
  · obtain ⟨v, rfl, hgood⟩ := hvals vs hvs o ho
    refine ⟨v, rfl, hgood.has, hgood.plain rfl, (hgood.base _ rfl).1.1, ?_⟩
    rintro rfl
    exact hy.apart _ (hgood.base _ rfl) .refl

end GraphLowering.Usim
