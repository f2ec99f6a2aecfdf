import GraphLowering.Proofs.Lower.Adds
import GraphLowering.Proofs.Usim.Shape

/-!
# Finding what is looked for

`Finds K H m Q` says that a computation that starts where `H` holds of every later graph does not
fail for a missing operand, result or type, leaves a graph that is as `K` asks, and that `Q` holds
of what it gives. If `K` couples two sessions, then the computation does the same on both. `Goes`
says so of computations behind which another copy into a register waits than before them.
-/

namespace GraphLowering.Usim

open GraphLowering.Graph (taken)
open Lower (Session Lowering Failure Adds)
open Lower.Lowering
open Subtarget (Features)

variable {α β : Type} {K : Regime} {W : Prop} {g g' : Graph} {id i : Nat}
  {v w : Value} {n n' : Node} {o chain : Option Value} {s s' t : Session} {op : Opcode}
  {vt : ValueType} {types : List ValueType} {operands : List (Option Value)} {payload : Payload}
  {p : Option Nat}

/-- A session in which rules find what they look for. -/
structure Ready (K : Regime) (s : Session) : Prop where
  shaped : Shaped K s.graph
  formals : ∀ l, s.formals = some l → ∀ o ∈ l, Filled s.graph o

theorem Ready.grow (h : Ready K s) (hs : Shaped K s'.graph) (hx : s.graph.Extends s'.graph)
    (hf : s'.formals = s.formals) : Ready K s' :=
  ⟨hs, fun l hl o ho => (h.formals l (hf ▸ hl) o ho).extends hx⟩

/-- Nodes were added; if it is to stay, the root is what it was. -/
structure Grown (K : Regime) (g g' : Graph) : Prop where
  extension : g.Extends g'
  root : K.quiet → g'.root = g.root

theorem Grown.refl (g : Graph) : Grown K g g := ⟨.refl g, fun _ => rfl⟩

theorem Grown.trans {g'' : Graph} (h : Grown K g g') (h' : Grown K g' g'') : Grown K g g'' :=
  ⟨h.extension.trans h'.extension, fun hK => (h'.root hK).trans (h.root hK)⟩

/-- A chain at which registers may be read. -/
structure Fenced (K : Regime) (g : Graph) (o : Option Value) : Prop where
  holds : Holds K g o
  fence : K.strict → ∀ v, o = some v → isFence (g.node v.node).op ∧ g.type? v = some .chain

theorem Fenced.extends (h : Fenced K g o) (hx : g.Extends g') : Fenced K g' o := by
  refine ⟨h.holds.extends hx, fun hK v hv => ?_⟩
  have hlt := (hv ▸ h.holds).good.has.lt
  rw [hx.node _ hlt, hx.type? hlt]
  exact h.fence hK v hv

/-- A node that was come to; it is known if a rule may look through it. -/
structure Noted (K : Regime) (g : Graph) (id : Nat) (n : Node) : Prop extends Proper K g n where
  contains : g.contains id
  node : g.node id = n
  known : isTransparent n.op → Known K g id n

/-- Two sessions on which a rule is followed at once. -/
def Regime.Couples (K : Regime) (p : Option Nat) (s t : Session) : Prop :=
  ∀ x, K.pairing = some x → Coupled x.1 x.2 p s t

/-- What starts where `H` holds of every later graph and the copy `p` waits does not fail for
something missing, does the same on two sessions, and gives what `Q` says if it succeeds. -/
def Goes (K : Regime) (p : Option Nat) (H : Graph → Prop) (m : Lowering α)
    (Q : α → Option Nat → Graph → Prop) : Prop :=
  ∀ s t, Ready K s → K.Couples p s t → (∀ g, s.graph.Extends g → H g) →
    ∃ r p' s' t', outcome m s = (r, s') ∧ (K.strict → outcome m t = (r, t')) ∧ Ready K s' ∧
    K.Couples p' s' t' ∧ Grown K s.graph s'.graph ∧ match r with
      | .ok a => ∀ g, s'.graph.Extends g → Q a p' g
      | .error e => e ≠ .malformed

/-- The same of a computation before and behind which no copy waits. -/
def Settles (K : Regime) (H : Graph → Prop) (m : Lowering α) (Q : α → Graph → Prop) : Prop :=
  Goes K none H m fun a p g => p = none ∧ Q a g

/-- The same of a computation behind which the same copy waits. -/
def Finds (K : Regime) (H : Graph → Prop) (m : Lowering α) (Q : α → Graph → Prop) : Prop :=
  ∀ p, Goes K p H m fun a p' g => p' = p ∧ Q a g

namespace Goes

variable {H H' : Graph → Prop} {m : Lowering α} {k : α → Lowering β}
  {Q Q' : α → Option Nat → Graph → Prop} {R : β → Option Nat → Graph → Prop}

theorem mono (h : Goes K p H m Q) (hq : ∀ a p' g, H g → Q a p' g → Q' a p' g) :
    Goes K p H m Q' := by
  intro s t hs hc hH
  obtain ⟨r, p', s', t', hm, ht, hs', hc', hx, hr⟩ := h s t hs hc hH
  refine ⟨r, p', s', t', hm, ht, hs', hc', hx, ?_⟩
  cases r with
  | error e => exact hr
  | ok a => exact fun g hg => hq a p' g (hH g (hx.extension.trans hg)) (hr g hg)

theorem under (h : Goes K p H m Q) (hH : ∀ g, H' g → H g) : Goes K p H' m Q :=
  fun s t hs hc hg => h s t hs hc fun g hx => hH g (hg g hx)

/-- What is known does not always speak of a graph. -/
theorem given {P : Prop} (h : ∀ g, H g → P) (hm : P → Goes K p H m Q) : Goes K p H m Q :=
  fun s t hs hc hH => hm (h s.graph (hH _ (.refl _))) s t hs hc hH

theorem bind (h : Goes K p H m Q) (hk : ∀ a p', Goes K p' (fun g => H g ∧ Q a p' g) (k a) R) :
    Goes K p H (m >>= k) R := by
  intro s t hs hc hH
  obtain ⟨r, p₁, s₁, t₁, hm, ht, hs₁, hc₁, hx₁, hr⟩ := h s t hs hc hH
  cases r with
  | error e =>
    exact ⟨_, p₁, s₁, t₁, by rw [outcome_bind, hm], fun hK => by rw [outcome_bind, ht hK],
      hs₁, hc₁, hx₁, hr⟩
  | ok a =>
    obtain ⟨r, p', s', t', hk, ht', hs', hc', hx, hr'⟩ :=
      hk a p₁ s₁ t₁ hs₁ hc₁ fun g hg => ⟨hH g (hx₁.extension.trans hg), hr g hg⟩
    refine ⟨r, p', s', t', ?_, fun hK => ?_, hs', hc', hx₁.trans hx, hr'⟩
    · rw [outcome_bind, hm]
      exact hk
    · rw [outcome_bind, ht hK]
      exact ht' hK

theorem pure {a : α} (h : ∀ g, H g → Q a p g) : Goes K p H (Pure.pure a) Q :=
  fun s t hs hc hH => ⟨_, p, s, t, rfl, fun _ => rfl, hs, hc, .refl _, fun g hg => h g (hH g hg)⟩

theorem foldlM {l : List α} {m : β → α → Lowering β} {I : β → Option Nat → Graph → Prop}
    (h : ∀ a ∈ l, ∀ b p, Goes K p (fun g => H g ∧ I b p g) (m b a) I) {b : β}
    (hb : ∀ g, H g → I b p g) : Goes K p H (l.foldlM m b) I := by
  induction l generalizing p b H with
  | nil => exact pure hb
  | cons a l ih =>
    rw [List.foldlM_cons]
    refine bind ((h a (by simp) b p).under fun g hg => ⟨hg, hb g hg⟩) fun b' p' => ?_
    exact ih (fun a ha b p => (h a (by simp [ha]) b p).under fun g hg => ⟨hg.1.1, hg.2⟩)
      fun g hg => hg.2

/-- What depends on the graph only in what two sessions have in common. -/
theorem graph_bind {k : Graph → Lowering β}
    (hk : ∀ g₀, Goes K p (fun g => H g ∧ (Shaped K g₀ ∧ H g₀) ∧ g₀.Extends g) (k g₀) R)
    (hsame : ∀ x p s t, K.pairing = some x → Coupled x.1 x.2 p s t → H s.graph →
      k t.graph = k s.graph) :
    Goes K p H (Lowering.graph >>= k) R := by
  intro s t hs hc hH
  obtain ⟨r, p', s', t', hm, ht, hrest⟩ :=
    hk s.graph s t hs hc fun g hg => ⟨hH g hg, ⟨hs.shaped, hH _ (.refl _)⟩, hg⟩
  refine ⟨r, p', s', t', hm, fun hK => ?_, hrest⟩
  obtain ⟨x, hx⟩ := Regime.strict_iff.1 hK
  show outcome (k t.graph) t = _
  rw [hsame x p s t hx (hc x hx) (hH _ (.refl _))]
  exact ht hK

/-- A node is added, behind which the copy `q id` waits. -/
theorem newNode (q : Nat → Option Nat)
    (hproper : ∀ g, H g → Proper K g ⟨op, types, (taken operands).map some, payload⟩)
    (hbase : ∀ g, H g → ∀ v ∈ taken operands, K.Base v.node)
    (hj : K.strict → ∀ g, H g → Disciplined p g →
      Joins g p (q g.entries.size) op types operands payload) :
    Goes K p H (build (·.newNode op types operands payload)) fun id p' g =>
      p' = q id ∧ Made K g id ⟨op, types, (taken operands).map some, payload⟩ := by
  intro s t hs hc hH
  have hnow := hH _ (.refl _)
  have hx := Graph.Extends.newNode s.graph op types operands payload
  have hshaped := hs.shaped.newNode (hproper _ hnow)
  have hnew : Made K (s.graph.newNode op types operands payload).1 s.graph.entries.size
      ⟨op, types, (taken operands).map some, payload⟩ := by
    have hself := Graph.node_newNode_self s.graph op types operands payload
    have hcon : (s.graph.newNode op types operands payload).1.contains s.graph.entries.size := by
      simp [Graph.contains_newNode]
    exact ⟨hself ▸ hshaped.fits _ hcon, hcon, hself, fun x hK => (hc x hK).fresh _ (Nat.le_refl _)⟩
  refine ⟨.ok s.graph.entries.size, q s.graph.entries.size, _, _, rfl,
    fun hK => ?_, hs.grow hshaped hx rfl,
    fun x hK => (hc x hK).newNode
    (hj (Regime.strict_iff.2 ⟨x, hK⟩) _ hnow (hc x hK).left.disciplined)
      fun v hv => hbase _ hnow v hv x hK, ⟨hx, fun _ => Graph.root_newNode ..⟩,
      fun g hg => ⟨rfl, hnew.extends hg⟩⟩
  obtain ⟨x, hK⟩ := Regime.strict_iff.1 hK
  rw [outcome_build, Graph.newNode_id, (hc x hK).size]

end Goes

/-- The operands that may be built on: all that a rule looks at but the address that is stored
to. -/
def isTaken (op : Opcode) (i : Nat) : Bool := isViewed op && (op != .store || i != 2)

/-- Those of them that are neither chains nor names. -/
def isDatum (op : Opcode) (i : Nat) : Bool := isTaken op i && isBeside op i && !isNameSlot op i

theorem Known.holds (h : Known K g id n) (hop : n.op = op) (hi : isTaken op i)
    (ho : n.operands[i]? = some o) : Holds K g o := by
  subst hop
  simp only [isTaken, Bool.and_eq_true, Bool.or_eq_true, bne_iff_ne] at hi
  obtain ⟨v, rfl, hhas⟩ := h.operands _ (List.mem_of_getElem? ho)
  obtain ⟨hbase, hplain⟩ := h.view hi.1 i v ho
  refine ⟨v, rfl, hhas, hbase, fun hK => (hplain hK).resolve_right fun hs => ?_⟩
  exact hi.2.elim (fun h => h hs.1.1) fun h => h hs.1.2

theorem Known.data (h : Known K g id n) (hop : n.op = op) (hi : isDatum op i)
    (ho : n.operands[i]? = some o) : Data K g o := by
  rw [isDatum, Bool.and_eq_true, Bool.and_eq_true, Bool.not_eq_true'] at hi
  exact ⟨h.holds hop hi.1.1 ho, fun hK => (h.ordered hK).datum ho (hop ▸ hi.1.2) (hop ▸ hi.2)⟩

namespace Finds

variable {H H' : Graph → Prop} {m m' : Lowering α} {k : α → Lowering β} {Q Q' : α → Graph → Prop}
  {R : β → Graph → Prop}

theorem run (h : Finds K H m Q) (hK : K.pairing = none) (hs : Ready K s)
    (hH : ∀ g, s.graph.Extends g → H g) : ∃ r s', outcome m s = (r, s') ∧ Ready K s' ∧
    Grown K s.graph s'.graph ∧ match r with
      | .ok a => ∀ g, s'.graph.Extends g → Q a g
      | .error e => e ≠ .malformed := by
  obtain ⟨r, p', s', t', hm, ht, hs', hc, hx, hr⟩ :=
    h none s s hs (fun x hx => by rw [hK] at hx; cases hx) hH
  refine ⟨r, s', hm, hs', hx, ?_⟩
  cases r with
  | error e => exact hr
  | ok a => exact fun g hg => (hr g hg).2

theorem mono (h : Finds K H m Q) (hq : ∀ a g, H g → Q a g → Q' a g) : Finds K H m Q' :=
  fun p => (h p).mono fun a _ g hg hQ => ⟨hQ.1, hq a g hg hQ.2⟩

theorem under (h : Finds K H m Q) (hH : ∀ g, H' g → H g) : Finds K H' m Q := fun p => (h p).under hH

theorem given {P : Prop} (h : ∀ g, H g → P) (hm : P → Finds K H m Q) : Finds K H m Q :=
  fun p => .given h fun hP => hm hP p

theorem goes {R : β → Option Nat → Graph → Prop} (h : Finds K H m Q)
    (hk : ∀ a, Goes K p (fun g => H g ∧ Q a g) (k a) R) : Goes K p H (m >>= k) R :=
  (h p).bind fun a _ => .given (fun _ hg => hg.2.1) fun hp => hp ▸ (hk a).under
    fun _ hg => ⟨hg.1, hg.2.2⟩

theorem bind (h : Finds K H m Q) (hk : ∀ a, Finds K (fun g => H g ∧ Q a g) (k a) R) :
    Finds K H (m >>= k) R :=
  fun p => h.goes fun a => hk a p

theorem pure {a : α} (h : ∀ g, H g → Q a g) : Finds K H (Pure.pure a) Q :=
  fun _ => .pure fun g hg => ⟨rfl, h g hg⟩

/-- What only fails, and not for something missing. -/
theorem fail {e : Session → Failure} (h : ∀ s, outcome m s = (.error (e s), s))
    (hne : ∀ s, e s ≠ .malformed)
    (hsame : ∀ x p s t, K.pairing = some x → Coupled x.1 x.2 p s t → e t = e s) :
    Finds K H m Q := by
  intro p s t hs hc _
  refine ⟨_, p, s, t, h s, fun hK => ?_, hs, hc, .refl _, hne s⟩
  obtain ⟨x, hx⟩ := Regime.strict_iff.1 hK
  rw [h, hsame x p s t hx (hc x hx)]

theorem unsupported_bind {r : Lower.Reason} (hid : K.Shares id) :
    Finds K H (Lowering.unsupported id r >>= k) R := by
  refine fail (fun _ => rfl) (fun _ he => (nomatch he)) fun x p s t hx hc => ?_
  rw [hc.target, hc.signature, hc.opName, hc.node id (hid x hx)]

theorem unsupported {r : Lower.Reason} (hid : K.Shares id) :
    Finds K H (Lowering.unsupported id r : Lowering α) Q := by
  rw [← bind_pure (Lowering.unsupported id r)]
  exact unsupported_bind hid

theorem unrepresentable {u : Lower.Unpassed} :
    Finds K H (Lowering.unrepresentable u : Lowering α) Q := by
  refine fail (fun _ => rfl) (fun _ he => (nomatch he)) fun x p s t _ hc => ?_
  rw [hc.target, hc.signature]

theorem ite {c : Prop} [Decidable c] (ht : c → Finds K H m Q) (hf : ¬ c → Finds K H m' Q) :
    Finds K H (if c then m else m') Q := by
  split
  · exact ht ‹_›
  · exact hf ‹_›

theorem ite_bind {c : Prop} [Decidable c] (ht : c → Finds K H m Q) (hf : ¬ c → Finds K H m' Q)
    (hk : ∀ a, Finds K (fun g => H g ∧ Q a g) (k a) R) :
    Finds K H (if c then m >>= k else m' >>= k) R :=
  ite (fun h => bind (ht h) hk) fun h => bind (hf h) hk

/-! ### Reading -/

theorem read {r : Session → Except Failure α} (h : ∀ s, outcome m s = (r s, s))
    (hq : ∀ p s t, Ready K s → K.Couples p s t → (∀ g, s.graph.Extends g → H g) →
      ∃ a, r s = .ok a ∧ (∀ x, K.pairing = some x → r t = .ok a) ∧ ∀ g, s.graph.Extends g → Q a g) :
    Finds K H m Q := by
  intro p s t hs hc hH
  obtain ⟨a, ha, ht, hq⟩ := hq p s t hs hc hH
  refine ⟨.ok a, p, s, t, by rw [h, ha], fun hK => ?_, hs, hc, .refl _, fun g hg => ⟨rfl, hq g hg⟩⟩
  obtain ⟨x, hx⟩ := Regime.strict_iff.1 hK
  rw [h, ht x hx]

/-- What reads the same of two sessions, and finds what it looks for in one. -/
theorem of_alone (h : Finds { K with pairing := none } H m Q)
    (hsame : ∀ x p s t, K.pairing = some x → Coupled x.1 x.2 p s t → H s.graph → SameRead s t m m) :
    Finds K H m Q := by
  obtain ⟨asks, ordered, quiet, _ | x⟩ := K
  · exact h
  intro p s t hs hc hH
  obtain ⟨r, hm, ht⟩ := hsame x p s t rfl (hc x rfl) (hH _ (.refl _))
  have hs' : Ready ⟨asks, ordered, quiet, none⟩ s :=
    ⟨⟨hs.shaped.sound, fun id hid =>
      { hs.shaped.fits id hid with typed := { (hs.shaped.fits id hid).typed with } },
      hs.shaped.root⟩, hs.formals⟩
  obtain ⟨r', s', hm', -, -, hr⟩ := h.run rfl hs' hH
  obtain ⟨rfl, rfl⟩ := Prod.mk.inj (hm.symm.trans hm')
  refine ⟨r, p, s, t, hm, fun _ => ht, hs, hc, .refl _, ?_⟩
  cases r with
  | error e => exact hr
  | ok a => exact fun g hg => ⟨rfl, hr g hg⟩

theorem graph_bind {k : Graph → Lowering β}
    (hk : ∀ g₀, Finds K (fun g => H g ∧ (Shaped K g₀ ∧ H g₀) ∧ g₀.Extends g) (k g₀) R)
    (hsame : ∀ x p s t, K.pairing = some x → Coupled x.1 x.2 p s t → H s.graph →
      k t.graph = k s.graph) :
    Finds K H (Lowering.graph >>= k) R :=
  fun p => .graph_bind (fun g₀ => hk g₀ p) hsame

/-- On one session the whole graph may be read. -/
theorem graph (hK : K.pairing = none) :
    Finds K H Lowering.graph fun g₀ g => (Shaped K g₀ ∧ H g₀) ∧ g₀.Extends g :=
  read outcome_graph fun _ s _ hs _ hH =>
    ⟨_, rfl, fun x hx => by simp [hK] at hx, fun _ hg => ⟨⟨hs.shaped, hH _ (.refl _)⟩, hg⟩⟩

theorem orMalformed {o : Option α} (h : ∀ g, H g → o.isSome) :
    Finds K H (Lowering.orMalformed o) fun a _ => o = some a := by
  refine read (r := fun _ => required o) (outcome_orMalformed o) fun _ s _ _ _ hH => ?_
  obtain ⟨a, rfl⟩ := Option.isSome_iff_exists.1 (h s.graph (hH _ (.refl _)))
  exact ⟨a, rfl, fun _ _ => rfl, fun _ _ => rfl⟩

theorem node (h : ∀ g, H g → Known K g id n) : Finds K H (Lowering.node id) fun n' _ => n' = n :=
  read (outcome_node id) fun _ s t _ hc hH => by
    have hn := h s.graph (hH _ (.refl _))
    exact ⟨_, rfl, fun x hx => by rw [(hc x hx).node id (hn.shares x hx)], fun _ _ => hn.node⟩

theorem valueAlone (h : ∀ g, H g → Filled g o) :
    Finds K H (Lowering.orMalformed o) fun v g => o = some v ∧ g.contains v.node := by
  refine (orMalformed fun g hg => ?_).mono fun v g hg hv => ⟨hv, ?_⟩
  · obtain ⟨v, rfl, -⟩ := h g hg
    rfl
  · obtain ⟨w, hw, hhas⟩ := h g hg
    cases hv.symm.trans hw
    exact hhas.1

theorem nodeAlone (hK : K.pairing = none) (h : ∀ g, H g → g.contains id) :
    Finds K H (Lowering.node id) fun n g => Known K g id n :=
  read (outcome_node id) fun _ s _ hs _ hH =>
    ⟨_, rfl, fun x hx => by simp [hK] at hx,
      fun _ hg => (hs.shaped.known hK (h s.graph (hH _ (.refl _)))).extends hg⟩

theorem operand (h : ∀ g, H g → Known K g id n ∧ i < n.operands.length) :
    Finds K H (Lowering.operand id i) fun o g => n.operands[i]? = some o ∧ Filled g o := by
  refine read (outcome_operand id i) fun _ s t _ hc hH => ?_
  obtain ⟨hk, hi⟩ := h s.graph (hH _ (.refl _))
  have hread : required ((s.graph.node id).operands[i]?) = .ok n.operands[i] := by
    rw [hk.node, List.getElem?_eq_getElem hi]
    rfl
  refine ⟨n.operands[i], hread, fun x hx => ?_, fun g hg => ⟨List.getElem?_eq_getElem hi, ?_⟩⟩
  · rw [(hc x hx).node id (hk.shares x hx), hread]
  · exact (hk.operands _ (List.getElem_mem hi)).extends hg

theorem operandAt (h : ∀ g, H g → Known K g id n) (hop : n.op = op) (hi : i < arity op) :
    Finds K H (Lowering.operand id i) fun o g => n.operands[i]? = some o ∧ Filled g o :=
  operand fun g hg => ⟨h g hg, Nat.lt_of_lt_of_le (hop ▸ hi) (h g hg).arity⟩

theorem slotOf (h : ∀ g, H g → Known K g id n) (hop : n.op = op)
    (hi : (i < arity op && isTaken op i) = true) :
    Finds K H (Lowering.operand id i) fun o g => n.operands[i]? = some o ∧ Holds K g o := by
  simp only [Bool.and_eq_true, decide_eq_true_eq] at hi
  exact (operandAt h hop hi.1).mono fun o g hg ho => ⟨ho.1, (h g hg).holds hop hi.2 ho.1⟩

theorem armOf (h : ∀ g, H g → Known K g id n) (hop : n.op = op)
    (hi : (i < arity op && isDatum op i) = true) :
    Finds K H (Lowering.operand id i) fun o g => n.operands[i]? = some o ∧ Data K g o := by
  simp only [Bool.and_eq_true, decide_eq_true_eq] at hi
  exact (operandAt h hop hi.1).mono fun o g hg ho => ⟨ho.1, (h g hg).data hop hi.2 ho.1⟩

theorem operandOf (h : ∀ g, H g → Known K g id n) (hop : n.op = op)
    (hi : (i < arity op && isDatum op i) = true) :
    Finds K H (Lowering.operand id i) fun o g => Data K g o :=
  (armOf h hop hi).mono fun _ _ _ ho => ho.2

theorem addressOf (h : ∀ g, H g → Known K g id n) (hop : n.op = .store) :
    Finds K H (Lowering.operand id 2) fun o g => Pointer K g o := by
  refine (operand fun g hg => ⟨h g hg, ?_⟩).mono fun o g hg ho => ?_
  · have := (h g hg).arity
    rw [hop] at this
    exact this
  · obtain ⟨hslot, v, rfl, hhas⟩ := ho
    obtain ⟨hbase, hplain⟩ := (h g hg).view (by rw [hop]; rfl) 2 v hslot
    exact ⟨fun hK => ((h g hg).ordered hK).datum hslot (by rw [hop]; rfl) (by rw [hop]; rfl), v,
      rfl, hhas, hbase, fun hK => (hplain hK).imp_right And.right⟩

/-- An operand where no chain goes, for an operation that may take names. -/
theorem besideOf {op' : Opcode} (h : ∀ g, H g → Known K g id n) (hop : n.op = op)
    (hi : ((i < arity op && isTaken op i) && isBeside op i) = true)
    (hname : ∀ i, isNameSlot op' i) : Finds K H (Lowering.operand id i) fun o g => n.operands[i]? =
    some o ∧ Beside K g op' o := by
  rw [Bool.and_eq_true] at hi
  refine (slotOf h hop hi.1).mono fun o g hg ho => ⟨ho.1, ho.2, fun hK v hv ht => ⟨hname, ?_⟩⟩
  exact (((h g hg).ordered hK).beside (hv ▸ ho.1) (hop ▸ hi.2) ht).2

theorem resultType (h : ∀ g, H g → Known K g id n) :
    Finds K H (Lowering.resultType id 0) fun vt _ => n.types[0]? = some vt := by
  refine read (outcome_resultType id 0) fun _ s t _ hc hH => ?_
  have hk := h s.graph (hH _ (.refl _))
  obtain ⟨vt, rest, ht⟩ := List.exists_cons_of_ne_nil (Opcode.ne_nil_of_gives hk.gives)
  have hread : required ((s.graph.node id).types[0]?) = .ok vt := by
    rw [hk.node, ht]
    rfl
  exact ⟨vt, hread, fun x hx => by rw [(hc x hx).node id (hk.shares x hx), hread],
    fun _ _ => by rw [ht]; rfl⟩

theorem typeOf (h : ∀ g, H g → Holds K g o) :
    Finds K H (Lowering.typeOf o) fun vt g => g.operandType? o = some vt := by
  refine read (outcome_typeOf o) fun _ s t _ hc hH => ?_
  obtain ⟨v, rfl, hv⟩ := h s.graph (hH _ (.refl _))
  obtain ⟨vt, hvt⟩ := Option.isSome_iff_exists.1 hv.has.2
  refine ⟨vt, by rw [required_eq_ok]; exact hvt, fun x hx => ?_, fun g hg => ?_⟩
  · rw [required_eq_ok]
    show t.graph.type? v = some vt
    rw [Graph.type?_eq, (hc x hx).node _ (hv.base.shares x hx), ← Graph.type?_eq, hvt]
  · show g.type? v = some vt
    rw [hg.type? hv.has.lt, hvt]

theorem nodeTypes (h : ∀ g, H g → Known K g id n) :
    Finds K H (Lowering.nodeTypes id) fun _ _ => True := by
  refine read (outcome_nodeTypes id) fun _ s t hs hc hH => ?_
  have hk := h s.graph (hH _ (.refl _))
  obtain ⟨types, ht⟩ := Option.isSome_iff_exists.1 (hs.shaped.sound.nodeTypes?_isSome hk.contains)
  have hread : required (s.graph.nodeTypes? id) = .ok types := by
    rw [ht]
    rfl
  refine ⟨types, hread, fun x hx => ?_, fun _ _ => trivial⟩
  have hid := hk.shares x hx
  rw [Graph.nodeTypes?_congr ((hc x hx).node id hid) fun v hv => ?_, hread]
  rw [Graph.type?_eq, Graph.type?_eq, (hc x hx).node _ ((hc x hx).closed id v hid hv)]

/-- The entry may be built on, and registers may be read there. -/
theorem with_entry (h : Finds K (fun g => H g ∧ Fenced K g (some Graph.entry)) m Q) :
    Finds K H m Q := by
  intro p s t hs hc hH
  refine h p s t hs hc fun g hg => ⟨hH g hg, Fenced.extends ?_ hg⟩
  obtain ⟨hcon, hnode⟩ := hs.shaped.sound.entry
  have ht : s.graph.type? Graph.entry = some .chain := by
    rw [Graph.type?_eq, hnode]
    rfl
  refine ⟨⟨_, rfl, ⟨hcon, by rw [ht]; rfl⟩, fun x _ => x.2.base_entry, fun _ => ⟨?_, ?_, ?_⟩⟩,
    fun _ v hv => ?_⟩
  · rw [ht]
    decide
  · rw [IsCopy, hnode]
    decide
  · rintro ⟨hop, -⟩
    rw [hnode] at hop
    cases hop
  · cases hv
    rw [hnode]
    exact ⟨rfl, ht⟩

/-- What reads the frame only, which two sessions have in common; fixed objects have negative
numbers. -/
theorem frame_bind {k : Graph → Lowering β}
    (hk : ∀ g₀, (K.strict → Graph.FixedBelow g₀.frame) → Finds K H (k g₀) R)
    (hsame : ∀ g g', g'.frame = g.frame → k g' = k g) : Finds K H (Lowering.graph >>= k) R := by
  intro p s t hs hc hH
  have hfixed : K.strict → Graph.FixedBelow s.graph.frame := fun hK => by
    obtain ⟨x, hx⟩ := Regime.strict_iff.1 hK
    exact (hc x hx).left.disciplined.frame
  obtain ⟨r, p', s', t', hm, ht, hrest⟩ := hk s.graph hfixed p s t hs hc hH
  refine ⟨r, p', s', t', hm, fun hK => ?_, hrest⟩
  obtain ⟨x, hx⟩ := Regime.strict_iff.1 hK
  show outcome (k t.graph) t = _
  rw [hsame _ _ (hc x hx).frame]
  exact ht hK

/-- A node that a rule looks through is known. -/
theorem with_view (hv : ∀ g, H g → Holds K g (some v))
    (h : Finds K (fun g => H g ∧
      (isTransparent (g.node v.node).op → Known K g v.node (g.node v.node))) m Q) :
    Finds K H m Q := by
  intro p s t hs hc hH
  have hgood := (hv _ (hH _ (.refl _))).good
  refine h p s t hs hc fun g hg => ⟨hH g hg, fun hop => ?_⟩
  rw [hg.node _ hgood.has.lt] at hop ⊢
  refine Known.extends ⟨hs.shaped.fits _ hgood.has.1, hgood.has.1, rfl, hgood.base.shares,
    fun hK => ?_, fun _ i w hw =>
    ⟨fun x hx => (hc x hx).down _ w (hgood.base x hx) hop (List.mem_of_getElem? hw),
    fun hK => .inl ?_⟩⟩ hg
  all_goals obtain ⟨x, hx⟩ := Regime.strict_iff.1 hK
  · exact ((hc x hx).left.disciplined.gives _).1
  · exact ((hc x hx).left.disciplined.takes _ hgood.has.1 i w hw).of_takesPlain
      (takesPlain_of_isTransparent hop)

theorem nodeAt (h : ∀ g, H g → Holds K g o ∧ o = some v) :
    Finds K H (Lowering.node v.node) fun n g => Noted K g v.node n := by
  refine with_view (v := v) (fun g hg => (h g hg).2 ▸ (h g hg).1)
    (read (outcome_node v.node) fun _ s t hs hc hH => ?_)
  obtain ⟨hg, -⟩ := hH _ (.refl _)
  have hv : Good K s.graph v := ((h _ hg).2 ▸ (h _ hg).1).good
  refine ⟨_, rfl, fun x hx => by rw [(hc x hx).node _ (hv.base.shares x hx)], fun g hx => ?_⟩
  have hnode := hx.node _ hv.has.lt
  exact ⟨(hs.shaped.fits _ hv.has.1).grow hx, (hx.contains _ hv.has.lt).trans hv.has.1, hnode,
    fun hop => hnode ▸ (hH g hx).2 (hnode ▸ hop)⟩

theorem valueOf (h : ∀ g, H g → Holds K g o) :
    Finds K H (Lowering.orMalformed o) fun v g => Holds K g o ∧ o = some v := by
  refine (orMalformed fun g hg => ?_).mono fun v g hg hv => ⟨h g hg, hv⟩
  obtain ⟨v, rfl, -⟩ := h g hg
  rfl

theorem nodeOf (h : ∀ g, H g → Holds K g o) :
    Finds K H (Lowering.nodeOf o) fun n g => ∃ v, o = some v ∧ Noted K g v.node n := by
  refine bind (valueOf h) fun v => (nodeAt fun g hg => hg.2).mono fun n g hg hn => ⟨v, hg.2.2, hn⟩

/-! ### Changes of the session -/

theorem still {a : α} (hK : K.pairing = none)
    (h : ∀ s, ∃ s', outcome m s = (.ok a, s') ∧ s'.graph = s.graph ∧ s'.formals = s.formals) :
    Finds K H m fun _ _ => True := by
  intro p s t hs hc _
  obtain ⟨s', hm, hg, hf⟩ := h s
  refine ⟨_, p, s', t, hm, fun hK' => ?_, hs.grow (hg ▸ hs.shaped) (hg ▸ .refl _) hf,
    fun x hx => ?_, hg ▸ .refl _, fun _ _ => ⟨rfl, trivial⟩⟩
  · rw [Regime.strict, hK] at hK'
    cases hK'
  · rw [hK] at hx
    cases hx

theorem debug {message : String} {fields : List (String × String)} :
    Finds K H (Lowering.debug message fields) fun _ _ => True :=
  fun p _ _ hs hc _ => ⟨_, p, _, _, rfl, fun _ => rfl, ⟨hs.shaped, hs.formals⟩,
    fun x hx => (hc x hx).setLog _ _, .refl _, fun _ _ => ⟨rfl, trivial⟩⟩

/-- What changes the frame, but for the slots of arguments that are there. -/
theorem modifyFrame {f : Frame → Frame} (hfixed : ∀ fr, (f fr).fixed = fr.fixed)
    (hindex : ∀ fr, (f fr).byIndex = fr.byIndex) :
    Finds K H (Lowering.modifyFrame f) fun _ _ => True := by
  intro p s t hs hc _
  have hx : s.graph.Extends { s.graph with frame := f s.graph.frame } :=
    .reframe s.graph (hfixed _) (hindex _)
  refine ⟨_, p, _, { t with graph := { t.graph with frame := f t.graph.frame } }, rfl, fun _ => rfl,
    hs.grow (hs.shaped.of_nodes (hs.shaped.sound.of_frame _) hx rfl hs.shaped.root) hx rfl,
    fun x hK => ?_, ⟨hx, fun _ => rfl⟩, fun _ _ => ⟨rfl, trivial⟩⟩
  rw [(hc x hK).frame]
  exact (hc x hK).reframe hx

theorem setRoot (hq : ¬ K.quiet) (h : ∀ g, H g → OfType K g .chain o) :
    Finds K H (modify fun s => { s with graph := { s.graph with root := o } }) fun _ _ => True := by
  intro p s t hs hc hH
  obtain ⟨v, rfl, hv, ht⟩ := h s.graph (hH _ (.refl _))
  have hx := Graph.Extends.reroot s.graph (some v)
  refine ⟨_, p, _, { t with graph := { t.graph with root := some v } }, rfl, fun _ => rfl,
    hs.grow (hs.shaped.of_nodes (hs.shaped.sound.of_root hv.has) hx rfl fun l _ u hu vt hvt => ?_)
    hx rfl, fun x hK => ?_, ⟨hx, fun hK => absurd hK hq⟩, fun _ _ => ⟨rfl, trivial⟩⟩
  · cases hu
    cases ht.symm.trans hvt
    cases l <;> rfl
  · exact (hc x hK).reroot (hv.base x hK) hv.has (hv.plain (Regime.strict_iff.2 ⟨x, hK⟩))

/-- The values of parameters are remembered, which rest on legal nodes. -/
theorem setFormals {l : List (Option Value)} (h : ∀ g, H g → g.Sound → ∀ o ∈ l, Holds K g o ∧
      ∀ f v, o = some v → ∀ id, g.Reaches v.node id → IsLegal f g id) :
    Finds K H (modify fun s => { s with formals := some l }) fun _ _ => True := by
  intro p s t hs hc hH
  have hl := h s.graph (hH _ (.refl _)) hs.shaped.sound
  refine ⟨_, p, _, { t with formals := some l }, rfl,
    fun _ => rfl, ⟨hs.shaped, fun l' hl' o ho => ?_⟩, fun x hK => ?_, .refl _,
    fun _ _ => ⟨rfl, trivial⟩⟩
  · cases hl'
    exact (hl o ho).1.filled
  · refine (hc x hK).setFormals fun o ho => ?_
    obtain ⟨⟨v, rfl, hv⟩, hlegal⟩ := hl o ho
    exact ⟨v, rfl, hv.base x hK, hv.has, hv.plain (Regime.strict_iff.2 ⟨x, hK⟩), hlegal x.1 v rfl⟩

theorem createFixed {size offset : Int64} {immutable : Bool} {k : Int → Lowering β}
    (hk : ∀ i < 0, Finds K H (k i) R) :
    Finds K H (do
      let g ← Lowering.graph
      setGraph { g with frame := (g.frame.createFixed size offset immutable).1 }
      k (g.frame.createFixed size offset immutable).2) R := by
  intro p s t hs hc hH
  have hx := Graph.Extends.createFixed s.graph size offset immutable
  have hlt := createFixed_lt s.graph.frame size offset immutable
  obtain ⟨r, p', s', t', hr, ht, hs', hc', hx', hq⟩ := hk _ hlt p
    { s with
      graph := { s.graph with frame := (s.graph.frame.createFixed size offset immutable).1 } }
    { t with
      graph := { t.graph with frame := (s.graph.frame.createFixed size offset immutable).1 } }
    (hs.grow (hs.shaped.of_nodes (hs.shaped.sound.of_frame _) hx rfl hs.shaped.root) hx rfl)
    (fun x hK => (hc x hK).reframe hx)
    fun g hg => hH g (hx.trans hg)
  refine ⟨r, p', s', t', hr, fun hK => ?_, hs', hc', .trans ⟨hx, fun _ => rfl⟩ hx', hq⟩
  obtain ⟨x, hK'⟩ := Regime.strict_iff.1 hK
  have := ht hK
  rw [← (hc x hK').frame] at this
  exact this

theorem and_adds {P : α → Graph → Prop} (h : Finds K H m Q) (ha : Adds Graph.Sound m P) :
    Finds K H m fun a g => Q a g ∧ (g.Sound → P a g) := by
  intro p s t hs hc hH
  obtain ⟨r, p', s', t', hm, ht, hs', hc', hx, hr⟩ := h p s t hs hc hH
  refine ⟨r, p', s', t', hm, ht, hs', hc', hx, ?_⟩
  cases r with
  | error e => exact hr
  | ok a => exact fun g hg => ⟨(hr g hg).1, (hr g hg).2, (ha s a s' hm).2 g hg⟩

/-! ### New nodes -/

theorem newNode (h : ∀ g, H g → Addable K g op types operands payload) :
    Finds K H (build (·.newNode op types operands payload)) fun id g =>
      Made K g id ⟨op, types, (taken operands).map some, payload⟩ :=
  fun p => .newNode (fun _ => p) (fun g hg => (h g hg).toProper) (fun g hg => (h g hg).base)
    fun hK g hg hd => ((h g hg).sober hK).joins hd

theorem build_seq {h : Graph → Graph × α} {k : α → Graph → Graph × β} (hb : Finds K H (build h) Q)
    (hk : ∀ a, Finds K (fun g => H g ∧ Q a g) (build (k a)) R) :
    Finds K H (build fun g => k (h g).2 (h g).1) R := by
  show Finds K H (build h >>= fun a => build (k a)) R
  exact bind hb hk

theorem valueWith {h : Graph → Graph × Value} {Q : Option Value → Graph → Prop}
    (hb : Finds K H (build h) fun v g => Q (some v) g) : Finds K H (Lowering.value h) Q := by
  show Finds K H (build h >>= fun v => Pure.pure (some v)) _
  exact bind hb fun v => pure fun g hv => hv.2

theorem value {h : Graph → Graph × Value}
    (hb : Finds K H (build h) fun v g => OfType K g vt (some v)) :
    Finds K H (Lowering.value h) fun o g => OfType K g vt o :=
  valueWith hb

theorem result {h : Graph → Graph × Nat}
    (hb : Finds K H (build h) fun id g => OfType K g vt (some ⟨id, i⟩)) :
    Finds K H (Lowering.result i h) fun o g => OfType K g vt o := by
  show Finds K H (build h >>= fun id => Pure.pure (some (⟨id, i⟩ : Value))) _
  exact bind hb fun v => pure fun g hv => hv.2

theorem single {Q : Value → Graph → Prop} (h : ∀ g, H g → Addable K g op [vt] operands payload)
    (hq : ∀ id g, H g → Made K g id ⟨op, [vt], (taken operands).map some, payload⟩ → Q ⟨id, 0⟩ g) :
    Finds K H (build fun g => ((g.newNode op [vt] operands payload).1,
      (⟨(g.newNode op [vt] operands payload).2, 0⟩ : Value))) Q :=
  build_seq (h := (·.newNode op [vt] operands payload)) (k := fun id g => (g, (⟨id, 0⟩ : Value)))
    (newNode h) fun _ => pure fun g hg => hq _ g hg.1 hg.2

theorem isFree_of_isMade {k : Nat} (h : isMade op k vt) : isFree op := by
  rw [isMade, Bool.and_eq_true] at h
  exact isFree_of_isOrdinary h.2

theorem plain (hop : isMade op operands.length vt) (hvt : ∀ g, H g → K.Allows vt)
    (hv : ∀ g, H g → ∀ o ∈ operands, Data K g o) :
    Finds K H (build (·.single op vt operands)) fun v g => OfType K g vt (some v) :=
  single (fun g hg => .made (hv g hg) hop (hvt g hg)) fun _ g hg h =>
    h.ofType rfl (isFree_of_isMade hop) (hvt g hg).glue

theorem leafWith {Q : Value → Graph → Prop} (h : ∀ g, H g → Addable K g op [vt] [] payload)
    (hq : ∀ id g, H g → Made K g id ⟨op, [vt], [], payload⟩ → Q ⟨id, 0⟩ g) :
    Finds K H (build (·.leaf op vt payload)) Q :=
  build_seq (h := (·.newNode op [vt] [] payload)) (k :=
    fun id g => (g, (⟨id, 0⟩ : Value))) (newNode h) fun _ => pure fun g hg => hq _ g hg.1 hg.2

theorem leaf (hop : isMade op 0 vt) (hvt : ∀ g, H g → K.Allows vt) :
    Finds K H (build (·.leaf op vt payload)) fun v g => OfType K g vt (some v) :=
  leafWith (fun g hg => .made (by simp) hop (hvt g hg)) fun _ g hg h =>
    h.ofType rfl (isFree_of_isMade hop) (hvt g hg).glue

theorem word (hop : isMade op 0 .i32) :
    Finds K H (Lowering.value (·.leaf op .i32 payload)) fun o g => OfType K g .i32 o :=
  value (leaf hop fun _ _ => K.allows_word)

theorem link (hgives : op.gives [.chain])
    (hlink : (isChained op && !isName op && isOrdinary op) = true)
    (htyped : ∀ g, H g → Typed K g ⟨op, [.chain], (taken (chain :: operands)).map some, .none⟩)
    (hk : ∀ os, chainResult? ⟨op, [.chain], os, .none⟩ = some 0)
    (hop : arity op ≤ operands.length + 1) (hc : ∀ g, H g → Holds K g chain)
    (hr : ∀ g, H g → ∀ o ∈ operands, Beside K g op o) :
    Finds K H (Lowering.value (·.single op .chain (chain :: operands))) fun o g =>
    Link K g o chain := by
  have hfree : isFree op := isFree_of_isOrdinary (Bool.and_eq_true .. ▸ hlink).2
  refine valueWith (single (fun g hg => .chained [] [] (hc g hg) (fun o ho => .inr (hr g hg o ho))
    ?_ hgives hlink (htyped g hg) hk nofun) fun _ _ _ h => h.link rfl hfree)
  rw [length_taken (g := g) fun o ho => ?_]
  · exact hop
  · rcases List.mem_cons.1 ho with rfl | ho
    · exact (hc g hg).filled
    · exact (hr g hg o ho).holds.filled

theorem mapM {l : List α} {m : α → Lowering β} {R : α → β → Graph → Prop}
    (h : ∀ a ∈ l, Finds K H (m a) (R a)) :
    Finds K H (l.mapM m) fun bs g => List.Forall₂ (fun a b => R a b g) l bs := by
  induction l with
  | nil => exact pure fun g _ => .nil
  | cons a l ih =>
    rw [List.mapM_cons]
    refine bind (h a (by simp)) fun b =>
      bind ((ih fun a ha => h a (by simp [ha])).under fun _ => And.left) fun bs => ?_
    exact pure fun g hg => .cons hg.1.2 hg.2

/-- A loop with an invariant that knows what is done. -/
theorem foldlM_along {l p : List α} {m : β → α → Lowering β} {I : List α → β → Graph → Prop}
    (h : ∀ p, ∀ a ∈ l, ∀ b, Finds K (fun g => H g ∧ I p b g) (m b a) (I (p ++ [a]))) {b : β}
    (hb : ∀ g, H g → I p b g) : Finds K H (l.foldlM m b) (I (p ++ l)) := by
  induction l generalizing p b H with
  | nil =>
    rw [List.append_nil]
    exact pure hb
  | cons a l ih =>
    rw [List.foldlM_cons, List.append_cons]
    refine bind ((h p a (by simp) b).under fun g hg => ⟨hg, hb g hg⟩) fun b' => ?_
    exact ih (fun p a ha b => (h p a (by simp [ha]) b).under fun g hg => ⟨hg.1.1, hg.2⟩)
      fun g hg => hg.2

end Finds

namespace Settles

variable {H : Graph → Prop} {m : Lowering α} {k : α → Lowering β} {Q : α → Graph → Prop}
  {R : β → Graph → Prop}

theorem bind (h : Settles K H m Q) (hk : ∀ a, Settles K (fun g => H g ∧ Q a g) (k a) R) :
    Settles K H (m >>= k) R :=
  Goes.bind h fun a _ => .given (fun _ hg => hg.2.1) fun hp => hp ▸ (hk a).under
    fun _ hg => ⟨hg.1, hg.2.2⟩

theorem finds (h : Settles K H m Q) (hK : K.pairing = none) : Finds K H m Q := by
  intro p s t hs _ hH
  have hnone : ∀ p s t, K.Couples p s t := fun _ _ _ x hx => by simp [hK] at hx
  obtain ⟨r, p', s', t', hm, ht, hs', -, hx, hr⟩ := h s t hs (hnone _ _ _) hH
  refine ⟨r, p, s', t', hm, ht, hs', hnone _ _ _, hx, ?_⟩
  cases r with
  | error e => exact hr
  | ok a => exact fun g hg => ⟨rfl, (hr g hg).2⟩

end Settles

end GraphLowering.Usim
