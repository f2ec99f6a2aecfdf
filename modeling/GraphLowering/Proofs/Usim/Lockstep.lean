import GraphLowering.Proofs.Graph.Users
import GraphLowering.Proofs.Lower.Execution
import GraphLowering.Proofs.Usim.Discipline
import GraphLowering.Proofs.Usim.TailArguments

/-!
# Two sessions in step

A rule works on one node, its subject. It builds on values that do not depend on the subject. Two
sessions that have these values in common cannot be told apart by a rule: it gives the same outcome
on both, and what it adds keeps the discipline. `Coupled` relates the sessions, and it is kept by
what rules do to a session. A session may be coupled with itself, and then this is what a rule keeps
on one session.
-/

namespace GraphLowering.Usim

open GraphLowering.Graph (taken)
open Lower (Session Lowering)
open Lower.Lowering
open Subtarget (Features)

/-- A node that is legal with the types it has. -/
def IsLegal (f : Features) (g : Graph) (id : Nat) : Prop :=
  ∃ types, g.nodeTypes? id = some types ∧ classify f (g.node id).op types = .legal

theorem isLegal_congr {f : Features} {g g' : Graph} {id : Nat} (hn : g'.node id = g.node id)
    (ht : ∀ v, some v ∈ (g.node id).operands → g'.type? v = g.type? v) :
    IsLegal f g' id ↔ IsLegal f g id := by
  rw [IsLegal, IsLegal, Graph.nodeTypes?_congr hn ht, hn]

/-- A value that rests on legal nodes only, which no rewrite changes. -/
structure Secure (f : Features) (g : Graph) (v : Value) : Prop where
  has : g.Has v
  plain : Plain g v
  legal : ∀ id, g.Reaches v.node id → IsLegal f g id

/-- A session between two steps: the discipline holds, and the values of the parameters are
secure. -/
structure Steady (f : Features) (p : Option Nat) (s : Session) : Prop where
  disciplined : Disciplined p s.graph
  formals : ∀ vs, s.formals = some vs → ∀ o ∈ vs, ∃ v, o = some v ∧ Secure f s.graph v

/-- Operations whose operands a rule looks at when it comes to them. -/
def isTransparent : Opcode → Bool
  | .buildPair | .target 4 => true
  | _ => false

theorem takesPlain_of_isTransparent {op : Opcode} (h : isTransparent op) : takesPlain op := by
  unfold isTransparent at h
  split at h <;> first | rfl | cases h

/-- What a rule may look at and what it may build on. -/
structure Scope where
  /-- The nodes from here on are those that the rule adds. -/
  start : Nat
  /-- The nodes that the sessions have in common. -/
  shared : Nat → Prop
  /-- The nodes that a rule may build on. -/
  base : Nat → Prop
  /-- The node that the rule is for. -/
  subject : Nat
  shared_of_base : ∀ {id}, base id → shared id
  base_entry : base Graph.entry.node
  shared_subject : shared subject
  not_base_subject : ¬ base subject

structure Coupled (f : Features) (c : Scope) (p : Option Nat) (s t : Session) : Prop where
  left : Steady f p s
  right : Steady f p t
  size : t.graph.entries.size = s.graph.entries.size
  signature : t.graph.signature = s.graph.signature
  frame : t.graph.frame = s.graph.frame
  root : t.graph.root = s.graph.root
  formals : t.formals = s.formals
  target : t.target = s.target
  opName : t.opName = s.opName
  node : ∀ id, c.shared id → t.graph.node id = s.graph.node id
  contains : ∀ id, c.shared id → t.graph.contains id = s.graph.contains id
  /-- The second session has nothing else. -/
  only : ∀ id, t.graph.contains id → c.shared id
  closed : ∀ id v, c.shared id → some v ∈ (s.graph.node id).operands → c.shared v.node
  /-- What is looked at through a node that may be built on may be built on. -/
  down : ∀ id v, c.base id → isTransparent (s.graph.node id).op →
    some v ∈ (s.graph.node id).operands → c.base v.node
  added : ∀ id v, c.start ≤ id → some v ∈ (s.graph.node id).operands → c.base v.node
  apart : ∀ id, c.base id → ¬ s.graph.Reaches id c.subject
  fresh : ∀ id, s.graph.entries.size ≤ id → c.base id
  shared_root : ∀ v, s.graph.root = some v → c.shared v.node
  subject : s.graph.contains c.subject
  illegal : ¬ IsLegal f s.graph c.subject
  operands : ∀ v, some v ∈ (s.graph.node c.subject).operands → c.base v.node
  formals_base : ∀ vs, s.formals = some vs → ∀ v, some v ∈ vs → c.base v.node
  /-- What reads incoming slots may be built on. -/
  reads : ∀ id v, s.graph.contains id → (s.graph.node id).op = .load →
    (s.graph.node id).operands[1]? = some (some v) → IsSlot s.graph v.node → c.base id
  /-- What takes the address of an incoming slot is in both sessions. -/
  slots : ∀ id v, s.graph.contains id → some v ∈ (s.graph.node id).operands →
    IsSlot s.graph v.node → c.shared id
  /-- A call that may end the function has the same users in both. -/
  users : (s.graph.node c.subject).op = .call →
    ∀ info, (s.graph.node c.subject).callInfo? = some info → info.tail → ∀ i,
    t.graph.valueUsers (some ⟨c.subject, i⟩) = s.graph.valueUsers (some ⟨c.subject, i⟩)

variable {f : Features} {c : Scope} {v w : Value} {id i : Nat}

/-! ### Growing couples -/

variable {p p' : Option Nat} {s t : Session} {g g' g₁ g₂ : Graph}

theorem isLegal_extends (hx : g.Extends g') (hs : g.Sound) (hid : g.contains id) :
    IsLegal f g' id ↔ IsLegal f g id :=
  isLegal_congr (hx.node id (Graph.contains_lt hid)) fun _ hv =>
    hx.type? (hs.has_operand hid hv).lt

theorem alike_extends (hx : g.Extends g') (hid : id < g.entries.size) :
    Alike (g.node id) (g'.node id) := by
  rw [hx.node id hid]
  exact .refl _

theorem Secure.extends (h : Secure f g v) (hs : g.Sound) (hx : g.Extends g') : Secure f g' v := by
  refine ⟨hx.has h.has, (alike_extends hx h.has.lt).plain h.plain, fun id hid => ?_⟩
  have hid' : g.Reaches v.node id := (hx.reaches_iff hs h.has.lt).1 hid
  exact (isLegal_extends hx hs (hs.contains_of_reaches h.has.1 hid')).2 (h.legal id hid')

theorem Steady.grow (h : Steady f p s) (hx : s.graph.Extends g') (hd : Disciplined p' g') :
    Steady f p' { s with graph := g' } :=
  ⟨hd, fun vs hvs o ho => (h.formals vs hvs o ho).imp fun _ hv =>
    ⟨hv.1, hv.2.extends h.disciplined.sound hx⟩⟩

/-- Couples may grow by the same nodes on the same base, and get the same root and frame. -/
theorem Coupled.grow (h : Coupled f c p s t) (hx₁ : s.graph.Extends g₁) (hx₂ : t.graph.Extends g₂)
    (hd₁ : Disciplined p' g₁) (hd₂ : Disciplined p' g₂)
    (hsize : g₂.entries.size = g₁.entries.size) (hframe : g₂.frame = g₁.frame)
    (hroot : g₂.root = g₁.root) (hshared : ∀ v, g₁.root = some v → c.shared v.node)
    (hnew : ∀ id, s.graph.entries.size ≤ id → g₂.node id = g₁.node id ∧
      g₂.contains id = g₁.contains id ∧ ∀ v, some v ∈ (g₁.node id).operands → c.base v.node) :
    Coupled f c p' { s with graph := g₁ } { t with graph := g₂ } := by
  have hs := h.left.disciplined.sound
  have hlt : ∀ {id}, id < s.graph.entries.size → id < t.graph.entries.size := fun h' =>
    h.size ▸ h'
  have hsub := Graph.contains_lt h.subject
  refine {
    left := h.left.grow hx₁ hd₁
    right := h.right.grow hx₂ hd₂
    size := hsize
    signature := by rw [hx₂.signature, hx₁.signature, h.signature]
    frame := hframe
    root := hroot
    formals := h.formals
    target := h.target
    opName := h.opName
    node := fun id hid => ?_
    contains := fun id hid => ?_
    only := fun id hid => ?_
    closed := fun id v hid hv => ?_
    down := fun id v hid hop hv => ?_
    added := fun id v hid hv => ?_
    apart := fun id hid hr => ?_
    fresh := fun id hid => h.fresh id (hx₁.size.trans hid)
    shared_root := hshared
    subject := (hx₁.contains _ hsub).trans h.subject
    illegal := fun hl => h.illegal ((isLegal_extends hx₁ hs h.subject).1 hl)
    operands := fun v hv => h.operands v (hx₁.node _ hsub ▸ hv)
    formals_base := h.formals_base
    reads := fun id v hid hop hv hslot => ?_
    slots := fun id v hid hv hslot => ?_
    users := fun hop info hi ht i => ?_ }
  · by_cases hid' : id < s.graph.entries.size
    · rw [hx₂.node id (hlt hid'), hx₁.node id hid', h.node id hid]
    · exact (hnew id (Nat.le_of_not_lt hid')).1
  · by_cases hid' : id < s.graph.entries.size
    · rw [hx₂.contains id (hlt hid'), hx₁.contains id hid', h.contains id hid]
    · exact (hnew id (Nat.le_of_not_lt hid')).2.1
  · by_cases hid' : id < s.graph.entries.size
    · exact h.only id (hx₂.contains id (hlt hid') ▸ hid)
    · exact c.shared_of_base (h.fresh id (Nat.le_of_not_lt hid'))
  · by_cases hid' : id < s.graph.entries.size
    · exact h.closed id v hid (hx₁.node id hid' ▸ hv)
    · exact c.shared_of_base ((hnew id (Nat.le_of_not_lt hid')).2.2 v hv)
  · by_cases hid' : id < s.graph.entries.size
    · exact h.down id v hid (hx₁.node id hid' ▸ hop) (hx₁.node id hid' ▸ hv)
    · exact (hnew id (Nat.le_of_not_lt hid')).2.2 v hv
  · by_cases hid' : id < s.graph.entries.size
    · exact h.added id v hid (hx₁.node id hid' ▸ hv)
    · exact (hnew id (Nat.le_of_not_lt hid')).2.2 v hv
  · -- a way from a new node to the subject goes through an old node of the base
    have hold : ∀ a, c.base a → a < s.graph.entries.size → ¬ g₁.Reaches a c.subject :=
      fun a ha hlt hr => h.apart a ha ((hx₁.reaches_iff hs hlt).1 hr)
    clear hlt
    induction hr using Relation.ReflTransGen.head_induction_on with
    | refl => exact c.not_base_subject hid
    | @head a b hn hr ih =>
      by_cases ha : a < s.graph.entries.size
      · exact hold a hid ha (hr.head hn)
      · obtain ⟨-, i, hi⟩ := Graph.needs_iff.1 hn
        exact ih ((hnew a (Nat.le_of_not_lt ha)).2.2 _ hi)
  · by_cases hid' : id < s.graph.entries.size
    · have hc : s.graph.contains id := hx₁.contains id hid' ▸ hid
      have hop' : (s.graph.node id).op = .load := hx₁.node id hid' ▸ hop
      have hv' : (s.graph.node id).operands[1]? = some (some v) := hx₁.node id hid' ▸ hv
      have hvlt := (hs.has_operand hc (List.mem_of_getElem? hv')).lt
      exact h.reads id v hc hop' hv' ((alike_extends hx₁ hvlt).isSlot.1 hslot)
    · exact h.fresh id (Nat.le_of_not_lt hid')
  · by_cases hid' : id < s.graph.entries.size
    · have hc : s.graph.contains id := hx₁.contains id hid' ▸ hid
      have hv' : some v ∈ (s.graph.node id).operands := hx₁.node id hid' ▸ hv
      have hvlt := (hs.has_operand hc hv').lt
      exact h.slots id v hc hv' ((alike_extends hx₁ hvlt).isSlot.1 hslot)
    · exact c.shared_of_base (h.fresh id (Nat.le_of_not_lt hid'))
  · -- the new nodes do not take the subject
    have hfree : ∀ a, s.graph.entries.size ≤ a → some ⟨c.subject, i⟩ ∉ (g₁.node a).operands :=
      fun a ha hmem => c.not_base_subject ((hnew a ha).2.2 _ hmem)
    have hop' : (s.graph.node c.subject).op = .call := hx₁.node _ hsub ▸ hop
    have hi' : (s.graph.node c.subject).callInfo? = some info := hx₁.node _ hsub ▸ hi
    show g₂.valueUsers _ = g₁.valueUsers _
    rw [hx₁.valueUsers hs.exact hd₁.sound.exact hfree,
      hx₂.valueUsers h.right.disciplined.sound.exact hd₂.sound.exact fun a ha => ?_,
      h.users hop' info hi' ht i]
    rw [(hnew a (h.size ▸ ha)).1]
    exact hfree a (h.size ▸ ha)

variable {op : Opcode} {types : List ValueType} {operands : List (Option Value)} {payload : Payload}

theorem Coupled.newNode (h : Coupled f c p s t)
    (hj : Joins s.graph p p' op types operands payload)
    (hb : ∀ v ∈ taken operands, c.base v.node) :
    Coupled f c p' { s with graph := (s.graph.newNode op types operands payload).1 }
      { t with graph := (t.graph.newNode op types operands payload).1 } := by
  have hj' : Joins t.graph p p' op types operands payload := hj.congr h.size
    (fun v hv => h.node _ (c.shared_of_base (hb v hv)))
    fun v hv => h.contains _ (c.shared_of_base (hb v hv))
  refine h.grow (.newNode ..) (.newNode ..) (h.left.disciplined.newNode hj)
    (h.right.disciplined.newNode hj') (by simp [h.size]) (by simp [h.frame]) (by simp [h.root])
    (by simpa using h.shared_root) fun id hid => ?_
  rw [Graph.node_newNode, Graph.node_newNode, Graph.contains_newNode,
    Graph.contains_newNode, h.size]
  by_cases he : id = s.graph.entries.size
  · simpa [he] using hb
  · have hlt : s.graph.entries.size < id := by omega
    simp [he, Graph.node_of_le, Graph.contains_of_le, Nat.le_of_lt hlt, h.size]
    exact fun v hv => absurd hv (by simp [default, instInhabitedNode.default])

variable {vs : List (Option Value)}

namespace Coupled

theorem setLog (h : Coupled f c p s t) (l₁ l₂ : Array LogRecord) :
    Coupled f c p { s with log := l₁ } { t with log := l₂ } :=
  { h with left := ⟨h.left.1, h.left.2⟩, right := ⟨h.right.1, h.right.2⟩ }

theorem beyond (h : Coupled f c p s t) (hid : s.graph.entries.size ≤ id) :
    t.graph.node id = s.graph.node id ∧ t.graph.contains id = s.graph.contains id ∧
      ∀ v, some v ∈ (s.graph.node id).operands → c.base v.node := by
  have hid' : t.graph.entries.size ≤ id := h.size ▸ hid
  rw [Graph.node_of_le hid, Graph.node_of_le hid', Graph.contains_of_le hid,
    Graph.contains_of_le hid']
  exact ⟨rfl, rfl, fun v hv => by cases hv⟩

theorem reframe (h : Coupled f c p s t) {fr : Frame}
    (hx : s.graph.Extends { s.graph with frame := fr }) :
    Coupled f c p { s with graph := { s.graph with frame := fr } }
      { t with graph := { t.graph with frame := fr } } := by
  have hx₂ : t.graph.Extends { t.graph with frame := fr } :=
    ⟨Nat.le_refl _, fun _ _ => rfl, fun _ _ => rfl, rfl, h.frame ▸ hx.frame⟩
  have hfr := hx.frame h.left.disciplined.frame
  exact h.grow hx hx₂ (h.left.disciplined.of_frame hfr) (h.right.disciplined.of_frame hfr)
    h.size rfl h.root h.shared_root fun _ hid => h.beyond hid

theorem has_right (h : Coupled f c p s t) (hv : c.shared v.node) (hhas : s.graph.Has v) :
    t.graph.Has v := by
  rw [Graph.Has, Graph.type?_eq, h.node _ hv, h.contains _ hv, ← Graph.type?_eq]
  exact hhas

theorem plain_right (h : Coupled f c p s t) (hv : c.shared v.node) (hp : Plain s.graph v) :
    Plain t.graph v :=
  Alike.plain (h.node _ hv ▸ .refl _) hp

theorem reroot (h : Coupled f c p s t) (hb : c.base v.node) (hv : s.graph.Has v)
    (hp : Plain s.graph v) :
    Coupled f c p { s with graph := { s.graph with root := some v } }
      { t with graph := { t.graph with root := some v } } := by
  have hs := c.shared_of_base hb
  exact h.grow (.reroot ..) (.reroot ..) (h.left.disciplined.of_root hv hp)
    (h.right.disciplined.of_root (h.has_right hs hv) (h.plain_right hs hp)) h.size h.frame rfl
    (fun w hw => by cases hw; exact hs) fun _ hid => h.beyond hid

/-- Below shared nodes the sessions are the same. -/
theorem reaches_right {a b : Nat} (h : Coupled f c p s t) (ha : c.shared a)
    (hr : t.graph.Reaches a b) : c.shared b ∧ s.graph.Reaches a b := by
  induction hr with
  | refl => exact ⟨ha, .refl⟩
  | tail _ hn ih =>
    obtain ⟨hs, hr⟩ := ih
    rw [Graph.needs_iff, h.node _ hs, h.contains _ hs, ← Graph.needs_iff] at hn
    obtain ⟨-, i, hi⟩ := Graph.needs_iff.1 hn
    exact ⟨h.closed _ _ hs hi, hr.tail hn⟩

theorem isLegal_right (h : Coupled f c p s t) (hs : c.shared id) :
    IsLegal f t.graph id ↔ IsLegal f s.graph id :=
  isLegal_congr (h.node id hs) fun v hv => by
    rw [Graph.type?_eq, Graph.type?_eq, h.node _ (h.closed id v hs hv)]

theorem setFormals (h : Coupled f c p s t)
    (hvs : ∀ o ∈ vs, ∃ v, o = some v ∧ c.base v.node ∧ Secure f s.graph v) :
    Coupled f c p { s with formals := some vs } { t with formals := some vs } := by
  refine { h with
    left := ⟨h.left.1, fun vs' hvs' o ho => ?_⟩
    right := ⟨h.right.1, fun vs' hvs' o ho => ?_⟩
    formals := rfl
    formals_base := fun vs' hvs' v hv => ?_ }
  · cases hvs'
    obtain ⟨v, rfl, -, hv⟩ := hvs o ho
    exact ⟨v, rfl, hv⟩
  · cases hvs'
    obtain ⟨v, rfl, hb, hhas, hp, hl⟩ := hvs o ho
    have hs := c.shared_of_base hb
    refine ⟨v, rfl, h.has_right hs hhas, h.plain_right hs hp, fun id hid => ?_⟩
    obtain ⟨hs', hr⟩ := h.reaches_right hs hid
    exact (h.isLegal_right hs').2 (hl id hr)
  · cases hvs'
    obtain ⟨v', hv', hb, -⟩ := hvs _ hv
    cases hv'
    exact hb


end Coupled

theorem createFixed_lt (fr : Frame) (size offset : Int64) (immutable : Bool) :
    (fr.createFixed size offset immutable).2 < 0 := by
  show -((fr.fixed.size : Int) + 1) < 0
  omega

/-! ### What rests on slots -/

/-- An operation that is legal on words is legal where there are words only. -/
theorem classify_words {types : List ValueType} (hw : wordAction? f op = some .legal)
    (ht : ∀ vt ∈ types, vt ≠ .i128 ∧ vt.isWide = false) : classify f op types = .legal := by
  have hnone : (types.find? fun vt => vt = .i128 || vt.isWide) = none := by
    rw [List.find?_eq_none]
    intro vt hvt
    simp [ht vt hvt]
  simp only [classify, hw, hnone]
  split
  · rfl
  · split <;> rfl

theorem isLegal_of_slot (h : Disciplined p g) (hid : g.contains id)
    (ho : (g.node id).operands[i]? = some (some v)) (hs : IsSlot g v.node)
    (hop : (g.node id).op ≠ .store) : IsLegal f g id := by
  have htype : ∀ u k, some u ∈ (g.node id).operands → (g.node u.node).types = [k] →
      g.type? u = some k := by
    intro u k hu hk
    have hhas := (h.sound.has_operand hid hu).2
    rw [Graph.type?_eq, hk] at hhas ⊢
    match hr : u.result with
    | 0 => rfl
    | r + 1 => simp [hr] at hhas
  have hv := htype v .i32 (List.mem_of_getElem? ho) (h.slot _ hs).1
  cases h.takes id hid i v ho with
  | plain hp => exact absurd hs hp.slot
  | mark hp => exact absurd hs hp.slot
  | fence hp => exact absurd hs hp.slot
  | glue hc _ ht =>
    rw [hv] at ht
    cases ht
  | copy hc =>
    have := hs.1
    rw [hc] at this
    cases this
  | store _ hx => exact absurd hx hop
  | load _ hx hl vt ht hvt =>
    have hentry : g.type? Graph.entry = some .chain := by
      rw [Graph.type?_eq, h.sound.entry.2]
      rfl
    refine ⟨[vt, .chain, .i32], ?_, ?_⟩
    · simp [Graph.nodeTypes?, hl, ht, Graph.operandType?, hentry, hv, ValueType.isToken]
    · refine classify_words (by rw [hx]; rfl) ?_
      simp only [List.mem_cons, List.not_mem_nil, or_false, forall_eq_or_imp, forall_eq]
      exact ⟨hvt, by decide, by decide⟩
  | add _ hx ht k hl hk =>
    have hkt := htype k .i32 (by simp [hl]) hk.2.1
    refine ⟨[.i32, .i32, .i32], ?_, ?_⟩
    · simp [Graph.nodeTypes?, hl, ht, Graph.operandType?, hkt, hv, ValueType.isToken]
    · exact classify_words (by rw [hx]; rfl) (by simp [ValueType.isWide])

/-! ### The operands of the subject -/

/-- Operations whose nodes may be replaced by what is built on their operands. -/
def isRewritten : Opcode → Bool
  | .argument | .call | .ret | .brCC | .brCond | .setCC | .frameAddr | .returnAddr | .select
  | .selectCC | .constant | .undef | .load | .store | .add | .sub | .and | .or | .xor
  | .zeroExtend | .signExtend | .truncate => true
  | _ => false

theorem isRewritten_spec (h : isRewritten op) :
    endsCopies op = false ∧ givesGlue op = false := by
  cases op <;> first | exact ⟨rfl, rfl⟩ | cases h

/-- Whether a node reads an incoming slot. -/
def isIncomingLoad (g : Graph) (id : Nat) : Bool :=
  (g.node id).op = .load && ((g.node id).operands[1]?.join).any fun v =>
    (g.node v.node).op = .frameIndex && g.frame.isFixed (g.node v.node).index

theorem isIncomingLoad_iff {g : Graph} : isIncomingLoad g id ↔ (g.node id).op = .load ∧
    ∃ v, (g.node id).operands[1]? = some (some v) ∧ (g.node v.node).op = .frameIndex ∧
      g.frame.isFixed (g.node v.node).index := by
  simp [isIncomingLoad, Option.any_eq_true, Option.join_eq_some_iff]


/-- The loads are found without fail, since each has a pointer. -/
theorem outcome_incomingLoads (h : s.graph.Sound)
    (hload : ∀ id, s.graph.contains id → (s.graph.node id).op = .load →
      2 ≤ (s.graph.node id).operands.length) :
    outcome incomingLoads s =
      (.ok ((s.graph.nodes.filter (isIncomingLoad s.graph)).map fun id => some ⟨id, 1⟩), s) := by
  suffices ∀ (ids : List Nat) (chains : List (Option Value)), (∀ id ∈ ids, s.graph.contains id) →
      outcome (ids.foldlM (fun chains id => do
        if (s.graph.node id).op ≠ .load then return chains
        let ptr ← nodeOf (← operand id 1)
        if ptr.op = .frameIndex && s.graph.frame.isFixed ptr.index then
          return chains ++ [some ⟨id, 1⟩]
        else return chains) chains) s =
      (.ok (chains ++ (ids.filter (isIncomingLoad s.graph)).map fun id => some ⟨id, 1⟩), s) from
    this s.graph.nodes [] fun id hid => h.contains_of_mem_nodes hid
  intro ids
  induction ids with
  | nil =>
    intro chains _
    simp
  | cons id ids ih =>
    intro chains hids
    have hid := hids id (by simp)
    rw [List.foldlM_cons, outcome_bind]
    by_cases hop : (s.graph.node id).op = .load
    · obtain ⟨o', hops⟩ : ∃ o, (s.graph.node id).operands[1]? = some o :=
        ⟨_, List.getElem?_eq_getElem (hload id hid hop)⟩
      obtain ⟨v, rfl, -⟩ := h.operands id hid o' (List.mem_of_getElem? hops)
      have hread : outcome (operand id 1) s = (.ok (some v), s) := by simp [hops, required]
      have hnode : outcome (nodeOf (some v)) s = (.ok (s.graph.node v.node), s) := rfl
      have hin : isIncomingLoad s.graph id = ((s.graph.node v.node).op = .frameIndex &&
          s.graph.frame.isFixed (s.graph.node v.node).index) := by
        simp [isIncomingLoad, hop, hops]
      simp only [hop, ne_eq, not_true_eq_false, if_false, outcome_bind, hread, hnode, ← hin]
      have hrest := fun chains => ih chains fun id hid => hids id (by simp [hid])
      by_cases hmem : isIncomingLoad s.graph id
      · simp only [hmem, if_true, outcome_pure, hrest, List.filter_cons_of_pos, List.map_cons,
          List.append_assoc, List.singleton_append]
      · simp only [hmem, if_false, outcome_pure, hrest, Bool.false_eq_true,
          List.filter_cons_of_neg, not_false_eq_true]
    · have hno : isIncomingLoad s.graph id = false := by simp [isIncomingLoad, hop]
      simp only [ne_eq, hop, not_false_eq_true, if_true, outcome_pure, hno, Bool.false_eq_true,
        List.filter_cons_of_neg]
      exact ih chains fun id hid => hids id (by simp [hid])

namespace Coupled

variable (h : Coupled f c p s t)
include h

theorem sound : s.graph.Sound := h.left.disciplined.sound

/-- The operands of a subject that a rule is for are plain, but for the slot that it may store
to. -/
theorem subject_operand (hop : isRewritten (s.graph.node c.subject).op)
    (ho : (s.graph.node c.subject).operands[i]? = some (some v)) :
    Plain s.graph v ∨ ((s.graph.node c.subject).op = .store ∧ i = 2) ∧ IsSlot s.graph v.node := by
  obtain ⟨hends, hgives⟩ := isRewritten_spec hop
  have hslot : IsSlot s.graph v.node → (s.graph.node c.subject).op = .store := fun hs => by
    by_contra hne
    exact h.illegal (isLegal_of_slot h.left.disciplined h.subject ho hs hne)
  cases h.left.disciplined.takes _ h.subject i v ho with
  | plain hp => exact .inl hp
  | mark hp => exact .inl hp
  | fence hp => exact .inl hp
  | glue _ hx => rw [followsCall_eq_false hgives] at hx; cases hx
  | copy _ _ hx => rw [hends] at hx; cases hx
  | load hs hx => rw [hslot hs] at hx; cases hx
  | store hs hx _ hi => exact .inr ⟨⟨hx, hi⟩, hs⟩
  | add hs hx => rw [hslot hs] at hx; cases hx

theorem sameNodes : SameNodes c.shared s.graph t.graph :=
  ⟨h.node, fun id hid v hv => h.closed id v hid hv, h.frame⟩

theorem sameCall (hop : (s.graph.node c.subject).op = .call) :
    SameCall c.shared c.subject s.graph t.graph := by
  refine ⟨h.sameNodes, c.shared_subject, h.root, h.shared_root, h.signature,
    fun info hinfo htail ret o _ ho => ?_⟩
  cases o with
  | none => rw [h.right.disciplined.sound.valueUsers_none, h.sound.valueUsers_none]
  | some v =>
    obtain ⟨n, i⟩ := v
    obtain rfl : n = c.subject := ho _ rfl
    rw [h.users hop info hinfo htail i]

/-- The second session has the nodes of the first that are shared, in the same order. -/
theorem nodes_right : t.graph.nodes = s.graph.nodes.filter t.graph.contains := by
  refine h.sound.nodes_part h.right.disciplined.sound (fun id hid => ?_) fun a b ha => ?_
  · rwa [h.contains id (h.only id hid)] at hid
  · have hs := h.only a ha
    rw [Graph.needs_iff, Graph.needs_iff, h.node a hs, h.contains a hs]

theorem base_incomingLoad (hid : s.graph.contains id) (hl : isIncomingLoad s.graph id) :
    c.base id := by
  obtain ⟨hop, v, hv, hfi, hfixed⟩ := isIncomingLoad_iff.1 hl
  exact h.reads id v hid hop hv ⟨hfi, h.left.disciplined.lt_of_isFixed hfixed⟩

/-- Both sessions read the same incoming slots. -/
theorem incomingLoads_right : t.graph.nodes.filter (isIncomingLoad t.graph) =
    s.graph.nodes.filter (isIncomingLoad s.graph) := by
  rw [h.nodes_right, List.filter_filter]
  refine List.filter_congr fun id hid => ?_
  have hid' := h.sound.contains_of_mem_nodes hid
  rw [Bool.eq_iff_iff, Bool.and_eq_true]
  have hiff : ∀ hs : c.shared id, isIncomingLoad t.graph id ↔ isIncomingLoad s.graph id := by
    intro hs
    rw [isIncomingLoad_iff, isIncomingLoad_iff, h.node id hs, h.frame]
    refine and_congr_right fun _ => exists_congr fun v => and_congr_right fun hv => ?_
    rw [h.node _ (h.closed id v hs (List.mem_of_getElem? hv))]
  constructor
  · rintro ⟨hl, hr⟩
    exact (hiff (h.only id hr)).1 hl
  · intro hl
    have hs := c.shared_of_base (h.base_incomingLoad hid' hl)
    exact ⟨(hiff hs).2 hl, (h.contains id hs).trans hid'⟩

end Coupled

end GraphLowering.Usim
