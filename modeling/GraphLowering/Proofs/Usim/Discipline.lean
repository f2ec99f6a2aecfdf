import GraphLowering.Proofs.Graph.Dependence
import GraphLowering.Usim.Legality

/-!
# Glue and incoming slots

While a function is lowered, glue is taken in one way only: a copy into a register gives its chain
and its glue to the one node behind it, and what reads registers after a call takes glue from the
node that it is chained to. The slots in which the caller left arguments are read at the entry only.
`Disciplined` states this together with soundness and acyclicity. It is kept by new nodes, by
replacements and by a new chain operand; the conditions on these are what rules have to meet.
-/

namespace GraphLowering.Usim

open GraphLowering.Graph (taken)

/-- Operations that give glue. -/
def givesGlue : Opcode → Bool
  | .copyToReg | .copyFromReg | .callSeqEnd | .target 2 => true
  | _ => false

/-- Operations that take the glue of a copy into a register. -/
def endsCopies : Opcode → Bool
  | .copyToReg | .target 1 | .target 2 | .target 5 => true
  | _ => false

/-- Operations that read what a call or the entry left. -/
def followsCall : Opcode → Bool
  | .callSeqEnd | .copyFromReg => true
  | _ => false

/-- Operations to which those are chained. -/
def isFence : Opcode → Bool
  | .entryToken | .callSeqStart | .callSeqEnd | .copyFromReg | .target 2 => true
  | _ => false

/-- Operations of the machine that choose by a condition. -/
def isChoice : Opcode → Bool
  | .target 3 | .target 4 => true
  | _ => false

variable {g g' : Graph} {n i : Nat} {v w : Value} {x : Node} {p p' : Option Nat}

def IsCopy (g : Graph) (id : Nat) : Prop := (g.node id).op = .copyToReg

/-- The address of a slot in the area of incoming arguments. -/
def IsSlot (g : Graph) (id : Nat) : Prop := (g.node id).op = .frameIndex ∧ (g.node id).index < 0

/-- Leaves that only name something. -/
def IsMark (g : Graph) (id : Nat) : Prop :=
  (g.node id).operands = [] ∧ ((g.node id).op = .register ∨ (g.node id).op = .targetConstant)

def IsWordConstant (g : Graph) (id : Nat) : Prop :=
  (g.node id).op = .constant ∧ (g.node id).types = [.i32] ∧ (g.node id).operands = []

/-- Values that every operation may take. -/
structure Plain (g : Graph) (v : Value) : Prop where
  type : g.type? v ≠ some .glue
  copy : ¬ IsCopy g v.node
  slot : ¬ IsSlot g v.node

/-- How operand number `i` of a node may be `v`. -/
inductive Takes (g : Graph) (x : Node) (i : Nat) (v : Value) : Prop where
  | plain (h : Plain g v) (hx : followsCall x.op = false)
  | mark (h : Plain g v) (hm : IsMark g v.node)
  | fence (h : Plain g v) (hf : isFence (g.node v.node).op) (ht : g.type? v = some .chain)
      (hi : i = 0)
  | glue (hc : ¬ IsCopy g v.node) (hx : followsCall x.op) (ht : g.type? v = some .glue) (hi : i ≠ 0)
      (k : Nat) (h0 : x.operands[0]? = some (some ⟨v.node, k⟩))
  | copy (hc : IsCopy g v.node) (ht : (g.node v.node).types = [.chain, .glue])
      (hx : endsCopies x.op) (h0 : x.operands[0]? = some (some ⟨v.node, 0⟩))
      (h1 : some ⟨v.node, 1⟩ ∈ x.operands)
  | load (hs : IsSlot g v.node) (hx : x.op = .load) (ho : x.operands = [some Graph.entry, some v])
      (vt : ValueType) (ht : x.types = [vt, .chain]) (hvt : vt ≠ .i128 ∧ vt.isWide = false)
  | store (hs : IsSlot g v.node) (hx : x.op = .store) (ht : x.types = [.chain]) (hi : i = 2)
  | add (hs : IsSlot g v.node) (hx : x.op = .add) (ht : x.types = [.i32]) (c : Value)
      (ho : x.operands = [some v, some c]) (hc : IsWordConstant g c.node) (hr : c.result = 0)

/-- Every operand is taken in its way, and what waits for the node behind it, if anything, is a copy
into a register. -/
structure Disciplined (p : Option Nat) (g : Graph) : Prop where
  sound : g.Sound
  acyclic : g.Acyclic
  gives : ∀ id, .glue ∈ (g.node id).types ↔ givesGlue (g.node id).op
  takes : ∀ id, g.contains id → ∀ i v, (g.node id).operands[i]? = some (some v) →
    Takes g (g.node id) i v
  alone : ∀ y a b, IsCopy g y → g.Needs a y → g.Needs b y → a = b
  pending : ∀ y, p = some y → g.contains y ∧ IsCopy g y ∧ (g.node y).types = [.chain, .glue] ∧
    ∀ a, ¬ g.Needs a y
  root : ∀ v, g.root = some v → Plain g v
  slot : ∀ id, IsSlot g id → (g.node id).types = [.i32] ∧ (g.node id).operands = []
  load : ∀ id, (g.node id).op = .load → (g.node id).operands.length = 2
  choice : ∀ id, isChoice (g.node id).op → (g.node id).types.length = 1
  frame : Graph.FixedBelow g.frame

/-! ### Nodes that differ in their operands only -/

/-- The same node, perhaps with other operands in place of those it has. -/
structure Alike (x y : Node) : Prop where
  op : y.op = x.op
  types : y.types = x.types
  payload : y.payload = x.payload
  leaf : x.operands = [] → y.operands = []

namespace Alike

theorem refl (x : Node) : Alike x x := ⟨rfl, rfl, rfl, id⟩

variable {id : Nat}

theorem isCopy (h : Alike (g.node id) (g'.node id)) : IsCopy g' id ↔ IsCopy g id := by
  rw [IsCopy, IsCopy, h.op]

theorem isSlot (h : Alike (g.node id) (g'.node id)) : IsSlot g' id ↔ IsSlot g id := by
  rw [IsSlot, IsSlot, h.op, Node.index, Node.index, h.payload]

theorem isMark (h : Alike (g.node id) (g'.node id)) (hm : IsMark g id) : IsMark g' id :=
  ⟨h.leaf hm.1, h.op ▸ hm.2⟩

theorem isWordConstant (h : Alike (g.node id) (g'.node id)) (hc : IsWordConstant g id) :
    IsWordConstant g' id :=
  ⟨h.op.trans hc.1, h.types.trans hc.2.1, h.leaf hc.2.2⟩

theorem type? (h : Alike (g.node v.node) (g'.node v.node)) : g'.type? v = g.type? v := by
  rw [Graph.type?_eq, Graph.type?_eq, h.types]

theorem plain (h : Alike (g.node v.node) (g'.node v.node)) (hp : Plain g v) : Plain g' v :=
  ⟨h.type? ▸ hp.type, mt h.isCopy.1 hp.copy, mt h.isSlot.1 hp.slot⟩

end Alike

theorem Takes.congr (hv : Alike (g.node v.node) (g'.node v.node))
    (ho : ∀ u, some u ∈ x.operands → Alike (g.node u.node) (g'.node u.node)) (h : Takes g x i v) :
    Takes g' x i v := by
  cases h with
  | plain h hx => exact .plain (hv.plain h) hx
  | mark h hm => exact .mark (hv.plain h) (hv.isMark hm)
  | fence h hf ht hi => exact .fence (hv.plain h) (hv.op ▸ hf) (hv.type?.trans ht) hi
  | glue hc hx ht hi k h0 => exact .glue (mt hv.isCopy.1 hc) hx (hv.type?.trans ht) hi k h0
  | copy hc ht hx h0 h1 => exact .copy (hv.isCopy.2 hc) (hv.types.trans ht) hx h0 h1
  | load hs hx ho vt ht hvt => exact .load (hv.isSlot.2 hs) hx ho vt ht hvt
  | store hs hx ht hi => exact .store (hv.isSlot.2 hs) hx ht hi
  | add hs hx ht c he hw hr =>
    exact .add (hv.isSlot.2 hs) hx ht c he ((ho c (by simp [he])).isWordConstant hw) hr

/-! ### New nodes -/

/-- A node that may join a graph: it takes its operands as it should. The copy that waits may be
taken, and the node may wait in its place if it is a copy itself. -/
structure Joins (g : Graph) (p p' : Option Nat) (op : Opcode) (types : List ValueType)
    (operands : List (Option Value)) (payload : Payload) : Prop where
  has : ∀ v ∈ taken operands, g.Has v
  gives : .glue ∈ types ↔ givesGlue op
  takes : ∀ i v, (taken operands)[i]? = some v →
    Takes g ⟨op, types, (taken operands).map some, payload⟩ i v
  copy : ∀ v ∈ taken operands, IsCopy g v.node → p = some v.node
  slot : op = .frameIndex → types = [.i32] ∧ taken operands = []
  load : op = .load → (taken operands).length = 2
  choice : isChoice op → types.length = 1
  pending : ∀ y, p' = some y → (y = g.entries.size ∧ op = .copyToReg ∧ types = [.chain, .glue]) ∨
    (p = some y ∧ ∀ v ∈ taken operands, v.node ≠ y)

section NewNode

variable {op : Opcode} {types : List ValueType} {operands : List (Option Value)} {payload : Payload}

theorem alike_newNode {id : Nat} (h : id ≠ g.entries.size) :
    Alike (g.node id) ((g.newNode op types operands payload).1.node id) := by
  rw [Graph.node_newNode_of_ne _ _ _ _ _ h]
  exact .refl _

theorem Joins.congr (h : Joins g p p' op types operands payload)
    (hsize : g'.entries.size = g.entries.size)
    (hnode : ∀ v ∈ taken operands, g'.node v.node = g.node v.node)
    (hcontains : ∀ v ∈ taken operands, g'.contains v.node = g.contains v.node) :
    Joins g' p p' op types operands payload := by
  have halike : ∀ v ∈ taken operands, Alike (g.node v.node) (g'.node v.node) :=
    fun v hv => hnode v hv ▸ .refl _
  refine ⟨fun v hv => ?_, h.gives, fun i v hi => ?_,
    fun v hv hc => ?_, h.slot, h.load, h.choice, ?_⟩
  · exact ⟨(hcontains v hv).trans (h.has v hv).1, (halike v hv).type? ▸ (h.has v hv).2⟩
  · refine (h.takes i v hi).congr (halike v (List.mem_of_getElem? hi)) fun u hu => halike u ?_
    simpa using hu
  · exact h.copy v hv ((halike v hv).isCopy.1 hc)
  · rw [hsize]
    exact h.pending

namespace Disciplined

theorem needs_newNode {a y : Nat}
    (hay : (g.newNode op types operands payload).1.Needs a y) :
    (a = g.entries.size ∧ ∃ i, (⟨y, i⟩ : Value) ∈ taken operands) ∨
      (a ≠ g.entries.size ∧ g.Needs a y) := by
  by_cases ha : a = g.entries.size
  · subst ha
    exact .inl ⟨rfl, Graph.needs_newNode_self.1 hay⟩
  · refine .inr ⟨ha, ?_⟩
    have hlt : a < g.entries.size := by
      have := Graph.contains_lt hay.1
      rw [Graph.size_newNode] at this
      omega
    exact ((Graph.Extends.newNode ..).needs_iff hlt).1 hay

theorem newNode (h : Disciplined p g) (hj : Joins g p p' op types operands payload) :
    Disciplined p' (g.newNode op types operands payload).1 := by
  have hne : ∀ {id}, id < g.entries.size → id ≠ g.entries.size := fun h => Nat.ne_of_lt h
  have hself := Graph.node_newNode_self g op types operands payload
  -- nothing takes the new node yet
  have hfree : ∀ a, ¬ (g.newNode op types operands payload).1.Needs a g.entries.size := by
    intro a ha
    rcases needs_newNode ha with ⟨-, j, hj'⟩ | ⟨-, ha'⟩
    · exact Nat.lt_irrefl _ (hj.has _ hj').lt
    · exact Nat.lt_irrefl _ (Graph.contains_lt (h.sound.contains_of_needs ha'))
  refine ⟨h.sound.newNode hj.has, h.acyclic.newNode h.sound hj.has, fun id => ?_,
    fun id hid i v hi => ?_, fun y a b hy ha hb => ?_, fun y hy => ?_, fun v hv => ?_,
    fun id hid => ?_, fun id hid => ?_, fun id hid => ?_, by simpa using h.frame⟩
  · rw [Graph.node_newNode]
    split
    · exact hj.gives
    · exact h.gives id
  · by_cases hnew : id = g.entries.size
    · subst hnew
      rw [hself] at hi ⊢
      simp only [List.getElem?_map, Option.map_eq_some_iff, Option.some.injEq,
        exists_eq_right] at hi
      refine (hj.takes i v hi).congr (alike_newNode (hne (hj.has v (List.mem_of_getElem? hi)).lt))
        fun u hu => alike_newNode (hne (hj.has u ?_).lt)
      simpa using hu
    · rw [Graph.node_newNode_of_ne _ _ _ _ _ hnew] at hi ⊢
      have hid' : g.contains id := by simpa [Graph.contains_newNode, hnew] using hid
      refine (h.takes id hid' i v hi).congr
        (alike_newNode (hne (h.sound.has_operand hid' (List.mem_of_getElem? hi)).lt))
        fun u hu => alike_newNode (hne (h.sound.has_operand hid' hu).lt)
  · -- a copy that the new node takes had no user before
    have hyne : y ≠ g.entries.size := fun he => hfree a (he ▸ ha)
    have hyc : IsCopy g y := (alike_newNode hyne).isCopy.1 hy
    rcases needs_newNode ha with ⟨rfl, j, hj'⟩ | ⟨-, ha'⟩
    · rcases needs_newNode hb with ⟨rfl, -⟩ | ⟨-, hb'⟩
      · rfl
      · exact absurd hb' ((h.pending y (hj.copy _ hj' hyc)).2.2.2 b)
    · rcases needs_newNode hb with ⟨rfl, j, hj'⟩ | ⟨-, hb'⟩
      · exact absurd ha' ((h.pending y (hj.copy _ hj' hyc)).2.2.2 a)
      · exact h.alone y a b hyc ha' hb'
  · rcases hj.pending y hy with ⟨rfl, rfl, rfl⟩ | ⟨hpy, hother⟩
    · exact ⟨by simp [Graph.contains_newNode], by rw [IsCopy, hself], by rw [hself], hfree⟩
    · obtain ⟨hc, hcopy, htypes, hnone⟩ := h.pending y hpy
      have hyne := hne (Graph.contains_lt hc)
      refine ⟨by simp [Graph.contains_newNode, hc], (alike_newNode hyne).isCopy.2 hcopy,
        (alike_newNode hyne).types.trans htypes, fun a ha => ?_⟩
      rcases needs_newNode ha with ⟨-, j, hj'⟩ | ⟨-, ha'⟩
      · exact hother _ hj' rfl
      · exact hnone a ha'
  · rw [Graph.root_newNode] at hv
    obtain ⟨r, hr, hhas⟩ := h.sound.root
    rw [hr] at hv
    cases hv
    exact (alike_newNode (hne hhas.lt)).plain (h.root _ hr)
  · by_cases hnew : id = g.entries.size
    · subst hnew
      have hop : op = .frameIndex := by
        have := hid.1
        rwa [hself] at this
      rw [hself]
      simp [hj.slot hop]
    · rw [Graph.node_newNode_of_ne _ _ _ _ _ hnew]
      exact h.slot id ((alike_newNode hnew).isSlot.1 hid)
  · by_cases hnew : id = g.entries.size
    · subst hnew
      rw [hself] at hid ⊢
      simpa using hj.load hid
    · rw [Graph.node_newNode_of_ne _ _ _ _ _ hnew] at hid ⊢
      exact h.load id hid
  · rw [Graph.node_newNode] at hid ⊢
    split at hid <;> rename_i hnew
    · rw [if_pos hnew]
      exact hj.choice hid
    · rw [if_neg hnew]
      exact h.choice id hid

end Disciplined

end NewNode

/-! ### Nodes that take no copy -/

/-- Operations without a part in the discipline. -/
def isOrdinary (op : Opcode) : Bool := !givesGlue op && op ≠ .frameIndex && op ≠ .load

theorem isOrdinary_iff {op : Opcode} :
    isOrdinary op ↔ givesGlue op = false ∧ op ≠ .frameIndex ∧ op ≠ .load := by
  simp [isOrdinary, and_assoc]

theorem followsCall_eq_false {op : Opcode} (h : givesGlue op = false) : followsCall op = false := by
  cases op <;> first | rfl | cases h

theorem IsSlot.not_copy (h : IsSlot g n) : ¬ IsCopy g n := fun hc => by
  have := h.1
  rw [hc] at this
  cases this

/-- A node that takes its operands as it should, and no copy among them. -/
structure Sober (g : Graph) (op : Opcode) (types : List ValueType) (operands : List (Option Value))
    (payload : Payload) : Prop where
  has : ∀ v ∈ taken operands, g.Has v
  copy : ∀ v ∈ taken operands, ¬ IsCopy g v.node
  gives : .glue ∈ types ↔ givesGlue op
  slot : op = .frameIndex → types = [.i32] ∧ taken operands = []
  load : op = .load → (taken operands).length = 2
  choice : isChoice op → types.length = 1
  takes : ∀ i v, (taken operands)[i]? = some v →
    Takes g ⟨op, types, (taken operands).map some, payload⟩ i v

namespace Sober

variable {op : Opcode} {vt : ValueType} {types : List ValueType} {operands : List (Option Value)}
  {payload : Payload}

/-- The copy that waits goes on waiting behind a node that takes no copy. -/
theorem joins (h : Sober g op types operands payload) (hd : Disciplined p g) :
    Joins g p p op types operands payload :=
  ⟨h.has, h.gives, h.takes, fun v hv hc => absurd hc (h.copy v hv), h.slot, h.load,
    h.choice, fun y hy => .inr ⟨hy, fun v hv he => h.copy v hv (he ▸ (hd.pending y hy).2.1)⟩⟩

theorem ordinary (hop : isOrdinary op) (hone : isChoice op → types.length = 1)
    (hglue : .glue ∉ types) (hv : ∀ v ∈ taken operands, g.Has v ∧ Plain g v) :
    Sober g op types operands payload := by
  obtain ⟨hg, hf, hl⟩ := isOrdinary_iff.1 hop
  refine ⟨fun v h => (hv v h).1,
    fun v h => (hv v h).2.copy, by simp [hglue, hg], fun h => absurd h hf,
    fun h => absurd h hl, hone, fun i v h => ?_⟩
  exact .plain (hv v (List.mem_of_getElem? h)).2 (followsCall_eq_false hg)

theorem plainLoad {chain ptr : Value} (hc : g.Has chain ∧ Plain g chain)
    (hp : g.Has ptr ∧ Plain g ptr) (hvt : vt ≠ .glue) :
    Sober g .load [vt, .chain] [some chain, some ptr] payload := by
  have hv : ∀ v ∈ taken [some chain, some ptr], g.Has v ∧ Plain g v := by simp [taken, hc, hp]
  exact ⟨fun v h => (hv v h).1, fun v h => (hv v h).2.copy, by simp [givesGlue, hvt.symm], by simp,
    fun _ => rfl, nofun, fun i v h => .plain (hv v (List.mem_of_getElem? h)).2 rfl⟩

theorem slotLoad {ptr : Value} (he : g.Has Graph.entry ∧ Plain g Graph.entry) (hp : g.Has ptr)
    (hs : IsSlot g ptr.node) (hg : vt ≠ .glue) (hvt : vt ≠ .i128 ∧ vt.isWide = false) :
    Sober g .load [vt, .chain] [some Graph.entry, some ptr] payload := by
  refine ⟨by simp [taken, he.1, hp], by simp [taken, he.2.copy, hs.not_copy],
    by simp [givesGlue, hg.symm], by simp, fun _ => rfl, nofun, fun i v h => ?_⟩
  rcases List.mem_cons.1 (List.mem_of_getElem? h) with rfl | h
  · exact .plain he.2 rfl
  · rcases List.mem_singleton.1 h with rfl
    exact .load hs rfl rfl vt rfl hvt

theorem store {chain word ptr : Value} (hc : g.Has chain ∧ Plain g chain)
    (hw : g.Has word ∧ Plain g word) (hp : g.Has ptr) (hs : Plain g ptr ∨ IsSlot g ptr.node) :
    Sober g .store [.chain] [some chain, some word, some ptr] payload := by
  rcases hs with hs | hs
  · exact ordinary rfl nofun (by simp) (by simp [taken, hc, hw, hp, hs])
  refine ⟨by simp [taken, hc.1, hw.1, hp], by simp [taken, hc.2.copy, hw.2.copy, hs.not_copy],
    by simp [givesGlue], by simp, by simp, nofun, fun i v h => ?_⟩
  match i, h with
  | 0, h => cases h; exact .plain hc.2 rfl
  | 1, h => cases h; exact .plain hw.2 rfl
  | 2, h => cases h; exact .store hs rfl rfl rfl

/-- An offset is added to an address. -/
theorem offset {ptr k : Value} (hp : g.Has ptr) (hs : Plain g ptr ∨ IsSlot g ptr.node)
    (hk : g.Has k ∧ Plain g k) (hc : IsWordConstant g k.node) (hr : k.result = 0) :
    Sober g .add [.i32] [some ptr, some k] payload := by
  rcases hs with hs | hs
  · exact ordinary rfl nofun (by simp) (by simp [taken, hp, hs, hk])
  refine ⟨by simp [taken, hk.1, hp], by simp [taken, hk.2.copy, hs.not_copy], by simp [givesGlue],
    by simp, by simp, nofun, fun i v h => ?_⟩
  match i, h with
  | 0, h => cases h; exact .add hs rfl rfl k rfl hc hr
  | 1, h => cases h; exact .plain hk.2 rfl

/-- Registers are read behind a fence, with the glue of the node that is chained to, if it gives
any. -/
theorem follows {chain : Value} {marks : List Value} {glue : Option Value} (hop : followsCall op)
    (hglue : .glue ∈ types) (hc : g.Has chain ∧ Plain g chain) (hf : isFence (g.node chain.node).op)
    (ht : g.type? chain = some .chain) (hm : ∀ m ∈ marks, (g.Has m ∧ Plain g m) ∧ IsMark g m.node)
    (hg : ∀ w, glue = some w → (g.Has w ∧ g.type? w = some .glue ∧ ¬ IsCopy g w.node) ∧
      w.node = chain.node) :
    Sober g op types (some chain :: (marks.map some ++ [glue])) payload := by
  have hgives : givesGlue op := by cases op <;> first | rfl | cases hop
  have htaken : taken (some chain :: (marks.map some ++ [glue])) =
      chain :: (marks ++ glue.toList) := by
    cases glue <;> simp [taken]
  have hmem : ∀ v ∈ taken (some chain :: (marks.map some ++ [glue])),
      v = chain ∨ v ∈ marks ∨ glue = some v := by
    intro v hv
    rw [htaken] at hv
    simpa using hv
  refine ⟨fun v hv => ?_, fun v hv => ?_, by simp [hglue, hgives], ?_, ?_, ?_, fun i v hi => ?_⟩
  · rcases hmem v hv with rfl | hv | hv
    · exact hc.1
    · exact (hm v hv).1.1
    · exact (hg v hv).1.1
  · rcases hmem v hv with rfl | hv | hv
    · exact hc.2.copy
    · exact (hm v hv).1.2.copy
    · exact (hg v hv).1.2.2
  · rintro rfl
    cases hop
  · rintro rfl
    cases hop
  · intro hchoice
    cases op <;> first | cases hchoice | cases hop
  · rw [htaken] at hi ⊢
    match i, hi with
    | 0, hi =>
      cases hi
      exact .fence hc.2 hf ht rfl
    | i + 1, hi =>
      rcases List.mem_append.1 (List.mem_of_getElem? hi) with hv | hv
      · exact .mark (hm v hv).1.2 (hm v hv).2
      · obtain ⟨⟨-, htg, hcopy⟩, hn⟩ := hg v (by simpa using hv)
        exact .glue hcopy hop htg (Nat.succ_ne_zero i) chain.result (by rw [hn]; rfl)

end Sober

/-- The chain behind the last copy into a register, with its glue. -/
def Waits (g : Graph) (p : Option Nat) (chain glue : Option Value) : Prop :=
  (p = none ∧ (∃ v, chain = some v ∧ g.Has v ∧ Plain g v) ∧ glue = none) ∨
    ∃ y, p = some y ∧ chain = some ⟨y, 0⟩ ∧ glue = some ⟨y, 1⟩

/-- What takes the chain and the glue of the last copy. -/
theorem Joins.copies {op : Opcode} {types : List ValueType} {payload : Payload}
    {chain glue : Option Value} {rest : List (Option Value)} (hd : Disciplined p g)
    (hop : endsCopies op) (hgives : .glue ∈ types ↔ givesGlue op) (hc : Waits g p chain glue)
    (hr : ∀ v ∈ taken rest, g.Has v ∧ Plain g v)
    (hp : ∀ y, p' = some y → y = g.entries.size ∧ op = .copyToReg ∧ types = [.chain, .glue]) :
    Joins g p p' op types (chain :: (rest ++ [glue])) payload := by
  have hf : followsCall op = false := by cases op <;> first | rfl | cases hop
  have hframe : op ≠ .frameIndex := by rintro rfl; cases hop
  have hload : op ≠ .load := by rintro rfl; cases hop
  have hchoice : isChoice op → types.length = 1 := by
    intro hchoice
    unfold isChoice at hchoice
    split at hchoice
    · cases hop
    · cases hop
    · cases hchoice
  rcases hc with ⟨hpend, ⟨ch, rfl, hch⟩, rfl⟩ | ⟨y, hpend, rfl, rfl⟩
  · have hv : ∀ v ∈ taken (some ch :: (rest ++ [none])), g.Has v ∧ Plain g v := by
      intro v hv
      have : v = ch ∨ v ∈ taken rest := by simpa [taken] using hv
      rcases this with rfl | hv
      · exact hch
      · exact hr v hv
    exact ⟨fun v h => (hv v h).1, hgives, fun i v h => .plain (hv v (List.mem_of_getElem? h)).2 hf,
      fun v h hcp => absurd hcp (hv v h).2.copy, fun h => absurd h hframe,
      fun h => absurd h hload, hchoice, fun y hy => .inl (hp y hy)⟩
  · obtain ⟨hcon, hcopy, htypes, -⟩ := hd.pending y hpend
    have hhas : ∀ k, k < 2 → g.Has ⟨y, k⟩ := by
      intro k hk
      refine ⟨hcon, ?_⟩
      rw [Graph.type?_eq, htypes]
      match k, hk with
      | 0, _ => rfl
      | 1, _ => rfl
    have htaken : taken (some ⟨y, 0⟩ :: (rest ++ [some ⟨y, 1⟩])) =
        ⟨y, 0⟩ :: (taken rest ++ [⟨y, 1⟩]) := by
      simp [taken]
    have hmem : ∀ v ∈ taken (some ⟨y, 0⟩ :: (rest ++ [some ⟨y, 1⟩])),
        v = ⟨y, 0⟩ ∨ v ∈ taken rest ∨ v = ⟨y, 1⟩ := by
      intro v hv
      rw [htaken] at hv
      simpa using hv
    refine ⟨fun v h => ?_, hgives, fun i v h => ?_, fun v h hcp => ?_, fun h => absurd h hframe,
      fun h => absurd h hload, hchoice, fun y hy => .inl (hp y hy)⟩
    · rcases hmem v h with rfl | h | rfl
      · exact hhas 0 (by decide)
      · exact (hr v h).1
      · exact hhas 1 (by decide)
    · have hcp : ∀ k, Takes g ⟨op, types, (taken (some ⟨y, 0⟩ :: (rest ++ [some ⟨y, 1⟩]))).map
        some, payload⟩ i
          ⟨y, k⟩ := by
        intro k
        rw [htaken]
        exact .copy hcopy htypes hop rfl (by simp)
      rcases hmem v (List.mem_of_getElem? h) with rfl | h | rfl
      · exact hcp 0
      · exact .plain (hr v h).2 hf
      · exact hcp 1
    · rcases hmem v h with rfl | h | rfl
      · exact hpend
      · exact absurd hcp (hr v h).2.copy
      · exact hpend

/-- Operations whose operands are all plain. -/
def takesPlain (op : Opcode) : Bool :=
  !endsCopies op && !followsCall op && op ≠ .load && op ≠ .store && op ≠ .add

theorem Takes.of_takesPlain (h : Takes g x i v) (hop : takesPlain x.op) : Plain g v := by
  cases h with
  | plain h => exact h
  | mark h => exact h
  | fence h => exact h
  | glue _ hx => simp [takesPlain, hx] at hop
  | copy _ _ hx => simp [takesPlain, hx] at hop
  | load _ hx => simp [takesPlain, hx] at hop
  | store _ hx => simp [takesPlain, hx] at hop
  | add _ hx => simp [takesPlain, hx] at hop

/-! ### Replacement -/

/-- A node that may be replaced: the discipline does not rest on it. -/
structure Replaceable (g : Graph) (n : Nat) : Prop where
  glue : givesGlue (g.node n).op = false
  fence : isFence (g.node n).op = false
  slot : ¬ IsSlot g n
  mark : ¬ IsMark g n
  constant : ¬ IsWordConstant g n

theorem alike_rewired {σ : Nat → Option Value} (hr : g.Rewired g' n σ) (id : Nat) :
    Alike (g.node id) (g'.node id) := by
  by_cases hid : g.contains id
  · rw [hr.node id hid]
    exact ⟨rfl, rfl, rfl, fun h => by simp [h]⟩
  · rw [hr.gone id hid]
    exact .refl _

namespace Disciplined

theorem rewireBy_of_ne {σ : Nat → Option Value} {user : Nat} (h : v.node ≠ n) :
    Graph.rewireBy σ n user (some v) = some v := by
  simp [Graph.rewireBy, h]

/-- A node that may be replaced is a plain operand where it is one. -/
theorem plain_of_replaceable (h : Disciplined p g) (hn : Replaceable g v.node)
    (ht : Takes g x i v) : Plain g v ∧ followsCall x.op = false := by
  cases ht with
  | plain hp hx => exact ⟨hp, hx⟩
  | mark _ hm => exact absurd hm hn.mark
  | fence _ hf => rw [hn.fence] at hf; cases hf
  | glue _ _ ht =>
    have : ValueType.glue ∈ (g.node v.node).types := List.mem_of_getElem? (Graph.type?_eq g v ▸ ht)
    rw [h.gives, hn.glue] at this
    cases this
  | copy hc =>
    have := hn.glue
    rw [hc] at this
    cases this
  | load hs => exact absurd hs hn.slot
  | store hs => exact absurd hs hn.slot
  | add hs => exact absurd hs hn.slot

section Rewired

variable {σ : Nat → Option Value} {id : Nat}

theorem takes_rewired (h : Disciplined p g) (hn : Replaceable g n) (hr : g.Rewired g' n σ)
    (hσ : ∀ i v, σ i = some v → Plain g v) (hid : g.contains id)
    (hi : (g'.node id).operands[i]? = some (some w)) : Takes g' (g'.node id) i w := by
  have halike := alike_rewired hr
  rw [hr.node id hid] at hi ⊢
  simp only [List.getElem?_map, Option.map_eq_some_iff] at hi
  obtain ⟨o, ho, hw⟩ := hi
  obtain ⟨v, rfl, -⟩ := h.sound.has_of_getElem? hid ho
  have ht := h.takes id hid i v ho
  by_cases hvn : v.node = n
  · subst hvn
    obtain ⟨hp, hx⟩ := h.plain_of_replaceable hn ht
    refine .plain ((halike _).plain ?_) hx
    rcases Graph.rewireBy_cases hw with he | ⟨k, -, hk⟩
    · cases he
      exact hp
    · exact hσ k w hk
  · -- what the way of taking `v` says about other operands is about nodes that stay
    rw [rewireBy_of_ne hvn] at hw
    cases hw
    have hslot : ∀ {u : Value}, u.node = w.node → u.node ≠ n := fun he => he ▸ hvn
    have hmap : ∀ {j : Nat} {u : Value}, (g.node id).operands[j]? = some (some u) → u.node ≠ n →
        ((g.node id).operands.map (Graph.rewireBy σ n id))[j]? = some (some u) := by
      intro j u hu hne
      rw [List.getElem?_map, hu, Option.map_some, rewireBy_of_ne hne]
    refine Takes.congr (halike _) (fun _ _ => halike _) ?_
    cases ht with
    | plain hp hx => exact .plain hp hx
    | mark hp hm => exact .mark hp hm
    | fence hp hf ht hi => exact .fence hp hf ht hi
    | glue hc hx ht hi k h0 => exact .glue hc hx ht hi k (hmap h0 hvn)
    | copy hc ht hx h0 h1 =>
      refine .copy hc ht hx (hmap h0 hvn) ?_
      obtain ⟨j, hj⟩ := List.mem_iff_getElem?.1 h1
      exact List.mem_iff_getElem?.2 ⟨j, hmap hj hvn⟩
    | load hs hx ho' vt ht hvt =>
      refine .load hs hx ?_ vt ht hvt
      have hentry : Graph.entry.node ≠ n := by
        rintro rfl
        have := hn.fence
        rw [h.sound.entry.2] at this
        cases this
      simp [ho', rewireBy_of_ne hvn, rewireBy_of_ne hentry]
    | store hs hx ht hi => exact .store hs hx ht hi
    | add hs hx ht c ho' hc hres =>
      refine .add hs hx ht c ?_ hc hres
      have hcn : c.node ≠ n := fun he => hn.constant (he ▸ hc)
      simp [ho', rewireBy_of_ne hvn, rewireBy_of_ne hcn]

/-- Plain values may take the place of a node, if no cycle comes of it. -/
theorem rewired (h : Disciplined none g) (hn : Replaceable g n) (hr : g.Rewired g' n σ)
    (hs : g'.Sound) (ha : g'.Acyclic) (hσ : ∀ i v, σ i = some v → Plain g v) :
    Disciplined none g' := by
  have halike := alike_rewired hr
  have hcopy : ∀ y a, IsCopy g y → g'.Needs a y → g.Needs a y := by
    intro y a hy ha
    rcases hr.needs_cases ha with ha | ⟨-, k, w, hk, rfl⟩
    · exact ha
    · exact absurd hy (hσ k w hk).copy
  refine ⟨hs, ha, fun id => ?_, fun id hid i v hi => ?_,
    fun y a b hy ha hb => ?_, by simp, fun v hv => ?_, fun id hid => ?_, fun id hid => ?_,
    fun id hid => ?_, hr.frame ▸ h.frame⟩
  · rw [(halike id).op, (halike id).types]
    exact h.gives id
  · exact h.takes_rewired hn hr hσ (hr.contains id ▸ hid) hi
  · have hy' := (halike y).isCopy.1 hy
    exact h.alone y a b hy' (hcopy y a hy' ha) (hcopy y b hy' hb)
  · rw [hr.root, Option.map_eq_some_iff] at hv
    obtain ⟨r, hroot, rfl⟩ := hv
    refine (halike _).plain ?_
    rw [Graph.rewireRoot]
    split
    · cases hσr : σ r.result with
      | none => exact h.root r hroot
      | some w => exact hσ _ w hσr
    · exact h.root r hroot
  · obtain ⟨ht, ho⟩ := h.slot id ((halike id).isSlot.1 hid)
    exact ⟨(halike id).types.trans ht, (halike id).leaf ho⟩
  · have hop := (halike id).op ▸ hid
    by_cases hc : g.contains id
    · rw [hr.node id hc]
      simpa using h.load id hop
    · rw [hr.gone id hc]
      exact h.load id hop
  · rw [(halike id).types]
    exact h.choice id ((halike id).op ▸ hid)

end Rewired

/-! ### A new chain -/

theorem alike_updated {u : Use} (hu : g.Updated g' u w) (id : Nat) :
    Alike (g.node id) (g'.node id) := by
  rw [hu.node id]
  split
  · exact ⟨rfl, rfl, rfl, fun h => by simp [h]⟩
  · exact .refl _

/-- A plain value may become the first operand of a node that takes nothing in a special way but,
perhaps, the address that it stores to. -/
theorem updated {user : Nat} (h : Disciplined none g) (hu : g.Updated g' ⟨user, 0⟩ w)
    (hs : g'.Sound) (hw : Plain g w) (hreach : ¬ g.Reaches w.node user)
    (hx : followsCall (g.node user).op = false)
    (hplain : ∀ v, some v ∈ (g.node user).operands → ¬ IsCopy g v.node ∧
      (IsSlot g v.node → (g.node user).op = .store)) :
    Disciplined none g' := by
  have halike := alike_updated hu
  have hcopy : ∀ y a, IsCopy g y → g'.Needs a y → g.Needs a y := by
    intro y a hy ha
    rcases hu.needs_cases ha with ha | ⟨-, rfl⟩
    · exact ha
    · exact absurd hy hw.copy
  refine ⟨hs, h.acyclic.updated hu hreach, fun id => ?_, fun id hid i v hi => ?_,
    fun y a b hy ha hb => ?_, by simp, fun v hv => ?_, fun id hid => ?_, fun id hid => ?_,
    fun id hid => ?_, hu.frame ▸ h.frame⟩
  · rw [(halike id).op, (halike id).types]
    exact h.gives id
  · refine Takes.congr (halike _) (fun _ _ => halike _) ?_
    have hid' : g.contains id := hu.contains id ▸ hid
    rw [hu.node id] at hi ⊢
    split at hi <;> rename_i hne
    · subst hne
      rw [if_pos rfl]
      by_cases hi0 : i = 0
      · subst hi0
        have : v = w := by
          rw [List.getElem?_set] at hi
          split at hi
          · split at hi
            · cases hi
              rfl
            · cases hi
          · contradiction
        exact .plain (this ▸ hw) hx
      · rw [List.getElem?_set_ne (Ne.symm hi0)] at hi
        obtain ⟨hc, hst⟩ := hplain v (List.mem_of_getElem? hi)
        cases h.takes id hid' i v hi with
        | plain hp hx => exact .plain hp hx
        | mark hp hm => exact .mark hp hm
        | fence hp hf ht hi => exact absurd hi hi0
        | glue _ hx' => rw [hx] at hx'; cases hx'
        | copy hc' => exact absurd hc' hc
        | load hsl hl => rw [hst hsl] at hl; cases hl
        | store hsl hx ht hi => exact .store hsl hx ht hi
        | add hsl hl => rw [hst hsl] at hl; cases hl
    · rw [if_neg hne]
      exact h.takes id hid' i v hi
  · have hy' := (halike y).isCopy.1 hy
    exact h.alone y a b hy' (hcopy y a hy' ha) (hcopy y b hy' hb)
  · exact (halike _).plain (h.root v (hu.root ▸ hv))
  · obtain ⟨ht, ho⟩ := h.slot id ((halike id).isSlot.1 hid)
    exact ⟨(halike id).types.trans ht, (halike id).leaf ho⟩
  · have hlen := h.load id ((halike id).op ▸ hid)
    rw [hu.node id]
    split
    · simpa using hlen
    · exact hlen
  · rw [(halike id).types]
    exact h.choice id ((halike id).op ▸ hid)

/-! ### Root and frame -/

/-- The discipline is about nodes: the same nodes under another root and with another frame keep
it. -/
theorem of_nodes (h : Disciplined p g) (hs : g'.Sound) (hn : ∀ id, g'.node id = g.node id)
    (hc : ∀ id, g'.contains id = g.contains id) (hr : ∀ v, g'.root = some v → Plain g v)
    (hf : Graph.FixedBelow g'.frame) : Disciplined p g' := by
  have halike : ∀ id, Alike (g.node id) (g'.node id) := fun id => hn id ▸ .refl _
  have hneeds : g'.Needs = g.Needs := by
    funext a b
    simp only [Graph.Needs, Graph.operandNodes, hn, hc]
  refine ⟨hs, ?_, fun id => ?_, fun id hid i v hi => ?_, fun y a b hy ha hb => ?_, fun y hy => ?_,
    fun v hv => (halike _).plain (hr v hv), fun id hid => ?_, fun id hid => ?_,
    fun id hid => hn id ▸ h.choice id (hn id ▸ hid), hf⟩
  · rw [Graph.Acyclic, hneeds]
    exact h.acyclic
  · rw [hn]
    exact h.gives id
  · rw [hn] at hi ⊢
    exact (h.takes id (hc id ▸ hid) i v hi).congr (halike _) fun _ _ => halike _
  · rw [hneeds] at ha hb
    exact h.alone y a b ((halike y).isCopy.1 hy) ha hb
  · obtain ⟨hcon, hcopy, htypes, hnone⟩ := h.pending y hy
    exact ⟨hc y ▸ hcon, (halike y).isCopy.2 hcopy, hn y ▸ htypes, hneeds ▸ hnone⟩
  · rw [hn]
    exact h.slot id ((halike id).isSlot.1 hid)
  · rw [hn] at hid ⊢
    exact h.load id hid

theorem of_root (h : Disciplined p g) (hv : g.Has v) (hp : Plain g v) :
    Disciplined p { g with root := some v } :=
  h.of_nodes (h.sound.of_root hv) (fun _ => rfl) (fun _ => rfl)
    (fun w hw => by cases hw; exact hp) h.frame

theorem of_frame (h : Disciplined p g) {f : Frame} (hf : Graph.FixedBelow f) :
    Disciplined p { g with frame := f } :=
  h.of_nodes (h.sound.of_frame f) (fun _ => rfl) (fun _ => rfl) h.root hf

theorem lt_of_isFixed (h : Disciplined p g) {k : Int} (hk : g.frame.isFixed k) : k < 0 := by
  obtain ⟨o, ho, hf⟩ := (Option.any_eq_true ..).1 hk
  exact h.frame.byIndex k o ho hf

end Disciplined

end GraphLowering.Usim
