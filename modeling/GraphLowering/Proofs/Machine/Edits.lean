import GraphLowering.Machine.Function
import Mathlib.Data.List.Nodup

/-!
# Functions of machine code that are well formed

Blocks keep their edges at both ends, and instructions keep the block that lists them. `WellFormed`
says that these records agree and that no list has an entry twice. Each operation changes one of
three things: the edges (`Linked`), the layout (`Ordered`) or where instructions stand (`Housed`).
What it leaves alone is said once for each kind (`Rehoused`, `Rewired`).
-/

namespace GraphLowering.Machine

/-- The instruction with another block in place of `old`. -/
def Instr.retarget (old new : Nat) (x : Instr) : Instr :=
  { x with operands := x.operands.map fun o => if o = .block old then .block new else o }

theorem Instr.retarget_retarget (old new : Nat) (x : Instr) :
    (x.retarget old new).retarget old new = x.retarget old new := by
  simp only [retarget, List.map_map]
  congr 2
  funext o
  by_cases ho : o = .block old <;> simp [ho]

namespace Function

variable {f f' g : Function} {b c s i j pos start source : Nat} {is : List Nat}

/-! ### What a function records -/

/-- The successors of a block. -/
def succs (f : Function) (b : Nat) : List Nat := (f.block b).succs

/-- The predecessors of a block. -/
def preds (f : Function) (b : Nat) : List Nat := (f.block b).preds

/-- The instructions of a block. -/
def code (f : Function) (b : Nat) : List Nat := (f.block b).instrs

/-- The registers that are live where a block starts. -/
def liveIns (f : Function) (b : Nat) : List Register := (f.block b).liveIns

/-- The block of an instruction. -/
def parent (f : Function) (i : Nat) : Option Nat := (f.instr i).parent

/-- An instruction without its place. -/
def content (f : Function) (i : Nat) : Op × List Operand := ((f.instr i).op, (f.instr i).operands)

/-- The phis at the head of a block. -/
def phis (f : Function) (b : Nat) : List Nat := (f.code b).takeWhile fun i => (f.instr i).op = .phi

theorem block_of_le (h : f.blocks.size ≤ b) : f.block b = default := by
  rw [block, Array.getD_eq_getD_getElem?, Array.getElem?_eq_none h]
  rfl

theorem instr_of_le (h : f.instrs.size ≤ i) : f.instr i = default := by
  rw [instr, Array.getD_eq_getD_getElem?, Array.getElem?_eq_none h]
  rfl

theorem block_modifyBlock (change : Block → Block) (c : Nat) :
    (f.modifyBlock b change).block c =
      if b = c ∧ b < f.blocks.size then change (f.block c) else f.block c := by
  simp only [block, modifyBlock, Array.getD_eq_getD_getElem?, Array.getElem?_modify]
  split
  · rename_i h
    subst h
    by_cases hb : b < f.blocks.size <;> simp [hb]
  · rename_i h
    rw [if_neg fun hc => h hc.1]

theorem instr_modifyInstr (change : Instr → Instr) (j : Nat) :
    (f.modifyInstr i change).instr j =
      if i = j ∧ i < f.instrs.size then change (f.instr j) else f.instr j := by
  simp only [instr, modifyInstr, Array.getD_eq_getD_getElem?, Array.getElem?_modify]
  split
  · rename_i h
    subst h
    by_cases hi : i < f.instrs.size <;> simp [hi]
  · rename_i h
    rw [if_neg fun hc => h hc.1]

section Fields

variable {α : Type} {change : Block → Block} {changeInstr : Instr → Instr}

theorem modifyBlock_keeps (p : Block → α) (h : ∀ x, p (change x) = p x) :
    p ((f.modifyBlock b change).block c) = p (f.block c) := by
  rw [block_modifyBlock]
  split
  · exact h _
  · rfl

theorem modifyBlock_changes (p : Block → α) (g : α → α) (h : ∀ x, p (change x) = g (p x))
    (hb : b < f.blocks.size ∨ g (p default) = p default) :
    p ((f.modifyBlock b change).block c) = if c = b then g (p (f.block c)) else p (f.block c) := by
  rw [block_modifyBlock]
  by_cases hc : c = b
  · subst hc
    by_cases hlt : c < f.blocks.size
    · simp [hlt, h]
    · simp [hlt, block_of_le (Nat.le_of_not_lt hlt), hb.resolve_left hlt]
  · simp [hc, Ne.symm hc]

theorem modifyInstr_keeps (p : Instr → α) (h : ∀ x, p (changeInstr x) = p x) :
    p ((f.modifyInstr i changeInstr).instr j) = p (f.instr j) := by
  rw [instr_modifyInstr]
  split
  · exact h _
  · rfl

end Fields

@[simp] theorem size_modifyBlock (change : Block → Block) :
    (f.modifyBlock b change).blocks.size = f.blocks.size := by
  simp [modifyBlock]

@[simp] theorem size_modifyInstr (change : Instr → Instr) :
    (f.modifyInstr i change).instrs.size = f.instrs.size := by
  simp [modifyInstr]

section Instrs

variable {change : Instr → Instr}

/-- Changing instructions changes nothing else. -/
theorem foldl_modifyInstr (f : Function) : is.foldl (fun f i => f.modifyInstr i change) f =
    { f with instrs := is.foldl (fun a i => a.modify i change) f.instrs } := by
  induction is generalizing f with
  | nil => rfl
  | cons i is ih => exact ih _

theorem size_foldl_modifyInstr :
    (is.foldl (fun f i => f.modifyInstr i change) f).instrs.size = f.instrs.size := by
  induction is generalizing f with
  | nil => rfl
  | cons i is ih => exact ih.trans (size_modifyInstr change)

theorem instr_foldl_modifyInstr (h : ∀ x, change (change x) = change x) (j : Nat) :
    (is.foldl (fun f i => f.modifyInstr i change) f).instr j =
      if j ∈ is ∧ j < f.instrs.size then change (f.instr j) else f.instr j := by
  induction is generalizing f with
  | nil => simp
  | cons i is ih =>
    rw [List.foldl_cons, ih, size_modifyInstr, instr_modifyInstr]
    by_cases hij : i = j
    · subst hij
      by_cases hi : i < f.instrs.size <;> by_cases hm : i ∈ is <;> simp [hi, hm, h]
    · simp [hij, Ne.symm hij]

end Instrs

/-! ### New blocks and instructions -/

theorem block_createBlock (name : String) (c : Nat) :
    (f.createBlock name).1.block c = if c = f.blocks.size then { name } else f.block c := by
  simp only [block, createBlock, Array.getD_eq_getD_getElem?, Array.getElem?_push]
  split <;> rfl

/-- A new block is empty, and so was what had its number. -/
theorem createBlock_keeps {α : Type} (p : Block → α) (name : String)
    (h : p { name } = p default) (c : Nat) :
    p ((f.createBlock name).1.block c) = p (f.block c) := by
  rw [block_createBlock]
  split
  · rename_i hc
    rw [h, block_of_le (by omega)]
  · rfl

@[simp] theorem size_createBlock (f : Function) (name : String) :
    (f.createBlock name).1.blocks.size = f.blocks.size + 1 := by
  simp [createBlock]

theorem instr_newInstr (op : Op) (operands : List Operand) (j : Nat) :
    (f.newInstr op operands).1.instr j =
      if j = f.instrs.size then { op, operands } else f.instr j := by
  simp only [instr, newInstr, Array.getD_eq_getD_getElem?, Array.getElem?_push]
  split <;> rfl

theorem parent_newInstr (op : Op) (operands : List Operand) (j : Nat) :
    (f.newInstr op operands).1.parent j = f.parent j := by
  rw [parent, instr_newInstr]
  split
  · rename_i hj
    rw [parent, instr_of_le (by omega)]
    rfl
  · rfl

theorem content_newInstr (op : Op) (operands : List Operand) (j : Nat) :
    (f.newInstr op operands).1.content j = if j =
    f.instrs.size then (op, operands) else f.content j := by
  rw [content, instr_newInstr]
  split <;> rfl

@[simp] theorem size_newInstr (op : Op) (operands : List Operand) :
    (f.newInstr op operands).1.instrs.size = f.instrs.size + 1 := by
  simp [newInstr]

/-! ### Instructions in blocks -/

theorem block_adopt (b : Nat) (is : List Nat) (c : Nat) : (f.adopt b is).block c = f.block c := by
  rw [adopt, foldl_modifyInstr]
  rfl

theorem parent_adopt (h : ∀ i ∈ is, i < f.instrs.size) (j : Nat) :
    (f.adopt b is).parent j = if j ∈ is then some b else f.parent j := by
  rw [parent, adopt, instr_foldl_modifyInstr (by intro; rfl)]
  by_cases hj : j ∈ is
  · simp [hj, h j hj]
  · simp [hj, parent]

/-- At most the places of instructions differ. -/
structure Rehoused (f f' : Function) : Prop where
  size : f'.blocks.size = f.blocks.size
  layout : f'.layout = f.layout
  virtualCount : f'.virtualCount = f.virtualCount
  instrs : f'.instrs.size = f.instrs.size
  block : ∀ c, (f'.succs c, f'.preds c, f'.liveIns c) = (f.succs c, f.preds c, f.liveIns c)
  content : ∀ j, f'.content j = f.content j

namespace Rehoused

theorem succs (h : Rehoused f f') (c : Nat) : f'.succs c = f.succs c := congrArg (·.1) (h.block c)

theorem preds (h : Rehoused f f') (c : Nat) : f'.preds c = f.preds c := congrArg (·.2.1) (h.block c)

theorem liveIns (h : Rehoused f f') (c : Nat) : f'.liveIns c = f.liveIns c :=
  congrArg (·.2.2) (h.block c)

theorem refl (f : Function) : Rehoused f f := ⟨rfl, rfl, rfl, rfl, fun _ => rfl, fun _ => rfl⟩

theorem trans (h : Rehoused f g) (h' : Rehoused g f') : Rehoused f f' :=
  ⟨h'.size.trans h.size, h'.layout.trans h.layout, h'.virtualCount.trans h.virtualCount,
    h'.instrs.trans h.instrs, fun c => (h'.block c).trans (h.block c),
    fun j => (h'.content j).trans (h.content j)⟩

theorem setCode (f : Function) (b : Nat) (change : List Nat → List Nat) :
    Rehoused f (f.modifyBlock b fun blk => { blk with instrs := change blk.instrs }) :=
  ⟨size_modifyBlock _, rfl, rfl, rfl,
    fun _ => modifyBlock_keeps (fun x => (x.succs, x.preds, x.liveIns)) (by intro; rfl),
    fun _ => rfl⟩

theorem setParent (f : Function) (i : Nat) (parent : Option Nat) :
    Rehoused f (f.modifyInstr i fun x => { x with parent }) :=
  ⟨rfl, rfl, rfl, size_modifyInstr _, fun _ => rfl,
    fun _ => modifyInstr_keeps (fun x => (x.op, x.operands)) (by intro; rfl)⟩

theorem adopt (f : Function) (b : Nat) (is : List Nat) : Rehoused f (f.adopt b is) := by
  induction is generalizing f with
  | nil => exact refl f
  | cons i is ih => exact (setParent f i (some b)).trans (ih _)

theorem append (f : Function) (b : Nat) (is : List Nat) : Rehoused f (f.append b is) :=
  (adopt f b is).trans (setCode _ b (· ++ is))

theorem prepend (f : Function) (b : Nat) (is : List Nat) : Rehoused f (f.prepend b is) :=
  (adopt f b is).trans (setCode _ b (is ++ ·))

theorem remove (f : Function) (b i : Nat) : Rehoused f (f.remove b i).1 := by
  rw [Function.remove]
  split
  · exact (setCode f b (·.erase i)).trans (setParent _ i none)
  · exact refl f

theorem splice (f : Function) (b source start : Nat) : Rehoused f (f.splice b source start) := by
  simp only [Function.splice]
  split
  · exact refl f
  · exact (setCode f source (·.take start)).trans (append _ b _)

end Rehoused

theorem code_append (hb : b < f.blocks.size) (c : Nat) :
    (f.append b is).code c = if c = b then f.code c ++ is else f.code c := by
  refine (modifyBlock_changes Block.instrs (· ++ is) (by intro; rfl)
    (.inl ((Rehoused.adopt f b is).size.symm ▸ hb))).trans ?_
  simp [code, block_adopt]

theorem code_prepend (hb : b < f.blocks.size) (c : Nat) :
    (f.prepend b is).code c = if c = b then is ++ f.code c else f.code c := by
  refine (modifyBlock_changes Block.instrs (is ++ ·) (by intro; rfl)
    (.inl ((Rehoused.adopt f b is).size.symm ▸ hb))).trans ?_
  simp [code, block_adopt]

theorem remove_eq : (f.remove b i).1 =
    if i ∈ f.code b then
      (f.modifyBlock b fun blk => { blk with instrs := blk.instrs.erase i }).modifyInstr i
        fun x => { x with parent := none }
    else f := by
  rw [remove, code]
  split <;> rfl

theorem code_remove (c : Nat) :
    (f.remove b i).1.code c = if c = b then (f.code c).erase i else f.code c := by
  rw [remove_eq]
  split
  · exact modifyBlock_changes Block.instrs (List.erase · i) (by intro; rfl) (.inr rfl)
  · rename_i hi
    split
    · rename_i hc
      subst hc
      exact (List.erase_of_not_mem hi).symm
    · rfl

theorem splice_eq : f.splice b source start =
    if ((f.code source).drop start).isEmpty then f
    else (f.modifyBlock source fun blk => { blk with instrs := blk.instrs.take start }).append b
      ((f.code source).drop start) := rfl

theorem code_splice (hb : b < f.blocks.size) (c : Nat) :
    (f.splice b source start).code c =
      (if c = source then (f.code c).take start else f.code c) ++
        if c = b then (f.code source).drop start else [] := by
  rw [splice_eq]
  by_cases hempty : ((f.code source).drop start).isEmpty
  · rw [if_pos hempty]
    have hnil := List.isEmpty_iff.1 hempty
    have hall : (f.code source).take start = f.code source :=
      List.take_of_length_le (List.drop_eq_nil_iff.1 hnil)
    rw [hnil, ite_self, List.append_nil]
    split
    · rename_i hc
      rw [hc, hall]
    · rfl
  · rw [if_neg hempty, code_append (by simpa using hb)]
    have htake : (f.modifyBlock source fun blk => { blk with instrs := blk.instrs.take start }).code
      c =
        if c = source then (f.code c).take start else f.code c :=
      modifyBlock_changes Block.instrs (List.take start) (by intro; rfl) (.inr List.take_nil)
    rw [htake]
    by_cases hc : c = b <;> simp [hc, code]

/-! ### Edges -/

theorem addSuccessor_eq : f.addSuccessor b s =
    if s ∈ f.succs b then f
    else (f.modifyBlock b fun blk => { blk with succs := blk.succs ++ [s] }).modifyBlock s
      fun blk => { blk with preds := blk.preds ++ [b] } := by
  by_cases h : s ∈ (f.block b).succs <;> simp [addSuccessor, isSuccessor, succs, h]

theorem succs_addSuccessor (hb : b < f.blocks.size) (c : Nat) :
    (f.addSuccessor b s).succs c =
      if c = b ∧ s ∉ f.succs b then f.succs c ++ [s] else f.succs c := by
  rw [addSuccessor_eq]
  by_cases h : s ∈ f.succs b
  · simp [h]
  · rw [if_neg h]
    simp only [h, not_false_eq_true, and_true]
    refine (modifyBlock_keeps Block.succs (by intro; rfl)).trans ?_
    exact modifyBlock_changes Block.succs (· ++ [s]) (by intro; rfl) (.inl hb)

theorem preds_addSuccessor (hs : s < f.blocks.size) (c : Nat) :
    (f.addSuccessor b s).preds c =
      if c = s ∧ s ∉ f.succs b then f.preds c ++ [b] else f.preds c := by
  rw [addSuccessor_eq]
  by_cases h : s ∈ f.succs b
  · simp [h]
  · rw [if_neg h]
    simp only [h, not_false_eq_true, and_true]
    refine (modifyBlock_changes Block.preds (· ++ [b]) (by intro; rfl)
      (.inl (by simpa using hs))).trans ?_
    rw [modifyBlock_keeps Block.preds (by intro; rfl)]
    rfl

theorem succs_removeSuccessor (c : Nat) :
    (f.removeSuccessor b s).succs c = if c = b then (f.succs c).filter (· ≠ s) else f.succs c := by
  refine (modifyBlock_keeps Block.succs (by intro; rfl)).trans ?_
  exact modifyBlock_changes Block.succs (List.filter (· ≠ s)) (by intro; rfl) (.inr rfl)

theorem preds_removeSuccessor (c : Nat) :
    (f.removeSuccessor b s).preds c = if c = s then (f.preds c).filter (· ≠ b) else f.preds c := by
  refine (modifyBlock_changes Block.preds (List.filter (· ≠ b)) (by intro; rfl) (.inr rfl)).trans ?_
  have hkeep : ((f.modifyBlock b fun blk => { blk with succs := blk.succs.filter (· ≠ s) }).block
    c).preds =
      f.preds c := modifyBlock_keeps Block.preds (by intro; rfl)
  rw [hkeep]

/-- At most the edges differ. -/
structure Rewired (f f' : Function) : Prop where
  size : f'.blocks.size = f.blocks.size
  layout : f'.layout = f.layout
  virtualCount : f'.virtualCount = f.virtualCount
  instrs : f'.instrs = f.instrs
  block : ∀ c, (f'.code c, f'.liveIns c) = (f.code c, f.liveIns c)

namespace Rewired

theorem code (h : Rewired f f') (c : Nat) : f'.code c = f.code c := congrArg (·.1) (h.block c)

theorem liveIns (h : Rewired f f') (c : Nat) : f'.liveIns c = f.liveIns c :=
  congrArg (·.2) (h.block c)

theorem instr (h : Rewired f f') (j : Nat) :
    f'.instr j = f.instr j := by rw [Function.instr, h.instrs, Function.instr]

theorem content (h : Rewired f f') (j : Nat) : f'.content j = f.content j := by
  rw [Function.content, h.instr, Function.content]

theorem refl (f : Function) : Rewired f f := ⟨rfl, rfl, rfl, rfl, fun _ => rfl⟩

theorem trans (h : Rewired f g) (h' : Rewired g f') : Rewired f f' :=
  ⟨h'.size.trans h.size, h'.layout.trans h.layout, h'.virtualCount.trans h.virtualCount,
    h'.instrs.trans h.instrs, fun c => (h'.block c).trans (h.block c)⟩

theorem setSuccs (f : Function) (b : Nat) (change : List Nat → List Nat) :
    Rewired f (f.modifyBlock b fun blk => { blk with succs := change blk.succs }) :=
  ⟨size_modifyBlock _, rfl, rfl, rfl, fun _ => modifyBlock_keeps (fun x => (x.instrs, x.liveIns))
    (by intro; rfl)⟩

theorem setPreds (f : Function) (b : Nat) (change : List Nat → List Nat) :
    Rewired f (f.modifyBlock b fun blk => { blk with preds := change blk.preds }) :=
  ⟨size_modifyBlock _, rfl, rfl, rfl, fun _ => modifyBlock_keeps (fun x => (x.instrs, x.liveIns))
    (by intro; rfl)⟩

theorem addSuccessor (f : Function) (b s : Nat) : Rewired f (f.addSuccessor b s) := by
  rw [addSuccessor_eq]
  split
  · exact refl f
  · exact (setSuccs f b (· ++ [s])).trans (setPreds _ s (· ++ [b]))

theorem removeSuccessor (f : Function) (b s : Nat) : Rewired f (f.removeSuccessor b s) :=
  (setSuccs f b (List.filter (· ≠ s))).trans (setPreds _ s (List.filter (· ≠ b)))

end Rewired

/-! ### Phis -/

theorem phis_congr (hcode : f'.code b = f.code b) (hop : ∀ j, (f'.instr j).op = (f.instr j).op) :
    f'.phis b = f.phis b := by
  rw [phis, phis, hcode]
  congr 1
  funext j
  rw [hop]

theorem mem_code_of_mem_phis (h : j ∈ f.phis b) : j ∈ f.code b :=
  (List.takeWhile_sublist _).subset h

theorem retargetPhis_eq (f : Function) (s old new : Nat) :
    f.retargetPhis s old new =
      { f with
        instrs := (f.phis s).foldl (fun a i => a.modify i (Instr.retarget old new)) f.instrs } :=
  foldl_modifyInstr f

theorem instr_retargetPhis {old new : Nat} (j : Nat) : (f.retargetPhis s old new).instr j =
    if j ∈ f.phis s then (f.instr j).retarget old new else f.instr j := by
  refine (instr_foldl_modifyInstr (Instr.retarget_retarget old new) j).trans ?_
  by_cases hj : j < f.instrs.size
  · simp only [hj, and_true]
    rfl
  · rw [instr_of_le (Nat.le_of_not_lt hj), if_neg fun h => hj h.2]
    split <;> rfl

/-! ### Well-formedness -/

/-- Edges are recorded at both ends, and once. -/
structure Linked (f : Function) : Prop where
  edge : ∀ b s, s ∈ f.succs b ↔ b ∈ f.preds s
  succs_nodup : ∀ b, (f.succs b).Nodup
  preds_nodup : ∀ b, (f.preds b).Nodup

/-- Blocks are laid out once. -/
structure Ordered (f : Function) : Prop where
  layout_nodup : f.layout.Nodup
  lt_size : ∀ b ∈ f.layout, b < f.blocks.size

/-- An instruction knows the block that lists it, and is listed once. -/
structure Housed (f : Function) : Prop where
  parent_eq : ∀ i b, f.parent i = some b ↔ i ∈ f.code b
  code_nodup : ∀ b, (f.code b).Nodup

structure WellFormed (f : Function) : Prop extends Linked f, Ordered f, Housed f

theorem Linked.congr (h : f.Linked) (hs : ∀ b, f'.succs b = f.succs b)
    (hp : ∀ b, f'.preds b = f.preds b) : f'.Linked where
  edge b s := by rw [hs, hp]; exact h.edge b s
  succs_nodup b := hs b ▸ h.succs_nodup b
  preds_nodup b := hp b ▸ h.preds_nodup b

theorem Ordered.congr (h : f.Ordered) (hl : f'.layout = f.layout)
    (hsize : f.blocks.size ≤ f'.blocks.size) : f'.Ordered where
  layout_nodup := hl ▸ h.layout_nodup
  lt_size b hb := Nat.lt_of_lt_of_le (h.lt_size b (hl ▸ hb)) hsize

theorem Housed.congr (h : f.Housed) (hc : ∀ b, f'.code b = f.code b)
    (hp : ∀ i, f'.parent i = f.parent i) : f'.Housed where
  parent_eq i b := by rw [hp, hc]; exact h.parent_eq i b
  code_nodup b := hc b ▸ h.code_nodup b

theorem lt_of_mem_preds (h : c ∈ f.preds b) : b < f.blocks.size := by
  by_contra hb
  rw [preds, block_of_le (Nat.le_of_not_lt hb)] at h
  cases h

theorem lt_of_mem_succs (h : c ∈ f.succs b) : b < f.blocks.size := by
  by_contra hb
  rw [succs, block_of_le (Nat.le_of_not_lt hb)] at h
  cases h

theorem lt_of_mem_code (h : i ∈ f.code b) : b < f.blocks.size := by
  by_contra hb
  rw [code, block_of_le (Nat.le_of_not_lt hb)] at h
  cases h

theorem lt_of_parent (h : f.parent i = some b) : i < f.instrs.size := by
  by_contra hi
  rw [parent, instr_of_le (Nat.le_of_not_lt hi)] at h
  cases h

theorem Housed.lt_of_mem (h : f.Housed) (hi : i ∈ f.code b) : i < f.instrs.size :=
  lt_of_parent ((h.parent_eq i b).2 hi)

/-- An instruction does not stand before itself. -/
theorem Housed.notMem_before (h : f.Housed) {pre post : List Nat}
    (hcode : f.code b = pre ++ i :: post) : i ∉ pre := by
  have hnodup := h.code_nodup b
  rw [hcode] at hnodup
  exact fun hm => (List.nodup_append.1 hnodup).2.2 i hm i (by simp) rfl

/-! ### Operations on edges -/

theorem Linked.addSuccessor (h : f.Linked) (hb : b < f.blocks.size) (hs : s < f.blocks.size) :
    (f.addSuccessor b s).Linked := by
  by_cases hmem : s ∈ f.succs b
  · rw [addSuccessor_eq, if_pos hmem]
    exact h
  have hpred : b ∉ f.preds s := fun hp => hmem ((h.edge b s).2 hp)
  refine ⟨fun c d => ?_, fun c => ?_, fun c => ?_⟩
  · rw [succs_addSuccessor hb, preds_addSuccessor hs]
    have hcd := h.edge c d
    by_cases hc : c = b <;> by_cases hd : d = s <;> simp [hc, hd, hmem] <;> simp_all
  · rw [succs_addSuccessor hb]
    split
    · rename_i hc
      obtain ⟨rfl, -⟩ := hc
      exact (h.succs_nodup c).append (List.nodup_singleton s) (by simpa using hmem)
    · exact h.succs_nodup c
  · rw [preds_addSuccessor hs]
    split
    · rename_i hc
      obtain ⟨rfl, -⟩ := hc
      exact (h.preds_nodup c).append (List.nodup_singleton b) (by simpa using hpred)
    · exact h.preds_nodup c

theorem Linked.removeSuccessor (h : f.Linked) : (f.removeSuccessor b s).Linked := by
  refine ⟨fun c d => ?_, fun c => ?_, fun c => ?_⟩
  · rw [succs_removeSuccessor, preds_removeSuccessor]
    have hcd := h.edge c d
    by_cases hc : c = b <;> by_cases hd : d = s <;> simp [hc, hd] <;> simp_all
  · rw [succs_removeSuccessor]
    split
    · exact (h.succs_nodup c).filter _
    · exact h.succs_nodup c
  · rw [preds_removeSuccessor]
    split
    · exact (h.preds_nodup c).filter _
    · exact h.preds_nodup c

/-! ### Operations on instructions -/

theorem Housed.moved (h : f.Housed)
    (hparent : ∀ j, f'.parent j = if j ∈ is then some b else f.parent j)
    (hcode : ∀ c j, j ∈ f'.code c ↔ if j ∈ is then c = b else j ∈ f.code c)
    (hnodup : ∀ c, (f'.code c).Nodup) : f'.Housed := by
  refine ⟨fun j c => ?_, hnodup⟩
  rw [hparent, hcode]
  split
  · rw [Option.some.injEq]
    exact eq_comm
  · exact h.parent_eq j c

/-- Instructions that stand nowhere. -/
structure Free (f : Function) (is : List Nat) : Prop where
  nodup : is.Nodup
  lt_size : ∀ i ∈ is, i < f.instrs.size
  parent_eq : ∀ i ∈ is, f.parent i = none

theorem free_newInstr (op : Op) (operands : List Operand) :
    (f.newInstr op operands).1.Free [(f.newInstr op operands).2] where
  nodup := List.nodup_singleton _
  lt_size i hi := by
    rw [List.mem_singleton.1 hi]
    simp [newInstr]
  parent_eq i hi := by
    rw [List.mem_singleton.1 hi, parent_newInstr]
    show (f.instr f.instrs.size).parent = none
    rw [instr_of_le (Nat.le_refl _)]
    rfl

theorem Housed.not_mem_of_free (h : f.Housed) (hfree : f.Free is) (hi : i ∈ is) : i ∉ f.code c := by
  intro hc
  have := hfree.parent_eq i hi
  rw [(h.parent_eq i c).2 hc] at this
  cases this

theorem Housed.append (h : f.Housed) (hb : b < f.blocks.size) (hfree : f.Free is) :
    (f.append b is).Housed := by
  refine h.moved (parent_adopt hfree.lt_size) (fun c j => ?_) fun c => ?_
  · have hout := fun hj => h.not_mem_of_free (c := c) hfree (i := j) hj
    rw [code_append hb]
    by_cases hc : c = b <;> by_cases hj : j ∈ is <;> simp [hc, hj]
    exact hout hj
  · rw [code_append hb]
    split
    · exact (h.code_nodup c).append hfree.nodup fun j hj hj' => h.not_mem_of_free hfree hj' hj
    · exact h.code_nodup c

theorem Housed.prepend (h : f.Housed) (hb : b < f.blocks.size) (hfree : f.Free is) :
    (f.prepend b is).Housed := by
  refine h.moved (parent_adopt hfree.lt_size) (fun c j => ?_) fun c => ?_
  · have hout := fun hj => h.not_mem_of_free (c := c) hfree (i := j) hj
    rw [code_prepend hb]
    by_cases hc : c = b <;> by_cases hj : j ∈ is <;> simp [hc, hj]
    exact hout hj
  · rw [code_prepend hb]
    split
    · exact hfree.nodup.append (h.code_nodup c) fun j hj hj' => h.not_mem_of_free hfree hj hj'
    · exact h.code_nodup c

theorem parent_splice (h : ∀ i ∈ f.code source, i < f.instrs.size) (j : Nat) :
    (f.splice b source start).parent j = if j ∈
    (f.code source).drop start then some b else f.parent j := by
  rw [splice_eq]
  split
  · rename_i hempty
    rw [List.isEmpty_iff.1 hempty]
    rfl
  · exact parent_adopt (f := f.modifyBlock source _) (fun i hi => h i (List.mem_of_mem_drop hi)) j

theorem Housed.splice (h : f.Housed) (hb : b < f.blocks.size) :
    (f.splice b source start).Housed := by
  have hsplit : ∀ j, j ∈ f.code source ↔
      j ∈ (f.code source).take start ∨ j ∈ (f.code source).drop start := fun j => by
    rw [← List.mem_append, List.take_append_drop]
  have hdisjoint : ∀ j, j ∈ (f.code source).take start → j ∉ (f.code source).drop start := by
    have := h.code_nodup source
    rw [← List.take_append_drop start (f.code source)] at this
    exact fun j hj hj' => (List.nodup_append.1 this).2.2 j hj j hj' rfl
  -- what is listed in `source` is listed nowhere else
  have honly : ∀ c j, j ∈ f.code source → j ∈ f.code c → c = source := by
    intro c j hj hc
    have := (h.parent_eq j c).2 hc
    rw [(h.parent_eq j source).2 hj] at this
    exact (Option.some.inj this).symm
  refine h.moved (parent_splice fun _ => h.lt_of_mem) (fun c j => ?_) fun c => ?_
  · rw [code_splice hb]
    have := hsplit j
    have := hdisjoint j
    have := honly c j
    by_cases hs : c = source <;> by_cases hc : c = b <;> by_cases hj :
      j ∈ (f.code source).drop start <;> simp_all
    exact fun ht => hdisjoint j ht hj
  · rw [code_splice hb]
    refine List.Nodup.append ?_ ?_ ?_
    · split
      · exact (h.code_nodup c).sublist (List.take_sublist _ _)
      · exact h.code_nodup c
    · split
      · exact (h.code_nodup source).sublist (List.drop_sublist _ _)
      · exact List.nodup_nil
    · intro j hj hj'
      split at hj'
      · split at hj
        · rename_i hs
          rw [hs] at hj
          exact hdisjoint j hj hj'
        · rename_i hs
          exact hs (honly c j (List.mem_of_mem_drop hj') hj)
      · cases hj'

theorem parent_remove (hi : i ∈ f.code b) (hlt : i < f.instrs.size) (j : Nat) :
    (f.remove b i).1.parent j = if j = i then none else f.parent j := by
  rw [remove_eq, if_pos hi, parent, instr_modifyInstr]
  by_cases hij : i = j
  · subst hij
    rw [if_pos ⟨rfl, hlt⟩, if_pos rfl]
  · rw [if_neg fun hc => hij hc.1, if_neg (Ne.symm hij)]
    rfl

theorem Housed.remove (h : f.Housed) : (f.remove b i).1.Housed := by
  by_cases hi : i ∈ f.code b
  · refine ⟨fun j c => ?_, fun c => ?_⟩
    · rw [parent_remove hi (h.lt_of_mem hi), code_remove]
      have hj := h.parent_eq j c
      have hb := (h.parent_eq i b).2 hi
      by_cases hij : j = i
      · subst hij
        by_cases hc : c = b
        · subst hc
          simp [(h.code_nodup c).not_mem_erase]
        · rw [hb, Option.some.injEq] at hj
          simp [hc, ← hj, Ne.symm hc]
      · rw [if_neg hij, hj]
        split
        · rw [List.mem_erase_of_ne hij]
        · rfl
    · rw [code_remove]
      split
      · exact (h.code_nodup c).erase i
      · exact h.code_nodup c
  · rw [remove_eq, if_neg hi]
    exact h

/-! ### Operations on the layout -/

theorem placeAfter_eq_some {l l' : List Nat} (h : placeAfter pos b l = some l') :
    ∃ l₁ l₂, l = l₁ ++ pos :: l₂ ∧ pos ∉ l₁ ∧ l' = l₁ ++ pos :: b :: l₂ := by
  induction l generalizing l' with
  | nil => cases h
  | cons c l ih =>
    rw [placeAfter] at h
    split at h
    · rename_i hc
      cases h
      exact ⟨[], l, by simp [hc], by simp, by simp [hc]⟩
    · rename_i hc
      obtain ⟨l₀, h₀, rfl⟩ := Option.map_eq_some_iff.1 h
      obtain ⟨l₁, l₂, rfl, hpos, rfl⟩ := ih h₀
      exact ⟨c :: l₁, l₂, rfl, by simp [hpos, Ne.symm hc], rfl⟩

theorem insertAfter_eq_some (h : f.insertAfter pos b = some f') :
    ∃ l₁ l₂, f.layout = l₁ ++ pos :: l₂ ∧ pos ∉ l₁ ∧
    f' = { f with layout := l₁ ++ pos :: b :: l₂ } := by
  obtain ⟨l, hl, rfl⟩ := Option.map_eq_some_iff.1 h
  obtain ⟨l₁, l₂, hlayout, hpos, rfl⟩ := placeAfter_eq_some hl
  exact ⟨l₁, l₂, hlayout, hpos, rfl⟩

theorem mem_layout_insertAfter (h : f.insertAfter pos b = some f') :
    c ∈ f'.layout ↔ c = b ∨ c ∈ f.layout := by
  obtain ⟨l₁, l₂, hlayout, -, rfl⟩ := insertAfter_eq_some h
  simp only [hlayout, List.mem_append, List.mem_cons]
  tauto

theorem Ordered.insertAfter (h : f.Ordered) (hb : b < f.blocks.size) (hnew : b ∉ f.layout)
    (hf : f.insertAfter pos b = some f') : f'.Ordered := by
  have hmem := fun c => mem_layout_insertAfter (c := c) hf
  obtain ⟨l₁, l₂, hlayout, -, rfl⟩ := insertAfter_eq_some hf
  have hnodup := h.layout_nodup
  refine ⟨?_, fun c hc => ?_⟩
  · have hperm : (l₁ ++ pos :: b :: l₂).Perm (b :: (l₁ ++ pos :: l₂)) := by
      rw [show l₁ ++ pos :: b :: l₂ = (l₁ ++ [pos]) ++ b :: l₂ by simp,
        show l₁ ++ pos :: l₂ = (l₁ ++ [pos]) ++ l₂ by simp]
      exact List.perm_middle
    rw [hlayout] at hnodup hnew
    exact hperm.nodup_iff.2 (List.nodup_cons.2 ⟨hnew, hnodup⟩)
  · rcases (hmem c).1 hc with rfl | hc
    · exact hb
    · exact h.lt_size c hc

theorem Ordered.newBlock (h : f.Ordered) (name : String) : (f.newBlock name).1.Ordered := by
  have hsize : (f.newBlock name).1.blocks.size = f.blocks.size + 1 := size_createBlock f name
  refine ⟨?_, fun c hc => ?_⟩
  · show (f.layout ++ [f.blocks.size]).Nodup
    refine h.layout_nodup.append (List.nodup_singleton _) fun c hc hc' => ?_
    have := h.lt_size c hc
    rw [List.mem_singleton.1 hc'] at this
    exact Nat.lt_irrefl _ this
  · rw [hsize]
    rcases List.mem_append.1 hc with hc | hc
    · exact Nat.lt_succ_of_lt (h.lt_size c hc)
    · rw [List.mem_singleton.1 hc]
      exact Nat.lt_succ_self _

/-! ### All of it -/

/-- What moving an edge keeps, moving all edges of a block keeps. -/
theorem transferSuccessors_keeps {P : Function → Prop} (h : P f) (hb : b < f.blocks.size)
    (hs : ∀ s ∈ f.succs source, s < f.blocks.size)
    (hstep : ∀ f s, P f → b < f.blocks.size → s < f.blocks.size →
      P (transferSuccessor b source f s)) :
    P (f.transferSuccessors b source) := by
  rw [transferSuccessors, ← succs]
  generalize f.succs source = ss at hs
  induction ss generalizing f with
  | nil => exact h
  | cons s ss ih =>
    have hsize : (transferSuccessor b source f s).blocks.size = f.blocks.size := by
      rw [transferSuccessor, retargetPhis_eq]
      exact ((Rewired.removeSuccessor f source s).trans (.addSuccessor _ b s)).size
    have hstepped := hstep f s h hb (hs s List.mem_cons_self)
    rw [List.foldl_cons]
    generalize transferSuccessor b source f s = f' at hsize hstepped
    refine ih hstepped (hsize ▸ hb) fun c hc => ?_
    rw [hsize]
    exact hs c (List.mem_cons_of_mem s hc)

namespace WellFormed

theorem empty (name : String) : WellFormed { name } := by
  have hblock : ∀ b, Function.block { name } b = default := fun _ => block_of_le (Nat.zero_le _)
  have hinstr : ∀ i, Function.instr { name } i = default := fun _ => instr_of_le (Nat.zero_le _)
  have hnil : (default : Block).succs = [] ∧ (default : Block).preds = [] ∧
    (default : Block).instrs = [] := ⟨rfl, rfl, rfl⟩
  have hnone : (default : Instr).parent = none := rfl
  constructor
  · constructor <;> simp [succs, preds, hblock, hnil]
  · constructor <;> simp
  · constructor <;> simp [code, parent, hblock, hinstr, hnil, hnone]

variable (h : f.WellFormed)

include h

theorem rehoused (r : Rehoused f f') (hhoused : f'.Housed) : f'.WellFormed :=
  ⟨h.toLinked.congr r.succs r.preds, h.toOrdered.congr r.layout (Nat.le_of_eq r.size.symm), hhoused⟩

theorem rewired (r : Rewired f f') (hlinked : f'.Linked) : f'.WellFormed :=
  ⟨hlinked, h.toOrdered.congr r.layout (Nat.le_of_eq r.size.symm),
    h.toHoused.congr r.code fun j => congrArg Instr.parent (r.instr j)⟩

theorem of_blocks (hb : f'.blocks = f.blocks) (ho : f'.Ordered)
    (hp : ∀ i, f'.parent i = f.parent i) : f'.WellFormed := by
  have hblock : ∀ b, f'.block b = f.block b := fun b => by rw [block, block, hb]
  exact ⟨h.toLinked.congr (fun b => congrArg _ (hblock b)) fun b => congrArg _ (hblock b), ho,
    h.toHoused.congr (fun b => congrArg _ (hblock b)) hp⟩

theorem createBlock (name : String) : (f.createBlock name).1.WellFormed where
  toLinked := h.toLinked.congr (createBlock_keeps Block.succs name rfl)
    (createBlock_keeps Block.preds name rfl)
  toOrdered := h.toOrdered.congr rfl (by simp)
  toHoused := h.toHoused.congr (createBlock_keeps Block.instrs name rfl) fun _ => rfl

theorem newBlock (name : String) : (f.newBlock name).1.WellFormed :=
  (h.createBlock name).of_blocks rfl (h.toOrdered.newBlock name) fun _ => rfl

theorem insertAfter (hb : b < f.blocks.size) (hnew : b ∉ f.layout)
    (hf : f.insertAfter pos b = some f') : f'.WellFormed := by
  have hordered := h.toOrdered.insertAfter hb hnew hf
  obtain ⟨l₁, l₂, -, -, rfl⟩ := insertAfter_eq_some hf
  exact h.of_blocks rfl hordered fun _ => rfl

theorem newVirtual : f.newVirtual.1.WellFormed :=
  h.of_blocks rfl (h.toOrdered.congr rfl (Nat.le_refl _)) fun _ => rfl

theorem newInstr (op : Op) (operands : List Operand) :
    (f.newInstr op operands).1.WellFormed :=
  h.of_blocks rfl (h.toOrdered.congr rfl (Nat.le_refl _)) (parent_newInstr op operands)

theorem addLiveIn (b : Nat) (r : Register) : (f.addLiveIn b r).WellFormed where
  toLinked := h.toLinked.congr (fun _ => modifyBlock_keeps Block.succs (by intro x; split <;> rfl))
    fun _ => modifyBlock_keeps Block.preds (by intro x; split <;> rfl)
  toOrdered := h.toOrdered.congr rfl (Nat.le_of_eq (size_modifyBlock _).symm)
  toHoused := h.toHoused.congr
    (fun _ => modifyBlock_keeps Block.instrs (by intro x; split <;> rfl)) fun _ => rfl

theorem append (hb : b < f.blocks.size) (hfree : f.Free is) : (f.append b is).WellFormed :=
  h.rehoused (.append f b is) (h.toHoused.append hb hfree)

theorem prepend (hb : b < f.blocks.size) (hfree : f.Free is) : (f.prepend b is).WellFormed :=
  h.rehoused (.prepend f b is) (h.toHoused.prepend hb hfree)

theorem remove (b i : Nat) : (f.remove b i).1.WellFormed :=
  h.rehoused (.remove f b i) h.toHoused.remove

theorem splice (hb : b < f.blocks.size) (source start : Nat) :
    (f.splice b source start).WellFormed :=
  h.rehoused (.splice f b source start) (h.toHoused.splice hb)

theorem addSuccessor (hb : b < f.blocks.size) (hs : s < f.blocks.size) :
    (f.addSuccessor b s).WellFormed :=
  h.rewired (.addSuccessor f b s) (h.toLinked.addSuccessor hb hs)

theorem removeSuccessor (b s : Nat) : (f.removeSuccessor b s).WellFormed :=
  h.rewired (.removeSuccessor f b s) h.toLinked.removeSuccessor

theorem retargetPhis (s old new : Nat) : (f.retargetPhis s old new).WellFormed := by
  have hparent : ∀ j, (f.retargetPhis s old new).parent j = f.parent j := fun j => by
    rw [parent, instr_retargetPhis]
    split <;> rfl
  rw [retargetPhis_eq] at hparent ⊢
  exact h.of_blocks rfl (h.toOrdered.congr rfl (Nat.le_refl _)) hparent

theorem transferSuccessors (hb : b < f.blocks.size) (source : Nat) :
    (f.transferSuccessors b source).WellFormed :=
  transferSuccessors_keeps h hb (fun s hs => lt_of_mem_preds ((h.edge source s).1 hs))
    fun f s h hb hs => ((h.removeSuccessor source s).addSuccessor
    ((Rewired.removeSuccessor f source s).size.symm ▸ hb)
      ((Rewired.removeSuccessor f source s).size.symm ▸ hs)).retargetPhis s source b

end WellFormed

end Function

end GraphLowering.Machine
