import GraphLowering.Proofs.Usim.Expansion

/-!
# Functions that are built

A function is built by the operations on blocks and by expanding pseudo instructions. Whatever the
order of these, the records of edges and places agree. An expansion keeps the phis in step with the
edges, also for a block that is its own successor, as long as no phi stands right behind the
instruction: such a phi would come to stand at the head of the new block, with other predecessors.
-/

namespace GraphLowering.Usim.Pseudo

open Machine (Function Op Operand)
open Machine.Function

/-- The functions that operations on blocks and expansions make. An instruction is put into a block
while it stands in none, and a block into the layout while it is not in it. -/
inductive Built : Function → Prop where
  | empty (name : String) : Built { name }
  | createBlock {f : Function} (h : Built f) (name : String) : Built (f.createBlock name).1
  | newBlock {f : Function} (h : Built f) (name : String) : Built (f.newBlock name).1
  | insertAfter {f f' : Function} {pos b : Nat} (h : Built f) (hb : b < f.blocks.size)
      (hnew : b ∉ f.layout) (hf : f.insertAfter pos b = some f') : Built f'
  | newVirtual {f : Function} (h : Built f) : Built f.newVirtual.1
  | newInstr {f : Function} (h : Built f) (op : Op) (operands : List Operand) :
      Built (f.newInstr op operands).1
  | addLiveIn {f : Function} (h : Built f) (b : Nat) (r : Register) : Built (f.addLiveIn b r)
  | append {f : Function} {b : Nat} {is : List Nat} (h : Built f) (hb : b < f.blocks.size)
      (hfree : f.Free is) : Built (f.append b is)
  | prepend {f : Function} {b : Nat} {is : List Nat} (h : Built f) (hb : b < f.blocks.size)
      (hfree : f.Free is) : Built (f.prepend b is)
  | remove {f : Function} (h : Built f) (b i : Nat) : Built (f.remove b i).1
  | splice {f : Function} {b : Nat} (h : Built f) (hb : b < f.blocks.size) (source start : Nat) :
      Built (f.splice b source start)
  | addSuccessor {f : Function} {b s : Nat} (h : Built f) (hb : b < f.blocks.size)
      (hs : s < f.blocks.size) : Built (f.addSuccessor b s)
  | removeSuccessor {f : Function} (h : Built f) (b s : Nat) : Built (f.removeSuccessor b s)
  | transferSuccessors {f : Function} {b : Nat} (h : Built f) (hb : b < f.blocks.size)
      (source : Nat) : Built (f.transferSuccessors b source)
  | expand {f f' : Function} {i b tail : Nat} {log : List LogRecord} (h : Built f)
      (hf : insertPseudo f i b = (log, .ok (f', tail))) : Built f'

variable {f f' : Function} {i b : Nat}

theorem Built.wellFormed (h : Built f) : f.WellFormed := by
  induction h with
  | empty name => exact .empty name
  | createBlock _ name ih => exact ih.createBlock name
  | newBlock _ name ih => exact ih.newBlock name
  | insertAfter _ hb hnew hf ih => exact ih.insertAfter hb hnew hf
  | newVirtual _ ih => exact ih.newVirtual
  | newInstr _ op operands ih => exact ih.newInstr op operands
  | addLiveIn _ b r ih => exact ih.addLiveIn b r
  | append _ hb hfree ih => exact ih.append hb hfree
  | prepend _ hb hfree ih => exact ih.prepend hb hfree
  | remove _ b i ih => exact ih.remove b i
  | splice _ hb source start ih => exact ih.splice hb source start
  | addSuccessor _ hb hs ih => exact ih.addSuccessor hb hs
  | removeSuccessor _ b s ih => exact ih.removeSuccessor b s
  | transferSuccessors _ hb source ih => exact ih.transferSuccessors hb source
  | expand _ hf ih =>
    obtain ⟨pre, post, p, -, -, hx, -⟩ := expanded_of_insertPseudo ih hf
    exact hx.keeps.wellFormed ih

/-- No phi stands right behind an instruction of a block. -/
def NoPhiBehind (f : Function) (b i : Nat) : Prop :=
  ∀ j ∈ (f.code b)[(f.code b).idxOf i + 1]?, (f.instr j).op ≠ .phi

instance : Decidable (NoPhiBehind f b i) := inferInstanceAs (Decidable (∀ j ∈ _, _))

/-- Whatever was done to a function, its edges and places are recorded alike at both ends and
without repetition; and an expansion keeps the phis at the heads of blocks in step with the edges if
no phi stands right behind the instruction. -/
theorem built_edges_phis (f : Function) (h : Built f) :
    f.WellFormed ∧ ∀ i b log f' tail, insertPseudo f i b = (log, .ok (f', tail)) →
    NoPhiBehind f b i →
      PhisNamePreds f → PhisNamePreds f' := by
  have hw := h.wellFormed
  refine ⟨hw, fun i b log f' tail he hbehind hphis => ?_⟩
  obtain ⟨pre, post, p, hcode, hp, hx, -⟩ := expanded_of_insertPseudo hw he
  have hi := hw.toHoused.notMem_before hcode
  refine hx.phisNamePreds hp hw hcode (fun j hj => hbehind j ?_) hphis
  rw [hcode, List.idxOf_append_of_notMem hi, List.idxOf_cons_self, Nat.add_zero,
    List.getElem?_append_right (Nat.le_add_right _ 1), Nat.add_sub_cancel_left]
  simpa [List.head?_eq_getElem?] using hj

/-- The operands of a select between registers 3 and 4 that compares registers 1 and 2. -/
def selectOperands : List Operand :=
  .define (.virt 0) :: (List.range 4).map (fun n => .use (.virt (n + 1))) ++ [.imm 3]

/-- An entry and a block with instructions. -/
def twoBlocks (code : List (Op × List Operand)) : Function :=
  let f : Function := (Function.newBlock { name := "f" } "entry").1
  let f := (f.newBlock "body").1
  emit (f.addSuccessor 0 1) 1 code

theorem built_emit (h : Built f) (hb : b < f.blocks.size) (code : List (Op × List Operand)) :
    Built (emit f b code) := by
  induction code generalizing f with
  | nil => exact h
  | cons x code ih =>
    refine ih (.append (.newInstr h x.1 x.2) hb (free_newInstr x.1 x.2)) ?_
    rw [(Rehoused.append _ b _).size]
    exact hb

theorem built_twoBlocks (code : List (Op × List Operand)) : Built (twoBlocks code) :=
  built_emit (.addSuccessor (.newBlock (.newBlock (.empty _) _) _) (by decide) (by decide))
    (by decide) code

/-- A block that is its own successor: a phi, a select and an addition. -/
def selfLoop : Function :=
  (twoBlocks [
    (.phi, [.define (.virt 5), .use (.virt 6), .block 0, .use (.virt 0), .block 1]),
    (Instr.select, selectOperands),
    (Instr.addRR, [.define (.virt 6), .use (.virt 0), .use (.virt 5)])]).addSuccessor 1 1

theorem built_edges_phis_selfLoop :
    ∃ log f' tail, insertPseudo selfLoop 1 1 = (log, .ok (f', tail)) ∧ selfLoop.WellFormed ∧
      PhisNamePreds f' := by
  have hbuilt : Built selfLoop :=
    .addSuccessor (built_twoBlocks _) (by decide +kernel) (by decide +kernel)
  obtain ⟨hw, hkeep⟩ := built_edges_phis selfLoop hbuilt
  have hok : (insertPseudo selfLoop 1 1).2.isOk = true := by decide +kernel
  generalize he : insertPseudo selfLoop 1 1 = r at hok
  obtain ⟨log, e | ⟨f', tail⟩⟩ := r
  · cases hok
  · exact ⟨log, f', tail, rfl, hw, hkeep 1 1 log f' tail he (by decide +kernel) (by decide +kernel)⟩

/-- A phi right behind a select. -/
def phiBehind : Function :=
  twoBlocks [(Instr.select, selectOperands), (.phi, [.define (.virt 5), .use (.virt 6), .block 0])]

/-- A phi that stands right behind an expanded instruction does not name the predecessors of the
block at whose head it comes to stand. -/
theorem expansion_phi_behind :
    Built phiBehind ∧ PhisNamePreds phiBehind ∧
      ∃ log f' tail, insertPseudo phiBehind 0 1 = (log, .ok (f', tail)) ∧ ¬ PhisNamePreds f' := by
  refine ⟨built_twoBlocks _, by decide +kernel, ?_⟩
  have hbad : (insertPseudo phiBehind 0 1).2.toOption.any (fun r => ¬ PhisNamePreds r.1) =
      true := by
    decide +kernel
  generalize he : insertPseudo phiBehind 0 1 = r at hbad
  obtain ⟨log, e | ⟨f', tail⟩⟩ := r
  · cases hbad
  · exact ⟨log, f', tail, rfl, by simpa [Except.toOption] using hbad⟩

end GraphLowering.Usim.Pseudo
