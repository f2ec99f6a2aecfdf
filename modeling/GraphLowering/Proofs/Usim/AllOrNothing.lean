import GraphLowering.Proofs.Usim.Built

/-!
# Expansions do all or nothing

However a function came about, also if an instruction is listed more than once, expanding an
instruction that cannot be expanded changes nothing, and expanding any other keeps all code but the
instruction (`insertInto_all_or_nothing`). Another listing of the instruction stays:
`expanded_stays_listed` has one behind it in the same block.
-/

namespace GraphLowering.Usim.Pseudo

open Machine (Function Op Operand)
open Machine.Function

variable {f f' : Function} {i b tail : Nat} {pre post : List Nat} {p : Plan}

/-- The functions that operations make in any order and number, on blocks and instructions that
there are. Unlike in `Built`, an instruction may be listed again and again, and a block laid out;
what is expanded may fail. -/
inductive Made : Function → Prop where
  | empty (name : String) : Made { name }
  | createBlock {f : Function} (h : Made f) (name : String) : Made (f.createBlock name).1
  | newBlock {f : Function} (h : Made f) (name : String) : Made (f.newBlock name).1
  | insertAfter {f f' : Function} {pos b : Nat} (h : Made f) (hb : b < f.blocks.size)
      (hf : f.insertAfter pos b = some f') : Made f'
  | newVirtual {f : Function} (h : Made f) : Made f.newVirtual.1
  | newInstr {f : Function} (h : Made f) (op : Op) (operands : List Operand) :
      Made (f.newInstr op operands).1
  | addLiveIn {f : Function} (h : Made f) (b : Nat) (r : Register) : Made (f.addLiveIn b r)
  | append {f : Function} {b : Nat} {is : List Nat} (h : Made f) (hb : b < f.blocks.size)
      (his : ∀ i ∈ is, i < f.instrs.size) : Made (f.append b is)
  | prepend {f : Function} {b : Nat} {is : List Nat} (h : Made f) (hb : b < f.blocks.size)
      (his : ∀ i ∈ is, i < f.instrs.size) : Made (f.prepend b is)
  | remove {f : Function} (h : Made f) (b i : Nat) : Made (f.remove b i).1
  | splice {f : Function} {b : Nat} (h : Made f) (hb : b < f.blocks.size) (source start : Nat) :
      Made (f.splice b source start)
  | addSuccessor {f : Function} {b s : Nat} (h : Made f) (hb : b < f.blocks.size)
      (hs : s < f.blocks.size) : Made (f.addSuccessor b s)
  | removeSuccessor {f : Function} (h : Made f) (b s : Nat) : Made (f.removeSuccessor b s)
  | transferSuccessors {f : Function} {b : Nat} (h : Made f) (hb : b < f.blocks.size)
      (source : Nat) : Made (f.transferSuccessors b source)
  | expand {f : Function} (h : Made f) (i b : Nat) : Made (insertInto f i b).2.2

/-! ### A function that cannot be expanded is left alone -/

theorem insertInto_error {log : List LogRecord} {e : PseudoFault}
    (h : insertInto f i b = (log, .error e, f')) : f' = f := by
  rw [insertInto] at h
  split at h
  · cases h
    rfl
  · obtain ⟨-, h⟩ := Prod.mk.inj h
    rcases expandPseudo_outcome f i b with ⟨e', he⟩ | ⟨x, t, g, -, he⟩ <;> rw [he] at h <;> cases h
    rfl

theorem Made.coherent (h : Made f) : f.Coherent := by
  induction h with
  | empty name => exact .empty name
  | createBlock _ name ih => exact ih.createBlock name
  | newBlock _ name ih => exact ih.newBlock name
  | insertAfter _ hb hf ih => exact ih.insertAfter hb hf
  | newVirtual _ ih => exact ih.newVirtual
  | newInstr _ op operands ih => exact ih.newInstr op operands
  | addLiveIn _ b r ih => exact ih.addLiveIn b r
  | append _ hb his ih => exact ih.append hb his
  | prepend _ hb his ih => exact ih.prepend hb his
  | remove _ b i ih => exact ih.remove b i
  | splice _ hb source start ih => exact ih.splice hb source start
  | addSuccessor _ hb hs ih => exact ih.addSuccessor hb hs
  | removeSuccessor _ b s ih => exact ih.removeSuccessor b s
  | transferSuccessors _ hb source ih => exact ih.transferSuccessors hb source
  | @expand f _ i b ih =>
    rcases he : insertInto f i b with ⟨log, e | tail, f'⟩
    · exact insertInto_error he ▸ ih
    · obtain ⟨pre, post, p, -, -, -, hx, -⟩ :=
        expanded_of_insertInto ih.toInRange (ih.listed i b) he
      exact hx.keeps.coherent ih

/-! ### Nothing but the instruction is lost -/

/-- Block `b`, in which `pre` stands before instruction `i` and `post` behind it, was divided: what
is behind stands in block `tail`, and a block was put in between. -/
structure Divided (f f' : Function) (i b tail : Nat) (pre post : List Nat) : Prop where
  code : f.code b = pre ++ i :: post
  first : i ∉ pre
  tail_eq : tail = f.blocks.size + 1
  size : f'.blocks.size = f.blocks.size + 2
  code_head : ∃ new, f'.code b = pre ++ new ∧ ∀ j ∈ new, f.instrs.size ≤ j
  code_tail : ∃ new, f'.code tail = new ++ post ∧ new.length ≤ 1 ∧
    ∀ j ∈ new, f.instrs.size ≤ j ∧ (f'.instr j).op = .phi
  code_other : ∀ c < f.blocks.size, c ≠ b → f'.code c = f.code c
  /-- Where the instruction is listed still: where it was listed besides. -/
  listed : ∀ c, i ∈ f'.code c ↔ c = tail ∧ i ∈ post ∨ c < f.blocks.size ∧ c ≠ b ∧ i ∈ f.code c
  layout : ∃ l₁ l₂, f.layout = l₁ ++ b :: l₂ ∧ b ∉ l₁ ∧
    f'.layout = l₁ ++ b :: f.blocks.size :: tail :: l₂
  liveIns : ∀ c, f'.liveIns c = if c = f.blocks.size ∨ c = tail then f.liveIns b else f.liveIns c
  succs_tail : ∀ s, s ∈ f'.succs tail ↔ s ∈ f.succs b
  succs_other : ∀ c < f.blocks.size, c ≠ b → ∀ s, s ∈ f'.succs c ↔ s ∈ f.succs c
  /-- Phis at the heads of the former successors name `tail` where they named `b`. -/
  content : ∀ j < f.instrs.size, f'.content j =
    if ∃ s ∈ f.succs b, j ∈
      f.phis s then ((f.instr j).op, ((f.instr j).retarget b tail).operands) else f.content j

theorem Planned.join_phi (h : Planned f i b p) : ∀ x ∈ p.join, x.1 = .phi := by
  cases h <;> simp [selectPlan, atomicPlan]

theorem Planned.fits (h : Planned f i b p) : p.Fits f := by
  cases h with
  | select dst lhs rhs ifTrue ifFalse cc => exact fits_selectPlan f b dst lhs rhs ifTrue ifFalse _
  | atomicLoadAdd dst ptr inc => exact fits_atomicPlan f dst ptr inc

theorem Expanded.op_join (hx : Expanded f f' i b pre post p) (hp : Planned f i b p) {j : Nat}
    (hj : j ∈ List.range' (f.instrs.size + p.test.length + p.body.length) p.join.length) :
    f.instrs.size ≤ j ∧ (f'.instr j).op = .phi := by
  obtain ⟨k, hk, rfl⟩ := List.mem_range'.1 hj
  obtain ⟨x, hjoin⟩ : ∃ x, p.join[k]? = some x := ⟨p.join[k], List.getElem?_eq_getElem hk⟩
  have hget : p.code[p.test.length + p.body.length + k]? = some x := by
    rw [Plan.code, List.getElem?_append_right (by simp), List.length_append,
      Nat.add_sub_cancel_left, hjoin]
  have hcontent := hx.new _ x hget
  refine ⟨by omega, ?_⟩
  rw [Nat.one_mul, Nat.add_assoc, Nat.add_assoc, ← Nat.add_assoc p.test.length]
  exact (congrArg Prod.fst hcontent).trans (hp.join_phi x (List.mem_of_getElem? hjoin))

/-- Besides the place where it was expanded, an old instruction is listed where it was. -/
theorem Expanded.mem_code_iff (hx : Expanded f f' i b pre post p) (hb : b < f.blocks.size)
    (hlt : i < f.instrs.size) (hi : i ∉ pre) (c : Nat) : i ∈ f'.code c ↔
      c = f.blocks.size + 1 ∧ i ∈ post ∨ c < f.blocks.size ∧ c ≠ b ∧ i ∈ f.code c := by
  have hnew : ∀ k n, i ∉ List.range' (f.instrs.size + k) n := by
    simp only [List.mem_range'_1, not_and]
    omega
  obtain rfl | rfl | rfl | ⟨hc, hcb⟩ | hc : c = b ∨ c = f.blocks.size ∨ c = f.blocks.size + 1 ∨
      (c < f.blocks.size ∧ c ≠ b) ∨ f.blocks.size + 2 ≤ c := by omega
  · have hhead : i ∉ List.range' f.instrs.size p.test.length := hnew 0 _
    have hc : c ≠ f.blocks.size + 1 := by omega
    simp [hx.code_head, hi, hhead, hc]
  · simp [hx.code_body, hnew]
  · have hc : ¬ f.blocks.size + 1 < f.blocks.size := by omega
    simp [hx.code_tail, hnew, Nat.add_assoc, hc]
  · have hc' : c ≠ f.blocks.size + 1 := by omega
    simp [hx.code_other c hc hcb, hc, hcb, hc']
  · rw [code_of_le (hx.size.symm ▸ hc)]
    simp only [List.not_mem_nil, false_iff]
    omega

theorem divided_of_expanded (h : f.Coherent) (hcode : f.code b = pre ++ i :: post) (hi : i ∉ pre)
    (hp : Planned f i b p) (hx : Expanded f f' i b pre post p) :
    Divided f f' i b (f.blocks.size + 1) pre post := by
  have hmem : i ∈ f.code b := by simp [hcode]
  have hb : b < f.blocks.size := lt_of_mem_code hmem
  refine
    { code := hcode
      first := hi
      tail_eq := rfl
      size := hx.size
      code_head := ⟨_, hx.code_head, fun j hj => (List.mem_range'_1.1 hj).1⟩
      code_tail := ⟨_, hx.code_tail, by simpa using hp.fits.join, fun j => hx.op_join hp⟩
      code_other := hx.code_other
      listed := hx.mem_code_iff hb (h.code b i hmem) hi
      layout := hx.layout
      liveIns := hx.liveIns (h.live_nodup b)
      succs_tail := fun s => ?_
      succs_other := fun c hc hcb s => ?_
      content := hx.old }
  · rw [hx.succs, if_neg (by omega), if_neg (by omega), if_pos rfl]
  · rw [hx.succs, if_neg hcb, if_neg (by omega), if_neg (by omega)]

/-- Expanding an instruction either fails and leaves the function as it was, or divides the block:
the code before the instruction stays, that behind it follows in the block that is returned, and the
instruction is listed only where it was listed besides. -/
theorem insertInto_all_or_nothing (f : Function) (h : Made f) (i b : Nat) :
    (∃ log e, insertInto f i b = (log, .error e, f)) ∨
      ∃ log tail f' pre post, insertInto f i b = (log, .ok tail, f') ∧
      Divided f f' i b tail pre post := by
  rcases he : insertInto f i b with ⟨log, e | tail, f'⟩
  · exact .inl ⟨log, e, by rw [insertInto_error he]⟩
  · obtain ⟨pre, post, p, hcode, hi, hp, hx, rfl⟩ :=
      expanded_of_insertInto h.coherent.toInRange (h.coherent.listed i b) he
    exact .inr ⟨log, _, f', pre, post, rfl, divided_of_expanded h.coherent hcode hi hp hx⟩

/-- A block that is its own successor: a phi, a select and an addition, with a register that is
live. -/
def liveLoop : Function :=
  let f : Function := (Function.newBlock { name := "f" } "body").1
  let f := (f.newInstr .phi [.define (.virt 5), .use (.virt 0), .block 0]).1
  let f := (f.newInstr Instr.select selectOperands).1
  let f := (f.newInstr Instr.addRR [.define (.virt 6), .use (.virt 0), .use (.virt 5)]).1
  ((f.append 0 [0, 1, 2]).addSuccessor 0 0).addLiveIn 0 (.virt 1)

theorem insertInto_all_or_nothing_liveLoop :
    ∃ log tail f' pre post, insertInto liveLoop 1 0 = (log, .ok tail, f') ∧
    Divided liveLoop f' 1 0 tail pre post := by
  have hmade : Made liveLoop :=
    .addLiveIn (.addSuccessor
      (.append (.newInstr (.newInstr (.newInstr (.newBlock (.empty _) _) _ _) _ _) _ _) (by decide)
      (by decide)) (by decide +kernel) (by decide +kernel)) _ _
  have hok : (insertInto liveLoop 1 0).2.1.isOk = true := by decide +kernel
  rcases insertInto_all_or_nothing liveLoop hmade 1 0 with ⟨log, e, he⟩ | hdivided
  · rw [he] at hok
    cases hok
  · exact hdivided

/-- A block that lists an atomic addition twice. -/
def listedTwice : Function :=
  let f : Function := (Function.newBlock { name := "f" } "bb").1
  let f := (f.newInstr Instr.atomicLoadAdd [.define (.virt 0), .use (.virt 1), .use (.virt 2)]).1
  f.append 0 [0, 0]

/-- The second listing of an instruction that is expanded stays. -/
theorem expanded_stays_listed :
    Made listedTwice ∧ ∃ log tail f', insertInto listedTwice 0 0 = (log, .ok tail, f') ∧
    f'.code tail = [0] := by
  refine ⟨.append (.newInstr (.newBlock (.empty _) _) _ _) (by decide) (by decide), ?_⟩
  have hstays : (insertInto listedTwice 0 0).2.1.toOption.map
      (insertInto listedTwice 0 0).2.2.code = some [0] := by
    decide +kernel
  generalize insertInto listedTwice 0 0 = r at hstays ⊢
  obtain ⟨log, e | tail, f'⟩ := r
  · cases hstays
  · exact ⟨log, tail, f', rfl, Option.some.inj hstays⟩

end GraphLowering.Usim.Pseudo
