import GraphLowering.Proofs.Usim.ExpansionMeaning

/-!
# Expansions preserve execution

An instruction that can be expanded is (`insertPseudo_of_planned`), and the new function runs in
step with the old one from every state (`expansion_in_step`). This needs phis to stand where the
expansion looks for them: `expansion_loses_phis` has functions for which they do not, and control
gets stuck at a phi.
-/

namespace GraphLowering.Usim.Pseudo

open Machine (Function Op Operand)
open Machine.Function

variable {x : Isa} {f f' : Function} {b i : Nat} {pre post : List Nat} {p p' : Plan} {m m' : State}

/-! ### Expansions succeed -/

theorem insertPseudo_of_planned (hw : f.WellFormed) (hb : b ∈ f.layout) (hi : i ∈ f.code b)
    (hp : Planned f i b p) : ∃ log f' tail, insertPseudo f i b = (log, .ok (f', tail)) := by
  obtain ⟨x, hx, -⟩ := pseudoInstr_of_planned hp
  have hout := expand_outcome f i b x
  rw [if_pos hb] at hout
  obtain ⟨tail, f', he⟩ := hout
  have hparent : (f.instr i).parent = some b := (hw.parent_eq i b).2 hi
  have hinto : (insertInto f i b).2 = (.ok tail, f') := by
    rw [insertInto, if_neg (not_not_intro hparent), expandPseudo_run, hx]
    exact he
  exact ⟨(insertInto f i b).1, f', tail, insertPseudo_eq_ok.2 (Prod.ext rfl hinto)⟩

theorem Planned.unique (h : Planned f i b p) (h' : Planned f i b p') : p = p' := by
  cases h with
  | select dst lhs rhs ifTrue ifFalse imm os hop hoperands hregisters =>
    cases h' with
    | select _ _ _ _ _ _ _ _ hoperands' hregisters' =>
      obtain ⟨rfl, himm⟩ := List.append_inj' (hoperands.symm.trans hoperands') rfl
      have hregs := hregisters.symm.trans hregisters'
      simp only [List.map_cons, List.map_nil, List.cons.injEq, Option.some.injEq, Operand.imm.injEq,
        and_true] at hregs himm
      obtain ⟨rfl, rfl, rfl, rfl, rfl⟩ := hregs
      rw [himm]
    | atomicLoadAdd _ _ _ hop' => exact absurd (hop.symm.trans hop') (by decide)
  | atomicLoadAdd dst ptr inc hop hregisters =>
    cases h' with
    | select _ _ _ _ _ _ _ hop' => exact absurd (hop.symm.trans hop') (by decide)
    | atomicLoadAdd _ _ _ _ hregisters' =>
      have hregs := hregisters.symm.trans hregisters'
      simp only [List.map_cons, List.map_nil, List.cons.injEq, Option.some.injEq, and_true] at hregs
      obtain ⟨rfl, rfl, rfl⟩ := hregs
      rfl

/-! ### From every state -/

/-- The state of the new function for a state of the old one. -/
def counterpart (f : Function) (b : Nat) (pre : List Nat) (p : Plan) (m : State) : State :=
  if m.block = b ∧ pre.length < m.index then
    { m with block := f.blocks.size + 1, index := p.join.length + (m.index - (pre.length + 1)) }
  else { m with pred := m.pred.map (origin f b) }

theorem inStep_counterpart (x : Isa) (b i : Nat) (pre : List Nat) (p : Plan)
    (hblock : m.block < f.blocks.size) (hpred : ∀ c ∈ m.pred, c < f.blocks.size) :
    InStep x f b i pre p m (counterpart f b pre p m) := by
  unfold counterpart
  split
  · rename_i h
    exact ⟨hblock, hpred, .behind _ h.1 (by omega) rfl rfl, ⟨fun _ _ => rfl, rfl⟩, .inl rfl,
      fun _ _ _ => rfl⟩
  · rename_i h
    exact ⟨hblock, hpred, .same (fun hb => Nat.le_of_not_lt fun hlt => h ⟨hb, hlt⟩) rfl rfl
      fun _ _ _ => rfl, ⟨fun _ _ => rfl, rfl⟩, .inl rfl, fun _ _ _ => rfl⟩

theorem Setting.run_back (h : Setting x f f' b i pre post p) (hs : InStep x f b i pre p m m')
    {n : Nat} {o : Outcome} (hrun : x.run f' n m' = o) (ho : ∀ a, o ≠ .running a) :
    Agree (InStep x f b i pre p) (Hidden f) (x.run f n m) o := by
  obtain ⟨n', hle, hagree⟩ := h.run n hs
  obtain ⟨k, rfl⟩ := Nat.exists_eq_add_of_le hle
  rwa [Isa.run_halted ho hrun] at hagree

/-- A pseudo instruction that makes sense is expanded. From every state, the new function runs in
step with the old one and ends as it does: with the same memory and, but for the new ones, the same
registers. -/
theorem expansion_in_step (x : Isa) (f : Function) (b i : Nat) (p : Plan) (h : Suited x f b i)
    (hb : b ∈ f.layout) (hi : i ∈ f.code b) (hp : Planned f i b p) :
    ∃ log f' tail pre post, insertPseudo f i b = (log, .ok (f', tail)) ∧
    f.code b = pre ++ i :: post ∧
      ∀ m : State, m.block < f.blocks.size → (∀ c ∈ m.pred, c < f.blocks.size) →
        (∀ n, ∃ n', n ≤ n' ∧ Agree (InStep x f b i pre p) (Hidden f) (x.run f n m)
          (x.run f' n' (counterpart f b pre p m))) ∧
        ∀ n o, x.run f' n (counterpart f b pre p m) = o → (∀ a, o ≠ .running a) →
          Agree (InStep x f b i pre p) (Hidden f) (x.run f n m) o := by
  obtain ⟨log, f', tail, he⟩ := insertPseudo_of_planned h.wellFormed hb hi hp
  obtain ⟨pre, post, p', hcode, hp', hx, -⟩ := expanded_of_insertPseudo h.wellFormed he
  obtain rfl := hp.unique hp'
  have hsetting : Setting x f f' b i pre post p := ⟨h, hp, hcode, hx⟩
  refine ⟨log, f', tail, pre, post, he, hcode, fun m hblock hpred => ?_⟩
  have hs := inStep_counterpart x b i pre p hblock hpred
  exact ⟨fun n => hsetting.run n hs, fun n o => hsetting.run_back hs⟩

/-! ### Functions without flags -/

/-- A machine with one condition, on which a store-conditional fails every other time. -/
def fickle : Isa where
  holds flags _ := flags.lhs != flags.rhs
  holds_ne _ _ := rfl
  status _ n := if n % 2 = 0 then 1 else 0
  status_zero _ n := ⟨2 * n + 1, by omega, by rw [if_neg (by omega)]⟩
  exec _ _ s := s
  readsFlags _ := false
  setsFlags _ := false
  exec_alike _ _ _ _ _ _ h _ := ⟨h, fun hf => hf.resolve_left (by simp)⟩

/-- An instruction that names blocks and registers of its function and does not read flags. -/
def Sensible (f : Function) (j : Nat) : Prop :=
  (f.instr j).op ≠ Instr.bcc ∧ (∀ c ∈ (f.instr j).operands.filterMap blockOf?, c < f.blocks.size) ∧
    ∀ r ∈ (f.instr j).operands.filterMap operandRegister?, r ∈
      (List.range f.virtualCount).map Register.virt

instance (j : Nat) : Decidable (Sensible f j) := inferInstanceAs (Decidable (_ ∧ _ ∧ _))

/-- A phi of a block that names its predecessors. -/
def NamesPreds (f : Function) (c j : Nat) : Prop :=
  (∀ d ∈ (f.instr j).operands.filterMap blockOf?, d ∈ f.preds c) ∧
    ∀ d ∈ f.preds c, d ∈ (f.instr j).operands.filterMap blockOf?

instance (c j : Nat) : Decidable (NamesPreds f c j) := inferInstanceAs (Decidable (_ ∧ _))

/-- What has to be checked of a function in which flags are not read. -/
def Checked (f : Function) (i : Nat) : Prop :=
  (∀ c < f.blocks.size, ∀ j ∈ f.code c, (f.instr j).op = .phi → NamesPreds f c j) ∧
  (∀ j < f.instrs.size, Sensible f j) ∧ f.virtualCount + 2 ≤ 2 ^ 31 ∧
  ∀ o ∈ (f.instr i).operands.tail, operandRegister? o ≠ (f.instr i).operands.head?.bind
    operandRegister?

instance : Decidable (Checked f i) := inferInstanceAs (Decidable (_ ∧ _ ∧ _ ∧ _))

theorem operands_of_le {j : Nat} (h : f.instrs.size ≤ j) : (f.instr j).operands = [] := by
  rw [instr, Array.getD, dif_neg (Nat.not_lt.2 h)]
  rfl

theorem fit_of_checked (hw : f.WellFormed) (h : Checked f i) : Fit fickle f b i := by
  obtain ⟨hnamed, hinstrs, hroom, hunread⟩ := h
  have hlt : ∀ {j o}, o ∈ (f.instr j).operands → j < f.instrs.size := fun {j o} ho => by
    rcases Nat.lt_or_ge j f.instrs.size with hj | hj
    · exact hj
    · rw [operands_of_le hj] at ho
      cases ho
  refine ⟨hw, fun c j hj hop d => ?_, fun j c hc => ?_, fun j o ho r hr _ => ?_, hroom,
    fun d rest r hos hd o ho => ?_, fun c k j _ hj => ?_⟩
  · have := hnamed c (lt_of_mem_code hj) j hj hop
    rw [← mem_filterMap_blockOf?]
    exact ⟨this.1 d, this.2 d⟩
  · exact (hinstrs j (hlt hc)).2.1 c (mem_filterMap_blockOf?.2 hc)
  · obtain ⟨n, hn, rfl⟩ :=
      List.mem_map.1 ((hinstrs j (hlt ho)).2.2 r (List.mem_filterMap.2 ⟨o, ho, hr⟩))
    exact ⟨n, List.mem_range.1 hn, rfl⟩
  · have := hunread o (by rw [hos]; exact ho)
    rw [hos] at this
    rw [← hd]
    exact this
  · have hj := hw.toHoused.lt_of_mem (List.mem_of_getElem? hj)
    rintro (hbcc | ⟨-, hreads⟩)
    · exact (hinstrs j hj).1 hbcc
    · cases hreads

/-- Seven registers and a body behind the entry. -/
def withRegisters (code : List (Op × List Operand)) : Function :=
  { twoBlocks code with virtualCount := 7 }

theorem wellFormed_withRegisters (code : List (Op × List Operand)) :
    (withRegisters code).WellFormed := by
  have h := (built_twoBlocks code).wellFormed
  exact ⟨⟨h.edge, h.succs_nodup, h.preds_nodup⟩, ⟨h.layout_nodup, h.lt_size⟩,
    ⟨h.parent_eq, h.code_nodup⟩⟩

/-- A body that is its own successor. -/
def looping (code : List (Op × List Operand)) : Function := (withRegisters code).addSuccessor 1 1

theorem wellFormed_looping (code : List (Op × List Operand)) : (looping code).WellFormed := by
  have hsize : 1 < (withRegisters code).blocks.size := by
    show 1 < (emit _ 1 code).blocks.size
    rw [(emitted_emit (b := 1) (by decide) code).size]
    decide
  exact (wellFormed_withRegisters code).addSuccessor hsize hsize

def bodyPhi : Op × List Operand :=
  (.phi, [.define (.virt 5), .use (.virt 6), .block 0, .use (.virt 0), .block 1])

def select : Op × List Operand := (Instr.select, selectOperands)

def back : Op × List Operand := (Instr.branch, [.block 1])

theorem planned_select (h : f.content i = select) :
    Planned f i b (selectPlan f b (.virt 0) (.virt 1) (.virt 2) (.virt 3) (.virt 4)
      (condOfImmediate 3)) :=
  .select _ _ _ _ _ 3 selectOperands.dropLast (congrArg Prod.fst h)
    ((congrArg Prod.snd h).trans (by decide +kernel)) (by decide +kernel)

/-- A block that goes back to itself behind a select. -/
def backEdge : Function := looping [bodyPhi, select, back]

def entry : State := ⟨0, 0, none, ⟨fun _ => 0, fun _ => 0, ⟨false, 0, 0⟩⟩, fun _ => 0⟩

theorem suited_backEdge : Suited fickle backEdge 1 1 := by
  have hsplit : ∀ pre post, backEdge.code 1 = pre ++ 1 :: post → pre = [0] ∧ post = [2] := by
    intro pre post h
    have hcode : [0] ++ 1 :: [2] = pre ++ 1 :: post := Eq.trans (by decide +kernel) h
    obtain ⟨hpre, -, hpost⟩ := (List.append_cons_inj_of_notMem (by decide) (by decide)).1 hcode
    exact ⟨hpre.symm, hpost.symm⟩
  refine ⟨fit_of_checked (wellFormed_looping _) (by decide +kernel), by decide +kernel, ?_, ?_⟩
  · intro pre post h
    obtain ⟨-, rfl⟩ := hsplit pre post h
    decide +kernel
  · intro pre post h j hj hop
    obtain ⟨rfl, -⟩ := hsplit pre post h
    have hno : ∀ j ∈ [0], ¬ ((backEdge.instr j).op = Instr.branch ∨ (backEdge.instr j).op =
        Instr.bcc) := by
      decide +kernel
    exact absurd hop (hno j hj)

theorem expansion_in_step_backEdge :
    ∃ log f' tail p, insertPseudo backEdge 1 1 = (log, .ok (f', tail)) ∧
      ∀ n, ∃ n', n ≤ n' ∧ Agree (InStep fickle backEdge 1 1 [0] p) (Hidden backEdge)
      (fickle.run backEdge n entry)
        (fickle.run f' n' entry) := by
  obtain ⟨log, f', tail, pre, post, he, hcode, hrun⟩ :=
    expansion_in_step fickle backEdge 1 1 _ suited_backEdge (by decide +kernel) (by decide +kernel)
    (planned_select (by decide +kernel))
  have hcode' : [0] ++ 1 :: [2] = pre ++ 1 :: post := Eq.trans (by decide +kernel) hcode
  obtain ⟨rfl, -, -⟩ := (List.append_cons_inj_of_notMem (by decide) (by decide)).1 hcode'
  exact ⟨log, f', tail, _, he, (hrun entry (by decide +kernel) (by simp [entry])).1⟩

/-- Phis where an expansion does not look for them, and the number of the select: a phi in a
successor that does not stand at its head, a phi behind the select, and a branch before it to a
phi. -/
def misplaced : List (Nat × List (Op × List Operand)) := [
  (2, [(Instr.addRR, [.define (.virt 6), .use (.virt 1), .use (.virt 2)]), bodyPhi, select, back]),
  (0, [select, bodyPhi, back]),
  (2, [bodyPhi, back, select])]

/-- The old function runs on where the new one is stuck at a phi. -/
theorem expansion_loses_phis :
    misplaced.Forall fun q =>
      Fit fickle (looping q.2) 1 q.1 ∧ 1 ∈ (looping q.2).layout ∧ q.1 ∈ (looping q.2).code 1 ∧
      (∃ p, Planned (looping q.2) q.1 1 p) ∧
      ∃ log f' tail, insertPseudo (looping q.2) q.1 1 = (log, .ok (f', tail)) ∧
        (fickle.run (looping q.2) 12 entry).isRunning ∧ (fickle.run f' 12 entry).isStuck := by
  rw [List.forall_iff_forall_mem]
  intro q hq
  have hchecks : ∀ q ∈ misplaced, Checked (looping q.2) q.1 ∧ 1 ∈ (looping q.2).layout ∧
      q.1 ∈ (looping q.2).code 1 ∧ (looping q.2).content q.1 = select := by decide +kernel
  have hruns : ∀ q ∈ misplaced, (fickle.run (looping q.2) 12 entry).isRunning = true ∧
      (insertPseudo (looping q.2) q.1 1).2.toOption.any
          (fun r => (fickle.run r.1 12 entry).isStuck) = true := by
    decide +kernel
  obtain ⟨hchecked, hlayout, hcode, hcontent⟩ := hchecks q hq
  obtain ⟨hold, hnew⟩ := hruns q hq
  refine ⟨fit_of_checked (wellFormed_looping _) hchecked, hlayout, hcode,
    ⟨_, planned_select hcontent⟩, ?_⟩
  generalize he : insertPseudo (looping q.2) q.1 1 = r at hnew
  obtain ⟨log, e | ⟨f', tail⟩⟩ := r
  · cases hnew
  · exact ⟨log, f', tail, rfl, hold, by simpa [Except.toOption] using hnew⟩

end GraphLowering.Usim.Pseudo
