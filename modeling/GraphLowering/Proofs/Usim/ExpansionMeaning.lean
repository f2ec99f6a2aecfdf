import GraphLowering.Proofs.Usim.ExpansionRun

/-!
# What an expanded instruction does

At an instruction that is expanded the old function takes one step. The new function gets to the
second new block with the same registers and memory: by one of two ways for a select
(`step_select`), after any number of rounds of the loop for an atomic addition (`reaches_tail`).
With the steps elsewhere, whole runs are in step (`Setting.run`).
-/

namespace GraphLowering.Usim.Pseudo

open Machine (Function Op Operand)
open Machine.Function

variable {x : Isa} {f f' : Function} {b c d i j : Nat} {pre post : List Nat}
  {p : Plan} {m m' : State}

/-! ### The instructions as one step -/

variable {s : Store}

theorem value_of_register {o : Operand} {r : Register} (h : operandRegister? o = some r) :
    s.value o = some (s.regs r) := by
  cases o with
  | use q | define q =>
    cases h
    rfl
  | imm n | block c => cases h

variable {os : List Operand} {rs : List Register}

theorem mapM_value
    (h : os.map operandRegister? = rs.map some) : os.mapM s.value = some (rs.map s.regs) := by
  induction os generalizing rs with
  | nil =>
    cases rs with
    | nil => rfl
    | cons r rs => cases h
  | cons o os ih =>
    cases rs with
    | nil => cases h
    | cons r rs =>
      obtain ⟨ho, hos⟩ := List.cons.inj h
      rw [List.mapM_cons, value_of_register ho, ih hos]
      rfl

theorem assign_registers {dst : Register}
    {g : List UInt32 → Option (UInt32 × (UInt32 → UInt32))} {v : UInt32} {mem : UInt32 → UInt32}
    (h : os.map operandRegister? = (dst :: rs).map some) (hg : g (rs.map s.regs) = some (v, mem)) :
    s.assign os g = some { s with regs := put s.regs dst v, mem } := by
  cases os with
  | nil => cases h
  | cons o os =>
    obtain ⟨ho, hos⟩ := List.cons.inj h
    simp only [Store.assign, ho, mapM_value hos, Option.bind_eq_bind, Option.bind_some, hg]
    rfl

/-- The register whose value a select takes. -/
def chosen (x : Isa) (flags : Flags) (cc : Cond) (ifTrue ifFalse : Register) : Register :=
  if x.holds flags cc then ifTrue else ifFalse

theorem chosen_mem {flags : Flags} {cc : Cond} {ifTrue ifFalse : Register} (rs : List Register) :
    chosen x flags cc ifTrue ifFalse ∈ rs ++ [ifTrue, ifFalse] := by
  unfold chosen
  split <;> simp

/-- The flags of the compare with which a select starts. -/
def compared (s : Store) (cc : Cond) (lhs rhs : Register) : Flags :=
  ⟨cc.isFloat, s.regs lhs, s.regs rhs⟩

theorem effect_select {n : Nat} {imm : Int64} {cc : Cond}
    (hcc : cc = condOfImmediate imm) {dst lhs rhs ifTrue ifFalse : Register}
    (h : os.map operandRegister? = [dst, lhs, rhs, ifTrue, ifFalse].map some) :
    x.effect i n Instr.select (os ++ [.imm imm]) s =
      some { s with
        regs := put s.regs dst (s.regs (chosen x (compared s cc lhs rhs) cc ifTrue ifFalse)) } := by
  simp only [Isa.effect, List.getLast?_concat, List.dropLast_concat, ← hcc]
  rw [chosen, apply_ite s.regs]
  exact assign_registers h rfl

theorem effect_atomicLoadAdd {n : Nat} {dst ptr inc : Register}
    (h : os.map operandRegister? = [dst, ptr, inc].map some) :
    x.effect i n Instr.atomicLoadAdd os s =
      some { s with
        regs := put s.regs dst (s.mem (s.regs ptr))
        mem := put s.mem (s.regs ptr) (s.mem (s.regs ptr) + s.regs inc) } := by
  unfold Isa.effect
  exact assign_registers h rfl

theorem condOfImmediate_number (cc : Int64) :
    condOfImmediate (Int64.ofNat (condOfImmediate cc).number) = condOfImmediate cc := by
  have hall : ∀ n < 256, condOfImmediate (Int64.ofNat (Cond.ofNumber n).number) =
      Cond.ofNumber n := by
    decide +kernel
  exact hall _ cc.toInt8.toUInt8.toNat_lt

theorem effect_compare {n : Nat} {op : Op} {lhs rhs : Register} (h : IsCompare op) :
    x.effect i n op [.use lhs, .use rhs] s =
      some { s with flags := ⟨op = Instr.fcmpRR, s.regs lhs, s.regs rhs⟩ } := by
  rw [Isa.effect, if_pos h]
  rfl

/-! ### The new code -/

namespace Expanded

theorem fetch_head (h : Expanded f f' i b pre post p) {k : Nat} (hk : k < p.test.length) :
    (f'.code b)[pre.length + k]? = some (f.instrs.size + k) := by
  rw [h.code_head, List.getElem?_append_right (Nat.le_add_right _ _), Nat.add_sub_cancel_left,
    List.getElem?_range' hk, Nat.one_mul]

theorem fetch_body (h : Expanded f f' i b pre post p) {k : Nat} (hk : k < p.body.length) :
    (f'.code f.blocks.size)[k]? = some (f.instrs.size + p.test.length + k) := by
  rw [h.code_body, List.getElem?_range' hk, Nat.one_mul]

theorem fetch_tail (h : Expanded f f' i b pre post p) {k : Nat} (hk : k < p.join.length) :
    (f'.code (f.blocks.size + 1))[k]? =
    some (f.instrs.size + p.test.length + p.body.length + k) := by
  rw [h.code_tail, List.getElem?_append_left (by rwa [List.length_range']),
    List.getElem?_range' hk, Nat.one_mul]

end Expanded

/-- While the old function takes a step, the new one gets through the new code. -/
def Passes (x : Isa) (f f' : Function) (b i : Nat) (pre : List Nat) (p : Plan) (m m' : State) :
    Prop :=
  ∃ m₁ a m₁', x.step f m = .running m₁ ∧ x.step f' m' = .running a ∧ x.Reaches f' a m₁' ∧
    InStep x f b i pre p m₁ m₁'

/-- At the instruction, the new function is where the new code starts. -/
theorem InStep.at_instr (hs : InStep x f b i pre p m m') (hb : m.block = b)
    (hindex : m.index = pre.length) : m'.block = b ∧ m'.index = pre.length := by
  cases hs.placed with
  | same _ hblock hindex' => exact ⟨hblock.trans hb, hindex'.trans hindex⟩
  | behind k _ hk => omega

namespace Setting

theorem not_hidden (h : Setting x f f' b i pre post p)
    (hos : ∀ o ∈ os, o ∈ (f.instr i).operands) (hrs : os.map operandRegister? = rs.map some)
    {r : Register} (hr : r ∈ rs) : ¬ Hidden f r := by
  have hmem : some r ∈ os.map operandRegister? := hrs ▸ List.mem_map_of_mem hr
  obtain ⟨o, ho, hreg⟩ := List.mem_map.1 hmem
  exact (h.suited.unknown i).not_hidden (hos o ho) hreg

variable {a : State}

theorem landed (h : Setting x f f' b i pre post p) (hs : InStep x f b i pre p m m')
    (hb : m.block = b) (hindex : m.index = pre.length) {store : Store}
    (hblock : a.block = f.blocks.size + 1) (ha : a.index = p.join.length)
    (halike : store.Alike (Hidden f) a.store)
    (hcounts : ∀ j < f.instrs.size, a.counts j = m'.counts j) :
    InStep x f b i pre p (m.after i store) a where
  block_lt := hs.block_lt
  pred_lt := hs.pred_lt
  placed := .behind 0 hb (congrArg (· + 1) hindex) hblock ha
  alike := halike
  flags := .inr <| by
    show Stale x f b i m.block (m.index + 1)
    rw [hb, hindex]
    exact .behind (by simp [h.code])
  counts j hj hji := by
    rw [hcounts j hj, hs.counts j hj hji]
    exact (if_neg hji).symm

section Select

variable {dst lhs rhs ifTrue ifFalse : Register} {cc : Cond}

theorem step_join (h : Setting x f f' b i pre post (selectPlan f b dst lhs rhs ifTrue ifFalse cc))
    {q : Nat} {r : Register} (hblock : a.block = f.blocks.size + 1) (hindex : a.index = 0)
    (hpred : a.pred = some q)
    (hin : incoming q [.use ifTrue, .block b, .use ifFalse, .block f.blocks.size] = some (.use r)) :
    x.step f' a =
      .running { a.advance 1 with
        store := { a.store with regs := put a.store.regs dst (a.store.regs r) } } := by
  have hx := h.expanded
  have hop : (f'.instr (f.instrs.size + 2)).op = .phi := hx.op_new rfl
  have hos : (f'.instr (f.instrs.size + 2)).operands =
      [.define dst, .use ifTrue, .block b, .use ifFalse, .block f.blocks.size] :=
        hx.operands_new rfl
  have hphis : phisFrom f' (f.blocks.size + 1) 0 = [f.instrs.size + 2] :=
    hx.phis_tail h.planned h.suited.wellFormed h.code fun j hj =>
      h.suited.ahead pre post h.code j (List.mem_of_mem_head? hj)
  have hfetch : (f'.code a.block)[a.index]? = some (f.instrs.size + 2) := by
    rw [hblock, hindex]
    exact hx.fetch_tail (k := 0) Nat.one_pos
  have hstore : phiStore f' a =
      some { a.store with regs := put a.store.regs dst (a.store.regs r) } := by
    rw [phiStore, hblock, hindex, hphis]
    simp only [List.mapM_cons, List.mapM_nil, hos, hpred, phiValue, List.head?_cons, List.tail_cons,
      Option.bind_eq_bind, Option.bind_some, operandRegister?, hin, Store.value]
    rfl
  rw [Isa.step_of_fetch hfetch, Isa.execute, if_pos hop, hstore, hblock, hindex, hphis]
  rfl

theorem step_compare (h :
      Setting x f f' b i pre post (selectPlan f b dst lhs rhs ifTrue ifFalse cc))
    (hblock : a.block = b) (hindex : a.index = pre.length) :
    x.step f' a =
      .running (a.after f.instrs.size { a.store with flags := compared a.store cc lhs rhs }) := by
  have hx := h.expanded
  have hop : (f'.instr f.instrs.size).op = if cc.isFloat then Instr.fcmpRR else Instr.cmpRR :=
    hx.op_new (k := 0) rfl
  have hos : (f'.instr f.instrs.size).operands = [.use lhs, .use rhs] :=
    hx.operands_new (k := 0) rfl
  refine Isa.step_of_effect ?_ ?_ ?_
  · rw [hblock, hindex]
    exact hx.fetch_head (k := 0) Nat.two_pos
  · rw [hop]
    split <;> decide
  · rw [hop, hos, effect_compare (by split <;> decide), compared]
    cases cc.isFloat <;> rfl

theorem reaches_join {imm : Int64} (hcc : cc = condOfImmediate imm)
    (h : Setting x f f' b i pre post (selectPlan f b dst lhs rhs ifTrue ifFalse cc))
    (hblock : a.block = b) (hindex : a.index = pre.length + 1) :
    ∃ q, x.Reaches f' a { a with
      block := f.blocks.size + 1
      index := 1
      pred := some q
      store.regs := put a.store.regs dst (a.store.regs (chosen x a.store.flags cc ifTrue ifFalse))
          } := by
  have hx := h.expanded
  have hw := h.suited.wellFormed
  have hlt := h.lt_size
  have hbranch : x.step f' a =
      .running (if x.holds a.store.flags cc then a.enter (f.blocks.size + 1) else a.advance 1) := by
    have hcond : condOfImmediate (Int64.ofNat cc.number) = cc := by rw [hcc, condOfImmediate_number]
    rw [Isa.step_of_bcc (i := f.instrs.size + 1) ?_ (hx.op_new (k := 1) rfl)
      (hx.operands_new (k := 1) rfl), hcond]
    rw [hblock, hindex]
    exact hx.fetch_head (k := 1) Nat.one_lt_two
  by_cases hholds : x.holds a.store.flags cc
  · rw [if_pos hholds] at hbranch
    rw [chosen, if_pos hholds]
    have hin : incoming a.block [.use ifTrue, .block b, .use ifFalse, .block f.blocks.size] =
        some (.use ifTrue) := by rw [incoming, if_pos hblock.symm]
    exact ⟨a.block, .head hbranch (.head (h.step_join rfl rfl rfl hin) .refl)⟩
  · rw [if_neg hholds] at hbranch
    rw [chosen, if_neg hholds]
    -- through the empty block
    have hfall : x.step f' (a.advance 1) = .running ((a.advance 1).enter f.blocks.size) := by
      refine Isa.step_of_end ?_ ?_
      · show (f'.code a.block)[a.index + 1]? = none
        rw [hblock, hindex, hx.code_head, List.getElem?_eq_none_iff]
        simp [selectPlan]
      · show following a.block f'.layout = _
        rw [hblock]
        exact hx.following_head hw
    have hskip : x.step f' ((a.advance 1).enter f.blocks.size) =
        .running (((a.advance 1).enter f.blocks.size).enter (f.blocks.size + 1)) := by
      refine Isa.step_of_end ?_ (hx.following_body hw hlt)
      show (f'.code f.blocks.size)[0]? = none
      rw [hx.code_body]
      rfl
    have hin : incoming f.blocks.size [.use ifTrue, .block b, .use ifFalse, .block f.blocks.size] =
        some (.use ifFalse) := by rw [incoming, if_neg (by omega), incoming, if_pos rfl]
    exact ⟨f.blocks.size,
      .head hbranch (.head hfall (.head hskip (.head (h.step_join rfl rfl rfl hin) .refl)))⟩

theorem passes_select {imm : Int64} (hcc : cc = condOfImmediate imm)
    (h : Setting x f f' b i pre post (selectPlan f b dst lhs rhs ifTrue ifFalse cc))
    (hs : InStep x f b i pre (selectPlan f b dst lhs rhs ifTrue ifFalse cc) m m')
    (hb : m.block = b) (hindex : m.index = pre.length) (hop : (f.instr i).op = Instr.select)
    (hoperands : (f.instr i).operands = os ++ [.imm imm])
    (hregisters : os.map operandRegister? = [dst, lhs, rhs, ifTrue, ifFalse].map some) :
    Passes x f f' b i pre (selectPlan f b dst lhs rhs ifTrue ifFalse cc) m m' := by
  obtain ⟨hblock', hindex'⟩ := hs.at_instr hb hindex
  have hregs : ∀ r ∈ [dst, lhs, rhs] ++ [ifTrue, ifFalse], m'.store.regs r = m.store.regs r :=
    fun r hr => hs.alike.regs r (h.not_hidden (by simp +contextual [hoperands]) hregisters hr)
  have hcompared : compared m'.store cc lhs rhs = compared m.store cc lhs rhs := by
    rw [compared, compared, hregs lhs (by simp), hregs rhs (by simp)]
  have hold := Isa.step_of_effect (x := x) (i := i) (m := m) (by rw [hb, hindex, h.code]; simp)
    (by rw [hop]; decide) (by rw [hop, hoperands]; exact effect_select hcc hregisters)
  obtain ⟨q, hreach⟩ := h.reaches_join hcc (x := x)
    (a := m'.after f.instrs.size { m'.store with flags := compared m'.store cc lhs rhs })
    hblock' (congrArg (· + 1) hindex')
  refine ⟨_, _, _, hold, h.step_compare hblock' hindex', hreach, ?_⟩
  refine h.landed hs hb hindex rfl rfl ⟨?_, hs.alike.mem⟩ fun j hj => if_neg (Nat.ne_of_lt hj)
  show ∀ r, ¬ Hidden f r → put m'.store.regs dst
    (m'.store.regs (chosen x (compared m'.store cc lhs rhs) cc ifTrue ifFalse)) r = _
  rw [hcompared, hregs _ (chosen_mem _)]
  exact (hs.alike.put dst _ m.store.mem).regs

end Select

section Atomic

variable {dst ptr inc : Register}

/-- The registers of an atomic addition: it does not read what it defines, and the new registers are
none of them. -/
structure Apart (f : Function) (dst ptr inc : Register) : Prop where
  ptr_ne : ptr ≠ dst
  inc_ne : inc ≠ dst
  dst_old : ¬ Hidden f dst
  ptr_old : ¬ Hidden f ptr
  inc_old : ¬ Hidden f inc

theorem apart (h : Setting x f f' b i pre post p)
    (hregisters : (f.instr i).operands.map operandRegister? = [dst, ptr, inc].map some) :
    Apart f dst ptr inc := by
  have hold : ∀ r ∈ [dst, ptr, inc], ¬ Hidden f r :=
    fun r hr => h.not_hidden (fun o ho => ho) hregisters hr
  have hread : ∀ r ∈ [ptr, inc], r ≠ dst := by
    rintro r hr rfl
    cases hos : (f.instr i).operands with
    | nil =>
      rw [hos] at hregisters
      cases hregisters
    | cons d os =>
      rw [hos] at hregisters
      obtain ⟨hd, hrest⟩ := List.cons.inj hregisters
      obtain ⟨o, ho, hreg⟩ :=
        List.mem_map.1 (hrest ▸ List.mem_map_of_mem hr : some r ∈ os.map operandRegister?)
      exact h.suited.unread d os r hos hd o ho hreg
  exact ⟨hread ptr (by simp), hread inc (by simp), hold dst (by simp), hold ptr (by simp),
    hold inc (by simp)⟩

/-- The store at the head of the loop: what was tried before does not matter. -/
structure Trying (f : Function) (dst : Register) (s t : Store) : Prop where
  regs : ∀ r, ¬ Hidden f r → r ≠ dst → t.regs r = s.regs r
  mem : t.mem = s.mem

/-- The store behind the compare of the loop. -/
structure Tried (f : Function) (dst ptr inc : Register) (status : UInt32) (s t : Store) : Prop where
  regs : ∀ r, ¬ Hidden f r → t.regs r = put s.regs dst (s.mem (s.regs ptr)) r
  mem : t.mem =
    if status = 0 then put s.mem (s.regs ptr) (s.mem (s.regs ptr) + s.regs inc) else s.mem
  flags : t.flags = ⟨false, status, 0⟩

/-- What one round does up to its branch, by what the store-conditional gives. -/
def attempt (f : Function) (dst ptr inc : Register) (status : UInt32) (t : Store) : Store :=
  let sum := Register.virt f.virtualCount
  let failed := Register.virt (f.virtualCount + 1)
  let t := { t with regs := put t.regs dst (t.mem (t.regs ptr)) }
  let t := { t with regs := put t.regs sum (t.regs dst + t.regs inc) }
  let t := { t with
    regs := put t.regs failed status
    mem := if status = 0 then put t.mem (t.regs ptr) (t.regs sum) else t.mem }
  { t with flags := ⟨false, t.regs failed, 0⟩ }

theorem Trying.attempt (hd : Apart f dst ptr inc) {s t : Store} (h : Trying f dst s t)
    (status : UInt32) : Tried f dst ptr inc status s (attempt f dst ptr inc status t) := by
  have hptr := h.regs ptr hd.ptr_old hd.ptr_ne
  have hinc := h.regs inc hd.inc_old hd.inc_ne
  have hsum : ∀ r, ¬ Hidden f r → r ≠ .virt f.virtualCount := fun r hr he => hr (.inl he)
  have hfailed : ∀ r, ¬ Hidden f r → r ≠ .virt (f.virtualCount + 1) := fun r hr he => hr (.inr he)
  refine ⟨fun r hr => ?_, ?_, ?_⟩
  · simp only [Setting.attempt, put, hsum r hr, hfailed r hr, if_false, hptr, h.mem]
    by_cases hrd : r = dst
    · simp [hrd]
    · simp [hrd, h.regs r hr hrd]
  · simp only [Setting.attempt, put, hsum ptr hd.ptr_old, hd.ptr_ne, hd.inc_ne, if_false, if_true,
      hptr, hinc, h.mem]
  · simp only [Setting.attempt, put, if_true]

theorem step_body (h : Setting x f f' b i pre post (atomicPlan f dst ptr inc)) {k : Nat} {op : Op}
    {store : Store} (hk : (atomicPlan f dst ptr inc).body[k]? = some (op, os))
    (hblock : a.block = f.blocks.size) (hindex : a.index = k)
    (hop : op ∉ [.phi, Instr.bcc, Instr.branch, Instr.leave])
    (heffect : x.effect (f.instrs.size + k) (a.counts (f.instrs.size + k)) op os a.store =
      some store) :
    x.step f' a = .running (a.after (f.instrs.size + k) store) := by
  have hx := h.expanded
  have hcode : (atomicPlan f dst ptr inc).code[k]? = some (op, os) := by
    simpa [Plan.code, atomicPlan] using hk
  refine Isa.step_of_effect ?_ ?_ ?_
  · rw [hblock, hindex]
    exact hx.fetch_body (List.getElem?_eq_some_iff.1 hk).1
  · rw [hx.op_new hcode]
    exact hop
  · rw [hx.op_new hcode, hx.operands_new hcode]
    exact heffect

/-- A round of the loop up to its branch. -/
theorem reaches_branch (h : Setting x f f' b i pre post (atomicPlan f dst ptr inc))
    (hblock : a.block = f.blocks.size) (hindex : a.index = 0) :
    ∃ a', x.Reaches f' a a' ∧ a'.block = f.blocks.size ∧ a'.index = 4 ∧
      a'.store = attempt f dst ptr inc (x.status (f.instrs.size + 2) (a.counts (f.instrs.size + 2)))
      a.store ∧ a'.counts (f.instrs.size + 2) = a.counts (f.instrs.size + 2) + 1 ∧
      ∀ j < f.instrs.size, a'.counts j = a.counts j := by
  let sum := Register.virt f.virtualCount
  let failed := Register.virt (f.virtualCount + 1)
  let status := x.status (f.instrs.size + 2) (a.counts (f.instrs.size + 2))
  let t₁ : Store := { a.store with regs := put a.store.regs dst (a.store.mem (a.store.regs ptr)) }
  let t₂ : Store := { t₁ with regs := put t₁.regs sum (t₁.regs dst + t₁.regs inc) }
  let t₃ : Store := { t₂ with
    regs := put t₂.regs failed status
    mem := if status = 0 then put t₂.mem (t₂.regs ptr) (t₂.regs sum) else t₂.mem }
  let a₁ := a.after (f.instrs.size + 0) t₁
  let a₂ := a₁.after (f.instrs.size + 1) t₂
  let a₃ := a₂.after (f.instrs.size + 2) t₃
  let a₄ := a₃.after (f.instrs.size + 3) { t₃ with flags := ⟨false, t₃.regs failed, 0⟩ }
  have hcount : a₂.counts (f.instrs.size + 2) = a.counts (f.instrs.size + 2) := by
    show (if f.instrs.size + 2 = f.instrs.size + 1 then _ else
      if f.instrs.size + 2 = f.instrs.size + 0 then _ else a.counts (f.instrs.size + 2)) = _
    rw [if_neg (by omega), if_neg (by omega)]
  have hload : x.step f' a = .running a₁ := h.step_body rfl hblock hindex (by decide) rfl
  have hadd : x.step f' a₁ = .running a₂ :=
    h.step_body rfl hblock (congrArg (· + 1) hindex) (by decide) rfl
  have hstore : x.step f' a₂ = .running a₃ := by
    refine h.step_body rfl hblock (congrArg (· + 2) hindex) (by decide) ?_
    rw [hcount]
    rfl
  have hcompare : x.step f' a₃ = .running a₄ :=
    h.step_body rfl hblock (congrArg (· + 3) hindex) (by decide) rfl
  refine ⟨a₄, .head hload (.head hadd (.head hstore (.head hcompare .refl))), hblock,
    congrArg (· + 4) hindex, rfl, ?_, fun j hj => ?_⟩
  · show (if f.instrs.size + 2 = f.instrs.size + 3 then _ else
      if f.instrs.size + 2 = f.instrs.size + 2 then a₂.counts (f.instrs.size + 2) + 1 else _) = _
    rw [if_neg (by omega), if_pos rfl, hcount]
  · show (if j = f.instrs.size + 3 then _ else if j = f.instrs.size + 2 then _ else
      if j = f.instrs.size + 1 then _ else if j = f.instrs.size + 0 then _ else a.counts j) = _
    rw [if_neg (by omega), if_neg (by omega), if_neg (by omega), if_neg (by omega)]

theorem reaches_round (h : Setting x f f' b i pre post (atomicPlan f dst ptr inc))
    (hd : Apart f dst ptr inc) {status : UInt32}
    (hstatus : x.status (f.instrs.size + 2) (a.counts (f.instrs.size + 2)) = status)
    (hblock : a.block = f.blocks.size) (hindex : a.index = 0) (ht : Trying f dst s a.store) :
    ∃ a' : State, x.Reaches f' a (if status = 0 then a'.advance 1 else a'.enter f.blocks.size) ∧
      a'.block = f.blocks.size ∧ a'.index = 4 ∧ Tried f dst ptr inc status s a'.store ∧
      a'.counts (f.instrs.size + 2) = a.counts (f.instrs.size + 2) + 1 ∧
      ∀ j < f.instrs.size, a'.counts j = a.counts j := by
  have hx := h.expanded
  obtain ⟨a', hreach, hblock', hindex', hstore, hcount', hcounts⟩ := h.reaches_branch hblock hindex
  have htried := ht.attempt hd status
  rw [hstatus] at hstore
  rw [← hstore] at htried
  have hbranch : x.step f' a' =
      .running (if status = 0 then a'.advance 1 else a'.enter f.blocks.size) := by
    rw [Isa.step_of_bcc (i := f.instrs.size + 4) ?_ (hx.op_new (k := 4) rfl)
      (hx.operands_new (k := 4) rfl)]
    · rw [htried.flags, show condOfImmediate (Int64.ofNat Cond.ne.number) =
        .ne by decide, x.holds_ne]
      by_cases hzero : status = 0 <;> simp [hzero]
    · rw [hblock', hindex']
      exact hx.fetch_body (k := 4) (Nat.lt_succ_self 4)
  exact ⟨a', hreach.trans (.head hbranch .refl), hblock', hindex', htried, hcount', hcounts⟩

/-- What was tried without success does not matter. -/
theorem Tried.trying {status : UInt32} {s t : Store} (h : Tried f dst ptr inc status s t)
    (hne : status ≠ 0) : Trying f dst s t where
  regs r hr hrd := (h.regs r hr).trans (if_neg hrd)
  mem := h.mem.trans (if_neg hne)

theorem reaches_out (h : Setting x f f' b i pre post (atomicPlan f dst ptr inc))
    (hd : Apart f dst ptr inc)
    (hstatus : x.status (f.instrs.size + 2) (a.counts (f.instrs.size + 2)) = 0)
    (hblock : a.block = f.blocks.size) (hindex : a.index = 0) (ht : Trying f dst s a.store) :
    ∃ a' : State, x.Reaches f' a a' ∧ a'.block = f.blocks.size + 1 ∧ a'.index = 0 ∧
      Tried f dst ptr inc 0 s a'.store ∧ ∀ j < f.instrs.size, a'.counts j = a.counts j := by
  have hx := h.expanded
  obtain ⟨a', hreach, hblock', hindex', htried, -, hcounts⟩ :=
    h.reaches_round hd hstatus hblock hindex ht
  rw [if_pos rfl] at hreach
  have hfall : x.step f' (a'.advance 1) = .running ((a'.advance 1).enter (f.blocks.size + 1)) := by
    refine Isa.step_of_end ?_ ?_
    · show (f'.code a'.block)[a'.index + 1]? = none
      rw [hblock', hindex', hx.code_body, List.getElem?_eq_none_iff]
      simp [atomicPlan]
    · show following a'.block f'.layout = _
      rw [hblock']
      exact hx.following_body h.suited.wellFormed h.lt_size
  exact ⟨_, hreach.trans (.head hfall .refl), rfl, rfl, htried, hcounts⟩

/-- The loop ends with the sum stored, however often the store-conditional fails. -/
theorem reaches_tail (h : Setting x f f' b i pre post (atomicPlan f dst ptr inc))
    (hd : Apart f dst ptr inc) {k n : Nat} (hk : x.status (f.instrs.size + 2) k = 0)
    (hblock : a.block = f.blocks.size) (hindex : a.index = 0) (ht : Trying f dst s a.store)
    (hcount : k = a.counts (f.instrs.size + 2) + n) :
    ∃ a' : State, x.Reaches f' a a' ∧ a'.block = f.blocks.size + 1 ∧ a'.index = 0 ∧
      Tried f dst ptr inc 0 s a'.store ∧ ∀ j < f.instrs.size, a'.counts j = a.counts j := by
  -- on how many rounds may still fail
  induction n generalizing a with
  | zero => exact h.reaches_out hd (by rw [← hk, hcount]; rfl) hblock hindex ht
  | succ n ih =>
    by_cases hstatus : x.status (f.instrs.size + 2) (a.counts (f.instrs.size + 2)) = 0
    · exact h.reaches_out hd hstatus hblock hindex ht
    · obtain ⟨a₁, hreach, -, -, htried, hcount₁, hcounts⟩ := h.reaches_round hd rfl hblock hindex ht
      rw [if_neg hstatus] at hreach
      have hnext : k = a₁.counts (f.instrs.size + 2) + n := by omega
      obtain ⟨a', hreach', hblock', hindex', htried', hcounts'⟩ :=
        ih (a := a₁.enter f.blocks.size) rfl rfl (htried.trying hstatus) hnext
      exact ⟨a', hreach.trans hreach', hblock', hindex', htried',
        fun j hj => (hcounts' j hj).trans (hcounts j hj)⟩

theorem passes_atomicLoadAdd (h : Setting x f f' b i pre post (atomicPlan f dst ptr inc))
    (hs : InStep x f b i pre (atomicPlan f dst ptr inc) m m') (hb : m.block = b)
    (hindex : m.index = pre.length) (hop : (f.instr i).op = Instr.atomicLoadAdd)
    (hregisters : (f.instr i).operands.map operandRegister? = [dst, ptr, inc].map some) :
    Passes x f f' b i pre (atomicPlan f dst ptr inc) m m' := by
  have hx := h.expanded
  obtain ⟨hblock', hindex'⟩ := hs.at_instr hb hindex
  have hold := Isa.step_of_effect (x := x) (i := i) (m := m) (by rw [hb, hindex, h.code]; simp)
    (by rw [hop]; decide) (by rw [hop]; exact effect_atomicLoadAdd hregisters)
  have hfall : x.step f' m' = .running (m'.enter f.blocks.size) := by
    refine Isa.step_of_end ?_ ?_
    · rw [hblock', hindex', hx.code_head, List.getElem?_eq_none_iff]
      simp [atomicPlan]
    · rw [hblock']
      exact hx.following_head h.suited.wellFormed
  obtain ⟨k, hle, hk⟩ := x.status_zero (f.instrs.size + 2) (m'.counts (f.instrs.size + 2))
  have htrying : Trying f dst m.store (m'.enter f.blocks.size).store :=
    ⟨fun r hr _ => hs.alike.regs r hr, hs.alike.mem⟩
  obtain ⟨a, hreach, hblock, ha, htried, hcounts⟩ := h.reaches_tail (h.apart hregisters) hk
    (a := m'.enter f.blocks.size) rfl rfl htrying (Nat.add_sub_of_le hle).symm
  exact ⟨_, _, a, hold, hfall, hreach, h.landed hs hb hindex hblock ha
    ⟨htried.regs, htried.mem⟩ hcounts⟩

end Atomic

/-! ### Whole runs -/

/-- While the old function takes a step, the new one takes at least one. -/
theorem step (h : Setting x f f' b i pre post p) (hs : InStep x f b i pre p m m') :
    ∃ k, Agree (InStep x f b i pre p) (Hidden f) (x.step f m) (x.run f' (k + 1) m') := by
  by_cases hat : m.block = b ∧ m.index = pre.length
  · have hpasses : Passes x f f' b i pre p m m' := by
      cases h.planned with
      | select dst lhs rhs ifTrue ifFalse imm os hop hoperands hregisters =>
        exact h.passes_select rfl hs hat.1 hat.2 hop hoperands hregisters
      | atomicLoadAdd dst ptr inc hop hregisters =>
        exact h.passes_atomicLoadAdd hs hat.1 hat.2 hop hregisters
    obtain ⟨m₁, a, m₁', hold, hfirst, ⟨k, hk⟩, hstep⟩ := hpasses
    refine ⟨k, ?_⟩
    rw [hold, Isa.run_succ hfirst, hk]
    exact .running hstep
  · refine ⟨0, ?_⟩
    have hagree := h.step_away hs hat
    rw [Isa.run]
    generalize x.step f m = o at hagree
    generalize x.step f' m' = o' at hagree
    cases hagree with
    | running hstep => exact .running hstep
    | left halike => exact .left halike
    | stuck => exact .stuck

theorem run (h : Setting x f f' b i pre post p) (n : Nat) (hs : InStep x f b i pre p m m') :
    ∃ n', n ≤ n' ∧ Agree (InStep x f b i pre p) (Hidden f) (x.run f n m) (x.run f' n' m') := by
  induction n generalizing m m' with
  | zero => exact ⟨0, Nat.le_refl 0, .running hs⟩
  | succ n ih =>
    obtain ⟨k, hk⟩ := h.step hs
    rw [Isa.run]
    generalize hold : x.step f m = o at hk
    generalize hnew : x.run f' (k + 1) m' = o' at hk
    cases hk with
    | running hstep =>
      obtain ⟨n', hle, hagree⟩ := ih hstep
      refine ⟨k + 1 + n', by omega, ?_⟩
      rw [Isa.run_add hnew]
      exact hagree
    | left halike =>
      refine ⟨k + 1 + n, by omega, ?_⟩
      rw [Isa.run_halted (by simp) hnew]
      exact .left halike
    | stuck =>
      refine ⟨k + 1 + n, by omega, ?_⟩
      rw [Isa.run_halted (by simp) hnew]
      exact .stuck

end Setting

end GraphLowering.Usim.Pseudo
