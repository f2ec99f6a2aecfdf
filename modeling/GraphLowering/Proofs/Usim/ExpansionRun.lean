import GraphLowering.Proofs.Usim.Built
import GraphLowering.Proofs.Usim.MachineRun
import Mathlib.Algebra.Ring.Nat
import Mathlib.Data.List.TakeWhile

/-!
# Expansions do what the instruction means

The function with an expanded instruction runs in step with the one before (`InStep`): where the old
function carries the instruction out in one step, the new one goes through the new blocks, and
everywhere else they take the same steps. What stood behind the instruction runs in the second new
block, and control that came from the old block comes from there. Hidden are the registers that the
expansion takes for itself, and the flags until the next compare.
-/

namespace GraphLowering

theorem Register.toNat_virt {n : Nat} (h : n < 2 ^ 31) :
    (Register.virt n).number.toNat = 2 ^ 31 + n := by
  simp only [Register.virt, Register.firstVirtual, UInt32.toNat_add, UInt32.toNat_ofNat']
  show (2147483648 + n % 2 ^ 32) % 2 ^ 32 = _
  omega

theorem Register.virt_inj {n k : Nat} (hn : n < 2 ^ 31) (hk : k < 2 ^ 31)
    (h : Register.virt n = Register.virt k) : n = k := by
  have := congrArg (fun r => r.number.toNat) h
  simp only [Register.toNat_virt hn, Register.toNat_virt hk] at this
  omega

theorem Register.isVirtual_virt {n : Nat} (h : n < 2 ^ 31) : (Register.virt n).isVirtual := by
  rw [Register.isVirtual, decide_eq_true_eq, UInt32.le_iff_toNat_le, Register.toNat_virt h]
  show 2147483648 ≤ _
  omega

namespace Usim.Pseudo

open Machine (Function Op Operand)
open Machine.Function

/-- The places to which the flags that were set before an instruction may reach. -/
inductive Stale (x : Isa) (f : Function) (b i : Nat) : Nat → Nat → Prop where
  | behind {k : Nat} (h : (f.code b)[k]? = some i) : Stale x f b i b (k + 1)
  | next {c k j : Nat} (h : Stale x f b i c k) (hj : (f.code c)[k]? = some j)
      (hset : ¬ x.Sets (f.instr j).op) : Stale x f b i c (k + 1)
  | jump {c k j d : Nat} (h : Stale x f b i c k) (hj : (f.code c)[k]? = some j)
      (hop : (f.instr j).op = Instr.branch ∨ (f.instr j).op = Instr.bcc)
      (hd : .block d ∈ (f.instr j).operands) : Stale x f b i d 0
  | fall {c k d : Nat} (h : Stale x f b i c k) (hend : (f.code c)[k]? = none)
      (hd : following c f.layout = some d) : Stale x f b i d 0

/-- A function and an instruction of it that does not read what it defines and behind which no flags
are read that were set before it. -/
structure Fit (x : Isa) (f : Function) (b i : Nat) : Prop where
  wellFormed : f.WellFormed
  named : ∀ c, ∀ j ∈ f.code c, (f.instr j).op = .phi →
    ∀ d, .block d ∈ (f.instr j).operands ↔ d ∈ f.preds c
  blocks : ∀ j c, .block c ∈ (f.instr j).operands → c < f.blocks.size
  virtuals : ∀ j, ∀ o ∈ (f.instr j).operands, ∀ r, operandRegister? o = some r → r.isVirtual →
    ∃ n < f.virtualCount, r = .virt n
  room : f.virtualCount + 2 ≤ 2 ^ 31
  unread : ∀ d rest r, (f.instr i).operands = d :: rest → operandRegister? d = some r →
    ∀ o ∈ rest, operandRegister? o ≠ some r
  settled : ∀ c k j, Stale x f b i c k → (f.code c)[k]? = some j → ¬ x.Reads (f.instr j).op

/-- A function in which the phis that an expansion touches are where it looks for them. -/
structure Suited (x : Isa) (f : Function) (b i : Nat) : Prop extends Fit x f b i where
  /-- Where control goes behind the instruction, phis stand at the heads of the blocks. -/
  lead : ∀ c ∈ f.succs b, ∀ j ∈ f.code c, (f.instr j).op = .phi → j ∈ f.phis c
  ahead : ∀ pre post, f.code b = pre ++ i :: post → ∀ j ∈ post, (f.instr j).op ≠ .phi
  /-- Control may leave the block before the instruction, but not to phis. -/
  early : ∀ pre post, f.code b = pre ++ i :: post → ∀ j ∈ pre,
    (f.instr j).op = Instr.branch ∨ (f.instr j).op = Instr.bcc →
      ∀ c, .block c ∈ (f.instr j).operands → ∀ l ∈ f.code c, (f.instr l).op ≠ .phi

variable {x : Isa} {f f' : Function} {b c d i j : Nat} {pre post : List Nat}
  {p : Plan} {m m' : State}

/-- The registers that an expansion takes for itself. -/
def Hidden (f : Function) (r : Register) : Prop :=
  r = .virt f.virtualCount ∨ r = .virt (f.virtualCount + 1)

theorem Fit.unknown (h : Fit x f b i) (j : Nat) : Unknown (Hidden f) (f.instr j).operands := by
  have hroom := h.room
  intro r hr
  obtain ⟨k, hk, hk', rfl⟩ : ∃ k, k < 2 ^ 31 ∧ f.virtualCount ≤ k ∧ r = .virt k := by
    rcases hr with rfl | rfl
    · exact ⟨_, by omega, Nat.le_refl _, rfl⟩
    · exact ⟨_, by omega, Nat.le_succ _, rfl⟩
  refine ⟨Register.isVirtual_virt hk, fun o ho hreg => ?_⟩
  obtain ⟨n, hn, he⟩ := h.virtuals j o ho _ hreg (Register.isVirtual_virt hk)
  have := Register.virt_inj hk (by omega) he
  omega

/-! ### What follows in the layout -/

theorem following_append {l l' : List Nat} (h : c ∉ l) :
    following c (l ++ l') = following c l' := by
  induction l with
  | nil => rfl
  | cons d l ih =>
    simp only [List.mem_cons, not_or] at h
    rw [List.cons_append, following, if_neg (Ne.symm h.1), ih h.2]

theorem following_append_cons {l : List Nat} (l' : List Nat) (h : c ∈ l) :
    following c (l ++ d :: l') = following c (l ++ [d]) := by
  induction l with
  | nil => cases h
  | cons e l ih =>
    rw [List.cons_append, List.cons_append, following, following]
    split
    · cases l <;> rfl
    · rename_i hne
      exact ih (by simpa [Ne.symm hne] using h)

theorem mem_of_following {l : List Nat} (h : following c l = some d) : d ∈ l := by
  induction l with
  | nil => cases h
  | cons e l ih =>
    rw [following] at h
    split at h
    · exact List.mem_cons_of_mem _ (List.mem_of_head? h)
    · exact List.mem_cons_of_mem _ (ih h)

namespace Expanded

variable (h : Expanded f f' i b pre post p)

include h
theorem layout_split (hw : f.WellFormed) :
    ∃ l₁ l₂, f.layout = l₁ ++ b :: l₂ ∧ f'.layout = l₁ ++ b :: f.blocks.size ::
    (f.blocks.size + 1) :: l₂ ∧
      b ∉ l₁ ∧ f.blocks.size ∉ l₁ ∧ f.blocks.size + 1 ∉ l₁ := by
  obtain ⟨l₁, l₂, hl, hb, hl'⟩ := h.layout
  have hlt := hw.lt_size
  rw [hl] at hlt
  refine ⟨l₁, l₂, hl, hl', hb, fun hm => ?_, fun hm => ?_⟩
  · exact Nat.lt_irrefl _ (hlt _ (List.mem_append_left _ hm))
  · have := hlt _ (List.mem_append_left _ hm)
    omega

/-- The second new block is followed by what followed the old one. -/
theorem following_tail (hw : f.WellFormed) (hb : b < f.blocks.size) :
    following (f.blocks.size + 1) f'.layout = following b f.layout := by
  obtain ⟨l₁, l₂, hl, hl', hbl, -, hnew⟩ := h.layout_split hw
  rw [hl, hl', following_append hbl, following_append hnew, following, if_neg (by omega), following,
    if_neg (by omega), following, if_pos rfl, following, if_pos rfl]

theorem following_other (hc : c < f.blocks.size) (hcb : c ≠ b) :
    following c f'.layout = following c f.layout := by
  obtain ⟨l₁, l₂, hl, -, hl'⟩ := h.layout
  rw [hl, hl']
  by_cases hm : c ∈ l₁
  · rw [following_append_cons _ hm, following_append_cons l₂ hm]
  · rw [following_append hm, following_append hm, following, if_neg (Ne.symm hcb), following,
      if_neg (by omega), following, if_neg (by omega), following, if_neg (Ne.symm hcb)]

theorem following_head (hw : f.WellFormed) :
    following b f'.layout = some f.blocks.size := by
  obtain ⟨l₁, l₂, -, hl', hbl, -, -⟩ := h.layout_split hw
  rw [hl', following_append hbl, following, if_pos rfl]
  rfl

theorem following_body (hw : f.WellFormed) (hb : b < f.blocks.size) :
    following f.blocks.size f'.layout = some (f.blocks.size + 1) := by
  obtain ⟨l₁, l₂, -, hl', -, hnew, -⟩ := h.layout_split hw
  rw [hl', following_append hnew, following, if_neg (by omega), following, if_pos rfl]
  rfl

end Expanded

/-! ### Running in step -/

/-- Where control came from, in the new function. -/
def origin (f : Function) (b c : Nat) : Nat := if c = b then f.blocks.size + 1 else c

/-- The corresponding places: up to the instruction, and behind it. -/
inductive Placed (f : Function) (b : Nat) (pre : List Nat) (p : Plan) (m m' : State) : Prop where
  | same (hindex : m.block = b → m.index ≤ pre.length) (hblock : m'.block = m.block)
      (hindex' : m'.index = m.index)
      (hpred : ∀ j ∈ f.code m.block, (f.instr j).op = .phi → m'.pred = m.pred.map (origin f b))
  | behind (k : Nat) (hblock : m.block = b) (hindex : m.index = pre.length + 1 + k)
      (hblock' : m'.block = f.blocks.size + 1) (hindex' : m'.index = p.join.length + k)

structure InStep (x : Isa) (f : Function) (b i : Nat) (pre : List Nat) (p : Plan) (m m' : State) :
    Prop where
  block_lt : m.block < f.blocks.size
  pred_lt : ∀ c ∈ m.pred, c < f.blocks.size
  placed : Placed f b pre p m m'
  alike : m.store.Alike (Hidden f) m'.store
  flags : m'.store.flags = m.store.flags ∨ Stale x f b i m.block m.index
  counts : ∀ j < f.instrs.size, j ≠ i → m'.counts j = m.counts j

/-- The outcomes of functions that run in step. -/
inductive Agree (R : State → State → Prop) (hidden : Register → Prop) :
    Outcome → Outcome → Prop where
  | running {m m' : State} (h : R m m') : Agree R hidden (.running m) (.running m')
  | left {s s' : Store} (h : s.Alike hidden s') : Agree R hidden (.left s) (.left s')
  | stuck : Agree R hidden .stuck .stuck

/-- What both the old function and its expansion are known to be. -/
structure Setting (x : Isa) (f f' : Function) (b i : Nat) (pre post : List Nat) (p : Plan) :
    Prop where
  suited : Suited x f b i
  planned : Planned f i b p
  code : f.code b = pre ++ i :: post
  expanded : Expanded f f' i b pre post p

namespace Setting

variable (h : Setting x f f' b i pre post p)

include h
theorem lt_size : b < f.blocks.size :=
  lt_of_mem_code (i := i) (by simp [h.code])

/-- Away from the instruction, both functions are at the same instruction. -/
theorem fetch (hs : InStep x f b i pre p m m')
    (haway : ¬ (m.block = b ∧ m.index = pre.length)) :
    (f'.code m'.block)[m'.index]? = (f.code m.block)[m.index]? := by
  have hx := h.expanded
  cases hs.placed with
  | same hindex hblock hindex' =>
    rw [hblock, hindex']
    by_cases hb : m.block = b
    · have hlt : m.index < pre.length := Nat.lt_of_le_of_ne (hindex hb) fun he => haway ⟨hb, he⟩
      rw [hb, hx.code_head, h.code, List.getElem?_append_left hlt, List.getElem?_append_left hlt]
    · rw [hx.code_other _ hs.block_lt hb]
  | behind k hblock hindex hblock' hindex' =>
    rw [hblock, hblock', hindex, hindex', hx.code_tail, h.code,
      List.getElem?_append_right (by simp), List.getElem?_append_right (by omega)]
    rw [List.length_range', Nat.add_sub_cancel_left, show pre.length + 1 + k - pre.length =
      k + 1 by omega,
      List.getElem?_cons_succ]

/-- Where control leaves the block, it does so behind the instruction. -/
theorem behind_of_end (hend : (f.code m.block)[m.index]? = none) :
    m.block = b → pre.length < m.index := by
  intro hb
  rw [hb, h.code, List.getElem?_eq_none_iff] at hend
  simp at hend
  omega

theorem following_eq (hs : InStep x f b i pre p m m')
    (hleave : m.block = b → pre.length < m.index) :
    following m'.block f'.layout = following m.block f.layout := by
  cases hs.placed with
  | same hindex hblock =>
    have hb : m.block ≠ b := fun hb => Nat.not_le_of_lt (hleave hb) (hindex hb)
    rw [hblock]
    exact h.expanded.following_other hs.block_lt hb
  | behind k hblock _ hblock' =>
    rw [hblock, hblock']
    exact h.expanded.following_tail h.suited.wellFormed h.lt_size

end Setting

theorem InStep.enter (hs : InStep x f b i pre p m m')
    (hleave : (m.block = b → pre.length < m.index) ∨ ∀ j ∈ f.code d, (f.instr j).op ≠ .phi)
    (hd : d < f.blocks.size) (hflags : m'.store.flags = m.store.flags ∨ Stale x f b i d 0) :
    InStep x f b i pre p (m.enter d) (m'.enter d) where
  block_lt := hd
  pred_lt c hc := by
    cases hc
    exact hs.block_lt
  placed := by
    refine .same (fun _ => Nat.zero_le _) rfl rfl fun j hj hop => ?_
    have hleave := hleave.resolve_right fun hnone => hnone j hj hop
    show some m'.block = some (origin f b m.block)
    cases hs.placed with
    | same hindex hblock =>
      have hb : m.block ≠ b := fun hb => Nat.not_le_of_lt (hleave hb) (hindex hb)
      rw [hblock, origin, if_neg hb]
    | behind k hblock _ hblock' => rw [hblock', origin, if_pos hblock]
  alike := hs.alike
  flags := hflags
  counts := hs.counts

theorem InStep.advance {store store' : Store} (hs : InStep x f b i pre p m m')
    (haway : ¬ (m.block = b ∧ m.index = pre.length)) (halike : store.Alike (Hidden f) store')
    (hflags : store'.flags = store.flags ∨ Stale x f b i m.block (m.index + 1))
    {counts counts' : Nat → Nat} (hcounts : ∀ j < f.instrs.size, j ≠ i → counts' j = counts j) :
    InStep x f b i pre p { m.advance 1 with store, counts }
    { m'.advance 1 with store := store', counts := counts' } where
  block_lt := hs.block_lt
  pred_lt := hs.pred_lt
  placed := by
    cases hs.placed with
    | same hindex hblock hindex' hpred =>
      refine .same (fun hb => ?_) hblock (congrArg (· + 1) hindex') hpred
      exact Nat.lt_of_le_of_ne (hindex hb) fun he => haway ⟨hb, he⟩
    | behind k hblock hindex hblock' hindex' =>
      exact .behind (k + 1) hblock (congrArg (· + 1) hindex) hblock' (congrArg (· + 1) hindex')
  alike := halike
  flags := hflags
  counts := hcounts

theorem op_of_mem_phis (h : j ∈ f.phis c) : (f.instr j).op = .phi := by
  simpa using List.mem_takeWhile_imp h

namespace Setting

variable (h : Setting x f f' b i pre post p)

include h
theorem op_eq (hj : j ∈ f.code c) : (f'.instr j).op = (f.instr j).op :=
  h.expanded.op_old (h.suited.wellFormed.toHoused.lt_of_mem hj)

theorem operands_eq (hj : j ∈ f.code c) (hop : (f.instr j).op ≠ .phi) :
    (f'.instr j).operands = (f.instr j).operands := by
  rw [h.expanded.operands_old (h.suited.wellFormed.toHoused.lt_of_mem hj), if_neg]
  rintro ⟨s, -, hs⟩
  exact hop (op_of_mem_phis hs)

theorem operands_phi (hj : j ∈ f.code c) (hop : (f.instr j).op = .phi) :
    (f'.instr j).operands = ((f.instr j).retarget b (f.blocks.size + 1)).operands := by
  have hw := h.suited.wellFormed
  rw [h.expanded.operands_old (hw.toHoused.lt_of_mem hj)]
  split
  · rfl
  · rename_i hout
    -- the phi does not name the old block
    have hb : .block b ∉ (f.instr j).operands := fun hm => by
      have hc : c ∈ f.succs b := (hw.edge b c).2 ((h.suited.named c j hj hop b).1 hm)
      exact hout ⟨c, hc, h.suited.lead c hc j hj hop⟩
    refine (List.map_id' _).symm.trans (List.map_congr_left fun o ho => ?_)
    rw [if_neg fun (he : o = .block b) => hb (he ▸ ho)]

end Setting

/-! ### Phis -/

section Phis

variable {old new q : Nat} {o : Operand} {os : List Operand}

/-- An operand with another block in place of `old`. -/
def retargeted (old new : Nat) (o : Operand) : Operand := if o = .block old then .block new else o

theorem operandRegister?_retargeted :
    operandRegister? (retargeted old new o) = operandRegister? o := by
  unfold retargeted
  split
  · rename_i h
    rw [h]
    rfl
  · rfl

theorem value_retargeted (s : Store) : s.value (retargeted old new o) = s.value o := by
  unfold retargeted
  split
  · rename_i h
    rw [h]
    rfl
  · rfl

theorem retargeted_block : retargeted old new (.block c) = .block (if c = old then new else c) := by
  unfold retargeted
  by_cases hc : c = old <;> simp [hc]

theorem mem_of_incoming (h : incoming q os = some o) : o ∈ os := by
  fun_induction incoming q os with
  | case1 v rest =>
    cases h
    simp
  | case2 v c rest hc ih => simp [ih h]
  | case3 => cases h

theorem incoming_retargeted (hnew : .block new ∉ os) (hq : q ≠ new) :
    incoming (if q = old then new else q) (os.map (retargeted old new)) =
      (incoming q os).map (retargeted old new) := by
  fun_induction incoming q os with
  | case1 v rest =>
    rw [List.map_cons, List.map_cons, retargeted_block, incoming, if_pos rfl, Option.map_some]
  | case2 v c rest hc ih =>
    have hcn : c ≠ new := by
      rintro rfl
      exact hnew (by simp)
    rw [List.map_cons, List.map_cons, retargeted_block, incoming, if_neg, ih fun hm =>
      hnew (by simp [hm])]
    intro he
    split at he <;> split at he
    · rename_i h₁ h₂
      exact hc (h₁.trans h₂.symm)
    · exact hq he.symm
    · exact hcn he
    · exact hc he
  | case3 os hos =>
    rcases os with _ | ⟨v, _ | ⟨w, rest⟩⟩
    · rfl
    · rfl
    · cases w with
      | block c => exact (hos v c rest rfl).elim
      | _ => rfl

/-- A phi has the value for where control came from. -/
theorem phiValue_retargeted {hidden : Register → Prop} {s s' : Store} {pred : Option Nat}
    (halike : s.Alike hidden s') (hos : Unknown hidden os) (hnew : .block (f.blocks.size + 1) ∉ os)
    (hpred : ∀ c ∈ pred, c < f.blocks.size) :
    phiValue (pred.map (origin f b)) s' (os.map (retargeted b (f.blocks.size + 1))) =
    phiValue pred s os := by
  cases os with
  | nil => rfl
  | cons d os =>
    cases pred with
    | none =>
      simp [phiValue]
    | some q =>
      have hq := hpred q rfl
      have hin : incoming (origin f b q) (os.map (retargeted b (f.blocks.size + 1))) =
          (incoming q os).map (retargeted b (f.blocks.size + 1)) :=
        incoming_retargeted (fun hm => hnew (by simp [hm])) (by omega)
      simp only [phiValue, Option.map_some, List.map_cons, List.head?_cons, List.tail_cons,
        Option.bind_eq_bind, Option.bind_some, operandRegister?_retargeted, hin]
      cases hv : incoming q os with
      | none => rfl
      | some o =>
        have hvalue : s'.value o = s.value o :=
          halike.value hos (List.mem_cons_of_mem d (mem_of_incoming hv))
        simp only [Option.map_some, Option.bind_some, value_retargeted, hvalue]

theorem mapM_congr {α β : Type} {g g' : α → Option β} {l : List α} (h : ∀ a ∈ l, g' a = g a) :
    l.mapM g' = l.mapM g := by
  induction l with
  | nil => rfl
  | cons a l ih =>
    rw [List.mapM_cons, List.mapM_cons, h a (by simp), ih fun c hc => h c (by simp [hc])]

theorem foldl_put_alike {hidden : Register → Prop} {s s' : Store} (halike : s.Alike hidden s')
    (values : List (Register × UInt32)) :
    Store.Alike hidden { s with regs := values.foldl (fun g (r, v) => put g r v) s.regs }
      { s' with regs := values.foldl (fun g (r, v) => put g r v) s'.regs } := by
  induction values generalizing s s' with
  | nil => exact halike
  | cons rv values ih =>
    have hput : Store.Alike hidden { s with regs := put s.regs rv.1 rv.2 }
        { s' with regs := put s'.regs rv.1 rv.2 } := ⟨(halike.put rv.1 rv.2 s.mem).regs, halike.mem⟩
    exact ih hput

theorem getElem?_of_lt_phisFrom {k n : Nat} (h : n < (phisFrom f c k).length) :
    ∃ j, (f.code c)[k + n]? = some j ∧ (f.instr j).op = .phi := by
  obtain ⟨t, ht⟩ := List.takeWhile_prefix (fun j => decide ((f.instr j).op = .phi)) (l :=
    (f.code c).drop k)
  refine ⟨(phisFrom f c k)[n], ?_, ?_⟩
  · rw [← List.getElem?_drop, ← ht]
    exact (List.getElem?_append_left h).trans (List.getElem?_eq_getElem h)
  · simpa using List.mem_takeWhile_imp (List.getElem_mem h)

theorem not_sets_phi : ¬ x.Sets .phi := not_sets (by decide) (by simp [IsOrdinary])

theorem Stale.phis {k : Nat} (h : Stale x f b i c k) :
    Stale x f b i c (k + (phisFrom f c k).length) := by
  suffices hall : ∀ n ≤ (phisFrom f c k).length, Stale x f b i c (k + n) from hall _ (Nat.le_refl _)
  intro n hn
  induction n with
  | zero => exact h
  | succ n ih =>
    obtain ⟨j, hj, hop⟩ := getElem?_of_lt_phisFrom hn
    exact (ih (by omega)).next hj (hop ▸ not_sets_phi)

end Phis

namespace Setting

variable (h : Setting x f f' b i pre post p)

include h
/-- Up to the instruction, both functions have the same phis. -/
theorem phisFrom_eq {k : Nat} (hc : c < f.blocks.size)
    (hk : c = b → k ≤ pre.length) : phisFrom f' c k = phisFrom f c k := by
  by_cases hb : c = b
  · subst hb
    rw [phisFrom, phisFrom, h.expanded.code_head, h.code, List.drop_append_of_le_length (hk rfl),
      List.drop_append_of_le_length (hk rfl),
      takeWhile_append_stop (h.expanded.not_phi_test h.planned),
      takeWhile_append_stop (by simp [h.planned.op_ne_phi])]
    refine takeWhile_congr fun j hj => ?_
    rw [h.op_eq (c := c) (by simp [h.code, List.mem_of_mem_drop hj])]
  · rw [phisFrom, phisFrom, h.expanded.code_other c hc hb]
    refine takeWhile_congr fun j hj => ?_
    rw [h.op_eq (List.mem_of_mem_drop hj)]

theorem length_phisFrom_le {k : Nat} (hk : k ≤ pre.length) :
    k + (phisFrom f b k).length ≤ pre.length := by
  rw [phisFrom, h.code, List.drop_append_of_le_length hk,
    takeWhile_append_stop (by simp [h.planned.op_ne_phi])]
  have := (List.takeWhile_sublist (fun j => decide ((f.instr j).op = .phi)) (l :=
    pre.drop k)).length_le
  rw [List.length_drop] at this
  omega

theorem phiStore_alike (hs : InStep x f b i pre p m m')
    (hblock : m'.block = m.block) (hindex : m'.index = m.index)
    (hphis : phisFrom f' m.block m.index = phisFrom f m.block m.index)
    (hpred : m'.pred = m.pred.map (origin f b)) :
    Option.Rel (Store.AlikeTo (Hidden f) (m'.store.flags = m.store.flags)) (phiStore f m)
    (phiStore f' m') := by
  have hvalues : ∀ j ∈ phisFrom f m.block m.index,
      phiValue m'.pred m'.store (f'.instr j).operands = phiValue m.pred m.store
          (f.instr j).operands := by
    intro j hj
    have hop : (f.instr j).op = .phi := by simpa using List.mem_takeWhile_imp hj
    have hmem : j ∈ f.code m.block := List.mem_of_mem_drop ((List.takeWhile_sublist _).subset hj)
    rw [hpred, h.operands_phi hmem hop]
    refine phiValue_retargeted hs.alike (h.suited.unknown j) (fun hm => ?_) hs.pred_lt
    have := h.suited.blocks j _ hm
    omega
  rw [phiStore, phiStore, hblock, hindex, hphis, mapM_congr hvalues]
  generalize (phisFrom f m.block m.index).mapM (m := Option) _ = values
  cases values with
  | none => exact .none
  | some values => exact .some ⟨foldl_put_alike hs.alike values, id⟩

/-! ### Steps away from the instruction -/

theorem execute_phi (hs : InStep x f b i pre p m m')
    (hj : (f.code m.block)[m.index]? = some j) (hop : (f.instr j).op = .phi) :
    Agree (InStep x f b i pre p) (Hidden f) (x.execute f m j) (x.execute f' m' j) := by
  have hmem := List.mem_of_getElem? hj
  rw [Isa.execute, Isa.execute, if_pos hop, if_pos ((h.op_eq hmem).trans hop)]
  cases hs.placed with
  | behind k hblock hindex =>
    -- no phi stands behind the instruction
    rw [hblock, hindex, h.code, List.getElem?_append_right (by omega),
      show pre.length + 1 + k - pre.length = k + 1 by omega, List.getElem?_cons_succ] at hj
    exact absurd hop (h.suited.ahead pre post h.code j (List.mem_of_getElem? hj))
  | same hindex hblock hindex' hpred =>
    have hphis := h.phisFrom_eq hs.block_lt hindex
    have hrel := h.phiStore_alike hs hblock hindex' hphis (hpred j hmem hop)
    rw [hblock, hindex', hphis]
    generalize phiStore f m = store at hrel
    generalize phiStore f' m' = store' at hrel
    cases hrel with
    | none => exact .stuck
    | some halike =>
      refine .running ⟨hs.block_lt, hs.pred_lt, ?_, halike.1, ?_, hs.counts⟩
      · refine .same (fun hb => ?_) hblock (congrArg (· + _) hindex') hpred
        show m.index + (phisFrom f m.block m.index).length ≤ pre.length
        rw [show m.block = b from hb]
        exact h.length_phisFrom_le (hindex hb)
      · exact hs.flags.imp halike.2 Stale.phis

/-- Where control leaves the block before the instruction, it does not go to phis. -/
theorem leave_of_branch (haway : ¬ (m.block = b ∧ m.index = pre.length))
    (hj : (f.code m.block)[m.index]? = some j)
    (hop : (f.instr j).op = Instr.branch ∨ (f.instr j).op = Instr.bcc)
    (hd : .block d ∈ (f.instr j).operands) : (m.block = b → pre.length < m.index) ∨
    ∀ l ∈ f.code d, (f.instr l).op ≠ .phi := by
  by_cases hbefore : m.block = b ∧ m.index < pre.length
  · rw [hbefore.1, h.code, List.getElem?_append_left hbefore.2] at hj
    exact .inr (h.suited.early pre post h.code j (List.mem_of_getElem? hj) hop d hd)
  · refine .inl fun hb => ?_
    have hne : m.index ≠ pre.length := fun he => haway ⟨hb, he⟩
    have hge : ¬ m.index < pre.length := fun hlt => hbefore ⟨hb, hlt⟩
    omega

/-- Where flags are read they are those that were there. -/
theorem flags_of_reads (hs : InStep x f b i pre p m m')
    (hj : (f.code m.block)[m.index]? = some j) (hr : x.Reads (f.instr j).op) :
    m'.store.flags = m.store.flags :=
  hs.flags.resolve_right fun hstale => h.suited.settled _ _ j hstale hj hr

theorem execute_branch (hs : InStep x f b i pre p m m')
    (haway : ¬ (m.block = b ∧ m.index = pre.length)) (hj : (f.code m.block)[m.index]? = some j)
    (hd : .block d ∈ (f.instr j).operands)
    (hop : (f.instr j).op = Instr.branch ∨ (f.instr j).op = Instr.bcc) :
    InStep x f b i pre p (m.enter d) (m'.enter d) :=
  hs.enter (h.leave_of_branch haway hj hop hd) (h.suited.blocks j d hd)
    (hs.flags.imp_right fun hstale => hstale.jump hj hop hd)

theorem execute_effect (hs : InStep x f b i pre p m m')
    (haway : ¬ (m.block = b ∧ m.index = pre.length)) (hj : (f.code m.block)[m.index]? = some j)
    (hout : (f.instr j).op ∉ [.phi, Instr.bcc, Instr.branch, Instr.leave]) :
    Agree (InStep x f b i pre p) (Hidden f) (x.execute f m j) (x.execute f' m' j) := by
  have hmem := List.mem_of_getElem? hj
  have hji : j ≠ i := by
    rintro rfl
    have hw := h.suited.wellFormed
    have hb : m.block = b := Option.some.inj (((hw.parent_eq j m.block).2 hmem).symm.trans
      ((hw.parent_eq j b).2 (by simp [h.code])))
    refine haway ⟨hb, ?_⟩
    have hlt := (List.getElem?_eq_some_iff.1 hj).1
    have hplace : (f.code m.block)[pre.length]? = some j := by rw [hb, h.code]; simp
    exact (List.getElem?_inj hlt (hw.code_nodup m.block)).1 (hj.trans hplace.symm)
  have hops := h.operands_eq hmem (by simp_all)
  have hcounts := hs.counts j (h.suited.wellFormed.toHoused.lt_of_mem hmem) hji
  simp only [List.mem_cons, List.not_mem_nil, or_false, not_or] at hout
  obtain ⟨hphi, hbcc, hbranch, hleave⟩ := hout
  simp only [Isa.execute, h.op_eq hmem, hops, if_neg hphi, if_neg hleave, if_neg hbranch,
    if_neg hbcc, hcounts]
  have hrel := effect_alike (i := j) (n := m.counts j) hs.alike (h.suited.unknown j)
    (by simp [hphi, hbcc, hbranch, hleave]) (h.flags_of_reads hs hj)
  generalize x.effect j (m.counts j) (f.instr j).op (f.instr j).operands m.store = store at hrel
  generalize x.effect j (m.counts j) (f.instr j).op (f.instr j).operands m'.store = store' at hrel
  cases hrel with
  | none => exact .stuck
  | some halike =>
    refine .running (hs.advance haway halike.1 ?_ fun l hl hli => ?_)
    · by_cases hset : x.Sets (f.instr j).op
      · exact .inl (halike.2 (.inl hset))
      · exact hs.flags.imp (fun he => halike.2 (.inr he)) fun hstale => hstale.next hj hset
    · rw [hs.counts l hl hli]

theorem execute_away (hs : InStep x f b i pre p m m')
    (haway : ¬ (m.block = b ∧ m.index = pre.length)) (hj : (f.code m.block)[m.index]? = some j) :
    Agree (InStep x f b i pre p) (Hidden f) (x.execute f m j) (x.execute f' m' j) := by
  have hmem := List.mem_of_getElem? hj
  by_cases hphi : (f.instr j).op = .phi
  · exact h.execute_phi hs hj hphi
  have hops := h.operands_eq hmem hphi
  by_cases hleave : (f.instr j).op = Instr.leave
  · simp only [Isa.execute, h.op_eq hmem, if_neg hphi, if_pos hleave]
    exact .left hs.alike
  by_cases hbranch : (f.instr j).op = Instr.branch
  · simp only [Isa.execute, h.op_eq hmem, hops, if_neg hphi, if_neg hleave, if_pos hbranch]
    split
    · rename_i d hd
      exact .running (h.execute_branch hs haway hj (by simp [hd]) (.inl hbranch))
    · exact .stuck
  by_cases hbcc : (f.instr j).op = Instr.bcc
  · have hflags := h.flags_of_reads hs hj (.inl hbcc)
    simp only [Isa.execute, h.op_eq hmem, hops, if_neg hphi, if_neg hleave, if_neg hbranch,
      if_pos hbcc, hflags]
    split
    · rename_i cc d hd
      refine .running ?_
      split
      · exact h.execute_branch hs haway hj (by simp [hd]) (.inr hbcc)
      · exact hs.advance haway hs.alike (.inl hflags) hs.counts
    · exact .stuck
  exact h.execute_effect hs haway hj (by simp [hphi, hbcc, hbranch, hleave])

/-- Away from the instruction both functions take the same step. -/
theorem step_away (hs : InStep x f b i pre p m m')
    (haway : ¬ (m.block = b ∧ m.index = pre.length)) :
    Agree (InStep x f b i pre p) (Hidden f) (x.step f m) (x.step f' m') := by
  rw [Isa.step, Isa.step, h.fetch hs haway]
  cases hj : (f.code m.block)[m.index]? with
  | some j => exact h.execute_away hs haway hj
  | none =>
    have hleave := h.behind_of_end hj
    simp only [h.following_eq hs hleave]
    cases hd : following m.block f.layout with
    | none => exact .left hs.alike
    | some d =>
      have hlt := h.suited.wellFormed.lt_size d (mem_of_following hd)
      exact .running (hs.enter (.inl hleave) hlt (hs.flags.imp_right fun hstale =>
        hstale.fall hj hd))

end Setting

end Usim.Pseudo

end GraphLowering
