import GraphLowering.Proofs.Machine.Edits
import GraphLowering.Usim.Pseudo

/-!
# Running machine code

A state of the machine is a place in a function, the block that control came from, and a store:
registers, memory and the flags of the last compare. Phis in a row take their values at once, by the
block that control came from. A branch that is not taken falls through, and so does the end of a
block, to the block that is next in the layout. A store-conditional fails now and then; it is not
known when, but it does not fail for ever (`Isa.status_zero`). Nothing is assumed about the other
instructions than that they know the registers that they name and the physical ones
(`Isa.exec_alike`).

Pseudo instructions are carried out in one step, which is what they mean.
-/

namespace GraphLowering.Usim

open Machine (Function Op Operand)

namespace Instr

/-- Branches. -/
def branch : Op := .machine 9

/-- Leaves the function. -/
def leave : Op := .machine 15

end Instr

/-- What the last compare compared. -/
structure Flags where
  isFloat : Bool
  lhs : UInt32
  rhs : UInt32
deriving DecidableEq, Repr, Inhabited

structure Store where
  regs : Register → UInt32
  mem : UInt32 → UInt32
  flags : Flags

/-- A function with one value changed. -/
def put {α : Type} [DecidableEq α] (g : α → UInt32) (a : α) (v : UInt32) : α → UInt32 :=
  fun a' => if a' = a then v else g a'

/-- Stores that agree on memory and on all registers but the hidden ones. -/
structure Store.Alike (hidden : Register → Prop) (s s' : Store) : Prop where
  regs : ∀ r, ¬ hidden r → s'.regs r = s.regs r
  mem : s'.mem = s.mem

/-- Registers that an instruction cannot know about. -/
def Unknown (hidden : Register → Prop) (os : List Operand) : Prop :=
  ∀ r, hidden r → r.isVirtual ∧ ∀ o ∈ os, operandRegister? o ≠ some r

/-- What is left open about the machine. -/
structure Isa where
  holds : Flags → Cond → Bool
  holds_ne : ∀ a b, holds ⟨false, a, b⟩ .ne = (a != b)
  /-- What the store-conditional with number `i` gives when it is carried out for the `n`-th time:
  zero if it stored. -/
  status : Nat → Nat → UInt32
  status_zero : ∀ i n, ∃ k, n ≤ k ∧ status i k = 0
  /-- What the instructions do that are not dealt with below. -/
  exec : Op → List Operand → Store → Store
  readsFlags : Op → Bool
  setsFlags : Op → Bool
  exec_alike : ∀ op os hidden s s', Unknown hidden os → s.Alike hidden s' →
    (readsFlags op → s'.flags = s.flags) →
      (exec op os s).Alike hidden (exec op os s') ∧
      (setsFlags op ∨ s'.flags = s.flags → (exec op os s').flags = (exec op os s).flags)

namespace Store

variable (s : Store)

def value : Operand → Option UInt32
  | .use r | .define r => some (s.regs r)
  | .imm n => some n.toInt32.toUInt32
  | .block _ => none

/-- The first operand takes a value that depends on the others; memory may change. -/
def assign (os : List Operand) (g : List UInt32 → Option (UInt32 × (UInt32 → UInt32))) :
    Option Store :=
  match os with
  | [] => none
  | d :: args => do
    let r ← operandRegister? d
    let (v, mem) ← g (← args.mapM s.value)
    return { s with regs := put s.regs r v, mem }

end Store

/-- The compares. -/
def IsCompare (op : Op) : Prop := op = Instr.cmpRR ∨ op = Instr.cmpRI ∨ op = Instr.fcmpRR

instance (op : Op) : Decidable (IsCompare op) := inferInstanceAs (Decidable (_ ∨ _ ∨ _))

/-- The instructions about which nothing is known. -/
def IsOrdinary (op : Op) : Prop :=
  op ∉ [.phi, Instr.cmpRR, Instr.cmpRI, Instr.fcmpRR, Instr.addRR, Instr.loadLinked,
    Instr.storeConditional, Instr.atomicLoadAdd, Instr.select, Instr.bcc, Instr.branch, Instr.leave]

namespace Isa

variable (x : Isa)

/-- What instruction `i`, carried out for the `n`-th time, does to the store; `none` if its operands
make no sense. -/
def effect (i n : Nat) (op : Op) (os : List Operand) (s : Store) : Option Store :=
  if IsCompare op then
    match os.mapM s.value with
    | some [a, b] => some { s with flags := ⟨op = Instr.fcmpRR, a, b⟩ }
    | _ => none
  else if op = Instr.addRR then
    s.assign os fun
      | [a, b] => some (a + b, s.mem)
      | _ => none
  else if op = Instr.loadLinked then
    s.assign os fun
      | [p] => some (s.mem p, s.mem)
      | _ => none
  else if op = Instr.storeConditional then
    s.assign os fun
      | [v, p] => some (x.status i n, if x.status i n = 0 then put s.mem p v else s.mem)
      | _ => none
  else if op = Instr.atomicLoadAdd then
    s.assign os fun
      | [p, v] => some (s.mem p, put s.mem p (s.mem p + v))
      | _ => none
  else if op = Instr.select then
    match os.getLast? with
    | some (.imm cc) =>
      s.assign os.dropLast fun
        | [a, b, t, e] =>
          let cond := condOfImmediate cc
          some (if x.holds ⟨cond.isFloat, a, b⟩ cond then t else e, s.mem)
        | _ => none
    | _ => none
  else some (x.exec op os s)

/-- Whether what an instruction does depends on the flags. -/
def Reads (op : Op) : Prop := op = Instr.bcc ∨ IsOrdinary op ∧ x.readsFlags op

/-- Whether the flags behind an instruction do not depend on those before it. -/
def Sets (op : Op) : Prop := IsCompare op ∨ IsOrdinary op ∧ x.setsFlags op

end Isa

structure State where
  block : Nat
  /-- The number of the next instruction in the block. -/
  index : Nat
  /-- The block that control came from. -/
  pred : Option Nat
  store : Store
  /-- How often each instruction was carried out. -/
  counts : Nat → Nat

inductive Outcome where
  | running (m : State)
  | left (s : Store)
  /-- The next instruction makes no sense. -/
  | stuck

namespace Outcome

def isRunning : Outcome → Bool
  | running _ => true
  | _ => false

def isStuck : Outcome → Bool
  | stuck => true
  | _ => false

end Outcome

namespace State

variable (m : State)

def enter (c : Nat) : State := { m with block := c, index := 0, pred := some m.block }

def advance (n : Nat) : State := { m with index := m.index + n }

/-- Behind instruction `i`. -/
def after (i : Nat) (store : Store) : State :=
  { m.advance 1 with store, counts := fun j => if j = i then m.counts j + 1 else m.counts j }

end State

/-- What follows `b` in a list. -/
def following (b : Nat) : List Nat → Option Nat
  | [] => none
  | c :: rest => if c = b then rest.head? else following b rest

/-- The operand of a phi that stands before a block. -/
def incoming (pred : Nat) : List Operand → Option Operand
  | v :: .block c :: rest => if c = pred then some v else incoming pred rest
  | _ => none

/-- The register that a phi defines and its value. -/
def phiValue (pred : Option Nat) (s : Store) (os : List Operand) : Option (Register × UInt32) := do
  let d ← os.head?
  let r ← operandRegister? d
  let v ← s.value (← incoming (← pred) os.tail)
  return (r, v)

/-- The phis from a place on. -/
def phisFrom (f : Function) (c k : Nat) : List Nat :=
  ((f.code c).drop k).takeWhile fun j => (f.instr j).op = .phi

/-- All values are taken before any is put into a register. -/
def phiStore (f : Function) (m : State) : Option Store := do
  let values ← (phisFrom f m.block m.index).mapM fun j =>
    phiValue m.pred m.store (f.instr j).operands
  return { m.store with regs := values.foldl (fun g (r, v) => put g r v) m.store.regs }

namespace Isa

variable (x : Isa)

/-- Carries an instruction out. -/
def execute (f : Function) (m : State) (i : Nat) : Outcome :=
  let op := (f.instr i).op
  let os := (f.instr i).operands
  if op = .phi then
    match phiStore f m with
    | some store => .running { m.advance (phisFrom f m.block m.index).length with store }
    | none => .stuck
  else if op = Instr.leave then .left m.store
  else if op = Instr.branch then
    match os with
    | [.block c] => .running (m.enter c)
    | _ => .stuck
  else if op = Instr.bcc then
    match os with
    | [.imm cc, .block c] =>
      .running (if x.holds m.store.flags (condOfImmediate cc) then m.enter c else m.advance 1)
    | _ => .stuck
  else
    match x.effect i (m.counts i) op os m.store with
    | some store => .running (m.after i store)
    | none => .stuck

def step (f : Function) (m : State) : Outcome :=
  match (f.code m.block)[m.index]? with
  | some i => x.execute f m i
  | none =>
    match following m.block f.layout with
    | some c => .running (m.enter c)
    | none => .left m.store

/-- At most `n` steps. -/
def run (f : Function) : Nat → State → Outcome
  | 0, m => .running m
  | n + 1, m =>
    match x.step f m with
    | .running m' => run f n m'
    | o => o

/-- Control gets from one state to another. -/
def Reaches (f : Function) (m m' : State) : Prop := ∃ n, x.run f n m = .running m'

end Isa

section Run

variable {x : Isa} {f : Function} {m m₁ m' : State} {i n : Nat}

theorem Isa.run_succ (h : x.step f m = .running m₁) : x.run f (n + 1) m = x.run f n m₁ := by
  rw [Isa.run, h]

theorem Isa.run_add {k : Nat} (h : x.run f n m = .running m₁) :
    x.run f (n + k) m = x.run f k m₁ := by
  induction n generalizing m with
  | zero =>
    cases h
    rw [Nat.zero_add]
  | succ n ih =>
    rw [Isa.run] at h
    split at h
    · rename_i m₂ hstep
      rw [Nat.add_right_comm, Isa.run_succ hstep, ih h]
    · rename_i hnot
      exact absurd h (hnot m₁)

/-- Nothing happens any more once control has left the function or is stuck. -/
theorem Isa.run_halted {o : Outcome} {k : Nat} (ho : ∀ m', o ≠ .running m') (h : x.run f n m = o) :
    x.run f (n + k) m = o := by
  induction n generalizing m with
  | zero => exact absurd h.symm (ho m)
  | succ n ih =>
    rw [Isa.run] at h
    rw [Nat.add_right_comm, Isa.run]
    split at h
    · exact ih h
    · exact h

namespace Isa.Reaches

theorem refl : x.Reaches f m m := ⟨0, rfl⟩

theorem head (hstep : x.step f m = .running m₁) (h : x.Reaches f m₁ m') : x.Reaches f m m' :=
  let ⟨n, hn⟩ := h
  ⟨n + 1, (Isa.run_succ hstep).trans hn⟩

theorem trans (h : x.Reaches f m m₁) (h' : x.Reaches f m₁ m') : x.Reaches f m m' :=
  let ⟨n, hn⟩ := h
  let ⟨k, hk⟩ := h'
  ⟨n + k, (Isa.run_add hn).trans hk⟩

end Isa.Reaches

theorem Isa.step_of_fetch (hi : (f.code m.block)[m.index]? = some i) :
    x.step f m = x.execute f m i := by
  rw [Isa.step, hi]

theorem Isa.step_of_effect {store : Store} (hi : (f.code m.block)[m.index]? = some i)
    (hop : (f.instr i).op ∉ [.phi, Instr.bcc, Instr.branch, Instr.leave])
    (h : x.effect i (m.counts i) (f.instr i).op (f.instr i).operands m.store = some store) :
    x.step f m = .running (m.after i store) := by
  simp only [List.mem_cons, List.not_mem_nil, or_false, not_or] at hop
  simp only [Isa.step_of_fetch hi, Isa.execute, if_neg hop.1, if_neg hop.2.1, if_neg hop.2.2.1,
    if_neg hop.2.2.2, h]

theorem Isa.step_of_bcc {cc : Int64} {c : Nat} (hi : (f.code m.block)[m.index]? = some i)
    (hop : (f.instr i).op = Instr.bcc) (hos : (f.instr i).operands = [.imm cc, .block c]) :
    x.step f m =
      .running (if x.holds m.store.flags (condOfImmediate cc) then m.enter c else m.advance 1) := by
  simp only [Isa.step_of_fetch hi, Isa.execute, hop, hos]
  rfl

theorem Isa.step_of_end {c : Nat} (hend : (f.code m.block)[m.index]? = none)
    (hc : following m.block f.layout = some c) : x.step f m = .running (m.enter c) := by
  rw [Isa.step, hend]
  simp only [hc]

end Run

/-! ### What cannot be seen -/

variable {hidden : Register → Prop} {s s' : Store} {os : List Operand} {op : Op} {x : Isa}

theorem Unknown.not_hidden (h : Unknown hidden os) {o : Operand} (ho : o ∈ os) {r : Register}
    (hr : operandRegister? o = some r) : ¬ hidden r := fun hh => (h r hh).2 o ho hr

theorem Unknown.mono (h : Unknown hidden os) {os' : List Operand} (hsub : ∀ o ∈ os', o ∈ os) :
    Unknown hidden os' := fun r hr => ⟨(h r hr).1, fun o ho => (h r hr).2 o (hsub o ho)⟩

namespace Store

theorem Alike.value (h : s.Alike hidden s') (hos : Unknown hidden os) {o : Operand} (ho : o ∈ os) :
    s'.value o = s.value o := by
  cases o with
  | use r | define r =>
    show some (s'.regs r) = some (s.regs r)
    rw [h.regs r (hos.not_hidden ho rfl)]
  | imm n | block c => rfl

theorem Alike.values (h : s.Alike hidden s') (hos : Unknown hidden os) :
    os.mapM s'.value = os.mapM s.value := by
  induction os with
  | nil => rfl
  | cons o os ih =>
    rw [List.mapM_cons, List.mapM_cons, h.value hos (by simp), ih (hos.mono (by simp +contextual))]

/-- A register takes the same value in stores that are alike. -/
theorem Alike.put (h : s.Alike hidden s') (r : Register) (v : UInt32) (mem : UInt32 → UInt32) :
    Store.Alike hidden { s with regs := Usim.put s.regs r v, mem }
      { s' with regs := Usim.put s'.regs r v, mem } where
  regs q hq := by
    show Usim.put s'.regs r v q = Usim.put s.regs r v q
    unfold Usim.put
    split
    · rfl
    · exact h.regs q hq
  mem := rfl

end Store

/-- Stores that are alike, with the same flags if `same` holds. -/
def Store.AlikeTo (hidden : Register → Prop) (same : Prop) (s s' : Store) : Prop :=
  s.Alike hidden s' ∧ (same → s'.flags = s.flags)

theorem Store.assign_alike (h : s.Alike hidden s') (hos : Unknown hidden os)
    {g : List UInt32 → Option (UInt32 × (UInt32 → UInt32))} :
    Option.Rel (Store.AlikeTo hidden (s'.flags = s.flags)) (s.assign os g) (s'.assign os g) := by
  cases os with
  | nil => exact .none
  | cons d args =>
    have hargs : Unknown hidden args := hos.mono (by simp +contextual)
    simp only [Store.assign, h.values hargs]
    cases operandRegister? d with
    | none => exact .none
    | some r =>
      cases args.mapM s.value with
      | none => exact .none
      | some vs =>
        cases hg : g vs with
        | none =>
          simp only [Option.bind_eq_bind, Option.bind_some, hg, Option.bind_none]
          exact .none
        | some v =>
          simp only [Option.bind_eq_bind, Option.bind_some, hg]
          exact .some ⟨h.put r v.1 v.2, id⟩

theorem not_sets (h : ¬ IsCompare op) (hop : ¬ IsOrdinary op) : ¬ x.Sets op := by
  rintro (hc | ⟨ho, -⟩)
  · exact h hc
  · exact hop ho

theorem rel_assign (h : s.Alike hidden s') (hos : Unknown hidden os) (hc : ¬ IsCompare op)
    (hop : ¬ IsOrdinary op) {g : List UInt32 → Option (UInt32 × (UInt32 → UInt32))} :
    Option.Rel (Store.AlikeTo hidden (x.Sets op ∨ s'.flags = s.flags)) (s.assign os g)
    (s'.assign os g) := by
  have hrel := Store.assign_alike h hos (g := g)
  generalize s.assign os g = t at hrel
  generalize s'.assign os g = t' at hrel
  cases hrel with
  | none => exact .none
  | some ht => exact .some ⟨ht.1, fun hf => ht.2 (hf.resolve_left (not_sets hc hop))⟩

theorem effect_alike {i n : Nat} (h : s.Alike hidden s') (hos : Unknown hidden os)
    (hout : op ∉ [.phi, Instr.bcc, Instr.branch, Instr.leave])
    (hreads : x.Reads op → s'.flags = s.flags) :
    Option.Rel (Store.AlikeTo hidden (x.Sets op ∨ s'.flags = s.flags)) (x.effect i n op os s)
      (x.effect i n op os s') := by
  unfold Isa.effect
  by_cases hc : IsCompare op
  · rw [if_pos hc, if_pos hc, h.values hos]
    split
    · exact .some ⟨⟨h.regs, h.mem⟩, fun _ => rfl⟩
    · exact .none
  rw [if_neg hc, if_neg hc, h.mem]
  by_cases hadd : op = Instr.addRR
  · rw [if_pos hadd, if_pos hadd]
    exact rel_assign h hos hc (by simp [IsOrdinary, hadd])
  rw [if_neg hadd, if_neg hadd]
  by_cases hload : op = Instr.loadLinked
  · rw [if_pos hload, if_pos hload]
    exact rel_assign h hos hc (by simp [IsOrdinary, hload])
  rw [if_neg hload, if_neg hload]
  by_cases hstore : op = Instr.storeConditional
  · rw [if_pos hstore, if_pos hstore]
    exact rel_assign h hos hc (by simp [IsOrdinary, hstore])
  rw [if_neg hstore, if_neg hstore]
  by_cases hatomic : op = Instr.atomicLoadAdd
  · rw [if_pos hatomic, if_pos hatomic]
    exact rel_assign h hos hc (by simp [IsOrdinary, hatomic])
  rw [if_neg hatomic, if_neg hatomic]
  by_cases hselect : op = Instr.select
  · rw [if_pos hselect, if_pos hselect]
    split
    · exact rel_assign h (hos.mono fun o ho => List.dropLast_subset os ho) hc
        (by simp [IsOrdinary, hselect])
    · exact .none
  rw [if_neg hselect, if_neg hselect]
  have hord : IsOrdinary op := by
    simp only [IsOrdinary, IsCompare] at hc ⊢
    simp_all
  obtain ⟨halike, hflags⟩ := x.exec_alike op os hidden s s' hos h fun hr => hreads (.inr ⟨hord, hr⟩)
  refine .some ⟨halike, fun hf => hflags (hf.imp_left ?_)⟩
  rintro (hc' | ⟨-, hs⟩)
  · exact absurd hc' hc
  · exact hs

end GraphLowering.Usim
