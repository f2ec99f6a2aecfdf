import GraphLowering.Proofs.Subtarget.Validated
import GraphLowering.Proofs.Usim.Sequence
import Mathlib.Algebra.Order.Floor.Div
import Mathlib.Tactic.Positivity

/-!
# How much room is left for arguments

Arguments are given places one after the other. What matters to the next one is which registers are
free and how many bytes of the stack area are taken: this is a `Room`. The places are those that
rooms assign, counted without a bound, as long as the area does not exceed 64 bits
(`sequenceArguments_eq`).
-/

namespace GraphLowering.Usim

open Subtarget (Description Convention)

variable {d : Description} {cc : CallConv} {c : Convention} {variadic : Bool}

/-! ### Alignment -/

/-- The least multiple of `a` that is at least `n`. -/
def roundUp (n a : Nat) : Nat := a * (n ⌈/⌉ a)

section

variable {n m a : Nat}

theorem le_roundUp (ha : 0 < a) : n ≤ roundUp n a := le_smul_ceilDiv ha

theorem dvd_roundUp : a ∣ roundUp n a := Nat.dvd_mul_right ..

theorem roundUp_le (ha : 0 < a) (hn : n ≤ m) (hm : a ∣ m) : roundUp n a ≤ m := by
  obtain ⟨k, rfl⟩ := hm
  exact Nat.mul_le_mul_left a ((ceilDiv_le_iff_le_smul ha).2 hn)

theorem roundUp_mono (ha : 0 < a) (h : n ≤ m) : roundUp n a ≤ roundUp m a :=
  roundUp_le ha (h.trans (le_roundUp ha)) dvd_roundUp

/-- The multiples of a power of two leave room below the next one. -/
theorem add_lt_of_roundUp_lt {j : Nat} (hj : j < 63) (h : roundUp n (2 ^ j) < 2 ^ 63) :
    n + 2 ^ j ≤ 2 ^ 63 := by
  have hpos : 0 < 2 ^ j := Nat.two_pow_pos j
  obtain ⟨k, hk⟩ : 2 ^ j ∣ roundUp n (2 ^ j) := dvd_roundUp
  have hpow : 2 ^ 63 = 2 ^ j * 2 ^ (63 - j) := by
    rw [← Nat.pow_add]
    congr 1
    omega
  have hk' : k + 1 ≤ 2 ^ (63 - j) := by
    rw [hk, hpow] at h
    exact Nat.lt_of_mul_lt_mul_left h
  calc n + 2 ^ j ≤ 2 ^ j * k + 2 ^ j := Nat.add_le_add_right (hk ▸ le_roundUp hpos) _
    _ = 2 ^ j * (k + 1) := by rw [Nat.mul_succ]
    _ ≤ 2 ^ 63 := hpow ▸ Nat.mul_le_mul_left _ hk'

end

theorem toInt_eq_of_bmod {x : Int64} {k : Int} (h : x.toInt = k.bmod (2 ^ 64)) (h0 : 0 ≤ k)
    (hk : k < 2 ^ 63) : x.toInt = k := by
  rw [h, Int.bmod_eq_of_le] <;> omega

theorem toInt_add_of_lt {x y : Int64} {k m : Nat} (hx : x.toInt = k) (hy : y.toInt = m)
    (h : k + m < 2 ^ 63) : (x + y).toInt = (k + m : Nat) := by
  refine toInt_eq_of_bmod ?_ (by omega) (by exact_mod_cast h)
  rw [Int64.toInt_add, hx, hy]
  rfl

theorem toInt_mul_of_lt {x y : Int64} {k m : Nat} (hx : x.toInt = k) (hy : y.toInt = m)
    (h : k * m < 2 ^ 63) : (x * y).toInt = (k * m : Nat) := by
  refine toInt_eq_of_bmod ?_ (by positivity) (by exact_mod_cast h)
  rw [Int64.toInt_mul, hx, hy]
  rfl

theorem toInt_alignTo {x align : Int64} {k m : Nat} (hx : x.toInt = k)
    (ha : align.toInt = m) (hm : 0 < m) (h : k + m ≤ 2 ^ 63) :
    (alignTo x align).toInt = roundUp k m := by
  have hone : (1 : Int64).toInt = 1 := rfl
  unfold alignTo roundUp
  rw [Nat.ceilDiv_eq_add_pred_div]
  split
  · rename_i hle
    rw [Int64.le_iff_toInt_le, ha, hone] at hle
    obtain rfl : m = 1 := by omega
    simp [hx]
  · rename_i hle
    rw [Int64.le_iff_toInt_le, ha, hone] at hle
    have hsum : (x + align - 1).toInt = (k + m - 1 : Nat) := by
      refine toInt_eq_of_bmod ?_ (by omega) (by omega)
      rw [Int64.toInt_sub, Int64.toInt_add, hx, ha, hone, Int.bmod_sub_bmod]
      congr 1
      omega
    have hquot : ((x + align - 1) / align).toInt = ((k + m - 1) / m : Nat) := by
      refine toInt_eq_of_bmod ?_ (by positivity) ?_
      · rw [Int64.toInt_div, hsum, ha]
        rfl
      · have := Nat.div_le_self (k + m - 1) m
        omega
    rw [Nat.mul_comm]
    refine toInt_mul_of_lt hquot ha ?_
    have := Nat.div_mul_le_self (k + m - 1) m
    omega

/-! ### Rooms -/

/-- The bytes of a slot. -/
def slotBytes (c : Convention) : Nat := c.slotSize.toNatClampNeg

/-- What the stack area is aligned to. -/
def alignBytes (c : Convention) : Nat := c.stackAlign.toNatClampNeg

theorem toInt_slotSize (hc : c.Regular) : c.slotSize.toInt = slotBytes c :=
  (Int.toNat_of_nonneg hc.slot.le).symm

theorem slotBytes_pos (hc : c.Regular) : 0 < slotBytes c := Int.lt_toNat.2 hc.slot

theorem alignBytes_eq (hc : c.Regular) :
    ∃ k < 63, alignBytes c = 2 ^ k ∧ c.stackAlign.toInt = alignBytes c := by
  obtain ⟨k, hk, h⟩ := hc.align
  refine ⟨k, hk, ?_, ?_⟩
  · show c.stackAlign.toInt.toNat = 2 ^ k
    rw [h]
    norm_cast
  · exact (Int.toNat_of_nonneg (h ▸ by positivity)).symm

theorem alignBytes_pos (hc : c.Regular) : 0 < alignBytes c := by
  obtain ⟨k, -, h, -⟩ := alignBytes_eq hc
  exact h ▸ Nat.two_pow_pos k

/-- The parts in which values of a type travel, none if there is no rule for it. -/
def partsOf (vt : ValueType) : List ValueType := (partTypes? vt).getD []

/-- Whether the convention sends an argument to the stack whatever registers are free. -/
def isForced (c : Convention) (variadic : Bool) (p : Passed) : Bool :=
  variadic && !p.fixed && c.varargsOnStack

/-- What is left for the arguments that follow. -/
structure Room where
  free : List Register
  /-- The bytes of the stack area that are taken. -/
  used : Nat := 0

/-- How one argument is passed. -/
inductive Passage where
  | registers (rs : List Register)
  | stack (base : Nat)

/-- The places of the parts of argument number `value`. -/
def Passage.locations (c : Convention) (value : Nat) (parts : List ValueType) :
    Passage → List Location
  | .registers rs => (parts.zip rs).zipIdx.map fun ((vt, r), i) =>
    { value, part := i, parts := parts.length, type := vt, place := .register r, size := 4 }
  | .stack base => parts.zipIdx.map fun (vt, i) =>
    { value, part := i, parts := parts.length, type := vt,
      place := .stack (Int64.ofNat (base + i * slotBytes c)), size := c.slotSize }

namespace Room

/-- Where the next argument of `n` parts on the stack begins. -/
def base (c : Convention) (room : Room) (n : Nat) : Nat :=
  roundUp room.used (if 1 < n then alignBytes c else slotBytes c)

/-- Whether an argument goes to registers. -/
def takesRegisters (c : Convention) (variadic : Bool) (room : Room) (p : Passed) : Bool :=
  !isForced c variadic p && (partsOf p.type).length ≤ room.free.length

def passage (c : Convention) (variadic : Bool) (room : Room) (p : Passed) : Passage :=
  if room.takesRegisters c variadic p then .registers (room.free.take (partsOf p.type).length)
  else .stack (room.base c (partsOf p.type).length)

/-- The room that an argument leaves. One that finds too few registers takes those that are left,
too. -/
def after (c : Convention) (variadic : Bool) (room : Room) (p : Passed) : Room :=
  let n := (partsOf p.type).length
  if room.takesRegisters c variadic p then
    { room with free := room.free.filter (· ∉ room.free.take n) }
  else
    { free := if isForced c variadic p then room.free else []
      used := room.base c n + n * slotBytes c }

/-- The places of the arguments from number `i` on. -/
def locations (c : Convention) (variadic : Bool) : Room → Nat → List Passed → List Location
  | _, _, [] => []
  | room, i, p :: ps => (room.passage c variadic p).locations c i (partsOf p.type) ++
      (room.after c variadic p).locations c variadic (i + 1) ps

/-- The bytes that are taken after all arguments. -/
def finalUse (c : Convention) (variadic : Bool) (room : Room) (ps : List Passed) : Nat :=
  (ps.foldl (after c variadic) room).used

end Room

/-- The size of the stack area of arguments, counted without a bound. -/
def areaSize (d : Description) (c : Convention) (variadic : Bool) (args : List Passed) : Nat :=
  roundUp (Room.finalUse c variadic { free := d.argRegisters c } args) (alignBytes c)

namespace Room

variable {room : Room} {p : Passed} {ps : List Passed} {i : Nat}

theorem base_align_pos (hc : c.Regular) (n : Nat) :
    0 < if 1 < n then alignBytes c else slotBytes c := by
  split
  · exact alignBytes_pos hc
  · exact slotBytes_pos hc

theorem used_le_base (hc : c.Regular) (room : Room) (n : Nat) : room.used ≤ room.base c n :=
  le_roundUp (base_align_pos hc n)

theorem used_le_after (hc : c.Regular) : room.used ≤ (room.after c variadic p).used := by
  unfold after
  split
  · exact Nat.le_refl _
  · exact (used_le_base hc room _).trans (Nat.le_add_right ..)

theorem used_le_finalUse (hc : c.Regular) : room.used ≤ room.finalUse c variadic ps := by
  induction ps generalizing room with
  | nil => exact Nat.le_refl _
  | cons p ps ih => exact (used_le_after hc).trans ih

theorem finalUse_append {qs : List Passed} : room.finalUse c variadic (ps ++ qs) =
    finalUse c variadic (ps.foldl (after c variadic) room) qs := by
  rw [finalUse, List.foldl_append, finalUse]

end Room

/-! ### The places are those of rooms -/

/-- What an assignment has left. -/
structure Assignment.Leaves (a : Assignment) (room : Room) : Prop where
  free : a.free = room.free
  offset : a.offset.toInt = room.used

namespace Assignment.Leaves

variable {a : Assignment} {room : Room} {p : Passed} {i : Nat}

theorem free_inRegisters {parts : List ValueType} (a : Assignment) :
    (a.inRegisters i parts a.free).free = a.free.filter (· ∉ a.free.take parts.length) := by
  rw [Assignment.free, inRegisters, Assignment.free, List.filter_filter]
  refine List.filter_congr fun r _ => ?_
  simp [not_or, Bool.and_comm]

theorem onStack (hc : c.Regular) (h : a.Leaves room) (parts : List ValueType)
    (hend : room.base c parts.length + parts.length * slotBytes c < 2 ^ 63)
    (hparts : 0 < parts.length) :
    (a.onStack c i parts).offset.toInt =
    (room.base c parts.length + parts.length * slotBytes c : Nat) ∧
      (a.onStack c i parts).locations =
        a.locations ++ (Passage.stack (room.base c parts.length)).locations c i parts := by
  have hslot := toInt_slotSize hc
  have hle : parts.length ≤ parts.length * slotBytes c :=
    Nat.le_mul_of_pos_right _ (slotBytes_pos hc)
  have hbase : (alignTo a.offset (if 1 < parts.length then c.stackAlign else c.slotSize)).toInt =
      room.base c parts.length := by
    unfold Room.base at hend ⊢
    by_cases hn : 1 < parts.length
    · rw [if_pos hn] at hend ⊢
      rw [if_pos hn]
      obtain ⟨k, hk, halign, hint⟩ := alignBytes_eq hc
      refine toInt_alignTo h.offset hint (alignBytes_pos hc) ?_
      rw [halign] at hend ⊢
      exact add_lt_of_roundUp_lt hk (by omega)
    · rw [if_neg hn] at hend ⊢
      rw [if_neg hn]
      have hone : parts.length = 1 := by omega
      have hround := le_roundUp (n := room.used) (slotBytes_pos hc)
      refine toInt_alignTo h.offset hslot (slotBytes_pos hc) ?_
      rw [hone] at hend
      omega
  have hoffset : ∀ k ≤ parts.length,
    (alignTo a.offset (if 1 < parts.length then c.stackAlign else c.slotSize) +
      Int64.ofNat k * c.slotSize).toInt = (room.base c parts.length + k * slotBytes c : Nat) := by
    intro k hk
    have hmul : k * slotBytes c ≤ parts.length * slotBytes c := Nat.mul_le_mul_right _ hk
    have hkint : (Int64.ofNat k).toInt = k := Int64.toInt_ofNat_of_lt (by omega)
    exact toInt_add_of_lt hbase (toInt_mul_of_lt hkint hslot (by omega)) (by omega)
  refine ⟨hoffset _ le_rfl, ?_⟩
  show a.locations ++ _ = a.locations ++ _
  congr 1
  refine List.map_congr_left fun q hq => ?_
  have hlt : q.2 < parts.length := by
    have := List.snd_lt_of_mem_zipIdx hq
    omega
  have hmul : q.2 * slotBytes c ≤ parts.length * slotBytes c := Nat.mul_le_mul_right _ hlt.le
  have heq : alignTo a.offset (if 1 < parts.length then c.stackAlign else c.slotSize) +
      Int64.ofNat q.2 * c.slotSize =
          Int64.ofNat (room.base c parts.length + q.2 * slotBytes c) := by
    rw [← Int64.toInt_inj, hoffset q.2 hlt.le, Int64.toInt_ofNat_of_lt (by omega)]
  simp only [heq]

/-- One argument gets the places that the room gives it. -/
theorem argument (hc : c.Regular) (h : a.Leaves room) (hrule : (partTypes? p.type).isSome)
    (hend : (room.after c variadic p).used < 2 ^ 63) : ∃ a', a.argument c variadic i p = .ok a' ∧
      a'.Leaves (room.after c variadic p) ∧
        a'.locations = a.locations ++ (room.passage c variadic p).locations c i
        (partsOf p.type) := by
  obtain ⟨parts, hparts⟩ := Option.isSome_iff_exists.1 hrule
  have hof : partsOf p.type = parts := by rw [partsOf, hparts, Option.getD_some]
  have hpos := length_partTypes?_pos hparts
  rw [Assignment.argument, hparts]
  dsimp only
  unfold Room.after Room.takesRegisters at hend
  unfold Room.after Room.passage Room.takesRegisters
  rw [hof, ← h.free] at hend ⊢
  show ∃ a', (if isForced c variadic p then _ else _) = _ ∧ _
  cases hforced : isForced c variadic p with
  | true =>
    simp only [hforced, Bool.not_true, Bool.false_and, Bool.false_eq_true, if_false,
      if_true] at hend ⊢
    obtain ⟨hoff, hlocs⟩ := h.onStack (i := i) hc parts hend hpos
    exact ⟨_, rfl, ⟨h.free ▸ rfl, hoff⟩, hlocs⟩
  | false =>
    simp only [hforced, Bool.not_false, Bool.true_and, Bool.false_eq_true, if_false,
      decide_eq_true_eq] at hend ⊢
    by_cases hfit : parts.length ≤ a.free.length
    · simp only [if_pos hfit] at hend ⊢
      refine ⟨_, rfl, ⟨free_inRegisters a, h.offset⟩, ?_⟩
      show a.locations ++ _ = a.locations ++ _
      rw [List.zip_eq_zip_take_min, Nat.min_eq_left hfit, List.take_length]
      rfl
    · simp only [if_neg hfit] at hend ⊢
      have hex : a.exhaust.Leaves { room with free := [] } := by
        refine ⟨?_, h.offset⟩
        refine List.filter_eq_nil_iff.2 fun r (hr : r ∈ a.registers) => ?_
        by_cases hmem : r ∈ a.claimed <;> simp [exhaust, Assignment.free, hmem, hr]
      obtain ⟨hoff, hlocs⟩ := hex.onStack (i := i) hc parts hend hpos
      exact ⟨_, rfl, ⟨hex.free, hoff⟩, hlocs⟩

theorem arguments (hc : c.Regular) {ps : List Passed} (h : a.Leaves room)
    (hrule : ∀ p ∈ ps, (partTypes? p.type).isSome) (hend : room.finalUse c variadic ps < 2 ^ 63) :
    ∃ a' : Assignment, (ps.zipIdx i).foldlM (fun a (p, i) => a.argument c variadic i p) a = .ok a' ∧
      a'.offset.toInt = room.finalUse c variadic ps ∧
        a'.locations = a.locations ++ room.locations c variadic i ps := by
  induction ps generalizing a room i with
  | nil => exact ⟨a, rfl, h.offset, by simp [Room.locations]⟩
  | cons p ps ih =>
    obtain ⟨a₁, h₁, hleaves, hlocs⟩ := h.argument (i := i) hc (hrule p (by simp))
      ((Room.used_le_finalUse hc).trans_lt hend)
    obtain ⟨a', h', hoff, hlocs'⟩ :=
      ih (i := i + 1) hleaves (fun q hq => hrule q (by simp [hq])) hend
    refine ⟨a', ?_, hoff, ?_⟩
    · rw [List.zipIdx_cons, List.foldlM_cons]
      dsimp only
      rw [h₁]
      exact h'
    · rw [hlocs', hlocs, Room.locations, List.append_assoc]

end Assignment.Leaves

/-- The places of arguments and the size of their area, as long as it does not exceed 64 bits. -/
theorem sequenceArguments_eq (hc : c.Regular) (hconv : d.convention cc = .ok c) {args : List Passed}
    (hrule : ∀ p ∈ args, (partTypes? p.type).isSome) (hfit : areaSize d c variadic args < 2 ^ 63) :
    sequenceArguments d cc variadic args =
      .ok (Room.locations c variadic { free := d.argRegisters c } 0 args,
        Int64.ofNat (areaSize d c variadic args)) := by
  have hstart : Assignment.Leaves { registers := d.argRegisters c } { free := d.argRegisters c } :=
    ⟨by simp [Assignment.free], rfl⟩
  have hle : Room.finalUse c variadic { free := d.argRegisters c } args ≤
    areaSize d c variadic args := le_roundUp (alignBytes_pos hc)
  obtain ⟨a, ha, hoff, hlocs⟩ := hstart.arguments (i := 0) hc hrule (hle.trans_lt hfit)
  have hbytes : (alignTo a.offset c.stackAlign).toInt = (areaSize d c variadic args : Int) := by
    obtain ⟨k, hk, halign, hint⟩ := alignBytes_eq hc
    refine toInt_alignTo hoff hint (alignBytes_pos hc) ?_
    rw [areaSize, halign] at hfit
    rw [halign]
    exact add_lt_of_roundUp_lt hk hfit
  have hsize : alignTo a.offset c.stackAlign = Int64.ofNat (areaSize d c variadic args) := by
    rw [← Int64.toInt_inj, hbytes, Int64.toInt_ofNat_of_lt hfit]
  unfold sequenceArguments conventionOf
  rw [hconv]
  simp only [bind, Except.bind, pure, Except.pure, ha, hlocs, hsize]
  rfl

end GraphLowering.Usim
