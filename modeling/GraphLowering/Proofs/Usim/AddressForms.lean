import GraphLowering.Proofs.Subtarget.Validated
import GraphLowering.Usim.AddrMode

/-!
# The memory operands that are legal

On a machine whose description was read, an operand of an access to one word is legal exactly if it
has one of the forms that are encoded (`Form`), and an operand of an access to two words exactly if
both words are legal one by one (`isLegal_forms`). Offsets are counted as integers here, so none
wraps.
-/

namespace GraphLowering.Usim

open Subtarget (Addressing Description)

variable {a : Addressing} {m : AddrMode} {vt : ValueType} {space : Nat}

/-- A number fits a signed field of some bits; a field without bits is zero. -/
def FitsField (bits : Nat) (x : Int) : Prop :=
  if bits = 0 then x = 0 else -2 ^ (bits - 1) ≤ x ∧ x < 2 ^ (bits - 1)

theorem fitsOffset_iff (ha : a.Regular) (offset : Int64) :
    fitsOffset a offset = true ↔ FitsField a.offsetBits.toNatClampNeg offset.toInt := by
  obtain ⟨w, hw, hbits⟩ := ha.offsetBits
  have hwidth : ∀ w ≤ 32, (Int64.ofNat w).toNatClampNeg = w ∧ (Int64.ofNat w ≤ 0 ↔ w = 0) := by
    decide
  have hlimit : ∀ w ≤ 32, w ≠ 0 → ((1 : Int64) <<< (Int64.ofNat w - 1)).toInt = 2 ^ (w - 1) ∧
      (-((1 : Int64) <<< (Int64.ofNat w - 1))).toInt = -2 ^ (w - 1) := by decide
  rw [fitsOffset, FitsField, hbits, (hwidth w hw).1]
  by_cases hzero : w = 0
  · rw [if_pos ((hwidth w hw).2.2 hzero), if_pos hzero, beq_iff_eq, ← Int64.toInt_inj]
    rfl
  · obtain ⟨hpos, hneg⟩ := hlimit w hw hzero
    rw [if_neg (mt (hwidth w hw).2.1 hzero), if_neg hzero, Bool.and_eq_true, decide_eq_true_eq,
      decide_eq_true_eq, Int64.lt_iff_toInt_lt, Int64.le_iff_toInt_le, hpos, hneg, and_comm]

/-- The fields are narrow, so an offset that fits has room for the next word. -/
theorem FitsField.toInt_add (ha : a.Regular) {offset : Int64}
    (h : FitsField a.offsetBits.toNatClampNeg offset.toInt) :
    (offset + 4).toInt = offset.toInt + 4 := by
  obtain ⟨w, hw, hbits⟩ := ha.offsetBits
  have hwidth : ∀ w ≤ 32, (Int64.ofNat w).toNatClampNeg = w := by decide
  have hpow : (2 : Int) ^ (w - 1) ≤ 2 ^ 31 := by
    exact_mod_cast Nat.pow_le_pow_right (by decide) (Nat.sub_le_of_le_add hw)
  rw [FitsField, hbits, hwidth w hw] at h
  rw [Int64.toInt_add, show (4 : Int64).toInt = 4 from rfl]
  refine Int.bmod_eq_of_le ?_ ?_ <;> split at h <;> omega

/-! ### Forms -/

/-- The forms of a memory operand that the machine encodes. -/
inductive Form where
  /-- A global with an offset. -/
  | global
  /-- A register with an offset. -/
  | based
  /-- A register and another one that is shifted. -/
  | scaled (shift : Nat)
  /-- A register alone, as the index. -/
  | index
deriving DecidableEq

/-- Whether an operand has a form. -/
def Form.Fits (a : Addressing) (m : AddrMode) : Form → Prop
  | global => m.baseSymbol ≠ "" ∧ m.hasBase = false ∧ m.scale = 0 ∧ a.absolute = true ∧
    FitsField a.offsetBits.toNatClampNeg m.baseOffset.toInt
  | based => m.baseSymbol = "" ∧ m.hasBase = true ∧ m.scale = 0 ∧
    FitsField a.offsetBits.toNatClampNeg m.baseOffset.toInt
  | scaled k => m.baseSymbol = "" ∧ m.hasBase = true ∧ m.scale.toInt = 2 ^ k ∧
    2 ^ k ≤ a.maxScale.toInt ∧ m.baseOffset = 0
  | index => m.baseSymbol = "" ∧ m.hasBase = false ∧ m.scale = 1 ∧ m.baseOffset = 0

theorem Form.Fits.scale_ne_zero {k : Nat} (h : (scaled k).Fits a m) : m.scale ≠ 0 := by
  intro he
  have hpos : (0 : Int) < 2 ^ k := Int.pow_pos (by decide)
  have hk : (0 : Int) = 2 ^ k := by rw [← h.2.2.1, he]; rfl
  omega

/-- An operand has at most one form. -/
theorem Form.Fits.unique {f f' : Form} (h : f.Fits a m) (h' : f'.Fits a m) : f' = f := by
  cases f with
  | global => cases f' <;> first | rfl | exact absurd h'.1 h.1
  | based =>
    cases f' with
    | global => exact absurd h.1 h'.1
    | based => rfl
    | scaled => exact absurd h.2.2.1 h'.scale_ne_zero
    | index => exact absurd (h.2.1.symm.trans h'.2.1) (by decide)
  | scaled k =>
    cases f' with
    | global => exact absurd h.1 h'.1
    | based => exact absurd h'.2.2.1 h.scale_ne_zero
    | scaled j =>
      obtain rfl : j = k :=
        Nat.pow_right_injective (Nat.le_refl 2) (by exact_mod_cast h'.2.2.1.symm.trans h.2.2.1)
      rfl
    | index => exact absurd (h.2.1.symm.trans h'.2.1) (by decide)
  | index =>
    cases f' with
    | global => exact absurd h.1 h'.1
    | index => rfl
    | _ => exact absurd (h.2.1.symm.trans h'.2.1) (by decide)

section Word

variable (ha : a.Regular)
include ha

theorem inReach_zero_iff :
    m.inReach a 0 = true ↔ FitsField a.offsetBits.toNatClampNeg m.baseOffset.toInt := by
  rw [AddrMode.inReach, Int64.add_zero, Bool.and_self, fitsOffset_iff ha]

theorem Form.Fits.isLegal {f : Form} (h : f.Fits a m) : m.isLegal a .i32 0 = true := by
  rw [AddrMode.isLegal, if_neg (by simp)]
  show (if m.baseSymbol ≠ "" then _ else _) = true
  cases f with
  | global =>
    rw [if_pos h.1, h.2.2.2.1, h.2.1, h.2.2.1, (inReach_zero_iff ha).2 h.2.2.2.2]
    rfl
  | based =>
    rw [if_neg (not_not.2 h.1), if_pos h.2.2.1, h.2.1, (inReach_zero_iff ha).2 h.2.2.2]
    rfl
  | scaled k =>
    have hle : m.scale ≤ a.maxScale := Int64.le_iff_toInt_le.2 (h.2.2.1 ▸ h.2.2.2.1)
    rw [if_neg (not_not.2 h.1), if_neg h.scale_ne_zero, Subtarget.isPowerOfTwo_iff.2 ⟨k, h.2.2.1⟩,
      decide_eq_true hle, h.2.2.2.2, h.2.1]
    rfl
  | index =>
    have hle : (1 : Int64) ≤ a.maxScale := Int64.le_iff_toInt_le.2 ha.maxScale
    rw [if_neg (not_not.2 h.1), h.2.2.1, if_neg (by decide), decide_eq_true hle, h.2.2.2, h.2.1]
    rfl

theorem exists_form_of_isLegal (h : m.isLegal a .i32 0 = true) : ∃ f : Form, f.Fits a m := by
  rw [AddrMode.isLegal, if_neg (by simp)] at h
  change (if m.baseSymbol ≠ "" then _ else _) = true at h
  by_cases hsym : m.baseSymbol = ""
  · rw [if_neg (not_not.2 hsym)] at h
    by_cases hscale : m.scale = 0
    · rw [if_pos hscale, Bool.and_eq_true, inReach_zero_iff ha] at h
      exact ⟨.based, hsym, h.1, hscale, h.2⟩
    · simp only [if_neg hscale, Bool.and_eq_true, Bool.or_eq_true, decide_eq_true_eq,
        beq_iff_eq] at h
      obtain ⟨⟨⟨⟨hpow, hle⟩, hoffset⟩, -⟩, hbase⟩ := h
      obtain ⟨k, hk⟩ := Subtarget.isPowerOfTwo_iff.1 hpow
      cases hb : m.hasBase with
      | true => exact ⟨.scaled k, hsym, hb, hk, hk ▸ Int64.le_iff_toInt_le.1 hle, hoffset⟩
      | false =>
        rw [hb] at hbase
        exact ⟨.index, hsym, hb, hbase.resolve_left (by decide), hoffset⟩
  · rw [if_pos hsym] at h
    simp only [Bool.and_eq_true, Bool.not_eq_true', beq_iff_eq, inReach_zero_iff ha] at h
    exact ⟨.global, hsym, h.1.1.2, h.1.2, h.1.1.1, h.2⟩

theorem isLegal_word_iff : m.isLegal a .i32 0 = true ↔ ∃! f : Form, f.Fits a m := by
  constructor
  · intro h
    obtain ⟨f, hf⟩ := exists_form_of_isLegal ha h
    exact ⟨f, hf, fun _ h => hf.unique h⟩
  · rintro ⟨f, hf, -⟩
    exact hf.isLegal ha

theorem toInt_baseOffset_add (h : m.isLegal a .i32 0 = true) :
    (m.baseOffset + 4).toInt = m.baseOffset.toInt + 4 := by
  obtain ⟨f, hf⟩ := exists_form_of_isLegal ha h
  cases f with
  | global => exact hf.2.2.2.2.toInt_add ha
  | based => exact hf.2.2.2.toInt_add ha
  | scaled => rw [hf.2.2.2.2]; rfl
  | index => rw [hf.2.2.2]; rfl

end Word

/-! ### Two words -/

/-- An operand with another offset. -/
def AddrMode.withOffset (m : AddrMode) (offset : Int64) : AddrMode :=
  { m with baseOffset := offset }

/-- Two words are accessed where each of them is. -/
theorem isLegal_pair_eq (hvt : vt.isWide) :
    m.isLegal a vt space =
    (m.isLegal a .i32 space && (m.withOffset (m.baseOffset + 4)).isLegal a .i32 space) := by
  have hlast : lastWordOffset? vt = some 4 := by
    cases vt <;> first | rfl | cases hvt
  simp only [AddrMode.isLegal, hlast, show lastWordOffset? .i32 = some 0 from rfl,
    AddrMode.withOffset, AddrMode.inReach, Int64.add_zero, Bool.and_self]
  split
  · rfl
  split
  · cases a.absolute <;> cases m.hasBase <;> cases m.scale == 0 <;> rfl
  split
  · cases m.hasBase <;> rfl
  · -- a scaled index leaves no room for an offset
    have hapart : (m.baseOffset == 0 && m.baseOffset + 4 == 0) = false := by
      by_cases hzero : m.baseOffset = 0
      · rw [hzero]
        rfl
      · rw [beq_eq_false_iff_ne.2 hzero, Bool.false_and]
    grind

/-- The operands that are legal on a machine whose description was read: two words are legal exactly
if each of them is, the second four bytes behind the first, and one word exactly if the operand has
one of the forms. -/
theorem isLegal_forms {k : Subtarget.Codec} {text : String} {d : Description}
    (hd : k.parse text = .ok d) (m : AddrMode) :
    (∀ vt, vt.isWide → ∀ space, m.isLegal d.addressing vt space = true ↔
      m.isLegal d.addressing .i32 space = true ∧ ∃ offset : Int64, offset.toInt =
      m.baseOffset.toInt + 4 ∧
        (m.withOffset offset).isLegal d.addressing .i32 space = true) ∧
    (m.isLegal d.addressing .i32 0 = true ↔ ∃! f : Form, f.Fits d.addressing m) := by
  have ha := Description.regular_addressing_of_validate (Description.validate_of_parse hd)
  refine ⟨fun vt hvt space => ?_, isLegal_word_iff ha⟩
  rw [isLegal_pair_eq hvt, Bool.and_eq_true]
  refine and_congr_right fun hfirst => ?_
  obtain rfl : space = 0 := by
    by_contra hne
    rw [AddrMode.isLegal, if_pos hne] at hfirst
    cases hfirst
  have hnext := toInt_baseOffset_add ha hfirst
  constructor
  · exact fun h => ⟨_, hnext, h⟩
  · rintro ⟨offset, ho, h⟩
    rwa [Int64.toInt_inj.1 (hnext.trans ho.symm)]

/-- A machine whose offsets have three bits. -/
def nearText : String :=
  "registers: [s]\nstackPointer: s\nframePointer: s\nlinkRegister: s\n" ++
    "addressing:\n  offsetBits: 3\n"

def nearMachine : Description where
  schema := "v1.0.0"
  pointerBits := 32
  stackAlign := 8
  registers := ["s"]
  stackPointer := "s"
  framePointer := "s"
  linkRegister := "s"
  addressing := { offsetBits := 3, maxScale := 1 }

/-- A word at a register is in reach and the next one is not; both are from four bytes before the
register on. -/
theorem isLegal_forms_near :
    (∃! f : Form, f.Fits nearMachine.addressing { hasBase := true }) ∧
    ¬ AddrMode.isLegal { hasBase := true } nearMachine.addressing .i64 0 = true ∧
    AddrMode.isLegal { hasBase := true, baseOffset := -4 } nearMachine.addressing
        .i64 0 = true := by
  have hd : Description.parse nearText = .ok nearMachine :=
    Description.parse_of_isReadFrom (by decide +kernel)
  obtain ⟨hpair, hword⟩ := isLegal_forms hd { hasBase := true }
  refine ⟨hword.1 (by decide),
    fun h => ?_, ((isLegal_forms hd _).1 .i64 rfl 0).2 ⟨by decide, 0, by decide, by decide⟩⟩
  obtain ⟨-, offset, ho, hlegal⟩ := (hpair .i64 rfl 0).1 h
  obtain rfl : offset = 4 := Int64.toInt_inj.1 ho
  exact absurd hlegal (by decide)

end GraphLowering.Usim
