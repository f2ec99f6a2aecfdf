import GraphLowering.Subtarget.File
import Mathlib.Data.Nat.Bits
import Mathlib.Tactic.Ring

/-!
# What a description that was read can be relied on for

A description is validated before it is used. Every convention that it gives then has slots of a
positive size and an alignment that is a power of two, and loads and stores have an offset field of
at most 32 bits.
-/

namespace GraphLowering.Subtarget

variable {d : Description} {c : Convention} {cc : CallConv} {n : Int64}

theorem exists_pow_of_isPowerOfTwo (h : isPowerOfTwo n) : ∃ k < 63, n.toInt = 2 ^ k := by
  simp only [isPowerOfTwo, Bool.and_eq_true, decide_eq_true_eq, beq_iff_eq] at h
  obtain ⟨hpos, hand⟩ := h
  rw [Int64.lt_iff_toInt_lt] at hpos
  have hzero : (0 : Int64).toInt = 0 := rfl
  have hlt := n.toInt_lt
  have hnat : n.toInt = n.toBitVec.toNat := by
    rw [Int64.toInt, BitVec.toInt_eq_toNat_cond]
    have := n.toBitVec.isLt
    have hn : n.toInt = n.toBitVec.toInt := rfl
    rw [hn, BitVec.toInt_eq_toNat_cond] at hpos
    split
    · rfl
    · rw [if_neg ‹_›] at hpos
      omega
  have hne : n.toBitVec.toNat ≠ 0 := by omega
  have hsub : (n - 1).toBitVec.toNat = n.toBitVec.toNat - 1 := by
    rw [Int64.toBitVec_sub, BitVec.toNat_sub_of_le]
    · rfl
    · rw [BitVec.le_def]
      show 1 ≤ n.toBitVec.toNat
      omega
  have hbits : n.toBitVec.toNat &&& (n.toBitVec.toNat - 1) = 0 := by
    rw [← hsub, ← BitVec.toNat_and, ← Int64.toBitVec_and, hand]
    rfl
  obtain ⟨k, hk⟩ := (Nat.and_sub_one_eq_zero_iff_isPowerOfTwo hne).1 hbits
  refine ⟨k, ?_, by rw [hnat, hk]; norm_cast⟩
  have hpow : 2 ^ k < 2 ^ 63 := by
    rw [← hk]
    omega
  exact (Nat.pow_lt_pow_iff_right (by decide)).1 hpow

theorem isPowerOfTwo_iff : isPowerOfTwo n = true ↔ ∃ k, n.toInt = 2 ^ k := by
  constructor
  · intro h
    obtain ⟨k, -, hk⟩ := exists_pow_of_isPowerOfTwo h
    exact ⟨k, hk⟩
  · rintro ⟨k, hk⟩
    have hlt : (2 : Int) ^ k < 2 ^ 63 := hk ▸ n.toInt_lt
    have hk63 : k < 63 := (Nat.pow_lt_pow_iff_right (a := 2) (by decide)).1 (by exact_mod_cast hlt)
    have hall : ∀ j < 63, isPowerOfTwo (Int64.ofInt (2 ^ j)) = true := by decide
    rw [← Int64.ofInt_toInt n, hk]
    exact hall k hk63

/-- The sizes and alignments that a convention lays out arguments with. -/
structure Convention.Regular (c : Convention) : Prop where
  slot : 0 < c.slotSize.toInt
  align : ∃ k < 63, c.stackAlign.toInt = 2 ^ k

/-- The fields of memory operands. -/
structure Addressing.Regular (a : Addressing) : Prop where
  offsetBits : ∃ w ≤ 32, a.offsetBits = Int64.ofNat w
  maxScale : 1 ≤ a.maxScale.toInt

namespace Description

theorem regular_of_checkConventions {seen : List CallConv} {cs : List Convention}
    (h : d.checkConventions seen cs = .ok ()) (hc : c ∈ cs) : c.Regular := by
  induction cs generalizing seen with
  | nil => cases hc
  | cons c' cs ih =>
    simp only [checkConventions, bind, Except.bind] at h
    split at h
    · cases h
    split at h
    · cases h
    rename_i hregular
    simp only [Bool.or_eq_true, decide_eq_true_eq, Bool.not_eq_true', not_or,
      Bool.not_eq_false] at hregular
    rcases List.mem_cons.1 hc with rfl | hc
    · refine ⟨?_, exists_pow_of_isPowerOfTwo hregular.2⟩
      exact Int.lt_of_not_ge fun hle => hregular.1 (Int64.le_iff_toInt_le.2 hle)
    · repeat' split at h
      all_goals first | cases h | exact ih h hc

theorem checkConventions_of_validate (h : d.validate = .ok ()) :
    d.checkConventions [] d.conventions = .ok () := by
  simp only [validate, bind, Except.bind] at h
  repeat' split at h
  all_goals first | cases h | exact h

theorem regular_addressing_of_validate (h : d.validate = .ok ()) : d.addressing.Regular := by
  have hchecks : isPowerOfTwo d.addressing.maxScale = true ∧
      ¬ (d.addressing.offsetBits < 0 || 32 < d.addressing.offsetBits) = true := by
    simp only [validate, bind, Except.bind] at h
    repeat' split at h
    all_goals first | cases h | simp_all
  obtain ⟨hscale, hbits⟩ := hchecks
  simp only [Bool.or_eq_true, decide_eq_true_eq, not_or, Int64.not_lt] at hbits
  have hnonneg : 0 ≤ d.addressing.offsetBits.toInt := Int64.le_iff_toInt_le.1 hbits.1
  have hle : d.addressing.offsetBits.toInt ≤ 32 := Int64.le_iff_toInt_le.1 hbits.2
  obtain ⟨k, -, hk⟩ := exists_pow_of_isPowerOfTwo hscale
  refine ⟨⟨d.addressing.offsetBits.toInt.toNat, by omega, ?_⟩, hk ▸ Int.pow_pos (by decide)⟩
  rw [← Int64.ofInt_eq_ofNat, Int.toNat_of_nonneg hnonneg, Int64.ofInt_toInt]

theorem validate_of_parse {k : Codec} {text : String} (h : k.parse text = .ok d) :
    d.validate = .ok () := by
  simp only [Codec.parse, bind, Except.bind, pure, Except.pure] at h
  split at h
  · cases h
  rename_i d' _
  cases hv : d'.normalize.validate with
  | error e =>
    rw [hv] at h
    cases h
  | ok u =>
    rw [hv] at h
    cases h
    exact hv

theorem regular_of_parse {k : Codec} {text : String} (h : k.parse text = .ok d)
    (hc : d.convention cc = .ok c) : c.Regular := by
  have hmem : c ∈ d.conventions := by
    simp only [convention, convention?] at hc
    split at hc
    · cases hc
      exact List.mem_of_find?_eq_some ‹_›
    · cases hc
  exact regular_of_checkConventions (checkConventions_of_validate (validate_of_parse h)) hmem

/-- Whether a text is read as this description. Evaluating this does not compare faults. -/
def isReadFrom (d : Description) (text : String) : Bool :=
  match parse text with
  | .ok d' => d' = d
  | .error _ => false

theorem parse_of_isReadFrom {text : String} (h : d.isReadFrom text = true) :
    parse text = .ok d := by
  unfold isReadFrom at h
  split at h
  · rename_i d' hd
    rw [hd, of_decide_eq_true h]
  · cases h

end Description

end GraphLowering.Subtarget
