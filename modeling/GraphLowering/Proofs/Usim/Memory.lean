import Mathlib.Algebra.Ring.Nat
import Mathlib.Tactic.Ring

/-!
# Memory

Bytes under addresses of 32 bits. A number is kept with its lowest byte first, and an access that
runs over the last address goes on at the first.
-/

namespace GraphLowering.Usim

abbrev Address := BitVec 32

abbrev Memory := Address → BitVec 8

namespace Memory

variable (m : Memory) (p : Address)

/-- The number in some bytes from an address on. -/
def read (m : Memory) (p : Address) : Nat → Nat
  | 0 => 0
  | n + 1 => (m p).toNat + 256 * m.read (p + 1) n

/-- Puts a number into some bytes from an address on, and changes nothing else. -/
def write (n x : Nat) : Memory := fun a =>
  if (a - p).toNat < n then BitVec.ofNat 8 (x / 256 ^ (a - p).toNat) else m a

theorem read_add (k n : Nat) :
    m.read p (k + n) = m.read p k + 256 ^ k * m.read (p + BitVec.ofNat 32 k) n := by
  induction k generalizing p with
  | zero => simp [read]
  | succ k ih =>
    have hstep : p + 1 + BitVec.ofNat 32 k = p + BitVec.ofNat 32 (k + 1) := by
      rw [BitVec.add_assoc, BitVec.ofNat_add, BitVec.add_comm (BitVec.ofNat 32 k)]
      rfl
    rw [Nat.succ_add_eq_add_succ, Nat.add_succ, read, ih, read, hstep]
    ring

theorem read_lt (n : Nat) : m.read p n < 256 ^ n := by
  induction n generalizing p with
  | zero => exact Nat.one_pos
  | succ n ih =>
    have hbyte := (m p).isLt
    have hrest := ih (p + 1)
    rw [read, pow_succ]
    omega

/-- What is written is read back. -/
theorem read_write {n x : Nat} (hn : n ≤ 2 ^ 32) (hx : x < 256 ^ n) :
    (m.write p n x).read p n = x := by
  have hpart (k j : Nat) (hj : j + k ≤ n) :
      (m.write p n x).read (p + BitVec.ofNat 32 j) k = x / 256 ^ j % 256 ^ k := by
    induction k generalizing j with
    | zero => simp [read, Nat.mod_one]
    | succ k ih =>
      have hstep : p + BitVec.ofNat 32 j + 1 = p + BitVec.ofNat 32 (j + 1) := by
        rw [BitVec.add_assoc, BitVec.ofNat_add]
        rfl
      have hoffset : (p + BitVec.ofNat 32 j - p).toNat = j := by
        rw [BitVec.add_comm, BitVec.add_sub_cancel, BitVec.toNat_ofNat]
        exact Nat.mod_eq_of_lt (by omega)
      have hnext : x / 256 ^ (j + 1) = x / 256 ^ j / 256 := by
        rw [pow_succ, Nat.div_div_eq_div_mul]
      rw [read, hstep, ih (j + 1) (by omega), hnext, pow_succ' 256 k, Nat.mod_mul, write, hoffset,
        if_pos (by omega), BitVec.toNat_ofNat]
  have hall := hpart n 0 (by omega)
  simpa [Nat.mod_eq_of_lt hx] using hall

theorem toNat_sub_add {k : Nat} (hk : k ≤ 2 ^ 32) (a : Address) :
    (a - (p + BitVec.ofNat 32 k)).toNat =
      if k ≤ (a - p).toNat then (a - p).toNat - k else (a - p).toNat + 2 ^ 32 - k := by
  have hsub : a - (p + BitVec.ofNat 32 k) = a - p - BitVec.ofNat 32 k := by
    generalize BitVec.ofNat 32 k = d
    bv_omega
  have hlt := (a - p).isLt
  rw [hsub, BitVec.toNat_sub, BitVec.toNat_ofNat]
  split <;> omega

/-- A number is written piece by piece. -/
theorem write_add {k n x : Nat} (h : k + n ≤ 2 ^ 32) :
    m.write p (k + n) x = (m.write p k x).write (p + BitVec.ofNat 32 k) n (x / 256 ^ k) := by
  funext a
  have hlt := (a - p).isLt
  simp only [write, toNat_sub_add p (by omega : k ≤ 2 ^ 32)]
  by_cases hlow : (a - p).toNat < k
  · rw [if_pos (by omega), if_neg (show ¬ k ≤ (a - p).toNat by omega),
      if_neg (by omega), if_pos hlow]
  · rw [if_pos (show k ≤ (a - p).toNat by omega), if_neg hlow, Nat.div_div_eq_div_mul, ← pow_add,
      Nat.add_sub_cancel' (by omega)]
    by_cases hhigh : (a - p).toNat < k + n
    · rw [if_pos hhigh, if_pos (by omega)]
    · rw [if_neg hhigh, if_neg (by omega)]

theorem write_mod (n x : Nat) : m.write p n (x % 256 ^ n) = m.write p n x := by
  funext a
  simp only [write]
  split
  · rename_i hlt
    apply BitVec.eq_of_toNat_eq
    have hpow : 256 ^ n = 256 ^ (a - p).toNat * (256 * 256 ^ (n - (a - p).toNat - 1)) := by
      rw [← pow_succ', ← pow_add]
      congr 1
      omega
    rw [BitVec.toNat_ofNat, BitVec.toNat_ofNat, hpow, Nat.mod_mul_right_div_self,
      Nat.mod_mul_right_mod]
  · rfl

/-- Writes to different bytes can be exchanged. -/
theorem write_comm {q : Address} {k n x y : Nat}
    (h : ∀ a : Address, (a - p).toNat < k → ¬ (a - q).toNat < n) :
    (m.write p k x).write q n y = (m.write q n y).write p k x := by
  funext a
  simp only [write]
  by_cases hp : (a - p).toNat < k
  · rw [if_neg (h a hp), if_pos hp, if_pos hp]
  · rw [if_neg hp, if_neg hp]

/-- A number of eight bytes is kept in two words. -/
theorem write_words {l h : Nat} (hl : l < 2 ^ 32) :
    m.write p 8 (l + 2 ^ 32 * h) = (m.write p 4 l).write (p + BitVec.ofNat 32 4) 4 h := by
  have hlow : (l + 2 ^ 32 * h) % 256 ^ 4 = l := by omega
  have hhigh : (l + 2 ^ 32 * h) / 256 ^ 4 = h := by omega
  rw [m.write_add p (k := 4) (n := 4) (by decide), hhigh, ← write_mod m p 4 (l + 2 ^ 32 * h), hlow]

theorem write_words_comm (l h : Nat) :
    (m.write (p + BitVec.ofNat 32 4) 4 h).write p 4 l =
    (m.write p 4 l).write (p + BitVec.ofNat 32 4) 4 h := by
  refine (write_comm m p fun a ha => ?_).symm
  rw [toNat_sub_add p (by decide)]
  split <;> omega

end Memory

end GraphLowering.Usim
