import GraphLowering.Text.Utf8

/-!
# The bytes of a text

Reading the bytes of a text gives its characters back (`decode_toUTF8`). A character is written in
one to four bytes, and from the first of them `firstChar` finds as many as there are
(`firstChar_encoded`).
-/

namespace GraphLowering.Text

theorem toNat_byte {n : Nat} (h : n < 256) : (UInt8.ofNat n).toNat = n := by
  rw [UInt8.toNat_ofNat']
  exact Nat.mod_eq_of_lt h

theorem within_iff {a : Nat} (low high : UInt8) (ha : a < 256) :
    (decide (low ≤ UInt8.ofNat a) && decide (UInt8.ofNat a ≤ high)) = true ↔ low.toNat ≤ a ∧
    a ≤ high.toNat := by
  rw [Bool.and_eq_true, decide_eq_true_eq, decide_eq_true_eq, UInt8.le_iff_toNat_le,
    UInt8.le_iff_toNat_le, toNat_byte ha]

theorem not_ascii {a : Nat} (ha : 128 ≤ a ∧ a < 256) : ¬ UInt8.ofNat a < 0x80 := by
  rw [UInt8.lt_iff_toNat_lt, toNat_byte ha.2]
  exact Nat.not_lt.2 ha.1

section

variable {a : Nat} (m n k : Nat) (rest : List UInt8)

/-- Six bits of a character, as a byte that continues it. -/
def continuing (n : Nat) : UInt8 := UInt8.ofNat (n % 64 + 128)

theorem toNat_continuing : (continuing n).toNat = n % 64 + 128 := toNat_byte (by omega)

theorem isContinuation_continuing : isContinuation (continuing n) :=
  (within_iff _ _ (by omega)).2 ⟨Nat.le_add_left _ _, show n % 64 + 128 ≤ 191 by omega⟩

theorem continuationBits_continuing : continuationBits (continuing n) = n % 64 := by
  rw [continuationBits, toNat_continuing]
  omega

/-! ### Characters by their lengths -/

theorem firstChar_one (ha : a < 128) : firstChar (UInt8.ofNat a) rest = (Char.ofNat a, 0) := by
  have hbyte := toNat_byte (n := a) (by omega)
  have h : UInt8.ofNat a < 0x80 := by
    rw [UInt8.lt_iff_toNat_lt, hbyte]
    exact ha
  unfold firstChar
  rw [if_pos h, hbyte]

theorem firstChar_two (ha : 0xc2 ≤ a ∧ a ≤ 0xdf) :
    firstChar (UInt8.ofNat a) (continuing m :: rest) = (Char.ofNat (a % 32 * 64 + m % 64), 1) := by
  have hlt : a < 256 := by omega
  rw [firstChar, if_neg (not_ascii (by omega)), if_pos ((within_iff 0xc2 0xdf hlt).2 ha)]
  simp only [isContinuation_continuing, if_true, continuationBits_continuing, toNat_byte hlt]

/-- The second byte of three is bounded behind two of the first bytes. -/
theorem secondOfThree_continuing (ha : a < 256) (hlow : a = 0xe0 → 32 ≤ m % 64)
    (hhigh : a = 0xed → m % 64 < 32) : secondOfThree (UInt8.ofNat a) (continuing m) := by
  have heq {b : UInt8} (h : UInt8.ofNat a = b) : a = b.toNat := by rw [← h, toNat_byte ha]
  unfold secondOfThree
  split
  · rename_i h
    exact (within_iff _ _ (by omega)).2 ⟨show 160 ≤ m % 64 + 128 by have := hlow (heq h); omega,
      show m % 64 + 128 ≤ 191 by omega⟩
  split
  · rename_i h
    exact (within_iff _ _ (by omega)).2 ⟨show 128 ≤ m % 64 + 128 by omega,
      show m % 64 + 128 ≤ 159 by have := hhigh (heq h); omega⟩
  · exact isContinuation_continuing m

theorem firstChar_three (ha : 0xe0 ≤ a ∧ a ≤ 0xef) (hlow : a = 0xe0 → 32 ≤ m % 64)
    (hhigh : a = 0xed → m % 64 < 32) :
    firstChar (UInt8.ofNat a) (continuing m :: continuing n :: rest) =
      (Char.ofNat (a % 16 * 4096 + m % 64 * 64 + n % 64), 2) := by
  have hlt : a < 256 := by omega
  have htwo : ¬ (0xc2 ≤ a ∧ a ≤ 0xdf) := by omega
  have hsecond := secondOfThree_continuing m hlt hlow hhigh
  rw [firstChar, if_neg (not_ascii (by omega)), if_neg (mt (within_iff 0xc2 0xdf hlt).1 htwo),
    if_pos ((within_iff 0xe0 0xef hlt).2 ha)]
  simp only [hsecond, isContinuation_continuing, Bool.and_self, if_true,
    continuationBits_continuing, toNat_byte hlt]

/-- The second byte of four is bounded behind the least and the greatest first byte. -/
theorem secondOfFour_continuing (ha : a < 256) (hlow : a = 0xf0 → 16 ≤ m % 64)
    (hhigh : a = 0xf4 → m % 64 < 16) : secondOfFour (UInt8.ofNat a) (continuing m) := by
  have heq {b : UInt8} (h : UInt8.ofNat a = b) : a = b.toNat := by rw [← h, toNat_byte ha]
  unfold secondOfFour
  split
  · rename_i h
    exact (within_iff _ _ (by omega)).2 ⟨show 144 ≤ m % 64 + 128 by have := hlow (heq h); omega,
      show m % 64 + 128 ≤ 191 by omega⟩
  split
  · rename_i h
    exact (within_iff _ _ (by omega)).2 ⟨show 128 ≤ m % 64 + 128 by omega,
      show m % 64 + 128 ≤ 143 by have := hhigh (heq h); omega⟩
  · exact isContinuation_continuing m

theorem firstChar_four (ha : 0xf0 ≤ a ∧ a ≤ 0xf4) (hlow : a = 0xf0 → 16 ≤ m % 64)
    (hhigh : a = 0xf4 → m % 64 < 16) :
    firstChar (UInt8.ofNat a) (continuing m :: continuing n :: continuing k :: rest) =
      (Char.ofNat (a % 8 * 262144 + m % 64 * 4096 + n % 64 * 64 + k % 64), 3) := by
  have hlt : a < 256 := by omega
  have htwo : ¬ (0xc2 ≤ a ∧ a ≤ 0xdf) := by omega
  have hthree : ¬ (0xe0 ≤ a ∧ a ≤ 0xef) := by omega
  have hsecond := secondOfFour_continuing m hlt hlow hhigh
  rw [firstChar, if_neg (not_ascii (by omega)), if_neg (mt (within_iff 0xc2 0xdf hlt).1 htwo),
    if_neg (mt (within_iff 0xe0 0xef hlt).1 hthree), if_pos ((within_iff 0xf0 0xf4 hlt).2 ha)]
  simp only [hsecond, isContinuation_continuing, Bool.and_self, if_true,
    continuationBits_continuing, toNat_byte hlt]

/-! ### All characters -/

/-- The bytes of a character, read from the first one on. -/
theorem firstChar_encoded (c : Char) :
    ∃ a bs, String.utf8EncodeChar c = a :: bs ∧ firstChar a (bs ++ rest) = (c, bs.length) := by
  have hc : Char.ofNat c.val.toNat = c := Char.ofNat_toNat c
  have hvalid : c.val.toNat < 0xd800 ∨ 0xdfff < c.val.toNat ∧ c.val.toNat < 0x110000 := c.valid
  unfold String.utf8EncodeChar
  generalize c.val.toNat = v at hc hvalid
  dsimp only
  split
  · exact ⟨_, _, rfl, by rw [firstChar_one _ (by omega), hc]; rfl⟩
  split
  · refine ⟨_, _, rfl, (firstChar_two v rest (by omega)).trans ?_⟩
    rw [show (v / 64 % 32 + 192) % 32 * 64 + v % 64 = v by omega, hc]
    rfl
  split
  · refine ⟨_, _, rfl, (firstChar_three (v / 64) v rest (by omega) (by omega) (by omega)).trans ?_⟩
    rw [show (v / 4096 % 16 + 224) % 16 * 4096 + v / 64 % 64 * 64 + v % 64 = v by omega, hc]
    rfl
  · refine ⟨_, _, rfl, (firstChar_four (v / 4096) (v / 64) v rest (by omega) (by omega)
      (by omega)).trans ?_⟩
    rw [show (v / 262144 % 8 + 240) % 8 * 262144 + v / 4096 % 64 * 4096 + v / 64 % 64 * 64 + v %
      64 = v by omega,
      hc]
    rfl

end

theorem decode_encoded (cs : List Char) : decode (cs.flatMap String.utf8EncodeChar) = cs := by
  induction cs with
  | nil => rw [List.flatMap_nil, decode]
  | cons c cs ih =>
    obtain ⟨a, bs, hbytes, hfirst⟩ := firstChar_encoded (cs.flatMap String.utf8EncodeChar) c
    rw [List.flatMap_cons, hbytes, List.cons_append, decode]
    simp only [hfirst, List.drop_left, ih]

theorem toList_loop (bs : ByteArray) (i : Nat) (r : List UInt8) :
    ByteArray.toList.loop bs i r = r.reverse ++ bs.data.toList.drop i := by
  fun_induction ByteArray.toList.loop bs i r with
  | case1 i r hi ih =>
    have hi' : i < bs.data.toList.length := hi
    have hget : bs.get! i = bs.data.toList[i] := getElem!_pos bs.data i hi
    rw [ih, List.drop_eq_getElem_cons hi', hget]
    simp
  | case2 i r hi =>
    have hi' : bs.data.toList.length ≤ i := Nat.le_of_not_lt hi
    rw [List.drop_eq_nil_of_le hi', List.append_nil]

theorem toList_eq_data (bs : ByteArray) : bs.toList = bs.data.toList := toList_loop bs 0 []

theorem toList_toUTF8 (s : String) : s.toUTF8.toList = s.toList.flatMap String.utf8EncodeChar := by
  rw [toList_eq_data, String.toUTF8_eq_toByteArray, ← String.utf8Encode_toList]
  simp [List.utf8Encode]

theorem decode_toUTF8 (s : String) : decode s.toUTF8.toList = s.toList := by
  rw [toList_toUTF8, decode_encoded]

end GraphLowering.Text
