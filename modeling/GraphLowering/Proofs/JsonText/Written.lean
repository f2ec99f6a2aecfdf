import GraphLowering.JsonText.Tree

/-!
# Reading JSON that was written

A quoted text is read back as it was (`readString_written`): every character is written by one of
three rules, and each rule is undone by the reader (`stringBody_escaped`, `pieces_escaped`). The
decimal digits of a number are read as that number, and an object is read field by field.
-/

namespace GraphLowering.JsonText

/-! ### Hexadecimal digits -/

theorem hexValue?_hexDigit {d : Nat} (h : d < 16) : hexValue? (Text.hexDigit d) = some d := by
  have hall : ∀ d < 16, hexValue? (Text.hexDigit d) = some d := by decide
  exact hall d h

theorem hexPadded_four (n : Nat) : Text.hexPadded 4 n =
    [Text.hexDigit (n / 4096 % 16), Text.hexDigit (n / 256 % 16), Text.hexDigit (n / 16 % 16),
      Text.hexDigit (n % 16)] := by
  simp [Text.hexPadded, Nat.div_div_eq_div_mul]

theorem hexValues?_hexDigits {n : Nat} (h : n < 65536) :
    hexValues? (Text.hexDigit (n / 4096 % 16)) (Text.hexDigit (n / 256 % 16))
    (Text.hexDigit (n / 16 % 16))
      (Text.hexDigit (n % 16)) = some n := by
  have hmod (k : Nat) : k % 16 < 16 := Nat.mod_lt _ (by decide)
  simp only [hexValues?, hexValue?_hexDigit (hmod _), Option.bind_eq_bind, Option.bind_some,
    Option.pure_def, Option.some.injEq]
  omega

/-! ### Characters in strings -/

/-- A character that stands for itself between quotes. -/
def Plain (c : Char) : Prop := c ≠ '"' ∧ c ≠ '\\' ∧ 0x20 ≤ c.toNat

theorem plain_hexDigit {d : Nat} (h : d < 16) : Plain (Text.hexDigit d) := by
  have hall : ∀ d < 16, Text.hexDigit d ≠ '"' ∧ Text.hexDigit d ≠ '\\' ∧
      0x20 ≤ (Text.hexDigit d).toNat := by
    decide
  exact hall d h

/-- The characters that one is written by. -/
def escaped (c : Char) : List Char := (escapeChar c).toList

/-- How a character is written. -/
inductive Written (c : Char) : List Char → Prop where
  | plain (h : Plain c) : Written c [c]
  | simple {e : Char} (he : e ≠ 'u') (h : simpleEscape? e = some c) : Written c ['\\', e]
  | number (h : c.toNat < 65536) (hs : isSurrogate c.toNat = false) :
    Written c ('\\' :: 'u' :: Text.hexPadded 4 c.toNat)

theorem written_escaped (c : Char) : Written c (escaped c) := by
  have hchar {n : Nat} (h : c.toNat = n) : Char.ofNat n = c := by rw [← h, Char.ofNat_toNat]
  unfold escaped escapeChar
  dsimp only
  split
  · rename_i h
    exact h ▸ .simple (e := '"') (by decide) rfl
  split
  · rename_i h
    exact h ▸ .simple (e := '\\') (by decide) rfl
  split
  · rename_i h
    exact .simple (e := 'b') (by decide) (congrArg some (hchar h))
  split
  · rename_i h
    exact .simple (e := 'f') (by decide) (congrArg some (hchar h))
  split
  · rename_i h
    exact h ▸ .simple (e := 'n') (by decide) rfl
  split
  · rename_i h
    exact h ▸ .simple (e := 'r') (by decide) rfl
  split
  · rename_i h
    exact h ▸ .simple (e := 't') (by decide) rfl
  split
  · rename_i h
    have hsmall : c.toNat < 0xd800 := by
      simp only [Bool.or_eq_true, decide_eq_true_eq] at h
      rcases h with ((((h | rfl) | rfl) | rfl) | h) | h
      · omega
      · decide
      · decide
      · decide
      · omega
      · omega
    have hs : isSurrogate c.toNat = false := by
      simp only [isSurrogate, Bool.and_eq_false_iff, decide_eq_false_iff_not]
      omega
    rw [String.toList_append, String.toList_ofList, String.toList_ofList]
    exact Written.number (c := c) (by omega) hs
  · rename_i hquote hback _ _ _ _ _ h
    simp only [Bool.or_eq_true, decide_eq_true_eq, not_or] at h
    rw [show c.toString.toList = [c] from String.toList_singleton c]
    exact .plain ⟨hquote, hback, by omega⟩

/-! ### Strings -/

section

variable {c : Char} (rest : List Char)

theorem stringBody_plain (h : Plain c) :
    stringBody (c :: rest) = (stringBody rest).map fun (b, r) => (c :: b, r) := by
  obtain ⟨hquote, hback, hlow⟩ := h
  rw [stringBody]
  · rw [if_neg (by omega)]
  · exact hquote
  · exact fun _ _ h => absurd h hback

theorem stringBody_plains {cs : List Char} (h : ∀ c ∈ cs, Plain c) :
    stringBody (cs ++ rest) = (stringBody rest).map fun (b, r) => (cs ++ b, r) := by
  induction cs with
  | nil => simp
  | cons c cs ih =>
    rw [List.cons_append, stringBody_plain _ (h c List.mem_cons_self),
      ih fun c hc => h c (List.mem_cons_of_mem _ hc), Option.map_map]
    rfl

theorem stringBody_escaped (c : Char) :
    stringBody (escaped c ++ rest) = (stringBody rest).map fun (b, r) => (escaped c ++ b, r) := by
  have h := written_escaped c
  generalize escaped c = cs at h
  cases h with
  | plain h => exact stringBody_plain rest h
  | simple => rfl
  | number h =>
    have hdigits : ∀ d ∈ Text.hexPadded 4 c.toNat, Plain d := by
      rw [hexPadded_four]
      simp only [List.mem_cons, List.not_mem_nil, or_false]
      rintro d (rfl | rfl | rfl | rfl) <;> exact plain_hexDigit (Nat.mod_lt _ (by decide))
    simp only [List.cons_append, stringBody, stringBody_plains rest hdigits, Option.map_map]
    rfl

theorem pieces_plain (h : c ≠ '\\') : pieces (c :: rest) = (pieces rest).map (.char c :: ·) := by
  rw [pieces]
  · exact fun _ _ _ _ _ h' => absurd h' h
  · exact fun _ _ h' => absurd h' h

theorem pieces_simple {e : Char} (he : e ≠ 'u') (h : simpleEscape? e = some c) :
    pieces ('\\' :: e :: rest) = (pieces rest).map (.char c :: ·) := by
  rw [pieces, h]
  exact fun _ _ _ _ _ h' => absurd h' he

theorem pieces_escaped (c : Char) :
    pieces (escaped c ++ rest) = (pieces rest).map (.char c :: ·) := by
  have h := written_escaped c
  generalize escaped c = cs at h
  cases h with
  | plain h => exact pieces_plain rest h.2.1
  | simple he h => exact pieces_simple rest he h
  | number h hs =>
    rw [hexPadded_four]
    simp only [List.cons_append, List.nil_append, pieces, hexValues?_hexDigits h, hs,
      Char.ofNat_toNat]
    rfl

end

theorem stringBody_written (cs rest : List Char) :
    stringBody (cs.flatMap escaped ++ '"' :: rest) = some (cs.flatMap escaped, rest) := by
  induction cs with
  | nil => rfl
  | cons c cs ih =>
    rw [List.flatMap_cons, List.append_assoc, stringBody_escaped, ih]
    rfl

theorem pieces_written (cs : List Char) : pieces (cs.flatMap escaped) = some (cs.map .char) := by
  induction cs with
  | nil => rfl
  | cons c cs ih =>
    rw [List.flatMap_cons, pieces_escaped, ih]
    rfl

theorem joinPieces_char (cs : List Char) : joinPieces none (cs.map .char) = cs := by
  induction cs with
  | nil => rfl
  | cons c cs ih => simp [joinPieces, alone, ih]

/-- A text in quotes, and what follows it. -/
def quoted (cs rest : List Char) : List Char := '"' :: (cs.flatMap escaped ++ '"' :: rest)

/-- A text is read back from what it was written by. -/
theorem readString_written (cs rest : List Char) :
    readString (cs.flatMap escaped ++ '"' :: rest) = some (String.ofList cs, rest) := by
  rw [readString, stringBody_written]
  simp only [Option.bind_eq_bind, Option.bind_some, pieces_written, joinPieces_char,
    Option.pure_def]

theorem toList_quote (s : String) (rest : List Char) :
    (quote s).toList ++ rest = quoted s.toList rest := by
  rw [quote, String.toList_append, String.toList_append, String.toList_join, List.flatMap_map,
    List.append_assoc]
  rfl

theorem flatMap_escaped {cs : List Char} (h : ∀ c ∈ cs, escaped c = [c]) :
    cs.flatMap escaped = cs := by
  induction cs with
  | nil => rfl
  | cons c cs ih =>
    rw [List.flatMap_cons, h c List.mem_cons_self, ih fun c hc => h c (List.mem_cons_of_mem _ hc)]
    rfl

theorem escaped_of_isDigit {c : Char} (h : c.isDigit) : escaped c = [c] := by
  have hc : 48 ≤ c.toNat ∧ c.toNat ≤ 57 := Char.isDigit_iff_toNat.1 h
  have hall : ∀ n < 58, 48 ≤ n → escaped (Char.ofNat n) = [Char.ofNat n] := by decide
  have := hall c.toNat (by omega) hc.1
  rwa [Char.ofNat_toNat] at this

/-! ### Numbers -/

/-- The decimal digits of a number. -/
abbrev digits (n : Nat) : List Char := Nat.toDigits 10 n

theorem isDigit_of_mem_digits {n : Nat} {c : Char} (h : c ∈ digits n) : c.isDigit :=
  Nat.isDigit_of_mem_toDigits (by decide) (by decide) h

theorem digits_ne_nil (n : Nat) : digits n ≠ [] := Nat.toDigits_ne_nil

theorem readNat?_digits (n : Nat) : Text.readNat? (digits n) = some n := by
  have hall : (digits n).all Char.isDigit := List.all_eq_true.2 fun c hc => isDigit_of_mem_digits hc
  have hne : (digits n).isEmpty = false := List.isEmpty_eq_false_iff.2 (digits_ne_nil n)
  rw [Text.readNat?, hall, hne]
  exact congrArg some Nat.ofDigitChars_ten_toDigits

theorem eq_zero_of_digits {n : Nat} {ds : List Char} (h : digits n = '0' :: ds) : n = 0 := by
  induction n using Nat.base_induction 10 (by decide) generalizing ds with
  | single m hm =>
    rw [digits, Nat.toDigits_of_lt_base hm, List.cons.injEq] at h
    exact Nat.digitChar_eq_zero.1 h.1
  | digit m k hk hm ih =>
    rw [digits, ← Nat.toDigits_append_toDigits (by decide) hm hk] at h
    obtain ⟨c, cs, hcs⟩ := List.exists_cons_of_ne_nil (digits_ne_nil m)
    have hhead : c = '0' := by
      rw [show Nat.toDigits 10 m = c :: cs from hcs, List.cons_append, List.cons.injEq] at h
      exact h.1
    have := ih (hhead ▸ hcs)
    omega

theorem isNumber_digits (n : Nat) : isNumber (digits n) := by
  have hend : (digits n ++ []).dropWhile Char.isDigit = [] :=
    List.dropWhile_append_of_pos fun c hc => isDigit_of_mem_digits hc
  obtain ⟨c, cs, hcs⟩ := List.exists_cons_of_ne_nil (digits_ne_nil n)
  have hc : c.isDigit := isDigit_of_mem_digits (n := n) (by rw [hcs]; exact List.mem_cons_self)
  rw [List.append_nil, hcs] at hend
  rw [hcs]
  have hminus : c ≠ '-' := by
    rintro rfl
    cases hc
  by_cases hzero : c = '0'
  · subst hzero
    obtain rfl := eq_zero_of_digits hcs
    cases hcs
    rfl
  · rw [isNumber, isUnsigned, hc, hend]
    · rfl
    · exact hzero
    · exact fun _ h => hminus (List.cons.inj h).1

/-! ### Objects -/

theorem isNumberChar_of_isDigit {c : Char} (h : c.isDigit) : isNumberChar c := by
  simp [isNumberChar, h]

theorem isDigit_head {n : Nat} {c : Char} {cs rest : List Char} (h : digits n ++ rest = c :: cs) :
    c.isDigit := by
  obtain ⟨a, as, has⟩ := List.exists_cons_of_ne_nil (digits_ne_nil n)
  have hc : c = a := by
    rw [has, List.cons_append, List.cons.injEq] at h
    exact h.1.symm
  refine isDigit_of_mem_digits (n := n) ?_
  rw [has, hc]
  exact List.mem_cons_self

/-- A number that is the last value of an object. -/
theorem readAtom_digits (n : Nat) (rest : List Char) :
    readAtom (digits n ++ '\x7d' :: rest) = some (.number (digits n), '\x7d' :: rest) := by
  have hall : ∀ c ∈ digits n, isNumberChar c :=
    fun c hc => isNumberChar_of_isDigit (isDigit_of_mem_digits hc)
  have htake : (digits n ++ '\x7d' :: rest).takeWhile isNumberChar = digits n := by
    rw [List.takeWhile_append_of_pos hall]
    exact List.append_nil _
  have hdrop : (digits n ++ '\x7d' :: rest).dropWhile isNumberChar = '\x7d' :: rest :=
    List.dropWhile_append_of_pos hall
  unfold readAtom
  split
  · rename_i h
    cases isDigit_head h
  · rename_i h
    cases isDigit_head h
  · rename_i h
    cases isDigit_head h
  · rename_i h
    cases isDigit_head h
  · rw [htake, hdrop, if_pos (isNumber_digits n)]

section

variable (fuel depth : Nat) (cs rest : List Char)

theorem skipBlanks_cons {c : Char} (h : isBlank c = false) :
    skipBlanks (c :: rest) = c :: rest := by
  rw [skipBlanks, List.dropWhile_cons, h]
  rfl

theorem readTree_digits (n : Nat) : readTree (fuel + 1) depth (digits n ++ '\x7d' :: rest) =
    some (.number (digits n), '\x7d' :: rest) := by
  obtain ⟨c, cs, hcs⟩ := List.exists_cons_of_ne_nil (digits_ne_nil n)
  have hc : c.isDigit := isDigit_head (c := c) (n := n) ((List.append_nil _).trans hcs)
  have hblank : isBlank c = false := by
    rw [Bool.eq_false_iff]
    intro h
    simp only [isBlank, Bool.or_eq_true, decide_eq_true_eq] at h
    rcases h with ((rfl | rfl) | rfl) | rfl <;> cases hc
  have hatom := readAtom_digits n rest
  rw [hcs, List.cons_append] at hatom ⊢
  rw [readTree, skipBlanks_cons _ hblank]
  split
  · rename_i h
    rw [(List.cons.inj h).1] at hc
    cases hc
  · rename_i h
    rw [(List.cons.inj h).1] at hc
    cases hc
  · exact hatom

theorem readTree_quoted :
    readTree (fuel + 1) depth (quoted cs rest) = some (.text (String.ofList cs), rest) := by
  rw [quoted, readTree, skipBlanks_cons _ rfl]
  show readAtom _ = _
  rw [readAtom, readString_written]
  rfl

theorem readTree_object : readTree (fuel + 1) (depth + 1) ('\x7b' :: quoted cs rest) =
    (readFields fuel depth (quoted cs rest)).map fun (fs, r) => (.object fs, r) := by
  rw [quoted, readTree, skipBlanks_cons _ rfl]
  show (if depth + 1 = 0 then none else _) = _
  rw [if_neg (Nat.succ_ne_zero depth), skipBlanks_cons _ rfl]
  rfl

variable {fuel depth rest} {value : List Char} {v : Tree}

theorem readFields_cons (h : readTree fuel depth value = some (v, ',' :: rest)) :
    readFields (fuel + 1) depth (quoted cs (':' :: value)) =
      (readFields fuel depth rest).map fun (fs, r) => ((String.ofList cs, v) :: fs, r) := by
  rw [quoted, readFields, skipBlanks_cons _ rfl]
  simp only [readString_written, skipBlanks_cons _ (show isBlank ':' = false from rfl), h,
    skipBlanks_cons _ (show isBlank ',' = false from rfl)]

theorem readFields_last (h : readTree fuel depth value = some (v, '\x7d' :: rest)) :
    readFields (fuel + 1) depth (quoted cs (':' :: value)) =
    some ([(String.ofList cs, v)], rest) := by
  rw [quoted, readFields, skipBlanks_cons _ rfl]
  simp only [readString_written, skipBlanks_cons _ (show isBlank ':' = false from rfl), h,
    skipBlanks_cons _ (show isBlank '\x7d' = false from rfl)]

end

end GraphLowering.JsonText
