import GraphLowering.Proofs.JsonText.Written
import GraphLowering.Proofs.Text.Utf8
import GraphLowering.Timing.Stream

/-!
# The table of kinds of a stream

The table is written in JSON with its keys in the order of their texts, and read field by field;
what is read has the entries of the table in another order (`tableOf?_tableBytes`). Where no number
has two kinds, the order does not matter (`lookup_of_perm`).
-/

namespace GraphLowering.Timing

open JsonText

/-! ### The table in JSON -/

/-- A kind, and what follows it. -/
def kindChars (k : Kind) (rest : List Char) : List Char :=
  '\x7b' :: quoted "Name".toList (':' :: quoted k.name.toList (',' :: quoted "Flags".toList (':' ::
    (digits k.flags.toNat ++ '\x7d' :: rest))))

/-- An entry of the table, and what follows it. -/
def entryChars (e : UInt64 × Kind) (rest : List Char) : List Char :=
  quoted (digits e.1.toNat) (':' :: kindChars e.2 rest)

/-- Entries up to the end of the table. -/
def entriesChars (e : UInt64 × Kind) : List (UInt64 × Kind) → List Char
  | [] => entryChars e ['\x7d']
  | e' :: es => entryChars e (',' :: entriesChars e' es)

/-- A kind as a tree. -/
def kindTree (k : Kind) : Tree :=
  .object [("Name", .text k.name), ("Flags", .number (digits k.flags.toNat))]

def entryField (e : UInt64 × Kind) : String × Tree :=
  (String.ofList (digits e.1.toNat), kindTree e.2)

theorem toString_eq (n : Nat) : toString n = String.ofList (digits n) :=
  Nat.toString_eq_ofList_toDigits

theorem quoted_digits (n : Nat) (rest : List Char) :
    quoted (digits n) rest = '"' :: (digits n ++ '"' :: rest) := by
  rw [quoted, flatMap_escaped fun _ hc => escaped_of_isDigit (isDigit_of_mem_digits hc)]

/-- The text of an entry. -/
def entryText (e : UInt64 × Kind) : String :=
  "\"" ++ toString e.1.toNat ++ "\":\x7b\"Name\":" ++ JsonText.quote e.2.name ++ ",\"Flags\":" ++
    toString e.2.flags.toNat ++ "\x7d"

theorem toList_entryText (e : UInt64 × Kind) (rest : List Char) :
    (entryText e).toList ++ rest = entryChars e rest := by
  rw [entryChars, quoted_digits, kindChars, ← toList_quote e.2.name]
  simp only [entryText, String.toList_append, toString_eq, String.toList_ofList, List.append_assoc]
  rfl

/-- The entries in the order in which they are written. -/
def KindTable.sorted (t : KindTable) : List (UInt64 × Kind) :=
  t.mergeSort fun a b => toString a.1.toNat ≤ toString b.1.toNat

theorem toList_intercalate_entries (e : UInt64 × Kind) (es : List (UInt64 × Kind)) :
    [','].intercalate (((e :: es).map entryText).map String.toList) ++ ['\x7d'] =
    entriesChars e es := by
  induction es generalizing e with
  | nil =>
    rw [List.map_singleton, List.map_singleton, List.intercalate_singleton, toList_entryText]
    rfl
  | cons e' es ih =>
    rw [entriesChars, ← ih e', ← toList_entryText]
    simp only [List.map_cons, List.intercalate_cons_cons, List.append_assoc, List.cons_append,
      List.nil_append]

theorem toList_text (t : KindTable) : t.text.toList = '\x7b' :: match t.sorted with
    | [] => ['\x7d']
    | e :: es => entriesChars e es := by
  have htext : t.text = "\x7b" ++ Text.join "," (t.sorted.map entryText) ++ "\x7d" := rfl
  rw [htext, Text.join, String.toList_append, String.toList_append, String.toList_intercalate]
  split
  · rename_i h
    rw [h]
    rfl
  · rename_i e es h
    rw [h, ← toList_intercalate_entries]
    rfl

/-! ### Reading -/

theorem readTree_kindChars (fuel depth : Nat) (k : Kind) (rest : List Char) :
    readTree (fuel + 4) (depth + 1) (kindChars k rest) = some (kindTree k, rest) := by
  have hflags := readFields_last "Flags".toList (readTree_digits fuel depth rest k.flags.toNat)
  have hname := readFields_cons "Name".toList (readTree_quoted (fuel + 1) depth k.name.toList
    (',' :: quoted "Flags".toList (':' :: (digits k.flags.toNat ++ '\x7d' :: rest))))
  rw [hflags] at hname
  rw [kindChars, readTree_object, hname]
  simp [kindTree]

/-- The entries are read one by one; one more than the fuel for a kind is enough for each. -/
theorem readFields_entriesChars (depth fuel : Nat) (e : UInt64 × Kind) (es : List (UInt64 × Kind)) :
    readFields (es.length + (fuel + 5)) (depth + 1) (entriesChars e es) =
    some ((e :: es).map entryField, []) := by
  induction es generalizing e with
  | nil =>
    rw [entriesChars, List.length_nil, Nat.zero_add, entryChars,
      readFields_last _ (readTree_kindChars fuel depth e.2 ['\x7d'])]
    rfl
  | cons e' es ih =>
    have hkind : readTree (es.length + (fuel + 5)) (depth + 1)
      (kindChars e.2 (',' :: entriesChars e' es)) =
        some (kindTree e.2, ',' :: entriesChars e' es) :=
          readTree_kindChars (es.length + (fuel + 1)) ..
    rw [entriesChars, List.length_cons, Nat.add_right_comm, entryChars, readFields_cons _ hkind, ih]
    rfl

theorem length_entriesChars (e : UInt64 × Kind) (es : List (UInt64 × Kind)) :
    es.length + 5 ≤ (entriesChars e es).length := by
  induction es generalizing e with
  | nil =>
    simp only [entriesChars, entryChars, kindChars, quoted, List.length_cons, List.length_append]
    omega
  | cons e' es ih =>
    have := ih e'
    simp only [entriesChars, entryChars, kindChars, quoted, List.length_cons, List.length_append]
    omega

theorem entriesChars_eq_quoted (e : UInt64 × Kind) (es : List (UInt64 × Kind)) :
    ∃ rest, entriesChars e es = quoted (digits e.1.toNat) rest := by
  cases es with
  | nil => exact ⟨_, rfl⟩
  | cons e' es => exact ⟨_, rfl⟩

theorem read?_text (t : KindTable) :
    read? t.text.toList = some (.object (t.sorted.map entryField)) := by
  rw [toList_text]
  split
  · rename_i h
    rw [h]
    rfl
  · rename_i e es h
    have hlength := length_entriesChars e es
    obtain ⟨fuel, hfuel⟩ : ∃ fuel, (entriesChars e es).length + 1 = es.length + (fuel + 5) :=
      ⟨(entriesChars e es).length + 1 - es.length - 5, by omega⟩
    have hfields := readFields_entriesChars 9998 fuel e es
    obtain ⟨rest, hrest⟩ := entriesChars_eq_quoted e es
    have htree : readTree (es.length + (fuel + 5) + 1) maxDepth ('\x7b' :: entriesChars e es) =
        some (.object ((e :: es).map entryField), []) := by
      rw [hrest] at hfields ⊢
      rw [show maxDepth = 9999 + 1 from rfl, readTree_object, hfields]
      rfl
    rw [read?, List.length_cons, hfuel, htree, h]
    rfl

/-! ### The entries -/

theorem foldlM_setField (k : Kind) :
    [("Name", Tree.text k.name), ("Flags", .number (digits k.flags.toNat))].foldlM setField {} =
    some k := by
  have hlt := k.flags.toNat_lt_size
  have hname : setField {} ("Name", .text k.name) = some { name := k.name } := by
    simp only [setField, show foldCase "Name" = "name" from by decide]
  have hflags : setField { name := k.name } ("Flags", .number (digits k.flags.toNat)) = some k := by
    simp only [setField, show foldCase "Flags" =
      "flags" from by decide, readNat?_digits, hlt, if_true,
      UInt32.ofNat_toNat]
  simp only [List.foldlM_cons, hname, hflags, Option.bind_eq_bind, Option.bind_some,
    List.foldlM_nil, Option.pure_def]

theorem entryOf?_entryField (e : UInt64 × Kind) : entryOf? (entryField e) = some e := by
  have hlt := e.1.toNat_lt_size
  simp only [entryOf?, entryField, kindTree, String.toList_ofList, readNat?_digits,
    Option.bind_eq_bind, Option.bind_some, hlt, if_true, kindOf?, foldlM_setField,
    UInt64.ofNat_toNat, Option.pure_def]

theorem mapM_entryOf? (es : List (UInt64 × Kind)) :
    (es.map entryField).mapM entryOf? = some es := by
  induction es with
  | nil => rfl
  | cons e es ih => simp [List.mapM_cons, entryOf?_entryField, ih]

/-- The table is read as its entries, the last one that was written first. -/
theorem tableOf?_tableBytes (t : KindTable) : tableOf? (tableBytes t) = some t.sorted.reverse := by
  rw [tableOf?, tableBytes, Text.decode_toUTF8, read?_text]
  show (List.mapM entryOf? (t.sorted.map entryField)).map List.reverse = _
  rw [mapM_entryOf?]
  rfl

theorem lookup_eq_some_iff_mem {t : KindTable} (h : (t.map Prod.fst).Nodup)
    {n : UInt64} {k : Kind} : t.lookup n = some k ↔ (n, k) ∈ t := by
  induction t with
  | nil => simp
  | cons e t ih =>
    obtain ⟨hfresh, h⟩ := List.nodup_cons.1 h
    rw [List.lookup_cons, List.mem_cons]
    by_cases hn : n = e.1
    · subst hn
      have hout : (e.1, k) ∉ t := fun hk => hfresh (List.mem_map.2 ⟨_, hk, rfl⟩)
      simp [hout, Prod.ext_iff, eq_comm]
    · rw [beq_false_of_ne hn, ih h]
      simp [Prod.ext_iff, hn]

/-- A number has the same kind in the table that is read. -/
theorem lookup_sorted_reverse {t : KindTable} (h : (t.map Prod.fst).Nodup) (n : UInt64) :
    t.sorted.reverse.lookup n = t.lookup n := by
  have hperm : t.sorted.reverse.Perm t := (List.reverse_perm _).trans (List.mergeSort_perm _ _)
  have h' : (t.sorted.reverse.map Prod.fst).Nodup := (hperm.map Prod.fst).nodup_iff.2 h
  ext k
  rw [lookup_eq_some_iff_mem h', lookup_eq_some_iff_mem h, hperm.mem_iff]

end GraphLowering.Timing
