import GraphLowering.Proofs.Timing.Table
import GraphLowering.Timing.Recording

/-!
# Recorded streams are read back

What a recording writes is one stream, however full its buffer was when records came
(`Recorder.Writing.record`, `Recorder.close_written`). Reading the stream gives every record with
the kind that its number has, and a stream that was cut behind the table is read up to its last
complete record; the fault says whether the cut was between two records (`readRecords_take`). The
length of the table has to fit into its word: a table of 2^32 bytes is written as one of none
(`readStream_of_multiple`).
-/

namespace GraphLowering.Timing

/-! ### Words -/

@[simp]
theorem length_bytesOf (width n : Nat) : (bytesOf width n).length = width := by
  induction width generalizing n with
  | zero => rfl
  | succ w ih => rw [bytesOf, List.length_cons, ih]

/-- What is read from a word is the number without what is too high for it. -/
theorem numberOf_bytesOf (width n : Nat) : numberOf (bytesOf width n) = n % Nat.pow 256 width := by
  induction width generalizing n with
  | zero => exact (Nat.mod_one n).symm
  | succ w ih =>
    have hbyte : (UInt8.ofNat (n % 256)).toNat = n % 256 :=
      Text.toNat_byte (Nat.mod_lt _ (by decide))
    rw [bytesOf, numberOf, ih, hbyte, show Nat.pow 256 (w + 1) =
      256 * Nat.pow 256 w from Nat.pow_succ', Nat.mod_mul]

theorem numberOf_uint64 (n : UInt64) : numberOf (bytesOf 8 n.toNat) = n.toNat := by
  rw [numberOf_bytesOf]
  exact Nat.mod_eq_of_lt n.toNat_lt

theorem length_bytes (r : Record) : r.bytes.length = 16 := by
  rw [Record.bytes, List.length_append, length_bytesOf, length_bytesOf]

/-! ### Records -/

/-- A record as it should be read. -/
def Record.sample (t : KindTable) (r : Record) : Sample := ⟨(t.lookup r.kind).getD {}, r.duration⟩

variable {t : KindTable}

/-- One complete record. -/
theorem readRecords_cons {r : Record} (hr : (t.lookup r.kind).isSome) (rest : List UInt8)
    (samples : List Sample) :
    readRecords t (r.bytes ++ rest) samples = readRecords t rest (r.sample t :: samples) := by
  obtain ⟨k, hk⟩ := Option.isSome_iff_exists.1 hr
  have hlength : (r.bytes ++ rest).length = 16 + rest.length := by
    rw [List.length_append, length_bytes]
  have hempty : (r.bytes ++ rest).isEmpty = false := by
    rw [List.isEmpty_eq_false_iff, ← List.length_pos_iff]
    omega
  have hkind : (r.bytes ++ rest).take 8 = bytesOf 8 r.kind.toNat := by
    rw [Record.bytes, List.append_assoc]
    exact List.take_left' (length_bytesOf ..)
  have hdrop : (r.bytes ++ rest).drop 8 = bytesOf 8 r.duration.toUInt64.toNat ++ rest := by
    rw [Record.bytes, List.append_assoc]
    exact List.drop_left' (length_bytesOf ..)
  have hrest : (r.bytes ++ rest).drop 16 = rest := List.drop_left' (length_bytes r)
  have hduration : (bytesOf 8 r.duration.toUInt64.toNat ++ rest).take 8 =
    bytesOf 8 r.duration.toUInt64.toNat := List.take_left' (length_bytesOf ..)
  rw [readRecords, hempty, dif_neg (by omega), hkind, hdrop, hduration, hrest, numberOf_uint64,
    numberOf_uint64, UInt64.ofNat_toNat, Record.sample, hk]
  simp only [UInt64.ofNat_toNat, hk]
  rfl

theorem readRecords_take {rs : List Record} (hrs : ∀ r ∈ rs, (t.lookup r.kind).isSome) {k : Nat}
    (hk : k ≤ 16 * rs.length) (samples : List Sample) :
    readRecords t ((rs.flatMap Record.bytes).take k) samples =
      { samples := samples.reverse ++ (rs.take (k / 16)).map (Record.sample t)
        fault := if k % 16 = 0 then none else some .record } := by
  induction rs generalizing k samples with
  | nil =>
    obtain rfl : k = 0 := by simpa using hk
    rw [List.flatMap_nil, List.take_nil, readRecords]
    simp
  | cons r rs ih =>
    rw [List.flatMap_cons]
    by_cases hcut : k < 16
    · -- the cut is in the first record
      have hlength : ((r.bytes ++ rs.flatMap Record.bytes).take k).length = k := by
        rw [List.length_take, List.length_append, length_bytes]
        omega
      rw [show k / 16 = 0 by omega, show k % 16 = k by omega, readRecords, hlength]
      by_cases hzero : k = 0
      · subst hzero
        simp
      · have hempty : ((r.bytes ++ rs.flatMap Record.bytes).take k).isEmpty = false := by
          rw [List.isEmpty_eq_false_iff, ← List.length_pos_iff]
          omega
        rw [hempty, dif_pos hcut, if_neg hzero]
        simp
    · have hread := ih (fun r hr => hrs r (List.mem_cons_of_mem _ hr)) (k := k - 16)
        (by rw [List.length_cons] at hk; omega) (r.sample t :: samples)
      rw [List.take_append, length_bytes, List.take_of_length_le (by rw [length_bytes]; omega),
        readRecords_cons (hrs r List.mem_cons_self), hread, show (k - 16) % 16 = k % 16 by omega,
        show k / 16 = (k - 16) / 16 + 1 by omega]
      simp

/-! ### Streams -/

theorem length_headerBytes (t : KindTable) : (headerBytes t).length = 12 := by
  rw [headerBytes, List.length_append, List.length_append, length_bytesOf, length_bytesOf,
    length_bytesOf]

/-- Behind a header stands a table as long as the third word says, which is 32 bits wide. -/
theorem readStream_header (t : KindTable) (rest : List UInt8) {size : Nat}
    (hsize : size = (tableBytes t).length % UInt32.size) (hrest : size ≤ rest.length) :
    readStream (headerBytes t ++ rest) = (tableOf? (rest.take size)).elim { fault := some .table }
      fun t => readRecords t (rest.drop size) [] := by
  generalize hb : headerBytes t ++ rest = b
  have hb' : b = bytesOf 4 magic ++
      (bytesOf 4 version ++ (bytesOf 4 (tableBytes t).length ++ rest)) := by
    rw [← hb, headerBytes, List.append_assoc, List.append_assoc]
  have hlength : ¬ b.length < 12 := by
    rw [← hb, List.length_append, length_headerBytes]
    omega
  have hversion : b.drop 4 = bytesOf 4 version ++ (bytesOf 4 (tableBytes t).length ++ rest) := by
    rw [hb']
    exact List.drop_left' (length_bytesOf ..)
  have hcount : b.drop 8 = bytesOf 4 (tableBytes t).length ++ rest := by
    rw [show 8 = 4 + 4 from rfl, ← List.drop_drop, hversion]
    exact List.drop_left' (length_bytesOf ..)
  have hdrop : b.drop 12 = rest := by
    rw [← hb]
    exact List.drop_left' (length_headerBytes t)
  have hword₀ : numberOf ((b.drop (4 * 0)).take 4) = magic := by
    rw [Nat.mul_zero, List.drop_zero, hb', List.take_left' (length_bytesOf ..), numberOf_bytesOf]
    rfl
  have hword₁ : numberOf ((b.drop (4 * 1)).take 4) = version := by
    rw [Nat.mul_one, hversion, List.take_left' (length_bytesOf ..), numberOf_bytesOf]
    rfl
  have hword₂ : numberOf ((b.drop (4 * 2)).take 4) = size := by
    rw [hcount, List.take_left' (length_bytesOf ..), numberOf_bytesOf, hsize]
  simp only [readStream, hlength, if_false, hword₀, hword₁, hword₂, ne_eq, not_true_eq_false, hdrop]
  rw [if_neg (Nat.not_lt.2 hrest)]
  cases tableOf? (rest.take size) <;> rfl

/-- Behind a header and a table that its length fits into stand records. -/
theorem readStream_append (hsize : (tableBytes t).length < UInt32.size) (bytes : List UInt8) :
    readStream (headerBytes t ++ tableBytes t ++ bytes) =
    readRecords t.sorted.reverse bytes [] := by
  rw [List.append_assoc, readStream_header t _ (Nat.mod_eq_of_lt hsize).symm
    (by rw [List.length_append]; omega), List.take_left, List.drop_left, tableOf?_tableBytes,
    Option.elim_some]

theorem readStream_take {rs : List Record} (hkeys : (t.map Prod.fst).Nodup)
    (hsize : (tableBytes t).length < UInt32.size) (hrs : ∀ r ∈ rs, (t.lookup r.kind).isSome)
    {k : Nat} (hk : k ≤ 16 * rs.length) :
    readStream ((streamBytes t rs).take (12 + (tableBytes t).length + k)) =
      { samples := (rs.take (k / 16)).map (Record.sample t)
        fault := if k % 16 = 0 then none else some .record } := by
  have hlookup := lookup_sorted_reverse hkeys
  have hsample : Record.sample t.sorted.reverse = Record.sample t := by
    funext r
    rw [Record.sample, Record.sample, hlookup]
  have hlength : (headerBytes t ++ tableBytes t).length = 12 + (tableBytes t).length := by
    rw [List.length_append, length_headerBytes]
  rw [streamBytes, ← hlength, List.take_length_add_append, readStream_append hsize,
    readRecords_take (fun r hr => by rw [hlookup]; exact hrs r hr) hk, hsample]
  rfl

/-! ### Recordings -/

theorem Sink.write_unbounded {s : Sink} (h : s.allowed = none) (bytes : List UInt8) :
    s.write bytes = ({ s with written := s.written ++ bytes }, true) := by
  rw [Sink.write, h]

namespace Recorder

/-- Recording `id` is open and has taken `rs`; `before` was written earlier. -/
structure Writing (t : KindTable) (before : List UInt8) (id : Nat) (rs : List Record)
    (r : Recorder) : Prop where
  unbounded : r.sink.allowed = none
  current : ∃ o, r.current = some o ∧ o.id = id ∧ o.failed = false ∧
    r.sink.written ++ o.buffered.flatMap Record.bytes = before ++ streamBytes t rs

variable {r : Recorder} {before : List UInt8} {id : Nat} {rs : List Record}

theorem start_writing (hidle : r.current = none) (hsink : r.sink.allowed = none) :
    ∃ r', r.start = (r', .ok r.begun) ∧ Writing r.kinds r.sink.written r.begun [] r' := by
  have hopen : r.isOpen = false := by
    rw [isOpen, hidle]
    rfl
  have hstart : r.start = ({ r with
      sink := { r.sink with written := r.sink.written ++ headerBytes r.kinds ++ tableBytes r.kinds }
      current := some { id := r.begun }
      begun := r.begun + 1 }, .ok r.begun) := by
    have htable := Sink.write_unbounded (s :=
      { r.sink with written := r.sink.written ++ headerBytes r.kinds }) hsink (tableBytes r.kinds)
    simp only [start, hopen, Bool.false_eq_true, if_false, Sink.write_unbounded hsink,
      Bool.not_true, htable]
  refine ⟨_, hstart, hsink, _, rfl, rfl, rfl, ?_⟩
  simp [streamBytes]

/-- The buffer goes to the sink as a whole. -/
theorem flush_unbounded {s : Sink} {o : OpenRecording} (h : s.allowed = none)
    (ho : o.failed = false) :
    flush s o = ({ s with written := s.written ++ o.buffered.flatMap Record.bytes },
      { o with buffered := [] }) := by
  obtain ⟨id, buffered, failed⟩ := o
  cases buffered with
  | nil => simp [flush]
  | cons x xs =>
    have ho : failed = false := ho
    simp [flush, ho, Sink.write_unbounded h]

theorem Writing.record (h : Writing t before id rs r) (x : Record) :
    Writing t before id (rs ++ [x]) (r.record x) := by
  obtain ⟨hsink, o, ho, hid, hfailed, hwritten⟩ := h
  have hstream : before ++ streamBytes t (rs ++ [x]) = before ++ streamBytes t rs ++ x.bytes := by
    simp [streamBytes]
  rw [← hwritten] at hstream
  by_cases hroom : o.buffered.length < bufferSize
  · simp only [Recorder.record, ho, hroom, if_true, hfailed]
    exact ⟨hsink, _, rfl, hid, rfl, by simp [hstream]⟩
  · simp only [Recorder.record, ho, hroom, if_false, flush_unbounded hsink hfailed, hfailed]
    exact ⟨hsink, _, rfl, hid, rfl, by simp [hstream]⟩

theorem Writing.foldl (h : Writing t before id rs r) (xs : List Record) :
    Writing t before id (rs ++ xs) (xs.foldl Recorder.record r) := by
  induction xs generalizing rs r with
  | nil => simpa using h
  | cons x xs ih => simpa using ih (h.record x)

theorem Writing.close (h : Writing t before id rs r) :
    ∃ r', r.close id = (r', .ok ()) ∧ r'.sink.written = before ++ streamBytes t rs := by
  obtain ⟨hsink, o, ho, hid, hfailed, hwritten⟩ := h
  refine ⟨{ r with
    sink := { r.sink with written := r.sink.written ++ o.buffered.flatMap Record.bytes }
    current := none }, ?_, hwritten⟩
  simp only [Recorder.close, ho, hid, ne_eq, not_true_eq_false, if_false,
    flush_unbounded hsink hfailed, hfailed]
  rfl

end Recorder

theorem length_streamBytes (t : KindTable) (rs : List Record) :
    (streamBytes t rs).length = 12 + (tableBytes t).length + 16 * rs.length := by
  have hrecords : (rs.flatMap Record.bytes).length = 16 * rs.length := by
    induction rs with
    | nil => rfl
    | cons r rs ih =>
      rw [List.flatMap_cons, List.length_append, length_bytes, ih, List.length_cons]
      omega
  rw [streamBytes, List.length_append, List.length_append, length_headerBytes, hrecords]

/-- A recording that takes `rs` writes a stream from which exactly `rs` is read, and where the
stream is cut behind its table, exactly the records before the cut; a cut within a record is
noticed. -/
theorem readStream_recorded {r : Recorder} (rs : List Record) (hidle : r.current = none)
    (hsink : r.sink.allowed = none) (hkeys : (r.kinds.map Prod.fst).Nodup)
    (hsize : (tableBytes r.kinds).length < UInt32.size)
    (hrs : ∀ x ∈ rs, (r.kinds.lookup x.kind).isSome) : ∃ r₁ id r₂ bytes, r.start = (r₁, .ok id) ∧
    (rs.foldl Recorder.record r₁).close id = (r₂, .ok ()) ∧
      r₂.sink.written = r.sink.written ++ bytes ∧
      bytes.length = 12 + (tableBytes r.kinds).length + 16 * rs.length ∧
      readStream bytes = { samples := rs.map (Record.sample r.kinds) } ∧
      ∀ k ≤ 16 * rs.length, readStream (bytes.take (12 + (tableBytes r.kinds).length + k)) =
        { samples := (rs.take (k / 16)).map (Record.sample r.kinds)
          fault := if k % 16 = 0 then none else some .record } := by
  obtain ⟨r₁, hstart, hwriting⟩ := Recorder.start_writing hidle hsink
  obtain ⟨r₂, hclose, hwritten⟩ := (hwriting.foldl rs).close
  have hcut {k : Nat} (hk : k ≤ 16 * rs.length) := readStream_take hkeys hsize hrs hk
  have hlength := length_streamBytes r.kinds rs
  refine ⟨r₁, r.begun, r₂, streamBytes r.kinds rs, hstart, hclose, hwritten, hlength, ?_,
    fun k hk => hcut hk⟩
  have hwhole := hcut (Nat.le_refl _)
  rw [List.take_of_length_le (Nat.le_of_eq hlength), Nat.mul_div_cancel_left _ (by decide),
    List.take_length, Nat.mul_mod_right] at hwhole
  exact hwhole

/-- Two kinds, one with a name that has to be escaped. -/
def quotedKinds : KindTable := [(1, ⟨"legalize", 1⟩), (2, ⟨"<é>\"\n", 3⟩)]

theorem readStream_recorded_quoted :
    ∃ r₁ id r₂ bytes, Recorder.start { kinds := quotedKinds } = (r₁, .ok id) ∧
      ([⟨2, -5⟩, ⟨1, 7⟩].foldl Recorder.record r₁).close id = (r₂, .ok ()) ∧
        r₂.sink.written = bytes ∧
      readStream bytes = { samples := [⟨⟨"<é>\"\n", 3⟩, -5⟩, ⟨⟨"legalize", 1⟩, 7⟩] } ∧
      readStream (bytes.take (12 + (tableBytes quotedKinds).length + 17)) =
        { samples := [⟨⟨"<é>\"\n", 3⟩, -5⟩], fault := some .record } := by
  have hsize : (tableBytes quotedKinds).length < UInt32.size := by
    have hsorted : quotedKinds.sorted = quotedKinds :=
      List.mergeSort_of_pairwise (by decide +kernel)
    rw [tableBytes, Text.toList_toUTF8, toList_text, hsorted]
    decide +kernel
  obtain ⟨r₁, id, r₂, bytes, hstart, hclose, hwritten, -, hread, hcut⟩ :=
    readStream_recorded (r := { kinds := quotedKinds }) [⟨2, -5⟩, ⟨1, 7⟩] rfl rfl (by decide)
      hsize (by decide)
  exact ⟨r₁, id, r₂, bytes, hstart, hclose, hwritten, hread, hcut 17 (by decide)⟩

/-! ### Tables that are too long -/

/-- One kind, whose name has so many letters. -/
def longKinds (letters : Nat) : KindTable := [(1, ⟨String.ofList (List.replicate letters 'a'), 0⟩)]

theorem length_tableBytes_longKinds (letters : Nat) :
    (tableBytes (longKinds letters)).length = letters + 27 := by
  have hsorted : (longKinds letters).sorted = longKinds letters := List.mergeSort_singleton _
  have hname : (List.replicate letters 'a').flatMap JsonText.escaped = List.replicate letters 'a' :=
    JsonText.flatMap_escaped fun c hc => by rw [List.eq_of_mem_replicate hc]; decide
  have htext : (longKinds letters).text.toList = "\x7b\"1\":\x7b\"Name\":\"".toList ++
      (List.replicate letters 'a' ++ "\",\"Flags\":0\x7d\x7d".toList) := by
    rw [toList_text, hsorted, longKinds]
    simp only [entriesChars, entryChars, kindChars, JsonText.quoted, String.toList_ofList, hname]
    rfl
  have hletters : ((List.replicate letters 'a').flatMap String.utf8EncodeChar).length =
      letters := by
    rw [List.length_flatMap, List.map_replicate, List.sum_replicate_nat]
    exact Nat.mul_one letters
  rw [tableBytes, Text.toList_toUTF8, htext, List.flatMap_append, List.flatMap_append,
    List.length_append, List.length_append, hletters,
    show ("\x7b\"1\":\x7b\"Name\":\"".toList.flatMap String.utf8EncodeChar).length = 14 by decide,
    show ("\",\"Flags\":0\x7d\x7d".toList.flatMap String.utf8EncodeChar).length = 13
      by decide]
  omega

theorem tableOf?_nil : tableOf? [] = none := by
  rw [tableOf?, Text.decode]
  rfl

/-- The length of a table is written modulo 2^32, so that no bytes are read as the table where it is
a multiple. -/
theorem readStream_of_multiple {t : KindTable} (hsize : (tableBytes t).length % UInt32.size = 0)
    (rs : List Record) : readStream (streamBytes t rs) = { fault := some .table } := by
  rw [streamBytes, List.append_assoc, readStream_header t _ hsize.symm (Nat.zero_le _),
    List.take_zero, tableOf?_nil, Option.elim_none]

theorem readStream_longKinds (letters : Nat) (hletters : (letters + 27) % UInt32.size = 0)
    (x : Record) : ∃ r₁ id r₂, Recorder.start { kinds := longKinds letters } = (r₁, .ok id) ∧
      ([x].foldl Recorder.record r₁).close id = (r₂, .ok ()) ∧
      readStream r₂.sink.written = { fault := some .table } := by
  have hsize : (tableBytes (longKinds letters)).length % UInt32.size = 0 := by
    rw [length_tableBytes_longKinds, hletters]
  obtain ⟨r₁, hstart, hwriting⟩ :=
    Recorder.start_writing (r := { kinds := longKinds letters }) rfl rfl
  obtain ⟨r₂, hclose, hwritten⟩ := (hwriting.foldl [x]).close
  -- by a term, as comparing the two lists by unfolding would compute the bytes
  have hbytes : r₂.sink.written = streamBytes (longKinds letters) ([] ++ [x]) :=
    hwritten.trans (List.nil_append _)
  exact ⟨r₁, _, r₂, hstart, hclose, (congrArg readStream hbytes).trans
    (readStream_of_multiple hsize _)⟩

theorem lookup_longKinds (letters : Nat) :
    (longKinds letters).lookup 1 = some ⟨String.ofList (List.replicate letters 'a'), 0⟩ := rfl

/-- A record of a kind with a name of about four gigabytes is written, and is not read. -/
theorem recorded_not_read :
    ∃ r₁ id r₂, Recorder.start { kinds := longKinds 4294967269 } = (r₁, .ok id) ∧
      ([⟨1, 7⟩].foldl Recorder.record r₁).close id = (r₂, .ok ()) ∧
      ((longKinds 4294967269).lookup 1).isSome ∧
      readStream r₂.sink.written = { fault := some .table } := by
  obtain ⟨r₁, id, r₂, hstart, hclose, hread⟩ := readStream_longKinds 4294967269 (by decide) ⟨1, 7⟩
  refine ⟨r₁, id, r₂, hstart, hclose, ?_, hread⟩
  rw [lookup_longKinds, Option.isSome_some]

end GraphLowering.Timing
