import GraphLowering.Command.ReportTiming
import GraphLowering.Proofs.Timing.Recorded
import Mathlib.Algebra.Ring.Int.Defs
import Mathlib.Data.List.Induction
import Mathlib.Data.List.Nodup

/-!
# Statistics of timing records

Statistics take one record after the other into account. They have one entry for each name, in the
order in which the names appear (`Reports`), and an entry describes the durations of its name
(`Statistics.Describes`): this holds after every record (`Reports.addSample`). The maximum starts at
zero, so it is the greatest duration only if one of them is not negative (`report_faithful`);
otherwise no record has it (`negative_maximum`).
-/

namespace GraphLowering.Timing

/-- The durations of a name, in order. -/
def durationsOf (name : String) (samples : List Sample) : List Int64 :=
  (samples.filter (·.kind.name = name)).map Sample.duration

/-- The sum of durations as an integer. -/
def total (ds : List Int64) : Int := (ds.map Int64.toInt).sum

/-- What statistics that took durations into account say about them. -/
structure Statistics.Describes (st : Statistics) (ds : List Int64) : Prop where
  count : st.count = ds.length
  sum : st.sum = Int64.ofInt (total ds)
  min_mem : st.min ∈ ds
  min_le : ∀ d ∈ ds, st.min ≤ d
  max_mem : st.max ∈ ds ∨ st.max = 0
  le_max : ∀ d ∈ 0 :: ds, d ≤ st.max

/-- One entry for each name, in the order in which the names appear. -/
structure Reports (samples : List Sample) (sts : List Statistics) : Prop where
  names : sts.map Statistics.name = (samples.map (·.kind.name)).eraseDups
  nodup : (sts.map Statistics.name).Nodup
  describes : ∀ st ∈ sts, st.Describes (durationsOf st.name samples)

variable {samples : List Sample} {sts : List Statistics} {s : Sample} {st : Statistics}
  {ds : List Int64} {d : Int64}

/-! ### One record -/

theorem total_concat (ds : List Int64) (d : Int64) :
    Int64.ofInt (total (ds ++ [d])) = Int64.ofInt (total ds) + d := by
  simp [total, Int64.ofInt_add]

theorem Statistics.Describes.first (name flags : String) (d : Int64) :
    (({ name, flags : Statistics }).add d).Describes [d] := by
  refine ⟨rfl, ?_, ?_, ?_, ?_, ?_⟩
  · simp [Statistics.add, total]
  · simp [Statistics.add]
  · simp [Statistics.add]
  · simp only [Statistics.add]
    split
    · exact .inl (List.mem_singleton_self d)
    · exact .inr rfl
  · simp only [Statistics.add, List.mem_cons, List.not_mem_nil, or_false,
      forall_eq_or_imp, forall_eq]
    split <;> rename_i hd
    · exact ⟨Int64.le_of_lt hd, Int64.le_refl d⟩
    · exact ⟨Int64.le_refl 0, Int64.not_lt.1 hd⟩

/-- The minimum and the maximum are compared with a new duration only. -/
theorem Statistics.Describes.add (h : st.Describes ds) (d : Int64) :
    (st.add d).Describes (ds ++ [d]) := by
  have hsome : (st.count = 0 || d < st.min) = decide (d < st.min) := by
    have hpos := List.length_pos_of_mem h.min_mem
    simp [h.count, Nat.ne_of_gt hpos]
  refine ⟨?_, ?_, ?_, fun x hx => ?_, ?_, fun x hx => ?_⟩
  · simp [Statistics.add, h.count]
  · rw [total_concat, ← h.sum]
    rfl
  · simp only [Statistics.add, hsome, decide_eq_true_eq]
    split
    · simp
    · simp [h.min_mem]
  · simp only [Statistics.add, hsome, decide_eq_true_eq]
    rcases List.mem_append.1 hx with hx | hx
    · split
      · exact Int64.le_trans (Int64.le_of_lt ‹_›) (h.min_le x hx)
      · exact h.min_le x hx
    · obtain rfl := List.mem_singleton.1 hx
      split
      · exact Int64.le_refl x
      · exact Int64.not_lt.1 ‹_›
  · simp only [Statistics.add]
    split
    · simp
    · exact h.max_mem.imp_left fun hm => List.mem_append_left _ hm
  · simp only [Statistics.add]
    rcases List.mem_append.1 (List.cons_append ▸ hx) with hx | hx
    · split
      · exact Int64.le_trans (h.le_max x hx) (Int64.le_of_lt ‹_›)
      · exact h.le_max x hx
    · obtain rfl := List.mem_singleton.1 hx
      split
      · exact Int64.le_refl x
      · exact Int64.not_lt.1 ‹_›

/-! ### All records -/

theorem addSample_append {pre : List Statistics} (h : ∀ st ∈ pre, st.name ≠ s.kind.name)
    (rest : List Statistics) : addSample s (pre ++ rest) = pre ++ addSample s rest := by
  induction pre with
  | nil => rfl
  | cons st pre ih =>
    rw [List.cons_append, addSample, if_neg (h st (by simp)), ih fun st hst => h st (by simp [hst])]
    rfl

theorem durationsOf_concat_of_ne {name : String} (h : name ≠ s.kind.name) :
    durationsOf name (samples ++ [s]) = durationsOf name samples := by
  simp [durationsOf, Ne.symm h]

theorem durationsOf_concat :
    durationsOf s.kind.name (samples ++ [s]) = durationsOf s.kind.name samples ++ [s.duration] := by
  simp [durationsOf]

theorem Reports.addSample (h : Reports samples sts) (s : Sample) :
    Reports (samples ++ [s]) (addSample s sts) := by
  have hmem : s.kind.name ∈ samples.map (·.kind.name) ↔ s.kind.name ∈ sts.map Statistics.name := by
    rw [h.names, List.mem_eraseDups]
  by_cases hnew : s.kind.name ∈ sts.map Statistics.name
  · -- the entry of the name takes the duration into account
    obtain ⟨st, hst, hname⟩ := List.mem_map.1 hnew
    obtain ⟨pre, post, rfl⟩ := List.append_of_mem hst
    have hnodup := h.nodup
    rw [List.map_append, List.map_cons, hname, List.nodup_middle, List.nodup_cons] at hnodup
    have hother : ∀ st' ∈ pre ++ post, st'.name ≠ s.kind.name := fun st' hst' he =>
      hnodup.1 (he ▸ List.map_append ▸ List.mem_map_of_mem hst')
    have hadd : Timing.addSample s (pre ++ st :: post) = pre ++ st.add s.duration :: post := by
      rw [addSample_append fun st' hst' => hother st' (by simp [hst']),
        Timing.addSample, if_pos hname]
    have hnames : (pre ++ st.add s.duration :: post).map Statistics.name = (pre ++ st :: post).map
        Statistics.name := by
      simp [Statistics.add]
    rw [hadd]
    refine ⟨?_, hnames ▸ h.nodup, fun st' hst' => ?_⟩
    · rw [hnames, h.names, List.map_append, List.eraseDups_append]
      simp only [List.removeAll, List.map_singleton, List.filter_cons,
        List.elem_eq_mem, hmem.2 hnew]
      exact (List.append_nil _).symm
    · rcases List.mem_append.1 hst' with hpre | hpost
      · rw [durationsOf_concat_of_ne (hother st' (by simp [hpre]))]
        exact h.describes st' (by simp [hpre])
      · rcases List.mem_cons.1 hpost with rfl | hpost
        · have hds := (h.describes st (by simp)).add s.duration
          rw [hname] at hds
          rwa [show (st.add s.duration).name = s.kind.name from hname, durationsOf_concat]
        · rw [durationsOf_concat_of_ne (hother st' (by simp [hpost]))]
          exact h.describes st' (by simp [hpost])
  · have hother : ∀ st ∈ sts, st.name ≠ s.kind.name :=
      fun st hst he => hnew (he ▸ List.mem_map_of_mem hst)
    have hadd : Timing.addSample s sts =
      sts ++ [({ name := s.kind.name, flags := s.kind.flagText : Statistics }).add
        s.duration] := by
      simpa [Timing.addSample] using addSample_append hother []
    rw [hadd]
    refine ⟨?_, ?_, fun st hst => ?_⟩
    · have hout : s.kind.name ∉ samples.map (·.kind.name) := fun hm => hnew (hmem.1 hm)
      rw [List.map_append, h.names, List.map_append, List.eraseDups_append]
      simp only [List.removeAll, List.map_singleton, List.filter_cons, List.elem_eq_mem, hout]
      rfl
    · rw [List.map_append]
      exact h.nodup.append (List.nodup_singleton _) (List.disjoint_singleton.2 hnew)
    · rcases List.mem_append.1 hst with hst | hst
      · rw [durationsOf_concat_of_ne (hother st hst)]
        exact h.describes st hst
      · obtain rfl := List.mem_singleton.1 hst
        have hnone : durationsOf s.kind.name samples = [] := by
          simp only [durationsOf, List.map_eq_nil_iff, List.filter_eq_nil_iff, decide_eq_true_eq]
          exact fun x hx he => hnew (hmem.1 (he ▸ List.mem_map_of_mem hx))
        show Statistics.Describes _ (durationsOf s.kind.name _)
        rw [durationsOf_concat, hnone]
        exact .first _ _ _

theorem reports_statistics (samples : List Sample) : Reports samples (statistics samples) := by
  induction samples using List.reverseRecOn with
  | nil => exact ⟨rfl, .nil, nofun⟩
  | append_singleton samples s ih =>
    rw [statistics, List.foldl_concat]
    exact ih.addSample s

/-- Totals and statistics are kept alike. -/
theorem totals_eq (samples : List Sample) :
    totals samples = (statistics samples).map fun st => (st.name, st.sum) := by
  have hadd : ∀ (s : Sample) sts, addTo s.kind.name s.duration (sts.map fun st : Statistics =>
    (st.name, st.sum)) =
      (addSample s sts).map fun st => (st.name, st.sum) := by
    intro s sts
    induction sts with
    | nil => simp [addTo, addSample, Statistics.add]
    | cons st sts ih =>
      rw [List.map_cons, addTo, addSample]
      split
      · simp [Statistics.add]
      · rw [ih, List.map_cons]
  induction samples using List.reverseRecOn with
  | nil => rfl
  | append_singleton samples s ih =>
    rw [totals, List.foldl_concat, ← totals, ih, hadd, statistics, statistics, List.foldl_concat]

/-! ### The report -/

theorem bySum_sorted (sts : List Statistics) : (bySum sts).Pairwise fun a b => b.sum ≤ a.sum := by
  simpa [bySum] using @List.pairwise_mergeSort _ (fun a b : Statistics => b.sum ≤ a.sum)
    (fun a b c hab hbc => by simp_all only [decide_eq_true_eq]; exact Int64.le_trans hbc hab)
    (fun a b => by simpa using Int64.le_total b.sum a.sum) sts

/-- Entries stay in their order unless a later one has the larger total. -/
theorem bySum_stable {a b : Statistics} (hab : [a, b].Sublist sts) (hle : b.sum ≤ a.sum) :
    [a, b].Sublist (bySum sts) :=
  List.pair_sublist_mergeSort
    (fun a b c hab hbc => by simp_all only [decide_eq_true_eq]; exact Int64.le_trans hbc hab)
    (fun a b => by simpa using Int64.le_total b.sum a.sum) (by simpa using hle) hab

/-- The entries as they are, or with the largest totals first. -/
def Listed (sorted : Bool) (entries listed : List Statistics) : Prop :=
  if sorted then
    listed.Perm entries ∧ (listed.Pairwise fun a b => b.sum ≤ a.sum) ∧
      ∀ a b, [a, b].Sublist entries → b.sum ≤ a.sum → [a, b].Sublist listed
  else listed = entries

open Command Command.ReportTiming in
/-- The report of a stream without a fault has an entry for each name, in the order in which the
names appear or with the largest totals first. An entry has the number of the records of its name,
their total, which is that of the summary, the least duration, and the greatest one if that is not
negative. -/
theorem report_faithful {h : Host Id} {args : List String} {p : Parsed} {path : String}
    {bytes : List UInt8} {samples : List Sample} (hargs : parse flags args = .ok p)
    (hpath : p.operands = [path]) (hsums : p.isSet "sums") (hread : h.read path = .ok bytes)
    (hvalid : readStream bytes = { samples })
    (hfits : ∀ name, -2 ^ 63 ≤ total (durationsOf name samples) ∧
      total (durationsOf name samples) < 2 ^ 63) :
    ∃ entries listed, run h args = (pure { output := endLines (listed.map Statistics.text) } :
      Id (Outcome Fault)) ∧ Listed (p.isSet "sort") entries listed ∧ Reports samples entries ∧
      totals samples = entries.map (fun st => (st.name, st.sum)) ∧
      ∀ st ∈ entries, st.sum.toInt = total (durationsOf st.name samples) ∧
        ((∃ d ∈ durationsOf st.name samples, 0 ≤ d) → st.max ∈ durationsOf st.name samples) := by
  have hreports := reports_statistics samples
  have hrun : run h args = (pure (summarized (p.isSet "sort") { samples }) :
      Id (Outcome Fault)) := by
    simp only [run, hargs, hpath, hsums, if_true, hread, ← hvalid]
    rfl
  refine ⟨statistics samples, if p.isSet "sort" then bySum (statistics samples) else statistics
    samples, hrun, ?_, hreports, totals_eq _, fun st hst => ?_⟩
  · unfold Listed
    split
    · exact ⟨List.mergeSort_perm _ _, bySum_sorted _, fun a b => bySum_stable⟩
    · rfl
  · have hst := hreports.describes st hst
    refine ⟨?_, fun ⟨d, hd, hpos⟩ => hst.max_mem.elim id fun hmax => ?_⟩
    · rw [hst.sum, Int64.toInt_ofInt_of_le (hfits st.name).1 (hfits st.name).2]
    · have hzero : d = 0 := Int64.le_antisymm (hmax ▸ hst.le_max d (by simp [hd])) hpos
      rw [hmax, ← hzero]
      exact hd

/-- Two kinds of one name and one of another. -/
def sharedName : KindTable := [(1, ⟨"a", 1⟩), (2, ⟨"b", 2⟩), (3, ⟨"a", 0⟩)]

theorem readStream_sharedName {rs : List Record}
    (hrs : ∀ r ∈ rs, (sharedName.lookup r.kind).isSome) :
    readStream (streamBytes sharedName rs) = { samples := rs.map (Record.sample sharedName) } := by
  have hsize : (tableBytes sharedName).length < UInt32.size := by
    have hsorted : sharedName.sorted = sharedName := List.mergeSort_of_pairwise (by decide +kernel)
    rw [tableBytes, Text.toList_toUTF8, toList_text, hsorted]
    decide +kernel
  have hread := readStream_take (by decide) hsize hrs (Nat.le_refl _)
  rwa [← length_streamBytes, List.take_length, Nat.mul_div_cancel_left _ (by decide),
    List.take_length, Nat.mul_mod_right] at hread

open Command Command.ReportTiming in
theorem report_faithful_shared :
    let h : Host Id :=
      { Directory.host {} with
        read := fun _ => .ok (streamBytes sharedName [⟨1, 3⟩, ⟨2, 9⟩, ⟨3, -5⟩]) }
    ∃ entries listed, run h ["-sums", "-sort", "f"] =
        (pure { output := endLines (listed.map Statistics.text) } : Id (Outcome Fault)) ∧
      Listed true entries listed ∧
          Reports [⟨⟨"a", 1⟩, 3⟩, ⟨⟨"b", 2⟩, 9⟩, ⟨⟨"a", 0⟩, -5⟩] entries := by
  intro h
  have hfits : ∀ name, -2 ^ 63 ≤
    total (durationsOf name [⟨⟨"a", 1⟩, 3⟩, ⟨⟨"b", 2⟩, 9⟩, ⟨⟨"a", 0⟩, -5⟩]) ∧
      total (durationsOf name [⟨⟨"a", 1⟩, 3⟩, ⟨⟨"b", 2⟩, 9⟩, ⟨⟨"a", 0⟩, -5⟩]) < 2 ^ 63 := by
    intro name
    by_cases ha : "a" = name <;> by_cases hb : "b" = name <;> simp [durationsOf, total, ha, hb]
  have hread : readStream (streamBytes sharedName [⟨1, 3⟩, ⟨2, 9⟩, ⟨3, -5⟩]) = _ :=
    readStream_sharedName (by decide)
  obtain ⟨entries, listed, hrun, hlisted, hreports, -⟩ :=
    @report_faithful h ["-sums", "-sort", "f"] _ _ _ _ rfl rfl (by decide) rfl hread hfits
  exact ⟨entries, listed, hrun, hlisted, hreports⟩

/-- No record has the maximum if all durations are negative. -/
theorem negative_maximum : ∃ samples, readStream (streamBytes sharedName [⟨1, -5⟩]) = { samples } ∧
    ∃ st ∈ statistics samples, st.max ∉ durationsOf st.name samples :=
  ⟨_, readStream_sharedName (by decide), by decide⟩

end GraphLowering.Timing
