import GraphLowering.Proofs.Failures
import GraphLowering.Usim.Arguments
import Mathlib.Data.List.Forall2

/-!
# Where values are passed

An assignment of arguments grows value by value. Its parts are words, and every type that is passed
has parts.
-/

namespace GraphLowering.Usim

open Subtarget (Description Convention)

variable {d : Description} {cc : CallConv} {c : Convention} {variadic : Bool}

theorem exists_left_of_forall₂ {α β : Type} {R : α → β → Prop} {l : List α} {l' : List β}
    (h : List.Forall₂ R l l') {b : β} (hb : b ∈ l') : ∃ a ∈ l, R a b := by
  induction h with
  | nil => cases hb
  | cons hr _ ih =>
    rcases List.mem_cons.1 hb with rfl | hb
    · exact ⟨_, List.mem_cons_self, hr⟩
    · obtain ⟨a, ha, hr'⟩ := ih hb
      exact ⟨a, List.mem_cons_of_mem _ ha, hr'⟩

/-- The types of parts. -/
def IsWordType (vt : ValueType) : Prop := vt = .i32 ∨ vt = .f32

variable {vt : ValueType}

theorem IsWordType.ne_glue (h : IsWordType vt) : vt ≠ .glue := by
  rcases h with rfl | rfl <;> decide

theorem IsWordType.word (h : IsWordType vt) : vt ≠ .i128 ∧ vt.isWide = false := by
  rcases h with rfl | rfl <;> decide

variable {parts : List ValueType}

theorem isWordType_of_mem_partTypes? {vt w : ValueType}
    (h : partTypes? vt = some parts) (hw : w ∈ parts) : IsWordType w := by
  cases vt <;> simp [partTypes?] at h <;> subst h <;> simp at hw <;> subst hw <;>
    first | exact .inl rfl | exact .inr rfl

namespace Assignment

variable {a a' : Assignment} {value : Nat} {p : Passed}

/-- What one argument adds: its parts, all in registers or all on the stack. -/
theorem argument_eq_ok (h : a.argument c variadic value p = .ok a') :
    ∃ parts, partTypes? p.type = some parts ∧
      ((a' = a.onStack c value parts ∧ variadic ∧ p.fixed = false ∧ c.varargsOnStack) ∨
        (a' = a.inRegisters value parts a.free ∧ parts.length ≤ a.free.length) ∨
        (a' = a.exhaust.onStack c value parts ∧ a.free.length < parts.length)) := by
  unfold argument at h
  split at h
  · cases h
  · rename_i parts hparts
    refine ⟨parts, hparts, ?_⟩
    split at h
    · rename_i hv
      cases h
      simp only [Bool.and_eq_true, Bool.not_eq_true'] at hv
      exact .inl ⟨rfl, hv.1.1, hv.1.2, hv.2⟩
    · split at h
      · cases h
        exact .inr (.inl ⟨rfl, ‹_›⟩)
      · cases h
        exact .inr (.inr ⟨rfl, Nat.lt_of_not_le ‹_›⟩)

theorem result_eq_ok {count : Nat} (h : a.result c count value vt = .ok a') :
    ∃ parts, partTypes? vt = some parts ∧ a' = a.inRegisters value parts a.free ∧
      parts.length ≤ a.free.length := by
  unfold result at h
  split at h
  · cases h
  · rename_i parts hparts
    split at h
    · cases h
      exact ⟨parts, hparts, rfl, ‹_›⟩
    · cases h

/-- The places of the parts of one value, in order. -/
structure Placed (value : Nat) (parts : List ValueType) (placed : List Location) : Prop where
  types : placed.map (·.type) = parts
  parts : placed.map (·.part) = List.range parts.length
  value : ∀ l ∈ placed, l.value = value

theorem inRegisters_placed (a : Assignment) (value : Nat)
    {regs : List Register} (h : parts.length ≤ regs.length) : ∃ placed,
      (a.inRegisters value parts regs).locations = a.locations ++ placed ∧
        Placed value parts placed ∧ placed.map (·.place) =
        (regs.take parts.length).map .register := by
  refine ⟨_, rfl, ⟨?_, ?_, ?_⟩, ?_⟩
  · rw [List.map_map]
    show List.map (Prod.fst ∘ Prod.fst) _ = parts
    rw [← List.map_map, List.zipIdx_map_fst, List.map_fst_zip h]
  · rw [List.map_map]
    show List.map Prod.snd _ = _
    rw [List.zipIdx_map_snd]
    simp [h, List.range_eq_range']
  · intro l hl
    obtain ⟨q, -, rfl⟩ := List.mem_map.1 hl
    rfl
  · rw [List.map_map]
    show List.map (Place.register ∘ Prod.snd ∘ Prod.fst) _ = _
    rw [← List.map_map, ← List.map_map, List.zipIdx_map_fst]
    congr 1
    rw [List.zip_eq_zip_take_min, Nat.min_eq_left h, List.take_length,
      List.map_snd_zip (by simp [h])]

theorem onStack_placed (a : Assignment) (c : Convention) (value : Nat) (parts : List ValueType) :
    ∃ placed,
    (a.onStack c value parts).locations = a.locations ++ placed ∧ Placed value parts placed ∧
      ∀ l ∈ placed, ∃ offset, l.place = .stack offset := by
  refine ⟨_, rfl, ⟨?_, ?_, ?_⟩, ?_⟩
  · rw [List.map_map]
    show List.map Prod.fst _ = parts
    rw [List.zipIdx_map_fst]
  · rw [List.map_map]
    show List.map Prod.snd _ = _
    rw [List.zipIdx_map_snd, List.range_eq_range']
  · intro l hl
    obtain ⟨q, -, rfl⟩ := List.mem_map.1 hl
    rfl
  · intro l hl
    obtain ⟨q, -, rfl⟩ := List.mem_map.1 hl
    exact ⟨_, rfl⟩

theorem argument_placed (h : a.argument c variadic value p = .ok a') :
    ∃ parts placed, partTypes? p.type = some parts ∧ a'.locations = a.locations ++ placed ∧
      Placed value parts placed := by
  obtain ⟨parts, hparts, ⟨rfl, -⟩ | ⟨rfl, hfree⟩ | ⟨rfl, -⟩⟩ := argument_eq_ok h
  · obtain ⟨placed, hl, hp, -⟩ := onStack_placed a c value parts
    exact ⟨parts, placed, hparts, hl, hp⟩
  · obtain ⟨placed, hl, hp, -⟩ := inRegisters_placed a value hfree
    exact ⟨parts, placed, hparts, hl, hp⟩
  · obtain ⟨placed, hl, hp, -⟩ := onStack_placed a.exhaust c value parts
    exact ⟨parts, placed, hparts, hl, hp⟩

theorem result_placed {count : Nat} (h : a.result c count value vt = .ok a') :
    ∃ parts placed, partTypes? vt = some parts ∧ a'.locations = a.locations ++ placed ∧
      Placed value parts placed := by
  obtain ⟨parts, hparts, rfl, hfree⟩ := result_eq_ok h
  obtain ⟨placed, hl, hp, -⟩ := inRegisters_placed a value hfree
  exact ⟨parts, placed, hparts, hl, hp⟩

/-- Values get places one after the other if each gets its own. -/
theorem placed_of_foldlM {α ε : Type} (type : α → ValueType)
    {place : Assignment → Nat → α → Except ε Assignment}
    (hplace : ∀ {a a' i x}, place a i x = .ok a' →
      ∃ parts placed, partTypes? (type x) = some parts ∧ a'.locations = a.locations ++ placed ∧
      Placed i parts placed) {xs : List α} {i : Nat}
    (h : (xs.zipIdx i).foldlM (fun a (x, i) => place a i x) a = .ok a') :
    ∃ placed : List (List Location), a'.locations = a.locations ++ placed.flatten ∧
      List.Forall₂ (fun q pl => ∃ parts, partTypes? (type q.1) = some parts ∧ Placed q.2 parts pl)
        (xs.zipIdx i) placed := by
  induction xs generalizing a i with
  | nil =>
    cases h
    exact ⟨[], by simp, .nil⟩
  | cons x xs ih =>
    rw [List.zipIdx_cons, List.foldlM_cons, bind_eq_ok] at h
    obtain ⟨a₁, h₁, h⟩ := h
    obtain ⟨parts, placed, hparts, hl, hp⟩ := hplace h₁
    obtain ⟨rest, hl', hrest⟩ := ih h
    exact ⟨placed :: rest, by simp [hl', hl], .cons ⟨parts, hparts, hp⟩ hrest⟩

end Assignment

theorem conventionOf_eq_ok (h : conventionOf d cc = .ok c) : d.convention cc = .ok c := by
  unfold conventionOf at h
  split at h <;> cases h
  assumption

variable {ls : List Location} {args : List Passed}

theorem sequenceArguments_eq_ok {bytes : Int64}
    (h : sequenceArguments d cc variadic args = .ok (ls, bytes)) :
    ∃ c a, d.convention cc = .ok c ∧ args.zipIdx.foldlM (fun a (p, i) => a.argument c variadic i p)
        { registers := d.argRegisters c : Assignment } = .ok a ∧
      ls = a.locations ∧ bytes = alignTo a.offset c.stackAlign := by
  obtain ⟨c, hc, h⟩ := bind_eq_ok.1 h
  obtain ⟨a, ha, h⟩ := bind_eq_ok.1 h
  cases h
  exact ⟨c, a, conventionOf_eq_ok hc, ha, rfl, rfl⟩

variable {vts : List ValueType}

theorem sequenceResults_eq_ok
    (h : sequenceResults d cc vts = .ok ls) :
    ∃ c a, d.convention cc = .ok c ∧ vts.zipIdx.foldlM (fun a (vt, i) => a.result c vts.length i vt)
        { registers := d.returnRegisters c : Assignment } = .ok a ∧ ls = a.locations := by
  obtain ⟨c, hc, h⟩ := bind_eq_ok.1 h
  obtain ⟨a, ha, h⟩ := bind_eq_ok.1 h
  cases h
  exact ⟨c, a, conventionOf_eq_ok hc, ha, rfl⟩

/-! ### Parts are words -/

variable {placed : List (List Location)}

theorem isWordType_of_placed {α : Type} (type : α → ValueType) {qs : List (α × Nat)}
    (h : List.Forall₂ (fun q pl => ∃ parts, partTypes? (type q.1) = some parts ∧
      Assignment.Placed q.2 parts pl) qs placed) {l : Location} (hl : l ∈ placed.flatten) :
    IsWordType l.type := by
  obtain ⟨pl, hpl, hl⟩ := List.mem_flatten.1 hl
  obtain ⟨q, -, parts, hparts, hp⟩ := exists_left_of_forall₂ h hpl
  exact isWordType_of_mem_partTypes? hparts (hp.types ▸ List.mem_map_of_mem hl)

theorem partTypes?_isSome_of_placed {α : Type} (type : α → ValueType) {qs : List (α × Nat)}
    (h : List.Forall₂ (fun q pl => ∃ parts, partTypes? (type q.1) = some parts ∧
      Assignment.Placed q.2 parts pl) qs placed) {q : α × Nat} (hq : q ∈ qs) :
    (partTypes? (type q.1)).isSome := by
  obtain ⟨-, -, parts, hparts, -⟩ := exists_left_of_forall₂ (List.Forall₂.flip (R := flip _) h) hq
  simp [hparts]

theorem sequenceArguments_words {bytes : Int64}
    (h : sequenceArguments d cc variadic args = .ok (ls, bytes)) :
    (∀ l ∈ ls, IsWordType l.type) ∧ ∀ p ∈ args, (partTypes? p.type).isSome := by
  obtain ⟨c, a, -, ha, rfl, -⟩ := sequenceArguments_eq_ok h
  obtain ⟨placed, hl, hp⟩ :=
    Assignment.placed_of_foldlM (fun p : Passed => p.type) Assignment.argument_placed ha
  refine ⟨fun l hl' => ?_, fun p hp' => ?_⟩
  · exact isWordType_of_placed (fun p : Passed => p.type) hp (by simpa [hl] using hl')
  · obtain ⟨i, hi⟩ := List.mem_iff_getElem?.1 hp'
    have hmem : (p, i) ∈ args.zipIdx := by simpa [List.mem_zipIdx_iff_getElem?] using hi
    exact partTypes?_isSome_of_placed (fun p : Passed => p.type) hp hmem

theorem sequenceResults_words
    (h : sequenceResults d cc vts = .ok ls) :
    (∀ l ∈ ls, IsWordType l.type) ∧ ∀ vt ∈ vts, (partTypes? vt).isSome := by
  obtain ⟨c, a, -, ha, rfl⟩ := sequenceResults_eq_ok h
  obtain ⟨placed, hl, hp⟩ := Assignment.placed_of_foldlM (fun vt => vt) Assignment.result_placed ha
  refine ⟨fun l hl' => ?_, fun vt hvt => ?_⟩
  · exact isWordType_of_placed (fun vt => vt) hp (by simpa [hl] using hl')
  · obtain ⟨i, hi⟩ := List.mem_iff_getElem?.1 hvt
    have hmem : (vt, i) ∈ vts.zipIdx := by simpa [List.mem_zipIdx_iff_getElem?] using hi
    exact partTypes?_isSome_of_placed (fun vt => vt) hp hmem

/-! ### Every place holds a part, and every value has a place -/

theorem length_partTypes?_pos (h : partTypes? vt = some parts) :
    0 < parts.length := by
  cases vt <;> cases h <;> decide

theorem part_of_placed {α : Type} (type : α → ValueType) {qs : List (α × Nat)}
    (h : List.Forall₂ (fun q pl => ∃ parts, partTypes? (type q.1) = some parts ∧
      Assignment.Placed q.2 parts pl) qs placed) {l : Location} (hl : l ∈ placed.flatten) :
    ∃ q ∈ qs, q.2 = l.value ∧ ∃ parts, partTypes? (type q.1) = some parts ∧
    l.part < parts.length := by
  obtain ⟨pl, hpl, hl⟩ := List.mem_flatten.1 hl
  obtain ⟨q, hq, parts, hparts, hp⟩ := exists_left_of_forall₂ h hpl
  refine ⟨q, hq, (hp.value l hl).symm, parts, hparts, List.mem_range.1 ?_⟩
  rw [← hp.parts]
  exact List.mem_map_of_mem hl

theorem types_of_placed {α : Type} (type : α → ValueType) {as : List α} {k i : Nat} {a : α}
    (h : List.Forall₂ (fun q pl => ∃ parts, partTypes? (type q.1) = some parts ∧
      Assignment.Placed q.2 parts pl) (as.zipIdx k) placed) (ha : (a, i) ∈ as.zipIdx k) :
    partTypes? (type a) = some ((placed.flatten.filter (·.value = i)).map (·.type)) := by
  induction as generalizing k placed with
  | nil => cases ha
  | cons b as ih =>
    rw [List.zipIdx_cons] at h ha
    obtain ⟨pl, rest, ⟨parts, hparts, hp⟩, hrest, rfl⟩ := List.forall₂_cons_left_iff.1 h
    rw [List.flatten_cons, List.filter_append]
    rcases List.mem_cons.1 ha with he | ha
    · cases he
      have hown : pl.filter (·.value = i) = pl :=
        List.filter_eq_self.2 fun l hl => by simp [hp.value l hl]
      have hother : rest.flatten.filter (·.value = i) = [] :=
          List.filter_eq_nil_iff.2 fun l hl => by
        obtain ⟨q, hq, hv, -⟩ := part_of_placed type hrest hl
        have := List.le_snd_of_mem_zipIdx hq
        simp only [decide_eq_true_eq]
        omega
      rw [hown, hother, List.append_nil, hp.types]
      exact hparts
    · have hother : pl.filter (·.value = i) = [] := List.filter_eq_nil_iff.2 fun l hl => by
        have := List.le_snd_of_mem_zipIdx ha
        simp only [hp.value l hl, decide_eq_true_eq]
        omega
      rw [hother]
      exact ih hrest ha

theorem sequenceArguments_parts {bytes : Int64}
    (h : sequenceArguments d cc variadic args = .ok (ls, bytes)) :
    (∀ l ∈ ls, ∃ p parts, args[l.value]? = some p ∧ partTypes? p.type = some parts ∧
      l.part < parts.length) ∧ ∀ i p, args[i]? = some p →
      partTypes? p.type = some ((ls.filter (·.value = i)).map (·.type)) := by
  obtain ⟨c, a, -, ha, rfl, -⟩ := sequenceArguments_eq_ok h
  obtain ⟨placed, hl, hp⟩ :=
    Assignment.placed_of_foldlM (fun p : Passed => p.type) Assignment.argument_placed ha
  rw [List.nil_append] at hl
  rw [hl]
  refine ⟨fun l hl' => ?_, fun i p hi => ?_⟩
  · obtain ⟨q, hq, hv, parts, hparts, hpart⟩ := part_of_placed (fun p : Passed => p.type) hp hl'
    exact ⟨q.1, parts, hv ▸ List.mem_zipIdx_iff_getElem?.1 hq, hparts, hpart⟩
  · exact types_of_placed (fun p : Passed => p.type) hp (List.mem_zipIdx_iff_getElem?.2 hi)

theorem Assignment.results_inRegisters {a a' : Assignment} {c : Convention} {i count : Nat}
    (h : (vts.zipIdx i).foldlM (fun a (vt, i) => a.result c count i vt) a = .ok a')
    (ha : ∀ l ∈ a.locations, ∃ r, l.place = .register r) :
    ∀ l ∈ a'.locations, ∃ r, l.place = .register r := by
  induction vts generalizing a i with
  | nil =>
    cases h
    exact ha
  | cons vt vts ih =>
    rw [List.zipIdx_cons, List.foldlM_cons, bind_eq_ok] at h
    obtain ⟨a₁, h₁, h⟩ := h
    obtain ⟨parts, hparts, rfl, hfree⟩ := result_eq_ok h₁
    obtain ⟨placed, hl, -, hregs⟩ := inRegisters_placed a i hfree
    refine ih h fun l hmem => ?_
    rw [hl, List.mem_append] at hmem
    rcases hmem with hmem | hmem
    · exact ha l hmem
    · have hplace := List.mem_map_of_mem (f := (·.place)) hmem
      rw [hregs] at hplace
      obtain ⟨r, -, hr⟩ := List.mem_map.1 hplace
      exact ⟨r, hr.symm⟩

theorem sequenceResults_parts (h : sequenceResults d cc vts = .ok ls) :
    (∀ l ∈ ls, (∃ r, l.place = .register r) ∧ ∃ vt parts, vts[l.value]? = some vt ∧
      partTypes? vt = some parts ∧ l.part < parts.length) ∧
      ∀ i vt, vts[i]? = some vt →
      partTypes? vt = some ((ls.filter (·.value = i)).map (·.type)) := by
  obtain ⟨c, a, -, ha, rfl⟩ := sequenceResults_eq_ok h
  have hregs := Assignment.results_inRegisters ha (by simp)
  obtain ⟨placed, hl, hp⟩ := Assignment.placed_of_foldlM (fun vt => vt) Assignment.result_placed ha
  rw [List.nil_append] at hl
  refine ⟨fun l hl' => ⟨hregs l hl', ?_⟩, fun i vt hi => ?_⟩
  · obtain ⟨q, hq, hv, parts, hparts, hpart⟩ := part_of_placed (fun vt => vt) hp (hl ▸ hl')
    exact ⟨q.1, parts, hv ▸ List.mem_zipIdx_iff_getElem?.1 hq, hparts, hpart⟩
  · rw [hl]
    exact types_of_placed (fun vt => vt) hp (List.mem_zipIdx_iff_getElem?.2 hi)

theorem wordsAt_forall₂ {R : Location → Option Value → Prop}
    {ws : List (Location × Option Value)} (i : Nat)
    (h : List.Forall₂ (fun l w => w.1 = l ∧ R l w.2) ls ws) :
    List.Forall₂ R (ls.filter (·.value = i)) (wordsAt i ws) := by
  unfold wordsAt
  induction h with
  | nil => exact .nil
  | cons hw _ ih =>
    obtain ⟨rfl, hw⟩ := hw
    rename_i w _ _ _
    by_cases hi : w.1.value = i
    · rw [List.filter_cons_of_pos (by simpa using hi), List.filter_cons_of_pos (by simpa using hi)]
      exact .cons hw ih
    · rw [List.filter_cons_of_neg (by simpa using hi), List.filter_cons_of_neg (by simpa using hi)]
      exact ih

end GraphLowering.Usim
