import GraphLowering.Proofs.Usim.Rooms

/-!
# The shape of an assignment

Every part has one place, in order. A value is in registers or on the stack as a whole; it takes the
first registers that no earlier value has, unless the convention wants it on the stack, there are
too few, or an earlier value has found too few. Slots follow each other, aligned (`Sequenced`).
Places of arguments have this shape, and so have those of return values that fit
(`sequencing_shape`). Parts share no place when the convention names no register twice and its slots
hold a word (`parts_apart`), and later arguments do not move earlier ones (`sequencing_prefix`).
-/

namespace GraphLowering.Usim

open Subtarget (Description Convention)

variable {d : Description} {cc : CallConv} {c : Convention} {variadic : Bool}

namespace Location

def register? (l : Location) : Option Register :=
  match l.place with
  | .register r => some r
  | .stack _ => none

theorem register?_eq_some {l : Location} {r : Register} :
    l.register? = some r ↔ l.place = .register r := by
  unfold register?
  split <;> simp_all

end Location

/-- The places of one value. -/
def partsAt (ls : List Location) (v : Nat) : List Location := ls.filter (·.value = v)

/-- The registers that the values before number `v` have. -/
def registersBefore (ls : List Location) (v : Nat) : List Register :=
  (ls.filter (·.value < v)).filterMap (·.register?)

def InRegisters (ls : List Location) (v : Nat) : Prop :=
  ∀ l ∈ ls, l.value = v → ∃ r, l.place = .register r

def OnStack (ls : List Location) (v : Nat) : Prop := ∀ l ∈ ls, l.value = v → ∃ o, l.place = .stack o

/-- The places `ls`, and an area of `bytes` bytes, are those of `args` under the convention `c`,
with the registers `regs` to hand out. -/
structure Sequenced (c : Convention) (regs : List Register) (variadic : Bool) (args : List Passed)
    (ls : List Location) (bytes : Int64) : Prop where
  parts : ls.map (fun l => (l.value, l.part, l.parts, l.type)) = args.zipIdx.flatMap fun (p, v) =>
    (partsOf p.type).zipIdx.map fun (vt, k) => (v, k, (partsOf p.type).length, vt)
  whole : ∀ v, InRegisters ls v ∨ OnStack ls v
  listOrder : (ls.filterMap (·.register?)).Sublist regs
  registers : ∀ v p, args[v]? = some p → InRegisters ls v → (partsAt ls v).filterMap (·.register?) =
    (regs.filter (· ∉ registersBefore ls v)).take (partsOf p.type).length
  inRegisters_iff : ∀ v p, args[v]? = some p → (InRegisters ls v ↔ isForced c variadic p = false ∧
    (partsOf p.type).length ≤ (regs.filter (· ∉ registersBefore ls v)).length ∧
      ∀ u < v, ∀ q, args[u]? = some q → isForced c variadic q = false → InRegisters ls u)
  slot : ∀ l ∈ ls, ∀ o, l.place = .stack o → l.size = c.slotSize ∧ 0 ≤ o.toInt
  aligned : ∀ l ∈ ls, ∀ o, l.place = .stack o → l.part = 0 →
    (if 1 < l.parts then c.stackAlign else c.slotSize).toInt ∣ o.toInt
  stride : ∀ l ∈ ls, ∀ l' ∈ ls, l.value = l'.value → ∀ o o', l.place = .stack o →
    l'.place = .stack o' → o'.toInt - o.toInt = (l'.part - l.part) * c.slotSize.toInt
  increasing : ls.Pairwise fun l l' => ∀ o o', l.place = .stack o → l'.place = .stack o' →
    o.toInt + c.slotSize.toInt ≤ o'.toInt
  align : c.stackAlign.toInt ∣ bytes.toInt
  covers : ∀ l ∈ ls, ∀ o, l.place = .stack o → o.toInt + c.slotSize.toInt ≤ bytes.toInt
  least : ∀ m : Int, 0 ≤ m → c.stackAlign.toInt ∣ m →
    (∀ l ∈ ls, ∀ o, l.place = .stack o → o.toInt + c.slotSize.toInt ≤ m) → bytes.toInt ≤ m

/-! ### One value -/

namespace Passage

variable {P : Passage} {i : Nat} {vts : List ValueType} {l : Location}

theorem value_of_mem (h : l ∈ P.locations c i vts) : l.value = i := by
  cases P <;> (obtain ⟨q, -, rfl⟩ := List.mem_map.1 h; rfl)

theorem mem_registers {rs : List Register} (h : l ∈ (registers rs).locations c i vts) :
    ∃ r, l.place = .register r := by
  obtain ⟨q, -, rfl⟩ := List.mem_map.1 h
  exact ⟨_, rfl⟩

theorem mem_stack {base : Nat} (h : l ∈ (stack base).locations c i vts) :
    l.place = .stack (Int64.ofNat (base + l.part * slotBytes c)) ∧ l.part < vts.length ∧
      l.parts = vts.length ∧ l.size = c.slotSize := by
  obtain ⟨q, hq, rfl⟩ := List.mem_map.1 h
  exact ⟨rfl, by simpa using List.snd_lt_of_mem_zipIdx hq, rfl, rfl⟩

theorem exists_mem_stack {base k : Nat} (hk : k < vts.length) :
    ∃ l ∈ (stack base).locations c i vts, l.place =
    .stack (Int64.ofNat (base + k * slotBytes c)) := by
  refine ⟨_, List.mem_map_of_mem (List.getElem_mem (n := k) (by simpa using hk)), ?_⟩
  simp

theorem map_registers {rs : List Register} (h : rs.length = vts.length) :
    ((registers rs).locations c i vts).map (fun l => (l.value, l.part, l.parts, l.type)) =
      vts.zipIdx.map fun (vt, k) => (i, k, vts.length, vt) := by
  refine List.ext_getElem (by simp [locations, h]) fun k _ _ => ?_
  simp [locations]

theorem map_stack {base : Nat} :
    ((stack base).locations c i vts).map (fun l => (l.value, l.part, l.parts, l.type)) =
      vts.zipIdx.map fun (vt, k) => (i, k, vts.length, vt) := by
  refine List.ext_getElem (by simp [locations]) fun k _ _ => ?_
  simp [locations]

theorem filterMap_registers {rs : List Register} (h : rs.length = vts.length) :
    ((registers rs).locations c i vts).filterMap (·.register?) = rs := by
  rw [locations, List.filterMap_map]
  show List.filterMap (some ∘ Prod.snd ∘ Prod.fst) _ = rs
  rw [List.filterMap_eq_map, ← List.map_map, List.zipIdx_map_fst, List.map_snd_zip h.le]

theorem filterMap_stack {base : Nat} :
    ((stack base).locations c i vts).filterMap (·.register?) = [] := by
  refine List.filterMap_eq_nil_iff.2 fun l hl => ?_
  simp [Location.register?, (mem_stack hl).1]

end Passage

namespace Room

variable {room : Room} {p : Passed} {ps : List Passed} {i v : Nat} {l : Location}

/-- The registers that an argument takes. -/
def taken (c : Convention) (variadic : Bool) (room : Room) (p : Passed) : List Register :=
  if room.takesRegisters c variadic p then room.free.take (partsOf p.type).length else []

theorem takesRegisters_iff : room.takesRegisters c variadic p = true ↔
    isForced c variadic p = false ∧ (partsOf p.type).length ≤ room.free.length := by
  simp [takesRegisters]

theorem length_take (h : room.takesRegisters c variadic p = true) :
    (room.free.take (partsOf p.type).length).length = (partsOf p.type).length :=
  List.length_take_of_le (takesRegisters_iff.1 h).2

theorem passage_of_takes (h : room.takesRegisters c variadic p = true) :
    room.passage c variadic p = .registers (room.free.take (partsOf p.type).length) := if_pos h

theorem passage_of_not_takes (h : ¬room.takesRegisters c variadic p = true) :
    room.passage c variadic p = .stack (room.base c (partsOf p.type).length) := if_neg h

theorem map_passage : ((room.passage c variadic p).locations c i (partsOf p.type)).map
      (fun l => (l.value, l.part, l.parts, l.type)) =
    (partsOf p.type).zipIdx.map fun (vt, k) => (i, k, (partsOf p.type).length, vt) := by
  by_cases h : room.takesRegisters c variadic p = true
  · rw [passage_of_takes h, Passage.map_registers (length_take h)]
  · rw [passage_of_not_takes h, Passage.map_stack]

theorem filterMap_passage : ((room.passage c variadic p).locations c i (partsOf p.type)).filterMap
    (·.register?) = room.taken c variadic p := by
  unfold taken
  by_cases h : room.takesRegisters c variadic p = true
  · rw [passage_of_takes h, Passage.filterMap_registers (length_take h), if_pos h]
  · rw [passage_of_not_takes h, Passage.filterMap_stack, if_neg h]

theorem free_after : (room.after c variadic p).free =
    if isForced c variadic p = false ∧ ¬room.takesRegisters c variadic p = true then []
    else room.free.filter (· ∉ room.taken c variadic p) := by
  unfold after taken
  by_cases h : room.takesRegisters c variadic p = true
  · simp [h]
  · cases hf : isForced c variadic p <;> simp [h]

/-! ### The values that follow -/

theorem le_value (h : l ∈ room.locations c variadic i ps) : i ≤ l.value := by
  induction ps generalizing room i with
  | nil => cases h
  | cons p ps ih =>
    rcases List.mem_append.1 h with h | h
    · exact (Passage.value_of_mem h).ge
    · exact (Nat.le_succ i).trans (ih h)

theorem map_locations :
    (room.locations c variadic i ps).map (fun l => (l.value, l.part, l.parts, l.type)) =
    (ps.zipIdx i).flatMap fun (p, v) =>
      (partsOf p.type).zipIdx.map fun (vt, k) => (v, k, (partsOf p.type).length, vt) := by
  induction ps generalizing room i with
  | nil => rfl
  | cons p ps ih =>
    rw [locations, List.map_append, map_passage, ih, List.zipIdx_cons, List.flatMap_cons]

theorem partsAt_head : partsAt (room.locations c variadic i (p :: ps)) i =
    (room.passage c variadic p).locations c i (partsOf p.type) := by
  rw [partsAt, locations, List.filter_append, List.filter_eq_self.2, List.filter_eq_nil_iff.2,
    List.append_nil]
  · intro l hl
    have := le_value hl
    simp only [decide_eq_true_eq]
    omega
  · intro l hl
    simpa using Passage.value_of_mem hl

theorem partsAt_of_lt (hv : i < v) : partsAt (room.locations c variadic i (p :: ps)) v =
    partsAt ((room.after c variadic p).locations c variadic (i + 1) ps) v := by
  rw [partsAt, locations, List.filter_append, List.filter_eq_nil_iff.2, List.nil_append, partsAt]
  intro l hl
  have := Passage.value_of_mem hl
  simp only [decide_eq_true_eq]
  omega

theorem mem_partsAt {ls : List Location} : l ∈ partsAt ls v ↔ l ∈ ls ∧ l.value = v := by
  simp [partsAt]

theorem inRegisters_iff_partsAt {ls : List Location} :
    InRegisters ls v ↔ ∀ l ∈ partsAt ls v, ∃ r, l.place = .register r := by
  simp only [mem_partsAt, and_imp]
  exact Iff.rfl

theorem inRegisters_head (hrule : (partTypes? p.type).isSome) :
    InRegisters (room.locations c variadic i (p :: ps)) i ↔
    room.takesRegisters c variadic p = true := by
  rw [inRegisters_iff_partsAt, partsAt_head]
  by_cases h : room.takesRegisters c variadic p = true
  · rw [passage_of_takes h]
    exact iff_of_true (fun l hl => Passage.mem_registers hl) h
  · rw [passage_of_not_takes h]
    refine iff_of_false (fun hall => ?_) h
    obtain ⟨vts, hvts⟩ := Option.isSome_iff_exists.1 hrule
    have hlen : 0 < ((Passage.stack (room.base c (partsOf p.type).length)).locations c i
        (partsOf p.type)).length := by
      simpa [Passage.locations, partsOf, hvts] using length_partTypes?_pos hvts
    obtain ⟨l, hl⟩ := List.exists_mem_of_length_pos hlen
    obtain ⟨r, hr⟩ := hall l hl
    exact absurd (hr.symm.trans (Passage.mem_stack hl).1) (by simp)

theorem inRegisters_of_lt (hv : i < v) : InRegisters (room.locations c variadic i (p :: ps)) v ↔
    InRegisters ((room.after c variadic p).locations c variadic (i + 1) ps) v := by
  rw [inRegisters_iff_partsAt, partsAt_of_lt hv, ← inRegisters_iff_partsAt]

theorem registersBefore_self : registersBefore (room.locations c variadic i ps) i = [] := by
  rw [registersBefore, List.filter_eq_nil_iff.2, List.filterMap_nil]
  intro l hl
  simpa using le_value hl

theorem registersBefore_of_lt (hv : i < v) :
    registersBefore (room.locations c variadic i (p :: ps)) v = room.taken c variadic p ++
      registersBefore ((room.after c variadic p).locations c variadic (i + 1) ps) v := by
  rw [registersBefore, locations, List.filter_append, List.filterMap_append, List.filter_eq_self.2,
    filterMap_passage, registersBefore]
  intro l hl
  simpa [Passage.value_of_mem hl] using hv

/-! ### Registers -/

theorem filter_not_mem_take (rs : List Register) (n : Nat) :
    rs.filter (· ∉ rs.take n) = (rs.drop n).filter (· ∉ rs.take n) := by
  conv_lhs => rw [← List.take_append_drop n rs, List.filter_append]
  rw [List.filter_eq_nil_iff.2, List.nil_append, List.take_append_drop]
  intro r hr
  simp [List.take_append_drop, hr]

theorem registers_sublist :
    ((room.locations c variadic i ps).filterMap (·.register?)).Sublist room.free := by
  induction ps generalizing room i with
  | nil => exact List.nil_sublist _
  | cons p ps ih =>
    rw [locations, List.filterMap_append, filterMap_passage]
    have hrest := @ih (room.after c variadic p) (i + 1)
    rw [free_after] at hrest
    unfold taken at hrest ⊢
    by_cases h : room.takesRegisters c variadic p = true
    · rw [if_neg (fun hn => hn.2 h), if_pos h] at hrest
      rw [if_pos h]
      rw [filter_not_mem_take] at hrest
      have hsplit := (List.Sublist.refl (room.free.take (partsOf p.type).length)).append
        (hrest.trans List.filter_sublist)
      rwa [List.take_append_drop] at hsplit
    · rw [if_neg h, List.nil_append]
      refine hrest.trans ?_
      split
      · exact List.nil_sublist _
      · exact List.filter_sublist

theorem registers_spec (hrule : ∀ p ∈ ps, (partTypes? p.type).isSome) {k : Nat}
    (hp : ps[k]? = some p) :
    (InRegisters (room.locations c variadic i ps) (i + k) ↔ isForced c variadic p = false ∧
      (partsOf p.type).length ≤
        (room.free.filter (· ∉ registersBefore (room.locations c variadic i ps) (i + k))).length ∧
      ∀ u < k, ∀ q, ps[u]? = some q → isForced c variadic q = false →
        InRegisters (room.locations c variadic i ps) (i + u)) ∧
    (InRegisters (room.locations c variadic i ps) (i + k) →
      (partsAt (room.locations c variadic i ps) (i + k)).filterMap (·.register?) =
        (room.free.filter (· ∉ registersBefore (room.locations c variadic i ps) (i + k))).take
          (partsOf p.type).length) := by
  induction ps generalizing room i k with
  | nil => cases hp
  | cons p₀ ps ih =>
    cases k with
    | zero =>
      obtain rfl : p₀ = p := by simpa using hp
      have hall : room.free.filter (· ∉ ([] : List Register)) = room.free := by simp
      rw [Nat.add_zero, inRegisters_head (hrule p₀ (by simp)), registersBefore_self,
        hall, partsAt_head, filterMap_passage, takesRegisters_iff]
      refine ⟨by simp, fun h => ?_⟩
      rw [taken, if_pos (takesRegisters_iff.2 h)]
    | succ k =>
      have hlt : ∀ u, i < i + (u + 1) := fun u => by omega
      have hnum : ∀ u, i + (u + 1) = i + 1 + u := fun u => by omega
      obtain ⟨hiff, htake⟩ := @ih (room.after c variadic p₀) (i + 1)
        (fun q hq => hrule q (by simp [hq])) k (by simpa using hp)
      rw [inRegisters_of_lt (hlt k), partsAt_of_lt (hlt k), registersBefore_of_lt (hlt k), hnum k]
      -- either the first value leaves no register, or those that it does not take
      by_cases hspill : isForced c variadic p₀ = false ∧ ¬room.takesRegisters c variadic p₀ = true
      · have hnot : ¬InRegisters ((room.after c variadic p₀).locations c variadic (i + 1) ps)
            (i + 1 + k) := by
          rw [hiff, free_after, if_pos hspill]
          have hpos : 0 < (partsOf p.type).length := by
            obtain ⟨vts, hvts⟩ := Option.isSome_iff_exists.1
              (hrule p (List.mem_cons_of_mem _ (List.mem_of_getElem? (by simpa using hp))))
            simpa [partsOf, hvts] using length_partTypes?_pos hvts
          simp only [List.filter_nil, List.length_nil]
          omega
        refine ⟨iff_of_false hnot fun hall => hspill.2 ?_, fun h => absurd h hnot⟩
        have := hall.2.2 0 (by omega) p₀ (by simp) hspill.1
        rwa [Nat.add_zero, inRegisters_head (hrule p₀ (by simp))] at this
      · have hfree : (room.after c variadic p₀).free.filter (· ∉ registersBefore
              ((room.after c variadic p₀).locations c variadic (i + 1) ps) (i + 1 + k)) =
            room.free.filter (· ∉ room.taken c variadic p₀ ++ registersBefore
              ((room.after c variadic p₀).locations c variadic (i + 1) ps) (i + 1 + k)) := by
          rw [free_after, if_neg hspill, List.filter_filter]
          refine List.filter_congr fun r _ => ?_
          simp [not_or, Bool.and_comm]
        rw [hfree] at hiff htake
        refine ⟨hiff.trans (and_congr_right fun _ => and_congr_right fun _ => ?_), htake⟩
        constructor
        · intro h u hu q hq hf
          cases u with
          | zero =>
            obtain rfl : p₀ = q := by simpa using hq
            rw [Nat.add_zero, inRegisters_head (hrule p₀ (by simp))]
            by_contra hn
            exact hspill ⟨hf, hn⟩
          | succ u =>
            rw [inRegisters_of_lt (hlt u), hnum u]
            exact h u (by omega) q (by simpa using hq) hf
        · intro h u hu q hq hf
          rw [← hnum u, ← inRegisters_of_lt (hlt u)]
          exact h (u + 1) (by omega) q (by simpa using hq) hf

theorem whole (v : Nat) : InRegisters (room.locations c variadic i ps) v ∨
    OnStack (room.locations c variadic i ps) v := by
  induction ps generalizing room i with
  | nil => exact .inl fun l hl => absurd hl (by simp [locations])
  | cons p ps ih =>
    by_cases hv : v = i
    · subst hv
      by_cases h : room.takesRegisters c variadic p = true
      · refine .inl (inRegisters_iff_partsAt.2 ?_)
        rw [partsAt_head, passage_of_takes h]
        exact fun l hl => Passage.mem_registers hl
      · refine .inr fun l hl hval => ?_
        have hmem := mem_partsAt.2 ⟨hl, hval⟩
        rw [partsAt_head, passage_of_not_takes h] at hmem
        exact ⟨_, (Passage.mem_stack hmem).1⟩
    · have hrest : ∀ l ∈ room.locations c variadic i (p :: ps), l.value = v →
          l ∈ (room.after c variadic p).locations c variadic (i + 1) ps := by
        intro l hl hval
        refine (List.mem_append.1 hl).resolve_left fun h => hv ?_
        rw [← hval, Passage.value_of_mem h]
      rcases @ih (room.after c variadic p) (i + 1) with h | h
      · exact .inl fun l hl hval => h l (hrest l hl hval) hval
      · exact .inr fun l hl hval => h l (hrest l hl hval) hval

/-! ### The stack -/

theorem used_after (h : ¬room.takesRegisters c variadic p = true) : (room.after c variadic p).used =
    room.base c (partsOf p.type).length + (partsOf p.type).length * slotBytes c := by
  unfold after
  rw [if_neg h]

/-- A part of a value on the stack whose slots begin at `base`. -/
structure Slot (c : Convention) (base : Nat) (l : Location) (o : Int64) : Prop where
  offset : o.toInt = base + l.part * slotBytes c
  align : (if 1 < l.parts then alignBytes c else slotBytes c) ∣ base
  size : l.size = c.slotSize

theorem slot_of_mem_passage {o : Int64}
    (h : l ∈ (room.passage c variadic p).locations c i (partsOf p.type)) (ho : l.place = .stack o)
    (hend : (room.after c variadic p).used < 2 ^ 63) : ¬room.takesRegisters c variadic p = true ∧
    Slot c (room.base c (partsOf p.type).length) l o ∧
      l.part < (partsOf p.type).length := by
  by_cases ht : room.takesRegisters c variadic p = true
  · rw [passage_of_takes ht] at h
    obtain ⟨r, hr⟩ := Passage.mem_registers h
    exact absurd (hr.symm.trans ho) (by simp)
  · rw [passage_of_not_takes ht] at h
    obtain ⟨hplace, hpart, hparts, hsize⟩ := Passage.mem_stack h
    refine ⟨ht, ⟨?_, hparts ▸ dvd_roundUp, hsize⟩, hpart⟩
    have hmul : l.part * slotBytes c ≤ (partsOf p.type).length * slotBytes c :=
      Nat.mul_le_mul_right _ hpart.le
    rw [used_after ht] at hend
    obtain rfl : _ = o := Place.stack.inj (hplace.symm.trans ho)
    rw [Int64.toInt_ofNat_of_lt (by omega)]
    push_cast
    rfl

theorem slot_bounds (hc : c.Regular) {o : Int64}
    (h : l ∈ (room.passage c variadic p).locations c i (partsOf p.type)) (ho : l.place = .stack o)
    (hend : (room.after c variadic p).used < 2 ^ 63) :
    (room.used : Int) ≤ o.toInt ∧ o.toInt + c.slotSize.toInt ≤ (room.after c variadic p).used := by
  obtain ⟨ht, hslot, hpart⟩ := slot_of_mem_passage h ho hend
  have hmul : l.part * slotBytes c + slotBytes c ≤ (partsOf p.type).length * slotBytes c := by
    rw [← Nat.succ_mul]
    exact Nat.mul_le_mul_right _ hpart
  have hbase := used_le_base hc room (partsOf p.type).length
  have hoffset := hslot.offset
  rw [used_after ht, toInt_slotSize hc]
  push_cast at hmul ⊢
  omega

theorem exists_slots (hc : c.Regular) (hend : room.finalUse c variadic ps < 2 ^ 63) (i v : Nat) :
    ∃ base, ∀ l ∈ room.locations c variadic i ps, l.value = v → ∀ o, l.place = .stack o →
    Slot c base l o := by
  induction ps generalizing room i with
  | nil => exact ⟨0, fun l hl => absurd hl (by simp [locations])⟩
  | cons p ps ih =>
    change (room.after c variadic p).finalUse c variadic ps < 2 ^ 63 at hend
    by_cases hv : v = i
    · refine ⟨room.base c (partsOf p.type).length, fun l hl hval o ho => ?_⟩
      have hmem := mem_partsAt.2 ⟨hl, hval.trans hv⟩
      rw [partsAt_head] at hmem
      exact (slot_of_mem_passage hmem ho ((used_le_finalUse hc).trans_lt hend)).2.1
    · obtain ⟨base, hbase⟩ := ih hend (i + 1)
      refine ⟨base, fun l hl hval o ho => hbase l ?_ hval o ho⟩
      refine (List.mem_append.1 hl).resolve_left fun h => hv ?_
      rw [← hval, Passage.value_of_mem h]

theorem stack_bounds (hc : c.Regular) (hend : room.finalUse c variadic ps < 2 ^ 63) {o : Int64}
    (h : l ∈ room.locations c variadic i ps) (ho : l.place = .stack o) :
    (room.used : Int) ≤ o.toInt ∧ o.toInt + c.slotSize.toInt ≤ room.finalUse c variadic ps := by
  induction ps generalizing room i with
  | nil => cases h
  | cons p ps ih =>
    change (room.after c variadic p).finalUse c variadic ps < 2 ^ 63 at hend
    change _ ∧ _ ≤ (((room.after c variadic p).finalUse c variadic ps : Nat) : Int)
    have hle : (room.after c variadic p).used ≤ (room.after c variadic p).finalUse c variadic ps :=
      used_le_finalUse hc
    have hafter : room.used ≤ (room.after c variadic p).used := used_le_after hc
    rcases List.mem_append.1 h with h | h
    · have := slot_bounds hc h ho (hle.trans_lt hend)
      omega
    · have := ih hend h
      omega

theorem pairwise_passage (hc : c.Regular) (hend : (room.after c variadic p).used < 2 ^ 63) :
    ((room.passage c variadic p).locations c i (partsOf p.type)).Pairwise fun l l' =>
      ∀ o o', l.place = .stack o → l'.place = .stack o' →
      o.toInt + c.slotSize.toInt ≤ o'.toInt := by
  by_cases ht : room.takesRegisters c variadic p = true
  · rw [passage_of_takes ht]
    refine List.pairwise_of_forall_mem_list fun l hl l' _ o o' ho _ => ?_
    obtain ⟨r, hr⟩ := Passage.mem_registers hl
    exact absurd (hr.symm.trans ho) (by simp)
  · rw [used_after ht] at hend
    rw [passage_of_not_takes ht, Passage.locations, List.pairwise_map, List.pairwise_iff_getElem]
    intro j k hj hk hjk o o' ho ho'
    simp only [List.getElem_zipIdx, Nat.zero_add, Place.stack.injEq,
      List.length_zipIdx] at ho ho' hk
    have hlast : (k + 1) * slotBytes c ≤ (partsOf p.type).length * slotBytes c :=
      Nat.mul_le_mul_right _ hk
    have hnext : (j + 1) * slotBytes c ≤ k * slotBytes c := Nat.mul_le_mul_right _ hjk
    rw [Nat.succ_mul] at hlast hnext
    rw [← ho, ← ho', Int64.toInt_ofNat_of_lt (by omega), Int64.toInt_ofNat_of_lt (by omega),
      toInt_slotSize hc]
    omega

theorem pairwise_locations (hc : c.Regular) (hend : room.finalUse c variadic ps < 2 ^ 63) :
    (room.locations c variadic i ps).Pairwise fun l l' =>
      ∀ o o', l.place = .stack o → l'.place = .stack o' →
      o.toInt + c.slotSize.toInt ≤ o'.toInt := by
  induction ps generalizing room i with
  | nil => exact .nil
  | cons p ps ih =>
    change (room.after c variadic p).finalUse c variadic ps < 2 ^ 63 at hend
    have hlt : (room.after c variadic p).used < 2 ^ 63 := (used_le_finalUse hc).trans_lt hend
    refine List.pairwise_append.2 ⟨pairwise_passage hc hlt, ih hend,
      fun l hl l' hl' o o' ho ho' => ?_⟩
    exact (slot_bounds hc hl ho hlt).2.trans (stack_bounds hc hend hl' ho').1

/-- The area ends with the last slot. -/
theorem finalUse_le (hc : c.Regular) (hrule : ∀ p ∈ ps, (partTypes? p.type).isSome)
    (hend : room.finalUse c variadic ps < 2 ^ 63) {m : Int} (hm : room.used ≤ m)
    (h : ∀ l ∈ room.locations c variadic i ps, ∀ o, l.place = .stack o →
      o.toInt + c.slotSize.toInt ≤ m) :
    room.finalUse c variadic ps ≤ m := by
  induction ps generalizing room i with
  | nil => exact hm
  | cons p ps ih =>
    change (room.after c variadic p).finalUse c variadic ps < 2 ^ 63 at hend
    refine ih (fun q hq => hrule q (by simp [hq])) hend ?_ fun l hl =>
      h l (List.mem_append_right _ hl)
    by_cases ht : room.takesRegisters c variadic p = true
    · simpa only [after, ht, if_true] using hm
    · have hlt : (room.after c variadic p).used < 2 ^ 63 := (used_le_finalUse hc).trans_lt hend
      obtain ⟨vts, hvts⟩ := Option.isSome_iff_exists.1 (hrule p (by simp))
      have hpos : 0 < (partsOf p.type).length := by
        simpa [partsOf, hvts] using length_partTypes?_pos hvts
      -- the last part of the value ends where the room it leaves begins
      obtain ⟨k, hk⟩ : ∃ k, (partsOf p.type).length = k + 1 :=
        ⟨_, (Nat.succ_pred_eq_of_pos hpos).symm⟩
      obtain ⟨l, hl, hplace⟩ := @Passage.exists_mem_stack c i (partsOf p.type)
        (room.base c (partsOf p.type).length) k (by omega)
      have hlast := h l (List.mem_append_left _ (passage_of_not_takes ht ▸ hl)) _ hplace
      rw [used_after ht, hk, Nat.succ_mul] at hlt ⊢
      rw [hk, Int64.toInt_ofNat_of_lt (by omega), toInt_slotSize hc] at hlast
      omega

theorem sequenced (hc : c.Regular) {regs : List Register} {args : List Passed}
    (hrule : ∀ p ∈ args, (partTypes? p.type).isSome)
    (hfit : roundUp (finalUse c variadic { free := regs } args) (alignBytes c) < 2 ^ 63) :
    Sequenced c regs variadic args (locations c variadic { free := regs } 0 args)
      (Int64.ofNat (roundUp (finalUse c variadic { free := regs } args) (alignBytes c))) := by
  obtain ⟨-, -, -, halign⟩ := alignBytes_eq hc
  have hend := (le_roundUp (alignBytes_pos hc)).trans_lt hfit
  have hbytes := Int64.toInt_ofNat_of_lt hfit
  refine ⟨map_locations, whole, registers_sublist, fun v p hp => ?_, fun v p hp => ?_,
    fun l hl o ho => ?_, fun l hl o ho hpart => ?_, fun l hl l' hl' hval o o' ho ho' => ?_,
    pairwise_locations hc hend, ?_, fun l hl o ho => ?_, fun m hm0 hm hall => ?_⟩
  · have := (@registers_spec c variadic { free := regs } p args 0 hrule v hp).2
    simpa using this
  · have := (@registers_spec c variadic { free := regs } p args 0 hrule v hp).1
    simpa using this
  · obtain ⟨base, hbase⟩ := exists_slots hc hend 0 l.value
    exact ⟨(hbase l hl rfl o ho).size, (Int.natCast_nonneg _).trans (stack_bounds hc hend hl ho).1⟩
  · obtain ⟨base, hbase⟩ := exists_slots hc hend 0 l.value
    have hslot := hbase l hl rfl o ho
    rw [hslot.offset, hpart]
    have hdvd := hslot.align
    split at hdvd <;> rename_i hparts <;> simp only [hparts, if_true, if_false, halign,
      toInt_slotSize hc] <;> simpa using Int.natCast_dvd_natCast.2 hdvd
  · obtain ⟨base, hbase⟩ := exists_slots hc hend 0 l.value
    rw [(hbase l hl rfl o ho).offset, (hbase l' hl' hval.symm o' ho').offset,
      toInt_slotSize hc, Int.sub_mul]
    omega
  · rw [hbytes, halign]
    exact Int.natCast_dvd_natCast.2 dvd_roundUp
  · rw [hbytes]
    exact (stack_bounds hc hend hl ho).2.trans (by exact_mod_cast le_roundUp (alignBytes_pos hc))
  · have hle := finalUse_le hc hrule hend hm0 hall
    lift m to Nat using hm0
    rw [halign] at hm
    rw [hbytes]
    exact_mod_cast roundUp_le (alignBytes_pos hc) (by exact_mod_cast hle)
      (Int.natCast_dvd_natCast.1 hm)

end Room

/-! ### Return values -/

/-- The parts of values of these types find registers, each value those that the earlier ones have
left. -/
def FitIn : List Register → List ValueType → Prop
  | _, [] => True
  | regs, vt :: vts => (partsOf vt).length ≤ regs.length ∧
      FitIn (regs.filter (· ∉ regs.take (partsOf vt).length)) vts

/-- Return values as arguments. -/
def asPassed (vts : List ValueType) : List Passed := vts.map fun vt => { type := vt }

namespace FitIn

variable {regs : List Register} {vt : ValueType} {vts : List ValueType}

theorem takesRegisters (h : FitIn regs (vt :: vts)) :
    Room.takesRegisters c false { free := regs } { type := vt } = true :=
  Room.takesRegisters_iff.2 ⟨rfl, h.1⟩

theorem after (h : FitIn regs (vt :: vts)) : Room.after c false { free := regs } { type := vt } =
    { free := regs.filter (· ∉ regs.take (partsOf vt).length) } := if_pos h.takesRegisters

theorem finalUse (h : FitIn regs vts) :
    Room.finalUse c false { free := regs } (asPassed vts) = 0 := by
  induction vts generalizing regs with
  | nil => rfl
  | cons vt vts ih =>
    show Room.finalUse c false (Room.after c false { free := regs } { type := vt })
      (asPassed vts) = 0
    rw [h.after]
    exact ih h.2

theorem registers (h : FitIn regs vts) {i : Nat} {l : Location}
    (hl : l ∈ Room.locations c false { free := regs } i (asPassed vts)) :
    ∃ r, l.place = .register r := by
  induction vts generalizing regs i with
  | nil => cases hl
  | cons vt vts ih =>
    rcases List.mem_append.1 hl with hl | hl
    · rw [Room.passage_of_takes h.takesRegisters] at hl
      exact Passage.mem_registers hl
    · rw [h.after] at hl
      exact ih h.2 hl

theorem results (hrule : ∀ vt ∈ vts, (partTypes? vt).isSome) {a : Assignment} (h : FitIn a.free vts)
    (count i : Nat) : ∃ a' : Assignment,
      (vts.zipIdx i).foldlM (fun a (vt, i) => a.result c count i vt) a = .ok a' ∧
        a'.locations = a.locations ++ Room.locations c false { free := a.free } i
        (asPassed vts) := by
  induction vts generalizing a i with
  | nil => exact ⟨a, rfl, by simp [asPassed, Room.locations]⟩
  | cons vt vts ih =>
    obtain ⟨parts, hparts⟩ := Option.isSome_iff_exists.1 (hrule vt (by simp))
    have hof : partsOf vt = parts := by rw [partsOf, hparts, Option.getD_some]
    have hresult : a.result c count i vt = .ok (a.inRegisters i parts a.free) := by
      rw [Assignment.result, hparts]
      exact if_pos (hof ▸ h.1)
    have hfree : (a.inRegisters i parts a.free).free = _ := Assignment.Leaves.free_inRegisters a
    obtain ⟨a', ha', hlocs⟩ :=
      @ih (fun w hw => hrule w (by simp [hw])) (a.inRegisters i parts a.free)
      (by rw [hfree, ← hof]; exact h.2) (i + 1)
    refine ⟨a', ?_, ?_⟩
    · rw [List.zipIdx_cons, List.foldlM_cons]
      dsimp only
      rw [hresult]
      exact ha'
    · show a'.locations = a.locations ++
        Room.locations c false { free := a.free } i ({ type := vt } :: asPassed vts)
      rw [hlocs, hfree, Room.locations, h.after, Room.passage_of_takes h.takesRegisters,
        ← List.append_assoc]
      congr 1
      · show a.locations ++ _ = a.locations ++ _
        rw [List.zip_eq_zip_take_min, Nat.min_eq_left (hof ▸ h.1), List.take_length, hof]
        rfl
      · rw [hof]

end FitIn

theorem fitIn_of_results {vts : List ValueType} {a a' : Assignment} {count i : Nat}
    (h : (vts.zipIdx i).foldlM (fun a (vt, i) => a.result c count i vt) a = .ok a') :
    (∀ vt ∈ vts, (partTypes? vt).isSome) ∧ FitIn a.free vts := by
  induction vts generalizing a i with
  | nil => exact ⟨by simp, trivial⟩
  | cons vt vts ih =>
    rw [List.zipIdx_cons, List.foldlM_cons, bind_eq_ok] at h
    obtain ⟨a₁, h₁, h⟩ := h
    obtain ⟨parts, hparts, rfl, hle⟩ := Assignment.result_eq_ok h₁
    have hof : partsOf vt = parts := by rw [partsOf, hparts, Option.getD_some]
    obtain ⟨hrule, hfit⟩ := ih h
    rw [Assignment.Leaves.free_inRegisters] at hfit
    refine ⟨fun w hw => ?_, by rw [FitIn, hof]; exact ⟨hle, hfit⟩⟩
    rcases List.mem_cons.1 hw with rfl | hw
    · simp [hparts]
    · exact hrule w hw

theorem sequenceResults_eq (hconv : d.convention cc = .ok c) {vts : List ValueType}
    (hrule : ∀ vt ∈ vts, (partTypes? vt).isSome) (h : FitIn (d.returnRegisters c) vts) :
    sequenceResults d cc vts =
      .ok (Room.locations c false { free := d.returnRegisters c } 0 (asPassed vts)) := by
  have hfree : Assignment.free { registers := d.returnRegisters c } = d.returnRegisters c := by
    simp [Assignment.free]
  obtain ⟨a, ha, hlocs⟩ := FitIn.results (c := c) (a := { registers := d.returnRegisters c }) hrule
    (hfree.symm ▸ h) vts.length 0
  rw [hfree] at hlocs
  unfold sequenceResults conventionOf
  rw [hconv]
  simp only [bind, Except.bind, pure, Except.pure, ha, hlocs]
  rfl

theorem roundUp_zero {a : Nat} (ha : 0 < a) : roundUp 0 a = 0 :=
  Nat.le_zero.1 (roundUp_le ha (Nat.le_refl 0) (Nat.dvd_zero a))

/-- Arguments over types that are passed at all get places of the documented shape. Return values
get places exactly if they fit, and these are registers. -/
theorem sequencing_shape {k : Subtarget.Codec} {text : String} (h : k.parse text = .ok d)
    (cc : CallConv) : (∀ c variadic args, d.convention cc = .ok c →
      (∀ p ∈ args, (partTypes? p.type).isSome) → areaSize d c variadic args < 2 ^ 63 →
      ∃ ls bytes, sequenceArguments d cc variadic args = .ok (ls, bytes) ∧
        Sequenced c (d.argRegisters c) variadic args ls bytes) ∧
    ∀ vts, ((sequenceResults d cc vts).isOk ↔ ∃ c, d.convention cc = .ok c ∧
        (∀ vt ∈ vts, (partTypes? vt).isSome) ∧ FitIn (d.returnRegisters c) vts) ∧
      ∀ c ls, d.convention cc = .ok c → sequenceResults d cc vts = .ok ls →
        Sequenced c (d.returnRegisters c) false (asPassed vts) ls 0 ∧ ∀ l ∈ ls, ∃ r, l.place =
        .register r := by
  have hfits : ∀ c vts ls, d.convention cc = .ok c → sequenceResults d cc vts = .ok ls →
      (∀ vt ∈ vts, (partTypes? vt).isSome) ∧ FitIn (d.returnRegisters c) vts := by
    intro c vts ls hconv hls
    obtain ⟨c', a, hconv', ha, -⟩ := sequenceResults_eq_ok hls
    obtain rfl : c = c' := Except.ok.inj (hconv.symm.trans hconv')
    simpa [Assignment.free] using fitIn_of_results ha
  refine ⟨fun c variadic args hconv hrule hfit => ?_, fun vts => ⟨⟨fun hok => ?_, ?_⟩, ?_⟩⟩
  · have hc := Description.regular_of_parse h hconv
    exact ⟨_, _, sequenceArguments_eq hc hconv hrule hfit, Room.sequenced hc hrule hfit⟩
  · obtain ⟨ls, hls⟩ : ∃ ls, sequenceResults d cc vts = .ok ls := by
      cases hs : sequenceResults d cc vts with
      | error e => simp [hs, Except.isOk, Except.toBool] at hok
      | ok ls => exact ⟨ls, rfl⟩
    obtain ⟨c, -, hconv, -⟩ := sequenceResults_eq_ok hls
    exact ⟨c, hconv, hfits c vts ls hconv hls⟩
  · rintro ⟨c, hconv, hrule, hfit⟩
    rw [sequenceResults_eq hconv hrule hfit]
    rfl
  · intro c ls hconv hls
    have hc := Description.regular_of_parse h hconv
    obtain ⟨hrule, hfit⟩ := hfits c vts ls hconv hls
    obtain rfl := Except.ok.inj (hls.symm.trans (sequenceResults_eq hconv hrule hfit))
    have hbytes : roundUp (Room.finalUse c false { free := d.returnRegisters c } (asPassed vts))
        (alignBytes c) = 0 := by
      rw [hfit.finalUse, roundUp_zero (alignBytes_pos hc)]
    have hseq := Room.sequenced hc (by simpa [asPassed] using hrule) (hbytes.trans_lt (by norm_num))
    rw [hbytes] at hseq
    exact ⟨hseq, fun l hl => hfit.registers hl⟩

/-- A machine with three registers for arguments. -/
def threeText : String :=
  "registers: [a, b, c, s]\nstackPointer: s\nframePointer: s\nlinkRegister: s\nconventions:\n" ++
    "- args: [a, b, c]\n  returns: [a, b]\n  varargsOnStack: true\n"

def threeConvention : Convention where
  args := ["a", "b", "c"]
  returns := ["a", "b"]
  slotSize := 4
  stackAlign := 8
  varargsOnStack := true

def threeMachine : Description where
  schema := "v1.0.0"
  pointerBits := 32
  stackAlign := 8
  registers := ["a", "b", "c", "s"]
  stackPointer := "s"
  framePointer := "s"
  linkRegister := "s"
  addressing := { maxScale := 1 }
  conventions := [threeConvention]

theorem parse_threeText : Description.parse threeText = .ok threeMachine :=
  Description.parse_of_isReadFrom (by decide +kernel)

/-- A variadic call whose second argument finds one register and leaves it. -/
def threeArguments : List Passed :=
  [{ type := .i64 }, { type := .i64 }, { type := .i32 }, { type := .f64, fixed := false }]

theorem areaSize_threeArguments :
    areaSize threeMachine threeConvention true threeArguments < 2 ^ 63 := by
  decide +kernel

theorem sequenceArguments_three : ∃ ls bytes,
    sequenceArguments threeMachine .c true threeArguments = .ok (ls, bytes) := by
  have hconv : threeMachine.convention .c = .ok threeConvention := rfl
  exact ⟨_, _, sequenceArguments_eq (Description.regular_of_parse parse_threeText hconv)
    hconv (by decide) areaSize_threeArguments⟩

theorem sequencing_shape_three : (∃ ls bytes,
      sequenceArguments threeMachine .c true threeArguments = .ok (ls, bytes) ∧
        Sequenced threeConvention (threeMachine.argRegisters threeConvention) true
        threeArguments ls bytes) ∧
    ((sequenceResults threeMachine .c [.i64]).isOk ↔ ∃ c, threeMachine.convention .c = .ok c ∧
      (∀ vt ∈ [ValueType.i64], (partTypes? vt).isSome) ∧
      FitIn (threeMachine.returnRegisters c) [.i64]) := by
  obtain ⟨hargs, hresults⟩ := sequencing_shape parse_threeText .c
  exact ⟨hargs threeConvention true threeArguments rfl (by decide) areaSize_threeArguments,
    (hresults [.i64]).1⟩

/-! ### Parts share no place -/

/-- Parts have places of their own if the convention names no register twice and a slot holds a
word. -/
theorem parts_apart {k : Subtarget.Codec} {text : String} (h : k.parse text = .ok d)
    (hconv : d.convention cc = .ok c) {args : List Passed} {ls : List Location} {bytes : Int64}
    (hseq : sequenceArguments d cc variadic args = .ok (ls, bytes))
    (hfit : areaSize d c variadic args < 2 ^ 63) :
    ((d.argRegisters c).Nodup →
      ls.Pairwise fun l l' => ∀ r, l.place = .register r → l'.place ≠ .register r) ∧
    (4 ≤ c.slotSize.toInt →
      (ls.Pairwise fun l l' => ∀ o o', l.place = .stack o → l'.place = .stack o' →
        o.toInt + 4 ≤ o'.toInt ∨ o'.toInt + 4 ≤ o.toInt) ∧
      ∀ l ∈ ls, ∀ o, l.place = .stack o → 0 ≤ o.toInt ∧ o.toInt + 4 ≤ bytes.toInt) := by
  have hc := Description.regular_of_parse h hconv
  have hrule := (sequenceArguments_words hseq).2
  obtain ⟨rfl, rfl⟩ := Prod.mk.inj
    (Except.ok.inj (hseq.symm.trans (sequenceArguments_eq hc hconv hrule hfit)))
  have hshape : Sequenced c (d.argRegisters c) variadic args _
    (Int64.ofNat (areaSize d c variadic args)) := Room.sequenced hc hrule hfit
  refine ⟨fun hnodup => ?_, fun hslot => ⟨?_, fun l hl o ho => ?_⟩⟩
  · have hregs := List.pairwise_filterMap.1 (hnodup.sublist hshape.listOrder)
    refine hregs.imp fun hne r hl hl' => hne r ?_ r ?_ rfl
    · exact Location.register?_eq_some.2 hl
    · exact Location.register?_eq_some.2 hl'
  · refine hshape.increasing.imp fun hle o o' ho ho' => .inl ?_
    have := hle o o' ho ho'
    omega
  · have := hshape.covers l hl o ho
    exact ⟨(hshape.slot l hl o ho).2, by omega⟩

theorem parts_apart_three : ∃ ls bytes, sequenceArguments threeMachine .c true threeArguments =
    .ok (ls, bytes) ∧ (ls.Pairwise fun l l' => ∀ r, l.place = .register r →
      l'.place ≠ .register r) ∧
    (ls.Pairwise fun l l' => ∀ o o', l.place = .stack o → l'.place = .stack o' →
      o.toInt + 4 ≤ o'.toInt ∨ o'.toInt + 4 ≤ o.toInt) ∧
    ∀ l ∈ ls, ∀ o, l.place = .stack o → 0 ≤ o.toInt ∧ o.toInt + 4 ≤ bytes.toInt := by
  obtain ⟨ls, bytes, hseq⟩ := sequenceArguments_three
  obtain ⟨hregs, hslots⟩ := parts_apart parse_threeText rfl hseq areaSize_threeArguments
  exact ⟨ls, bytes, hseq, hregs (by decide +kernel), hslots (by decide)⟩

/-- A machine whose convention names a register twice and has slots of two bytes. -/
def crampedText : String :=
  "registers: [a, s]\nstackPointer: s\nframePointer: s\nlinkRegister: s\nconventions:\n" ++
    "- args: [a, a]\n  slotSize: 2\n"

def crampedMachine : Description where
  schema := "v1.0.0"
  pointerBits := 32
  stackAlign := 8
  registers := ["a", "s"]
  stackPointer := "s"
  framePointer := "s"
  linkRegister := "s"
  addressing := { maxScale := 1 }
  conventions := [{ args := ["a", "a"], slotSize := 2, stackAlign := 8 }]

/-- Both parts of the first value are in one register, and the slots of the second overlap. -/
theorem parts_share_places : Description.parse crampedText = .ok crampedMachine ∧
    ∃ ls, sequenceArguments crampedMachine .c false [{ type := .i64 }, { type := .i64 }] =
    .ok (ls, 8) ∧
      ls.map (·.place) = [.register ⟨1⟩, .register ⟨1⟩, .stack 0, .stack 2] := by
  refine ⟨Description.parse_of_isReadFrom (by decide +kernel), _, rfl, by decide +kernel⟩

/-! ### Later arguments do not move earlier ones -/

theorem isForced_of_fixed {p : Passed} (h : p.fixed = true) (v : Bool) :
    isForced c v p = false := by
  simp [isForced, h]

theorem foldlM_argument_fixed {xs : List Passed} (hx : ∀ p ∈ xs, p.fixed = true) (v w : Bool)
    (a : Assignment) (i : Nat) : (xs.zipIdx i).foldlM (fun a (p, i) => a.argument c v i p) a =
      (xs.zipIdx i).foldlM (fun a (p, i) => a.argument c w i p) a := by
  induction xs generalizing a i with
  | nil => rfl
  | cons p xs ih =>
    have hp : a.argument c v i p = a.argument c w i p := by
      simp [Assignment.argument, hx p (by simp)]
    rw [List.zipIdx_cons, List.foldlM_cons, List.foldlM_cons]
    dsimp only
    rw [hp]
    congr 1
    funext a'
    exact ih (fun q hq => hx q (by simp [hq])) a' (i + 1)

theorem foldl_after_fixed {xs : List Passed} (hx : ∀ p ∈ xs, p.fixed = true) (v w : Bool)
    (room : Room) : xs.foldl (Room.after c v) room = xs.foldl (Room.after c w) room := by
  induction xs generalizing room with
  | nil => rfl
  | cons p xs ih =>
    have hp : room.after c v p = room.after c w p := by
      simp only [Room.after, Room.takesRegisters, isForced_of_fixed (hx p (by simp))]
    rw [List.foldl_cons, List.foldl_cons, hp]
    exact ih (fun q hq => hx q (by simp [hq])) _

theorem areaSize_le_append (hc : c.Regular) {xs ys : List Passed} (hx : ∀ p ∈ xs, p.fixed = true)
    (v w : Bool) : areaSize d c w xs ≤ areaSize d c v (xs ++ ys) := by
  refine roundUp_mono (alignBytes_pos hc) ?_
  rw [Room.finalUse_append, Room.finalUse, foldl_after_fixed hx w v]
  exact Room.used_le_finalUse hc

theorem value_of_arguments {a a' : Assignment} {ps : List Passed} {i : Nat}
    (h : (ps.zipIdx i).foldlM (fun a (p, i) => a.argument c variadic i p) a = .ok a') :
    ∃ ls, a'.locations = a.locations ++ ls ∧ ∀ l ∈ ls, i ≤ l.value ∧ l.value < i + ps.length := by
  obtain ⟨placed, hlocs, hplaced⟩ :=
    Assignment.placed_of_foldlM (fun p : Passed => p.type) Assignment.argument_placed h
  refine ⟨_, hlocs, fun l hl => ?_⟩
  obtain ⟨pl, hpl, hl⟩ := List.mem_flatten.1 hl
  obtain ⟨q, hq, parts, -, hp⟩ := exists_left_of_forall₂ hplaced hpl
  rw [hp.value l hl]
  exact ⟨List.le_snd_of_mem_zipIdx
    hq, by simpa [Nat.add_comm] using List.snd_lt_add_of_mem_zipIdx hq⟩

/-- Declared arguments have the same places whatever follows them, and whether or not the call is
variadic. -/
theorem leading_arguments_stay {k : Subtarget.Codec} {text : String} (h : k.parse text = .ok d)
    {xs ys : List Passed} (hx : ∀ p ∈ xs, p.fixed = true) {ls : List Location} {bytes : Int64}
    (hseq : sequenceArguments d cc variadic (xs ++ ys) = .ok (ls, bytes)) (w : Bool) :
    ∃ ls' bytes', sequenceArguments d cc w xs = .ok (ls', bytes') ∧
      ls' = ls.filter (·.value < xs.length) ∧ (∃ rest, ls = ls' ++ rest) ∧
      ∀ c, d.convention cc = .ok c → areaSize d c variadic (xs ++ ys) < 2 ^ 63 →
        bytes'.toInt ≤ bytes.toInt := by
  obtain ⟨c, a, hconv, ha, rfl, rfl⟩ := sequenceArguments_eq_ok hseq
  have hc := Description.regular_of_parse h hconv
  rw [List.zipIdx_append, List.foldlM_append, foldlM_argument_fixed hx variadic w] at ha
  obtain ⟨a₁, ha₁, ha⟩ := bind_eq_ok.1 ha
  obtain ⟨ls₁, hls₁, hlt⟩ := value_of_arguments ha₁
  obtain ⟨ls₂, hls₂, hge⟩ := value_of_arguments ha
  have hseq₁ : sequenceArguments d cc w xs =
      .ok (a₁.locations, alignTo a₁.offset c.stackAlign) := by
    unfold sequenceArguments conventionOf
    rw [hconv]
    simp only [bind, Except.bind, pure, Except.pure, ha₁]
  refine ⟨_, _, hseq₁, ?_, ⟨ls₂, hls₂⟩, fun c' hconv' hfit => ?_⟩
  · rw [hls₂, List.filter_append, List.filter_eq_self.2, List.filter_eq_nil_iff.2, List.append_nil]
    · intro l hl
      have := (hge l hl).1
      simp only [decide_eq_true_eq]
      omega
    · intro l hl
      rw [hls₁] at hl
      simpa using (hlt l hl).2
  · obtain rfl : c = c' := Except.ok.inj (hconv.symm.trans hconv')
    have hle : areaSize d c w xs ≤ areaSize d c variadic (xs ++ ys) :=
      areaSize_le_append hc hx variadic w
    have hrule := (sequenceArguments_words hseq).2
    obtain ⟨-, hbytes⟩ := Prod.mk.inj
      (Except.ok.inj (hseq.symm.trans (sequenceArguments_eq hc hconv hrule hfit)))
    obtain ⟨-, hbytes₁⟩ :=
      Prod.mk.inj (Except.ok.inj
      (hseq₁.symm.trans (sequenceArguments_eq hc hconv
      (fun p hp => hrule p (List.mem_append_left _ hp)) (hle.trans_lt hfit))))
    rw [hbytes, hbytes₁, Int64.toInt_ofNat_of_lt hfit, Int64.toInt_ofNat_of_lt (hle.trans_lt hfit)]
    exact_mod_cast hle

theorem leading_arguments_stay_three : ∃ ls bytes ls' bytes',
    sequenceArguments threeMachine .c true threeArguments = .ok (ls, bytes) ∧
      sequenceArguments threeMachine .c false (threeArguments.take 3) = .ok (ls', bytes') ∧
      ls' = ls.filter (·.value < 3) ∧ bytes'.toInt ≤ bytes.toInt := by
  obtain ⟨ls, bytes, hseq⟩ := sequenceArguments_three
  have hsplit : sequenceArguments threeMachine .c true
    (threeArguments.take 3 ++ threeArguments.drop 3) = .ok (ls, bytes) := hseq
  obtain ⟨ls', bytes', hseq', hls, -, hle⟩ :=
    leading_arguments_stay parse_threeText (by decide) hsplit false
  exact ⟨ls, bytes, ls', bytes', hseq, hseq', hls, hle threeConvention rfl areaSize_threeArguments⟩

end GraphLowering.Usim
