import GraphLowering.Graph.Frame
import Mathlib.Algebra.Ring.Int.Defs
import Mathlib.Algebra.Ring.Nat
import Mathlib.Data.List.Forall2

/-!
# Objects of a frame

A frame numbers its fixed objects downwards from -1 and its local objects upwards from 0, in order
of creation. The ordered set, the list and the map of a frame agree on what was created (`Holds`),
whatever the offsets are and in whatever order they come. Among the fixed objects at an offset the
newest has the lowest index, and so it is the first one that the search from the pivot meets, as
long as the pivot is below all indices. `created_consistent` says so of the frame that any sequence
of calls makes.
-/

namespace GraphLowering

/-- A call that creates an object. -/
inductive Creation where
  | fixed (size offset : Int64) (immutable : Bool)
  | stack (size align : Int64)
deriving DecidableEq

namespace Creation

/-- The frame after a call and the index that the call returns. -/
def apply (f : Frame) : Creation → Frame × Int
  | fixed size offset immutable => f.createFixed size offset immutable
  | stack size align => f.createLocal size align

/-- What a call asks for, with an index. -/
def object (index : Int) : Creation → FrameObject
  | fixed size offset immutable => { index, size, align := size, offset, fixed := true, immutable }
  | stack size align => { index, size, align }

/-- The end of a fixed object is a number of 64 bits. -/
def Fits : Creation → Prop
  | fixed size offset _ => -2 ^ 63 ≤ offset.toInt + size.toInt ∧ offset.toInt + size.toInt < 2 ^ 63
  | stack _ _ => True

end Creation

namespace Frame

open Creation (object)

/-- The frame after calls, and the objects they ask for with the indices they return. -/
def create (f : Frame) : List Creation → Frame × List FrameObject
  | [] => (f, [])
  | c :: rest =>
    let (f', index) := c.apply f
    let (last, objects) := f'.create rest
    (last, c.object index :: objects)

/-- The containers of a frame have the objects that were made, which are numbered. -/
structure Holds (f : Frame) (made : List FrameObject) : Prop where
  fixed : f.fixed.toList.Perm (made.filter (·.fixed))
  locals : f.locals = made.filter (!·.fixed)
  byIndex : ∀ i o, f.object? i = some o ↔ o ∈ made ∧ o.index = i
  fixedNumbers : ∀ (k : Nat) o, (made.filter (·.fixed))[k]? = some o → o.index = -((k : Int) + 1)
  localNumbers : ∀ (k : Nat) o, (made.filter (!·.fixed))[k]? = some o → o.index = k

variable {f : Frame} {made : List FrameObject} {o x : FrameObject}

/-- An object that is before or behind each of a list is put among them, and takes no place. -/
theorem perm_putInto {l : List FrameObject} (h : ∀ x ∈ l, o.less x ∨ x.less o) :
    (ObjectSet.putInto o l).Perm (o :: l) := by
  induction l with
  | nil => exact .refl _
  | cons x rest ih =>
    rw [ObjectSet.putInto]
    split
    · exact .refl _
    · rename_i hox
      rw [if_pos ((h x List.mem_cons_self).resolve_left hox)]
      exact ((ih fun y hy => h y (List.mem_cons_of_mem _ hy)).cons x).trans (.swap o x rest)

theorem mem_of_fixedAt? {offset : Int64} (h : f.fixedAt? offset = some o) : o ∈ f.fixed.toList :=
  List.mem_of_find?_eq_some (Option.filter_eq_some_iff.1 h).1

namespace Holds

theorem empty : Holds {} [] := ⟨.refl _, rfl, by simp [object?], by simp, by simp⟩

theorem mem_fixed (h : f.Holds made) : o ∈ f.fixed.toList ↔ o ∈ made ∧ o.fixed := by
  rw [h.fixed.mem_iff, List.mem_filter]

theorem size_fixed (h : f.Holds made) : f.fixed.size = (made.filter (·.fixed)).length :=
  h.fixed.length_eq

/-- Indices are among those that were given out. -/
theorem index_between (h : f.Holds made) (ho : o ∈ made) :
    -(f.fixed.size : Int) ≤ o.index ∧ o.index < f.locals.length := by
  cases hf : o.fixed with
  | true =>
    obtain ⟨k, hk⟩ := List.mem_iff_getElem?.1 (List.mem_filter (p := (·.fixed)).2 ⟨ho, hf⟩)
    have hlt := (List.getElem?_eq_some_iff.1 hk).1
    rw [h.fixedNumbers k o hk, h.size_fixed]
    omega
  | false =>
    obtain ⟨k, hk⟩ := List.mem_iff_getElem?.1
      (List.mem_filter (p := (!·.fixed)).2 ⟨ho, by simp [hf]⟩)
    have hlt := (List.getElem?_eq_some_iff.1 hk).1
    rw [h.localNumbers k o hk, h.locals]
    omega

theorem numbered_concat {l : List FrameObject} (number : Nat → Int)
    (h : ∀ (k : Nat) o, l[k]? = some o → o.index = number k) (hx : x.index = number l.length)
    (k : Nat) (o : FrameObject) (ho : (l ++ [x])[k]? = some o) : o.index = number k := by
  rw [List.getElem?_append] at ho
  split at ho
  · exact h k o ho
  · obtain ⟨hk, rfl⟩ : k = l.length ∧ x = o := by
      have hlt := (List.getElem?_eq_some_iff.1 ho).1
      rw [List.length_singleton] at hlt
      obtain rfl : k = l.length := by omega
      simpa using ho
    rw [hx, hk]

theorem byIndex_cons (h : f.Holds made) (hnew : ∀ y ∈ made, y.index ≠ x.index) {f' : Frame}
    (hf : f'.byIndex = (x.index, x) :: f.byIndex) (i : Int) (o : FrameObject) :
    f'.object? i = some o ↔ o ∈ made ++ [x] ∧ o.index = i := by
  rw [object?, hf, List.lookup_cons, List.mem_append, List.mem_singleton]
  by_cases hi : i = x.index
  · subst hi
    simp only [beq_self_eq_true, Option.some.injEq]
    refine ⟨fun he => he ▸ ⟨.inr rfl, rfl⟩, fun ⟨ho, he⟩ => ?_⟩
    rcases ho with ho | rfl
    · exact absurd he (hnew o ho)
    · rfl
  · rw [beq_eq_false_iff_ne.2 hi]
    refine (h.byIndex i o).trans ⟨fun ⟨ho, he⟩ => ⟨.inl ho, he⟩, fun ⟨ho, he⟩ => ?_⟩
    rcases ho with ho | rfl
    · exact ⟨ho, he⟩
    · exact absurd he.symm hi

theorem apply (h : f.Holds made) (c : Creation) :
    (c.apply f).1.Holds (made ++ [c.object (c.apply f).2]) := by
  cases c with
  | fixed size offset immutable =>
    have hindex : ∀ y ∈ made, y.index ≠ -((f.fixed.size : Int) + 1) := by
      intro y hy
      have := h.index_between hy
      omega
    refine ⟨?_, by simpa [Creation.apply, createFixed, object] using h.locals,
      h.byIndex_cons hindex rfl, ?_, by simpa [Creation.apply, object] using h.localNumbers⟩
    · have hput : (Creation.apply f (.fixed size offset immutable)).1.fixed.toList.Perm _ :=
        perm_putInto fun y hy => ?_
      · simp only [List.filter_append, List.filter_cons, object, if_true, List.filter_nil]
        exact hput.trans ((h.fixed.cons _).trans (List.perm_append_singleton ..).symm)
      · have hne := hindex y (h.mem_fixed.1 hy).1
        simp only [FrameObject.less_iff, Int64.lt_iff_toInt_lt, ← Int64.toInt_inj]
        omega
    · simp only [List.filter_append, List.filter_cons, object, if_true, List.filter_nil]
      exact numbered_concat (fun k => -((k : Int) + 1)) h.fixedNumbers
        (by rw [← h.size_fixed]; rfl)
  | stack size align =>
    have hindex : ∀ y ∈ made, y.index ≠ (f.locals.length : Int) := by
      intro y hy
      have := h.index_between hy
      omega
    refine ⟨by simpa [Creation.apply, createLocal, object] using h.fixed, ?_,
      h.byIndex_cons hindex rfl, by simpa [Creation.apply, object] using h.fixedNumbers, ?_⟩
    · simp [Creation.apply, createLocal, object, h.locals]
    · simp only [List.filter_append, List.filter_cons, object, Bool.not_false, if_true,
        List.filter_nil]
      exact numbered_concat (fun k => (k : Int)) h.localNumbers (by rw [← h.locals]; rfl)

/-- A run of calls keeps them in agreement. -/
theorem create (h : f.Holds made) (calls : List Creation) :
    (f.create calls).1.Holds (made ++ (f.create calls).2) := by
  induction calls generalizing f made with
  | nil => simpa [Frame.create] using h
  | cons c rest ih => simpa [Frame.create] using ih (h.apply c)

/-- The search from the pivot finds the lowest index at an offset. -/
theorem fixedAt?_eq_some (h : f.Holds made) (hsize : f.fixed.size ≤ 2 ^ 31) {at₀ : Int64} :
    f.fixedAt? at₀ = some x ↔ x ∈ made ∧ x.fixed ∧ x.offset = at₀ ∧
      ∀ y ∈ made, y.fixed → y.offset = at₀ → x.index ≤ y.index := by
  -- nothing at the offset is before the pivot, so the first one from there on is the first one
  -- there
  have hpivot : ∀ {y}, y ∈ f.fixed.toList → y.offset = at₀ → y.less (pivot at₀) = false := by
    intro y hy hat
    have hlow := (h.index_between (h.mem_fixed.1 hy).1).1
    rw [Bool.eq_false_iff, ne_eq, FrameObject.less_iff]
    rintro (hlt | ⟨-, hlt⟩)
    · rw [hat] at hlt
      exact Int64.lt_irrefl hlt
    · have : (pivot at₀).index = -2147483648 := rfl
      omega
  rw [fixedAt?, Option.filter_eq_some_iff, ObjectSet.firstFrom?, List.find?_eq_some_iff_append]
  constructor
  · rintro ⟨⟨-, before, behind, hsplit, hbefore⟩, hat⟩
    have hat : x.offset = at₀ := by simpa using hat
    have hordered := f.fixed.ordered
    rw [hsplit, List.pairwise_append, List.pairwise_cons] at hordered
    have hmem : x ∈ f.fixed.toList := by simp [hsplit]
    refine ⟨(h.mem_fixed.1 hmem).1, (h.mem_fixed.1 hmem).2, hat, fun y hy hkind hyat => ?_⟩
    have hy' : y ∈ before ++ x :: behind := hsplit ▸ h.mem_fixed.2 ⟨hy, hkind⟩
    rcases List.mem_append.1 hy' with hy' | hy'
    · have := hbefore y hy'
      rw [hpivot (h.mem_fixed.2 ⟨hy, hkind⟩) hyat] at this
      cases this
    · rcases List.mem_cons.1 hy' with rfl | hy'
      · exact Int.le_refl _
      · rcases FrameObject.less_iff.1 (hordered.2.1.1 y hy') with hlt | ⟨-, hlt⟩
        · rw [hat, hyat] at hlt
          exact absurd hlt Int64.lt_irrefl
        · exact Int.le_of_lt hlt
  · rintro ⟨hmade, hkind, hat, hleast⟩
    have hmem := h.mem_fixed.2 ⟨hmade, hkind⟩
    obtain ⟨before, behind, hsplit⟩ := List.append_of_mem hmem
    refine ⟨⟨by simp [hpivot hmem hat], before, behind, hsplit, fun y hy => ?_⟩, by simpa using hat⟩
    have hordered := f.fixed.ordered
    rw [hsplit, List.pairwise_append] at hordered
    have hless := hordered.2.2 y hy x List.mem_cons_self
    have hy' : y ∈ f.fixed.toList := by simp [hsplit, hy]
    -- what is before `x` has a lower offset
    rcases FrameObject.less_iff.1 hless with hlt | ⟨heq, hlt⟩
    · simp only [Bool.not_not, FrameObject.less_iff]
      exact .inl (hat ▸ hlt)
    · have := hleast y (h.mem_fixed.1 hy').1 (h.mem_fixed.1 hy').2 (heq.trans hat)
      omega

theorem exists_least (h : f.Holds made) {at₀ : Int64} (hx : x ∈ made ∧ x.fixed ∧ x.offset = at₀) :
    ∃ x, x ∈ made ∧ x.fixed ∧ x.offset = at₀ ∧ ∀ y ∈ made, y.fixed → y.offset = at₀ →
    x.index ≤ y.index := by
  obtain ⟨y, hy⟩ := Option.isSome_iff_exists.1
    (List.find?_isSome (p := (·.offset = at₀)) |>.2
      ⟨x, h.mem_fixed.2 ⟨hx.1, hx.2.1⟩, by simp [hx.2.2]⟩)
  obtain ⟨hat, before, behind, hsplit, hbefore⟩ := List.find?_eq_some_iff_append.1 hy
  have hat : y.offset = at₀ := by simpa using hat
  have hmem := h.mem_fixed.1 (by simp [hsplit] : y ∈ f.fixed.toList)
  have hordered := f.fixed.ordered
  rw [hsplit, List.pairwise_append, List.pairwise_cons] at hordered
  refine ⟨y, hmem.1, hmem.2, hat, fun z hz hkind hzat => ?_⟩
  have hz' : z ∈ before ++ y :: behind := hsplit ▸ h.mem_fixed.2 ⟨hz, hkind⟩
  rcases List.mem_append.1 hz' with hz' | hz'
  · simpa [hzat] using hbefore z hz'
  · rcases List.mem_cons.1 hz' with rfl | hz'
    · exact Int.le_refl _
    · rcases FrameObject.less_iff.1 (hordered.2.1.1 z hz') with hlt | ⟨-, hlt⟩
      · rw [hat, hzat] at hlt
        exact absurd hlt Int64.lt_irrefl
      · exact Int.le_of_lt hlt

end Holds

theorem forall₂_create (f : Frame) (calls : List Creation) :
    List.Forall₂ (fun c o => o = c.object o.index) calls (f.create calls).2 := by
  induction calls generalizing f with
  | nil => exact .nil
  | cons c rest ih => exact .cons (by cases c <;> rfl) (ih _)

theorem foldl_last (objects : List FrameObject) (start : Int64)
    (hfit : ∀ o ∈ objects, (o.offset + o.size).toInt = o.offset.toInt + o.size.toInt) :
    let last := objects.foldl (fun last o => if last < o.offset + o.size then o.offset +
        o.size else last) start
    start.toInt ≤ last.toInt ∧ (∀ o ∈ objects, o.offset.toInt + o.size.toInt ≤ last.toInt) ∧
      (last = start ∨ ∃ o ∈ objects, last.toInt = o.offset.toInt + o.size.toInt) := by
  induction objects generalizing start with
  | nil => simp
  | cons o rest ih =>
    have ho := hfit o List.mem_cons_self
    have hrest := fun o ho => hfit o (List.mem_cons_of_mem _ ho)
    rw [List.foldl_cons]
    split <;> rename_i hlt <;> rw [Int64.lt_iff_toInt_lt, ho] at hlt
    · obtain ⟨hstart, hall, hreached⟩ := ih _ hrest
      rw [ho] at hstart
      refine ⟨by omega, List.forall_mem_cons.2 ⟨hstart, hall⟩, .inr ?_⟩
      rcases hreached with heq | ⟨x, hx, heq⟩
      · exact ⟨o, List.mem_cons_self, by rw [heq, ho]⟩
      · exact ⟨x, List.mem_cons_of_mem _ hx, heq⟩
    · obtain ⟨hstart, hall, hreached⟩ := ih _ hrest
      refine ⟨hstart, List.forall_mem_cons.2 ⟨by omega, hall⟩, hreached.imp_right ?_⟩
      rintro ⟨x, hx, heq⟩
      exact ⟨x, List.mem_cons_of_mem _ hx, heq⟩

theorem toInt_end {c : Creation} (hfit : c.Fits) (ho : o = c.object o.index) (hfixed : o.fixed) :
    (o.offset + o.size).toInt = o.offset.toInt + o.size.toInt := by
  cases c with
  | fixed size offset immutable =>
    obtain ⟨hlow, hhigh⟩ := hfit
    rw [ho, object, Int64.toInt_add, Int.bmod_eq_of_le] <;> dsimp only <;> omega
  | stack size align =>
    rw [ho, object] at hfixed
    exact absurd hfixed Bool.false_ne_true

/-- In the frame that calls make, the objects of each kind are numbered in order, an index gives the
object created with it, the fixed objects are listed by offset and index, a search at an offset
gives the fixed object there with the lowest index, and the incoming area ends with the last of the
fixed objects. -/
theorem created_consistent (calls : List Creation) (hcount : calls.length < 2 ^ 31) :
    let f := (({} : Frame).create calls).1
    let made := (({} : Frame).create calls).2
    List.Forall₂ (fun c o => o = c.object o.index) calls made ∧
    (∀ (k : Nat) o, (made.filter (·.fixed))[k]? = some o → o.index = -((k : Int) + 1)) ∧
    (∀ (k : Nat) o, (made.filter (!·.fixed))[k]? = some o → o.index = k) ∧
    (∀ i o, f.object? i = some o ↔ o ∈ made ∧ o.index = i) ∧
    f.locals = made.filter (!·.fixed) ∧
    f.fixedByOffset.Perm (made.filter (·.fixed)) ∧
    (f.fixedByOffset.Pairwise fun a b => a.offset < b.offset ∨ a.offset = b.offset ∧
      a.index < b.index) ∧
    (∀ offset x, f.fixedAt? offset = some x ↔ x ∈ made ∧ x.fixed ∧ x.offset = offset ∧
      ∀ y ∈ made, y.fixed → y.offset = offset → x.index ≤ y.index) ∧
    (∀ offset, (f.fixedAt? offset).isSome ↔ ∃ x ∈ made, x.fixed ∧ x.offset = offset) ∧
    ((∀ c ∈ calls, c.Fits) → 0 ≤ f.incomingSize.toInt ∧
      (∀ o ∈ made, o.fixed → o.offset.toInt + o.size.toInt ≤ f.incomingSize.toInt) ∧
      (f.incomingSize.toInt = 0 ∨
        ∃ o ∈ made, o.fixed ∧ f.incomingSize.toInt = o.offset.toInt + o.size.toInt)) := by
  intro f made
  have hholds : f.Holds made := Holds.empty.create calls
  have hcalls : List.Forall₂ (fun c o => o = c.object o.index) calls made := forall₂_create _ calls
  have hsize : f.fixed.size ≤ 2 ^ 31 := by
    have hfilter := List.length_filter_le (·.fixed) made
    rw [← hholds.size_fixed, ← hcalls.length_eq] at hfilter
    omega
  refine ⟨hcalls, hholds.fixedNumbers, hholds.localNumbers, hholds.byIndex,
    hholds.locals, hholds.fixed, f.fixed.ordered.imp FrameObject.less_iff.1,
    fun offset x => hholds.fixedAt?_eq_some hsize,
    fun offset => ⟨fun hfound => ?_, fun ⟨x, hx⟩ => ?_⟩, fun hfits => ?_⟩
  · obtain ⟨x, hx⟩ := Option.isSome_iff_exists.1 hfound
    obtain ⟨hmade, hkind, hat, -⟩ := (hholds.fixedAt?_eq_some hsize).1 hx
    exact ⟨x, hmade, hkind, hat⟩
  · obtain ⟨y, hy⟩ := hholds.exists_least hx
    exact Option.isSome_iff_exists.2 ⟨y, (hholds.fixedAt?_eq_some hsize).2 hy⟩
  · have hfit : ∀ o ∈ f.fixed.toList, (o.offset + o.size).toInt = o.offset.toInt +
        o.size.toInt := by
      intro o ho
      obtain ⟨hmade, hkind⟩ := hholds.mem_fixed.1 ho
      obtain ⟨hlen, hget⟩ := List.forall₂_iff_get.1 hcalls
      obtain ⟨k, hk, rfl⟩ := List.mem_iff_getElem.1 hmade
      exact toInt_end (hfits _ (List.getElem_mem (by omega))) (hget k (by omega) hk) hkind
    obtain ⟨hpos, hall, hreached⟩ := foldl_last f.fixed.toList 0 hfit
    refine ⟨hpos, fun o ho hk => hall o (hholds.mem_fixed.2 ⟨ho, hk⟩), ?_⟩
    rcases hreached with heq | ⟨o, ho, heq⟩
    · exact .inl (congrArg Int64.toInt heq)
    · exact .inr ⟨o, (hholds.mem_fixed.1 ho).1, (hholds.mem_fixed.1 ho).2, heq⟩

/-- Two of the fixed objects share an offset; they come before one at a lower offset. -/
theorem created_consistent_shared :
    let calls := [.fixed 4 8 false, .stack 16 8, .fixed 8 8 true, .fixed 4 0 false]
    let f := (({} : Frame).create calls).1
    f.fixedAt? 8 = some
        { index := -2, size := 8, align := 8, offset := 8, fixed := true, immutable := true } ∧
      f.fixedByOffset.map (·.index) = [-3, -2, -1] ∧ f.incomingSize = 16 ∧
          0 ≤ f.incomingSize.toInt := by
  intro calls f
  obtain ⟨-, -, -, -, -, -, -, hat, -, hend⟩ := created_consistent calls (by decide)
  exact ⟨(hat 8 _).2 (by decide), by decide, by decide, (hend (by simp [calls, Creation.Fits])).1⟩

end Frame

end GraphLowering
