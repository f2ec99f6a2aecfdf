import GraphLowering.Text.Decimal

/-! # Stack frames

The stack objects of a function. Fixed objects lie at known offsets from the incoming stack pointer,
where the caller put arguments, and have negative indices; local objects have indices from zero. The
fixed objects are kept in an ordered set, the local ones in a list, and all of them in a map by index. -/

namespace GraphLowering

/-- Indices of objects are plain integers. -/
instance coeInt64Int : Coe Int64 Int := ⟨Int64.toInt⟩

structure FrameObject where
  index : Int
  size : Int64
  align : Int64
  offset : Int64 := 0
  fixed : Bool := false
  immutable : Bool := false
deriving DecidableEq, Repr, Inhabited

namespace FrameObject

/-- The order of fixed objects: by offset, and by index where offsets are the same. -/
def less (a b : FrameObject) : Bool :=
  if a.offset ≠ b.offset then a.offset < b.offset else a.index < b.index

variable {a b c : FrameObject}

theorem less_iff : a.less b ↔ a.offset < b.offset ∨ a.offset = b.offset ∧ a.index < b.index := by
  unfold less
  split
  · simp_all
  · rename_i h
    have h : a.offset = b.offset := by simpa using h
    simp [h, Int64.lt_irrefl]

theorem less_trans (hab : a.less b) (hbc : b.less c) : a.less c := by
  simp only [less_iff, Int64.lt_iff_toInt_lt, ← Int64.toInt_inj] at *
  omega

/-- What is not before another object and not behind it takes its place. -/
theorem less_of_same (hab : ¬ a.less b) (hba : ¬ b.less a) (hbc : b.less c) : a.less c := by
  simp only [less_iff, Int64.lt_iff_toInt_lt, ← Int64.toInt_inj] at *
  omega

def text (o : FrameObject) : String :=
  "idx=" ++ toString o.index ++ " size=" ++ Text.ofInt64 o.size ++ " align=" ++
    Text.ofInt64 o.align ++ " off=" ++ Text.ofInt64 o.offset ++ " fixed=" ++ toString o.fixed ++
    " imm=" ++ toString o.immutable

end FrameObject

/-- A set of objects, listed in their order. -/
structure ObjectSet where
  toList : List FrameObject
  ordered : toList.Pairwise (·.less ·)
deriving DecidableEq, Repr

namespace ObjectSet

def empty : ObjectSet := ⟨[], .nil⟩

instance : Inhabited ObjectSet := ⟨empty⟩

/-- Puts an object before the first one that it is less than, in place of one that is the same. -/
def putInto (o : FrameObject) : List FrameObject → List FrameObject
  | [] => [o]
  | x :: rest => if o.less x then o :: x :: rest else if x.less o then x :: putInto o rest else o :: rest

theorem mem_of_mem_putInto {o x : FrameObject} {l : List FrameObject} (h : x ∈ putInto o l) : x = o ∨ x ∈ l := by
  induction l with
  | nil => simpa [putInto] using h
  | cons y rest ih =>
    rw [putInto] at h
    split at h
    · simpa using h
    · split at h
      · rcases List.mem_cons.1 h with rfl | h
        · simp
        · exact (ih h).imp_right (List.mem_cons_of_mem _)
      · exact (List.mem_cons.1 h).imp_right (List.mem_cons_of_mem _)

theorem pairwise_putInto (o : FrameObject) {l : List FrameObject} (h : l.Pairwise (·.less ·)) :
    (putInto o l).Pairwise (·.less ·) := by
  induction l with
  | nil => simp [putInto]
  | cons x rest ih =>
    obtain ⟨hx, hrest⟩ := List.pairwise_cons.1 h
    rw [putInto]
    split <;> rename_i hox
    · refine List.pairwise_cons.2 ⟨fun y hy => ?_, h⟩
      rcases List.mem_cons.1 hy with rfl | hy
      · exact hox
      · exact FrameObject.less_trans hox (hx y hy)
    · split <;> rename_i hxo
      · refine List.pairwise_cons.2 ⟨fun y hy => ?_, ih hrest⟩
        rcases mem_of_mem_putInto hy with rfl | hy
        · exact hxo
        · exact hx y hy
      · exact List.pairwise_cons.2 ⟨fun y hy => FrameObject.less_of_same hox hxo (hx y hy), hrest⟩

/-- Inserts an object, in place of one that is neither before nor behind it. -/
def insert (s : ObjectSet) (o : FrameObject) : ObjectSet :=
  ⟨putInto o s.toList, pairwise_putInto o s.ordered⟩

def size (s : ObjectSet) : Nat := s.toList.length

/-- The first object that is not less than `pivot`. -/
def firstFrom? (s : ObjectSet) (pivot : FrameObject) : Option FrameObject :=
  s.toList.find? (!·.less pivot)

end ObjectSet

structure Frame where
  /-- The local objects in order of creation. -/
  locals : List FrameObject := []
  fixed : ObjectSet := .empty
  /-- All objects by index; a later entry stands before an earlier one. -/
  byIndex : List (Int × FrameObject) := []
  frameAddressTaken : Bool := false
  returnAddressTaken : Bool := false
  adjustsStack : Bool := false
  maxCallFrameSize : Int64 := 0
deriving DecidableEq, Repr, Inhabited

namespace Frame

/-- A new object at `offset` bytes above the incoming stack pointer, and its index. -/
def createFixed (f : Frame) (size offset : Int64) (immutable : Bool) : Frame × Int :=
  let index := -((f.fixed.size : Int) + 1)
  let o : FrameObject := { index, size, align := size, offset, fixed := true, immutable }
  ({ f with fixed := f.fixed.insert o, byIndex := (index, o) :: f.byIndex }, index)

def createLocal (f : Frame) (size align : Int64) : Frame × Int :=
  let index : Int := f.locals.length
  let o : FrameObject := { index, size, align }
  ({ f with locals := f.locals ++ [o], byIndex := (index, o) :: f.byIndex }, index)

def object? (f : Frame) (index : Int) : Option FrameObject := f.byIndex.lookup index

def isFixed (f : Frame) (index : Int) : Bool := (f.object? index).any (·.fixed)

/-- The complaint about an index without an object. -/
def noObjectMessage (index : Int) : String := "dag: no frame object " ++ toString index

/-- Where the search for an object at `offset` begins: below all indices of 32 bits. -/
def pivot (offset : Int64) : FrameObject := { index := -2147483648, size := 0, align := 0, offset }

/-- The first object from the pivot on, if it lies at `offset`. -/
def fixedAt? (f : Frame) (offset : Int64) : Option FrameObject :=
  (f.fixed.firstFrom? (pivot offset)).filter (·.offset = offset)

def fixedByOffset (f : Frame) : List FrameObject := f.fixed.toList

/-- The end of the fixed objects: how many bytes the caller reserved for arguments. -/
def incomingSize (f : Frame) : Int64 :=
  f.fixed.toList.foldl (fun last o => if last < o.offset + o.size then o.offset + o.size else last) 0

end Frame

end GraphLowering
