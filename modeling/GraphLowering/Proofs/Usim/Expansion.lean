import GraphLowering.Proofs.Failures
import GraphLowering.Proofs.Machine.Coherent
import GraphLowering.Usim.Pseudo

/-!
# Expanding pseudo instructions

What an expansion leaves: two new blocks behind the block of the instruction, the second with the
code that stood behind it and with its successors (`Expanded`). An expansion opens two blocks
(`Opened`), moves code and edges to the second (`Parted`) and fills them (`Plan.fill`). It keeps
functions well formed, and the phis in step with the edges.
-/

namespace GraphLowering

namespace Machine.Function

variable {f f' g : Function} {b c i j s source : Nat} {ss ss' : List Nat}

/-! ### Moving edges -/

theorem mem_succs_addSuccessor (hb : b < f.blocks.size) (c d : Nat) :
    d ∈ (f.addSuccessor b s).succs c ↔ d ∈ f.succs c ∨ c = b ∧ d = s := by
  rw [succs_addSuccessor hb]
  by_cases hc : c = b
  · subst hc
    by_cases hs : s ∈ f.succs c
    · simp [hs]
      rintro rfl
      exact hs
    · simp [hs]
  · simp [hc]

/-- What moving the edges to `ss` from `source` to `b` does. -/
structure Transferred (f f' : Function) (b source : Nat) (ss : List Nat) : Prop where
  size : f'.blocks.size = f.blocks.size
  layout : f'.layout = f.layout
  virtualCount : f'.virtualCount = f.virtualCount
  instrs : f'.instrs.size = f.instrs.size
  code : ∀ c, f'.code c = f.code c
  liveIns : ∀ c, f'.liveIns c = f.liveIns c
  succs : ∀ c d, d ∈ f'.succs c ↔
    if c = source then d ∈ f.succs c ∧ d ∉ ss else if c = b then d ∈ f.succs c ∨
      d ∈ ss else d ∈ f.succs c
  instr : ∀ j, f'.instr j = if ∃ s ∈ ss, j ∈ f.phis s then (f.instr j).retarget source
    b else f.instr j

namespace Transferred

theorem nil (f : Function) (b source : Nat) : Transferred f f b source [] :=
  ⟨rfl, rfl, rfl, rfl, fun _ => rfl, fun _ => rfl, by simp, by simp⟩

theorem of_rewired (hr : Rewired f g) (hs : ∀ c d, d ∈ g.succs c ↔
      if c = source then d ∈ f.succs c ∧ d ≠ s else if c = b then d ∈ f.succs c ∨
      d = s else d ∈ f.succs c) :
    Transferred f (g.retargetPhis s source b) b source [s] := by
  have hphis : g.phis s = f.phis s := phis_congr (hr.code s) fun j => congrArg _ (hr.instr j)
  have hinstr (j : Nat) : (g.retargetPhis s source b).instr j = _ := instr_retargetPhis j
  have hsize : (g.retargetPhis s source b).instrs.size = f.instrs.size :=
    size_foldl_modifyInstr.trans (congrArg _ hr.instrs)
  rw [retargetPhis_eq] at hinstr hsize ⊢
  refine ⟨hr.size, hr.layout, hr.virtualCount, hsize, hr.code, hr.liveIns,
    fun c d => (hs c d).trans (by simp), fun j => ?_⟩
  rw [hinstr, hr.instr, hphis]
  simp

theorem single (hb : b < f.blocks.size) (hne : b ≠ source) :
    Transferred f (transferSuccessor b source f s) b source [s] := by
  have hrem := Rewired.removeSuccessor f source s
  refine of_rewired (hrem.trans (.addSuccessor _ b s)) fun c d => ?_
  rw [mem_succs_addSuccessor (hrem.size.symm ▸ hb), succs_removeSuccessor]
  by_cases hc : c = source
  · subst hc
    simp [Ne.symm hne]
  · rw [if_neg hc, if_neg hc]
    by_cases hcb : c = b <;> simp [hcb]

theorem trans (h : Transferred f g b source ss) (h' : Transferred g f' b source ss') :
    Transferred f f' b source (ss ++ ss') := by
  have hphis : ∀ c, g.phis c = f.phis c := fun c => phis_congr (h.code c) fun j => by
    rw [h.instr]
    split <;> rfl
  refine ⟨h'.size.trans h.size, h'.layout.trans h.layout, h'.virtualCount.trans h.virtualCount,
    h'.instrs.trans h.instrs, fun c => (h'.code c).trans (h.code c),
    fun c => (h'.liveIns c).trans (h.liveIns c), fun c d => ?_, fun j => ?_⟩
  · rw [h'.succs, h.succs]
    by_cases hc : c = source
    · simp [hc, and_assoc]
    · rw [if_neg hc, if_neg hc, if_neg hc]
      by_cases hcb : c = b <;> simp [hcb, or_assoc]
  · rw [h'.instr, h.instr]
    simp only [hphis, List.mem_append, or_and_right, exists_or]
    by_cases h₁ : ∃ s ∈ ss, j ∈ f.phis s <;> by_cases h₂ : ∃ s ∈ ss', j ∈ f.phis s <;>
      simp [h₁, h₂, Machine.Instr.retarget_retarget]

end Transferred

theorem transferred_transferSuccessors (hb : b < f.blocks.size) (hne : b ≠ source) :
    Transferred f (f.transferSuccessors b source) b source (f.succs source) := by
  rw [transferSuccessors, ← succs]
  generalize f.succs source = ss
  induction ss generalizing f with
  | nil => exact .nil f b source
  | cons s ss ih =>
    have hs := Transferred.single (s := s) hb hne
    have hss := ih (f := transferSuccessor b source f s) (by rw [hs.size]; exact hb)
    rw [List.foldl_cons, ← List.singleton_append]
    exact hs.trans hss

theorem code_of_le (h : f.blocks.size ≤ c) : f.code c = [] := by
  rw [code, block_of_le h]
  rfl

theorem succs_of_le (h : f.blocks.size ≤ c) : f.succs c = [] := by
  rw [succs, block_of_le h]
  rfl

theorem liveIns_of_le (h : f.blocks.size ≤ c) : f.liveIns c = [] := by
  rw [liveIns, block_of_le h]
  rfl

end Machine.Function

namespace Usim.Pseudo

open Machine (Function Op Operand)
open Machine.Function

variable {f f' g : Function} {i b c j pos new mid tail : Nat} {pre post : List Nat} {name : String}

/-! ### The steps of an expansion -/

/-- What a new block behind `pos` changes. -/
structure Opened (f f' : Function) (b pos new : Nat) : Prop where
  keeps : Keeps f f'
  new_eq : new = f.blocks.size
  size : f'.blocks.size = f.blocks.size + 1
  layout : ∃ l₁ l₂, f.layout = l₁ ++ pos :: l₂ ∧ pos ∉ l₁ ∧ f'.layout = l₁ ++ pos :: new :: l₂
  virtualCount : f'.virtualCount = f.virtualCount
  instrs : f'.instrs = f.instrs
  code : ∀ c, f'.code c = f.code c
  succs : ∀ c, f'.succs c = f.succs c
  liveIns : (f.liveIns b).Nodup → ∀ c, f'.liveIns c = if c = new then f.liveIns b else f.liveIns c

theorem Opened.instr (h : Opened f f' b pos new) (j : Nat) : f'.instr j = f.instr j := by
  rw [Function.instr, h.instrs, Function.instr]

theorem newBlockAfter_eq : newBlockAfter b pos name f =
    match (f.createBlock name).1.insertAfter pos f.blocks.size with
    | none => (.error (.notPlaced (f.notPlacedMessage pos)), f)
    | some g => (.ok f.blocks.size,
      (f.liveIns b).foldl (fun g r => g.addLiveIn f.blocks.size r) g) := by
  have hrun : newBlockAfter b pos name f =
      (match (f.createBlock name).1.insertAfter pos f.blocks.size with
      | none => throw (.notPlaced (f.notPlacedMessage pos))
      | some g => do
        set ((f.liveIns b).foldl (fun g r => g.addLiveIn f.blocks.size r) g)
        return f.blocks.size : Expand Nat) f := rfl
  rw [hrun]
  generalize (f.createBlock name).1.insertAfter pos f.blocks.size = o
  cases o <;> rfl

theorem opened_of_newBlockAfter (hnew : newBlockAfter b pos name f = (.ok new, f')) :
    Opened f f' b pos new := by
  rw [newBlockAfter_eq] at hnew
  split at hnew
  · cases hnew
  · rename_i g hins
    cases hnew
    have hlt : f.blocks.size < (f.createBlock name).1.blocks.size := by simp
    have hkeeps : Keeps f g := by
      refine ⟨fun h => (h.createBlock name).insertAfter hlt (fun hm => ?_) hins,
        fun h => (h.createBlock name).insertAfter hlt hins⟩
      exact Nat.lt_irrefl _ (h.lt_size _ hm)
    obtain ⟨l₁, l₂, hlayout, hpos, hg⟩ := insertAfter_eq_some hins
    have hblocks : g.blocks = (f.createBlock name).1.blocks := by rw [hg]
    have hblock {α : Type} (p : Machine.Block → α) (hp : p { name } = p default) (c : Nat) :
        p (g.block c) = p (f.block c) := by
      rw [Function.block, hblocks]
      exact createBlock_keeps p name hp c
    have hempty : g.liveIns f.blocks.size = [] :=
      (hblock Machine.Block.liveIns rfl _).trans (liveIns_of_le (Nat.le_refl _))
    have hkeep := foldl_addLiveIn g f.blocks.size (f.liveIns b)
    refine ⟨hkeeps.trans (.addLiveIns g _ _), rfl, ?_, ⟨l₁, l₂, hlayout, hpos, ?_⟩, ?_, ?_,
      fun c => ?_, fun c => ?_, fun hnodup c => ?_⟩
    · rw [size_foldl_addLiveIn, hblocks, size_createBlock]
    · rw [hkeep, hg]
    · rw [hkeep, hg]
      rfl
    · rw [hkeep, hg]
      rfl
    · exact (foldl_addLiveIn_keeps Machine.Block.instrs (fun _ _ => rfl) _ c).trans
        (hblock Machine.Block.instrs rfl c)
    · exact (foldl_addLiveIn_keeps Machine.Block.succs (fun _ _ => rfl) _ c).trans
        (hblock Machine.Block.succs rfl c)
    · rw [liveIns_foldl_addLiveIn (by rw [hblocks]; exact hlt) (by rw [hempty]; exact hnodup),
        hempty]
      split
      · rfl
      · exact hblock Machine.Block.liveIns rfl c

/-- What the two new blocks of an expansion change before code is put into them. -/
structure Parted (f f' : Function) (b : Nat) (pre post : List Nat) : Prop where
  keeps : Keeps f f'
  size : f'.blocks.size = f.blocks.size + 2
  layout : ∃ l₁ l₂, f.layout = l₁ ++ b :: l₂ ∧ b ∉ l₁ ∧
    f'.layout = l₁ ++ b :: f.blocks.size :: (f.blocks.size + 1) :: l₂
  virtualCount : f'.virtualCount = f.virtualCount
  instrs : f'.instrs.size = f.instrs.size
  code : ∀ c, f'.code c = if c = b then pre else if c = f.blocks.size + 1 then post else f.code c
  succs : ∀ c d, d ∈ f'.succs c ↔
    c ≠ b ∧ if c = f.blocks.size + 1 then d ∈ f.succs b else d ∈ f.succs c
  content : ∀ j, f'.content j =
    if ∃ s ∈ f.succs b, j ∈ f.phis s then
      ((f.instr j).op, ((f.instr j).retarget b (f.blocks.size + 1)).operands)
    else f.content j
  liveIns : (f.liveIns b).Nodup → ∀ c, f'.liveIns c =
    if c = f.blocks.size ∨ c = f.blocks.size + 1 then f.liveIns b else f.liveIns c

/-- What is taken from a list ends before a tail that does not begin with it. -/
theorem takeWhile_append_stop {p : Nat → Bool} {l l' : List Nat} (h : ∀ j ∈ l'.head?, p j = false) :
    (l ++ l').takeWhile p = l.takeWhile p := by
  induction l with
  | nil =>
    cases l' with
    | nil => rfl
    | cons j l' => simp [h j (by simp)]
  | cons j l ih => rw [List.cons_append, List.takeWhile_cons, List.takeWhile_cons, ih]

theorem takeWhile_congr {p p' : Nat → Bool} {l : List Nat} (h : ∀ j ∈ l, p' j = p j) :
    l.takeWhile p' = l.takeWhile p := by
  induction l with
  | nil => rfl
  | cons j l ih =>
    rw [List.takeWhile_cons, List.takeWhile_cons, h j (by simp), ih fun k hk => h k (by simp [hk])]

/-- The phis at the head of a block stand before every other instruction. -/
theorem phis_append (hop : (f.instr i).op ≠ .phi) (hcode : f.code b = pre ++ i :: post) :
    f.phis b = pre.takeWhile fun j => (f.instr j).op = .phi := by
  rw [phis, hcode]
  exact takeWhile_append_stop (by simp [hop])

theorem Opened.layout_twice (hr : f.InRange) (ho : Opened f g b b mid)
    (ho' : Opened g f' b mid tail) : ∃ l₁ l₂, f.layout = l₁ ++ b :: l₂ ∧ b ∉ l₁ ∧
    f'.layout = l₁ ++ b :: mid :: tail :: l₂ := by
  obtain ⟨l₁, l₂, hl, hout, hl'⟩ := ho.layout
  obtain ⟨m₁, m₂, hm, hout', hm'⟩ := ho'.layout
  -- the first new block stands once in the layout
  have hnew : ∀ c ∈ f.layout, c ≠ mid := fun c hc => by
    have := hr.layout c hc
    rw [ho.new_eq]
    omega
  have hfirst : mid ∉ l₁ ++ [b] := fun hmem => by
    rcases List.mem_append.1 hmem with hmem | hmem <;> exact hnew mid (by simp_all) rfl
  have hsecond : mid ∉ l₂ := fun hmem => hnew mid (by simp [hl, hmem]) rfl
  rw [hl', show l₁ ++ b :: mid :: l₂ = (l₁ ++ [b]) ++ mid :: l₂ by simp] at hm
  obtain ⟨rfl, -, rfl⟩ := (List.append_cons_inj_of_notMem hfirst hsecond).1 hm
  exact ⟨l₁, l₂, hl, hout, by simpa using hm'⟩

/-- The code behind the instruction and the edges of its block move to the second new block. -/
theorem parted_of_opened (hr : f.InRange) (hcode : f.code b = pre ++ i :: post) (hi : i ∉ pre)
    (hop : (f.instr i).op ≠ .phi) (ho : Opened f g b b mid) (ho' : Opened g f' b mid tail) :
    Parted f (((f'.splice tail b (pre.length + 1)).transferSuccessors tail b).remove b i).1
    b pre post := by
  have hbsize : b < f.blocks.size := lt_of_mem_code (i := i) (by simp [hcode])
  have hlayout := ho.layout_twice hr ho'
  have htail : tail = f.blocks.size + 1 := ho'.new_eq.trans ho.size
  have hmid := ho.new_eq
  subst hmid htail
  have hsize : f'.blocks.size = f.blocks.size + 2 := by rw [ho'.size, ho.size]
  have htsize : f.blocks.size + 1 < f'.blocks.size := by omega
  have hinstr : ∀ j, f'.instr j = f.instr j := fun j => by rw [ho'.instr, ho.instr]
  -- the code behind the instruction moves
  have hs := Rehoused.splice f' (f.blocks.size + 1) b (pre.length + 1)
  have hcode₁ : ∀ c, (f'.splice (f.blocks.size + 1) b (pre.length + 1)).code c =
      if c = b then pre ++ [i] else if c = f.blocks.size + 1 then post else f.code c := by
    intro c
    rw [code_splice htsize, ho'.code, ho'.code, ho.code, ho.code, hcode]
    have htake : (pre ++ i :: post).take (pre.length + 1) = pre ++ [i] := by
      rw [List.take_append, List.take_of_length_le (Nat.le_succ _)]
      simp
    have hdrop : (pre ++ i :: post).drop (pre.length + 1) = post := by simp [List.drop_append]
    by_cases hc : c = b
    · subst hc
      simp [hcode, htake, show c ≠ f.blocks.size + 1 by omega]
    · by_cases hct : c = f.blocks.size + 1
      · subst hct
        simp [hc, hdrop, code_of_le (Nat.le_succ _)]
      · simp [hc, hct]
  have hkeeps : Keeps f (f'.splice (f.blocks.size + 1) b (pre.length + 1)) :=
    ho.keeps.trans (ho'.keeps.trans ⟨(·.splice htsize b _), (·.splice htsize b _)⟩)
  generalize f'.splice (f.blocks.size + 1) b (pre.length + 1) = k at hs hcode₁ hkeeps ⊢
  have hcontent₁ : ∀ j, k.content j = f.content j :=
    fun j => by rw [hs.content, content, hinstr, ← content]
  have hop₁ : ∀ j, (k.instr j).op = (f.instr j).op := fun j => congrArg Prod.fst (hcontent₁ j)
  -- the edges move
  have hsize₁ : f.blocks.size + 1 < k.blocks.size := by
    rw [hs.size]
    exact htsize
  have ht := transferred_transferSuccessors hsize₁ (show f.blocks.size + 1 ≠ b by omega)
  have hsuccs₁ : ∀ c, k.succs c = f.succs c := fun c => by rw [hs.succs, ho'.succs, ho.succs]
  have hphis : ∀ s ∈ f.succs b, k.phis s = f.phis s := by
    intro s hs
    have := hr.succs b s hs
    by_cases hsb : s = b
    · subst hsb
      rw [phis_append (by rw [hop₁]; exact hop) (by rw [hcode₁, if_pos rfl]), phis_append hop hcode]
      simp [hop₁]
    · exact phis_congr (by rw [hcode₁, if_neg hsb, if_neg (by omega)]) hop₁
  have hremove := Rehoused.remove (k.transferSuccessors (f.blocks.size + 1) b) b i
  refine ⟨hkeeps.trans ⟨fun h => (h.transferSuccessors hsize₁ b).remove b i,
    fun h => (h.transferSuccessors hsize₁ b).remove b i⟩, ?_, ?_, ?_, ?_, fun c => ?_,
    fun c d => ?_, fun j => ?_, fun hlive c => ?_⟩
  · rw [hremove.size, ht.size, hs.size, hsize]
  · rw [hremove.layout, ht.layout, hs.layout]
    exact hlayout
  · rw [hremove.virtualCount, ht.virtualCount, hs.virtualCount, ho'.virtualCount, ho.virtualCount]
  · rw [hremove.instrs, ht.instrs, hs.instrs, ho'.instrs, ho.instrs]
  · rw [code_remove, ht.code, hcode₁]
    by_cases hc : c = b
    · simp [hc, List.erase_append_right _ hi]
    · simp [hc]
  · rw [hremove.succs, ht.succs, hsuccs₁, hsuccs₁]
    by_cases hc : c = b
    · simp [hc]
    · by_cases hct : c = f.blocks.size + 1
      · subst hct
        simp [hc, succs_of_le (Nat.le_succ _)]
      · simp [hc, hct]
  · have hex : (∃ s ∈ k.succs b, j ∈ k.phis s) ↔ ∃ s ∈ f.succs b, j ∈ f.phis s := by
      rw [hsuccs₁]
      exact exists_congr fun s => and_congr_right fun hs => by rw [hphis s hs]
    rw [hremove.content, content, ht.instr]
    simp only [hex]
    split
    · have hc := hcontent₁ j
      rw [content, content, Prod.mk.injEq] at hc
      simp only [Machine.Instr.retarget, hc.1, hc.2]
    · exact hcontent₁ j
  · have hb' : g.liveIns b = f.liveIns b := by rw [ho.liveIns hlive, if_neg (by omega)]
    rw [hremove.liveIns, ht.liveIns, hs.liveIns, ho'.liveIns (hb'.symm ▸ hlive), hb',
      ho.liveIns hlive]
    by_cases hc : c = f.blocks.size + 1 <;> by_cases hc' : c = f.blocks.size <;> simp [hc, hc']

theorem parted_of_newBlockAfter {name' : String} (hr : f.InRange)
    (hcode : f.code b = pre ++ i :: post) (hi : i ∉ pre) (hop : (f.instr i).op ≠ .phi)
    (hopen : newBlockAfter b b name f = (.ok mid, g))
    (hsplit : splitAfter i b mid name' g = (.ok tail, f')) :
    Parted f f' b pre post ∧ mid = f.blocks.size ∧ tail = f.blocks.size + 1 := by
  have ho := opened_of_newBlockAfter hopen
  obtain ⟨t, g', hnew, hsplit⟩ := run_bind_ok hsplit
  have ho' := opened_of_newBlockAfter hnew
  cases hsplit
  have hidx : (g'.block b).instrs.idxOf i = pre.length := by
    rw [← Function.code, ho'.code, ho.code, hcode, List.idxOf_append_of_notMem hi,
      List.idxOf_cons_self, Nat.add_zero]
  refine ⟨?_, ho.new_eq, ho'.new_eq.trans ho.size⟩
  show Parted f (((g'.splice tail b ((g'.block b).instrs.idxOf i + 1)).transferSuccessors tail
    b).remove b i).1 b pre post
  rw [hidx]
  exact parted_of_opened hr hcode hi hop ho ho'

/-! ### Filling the new blocks -/

/-- What new instructions at the end of a block change. -/
structure Emitted (f f' : Function) (b : Nat) (xs : List (Op × List Operand)) : Prop where
  keeps : Keeps f f'
  size : f'.blocks.size = f.blocks.size
  layout : f'.layout = f.layout
  virtualCount : f'.virtualCount = f.virtualCount
  instrs : f'.instrs.size = f.instrs.size + xs.length
  code : ∀ c, f'.code c = if c = b then f.code c ++ List.range' f.instrs.size
    xs.length else f.code c
  succs : ∀ c, f'.succs c = f.succs c
  liveIns : ∀ c, f'.liveIns c = f.liveIns c
  old : ∀ j < f.instrs.size, f'.content j = f.content j
  new : ∀ k x, xs[k]? = some x → f'.content (f.instrs.size + k) = x

theorem emitted_emit (hb : b < f.blocks.size) (xs : List (Op × List Operand)) :
    Emitted f (emit f b xs) b xs := by
  induction xs generalizing f with
  | nil =>
    exact ⟨.refl f, rfl, rfl, rfl,
      rfl, by simp [emit], fun _ => rfl, fun _ => rfl, fun _ _ => rfl, by simp⟩
  | cons x xs ih =>
    obtain ⟨op, operands⟩ := x
    have hr := Rehoused.append (f.newInstr op operands).1 b [(f.newInstr op operands).2]
    have he := ih (f := (f.newInstr op operands).1.append b [(f.newInstr op operands).2])
      (by rw [hr.size]; exact hb)
    have hsize := hr.instrs.trans (size_newInstr op operands)
    refine ⟨(Keeps.appendNew hb op operands).trans he.keeps, he.size.trans hr.size,
      he.layout.trans hr.layout, he.virtualCount.trans hr.virtualCount, ?_, fun c => ?_,
      fun c => (he.succs c).trans (hr.succs c), fun c => (he.liveIns c).trans (hr.liveIns c),
      fun j hj => ?_, fun k x hk => ?_⟩
    · refine he.instrs.trans ?_
      rw [hsize, List.length_cons]
      omega
    · refine (he.code c).trans ?_
      rw [hsize, code_append (f := (f.newInstr op operands).1) hb, List.length_cons,
        List.range'_succ]
      by_cases hc : c = b
      · rw [if_pos hc, if_pos hc, if_pos hc, List.append_assoc]
        rfl
      · rw [if_neg hc, if_neg hc, if_neg hc]
        rfl
    · rw [show (emit f b ((op, operands) :: xs)).content j = _ from he.old j (by omega), hr.content,
        content_newInstr, if_neg (by omega)]
    · cases k with
      | zero =>
        cases hk
        exact (he.old _ (by omega)).trans
          ((hr.content _).trans ((content_newInstr op operands _).trans (if_pos rfl)))
      | succ k =>
        have := he.new k x hk
        rw [hsize] at this
        rw [← this, Nat.add_right_comm, Nat.add_assoc]
        rfl

theorem rewired_addSuccessors (f : Function) (b : Nat) (ss : List Nat) :
    Rewired f (ss.foldl (fun f s => f.addSuccessor b s) f) := by
  induction ss generalizing f with
  | nil => exact .refl f
  | cons s ss ih => exact (Rewired.addSuccessor f b s).trans (ih _)

theorem mem_succs_addSuccessors {ss : List Nat} (hb : b < f.blocks.size) (c d : Nat) :
    d ∈ (ss.foldl (fun f s => f.addSuccessor b s) f).succs c ↔ d ∈ f.succs c ∨ c = b ∧ d ∈ ss := by
  induction ss generalizing f with
  | nil => simp
  | cons s ss ih =>
    rw [List.foldl_cons, ih (by rw [(Rewired.addSuccessor f b s).size]; exact hb),
      mem_succs_addSuccessor hb, List.mem_cons, or_assoc, and_or_left]

/-- What stands in place of an instruction: code at the end of its block, the code of a new block
behind it, code at the head of a second one, and the successors of the first two. -/
structure Plan where
  test : List (Op × List Operand)
  body : List (Op × List Operand)
  join : List (Op × List Operand)
  testSuccs : List Nat
  bodySuccs : List Nat
  /-- How many registers it takes. -/
  registers : Nat

/-- All the code of a plan, in the order in which it is made. -/
def Plan.code (p : Plan) : List (Op × List Operand) := p.test ++ p.body ++ p.join

def selectPlan (f : Function) (b : Nat) (dst lhs rhs ifTrue ifFalse : Register) (cc : Cond) :
    Plan where
  test := [
    (if cc.isFloat then Instr.fcmpRR else Instr.cmpRR, [.use lhs, .use rhs]),
    (Instr.bcc, [.imm (Int64.ofNat cc.number), .block (f.blocks.size + 1)])]
  body := []
  join := [(.phi, [.define dst, .use ifTrue, .block b, .use ifFalse, .block f.blocks.size])]
  testSuccs := [f.blocks.size, f.blocks.size + 1]
  bodySuccs := [f.blocks.size + 1]
  registers := 0

def atomicPlan (f : Function) (dst ptr inc : Register) : Plan where
  test := []
  body :=
    let sum := Register.virt f.virtualCount
    let status := Register.virt (f.virtualCount + 1)
    [(Instr.loadLinked, [.define dst, .use ptr]),
      (Instr.addRR, [.define sum, .use dst, .use inc]),
      (Instr.storeConditional, [.define status, .use sum, .use ptr]),
      (Instr.cmpRI, [.use status, .imm 0]),
      (Instr.bcc, [.imm (Int64.ofNat Cond.ne.number), .block f.blocks.size])]
  join := []
  testSuccs := [f.blocks.size]
  bodySuccs := [f.blocks.size, f.blocks.size + 1]
  registers := 2

/-- Puts the code of a plan into blocks and joins them. -/
def Plan.fill (p : Plan) (b mid tail : Nat) (f : Function) : Function :=
  let f := emit { f with virtualCount := f.virtualCount + p.registers } b p.test
  let f := emit f mid p.body
  let f := p.testSuccs.foldl (fun f s => f.addSuccessor b s) f
  let f := p.bodySuccs.foldl (fun f s => f.addSuccessor mid s) f
  p.join.foldl (fun f x => (f.newInstr x.1 x.2).1.prepend tail [(f.newInstr x.1 x.2).2]) f

/-- A plan with edges to the new blocks and at most one instruction at the head of the second. -/
structure Plan.Fits (p : Plan) (f : Function) : Prop where
  join : p.join.length ≤ 1
  succs : ∀ s ∈ p.testSuccs ++ p.bodySuccs, s = f.blocks.size ∨ s = f.blocks.size + 1

theorem fits_selectPlan (f : Function) (b : Nat)
    (dst lhs rhs ifTrue ifFalse : Register) (cc : Cond) :
    (selectPlan f b dst lhs rhs ifTrue ifFalse cc).Fits f :=
  ⟨by simp [selectPlan], by simp [selectPlan]⟩

theorem fits_atomicPlan (f : Function) (dst ptr inc : Register) :
    (atomicPlan f dst ptr inc).Fits f :=
  ⟨by simp [atomicPlan], by simp [atomicPlan]⟩

/-- What an expansion by a plan changes. -/
structure Expanded (f f' : Function) (i b : Nat) (pre post : List Nat) (p : Plan) : Prop where
  keeps : Keeps f f'
  size : f'.blocks.size = f.blocks.size + 2
  layout : ∃ l₁ l₂, f.layout = l₁ ++ b :: l₂ ∧ b ∉ l₁ ∧
    f'.layout = l₁ ++ b :: f.blocks.size :: (f.blocks.size + 1) :: l₂
  virtualCount : f'.virtualCount = f.virtualCount + p.registers
  instrs : f'.instrs.size = f.instrs.size + p.code.length
  code_head : f'.code b = pre ++ List.range' f.instrs.size p.test.length
  code_body : f'.code f.blocks.size = List.range' (f.instrs.size + p.test.length) p.body.length
  code_tail : f'.code (f.blocks.size + 1) =
    List.range' (f.instrs.size + p.test.length + p.body.length) p.join.length ++ post
  code_other : ∀ c < f.blocks.size, c ≠ b → f'.code c = f.code c
  succs : ∀ c d, d ∈ f'.succs c ↔
    if c = b then d ∈ p.testSuccs else if c = f.blocks.size then d ∈ p.bodySuccs
    else if c = f.blocks.size + 1 then d ∈ f.succs b else d ∈ f.succs c
  old : ∀ j < f.instrs.size, f'.content j =
    if ∃ s ∈ f.succs b, j ∈ f.phis s then
      ((f.instr j).op, ((f.instr j).retarget b (f.blocks.size + 1)).operands)
    else f.content j
  new : ∀ k x, p.code[k]? = some x → f'.content (f.instrs.size + k) = x
  liveIns : (f.liveIns b).Nodup → ∀ c, f'.liveIns c =
    if c = f.blocks.size ∨ c = f.blocks.size + 1 then f.liveIns b else f.liveIns c

theorem emitted_join (hb : b < f.blocks.size) {xs : List (Op × List Operand)}
    (hxs : xs.length ≤ 1) :
    let f' := xs.foldl (fun f x => (f.newInstr x.1 x.2).1.prepend b [(f.newInstr x.1 x.2).2]) f
    Keeps f f' ∧ (f'.blocks.size, f'.layout, f'.virtualCount, f'.instrs.size) =
        (f.blocks.size, f.layout, f.virtualCount, f.instrs.size + xs.length) ∧
      (∀ c, f'.code c = if c = b then List.range' f.instrs.size xs.length ++
        f.code c else f.code c) ∧
      (∀ c, (f'.succs c, f'.liveIns c) = (f.succs c, f.liveIns c)) ∧
      ∀ j, f'.content j = if j < f.instrs.size then f.content j else (xs[j - f.instrs.size]?).getD
          (f.content j) := by
  match xs, hxs with
  | [], _ => exact ⟨.refl f, rfl, by simp, fun _ => rfl, by simp⟩
  | [x], _ =>
    have hr := Rehoused.prepend (f.newInstr x.1 x.2).1 b [(f.newInstr x.1 x.2).2]
    refine ⟨.prependNew hb x.1 x.2, ?_, fun c => ?_, fun c => ?_, fun j => ?_⟩
    · simp only [List.foldl_cons, List.foldl_nil, hr.size, hr.layout, hr.virtualCount,
        hr.instrs, size_newInstr]
      rfl
    · exact code_prepend (f := (f.newInstr x.1 x.2).1) hb c
    · simp only [List.foldl_cons, List.foldl_nil, hr.succs, hr.liveIns]
      rfl
    · simp only [List.foldl_cons, List.foldl_nil, hr.content, content_newInstr]
      rcases Nat.lt_trichotomy j f.instrs.size with hj | hj | hj
      · rw [if_neg (by omega), if_pos hj]
      · simp [hj]
      · rw [if_neg (by omega), if_neg (by omega), List.getElem?_eq_none (by simp; omega)]
        rfl

/-- The new blocks are filled step by step: the code of the first two, the edges, and the head of
the second. -/
theorem Parted.fill {p : Plan} (hp : Parted f g b pre post) (hb : b < f.blocks.size)
    (hfit : p.Fits f) : Expanded f (p.fill b f.blocks.size (f.blocks.size + 1) g) i b
    pre post p := by
  have hv : Keeps g { g with virtualCount := g.virtualCount + p.registers } := by
    refine ⟨fun h => h.of_blocks rfl (h.toOrdered.congr rfl (Nat.le_refl _)) fun _ =>
      rfl, fun h => ?_⟩
    exact h.congr h.layout (Nat.le_refl _) (Nat.le_refl _) (fun _ => rfl) (fun _ => rfl)
      (fun _ => rfl) h.live_nodup
  have ht := emitted_emit (f := { g with virtualCount := g.virtualCount + p.registers }) (b := b)
    (show b < g.blocks.size by rw [hp.size]; omega) p.test
  rw [Plan.fill]
  generalize emit { g with virtualCount := g.virtualCount + p.registers } b p.test = e at ht ⊢
  have hesize : e.blocks.size = f.blocks.size + 2 := ht.size.trans hp.size
  have heinstrs : e.instrs.size = f.instrs.size + p.test.length :=
    ht.instrs.trans (congrArg (· + _) hp.instrs)
  have hbody := emitted_emit (f := e) (b := f.blocks.size) (by omega) p.body
  generalize emit e f.blocks.size p.body = k at hbody ⊢
  have hksize : k.blocks.size = f.blocks.size + 2 := hbody.size.trans hesize
  have hnew : ∀ s ∈ p.testSuccs ++ p.bodySuccs, s < k.blocks.size := fun s hs => by
    have := hfit.succs s hs
    omega
  obtain ⟨m, hm⟩ : ∃ m, m = p.bodySuccs.foldl (fun f' s => f'.addSuccessor f.blocks.size s)
    (p.testSuccs.foldl (fun f s => f.addSuccessor b s) k) := ⟨_, rfl⟩
  have hfirst := rewired_addSuccessors k b p.testSuccs
  have hr : Rewired k m := hm ▸ hfirst.trans (rewired_addSuccessors _ f.blocks.size p.bodySuccs)
  have hlinks : Keeps k m := by
    rw [hm]
    refine (Keeps.addSuccessors (by omega) fun s hs => hnew s (by simp [hs])).trans
      (.addSuccessors (by rw [hfirst.size]; omega) fun s hs => ?_)
    rw [hfirst.size]
    exact hnew s (by simp [hs])
  have hsuccs : ∀ c d, d ∈ m.succs c ↔ (d ∈ g.succs c ∨ c = b ∧ d ∈ p.testSuccs) ∨
      c = f.blocks.size ∧ d ∈ p.bodySuccs := by
    intro c d
    rw [hm, mem_succs_addSuccessors (by rw [hfirst.size]; omega), mem_succs_addSuccessors
      (by omega), hbody.succs, ht.succs]
    rfl
  have hminstrs : m.instrs.size = f.instrs.size + p.test.length + p.body.length := by
    rw [hr.instrs, hbody.instrs, heinstrs]
  obtain ⟨hkeeps, hsizes, hcode, hrest, hcontent⟩ :=
    emitted_join (f := m) (b := f.blocks.size + 1) (by rw [hr.size]; omega) hfit.join
  rw [← hm]
  generalize p.join.foldl _ m = z at *
  simp only [Prod.mk.injEq] at hsizes hrest
  have hcode' : ∀ c, z.code c =
      if c = f.blocks.size + 1 then List.range' (f.instrs.size + p.test.length + p.body.length)
        p.join.length ++ g.code c
      else if c = f.blocks.size then g.code c ++ List.range'
        (f.instrs.size + p.test.length) p.body.length
      else if c = b then g.code c ++ List.range' f.instrs.size p.test.length else g.code c := by
    intro c
    have he : e.code c = if c = b then g.code c ++ List.range' f.instrs.size
      p.test.length else g.code c := (ht.code c).trans (by rw [← hp.instrs]; rfl)
    rw [hcode, hr.code, hbody.code, he, hminstrs, heinstrs]
    by_cases hc : c = f.blocks.size + 1
    · simp [hc, show f.blocks.size + 1 ≠ b by omega]
    · by_cases hc' : c = f.blocks.size
      · simp [hc', show f.blocks.size ≠ b by omega]
      · simp [hc, hc']
  have hold : ∀ j < f.instrs.size + p.test.length + p.body.length, z.content j = k.content j :=
      fun j hj => by
    rw [hcontent, if_pos (by omega), hr.content]
  refine ⟨hp.keeps.trans (hv.trans (ht.keeps.trans (hbody.keeps.trans (hlinks.trans hkeeps)))), ?_,
    ?_, ?_, ?_, ?_, ?_, ?_, fun c hc hcb => ?_, fun c d => ?_, fun j hj => ?_, fun n x hn => ?_,
    fun hlive c => ?_⟩
  · rw [hsizes.1, hr.size, hksize]
  · rw [hsizes.2.1, hr.layout, hbody.layout, ht.layout]
    exact hp.layout
  · rw [hsizes.2.2.1, hr.virtualCount, hbody.virtualCount, ht.virtualCount]
    exact congrArg (· + _) hp.virtualCount
  · rw [hsizes.2.2.2, hminstrs]
    simp [Plan.code, Nat.add_assoc]
  · rw [hcode', if_neg (by omega), if_neg (by omega), if_pos rfl, hp.code, if_pos rfl]
  · rw [hcode', if_neg (by omega), if_pos rfl, hp.code, if_neg (by omega), if_neg (by omega),
      code_of_le (Nat.le_refl _)]
    rfl
  · rw [hcode', if_pos rfl, hp.code, if_neg (by omega), if_pos rfl]
  · rw [hcode', if_neg (by omega), if_neg (by omega), if_neg hcb, hp.code, if_neg hcb,
      if_neg (by omega)]
  · rw [(hrest c).1, hsuccs, hp.succs]
    by_cases hc : c = b
    · simp [hc, show b ≠ f.blocks.size by omega]
    · by_cases hc' : c = f.blocks.size
      · subst hc'
        simp [hc, succs_of_le (Nat.le_refl _)]
      · simp [hc, hc']
  · rw [hold j (by omega),
      hbody.old j (by rw [ht.instrs]; exact Nat.lt_add_right _ (hp.instrs ▸ hj)),
      ht.old j (hp.instrs ▸ hj)]
    exact hp.content j
  · simp only [Plan.code, List.getElem?_append, List.length_append] at hn
    split at hn
    · rw [hold _ (by omega)]
      split at hn
      · rw [hbody.old _ (by omega), ← hp.instrs]
        exact ht.new n x hn
      · rw [show f.instrs.size + n = e.instrs.size + (n - p.test.length) by omega]
        exact hbody.new _ x hn
    · rw [hcontent, if_neg (by omega), show f.instrs.size + n - m.instrs.size =
        n - (p.test.length + p.body.length) by omega,
        hn]
      rfl
  · rw [(hrest c).2, hr.liveIns, hbody.liveIns, ht.liveIns]
    exact hp.liveIns hlive c

/-! ### Expansions -/

theorem expanded_of_expandSelect {dst lhs rhs ifTrue ifFalse : Register} {cc : Cond}
    (hr : f.InRange) (hcode : f.code b = pre ++ i :: post) (hi : i ∉ pre)
    (hop : (f.instr i).op ≠ .phi)
    (he : expandSelect i b dst lhs rhs ifTrue ifFalse cc f = (.ok tail, f')) :
    Expanded f f' i b pre post (selectPlan f b dst lhs rhs ifTrue ifFalse cc) ∧
    tail = f.blocks.size + 1 := by
  obtain ⟨_, _, hget, he⟩ := run_bind_ok he
  cases hget
  obtain ⟨mid, f₁, hopen, he⟩ := run_bind_ok he
  obtain ⟨t, f₂, hsplit, he⟩ := run_bind_ok he
  obtain ⟨hp, rfl, rfl⟩ := parted_of_newBlockAfter hr hcode hi hop hopen hsplit
  have hfill := hp.fill (i := i) (lt_of_mem_code (i := i) (by simp [hcode]))
    (fits_selectPlan f b dst lhs rhs ifTrue ifFalse cc)
  cases he
  refine ⟨?_, rfl⟩
  simp only [Plan.fill, selectPlan, List.foldl_cons, List.foldl_nil, Nat.add_zero] at hfill ⊢
  exact hfill

theorem expanded_of_expandAtomicLoadAdd {dst ptr inc : Register} (hr : f.InRange)
    (hcode : f.code b = pre ++ i :: post) (hi : i ∉ pre) (hop : (f.instr i).op ≠ .phi)
    (he : expandAtomicLoadAdd i b dst ptr inc f = (.ok tail, f')) :
    Expanded f f' i b pre post (atomicPlan f dst ptr inc) ∧ tail = f.blocks.size + 1 := by
  obtain ⟨_, _, hget, he⟩ := run_bind_ok he
  cases hget
  obtain ⟨mid, f₁, hopen, he⟩ := run_bind_ok he
  obtain ⟨t, f₂, hsplit, he⟩ := run_bind_ok he
  obtain ⟨hp, rfl, rfl⟩ := parted_of_newBlockAfter hr hcode hi hop hopen hsplit
  have hfill := hp.fill (i := i) (lt_of_mem_code (i := i) (by simp [hcode]))
    (fits_atomicPlan f dst ptr inc)
  cases he
  refine ⟨?_, rfl⟩
  have hregisters : f₂.virtualCount = f.virtualCount := hp.virtualCount
  simp only [Plan.fill, atomicPlan, List.foldl_cons, List.foldl_nil, ← hregisters] at hfill ⊢
  exact hfill

/-- The plan for a pseudo instruction. -/
def planOf (f : Function) (b : Nat) : PseudoInstr → Plan
  | .select dst lhs rhs ifTrue ifFalse cc => selectPlan f b dst lhs rhs ifTrue ifFalse cc
  | .atomicLoadAdd dst ptr inc => atomicPlan f dst ptr inc

/-- The plan for an instruction, by its operands. -/
inductive Planned (f : Function) (i b : Nat) : Plan → Prop where
  | select (dst lhs rhs ifTrue ifFalse : Register) (cc : Int64) (os : List Operand)
      (hop : (f.instr i).op = Instr.select) (hoperands : (f.instr i).operands = os ++ [.imm cc])
      (hregisters : os.map operandRegister? = [dst, lhs, rhs, ifTrue, ifFalse].map some) :
      Planned f i b (selectPlan f b dst lhs rhs ifTrue ifFalse (condOfImmediate cc))
  | atomicLoadAdd (dst ptr inc : Register) (hop : (f.instr i).op = Instr.atomicLoadAdd)
      (hregisters : (f.instr i).operands.map operandRegister? = [dst, ptr, inc].map some) :
      Planned f i b (atomicPlan f dst ptr inc)

theorem Planned.op_ne_phi {p : Plan} (h : Planned f i b p) : (f.instr i).op ≠ .phi := by
  cases h with
  | select _ _ _ _ _ _ _ hop => rw [hop]; decide
  | atomicLoadAdd _ _ _ hop => rw [hop]; decide

theorem operandRegisters_eq_ok {instr : String} {operands : List Operand} {rs : List Register}
    (h : operandRegisters instr operands = .ok rs) :
    operands.map operandRegister? = rs.map some := by
  rw [operandRegisters] at h
  generalize 0 = n at h
  induction operands generalizing n rs with
  | nil =>
    cases h
    rfl
  | cons o operands ih =>
    rw [List.zipIdx_cons, List.mapM_cons] at h
    cases ho : operandRegister? o with
    | none =>
      simp only [ho] at h
      cases h
    | some r =>
      simp only [ho, bind, Except.bind] at h
      generalize hrest : (List.mapM _ (operands.zipIdx (n + 1)) :
        Except PseudoFault (List Register)) = rest at h
      cases rest with
      | error e => cases h
      | ok rest =>
        cases h
        rw [List.map_cons, List.map_cons, ho, ih (n + 1) hrest]

theorem operandRegisters_of_map {instr : String} {os : List Operand} {rs : List Register}
    (h : os.map operandRegister? = rs.map some) : operandRegisters instr os = .ok rs := by
  rw [operandRegisters]
  generalize 0 = n
  induction os generalizing n rs with
  | nil =>
    cases rs with
    | nil => rfl
    | cons r rs => cases h
  | cons o os ih =>
    cases rs with
    | nil => cases h
    | cons r rs =>
      obtain ⟨ho, hos⟩ := List.cons.inj h
      simp only [List.zipIdx_cons, List.mapM_cons, ho, ih hos]
      rfl

theorem planned_of_pseudoInstr {x : PseudoInstr} (h : pseudoInstr f i = .ok x) :
    Planned f i b (planOf f b x) := by
  simp only [pseudoInstr] at h
  split at h
  · rename_i hop
    simp only [check_eq_ok, bind_eq_ok] at h
    obtain ⟨-, rs, hrs, h⟩ := h
    split at h
    · rename_i dst lhs rhs ifTrue ifFalse cc hdrop
      cases h
      refine .select _ _ _ _ _ _ ((f.instr i).operands.take 5) hop ?_ (operandRegisters_eq_ok hrs)
      rw [← hdrop, List.take_append_drop]
    · cases h
  · split at h
    · rename_i hop
      simp only [check_eq_ok, bind_eq_ok] at h
      obtain ⟨-, rs, hrs, h⟩ := h
      split at h
      · cases h
        exact .atomicLoadAdd _ _ _ hop (operandRegisters_eq_ok hrs)
      · cases h
    · cases h

theorem pseudoInstr_of_planned {p : Plan} (h : Planned f i b p) :
    ∃ x, pseudoInstr f i = .ok x ∧ p = planOf f b x := by
  cases h with
  | select dst lhs rhs ifTrue ifFalse imm os hop hoperands hregisters =>
    have hlength : os.length = 5 := by simpa using congrArg List.length hregisters
    refine ⟨.select dst lhs rhs ifTrue ifFalse (condOfImmediate imm), ?_, rfl⟩
    simp only [pseudoInstr, if_pos hop, hoperands, List.length_append, hlength,
      List.take_left' hlength, List.drop_left' hlength, operandRegisters_of_map hregisters,
      bind, Except.bind]
    rfl
  | atomicLoadAdd dst ptr inc hop hregisters =>
    have hlength : (f.instr i).operands.length = 3 := by simpa using congrArg List.length hregisters
    have hselect : (f.instr i).op ≠ Instr.select := by rw [hop]; decide
    refine ⟨.atomicLoadAdd dst ptr inc, ?_, rfl⟩
    simp only [pseudoInstr, if_neg hselect, if_pos hop, hlength, operandRegisters_of_map hregisters,
      bind, Except.bind]
    rfl

/-! ### Outcomes -/

theorem isSome_placeAfter {pos : Nat} {l : List Nat} (h : pos ∈ l) :
    (placeAfter pos b l).isSome := by
  induction l with
  | nil => cases h
  | cons c l ih =>
    rw [placeAfter]
    split
    · rfl
    · rename_i hne
      rw [Option.isSome_map]
      exact ih ((List.mem_cons.1 h).resolve_left (Ne.symm hne))

/-- A block is placed behind one that is in the layout, and behind no other. -/
theorem newBlockAfter_of_mem (h : pos ∈ f.layout) (b : Nat) (name : String) :
    ∃ g, newBlockAfter b pos name f = (.ok f.blocks.size, g) := by
  obtain ⟨l, hl⟩ := Option.isSome_iff_exists.1 (isSome_placeAfter (b := f.blocks.size) h)
  have hins : (f.createBlock name).1.insertAfter pos f.blocks.size =
      some { (f.createBlock name).1 with layout := l } := by
    rw [insertAfter, show (f.createBlock name).1.layout = f.layout from rfl, hl]
    rfl
  rw [newBlockAfter_eq, hins]
  exact ⟨_, rfl⟩

theorem newBlockAfter_of_notMem (h : pos ∉ f.layout) (b : Nat) (name : String) :
    ∃ e, newBlockAfter b pos name f = (.error e, f) := by
  cases hins : (f.createBlock name).1.insertAfter pos f.blocks.size with
  | none =>
    rw [newBlockAfter_eq, hins]
    exact ⟨_, rfl⟩
  | some g =>
    obtain ⟨l₁, l₂, hlayout, -, -⟩ := insertAfter_eq_some hins
    exact absurd (show pos ∈ f.layout from hlayout ▸ by simp) h

theorem parts_of_mem (h : b ∈ f.layout) (i : Nat) (name name' : String) :
    ∃ mid g tail f', newBlockAfter b b name f = (.ok mid, g) ∧ splitAfter i b mid name' g =
    (.ok tail, f') := by
  obtain ⟨g, hopen⟩ := newBlockAfter_of_mem h b name
  obtain ⟨l₁, l₂, -, -, hl⟩ := (opened_of_newBlockAfter hopen).layout
  obtain ⟨g', hnew⟩ := newBlockAfter_of_mem (show f.blocks.size ∈ g.layout by simp [hl]) b name'
  exact ⟨_, g, _, _, hopen, run_bind_of_ok hnew⟩

theorem run_get {β : Type} (f : Function) (k : Function → Expand β) : (get >>= k) f = k f f :=
  run_bind_of_ok rfl

/-- An expansion in a block outside the layout stops before anything is done; another one
succeeds. -/
theorem expand_outcome (f : Function) (i b : Nat) (x : PseudoInstr) :
    if b ∈ f.layout then ∃ tail f', x.expand i b f = (.ok tail, f') else ∃ e, x.expand i b f =
    (.error e, f) := by
  cases x <;> simp only [PseudoInstr.expand, expandSelect, expandAtomicLoadAdd, run_get]
  all_goals
    split <;> rename_i hb
    · obtain ⟨mid, g, tail, f', hopen, hsplit⟩ := parts_of_mem hb i _ _
      rw [run_bind_of_ok hopen, run_bind_of_ok hsplit]
      exact ⟨_, _, rfl⟩
    · obtain ⟨e, he⟩ := newBlockAfter_of_notMem hb b _
      rw [run_bind_of_error he]
      exact ⟨e, rfl⟩

theorem expandPseudo_run (f : Function) (i b : Nat) : expandPseudo i b f =
    match pseudoInstr f i with
    | .error e => (.error e, f)
    | .ok x => x.expand i b f := by
  rw [expandPseudo, run_get]
  cases pseudoInstr f i <;> rfl

/-- An instruction that is no pseudo instruction, or not in the layout, is refused before anything
is done; every other one is expanded. -/
theorem expandPseudo_outcome (f : Function) (i b : Nat) :
    (∃ e, expandPseudo i b f = (.error e, f)) ∨
      ∃ x tail f', pseudoInstr f i = .ok x ∧ expandPseudo i b f = (.ok tail, f') := by
  rw [expandPseudo_run]
  cases pseudoInstr f i with
  | error e => exact .inl ⟨e, rfl⟩
  | ok x =>
    have h := expand_outcome f i b x
    split at h
    · obtain ⟨tail, f', h⟩ := h
      exact .inr ⟨x, tail, f', rfl, h⟩
    · exact .inl h

theorem expanded_of_expandPseudo (hr : f.InRange)
    (hcode : f.code b = pre ++ i :: post) (hi : i ∉ pre)
    (he : expandPseudo i b f = (.ok tail, f')) :
    ∃ p, Planned f i b p ∧ Expanded f f' i b pre post p ∧ tail = f.blocks.size + 1 := by
  rw [expandPseudo_run] at he
  cases hx : pseudoInstr f i with
  | error e =>
    rw [hx] at he
    cases he
  | ok x =>
    rw [hx] at he
    have hp := planned_of_pseudoInstr (b := b) hx
    refine ⟨_, hp, ?_⟩
    cases x with
    | select => exact expanded_of_expandSelect hr hcode hi hp.op_ne_phi he
    | atomicLoadAdd => exact expanded_of_expandAtomicLoadAdd hr hcode hi hp.op_ne_phi he

variable {log : List LogRecord}

theorem insertPseudo_eq_ok : insertPseudo f i b = (log, .ok (f', tail)) ↔
    insertInto f i b = (log, .ok tail, f') := by
  rw [insertPseudo]
  rcases insertInto f i b with ⟨log', e | t, g⟩ <;> simp [Except.map]
  tauto

theorem expanded_of_insertInto (hr : f.InRange) (hlisted : f.parent i = some b → i ∈ f.code b)
    (he : insertInto f i b = (log, .ok tail, f')) :
    ∃ pre post p, f.code b = pre ++ i :: post ∧ i ∉ pre ∧ Planned f i b p ∧
    Expanded f f' i b pre post p ∧
      tail = f.blocks.size + 1 := by
  rw [insertInto] at he
  split at he
  · cases he
  · rename_i hparent
    obtain ⟨pre, post, hcode, hi⟩ :=
      List.eq_append_cons_of_mem (hlisted (Decidable.not_not.1 hparent))
    obtain ⟨p, hp, hx, htail⟩ := expanded_of_expandPseudo hr hcode hi (Prod.mk.inj he).2
    exact ⟨pre, post, p, hcode, hi, hp, hx, htail⟩

theorem expanded_of_insertPseudo (h : f.WellFormed)
    (he : insertPseudo f i b = (log, .ok (f', tail))) :
    ∃ pre post p, f.code b = pre ++ i :: post ∧ Planned f i b p ∧ Expanded f f' i b pre post p ∧
      tail = f.blocks.size + 1 := by
  obtain ⟨pre, post, p, hcode, -, hp, hx, htail⟩ :=
    expanded_of_insertInto h.inRange (h.parent_eq i b).1 (insertPseudo_eq_ok.1 he)
  exact ⟨pre, post, p, hcode, hp, hx, htail⟩

/-! ### Phis and edges -/

/-- The phis at the head of each block name its predecessors. -/
def PhisNamePreds (f : Function) : Prop :=
  ∀ b, ∀ j ∈ f.phis b, ∀ c, .block c ∈ (f.instr j).operands ↔ c ∈ f.preds b

/-- The block that an operand names. -/
def blockOf? : Operand → Option Nat
  | .block c => some c
  | _ => none

theorem mem_filterMap_blockOf? {os : List Operand} : c ∈ os.filterMap blockOf? ↔ .block c ∈ os := by
  rw [List.mem_filterMap]
  constructor
  · rintro ⟨o, ho, hc⟩
    cases o with
    | block d =>
      cases hc
      exact ho
    | _ => cases hc
  · exact fun ho => ⟨_, ho, rfl⟩

instance : Decidable (PhisNamePreds f) :=
  decidable_of_iff (∀ b < f.blocks.size, ∀ j ∈ f.phis b,
      (∀ c ∈ (f.instr j).operands.filterMap blockOf?, c ∈ f.preds b) ∧
        ∀ c ∈ f.preds b, c ∈ (f.instr j).operands.filterMap blockOf?) <| by
    simp only [mem_filterMap_blockOf?, PhisNamePreds]
    constructor
    · intro h b j hj c
      obtain ⟨h₁, h₂⟩ := h b (lt_of_mem_code (mem_code_of_mem_phis hj)) j hj
      exact ⟨h₁ c, h₂ c⟩
    · exact fun h b _ j hj => ⟨fun c => (h b j hj c).1, fun c => (h b j hj c).2⟩

theorem lt_size_of_mem_succs (h : f.WellFormed) {d : Nat} (hd : d ∈ f.succs c) :
    d < f.blocks.size :=
  lt_of_mem_preds ((h.edge c d).1 hd)

theorem block_mem_retarget {x : Machine.Instr} {old new c : Nat} (hnew : .block new ∉ x.operands) :
    .block c ∈ (x.retarget old new).operands ↔
      if c = new then .block old ∈ x.operands else c ≠ old ∧ .block c ∈ x.operands := by
  simp only [Machine.Instr.retarget, List.mem_map]
  constructor
  · rintro ⟨o, ho, he⟩
    split at he
    · rename_i hold
      cases he
      rw [if_pos rfl, ← hold]
      exact ho
    · rename_i hold
      subst he
      have hcn : c ≠ new := fun hc => hnew (hc ▸ ho)
      rw [if_neg hcn]
      exact ⟨fun hc => hold (by rw [hc]), ho⟩
  · split
    · rename_i hc
      intro ho
      exact ⟨_, ho, by rw [if_pos rfl, hc]⟩
    · rintro ⟨hc, ho⟩
      exact ⟨_, ho, if_neg (by simpa using hc)⟩

namespace Expanded

variable {p : Plan}

variable (h : Expanded f f' i b pre post p)

include h
theorem op_old (hj : j < f.instrs.size) : (f'.instr j).op = (f.instr j).op := by
  have := congrArg Prod.fst (h.old j hj)
  refine Eq.trans this ?_
  split <;> rfl

theorem op_new {k : Nat} {op : Op} {operands : List Operand}
    (hx : p.code[k]? = some (op, operands)) : (f'.instr (f.instrs.size + k)).op = op :=
  congrArg Prod.fst (h.new k _ hx)

theorem not_phi_test (hp : Planned f i b p) :
    ∀ j ∈ (List.range' f.instrs.size p.test.length).head?,
    decide ((f'.instr j).op = .phi) = false := by
  intro j hj
  cases hp with
  | select _ _ _ _ _ cc =>
    cases hj
    rw [show f.instrs.size = f.instrs.size + 0 from rfl, h.op_new (by rfl)]
    split <;> rfl
  | atomicLoadAdd => cases hj

theorem phis_head (hp : Planned f i b p) (hw : f.WellFormed)
    (hcode : f.code b = pre ++ i :: post) : f'.phis b = f.phis b := by
  rw [phis, h.code_head, takeWhile_append_stop (h.not_phi_test hp), phis_append hp.op_ne_phi hcode]
  refine takeWhile_congr fun j hj => ?_
  rw [h.op_old (hw.toHoused.lt_of_mem (b := b) (by simp [hcode, hj]))]

theorem phis_body (hp : Planned f i b p) : f'.phis f.blocks.size = [] := by
  rw [phis, h.code_body]
  cases hp with
  | select => rfl
  | atomicLoadAdd =>
    have hop : (f'.instr (f.instrs.size + 0)).op = Instr.loadLinked := h.op_new rfl
    refine List.takeWhile_cons_of_neg ?_
    show ¬ decide ((f'.instr (f.instrs.size + 0)).op = .phi) = true
    rw [hop]
    decide

theorem phis_other (hw : f.WellFormed) (hc : c < f.blocks.size) (hcb : c ≠ b) :
    f'.phis c = f.phis c := by
  rw [phis, h.code_other c hc hcb]
  refine takeWhile_congr fun j hj => ?_
  rw [h.op_old (hw.toHoused.lt_of_mem hj)]

theorem phis_tail (hp : Planned f i b p) (hw : f.WellFormed)
    (hcode : f.code b = pre ++ i :: post) (hpost : ∀ j ∈ post.head?, (f.instr j).op ≠ .phi) :
    f'.phis (f.blocks.size + 1) =
      List.range' (f.instrs.size + p.test.length + p.body.length) p.join.length := by
  rw [phis, h.code_tail, takeWhile_append_stop]
  · cases hp with
    | select =>
      have hop : (f'.instr (f.instrs.size + 2)).op = .phi := h.op_new rfl
      show List.takeWhile _ [f.instrs.size + 2] = [f.instrs.size + 2]
      simp [hop]
    | atomicLoadAdd => rfl
  · intro j hj
    have hmem : j ∈ f.code b := by
      rw [hcode]
      simp [List.mem_of_mem_head? hj]
    rw [h.op_old (hw.toHoused.lt_of_mem hmem)]
    simpa using hpost j hj

/-- Only the two new blocks have the second as a successor. -/
theorem mem_preds_iff (hw : f.WellFormed) (c : Nat) :
    c ∈ f'.preds (f.blocks.size + 1) ↔
      c = b ∧ f.blocks.size + 1 ∈ p.testSuccs ∨
        c ≠ b ∧ c = f.blocks.size ∧ f.blocks.size + 1 ∈ p.bodySuccs := by
  have hnot : ∀ d, f.blocks.size + 1 ∉ f.succs d := fun d hd => by
    have := lt_size_of_mem_succs hw hd
    omega
  rw [← (h.keeps.wellFormed hw).edge, h.succs]
  by_cases hc : c = b
  · simp [hc]
  · by_cases hc' : c = f.blocks.size
    · subst hc'
      simp [hc]
    · by_cases hc'' : c = f.blocks.size + 1
      · subst hc''
        simp [hc, hnot]
      · simp [hc, hc', hc'', hnot]

theorem mem_preds_old (hp : Planned f i b p) (hw : f.WellFormed)
    (hb : b < f.blocks.size) {d : Nat} (hd : d < f.blocks.size) (c : Nat) :
    c ∈ f'.preds d ↔ if c = f.blocks.size + 1 then b ∈ f.preds d else c ≠ b ∧ c ∈ f.preds d := by
  have htest : d ∉ p.testSuccs ∧ d ∉ p.bodySuccs := by
    cases hp <;> simp [selectPlan, atomicPlan] <;> omega
  have hbody : f.blocks.size ∉ f.preds d := fun hm => by
    have := lt_of_mem_succs ((hw.edge _ _).2 hm)
    omega
  rw [← (h.keeps.wellFormed hw).edge, h.succs, ← hw.edge, ← hw.edge]
  by_cases hc : c = b
  · have : b ≠ f.blocks.size + 1 := by omega
    simp [hc, this, htest.1]
  · by_cases hc' : c = f.blocks.size
    · subst hc'
      simp [hc, htest.2, succs_of_le (Nat.le_refl _)]
    · by_cases hc'' : c = f.blocks.size + 1
      · subst hc''
        simp [hc]
      · simp [hc, hc', hc'']

theorem operands_old (hj : j < f.instrs.size) :
    (f'.instr j).operands = if ∃ s ∈ f.succs b, j ∈ f.phis s then
      ((f.instr j).retarget b (f.blocks.size + 1)).operands else (f.instr j).operands := by
  refine (congrArg Prod.snd (h.old j hj)).trans ?_
  split <;> rfl

theorem operands_new {k : Nat} {op : Op} {operands : List Operand}
    (hx : p.code[k]? = some (op, operands)) : (f'.instr (f.instrs.size + k)).operands = operands :=
  congrArg Prod.snd (h.new k _ hx)

/-- A phi of an old block names the second new block in place of the block that was split. -/
theorem names_old (hp : Planned f i b p) (hw : f.WellFormed)
    (hphis : PhisNamePreds f) (hb : b < f.blocks.size) {d : Nat} (hd : d < f.blocks.size)
    (hj : j ∈ f.phis d) (c : Nat) : .block c ∈ (f'.instr j).operands ↔ c ∈ f'.preds d := by
  have hnames := hphis d j hj
  have hnew : .block (f.blocks.size + 1) ∉ (f.instr j).operands := fun hm => by
    have := lt_of_mem_succs ((hw.edge _ _).2 ((hnames _).1 hm))
    omega
  have hjd := mem_code_of_mem_phis hj
  rw [h.operands_old (hw.toHoused.lt_of_mem hjd), h.mem_preds_old hp hw hb hd]
  split
  · rw [block_mem_retarget hnew, hnames, hnames]
  · -- the block that was split is not a predecessor
    rename_i hout
    have hbd : b ∉ f.preds d := fun hm => hout ⟨d, (hw.edge b d).2 hm, hj⟩
    rw [hnames]
    split
    · rename_i hc
      subst hc
      exact ⟨fun hm => absurd ((hnames _).2 hm) hnew, fun hm => absurd hm hbd⟩
    · exact ⟨fun hm => ⟨fun hc => hbd (hc ▸ hm), hm⟩, fun hm => hm.2⟩

theorem phisNamePreds (hp : Planned f i b p) (hw : f.WellFormed)
    (hcode : f.code b = pre ++ i :: post) (hpost : ∀ j ∈ post.head?, (f.instr j).op ≠ .phi)
    (hphis : PhisNamePreds f) : PhisNamePreds f' := by
  have hb : b < f.blocks.size := lt_of_mem_code (i := i) (by simp [hcode])
  intro d j hj c
  have hd : d < f.blocks.size + 2 := h.size ▸ lt_of_mem_code (mem_code_of_mem_phis hj)
  rcases Nat.lt_or_ge d f.blocks.size with hold | hge
  · -- an old block has the phis that it had
    have hphis' : f'.phis d = f.phis d := by
      by_cases hdb : d = b
      · rw [hdb]
        exact h.phis_head hp hw hcode
      · exact h.phis_other hw hold hdb
    rw [hphis'] at hj
    exact h.names_old hp hw hphis hb hold hj c
  · rcases Nat.eq_or_lt_of_le hge with rfl | hlt
    · rw [h.phis_body hp] at hj
      cases hj
    · obtain rfl : d = f.blocks.size + 1 := by omega
      rw [h.phis_tail hp hw hcode hpost] at hj
      rw [h.mem_preds_iff hw]
      cases hp with
      | select dst _ _ ifTrue ifFalse =>
        obtain rfl := List.mem_singleton.1 hj
        have hoperands : (f'.instr (f.instrs.size + 2)).operands =
            [.define dst, .use ifTrue, .block b, .use ifFalse, .block f.blocks.size] :=
              h.operands_new rfl
        show .block c ∈ (f'.instr (f.instrs.size + 2)).operands ↔ _
        rw [hoperands]
        simp [selectPlan]
        omega
      | atomicLoadAdd => cases hj

end Expanded

end Usim.Pseudo

end GraphLowering
