import GraphLowering.Proofs.Machine.Edits

/-!
# Functions of machine code whose numbers make sense

What the operations on blocks keep however they are used, also if an instruction is listed or a
block is laid out more than once: numbers are those of what is there (`InRange`), the block of an
instruction lists it and a register is live once (`Coherent`).
-/

namespace GraphLowering.Machine.Function

variable {f f' g : Function} {b c s i j pos source : Nat} {is : List Nat}

/-- Numbers are those of blocks and instructions that there are. -/
structure InRange (f : Function) : Prop where
  layout : ∀ b ∈ f.layout, b < f.blocks.size
  succs : ∀ b, ∀ s ∈ f.succs b, s < f.blocks.size
  code : ∀ b, ∀ i ∈ f.code b, i < f.instrs.size

structure Coherent (f : Function) : Prop extends InRange f where
  listed : ∀ i b, f.parent i = some b → i ∈ f.code b
  live_nodup : ∀ b, (f.liveIns b).Nodup

theorem WellFormed.inRange (h : f.WellFormed) : f.InRange :=
  ⟨h.lt_size, fun b s hs => lt_of_mem_preds ((h.edge b s).1 hs), fun _ _ => h.toHoused.lt_of_mem⟩

/-! ### Live registers -/

theorem liveIns_addLiveIn (hb : b < f.blocks.size) (r : Register) (c : Nat) :
    (f.addLiveIn b r).liveIns c = if c = b ∧ r ∉ f.liveIns b then f.liveIns c ++
    [r] else f.liveIns c := by
  refine (modifyBlock_changes Block.liveIns (fun l => if r ∈ l then l else l ++ [r])
    (by intro x; split <;> simp [*]) (.inl hb)).trans ?_
  by_cases hc : c = b <;> by_cases hr : r ∈ f.liveIns b <;> simp_all [liveIns]

/-- Making registers live changes blocks only. -/
theorem foldl_addLiveIn (f : Function) (b : Nat) (rs : List Register) :
    rs.foldl (fun g r => g.addLiveIn b r) f =
      { f with blocks := (rs.foldl (fun g r => g.addLiveIn b r) f).blocks } := by
  induction rs generalizing f with
  | nil => rfl
  | cons r rs ih => exact ih _

theorem size_foldl_addLiveIn (rs : List Register) :
    (rs.foldl (fun g r => g.addLiveIn b r) f).blocks.size = f.blocks.size := by
  induction rs generalizing f with
  | nil => rfl
  | cons r rs ih => exact ih.trans (size_modifyBlock _)

theorem foldl_addLiveIn_keeps {α : Type} (p : Block → α)
    (h : ∀ x l, p { x with liveIns := l } = p x) (rs : List Register) (c : Nat) :
    p ((rs.foldl (fun g r => g.addLiveIn b r) f).block c) = p (f.block c) := by
  induction rs generalizing f with
  | nil => rfl
  | cons r rs ih =>
    refine ih.trans (modifyBlock_keeps p fun x => ?_)
    split
    · rfl
    · exact h x _

theorem liveIns_foldl_addLiveIn (hb : b < f.blocks.size) {rs : List Register}
    (h : (f.liveIns b ++ rs).Nodup) (c : Nat) :
    (rs.foldl (fun g r => g.addLiveIn b r) f).liveIns c =
      if c = b then f.liveIns b ++ rs else f.liveIns c := by
  induction rs generalizing f with
  | nil =>
    split
    · rename_i hc
      rw [hc, List.append_nil]
      rfl
    · rfl
  | cons r rs ih =>
    have hr : r ∉ f.liveIns b := fun hr => (List.nodup_append.1 h).2.2 r hr r (by simp) rfl
    have hlive : (f.addLiveIn b r).liveIns b = f.liveIns b ++ [r] := by
      simp [liveIns_addLiveIn hb, hr]
    have := ih (f := f.addLiveIn b r) ((size_modifyBlock _).symm ▸ hb) (by simpa [hlive] using h)
    rw [List.foldl_cons, this, hlive, liveIns_addLiveIn hb]
    by_cases hc : c = b <;> simp [hc]

/-! ### What operations keep -/

namespace Coherent

theorem empty (name : String) : Coherent { name } := by
  have hblock : ∀ b, Function.block { name } b = default := fun _ => block_of_le (Nat.zero_le _)
  have hnil : (default : Block).succs = [] ∧ (default : Block).instrs = [] ∧
    (default : Block).liveIns = [] := ⟨rfl, rfl, rfl⟩
  refine ⟨⟨by simp, ?_, ?_⟩, fun i b hi => absurd (lt_of_parent hi) (Nat.not_lt_zero _), ?_⟩ <;>
    simp [Function.succs, Function.code, liveIns, hblock, hnil]

variable (h : f.Coherent)

include h

theorem congr (hl : ∀ b ∈ f'.layout, b < f'.blocks.size) (hsize : f.blocks.size ≤ f'.blocks.size)
    (hi : f.instrs.size ≤ f'.instrs.size) (hs : ∀ b, f'.succs b = f.succs b)
    (hc : ∀ b, f'.code b = f.code b) (hp : ∀ i, f'.parent i = f.parent i)
    (hlive : ∀ b, (f'.liveIns b).Nodup) : f'.Coherent where
  layout := hl
  succs b s hm := Nat.lt_of_lt_of_le (h.succs b s (hs b ▸ hm)) hsize
  code b i hm := Nat.lt_of_lt_of_le (h.code b i (hc b ▸ hm)) hi
  listed i b hm := hc b ▸ h.listed i b (hp i ▸ hm)
  live_nodup := hlive

theorem createBlock (name : String) : (f.createBlock name).1.Coherent := by
  have hsize := size_createBlock f name
  refine h.congr (fun b hb => hsize ▸ Nat.lt_succ_of_lt (h.layout b hb)) (by omega) (Nat.le_refl _)
    (createBlock_keeps Block.succs name rfl) (createBlock_keeps Block.instrs name rfl)
      (fun _ => rfl) fun b => ?_
  rw [show (f.createBlock name).1.liveIns b = f.liveIns b from createBlock_keeps
    Block.liveIns name rfl b]
  exact h.live_nodup b

theorem newBlock (name : String) : (f.newBlock name).1.Coherent := by
  have hc := h.createBlock name
  refine hc.congr (fun b hb => ?_) (Nat.le_refl _) (Nat.le_refl _) (fun _ => rfl) (fun _ => rfl)
    (fun _ => rfl) hc.live_nodup
  rcases List.mem_append.1 hb with hb | hb
  · exact hc.layout b hb
  · rw [List.mem_singleton.1 hb]
    show f.blocks.size < (f.createBlock name).1.blocks.size
    simp

theorem insertAfter (hb : b < f.blocks.size) (hf : f.insertAfter pos b = some f') :
    f'.Coherent := by
  have hmem := fun c => mem_layout_insertAfter (c := c) hf
  obtain ⟨l₁, l₂, -, -, rfl⟩ := insertAfter_eq_some hf
  refine h.congr (fun c hc => ?_) (Nat.le_refl _) (Nat.le_refl _) (fun _ => rfl) (fun _ => rfl)
    (fun _ => rfl) h.live_nodup
  rcases (hmem c).1 hc with rfl | hc
  · exact hb
  · exact h.layout c hc

theorem newVirtual : f.newVirtual.1.Coherent :=
  h.congr h.layout (Nat.le_refl _) (Nat.le_refl _) (fun _ => rfl) (fun _ => rfl)
    (fun _ => rfl) h.live_nodup

theorem newInstr (op : Op) (operands : List Operand) : (f.newInstr op operands).1.Coherent :=
  h.congr h.layout (Nat.le_refl _) (by simp) (fun _ => rfl) (fun _ => rfl)
    (parent_newInstr op operands) h.live_nodup

theorem addLiveIn (b : Nat) (r : Register) : (f.addLiveIn b r).Coherent := by
  have hsize : (f.addLiveIn b r).blocks.size = f.blocks.size := size_modifyBlock _
  refine h.congr (hsize.symm ▸ h.layout) (Nat.le_of_eq hsize.symm) (Nat.le_refl _)
    (foldl_addLiveIn_keeps Block.succs (fun _ _ => rfl) [r])
      (foldl_addLiveIn_keeps Block.instrs (fun _ _ => rfl) [r])
    (fun _ => rfl) fun c => ?_
  by_cases hb : b < f.blocks.size
  · rw [liveIns_addLiveIn hb]
    split
    · rename_i hc
      obtain ⟨rfl, hr⟩ := hc
      exact (h.live_nodup c).append (List.nodup_singleton r) (by simpa using hr)
    · exact h.live_nodup c
  · rw [liveIns, Function.addLiveIn, block_modifyBlock, if_neg fun hc => hb hc.2]
    exact h.live_nodup c

/-- Instructions come to stand in a block, and may stand elsewhere too. -/
theorem moved (r : Rehoused f f') (his : ∀ i ∈ is, i < f.instrs.size)
    (hparent : ∀ j, f'.parent j = if j ∈ is then some b else f.parent j)
    (hnew : ∀ j ∈ is, j ∈ f'.code b) (hold : ∀ c j, j ∉ is → j ∈ f.code c → j ∈ f'.code c)
    (hfrom : ∀ c j, j ∈ f'.code c → j ∈ is ∨ j ∈ f.code c) : f'.Coherent := by
  refine ⟨⟨r.layout ▸ r.size.symm ▸ h.layout, fun c s hs => ?_, fun c j hj => ?_⟩, fun j c hj => ?_,
    fun c => r.liveIns c ▸ h.live_nodup c⟩
  · exact r.size ▸ h.succs c s (r.succs c ▸ hs)
  · rw [r.instrs]
    exact (hfrom c j hj).elim (his j) (h.code c j)
  · rw [hparent] at hj
    split at hj
    · cases hj
      exact hnew j ‹_›
    · exact hold c j ‹_› (h.listed j c hj)

theorem append (hb : b < f.blocks.size) (his : ∀ i ∈ is, i < f.instrs.size) :
    (f.append b is).Coherent := by
  refine h.moved (.append f b is) his (parent_adopt his) (fun j hj => ?_) (fun c j _ hj => ?_)
    fun c j hj => ?_
  · rw [code_append hb, if_pos rfl]
    exact List.mem_append_right _ hj
  · rw [code_append hb]
    split
    · exact List.mem_append_left _ hj
    · exact hj
  · rw [code_append hb] at hj
    split at hj
    · exact (List.mem_append.1 hj).symm
    · exact .inr hj

theorem prepend (hb : b < f.blocks.size) (his : ∀ i ∈ is, i < f.instrs.size) :
    (f.prepend b is).Coherent := by
  refine h.moved (.prepend f b is) his (parent_adopt his) (fun j hj => ?_) (fun c j _ hj => ?_)
    fun c j hj => ?_
  · rw [code_prepend hb, if_pos rfl]
    exact List.mem_append_left _ hj
  · rw [code_prepend hb]
    split
    · exact List.mem_append_right _ hj
    · exact hj
  · rw [code_prepend hb] at hj
    split at hj
    · exact List.mem_append.1 hj
    · exact .inr hj

theorem splice (hb : b < f.blocks.size) (source start : Nat) :
    (f.splice b source start).Coherent := by
  have hdrop : ∀ j ∈ (f.code source).drop start, j ∈ f.code source := fun j => List.mem_of_mem_drop
  refine h.moved (.splice f b source start) (fun j hj => h.code source j (hdrop j hj))
    (parent_splice fun j => h.code source j) (fun j hj => ?_) (fun c j hout hj => ?_)
      fun c j hj => ?_
  · rw [code_splice hb, if_pos rfl]
    exact List.mem_append_right _ hj
  · rw [code_splice hb]
    refine List.mem_append_left _ ?_
    split
    · rename_i hc
      subst hc
      rw [← List.take_append_drop start (f.code c), List.mem_append] at hj
      exact hj.resolve_right hout
    · exact hj
  · rw [code_splice hb, List.mem_append] at hj
    rcases hj with hj | hj <;> split at hj
    · exact .inr (List.mem_of_mem_take hj)
    · exact .inr hj
    · exact .inl hj
    · cases hj

theorem remove (b i : Nat) : (f.remove b i).1.Coherent := by
  have r := Rehoused.remove f b i
  refine ⟨⟨r.layout ▸ r.size.symm ▸ h.layout, fun c s hs => ?_, fun c j hj => ?_⟩, fun j c hj => ?_,
    fun c => r.liveIns c ▸ h.live_nodup c⟩
  · exact r.size ▸ h.succs c s (r.succs c ▸ hs)
  · rw [r.instrs]
    rw [code_remove] at hj
    split at hj
    · exact h.code c j (List.mem_of_mem_erase hj)
    · exact h.code c j hj
  · by_cases hi : i ∈ f.code b
    · rw [parent_remove hi (h.code b i hi)] at hj
      split at hj
      · cases hj
      · rw [code_remove]
        split
        · exact (List.mem_erase_of_ne ‹_›).2 (h.listed j c hj)
        · exact h.listed j c hj
    · rw [remove_eq, if_neg hi] at hj ⊢
      exact h.listed j c hj

theorem rewired (r : Rewired f f') (hs : ∀ c, ∀ s ∈ f'.succs c, s < f.blocks.size) :
    f'.Coherent where
  layout := r.layout ▸ r.size.symm ▸ h.layout
  succs := r.size.symm ▸ hs
  code c i hi := r.instrs ▸ h.code c i (r.code c ▸ hi)
  listed i c hi := by
    rw [parent, r.instr] at hi
    exact r.code c ▸ h.listed i c hi
  live_nodup c := r.liveIns c ▸ h.live_nodup c

theorem addSuccessor (hb : b < f.blocks.size) (hs : s < f.blocks.size) :
    (f.addSuccessor b s).Coherent := by
  refine h.rewired (.addSuccessor f b s) fun c d hd => ?_
  rw [succs_addSuccessor hb] at hd
  split at hd
  · rcases List.mem_append.1 hd with hd | hd
    · exact h.succs c d hd
    · rwa [List.mem_singleton.1 hd]
  · exact h.succs c d hd

theorem removeSuccessor (b s : Nat) : (f.removeSuccessor b s).Coherent := by
  refine h.rewired (.removeSuccessor f b s) fun c d hd => ?_
  rw [succs_removeSuccessor] at hd
  split at hd
  · exact h.succs c d (List.mem_of_mem_filter hd)
  · exact h.succs c d hd

theorem retargetPhis (s old new : Nat) : (f.retargetPhis s old new).Coherent := by
  have hparent : ∀ j, (f.retargetPhis s old new).parent j = f.parent j := fun j => by
    rw [parent, instr_retargetPhis]
    split <;> rfl
  have hsize : (f.retargetPhis s old new).instrs.size = f.instrs.size := size_foldl_modifyInstr
  rw [retargetPhis_eq] at hparent hsize ⊢
  exact h.congr h.layout (Nat.le_refl _) (Nat.le_of_eq hsize.symm) (fun _ => rfl) (fun _ => rfl)
    hparent h.live_nodup

theorem transferSuccessors (hb : b < f.blocks.size) (source : Nat) :
    (f.transferSuccessors b source).Coherent :=
  transferSuccessors_keeps h hb (h.succs source) fun f s h hb hs =>
    ((h.removeSuccessor source s).addSuccessor ((Rewired.removeSuccessor f source s).size.symm ▸ hb)
      ((Rewired.removeSuccessor f source s).size.symm ▸ hs)).retargetPhis s source b

end Coherent

/-! ### Both kinds of invariants -/

/-- A change after which a function that was well formed or coherent still is. -/
structure Keeps (f f' : Function) : Prop where
  wellFormed : f.WellFormed → f'.WellFormed
  coherent : f.Coherent → f'.Coherent

namespace Keeps

theorem refl (f : Function) : Keeps f f := ⟨id, id⟩

theorem trans (h : Keeps f g) (h' : Keeps g f') : Keeps f f' :=
  ⟨fun hf => h'.wellFormed (h.wellFormed hf), fun hf => h'.coherent (h.coherent hf)⟩

theorem addLiveIns (f : Function) (b : Nat) (rs : List Register) :
    Keeps f (rs.foldl (fun g r => g.addLiveIn b r) f) := by
  induction rs generalizing f with
  | nil => exact refl f
  | cons r rs ih => exact trans ⟨(·.addLiveIn b r), (·.addLiveIn b r)⟩ (ih _)

theorem appendNew (hb : b < f.blocks.size) (op : Op) (operands : List Operand) :
    Keeps f ((f.newInstr op operands).1.append b [(f.newInstr op operands).2]) where
  wellFormed h := (h.newInstr op operands).append hb (free_newInstr op operands)
  coherent h := (h.newInstr op operands).append hb (free_newInstr op operands).lt_size

theorem prependNew (hb : b < f.blocks.size) (op : Op) (operands : List Operand) :
    Keeps f ((f.newInstr op operands).1.prepend b [(f.newInstr op operands).2]) where
  wellFormed h := (h.newInstr op operands).prepend hb (free_newInstr op operands)
  coherent h := (h.newInstr op operands).prepend hb (free_newInstr op operands).lt_size

theorem addSuccessors (hb : b < f.blocks.size) {ss : List Nat} (hs : ∀ s ∈ ss, s < f.blocks.size) :
    Keeps f (ss.foldl (fun f s => f.addSuccessor b s) f) := by
  induction ss generalizing f with
  | nil => exact refl f
  | cons s ss ih =>
    have hsize := (Rewired.addSuccessor f b s).size
    have hlt := hs s (by simp)
    refine trans ⟨(·.addSuccessor hb hlt), (·.addSuccessor hb hlt)⟩
      (ih (hsize.symm ▸ hb) fun t ht => ?_)
    rw [hsize]
    exact hs t (by simp [ht])

end Keeps

end GraphLowering.Machine.Function
