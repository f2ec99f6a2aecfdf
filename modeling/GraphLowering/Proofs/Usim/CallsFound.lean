import GraphLowering.Proofs.Graph.Order
import GraphLowering.Proofs.Usim.Rests
import GraphLowering.Proofs.Usim.ValuesFound
import GraphLowering.Usim.Target

/-!
# Rules for calls find what they look for

Parameters, frames, calls and returns. A convention that passes values gives a place to each of
their parts, so every place has a word and every value has words. The copies and stores that pass
arguments and results are on the chain, one behind the other, between the chain that a call takes
and the one in place of its chain.
-/

namespace GraphLowering.Usim

open GraphLowering.Graph (taken)
open Lower (Session Lowering Adds)
open Lower.Lowering
open Subtarget (Description)

variable {K : Regime} {H : Graph → Prop} {id : Nat} {n : Node} {vt : ValueType} {d : Description}
  {v chain glue callee : Option Value} {ls : List Location} {words : List (List (Option Value))}

/-! ### Registers -/

variable {r : Register}

theorem register_finds (hvt : K.Allows vt) :
    Finds K H (value (·.register r vt)) fun o g => OfType K g vt o :=
  .value (.leaf rfl fun _ _ => hvt)

theorem mark_finds {op : Opcode} {payload : Payload} (hop : op = .register ∨ op = .targetConstant)
    (hvt : K.Allows vt) :
    Finds K H (build (·.leaf op vt payload)) fun v g => OfType K g vt (some v) ∧
    IsMark g v.node := by
  have hmade : isMade op 0 vt := by rcases hop with rfl | rfl <;> rfl
  refine .leafWith (fun g _ => .made (by simp) hmade hvt) fun id g _ h =>
    ⟨h.ofType rfl (Finds.isFree_of_isMade hmade) hvt.glue, ?_⟩
  rw [IsMark, h.node]
  exact ⟨rfl, hop⟩

/-- Glue of the node that a chain comes from, if there is any. -/
structure Glued (K : Regime) (g : Graph) (chain glue : Option Value) : Prop where
  type : ∀ w, glue = some w → (g.Has w ∧ g.type? w = some .glue) ∧ K.Base w.node
  same : K.strict → ∀ v w, chain = some v → glue = some w → ¬ IsCopy g w.node ∧ w.node = v.node

theorem Glued.none {g : Graph} : Glued K g chain none := ⟨nofun, nofun⟩

theorem Made.glued {g : Graph} {i j : Nat} (h : Made K g id n) (hj : n.types[j]? = some .glue)
    (hop : isFree n.op) : Glued K g (some ⟨id, i⟩) (some ⟨id, j⟩) := by
  refine ⟨fun w hw => ?_, fun _ v w hv hw => ?_⟩
  · cases hw
    exact ⟨h.type? hj, h.base⟩
  · cases hv
    cases hw
    simp only [isFree, ne_eq, Bool.and_eq_true, decide_eq_true_eq] at hop
    exact ⟨by rw [IsCopy, h.node]; exact hop.1, rfl⟩

theorem Made.fenced {g : Graph} {i : Nat} (h : Made K g id n) (hi : n.types[i]? = some .chain)
    (hop : (isFence n.op && isFree n.op) = true) : Fenced K g (some ⟨id, i⟩) := by
  rw [Bool.and_eq_true] at hop
  refine ⟨(h.ofType hi hop.2 fun _ => by decide).holds, fun _ v hv => ?_⟩
  cases hv
  rw [h.node]
  exact ⟨hop.1, (h.type? hi).2⟩

/-- What reads registers behind a fence, with the glue that is there. -/
theorem follows_finds {op : Opcode} (marks : List Value) (before : List ValueType)
    (hop : followsCall op) (hgives : op.gives (before ++ [.chain, .glue]))
    (hlink : isChained op && !isName op) (hplain : isPlain op)
    (hk : ∀ os, chainResult? ⟨op, before ++ [.chain, .glue], os, .none⟩ = some before.length)
    (harity : arity op ≤ marks.length + 1) (hb : ∀ vt ∈ before, K.Allows vt)
    (hc : ∀ g, H g → Fenced K g chain) (hg : ∀ g, H g → Glued K g chain glue)
    (hm : ∀ g, H g → ∀ m ∈ marks, Data K g (some m) ∧ IsMark g m.node) :
    Finds K H (build (·.newNode op (before ++ [.chain, .glue])
      (chain :: (marks.map some ++ [glue])))) fun id g =>
      Made K g id ⟨op, before ++ [.chain, .glue], (taken (chain :: (marks.map some ++ [glue]))).map
      some, .none⟩ := by
  refine .newNode fun g hH => ?_
  obtain ⟨c, rfl, hcg⟩ := (hc g hH).holds
  have htaken : taken (some c :: (marks.map some ++ [glue])) = c :: (marks ++ glue.toList) := by
    cases glue <;> simp [taken]
  refine ⟨.chained before [.glue] ⟨c, rfl, hcg.has⟩ (fun o ho => ?_) ?_ hgives hlink
    (.plain hplain) hk fun hK vt hvt => ?_,
    fun v hv => ?_, fun hK => ?_⟩
  · rcases List.mem_append.1 ho with ho | ho
    · obtain ⟨m, hmem, rfl⟩ := List.mem_map.1 ho
      exact .inr ⟨(hm g hH m hmem).1.filled, .of_datum (hm g hH m hmem).1.datum⟩
    · rw [List.mem_singleton.1 ho]
      cases glue with
      | none => exact .inl rfl
      | some w =>
        have hw := ((hg g hH).type w rfl).1
        refine .inr ⟨⟨w, rfl, hw.1⟩, .of_datum fun _ v hv hchain => ?_⟩
        cases hv
        rw [hw.2] at hchain
        cases hchain
  · rw [htaken]
    simp only [List.length_cons, List.length_append]
    omega
  · rcases List.mem_append.1 hvt with hvt | hvt
    · exact (hb vt hvt).chain hK
    · rw [List.mem_singleton.1 hvt]
      decide
  · rw [htaken] at hv
    rcases List.mem_cons.1 hv with rfl | hv
    · exact hcg.base
    rcases List.mem_append.1 hv with hv | hv
    · exact (hm g hH v hv).1.holds.good.base
    · exact ((hg g hH).type v (by simpa using hv)).2
  · obtain ⟨hf, ht⟩ := (hc g hH).fence hK c rfl
    refine .follows hop (by simp) ⟨hcg.has, hcg.plain hK⟩ hf ht (fun m hmem => ?_) fun w hw => ?_
    · have hgood := (hm g hH m hmem).1.holds.good
      exact ⟨⟨hgood.has, hgood.plain hK⟩, (hm g hH m hmem).2⟩
    · have hsame := (hg g hH).same hK c w rfl hw
      exact ⟨⟨((hg g hH).type w hw).1.1, ((hg g hH).type w hw).1.2, hsame.1⟩, hsame.2⟩

theorem copyFromReg_finds (hc : ∀ g, H g → Fenced K g chain) (hg : ∀ g, H g → Glued K g chain glue)
    (hvt : K.Allows vt) : Finds K H (build (·.copyFromReg chain r vt glue)) fun id g =>
      OfType K g vt (some ⟨id, 0⟩) ∧ (Link K g (some ⟨id, 1⟩) chain ∧ Fenced K g (some ⟨id, 1⟩)) ∧
        Glued K g (some ⟨id, 1⟩) (some ⟨id, 2⟩) := by
  refine .build_seq (h := (·.register r vt))
    (k := fun r g => g.newNode .copyFromReg [vt, .chain, .glue] [chain, some r, glue])
    (mark_finds (.inl rfl) hvt) fun reg => ?_
  refine .mono (follows_finds [reg] [vt] rfl rfl rfl rfl (fun _ => rfl) (Nat.le_of_ble_eq_true rfl)
    (by simpa using hvt) (fun g hg => hc g hg.1) (fun g hg' => hg g hg'.1)
    fun g hg => by simpa using ⟨hg.2.1.data hvt, hg.2.2⟩)
    fun id g _ hid =>
    ⟨hid.ofType rfl rfl hvt.glue, ⟨hid.link rfl rfl, hid.fenced rfl rfl⟩,
      hid.glued (j := 2) rfl rfl⟩

theorem readRegister_finds (hc : ∀ g, H g → Fenced K g chain) (hvt : K.Allows vt) :
    Finds K H (result 0 (·.copyFromReg chain r vt none)) fun o g => OfType K g vt o :=
  .result (.mono (copyFromReg_finds hc (fun _ _ => .none) hvt) fun _ _ _ h => h.1)

/-! ### Copies into registers -/

/-- What copies into registers give: a chain that leads to the one they began with, and beside it
glue and registers. The last copy waits for the node that takes its glue. -/
structure CopiesOn (K : Regime) (g : Graph) (p : Option Nat) (chain : Option Value) (c : Copies) :
    Prop where
  filled : Filled g c.chain
  continues : Continues g c.chain chain
  glue : c.glue = none ∨ Filled g c.glue ∧ (K.ordered → Datum g c.glue)
  base : ∀ v, c.chain = some v ∨ c.glue = some v → K.Base v.node
  registers : ∀ o ∈ c.registers, Data K g o
  waits : K.strict → Waits g p c.chain c.glue

theorem CopiesOn.start {g : Graph} (h : Holds K g chain) : CopiesOn K g none chain { chain } := by
  obtain ⟨v, rfl, hv⟩ := h
  refine ⟨⟨v, rfl, hv.has⟩, .refl, .inl rfl,
    ?_, by simp, fun hK => .inl ⟨rfl, ⟨v, rfl, hv.has, hv.plain hK⟩, rfl⟩⟩
  rintro w (hw | hw)
  · cases hw
    exact hv.base
  · cases hw

variable {p : Option Nat} {c : Copies}

/-- What takes the glue of the last copy; it waits itself if it is a copy. -/
theorem copied_goes {op : Opcode} {after : List ValueType} (rest : List (Option Value))
    (q : Nat → Option Nat) (hop : endsCopies op) (hgives : op.gives (.chain :: after))
    (hlink : isChained op && !isName op) (hplain : isPlain op)
    (hk : ∀ os, chainResult? ⟨op, .chain :: after, os, .none⟩ = some 0)
    (hafter : ∀ vt ∈ after, vt = .glue) (hglue : .glue ∈ ValueType.chain :: after ↔ givesGlue op)
    (hq : ∀ id y, q id = some y → y = id ∧ op = .copyToReg ∧ .chain :: after = [.chain, .glue])
    (harity : arity op ≤ rest.length + 1) (hc : ∀ g, H g → CopiesOn K g p chain c)
    (hr : ∀ g, H g → ∀ o ∈ rest, Beside K g op o) :
    Goes K p H (build (·.newNode op (.chain :: after) (c.chain :: (rest ++ [c.glue]))))
    fun id p' g => p' = q id ∧
      Made K g id ⟨op, .chain :: after, (taken (c.chain :: (rest ++ [c.glue]))).map some,
      .none⟩ := by
  have htaken : ∀ {g}, H g → ∀ v ∈ taken (c.chain :: (rest ++ [c.glue])),
      (c.chain = some v ∨ c.glue = some v) ∨ some v ∈ rest := by
    intro g hg v hv
    obtain ⟨o, ho, rfl⟩ := List.mem_filterMap.1 hv
    rcases List.mem_cons.1 ho with ho | ho
    · exact .inl (.inl ho.symm)
    rcases List.mem_append.1 ho with ho | ho
    · exact .inr ho
    · exact .inl (.inr (List.mem_singleton.1 ho).symm)
  refine .newNode q (fun g hg => .chained [] after (hc g hg).filled (fun o ho => ?_) ?_ hgives hlink
    (.plain hplain) hk fun _ vt hvt => ?_)
    (fun g hg v hv => ?_) fun hK g hg hd => ?_
  · rcases List.mem_append.1 ho with ho | ho
    · exact .inr ⟨(hr g hg o ho).holds.filled, (hr g hg o ho).name⟩
    · rw [List.mem_singleton.1 ho]
      exact (hc g hg).glue.imp_right fun h => ⟨h.1, .of_datum h.2⟩
  · obtain ⟨v, hv, -⟩ := (hc g hg).filled
    have hrest : (taken rest).length = rest.length :=
      length_taken fun o ho => (hr g hg o ho).holds.filled
    rw [hv]
    simp only [taken, List.filterMap_cons, List.filterMap_append, List.length_cons,
      List.length_append] at hrest ⊢
    omega
  · rw [hafter vt hvt]
    decide
  · rcases htaken hg v hv with hv | hv
    · exact (hc g hg).base v hv
    · exact (hr g hg _ hv).holds.good.base
  · refine .copies hd hop hglue ((hc g hg).waits hK) (fun v hv => ?_) fun y hy => hq _ y hy
    obtain ⟨o, ho, rfl⟩ := List.mem_filterMap.1 hv
    have hgood := (hr g hg _ ho).holds.good
    exact ⟨hgood.has, hgood.plain hK⟩

/-- The last node of a rule, which takes the glue of the last copy. -/
theorem lastOf_settles {op : Opcode} (rest : List (Option Value)) (hop : endsCopies op)
    (hgives : op.gives [.chain]) (hlink : isChained op && !isName op) (hplain : isPlain op)
    (hk : ∀ os, chainResult? ⟨op, [.chain], os, .none⟩ = some 0) (hglue : givesGlue op = false)
    (hfree : isFree op) (harity : arity op ≤ rest.length + 1)
    (hc : ∀ g, H g → CopiesOn K g p chain c) (hr : ∀ g, H g → ∀ o ∈ rest, Beside K g op o) :
    Goes K p H (value (·.single op .chain (c.chain :: (rest ++ [c.glue]))))
    fun o p' g => p' = none ∧
      Link K g o chain := by
  show Goes K p H (build (·.newNode op [.chain] (c.chain :: (rest ++ [c.glue]))) >>= fun id =>
    pure (some (⟨id, 0⟩ : Value))) _
  refine .bind (copied_goes rest (fun _ => none) hop hgives hlink hplain hk nofun (by simp [hglue])
    nofun harity hc hr) fun id p' => .pure fun g hg => ⟨hg.2.1, ?_⟩
  exact (hg.2.2.link rfl hfree).trans (hc g hg.1).continues

theorem copyToReg?_eq : build? (·.copyToReg? chain r v glue) = (do
    let vt ← typeOf v
    let reg ← build (·.register r vt)
    build (·.newNode .copyToReg [.chain, .glue] [chain, some reg, v, glue])) := by
  funext s
  show outcome _ s = outcome _ s
  simp only [outcome_bind, outcome_graph, outcome_orMalformed, outcome_typeOf]
  cases h : s.graph.operandType? v with
  | none => simp [Graph.copyToReg?, h, required]
  | some vt => simp [Graph.copyToReg?, h, required]; rfl

theorem copyToReg_goes (hc : ∀ g, H g → CopiesOn K g p chain c) (hv : ∀ g, H g → Data K g v) :
    Goes K p H (build? (·.copyToReg? c.chain r v c.glue)) fun id p' g =>
      CopiesOn K g p' chain { c with chain := some ⟨id, 0⟩, glue := some ⟨id, 1⟩ } := by
  rw [copyToReg?_eq]
  have hvt : ∀ {g vt}, H g → g.operandType? v = some vt → K.Allows vt := fun hg => (hv _ hg).allows
  refine (Finds.typeOf fun g hg => (hv g hg).holds).goes fun vt =>
    (Finds.leaf rfl fun g hg => hvt hg.1 hg.2).goes fun reg => ?_
  refine .mono (copied_goes [some reg, v] some rfl rfl rfl rfl (fun _ => rfl) (by simp) (by decide)
    (by simp) (Nat.le_of_ble_eq_true rfl) (fun g hg => hc g hg.1.1) fun g hg => ?_)
    fun id p' g hg hid => ?_
  · simp [(hg.2.data (hvt hg.1.1 hg.1.2)).beside, (hv g hg.1.1).beside]
  · obtain ⟨rfl, hid⟩ := hid
    have hcopies := hc g hg.1.1
    have hchain := hid.type? (i := 0) rfl
    have hglue := hid.type? (i := 1) rfl
    refine ⟨⟨_, rfl, hchain.1⟩, (hid.continues rfl).trans hcopies.continues,
      .inr ⟨⟨_, rfl, hglue.1⟩, fun _ w hw => ?_⟩, ?_, hcopies.registers,
      fun _ => .inr ⟨id, rfl, rfl, rfl⟩⟩
    · cases hw
      rw [hglue.2]
      decide
    · rintro w (hw | hw) <;> cases hw <;> exact hid.base

/-! ### Words of values -/

theorem IsWordType.allows (h : IsWordType vt) : K.Allows vt :=
  .of (by rcases h with rfl | rfl <;> decide)

variable {parts : List ValueType}

theorem allows_of_partTypes? (h : partTypes? vt = some parts) : K.Allows vt := by
  refine .of ⟨?_, ?_⟩ <;> rintro rfl <;> cases h

theorem length_partTypes? (h : partTypes? vt = some parts) :
    parts.length = if vt.isWide then 2 else 1 := by
  cases vt <;> cases h <;> rfl

theorem wordsOf_finds (hv : ∀ g, H g → Data K g v) :
    Finds K H (wordsOf v) fun ws g => (∀ o ∈ ws, Data K g o) ∧
      ∀ vt, g.operandType? v = some vt → ws.length = if vt.isWide then 2 else 1 := by
  have htype : ∀ {g : Graph} {vt vt' : ValueType}, g.operandType? v = some vt →
    g.operandType? v = some vt' →
      vt' = vt := by
    intro g vt vt' h h'
    rw [h] at h'
    exact (Option.some.inj h').symm
  refine .bind (.typeOf fun g hg => (hv g hg).holds) fun vt =>
    .ite (fun hw => ?_) fun hw => .ite (fun _ => ?_) fun _ => ?_
  · refine .bind (halves_finds fun g hg => hv g hg.1) fun r =>
      .pure fun g hg => ⟨by simp [hg.2.low, hg.2.high], fun vt' h => ?_⟩
    rw [htype hg.1.2 h, if_pos hw]
    rfl
  · refine .bind (unary_finds (by rfl) (fun _ _ => K.allows_word) fun g hg => hv g hg.1) fun r =>
      .pure fun g hg => ⟨by simp [hg.2.word], fun vt' h => ?_⟩
    rw [htype hg.1.2 h, if_neg hw]
    rfl
  · refine .pure fun g hg => ⟨by simp [hv g hg.1], fun vt' h => ?_⟩
    rw [htype hg.2 h, if_neg hw]
    rfl

theorem ofWords_finds {ws : List (Option Value)} (hp : partTypes? vt = some parts)
    (hw : ∀ g, H g → List.Forall₂ (OfType K g) parts ws) :
    Finds K H (ofWords vt ws) fun o g => OfType K g vt o := by
  refine .given (fun g hg => (hw g hg).length_eq) fun hlen => ?_
  rw [length_partTypes? hp] at hlen
  unfold ofWords
  split
  next low high =>
    obtain rfl : parts = [.i32, .i32] := by
      cases vt <;> first | exact (Option.some.inj hp).symm | cases hlen
    have hwords : ∀ g, H g → OfType K g .i32 low ∧ OfType K g .i32 high :=
      fun g hg => by simpa using hw g hg
    exact wordPair_finds (fun _ _ => allows_of_partTypes? hp) hwords
  next word rest hne =>
    obtain ⟨part, rfl, hvt⟩ : ∃ part, parts = [part] ∧ (vt.isNarrow ∨ part = vt) := by
      cases vt <;> first
        | cases hp
          exact ⟨_, rfl, by decide⟩
        | obtain ⟨high, rfl⟩ := List.length_eq_one_iff.1 (Nat.succ.inj hlen).symm
          exact absurd rfl (hne high)
        | cases hp
    have hword : ∀ g, H g → OfType K g part word := fun g hg => (List.forall₂_cons.1 (hw g hg)).1
    refine .ite (fun _ => unary_finds rfl (fun _ _ => allows_of_partTypes? hp) fun g hg =>
      (hword g hg).data ?_) fun hwide => .pure fun g hg => ?_
    · exact (isWordType_of_mem_partTypes? hp (by simp)).allows
    exact hvt.resolve_left hwide ▸ hword g hg
  next => cases vt <;> cases hlen

/-- Each value has words at its places. -/
theorem joined_finds {types : List ValueType} {placed : List (Location × Option Value)}
    (hp : ∀ i vt, types[i]? = some vt →
      partTypes? vt = some ((ls.filter (·.value = i)).map (·.type)))
    (hw : ∀ g, H g → List.Forall₂ (fun l p => p.1 = l ∧ OfType K g l.type p.2) ls placed) :
    Finds K H (types.zipIdx.mapM fun (vt, i) => ofWords vt (wordsAt i placed)) fun r g =>
      List.Forall₂ (OfType K g) types r := by
  refine .mono (.mapM (R := fun q o g => OfType K g q.1 o) fun q hq => ?_) fun r g _ h => ?_
  · refine ofWords_finds (hp q.2 q.1 (List.mem_zipIdx_iff_getElem?.1 hq)) fun g hg => ?_
    rw [List.forall₂_map_left_iff]
    exact wordsAt_forall₂ q.2 (hw g hg)
  · rw [← List.zipIdx_map_fst 0 types, List.forall₂_map_left_iff]
    exact h

/-- Every place has a word. -/
def Supplied (K : Regime) (g : Graph) (ls : List Location) (words : List (List (Option Value))) :
    Prop :=
  ∀ l ∈ ls, ∃ o, (words[l.value]?).bind (·[l.part]?) = some o ∧ Data K g o

theorem wordFor_finds {l : Location} (hl : l ∈ ls) (h : ∀ g, H g → Supplied K g ls words) :
    Finds K H (wordFor words l) fun o g => Data K g o := by
  refine (Finds.orMalformed fun g hg => ?_).mono fun o g hg ho => ?_
  · obtain ⟨o, ho, -⟩ := h g hg l hl
    simp [ho]
  · obtain ⟨o', ho', hdata⟩ := h g hg l hl
    rw [ho] at ho'
    exact Option.some.inj ho' ▸ hdata

variable {values : List (Option Value)}

theorem supplied {g : Graph} {types : List ValueType}
    (htypes : List.Forall₂ (fun v vt => g.operandType? v = some vt) values types)
    (hwords : List.Forall₂ (fun v ws => (∀ o ∈ ws, Data K g o) ∧
      ∀ vt, g.operandType? v = some vt → ws.length = if vt.isWide then 2 else 1) values words)
    (hl : ∀ l ∈ ls, ∃ vt parts, types[l.value]? = some vt ∧ partTypes? vt = some parts ∧
      l.part < parts.length) :
    Supplied K g ls words := by
  intro l hmem
  obtain ⟨vt, parts, hvt, hparts, hpart⟩ := hl l hmem
  obtain ⟨hi, rfl⟩ := List.getElem?_eq_some_iff.1 hvt
  have hiv : l.value < values.length := htypes.length_eq ▸ hi
  have hiw : l.value < words.length := hwords.length_eq ▸ hiv
  obtain ⟨hdata, hlen⟩ := hwords.get hiv hiw
  have hlen := hlen _ (htypes.get hiv hi)
  rw [length_partTypes? hparts] at hpart
  have hpw : l.part < (words.get ⟨l.value, hiw⟩).length := by
    rw [hlen]
    exact hpart
  refine ⟨(words.get ⟨l.value, hiw⟩)[l.part], ?_, hdata _ (List.getElem_mem hpw)⟩
  rw [List.getElem?_eq_getElem hiw]
  exact List.getElem?_eq_getElem hpw

/-! ### Parameters -/

theorem frameIndex_finds {i : Int} (hi : K.strict → i < 0) :
    Finds K H (value (·.frameIndex i pointerType)) fun o g => Pointer K g o ∧
      ∃ v, o = some v ∧ g.Has v ∧ K.Base v.node ∧ (K.strict → IsSlot g v.node) := by
  refine .valueWith (.leafWith
    (fun g _ => ⟨.value (by simp) (Nat.zero_le _) rfl rfl (fun _ => by decide)
    (.plain rfl), nofun, fun _ =>
    ⟨nofun, nofun, by decide, fun _ => ⟨rfl, rfl⟩, nofun, nofun, nofun⟩⟩) fun id g _ h => ?_)
  have hslot : K.strict → IsSlot g id := fun hK => by
    rw [IsSlot, h.node]
    exact ⟨rfl, hi hK⟩
  obtain ⟨hhas, ht⟩ := h.type? (i := 0) rfl
  refine ⟨⟨fun _ w hw => ?_, _, rfl, hhas, h.base, fun hK => .inr (hslot hK)⟩, _, rfl,
    hhas, h.base, hslot⟩
  cases hw
  rw [ht]
  decide

/-- What the caller left in a slot is read at the entry. -/
theorem slotLoad_finds {ptr : Option Value} (hvt : IsWordType vt)
    (he : ∀ g, H g → Fenced K g (some Graph.entry))
    (hp : ∀ g, H g → Pointer K g ptr ∧ ∃ v, ptr = some v ∧ g.Has v ∧ K.Base v.node ∧
      (K.strict → IsSlot g v.node)) :
    Finds K H (result 0 (·.load (some Graph.entry) ptr vt)) fun o g => OfType K g vt o := by
  refine .result (.mono (.newNode fun g hg => ?_) fun id g _ hid =>
    hid.ofType rfl rfl hvt.allows.glue)
  obtain ⟨haddress, v, rfl, hhas, hbase, hslot⟩ := hp g hg
  have hentry := (he g hg).holds.good
  refine ⟨.chained [vt] [] ⟨_, rfl, hentry.has⟩ (fun o ho => ?_) (Nat.le_refl 2) rfl rfl
    (.plain rfl) (fun _ => rfl)
    fun hK => by simpa using hvt.allows.chain hK, by simp [taken, hentry.base, hbase], fun hK =>
    .slotLoad ⟨hentry.has, hentry.plain hK⟩ hhas (hslot hK) hvt.ne_glue hvt.word⟩
  rw [List.mem_singleton.1 ho]
  exact .inr ⟨⟨v, rfl, hhas⟩, .of_datum haddress.datum⟩

theorem readIncoming_finds {l : Location} (hl : IsWordType l.type) :
    Finds K H (readIncoming l) fun o g => OfType K g l.type o := by
  refine .with_entry ?_
  unfold readIncoming
  split
  · exact readRegister_finds (fun g hg => hg.2) hl.allows
  · exact Finds.createFixed (k := fun i => value (·.frameIndex i pointerType) >>= fun ptr =>
      result 0 (·.load (some Graph.entry) ptr l.type)) fun i hi =>
      .bind (frameIndex_finds fun _ => hi) fun ptr => slotLoad_finds hl (fun g hg => hg.1.2)
      fun g hg => hg.2

theorem formalsAt_finds {params : List ValueType} (hl : ∀ l ∈ ls, IsWordType l.type)
    (hp : ∀ i vt, params[i]? = some vt →
      partTypes? vt = some ((ls.filter (·.value = i)).map (·.type))) :
    Finds K H (formalsAt params ls) fun r g => List.Forall₂ (OfType K g) params r :=
  .bind (.mapM (R := fun l p g => p.1 = l ∧ OfType K g l.type p.2) fun l hl' =>
    .bind (readIncoming_finds (hl l hl')) fun _ => .pure fun _ hg => ⟨rfl, hg.2⟩) fun _ =>
    joined_finds hp fun _ hg => hg.2

theorem lowerFormals_finds : Finds K H (lowerFormals d) fun r g => ∀ o ∈ r, Holds K g o := by
  rw [lowerFormals_eq]
  refine .graph_bind (fun g₀ => ?_) fun x p s t _ hc _ => by rw [hc.signature]
  dsimp only
  split
  · exact .unrepresentable
  rename_i ls bytes hseq
  have hl := (sequenceArguments_words hseq).1
  have hholds : ∀ {g : Graph} {formals : List (Option Value)},
      List.Forall₂ (OfType K g) g₀.signature.params formals → ∀ o ∈ formals, Holds K g o :=
          fun h o ho => by
    obtain ⟨vt, -, hvt⟩ := exists_left_of_forall₂ h ho
    exact hvt.holds
  have hrests : Adds Graph.Sound (formalsAt g₀.signature.params ls) fun vs g => ∀ f, ∀ o ∈ vs, ∃ k,
    Rests f g k o := fun s vs s' h => ⟨(rests_formalsAt (f := {}) hl (fun _ => id) s vs s' h).1,
    fun g hg hs f =>
      (rests_formalsAt hl (fun _ => id) s vs s' h).2 g hg hs⟩
  refine .bind ((formalsAt_finds hl fun i vt hi => ?_).and_adds hrests) fun formals =>
    .bind (.setFormals fun g hg hs o ho => ⟨hholds hg.2.1 o ho, fun f v hv => ?_⟩) fun _ =>
    .pure fun g hg => hholds hg.1.2.1
  · exact (sequenceArguments_parts hseq).2 i { type := vt } (by simp [fixedArguments, hi])
  · obtain ⟨_, w, hw, -, h⟩ := hg.2.2 hs f o ho
    cases hv.symm.trans hw
    exact h

theorem formalsOnce_finds : Finds K H (formalsOnce d) fun r g => ∀ o ∈ r, Holds K g o := by
  intro p s t hs hc hH
  cases hf : s.formals with
  | none =>
    have hout : ∀ u : Session, u.formals = none → outcome (formalsOnce d) u =
        outcome (lowerFormals d) u := by
      rintro ⟨⟩ hu
      cases hu
      rfl
    obtain ⟨r, p', s', t', hm, ht, hrest⟩ := lowerFormals_finds p s t hs hc hH
    refine ⟨r, p', s', t', (hout s hf).trans hm, fun hK => ?_, hrest⟩
    obtain ⟨x, hx⟩ := Regime.strict_iff.1 hK
    exact (hout t ((hc x hx).formals.trans hf)).trans (ht hK)
  | some vs =>
    have hout : ∀ u : Session, u.formals = some vs → outcome (formalsOnce d) u = (.ok vs, u) := by
      rintro ⟨⟩ hu
      cases hu
      rfl
    refine ⟨.ok vs, p, s, t, hout s hf, fun hK => ?_, hs, hc, .refl _,
      fun g hg => ⟨rfl, fun o ho => Holds.extends ?_ hg⟩⟩
    · obtain ⟨x, hx⟩ := Regime.strict_iff.1 hK
      exact hout t ((hc x hx).formals.trans hf)
    · obtain ⟨v, rfl, hhas⟩ := hs.formals vs hf o ho
      refine ⟨v, rfl, hhas, fun x hx => (hc x hx).formals_base vs hf v ho, fun hK => ?_⟩
      obtain ⟨x, hx⟩ := Regime.strict_iff.1 hK
      obtain ⟨_, ⟨⟩, hsecure⟩ := (hc x hx).left.formals vs hf _ ho
      exact hsecure.plain

theorem argument_finds {formals : List (Option Value)} (hn : ∀ g, H g → Known K g id n)
    (hop : n.op = .argument) (hf : ∀ g, H g → ∀ o ∈ formals, Holds K g o) :
    Finds K H (argumentAmong id formals) fun r g => Suits K g n r := by
  refine .given (fun g hg => (hn g hg).shares) fun hid => .bind (.node hn) fun n' =>
    .ite (fun _ => .unsupported_bind hid) fun _ => ?_
  dsimp only
  split
  · exact .unsupported hid
  · rename_i v hv
    have hmem := List.mem_of_getElem? hv
    refine .bind (.typeOf fun g hg => hf g hg.1 v hmem) fun declared =>
      .bind (.resultType fun g hg => hn g hg.1.1) fun vt => .ite (fun _ => .unsupported_bind hid)
        fun hsame => ?_
    refine .pure fun g hg => (hn g hg.1.1.1).suits_value hop hg.2
      (OfType.serves ?_ ((hn g hg.1.1.1).allows hop hg.2 rfl)) rfl
    exact (hf g hg.1.1.1 v hmem).ofType (Decidable.not_not.1 hsame ▸ hg.1.2)

theorem lowerArgument_finds (hn : ∀ g, H g → Known K g id n) (hop : n.op = .argument) :
    Finds K H (lowerArgument d id) fun r g => Suits K g n r := by
  rw [lowerArgument_eq]
  exact .bind formalsOnce_finds fun _ => argument_finds (fun g hg => hn g hg.1) hop fun _ hg => hg.2

/-! ### Frames -/

theorem followFrames_finds (depth : Nat) (hvt : K.Allows vt) (hv : ∀ g, H g → OfType K g vt v) :
    Finds K H (followFrames d vt depth v) fun o g => OfType K g vt o := by
  induction depth generalizing v H with
  | zero => exact .pure hv
  | succ depth ih =>
    have hdata := fun g hg => (hv g hg).data hvt
    refine .bind (addressAt_finds (fun g hg => (hdata g hg).pointer) _) fun ptr => .with_entry ?_
    refine .bind (.result (.mono (load_finds (fun _ _ => hvt) (fun g hg => hg.2.holds)
      fun g hg => hg.1.2.elim (· ▸ hdata g hg.1.1) (·)) fun _ _ _ h => h.1)) fun fp => ?_
    exact ih fun g hg => hg.2

theorem frameAddress_finds {depth : Int64} (hvt : K.Allows vt) :
    Finds K H (frameAddress d depth vt) fun r g => OfType K g vt r.1 := by
  refine .ite (fun _ => .bind (.value (.leaf rfl fun _ _ => hvt)) fun o => .pure fun g hg => hg.2)
    fun _ => .with_entry ?_
  refine .bind (readRegister_finds (fun g hg => hg.2) hvt) fun fp => ?_
  exact .bind (followFrames_finds _ hvt fun g hg => hg.2) fun o => .pure fun g hg => hg.2

theorem frameDepth_eq : frameDepth id = (do
    let o ← operand id 0
    match (← graph).constant? o with
    | some depth => if depth < 0 then unsupported id .frameDepth else return depth
    | none => unsupported id .frameDepth) := by
  funext s
  show outcome _ s = outcome _ s
  simp only [outcome_bind, outcome_graph, outcome_operand]
  cases required (s.graph.node id).operands[0]? <;> rfl

theorem frameDepth_finds {op : Opcode} (hn : ∀ g, H g → Known K g id n) (hop : n.op = op)
    (hi : (0 < arity op && isTaken op 0) = true) : Finds K H (frameDepth id) fun _ _ => True := by
  rw [frameDepth_eq]
  refine .given (fun g hg => (hn g hg).shares) fun hid => .bind (.slotOf hn hop hi) fun o =>
    .graph_bind (fun g₀ => ?_) fun x p s t hx hc hH => ?_
  · split
    · exact .ite (fun _ => .unsupported hid) fun _ => .pure fun _ _ => trivial
    · exact .unsupported hid
  · obtain ⟨v, rfl, hv⟩ := hH.2.2
    simp only [Graph.constant?, Option.bind_some, hc.node _ (hv.base.shares x hx)]

theorem lowerFrameAddr_finds (hn : ∀ g, H g → Known K g id n) (hop : n.op = .frameAddr) :
    Finds K H (lowerFrameAddr d id) fun r g => Suits K g n r := by
  refine .bind (frameDepth_finds hn hop (by rfl)) fun depth =>
    .bind (.modifyFrame (fun _ => rfl) fun _ => rfl) fun _ =>
    .bind (.resultType fun g hg => hn g hg.1.1) fun vt =>
    .given (fun g hg => (hn g hg.1.1.1).allows hop hg.2 rfl) fun hvt =>
    .bind (frameAddress_finds hvt) fun r => ?_
  have hsuits : ∀ {g : Graph} {o : Option Value}, H g → n.types[0]? = some vt → OfType K g vt o →
    Suits K g n [o] := fun {g} _ hg h0 ho => (hn g hg).suits_value hop h0 (ho.serves hvt) rfl
  exact .ite (fun _ => .bind .debug fun _ => .pure fun g hg => hsuits hg.1.1.1.1.1 hg.1.1.2 hg.1.2)
    fun _ => .pure fun g hg => hsuits hg.1.1.1.1 hg.1.2 hg.2

theorem lowerReturnAddr_finds (hn : ∀ g, H g → Known K g id n) (hop : n.op = .returnAddr) :
    Finds K H (lowerReturnAddr d id) fun r g => Suits K g n r := by
  refine .bind (frameDepth_finds hn hop (by rfl)) fun depth =>
    .bind (.modifyFrame (fun _ => rfl) fun _ => rfl) fun _ =>
    .bind (.resultType fun g hg => hn g hg.1.1) fun vt =>
    .given (fun g hg => (hn g hg.1.1.1).allows hop hg.2 rfl) fun hvt => .with_entry ?_
  refine .mono (Q := GivesOne (OfType K · vt ·)) (.ite (fun _ => ?_) fun _ => ?_)
    fun r g hg ⟨o, hr, ho⟩ => ?_
  · exact .bind (readRegister_finds (fun g hg => hg.2) hvt) fun o =>
      .pure fun g hg => ⟨o, rfl, hg.2⟩
  · refine .bind (.modifyFrame (fun _ => rfl) fun _ => rfl) fun _ =>
      .bind (frameAddress_finds hvt) fun r =>
      .ite (fun _ => .pure fun g hg => ⟨_, rfl, hg.2⟩) fun _ =>
      .bind (addressAt_finds (fun g hg => (hg.2.data hvt).pointer) _) fun ptr =>
      .bind (.result (.mono (load_finds (fun _ _ => hvt) (fun g hg => hg.1.1.1.2.holds)
        fun g hg => hg.2.elim (· ▸ hg.1.2.data hvt) (·)) fun _ _ _ h => h.1)) fun o => ?_
    exact .pure fun g hg => ⟨o, rfl, hg.2⟩
  · subst hr
    exact (hn g hg.1.1.1.1).suits_value hop hg.1.2 (ho.serves hvt) rfl

/-! ### Arguments of calls -/

theorem copyToRegisters_goes (hl : ∀ l ∈ ls, IsWordType l.type) (hc : ∀ g, H g → Holds K g chain)
    (hw : ∀ g, H g → Supplied K g ls words) :
    Goes K none H (copyToRegisters chain ls words) fun c p g => CopiesOn K g p chain c := by
  refine .foldlM (I := fun c p g => CopiesOn K g p chain c) (fun l hmem c p => ?_) fun g hg =>
    .start (hc g hg)
  split
  · exact .pure fun g hg => hg.2
  · refine (wordFor_finds hmem fun g hg => hw g hg.1).goes fun word =>
      (copyToReg_goes (fun g hg => hg.1.2) fun g hg => hg.2).bind fun copy p =>
      (register_finds (hl l hmem).allows).goes fun reg => .pure fun g hg => ?_
    obtain ⟨⟨-, hcopies⟩, hreg⟩ := hg
    refine { hcopies with registers := fun o ho => ?_ }
    rcases List.mem_append.1 ho with ho | ho
    · exact hcopies.registers o ho
    · exact List.mem_singleton.1 ho ▸ hreg.data (hl l hmem).allows

theorem targetCallee_finds (hc : ∀ g, H g → Data K g callee) :
    Finds K H (targetCallee callee) fun o g => Data K g o := by
  refine .bind (.nodeOf fun g hg => (hc g hg).holds) fun n => ?_
  split
  · exact .mono (.word rfl) fun _ _ _ ho => ho.word
  · exact .mono (.word rfl) fun _ _ _ ho => ho.word
  · exact .pure fun g hg => hc g hg.1

theorem incomingLoads_finds : Finds K H incomingLoads fun r g => ∀ o ∈ r, Holds K g o := by
  intro p s t hs hc _
  have hsound := hs.shaped.sound
  have hread := outcome_incomingLoads hsound fun id hid hop => by
    have := (hs.shaped.fits id hid).arity
    rwa [hop] at this
  refine ⟨.ok _, p, s, t, hread, fun hK => ?_, hs, hc, .refl _,
    fun g hg => ⟨rfl, fun o ho => Holds.extends ?_ hg⟩⟩
  · obtain ⟨x, hx⟩ := Regime.strict_iff.1 hK
    have hd := (hc x hx).right.disciplined
    rw [outcome_incomingLoads hd.sound fun id _ hop => (hd.load id hop).ge,
      (hc x hx).incomingLoads_right]
  · obtain ⟨id, hid, rfl⟩ := List.mem_map.1 ho
    obtain ⟨hmem, hl⟩ := List.mem_filter.1 hid
    have hcon := hsound.contains_of_mem_nodes hmem
    have hop := (isIncomingLoad_iff.1 hl).1
    obtain ⟨vt, rest, ht⟩ :=
      List.exists_cons_of_ne_nil (Opcode.ne_nil_of_gives (hs.shaped.fits id hcon).gives)
    have htypes := (hs.shaped.fits id hcon).loaded hop (by rw [ht]; rfl)
    have htype : s.graph.type? ⟨id, 1⟩ = some .chain := by
      rw [Graph.type?_eq, htypes]
      rfl
    refine ⟨_, rfl, ⟨hcon, by rw [htype]; rfl⟩, fun x hx => (hc x hx).base_incomingLoad hcon hl,
      fun _ => ⟨?_, ?_, ?_⟩⟩
    · rw [htype]
      decide
    · rw [IsCopy, hop]
      decide
    · rintro ⟨hslot, -⟩
      rw [hop] at hslot
      cases hslot

theorem outgoingSlot_eq {size offset : Int64} : outgoingSlot size offset = (do
    let g ← graph
    ((g.frame.fixedAt? offset).filter fun o => o.size = size && !o.immutable).elim
      (do
        let g ← graph
        setGraph { g with frame := (g.frame.createFixed size offset false).1 }
        return (g.frame.createFixed size offset false).2)
      fun o => return o.index) := by
  funext s
  show outcome _ s = outcome _ s
  simp only [outcome_bind, outcome_graph]
  cases (s.graph.frame.fixedAt? offset).filter fun o => o.size = size && !o.immutable <;> rfl

theorem outgoingSlot_finds {size offset : Int64} :
    Finds K H (outgoingSlot size offset) fun i _ => K.strict → i < 0 := by
  rw [outgoingSlot_eq]
  refine .frame_bind (fun g₀ hfixed => ?_) fun g g' hframe => by rw [hframe]
  cases ho : (g₀.frame.fixedAt? offset).filter fun o => o.size = size && !o.immutable with
  | none => exact .createFixed (k := fun i => pure i) fun i hi => .pure fun _ _ _ => hi
  | some o =>
    refine .pure fun _ _ hK => (hfixed hK).fixed o ?_
    exact Frame.mem_of_fixedAt? (Option.filter_eq_some_iff.1 ho).1

/-- Stores behind one chain, one for each word on the stack, and the chain behind all of them. -/
theorem stored_finds (chain : Option Value) {m : Location → Lowering (Option Value)}
    (hne : ¬ (ls.filter fun l => !(l.place matches .register _)).isEmpty)
    (hm : ∀ l ∈ ls, ∀ offset, l.place = .stack offset → Finds K H (m l) fun o g =>
      Link K g o chain) :
    Finds K H ((ls.filter fun l => !(l.place matches .register _)).mapM m >>= fun stores =>
      value (·.tokenFactor stores)) fun o g => LeadsOn K g o chain := by
  refine .bind (.mapM (R := fun _ o g => Link K g o chain) fun l hl => ?_) fun stores =>
    .given (fun g hg => hg.2.length_eq) fun hlen => ?_
  · obtain ⟨hl, hstack⟩ := List.mem_filter.1 hl
    cases hp : l.place with
    | register r =>
      rw [hp] at hstack
      cases hstack
    | stack offset => exact hm l hl offset hp
  · cases stores with
    | nil => exact absurd (List.isEmpty_iff_length_eq_zero.2 hlen) hne
    | cons store stores =>
      refine .under (H := fun g => ∀ o ∈ store :: stores, Link K g o chain) ?_ fun g hg o ho => ?_
      · exact (tokenFactor_finds fun g hg o ho => (hg o ho).holds).mono fun o g hg ho =>
          ⟨ho.1.holds, ho.1.continues.trans (hg store List.mem_cons_self).continues⟩
      · obtain ⟨l, -, hlink⟩ := exists_left_of_forall₂ hg.2 ho
        exact hlink

theorem storeOverIncoming_finds (hc : ∀ g, H g → Holds K g chain)
    (hw : ∀ g, H g → Supplied K g ls words) :
    Finds K H (storeOverIncoming chain ls words) fun o g => LeadsOn K g o chain := by
  refine .ite (fun _ => .pure fun g hg => ⟨hc g hg, .refl⟩) fun hne =>
    .bind incomingLoads_finds fun loads =>
    .bind (tokenFactor_finds fun g hg o ho => ?_) fun start =>
    (stored_finds start hne fun l hl offset hp => ?_).mono fun o g hg ho =>
    ⟨ho.holds, ho.continues.trans hg.2.1.continues⟩
  · rcases List.mem_cons.1 ho with rfl | ho
    · exact hc g hg.1
    · exact hg.2 o ho
  · rw [hp]
    refine .bind outgoingSlot_finds fun i => .given (fun _ hg => hg.2) fun hi =>
      .bind (wordFor_finds hl fun g hg => hw g hg.1.1.1) fun word =>
        .bind (frameIndex_finds hi) fun ptr => ?_
    exact store_finds (fun g hg => hg.1.1.1.2.1.holds) (fun g hg => hg.1.2) fun g hg => hg.2.1

theorem storeOutgoing_finds (hc : ∀ g, H g → Fenced K g chain)
    (hw : ∀ g, H g → Supplied K g ls words) :
    Finds K H (storeOutgoing d chain ls words) fun o g => LeadsOn K g o chain := by
  refine .ite (fun _ => .pure fun g hg => ⟨(hc g hg).holds, .refl⟩) fun hne =>
    .bind (readRegister_finds hc K.allows_word) fun sp => stored_finds chain hne
      fun l hl offset hp => ?_
  rw [hp]
  refine .bind (wordFor_finds hl fun g hg => hw g hg.1) fun word =>
    .bind (addressAt_finds (fun g hg => hg.1.2.word.pointer) _) fun ptr => ?_
  exact store_finds (fun g hg => (hc g hg.1.1.1).holds) (fun g hg => hg.1.2)
    fun g hg => hg.2.elim (· ▸ hg.1.1.2.word.pointer) Data.pointer

/-! ### Calls -/

/-- A call gives its results and then a chain. -/
theorem Known.called {g : Graph} (h : Known K g id n) (hop : n.op = .call) :
    n.types = n.types.dropLast ++ [.chain] := by
  have hlast : n.types.getLast? = some .chain := by simpa [hop, Opcode.gives] using h.gives
  exact (List.dropLast_append_getLast? _ hlast).symm

theorem Known.result_allows {g : Graph} (h : Known K g id n) (hop : n.op = .call)
    (hvt : vt ∈ n.types.dropLast) : K.Allows vt := by
  refine ⟨fun hK => ?_, fun hK hg => ?_⟩
  · obtain ⟨i, hi⟩ := List.mem_iff_getElem?.1 hvt
    have hlt := (List.getElem?_eq_some_iff.1 hi).1
    rw [List.length_dropLast] at hlt
    rw [List.getElem?_dropLast, if_pos hlt] at hi
    refine (h.ordered hK).ne_chain hi ?_ (by rw [hop]; rfl)
    rw [chainResult?, hop]
    exact fun h => Nat.ne_of_gt hlt (Option.some.inj h)
  · have := h.glue hK (hg ▸ List.dropLast_subset _ hvt)
    rw [hop] at this
    cases this

theorem Known.suits_call {g : Graph} {results : List (Option Value)} {out : Option Value}
    (h : Known K g id n) (hop : n.op = .call) (h0 : n.operands[0]? = some chain)
    (hr : List.Forall₂ (OfType K g) n.types.dropLast results) (ho : Link K g out chain) :
    Suits K g n (results ++ [out]) := by
  refine ⟨?_, fun hK => .link _ (fun o ho => ?_) h0 ⟨ho.isChain, ho.continues⟩ ?_⟩
  · rw [h.called hop]
    exact List.rel_append (hr.imp fun _ _ hvt => ⟨hvt.holds, fun _ => hvt.operandType?⟩)
      (.cons ⟨ho.holds, fun _ => ho.ofType.operandType?⟩ .nil)
  · obtain ⟨vt, hvt, hof⟩ := exists_left_of_forall₂ hr ho
    exact (hof.data (h.result_allows hop hvt)).datum hK
  · rw [chainResult?, hop, ← hr.length_eq, List.length_dropLast]

/-- The jump to the callee of a tail call, behind the passing of its arguments. -/
def jumpTo (callee chain : Option Value) (ls : List Location) (words : List (List (Option Value))) :
    Lowering (Option Value) := do
  let stored ← storeOverIncoming chain ls words
  let c ← copyToRegisters stored ls words
  let dest ← targetCallee callee
  value (·.single Op.tailCall .chain (c.chain :: dest :: c.registers ++ [c.glue]))

theorem lowerTailCall_eq : lowerTailCall id callee ls words = (do
    let n ← node id
    let chain ← operand id 0
    let jump ← jumpTo callee chain ls words
    modify fun s => { s with graph := { s.graph with root := jump } }
    debug "emitted tail call" [("callee", valueText callee)]
    let results ← n.types.dropLast.mapM fun vt => value (·.undef vt)
    return results ++ [jump]) := by
  unfold lowerTailCall jumpTo
  simp only [bind_assoc]

theorem jumpTo_settles (hl : ∀ l ∈ ls, IsWordType l.type) (hch : ∀ g, H g → Holds K g chain)
    (hc : ∀ g, H g → Data K g callee) (hw : ∀ g, H g → Supplied K g ls words) :
    Settles K H (jumpTo callee chain ls words) fun o g => Link K g o chain := by
  refine (storeOverIncoming_finds hch hw).goes fun stored =>
    (copyToRegisters_goes hl (fun g hg => hg.2.holds) fun g hg => hw g hg.1).bind fun c p =>
    (targetCallee_finds fun g hg => hc g hg.1.1).goes fun dest => ?_
  refine (lastOf_settles (dest :: c.registers) rfl rfl rfl rfl (fun _ => rfl) rfl rfl
    (Nat.zero_le _) (fun g hg => hg.1.2) fun g hg o ho => ?_).mono fun o p' g hg ho =>
    ⟨ho.1, ho.2.trans hg.1.1.2.continues⟩
  rcases List.mem_cons.1 ho with rfl | ho
  · exact hg.2.beside
  · exact (hg.1.2.registers o ho).beside

theorem lowerTailCall_settles (hq : ¬ K.quiet) (hn : ∀ g, H g → Known K g id n) (hop : n.op = .call)
    (hl : ∀ l ∈ ls, IsWordType l.type) (hc : ∀ g, H g → Data K g callee)
    (hw : ∀ g, H g → Supplied K g ls words) :
    Settles K H (lowerTailCall id callee ls words) fun r g => Suits K g n r := by
  rw [lowerTailCall_eq]
  refine (Finds.node hn).goes fun n' => .given (fun _ hg => hg.2) fun hsame => ?_
  subst hsame
  refine (Finds.slotOf (fun g hg => hn g hg.1) hop (by rfl)).goes fun chain =>
    (jumpTo_settles hl (fun g hg => hg.2.2) (fun g hg => hc g hg.1.1) fun g hg => hw g hg.1.1).bind
      fun jump => ?_
  refine Finds.bind (.setRoot hq fun g hg => hg.2.ofType) (fun _ => .bind .debug fun _ =>
    .bind (.mapM (R := fun vt o g => OfType K g vt o) fun vt hvt =>
    .value (.leaf rfl fun g hg => ?_)) fun results => .pure fun g hg => ?_) none
  · exact (hn g hg.1.1.1.1.1).result_allows hop hvt
  · obtain ⟨⟨⟨⟨⟨⟨hH, -⟩, h0, -⟩, hjump⟩, -⟩, -⟩, hresults⟩ := hg
    exact (hn g hH).suits_call hop h0 hresults hjump

/-- Words, chain and glue after the results at some places are read. -/
structure ResultsRead (K : Regime) (chain : Option Value) (ls : List Location)
    (r : List (Location × Option Value) × Option Value × Option Value) (g : Graph) : Prop where
  words : List.Forall₂ (fun l p => p.1 = l ∧ OfType K g l.type p.2) ls r.1
  chain : Link K g r.2.1 chain ∧ Fenced K g r.2.1
  glue : Glued K g r.2.1 r.2.2

theorem copyResults_finds (hl : ∀ l ∈ ls, (∃ x, l.place = .register x) ∧ IsWordType l.type)
    (hc : ∀ g, H g → OfType K g .chain chain ∧ Fenced K g chain)
    (hg : ∀ g, H g → Glued K g chain glue) : Finds K H (copyResults chain glue ls) fun r g =>
      List.Forall₂ (fun l p => p.1 = l ∧ OfType K g l.type p.2) ls r.1 ∧ Link K g r.2 chain := by
  refine .bind (.foldlM_along (p := []) (I := ResultsRead K chain) (fun done l hmem r => ?_)
    fun g hg' => ⟨.nil, ⟨⟨(hc g hg').1, .refl⟩, (hc g hg').2⟩, hg g hg'⟩) fun r => .pure fun g hg =>
    ⟨hg.2.words, hg.2.chain.1⟩
  obtain ⟨⟨x, hx⟩, hword⟩ := hl l hmem
  dsimp only
  rw [hx]
  refine .bind (copyFromReg_finds (fun g hg => hg.2.chain.2) (fun g hg => hg.2.glue) hword.allows)
    fun copy => .pure fun g hg =>
    ⟨?_, ⟨hg.2.2.1.1.trans hg.1.2.chain.1.continues, hg.2.2.1.2⟩, hg.2.2.2⟩
  exact List.rel_append hg.1.2.words (.cons ⟨rfl, hg.2.1⟩ .nil)

variable {bytes : Int64}

theorem callSeqStart_finds (hc : ∀ g, H g → Holds K g chain) :
    Finds K H (value (·.callSeqStart chain bytes)) fun o g => Link K g o chain ∧ Fenced K g o :=
  .valueWith (.build_seq (h := (·.targetConstant bytes .i32))
    (k := fun c g => g.single .callSeqStart .chain [chain, some c])
    (.leaf rfl fun _ _ => K.allows_word) fun c =>
    .single (fun g hg => .chained [] [] (hc g hg.1) (by simp [hg.2.word.beside]) (Nat.zero_le _)
      rfl rfl (.plain rfl) (fun _ => rfl) nofun) fun _ _ _ h => ⟨h.link rfl rfl, h.fenced rfl rfl⟩)

theorem callSeqEnd_finds (hc : ∀ g, H g → Fenced K g chain) (hg : ∀ g, H g → Glued K g chain glue) :
    Finds K H (build (·.callSeqEnd chain bytes glue)) fun id g =>
      (Link K g (some ⟨id, 0⟩) chain ∧ Fenced K g (some ⟨id, 0⟩)) ∧ Glued K g (some ⟨id, 0⟩)
      (some ⟨id, 1⟩) := by
  refine .build_seq (h := (·.targetConstant bytes .i32)) (k := fun b g =>
    (g.targetConstant 0 .i32).1.newNode .callSeqEnd [.chain, .glue]
      [chain, some b, some (g.targetConstant 0 .i32).2, glue]) (mark_finds (.inr rfl) K.allows_word)
      fun b => ?_
  refine .build_seq (h := (·.targetConstant 0 .i32)) (k := fun z g =>
    g.newNode .callSeqEnd [.chain, .glue] [chain, some b, some z, glue])
    (mark_finds (.inr rfl) K.allows_word) fun z => ?_
  refine .mono (follows_finds [b, z] [] rfl rfl rfl rfl (fun _ => rfl)
    (Nat.le_of_ble_eq_true rfl) nofun (fun g hg => hc g hg.1.1) (fun g hg' => hg g hg'.1.1)
    fun g hg => ?_) fun id g _ hid =>
    ⟨⟨hid.link rfl rfl, hid.fenced rfl rfl⟩, hid.glued (j := 1) rfl rfl⟩
  simp [hg.1.2.1.word, hg.1.2.2, hg.2.1.word, hg.2.2]

theorem registerMask_finds {rs : List Register} :
    Finds K H (value (·.registerMask rs)) fun o g => Beside K g Op.call o :=
  .valueWith (.leafWith (fun g _ => .ordinary ⟨by simp [taken], Nat.zero_le _, rfl, .plain rfl,
    fun _ => .named rfl rfl⟩ rfl (by simp) (by simp)) fun id g _ h =>
    ⟨(h.ofType rfl rfl fun _ => by decide).holds,
    fun _ v hv _ => ⟨fun _ => rfl, by
      cases hv
      rw [h.node]
      rfl⟩⟩)

/-- The node of a call, behind the copies of its arguments. -/
theorem call_settles {dest mask : Option Value} (hc : ∀ g, H g → CopiesOn K g p chain c)
    (hd : ∀ g, H g → Data K g dest) (hm : ∀ g, H g → Beside K g Op.call mask) :
    Goes K p H (build (·.newNode Op.call [.chain, .glue]
      (c.chain :: dest :: c.registers ++ [mask, c.glue]))) fun id p' g => p' = none ∧
      (Link K g (some ⟨id, 0⟩) chain ∧ Fenced K g (some ⟨id, 0⟩)) ∧
        Glued K g (some ⟨id, 0⟩) (some ⟨id, 1⟩) := by
  rw [show c.chain :: dest :: c.registers ++ [mask, c.glue] =
    c.chain :: ((dest :: (c.registers ++ [mask])) ++ [c.glue]) by simp]
  refine .mono (copied_goes _ (fun _ => none) rfl rfl rfl rfl (fun _ => rfl) (by simp) (by decide)
    nofun (Nat.le_add_left 1 _) hc fun g hg o ho => ?_) fun id p' g hg hid =>
    ⟨hid.1, ⟨?_, hid.2.fenced rfl rfl⟩, hid.2.glued rfl rfl⟩
  · rcases List.mem_cons.1 ho with rfl | ho
    · exact (hd g hg).beside
    rcases List.mem_append.1 ho with ho | ho
    · exact ((hc g hg).registers o ho).beside
    · exact List.mem_singleton.1 ho ▸ hm g hg
  · exact (hid.2.link rfl rfl).trans (hc g hg).continues

theorem lowerPlainCall_settles {info : CallInfo} {rls : List Location} {cc : CallConv}
    (hn : ∀ g, H g → Known K g id n) (hop : n.op = .call) (hl : ∀ l ∈ ls, IsWordType l.type)
    (hc : ∀ g, H g → Data K g callee) (hw : ∀ g, H g → Supplied K g ls words)
    (hr : sequenceResults d cc n.types.dropLast = .ok rls) :
    Settles K H (lowerPlainCall d id info callee ls rls bytes words) fun r g => Suits K g n r := by
  refine Finds.goes (.modifyFrame (fun _ => rfl) fun _ => rfl) fun _ =>
    (Finds.slotOf (fun g hg => hn g hg.1) hop (by rfl)).goes fun chain =>
    (callSeqStart_finds fun g hg => hg.2.2).goes fun start =>
    (storeOutgoing_finds (fun g hg => hg.2.2) fun g hg => hw g hg.1.1.1).goes fun stored =>
    (copyToRegisters_goes hl (fun g hg => hg.2.holds) fun g hg => hw g hg.1.1.1.1).bind fun c p =>
    (targetCallee_finds fun g hg => hc g hg.1.1.1.1.1).goes fun dest =>
      registerMask_finds.goes fun mask => ?_
  refine .bind (call_settles (fun g hg => hg.1.1.2) (fun g hg => hg.1.2) fun g hg => hg.2)
    fun call p' => .given (fun g hg => hg.2.1) fun hp => ?_
  subst hp
  refine .under (H := fun g => (H g ∧ n.operands[0]? = some chain) ∧
    (Link K g (some ⟨call, 0⟩) chain ∧ Fenced K g (some ⟨call, 0⟩)) ∧
    Glued K g (some ⟨call, 0⟩) (some ⟨call, 1⟩)) ?_ fun g hg => ?_
  · refine Finds.bind (callSeqEnd_finds (fun g hg => hg.2.1.2) fun g hg => hg.2.2) (fun last =>
      .bind (copyResults_finds
      (fun l hl => ⟨((sequenceResults_parts hr).1 l hl).1, (sequenceResults_words hr).1 l hl⟩)
        (fun g hg => ⟨hg.2.1.1.ofType, hg.2.1.2⟩) fun g hg => hg.2.2) fun r =>
      .bind (.node fun g hg => hn g hg.1.1.1.1) fun n' => .given (fun _ hg => hg.2) fun hsame => ?_)
      none
    subst hsame
    refine .bind (joined_finds (sequenceResults_parts hr).2 fun g hg => hg.1.2.1) fun results =>
      .pure fun g hg => ?_
    obtain ⟨⟨⟨⟨⟨⟨hH, h0⟩, hcall, -⟩, hlast⟩, -, hout⟩, -⟩, hresults⟩ := hg
    exact (hn g hH).suits_call hop h0 hresults
      (hout.trans (hlast.1.1.continues.trans hcall.1.continues))
  · obtain ⟨⟨⟨⟨⟨⟨⟨⟨hH, -⟩, h0, -⟩, hstart⟩, hstored⟩, -⟩, -⟩, -⟩, -, ⟨hlink, hfence⟩, hglue⟩ := hg
    exact ⟨⟨hH, h0⟩, ⟨hlink.trans (hstored.continues.trans hstart.1.continues), hfence⟩, hglue⟩

/-! ### What keeps a call from taking over the frame -/

section Alone

variable (hK : K.pairing = none)
include hK

theorem refersToLocal_finds (depth : Nat) (hv : ∀ g, H g → Filled g v) :
    Finds K H (refersToLocal depth v) fun _ _ => True := by
  induction depth generalizing v H with
  | zero =>
    unfold refersToLocal
    refine .bind (.valueAlone hv) fun w => .bind (.nodeAlone hK fun g hg => hg.2.2) fun n => ?_
    split
    · exact .bind (.graph hK) fun _ => .pure fun _ _ => trivial
    all_goals exact .pure fun _ _ => trivial
  | succ depth ih =>
    unfold refersToLocal
    refine .bind (.valueAlone hv) fun w => .bind (.nodeAlone hK fun g hg => hg.2.2) fun n => ?_
    have hsides : 2 ≤ arity n.op → Finds K (fun g => (H g ∧ v = some w ∧ g.contains w.node) ∧
        Known K g w.node n) (do
        if ← refersToLocal depth (← operand w.node 0) then return true
        refersToLocal depth (← operand w.node 1)) fun _ _ => True := fun htwo =>
      .bind (.operandAt (fun g hg => hg.2) rfl (by omega)) fun a =>
        .bind (ih fun g hg => hg.2.2) fun r => .ite (fun _ => .pure fun _ _ => trivial) fun _ =>
        .bind (.operandAt (fun g hg => hg.1.1.2) rfl (by omega)) fun b => ih fun g hg => hg.2.2
    split
    · exact .bind (.graph hK) fun _ => .pure fun _ _ => trivial
    case h_5 => exact .pure fun _ _ => trivial
    all_goals
      rename_i hop
      refine hsides ?_
      rw [hop]
      decide

theorem resultObstacle?_finds {call ret : Nat} {r : Node} {is : List Nat}
    (hr : ∀ g, H g → Known K g ret r) (hi : ∀ i ∈ is, i + 1 < r.operands.length) :
    Finds K H (resultObstacle? call ret is) fun _ _ => True := by
  induction is generalizing H with
  | nil => exact .pure fun _ _ => trivial
  | cons i is ih =>
    refine .bind (.operand fun g hg => ⟨hr g hg, hi i List.mem_cons_self⟩) fun o =>
      .ite (fun _ => .pure fun _ _ => trivial) fun _ => .bind (.graph hK) fun g₀ =>
      .ite (fun _ => .pure fun _ _ => trivial) fun _ => ?_
    exact ih (fun g hg => hr g hg.1.1) fun i hmem => hi i (List.mem_cons_of_mem _ hmem)

theorem argumentObstacle?_finds {as : List (Option Value)} (ha : ∀ g, H g → ∀ o ∈ as, Filled g o) :
    Finds K H (argumentObstacle? as) fun _ _ => True := by
  induction as generalizing H with
  | nil => exact .pure fun _ _ => trivial
  | cons a as ih =>
    refine .bind (refersToLocal_finds hK _ fun g hg => ha g hg a List.mem_cons_self) fun r =>
      .ite (fun _ => .pure fun _ _ => trivial) fun _ => ?_
    exact ih fun g hg o ho => ha g hg.1 o (List.mem_cons_of_mem _ ho)

theorem tailObstacle?_alone {call : Nat} (hn : ∀ g, H g → g.contains call) :
    Finds K H (tailObstacle? d call bytes) fun _ _ => True := by
  have hpure : ∀ {I : Graph → Prop} {r : Option TailObstacle}, Finds K I (pure r) fun _ _ => True :=
    .pure fun _ _ => trivial
  refine .bind (.graph hK) fun g₀ => .given (fun g hg => hg.2.1) fun ⟨hshaped, hH⟩ => ?_
  dsimp only
  split
  · exact hpure
  refine .ite (fun _ => hpure) fun _ => .ite (fun _ => hpure) fun _ =>
    .ite (fun _ => hpure) fun _ => .ite (fun _ => hpure) fun _ => ?_
  split
  · exact hpure
  rename_i root hroot
  obtain ⟨v, hv, hhas⟩ := hshaped.sound.root
  rw [hroot, Option.some.injEq] at hv
  have hret : ∀ g, (H g ∧ (Shaped K g₀ ∧ H g₀) ∧ g₀.Extends g) →
    Known K g root.node (g₀.node root.node) :=
    fun g hg => (hshaped.known hK (hv ▸ hhas.1)).extends hg.2.2
  refine .ite (fun _ => hpure) fun hop => ?_
  have hop : (g₀.node root.node).op = .ret := by
    by_contra h
    simp [h] at hop
  refine .bind (.operandAt hret hop (by decide)) fun chain => .ite (fun _ => hpure) fun _ =>
    .ite (fun _ => hpure) fun _ => .ite (fun _ => hpure) fun hlen => ?_
  replace hlen := Decidable.not_not.1 hlen
  refine .bind (resultObstacle?_finds hK (fun g hg => hret g hg.1) fun i hi => ?_) fun r => ?_
  · have := List.mem_range.1 hi
    omega
  split
  · exact hpure
  · refine argumentObstacle?_finds hK fun g hg o ho => ?_
    exact ((hshaped.fits _ (hn g₀ hH)).operands o (List.mem_of_mem_drop ho)).extends hg.1.1.2.2

end Alone

/-- Whether a call may take over the frame is the same for two sessions, if it is the subject. -/
theorem tailObstacle?_finds (hn : ∀ g, H g → Known K g id n) (hop : n.op = .call)
    (hid : K.Subject id) : Finds K H (tailObstacle? d id bytes) fun _ _ => True := by
  refine .of_alone (tailObstacle?_alone rfl fun g hg => (hn g hg).contains)
    fun x p s t hx hc hH => ?_
  have hsame := hc.sameCall
  rw [hid x hx, (hn _ hH).node] at hsame
  exact tailObstacle?_alike (hsame hop)

theorem typesOf_finds (hv : ∀ g, H g → ∀ o ∈ values, Holds K g o) :
    Finds K H (values.mapM typeOf) fun types g =>
      List.Forall₂ (fun v vt => g.operandType? v = some vt) values types :=
  .mapM fun o ho => .typeOf fun g hg => hv g hg o ho

theorem allWords_finds (hv : ∀ g, H g → ∀ o ∈ values, Data K g o) :
    Finds K H (values.mapM wordsOf) fun words g =>
    List.Forall₂ (fun v ws => (∀ o ∈ ws, Data K g o) ∧
      ∀ vt, g.operandType? v = some vt → ws.length = if vt.isWide then 2 else 1) values words :=
  .mapM fun o ho => wordsOf_finds fun g hg => hv g hg o ho

theorem passedArguments_finds {info : CallInfo} {args : List (Option Value)}
    (ha : ∀ g, H g → ∀ o ∈ args, Holds K g o) :
    Finds K H (passedArguments info args) fun passed g =>
      List.Forall₂ (fun v vt => g.operandType? v = some vt) args (passed.map (·.type)) := by
  refine (Finds.mapM (R := fun q p g => g.operandType? q.1 = some p.type) fun q hq => ?_).mono
    fun passed g _ h => ?_
  · exact .bind (.typeOf fun g hg => ha g hg q.1 (List.fst_mem_of_mem_zipIdx hq)) fun vt =>
      .pure fun g hg => hg.2
  · rw [← List.zipIdx_map_fst 0 args, List.forall₂_map_left_iff, List.forall₂_map_right_iff]
    exact h

theorem Known.data_of_mem_drop {g : Graph} {op : Opcode} {k : Nat} {o : Option Value}
    (h : Known K g id n) (hop : n.op = op) (ho : o ∈ n.operands.drop (k + 1))
    (hs : ∀ i, isDatum op (i + 1)) : Data K g o := by
  obtain ⟨i, hi⟩ := List.mem_iff_getElem?.1 ho
  rw [List.getElem?_drop, show k + 1 + i = k + i + 1 by omega] at hi
  exact h.data hop (hs (k + i)) hi

theorem lowerCall_settles (hq : ¬ K.quiet) (hid : K.Subject id) (hn : ∀ g, H g → Known K g id n)
    (hop : n.op = .call) : Settles K H (lowerCall d id) fun r g => Suits K g n r := by
  refine (Finds.node hn).goes fun n' => .given (fun _ hg => hg.2) fun hsame => ?_
  subst hsame
  refine .under (H := fun g => Known K g id n') ?_ fun g hg => hn g hg.1
  refine (Finds.slotOf (fun g hg => hg) hop (by rfl)).goes fun chain =>
    (Finds.operandOf (fun g hg => hg.1) hop (by rfl)).goes fun callee => ?_
  refine .under (H := fun g => Known K g id n' ∧ Data K g callee) ?_ fun g hg => ⟨hg.1.1, hg.2⟩
  have hargs : ∀ g, Known K g id n' → ∀ o ∈ n'.operands.drop 2, Data K g o := fun g hg o ho =>
    hg.data_of_mem_drop hop ho fun _ => rfl
  refine .given (P := n'.types ≠ []) (fun g hg => Opcode.ne_nil_of_gives hg.1.gives) fun hne => ?_
  rw [if_neg (mt List.isEmpty_iff.1 hne)]
  refine (passedArguments_finds fun g hg o ho => (hargs g hg.1 o ho).holds).goes fun passed => ?_
  split
  · exact Finds.unrepresentable none
  rename_i locations bytes hseq
  split
  · exact Finds.unrepresentable none
  rename_i rls hres
  have hl := (sequenceArguments_words hseq).1
  refine (allWords_finds fun g hg => hargs g hg.1.1).goes fun words => ?_
  refine .under (H := fun g => Known K g id n' ∧ Data K g callee ∧ Supplied K g locations words) ?_
    fun g hg => ⟨hg.1.1.1, hg.1.1.2, supplied hg.1.2 hg.2 fun l hl => ?_⟩
  · split
    · refine (tailObstacle?_finds (fun g hg => hg.1) hop hid).goes fun r => ?_
      split
      · exact lowerTailCall_settles hq (fun g hg => hg.1.1) hop hl (fun g hg => hg.1.2.1)
          fun g hg => hg.1.2.2
      · exact Finds.debug.goes fun _ => lowerPlainCall_settles (fun g hg => hg.1.1.1) hop hl
          (fun g hg => hg.1.1.2.1) (fun g hg => hg.1.1.2.2) hres
    · exact lowerPlainCall_settles (fun g hg => hg.1) hop hl (fun g hg => hg.2.1)
        (fun g hg => hg.2.2) hres
  · obtain ⟨p, parts, hp, hparts, hpart⟩ := (sequenceArguments_parts hseq).1 l hl
    exact ⟨p.type, parts, by rw [List.getElem?_map, hp]; rfl, hparts, hpart⟩

theorem lowerReturn_settles (hn : ∀ g, H g → Known K g id n) (hop : n.op = .ret) :
    Settles K H (lowerReturn d id) fun r g => Suits K g n r := by
  refine (Finds.slotOf hn hop (by rfl)).goes fun chain =>
    (Finds.node fun g hg => hn g hg.1).goes fun n' => .given (fun _ hg => hg.2) fun hsame => ?_
  subst hsame
  have hvalues : ∀ g, H g → ∀ o ∈ n'.operands.drop 1, Data K g o := fun g hg o ho =>
    (hn g hg).data_of_mem_drop hop ho fun _ => rfl
  refine (typesOf_finds fun g hg o ho => (hvalues g hg.1.1 o ho).holds).goes fun types =>
    .graph_bind (fun g₀ => ?_) fun x p s t _ hc _ => by rw [hc.signature]
  split
  · exact Finds.unrepresentable none
  rename_i locations hseq
  refine (allWords_finds fun g hg => hvalues g hg.1.1.1.1).goes fun words =>
    (copyToRegisters_goes (sequenceResults_words hseq).1 (fun g hg => hg.1.1.1.1.2.2) fun g hg =>
      supplied hg.1.1.2 hg.2 fun l hl => ((sequenceResults_parts hseq).1 l hl).2).bind fun c p =>
    (lastOf_settles c.registers rfl rfl rfl rfl (fun _ => rfl) rfl rfl (Nat.zero_le _)
      (fun g hg => hg.2) fun g hg o ho => (hg.2.registers o ho).beside).bind fun o p' =>
      .pure fun g hg => ⟨hg.2.1, ?_⟩
  obtain ⟨⟨⟨⟨⟨⟨⟨hH, h0, -⟩, -⟩, -⟩, -⟩, -⟩, -⟩, -, ho⟩ := hg
  exact (hn g hH).suits_effect hop h0 ho rfl

/-! ### The machine -/

theorem lowerWide_finds (hn : ∀ g, H g → Known K g id n)
    (hwide : n.op = .select → ∀ g, H g → ∀ vt, n.types[0]? = some vt → vt.isWide) :
    Finds K H (lowerWide id) fun r g => Standing K g n r :=
  .given (fun g hg => (hn g hg).shares) fun hid => .bind (touchesWide_finds hn) fun _ =>
    .ite (fun _ => split_finds (fun g hg => hn g hg.1) fun hop g hg => hwide hop g hg.1) fun _ =>
      .unsupported hid

/-- Rules find what they look for; only the one for calls may change the root. -/
theorem lowerNode_settles (hn : ∀ g, H g → Known K g id n) (hq : n.op = .call → ¬ K.quiet)
    (hid : K.Subject id) : Settles K H (lowerNode d id) fun r g => Standing K g n r := by
  refine (Finds.node hn).goes fun n' => .given (fun _ hg => hg.2) fun hsame => ?_
  subst hsame
  refine .under (H := fun g => Known K g id n') ?_ fun g hg => hn g hg.1
  have hk : ∀ g, Known K g id n' → Known K g id n' := fun _ hg => hg
  have hsome : ∀ {I : Graph → Prop} {m : Lowering (List (Option Value))}, isRewritten n'.op →
      (Settles K I m fun r g => Suits K g n' r) →
      Settles K I (m >>= fun r => pure (some r)) fun r g => Standing K g n' r := fun hr h =>
    h.bind fun r => .pure fun g hg => ⟨rfl, fun l hl => by cases hl; exact ⟨hr, hg.2⟩⟩
  split
  case h_1 hop => exact hsome (by rw [hop]; rfl) (lowerArgument_finds hk hop none)
  case h_2 hop => exact hsome (by rw [hop]; rfl) (lowerCall_settles (hq hop) hid hk hop)
  case h_3 hop => exact hsome (by rw [hop]; rfl) (lowerReturn_settles hk hop)
  case h_4 hop => exact hsome (by rw [hop]; rfl) (lowerBrCC_finds hk hop none)
  case h_5 hop => exact hsome (by rw [hop]; rfl) (lowerBrCond_finds hk hop none)
  case h_6 hop => exact hsome (by rw [hop]; rfl) (lowerSetCC_finds hk hop none)
  case h_7 hop => exact hsome (by rw [hop]; rfl) (lowerFrameAddr_finds hk hop none)
  case h_8 hop => exact hsome (by rw [hop]; rfl) (lowerReturnAddr_finds hk hop none)
  case h_9 hop =>
    refine (Finds.resultType hk).goes fun vt => ?_
    split
    · rename_i hvt
      exact lowerWide_finds (H := fun g => Known K g id n' ∧ n'.types[0]? = some vt)
        (fun g hg => hg.1) (fun _ g hg vt h0 => Option.some.inj (hg.2.symm.trans h0) ▸ hvt) none
    · exact hsome (by rw [hop]; rfl) (lowerSelect_finds (fun g hg => hg.1) hop none)
  case h_10 hop =>
    refine (Finds.resultType hk).goes fun vt => ?_
    split
    · exact lowerWide_finds (fun g hg => hg.1) (fun h => nomatch hop.symm.trans h) none
    · exact hsome (by rw [hop]; rfl) (lowerSelectCC_finds (fun g hg => hg.1) hop none)
  case h_11 hselect _ => exact lowerWide_finds hk (fun h => (hselect h).elim) none

end GraphLowering.Usim
