import GraphLowering.Proofs.Usim.Finding
import GraphLowering.Usim.Wide

/-!
# Rules for values find what they look for

Words, comparisons and operations on values of two words: in a shaped graph none of these rules
misses an operand, and all they give are values of the graph; if pairs are formed as they must be,
values of the types that are asked for. In an ordered graph a value stays a value, and a chain leads
to the one it stands for.
-/

namespace GraphLowering.Usim

open GraphLowering.Graph (taken)
open Lower (Lowering Session)
open Lower.Lowering

variable {K : Regime} {H : Graph → Prop} {g : Graph} {id : Nat} {n : Node} {op : Opcode}
  {vt : ValueType} {cc : CondCode} {v a b lhs rhs ifTrue ifFalse chain ptr dest : Option Value}

/-! ### Results -/

/-- Operations with one result. -/
def isSingle : Opcode → Bool
  | .load | .atomicLoadAdd | .call | .copyToReg | .callSeqEnd | .target 2 | .copyFromReg => false
  | _ => true

/-- Operations whose result is a chain. -/
def isEffect : Opcode → Bool
  | .store | .ret | .br | .brCond | .brCC | .target 3 => true
  | _ => false

theorem Proper.length_types (h : Proper K g n) (hop : isSingle n.op) : n.types.length = 1 := by
  have hgives := h.gives
  unfold Opcode.gives at hgives
  split at hgives
  case h_4 | h_5 | h_6 | h_7 | h_8 | h_9 => rw [of_decide_eq_true hgives]; rfl
  case h_14 => exact of_decide_eq_true hgives
  all_goals
    rename_i he
    rw [he] at hop
    cases hop

theorem Known.single (h : Known K g id n) (hop : isSingle n.op) (h0 : n.types[0]? = some vt) :
    n.types = [vt] := by
  obtain ⟨vt', ht⟩ := List.length_eq_one_iff.1 (h.toProper.length_types hop)
  rw [ht] at h0 ⊢
  simpa using h0

theorem Known.effect (h : Known K g id n) (hop : isEffect n.op) : n.types = [.chain] := by
  have hgives := h.gives
  unfold isEffect at hop
  split at hop <;> cases hop
  all_goals
    rename_i he
    rw [he] at hgives
    exact of_decide_eq_true hgives

theorem Proper.loaded (h : Proper K g n) (hop : n.op = .load) (h0 : n.types[0]? = some vt) :
    n.types = [vt, .chain] := by
  have hgives := h.gives
  rw [hop] at hgives
  simp only [Opcode.gives, Bool.and_eq_true, decide_eq_true_eq] at hgives
  obtain ⟨a, b, ht⟩ := List.length_eq_two.1 hgives.1
  rw [ht] at hgives h0 ⊢
  simp_all

theorem givesGlue_eq_false (h : isChained op = false) : givesGlue op = false := by
  unfold givesGlue
  split <;> first | rfl | cases h

theorem Known.allows_of (h : Known K g id n) (h0 : n.types[0]? = some vt)
    (hc : chainResult? n ≠ some 0) (hn : isName n.op = false) (hg : givesGlue n.op = false) :
    K.Allows vt := by
  refine ⟨fun hK => (h.ordered hK).ne_chain h0 hc hn, ?_⟩
  rintro hK rfl
  rw [h.glue hK (List.mem_of_getElem? h0)] at hg
  cases hg

theorem Known.allows_loaded (h : Known K g id n) (hop : n.op = .load) (h0 : n.types[0]? = some vt) :
    K.Allows vt :=
  h.allows_of h0 (by simp [chainResult?, hop]) (by rw [hop]; rfl) (by rw [hop]; rfl)

theorem Known.allows (h : Known K g id n) (hop : n.op = op) (h0 : n.types[0]? = some vt)
    (hv : isValue op) : K.Allows vt := by
  obtain ⟨hc, hn⟩ := isValue_iff.1 (hop ▸ hv)
  exact h.allows_of h0 (by simp [chainResult?_eq_none hc]) hn (givesGlue_eq_false hc)

/-- A value that may stand for one of the type. -/
structure Serves (K : Regime) (g : Graph) (vt : ValueType) (o : Option Value) :
    Prop extends Data K g o where
  type : K.typed → g.operandType? o = some vt

theorem OfType.serves (h : OfType K g vt v) (hvt : K.Allows vt) : Serves K g vt v :=
  ⟨h.data hvt, fun _ => h.operandType?⟩

/-- Values that may stand for the results of a node. -/
structure Suits (K : Regime) (g : Graph) (n : Node) (values : List (Option Value)) : Prop where
  types : List.Forall₂ (fun vt o => Holds K g o ∧ (K.typed → g.operandType? o = some vt)) n.types
    values
  replaced : K.ordered → Replaced g n values

theorem Known.suits_value (h : Known K g id n) (hop : n.op = op) (h0 : n.types[0]? = some vt)
    (hv : Serves K g vt v) (hs : (isSingle op && isValue op) = true) : Suits K g n [v] := by
  rw [Bool.and_eq_true] at hs
  subst hop
  refine ⟨?_, fun hK => .value (hv.datum hK) (chainResult?_eq_none (isValue_iff.1 hs.2).1)⟩
  rw [h.single hs.1 h0]
  exact .cons ⟨hv.holds, hv.type⟩ .nil

/-- A value that has the type of another. -/
structure Like (K : Regime) (g : Graph) (o o' : Option Value) : Prop extends Data K g o where
  type : g.operandType? o = g.operandType? o'

/-- A value like the arm of a choice stands for the choice. -/
theorem Known.suits_arm {i : Nat} {o : Option Value} (h : Known K g id n) (hop : n.op = op)
    (ho : n.operands[i]? = some o) (hv : Like K g v o) (hs : (isSingle op && isValue op) = true)
    (hi : op.arm? = some i) : Suits K g n [v] := by
  obtain ⟨vt, rest, ht⟩ := List.exists_cons_of_ne_nil (Opcode.ne_nil_of_gives h.gives)
  refine h.suits_value hop (by rw [ht]; rfl) ⟨hv.toData, fun ⟨l, hl⟩ => ?_⟩ hs
  rw [hv.type, h.arm hl (hop ▸ Typing.mem_arms hi) ho, ht]
  rfl

theorem Known.suits_effect (h : Known K g id n) (hop : n.op = op) (h0 : n.operands[0]? = some chain)
    (hv : Link K g v chain) (he : isEffect op) : Suits K g n [v] := by
  subst hop
  refine ⟨?_, fun _ => .link [] (by simp) h0 ⟨hv.isChain, hv.continues⟩ ?_⟩
  · rw [h.effect he]
    exact .cons ⟨hv.holds, fun _ => hv.ofType.operandType?⟩ .nil
  · unfold isEffect at he
    split at he <;> cases he
    all_goals
      rename_i hop
      rw [chainResult?, hop]
      rfl

theorem Known.suits_load {out : Option Value} (h : Known K g id n) (hop : n.op = .load)
    (h0 : n.types[0]? = some vt) (hc : n.operands[0]? = some chain) (hv : OfType K g vt v)
    (ho : Link K g out chain) : Suits K g n [v, out] := by
  have hres : chainResult? n = some 1 := by rw [chainResult?, hop]
  refine ⟨?_, fun hK => .link [v] (fun o ho => ?_) hc ⟨ho.isChain, ho.continues⟩ hres⟩
  · rw [h.toProper.loaded hop h0]
    exact .cons ⟨hv.holds, fun _ => hv.operandType?⟩
      (.cons ⟨ho.holds, fun _ => ho.ofType.operandType?⟩ .nil)
  · rw [List.mem_singleton.1 ho]
    exact (hv.data (h.allows_loaded hop h0)).datum hK

/-! ### Words -/

theorem constant_finds (k : Int64) (vt : ValueType)
    (hvt : ∀ g, H g → K.Allows vt) :
    Finds K H (value (·.constant k vt)) fun o g => OfType K g vt o :=
  .value (.leaf rfl hvt)

theorem wordConstant_finds (k : Int64) :
    Finds K H (value (·.constant k .i32)) fun o g => OfType K g .i32 o :=
  .word rfl

theorem constantHalves_finds (k : Int64) :
    Finds K H (constantHalves k) fun r g => OfType K g .i32 r.1 ∧ OfType K g .i32 r.2 :=
  .bind (wordConstant_finds _) fun _ => .bind (wordConstant_finds _) fun _ =>
    .pure fun _ hg => ⟨hg.1.2, hg.2⟩

theorem undefHalves_finds : Finds K H undefHalves fun r g => OfType K g .i32 r.1 ∧
    OfType K g .i32 r.2 :=
  .bind (.word rfl) fun _ => .bind (.word rfl) fun _ => .pure fun _ hg => ⟨hg.1.2, hg.2⟩

theorem extractElement_finds (hv : ∀ g, H g → Data K g v) (i : Int64) :
    Finds K H (value (·.extractElement .i32 v i)) fun o g => OfType K g .i32 o := by
  refine .value (.build_seq (h := (·.constant i .i32)) (k :=
    fun c g => g.single .extractElement .i32 [v, some c])
    (.leaf (by rfl) (fun _ _ => K.allows_word)) fun c => .plain (by rfl) (fun _ _ => K.allows_word)
    fun g hg => ?_)
  simp [hv g hg.1, hg.2.word]

/-- The two halves of a value, which are words where they must be. -/
structure HalfWords (K : Regime) (g : Graph) (v : Option Value) (r : Option Value × Option Value) :
    Prop where
  low : Data K g r.1
  high : Data K g r.2
  lowWord : ∀ l vt, K.asks l → g.operandType? v = some vt → 0 ∈ l.halves vt →
    g.operandType? r.1 = some .i32
  highWord : ∀ l vt, K.asks l → g.operandType? v = some vt → 1 ∈ l.halves vt →
    g.operandType? r.2 = some .i32

theorem HalfWords.of_words {r : Option Value × Option Value}
    (h : OfType K g .i32 r.1 ∧ OfType K g .i32 r.2) : HalfWords K g v r :=
  ⟨h.1.word, h.2.word, fun _ _ _ _ _ => h.1.operandType?, fun _ _ _ _ _ => h.2.operandType?⟩

theorem halves_finds (hv : ∀ g, H g → Data K g v) :
    Finds K H (halves v) fun r g => HalfWords K g v r := by
  unfold halves
  refine .bind (.valueOf fun g hg => (hv g hg).holds) fun w =>
    .bind (.nodeAt fun g hg => hg.2) fun n => ?_
  split
  · rename_i hop
    have hk : ∀ g, (H g ∧ Holds K g v ∧ v = some w) ∧ Noted K g w.node n → Known K g w.node n :=
      fun g hg => hg.2.known (by rw [hop]; rfl)
    refine .bind (.armOf hk hop (by rfl)) fun low =>
      .bind (.armOf (fun g hg => hk g hg.1) hop (by rfl)) fun high => .pure fun g hg => ?_
    obtain ⟨⟨⟨⟨-, -, rfl⟩, hn⟩, hlow, hl⟩, hhigh, hh⟩ := hg
    have htypes : ∀ vt, g.operandType? (some w) = some vt → n.types = [vt] := fun vt ht => by
      rw [Graph.operandType?, Option.bind_some, Graph.type?_eq, hn.node] at ht
      obtain ⟨vt', hvt⟩ := List.length_eq_one_iff.1 (hn.toProper.length_types (by rw [hop]; rfl))
      rw [hvt] at ht ⊢
      exact congrArg (fun vt => [vt]) (List.mem_singleton.1 (List.mem_of_getElem? ht)).symm
    exact ⟨hl, hh, fun l vt hK ht hi => hn.toProper.half hK hop (htypes vt ht) hi hlow,
      fun l vt hK ht hi => hn.toProper.half hK hop (htypes vt ht) hi hhigh⟩
  · exact (constantHalves_finds _).mono fun _ _ _ => .of_words
  · exact undefHalves_finds.mono fun _ _ _ => .of_words
  · refine .bind (extractElement_finds (fun g hg => hv g hg.1.1) 0) fun low =>
      .bind (extractElement_finds (fun g hg => hv g hg.1.1.1) 1) fun high => ?_
    exact .pure fun g hg => .of_words ⟨hg.1.2, hg.2⟩

theorem addressAt_finds (hv : ∀ g, H g → Pointer K g v) (offset : Int64) :
    Finds K H (addressAt v offset) fun o g => o = v ∨ Data K g o := by
  unfold addressAt
  refine .ite (fun _ => .pure fun _ _ => .inl rfl) fun _ => .bind (.valueWith
    (Q := fun o g => ∃ k, o = some ⟨k, 0⟩ ∧ OfType K g .i32 o ∧ IsWordConstant g k)
    (.leafWith (fun g _ => .made (by simp) rfl K.allows_word) fun k g _ h =>
    ⟨k, rfl, h.ofType rfl rfl fun _ => by decide,
      by rw [IsWordConstant, h.node]; exact ⟨rfl, rfl, rfl⟩⟩)) fun c => ?_
  refine .mono (.value (.single (fun g hg => ?_) fun _ _ _ h => h.ofType rfl rfl
    fun _ => by decide))
    fun _ _ _ ho => .inr ho.word
  obtain ⟨hH, k, rfl, hk, hconst⟩ := hg
  have hkd := hk.word
  obtain ⟨a, rfl, hhas, hbase, hplace⟩ := (hv g hH).place
  refine ⟨.value ?_ (Nat.le_refl 2) rfl rfl (fun _ => by decide) (.plain rfl),
    fun v hv => ?_, fun hK => ?_⟩
  · rintro o (_ | ⟨_, _ | ⟨_, ⟨⟩⟩⟩)
    · exact ⟨(hv g hH).filled, (hv g hH).datum⟩
    · exact ⟨hkd.filled, hkd.datum⟩
  · rcases List.mem_pair.1 hv with rfl | rfl
    · exact hbase
    · exact hkd.holds.good.base
  · exact .offset hhas (hplace hK) ⟨hkd.holds.good.has, hkd.holds.good.plain hK⟩ hconst rfl

theorem touchesWide_finds (hn : ∀ g, H g → Known K g id n) :
    Finds K H (touchesWide id) fun _ _ => True :=
  .bind (.nodeTypes hn) fun _ => .pure fun _ _ => trivial

/-! ### Comparisons -/

/-- Values between which may be chosen. -/
structure Arms (K : Regime) (g : Graph) (a b : Option Value) : Prop where
  ifTrue : Data K g a
  ifFalse : Data K g b
  type : K.asks .full → g.operandType? b = g.operandType? a

theorem OfType.arms (ht : OfType K g vt ifTrue) (hf : OfType K g vt ifFalse) (hvt : K.Allows vt) :
    Arms K g ifTrue ifFalse :=
  ⟨ht.data hvt, hf.data hvt, fun _ => hf.operandType?.trans ht.operandType?.symm⟩

theorem Like.arms {o : Option Value} (ht : Like K g ifTrue o) (hf : Like K g ifFalse o) :
    Arms K g ifTrue ifFalse :=
  ⟨ht.toData, hf.toData, fun _ => hf.type.trans ht.type.symm⟩

theorem Typed.choice {code : Option Value} (ht : g.operandType? ifTrue = some vt)
    (hf : K.asks .full → g.operandType? ifFalse = some vt)
    (hall : ∀ o ∈ [lhs, rhs, ifTrue, ifFalse, code], Filled g o) :
    Typed K g ⟨Op.selectCC, [vt], (taken [lhs, rhs, ifTrue, ifFalse, code]).map some, .none⟩ := by
  obtain ⟨⟨l, rfl, -⟩, ⟨r, rfl, -⟩, ⟨t, rfl, -⟩, ⟨f, rfl, -⟩, ⟨c, rfl, -⟩⟩ : Filled g lhs ∧
    Filled g rhs ∧ Filled g ifTrue ∧ Filled g ifFalse ∧ Filled g code := by simpa using hall
  refine ⟨fun l hl i vt' hi => ?_⟩
  cases l with
  | basic => simp [expected?, Typing.arms, Op.selectCC, Opcode.arm?] at hi
  | full =>
    simp only [expected?, Typing.arms, Op.selectCC, reduceCtorEq, false_and, if_false,
      Option.ite_none_right_eq_some, List.mem_cons, List.not_mem_nil, or_false, List.head?_cons,
      Option.some.injEq] at hi
    obtain ⟨rfl | rfl, rfl⟩ := hi
    · exact ⟨t, rfl, ht⟩
    · exact ⟨f, rfl, hf hl⟩

theorem selectNode_finds (hl : ∀ g, H g → Data K g lhs) (hr : ∀ g, H g → Data K g rhs)
    (ha : ∀ g, H g → Arms K g ifTrue ifFalse) (c : Cond) :
    Finds K H (selectNode lhs rhs ifTrue ifFalse c) fun o g => Like K g o ifTrue := by
  refine .bind (.typeOf fun g hg => (ha g hg).ifTrue.holds) fun vt =>
    .bind (.word rfl) fun code => ?_
  have hvt : ∀ g, (H g ∧ g.operandType? ifTrue = some vt) ∧ OfType K g .i32 code → K.Allows vt :=
    fun g hg => (ha g hg.1.1).ifTrue.allows hg.1.2
  have hall : ∀ g, (H g ∧ g.operandType? ifTrue = some vt) ∧ OfType K g .i32 code →
      ∀ o ∈ [lhs, rhs, ifTrue, ifFalse, code], Data K g o := fun g hg => by
    simp [hl g hg.1.1, hr g hg.1.1, (ha g hg.1.1).ifTrue, (ha g hg.1.1).ifFalse, hg.2.word]
  refine .mono (.value (.single
    (fun g hg => .value (hall g hg) (Nat.le_refl 5) rfl rfl rfl (hvt g hg) ?_) fun _ g hg h =>
    h.ofType rfl rfl (hvt g hg).glue)) fun o g hg ho => ?_
  · exact .choice hg.1.2 (fun hK => ((ha g hg.1.1).type hK).trans hg.1.2) fun o ho =>
      (hall g hg o ho).filled
  · exact ⟨ho.data (hvt g hg), ho.operandType?.trans hg.1.2.symm⟩

/-- A chain from which one may branch, and where to. -/
structure Forking (K : Regime) (g : Graph) (a b : Option Value) : Prop where
  chain : Holds K g a
  dest : Beside K g Op.brCC b
  type : K.asks .full → g.operandType? a = some .chain ∧ g.operandType? b = some .chain

theorem Typed.branch {code : Option Value} (h : Forking K g chain dest)
    (hall : ∀ o ∈ [code, lhs, rhs], Filled g o) :
    Typed K g ⟨Op.brCC, [.chain], (taken [chain, code, lhs, rhs, dest]).map some, .none⟩ := by
  obtain ⟨⟨c, rfl, -⟩, ⟨l, rfl, -⟩, ⟨r, rfl, -⟩⟩ : Filled g code ∧ Filled g lhs ∧ Filled g rhs := by
    simpa using hall
  obtain ⟨a, rfl, -⟩ := h.chain
  obtain ⟨b, rfl, -⟩ := h.dest.holds
  refine ⟨fun l hl i vt' hi => ?_⟩
  cases l with
  | basic => simp [expected?, Typing.arms, Op.brCC, Opcode.arm?] at hi
  | full =>
    simp only [expected?, Typing.arms, Op.brCC, reduceCtorEq, false_and, if_false,
      Option.ite_none_right_eq_some, List.mem_cons, List.not_mem_nil, or_false, List.head?_cons,
      Option.some.injEq] at hi
    obtain ⟨rfl | rfl, rfl⟩ := hi
    · exact ⟨a, rfl, (h.type hl).1⟩
    · exact ⟨b, rfl, (h.type hl).2⟩

theorem branchNode_finds (hf : ∀ g, H g → Forking K g chain dest) (hl : ∀ g, H g → Data K g lhs)
    (hr : ∀ g, H g → Data K g rhs) (c : Cond) :
    Finds K H (branchNode chain c lhs rhs dest) fun o g => Link K g o chain := by
  refine .bind (.word rfl) fun code => .link rfl rfl (fun g hg => .branch (hf g hg.1) ?_)
    (fun _ => rfl) (Nat.le_refl _) (fun g hg => (hf g hg.1).chain) fun g hg => ?_
  · simp [hg.2.filled, (hl g hg.1).filled, (hr g hg.1).filled]
  · simp [(hg.2.word).beside, (hl g hg.1).beside, (hr g hg.1).beside, (hf g hg.1).dest]

/-- A comparison of values that are there. -/
def Comparison.IsData (K : Regime) (g : Graph) (c : Comparison) : Prop :=
  Data K g c.lhs ∧ Data K g c.rhs

theorem selectOn_finds {c : Comparison} (hc : ∀ g, H g → c.IsData K g)
    (ha : ∀ g, H g → Arms K g ifTrue ifFalse) :
    Finds K H (selectOn c ifTrue ifFalse) fun o g => Like K g o ifTrue := by
  unfold selectOn
  split
  · exact selectNode_finds (fun g hg => (hc g hg).1) (fun g hg => (hc g hg).2) ha _
  · refine .bind (selectNode_finds (fun g hg => (hc g hg).1) (fun g hg => (hc g hg).2) ha _)
      fun inner => ?_
    exact selectNode_finds (fun g hg => (hc g hg.1).1) (fun g hg => (hc g hg.1).2)
      (fun g hg => ⟨(ha g hg.1).ifTrue, hg.2.toData, fun _ => hg.2.type⟩) _

theorem branchOn_finds {c : Comparison} (hc : ∀ g, H g → c.IsData K g)
    (hf : ∀ g, H g → Forking K g chain dest) :
    Finds K H (branchOn c chain dest) fun o g => Link K g o chain := by
  unfold branchOn
  split
  · exact branchNode_finds hf (fun g hg => (hc g hg).1) (fun g hg => (hc g hg).2) _
  · refine .bind (branchNode_finds hf (fun g hg => (hc g hg).1) (fun g hg => (hc g hg).2) _)
      fun first => ?_
    exact (branchNode_finds (fun g hg => ⟨hg.2.holds, (hf g hg.1).dest, fun hK =>
      ⟨hg.2.ofType.operandType?, ((hf g hg.1).type hK).2⟩⟩) (fun g hg => (hc g hg.1).1)
      (fun g hg => (hc g hg.1).2) _).mono fun _ _ hg ho => ho.trans hg.2.continues

theorem binary_finds (hop : isMade op 2 .i32) (ha : ∀ g, H g → Data K g a)
    (hb : ∀ g, H g → Data K g b) :
    Finds K H (value (·.binary op .i32 a b)) fun o g => OfType K g .i32 o :=
  .value (.plain hop (fun _ _ => K.allows_word) fun g hg => by simp [ha g hg, hb g hg])

theorem unary_finds (hop : isMade op 1 vt) (hvt : ∀ g, H g → K.Allows vt)
    (ha : ∀ g, H g → Data K g a) :
    Finds K H (value (·.unary op vt a)) fun o g => OfType K g vt o :=
  .value (.plain hop hvt fun g hg => by simp [ha g hg])

theorem narrow_finds (hid : K.Shares id) (hl : ∀ g, H g → Data K g lhs)
    (hr : ∀ g, H g → Data K g rhs) : Finds K H (narrow id lhs rhs cc) fun r g => Data K g r.1 ∧
    Data K g r.2.1 := by
  unfold narrow
  refine .bind (halves_finds hl) fun l => .bind (halves_finds fun g hg => hr g hg.1) fun r =>
    .bind (wordConstant_finds 0) fun zero => .bind (wordConstant_finds 1) fun one => ?_
  refine .under (H := fun g => (HalfWords K g lhs l ∧ HalfWords K g rhs r) ∧ Data K g zero ∧
    Arms K g one zero) ?_ fun g hg =>
    ⟨⟨hg.1.1.1.2, hg.1.1.2⟩, hg.1.2.word, hg.2.arms hg.1.2 K.allows_word⟩
  split
  · refine .bind (binary_finds (by rfl) (fun g hg => hg.1.1.low) fun g hg => hg.1.2.low) fun low =>
      .bind (binary_finds (by rfl) (fun g hg => hg.1.1.1.high) fun g hg => hg.1.1.2.high)
        fun high =>
      .bind (binary_finds (by rfl) (fun g hg => hg.1.2.word) fun g hg => hg.2.word)
        fun difference => ?_
    exact .pure fun g hg => ⟨hg.2.word, hg.1.1.1.2.1⟩
  · refine .ite (fun _ => .pure fun g hg => ⟨hg.1.1.low, hg.1.2.low⟩) fun _ => ?_
    split
    · exact .unsupported hid
    · refine .bind (selectNode_finds (fun g hg => hg.1.1.low) (fun g hg => hg.1.2.low)
        (fun g hg => hg.2.2) _) fun low =>
        .bind (selectNode_finds (fun g hg => hg.1.1.1.high) (fun g hg => hg.1.1.2.high)
        (fun g hg => hg.1.2.2)
          _) fun high =>
        .bind (selectNode_finds (fun g hg => hg.1.1.1.1.high) (fun g hg => hg.1.1.1.2.high)
          (fun g hg => hg.1.2.arms hg.2) _) fun result => ?_
      exact .pure fun g hg => ⟨hg.2.toData, hg.1.1.1.2.1⟩

theorem compare_finds (hid : K.Shares id) (hl : ∀ g, H g → Data K g lhs)
    (hr : ∀ g, H g → Data K g rhs) : Finds K H (compare id lhs rhs cc) fun c g => c.IsData K g := by
  unfold compare
  refine .bind (.typeOf fun g hg => (hl g hg).holds) fun vt =>
    .ite (fun _ => .unsupported_bind hid) fun _ => ?_
  refine .ite_bind (Q := fun (r : Option Value × Option Value × CondCode) g => Data K g r.1 ∧
    Data K g r.2.1) (fun _ => narrow_finds hid (fun g hg => hl g hg.1) fun g hg => hr g hg.1)
    (fun _ => .pure fun g hg => ⟨hl g hg.1, hr g hg.1⟩) fun r => ?_
  refine .bind (.typeOf fun g hg => hg.2.1.holds) fun vt => ?_
  split
  · exact .unsupported hid
  · exact .pure fun g hg => hg.1.2

theorem booleanOf?_alike {s t : Session} {P : Nat → Prop} (h : SameNodes P s.graph t.graph)
    (hv : ∀ w, v = some w → P w.node) : SameRead s t (booleanOf? v) (booleanOf? v) := by
  have hconst : ∀ {o : Option Value}, (∀ w, o = some w → P w.node) →
      t.graph.constant? o = s.graph.constant? o := by
    intro o ho
    cases o with
    | none => rfl
    | some w => exact congrArg Node.constant? (h.node _ (ho w rfl))
  have hcode : ∀ {o : Option Value}, (∀ w, o = some w → P w.node) → condOfValue t.graph o =
    condOfValue s.graph o := fun ho => by rw [condOfValue, condOfValue, hconst ho]
  unfold booleanOf?
  refine .value_bind hv fun w hw => h.node_bind hw fun n => .ite Iff.rfl (.pure _)
    fun _ => .graph_bind ?_
  refine h.operand_bind hw fun lhs _ => h.operand_bind hw fun rhs _ => h.operand_bind hw
    fun ifTrue htrue => ?_
  refine .ite (by rw [hconst htrue]) (.pure _) fun _ => h.operand_bind hw fun code hc => ?_
  rw [hcode hc]
  refine h.operand_bind hw fun arm harm => .ite (by rw [hconst harm]) (.pure _) fun _ => ?_
  refine .value_bind harm fun u hu => h.node_bind hu fun n => .ite Iff.rfl (.pure _) fun _ => ?_
  refine h.operand_bind hu fun l _ => .ite Iff.rfl (.pure _) fun _ => h.operand_bind hu fun r _ =>
    .ite Iff.rfl (.pure _) fun _ => h.operand_bind hu fun a ha => h.operand_bind hu fun b hb => ?_
  refine .ite (by rw [hconst ha, hconst hb]) (.pure _) fun _ => h.operand_bind hu fun code hc => ?_
  rw [hcode hc]
  exact .pure _

/-- What is compared are the first operands of a select. -/
def Comparison.IsOf (g : Graph) (v : Option Value) (c : Comparison) : Prop := ∃ w, v = some w ∧
  (g.node w.node).op = Op.selectCC ∧ (g.node w.node).operands[0]? = some c.lhs ∧
    (g.node w.node).operands[1]? = some c.rhs

theorem none_finds : Finds K H (pure none : Lowering (Option Comparison)) fun r g => ∀ c, r =
    some c → c.IsOf g v :=
  .pure fun _ _ _ hc => (nomatch hc)

theorem booleanOf?_alone (hK : K.pairing = none) (hv : ∀ g, H g → Filled g v) :
    Finds K H (booleanOf? v) fun r g => ∀ c, r = some c → c.IsOf g v := by
  unfold booleanOf?
  refine .bind (.valueAlone hv) fun w => .bind (.nodeAlone hK fun g hg => hg.2.2) fun n => ?_
  refine .ite (fun _ => none_finds) fun hop => .bind (.graph hK) fun g₀ => ?_
  replace hop := Decidable.not_not.1 hop
  -- the operands of the outer select
  refine .under (H := fun g => Known K g w.node n ∧ v = some w) ?_ fun g hg => ⟨hg.1.2, hg.1.1.2.1⟩
  refine .bind (.operandAt (fun g hg => hg.1) hop (by decide)) fun lhs =>
    .bind (.operandAt (fun g hg => hg.1.1) hop (by decide)) fun rhs =>
    .bind (.operandAt (fun g hg => hg.1.1.1) hop (by decide)) fun ifTrue =>
      .ite (fun _ => none_finds) fun _ =>
    .bind (.operandAt (fun g hg => hg.1.1.1.1) hop (by decide)) fun cond =>
    .bind (.operandAt (fun g hg => hg.1.1.1.1.1) hop (by decide)) fun arm => ?_
  refine .under (H := fun g => (Known K g w.node n ∧ v = some w) ∧
    (n.operands[0]? = some lhs ∧ n.operands[1]? = some rhs) ∧ Filled g arm) ?_
    fun g hg => ⟨hg.1.1.1.1.1, ⟨hg.1.1.1.1.2.1, hg.1.1.1.2.1⟩, hg.2.2⟩
  have hfound : ∀ {g test}, ((Known K g w.node n ∧ v = some w) ∧
      (n.operands[0]? = some lhs ∧ n.operands[1]? = some rhs) ∧ Filled g arm) →
      Comparison.IsOf g v ⟨lhs, rhs, test⟩ :=
    fun ⟨⟨hk, hw⟩, ho, _⟩ => ⟨w, hw, by rw [hk.node]; exact ⟨hop, ho⟩⟩
  refine .ite (fun _ => .pure fun g hg c hc => ?_) fun _ => ?_
  · cases hc
    exact hfound hg
  -- those of the inner one
  refine .bind (.valueAlone fun g hg => hg.2.2) fun u =>
    .bind (.nodeAlone hK fun g hg => hg.2.2) fun n' => .ite (fun _ => none_finds) fun hop' => ?_
  replace hop' := Decidable.not_not.1 hop'
  refine .bind (.operandAt (fun g hg => hg.2) hop' (by decide)) fun _ =>
    .ite (fun _ => none_finds) fun _ => .bind (.operandAt (fun g hg => hg.1.2) hop' (by decide))
    fun _ => .ite (fun _ => none_finds) fun _ =>
    .bind (.operandAt (fun g hg => hg.1.1.2) hop' (by decide)) fun _ =>
    .bind (.operandAt (fun g hg => hg.1.1.1.2) hop' (by decide)) fun _ =>
    .ite (fun _ => none_finds) fun _ =>
    .bind (.operandAt (fun g hg => hg.1.1.1.1.2) hop' (by decide)) fun _ =>
    .pure fun g hg c hc => ?_
  cases hc
  exact hfound hg.1.1.1.1.1.1.1

theorem booleanOf?_finds (hv : ∀ g, H g → Holds K g v) :
    Finds K H (booleanOf? v) fun r g => ∀ c, r = some c → c.IsData K g := by
  refine .given (fun g hg => (hv g hg).exists) fun ⟨w, hw⟩ => ?_
  subst hw
  refine .with_view hv (.mono (.of_alone (booleanOf?_alone rfl fun g hg => (hv g hg.1).filled)
    fun x p s t hx hc hH => booleanOf?_alike hc.sameNodes ?_) fun r g hg hr c hc => ?_)
  · rintro _ ⟨⟩
    exact (hv _ hH.1).good.base.shares x hx
  · obtain ⟨_, ⟨⟩, hop, hl, hr⟩ := hr c hc
    have hk := hg.2 (by rw [hop]; rfl)
    exact ⟨hk.data hop rfl hl, hk.data hop rfl hr⟩

theorem truthOf_finds (hid : K.Shares id) (hv : ∀ g, H g → Data K g v) :
    Finds K H (truthOf id v) fun c g => c.IsData K g := by
  unfold truthOf
  refine .bind (booleanOf?_finds fun g hg => (hv g hg).holds) fun r => ?_
  split
  · exact .pure fun g hg => hg.2 _ rfl
  · refine .bind (.typeOf fun g hg => (hv g hg.1).holds) fun vt =>
      .bind (constant_finds _ _ fun g hg => (hv g hg.1.1).allows hg.2) fun zero => ?_
    exact compare_finds hid (fun g hg => hv g hg.1.1.1) fun g hg =>
      hg.2.data ((hv g hg.1.1.1).allows hg.1.2)

theorem predicateOf_finds (hv : ∀ g, H g → Holds K g v) :
    Finds K H (predicateOf v) fun _ _ => True :=
  .bind (.nodeOf hv) fun _ => .pure fun _ _ => trivial

theorem Known.forking {i : Nat} (h : Known K g id n) (hop : n.op = op) (he : isEffect op = true)
    (hi : Typing.full.arms op = [0, i]) (hc : n.operands[0]? = some chain ∧ Holds K g chain)
    (hd : n.operands[i]? = some dest ∧ Beside K g Op.brCC dest) : Forking K g chain dest := by
  refine ⟨hc.2, hd.2, fun hK => ⟨?_, ?_⟩⟩
  · rw [h.arm hK (by simp [hop, hi]) hc.1, h.effect (hop ▸ he)]
    rfl
  · rw [h.arm hK (by simp [hop, hi]) hd.1, h.effect (hop ▸ he)]
    rfl

theorem lowerBrCC_finds (hn : ∀ g, H g → Known K g id n) (hop : n.op = .brCC) :
    Finds K H (lowerBrCC id) fun r g => Suits K g n r := by
  refine .given (fun g hg => (hn g hg).shares) fun hid => .bind (.operandOf hn hop (by rfl))
    fun lhs => .bind (.operandOf (fun g hg => hn g hg.1) hop (by rfl)) fun rhs =>
    .bind (.slotOf (fun g hg => hn g hg.1.1) hop (by rfl)) fun cc =>
    .bind (predicateOf_finds fun g hg => hg.2.2) fun _ =>
    .bind (compare_finds hid (fun g hg => hg.1.1.1.2) fun g hg => hg.1.1.2) fun c =>
    .bind (.slotOf (fun g hg => hn g hg.1.1.1.1.1) hop (by rfl)) fun chain =>
    .bind (.besideOf (fun g hg => hn g hg.1.1.1.1.1.1) hop (by rfl) fun _ => rfl) fun dest =>
    .bind (branchOn_finds (fun g hg => hg.1.1.2) fun g hg => (hn g hg.1.1.1.1.1.1.1).forking hop rfl
    rfl hg.1.2 hg.2) fun o => .pure fun g hg => ?_
  obtain ⟨⟨⟨⟨⟨⟨⟨⟨hH, -⟩, -⟩, -⟩, -⟩, -⟩, h0, -⟩, -⟩, ho⟩ := hg
  exact (hn g hH).suits_effect hop h0 ho rfl

theorem lowerBrCond_finds (hn : ∀ g, H g → Known K g id n) (hop : n.op = .brCond) :
    Finds K H (lowerBrCond id) fun r g => Suits K g n r := by
  refine .given (fun g hg => (hn g hg).shares) fun hid => .bind (.operandOf hn hop (by rfl))
    fun cond => .bind (truthOf_finds hid fun g hg => hg.2) fun c =>
    .bind (.slotOf (fun g hg => hn g hg.1.1) hop (by rfl)) fun chain =>
    .bind (.besideOf (fun g hg => hn g hg.1.1.1) hop (by rfl) fun _ => rfl) fun dest =>
    .bind (branchOn_finds (fun g hg => hg.1.1.2) fun g hg => (hn g hg.1.1.1.1).forking hop rfl
    rfl hg.1.2 hg.2) fun o => .pure fun g hg => ?_
  obtain ⟨⟨⟨⟨⟨hH, -⟩, -⟩, h0, -⟩, -⟩, ho⟩ := hg
  exact (hn g hH).suits_effect hop h0 ho rfl

theorem lowerSetCC_finds (hn : ∀ g, H g → Known K g id n) (hop : n.op = .setCC) :
    Finds K H (lowerSetCC id) fun r g => Suits K g n r := by
  refine .given (fun g hg => (hn g hg).shares) fun hid => .bind (.resultType hn) fun vt =>
    .given (fun g hg => (hn g hg.1).allows hop hg.2 rfl) fun hvt => ?_
  refine .bind (.operandOf (fun g hg => hn g hg.1) hop (by rfl)) fun lhs =>
    .bind (.operandOf (fun g hg => hn g hg.1.1) hop (by rfl)) fun rhs =>
    .bind (.slotOf (fun g hg => hn g hg.1.1.1) hop (by rfl)) fun cc =>
      .bind (predicateOf_finds fun g hg => hg.2.2) fun _ =>
    .bind (compare_finds hid (fun g hg => hg.1.1.1.2) fun g hg => hg.1.1.2) fun c =>
    .bind (constant_finds _ _ fun _ _ => hvt) fun one =>
      .bind (constant_finds _ _ fun _ _ => hvt) fun zero =>
    .bind (selectOn_finds (fun g hg => hg.1.1.2) fun g hg => hg.1.2.arms hg.2 hvt) fun o => ?_
  refine .pure fun g hg => ?_
  obtain ⟨⟨⟨⟨⟨⟨⟨⟨⟨hH, h0⟩, -⟩, -⟩, -⟩, -⟩, -⟩, hone⟩, -⟩, ho⟩ := hg
  exact (hn g hH).suits_value hop h0 ⟨ho.toData, fun _ => ho.type.trans hone.operandType?⟩ rfl

theorem selectByTruth_finds (hid : K.Shares id) (hv : ∀ g, H g → Data K g v)
    (ha : ∀ g, H g → Arms K g ifTrue ifFalse) :
    Finds K H (selectByTruth id v ifTrue ifFalse) fun o g => Like K g o ifTrue :=
  .bind (truthOf_finds hid hv) fun _ => selectOn_finds (fun _ hg => hg.2) fun g hg => ha g hg.1

theorem selectByPredicate_finds (hid : K.Shares id) (hl : ∀ g, H g → Data K g lhs)
    (hr : ∀ g, H g → Data K g rhs) (ha : ∀ g, H g → Arms K g ifTrue ifFalse) :
    Finds K H (selectByPredicate id lhs rhs ifTrue ifFalse cc) fun o g => Like K g o ifTrue :=
  .bind (compare_finds hid hl hr) fun _ => selectOn_finds (fun _ hg => hg.2) fun g hg => ha g hg.1

theorem Known.arms {i j : Nat} (h : Known K g id n) (hop : n.op = op)
    (hi : Typing.full.arms op = [i, j]) (ht : n.operands[i]? = some ifTrue ∧ Data K g ifTrue)
    (hf : n.operands[j]? = some ifFalse ∧ Data K g ifFalse) : Arms K g ifTrue ifFalse := by
  refine ⟨ht.2, hf.2, fun hK => ?_⟩
  rw [h.arm hK (by simp [hop, hi]) ht.1, h.arm hK (by simp [hop, hi]) hf.1]

theorem lowerSelect_finds (hn : ∀ g, H g → Known K g id n) (hop : n.op = .select) :
    Finds K H (lowerSelect id) fun r g => Suits K g n r := by
  refine .given (fun g hg => (hn g hg).shares) fun hid => .bind (.operandOf hn hop (by rfl))
    fun cond => .bind (.armOf (fun g hg => hn g hg.1) hop (by rfl)) fun ifTrue =>
    .bind (.armOf (fun g hg => hn g hg.1.1) hop (by rfl)) fun ifFalse =>
    .bind (selectByTruth_finds hid (fun g hg => hg.1.1.2) fun g hg =>
    (hn g hg.1.1.1).arms hop rfl hg.1.2 hg.2) fun o => ?_
  exact .pure fun g hg => (hn g hg.1.1.1.1).suits_arm hop hg.1.1.2.1 hg.2 rfl rfl

theorem lowerSelectCC_finds (hn : ∀ g, H g → Known K g id n) (hop : n.op = .selectCC) :
    Finds K H (lowerSelectCC id) fun r g => Suits K g n r := by
  refine .given (fun g hg => (hn g hg).shares) fun hid => .bind (.operandOf hn hop (by rfl))
    fun lhs => .bind (.operandOf (fun g hg => hn g hg.1) hop (by rfl)) fun rhs =>
    .bind (.armOf (fun g hg => hn g hg.1.1) hop (by rfl)) fun ifTrue =>
    .bind (.armOf (fun g hg => hn g hg.1.1.1) hop (by rfl)) fun ifFalse =>
    .bind (.slotOf (fun g hg => hn g hg.1.1.1.1) hop (by rfl)) fun cc =>
    .bind (predicateOf_finds fun g hg => hg.2.2) fun _ =>
    .bind (selectByPredicate_finds hid (fun g hg => hg.1.1.1.1.1.2) (fun g hg => hg.1.1.1.1.2)
      fun g hg => (hn g hg.1.1.1.1.1.1).arms hop rfl hg.1.1.1.2 hg.1.1.2) fun o => ?_
  exact .pure fun g hg => (hn g hg.1.1.1.1.1.1.1).suits_arm hop hg.1.1.1.1.2.1 hg.2 rfl rfl

/-! ### Values of two words -/

theorem load_finds (hvt : ∀ g, H g → K.Allows vt) (hc : ∀ g, H g → Holds K g chain)
    (hp : ∀ g, H g → Data K g ptr) : Finds K H (build (·.load chain ptr vt)) fun id g =>
      OfType K g vt (some ⟨id, 0⟩) ∧ Link K g (some ⟨id, 1⟩) chain := by
  refine .mono (.newNode fun g hg => ?_) fun id g hg hid =>
    ⟨hid.ofType rfl rfl (hvt g hg).glue, hid.link rfl rfl⟩
  obtain ⟨c, hch, hcg⟩ := hc g hg
  have hpg := hp g hg
  obtain ⟨a, hpt, ha⟩ := hpg.holds
  subst hch hpt
  refine ⟨.chained [vt] [] ⟨c, rfl, hcg.has⟩ (fun o ho => ?_) (Nat.le_refl 2) rfl rfl
    (.plain rfl) (fun _ => rfl)
    fun hK => by simpa using (hvt g hg).chain hK, by simp [taken, hcg.base, ha.base], fun hK =>
    .plainLoad ⟨hcg.has, hcg.plain hK⟩ ⟨ha.has, ha.plain hK⟩ ((hvt g hg).glue hK)⟩
  rw [List.mem_singleton.1 ho]
  exact .inr ⟨hpg.filled, .of_datum hpg.datum⟩

theorem store_finds (hc : ∀ g, H g → Holds K g chain) (hv : ∀ g, H g → Data K g v)
    (hp : ∀ g, H g → Pointer K g ptr) :
    Finds K H (value (·.store chain v ptr)) fun o g => Link K g o chain := by
  refine .valueWith (.single (fun g hg => ?_) fun _ _ _ h => h.link rfl rfl)
  obtain ⟨c, hch, hcg⟩ := hc g hg
  have hvg := hv g hg
  obtain ⟨w, hword, hw⟩ := hvg.holds
  have hpg := hp g hg
  obtain ⟨a, hpt, ha, hbase, hplace⟩ := hpg.place
  subst hch hword hpt
  refine ⟨.chained [] [] ⟨c, rfl, hcg.has⟩ (fun o ho => .inr ?_) (Nat.le_refl 3) rfl rfl
    (.plain rfl) (fun _ => rfl) nofun, by simp [taken, hcg.base, hw.base, hbase], fun hK =>
    .store ⟨hcg.has, hcg.plain hK⟩ ⟨hw.has, hw.plain hK⟩ ha (hplace hK)⟩
  rcases List.mem_pair.1 ho with rfl | rfl
  · exact ⟨hvg.filled, .of_datum hvg.datum⟩
  · exact ⟨hpg.filled, .of_datum hpg.datum⟩

theorem buildPair_finds (hvt : ∀ g, H g → K.Allows vt) (ha : ∀ g, H g → Data K g a)
    (hb : ∀ g, H g → Data K g b)
    (hlow : ∀ g, H g → ∀ l, K.asks l → 0 ∈ l.halves vt → g.operandType? a = some .i32)
    (hhigh : ∀ g, H g → ∀ l, K.asks l → 1 ∈ l.halves vt → g.operandType? b = some .i32) :
    Finds K H (value (·.buildPair vt a b)) fun o g => OfType K g vt o := by
  refine .value (.single (fun g hg => .value (by simp [ha g hg, hb g hg]) (Nat.le_refl 2) rfl
    rfl rfl (hvt g hg) ⟨fun l hl i vt' hi => ?_⟩) fun _ g hg h => h.ofType rfl rfl (hvt g hg).glue)
  obtain ⟨v, rfl, -⟩ := (ha g hg).filled
  obtain ⟨w, rfl, -⟩ := (hb g hg).filled
  have harms : l.arms .buildPair = [] := by cases l <;> rfl
  simp only [expected?, harms, List.not_mem_nil, if_false, true_and, List.flatMap_singleton,
    Option.ite_none_right_eq_some, Option.some.injEq] at hi
  obtain ⟨hi, rfl⟩ := hi
  obtain rfl | rfl : i = 0 ∨ i = 1 := by
    cases l <;> simp only [Typing.halves] at hi <;> split at hi <;> simp at hi <;> omega
  · exact ⟨v, rfl, hlow g hg l hl hi⟩
  · exact ⟨w, rfl, hhigh g hg l hl hi⟩

theorem wordPair_finds (hvt : ∀ g, H g → K.Allows vt)
    (hw : ∀ g, H g → OfType K g .i32 a ∧ OfType K g .i32 b) :
    Finds K H (value (·.buildPair vt a b)) fun o g => OfType K g vt o :=
  buildPair_finds hvt (fun g hg => (hw g hg).1.word) (fun g hg => (hw g hg).2.word)
    (fun g hg _ _ _ => (hw g hg).1.operandType?) fun g hg _ _ _ => (hw g hg).2.operandType?

/-- Chains that are joined, which may be one, lead on as the first of them does. -/
theorem tokenFactor_finds {chains : List (Option Value)}
    (h : ∀ g, H g → ∀ o ∈ chain :: chains, Holds K g o) :
    Finds K H (value (·.tokenFactor (chain :: chains))) fun o g => LeadsOn K g o chain ∧
      ((∀ o ∈ chain :: chains, OfType K g .chain o) → OfType K g .chain o) := by
  have hmem : ∀ v ∈ ((chain :: chains).filterMap (·)).eraseDups, some v ∈ chain :: chains := by
    intro v hv
    simpa [List.mem_eraseDups] using hv
  have hhead : ∀ c, chain = some c →
      ∃ cs, ((chain :: chains).filterMap (·)).eraseDups = c :: cs := by
    rintro c rfl
    exact ⟨_, List.eraseDups_cons (a := c)⟩
  refine .valueWith ?_
  unfold Graph.tokenFactor
  split
  next c hc =>
    rw [hc] at hmem
    refine .pure fun g hg => ⟨⟨h g hg _ (hmem c (by simp)), fun w hw _ => ?_⟩,
      fun hall => hall _ (hmem c (by simp))⟩
    obtain ⟨cs, hcs⟩ := hhead w hw
    rw [hc] at hcs
    cases hcs
    exact ⟨c, [], rfl, .refl⟩
  next cs hcs =>
    have hall : ∀ g, H g → ∀ o ∈ (((chain :: chains).filterMap (·)).eraseDups).map some,
        Holds K g o := by
      intro g hg o ho
      obtain ⟨v, hv, rfl⟩ := List.mem_map.1 ho
      exact h g hg _ (hmem v hv)
    refine .single (fun g hg =>
      .ordinary ⟨filled_of_mem_taken fun o ho => .inr (hall g hg o ho).filled, Nat.zero_le _, rfl,
      .plain rfl, fun _ => .tokenFactor⟩ rfl (by simp) fun o ho => .inr (hall g hg o ho))
      fun id g hg hid => ?_
    have hout : OfType K g .chain (some ⟨id, 0⟩) := hid.ofType rfl rfl fun _ => by decide
    refine ⟨⟨hout.holds, fun c hc => ?_⟩, fun _ => hout⟩
    obtain ⟨cs, hcs⟩ := hhead c hc
    rw [hcs, List.map_cons] at hid
    exact hid.continues rfl c rfl

theorem splitLoad_finds (hn : ∀ g, H g → Known K g id n) (hop : n.op = .load)
    (h0 : ∀ g, H g → n.types[0]? = some vt) :
    Finds K H (splitLoad id vt) fun r g => Suits K g n r := by
  refine .given (fun g hg => (hn g hg).allows_loaded hop (h0 g hg)) fun hvt => ?_
  refine .bind (.slotOf hn hop (by rfl)) fun chain =>
    .bind (.operandOf (fun g hg => hn g hg.1) hop (by rfl)) fun ptr =>
    .bind (load_finds (fun _ _ => K.allows_word) (fun g hg => hg.1.2.2) fun g hg => hg.2) fun low =>
    .bind (addressAt_finds (fun g hg => hg.1.2.pointer) _) fun highPtr =>
    .bind (load_finds (fun _ _ => K.allows_word) (fun g hg => hg.1.1.1.2.2)
      fun g hg => hg.2.elim (· ▸ hg.1.1.2) (·)) fun high =>
    .bind (tokenFactor_finds fun g hg => by simp [hg.1.1.2.2.holds, hg.2.2.holds]) fun out =>
    .bind (wordPair_finds (fun _ _ => hvt) fun g hg => ⟨hg.1.1.1.2.1, hg.1.2.1⟩) fun pair =>
      .pure fun g hg => ?_
  obtain ⟨⟨⟨⟨⟨⟨⟨hH, hc, -⟩, -⟩, hlow⟩, -⟩, hhigh⟩, hout⟩, hpair⟩ := hg
  exact (hn g hH).suits_load hop (h0 g hH) hc hpair
    ⟨hout.2 (by simp [hlow.2.ofType, hhigh.2.ofType]), hout.1.continues.trans hlow.2.continues⟩

/-- A rule gives one value. -/
def GivesOne (P : Graph → Option Value → Prop) (r : List (Option Value)) (g : Graph) : Prop :=
  ∃ o, r = [o] ∧ P g o

theorem splitStore_finds (hc : ∀ g, H g → Holds K g chain) (hv : ∀ g, H g → Data K g v)
    (hp : ∀ g, H g → Pointer K g ptr) :
    Finds K H (splitStore chain v ptr) (GivesOne (Link K · · chain)) := by
  refine .bind (halves_finds hv) fun words =>
    .bind (store_finds (fun g hg => hc g hg.1) (fun g hg => hg.2.low) fun g hg => hp g hg.1)
      fun lowStore =>
    .bind (addressAt_finds (fun g hg => hp g hg.1.1) _) fun highPtr =>
    .bind (store_finds (fun g hg => hc g hg.1.1.1) (fun g hg => hg.1.1.2.high) 
      fun g hg => hg.2.elim (fun he => he ▸ hp g hg.1.1.1) Data.pointer) fun highStore =>
    .bind (tokenFactor_finds fun g hg => by simp [hg.1.1.2.holds, hg.2.holds]) fun out =>
      .pure fun g hg => ?_
  exact ⟨out, rfl, hg.2.2 (by simp [hg.1.1.1.2.ofType, hg.1.2.ofType]), hg.2.1.continues.trans
    hg.1.1.1.2.continues⟩

theorem splitAdd_finds (ha : ∀ g, H g → Data K g a) (hb : ∀ g, H g → Data K g b)
    (hop : isMade op 2 .i32) : Finds K H (splitAdd op a b) (GivesOne (Serves K · .i64 ·)) := by
  refine .bind (halves_finds ha) fun as => .bind (halves_finds fun g hg => hb g hg.1) fun bs =>
    .bind (binary_finds hop (fun g hg => hg.1.2.low) fun g hg => hg.2.low) fun low =>
    .bind (wordConstant_finds _) fun one => .bind (wordConstant_finds _) fun zero => ?_
  refine .under (H := fun g => (HalfWords K g a as ∧ HalfWords K g b bs) ∧
    OfType K g .i32 low ∧ Arms K g one zero) ?_
    fun g hg => ⟨⟨hg.1.1.1.1.2, hg.1.1.1.2⟩, hg.1.1.2, hg.1.2.arms hg.2 K.allows_word⟩
  refine .ite_bind (Q := fun carry g => Data K g carry)
    (fun _ => .mono (selectNode_finds (fun g hg => hg.2.1.word) (fun g hg => hg.1.1.low)
      (fun g hg => hg.2.2) _) fun _ _ _ h => h.toData)
    (fun _ => .mono (selectNode_finds (fun g hg => hg.1.1.low) (fun g hg => hg.1.2.low)
      (fun g hg => hg.2.2) _) fun _ _ _ h => h.toData) fun carry => ?_
  refine .bind (binary_finds hop (fun g hg => hg.1.1.1.high) fun g hg => hg.1.1.2.high) fun high =>
    .bind (binary_finds hop (fun g hg => hg.2.word) fun g hg => hg.1.2) fun sum =>
    .bind (wordPair_finds (fun _ _ => .of (by decide)) fun g hg => ⟨hg.1.1.1.2.1, hg.2⟩) fun pair =>
    .pure fun g hg => ⟨pair, rfl, hg.2.serves (.of (by decide))⟩

theorem splitBitwise_finds (ha : ∀ g, H g → Data K g a) (hb : ∀ g, H g → Data K g b)
    (hop : isMade op 2 .i32) : Finds K H (splitBitwise op a b) (GivesOne (Serves K · .i64 ·)) := by
  refine .bind (halves_finds ha) fun as => .bind (halves_finds fun g hg => hb g hg.1) fun bs =>
    .bind (binary_finds hop (fun g hg => hg.1.2.low) fun g hg => hg.2.low) fun low =>
    .bind (binary_finds hop (fun g hg => hg.1.1.2.high) fun g hg => hg.1.2.high) fun high =>
    .bind (wordPair_finds (fun _ _ => .of (by decide)) fun g hg => ⟨hg.1.2, hg.2⟩) fun pair =>
      .pure fun g hg => ⟨pair, rfl, hg.2.serves (.of (by decide))⟩

theorem splitExtend_finds (ha : ∀ g, H g → Data K g a) (hop : isMade op 1 .i32) :
    Finds K H (splitExtend op a) (GivesOne (Serves K · .i64 ·)) := by
  refine .bind (.typeOf fun g hg => (ha g hg).holds) fun vt => ?_
  refine .ite_bind (Q := fun word g => OfType K g .i32 word) (fun hvt => .pure fun g hg => ?_)
    (fun _ => unary_finds hop (fun _ _ => K.allows_word) fun g hg => ha g hg.1) fun word =>
      .bind (wordConstant_finds _) fun zero => ?_
  · exact (ha g hg.1).holds.ofType (hvt ▸ hg.2)
  have hpair : ∀ {I : Graph → Prop} {high : Option Value},
    (∀ g, I g → OfType K g .i32 word ∧ OfType K g .i32 high) →
      Finds K I (do return [← value (·.buildPair .i64 word high)]) (GivesOne (Serves K · .i64 ·)) :=
        fun hI =>
    .bind (wordPair_finds (fun _ _ => .of (by decide)) hI) fun pair => .pure fun g hg =>
      ⟨pair, rfl, hg.2.serves (.of (by decide))⟩
  refine .ite (fun _ => ?_) fun _ =>
    .bind (.pure (Q := fun high g => OfType K g .i32 high) fun g hg => hg.2) fun high =>
      hpair fun g hg => ⟨hg.1.1.2, hg.2⟩
  refine .bind (wordConstant_finds _) fun count =>
    .bind (binary_finds (by rfl) (fun g hg => hg.1.1.2.word) fun g hg => hg.2.word) fun high => ?_
  exact hpair fun g hg => ⟨hg.1.1.1.2, hg.2⟩

theorem splitTruncate_finds (ha : ∀ g, H g → Data K g a)
    (ht : ∀ g, H g → g.operandType? a = some .i64) (hvt : K.Allows vt) :
    Finds K H (splitTruncate vt a) (GivesOne (Serves K · vt ·)) := by
  refine .bind (halves_finds ha) fun words => .ite (fun hword => .pure fun g hg => ?_) fun _ =>
    .bind (unary_finds rfl (fun _ _ => hvt) fun g hg => hg.2.low) fun low =>
      .pure fun g hg => ⟨low, rfl, hg.2.serves hvt⟩
  exact ⟨_, rfl, hg.2.low, fun ⟨l, hl⟩ => hword ▸ hg.2.lowWord l .i64 hl (ht g hg.1)
    (by cases l <;> decide)⟩

theorem splitSelect_finds {i j : Nat}
    {select : Option Value → Option Value → Lowering (Option Value)}
    (hn : ∀ g, H g → Known K g id n) (hop : n.op = op)
    (ht : ∀ g, H g → n.operands[i]? = some ifTrue ∧ Data K g ifTrue)
    (hf : ∀ g, H g → n.operands[j]? = some ifFalse ∧ Data K g ifFalse)
    (hs : ∀ {I : Graph → Prop} {t f : Option Value}, (∀ g, I g → H g) → (∀ g, I g → Arms K g t f) →
      Finds K I (select t f) fun o g => Like K g o t)
    (hwide : ∀ g, H g → ∀ vt, n.types[0]? = some vt → vt.isWide)
    (hone : (isSingle op && isValue op) = true) (hi : op.arm? = some i)
    (hij : Typing.full.arms op = [i, j]) :
    Finds K H (splitSelect id select ifTrue ifFalse) fun r g => Suits K g n r := by
  have hvt : ∀ {g vt}, H g → n.types[0]? = some vt → K.Allows vt := fun {g _} hg h0 =>
    (hn g hg).allows hop h0 (Bool.and_eq_true_iff.1 hone).2
  have htype : ∀ {g l}, H g → K.asks l → g.operandType? ifTrue = n.types[0]? := fun {g l} hg hl =>
    (hn g hg).arm hl (hop ▸ Typing.mem_arms hi) (ht g hg).1
  have hfull : ∀ {g}, H g → K.asks .full → ∃ vt, g.operandType? ifTrue = some vt ∧
    g.operandType? ifFalse = some vt ∧
      Typing.full.halves vt = [0, 1] := fun {g} hg hK => by
    obtain ⟨vt, rest, htypes⟩ := List.exists_cons_of_ne_nil (Opcode.ne_nil_of_gives (hn g hg).gives)
    have h0 : n.types[0]? = some vt := by rw [htypes]; rfl
    have hfalse := (hn g hg).arm hK (by simp [hop, hij]) (hf g hg).1
    exact ⟨vt, (htype hg hK).trans h0, hfalse.trans h0, by simp [Typing.halves, hwide g hg vt h0]⟩
  refine .bind (halves_finds fun g hg => (ht g hg).2) fun ts =>
    .bind (halves_finds fun g hg => (hf g hg.1).2) fun fs =>
    .bind (hs (fun g hg => hg.1.1) fun g hg => ⟨hg.1.2.low, hg.2.low, fun hK => ?_⟩) fun low =>
    .bind (hs (fun g hg => hg.1.1.1) fun g hg => ⟨hg.1.1.2.high, hg.1.2.high, fun hK => ?_⟩)
    fun high => .bind (.resultType fun g hg => hn g hg.1.1.1.1) fun vt =>
    .bind (buildPair_finds (fun g hg => hvt hg.1.1.1.1.1 hg.2) (fun g hg => hg.1.1.2.toData)
      (fun g hg => hg.1.2.toData) (fun g hg l hl hhalf => ?_) fun g hg l hl hhalf => ?_) fun pair =>
      .pure fun g hg => ?_
  · obtain ⟨vt, htrue, hfalse, hhalf⟩ := hfull hg.1.1 hK
    rw [hg.1.2.lowWord .full vt hK htrue (by simp [hhalf]), hg.2.lowWord .full vt hK hfalse
      (by simp [hhalf])]
  · obtain ⟨vt, htrue, hfalse, hhalf⟩ := hfull hg.1.1.1 hK
    rw [hg.1.1.2.highWord .full vt hK htrue (by simp [hhalf]), hg.1.2.highWord .full vt hK hfalse
      (by simp [hhalf])]
  · obtain ⟨⟨⟨⟨⟨hH, hts⟩, -⟩, hlow⟩, -⟩, h0⟩ := hg
    rw [hlow.type]
    exact hts.lowWord l vt hl ((htype hH hl).trans h0) hhalf
  · obtain ⟨⟨⟨⟨⟨hH, hts⟩, -⟩, -⟩, hhigh⟩, h0⟩ := hg
    rw [hhigh.type]
    exact hts.highWord l vt hl ((htype hH hl).trans h0) hhalf
  · obtain ⟨⟨⟨⟨⟨⟨hH, -⟩, -⟩, -⟩, -⟩, h0⟩, hpair⟩ := hg
    exact (hn g hH).suits_value hop h0 (hpair.serves (hvt hH h0)) hone

theorem noSplit_finds {α : Type} {Q : α → Graph → Prop} (hn : ∀ g, H g → Known K g id n) :
    Finds K H (noSplit id) Q :=
  .given (fun g hg => (hn g hg).shares) fun hid => .bind (.nodeTypes hn) fun _ => .unsupported hid

/-- Values that may stand for the results of a node that a rule is for, if there are any. -/
def Standing (K : Regime) (g : Graph) (n : Node) (r : Option (List (Option Value))) : Prop :=
  ∀ l, r = some l → isRewritten n.op ∧ Suits K g n l

theorem some_finds {m : Lowering (List (Option Value))} {Q : List (Option Value) → Graph → Prop}
    (h : Finds K H m Q) (hq : ∀ r g, H g → Q r g → Suits K g n r) (hr : isRewritten n.op) :
    Finds K H (m >>= fun r => pure (some r)) fun r g => Standing K g n r := by
  refine .bind h fun r => .pure fun g hg l hl => ?_
  cases hl
  exact ⟨hr, hq r g hg.1 hg.2⟩

theorem valued_finds {m : Lowering (List (Option Value))} (hn : ∀ g, H g → Known K g id n)
    (hop : n.op = op) (h0 : ∀ g, H g → n.types[0]? = some vt)
    (h : Finds K H m (GivesOne (Serves K · vt ·))) (hs : (isSingle op && isValue op) = true)
    (hr : isRewritten op) :
    Finds K H (m >>= fun r => pure (some r)) fun r g => Standing K g n r := by
  refine some_finds h (fun r g hg ⟨o, hr, ho⟩ => ?_) (hop ▸ hr)
  subst hr
  exact (hn g hg).suits_value hop (h0 g hg) ho hs

theorem paired_finds {words : Option Value × Option Value} (hn : ∀ g, H g → Known K g id n)
    (hop : n.op = op) (h0 : ∀ g, H g → n.types[0]? = some vt)
    (hw : ∀ g, H g → OfType K g .i32 words.1 ∧ OfType K g .i32 words.2)
    (hs : (isSingle op && isValue op) = true) (hr : isRewritten op) :
    Finds K H (value (·.buildPair vt words.1 words.2) >>= fun o => pure (some [o])) fun r g =>
    Standing K g n r := by
  have hvt : ∀ g, H g → K.Allows vt := fun g hg =>
    (hn g hg).allows hop (h0 g hg) (Bool.and_eq_true_iff.1 hs).2
  refine .bind (wordPair_finds hvt hw) fun o => .pure fun g hg l hl => ?_
  cases hl
  exact ⟨hop ▸ hr, (hn g hg.1).suits_value hop (h0 g hg.1) (hg.2.serves (hvt g hg.1)) hs⟩

theorem absent_finds : Finds K H (pure none) fun r g => Standing K g n r :=
  .pure fun _ _ _ hl => (nomatch hl)

theorem split_finds (hn : ∀ g, H g → Known K g id n)
    (hwide : n.op = .select → ∀ g, H g → ∀ vt, n.types[0]? = some vt → vt.isWide) :
    Finds K H (split id) fun r g => Standing K g n r := by
  refine .given (fun g hg => (hn g hg).shares) fun hid => .bind (.node hn) fun n' =>
    .given (fun _ hg => hg.2) fun hsame => ?_
  subst hsame
  refine .under (H := fun g => Known K g id n' ∧
    (n'.op = .select → ∀ vt, n'.types[0]? = some vt → vt.isWide)) ?_ fun g hg =>
    ⟨hn g hg.1, fun hop => hwide hop g hg.1⟩
  refine .given (fun _ hg => hg.2) fun hwide => .under (H := fun g => Known K g id n') ?_
    fun _ hg => hg.1
  refine .ite (fun _ => absent_finds) fun _ => .bind (touchesWide_finds fun g hg => hg) fun wide =>
    .under (H := fun g => Known K g id n') ?_ fun g hg => hg.1
  refine .ite (fun _ => absent_finds) fun _ => ?_
  have hk : ∀ g, Known K g id n' → Known K g id n' := fun _ hg => hg
  split
  case h_1 hop =>
    exact .bind (constantHalves_finds _) fun words => .bind (.resultType fun g hg => hg.1) fun vt =>
      paired_finds (fun g hg => hg.1.1) hop (fun g hg => hg.2) (fun g hg => hg.1.2) rfl rfl
  case h_2 hop =>
    exact .bind (.resultType hk) fun vt => .bind undefHalves_finds fun words =>
      paired_finds (fun g hg => hg.1.1) hop (fun g hg => hg.1.2) (fun g hg => hg.2) rfl rfl
  case h_3 hop =>
    exact .bind (.resultType hk) fun vt =>
      some_finds (splitLoad_finds (fun g hg => hg.1) hop fun g hg => hg.2) (fun _ _ _ h => h)
      (by rw [hop]; rfl)
  case h_4 hop =>
    refine .bind (.slotOf hk hop (by rfl)) fun chain =>
      .bind (.operandOf (fun g hg => hg.1) hop (by rfl)) fun v =>
      .bind (.addressOf (fun g hg => hg.1.1) hop) fun ptr =>
      .bind (.typeOf fun g hg => hg.1.2.holds) fun vt => ?_
    refine .ite (fun _ =>
      some_finds (splitStore_finds (fun g hg => hg.1.1.1.2.2) (fun g hg => hg.1.1.2) fun g hg =>
      hg.1.2) (fun r g hg ⟨o, hr, ho⟩ => ?_) (by rw [hop]; rfl)) fun _ => noSplit_finds
      fun g hg => hg.1.1.1.1
    subst hr
    exact hg.1.1.1.1.suits_effect hop hg.1.1.1.2.1 ho rfl
  case h_5 hop | h_6 hop =>
    refine .bind (.resultType hk) fun vt => .ite (fun hvt => ?_) fun _ => noSplit_finds
      fun g hg => hg.1
    exact .bind (.operandOf (fun g hg => hg.1) hop (by rfl)) fun a =>
      .bind (.operandOf (fun g hg => hg.1.1) hop (by rfl)) fun b =>
      valued_finds (fun g hg => hg.1.1.1) hop (fun g hg => hvt ▸ hg.1.1.2)
        (splitAdd_finds (fun g hg => hg.1.2) (fun g hg => hg.2) (by rw [hop]; rfl)) rfl rfl
  case h_7 hop | h_8 hop | h_9 hop =>
    refine .bind (.resultType hk) fun vt => .ite (fun hvt => ?_) fun _ => noSplit_finds
      fun g hg => hg.1
    exact .bind (.operandOf (fun g hg => hg.1) hop (by rfl)) fun a =>
      .bind (.operandOf (fun g hg => hg.1.1) hop (by rfl)) fun b =>
      valued_finds (fun g hg => hg.1.1.1) hop (fun g hg => hvt ▸ hg.1.1.2)
        (splitBitwise_finds (fun g hg => hg.1.2) (fun g hg => hg.2) (by rw [hop]; rfl)) rfl rfl
  case h_10 hop | h_11 hop =>
    refine .bind (.resultType hk) fun vt => .ite (fun hvt => ?_) fun _ => noSplit_finds
      fun g hg => hg.1
    exact .bind (.operandOf (fun g hg => hg.1) hop (by rfl)) fun a =>
      valued_finds (fun g hg => hg.1.1) hop (fun g hg => hvt ▸ hg.1.2)
      (splitExtend_finds (fun g hg => hg.2) (by rw [hop]; rfl)) rfl rfl
  case h_12 hop =>
    refine .bind (.operandOf hk hop (by rfl)) fun a =>
      .bind (.typeOf fun g hg => hg.2.holds) fun vt => .ite (fun hvt => ?_) fun _ => noSplit_finds
      fun g hg => hg.1.1
    refine .bind (.resultType fun g hg => hg.1.1) fun vt' =>
      .given (fun g hg => hg.1.1.1.allows hop hg.2 rfl) fun hvt' =>
      valued_finds (fun g hg => hg.1.1.1) hop (fun g hg => hg.2)
        (splitTruncate_finds (fun g hg => hg.1.1.2) (fun g hg => hvt ▸ hg.1.2) hvt') rfl rfl
  case h_13 hop =>
    refine .bind (.armOf hk hop (by rfl)) fun ifTrue =>
      .bind (.armOf (fun g hg => hg.1) hop (by rfl)) fun ifFalse =>
      some_finds (splitSelect_finds (fun g hg => hg.1.1) hop (fun g hg => hg.1.2)
      (fun g hg => hg.2) ?_
        (fun _ _ => hwide hop) rfl rfl rfl) (fun _ _ _ h => h) (by rw [hop]; rfl)
    intro I t f hI ha
    refine .bind (.operandOf (fun g hg => (hI g hg).1.1) hop (by rfl)) fun cond => ?_
    exact selectByTruth_finds hid (fun g hg => hg.2) fun g hg => ha g hg.1
  case h_14 hop =>
    refine .bind (.resultType hk) fun vt => .ite (fun hvt => ?_) fun _ => noSplit_finds
      fun g hg => hg.1
    refine .bind (.armOf (fun g hg => hg.1) hop (by rfl)) fun ifTrue =>
      .bind (.armOf (fun g hg => hg.1.1) hop (by rfl)) fun ifFalse =>
      some_finds (splitSelect_finds (fun g hg => hg.1.1.1) hop (fun g hg => hg.1.2)
        (fun g hg => hg.2) ?_ (fun g hg vt' h0 => Option.some.inj (hg.1.1.2.symm.trans h0) ▸ hvt)
        rfl rfl rfl) (fun _ _ _ h => h) (by rw [hop]; rfl)
    intro I t f hI ha
    refine .bind (.operandOf (fun g hg => (hI g hg).1.1.1) hop (by rfl)) fun lhs =>
      .bind (.operandOf (fun g hg => (hI g hg.1).1.1.1) hop (by rfl)) fun rhs =>
      .bind (.slotOf (fun g hg => (hI g hg.1.1).1.1.1) hop (by rfl)) fun cc =>
      .bind (predicateOf_finds fun g hg => hg.2.2) fun p => ?_
    exact selectByPredicate_finds hid (fun g hg => hg.1.1.1.2) (fun g hg => hg.1.1.2) fun g hg =>
      ha g hg.1.1.1.1
  case h_15 => exact noSplit_finds hk

end GraphLowering.Usim
