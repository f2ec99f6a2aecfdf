import GraphLowering.Proofs.Usim.Combining

/-!
# Lowering finds what it looks for

A rule only adds to the graph; what puts its values in place of a node changes the graph. `Survives`
is `Finds` for such computations: values stay values, but nodes may take others. With it every step
of a lowering keeps a session ready, whatever a file says about types, about glue or about its root.
-/

namespace GraphLowering.Usim

open GraphLowering.Graph (taken)
open Lower (Session Lowering Failure Libcalls Options Course Point outset Metrics)
open Lower.Lowering
open Relation
open FunctionFile (holdsOfOnly exists_of_holdsOfOnly)
open Subtarget (Description)

variable {α β : Type} {W : Typing → Prop} {H : Graph → Prop} {m m' : Lowering α}
  {k : α → Lowering β} {Q : α → Graph → Prop} {R : β → Graph → Prop} {g : Graph} {id : Nat}
  {s : Session} {d : Description}

/-- What starts where `H` holds of every later graph does not fail for something missing, keeps a
session ready and keeps all values and their types. -/
def Survives (W : Typing → Prop) (H : Graph → Prop) (m : Lowering α) (Q : α → Graph → Prop) :
    Prop :=
  ∀ s, Ready (.types W) s → (∀ g, s.graph.Extends g → H g) → ∃ r s', outcome m s = (r, s') ∧
    Ready (.types W) s' ∧ KeepsResults s.graph s'.graph ∧ match r with
      | .ok a => ∀ g, s'.graph.Extends g → Q a g
      | .error e => e ≠ .malformed

theorem Finds.survives (h : Finds (.types W) H m Q) : Survives W H m Q := by
  intro s hs hH
  obtain ⟨r, s', hm, hs', hx, hr⟩ := h.run rfl hs hH
  exact ⟨r, s', hm, hs', .of_extends hx.extension, hr⟩

namespace Survives

theorem bind (h : Survives W H m Q) (hk : ∀ a, Survives W (Q a) (k a) R) :
    Survives W H (m >>= k) R := by
  intro s hs hH
  obtain ⟨r, s₁, hm, hs₁, hv₁, hr⟩ := h s hs hH
  rw [outcome_bind, hm]
  cases r with
  | error e => exact ⟨_, _, rfl, hs₁, hv₁, hr⟩
  | ok a =>
    obtain ⟨r, s', hk, hs', hv, hr'⟩ := hk a s₁ hs₁ hr
    exact ⟨r, s', hk, hs', hv₁.trans hv, hr'⟩

/-- After what only adds to the graph, what was known is still known. -/
theorem bind_finds (h : Finds (.types W) H m Q)
    (hk : ∀ a, Survives W (fun g => H g ∧ Q a g) (k a) R) : Survives W H (m >>= k) R := by
  intro s hs hH
  obtain ⟨r, s₁, hm, hs₁, hx, hr⟩ := h.run rfl hs hH
  rw [outcome_bind, hm]
  cases r with
  | error e => exact ⟨_, _, rfl, hs₁, .of_extends hx.extension, hr⟩
  | ok a =>
    obtain ⟨r, s', hk, hs', hv, hr'⟩ :=
      hk a s₁ hs₁ fun g hg => ⟨hH g (hx.extension.trans hg), hr g hg⟩
    exact ⟨r, s', hk, hs', (KeepsResults.of_extends hx.extension).trans hv, hr'⟩

theorem unsupported {r : Lower.Reason} : Survives W H (Lowering.unsupported id r) Q :=
  Finds.survives (.unsupported nofun)

theorem ite {c : Prop} [Decidable c] (ht : c → Survives W H m Q) (hf : ¬ c → Survives W H m' Q) :
    Survives W H (if c then m else m') Q := by
  split
  · exact ht ‹_›
  · exact hf ‹_›

theorem given {P : Prop} (h : ∀ g, H g → P) (hm : P → Survives W H m Q) : Survives W H m Q :=
  fun s hs hH => hm (h s.graph (hH _ (.refl _))) s hs hH

theorem under {H' : Graph → Prop} (h : Survives W H m Q) (hH : ∀ g, H' g → H g) :
    Survives W H' m Q :=
  fun s hs hg => h s hs fun g hx => hH g (hg g hx)

theorem carry {P : Graph → Prop} (h : Survives W H m Q)
    (hP : ∀ {g g'}, H g → KeepsResults g g' → P g') : Survives W H m fun a g => Q a g ∧ P g := by
  intro s hs hH
  obtain ⟨r, s', hm, hs', hv, hr⟩ := h s hs hH
  refine ⟨r, s', hm, hs', hv, ?_⟩
  cases r with
  | error e => exact hr
  | ok a => exact fun g hg => ⟨hr g hg, hP (hH _ (.refl _)) (hv.trans (.of_extends hg))⟩

theorem change (h : ∀ s, Shaped (.types W) s.graph → H s.graph →
      ∃ g, outcome m s = (.ok a, { s with graph := g }) ∧
    Shaped (.types W) g ∧ KeepsResults s.graph g) : Survives W H m fun _ _ => True := by
  intro s hs hH
  obtain ⟨g, hm, hshaped, hkeep⟩ := h s hs.shaped (hH _ (.refl _))
  refine ⟨_, _, hm, ⟨hshaped, fun l hl o ho => ?_⟩, hkeep, fun _ _ => trivial⟩
  obtain ⟨v, rfl, hv⟩ := hs.formals l hl o ho
  exact ⟨v, rfl, hkeep.has hv⟩

end Survives

/-! ### Library calls -/

theorem Shaped.operands_of_gluedLink {a b : Nat} (h : Shaped (.types W) g) (hb : g.contains b)
    (hl : g.GluedLink a b) : 0 < (g.node b).operands.length := by
  obtain ⟨⟨i, hi⟩, j, -, hj⟩ := hl
  replace hi := (Graph.chain_eq_follows.1 hi).2
  rw [Graph.type?_eq] at hi hj
  refine Nat.lt_of_lt_of_le ?_ (h.fits b hb).arity
  cases hop : isSingle (g.node b).op with
  | false =>
    unfold isSingle at hop
    split at hop <;> cases hop
    all_goals
      rename_i he
      rw [he]
      decide
  | true =>
    have hone := (h.known rfl hb).length_types hop
    have hi0 := (List.getElem?_eq_some_iff.1 hi).1
    have hj0 := (List.getElem?_eq_some_iff.1 hj).1
    dsimp only at hi hj hi0 hj0
    obtain rfl : i = j := by omega
    rw [hi] at hj
    cases hj

theorem isEffect_of_arms {l : Typing} {op : Opcode} (h : 0 ∈ l.arms op) : isEffect op := by
  cases l with
  | basic =>
    dsimp only [Typing.arms, Opcode.arm?] at h
    split at h <;> simp at h
  | full =>
    dsimp only [Typing.arms] at h
    split at h <;> simp_all [isEffect]

/-- No pair of words is on the chain of the root, so only a chain may be asked of the operand that a
call replaces. -/
theorem Shaped.expected?_of_onChain {l : Typing} {user : Nat} {vt : ValueType}
    (h : Shaped (.types W) g) (hl : W l) (hc : g.contains user)
    (hu : (∃ r, g.root = some r ∧ r.node = user) ∨ ∃ b, g.Follows b user)
    (he : expected? l (g.node user) 0 = some vt) : vt = .chain := by
  have hproper := h.fits user hc
  rw [expected?] at he
  split at he
  · rw [(h.known rfl hc).effect (isEffect_of_arms ‹_›)] at he
    exact (Option.some.inj he).symm
  split at he
  swap
  · cases he
  rename_i hpair
  obtain ⟨vt', htypes⟩ := List.length_eq_one_iff.1 (hproper.length_types (by rw [hpair.1]; rfl))
  have hhalf : 0 ∈ l.halves vt' := by simpa [htypes] using hpair.2
  have hwide : ∀ i vt, g.type? ⟨user, i⟩ = some vt → vt = vt' := fun i vt ht => by
    rw [Graph.type?_eq, htypes, List.getElem?_eq_some_iff] at ht
    obtain ⟨hi, ht⟩ := ht
    obtain rfl : i = 0 := by simpa using hi
    exact ht.symm
  rcases hu with ⟨r, hr, rfl⟩ | ⟨b, i, hi⟩
  · obtain ⟨vt, hvt⟩ := Option.isSome_iff_exists.1 (h.sound.has_root hr).2
    rw [← hwide r.result vt hvt, h.root l hl r hr vt hvt] at hhalf
    cases hhalf
  · rw [← hwide i _ (Graph.chain_eq_follows.1 hi).2] at hhalf
    cases l <;> cases hhalf

theorem Shaped.operands_of_needs {a b : Nat} (h : TransGen g.Needs a b) :
    0 < (g.node a).operands.length := by
  obtain ⟨c, hc, -⟩ := TransGen.head'_iff.1 h
  obtain ⟨-, i, hi⟩ := Graph.needs_iff.1 hc
  exact List.length_pos_of_mem hi

theorem arity_of_callee {op : Opcode} {callee : String}
    (h : Libcalls.standard.callees.lookup op = some callee) : arity op = 2 := by
  cases op <;> first | rfl | cases h

theorem updateOperand_survives {u : Use} {v : Option Value}
    (h : ∀ g, H g → g.contains u.user ∧ u.slot < (g.node u.user).operands.length ∧
      ∃ w, v = some w ∧ g.Has w ∧ ∀ l, W l → ∀ vt, expected? l (g.node u.user) u.slot = some vt →
      g.type? w = some vt) :
    Survives W H (do setGraph (← orMalformed ((← graph).updateOperand u v))) fun _ _ => True := by
  refine .change (a := ()) fun s hs hH => ?_
  obtain ⟨hu, hslot, w, rfl, hw, hfit⟩ := h s.graph hH
  obtain ⟨g, hg⟩ : ∃ g, s.graph.updateOperand u (some w) = some g := by
    rw [Graph.updateOperand, List.getElem?_eq_getElem hslot]
    dsimp only
    split <;> exact ⟨_, rfl⟩
  refine ⟨g, ?_, hs.updateOperand hu hw hfit hg⟩
  show outcome (orMalformed (s.graph.updateOperand u (some w)) >>= setGraph) s = _
  rw [hg]
  rfl

variable {n : Node}

theorem libcall_finds {chain symbol : Option Value} {info : CallInfo}
    (hn : ∀ g, H g → Known (.types W) g id n) (htwo : arity n.op = 2)
    (hc : ∀ g, H g → chain = none ∨ Filled g chain) (hs : ∀ g, H g → Filled g symbol) :
    Finds (.types W) H (build (·.call chain symbol n.operands [.i32] info)) fun id g =>
      OfType (.types W) g .i32 (some ⟨id, 0⟩) ∧ OfType (.types W) g .chain (some ⟨id, 1⟩) := by
  have hall : ∀ g, H g → ∀ o ∈ symbol :: n.operands, Filled g o := fun g hg o ho => by
    rcases List.mem_cons.1 ho with rfl | ho
    · exact hs g hg
    · exact (hn g hg).operands o ho
  refine .mono (.newNode fun g hg =>
    ⟨⟨filled_of_mem_taken fun o ho => ?_, ?_, rfl, .plain rfl, nofun⟩, fun _ _ => nofun, nofun⟩)
    fun id g _ hid => ⟨hid.ofType rfl rfl nofun, hid.ofType rfl rfl nofun⟩
  · rcases List.mem_cons.1 ho with rfl | ho
    · exact hc g hg
    · exact .inr (hall g hg o ho)
  · have hlen := length_taken (hall g hg)
    have harity := (hn g hg).arity
    rw [List.length_cons] at hlen
    show 2 ≤ ((taken (chain :: symbol :: n.operands)).map some).length
    rw [List.length_map]
    cases chain with
    | none => exact Nat.le_trans (by omega) hlen.ge
    | some c => exact Nat.le_trans (by omega) (Nat.succ_le_succ hlen.ge)

theorem expand_survives (hn : ∀ g, H g → Known (.types W) g id n) :
    Survives W H (Libcalls.standard.expand id) fun r g => Suits (.types W) g n r := by
  refine .bind_finds (.node hn) fun n' => .given (fun _ hg => hg.2) fun hsame => ?_
  subst hsame
  split
  · exact .unsupported
  rename_i callee hcallee
  refine .ite (fun _ => .unsupported) fun hword => .bind_finds (.graph rfl) fun g₀ =>
    .given (fun g hg => hg.2.1.1) fun hshaped => ?_
  rw [Decidable.not_not] at hword
  obtain ⟨before, chain, hsplice, hchain, huser⟩ := hshaped.sound.splicePoint_found (n := id)
  rw [hsplice]
  refine .bind_finds (Q := fun r _ => r = (before, chain)) (.pure fun _ _ => rfl) fun r =>
    .given (fun g hg => hg.2) fun hr => ?_
  subst hr
  refine .bind_finds (.word rfl) fun symbol =>
    .bind_finds (libcall_finds (fun g hg => hn g hg.1.1.1.1) (arity_of_callee hcallee)
    (fun g hg => ?_) fun g hg => hg.2.filled) fun call => ?_
  · cases chain with
    | none => exact .inl rfl
    | some v => exact .inr ⟨v, rfl, hg.1.1.2.2.has (hchain v rfl)⟩
  let K (g : Graph) : Prop := g₀.Extends g ∧ OfType (.types W) g .i32 (some ⟨call, 0⟩) ∧
    OfType (.types W) g .chain (some ⟨call, 1⟩)
  refine .under (H := K) ?_ fun g hg => ⟨hg.1.1.1.2.2, hg.2⟩
  -- the call is on the chain, and its value stands for the node
  have hend : ∀ {K : Graph → Prop}, (∀ g, K g → OfType (.types W) g .i32 (some ⟨call, 0⟩)) →
      Finds (.types W) K (do
      debug "expanded to libcall" [("op", n'.op.name), ("callee", callee)]
      return [some (⟨call, 0⟩ : Value)]) fun r g => Suits (.types W) g n' r := fun hK =>
    .bind .debug fun _ => .pure fun g hg => ⟨by
      rw [hword]
      exact .cons ⟨(hK g hg.1).holds, fun _ => (hK g hg.1).operandType?⟩ .nil, nofun⟩
  cases before with
  | none =>
    exact .bind_finds (.setRoot nofun fun g hg => hg.2.2) fun _ =>
      (hend fun g hg => hg.1.2.1).survives
  | some user =>
    obtain ⟨hcu, hdeep, hon⟩ := huser user rfl
    have hops : 0 < (g₀.node user).operands.length := by
      rcases hdeep with hdeep | ⟨b, hb⟩
      · exact Shaped.operands_of_needs hdeep
      · exact hshaped.operands_of_gluedLink hcu hb
    have hlt := Graph.contains_lt hcu
    have hput : Survives W K
      (do setGraph (← orMalformed ((← graph).updateOperand ⟨user, 0⟩ (some ⟨call, 1⟩))))
        fun _ _ => True := updateOperand_survives fun g hg => by
      rw [hg.1.contains user hlt, hg.1.node user hlt]
      obtain ⟨c, hc, hgood, ht⟩ := hg.2.2
      exact ⟨hcu, hops, c, hc, hgood.has,
        fun l hl vt he => hshaped.expected?_of_onChain hl hcu hon he ▸ ht⟩
    have hall := Survives.bind (hput.carry fun hg hk => hg.2.1.keeps hk) fun _ =>
      (hend fun g hg => hg.2).survives
    simpa only [bind_assoc] using hall

/-! ### Legalization -/

theorem substitute_survives {action : Lower.Action} (hn : ∀ g, H g → Known (.types W) g id n) :
    Survives W H (Lower.substitute (target d) Libcalls.standard action id) fun r g =>
      (∀ l, r = some l → Suits (.types W) g n l) ∧ g.contains id ∧ (g.node id).types = n.types := by
  refine .carry ?_ fun hg hk => (hn _ hg).node ▸ hk id (hn _ hg).contains
  unfold Lower.substitute
  split
  · exact (((lowerNode_settles hn (fun _ => nofun) nofun).finds rfl).mono fun _ _ _ hr l hl =>
      (hr l hl).2).survives
  · refine .bind (expand_survives hn) fun r => Finds.survives (.pure fun g hg l hl => ?_)
    cases hl
    exact hg
  · exact .unsupported

/-- Values that suit a node take its place. -/
theorem Shaped.replaceNode {values : List (Option Value)} (h : Shaped (.types W) g)
    (hv : List.Forall₂ (fun vt o => Filled g o ∧ ((∃ l, W l) → g.operandType? o = some vt))
      (g.node id).types values) :
    ∃ g', g.replaceNode id values = .ok g' ∧ Shaped (.types W) g' ∧ KeepsResults g g' ∧
    ((∃ l, W l) → Retyped g g') := by
  rw [Graph.replaceNode_eq, if_neg (not_not.2 hv.length_eq.symm)]
  refine ⟨_, rfl, h.replaceResults fun i v hi => ?_⟩
  obtain ⟨hlt, hvi⟩ := List.getElem?_eq_some_iff.1 hi
  have hlt' : i < (g.node id).types.length := hv.length_eq ▸ hlt
  obtain ⟨hfilled, htype⟩ := hv.get hlt' hlt
  rw [List.get_eq_getElem, hvi] at hfilled htype
  obtain ⟨w, hw, hhas⟩ := hfilled
  cases hw
  refine ⟨hhas, fun hW => ?_⟩
  rw [Nat.zero_add, Graph.type?_eq g ⟨id, i⟩, List.getElem?_eq_getElem hlt']
  exact htype hW

theorem replace_survives {values : List (Option Value)}
    (hv : ∀ g, H g → Suits (.types W) g n values ∧ g.contains id ∧ (g.node id).types = n.types) :
    Survives W H (Lower.replace id values) fun _ _ => True := by
  refine .change (a := ()) fun s hs hH => ?_
  obtain ⟨hsuits, -, ht⟩ := hv s.graph hH
  have hfit := hsuits.types.imp fun _ _ h => And.imp_left Holds.filled h
  obtain ⟨g', hg, hshaped, hkeep, -⟩ := hs.replaceNode (ht ▸ hfit)
  refine ⟨g', ?_, hshaped, hkeep⟩
  unfold Lower.replace
  rw [outcome_bind, outcome_graph]
  dsimp only
  rw [hg]
  rfl

theorem count_finds {f : Metrics → Metrics} :
    Finds (.types W) H (Lower.Lowering.count f) fun _ _ => True :=
  .still (a := ()) rfl fun _ => ⟨_, rfl, rfl, rfl⟩

theorem legalizeNode_survives {sw : Lower.Sweep} (hn : ∀ g, H g → Known (.types W) g id n) :
    Survives W H (Lower.legalizeNode (target d) Libcalls.standard sw id) fun _ _ => True := by
  have hpure : ∀ {K : Graph → Prop} {sw : Lower.Sweep}, Survives W K (pure sw) fun _ _ => True :=
    Finds.survives (.pure fun _ _ => trivial)
  refine .bind_finds (.graph rfl) fun g₀ => .ite (fun _ => hpure) fun _ =>
    .bind_finds (.nodeTypes fun g hg => hn g hg.1) fun types => .bind_finds count_finds fun _ =>
    .ite (fun _ => hpure) fun _ => .bind (substitute_survives fun g hg => hn g hg.1.1.1) fun r => ?_
  split
  · exact hpure
  · refine .bind (replace_survives fun g hg => ⟨hg.1 _ rfl, hg.2⟩) fun _ =>
      .bind_finds count_finds fun _ => hpure

/-! ### Combining -/

/-- A value that may take the place of a choice. -/
structure Replaces (W : Typing → Prop) (g : Graph) (id : Nat) (o : Option Value) : Prop where
  filled : Filled g o
  type : W .full → g.operandType? o = g.type? ⟨id, 0⟩

theorem Known.replaces {i : Nat} {o : Option Value} (h : Known (.types W) g id n)
    (hi : i ∈ Typing.full.arms n.op) (ho : n.operands[i]? = some o ∧ Filled g o) :
    Replaces W g id o :=
  ⟨ho.2, fun hW => by rw [h.arm hW hi ho.1, Graph.type?_eq, h.node]⟩

theorem combineNode_finds (hid : ∀ g, H g → g.contains id) :
    Finds (.types W) H (combineNode id) fun r g => ∀ o, r = some o → Replaces W g id o := by
  have hnone : ∀ {K : Graph → Prop}, Finds (.types W) K (pure none)
    fun (r : Option (Option Value)) g =>
      ∀ o, r = some o → Replaces W g id o := .pure fun _ _ _ h => (nomatch h)
  have hsome : ∀ {K : Graph → Prop} {o : Option Value}, (∀ g, K g → Replaces W g id o) →
      Finds (.types W) K (pure (some o)) fun r g => ∀ o, r = some o → Replaces W g id o := fun ho =>
    .pure fun g hg o' h => Option.some.inj h ▸ ho g hg
  refine .bind (.nodeAlone rfl hid) fun n => .under (H := fun g => Known (.types W) g id n) ?_
    fun g hg => hg.2
  refine .ite (fun hop => ?_) fun _ => .ite (fun hop => ?_) fun _ => hnone
  · have h2 : 2 ∈ Typing.full.arms n.op := by rw [hop]; decide
    have h3 : 3 ∈ Typing.full.arms n.op := by rw [hop]; decide
    refine .bind (.operandAt (fun g hg => hg) hop (by decide)) fun ifTrue =>
      .bind (.operandAt (fun g hg => hg.1) hop (by decide)) fun ifFalse =>
      .ite (fun _ => hsome fun g hg => hg.1.1.replaces h2 hg.1.2) fun _ =>
      .bind (.graph rfl) fun g₀ => .bind (.operandAt (fun g hg => hg.1.1.1) hop (by decide))
      fun c => .bind (.operandAt (fun g hg => hg.1.1.1.1) hop (by decide)) fun lhs =>
      .bind (.operandAt (fun g hg => hg.1.1.1.1.1) hop (by decide)) fun rhs => ?_
    split
    · exact hsome fun g hg => hg.1.1.1.1.1.1.replaces h2 hg.1.1.1.1.1.2
    · exact hsome fun g hg => hg.1.1.1.1.1.1.replaces h3 hg.1.1.1.1.2
    · exact hnone
  · have h0 : 0 ∈ Typing.full.arms n.op := by rw [hop]; decide
    refine .bind (.graph rfl) fun g₀ => .bind (.operandAt (fun g hg => hg.1) hop (by decide))
      fun c => .bind (.operandAt (fun g hg => hg.1.1) hop (by decide)) fun lhs =>
      .bind (.operandAt (fun g hg => hg.1.1.1) hop (by decide)) fun rhs => ?_
    split
    · exact hnone
    · exact .bind (.operandAt (fun g hg => hg.1.1.1.1) hop (by decide)) fun o => hsome fun g hg =>
        hg.1.1.1.1.1.replaces h0 hg.2
    · refine .bind (.operandAt (fun g hg => hg.1.1.1.1) hop (by decide)) fun chain =>
        .bind (.operandAt (fun g hg => hg.1.1.1.1.1) hop (by decide)) fun dest =>
        .bind (.link rfl rfl (fun _ _ => .plain rfl) (fun _ => rfl) (Nat.le_refl _)
          (fun g hg => hg.1.2.2.holds rfl) fun g hg o ho => ⟨?_, nofun⟩) fun o => hsome fun g hg =>
          ⟨hg.2.filled, fun _ => ?_⟩
      · exact List.mem_singleton.1 ho ▸ hg.2.2.holds rfl
      · have hk := hg.1.1.1.1.1.1.1
        rw [hg.2.ofType.operandType?, Graph.type?_eq, hk.node, hk.effect (by rw [hop]; rfl)]
        rfl

theorem combined?_finds :
    Finds (.types W) H (Lower.combined? (target d) id) fun r g => ∀ o, r = some o →
    Replaces W g id o := by
  refine .bind (.graph rfl) fun g₀ => .ite (fun _ => .pure fun _ _ _ h => (nomatch h)) fun hc => ?_
  have hid : g₀.contains id := by
    by_contra h
    simp [h] at hc
  refine .bind (combineNode_finds fun g hg => ?_) fun r => ?_
  · exact (hg.2.2.contains id (Graph.contains_lt hid)).trans hid
  · split
    · exact .pure fun _ _ _ h => (nomatch h)
    · refine .pure fun g hg o ho => ?_
      split at ho
      · cases ho
      · exact hg.2 _ ho

/-- Combining does not look at the parameters, of which some may be gone by then. -/
theorem outcome_combined?_formals (formals : Option (List (Option Value))) :
    outcome (Lower.combined? (target d) id) { s with formals } =
      ((outcome (Lower.combined? (target d) id) s).1,
        { (outcome (Lower.combined? (target d) id) s).2 with formals }) := by
  have hcombine : (target d).combine id = combineNode id := rfl
  rw [Lower.combined?, outcome_bind, outcome_bind, outcome_graph, outcome_graph, hcombine]
  dsimp only
  split
  · rfl
  rw [outcome_bind, outcome_bind, outcome_combineNode, outcome_combineNode]
  dsimp only
  rcases combination? s.graph (s.graph.node id) with - | c
  · rfl
  · cases c <;> rfl

theorem Shaped.combined? (h : Shaped (.types W) s.graph) (id : Nat) :
    ∃ r s', outcome (Lower.combined? (target d) id) s = (r, s') ∧
    Shaped (.types W) s'.graph ∧ match r with
      | .ok r => ∀ o, r = some o → Replaces W s'.graph id o
      | .error e => e ≠ .malformed := by
  obtain ⟨r, s', hr, hs', -, hq⟩ := (combined?_finds (d := d) (H := fun _ => True)).run
    (s := { s with formals := none }) rfl ⟨h, fun _ hl => (nomatch hl)⟩ fun _ _ => trivial
  have hsame : outcome (Lower.combined? (target d) id) s =
      (r, { s' with formals := s.formals }) := by
    rw [show s = { ({ s with formals := none } : Session) with formals := s.formals } from rfl,
      outcome_combined?_formals s.formals, hr]
  refine ⟨r, { s' with formals := s.formals }, hsame, hs'.shaped, ?_⟩
  cases r with
  | error e => exact hq
  | ok r => exact hq _ (.refl _)

/-- After legalization types are kept only if all that can be is asked of them. -/
def Typing.late (W : Typing → Prop) : Typing → Prop := fun l => W .full ∧ W l

theorem Shaped.putCombined {o : Option Value} (rest : List Nat)
    (h : Shaped (.types (Typing.late W)) s.graph) (ho : Replaces (Typing.late W) s.graph id o) :
    ∃ worklist s', outcome (Lower.putCombined id o rest) s = (.ok worklist, s') ∧
      Shaped (.types (Typing.late W)) s'.graph := by
  obtain ⟨⟨w, rfl, hw⟩, ht⟩ := ho
  exact ⟨_, _, rfl, h.replaceValue hw fun ⟨_, hl⟩ => ht ⟨hl.1, hl.1⟩⟩

/-! ### Verification -/

theorem outcome_verifyNodes_found {kept ids : List Nat} (h : s.graph.Sound)
    (hids : ∀ id ∈ ids, s.graph.contains id) :
    ∃ r, outcome (ids.forM (Lower.verifyNode (target d) kept)) s = (r, s) ∧
    r ≠ .error .malformed := by
  induction ids with
  | nil => exact ⟨_, rfl, fun h => by cases h⟩
  | cons id ids ih =>
    have hnode : ∃ r, outcome (Lower.verifyNode (target d) kept id) s = (r, s) ∧
        r ≠ .error .malformed := by
      obtain ⟨types, htypes⟩ :=
        Option.isSome_iff_exists.1 (h.nodeTypes?_isSome (hids id List.mem_cons_self))
      rw [Lower.verifyNode, outcome_bind, outcome_node]
      dsimp only
      split
      · exact ⟨_, rfl, fun h => by cases h⟩
      rw [outcome_bind, outcome_nodeTypes, htypes]
      dsimp only [required]
      split
      · exact ⟨_, rfl, fun h => by cases h⟩
      · exact ⟨_, rfl, fun h => by cases h⟩
    obtain ⟨r, hr, hne⟩ := hnode
    rw [List.forM, outcome_bind, hr]
    cases r with
    | error e => exact ⟨_, rfl, hne⟩
    | ok _ => exact ih fun id hid => hids id (List.mem_cons_of_mem _ hid)

/-! ### Every step finds what it looks for -/

/-- Nothing was missing so far, and nothing is missing for the step to come. -/
def Sturdy (W : Typing → Prop) : Point × Session → Prop
  | (.round _ _, s) => Ready (.types W) s
  | (.sweep _ _ rest, s) => Ready (.types W) s ∧ ∀ id ∈ rest, s.graph.contains id
  | (.failed e, s) => Shaped .bare s.graph ∧ e ≠ .malformed
  | (_, s) => Shaped (.types (Typing.late W)) s.graph

theorem Sturdy.shaped {c : Point × Session} (h : Sturdy W c) : Shaped .bare c.2.graph := by
  obtain ⟨p, s⟩ := c
  cases p with
  | round => exact (Ready.shaped h).weaken
  | sweep => exact h.1.shaped.weaken
  | failed => exact h.1
  | cleanup => exact Shaped.weaken h
  | combine => exact Shaped.weaken h
  | verify => exact Shaped.weaken h
  | ended => exact Shaped.weaken h

theorem Sturdy.next {o : Options} (ho : o.libcalls = Libcalls.standard) {c : Point × Session}
    (h : Sturdy W c) : Sturdy W (Lower.next (target d) o c) := by
  obtain ⟨p, s⟩ := c
  cases p with
  | round left kept =>
    cases left with
    | zero => exact ⟨h.shaped.weaken, fun he => by cases he⟩
    | succ left => exact ⟨h, fun id hid => h.shaped.sound.contains_of_mem_nodes hid⟩
  | sweep left done rest =>
    obtain ⟨hs, hrest⟩ := h
    cases rest with
    | nil =>
      rw [Lower.next]
      split
      · exact hs
      · exact hs.shaped.under (fun _ h => h.2) fun hK => False.elim hK
    | cons id rest =>
      rw [Lower.next, ho]
      have hid := hrest id List.mem_cons_self
      obtain ⟨r, s', hr, hs', hkeep, hne⟩ := legalizeNode_survives (d := d)
        (H := (Known (.types W) · id (s.graph.node id))) (fun _ hg => hg) s hs fun g =>
          (hs.shaped.known rfl hid).extends
      rw [hr]
      cases r with
      | error e => exact ⟨hs'.shaped.weaken, hne⟩
      | ok done' => exact ⟨hs', fun a ha => (hkeep a (hrest a (List.mem_cons_of_mem _ ha))).1⟩
  | cleanup kept => exact h.removeDead
  | combine kept budget worklist =>
    cases worklist with
    | nil => exact h.removeDead
    | cons id rest =>
      rw [Lower.next]
      obtain ⟨r, s', hr, hs', hv⟩ := h.combined? (d := d) id
      rw [hr]
      cases r with
      | error e => exact ⟨hs'.weaken, hv⟩
      | ok v =>
        cases v with
        | none => exact hs'
        | some v =>
          cases budget with
          | zero => exact ⟨hs'.weaken, fun he => by cases he⟩
          | succ budget =>
            obtain ⟨worklist, s'', hput, hs''⟩ := hs'.putCombined rest (hv _ rfl)
            simp only [Lower.arrive, hput]
            exact hs''
  | verify kept =>
    obtain ⟨r, hr, hne⟩ := outcome_verifyNodes_found (d := d) h.sound
      fun id hid => h.sound.contains_of_mem_nodes hid
    rw [Lower.next, Lower.verify, outcome_bind, outcome_graph]
    dsimp only
    rw [hr]
    cases r with
    | error e => exact ⟨h.weaken, fun he => hne (he ▸ rfl)⟩
    | ok _ => exact h
  | ended kept => exact h
  | failed e => exact h

theorem Sturdy.start {o : Options} {metrics : Metrics} {log : Array LogRecord}
    (hg : Shaped (.types W) g) : Sturdy W (outset o ((target d).session g metrics log)) :=
  ⟨hg, fun _ hl => (nomatch hl)⟩

theorem Sturdy.course {o : Options} {c : Point × Session} {metrics : Metrics}
    {log : Array LogRecord} (hg : Shaped (.types W) g) (ho : o.libcalls = Libcalls.standard)
    (hc : Course (target d) o (outset o ((target d).session g metrics log)) c) : Sturdy W c :=
  hc.keeps (fun _ h => h.next ho) (.start hg)

theorem make_eq_ok {t : Lower.Target} (h : make d = .ok t) : t = target d := by
  unfold make at h
  split at h
  · cases h
  split at h
  · cases h
  · cases h
    rfl

theorem make_builtIn :
    make Subtarget.Description.builtIn = .ok (target Subtarget.Description.builtIn) := rfl

/-- Whatever a file says, lowering what was read from it misses nothing: at every point the operands
of a node and the root are values of nodes that are there, no rule fails for an operand, result,
type or word that it does not find, and so the lowering succeeds or says what it cannot lower. -/
theorem lowering_misses_nothing {k : FunctionFile.Decoder} {text : String} {gs : List Graph}
    {t : Lower.Target} (hparse : k.parse text = .ok gs) (hg : g ∈ gs) (hmake : make d = .ok t)
    (maxRounds : Int) (metrics : Metrics) (log : Array LogRecord) :
    (∀ p s, Course t { maxRounds } (outset { maxRounds } (t.session g metrics log)) (p, s) →
      p ≠ .failed .malformed ∧ (∃ v, s.graph.root = some v ∧ s.graph.Has v) ∧
      ∀ id, s.graph.contains id → ∀ o ∈ (s.graph.node id).operands, ∃ v, o = some v ∧
      s.graph.Has v) ∧
    (Lower.lowerGraph t { maxRounds } g metrics log).1 ≠ .error .malformed := by
  obtain rfl := make_eq_ok hmake
  have hshaped : Shaped .bare g := .bare_of_written (FunctionFile.parse_written hparse hg)
  have hsturdy : ∀ c, Course (target d) { maxRounds }
      (outset { maxRounds } ((target d).session g metrics log)) c → Sturdy (fun _ => False) c :=
        fun c => .course hshaped rfl
  refine ⟨fun p s hc =>
    ⟨?_, (hsturdy _ hc).shaped.sound.root, (hsturdy _ hc).shaped.sound.operands⟩, ?_⟩
  · rintro rfl
    exact (hsturdy _ hc).2 rfl
  · obtain ⟨kept, s, -, hlower⟩ | ⟨e, s, hc, hlower⟩ :=
      Lower.lower_cases (target d) { maxRounds } ((target d).session g metrics log)
    · rw [Lower.lowerGraph, hlower]
      exact fun h => by cases h
    · rw [Lower.lowerGraph, hlower]
      intro h
      cases h
      exact (hsturdy _ hc).2 rfl

/-- A file with a function that returns along a number in place of a chain, so that its division
joins no chain. -/
def chainlessFile : String := String.join [
  "functions:\n- name: f\n  nodes:\n",
  "  - name: k\n    op: Constant\n    type: i32\n",
  "  - name: q\n    op: sdiv\n    ops: [k, k]\n",
  "  - name: r\n    op: return\n    ops: [q, k]\n"]

theorem lowering_misses_nothing_chainless :
    ∃ g, FunctionFile.parse chainlessFile = .ok [g] ∧ (g.node 3).op = .ret ∧ g.chain 3 = .ends ∧
      (Lower.lowerGraph (target Subtarget.Description.builtIn) {} g).1 ≠ .error .malformed := by
  have h : holdsOfOnly (fun g => (g.node 3).op = .ret ∧ g.chain 3 = .ends)
      (FunctionFile.parse chainlessFile) = true := by
    exact FunctionFile.holdsOfOnly_join (by decide +kernel)
  obtain ⟨g, hparse, hret⟩ := exists_of_holdsOfOnly h
  obtain ⟨hop, hends⟩ := of_decide_eq_true hret
  exact ⟨g, hparse, hop, hends,
    (lowering_misses_nothing hparse (by simp) make_builtIn 0 {} #[]).2⟩

end GraphLowering.Usim
