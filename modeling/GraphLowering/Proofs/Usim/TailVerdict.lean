import GraphLowering.Proofs.Graph.Reachable
import GraphLowering.Proofs.Usim.Additions
import GraphLowering.Proofs.Usim.CallsFound
import GraphLowering.Proofs.Usim.TailArguments

/-!
# The verdict on a tail call and its lowering

Whether a call can take over the frame is asked before its lowering (`mayTailCall`) and once more in
it, after the arguments were cut into words. The words add users to the arguments only (`Worded`).
An argument that is a result of the call itself has the call for a user already, so both verdicts
are the same (`lowerCall_tail_iff`). Only a call that the function ends in may take it over, and
only such a jump changes the root (`ending_lowerNode`).
-/

namespace GraphLowering.Usim

open GraphLowering.Graph (taken)
open Lower (Lowering Session)
open Lower.Lowering
open Subtarget (Description)

variable {α β : Type} {g g₀ : Graph} {id call : Nat} {d : Description} {s s' : Session}
  {o chain callee : Option Value} {ls : List Location} {words : List (List (Option Value))}

/-! ### Words of arguments -/

/-- Use lists are exact, and every operand and the root name nodes that were made, which may be
gone. -/
structure Linked (g : Graph) : Prop where
  exact : g.Exact
  made : ∀ id, ∀ o ∈ (g.node id).operands, g.Made o
  root : g.Made g.root

/-- Nodes were added that take operands of a call and one another; none of them is a jump. -/
structure Worded (g₀ : Graph) (call : Nat) (g : Graph) : Prop where
  extension : g₀.Extends g
  exact : g.Exact
  root : g.root = g₀.root
  frame : g.frame = g₀.frame
  added : ∀ a, g₀.entries.size ≤ a → (g.node a).op ≠ Op.tailCall ∧ ∀ o ∈ (g.node a).operands,
    ∃ v, o = some v ∧ (some v ∈ (g₀.node call).operands ∨ g₀.entries.size ≤ v.node)

namespace Worded

theorem refl (h : Linked g) (call : Nat) : Worded g call g := by
  refine ⟨.refl g, h.exact, rfl, rfl, fun a ha => ?_⟩
  rw [Graph.node_of_le ha]
  exact ⟨by decide, fun o ho => by cases ho⟩

theorem newNode (h : Worded g₀ call g) {op : Opcode} {types : List ValueType}
    {operands : List (Option Value)} {payload : Payload} (hop : op ≠ Op.tailCall)
    (ho : ∀ v ∈ taken operands, v.node < g.entries.size ∧
      (some v ∈ (g₀.node call).operands ∨ g₀.entries.size ≤ v.node)) :
    Worded g₀ call (g.newNode op types operands payload).1 := by
  refine ⟨h.extension.trans (.newNode ..), h.exact.newNode fun v hv =>
    (ho v hv).1, by simp [h.root], by simp [h.frame],
    fun a ha => ?_⟩
  rw [Graph.node_newNode]
  split
  · refine ⟨hop, fun o ho' => ?_⟩
    obtain ⟨v, hv, rfl⟩ := List.mem_map.1 ho'
    exact ⟨v, rfl, (ho v hv).2⟩
  · exact h.added a ha

end Worded

section

variable (h₀ : Linked g₀) (ho : o ∈ (g₀.node call).operands)
include h₀ ho

theorem preserves_extractElement (i : Int64) :
    Preserves (Worded g₀ call) (value (·.extractElement .i32 o i)) := by
  refine .value fun g h => Worded.newNode (h.newNode (by decide) fun _ hv => by cases hv)
    (by decide) fun v hv => ?_
  have hle := h.extension.size
  rw [Graph.size_newNode]
  obtain ⟨o', ho', rfl⟩ := List.mem_filterMap.1 hv
  simp only [List.mem_cons, List.not_mem_nil, or_false] at ho'
  rcases ho' with rfl | ho'
  · have hlt := h₀.made call _ ho v rfl
    exact ⟨by omega, .inl ho⟩
  · cases ho'
    exact ⟨Nat.lt_succ_self _, .inr hle⟩

theorem preserves_wordsOf : Preserves (Worded g₀ call) (wordsOf o) := by
  have hleaf {op : Opcode} {vt : ValueType} {payload : Payload} (hop : op ≠ Op.tailCall) :
      Preserves (Worded g₀ call) (value (·.leaf op vt payload)) :=
    .value fun g h => h.newNode hop fun _ hv => by cases hv
  refine Preserves.bind (.still fun s => by rw [outcome_typeOf]) fun vt =>
    .ite (fun _ => ?_) fun _ => .ite (fun _ => ?_) fun _ => .pure _
  · refine Preserves.bind ?_ fun _ => .pure _
    refine Preserves.bind (.orMalformed o) fun v => Preserves.bind (.still fun _ => rfl) fun n => ?_
    split
    · exact (Preserves.operand _ _).bind fun _ => (Preserves.operand _ _).bind fun _ => .pure _
    · exact (hleaf (by decide)).bind fun _ => (hleaf (by decide)).bind fun _ => .pure _
    · exact (hleaf (by decide)).bind fun _ => (hleaf (by decide)).bind fun _ => .pure _
    · exact (preserves_extractElement h₀ ho 0).bind fun _ => (preserves_extractElement h₀ ho 1).bind
        fun _ => .pure _
  · refine Preserves.bind (.value fun g h => h.newNode (by decide) fun v hv => ?_) fun _ => .pure _
    obtain ⟨o', ho', rfl⟩ := List.mem_filterMap.1 hv
    cases List.mem_singleton.1 ho'
    exact ⟨Nat.lt_of_lt_of_le (h₀.made call _ ho v rfl) h.extension.size, .inl ho⟩

end

/-- The words do not change what the verdict looks at. -/
theorem Worded.sameCall (h : Worded g₀ call g) (h₀ : Linked g₀) (hc : g₀.contains call)
    (hop : (g₀.node call).op = .call) : SameCall (· < g₀.entries.size) call g₀ g := by
  refine ⟨⟨h.extension.node, fun id _ v hv => h₀.made id _ hv v rfl, h.frame⟩,
    Graph.contains_lt hc, h.root, fun v hv => h₀.root v hv, h.extension.signature,
    fun _ _ _ ret o hret ho => ?_⟩
  by_cases hmem : o ∈ (g₀.node call).operands
  · -- the call uses the value itself, and it is no return
    have hne (g : Graph) (hu : call ∈ g.valueUsers o) : g.valueUsers o ≠ [ret] := by
      intro h
      rw [h, List.mem_singleton] at hu
      rw [hu, hret] at hop
      cases hop
    have hlt := Graph.contains_lt hc
    refine iff_of_false (hne g₀ (h₀.exact.mem_valueUsers.2 ⟨hc, hmem⟩))
      (hne g (h.exact.mem_valueUsers.2 ⟨?_, ?_⟩))
    · rw [h.extension.contains call hlt, hc]
    · rwa [h.extension.node call hlt]
  · rw [h.extension.valueUsers h₀.exact h.exact fun a ha hmem' => ?_]
    obtain ⟨v, rfl, hv⟩ := (h.added a ha).2 o hmem'
    have hlt := Graph.contains_lt hc
    have hv' := ho v rfl
    rcases hv with hv | hv
    · exact hmem hv
    · omega

/-! ### Calls that stay calls -/

/-- Nodes were added, none of which is a jump, and neither the root nor the fixed objects were
changed. -/
structure Beyond (g₀ g : Graph) : Prop where
  size : g₀.entries.size ≤ g.entries.size
  node : ∀ id < g₀.entries.size, g.node id = g₀.node id
  root : g.root = g₀.root
  fixed : g.frame.fixed = g₀.frame.fixed
  added : ∀ a, g₀.entries.size ≤ a → (g.node a).op ≠ Op.tailCall

theorem Worded.beyond (h : Worded g₀ call g) : Beyond g₀ g :=
  ⟨h.extension.size, h.extension.node, h.root, by rw [h.frame], fun a ha => (h.added a ha).1⟩

namespace Beyond

theorem refl (g : Graph) : Beyond g g := by
  refine ⟨Nat.le_refl _, fun _ _ => rfl, rfl, rfl, fun a ha => ?_⟩
  rw [Graph.node_of_le ha]
  decide

theorem newNode (h : Beyond g₀ g) {op : Opcode} {types : List ValueType}
    {operands : List (Option Value)} {payload : Payload} (hop : op ≠ Op.tailCall) :
    Beyond g₀ (g.newNode op types operands payload).1 := by
  refine ⟨by rw [Graph.size_newNode]; exact Nat.le_succ_of_le h.size, fun id hid => ?_,
    by simp [h.root], by simp [h.fixed], fun a ha => ?_⟩
  · rw [Graph.node_newNode_of_ne _ _ _ _ _ (Nat.ne_of_lt (Nat.lt_of_lt_of_le hid h.size)),
      h.node id hid]
  · rw [Graph.node_newNode]
    split
    · exact hop
    · exact h.added a ha

end Beyond

theorem Beyond.lasting (g₀ : Graph) : Lasting (Beyond g₀) := fun _ _ _ _ _ hop h => h.newNode hop

theorem preserves_copyFromReg {r : Register} {vt : ValueType} {glue : Option Value} :
    Preserves (Beyond g₀) (build (·.copyFromReg chain r vt glue)) :=
  .build fun _ h => (h.newNode (by decide)).newNode (by decide)

theorem preserves_storeOutgoing : Preserves (Beyond g₀) (storeOutgoing d chain ls words) := by
  have hI := Beyond.lasting g₀
  refine .ite (fun _ => .pure _) fun _ => .bind (.bind preserves_copyFromReg fun _ => .pure _)
    fun sp => .bind (.mapM fun l _ => ?_) fun stores => preserves_tokenFactor hI
  split
  · exact .still fun _ => rfl
  · refine .bind (.orMalformed _) fun word => .bind (.ite (fun _ => .pure _) fun _ => ?_) fun ptr =>
      preserves_single hI (by decide)
    exact .bind (preserves_leaf hI (by decide)) fun _ => preserves_single hI (by decide)

theorem preserves_copyResults {glue : Option Value} :
    Preserves (Beyond g₀) (copyResults chain glue ls) := by
  refine Preserves.bind (.foldlM (fun r l => ?_) _) fun _ => .pure _
  obtain ⟨ws, chain, glue⟩ := r
  dsimp only
  split
  · exact .pure _
  · exact preserves_copyFromReg.bind fun _ => .pure _

theorem preserves_lowerPlainCall {info : CallInfo} {rls : List Location} {bytes : Int64} :
    Preserves (Beyond g₀) (lowerPlainCall d id info callee ls rls bytes words) := by
  have hI := Beyond.lasting g₀
  have hframe {f : Frame → Frame} (hf : ∀ fr, (f fr).fixed = fr.fixed) :
      Preserves (Beyond g₀) (modifyFrame f) := by
    rintro s _ s' h ⟨⟩
    exact ⟨h.size, h.node, h.root, (hf _).trans h.fixed, h.added⟩
  refine .bind (hframe fun _ => rfl) fun _ => .bind (.operand id 0) fun chain => ?_
  refine .bind (.value fun g h => (h.newNode (by decide)).newNode (by decide)) fun start => ?_
  refine .bind preserves_storeOutgoing fun stored => .bind (preserves_copyToRegisters hI) fun c =>
    .bind (preserves_targetCallee hI) fun dest =>
      .bind (preserves_leaf hI (by decide)) fun mask => ?_
  refine .bind (.build fun g h => h.newNode (by decide)) fun call => ?_
  refine .bind (.build fun g h => ((h.newNode (by decide)).newNode (by decide)).newNode (by decide))
    fun last => ?_
  refine .bind preserves_copyResults fun r => .bind (.still fun _ => rfl) fun n =>
    .bind (.mapM fun q _ => ?_) fun _ => .pure _
  obtain ⟨vt, i⟩ := q
  unfold ofWords
  dsimp only
  split
  · exact preserves_single hI (by decide)
  · exact .ite (fun _ => preserves_single hI (by decide)) fun _ => .pure _
  · exact .still fun _ => rfl

/-! ### Calls that become jumps -/

/-- A jump was added, and it is the root. -/
def Jumps (g₀ g : Graph) : Prop :=
  ∃ jump, g₀.entries.size ≤ jump ∧ g.contains jump ∧ (g.node jump).op = Op.tailCall ∧
    g.root = some ⟨jump, 0⟩

theorem Beyond.not_jumps (h : Beyond g₀ g) : ¬ Jumps g₀ g :=
  fun ⟨jump, hle, _, hop, _⟩ => h.added jump hle hop

theorem Jumps.lasting (g₀ : Graph) : Lasting (Jumps g₀) := by
  rintro g op types operands payload - ⟨jump, hle, hc, hop, hroot⟩
  have hx := Graph.Extends.newNode g op types operands payload
  have hlt := Graph.contains_lt hc
  exact ⟨jump, hle, (hx.contains jump hlt).trans
    hc, by rw [hx.node jump hlt, hop], by rw [Graph.root_newNode, hroot]⟩

theorem jumpTo_fresh (h : outcome (jumpTo callee chain ls words) s = (.ok o, s')) :
    ∃ jump, o = some ⟨jump, 0⟩ ∧ s.graph.entries.size ≤ jump ∧ s'.graph.contains jump ∧
      (s'.graph.node jump).op = Op.tailCall := by
  have hI : Lasting (s.graph.entries.size ≤ ·.entries.size) := fun g _ _ _ _ _ h =>
    Nat.le_trans h (Graph.Extends.newNode g _ _ _ _).size
  obtain ⟨stored, s₁, h₁, h⟩ := outcome_bind_ok.1 h
  obtain ⟨c, s₂, h₂, h⟩ := outcome_bind_ok.1 h
  obtain ⟨dest, s₃, h₃, h⟩ := outcome_bind_ok.1 h
  have hsize := preserves_storeOverIncoming hI (fun _ _ h => h) _ _ _ (Nat.le_refl _) h₁
  replace hsize := preserves_targetCallee hI _ _ _ (preserves_copyToRegisters hI _ _ _ hsize h₂) h₃
  cases h
  refine ⟨s₃.graph.entries.size, rfl, hsize, ?_, ?_⟩
  · show (Graph.newNode ..).1.contains _
    simp [Graph.contains_newNode]
  · show ((Graph.newNode ..).1.node _).op = _
    rw [Graph.node_newNode_self]

variable {values : List (Option Value)}

/-- The last value in place of a tail call is the jump, which is the root. -/
theorem jumps_lowerTailCall
    (h : outcome (lowerTailCall id callee ls words) s = (.ok values, s')) :
    Jumps s.graph s'.graph ∧ values.getLast? = some s'.graph.root := by
  rw [lowerTailCall_eq, outcome_bind, outcome_node] at h
  obtain ⟨chain, s₀, h₀, h⟩ := outcome_bind_ok.1 h
  rw [outcome_operand, Prod.mk.injEq] at h₀
  obtain ⟨-, rfl⟩ := h₀
  obtain ⟨o, s₁, h₁, h⟩ := outcome_bind_ok.1 h
  obtain ⟨_, s₂, h₂, h⟩ := outcome_bind_ok.1 h
  obtain ⟨_, s₃, h₃, h⟩ := outcome_bind_ok.1 h
  obtain ⟨results, s₄, h₄, h⟩ := outcome_bind_ok.1 h
  cases h
  obtain ⟨jump, rfl, hle, hc, hop⟩ := jumpTo_fresh h₁
  have hroot : s₃.graph = { s₁.graph with root := some ⟨jump, 0⟩ } := by
    cases h₂
    cases h₃
    rfl
  -- the undefined results come behind the jump
  have hI : Lasting fun g => Jumps s.graph g ∧ g.root = some ⟨jump, 0⟩ :=
    fun g op types operands payload hop h =>
    ⟨Jumps.lasting _ g op types operands payload hop h.1, by rw [Graph.root_newNode, h.2]⟩
  obtain ⟨hjumps, hlast⟩ := Preserves.mapM (fun _ _ => preserves_leaf hI (by decide)) s₃ _ _
    (hroot ▸ ⟨⟨jump, hle, hc, hop, rfl⟩, rfl⟩) h₄
  exact ⟨hjumps, by simp [hlast]⟩

/-! ### The two verdicts -/

theorem alike_passedArguments {info : CallInfo} {args : List (Option Value)} :
    SameRead s s (passedArguments info args) (passedArguments info args) := by
  unfold passedArguments
  generalize args.zipIdx = l
  induction l with
  | nil => exact .pure _
  | cons q l ih =>
    simp only [List.mapM_cons, bind_assoc]
    exact SameRead.bind ⟨_, outcome_typeOf .., outcome_typeOf ..⟩ fun _ _ =>
      (SameRead.pure _).bind fun _ _ => ih.bind fun _ _ => .pure _

/-- The verdict that is asked for is the one on the graph as it is. -/
theorem outcome_mayTailCall {info : CallInfo} {passed : List Passed} {bytes : Int64}
    (hop : (s.graph.node id).op = .call) (hlen : 2 ≤ (s.graph.node id).operands.length)
    (hinfo : (s.graph.node id).callInfo? = some info)
    (hpassed : outcome (passedArguments info ((s.graph.node id).operands.drop 2)) s =
      (.ok passed, s))
    (hls : sequenceArguments d info.callConv info.variadic passed = .ok (ls, bytes)) :
    outcome (mayTailCall d id) s = outcome (do return (← tailObstacle? d id bytes).isNone) s := by
  rw [mayTailCall, outcome_bind, outcome_node]
  dsimp only
  rw [if_neg (by rw [hop]; decide), if_neg (Nat.not_lt.2 hlen), hinfo]
  dsimp only
  rw [outcome_bind, hpassed]
  dsimp only
  rw [hls]

/-- A call that is lowered has its arguments cut into words. Then it becomes a jump if nothing is in
the way of that, and a plain call otherwise. -/
theorem lowerCall_passes (h : outcome (lowerCall d id) s = (.ok values, s')) :
    let info := (s.graph.node id).callInfo?.getD {}
    let args := (s.graph.node id).operands.drop 2
    ∃ callee passed ls bytes rls words s₁, 2 ≤ (s.graph.node id).operands.length ∧
      outcome (passedArguments info args) s = (.ok passed, s) ∧
      sequenceArguments d info.callConv info.variadic passed = .ok (ls, bytes) ∧
      outcome (args.mapM wordsOf) s = (.ok words, s₁) ∧
      (info.tail ∧ outcome (tailObstacle? d id bytes) s₁ = (.ok none, s₁) ∧
          outcome (lowerTailCall id callee ls words) s₁ = (.ok values, s') ∨
        (info.tail → ∃ o, outcome (tailObstacle? d id bytes) s₁ = (.ok (some o), s₁)) ∧
          ∃ s₂ : Session, s₂.graph = s₁.graph ∧
            outcome (lowerPlainCall d id info callee ls rls bytes words) s₂ =
            (.ok values, s')) := by
  unfold lowerCall at h
  rw [outcome_bind, outcome_node] at h
  dsimp only at h
  obtain ⟨chain, s₁, hm, h⟩ := outcome_bind_ok.1 h
  rw [outcome_operand] at hm
  obtain ⟨hchain, rfl⟩ := Prod.mk.inj hm
  obtain ⟨callee, s₁, hm, h⟩ := outcome_bind_ok.1 h
  rw [outcome_operand] at hm
  obtain ⟨hcallee, rfl⟩ := Prod.mk.inj hm
  have hlen : 2 ≤ (s.graph.node id).operands.length :=
    (List.getElem?_eq_some_iff.1 (required_eq_ok.1 hcallee)).1
  split at h
  · cases h
  obtain ⟨passed, s₁, hpassed, h⟩ := outcome_bind_ok.1 h
  obtain rfl := alike_passedArguments.session hpassed
  split at h
  · cases h
  rename_i ls bytes hls
  split at h
  · cases h
  rename_i rls hrls
  obtain ⟨words, s₂, hwords, h⟩ := outcome_bind_ok.1 h
  refine ⟨callee, passed, ls, bytes, rls, words, s₂, hlen, hpassed, hls, hwords, ?_⟩
  split at h
  · rename_i htail
    obtain ⟨r, s₃, hr, h⟩ := outcome_bind_ok.1 h
    obtain rfl := (tailObstacle?_alike (.refl s₂.graph id)).session hr
    cases r with
    | none => exact .inl ⟨htail, hr, h⟩
    | some o =>
      obtain ⟨_, s₄, hdebug, h⟩ := outcome_bind_ok.1 h
      exact .inr ⟨fun _ => ⟨o, hr⟩, s₄, by cases hdebug; rfl, h⟩
  · rename_i htail
    exact .inr ⟨fun ht => absurd ht htail, s₂, rfl, h⟩

/-- If a call is lowered, it becomes a jump that is the root exactly if it may, as was to be asked
before. If not, all nodes that were there, the root and the fixed objects stay as they are. -/
theorem lowerCall_tail_iff {values : List (Option Value)} (hs : Linked s.graph)
    (hid : s.graph.contains id) (hop : (s.graph.node id).op = .call)
    (h : outcome (lowerCall d id) s = (.ok values, s')) :
    ∃ may, outcome (mayTailCall d id) s = (.ok may, s) ∧ (Jumps s.graph s'.graph ↔ may = true) ∧
      (¬ may → Beyond s.graph s'.graph) := by
  obtain ⟨callee, passed, ls, bytes, rls, words, s₁, hlen, hpassed, hls, hwords, hcall⟩ :=
    lowerCall_passes h
  have hworded : Worded s.graph id s₁.graph :=
    Preserves.mapM (fun o ho => preserves_wordsOf hs (List.mem_of_mem_drop ho)) _ _ _
      (.refl hs id) hwords
  -- what is in the way before the words is so after them
  obtain ⟨r, hr, hr₁⟩ : SameRead s s₁ (tailObstacle? d id bytes) (tailObstacle? d id bytes) :=
    tailObstacle?_alike (hworded.sameCall hs hid hop)
  rcases hcall with ⟨htail, hnone, hcall⟩ | ⟨hsome, s₂, hs₂, hcall⟩
  · obtain ⟨jump, hle, hjump⟩ := (jumps_lowerTailCall hcall).1
    refine ⟨true, ?_, iff_of_true ⟨jump, hworded.extension.size.trans hle, hjump⟩ rfl,
      fun hn => absurd rfl hn⟩
    cases hinfo : (s.graph.node id).callInfo? with
    | none =>
      rw [hinfo] at htail
      cases htail
    | some info =>
      rw [hinfo] at hpassed hls
      rw [outcome_mayTailCall hop hlen hinfo hpassed hls, outcome_bind, hr]
      cases hr₁.symm.trans hnone
      rfl
  · have hb : Beyond s.graph s'.graph := preserves_lowerPlainCall _ _ _ (hs₂ ▸ hworded.beyond) hcall
    refine ⟨false, ?_, iff_of_false hb.not_jumps Bool.false_ne_true, fun _ => hb⟩
    cases hinfo : (s.graph.node id).callInfo? with
    | none =>
      rw [mayTailCall, outcome_bind, outcome_node]
      dsimp only
      rw [if_neg (by rw [hop]; decide), if_neg (Nat.not_lt.2 hlen), hinfo]
      rfl
    | some info =>
      rw [hinfo] at hpassed hls hsome
      rw [outcome_mayTailCall hop hlen hinfo hpassed hls, outcome_bind]
      by_cases htail : info.tail
      · obtain ⟨o, ho⟩ := hsome htail
        rw [hr]
        cases hr₁.symm.trans ho
        rfl
      · rw [tailObstacle?, outcome_bind, outcome_graph]
        dsimp only
        rw [hinfo]
        simp [htail]

/-- A function that ends in a call, which is given a byte. -/
def jumpGraph : Graph :=
  let g := Graph.empty {}
  let (g, f) := g.externalSymbol "f" .i32
  let (g, a) := g.constant 7 .i8
  let (g, c) := g.call (some Graph.entry) (some f) [some a] [] { tail := true }
  let (g, r) := g.ret (some ⟨c, 0⟩) []
  { g with root := some r }

theorem linked_jumpGraph : Linked jumpGraph := by
  have hmade : ∀ id < jumpGraph.entries.size, ∀ o ∈ (jumpGraph.node id).operands, ∀ v ∈ o,
      v.node < jumpGraph.entries.size := by decide
  refine ⟨?_, fun id o ho => ?_, fun v hv => ?_⟩
  · have hcallee := (Graph.Exact.empty {}).builds (.leaf .externalSymbol .i32 (.symbol "f" 0))
    have hbyte := hcallee.builds (.leaf .constant .i8 (.integer 7))
    have hcall := hbyte.builds
        (.call (some Graph.entry) (some ⟨1, 0⟩) [some ⟨2, 0⟩] [] { tail := true } (by
      simp only [List.forall_mem_cons, List.not_mem_nil, Graph.Made]
      simp [Graph.leaf, Graph.entry, Graph.empty]))
    have hret := hcall.builds (.single .ret .chain [some ⟨3, 0⟩] (by
      simp only [List.forall_mem_cons, List.not_mem_nil, Graph.Made]
      simp [Graph.call, Graph.leaf, Graph.empty]))
    exact hret.congr rfl rfl
  · by_cases hid : id < jumpGraph.entries.size
    · exact hmade id hid o ho
    · rw [Graph.node_of_le (Nat.le_of_not_lt hid)] at ho
      cases ho
  · cases hv
    decide

/-- The byte gets a second user before the call is lowered, and the call takes over the frame all
the same. -/
theorem lowerCall_tail_iff_byte :
    ∃ s', outcome (lowerCall .builtIn 3) ((target .builtIn).session jumpGraph) =
    (.ok [some ⟨10, 0⟩], s') ∧
      s'.graph.valueUsers (some ⟨2, 0⟩) = [3, 5] ∧ Jumps jumpGraph s'.graph := by
  have hout : outcome (lowerCall .builtIn 3) ((target .builtIn).session jumpGraph) =
    (.ok [some ⟨10, 0⟩],
      (outcome (lowerCall .builtIn 3) ((target .builtIn).session jumpGraph)).2) :=
      Prod.ext (by decide +kernel) rfl
  obtain ⟨may, hmay, hjumps, -⟩ := lowerCall_tail_iff linked_jumpGraph (by decide) (by decide) hout
  refine ⟨_, hout, by decide +kernel, hjumps.2 ?_⟩
  have htrue : (outcome (mayTailCall .builtIn 3) ((target .builtIn).session jumpGraph)).1 =
      .ok true := by
    decide +kernel
  rw [hmay] at htrue
  exact Except.ok.inj htrue

/-! ### The end of the function -/

/-- The return that a call ends in: the function ends with it, and it takes the chain of the call
and its results and nothing else. -/
structure EndsIn (g : Graph) (call ret : Nat) : Prop where
  root : g.root = some ⟨ret, 0⟩
  op : (g.node ret).op = .ret
  chain : (g.node ret).operands[0]? = some (g.outChain call)
  only : ∀ v, some v ∈ (g.node ret).operands → v.node = call

/-- Without an obstacle among them, the results of a call are returned as they are. -/
theorem operand_of_resultObstacle? {call ret : Nat} {results : List Nat}
    (h : outcome (resultObstacle? call ret results) s = (.ok none, s')) {i : Nat}
    (hi : i ∈ results) : (s.graph.node ret).operands[i + 1]? = some (some ⟨call, i⟩) := by
  induction results generalizing s with
  | nil => cases hi
  | cons j results ih =>
    rw [resultObstacle?] at h
    obtain ⟨o, s₁, ho, h⟩ := outcome_bind_ok.1 h
    rw [outcome_operand] at ho
    obtain ⟨hget, rfl⟩ := Prod.mk.inj ho
    split at h
    · cases h
    rename_i hsame
    rw [not_not] at hsame
    rw [outcome_bind, outcome_graph] at h
    dsimp only at h
    split at h
    · cases h
    rcases List.mem_cons.1 hi with rfl | hi
    · rw [required_eq_ok.1 hget, hsame]
    · exact ih h hi

theorem endsIn_of_tailObstacle? {bytes : Int64}
    (h : outcome (tailObstacle? d call bytes) s = (.ok none, s')) :
    ∃ ret, EndsIn s.graph call ret := by
  unfold tailObstacle? at h
  rw [outcome_bind, outcome_graph] at h
  dsimp only at h
  split at h
  · cases h
  iterate 4 (split at h; · cases h)
  split at h
  · cases h
  rename_i root hroot
  split at h
  · cases h
  rename_i hret
  obtain ⟨o, s₁, ho, h⟩ := outcome_bind_ok.1 h
  rw [outcome_operand] at ho
  obtain ⟨hoperand, rfl⟩ := Prod.mk.inj ho
  split at h
  · cases h
  rename_i hchain
  split at h
  · cases h
  split at h
  · cases h
  rename_i hcount
  obtain ⟨r, s₂, hresults, h⟩ := outcome_bind_ok.1 h
  cases r with
  | some o => cases h
  | none => ?_
  obtain ⟨ret, i⟩ := root
  simp only [Bool.or_eq_true, decide_eq_true_eq, not_or, not_not] at hret hchain hcount
  obtain ⟨hop, rfl⟩ := hret
  have h0 : (s.graph.node ret).operands[0]? = some (s.graph.outChain call) :=
    hchain ▸ required_eq_ok.1 hoperand
  refine ⟨ret, hroot, hop, h0, fun v hv => ?_⟩
  obtain ⟨k, hk⟩ := List.mem_iff_getElem?.1 hv
  cases k with
  | zero =>
    rw [h0, Graph.outChain] at hk
    split at hk
    · cases hk
      rfl
    · cases hk
  | succ k =>
    have hlt := (List.getElem?_eq_some_iff.1 hk).1
    rw [operand_of_resultObstacle? hresults (List.mem_range.2 (by omega))] at hk
    cases hk
    rfl

/-- What becomes of the root by a rule for a node: it stays, or the node was a call that ended the
function and is a jump now, which is the root. -/
inductive Ending (g g' : Graph) (id : Nat) (values : List (Option Value)) : Prop where
  | stays (hroot : g'.root = g.root)
  | jump {ret : Nat} {jump : Value} (hop : (g.node id).op = .call) (hret : EndsIn g id ret)
      (hroot : g'.root = some jump) (hlast : values.getLast? = some (some jump))
      (hjump : (g'.node jump.node).op = Op.tailCall)

theorem EndsIn.back {g' : Graph} {ret : Nat} (h : EndsIn g' call ret) (hs : g.Sound)
    (hcall : g.contains call) (hx : g.Extends g') (hu : g'.root = g.root) : EndsIn g call ret := by
  have hroot : g.root = some ⟨ret, 0⟩ := hu ▸ h.root
  have hret : g'.node ret = g.node ret := hx.node ret (hs.has_root hroot).lt
  have hout : g'.outChain call = g.outChain call := by
    rw [Graph.outChain, Graph.outChain, hx.node call (Graph.contains_lt hcall)]
  exact ⟨hroot, hret ▸ h.op, by rw [← hret, ← hout]; exact h.chain, hret ▸ h.only⟩

theorem ending_lowerCall (hs : s.graph.Sound) (hid : s.graph.contains id)
    (hop : (s.graph.node id).op = .call) (h : outcome (lowerCall d id) s = (.ok values, s')) :
    Ending s.graph s'.graph id values := by
  obtain ⟨callee, passed, ls, bytes, rls, words, s₁, -, -, -, hwords, hcall⟩ := lowerCall_passes h
  have hI : Lasting fun g => s.graph.Extends g ∧ g.root = s.graph.root := fun g _ _ _ _ _ h =>
    ⟨h.1.trans (.newNode ..), (Graph.root_newNode ..).trans h.2⟩
  obtain ⟨hx, hroot⟩ := Preserves.mapM (fun _ _ => preserves_words hI) _ _ _ ⟨.refl _, rfl⟩ hwords
  rcases hcall with ⟨-, hnone, hcall⟩ | ⟨-, s₂, hs₂, hcall⟩
  · obtain ⟨ret, hret⟩ := endsIn_of_tailObstacle? hnone
    obtain ⟨⟨jump, -, -, hjump, hroot'⟩, hlast⟩ := jumps_lowerTailCall hcall
    exact .jump hop (hret.back hs hid hx hroot) hroot' (hlast.trans (congrArg some hroot')) hjump
  · have hb : Beyond s₁.graph s'.graph := preserves_lowerPlainCall _ _ _ (hs₂ ▸ .refl _) hcall
    exact .stays (hb.root.trans hroot)

/-- Rules leave the root as it is, unless the function ends in the call that they are for. -/
theorem ending_lowerNode (hs : Ready .bare s) (hid : s.graph.contains id)
    (h : outcome (lowerNode d id) s = (.ok (some values), s')) :
    Ending s.graph s'.graph id values := by
  by_cases hop : (s.graph.node id).op = .call
  · rw [lowerNode, outcome_bind, outcome_node] at h
    simp only [hop] at h
    obtain ⟨values', s₁, h, hpure⟩ := outcome_bind_ok.1 h
    cases hpure
    exact ending_lowerCall hs.shaped.sound hid hop h
  · have hquiet : Ready ⟨fun _ => False, False, True, none⟩ s :=
      ⟨hs.shaped.under nofun nofun, hs.formals⟩
    have hrule := lowerNode_settles (d := d) (H :=
      (Known ⟨fun _ => False, False, True, none⟩ · id (s.graph.node id))) (fun _ h => h)
      (fun h => absurd h hop) nofun
    obtain ⟨r, s₁, hout, -, hgrown, -⟩ :=
      (hrule.finds rfl).run rfl hquiet fun _ => (hquiet.shaped.known rfl hid).extends
    cases h.symm.trans hout
    exact .stays (hgrown.root trivial)

end GraphLowering.Usim
