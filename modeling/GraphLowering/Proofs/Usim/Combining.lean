import GraphLowering.Proofs.Lower.Course
import GraphLowering.Proofs.Usim.Splice

/-!
# Combining

What becomes of a select or a branch is a function of the node and of the constants among its
operands (`combination?`). The graphs of two sessions that have the same nodes stay alike while
nodes are combined (`Twin.combined`, `Twin.putCombined`).
-/

namespace GraphLowering.Usim

open GraphLowering.Graph (taken)
open Lower (Session Lowering)
open Lower.Lowering
open Subtarget (Description)

variable {d : Description} {S : Nat → Prop} {g g' : Graph} {s t : Session} {id : Nat} {v : Value}
  {x : Node}

/-! ### What becomes of a node -/

/-- What a node is combined to. -/
inductive Combination where
  | stays
  | takes (o : Option Value)
  | jumps (chain dest : Option Value)

def selectCombination? (g : Graph) (x : Node) : Option Combination := do
  let ifTrue ← x.operands[2]?
  let ifFalse ← x.operands[3]?
  if ifTrue = ifFalse then return .takes ifTrue
  let c := condOfValue g (← x.operands[4]?)
  match knownOutcome? g c (← x.operands[0]?) (← x.operands[1]?) with
  | some true => return .takes ifTrue
  | some false => return .takes ifFalse
  | none => return .stays

def branchCombination? (g : Graph) (x : Node) : Option Combination := do
  let c := condOfValue g (← x.operands[1]?)
  match knownOutcome? g c (← x.operands[2]?) (← x.operands[3]?) with
  | none => return .stays
  | some false => return .takes (← x.operands[0]?)
  | some true => return .jumps (← x.operands[0]?) (← x.operands[4]?)

/-- What becomes of a node, unless it lacks an operand. -/
def combination? (g : Graph) (x : Node) : Option Combination :=
  if x.op = Op.selectCC then selectCombination? g x
  else if x.op = Op.brCC then branchCombination? g x
  else some .stays

/-- What a combination does to a session. -/
def Combination.apply (s : Session) :
    Combination → Except Lower.Failure (Option (Option Value)) × Session
  | .stays => (.ok none, s)
  | .takes o => (.ok (some o), s)
  | .jumps chain dest => (.ok (some (some ⟨s.graph.entries.size, 0⟩)),
      { s with graph := (s.graph.single .br .chain [chain, dest]).1 })

/-- A combination, or the failure for an operand that is missing. -/
def combineOutcome (s : Session) :
    Option Combination → Except Lower.Failure (Option (Option Value)) × Session
  | none => (.error .malformed, s)
  | some c => c.apply s

theorem outcome_operand_bind {i : Nat} {k : Option Value → Lowering (Option (Option Value))}
    {k' : Option Value → Option Combination} (h : ∀ o, outcome (k o) s = combineOutcome s (k' o)) :
    outcome (operand id i >>= k) s = combineOutcome s ((s.graph.node id).operands[i]? >>= k') := by
  rw [outcome_bind, outcome_operand]
  cases (s.graph.node id).operands[i]? with
  | none => rfl
  | some o => exact h o

theorem outcome_combineSelect (id : Nat) (s : Session) : outcome (combineSelect id) s =
    combineOutcome s (selectCombination? s.graph (s.graph.node id)) := by
  refine outcome_operand_bind fun ifTrue => outcome_operand_bind fun ifFalse => ?_
  split
  · rfl
  rw [outcome_bind, outcome_graph]
  refine outcome_operand_bind fun c => outcome_operand_bind fun lhs =>
    outcome_operand_bind fun rhs => ?_
  generalize knownOutcome? s.graph (condOfValue s.graph c) lhs rhs = known
  rcases known with _ | known
  · rfl
  · cases known <;> rfl

theorem outcome_combineBranch (id : Nat) (s : Session) : outcome (combineBranch id) s =
    combineOutcome s (branchCombination? s.graph (s.graph.node id)) := by
  unfold combineBranch
  rw [outcome_bind, outcome_graph]
  refine outcome_operand_bind fun c => outcome_operand_bind fun lhs =>
    outcome_operand_bind fun rhs => ?_
  generalize knownOutcome? s.graph (condOfValue s.graph c) lhs rhs = known
  rcases known with _ | known
  · rfl
  cases known with
  | false => exact outcome_operand_bind fun _ => rfl
  | true => exact outcome_operand_bind fun _ => outcome_operand_bind fun _ => rfl

theorem outcome_combineNode (id : Nat) (s : Session) : outcome (combineNode id) s =
    combineOutcome s (combination? s.graph (s.graph.node id)) := by
  unfold combineNode combination?
  rw [outcome_bind, outcome_node]
  dsimp only
  split
  · exact outcome_combineSelect id s
  split
  · exact outcome_combineBranch id s
  · rfl

theorem knownOutcome?_congr {c : Cond} {lhs rhs : Option Value}
    (hl : g'.constant? lhs = g.constant? lhs) (hr : g'.constant? rhs = g.constant? rhs) :
    knownOutcome? g' c lhs rhs = knownOutcome? g c lhs rhs := by
  unfold knownOutcome?
  rw [hl, hr]

/-- What becomes of a node depends on the constants among its operands only. -/
theorem combination?_congr (h : ∀ o ∈ x.operands, g'.constant? o = g.constant? o) :
    combination? g' x = combination? g x := by
  have hget : ∀ {i : Nat} {o : Option Value}, x.operands[i]? = some o →
    g'.constant? o = g.constant? o := fun hi => h _ (List.mem_of_getElem? hi)
  unfold combination?
  split
  · unfold selectCombination?
    refine Option.bind_congr fun ifTrue _ => Option.bind_congr fun ifFalse _ => ?_
    refine ite_congr rfl (fun _ => rfl) fun _ => ?_
    refine Option.bind_congr fun c hc => Option.bind_congr fun lhs hl => Option.bind_congr
      fun rhs hr => ?_
    rw [condOfValue, condOfValue, hget hc, knownOutcome?_congr (hget hl) (hget hr)]
  split
  · unfold branchCombination?
    refine Option.bind_congr fun c hc => Option.bind_congr fun lhs hl => Option.bind_congr
      fun rhs hr => ?_
    rw [condOfValue, condOfValue, hget hc, knownOutcome?_congr (hget hl) (hget hr)]
  · rfl

/-- The ways in which a node is combined: a select becomes one of its operands, and a branch becomes
the chain that it takes or a jump at its place. -/
inductive Combines (x : Node) : Combination → Prop where
  | stays : Combines x .stays
  | arm {o : Option Value} (hop : x.op = Op.selectCC) (ho : o ∈ x.operands) : Combines x (.takes o)
  | falls {o : Option Value} (hop : x.op = Op.brCC) (ho : x.operands[0]? = some o) :
      Combines x (.takes o)
  | jumps {chain dest : Option Value} (hop : x.op = Op.brCC) (hc : x.operands[0]? = some chain)
      (hd : x.operands[4]? = some dest) : Combines x (.jumps chain dest)

theorem selectCombination?_spec {c : Combination} (hop : x.op = Op.selectCC)
    (h : selectCombination? g x = some c) : Combines x c := by
  simp only [selectCombination?, Option.bind_eq_bind, Option.bind_eq_some_iff] at h
  obtain ⟨ifTrue, h₂, ifFalse, h₃, h⟩ := h
  split at h
  · cases h
    exact .arm hop (List.mem_of_getElem? h₂)
  simp only [Option.bind_eq_some_iff] at h
  obtain ⟨_, -, lhs, -, rhs, -, h⟩ := h
  split at h <;> cases h
  · exact .arm hop (List.mem_of_getElem? h₂)
  · exact .arm hop (List.mem_of_getElem? h₃)
  · exact .stays

theorem branchCombination?_spec {c : Combination} (hop : x.op = Op.brCC)
    (h : branchCombination? g x = some c) : Combines x c := by
  simp only [branchCombination?, Option.bind_eq_bind, Option.bind_eq_some_iff] at h
  obtain ⟨_, -, lhs, -, rhs, -, h⟩ := h
  split at h
  · cases h
    exact .stays
  · simp only [Option.bind_eq_some_iff] at h
    obtain ⟨o, ho, h⟩ := h
    cases h
    exact .falls hop ho
  · simp only [Option.bind_eq_some_iff] at h
    obtain ⟨chain, hc, dest, hd, h⟩ := h
    cases h
    exact .jumps hop hc hd

theorem combination?_spec {c : Combination} (h : combination? g x = some c) : Combines x c := by
  unfold combination? at h
  split at h
  · exact selectCombination?_spec ‹_› h
  split at h
  · exact branchCombination?_spec ‹_› h
  · cases h
    exact .stays

theorem Replaceable.of_choice (hop : isChoice (g.node id).op) : Replaceable g id := by
  have hne : ∀ op, isChoice op = false → (g.node id).op ≠ op := fun op ho he => by
    rw [he, ho] at hop
    cases hop
  refine ⟨?_, ?_, fun hs => hne _ rfl hs.1, fun hm => ?_, fun hc => hne _ rfl hc.1⟩
  · generalize (g.node id).op = op at hop
    unfold isChoice at hop
    split at hop <;> first | rfl | cases hop
  · generalize (g.node id).op = op at hop
    unfold isChoice at hop
    split at hop <;> first | rfl | cases hop
  · rcases hm.2 with h | h
    · exact hne _ rfl h
    · exact hne _ rfl h

theorem takesPlain_of_isChoice {op : Opcode} (hop : isChoice op) : takesPlain op := by
  unfold isChoice at hop
  split at hop <;> first | rfl | cases hop

theorem Disciplined.operand_of_choice {p : Option Nat} (h : Disciplined p g) (hc : g.contains id)
    (hop : isChoice (g.node id).op) (hv : some v ∈ (g.node id).operands) :
    g.Has v ∧ Plain g v ∧ ¬ g.Reaches v.node id := by
  obtain ⟨i, hi⟩ := List.mem_iff_getElem?.1 hv
  exact ⟨h.sound.has_operand hc hv, (h.takes id hc i v hi).of_takesPlain
    (takesPlain_of_isChoice hop), h.acyclic.not_reaches (Graph.needs_iff.2 ⟨hc, v.result, hv⟩)⟩

theorem outcome_combined? (ha : s.graph.Acyclic) :
    outcome (Lower.combined? (target d) id) s =
      if s.graph.contains id ∧ s.graph.hasUses (some id) then
        combineOutcome s (combination? s.graph (s.graph.node id))
      else (.ok none, s) := by
  have hcombine : (target d).combine id = combineNode id := rfl
  rw [Lower.combined?, outcome_bind, outcome_graph]
  dsimp only
  by_cases hc : s.graph.contains id ∧ s.graph.hasUses (some id)
  swap
  · rw [if_neg hc, if_pos (by simpa [Classical.or_iff_not_imp_left] using hc)]
    rfl
  rw [if_pos hc, if_neg (by simp [hc.1, hc.2]), outcome_bind, hcombine, outcome_combineNode]
  cases hx : combination? s.graph (s.graph.node id) with
  | none => rfl
  | some c =>
    -- a node is not its own operand, nor is it the jump that takes its place
    have hne : ∀ o ∈ (s.graph.node id).operands, o ≠ some ⟨id, 0⟩ := by
      rintro o ho rfl
      exact ha.not_reaches (Graph.needs_iff.2 ⟨hc.1, 0, ho⟩) .refl
    cases combination?_spec hx with
    | stays => rfl
    | arm _ ho => simp [combineOutcome, Combination.apply, hne _ ho]
    | falls _ ho => simp [combineOutcome, Combination.apply, hne _ (List.mem_of_getElem? ho)]
    | jumps =>
      have hsize : s.graph.entries.size ≠ id := (Nat.ne_of_lt (Graph.contains_lt hc.1)).symm
      simp [combineOutcome, Combination.apply, hsize]

theorem outcome_putCombined (id : Nat) (v : Value) (rest : List Nat) (s : Session) :
    outcome (Lower.putCombined id (some v) rest) s =
      (.ok (Graph.enqueue rest (Lower.targetNodes (s.graph.replaceResults id 0 [some v])
          (v.node :: s.graph.valueUsers (some ⟨id, 0⟩)))),
        { s with
          graph := s.graph.replaceResults id 0 [some v]
          metrics := { s.metrics with combines := s.metrics.combines + 1 } }) := rfl

/-! ### Two sessions with the same nodes -/

/-- Sessions whose graphs have the same nodes. -/
structure Twin (S : Nat → Prop) (s t : Session) : Prop where
  graphs : Matched S s.graph t.graph
  all : ∀ id, s.graph.contains id → S id
  target : t.target = s.target
  opName : t.opName = s.opName

namespace Twin

theorem refl (h : Disciplined none s.graph) : Twin (fun _ => True) s s :=
  ⟨.refl h, fun _ _ => trivial, rfl, rfl⟩

variable (h : Twin S s t)
include h

theorem contains (id : Nat) : t.graph.contains id = s.graph.contains id := by
  by_cases hid : S id
  · exact h.graphs.contains id hid
  · rw [Bool.eq_iff_iff]
    exact ⟨fun hc => absurd (h.graphs.only id hc) hid, fun hc => absurd (h.all id hc) hid⟩

theorem mem_operands {a : Nat} : (t.graph.contains a ∧ some v ∈ (t.graph.node a).operands) ↔
    (s.graph.contains a ∧ some v ∈ (s.graph.node a).operands) := by
  rw [h.contains]
  exact and_congr_right fun hc => by rw [h.graphs.node a (h.all a hc)]

theorem hasUses (id : Nat) : t.graph.hasUses (some id) = s.graph.hasUses (some id) := by
  rw [Bool.eq_iff_iff, h.graphs.left.sound.hasUses_iff,
    h.graphs.right.sound.hasUses_iff, h.graphs.root]
  simp only [Graph.needs_iff, ← exists_and_left, h.mem_operands]

theorem valueUsers (v : Value) : t.graph.valueUsers (some v) = s.graph.valueUsers (some v) :=
  Graph.valueUsers_congr h.graphs.right.sound.exact h.graphs.left.sound.exact
    fun _ => h.mem_operands

theorem nodes : t.graph.nodes = s.graph.nodes := by
  rw [h.graphs.left.sound.nodes_part h.graphs.right.sound (fun _ hc => h.graphs.contains_left hc)
    fun _ _ ha => h.graphs.needs_iff ha]
  refine List.filter_eq_self.2 fun id hid => ?_
  rw [h.contains]
  exact h.graphs.left.sound.contains_of_mem_nodes hid

theorem targetNodes {ids : List Nat} (hids : ∀ id ∈ ids, S id) :
    Lower.targetNodes t.graph ids = Lower.targetNodes s.graph ids :=
  List.filter_congr fun id hid => by rw [h.graphs.node id (hids id hid)]

theorem constant? (hv : S v.node) : t.graph.constant? (some v) = s.graph.constant? (some v) := by
  show (t.graph.node v.node).constant? = (s.graph.node v.node).constant?
  rw [h.graphs.node _ hv]

theorem combination? (hid : s.graph.contains id) :
    Usim.combination? t.graph (t.graph.node id) = Usim.combination? s.graph (s.graph.node id) := by
  rw [h.graphs.node id (h.all id hid)]
  refine combination?_congr fun o ho => ?_
  obtain ⟨v, rfl, -⟩ := h.graphs.left.sound.operands id hid o ho
  exact h.constant? (h.graphs.closed id v (h.all id hid) ho)

/-- A value that does not depend on a choice fits in its place. -/
theorem fits (hc : S id) (hop : isChoice (s.graph.node id).op) (hv : s.graph.Has v)
    (hp : Plain s.graph v) (hr : ¬ s.graph.Reaches v.node id) : Fits S s.graph id [some v] := by
  refine ⟨hc, .of_choice hop, fun o ho => ⟨v, ?_, hv, hp, h.all _ hv.1, ?_⟩, .inl fun w hw => ?_⟩
  · simpa using ho
  · rintro rfl
    exact hr .refl
  · rw [List.mem_singleton] at hw
    cases hw
    exact hr

theorem jump {chain dest : Option Value} (hc : s.graph.contains id)
    (hop : isChoice (s.graph.node id).op) (hchain : chain ∈ (s.graph.node id).operands)
    (hdest : dest ∈ (s.graph.node id).operands) :
    Twin S { s with graph := (s.graph.single .br .chain [chain, dest]).1 }
        { t with graph := (t.graph.single .br .chain [chain, dest]).1 } ∧
      Plain (s.graph.single .br .chain [chain, dest]).1 ⟨s.graph.entries.size, 0⟩ ∧
      ¬ (s.graph.single .br .chain [chain, dest]).1.Reaches s.graph.entries.size id := by
  have hd := h.graphs.left
  have hmem : ∀ v ∈ taken [chain, dest], some v ∈ (s.graph.node id).operands := by
    intro v hv
    obtain ⟨o, ho, rfl⟩ := List.mem_filterMap.1 hv
    simp only [List.mem_cons, List.not_mem_nil, or_false] at ho
    rcases ho with rfl | rfl
    · exact hchain
    · exact hdest
  have hjoins : Sober s.graph .br [.chain] [chain, dest] .none := by
    refine .ordinary rfl nofun (by decide) fun v hv => ?_
    obtain ⟨hhas, hplain, -⟩ := hd.operand_of_choice hc hop (hmem v hv)
    exact ⟨hhas, hplain⟩
  have hm := h.graphs.newNode hjoins fun v hv =>
    h.all _ (hd.sound.has_operand hc (hmem v hv)).1
  have hnode := Graph.node_newNode_of_ne s.graph .br [.chain] [chain, dest] .none
    (Nat.ne_of_lt (Graph.contains_lt hc))
  have hself := Graph.node_newNode_self s.graph .br [.chain] [chain, dest] .none
  refine ⟨⟨hm, fun a ha => ?_, h.target, h.opName⟩, ⟨?_, ?_, ?_⟩, fun hr => ?_⟩
  · by_cases hnew : a = s.graph.entries.size
    · exact h.graphs.fresh a (Nat.le_of_eq hnew.symm)
    · exact h.all a (by simpa [Graph.single, Graph.contains_newNode, hnew] using ha)
  · rw [Graph.type?_eq]
    refine ne_of_eq_of_ne (congrArg (fun n : Node => n.types[0]?) hself) ?_
    exact nofun
  · exact fun hcopy => nomatch (congrArg Node.op hself).symm.trans hcopy
  · exact fun hslot => nomatch (congrArg Node.op hself).symm.trans hslot.1
  · -- a cycle would have to go through an operand of the branch
    rcases hr.cases_head with he | ⟨b, hn, hr⟩
    · exact absurd he (Nat.ne_of_lt (Graph.contains_lt hc)).symm
    · obtain ⟨i, hi⟩ := Graph.needs_newNode_self.1 hn
      refine hm.left.acyclic.not_reaches (Graph.needs_iff.2 ⟨?_, i, ?_⟩) hr
      · simp [Graph.contains_newNode, hc]
      · rw [hnode]
        exact hmem _ hi

/-- A node is combined in both sessions, or in neither. -/
theorem combined (d : Description) (id : Nat) :
    ∃ r s' t', outcome (Lower.combined? (Usim.target d) id) s = (r, s') ∧
      outcome (Lower.combined? (Usim.target d) id) t = (r, t') ∧ Twin S s' t' ∧
      ∀ o, r = .ok (some o) → ∃ v, o = some v ∧ ¬ s'.graph.Reaches v.node id ∧
        Fits S s'.graph id [some v] := by
  rw [outcome_combined? h.graphs.left.acyclic, outcome_combined? h.graphs.right.acyclic,
    h.contains, h.hasUses]
  by_cases hc : s.graph.contains id ∧ s.graph.hasUses (some id)
  swap
  · rw [if_neg hc, if_neg hc]
    exact ⟨_, _, _, rfl, rfl, h, nofun⟩
  rw [if_pos hc, if_pos hc, h.combination? hc.1]
  have hoperand : ∀ o ∈ (s.graph.node id).operands, isChoice (s.graph.node id).op →
      ∃ v, o = some v ∧ ¬ s.graph.Reaches v.node id ∧ Fits S s.graph id [some v] := by
    intro o ho hop
    obtain ⟨v, rfl, hv⟩ := h.graphs.left.sound.operands id hc.1 o ho
    obtain ⟨-, hp, hr⟩ := h.graphs.left.operand_of_choice hc.1 hop ho
    exact ⟨v, rfl, hr, h.fits (h.all id hc.1) hop hv hp hr⟩
  cases hx : Usim.combination? s.graph (s.graph.node id) with
  | none => exact ⟨_, _, _, rfl, rfl, h, nofun⟩
  | some c =>
    cases combination?_spec hx with
    | stays => exact ⟨_, _, _, rfl, rfl, h, nofun⟩
    | arm hop ho =>
      refine ⟨_, _, _, rfl, rfl, h, fun o' ho' => ?_⟩
      cases ho'
      exact hoperand _ ho (hop ▸ rfl)
    | falls hop ho =>
      refine ⟨_, _, _, rfl, rfl, h, fun o' ho' => ?_⟩
      cases ho'
      exact hoperand _ (List.mem_of_getElem? ho) (hop ▸ rfl)
    | @jumps chain dest hop hchain hdest =>
      obtain ⟨htwin, hplain, hr⟩ := h.jump hc.1 (hop ▸ rfl) (List.mem_of_getElem? hchain)
        (List.mem_of_getElem? hdest)
      have ht : combineOutcome t (some (.jumps chain dest)) = Combination.apply t
        (.jumps chain dest) := rfl
      rw [Combination.apply, h.graphs.size] at ht
      refine ⟨_, _, _, rfl, ht, htwin, fun o' ho' => ?_⟩
      cases ho'
      refine ⟨_, rfl, hr, htwin.fits (h.all id hc.1) ?_ ⟨?_, ?_⟩ hplain hr⟩
      · have hnode := Graph.node_newNode_of_ne s.graph .br [.chain] [chain, dest] .none
          (Nat.ne_of_lt (Graph.contains_lt hc.1))
        exact (congrArg (fun n : Node => isChoice n.op) hnode).trans (hop ▸ rfl)
      · simp [Graph.single, Graph.contains_newNode]
      · rw [Graph.type?_eq]
        exact congrArg (fun n : Node => n.types[0]?.isSome) (Graph.node_newNode_self ..)

theorem putCombined (hf : Fits S s.graph id [some v]) (rest : List Nat) :
    ∃ w s' t', outcome (Lower.putCombined id (some v) rest) s = (.ok w, s') ∧
      outcome (Lower.putCombined id (some v) rest) t = (.ok w, t') ∧ Twin S s' t' ∧
      s.graph.Rewired s'.graph id (fun i => ([some v][i]?).join) ∧
      w = Graph.enqueue rest
        (Lower.targetNodes s'.graph (v.node :: s.graph.valueUsers (some ⟨id, 0⟩))) := by
  obtain ⟨hhas, -, hS, -⟩ := hf.value (v := v) (by simp)
  obtain ⟨hm, hr, hr'⟩ := h.graphs.replaceResults hf
  have hops : Lower.targetNodes (t.graph.replaceResults id 0 [some v])
      (v.node :: s.graph.valueUsers (some ⟨id, 0⟩)) =
      Lower.targetNodes (s.graph.replaceResults id 0 [some v])
        (v.node :: s.graph.valueUsers (some ⟨id, 0⟩)) := by
    refine List.filter_congr fun a ha => ?_
    rw [hm.node]
    rcases List.mem_cons.1 ha with rfl | ha
    · exact hS
    · exact h.all a (h.graphs.left.sound.exact.mem_valueUsers.1 ha).1
  have ht := outcome_putCombined id v rest t
  rw [h.valueUsers, hops] at ht
  exact ⟨_, _, _, outcome_putCombined id v rest s, ht,
    ⟨hm, fun a ha => h.all a (hr.contains a ▸ ha), h.target, h.opName⟩, hr, rfl⟩

end Twin

end GraphLowering.Usim
