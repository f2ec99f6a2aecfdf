import GraphLowering.Proofs.Lower.Course
import GraphLowering.Proofs.Usim.Splice

/-!
# The treatment of a node

What legalization does to one node: nothing, if it is unused or legal; otherwise a rule or a library
call gives values that take its place. `Treated` says this of two paired sessions, which are treated
alike (`Paired.legalizeNode`).
-/

namespace GraphLowering.Usim

open Lower (Session Lowering Libcalls Sweep Action)
open Lower.Lowering
open Subtarget (Features Description)

variable {f : Features} {S : Nat → Prop} {g : Graph} {s t s' t' : Session} {id : Nat}
  {d : Description} {l : Libcalls} {done : Sweep}

/-! ### Nodes that only carry pairs -/

/-- A computation that gives values if it gives anything. -/
def Answers {α : Type} (m : Lowering (Option α)) : Prop := ∀ s s', outcome m s ≠ (.ok none, s')

namespace Answers

variable {α β : Type}

theorem bind {m : Lowering β} {k : β → Lowering (Option α)} (h : ∀ b, Answers (k b)) :
    Answers (m >>= k) := by
  intro s s' he
  obtain ⟨b, s₁, -, hb⟩ := outcome_bind_ok.1 he
  exact h b s₁ s' hb

theorem some {a : α} : Answers (Pure.pure (some a)) := fun _ _ => nofun

theorem unsupported {r : Lower.Reason} :
    Answers (Lowering.unsupported id r : Lowering (Option α)) :=
  fun _ _ => nofun

theorem noSplit : Answers (Usim.noSplit id : Lowering (Option α)) := bind fun _ => unsupported

end Answers

theorem split_eq_none (h : outcome (split id) s = (.ok none, s')) :
    carriesPairs (s.graph.node id).op ∨ outcome (touchesWide id) s = (.ok false, s) := by
  rw [split, outcome_bind, outcome_node] at h
  dsimp only at h
  by_cases hc : carriesPairs (s.graph.node id).op
  · exact .inl hc
  have hread : outcome (touchesWide id) s =
      (required ((s.graph.nodeTypes? id).map (·.any (·.isWide))), s) := by
    rw [touchesWide, outcome_bind, outcome_nodeTypes]
    cases s.graph.nodeTypes? id <;> rfl
  rw [if_neg hc, outcome_bind, hread] at h
  cases hw : (s.graph.nodeTypes? id).map (·.any (·.isWide)) with
  | none =>
    rw [hw] at h
    cases h
  | some wide =>
    cases wide with
    | false => exact .inr (by rw [hread, hw]; rfl)
    | true =>
      rw [hw] at h
      refine absurd h ((?_ : Answers _) s s')
      rw [if_neg (by simp)]
      split <;> repeat' first
        | with_reducible exact Answers.some
        | with_reducible exact Answers.noSplit
        | with_reducible refine Answers.bind fun _ => ?_
        | split

theorem lowerWide_eq_none (h : outcome (lowerWide id) s = (.ok none, s')) :
    carriesPairs (s.graph.node id).op := by
  obtain ⟨wide, s₁, hw, h⟩ := outcome_bind_ok.1 h
  obtain ⟨types, s₂, ht, hwide⟩ := outcome_bind_ok.1 hw
  rw [outcome_nodeTypes] at ht
  obtain ⟨-, rfl⟩ := Prod.mk.inj ht
  cases hwide
  split at h <;> rename_i hwide
  · rcases split_eq_none h with hc | hf
    · exact hc
    · rw [hw] at hf
      simp only [Prod.mk.injEq, Except.ok.injEq, and_true] at hf
      rw [hf] at hwide
      cases hwide
  · exact absurd h (Answers.unsupported _ _)

theorem lowerNode_eq_none (h : outcome (lowerNode d id) s = (.ok none, s')) :
    carriesPairs (s.graph.node id).op := by
  rw [lowerNode, outcome_bind, outcome_node] at h
  dsimp only at h
  split at h
  case h_9 | h_10 =>
    obtain ⟨vt, s₁, ht, h⟩ := outcome_bind_ok.1 h
    rw [outcome_resultType] at ht
    obtain ⟨-, rfl⟩ := Prod.mk.inj ht
    split at h
    · exact lowerWide_eq_none h
    · exact absurd h (Answers.bind (fun _ => Answers.some) _ _)
  case h_11 => exact lowerWide_eq_none h
  all_goals exact absurd h (Answers.bind (fun _ => Answers.some) _ _)

/-! ### One session -/

theorem classify_eq_custom {op : Opcode} {types : List ValueType}
    (h : classify f op types = .custom) : carriesPairs op = false := by
  cases op <;> first | rfl | (simp [classify, wordAction?, Opcode.isTarget, carriesPairs] at h)

theorem wordAction?_known {op : Opcode} {action : Action} (h : wordAction? f op = some action) :
    action = .legal ∨ action = .custom ∨ action = .expand := by
  cases op <;> simp only [wordAction?, Option.some.injEq, reduceCtorEq] at h <;>
    first | (subst h; split <;> simp) | (subst h; simp) | (split at h <;> cases h; simp)

/-- A shared operation is legal, has a rule or becomes a library call. -/
theorem classify_known (op : Opcode) (types : List ValueType) :
    classify f op types = .legal ∨ classify f op types = .custom ∨
    classify f op types = .expand := by
  unfold classify
  split
  · exact .inl rfl
  split
  · exact .inr (.inr rfl)
  · rename_i action ha
    split
    · exact wordAction?_known ha
    · split
      · exact .inr (.inr rfl)
      · exact .inr (.inl rfl)
      · exact wordAction?_known ha

/-- What is not legal is rewritten if nothing fails. -/
theorem substitute_answers {types : List ValueType} {r : Option (List (Option Value))}
    (hact : classify d.features (s.graph.node id).op types ≠ .legal)
    (h : outcome (Lower.substitute (target d) l (classify d.features (s.graph.node id).op types) id)
      s = (.ok r, s')) :
    ∃ values, r = some values := by
  rcases classify_known (f := d.features) (s.graph.node id).op types with ha | ha | ha
  · exact absurd ha hact
  · rw [ha] at h
    cases r with
    | some values => exact ⟨values, rfl⟩
    | none =>
      have hpairs := lowerNode_eq_none (d := d) h
      rw [classify_eq_custom ha] at hpairs
      cases hpairs
  · rw [ha] at h
    obtain ⟨values, s₁, -, h⟩ := outcome_bind_ok.1 h
    cases h
    exact ⟨values, rfl⟩

/-- The session in which the classification of a node is counted. -/
def counted (s : Session) (action : Action) : Session :=
  { s with metrics := { s.metrics with
      classified := Lower.increment action.name s.metrics.classified } }

/-- What is done with the values in place of a node. -/
def settle (done : Sweep) (id : Nat) (label : String) :
    Option (List (Option Value)) → Lowering Sweep
  | none => return { done with kept := id :: done.kept }
  | some values => do
    Lower.replace id values
    count fun m => { m with replaced := Lower.increment label m.replaced }
    return { done with changed := true }

theorem outcome_legalizeNode_idle (h : s.graph.hasUses (some id) → IsLegal d.features s.graph id) :
    ∃ m, outcome (Lower.legalizeNode (target d) l done id) s =
    (.ok done, { s with metrics := m }) := by
  rw [Lower.legalizeNode, outcome_bind, outcome_graph]
  dsimp only
  split <;> rename_i hskip
  · exact ⟨s.metrics, rfl⟩
  · simp only [Bool.or_eq_true, Bool.not_eq_true', decide_eq_true_eq, not_or,
      Bool.not_eq_false] at hskip
    obtain ⟨types, ht, hlegal⟩ := h hskip.1.1
    have hact : (target d).classify (s.graph.node id).op types = .legal := hlegal
    rw [outcome_bind, outcome_nodeTypes, ht]
    simp only [required, outcome_bind, hact, if_true]
    exact ⟨_, rfl⟩

theorem outcome_legalizeNode_act {types : List ValueType} (ht : s.graph.nodeTypes? id = some types)
    (hkept : id ∉ done.kept) (hu : s.graph.hasUses (some id))
    (hl : classify d.features (s.graph.node id).op types ≠ .legal) :
    outcome (Lower.legalizeNode (target d) l done id) s =
      outcome (Lower.substitute (target d) l (classify d.features (s.graph.node id).op types) id >>=
        settle done id ((target d).label (s.graph.node id).op))
        (counted s (classify d.features (s.graph.node id).op types)) := by
  have htarget : (s.graph.node id).op.isTarget = false := by
    cases he : (s.graph.node id).op.isTarget with
    | false => rfl
    | true => exact absurd (by simp [classify, he]) hl
  have hact : (target d).classify (s.graph.node id).op types ≠ .legal := hl
  rw [Lower.legalizeNode, outcome_bind, outcome_graph]
  dsimp only
  rw [if_neg (by simp [hu, hkept, htarget]), outcome_bind, outcome_nodeTypes, ht]
  simp only [required]
  rw [outcome_bind, outcome_bind]
  have hcount : outcome (count fun m => { m with
      classified := Lower.increment ((target d).classify (s.graph.node id).op types).name
        m.classified }) s = (.ok (), counted s (classify d.features (s.graph.node id).op types)) :=
        rfl
  rw [hcount]
  dsimp only
  rw [if_neg hact, outcome_bind, show (target d).classify = classify d.features from rfl]
  rcases outcome (Lower.substitute (target d) l _ id) _ with ⟨e | values, s₁⟩
  · rfl
  · cases values <;> rfl

theorem outcome_replace (id : Nat) (values : List (Option Value)) (s : Session) :
    outcome (Lower.replace id values) s = match s.graph.replaceNode id values with
      | .error m => (.error (.replacement s.target s.graph.signature.name m), s)
      | .ok g => (.ok (), { s with graph := g }) := by
  rw [Lower.replace, outcome_bind, outcome_graph]
  dsimp only
  cases s.graph.replaceNode id values <;> rfl

/-! ### Two sessions -/

/-- What legalization does to a node of two sessions. -/
inductive Treated (d : Description) (l : Libcalls) (S : Nat → Prop) (id : Nat)
    (s t s' t' : Session) : Prop where
  | idle (h : s.graph.hasUses (some id) → IsLegal d.features s.graph id)
      (hs : s'.graph = s.graph) (ht : t'.graph = t.graph)
  | ruled {action action' : Action} {s₁ t₁ : Session} {values : List (Option Value)}
      (hu : s.graph.hasUses (some id)) (hl : ¬ IsLegal d.features s.graph id)
      (ho : outcome (lowerNode d id) (counted s action) = (.ok (some values), s₁))
      (h : Ruled d.features S id (counted s action) (counted t action') s₁ t₁ (some values))
      (hs : s₁.graph.replaceNode id values = .ok s'.graph)
      (ht : t₁.graph.replaceNode id values = .ok t'.graph)
  | expanded {action action' : Action} {s₁ t₁ : Session} {values : List (Option Value)}
      (hu : s.graph.hasUses (some id)) (hl : ¬ IsLegal d.features s.graph id)
      (h : Expanded d.features S id (counted s action) (counted t action') s₁ t₁ values)
      (hs : s₁.graph.replaceNode id values = .ok s'.graph)
      (ht : t₁.graph.replaceNode id values = .ok t'.graph)

theorem Paired.hasUses (h : Paired f S s t) (hu : t.graph.hasUses (some id)) :
    s.graph.hasUses (some id) := by
  rw [h.left.disciplined.sound.hasUses_iff]
  rcases h.right.disciplined.sound.hasUses_iff.1 hu with ⟨a, ha⟩ | ⟨v, hv, rfl⟩
  · exact .inl ⟨a, (h.graphs.needs_iff ha.1).1 ha⟩
  · exact .inr ⟨v, h.graphs.root ▸ hv, rfl⟩

theorem Paired.counted (h : Paired f S s t) (a a' : Action) :
    Paired f S (counted s a) (counted t a') :=
  h.of_logs rfl rfl rfl rfl rfl rfl rfl rfl

/-- Values take the place of a node in both sessions, or in neither. -/
theorem Paired.settle {values : List (Option Value)} {label : String} (h : Paired f S s t)
    (hl : ¬ IsLegal f s.graph id) (hf : Fits S s.graph id values) :
    ∃ r s' t', outcome (settle done id label (some values)) s = (r, s') ∧
      outcome (settle done id label (some values)) t = (r, t') ∧ s'.graph.Acyclic ∧
      ∀ done', r = .ok done' → done' = { done with changed := true } ∧ Paired f S s' t' ∧
        s.graph.replaceNode id values = .ok s'.graph ∧
          t.graph.replaceNode id values = .ok t'.graph := by
  have hsettle : ∀ s, outcome (Usim.settle done id label (some values)) s =
      match s.graph.replaceNode id values with
      | .error m => (.error (.replacement s.target s.graph.signature.name m), s)
      | .ok g => (.ok { done with changed := true }, { s with
          graph := g
          metrics := { s.metrics with replaced := Lower.increment label s.metrics.replaced }
          }) := by
    intro s
    rw [Usim.settle, outcome_bind, outcome_replace]
    cases s.graph.replaceNode id values <;> rfl
  rw [hsettle, hsettle]
  rcases h.graphs.replaceNode hf with ⟨e, hs, ht⟩ | ⟨g₁, g₁', hs, ht, hm, hr, hr'⟩
  · rw [hs, ht, h.target, h.graphs.signature]
    exact ⟨_, _, _, rfl, rfl, h.left.disciplined.acyclic, nofun⟩
  · rw [hs, ht]
    refine ⟨_, _, _, rfl, rfl, hm.left.acyclic, fun done' hd => ?_⟩
    cases hd
    have hleft := h.left.rewired hr hl hm.left
    have hright := h.right.rewired hr' ((h.isLegal_iff hf.shared).not.2 hl) hm.right
    exact ⟨rfl, ⟨hm, ⟨hleft.1, hleft.2⟩, ⟨hright.1, hright.2⟩, h.formals, h.target, h.opName⟩, rfl,
      rfl⟩

theorem Paired.legalizeNode (h : Paired d.features S s t) (hg : Shaped .bare s.graph)
    (harith : ∀ op callee, l.callees.lookup op = some callee → isArithmetic op) (hid : S id)
    (hc : s.graph.contains id) (hkept : id ∉ done.kept)
    (hu : ¬ IsLegal d.features s.graph id → SameUsers s.graph t.graph id)
    (huse : s.graph.hasUses (some id) → ¬ IsLegal d.features s.graph id →
      t.graph.hasUses (some id)) :
    ∃ r s' t', outcome (Lower.legalizeNode (Usim.target d) l done id) s = (r, s') ∧
      outcome (Lower.legalizeNode (Usim.target d) l done id) t = (r, t') ∧ s'.graph.Acyclic ∧
      ∀ done', r = .ok done' → done'.kept = done.kept ∧ Paired d.features S s' t' ∧
        Treated d l S id s t s' t' := by
  have hnode := h.graphs.node id hid
  by_cases hidle : s.graph.hasUses (some id) → IsLegal d.features s.graph id
  · obtain ⟨m, hs⟩ := outcome_legalizeNode_idle hidle
    obtain ⟨m', ht⟩ := outcome_legalizeNode_idle fun hu' =>
      (h.isLegal_iff hid).2 (hidle (h.hasUses hu'))
    refine ⟨_, _, _, hs, ht, h.left.disciplined.acyclic, fun done' hd => ?_⟩
    cases hd
    exact ⟨rfl, h.of_logs rfl rfl rfl rfl rfl rfl rfl rfl, .idle hidle rfl rfl⟩
  obtain ⟨hus, hl⟩ := Classical.not_imp.1 hidle
  obtain ⟨types, hts⟩ := Option.isSome_iff_exists.1 (h.left.disciplined.sound.nodeTypes?_isSome hc)
  have htt : t.graph.nodeTypes? id = some types := by
    rw [Graph.nodeTypes?_congr hnode fun v hv => h.graphs.type? (h.graphs.closed id v hid hv), hts]
  have hact : classify d.features (s.graph.node id).op types ≠ .legal :=
    fun he => hl ⟨types, hts, he⟩
  rw [outcome_legalizeNode_act hts hkept hus hact,
    outcome_legalizeNode_act htt hkept (huse hus hl) (hnode ▸ hact), hnode]
  generalize haction : classify d.features (s.graph.node id).op types = action at hact ⊢
  have hp := h.counted action action
  have hl' : ¬ IsLegal d.features (Usim.counted s action).graph id := hl
  rcases classify_known (f := d.features) (s.graph.node id).op types with ha | ha | ha
  · exact absurd (haction.symm.trans ha) hact
  · cases haction.symm.trans ha
    obtain ⟨r, s₁, t₁, hos, hot, hacyc, hr⟩ := hp.lowerNode hg d hid hc hl' (hu hl) .all
    have hsub : Lower.substitute (Usim.target d) l .custom id = Usim.lowerNode d id := rfl
    rw [hsub, outcome_bind, outcome_bind, hos, hot]
    cases r with
    | error e => exact ⟨_, _, _, rfl, rfl, hacyc, nofun⟩
    | ok values =>
      cases values with
      | none =>
        have hcarry := lowerNode_eq_none hos
        rw [show (Usim.counted s .custom).graph = s.graph from rfl, classify_eq_custom ha] at hcarry
        cases hcarry
      | some values =>
        obtain ⟨hruled, -⟩ := hr _ rfl
        have hl₁ : ¬ IsLegal d.features s₁.graph id := fun hl₁ =>
          hl ((isLegal_extends hruled.grows h.left.disciplined.sound hc).1 hl₁)
        obtain ⟨r, s₂, t₂, hos₂, hot₂, hacyc₂, hsettled⟩ :=
          hruled.paired.settle hl₁ (hruled.values values rfl).2.1
        refine ⟨r, s₂, t₂, hos₂, hot₂, hacyc₂, fun done' hd => ?_⟩
        obtain ⟨rfl, hpaired, hgs, hgt⟩ := hsettled done' hd
        exact ⟨rfl, hpaired, .ruled hus hl hos hruled hgs hgt⟩
  · cases haction.symm.trans ha
    obtain ⟨r, s₁, t₁, hos, hot, hacyc, hr⟩ := hp.expand l harith hid hc hl'
    have hsub : Lower.substitute (Usim.target d) l .expand id =
        l.expand id >>= fun values => pure (some values) := rfl
    rw [hsub, bind_assoc, outcome_bind, outcome_bind, hos, hot]
    cases r with
    | error e => exact ⟨_, _, _, rfl, rfl, hacyc, nofun⟩
    | ok values =>
      have hexp := hr _ rfl
      have hl₁ : ¬ IsLegal d.features s₁.graph id := by
        obtain ⟨callee, cc, before, chain, hsp, hg⟩ := hexp.place
        exact (hexp.node.isLegal_splice h.left.disciplined hsp hg).not.2 hl
      obtain ⟨r, s₂, t₂, hos₂, hot₂, hacyc₂, hsettled⟩ :=
        hexp.paired.settle hl₁ hexp.fits
      refine ⟨r, s₂, t₂, hos₂, hot₂, hacyc₂, fun done' hd => ?_⟩
      obtain ⟨rfl, hpaired, hgs, hgt⟩ := hsettled done' hd
      exact ⟨rfl, hpaired, .expanded hus hl hexp hgs hgt⟩

theorem Fits.rewired {g g₁ : Graph} {values : List (Option Value)} (h : Fits S g id values)
    (hd : Disciplined none g) (hg : g.replaceNode id values = .ok g₁) :
    g.Rewired g₁ id fun i => (values[i]?).join := by
  have htrue : Fits (fun _ => True) g id values :=
    ⟨trivial, h.node, fun o ho => (h.each o ho).imp fun _ hv =>
      ⟨hv.1, hv.2.1, hv.2.2.1, trivial, hv.2.2.2.2⟩, h.apart⟩
  rcases (Matched.refl hd).replaceNode htrue with ⟨e, he, -⟩ | ⟨g₂, -, hg₂, -, -, hr, -⟩
  · rw [he] at hg
    cases hg
  · rw [hg₂] at hg
    cases hg
    exact hr

theorem contains_splice? {g g₁ : Graph} {callee : String} {cc : CallConv}
    {args : List (Option Value)} {place : Option Nat × Option Value}
    (h : splice? g callee cc args place = some g₁) {m : Nat} (hm : m < g.entries.size) :
    g₁.contains m = g.contains m := by
  have hx : g.Extends (withLibcall g callee cc place.2 args) := withLibcall_extends
  rw [← hx.contains m hm]
  rcases place with ⟨user | user, chain⟩
  · cases h
    rfl
  · exact Graph.Exact.contains_updateOperand h m

theorem Treated.contains {m : Nat} (h : Treated d l S id s t s' t') (hm : s.graph.contains m) :
    s'.graph.contains m := by
  cases h with
  | idle _ hs => rwa [hs]
  | ruled _ _ _ h hs =>
    have hr := (h.values _ rfl).2.1.rewired h.paired.left.disciplined hs
    rw [hr.contains, h.grows.contains m (Graph.contains_lt hm)]
    exact hm
  | expanded _ _ h hs =>
    obtain ⟨callee, cc, before, chain, -, hg⟩ := h.place
    rw [(h.fits.rewired h.paired.left.disciplined hs).contains]
    exact (contains_splice? hg (Graph.contains_lt hm)).trans hm

end GraphLowering.Usim
