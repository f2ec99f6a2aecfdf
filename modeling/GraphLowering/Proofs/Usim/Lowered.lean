import GraphLowering.Proofs.Usim.LoweringFound
import GraphLowering.Proofs.Usim.Settling

/-!
# Lowered functions

What holds at each point of a lowering (`Stands`): until the nodes are verified the graph is
disciplined, and then it is lowered (`Lowered`): it has its live nodes only, all of which the
machine has, and there is nothing left to combine.
-/

namespace GraphLowering.Usim

open Lower (Session Lowering Options Point Course Libcalls Metrics outset)
open Lower.Lowering
open FunctionFile (holdsOfOnly exists_of_holdsOfOnly)
open Subtarget (Description)

variable {d : Description} {g : Graph} {s s' : Session} {id : Nat} {o : Options}
  {c c' : Point × Session}

structure Lowered (d : Description) (g : Graph) : Prop where
  disciplined : Disciplined none g
  live : ∀ id, g.contains id → g.Live id
  passes : ∀ id, g.contains id → Passes d.features g id
  settled : Settled g []

/-- What holds at a point of a lowering. -/
def Stands (d : Description) : Point × Session → Prop
  | (.round _ kept, s) => kept = [] ∧ Steady d.features none s
  | (.sweep _ done rest, s) => done.kept = [] ∧ Steady d.features none s ∧
    ∀ id ∈ rest, s.graph.contains id
  | (.cleanup kept, s) => kept = [] ∧ Disciplined none s.graph
  | (.combine kept _ worklist, s) => kept = [] ∧ Disciplined none s.graph ∧ Settled s.graph worklist
  | (.verify kept, s) => kept = [] ∧ Disciplined none s.graph ∧ Settled s.graph [] ∧
      ∀ id, s.graph.contains id → s.graph.Live id
  | (.ended _, s) => Lowered d s.graph
  | (.failed _, s) => s.graph.Acyclic

theorem Stands.acyclic (h : Stands d c) : c.2.graph.Acyclic := by
  obtain ⟨p, s⟩ := c
  cases p with
  | round => exact h.2.disciplined.acyclic
  | sweep => exact h.2.1.disciplined.acyclic
  | cleanup => exact h.2.acyclic
  | combine => exact h.2.1.acyclic
  | verify => exact h.2.1.acyclic
  | ended => exact h.disciplined.acyclic
  | failed => exact h

theorem isArithmetic_of_standard {op : Opcode} {callee : String}
    (h : Libcalls.standard.callees.lookup op = some callee) : isArithmetic op := by
  cases op <;> first | rfl | cases h

theorem combined?_spec {o : Option Value} (hd : Disciplined none s.graph)
    (h : outcome (Lower.combined? (target d) id) s = (.ok (some o), s')) :
    s.graph.contains id ∧ ∃ c, Combines (s.graph.node id) c ∧ c.apply s = (.ok (some o), s') := by
  rw [outcome_combined? hd.acyclic] at h
  split at h
  swap
  · cases h
  rename_i hc
  cases hx : combination? s.graph (s.graph.node id) with
  | none =>
    rw [hx] at h
    cases h
  | some c =>
    rw [hx] at h
    exact ⟨hc.1, c, combination?_spec hx, h⟩

theorem combined?_cases {o : Option Value} (hd : Disciplined none s.graph)
    (h : outcome (Lower.combined? (target d) id) s = (.ok (some o), s')) :
    s.graph.contains id ∧ isChoice (s.graph.node id).op ∧
      (o ∈ (s.graph.node id).operands ∧ s' = s ∨
        ∃ chain ∈ (s.graph.node id).operands, ∃ dest ∈ (s.graph.node id).operands,
          o = some ⟨s.graph.entries.size, 0⟩ ∧
            s' = { s with graph := (s.graph.single .br .chain [chain, dest]).1 }) := by
  obtain ⟨hc, c, hx, h⟩ := combined?_spec hd h
  cases hx with
  | stays => cases h
  | arm hop ho =>
    cases h
    exact ⟨hc, hop ▸ rfl, .inl ⟨ho, rfl⟩⟩
  | falls hop ho =>
    cases h
    exact ⟨hc, hop ▸ rfl, .inl ⟨List.mem_of_getElem? ho, rfl⟩⟩
  | jumps hop hchain hdest =>
    cases h
    exact ⟨hc, hop ▸ rfl,
      .inr ⟨_, List.mem_of_getElem? hchain, _, List.mem_of_getElem? hdest, rfl, rfl⟩⟩

theorem combined?_none (hd : Disciplined none s.graph)
    (h : outcome (Lower.combined? (target d) id) s = (.ok none, s')) :
    s' = s ∧ (s.graph.contains id → s.graph.hasUses (some id) →
      combination? s.graph (s.graph.node id) = some .stays) := by
  rw [outcome_combined? hd.acyclic] at h
  split at h <;> rename_i hc
  · cases hx : combination? s.graph (s.graph.node id) with
    | none =>
      rw [hx] at h
      cases h
    | some c =>
      rw [hx] at h
      cases combination?_spec hx <;> cases h
      exact ⟨rfl, fun _ _ => rfl⟩
  · cases h
    exact ⟨rfl, fun h₁ h₂ => absurd ⟨h₁, h₂⟩ hc⟩

/-! ### Steps -/

theorem Steady.legalizeNode {done : Lower.Sweep} (h : Steady d.features none s)
    (hg : Shaped .bare s.graph) (hc : s.graph.contains id) (hkept : done.kept = []) :
    ∃ r s', outcome (Lower.legalizeNode (target d) Libcalls.standard done id) s = (r, s') ∧
      s'.graph.Acyclic ∧ ∀ done', r = .ok done' → done'.kept = [] ∧ Steady d.features none s' ∧
        ∃ t', Treated d Libcalls.standard (fun _ => True) id s s s' t' := by
  have hp := Paired.refl h
  have hid : id ∉ done.kept := by simp [hkept]
  obtain ⟨r, s', t', hs, -, ha, hr⟩ := hp.legalizeNode (l := Libcalls.standard) hg
    (fun _ _ => isArithmetic_of_standard) trivial hc hid (fun _ _ _ _ _ _ => rfl) fun hu _ => hu
  refine ⟨r, s', hs, ha, fun done' hd => ?_⟩
  obtain ⟨hk, hp', ht⟩ := hr done' hd
  exact ⟨hk.trans hkept, hp'.left, t', ht⟩

/-- What is combined is a choice, and a value that does not depend on it takes its place. -/
theorem putCombined_supplants {o : Option Value} (rest : List Nat) (hd : Disciplined none s.graph)
    (hs : outcome (Lower.combined? (target d) id) s = (.ok (some o), s')) :
    ∃ v s'', o = some v ∧ Supplants s'.graph s''.graph id v ∧
    outcome (Lower.putCombined id o rest) s' =
      (.ok (Graph.enqueue rest (Lower.targetNodes s''.graph
        (v.node :: s'.graph.valueUsers (some ⟨id, 0⟩)))), s'') := by
  obtain ⟨r, s₁, t₁, hs₁, -, htwin, hfit⟩ := (Twin.refl hd).combined d id
  rw [hs₁] at hs
  cases hs
  obtain ⟨v, rfl, hapart, hf⟩ := hfit o rfl
  obtain ⟨hc, hop, hcases⟩ := combined?_cases hd hs₁
  obtain ⟨hc₁, hop₁⟩ : s'.graph.contains id ∧ isChoice (s'.graph.node id).op := by
    rcases hcases with ⟨-, rfl⟩ | ⟨chain, -, dest, -, -, rfl⟩
    · exact ⟨hc, hop⟩
    · have hlt := Graph.contains_lt hc
      have hx : s.graph.Extends (s.graph.single .br .chain [chain, dest]).1 := .newNode ..
      exact ⟨(hx.contains id hlt).trans hc,
        (congrArg (fun n : Node => isChoice n.op) (hx.node id hlt)).trans hop⟩
  obtain ⟨w, s'', t'', hput, -, htwin', hr, rfl⟩ := htwin.putCombined hf rest
  exact ⟨v, s'', rfl, ⟨htwin.graphs.left, htwin'.graphs.left, hc₁, hop₁, (hf.value (by simp)).2.2.2,
    hapart, hr⟩, hput⟩

/-- A step of combining keeps the discipline, and what is off the worklist stays settled. -/
theorem Settled.putCombined {o : Option Value} {rest : List Nat} (hd : Disciplined none s.graph)
    (h : Settled s.graph (id :: rest))
    (hs : outcome (Lower.combined? (target d) id) s = (.ok (some o), s')) :
    ∃ worklist s'', outcome (Lower.putCombined id o rest) s' = (.ok worklist, s'') ∧
      Disciplined none s''.graph ∧ Settled s''.graph worklist := by
  obtain ⟨v, s'', -, hr, hput⟩ := putCombined_supplants _ hd hs
  refine ⟨_, _, hput, hr.after, .replaced hr ?_⟩
  -- what is added first is used by nothing yet
  obtain ⟨hc, -, ⟨-, rfl⟩ | ⟨chain, hchain, dest, hdest, -, rfl⟩⟩ := combined?_cases hd hs
  · exact h
  · exact .jump hd.sound hr.before.sound hc hchain hdest h

/-- Every step of a lowering keeps what holds. -/
theorem Stands.next (ho : o.libcalls = Libcalls.standard) (h : Stands d c)
    (hg : c.1.treated?.isSome → Shaped .bare c.2.graph) :
    Stands d (Lower.next (target d) o c) := by
  obtain ⟨p, s⟩ := c
  cases p with
  | round left kept =>
    cases left with
    | zero => exact h.2.disciplined.acyclic
    | succ left =>
      exact ⟨h.1, h.2, fun id hid => h.2.disciplined.sound.contains_of_mem_nodes hid⟩
  | sweep left done rest =>
    obtain ⟨hkept, hsteady, hrest⟩ := h
    cases rest with
    | nil =>
      rw [Lower.next]
      split
      · exact ⟨hkept, hsteady⟩
      · exact ⟨hkept, hsteady.disciplined⟩
    | cons id rest =>
      obtain ⟨r, s', hs, ha, hr⟩ := hsteady.legalizeNode (hg rfl) (hrest id (by simp)) hkept
      rw [Lower.next, ho, hs]
      cases r with
      | error e => exact ha
      | ok done' =>
        obtain ⟨hkept', hsteady', t', ht⟩ := hr done' rfl
        exact ⟨hkept', hsteady', fun m hm => ht.contains (hrest m (by simp [hm]))⟩
  | cleanup kept =>
    obtain ⟨log, hlog⟩ := Lower.outcome_cleanup s
    have hd : Disciplined none s.graph.removeDead.1 := h.2.removeDead
    rw [Lower.next, hlog]
    exact ⟨h.1, hd, .start hd.sound hd.acyclic⟩
  | combine kept budget worklist =>
    obtain ⟨hkept, hd, hset⟩ := h
    cases worklist with
    | nil =>
      refine ⟨hkept, hd.removeDead, hset.removeDead hd.sound, fun id hid => ?_⟩
      exact hd.sound.live_removeDead.2 (hd.sound.contains_removeDead.1 hid)
    | cons id rest =>
      obtain ⟨r, s', t', hs, -, htwin, -⟩ := (Twin.refl hd).combined d id
      rw [Lower.next, hs]
      cases r with
      | error e => exact htwin.graphs.left.acyclic
      | ok v =>
        cases v with
        | none =>
          obtain ⟨rfl, hstays⟩ := combined?_none hd hs
          refine ⟨hkept, hd, fun m hm hu hrest => ?_⟩
          by_cases hmid : m = id
          · exact hmid ▸ hstays (hmid ▸ hm) (hmid ▸ hu)
          · exact hset m hm hu (by simp [hmid, hrest])
        | some v =>
          cases budget with
          | zero => exact htwin.graphs.left.acyclic
          | succ budget =>
            obtain ⟨worklist, s'', hput, hd', hset'⟩ := hset.putCombined hd hs
            simp only [Lower.arrive, hput]
            exact ⟨hkept, hd', hset'⟩
  | verify kept =>
    obtain ⟨rfl, hd, hset, hlive⟩ := h
    obtain ⟨r, hr, hpass⟩ := outcome_verify d s hd
    rw [Lower.next, hr]
    cases r with
    | error e => exact hd.acyclic
    | ok _ => exact ⟨hd, hlive, hpass.1 rfl, hset⟩
  | ended kept => exact h
  | failed e => exact h

/-! ### Whole lowerings -/

variable {log : Array LogRecord} {metrics : Metrics}

/-- Without glue in the file, all points of a lowering stand. -/
theorem Stands.course (hd : Disciplined none g) (hg : Shaped .bare g)
    (ho : o.libcalls = Libcalls.standard)
    (hc : Course (target d) o (outset o ((target d).session g metrics log)) c) : Stands d c := by
  refine (hc.keeps (P := fun c => Stands d c ∧ Sturdy (fun _ => False) c) (fun _ h => ?_)
    ⟨⟨rfl, hd, nofun⟩, .start hg⟩).1
  exact ⟨h.1.next ho fun _ => h.2.shaped, h.2.next ho⟩

theorem Lowered.of_lowerGraph (hd : Disciplined none g) (hg : Shaped .bare g)
    (ho : o.libcalls = Libcalls.standard)
    (h : Lower.lowerGraph (target d) o g metrics log = (.ok (), s)) : Lowered d s.graph := by
  obtain ⟨kept, s', hc, hlower⟩ | ⟨e, s', -, hlower⟩ :=
    Lower.lower_cases (target d) o ((target d).session g metrics log)
  · rw [Lower.lowerGraph, hlower] at h
    cases h
    exact Stands.course hd hg ho hc
  · rw [Lower.lowerGraph, hlower] at h
    cases h

/-- A file with a function that divides. -/
def divisionFile : String := String.join [
  "functions:\n- name: f\n  nodes:\n",
  "  - name: k\n    op: Constant\n    type: i32\n",
  "  - name: q\n    op: sdiv\n    ops: [k, k]\n",
  "  - name: r\n    op: return\n    ops: [entry, q]\n"]

theorem glue_notMem_of_lt (h : ∀ id < g.entries.size, .glue ∉ (g.node id).types) (id : Nat) :
    .glue ∉ (g.node id).types := by
  by_cases hid : id < g.entries.size
  · exact h id hid
  · rw [Graph.node_of_le (Nat.le_of_not_lt hid)]
    exact List.not_mem_nil

theorem glue_notMem_of_all (h : g.entries.all fun e => .glue ∉ e.node.types) :
    ∀ id, .glue ∉ (g.node id).types :=
  glue_notMem_of_lt fun id hid => by
    rw [Graph.node, Array.getD_eq_getD_getElem?, Array.getElem?_eq_getElem hid]
    simpa using Array.all_eq_true.1 h id hid

theorem parse_divisionFile : ∃ g, FunctionFile.parse divisionFile = .ok [g] ∧
    (∀ id, .glue ∉ (g.node id).types) ∧
      (Lower.lowerGraph (target Subtarget.Description.builtIn) {} g).1.isOk := by
  have h : holdsOfOnly (fun g => (g.entries.all fun e => .glue ∉ e.node.types) &&
      (Lower.lowerGraph (target Subtarget.Description.builtIn) {} g).1.isOk)
      (FunctionFile.parse divisionFile) = true := by
    exact FunctionFile.holdsOfOnly_join (by decide +kernel)
  obtain ⟨g, hg, h⟩ := exists_of_holdsOfOnly h
  rw [Bool.and_eq_true] at h
  exact ⟨g, hg, glue_notMem_of_all h.1, h.2⟩

/-- A function without glue in its file stays acyclic at every point of its lowering. If it is
lowered, then the nodes that are left are the entry token and what the root depends on, and each of
them is an operation of the machine or legal for the types it works on. -/
theorem lowering_acyclic_live_legal {k : FunctionFile.Decoder} {text : String} {gs : List Graph}
    {t : Lower.Target} (hparse : k.parse text = .ok gs) (hg : g ∈ gs)
    (hglue : ∀ id, .glue ∉ (g.node id).types) (hmake : make d = .ok t) (maxRounds : Int)
    (metrics : Metrics) (log : Array LogRecord) :
    (∀ p s, Course t { maxRounds } (outset { maxRounds } (t.session g metrics log)) (p, s) →
      s.graph.Acyclic) ∧
    ∀ s, Lower.lowerGraph t { maxRounds } g metrics log = (.ok (), s) → ∀ id,
      (s.graph.contains id ↔ id = Graph.entry.node ∨
        ∃ r, s.graph.root = some r ∧ s.graph.Reaches r.node id) ∧
      (s.graph.contains id → (s.graph.node id).op.isTarget ∨
        ∃ types, s.graph.nodeTypes? id = some types ∧
          t.classify (s.graph.node id).op types = .legal) := by
  obtain rfl := make_eq_ok hmake
  have hw := FunctionFile.parse_written hparse hg
  have hd := Disciplined.of_written hw hglue
  have hshaped : Shaped .bare g := .bare_of_written hw
  refine ⟨fun p s hc => (Stands.course hd hshaped rfl hc).acyclic, fun s hs id => ?_⟩
  have hl : Lowered d s.graph := .of_lowerGraph hd hshaped rfl hs
  exact ⟨⟨hl.live id, hl.disciplined.sound.contains_of_live⟩, hl.passes id⟩

/-- The division of the sample is lowered, and all of this holds of it. -/
theorem lowering_acyclic_live_legal_division :
    ∃ g s, FunctionFile.parse divisionFile = .ok [g] ∧
      Lower.lowerGraph (target Subtarget.Description.builtIn) {} g = (.ok (), s) ∧
      (∀ p s', Course (target Subtarget.Description.builtIn) {}
        (outset {} ((target Subtarget.Description.builtIn).session g)) (p, s') → s'.graph.Acyclic) ∧
      ∀ id, s.graph.contains id → id = Graph.entry.node ∨
        ∃ r, s.graph.root = some r ∧ s.graph.Reaches r.node id := by
  obtain ⟨g, hparse, hglue, hok⟩ := parse_divisionFile
  obtain ⟨hacyclic, hleft⟩ :=
    lowering_acyclic_live_legal hparse (by simp) hglue make_builtIn 0 {} #[]
  rcases hs : Lower.lowerGraph (target Subtarget.Description.builtIn) {} g with ⟨e | ⟨⟩, s⟩
  · rw [hs] at hok
    cases hok
  · exact ⟨g, s, hparse, hs, hacyclic, fun id hid => (hleft s hs id).1.1 hid⟩

/-! ### Lowering once more -/

theorem Passes.isLegal (h : Passes d.features g id) (hs : g.Sound) (hc : g.contains id) :
    IsLegal d.features g id := by
  rcases h with htarget | hl
  · obtain ⟨types, ht⟩ := Option.isSome_iff_exists.1 (hs.nodeTypes?_isSome hc)
    exact ⟨types, ht, by rw [classify, if_pos htarget]⟩
  · exact hl

theorem Lowered.removeDead (h : Lowered d g) : g.removeDead.1 = g := by
  have hdead : g.deadNodes = [] := by
    refine List.eq_nil_iff_forall_not_mem.2 fun id hid => ?_
    obtain ⟨hc, hl⟩ := h.disciplined.sound.mem_deadNodes.1 hid
    exact hl (h.live id hc)
  rw [Graph.removeDead_eq, hdead]
  rfl

/-- A lowering that has left a graph as it was, and has not failed. -/
def Still (g : Graph) : Point × Session → Prop
  | (.round left kept, s) => s.graph = g ∧ kept = [] ∧ 0 < left
  | (.sweep _ done rest, s) => s.graph = g ∧ done.kept = [] ∧ done.changed = false ∧
      ∀ id ∈ rest, g.contains id
  | (.cleanup kept, s) | (.combine kept _ _, s) | (.verify kept, s) => s.graph = g ∧ kept = []
  | (.ended _, s) => s.graph = g
  | (.failed _, _) => False

theorem Still.next (h : Lowered d g) (hc : Still g c) : Still g (Lower.next (target d) o c) := by
  obtain ⟨p, s⟩ := c
  have hsound := h.disciplined.sound
  cases p with
  | round left kept =>
    obtain ⟨rfl, rfl, hleft⟩ := hc
    cases left with
    | zero => cases hleft
    | succ left => exact ⟨rfl, rfl, rfl, fun id hid => hsound.contains_of_mem_nodes hid⟩
  | sweep left done rest =>
    obtain ⟨rfl, hkept, hchanged, hrest⟩ := hc
    cases rest with
    | nil =>
      rw [Lower.next, hchanged]
      exact ⟨rfl, hkept⟩
    | cons id rest =>
      have hid := hrest id (by simp)
      have hs : ∃ m, outcome (Lower.legalizeNode (target d) o.libcalls done id) s =
          (.ok done, { s with metrics := m }) :=
        outcome_legalizeNode_idle fun _ => (h.passes id hid).isLegal hsound hid
      obtain ⟨m, hs⟩ := hs
      rw [Lower.next, hs]
      exact ⟨rfl, hkept, hchanged, fun m hm => hrest m (by simp [hm])⟩
  | cleanup kept =>
    obtain ⟨rfl, hkept⟩ := hc
    obtain ⟨log, hlog⟩ := Lower.outcome_cleanup s
    rw [Lower.next, hlog]
    exact ⟨h.removeDead, hkept⟩
  | combine kept budget worklist =>
    obtain ⟨rfl, hkept⟩ := hc
    cases worklist with
    | nil => exact ⟨h.removeDead, hkept⟩
    | cons id rest =>
      have hs : outcome (Lower.combined? (target d) id) s = (.ok none, s) := by
        rw [outcome_combined? h.disciplined.acyclic]
        split
        · rename_i hu
          rw [h.settled id hu.1 hu.2 (by simp)]
          rfl
        · rfl
      rw [Lower.next, hs]
      exact ⟨rfl, hkept⟩
  | verify kept =>
    obtain ⟨rfl, rfl⟩ := hc
    obtain ⟨r, hr, hpass⟩ := outcome_verify d s h.disciplined
    rw [Lower.next, hr, hpass.2 h.passes]
    exact rfl
  | ended kept => exact hc
  | failed e => exact hc

/-- A function without glue in its file that was lowered is lowered again, whatever the number of
rounds that are allowed, and the graph stays as it is. -/
theorem lowerGraph_lowered {k : FunctionFile.Decoder} {text : String} {gs : List Graph}
    {t : Lower.Target} (hparse : k.parse text = .ok gs) (hg : g ∈ gs)
    (hglue : ∀ id, .glue ∉ (g.node id).types) (hmake : make d = .ok t) {maxRounds : Int}
    {metrics : Metrics} {log : Array LogRecord}
    (hs : Lower.lowerGraph t { maxRounds } g metrics log = (.ok (), s)) (maxRounds' : Int)
    (metrics' : Metrics) (log' : Array LogRecord) :
    ∃ s', Lower.lowerGraph t { maxRounds := maxRounds' } s.graph metrics' log' = (.ok (), s') ∧
      s'.graph = s.graph := by
  obtain rfl := make_eq_ok hmake
  have hw := FunctionFile.parse_written hparse hg
  have hl : Lowered d s.graph := .of_lowerGraph (.of_written hw hglue) (.bare_of_written hw) rfl hs
  have hrounds : 0 < (Options.rounds { maxRounds := maxRounds' }).toNat := by
    unfold Options.rounds Lower.defaultRounds
    split <;> omega
  have hstill : ∀ c, Course (target d) { maxRounds := maxRounds' }
    (outset { maxRounds := maxRounds' }
      ((target d).session s.graph metrics' log')) c → Still s.graph c := fun c hc =>
    hc.keeps (fun _ h => h.next hl) ⟨rfl, rfl, hrounds⟩
  obtain ⟨kept, s', hc, hlower⟩ | ⟨e, s', hc, -⟩ :=
    Lower.lower_cases (target d) { maxRounds := maxRounds' }
    ((target d).session s.graph metrics' log')
  · rw [Lower.lowerGraph, hlower]
    exact ⟨_, rfl, hstill _ hc⟩
  · exact (hstill _ hc).elim

theorem lowerGraph_lowered_division :
    ∃ g s s', FunctionFile.parse divisionFile = .ok [g] ∧
      Lower.lowerGraph (target Subtarget.Description.builtIn) {} g = (.ok (), s) ∧
      Lower.lowerGraph (target Subtarget.Description.builtIn)
      { maxRounds := 1 } s.graph = (.ok (), s') ∧ s'.graph = s.graph := by
  obtain ⟨g, hparse, hglue, hok⟩ := parse_divisionFile
  rcases hs : Lower.lowerGraph (target Subtarget.Description.builtIn) {} g with ⟨e | ⟨⟩, s⟩
  · rw [hs] at hok
    cases hok
  · obtain ⟨s', hs', hgraph⟩ := lowerGraph_lowered hparse (by simp) hglue make_builtIn hs 1 {} #[]
    exact ⟨g, s, s', hparse, hs, hs', hgraph⟩

end GraphLowering.Usim
