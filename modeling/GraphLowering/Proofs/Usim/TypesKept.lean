import GraphLowering.Proofs.Usim.LoweringFound
import GraphLowering.Proofs.Usim.Treatment

/-!
# Rewrites keep types

A rule or a library call gives one value for each result of the node that it rewrites, and so the
values take its place. If pairs are made of words (`PairsOfWords`), each value has the type of the
result that it stands for, and an operand keeps its type when a value takes its place.
-/

namespace GraphLowering.Usim

open FunctionFile (holdsOfOnly exists_of_holdsOfOnly)
open Lower (Session Libcalls Course Point outset Metrics)
open Lower.Lowering
open Subtarget (Description)

variable {g : Graph} {n : Nat} {d : Description} {s s' : Session} {types : List ValueType}
  {r : Option (List (Option Value))}

/-- The low half of a pair of words is a word, and no such pair is the root: a library call without
a chain to join takes the place of the first operand of the root. -/
structure PairsOfWords (g : Graph) : Prop where
  low : ∀ id, (g.node id).op = .buildPair → (g.node id).types = [.i64] →
    ∃ v, (g.node id).operands[0]? = some (some v) ∧ g.type? v = some .i32
  root : ∀ v, g.root = some v → g.type? v ≠ some .i64

/-- What pairs of words have to do with types. -/
abbrev ofPairs (g : Graph) : Typing → Prop := fun l => l = .basic ∧ PairsOfWords g

theorem PairsOfWords.shaped (h : FunctionFile.Written g) : Shaped (.types (ofPairs g)) g := by
  refine .of_written h ?_ ?_ ?_
  · rintro _ ⟨rfl, -⟩ id - i hi harm
    exact absurd (Option.mem_toList.1 hi) harm
  · rintro _ ⟨rfl, hp⟩ id hid hop vt hvt i hi
    obtain ⟨rfl, rfl⟩ : vt = .i64 ∧ i = 0 := by
      simp only [Typing.halves] at hi
      split at hi <;> simp_all
    have hone : (g.node id).types.length = 1 := by
      have := h.gives id (Graph.contains_lt hid)
      rw [hop] at this
      exact of_decide_eq_true this
    obtain ⟨vt, hone⟩ := List.length_eq_one_iff.1 hone
    exact hp.low id hop (by simp_all)
  · rintro _ ⟨rfl, hp⟩ v hv vt hvt
    refine if_neg ?_
    rintro rfl
    exact hp.root v hv hvt

/-- Whenever a node is rewritten in the course of lowering what was read from a file, there is a
value of the graph for each of its results, and the values take its place. If pairs are made of
words, each value has the type of the result that it stands for, and all operands keep their
types. -/
theorem rewrite_keeps_types {k : FunctionFile.Decoder} {text : String} {gs : List Graph}
    {t : Lower.Target} {maxRounds : Int} {metrics : Metrics} {log : Array LogRecord}
    {c : Point × Session} (hparse : k.parse text = .ok gs) (hg : g ∈ gs) (hmake : make d = .ok t)
    (hc : Course t { maxRounds } (outset { maxRounds } (t.session g metrics log)) c)
    (hn : c.1.treated? = some n) (htypes : c.2.graph.nodeTypes? n = some types)
    (hact : t.classify (c.2.graph.node n).op types ≠ .legal) (m : Metrics)
    (hr : outcome (Lower.substitute t Libcalls.standard (t.classify (c.2.graph.node n).op types) n)
      { c.2 with metrics := m } = (.ok r, s')) :
    ∃ values g', r = some values ∧
      List.Forall₂ (fun vt o => ∃ v, o = some v ∧ s'.graph.Has v ∧
        (PairsOfWords g → s'.graph.type? v = some vt)) (c.2.graph.node n).types values ∧
      s'.graph.replaceNode n values = .ok g' ∧ (PairsOfWords g → Retyped s'.graph g') := by
  obtain rfl := make_eq_ok hmake
  have hsturdy : Sturdy (ofPairs g) c :=
    .course (PairsOfWords.shaped (FunctionFile.parse_written hparse hg)) rfl hc
  obtain ⟨p, s⟩ := c
  obtain ⟨left, done, rest, rfl⟩ := Point.treated?_eq_some hn
  obtain ⟨hready, hrest⟩ := hsturdy
  have hknown := hready.shaped.known rfl (hrest n List.mem_cons_self)
  obtain ⟨values, rfl⟩ := substitute_answers (s := { s with metrics := m }) hact hr
  have hfound : Survives (ofPairs g) (Known (.types (ofPairs g)) · n (s.graph.node n))
      (Lower.substitute (target d) Libcalls.standard (classify d.features (s.graph.node n).op types)
        n) _ :=
    substitute_survives fun _ h => h
  obtain ⟨r', s'', hr', hs', -, hq⟩ :=
    hfound { s with metrics := m } ⟨hready.shaped, hready.formals⟩ fun _ => hknown.extends
  obtain ⟨rfl, rfl⟩ := Prod.mk.inj (hr.symm.trans hr')
  obtain ⟨hstand, -, hsame⟩ := hq _ (.refl _)
  have hsuits := hstand _ rfl
  have hfit := hsuits.types.imp fun _ _ h => And.imp_left Holds.filled h
  obtain ⟨g', hg', -, -, hretyped⟩ := hs'.shaped.replaceNode (hsame.symm ▸ hfit)
  refine ⟨values, g', rfl, hfit.imp fun vt o ho => ?_, hg', fun hp => hretyped ⟨.basic, rfl, hp⟩⟩
  obtain ⟨⟨v, rfl, hhas⟩, ht⟩ := ho
  exact ⟨v, rfl, hhas, fun hp => ht ⟨.basic, rfl, hp⟩⟩

/-- A function that truncates what `node` says. -/
def truncationFile (node : String) : String := String.join [
  "functions:\n- name: f\n  nodes:\n  - name: p\n    type: i64\n    ",
  node,
  "\n",
  "  - name: t\n    op: truncate\n    type: i32\n    ops: [p]\n"]

/-- Where the truncation is treated. -/
def atTruncation (g : Graph) : Point × Session :=
  (Lower.next (target .builtIn) {})^[3] (outset {} ((target .builtIn).session g))

/-- What takes the place of the truncation. -/
def truncated (g : Graph) : Except Lower.Failure (Option (List (Option Value))) × Session :=
  outcome (Lower.substitute (target .builtIn) Libcalls.standard .custom 2) (atTruncation g).2

/-- The truncation, which gives a word, is rewritten to one value. -/
def TruncatesTo (g : Graph) (v : Value) : Prop :=
  (atTruncation g).1.treated? = some 2 ∧ (atTruncation g).2.graph.nodeTypes? 2 = some [.i32, .i64] ∧
    ((atTruncation g).2.graph.node 2).op = .truncate ∧
      ((atTruncation g).2.graph.node 2).types = [.i32] ∧
    (truncated g).1.toOption = some (some [some v])

instance {v : Value} : Decidable (TruncatesTo g v) := by
  unfold TruncatesTo
  infer_instance

/-- A number of two words becomes a pair, and its truncation the low one of them. -/
theorem rewrite_keeps_types_truncation :
    ∃ g, FunctionFile.parse (truncationFile "op: Constant\n    value: 3") = .ok [g] ∧
    PairsOfWords g ∧
      TruncatesTo g ⟨3, 0⟩ ∧ (truncated g).2.graph.type? ⟨3, 0⟩ = some .i32 := by
  have h : holdsOfOnly (fun g => decide (TruncatesTo g ⟨3, 0⟩ ∧
      (∀ id < g.entries.size, (g.node id).op ≠ .buildPair) ∧ ∀ v ∈ g.root, g.type? v ≠ some .i64))
      (FunctionFile.parse (truncationFile "op: Constant\n    value: 3")) = true := by
    exact FunctionFile.holdsOfOnly_join (by decide +kernel)
  obtain ⟨g, hparse, h⟩ := exists_of_holdsOfOnly h
  obtain ⟨hto, hpair, hroot⟩ := of_decide_eq_true h
  have hpairs : PairsOfWords g := by
    refine ⟨fun id hop => ?_, hroot⟩
    by_cases hid : id < g.entries.size
    · exact absurd hop (hpair id hid)
    · rw [Graph.node_of_le (Nat.le_of_not_lt hid)] at hop
      cases hop
  refine ⟨g, hparse, hpairs, hto, ?_⟩
  obtain ⟨hn, htypes, hop, hone, hr⟩ := hto
  obtain ⟨r, s', hout⟩ : ∃ r s', truncated g = (r, s') := ⟨_, _, rfl⟩
  rw [hout] at hr ⊢
  cases r with
  | error => cases hr
  | ok r =>
    cases hr
    obtain ⟨values, g', he, hall, -⟩ :=
      rewrite_keeps_types (c := atTruncation g) hparse (by simp) make_builtIn (Course.iterate 3) hn
      htypes (by rw [hop]; decide) (atTruncation g).2.metrics (by rw [hop]; exact hout)
    cases he
    rw [hone] at hall
    obtain ⟨⟨v, hv, -, ht⟩, -⟩ := List.forall₂_cons.1 hall
    cases hv
    exact ht hpairs

/-- A pair of chains is no pair of words: its truncation to a word becomes a chain. -/
theorem truncated_to_chain :
    ∃ g, FunctionFile.parse (truncationFile "op: build_pair\n    ops: [entry, entry]") = .ok [g] ∧
      Course (target .builtIn) {} (outset {} ((target .builtIn).session g)) (atTruncation g) ∧
      TruncatesTo g Graph.entry ∧ (truncated g).2.graph.type? Graph.entry = some .chain := by
  have h : holdsOfOnly (fun g => decide (TruncatesTo g Graph.entry ∧
      (truncated g).2.graph.type? Graph.entry = some .chain))
      (FunctionFile.parse (truncationFile "op: build_pair\n    ops: [entry, entry]")) = true := by
    exact FunctionFile.holdsOfOnly_join (by decide +kernel)
  obtain ⟨g, hparse, h⟩ := exists_of_holdsOfOnly h
  exact ⟨g, hparse, Course.iterate 3, of_decide_eq_true h⟩

end GraphLowering.Usim
