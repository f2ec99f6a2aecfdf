import GraphLowering.Proofs.Usim.Orders

/-!
# Library calls are calls

If the chain of the root leads to the entry token, there is a chain wherever a library call goes,
and so the call takes a chain, its function and the operands of the node that it stands for
(`LibraryCall`). Only a chain gives way to that of the call, and nothing is left that takes the node
(`library_call_formed`).
-/

namespace GraphLowering

/-- Where values of nodes that do not take a node stand in place of all its results, nothing takes
it any more. -/
theorem Graph.Sound.unused_of_replaceNode {g g' : Graph} {n : Nat}
    {values : List (Option Value)} (hs : g.Sound)
    (hv : ∀ o ∈ values, ∃ v, o = some v ∧ g.Has v ∧ v.node ≠ n ∧ ¬ g.Needs v.node n)
    (hg : g.replaceNode n values = .ok g') : g'.hasUses (some n) = false := by
  have hvalid : ∀ v, some v ∈ values → g.Has v ∧ v.node ≠ n ∧ ¬ g.Needs v.node n := by
    intro v hmem
    obtain ⟨w, hw, h⟩ := hv _ hmem
    cases hw
    exact h
  obtain ⟨hs', hrew⟩ := hs.replaceNode (fun v hmem => ⟨(hvalid v hmem).1, (hvalid v hmem).2.1⟩) hg
  -- each result of the node has a value in its place
  have hsome : ∀ k, g.Has ⟨n, k⟩ → ∃ v, (values[k]?).join = some v ∧ some v ∈ values := by
    intro k hk
    obtain ⟨vt, hvt⟩ := Option.isSome_iff_exists.1 hk.2
    rw [Graph.type?_eq] at hvt
    rw [Graph.replaceNode_eq] at hg
    split at hg
    · cases hg
    rename_i hlen
    have hlt : k < values.length := not_not.1 hlen ▸ (List.getElem?_eq_some_iff.1 hvt).1
    obtain ⟨v, hv', -⟩ := hv _ (List.getElem_mem hlt)
    exact ⟨v, by rw [List.getElem?_eq_getElem hlt, hv']; rfl, hv' ▸ List.getElem_mem hlt⟩
  rw [Bool.eq_false_iff]
  intro hu
  rcases hs'.hasUses_iff.1 hu with ⟨a, ha⟩ | ⟨v, hroot, hvn⟩
  · obtain ⟨hc, i, hi⟩ := Graph.needs_iff.1 ha
    rw [hrew.contains] at hc
    rw [hrew.node a hc, List.mem_map] at hi
    obtain ⟨o, ho, hi⟩ := hi
    obtain ⟨⟨m, k⟩, rfl, hw⟩ := hs.operands a hc o ho
    by_cases hm : m = n
    · subst hm
      obtain ⟨v, hval, hmem⟩ := hsome k hw
      have hne : v.node ≠ a := by
        rintro rfl
        exact (hvalid v hmem).2.2 (Graph.needs_iff.2 ⟨hc, k, ho⟩)
      simp only [Graph.rewireBy, hval, if_true, if_neg hne, Option.some.injEq] at hi
      exact (hvalid v hmem).2.1 (hi ▸ rfl)
    · simp [Graph.rewireBy, hm] at hi
  · rw [hrew.root, Option.map_eq_some_iff] at hroot
    obtain ⟨r, hr, rfl⟩ := hroot
    rw [Graph.rewireRoot] at hvn
    split at hvn
    · rename_i hrn
      have hhas := hs.has_root hr
      obtain ⟨v, hval, hmem⟩ := hsome r.result (by rwa [← hrn])
      rw [hval] at hvn
      exact (hvalid v hmem).2.1 hvn
    · exact absurd hvn ‹_›

namespace Usim

open FunctionFile (holdsOfOnly exists_of_holdsOfOnly)
open GraphLowering.Graph (taken)
open Lower (Session Libcalls Course Point outset Metrics)
open Lower.Lowering
open Subtarget (Description)

variable {g g₁ g' : Graph} {n call : Nat} {callee : String} {cc : CallConv} {before : Option Nat}
  {chain : Option Value} {s s' : Session} {values : List (Option Value)}

/-- The second graph is the first with a call of `callee` in it for the node `n`. -/
structure LibraryCall (g g₁ : Graph) (n call : Nat) (callee : String) : Prop where
  fresh : ¬ g.contains call
  op : (g₁.node call).op = .call
  operands : ∃ chain symbol, (g₁.node call).operands = some chain :: some symbol ::
    (g.node n).operands ∧ g₁.type? chain = some .chain ∧
    g₁.node symbol.node = ⟨.externalSymbol, [.i32], [], .symbol callee 0⟩
  /-- At most the chain operand of one node is another. -/
  others : ∃ user, ∀ a, g.contains a → ∀ i : Nat, (g₁.node a).operands[i]? ≠
    (g.node a).operands[i]? → a = user ∧ i = 0 ∧ (g₁.node a).operands[0]? = some (some ⟨call, 1⟩) ∧
      ∃ v, (g.node a).operands[0]? = some (some v) ∧ g.type? v = some .chain

theorem map_taken {operands : List (Option Value)} (h : ∀ o ∈ operands, ∃ v, o = some v) :
    (taken operands).map some = operands := by
  induction operands with
  | nil => rfl
  | cons o operands ih =>
    obtain ⟨v, rfl⟩ := h o (by simp)
    simpa [taken] using ih fun o ho => h o (by simp [ho])

/-- There is a chain where a library call goes. -/
theorem chain_of_anchored (hd : Disciplined none g) (hend : EndsInChain g) (ha : Anchored g)
    (hn : Expandable g n) (hsp : Graph.SplicePoint g n before chain)
    (hg : splice? g callee cc (g.node n).operands (before, chain) = some g₁) :
    ∃ u, chain = some u ∧ g.Has u ∧ g.type? u = some .chain := by
  obtain ⟨r, hr, hhas⟩ := hd.sound.root
  cases before with
  | none =>
    cases hsp
    exact ⟨r, hr, hhas, hend r hr⟩
  | some user =>
    obtain ⟨line, hline⟩ := ha r hr
    obtain ⟨-, -, -, u, -, -, -, hu, -⟩ := hline.parts (mem_thread_of_splice hd hn hsp hg hr hline)
    have hspot := hd.spot (.of_isArithmetic hn.op) hsp
    obtain ⟨h0, ht⟩ := Graph.chain_eq_follows.1 hu
    exact ⟨u, (hspot.takes u).2 hu, hd.sound.has_operand hspot.contains (List.mem_of_getElem? h0),
      ht⟩

theorem splice?_last {args : List (Option Value)}
    (hg : splice? g callee cc args (none, chain) = some g₁) :
    (∀ m, g₁.node m = (withLibcall g callee cc chain args).node m) ∧
      ∀ v, g₁.type? v = (withLibcall g callee cc chain args).type? v := by
  rw [splice?, Option.some.injEq] at hg
  subst hg
  generalize withLibcall g callee cc chain args = w
  exact ⟨fun _ => rfl, fun _ => rfl⟩

theorem libraryCall_splice (hd : Disciplined none g) (hend : EndsInChain g) (ha : Anchored g)
    (hn : Expandable g n) (hsp : Graph.SplicePoint g n before chain)
    (hg : splice? g callee cc (g.node n).operands (before, chain) = some g₁) :
    LibraryCall g g₁ n (g.entries.size + 1) callee := by
  obtain ⟨u, rfl, hu, ht⟩ := chain_of_anchored hd hend ha hn hsp hg
  have hx : g.Extends (withLibcall g callee cc (some u) (g.node n).operands) := withLibcall_extends
  have hcall : (taken (some u :: some ⟨g.entries.size, 0⟩ :: (g.node n).operands)).map some =
      some u :: some ⟨g.entries.size, 0⟩ :: (g.node n).operands := by
    refine map_taken fun o ho => ?_
    simp only [List.mem_cons] at ho
    rcases ho with rfl | rfl | ho
    · exact ⟨u, rfl⟩
    · exact ⟨_, rfl⟩
    · obtain ⟨v, hv, -⟩ := hd.sound.operands n hn.contains o ho
      exact ⟨v, hv⟩
  have hfresh : ¬ g.contains (g.entries.size + 1) :=
    fun hc => absurd (Graph.contains_lt hc) (by omega)
  have hop : (g₁.node (g.entries.size + 1)).op = .call := by
    rw [(splice?_spec hg _).1, node_withLibcall_call]
  cases before with
  | none =>
    obtain ⟨hnode, htype⟩ := splice?_last hg
    refine ⟨hfresh, hop, ⟨u, ⟨g.entries.size, 0⟩, ?_, ?_, ?_⟩, 0, fun a ha' i hi => ?_⟩
    · rw [hnode, node_withLibcall_call]
      exact hcall
    · rw [htype, hx.type? hu.lt]
      exact ht
    · rw [hnode, node_withLibcall_symbol]
    · rw [hnode, hx.node a (Graph.contains_lt ha')] at hi
      exact absurd rfl hi
  | some user =>
    obtain ⟨hup, -⟩ := hn.updated hd hsp hg
    have hspot := hd.spot (.of_isArithmetic hn.op) hsp
    have hlt := Graph.contains_lt hspot.contains
    have hother : ∀ a, a ≠ user →
      g₁.node a = (withLibcall g callee cc (some u) (g.node n).operands).node a :=
      fun a hne => by rw [hup.node, if_neg hne]
    refine ⟨hfresh, hop, ⟨u, ⟨g.entries.size, 0⟩, ?_, ?_, ?_⟩, user, fun a ha' i hi => ?_⟩
    · rw [hother _ (by omega), node_withLibcall_call]
      exact hcall
    · rw [hup.type?, hx.type? hu.lt]
      exact ht
    · rw [hother _ (Nat.ne_of_gt hlt), node_withLibcall_symbol]
    · by_cases hne : a = user
      · subst hne
        rw [hup.node, if_pos rfl, hx.node a hlt] at hi ⊢
        have h0 := (Graph.chain_eq_follows.1 ((hspot.takes u).1 rfl)).1
        obtain rfl : i = 0 := by
          by_contra hi0
          exact hi (List.getElem?_set_ne (Ne.symm hi0))
        refine ⟨rfl, rfl, List.getElem?_set_self (List.getElem?_eq_some_iff.1 h0).1, u, h0, ht⟩
      · rw [hother a hne, hx.node a (Graph.contains_lt ha')] at hi
        exact absurd rfl hi

theorem unused_splice (hd : Disciplined none g) (hn : Expandable g n)
    (hsp : Graph.SplicePoint g n before chain)
    (hg : splice? g callee cc (g.node n).operands (before, chain) = some g₁)
    (hcall : LibraryCall g g₁ n (g.entries.size + 1) callee) :
    ∃ g', g₁.replaceNode n [some ⟨g.entries.size + 1, 0⟩] = .ok g' ∧
    g'.hasUses (some n) = false := by
  have hx : g.Extends (withLibcall g callee cc chain (g.node n).operands) := withLibcall_extends
  have hlt := Graph.contains_lt hn.contains
  obtain ⟨hs₁, hhas⟩ : g₁.Sound ∧ g₁.Has ⟨g.entries.size + 1, 0⟩ := by
    cases before with
    | none =>
      cases hg
      exact ⟨(hn.disciplined hd hsp).sound.of_root (withLibcall_result (by decide)).1,
        (withLibcall_result (by decide)).1⟩
    | some user =>
      obtain ⟨hup, hd₁⟩ := hn.updated hd hsp hg
      exact ⟨hd₁.sound, hup.has_iff.2 (withLibcall_result (by decide)).1⟩
  have htypes : (g₁.node n).types = [.i32] := by
    rw [(splice?_spec hg n).2, hx.node n hlt, hn.types]
  have hop : isArithmetic (g₁.node n).op := by
    rw [(splice?_spec hg n).1, hx.node n hlt]
    exact hn.op
  obtain ⟨g', hg'⟩ : ∃ g', g₁.replaceNode n [some ⟨g.entries.size + 1, 0⟩] = .ok g' := by
    rw [Graph.replaceNode_eq, htypes, if_neg (by simp)]
    exact ⟨_, rfl⟩
  refine ⟨g', hg', hs₁.unused_of_replaceNode
    (fun o ho => ⟨_, List.mem_singleton.1 ho, hhas, ?_, ?_⟩) hg'⟩
  · exact Nat.ne_of_gt (Nat.lt_succ_of_lt hlt)
  · intro hneeds
    obtain ⟨-, i, hi⟩ := Graph.needs_iff.1 hneeds
    obtain ⟨u, symbol, hops, ht, hsym⟩ := hcall.operands
    rw [hops, List.mem_cons, List.mem_cons] at hi
    rcases hi with hi | hi | hi
    · cases hi
      rw [Graph.type?_eq, htypes] at ht
      cases List.mem_singleton.1 (List.mem_of_getElem? ht)
    · cases hi
      rw [hsym] at hop
      cases hop
    · exact hd.acyclic n (.single (Graph.needs_iff.2 ⟨hn.contains, i, hi⟩))

theorem expand_ok {l : Libcalls} (h : outcome (l.expand n) s = (.ok values, s')) :
    ∃ callee before chain, l.callees.lookup (s.graph.node n).op = some callee ∧
      (s.graph.node n).types = [.i32] ∧ s.graph.splicePoint (some n) = some (before, chain) ∧
      splice? s.graph callee l.callConv (s.graph.node n).operands (before, chain) = some s'.graph ∧
      values = [some ⟨s.graph.entries.size + 1, 0⟩] := by
  rw [outcome_expand] at h
  split at h
  · cases h
  rename_i callee hcallee
  split at h
  · cases h
  rename_i htypes
  split at h
  · cases h
  rename_i place hplace
  split at h
  · cases h
  rename_i g₁ hg₁
  cases h
  exact ⟨callee, place.1, place.2, hcallee, not_not.1 htypes, hplace, hg₁, rfl⟩

/-- In a file without glue, let chains be given by the operations on the chain only and taken where
these have theirs, and let the chain of the root lead to the entry token. Then every library call
that the lowering puts in place of a node takes a chain, its function and the operands of the node,
no operand of another node is changed for it but the chain of one, and once the call has taken the
place of the node nothing takes the node. -/
theorem library_call_formed {d : Description} {k : FunctionFile.Decoder} {text : String}
    {gs : List Graph} {t : Lower.Target} {r : Value} {line : List Nat}
    (hparse : k.parse text = .ok gs) (hg : g ∈ gs) (hglue : ∀ id, .glue ∉ (g.node id).types)
    (hordered : ∀ id, g.contains id → Ordered g (g.node id)) (hroot : g.root = some r)
    (hline : g.Thread r line Graph.entry) (hmake : make d = .ok t) {maxRounds : Int}
    {metrics : Metrics} {log : Array LogRecord} {c : Point × Session}
    (hc : Course t { maxRounds } (outset { maxRounds } (t.session g metrics log)) c)
    (hn : c.1.treated? = some n) (m : Metrics)
    (h : outcome (Libcalls.standard.expand n) { c.2 with metrics := m } = (.ok values, s')) :
    ∃ call callee g', values = [some ⟨call, 0⟩] ∧
      Libcalls.standard.callees.lookup (c.2.graph.node n).op = some callee ∧
      LibraryCall c.2.graph s'.graph n call callee ∧
      s'.graph.replaceNode n values = .ok g' ∧ g'.hasUses (some n) = false := by
  obtain rfl := make_eq_ok hmake
  have hd := Disciplined.of_written (FunctionFile.parse_written hparse hg) hglue
  have hanchored : Anchored g := by
    intro v hv
    rw [hroot, Option.some.injEq] at hv
    exact ⟨line, hv ▸ hline⟩
  have hend : EndsInChain g := by
    intro v hv
    rw [hroot, Option.some.injEq] at hv
    subst hv
    refine hline.type_start ?_
    rw [Graph.type?_eq, hd.sound.entry.2]
    rfl
  obtain ⟨hst, -, hin⟩ :=
    InOrder.course (A := True) (FunctionFile.parse_written hparse hg) hglue hordered hend
    (fun _ => hanchored) rfl hc
  obtain ⟨p, s⟩ := c
  obtain ⟨left, done, rest, rfl⟩ := Point.treated?_eq_some hn
  obtain ⟨-, hsteady, hrest⟩ := hst
  have hds := hsteady.disciplined
  obtain ⟨callee, before, chain, hcallee, htypes, hsp, hg₁, rfl⟩ := expand_ok h
  have hexp : Expandable s.graph n := ⟨hrest n (by simp), isArithmetic_of_standard hcallee, htypes⟩
  have hspot := hds.sound.splicePoint_spec hds.acyclic hsp
  have hcall := libraryCall_splice hds hin.2.1 (hin.2.2 trivial) hexp hspot hg₁
  obtain ⟨g', hg', hunused⟩ := unused_splice hds hexp hspot hg₁ hcall
  exact ⟨_, callee, g', rfl, hcallee, hcall, hg', hunused⟩

/-- The call for the division of a function that returns it. -/
theorem library_call_formed_division : ∃ g call s' g', FunctionFile.parse divisionFile = .ok [g] ∧
    g.Thread ⟨3, 0⟩ [3] Graph.entry ∧
    outcome (Libcalls.standard.expand 2) (afterThree g).2 = (.ok [some ⟨call, 0⟩], s') ∧
    LibraryCall (afterThree g).2.graph s'.graph 2 call "__divsi3" ∧
    s'.graph.replaceNode 2 [some ⟨call, 0⟩] = .ok g' ∧ g'.hasUses (some 2) = false := by
  have h : holdsOfOnly (fun g => decide
      ((∀ id < g.entries.size, .glue ∉ (g.node id).types ∧ Ordered g (g.node id)) ∧
        g.root = some ⟨3, 0⟩ ∧ g.type? ⟨3, 0⟩ = some .chain ∧ g.chain 3 = .follows Graph.entry ∧
        (afterThree g).1.treated? = some 2 ∧ ((afterThree g).2.graph.node 2).op = .sdiv ∧
        (outcome (Libcalls.standard.expand 2) (afterThree g).2).1.toOption.isSome))
      (FunctionFile.parse divisionFile) = true := by
    exact FunctionFile.holdsOfOnly_join (by decide +kernel)
  obtain ⟨g, hparse, h⟩ := exists_of_holdsOfOnly h
  obtain ⟨hnodes, hroot, ht, hchain, hn, hop, hok⟩ := of_decide_eq_true h
  have hline : g.Thread ⟨3, 0⟩ [3] Graph.entry := .single ht hchain
  have hglue := glue_notMem_of_lt fun id hid => (hnodes id hid).1
  rcases hout : outcome (Libcalls.standard.expand 2) (afterThree g).2 with ⟨e | values, s'⟩
  · rw [hout] at hok
    cases hok
  · obtain ⟨call, callee, g', rfl, hcallee, hcall, hg', hunused⟩ :=
      library_call_formed (c := afterThree g) hparse (by simp) hglue
      (fun id hid => (hnodes id (Graph.contains_lt hid)).2) hroot hline make_builtIn
      (Course.iterate 3) hn (afterThree g).2.metrics hout
    rw [hop] at hcallee
    cases hcallee
    exact ⟨g, call, s', g', hparse, hline, hout, hcall, hg', hunused⟩

/-- A function that ends in a quotient. -/
def quotientFile : String := String.join [
  "functions:\n- name: f\n  nodes:\n",
  "  - name: k\n    op: Constant\n    type: i32\n",
  "  - name: q\n    op: sdiv\n    ops: [k, k]\n"]

/-- A function that ends in no chain: the library call takes the division in place of a chain, and
still takes it when it stands in its place. -/
theorem library_call_takes_division : ∃ g s' g', FunctionFile.parse quotientFile = .ok [g] ∧
    Course (target .builtIn) {} (outset {} ((target .builtIn).session g)) (afterThree g) ∧
    (afterThree g).1.treated? = some 2 ∧ (afterThree g).2.graph.root = some ⟨2, 0⟩ ∧
    outcome (Libcalls.standard.expand 2) (afterThree g).2 = (.ok [some ⟨4, 0⟩], s') ∧
    (s'.graph.node 4).op = .call ∧ (s'.graph.node 4).operands[0]? = some (some ⟨2, 0⟩) ∧
    s'.graph.type? ⟨2, 0⟩ = some .i32 ∧
    s'.graph.replaceNode 2 [some ⟨4, 0⟩] = .ok g' ∧ g'.hasUses (some 2) = true := by
  have h : holdsOfOnly (fun g => decide
      ((afterThree g).1.treated? = some 2 ∧ (afterThree g).2.graph.root = some ⟨2, 0⟩ ∧
        (outcome (Libcalls.standard.expand 2) (afterThree g).2).1.toOption = some [some ⟨4, 0⟩] ∧
        let g₁ := (outcome (Libcalls.standard.expand 2) (afterThree g).2).2.graph
        (g₁.node 4).op = .call ∧ (g₁.node 4).operands[0]? = some (some ⟨2, 0⟩) ∧
        g₁.type? ⟨2, 0⟩ = some .i32 ∧ (g₁.replaceNode 2 [some ⟨4, 0⟩]).toOption.any
        (·.hasUses (some 2))))
      (FunctionFile.parse quotientFile) = true := by
    exact FunctionFile.holdsOfOnly_join (by decide +kernel)
  obtain ⟨g, hparse, h⟩ := exists_of_holdsOfOnly h
  obtain ⟨hn, hroot, hout, hop, h0, ht, hused⟩ := of_decide_eq_true h
  rcases hexpand : outcome (Libcalls.standard.expand 2) (afterThree g).2 with ⟨e | values, s'⟩
  · rw [hexpand] at hout
    cases hout
  rw [hexpand] at hout hop h0 ht hused
  cases hout
  obtain ⟨g', hg', hused⟩ := (Option.any_eq_true _ _).1 hused
  refine ⟨g, s', g', hparse, Course.iterate 3, hn, hroot, hexpand, hop, h0, ht, ?_, hused⟩
  cases hr : s'.graph.replaceNode 2 [some ⟨4, 0⟩] with
  | error e =>
    rw [hr] at hg'
    cases hg'
  | ok g₂ =>
    rw [hr] at hg'
    cases hg'
    rfl

end Usim

end GraphLowering
