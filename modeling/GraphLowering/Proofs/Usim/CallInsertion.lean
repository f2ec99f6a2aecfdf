import GraphLowering.Proofs.Graph.Thread
import GraphLowering.Proofs.Usim.Lowered

/-!
# Where a library call goes

Let a chain without glue lead from the root to the entry token. A library call for a node that the
root depends on goes right before the last operation towards the token that depends on the node
(`splicePoint_thread`). It depends neither on this operation nor on the node (`Gap.apart`), so no
cycle comes of it, and all that depended on the node now depends on the call
(`expand_inserts_call`).
-/

namespace GraphLowering.Usim

open FunctionFile (holdsOfOnly exists_of_holdsOfOnly)
open GraphLowering.Graph (Thread taken)
open Lower (Session Libcalls)
open Lower.Lowering
open Relation

variable {g g₁ g' : Graph} {n x m i : Nat} {r u : Value} {line pre rest : List Nat}
  {callee : String} {cc : CallConv}

/-- The chain from `r` to the entry token at the place where a call for `n` goes: before `x`, which
takes the chain `u`. -/
structure Gap (g : Graph) (n : Nat) (r : Value) (pre : List Nat) (x : Nat) (u : Value)
    (rest : List Nat) : Prop where
  upper : ∃ i, g.Thread r pre ⟨x, i⟩ ∧ g.type? ⟨x, i⟩ = some .chain
  chain : g.chain x = .follows u
  lower : g.Thread u rest Graph.entry
  depends : TransGen g.Needs x n
  free : ∀ b ∈ rest ++ [Graph.entry.node], ¬ TransGen g.Needs b n

theorem splicePoint_thread (hs : g.Sound) (ha : g.Acyclic) (hr : g.root = some r)
    (hline : g.Thread r line Graph.entry)
    (hglue : ∀ a ∈ line, ∀ b, g.Follows a b → ¬ g.TakesGlue a b) (hn : TransGen g.Needs r.node n) :
    ∃ pre x u rest, line = pre ++ x :: rest ∧
      g.splicePoint (some n) = some (some x, some u) ∧ Gap g n r pre x u rest := by
  have hends : g.chain Graph.entry.node = .ends := by
    unfold Graph.chain
    rw [hs.entry.2]
  obtain ⟨before, chain, hsp, -⟩ := hs.splicePoint_found (n := n)
  cases hs.splicePoint_spec ha hsp with
  | last hlast => exact absurd hn (hlast r.node ⟨r, hr, .refl⟩)
  | @before x user chain hx hd hbelow hg _ hc =>
    have hmem : x ∈ line := by
      refine ((hline.onSpine_iff hr hends).1 hx).resolve_right ?_
      rintro rfl
      obtain ⟨b, hb, -⟩ := TransGen.head'_iff.1 hd
      obtain ⟨-, i, hi⟩ := Graph.needs_iff.1 hb
      rw [hs.entry.2] at hi
      cases hi
    obtain rfl : user = x := by
      rcases hg.cases_head with he | ⟨b, hb, -⟩
      · exact he.symm
      · exact absurd hb.2 (hglue x hmem b hb.1)
    obtain ⟨pre, rest, i, u, rfl, hupper, hi, hu, hlower⟩ := hline.parts hmem
    obtain rfl := (hc u).2 hu
    refine ⟨pre, user, u, rest, rfl, hsp, ⟨i, hupper, hi⟩, hu, hlower, hd, fun b hb => hbelow b ?_⟩
    rw [List.mem_append, List.mem_singleton] at hb
    exact TransGen.head' ⟨u.result, hu⟩ ((hlower.follows_iff hends).2 hb)

namespace Gap

variable (h : Gap g n r pre x u rest)

include h

theorem contains : g.contains x := by
  obtain ⟨b, hb, -⟩ := TransGen.head'_iff.1 h.depends
  exact hb.1

theorem operand : (g.node x).operands[0]? = some (some u) :=
  (Graph.chain_eq_follows.1 h.chain).1

/-- The chain that the call takes does not depend on the node. -/
theorem free_chain : ¬ TransGen g.Needs u.node n := by
  refine h.free u.node ?_
  cases h.lower <;> simp

theorem ne_chain (htypes : (g.node n).types = [.i32]) : u.node ≠ n := by
  rintro rfl
  have ht := (Graph.chain_eq_follows.1 h.chain).2
  rw [Graph.type?_eq, htypes] at ht
  cases List.mem_singleton.1 (List.mem_of_getElem? ht)

theorem takes (hs : g.Sound) (hn : g.contains n) :
    ∀ v, some u = some v ∨ some v ∈ (g.node n).operands → g.Has v := by
  rintro v (hv | hv)
  · cases hv
    exact hs.has_operand h.contains (List.mem_of_getElem? h.operand)
  · exact hs.has_operand hn hv

/-- The call depends neither on what takes its chain nor on the node. -/
theorem apart (callee : String) (cc : CallConv) (hs : g.Sound) (ha : g.Acyclic)
    (hn : g.contains n) (htypes : (g.node n).types = [.i32]) :
    ¬ (withLibcall g callee cc (some u) (g.node n).operands).Reaches (g.entries.size + 1) x ∧
      ¬ (withLibcall g callee cc (some u) (g.node n).operands).Reaches (g.entries.size + 1) n := by
  have hux : g.Needs x u.node := Graph.Follows.needs ⟨u.result, h.chain⟩ h.contains
  have harg : ∀ {v : Value}, some v ∈ (g.node n).operands → g.Needs n v.node := fun hv =>
    Graph.needs_iff.2 ⟨hn, _, hv⟩
  constructor
  · intro hr
    obtain ⟨v, hv | hv, hr⟩ :=
      reaches_withLibcall_call hs (h.takes hs hn) (Graph.contains_lt h.contains) hr
    · cases hv
      exact ha.not_reaches hux hr
    · exact ha n (TransGen.head (harg hv) (TransGen.trans_right hr h.depends))
  · intro hr
    obtain ⟨v, hv | hv, hr⟩ := reaches_withLibcall_call hs (h.takes hs hn) (Graph.contains_lt hn) hr
    · cases hv
      rcases reflTransGen_iff_eq_or_transGen.1 hr with he | hr
      · exact h.ne_chain htypes he.symm
      · exact h.free_chain hr
    · exact ha.not_reaches (harg hv) hr

end Gap

/-! ### The graph with the call -/

section WithLibcall

variable {chain : Option Value} {args : List (Option Value)}

theorem withLibcall_sound (callee : String) (cc : CallConv) (hs : g.Sound) (ha : g.Acyclic)
    (hv : ∀ v, chain = some v ∨ some v ∈ args → g.Has v) :
    (withLibcall g callee cc chain args).Sound ∧ (withLibcall g callee cc chain args).Acyclic := by
  have hsymbol : ∀ v ∈ taken ([] : List (Option Value)), g.Has v := by simp [taken]
  have htaken : ∀ v ∈ taken (chain :: some ⟨g.entries.size, 0⟩ :: args),
      (g.newNode .externalSymbol [.i32] [] (.symbol callee 0)).1.Has v := by
    intro v hmem
    obtain ⟨o, ho, rfl⟩ := List.mem_filterMap.1 hmem
    rcases List.mem_cons.1 ho with ho | ho
    · exact Graph.has_newNode (hv v (.inl ho.symm))
    · rcases List.mem_cons.1 ho with ho | ho
      · cases ho
        exact ⟨by simp [Graph.contains_newNode], by rw [Graph.type?_newNode_self]; rfl⟩
      · exact Graph.has_newNode (hv v (.inr ho))
  exact ⟨(hs.newNode hsymbol).newNode htaken, (ha.newNode hs hsymbol).newNode
    (hs.newNode hsymbol) htaken⟩

end WithLibcall

theorem rewireBy_call {call : Nat} (o : Option Value) (hm : m ≠ call) :
    Graph.rewireBy (fun i => ([some (⟨call, 0⟩ : Value)][i]?).join) n m o =
      if o = some ⟨n, 0⟩ then some ⟨call, 0⟩ else o := by
  rcases o with - | ⟨a, k⟩
  · rfl
  · by_cases ha : a = n
    · rcases k with - | k
      · simp [Graph.rewireBy, ha, hm.symm]
      · simp [Graph.rewireBy, ha]
    · simp [Graph.rewireBy, ha]

/-- The graph after a library call for `n` has joined the chain before `x` and has taken the place
of `n`. -/
structure Inserted (g g' : Graph) (n x : Nat) (u : Value) (call : Nat) : Prop where
  fresh : ¬ g.contains call
  contains : ∀ m, g.contains m → g'.contains m
  type? : ∀ v : Value, g.contains v.node → g'.type? v = g.type? v
  root : g'.root = g.root
  isCall : (g'.node call).op = .call ∧ (g'.node call).types = [.i32, .chain]
  takes : (g'.node call).operands[0]? = some (some u)
  /-- Only the operand of `x` and those that were results of `n` are others. -/
  operands : ∀ m, g.contains m → ∀ i, (g'.node m).operands[i]? =
    (g.node m).operands[i]?.map fun o => if m = x ∧ i = 0 then some ⟨call, 1⟩ else if o =
    some ⟨n, 0⟩ then some ⟨call, 0⟩ else o

namespace Gap

theorem splice (h : Gap g n r pre x u rest) (callee : String) (cc : CallConv) (hs : g.Sound)
    (ha : g.Acyclic) (hn : g.contains n) (htypes : (g.node n).types = [.i32]) : ∃ g₁,
      splice? g callee cc (g.node n).operands (some x, some u) = some g₁ ∧ g₁.Sound ∧ g₁.Acyclic ∧
      (withLibcall g callee cc (some u) (g.node n).operands).Updated g₁ ⟨x, 0⟩
      ⟨g.entries.size + 1, 1⟩ ∧ ¬ g₁.Reaches (g.entries.size + 1) n := by
  have hlt := Graph.contains_lt h.contains
  have hx : g.Extends (withLibcall g callee cc (some u) (g.node n).operands) := withLibcall_extends
  obtain ⟨hs₂, ha₂⟩ := withLibcall_sound callee cc hs ha (h.takes hs hn)
  obtain ⟨hax, han⟩ := h.apart callee cc hs ha hn htypes
  obtain ⟨g₁, hg₁⟩ : ∃ g₁, splice? g callee cc (g.node n).operands (some x, some u) = some g₁ := by
    refine Option.ne_none_iff_exists'.1 fun hnone => ?_
    rw [splice?, Graph.Exact.updateOperand_eq_none, hx.node x hlt, h.operand] at hnone
    cases hnone
  obtain ⟨hs₁, hu⟩ := hs₂.updateOperand ((hx.contains x hlt).trans h.contains)
    (withLibcall_result (by decide)).1 hg₁
  exact ⟨g₁, hg₁, hs₁, ha₂.updated hu hax, hu, fun hr => han (hu.reaches hax hr)⟩

theorem inserted (h : Gap g n r pre x u rest) (callee : String) (cc : CallConv) (hs : g.Sound)
    (ha : g.Acyclic) (hn : g.contains n) (htypes : (g.node n).types = [.i32]) (hr : g.root = some r)
    (hne : r.node ≠ n) : ∃ g₁ g',
      splice? g callee cc (g.node n).operands (some x, some u) = some g₁ ∧
      g₁.replaceNode n [some ⟨g.entries.size + 1, 0⟩] = .ok g' ∧ g'.Acyclic ∧
      Inserted g g' n x u (g.entries.size + 1) := by
  have hx : g.Extends (withLibcall g callee cc (some u) (g.node n).operands) := withLibcall_extends
  obtain ⟨g₁, hg₁, hs₁, ha₁, hu, hfree⟩ := h.splice callee cc hs ha hn htypes
  have hold : ∀ m, g.contains m → m < g.entries.size ∧ g₁.contains m := fun m hm =>
    ⟨Graph.contains_lt hm, (hu.contains m).trans ((hx.contains m (Graph.contains_lt hm)).trans hm)⟩
  obtain ⟨g', hg'⟩ : ∃ g', g₁.replaceNode n [some ⟨g.entries.size + 1, 0⟩] = .ok g' := by
    have htypes₁ : (g₁.node n).types = [.i32] := by
      rw [hu.node]
      split <;> rw [hx.node n (hold n hn).1, htypes]
    rw [Graph.replaceNode_eq, htypes₁, if_neg (by simp)]
    exact ⟨_, rfl⟩
  have hcall : g₁.Has ⟨g.entries.size + 1, 0⟩ := hu.has_iff.2 (withLibcall_result (by decide)).1
  have hvalid : ∀ v, some v ∈ [some (⟨g.entries.size + 1, 0⟩ : Value)] → g₁.Has v ∧ v.node ≠ n :=
      fun v hv => by
    cases List.mem_singleton.1 hv
    exact ⟨hcall, fun he => absurd (hold n hn).1 (by simp [← he])⟩
  obtain ⟨-, hrew⟩ := hs₁.replaceNode hvalid hg'
  have hnode : g₁.node (g.entries.size + 1) = ⟨.call, [.i32, .chain],
      (taken (some u :: some ⟨g.entries.size, 0⟩ :: (g.node n).operands)).map some,
      .call { callConv := cc }⟩ := by
    rw [hu.node, if_neg (by simpa using fun he => absurd (hold x h.contains).1 (by omega)),
      node_withLibcall_call]
  refine ⟨g₁, g', hg₁, hg', ha₁.rewired hrew fun i v hv => ?_, ?_, fun m hm => ?_,
    fun v hv => ?_, ?_, ?_, ?_, fun m hm i => ?_⟩
  · rcases i with - | i
    · cases hv
      exact hfree
    · simp at hv
  · exact fun hc => absurd (hold _ hc).1 (by omega)
  · rw [hrew.contains]
    exact (hold m hm).2
  · rw [hrew.type?, hu.type?, hx.type? (hold _ hv).1]
  · rw [hrew.root, hu.root, root_withLibcall, hr]
    simp [Graph.rewireRoot, hne]
  · rw [hrew.node _ hcall.1, hnode]
    exact ⟨rfl, rfl⟩
  · rw [hrew.node _ hcall.1, hnode]
    simp [taken, Graph.rewireBy, h.ne_chain htypes]
  · have hlt := (hold m hm).1
    have hmap : (g'.node m).operands[i]? = (g₁.node m).operands[i]?.map fun o =>
        if o = some ⟨n, 0⟩ then some ⟨g.entries.size + 1, 0⟩ else o := by
      rw [hrew.node m (hold m hm).2, List.getElem?_map]
      exact congrArg (Option.map · _) (funext fun o => rewireBy_call o (by omega))
    rw [hmap, hu.node, hx.node m hlt]
    by_cases hmx : m = x
    · subst hmx
      rw [if_pos rfl, List.getElem?_set]
      rcases i with - | i
      · have hpos := (List.getElem?_eq_some_iff.1 h.operand).1
        simp [hpos]
      · simp
    · simp [hmx]

end Gap

/-! ### The chain after it, and what depends on the call -/

namespace Inserted

variable {call : Nat}

theorem chain_of_ne (h : Inserted g g' n x u call) (hs : g.Sound)
    (htypes : (g.node n).types = [.i32]) {w : Value} (hm : g.contains m) (hmx : m ≠ x)
    (hw : g.chain m = .follows w) : g'.chain m = .follows w := by
  obtain ⟨ho, ht⟩ := Graph.chain_eq_follows.1 hw
  have hne : w ≠ ⟨n, 0⟩ := by
    rintro rfl
    rw [Graph.type?_eq, htypes] at ht
    cases ht
  refine Graph.chain_eq_follows.2
    ⟨?_, (h.type? w (hs.has_operand hm (List.mem_of_getElem? ho)).1).trans ht⟩
  rw [h.operands m hm, ho]
  simp [hmx, hne]

theorem thread (h : Inserted g g' n x u call) (hs : g.Sound)
    (htypes : (g.node n).types = [.i32]) {v w : Value} {l : List Nat} (hl : g.Thread v l w)
    (hv : g.contains v.node) (hx : x ∉ l) : g'.Thread v l w := by
  have hmem : ∀ m ∈ l, g.contains m ∧ m ≠ x := fun m hm =>
    ⟨hs.contains_of_follows hv (hl.follows hm), fun he => hx (he ▸ hm)⟩
  exact hl.congr (fun m hm w hw => h.chain_of_ne hs htypes (hmem m hm).1 (hmem m hm).2 hw)
    fun m hm i hi => (h.type? ⟨m, i⟩ (hmem m hm).1).trans hi

/-- The call stands on the chain right below `x`. -/
theorem thread_call (h : Inserted g g' n x u call) (hg : Gap g n r pre x u rest) (hs : g.Sound)
    (ha : g.Acyclic) (htypes : (g.node n).types = [.i32]) (hr : g.contains r.node) :
    g'.Thread r (pre ++ x :: call :: rest) Graph.entry := by
  obtain ⟨i, hupper, hi⟩ := hg.upper
  have hu : g.Needs x u.node := Graph.Follows.needs ⟨u.result, hg.chain⟩ hg.contains
  have hcu := hs.contains_of_needs hu
  have hbelow : x ∉ rest := fun hm =>
    ha.not_reaches hu (hs.reaches_of_follows hcu (hg.lower.follows hm))
  have hchain : g'.type? u = some .chain :=
    (h.type? u hcu).trans (Graph.chain_eq_follows.1 hg.chain).2
  have hcall : g'.type? ⟨call, 1⟩ = some .chain := by
    rw [Graph.type?_eq, h.isCall.2]
    rfl
  refine (h.thread hs htypes hupper hr (hupper.notMem_end hs ha hr)).trans
    (.step ((h.type? ⟨x, i⟩ hg.contains).trans hi) (u := ⟨call, 1⟩) ?_
      (.step hcall (Graph.chain_eq_follows.2 ⟨h.takes, hchain⟩)
      (h.thread hs htypes hg.lower hcu hbelow)))
  refine Graph.chain_eq_follows.2 ⟨?_, hcall⟩
  rw [h.operands x hg.contains, hg.operand]
  simp

/-- What depended on the node depends on the call. -/
theorem depends (h : Inserted g g' n x u call) (hg : Gap g n r pre x u rest) (hs : g.Sound)
    (ha : g.Acyclic) (htypes : (g.node n).types = [.i32]) (hm : TransGen g.Needs m n) :
    TransGen g'.Needs m call := by
  -- the operand that `x` gives up leads to nothing that depends on the node
  have hslot : ∀ {a k : Nat} {w : Value}, (g.node a).operands[k]? = some (some w) →
      w.node = n ∨ TransGen g.Needs w.node n → ¬ (a = x ∧ k = 0) := by
    rintro a k w hw hor ⟨rfl, rfl⟩
    rw [hg.operand] at hw
    cases hw
    exact hor.elim (hg.ne_chain htypes) hg.free_chain
  induction hm using TransGen.head_induction_on with
  | @single a hn =>
    obtain ⟨hc, k, hk⟩ := Graph.needs_iff.1 hn
    obtain ⟨j, hj⟩ := List.mem_iff_getElem?.1 hk
    obtain rfl : k = 0 := by
      have hhas := (hs.has_operand hc hk).2
      rw [Graph.type?_eq, htypes] at hhas
      rcases k with - | k
      · rfl
      · simp at hhas
    refine .single (Graph.needs_iff.2 ⟨h.contains a hc, 0, List.mem_of_getElem? (i := j) ?_⟩)
    rw [h.operands a hc, hj]
    simp [hslot hj (.inl rfl)]
  | @head a b hn hb ih =>
    obtain ⟨hc, k, hk⟩ := Graph.needs_iff.1 hn
    obtain ⟨j, hj⟩ := List.mem_iff_getElem?.1 hk
    have hbn : b ≠ n := fun he => ha n (he ▸ hb)
    refine .head (Graph.needs_iff.2 ⟨h.contains a hc, k, List.mem_of_getElem? (i := j) ?_⟩) ih
    rw [h.operands a hc, hj]
    simp [hslot hj (.inr hb), hbn]

end Inserted

/-- In a sound graph without cycles let a chain without glue lead from the root to the entry token,
and let the root depend on `n`. The place for a call is before the operation on the chain that
depends on `n` and below which nothing does. When the call has taken the place of `n`, the graph has
no cycle, the root is the same, the call stands on the chain below that operation, what depended on
`n` depends on the call, and no other operand has changed. -/
theorem expand_inserts_call {l : Libcalls} {s : Session} (hs : s.graph.Sound) (ha : s.graph.Acyclic)
    (hr : s.graph.root = some r) (hline : s.graph.Thread r line Graph.entry)
    (hglue : ∀ a ∈ line, ∀ b, s.graph.Follows a b → ¬ s.graph.TakesGlue a b)
    (hlive : s.graph.Reaches r.node n) (hne : n ≠ r.node) :
    ∃ pre x u rest, line = pre ++ x :: rest ∧ s.graph.splicePoint (some n) = some (some x, some u) ∧
      s.graph.chain x = .follows u ∧ TransGen s.graph.Needs x n ∧
      (∀ b ∈ rest ++ [Graph.entry.node], ¬ TransGen s.graph.Needs b n) ∧
      ∀ callee, l.callees.lookup (s.graph.node n).op = some callee →
      (s.graph.node n).types = [.i32] →
        ∃ call s' g', outcome (l.expand n) s = (.ok [some ⟨call, 0⟩], s') ∧
          s'.graph.replaceNode n [some ⟨call, 0⟩] = .ok g' ∧
          ¬ s.graph.contains call ∧ (g'.node call).op = .call ∧
          g'.Acyclic ∧ g'.root = s.graph.root ∧ g'.Thread r (pre ++ x :: call :: rest) Graph.entry ∧
          (∀ m, TransGen s.graph.Needs m n → TransGen g'.Needs m call) ∧
          ∀ m, s.graph.contains m → ∀ i, (g'.node m).operands[i]? =
          (s.graph.node m).operands[i]?.map fun o =>
            if m = x ∧ i = 0 then some ⟨call, 1⟩ else if o =
            some ⟨n, 0⟩ then some ⟨call, 0⟩ else o := by
  have hroot : s.graph.contains r.node := (hs.has_root hr).1
  have hn := hs.contains_of_reaches hroot hlive
  have hdep := (reflTransGen_iff_eq_or_transGen.1 hlive).resolve_left hne
  obtain ⟨pre, x, u, rest, rfl, hsp, hgap⟩ := splicePoint_thread hs ha hr hline hglue hdep
  refine ⟨pre, x, u, rest, rfl, hsp, hgap.chain, hgap.depends, hgap.free,
    fun callee hcallee htypes => ?_⟩
  obtain ⟨g₁, g', hg₁, hg', hacyc, hins⟩ :=
    hgap.inserted callee l.callConv hs ha hn htypes hr hne.symm
  obtain ⟨s', hs', rfl⟩ : ∃ s', outcome (l.expand n) s =
    (.ok [some ⟨s.graph.entries.size + 1, 0⟩], s') ∧
      s'.graph = g₁ := by
    rw [outcome_expand, hcallee]
    simp only [htypes, hsp, hg₁, ne_eq, not_true_eq_false, if_false]
    exact ⟨_, rfl, rfl⟩
  exact ⟨s.graph.entries.size + 1, s', g', hs', hg', hins.fresh, hins.isCall.1, hacyc, hins.root,
    hins.thread_call hgap hs ha htypes hroot,
    fun m => hins.depends hgap hs ha htypes, hins.operands⟩

/-- The call for the division goes between the return and the entry token. -/
theorem expand_inserts_call_division : ∃ g call s' g', FunctionFile.parse divisionFile = .ok [g] ∧
    g.Thread ⟨3, 0⟩ [3] Graph.entry ∧
    outcome (Libcalls.standard.expand 2) ((target .builtIn).session g) =
    (.ok [some ⟨call, 0⟩], s') ∧ s'.graph.replaceNode 2 [some ⟨call, 0⟩] = .ok g' ∧
    g'.Thread ⟨3, 0⟩ [3, call] Graph.entry := by
  have h : holdsOfOnly (fun g : Graph =>
      decide (g.root = some ⟨3, 0⟩ ∧ g.type? ⟨3, 0⟩ = some .chain ∧ g.contains 3 ∧
        g.chain 3 = .follows Graph.entry ∧ 2 ∈ g.operandNodes 3 ∧ (g.node 2).op = .sdiv ∧
        (g.node 2).types = [.i32]) &&
      decide (∀ v ∈ (g.node 3).operands, g.operandType? v ≠ some .glue))
      (FunctionFile.parse divisionFile) = true := by
    exact FunctionFile.holdsOfOnly_join (by decide +kernel)
  obtain ⟨g, hparse, h⟩ := exists_of_holdsOfOnly h
  simp only [Bool.and_eq_true, decide_eq_true_eq] at h
  obtain ⟨⟨hroot, ht, hc, hchain, hq, hop, hi32⟩, hglue⟩ := h
  have hw := FunctionFile.parse_written hparse (List.mem_singleton_self g)
  have hline : g.Thread ⟨3, 0⟩ [3] Graph.entry := .single ht hchain
  obtain ⟨pre, x, u, rest, hl, -, -, -, -, hcall⟩ :=
    expand_inserts_call (n := 2) (l := Libcalls.standard) (s := (target .builtIn).session g)
    hw.sound hw.acyclic hroot hline
    (fun a ha b _ ⟨i, hi, hti⟩ => hglue (some ⟨b, i⟩) (List.mem_singleton.1 ha ▸ hi) hti)
    (.single ⟨hc, hq⟩) (by decide)
  obtain ⟨call, s', g', hout, hrep, -, -, -, -, hthread, -⟩ := hcall "__divsi3" (hop ▸ rfl) hi32
  obtain ⟨rfl, he⟩ := List.append_eq_singleton_iff.1 hl.symm |>.resolve_right fun h => by cases h.2
  cases he
  exact ⟨g, call, s', g', hparse, hline, hout, hrep, hthread⟩

end GraphLowering.Usim
