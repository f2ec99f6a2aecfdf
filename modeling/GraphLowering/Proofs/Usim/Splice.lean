import GraphLowering.Proofs.Usim.Pairing

/-!
# Library calls on the chain

A library call that takes the place of a node joins the chain of the root. It goes before the
deepest operation that depends on the node, and before the copies into registers to which that one
is glued. Nothing but these copies gets from elsewhere to the place where the call goes
(`Spot.deep`), so no cycle comes of it. `Spliced` says what the graph is then.
-/

namespace GraphLowering.Usim

open GraphLowering.Graph (taken SplicePoint)
open Lower (Session Lowering Libcalls)
open Lower.Lowering
open Relation
open Subtarget (Features)

variable {f : Features} {S : Nat → Prop} {g g' g₁ g₁' : Graph} {s t : Session} {n a b : Nat}
  {v w : Value} {before : Option Nat} {chain : Option Value} {p : Option Nat}

theorem endsCopies_eq_false {op : Opcode} (h : followsCall op) : endsCopies op = false := by
  cases op <;> first | rfl | cases h

namespace Disciplined

/-- What gives glue to a node that does not read registers is a copy. -/
theorem isCopy_of_takesGlue (h : Disciplined p g) (ha : g.contains a)
    (hop : followsCall (g.node a).op = false) (hg : g.TakesGlue a b) : IsCopy g b := by
  obtain ⟨i, hi, ht⟩ := hg
  obtain ⟨k, hk⟩ := List.mem_iff_getElem?.1 hi
  have hslot : ¬ IsSlot g b := by
    intro hs
    rw [Graph.type?_eq, (h.slot b hs).1] at ht
    cases List.mem_singleton.1 (List.mem_of_getElem? ht)
  cases h.takes a ha k _ hk with
  | plain hp => exact absurd ht hp.type
  | mark hp => exact absurd ht hp.type
  | fence hp => exact absurd ht hp.type
  | glue _ hx => rw [hop] at hx; cases hx
  | copy hc => exact hc
  | load hs => exact absurd hs hslot
  | store hs => exact absurd hs hslot
  | add hs => exact absurd hs hslot

/-- A node that reads registers depends on a node only through its chain. -/
theorem needs_of_followsCall (h : Disciplined p g) (hn : Replaceable g n)
    (hop : followsCall (g.node a).op) (ha : TransGen g.Needs a n) :
    ∃ b, g.Follows a b ∧ TransGen g.Needs b n := by
  obtain ⟨b, hab, hbn⟩ := TransGen.head'_iff.1 ha
  obtain ⟨hc, i, hi⟩ := Graph.needs_iff.1 hab
  -- the node itself is no leaf that only names something, and no fence
  have hmark : ¬ IsMark g b := by
    intro hm
    rcases hbn.cases_head with rfl | ⟨k, hk, -⟩
    · exact hn.mark hm
    · obtain ⟨-, j, hj⟩ := Graph.needs_iff.1 hk
      rw [hm.1] at hj
      cases hj
  have hfence : ∀ k, isFence (g.node b).op → (g.node a).operands[0]? = some (some ⟨b, k⟩) →
      g.type? ⟨b, k⟩ = some .chain → ∃ b, g.Follows a b ∧ TransGen g.Needs b n := by
    intro k hf h0 ht
    refine ⟨b, ⟨k, Graph.chain_eq_follows.2 ⟨h0, ht⟩⟩, ?_⟩
    rcases reflTransGen_iff_eq_or_transGen.1 hbn with rfl | hbn
    · rw [hn.fence] at hf
      cases hf
    · exact hbn
  obtain ⟨j, hj⟩ := List.mem_iff_getElem?.1 hi
  cases h.takes a hc j _ hj with
  | plain _ hx => rw [hop] at hx; cases hx
  | mark _ hm => exact absurd hm hmark
  | fence _ hf ht hj0 => exact hfence i hf (hj0 ▸ hj) ht
  | glue _ _ ht _ k h0 =>
    cases h.takes a hc 0 _ h0 with
    | plain _ hx => rw [hop] at hx; cases hx
    | mark _ hm => exact absurd hm hmark
    | fence _ hf ht => exact hfence k hf h0 ht
    | glue _ _ _ h0 => exact absurd rfl h0
    | copy _ _ hx => rw [endsCopies_eq_false hop] at hx; cases hx
    | load _ hx => rw [hx] at hop; cases hop
    | store _ hx => rw [hx] at hop; cases hop
    | add _ hx => rw [hx] at hop; cases hop
  | copy _ _ hx => rw [endsCopies_eq_false hop] at hx; cases hx
  | load _ hx => rw [hx] at hop; cases hop
  | store _ hx => rw [hx] at hop; cases hop
  | add _ hx => rw [hx] at hop; cases hop

/-- Along a run of copies that are glued together, one gets to a copy only through the next one. -/
theorem reaches_of_glued (h : Disciplined p g) (ha : g.contains a)
    (hop : followsCall (g.node a).op = false) (hg : ReflTransGen g.GluedLink a b) :
    g.contains b ∧ followsCall (g.node b).op = false ∧ (b = a ∨ IsCopy g b) ∧
      ∀ c, ¬ IsCopy g c → g.Reaches c b → g.Reaches c a := by
  induction hg with
  | refl => exact ⟨ha, hop, .inl rfl, fun _ _ hr => hr⟩
  | @tail b c _ hlink ih =>
    obtain ⟨hb, hopb, -, hreach⟩ := ih
    obtain ⟨hfol, hglue⟩ := hlink
    have hcopy := h.isCopy_of_takesGlue hb hopb hglue
    have hbc := hfol.needs hb
    refine ⟨h.sound.contains_of_needs hbc, by rw [hcopy]; rfl, .inr hcopy, fun d hd hr => ?_⟩
    rcases hr.cases_tail with rfl | ⟨k, hdk, hkc⟩
    · exact absurd hcopy hd
    · exact hreach d hd (h.alone c k b hcopy hkc hbc ▸ hdk)

end Disciplined

/-- Where a call goes: before `user`, which takes `chain`. -/
structure Spot (g : Graph) (n user : Nat) (chain : Option Value) : Prop where
  contains : g.contains user
  op : followsCall (g.node user).op = false
  /-- What gets there depends on the node. -/
  deep : ∀ a, ¬ IsCopy g a → g.Reaches a user → TransGen g.Needs a n
  operands : ∀ v, some v ∈ (g.node user).operands →
    ¬ IsCopy g v.node ∧ (IsSlot g v.node → (g.node user).op = .store)
  takes : ∀ v, chain = some v ↔ g.chain user = .follows v
  above : ∀ v, chain = some v → Plain g v ∧ ¬ TransGen g.Needs v.node n
  onSpine : g.OnSpine user

variable {user : Nat}

theorem Disciplined.spot (h : Disciplined none g) (hn : Replaceable g n)
    (hsp : SplicePoint g n (some user) chain) : Spot g n user chain := by
  cases hsp with | @before deepest _ _ hs hd hbelow hg hu hc => ?_
  have hdeep : g.contains deepest := by
    obtain ⟨b, hb, -⟩ := TransGen.head'_iff.1 hd
    exact hb.1
  have hopd : followsCall (g.node deepest).op = false := by
    cases hop : followsCall (g.node deepest).op with
    | false => rfl
    | true =>
      obtain ⟨b, hb, hbn⟩ := h.needs_of_followsCall hn hop hd
      exact absurd hbn (hbelow b (.single hb))
  obtain ⟨hcu, hop, hcopy, hreach⟩ := h.reaches_of_glued hdeep hopd hg
  -- the user is a copy, or it depends on the node and so has more than leaves as operands
  have hleaves : (∀ w, some w ∈ (g.node user).operands → (g.node w.node).operands = [] ∧
      w.node ≠ n) → IsCopy g user := by
    intro hl
    rcases hcopy with rfl | hcopy
    · exfalso
      obtain ⟨b, hab, hbn⟩ := TransGen.head'_iff.1 hd
      obtain ⟨-, i, hi⟩ := Graph.needs_iff.1 hab
      obtain ⟨hnil, hne⟩ := hl _ hi
      rcases hbn.cases_head with rfl | ⟨k, hk, -⟩
      · exact hne rfl
      · obtain ⟨-, j, hj⟩ := Graph.needs_iff.1 hk
        rw [hnil] at hj
        cases hj
    · exact hcopy
  have hoperands : ∀ v, some v ∈ (g.node user).operands →
      ¬ IsCopy g v.node ∧ (IsSlot g v.node → (g.node user).op = .store) := by
    intro v hv
    obtain ⟨i, hi⟩ := List.mem_iff_getElem?.1 hv
    cases h.takes user hcu i v hi with
    | plain hp => exact ⟨hp.copy, fun hs => absurd hs hp.slot⟩
    | mark hp => exact ⟨hp.copy, fun hs => absurd hs hp.slot⟩
    | fence hp => exact ⟨hp.copy, fun hs => absurd hs hp.slot⟩
    | glue _ hx => rw [hop] at hx; cases hx
    | copy hcp ht hx h0 h1 =>
      have hty : ∀ k vt, [ValueType.chain, .glue][k]? = some vt →
          g.type? ⟨v.node, k⟩ = some vt := by
        intro k vt hk
        rw [Graph.type?_eq, ht, hk]
      have hfol : g.Follows user v.node := ⟨0, Graph.chain_eq_follows.2 ⟨h0, hty 0 _ rfl⟩⟩
      exact absurd ⟨1, h1, hty 1 _ rfl⟩ (hu _ hfol)
    | load hs hx ho =>
      have : IsCopy g user := hleaves fun w hw => by
        rw [ho] at hw
        simp only [List.mem_cons, Option.some.injEq, List.not_mem_nil, or_false] at hw
        rcases hw with rfl | rfl
        · refine ⟨by rw [h.sound.entry.2], ?_⟩
          rintro rfl
          have := hn.fence
          rw [h.sound.entry.2] at this
          cases this
        · exact ⟨(h.slot _ hs).2, fun he => hn.slot (he ▸ hs)⟩
      rw [IsCopy, hx] at this
      cases this
    | store hs hx =>
      refine ⟨fun hcp => ?_, fun _ => hx⟩
      have := hs.1
      rw [hcp] at this
      cases this
    | add hs hx _ c ho hw =>
      have : IsCopy g user := hleaves fun w hw' => by
        rw [ho] at hw'
        simp only [List.mem_cons, Option.some.injEq, List.not_mem_nil, or_false] at hw'
        rcases hw' with rfl | rfl
        · exact ⟨(h.slot _ hs).2, fun he => hn.slot (he ▸ hs)⟩
        · exact ⟨hw.2.2, fun he => hn.constant (he ▸ hw)⟩
      rw [IsCopy, hx] at this
      cases this
  have hfollows : ReflTransGen g.Follows deepest user := hg.lift id fun _ _ hl => hl.1
  refine ⟨hcu, hop, fun a ha hr => TransGen.trans_right (hreach a ha hr) hd, hoperands, hc,
    fun v hv => ⟨?_, ?_⟩, ?_⟩
  · obtain ⟨h0, ht⟩ := Graph.chain_eq_follows.1 ((hc v).1 hv)
    have hslot : ¬ IsSlot g v.node := by
      intro hs
      rw [Graph.type?_eq, (h.slot _ hs).1] at ht
      cases List.mem_singleton.1 (List.mem_of_getElem? ht)
    exact ⟨by simp [ht], (hoperands v (List.mem_of_getElem? h0)).1, hslot⟩
  · exact hbelow v.node (TransGen.tail' hfollows ⟨v.result, (hc v).1 hv⟩)
  · obtain ⟨r, hr, hrd⟩ := hs
    exact ⟨r, hr, hrd.trans hfollows⟩

/-! ### The call -/

theorem Matched.newNode {op : Opcode} {types : List ValueType} {operands : List (Option Value)}
    {payload : Payload} (h : Matched S g g') (hj : Sober g op types operands payload)
    (hb : ∀ v ∈ taken operands, S v.node) :
    Matched S (g.newNode op types operands payload).1 (g'.newNode op types operands payload).1 := by
  replace hj : Joins g none none op types operands payload := hj.joins h.left
  have hj' : Joins g' none none op types operands payload := hj.congr h.size
    (fun v hv => h.node _ (hb v hv)) fun v hv => h.contains _ (hb v hv)
  have hmem : ∀ id v, some v ∈ ((g.newNode op types operands payload).1.node id).operands →
      v ∈ taken operands ∧ id = g.entries.size ∨
        id ≠ g.entries.size ∧ some v ∈ (g.node id).operands := by
    intro id v hv
    rw [Graph.node_newNode] at hv
    split at hv <;> rename_i he
    · exact .inl ⟨by simpa using hv, he⟩
    · exact .inr ⟨he, hv⟩
  refine ⟨h.left.newNode hj, h.right.newNode hj', by simp [h.size], by simp [h.signature],
    by simp [h.frame], by simp [h.root], fun id hid => ?_, fun id hid => ?_, fun id hid => ?_,
    fun id v hid hv => ?_, fun id hid => ?_, fun id v hid hv hslot => ?_⟩
  · rw [Graph.node_newNode, Graph.node_newNode, h.size, h.node id hid]
  · rw [Graph.contains_newNode, Graph.contains_newNode, h.size, h.contains id hid]
  · rw [Graph.contains_newNode, h.size] at hid
    by_cases he : id = g.entries.size
    · exact h.fresh id (Nat.le_of_eq he.symm)
    · exact h.only id (by simpa [he] using hid)
  · rcases hmem id v hv with ⟨hv, -⟩ | ⟨-, hv⟩
    · exact hb v hv
    · exact h.closed id v hid hv
  · refine h.fresh id ?_
    rw [Graph.size_newNode] at hid
    omega
  · rcases hmem id v hv with ⟨-, rfl⟩ | ⟨hne, hv⟩
    · exact h.fresh _ (Nat.le_refl _)
    · have hid' : g.contains id := by simpa [Graph.contains_newNode, hne] using hid
      have hlt := (h.left.sound.has_operand hid' hv).lt
      exact h.slots id v hid' hv ((alike_newNode (Nat.ne_of_lt hlt)).isSlot.1 hslot)

theorem Matched.updated (h : Matched S g g') (hu : g.Updated g₁ ⟨user, 0⟩ w)
    (hu' : g'.Updated g₁' ⟨user, 0⟩ w) (hd : Disciplined none g₁) (hd' : Disciplined none g₁')
    (hw : S w.node ∧ Plain g w) : Matched S g₁ g₁' := by
  have hmem : ∀ id v, some v ∈ (g₁.node id).operands → v = w ∨ some v ∈ (g.node id).operands := by
    intro id v hv
    rw [hu.node] at hv
    split at hv
    · rcases List.mem_or_eq_of_mem_set hv with hv | hv
      · exact .inr hv
      · exact .inl (Option.some.inj hv)
    · exact .inr hv
  refine ⟨hd, hd', ?_, ?_, ?_, ?_, fun m hm => ?_, fun m hm => ?_, fun m hm => ?_,
    fun m v hm hv => ?_, fun m hm => ?_, fun m v hm hv hslot => ?_⟩
  · rw [hu.size, hu'.size, h.size]
  · rw [hu.signature, hu'.signature, h.signature]
  · rw [hu.frame, hu'.frame, h.frame]
  · rw [hu.root, hu'.root, h.root]
  · rw [hu.node, hu'.node, h.node m hm]
  · rw [hu.contains, hu'.contains, h.contains m hm]
  · exact h.only m (hu'.contains m ▸ hm)
  · rcases hmem m v hv with rfl | hv
    · exact hw.1
    · exact h.closed m v hm hv
  · exact h.fresh m (hu.size ▸ hm)
  · have hslot' := (Disciplined.alike_updated hu _).isSlot.1 hslot
    rcases hmem m v hv with rfl | hv
    · exact absurd hslot' hw.2.slot
    · exact h.slots m v (hu.contains m ▸ hm) hv hslot'

theorem Matched.reroot (h : Matched S g g') (hv : g.Has v) (hp : Plain g v) (hS : S v.node) :
    Matched S { g with root := some v } { g' with root := some v } :=
  ⟨h.left.of_root hv hp, h.right.of_root ((h.has_iff hS).2 hv) (h.plain hS hp), h.size, h.signature,
    h.frame, rfl, h.node, h.contains, h.only, h.closed, h.fresh, h.slots⟩

theorem Secure.updated {u : Use} (h : Secure f g v) (hu : g.Updated g₁ u w)
    (hfree : ¬ g.Reaches v.node u.user) : Secure f g₁ v := by
  refine ⟨hu.has_iff.2 h.has, (Disciplined.alike_updated hu _).plain h.plain, fun k hk => ?_⟩
  have hk' := hu.reaches hfree hk
  have hnode : g₁.node k = g.node k := by
    rw [hu.node, if_neg]
    rintro rfl
    exact hfree hk'
  rw [isLegal_congr hnode fun w _ => hu.type? w]
  exact h.legal k hk'

/-- The graph with a call of a library function. -/
def withLibcall (g : Graph) (callee : String) (cc : CallConv) (chain : Option Value)
    (args : List (Option Value)) : Graph :=
  ((g.externalSymbol callee .i32).1.call chain (some (g.externalSymbol callee .i32).2) args [.i32]
    { callConv := cc }).1

section WithLibcall

variable {callee : String} {cc : CallConv} {args : List (Option Value)}

theorem withLibcall_eq : withLibcall g callee cc chain args =
    ((g.newNode .externalSymbol [.i32] [] (.symbol callee 0)).1.newNode .call [.i32, .chain]
      (chain :: some ⟨g.entries.size, 0⟩ :: args) (.call { callConv := cc })).1 :=
  rfl

theorem withLibcall_extends : g.Extends (withLibcall g callee cc chain args) :=
  (Graph.Extends.newNode ..).trans (.newNode ..)

@[simp] theorem size_withLibcall :
    (withLibcall g callee cc chain args).entries.size = g.entries.size + 2 := by
  rw [withLibcall_eq, Graph.size_newNode, Graph.size_newNode]

@[simp] theorem root_withLibcall : (withLibcall g callee cc chain args).root = g.root := by
  rw [withLibcall_eq, Graph.root_newNode, Graph.root_newNode]

theorem node_withLibcall_symbol : (withLibcall g callee cc chain args).node g.entries.size =
    ⟨.externalSymbol, [.i32], [], .symbol callee 0⟩ := by
  rw [withLibcall_eq, Graph.node_newNode_of_ne _ _ _ _ _ (by simp), Graph.node_newNode_self]
  rfl

theorem node_withLibcall_call : (withLibcall g callee cc chain args).node (g.entries.size + 1) =
    ⟨.call, [.i32, .chain], (taken (chain :: some ⟨g.entries.size, 0⟩ :: args)).map some,
      .call { callConv := cc }⟩ := by
  rw [withLibcall_eq, Graph.node_newNode, if_pos (by simp)]

theorem contains_withLibcall (m : Nat) : (withLibcall g callee cc chain args).contains m =
    (decide (m = g.entries.size ∨ m = g.entries.size + 1) || g.contains m) := by
  rw [withLibcall_eq, Graph.contains_newNode, Graph.contains_newNode, Graph.size_newNode]
  by_cases h₁ : m = g.entries.size <;> by_cases h₂ : m = g.entries.size + 1 <;> simp [h₁, h₂]

theorem needs_withLibcall_call : (withLibcall g callee cc chain args).Needs (g.entries.size + 1) b ↔
    (∃ v, chain = some v ∧ v.node = b) ∨ b = g.entries.size ∨ ∃ v, some v ∈ args ∧ v.node = b := by
  have hmem : ∀ v, some v ∈ chain :: some (⟨g.entries.size, 0⟩ : Value) :: args ↔
      chain = some v ∨ v = ⟨g.entries.size, 0⟩ ∨ some v ∈ args := by
    intro v
    simp [eq_comm]
  rw [Graph.needs_iff, contains_withLibcall, node_withLibcall_call]
  simp only [List.mem_map, Option.some.injEq, exists_eq_right, taken, List.mem_filterMap, hmem]
  constructor
  · rintro ⟨-, i, h | h | h⟩
    · exact .inl ⟨_, h, rfl⟩
    · cases h
      exact .inr (.inl rfl)
    · exact .inr (.inr ⟨_, h, rfl⟩)
  · rintro (⟨v, h, rfl⟩ | rfl | ⟨v, h, rfl⟩)
    · exact ⟨by simp, v.result, .inl h⟩
    · exact ⟨by simp, 0, .inr (.inl rfl)⟩
    · exact ⟨by simp, v.result, .inr (.inr h)⟩

theorem Matched.addLibcall (h : Matched S g g')
    (hv : ∀ v, chain = some v ∨ some v ∈ args → g.Has v ∧ Plain g v ∧ S v.node) :
    Matched S (withLibcall g callee cc chain args) (withLibcall g' callee cc chain args) := by
  have hsymbol : Matched S (g.newNode .externalSymbol [.i32] [] (.symbol callee 0)).1
      (g'.newNode .externalSymbol [.i32] [] (.symbol callee 0)).1 :=
    h.newNode (.ordinary rfl (by decide) (by decide) (by simp [taken])) (by simp [taken])
  rw [withLibcall_eq, withLibcall_eq, h.size]
  have hmem : ∀ v ∈ taken (chain :: some (⟨g.entries.size, 0⟩ : Value) :: args),
      v = ⟨g.entries.size, 0⟩ ∨ g.Has v ∧ Plain g v ∧ S v.node := by
    intro v hmem
    obtain ⟨o, ho, rfl⟩ := List.mem_filterMap.1 hmem
    rcases List.mem_cons.1 ho with ho | ho
    · exact .inr (hv v (.inl ho.symm))
    · rcases List.mem_cons.1 ho with ho | ho
      · exact .inl (Option.some.inj ho)
      · exact .inr (hv v (.inr ho))
  refine hsymbol.newNode (.ordinary rfl (by decide) (by decide) fun v hv => ?_) fun v hv => ?_
  · rcases hmem v hv with rfl | ⟨hhas, hp, -⟩
    · have hnode := Graph.node_newNode_self g .externalSymbol [.i32] [] (.symbol callee 0)
      refine ⟨⟨by simp [Graph.contains_newNode], ?_⟩, ?_, ?_, ?_⟩
      · rw [Graph.type?_newNode_self]
        rfl
      · rw [Graph.type?_newNode_self]
        decide
      · rw [IsCopy, hnode]
        simp
      · rw [IsSlot, hnode]
        exact fun hs => by cases hs.1
    · exact ⟨(Graph.Extends.newNode ..).has hhas, (alike_newNode (Nat.ne_of_lt hhas.lt)).plain hp⟩
  · rcases hmem v hv with rfl | ⟨-, -, hS⟩
    · exact h.fresh _ (Nat.le_refl _)
    · exact hS

/-- The results of the call are values that every operation may take. -/
theorem withLibcall_result {i : Nat} (hi : i < 2) :
    (withLibcall g callee cc chain args).Has ⟨g.entries.size + 1, i⟩ ∧
      Plain (withLibcall g callee cc chain args) ⟨g.entries.size + 1, i⟩ := by
  have hnode : (withLibcall g callee cc chain args).node (g.entries.size + 1) = _ :=
    node_withLibcall_call
  have htype : ∃ vt, vt ≠ .glue ∧
      (withLibcall g callee cc chain args).type? ⟨g.entries.size + 1, i⟩ = some vt := by
    rw [Graph.type?_eq, hnode]
    obtain rfl | rfl : i = 0 ∨ i = 1 := by omega
    · exact ⟨.i32, by decide, rfl⟩
    · exact ⟨.chain, by decide, rfl⟩
  obtain ⟨vt, hvt, ht⟩ := htype
  refine ⟨⟨by simp [contains_withLibcall], by simp [ht]⟩, by simpa [ht] using hvt, ?_, ?_⟩
  · rw [IsCopy, hnode]
    simp
  · rw [IsSlot, hnode]
    exact fun hs => by cases hs.1

theorem reaches_withLibcall_call (hs : g.Sound)
    (hv : ∀ v, chain = some v ∨ some v ∈ args → g.Has v) (ha : a < g.entries.size)
    (hr : (withLibcall g callee cc chain args).Reaches (g.entries.size + 1) a) :
    ∃ v, (chain = some v ∨ some v ∈ args) ∧ g.Reaches v.node a := by
  rcases hr.cases_head with he | ⟨b, hn, hr⟩
  · omega
  have hold : ∀ v, chain = some v ∨ some v ∈ args → v.node = b → g.Reaches v.node a := by
    rintro v hv' rfl
    exact (withLibcall_extends.reaches_iff hs (hv v hv').lt).1 hr
  rcases needs_withLibcall_call.1 hn with ⟨v, hc, hb⟩ | rfl | ⟨v, hc, hb⟩
  · exact ⟨v, .inl hc, hold v (.inl hc) hb⟩
  · rcases hr.cases_head with he | ⟨k, hk, -⟩
    · omega
    · obtain ⟨-, i, hi⟩ := Graph.needs_iff.1 hk
      rw [node_withLibcall_symbol] at hi
      cases hi
  · exact ⟨v, .inr hc, hold v (.inr hc) hb⟩

end WithLibcall

/-! ### The place of the node -/

/-- Operations that library functions compute. -/
def isArithmetic : Opcode → Bool
  | .mul | .sdiv | .udiv | .srem | .urem => true
  | _ => false

theorem Replaceable.of_isArithmetic (h : isArithmetic (g.node n).op) : Replaceable g n := by
  have hne : ∀ op, isArithmetic op = false → (g.node n).op ≠ op := fun op hop he => by
    rw [he, hop] at h
    cases h
  refine ⟨?_, ?_, fun hs => hne _ rfl hs.1, fun hm => ?_, fun hc => hne _ rfl hc.1⟩
  · generalize (g.node n).op = op at h
    cases op <;> first | rfl | cases h
  · generalize (g.node n).op = op at h
    cases op <;> first | rfl | cases h
  · exact hm.2.elim (hne _ rfl) (hne _ rfl)

/-- A node that a library call takes the place of. -/
structure Expandable (g : Graph) (n : Nat) : Prop where
  contains : g.contains n
  op : isArithmetic (g.node n).op
  types : (g.node n).types = [.i32]

/-- The graph with a library call at its place on the chain. -/
def splice? (g : Graph) (callee : String) (cc : CallConv) (args : List (Option Value)) :
    Option Nat × Option Value → Option Graph
  | (some user, chain) =>
    (withLibcall g callee cc chain args).updateOperand ⟨user, 0⟩ (some ⟨g.entries.size + 1, 1⟩)
  | (none, chain) =>
    some { withLibcall g callee cc chain args with root := some ⟨g.entries.size + 1, 1⟩ }

section Splice

variable {callee : String} {cc : CallConv}

theorem Expandable.operand (h : Expandable g n) (hd : Disciplined none g)
    (hv : some v ∈ (g.node n).operands) :
    g.Has v ∧ Plain g v ∧ ¬ g.Reaches v.node n ∧ g.Needs n v.node := by
  have hneeds : g.Needs n v.node := Graph.needs_iff.2 ⟨h.contains, v.result, hv⟩
  obtain ⟨i, hi⟩ := List.mem_iff_getElem?.1 hv
  refine ⟨hd.sound.has_operand h.contains hv, ?_, hd.acyclic.not_reaches hneeds, hneeds⟩
  refine (hd.takes n h.contains i v hi).of_takesPlain ?_
  have hop := h.op
  generalize (g.node n).op = op at hop
  cases op <;> first | rfl | cases hop

theorem Expandable.chain_spec (h : Expandable g n) (hd : Disciplined none g)
    (hsp : SplicePoint g n before chain) (hv : chain = some v) :
    g.Has v ∧ Plain g v ∧ (v.node ≠ n → ¬ g.Reaches v.node n) := by
  have hne : ∀ {a}, a ≠ n → ¬ TransGen g.Needs a n → ¬ g.Reaches a n := fun hne ht hr =>
    (reflTransGen_iff_eq_or_transGen.1 hr).elim (fun he => hne he.symm) ht
  cases before with
  | none =>
    cases hsp with | last hlast => ?_
    have hhas := hd.sound.has_root hv
    exact ⟨hhas, hd.root v hv, fun hvn => hne hvn (hlast _ ⟨v, hv, .refl⟩)⟩
  | some user =>
    have hspot := hd.spot (.of_isArithmetic h.op) hsp
    obtain ⟨h0, -⟩ := Graph.chain_eq_follows.1 ((hspot.takes v).1 hv)
    exact ⟨hd.sound.has_operand hspot.contains (List.mem_of_getElem? h0), (hspot.above v hv).1,
      fun hvn => hne hvn (hspot.above v hv).2⟩

theorem Expandable.takes (h : Expandable g n) (hd : Disciplined none g)
    (hsp : SplicePoint g n before chain) (hv : chain = some v ∨ some v ∈ (g.node n).operands) :
    g.Has v ∧ Plain g v := by
  rcases hv with hv | hv
  · exact ⟨(h.chain_spec hd hsp hv).1, (h.chain_spec hd hsp hv).2.1⟩
  · exact ⟨(h.operand hd hv).1, (h.operand hd hv).2.1⟩

theorem Expandable.disciplined (h : Expandable g n) (hd : Disciplined none g)
    (hsp : SplicePoint g n before chain) :
    Disciplined none (withLibcall g callee cc chain (g.node n).operands) :=
  ((Matched.refl hd).addLibcall fun _ hv =>
    ⟨(h.takes hd hsp hv).1, (h.takes hd hsp hv).2, trivial⟩).left

/-- Before its place on the chain, the call gets neither there nor to the node. -/
theorem Expandable.apart (h : Expandable g n) (hd : Disciplined none g)
    (hsp : SplicePoint g n (some user) chain) :
    ¬ (withLibcall g callee cc chain (g.node n).operands).Reaches (g.entries.size + 1) user ∧
      ¬ (withLibcall g callee cc chain (g.node n).operands).Reaches (g.entries.size + 1) n := by
  have hspot := hd.spot (.of_isArithmetic h.op) hsp
  have hhas : ∀ v, chain = some v ∨ some v ∈ (g.node n).operands → g.Has v := fun v hv =>
    (h.takes hd hsp hv).1
  constructor
  · intro hr
    obtain ⟨v, hv, hr⟩ :=
      reaches_withLibcall_call hd.sound hhas (Graph.contains_lt hspot.contains) hr
    rcases hv with hv | hv
    · have hfol : g.Follows user v.node := ⟨v.result, (hspot.takes v).1 hv⟩
      exact hd.acyclic.not_reaches (hfol.needs hspot.contains) hr
    · obtain ⟨-, hp, -, hneeds⟩ := h.operand hd hv
      exact hd.acyclic n (TransGen.head hneeds (hspot.deep v.node hp.copy hr))
  · intro hr
    obtain ⟨v, hv, hr⟩ := reaches_withLibcall_call hd.sound hhas (Graph.contains_lt h.contains) hr
    rcases hv with hv | hv
    · refine (h.chain_spec hd hsp hv).2.2 ?_ hr
      rintro rfl
      have ht := (Graph.chain_eq_follows.1 ((hspot.takes v).1 hv)).2
      rw [Graph.type?_eq, h.types] at ht
      cases List.mem_singleton.1 (List.mem_of_getElem? ht)
    · exact (h.operand hd hv).2.2.1 hr

theorem Expandable.updated (h : Expandable g n) (hd : Disciplined none g)
    (hsp : SplicePoint g n (some user) chain)
    (hg : splice? g callee cc (g.node n).operands (some user, chain) = some g₁) :
    (withLibcall g callee cc chain (g.node n).operands).Updated g₁ ⟨user, 0⟩
        ⟨g.entries.size + 1, 1⟩ ∧ Disciplined none g₁ := by
  have hspot := hd.spot (.of_isArithmetic h.op) hsp
  have hd₂ : Disciplined none (withLibcall g callee cc chain (g.node n).operands) :=
    h.disciplined hd hsp
  have hx : g.Extends (withLibcall g callee cc chain (g.node n).operands) := withLibcall_extends
  have hlt := Graph.contains_lt hspot.contains
  have hcall : (withLibcall g callee cc chain (g.node n).operands).Has ⟨g.entries.size + 1, 1⟩ ∧
    _ := withLibcall_result (by decide)
  obtain ⟨hs, hu⟩ := hd₂.sound.updateOperand ((hx.contains user hlt).trans hspot.contains) hcall.1
    hg
  refine ⟨hu, hd₂.updated hu hs hcall.2 (h.apart hd hsp).1 (hx.node user hlt ▸ hspot.op) ?_⟩
  intro v hv
  rw [hx.node user hlt] at hv ⊢
  have halike := alike_extends hx (hd.sound.has_operand hspot.contains hv).lt
  exact ⟨mt halike.isCopy.1 (hspot.operands v hv).1,
    fun hs => (hspot.operands v hv).2 (halike.isSlot.1 hs)⟩

/-- A library call joins two graphs at the same place, and its result may take the place of the
node. -/
theorem Matched.splice (h : Matched S g g') (hn : Expandable g n) (hS : S n)
    (hsp : SplicePoint g n before chain) (hsp' : SplicePoint g' n before chain)
    (hg : splice? g callee cc (g.node n).operands (before, chain) = some g₁)
    (hg' : splice? g' callee cc (g.node n).operands (before, chain) = some g₁') :
    Matched S g₁ g₁' ∧ Fits S g₁ n [some ⟨g.entries.size + 1, 0⟩] := by
  have hn' : Expandable g' n := ⟨(h.contains n hS).trans hn.contains, h.node n hS ▸ hn.op,
    h.node n hS ▸ hn.types⟩
  have hshared : ∀ v, chain = some v ∨ some v ∈ (g.node n).operands →
      g.Has v ∧ Plain g v ∧ S v.node := by
    intro v hv
    refine ⟨(hn.takes h.left hsp hv).1, (hn.takes h.left hsp hv).2, ?_⟩
    rw [← h.node n hS] at hv
    exact h.only _ (hn'.takes h.right hsp' hv).1.1
  have hm : Matched S (withLibcall g callee cc chain (g.node n).operands)
      (withLibcall g' callee cc chain (g.node n).operands) := h.addLibcall hshared
  have hcall : S (g.entries.size + 1) := h.fresh _ (Nat.le_succ _)
  have hlt := Graph.contains_lt hn.contains
  have hres : ∀ i < 2, (withLibcall g callee cc chain (g.node n).operands).Has
      ⟨g.entries.size + 1, i⟩ ∧ _ := fun i hi => withLibcall_result hi
  obtain ⟨hhas, hp⟩ := hres 0 (by decide)
  obtain ⟨hhas₁, hp₁⟩ := hres 1 (by decide)
  cases before with
  | some user =>
    obtain ⟨hu, hd⟩ := hn.updated h.left hsp hg
    rw [← h.node n hS] at hg'
    obtain ⟨hu', hd'⟩ := hn'.updated h.right hsp' hg'
    rw [h.node n hS, h.size] at hu'
    have halike := Disciplined.alike_updated hu
    refine ⟨hm.updated hu hu' hd hd' ⟨hcall, hp₁⟩, hS, ?_, ?_, .inl ?_⟩
    · refine .of_isArithmetic ?_
      rw [(halike n).op, withLibcall_extends.node n hlt]
      exact hn.op
    · intro o ho
      cases List.mem_singleton.1 ho
      exact ⟨_, rfl, hu.has_iff.2 hhas, (halike _).plain hp, hcall, by simpa using by omega⟩
    · intro v hv hr
      cases List.mem_singleton.1 hv
      exact (hn.apart h.left hsp).2 (hu.reaches (hn.apart h.left hsp).1 hr)
  | none =>
    cases hg
    cases hg'
    rw [h.size]
    refine ⟨hm.reroot hhas₁ hp₁ hcall, hS, ?_, ?_, .inr ⟨g.entries.size + 1, ?_, ?_⟩⟩
    · refine .of_isArithmetic ?_
      show isArithmetic ((withLibcall g callee cc chain (g.node n).operands).node n).op
      rw [withLibcall_extends.node n hlt]
      exact hn.op
    · intro o ho
      cases List.mem_singleton.1 ho
      exact ⟨_, rfl, hhas, ⟨hp.type, hp.copy, hp.slot⟩, hcall, by simpa using by omega⟩
    · intro v hv
      cases List.mem_singleton.1 hv
      rfl
    · intro b hb hne hr
      have hr' : (withLibcall g callee cc chain (g.node n).operands).Reaches b n := hr
      have hold : ∀ v, chain = some v ∨ some v ∈ (g.node n).operands → v.node = b →
          g.Reaches v.node n := by
        rintro v hv rfl
        exact (withLibcall_extends.reaches_iff h.left.sound (hshared v hv).1.lt).1 hr'
      rcases needs_withLibcall_call.1 hb with ⟨v, hv, rfl⟩ | rfl | ⟨v, hv, rfl⟩
      · exact (hn.chain_spec h.left hsp hv).2.2 hne (hold v (.inl hv) rfl)
      · rcases hr'.cases_head with he | ⟨k, hk, -⟩
        · omega
        · obtain ⟨-, i, hi⟩ := Graph.needs_iff.1 hk
          rw [node_withLibcall_symbol] at hi
          cases hi
      · exact (hn.operand h.left hv).2.2.1 (hold v (.inr hv) rfl)

theorem Expandable.isLegal_splice (h : Expandable g n) (hd : Disciplined none g)
    (hsp : SplicePoint g n before chain)
    (hg : splice? g callee cc (g.node n).operands (before, chain) = some g₁) :
    IsLegal f g₁ n ↔ IsLegal f g n := by
  have hx : g.Extends (withLibcall g callee cc chain (g.node n).operands) := withLibcall_extends
  rw [← isLegal_extends hx hd.sound h.contains]
  cases before with
  | none =>
    cases hg
    exact Iff.rfl
  | some user =>
    obtain ⟨hu, -⟩ := h.updated hd hsp hg
    refine isLegal_congr ?_ fun v _ => hu.type? v
    rw [hu.node, if_neg]
    rintro rfl
    have hspot := hd.spot (.of_isArithmetic h.op) hsp
    have hop := h.op
    refine hd.acyclic n (hspot.deep n (fun hc => ?_) .refl)
    rw [hc] at hop
    cases hop

theorem Matched.splice_eq_none (h : Matched S g g') (hn : Expandable g n) (hS : S n)
    (hsp : SplicePoint g n before chain) (hsp' : SplicePoint g' n before chain) :
    splice? g' callee cc (g.node n).operands (before, chain) = none ↔
      splice? g callee cc (g.node n).operands (before, chain) = none := by
  cases before with
  | none => simp [splice?]
  | some user =>
    have hn' : Expandable g' n := ⟨(h.contains n hS).trans hn.contains, h.node n hS ▸ hn.op,
      h.node n hS ▸ hn.types⟩
    have hc := (h.left.spot (.of_isArithmetic hn.op) hsp).contains
    have hc' := (h.right.spot (.of_isArithmetic hn'.op) hsp').contains
    rw [splice?, splice?, Graph.Exact.updateOperand_eq_none, Graph.Exact.updateOperand_eq_none,
      withLibcall_extends.node user (Graph.contains_lt hc),
      withLibcall_extends.node user (Graph.contains_lt hc'), h.node user (h.only user hc')]

end Splice

/-! ### Expansion -/

theorem outcome_expand (l : Libcalls) (n : Nat) (s : Session) : outcome (l.expand n) s =
    match l.callees.lookup (s.graph.node n).op with
    | none => outcome (unsupported n .noExpansion) s
    | some callee =>
      if (s.graph.node n).types ≠ [.i32] then
        outcome (unsupported n (.libcallTypes callee (s.graph.node n).types)) s
      else match s.graph.splicePoint (some n) with
        | none => (.error .malformed, s)
        | some place =>
          match splice? s.graph callee l.callConv (s.graph.node n).operands place with
          | none => (.error .malformed, { s with
              graph := withLibcall s.graph callee l.callConv place.2 (s.graph.node n).operands })
          | some g => (.ok [some ⟨s.graph.entries.size + 1, 0⟩], { s with
              graph := g
              log := s.log.push { level := .debug, message := "expanded to libcall", fields :=
                [("function", g.signature.name), ("op", (s.graph.node n).op.name),
                  ("callee", callee)] } }) := by
  rw [Libcalls.expand, outcome_bind, outcome_node]
  dsimp only
  cases l.callees.lookup (s.graph.node n).op with
  | none => rfl
  | some callee =>
    dsimp only
    split
    · rfl
    · cases hsp : s.graph.splicePoint (some n) with
      | none =>
        simp only [outcome_bind, outcome_graph, hsp]
        rfl
      | some place =>
        obtain ⟨before, chain⟩ := place
        have hsymbol : outcome (value (·.externalSymbol callee .i32)) s =
            (.ok (some ⟨s.graph.entries.size, 0⟩),
              { s with graph := (s.graph.externalSymbol callee .i32).1 }) := rfl
        have hcall : outcome (build (·.call chain (some ⟨s.graph.entries.size, 0⟩)
              (s.graph.node n).operands [.i32] { callConv := l.callConv }))
              { s with graph := (s.graph.externalSymbol callee .i32).1 } =
            (.ok (s.graph.entries.size + 1), { s with
              graph :=
                withLibcall s.graph callee l.callConv chain (s.graph.node n).operands }) := by
          rw [outcome_build, Graph.call, Graph.newNode_id]
          have hsize : (s.graph.externalSymbol callee .i32).1.entries.size =
              s.graph.entries.size + 1 := Graph.size_newNode ..
          rw [hsize]
          rfl
        simp only [outcome_bind, outcome_graph, hsp, outcome_orMalformed, required, hsymbol, hcall]
        cases before with
        | none => rfl
        | some user =>
          simp only [outcome_bind, outcome_graph, outcome_orMalformed, splice?]
          cases (withLibcall s.graph callee l.callConv chain
            (s.graph.node n).operands).updateOperand ⟨user, 0⟩
            (some ⟨s.graph.entries.size + 1, 1⟩) with
          | none => rfl
          | some g => rfl

/-- How an expansion leaves two sessions: a call joined the chain, and its result may take the place
of the node. -/
structure Expanded (f : Features) (S : Nat → Prop) (n : Nat) (s t s' t' : Session)
    (values : List (Option Value)) : Prop where
  paired : Paired f S s' t'
  node : Expandable s.graph n
  place : ∃ callee cc before chain, SplicePoint s.graph n before chain ∧
    splice? s.graph callee cc (s.graph.node n).operands (before, chain) = some s'.graph
  given : values = [some ⟨s.graph.entries.size + 1, 0⟩]
  fits : Fits S s'.graph n values

theorem Secure.splice {callee : String} {cc : CallConv} (h : Secure f g v)
    (hd : Disciplined none g) (hn : Expandable g n) (hl : ¬ IsLegal f g n)
    (hsp : SplicePoint g n before chain)
    (hg : splice? g callee cc (g.node n).operands (before, chain) = some g₁) : Secure f g₁ v := by
  have hx : g.Extends (withLibcall g callee cc chain (g.node n).operands) := withLibcall_extends
  cases before with
  | none =>
    cases hg
    exact h.extends hd.sound (hx.trans (.reroot ..))
  | some user =>
    have hspot := hd.spot (.of_isArithmetic hn.op) hsp
    refine (h.extends hd.sound hx).updated (hn.updated hd hsp hg).1 fun hr => ?_
    have hr' : g.Reaches v.node user := (hx.reaches_iff hd.sound h.has.lt).1 hr
    exact hl (h.legal n (hspot.deep v.node h.plain.copy hr').to_reflTransGen)

theorem Steady.splice {callee : String} {cc : CallConv} (h : Steady f none s)
    (hn : Expandable s.graph n) (hl : ¬ IsLegal f s.graph n)
    (hsp : SplicePoint s.graph n before chain)
    (hg : splice? s.graph callee cc (s.graph.node n).operands (before, chain) = some g₁)
    (hd₁ : Disciplined none g₁) : Steady f none { s with graph := g₁ } :=
  ⟨hd₁, fun vs hvs o ho => (h.formals vs hvs o ho).imp fun _ hv =>
    ⟨hv.1, hv.2.splice h.disciplined hn hl hsp hg⟩⟩

theorem Paired.expand (h : Paired f S s t) (l : Libcalls)
    (harith : ∀ op callee, l.callees.lookup op = some callee → isArithmetic op) (hid : S n)
    (hc : s.graph.contains n) (hl : ¬ IsLegal f s.graph n) :
    ∃ r s' t', outcome (l.expand n) s = (r, s') ∧ outcome (l.expand n) t = (r, t') ∧
      s'.graph.Acyclic ∧ ∀ vs, r = .ok vs → Expanded f S n s t s' t' vs := by
  have hnode := h.graphs.node n hid
  have hacyc := h.left.disciplined.acyclic
  have hunsupported : ∀ reason, ∃ e,
    outcome (unsupported n reason : Lowering (List (Option Value))) s =
      (.error e, s) ∧ outcome (unsupported n reason : Lowering (List (Option Value))) t =
        (.error e, t) := by
    intro reason
    refine ⟨.unsupported s.target s.graph.signature.name (s.opName (s.graph.node n).op)
      reason, rfl, ?_⟩
    rw [← h.target, ← h.graphs.signature, ← h.opName, ← hnode]
    rfl
  rw [outcome_expand, outcome_expand, hnode]
  cases hlookup : l.callees.lookup (s.graph.node n).op with
  | none =>
    obtain ⟨e, hs, ht⟩ := hunsupported .noExpansion
    exact ⟨_, _, _, hs, ht, hacyc, nofun⟩
  | some callee =>
    dsimp only
    by_cases htypes : (s.graph.node n).types = [.i32]
    swap
    · obtain ⟨e, hs, ht⟩ := hunsupported (.libcallTypes callee (s.graph.node n).types)
      rw [if_pos htypes, if_pos htypes]
      exact ⟨_, _, _, hs, ht, hacyc, nofun⟩
    rw [if_neg (not_not.2 htypes), if_neg (not_not.2 htypes)]
    have hplace : t.graph.splicePoint (some n) = s.graph.splicePoint (some n) :=
      h.graphs.agree.splicePoint h.left.disciplined.sound h.right.disciplined.sound h.graphs.size
        h.graphs.root fun v hv => h.graphs.shared_root hv
    rw [hplace]
    cases hsp : s.graph.splicePoint (some n) with
    | none => exact ⟨_, _, _, rfl, rfl, hacyc, nofun⟩
    | some place =>
      obtain ⟨before, chain⟩ := place
      have hsp₁ := h.left.disciplined.sound.splicePoint_spec hacyc hsp
      have hsp₂ := h.right.disciplined.sound.splicePoint_spec h.right.disciplined.acyclic
        (hplace.trans hsp)
      have hn : Expandable s.graph n := ⟨hc, harith _ _ hlookup, htypes⟩
      have hn' : Expandable t.graph n := ⟨(h.graphs.contains n hid).trans hc, hnode ▸ hn.op,
        hnode ▸ htypes⟩
      have hnone : splice? t.graph callee l.callConv (s.graph.node n).operands
        (before, chain) = none ↔
          splice? s.graph callee l.callConv (s.graph.node n).operands (before, chain) = none :=
        h.graphs.splice_eq_none hn hid hsp₁ hsp₂
      rw [h.graphs.size]
      dsimp only
      cases hg : splice? s.graph callee l.callConv (s.graph.node n).operands (before, chain) with
      | none =>
        rw [hnone.2 hg]
        exact ⟨_, _, _, rfl, rfl, (hn.disciplined h.left.disciplined hsp₁).acyclic, nofun⟩
      | some g₁ =>
        cases hg' : splice? t.graph callee l.callConv (s.graph.node n).operands (before, chain) with
        | none =>
          rw [hnone.1 hg'] at hg
          cases hg
        | some g₁' =>
          obtain ⟨hm, hfits⟩ := h.graphs.splice hn hid hsp₁ hsp₂ hg hg'
          refine ⟨_, _, _, rfl, rfl, hm.left.acyclic, fun vs hvs => ?_⟩
          cases hvs
          have hs := h.left.splice hn hl hsp₁ hg hm.left
          have ht := h.right.splice hn' ((h.isLegal_iff hid).not.2 hl) hsp₂ (hnode ▸ hg') hm.right
          exact ⟨⟨hm, ⟨hs.1, hs.2⟩, ⟨ht.1, ht.2⟩, h.formals, h.target, h.opName⟩, hn,
            ⟨callee, l.callConv, before, chain, hsp₁, hg⟩, rfl, hfits⟩

end GraphLowering.Usim
