import GraphLowering.Proofs.Usim.Lowered
import GraphLowering.Proofs.Usim.TailVerdict

/-!
# Rewrites keep the order of side effects

A node waits for those whose chain or glue it takes (`Graph.Waits`). In a graph in which every node
keeps the order, a path through a node that is replaced enters it by its chain result and leaves it
by its chain operand. The values in its place lead from the one to the other, so what waited for a
node before a rewrite waits for it afterwards (`Keeps`).
-/

namespace GraphLowering

open Relation

/-- A node takes a chain or glue of another. -/
def Graph.Waits (g : Graph) (a b : Nat) : Prop :=
  g.contains a ∧ ∃ v, some v ∈ (g.node a).operands ∧ v.node = b ∧
    (g.type? v = some .chain ∨ g.type? v = some .glue)

/-- The root waits for a node, or is a result of it. -/
def Graph.RootWaits (g : Graph) (x : Nat) : Prop :=
  ∃ r, g.root = some r ∧ ReflTransGen g.Waits r.node x

namespace Graph

variable {g g' : Graph} {a b : Nat}

theorem Waits.grow (h : g.Waits a b) (hs : g.Sound) (hx : g.Extends g') : g'.Waits a b := by
  obtain ⟨hc, v, hv, hb, ht⟩ := h
  have hlt := contains_lt hc
  refine ⟨(hx.contains a hlt).trans hc, v, hx.node a hlt ▸ hv, hb, ?_⟩
  rwa [hx.type? (hs.has_operand hc hv).lt]

theorem Waits.of_follows (h : g.Follows a b) (ha : g.contains a) : g.Waits a b := by
  obtain ⟨i, hi⟩ := h
  obtain ⟨ho, ht⟩ := chain_eq_follows.1 hi
  exact ⟨ha, _, List.mem_of_getElem? ho, rfl, .inl ht⟩

theorem waits_of_follows (h : ReflTransGen g.Follows a b) (hs : g.Sound) (ha : g.contains a) :
    ReflTransGen g.Waits a b := by
  induction h with
  | refl => exact .refl
  | tail hf hstep ih => exact ih.tail (.of_follows hstep (hs.contains_of_follows ha hf))

theorem waits_grow (h : ReflTransGen g.Waits a b) (hs : g.Sound) (hx : g.Extends g') :
    ReflTransGen g'.Waits a b :=
  h.lift (fun m => m) fun _ _ hw => hw.grow hs hx

theorem RootWaits.grow (h : g.RootWaits a) (hs : g.Sound) (hx : g.Extends g')
    (hroot : g'.root = g.root) : g'.RootWaits a := by
  obtain ⟨r, hr, hp⟩ := h
  exact ⟨r, hroot.trans hr, waits_grow hp hs hx⟩

end Graph

namespace Usim

open GraphLowering.Graph (taken Thread)
open FunctionFile (holdsOfOnly exists_of_holdsOfOnly)
open Lower (Session)
open Subtarget (Description)

variable {g g' : Graph} {id a b x : Nat} {n : Node} {v w : Value} {o : Option Value}
  {values : List (Option Value)} {s s' : Session}

/-! ### Ordered graphs -/

variable {op : Opcode}

theorem isName_of_isChained (h : isChained op) : isName op = false := by
  unfold isChained at h
  split at h <;> first | rfl | cases h

theorem isChained_of_chainResult? {i : Nat} (h : chainResult? n = some i) : isChained n.op := by
  by_contra hc
  rw [chainResult?_eq_none (Bool.eq_false_iff.2 hc)] at h
  cases h

theorem lt_of_isChained (h : isChained (g.node x).op) : x < g.entries.size := by
  by_contra hge
  rw [Graph.node_of_le (Nat.le_of_not_lt hge)] at h
  cases h

/-- Only an operation on the chain takes a chain first. -/
theorem Ordered.isChained {c : Value} (h : Ordered g n) (h0 : n.operands[0]? = some (some c))
    (hc : g.type? c = some .chain) : isChained n.op := by
  rcases h.takes 0 c h0 hc with ⟨hop, -⟩ | hop | ⟨hslot, -⟩
  · exact hop
  · rw [hop]
    rfl
  · unfold isNameSlot at hslot
    split at hslot <;> simp_all [Usim.isChained]

theorem Ordered.alike {n' : Node} (h : Ordered g n) (ha : Alike n n')
    (ht : ∀ i v, n'.operands[i]? = some (some v) → g'.type? v = some .chain →
      Usim.isChained n'.op ∧ i = 0 ∨ n'.op = .tokenFactor ∨ isNameSlot n'.op i ∧
      isName (g'.node v.node).op) :
    Ordered g' n' := by
  refine ⟨fun i hi => ?_, fun i hi => ?_, ht, fun hname => ha.leaf (h.name (ha.op ▸ hname))⟩
  · rw [ha.types] at hi
    rw [chainResult?, ha.op, ha.types, ← chainResult?]
    exact h.gives i hi
  · rw [chainResult?, ha.op, ha.types, ← chainResult?] at hi
    rw [ha.types]
    exact h.result i hi

/-- All nodes have their part in the order of the side effects. -/
def Orderly (g : Graph) : Prop := ∀ m, g.contains m → Ordered g (g.node m)

/-- The function ends in a chain. -/
def EndsInChain (g : Graph) : Prop := ∀ v, g.root = some v → g.type? v = some .chain

/-- The chain of the root leads to the entry token. -/
def Anchored (g : Graph) : Prop := ∀ r, g.root = some r → ∃ line, g.Thread r line Graph.entry

theorem Anchored.grow (h : Anchored g) (hs : g.Sound) (hx : g.Extends g')
    (hroot : g'.root = g.root) : Anchored g' := by
  intro r hr
  rw [hroot] at hr
  have hhas := hs.has_root hr
  obtain ⟨line, hline⟩ := h r hr
  exact ⟨line, hline.grow hs hhas.1 hx⟩

theorem Orderly.grow (h : Orderly g) (hs : g.Sound) (hx : g.Extends g')
    (hnew : ∀ m, g.entries.size ≤ m → m < g'.entries.size → Ordered g' (g'.node m)) :
    Orderly g' := by
  intro m hm
  by_cases hlt : m < g.entries.size
  · have hc : g.contains m := hx.contains m hlt ▸ hm
    rw [hx.node m hlt]
    exact (h m hc).grow (fun v hv => (hs.has_operand hc hv).lt) hx
  · exact hnew m (Nat.le_of_not_lt hlt) (Graph.contains_lt hm)

/-- Values in place of a node keep the order if those in place of its data are data. -/
theorem Orderly.rewired (h : Orderly g) (hid : g.contains id)
    (hr : g.Rewired g' id fun i => (values[i]?).join)
    (hdata : ∀ i o, chainResult? (g.node id) ≠ some i → values[i]? = some o → Datum g o) :
    Orderly g' := by
  intro m hm
  have hc : g.contains m := hr.contains m ▸ hm
  have halike := alike_rewired hr
  have hm' := h m hc
  refine hm'.alike (halike m) fun i v hi hv => ?_
  rw [hr.type?] at hv
  rw [(halike m).op, (halike v.node).op]
  rw [hr.node m hc, List.getElem?_map, Option.map_eq_some_iff] at hi
  obtain ⟨o, ho, hov⟩ := hi
  rcases Graph.rewireBy_cases hov with rfl | ⟨k, rfl, hk⟩
  · exact hm'.takes i v ho hv
  -- the value is a chain, so it is in place of one
  · have hres : chainResult? (g.node id) = some k := by
      by_contra hne
      exact hdata k _ hne (Option.join_eq_some_iff.1 hk) v rfl hv
    have htype : g.type? ⟨id, k⟩ = some .chain := by
      rw [Graph.type?_eq]
      exact (h id hid).result k hres
    rcases hm'.takes i _ ho htype with hchain | hop | ⟨-, hname⟩
    · exact .inl hchain
    · exact .inr (.inl hop)
    · rw [isName_of_isChained (isChained_of_chainResult? hres)] at hname
      cases hname

theorem Orderly.removeDead (h : Orderly g) (hs : g.Sound) : Orderly g.removeDead.1 := by
  have hnode : ∀ m, g.removeDead.1.node m = g.node m := fun m => by
    rw [Graph.removeDead_eq, Graph.node_removeNodes]
  intro m hm
  have hm' := h m (hs.contains_of_live (hs.contains_removeDead.1 hm))
  rw [hnode]
  refine ⟨hm'.gives, hm'.result, fun i v hi hv => ?_, hm'.name⟩
  rw [hnode]
  rw [Graph.type?_eq, hnode, ← Graph.type?_eq] at hv
  exact hm'.takes i v hi hv

theorem Orderly.reroot (h : Orderly g) (r : Option Value) :
    Orderly { g with root := r } := fun m hm =>
  ⟨(h m hm).gives, (h m hm).result, (h m hm).takes, (h m hm).name⟩

/-! ### Paths through a node that is replaced -/

theorem Disciplined.slot_ne_glue {p : Option Nat} (hd : Disciplined p g) (hs : IsSlot g v.node) :
    g.type? v ≠ some .glue := by
  intro ht
  rw [Graph.type?_eq, (hd.slot _ hs).1] at ht
  cases List.mem_singleton.1 (List.mem_of_getElem? ht)

/-- A node that neither takes nor gives glue, and joins no chains. -/
structure Passable (g : Graph) (id : Nat) : Prop where
  contains : g.contains id
  gives : givesGlue (g.node id).op = false
  ends : endsCopies (g.node id).op = false
  follows : followsCall (g.node id).op = false
  joins : (g.node id).op ≠ .tokenFactor

namespace Passable

variable (h : Passable g id) (hd : Disciplined none g)
include h hd

theorem result_ne_glue (i : Nat) : g.type? ⟨id, i⟩ ≠ some .glue := by
  intro ht
  rw [Graph.type?_eq] at ht
  have hg := (hd.gives id).1 (List.mem_of_getElem? ht)
  rw [h.gives] at hg
  cases hg

theorem operand_ne_glue (hv : some v ∈ (g.node id).operands) : g.type? v ≠ some .glue := by
  obtain ⟨i, hi⟩ := List.mem_iff_getElem?.1 hv
  cases hd.takes id h.contains i v hi with
  | plain hp => exact hp.type
  | mark hp => exact hp.type
  | fence hp => exact hp.type
  | glue _ hx =>
    rw [h.follows] at hx
    cases hx
  | copy _ _ hx =>
    rw [h.ends] at hx
    cases hx
  | load hs => exact hd.slot_ne_glue hs
  | store hs => exact hd.slot_ne_glue hs
  | add hs => exact hd.slot_ne_glue hs

/-- The node waits for its chain operand only, and for leaves. -/
theorem waits (ho : Orderly g) (hw : g.Waits id b) :
    (∃ c, (g.node id).operands[0]? = some (some c) ∧ g.type? c = some .chain ∧ c.node = b) ∨
      isName (g.node b).op := by
  obtain ⟨-, v, hv, rfl, ht⟩ := hw
  have hchain : g.type? v = some .chain := ht.resolve_right (h.operand_ne_glue hd hv)
  obtain ⟨i, hi⟩ := List.mem_iff_getElem?.1 hv
  rcases (ho id h.contains).takes i v hi hchain with ⟨-, rfl⟩ | hop | ⟨-, hname⟩
  · exact .inl ⟨v, hi, hchain, rfl⟩
  · exact absurd hop h.joins
  · exact .inr hname

end Passable

theorem eq_of_isName (ho : Orderly g) (hname : isName (g.node a).op)
    (h : ReflTransGen g.Waits a x) : x = a := by
  rcases h.cases_head with rfl | ⟨b, ⟨hc, v, hv, -⟩, -⟩
  · rfl
  · rw [(ho a hc).name hname] at hv
    cases hv

/-- Values that are put in place of a node, with a chain that leads on as that of the node did. -/
structure Rerouted (g g' : Graph) (id : Nat) (values : List (Option Value)) : Prop where
  rewired : g.Rewired g' id fun i => (values[i]?).join
  passable : Passable g id
  rejoined : Rejoined g (g.node id) values
  size : (g.node id).types.length ≤ values.length
  has : ∀ v, some v ∈ values → g.Has v
  apart : isChained (g.node id).op → ∀ v, some v ∈ values → ¬ g.Reaches v.node id

namespace Rerouted

variable (h : Rerouted g g' id values) (hd : Disciplined none g) (ho : Orderly g) (hs' : g'.Sound)
include h hd ho hs'

omit hs' in
/-- What is in place of a chain result leads to the chain operand. -/
theorem threads {k : Nat} {c : Value} (hk : g.type? ⟨id, k⟩ = some .chain)
    (hc : (g.node id).operands[0]? = some (some c)) (ht : g.type? c = some .chain) :
    ∃ u l, (values[k]?).join = some u ∧ g.type? u = some .chain ∧ ¬ g.Reaches u.node id ∧
      g'.contains u.node ∧ g'.Thread u l c := by
  have hpass := h.passable
  have hres : chainResult? (g.node id) = some k := by
    rw [Graph.type?_eq] at hk
    refine ((ho id hpass.contains).gives k hk).resolve_right fun hname => ?_
    rw [(ho id hpass.contains).name hname] at hc
    cases hc
  have hlt : k < values.length := by
    rw [Graph.type?_eq] at hk
    exact Nat.lt_of_lt_of_le (List.getElem?_eq_some_iff.1 hk).1 h.size
  obtain ⟨u, l, hu, hl⟩ := h.rejoined.chain k _ _ hres (List.getElem?_eq_getElem hlt) hc c rfl ht
  have hget : values[k]? = some (some u) := by rw [List.getElem?_eq_getElem hlt, hu]
  have hapart := h.apart (isChained_of_chainResult? hres) u (List.mem_of_getElem? hget)
  have hcu := (h.has u (List.mem_of_getElem? hget)).1
  have hid : id ∉ l := fun hm => hapart (hd.sound.reaches_of_follows hcu (hl.follows hm))
  have hcid : c.node ≠ id := by
    intro he
    refine hd.acyclic.not_reaches
      (Graph.needs_iff.2 ⟨hpass.contains, c.result, List.mem_of_getElem? hc⟩) ?_
    exact he ▸ .refl
  exact ⟨u, l, by rw [hget]; rfl, hl.type_start ht, hapart, (h.rewired.contains u.node).trans hcu,
    hl.rewired hd.sound hcu h.rewired hid hcid⟩

theorem leads {k : Nat} {c : Value} (hk : g.type? ⟨id, k⟩ = some .chain)
    (hc : (g.node id).operands[0]? = some (some c)) (ht : g.type? c = some .chain) :
    ∃ u, (values[k]?).join = some u ∧ g.type? u = some .chain ∧ ¬ g.Reaches u.node id ∧
      ReflTransGen g'.Waits u.node c.node := by
  obtain ⟨u, l, hu, htu, hapart, hcu, hl⟩ := h.threads hd ho hk hc ht
  exact ⟨u, hu, htu, hapart, Graph.waits_of_follows hl.follows_end hs' hcu⟩

/-- A path to an operation on the chain that does not start at the node stays, and from the node it
goes on from its chain operand. -/
theorem path (hx : x ≠ id) (hxc : isChained (g.node x).op) (hp : ReflTransGen g.Waits a x) :
    (a ≠ id → ReflTransGen g'.Waits a x) ∧
      (a = id → ∃ c, (g.node id).operands[0]? = some (some c) ∧ g.type? c = some .chain ∧
        ReflTransGen g'.Waits c.node x) := by
  have hr := h.rewired
  induction hp using ReflTransGen.head_induction_on with
  | refl => exact ⟨fun _ => .refl, fun he => absurd he hx⟩
  | @head a b hw hp ih =>
    refine ⟨fun ha => ?_, fun ha => ?_⟩
    · obtain ⟨hc, ⟨m, k⟩, hv, rfl, ht⟩ := hw
      have hc' : g'.contains a := (hr.contains a).trans hc
      have hoperand := hr.node a hc
      by_cases hm : m = id
      · subst hm
        obtain ⟨c, h0, htc, hcx⟩ := ih.2 rfl
        have hk : g.type? ⟨m, k⟩ = some .chain := ht.resolve_right (h.passable.result_ne_glue hd k)
        obtain ⟨u, hu, htu, hapart, hup⟩ := h.leads hd ho hs' hk h0 htc
        have hua : u.node ≠ a := by
          rintro rfl
          exact hapart (.single (Graph.needs_iff.2 ⟨hc, k, hv⟩))
        refine .head ⟨hc', u, ?_, rfl, .inl ((hr.type? u).trans htu)⟩ (hup.trans hcx)
        rw [hoperand]
        refine List.mem_map.2 ⟨_, hv, ?_⟩
        simp [Graph.rewireBy, hu, hua]
      · refine .head ⟨hc', ⟨m, k⟩, ?_, rfl, ?_⟩ (ih.1 hm)
        · rw [hoperand]
          refine List.mem_map.2 ⟨_, hv, ?_⟩
          simp [Graph.rewireBy, hm]
        · rwa [hr.type?]
    · subst ha
      have hba : b ≠ a := by
        rintro rfl
        obtain ⟨hc, v, hv, hvb, -⟩ := hw
        refine hd.acyclic.not_reaches (Graph.needs_iff.2 ⟨hc, v.result, hv⟩) ?_
        exact hvb ▸ .refl
      rcases h.passable.waits hd ho hw with ⟨c, h0, htc, rfl⟩ | hname
      · exact ⟨c, h0, htc, ih.1 hba⟩
      · rw [← eq_of_isName ho hname hp, isName_of_isChained hxc] at hname
        cases hname

theorem rootPath (hroot : isChained (g.node id).op → ∀ k, g.root = some ⟨id, k⟩ →
    g.type? ⟨id, k⟩ = some .chain) (hx : x ≠ id) (hxc : isChained (g.node x).op)
    (hp : g.RootWaits x) : g'.RootWaits x := by
  obtain ⟨r, hr, hp⟩ := hp
  have hroot' := h.rewired.root
  rw [hr] at hroot'
  by_cases hid : r.node = id
  · obtain ⟨m, k⟩ := r
    dsimp only at hid hp
    subst hid
    obtain ⟨c, h0, htc, hcx⟩ := (h.path hd ho hs' hx hxc hp).2 rfl
    have hk := hroot ((ho m h.passable.contains).isChained h0 htc) k hr
    obtain ⟨u, hu, -, -, hup⟩ := h.leads hd ho hs' hk h0 htc
    refine ⟨u, ?_, hup.trans hcx⟩
    rw [hroot']
    simp [Graph.rewireRoot, hu]
  · refine ⟨r, ?_, (h.path hd ho hs' hx hxc hp).1 hid⟩
    rw [hroot']
    simp [Graph.rewireRoot, hid]

omit hs' in
/-- A chain that does not start at the node leads where it did, and from the node the chain that is
in its place does. -/
theorem thread {l : List Nat} (hl : g.Thread v l w) (hv : g.contains v.node) (hw : w.node ≠ id) :
    (v.node ≠ id → ∃ l', g'.Thread v l' w) ∧
    (v.node = id → ∃ u l', (values[v.result]?).join = some u ∧
      g.type? u = some .chain ∧ ¬ g.Reaches u.node id ∧ g'.Thread u l' w) := by
  have hr := h.rewired
  induction hl with
  | refl => exact ⟨fun _ => ⟨[], .refl⟩, fun he => absurd he hw⟩
  | @step u v w l ht hu hl ih =>
    have hneeds : g.Needs v.node u.node := Graph.Follows.needs ⟨u.result, hu⟩ hv
    obtain ⟨hother, hsame⟩ := ih (hd.sound.contains_of_needs hneeds) hw
    obtain ⟨h0, htu⟩ := Graph.chain_eq_follows.1 hu
    constructor
    · intro hvid
      have hfollow : ∀ u', Graph.rewireBy (fun i => (values[i]?).join) id v.node
        (some u) = some u' →
          g.type? u' = some .chain → g'.chain v.node = .follows u' := by
        intro u' he ht'
        refine Graph.chain_eq_follows.2 ⟨?_, (hr.type? u').trans ht'⟩
        rw [hr.node v.node hv, List.getElem?_map, h0, Option.map_some, he]
      by_cases huid : u.node = id
      · obtain ⟨u', l', hu', htu', hapart, hl'⟩ := hsame huid
        have hne : u'.node ≠ v.node := by
          intro he
          exact hapart (he ▸ .single (huid ▸ hneeds))
        refine ⟨_, .step ((hr.type? v).trans ht) (hfollow u' ?_ htu') hl'⟩
        simp [Graph.rewireBy, huid, hu', hne]
      · obtain ⟨l', hl'⟩ := hother huid
        exact ⟨_, .step ((hr.type? v).trans ht) (hfollow u (by simp [Graph.rewireBy, huid]) htu)
          hl'⟩
    · intro hvid
      obtain ⟨m, k⟩ := v
      dsimp only at hvid hneeds h0
      subst hvid
      obtain ⟨u', l₁, hu', htu', hapart, -, hl₁⟩ := h.threads hd ho ht h0 htu
      have huid : u.node ≠ m := by
        intro he
        exact hd.acyclic.not_reaches hneeds (he ▸ .refl)
      obtain ⟨l₂, hl₂⟩ := hother huid
      exact ⟨u', _, hu', htu', hapart, hl₁.trans hl₂⟩

omit hs' in
theorem anchored (ha : Anchored g) (hid : Graph.entry.node ≠ id) : Anchored g' := by
  intro r' hr'
  rw [h.rewired.root, Option.map_eq_some_iff] at hr'
  obtain ⟨r, hr, rfl⟩ := hr'
  have hcr : g.contains r.node := (hd.sound.has_root hr).1
  obtain ⟨line, hline⟩ := ha r hr
  obtain ⟨hother, hsame⟩ := h.thread hd ho hline hcr hid
  by_cases hrid : r.node = id
  · obtain ⟨u, l, hu, -, -, hl⟩ := hsame hrid
    rw [Graph.rewireRoot, if_pos hrid, hu]
    exact ⟨l, hl⟩
  · rw [Graph.rewireRoot, if_neg hrid]
    exact hother hrid

end Rerouted

/-! ### Rewrites -/

/-- A return that the jump of a tail call has retired as the end of the function. -/
def Retired (g g' : Graph) (x : Nat) : Prop :=
  (g.node x).op = .ret ∧ g.root = some ⟨x, 0⟩ ∧ ∃ j, g'.root = some j ∧
    (g'.node j.node).op = Op.tailCall

/-- The order of the operations on the chain other than `n` is kept. -/
structure Keeps (g g' : Graph) (n : Nat) : Prop where
  waits : ∀ x y, x ≠ n → y ≠ n → isChained (g.node x).op → ReflTransGen g.Waits y x →
    ReflTransGen g'.Waits y x
  root : ∀ x, x ≠ n → isChained (g.node x).op → g.RootWaits x → g'.RootWaits x ∨ Retired g g' x

theorem Keeps.refl (g : Graph) (n : Nat) : Keeps g g n :=
  ⟨fun _ _ _ _ _ h => h, fun _ _ _ h => .inl h⟩

/-- Operations that neither take nor give glue and join no chains. -/
def isPassable : Opcode → Bool
  | .tokenFactor => false
  | op => !givesGlue op && !endsCopies op && !followsCall op

theorem Passable.of_op (hc : g.contains id) (h : isPassable (g.node id).op) : Passable g id := by
  have hne : (g.node id).op ≠ .tokenFactor := by
    intro hop
    rw [hop] at h
    cases h
  unfold isPassable at h
  split at h
  · cases h
  · simp only [Bool.and_eq_true, Bool.not_eq_true'] at h
    exact ⟨hc, h.1.1, h.1.2, h.2, hne⟩

theorem isPassable_of_isRewritten (h : isRewritten op) : isPassable op := by
  cases op <;> first | rfl | cases h

theorem isPassable_of_isArithmetic (h : isArithmetic op) : isPassable op := by
  cases op <;> first | rfl | cases h

theorem isPassable_of_isChoice (h : isChoice op) : isPassable op := by
  unfold isChoice at h
  split at h <;> first | rfl | cases h

theorem EndsInChain.grow (h : EndsInChain g) (hs : g.Sound) (hx : g.Extends g')
    (hroot : g'.root = g.root) : EndsInChain g' := by
  intro v hv
  rw [hroot] at hv
  have hhas := hs.has_root hv
  rw [hx.type? hhas.lt]
  exact h v hv

theorem EndsInChain.rewired (h : EndsInChain g) (ho : Orderly g) (hc : g.contains id)
    (hname : isName (g.node id).op = false) (hr : g.Rewired g' id fun i => (values[i]?).join)
    (htyped : ∀ i o, chainResult? (g.node id) = some i → values[i]? = some o → IsChain g o) :
    EndsInChain g' := by
  intro v hv
  rw [hr.root, Option.map_eq_some_iff] at hv
  obtain ⟨⟨m, k⟩, hroot, rfl⟩ := hv
  have ht := h _ hroot
  rw [hr.type?]
  rw [Graph.rewireRoot]
  split
  · rename_i hm
    cases hv : (values[k]?).join with
    | none => exact ht
    | some w =>
      dsimp only at hm
      subst hm
      have hres : chainResult? (g.node m) = some k := by
        rw [Graph.type?_eq] at ht
        refine ((ho m hc).gives k ht).resolve_right fun hn => ?_
        rw [hname] at hn
        cases hn
      obtain ⟨u, hu, htu⟩ := htyped k _ hres (Option.join_eq_some_iff.1 hv)
      cases hu
      exact htu
  · exact ht

/-- What holds of an ordered graph whose node is replaced. -/
structure Upkeep (g g' : Graph) (id : Nat) : Prop where
  ordered : Orderly g'
  root : EndsInChain g'
  keeps : Keeps g g' id
  anchored : Anchored g → Anchored g'

theorem size_of_replaceNode (h : g.replaceNode id values = .ok g') :
    values.length = (g.node id).types.length := by
  rw [Graph.replaceNode_eq] at h
  split at h
  · cases h
  · rename_i hlen
    exact not_not.1 hlen

variable {d : Description}

theorem upkeep_lowerNode {S : Nat → Prop} (hready : Ready .bare s)
    (hd : Disciplined none s.graph) (ho : Orderly s.graph) (hend : EndsInChain s.graph)
    (hc : s.graph.contains id)
    (hout : Lower.Lowering.outcome (lowerNode d id) s = (.ok (some values), s'))
    (hd' : Disciplined none s'.graph) (hop : isRewritten (s.graph.node id).op)
    (hf : Fits S s'.graph id values) (hapart : ∀ v, some v ∈ values → ¬ s'.graph.Reaches v.node id)
    (hg : s'.graph.replaceNode id values = .ok g) (hdg : Disciplined none g) :
    Upkeep s.graph g id := by
  have hready' : Ready ⟨fun _ => False, True, False, none⟩ s :=
    ⟨hready.shaped.under nofun fun _ => ho, hready.formals⟩
  have hrule := lowerNode_settles (d := d) (H :=
    (Known ⟨fun _ => False, True, False, none⟩ · id (s.graph.node id))) (fun _ h => h)
    (fun _ h => h) nofun
  obtain ⟨r, s₁, hout', hs', ⟨hx, -⟩, hsuits⟩ := (hrule.finds rfl).run rfl hready' fun _ =>
    (hready'.shaped.known rfl hc).extends
  cases hout.symm.trans hout'
  have hnode := hx.node id (Graph.contains_lt hc)
  have hc' : s'.graph.contains id := (hx.contains id (Graph.contains_lt hc)).trans hc
  have hreplaced := (hsuits _ (.refl _) _ rfl).2.replaced trivial
  rw [← hnode] at hreplaced hop
  have ho' : Orderly s'.graph := fun m hm => (hs'.shaped.fits m hm).ordered trivial
  have hr := hf.rewired hd' hg
  have hsize := size_of_replaceNode hg
  have hreroute : Rerouted s'.graph g id values :=
    ⟨hr, .of_op hc' (isPassable_of_isRewritten hop), hreplaced.toRejoined,
      Nat.le_of_eq hsize.symm, fun v hv => (hf.value hv).1, fun _ => hapart⟩
  have hname : isName (s'.graph.node id).op = false := by
    generalize (s'.graph.node id).op = op at hop
    cases op <;> first | rfl | cases hop
  have hentry : Graph.entry.node ≠ id := by
    rintro rfl
    rw [hd'.sound.entry.2] at hop
    cases hop
  have hchained : ∀ x, isChained (s.graph.node x).op → isChained (s'.graph.node x).op := by
    intro x hxc
    rw [hx.node x (lt_of_isChained hxc)]
    exact hxc
  have hwaits : ∀ x y, x ≠ id → y ≠ id → isChained (s.graph.node x).op →
      ReflTransGen s.graph.Waits y x → ReflTransGen g.Waits y x := fun x y hxid hyid hxc hp =>
    (hreroute.path hd' ho' hdg.sound hxid (hchained x hxc) (Graph.waits_grow hp hd.sound hx)).1 hyid
  have hordered : Orderly g := ho'.rewired hc' hr hreplaced.data
  -- where the root does not change, it is as any other node that waits
  have hstays : s'.graph.root = s.graph.root → Upkeep s.graph g id := by
    intro hroot
    have hend' := hend.grow hd.sound hx hroot
    refine ⟨hordered, hend'.rewired ho' hc' hname hr hreplaced.typed,
      ⟨hwaits, fun x hxid hxc hp => .inl ?_⟩,
      fun ha => hreroute.anchored hd' ho' (ha.grow hd.sound hx hroot) hentry⟩
    exact hreroute.rootPath hd' ho' hdg.sound (fun _ _ hk => hend' _ hk) hxid (hchained x hxc)
      (hp.grow hd.sound hx hroot)
  cases ending_lowerNode hready hc hout with
  | stays hroot => exact hstays hroot
  | @jump ret jump hcall hret hroot hlast hjump =>
    have hres : chainResult? (s'.graph.node id) = some (values.length - 1) := by
      rw [chainResult?, hnode, hcall, ← hnode, hsize]
    have hget : values[values.length - 1]? = some (some jump) := by
      rw [← hlast, List.getLast?_eq_getElem?]
    have hmem : some jump ∈ values := List.mem_of_getElem? hget
    have hroot' : g.root = some jump := by
      have hne : jump.node ≠ id := fun he => hapart jump hmem (he ▸ .refl)
      rw [hr.root, hroot]
      simp [Graph.rewireRoot, hne]
    refine ⟨hordered, fun v hv => ?_, ⟨hwaits, fun x hxid hxc hp => ?_⟩, fun ha v hv => ?_⟩
    · rw [hroot'] at hv
      cases hv
      obtain ⟨u, hu, ht⟩ := hreplaced.typed _ _ hres hget
      cases hu
      exact (hr.type? jump).trans ht
    · by_cases hxret : x = ret
      · subst hxret
        exact .inr ⟨hret.op, hret.root, jump, hroot', (alike_rewired hr _).op.trans hjump⟩
      -- the return waits for the call only
      obtain ⟨r, hroot₀, hp⟩ := hp
      rw [hret.root] at hroot₀
      cases hroot₀
      have hcret : s.graph.contains ret := (hd.sound.has_root hret.root).1
      obtain he | ⟨b, hw, hp⟩ := hp.cases_head
      · exact absurd he.symm hxret
      have hpass : Passable s.graph ret := .of_op hcret (by rw [hret.op]; rfl)
      have hb : b = id := by
        rcases hpass.waits hd ho hw with ⟨c, h0, -, rfl⟩ | hn
        · rw [hret.chain, Graph.outChain] at h0
          split at h0
          · cases h0
            rfl
          · cases h0
        · rw [← eq_of_isName ho hn hp, isName_of_isChained hxc] at hn
          cases hn
      subst hb
      obtain ⟨c, h0, htc, hcx⟩ :=
        (hreroute.path hd' ho' hdg.sound hxid (hchained x hxc) (Graph.waits_grow hp hd.sound hx)).2
          rfl
      have htype : s'.graph.type? ⟨b, values.length - 1⟩ = some .chain := by
        rw [Graph.type?_eq]
        exact (ho' b hc').result _ hres
      obtain ⟨u, hu, -, -, huc⟩ := hreroute.leads hd' ho' hdg.sound htype h0 htc
      rw [hget] at hu
      cases hu
      exact .inl ⟨jump, hroot', huc.trans hcx⟩
    · -- the chain of the return goes on from the call, and so does that of the jump in place of the
      -- call
      rw [hroot'] at hv
      cases hv
      obtain ⟨line, hline⟩ := ha _ hret.root
      cases hline with
      | refl =>
        have hop' : (s.graph.node Graph.entry.node).op = .ret := hret.op
        rw [hd.sound.entry.2] at hop'
        cases hop'
      | @step w _ _ l ht hw hl =>
        obtain ⟨h0, htw⟩ := Graph.chain_eq_follows.1 hw
        rw [hret.chain, Graph.outChain] at h0
        split at h0
        · cases h0
          have hlast' := ((ho id hc).gives _ (Graph.type?_eq _ _ ▸ htw)).resolve_right fun hn => by
            rw [← hnode, hname] at hn
            cases hn
          rw [show chainResult? (s.graph.node id) = some (values.length - 1) from hnode ▸ hres,
            Option.some.injEq] at hlast'
          obtain ⟨u, l', hu, -, -, hl'⟩ :=
            (hreroute.thread hd' ho' (hl.grow hd.sound hc hx) hc' hentry).2 rfl
          dsimp only at hu hlast'
          rw [← hlast', hget] at hu
          cases hu
          exact ⟨l', hl'⟩
        · cases h0

/-! ### Library calls -/

theorem Disciplined.first_ne_glue {p : Option Nat} (hd : Disciplined p g) (hc : g.contains a)
    (h0 : (g.node a).operands[0]? = some (some v)) : g.type? v ≠ some .glue := by
  cases hd.takes a hc 0 v h0 with
  | plain hp => exact hp.type
  | mark hp => exact hp.type
  | fence hp => exact hp.type
  | glue _ _ _ hi => exact absurd rfl hi
  | copy _ ht _ h =>
    rw [h0] at h
    obtain ⟨m, i⟩ := v
    cases h
    rw [Graph.type?_eq, ht]
    nofun
  | load hs => exact hd.slot_ne_glue hs
  | store hs => exact hd.slot_ne_glue hs
  | add hs => exact hd.slot_ne_glue hs

theorem isChained_of_onSpine (ho : Orderly g) (hs : g.Sound) (hend : EndsInChain g)
    (h : g.OnSpine a) (h0 : (g.node a).operands ≠ []) : isChained (g.node a).op := by
  have hgives : ∀ i, g.contains a → g.type? ⟨a, i⟩ = some .chain → isChained (g.node a).op := by
    intro i hc ht
    rw [Graph.type?_eq] at ht
    rcases (ho a hc).gives i ht with hres | hname
    · exact isChained_of_chainResult? hres
    · exact absurd ((ho a hc).name hname) h0
  obtain ⟨⟨m, k⟩, hr, hf⟩ := h
  have hm : g.contains m := (hs.has_root hr).1
  rcases hf.cases_tail with rfl | ⟨b, hb, ⟨i, hi⟩⟩
  · exact hgives k hm (hend _ hr)
  · have hcb := hs.contains_of_follows hm hb
    obtain ⟨ho', ht⟩ := Graph.chain_eq_follows.1 hi
    exact hgives i (hs.has_operand hcb (List.mem_of_getElem? ho')).1 ht

section Libcall

variable {callee : String} {cc : CallConv} {before : Option Nat} {chain : Option Value} {g₁ : Graph}

/-- A library call takes no chain beside that it is put on. -/
theorem Orderly.withLibcall (ho : Orderly g) (hs : g.Sound) (hn : Expandable g id) :
    Orderly (withLibcall g callee cc chain (g.node id).operands) := by
  have hx : g.Extends (Usim.withLibcall g callee cc chain (g.node id).operands) :=
    withLibcall_extends
  refine ho.grow hs hx fun m h₁ h₂ => ?_
  rw [size_withLibcall] at h₂
  rcases Nat.lt_or_eq_of_le (Nat.le_of_lt_succ h₂) with hm | rfl
  · obtain rfl : m = g.entries.size := by omega
    rw [node_withLibcall_symbol]
    exact .leaf rfl (by decide)
  · rw [node_withLibcall_call]
    refine .chained [_] [] rfl rfl rfl (fun vt hvt => ?_) fun v hv => .inl ?_
    · cases List.mem_singleton.1 hvt
      nofun
    · obtain ⟨o, ho', rfl⟩ := List.mem_filterMap.1 hv
      rcases List.mem_cons.1 ho' with he | hmem
      · cases he
        rw [Graph.type?_eq, node_withLibcall_symbol]
        exact fun h => by cases h
      · obtain ⟨i, hi⟩ := List.mem_iff_getElem?.1 hmem
        rw [hx.type? (hs.has_operand hn.contains hmem).lt]
        have hop := hn.op
        refine (ho id hn.contains).datum hi ?_ ?_ v rfl
        · generalize (g.node id).op = op at hop
          cases op <;> first | rfl | cases hop
        · generalize (g.node id).op = op at hop
          cases op <;> first | rfl | cases hop

variable {user : Nat}

theorem Orderly.updated (ho : Orderly g) (hu : g.Updated g' ⟨user, 0⟩ w)
    (hc : isChained (g.node user).op) : Orderly g' := by
  intro m hm
  have hm' := ho m (hu.contains m ▸ hm)
  have halike := Disciplined.alike_updated hu
  refine hm'.alike (halike m) fun i v hi hv => ?_
  rw [hu.type?] at hv
  rw [(halike m).op, (halike v.node).op]
  rw [hu.node] at hi
  split at hi
  · rename_i hmu
    rcases Nat.eq_zero_or_pos i with rfl | hpos
    · rw [hmu]
      exact .inl ⟨hc, rfl⟩
    · rw [List.getElem?_set_ne (Nat.ne_of_lt hpos)] at hi
      exact hm'.takes i v hi hv
  · exact hm'.takes i v hi hv

/-- Apart from its operands, every node is as with the call alone. -/
theorem splice?_spec {args : List (Option Value)} {place : Option Nat × Option Value}
    (h : splice? g callee cc args place = some g₁) (m : Nat) :
    (g₁.node m).op = ((withLibcall g callee cc place.2 args).node m).op ∧
      (g₁.node m).types = ((withLibcall g callee cc place.2 args).node m).types := by
  rcases place with ⟨user | user, chain⟩
  · cases h
    exact ⟨rfl, rfl⟩
  · rw [Graph.Exact.node_updateOperand h]
    split <;> exact ⟨rfl, rfl⟩

/-- The node before which a library call goes takes the chain of the call. -/
theorem chain_splice_user (hd : Disciplined none g) (hn : Expandable g id)
    (hsp : Graph.SplicePoint g id (some user) chain)
    (hg : splice? g callee cc (g.node id).operands (some user, chain) = some g₁) :
    g₁.chain user = .follows ⟨g.entries.size + 1, 1⟩ := by
  have hspot := hd.spot (.of_isArithmetic hn.op) hsp
  obtain ⟨hu, -⟩ := hn.updated hd hsp hg
  have hx : g.Extends (withLibcall g callee cc chain (g.node id).operands) := withLibcall_extends
  refine Graph.chain_eq_follows.2 ⟨?_, ?_⟩
  · rw [hu.node, if_pos rfl]
    refine List.getElem?_set_self (List.length_pos_iff.2 fun hnil => ?_)
    rw [splice?, Graph.updateOperand, hnil] at hg
    cases hg
  · rw [Graph.type?_eq, (splice?_spec hg _).2, node_withLibcall_call]
    rfl

theorem chain_splice_call (hd : Disciplined none g) (hend : EndsInChain g) (hn : Expandable g id)
    (hsp : Graph.SplicePoint g id before chain)
    (hg : splice? g callee cc (g.node id).operands (before, chain) = some g₁)
    (hv : chain = some v) : g₁.chain (g.entries.size + 1) = .follows v := by
  subst hv
  have hx : g.Extends (withLibcall g callee cc (some v) (g.node id).operands) := withLibcall_extends
  obtain ⟨hhas, -⟩ := hn.chain_spec hd hsp rfl
  have hlt := hhas.lt
  have hcall : (withLibcall g callee cc (some v) (g.node id).operands).chain (g.entries.size + 1) =
      .follows v ↔ g.type? v = some .chain := by
    rw [Graph.chain_eq_follows, node_withLibcall_call, hx.type? hlt]
    simp [taken]
  cases before with
  | none =>
    cases hg
    refine hcall.2 (hend v ?_)
    generalize some v = c at hsp
    cases hsp
    rfl
  | some user =>
    have hspot := hd.spot (.of_isArithmetic hn.op) hsp
    obtain ⟨hu, -⟩ := hn.updated hd hsp hg
    have ht := (Graph.chain_eq_follows.1 ((hspot.takes v).1 rfl)).2
    have hne : g.entries.size + 1 ≠ user := by
      have := Graph.contains_lt hspot.contains
      omega
    obtain ⟨h0, -⟩ := Graph.chain_eq_follows.1 (hcall.2 ht)
    refine Graph.chain_eq_follows.2 ⟨?_, ?_⟩
    · rw [hu.node, if_neg hne]
      exact h0
    · rw [hu.type?, hx.type? hlt, ht]

theorem waits_splice (hd : Disciplined none g) (hend : EndsInChain g) (hn : Expandable g id)
    (hsp : Graph.SplicePoint g id (some user) chain)
    (hg : splice? g callee cc (g.node id).operands (some user, chain) = some g₁)
    (h : ReflTransGen g.Waits a b) : ReflTransGen g₁.Waits a b := by
  have hspot := hd.spot (.of_isArithmetic hn.op) hsp
  obtain ⟨hu, -⟩ := hn.updated hd hsp hg
  have hx : g.Extends (withLibcall g callee cc chain (g.node id).operands) := withLibcall_extends
  induction h with
  | refl => exact .refl
  | @tail b c _ hw ih =>
    refine ih.trans ?_
    obtain ⟨hc, v, hv, rfl, ht⟩ := hw
    have hlt := Graph.contains_lt hc
    have hc₁ : g₁.contains b := by
      rw [hu.contains, hx.contains b hlt]
      exact hc
    have ht₁ : g₁.type? v = g.type? v := by
      rw [hu.type?, hx.type? (hd.sound.has_operand hc hv).lt]
    have hnode := hu.node b
    rw [hx.node b hlt] at hnode
    by_cases hb : b = user
    · subst hb
      rw [if_pos rfl] at hnode
      obtain ⟨i, hi⟩ := List.mem_iff_getElem?.1 hv
      rcases Nat.eq_zero_or_pos i with rfl | hpos
      -- the chain is now that of the call, which has taken the old one over
      · have hchain : g.type? v = some .chain := ht.resolve_right (hd.first_ne_glue hc hi)
        have hv' : chain = some v := (hspot.takes v).2 (Graph.chain_eq_follows.2 ⟨hi, hchain⟩)
        have hccall : g₁.contains (g.entries.size + 1) := by
          rw [hu.contains, contains_withLibcall]
          simp
        exact .head (.of_follows ⟨1, chain_splice_user hd hn hsp hg⟩ hc₁)
          (.single (.of_follows ⟨v.result, chain_splice_call hd hend hn hsp hg hv'⟩ hccall))
      · refine .single ⟨hc₁, v, ?_, rfl, by rwa [ht₁]⟩
        rw [hnode]
        refine List.mem_of_getElem? (i := i) ?_
        rw [List.getElem?_set_ne (Nat.ne_of_lt hpos)]
        exact hi
    · rw [if_neg hb] at hnode
      exact .single ⟨hc₁, v, hnode ▸ hv, rfl, by rwa [ht₁]⟩

theorem isChained_of_isArithmetic (h : isArithmetic op) :
    isChained op = false ∧ isName op = false := by
  cases op <;> first | exact ⟨rfl, rfl⟩ | cases h

theorem splice_keeps (hd : Disciplined none g) (ho : Orderly g) (hend : EndsInChain g)
    (hn : Expandable g id) (hsp : Graph.SplicePoint g id before chain)
    (hg : splice? g callee cc (g.node id).operands (before, chain) = some g₁) :
    Orderly g₁ ∧ EndsInChain g₁ ∧ (∀ a b, ReflTransGen g.Waits a b → ReflTransGen g₁.Waits a b) ∧
      (∀ x, g.RootWaits x → g₁.RootWaits x) ∧ g₁.RootWaits (g.entries.size + 1) := by
  have hx : g.Extends (withLibcall g callee cc chain (g.node id).operands) := withLibcall_extends
  have hL : Orderly (withLibcall g callee cc chain (g.node id).operands) :=
    ho.withLibcall hd.sound hn
  cases before with
  | none =>
    have hcall : ∀ r, g.root = some r → g₁.chain (g.entries.size + 1) = .follows r := by
      intro r hr
      refine chain_splice_call hd hend hn hsp hg ?_
      cases hsp
      exact hr
    cases hg
    have hwaits : ∀ a b, ReflTransGen g.Waits a b → ReflTransGen
        (Graph.Waits { withLibcall g callee cc chain (g.node id).operands with
          root := some ⟨g.entries.size + 1, 1⟩ }) a b := by
      intro a b h
      have hp := Graph.waits_grow h hd.sound hx
      exact hp
    refine ⟨hL.reroot _, fun v hv => ?_, hwaits,
      fun x ⟨r, hr, hp⟩ => ⟨_, rfl, .head ?_ (hwaits _ _ hp)⟩, _, rfl, .refl⟩
    · cases hv
      rw [Graph.type?_eq]
      exact congrArg (fun n : Node => n.types[1]?) node_withLibcall_call
    · refine .of_follows ⟨r.result, hcall r hr⟩ ?_
      show (withLibcall g callee cc chain (g.node id).operands).contains _
      rw [contains_withLibcall]
      simp
  | some user =>
    obtain ⟨hu, -⟩ := hn.updated hd hsp hg
    have hspot := hd.spot (.of_isArithmetic hn.op) hsp
    have hlt := Graph.contains_lt hspot.contains
    have hroot : g₁.root = g.root := hu.root.trans root_withLibcall
    have hchained : isChained (g.node user).op := by
      refine isChained_of_onSpine ho hd.sound hend hspot.onSpine fun hnil => ?_
      have hnone := hg
      rw [splice?, Graph.updateOperand, hx.node user hlt, hnil] at hnone
      cases hnone
    have hkeep : ∀ x, g.RootWaits x → g₁.RootWaits x := fun x ⟨r, hr, hp⟩ =>
      ⟨r, hroot.trans hr, waits_splice hd hend hn hsp hg hp⟩
    refine ⟨hL.updated hu (hx.node user hlt ▸ hchained), fun v hv => ?_,
      fun a b h => waits_splice hd hend hn hsp hg h, hkeep, ?_⟩
    · rw [hu.type?]
      rw [hu.root] at hv
      exact hend.grow hd.sound hx root_withLibcall v hv
    · obtain ⟨r, hr, hf⟩ := hspot.onSpine
      have hcr : g.contains r.node := (hd.sound.has_root hr).1
      obtain ⟨r', hr', hp⟩ := hkeep user ⟨r, hr, Graph.waits_of_follows hf hd.sound hcr⟩
      refine ⟨r', hr', hp.tail (.of_follows ⟨1, chain_splice_user hd hn hsp hg⟩ ?_)⟩
      rw [hu.contains, hx.contains user hlt]
      exact hspot.contains

/-- A library call goes before a node of the chain. -/
theorem mem_thread_of_splice {r : Value} {line : List Nat} (hd : Disciplined none g)
    (hn : Expandable g id) (hsp : Graph.SplicePoint g id (some user) chain)
    (hg : splice? g callee cc (g.node id).operands (some user, chain) = some g₁)
    (hr : g.root = some r) (hline : g.Thread r line Graph.entry) : user ∈ line := by
  have hx : g.Extends (withLibcall g callee cc chain (g.node id).operands) := withLibcall_extends
  have hspot := hd.spot (.of_isArithmetic hn.op) hsp
  have hends : g.chain Graph.entry.node = .ends := by
    unfold Graph.chain
    rw [hd.sound.entry.2]
  refine ((hline.onSpine_iff hr hends).1 hspot.onSpine).resolve_right ?_
  rintro rfl
  rw [splice?, Graph.updateOperand, hx.node _ (Graph.contains_lt hspot.contains),
    hd.sound.entry.2] at hg
  cases hg

theorem splice_anchored (hd : Disciplined none g) (hend : EndsInChain g) (hn : Expandable g id)
    (hsp : Graph.SplicePoint g id before chain)
    (hg : splice? g callee cc (g.node id).operands (before, chain) = some g₁) (ha : Anchored g) :
    Anchored g₁ := by
  have hx : g.Extends (withLibcall g callee cc chain (g.node id).operands) := withLibcall_extends
  obtain ⟨r, hr, hhas⟩ := hd.sound.root
  obtain ⟨line, hline⟩ := ha r hr
  have htype : g₁.type? ⟨g.entries.size + 1, 1⟩ = some .chain := by
    rw [Graph.type?_eq, (splice?_spec hg _).2, node_withLibcall_call]
    rfl
  cases before with
  | none =>
    have hcall : g₁.chain (g.entries.size + 1) = .follows r := by
      refine chain_splice_call hd hend hn hsp hg ?_
      cases hsp
      exact hr
    cases hg
    intro v hv
    cases hv
    refine ⟨_, .step htype hcall ((hline.grow hd.sound hhas.1 hx).congr (fun _ _ _ h => h)
      fun _ _ _ h => h)⟩
  | some user =>
    obtain ⟨hu, -⟩ := hn.updated hd hsp hg
    have hspot := hd.spot (.of_isArithmetic hn.op) hsp
    have hlt := Graph.contains_lt hspot.contains
    have hmem := mem_thread_of_splice hd hn hsp hg hr hline
    have hnodup := hline.nodup hd.sound hd.acyclic hhas.1
    obtain ⟨pre, rest, i, u, rfl, hupper, hi, hfollow, hlower⟩ := hline.parts hmem
    have hchain : chain = some u := by
      cases hsp with
      | before _ _ _ _ _ hc => exact (hc u).2 hfollow
    have hcu : g.contains u.node :=
      (hd.sound.has_operand hspot.contains
        (List.mem_of_getElem? (Graph.chain_eq_follows.1 hfollow).1)).1
    obtain ⟨hpre, hrest⟩ : user ∉ pre ∧ user ∉ rest := by
      rw [List.nodup_append, List.nodup_cons] at hnodup
      exact ⟨fun h => hnodup.2.2 user h user (by simp) rfl, hnodup.2.1.1⟩
    intro v hv
    rw [hu.root, root_withLibcall, hr, Option.some.injEq] at hv
    subst hv
    refine ⟨_, ((hupper.grow hd.sound hhas.1 hx).updated hu hpre).trans
      (.step ?_ (chain_splice_user hd hn hsp hg)
      (.step htype (chain_splice_call hd hend hn hsp hg hchain)
      ((hlower.grow hd.sound hcu hx).updated hu hrest)))⟩
    rw [hu.type?, hx.type? hlt]
    exact hi

theorem upkeep_expand {S : Nat → Prop} (hd : Disciplined none g) (ho : Orderly g)
    (hend : EndsInChain g) (hn : Expandable g id) (hsp : Graph.SplicePoint g id before chain)
    (hg : splice? g callee cc (g.node id).operands (before, chain) = some g₁)
    (hd₁ : Disciplined none g₁) (hf : Fits S g₁ id [some ⟨g.entries.size + 1, 0⟩])
    (hg' : g₁.replaceNode id [some ⟨g.entries.size + 1, 0⟩] = .ok g') (hd' : Disciplined none g') :
    Upkeep g g' id ∧ g'.RootWaits (g.entries.size + 1) := by
  obtain ⟨ho₁, hend₁, hwaits, hroot, hcall⟩ := splice_keeps hd ho hend hn hsp hg
  have hlt := Graph.contains_lt hn.contains
  have hc₁ : g₁.contains id := (contains_splice? hg hlt).trans hn.contains
  have hx : g.Extends (withLibcall g callee cc chain (g.node id).operands) := withLibcall_extends
  have hop : ∀ m < g.entries.size, (g₁.node m).op = (g.node m).op := fun m hm => by
    rw [(splice?_spec hg m).1, hx.node m hm]
  have hop₁ : isArithmetic (g₁.node id).op := hop id hlt ▸ hn.op
  obtain ⟨hchained, hname⟩ := isChained_of_isArithmetic hop₁
  have hr := hf.rewired hd₁ hg'
  have hres : chainResult? (g₁.node id) = none := chainResult?_eq_none hchained
  have hdatum : Datum g₁ (some ⟨g.entries.size + 1, 0⟩) := by
    rintro v ⟨⟩
    rw [Graph.type?_eq, (splice?_spec hg _).2, node_withLibcall_call]
    nofun
  have hreplaced := Replaced.value hdatum hres
  have hreroute : Rerouted g₁ g' id [some ⟨g.entries.size + 1, 0⟩] :=
    ⟨hr, .of_op hc₁ (isPassable_of_isArithmetic hop₁), hreplaced.toRejoined,
      Nat.le_of_eq (size_of_replaceNode hg').symm, fun v hv => (hf.value hv).1, fun hc => by
        rw [hchained] at hc
        cases hc⟩
  have hkept : ∀ x, isChained (g.node x).op → isChained (g₁.node x).op := by
    intro x hxc
    rw [hop x (lt_of_isChained hxc)]
    exact hxc
  have hentry : Graph.entry.node ≠ id := by
    rintro rfl
    rw [hd₁.sound.entry.2] at hop₁
    cases hop₁
  refine ⟨⟨ho₁.rewired hc₁ hr hreplaced.data, hend₁.rewired ho₁ hc₁ hname hr hreplaced.typed,
    ⟨fun x y hx hy hxc hp => ?_, fun x hx hxc hp => .inl ?_⟩,
    fun ha => hreroute.anchored hd₁ ho₁ (splice_anchored hd hend hn hsp hg ha) hentry⟩, ?_⟩
  · exact (hreroute.path hd₁ ho₁ hd'.sound hx (hkept x hxc) (hwaits _ _ hp)).1 hy
  · exact hreroute.rootPath hd₁ ho₁ hd'.sound (fun _ _ hk => hend₁ _ hk) hx
      (hkept x hxc) (hroot x hp)
  · refine hreroute.rootPath hd₁ ho₁ hd'.sound (fun _ _ hk => hend₁ _ hk) (by omega) ?_ hcall
    rw [(splice?_spec hg _).1, node_withLibcall_call]
    rfl

end Libcall

/-! ### Combining -/

theorem rejoined_combined (hd : Disciplined none s.graph) (ho : Orderly s.graph)
    (h : Lower.Lowering.outcome (Lower.combined? (target d) id) s = (.ok (some o), s')) :
    s.graph.contains id ∧ isChoice (s.graph.node id).op ∧ s.graph.Extends s'.graph ∧
      s'.graph.root = s.graph.root ∧ Orderly s'.graph ∧
      Rejoined s'.graph (s'.graph.node id) [o] := by
  obtain ⟨hc, c, hx, h⟩ := combined?_spec hd h
  have hnode := ho id hc
  cases hx with
  | stays => cases h
  | arm hop hmem =>
    cases h
    obtain ⟨i, hi⟩ := List.mem_iff_getElem?.1 hmem
    have hchained : isChained (s.graph.node id).op = false := by rw [hop]; rfl
    have hdatum : Datum s.graph o :=
      hnode.datum hi (by simp [isBeside, hchained]) (by rw [hop]; rfl)
    exact ⟨hc, hop ▸ rfl, .refl _, rfl, ho,
      (Replaced.value hdatum (chainResult?_eq_none hchained)).toRejoined⟩
  | falls hop h0 =>
    cases h
    refine ⟨hc, hop ▸ rfl, .refl _, rfl, ho, fun i o' hi ho' => ?_, fun i o' c hi ho' hc => ?_⟩
    all_goals
      have hres : chainResult? (s.graph.node id) = some 0 := by rw [chainResult?, hop]; rfl
      cases i with
      | succ i => cases ho'
      | zero => ?_
    · exact absurd hres hi
    · cases ho'
      rw [h0] at hc
      cases hc
      exact .refl
  | @jumps chain dest hop h0 h4 =>
    cases h
    have hlt := Graph.contains_lt hc
    obtain ⟨c, rfl, -⟩ := hd.sound.operands id hc chain (List.mem_of_getElem? h0)
    obtain ⟨w, rfl, hw⟩ := hd.sound.operands id hc dest (List.mem_of_getElem? h4)
    have hx : s.graph.Extends (s.graph.single .br .chain [some c, some w]).1 := .newNode ..
    have hself : (s.graph.single .br .chain [some c, some w]).1.node s.graph.entries.size =
        ⟨.br, [.chain], (taken (some c :: [some w])).map some, .none⟩ := Graph.node_newNode_self ..
    have hold := hx.node id hlt
    have hres : chainResult? ((s.graph.single .br .chain [some c, some w]).1.node id) = some 0 := by
      rw [chainResult?, hold, hop]
      rfl
    refine ⟨hc, hop ▸ rfl, hx, rfl, ho.grow hd.sound hx fun m h₁ h₂ => ?_,
      (Replaced.link [] (by simp) (hold ▸ h0) ⟨⟨_, rfl, type?_of_node hself rfl⟩, .node hself rfl⟩
        hres).toRejoined⟩
    obtain rfl : m = s.graph.entries.size := by
      rw [Graph.single, Graph.size_newNode] at h₂
      omega
    rw [hself]
    refine ⟨fun i hi => .inl ?_, fun i hi => ?_, fun i v hi hv => ?_, fun hname => by cases hname⟩
    · cases i with
      | zero => rfl
      | succ i => cases hi
    · cases hi
      rfl
    · rcases i with _ | _ | i
      · exact .inl ⟨rfl, rfl⟩
      · cases hi
        rw [hx.type? hw.lt] at hv
        rw [hx.node w.node hw.lt]
        exact .inr (.inr ⟨rfl, (hnode.beside h4 (by rw [hop]; rfl) hv).2⟩)
      · cases hi

theorem upkeep_combine {rest worklist : List Nat} {s'' : Session}
    (hd : Disciplined none s.graph) (ho : Orderly s.graph)
    (h : Lower.Lowering.outcome (Lower.combined? (target d) id) s = (.ok (some o), s'))
    (hput : Lower.Lowering.outcome (Lower.putCombined id o rest) s' = (.ok worklist, s'')) :
    Orderly s''.graph ∧ Keeps s.graph s''.graph id := by
  obtain ⟨r, s₁, t₁, hs₁, -, htwin, hfit⟩ := (Twin.refl hd).combined d id
  rw [hs₁] at h
  cases h
  obtain ⟨v, rfl, hapart, hf⟩ := hfit o rfl
  obtain ⟨hc, hop, hx, hroot, ho', hrej⟩ := rejoined_combined hd ho hs₁
  have hlt := Graph.contains_lt hc
  have hc' : s'.graph.contains id := (hx.contains id hlt).trans hc
  have hop' : isChoice (s'.graph.node id).op := hx.node id hlt ▸ hop
  have hd' := htwin.graphs.left
  obtain ⟨w, s₂, t₂, hput₂, -, htwin₂, hr, -⟩ := htwin.putCombined hf rest
  rw [hput₂] at hput
  cases hput
  have hone := hd'.choice id hop'
  have hreroute : Rerouted s'.graph s''.graph id [some v] := by
    refine ⟨hr, .of_op hc' (isPassable_of_isChoice hop'), hrej, Nat.le_of_eq hone, fun u hu => ?_,
      fun _ u hu => ?_⟩
    · exact (hf.value hu).1
    · cases List.mem_singleton.1 hu
      exact hapart
  have hchained : ∀ x, isChained (s.graph.node x).op → isChained (s'.graph.node x).op :=
    fun x hxc => hx.node x (lt_of_isChained hxc) ▸ hxc
  -- a choice on the chain gives nothing but its chain
  have htype : isChained (s'.graph.node id).op → ∀ k, s'.graph.root = some ⟨id, k⟩ →
      s'.graph.type? ⟨id, k⟩ = some .chain := by
    intro hb k hk
    obtain ⟨w, hw, -, ht⟩ := hd'.sound.root
    rw [hk] at hw
    cases hw
    rw [Graph.type?_eq] at ht ⊢
    obtain ⟨vt, hvt⟩ := Option.isSome_iff_exists.1 ht
    obtain rfl : k = 0 := by
      have := (List.getElem?_eq_some_iff.1 hvt).1
      dsimp only at this
      omega
    refine (ho' id hc').result 0 ?_
    generalize hn : s'.graph.node id = n at hop' hb
    unfold isChoice at hop'
    rw [chainResult?]
    split at hop'
    · rename_i he
      rw [he]
      rfl
    · rename_i he
      rw [he] at hb
      cases hb
    · cases hop'
  have hs'' := htwin₂.graphs.left.sound
  refine ⟨ho'.rewired hc' hr hrej.data, fun x y hxid hyid hxc hp => ?_,
    fun x hxid hxc hp => .inl ?_⟩
  · exact (hreroute.path hd' ho' hs'' hxid (hchained x hxc) (Graph.waits_grow hp hd.sound hx)).1
      hyid
  · exact hreroute.rootPath hd' ho' hs'' htype hxid (hchained x hxc) (hp.grow hd.sound hx hroot)

/-! ### The course of a lowering -/

/-- The order is kept to at a point of a lowering, and the function ends in a chain while it is
legalized; if `A` holds, in one that leads to the entry token. -/
def InOrder (A : Prop) : Lower.Point × Session → Prop
  | (.round _ _, s) | (.sweep _ _ _, s) => Orderly s.graph ∧ EndsInChain s.graph ∧
    (A → Anchored s.graph)
  | (.failed _, _) => True
  | (_, s) => Orderly s.graph

theorem upkeep_treated {l : Lower.Libcalls} {S : Nat → Prop} {t t' : Session}
    (hready : Ready .bare s) (h : Steady d.features none s) (h' : Steady d.features none s')
    (ho : Orderly s.graph) (hend : EndsInChain s.graph) (hc : s.graph.contains id)
    (ht : Treated d l S id s t s' t') : Upkeep s.graph s'.graph id := by
  cases ht with
  | idle _ hs =>
    rw [hs]
    exact ⟨ho, hend, .refl _ _, fun ha => ha⟩
  | @ruled action _ s₁ _ values _ _ hout hr hs =>
    obtain ⟨hop, hf, -⟩ := hr.values _ rfl
    exact upkeep_lowerNode (s := counted s action) ⟨hready.shaped, hready.formals⟩ h.disciplined
      ho hend hc hout hr.paired.left.disciplined hop hf (hr.apart _ rfl) hs h'.disciplined
  | @expanded action _ s₁ _ values _ _ he hs =>
    obtain ⟨callee, cc, before, chain, hsp, hg⟩ := he.place
    have hf := he.fits
    rw [he.given] at hf hs
    exact (upkeep_expand h.disciplined ho hend he.node hsp hg he.paired.left.disciplined hf hs
      h'.disciplined).1

variable {c : Lower.Point × Session}

/-- A step that treats a node keeps the order, and so does every other. -/
theorem InOrder.next {A : Prop} {o : Lower.Options}
    (hl : o.libcalls = Lower.Libcalls.standard) (hst : Stands d c)
    (hsturdy : Sturdy (fun _ => False) c) (h : InOrder A c) :
    InOrder A (Lower.next (target d) o c) ∧ ∀ n, c.1.subject? = some n →
      (∀ e, (Lower.next (target d) o c).1 ≠ .failed e) →
      Keeps c.2.graph (Lower.next (target d) o c).2.graph n := by
  obtain ⟨p, s⟩ := c
  cases p with
  | round left kept =>
    refine ⟨?_, fun n hn => by cases hn⟩
    cases left with
    | zero => trivial
    | succ left => exact h
  | sweep left done rest =>
    obtain ⟨hkept, hsteady, hrest⟩ := hst
    cases rest with
    | nil =>
      refine ⟨?_, fun n hn => by cases hn⟩
      rw [Lower.next]
      split
      · exact h
      · exact h.1
    | cons id rest =>
      have hc := hrest id (by simp)
      obtain ⟨r, s', hs, -, hr⟩ := hsteady.legalizeNode hsturdy.shaped hc hkept
      rw [Lower.next, hl, hs]
      cases r with
      | error e => exact ⟨trivial, fun n _ hok => absurd rfl (hok e)⟩
      | ok done' =>
        obtain ⟨-, hsteady', t', ht⟩ := hr done' rfl
        have hkeep := upkeep_treated hsturdy.1 hsteady hsteady' h.1 h.2.1 hc ht
        refine ⟨⟨hkeep.ordered, hkeep.root, fun hA => hkeep.anchored (h.2.2 hA)⟩, fun n hn _ => ?_⟩
        cases hn
        exact hkeep.keeps
  | cleanup kept =>
    obtain ⟨log, hlog⟩ := Lower.outcome_cleanup s
    rw [Lower.next, hlog]
    exact ⟨h.removeDead hst.2.sound, fun n hn => by cases hn⟩
  | combine kept budget worklist =>
    obtain ⟨hkept, hd, hset⟩ := hst
    cases worklist with
    | nil => exact ⟨h.removeDead hd.sound, fun n hn => by cases hn⟩
    | cons id rest =>
      rcases hs : Lower.Lowering.outcome (Lower.combined? (target d) id) s with ⟨e | v, s'⟩
      · rw [Lower.next, hs]
        exact ⟨trivial, fun n _ hok => absurd rfl (hok e)⟩
      · rw [Lower.next, hs]
        cases v with
        | none =>
          obtain ⟨rfl, -⟩ := combined?_none hd hs
          exact ⟨h, fun n _ _ => .refl _ _⟩
        | some v =>
          cases budget with
          | zero => exact ⟨trivial, fun n _ hok => absurd rfl (hok _)⟩
          | succ budget =>
            obtain ⟨worklist, s'', hput, -⟩ := hset.putCombined hd hs
            obtain ⟨ho, hkeep⟩ := upkeep_combine hd h hs hput
            simp only [Lower.arrive, hput]
            refine ⟨ho, fun n hn _ => ?_⟩
            cases hn
            exact hkeep
  | verify kept =>
    obtain ⟨rfl, hd, -⟩ := hst
    refine ⟨?_, fun n hn => by cases hn⟩
    obtain ⟨r, hr, -⟩ := outcome_verify d s hd
    rw [Lower.next, hr]
    cases r with
    | error e => trivial
    | ok _ => exact h
  | ended kept => exact ⟨h, fun n hn => by cases hn⟩
  | failed e => exact ⟨h, fun n hn => by cases hn⟩

/-- At every point of a lowering the order is kept to, and each step keeps what waited for what. -/
theorem InOrder.course {A : Prop} {o : Lower.Options} {metrics : Lower.Metrics}
    {log : Array LogRecord} (hw : FunctionFile.Written g)
    (hglue : ∀ id, .glue ∉ (g.node id).types) (ho : Orderly g) (hend : EndsInChain g)
    (ha : A → Anchored g) (hl : o.libcalls = Lower.Libcalls.standard)
    (hc : Lower.Course (target d) o (Lower.outset o ((target d).session g metrics log)) c) :
    Stands d c ∧ Sturdy (fun _ => False) c ∧ InOrder A c :=
  hc.keeps (P := fun c => Stands d c ∧ Sturdy (fun _ => False) c ∧ InOrder A c)
    (fun _ h => ⟨h.1.next hl fun _ => h.2.1.shaped, h.2.1.next hl,
      (InOrder.next hl h.1 h.2.1 h.2.2).1⟩)
    ⟨⟨rfl, .of_written hw hglue, nofun⟩, .start (.bare_of_written hw), ho, hend, ha⟩

instance (g : Graph) (n : Node) : Decidable (Ordered g n) :=
  decidable_of_iff
    ((∀ i < n.types.length, n.types[i]? = some .chain → chainResult? n = some i ∨ isName n.op) ∧
      (∀ i, i ∈ chainResult? n → n.types[i]? = some .chain) ∧
      (∀ i < n.operands.length, ∀ v, v ∈ (n.operands[i]?).join → g.type? v = some .chain →
        isChained n.op ∧ i = 0 ∨ n.op = .tokenFactor ∨ isNameSlot n.op i ∧
        isName (g.node v.node).op) ∧
      (isName n.op → n.operands = []))
    ⟨fun ⟨h₁, h₂, h₃, h₄⟩ =>
      ⟨fun i hi => h₁ i (List.getElem?_eq_some_iff.1 hi).1 hi, h₂,
      fun i v hi => h₃ i (List.getElem?_eq_some_iff.1 hi).1 v (Option.join_eq_some_iff.2 hi), h₄⟩,
    fun h => ⟨fun i _ => h.gives i, h.result,
    fun i _ v hv => h.takes i v (Option.join_eq_some_iff.1 hv), h.name⟩⟩

/-- In a file without glue, let chains be given by the operations on the chain only and taken where
these have theirs, and let the function end in a chain. When its lowering rewrites a node, then what
waited for an operation on the chain other than this node still waits for it afterwards, and so does
the root, unless the operation is the return that a tail call has retired. -/
theorem rewrite_keeps_order {d : Description} {k : FunctionFile.Decoder} {text : String}
    {gs : List Graph} {t : Lower.Target} (hparse : k.parse text = .ok gs) (hg : g ∈ gs)
    (hglue : ∀ id, .glue ∉ (g.node id).types)
    (hordered : ∀ id, g.contains id → Ordered g (g.node id))
    (hroot : ∀ v, g.root = some v → g.type? v = some .chain) (hmake : make d = .ok t)
    {maxRounds : Int} {metrics : Lower.Metrics} {log : Array LogRecord}
    {c : Lower.Point × Session} {n : Nat}
    (hc : Lower.Course t { maxRounds } (Lower.outset { maxRounds } (t.session g metrics log)) c)
    (hn : c.1.subject? = some n) (hok : ∀ e, (Lower.next t { maxRounds } c).1 ≠ .failed e)
    (hxn : x ≠ n) (hx : isChained (c.2.graph.node x).op) :
    (∀ y, y ≠ n → ReflTransGen c.2.graph.Waits y x →
      ReflTransGen (Lower.next t { maxRounds } c).2.graph.Waits y x) ∧
    (c.2.graph.RootWaits x → (Lower.next t { maxRounds } c).2.graph.RootWaits x ∨
      Retired c.2.graph (Lower.next t { maxRounds } c).2.graph x) := by
  obtain rfl := make_eq_ok hmake
  obtain ⟨hst, hsturdy, hin⟩ :=
    InOrder.course (A := False) (FunctionFile.parse_written hparse hg) hglue hordered hroot
    False.elim rfl hc
  have hkeep := (InOrder.next rfl hst hsturdy hin).2 n hn hok
  exact ⟨fun y hy => hkeep.waits x y hxn hy hx, hkeep.root x hxn hx⟩

/-- A lowering after three steps. -/
def afterThree (g : Graph) : Lower.Point × Session :=
  Lower.next (target .builtIn) {} (Lower.next (target .builtIn) {} (Lower.next (target .builtIn) {}
    (Lower.outset {} ((target .builtIn).session g))))

/-- The library call for the division goes between the return and the entry token, and the return
still waits for the token. -/
theorem rewrite_keeps_order_division : ∃ g c, FunctionFile.parse divisionFile = .ok [g] ∧
    Lower.Course (target .builtIn) {} (Lower.outset {} ((target .builtIn).session g)) c ∧
    c.1.subject? = some 2 ∧ c.2.graph.chain 3 = .follows Graph.entry ∧
    (Lower.next (target .builtIn) {} c).2.graph.chain 3 = .follows ⟨5, 1⟩ ∧
    ReflTransGen (Lower.next (target .builtIn) {} c).2.graph.Waits 3 0 := by
  have h : holdsOfOnly (fun g => decide
      ((∀ id < g.entries.size, .glue ∉ (g.node id).types ∧ Ordered g (g.node id)) ∧
        (∀ v, v ∈ g.root → g.type? v = some .chain) ∧
        (afterThree g).1.subject? = some 2 ∧
        (Lower.next (target .builtIn) {} (afterThree g)).1.subject? = some 3 ∧
        isChained ((afterThree g).2.graph.node 0).op ∧ (afterThree g).2.graph.contains 3 ∧
        (afterThree g).2.graph.chain 3 = .follows Graph.entry ∧
        (Lower.next (target .builtIn) {} (afterThree g)).2.graph.chain 3 = .follows ⟨5, 1⟩))
      (FunctionFile.parse divisionFile) = true := by
    exact FunctionFile.holdsOfOnly_join (by decide +kernel)
  obtain ⟨g, hparse, h⟩ := exists_of_holdsOfOnly h
  obtain ⟨hnodes, hroot, hn, hok, h0, hc, hchain, hchain'⟩ := of_decide_eq_true h
  have hcourse : Lower.Course (target .builtIn) {} (Lower.outset {} ((target .builtIn).session g))
      (afterThree g) := Lower.Course.step.trans (Lower.Course.step.trans Lower.Course.step)
  refine ⟨g, afterThree g, hparse, hcourse, hn, hchain, hchain', ?_⟩
  have hglue := glue_notMem_of_lt fun id hid => (hnodes id hid).1
  refine (rewrite_keeps_order hparse (by simp) hglue
    (fun id hid => (hnodes id (Graph.contains_lt hid)).2) hroot make_builtIn hcourse hn
    (fun e he => ?_) (by decide) h0).1 3 (by decide) ?_
  · rw [he] at hok
    cases hok
  · exact .single (.of_follows ⟨0, hchain⟩ hc)

/-- A function that ends in what it loads, with a division that only a dead node takes. -/
def loadFile : String := String.join [
  "functions:\n- name: f\n  nodes:\n",
  "  - name: k\n    op: Constant\n    type: i32\n    value: 7\n",
  "  - name: l\n    op: load\n    type: i32\n    ops: [entry, k]\n",
  "  - name: q\n    op: sdiv\n    ops: [k, k]\n",
  "  - name: d\n    op: add\n    ops: [q, q]\n",
  "  root: l\n"]

/-- A function that does not end in a chain: the library call takes the root for its chain, and the
root waits for the load no more. -/
theorem library_call_loses_load : ∃ g c, FunctionFile.parse loadFile = .ok [g] ∧
    (∀ id, g.contains id → Ordered g (g.node id)) ∧
    Lower.Course (target .builtIn) {} (Lower.outset {} ((target .builtIn).session g)) c ∧
    c.1.subject? = some 3 ∧ (c.2.graph.node 2).op = .load ∧ c.2.graph.RootWaits 2 ∧
    (Lower.next (target .builtIn) {} c).2.graph.contains 2 ∧
    ¬ (Lower.next (target .builtIn) {} c).2.graph.RootWaits 2 := by
  have h : holdsOfOnly (fun g =>
      let c := Lower.next (target .builtIn) {} (afterThree g)
      let g' := (Lower.next (target .builtIn) {} c).2.graph
      decide ((∀ id < g.entries.size, Ordered g (g.node id)) ∧ c.1.subject? = some 3 ∧
        (c.2.graph.node 2).op = .load ∧ c.2.graph.root = some ⟨2, 0⟩ ∧ g'.contains 2 ∧
        g'.root = some ⟨6, 1⟩ ∧ ∀ o ∈ (g'.node 6).operands, ∀ v, v ∈ o → g'.type? v ≠ some .chain ∧
        g'.type? v ≠ some .glue))
      (FunctionFile.parse loadFile) = true := by
    exact FunctionFile.holdsOfOnly_join (by decide +kernel)
  obtain ⟨g, hparse, h⟩ := exists_of_holdsOfOnly h
  obtain ⟨hnodes, hn, hload, hroot, hc, hroot', hcall⟩ := of_decide_eq_true h
  refine ⟨g, Lower.next (target .builtIn) {} (afterThree g), hparse,
    fun id hid => hnodes id (Graph.contains_lt hid), ?_, hn, hload, ⟨_, hroot, .refl⟩, hc, ?_⟩
  · exact (Lower.Course.step.trans (Lower.Course.step.trans Lower.Course.step)).trans
      Lower.Course.step
  · rintro ⟨r, hr, hp⟩
    rw [hroot'] at hr
    cases hr
    rcases hp.cases_head with he | ⟨b, ⟨-, v, hv, -, ht⟩, -⟩
    · cases he
    · obtain ⟨h₁, h₂⟩ := hcall _ hv v rfl
      exact ht.elim h₁ h₂

end Usim

end GraphLowering
