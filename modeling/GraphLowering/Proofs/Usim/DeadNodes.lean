import GraphLowering.Proofs.Usim.Lowered

/-!
# Dead nodes

Two lowerings of a function side by side, one of its graph and one of the live part of it. What is
dead and takes secure values only is passed over (`Quiet`), so that the second lowering keeps up
with the first (`Abreast.next`). Without their dead nodes the graphs are the same, and they stay so
(`lowering_ignores_dead_nodes`). A dead division that is used is not passed over
(`dead_quotient_ends_function`).
-/

namespace GraphLowering.Usim

open Lower (Session Lowering Options Point Course Libcalls Metrics outset)
open Lower.Lowering
open FunctionFile (holdsOfOnly exists_of_holdsOfOnly)
open Subtarget (Features Description)

variable {f : Features} {d : Description} {S : Nat → Prop} {g g' : Graph} {s t s' t' : Session}
  {l : Libcalls} {id : Nat} {v : Value} {o : Options} {c c' : Point × Session}

/-- What nodes outside of a set take is secure. -/
def Quiet (f : Features) (S : Nat → Prop) (g : Graph) : Prop :=
  ∀ a v, g.contains a → ¬ S a → some v ∈ (g.node a).operands → Secure f g v

/-- A library call changes what the node takes before which it goes, and nothing else. -/
theorem Expandable.node_splice {n m : Nat} {before : Option Nat} {chain : Option Value}
    {callee : String} {cc : CallConv} (h : Expandable g n) (hd : Disciplined none g)
    (hsp : Graph.SplicePoint g n before chain)
    (hg : splice? g callee cc (g.node n).operands (before, chain) = some g')
    (hm : m < g.entries.size) (hu : before ≠ some m) : g'.node m = g.node m := by
  have hx : g.Extends (withLibcall g callee cc chain (g.node n).operands) := withLibcall_extends
  cases before with
  | none =>
    cases hg
    exact hx.node m hm
  | some user =>
    obtain ⟨hupd, -⟩ := h.updated hd hsp hg
    rw [hupd.node, if_neg, hx.node m hm]
    rintro rfl
    exact hu rfl

theorem Quiet.treated (h : Quiet d.features S s.graph) (hp : Paired d.features S s t)
    (ht : Treated d l S id s t s' t') : Quiet d.features S s'.graph := by
  have hd := hp.left.disciplined
  have hold : ∀ {a}, ¬ S a → a < s.graph.entries.size := fun hS =>
    Nat.lt_of_not_le fun hle => hS (hp.graphs.fresh _ hle)
  -- a node that takes a secure value does not take the one that is replaced
  have hfree : ∀ {a}, ¬ IsLegal d.features s.graph id → s.graph.contains a → ¬ S a →
      ∀ i, some ⟨id, i⟩ ∉ (s.graph.node a).operands := fun hl ha hS i hi =>
    hl ((h _ _ ha hS hi).legal id .refl)
  cases ht with
  | idle _ hs _ => rwa [hs]
  | @ruled action action' s₁ t₁ values hu hl ho hr hs ht =>
    have hx : s.graph.Extends s₁.graph := hr.grows
    have hd₁ := hr.paired.left.disciplined
    have hrew := (hr.values _ rfl).2.1.rewired hd₁ hs
    intro a v ha hS hv
    have hnode := hx.node a (hold hS)
    have hc : s.graph.contains a := by
      rw [← hx.contains a (hold hS), ← hrew.contains]
      exact ha
    rw [hrew.node_eq fun i => hnode ▸ hfree hl hc hS i, hnode] at hv
    refine ((h a v hc hS hv).extends hd.sound hx).rewired hd₁.sound hrew fun hl₁ => hl ?_
    exact (isLegal_extends hx hd.sound (hd.sound.contains_of_hasUses hu)).1 hl₁
  | @expanded action action' s₁ t₁ values hu hl he hs ht =>
    have hd₁ := he.paired.left.disciplined
    have hrew := he.fits.rewired hd₁ hs
    obtain ⟨callee, cc, before, chain, hsp, hg⟩ := he.place
    have hspine : ∀ {a}, ¬ S a → before ≠ some a := by
      rintro a hS rfl
      have hspot := hd.spot (.of_isArithmetic he.node.op) hsp
      exact hS (hp.graphs.shared_of_live (hd.sound.live_of_onSpine hspot.onSpine))
    intro a v ha hS hv
    have hnode : s₁.graph.node a = s.graph.node a :=
      he.node.node_splice hd hsp hg (hold hS) (hspine hS)
    have hcon : s₁.graph.contains a = s.graph.contains a := contains_splice? hg (hold hS)
    have hc : s.graph.contains a := by
      rw [← hcon, ← hrew.contains]
      exact ha
    rw [hrew.node_eq fun i => hnode ▸ hfree hl hc hS i, hnode] at hv
    refine ((h a v hc hS hv).splice hd he.node hl hsp hg).rewired hd₁.sound hrew ?_
    exact (he.node.isLegal_splice hd hsp hg).not.2 hl

/-! ### Side by side -/

/-- Sessions of which the second lacks nodes that are passed over. -/
structure Alongside (d : Description) (S : Nat → Prop) (s t : Session) : Prop where
  paired : Paired d.features S s t
  quiet : Quiet d.features S s.graph

namespace Alongside

variable (h : Alongside d S s t)
include h

theorem shared_of_needs {a : Nat} (hl : ¬ IsLegal d.features s.graph id) (ha : s.graph.Needs a id) :
    S a := by
  by_contra hS
  obtain ⟨hc, i, hi⟩ := Graph.needs_iff.1 ha
  exact hl ((h.quiet a _ hc hS hi).legal id .refl)

theorem sameUsers (hl : ¬ IsLegal d.features s.graph id) : SameUsers s.graph t.graph id := by
  intro _ info _ _ i
  have hs := h.paired.left.disciplined.sound
  refine Graph.valueUsers_congr h.paired.right.disciplined.sound.exact hs.exact fun a => ⟨?_, ?_⟩
  · rintro ⟨ha, hv⟩
    have hS := h.paired.graphs.only a ha
    exact ⟨h.paired.graphs.contains_left ha, h.paired.graphs.node a hS ▸ hv⟩
  · rintro ⟨ha, hv⟩
    have hS := h.shared_of_needs hl (Graph.needs_iff.2 ⟨ha, i, hv⟩)
    exact ⟨(h.paired.graphs.contains a hS).trans ha, (h.paired.graphs.node a hS).symm ▸ hv⟩

theorem hasUses (hl : ¬ IsLegal d.features s.graph id) (hu : s.graph.hasUses (some id)) :
    t.graph.hasUses (some id) := by
  rw [h.paired.right.disciplined.sound.hasUses_iff, h.paired.graphs.root]
  rcases h.paired.left.disciplined.sound.hasUses_iff.1 hu with ⟨a, ha⟩ | hr
  · have hS := h.shared_of_needs hl ha
    exact .inl ⟨a, (h.paired.graphs.agree.needs_iff hS).2 ha⟩
  · exact .inr hr

theorem passes (hS : ¬ S id) (hu : s.graph.hasUses (some id)) : IsLegal d.features s.graph id := by
  by_contra hl
  rcases h.paired.left.disciplined.sound.hasUses_iff.1 hu with ⟨a, ha⟩ | ⟨v, hv, rfl⟩
  · obtain ⟨-, i, hi⟩ := Graph.needs_iff.1 ha
    exact hS (h.paired.graphs.closed a _ (h.shared_of_needs hl ha) hi)
  · exact hS (h.paired.graphs.shared_root hv)

end Alongside

/-- Points of two lowerings that belong together. -/
inductive Abreast (d : Description) (S : Nat → Prop) :
    Point × Session → Point × Session → Prop where
  | round {s t : Session} {left : Nat} (h : Alongside d S s t) :
      Abreast d S (.round left [], s) (.round left [], t)
  | sweep {s t : Session} {left : Nat} {done : Lower.Sweep} {rest rest' : List Nat}
      (h : Alongside d S s t) (hkept : done.kept = []) (hrest : ∀ id ∈ rest, s.graph.contains id)
      (hpart : rest' = rest.filter t.graph.contains) :
      Abreast d S (.sweep left done rest, s) (.sweep left done rest', t)
  | cleanup {s t : Session} (h : Matched S s.graph t.graph) (htarget : t.target = s.target)
      (hname : t.opName = s.opName) : Abreast d S (.cleanup [], s) (.cleanup [], t)
  | combine {s t : Session} {S' : Nat → Prop} {budget : Nat} {worklist : List Nat}
      (h : Twin S' s t) : Abreast d S (.combine [] budget worklist, s)
      (.combine [] budget worklist, t)
  | verify {s t : Session} {S' : Nat → Prop} (h : Twin S' s t) :
      Abreast d S (.verify [], s) (.verify [], t)
  | ended {s t : Session} {S' : Nat → Prop} (h : Twin S' s t) :
      Abreast d S (.ended [], s) (.ended [], t)
  | failed {s t : Session} {e e' : Lower.Failure} : Abreast d S (.failed e, s) (.failed e', t)

theorem Twin.size (h : Twin S s t) : t.graph.size = s.graph.size := by
  have hpresent : t.graph.entries.map (·.present) = s.graph.entries.map (·.present) := by
    refine Array.ext (by simp [h.graphs.size]) fun i hi hi' => ?_
    simp only [Array.size_map] at hi hi'
    have hc := h.contains i
    simpa [Graph.contains, hi, hi'] using hc
  have hcount : ∀ g : Graph, g.size = (g.entries.map (·.present)).countP id := by
    intro g
    rw [Graph.size, Array.countP_map, Array.countP_eq_size_filter]
    rfl
  rw [hcount, hcount, hpresent]

theorem Twin.passes_iff (h : Twin S s t) (hc : s.graph.contains id) :
    Passes d.features t.graph id ↔ Passes d.features s.graph id := by
  have hS := h.all id hc
  rw [Passes, Passes, h.graphs.node id hS]
  refine or_congr_right (isLegal_congr (h.graphs.node id hS) fun v hv => ?_)
  exact h.graphs.type? (h.graphs.closed id v hS hv)

theorem Abreast.cleanup_next (h : Matched S s.graph t.graph) (htarget : t.target = s.target)
    (hname : t.opName = s.opName) :
    Abreast d S (Lower.next (target d) o (.cleanup [], s))
    (Lower.next (target d) o (.cleanup [], t)) := by
  obtain ⟨log, hs⟩ := Lower.outcome_cleanup s
  obtain ⟨log', ht⟩ := Lower.outcome_cleanup t
  rw [Lower.next, Lower.next, hs, ht]
  dsimp only
  have hall : ∀ id, s.graph.removeDead.1.contains id → s.graph.Live id ∨
    s.graph.entries.size ≤ id := fun id hid => .inl (h.left.sound.contains_removeDead.1 hid)
  have htwin : Twin (fun id => s.graph.Live id ∨ s.graph.entries.size ≤ id)
      (Session.note { s with graph := s.graph.removeDead.1, log } .cleanup)
      (Session.note { t with graph := t.graph.removeDead.1, log := log' } .cleanup) :=
    ⟨h.removeDead, hall, htarget, hname⟩
  rw [htwin.size, htwin.nodes, htwin.targetNodes fun id hid =>
    hall id (htwin.graphs.left.sound.contains_of_mem_nodes hid)]
  exact .combine htwin

/-- The second lowering is abreast of the first after each step of it. -/
theorem Abreast.next (ho : o.libcalls = Libcalls.standard) (h : Abreast d S c c')
    (hg : Shaped .bare c.2.graph) :
    ∃ c'', Course (target d) o c' c'' ∧ Abreast d S (Lower.next (target d) o c) c'' := by
  cases h with
  | @round s t left h =>
    refine ⟨_, .step, ?_⟩
    cases left with
    | zero => exact .failed
    | succ left =>
      have hs := h.paired.left.disciplined.sound
      refine .sweep h rfl (fun id hid => hs.contains_of_mem_nodes hid) ?_
      exact hs.nodes_part h.paired.right.disciplined.sound (fun _ => h.paired.graphs.contains_left)
        fun _ _ => h.paired.graphs.needs_iff
  | @sweep s t left done rest rest' h hkept hrest hpart =>
    subst hpart
    cases rest with
    | nil =>
      refine ⟨_, .step, ?_⟩
      rw [List.filter_nil, Lower.next, Lower.next, hkept]
      split
      · exact .round h
      · exact .cleanup h.paired.graphs h.paired.target h.paired.opName
    | cons id rest =>
      have hc := hrest id (by simp)
      by_cases hS : S id
      · have hct : t.graph.contains id := (h.paired.graphs.contains id hS).trans hc
        obtain ⟨r, s', t', hs, ht, -, hr⟩ := h.paired.legalizeNode (l := Libcalls.standard) hg
          (fun _ _ => isArithmetic_of_standard) hS hc
            (show id ∉ done.kept by simp [hkept]) h.sameUsers
          fun hu hl => h.hasUses hl hu
        refine ⟨_, .step, ?_⟩
        rw [List.filter_cons_of_pos hct, Lower.next, Lower.next, ho, hs, ht]
        cases r with
        | error e => exact .failed
        | ok done' =>
          obtain ⟨hkept', hpaired, htreated⟩ := hr done' rfl
          refine .sweep ⟨hpaired, h.quiet.treated h.paired htreated⟩ (hkept'.trans hkept)
            (fun m hm => htreated.contains (hrest m (by simp [hm]))) ?_
          refine List.filter_congr fun m hm => ?_
          have hm := hrest m (by simp [hm])
          rw [Bool.eq_iff_iff, h.paired.graphs.contains_iff hm,
            hpaired.graphs.contains_iff (htreated.contains hm)]
      · have hct : ¬ t.graph.contains id := fun hct => hS (h.paired.graphs.only id hct)
        obtain ⟨m, hs⟩ := outcome_legalizeNode_idle (l := Libcalls.standard) (h.passes hS)
        refine ⟨_, .refl, ?_⟩
        rw [List.filter_cons_of_neg hct, Lower.next, ho, hs]
        refine .sweep ⟨h.paired.of_logs rfl rfl rfl rfl rfl rfl rfl rfl, h.quiet⟩ hkept
          (fun m hm => hrest m (by simp [hm])) rfl
  | cleanup h htarget hname => exact ⟨_, .step, Abreast.cleanup_next h htarget hname⟩
  | @combine s t S' budget worklist h =>
    refine ⟨_, .step, ?_⟩
    cases worklist with
    | nil =>
      refine .verify ⟨h.graphs.removeDead, fun id hid => ?_, h.target, h.opName⟩
      exact .inl (h.graphs.left.sound.contains_removeDead.1 hid)
    | cons id rest =>
      obtain ⟨r, s', t', hs, ht, htwin, hfit⟩ := h.combined d id
      rw [Lower.next, Lower.next, hs, ht]
      cases r with
      | error e => exact .failed
      | ok v =>
        cases v with
        | none => exact .combine htwin
        | some v =>
          cases budget with
          | zero => exact .failed
          | succ budget =>
            obtain ⟨v, rfl, -, hf⟩ := hfit v rfl
            obtain ⟨w, s'', t'', hs', ht', htwin', -⟩ := htwin.putCombined hf rest
            simp only [Lower.arrive, hs', ht']
            exact .combine htwin'
  | @verify s t S' h =>
    refine ⟨_, .step, ?_⟩
    obtain ⟨r, hr, hpass⟩ := outcome_verify d s h.graphs.left
    obtain ⟨r', hr', hpass'⟩ := outcome_verify d t h.graphs.right
    have hiff : r' = .ok () ↔ r = .ok () := by
      rw [hpass, hpass']
      refine forall_congr' fun id => ?_
      rw [h.contains]
      exact imp_congr_right fun hc => h.passes_iff hc
    rw [Lower.next, Lower.next, hr, hr']
    cases r with
    | error e =>
      cases r' with
      | error e' => exact .failed
      | ok _ => cases hiff.1 rfl
    | ok _ =>
      cases hiff.2 rfl
      exact .ended ⟨h.graphs, h.all, h.target, h.opName⟩
  | ended h => exact ⟨_, .refl, .ended h⟩
  | failed => exact ⟨_, .refl, .failed⟩

theorem Abreast.course (ho : o.libcalls = Libcalls.standard) (h : Abreast d S c c')
    (hg : Sturdy (fun _ => False) c) {a : Point × Session} (hc : Course (target d) o c a) :
    ∃ a', Course (target d) o c' a' ∧ Abreast d S a a' := by
  induction hc with
  | refl => exact ⟨c', .refl, h⟩
  | tail hc he ih =>
    obtain ⟨b', hb, hab⟩ := ih
    obtain ⟨b'', hb', hab'⟩ := hab.next ho (Course.keeps (fun _ h => h.next ho) hc hg).shaped
    exact ⟨b'', hb.trans hb', he ▸ hab'⟩

/-! ### Whole lowerings -/

theorem Matched.live_part (hw : FunctionFile.Written g) (hd : Disciplined none g) :
    Matched (fun id => g.Live id ∨ g.entries.size ≤ id) g g.removeDead.1 where
  left := hd
  right := hd.removeDead
  size := by rw [Graph.removeDead_eq, Graph.size_removeNodes]
  signature := by rw [Graph.removeDead_eq, Graph.signature_removeNodes]
  frame := by rw [Graph.removeDead_eq, Graph.frame_removeNodes]
  root := by rw [Graph.removeDead_eq, Graph.root_removeNodes]
  node id _ := by rw [Graph.removeDead_eq, Graph.node_removeNodes]
  contains id hid := by
    rw [Bool.eq_iff_iff, hd.sound.contains_removeDead]
    refine ⟨hd.sound.contains_of_live, fun hc => hid.resolve_right ?_⟩
    exact Nat.not_le.2 (Graph.contains_lt hc)
  only id hid := .inl (hd.sound.contains_removeDead.1 hid)
  closed id v hid hv := .inl (live_of_mem_operands hd.sound hid hv)
  fresh _ hle := .inr hle
  slots id v _ _ hs := absurd hs (not_isSlot_of_written hw v.node)

/-- The lowerings end together: both fail, or they end in the same graph. -/
theorem Abreast.lower {s t : Session} (ho : o.libcalls = Libcalls.standard)
    (h : Abreast d S (outset o s) (outset o t)) (hg : Sturdy (fun _ => False) (outset o s)) :
    (∃ e s' e' t', Lower.lower (target d) o s = (.error e, s') ∧ Lower.lower (target d) o t =
      (.error e', t')) ∨ ∃ s' t', Lower.lower (target d) o s = (.ok (), s') ∧
      Lower.lower (target d) o t = (.ok (), t') ∧
        ∃ S', Twin S' s' t' := by
  obtain ⟨kept, s', hs, hlower⟩ | ⟨e, s', hs, hlower⟩ := Lower.lower_cases (target d) o s
  · obtain ⟨a, ha, hab⟩ := h.course ho hg hs
    cases hab with
    | @ended _ t S' htwin =>
      exact .inr ⟨_, _, hlower, ha.lower_eq rfl, S', htwin.graphs, htwin.all,
        htwin.target, htwin.opName⟩
  · obtain ⟨a, ha, hab⟩ := h.course ho hg hs
    cases hab
    exact .inl ⟨_, _, _, _, hlower, ha.lower_eq rfl⟩

/-- Where dead nodes take only what rests on legal nodes, they do not matter: the function without
them is lowered if and only if the whole function is, and to the same nodes and the same root. -/
theorem lowering_ignores_dead_nodes {k : FunctionFile.Decoder} {text : String} {gs : List Graph}
    {t : Lower.Target} (hparse : k.parse text = .ok gs) (hg : g ∈ gs)
    (hglue : ∀ id, .glue ∉ (g.node id).types) (hmake : make d = .ok t)
    (hdead : ∀ a v, g.contains a → ¬ g.Live a → some v ∈ (g.node a).operands →
      ∀ id, g.Reaches v.node id → IsLegal d.features g id)
    (maxRounds : Int) (metrics metrics' : Metrics) (log log' : Array LogRecord) :
    (∃ e s e' s', Lower.lowerGraph t { maxRounds } g metrics log = (.error e, s) ∧
      Lower.lowerGraph t { maxRounds } g.removeDead.1 metrics' log' = (.error e', s')) ∨
    ∃ s s', Lower.lowerGraph t { maxRounds } g metrics log = (.ok (), s) ∧
      Lower.lowerGraph t { maxRounds } g.removeDead.1 metrics' log' = (.ok (), s') ∧
      s'.graph.root = s.graph.root ∧ s'.graph.frame = s.graph.frame ∧
      ∀ id, s'.graph.contains id = s.graph.contains id ∧
        (s.graph.contains id → s'.graph.node id = s.graph.node id) := by
  obtain rfl := make_eq_ok hmake
  have hw := FunctionFile.parse_written hparse hg
  have hd := Disciplined.of_written hw hglue
  have hquiet : Quiet d.features (fun id => g.Live id ∨ g.entries.size ≤ id) g := by
    intro a v ha hS hv
    obtain ⟨w, hw', hhas⟩ := hd.sound.operands a ha _ hv
    cases hw'
    exact ⟨hhas, plain_of_written hw hglue v, hdead a v ha (fun hl => hS (.inl hl)) hv⟩
  have hstart : Abreast d (fun id => g.Live id ∨ g.entries.size ≤ id)
      (outset { maxRounds } ((target d).session g metrics log))
      (outset { maxRounds } ((target d).session g.removeDead.1 metrics' log')) :=
    .round ⟨⟨.live_part hw hd, ⟨hd, nofun⟩, ⟨hd.removeDead, nofun⟩, rfl, rfl, rfl⟩, hquiet⟩
  rcases hstart.lower rfl (.start (.bare_of_written hw)) with hfail | ⟨s, s', hs, hs', S', htwin⟩
  · exact .inl hfail
  · refine .inr ⟨s, s', hs, hs', htwin.graphs.root, htwin.graphs.frame,
      fun id => ⟨htwin.contains id, fun hc => ?_⟩⟩
    exact htwin.graphs.node id (htwin.all id hc)

/-- A file with a function that returns a number and has a sum that it does not need. -/
def unneededFile : String := String.join [
  "functions:\n- name: f\n  nodes:\n",
  "  - name: k\n    op: Constant\n    type: i32\n",
  "  - name: d\n    op: add\n    ops: [k, k]\n",
  "  - name: r\n    op: return\n    ops: [entry, k]\n"]

/-- The sum of the sample is dead, and the function is lowered with it as without it. -/
theorem lowering_ignores_dead_nodes_sum :
    ∃ g s s', FunctionFile.parse unneededFile = .ok [g] ∧ g.contains 2 ∧ ¬ g.Live 2 ∧
      Lower.lowerGraph (target .builtIn) {} g = (.ok (), s) ∧
      Lower.lowerGraph (target .builtIn) {} g.removeDead.1 = (.ok (), s') ∧
      s'.graph.root = s.graph.root ∧ ∀ id, s.graph.contains id →
      s'.graph.node id = s.graph.node id := by
  have h : holdsOfOnly (fun g => decide ((g.entries.all fun e => .glue ∉ e.node.types) ∧
      g.contains 2 ∧ ¬ g.removeDead.1.contains 2 ∧
      (∀ id < g.entries.size, id ≠ 2 → g.removeDead.1.contains id) ∧
      (g.node 2).operands = [some ⟨1, 0⟩, some ⟨1, 0⟩] ∧ (g.node 1).operands = [] ∧
      (g.node 1).op = .constant ∧ g.nodeTypes? 1 = some [.i32] ∧
      (Lower.lowerGraph (target .builtIn) {} g).1.isOk)) (FunctionFile.parse unneededFile) =
      true := by
    exact FunctionFile.holdsOfOnly_join (by decide +kernel)
  obtain ⟨g, hparse, h⟩ := exists_of_holdsOfOnly h
  obtain ⟨hglue, hc, hdead, hlive, hsum, hleaf, hop, htypes, hok⟩ := of_decide_eq_true h
  have hs := (FunctionFile.parse_written hparse (List.mem_singleton_self g)).sound
  have hquiet : ∀ a v, g.contains a → ¬ g.Live a → some v ∈ (g.node a).operands →
      ∀ id, g.Reaches v.node id → IsLegal Subtarget.Description.builtIn.features g id := by
    intro a v ha hl hv id hid
    obtain rfl : a = 2 := by
      by_contra hne
      exact hl (hs.contains_removeDead.1 (hlive a (Graph.contains_lt ha) hne))
    obtain rfl : v = ⟨1, 0⟩ := by simpa [hsum] using hv
    obtain rfl | ⟨b, hb, -⟩ := hid.cases_head
    · exact ⟨_, htypes, by rw [hop]; decide⟩
    · obtain ⟨-, i, hi⟩ := Graph.needs_iff.1 hb
      rw [hleaf] at hi
      cases hi
  rcases lowering_ignores_dead_nodes hparse (by simp) (glue_notMem_of_all hglue) make_builtIn hquiet
      0 {} {} #[] #[] with
    ⟨e, s, e', s', he, -⟩ | ⟨s, s', he, he', hroot, -, hall⟩
  · rw [show Lower.lowerGraph (target .builtIn) {} g = _ from he] at hok
    cases hok
  · exact ⟨g, s, s', hparse, hc, fun hl => hdead (hs.contains_removeDead.2 hl), he, he', hroot,
      fun id hid => (hall id).2 hid⟩

/-- A file with a function that has a quotient only dead nodes need. -/
def unneededQuotientFile : String := String.join [
  "functions:\n- name: f\n  nodes:\n",
  "  - name: k\n    op: Constant\n    type: i32\n",
  "  - name: q\n    op: sdiv\n    ops: [k, k]\n",
  "  - name: d\n    op: add\n    ops: [q, q]\n",
  "  - name: r\n    op: return\n    ops: [entry, k]\n"]

/-- The operation that a lowering without failure ends in. -/
def lastOp? (g : Graph) : Option Opcode :=
  match Lower.lowerGraph (target .builtIn) {} g with
  | (.ok (), s) => s.graph.root.map fun r => (s.graph.node r.node).op
  | (.error _, _) => none

/-- The division is called for although nothing that is live needs it, and its call takes the place
of the return. -/
theorem dead_quotient_ends_function :
    ∃ g, FunctionFile.parse unneededQuotientFile = .ok [g] ∧ lastOp? g.removeDead.1 = some Op.ret ∧
      lastOp? g = some .copyFromReg := by
  have h : holdsOfOnly (fun g => decide (lastOp? g.removeDead.1 = some Op.ret ∧
    lastOp? g = some .copyFromReg))
      (FunctionFile.parse unneededQuotientFile) = true := by
    exact FunctionFile.holdsOfOnly_join (by decide +kernel)
  obtain ⟨g, hparse, h⟩ := exists_of_holdsOfOnly h
  exact ⟨g, hparse, of_decide_eq_true h⟩

end GraphLowering.Usim
