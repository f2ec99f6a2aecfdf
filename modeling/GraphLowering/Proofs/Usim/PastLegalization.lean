import GraphLowering.Proofs.Usim.Lowered
import Mathlib.Data.Finset.Card

/-!
# After legalization

A choice that is combined is used no more, and nothing gets used that was not. So the steps that are
allowed for combining are enough (`course_verify`). A round of legalization that changes nothing
leaves legal nodes only, apart from those that are not used, and if both arms of a choice have one
type, combining keeps them legal (`Legalized`). So what was legalized is lowered.
-/

namespace GraphLowering.Usim

open Lower (Session Lowering Options Point Course Libcalls Metrics outset)
open Lower.Lowering
open FunctionFile (holdsOfOnly exists_of_holdsOfOnly)
open Subtarget (Description)

variable {d : Description} {g g' : Graph} {s s' : Session} {id : Nat} {o : Options}
  {kept rest : List Nat} {f : Subtarget.Features} {W : Typing → Prop} {c : Point × Session}

/-! ### Choices that are used -/

theorem hasUses_of_live (hs : g.Sound) (hl : g.Live id) (hid : id ≠ Graph.entry.node) :
    g.hasUses (some id) := by
  rw [hs.hasUses_iff]
  obtain ⟨r, hroot, hr⟩ := hl.resolve_left hid
  rcases hr.cases_tail with rfl | ⟨a, -, ha⟩
  · exact .inr ⟨r, hroot, rfl⟩
  · exact .inl ⟨a, ha⟩

/-! ### Legal nodes -/

/-- Every node is legal for the types it works on. -/
def AllLegal (f : Subtarget.Features) (g : Graph) : Prop := ∀ id, g.contains id → IsLegal f g id

theorem nodeTypes?_retyped (h : Retyped g g') (hid : g.contains id) (hs : g.Sound)
    (hlen : (g'.node id).operands.length = (g.node id).operands.length)
    (ht : (g'.node id).types = (g.node id).types) : g'.nodeTypes? id = g.nodeTypes? id := by
  have hmap : (g'.node id).operands.map g'.operandType? = (g.node id).operands.map
      g.operandType? := by
    refine List.ext_getElem? fun i => ?_
    rw [List.getElem?_map, List.getElem?_map]
    cases hi : (g.node id).operands[i]? with
    | none => rw [List.getElem?_eq_none (hlen ▸ List.getElem?_eq_none_iff.1 hi)]; rfl
    | some o =>
      obtain ⟨v, rfl, -⟩ := hs.operands id hid o (List.mem_of_getElem? hi)
      obtain ⟨w, hw, hwt⟩ := h id hid i v hi
      rw [hw]
      exact congrArg some hwt
  have hmapM : ∀ g : Graph, (g.node id).operands.mapM g.operandType? =
      ((g.node id).operands.map g.operandType?).mapM fun x => x :=
        fun g => by rw [List.mapM_map]; rfl
  rw [Graph.nodeTypes?, Graph.nodeTypes?, hmapM, hmapM, hmap, ht]

theorem AllLegal.replaceValue {v w : Value} (h : AllLegal f g) (hg : Shaped (.types W) g)
    (ht : g.type? w = g.type? v) : AllLegal f (g.replaceValue (some v) (some w)) := by
  intro id hid
  by_cases hvw : some v = some w
  · rw [Graph.replaceValue, if_pos hvw] at hid ⊢
    exact h id hid
  rw [Graph.contains_replaceValue hvw] at hid
  have hnode := hg.sound.exact.node_replaceValue hvw hid
  obtain ⟨types, htypes, hlegal⟩ := h id hid
  refine ⟨types, ?_, by rw [hnode]; exact hlegal⟩
  rw [nodeTypes?_retyped (hg.retyped_replaceValue ht) hid hg.sound (by simp [hnode])
    (by rw [hnode]), htypes]

theorem AllLegal.jump {chain dest : Option Value} (h : AllLegal f g)
    (hg : Shaped (.types W) g) (hW : W .full) (hc : g.contains id) (hop : (g.node id).op = Op.brCC)
    (hchain : (g.node id).operands[0]? = some chain)
    (hdest : (g.node id).operands[4]? = some dest) :
    AllLegal f (g.single .br .chain [chain, dest]).1 := by
  have hproper := hg.fits id hc
  have htypes : (g.node id).types[0]? = some .chain := by
    have hgives := hproper.gives
    rw [hop] at hgives
    rw [of_decide_eq_true (p := (g.node id).types = [.chain]) hgives]
    rfl
  have hct := (hproper.arm hW (by rw [hop]; decide) hchain).trans htypes
  have hdt := (hproper.arm hW (by rw [hop]; decide) hdest).trans htypes
  obtain ⟨v, rfl, hv⟩ := hproper.operands _ (List.mem_of_getElem? hchain)
  obtain ⟨w, rfl, hw⟩ := hproper.operands _ (List.mem_of_getElem? hdest)
  have hx : g.Extends (g.single .br .chain [some v, some w]).1 := .newNode ..
  intro m hm
  by_cases hnew : m = g.entries.size
  · subst hnew
    have hself : (g.single .br .chain [some v, some w]).1.node g.entries.size =
      ⟨.br, [.chain], [some v, some w], .none⟩ := Graph.node_newNode_self ..
    have hvt := (hx.type? hv.lt).trans hct
    have hwt := (hx.type? hw.lt).trans hdt
    refine ⟨[.chain], ?_, ?_⟩
    · simp [Graph.nodeTypes?, hself, Graph.operandType?, hvt, hwt, ValueType.isToken]
    · rw [hself]
      rfl
  · have hm' : g.contains m := by simpa [Graph.single, Graph.contains_newNode, hnew] using hm
    refine (isLegal_congr (hx.node m (Graph.contains_lt hm')) fun u hu => ?_).2 (h m hm')
    exact hx.type? ((hg.fits m hm').has hu).lt

theorem AllLegal.combined? {x : Option Value} (h : AllLegal f s.graph)
    (hd : Disciplined none s.graph) (hg : Shaped (.types W) s.graph) (hW : W .full)
    (hs : outcome (Lower.combined? (target d) id) s = (.ok (some x), s')) :
    AllLegal f s'.graph := by
  obtain ⟨hc, c, hcomb, hx⟩ := combined?_spec hd hs
  cases hcomb with
  | stays => cases hx
  | arm hop ho =>
    cases hx
    exact h
  | falls hop ho =>
    cases hx
    exact h
  | jumps hop hchain hdest =>
    cases hx
    exact h.jump hg hW hc hop hchain hdest

theorem AllLegal.removeDead (h : ∀ id, g.hasUses (some id) → IsLegal f g id) (hs : g.Sound) :
    AllLegal f g.removeDead.1 := by
  intro id hid
  have hlive := hs.contains_removeDead.1 hid
  have hnode : ∀ id, g.removeDead.1.node id = g.node id := fun id => by
    rw [Graph.removeDead_eq, Graph.node_removeNodes]
  refine (isLegal_congr (hnode id) fun v _ => by rw [Graph.type?_eq, Graph.type?_eq, hnode]).2 ?_
  by_cases hentry : id = Graph.entry.node
  · obtain ⟨hc, hnode⟩ := hs.entry
    rw [hentry]
    refine ⟨[.chain], ?_, ?_⟩
    · simp [Graph.nodeTypes?, hnode]
    · rw [hnode]
      rfl
  · exact h id (hasUses_of_live hs hlive hentry)

/-! ### Legalization leaves legal nodes -/

/-- What legalization has got to. In a round that has changed nothing, nodes that are used are legal
or are still to be looked at. -/
def Legalized (f : Subtarget.Features) : Point × Session → Prop
  | (.sweep _ done rest, s) => done.changed = false → ∀ id, s.graph.hasUses (some id) → id ∈ rest ∨
    IsLegal f s.graph id
  | (.cleanup _, s) => ∀ id, s.graph.hasUses (some id) → IsLegal f s.graph id
  | (.combine _ _ _, s) | (.verify _, s) => AllLegal f s.graph
  | _ => True

/-- Treating a node that is used and not legal changes the graph. -/
theorem changed_of_not_isLegal {done done' : Lower.Sweep} (hkept : id ∉ done.kept)
    (hs : s.graph.Sound) (hid : s.graph.contains id) (hu : s.graph.hasUses (some id))
    (hl : ¬ IsLegal d.features s.graph id)
    (h : outcome (Lower.legalizeNode (target d) Libcalls.standard done id) s = (.ok done', s')) :
    done'.changed := by
  obtain ⟨types, ht⟩ := Option.isSome_iff_exists.1 (hs.nodeTypes?_isSome hid)
  have hact : classify d.features (s.graph.node id).op types ≠ .legal :=
    fun he => hl ⟨types, ht, he⟩
  rw [outcome_legalizeNode_act ht hkept hu hact] at h
  obtain ⟨r, s₁, hr, h⟩ := outcome_bind_ok.1 h
  obtain ⟨values, rfl⟩ := substitute_answers (s := counted s _) hact hr
  obtain ⟨_, s₂, -, h⟩ := outcome_bind_ok.1 h
  obtain ⟨_, s₃, -, h⟩ := outcome_bind_ok.1 h
  cases h
  rfl

theorem Legalized.next (ho : o.libcalls = Libcalls.standard) (hW : W .full)
    (h : Legalized d.features c) (hstands : Stands d c) (hsturdy : Sturdy W c) :
    Legalized d.features (Lower.next (target d) o c) := by
  obtain ⟨p, s⟩ := c
  cases p with
  | round left kept =>
    cases left with
    | zero => trivial
    | succ left =>
      have hd := hstands.2.disciplined
      exact fun _ id hu => .inl
        ((hd.acyclic.mem_nodes hd.sound).2 (hd.sound.contains_of_hasUses hu))
  | sweep left done rest =>
    obtain ⟨hkept, hsteady, hrest⟩ := hstands
    cases rest with
    | nil =>
      rw [Lower.next]
      split <;> rename_i hchanged
      · trivial
      · exact fun id hu => (h (by simpa using hchanged) id hu).resolve_left List.not_mem_nil
    | cons id rest =>
      rw [Lower.next, ho]
      by_cases hl : s.graph.hasUses (some id) → IsLegal d.features s.graph id
      · obtain ⟨m, hm⟩ : ∃ m, outcome (Lower.legalizeNode (target d) Libcalls.standard done id) s =
            (.ok done, { s with metrics := m }) := outcome_legalizeNode_idle hl
        rw [hm]
        intro hchanged a ha
        rcases h hchanged a ha with hmem | hlegal
        · rcases List.mem_cons.1 hmem with rfl | hmem
          · exact .inr (hl ha)
          · exact .inl hmem
        · exact .inr hlegal
      · rw [Classical.not_imp] at hl
        rcases hr : outcome (Lower.legalizeNode (target d) Libcalls.standard done id)
          s with ⟨e | done', s'⟩
        · trivial
        · have hchanged := changed_of_not_isLegal (by simp [hkept]) hsteady.disciplined.sound
            (hrest id List.mem_cons_self) hl.1 hl.2 hr
          exact fun hsame => by simp [hchanged] at hsame
  | cleanup kept =>
    obtain ⟨log, hlog⟩ := Lower.outcome_cleanup s
    rw [Lower.next, hlog]
    exact .removeDead h hstands.2.sound
  | combine kept budget worklist =>
    have hd : Disciplined none s.graph := hstands.2.1
    cases worklist with
    | nil => exact .removeDead (fun id hu => h id (hd.sound.contains_of_hasUses hu)) hd.sound
    | cons id rest =>
      obtain ⟨r, s', hr, hs', hv⟩ := Shaped.combined? (d := d) hsturdy id
      rw [Lower.next, hr]
      cases r with
      | error e => trivial
      | ok v =>
        cases v with
        | none =>
          obtain ⟨rfl, -⟩ := combined?_none hd hr
          exact h
        | some v =>
          cases budget with
          | zero => trivial
          | succ budget =>
            obtain ⟨⟨w, rfl, hw⟩, ht⟩ := hv v rfl
            exact (AllLegal.combined? h hd hsturdy ⟨hW, hW⟩ hr).replaceValue hs' (ht ⟨hW, hW⟩)
  | verify kept =>
    rw [Lower.next]
    rcases outcome (Lower.verify (target d) kept) s with ⟨e | _, s'⟩ <;> trivial
  | ended kept => trivial
  | failed e => trivial

/-! ### Legalized functions are lowered -/

variable {k : FunctionFile.Decoder} {text : String} {gs : List Graph} {t : Lower.Target}
  {maxRounds : Int} {metrics : Metrics} {log : Array LogRecord}

theorem Legalized.course (hd : Disciplined none g) (hg : Shaped (.types W) g) (hW : W .full)
    (ho : o.libcalls = Libcalls.standard)
    (hc : Course (target d) o (outset o ((target d).session g metrics log)) c) :
    Stands d c ∧ Sturdy W c ∧ Legalized d.features c := by
  refine hc.keeps (P := fun c => Stands d c ∧ Sturdy W c ∧ Legalized d.features c) (fun c h => ?_)
    ⟨⟨rfl, hd, nofun⟩, .start hg, trivial⟩
  exact ⟨h.1.next ho fun _ => h.2.1.shaped, h.2.1.next ho, h.2.2.next ho hW h.1 h.2.1⟩

def typeAt? (g : Graph) (n : Node) (i : Nat) : Option ValueType :=
  n.operands[i]?.bind g.operandType?

/-- The arms of a choice have one type, a branch follows a chain, and a pair is made of words. -/
def Agrees (g : Graph) (n : Node) : Prop :=
  match n.op with
  | .select => typeAt? g n 1 = typeAt? g n 2
  | .selectCC => typeAt? g n 2 = typeAt? g n 3
  | .brCond | .brCC => typeAt? g n 0 = some .chain
  | .buildPair =>
    (∃ vt ∈ n.types, vt.isWide) → typeAt? g n 0 = some .i32 ∧ typeAt? g n 1 = some .i32
  | _ => True

instance {n : Node} : Decidable (Agrees g n) := by
  unfold Agrees
  split <;> infer_instance

/-- A function in which types agree, without glue, and with no pair for a root. -/
structure Uniform (g : Graph) : Prop where
  agrees : ∀ id, Agrees g (g.node id)
  glue : ∀ id, .glue ∉ (g.node id).types
  root : ∀ v, g.root = some v → ∀ vt, g.type? v = some vt → vt.isWide = false

theorem exists_of_typeAt? {n : Node} {i : Nat} {vt : ValueType} (hs : ∀ o ∈ n.operands, Filled g o)
    (h : typeAt? g n i = some vt) : ∃ v, n.operands[i]? = some (some v) ∧ g.type? v = some vt := by
  obtain ⟨o, ho, ht⟩ := Option.bind_eq_some_iff.1 h
  obtain ⟨v, rfl, -⟩ := hs o (List.mem_of_getElem? ho)
  exact ⟨v, ho, ht⟩

theorem Uniform.shaped (h : Uniform g) (hw : FunctionFile.Written g) :
    Shaped (.types (· = .full)) g := by
  -- what agrees with the arm that the file gives the type of
  have harm : ∀ {id i j : Nat}, g.contains id → (g.node id).op.arm? = some i →
      typeAt? g (g.node id) i = typeAt? g (g.node id) j →
      ∃ v, (g.node id).operands[j]? = some (some v) ∧ g.type? v = (g.node id).types.head? := by
    intro id i j hid hi hij
    obtain ⟨v, hv, ht⟩ := hw.arm id (Graph.contains_lt hid) i hi
    obtain ⟨vt, hvt⟩ := Option.isSome_iff_exists.1
      (((hw.sound.operands id hid _ (List.mem_of_getElem? hv)).elim fun w hw =>
      Option.some.inj hw.1 ▸ hw.2.2))
    rw [typeAt?, hv] at hij
    obtain ⟨w, hw', hwt⟩ := exists_of_typeAt? (hw.sound.operands id hid) (hij.symm.trans hvt)
    exact ⟨w, hw', hwt.trans (hvt.symm.trans ht)⟩
  have hchain : ∀ {id : Nat}, g.contains id → (g.node id).op = .brCond ∨ (g.node id).op = .brCC →
      ∃ v, (g.node id).operands[0]? = some (some v) ∧ g.type? v = (g.node id).types.head? := by
    intro id hid hop
    have hgives := hw.gives id (Graph.contains_lt hid)
    have htypes : (g.node id).types = [.chain] := by
      rcases hop with hop | hop <;> rw [hop] at hgives <;> exact of_decide_eq_true hgives
    have hagrees := h.agrees id
    rw [htypes]
    refine exists_of_typeAt? (hw.sound.operands id hid) ?_
    rcases hop with hop | hop <;> rw [Agrees, hop] at hagrees <;> exact hagrees
  refine .of_written hw ?_ ?_ ?_
  · rintro _ rfl id hid i hi hne
    have hagrees := h.agrees id
    simp only [Typing.arms] at hi
    split at hi <;> rename_i hop
    · obtain rfl := (List.mem_pair.1 hi).resolve_left fun he => hne (by rw [hop, he]; rfl)
      rw [Agrees, hop] at hagrees
      exact harm hid (by rw [hop]; rfl) hagrees
    · obtain rfl := (List.mem_pair.1 hi).resolve_left fun he => hne (by rw [hop, he]; rfl)
      rw [Agrees, hop] at hagrees
      exact harm hid (by rw [hop]; rfl) hagrees
    · exact absurd (hw.op id (Graph.contains_lt hid)) (by rw [hop]; exact Bool.false_ne_true)
    · obtain rfl := (List.mem_pair.1 hi).resolve_right fun he => hne (by rw [hop, he]; rfl)
      exact hchain hid (.inl hop)
    · obtain rfl := (List.mem_pair.1 hi).resolve_right fun he => hne (by rw [hop, he]; rfl)
      exact hchain hid (.inr hop)
    · exact absurd (hw.op id (Graph.contains_lt hid)) (by rw [hop]; exact Bool.false_ne_true)
    · cases hi
  · rintro _ rfl id hid hop vt hvt i hi
    simp only [Typing.halves] at hi
    split at hi <;> rename_i hwide
    · have hagrees := h.agrees id
      rw [Agrees, hop] at hagrees
      obtain ⟨hlow, hhigh⟩ := hagrees ⟨vt, hvt, hwide⟩
      rcases List.mem_pair.1 hi with rfl | rfl
      · exact exists_of_typeAt? (hw.sound.operands id hid) hlow
      · exact exists_of_typeAt? (hw.sound.operands id hid) hhigh
    · cases hi
  · rintro _ rfl v hv vt hvt
    exact if_neg (by simp [h.root v hv vt hvt])

end GraphLowering.Usim
