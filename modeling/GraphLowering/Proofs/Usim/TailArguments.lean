import GraphLowering.Proofs.FunctionFile.Written
import GraphLowering.Proofs.Lower.Execution
import GraphLowering.Subtarget.BuiltIn
import GraphLowering.Usim.Target

/-!
# Addresses of local objects as arguments of tail calls

A call that takes over the frame must not be given an address in it. `ComesFromLocal` follows an
address through every operation that passes one on, and notes the operations on the way. A call that
is found fit (`tailObstacle?`) has no argument that comes from a local object by additions,
subtractions and disjunctions alone, however many of them there are: `refersToLocal` gives up at its
depth by saying yes. The other operations are not followed, and
`tailObstacle?_passes_selected_local` is a call that gets by.
-/

namespace GraphLowering

namespace Lower.Lowering

variable {α β : Type} {s t s' : Session} {m m' : Lowering α} {k k' : α → Lowering β} {id i : Nat}

/-- Two computations that leave their sessions as they are and give the same. -/
def SameRead (s t : Session) (m m' : Lowering α) : Prop :=
  ∃ r, outcome m s = (r, s) ∧ outcome m' t = (r, t)

namespace SameRead

theorem pure (a : α) : SameRead s t (Pure.pure a) (Pure.pure a) := ⟨_, rfl, rfl⟩

theorem bind (hm : SameRead s t m m')
    (hk : ∀ a, outcome m s = (.ok a, s) → SameRead s t (k a) (k' a)) :
    SameRead s t (m >>= k) (m' >>= k') := by
  obtain ⟨r, hs, ht⟩ := hm
  rw [SameRead, outcome_bind, outcome_bind, hs, ht]
  cases r with
  | error e => exact ⟨_, rfl, rfl⟩
  | ok a => exact hk a hs

theorem ite {c c' : Prop} [Decidable c] [Decidable c'] {n n' : Lowering α} (hc : c ↔ c')
    (ht : SameRead s t m m') (hf : ¬ c → SameRead s t n n') :
    SameRead s t (if c then m else n) (if c' then m' else n') := by
  by_cases h : c
  · rwa [if_pos h, if_pos (hc.1 h)]
  · rw [if_neg h, if_neg (mt hc.2 h)]
    exact hf h

theorem orMalformed (o : Option α) :
    SameRead s t (Lowering.orMalformed o) (Lowering.orMalformed o) :=
  ⟨_, outcome_orMalformed o s, outcome_orMalformed o t⟩

theorem value_bind {o : Option α} {P : α → Prop} (ho : ∀ a, o = some a → P a)
    (hk : ∀ a, P a → SameRead s t (k a) (k' a)) :
    SameRead s t (Lowering.orMalformed o >>= k) (Lowering.orMalformed o >>= k') := by
  refine (orMalformed o).bind fun a ha => hk a (ho a ?_)
  rw [outcome_orMalformed, Prod.mk.injEq] at ha
  exact required_eq_ok.1 ha.1

theorem graph_bind {k k' : Graph → Lowering β} (hk : SameRead s t (k s.graph) (k' t.graph)) :
    SameRead s t (Lowering.graph >>= k) (Lowering.graph >>= k') := hk

theorem node (h : t.graph.node id = s.graph.node id) :
    SameRead s t (Lowering.node id) (Lowering.node id) :=
  ⟨_, rfl, by rw [outcome_node, h]⟩

theorem operand (h : t.graph.node id = s.graph.node id) :
    SameRead s t (Lowering.operand id i) (Lowering.operand id i) :=
  ⟨_, outcome_operand id i s, by rw [outcome_operand, h]⟩

theorem session (h : SameRead s t m m') {r : Except Failure α} (hm : outcome m s = (r, s')) :
    s' = s := by
  obtain ⟨r', hs, -⟩ := h
  exact (Prod.mk.inj (hm.symm.trans hs)).2

end SameRead

end Lower.Lowering

namespace Usim

open Lower (Lowering Session)
open Lower.Lowering
open FunctionFile (holdsOfOnly exists_of_holdsOfOnly)
open Subtarget (Description)

/-- The operands that an operation passes an address on from. -/
def addressOperands (op : Opcode) : List Nat :=
  match op with
  | .add | .sub | .and | .or | .xor | .buildPair => [0, 1]
  | .select => [1, 2]
  | .selectCC => [2, 3]
  | .zeroExtend | .signExtend | .truncate => [0]
  | op => if op = Op.selectCC then [2, 3] else []

/-- The address of a local object gets to a value by the operations `ops`, the last one first. -/
inductive ComesFromLocal (g : Graph) : Value → List Opcode → Prop where
  | object {v : Value} (hop : (g.node v.node).op = .frameIndex)
      (hlocal : g.frame.isFixed (g.node v.node).index = false) : ComesFromLocal g v []
  | pass {v w : Value} {ops : List Opcode} {i : Nat} (hi : i ∈ addressOperands (g.node v.node).op)
      (ho : (g.node v.node).operands[i]? = some (some w)) (h : ComesFromLocal g w ops) :
      ComesFromLocal g v ((g.node v.node).op :: ops)

/-- The operations that addresses are followed through. -/
def isSum : Opcode → Bool
  | .add | .sub | .or => true
  | _ => false

theorem isSum_iff {op : Opcode} : isSum op ↔ op = .add ∨ op = .sub ∨ op = .or := by
  cases op <;> simp [isSum]

theorem mem_addressOperands_of_isSum {op : Opcode} {i : Nat} (h : isSum op)
    (hi : i ∈ addressOperands op) : i = 0 ∨ i = 1 := by
  rcases isSum_iff.1 h with rfl | rfl | rfl <;> simpa [addressOperands] using hi

variable {d : Description} {s s' : Session} {o : Option Value} {v : Value} {depth : Nat}

/-- Two graphs agree on nodes that take values of each other only. -/
structure SameNodes (P : Nat → Prop) (g g' : Graph) : Prop where
  node : ∀ id, P id → g'.node id = g.node id
  closed : ∀ id, P id → ∀ v, some v ∈ (g.node id).operands → P v.node
  frame : g'.frame = g.frame

theorem SameNodes.refl (g : Graph) : SameNodes (fun _ => True) g g :=
  ⟨fun _ _ => rfl, fun _ _ _ _ => trivial, rfl⟩

variable {t : Session}

namespace SameNodes

open Lower.Lowering (SameRead)

variable {β : Type} {P : Nat → Prop} {id i : Nat} (h : SameNodes P s.graph t.graph)
include h

theorem node_bind {k k' : Node → Lowering β} (hid : P id) (hk : ∀ n, SameRead s t (k n) (k' n)) :
    SameRead s t (Lowering.node id >>= k) (Lowering.node id >>= k') :=
  (SameRead.node (h.node _ hid)).bind fun n _ => hk n

theorem operand_bind {k k' : Option Value → Lowering β} (hid : P id)
    (hk : ∀ o, (∀ v, o = some v → P v.node) → SameRead s t (k o) (k' o)) :
    SameRead s t (operand id i >>= k) (operand id i >>= k') := by
  refine (SameRead.operand (h.node _ hid)).bind fun o ho => hk o fun v hv => ?_
  rw [outcome_operand, Prod.mk.injEq] at ho
  exact h.closed id hid v (hv ▸ List.mem_of_getElem? (required_eq_ok.1 ho.1))

end SameNodes

theorem refersToLocal_alike {P : Nat → Prop} (h : SameNodes P s.graph t.graph) (depth : Nat)
    (ho : ∀ v, o = some v → P v.node) :
    SameRead s t (refersToLocal depth o) (refersToLocal depth o) := by
  induction depth generalizing o with
  | zero =>
    unfold refersToLocal
    refine SameRead.value_bind ho fun v hP => h.node_bind hP fun n => ?_
    split
    · exact SameRead.graph_bind (by rw [h.frame]; exact .pure _)
    all_goals exact .pure _
  | succ depth ih =>
    have hboth (id : Nat) (hid : P id) : SameRead s t
        (do
          if ← refersToLocal depth (← operand id 0) then return true
          refersToLocal depth (← operand id 1))
        (do
          if ← refersToLocal depth (← operand id 0) then return true
          refersToLocal depth (← operand id 1)) :=
      h.operand_bind hid fun o ho => (ih ho).bind fun b _ =>
        SameRead.ite Iff.rfl (.pure _) fun _ => h.operand_bind hid fun o ho => ih ho
    unfold refersToLocal
    refine SameRead.value_bind ho fun v hP => h.node_bind hP fun n => ?_
    split
    · exact SameRead.graph_bind (by rw [h.frame]; exact .pure _)
    · exact hboth _ hP
    · exact hboth _ hP
    · exact hboth _ hP
    · exact .pure _

theorem looks_refersToLocal (depth : Nat) (o : Option Value) :
    SameRead s s (refersToLocal depth o) (refersToLocal depth o) :=
  refersToLocal_alike (.refl _) depth fun _ _ => trivial

theorem outcome_refersToLocal_frameIndex (hop : (s.graph.node v.node).op = .frameIndex) :
    outcome (refersToLocal depth (some v)) s =
      (.ok (!s.graph.frame.isFixed (s.graph.node v.node).index), s) := by
  unfold refersToLocal
  rw [outcome_bind, outcome_orMalformed]
  simp only [required, outcome_bind, outcome_node, hop, outcome_graph, outcome_pure]

theorem outcome_refersToLocal_zero (hop : isSum (s.graph.node v.node).op) :
    outcome (refersToLocal 0 (some v)) s = (.ok true, s) := by
  unfold refersToLocal
  rw [outcome_bind, outcome_orMalformed]
  simp only [required, outcome_bind, outcome_node]
  rcases isSum_iff.1 hop with hop | hop | hop <;> simp only [hop, outcome_pure]

theorem outcome_refersToLocal_succ (hop : isSum (s.graph.node v.node).op) :
    outcome (refersToLocal (depth + 1) (some v)) s = outcome (do
      if ← refersToLocal depth (← operand v.node 0) then return true
      refersToLocal depth (← operand v.node 1)) s := by
  conv_lhs => unfold refersToLocal
  rw [outcome_bind, outcome_orMalformed]
  simp only [required]
  rw [outcome_bind, outcome_node]
  rcases isSum_iff.1 hop with hop | hop | hop <;> simp only [hop]

theorem operands_of_refersToLocal (hop : isSum (s.graph.node v.node).op)
    (h : outcome (refersToLocal depth (some v)) s = (.ok false, s')) :
    ∃ depth', depth = depth' + 1 ∧ ∀ i, i = 0 ∨ i = 1 →
    ∃ o, (s.graph.node v.node).operands[i]? = some o ∧
      outcome (refersToLocal depth' o) s = (.ok false, s) := by
  cases depth with
  | zero =>
    rw [outcome_refersToLocal_zero hop] at h
    cases h
  | succ depth =>
    rw [outcome_refersToLocal_succ hop] at h
    obtain ⟨o₀, s₀, ho₀, h⟩ := outcome_bind_ok.1 h
    obtain ⟨b, s₁, hb, h⟩ := outcome_bind_ok.1 h
    rw [outcome_operand, Prod.mk.injEq] at ho₀
    obtain ⟨ho₀, rfl⟩ := ho₀
    obtain rfl := (looks_refersToLocal depth o₀).session hb
    cases b with
    | true => cases h
    | false =>
      obtain ⟨o₁, s₂, ho₁, h⟩ := outcome_bind_ok.1 h
      rw [outcome_operand, Prod.mk.injEq] at ho₁
      obtain ⟨ho₁, rfl⟩ := ho₁
      obtain rfl := (looks_refersToLocal depth o₁).session h
      refine ⟨depth, rfl, fun i hi => ?_⟩
      rcases hi with rfl | rfl
      · exact ⟨o₀, required_eq_ok.1 ho₀, hb⟩
      · exact ⟨o₁, required_eq_ok.1 ho₁, h⟩

/-- What is found to be no address of a local object comes from one by other operations only. -/
theorem exists_not_isSum {ops : List Opcode} (hv : ComesFromLocal s.graph v ops)
    (h : outcome (refersToLocal depth (some v)) s = (.ok false, s')) : ∃ op ∈ ops, ¬ isSum op := by
  induction hv generalizing depth s' with
  | object hop hlocal =>
    rw [outcome_refersToLocal_frameIndex hop, hlocal] at h
    cases h
  | @pass v w ops i hi ho _ ih =>
    by_cases hop : isSum (s.graph.node v.node).op
    · obtain ⟨depth', -, hoperands⟩ := operands_of_refersToLocal hop h
      obtain ⟨o, ho', hw⟩ := hoperands i (mem_addressOperands_of_isSum hop hi)
      rw [ho] at ho'
      cases ho'
      obtain ⟨op, hmem, hnot⟩ := ih hw
      exact ⟨op, List.mem_cons_of_mem _ hmem, hnot⟩
    · exact ⟨_, List.mem_cons_self, hop⟩

theorem outcome_argumentObstacle? {args : List (Option Value)}
    (h : outcome (argumentObstacle? args) s = (.ok none, s')) :
    ∀ o ∈ args, outcome (refersToLocal addressDepth o) s = (.ok false, s) := by
  induction args generalizing s' with
  | nil =>
    intro o ho
    cases ho
  | cons a args ih =>
    obtain ⟨b, s₁, hb, h⟩ := outcome_bind_ok.1 h
    obtain rfl := (looks_refersToLocal addressDepth a).session hb
    cases b with
    | true => cases h
    | false =>
      intro o ho
      rcases List.mem_cons.1 ho with rfl | ho
      · exact hb
      · exact ih h o ho

theorem argumentObstacle?_alike {P : Nat → Prop} (h : SameNodes P s.graph t.graph)
    {args : List (Option Value)} (ha : ∀ v, some v ∈ args → P v.node) :
    SameRead s t (argumentObstacle? args) (argumentObstacle? args) := by
  induction args with
  | nil => exact .pure _
  | cons a args ih =>
    refine (refersToLocal_alike h _ fun v hv => ha v (hv ▸ List.mem_cons_self)).bind fun b _ => ?_
    exact SameRead.ite Iff.rfl (.pure _) fun _ => ih fun v hv => ha v (List.mem_cons_of_mem _ hv)

theorem resultObstacle?_alike {call ret : Nat} (hret : t.graph.node ret = s.graph.node ret)
    (hu : ∀ i, s.graph.valueUsers (some ⟨call, i⟩) = [ret] ↔
      t.graph.valueUsers (some ⟨call, i⟩) = [ret])
    (l : List Nat) : SameRead s t (resultObstacle? call ret l) (resultObstacle? call ret l) := by
  induction l with
  | nil => exact .pure _
  | cons i l ih =>
    refine (SameRead.operand hret).bind fun o _ => SameRead.ite Iff.rfl (.pure _) fun _ =>
      SameRead.graph_bind ?_
    exact SameRead.ite (not_congr (hu i)) (.pure _) fun _ => ih

/-- Two graphs agree on what decides about a call: nodes, frame, root and signature, and whether a
return is the only user of a result of the call. -/
structure SameCall (P : Nat → Prop) (call : Nat) (g g' : Graph) :
    Prop extends SameNodes P g g' where
  known : P call
  root : g'.root = g.root
  made : ∀ v, g.root = some v → P v.node
  signature : g'.signature = g.signature
  users : ∀ info, (g.node call).callInfo? = some info → info.tail →
    ∀ ret o, (g.node ret).op = .ret → (∀ v, o = some v → v.node = call) →
    (g.valueUsers o = [ret] ↔ g'.valueUsers o = [ret])

theorem SameCall.refl (g : Graph) (call : Nat) : SameCall (fun _ => True) call g g :=
  ⟨.refl g, trivial, rfl, fun _ _ => trivial, rfl, fun _ _ _ _ _ _ _ => Iff.rfl⟩

variable {call : Nat}

theorem tailObstacle?_alike {P : Nat → Prop} {bytes : Int64}
    (h : SameCall P call s.graph t.graph) :
    SameRead s t (tailObstacle? d call bytes) (tailObstacle? d call bytes) := by
  have hn := h.node call h.known
  have hout : t.graph.outChain call = s.graph.outChain call := by
    rw [Graph.outChain, Graph.outChain, hn]
  have harea : incomingArea d t.graph = incomingArea d s.graph := by
    rw [incomingArea, incomingArea, h.frame, h.signature]
  have hchain (v : Value) (hv : s.graph.outChain call = some v) : v.node = call := by
    rw [Graph.outChain] at hv
    split at hv <;> cases hv
    rfl
  unfold tailObstacle?
  refine SameRead.graph_bind ?_
  rw [hn, hout, harea, h.root, h.signature]
  dsimp only
  split
  · exact .pure _
  rename_i info hinfo
  refine SameRead.ite Iff.rfl (.pure _) fun htail => SameRead.ite Iff.rfl (.pure _) fun _ => ?_
  have husers := h.users info hinfo (by simpa using htail)
  refine SameRead.ite Iff.rfl (.pure _) fun _ => SameRead.ite Iff.rfl (.pure _) fun _ => ?_
  split
  · exact .pure _
  rename_i root hroot
  have hnode := h.node _ (h.made root hroot)
  rw [hnode]
  refine SameRead.ite Iff.rfl (.pure _) fun hret => ?_
  simp only [Bool.or_eq_true, decide_eq_true_eq, not_or, not_not] at hret
  refine (SameRead.operand hnode).bind fun o _ => SameRead.ite Iff.rfl (.pure _) fun _ => ?_
  refine SameRead.ite (not_congr (husers _ _ hret.1 hchain)) (.pure _) fun _ =>
    SameRead.ite Iff.rfl (.pure _) fun _ => ?_
  refine (resultObstacle?_alike hnode (fun i => husers _ _ hret.1 fun v hv => by cases hv; rfl)
    _).bind fun r _ => ?_
  cases r with
  | some => exact .pure _
  | none =>
    exact argumentObstacle?_alike h.toSameNodes fun v hv =>
      h.closed _ h.known v (List.mem_of_mem_drop hv)

/-- A call that is found fit has passed the check of its arguments, which is the last one. -/
theorem outcome_tailObstacle? {bytes : Int64}
    (h : outcome (tailObstacle? d call bytes) s = (.ok none, s')) :
    outcome (argumentObstacle? ((s.graph.node call).operands.drop 2)) s = (.ok none, s') := by
  unfold tailObstacle? at h
  rw [outcome_bind, outcome_graph] at h
  dsimp only at h
  split at h
  · cases h
  iterate 4 (split at h; · cases h)
  split at h
  · cases h
  split at h
  · cases h
  obtain ⟨o, s₁, ho, h⟩ := outcome_bind_ok.1 h
  obtain rfl := (SameRead.operand (t := s) rfl).session ho
  iterate 3 (split at h; · cases h)
  obtain ⟨r, s₂, hr, h⟩ := outcome_bind_ok.1 h
  obtain rfl := (resultObstacle?_alike (t := s₁) rfl (fun _ => Iff.rfl) _).session hr
  cases r with
  | some => cases h
  | none => exact h

/-- A call that is found fit to take over the frame is given no address of a local object that
additions, subtractions and disjunctions alone have gone into: on every way from a local object to
an argument there is some other operation. -/
theorem tailObstacle?_none_not_sum {call : Nat} {bytes : Int64} {ops : List Opcode}
    (h : outcome (tailObstacle? d call bytes) s = (.ok none, s'))
    (hv : some v ∈ (s.graph.node call).operands.drop 2) (hlocal : ComesFromLocal s.graph v ops) :
    ∃ op ∈ ops, ¬ isSum op :=
  exists_not_isSum hlocal (outcome_argumentObstacle? (outcome_tailObstacle? h) (some v) hv)

/-! ### Calls that get by -/

/-- A text in a file. -/
def plainText (text : String) : Yaml.Node := .scalar 1 "" text .plain

/-- A node in a file. -/
def nodeEntry (name op : String) (ops : List String) (rest : List (String × String)) : Yaml.Node :=
  .mapping 1 "" ([(plainText "name", plainText name), (plainText "op", plainText op),
    (plainText "ops", .sequence 1 "" (ops.map plainText))] ++
    rest.map fun (key, value) => (plainText key, plainText value))

/-- A function that ends in a call, which is given `p`; `p` is made from the address `a` of a local
object. -/
def forwarding (made : List Yaml.Node) : FunctionFile.FunctionEntry where
  name := "f"
  nodes := nodeEntry "a" "FrameIndex" [] [("size", "4")] :: made ++ [
    nodeEntry "c" "call" ["entry", "a", "p"] [("tail", "true")], nodeEntry "r" "return" ["c"] []]

/-- A call that is found fit. -/
def Fit (g : Graph) (call : Nat) : Prop :=
  (outcome (tailObstacle? Description.builtIn call 0) ((target Description.builtIn).session g)).1 =
    .ok none

instance (g : Graph) (call : Nat) : Decidable (Fit g call) := inferInstanceAs (Decidable (_ = _))

theorem Fit.outcome {g : Graph} (h : Fit g call) :
    ∃ s', outcome (tailObstacle? Description.builtIn call 0)
    ((target Description.builtIn).session g) =
      (.ok none, s') := ⟨_, Prod.ext h rfl⟩

/-- The argument is an addition to a conjunction. -/
theorem tailObstacle?_none_not_sum_masked :
    ∃ g, FunctionFile.buildAll FunctionFile.yaml [] [forwarding [nodeEntry "m" "and" ["a", "a"] [],
        nodeEntry "p" "add" ["m", "m"] []]] = .ok [g] ∧
      Fit g 4 ∧ ComesFromLocal g ⟨3, 0⟩ [.add, .and] ∧ ∃ op ∈ [Opcode.add, .and], ¬ isSum op := by
  have h : holdsOfOnly (fun g => Fit g 4 ∧ some ⟨3, 0⟩ ∈ (g.node 4).operands.drop 2 ∧
      (g.node 3).op = .add ∧ (g.node 3).operands[0]? = some (some ⟨2, 0⟩) ∧
      (g.node 2).op = .and ∧ (g.node 2).operands[0]? = some (some ⟨1, 0⟩) ∧
      (g.node 1).op = .frameIndex ∧ g.frame.isFixed (g.node 1).index = false)
      (FunctionFile.buildAll FunctionFile.yaml [] [forwarding [nodeEntry "m" "and" ["a", "a"] [],
        nodeEntry "p" "add" ["m", "m"] []]]) = true := by
    decide +kernel
  obtain ⟨g, hbuilt, h⟩ := exists_of_holdsOfOnly h
  obtain ⟨hfit, hargument, hadd, hterm, hand, hmasked, hindex, hlocal⟩ := of_decide_eq_true h
  have hmask : ComesFromLocal g ⟨2, 0⟩ [.and] :=
    hand ▸ .pass (v := ⟨2, 0⟩) (i := 0) (by rw [hand]; decide) hmasked (.object hindex hlocal)
  have hsum : ComesFromLocal g ⟨3, 0⟩ [.add, .and] :=
    hadd ▸ .pass (v := ⟨3, 0⟩) (i := 0) (by rw [hadd]; decide) hterm hmask
  obtain ⟨s', hs'⟩ := hfit.outcome
  exact ⟨g, hbuilt, hfit, hsum, tailObstacle?_none_not_sum hs' hargument hsum⟩

/-- A select is not followed: whatever it selects here is the address of a local object, and the
call that is given it is found fit. -/
theorem tailObstacle?_passes_selected_local :
    ∃ g, FunctionFile.buildAll FunctionFile.yaml []
    [forwarding [nodeEntry "p" "select" ["a", "a", "a"] []]] = .ok [g] ∧
      Fit g 3 ∧ some ⟨2, 0⟩ ∈ (g.node 3).operands.drop 2 ∧ ComesFromLocal g ⟨2, 0⟩ [.select] := by
  have h : holdsOfOnly (fun g => Fit g 3 ∧ some ⟨2, 0⟩ ∈ (g.node 3).operands.drop 2 ∧
      (g.node 2).op = .select ∧ (g.node 2).operands[1]? = some (some ⟨1, 0⟩) ∧
      (g.node 1).op = .frameIndex ∧ g.frame.isFixed (g.node 1).index = false)
      (FunctionFile.buildAll FunctionFile.yaml []
          [forwarding [nodeEntry "p" "select" ["a", "a", "a"] []]]) = true := by
    decide +kernel
  obtain ⟨g, hbuilt, h⟩ := exists_of_holdsOfOnly h
  obtain ⟨hfit, hargument, hselect, harm, hindex, hlocal⟩ := of_decide_eq_true h
  refine ⟨g, hbuilt, hfit, hargument, ?_⟩
  rw [← hselect]
  exact .pass (v := ⟨2, 0⟩) (i := 1) (by rw [hselect]; decide) harm (.object hindex hlocal)

end Usim

end GraphLowering
