import GraphLowering.Graph.Replace
import GraphLowering.Proofs.Graph.Uses

/-!
# Replacing values

What `replaceValue`, `replaceNode` and `updateOperand` do to the operands and the root of a graph,
that its use lists stay exact, and that it stays sound. A replacement is described by what happens
to one operand (`rewire`): it becomes the new value if it is the old one, unless it belongs to the
node of the new value.
-/

namespace GraphLowering.Graph

variable {g : Graph} {id : Nat} {a b v : Value} {u : Use}

/-! ### Writing several operands -/

/-- Puts one value into several operands. -/
def setOperands (g : Graph) (us : List Use) (w : Option Value) : Graph :=
  us.foldl (fun g u => g.setOperand u w) g

section SetOperands

variable (g) (us : List Use) (w : Option Value)

@[simp] theorem size_setOperands : (g.setOperands us w).entries.size = g.entries.size :=
  foldl_keeps (·.entries.size) (fun _ _ => size_setOperand ..) us g

@[simp] theorem root_setOperands : (g.setOperands us w).root = g.root :=
  foldl_keeps (·.root) (fun _ _ => root_setOperand ..) us g

@[simp] theorem frame_setOperands : (g.setOperands us w).frame = g.frame :=
  foldl_keeps (·.frame) (fun _ _ => frame_setOperand ..) us g

@[simp] theorem signature_setOperands : (g.setOperands us w).signature = g.signature :=
  foldl_keeps (·.signature) (fun _ _ => signature_setOperand ..) us g

@[simp] theorem contains_setOperands (id : Nat) :
    (g.setOperands us w).contains id = g.contains id :=
  foldl_keeps (·.contains id) (fun _ _ => contains_setOperand ..) us g

@[simp] theorem usesOf_setOperands (of : Option Nat) :
    (g.setOperands us w).usesOf of = g.usesOf of :=
  foldl_keeps (·.usesOf of) (fun _ _ => usesOf_setOperand ..) us g

theorem node_setOperands (id : Nat) :
    (g.setOperands us w).node id =
      { g.node id with operands := ((g.setOperands us w).node id).operands } := by
  induction us generalizing g with
  | nil => rfl
  | cons u us ih =>
    rw [setOperands, List.foldl_cons, ← setOperands, ih]
    rw [node_setOperand]
    split <;> rfl

theorem getElem?_setOperands (id i : Nat) :
    ((g.setOperands us w).node id).operands[i]? =
      if ⟨id, i⟩ ∈ us then (g.node id).operands[i]?.map fun _ => w
      else (g.node id).operands[i]? := by
  induction us generalizing g with
  | nil => simp [setOperands]
  | cons u us ih =>
    rw [setOperands, List.foldl_cons, ← setOperands, ih, node_setOperand]
    by_cases hid : id = u.user
    · subst hid
      by_cases hi : u.slot = i
      · subst hi
        by_cases hlt : u.slot < (g.node u.user).operands.length <;> simp [hlt]
      · have hne : (⟨u.user, i⟩ : Use) ≠ u := fun e => hi (by rw [← e])
        simp [hi, hne]
    · have hne : (⟨id, i⟩ : Use) ≠ u := fun e => hid (by rw [← e])
      simp [hid, hne]

end SetOperands

/-! ### One value -/

/-- What becomes of an operand of `user` when `b` takes the place of `old`. -/
def rewire (old : Option Value) (b : Value) (user : Nat) (o : Option Value) : Option Value :=
  if o = old ∧ b.node ≠ user then some b else o

/-- The uses that change. -/
def movedUses (g : Graph) (old : Option Value) (b : Value) : List Use :=
  (g.usesOf (old.map (·.node))).filter (g.moves old (some b))

/-- The uses of the node of the old value that stay. -/
def keptUses (g : Graph) (old : Option Value) (b : Value) : List Use :=
  (g.usesOf (old.map (·.node))).filter fun u => !g.moves old (some b) u

section ReplaceValue

variable {old : Option Value} (hab : old ≠ some b)
include hab

theorem replaceValue_eq :
    g.replaceValue old (some b) =
      let h := (({ g with root := if g.root = old then some b else g.root } : Graph).setOperands
        (g.movedUses old b) (some b)).setUses (old.map (·.node)) (g.keptUses old b)
      h.setUses (some b.node) (h.usesOf (some b.node) ++ g.movedUses old b) := by
  simp only [replaceValue, hab, if_false, List.partition_eq_filter_filter, Option.map_some,
    movedUses, keptUses, setOperands]
  have hroot : (if g.root = old then { g with root := some b } else g) =
      ({ g with root := if g.root = old then some b else g.root } : Graph) := by
    split <;> rfl
  rw [hroot]
  rfl

theorem contains_replaceValue (id : Nat) :
    (g.replaceValue old (some b)).contains id = g.contains id := by
  simp only [replaceValue_eq hab, contains_setUses, contains_setOperands]
  rfl

theorem size_replaceValue : (g.replaceValue old (some b)).entries.size = g.entries.size := by
  simp [replaceValue_eq hab]

theorem root_replaceValue :
    (g.replaceValue old (some b)).root = if g.root = old then some b else g.root := by
  simp [replaceValue_eq hab]

theorem frame_replaceValue : (g.replaceValue old (some b)).frame = g.frame := by
  simp [replaceValue_eq hab]

theorem signature_replaceValue : (g.replaceValue old (some b)).signature = g.signature := by
  simp [replaceValue_eq hab]

theorem usesOf_replaceValue (hb : b.node < g.entries.size) (of : Option Nat) :
    (g.replaceValue old (some b)).usesOf of =
      (if of = old.map (·.node) then g.keptUses old b else g.usesOf of) ++
        if of = some b.node then g.movedUses old b else [] := by
  have hkept : ∀ (h : Graph) of, h.entries.size = g.entries.size →
      (∀ of, h.usesOf of = g.usesOf of) →
      (h.setUses (old.map (·.node)) (g.keptUses old b)).usesOf of =
        if of = old.map (·.node) then g.keptUses old b else g.usesOf of := by
    intro h of hsize huses
    split <;> rename_i hof
    · subst hof
      cases old with
      | none => rfl
      | some a =>
        by_cases ha : a.node < g.entries.size
        · exact usesOf_setUses_self _ _ (hsize ▸ ha)
        · have hle := Nat.not_lt.1 ha
          rw [Option.map_some, usesOf_of_le (by simpa [hsize] using hle), keptUses, Option.map_some,
            usesOf_of_le hle]
          rfl
    · rw [usesOf_setUses_of_ne _ _ _ hof, huses]
  rw [replaceValue_eq hab]
  have hset := fun of => hkept (({ g with root := if g.root = old then some b else g.root } :
    Graph).setOperands (g.movedUses old b) (some b)) of (by simp) (fun _ => usesOf_setOperands ..)
  by_cases hof : of = some b.node
  · subst hof
    rw [usesOf_setUses_self _ _ (by simpa using hb), hset, if_pos rfl]
  · rw [usesOf_setUses_of_ne _ _ _ hof, hset, if_neg hof, List.append_nil]

end ReplaceValue

namespace Exact

variable {old : Option Value}

theorem mem_movedUses (h : g.Exact) :
    u ∈ g.movedUses old b ↔ g.Slot u old ∧ b.node ≠ u.user := by
  simp only [movedUses, List.mem_filter, h.mem_usesOf, moves, Bool.and_eq_true, decide_eq_true_eq,
    Option.map_some, ne_eq, Option.some.injEq]
  constructor
  · rintro ⟨⟨o, hs, -⟩, ho, hu⟩
    exact ⟨by rwa [← ho, hs.operand], hu⟩
  · rintro ⟨hs, hu⟩
    exact ⟨⟨old, hs, rfl⟩, hs.operand, hu⟩

theorem mem_keptUses (h : g.Exact) :
    u ∈ g.keptUses old b ↔
      ∃ o, g.Slot u o ∧ o.map (·.node) = old.map (·.node) ∧ (o = old → b.node = u.user) := by
  simp only [keptUses, List.mem_filter, h.mem_usesOf, moves, Bool.not_eq_true',
    Bool.and_eq_false_iff, decide_eq_false_iff_not, Option.map_some, ne_eq,
    Option.some.injEq, not_not]
  constructor
  · rintro ⟨⟨o, hs, ho⟩, hstay⟩
    rw [hs.operand] at hstay
    exact ⟨o, hs, ho, fun e => hstay.resolve_left (not_not.2 e)⟩
  · rintro ⟨o, hs, ho, hstay⟩
    rw [hs.operand]
    exact ⟨⟨o, hs, ho⟩, or_iff_not_imp_left.2 fun he => hstay (not_not.1 he)⟩

section ReplaceValue

variable (h : g.Exact) (hab : old ≠ some b)
include h hab

theorem node_replaceValue (hid : g.contains id) :
    (g.replaceValue old (some b)).node id =
      { g.node id with operands := (g.node id).operands.map (rewire old b id) } := by
  rw [replaceValue_eq hab, node_setUses, node_setUses, node_setOperands]
  refine congrArg (fun ops => { g.node id with operands := ops }) (List.ext_getElem? fun i => ?_)
  rw [getElem?_setOperands, List.getElem?_map]
  simp only [h.mem_movedUses, Slot, hid, true_and]
  show (if _ then (g.node id).operands[i]?.map _ else (g.node id).operands[i]?) = _
  cases (g.node id).operands[i]? with
  | none => simp
  | some o => by_cases ho : o = old ∧ b.node ≠ id <;> simp [rewire, ho]

theorem node_replaceValue_of_not_contains (hid : ¬ g.contains id) :
    (g.replaceValue old (some b)).node id = g.node id := by
  rw [replaceValue_eq hab, node_setUses, node_setUses, node_setOperands]
  refine congrArg (fun ops => { g.node id with operands := ops }) (List.ext_getElem? fun i => ?_)
  rw [getElem?_setOperands]
  simp only [h.mem_movedUses, Slot, hid]
  rfl

theorem type?_replaceValue (v : Value) : (g.replaceValue old (some b)).type? v = g.type? v := by
  rw [type?_eq, type?_eq]
  by_cases hid : g.contains v.node
  · rw [h.node_replaceValue hab hid]
  · rw [h.node_replaceValue_of_not_contains hab hid]

theorem has_replaceValue : (g.replaceValue old (some b)).Has v ↔ g.Has v := by
  rw [Has, Has, contains_replaceValue hab, h.type?_replaceValue hab]

theorem slot_replaceValue {o : Option Value} :
    (g.replaceValue old (some b)).Slot u o ↔ ∃ o', g.Slot u o' ∧ rewire old b u.user o' = o := by
  rw [Slot, contains_replaceValue hab]
  constructor
  · rintro ⟨hc, ho⟩
    rw [h.node_replaceValue hab hc, List.getElem?_map, Option.map_eq_some_iff] at ho
    obtain ⟨o', ho', he⟩ := ho
    exact ⟨o', ⟨hc, ho'⟩, he⟩
  · rintro ⟨o', ⟨hc, ho'⟩, rfl⟩
    exact ⟨hc, by rw [h.node_replaceValue hab hc, List.getElem?_map, ho', Option.map_some]⟩

theorem replaceValue (hb : b.node < g.entries.size) : (g.replaceValue old (some b)).Exact := by
  refine ⟨?_, ?_, ?_⟩
  · intro u v hu
    rw [size_replaceValue hab]
    obtain ⟨o, hs, ho⟩ := (h.slot_replaceValue hab).1 hu
    rw [rewire] at ho
    split at ho
    · cases ho
      exact hb
    · exact h.known u v (ho ▸ hs)
  · intro of u
    rw [usesOf_replaceValue hab hb, List.mem_append]
    simp only [h.slot_replaceValue hab]
    constructor
    · rintro (hu | hu)
      · split at hu <;> rename_i hof
        · obtain ⟨o, hs, ho, hstay⟩ := h.mem_keptUses.1 hu
          exact ⟨o, ⟨o, hs, if_neg fun hm => hm.2 (hstay hm.1)⟩, ho.trans hof.symm⟩
        · obtain ⟨o, hs, ho⟩ := (h.mem_usesOf of u).1 hu
          have hold : o ≠ old := fun e => hof (ho ▸ e ▸ rfl)
          exact ⟨o, ⟨o, hs, if_neg fun hm => hold hm.1⟩, ho⟩
      · split at hu <;> rename_i hof
        · obtain ⟨hs, hne⟩ := h.mem_movedUses.1 hu
          exact ⟨some b, ⟨old, hs, if_pos ⟨rfl, hne⟩⟩, hof.symm⟩
        · exact absurd hu List.not_mem_nil
    · rintro ⟨o, ⟨o', hs, he⟩, ho⟩
      rw [rewire] at he
      split at he <;> rename_i hmove
      · cases he
        right
        rw [if_pos (show of = some b.node from ho.symm)]
        exact h.mem_movedUses.2 ⟨hmove.1 ▸ hs, hmove.2⟩
      · subst he
        left
        split <;> rename_i hof
        · exact h.mem_keptUses.2 ⟨o', hs, ho.trans hof, fun e => not_not.1 fun hne =>
            hmove ⟨e, hne⟩⟩
        · exact (h.mem_usesOf of u).2 ⟨o', hs, ho⟩
  · intro of
    rw [usesOf_replaceValue hab hb]
    refine List.nodup_append.2 ⟨?_, ?_, ?_⟩
    · split
      · exact (h.nodup _).filter _
      · exact h.nodup of
    · split
      · exact (h.nodup _).filter _
      · exact List.nodup_nil
    · intro x hx y hy hxy
      subst hxy
      split at hy
      · obtain ⟨hs, hne⟩ := h.mem_movedUses.1 hy
        split at hx <;> rename_i hof
        · obtain ⟨o, hs', -, hstay⟩ := h.mem_keptUses.1 hx
          exact hne (hstay (hs'.unique hs))
        · obtain ⟨o, hs', ho⟩ := (h.mem_usesOf of x).1 hx
          exact hof (ho ▸ hs'.unique hs ▸ rfl)
      · exact absurd hy List.not_mem_nil

end ReplaceValue

end Exact

theorem Sound.replaceValue {a : Value} (h : g.Sound) (hab : some a ≠ some b) (hb : g.Has b) :
    (g.replaceValue (some a) (some b)).Sound := by
  have hhas : ∀ {v : Value}, g.Has v → (g.replaceValue (some a) (some b)).Has v :=
    (h.exact.has_replaceValue hab).2
  refine ⟨h.exact.replaceValue hab hb.lt, ?_, ?_, ?_⟩
  · intro id hid o ho
    rw [contains_replaceValue hab] at hid
    rw [h.exact.node_replaceValue hab hid] at ho
    obtain ⟨o', ho', rfl⟩ := List.mem_map.1 ho
    obtain ⟨w, rfl, hw⟩ := h.operands id hid o' ho'
    by_cases hmove : some w = some a ∧ b.node ≠ id
    · exact ⟨b, if_pos hmove, hhas hb⟩
    · exact ⟨w, if_neg hmove, hhas hw⟩
  · obtain ⟨w, hw, hw'⟩ := h.root
    rw [root_replaceValue hab]
    split
    · exact ⟨b, rfl, hhas hb⟩
    · exact ⟨w, hw, hhas hw'⟩
  · rw [contains_replaceValue hab, h.exact.node_replaceValue hab h.entry.1, h.entry.2]
    exact ⟨h.entry.1, rfl⟩

/-! ### All results of a node -/

/-- What becomes of an operand of `user` when the values of `σ` take the places of results of node
`id`. -/
def rewireBy (σ : Nat → Option Value) (id user : Nat) (o : Option Value) : Option Value :=
  match o with
  | none => none
  | some w =>
    if w.node = id then
      match σ w.result with
      | some v => if v.node = user then some w else some v
      | none => some w
    else some w

/-- What becomes of the root. -/
def rewireRoot (σ : Nat → Option Value) (id : Nat) (w : Value) : Value :=
  if w.node = id then (σ w.result).getD w else w

/-- The second graph is the first with the values of `σ` in place of results of node `id`. -/
structure Rewired (g g' : Graph) (id : Nat) (σ : Nat → Option Value) : Prop where
  size : g'.entries.size = g.entries.size
  contains : ∀ m, g'.contains m = g.contains m
  signature : g'.signature = g.signature
  frame : g'.frame = g.frame
  node : ∀ m, g.contains m →
    g'.node m = { g.node m with operands := (g.node m).operands.map (rewireBy σ id m) }
  gone : ∀ m, ¬ g.contains m → g'.node m = g.node m
  root : g'.root = g.root.map (rewireRoot σ id)

/-- The values in place of the results from number `k` on. -/
def valuesFrom (k : Nat) (values : List (Option Value)) (i : Nat) : Option Value :=
  if k ≤ i then (values[i - k]?).join else none

theorem rewireBy_none (user : Nat) (o : Option Value) :
    rewireBy (fun _ => none) id user o = o := by
  cases o with
  | none => rfl
  | some w => simp [rewireBy]

theorem Rewired.refl (g : Graph) (id : Nat) : g.Rewired g id fun _ => none where
  size := rfl
  contains _ := rfl
  signature := rfl
  frame := rfl
  node m _ := by
    have : rewireBy (fun _ => none) id m = fun o => o := funext fun o => rewireBy_none m o
    rw [this, List.map_id']
  gone _ _ := rfl
  root := by
    have : rewireRoot (fun _ => none) id = fun w => w := funext fun w => by simp [rewireRoot]
    rw [this, Option.map_id']

theorem valuesFrom_nil (k : Nat) : valuesFrom k [] = fun _ => none := by
  funext i
  simp [valuesFrom]

theorem valuesFrom_none (k : Nat) (values : List (Option Value)) :
    valuesFrom k (none :: values) = valuesFrom (k + 1) values := by
  funext i
  simp only [valuesFrom]
  rcases Nat.lt_trichotomy i k with h | rfl | h
  · rw [if_neg (by omega), if_neg (by omega)]
  · rw [if_pos (Nat.le_refl _), if_neg (by omega)]
    simp
  · obtain ⟨j, rfl⟩ : ∃ j, i = k + 1 + j := ⟨i - k - 1, by omega⟩
    rw [if_pos (by omega), if_pos (by omega), show k + 1 + j - k = j + 1 by omega,
      show k + 1 + j - (k + 1) = j by omega, List.getElem?_cons_succ]

theorem valuesFrom_some (k : Nat) (v : Value) (values : List (Option Value)) (i : Nat) :
    valuesFrom k (some v :: values) i = if i = k then some v else valuesFrom (k + 1) values i := by
  simp only [valuesFrom]
  rcases Nat.lt_trichotomy i k with h | rfl | h
  · rw [if_neg (by omega), if_neg (by omega), if_neg (by omega)]
  · simp
  · obtain ⟨j, rfl⟩ : ∃ j, i = k + 1 + j := ⟨i - k - 1, by omega⟩
    rw [if_pos (by omega), if_neg (by omega), if_pos (by omega), show k + 1 + j - k =
      j + 1 by omega,
      show k + 1 + j - (k + 1) = j by omega, List.getElem?_cons_succ]

section Step

variable {σ : Nat → Option Value} {k : Nat}

/-- Replacing result `k` first and the later results after it. -/
theorem rewireBy_rewire (hv : v.node ≠ id) (hσ : σ k = none) (user : Nat) (o : Option Value) :
    rewireBy σ id user (rewire (some ⟨id, k⟩) v user o) =
      rewireBy (fun i => if i = k then some v else σ i) id user o := by
  rcases o with - | ⟨n, i⟩
  · simp [rewire, rewireBy]
  · by_cases hn : n = id
    · subst hn
      by_cases hi : i = k
      · subst hi
        by_cases hu : v.node = user <;> simp [rewire, rewireBy, hu, hv, hσ]
      · simp [rewire, rewireBy, hi]
    · simp [rewire, rewireBy, hn]

theorem Rewired.step {g' : Graph} (h : g.Sound) (hv : v.node ≠ id)
    (hσ : σ k = none) (hr : (g.replaceValue (some ⟨id, k⟩) (some v)).Rewired g' id σ) :
    g.Rewired g' id fun i => if i = k then some v else σ i := by
  have hne : some (⟨id, k⟩ : Value) ≠ some v := fun e => hv (by rw [← Option.some.inj e])
  refine ⟨?_, ?_, ?_, ?_, ?_, ?_, ?_⟩
  · rw [hr.size, size_replaceValue hne]
  · intro m
    rw [hr.contains, contains_replaceValue hne]
  · rw [hr.signature, signature_replaceValue hne]
  · rw [hr.frame, frame_replaceValue hne]
  · intro m hm
    rw [hr.node m (by rwa [contains_replaceValue hne]), h.exact.node_replaceValue hne hm,
      List.map_map]
    refine congrArg (fun ops => { g.node m with operands := ops }) (List.map_congr_left ?_)
    intro o _
    exact rewireBy_rewire hv hσ m o
  · intro m hm
    rw [hr.gone m (by rwa [contains_replaceValue hne]),
      h.exact.node_replaceValue_of_not_contains hne hm]
  · rw [hr.root, root_replaceValue hne]
    rcases hroot : g.root with - | ⟨n, i⟩
    · simp
    · by_cases hn : n = id
      · subst hn
        by_cases hi : i = k
        · subst hi
          simp [rewireRoot, hv]
        · simp [rewireRoot, hi]
      · simp [rewireRoot, hn]

end Step

/-- Puts values in place of the results of a node from number `k` on. -/
def replaceResults (g : Graph) (id k : Nat) (values : List (Option Value)) : Graph :=
  (values.zipIdx k).foldl (fun g (v, i) =>
    match v with
    | none => g
    | some _ => g.replaceValue (some ⟨id, i⟩) v) g

theorem replaceNode_eq (g : Graph) (id : Nat) (values : List (Option Value)) :
    g.replaceNode id values =
      if values.length ≠ (g.node id).types.length then
        .error ⟨(g.node id).op, id, values.length, (g.node id).types.length⟩
      else .ok (g.replaceResults id 0 values) := rfl

namespace Sound

theorem replaceResults (h : g.Sound) {k : Nat} {values : List (Option Value)}
    (hv : ∀ v, some v ∈ values → g.Has v ∧ v.node ≠ id) :
    (g.replaceResults id k values).Sound ∧
      g.Rewired (g.replaceResults id k values) id (valuesFrom k values) := by
  induction values generalizing g k with
  | nil =>
    rw [valuesFrom_nil]
    exact ⟨h, Rewired.refl g id⟩
  | cons o rest ih =>
    cases o with
    | none =>
      rw [valuesFrom_none]
      exact ih h fun v hmem => hv v (List.mem_cons_of_mem _ hmem)
    | some v =>
      obtain ⟨hhas, hne⟩ := hv v List.mem_cons_self
      have hab : some (⟨id, k⟩ : Value) ≠ some v := fun e => hne (by rw [← Option.some.inj e])
      have hrest := ih (k := k + 1) (h.replaceValue hab hhas) fun w hw =>
        ⟨(h.exact.has_replaceValue hab).2 (hv w (List.mem_cons_of_mem _ hw)).1,
          (hv w (List.mem_cons_of_mem _ hw)).2⟩
      refine ⟨hrest.1, ?_⟩
      have hstep := Rewired.step h hne (by rw [valuesFrom, if_neg (by omega)]) hrest.2
      rwa [← funext (valuesFrom_some k v rest)] at hstep

theorem replaceNode {g' : Graph} (h : g.Sound) {values : List (Option Value)}
    (hv : ∀ v, some v ∈ values → g.Has v ∧ v.node ≠ id) (hg : g.replaceNode id values = .ok g') :
    g'.Sound ∧ g.Rewired g' id fun i => (values[i]?).join := by
  rw [replaceNode_eq] at hg
  split at hg
  · cases hg
  · cases hg
    have hσ : valuesFrom 0 values = fun i => (values[i]?).join := by
      funext i
      simp [valuesFrom]
    rw [← hσ]
    exact h.replaceResults hv

end Sound

/-! ### One operand -/

/-- The second graph is the first with `w` in operand `u`. -/
structure Updated (g g' : Graph) (u : Use) (w : Value) : Prop where
  size : g'.entries.size = g.entries.size
  contains : ∀ m, g'.contains m = g.contains m
  signature : g'.signature = g.signature
  frame : g'.frame = g.frame
  root : g'.root = g.root
  node : ∀ m, g'.node m =
    if m = u.user then { g.node m with operands := (g.node m).operands.set u.slot (some w) }
    else g.node m

namespace Updated

variable {g' : Graph} {w : Value}

theorem type? (h : g.Updated g' u w) (v : Value) : g'.type? v = g.type? v := by
  rw [type?_eq, type?_eq, h.node]
  split <;> rfl

theorem has_iff (h : g.Updated g' u w) : g'.Has v ↔ g.Has v := by
  rw [Has, Has, h.contains, h.type?]

end Updated

namespace Exact

variable {g' : Graph} {w : Option Value}

theorem usesOf_updateOperand {old : Option Value} (hold : g.Slot u old) (hne : old ≠ w)
    (hk : ∀ v, old = some v ∨ w = some v → v.node < g.entries.size)
    (hg : g.updateOperand u w = some g') (of : Option Nat) :
    g'.usesOf of =
      (if of = old.map (·.node) then (g.usesOf of).erase u else g.usesOf of) ++
        if of = w.map (·.node) then [u] else [] := by
  have hset : ∀ (h : Graph) (o : Option Value) (us : List Use), h.entries.size = g.entries.size →
      (old = o ∨ w = o) → ∀ of, (h.setUses (o.map (·.node)) us).usesOf of =
        if of = o.map (·.node) then us else h.usesOf of := by
    intro h o us hsize ho of
    split <;> rename_i hof
    · subst hof
      cases o with
      | none => rfl
      | some v => exact usesOf_setUses_self _ _ (hsize ▸ hk v ho)
    · exact usesOf_setUses_of_ne _ _ _ hof
  unfold Graph.updateOperand at hg
  simp only [hold.2, hne, if_false, Option.some.injEq] at hg
  subst hg
  rw [addUse, hset _ w _ (by simp [dropUse]) (.inr rfl)]
  simp only [usesOf_setOperand]
  rw [dropUse, hset g old _ rfl (.inl rfl), hset g old _ rfl (.inl rfl)]
  by_cases hw : of = w.map (·.node)
  · subst hw
    rw [if_pos rfl, if_pos rfl]
    by_cases ho : w.map (·.node) = old.map (·.node) <;> simp [ho]
  · rw [if_neg hw, if_neg hw, List.append_nil]
    split <;> rename_i ho
    · rw [ho]
    · rfl

theorem updateOperand_eq_none :
    g.updateOperand u w = none ↔ (g.node u.user).operands[u.slot]? = none := by
  unfold Graph.updateOperand
  cases (g.node u.user).operands[u.slot]? with
  | none => simp
  | some old =>
    dsimp only
    split <;> simp

/-- What puts `w` into an operand of a node of the graph: nothing else changes. -/
theorem node_updateOperand (hg : g.updateOperand u w = some g') (m : Nat) :
    g'.node m =
      if m = u.user then { g.node m with operands := (g.node m).operands.set u.slot w }
      else g.node m := by
  unfold Graph.updateOperand at hg
  split at hg
  · cases hg
  rename_i old hold
  split at hg
  · rename_i heq
    cases hg
    split <;> rename_i hm
    · obtain ⟨hlt, hget⟩ := List.getElem?_eq_some_iff.1 hold
      subst hm
      rw [← heq, ← hget, List.set_getElem_self]
    · rfl
  · cases hg
    rw [node_addUse, node_setOperand, dropUse, node_setUses]

theorem contains_updateOperand (hg : g.updateOperand u w = some g') (m : Nat) :
    g'.contains m = g.contains m := by
  unfold Graph.updateOperand at hg
  split at hg
  · cases hg
  split at hg <;> cases hg
  · rfl
  · simp [dropUse]

theorem size_updateOperand (hg : g.updateOperand u w = some g') :
    g'.entries.size = g.entries.size := by
  unfold Graph.updateOperand at hg
  split at hg
  · cases hg
  split at hg <;> cases hg
  · rfl
  · simp [dropUse]

theorem slot_updateOperand (hg : g.updateOperand u w = some g') {u' : Use} {o : Option Value} :
    g'.Slot u' o ↔ if u' = u then g.contains u.user ∧ o = w else g.Slot u' o := by
  have hlt : u.slot < (g.node u.user).operands.length := by
    unfold Graph.updateOperand at hg
    split at hg
    · cases hg
    · rename_i ho
      exact (List.getElem?_eq_some_iff.1 ho).1
  rw [Slot, contains_updateOperand hg, node_updateOperand hg]
  by_cases hu : u' = u
  · subst hu
    rw [if_pos rfl, if_pos rfl, List.getElem?_set_self hlt]
    exact and_congr_right fun _ => ⟨fun h => (Option.some.inj h).symm, fun h => h ▸ rfl⟩
  · rw [if_neg hu, Slot]
    split <;> rename_i hm
    · have hs : u.slot ≠ u'.slot := fun hs => hu (by cases u; cases u'; simp_all)
      rw [List.getElem?_set_ne hs]
    · rfl

theorem updateOperand (h : g.Exact) (hu : g.contains u.user)
    (hw : ∀ v, w = some v → v.node < g.entries.size) (hg : g.updateOperand u w = some g') :
    g'.Exact := by
  obtain ⟨old, hold⟩ : ∃ old, g.Slot u old := by
    cases ho : (g.node u.user).operands[u.slot]? with
    | none =>
      simp [Graph.updateOperand, ho] at hg
    | some old => exact ⟨old, hu, ho⟩
  by_cases hne : old = w
  · have : g' = g := by
      simp only [Graph.updateOperand, hold.2, hne, if_true, Option.some.injEq] at hg
      exact hg.symm
    exact this ▸ h
  have huses := usesOf_updateOperand hold hne (fun v hv => hv.elim
    (fun he => h.known u v (he ▸ hold)) (hw v)) hg
  refine ⟨?_, ?_, ?_⟩
  · intro u' v hs
    rw [size_updateOperand hg]
    rw [slot_updateOperand hg] at hs
    split at hs
    · exact hw v hs.2.symm
    · exact h.known u' v hs
  · intro of u'
    rw [huses, List.mem_append]
    simp only [slot_updateOperand hg]
    by_cases hu' : u' = u
    · subst hu'
      have hmem : u' ∈ g.usesOf of ↔ of = old.map (·.node) := by
        rw [h.mem_usesOf]
        exact ⟨fun ⟨o, hs, ho⟩ => ho ▸ hs.unique hold ▸ rfl, fun ho => ⟨old, hold, ho.symm⟩⟩
      have hgone : u' ∉ if of = old.map (·.node) then (g.usesOf of).erase u' else g.usesOf of := by
        split <;> rename_i hof
        · exact (h.nodup of).not_mem_erase
        · exact fun hin => hof (hmem.1 hin)
      simp only [hgone, false_or, if_true, hu, true_and]
      by_cases hof : of = w.map (·.node) <;> simp [hof, eq_comm]
    · have hlast : u' ∉ (if of = w.map (·.node) then [u] else []) := by split <;> simp [hu']
      simp only [hlast, or_false, hu', if_false, ← h.mem_usesOf]
      split
      · exact List.mem_erase_of_ne hu'
      · rfl
  · intro of
    rw [huses]
    have herase : (if of = old.map (·.node) then (g.usesOf of).erase u else g.usesOf of).Nodup := by
      split
      · exact (h.nodup of).erase u
      · exact h.nodup of
    refine List.nodup_append.2 ⟨herase, by split <;> simp, ?_⟩
    intro x hx y hy hxy
    subst hxy
    split at hy
    · rw [List.mem_singleton] at hy
      subst hy
      split at hx <;> rename_i hof
      · exact (h.nodup of).not_mem_erase hx
      · obtain ⟨o, hs, ho⟩ := (h.mem_usesOf of x).1 hx
        exact hof (ho ▸ hs.unique hold ▸ rfl)
    · exact absurd hy List.not_mem_nil

end Exact

theorem Sound.updateOperand {g' : Graph} {w : Value} (h : g.Sound) (hu : g.contains u.user)
    (hw : g.Has w) (hg : g.updateOperand u (some w) = some g') : g'.Sound ∧ g.Updated g' u w := by
  have hrest : g'.signature = g.signature ∧ g'.frame = g.frame ∧ g'.root = g.root := by
    unfold Graph.updateOperand at hg
    split at hg
    · cases hg
    split at hg <;> cases hg
    · exact ⟨rfl, rfl, rfl⟩
    · simp [dropUse]
  have hup : g.Updated g' u w :=
    ⟨Exact.size_updateOperand hg, Exact.contains_updateOperand hg, hrest.1, hrest.2.1, hrest.2.2,
      Exact.node_updateOperand hg⟩
  refine ⟨⟨h.exact.updateOperand hu (fun v hv => Option.some.inj hv ▸ hw.lt) hg, ?_, ?_, ?_⟩, hup⟩
  · intro m hm o ho
    rw [hup.contains] at hm
    rw [hup.node] at ho
    split at ho
    · rcases List.mem_or_eq_of_mem_set ho with ho | rfl
      · obtain ⟨x, rfl, hx⟩ := h.operands m hm o ho
        exact ⟨x, rfl, hup.has_iff.2 hx⟩
      · exact ⟨w, rfl, hup.has_iff.2 hw⟩
    · obtain ⟨x, rfl, hx⟩ := h.operands m hm o ho
      exact ⟨x, rfl, hup.has_iff.2 hx⟩
  · obtain ⟨r, hr, hhas⟩ := h.root
    exact ⟨r, hup.root.trans hr, hup.has_iff.2 hhas⟩
  · rw [hup.contains, hup.node]
    refine ⟨h.entry.1, ?_⟩
    split <;> rename_i hm
    · rw [h.entry.2]
      rfl
    · exact h.entry.2

end GraphLowering.Graph
