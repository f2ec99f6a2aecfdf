import GraphLowering.Graph.Order
import GraphLowering.Proofs.Graph.Dependence

/-!
# The order of nodes

`nodes` takes, again and again, the least node of which all operands in the graph were taken
(`LeastFirst`), until there is none. It counts how many operands each node still waits for; the
counts are right (`Kahn`) because use lists are exact. The order is the only one of this kind
(`LeastFirst.unique`), in whatever order the counting goes over the nodes (`nodesCounting_eq`), and
it holds the nodes that are not computed from a cycle and no others (`Exact.mem_nodes_iff`).
-/

namespace GraphLowering.Graph

variable {g : Graph} {done : List Nat} {x y : Nat}

/-- Node `x` comes next to a list that holds its operands in the graph and not the node itself. -/
def Ready (g : Graph) (done : List Nat) (x : Nat) : Prop :=
  g.contains x ∧ x ∉ done ∧ ∀ b, g.Needs x b → g.contains b → b ∈ done

/-- After `done`, each node of the list is the least of those that are ready, and none is ready at
the end. -/
inductive LeastFirst (g : Graph) : List Nat → List Nat → Prop where
  | nil {done : List Nat} (h : ∀ y, ¬ g.Ready done y) : LeastFirst g done []
  | cons {done rest : List Nat} {x : Nat} (hx : g.Ready done x)
      (hleast : ∀ y, g.Ready done y → x ≤ y) (h : LeastFirst g (done ++ [x]) rest) :
      LeastFirst g done (x :: rest)

namespace LeastFirst

variable {rest : List Nat}

theorem unique {rest' : List Nat} (h : LeastFirst g done rest) (h' : LeastFirst g done rest') :
    rest = rest' := by
  induction h generalizing rest' with
  | nil hnone =>
    cases h' with
    | nil => rfl
    | cons hx => exact absurd hx (hnone _)
  | cons hx hleast _ ih =>
    cases h' with
    | nil hnone => exact absurd hx (hnone _)
    | cons hx' hleast' h' =>
      obtain rfl := Nat.le_antisymm (hleast _ hx') (hleast' _ hx)
      rw [ih h']

theorem contains (h : LeastFirst g done rest) (hx : x ∈ rest) : g.contains x := by
  induction h with
  | nil => exact absurd hx List.not_mem_nil
  | cons hready _ _ ih =>
    rcases List.mem_cons.1 hx with rfl | hx
    · exact hready.1
    · exact ih hx

theorem not_ready (h : LeastFirst g done rest) : ¬ g.Ready (done ++ rest) y := by
  induction h with
  | nil hnone => simpa using hnone y
  | cons _ _ _ ih => simpa using ih

/-- A node of the graph is listed if what it is computed from is well founded. -/
theorem mem_of_acc (h : LeastFirst g [] rest) (hacc : Acc (fun b a => g.Needs a b) x)
    (hx : g.contains x) : x ∈ rest := by
  induction hacc with
  | intro x _ ih =>
    by_contra hmem
    exact h.not_ready (y := x) ⟨hx, hmem, fun b hb hc => ih b hb hc⟩

/-- What a listed node is computed from is well founded, as operands outside the graph need
nothing. -/
theorem acc_of_mem (h : LeastFirst g done rest) (hd : ∀ y ∈ done, Acc (fun b a => g.Needs a b) y)
    (hx : x ∈ rest) : Acc (fun b a => g.Needs a b) x := by
  induction h with
  | nil => exact absurd hx List.not_mem_nil
  | @cons done rest z hz _ _ ih =>
    have hacc : Acc (fun b a => g.Needs a b) z := by
      refine Acc.intro z fun b hb => ?_
      by_cases hc : g.contains b
      · exact hd b (hz.2.2 b hb hc)
      · exact Acc.intro b fun c hbc => absurd hbc.1 hc
    rcases List.mem_cons.1 hx with rfl | hx
    · exact hacc
    · refine ih (fun y hy => ?_) hx
      rcases List.mem_append.1 hy with hy | hy
      · exact hd y hy
      · exact List.mem_singleton.1 hy ▸ hacc

/-- Where the list is cut, the next node is the least that is ready. -/
theorem least_of_split {before after : List Nat} (h : LeastFirst g done rest)
    (hsplit : rest = before ++ x :: after) :
    g.Ready (done ++ before) x ∧ ∀ y, g.Ready (done ++ before) y → x ≤ y := by
  induction h generalizing before with
  | nil => simp at hsplit
  | cons hz hleast _ ih =>
    cases before with
    | nil =>
      obtain ⟨rfl, -⟩ := List.cons.inj hsplit
      simpa using ⟨hz, hleast⟩
    | cons w before =>
      obtain ⟨rfl, hrest⟩ := List.cons.inj hsplit
      simpa using ih hrest

theorem nodup_append (h : LeastFirst g done rest) (hd : done.Nodup) : (done ++ rest).Nodup := by
  induction h with
  | nil => simpa using hd
  | cons hx _ _ ih =>
    have hnext := ih (List.nodup_append.2 ⟨hd, List.nodup_singleton _, fun a ha b hb e =>
      hx.2.1 (List.mem_singleton.1 hb ▸ e ▸ ha)⟩)
    simpa using hnext

end LeastFirst

/-! ### Ascending lists -/

/-- Ascending without repetition. -/
def Ascending (l : List Nat) : Prop := l.Pairwise (· < ·)

theorem mem_insertAscending {l : List Nat} : y ∈ insertAscending x l ↔ y = x ∨ y ∈ l := by
  induction l with
  | nil => simp [insertAscending]
  | cons z l ih =>
    rw [insertAscending]
    split
    · simp
    · rw [List.mem_cons, ih, List.mem_cons]
      exact or_left_comm

theorem Ascending.insert {l : List Nat} (h : Ascending l) (hx : x ∉ l) :
    Ascending (insertAscending x l) := by
  induction l with
  | nil => exact List.pairwise_singleton ..
  | cons z l ih =>
    obtain ⟨hz, hl⟩ := List.pairwise_cons.1 h
    rw [insertAscending]
    split <;> rename_i hle
    · have hlt : x < z := Nat.lt_of_le_of_ne hle fun e => hx (e ▸ List.mem_cons_self)
      refine List.pairwise_cons.2 ⟨fun y hy => ?_, h⟩
      rcases List.mem_cons.1 hy with rfl | hy
      · exact hlt
      · exact Nat.lt_trans hlt (hz y hy)
    · refine List.pairwise_cons.2 ⟨fun y hy => ?_, ih hl fun hin => hx (List.mem_cons_of_mem _ hin)⟩
      rcases mem_insertAscending.1 hy with rfl | hy
      · exact Nat.not_le.1 hle
      · exact hz y hy

theorem Ascending.eq {l l' : List Nat} (h : Ascending l) (h' : Ascending l')
    (hm : ∀ x, x ∈ l ↔ x ∈ l') : l = l' := by
  have hperm : l.Perm l' :=
    (List.perm_ext_iff_of_nodup (h.imp fun hab => Nat.ne_of_lt hab)
      (h'.imp fun hab => Nat.ne_of_lt hab)).2 hm
  exact hperm.eq_of_pairwise (fun a b _ _ hab hba => absurd hab (Nat.lt_asymm hba)) h h'

/-! ### Counting operands -/

/-- How many operands of `x` are results of nodes of the graph that are not in `done`. -/
def missing (g : Graph) (done : List Nat) (x : Nat) : Nat :=
  (g.node x).operands.countP fun o => o.any fun v => g.contains v.node && v.node ∉ done

/-- How many operands of `x` are results of node `y`. -/
def takes (g : Graph) (x y : Nat) : Nat := (g.node x).operands.countP fun o => o.any (·.node = y)

theorem ready_iff : g.Ready done x ↔ g.contains x ∧ x ∉ done ∧ g.missing done x = 0 := by
  refine and_congr_right fun hx => and_congr_right fun _ => ?_
  rw [missing, List.countP_eq_zero]
  constructor
  · intro hall o ho
    cases o with
    | none => simp
    | some v => simpa using hall v.node (needs_iff.2 ⟨hx, v.result, ho⟩)
  · intro hall b hb hc
    obtain ⟨-, i, hi⟩ := needs_iff.1 hb
    simpa [hc] using hall _ hi

theorem missing_append (hc : g.contains y) (hy : y ∉ done) :
    g.missing (done ++ [y]) x + g.takes x y = g.missing done x := by
  rw [missing, missing, takes]
  induction (g.node x).operands with
  | nil => rfl
  | cons o ops ih =>
    cases o with
    | none => simpa using ih
    | some v =>
      by_cases hv : v.node = y
      · subst hv
        simp [hy, hc] at ih ⊢
        omega
      · by_cases hd : g.contains v.node ∧ v.node ∉ done <;> simp [hv, hd] at ih ⊢ <;> omega

/-- A node occurs in a use list as often as it takes results of the node. -/
theorem Exact.countP_usesOf (h : g.Exact) (hx : g.contains x) :
    (g.usesOf (some y)).countP (·.user = x) = g.takes x y := by
  rw [takes, List.countP_eq_length_filter, List.countP_eq_length_filter]
  have hslots : ((g.usesOf (some y)).filter (·.user = x)).map (·.slot) |>.Perm
      (((g.node x).operands.zipIdx.filter fun p => p.1.any (·.node = y)).map (·.2)) := by
    refine (List.perm_ext_iff_of_nodup ?_ ?_).2 fun s => ?_
    · refine ((h.nodup (some y)).filter _).map_on ?_
      rintro ⟨u, s⟩ hu ⟨u', s'⟩ hu' rfl
      simp only [List.mem_filter, decide_eq_true_eq] at hu hu'
      rw [hu.2, hu'.2]
    · have hall : ((g.node x).operands.zipIdx.map (·.2)).Nodup := by
        rw [List.zipIdx_map_snd]
        exact List.nodup_range'
      exact hall.sublist (List.filter_sublist.map _)
    · simp only [List.mem_map, List.mem_filter, h.mem_usesOf, decide_eq_true_eq, Prod.exists,
        exists_eq_right]
      constructor
      · rintro ⟨⟨u, s'⟩, ⟨⟨o, hs, ho⟩, rfl⟩, rfl⟩
        obtain ⟨v, rfl, hv⟩ := Option.map_eq_some_iff.1 ho
        exact ⟨some v, List.mk_mem_zipIdx_iff_getElem?.2 hs.2, by simp [hv]⟩
      · rintro ⟨o, ho, hany⟩
        rcases o with - | ⟨n, i⟩
        · cases hany
        · obtain rfl : n = y := by simpa using hany
          exact ⟨⟨x, s⟩, ⟨⟨_, ⟨hx, List.mk_mem_zipIdx_iff_getElem?.1 ho⟩, rfl⟩, rfl⟩, rfl⟩
  have hlen := hslots.length_eq
  rw [List.length_map, List.length_map] at hlen
  rw [hlen]
  have hfst : (g.node x).operands = ((g.node x).operands.zipIdx).map (·.1) := by
    rw [List.zipIdx_map_fst]
  conv_rhs => rw [hfst, List.filter_map, List.length_map]
  rfl

/-! ### Taking ready nodes -/

/-- Releasing uses lowers the count of each user as often as it occurs, and makes those ready whose
count comes to zero. -/
theorem foldl_release (us : List Use) (pending : Array Int) (ready : List Nat)
    (hsize : ∀ u ∈ us, u.user < pending.size) (hasc : Ascending ready)
    (hcount : ∀ x, (us.countP (·.user = x) : Int) ≤ pending.getD x 0 ∨ us.countP (·.user = x) = 0)
    (hready : ∀ x ∈ ready, us.countP (·.user = x) = 0) :
    let s := us.foldl release (pending, ready)
    s.1.size = pending.size ∧
      (∀ x, s.1.getD x 0 = pending.getD x 0 - us.countP (·.user = x)) ∧
      (∀ x, x ∈ s.2 ↔
        x ∈ ready ∨ (0 < us.countP (·.user = x) ∧ pending.getD x 0 = us.countP (·.user = x))) ∧
      Ascending s.2 := by
  induction us generalizing pending ready with
  | nil => simp [hasc]
  | cons u us ih =>
    have hu := hsize u List.mem_cons_self
    have hset : ∀ x, (pending.setIfInBounds u.user (pending.getD u.user 0 - 1)).getD x 0 =
        if u.user = x then pending.getD x 0 - 1 else pending.getD x 0 := by
      intro x
      split <;> rename_i hx
      · subst hx
        simp [Array.getD_eq_getD_getElem?, hu]
      · simp [Array.getD_eq_getD_getElem?, Array.getElem?_setIfInBounds_ne hx]
    have hcons : ∀ x, (u :: us).countP (·.user = x) =
        us.countP (·.user = x) + if u.user = x then 1 else 0 := by
      intro x
      simp [List.countP_cons]
    have hnot : u.user ∉ ready := fun hin => by
      have := hready _ hin
      rw [hcons, if_pos rfl] at this
      omega
    have hmem : ∀ x, x ∈ (if pending.getD u.user 0 - 1 = 0 then insertAscending u.user ready
        else ready) ↔ x ∈ ready ∨ (x = u.user ∧ pending.getD x 0 = 1) := by
      intro x
      by_cases hz : pending.getD u.user 0 - 1 = 0
      · rw [if_pos hz, mem_insertAscending]
        refine ⟨?_, fun h => h.symm.imp_left And.left⟩
        rintro (rfl | h)
        · exact .inr ⟨rfl, by omega⟩
        · exact .inl h
      · rw [if_neg hz]
        refine ⟨.inl, ?_⟩
        rintro (h | ⟨rfl, h⟩)
        · exact h
        · omega
    have hrec := ih (pending.setIfInBounds u.user (pending.getD u.user 0 - 1))
      (if pending.getD u.user 0 - 1 = 0 then insertAscending u.user ready else ready)
      (fun w hw => by simpa using hsize w (List.mem_cons_of_mem _ hw))
      (by
        by_cases hz : pending.getD u.user 0 - 1 = 0
        · rw [if_pos hz]
          exact hasc.insert hnot
        · rw [if_neg hz]
          exact hasc)
      (fun x => by
        have := hcount x
        rw [hcons] at this
        rw [hset]
        split at this <;> rename_i hx
        · rw [if_pos hx]
          omega
        · rw [if_neg hx]
          omega)
      (fun x hx => by
        rcases (hmem x).1 hx with hx | ⟨rfl, hx⟩
        · have := hready x hx
          rw [hcons] at this
          omega
        · have := hcount u.user
          rw [hcons, if_pos rfl] at this
          omega)
    obtain ⟨hs, hp, hr, ha⟩ := hrec
    refine ⟨hs.trans Array.size_setIfInBounds, fun x => ?_, fun x => ?_, ha⟩
    · refine (hp x).trans ?_
      rw [hset, hcons]
      by_cases hx : u.user = x
      · rw [if_pos hx, if_pos hx]
        omega
      · rw [if_neg hx, if_neg hx]
        omega
    · refine (hr x).trans ?_
      rw [hmem, hset, hcons]
      by_cases hx : u.user = x
      · subst hx
        have hle := hcount u.user
        rw [hcons, if_pos rfl] at hle
        simp only [hnot, if_true, false_or, true_and]
        omega
      · simp [hx, Ne.symm hx]

/-- The counts and the ready nodes after the nodes of `done` have been taken. -/
structure Kahn (g : Graph) (done : List Nat) (pending : Array Int) (ready : List Nat) : Prop where
  size : pending.size = g.entries.size
  pending : ∀ x, g.contains x → pending.getD x 0 = g.missing done x
  mem_ready : ∀ x, x ∈ ready ↔ g.Ready done x
  ascending : Ascending ready
  closed : ∀ y ∈ done, ∀ b, g.Needs y b → g.contains b → b ∈ done

theorem kahn_init (g : Graph) : Kahn g [] g.pendingCounts g.initiallyReady := by
  have hcount : ∀ x, g.pendingCount (g.node x) = g.missing [] x := by
    intro x
    rw [pendingCount, missing]
    exact List.countP_congr fun o _ => by cases o <;> simp
  refine ⟨by simp [pendingCounts], fun x hx => ?_, fun x => ?_, ?_, by simp⟩
  · have hlt := contains_lt hx
    have hpresent : g.entries[x].present = true := by
      simpa [contains, hlt] using hx
    rw [← hcount x]
    simp [pendingCounts, node, Array.getD_eq_getD_getElem?, hlt, hpresent]
  · rw [ready_iff, initiallyReady, List.mem_filter, List.mem_range, Bool.and_eq_true,
      decide_eq_true_eq]
    constructor
    · rintro ⟨-, hx, hz⟩
      exact ⟨hx, List.not_mem_nil, (hcount x).symm.trans hz⟩
    · rintro ⟨hx, -, hz⟩
      exact ⟨contains_lt hx, hx, (hcount x).trans hz⟩
  · exact List.pairwise_lt_range.filter _

/-- Taking the first ready node keeps the counts right. -/
theorem Kahn.step {pending : Array Int} {ready : List Nat} (hs : g.Exact)
    (h : Kahn g done pending (x :: ready)) :
    Kahn g (done ++ [x]) ((g.usesOf (some x)).foldl release (pending, ready)).1
      ((g.usesOf (some x)).foldl release (pending, ready)).2 := by
  have hx := (h.mem_ready x).1 List.mem_cons_self
  obtain ⟨hleast, hasc⟩ := List.pairwise_cons.1 h.ascending
  have htakes : ∀ y, g.contains y →
      ((g.usesOf (some x)).countP (·.user = y) : Int) + g.missing (done ++ [x]) y =
        pending.getD y 0 := by
    intro y hy
    have := missing_append (x := y) hx.1 hx.2.1
    rw [hs.countP_usesOf hy, h.pending y hy]
    omega
  have habsent : ∀ y, ¬ g.contains y → (g.usesOf (some x)).countP (·.user = y) = 0 := by
    intro y hy
    rw [List.countP_eq_zero]
    intro u hu he
    rw [decide_eq_true_eq] at he
    obtain ⟨o, hslot, -⟩ := (hs.mem_usesOf _ u).1 hu
    exact hy (he ▸ hslot.1)
  have hwait : ∀ y, y ∈ ready → (g.usesOf (some x)).countP (·.user = y) = 0 := by
    intro y hy
    have hready := (h.mem_ready y).1 (List.mem_cons_of_mem _ hy)
    have hzero := (ready_iff.1 hready).2.2
    have := htakes y hready.1
    rw [h.pending y hready.1, hzero] at this
    omega
  obtain ⟨hsize, hpend, hmem, hasc'⟩ := foldl_release (g.usesOf (some x)) pending ready
    (fun u hu => by
      obtain ⟨o, hslot, -⟩ := (hs.mem_usesOf _ u).1 hu
      exact h.size ▸ contains_lt hslot.1) hasc
    (fun y => by
      by_cases hy : g.contains y
      · have := htakes y hy
        exact .inl (by omega)
      · exact .inr (habsent y hy))
    hwait
  have hclosed : ∀ y ∈ done ++ [x], ∀ b, g.Needs y b → g.contains b → b ∈ done := by
    intro y hy b hb
    rcases List.mem_append.1 hy with hy | hy
    · exact h.closed y hy b hb
    · rw [List.mem_singleton.1 hy] at hb
      exact hx.2.2 b hb
  refine ⟨hsize.trans h.size, fun y hy => ?_, fun y => ?_, hasc',
    fun y hy b hb hc => List.mem_append_left _ (hclosed y hy b hb hc)⟩
  · rw [hpend]
    have := htakes y hy
    omega
  · rw [hmem, ready_iff]
    constructor
    · rintro (hy | ⟨hpos, heq⟩)
      · have hready := (h.mem_ready y).1 (List.mem_cons_of_mem _ hy)
        have hne : y ≠ x := Nat.ne_of_gt (hleast y hy)
        have := htakes y hready.1
        have hzero := (ready_iff.1 hready).2.2
        rw [h.pending y hready.1, hzero] at this
        exact ⟨hready.1, by simp [hready.2.1, hne], by omega⟩
      · have hy : g.contains y := by
          by_contra hy
          rw [habsent y hy] at hpos
          exact absurd hpos (Nat.lt_irrefl 0)
        have hzero : g.missing (done ++ [x]) y = 0 := by
          have := htakes y hy
          omega
        refine ⟨hy, fun hin => hx.2.1 (hclosed y hin x ?_ hx.1), hzero⟩
        obtain ⟨u, hu, he⟩ := List.countP_pos_iff.1 hpos
        obtain ⟨o, hslot, ho⟩ := (hs.mem_usesOf _ u).1 hu
        obtain ⟨v, rfl, rfl⟩ := Option.map_eq_some_iff.1 ho
        exact of_decide_eq_true he ▸ needs_iff.2 ⟨hslot.1, v.result, List.mem_of_getElem? hslot.2⟩
    · rintro ⟨hy, hnot, hzero⟩
      have hsum := htakes y hy
      rw [hzero] at hsum
      rw [List.mem_append, not_or, List.mem_singleton] at hnot
      by_cases hpos : 0 < (g.usesOf (some x)).countP (·.user = y)
      · exact .inr ⟨hpos, by omega⟩
      · left
        have hready : g.Ready done y := by
          rw [h.pending y hy] at hsum
          exact ready_iff.2 ⟨hy, hnot.1, by omega⟩
        exact (List.mem_cons.1 ((h.mem_ready y).2 hready)).resolve_left hnot.2

theorem Kahn.leastFirst_takeReady {pending : Array Int} {ready : List Nat} {fuel : Nat}
    (hs : g.Exact) (h : Kahn g done pending ready) (hd : done.Nodup)
    (hin : ∀ y ∈ done, y < g.entries.size) (hfuel : g.entries.size ≤ fuel + done.length) :
    LeastFirst g done (g.takeReady fuel pending ready) := by
  induction fuel generalizing done pending ready with
  | zero =>
    -- all ids have been taken
    refine .nil fun y hy => hy.2.1 ?_
    have hperm : done.Perm (List.range g.entries.size) := by
      refine (List.subperm_of_subset hd fun y hy => ?_).perm_of_length_le ?_
      · exact List.mem_range.2 (hin y hy)
      · simpa using hfuel
    exact hperm.mem_iff.2 (List.mem_range.2 (contains_lt hy.1))
  | succ fuel ih =>
    cases ready with
    | nil => exact .nil fun y hy => absurd ((h.mem_ready y).2 hy) List.not_mem_nil
    | cons x ready =>
      have hx := (h.mem_ready x).1 List.mem_cons_self
      refine .cons hx (fun y hy => ?_) (ih (h.step hs) ?_ ?_ ?_)
      · rcases List.mem_cons.1 ((h.mem_ready y).2 hy) with rfl | hy
        · exact Nat.le_refl _
        · exact Nat.le_of_lt ((List.pairwise_cons.1 h.ascending).1 y hy)
      · refine List.nodup_append.2 ⟨hd, List.nodup_singleton x, fun a ha b hb e => hx.2.1 ?_⟩
        rwa [← List.mem_singleton.1 hb, ← e]
      · intro y hy
        rcases List.mem_append.1 hy with hy | hy
        · exact hin y hy
        · rw [List.mem_singleton.1 hy]
          exact contains_lt hx.1
      · simp only [List.length_append, List.length_singleton]
        omega

/-- The nodes of a graph with exact use lists come least first. -/
theorem Exact.leastFirst_nodes (h : g.Exact) : LeastFirst g [] g.nodes :=
  g.kahn_init.leastFirst_takeReady h List.nodup_nil (by simp) (by simp)

theorem Sound.contains_of_mem_nodes (h : g.Sound) (hx : x ∈ g.nodes) : g.contains x :=
  h.exact.leastFirst_nodes.contains hx

/-- An acyclic graph lists all its nodes. -/
theorem Acyclic.mem_nodes (ha : g.Acyclic) (h : g.Sound) : x ∈ g.nodes ↔ g.contains x :=
  ⟨h.contains_of_mem_nodes, h.exact.leastFirst_nodes.mem_of_acc (h.exact.acc fun c _ => ha c)⟩

/-- The nodes that are listed are those that are not computed from a cycle. -/
theorem Exact.mem_nodes_iff (h : g.Exact) (hx : g.contains x) :
    x ∈ g.nodes ↔ ∀ c, g.Reaches x c → ¬ Relation.TransGen g.Needs c c := by
  refine ⟨fun hmem => ?_, fun hc => h.leastFirst_nodes.mem_of_acc (h.acc hc) hx⟩
  have hacc := h.leastFirst_nodes.acc_of_mem (by simp) hmem
  clear hx hmem
  induction hacc with
  | intro x _ ih =>
    intro c hxc hcc
    rcases hxc.cases_head with rfl | ⟨b, hxb, hbc⟩
    · obtain ⟨b, hxb, hbx⟩ := Relation.TransGen.head'_iff.1 hcc
      exact ih b hxb x hbx hcc
    · exact ih b hxb c hbc hcc

/-! ### The order of counting -/

/-- Counts the operands that a node waits for; the node is ready if there are none. -/
def countNode (g : Graph) (state : Array Int × List Nat) (id : Nat) : Array Int × List Nat :=
  (state.1.setIfInBounds id (g.pendingCount (g.node id)),
    if g.pendingCount (g.node id) = 0 then insertAscending id state.2 else state.2)

/-- The nodes in their order, where counting goes over the graph in an order of its own. -/
def nodesCounting (g : Graph) (order : List Nat) : List Nat :=
  let state := order.foldl g.countNode (Array.replicate g.entries.size 0, [])
  g.takeReady g.entries.size state.1 state.2

theorem foldl_countNode (order : List Nat) (pending : Array Int) (ready : List Nat)
    (hnd : order.Nodup) (hnot : ∀ x ∈ order, x ∉ ready) (hasc : Ascending ready) :
    let s := order.foldl g.countNode (pending, ready)
    s.1.size = pending.size ∧
      (∀ x, s.1[x]? = if x ∈ order ∧
        x < pending.size then some (g.pendingCount (g.node x) : Int) else pending[x]?) ∧
      (∀ x, x ∈ s.2 ↔ x ∈ ready ∨ (x ∈ order ∧ g.pendingCount (g.node x) = 0)) ∧ Ascending s.2 := by
  induction order generalizing pending ready with
  | nil => simp [hasc]
  | cons i order ih =>
    obtain ⟨hi, hnd⟩ := List.nodup_cons.1 hnd
    have hmem : ∀ x, x ∈ (if g.pendingCount (g.node i) = 0 then insertAscending i
      ready else ready) ↔
        x ∈ ready ∨ (x = i ∧ g.pendingCount (g.node x) = 0) := by
      intro x
      split
      · rw [mem_insertAscending, or_comm]
        exact or_congr_right ⟨fun hx => ⟨hx, hx ▸ ‹_›⟩, And.left⟩
      · refine ⟨.inl, ?_⟩
        rintro (hx | ⟨rfl, hz⟩)
        · exact hx
        · exact absurd hz ‹_›
    obtain ⟨hsize, hpend, hready, hasc'⟩ := ih
      (pending.setIfInBounds i (g.pendingCount (g.node i)))
      (if g.pendingCount (g.node i) = 0 then insertAscending i ready else ready) hnd
      (fun x hx hin => by
        rcases (hmem x).1 hin with hin | ⟨rfl, -⟩
        · exact hnot x (List.mem_cons_of_mem _ hx) hin
        · exact hi hx)
      (by
        split
        · exact hasc.insert (hnot i List.mem_cons_self)
        · exact hasc)
    refine ⟨hsize.trans Array.size_setIfInBounds, fun x => (hpend x).trans ?_,
      fun x => (hready x).trans ?_, hasc'⟩
    · rw [Array.size_setIfInBounds]
      by_cases hx : x = i
      · subst hx
        by_cases hlt : x < pending.size <;> simp [hi, hlt]
      · simp [hx, Array.getElem?_setIfInBounds_ne (Ne.symm hx)]
    · rw [hmem, List.mem_cons]
      tauto

/-- The order in which the nodes are counted does not matter. -/
theorem nodesCounting_eq {order : List Nat}
    (h : order.Perm ((List.range g.entries.size).filter g.contains)) :
    g.nodesCounting order = g.nodes := by
  have hmem : ∀ x, x ∈ order ↔ g.contains x := by
    intro x
    rw [h.mem_iff, List.mem_filter, List.mem_range]
    exact ⟨And.right, fun hx => ⟨contains_lt hx, hx⟩⟩
  have hnd : order.Nodup := h.nodup_iff.2 (List.nodup_range.filter _)
  obtain ⟨-, hpend, hready, hasc⟩ := foldl_countNode (g := g) order
    (Array.replicate g.entries.size 0) [] hnd (by simp) List.Pairwise.nil
  have hcounts : (order.foldl g.countNode (Array.replicate g.entries.size 0, [])).1 =
      g.pendingCounts := by
    refine Array.ext_getElem? fun x => (hpend x).trans ?_
    simp only [hmem, Array.size_replicate]
    by_cases hlt : x < g.entries.size
    · cases hp : g.entries[x].present <;>
        simp [pendingCounts, contains, node, Array.getD_eq_getD_getElem?, hlt, hp]
    · simp [pendingCounts, hlt]
  have hfirst : (order.foldl g.countNode (Array.replicate g.entries.size 0, [])).2 =
      g.initiallyReady := by
    refine hasc.eq (List.pairwise_lt_range.filter _) fun x => (hready x).trans ?_
    rw [initiallyReady, List.mem_filter, List.mem_range, Bool.and_eq_true, decide_eq_true_eq, hmem]
    simp only [List.not_mem_nil, false_or]
    exact ⟨fun hx => ⟨contains_lt hx.1, hx⟩, And.right⟩
  rw [nodesCounting, hcounts, hfirst, nodes]

/-- The nodes are listed once, operands in the graph before their users, and each is the least of
those that could be next; counting goes over the graph in any order. What lies on a cycle, or is
computed from one, is left out, and nothing else is. -/
theorem Exact.nodes_least_topological (h : g.Exact) :
    g.nodes.Nodup ∧ (∀ x ∈ g.nodes, g.contains x) ∧
    (∀ before x after, g.nodes = before ++ x :: after →
      (∀ b, g.Needs x b → g.contains b → b ∈ before) ∧
      ∀ y, g.contains y → y ∉ before → (∀ b, g.Needs y b → g.contains b → b ∈ before) → x ≤ y) ∧
    (∀ order, order.Perm ((List.range g.entries.size).filter g.contains) →
      g.nodesCounting order = g.nodes) ∧
    ((∀ x, g.contains x → x ∈ g.nodes) ↔ g.Acyclic) ∧
    ∀ x, g.contains x → (x ∉ g.nodes ↔ ∃ c, g.Reaches x c ∧ Relation.TransGen g.Needs c c) := by
  have hleast := h.leastFirst_nodes
  refine ⟨hleast.nodup_append List.nodup_nil, fun x => hleast.contains,
    fun before x after hsplit => ?_, fun order => nodesCounting_eq,
    ⟨fun hall a ha => ?_, fun ha x hx => ?_⟩, fun x hx => ?_⟩
  · obtain ⟨hx, hmin⟩ := hleast.least_of_split hsplit
    exact ⟨hx.2.2, fun y hc hnot hb => hmin y ⟨hc, hnot, hb⟩⟩
  · obtain ⟨b, hab, -⟩ := Relation.TransGen.head'_iff.1 ha
    exact (h.mem_nodes_iff hab.1).1 (hall a hab.1) a .refl ha
  · exact (h.mem_nodes_iff hx).2 fun c _ => ha c
  · rw [h.mem_nodes_iff hx]
    push Not
    rfl

/-- Two sums that were made to take one another. -/
def sumsInCycle : Graph :=
  let g := ((Graph.empty {}).leaf .constant .i32 (.integer 1)).1
  let g := (g.single .add .i32 [some ⟨1, 0⟩, some ⟨1, 0⟩]).1
  let g := (g.single .add .i32 [some ⟨2, 0⟩, some ⟨1, 0⟩]).1
  let g := (g.leaf .constant .i32 (.integer 2)).1
  g.replaceValue (some ⟨1, 0⟩) (some ⟨3, 0⟩)

theorem nodes_least_topological_cycle : sumsInCycle.Exact ∧ sumsInCycle.nodes = [0, 1, 4] ∧
    ∃ c, sumsInCycle.Reaches 2 c ∧ Relation.TransGen sumsInCycle.Needs c c := by
  have h : sumsInCycle.Exact := by
    refine (((((Exact.empty {}).newNode ?_).newNode ?_).newNode ?_).newNode ?_).replaceValue
      ?_ ?_ <;> decide
  have hnodes : sumsInCycle.nodes = [0, 1, 4] := by decide +kernel
  exact ⟨h, hnodes, (h.nodes_least_topological.2.2.2.2.2 2 (by decide)).1 (by simp [hnodes])⟩

/-! ### The order of a part -/

section Part

variable {g' : Graph} {rest : List Nat}

/-- A part of a graph that contains the operands of its nodes is in the order of the whole. -/
theorem LeastFirst.part (h : LeastFirst g done rest) (h' : g'.Sound)
    (hc : ∀ id, g'.contains id → g.contains id)
    (hn : ∀ a b, g'.contains a → (g'.Needs a b ↔ g.Needs a b)) :
    LeastFirst g' (done.filter g'.contains) (rest.filter g'.contains) := by
  have hready : ∀ {done : List Nat} {y}, g'.Ready (done.filter g'.contains) y ↔
      g'.contains y ∧ g.Ready done y := by
    intro done y
    constructor
    · rintro ⟨hy, hnot, hb⟩
      refine ⟨hy, hc y hy, fun hmem => hnot (List.mem_filter.2 ⟨hmem, hy⟩), fun b hyb _ => ?_⟩
      have hyb := (hn y b hy).2 hyb
      exact (List.mem_filter.1 (hb b hyb (h'.contains_of_needs hyb))).1
    · rintro ⟨hy, -, hnot, hb⟩
      refine ⟨hy, fun hmem => hnot (List.mem_filter.1 hmem).1, fun b hyb hcb => ?_⟩
      exact List.mem_filter.2 ⟨hb b ((hn y b hy).1 hyb) (hc b hcb), hcb⟩
  induction h with
  | nil hnone => exact .nil fun y hy => hnone y (hready.1 hy).2
  | @cons done rest x hx hleast _ ih =>
    by_cases hmem : g'.contains x
    · rw [List.filter_append, List.filter_cons_of_pos hmem, List.filter_nil] at ih
      rw [List.filter_cons_of_pos hmem]
      exact .cons (hready.2 ⟨hmem, hx⟩) (fun y hy => hleast y (hready.1 hy).2) ih
    · rw [List.filter_append, List.filter_cons_of_neg hmem, List.filter_nil, List.append_nil] at ih
      rwa [List.filter_cons_of_neg hmem]

theorem Sound.nodes_part (h : g.Sound) (h' : g'.Sound)
    (hc : ∀ id, g'.contains id → g.contains id)
    (hn : ∀ a b, g'.contains a → (g'.Needs a b ↔ g.Needs a b)) :
    g'.nodes = g.nodes.filter g'.contains :=
  h'.exact.leastFirst_nodes.unique (h.exact.leastFirst_nodes.part h' hc hn)

end Part

end GraphLowering.Graph
