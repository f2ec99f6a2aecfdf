import GraphLowering.Proofs.FunctionFile.Written

/-!
# What references in function files denote

A draft keeps the node of the value that each entry gave. No two entries of a function have one
name, so a reference finds the node of the entry that it names (`lookup_readNodes`), and with it the
result that it numbers. An entry gives the first result of a node that it adds, and then its plain
name denotes what it gave; only a token factor may give another result, of a node that was there
(`build_built`).
-/

namespace GraphLowering.FunctionFile

variable {c : Decoder} {d d' : Draft} {e : NodeEntry} {r : Graph × Value} {n : Yaml.Node}
  {f : FunctionEntry} {name : String} {k : Int64} {id : Nat} {g : Graph}

/-! ### Texts of references -/

theorem notMem_of_readInt64 {cs : List Char} (h : Text.readInt64 cs = .ok k) : ':' ∉ cs := by
  have hread : ∀ {ds : List Char} {m : Nat}, Text.readNat? ds = some m → ':' ∉ ds := by
    intro ds m hm hmem
    unfold Text.readNat? at hm
    split at hm
    · cases hm
    · rename_i hd
      simp only [Bool.or_eq_true, Bool.not_eq_true', not_or, Bool.not_eq_false,
        List.all_eq_true] at hd
      exact absurd (hd.2 ':' hmem) (by decide)
  unfold Text.readInt64 at h
  split at h <;> dsimp only at h <;> split at h
  all_goals try cases h
  all_goals
    rename_i hm
    simpa using hread hm

theorem splitReference_plain (h : ':' ∉ name.toList) :
    Draft.splitReference name = .ok (name, 0) := by
  have hall : ∀ c ∈ name.toList.reverse, decide (c ≠ ':') = true := fun c hc =>
    decide_eq_true fun he => h (he ▸ List.mem_reverse.1 hc)
  have hnil : (name.toList.reverse ++ []).dropWhile (fun c => decide (c ≠ ':')) = [].dropWhile _ :=
    List.dropWhile_append_of_pos hall
  rw [List.append_nil, List.dropWhile_nil] at hnil
  simp only [Draft.splitReference, hnil]

theorem splitReference_numbered {digits : String} (hk : Text.readInt64 digits.toList = .ok k) :
    Draft.splitReference (name ++ ":" ++ digits) = .ok (name, k) := by
  have hall : ∀ c ∈ digits.toList.reverse, decide (c ≠ ':') = true := fun c hc =>
    decide_eq_true fun he => notMem_of_readInt64 hk (he ▸ List.mem_reverse.1 hc)
  have hsplit : (name ++ ":" ++ digits).toList.reverse = digits.toList.reverse ++ ':' ::
      name.toList.reverse := by
    simp
  unfold Draft.splitReference
  dsimp only
  rw [hsplit, List.dropWhile_append_of_pos hall, List.takeWhile_append_of_pos hall]
  simp [hk]

/-! ### Entries -/

namespace Draft

theorem add_eq_ok (h : d.add c n = .ok d') : ∃ e r, c.node? n = some e ∧ d.build e = .ok r ∧
    d.names.lookup e.name = none ∧ d'.names = (e.name, r.2.node) :: d.names := by
  simp only [add] at h
  split at h
  · cases h
  · rename_i e he
    simp only [check_eq_ok, bind_eq_ok, pure_eq_ok] at h
    obtain ⟨-, hnew, r, hb, rfl⟩ := h
    exact ⟨e, r, he, hb, Option.not_isSome_iff_eq_none.1 hnew, rfl⟩

theorem lookup_add (h : d.add c n = .ok d') (hid : d.names.lookup name = some id) :
    d'.names.lookup name = some id := by
  obtain ⟨e, r, -, -, hnew, hnames⟩ := add_eq_ok h
  have hne : name ≠ e.name := by
    rintro rfl
    rw [hid] at hnew
    cases hnew
  rw [hnames, List.lookup_cons, beq_false_of_ne hne]
  exact hid

theorem reference_eq_ok {s : String} {t : Typed} (hs : splitReference s = .ok (name, k))
    (hid : d.names.lookup name = some id) : d.reference s = .ok t ↔
      0 ≤ k ∧ t.value = ⟨id, k.toNatClampNeg⟩ ∧ d.graph.type? t.value = some t.type := by
  simp only [reference, hs, hid, bind, Except.bind]
  by_cases hk : k < 0
  · simp [hk, Int64.not_le.2 hk]
  · have hk' : 0 ≤ k := Int64.not_lt.1 hk
    obtain ⟨w, vt⟩ := t
    rw [if_neg hk]
    cases ht : (d.graph.node id).types[k.toNatClampNeg]? with
    | none =>
      simp only [reduceCtorEq, false_iff, not_and]
      rintro - rfl
      rw [Graph.type?_eq, ht]
      simp
    | some vt' =>
      simp only [pure, Except.pure, Except.ok.injEq, Typed.mk.injEq, hk', true_and]
      constructor
      · rintro ⟨rfl, rfl⟩
        exact ⟨rfl, by rw [Graph.type?_eq, ht]⟩
      · rintro ⟨rfl, htype⟩
        rw [Graph.type?_eq, ht] at htype
        exact ⟨rfl, Option.some.inj htype⟩

end Draft

namespace FunctionEntry

/-- What has been read of a function after some of its nodes. -/
def draft (c : Decoder) (f : FunctionEntry) (ns : List Yaml.Node) : Except Fault Draft := do
  let signature ← f.signature.mapError (.at f.name none)
  f.readNodes c { graph := Graph.empty signature, names := [("entry", Graph.entry.node)] } ns

theorem readNodes_append (ns ms : List Yaml.Node) :
    f.readNodes c d (ns ++ ms) = f.readNodes c d ns >>= fun d => f.readNodes c d ms := by
  induction ns generalizing d with
  | nil => rfl
  | cons n ns ih =>
    rw [List.cons_append, readNodes, readNodes]
    split
    · rfl
    · exact ih

theorem draft_append (ns ms : List Yaml.Node) :
    f.draft c (ns ++ ms) = f.draft c ns >>= fun d => f.readNodes c d ms := by
  simp only [draft, readNodes_append, bind_assoc]

theorem lookup_readNodes {ns : List Yaml.Node} (h : f.readNodes c d ns = .ok d')
    (hid : d.names.lookup name = some id) : d'.names.lookup name = some id := by
  induction ns generalizing d with
  | nil =>
    cases h
    exact hid
  | cons n ns ih =>
    rw [readNodes] at h
    split at h
    · cases h
    · rename_i d₁ h₁
      exact ih h (Draft.lookup_add h₁ hid)

theorem draft_sound {ns : List Yaml.Node} (h : f.draft c ns = .ok d) : d.Sound := by
  simp only [draft, bind_eq_ok] at h
  obtain ⟨signature, -, hd⟩ := h
  refine (readNodes_sound ⟨.empty signature, ?_, by simp⟩ hd).1
  simp only [List.mem_singleton, forall_eq]
  rfl

theorem draft_nodes (h : f.graph c = .ok g) : ∃ d, f.draft c f.nodes = .ok d := by
  simp only [FunctionEntry.graph, bind_eq_ok] at h
  obtain ⟨signature, hs, d, hd, -⟩ := h
  exact ⟨d, bind_eq_ok.2 ⟨signature, hs, hd⟩⟩

end FunctionEntry

theorem graph_of_buildAll {seen : List String} {fs : List FunctionEntry} {gs : List Graph}
    (h : buildAll c seen fs = .ok gs) (hf : f ∈ fs) : ∃ g, f.graph c = .ok g := by
  induction fs generalizing seen gs with
  | nil => cases hf
  | cons f' fs ih =>
    simp only [buildAll, check_eq_ok, bind_eq_ok, pure_eq_ok] at h
    obtain ⟨-, -, g, hg, gs', hgs, -⟩ := h
    rcases List.mem_cons.1 hf with rfl | hf
    · exact ⟨g, hg⟩
    · exact ih hgs hf

/-- Let `n` be an entry of a function in a text that is accepted, and let `mid` come between it and
a reference. With a number the name of the entry denotes that result of the node of the value `v`
that the entry gave. A plain reference, which is one without a colon, denotes the first result. This
is `v` itself, unless the entry is a token factor that gave another result of a node that was
there. -/
theorem reference_denotes {text : String} {gs : List Graph} {fs : List FunctionEntry}
    {pre mid rest : List Yaml.Node} (hparse : c.parse text = .ok gs)
    (hfs : c.functions? text = some fs) (hf : f ∈ fs) (hn : f.nodes = pre ++ n :: (mid ++ rest)) :
    ∃ d d' e g' v, f.draft c pre = .ok d ∧ f.draft c (pre ++ n :: mid) = .ok d' ∧
    c.node? n = some e ∧
      d.build e = .ok (g', v) ∧
      (∀ digits k, Text.readInt64 digits.toList = .ok k →
      ∀ t, d'.reference (e.name ++ ":" ++ digits) = .ok t ↔
        0 ≤ k ∧ t.value = ⟨v.node, k.toNatClampNeg⟩ ∧ d'.graph.type? t.value = some t.type) ∧
      (':' ∉ e.name.toList → ∃ t, d'.reference e.name = .ok t ∧ t.value = ⟨v.node, 0⟩ ∧
        d'.graph.type? t.value = some t.type ∧ (t.value = v ∨ d.Merges e v ∧ v.result ≠ 0)) := by
  obtain ⟨g, hg⟩ : ∃ g, f.graph c = .ok g := by
    rw [Decoder.parse, hfs] at hparse
    exact graph_of_buildAll hparse hf
  obtain ⟨dn, hdn⟩ := FunctionEntry.draft_nodes hg
  rw [hn, FunctionEntry.draft_append, bind_eq_ok] at hdn
  obtain ⟨d, hd, hdn⟩ := hdn
  rw [FunctionEntry.readNodes] at hdn
  split at hdn
  · cases hdn
  rename_i d₁ h₁
  rw [FunctionEntry.readNodes_append, bind_eq_ok] at hdn
  obtain ⟨d', hd', -⟩ := hdn
  obtain ⟨e, ⟨g', v⟩, he, hb, -, hnames⟩ := Draft.add_eq_ok h₁
  have hdraft : f.draft c (pre ++ n :: mid) = .ok d' := by
    rw [FunctionEntry.draft_append, hd]
    simpa [bind, Except.bind, FunctionEntry.readNodes, h₁] using hd'
  have hid : d'.names.lookup e.name = some v.node := by
    refine FunctionEntry.lookup_readNodes hd' ?_
    rw [hnames, List.lookup_cons_self]
  have hs := FunctionEntry.draft_sound hdraft
  refine ⟨d, d', e, g', v, hd, hdraft, he, hb, fun digits k hk t =>
    Draft.reference_eq_ok (splitReference_numbered hk) hid, fun hcolon => ?_⟩
  obtain ⟨vt, hvt⟩ : ∃ vt, d'.graph.type? ⟨v.node, 0⟩ = some vt := by
    obtain ⟨l₁, l₂, hl, -⟩ := List.lookup_eq_some_iff.1 hid
    have hc := Graph.contains_lt (hs.names (e.name, v.node) (by simp [hl]))
    obtain ⟨vt, rest, ht⟩ :=
      List.exists_cons_of_ne_nil (Opcode.ne_nil_of_gives (hs.written.gives v.node hc))
    exact ⟨vt, by rw [Graph.type?_eq, ht]; rfl⟩
  refine ⟨⟨⟨v.node, 0⟩, vt⟩, (Draft.reference_eq_ok (splitReference_plain hcolon) hid).2
    ⟨?_, rfl, hvt⟩, rfl, hvt, ?_⟩
  · decide
  · by_cases hv : v.result = 0
    · exact .inl (by rw [← hv])
    · exact .inr ⟨((Draft.build_built (FunctionEntry.draft_sound hd) hb).resolve_left fun h =>
        hv h.first).2.2, hv⟩

/-- A load, another entry, and a sum that refers to the load. -/
def loadedSumFile : String := String.join [
  "functions:\n- name: f\n  nodes:\n",
  "  - name: l\n    op: load\n    type: i32\n    ops: [entry, entry]\n",
  "  - name: k\n    op: Constant\n    type: i32\n",
  "  - name: s\n    op: add\n    ops: [l, k]\n"]

/-- Behind the constant, the name of the load denotes what is loaded, and with a number also its
chain. -/
theorem reference_denotes_load : ∃ gs fs f n m r d t t', parse loadedSumFile = .ok gs ∧
    yaml.functions? loadedSumFile = some fs ∧ f ∈ fs ∧ f.nodes = [n, m, r] ∧
    f.draft yaml [n, m] = .ok d ∧ d.reference "l" = .ok t ∧ d.reference "l:1" = .ok t' ∧
    t.value = ⟨t'.value.node, 0⟩ ∧ t'.value = ⟨t'.value.node, 1⟩ := by
  have hgs : holdsOfOnly (fun _ => true) (parse loadedSumFile) = true :=
    holdsOfOnly_join (by decide +kernel)
  obtain ⟨g, hparse, -⟩ := exists_of_holdsOfOnly hgs
  have hentries : (yaml.functions? loadedSumFile).any
    (fun fs => fs.any fun f => f.nodes.length == 3 &&
      (f.nodes.head?.bind yaml.node?).any (·.name == "l") &&
      (f.draft yaml (f.nodes.take 2)).toOption.any fun d => (d.reference "l:1").isOk) = true :=
    (congrArg (Option.any _) (functions?_join _)).trans (by decide +kernel)
  obtain ⟨fs, hfs, hany⟩ := (Option.any_eq_true _ _).1 hentries
  obtain ⟨f, hf, hchecks⟩ := List.any_eq_true.1 hany
  simp only [Bool.and_eq_true, beq_iff_eq] at hchecks
  obtain ⟨⟨hlength, hname⟩, hread⟩ := hchecks
  obtain ⟨n, m, r, hn⟩ := List.length_eq_three.1 hlength
  obtain ⟨d₀, d, e, g', v, -, hd, he, -, hnumbered, hplain⟩ :=
    reference_denotes hparse hfs hf (show f.nodes = [] ++ n :: ([m] ++ [r]) from hn)
  have hl : e.name = "l" := by simpa [hn, he] using hname
  rw [hl] at hnumbered hplain
  obtain ⟨t, ht, hvalue, -⟩ := hplain (by decide)
  obtain ⟨t', ht'⟩ : ∃ t', d.reference "l:1" = .ok t' := by
    have hd : f.draft yaml [n, m] = .ok d := hd
    simp only [hn, List.take_succ_cons, List.take_zero, hd] at hread
    cases hr : d.reference "l:1" with
    | error e => simp [hr, Except.toOption, Except.isOk, Except.toBool] at hread
    | ok t' => exact ⟨t', rfl⟩
  have hvalue' := ((hnumbered "1" 1 (by decide +kernel) t').1 ht').2.1
  exact ⟨_, fs, f, n, m, r, d, t, t', hparse, hfs, hf, hn, hd, ht,
    ht', by rw [hvalue, hvalue'], by rw [hvalue']; rfl⟩

/-- A file whose last entry is a token factor of the chain of a load. -/
def mergedFile (root : String) : String := String.join [
  "functions:\n- name: f\n",
  root,
  "  nodes:\n  - {name: l, op: load, type: i32, ops: [entry, entry]}\n",
  "  - name: t\n    op: TokenFactor\n    ops: ['l:1']\n"]

/-- The last entry gives the chain of the load, but its name denotes the loaded value. -/
theorem merged_name_denotes_loaded :
    holdsOfOnly (fun g => decide (g.root = some ⟨1, 1⟩)) (parse (mergedFile "")) = true ∧
    holdsOfOnly (fun g => decide (g.root = some ⟨1, 0⟩))
    (parse (mergedFile "  root: t\n")) = true := by
  constructor <;> exact holdsOfOnly_join (by decide +kernel)

end GraphLowering.FunctionFile
