import GraphLowering.Proofs.Subtarget.Validated
import Mathlib.Data.List.Nodup

/-!
# Names of registers

Validation leaves no register name repeated, no special register and no register of a convention
unlisted, and no two conventions with one id (`Resolved`). So names and the numbers from one up
stand for one another, lists of names are resolved without loss, and an id names one convention
(`naming_of_parse`).
-/

namespace GraphLowering.Subtarget.Description

variable {d : Description} {c : Convention} {cc : CallConv} {name : String}
  {names : List String} {r : Register}

/-- What the checks of names establish. -/
structure Resolved (d : Description) : Prop where
  nodup : d.registers.Nodup
  special : ∀ name ∈ [d.stackPointer, d.framePointer, d.linkRegister], name ∈ d.registers
  lists : ∀ c ∈ d.conventions, ∀ names ∈ [c.args, c.returns, c.calleeSaved], ∀ name ∈ names,
    name ∈ d.registers
  ids : (d.conventions.map (·.id)).Nodup

/-! ### The checks -/

theorem nodup_of_checkRegisters {seen : List String} (h : checkRegisters seen names = .ok ()) :
    names.Nodup ∧ ∀ name ∈ names, name ∉ seen := by
  induction names generalizing seen with
  | nil => simp
  | cons name rest ih =>
    simp only [checkRegisters] at h
    split at h
    · cases h
    split at h
    · cases h
    rename_i hnew
    obtain ⟨hnodup, hseen⟩ := ih h
    refine ⟨List.nodup_cons.2 ⟨fun hmem => hseen name hmem List.mem_cons_self, hnodup⟩, ?_⟩
    exact List.forall_mem_cons.2 ⟨hnew, fun x hx hmem => hseen x hx (List.mem_cons_of_mem _ hmem)⟩

theorem unknownRegister?_eq_none :
    d.unknownRegister? names = none ↔ ∀ name ∈ names, name ∈ d.registers := by
  simp [unknownRegister?]

theorem known_of_checkList {convention list : String}
    (h : d.checkList convention list names = .ok ()) : ∀ name ∈ names, name ∈ d.registers := by
  rw [checkList] at h
  split at h
  · cases h
  · exact unknownRegister?_eq_none.1 ‹_›

/-- A convention that passes has a new id and lists of known names, and the rest passes. -/
theorem checkConventions_cons {seen : List CallConv} {rest : List Convention}
    (h : d.checkConventions seen (c :: rest) = .ok ()) :
    c.id ∉ seen ∧ (∀ names ∈ [c.args, c.returns, c.calleeSaved], ∀ name ∈ names,
      name ∈ d.registers) ∧ d.checkConventions (c.id :: seen) rest = .ok () := by
  simp only [checkConventions, bind, Except.bind] at h
  split at h
  · cases h
  rename_i hnew
  split at h
  · cases h
  split at h
  · cases h
  rename_i hargs
  split at h
  · cases h
  rename_i hreturns
  split at h
  · cases h
  rename_i hsaved
  refine ⟨hnew, ?_, h⟩
  simpa using ⟨known_of_checkList hargs, known_of_checkList hreturns, known_of_checkList hsaved⟩

theorem nodup_of_checkConventions {seen : List CallConv} {cs : List Convention}
    (h : d.checkConventions seen cs = .ok ()) :
    (cs.map (·.id)).Nodup ∧ (∀ c ∈ cs, c.id ∉ seen) ∧
      ∀ c ∈ cs, ∀ names ∈ [c.args, c.returns, c.calleeSaved], ∀ name ∈ names, name ∈
      d.registers := by
  induction cs generalizing seen with
  | nil => simp
  | cons c rest ih =>
    obtain ⟨hnew, hknown, hrest⟩ := checkConventions_cons h
    obtain ⟨hnodup, hseen, hlists⟩ := ih hrest
    refine ⟨List.nodup_cons.2 ⟨?_, hnodup⟩, ?_, List.forall_mem_cons.2 ⟨hknown, hlists⟩⟩
    · rintro hmem
      obtain ⟨c', hc', heq⟩ := List.mem_map.1 hmem
      exact hseen c' hc' (heq ▸ List.mem_cons_self)
    · exact List.forall_mem_cons.2 ⟨hnew, fun x hx hmem => hseen x hx (List.mem_cons_of_mem _ hmem)⟩

theorem resolved_of_validate (h : d.validate = .ok ()) : d.Resolved := by
  have hchecks : checkRegisters [] d.registers = .ok () ∧
      d.unknownRegister? [d.stackPointer, d.framePointer, d.linkRegister] = none := by
    simp only [validate, bind, Except.bind] at h
    repeat' split at h
    all_goals first | cases h | simp_all
  obtain ⟨hids, -, hlists⟩ := nodup_of_checkConventions (checkConventions_of_validate h)
  exact ⟨(nodup_of_checkRegisters hchecks.1).1, unknownRegister?_eq_none.1 hchecks.2, hlists, hids⟩

/-! ### Names and numbers -/

theorem number_register? (hfew : d.registers.length < 2 ^ 31) (h : d.register? name = some r) :
    r.number.toNat = d.registers.idxOf name + 1 ∧ d.registers.idxOf name < d.registers.length := by
  simp only [register?, Option.ite_none_right_eq_some, Option.some.injEq] at h
  obtain ⟨hmem, rfl⟩ := h
  have hlt := List.idxOf_lt_length_of_mem hmem
  refine ⟨UInt32.toNat_ofNat_of_lt' ?_, hlt⟩
  rw [UInt32.size]
  omega

theorem register?_range (hfew : d.registers.length < 2 ^ 31) (h : d.register? name = some r) :
    1 ≤ r.number.toNat ∧ r.number.toNat ≤ d.registers.length := by
  obtain ⟨hnum, hlt⟩ := number_register? hfew h
  omega

theorem registerName_eq (hfew : d.registers.length < 2 ^ 31) (hpos : 1 ≤ r.number.toNat)
    (hle : r.number.toNat - 1 < d.registers.length) :
    d.registerName r = d.registers[r.number.toNat - 1] := by
  have hphysical : r.isPhysical := by
    simp only [Register.isPhysical, Register.firstVirtual, Bool.and_eq_true,
      decide_eq_true_eq, ne_eq, ← UInt32.toNat_inj, UInt32.lt_iff_toNat_lt, UInt32.toNat_ofNat]
    omega
  rw [registerName, if_pos hphysical, List.getElem?_eq_getElem hle, Option.getD_some]

theorem registerName_register? (hfew : d.registers.length < 2 ^ 31)
    (h : d.register? name = some r) : d.registerName r = name := by
  obtain ⟨hnum, hlt⟩ := number_register? hfew h
  rw [registerName_eq hfew (by omega) (by omega)]
  simp only [hnum, Nat.add_sub_cancel, List.getElem_idxOf]

theorem Resolved.register?_registerName (h : d.Resolved) (hfew : d.registers.length < 2 ^ 31)
    (hpos : 1 ≤ r.number.toNat) (hle : r.number.toNat ≤ d.registers.length) :
    d.register? (d.registerName r) = some r := by
  have hlt : r.number.toNat - 1 < d.registers.length := by omega
  rw [registerName_eq hfew hpos hlt, register?, if_pos (List.getElem_mem hlt),
    h.nodup.idxOf_getElem _ hlt, Nat.sub_add_cancel hpos, UInt32.ofNat_toNat]

theorem isSome_register? : (d.register? name).isSome ↔ name ∈ d.registers := by
  simp [register?]

/-- The special registers are there and have the names they were declared with. -/
theorem Resolved.declared (h : d.Resolved) (hfew : d.registers.length < 2 ^ 31) :
    ∀ name ∈ [d.stackPointer, d.framePointer, d.linkRegister],
      let r := (d.register? name).getD .none
      1 ≤ r.number.toNat ∧ r.number.toNat ≤ d.registers.length ∧ d.registerName r = name := by
  intro name hname
  obtain ⟨r, hr⟩ := Option.isSome_iff_exists.1 (isSome_register?.2 (h.special name hname))
  obtain ⟨hpos, hle⟩ := register?_range hfew hr
  rw [hr, Option.getD_some]
  exact ⟨hpos, hle, registerName_register? hfew hr⟩

theorem registersOf_eq (hfew : d.registers.length < 2 ^ 31)
    (h : ∀ name ∈ names, name ∈ d.registers) :
    (d.registersOf names).map some = names.map d.register? ∧
    (d.registersOf names).map d.registerName = names := by
  induction names with
  | nil => exact ⟨rfl, rfl⟩
  | cons name rest ih =>
    obtain ⟨hname, hrest⟩ := List.forall_mem_cons.1 h
    obtain ⟨r, hr⟩ := Option.isSome_iff_exists.1 (isSome_register?.2 hname)
    obtain ⟨hsome, hnames⟩ := ih hrest
    rw [registersOf, List.filterMap_cons_some hr, ← registersOf]
    simp only [List.map_cons, hr, hsome, hnames, registerName_register? hfew hr, and_self]

theorem convention_eq_ok_iff : d.convention cc = .ok c ↔ d.convention? cc = some c := by
  rw [convention]
  cases d.convention? cc <;> simp

theorem Resolved.convention?_eq_some (h : d.Resolved) :
    d.convention? cc = some c ↔ c ∈ d.conventions ∧ c.id = cc := by
  constructor
  · intro hc
    exact ⟨List.mem_of_find?_eq_some hc, by simpa using List.find?_some hc⟩
  · rintro ⟨hmem, rfl⟩
    obtain ⟨c', hc'⟩ := Option.isSome_iff_exists.1
      (List.find?_isSome (p := (·.id = c.id)) |>.2 ⟨c, hmem, by simp⟩)
    rw [convention?, hc', List.inj_on_of_nodup_map h.ids (List.mem_of_find?_eq_some hc') hmem
      (by simpa using List.find?_some hc')]

/-- In a description that was read, the names of registers and the numbers from one up stand for one
another; the special registers and the lists of the conventions stand for the names they were
declared with; and an id gives the only convention that has it. -/
theorem naming_of_parse {k : Codec} {text : String} (h : k.parse text = .ok d)
    (hfew : d.registers.length < 2 ^ 31) :
    (∀ name, (d.register? name).isSome ↔ name ∈ d.registers) ∧
    (∀ r, (∃ name, d.register? name = some r) ↔ 1 ≤ r.number.toNat ∧
      r.number.toNat ≤ d.registers.length) ∧
    (∀ name name' r, d.register? name = some r → d.register? name' = some r → name = name') ∧
    (∀ i (hi : i < d.registers.length), d.register? d.registers[i] = some ⟨UInt32.ofNat (i + 1)⟩) ∧
    (∀ name r, d.register? name = some r → d.registerName r = name) ∧
    (∀ r, 1 ≤ r.number.toNat → r.number.toNat ≤ d.registers.length →
      d.register? (d.registerName r) = some r) ∧
    (∀ p ∈ [(d.sp, d.stackPointer), (d.fp, d.framePointer), (d.lr, d.linkRegister)],
      1 ≤ p.1.number.toNat ∧ p.1.number.toNat ≤ d.registers.length ∧ d.registerName p.1 = p.2) ∧
    (∀ c ∈ d.conventions, ∀ p ∈ [(d.argRegisters c, c.args), (d.returnRegisters c, c.returns),
        (d.savedRegisters c, c.calleeSaved)],
      p.1.length = p.2.length ∧ p.1.map some = p.2.map d.register? ∧ p.1.map d.registerName = p.2) ∧
    (∀ cc c, d.convention cc = .ok c ↔ c ∈ d.conventions ∧ c.id = cc) ∧
    (∀ cc, (∀ c ∈ d.conventions, c.id ≠ cc) → d.convention cc = .error (.noConvention d.name cc)) ∧
    (d.conventions.map (·.id)).Nodup := by
  have hres := resolved_of_validate (validate_of_parse h)
  have hlist : ∀ c ∈ d.conventions, ∀ names ∈ [c.args, c.returns, c.calleeSaved],
      (d.registersOf names).length = names.length ∧ (d.registersOf names).map some =
        names.map d.register? ∧ (d.registersOf names).map d.registerName = names := by
    intro c hc names hnames
    obtain ⟨hsome, hnamed⟩ := registersOf_eq hfew (hres.lists c hc names hnames)
    exact ⟨by simpa using congrArg List.length hnamed, hsome, hnamed⟩
  refine ⟨fun _ => isSome_register?,
    fun r => ⟨fun ⟨_, hr⟩ => register?_range hfew hr,
    fun hr => ⟨_, hres.register?_registerName hfew hr.1 hr.2⟩⟩, fun name name' r hr hr' => ?_,
    fun i hi => ?_, fun _ _ => registerName_register? hfew,
    fun _ => hres.register?_registerName hfew, ?_, fun c hc => ?_, fun cc c => ?_,
    fun cc hcc => ?_, hres.ids⟩
  · rw [← registerName_register? hfew hr, registerName_register? hfew hr']
  · rw [register?, if_pos (List.getElem_mem hi), hres.nodup.idxOf_getElem i hi]
  · simpa [sp, fp, lr] using hres.declared hfew
  · simpa [argRegisters, returnRegisters, savedRegisters] using hlist c hc
  · rw [convention_eq_ok_iff, hres.convention?_eq_some]
  · have hnone : d.convention? cc = none := List.find?_eq_none.2 fun c hc => by simpa using hcc c hc
    rw [convention, hnone]

/-- A machine whose stack pointer is the last of its registers. -/
def pairText : String :=
  "registers: [a, s]\nstackPointer: s\nframePointer: a\nlinkRegister: a\n" ++
    "conventions:\n- args: [s, a]\n"

def pairMachine : Description where
  schema := "v1.0.0"
  pointerBits := 32
  stackAlign := 8
  registers := ["a", "s"]
  stackPointer := "s"
  framePointer := "a"
  linkRegister := "a"
  addressing := { maxScale := 1 }
  conventions := [{ args := ["s", "a"], slotSize := 4, stackAlign := 8 }]

theorem naming_of_parse_pair :
    parse pairText = .ok pairMachine ∧ pairMachine.register? "s" = some ⟨2⟩ ∧
    pairMachine.registerName pairMachine.sp = "s" := by
  have hread : parse pairText = .ok pairMachine := parse_of_isReadFrom (by decide +kernel)
  obtain ⟨-, -, -, hnumber, -, -, hspecial, -⟩ := naming_of_parse hread (by decide)
  exact ⟨hread, hnumber 1 (by decide), (hspecial _ List.mem_cons_self).2.2⟩

end GraphLowering.Subtarget.Description
