import GraphLowering.Proofs.Subtarget.Validated

/-!
# A description that was written is read back

What reading fills in is filled in for good: a description that was read has nothing left out
(`normalize_of_parse`), and what writing hands over is the description itself. So the text that is
written is accepted, and gives the description (`written_reads_back`), as long as the record that
stands in it is decoded.
-/

namespace GraphLowering.Subtarget.Description

variable {d : Description}

theorem orDefault_orDefault (n k : Int64) : orDefault (orDefault n k) k = orDefault n k := by
  unfold orDefault
  split <;> simp_all

/-- Defaults that depend on other defaults are found again. -/
theorem normalize_normalize (d : Description) : d.normalize.normalize = d.normalize := by
  have hschema : (if d.normalize.schema = "" then "v1.0.0" else d.normalize.schema) =
      d.normalize.schema := by
    refine if_neg ?_
    show (if d.schema = "" then "v1.0.0" else d.schema) ≠ ""
    split <;> simp_all
  rw [normalize, hschema]
  simp only [normalize, orDefault_orDefault, List.map_map]
  congr 1
  exact List.map_congr_left fun c _ => by simp only [Function.comp_apply, orDefault_orDefault]

variable {k : Codec}

theorem normalize_of_parse {text : String} (h : k.parse text = .ok d) : d.normalize = d := by
  simp only [Codec.parse, bind, Except.bind, pure, Except.pure] at h
  split at h
  · cases h
  · split at h <;> cases h
    exact normalize_normalize _

/-- A description that was read is left as it is when it is written, and the text is read as this
description, with the registers of its conventions and its own; writing that again gives the same
text. The record that is written is assumed to be decoded. -/
theorem written_reads_back {text : String} (h : k.parse text = .ok d)
    (hdecoded : k.decode? (k.encode d.normalize) = some d.normalize) :
    (k.write d).2 = d ∧ ∃ d', k.parse (k.write d).1 = .ok d' ∧ d' = d ∧
    (k.write d').1 = (k.write d).1 ∧
      (d'.sp, d'.fp, d'.lr) = (d.sp, d.fp, d.lr) ∧
      d'.conventions.map (fun c => (d'.argRegisters c, d'.returnRegisters c, d'.savedRegisters c)) =
        d.conventions.map fun c => (d.argRegisters c, d.returnRegisters c, d.savedRegisters c) := by
  have hnormal := normalize_of_parse h
  refine ⟨?_, d, ?_, rfl, rfl, rfl, rfl⟩
  · rw [Codec.write, hnormal]
  · rw [hnormal] at hdecoded
    simp only [Codec.write, Codec.parse, hnormal, hdecoded, validate_of_parse h, bind, Except.bind,
      pure, Except.pure]

/-- A description that leaves out what can be left out. -/
def sparse : Description where
  registers := ["a", "b"]
  stackPointer := "a"
  framePointer := "b"
  linkRegister := "b"
  conventions := [{ name := "x", args := ["b"], stackAlign := 16 }]

/-- A text of it. -/
def sparseText : String :=
  "\x7bregisters: [a, b], stackPointer: a, framePointer: b, linkRegister: b, " ++
    "conventions: [\x7bname: x, args: [b], stackAlign: 16\x7d]\x7d"

/-- Decodes this text and what is written for the description. -/
def sparseCodec : Codec where
  encode := encode
  decode? text :=
    if text = sparseText then some sparse
    else if text = sparse.normalize.encode then some sparse.normalize
    else none

theorem written_reads_back_sparse :
    sparseCodec.parse sparseText = .ok sparse.normalize ∧
      (sparseCodec.write sparse.normalize).2 = sparse.normalize ∧
      sparseCodec.parse (sparseCodec.write sparse.normalize).1 = .ok sparse.normalize := by
  have hread : sparseCodec.parse sparseText = .ok sparse.normalize := by
    simp only [Codec.parse, sparseCodec, if_true]
    rfl
  have hother : sparse.normalize.encode ≠ sparseText := by decide +kernel
  have hdecoded : sparseCodec.decode? (sparseCodec.encode sparse.normalize.normalize) =
      some sparse.normalize.normalize := by
    rw [normalize_normalize]
    simp only [sparseCodec, hother, if_false, if_true]
  obtain ⟨hleft, d', hparse, hd', -⟩ := written_reads_back hread hdecoded
  subst hd'
  exact ⟨hread, hleft, hparse⟩

end GraphLowering.Subtarget.Description
