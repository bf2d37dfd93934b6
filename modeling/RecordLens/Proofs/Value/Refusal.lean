import RecordLens.Proofs.Elaboration.Names
import RecordLens.Proofs.Literal.Refusal
import RecordLens.Proofs.Value.Reading

/-! Which printed records are read. What keeps a record from being read is a float that is infinite
or not a number, the name of which is a word that no literal begins with. All other records of a
registry are read, and denote themselves. -/

namespace RecordLens

open Reader

variable {limit : Nat} {accept : Expr → Except SyntaxError Expr}

namespace Scalar

variable [Alphabet]

theorem foils_word {s : String} (hword : Text.IsIdentifier s)
    (hstart : ∀ span, ∃ e, valueGrammar.start ⟨.identifier s, span⟩ = .error e) :
    Foils valueGrammar limit accept s.toList 0 := by
  intro frames rest _ hrest
  refine .lexeme hword.exists_cons (Lexeme.take_identifier hword hrest) fun span => ?_
  obtain ⟨e, he⟩ := hstart span
  exact ⟨e, by simp [step, begun, Lexeme.opens, he, Except.map]⟩

theorem foils_minus {s : String} (hword : Text.IsIdentifier s) :
    Foils valueGrammar limit accept ('-' :: s.toList) 0 := by
  intro frames rest _ hrest
  have hminus : Reads valueGrammar limit accept ⟨frames, .item⟩ ['-'] (s.toList ++ rest)
      fun r => ∃ span, r = ⟨frames, .part span⟩ :=
    .punctuation rfl fun span => ⟨_, rfl, .nil ⟨span, rfl⟩⟩
  refine hminus.refuses ?_
  rintro r ⟨minus, rfl⟩
  exact .lexeme hword.exists_cons (Lexeme.take_identifier hword hrest) fun span => ⟨_, rfl⟩

theorem foils_text {s : Scalar} (h : ¬s.Readable) :
    Foils valueGrammar limit accept s.text.toList 0 := by
  obtain ⟨x, rfl, hx⟩ : ∃ x, s = .float x ∧ ¬x.IsFinite := by simpa [Readable] using h
  have hnan : Text.IsIdentifier "NaN" :=
    Text.isIdentifier_of_isAlphanum 'N' ['a', 'N'] rfl rfl
  have hinf : Text.IsIdentifier "inf" :=
    Text.isIdentifier_of_isAlphanum 'i' ['n', 'f'] rfl rfl
  cases x with
  | nan => exact foils_word (s := "NaN") hnan fun _ => ⟨_, rfl⟩
  | infinite negative =>
    cases negative with
    | false => exact foils_word (s := "inf") hinf fun _ => ⟨_, rfl⟩
    | true => exact foils_minus (s := "inf") hinf
  | finite negative rank hr => exact absurd trivial hx

end Scalar

namespace Value

/-- No float in the value is infinite or not a number. -/
inductive Finite : Value → Prop
  | scalar {s : Scalar} (h : s.Readable) : Finite (.scalar s)
  | record {type : RecordType} {values : List Value} (h : ∀ v ∈ values, Finite v) :
      Finite (.record type values)

theorem forall_handles_record {P : RecordType → Prop} {type : RecordType} {values : List Value}
    (h : ∀ r ∈ (Value.record type values).handles, P r) :
    P type ∧ ∀ v ∈ values, ∀ r ∈ v.handles, P r := by
  rw [handles_record, Ty.handles_ty] at h
  refine ⟨h type (by simp), fun v hv r hr => h r ?_⟩
  exact List.mem_append_right _ (List.mem_flatMap_of_mem hv hr)

theorem within_of_handles {g : Registry} {v : Value} (h : ∀ r ∈ v.handles, g.Holds r) :
    v.Within g := by
  induction v using Value.induction with
  | scalar s => exact .scalar s
  | record type values ih =>
    obtain ⟨htype, hvalues⟩ := forall_handles_record h
    exact .record htype fun v hv => ih v hv (hvalues v hv)

/-- With orderly names nothing but its floats keeps a value from being read. -/
theorem Finite.readable [Alphabet] {v : Value} (h : v.Finite)
    (hnames : ∀ r ∈ v.handles, FieldName.Orderly r.names) : v.Readable := by
  induction h with
  | scalar hs => exact .scalar hs
  | record _ ih =>
    obtain ⟨htype, hvalues⟩ := forall_handles_record hnames
    exact .record htype.coherent (fun s hs => htype.wellNamed _ hs s rfl) fun v hv =>
      ih v hv (hvalues v hv)

/-- A value of a registry that is not finite begins no item: a float of it does not, and the values
before that float are read. -/
theorem foils_text [Alphabet] {g : Registry} (hg : g.Valid) {v : Value} (hw : v.WellTyped)
    (hheld : ∀ r ∈ v.handles, g.Holds r) (hnames : ∀ r ∈ v.handles, FieldName.Orderly r.names)
    (h : ¬v.Finite) : Foils valueGrammar limit accept v.text.toList v.nesting := by
  induction v using Value.induction with
  | scalar s => exact Scalar.foils_text fun hs => h (.scalar hs)
  | record type values ih =>
    let r : RecordValue := ⟨type, values⟩
    have hfields : r.fields.map Field.name = type.names := RecordValue.names_fields hw
    have hstored : r.fields.map Field.value = values := RecordValue.map_value_fields hw
    obtain ⟨-, hheldIn⟩ := forall_handles_record hheld
    obtain ⟨htype, hnamesIn⟩ := forall_handles_record hnames
    have hmem (f : Field Value) (hf : f ∈ r.fields) : f.value ∈ values :=
      hstored ▸ List.mem_map_of_mem hf
    have hroom (f : Field Value) (hf : f ∈ r.fields) :
        f.value.nesting ≤ (values.map nesting).foldr max 0 :=
      Text.le_foldr_max (List.mem_map_of_mem (hmem f hf))
    have hgood (f : Field Value) (hf : f ∈ r.fields) (hfinite : f.value.Finite) :
        Spells valueGrammar limit accept f.value.text.toList ((values.map nesting).foldr max 0)
          (·.Denotes g f.value) := by
      have hv := hmem f hf
      exact ((hfinite.readable (hnamesIn _ hv)).spells hg (Fit.wellTyped_of_mem hw hv)
        (within_of_handles (hheldIn _ hv))).mono (hroom f hf)
    have hbad (f : Field Value) (hf : f ∈ r.fields) (hnot : ¬f.value.Finite) :
        Foils valueGrammar limit accept f.value.text.toList
          ((values.map nesting).foldr max 0) := by
      have hv := hmem f hf
      exact (ih _ hv (Fit.wellTyped_of_mem hw hv) (hheldIn _ hv) (hnamesIn _ hv) hnot).mono
        (hroom f hf)
    have hsome : ∃ f ∈ r.fields, ¬f.value.Finite := by
      by_contra hall
      push Not at hall
      refine h (.record fun v hv => ?_)
      obtain ⟨f, hf, rfl⟩ := List.mem_map.1 (hstored ▸ hv)
      exact hall f hf
    have hfoils := Foils.shown hgood hbad hsome separates_equals (hfields ▸ htype.coherent)
      fun s hs => htype.wellNamed _ (hfields ▸ hs) s rfl
    rw [nesting_record]
    rwa [← text_record (r := r) hw] at hfoils

end Value

/-- The printed record is read as a literal that denotes it if it is finite, and is malformed
otherwise. -/
theorem RecordValue.readRecord_text [Alphabet] {g : Registry} (hg : g.Valid) {r : RecordValue}
    (hw : r.value.WellTyped) (hheld : ∀ h ∈ r.value.handles, g.Holds h)
    (hnames : ∀ h ∈ r.value.handles, FieldName.Orderly h.names) (hroom : r.value.nesting ≤ limit) :
    (r.value.Finite → ∃ l, Expr.readRecord limit r.text = .ok l ∧
      (Expr.elaborateRecord l none).outcome g = (.ok r, g)) ∧
    (¬r.value.Finite → ∃ e, Expr.readRecord limit r.text = .error e) := by
  constructor
  · intro hfinite
    have hspells : Spells valueGrammar limit .ok r.value.text.toList r.value.nesting
        (·.Denotes g r.value) :=
      (hfinite.readable hnames).spells hg hw (Value.within_of_handles hheld)
    obtain ⟨e, he, hdenotes⟩ := hspells.read hroom
    have hvalue := (hdenotes []).1
    cases e with
    | scalar s span => exact absurd (Prod.mk.inj hvalue).1 nofun
    | record l =>
      obtain ⟨r', g', hr, hp⟩ := Elaboration.outcome_bind_ok.1 hvalue
      obtain ⟨hsame, rfl⟩ : r'.value = r.value ∧ g' = g := by simpa using hp
      obtain rfl := value_injective hsame
      exact ⟨l, Expr.readRecord_eq_ok_iff.2 he, hr⟩
  · intro hnot
    have hfoils : Foils valueGrammar limit .ok r.value.text.toList r.value.nesting :=
      Value.foils_text hg hw hheld hnames hnot
    obtain ⟨e, he⟩ := hfoils.read hroom
    cases hr : Expr.readRecord limit r.text with
    | error e => exact ⟨e, rfl⟩
    | ok l => exact absurd (he.symm.trans (Expr.readRecord_eq_ok_iff.1 hr)) nofun

end RecordLens
