import RecordLens.Proofs.Literal.Printed
import RecordLens.Proofs.Text.Nesting
import RecordLens.Proofs.Token.Number
import RecordLens.Proofs.Token.Quoted
import RecordLens.Proofs.Value.Denotation
import RecordLens.Value.Printer

/-! Printed values read back. A scalar is one lexeme, with a minus before it if it is negative, and
a record is read back if its values are. -/

namespace RecordLens

open Reader

variable {limit : Nat} {accept : Expr → Except SyntaxError Expr}

namespace Binary64

def IsFinite : Binary64 → Prop
  | .finite _ _ _ => True
  | _ => False

instance : (x : Binary64) → Decidable x.IsFinite
  | .finite _ _ _ => .isTrue trivial
  | .nan => .isFalse id
  | .infinite _ => .isFalse id

theorem text_finite (negative : Bool) {rank : Nat} (hr : rank < infiniteRank) :
    (finite negative rank hr).text.toList =
      if negative then '-' :: magnitudeText rank else magnitudeText rank := String.toList_ofList

end Binary64

namespace Scalar

/-- A float has to be finite, all other scalars are printed as literals. -/
def Readable (s : Scalar) : Prop := ∀ x, s = .float x → x.IsFinite

def ReadsBack [Alphabet] (limit : Nat) (accept : Expr → Except SyntaxError Expr) (s : Scalar)
    (cs : List Char) : Prop :=
  Spells valueGrammar limit accept cs 0 fun e => ∃ span, e = .scalar s span

theorem readsBack_of_start [Alphabet] {s : Scalar} {cs : List Char} {l : Lexeme}
    (hcs : ∃ c tail, cs = c :: tail ∧ Text.isBlank c = false)
    (htake : ∀ rest, Text.Delimited rest → Lexeme.take (cs ++ rest) = .ok (l, rest))
    (hopens : l.opens = false)
    (hstart : ∀ span, valueGrammar.start ⟨l, span⟩ = .ok (.inl (.scalar s span))) :
    s.ReadsBack limit accept cs := by
  intro frames rest _ hrest
  refine .single hcs (htake rest hrest) fun span => ⟨⟨frames, .whole (.scalar s span)⟩, ?_, ?_⟩
  · simp [step, begun, hopens, hstart, Except.map]
  · exact ⟨.scalar s span, ready_whole frames _, span, rfl⟩

theorem readsBack_of_minus [Alphabet] {s : Scalar} {cs : List Char} {l : Lexeme}
    (hcs : ∃ c tail, cs = c :: tail ∧ Text.isBlank c = false)
    (htake : ∀ rest, Text.Delimited rest → Lexeme.take (cs ++ rest) = .ok (l, rest))
    (hextend : ∀ minus span, ∃ whole,
      valueGrammar.extend minus ⟨l, span⟩ = .ok (.whole (.scalar s whole))) :
    s.ReadsBack limit accept ('-' :: cs) := by
  intro frames rest _ hrest
  refine .punctuation rfl fun minus => ⟨⟨frames, .part minus⟩, rfl, ?_⟩
  refine .single hcs (htake rest hrest) fun span => ?_
  obtain ⟨whole, hwhole⟩ := hextend minus span
  refine ⟨⟨frames, .whole (.scalar s whole)⟩, ?_, ?_⟩
  · simp [step, hwhole]
  · exact ⟨.scalar s whole, ready_whole frames _, whole, rfl⟩

theorem start_integer (digits : String) (span : Span) :
    valueGrammar.start ⟨.integer digits, span⟩ =
      (Expr.ofDigits false digits span).map .inl := by
  unfold valueGrammar
  dsimp only

theorem extend_integer (digits : String) (minus span : Span) :
    valueGrammar.extend minus ⟨.integer digits, span⟩ =
      (Expr.ofDigits true digits (minus.through span)).map .whole := by
  unfold valueGrammar
  dsimp only

theorem ofDigits_natAbs (i : Int64) (span : Span) :
    Expr.ofDigits (decide (i.toInt < 0)) (toString i.toInt.natAbs) span =
      .ok (.scalar (.int i) span) := by
  have hlower := i.le_toInt
  have hupper := i.toInt_lt
  have hmagnitude : digitsValue (toString i.toInt.natAbs).toList = i.toInt.natAbs := by
    rw [toList_toString_nat, digitsValue_toDigits]
  have hvalue : (if decide (i.toInt < 0) = true then -(i.toInt.natAbs : Int)
      else (i.toInt.natAbs : Int)) = i.toInt := by
    by_cases hneg : i.toInt < 0
    · rw [if_pos (by simpa using hneg)]
      omega
    · rw [if_neg (by simpa using hneg)]
      omega
  simp only [Expr.ofDigits, hmagnitude, hvalue]
  rw [if_pos ⟨hlower, hupper⟩, Int64.ofInt_toInt]

variable [Alphabet]

theorem readsBack_int (i : Int64) :
    (Scalar.int i).ReadsBack limit accept (toString i.toInt).toList := by
  have hnumber {rest : List Char} (hrest : Text.Delimited rest) :=
    Lexeme.take_of_number? (Lexeme.number?_toString i.toInt.natAbs hrest)
  have hcs := (hnumber Text.delimited_nil).1
  have htake (rest : List Char) (hrest : Text.Delimited rest) := (hnumber hrest).2
  have hdigits := ofDigits_natAbs i
  rw [toList_toString_nat] at hcs htake
  rw [toList_toString_int]
  by_cases hnonneg : 0 ≤ i.toInt
  · have hneg : decide (i.toInt < 0) = false := by simpa using hnonneg
    rw [hneg] at hdigits
    rw [if_pos hnonneg]
    refine readsBack_of_start hcs htake rfl fun span => ?_
    rw [start_integer, hdigits]
    rfl
  · have hneg : decide (i.toInt < 0) = true := by simpa using hnonneg
    rw [hneg] at hdigits
    rw [if_neg hnonneg]
    refine readsBack_of_minus hcs htake fun minus span => ⟨minus.through span, ?_⟩
    rw [extend_integer, hdigits]
    rfl

theorem readsBack_float {x : Binary64} (hx : x.IsFinite) :
    (Scalar.float x).ReadsBack limit accept x.text.toList := by
  cases x with
  | nan => exact absurd hx id
  | infinite negative => exact absurd hx id
  | finite negative rank hr =>
    have hnumber {rest : List Char} (hrest : Text.Delimited rest) :=
      Lexeme.take_of_number? (Lexeme.number?_magnitudeText hr hrest)
    have hcs := (hnumber Text.delimited_nil).1
    have htake (rest : List Char) (hrest : Text.Delimited rest) := (hnumber hrest).2
    rw [Binary64.text_finite]
    cases negative with
    | false =>
      rw [if_neg Bool.false_ne_true]
      exact readsBack_of_start hcs htake rfl fun _ => rfl
    | true =>
      rw [if_pos rfl]
      exact readsBack_of_minus hcs htake fun minus span => ⟨minus.through span, rfl⟩

theorem readsBack_bool (b : Bool) :
    (Scalar.bool b).ReadsBack limit accept (if b then "True" else "False").toList := by
  have hword (s : String) (hs : Text.IsIdentifier s)
      (hstart : ∀ span, valueGrammar.start ⟨.identifier s, span⟩ =
        .ok (.inl (.scalar (.bool b) span))) : (Scalar.bool b).ReadsBack limit accept s.toList := by
    obtain ⟨c, cs, he, hc, -⟩ := Text.identifier?_eq_some hs
    exact readsBack_of_start ⟨c, cs, he, Text.isBlank_of_isInitial hc⟩
      (fun rest hrest => Lexeme.take_identifier hs hrest) rfl hstart
  cases b with
  | false =>
    have hfalse : Text.IsIdentifier "False" :=
      Text.isIdentifier_of_isAlphanum 'F' ['a', 'l', 's', 'e'] rfl rfl
    exact hword "False" hfalse fun _ => rfl
  | true =>
    have htrue : Text.IsIdentifier "True" :=
      Text.isIdentifier_of_isAlphanum 'T' ['r', 'u', 'e'] rfl rfl
    exact hword "True" htrue fun _ => rfl

/-- A readable scalar is read back from its text. -/
theorem Readable.readsBack {s : Scalar} (h : s.Readable) :
    s.ReadsBack limit accept s.text.toList := by
  cases s with
  | int i => exact readsBack_int i
  | float x => exact readsBack_float (h x rfl)
  | bool b => exact readsBack_bool b
  | char c =>
    rw [text, String.toList_ofList]
    refine readsBack_of_start ⟨'\'', _, rfl, by decide⟩ (fun rest _ => Lexeme.take_character c rest)
      rfl fun span => rfl
  | string s =>
    rw [text, String.toList_ofList]
    refine readsBack_of_start ⟨'"', _, rfl, by decide⟩ (fun rest _ => Lexeme.take_string s rest)
      rfl fun span => rfl

end Scalar

namespace Value

mutual

/-- How many records of the value stand in one another. -/
def nesting : Value → Nat
  | .scalar _ => 0
  | .record _ values => valuesNesting values + 1

def valuesNesting : List Value → Nat
  | [] => 0
  | v :: rest => max (nesting v) (valuesNesting rest)

end

theorem nesting_record (type : RecordType) (values : List Value) :
    (record type values).nesting = (values.map nesting).foldr max 0 + 1 := by
  have h : valuesNesting values = (values.map nesting).foldr max 0 := by
    induction values with
    | nil => rfl
    | cons v rest ih => rw [List.map_cons, List.foldr_cons, ← ih, valuesNesting]
  rw [nesting, h]

/-- Floats are finite, labels are identifiers, and the names of a record may share one. -/
inductive Readable [Alphabet] : Value → Prop
  | scalar {s : Scalar} (h : s.Readable) : Readable (.scalar s)
  | record {type : RecordType} {values : List Value} (hnames : FieldName.Coherent type.names)
      (hlabels : ∀ s, .label s ∈ type.names → Text.IsIdentifier s)
      (h : ∀ v ∈ values, Readable v) : Readable (.record type values)

theorem texts_eq_map (values : List Value) : texts values = values.map text := by
  induction values with
  | nil => rw [texts]; rfl
  | cons v rest ih => rw [texts, ih]; rfl

theorem fieldTexts_eq_map (fields : List (Field Value)) :
    fieldTexts (fields.map Field.name) (fields.map fun f => f.value.text) =
      fields.map fun f => f.name.text ++ " = " ++ f.value.text := by
  rw [fieldTexts, List.zipWith_map, List.zipWith_self]

theorem text_record {r : RecordValue} (h : r.value.WellTyped) :
    r.value.text.toList = Reader.shown Field.name " = " (fun f => f.value.text) r.fields := by
  have hvalues : texts r.values = r.fields.map fun f => f.value.text := by
    rw [texts_eq_map, ← RecordValue.map_value_fields h, List.map_map]
    rfl
  have hnames := RecordValue.names_fields h
  rw [RecordValue.value, text, hvalues, ← hnames, fieldTexts_eq_map, Reader.shown]
  split <;> simp

theorem separates_equals [Alphabet] : Separates valueGrammar limit accept " = " := by
  intro frames b done name nameSpan rest
  refine ⟨Text.delimited_of_ascii (by decide), .blank (by decide) ?_⟩
  exact .punctuation rfl fun span => ⟨_, rfl, .blank (by decide) (.nil rfl)⟩

/-- A readable value of a registry is read as an expression that denotes it. -/
theorem Readable.spells [Alphabet] {g : Registry} (hv : g.Valid) {v : Value} (hw : v.WellTyped)
    (hg : v.Within g) (h : v.Readable) :
    Spells valueGrammar limit accept v.text.toList v.nesting (·.Denotes g v) := by
  induction v using Value.induction with
  | scalar s =>
    cases h with
    | scalar hs =>
      intro frames rest hroom hrest
      refine (hs.readsBack frames rest hroom hrest).imp ?_
      rintro r ⟨e, hready, span, rfl⟩
      exact ⟨.scalar s span, hready, Expr.denotes_scalar s span g⟩
  | record type values ih =>
    cases h with
    | record hnames hlabels hvalues =>
      let r : RecordValue := ⟨type, values⟩
      have hnamesEq : r.fields.map Field.name = type.names := RecordValue.names_fields hw
      have hspells : ∀ f ∈ r.fields, Spells valueGrammar limit accept f.value.text.toList
          ((values.map nesting).foldr max 0) (·.Denotes g f.value) := by
        intro f hf
        have hmem : f.value ∈ values := by
          have hstored : r.fields.map Field.value = values := RecordValue.map_value_fields hw
          rw [← hstored]
          exact List.mem_map_of_mem hf
        exact (ih f.value hmem (Fit.wellTyped_of_mem hw hmem) (hg.of_mem hmem)
          (hvalues f.value hmem)).mono (Text.le_foldr_max (List.mem_map_of_mem hmem))
      have henclosed := Encloses.shown separates_equals (hnamesEq ▸ hnames)
        (hnamesEq ▸ hlabels) hspells
      rw [← text_record (r := r) hw] at henclosed
      rw [nesting_record]
      refine (henclosed.imp ?_).spells
      rintro e ⟨fields, span, rfl, hfields⟩
      exact Expr.denotes_record (r := r) hv hg.holds hw span hfields

end Value

end RecordLens
