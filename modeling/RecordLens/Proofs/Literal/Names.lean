import Mathlib.Data.List.Perm.Subperm
import RecordLens.Literal.Names
import RecordLens.Proofs.Field.Canonical
import RecordLens.Proofs.Number.Digits
import RecordLens.Proofs.Token.Scan

/-! Which names may share a record: labels alone, or the positions from one on. The check of a
literal admits repeated names too, which have no canonical list. -/

namespace RecordLens

namespace FieldName

section

variable [Alphabet]

/-- The name reads back as it is printed. -/
def Legible : FieldName → Prop
  | .label s => Text.IsIdentifier s
  | .position n => 0 < n ∧ n < positionBound

instance : (n : FieldName) → Decidable n.Legible
  | .label s => inferInstanceAs (Decidable (Text.IsIdentifier s))
  | .position n => inferInstanceAs (Decidable (0 < n ∧ n < positionBound))

/-- The name is no label, or one that is an identifier. -/
def WellNamed (n : FieldName) : Prop := ∀ s, n = .label s → Text.IsIdentifier s

theorem wellNamed_position (n : Nat) : (position n).WellNamed := nofun

theorem wellNamed_of_ofDigits {digits : String} {span : Span} {n : FieldName}
    (h : ofDigits digits span = .ok n) : n.WellNamed := by
  unfold ofDigits at h
  simp only at h
  split at h
  · simp at h
  · split at h
    · obtain rfl := Except.ok.inj h
      exact wellNamed_position _
    · simp at h

end

theorem span_eq_of_ofDigits {digits : String} {span : Span} {e : SyntaxError}
    (h : ofDigits digits span = .error e) : e.span = span := by
  unfold ofDigits at h
  dsimp only at h
  split at h
  · exact Except.error.inj h ▸ rfl
  · split at h
    · cases h
    · exact Except.error.inj h ▸ rfl

def lexeme : FieldName → Lexeme
  | .label s => .identifier s
  | .position n => .integer (toString n)

theorem ofDigits_toString {n : Nat} (hn : 0 < n) (hb : n < positionBound) (span : Span) :
    ofDigits (toString n) span = .ok (.position n) := by
  rw [ofDigits, toList_toString_nat, if_neg (head?_toDigits_ne_zero hn), digitsValue_toDigits,
    if_pos hb]

theorem Legible.take_text [Alphabet] {n : FieldName} (h : n.Legible) {rest : List Char}
    (hrest : Text.Delimited rest) : Lexeme.take (n.text.toList ++ rest) = .ok (n.lexeme, rest) := by
  cases n with
  | label s => exact Lexeme.take_identifier h hrest
  | position n => exact (Lexeme.take_of_number? (Lexeme.number?_toString n hrest)).2

theorem Legible.text_eq_cons [Alphabet] {n : FieldName} (h : n.Legible) :
    ∃ c cs, n.text.toList = c :: cs ∧ Text.isBlank c = false := by
  cases n with
  | label s =>
    obtain ⟨c, cs, he, hc, -⟩ := Text.identifier?_eq_some h
    exact ⟨c, cs, he, Text.isBlank_of_isInitial hc⟩
  | position n =>
    have hn := Lexeme.number?_toString n Text.delimited_nil
    exact (Lexeme.take_of_number? hn).1

/-- Labels alone, or the positions from one on in order. -/
def Coherent (names : List FieldName) : Prop :=
  (∀ n ∈ names, n.isPosition = false) ∨ names = (List.range' 1 names.length).map .position

instance (names : List FieldName) : Decidable (Coherent names) :=
  inferInstanceAs (Decidable (_ ∨ _))

theorem pairwise_positions (first count : Nat) :
    ((List.range' first count).map FieldName.position).Pairwise (· < ·) := by
  rw [List.pairwise_map]
  exact (List.pairwise_lt_range' (s := first)).imp fun h => by simpa [lt_def, precedes] using h

theorem perm_positions {names : List FieldName}
    (hall : ∀ n ∈ List.range' 1 names.length, .position n ∈ names) :
    ((List.range' 1 names.length).map FieldName.position).Perm names := by
  have hsub : (List.range' 1 names.length).map FieldName.position ⊆ names := by
    intro n hn
    obtain ⟨k, hk, rfl⟩ := List.mem_map.1 hn
    exact hall k hk
  have hnodup := (pairwise_positions 1 names.length).imp ne_of_lt
  exact (List.subperm_of_subset hnodup hsub).perm_of_length_le (by simp)

theorem eq_positions {names : List FieldName} (hsorted : names.Pairwise (· < ·))
    (hall : ∀ n ∈ List.range' 1 names.length, .position n ∈ names) :
    names = (List.range' 1 names.length).map .position :=
  List.Perm.eq_of_pairwise (fun _ _ _ _ hab hba => absurd hba (lt_asymm hab)) hsorted
    (pairwise_positions 1 names.length) (perm_positions hall).symm

end FieldName

namespace FieldExpr

variable {α : Type}

theorem missingPosition?_eq_none_iff {names : List FieldName} :
    missingPosition? names = none ↔
      ∀ n ∈ List.range' 1 names.length, .position n ∈ names := by
  simp [missingPosition?, List.find?_eq_none]

theorem checkNames_cons_eq_ok_iff {first : FieldExpr α} {rest : List (FieldExpr α)} {span : Span} :
    checkNames (first :: rest) span = .ok () ↔
      (∀ f ∈ first :: rest, f.name.isPosition = first.name.isPosition) ∧
      (first.name.isPosition = true → ((first :: rest).map name).Nodup →
        missingPosition? ((first :: rest).map name) = none) := by
  simp only [checkNames]
  generalize first :: rest = fields
  cases hfind : fields.find? fun f => f.name.isPosition != first.name.isPosition with
  | some f =>
    have hmem := List.mem_of_find?_eq_some hfind
    have hne : f.name.isPosition ≠ first.name.isPosition := by
      simpa using List.find?_some hfind
    have hmixed : ¬∀ f ∈ fields, f.name.isPosition = first.name.isPosition :=
      fun hall => hne (hall f hmem)
    simp [hmixed]
  | none =>
    have hsame : ∀ f ∈ fields, f.name.isPosition = first.name.isPosition := by
      simpa using hfind
    rw [and_iff_right hsame]
    by_cases hpositions : first.name.isPosition = true ∧ (fields.map name).Nodup
    · cases missingPosition? (fields.map name) <;> simp [hpositions]
    · have hskip : ¬(first.name.isPosition && decide (fields.map name).Nodup) = true := by
        simpa using hpositions
      rw [if_neg hskip]
      simpa using fun hp hnodup => absurd ⟨hp, hnodup⟩ hpositions

theorem checkNames_eq_ok_iff {fields : List (FieldExpr α)} {span : Span} :
    checkNames fields span = .ok () ↔
      (∀ f ∈ fields, f.name.isPosition = false) ∨
      ((∀ f ∈ fields, f.name.isPosition = true) ∧ ((fields.map name).Nodup →
        ∀ n ∈ List.range' 1 fields.length, .position n ∈ fields.map name)) := by
  cases fields with
  | nil => simp [checkNames]
  | cons first rest =>
    have hlength : (first :: rest).length = ((first :: rest).map name).length := by simp
    have hfirst : first ∈ first :: rest := List.mem_cons_self
    rw [checkNames_cons_eq_ok_iff, missingPosition?_eq_none_iff, hlength]
    cases hp : first.name.isPosition with
    | false =>
      have hno : ¬∀ f ∈ first :: rest, f.name.isPosition = true := fun h => by
        simp [h first hfirst] at hp
      simp only [hno, false_and, or_false, Bool.false_eq_true, false_implies, and_true]
    | true =>
      have hno : ¬∀ f ∈ first :: rest, f.name.isPosition = false := fun h => by
        simp [h first hfirst] at hp
      simp only [hno, false_or, true_implies]

theorem checkNames_of_coherent {fields : List (FieldExpr α)}
    (h : FieldName.Coherent (fields.map name)) (span : Span) :
    checkNames fields span = .ok () := by
  rw [checkNames_eq_ok_iff]
  cases h with
  | inl hlabels => exact .inl (by simpa using hlabels)
  | inr hpositions =>
    refine .inr ⟨fun f hf => ?_, fun _ n hn => ?_⟩
    · have hmem : f.name ∈ (List.range' 1 (fields.map name).length).map .position :=
        hpositions ▸ List.mem_map_of_mem hf
      obtain ⟨n, -, he⟩ := List.mem_map.1 hmem
      rw [← he]
      rfl
    · rw [hpositions]
      exact List.mem_map_of_mem (by simpa using hn)

/-- Names that pass and do not repeat are coherent once they are in order. -/
theorem coherent_of_checkNames {fields : List (FieldExpr α)} {span : Span}
    (h : checkNames fields span = .ok ()) {names : List FieldName}
    (hsorted : names.Pairwise (· < ·)) (hp : names.Perm (fields.map name)) :
    FieldName.Coherent names := by
  have hlength : names.length = fields.length := by simpa using hp.length_eq
  rw [checkNames_eq_ok_iff] at h
  cases h with
  | inl hlabels =>
    refine .inl fun n hn => ?_
    obtain ⟨f, hf, rfl⟩ := List.mem_map.1 (hp.mem_iff.1 hn)
    exact hlabels f hf
  | inr hpositions =>
    refine .inr (FieldName.eq_positions hsorted fun n hn => hp.mem_iff.2 ?_)
    exact hpositions.2 (hp.nodup_iff.1 (hsorted.imp FieldName.ne_of_lt)) n (hlength ▸ hn)

theorem positions_names (span : α → Span) (first : Nat) (xs : List α) :
    (positions span first xs).map name = (List.range' first xs.length).map .position := by
  induction xs generalizing first with
  | nil => rfl
  | cons x xs ih => simp [positions, ih, List.range'_succ]

theorem item_mem_of_mem_positions {span : α → Span} {first : Nat} {xs : List α} {f : FieldExpr α}
    (h : f ∈ positions span first xs) : f.item ∈ xs := by
  induction xs generalizing first with
  | nil => simp [positions] at h
  | cons x xs ih =>
    rcases List.mem_cons.1 h with rfl | h
    · exact List.mem_cons_self
    · exact List.mem_cons_of_mem x (ih h)

theorem nameSpan_of_mem_positions {span : α → Span} {first : Nat} {xs : List α}
    {f : FieldExpr α} (h : f ∈ positions span first xs) : f.nameSpan = span f.item := by
  induction xs generalizing first with
  | nil => simp [positions] at h
  | cons x xs ih =>
    rcases List.mem_cons.1 h with rfl | h
    · rfl
    · exact ih h

theorem wellNamed_of_mem_positions [Alphabet] {span : α → Span} {first : Nat} {xs : List α}
    {f : FieldExpr α} (h : f ∈ positions span first xs) : f.name.WellNamed := by
  have hmem : f.name ∈ (List.range' first xs.length).map .position :=
    positions_names span first xs ▸ List.mem_map_of_mem h
  obtain ⟨n, -, he⟩ := List.mem_map.1 hmem
  exact he ▸ FieldName.wellNamed_position n

theorem checkNames_positions (span : α → Span) (xs : List α) (whole : Span) :
    checkNames (positions span 1 xs) whole = .ok () := by
  refine checkNames_of_coherent (.inr ?_) whole
  rw [positions_names]
  simp

end FieldExpr

end RecordLens
