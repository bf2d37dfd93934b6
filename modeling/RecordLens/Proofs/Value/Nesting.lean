import RecordLens.Proofs.Elaboration.Names
import RecordLens.Proofs.Value.Reading
import RecordLens.Proofs.Value.Typing

/-! How deep records nest in values. A literal that is read opens a bracket for each of its records,
and the value that it denotes has a record only where the literal has one. How deep the records of a
well-typed value nest is a matter of its type, so that no value nests deeper for being replaced by
one of the same type. -/

namespace RecordLens

inductive Expr.NestsWithin : Nat → Expr → Prop
  | scalar (n : Nat) (s : Scalar) (span : Span) : NestsWithin n (.scalar s span)
  | record {n : Nat} {fields : List (FieldExpr Expr)} {span : Span}
      (h : ∀ f ∈ fields, NestsWithin n f.item) : NestsWithin (n + 1) (.record ⟨fields, span⟩)

namespace Expr

open Elaboration

theorem NestsWithin.mono {n m : Nat} {e : Expr} (h : e.NestsWithin n) (hle : n ≤ m) :
    e.NestsWithin m := by
  induction h generalizing m with
  | scalar n s span => exact .scalar m s span
  | @record n fields span _ ih =>
    obtain ⟨k, rfl⟩ := Nat.exists_eq_add_of_le' hle
    exact .record fun f hf => ih f hf (Nat.le_add_left n k)

theorem keeps_nestsWithin [Alphabet] (limit : Nat) :
    Reader.Keeps valueGrammar limit (fun depth e => e.NestsWithin (limit - depth)) (fun _ _ => True)
      (fun depth e => e.NestsWithin (limit - depth)) where
  start_item {depth t e} _ _ h := by
    rcases start_eq_ok h with ⟨s, -, he⟩ | ⟨-, he⟩
    · obtain rfl := Sum.inl.inj he
      exact .scalar _ s _
    · exact absurd he nofun
  start_part _ _ _ := trivial
  extend_whole {depth p t e} _ _ h := by
    obtain ⟨s, -, he⟩ := extend_eq_ok h
    obtain rfl := Extension.whole.inj he
    exact .scalar _ s _
  extend_part _ _ _ := trivial
  extend_ended {depth p t e} _ h := by
    obtain ⟨s, -, he⟩ := extend_eq_ok h
    exact absurd he nofun
  join _ _ := trivial
  unbracketed h := h
  parenthesized h := h.mono (by omega)
  record {depth fields span} hdepth _ h := by
    have hroom : limit - depth = limit - (depth + 1) + 1 := by omega
    exact hroom ▸ .record fun f hf => (h f hf).2

theorem nestsWithin_of_readRecord [Alphabet] {limit : Nat} {text : String} {r : RecordExpr Expr}
    (h : readRecord limit text = .ok r) : (record r).NestsWithin limit := by
  obtain ⟨e, he, haccept⟩ :=
    Reader.holds_of_read (keeps_nestsWithin limit) (readRecord_eq_ok_iff.1 h)
  exact Except.ok.inj haccept ▸ he

def Elaborator.Yields (elaborate : Elaborator) (P : Value → Prop) : Prop :=
  ∀ ⦃expected path g v g'⦄, (elaborate expected path).outcome g = (.ok v, g') → P v

section

variable {P : Value → Prop} {path : Path} {g g' : Registry}

theorem forall_of_inferred {ys : List (Field Elaborator)} {r : RecordValue}
    (hys : ∀ y ∈ ys, y.value.Yields P) (h : (inferred ys path).outcome g = (.ok r, g')) :
    ∀ v ∈ r.values, P v := by
  obtain ⟨fields, g₁, hfields, hr⟩ := outcome_bind_ok.1 h
  have hall : ∀ f ∈ fields, P f.value := forall_of_mapM
    (fun y hy _ _ _ hv => hys y hy (outcome_traverse.1 hv).2) hfields
  obtain ⟨rfl, -⟩ : ((RecordValue.ofCanonical fields).outcome g₁).1 = r ∧ _ := by simpa using hr
  intro v hv
  rw [(RecordValue.outcome_ofCanonical fields g₁).2] at hv
  obtain ⟨f, hf, rfl⟩ := List.mem_map.1 hv
  exact hall f hf

theorem forall_of_checkedValues {ys : List (Field Elaborator)} {types : List (Field Ty)}
    {values : List Value} (hys : ∀ y ∈ ys, y.value.Yields P)
    (h : (checkedValues path ys types).outcome g = (.ok values, g')) : ∀ v ∈ values, P v := by
  induction ys generalizing types values g with
  | nil =>
    obtain ⟨rfl, -⟩ : [] = values ∧ g = g' := by simpa [checkedValues] using h
    simp
  | cons y ys ih =>
    cases types with
    | nil =>
      obtain ⟨rfl, -⟩ : [] = values ∧ g = g' := by simpa [checkedValues] using h
      simp
    | cons declared types =>
      obtain ⟨v, g₁, hv, hrest⟩ := outcome_bind_ok.1 h
      obtain ⟨vs, g₂, hvs, hp⟩ := outcome_bind_ok.1 hrest
      obtain ⟨rfl, rfl⟩ : v :: vs = values ∧ g₂ = g' := by simpa using hp
      have hrest : ∀ v ∈ vs, P v := ih (fun z hz => hys z (List.mem_cons_of_mem y hz)) hvs
      exact List.forall_mem_cons.2 ⟨hys y List.mem_cons_self hv, hrest⟩

theorem forall_of_recordValue {fields : List (FieldExpr Elaborator)} {span : Span}
    {expected : Option Ty} {r : RecordValue} (hfields : ∀ f ∈ fields, f.item.Yields P)
    (h : (recordValue fields span expected path).outcome g = (.ok r, g')) :
    ∀ v ∈ r.values, P v := by
  cases hc : FieldExpr.canonicalize fields with
  | error clash =>
    rw [recordValue_of_clash hc] at h
    exact absurd (Prod.mk.inj h).1 nofun
  | ok ys =>
    have hys : ∀ y ∈ ys, y.value.Yields P := by
      intro y hy
      obtain ⟨f, hf, rfl⟩ := FieldExpr.exists_of_mem_canonicalize hc hy
      exact hfields f hf
    cases expected with
    | none =>
      rw [recordValue_of_canonicalize hc] at h
      exact forall_of_inferred hys h
    | some ty => exact forall_of_checkedValues hys ((outcome_recordValue_ok_iff hc).1 h).2.2

end

theorem NestsWithin.yields {n : Nat} {e : Expr} (h : e.NestsWithin n) :
    Elaborator.Yields e.elaborate (·.nesting ≤ n) := by
  induction h with
  | scalar n s span =>
    intro expected path g v g' hv
    obtain ⟨t, rfl⟩ := Scalar.exists_of_elaborate (outcome_ofExcept_ok.1 hv).1
    exact Nat.zero_le n
  | @record n fields span _ ih =>
    intro expected path g v g' hv
    rw [elaborate, elaborateFields_eq_map] at hv
    obtain ⟨r, g₁, hr, hp⟩ := outcome_bind_ok.1 hv
    obtain ⟨rfl, -⟩ : r.value = v ∧ g₁ = g' := by simpa using hp
    have hvalues : ∀ w ∈ r.values, w.nesting ≤ n := forall_of_recordValue (by simpa using ih) hr
    rw [RecordValue.value, Value.nesting_record]
    exact Nat.succ_le_succ (Text.foldr_max_le_iff.2 (by simpa using hvalues))

/-- What a literal denotes nests no deeper than brackets may in what is read. -/
theorem nesting_le_of_readRecord [Alphabet] {limit : Nat} {text : String} {l : RecordExpr Expr}
    (h : readRecord limit text = .ok l) {expected : Option RecordType} {r : RecordValue}
    {g g' : Registry} (hr : (elaborateRecord l expected).outcome g = (.ok r, g')) :
    r.value.nesting ≤ limit := by
  have hvalue : ((record l).elaborate (expected.map RecordType.ty) []).outcome g =
      (.ok r.value, g') := outcome_bind_ok.2 ⟨r, g', hr, rfl⟩
  exact (nestsWithin_of_readRecord h).yields hvalue

end Expr

namespace Value

theorem Fit.map_nesting_eq {types : List (Field Ty)} {vs ws : List Value} (hv : Fit types vs)
    (hw : Fit types ws)
    (h : ∀ v ∈ vs, ∀ w : Value, v.WellTyped → w.WellTyped → v.typeOf = w.typeOf →
      v.nesting = w.nesting) : vs.map nesting = ws.map nesting := by
  induction types generalizing vs ws with
  | nil => rw [(fit_nil vs).1 hv, (fit_nil ws).1 hw]
  | cons f types ih =>
    match vs, ws, hv, hw with
    | v :: vs, w :: ws, ⟨hv, hwellv, hvs⟩, ⟨hw, hwellw, hws⟩ =>
      have htype : v.typeOf = w.typeOf := (Ty.accepts_iff.1 hv).trans (Ty.accepts_iff.1 hw).symm
      rw [List.map_cons, List.map_cons, h v List.mem_cons_self w hwellv hwellw htype,
        ih hvs hws fun x hx => h x (List.mem_cons_of_mem v hx)]

theorem nesting_eq_of_typeOf_eq {v w : Value} (hv : v.WellTyped) (hw : w.WellTyped)
    (h : v.typeOf = w.typeOf) : v.nesting = w.nesting := by
  induction v using Value.induction generalizing w with
  | scalar s =>
    cases w with
    | scalar t => rfl
    | record type values => exact absurd h nofun
  | record type values ih =>
    obtain ⟨ws, rfl⟩ := eq_record_of_accepts (Ty.accepts_iff.2 h.symm)
    have hfields := Fit.map_nesting_eq hv hw fun x hx y => ih x hx (w := y)
    rw [nesting_record, nesting_record, hfields]

end Value

end RecordLens
