import RecordLens.Proofs.Elaboration.Conformance
import RecordLens.Proofs.Elaboration.FieldOrder
import RecordLens.Proofs.Literal.Recognition
import RecordLens.Proofs.Token.Blanks

/-! Values of expressions that differ in places alone. They are rearrangements of one another, and
so are elaborated as the same values: a literal denotes what it denotes without the blanks around
it. -/

namespace RecordLens.Expr

open Elaboration

theorem rearranged_of_unplaced_eq {d e : Expr} (h : d.unplaced = e.unplaced) :
    d.Rearranged e := by
  induction d using Expr.induction generalizing e with
  | scalar s span =>
    cases e with
    | scalar s' span' =>
      obtain rfl : s = s' := by simpa using h
      exact .scalar s span span'
    | record r =>
      rw [unplaced_scalar, unplaced_record] at h
      cases h
  | record fields span ih =>
    cases e with
    | scalar s span' =>
      rw [unplaced_scalar, unplaced_record] at h
      cases h
    | record r =>
      obtain ⟨fields', span'⟩ := r
      have hfields : fields.map (FieldExpr.unplaced unplaced) =
          fields'.map (FieldExpr.unplaced unplaced) := by simpa using h
      have hnames : fields.map FieldExpr.name = fields'.map FieldExpr.name := by
        rw [← FieldExpr.map_name_unplaced unplaced, hfields, FieldExpr.map_name_unplaced]
      have hmatch : List.Forall₂ (fun x y => x.unplaced unplaced = y.unplaced unplaced) fields
          fields' := by
        rw [← List.forall₂_map_right_iff, ← List.forall₂_map_left_iff, hfields]
        exact List.forall₂_refl _
      refine .record hnames (forall₂_imp_mem hmatch fun x hx y hxy => ?_) (.refl fields')
      exact ih x hx (FieldExpr.mk.inj hxy).2.2

/-- Where a type is expected, places do not matter to the value. -/
theorem elaborate_of_unplaced_eq {d e : Expr} (h : d.unplaced = e.unplaced) {t : Ty} {path : Path}
    {g : Registry} {v : Value} (hd : (d.elaborate (some t) path).outcome g = (.ok v, g)) :
    (e.elaborate (some t) path).outcome g = (.ok v, g) := by
  have hagree := agree_of_rearranged (rearranged_of_unplaced_eq h) (distinct_of_checked hd)
  exact (hagree (some t) path g).ok_right hd

theorem map_unplaced_read_trim [Alphabet] {limit : Nat} {text : String} {e : Expr} :
    (Expr.read limit (Text.trim text)).map unplaced = .ok e ↔
      (Expr.read limit text).map unplaced = .ok e := by
  simp only [map_unplaced_read_iff, Token.lexes_trim_iff]

/-- A literal is a value of a type with blanks around it if and only if it is without them. -/
theorem exists_elaborate_trim_iff [Alphabet] {limit : Nat} {text : String} {t : Ty} {path : Path}
    {g : Registry} {v : Value} :
    (∃ e, Expr.read limit (Text.trim text) = .ok e ∧
        (e.elaborate (some t) path).outcome g = (.ok v, g)) ↔
      ∃ e, Expr.read limit text = .ok e ∧
        (e.elaborate (some t) path).outcome g = (.ok v, g) := by
  constructor
  · rintro ⟨e, hread, he⟩
    have hsame := map_unplaced_read_trim.1 (congrArg (Except.map unplaced) hread)
    obtain ⟨d, hd, hplaces⟩ := exists_of_map_eq_ok hsame
    exact ⟨d, hd, elaborate_of_unplaced_eq hplaces.symm he⟩
  · rintro ⟨e, hread, he⟩
    have hsame := map_unplaced_read_trim.2 (congrArg (Except.map unplaced) hread)
    obtain ⟨d, hd, hplaces⟩ := exists_of_map_eq_ok hsame
    exact ⟨d, hd, elaborate_of_unplaced_eq hplaces.symm he⟩

end RecordLens.Expr
