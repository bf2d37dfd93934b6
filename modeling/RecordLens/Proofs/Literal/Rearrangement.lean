import Mathlib.Data.List.Forall2
import Mathlib.Data.List.Perm.Basic
import RecordLens.Proofs.Registry.Operations

/-! Literals that differ in the order of their fields. Where no record repeats a name, the canonical
lists of two such literals agree field by field, so that what is elaborated in canonical order
cannot tell the literals apart. -/

namespace RecordLens

theorem forall₂_imp_mem {α β : Type} {R S : α → β → Prop} {xs : List α} {ys : List β}
    (h : List.Forall₂ R xs ys) (hxs : ∀ x ∈ xs, ∀ y, R x y → S x y) : List.Forall₂ S xs ys :=
  ((List.forall₂_and_left (p := (· ∈ xs)) _ _).2 ⟨fun _ hx => hx, h⟩).imp fun x y hxy =>
    hxs x hxy.1 y hxy.2

namespace Field

variable {α β : Type}

theorem forall₂_sorted {related : α → β → Prop} {xs : List (Field α)} {ys : List (Field β)}
    (h : List.Forall₂ (fun x y => x.name = y.name ∧ related x.value y.value) xs ys) :
    List.Forall₂ (fun x y => x.name = y.name ∧ related x.value y.value) (sorted xs)
      (sorted ys) := by
  -- matching fields are two views of one list of fields, which is sorted once
  let pairs : List (Field (α × β)) := xs.zipWith (fun x y => ⟨x.name, x.value, y.value⟩) ys
  have hviews : pairs.map (Field.map Prod.fst) = xs ∧ pairs.map (Field.map Prod.snd) = ys ∧
      ∀ p ∈ pairs, related p.value.1 p.value.2 := by
    induction h with
    | nil => simp [pairs]
    | @cons x y xs ys hxy _ ih =>
      obtain ⟨hx, hy, hall⟩ := ih
      refine ⟨congrArg (x :: ·) hx, ?_, List.forall_mem_cons.2 ⟨hxy.2, hall⟩⟩
      obtain ⟨name, value⟩ := y
      obtain rfl : x.name = name := hxy.1
      exact congrArg (⟨x.name, value⟩ :: ·) hy
  obtain ⟨hx, hy, hall⟩ := hviews
  rw [← hx, ← hy, sorted_map, sorted_map, List.forall₂_map_left_iff, List.forall₂_map_right_iff,
    List.forall₂_same]
  exact fun p hp => ⟨rfl, hall p (mem_sorted.1 hp)⟩

end Field

namespace TypeExpr

/-- No record in the expression repeats a name. -/
inductive Distinct : TypeExpr → Prop
  | named {name : String} {args : List TypeExpr} {span : Span} (h : ∀ a ∈ args, Distinct a) :
      Distinct (.named name args span)
  | record {fields : List (FieldExpr TypeExpr)} {span : Span}
      (names : (fields.map FieldExpr.name).Nodup) (items : ∀ f ∈ fields, Distinct f.item) :
      Distinct (.record ⟨fields, span⟩)

/-- The expressions differ in places and in the order of fields alone: the fields of a record are
rearranged one by one and then permuted. -/
inductive Rearranged : TypeExpr → TypeExpr → Prop
  | named {name : String} {as bs : List TypeExpr} {span span' : Span}
      (args : List.Forall₂ Rearranged as bs) :
      Rearranged (.named name as span) (.named name bs span')
  | record {xs ys zs : List (FieldExpr TypeExpr)} {span span' : Span}
      (names : xs.map FieldExpr.name = ys.map FieldExpr.name)
      (items : List.Forall₂ (fun x y => Rearranged x.item y.item) xs ys) (order : ys.Perm zs) :
      Rearranged (.record ⟨xs, span⟩) (.record ⟨zs, span'⟩)

end TypeExpr

namespace Expr

inductive Distinct : Expr → Prop
  | scalar (s : Scalar) (span : Span) : Distinct (.scalar s span)
  | record {fields : List (FieldExpr Expr)} {span : Span}
      (names : (fields.map FieldExpr.name).Nodup) (items : ∀ f ∈ fields, Distinct f.item) :
      Distinct (.record ⟨fields, span⟩)

inductive Rearranged : Expr → Expr → Prop
  | scalar (s : Scalar) (span span' : Span) : Rearranged (.scalar s span) (.scalar s span')
  | record {xs ys zs : List (FieldExpr Expr)} {span span' : Span}
      (names : xs.map FieldExpr.name = ys.map FieldExpr.name)
      (items : List.Forall₂ (fun x y => Rearranged x.item y.item) xs ys) (order : ys.Perm zs) :
      Rearranged (.record ⟨xs, span⟩) (.record ⟨zs, span'⟩)

/-- The fields of a record may be permuted before they are rearranged. -/
theorem Rearranged.of_perm {xs ys : List (FieldExpr Expr)} (hp : xs.Perm ys) {span span' : Span}
    {e : Expr} (h : (Expr.record ⟨ys, span⟩).Rearranged e) :
    (Expr.record ⟨xs, span'⟩).Rearranged e := by
  cases h with
  | @record _ ws zs _ _ names items order =>
    have hnames : List.Forall₂ (fun y w => y.name = w.name) ys ws := by
      rwa [← List.forall₂_eq_eq_eq, List.forall₂_map_left_iff, List.forall₂_map_right_iff] at names
    have hmatch := List.Forall₂.mp (fun _ _ hname (hitem : Rearranged _ _) => And.intro hname hitem)
      hnames items
    obtain ⟨vs, hvs, hperm⟩ := List.perm_comp_forall₂ hp hmatch
    have hsame : xs.map FieldExpr.name = vs.map FieldExpr.name := by
      rw [← List.forall₂_eq_eq_eq, List.forall₂_map_left_iff, List.forall₂_map_right_iff]
      exact hvs.imp fun _ _ hxv => hxv.1
    exact .record hsame (hvs.imp fun _ _ hxv => hxv.2) (hperm.trans order)

end Expr

namespace FieldExpr

variable {α β : Type}

theorem names_map (f : α → β) (fields : List (FieldExpr α)) :
    (fields.map fun x => (⟨x.name, x.nameSpan, f x.item⟩ : FieldExpr β)).map name =
      fields.map name := by simp

/-- The canonical lists of fields that match one by one, up to their order, match one by one. -/
theorem exists_canonicalize_of_rearranged {γ : Type} {R : γ → γ → Prop} {f : α → γ}
    {xs ys zs : List (FieldExpr α)} (hn : (xs.map name).Nodup)
    (names : xs.map name = ys.map name)
    (items : List.Forall₂ (fun x y => R (f x.item) (f y.item)) xs ys)
    (order : ys.Perm zs) :
    ∃ as bs : List (Field γ),
      canonicalize (xs.map fun x => ⟨x.name, x.nameSpan, f x.item⟩) = .ok as ∧
      canonicalize (zs.map fun x => ⟨x.name, x.nameSpan, f x.item⟩) = .ok bs ∧
      List.Forall₂ (fun a b => a.name = b.name ∧ R a.value b.value) as bs := by
  let fieldOf : FieldExpr α → Field γ := fun x => ⟨x.name, f x.item⟩
  have hfield (ws : List (FieldExpr α)) :
      (ws.map fun x => (⟨x.name, x.nameSpan, f x.item⟩ : FieldExpr γ)).map field =
        ws.map fieldOf := by simp [Function.comp_def, field, fieldOf]
  have hnames (ws : List (FieldExpr α)) : (ws.map fieldOf).map Field.name = ws.map name := by
    simp [Function.comp_def, fieldOf]
  have hnz : (zs.map name).Nodup := (order.map name).nodup_iff.1 (names ▸ hn)
  have hmatch : List.Forall₂ (fun a b => a.name = b.name ∧ R a.value b.value)
      (xs.map fieldOf) (ys.map fieldOf) := by
    rw [List.forall₂_map_left_iff, List.forall₂_map_right_iff]
    clear hn hnz order
    induction items with
    | nil => exact .nil
    | cons h _ ih =>
      obtain ⟨hname, hrest⟩ := List.cons.inj names
      exact .cons ⟨hname, h⟩ (ih hrest)
  have hsorted : Field.sorted (zs.map fieldOf) = Field.sorted (ys.map fieldOf) :=
    Field.sorted_eq_of_perm (order.symm.map fieldOf) (by rwa [hnames])
  refine ⟨Field.sorted (xs.map fieldOf), Field.sorted (zs.map fieldOf), ?_, ?_, ?_⟩
  · exact canonicalize_ok_iff.2 ⟨by rwa [names_map], by rw [hfield]⟩
  · exact canonicalize_ok_iff.2 ⟨by rwa [names_map], by rw [hfield]⟩
  · rw [hsorted]
    exact Field.forall₂_sorted hmatch

end FieldExpr

end RecordLens
