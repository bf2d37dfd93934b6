import RecordLens.Proofs.Elaboration.Checked
import RecordLens.Proofs.Literal.Rearrangement
import RecordLens.Proofs.Ty.Identity

/-! The order of fields. Literals that are rearrangements of one another have the same outcome: the
same type or value and the same registry behind it, or mismatches that show the same. Two runs are
compared step by step, for fields are elaborated in canonical order from one registry. -/

namespace RecordLens

/-- The mismatches say the same, but for the place in the text. The found type is the handle of an
entry that was made for the message, so it is compared as it is shown. -/
structure TypeMismatch.Alike (d e : TypeMismatch) : Prop where
  expected : d.expected = e.expected
  found : d.found.text = e.found.text
  path : d.path = e.path
  missing : d.missing = e.missing
  extra : d.extra = e.extra

theorem TypeMismatch.alike_between (expected found : Ty) (path : Path) (a b : Option Span) :
    (between expected found path a).Alike (between expected found path b) := by
  unfold between
  split <;> exact ⟨rfl, rfl, rfl, rfl, rfl⟩

namespace Elaboration

variable {ε α β : Type}

/-- Both succeed with one result or both report a mismatch, the same one, and the registries behind
them are one. -/
inductive SameOutcome : Except ValueError α × Registry → Except ValueError α × Registry → Prop
  | ok (a : α) (g : Registry) : SameOutcome (.ok a, g) (.ok a, g)
  | mismatch {d e : TypeMismatch} (h : d.Alike e) (g : Registry) :
      SameOutcome (.error (.mismatch d), g) (.error (.mismatch e), g)

theorem SameOutcome.ok_right {p q : Except ValueError α × Registry} {a : α} {g : Registry}
    (h : SameOutcome p q) (hp : p = (.ok a, g)) : q = (.ok a, g) := by
  cases h with
  | ok => exact hp
  | mismatch => simp at hp

def Agree (x y : Elaboration ValueError α) : Prop :=
  ∀ g : Registry, SameOutcome (x.outcome g) (y.outcome g)

theorem Agree.pure (a : α) : Agree (Pure.pure a) (Pure.pure a) := fun g => .ok a g

theorem Agree.lift (x : Interning α) :
    Agree (liftM x : Elaboration ValueError α) (liftM x) := fun _ => .ok _ _

theorem Agree.bind {x y : Elaboration ValueError α} {f k : α → Elaboration ValueError β}
    (h : Agree x y) (hf : ∀ a, Agree (f a) (k a)) : Agree (x >>= f) (y >>= k) := by
  intro g
  have hxy := h g
  rw [outcome_bind, outcome_bind]
  generalize x.outcome g = p, y.outcome g = q at hxy ⊢
  cases hxy with
  | ok a g' => exact hf a g'
  | mismatch hde g' => exact .mismatch hde g'

theorem Agree.traverse {f k : FieldName → α → Elaboration ValueError β} {x y : Field α}
    (hname : x.name = y.name) (h : Agree (f x.name x.value) (k y.name y.value)) :
    Agree (x.traverse f) (y.traverse k) := by
  refine .bind h fun b => ?_
  rw [hname]
  exact .pure _

theorem Agree.mapM {f k : α → Elaboration ValueError β} {xs ys : List α}
    (h : List.Forall₂ (fun x y => Agree (f x) (k y)) xs ys) : Agree (xs.mapM f) (ys.mapM k) := by
  induction h with
  | nil => exact .pure []
  | cons hxy _ ih =>
    rw [List.mapM_cons, List.mapM_cons]
    exact .bind hxy fun y => .bind ih fun ys => .pure _

theorem exists_outcome_mapM {f : α → Elaboration ε β} {xs : List α}
    (h : ∀ x ∈ xs, ∀ g : Registry, ∃ y g', (f x).outcome g = (.ok y, g')) (g : Registry) :
    ∃ ys g', (xs.mapM f).outcome g = (.ok ys, g') := by
  induction xs generalizing g with
  | nil => exact ⟨[], g, rfl⟩
  | cons x xs ih =>
    obtain ⟨y, g₁, hy⟩ := h x List.mem_cons_self g
    obtain ⟨ys, g', hys⟩ := ih (fun z hz => h z (List.mem_cons_of_mem x hz)) g₁
    exact ⟨y :: ys, g', outcome_mapM_cons.2 ⟨y, ys, g₁, hy, hys, rfl⟩⟩

end Elaboration

open Elaboration

namespace TypeExpr

theorem recordType_eq_of_rearranged {xs ys zs : List (FieldExpr TypeExpr)}
    (hn : (xs.map FieldExpr.name).Nodup) (names : xs.map FieldExpr.name = ys.map FieldExpr.name)
    (items : List.Forall₂ (fun x y => x.item.elaborate = y.item.elaborate) xs ys)
    (order : ys.Perm zs) : recordType (elaborateFields xs) = recordType (elaborateFields zs) := by
  rw [elaborateFields_eq_map, elaborateFields_eq_map, recordType, recordType]
  obtain ⟨as, bs, ha, hb, hab⟩ :=
    FieldExpr.exists_canonicalize_of_rearranged (R := Eq) hn names items order
  have he : as = bs := by
    rw [← List.forall₂_eq_eq_eq]
    refine hab.imp fun a b h => ?_
    cases a
    cases b
    exact congr (congrArg Field.mk h.1) h.2
  rw [ha, hb, he]

theorem elaborateArgs_congr {as bs : List TypeExpr}
    (h : List.Forall₂ (fun a b => a.elaborate = b.elaborate) as bs) :
    elaborateArgs as = elaborateArgs bs := by
  induction h with
  | nil => rfl
  | cons hab _ ih => rw [elaborateArgs, elaborateArgs, hab, ih]

/-- Rearranged type expressions are elaborated in one way. -/
theorem elaborate_eq_of_rearranged {a b : TypeExpr} (h : a.Rearranged b) (ha : a.Distinct) :
    a.elaborate = b.elaborate := by
  induction a using TypeExpr.induction generalizing b with
  | named name as span ih =>
    cases h with
    | @named _ _ bs _ _ args =>
      cases ha with
      | named distinct =>
        have hargs : List.Forall₂ (fun a b => a.elaborate = b.elaborate) as bs :=
          forall₂_imp_mem args fun a ha b hab => ih a ha hab (distinct a ha)
        rw [elaborate, elaborate, elaborateArgs_congr hargs]
  | record xs span ih =>
    cases h with
    | @record _ ys zs _ _ names items order =>
      cases ha with
      | record hn distinct =>
        have hitems : List.Forall₂ (fun x y => x.item.elaborate = y.item.elaborate) xs ys :=
          forall₂_imp_mem items fun x hx y hxy => ih x hx hxy (distinct x hx)
        rw [elaborate, elaborate, recordType_eq_of_rearranged hn names hitems order]

theorem elaborateRecord_eq_of_rearranged {a b : RecordExpr TypeExpr}
    (h : (record a).Rearranged (.record b)) (ha : (record a).Distinct) :
    elaborateRecord a = elaborateRecord b := by
  cases h with
  | @record xs ys zs _ _ names items order =>
    cases ha with
    | record hn distinct =>
      have hitems : List.Forall₂ (fun x y => x.item.elaborate = y.item.elaborate) xs ys :=
        forall₂_imp_mem items fun x hx y hxy => elaborate_eq_of_rearranged hxy (distinct x hx)
      exact recordType_eq_of_rearranged hn names hitems order

theorem exists_outcome_elaborateRecord {fields : List (FieldExpr TypeExpr)} (span : Span)
    (hn : (fields.map FieldExpr.name).Nodup)
    (h : ∀ f ∈ fields, ∀ g : Registry, ∃ t g', f.item.elaborate.outcome g = (.ok t, g'))
    (g : Registry) : ∃ r g', (elaborateRecord ⟨fields, span⟩).outcome g = (.ok r, g') := by
  have hstep : ∀ x ∈ Field.sorted (fields.map FieldExpr.field), ∀ g : Registry, ∃ y g',
      (x.traverse fun _ => elaborate).outcome g = (.ok y, g') := by
    intro x hx g
    obtain ⟨f, hf, rfl⟩ : ∃ f ∈ fields, f.field = x := by simpa using hx
    obtain ⟨t, g', ht⟩ := h f hf g
    exact ⟨⟨f.name, t⟩, g', outcome_traverse.2 ⟨rfl, ht⟩⟩
  obtain ⟨ys, g₁, hys⟩ := exists_outcome_mapM hstep g
  exact ⟨_, _, outcome_recordType.2 ⟨hn, ys, g₁, hys, rfl⟩⟩

theorem Distinct.exists_outcome {e : TypeExpr} (h : e.Distinct) (g : Registry) :
    ∃ t g', e.elaborate.outcome g = (.ok t, g') := by
  induction h generalizing g with
  | @named name args span _ ih =>
    obtain ⟨ts, g', hts⟩ := exists_outcome_mapM ih g
    rw [elaborate, elaborateArgs_eq_mapM]
    exact ⟨.named name ts, g', outcome_bind_ok.2 ⟨ts, g', hts, rfl⟩⟩
  | @record fields span hn _ ih =>
    obtain ⟨r, g', hr⟩ := exists_outcome_elaborateRecord span hn ih g
    exact ⟨r.ty, g', outcome_bind_ok.2 ⟨r, g', hr, rfl⟩⟩

end TypeExpr

namespace Expr

def Elaborator.Agree (a b : Elaborator) : Prop :=
  ∀ expected path, Elaboration.Agree (a expected path) (b expected path)

abbrev Elaborator.AgreeFields (as bs : List (Field Elaborator)) : Prop :=
  List.Forall₂ (fun a b => a.name = b.name ∧ Elaborator.Agree a.value b.value) as bs

theorem agree_inferred {as bs : List (Field Elaborator)} (h : Elaborator.AgreeFields as bs)
    (path : Path) : Elaboration.Agree (inferred as path) (inferred bs path) := by
  refine .bind (.mapM (h.imp fun a b hab => ?_)) fun values => .lift _
  refine .traverse hab.1 ?_
  rw [hab.1]
  exact hab.2 none _

theorem agree_checkedValues {as bs : List (Field Elaborator)} (h : Elaborator.AgreeFields as bs)
    (path : Path) (types : List (Field Ty)) :
    Elaboration.Agree (checkedValues path as types) (checkedValues path bs types) := by
  induction h generalizing types with
  | nil => exact .pure []
  | @cons a b as bs hab _ ih =>
    cases types with
    | nil => exact .pure []
    | cons declared types =>
      rw [checkedValues, checkedValues, hab.1]
      exact .bind (hab.2 _ _) fun v => .bind (ih types) fun vs => .pure _

/-- Two refusals are alike: what the fields are inferred to be for the message is the same. -/
theorem agree_mismatched {as bs : List (Field Elaborator)} (h : Elaborator.AgreeFields as bs)
    (ty : Ty) (path : Path) (span span' : Span) :
    Elaboration.Agree (.ofExcept (mismatched ty as span path))
      (.ofExcept (mismatched ty bs span' path)) := by
  intro g
  have hfound := agree_inferred h path (.empty .scratch)
  simp only [outcome, Elaboration.run_ofExcept, mismatched] at hfound ⊢
  generalize (inferred as path).run (.empty .scratch) = p,
    (inferred bs path).run (.empty .scratch) = q at hfound ⊢
  cases hfound with
  | ok r g' => exact .mismatch (TypeMismatch.alike_between _ _ _ _ _) g
  | mismatch hde g' => exact .mismatch hde g

theorem agree_recordValue {xs zs : List (FieldExpr Elaborator)} {as bs : List (Field Elaborator)}
    (ha : FieldExpr.canonicalize xs = .ok as) (hb : FieldExpr.canonicalize zs = .ok bs)
    (h : Elaborator.AgreeFields as bs) (span span' : Span) (expected : Option Ty) (path : Path) :
    Elaboration.Agree (recordValue xs span expected path)
      (recordValue zs span' expected path) := by
  have hnames : bs.map Field.name = as.map Field.name :=
    Field.names_eq_of_forall₂ h fun hab => hab.1.symm
  rw [recordValue_of_canonicalize ha, recordValue_of_canonicalize hb]
  cases expected with
  | none => exact agree_inferred h path
  | some ty =>
    cases hr : ty.recordType? with
    | none =>
      simp only [hr]
      exact agree_mismatched h ty path span span'
    | some r =>
      simp only [hr, hnames]
      split
      · exact .bind (agree_checkedValues h path r.fields) fun values => .pure _
      · exact agree_mismatched h ty path span span'

theorem agree_elaborate_scalar (s : Scalar) (span span' : Span) :
    Elaborator.Agree (elaborate (.scalar s span)) (elaborate (.scalar s span')) := by
  intro expected path g
  rw [elaborate, elaborate]
  cases expected with
  | none => exact .ok _ g
  | some ty =>
    cases hat : s.at? ty with
    | some v =>
      simp only [Scalar.elaborate, hat]
      exact .ok v g
    | none =>
      simp only [Scalar.elaborate, hat]
      exact .mismatch (TypeMismatch.alike_between _ _ _ _ _) g

theorem agree_rearranged_fields {xs ys zs : List (FieldExpr Expr)}
    (hn : (xs.map FieldExpr.name).Nodup) (names : xs.map FieldExpr.name = ys.map FieldExpr.name)
    (items : List.Forall₂ (fun x y => Elaborator.Agree x.item.elaborate y.item.elaborate) xs ys)
    (order : ys.Perm zs) (span span' : Span) (expected : Option Ty) (path : Path) :
    Elaboration.Agree (recordValue (elaborateFields xs) span expected path)
      (recordValue (elaborateFields zs) span' expected path) := by
  rw [elaborateFields_eq_map, elaborateFields_eq_map]
  obtain ⟨as, bs, ha, hb, hab⟩ :=
    FieldExpr.exists_canonicalize_of_rearranged (f := elaborate) hn names items order
  exact agree_recordValue ha hb hab span span' expected path

/-- Rearranged expressions are elaborated alike, with and without an expected type. -/
theorem agree_of_rearranged {a b : Expr} (h : a.Rearranged b) (ha : a.Distinct) :
    Elaborator.Agree a.elaborate b.elaborate := by
  induction a using Expr.induction generalizing b with
  | scalar s span =>
    cases h with
    | scalar _ _ span' => exact agree_elaborate_scalar s span span'
  | record xs span ih =>
    cases h with
    | @record _ ys zs _ span' names items order =>
      cases ha with
      | record hn distinct =>
        have hitems := forall₂_imp_mem items fun x hx y hxy => ih x hx hxy (distinct x hx)
        intro expected path
        rw [elaborate, elaborate]
        exact .bind (agree_rearranged_fields hn names hitems order span span' expected path)
          fun r => .pure _

theorem agree_elaborateRecord {a b : RecordExpr Expr}
    (h : (Expr.record a).Rearranged (.record b)) (ha : (Expr.record a).Distinct)
    (expected : Option RecordType) :
    Elaboration.Agree (elaborateRecord a expected) (elaborateRecord b expected) := by
  cases h with
  | @record xs ys zs span span' names items order =>
    cases ha with
    | record hn distinct =>
      have hitems := forall₂_imp_mem items fun x hx y hxy =>
        agree_of_rearranged hxy (distinct x hx)
      exact agree_rearranged_fields hn names hitems order span span' _ []

theorem exists_outcome_inferred {ys : List (Field Elaborator)}
    (h : ∀ y ∈ ys, ∀ path (g : Registry), ∃ v g', (y.value none path).outcome g = (.ok v, g'))
    (path : Path) (g : Registry) : ∃ r g', (inferred ys path).outcome g = (.ok r, g') := by
  have hstep : ∀ y ∈ ys, ∀ g : Registry, ∃ value g',
      (y.traverse fun name (elaborate : Elaborator) =>
        elaborate none (path ++ [name])).outcome g = (.ok value, g') := by
    intro y hy g
    obtain ⟨v, g', hv⟩ := h y hy (path ++ [y.name]) g
    exact ⟨⟨y.name, v⟩, g', outcome_traverse.2 ⟨rfl, hv⟩⟩
  obtain ⟨values, g₁, hvalues⟩ := exists_outcome_mapM hstep g
  exact ⟨_, _, outcome_bind_ok.2 ⟨values, g₁, hvalues, rfl⟩⟩

theorem exists_outcome_recordValue {fields : List (FieldExpr Expr)} (span : Span)
    (hn : (fields.map FieldExpr.name).Nodup)
    (h : ∀ f ∈ fields, ∀ path (g : Registry), ∃ v g',
      (f.item.elaborate none path).outcome g = (.ok v, g')) (path : Path) (g : Registry) :
    ∃ r g', (recordValue (elaborateFields fields) span none path).outcome g = (.ok r, g') := by
  rw [elaborateFields_eq_map]
  have hc := FieldExpr.canonicalize_ok_iff.2
    ⟨(FieldExpr.names_map elaborate fields).symm ▸ hn, rfl⟩
  rw [recordValue_of_canonicalize hc]
  refine exists_outcome_inferred (fun y hy => ?_) path g
  obtain ⟨f, hf, rfl⟩ := FieldExpr.exists_of_mem_canonicalize hc hy
  obtain ⟨x, hx, rfl⟩ := List.mem_map.1 hf
  exact h x hx

theorem Distinct.exists_outcome {e : Expr} (h : e.Distinct) (path : Path) (g : Registry) :
    ∃ v g', (e.elaborate none path).outcome g = (.ok v, g') := by
  induction h generalizing path g with
  | scalar s span => exact ⟨.scalar s, g, rfl⟩
  | @record fields span hn _ ih =>
    obtain ⟨r, g', hr⟩ := exists_outcome_recordValue span hn ih path g
    exact ⟨r.value, g', outcome_bind_ok.2 ⟨r, g', hr, rfl⟩⟩

theorem Distinct.exists_outcome_elaborateRecord {r : RecordExpr Expr}
    (h : (Expr.record r).Distinct) (g : Registry) :
    ∃ v g', (elaborateRecord r none).outcome g = (.ok v, g') := by
  cases h with
  | record hn distinct =>
    exact exists_outcome_recordValue _ hn (fun f hf => (distinct f hf).exists_outcome) [] g

end Expr

namespace TypeExpr

theorem Distinct.exists_outcome_record {r : RecordExpr TypeExpr}
    (h : (TypeExpr.record r).Distinct) (g : Registry) :
    ∃ t g', (elaborateRecord r).outcome g = (.ok t, g') := by
  cases h with
  | record hn distinct =>
    exact exists_outcome_elaborateRecord _ hn (fun f hf => (distinct f hf).exists_outcome) g

end TypeExpr

/-- The order of fields makes no difference, in literals of types and of values alike. Where no
name is repeated, two literals that are rearrangements of one another denote one type and leave one
registry behind. With no type expected they denote one value and leave one registry behind. With
any type expected they denote one value or report mismatches that show the same. -/
theorem Elaboration.same_of_rearranged (g : Registry) :
    (∀ {a b : TypeExpr}, a.Rearranged b → a.Distinct →
      ∃ t g', a.elaborate.outcome g = (.ok t, g') ∧ b.elaborate.outcome g = (.ok t, g')) ∧
    (∀ {a b : RecordExpr TypeExpr}, (TypeExpr.record a).Rearranged (.record b) →
      (TypeExpr.record a).Distinct →
      ∃ t g', (TypeExpr.elaborateRecord a).outcome g = (.ok t, g') ∧
        (TypeExpr.elaborateRecord b).outcome g = (.ok t, g')) ∧
    (∀ {a b : Expr}, a.Rearranged b → a.Distinct →
      (∃ v g', (a.elaborate none []).outcome g = (.ok v, g') ∧
        (b.elaborate none []).outcome g = (.ok v, g')) ∧
      ∀ ty, SameOutcome ((a.elaborate (some ty) []).outcome g)
        ((b.elaborate (some ty) []).outcome g)) ∧
    (∀ {a b : RecordExpr Expr}, (Expr.record a).Rearranged (.record b) →
      (Expr.record a).Distinct →
      (∃ v g', (Expr.elaborateRecord a none).outcome g = (.ok v, g') ∧
        (Expr.elaborateRecord b none).outcome g = (.ok v, g')) ∧
      ∀ type, SameOutcome ((Expr.elaborateRecord a (some type)).outcome g)
        ((Expr.elaborateRecord b (some type)).outcome g)) := by
  refine ⟨fun {a b} h ha => ?_, fun {a b} h ha => ?_, fun {a b} h ha => ?_, fun {a b} h ha => ?_⟩
  · obtain ⟨t, g', ht⟩ := ha.exists_outcome g
    exact ⟨t, g', ht, TypeExpr.elaborate_eq_of_rearranged h ha ▸ ht⟩
  · obtain ⟨t, g', ht⟩ := ha.exists_outcome_record g
    exact ⟨t, g', ht, TypeExpr.elaborateRecord_eq_of_rearranged h ha ▸ ht⟩
  · have hab := Expr.agree_of_rearranged h ha
    obtain ⟨v, g', hv⟩ := ha.exists_outcome [] g
    exact ⟨⟨v, g', hv, (hab none [] g).ok_right hv⟩, fun ty => hab (some ty) [] g⟩
  · obtain ⟨v, g', hv⟩ := ha.exists_outcome_elaborateRecord g
    exact ⟨⟨v, g', hv, (Expr.agree_elaborateRecord h ha none g).ok_right hv⟩,
      fun type => Expr.agree_elaborateRecord h ha (some type) g⟩

namespace Elaboration

def literal {α : Type} (fields : List (String × α)) : RecordExpr α :=
  ⟨fields.map fun f => ⟨.label f.1, default, f.2⟩, default⟩

def typeName (name : String) : TypeExpr := .named name [] default

def pointLiteral : TypeExpr := .record (literal [("x", typeName "Int"), ("y", typeName "Bool")])

def pointLiteralTurned : TypeExpr :=
  .record (literal [("y", typeName "Bool"), ("x", typeName "Int")])

def placeLiteral : RecordExpr TypeExpr :=
  literal [("at", .named "Maybe" [pointLiteral] default), ("id", typeName "Int")]

def placeLiteralTurned : RecordExpr TypeExpr :=
  literal [("id", typeName "Int"), ("at", .named "Maybe" [pointLiteralTurned] default)]

def number (i : Int64) : Expr := .scalar (.int i) default

def cornerLiteral : Expr := .record (literal [("x", number 0), ("y", number 1)])

def cornerLiteralTurned : Expr := .record (literal [("y", number 1), ("x", number 0)])

def spotLiteral : RecordExpr Expr := literal [("at", cornerLiteral), ("id", number 2)]

def spotLiteralTurned : RecordExpr Expr := literal [("id", number 2), ("at", cornerLiteralTurned)]

theorem rearranged_placeLiteral :
    (TypeExpr.record placeLiteral).Rearranged (.record placeLiteralTurned) := by
  have hturned {n m : String} {a a' b b' : TypeExpr} (ha : a.Rearranged a')
      (hb : b.Rearranged b') :
      (TypeExpr.record (literal [(n, a), (m, b)])).Rearranged
        (.record (literal [(m, b'), (n, a')])) :=
    @TypeExpr.Rearranged.record _ (literal [(n, a'), (m, b')]).fields _ _ _ rfl
      (.cons ha (.cons hb .nil)) (.swap _ _ _)
  have hname (name : String) : (typeName name).Rearranged (typeName name) := .named .nil
  have hpoint : pointLiteral.Rearranged pointLiteralTurned := hturned (hname _) (hname _)
  exact hturned (.named (.cons hpoint .nil)) (hname _)

theorem distinct_placeLiteral : (TypeExpr.record placeLiteral).Distinct := by
  have hname (name : String) : (typeName name).Distinct := .named (by simp)
  have hpoint : pointLiteral.Distinct :=
    .record (by decide) (by simpa [literal] using ⟨hname "Int", hname "Bool"⟩)
  have hmaybe : (TypeExpr.named "Maybe" [pointLiteral] default).Distinct :=
    .named (by simpa using hpoint)
  exact .record (by decide) (by simpa [literal] using ⟨hmaybe, hname "Int"⟩)

theorem rearranged_spotLiteral :
    (Expr.record spotLiteral).Rearranged (.record spotLiteralTurned) := by
  have hturned {n m : String} {a a' b b' : Expr} (ha : a.Rearranged a') (hb : b.Rearranged b') :
      (Expr.record (literal [(n, a), (m, b)])).Rearranged
        (.record (literal [(m, b'), (n, a')])) :=
    @Expr.Rearranged.record _ (literal [(n, a'), (m, b')]).fields _ _ _ rfl
      (.cons ha (.cons hb .nil)) (.swap _ _ _)
  have hnumber (i : Int64) : (number i).Rearranged (number i) := .scalar _ _ _
  exact hturned (hturned (hnumber 0) (hnumber 1)) (hnumber 2)

theorem distinct_spotLiteral : (Expr.record spotLiteral).Distinct := by
  have hnumber (i : Int64) : (number i).Distinct := .scalar _ _
  have hcorner : cornerLiteral.Distinct :=
    .record (by decide) (by simpa [literal] using ⟨hnumber 0, hnumber 1⟩)
  exact .record (by decide) (by simpa [literal] using ⟨hcorner, hnumber 2⟩)

/-- A place and a spot, each written in two orders. -/
theorem same_of_rearranged_place :
    (TypeExpr.record placeLiteral).Rearranged (.record placeLiteralTurned) ∧
    (TypeExpr.record placeLiteral).Distinct ∧
    (Expr.record spotLiteral).Rearranged (.record spotLiteralTurned) ∧
    (Expr.record spotLiteral).Distinct ∧
    (∃ t g', (TypeExpr.record placeLiteral).elaborate.outcome (.empty .scratch) = (.ok t, g') ∧
      (TypeExpr.record placeLiteralTurned).elaborate.outcome (.empty .scratch) = (.ok t, g')) ∧
    (∃ t g', (TypeExpr.elaborateRecord placeLiteral).outcome (.empty .scratch) = (.ok t, g') ∧
      (TypeExpr.elaborateRecord placeLiteralTurned).outcome (.empty .scratch) = (.ok t, g')) ∧
    SameOutcome (((Expr.record spotLiteral).elaborate (some (.primitive .int)) []).outcome
        (.empty .scratch))
      (((Expr.record spotLiteralTurned).elaborate (some (.primitive .int)) []).outcome
        (.empty .scratch)) ∧
    (∃ v g', (Expr.elaborateRecord spotLiteral none).outcome (.empty .scratch) = (.ok v, g') ∧
      (Expr.elaborateRecord spotLiteralTurned none).outcome (.empty .scratch) = (.ok v, g')) := by
  obtain ⟨types, recordTypes, values, records⟩ := same_of_rearranged (.empty .scratch)
  exact ⟨rearranged_placeLiteral, distinct_placeLiteral, rearranged_spotLiteral,
    distinct_spotLiteral, types rearranged_placeLiteral distinct_placeLiteral,
    recordTypes rearranged_placeLiteral distinct_placeLiteral,
    (values rearranged_spotLiteral distinct_spotLiteral).2 (.primitive .int),
    (records rearranged_spotLiteral distinct_spotLiteral).1⟩

end Elaboration

end RecordLens
