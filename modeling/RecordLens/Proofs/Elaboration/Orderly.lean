import RecordLens.Proofs.Elaboration.Names
import RecordLens.Proofs.Value.Typing

/-! The record types that text can produce. The reader lets repeated positions pass and elaboration
refuses them, so that in what comes out of both, every record type has labels that are identifiers
or the positions from one on. A literal that is checked against such a type has that type, and what
occurs in a well-typed value occurs in its type. -/

namespace RecordLens

section

variable [Alphabet]

/-- The names of every record type in the type are orderly. -/
def Ty.Orderly (t : Ty) : Prop := ∀ r ∈ t.handles, FieldName.Orderly r.names

namespace Ty

@[simp] theorem orderly_named {name : String} {args : List Ty} :
    (named name args).Orderly ↔ ∀ a ∈ args, a.Orderly := by
  simp only [Orderly, handles_named, List.forall_mem_flatMap]

theorem orderly_ty {r : RecordType} :
    r.ty.Orderly ↔ FieldName.Orderly r.names ∧ ∀ f ∈ r.fields, f.value.Orderly := by
  simp only [Orderly, handles_ty, List.forall_mem_cons, List.forall_mem_flatMap]

end Ty

/-- The first position leads a tuple, and no label does. -/
theorem RecordType.isTuple_iff_of_orderly {r : RecordType} (h : FieldName.Orderly r.names) :
    r.isTuple = true ↔
      r.fields ≠ [] ∧ r.names = (List.range' 1 r.names.length).map .position := by
  have htuple : r.isTuple = true ↔ r.fields ≠ [] ∧ ∀ n ∈ r.names, n.isPosition = true := by
    simp [isTuple]
  rw [htuple]
  refine and_congr_right fun hne => ⟨fun hall => ?_, fun hnames => ?_⟩
  · refine h.resolve_left fun hlabels => ?_
    obtain ⟨f, hf⟩ := List.exists_mem_of_ne_nil _ hne
    have hname : f.name ∈ r.names := List.mem_map_of_mem hf
    obtain ⟨s, hs, -⟩ := hlabels _ hname
    exact absurd (hall _ hname) (by simp [hs, FieldName.isPosition])
  · intro n hn
    rw [hnames] at hn
    obtain ⟨i, -, rfl⟩ := List.mem_map.1 hn
    rfl

end

theorem Value.handles_subset_typeOf {v : Value} (h : v.WellTyped) :
    v.handles ⊆ v.typeOf.handles := by
  induction v using Value.induction with
  | scalar s => simp
  | record type values ih =>
    rw [handles_record, typeOf]
    refine List.append_subset.2 ⟨List.Subset.refl _, fun r hr => ?_⟩
    obtain ⟨v, hv, hr⟩ := List.mem_flatMap.1 hr
    obtain ⟨f, hf, haccepts, hwell⟩ := ((wellTyped_record type values).1 h).exists_of_mem hv
    rw [Ty.handles_ty]
    refine List.mem_cons_of_mem _ (List.mem_flatMap.2 ⟨f, hf, ?_⟩)
    exact Ty.accepts_iff.1 haccepts ▸ ih v hv hwell hr

open Elaboration

section

variable [Alphabet]

namespace TypeExpr

/-- What has been read is elaborated to a type with orderly names, whatever the registry has. -/
theorem WellFormed.orderly {e : TypeExpr} (h : e.WellFormed) {t : Ty} {g g' : Registry}
    (ht : e.elaborate.outcome g = (.ok t, g')) : t.Orderly := by
  induction h generalizing t g g' with
  | named _ _ ih =>
    rw [elaborate, elaborateArgs_eq_mapM] at ht
    obtain ⟨ts, g₁, hts, hp⟩ := outcome_bind_ok.1 ht
    obtain ⟨rfl, -⟩ : Ty.named _ ts = t ∧ g₁ = g' := by simpa using hp
    exact Ty.orderly_named.2 (forall_of_mapM (fun a ha _ _ _ hu => ih a ha hu) hts)
  | record hnames hlabels _ ih =>
    rw [elaborate] at ht
    obtain ⟨r, g₁, hr, hp⟩ := outcome_bind_ok.1 ht
    obtain ⟨rfl, -⟩ : r.ty = t ∧ g₁ = g' := by simpa using hp
    obtain ⟨hnodup, ys, g₂, hys, hintern⟩ := outcome_recordType.1 hr
    have hfields : r.fields = ys := by
      rw [← Registry.fields_intern ys g₂, hintern]
    have hcanonical := FieldExpr.canonicalize_ok_iff.2 ⟨hnodup, rfl⟩
    refine Ty.orderly_ty.2 ⟨?_, ?_⟩
    · rw [RecordType.names, hfields, names_of_mapM_traverse hys]
      exact FieldExpr.orderly_of_canonicalize
        (FieldExpr.checkNames_eq_ok_iff_admissible.1 hnames) hlabels hcanonical
    · rw [hfields]
      refine forall_of_mapM (fun x hx _ y _ hy => ?_) hys
      obtain ⟨f, hf, rfl⟩ := FieldExpr.exists_of_mem_canonicalize hcanonical hx
      exact ih f hf (outcome_traverse.1 hy).2

end TypeExpr

namespace Expr

theorem WellFormed.orderly_typeOf {e : Expr} (h : e.WellFormed) {path : Path} {v : Value}
    {g g' : Registry} (hv : (e.elaborate none path).outcome g = (.ok v, g')) :
    v.typeOf.Orderly := by
  induction h generalizing path v g g' with
  | scalar s span =>
    obtain ⟨t, rfl⟩ := Scalar.exists_of_elaborate (outcome_ofExcept_ok.1 hv).1
    simp [Ty.Orderly, Value.typeOf]
  | @record fields span hnames hlabels _ ih =>
    rw [elaborate] at hv
    obtain ⟨r, g₁, hr, hp⟩ := outcome_bind_ok.1 hv
    obtain ⟨rfl, -⟩ : r.value = v ∧ g₁ = g' := by simpa using hp
    cases hc : FieldExpr.canonicalize (elaborateFields fields) with
    | error clash =>
      rw [recordValue_of_clash hc] at hr
      simp [outcome] at hr
    | ok ys =>
      rw [recordValue_of_canonicalize hc] at hr
      obtain ⟨values, g₂, hvalues, hr⟩ := outcome_bind_ok.1 hr
      obtain ⟨rfl, -⟩ : ((RecordValue.ofCanonical values).outcome g₂).1 = r ∧ _ := by
        simpa using hr
      have htypes := (RecordValue.outcome_ofCanonical values g₂).1
      rw [elaborateFields_eq_map] at hc
      refine Ty.orderly_ty.2 ⟨?_, ?_⟩
      · have horderly : FieldName.Orderly (ys.map Field.name) :=
          FieldExpr.orderly_of_canonicalize
            (by simpa [Function.comp_def] using FieldExpr.checkNames_eq_ok_iff_admissible.1 hnames)
            (by simpa using hlabels) hc
        rw [← names_of_mapM_traverse hvalues] at horderly
        rw [RecordType.names, htypes]
        simpa [Function.comp_def] using horderly
      · rw [htypes]
        refine List.forall_mem_map.2 (forall_of_mapM (fun y hy _ w _ hw => ?_) hvalues)
        obtain ⟨x, hx, rfl⟩ := FieldExpr.exists_of_mem_canonicalize hc hy
        obtain ⟨f, hf, rfl⟩ := List.mem_map.1 hx
        exact ih f hf (outcome_traverse.1 hw).2

/-- Nothing but orderly types occurs in what is elaborated, if the expected type is orderly. -/
theorem WellFormed.orderly {e : Expr} (h : e.WellFormed) {expected : Option Ty} {path : Path}
    {v : Value} {g g' : Registry} (hexpected : ∀ t, expected = some t → t.Orderly)
    (hv : (e.elaborate expected path).outcome g = (.ok v, g')) :
    ∀ r ∈ v.handles, FieldName.Orderly r.names := by
  obtain ⟨hwell, htype⟩ := typed_elaborate e hv
  have horderly : v.typeOf.Orderly := by
    cases expected with
    | none => exact h.orderly_typeOf hv
    | some t => exact htype t rfl ▸ hexpected t rfl
  exact fun r hr => horderly r (Value.handles_subset_typeOf hwell hr)

end Expr

mutual

/-- The type comes from text: it is what a text denotes, the type of a value that comes from text,
or a part of such a type. -/
inductive Ty.Textual : Ty → Prop
  | expression {limit : Nat} {text : String} {e : TypeExpr} {g g' : Registry} {t : Ty}
      (hread : TypeExpr.read limit text = .ok e)
      (h : e.elaborate.outcome g = (.ok t, g')) : Ty.Textual t
  | recordType {limit : Nat} {text : String} {l : RecordExpr TypeExpr} {g g' : Registry}
      {r : RecordType} (hread : TypeExpr.readRecord limit text = .ok l)
      (h : (TypeExpr.elaborateRecord l).outcome g = (.ok r, g')) : Ty.Textual r.ty
  | value {v : Value} (h : Value.Textual v) : Ty.Textual v.typeOf
  | argument {name : String} {args : List Ty} {a : Ty} (h : Ty.Textual (.named name args))
      (ha : a ∈ args) : Ty.Textual a
  | field {r : RecordType} {f : Field Ty} (h : Ty.Textual r.ty) (hf : f ∈ r.fields) :
      Ty.Textual f.value

/-- The value is what a text denotes, where no type is expected or one that comes from text. -/
inductive Value.Textual : Value → Prop
  | literal {limit : Nat} {text : String} {e : Expr} {expected : Option Ty} {path : Path}
      {g g' : Registry} {v : Value} (hread : Expr.read limit text = .ok e)
      (hexpected : ∀ t, expected = some t → Ty.Textual t)
      (h : (e.elaborate expected path).outcome g = (.ok v, g')) : Value.Textual v
  | record {limit : Nat} {text : String} {l : RecordExpr Expr} {expected : Option RecordType}
      {g g' : Registry} {r : RecordValue} (hread : Expr.readRecord limit text = .ok l)
      (hexpected : ∀ t, expected = some t → Ty.Textual t.ty)
      (h : (Expr.elaborateRecord l expected).outcome g = (.ok r, g')) : Value.Textual r.value

end

mutual

theorem Ty.Textual.orderly {t : Ty} : t.Textual → t.Orderly
  | .expression hread h => (TypeExpr.fits_of_read hread).1.orderly h
  | .recordType hread h =>
    (TypeExpr.fits_of_read (TypeExpr.readRecord_eq_ok_iff.1 hread)).1.orderly
      (TypeExpr.Denotes.recordType h).outcome
  | .value h => fun r hr => h.orderly r (Value.handles_typeOf_subset _ hr)
  | .argument h ha => Ty.orderly_named.1 h.orderly _ ha
  | .field h hf => (Ty.orderly_ty.1 h.orderly).2 _ hf

theorem Value.Textual.orderly {v : Value} : v.Textual → ∀ r ∈ v.handles, FieldName.Orderly r.names
  | .literal hread hexpected h =>
    (Expr.wellFormed_of_read hread).orderly (fun t ht => (hexpected t ht).orderly) h
  | .record hread hexpected h => by
    have hwell := Expr.wellFormed_of_read (Expr.readRecord_eq_ok_iff.1 hread)
    refine hwell.orderly (fun t ht => ?_) (outcome_bind_ok.2 ⟨_, _, h, rfl⟩)
    obtain ⟨r, hr, rfl⟩ := Option.map_eq_some_iff.1 ht
    exact (hexpected r hr).orderly

end

/-- The record type occurs in a type or in a value that comes from text. -/
inductive RecordType.Textual (r : RecordType) : Prop
  | type {t : Ty} (ht : t.Textual) (hr : r ∈ t.handles)
  | value {v : Value} (hv : v.Textual) (hr : r ∈ v.handles)

/-- A record type that comes from text has labels that are identifiers, or the positions from one
on, each at its index. It is a tuple if it has fields and these are its names, and only then. -/
theorem RecordType.names_of_textual {r : RecordType} (h : r.Textual) :
    ((∀ n ∈ r.names, ∃ s, n = .label s ∧ Text.IsIdentifier s) ∨
      r.names = (List.range' 1 r.names.length).map .position) ∧
    (r.isTuple = true ↔
      r.fields ≠ [] ∧ r.names = (List.range' 1 r.names.length).map .position) := by
  have horderly : FieldName.Orderly r.names := by
    cases h with
    | type ht hr => exact ht.orderly r hr
    | value hv hr => exact hv.orderly r hr
  exact ⟨horderly, isTuple_iff_of_orderly horderly⟩

end

def readingTypeExpr : TypeExpr :=
  .record ⟨[⟨.position 2, ⟨⟨1, 2, 1⟩, 1⟩, .named "String" [] ⟨⟨1, 7, 6⟩, 6⟩⟩,
    ⟨.position 1, ⟨⟨1, 15, 14⟩, 1⟩, .named "Char" [] ⟨⟨1, 20, 19⟩, 4⟩⟩], ⟨⟨1, 1, 0⟩, 24⟩⟩

def readingExpr : Expr :=
  .record ⟨[⟨.position 1, ⟨⟨1, 2, 1⟩, 3⟩, .scalar (.char 'c') ⟨⟨1, 2, 1⟩, 3⟩⟩,
    ⟨.position 2, ⟨⟨1, 7, 6⟩, 3⟩, .scalar (.string "x") ⟨⟨1, 7, 6⟩, 3⟩⟩], ⟨⟨1, 1, 0⟩, 10⟩⟩

theorem read_reading :
    TypeExpr.read usualNesting "\x7b2 :: String, 1 :: Char\x7d" = .ok readingTypeExpr ∧
      Expr.read usualNesting "('c', \"x\")" = .ok readingExpr :=
  ⟨by decide +kernel, by decide +kernel⟩

def readingType : RecordType :=
  ⟨.registry 0, 0, [⟨.position 1, .primitive .char⟩, ⟨.position 2, .primitive .string⟩]⟩

/-- A tuple is checked against a type whose positions are written in another order. -/
theorem RecordType.names_of_textual_reading :
    readingType.Textual ∧ readingType.fields ≠ [] ∧
      readingType.names = (List.range' 1 2).map .position := by
  have hentered : readingTypeExpr.elaborate.outcome (.empty (.registry 0)) =
      (.ok readingType.ty, ⟨.registry 0, [readingType.fields]⟩) := rfl
  have hchecked : (readingExpr.elaborate (some readingType.ty) []).outcome (.empty (.registry 1)) =
      (.ok (.record readingType [.scalar (.char 'c'), .scalar (.string "x")]),
        .empty (.registry 1)) := rfl
  have hexpected : ∀ t, some readingType.ty = some t → t.Textual := by
    rintro t ⟨⟩
    exact .expression read_reading.1 hentered
  have htextual : readingType.Textual :=
    .value (.literal read_reading.2 hexpected hchecked) (by simp [Ty.handles_ty])
  exact ⟨htextual, (names_of_textual htextual).2.1 rfl⟩

end RecordLens
