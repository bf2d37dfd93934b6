import RecordLens.Proofs.Literal.Recognition
import RecordLens.Proofs.Ty.RoundTrip

/-! The names of what literals enter into a registry. The reader lets no other names share a pair
of braces than labels that are identifiers, or positions, and a literal whose names repeat is not
entered; so the entries have labels alone, or exactly the positions from one on. -/

namespace RecordLens

section

variable [Alphabet]

namespace FieldName

/-- Labels that are identifiers, or exactly the positions from one on in order. -/
def Orderly (names : List FieldName) : Prop :=
  (∀ n ∈ names, ∃ s, n = .label s ∧ Text.IsIdentifier s) ∨
    names = (List.range' 1 names.length).map .position

theorem Coherent.orderly {names : List FieldName} (h : Coherent names)
    (hlabels : ∀ n ∈ names, n.WellNamed) : Orderly names := by
  rcases h with h | h
  · refine .inl fun n hn => ?_
    cases hname : n with
    | label s => exact ⟨s, rfl, hlabels n hn s hname⟩
    | position k =>
      have := h n hn
      simp [hname, isPosition] at this
  · exact .inr h

theorem Orderly.coherent {names : List FieldName} (h : Orderly names) : Coherent names := by
  rcases h with h | h
  · refine .inl fun n hn => ?_
    obtain ⟨s, rfl, -⟩ := h n hn
    rfl
  · exact .inr h

theorem Orderly.wellNamed {names : List FieldName} (h : Orderly names) :
    ∀ n ∈ names, n.WellNamed := by
  rintro n hn s rfl
  rcases h with h | h
  · obtain ⟨t, ht, hword⟩ := h _ hn
    exact FieldName.label.inj ht ▸ hword
  · rw [h] at hn
    simp at hn

end FieldName

theorem FieldExpr.orderly_of_canonicalize {α : Type} {fields : List (FieldExpr α)}
    {ys : List (Field α)} (hnames : FieldName.Admissible (fields.map name))
    (hlabels : ∀ f ∈ fields, f.name.WellNamed) (h : canonicalize fields = .ok ys) :
    FieldName.Orderly (ys.map Field.name) := by
  have hsorted := Field.ascending_iff_names.1 (canonicalize_ascending h)
  obtain ⟨-, rfl⟩ := canonicalize_ok_iff.1 h
  have hperm := names_sorted_perm fields
  have hcheck : checkNames fields default = .ok () := checkNames_eq_ok_iff_admissible.2 hnames
  refine (coherent_of_checkNames hcheck hsorted hperm).orderly fun n hn => ?_
  obtain ⟨f, hf, rfl⟩ := List.mem_map.1 (hperm.mem_iff.1 hn)
  exact hlabels f hf

end

open FieldName (Orderly)

namespace Elaboration

variable {ε α β : Type} {C : List FieldName → Prop}

/-- Whatever the step enters, also when it fails, has names of which `C` holds. -/
def Enters (C : List FieldName → Prop) (x : Elaboration ε α) : Prop :=
  ∀ g : Registry, ∀ fields ∈ (x.outcome g).2.entries,
    fields ∈ g.entries ∨ C (fields.map Field.name)

theorem Enters.ofExcept (x : Except ε α) : Enters C (.ofExcept x) := fun _ _ h => .inl h

theorem Enters.pure (a : α) : Enters C (Pure.pure a : Elaboration ε α) := .ofExcept (.ok a)

theorem Enters.intern {fields : List (Field Ty)} (h : C (fields.map Field.name)) :
    Enters C (liftM (Registry.intern fields) : Elaboration ε RecordType) := by
  intro g entry hentry
  rw [outcome_lift] at hentry
  rcases Registry.intern_cases fields g with ⟨r, -, -, he⟩ | ⟨-, he⟩
  · rw [he] at hentry
    exact .inl hentry
  · rw [he] at hentry
    rcases List.mem_append.1 hentry with hentry | hentry
    · exact .inl hentry
    · exact .inr (List.mem_singleton.1 hentry ▸ h)

theorem Enters.bind {x : Elaboration ε α} {f : α → Elaboration ε β} (hx : x.Enters C)
    (hf : ∀ a g g', x.outcome g = (.ok a, g') → (f a).Enters C) : (x >>= f).Enters C := by
  intro g fields hfields
  rw [outcome_bind] at hfields
  cases h : x.outcome g with
  | mk result g' =>
    have hfirst := hx g fields
    rw [h] at hfields hfirst
    cases result with
    | error e => exact hfirst hfields
    | ok a =>
      rcases hf a g g' h g' fields hfields with hmem | hnames
      · exact hfirst hmem
      · exact .inr hnames

theorem Enters.bind_ofExcept {x : Except ε α} {f : α → Elaboration ε β}
    (h : ∀ a, x = .ok a → (f a).Enters C) : (.ofExcept x >>= f : Elaboration ε β).Enters C :=
  .bind (.ofExcept x) fun a _ _ ha => h a (outcome_ofExcept_ok.1 ha).1

theorem Enters.mapM {f : α → Elaboration ε β} {xs : List α} (h : ∀ x ∈ xs, (f x).Enters C) :
    Enters C (xs.mapM f) := by
  induction xs with
  | nil => exact .pure []
  | cons x rest ih =>
    rw [List.mapM_cons]
    refine .bind (h x List.mem_cons_self) fun y _ _ _ => ?_
    exact .bind (ih fun z hz => h z (List.mem_cons_of_mem x hz)) fun ys _ _ _ => .pure _

theorem Enters.traverse {f : FieldName → α → Elaboration ε β} {x : Field α}
    (h : (f x.name x.value).Enters C) : (x.traverse f).Enters C :=
  .bind h fun _ _ _ _ => .pure _

end Elaboration

open Elaboration (Enters)

variable [Alphabet]

namespace TypeExpr

theorem enters_recordType {fields : List (FieldExpr (Elaboration DuplicateField Ty))}
    (hnames : FieldName.Admissible (fields.map FieldExpr.name))
    (hlabels : ∀ f ∈ fields, f.name.WellNamed) (h : ∀ f ∈ fields, f.item.Enters Orderly) :
    (recordType fields).Enters Orderly := by
  refine .bind_ofExcept fun xs hc => ?_
  have hall : ∀ x ∈ xs, (x.traverse fun _ elaborate => elaborate).Enters Orderly := by
    intro x hx
    obtain ⟨f, hf, rfl⟩ := FieldExpr.exists_of_mem_canonicalize hc hx
    exact .traverse (h f hf)
  refine .bind (.mapM hall) fun ys _ _ hys => .intern ?_
  rw [Elaboration.names_of_mapM_traverse hys]
  exact FieldExpr.orderly_of_canonicalize hnames hlabels hc

/-- What has been read enters orderly names, at every depth. -/
theorem WellFormed.enters {e : TypeExpr} (h : e.WellFormed) : e.elaborate.Enters Orderly := by
  induction h with
  | named hname _ ih =>
    rw [elaborate, elaborateArgs_eq_mapM]
    exact .bind (.mapM ih) fun _ _ _ _ => .pure _
  | record hnames hlabels _ ih =>
    rw [elaborate, elaborateFields_eq_map]
    refine .bind (enters_recordType ?_ ?_ ?_) fun _ _ _ _ => .pure _
    · rw [List.map_map]
      exact FieldExpr.checkNames_eq_ok_iff_admissible.1 hnames
    · simpa using hlabels
    · simpa using ih

theorem enters_elaborateRecord {limit : Nat} {text : String} {r : RecordExpr TypeExpr}
    (h : readRecord limit text = .ok r) : (elaborateRecord r).Enters Orderly := by
  cases (fits_of_read (readRecord_eq_ok_iff.1 h)).1 with
  | @record fields span hnames hlabels hitems =>
    rw [elaborateRecord, elaborateFields_eq_map]
    refine enters_recordType ?_ (by simpa using hlabels) ?_
    · rw [List.map_map]
      exact FieldExpr.checkNames_eq_ok_iff_admissible.1 hnames
    · simpa using fun f hf => (hitems f hf).enters

end TypeExpr

namespace Expr

/-- Labels are identifiers, and the names of each record have been checked. -/
inductive WellFormed : Expr → Prop
  | scalar (s : Scalar) (span : Span) : WellFormed (.scalar s span)
  | record {fields : List (FieldExpr Expr)} {span : Span}
      (hnames : FieldExpr.checkNames fields span = .ok ())
      (hlabels : ∀ f ∈ fields, f.name.WellNamed) (h : ∀ f ∈ fields, WellFormed f.item) :
      WellFormed (.record ⟨fields, span⟩)

theorem keeps_wellFormed (limit : Nat) :
    Reader.Keeps valueGrammar limit (fun _ e => e.WellFormed) (fun _ _ => True)
      (fun _ e => e.WellFormed) where
  start_item {depth t e} _ _ h := by
    rcases start_eq_ok h with ⟨s, -, he⟩ | ⟨-, he⟩
    · obtain rfl := Sum.inl.inj he
      exact .scalar s _
    · exact absurd he nofun
  start_part _ _ _ := trivial
  extend_whole {depth p t e} _ _ h := by
    obtain ⟨s, -, he⟩ := extend_eq_ok h
    obtain rfl := Extension.whole.inj he
    exact .scalar s _
  extend_part _ _ _ := trivial
  extend_ended {depth p t e} _ h := by
    obtain ⟨s, -, he⟩ := extend_eq_ok h
    exact absurd he nofun
  join _ _ := trivial
  unbracketed h := h
  parenthesized h := h
  record _ hnames h := .record hnames (fun f hf => (h f hf).1) fun f hf => (h f hf).2

theorem wellFormed_of_read {limit : Nat} {text : String} {e : Expr}
    (h : read limit text = .ok e) : e.WellFormed := by
  obtain ⟨e, hwell, he⟩ := Reader.holds_of_read (keeps_wellFormed limit) h
  exact Except.ok.inj he ▸ hwell

def Elaborator.Enters (elaborate : Elaborator) : Prop :=
  ∀ expected path, (elaborate expected path).Enters Orderly

theorem enters_inferred {fields : List (Field Elaborator)}
    (hnames : Orderly (fields.map Field.name)) (h : ∀ f ∈ fields, f.value.Enters) (path : Path) :
    (inferred fields path).Enters Orderly := by
  refine .bind (.mapM fun f hf => .traverse (h f hf none _)) fun values g g' hvalues => ?_
  have htypes : Orderly ((values.map (Field.map Value.typeOf)).map Field.name) := by
    rw [← Elaboration.names_of_mapM_traverse hvalues] at hnames
    simpa [Function.comp_def] using hnames
  -- what `ofCanonical` enters are the types of the values
  exact Enters.intern (ε := ValueError) htypes

theorem enters_checkedValues {fields : List (Field Elaborator)}
    (h : ∀ f ∈ fields, f.value.Enters) (path : Path) (types : List (Field Ty)) :
    (checkedValues path fields types).Enters Orderly := by
  induction fields generalizing types with
  | nil => exact .pure []
  | cons f rest ih =>
    cases types with
    | nil => exact .pure []
    | cons declared types =>
      refine .bind (h f List.mem_cons_self _ _) fun v _ _ _ => ?_
      exact .bind (ih (fun x hx => h x (List.mem_cons_of_mem f hx)) types) fun vs _ _ _ => .pure _

theorem enters_recordValue {fields : List (FieldExpr Elaborator)}
    (hnames : FieldName.Admissible (fields.map FieldExpr.name))
    (hlabels : ∀ f ∈ fields, f.name.WellNamed) (h : ∀ f ∈ fields, f.item.Enters) (span : Span)
    (expected : Option Ty) (path : Path) :
    (recordValue fields span expected path).Enters Orderly := by
  cases hc : FieldExpr.canonicalize fields with
  | error clash =>
    rw [recordValue_of_clash hc]
    exact .ofExcept _
  | ok ys =>
    have hall : ∀ y ∈ ys, y.value.Enters := by
      intro y hy
      obtain ⟨f, hf, rfl⟩ := FieldExpr.exists_of_mem_canonicalize hc hy
      exact h f hf
    rw [recordValue_of_canonicalize hc]
    cases expected with
    | none => exact enters_inferred (FieldExpr.orderly_of_canonicalize hnames hlabels hc) hall path
    | some ty =>
      dsimp only
      split
      · exact .ofExcept _
      · split
        · exact .bind (enters_checkedValues hall path _) fun _ _ _ _ => .pure _
        · exact .ofExcept _

theorem WellFormed.enters {e : Expr} (h : e.WellFormed) : Elaborator.Enters e.elaborate := by
  induction h with
  | scalar s span => exact fun expected path => .ofExcept _
  | record hnames hlabels _ ih =>
    intro expected path
    rw [elaborate, elaborateFields_eq_map]
    refine .bind (enters_recordValue ?_ ?_ ?_ _ expected path) fun _ _ _ _ => .pure _
    · rw [List.map_map]
      exact FieldExpr.checkNames_eq_ok_iff_admissible.1 hnames
    · simpa using hlabels
    · simpa using ih

theorem enters_elaborateRecord {limit : Nat} {text : String} {r : RecordExpr Expr}
    (h : readRecord limit text = .ok r) (expected : Option RecordType) :
    (elaborateRecord r expected).Enters Orderly := by
  cases wellFormed_of_read (readRecord_eq_ok_iff.1 h) with
  | @record fields span hnames hlabels hitems =>
    rw [elaborateRecord, elaborateFields_eq_map]
    refine enters_recordValue ?_ (by simpa using hlabels) ?_ _ _ _
    · rw [List.map_map]
      exact FieldExpr.checkNames_eq_ok_iff_admissible.1 hnames
    · simpa using fun f hf => (hitems f hf).enters

end Expr

end RecordLens
