import RecordLens.Field
import RecordLens.Text.Span

/-! Canonical field lists: ascending by name, so that each name stands in them once. Two ways lead
there. `canonicalize` refuses a name that occurs twice, `ofFields` keeps its first occurrence. -/

namespace RecordLens

/-- A field name that occurs twice in one literal, with the places of both occurrences. -/
structure DuplicateField where
  name : FieldName
  first : Option Span
  second : Option Span
  deriving DecidableEq, Repr

namespace Field

variable {α β : Type}

/-- Names strictly ascend. -/
def Ascending (fields : List (Field α)) : Prop := fields.Pairwise fun f g => f.name < g.name

/-- Puts a field where its name belongs in an ascending list, in place of one of the same name. -/
def place (f : Field α) : List (Field α) → List (Field α)
  | [] => [f]
  | g :: rest =>
    if f.name < g.name then f :: g :: rest
    else if f.name = g.name then f :: rest
    else g :: place f rest

/-- The canonical list of the fields. Of several with one name the first is kept. -/
def ofFields (fields : List (Field α)) : List (Field α) := fields.foldr place []

/-- The first field, in the order given, whose name has occurred before. The names in `seen`
occurred before all of them. -/
def clash? (seen : List (FieldName × Option Span)) :
    List (Field α × Option Span) → Option DuplicateField
  | [] => none
  | (f, span) :: rest =>
    match seen.lookup f.name with
    | some first => some ⟨f.name, first, span⟩
    | none => clash? ((f.name, span) :: seen) rest

/-- The canonical list of the fields, if their names are distinct. -/
def canonicalize (fields : List (Field α × Option Span)) :
    Except DuplicateField (List (Field α)) :=
  match clash? [] fields with
  | some clash => .error clash
  | none => .ok (ofFields (fields.map Prod.fst))

def canonicalizePlain (fields : List (Field α)) : Except DuplicateField (List (Field α)) :=
  canonicalize (fields.map (·, none))

theorem mem_place {f x : Field α} {fields : List (Field α)} (h : x ∈ place f fields) :
    x = f ∨ x ∈ fields := by
  induction fields with
  | nil => simpa [place] using h
  | cons g rest ih =>
    simp only [place] at h
    split at h
    · simpa using h
    · split at h
      · rcases List.mem_cons.1 h with rfl | h
        · exact .inl rfl
        · exact .inr (List.mem_cons_of_mem _ h)
      · rcases List.mem_cons.1 h with rfl | h
        · exact .inr List.mem_cons_self
        · exact (ih h).imp_right (List.mem_cons_of_mem _)

theorem ascending_place {f : Field α} {fields : List (Field α)} (h : Ascending fields) :
    Ascending (place f fields) := by
  induction fields with
  | nil => simp [place, Ascending]
  | cons g rest ih =>
    have hg : ∀ {x : Field α}, x ∈ rest → g.name < x.name := List.rel_of_pairwise_cons h
    have hrest : Ascending rest := h.of_cons
    simp only [place]
    split
    · next hlt =>
      refine List.pairwise_cons.2 ⟨fun x hx => ?_, h⟩
      rcases List.mem_cons.1 hx with rfl | hx
      · exact hlt
      · exact FieldName.lt_trans hlt (hg hx)
    · split
      · next he => exact List.pairwise_cons.2 ⟨fun x hx => he ▸ hg hx, hrest⟩
      · next hlt hne =>
        refine List.pairwise_cons.2 ⟨fun x hx => ?_, ih hrest⟩
        rcases mem_place hx with rfl | hx
        · exact FieldName.lt_of_not_lt_of_ne hlt hne
        · exact hg hx

theorem ascending_ofFields (fields : List (Field α)) : Ascending (ofFields fields) := by
  induction fields with
  | nil => simp [ofFields, Ascending]
  | cons f rest ih => exact ascending_place ih

theorem place_map (f : α → β) (x : Field α) (fields : List (Field α)) :
    place (x.map f) (fields.map (Field.map f)) = (place x fields).map (Field.map f) := by
  induction fields with
  | nil => rfl
  | cons g rest ih =>
    by_cases hlt : x.name < g.name
    · simp [place, hlt]
    · by_cases he : x.name = g.name <;> simp [place, hlt, he, FieldName.lt_irrefl, ih]

theorem ofFields_map (f : α → β) (fields : List (Field α)) :
    ofFields (fields.map (Field.map f)) = (ofFields fields).map (Field.map f) := by
  induction fields with
  | nil => rfl
  | cons x rest ih =>
    have hx : ofFields (x :: rest) = place x (ofFields rest) := rfl
    have hy : ofFields ((x :: rest).map (Field.map f)) =
        place (x.map f) (ofFields (rest.map (Field.map f))) := rfl
    rw [hx, hy, ih, place_map]

end Field

end RecordLens
