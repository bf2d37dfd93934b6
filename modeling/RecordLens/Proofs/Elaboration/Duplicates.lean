import RecordLens.Proofs.Field.Clash
import RecordLens.Proofs.Literal.Rearrangement

/-! Duplicate names. What a literal is refused for, where no type is expected, can be read off its
text: `records` lists the records in the order in which they are looked at, and the error is about
the first of them that repeats a name. Registries have no part in it. -/

namespace RecordLens

variable {α β : Type}

/-- Of all fields whose name has occurred before, `second` is the place of the first one, and
`first` is the place where its name occurs first. -/
inductive DuplicateField.FirstIn : DuplicateField → List (FieldExpr α) → Prop
  | intro {before between after : List (FieldExpr α)} {e f : FieldExpr α}
      (distinct : ((before ++ e :: between).map FieldExpr.name).Nodup) (same : e.name = f.name) :
      FirstIn ⟨f.name, some e.nameSpan, some f.nameSpan⟩ (before ++ e :: between ++ f :: after)

/-- The duplicate is in the first of the records that has one. -/
inductive DuplicateField.FirstAmong : DuplicateField → List (RecordExpr α) → Prop
  | intro {before after : List (RecordExpr α)} {r : RecordExpr α} {d : DuplicateField}
      (distinct : ∀ q ∈ before, (q.fields.map FieldExpr.name).Nodup) (first : d.FirstIn r.fields) :
      FirstAmong d (before ++ r :: after)

namespace FieldExpr

/-- The first name that is written again. -/
def clash? (fields : List (FieldExpr α)) : Option DuplicateField :=
  Field.clash? [] (fields.map fun f => (f.field, some f.nameSpan))

theorem clash?_eq_none_iff {fields : List (FieldExpr α)} :
    clash? fields = none ↔ (fields.map name).Nodup := by
  rw [clash?, Field.clash?_eq_none_iff]
  simp [Function.comp_def, field]

theorem clash?_map (f : α → β) (fields : List (FieldExpr α)) :
    clash? (fields.map fun x => ⟨x.name, x.nameSpan, f x.item⟩) = clash? fields := by
  have h := Field.clash?_map f [] (fields.map fun x => (x.field, some x.nameSpan))
  rw [List.map_map] at h
  rw [clash?, List.map_map]
  exact h

theorem canonicalize_eq (fields : List (FieldExpr α)) :
    canonicalize fields = match clash? fields with
      | some clash => .error clash
      | none => .ok (Field.sorted (fields.map field)) := by
  cases hc : clash? fields with
  | none => exact canonicalize_ok_iff.2 ⟨clash?_eq_none_iff.1 hc, rfl⟩
  | some clash =>
    show Field.canonicalize (fields.map fun f => (f.field, some f.nameSpan)) = .error clash
    rw [Field.canonicalize, show Field.clash? [] _ = some clash from hc]

theorem canonicalize_map_eq (f : α → β) (fields : List (FieldExpr α)) :
    canonicalize (fields.map fun x => ⟨x.name, x.nameSpan, f x.item⟩) =
      match clash? fields with
      | some clash => .error clash
      | none => .ok ((Field.sorted (fields.map field)).map (Field.map f)) := by
  cases hc : clash? fields with
  | none => exact canonicalize_map f (clash?_eq_none_iff.1 hc)
  | some clash => rw [canonicalize_eq, clash?_map, hc]

theorem forall_mem_sorted {fields : List (FieldExpr α)} {P : Field α → Prop} :
    (∀ f ∈ Field.sorted (fields.map field), P f) ↔ ∀ x ∈ fields, P x.field := by
  simp only [Field.mem_sorted, List.forall_mem_map]

/-- The first duplicate is the same where the places of the names stand beside the fields. -/
theorem firstIn_iff_firstOf {fields : List (FieldExpr α)} {d : DuplicateField} :
    d.FirstIn fields ↔ d.FirstOf (fields.map fun f => (f.field, some f.nameSpan)) := by
  let placed (f : FieldExpr α) : Field α × Option Span := (f.field, some f.nameSpan)
  have hnames (xs : List (FieldExpr α)) :
      (xs.map placed).map (fun x => x.1.name) = xs.map name := List.map_map
  constructor
  · rintro @⟨before, between, after, e, f, hn, same⟩
    rw [← hnames, List.map_append, List.map_cons] at hn
    rw [List.map_append, List.map_append, List.map_cons, List.map_cons]
    exact .intro (e := placed e) (f := placed f) hn same
  · intro h
    generalize hxs : fields.map _ = xs at h
    obtain @⟨before, between, after, e, f, hn, same⟩ := h
    obtain ⟨front, back, rfl, hfront, hback⟩ := List.map_eq_append_iff.1 hxs
    obtain ⟨f, after, rfl, rfl, rfl⟩ := List.map_eq_cons_iff.1 hback
    obtain ⟨before, rest, rfl, rfl, hrest⟩ := List.map_eq_append_iff.1 hfront
    obtain ⟨e, between, rfl, rfl, rfl⟩ := List.map_eq_cons_iff.1 hrest
    have hsplit := hnames (before ++ e :: between)
    rw [List.map_append, List.map_cons] at hsplit
    exact .intro (hsplit ▸ hn) same

theorem clash?_eq_some_iff {fields : List (FieldExpr α)} {clash : DuplicateField} :
    clash? fields = some clash ↔ clash.FirstIn fields :=
  Field.clash?_eq_some_iff.trans firstIn_iff_firstOf.symm

end FieldExpr

theorem findSome?_cons_eq_or (f : α → Option β) (x : α) (xs : List α) :
    (x :: xs).findSome? f = (f x).or (xs.findSome? f) := by
  rw [List.findSome?_cons]
  cases f x <;> rfl

namespace Elaboration

variable {ε : Type}

/-- The error of the step in the registry, if it fails there. -/
def error? (x : Elaboration ε α) (g : Registry) : Option ε :=
  match (x.outcome g).1 with
  | .ok _ => none
  | .error e => some e

theorem error?_eq_some_iff {x : Elaboration ε α} {g : Registry} {e : ε} :
    x.error? g = some e ↔ ∃ g', x.outcome g = (.error e, g') := by
  rw [error?]
  cases x.outcome g with
  | mk result g' => cases result <;> simp

theorem error?_bind (x : Elaboration ε α) (f : α → Elaboration ε β) (g : Registry) :
    (x >>= f).error? g = match x.outcome g with
      | (.ok a, g') => (f a).error? g'
      | (.error e, _) => some e := by
  rw [error?, outcome_bind]
  cases x.outcome g with
  | mk result g' => cases result <;> rfl

/-- The step has one error in all registries, or fails in none. -/
def Raises (error : Option ε) (x : Elaboration ε α) : Prop := ∀ g : Registry, x.error? g = error

theorem Raises.error_iff {x : Elaboration ε α} {error : Option ε} (h : x.Raises error)
    {g : Registry} {e : ε} : (∃ g', x.outcome g = (.error e, g')) ↔ error = some e := by
  rw [← error?_eq_some_iff, h g]

theorem Raises.pure (a : α) : Raises none (Pure.pure a : Elaboration ε α) := fun _ => rfl

theorem Raises.lift (x : Interning α) : Raises none (liftM x : Elaboration ε α) := fun _ => rfl

theorem Raises.throw (e : ε) : Raises (some e) (.ofExcept (.error e) : Elaboration ε α) :=
  fun _ => rfl

theorem Raises.bind {x : Elaboration ε α} {f : α → Elaboration ε β} {error error' : Option ε}
    (hx : x.Raises error) (hf : ∀ a, (f a).Raises error') : (x >>= f).Raises (error.or error') := by
  intro g
  rw [← hx g, error?_bind, error?]
  cases x.outcome g with
  | mk result g' =>
    cases result with
    | ok a => exact hf a g'
    | error e => rfl

theorem Raises.bind_pure {x : Elaboration ε α} {f : α → Elaboration ε β} {error : Option ε}
    (hx : x.Raises error) (hf : ∀ a, (f a).Raises none) : (x >>= f).Raises error := by
  simpa using hx.bind hf

theorem Raises.mapM {f : α → Elaboration ε β} {errorOf : α → Option ε} {xs : List α}
    (h : ∀ x ∈ xs, (f x).Raises (errorOf x)) : (xs.mapM f).Raises (xs.findSome? errorOf) := by
  induction xs with
  | nil => exact .pure []
  | cons x xs ih =>
    have hrest := ih fun y hy => h y (List.mem_cons_of_mem x hy)
    rw [List.mapM_cons, findSome?_cons_eq_or]
    exact (h x List.mem_cons_self).bind fun y => hrest.bind_pure fun ys => .pure _

theorem Raises.traverse {f : FieldName → α → Elaboration ε β} {x : Field α} {error : Option ε}
    (h : (f x.name x.value).Raises error) : (x.traverse f).Raises error :=
  h.bind_pure fun _ => .pure _

end Elaboration

namespace TypeExpr

mutual

/-- The records in the expression: an outer one before those in its fields, the fields in the order
of their names, and arguments from left to right. -/
def records : TypeExpr → List (RecordExpr TypeExpr)
  | .named _ args _ => argRecords args
  | .record ⟨fields, span⟩ =>
    ⟨fields, span⟩ :: (Field.sorted (fieldRecords fields)).flatMap Field.value

def argRecords : List TypeExpr → List (RecordExpr TypeExpr)
  | [] => []
  | arg :: rest => records arg ++ argRecords rest

def fieldRecords : List (FieldExpr TypeExpr) → List (Field (List (RecordExpr TypeExpr)))
  | [] => []
  | ⟨name, _, item⟩ :: rest => ⟨name, records item⟩ :: fieldRecords rest

end

@[simp] theorem records_named (name : String) (args : List TypeExpr) (span : Span) :
    (named name args span).records = args.flatMap records := by
  have h : argRecords args = args.flatMap records := by
    induction args with
    | nil => rfl
    | cons arg rest ih => rw [argRecords, List.flatMap_cons, ih]
  rw [records, h]

@[simp] theorem records_record (fields : List (FieldExpr TypeExpr)) (span : Span) :
    (record ⟨fields, span⟩).records = ⟨fields, span⟩ ::
      (Field.sorted (fields.map FieldExpr.field)).flatMap fun f => f.value.records := by
  have h : fieldRecords fields = (fields.map FieldExpr.field).map (Field.map records) := by
    induction fields with
    | nil => rfl
    | cons f rest ih => rw [fieldRecords, List.map_cons, List.map_cons, ih]; rfl
  rw [records, h, Field.sorted_map, List.flatMap_map]
  rfl

end TypeExpr

namespace Expr

mutual

def records : Expr → List (RecordExpr Expr)
  | .scalar _ _ => []
  | .record ⟨fields, span⟩ =>
    ⟨fields, span⟩ :: (Field.sorted (fieldRecords fields)).flatMap Field.value

def fieldRecords : List (FieldExpr Expr) → List (Field (List (RecordExpr Expr)))
  | [] => []
  | ⟨name, _, item⟩ :: rest => ⟨name, records item⟩ :: fieldRecords rest

end

@[simp] theorem records_scalar (s : Scalar) (span : Span) : (scalar s span).records = [] := by
  rw [records]

@[simp] theorem records_record (fields : List (FieldExpr Expr)) (span : Span) :
    (record ⟨fields, span⟩).records = ⟨fields, span⟩ ::
      (Field.sorted (fields.map FieldExpr.field)).flatMap fun f => f.value.records := by
  have h : fieldRecords fields = (fields.map FieldExpr.field).map (Field.map records) := by
    induction fields with
    | nil => rfl
    | cons f rest ih => rw [fieldRecords, List.map_cons, List.map_cons, ih]; rfl
  rw [records, h, Field.sorted_map, List.flatMap_map]
  rfl

end Expr

def RecordExpr.firstClash? (records : List (RecordExpr α)) : Option DuplicateField :=
  records.findSome? fun r => FieldExpr.clash? r.fields

namespace RecordExpr

theorem firstClash?_cons (r : RecordExpr α) (records : List (RecordExpr α)) :
    firstClash? (r :: records) = (FieldExpr.clash? r.fields).or (firstClash? records) :=
  findSome?_cons_eq_or _ r records

theorem firstClash?_flatMap (f : β → List (RecordExpr α)) (xs : List β) :
    firstClash? (xs.flatMap f) = xs.findSome? fun x => firstClash? (f x) := by
  induction xs with
  | nil => rfl
  | cons x xs ih =>
    rw [List.flatMap_cons, firstClash?, List.findSome?_append, ← firstClash?, ← firstClash?, ih,
      findSome?_cons_eq_or]

theorem firstClash?_eq_none_iff {records : List (RecordExpr α)} :
    firstClash? records = none ↔ ∀ r ∈ records, (r.fields.map FieldExpr.name).Nodup := by
  simp [firstClash?, FieldExpr.clash?_eq_none_iff]

theorem firstClash?_eq_some_iff {records : List (RecordExpr α)} {clash : DuplicateField} :
    firstClash? records = some clash ↔ clash.FirstAmong records := by
  rw [firstClash?, List.findSome?_eq_some_iff]
  constructor
  · rintro ⟨before, r, after, rfl, hr, hbefore⟩
    exact .intro (fun q hq => FieldExpr.clash?_eq_none_iff.1 (hbefore q hq))
      (FieldExpr.clash?_eq_some_iff.1 hr)
  · rintro ⟨hbefore, hr⟩
    exact ⟨_, _, _, rfl, FieldExpr.clash?_eq_some_iff.2 hr,
      fun q hq => FieldExpr.clash?_eq_none_iff.2 (hbefore q hq)⟩

end RecordExpr

open Elaboration RecordExpr

namespace TypeExpr

theorem recordType_eq (fields : List (FieldExpr TypeExpr)) :
    recordType (elaborateFields fields) = match FieldExpr.clash? fields with
      | some clash => .ofExcept (.error clash)
      | none => (do
        let types ← (Field.sorted (fields.map FieldExpr.field)).mapM
          (Field.traverse fun _ => elaborate)
        liftM (Registry.intern types)) := by
  rw [recordType, elaborateFields_eq_map, FieldExpr.canonicalize_map_eq]
  cases FieldExpr.clash? fields with
  | some clash => rfl
  | none =>
    show ((Field.sorted (fields.map FieldExpr.field)).map (Field.map elaborate)).mapM
      (Field.traverse fun _ elaborate => elaborate) >>= _ = _
    rw [List.mapM_map]
    rfl

theorem raises_recordType {fields : List (FieldExpr TypeExpr)}
    (h : ∀ f ∈ fields, f.item.elaborate.Raises (firstClash? f.item.records)) (span : Span) :
    (recordType (elaborateFields fields)).Raises (firstClash? (record ⟨fields, span⟩).records) := by
  have hitems : ∀ f ∈ Field.sorted (fields.map FieldExpr.field),
      (f.traverse fun _ => elaborate).Raises (firstClash? f.value.records) :=
    FieldExpr.forall_mem_sorted.2 fun x hx => .traverse (h x hx)
  rw [records_record, firstClash?_cons, firstClash?_flatMap, recordType_eq]
  cases FieldExpr.clash? fields with
  | some clash => exact .throw _
  | none => exact (Raises.mapM hitems).bind_pure fun types => .lift _

/-- A type is refused for the first record that repeats a name. -/
theorem raises_elaborate (e : TypeExpr) : e.elaborate.Raises (firstClash? e.records) := by
  induction e using TypeExpr.induction with
  | named name args span ih =>
    rw [records_named, firstClash?_flatMap, elaborate, elaborateArgs_eq_mapM]
    exact (Raises.mapM ih).bind_pure fun ts => .pure _
  | record fields span ih =>
    rw [elaborate]
    exact (raises_recordType ih span).bind_pure fun r => .pure _

theorem distinct_iff_records {e : TypeExpr} :
    e.Distinct ↔ ∀ r ∈ e.records, (r.fields.map FieldExpr.name).Nodup := by
  induction e using TypeExpr.induction with
  | named name args span ih =>
    rw [records_named, List.forall_mem_flatMap]
    constructor
    · rintro ⟨h⟩
      exact fun a ha => (ih a ha).1 (h a ha)
    · intro h
      exact .named fun a ha => (ih a ha).2 (h a ha)
  | record fields span ih =>
    rw [records_record, List.forall_mem_cons, List.forall_mem_flatMap, FieldExpr.forall_mem_sorted]
    constructor
    · intro h
      cases h with
      | record names items => exact ⟨names, fun f hf => (ih f hf).1 (items f hf)⟩
    · rintro ⟨names, items⟩
      exact .record names fun f hf => (ih f hf).2 (items f hf)

end TypeExpr

namespace Expr

theorem raises_inferred {xs : List (Field Expr)} {path : Path}
    (h : ∀ x ∈ xs, ∀ path, (x.value.elaborate none path).Raises
      ((firstClash? x.value.records).map .duplicate)) :
    (inferred (xs.map (Field.map elaborate)) path).Raises
      ((firstClash? (xs.flatMap fun x => x.value.records)).map .duplicate) := by
  have hitems : ∀ x ∈ xs,
      (x.traverse fun name (e : Expr) => e.elaborate none (path ++ [name])).Raises
        ((firstClash? x.value.records).map .duplicate) :=
    fun x hx => .traverse (h x hx (path ++ [x.name]))
  rw [firstClash?_flatMap, List.map_findSome?, inferred_map]
  exact (Raises.mapM hitems).bind_pure fun values => .lift _

theorem recordValue_none_eq (fields : List (FieldExpr Expr)) (span : Span) (path : Path) :
    recordValue (elaborateFields fields) span none path = match FieldExpr.clash? fields with
      | some clash => .ofExcept (.error (.duplicate clash))
      | none =>
        inferred ((Field.sorted (fields.map FieldExpr.field)).map (Field.map elaborate)) path := by
  rw [recordValue, elaborateFields_eq_map, FieldExpr.canonicalize_map_eq]
  cases FieldExpr.clash? fields with
  | some clash => rfl
  | none => rfl

theorem raises_recordValue {fields : List (FieldExpr Expr)} {path : Path}
    (h : ∀ f ∈ fields, ∀ path, (f.item.elaborate none path).Raises
      ((firstClash? f.item.records).map .duplicate)) (span : Span) :
    (recordValue (elaborateFields fields) span none path).Raises
      ((firstClash? (record ⟨fields, span⟩).records).map .duplicate) := by
  rw [records_record, firstClash?_cons, recordValue_none_eq]
  cases FieldExpr.clash? fields with
  | some clash => exact .throw _
  | none => exact raises_inferred (FieldExpr.forall_mem_sorted.2 h)

/-- With no type expected an expression is refused for the first record that repeats a name. -/
theorem raises_elaborate (e : Expr) (path : Path) :
    (e.elaborate none path).Raises ((firstClash? e.records).map .duplicate) := by
  induction e using Expr.induction generalizing path with
  | scalar s span =>
    rw [records_scalar]
    exact fun g => rfl
  | record fields span ih =>
    rw [elaborate]
    exact (raises_recordValue ih span).bind_pure fun r => .pure _

theorem mapM_congr_of_mem {ε α β : Type} {f k : α → Elaboration ε β} {xs : List α}
    (h : ∀ x ∈ xs, f x = k x) : xs.mapM f = xs.mapM k := by
  induction xs with
  | nil => rfl
  | cons x xs ih =>
    rw [List.mapM_cons, List.mapM_cons, h x List.mem_cons_self,
      ih fun y hy => h y (List.mem_cons_of_mem x hy)]

/-- Where nothing is expected, the path is for messages that are not given. -/
theorem elaborate_none_path (e : Expr) (p q : Path) : e.elaborate none p = e.elaborate none q := by
  induction e using Expr.induction generalizing p q with
  | scalar s span => rfl
  | record fields span ih =>
    rw [elaborate, elaborate, recordValue_none_eq, recordValue_none_eq, inferred_map, inferred_map,
      mapM_congr_of_mem fun x hx => ?_]
    obtain ⟨f, hf, rfl⟩ := List.mem_map.1 (Field.mem_sorted.1 hx)
    rw [Field.traverse, Field.traverse, FieldExpr.field, ih f hf _ (q ++ [f.name])]

theorem distinct_iff_records {e : Expr} :
    e.Distinct ↔ ∀ r ∈ e.records, (r.fields.map FieldExpr.name).Nodup := by
  induction e using Expr.induction with
  | scalar s span =>
    rw [records_scalar]
    exact ⟨fun _ => nofun, fun _ => .scalar s span⟩
  | record fields span ih =>
    rw [records_record, List.forall_mem_cons, List.forall_mem_flatMap, FieldExpr.forall_mem_sorted]
    constructor
    · intro h
      cases h with
      | record names items => exact ⟨names, fun f hf => (ih f hf).1 (items f hf)⟩
    · rintro ⟨names, items⟩
      exact .record names fun f hf => (ih f hf).2 (items f hf)

theorem distinct_of_inferred {e : Expr} {path : Path} {v : Value} {g g' : Registry}
    (h : (e.elaborate none path).outcome g = (.ok v, g')) : e.Distinct := by
  have herror := e.raises_elaborate path g
  rw [error?, h] at herror
  exact distinct_iff_records.2 (firstClash?_eq_none_iff.1 (Option.map_eq_none_iff.1 herror.symm))

end Expr

/-- A type expression is refused if and only if some record in it repeats a name, and a record
literal of which no type is expected likewise. Both are refused for the first such record, and for
the first name in it that has occurred before. -/
theorem Elaboration.refused_iff_duplicate (g : Registry) :
    (∀ e : TypeExpr,
      ((∃ d g', e.elaborate.outcome g = (.error d, g')) ↔ ¬e.Distinct) ∧
      ∀ d, (∃ g', e.elaborate.outcome g = (.error d, g')) ↔ d.FirstAmong e.records) ∧
    ∀ l : RecordExpr Expr,
      ((∃ e g', (Expr.elaborateRecord l none).outcome g = (.error e, g')) ↔
        ¬(Expr.record l).Distinct) ∧
      ∀ e, (∃ g', (Expr.elaborateRecord l none).outcome g = (.error e, g')) ↔
        ∃ d, e = .duplicate d ∧ d.FirstAmong (Expr.record l).records := by
  constructor
  · intro e
    have hraises := e.raises_elaborate
    refine ⟨?_, fun d => hraises.error_iff.trans firstClash?_eq_some_iff⟩
    rw [TypeExpr.distinct_iff_records, ← firstClash?_eq_none_iff, ← Ne, Option.ne_none_iff_exists']
    exact exists_congr fun d => hraises.error_iff
  · intro l
    have hraises : (Expr.elaborateRecord l none).Raises
        ((firstClash? (Expr.record l).records).map .duplicate) :=
      Expr.raises_recordValue (fun f _ => f.item.raises_elaborate) l.span
    constructor
    · rw [Expr.distinct_iff_records, ← firstClash?_eq_none_iff, ← Option.map_eq_none_iff, ← Ne,
        Option.ne_none_iff_exists']
      exact exists_congr fun e => hraises.error_iff
    · intro e
      rw [hraises.error_iff, Option.map_eq_some_iff]
      refine exists_congr fun d => ?_
      rw [firstClash?_eq_some_iff, and_comm, eq_comm]

/-- The record in `b` stands before the one in `a` but is looked at after it. -/
example :
    let place (n : Nat) : Span := ⟨⟨1, n + 1, n⟩, 1⟩
    let twice (name : String) (n m : Nat) : TypeExpr :=
      .record ⟨[⟨.label name, place n, .named "Int" [] default⟩,
        ⟨.label name, place m, .named "Int" [] default⟩], default⟩
    let e : TypeExpr := .record ⟨[⟨.label "b", place 1, .named "Maybe" [twice "x" 11 19] default⟩,
      ⟨.label "a", place 27, twice "y" 31 39⟩], default⟩
    e.elaborate.error? (.empty .scratch) = some ⟨.label "y", place 31, place 39⟩ := by
  decide +kernel

end RecordLens
