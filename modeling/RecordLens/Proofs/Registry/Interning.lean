import Mathlib.Data.List.Forall2
import RecordLens.Proofs.Field.Canonical
import RecordLens.Registry

/-! Interning. A registry changes in one way: the fields of a new record type are entered at its
end. So handles stay good, and one field list has one handle. -/

namespace RecordLens

/-- The result of a step and the registry behind it. -/
def Interning.outcome {α : Type} (x : Interning α) (g : Registry) : α × Registry := x.run g

def Elaboration.outcome {ε α : Type} (x : Elaboration ε α) (g : Registry) :
    Except ε α × Registry := x.run g

namespace Registry

/-- The registry has an entry of which this is the handle. -/
def Holds (g : Registry) (r : RecordType) : Prop := g.get? r.id = some r

instance (g : Registry) (r : RecordType) : Decidable (g.Holds r) :=
  inferInstanceAs (Decidable (_ = _))

theorem holds_iff {g : Registry} {r : RecordType} :
    g.Holds r ↔ r.owner = g.owner ∧ g.entries[r.id]? = some r.fields := by
  obtain ⟨owner, id, fields⟩ := r
  simp only [Holds, get?, Option.map_eq_some_iff, RecordType.mk.injEq, true_and]
  constructor
  · rintro ⟨_, h, ho, rfl⟩
    exact ⟨ho.symm, h⟩
  · rintro ⟨ho, h⟩
    exact ⟨fields, h, ho.symm, rfl⟩

/-- Entries are canonical, and no field list is entered twice. -/
structure Valid (g : Registry) : Prop where
  ascending : ∀ fields ∈ g.entries, Field.Ascending fields
  nodup : g.entries.Nodup

theorem valid_empty (owner : Owner) : (empty owner).Valid := ⟨nofun, List.nodup_nil⟩

theorem Valid.ascending_of_holds {g : Registry} {r : RecordType} (hv : g.Valid) (h : g.Holds r) :
    Field.Ascending r.fields := hv.ascending _ (List.mem_of_getElem? (holds_iff.1 h).2)

theorem Valid.eq_of_fields_eq {g : Registry} {r s : RecordType} (hv : g.Valid) (hr : g.Holds r)
    (hs : g.Holds s) (h : r.fields = s.fields) : r = s := by
  obtain ⟨hro, hri⟩ := holds_iff.1 hr
  obtain ⟨hso, hsi⟩ := holds_iff.1 hs
  obtain ⟨hlt, -⟩ := List.getElem?_eq_some_iff.1 hri
  have hid : r.id = s.id := (List.getElem?_inj hlt hv.nodup).1 (by rw [hri, hsi, h])
  have hsome : some r = some s := by rw [← hr, ← hs, hid]
  exact Option.some.inj hsome

theorem mem_handles {owner : Owner} {first : Nat} {entries : List (List (Field Ty))}
    {r : RecordType} :
    r ∈ handles owner first entries ↔
      ∃ i, entries[i]? = some r.fields ∧ r.owner = owner ∧ r.id = first + i := by
  induction entries generalizing first with
  | nil => simp [handles]
  | cons fields rest ih =>
    rw [handles, List.mem_cons, ih]
    constructor
    · rintro (rfl | ⟨i, hi, ho, hid⟩)
      · exact ⟨0, rfl, rfl, rfl⟩
      · exact ⟨i + 1, hi, ho, by omega⟩
    · rintro ⟨i, hi, rfl, hid⟩
      cases i with
      | zero =>
        obtain rfl : fields = r.fields := by simpa using hi
        exact .inl (by rw [← show r.id = first from hid])
      | succ i => exact .inr ⟨i, by simpa using hi, rfl, by omega⟩

theorem mem_types {g : Registry} {r : RecordType} : r ∈ g.types ↔ g.Holds r := by
  rw [types, mem_handles, holds_iff]
  constructor
  · rintro ⟨i, hi, ho, hid⟩
    obtain rfl : r.id = i := by omega
    exact ⟨ho, hi⟩
  · rintro ⟨ho, hi⟩
    exact ⟨r.id, hi, ho, by omega⟩

/-- Interning either finds a handle of the fields or enters them at the end. -/
theorem intern_cases (fields : List (Field Ty)) (g : Registry) :
    (∃ r, g.Holds r ∧ r.fields = fields ∧ (intern fields).outcome g = (r, g)) ∨
    (fields ∉ g.entries ∧ (intern fields).outcome g =
      (⟨g.owner, g.size, fields⟩, { g with entries := g.entries ++ [fields] })) := by
  have hintern : (intern fields).outcome g = intern fields g := rfl
  rw [hintern, intern]
  cases hf : g.types.find? fun r => r.fields = fields with
  | some r =>
    have hr : g.Holds r := mem_types.1 (List.mem_of_find?_eq_some hf)
    exact .inl ⟨r, hr, by simpa using List.find?_some hf, rfl⟩
  | none =>
    refine .inr ⟨fun hmem => ?_, rfl⟩
    obtain ⟨i, hi⟩ := List.mem_iff_getElem?.1 hmem
    have hr : (⟨g.owner, i, fields⟩ : RecordType) ∈ g.types :=
      mem_types.2 (holds_iff.2 ⟨rfl, hi⟩)
    exact List.find?_eq_none.1 hf _ hr (by simp)

theorem intern_of_holds {g : Registry} {r : RecordType} (hv : g.Valid) (h : g.Holds r) :
    (intern r.fields).outcome g = (r, g) := by
  rcases intern_cases r.fields g with ⟨s, hs, hf, he⟩ | ⟨hn, -⟩
  · rw [he, hv.eq_of_fields_eq hs h hf]
  · exact absurd (List.mem_of_getElem? (holds_iff.1 h).2) hn

theorem holds_intern (fields : List (Field Ty)) (g : Registry) :
    ((intern fields).outcome g).2.Holds ((intern fields).outcome g).1 := by
  rcases intern_cases fields g with ⟨r, hr, -, he⟩ | ⟨-, he⟩
  · rw [he]
    exact hr
  · rw [he, holds_iff]
    simp [size]

theorem fields_intern (fields : List (Field Ty)) (g : Registry) :
    ((intern fields).outcome g).1.fields = fields := by
  rcases intern_cases fields g with ⟨r, -, hf, he⟩ | ⟨-, he⟩
  · rw [he, hf]
  · rw [he]

theorem valid_intern {fields : List (Field Ty)} {g : Registry} (ha : Field.Ascending fields)
    (hv : g.Valid) : ((intern fields).outcome g).2.Valid := by
  rcases intern_cases fields g with ⟨r, -, -, he⟩ | ⟨hn, he⟩
  · rw [he]
    exact hv
  · rw [he]
    constructor
    · intro entry hentry
      rcases List.mem_append.1 hentry with h | h
      · exact hv.ascending entry h
      · rw [List.mem_singleton.1 h]
        exact ha
    · exact List.nodup_append.2 ⟨hv.nodup, by simp, fun x hx y hy he =>
        hn (List.mem_singleton.1 hy ▸ he ▸ hx)⟩

/-- What a registry can become: canonical field lists are interned one after the other. -/
inductive Grows (g : Registry) : Registry → Prop
  | refl : Grows g g
  | intern {g' : Registry} {fields : List (Field Ty)} (h : Grows g g')
      (ha : Field.Ascending fields) : Grows g ((intern fields).outcome g').2

namespace Grows

variable {g g' g'' : Registry}

theorem trans (h : g.Grows g') (k : g'.Grows g'') : g.Grows g'' := by
  induction k with
  | refl => exact h
  | intern _ ha ih => exact .intern ih ha

theorem valid (h : g.Grows g') (hv : g.Valid) : g'.Valid := by
  induction h with
  | refl => exact hv
  | intern _ ha ih => exact valid_intern ha ih

theorem owner_eq (h : g.Grows g') : g'.owner = g.owner := by
  induction h with
  | refl => rfl
  | @intern g' fields _ _ ih =>
    rcases intern_cases fields g' with ⟨s, -, -, he⟩ | ⟨-, he⟩
    · rw [he, ih]
    · rw [he, ih]

theorem entries_prefix (h : g.Grows g') : g.entries <+: g'.entries := by
  induction h with
  | refl => exact List.prefix_rfl
  | @intern g' fields _ _ ih =>
    rcases intern_cases fields g' with ⟨s, -, -, he⟩ | ⟨-, he⟩
    · rwa [he]
    · rw [he]
      exact ih.trans (List.prefix_append _ _)

theorem holds {r : RecordType} (h : g.Grows g') (hr : g.Holds r) : g'.Holds r := by
  obtain ⟨ho, hi⟩ := holds_iff.1 hr
  obtain ⟨rest, hrest⟩ := h.entries_prefix
  have hlt : r.id < g.entries.length := (List.getElem?_eq_some_iff.1 hi).1
  refine holds_iff.2 ⟨ho.trans h.owner_eq.symm, ?_⟩
  rw [← hrest, List.getElem?_append_left hlt, hi]

theorem antisymm (h : g.Grows g') (k : g'.Grows g) : g = g' := by
  obtain ⟨owner, entries⟩ := g
  obtain ⟨owner', entries'⟩ := g'
  obtain rfl : owner' = owner := h.owner_eq
  have hle : entries'.length ≤ entries.length := k.entries_prefix.length_le
  obtain rfl : entries = entries' := h.entries_prefix.eq_of_length_le hle
  rfl

/-- A step that only interns and leads back has interned nothing. -/
theorem eq_between {g₁ g₂ : Registry} (h : g.Grows g₁) (k : g₁.Grows g₂) (he : g₂ = g) :
    g₁ = g := (h.antisymm (he ▸ k)).symm

end Grows

theorem handles_append (owner : Owner) (first : Nat) (xs ys : List (List (Field Ty))) :
    handles owner first (xs ++ ys) =
      handles owner first xs ++ handles owner (first + xs.length) ys := by
  induction xs generalizing first with
  | nil => rfl
  | cons fields rest ih =>
    rw [List.cons_append, handles, ih, handles, List.cons_append, List.length_cons, Nat.add_assoc,
      Nat.add_comm 1]

theorem Grows.types_prefix {g g' : Registry} (h : g.Grows g') : g.types <+: g'.types := by
  obtain ⟨rest, hrest⟩ := h.entries_prefix
  rw [types, types, ← hrest, handles_append, h.owner_eq]
  exact List.prefix_append _ _

theorem find?_types_intern (fields : List (Field Ty)) (g : Registry) :
    (((intern fields).outcome g).2.types.find? fun r => r.fields = fields) =
      some ((intern fields).outcome g).1 := by
  have hintern : (intern fields).outcome g = intern fields g := rfl
  rw [hintern, intern]
  cases hf : g.types.find? fun r => r.fields = fields with
  | some r => exact hf
  | none =>
    show (handles g.owner 0 (g.entries ++ [fields])).find? _ = _
    rw [handles_append, List.find?_append, ← types, hf]
    simp [handles, size]

/-- A registry that has entered fields finds their handle, and enters nothing. -/
theorem intern_again {fields : List (Field Ty)} {g g' : Registry}
    (hg : ((intern fields).outcome g).2.Grows g') :
    (intern fields).outcome g' = (((intern fields).outcome g).1, g') := by
  have hfind := hg.types_prefix.find?_eq_some (find?_types_intern fields g)
  have hintern : (intern fields).outcome g' = intern fields g' := rfl
  rw [hintern, intern, hfind]

theorem structType_again {types : List (Field Ty)} {g g' : Registry}
    (hg : ((structType types).outcome g).2.Grows g') :
    (structType types).outcome g' = (((structType types).outcome g).1, g') := intern_again hg

end Registry

namespace Interning

variable {α β : Type}

@[simp] theorem outcome_pure (a : α) (g : Registry) :
    (Pure.pure a : Interning α).outcome g = (a, g) := rfl

@[simp] theorem outcome_bind (x : Interning α) (f : α → Interning β) (g : Registry) :
    (x >>= f).outcome g = (f (x.outcome g).1).outcome (x.outcome g).2 := rfl

end Interning

namespace Elaboration

variable {ε α β : Type}

@[simp] theorem outcome_pure (a : α) (g : Registry) :
    (Pure.pure a : Elaboration ε α).outcome g = (.ok a, g) := rfl

@[simp] theorem outcome_lift (x : Interning α) (g : Registry) :
    (liftM x : Elaboration ε α).outcome g = (.ok (x.outcome g).1, (x.outcome g).2) := rfl

theorem outcome_bind (x : Elaboration ε α) (f : α → Elaboration ε β) (g : Registry) :
    (x >>= f).outcome g = match x.outcome g with
      | (.ok a, g') => (f a).outcome g'
      | (.error e, g') => (.error e, g') := by
  show (match (x.outcome g).1 with | .ok a => _ | .error e => _ : Interning (Except ε β))
    (x.outcome g).2 = _
  cases h : x.outcome g with
  | mk result g' => cases result <;> rfl

theorem outcome_bind_ok {x : Elaboration ε α} {f : α → Elaboration ε β} {g g' : Registry} {b : β} :
    (x >>= f).outcome g = (.ok b, g') ↔
      ∃ a g₁, x.outcome g = (.ok a, g₁) ∧ (f a).outcome g₁ = (.ok b, g') := by
  rw [outcome_bind]
  cases h : x.outcome g with
  | mk result g₁ =>
    cases result with
    | error e => simp
    | ok a =>
      constructor
      · intro hf
        exact ⟨a, g₁, rfl, hf⟩
      · rintro ⟨_, _, he, hf⟩
        obtain ⟨rfl, rfl⟩ : a = _ ∧ g₁ = _ := by simpa using he
        exact hf

theorem outcome_bind_error_iff {x : Elaboration ε α} {f : α → Elaboration ε β}
    {g g' : Registry} {e : ε} :
    (x >>= f).outcome g = (.error e, g') ↔ x.outcome g = (.error e, g') ∨
      ∃ a g₁, x.outcome g = (.ok a, g₁) ∧ (f a).outcome g₁ = (.error e, g') := by
  rw [outcome_bind]
  cases x.outcome g with
  | mk result g₁ =>
    cases result with
    | error e => simp
    | ok a => simp [and_assoc]

theorem outcome_bind_pure_error_iff {x : Elaboration ε α} {f : α → β} {g g' : Registry} {e : ε} :
    (x >>= fun a => Pure.pure (f a)).outcome g = (.error e, g') ↔
      x.outcome g = (.error e, g') := by
  rw [outcome_bind_error_iff]
  simp

theorem outcome_bind_congr {x : Elaboration ε α} {f : α → Elaboration ε β}
    {g g' : Registry} (h : x.outcome g = x.outcome g') :
    (x >>= f).outcome g = (x >>= f).outcome g' := by
  rw [outcome_bind, outcome_bind, h]

theorem outcome_adapt {δ : Type} (f : ε → δ) (x : Elaboration ε α) (g : Registry) :
    outcome (ExceptT.adapt f x : Elaboration δ α) g =
      ((x.outcome g).1.mapError f, (x.outcome g).2) := rfl

/-- The step does nothing to a registry but intern, also when it fails. -/
def Extends (x : Elaboration ε α) : Prop := ∀ g : Registry, g.Grows (x.outcome g).2

theorem Extends.grows {x : Elaboration ε α} {g g' : Registry} {result : Except ε α}
    (hx : x.Extends) (h : x.outcome g = (result, g')) : g.Grows g' := by
  have hg := hx g
  rwa [h] at hg

theorem Extends.pure (a : α) : Extends (Pure.pure a : Elaboration ε α) := fun _ => .refl

theorem Extends.bind {x : Elaboration ε α} {f : α → Elaboration ε β} (hx : x.Extends)
    (hf : ∀ a, (f a).Extends) : (x >>= f).Extends := by
  intro g
  have hg := hx g
  rw [outcome_bind]
  cases h : x.outcome g with
  | mk result g' =>
    rw [h] at hg
    cases result with
    | error e => exact hg
    | ok a => exact hg.trans (hf a g')

theorem Extends.mapM {f : α → Elaboration ε β} {xs : List α} (h : ∀ x ∈ xs, (f x).Extends) :
    Extends (xs.mapM f) := by
  induction xs with
  | nil => exact .pure []
  | cons x rest ih =>
    rw [List.mapM_cons]
    refine .bind (h x List.mem_cons_self) fun y => .bind (ih fun z hz => ?_) fun ys => .pure _
    exact h z (List.mem_cons_of_mem x hz)

theorem Extends.traverse {f : FieldName → α → Elaboration ε β} {x : Field α}
    (h : (f x.name x.value).Extends) : Extends (x.traverse f) := .bind h fun _ => .pure _

theorem outcome_mapM_cons {f : α → Elaboration ε β} {x : α} {xs : List α} {ys : List β}
    {g g' : Registry} :
    ((x :: xs).mapM f).outcome g = (.ok ys, g') ↔
      ∃ y rest g₁, (f x).outcome g = (.ok y, g₁) ∧ (xs.mapM f).outcome g₁ = (.ok rest, g') ∧
        ys = y :: rest := by
  simp only [List.mapM_cons, outcome_bind_ok, outcome_pure, Prod.mk.injEq, Except.ok.injEq]
  constructor
  · rintro ⟨y, g₁, hy, rest, _, hrest, rfl, rfl⟩
    exact ⟨y, rest, g₁, hy, hrest, rfl⟩
  · rintro ⟨y, rest, g₁, hy, hrest, rfl⟩
    exact ⟨y, g₁, hy, rest, g', hrest, rfl, rfl⟩

theorem outcome_traverse {f : FieldName → α → Elaboration ε β} {x : Field α} {y : Field β}
    {g g' : Registry} :
    (x.traverse f).outcome g = (.ok y, g') ↔
      y.name = x.name ∧ (f x.name x.value).outcome g = (.ok y.value, g') := by
  obtain ⟨name, value⟩ := y
  simp only [Field.traverse, outcome_bind_ok, outcome_pure, Prod.mk.injEq, Except.ok.injEq,
    Field.mk.injEq]
  constructor
  · rintro ⟨_, _, h, ⟨rfl, rfl⟩, rfl⟩
    exact ⟨rfl, h⟩
  · rintro ⟨rfl, h⟩
    exact ⟨value, g', h, ⟨rfl, rfl⟩, rfl⟩

theorem names_of_mapM_traverse {f : FieldName → α → Elaboration ε β} {xs : List (Field α)}
    {ys : List (Field β)} {g g' : Registry}
    (h : (xs.mapM (Field.traverse f)).outcome g = (.ok ys, g')) :
    ys.map Field.name = xs.map Field.name := by
  induction xs generalizing ys g with
  | nil =>
    obtain ⟨rfl, -⟩ : ys = [] ∧ g' = g := by simpa [eq_comm] using h
    rfl
  | cons x xs ih =>
    obtain ⟨y, rest, g₁, hy, hrest, rfl⟩ := outcome_mapM_cons.1 h
    rw [List.map_cons, List.map_cons, (outcome_traverse.1 hy).1, ih hrest]

/-- What every step yields and what stays true of it in later registries is true of the results of
all steps at the end. -/
theorem map_of_mapM {γ : Type} {f : α → Elaboration ε β} {p : α → γ} {q : β → γ}
    {I : Registry → β → Prop} {xs : List α} {ys : List β} {g g' : Registry}
    (hI : ∀ {g g' y}, g.Grows g' → I g y → I g' y) (hx : ∀ x ∈ xs, (f x).Extends)
    (hf : ∀ x ∈ xs, ∀ g y g', (f x).outcome g = (.ok y, g') → I g' y ∧ q y = p x)
    (h : (xs.mapM f).outcome g = (.ok ys, g')) :
    (∀ y ∈ ys, I g' y) ∧ ys.map q = xs.map p := by
  induction xs generalizing ys g with
  | nil =>
    obtain ⟨rfl, -⟩ : ys = [] ∧ g' = g := by simpa [eq_comm] using h
    simp
  | cons x xs ih =>
    obtain ⟨y, rest, g₁, hy, hrest, rfl⟩ := outcome_mapM_cons.1 h
    obtain ⟨hIy, hqy⟩ := hf x List.mem_cons_self g y g₁ hy
    have hmem {z : α} (hz : z ∈ xs) : z ∈ x :: xs := List.mem_cons_of_mem x hz
    have hg : g₁.Grows g' := (Extends.mapM fun z hz => hx z (hmem hz)).grows hrest
    obtain ⟨hall, hmap⟩ := ih (fun z hz => hx z (hmem hz)) (fun z hz => hf z (hmem hz)) hrest
    refine ⟨List.forall_mem_cons.2 ⟨hI hg hIy, hall⟩, ?_⟩
    rw [List.map_cons, List.map_cons, hqy, hmap]

theorem forall₂_of_mapM {f : α → Elaboration ε β} {xs : List α} {ys : List β} {g g' : Registry}
    (hx : ∀ x ∈ xs, (f x).Extends) (h : (xs.mapM f).outcome g = (.ok ys, g')) :
    List.Forall₂ (fun x y => ∃ g₁ g₂, g.Grows g₁ ∧ (f x).outcome g₁ = (.ok y, g₂) ∧ g₂.Grows g')
      xs ys := by
  induction xs generalizing ys g with
  | nil =>
    obtain ⟨rfl, -⟩ : ys = [] ∧ g' = g := by simpa [eq_comm] using h
    exact .nil
  | cons x xs ih =>
    obtain ⟨y, rest, g₁, hy, hrest, rfl⟩ := outcome_mapM_cons.1 h
    have hxs : ∀ z ∈ xs, (f z).Extends := fun z hz => hx z (List.mem_cons_of_mem x hz)
    refine .cons ⟨g, g₁, .refl, hy, (Extends.mapM hxs).grows hrest⟩ ((ih hxs hrest).imp ?_)
    rintro z w ⟨g₂, g₃, hg, hw, hg'⟩
    exact ⟨g₂, g₃, ((hx x List.mem_cons_self).grows hy).trans hg, hw, hg'⟩

theorem mapM_of_forall₂ {f : α → Elaboration ε β} {xs : List α} {ys : List β} {g : Registry}
    (h : List.Forall₂ (fun x y => (f x).outcome g = (.ok y, g)) xs ys) :
    (xs.mapM f).outcome g = (.ok ys, g) := by
  induction h with
  | nil => rfl
  | @cons x y xs ys hx _ ih => exact outcome_mapM_cons.2 ⟨y, ys, g, hx, ih, rfl⟩

end Elaboration

end RecordLens
