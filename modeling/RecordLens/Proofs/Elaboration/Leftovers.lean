import Mathlib.Data.List.TakeWhile
import RecordLens.Literal.Grammar
import RecordLens.Proofs.Elaboration.Checked
import RecordLens.Proofs.Elaboration.Duplicates
import RecordLens.Text.Unicode

/-! What a refused literal leaves behind in the registry. Where a type is expected, it leaves
nothing. Elsewhere it is refused for a record that repeats a name, and by then other records of the
literal have been elaborated: the types of these stay in the registry, and nothing else does. -/

namespace RecordLens

variable {ε α β γ δ : Type}

theorem RecordValue.ofCanonical_again {values : List (Field Value)} {g g' : Registry}
    (hg : ((ofCanonical values).outcome g).2.Grows g') :
    (ofCanonical values).outcome g' = (((ofCanonical values).outcome g).1, g') := by
  let build (found : RecordType × Registry) : RecordValue × Registry :=
    (⟨found.1, values.map Field.value⟩, found.2)
  exact congrArg build (Registry.intern_again hg)

namespace RecordExpr

/-- Of records in the order in which they are looked at, those that have been elaborated when the
first one is found that repeats a name: they stand in front of it, and it is not inside of them. -/
def finished (whole : RecordExpr α → Prop) [DecidablePred whole] (records : List (RecordExpr α)) :
    List (RecordExpr α) :=
  (records.takeWhile fun r => (r.fields.map FieldExpr.name).Nodup).filter fun r => whole r

/-- The records are elaborated one after the other, from the first registry to the second. -/
inductive Enrolled (elaborate : RecordExpr α → Elaboration ε β) :
    Registry → List (RecordExpr α) → Registry → Prop
  | nil (g : Registry) : Enrolled elaborate g [] g
  | cons {g g₁ g' : Registry} {r : RecordExpr α} {rs : List (RecordExpr α)} {b : β}
      (h : (elaborate r).outcome g = (.ok b, g₁)) (hs : Enrolled elaborate g₁ rs g') :
      Enrolled elaborate g (r :: rs) g'

def Known (elaborate : RecordExpr α → Elaboration ε β) (g : Registry)
    (records : List (RecordExpr α)) : Prop :=
  ∀ r ∈ records, ∃ b, (elaborate r).outcome g = (.ok b, g)

section Enrolled

variable {elaborate : RecordExpr α → Elaboration ε β} {rs ss : List (RecordExpr α)}
  {g g₁ g' : Registry}

theorem Enrolled.append (h : Enrolled elaborate g rs g₁) (hs : Enrolled elaborate g₁ ss g') :
    Enrolled elaborate g (rs ++ ss) g' := by
  induction h with
  | nil => exact hs
  | cons hr _ ih => exact .cons hr (ih hs)

theorem Known.enrolled (h : Known elaborate g rs) : Enrolled elaborate g rs g := by
  induction rs with
  | nil => exact .nil g
  | cons r rs ih =>
    obtain ⟨⟨b, hb⟩, hrest⟩ := List.forall_mem_cons.1 h
    exact .cons hb (ih hrest)

theorem Enrolled.grows (h : Enrolled elaborate g rs g') (hx : ∀ r, (elaborate r).Extends) :
    g.Grows g' := by
  induction h with
  | nil => exact .refl
  | cons hr _ ih => exact ((hx _).grows hr).trans ih

/-- Nothing has been entered for the records if and only if all of them were known. -/
theorem Enrolled.eq_iff (h : Enrolled elaborate g rs g') (hx : ∀ r, (elaborate r).Extends) :
    g' = g ↔ Known elaborate g rs := by
  induction h with
  | nil => exact ⟨fun _ => nofun, fun _ => rfl⟩
  | @cons g g₁ g' r rs b hr hs ih =>
    rw [Known, List.forall_mem_cons]
    constructor
    · intro he
      obtain rfl : g₁ = g := ((hx r).grows hr).eq_between (hs.grows hx) he
      exact ⟨⟨b, hr⟩, ih.1 he⟩
    · rintro ⟨⟨c, hc⟩, hrest⟩
      obtain ⟨-, rfl⟩ := Prod.mk.inj (hr.symm.trans hc)
      exact ih.2 hrest

end Enrolled

section Finished

variable {whole : RecordExpr α → Prop} [DecidablePred whole] {rs : List (RecordExpr α)}

theorem finished_cons_of_whole {r : RecordExpr α} (hn : (r.fields.map FieldExpr.name).Nodup)
    (h : whole r) (ss : List (RecordExpr α)) :
    finished whole (r :: ss) = r :: finished whole ss := by
  rw [finished, List.takeWhile_cons_of_pos (by simpa using hn),
    List.filter_cons_of_pos (by simpa using h), finished]

theorem finished_append_of_whole (hwhole : ∀ r, whole r → (r.fields.map FieldExpr.name).Nodup)
    (h : ∀ r ∈ rs, whole r) (ss : List (RecordExpr α)) :
    finished whole (rs ++ ss) = rs ++ finished whole ss := by
  induction rs with
  | nil => rfl
  | cons r rs ih =>
    obtain ⟨hr, hrs⟩ := List.forall_mem_cons.1 h
    rw [List.cons_append, finished_cons_of_whole (hwhole r hr) hr, ih hrs, List.cons_append]

theorem finished_append_of_repeats (h : ∃ r ∈ rs, ¬(r.fields.map FieldExpr.name).Nodup)
    (ss : List (RecordExpr α)) : finished whole (rs ++ ss) = finished whole rs := by
  obtain ⟨r, hr, hrepeats⟩ := h
  rw [finished, List.takeWhile_append, if_neg, finished]
  intro hlength
  have hall := List.takeWhile_eq_self_iff.1 ((List.takeWhile_prefix _).eq_of_length hlength)
  exact hrepeats (of_decide_eq_true (hall r hr))

theorem finished_cons_of_repeats {r : RecordExpr α} (h : ¬(r.fields.map FieldExpr.name).Nodup)
    (ss : List (RecordExpr α)) : finished whole (r :: ss) = [] := by
  rw [finished, List.takeWhile_cons_of_neg (by simpa using h), List.filter_nil]

theorem finished_cons_of_not_whole {r : RecordExpr α} (hn : (r.fields.map FieldExpr.name).Nodup)
    (h : ¬whole r) (ss : List (RecordExpr α)) :
    finished whole (r :: ss) = finished whole ss := by
  rw [finished, List.takeWhile_cons_of_pos (by simpa using hn),
    List.filter_cons_of_neg (by simpa using h), finished]

end Finished

/-- What is true behind a step that has succeeded: the records have been elaborated, and later
registries know both them and the result. -/
structure Settled (elaborate : RecordExpr α → Elaboration ε β) (whole : RecordExpr α → Prop)
    (x : Elaboration ε γ) (records : List (RecordExpr α)) (g : Registry) (a : γ) (g' : Registry) :
    Prop where
  whole : ∀ r ∈ records, whole r
  enrolled : Enrolled elaborate g records g'
  again : ∀ g'' : Registry, g'.Grows g'' → x.outcome g'' = (.ok a, g'')
  known : ∀ g'' : Registry, g'.Grows g'' → Known elaborate g'' records

def Settles (elaborate : RecordExpr α → Elaboration ε β) (whole : RecordExpr α → Prop)
    (x : Elaboration ε γ) (records : List (RecordExpr α)) : Prop :=
  ∀ g a g', x.outcome g = (.ok a, g') → Settled elaborate whole x records g a g'

/-- Whenever the step fails it is for one of the records, and the finished ones are left. -/
def Leaves (elaborate : RecordExpr α → Elaboration ε β) (whole : RecordExpr α → Prop)
    [DecidablePred whole] (x : Elaboration ε γ) (records : List (RecordExpr α)) : Prop :=
  ∀ g e g', x.outcome g = (.error e, g') →
    (∃ r ∈ records, ¬(r.fields.map FieldExpr.name).Nodup) ∧
      Enrolled elaborate g (finished whole records) g'

section Steps

open Elaboration

variable {elaborate : RecordExpr α → Elaboration ε β} {whole : RecordExpr α → Prop}
  {x : Elaboration ε γ} {records : List (RecordExpr α)} {l : RecordExpr α}
  {enter : γ → Interning β} {refuse : DuplicateField → ε}

theorem Settles.map (h : Settles elaborate whole x records) (k : γ → δ) :
    Settles elaborate whole (do return k (← x)) records := by
  intro g b g' hb
  obtain ⟨a, g₁, ha, hp⟩ := outcome_bind_ok.1 hb
  obtain ⟨rfl, rfl⟩ : k a = b ∧ g₁ = g' := by simpa using hp
  have hs := h g a g₁ ha
  exact ⟨hs.whole, hs.enrolled,
    fun g'' hg => outcome_bind_ok.2 ⟨a, g'', hs.again g'' hg, rfl⟩, hs.known⟩

theorem Settles.traverse {f : FieldName → γ → Elaboration ε δ} {y : Field γ}
    (h : Settles elaborate whole (f y.name y.value) records) :
    Settles elaborate whole (y.traverse f) records := h.map _

theorem Settles.pure (a : γ) : Settles elaborate whole (Pure.pure a) [] := by
  intro g b g' hb
  obtain ⟨rfl, rfl⟩ : b = a ∧ g' = g := by simpa [eq_comm] using hb
  exact ⟨nofun, .nil _, fun _ _ => rfl, fun _ _ => nofun⟩

theorem Settles.mapM {f : γ → Elaboration ε δ} {own : γ → List (RecordExpr α)} {ys : List γ}
    (hx : ∀ y ∈ ys, (f y).Extends) (h : ∀ y ∈ ys, Settles elaborate whole (f y) (own y)) :
    Settles elaborate whole (ys.mapM f) (ys.flatMap own) := by
  induction ys with
  | nil => exact .pure []
  | cons y ys ih =>
    obtain ⟨hxy, hxs⟩ := List.forall_mem_cons.1 hx
    obtain ⟨hy, hys⟩ := List.forall_mem_cons.1 h
    intro g a g' ha
    obtain ⟨b, bs, g₁, hb, hbs, rfl⟩ := outcome_mapM_cons.1 ha
    have hg : g₁.Grows g' := (Extends.mapM hxs).grows hbs
    have hfirst := hy g b g₁ hb
    have hrest := ih hxs hys g₁ bs g' hbs
    rw [List.flatMap_cons]
    refine ⟨List.forall_mem_append.2 ⟨hfirst.whole, hrest.whole⟩,
      hfirst.enrolled.append hrest.enrolled, fun g'' hg'' => ?_, fun g'' hg'' => ?_⟩
    · exact outcome_mapM_cons.2
        ⟨b, bs, g'', hfirst.again g'' (hg.trans hg''), hrest.again g'' hg'', rfl⟩
    · exact List.forall_mem_append.2
        ⟨hfirst.known g'' (hg.trans hg''), hrest.known g'' hg''⟩

theorem Settles.record (heq : elaborate l = match FieldExpr.clash? l.fields with
      | some clash => .ofExcept (.error (refuse clash))
      | none => x >>= fun a => liftM (enter a))
    (hl : (l.fields.map FieldExpr.name).Nodup → (∀ r ∈ records, whole r) → whole l)
    (hx : Settles elaborate whole x records)
    (hgrows : (l.fields.map FieldExpr.name).Nodup → ∀ g a g₁, x.outcome g = (.ok a, g₁) →
      g₁.Grows ((enter a).outcome g₁).2)
    (hagain : ∀ a (g g' : Registry), ((enter a).outcome g).2.Grows g' →
      (enter a).outcome g' = (((enter a).outcome g).1, g')) :
    Settles elaborate whole (elaborate l) (l :: records) := by
  intro g b g' hb
  cases hc : FieldExpr.clash? l.fields with
  | some clash =>
    rw [heq, hc] at hb
    cases hb
  | none =>
    have hn := FieldExpr.clash?_eq_none_iff.1 hc
    rw [hc] at heq
    obtain ⟨a, g₁, ha, hrest⟩ := outcome_bind_ok.1 (heq ▸ hb)
    obtain ⟨rfl, rfl⟩ : ((enter a).outcome g₁).1 = b ∧ ((enter a).outcome g₁).2 = g' := by
      simpa using hrest
    have hg := hgrows hn g a g₁ ha
    have hs := hx g a g₁ ha
    have hlater : ∀ g'' : Registry, ((enter a).outcome g₁).2.Grows g'' →
        (elaborate l).outcome g'' = (.ok ((enter a).outcome g₁).1, g'') := by
      intro g'' hg''
      rw [heq, outcome_bind, hs.again g'' (hg.trans hg'')]
      show (liftM (enter a) : Elaboration ε β).outcome g'' = _
      rw [outcome_lift, hagain a g₁ g'' hg'']
    -- what is inside of the record is entered before it, so that behind it all of that is known
    have hknown : ∀ g'' : Registry, ((enter a).outcome g₁).2.Grows g'' →
        Known elaborate g'' records := fun g'' hg'' => hs.known g'' (hg.trans hg'')
    exact ⟨List.forall_mem_cons.2 ⟨hl hn hs.whole, hs.whole⟩,
      .cons hb (hknown _ .refl).enrolled, hlater,
      fun g'' hg'' => List.forall_mem_cons.2 ⟨⟨_, hlater g'' hg''⟩, hknown g'' hg''⟩⟩

variable [DecidablePred whole]

theorem Leaves.map (h : Leaves elaborate whole x records) (k : γ → δ) :
    Leaves elaborate whole (do return k (← x)) records :=
  fun g e g' he => h g e g' (outcome_bind_pure_error_iff.1 he)

theorem Leaves.traverse {f : FieldName → γ → Elaboration ε δ} {y : Field γ}
    (h : Leaves elaborate whole (f y.name y.value) records) :
    Leaves elaborate whole (y.traverse f) records := h.map _

/-- Of steps one after the other the first that fails leaves what is finished of its own records,
behind all records of the steps before it. -/
theorem Leaves.mapM (hwhole : ∀ r, whole r → (r.fields.map FieldExpr.name).Nodup)
    {f : γ → Elaboration ε δ} {own : γ → List (RecordExpr α)} {ys : List γ}
    (hs : ∀ y ∈ ys, Settles elaborate whole (f y) (own y))
    (h : ∀ y ∈ ys, Leaves elaborate whole (f y) (own y)) :
    Leaves elaborate whole (ys.mapM f) (ys.flatMap own) := by
  induction ys with
  | nil => exact fun g e g' he => by cases he
  | cons y ys ih =>
    obtain ⟨hsy, hss⟩ := List.forall_mem_cons.1 hs
    obtain ⟨hy, hys⟩ := List.forall_mem_cons.1 h
    intro g e g' he
    rw [List.mapM_cons, outcome_bind_error_iff] at he
    rw [List.flatMap_cons]
    rcases he with he | ⟨b, g₁, hb, he⟩
    · obtain ⟨hrepeats, henrolled⟩ := hy g e g' he
      rw [finished_append_of_repeats hrepeats]
      obtain ⟨r, hr, hrepeats⟩ := hrepeats
      exact ⟨⟨r, List.mem_append_left _ hr, hrepeats⟩, henrolled⟩
    · obtain ⟨⟨r, hr, hrepeats⟩, henrolled⟩ :=
        ih hss hys g₁ e g' (outcome_bind_pure_error_iff.1 he)
      have hfirst := hsy g b g₁ hb
      rw [finished_append_of_whole hwhole hfirst.whole]
      exact ⟨⟨r, List.mem_append_right _ hr, hrepeats⟩, hfirst.enrolled.append henrolled⟩

/-- A record is refused for its own names before anything in it is looked at, or for a record inside
of it, and then it is not entered itself. -/
theorem Leaves.record (heq : elaborate l = match FieldExpr.clash? l.fields with
      | some clash => .ofExcept (.error (refuse clash))
      | none => x >>= fun a => liftM (enter a))
    (hl : whole l → ∀ r ∈ records, (r.fields.map FieldExpr.name).Nodup)
    (hx : Leaves elaborate whole x records) :
    Leaves elaborate whole (elaborate l) (l :: records) := by
  intro g e g' he
  cases hc : FieldExpr.clash? l.fields with
  | some clash =>
    have hrepeats : ¬(l.fields.map FieldExpr.name).Nodup := by
      rw [← FieldExpr.clash?_eq_none_iff, hc]
      nofun
    rw [heq, hc] at he
    obtain ⟨-, rfl⟩ := Prod.mk.inj he
    rw [finished_cons_of_repeats hrepeats]
    exact ⟨⟨l, List.mem_cons_self, hrepeats⟩, .nil _⟩
  | none =>
    rw [heq, hc, outcome_bind_error_iff] at he
    rcases he with he | ⟨a, g₁, -, he⟩
    · -- the record stands in front of the one it is refused for, but around it
      obtain ⟨⟨r, hr, hrepeats⟩, henrolled⟩ := hx g e g' he
      rw [finished_cons_of_not_whole (FieldExpr.clash?_eq_none_iff.1 hc) fun hwhole =>
        hrepeats (hl hwhole r hr)]
      exact ⟨⟨r, List.mem_cons_of_mem l hr, hrepeats⟩, henrolled⟩
    · rw [outcome_lift] at he
      cases he

end Steps

/-- Behind a refusal the records have been elaborated and nothing else has been done; so the
registry is as it was if and only if it knew them all. -/
structure Leftover (elaborate : RecordExpr α → Elaboration ε β) (g : Registry)
    (records : List (RecordExpr α)) (g' : Registry) : Prop where
  enrolled : Enrolled elaborate g records g'
  unchanged_iff : g' = g ↔ Known elaborate g records

theorem Leaves.leftover {elaborate : RecordExpr α → Elaboration ε β} {whole : RecordExpr α → Prop}
    [DecidablePred whole] {x : Elaboration ε γ} {records : List (RecordExpr α)}
    (h : Leaves elaborate whole x records) (hx : ∀ r, (elaborate r).Extends) {g g' : Registry}
    {e : ε} (he : x.outcome g = (.error e, g')) :
    Leftover elaborate g (finished whole records) g' :=
  ⟨(h g e g' he).2, (h g e g' he).2.eq_iff hx⟩

end RecordExpr

open Elaboration RecordExpr

namespace TypeExpr

theorem records_flat {r : RecordExpr TypeExpr} (h : ∀ f ∈ r.fields, f.item.records = []) :
    (record r).records = [r] := by
  rw [records_record, List.flatMap_eq_nil_iff.2 (FieldExpr.forall_mem_sorted.2 h)]

theorem distinct_record_iff {r : RecordExpr TypeExpr} :
    (record r).Distinct ↔ (r.fields.map FieldExpr.name).Nodup ∧
      ∀ q ∈ (Field.sorted (r.fields.map FieldExpr.field)).flatMap fun f => f.value.records,
        (q.fields.map FieldExpr.name).Nodup := by
  rw [distinct_iff_records, records_record, List.forall_mem_cons]

instance (e : TypeExpr) : Decidable e.Distinct := decidable_of_iff _ distinct_iff_records.symm

def finished (e : TypeExpr) : List (RecordExpr TypeExpr) :=
  RecordExpr.finished (fun r => (record r).Distinct) e.records

theorem extends_elaborateRecord (r : RecordExpr TypeExpr) : (elaborateRecord r).Extends := fun g =>
  (ensures_elaborateRecord (P := fun _ => False) r g).1.grows

theorem settles_elaborateRecord {r : RecordExpr TypeExpr}
    (h : ∀ f ∈ r.fields, Settles elaborateRecord (fun r => (record r).Distinct) f.item.elaborate
      f.item.records) :
    Settles elaborateRecord (fun r => (record r).Distinct) (elaborateRecord r)
      (record r).records := by
  have hitems : ∀ f ∈ Field.sorted (r.fields.map FieldExpr.field),
      Settles elaborateRecord (fun r => (record r).Distinct) (f.traverse fun _ => elaborate)
        f.value.records :=
    FieldExpr.forall_mem_sorted.2 fun x hx => .traverse (h x hx)
  rw [records_record]
  refine .record (recordType_eq r.fields) (fun hn hinner => ?_)
    (.mapM (fun f _ => .traverse f.value.extends_elaborate) hitems) (fun hn g types g₁ htypes => ?_)
    fun types g g' => Registry.intern_again
  · exact distinct_record_iff.2 ⟨hn, fun q hq => (distinct_record_iff.1 (hinner q hq)).1⟩
  · have ha : Field.Ascending (Field.sorted (r.fields.map FieldExpr.field)) :=
      Field.ascending_sorted (FieldExpr.names_field r.fields ▸ hn)
    exact .intern .refl (ha.of_names_eq (names_of_mapM_traverse htypes))

theorem settles_elaborate (e : TypeExpr) :
    Settles elaborateRecord (fun r => (record r).Distinct) e.elaborate e.records := by
  induction e using TypeExpr.induction with
  | named name args span ih =>
    rw [records_named, elaborate, elaborateArgs_eq_mapM]
    exact (Settles.mapM (fun a _ => a.extends_elaborate) ih).map (Ty.named name)
  | record fields span ih =>
    exact (settles_elaborateRecord (r := ⟨fields, span⟩) ih).map RecordType.ty

theorem leaves_elaborateRecord {r : RecordExpr TypeExpr}
    (h : ∀ f ∈ r.fields, Leaves elaborateRecord (fun r => (record r).Distinct) f.item.elaborate
      f.item.records) :
    Leaves elaborateRecord (fun r => (record r).Distinct) (elaborateRecord r)
      (record r).records := by
  have hitems : ∀ f ∈ Field.sorted (r.fields.map FieldExpr.field),
      Leaves elaborateRecord (fun r => (record r).Distinct) (f.traverse fun _ => elaborate)
        f.value.records :=
    FieldExpr.forall_mem_sorted.2 fun x hx => .traverse (h x hx)
  rw [records_record]
  exact .record (recordType_eq r.fields) (fun hr => (distinct_record_iff.1 hr).2)
    (.mapM (fun q hq => (distinct_record_iff.1 hq).1)
      (fun f _ => .traverse f.value.settles_elaborate) hitems)

theorem leaves_elaborate (e : TypeExpr) :
    Leaves elaborateRecord (fun r => (record r).Distinct) e.elaborate e.records := by
  induction e using TypeExpr.induction with
  | named name args span ih =>
    rw [records_named, elaborate, elaborateArgs_eq_mapM]
    exact (Leaves.mapM (fun q hq => (distinct_record_iff.1 hq).1)
      (fun a _ => a.settles_elaborate) ih).map (Ty.named name)
  | record fields span ih =>
    exact (leaves_elaborateRecord (r := ⟨fields, span⟩) ih).map RecordType.ty

end TypeExpr

namespace Expr

theorem records_flat {r : RecordExpr Expr} (h : ∀ f ∈ r.fields, f.item.records = []) :
    (record r).records = [r] := by
  rw [records_record, List.flatMap_eq_nil_iff.2 (FieldExpr.forall_mem_sorted.2 h)]

theorem distinct_record_iff {r : RecordExpr Expr} :
    (record r).Distinct ↔ (r.fields.map FieldExpr.name).Nodup ∧
      ∀ q ∈ (Field.sorted (r.fields.map FieldExpr.field)).flatMap fun f => f.value.records,
        (q.fields.map FieldExpr.name).Nodup := by
  rw [distinct_iff_records, records_record, List.forall_mem_cons]

instance (e : Expr) : Decidable e.Distinct := decidable_of_iff _ distinct_iff_records.symm

def finished (e : Expr) : List (RecordExpr Expr) :=
  RecordExpr.finished (fun r => (record r).Distinct) e.records

abbrev inferRecord (r : RecordExpr Expr) : Elaboration ValueError RecordValue :=
  elaborateRecord r none

theorem extends_inferRecord (r : RecordExpr Expr) : (inferRecord r).Extends := by
  intro g
  have h : (inferRecord r).Ensures (fun _ => False) g _ := ensures_elaborateRecord r nofun
  exact h.1.grows

theorem inferRecord_eq (r : RecordExpr Expr) :
    inferRecord r = match FieldExpr.clash? r.fields with
      | some clash => .ofExcept (.error (.duplicate clash))
      | none => (do
        let values ← (Field.sorted (r.fields.map FieldExpr.field)).mapM
          (Field.traverse fun _ (e : Expr) => e.elaborate none [])
        liftM (RecordValue.ofCanonical values)) := by
  have hpath : (fun name (e : Expr) => e.elaborate none ([] ++ [name])) =
      fun _ e => e.elaborate none [] :=
    funext₂ fun name e => e.elaborate_none_path _ _
  have h := recordValue_none_eq r.fields r.span []
  rw [inferred_map, hpath] at h
  exact h

theorem settles_inferRecord {r : RecordExpr Expr}
    (h : ∀ f ∈ r.fields, Settles inferRecord (fun r => (record r).Distinct)
      (f.item.elaborate none []) f.item.records) :
    Settles inferRecord (fun r => (record r).Distinct) (inferRecord r) (record r).records := by
  have hitems : ∀ f ∈ Field.sorted (r.fields.map FieldExpr.field),
      Settles inferRecord (fun r => (record r).Distinct)
        (f.traverse fun _ (e : Expr) => e.elaborate none []) f.value.records :=
    FieldExpr.forall_mem_sorted.2 fun x hx => .traverse (h x hx)
  rw [records_record]
  refine .record (inferRecord_eq r) (fun hn hinner => ?_)
    (.mapM (fun f _ => .traverse (f.value.extends_elaborate [])) hitems)
    (fun hn g values g₁ hvalues => ?_) fun values g g' => RecordValue.ofCanonical_again
  · exact distinct_record_iff.2 ⟨hn, fun q hq => (distinct_record_iff.1 (hinner q hq)).1⟩
  · have ha : Field.Ascending (Field.sorted (r.fields.map FieldExpr.field)) :=
      Field.ascending_sorted (FieldExpr.names_field r.fields ▸ hn)
    exact .intern .refl ((ha.of_names_eq (names_of_mapM_traverse hvalues)).map Value.typeOf)

theorem settles_elaborate (e : Expr) :
    Settles inferRecord (fun r => (record r).Distinct) (e.elaborate none []) e.records := by
  induction e using Expr.induction with
  | scalar s span =>
    rw [records_scalar]
    exact .pure (Value.scalar s)
  | record fields span ih =>
    exact (settles_inferRecord (r := ⟨fields, span⟩) ih).map RecordValue.value

theorem leaves_inferRecord {r : RecordExpr Expr}
    (h : ∀ f ∈ r.fields, Leaves inferRecord (fun r => (record r).Distinct)
      (f.item.elaborate none []) f.item.records) :
    Leaves inferRecord (fun r => (record r).Distinct) (inferRecord r) (record r).records := by
  have hitems : ∀ f ∈ Field.sorted (r.fields.map FieldExpr.field),
      Leaves inferRecord (fun r => (record r).Distinct)
        (f.traverse fun _ (e : Expr) => e.elaborate none []) f.value.records :=
    FieldExpr.forall_mem_sorted.2 fun x hx => .traverse (h x hx)
  rw [records_record]
  exact .record (inferRecord_eq r) (fun hr => (distinct_record_iff.1 hr).2)
    (.mapM (fun q hq => (distinct_record_iff.1 hq).1)
      (fun f _ => .traverse f.value.settles_elaborate) hitems)

theorem leaves_elaborate (e : Expr) :
    Leaves inferRecord (fun r => (record r).Distinct) (e.elaborate none []) e.records := by
  induction e using Expr.induction with
  | scalar s span => exact fun g e g' he => by cases he
  | record fields span ih =>
    exact (leaves_inferRecord (r := ⟨fields, span⟩) ih).map RecordValue.value

end Expr

/-- Where a literal is refused with no type expected, its finished records have been elaborated and
nothing else has been done, so the registry is as it was if and only if it knew all of them. Where a
type is expected, the registry is as it was. -/
theorem Elaboration.refused_leaves_finished (g : Registry) :
    (∀ (e : TypeExpr) d g', e.elaborate.outcome g = (.error d, g') →
      Leftover TypeExpr.elaborateRecord g e.finished g') ∧
    (∀ (l : RecordExpr TypeExpr) d g', (TypeExpr.elaborateRecord l).outcome g = (.error d, g') →
      Leftover TypeExpr.elaborateRecord g (TypeExpr.record l).finished g') ∧
    (∀ (e : Expr) d g', (e.elaborate none []).outcome g = (.error d, g') →
      Leftover Expr.inferRecord g e.finished g') ∧
    (∀ (l : RecordExpr Expr) d g', (Expr.elaborateRecord l none).outcome g = (.error d, g') →
      Leftover Expr.inferRecord g (Expr.record l).finished g') ∧
    (∀ (e : Expr) ty d g', (e.elaborate (some ty) []).outcome g = (.error d, g') → g' = g) ∧
    ∀ (l : RecordExpr Expr) r d g',
      (Expr.elaborateRecord l (some r)).outcome g = (.error d, g') → g' = g := by
  have hchecked (e : Expr) (ty : Ty) (d : ValueError) (g' : Registry)
      (he : (e.elaborate (some ty) []).outcome g = (.error d, g')) : g' = g :=
    ((e.checks_elaborate ty []).eq_ofExcept he).2
  refine ⟨fun e d g' => e.leaves_elaborate.leftover TypeExpr.extends_elaborateRecord,
    fun l d g' => ?_, fun e d g' => e.leaves_elaborate.leftover Expr.extends_inferRecord,
    fun l d g' => ?_, hchecked, fun l r d g' h => ?_⟩
  · exact (TypeExpr.leaves_elaborateRecord fun f _ => f.item.leaves_elaborate).leftover
      TypeExpr.extends_elaborateRecord
  · exact (Expr.leaves_inferRecord fun f _ => f.item.leaves_elaborate).leftover
      Expr.extends_inferRecord
  · exact hchecked (.record l) r.ty d g' (outcome_bind_pure_error_iff.2 h)

namespace Elaboration

def innerType : RecordExpr TypeExpr := ⟨[⟨.label "x", default, .named "Int" [] default⟩], default⟩

def twiceType : RecordExpr TypeExpr :=
  ⟨[⟨.label "y", default, .named "Int" [] default⟩,
    ⟨.label "y", default, .named "Int" [] default⟩], default⟩

/-- `{a :: {x :: Int}, b :: {y :: Int, y :: Int}}` -/
def outerType : RecordExpr TypeExpr :=
  ⟨[⟨.label "a", default, .record innerType⟩, ⟨.label "b", default, .record twiceType⟩], default⟩

theorem finished_outerType : (TypeExpr.record outerType).finished = [innerType] := by
  have hinner : (TypeExpr.record innerType).records = [innerType] :=
    TypeExpr.records_flat (by simp [innerType])
  have htwice : (TypeExpr.record twiceType).records = [twiceType] :=
    TypeExpr.records_flat (by simp [twiceType])
  have hrecords : (TypeExpr.record outerType).records = [outerType, innerType, twiceType] := by
    have ha : Field.Ascending (outerType.fields.map FieldExpr.field) := by
      unfold Field.Ascending
      decide
    rw [TypeExpr.records_record, ha.sorted_eq]
    simp [outerType, FieldExpr.field, hinner, htwice]
  have hwhole : (TypeExpr.record innerType).Distinct := by
    rw [TypeExpr.distinct_iff_records, hinner]
    decide
  have hnot : ¬(TypeExpr.record outerType).Distinct := by
    rw [TypeExpr.distinct_iff_records, hrecords]
    decide
  rw [TypeExpr.finished, hrecords, finished_cons_of_not_whole (by decide) hnot,
    finished_cons_of_whole (by decide) hwhole, finished_cons_of_repeats (by decide)]

def innerValue : RecordExpr Expr := ⟨[⟨.label "z", default, .scalar (.int 1) default⟩], default⟩

def twiceValue : RecordExpr Expr :=
  ⟨[⟨.label "y", default, .scalar (.int 1) default⟩,
    ⟨.label "y", default, .scalar (.int 2) default⟩], default⟩

/-- `{a = {z = 1}, b = {y = 1, y = 2}}` -/
def outerValue : RecordExpr Expr :=
  ⟨[⟨.label "a", default, .record innerValue⟩, ⟨.label "b", default, .record twiceValue⟩], default⟩

theorem finished_outerValue : (Expr.record outerValue).finished = [innerValue] := by
  have hinner : (Expr.record innerValue).records = [innerValue] :=
    Expr.records_flat (by simp [innerValue])
  have htwice : (Expr.record twiceValue).records = [twiceValue] :=
    Expr.records_flat (by simp [twiceValue])
  have hrecords : (Expr.record outerValue).records = [outerValue, innerValue, twiceValue] := by
    have ha : Field.Ascending (outerValue.fields.map FieldExpr.field) := by
      unfold Field.Ascending
      decide
    rw [Expr.records_record, ha.sorted_eq]
    simp [outerValue, FieldExpr.field, hinner, htwice]
  have hwhole : (Expr.record innerValue).Distinct := by
    rw [Expr.distinct_iff_records, hinner]
    decide
  have hnot : ¬(Expr.record outerValue).Distinct := by
    rw [Expr.distinct_iff_records, hrecords]
    decide
  rw [Expr.finished, hrecords, finished_cons_of_not_whole (by decide) hnot,
    finished_cons_of_whole (by decide) hwhole, finished_cons_of_repeats (by decide)]

def repeatedY : DuplicateField := ⟨.label "y", some default, some default⟩

def leftType : Registry := ⟨.registry 0, [[⟨.label "x", .primitive .int⟩]]⟩

def leftValue : Registry := ⟨.registry 0, [[⟨.label "z", .primitive .int⟩]]⟩

/-- An empty registry is left with the type of the field in front, and refusing the literals once
more leaves it at that. With a type expected it stays empty. -/
theorem refused_leaves_finished_nested :
    (TypeExpr.elaborateRecord outerType).outcome (.empty (.registry 0)) =
        (.error repeatedY, leftType) ∧
      Leftover TypeExpr.elaborateRecord (.empty (.registry 0)) [innerType] leftType ∧
      (TypeExpr.record outerType).elaborate.outcome leftType = (.error repeatedY, leftType) ∧
      Known TypeExpr.elaborateRecord leftType [innerType] ∧
      (Expr.elaborateRecord outerValue none).outcome (.empty (.registry 0)) =
        (.error (.duplicate repeatedY), leftValue) ∧
      Leftover Expr.inferRecord (.empty (.registry 0)) [innerValue] leftValue ∧
      ((Expr.record outerValue).elaborate none []).outcome leftValue =
        (.error (.duplicate repeatedY), leftValue) ∧
      Known Expr.inferRecord leftValue [innerValue] ∧
      (∃ g', ((Expr.record outerValue).elaborate (some (.primitive .int)) []).outcome
        (.empty (.registry 0)) = (.error (.duplicate repeatedY), g') ∧
          g' = .empty (.registry 0)) ∧
      ∃ g', (Expr.elaborateRecord outerValue (some ⟨.registry 0, 0, []⟩)).outcome
        (.empty (.registry 0)) = (.error (.duplicate repeatedY), g') ∧
          g' = .empty (.registry 0) := by
  obtain ⟨-, htype, -, hvalue, hexpr, hrecord⟩ := refused_leaves_finished (.empty (.registry 0))
  obtain ⟨htypeAgain, -⟩ := refused_leaves_finished leftType
  obtain ⟨-, -, hexprAgain, -⟩ := refused_leaves_finished leftValue
  have htypeOnce : (TypeExpr.elaborateRecord outerType).outcome (.empty (.registry 0)) =
      (.error repeatedY, leftType) := by rfl
  have htypeTwice : (TypeExpr.record outerType).elaborate.outcome leftType =
      (.error repeatedY, leftType) := by rfl
  have hvalueOnce : (Expr.elaborateRecord outerValue none).outcome (.empty (.registry 0)) =
      (.error (.duplicate repeatedY), leftValue) := by rfl
  have hvalueTwice : ((Expr.record outerValue).elaborate none []).outcome leftValue =
      (.error (.duplicate repeatedY), leftValue) := by rfl
  have hexprOnce : ((Expr.record outerValue).elaborate (some (.primitive .int)) []).outcome
      (.empty (.registry 0)) = (.error (.duplicate repeatedY), .empty (.registry 0)) := by rfl
  have hrecordOnce : (Expr.elaborateRecord outerValue (some ⟨.registry 0, 0, []⟩)).outcome
      (.empty (.registry 0)) = (.error (.duplicate repeatedY), .empty (.registry 0)) := by rfl
  refine ⟨htypeOnce, finished_outerType ▸ htype _ _ _ htypeOnce, htypeTwice,
    finished_outerType ▸ (htypeAgain _ _ _ htypeTwice).unchanged_iff.1 rfl, hvalueOnce,
    finished_outerValue ▸ hvalue _ _ _ hvalueOnce, hvalueTwice,
    finished_outerValue ▸ (hexprAgain _ _ _ hvalueTwice).unchanged_iff.1 rfl,
    ⟨_, hexprOnce, hexpr _ _ _ _ hexprOnce⟩, ⟨_, hrecordOnce, hrecord _ _ _ _ hrecordOnce⟩⟩

end Elaboration

/-- From the text of a type and from the text of a record value, both refused, an empty registry is
left with an entry. -/
theorem Elaboration.not_refused_leaves_registry :
    (¬∀ (g : Registry) (text : String) (e : TypeExpr), TypeExpr.read usualNesting text = .ok e →
      ∀ d g', e.elaborate.outcome g = (.error d, g') → g'.entries = g.entries) ∧
    ¬∀ (g : Registry) (text : String) (l : RecordExpr Expr),
      Expr.readRecord usualNesting text = .ok l →
      ∀ d g', (Expr.elaborateRecord l none).outcome g = (.error d, g') →
        g'.entries = g.entries := by
  constructor
  · intro hall
    have h : (TypeExpr.read usualNesting
        "\x7ba :: \x7bx :: Int\x7d, b :: \x7by :: Int, y :: Int\x7d\x7d").map
          (fun e => e.elaborate.outcome (.empty (.registry 0))) =
        .ok (.error ⟨.label "y", some ⟨⟨1, 25, 24⟩, 1⟩, some ⟨⟨1, 35, 34⟩, 1⟩⟩,
          ⟨.registry 0, [[⟨.label "x", .primitive .int⟩]]⟩) := by decide +kernel
    obtain ⟨e, he, hresult⟩ := exists_of_map_eq_ok h
    cases hall _ _ e he _ _ hresult
  · intro hall
    have h : (Expr.readRecord usualNesting
        "\x7ba = \x7bz = 1\x7d, b = \x7by = 1, y = 2\x7d\x7d").map
          (fun l => (Expr.elaborateRecord l none).outcome (.empty (.registry 0))) =
        .ok (.error (.duplicate ⟨.label "y", some ⟨⟨1, 20, 19⟩, 1⟩, some ⟨⟨1, 27, 26⟩, 1⟩⟩),
          ⟨.registry 0, [[⟨.label "z", .primitive .int⟩]]⟩) := by decide +kernel
    obtain ⟨l, hl, hresult⟩ := exists_of_map_eq_ok h
    cases hall _ _ l hl _ _ hresult

end RecordLens
