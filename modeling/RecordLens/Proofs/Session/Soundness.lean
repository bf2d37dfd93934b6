import RecordLens.Proofs.Session.Atomicity

/-! Sessions that commands lead to. Their bindings are made of what their registry holds and their
values are well-typed, so that what `get` and `set` find they can read and replace: the errors that
a lens on a foreign or ill-typed value would give do not occur. -/

namespace RecordLens

theorem Leads.handles_subset {t u : Ty} {steps : List Nat} (h : Leads t steps u) :
    u.handles ⊆ t.handles := by
  induction h with
  | here t => exact List.Subset.refl _
  | @down r i f steps t hf _ ih =>
    intro x hx
    rw [Ty.handles_ty]
    exact List.mem_cons_of_mem r (List.mem_flatMap_of_mem (List.mem_of_getElem? hf) (ih hx))

namespace Session

/-- The sessions that inputs lead to. -/
inductive Reachable [Alphabet] : Session → Prop
  | empty : Reachable empty
  | run {s : Session} (h : Reachable s) (input : String) :
      Reachable ((Session.run input).outcome s).2

/-- Bindings are made of entries of the registry, bound values are well-typed, and entries have
orderly names. -/
structure Sound [Alphabet] (s : Session) : Prop where
  types : ∀ name type, s.types.get? name = some type → ∀ r ∈ type.ty.handles, s.registry.Holds r
  wellTyped : ∀ name value, s.values.get? name = some value → value.value.WellTyped
  values : ∀ name value, s.values.get? name = some value →
    ∀ r ∈ value.value.handles, s.registry.Holds r
  orderly : ∀ fields ∈ s.registry.entries, FieldName.Orderly (fields.map Field.name)

theorem sound_empty [Alphabet] : empty.Sound := ⟨nofun, nofun, nofun, nofun⟩

variable {s s' : Session}

section

variable [Alphabet]

theorem Sound.holds_of_over (hs : s.Sound) (h : s.Enriched s') {handles : List RecordType}
    (ho : s'.registry.Over s.Declared handles) : ∀ r ∈ handles, s'.registry.Holds r := by
  intro r hr
  rcases ho r hr with hheld | ⟨name, type, htype, hmem⟩
  · exact hheld
  · exact h.1.grows.holds (hs.types name type htype r hmem)

theorem Sound.enriched (hs : s.Sound) (h : s.Enriched s') : s'.Sound where
  types name type htype r hr := h.1.grows.holds (hs.types name type (h.2.1 ▸ htype) r hr)
  wellTyped name value hvalue := hs.wellTyped name value (h.2.2 ▸ hvalue)
  values name value hvalue r hr := h.1.grows.holds (hs.values name value (h.2.2 ▸ hvalue) r hr)
  orderly fields hfields := (h.1.orderly fields hfields).elim (hs.orderly fields) id

theorem Sound.declare (hs : s.Sound) {name : String} {type : RecordType}
    (htype : ∀ r ∈ type.ty.handles, s.registry.Holds r) :
    Sound { s with types := s.types.put name type } where
  types other bound hbound := by
    rw [Bindings.get?_put] at hbound
    split at hbound
    · exact Option.some.inj hbound ▸ htype
    · exact hs.types other bound hbound
  wellTyped := hs.wellTyped
  values := hs.values
  orderly := hs.orderly

theorem Sound.bind (hs : s.Sound) {name : String} {value : RecordValue}
    (hwell : value.value.WellTyped) (hvalue : ∀ r ∈ value.value.handles, s.registry.Holds r) :
    Sound { s with values := s.values.put name value } where
  types := hs.types
  wellTyped other bound hbound := by
    rw [Bindings.get?_put] at hbound
    split at hbound
    · exact Option.some.inj hbound ▸ hwell
    · exact hs.wellTyped other bound hbound
  values other bound hbound := by
    rw [Bindings.get?_put] at hbound
    split at hbound
    · exact Option.some.inj hbound ▸ hvalue
    · exact hs.values other bound hbound
  orderly := hs.orderly

theorem View.In.built {v : View} (hv : v.In s) : v.lens.Built := by
  obtain ⟨p, hp⟩ := hv.derived
  exact .derive hp

end

theorem View.In.source {v : View} (hv : v.In s) : v.lens.source = v.value.type.ty := by
  obtain ⟨p, hp⟩ := hv.derived
  exact (Lens.deriveAt_ok hp).1

theorem View.In.accepts {v : View} (hv : v.In s) :
    v.lens.source.accepts v.value.value = true := by
  rw [hv.source]
  exact Value.accepts_record v.value.type v.value.values

section

variable [Alphabet]

/-- The lens of a view reads the value. -/
theorem View.In.exists_get {v : View} (hv : v.In s) (hs : s.Sound) :
    ∃ field, v.lens.get v.value.value = .ok field := by
  obtain ⟨field, hfield, -⟩ := hv.built.exists_get (hs.wellTyped _ _ hv.bound) hv.accepts
  exact ⟨field, hfield⟩

theorem Replacement.In.exists_set {r : Replacement} (hr : r.In s) (hs : s.Sound) :
    ∃ updated : RecordValue, r.lens.set r.value.value r.leaf = .ok updated.value ∧
      updated.type = r.value.type ∧ updated.value.WellTyped ∧
      ∀ h ∈ updated.value.handles, s.registry.Holds h := by
  have htarget : r.lens.target.accepts r.leaf = true := Ty.accepts_iff.2 hr.typeOf_leaf
  obtain ⟨w, hset, haccepts, hwell⟩ :=
    hr.built.exists_set (hs.wellTyped _ _ hr.bound) hr.accepts hr.wellTyped htarget
  rw [hr.source] at haccepts
  obtain ⟨values, rfl⟩ := Value.eq_record_of_accepts haccepts
  refine ⟨⟨r.value.type, values⟩, hset, rfl, hwell, fun h hh => ?_⟩
  -- the updated value is made of the old one and of the leaf, and this of a part of the old type
  rcases List.mem_append.1 (Lens.handles_replace_subset (Lens.set_ok.1 hset).2.2 hh) with hh | hh
  · exact hs.values _ _ hr.bound h hh
  · rcases hr.leaf_over h hh with hheld | htype
    · exact hheld
    · refine hs.values _ _ hr.bound h ?_
      have hleads := hr.built.leads.handles_subset htype
      rw [hr.source] at hleads
      rw [RecordValue.value, Value.handles_record]
      exact List.mem_append_left _ hleads

variable {command : String} {result : Except CommandError String}

/-- One command leads from a sound session to a sound one. -/
theorem Effect.sound (h : s.Effect command result s') (hs : s.Sound) : s'.Sound := by
  cases h with
  | abandoned _ _ _ h => exact hs.enriched h
  | declared _ _ _ h htype => exact (hs.enriched h).declare (hs.holds_of_over h htype)
  | bound _ _ _ h hwell hvalue => exact (hs.enriched h).bind hwell (hs.holds_of_over h hvalue)
  | replaced _ r hr updated hset =>
    obtain ⟨w, hw, -, hwell, hheld⟩ := hr.exists_set hs
    obtain rfl := RecordValue.value_injective (Except.ok.inj (hset.symm.trans hw))
    exact hs.bind hwell hheld
  | _ => exact hs

theorem Reachable.sound (h : s.Reachable) : s.Sound := by
  induction h with
  | empty => exact sound_empty
  | run _ input ih => exact (effect_run _ input).sound ih

/-- In a sound session no error comes of a lens. -/
theorem Effect.ordinary {e : CommandError} (h : s.Effect command (.error e) s') (hs : s.Sound) :
    e.Ordinary := by
  cases h with
  | refused _ he => exact he
  | abandoned _ _ he _ => exact he
  | unread v hv m hget =>
    obtain ⟨field, hfield⟩ := hv.exists_get hs
    exact absurd (hget.symm.trans hfield) nofun
  | unset r hr hset =>
    obtain ⟨updated, hupdated, -⟩ := hr.exists_set hs
    exact absurd hupdated (hset updated)

theorem Effect.map_type_of_set {out : String} (h : s.Effect "set" (.ok out) s') (hs : s.Sound)
    (name : String) :
    (s'.values.get? name).map RecordValue.type = (s.values.get? name).map RecordValue.type := by
  cases h with
  | answered hc => exact absurd (by decide) hc
  | declared hc => exact absurd hc (by decide)
  | bound hc => exact absurd hc (by decide)
  | replaced _ r hr updated hset =>
    obtain ⟨w, hw, htype, -⟩ := hr.exists_set hs
    obtain rfl := RecordValue.value_injective (Except.ok.inj (hset.symm.trans hw))
    rw [Bindings.get?_put]
    by_cases hname : r.name = name
    · rw [if_pos hname, ← hname, hr.bound, Option.map_some, Option.map_some, htype]
    · rw [if_neg hname]

theorem outcome_getField {rest : String} {v : View} (h : (view rest).outcome s = (.ok v, s))
    (hs : s.Sound) :
    ∃ field, v.lens.get v.value.value = .ok field ∧
      (getField rest).outcome s = (.ok (field.text ++ " :: " ++ v.lens.target.text), s) := by
  obtain ⟨-, hv⟩ := (ends_view rest).of_ok v s h
  obtain ⟨field, hfield⟩ := hv.exists_get hs
  refine ⟨field, hfield, ?_⟩
  rw [getField_eq, Command.outcome_bind, h]
  simp only [hfield]
  rfl

theorem outcome_setField {rest : String} {r : Replacement}
    (h : (replacement rest).outcome s = (.ok r, s)) (hs : s.Sound) :
    ∃ updated : RecordValue, r.lens.set r.value.value r.leaf = .ok updated.value ∧
      updated.type = r.value.type ∧
      (setField rest).outcome s = (.ok (r.name ++ " = " ++ updated.text),
        { s with values := s.values.put r.name updated }) := by
  obtain ⟨-, hr⟩ := (ends_replacement rest).of_ok r s h
  obtain ⟨updated, hset, htype, -⟩ := hr.exists_set hs
  refine ⟨updated, hset, htype, ?_⟩
  rw [setField_eq, Command.outcome_bind, h]
  simp only [hset]
  rfl

/-- In every session that inputs lead to, bound values are well-typed and, like declared types,
made of entries of the registry, all of which have orderly names. There `get` reads every view and
`set` makes every replacement that it finds, so no input has an error that comes of a lens, and
`set` leaves the types of bound values as they are. -/
theorem Reachable.faultless (h : s.Reachable) :
    (∀ name value, s.values.get? name = some value →
      value.value.WellTyped ∧ ∀ r ∈ value.value.handles, s.registry.Holds r) ∧
    (∀ name type, s.types.get? name = some type → ∀ r ∈ type.ty.handles, s.registry.Holds r) ∧
    (∀ r ∈ s.registry.types, FieldName.Orderly r.names) ∧
    (∀ rest v, (view rest).outcome s = (.ok v, s) → ∃ field,
      v.lens.get v.value.value = .ok field ∧
      (getField rest).outcome s = (.ok (field.text ++ " :: " ++ v.lens.target.text), s)) ∧
    (∀ rest r, (replacement rest).outcome s = (.ok r, s) → ∃ updated : RecordValue,
      r.lens.set r.value.value r.leaf = .ok updated.value ∧ updated.type = r.value.type ∧
      (setField rest).outcome s = (.ok (r.name ++ " = " ++ updated.text),
        { s with values := s.values.put r.name updated })) ∧
    (∀ input e s', (Session.run input).outcome s = (.error e, s') → e.Ordinary) ∧
    ∀ input out s', (Session.run input).outcome s = (.ok out, s') →
      (splitWord input).1 = "set" → ∀ name,
        (s'.values.get? name).map RecordValue.type =
          (s.values.get? name).map RecordValue.type := by
  have hs := h.sound
  refine ⟨fun name value hv => ⟨hs.wellTyped name value hv, hs.values name value hv⟩, hs.types,
    fun r hr => ?_, fun rest v hv => outcome_getField hv hs,
    fun rest r hr => outcome_setField hr hs, fun input e s' he => ?_,
    fun input out s' hout hset => ?_⟩
  · have hentry := (Registry.holds_iff.1 (Registry.mem_types.1 hr)).2
    exact hs.orderly r.fields (List.mem_of_getElem? hentry)
  · have heffect := effect_run s input
    rw [he] at heffect
    exact heffect.ordinary hs
  · have heffect := effect_run s input
    rw [hout, hset] at heffect
    exact heffect.map_type_of_set hs

end

def dayType : RecordType := ⟨.registry 0, 0, [⟨.label "day", .primitive .int⟩]⟩

def ninth : RecordValue := ⟨dayType, [.scalar (.int 9)]⟩

def dated : Session :=
  ⟨⟨.registry 0, [dayType.fields]⟩, [("D", dayType)], [("d", ninth)]⟩

theorem reachable_dated : dated.Reachable := by
  let declared : Session := ⟨⟨.registry 0, [dayType.fields]⟩, [("D", dayType)], []⟩
  have htype : ((Session.run "type D = \x7bday :: Int\x7d").outcome empty).2 = declared := by
    decide +kernel
  have hlet : ((Session.run "let d : D = \x7bday = 9\x7d").outcome declared).2 = dated := by
    decide +kernel
  exact hlet ▸ .run (htype ▸ .run .empty _) _

/-- What is bound in that session is well-typed and held, and a field of it is read and replaced. -/
theorem Reachable.faultless_dated :
    dated.Reachable ∧ dated.values.get? "d" = some ninth ∧ ninth.value.WellTyped ∧
      (∀ r ∈ ninth.value.handles, dated.registry.Holds r) ∧
      (∃ field, (getField "d day").outcome dated = (.ok (field ++ " :: " ++ "Int"), dated)) ∧
      ∃ updated : RecordValue, updated.type = dayType ∧
        (setField "d day = 10").outcome dated = (.ok ("d = " ++ updated.text),
          { dated with values := [("d", updated)] }) := by
  let dayLens : Lens := ⟨dayType.ty, .primitive .int, [.label "day"], [0]⟩
  let v : View := ⟨"d", "day", ninth, dayLens⟩
  have hbound : dated.values.get? "d" = some ninth := by decide +kernel
  have hview : (view "d day").outcome dated = (.ok v, dated) := by decide +kernel
  have hreplacement : (replacement "d day = 10").outcome dated =
      (.ok ⟨v, "10", .scalar (.int 10)⟩, dated) := by decide +kernel
  obtain ⟨hvalues, -, -, hget, hset, -⟩ := reachable_dated.faultless
  have htext : v.lens.target.text = "Int" := by decide +kernel
  obtain ⟨field, -, hfield⟩ := hget "d day" v hview
  rw [htext] at hfield
  obtain ⟨updated, -, htype, hupdated⟩ := hset "d day = 10" _ hreplacement
  exact ⟨reachable_dated, hbound, (hvalues "d" ninth hbound).1, (hvalues "d" ninth hbound).2,
    ⟨field.text, hfield⟩, updated, htype, hupdated⟩

end Session

end RecordLens
