import RecordLens.Proofs.Session.Splitting

/-! What is bound in a session. A value is bound by `let`, which finds the name in front of the
equals sign and reads the value behind it, and may then be replaced by one of its own type; whatever
`let` establishes and such a replacement preserves holds of all that is bound. The names are what
stands between the characters that `let` splits at, without the blanks around it. -/

namespace RecordLens.Session

open Command (Ends)

variable {s s' : Session}

/-- The name in what stands before the equals sign: all of it, or what stands before a colon. -/
def headName (head : String) : String :=
  match Text.splitOnce? (· = ':') head with
  | none => head
  | some (name, _) => Text.trim name

section

variable [Alphabet]

/-- The literal is read, and elaborated as the value in some registry. -/
def Denoted (literal : String) (value : RecordValue) : Prop :=
  ∃ l expected g g', Expr.readRecord usualNesting literal = .ok l ∧
    (Expr.elaborateRecord l expected).outcome g = (.ok value, g')

theorem ends_bindTo_values (name literal : String) (expected : Option RecordType) :
    Ends s (bindTo name expected literal)
      (fun _ s' => ∃ value, Denoted literal value ∧ s'.values = s.values.put name value)
      (fun _ s' => s'.values = s.values) := by
  refine .bind_within (fun l hread => ?_) fun _ _ => rfl
  refine .bind (Q := fun value s' => Denoted literal value ∧ s'.values = s.values) ?_ ?_
  · exact .elaborating (fun value g h => ⟨⟨l, expected, _, g, hread, h⟩, rfl⟩) fun _ _ _ => rfl
  · rintro value s' ⟨hvalue, hs'⟩
    exact .update_bind (.pure ⟨value, hvalue, congrArg (Bindings.put name value) hs'⟩)

theorem ends_bindValue_values (rest : String) :
    Ends s (bindValue rest)
      (fun _ s' => ∃ head literal value, splitBinding rest = .ok (head, literal) ∧
        Denoted literal value ∧ s'.values = s.values.put (headName head) value)
      (fun _ s' => s'.values = s.values) := by
  rw [bindValue_eq]
  refine .bind_ofExcept (fun p hp => ?_) fun _ _ => rfl
  split
  · next hnone =>
    refine (ends_bindTo_values p.1 p.2 none).imp ?_ fun _ _ h => h
    rintro _ s' ⟨value, hvalue, hs'⟩
    exact ⟨p.1, p.2, value, hp, hvalue, by rw [headName, hnone, hs']⟩
  · next name type hsome =>
    refine .bind ((ends_recordType (Text.trim type)).imp (fun _ s' h => h.1.2.2)
      fun _ _ h => h.1.2.2) ?_
    intro type s₁ hs₁
    refine (ends_bindTo_values (Text.trim name) p.2 (some type)).imp ?_ fun _ _ h => h.trans hs₁
    rintro _ s' ⟨value, hvalue, hs'⟩
    exact ⟨p.1, p.2, value, hp, hvalue, by rw [headName, hsome, hs', hs₁]⟩

/-- Other commands leave the bindings of values, or replace a value by one of its type. -/
theorem Effect.values_cases {command : String} {result : Except CommandError String}
    (h : s.Effect command result s') (hlet : command ≠ "let") (hs : s.Sound) :
    s'.values = s.values ∨ ∃ name old new, s.values.get? name = some old ∧ new.type = old.type ∧
      new.value.WellTyped ∧ s'.values = s.values.put name new := by
  cases h with
  | abandoned _ _ _ hs' => exact .inl hs'.2.2
  | declared _ _ _ hs' _ => exact .inl hs'.2.2
  | bound hc => exact absurd hc hlet
  | replaced _ r hr updated hset =>
    obtain ⟨w, hw, htype, hwell, -⟩ := hr.exists_set hs
    obtain rfl := RecordValue.value_injective (Except.ok.inj (hset.symm.trans hw))
    exact .inr ⟨r.name, r.value, updated, hr.bound, htype, hwell, rfl⟩
  | _ => exact .inl rfl

/-- What holds of whatever `let` binds, and of what replaces a value of the same type that it holds
of, holds of all that is bound. -/
theorem Reachable.forall_bound {P : String → RecordValue → Prop}
    (hlet : ∀ {rest head literal : String} {value : RecordValue},
      splitBinding rest = .ok (head, literal) → Denoted literal value → P (headName head) value)
    (hset : ∀ {name : String} {old new : RecordValue}, old.value.WellTyped → new.value.WellTyped →
      new.type = old.type → P name old → P name new)
    (h : s.Reachable) : ∀ name value, s.values.get? name = some value → P name value := by
  have put {values : Bindings RecordValue} {name : String} {new : RecordValue}
      (hold : ∀ other value, values.get? other = some value → P other value) (hnew : P name new) :
      ∀ other value, (values.put name new).get? other = some value → P other value := by
    intro other value hvalue
    rw [Bindings.get?_put] at hvalue
    split at hvalue
    · next heq => exact heq ▸ Option.some.inj hvalue ▸ hnew
    · exact hold other value hvalue
  induction h with
  | empty => exact nofun
  | @run s hs input ih =>
    -- of `let` the effect does not say which literal was read, so it is opened here
    by_cases hcommand : (splitWord input).1 = "let"
    · rw [run_eq_bindValue (Prod.ext hcommand rfl)]
      refine Ends.leaves (P := fun s' => ∀ name value, s'.values.get? name = some value →
        P name value) ((ends_bindValue_values _).imp ?_ fun _ s' hs' => hs' ▸ ih)
      rintro _ s' ⟨head, literal, value, hsplit, hvalue, hs'⟩
      exact hs' ▸ put ih (hlet hsplit hvalue)
    · rcases (effect_run s input).values_cases hcommand hs.sound with
        hs' | ⟨name, old, new, hold, htype, hnew, hs'⟩
      · exact hs' ▸ ih
      · exact hs' ▸ put ih
          (hset (hs.sound.wellTyped name old hold) hnew htype (ih name old hold))

end

/-- What `let` takes for a name: a text without blanks around it, and without the characters that it
splits at. -/
structure Bindable (n : String) : Prop where
  trimmed : Text.trim n = n
  noEquals : '=' ∉ n.toList
  noColon : ':' ∉ n.toList

theorem bindable_headName {rest head literal : String}
    (h : splitBinding rest = .ok (head, literal)) : Bindable (headName head) := by
  have hhead : Text.trim head = head ∧ '=' ∉ head.toList := by
    unfold splitBinding at h
    split at h
    · cases h
    · next front behind hsplit =>
      split at h
      · cases h
      · obtain ⟨rfl, -⟩ := Prod.mk.inj (Except.ok.inj h)
        have hnone := (Text.splitOnce?_eq_some hsplit).1
        exact ⟨Text.trim_trim front, fun hmem =>
          absurd (hnone '=' (Text.mem_of_mem_trim hmem)) (by decide)⟩
  unfold headName
  split
  · next hnone =>
    exact ⟨hhead.1, hhead.2, fun hmem =>
      absurd (Text.splitOnce?_eq_none.1 hnone ':' hmem) (by decide)⟩
  · next name type hsplit =>
    obtain ⟨hnone, c, -, hchars⟩ := Text.splitOnce?_eq_some hsplit
    refine ⟨Text.trim_trim name, fun hmem => hhead.2 ?_, fun hmem => ?_⟩
    · rw [hchars]
      exact List.mem_append_left _ (Text.mem_of_mem_trim hmem)
    · exact absurd (hnone ':' (Text.mem_of_mem_trim hmem)) (by decide)

theorem Reachable.bindable [Alphabet] (h : s.Reachable) {n : String} {v : RecordValue}
    (hbound : s.values.get? n = some v) : Bindable n :=
  h.forall_bound (P := fun name _ => Bindable name) (fun hsplit _ => bindable_headName hsplit)
    (fun _ _ _ hold => hold) n v hbound

end RecordLens.Session
