import RecordLens.Proofs.Session.Effect

/-! Commands bind one name or none. A command that fails leaves all bindings as they are, and no
command takes an entry out of the registry. -/

namespace RecordLens.Session

variable {s s' : Session} {command : String} {result : Except CommandError String}

/-- The later bindings are the earlier ones, but for one name that is bound to `x`. -/
def Rebound {α : Type} (name : String) (x : α) (before after : Bindings α) : Prop :=
  ∀ other, after.get? other = if name = other then some x else before.get? other

theorem rebound_put {α : Type} (name : String) (x : α) (b : Bindings α) :
    Rebound name x b (b.put name x) := fun other => Bindings.get?_put name other x b

variable [Alphabet]

theorem Effect.grows (h : s.Effect command result s') : s.registry.Grows s'.registry := by
  cases h with
  | abandoned _ _ _ hs => exact hs.1.grows
  | declared _ _ _ hs _ => exact hs.1.grows
  | bound _ _ _ hs _ _ => exact hs.1.grows
  | _ => exact .refl

theorem Effect.entries_prefix (h : s.Effect command result s') :
    s.registry.entries <+: s'.registry.entries := h.grows.entries_prefix

/-- Only declaring a type and binding a value enter anything. -/
theorem Effect.registry_eq (h : s.Effect command result s') (htype : command ≠ "type")
    (hlet : command ≠ "let") : s'.registry = s.registry := by
  cases h with
  | abandoned hc _ _ _ => exact (hc.elim htype hlet).elim
  | declared hc _ _ _ _ => exact (htype hc).elim
  | bound hc _ _ _ _ _ => exact (hlet hc).elim
  | _ => rfl

theorem Effect.bindings_of_error {e : CommandError} (h : s.Effect command (.error e) s') :
    s'.types = s.types ∧ s'.values = s.values := by
  cases h with
  | abandoned _ _ _ hs => exact hs.2
  | _ => exact ⟨rfl, rfl⟩

theorem Effect.bindings_of_ok {out : String} (h : s.Effect command (.ok out) s') :
    (command ∉ binders ∧ s'.types = s.types ∧ s'.values = s.values) ∨
    (command = "type" ∧ s'.values = s.values ∧ ∃ name type,
      out = name ++ " :: " ++ type.text ∧ Rebound name type s.types s'.types) ∨
    ((command = "let" ∨ command = "set") ∧ s'.types = s.types ∧ ∃ name value,
      out = name ++ " = " ++ value.text ∧ Rebound name value s.values s'.values) := by
  cases h with
  | answered hc => exact .inl ⟨hc, rfl, rfl⟩
  | @declared hc name type s₁ hs _ =>
    exact .inr (.inl ⟨hc, hs.2.2, name, type, rfl, hs.2.1 ▸ rebound_put name type _⟩)
  | @bound hc name value s₁ hs _ _ =>
    exact .inr (.inr ⟨.inl hc, hs.2.1, name, value, rfl, hs.2.2 ▸ rebound_put name value _⟩)
  | replaced hc r _ updated _ =>
    exact .inr (.inr ⟨.inr hc, rfl, r.name, updated, rfl, rebound_put r.name updated _⟩)

/-- Whatever the session and the input, the registry keeps its entries in front, and keeps them
alone unless the command is one that reads a type or a new value. A command that fails leaves all
bindings as they are; one that succeeds binds the name that it shows, or none if its answer binds
nothing. -/
theorem run_atomic (s : Session) (input : String) :
    let command := (splitWord input).1
    let result := ((run input).outcome s).1
    let after := ((run input).outcome s).2
    s.registry.entries <+: after.registry.entries ∧
    (command ≠ "type" → command ≠ "let" → after.registry = s.registry) ∧
    match result with
    | .error _ => after.types = s.types ∧ after.values = s.values
    | .ok out =>
      (command ∉ binders ∧ after.types = s.types ∧ after.values = s.values) ∨
      (command = "type" ∧ after.values = s.values ∧ ∃ name type,
        out = name ++ " :: " ++ type.text ∧ Rebound name type s.types after.types) ∨
      ((command = "let" ∨ command = "set") ∧ after.types = s.types ∧ ∃ name value,
        out = name ++ " = " ++ value.text ∧ Rebound name value s.values after.values) := by
  have h := effect_run s input
  refine ⟨h.entries_prefix, h.registry_eq, ?_⟩
  split
  · next heq => exact (heq ▸ h).bindings_of_error
  · next heq => exact (heq ▸ h).bindings_of_ok

end RecordLens.Session
