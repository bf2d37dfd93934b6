import RecordLens.Proofs.Registry.Interning
import RecordLens.Proofs.Ty.Handles

/-! Where the handles in a registry come from. What is interned is made of handles that the registry
has given out itself and of handles that were given to it. What a step interns and what is true of
its result are shown together, since the one is made of the other. -/

namespace RecordLens

variable {P : RecordType → Prop}

namespace Registry

/-- Each handle is one that the registry holds or one of those given, for which `P` stands. -/
def Over (P : RecordType → Prop) (g : Registry) (handles : List RecordType) : Prop :=
  ∀ r ∈ handles, g.Holds r ∨ P r

section Over

variable {g : Registry} {rs ss : List RecordType}

theorem over_nil : g.Over P [] := nofun

theorem over_append : g.Over P (rs ++ ss) ↔ g.Over P rs ∧ g.Over P ss := List.forall_mem_append

theorem over_flatMap {α : Type} {f : α → List RecordType} {xs : List α} :
    g.Over P (xs.flatMap f) ↔ ∀ x ∈ xs, g.Over P (f x) := List.forall_mem_flatMap

theorem Over.subset (h : g.Over P rs) (hs : ss ⊆ rs) : g.Over P ss := fun r hr => h r (hs hr)

theorem over_of_given (h : ∀ r ∈ rs, P r) : g.Over P rs := fun r hr => .inr (h r hr)

theorem Over.grows {g' : Registry} (h : g.Over P rs) (hg : g.Grows g') : g'.Over P rs :=
  fun r hr => (h r hr).imp_left hg.holds

theorem over_ty {r : RecordType} (hr : g.Holds r) (h : ∀ f ∈ r.fields, g.Over P f.value.handles) :
    g.Over P r.ty.handles := by
  rw [Ty.handles_ty]
  exact List.forall_mem_cons.2 ⟨.inl hr, over_flatMap.2 h⟩

end Over

/-- What a registry can become if the record types in what is interned are held by then or given. -/
inductive GrowsOver (P : RecordType → Prop) (g : Registry) : Registry → Prop
  | refl : GrowsOver P g g
  | intern {g' : Registry} {fields : List (Field Ty)} (h : GrowsOver P g g')
      (ha : Field.Ascending fields) (ho : ∀ f ∈ fields, g'.Over P f.value.handles) :
      GrowsOver P g ((intern fields).outcome g').2

theorem GrowsOver.grows {g g' : Registry} (h : g.GrowsOver P g') : g.Grows g' := by
  induction h with
  | refl => exact .refl
  | intern _ ha _ ih => exact .intern ih ha

theorem GrowsOver.entries_over {g g' : Registry} (h : g.GrowsOver P g')
    (hg : ∀ fields ∈ g.entries, ∀ f ∈ fields, g.Over P f.value.handles) :
    ∀ fields ∈ g'.entries, ∀ f ∈ fields, g'.Over P f.value.handles := by
  induction h with
  | refl => exact hg
  | @intern g' fields _ ha ho ih =>
    have hgrows : g'.Grows ((Registry.intern fields).outcome g').2 := .intern .refl ha
    intro entry hentry f hf
    have hold : g'.Over P f.value.handles := by
      rcases intern_cases fields g' with ⟨r, -, -, he⟩ | ⟨-, he⟩
      · rw [he] at hentry
        exact ih entry hentry f hf
      · rw [he] at hentry
        rcases List.mem_append.1 hentry with hentry | hentry
        · exact ih entry hentry f hf
        · obtain rfl := List.mem_singleton.1 hentry
          exact ho f hf
    exact hold.grows hgrows

theorem GrowsOver.trans {g g' g'' : Registry} (h : g.GrowsOver P g') (k : g'.GrowsOver P g'') :
    g.GrowsOver P g'' := by
  induction k with
  | refl => exact h
  | intern _ ha ho ih => exact .intern ih ha ho

end Registry

open Registry

namespace Interning

variable {α β : Type} {g : Registry} {Q : Registry → α → Prop} {R : Registry → β → Prop}

/-- In the registry the step interns nothing but what is made of handles held or given, and its
result and the registry behind it are as the postcondition says. -/
def Ensures (P : RecordType → Prop) (g : Registry) (x : Interning α) (Q : Registry → α → Prop) :
    Prop :=
  g.GrowsOver P (x.outcome g).2 ∧ Q (x.outcome g).2 (x.outcome g).1

theorem Ensures.pure {a : α} (h : Q g a) : Ensures P g (Pure.pure a) Q := ⟨.refl, h⟩

theorem Ensures.bind {x : Interning α} {f : α → Interning β} (hx : Ensures P g x Q)
    (hf : ∀ a g', g.Grows g' → Q g' a → Ensures P g' (f a) R) : Ensures P g (x >>= f) R := by
  obtain ⟨hg, hq⟩ := hx
  obtain ⟨hg', hr⟩ := hf _ _ hg.grows hq
  exact ⟨hg.trans hg', hr⟩

theorem Ensures.intern {fields : List (Field Ty)} (ha : Field.Ascending fields)
    (ho : ∀ f ∈ fields, g.Over P f.value.handles) :
    Ensures P g (Registry.intern fields) fun g' r => g'.Over P r.ty.handles := by
  have hg : g.GrowsOver P ((Registry.intern fields).outcome g).2 := .intern .refl ha ho
  refine ⟨hg, over_ty (holds_intern fields g) ?_⟩
  rw [fields_intern]
  exact fun f hf => (ho f hf).grows hg.grows

end Interning

namespace Elaboration

variable {ε δ α β : Type} {g : Registry} {Q : Registry → α → Prop} {R : Registry → β → Prop}

def Ensures (P : RecordType → Prop) (g : Registry) (x : Elaboration ε α)
    (Q : Registry → α → Prop) : Prop :=
  g.GrowsOver P (x.outcome g).2 ∧ ∀ a g', x.outcome g = (.ok a, g') → Q g' a

theorem Ensures.imp {Q' : Registry → α → Prop} {x : Elaboration ε α} (h : Ensures P g x Q)
    (hq : ∀ g' a, g.Grows g' → Q g' a → Q' g' a) : Ensures P g x Q' := by
  refine ⟨h.1, fun a g' ha => hq g' a ?_ (h.2 a g' ha)⟩
  have hg := h.1.grows
  rwa [ha] at hg

theorem Ensures.ofExcept {x : Except ε α} (h : ∀ a, x = .ok a → Q g a) :
    Ensures P g (.ofExcept x) Q := by
  refine ⟨.refl, fun a g' ha => ?_⟩
  obtain ⟨hx, rfl⟩ := Prod.mk.inj ha
  exact h a hx

theorem Ensures.pure {a : α} (h : Q g a) : Ensures P g (Pure.pure a : Elaboration ε α) Q :=
  .ofExcept fun _ ha => Except.ok.inj ha ▸ h

theorem Ensures.throw (e : ε) : Ensures P g (MonadExcept.throw e : Elaboration ε α) Q :=
  .ofExcept nofun

theorem Ensures.lift {x : Interning α} (h : x.Ensures P g Q) :
    Ensures P g (liftM x : Elaboration ε α) Q := by
  refine ⟨h.1, fun a g' ha => ?_⟩
  obtain ⟨hx, rfl⟩ := Prod.mk.inj ha
  exact Except.ok.inj hx ▸ h.2

theorem Ensures.bind {x : Elaboration ε α} {f : α → Elaboration ε β} (hx : Ensures P g x Q)
    (hf : ∀ a g', x.outcome g = (.ok a, g') → g.Grows g' → Q g' a → Ensures P g' (f a) R) :
    Ensures P g (x >>= f) R := by
  obtain ⟨hg, hq⟩ := hx
  rw [Ensures, outcome_bind]
  cases h : x.outcome g with
  | mk result g' =>
    rw [h] at hg
    cases result with
    | error e => exact ⟨hg, nofun⟩
    | ok a =>
      obtain ⟨hg', hr⟩ := hf a g' h hg.grows (hq a g' h)
      exact ⟨hg.trans hg', hr⟩

theorem Ensures.bind_ofExcept {x : Except ε α} {f : α → Elaboration ε β}
    (h : ∀ a, x = .ok a → Ensures P g (f a) R) : Ensures P g (.ofExcept x >>= f) R :=
  bind (.ofExcept fun _ ha => ha) fun a _ hg _ ha => (Prod.mk.inj hg).2 ▸ h a ha

theorem Ensures.adapt (f : ε → δ) {x : Elaboration ε α} (h : Ensures P g x Q) :
    Ensures P g (ExceptT.adapt f x : Elaboration δ α) Q := by
  rw [Ensures, outcome_adapt]
  refine ⟨h.1, fun a g' ha => h.2 a g' ?_⟩
  obtain ⟨hx, rfl⟩ := Prod.mk.inj ha
  cases hr : (x.outcome g).1 with
  | error e =>
    rw [hr] at hx
    cases hx
  | ok b =>
    rw [hr] at hx
    obtain rfl := Except.ok.inj hx
    exact Prod.ext hr rfl

/-- What each step ensures of its result all of them ensure, if it stays true while the registry
grows. -/
theorem Ensures.mapM {f : α → Elaboration ε β} {xs : List α}
    (hR : ∀ {g g' y}, g.Grows g' → R g y → R g' y)
    (h : ∀ x ∈ xs, ∀ g', g.Grows g' → Ensures P g' (f x) R) :
    Ensures P g (xs.mapM f) fun g' ys => ∀ y ∈ ys, R g' y := by
  induction xs generalizing g with
  | nil => exact .pure nofun
  | cons x rest ih =>
    rw [List.mapM_cons]
    refine .bind (h x List.mem_cons_self g .refl) fun y g₁ _ hg₁ hy => ?_
    have hrest : ∀ z ∈ rest, ∀ g', g₁.Grows g' → Ensures P g' (f z) R :=
      fun z hz g' hg' => h z (List.mem_cons_of_mem x hz) g' (hg₁.trans hg')
    refine .bind (ih hrest) fun ys g₂ _ hg₂ hys => .pure ?_
    exact List.forall_mem_cons.2 ⟨hR hg₂ hy, hys⟩

theorem Ensures.traverse {f : FieldName → α → Elaboration ε β} {x : Field α}
    (h : Ensures P g (f x.name x.value) R) :
    Ensures P g (x.traverse f) fun g' y => R g' y.value :=
  .bind h fun _ _ _ _ hy => .pure hy

end Elaboration

end RecordLens
