import RecordLens.Lens
import RecordLens.Proofs.Lens.Laws
import RecordLens.Proofs.Registry.Operations

/-! Programs that use several registries side by side. A handle cannot be made up: what is supplied
to a registry was given out before, by it or by another one. So in every registry the record types
that an entry is made of were entered before it. -/

namespace RecordLens

open Registry (Operation)

structure Program where
  /-- The registries in the order they were created in. -/
  registries : List Registry
  /-- The values that operations have returned. -/
  returned : List Value

namespace Program

variable [Alphabet]

def initial : Program := ⟨[], []⟩

/-- The handle can be had: a registry has given it out, one of the program or one that was made for
a message. -/
def Knows (p : Program) (r : RecordType) : Prop :=
  (∃ g ∈ p.registries, g.Holds r) ∨ ∃ g : Registry, g.Reachable ∧ g.owner = .scratch ∧ g.Holds r

/-- What a program can do with registries and values. -/
inductive Action where
  | create
  | operate (number : Nat) (op : Operation)
  | set (l : Lens) (v leaf : Value)
  | modify (l : Lens) (v : Value) (f : Value → Value)

/-- An action that is done. An operation keeps what it has entered when it fails. -/
inductive Step (p : Program) : Action → Program → Prop
  | create :
      Step p .create ⟨p.registries ++ [.empty (.registry p.registries.length)], p.returned⟩
  | operate {n : Nat} {op : Operation} {g : Registry} (hg : p.registries[n]? = some g)
      (known : ∀ r ∈ op.supplied, p.Knows r) :
      Step p (.operate n op) ⟨p.registries.set n (op.run g), p.returned ++ op.returned g⟩
  | set {l : Lens} {v leaf w : Value} (built : l.Built)
      (known : ∀ r ∈ v.handles ++ leaf.handles, p.Knows r) (h : l.set v leaf = .ok w) :
      Step p (.set l v leaf) ⟨p.registries, p.returned ++ [w]⟩
  | modify {l : Lens} {v leaf w : Value} {f : Value → Value} (built : l.Built)
      (hleaf : l.get v = .ok leaf) (known : ∀ r ∈ v.handles ++ (f leaf).handles, p.Knows r)
      (h : l.modify v f = .ok w) : Step p (.modify l v f) ⟨p.registries, p.returned ++ [w]⟩

/-- Actions that are done one after the other. -/
inductive Run : Program → List Action → Program → Prop
  | nil (p : Program) : Run p [] p
  | cons {p q r : Program} {a : Action} {as : List Action} (h : p.Step a q) (hs : Run q as r) :
      Run p (a :: as) r

end Program

namespace Registry

/-- The record types in the fields of an entry that are of this registry are entered before it. -/
def Founded (g : Registry) : Prop :=
  ∀ (i : Nat) (fields : List (Field Ty)), g.entries[i]? = some fields →
    ∀ f ∈ fields, ∀ r ∈ f.value.handles, r.owner = g.owner → r.id < i

theorem getElem?_concat_eq_some {α : Type} {xs : List α} {x y : α} {i : Nat} :
    (xs ++ [x])[i]? = some y ↔ xs[i]? = some y ∨ i = xs.length ∧ x = y := by
  rw [List.getElem?_append]
  split
  · next hlt => simp [Nat.ne_of_lt hlt]
  · next hge =>
    have hi : i - xs.length = 0 ↔ i = xs.length := by omega
    simp [List.getElem?_singleton, hi, hge]

theorem Founded.growsOver {P : RecordType → Prop} {g g' : Registry} (h : g.Founded)
    (hg : g.GrowsOver P g') (hP : ∀ r, P r → r.owner = g.owner → g.Holds r) : g'.Founded := by
  induction hg with
  | refl => exact h
  | @intern g' fields hg ha ho ih =>
    rcases intern_cases fields g' with ⟨s, -, -, he⟩ | ⟨-, he⟩
    · rwa [he]
    · rw [he]
      intro i entry hi f hf r hr hown
      rcases getElem?_concat_eq_some.1 hi with hold | ⟨rfl, rfl⟩
      · exact ih i entry hold f hf r hr hown
      · -- what the new entry is made of is held by now
        have hheld : g'.Holds r := by
          rcases ho f hf r hr with hheld | hgiven
          · exact hheld
          · exact hg.grows.holds (hP r hgiven (hown.trans hg.grows.owner_eq))
        exact (List.getElem?_eq_some_iff.1 (holds_iff.1 hheld).2).1

theorem getElem?_handles (owner : Owner) (first : Nat) (entries : List (List (Field Ty)))
    (i : Nat) :
    (handles owner first entries)[i]? =
      entries[i]?.map fun fields => ⟨owner, first + i, fields⟩ := by
  induction entries generalizing first i with
  | nil => rfl
  | cons fields rest ih =>
    cases i with
    | zero => rfl
    | succ i => simp [handles, ih, Nat.add_comm, Nat.add_left_comm]

/-- What is true of the registries of programs. Entries are canonical and differ, the number of an
entry finds its handle and no other number finds any, interning finds an entry or makes the next,
and the record types of the registry that occur in an entry have lower numbers. -/
structure Coherent (g : Registry) : Prop where
  ascending : ∀ fields ∈ g.entries, Field.Ascending fields
  nodup : g.entries.Nodup
  get? : ∀ i fields, g.entries[i]? = some fields → g.get? i = some ⟨g.owner, i, fields⟩
  get?_none : ∀ i, g.get? i = none ↔ g.size ≤ i
  types : ∀ i, g.types[i]? = g.get? i
  intern_old : ∀ i fields, g.entries[i]? = some fields →
    (intern fields).outcome g = (⟨g.owner, i, fields⟩, g)
  intern_new : ∀ fields, Field.Ascending fields → fields ∉ g.entries →
    (intern fields).outcome g =
      (⟨g.owner, g.size, fields⟩, { g with entries := g.entries ++ [fields] })
  inner_lt : g.Founded

theorem Valid.coherent {g : Registry} (hv : g.Valid) (hf : g.Founded) : g.Coherent where
  ascending := hv.ascending
  nodup := hv.nodup
  get? i fields hi := by rw [Registry.get?, hi, Option.map_some]
  get?_none i := by rw [Registry.get?, Option.map_eq_none_iff, List.getElem?_eq_none_iff, size]
  types i := by rw [Registry.types, getElem?_handles, Nat.zero_add, Registry.get?]
  intern_old i fields hi := intern_of_holds (r := ⟨g.owner, i, fields⟩) hv (holds_iff.2 ⟨rfl, hi⟩)
  intern_new fields _ hn := by
    rcases intern_cases fields g with ⟨r, hr, rfl, -⟩ | ⟨-, he⟩
    · exact absurd (List.mem_of_getElem? (holds_iff.1 hr).2) hn
    · exact he
  inner_lt := hf

end Registry

namespace Program

def Sound (p : Program) : Prop :=
  ∀ (n : Nat) (g : Registry), p.registries[n]? = some g →
    g.owner = .registry n ∧ g.Reachable ∧ g.Founded

theorem sound_initial : initial.Sound := fun n g h => by simp [initial] at h

theorem Sound.holds_of_knows {p : Program} (hp : p.Sound) {n : Nat} {g : Registry}
    (hg : p.registries[n]? = some g) {r : RecordType} (hr : p.Knows r) (ho : r.owner = g.owner) :
    g.Holds r := by
  have hown : g.owner = .registry n := (hp n g hg).1
  rcases hr with ⟨k, hk, hr⟩ | ⟨k, -, hk, hr⟩
  · obtain ⟨m, hm⟩ := List.mem_iff_getElem?.1 hk
    have hmn : Owner.registry m = .registry n := by
      rw [← hown, ← ho, (Registry.holds_iff.1 hr).1, (hp m k hm).1]
    obtain rfl := Owner.registry.inj hmn
    obtain rfl : k = g := Option.some.inj (hm.symm.trans hg)
    exact hr
  · have hs : Owner.scratch = .registry n := by
      rw [← hown, ← ho, (Registry.holds_iff.1 hr).1, hk]
    cases hs

section

variable [Alphabet]

/-- An action leaves every registry in its place, and interning leads from what it was to what it
is. -/
theorem Step.grows {p q : Program} {a : Action} (h : p.Step a q) {n : Nat} {g : Registry}
    (hg : p.registries[n]? = some g) : ∃ g', q.registries[n]? = some g' ∧ g.Grows g' := by
  cases h with
  | create =>
    have hlt : n < p.registries.length := (List.getElem?_eq_some_iff.1 hg).1
    exact ⟨g, by rw [List.getElem?_append_left hlt, hg], .refl⟩
  | @operate m op k hk =>
    by_cases hmn : m = n
    · subst hmn
      obtain rfl : k = g := Option.some.inj (hk.symm.trans hg)
      exact ⟨op.run k, by simp [List.getElem?_set_self', hk], op.grows_run k⟩
    · exact ⟨g, by rw [List.getElem?_set_ne hmn, hg], .refl⟩
  | set => exact ⟨g, hg, .refl⟩
  | modify => exact ⟨g, hg, .refl⟩

theorem Run.grows {p q : Program} {as : List Action} (h : Run p as q) {n : Nat} {g : Registry}
    (hg : p.registries[n]? = some g) : ∃ g', q.registries[n]? = some g' ∧ g.Grows g' := by
  induction h generalizing g with
  | nil => exact ⟨g, hg, .refl⟩
  | cons hs _ ih =>
    obtain ⟨g₁, hg₁, hgrows⟩ := hs.grows hg
    obtain ⟨g₂, hg₂, hgrows'⟩ := ih hg₁
    exact ⟨g₂, hg₂, hgrows.trans hgrows'⟩

theorem Step.sound {p q : Program} {a : Action} (h : p.Step a q) (hp : p.Sound) : q.Sound := by
  intro n g hg
  cases h with
  | create =>
    rcases Registry.getElem?_concat_eq_some.1 hg with hold | ⟨rfl, rfl⟩
    · exact hp n g hold
    · exact ⟨rfl, ⟨_, [], rfl⟩, fun i fields hi => by simp [Registry.empty] at hi⟩
  | @operate m op k hk known =>
    obtain ⟨hown, hreach, hfounded⟩ := hp m k hk
    by_cases hmn : m = n
    · subst hmn
      obtain rfl : op.run k = g := by simpa [List.getElem?_set_self', hk] using hg
      exact ⟨(op.grows_run k).owner_eq.trans hown, hreach.run op,
        hfounded.growsOver (Operation.ensures_run known).1 fun r hr => hp.holds_of_knows hk hr⟩
    · rw [List.getElem?_set_ne hmn] at hg
      exact hp n g hg
  | set => exact hp n g hg
  | modify => exact hp n g hg

theorem Run.sound {p q : Program} {as : List Action} (h : Run p as q) (hp : p.Sound) :
    q.Sound := by
  induction h with
  | nil => exact hp
  | cons hs _ ih => exact ih (hs.sound hp)

theorem Step.knows {p q : Program} {a : Action} (h : p.Step a q) {r : RecordType}
    (hr : p.Knows r) : q.Knows r := by
  refine hr.imp_left ?_
  rintro ⟨g, hg, hr⟩
  obtain ⟨n, hn⟩ := List.mem_iff_getElem?.1 hg
  obtain ⟨g', hg', hgrows⟩ := h.grows hn
  exact ⟨g', List.mem_of_getElem? hg', hgrows.holds hr⟩

theorem knows_of_over {p q : Program} {a : Action} (h : p.Step a q) {g : Registry}
    (hg : g ∈ q.registries) {rs : List RecordType} (hrs : g.Over p.Knows rs) :
    ∀ r ∈ rs, q.Knows r := fun r hr =>
  (hrs r hr).elim (fun hheld => .inl ⟨g, hg, hheld⟩) h.knows

/-- The record types that occur in entries can be had. -/
def Closed (p : Program) : Prop :=
  ∀ g ∈ p.registries, ∀ fields ∈ g.entries, ∀ f ∈ fields, ∀ r ∈ f.value.handles, p.Knows r

theorem Step.closed {p q : Program} {a : Action} (h : p.Step a q) (hp : p.Closed) : q.Closed := by
  have hold : ∀ g ∈ p.registries, ∀ fields ∈ g.entries, ∀ f ∈ fields, ∀ r ∈ f.value.handles,
      q.Knows r := fun g hg fields hfields f hf r hr => h.knows (hp g hg fields hfields f hf r hr)
  intro g hg
  have hmem : g ∈ q.registries := hg
  cases h with
  | create =>
    rcases List.mem_append.1 hg with hg | hg
    · exact hold g hg
    · obtain rfl := List.mem_singleton.1 hg
      exact nofun
  | @operate n op k hk known =>
    rcases List.mem_or_eq_of_mem_set hg with hg | rfl
    · exact hold g hg
    · have hkp : k ∈ p.registries := List.mem_of_getElem? hk
      have hover : ∀ fields ∈ k.entries, ∀ f ∈ fields, k.Over p.Knows f.value.handles :=
        fun fields hfields f hf r hr => .inr (hp k hkp fields hfields f hf r hr)
      intro fields hfields f hf
      exact knows_of_over (.operate hk known) hmem
        ((Operation.ensures_run known).1.entries_over hover fields hfields f hf)
  | set => exact hold g hg
  | modify => exact hold g hg

theorem Run.closed {p q : Program} {as : List Action} (h : Run p as q) (hp : p.Closed) :
    q.Closed := by
  induction h with
  | nil => exact hp
  | cons hs _ ih => exact ih (hs.closed hp)

theorem Run.knows_handles {p : Program} {as : List Action} (h : Run initial as p) {g : Registry}
    (hg : g ∈ p.registries) {r : RecordType} (hr : g.Holds r) : ∀ s ∈ r.ty.handles, p.Knows s := by
  have hclosed : p.Closed := h.closed fun g hg => absurd hg List.not_mem_nil
  intro s hs
  rw [Ty.handles_ty] at hs
  rcases List.mem_cons.1 hs with rfl | hs
  · exact .inl ⟨g, hg, hr⟩
  · obtain ⟨f, hf, hsf⟩ := List.mem_flatMap.1 hs
    exact hclosed g hg r.fields (List.mem_of_getElem? (Registry.holds_iff.1 hr).2) f hf s hsf

/-- Whatever a program does, with record types of all its registries mixed: its registries are
coherent, and what it does later only adds entries after those that are there. -/
theorem Run.registry_coherent {before after : List Action} {p q : Program}
    (h : Run initial before p) (k : Run p after q) {n : Nat} {g : Registry}
    (hg : p.registries[n]? = some g) :
    g.owner = .registry n ∧ g.Coherent ∧
      ∃ g', q.registries[n]? = some g' ∧ g.entries <+: g'.entries := by
  obtain ⟨hown, hreach, hfounded⟩ := h.sound sound_initial n g hg
  obtain ⟨g', hg', hgrows⟩ := k.grows hg
  exact ⟨hown, hreach.valid.coherent hfounded, g', hg', hgrows.entries_prefix⟩

end

def pairType : RecordType :=
  ⟨.registry 0, 0, [⟨.position 1, .primitive .int⟩, ⟨.position 2, .primitive .int⟩]⟩

def pinType : RecordType :=
  ⟨.registry 1, 0, [⟨.label "at", pairType.ty⟩, ⟨.label "tag", .primitive .char⟩]⟩

/-- The types of both registries mixed, in the second one. -/
def boardType : RecordType :=
  ⟨.registry 1, 1, [⟨.label "pins", .named "List" [pinType.ty]⟩, ⟨.label "size", pairType.ty⟩]⟩

def pinned : Program :=
  ⟨[⟨.registry 0, [pairType.fields]⟩, ⟨.registry 1, [pinType.fields]⟩], []⟩

def boarded : Program :=
  ⟨[⟨.registry 0, [pairType.fields]⟩, ⟨.registry 1, [pinType.fields, boardType.fields]⟩], []⟩

def pin : List Action :=
  [.create, .create, .operate 0 (.tupleType [.primitive .int, .primitive .int]),
    .operate 1 (.structType [⟨.label "tag", .primitive .char⟩, ⟨.label "at", pairType.ty⟩])]

def board : List Action :=
  [.operate 1 (.structType
    [⟨.label "size", pairType.ty⟩, ⟨.label "pins", .named "List" [pinType.ty]⟩])]

theorem knows_of_held {p : Program} {rs : List RecordType}
    (h : ∀ r ∈ rs, ∃ g ∈ p.registries, g.Holds r) : ∀ r ∈ rs, p.Knows r := fun r hr => .inl (h r hr)

theorem run_pin : Run initial pin pinned :=
  .cons .create (.cons .create (.cons (.operate rfl (knows_of_held (by decide)))
    (.cons (.operate rfl (knows_of_held (by decide))) (.nil _))))

theorem run_board : Run pinned board boarded :=
  .cons (.operate rfl (knows_of_held (by decide))) (.nil _)

/-- The second registry of the program, between the entries of pins and of boards. -/
theorem Run.registry_coherent_pinned :
    Run initial pin pinned ∧ Run pinned board boarded ∧
      ∃ g, pinned.registries[1]? = some g ∧ g.owner = .registry 1 ∧ g.Coherent ∧
        ∃ g', boarded.registries[1]? = some g' ∧ g.entries <+: g'.entries :=
  ⟨run_pin, run_board, _, rfl, run_pin.registry_coherent run_board (n := 1) rfl⟩

end Program

end RecordLens
