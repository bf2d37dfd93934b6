import RecordLens.Proofs.Literal.Reading
import RecordLens.Ty.Printer

/-! Records as they are printed. Whether a record is shown as a tuple or in braces, it is read
back with the names that it has. -/

namespace RecordLens

theorem names_of_showsAsTuple {names : List FieldName} (hc : FieldName.Coherent names)
    (h : showsAsTuple names = true) :
    1 < names.length ∧ names = (List.range' 1 names.length).map .position := by
  obtain ⟨hlength, hall⟩ : 1 < names.length ∧ ∀ n ∈ names, n.isPosition = true := by
    simpa [showsAsTuple] using h
  refine ⟨hlength, hc.resolve_left fun hlabels => ?_⟩
  obtain ⟨n, hn⟩ := List.exists_mem_of_length_pos (Nat.lt_trans Nat.zero_lt_one hlength)
  have := hlabels n hn
  simp [hall n hn] at this

theorem legible_of_not_showsAsTuple [Alphabet] {names : List FieldName}
    (hc : FieldName.Coherent names) (hlabels : ∀ s, .label s ∈ names → Text.IsIdentifier s)
    (h : showsAsTuple names = false) :
    ∀ n ∈ names, n.Legible := by
  intro n hn
  cases n with
  | label s => exact hlabels s hn
  | position k =>
    have hpositions := hc.resolve_left fun h => absurd (h _ hn) (by simp [FieldName.isPosition])
    have hall : names.all FieldName.isPosition = true := by
      rw [hpositions]
      simp [FieldName.isPosition]
    have hlength : ¬1 < names.length := by
      intro hlt
      simp [showsAsTuple, hlt, hall] at h
    rw [hpositions, List.mem_map] at hn
    obtain ⟨m, hm, he⟩ := hn
    obtain rfl := FieldName.position.inj he
    obtain ⟨hpos, hlt⟩ : 1 ≤ m ∧ m < 1 + names.length := by simpa using hm
    exact ⟨hpos, by unfold FieldName.positionBound; omega⟩

namespace FieldExpr

variable {α γ : Type}

theorem forall₂_positions {span : α → Span} {name : γ → FieldName} {post : γ → α → Prop}
    {xs : List γ} {items : List α} {first : Nat}
    (hnames : xs.map name = (List.range' first xs.length).map .position)
    (h : List.Forall₂ post xs items) :
    List.Forall₂ (fun y f => f.name = name y ∧ post y f.item) xs
      (positions span first items) := by
  induction h generalizing first with
  | nil => exact .nil
  | @cons x item xs items hx _ ih =>
    obtain ⟨hname, hrest⟩ : name x = .position first ∧
        xs.map name = (List.range' (first + 1) xs.length).map .position := by
      simpa [List.range'_succ] using hnames
    exact .cons ⟨hname.symm, hx⟩ (ih hrest)

end FieldExpr

namespace Reader

open Text (commas)

variable {α β π γ : Type} {g : Grammar α π} {limit : Nat} {accept : α → Except SyntaxError β}

def shown (name : γ → FieldName) (separator : String) (text : γ → String) (xs : List γ) :
    List Char :=
  if showsAsTuple (xs.map name) then '(' :: ((commas (xs.map text)).toList ++ [')'])
  else '{' :: ((commas (xs.map fun y => (name y).text ++ separator ++ text y)).toList ++ ['}'])

/-- Items that are read back are read back together, with their names. -/
theorem Encloses.shown [Alphabet] {name : γ → FieldName} {separator : String} {text : γ → String}
    {post : γ → α → Prop} {room : Nat} {xs : List γ} (hsep : Separates g limit accept separator)
    (hnames : FieldName.Coherent (xs.map name))
    (hlabels : ∀ s, .label s ∈ xs.map name → Text.IsIdentifier s)
    (h : ∀ y ∈ xs, Spells g limit accept (text y).toList room (post y)) :
    Encloses g limit accept (shown name separator text xs) (room + 1) fun item =>
      ∃ fields span, item = g.record ⟨fields, span⟩ ∧
        List.Forall₂ (fun y f => f.name = name y ∧ post y f.item) xs fields := by
  unfold Reader.shown
  by_cases htuple : showsAsTuple (xs.map name)
  · rw [if_pos htuple]
    obtain ⟨hlength, hpositions⟩ := names_of_showsAsTuple hnames htuple
    rw [List.length_map] at hlength hpositions
    refine (Encloses.tuple hlength h).imp ?_
    rintro item ⟨items, span, rfl, hitems⟩
    exact ⟨_, span, rfl, FieldExpr.forall₂_positions hpositions hitems⟩
  · rw [if_neg htuple]
    have hlegible := legible_of_not_showsAsTuple hnames hlabels (by simpa using htuple)
    have hall : ∀ y ∈ xs, (name y).Legible := fun y hy => hlegible _ (List.mem_map_of_mem hy)
    exact Encloses.record hsep hall hnames h

end Reader

end RecordLens
