import RecordLens.Proofs.Literal.Derivation

/-! Brackets in rows of lexemes. What derives a type or a value closes every bracket that it opens,
and brackets around it stay open from the first lexeme to the last. -/

namespace RecordLens

/-- How the lexeme changes the number of open brackets. -/
def Lexeme.weight (l : Lexeme) : Int := if l.opens then 1 else if l.closes then -1 else 0

theorem FieldName.WrittenAs.weight_eq {n : FieldName} {l : Lexeme} (h : n.WrittenAs l) :
    l.weight = 0 := by
  cases h <;> rfl

namespace Literal

/-- How many more brackets open than close. -/
def level : List Lexeme → Int
  | [] => 0
  | l :: ls => l.weight + level ls

@[simp] theorem level_nil : level [] = 0 := rfl

@[simp] theorem level_cons (l : Lexeme) (ls : List Lexeme) :
    level (l :: ls) = l.weight + level ls := rfl

@[simp] theorem level_append (ls ms : List Lexeme) : level (ls ++ ms) = level ls + level ms := by
  induction ls with
  | nil => simp
  | cons l ls ih => rw [List.cons_append, level_cons, ih, level_cons, Int.add_assoc]

/-- As many brackets close as open, and none closes before it opens. -/
structure Balanced (ls : List Lexeme) : Prop where
  level_eq : level ls = 0
  level_front : ∀ front back, ls = front ++ back → 0 ≤ level front

theorem balanced_nil : Balanced [] where
  level_eq := rfl
  level_front front back h := by
    obtain ⟨rfl, -⟩ := List.append_eq_nil_iff.1 h.symm
    exact Int.le_refl 0

theorem Balanced.append {ls ms : List Lexeme} (h : Balanced ls) (h' : Balanced ms) :
    Balanced (ls ++ ms) where
  level_eq := by rw [level_append, h.level_eq, h'.level_eq, Int.add_zero]
  level_front front back hfront := by
    rcases List.append_eq_append_iff.1 hfront with ⟨more, rfl, hms⟩ | ⟨more, hls, -⟩
    · rw [level_append, h.level_eq, Int.zero_add]
      exact h'.level_front more back hms
    · exact h.level_front front more hls

theorem balanced_single {l : Lexeme} (h : l.weight = 0) : Balanced [l] where
  level_eq := by simp [h]
  level_front front back hfront := by
    cases front with
    | nil => exact Int.le_refl 0
    | cons k front =>
      obtain ⟨rfl, hback⟩ := List.cons.inj hfront
      obtain ⟨rfl, -⟩ := List.append_eq_nil_iff.1 hback.symm
      simp [h]

theorem Balanced.cons {l : Lexeme} {ls : List Lexeme} (hl : l.weight = 0) (h : Balanced ls) :
    Balanced (l :: ls) := (balanced_single hl).append h

theorem balanced_flatMap {α : Type} {f : α → List Lexeme} {xs : List α}
    (h : ∀ x ∈ xs, Balanced (f x)) : Balanced (xs.flatMap f) := by
  induction xs with
  | nil => exact balanced_nil
  | cons x xs ih =>
    rw [List.flatMap_cons]
    exact (h x List.mem_cons_self).append (ih fun y hy => h y (List.mem_cons_of_mem x hy))

theorem balanced_commas {rows : List (List Lexeme)} (h : ∀ row ∈ rows, Balanced row) :
    Balanced (commas rows) := by
  cases rows with
  | nil => exact balanced_nil
  | cons row rows =>
    rw [commas_cons]
    refine (h row List.mem_cons_self).append (balanced_flatMap fun next hnext => ?_)
    exact (h next (List.mem_cons_of_mem row hnext)).cons rfl

inductive Enclosed : List Lexeme → Prop
  | intro {opening closing : Lexeme} {ls : List Lexeme} (hopening : opening.opens = true)
      (hclosing : closing.weight = -1) (h : Balanced ls) : Enclosed (opening :: (ls ++ [closing]))

namespace Enclosed

variable {ls front back : List Lexeme}

theorem level_eq (h : Enclosed ls) : level ls = 0 := by
  obtain ⟨hopening, hclosing, hinner⟩ := h
  rw [level_cons, level_append, hinner.level_eq, Lexeme.weight, if_pos hopening, level_cons,
    hclosing]
  rfl

theorem opens_head (h : Enclosed ls) {l : Lexeme} (hls : ls = l :: back) : l.opens = true := by
  obtain ⟨hopening, -, -⟩ := h
  exact (List.cons.inj hls).1 ▸ hopening

theorem level_pos (h : Enclosed ls) (hls : ls = front ++ back) (hfront : front ≠ [])
    (hback : back ≠ []) : 0 < level front := by
  obtain ⟨hopening, hclosing, hinner⟩ := h
  obtain ⟨opening', front, rfl⟩ := List.exists_cons_of_ne_nil hfront
  obtain ⟨rfl, hrow⟩ := List.cons.inj hls
  have hinner_front : 0 ≤ level front := by
    rcases List.append_eq_append_iff.1 hrow with ⟨more, rfl, hclose⟩ | ⟨more, hls, -⟩
    · -- the back holds the closing bracket, which is a single lexeme
      rcases List.append_eq_cons_iff.1 hclose.symm with ⟨rfl, -⟩ | ⟨_, rfl, hnil⟩
      · simp [hinner.level_eq]
      · exact absurd (List.append_eq_nil_iff.1 hnil.symm).2 hback
    · exact hinner.level_front front more hls
  rw [level_cons, Lexeme.weight, if_pos hopening]
  omega

theorem balanced (h : Enclosed ls) : Balanced ls where
  level_eq := h.level_eq
  level_front front back hls := by
    by_cases hfront : front = []
    · simp [hfront]
    · by_cases hback : back = []
      · rw [hback, List.append_nil] at hls
        simp [← hls, h.level_eq]
      · exact Int.le_of_lt (h.level_pos hls hfront hback)

end Enclosed

theorem enclosed_of_bracketed {α : Type} {separator : Lexeme} {record : RecordExpr α → α}
    {item : List Lexeme → α → Prop} (hseparator : separator.weight = 0)
    (hitem : ∀ ls x, item ls x → Balanced ls) {ls : List Lexeme} {x : α}
    (h : Bracketed separator record item ls x) : Enclosed ls := by
  cases h with
  | braces clauses hsigns _ h =>
    refine .intro rfl rfl (balanced_commas (List.forall_mem_map.2 fun c hc => ?_))
    exact ((hitem _ _ (h c hc)).cons hseparator).cons (hsigns c hc).weight_eq
  | parentheses h => exact .intro rfl rfl (hitem _ _ h)
  | tuple phrases _ h =>
    exact .intro rfl rfl (balanced_commas (List.forall_mem_map.2 fun p hp => hitem _ _ (h p hp)))

end Literal

open Literal (Balanced Enclosed)

namespace TypeExpr

section Items

variable {bracketed : List Lexeme → TypeExpr → Prop}
  (hbracketed : ∀ ls e, bracketed ls e → Enclosed ls) {ls : List Lexeme} {e : TypeExpr}

include hbracketed

theorem balanced_of_argument (h : Argument bracketed ls e) : Balanced ls := by
  cases h with
  | name s => exact Literal.balanced_single rfl
  | bracketed h => exact (hbracketed _ _ h).balanced

theorem balanced_of_applied (h : Applied bracketed ls e) : Balanced ls := by
  cases h with
  | named s args h =>
    exact .cons rfl (Literal.balanced_flatMap fun a ha => balanced_of_argument hbracketed (h a ha))
  | bracketed h => exact (hbracketed _ _ h).balanced

end Items

theorem enclosed_of_bracketed (n : Nat) : ∀ ls e, Bracketed n ls e → Enclosed ls := by
  induction n with
  | zero => exact fun _ _ h => h.elim
  | succ n ih =>
    exact fun _ _ h => Literal.enclosed_of_bracketed rfl (fun _ _ => balanced_of_applied ih) h

theorem Written.balanced {n : Nat} {ls : List Lexeme} {e : TypeExpr} (h : Written n ls e) :
    Balanced ls := balanced_of_applied (enclosed_of_bracketed n) h

theorem Written.enclosed {n : Nat} {ls : List Lexeme} {r : RecordExpr TypeExpr}
    (h : Written n ls (.record r)) : Enclosed ls := by
  cases h with
  | bracketed h => exact enclosed_of_bracketed n ls _ h

end TypeExpr

theorem Scalar.Written.balanced {ls : List Lexeme} {s : Scalar} (h : s.Written ls) :
    Balanced ls := by
  cases h with
  | negativeInteger | negativeFloat => exact .cons rfl (Literal.balanced_single rfl)
  | _ => exact Literal.balanced_single rfl

namespace Expr

theorem balanced_of_plain {bracketed : List Lexeme → Expr → Prop}
    (hbracketed : ∀ ls e, bracketed ls e → Enclosed ls) {ls : List Lexeme} {e : Expr}
    (h : Plain bracketed ls e) : Balanced ls := by
  cases h with
  | scalar h => exact h.balanced
  | bracketed h => exact (hbracketed _ _ h).balanced

theorem enclosed_of_bracketed (n : Nat) : ∀ ls e, Bracketed n ls e → Enclosed ls := by
  induction n with
  | zero => exact fun _ _ h => h.elim
  | succ n ih =>
    exact fun _ _ h => Literal.enclosed_of_bracketed rfl (fun _ _ => balanced_of_plain ih) h

theorem Written.balanced {n : Nat} {ls : List Lexeme} {e : Expr} (h : Written n ls e) :
    Balanced ls := balanced_of_plain (enclosed_of_bracketed n) h

theorem Written.enclosed {n : Nat} {ls : List Lexeme} {r : RecordExpr Expr}
    (h : Written n ls (.record r)) : Enclosed ls := by
  cases h with
  | bracketed h => exact enclosed_of_bracketed n ls _ h

end Expr

end RecordLens
