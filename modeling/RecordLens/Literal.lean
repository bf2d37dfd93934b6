import RecordLens.Field
import RecordLens.Scalar
import RecordLens.Text.Span

/-! Literals as they are written: type expressions and value expressions, with their places. A
tuple is written down as a record whose fields are named by position. -/

namespace RecordLens

structure FieldExpr (α : Type) where
  name : FieldName
  nameSpan : Span
  item : α
  deriving DecidableEq

structure RecordExpr (α : Type) where
  fields : List (FieldExpr α)
  span : Span
  deriving DecidableEq

/-- A type as written: a name, perhaps applied to arguments, or a record type. -/
inductive TypeExpr where
  | named (name : String) (args : List TypeExpr) (span : Span)
  | record (r : RecordExpr TypeExpr)

inductive Expr where
  | scalar (value : Scalar) (span : Span)
  | record (r : RecordExpr Expr)

namespace TypeExpr

mutual

def decEq : (d e : TypeExpr) → Decidable (d = e)
  | .named n as span, .named m bs span' =>
    if hn : n = m ∧ span = span' then
      match decEqArgs as bs with
      | .isTrue h => .isTrue (by rw [hn.1, hn.2, h])
      | .isFalse h => .isFalse fun he => h (named.inj he).2.1
    else .isFalse fun he => hn ⟨(named.inj he).1, (named.inj he).2.2⟩
  | .record ⟨fs, span⟩, .record ⟨gs, span'⟩ =>
    if hs : span = span' then
      match decEqFields fs gs with
      | .isTrue h => .isTrue (by rw [hs, h])
      | .isFalse h => .isFalse fun he => h (RecordExpr.mk.inj (record.inj he)).1
    else .isFalse fun he => hs (RecordExpr.mk.inj (record.inj he)).2
  | .named .., .record _ => .isFalse nofun
  | .record _, .named .. => .isFalse nofun

def decEqArgs : (as bs : List TypeExpr) → Decidable (as = bs)
  | [], [] => .isTrue rfl
  | a :: as, b :: bs =>
    match decEq a b, decEqArgs as bs with
    | .isTrue h, .isTrue hs => .isTrue (by rw [h, hs])
    | .isFalse h, _ => .isFalse fun he => h (List.cons.inj he).1
    | _, .isFalse hs => .isFalse fun he => hs (List.cons.inj he).2
  | [], _ :: _ => .isFalse nofun
  | _ :: _, [] => .isFalse nofun

def decEqFields : (fs gs : List (FieldExpr TypeExpr)) → Decidable (fs = gs)
  | [], [] => .isTrue rfl
  | ⟨n, s, d⟩ :: fs, ⟨m, t, e⟩ :: gs =>
    if hn : n = m ∧ s = t then
      match decEq d e, decEqFields fs gs with
      | .isTrue h, .isTrue hs => .isTrue (by rw [hn.1, hn.2, h, hs])
      | .isFalse h, _ => .isFalse fun he => h (FieldExpr.mk.inj (List.cons.inj he).1).2.2
      | _, .isFalse hs => .isFalse fun he => hs (List.cons.inj he).2
    else .isFalse fun he =>
      let hf := FieldExpr.mk.inj (List.cons.inj he).1
      hn ⟨hf.1, hf.2.1⟩
  | [], _ :: _ => .isFalse nofun
  | _ :: _, [] => .isFalse nofun

end

instance : DecidableEq TypeExpr := decEq

end TypeExpr

namespace Expr

mutual

def decEq : (d e : Expr) → Decidable (d = e)
  | .scalar a span, .scalar b span' =>
    if h : a = b ∧ span = span' then .isTrue (by rw [h.1, h.2])
    else .isFalse fun he => h (scalar.inj he)
  | .record ⟨fs, span⟩, .record ⟨gs, span'⟩ =>
    if hs : span = span' then
      match decEqFields fs gs with
      | .isTrue h => .isTrue (by rw [hs, h])
      | .isFalse h => .isFalse fun he => h (RecordExpr.mk.inj (record.inj he)).1
    else .isFalse fun he => hs (RecordExpr.mk.inj (record.inj he)).2
  | .scalar .., .record _ => .isFalse nofun
  | .record _, .scalar .. => .isFalse nofun

def decEqFields : (fs gs : List (FieldExpr Expr)) → Decidable (fs = gs)
  | [], [] => .isTrue rfl
  | ⟨n, s, d⟩ :: fs, ⟨m, t, e⟩ :: gs =>
    if hn : n = m ∧ s = t then
      match decEq d e, decEqFields fs gs with
      | .isTrue h, .isTrue hs => .isTrue (by rw [hn.1, hn.2, h, hs])
      | .isFalse h, _ => .isFalse fun he => h (FieldExpr.mk.inj (List.cons.inj he).1).2.2
      | _, .isFalse hs => .isFalse fun he => hs (List.cons.inj he).2
    else .isFalse fun he =>
      let hf := FieldExpr.mk.inj (List.cons.inj he).1
      hn ⟨hf.1, hf.2.1⟩
  | [], _ :: _ => .isFalse nofun
  | _ :: _, [] => .isFalse nofun

end

instance : DecidableEq Expr := decEq

end Expr

def TypeExpr.span : TypeExpr → Span
  | .named _ _ span => span
  | .record r => r.span

def Expr.span : Expr → Span
  | .scalar _ span => span
  | .record r => r.span

structure Segment where
  name : FieldName
  span : Span
  deriving DecidableEq

abbrev PathExpr := List Segment

def PathExpr.path (p : PathExpr) : Path := p.map Segment.name

namespace FieldExpr

variable {α : Type}

def positions (span : α → Span) (first : Nat) : List α → List (FieldExpr α)
  | [] => []
  | x :: xs => ⟨.position first, span x, x⟩ :: positions span (first + 1) xs

end FieldExpr

end RecordLens
