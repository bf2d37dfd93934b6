import RecordLens.Proofs.Number.Digits
import RecordLens.Proofs.Text.Identifier
import RecordLens.Text.Join

/-! How deep the brackets of a text nest. In a balanced text the depth can be read off its parts. -/

namespace RecordLens.Text

/-- The brackets that are open behind a character. -/
def depthBehind (depth : Nat) (c : Char) : Nat :=
  if c = '(' ∨ c = '{' then depth + 1 else if c = ')' ∨ c = '}' then depth - 1 else depth

def deepest (depth : Nat) : List Char → Nat
  | [] => depth
  | c :: cs => max depth (deepest (depthBehind depth c) cs)

/-- How deep the brackets of the text nest. -/
def nesting (s : String) : Nat := deepest 0 s.toList

/-- The brackets of the characters match, and nest to `k` levels. -/
def Balanced (k : Nat) (cs : List Char) : Prop :=
  ∀ depth rest, deepest depth (cs ++ rest) = max (depth + k) (deepest depth rest)

theorem le_deepest (depth : Nat) (cs : List Char) : depth ≤ deepest depth cs := by
  cases cs with
  | nil => exact Nat.le_refl depth
  | cons c cs => exact Nat.le_max_left _ _

theorem balanced_nil : Balanced 0 [] := by
  intro depth rest
  have := le_deepest depth rest
  simp only [List.nil_append]
  omega

theorem Balanced.append {k l : Nat} {cs ds : List Char} (hc : Balanced k cs)
    (hd : Balanced l ds) : Balanced (max k l) (cs ++ ds) := by
  intro depth rest
  rw [List.append_assoc, hc, hd]
  omega

theorem Balanced.cons {k : Nat} {c : Char} {cs : List Char}
    (hc : c ≠ '(' ∧ c ≠ '{' ∧ c ≠ ')' ∧ c ≠ '}') (h : Balanced k cs) : Balanced k (c :: cs) := by
  intro depth rest
  have hb : depthBehind depth c = depth := by simp [depthBehind, hc]
  rw [List.cons_append, deepest, hb, h]
  omega

theorem balanced_of_plain {cs : List Char}
    (h : ∀ c ∈ cs, c ≠ '(' ∧ c ≠ '{' ∧ c ≠ ')' ∧ c ≠ '}') : Balanced 0 cs := by
  induction cs with
  | nil => exact balanced_nil
  | cons c cs ih =>
    exact .cons (h c List.mem_cons_self) (ih fun d hd => h d (List.mem_cons_of_mem c hd))

theorem Balanced.enclosed {k : Nat} {cs : List Char} (h : Balanced k cs) {opening closing : Char}
    (ho : opening = '(' ∨ opening = '{') (hc : closing = ')' ∨ closing = '}') :
    Balanced (k + 1) (opening :: (cs ++ [closing])) := by
  intro depth rest
  have hopen : depthBehind depth opening = depth + 1 := by simp [depthBehind, ho]
  have hclose : depthBehind (depth + 1) closing = depth := by
    rcases hc with rfl | rfl <;> simp [depthBehind]
  have hrest : deepest (depth + 1) (closing :: rest) = max (depth + 1) (deepest depth rest) := by
    rw [deepest, hclose]
  have hlist : opening :: (cs ++ [closing]) ++ rest = opening :: (cs ++ closing :: rest) := by simp
  rw [hlist, deepest, hopen, h, hrest]
  omega

theorem plain_of_isSubsequent [Alphabet] {c : Char} (h : isSubsequent c = true) :
    c ≠ '(' ∧ c ≠ '{' ∧ c ≠ ')' ∧ c ≠ '}' := by
  refine ⟨?_, ?_, ?_, ?_⟩ <;>
    (rintro rfl; exact Bool.eq_false_iff.1 (isSubsequent_of_ascii (by decide)) h)

theorem IsIdentifier.balanced [Alphabet] {s : String} (h : IsIdentifier s) :
    Balanced 0 s.toList := by
  obtain ⟨c, cs, he, hc, hcs⟩ := identifier?_eq_some h
  rw [he]
  refine balanced_of_plain fun d hd => plain_of_isSubsequent ?_
  cases hd with
  | head => simp [isSubsequent, hc]
  | tail _ hd => exact hcs d hd

theorem balanced_toString (n : Nat) : Balanced 0 (toString n).toList := by
  rw [toList_toString_nat]
  refine balanced_of_plain fun c hc => ?_
  have hdigit := isDigit_of_mem_toDigits hc
  refine ⟨?_, ?_, ?_, ?_⟩ <;> (rintro rfl; exact absurd hdigit (by decide))

theorem foldr_max_le_iff {xs : List Nat} {n : Nat} : xs.foldr max 0 ≤ n ↔ ∀ x ∈ xs, x ≤ n := by
  induction xs with
  | nil => simp
  | cons x xs ih => simp only [List.foldr_cons, Nat.max_le, ih, List.forall_mem_cons]

theorem le_foldr_max {xs : List Nat} {x : Nat} (h : x ∈ xs) : x ≤ xs.foldr max 0 :=
  foldr_max_le_iff.1 (Nat.le_refl _) x h

theorem balanced_commas {α : Type} {text : α → String} {k : α → Nat} {xs : List α}
    (h : ∀ x ∈ xs, Balanced (k x) (text x).toList) :
    Balanced ((xs.map k).foldr max 0) (commas (xs.map text)).toList := by
  induction xs with
  | nil => exact balanced_nil
  | cons x xs ih =>
    have hx := h x List.mem_cons_self
    have hxs := ih fun y hy => h y (List.mem_cons_of_mem x hy)
    cases xs with
    | nil =>
      simpa [commas, joined] using hx
    | cons y ys =>
      have hcomma := (hxs.cons (c := ' ') (by decide)).cons (c := ',') (by decide)
      have htext : (commas ((x :: y :: ys).map text)).toList =
          (text x).toList ++ ',' :: ' ' :: (commas ((y :: ys).map text)).toList := by
        simp [commas, joined]
      rw [htext]
      exact hx.append hcomma

theorem Balanced.nesting_eq {k : Nat} {s : String} (h : Balanced k s.toList) : nesting s = k := by
  have hk := h 0 []
  simpa [nesting, deepest] using hk

end RecordLens.Text
