import RecordLens.Proofs.Literal.Derivation
import RecordLens.Proofs.Token.Breaks

/-! Blanks around a text. No lexeme goes on with a blank that stands behind it, and the quotes that
a text leaves open are not closed by blanks, so that a text has the same lexemes as what is left of
it when it is trimmed. -/

namespace RecordLens

namespace Lexeme

theorem Closes.of_append_blanks {β : Type} {read : List Char → Except Malformed (β × List Char)}
    {more : List Char} (hmore : ∀ b ∈ more, Text.isBlank b = true) {cs tail : List Char} {b : β}
    (h : Closes read (cs ++ more) b tail) :
    ∃ rest, read cs = .ok (b, rest) ∧ tail = rest ++ more := by
  obtain ⟨text, c, hc, hcs, hfound⟩ := h
  have hnot : c ∉ more := fun hmem => absurd (hc.symm.trans (hmore c hmem)) nofun
  rcases List.append_eq_append_iff.1 hcs with ⟨front, rfl, hback⟩ | ⟨front, rfl, hback⟩
  · simp [hback] at hnot
  · cases front with
    | nil =>
      obtain rfl : c :: tail = more := hback
      simp at hnot
    | cons d front =>
      obtain ⟨rfl, rfl⟩ := List.cons.inj hback
      exact ⟨front, hfound front, rfl⟩

theorem take_of_append_blanks [Alphabet] {more : List Char}
    (hmore : ∀ b ∈ more, Text.isBlank b = true) {cs tail : List Char} {l : Lexeme}
    (h : take (cs ++ more) = .ok (l, tail)) :
    ∃ rest, take cs = .ok (l, rest) ∧ tail = rest ++ more := by
  unfold take at h ⊢
  rw [identifier?_append_detached (Text.detached_of_blanks hmore),
    number?_append_detached (Text.detached_of_blanks hmore)] at h
  cases hname : Text.identifier? cs with
  | some found =>
    rw [hname] at h
    obtain ⟨rfl, rfl⟩ := Prod.mk.inj (Except.ok.inj h)
    exact ⟨_, rfl, rfl⟩
  | none =>
    rw [hname] at h
    cases hnumber : number? cs with
    | some found =>
      rw [hnumber] at h
      obtain ⟨rfl, rfl⟩ := Prod.mk.inj (Except.ok.inj h)
      exact ⟨_, rfl, rfl⟩
    | none =>
      rw [hnumber] at h
      exact (closes_mark h).of_append_blanks hmore

end Lexeme

variable [Alphabet]

namespace Token

theorem scans_blanks_append_iff {front : List Char} (hf : ∀ b ∈ front, Text.isBlank b = true)
    {cs : List Char} {ls : List Lexeme} : Scans [] (front ++ cs) ls ↔ Scans [] cs ls := by
  induction front with
  | nil => rfl
  | cons b front ih =>
    obtain ⟨hb, hf⟩ := List.forall_mem_cons.1 hf
    rw [List.cons_append, ← ih hf]
    refine ⟨fun h => ?_, .blank hb⟩
    cases h with
    | blank _ h => exact h
    | lexeme hc => exact absurd (hc.symm.trans hb) nofun

theorem scans_append_blanks_iff {more : List Char} (hmore : ∀ b ∈ more, Text.isBlank b = true)
    {cs : List Char} {ls : List Lexeme} : Scans [] (cs ++ more) ls ↔ Scans [] cs ls := by
  have hblanks {ls : List Lexeme} : Scans [] more ls ↔ Scans [] [] ls := by
    rw [← List.append_nil more]
    exact scans_blanks_append_iff hmore
  constructor
  · intro h
    -- the scan may pass the end of the text only between lexemes, where nothing but blanks are left
    generalize htext : cs ++ more = text at h
    induction h generalizing cs with
    | done =>
      obtain ⟨rfl, rfl⟩ := List.append_eq_nil_iff.1 htext
      exact .done
    | @blank c text ls hc h ih =>
      cases cs with
      | nil =>
        obtain rfl : more = c :: text := htext
        exact hblanks.1 (.blank hc h)
      | cons d cs =>
        obtain ⟨rfl, rfl⟩ := List.cons.inj htext
        exact .blank hc (ih rfl)
    | @lexeme c text tail l ls hc htake h ih =>
      cases cs with
      | nil =>
        obtain rfl : more = c :: text := htext
        exact absurd (hc.symm.trans (hmore c List.mem_cons_self)) nofun
      | cons d cs =>
        obtain ⟨rfl, rfl⟩ := List.cons.inj htext
        have htake : Lexeme.take (d :: cs ++ more) = .ok (l, tail) := htake
        obtain ⟨rest, hfound, rfl⟩ := Lexeme.take_of_append_blanks hmore htake
        exact .lexeme hc hfound (ih rfl)
  · intro h
    have hfront := h.extend (Text.detached_of_blanks hmore)
    simpa using hfront.append (hblanks.2 .done)

/-- A text has the lexemes of what is left of it when it is trimmed. -/
theorem lexes_trim_iff {text : String} {ls : List Lexeme} :
    Lexes (Text.trim text) ls ↔ Lexes text ls := by
  obtain ⟨front, back, hf, hb, htext⟩ := Text.exists_of_trim text
  rw [lexes_iff_scans, lexes_iff_scans, htext, scans_blanks_append_iff hf,
    scans_append_blanks_iff hb]

end Token

end RecordLens
