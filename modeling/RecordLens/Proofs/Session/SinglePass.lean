import RecordLens.Proofs.Session.Pending
import RecordLens.Proofs.Token.Tiling

/-! The lines of an input as one pass sees them. The session scans a text, cuts out a character that
begins no token, scans what stands before it once more and goes on behind it. A single pass from
left to right, which skips such characters as it meets them, comes to the same answer. -/

namespace RecordLens

open Literal (level)
open Token (Scans)

section

variable [Alphabet]

/-- Whether the characters go on in the next line, found in one pass, with `depth` brackets open
before them. Blanks and characters that begin no token are skipped, and a quotation that is
malformed goes on if that is so at the end. -/
def awaitsMore (depth : Int) : List Char → Bool
  | [] => 0 < depth
  | c :: cs =>
    if Text.isBlank c then awaitsMore depth cs
    else
      match _h : Lexeme.take (c :: cs) with
      | .ok (l, rest) => awaitsMore (depth + l.weight) rest
      | .error m => if c = '"' ∨ c = '\'' then m.rest.isEmpty else awaitsMore depth cs
termination_by cs => cs.length
decreasing_by
  · exact Nat.lt_succ_self _
  · exact (Lexeme.take_takes _h).length_lt
  · exact Nat.lt_succ_self _

namespace Lexeme

/-- Where nothing can be taken, a quotation has begun or no token can begin. -/
theorem expected_eq_token_iff {c : Char} {cs : List Char} {m : Malformed}
    (h : take (c :: cs) = .error m) : m.expected = .token ↔ ¬(c = '"' ∨ c = '\'') := by
  unfold take at h
  split at h
  · cases h
  · split at h
    · cases h
    · unfold mark at h
      split at h
      · next rest heq =>
        obtain ⟨rfl, rfl⟩ := List.cons.inj heq
        simp [(stringBody_error (error_of_map_eq_error h)).2]
      · next rest heq =>
        obtain ⟨rfl, rfl⟩ := List.cons.inj heq
        simp [(characterBody_error h).2]
      case h_11 hstring hcharacter _ _ _ _ _ _ _ _ =>
        obtain rfl := Except.error.inj h
        refine ⟨fun _ => ?_, fun _ => rfl⟩
        rintro (rfl | rfl)
        · exact hstring cs rfl
        · exact hcharacter cs rfl
      all_goals cases h

end Lexeme

section Scanning

variable {depth : Int} {cs : List Char} {ls : List Lexeme} {c : Char} {tail : List Char}

theorem goesOn_of_malformed {m : Malformed} (h : Scans (c :: tail) cs ls)
    (hc : Text.isBlank c = false) (hm : Lexeme.take (c :: tail) = .error m)
    (hexpected : m.expected ≠ .token) : goesOn depth cs = m.rest.isEmpty := by
  obtain ⟨expected, rest⟩ := m
  cases rest with
  | nil => exact goesOn_of_quotation h hc hm
  | cons d rest =>
    obtain ⟨before, e, rfl, hscan, he, hoffset⟩ := scanFrom_of_scans_error h hc hm
    obtain ⟨text, htext⟩ := (Lexeme.take_error hm).1
    have hend : ¬Text.byteLength (before ++ c :: tail) ≤ e.span.offset := by
      have hpos := Char.utf8Size_pos d
      rw [hoffset, ← htext, Token.taken_append]
      simp only [Text.byteLength_append, Text.byteLength_cons]
      omega
    have htoken : e.expected ≠ .token := he ▸ hexpected
    rw [goesOn]
    split
    · next hok => cases hok.symm.trans hscan
    · next herror =>
      obtain rfl := Except.error.inj (herror.symm.trans hscan)
      rw [if_neg hend, if_neg htoken]
      rfl

/-- Behind what was scanned, the session goes on as one pass does. -/
theorem goesOn_eq_awaitsMore {rest : List Char} (h : Scans rest cs ls) :
    goesOn depth cs = awaitsMore (depth + level ls) rest := by
  generalize hd : depth + level ls = d
  fun_induction awaitsMore d rest generalizing depth cs ls with
  | case1 d => rw [goesOn_of_scans h, hd]
  | case2 d c rest hc ih => exact ih (h.append (.blank hc .done)) (by simpa using hd)
  | case3 d c rest hc l tail htake ih =>
    have hbehind := h.append (.lexeme (by simpa using hc) htake .done)
    refine ih hbehind ?_
    rw [Literal.level_append, ← hd, Int.add_assoc]
    simp
  | case4 d c rest hc m hm hquote =>
    have hexpected : m.expected ≠ .token := fun he =>
      (Lexeme.expected_eq_token_iff hm).1 he hquote
    exact goesOn_of_malformed h (by simpa using hc) hm hexpected
  | case5 d c rest hc m hm hquote ih =>
    have hexpected : m.expected = .token := (Lexeme.expected_eq_token_iff hm).2 hquote
    have hm' : Lexeme.take (c :: rest) = .error ⟨.token, c :: rest⟩ := by
      rw [hm, ← hexpected, ← (Lexeme.take_error hm).2 hexpected]
    rw [goesOn_of_skipped h (by simpa using hc) hm']
    exact ih .done (by simpa using hd)

/-- A character that begins no token is cut out, what stands before it is scanned without an error,
and what stands behind it is shorter than before. -/
theorem exists_of_skipped {e : SyntaxError} (h : Token.scanFrom .start cs = .error e)
    (he : e.expected = .token) :
    ∃ before c after tokens, splitAtOffset? e.span.offset cs = some (before, c, after) ∧
      e.span.length = c.utf8Size ∧ Token.scanFrom .start before = .ok tokens ∧
      after.length < cs.length ∧
      ∀ depth, goesOn depth cs = goesOn (depth + openBrackets tokens) after := by
  obtain ⟨c, after, ls, ⟨expected, rest⟩, hscans, hc, hm⟩ := Token.exists_of_scanFrom_error h
  obtain ⟨before, rfl, hscan⟩ := hscans.scanFrom_eq_error hc hm
  obtain rfl := Except.error.inj (h.symm.trans (hscan .start))
  obtain rfl : expected = .token := (SyntaxError.atCharacter_expected _ _ _).symm.trans he
  obtain rfl : rest = c :: after := (Lexeme.take_error hm).2 rfl
  obtain ⟨text, htext, hbefore⟩ :
      ∃ text, before ++ c :: after = text ++ c :: after ∧ Scans [] text ls := Scans.truncate hscans
  obtain rfl := List.append_cancel_right htext
  obtain ⟨tokens, htokens, hlevel⟩ := openBrackets_of_scans hbefore
  refine ⟨before, c, after, tokens, ?_, Span.covering_length _ [c], htokens, ?_, fun depth => ?_⟩
  · rw [Token.taken_self, List.append_nil, SyntaxError.atCharacter_offset,
      Position.start_after_offset]
    exact splitAtOffset?_byteLength before c after
  · simp
    omega
  · rw [goesOn_of_skipped hscans hc hm, hlevel]

end Scanning

/-- Whether an input goes on in the next line is what a single pass finds. The session comes to it
step by step: each time it cuts out a character that begins no token, scans what stands before it,
which never fails, and goes on with the fewer characters behind it. -/
theorem needsMore_eq_awaitsMore :
    (∀ text : String, needsMore text = awaitsMore 0 text.toList) ∧
    ∀ (cs : List Char) (e : SyntaxError), Token.scanFrom .start cs = .error e →
      e.expected = .token →
      ∃ before c after tokens, splitAtOffset? e.span.offset cs = some (before, c, after) ∧
        e.span.length = c.utf8Size ∧ Token.scanFrom .start before = .ok tokens ∧
        after.length < cs.length ∧
        ∀ depth, goesOn depth cs = goesOn (depth + openBrackets tokens) after := by
  constructor
  · intro text
    have h : Scans text.toList text.toList [] := .done
    rw [needsMore, goesOn_eq_awaitsMore h]
    rfl
  · exact fun cs e h he => exists_of_skipped h he

end

/-- The colon of a binding is cut out. -/
theorem needsMore_eq_awaitsMore_binding :
    needsMore "let p : \x7b" = awaitsMore 0 "let p : \x7b".toList ∧
      ∃ e, Token.scanFrom .start "let p : \x7b".toList = .error e ∧ e.expected = .token ∧
        ∃ before c after tokens,
          splitAtOffset? e.span.offset "let p : \x7b".toList = some (before, c, after) ∧
          e.span.length = c.utf8Size ∧ Token.scanFrom .start before = .ok tokens ∧
          after.length < "let p : \x7b".toList.length ∧
          ∀ depth, goesOn depth "let p : \x7b".toList =
            goesOn (depth + openBrackets tokens) after := by
  obtain ⟨hpass, hcut⟩ := needsMore_eq_awaitsMore
  have hscan : Token.scanFrom .start "let p : \x7b".toList =
      .error ⟨⟨⟨1, 7, 6⟩, 1⟩, .token, "`:`"⟩ := by
    decide +kernel
  exact ⟨hpass _, _, hscan, rfl, hcut _ _ hscan rfl⟩

end RecordLens
