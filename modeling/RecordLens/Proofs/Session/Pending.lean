import RecordLens.Proofs.Literal.Brackets
import RecordLens.Proofs.Literal.Recognition
import RecordLens.Proofs.Path.Reading
import RecordLens.Proofs.Token.Prefix
import RecordLens.Session.Pending
import RecordLens.Text.Unicode

/-! When the session waits for another line. A text is scanned by what it opens: a lexeme changes
the number of open brackets by its weight, a character that begins no token is skipped, and a
quotation that stays open makes the text go on. Half a literal leaves a bracket or a quotation open
wherever it breaks off, and a whole one leaves none. -/

namespace RecordLens

open Literal (level Balanced Enclosed)
open Token (Scans)

theorem openBrackets_eq_level (tokens : List Token) :
    openBrackets tokens = level (tokens.map Token.lexeme) := by
  induction tokens with
  | nil => rfl
  | cons t rest ih => rw [openBrackets, ih]; rfl

theorem splitAtOffset?_byteLength (before : List Char) (c : Char) (after : List Char) :
    splitAtOffset? (Text.byteLength before) (before ++ c :: after) = some (before, c, after) := by
  rw [splitAtOffset?, Text.takeBytes?_byteLength, Text.dropBytes?_byteLength]

section

variable [Alphabet]

section Scanning

variable {depth : Int} {cs : List Char} {ls : List Lexeme}

theorem openBrackets_of_scans (h : Scans [] cs ls) :
    ∃ tokens, Token.scanFrom .start cs = .ok tokens ∧ openBrackets tokens = level ls := by
  obtain ⟨tokens, hscan, hls⟩ := h.scanFrom_eq_ok .start
  refine ⟨tokens, hscan, ?_⟩
  rw [openBrackets_eq_level, hls, Literal.level_append]
  exact Int.add_zero _

theorem goesOn_of_scans (h : Scans [] cs ls) : goesOn depth cs = decide (0 < depth + level ls) := by
  obtain ⟨tokens, hscan, hlevel⟩ := openBrackets_of_scans h
  rw [goesOn]
  split
  · next he =>
    obtain rfl := Except.ok.inj (he.symm.trans hscan)
    rw [hlevel]
  · next he => cases he.symm.trans hscan

/-- Where no lexeme can be taken, the error tells how far it was read. -/
theorem scanFrom_of_scans_error {c : Char} {tail : List Char} {m : Malformed}
    (h : Scans (c :: tail) cs ls) (hc : Text.isBlank c = false)
    (hm : Lexeme.take (c :: tail) = .error m) :
    ∃ before e, cs = before ++ c :: tail ∧ Token.scanFrom .start cs = .error e ∧
      e.expected = m.expected ∧
      e.span.offset = Text.byteLength (before ++ Token.taken (c :: tail) m.rest) := by
  obtain ⟨before, rfl, hscan⟩ := h.scanFrom_eq_error hc hm
  refine ⟨before, _, rfl, hscan .start, SyntaxError.atCharacter_expected _ _ _, ?_⟩
  rw [SyntaxError.atCharacter_offset, Position.after_offset]
  exact Nat.zero_add _

theorem goesOn_of_quotation {c : Char} {tail : List Char} {expected : Expectation}
    (h : Scans (c :: tail) cs ls) (hc : Text.isBlank c = false)
    (hm : Lexeme.take (c :: tail) = .error ⟨expected, []⟩) : goesOn depth cs = true := by
  obtain ⟨before, e, rfl, hscan, -, hoffset⟩ := scanFrom_of_scans_error h hc hm
  rw [Token.taken_nil] at hoffset
  rw [goesOn]
  split
  · next he => cases he.symm.trans hscan
  · next he =>
    obtain rfl := Except.error.inj (he.symm.trans hscan)
    rw [if_pos (Nat.le_of_eq hoffset.symm)]

theorem goesOn_of_skipped {c : Char} {tail : List Char} (h : Scans (c :: tail) cs ls)
    (hc : Text.isBlank c = false) (hm : Lexeme.take (c :: tail) = .error ⟨.token, c :: tail⟩) :
    goesOn depth cs = goesOn (depth + level ls) tail := by
  obtain ⟨before, e, rfl, hscan, hexpected, hoffset⟩ := scanFrom_of_scans_error h hc hm
  rw [Token.taken_self, List.append_nil] at hoffset
  have hend : ¬Text.byteLength (before ++ c :: tail) ≤ e.span.offset := by
    have := Char.utf8Size_pos c
    rw [hoffset, Text.byteLength_append, Text.byteLength_cons]
    omega
  obtain ⟨text, htext, hbefore⟩ :
      ∃ text, before ++ c :: tail = text ++ c :: tail ∧ Scans [] text ls := Scans.truncate h
  obtain rfl := List.append_cancel_right htext
  obtain ⟨tokens, htokens, hlevel⟩ := openBrackets_of_scans hbefore
  have hsplit := splitAtOffset?_byteLength before c tail
  rw [← hoffset] at hsplit
  rw [goesOn]
  split
  · next he => cases he.symm.trans hscan
  · next he =>
    obtain rfl := Except.error.inj (he.symm.trans hscan)
    rw [if_neg hend, if_pos hexpected]
    split
    · next hnone => cases hnone.symm.trans hsplit
    · next hsome =>
      obtain ⟨rfl, rfl, rfl⟩ := by simpa using hsome.symm.trans hsplit
      split
      · next he => cases he.symm.trans htokens
      · next he =>
        obtain rfl := Except.ok.inj (he.symm.trans htokens)
        rw [hlevel]

end Scanning

/-- From here on no bracket opens or closes and no quotation stays open: behind whatever was
scanned, only the brackets that are open there decide. -/
def Neutral (rest : List Char) : Prop :=
  ∀ (depth : Int) (cs : List Char) (ls : List Lexeme), Scans rest cs ls →
    goesOn depth cs = decide (0 < depth + level ls)

namespace Neutral

variable {c : Char} {cs tail : List Char}

theorem nil : Neutral [] := fun _ _ _ h => goesOn_of_scans h

theorem blank (hc : Text.isBlank c = true) (h : Neutral cs) : Neutral (c :: cs) := by
  intro depth text ls hscans
  have hbehind := h depth text _ (hscans.append (.blank hc .done))
  simpa using hbehind

theorem lexeme {l : Lexeme} (hc : Text.isBlank c = false)
    (htake : Lexeme.take (c :: cs) = .ok (l, tail)) (hl : l.weight = 0) (h : Neutral tail) :
    Neutral (c :: cs) := by
  intro depth text ls hscans
  have hbehind := h depth text _ (hscans.append (.lexeme hc htake .done))
  simpa [hl] using hbehind

theorem skip (hc : Text.isBlank c = false)
    (htake : Lexeme.take (c :: cs) = .error ⟨.token, c :: cs⟩) (h : Neutral cs) :
    Neutral (c :: cs) := by
  intro depth text ls hscans
  rw [goesOn_of_skipped hscans hc htake, h _ _ _ .done, Literal.level_nil, Int.add_zero]

theorem blanks_append (h : ∀ c ∈ cs, Text.isBlank c = true) (htail : Neutral tail) :
    Neutral (cs ++ tail) := by
  induction cs with
  | nil => exact htail
  | cons c cs ih =>
    exact blank (h c List.mem_cons_self) (ih fun d hd => h d (List.mem_cons_of_mem c hd))

theorem plain (h : ∀ c ∈ cs, Lexeme.IsPlain c) : Neutral cs := by
  -- a lexeme may take many characters at once
  induction hlength : cs.length using Nat.strongRecOn generalizing cs with
  | ind n ih =>
    cases cs with
    | nil => exact nil
    | cons c cs =>
      have hcs : Neutral cs := by
        refine ih cs.length ?_ (fun d hd => h d (List.mem_cons_of_mem c hd)) rfl
        simp [← hlength]
      by_cases hc : Text.isBlank c = true
      · exact blank hc hcs
      · have hc : Text.isBlank c = false := by simpa using hc
        rcases Lexeme.take_of_isPlain (h c List.mem_cons_self) cs with
          ⟨l, tail, htake, hopens, hcloses⟩ | herror
        · have htakes := Lexeme.take_takes htake
          refine lexeme hc htake (by simp [Lexeme.weight, hopens, hcloses]) ?_
          exact ih tail.length (hlength ▸ htakes.length_lt)
            (fun d hd => h d (htakes.suffix.subset hd)) rfl
        · exact skip hc herror hcs

theorem word {s : String} (hs : Text.IsIdentifier s)
    (h : ∀ c, tail.head? = some c → Text.isSubsequent c = false) (htail : Neutral tail) :
    Neutral (s.toList ++ tail) := by
  have htake := Lexeme.take_word hs h
  obtain ⟨c, cs, hcs, hc⟩ := hs.exists_cons
  rw [hcs] at htake ⊢
  exact lexeme hc htake rfl htail

theorem number {l : Lexeme} (h : Lexeme.number? (cs ++ tail) = some (l, tail))
    (htail : Neutral tail) : Neutral (cs ++ tail) := by
  obtain ⟨⟨c, rest, rfl, hc⟩, htake⟩ := Lexeme.take_of_number? h
  have hkind := Lexeme.number?_isNumber h
  refine lexeme hc htake ?_ htail
  simp [Lexeme.weight, hkind.opens_eq_false, hkind.closes_eq_false]

theorem point (h : Neutral tail) : Neutral ('.' :: tail) := by
  refine skip (by decide) ?_ h
  rw [Lexeme.take_eq_mark (Text.isInitial_of_ascii (by decide)) (by decide)]
  rfl

end Neutral

theorem goesOn_of_cut {depth : Int} {c : Char} {rest cs : List Char} {ls : List Lexeme}
    (h : Scans (c :: rest) cs ls) (hc : Text.isBlank c = false) (hcut : Lexeme.Cut (c :: rest))
    (hdepth : 0 < depth + level ls) : goesOn depth cs = true := by
  have hneutral (hrest : Neutral (c :: rest)) : goesOn depth cs = true := by
    rw [hrest depth cs ls h]
    exact decide_eq_true hdepth
  cases hcut with
  | quotation he => exact goesOn_of_quotation h hc he
  | word hname => exact hneutral (.lexeme hc hname rfl .nil)
  | plain hplain => exact hneutral (.plain hplain)

namespace PathExpr

theorem fraction?_of_label {name : String} (h : Text.IsIdentifier name) (rest : List Char) :
    Lexeme.fraction? ('.' :: (name.toList ++ rest)) = none := by
  obtain ⟨c, cs, hcs, hc, -⟩ := Text.identifier?_eq_some h
  have hdigit : ¬c.isDigit = true := fun hd =>
    absurd ((Text.isInitial_of_isDigit hd).symm.trans hc) nofun
  simp [hcs, Lexeme.fraction?, hdigit]

/-- Paths are neutral. Positions on both sides of a point are scanned as one number. -/
theorem IsTail.neutral {tail : List Char} (h : IsTail tail) :
    Neutral tail ∧ ∀ text, Segment.IsText text → Neutral (text ++ tail) := by
  induction h with
  | @blanks tail h =>
    have htail := IsTail.blanks h
    have hneutral : Neutral tail := by simpa using Neutral.nil.blanks_append h
    refine ⟨hneutral, fun text htext => ?_⟩
    cases htext with
    | label hname => exact hneutral.word hname htail.not_isSubsequent
    | position hdigits =>
      have hdelimited : Text.Delimited tail := by
        refine fun c hc => ⟨htail.not_isSubsequent c hc, ?_⟩
        rintro rfl
        exact absurd (h '.' (List.mem_of_mem_head? hc)) (by decide)
      have hnumber := Lexeme.number?_append hdigits htail.not_isDigit
      rw [Lexeme.fraction?_of_delimited hdelimited, Lexeme.exponent?_of_delimited hdelimited]
        at hnumber
      exact .number hnumber hneutral
  | @segment next tail hnext htail ih =>
    obtain ⟨hneutral, hbehind⟩ := ih
    have hpoint : Neutral ('.' :: (next ++ tail)) := (hbehind next hnext).point
    refine ⟨hpoint, fun text htext => ?_⟩
    cases htext with
    | label hname => exact hpoint.word hname (IsTail.segment hnext htail).not_isSubsequent
    | position hdigits =>
      have hnumber := Lexeme.number?_append hdigits (IsTail.segment hnext htail).not_isDigit
      cases hnext with
      | label hname =>
        have hpoint' : Text.isSubsequent '.' = false := Text.isSubsequent_of_ascii (by decide)
        rw [fraction?_of_label hname,
          Lexeme.exponent?_of_not_isSubsequent (by simpa using hpoint')] at hnumber
        exact .number hnumber hpoint
      | position hnext =>
        rw [Lexeme.fraction?_append hnext htail.not_isDigit] at hnumber
        simp only [Lexeme.exponent?_of_not_isSubsequent htail.not_isSubsequent] at hnumber
        have hrow : text ++ '.' :: (next ++ tail) = text ++ '.' :: next ++ tail := by simp
        rw [hrow] at hnumber ⊢
        exact .number hnumber hneutral

theorem not_needsMore_of_read {text : String} {segments : PathExpr}
    (h : read text = .ok segments) : needsMore text = false := by
  obtain ⟨next, tail, htext, hnext, htail⟩ := isTail_of_readFrom h
  have hfront : ∀ c ∈ text.toList.takeWhile Text.isBlank, Text.isBlank c = true :=
    List.all_eq_true.1 List.all_takeWhile
  have hneutral : Neutral (text.toList.takeWhile Text.isBlank ++ (next ++ tail)) :=
    (htail.neutral.2 next hnext).blanks_append hfront
  rw [← htext, List.takeWhile_append_dropWhile] at hneutral
  simpa [needsMore] using hneutral 0 _ _ .done

end PathExpr

/-- What is read as a type closes all its brackets. -/
theorem TypeExpr.balanced_of_read {limit : Nat} {text : String} {e : TypeExpr}
    (h : read limit text = .ok e) : ∃ ls, Token.Lexes text ls ∧ Balanced ls := by
  obtain ⟨ls, x, hlexes, hwritten, -⟩ := Reader.written_of_read derives h
  exact ⟨ls, hlexes, hwritten.balanced⟩

theorem TypeExpr.enclosed_of_readRecord {limit : Nat} {text : String} {r : RecordExpr TypeExpr}
    (h : readRecord limit text = .ok r) : ∃ ls, Token.Lexes text ls ∧ Enclosed ls := by
  obtain ⟨ls, x, hlexes, hwritten, haccept⟩ := Reader.written_of_read derives h
  cases x with
  | named => exact absurd haccept nofun
  | record r =>
    rw [unplaced_record] at hwritten
    exact ⟨ls, hlexes, hwritten.enclosed⟩

theorem Expr.balanced_of_read {limit : Nat} {text : String} {e : Expr}
    (h : read limit text = .ok e) : ∃ ls, Token.Lexes text ls ∧ Balanced ls := by
  obtain ⟨ls, x, hlexes, hwritten, -⟩ := Reader.written_of_read derives h
  exact ⟨ls, hlexes, hwritten.balanced⟩

theorem Expr.enclosed_of_readRecord {limit : Nat} {text : String} {r : RecordExpr Expr}
    (h : readRecord limit text = .ok r) : ∃ ls, Token.Lexes text ls ∧ Enclosed ls := by
  obtain ⟨ls, x, hlexes, hwritten, haccept⟩ := Reader.written_of_read derives h
  cases x with
  | scalar => exact absurd haccept nofun
  | record r =>
    rw [unplaced_record] at hwritten
    exact ⟨ls, hlexes, hwritten.enclosed⟩

end

namespace Session

section

variable [Alphabet]

/-- What may stand before a literal: nothing, or the command that gives it a name. -/
inductive LeadIn : String → Prop
  | nothing : LeadIn ""
  | value {name : String} (h : Text.IsIdentifier name) : LeadIn ("let " ++ name ++ " = ")
  | type {name : String} (h : Text.IsIdentifier name) : LeadIn ("type " ++ name ++ " = ")

/-- The part breaks off inside of the text: it reaches into it, and leaves something behind. -/
def BreaksOff (part text : String) : Prop :=
  ∃ rest, text.toList = part.toList ++ rest ∧ (∃ c ∈ part.toList, Text.isBlank c = false) ∧
    ∃ c ∈ rest, Text.isBlank c = false

theorem scans_command {command name : String} (hcommand : Text.IsIdentifier command)
    (hname : Text.IsIdentifier name) (cs : List Char) :
    Scans cs (command.toList ++ ' ' :: (name.toList ++ ' ' :: '=' :: ' ' :: cs))
      [.identifier command, .identifier name, .equals] := by
  have hequals := Lexeme.take_punctuation (c := '=') rfl (' ' :: cs)
  have hblank (rest : List Char) : Text.Delimited (' ' :: rest) :=
    Text.delimited_of_ascii (by decide)
  refine .word hcommand (hblank _) (.blank (by decide) ?_)
  refine .word hname (hblank _) (.blank (by decide) ?_)
  exact .lexeme hequals.1 hequals.2 (.blank (by decide) .done)

theorem LeadIn.scans {head : String} (h : LeadIn head) (cs : List Char) :
    ∃ ls, level ls = 0 ∧ Scans cs (head.toList ++ cs) ls := by
  cases h with
  | nothing => exact ⟨[], rfl, .done⟩
  | value h =>
    have hlet : Text.IsIdentifier "let" :=
      Text.isIdentifier_of_isAlphanum 'l' ['e', 't'] rfl rfl
    exact ⟨_, rfl, by simpa using scans_command hlet h cs⟩
  | type h =>
    have htype : Text.IsIdentifier "type" :=
      Text.isIdentifier_of_isAlphanum 't' ['y', 'p', 'e'] rfl rfl
    exact ⟨_, rfl, by simpa using scans_command htype h cs⟩

section Literals

variable {head text part : String} {ls : List Lexeme}

/-- What is balanced is whole. -/
theorem not_needsMore_of_lexes (hhead : LeadIn head) (hlexes : Token.Lexes text ls)
    (hlevel : level ls = 0) : needsMore (head ++ text) = false := by
  obtain ⟨hls, hlevel_head, hscans⟩ := hhead.scans text.toList
  have hwhole := hscans.append hlexes.scans
  rw [needsMore, String.toList_append, goesOn_of_scans hwhole, Literal.level_append, hlevel_head,
    hlevel]
  rfl

theorem needsMore_of_breaksOff (hhead : LeadIn head) (hlexes : Token.Lexes text ls)
    (henclosed : Enclosed ls) (hpart : BreaksOff part text) : needsMore (head ++ part) = true := by
  obtain ⟨rest, htext, hfront, hback⟩ := hpart
  obtain ⟨hls, hlevel_head, hscans⟩ := hhead.scans part.toList
  have hwhole := hlexes.scans
  rw [htext] at hwhole
  rw [needsMore, String.toList_append]
  obtain ⟨ls₁, ls₂, hsplit, ⟨hls₁, hls₂⟩ | ⟨c, tail, l, ls₃, hls₁, hc, hcut, hopens, rfl⟩⟩ :=
    hwhole.split
  · have hlevel := henclosed.level_pos hsplit (hls₁.ne_nil hfront) (hls₂.ne_nil hback)
    rw [goesOn_of_scans (hscans.append hls₁), Literal.level_append, hlevel_head]
    simpa using hlevel
  · have hne : ls₁ ≠ [] := by
      rintro rfl
      exact absurd ((henclosed.opens_head hsplit).symm.trans hopens) nofun
    have hlevel := henclosed.level_pos hsplit hne (List.cons_ne_nil l ls₃)
    refine goesOn_of_cut (hscans.append hls₁) hc hcut ?_
    rw [Literal.level_append, hlevel_head]
    simpa using hlevel

end Literals

/-- The session goes on to ask for lines exactly as long as a record or a record type is not whole,
wherever the part that was entered ends, and with or without the command in front of it. It asks
for no line behind a whole type, value or path. -/
theorem needsMore_until_whole :
    (∀ (limit : Nat) (text : String),
      ((∃ r, Expr.readRecord limit text = .ok r) ∨ ∃ r, TypeExpr.readRecord limit text = .ok r) →
      ∀ head, LeadIn head → needsMore (head ++ text) = false ∧
        ∀ part, BreaksOff part text → needsMore (head ++ part) = true) ∧
    ∀ (limit : Nat) (text : String),
      ((∃ e, TypeExpr.read limit text = .ok e) ∨ (∃ e, Expr.read limit text = .ok e) ∨
        ∃ p, PathExpr.read text = .ok p) →
      needsMore text = false := by
  have hbalanced {text : String} (h : ∃ ls, Token.Lexes text ls ∧ Balanced ls) :
      needsMore text = false := by
    obtain ⟨ls, hlexes, hls⟩ := h
    have hwhole := not_needsMore_of_lexes .nothing hlexes hls.level_eq
    rwa [String.empty_append] at hwhole
  constructor
  · intro limit text htext head hhead
    obtain ⟨ls, hlexes, henclosed⟩ : ∃ ls, Token.Lexes text ls ∧ Enclosed ls := by
      rcases htext with ⟨r, hr⟩ | ⟨r, hr⟩
      · exact Expr.enclosed_of_readRecord hr
      · exact TypeExpr.enclosed_of_readRecord hr
    exact ⟨not_needsMore_of_lexes hhead hlexes henclosed.level_eq,
      fun part hpart => needsMore_of_breaksOff hhead hlexes henclosed hpart⟩
  · rintro limit text (⟨e, he⟩ | ⟨e, he⟩ | ⟨p, hp⟩)
    · exact hbalanced (TypeExpr.balanced_of_read he)
    · exact hbalanced (Expr.balanced_of_read he)
    · exact PathExpr.not_needsMore_of_read hp

end

/-- A bracket in a string that breaks off, behind a label with a prime. -/
theorem needsMore_until_whole_quoted :
    (∃ r, Expr.readRecord usualNesting "\x7bx' = 12, s = \"(\"\x7d" = .ok r) ∧
      LeadIn "let p = " ∧
      BreaksOff "\x7bx' = 12, s = \"(" "\x7bx' = 12, s = \"(\"\x7d" ∧
      needsMore ("let p = " ++ "\x7bx' = 12, s = \"(\"\x7d") = false ∧
      needsMore ("let p = " ++ "\x7bx' = 12, s = \"(") = true := by
  have hread : (Expr.readRecord usualNesting "\x7bx' = 12, s = \"(\"\x7d").isOk = true := by
    decide +kernel
  have htext : ∃ r, Expr.readRecord usualNesting "\x7bx' = 12, s = \"(\"\x7d" = .ok r := by
    cases h : Expr.readRecord usualNesting "\x7bx' = 12, s = \"(\"\x7d" with
    | error e =>
      rw [h] at hread
      cases hread
    | ok r => exact ⟨r, rfl⟩
  have hhead : LeadIn "let p = " := by
    have hname : Text.IsIdentifier "p" := by decide
    exact LeadIn.value hname
  have hpart : BreaksOff "\x7bx' = 12, s = \"(" "\x7bx' = 12, s = \"(\"\x7d" := by
    refine ⟨['"', '\x7d'], by decide, ⟨'\x7b', by decide, by decide⟩, '"', by decide, by decide⟩
  obtain ⟨hwhole, hparts⟩ := needsMore_until_whole.1 usualNesting _ (.inl htext) _ hhead
  exact ⟨htext, hhead, hpart, hwhole, hparts _ hpart⟩

end Session

end RecordLens
