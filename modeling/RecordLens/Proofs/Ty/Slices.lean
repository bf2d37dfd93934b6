import RecordLens.Proofs.Literal.Brackets
import RecordLens.Proofs.Literal.Recognition
import RecordLens.Proofs.Token.Runs

/-! The slices that the places of a type delimit. A type that is read is laid out on tokens in a
row, and so are all types in it. But parentheses around a single type are not part of its place, and
a name with arguments reaches to the place of the last one. So where the last argument stands in
parentheses, those that close it are left out, and the slice is a type only together with them. -/

namespace RecordLens

def Token.Ordered (tokens : List Token) : Prop :=
  tokens.Pairwise fun t u => t.span.offset + t.span.length ≤ u.span.offset

namespace TypeExpr

mutual

/-- The type and all types in it. -/
def nodes : TypeExpr → List TypeExpr
  | .named name args span => .named name args span :: argNodes args
  | .record ⟨fields, span⟩ => .record ⟨fields, span⟩ :: fieldNodes fields

def argNodes : List TypeExpr → List TypeExpr
  | [] => []
  | arg :: rest => nodes arg ++ argNodes rest

def fieldNodes : List (FieldExpr TypeExpr) → List TypeExpr
  | [] => []
  | ⟨_, _, item⟩ :: rest => nodes item ++ fieldNodes rest

end

@[simp] theorem nodes_named (name : String) (args : List TypeExpr) (span : Span) :
    (named name args span).nodes = .named name args span :: args.flatMap nodes := by
  have h : argNodes args = args.flatMap nodes := by
    induction args with
    | nil => rfl
    | cons arg rest ih => rw [argNodes, List.flatMap_cons, ih]
  rw [nodes, h]

@[simp] theorem nodes_record (fields : List (FieldExpr TypeExpr)) (span : Span) :
    (record ⟨fields, span⟩).nodes =
      .record ⟨fields, span⟩ :: fields.flatMap fun f => f.item.nodes := by
  have h : fieldNodes fields = fields.flatMap fun f => f.item.nodes := by
    induction fields with
    | nil => rfl
    | cons f rest ih => rw [fieldNodes, List.flatMap_cons, ih]
  rw [nodes, h]

/-- The place ends behind the tokens, or behind those in front of parentheses that close. -/
def Reaches (tokens : List Token) (stop : Nat) : Prop :=
  ∃ core closers last, tokens = core ++ closers ∧ (∀ t ∈ closers, t.lexeme = .closeParen) ∧
    core.getLast? = some last ∧ last.span.offset + last.span.length = stop

theorem reaches_concat (front : List Token) (last : Token) :
    Reaches (front ++ [last]) (last.span.offset + last.span.length) :=
  ⟨front ++ [last], [], last, (List.append_nil _).symm, nofun, List.getLast?_concat, rfl⟩

theorem Reaches.append {tokens : List Token} {stop : Nat} (h : Reaches tokens stop)
    (front : List Token) : Reaches (front ++ tokens) stop := by
  obtain ⟨core, closers, last, rfl, hclosers, hlast, hstop⟩ := h
  refine ⟨front ++ core, closers, last, (List.append_assoc ..).symm, hclosers, ?_, hstop⟩
  rw [List.getLast?_append, hlast]
  rfl

theorem Reaches.concat {tokens : List Token} {stop : Nat} (h : Reaches tokens stop) {t : Token}
    (ht : t.lexeme = .closeParen) : Reaches (tokens ++ [t]) stop := by
  obtain ⟨core, closers, last, rfl, hclosers, hlast, hstop⟩ := h
  refine ⟨core, closers ++ [t], last, List.append_assoc .., ?_, hlast, hstop⟩
  exact List.forall_mem_append.2 ⟨hclosers, List.forall_mem_singleton.2 ht⟩

/-- The type reaches from the first token of the run to the last, and with the parentheses that
close behind them it is what they are within `n` brackets. Such parentheses stand only behind a name
with arguments. -/
structure On (n : Nat) (run closers : List Token) (e : TypeExpr) : Prop where
  bound : Token.Bound run e.span
  closing : ∀ t ∈ closers, t.lexeme = .closeParen
  written : Written n ((run ++ closers).map Token.lexeme) e.unplaced
  whole : closers = [] ∨ ∃ s args span, e = .named s args span ∧ args ≠ []

def OnSome (n : Nat) (tokens : List Token) (e : TypeExpr) : Prop :=
  ∃ m ≤ n, ∃ run closers, run ++ closers <:+: tokens ∧ On m run closers e

theorem OnSome.mono {m n : Nat} {row tokens : List Token} {e : TypeExpr} (h : OnSome m row e)
    (hle : m ≤ n) (hrow : row <:+: tokens) : OnSome n tokens e := by
  obtain ⟨k, hk, run, closers, hrun, hon⟩ := h
  exact ⟨k, Nat.le_trans hk hle, run, closers, hrun.trans hrow, hon⟩

def AllOn (n : Nat) (tokens : List Token) (e : TypeExpr) : Prop :=
  Token.Ordered tokens →
    (∀ node ∈ e.nodes, OnSome n tokens node) ∧ Reaches tokens (e.span.offset + e.span.length)

theorem AllOn.nodes_onSome {m n : Nat} {row tokens : List Token} {e : TypeExpr}
    (h : AllOn m row e) (hle : m ≤ n) (hrow : row <:+: tokens) (ht : Token.Ordered tokens) :
    ∀ node ∈ e.nodes, OnSome n tokens node :=
  fun node hnode => ((h (ht.sublist hrow.sublist)).1 node hnode).mono hle hrow

theorem through_end {first last : Token} {rest : List Token}
    (ht : Token.Ordered (first :: rest)) (hlast : last ∈ rest) :
    (first.span.through last.span).offset + (first.span.through last.span).length =
      last.span.offset + last.span.length := by
  have hle := (List.pairwise_cons.1 ht).1 last hlast
  show first.span.offset + (last.span.offset + last.span.length - first.span.offset) = _
  omega

theorem allOn_record {n : Nat} {first last : Token} {inner : List Token}
    {fields : List (FieldExpr TypeExpr)}
    (hwritten : Written (n + 1) ((first :: (inner ++ [last])).map Token.lexeme)
      (record ⟨fields, first.span.through last.span⟩).unplaced)
    (h : ∀ f ∈ fields, Reader.Among (AllOn n) inner f.item) :
    AllOn (n + 1) (first :: (inner ++ [last]))
      (.record ⟨fields, first.span.through last.span⟩) := by
  intro ht
  have hinner := Token.infix_enclosed first inner last
  constructor
  · rw [nodes_record, List.forall_mem_cons, List.forall_mem_flatMap]
    refine ⟨⟨n + 1, Nat.le_refl _, first :: (inner ++ [last]), [], ?_, ?_⟩, fun f hf => ?_⟩
    · simp
    · exact ⟨Token.bound_concat first inner last, nofun, by rwa [List.append_nil], .inl rfl⟩
    · obtain ⟨row, hrow, hitem⟩ := h f hf
      exact hitem.nodes_onSome (Nat.le_succ n) (hrow.trans hinner) ht
  · show Reaches _ ((first.span.through last.span).offset + (first.span.through last.span).length)
    rw [through_end ht (List.mem_append_right _ List.mem_cons_self)]
    exact reaches_concat (first :: inner) last

theorem reaches_flatten {n : Nat} {rows : List (List Token)} {args : List TypeExpr}
    (h : List.Forall₂ (AllOn n) rows args) (ht : Token.Ordered rows.flatten) {last : TypeExpr}
    (hlast : args.getLast? = some last) :
    Reaches rows.flatten (last.span.offset + last.span.length) := by
  induction h with
  | nil => cases hlast
  | @cons row arg rows args harg hargs ih =>
    rw [List.flatten_cons] at ht ⊢
    obtain ⟨hrow, hrows, -⟩ := List.pairwise_append.1 ht
    by_cases hmore : args = []
    · obtain rfl := hmore
      cases hargs
      obtain rfl := Option.some.inj hlast
      rw [List.flatten_nil, List.append_nil]
      exact (harg hrow).2
    · rw [List.getLast?_cons_of_ne_nil hmore] at hlast
      exact (ih hrows hlast).append row

theorem nodes_onSome_flatten {n : Nat} {rows : List (List Token)} {args : List TypeExpr}
    (h : List.Forall₂ (AllOn n) rows args) (ht : Token.Ordered rows.flatten) :
    ∀ arg ∈ args, ∀ node ∈ arg.nodes, OnSome n rows.flatten node := by
  induction h with
  | nil => nofun
  | @cons row arg rows args harg hargs ih =>
    rw [List.flatten_cons] at ht ⊢
    have hrows : rows.flatten <:+: row ++ rows.flatten := (List.suffix_append row _).isInfix
    refine List.forall_mem_cons.2 ⟨?_, fun a ha node hnode => ?_⟩
    · exact harg.nodes_onSome (Nat.le_refl n) (List.prefix_append row _).isInfix ht
    · exact (ih (ht.sublist hrows.sublist) a ha node hnode).mono (Nat.le_refl n) hrows

section Named

variable {n : Nat} {first : Token} {rows : List (List Token)} {a : Application}
  (hspan : a.span = first.span)

include hspan

theorem onSome_name (hnone : a.args = [])
    (h : Written n ([first].map Token.lexeme) a.typeExpr.unplaced) :
    OnSome n [first] a.typeExpr ∧
      Reaches [first] (a.typeExpr.span.offset + a.typeExpr.span.length) := by
  have hplace : a.typeExpr.span = first.span := by
    simp [Application.typeExpr, TypeExpr.span, hnone, hspan]
  have hbound : Token.Bound [first] a.typeExpr.span := hplace ▸ Token.bound_single first
  have hon : On n [first] [] a.typeExpr := ⟨hbound, List.forall_mem_nil _, h, .inl rfl⟩
  rw [hplace]
  exact ⟨⟨n, Nat.le_refl n, [first], [], List.infix_rfl, hon⟩, reaches_concat [] first⟩

/-- A name with arguments reaches to the last one, which may stand in parentheses. -/
theorem onSome_applied {tokens : List Token} {arg : TypeExpr} (hlast : a.args.getLast? = some arg)
    (ht : Token.Ordered (first :: tokens))
    (harg : Reaches tokens (arg.span.offset + arg.span.length))
    (h : Written n ((first :: tokens).map Token.lexeme) a.typeExpr.unplaced) :
    OnSome n (first :: tokens) a.typeExpr ∧
      Reaches (first :: tokens) (a.typeExpr.span.offset + a.typeExpr.span.length) := by
  obtain ⟨core, closers, last, rfl, hclosers, hcore, hstop⟩ := harg
  have hmem : last ∈ core := List.mem_of_getLast? hcore
  have hplace : a.typeExpr.span = first.span.through last.span := by
    simp [Application.typeExpr, TypeExpr.span, hlast, hspan, Span.through, hstop]
  have hend : (first :: core).getLast? = some last := by
    rw [List.getLast?_cons_of_ne_nil (List.ne_nil_of_mem hmem), hcore]
  refine ⟨⟨n, Nat.le_refl n, first :: core, closers, List.infix_rfl, ?_⟩, ?_⟩
  · refine ⟨⟨first, last, rfl, hend, hplace⟩, hclosers, h, .inr ?_⟩
    exact ⟨_, _, _, rfl, fun hnil => by simp [hnil] at hlast⟩
  · refine ⟨first :: core, closers, last, rfl, hclosers, hend, ?_⟩
    rw [hplace, through_end ht (List.mem_append_left _ hmem)]

theorem allOn_named (hargs : List.Forall₂ (AllOn n) rows a.args)
    (h : Written n ((first :: rows.flatten).map Token.lexeme) a.typeExpr.unplaced) :
    AllOn n (first :: rows.flatten) a.typeExpr := by
  intro ht
  have hrows : Token.Ordered rows.flatten := (List.pairwise_cons.1 ht).2
  have hself : OnSome n (first :: rows.flatten) a.typeExpr ∧
      Reaches (first :: rows.flatten) (a.typeExpr.span.offset + a.typeExpr.span.length) := by
    cases hlast : a.args.getLast? with
    | none =>
      have hnone : a.args = [] := List.getLast?_eq_none_iff.1 hlast
      obtain rfl : rows = [] := by
        rw [hnone] at hargs
        cases hargs
        rfl
      exact onSome_name hspan hnone h
    | some arg => exact onSome_applied hspan hlast ht (reaches_flatten hargs hrows hlast) h
  refine ⟨?_, hself.2⟩
  rw [Application.typeExpr, nodes_named, List.forall_mem_cons, List.forall_mem_flatMap]
  refine ⟨hself.1, fun arg harg node hnode => ?_⟩
  exact (nodes_onSome_flatten hargs hrows arg harg node hnode).mono (Nat.le_refl n)
    (List.suffix_cons first _).isInfix

end Named

theorem laidOut_allOn : LaidOut AllOn where
  named _ hspan hargs h := allOn_named hspan hargs h
  bracketed {n tokens e} h hencased := by
    have hwritten : Written (n + 1) (tokens.map Token.lexeme) e.unplaced := .bracketed h
    cases hencased with
    | braces hfirst hamong => exact allOn_record hwritten fun f hf => (hamong f hf).2
    | @parentheses first last inner _ hlast hall =>
      intro ht
      have hinner := Token.infix_enclosed first inner last
      refine ⟨hall.nodes_onSome (Nat.le_succ n) hinner ht, ?_⟩
      exact ((hall (ht.sublist hinner.sublist)).2.concat hlast).append [first]
    | tuple hfirst hamong =>
      exact allOn_record hwritten fun f hf =>
        hamong f.item (FieldExpr.item_mem_of_mem_positions hf)

theorem level_closers {closers : List Token} (h : ∀ t ∈ closers, t.lexeme = .closeParen) :
    Literal.level (closers.map Token.lexeme) = -closers.length := by
  induction closers with
  | nil => rfl
  | cons t closers ih =>
    obtain ⟨ht, hclosers⟩ := List.forall_mem_cons.1 h
    rw [List.map_cons, Literal.level_cons, ih hclosers, ht, List.length_cons]
    show (-1 : Int) + _ = _
    omega

theorem eq_nil_of_read [Alphabet] {limit n : Nat} {word : String} {run closers : List Token}
    {d e : TypeExpr} (hread : TypeExpr.read limit word = .ok d)
    (hword : Token.Lexes word (run.map Token.lexeme))
    (hclosers : ∀ t ∈ closers, t.lexeme = .closeParen)
    (h : Written n ((run ++ closers).map Token.lexeme) e) : closers = [] := by
  obtain ⟨ls, x, hls, hx, -⟩ := Reader.written_of_read derives hread
  obtain rfl := hls.unique hword
  have hlevel := h.balanced.level_eq
  rw [List.map_append, Literal.level_append, hx.balanced.level_eq, level_closers hclosers] at hlevel
  exact List.length_eq_zero_iff.1 (by omega)

theorem blank_or_closing_of_scans [Alphabet] {gap : List Char} {ls : List Lexeme}
    (h : Token.Scans [] gap ls) (hls : ∀ l ∈ ls, l = .closeParen) :
    ∀ c ∈ gap, Text.isBlank c = true ∨ c = ')' := by
  induction h with
  | done => nofun
  | blank hc _ ih => exact List.forall_mem_cons.2 ⟨.inl hc, ih hls⟩
  | @lexeme c cs tail l ls hc htake _ ih =>
    obtain ⟨rfl, hmore⟩ := List.forall_mem_cons.1 hls
    obtain ⟨rfl, rfl⟩ := List.cons.inj (Lexeme.eq_of_take_punctuation (c := ')') rfl htake)
    exact List.forall_mem_cons.2 ⟨.inr rfl, ih hmore⟩

/-- The place of any type that is read as part of a text delimits a slice which, with a gap of
blanks and closing parentheses behind it, is read as this type. By itself it is a type if and only
if there is no gap, and only a name with arguments has one. -/
theorem nodes_read_closed [Alphabet] {limit : Nat} {text : String} {e : TypeExpr}
    (h : TypeExpr.read limit text = .ok e) :
    ∀ node ∈ e.nodes, ∃ word gap,
      Text.slice? node.span.offset node.span.length text.toList = some word ∧
      Text.slice? node.span.offset (node.span.length + Text.byteLength gap) text.toList =
        some (word ++ gap) ∧
      (∀ c ∈ gap, Text.isBlank c = true ∨ c = ')') ∧
      (TypeExpr.read limit (String.ofList (word ++ gap))).map unplaced = .ok node.unplaced ∧
      ((∃ d, TypeExpr.read limit (String.ofList word) = .ok d) ↔ gap = []) ∧
      (gap = [] ∨ ∃ s args span, node = .named s args span ∧ args ≠ []) := by
  have hlays (ls : List Lexeme) (e : TypeExpr) (he : Written limit ls e) :
      Reader.Lays typeGrammar limit .ok unplaced (AllOn limit) limit ls e :=
    lays_of_written laidOut_allOn (laysBracketed laidOut_allOn limit) he
  obtain ⟨words, stop, hscan, hall⟩ := Reader.laid_of_read derives hlays h
  have hordered : Token.Ordered words := by
    obtain ⟨tiles, last, htokens, htiling⟩ := (Token.scan_tiles text).1 _ hscan
    rw [(List.append_inj' htokens rfl).1]
    exact htiling.apart
  intro node hnode
  obtain ⟨n, hn, run, closers, hrun, hon⟩ := (hall hordered).1 node hnode
  obtain ⟨first, last, hfirst, hlast, hspan⟩ := hon.bound
  obtain ⟨word, gap, hmarks, hslice, hscans, hgap, hwhole, hnil, -⟩ :=
    Token.exists_marks_of_infix hscan (List.cons_ne_nil stop []) hrun hfirst hlast
  rw [← hspan] at hmarks hslice
  have hoffset : first.span.offset = node.span.offset := by rw [hspan]; rfl
  rw [hoffset] at hslice
  have hlexes : Token.Lexes (String.ofList word) (run.map Token.lexeme) := by
    rwa [Token.lexes_iff_scans, String.toList_ofList]
  have hlexesWhole : Token.Lexes (String.ofList (word ++ gap))
      ((run ++ closers).map Token.lexeme) := by rwa [Token.lexes_iff_scans, String.toList_ofList]
  have hagain : (TypeExpr.read limit (String.ofList (word ++ gap))).map unplaced = _ :=
    (recognizes_of_written (recognizesBracketed n) hon.written).read hn hlexesWhole
  refine ⟨word, gap, hmarks.slice?_eq, hslice, ?_, hagain, ⟨?_, ?_⟩, ?_⟩
  · exact blank_or_closing_of_scans hgap (List.forall_mem_map.2 hon.closing)
  · rintro ⟨d, hd⟩
    exact hnil (eq_nil_of_read hd hlexes hon.closing hon.written)
  · rintro rfl
    rw [List.append_nil] at hagain
    obtain ⟨d, hd, -⟩ := exists_of_map_eq_ok hagain
    exact ⟨d, hd⟩
  · exact hon.whole.imp hnil id

theorem nodes_read_closed_maybe :
    ∃ e, TypeExpr.read usualNesting "Maybe (List Int)" = .ok e ∧
      e.span = ⟨⟨1, 1, 0⟩, 15⟩ ∧ ∃ gap,
        Text.slice? 0 15 "Maybe (List Int)".toList = some "Maybe (List Int".toList ∧
        Text.slice? 0 (15 + Text.byteLength gap) "Maybe (List Int)".toList =
          some ("Maybe (List Int".toList ++ gap) ∧
        (∀ c ∈ gap, Text.isBlank c = true ∨ c = ')') ∧
        (TypeExpr.read usualNesting (String.ofList ("Maybe (List Int".toList ++ gap))).map
          unplaced = .ok e.unplaced := by
  let int : TypeExpr := .named "Int" [] ⟨⟨1, 13, 12⟩, 3⟩
  let list : TypeExpr := .named "List" [int] ⟨⟨1, 8, 7⟩, 8⟩
  let maybe : TypeExpr := .named "Maybe" [list] ⟨⟨1, 1, 0⟩, 15⟩
  have hread : TypeExpr.read usualNesting "Maybe (List Int)" = .ok maybe := by decide +kernel
  have hslice : Text.slice? 0 15 "Maybe (List Int)".toList = some "Maybe (List Int".toList := by
    decide +kernel
  obtain ⟨word, gap, hword, hlonger, hgap, hagain, -⟩ :=
    nodes_read_closed hread maybe (by simp [maybe])
  obtain rfl := Option.some.inj (hword.symm.trans hslice)
  exact ⟨maybe, hread, rfl, gap, hslice, hlonger, hgap, hagain⟩

/-- The place of a name with an argument in parentheses leaves out the last parenthesis. -/
theorem nodes_not_read_again :
    ¬∀ (limit : Nat) (text : String) (e : TypeExpr), TypeExpr.read limit text = .ok e →
      ∀ node ∈ e.nodes, ∃ word,
        Text.slice? node.span.offset node.span.length text.toList = some word ∧
        (TypeExpr.read limit (String.ofList word)).map unplaced = .ok node.unplaced := by
  intro hall
  let int : TypeExpr := .named "Int" [] ⟨⟨1, 13, 12⟩, 3⟩
  let list : TypeExpr := .named "List" [int] ⟨⟨1, 8, 7⟩, 8⟩
  let maybe : TypeExpr := .named "Maybe" [list] ⟨⟨1, 1, 0⟩, 15⟩
  have hread : TypeExpr.read usualNesting "Maybe (List Int)" = .ok maybe := by decide +kernel
  have hslice : Text.slice? 0 15 "Maybe (List Int)".toList = some "Maybe (List Int".toList := by
    decide +kernel
  have hrefused : (TypeExpr.read usualNesting "Maybe (List Int").isOk = false := by decide +kernel
  obtain ⟨word, hword, hagain⟩ := hall usualNesting _ maybe hread maybe (by simp [maybe])
  obtain rfl := Option.some.inj (hword.symm.trans hslice)
  obtain ⟨d, hd, -⟩ := exists_of_map_eq_ok hagain
  rw [String.ofList_toList] at hd
  rw [hd] at hrefused
  cases hrefused

end TypeExpr

end RecordLens
