import RecordLens.Proofs.Literal.Places
import RecordLens.Proofs.Literal.Recognition
import RecordLens.Proofs.Token.Runs

/-! The slices that the places of a value delimit. Each part of a value that is read is laid out on
tokens in a row, whose lexemes derive it. So the slice of the text at its place is by itself read as
this part, and at the place of a name in braces stands the name. -/

namespace RecordLens.Expr

mutual

def nodes : Expr → List Expr
  | .scalar value span => [.scalar value span]
  | .record ⟨fields, span⟩ => .record ⟨fields, span⟩ :: fieldNodes fields

def fieldNodes : List (FieldExpr Expr) → List Expr
  | [] => []
  | ⟨_, _, item⟩ :: rest => nodes item ++ fieldNodes rest

end

@[simp] theorem nodes_scalar (value : Scalar) (span : Span) :
    (scalar value span).nodes = [.scalar value span] := by rw [nodes]

@[simp] theorem nodes_record (fields : List (FieldExpr Expr)) (span : Span) :
    (record ⟨fields, span⟩).nodes =
      .record ⟨fields, span⟩ :: fields.flatMap fun f => f.item.nodes := by
  have h : fieldNodes fields = fields.flatMap fun f => f.item.nodes := by
    induction fields with
    | nil => rfl
    | cons f rest ih => rw [fieldNodes, List.flatMap_cons, ih]
  rw [nodes, h]

/-- The fields stand in braces with their names, or in parentheses without. -/
inductive FieldsOn (tokens : List Token) (fields : List (FieldExpr Expr)) : Prop
  | braces {t : Token} (hfirst : tokens.head? = some t) (ht : t.lexeme = .openBrace)
      (hnames : ∀ f ∈ fields, ∃ u ∈ tokens, f.name.WrittenAs u.lexeme ∧ f.nameSpan = u.span)
  | parentheses {t : Token} (hfirst : tokens.head? = some t) (ht : t.lexeme = .openParen)
      (hnames : fields = FieldExpr.positions Expr.span 1 (fields.map FieldExpr.item))

/-- The value reaches from the first token to the last, and is what they are within `n` brackets. -/
structure On (n : Nat) (tokens : List Token) (e : Expr) : Prop where
  bound : Token.Bound tokens e.span
  written : Written n (tokens.map Token.lexeme) e.unplaced
  fields {fields : List (FieldExpr Expr)} {span : Span} (he : e = .record ⟨fields, span⟩) :
    FieldsOn tokens fields

def AllOn (n : Nat) (tokens : List Token) (e : Expr) : Prop :=
  ∀ node ∈ e.nodes, ∃ m ≤ n, ∃ run, run <:+: tokens ∧ On m run node

theorem AllOn.mono {m n : Nat} {run tokens : List Token} {e : Expr} (h : AllOn m run e)
    (hle : m ≤ n) (hrun : run <:+: tokens) : AllOn n tokens e := by
  intro node hnode
  obtain ⟨k, hk, inner, hinner, hon⟩ := h node hnode
  exact ⟨k, Nat.le_trans hk hle, inner, hinner.trans hrun, hon⟩

theorem allOn_record {n : Nat} {tokens inner : List Token} {fields : List (FieldExpr Expr)}
    {span : Span} (hself : On (n + 1) tokens (.record ⟨fields, span⟩)) (hinner : inner <:+: tokens)
    (h : ∀ f ∈ fields, Reader.Among (AllOn n) inner f.item) :
    AllOn (n + 1) tokens (.record ⟨fields, span⟩) := by
  rw [AllOn, nodes_record, List.forall_mem_cons, List.forall_mem_flatMap]
  refine ⟨⟨n + 1, Nat.le_refl _, tokens, List.infix_rfl, hself⟩, fun f hf => ?_⟩
  obtain ⟨run, hrun, hitem⟩ := h f hf
  exact hitem.mono (Nat.le_succ n) (hrun.trans hinner)

theorem map_item_positions (first : Nat) (xs : List Expr) :
    (FieldExpr.positions Expr.span first xs).map FieldExpr.item = xs := by
  induction xs generalizing first with
  | nil => rfl
  | cons x xs ih => rw [FieldExpr.positions, List.map_cons, ih]

theorem laidOut_allOn : LaidOut AllOn where
  scalar {n tokens s span} h hspan := by
    rw [AllOn, nodes_scalar, List.forall_mem_singleton]
    refine ⟨n, Nat.le_refl n, tokens, List.infix_rfl, hspan, ?_, nofun⟩
    rw [unplaced_scalar]
    exact .scalar h
  bracketed {n tokens e} h hencased := by
    have hwritten : Written (n + 1) (tokens.map Token.lexeme) e.unplaced := .bracketed h
    cases hencased with
    | @braces first last inner fields hfirst hamong =>
      have hinner := Token.infix_enclosed first inner last
      refine allOn_record ⟨Token.bound_concat first inner last, hwritten, ?_⟩ hinner
        fun f hf => (hamong f hf).2
      rintro _ _ ⟨⟩
      refine .braces rfl hfirst fun f hf => ?_
      obtain ⟨u, hu, hname⟩ := (hamong f hf).1
      exact ⟨u, hinner.subset hu, hname⟩
    | @parentheses first last inner _ hlast hall =>
      exact AllOn.mono hall (Nat.le_succ n) (Token.infix_enclosed first inner last)
    | @tuple first last inner xs hfirst hamong =>
      have hinner := Token.infix_enclosed first inner last
      refine allOn_record ⟨Token.bound_concat first inner last, hwritten, ?_⟩ hinner
        fun f hf => hamong f.item (FieldExpr.item_mem_of_mem_positions hf)
      rintro _ _ ⟨⟩
      refine .parentheses rfl hfirst ?_
      show _ = FieldExpr.positions Expr.span 1 ((FieldExpr.positions Expr.span 1 xs).map _)
      rw [map_item_positions]
      rfl

/-- The slice at the place of any value that is read as part of a text is itself read as this value.
A record in braces has its names at their places. In parentheses the elements are named by position
and stand at the places of their names. -/
theorem nodes_read_again [Alphabet] {limit : Nat} {text : String} {e : Expr}
    (h : Expr.read limit text = .ok e) :
    ∀ node ∈ e.nodes, ∃ word,
      Text.slice? node.span.offset node.span.length text.toList = some word ∧
      (Expr.read limit (String.ofList word)).map unplaced = .ok node.unplaced ∧
      ∀ fields span, node = .record ⟨fields, span⟩ →
        (word.head? = some '{' ∧ ∀ f ∈ fields,
          Text.slice? f.nameSpan.offset f.nameSpan.length text.toList = some f.name.text.toList) ∨
        (word.head? = some '(' ∧
          fields = FieldExpr.positions Expr.span 1 (fields.map FieldExpr.item)) := by
  have hlays (ls : List Lexeme) (e : Expr) (he : Written limit ls e) :
      Reader.Lays valueGrammar limit .ok unplaced (AllOn limit) limit ls e :=
    lays_of_written laidOut_allOn (laysBracketed laidOut_allOn limit) he
  obtain ⟨words, stop, hscan, hall⟩ := Reader.laid_of_read derives hlays h
  intro node hnode
  obtain ⟨n, hn, run, hrun, ⟨first, last, hfirst, hlast, hspan⟩, hwritten, hfields⟩ :=
    hall node hnode
  rw [← List.append_nil run] at hrun
  obtain ⟨word, gap, hmarks, -, hscans, -, -, -, hsolid⟩ :=
    Token.exists_marks_of_infix hscan (List.cons_ne_nil stop []) hrun hfirst hlast
  rw [← hspan] at hmarks
  have hlexes : Token.Lexes (String.ofList word) (run.map Token.lexeme) := by
    rwa [Token.lexes_iff_scans, String.toList_ofList]
  have hagain := (recognizes_of_written (recognizesBracketed n) hwritten).read hn hlexes
  refine ⟨word, hmarks.slice?_eq, hagain, ?_⟩
  obtain ⟨more, rfl⟩ := List.head?_eq_some_iff.1 hfirst
  rintro fields span rfl
  cases hfields rfl with
  | braces hfirst ht hnames =>
    obtain rfl := Option.some.inj hfirst
    rw [List.map_cons, ht] at hscans
    refine .inl ⟨hscans.head?_eq rfl hsolid, fun f hf => ?_⟩
    obtain ⟨u, hu, hname, hplace⟩ := hnames f hf
    have hword : u ∈ words := hrun.subset (by simpa using hu)
    have hstands := Token.stands_of_scan hscan u (List.mem_append_left _ hword)
    exact hplace ▸ (hname.marks hstands).slice?_eq
  | parentheses hfirst ht hnames =>
    obtain rfl := Option.some.inj hfirst
    rw [List.map_cons, ht] at hscans
    exact .inr ⟨hscans.head?_eq rfl hsolid, hnames⟩

theorem nodes_read_again_minus :
    ∃ e, Expr.read usualNesting "(1, \x7ba = - 2\x7d)" = .ok e ∧
      .scalar (.int (-2)) ⟨⟨1, 10, 9⟩, 3⟩ ∈ e.nodes ∧
      Text.slice? 9 3 "(1, \x7ba = - 2\x7d)".toList = some "- 2".toList ∧
      (Expr.read usualNesting "- 2").map unplaced = .ok (.scalar (.int (-2)) default) := by
  let minus : Expr := .scalar (.int (-2)) ⟨⟨1, 10, 9⟩, 3⟩
  let braced : Expr := .record ⟨[⟨.label "a", ⟨⟨1, 6, 5⟩, 1⟩, minus⟩], ⟨⟨1, 5, 4⟩, 9⟩⟩
  let one : Expr := .scalar (.int 1) ⟨⟨1, 2, 1⟩, 1⟩
  let pair : Expr := .record ⟨FieldExpr.positions Expr.span 1 [one, braced], ⟨⟨1, 1, 0⟩, 14⟩⟩
  have hread : Expr.read usualNesting "(1, \x7ba = - 2\x7d)" = .ok pair := by decide +kernel
  have hmem : minus ∈ pair.nodes := by simp [FieldExpr.positions, pair, one, braced, minus]
  have hslice : Text.slice? 9 3 "(1, \x7ba = - 2\x7d)".toList = some "- 2".toList := by
    decide +kernel
  obtain ⟨word, hword, hagain, -⟩ := nodes_read_again hread minus hmem
  obtain rfl := Option.some.inj (hword.symm.trans hslice)
  rw [String.ofList_toList, unplaced_scalar] at hagain
  exact ⟨pair, hread, hmem, hslice, hagain⟩

end RecordLens.Expr
