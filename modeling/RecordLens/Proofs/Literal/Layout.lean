import RecordLens.Proofs.Literal.Derivation
import RecordLens.Proofs.Literal.Reading

/-! Where the machine takes an item from. Tokens whose lexemes derive an item lead from where an
item is awaited to where it is complete, and the item that is read is laid out on these tokens: a
bracketed one reaches from its first token to its last, and what it holds is laid out in between. -/

namespace RecordLens

theorem Span.through_self (s : Span) : s.through s = s := by
  rw [through, Nat.add_sub_cancel_left]

namespace Token

/-- The span reaches from the first token of the row to the last. -/
def Bound (tokens : List Token) (s : Span) : Prop :=
  ∃ first last, tokens.head? = some first ∧ tokens.getLast? = some last ∧
    s = first.span.through last.span

theorem bound_single (t : Token) : Bound [t] t.span :=
  ⟨t, t, rfl, rfl, (Span.through_self t.span).symm⟩

theorem bound_concat (first : Token) (inner : List Token) (last : Token) :
    Bound (first :: (inner ++ [last])) (first.span.through last.span) :=
  ⟨first, last, rfl, List.getLast?_concat (l := first :: inner), rfl⟩

theorem infix_enclosed (first : Token) (inner : List Token) (last : Token) :
    inner <:+: first :: (inner ++ [last]) := ⟨[first], [last], rfl⟩

end Token

namespace Reader

open Literal (Phrase Clause commas commas_cons inBraces inParens)

variable {α β π : Type}

section

variable (g : Grammar α π) (limit : Nat) (accept : α → Except SyntaxError β) (unplaced : α → α)
  (laid : List Token → α → Prop)

/-- Tokens of the lexemes lead to a state, and `post` holds of the tokens and the state. -/
def Advances (r : Reader α π) (ls : List Lexeme) (post : List Token → Reader α π → Prop) : Prop :=
  ∀ tokens, tokens.map Token.lexeme = ls → ∃ r',
    (∀ more, r.run g limit accept (tokens ++ more) = r'.run g limit accept more) ∧ post tokens r'

/-- Within `room` brackets the lexemes are read as the item, up to its places, and laid out on their
tokens. -/
def Lays (room : Nat) (ls : List Lexeme) (x : α) : Prop :=
  ∀ frames, frames.length + room ≤ limit →
    Advances g limit accept ⟨frames, .item⟩ ls fun tokens r =>
      ∃ item, Ready g limit accept frames item r ∧ unplaced item = x ∧ laid tokens item

def LaysBracketed (room : Nat) (ls : List Lexeme) (x : α) : Prop :=
  ∀ r frames owner, Opens g limit accept frames owner r → frames.length + room ≤ limit →
    Advances g limit accept r ls fun tokens r' =>
      ∃ b item, b.owner = owner ∧ r' = closed g frames b item ∧ unplaced item = x ∧
        laid tokens item

/-- The item is laid out on some of the tokens, in a row. -/
def Among (tokens : List Token) (x : α) : Prop := ∃ run, run <:+: tokens ∧ laid run x

def FieldAmong (tokens : List Token) (f : FieldExpr α) : Prop :=
  (∃ t ∈ tokens, f.name.WrittenAs t.lexeme ∧ f.nameSpan = t.span) ∧ Among laid tokens f.item

/-- How brackets are laid out where the items in them are `laid`. Fields stand in braces with their
names. A single item in parentheses keeps its places, several are a tuple. -/
inductive Encased : List Token → α → Prop
  | braces {first last : Token} {inner : List Token} {fields : List (FieldExpr α)}
      (hfirst : first.lexeme = .openBrace) (h : ∀ f ∈ fields, FieldAmong laid inner f) :
      Encased (first :: (inner ++ [last])) (g.record ⟨fields, first.span.through last.span⟩)
  | parentheses {first last : Token} {inner : List Token} {x : α}
      (hlast : last.lexeme = .closeParen) (h : laid inner x) :
      Encased (first :: (inner ++ [last])) x
  | tuple {first last : Token} {inner : List Token} {xs : List α}
      (hfirst : first.lexeme = .openParen) (h : ∀ x ∈ xs, Among laid inner x) :
      Encased (first :: (inner ++ [last]))
        (g.record ⟨FieldExpr.positions g.span 1 xs, first.span.through last.span⟩)

end

variable {g : Grammar α π} {limit : Nat} {accept : α → Except SyntaxError β} {unplaced : α → α}
  {laid weaker : List Token → α → Prop}

namespace Advances

variable {r : Reader α π} {ls more : List Lexeme} {post : List Token → Reader α π → Prop}

theorem nil (h : post [] r) : Advances g limit accept r [] post := by
  intro tokens htokens
  obtain rfl := List.map_eq_nil_iff.1 htokens
  exact ⟨r, fun _ => rfl, h⟩

theorem append {middle : List Token → Reader α π → Prop} (h : Advances g limit accept r ls middle)
    (hmore : ∀ front r', middle front r' →
      Advances g limit accept r' more fun back => post (front ++ back)) :
    Advances g limit accept r (ls ++ more) post := by
  intro tokens htokens
  obtain ⟨front, back, rfl, hfront, hback⟩ := List.map_eq_append_iff.1 htokens
  obtain ⟨r₁, hrun, hmiddle⟩ := h front hfront
  obtain ⟨r₂, hrun', hpost⟩ := hmore front r₁ hmiddle back hback
  exact ⟨r₂, fun tail => by rw [List.append_assoc, hrun, hrun'], hpost⟩

theorem cons {l : Lexeme} (hstep : ∀ span, ∃ r',
      r.step g limit accept ⟨l, span⟩ = .ok (.next r') ∧
        Advances g limit accept r' ls fun back => post (⟨l, span⟩ :: back)) :
    Advances g limit accept r (l :: ls) post := by
  intro tokens htokens
  obtain ⟨⟨_, span⟩, rest, rfl, rfl, hrest⟩ := List.map_eq_cons_iff.1 htokens
  obtain ⟨r₁, hr₁, hadvances⟩ := hstep span
  obtain ⟨r₂, hrun, hpost⟩ := hadvances rest hrest
  refine ⟨r₂, fun tail => ?_, hpost⟩
  rw [List.cons_append, run, hr₁]
  exact hrun tail

theorem imp {post' : List Token → Reader α π → Prop} (h : Advances g limit accept r ls post)
    (hw : ∀ tokens r', tokens.map Token.lexeme = ls → post tokens r' → post' tokens r') :
    Advances g limit accept r ls post' := by
  intro tokens htokens
  obtain ⟨r', hrun, hpost⟩ := h tokens htokens
  exact ⟨r', hrun, hw tokens r' htokens hpost⟩

end Advances

theorem Among.mono {tokens more : List Token} {x : α} (h : Among laid tokens x)
    (hsub : tokens <:+: more) : Among laid more x := by
  obtain ⟨run, hrun, hx⟩ := h
  exact ⟨run, hrun.trans hsub, hx⟩

theorem FieldAmong.mono {tokens more : List Token} {f : FieldExpr α} (h : FieldAmong laid tokens f)
    (hsub : tokens <:+: more) : FieldAmong laid more f := by
  obtain ⟨⟨t, ht, hname⟩, hitem⟩ := h
  exact ⟨⟨t, hsub.subset ht, hname⟩, hitem.mono hsub⟩

theorem LaysBracketed.imp {room : Nat} {ls : List Lexeme} {x : α}
    (h : LaysBracketed g limit accept unplaced laid room ls x)
    (hw : ∀ tokens item, tokens.map Token.lexeme = ls → unplaced item = x → laid tokens item →
      weaker tokens item) :
    LaysBracketed g limit accept unplaced weaker room ls x := by
  intro r frames owner hr hroom
  refine (h r frames owner hr hroom).imp ?_
  rintro tokens r' htokens ⟨b, item, hb, he, hitem, hlaid⟩
  exact ⟨b, item, hb, he, hitem, hw tokens item htokens hitem hlaid⟩

theorem LaysBracketed.lays {room : Nat} {ls : List Lexeme} {x : α}
    (h : LaysBracketed g limit accept unplaced laid room ls x) :
    Lays g limit accept unplaced laid room ls x := by
  intro frames hroom
  refine (h _ frames none (opens_item frames) hroom).imp ?_
  rintro tokens r - ⟨b, item, hb, rfl, hitem⟩
  exact ⟨item, by simpa [closed, hb] using ready_whole frames item, hitem⟩

section Lists

variable {room : Nat} {frames : List (Frame α π)} {b : Bracket π}

theorem Lays.advances_elements {p : Phrase α} {ps : List (Phrase α)}
    (h : ∀ q ∈ p :: ps, Lays g limit accept unplaced laid room q.lexemes q.item)
    (hroom : frames.length + (room + 1) ≤ limit) (b : Bracket π) (done : List α) :
    Advances g limit accept ⟨.element b done :: frames, .item⟩
      (commas ((p :: ps).map Phrase.lexemes) ++ [.closeParen]) fun tokens r =>
        ∃ inner last items, tokens = inner ++ [last] ∧
          r = closeParen g frames b (done ++ items) last ∧
          items.map unplaced = (p :: ps).map Phrase.item ∧ ∀ x ∈ items, Among laid inner x := by
  have hlength : (Frame.element b done :: frames).length + room ≤ limit := by
    simp only [List.length_cons]
    omega
  have hp := h p List.mem_cons_self _ hlength
  -- on the items that are still to come, while `done` grows
  induction ps generalizing p done with
  | nil =>
    rw [List.map_singleton, commas_cons, List.flatMap_nil, List.append_nil]
    refine hp.append ?_
    rintro row r ⟨item, hr, hitem, hlaid⟩
    refine .cons fun span => ⟨_, hr _ (by simp), .nil ⟨row, _, [item], rfl, rfl, ?_, ?_⟩⟩
    · simp [hitem]
    · exact List.forall_mem_singleton.2 ⟨row, List.infix_rfl, hlaid⟩
  | cons q ps ih =>
    have hrow : commas ((p :: q :: ps).map Phrase.lexemes) ++ [.closeParen] =
        p.lexemes ++ .comma :: (commas ((q :: ps).map Phrase.lexemes) ++ [.closeParen]) := by
      simp [commas_cons]
    rw [hrow]
    refine hp.append ?_
    rintro row r ⟨item, hr, hitem, hlaid⟩
    refine .cons fun span => ⟨_, hr _ (by simp), ?_⟩
    let comma : Token := ⟨.comma, span⟩
    refine (ih (fun s hs => h s (List.mem_cons_of_mem p hs)) (done ++ [item]) hlength
      (h q (by simp) _ hlength)).imp ?_
    rintro back r' - ⟨inner, last, items, rfl, rfl, hitems, hamong⟩
    have hfront : row <:+: row ++ comma :: inner := (List.prefix_append row _).isInfix
    have hback : inner <:+: row ++ comma :: inner := ⟨row ++ [comma], [], by simp⟩
    refine ⟨row ++ comma :: inner, last, item :: items, by simp [comma], by simp,
      by simp [hitem, hitems], ?_⟩
    exact List.forall_mem_cons.2 ⟨⟨row, hfront, hlaid⟩, fun x hx => (hamong x hx).mono hback⟩

theorem Lays.advances_row {c : Clause α} (hsign : c.name.WrittenAs c.sign)
    (h : Lays g limit accept unplaced laid room c.lexemes c.item)
    (hroom : frames.length + (room + 1) ≤ limit) {done : List (FieldExpr α)} {r : Reader α π}
    (hr : Names g limit accept frames b done r) :
    Advances g limit accept r (c.row g.separator) fun tokens r' =>
      ∃ span item, Ready g limit accept (.field b done c.name span :: frames) item r' ∧
        unplaced item = c.item ∧ FieldAmong laid tokens ⟨c.name, span, item⟩ := by
  refine .cons fun span => ⟨⟨frames, .separator b done c.name span⟩, ?_, .cons fun _ => ?_⟩
  · have hnamed : named frames b done ⟨c.sign, span⟩ =
        .ok ⟨frames, .separator b done c.name span⟩ := named_eq_ok_iff.2 ⟨c.name, hsign, rfl⟩
    rw [hr _ hsign.ne_closeBrace, hnamed]
    rfl
  · refine ⟨⟨.field b done c.name span :: frames, .item⟩, by simp [step], ?_⟩
    have hlength : (Frame.field b done c.name span :: frames).length + room ≤ limit := by
      simp only [List.length_cons]
      omega
    refine (h _ hlength).imp ?_
    rintro row r' - ⟨item, hready, hitem, hlaid⟩
    refine ⟨span, item, hready, hitem, ⟨_, List.mem_cons_self, hsign, rfl⟩, row, ?_, hlaid⟩
    exact (List.suffix_append [_, _] row).isInfix

theorem Names.advances_fields {c : Clause α} {cs : List (Clause α)}
    (hsigns : ∀ d ∈ c :: cs, d.name.WrittenAs d.sign)
    (h : ∀ d ∈ c :: cs, Lays g limit accept unplaced laid room d.lexemes d.item)
    (hroom : frames.length + (room + 1) ≤ limit) {done : List (FieldExpr α)}
    (hnames : FieldName.Admissible (done.map FieldExpr.name ++ (c :: cs).map Clause.name))
    {r : Reader α π} (hr : Names g limit accept frames b done r) :
    Advances g limit accept r (commas ((c :: cs).map (Clause.row g.separator)) ++ [.closeBrace])
      fun tokens r' => ∃ inner last fields, tokens = inner ++ [last] ∧
        r' = closed g frames b (g.record ⟨done ++ fields, b.opening.through last.span⟩) ∧
        fields.map (FieldExpr.unplaced unplaced) = (c :: cs).map Clause.field ∧
        ∀ f ∈ fields, FieldAmong laid inner f := by
  have hc := (h c List.mem_cons_self).advances_row (hsigns c List.mem_cons_self) hroom hr
  -- the state varies too: only the first name may be a closing brace instead
  induction cs generalizing c done r with
  | nil =>
    rw [List.map_singleton, commas_cons, List.flatMap_nil, List.append_nil]
    refine hc.append ?_
    rintro row r' ⟨span, item, hready, hitem, hamong⟩
    let fields := done ++ [⟨c.name, span, item⟩]
    have hcheck : ∀ s, FieldExpr.checkNames fields s = .ok () := fun s =>
      FieldExpr.checkNames_eq_ok_iff_admissible.2 (by simpa [fields] using hnames)
    refine .cons fun closing =>
      ⟨closed g frames b (g.record ⟨fields, b.opening.through closing⟩), ?_, .nil ?_⟩
    · rw [hready _ (by simp)]
      simp only [follow, closeBrace, hcheck, fields]
      rfl
    · refine ⟨row, _, [⟨c.name, span, item⟩], rfl, rfl, ?_, List.forall_mem_singleton.2 hamong⟩
      simp [FieldExpr.unplaced, Clause.field, hitem]
  | cons d cs ih =>
    have hrow : commas ((c :: d :: cs).map (Clause.row g.separator)) ++ [.closeBrace] =
        c.row g.separator ++
          .comma :: (commas ((d :: cs).map (Clause.row g.separator)) ++ [.closeBrace]) := by
      simp [commas_cons]
    rw [hrow]
    refine hc.append ?_
    rintro row r' ⟨span, item, hready, hitem, hamong⟩
    refine .cons fun behind => ⟨_, hready _ (by simp), ?_⟩
    let comma : Token := ⟨.comma, behind⟩
    have hnext : Names g limit accept frames b (done ++ [⟨c.name, span, item⟩]) _ :=
      names_nextName frames b _
    have hd := (h d (by simp)).advances_row (hsigns d (by simp)) hroom hnext
    refine (ih (fun e he => hsigns e (List.mem_cons_of_mem c he))
      (fun e he => h e (List.mem_cons_of_mem c he)) (by simpa using hnames) hnext hd).imp ?_
    rintro back r'' - ⟨inner, last, fields, rfl, rfl, hfields, hmore⟩
    have hfront : row <:+: row ++ comma :: inner := (List.prefix_append row _).isInfix
    have hback : inner <:+: row ++ comma :: inner := ⟨row ++ [comma], [], by simp⟩
    refine ⟨row ++ comma :: inner, last, ⟨c.name, span, item⟩ :: fields,
      by simp [comma], by simp, ?_, ?_⟩
    · simp [FieldExpr.unplaced, Clause.field, hitem, hfields]
    · exact List.forall_mem_cons.2 ⟨hamong.mono hfront, fun f hf => (hmore f hf).mono hback⟩

end Lists

section Brackets

variable {room : Nat} {r : Reader α π} {frames : List (Frame α π)} {owner : Option π}

theorem Opens.advances_braces (hr : Opens g limit accept frames owner r)
    (hroom : frames.length + (room + 1) ≤ limit) {clauses : List (Clause α)}
    (hsigns : ∀ c ∈ clauses, c.name.WrittenAs c.sign)
    (hnames : FieldName.Admissible (clauses.map Clause.name))
    (h : ∀ c ∈ clauses, Lays g limit accept unplaced laid room c.lexemes c.item) :
    Advances g limit accept r (inBraces (commas (clauses.map (Clause.row g.separator))))
      fun tokens r' => ∃ b fields span, b.owner = owner ∧
        r' = closed g frames b (g.record ⟨fields, span⟩) ∧
        fields.map (FieldExpr.unplaced unplaced) = clauses.map Clause.field ∧
        Encased g laid tokens (g.record ⟨fields, span⟩) := by
  have hopen : frames.length < limit := by omega
  refine .cons fun span => ⟨⟨frames, .firstName ⟨span, owner⟩⟩, ?_, ?_⟩
  · rw [hr _ rfl]
    simp [opened, hopen, Except.map]
  · cases clauses with
    | nil =>
      refine .cons fun closing => ⟨_, rfl, .nil ⟨_, [], _, rfl, rfl, rfl, ?_⟩⟩
      have hnone : ∀ f ∈ ([] : List (FieldExpr α)), FieldAmong laid [] f := List.forall_mem_nil _
      have hopening : (Token.mk .openBrace span).lexeme = .openBrace := rfl
      exact .braces hopening hnone
    | cons c cs =>
      refine (Names.advances_fields hsigns h hroom (by simpa using hnames)
        (names_firstName frames ⟨span, owner⟩)).imp ?_
      rintro back r' - ⟨inner, last, fields, rfl, rfl, hfields, hamong⟩
      exact ⟨_, fields, _, rfl, rfl, hfields, .braces rfl hamong⟩

theorem Opens.step_openParen (hr : Opens g limit accept frames owner r)
    (hroom : frames.length + (room + 1) ≤ limit) (span : Span) :
    r.step g limit accept ⟨.openParen, span⟩ =
      .ok (.next ⟨.element ⟨span, owner⟩ [] :: frames, .item⟩) := by
  have hopen : frames.length < limit := by omega
  rw [hr _ rfl]
  simp [opened, hopen, Except.map]

end Brackets

/-- What brackets enclose is read with room for one more bracket. -/
theorem laysBracketed_of_bracketed {room : Nat} {item : List Lexeme → α → Prop}
    (hunplaced : ∀ fields span, unplaced (g.record ⟨fields, span⟩) =
      g.record ⟨fields.map (FieldExpr.unplaced unplaced), default⟩)
    (hitem : ∀ ls x, item ls x → Lays g limit accept unplaced laid room ls x)
    {ls : List Lexeme} {x : α} (h : Literal.Bracketed g.separator g.record item ls x) :
    LaysBracketed g limit accept unplaced (Encased g laid) (room + 1) ls x := by
  intro r frames owner hr hroom
  cases h with
  | braces clauses hsigns hnames h =>
    refine (hr.advances_braces hroom hsigns hnames fun c hc => hitem _ _ (h c hc)).imp ?_
    rintro tokens r' - ⟨b, fields, span, hb, rfl, hfields, hlaid⟩
    exact ⟨b, _, hb, rfl, by rw [hunplaced, hfields], hlaid⟩
  | @parentheses ls x h =>
    refine .cons fun span => ⟨_, hr.step_openParen hroom span, ?_⟩
    have hlength : (Frame.element ⟨span, owner⟩ ([] : List α) :: frames).length + room ≤ limit := by
      simp only [List.length_cons]
      omega
    refine (hitem ls x h _ hlength).append ?_
    rintro inner r' ⟨y, hready, hy, hlaid⟩
    refine .cons fun closing => ⟨_, hready _ (by simp), .nil ?_⟩
    exact ⟨⟨span, owner⟩, y, rfl, rfl, hy, .parentheses rfl hlaid⟩
  | tuple phrases hlength h =>
    rcases phrases with _ | ⟨p, _ | ⟨q, ps⟩⟩
    · simp at hlength
    · simp at hlength
    · refine .cons fun span => ⟨_, hr.step_openParen hroom span, ?_⟩
      refine (Lays.advances_elements (fun s hs => hitem _ _ (h s hs)) hroom ⟨span, owner⟩ []).imp ?_
      rintro back r' - ⟨inner, last, items, rfl, rfl, hitems, hamong⟩
      obtain ⟨y, _, rfl, -, hmore⟩ := List.map_eq_cons_iff.1 hitems
      obtain ⟨z, more, rfl, -, -⟩ := List.map_eq_cons_iff.1 hmore
      refine ⟨⟨span, owner⟩, _, rfl, rfl, ?_, .tuple rfl hamong⟩
      rw [hunplaced, FieldExpr.map_unplaced_positions, List.nil_append, hitems]

end Reader

end RecordLens
