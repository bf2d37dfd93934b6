import RecordLens.Proofs.Host.Values
import RecordLens.Proofs.Lens.Values
import RecordLens.Proofs.Program.Run
import RecordLens.Proofs.Value.Records

/-! The values of a program. If what is supplied is well-typed then so is whatever comes out, and
every record in it gives for each name in its type the value that it stores there. -/

namespace RecordLens

namespace Registry.Operation

/-- The values supplied to the operation are well-typed. The declared types of a structure accept
its values. -/
def Proper : Operation → Prop
  | .recordOfCanonical fields _ => ∀ f ∈ fields, f.value.WellTyped
  | .recordOfFields fields => ∀ f ∈ fields, f.value.WellTyped
  | .tupleValue elements => ∀ v ∈ elements, v.WellTyped
  | .structValue fields =>
    ∀ f ∈ fields, f.value.1.accepts f.value.2 = true ∧ f.value.2.WellTyped
  | .hostOfValue _ value => value.WellTyped
  | .hostRecord _ value => value.WellTyped
  | .hostField _ r _ => r.value.WellTyped
  | _ => True

/-- What a proper operation returns is well-typed. -/
theorem Proper.wellTyped_returned {op : Operation} (h : op.Proper) {g : Registry} (hv : g.Valid) :
    ∀ v ∈ op.returned g, v.WellTyped := by
  intro v hmem
  cases op with
  | elaborateValue e expected =>
    obtain ⟨w, hw, rfl⟩ := Elaboration.mem_values.1 hmem
    exact (e.typed_elaborate hw).1
  | elaborateRecordValue r expected =>
    obtain ⟨w, hw, rfl⟩ := Elaboration.mem_values.1 hmem
    exact (Expr.typed_elaborateRecord hw).1
  | recordOfCanonical fields ha =>
    rw [List.mem_singleton.1 hmem]
    exact RecordValue.wellTyped_ofCanonical h g
  | recordOfFields fields =>
    obtain ⟨w, hw, rfl⟩ := Elaboration.mem_values.1 hmem
    exact RecordValue.wellTyped_ofFields h hw
  | tupleValue elements =>
    rw [List.mem_singleton.1 hmem]
    exact RecordValue.wellTyped_ofCanonical (fun f hf =>
      h f.value (Field.value_mem_of_mem_positions (Field.mem_of_mem_ofFields hf))) g
  | structValue fields =>
    rw [List.mem_singleton.1 hmem]
    exact Host.wellTyped_structValue h g
  | hostToValue host data =>
    rw [List.mem_singleton.1 hmem]
    exact (host.typed data g hv).1
  | hostRecord host value =>
    obtain ⟨w, hw, rfl⟩ := Elaboration.mem_values.1 hmem
    have hrecord := (host.ensures_recordOf (P := fun _ => False) (g := g) value).2 w _ hw
    rwa [hrecord]
  | _ => cases hmem

end Registry.Operation

namespace Program

open Registry (Operation)

def Action.Proper : Action → Prop
  | .create => True
  | .operate _ op => op.Proper
  | .set _ v leaf => v.WellTyped ∧ leaf.WellTyped
  | .modify _ v f => v.WellTyped ∧ ∀ x, x.WellTyped → (f x).WellTyped

/-- What has been returned is well-typed and made of record types that can be had. -/
def WellTyped (p : Program) : Prop :=
  ∀ v ∈ p.returned, v.WellTyped ∧ ∀ r ∈ v.handles, p.Knows r

theorem Step.wellTyped [Alphabet] {p q : Program} {a : Action} (h : p.Step a q) (proper : a.Proper)
    (hsound : p.Sound) (hp : p.WellTyped) : q.WellTyped := by
  have hold : ∀ v ∈ p.returned, v.WellTyped ∧ ∀ r ∈ v.handles, q.Knows r := fun v hv =>
    ⟨(hp v hv).1, fun r hr => h.knows ((hp v hv).2 r hr)⟩
  have hlens {l : Lens} {v leaf w : Value} (known : ∀ r ∈ v.handles ++ leaf.handles, p.Knows r)
      (hset : l.set v leaf = .ok w) : ∀ r ∈ w.handles, q.Knows r := fun r hr =>
    h.knows (known r (Lens.handles_replace_subset (Lens.set_ok.1 hset).2.2 hr))
  intro v hv
  cases h with
  | create => exact hold v hv
  | @operate n op g hg known =>
    rcases List.mem_append.1 hv with hv | hv
    · exact hold v hv
    · have hmem : op.run g ∈ p.registries.set n (op.run g) :=
        List.mem_set (List.getElem?_eq_some_iff.1 hg).1 _
      exact ⟨proper.wellTyped_returned (hsound n g hg).2.1.valid v hv,
        knows_of_over (.operate hg known) hmem ((Operation.ensures_run known).2 v hv)⟩
  | set built known hset =>
    rcases List.mem_append.1 hv with hv | hv
    · exact hold v hv
    · obtain rfl := List.mem_singleton.1 hv
      exact ⟨built.wellTyped_set proper.1 proper.2 hset, hlens known hset⟩
  | @modify l u leaf w f built hleaf known hmodify =>
    rcases List.mem_append.1 hv with hv | hv
    · exact hold v hv
    · obtain rfl := List.mem_singleton.1 hv
      obtain ⟨x, hx, hset⟩ := Lens.modify_ok.1 hmodify
      obtain rfl : leaf = x := Except.ok.inj (hleaf.symm.trans hx)
      have hwell : leaf.WellTyped := built.wellTyped_get proper.1 hleaf
      exact ⟨built.wellTyped_set proper.1 (proper.2 _ hwell) hset, hlens known hset⟩

theorem Run.wellTyped [Alphabet] {p q : Program} {as : List Action} (h : Run p as q)
    (proper : ∀ a ∈ as, a.Proper) (hsound : p.Sound) (hp : p.WellTyped) : q.WellTyped := by
  induction h with
  | nil => exact hp
  | cons hs _ ih =>
    obtain ⟨ha, has⟩ := List.forall_mem_cons.1 proper
    exact ih has (hs.sound hsound) (hs.wellTyped ha hsound hp)

theorem Sound.ascending_of_knows {p : Program} (hp : p.Sound) {r : RecordType} (hr : p.Knows r) :
    Field.Ascending r.fields := by
  rcases hr with ⟨g, hg, hr⟩ | ⟨g, hreach, -, hr⟩
  · obtain ⟨n, hn⟩ := List.mem_iff_getElem?.1 hg
    exact (hp n g hn).2.1.valid.ascending_of_holds hr
  · exact hreach.valid.ascending_of_holds hr

/-- If all that is supplied in a run is well-typed, so is all that is returned, and its records find
by name what they store under it, and nothing only where the type has no such name. Whoever pairs a
record type with values has one for each field, and whoever replaces a value finds one there. -/
theorem Run.returned_wellTyped [Alphabet] {as : List Action} {p : Program} (h : Run initial as p)
    (proper : ∀ a ∈ as, a.Proper) :
    (∀ v ∈ p.returned, v.WellTyped ∧ ∀ r ∈ v.records, ∀ name,
      (∀ w, r.get? name = some w ↔ ∃ (i : Nat) (f : Field Ty), r.type.fields[i]? = some f ∧
        f.name = name ∧ r.values[i]? = some w) ∧
      (r.get? name = none ↔ name ∉ r.type.names)) ∧
    (∀ fields g, ((RecordValue.ofCanonical fields).outcome g).1.Complete) ∧
    (∀ fields g, ∃ r : RecordValue, ((Host.structValue fields).outcome g).1 = r.value ∧
      r.Complete) ∧
    (∀ fields span expected path g r g',
      (Expr.recordValue fields span expected path).outcome g = (.ok r, g') → r.Complete) ∧
    ∀ v i steps leaf w, Lens.replace v (i :: steps) leaf = some w →
      ∃ r, v.record? = some r ∧ i < r.size := by
  have hwell : p.WellTyped := h.wellTyped proper sound_initial nofun
  refine ⟨fun v hv => ⟨(hwell v hv).1, fun r hr name => ?_⟩, RecordValue.complete_ofCanonical,
    Host.complete_structValue, fun _ _ _ _ _ _ _ => Expr.complete_recordValue,
    fun _ _ _ _ _ => Lens.lt_size_of_replace⟩
  obtain ⟨hr, htype⟩ := Value.wellTyped_of_mem_records (hwell v hv).1 hr
  have ha : Field.Ascending r.type.fields :=
    (h.sound sound_initial).ascending_of_knows ((hwell v hv).2 _ htype)
  exact ⟨fun w => RecordValue.get?_eq_some_iff ha,
    RecordValue.get?_eq_none_iff ha (RecordValue.complete_of_wellTyped hr)⟩

def square : Value := .record pairType [.scalar (.int 4), .scalar (.int 2)]

def pieceType : RecordType :=
  ⟨.registry 1, 0, [⟨.label "at", pairType.ty⟩, ⟨.label "name", .primitive .string⟩]⟩

def pawn (column : Int64) : RecordValue :=
  ⟨pieceType, [.record pairType [.scalar (.int column), .scalar (.int 2)],
    .scalar (.string "pawn")]⟩

def pieceColumn : Lens :=
  ⟨pieceType.ty, .primitive .int, [.label "at", .position 1], [0, 0]⟩

def game : List Action :=
  [.create, .create, .operate 0 (.tupleValue [.scalar (.int 4), .scalar (.int 2)]),
    .operate 1 (.recordOfFields
      [⟨.label "name", .scalar (.string "pawn")⟩, ⟨.label "at", square⟩]),
    .set pieceColumn (pawn 4).value (.scalar (.int 5))]

def played : Program :=
  ⟨[⟨.registry 0, [pairType.fields]⟩, ⟨.registry 1, [pieceType.fields]⟩],
    [square, (pawn 4).value, (pawn 5).value]⟩

theorem run_game : Run initial game played :=
  .cons .create (.cons .create (.cons (.operate rfl (knows_of_held (by decide)))
    (.cons (.operate rfl (knows_of_held (by decide)))
      (.cons (.set (.derivePath (t := pieceType.ty) (p := [.label "at", .position 1]) rfl)
        (knows_of_held (by decide)) rfl) (.nil _)))))

theorem proper_game : ∀ a ∈ game, a.Proper := by
  have htuple : ∀ v ∈ [Value.scalar (.int 4), .scalar (.int 2)], v.WellTyped := by decide
  have hfields : ∀ f ∈ [(⟨.label "name", .scalar (.string "pawn")⟩ : Field Value),
      ⟨.label "at", square⟩], f.value.WellTyped := by decide
  have hset : (pawn 4).value.WellTyped ∧ (Value.scalar (.int 5)).WellTyped := by decide
  simp only [game, List.forall_mem_cons]
  exact ⟨trivial, trivial, htuple, hfields, hset, nofun⟩

/-- The pawn is well-typed after its column has been set, and finds its name but no size. -/
theorem Run.returned_wellTyped_game :
    Run initial game played ∧ (∀ a ∈ game, a.Proper) ∧ (pawn 5).value.WellTyped ∧
      (pawn 5).get? (.label "name") = some (.scalar (.string "pawn")) ∧
      (pawn 5).get? (.label "size") = none := by
  obtain ⟨hwell, hfind⟩ :=
    (Run.returned_wellTyped run_game proper_game).1 (pawn 5).value (by simp [played])
  have hmem : pawn 5 ∈ (pawn 5).value.records := List.mem_cons_self
  exact ⟨run_game, proper_game, hwell, ((hfind _ hmem _).1 _).2 ⟨1, _, rfl, rfl, rfl⟩,
    (hfind _ hmem _).2.2 (by decide)⟩

end Program

end RecordLens
