import RecordLens.Proofs.Elaboration.Mismatch
import RecordLens.Proofs.Field.Lookup

/-! Looking up fields in the record types of registries. Entries are canonical, so the search finds
every name that an entry has and no other. That is why two record types, of one registry or of two,
are told apart by exactly the names that only one of them has. -/

namespace RecordLens

/-- Looking up a name in the record type finds the field of the name, and its place, or it finds
nothing if there is no such field. -/
structure RecordType.FindsNames (r : RecordType) : Prop where
  index? : ∀ name i, r.index? name = some i ↔ ∃ f, r.fields[i]? = some f ∧ f.name = name
  index?_none : ∀ name, r.index? name = none ↔ ∀ f ∈ r.fields, f.name ≠ name
  field? : ∀ name ty, r.field? name = some ty ↔ ⟨name, ty⟩ ∈ r.fields

theorem RecordType.findsNames {r : RecordType} (h : Field.Ascending r.fields) : r.FindsNames where
  index? name i := Field.index?_eq_some_iff h
  index?_none name := by
    rw [RecordType.index?, Field.index?_eq_none_iff h, List.mem_map, not_exists]
    simp only [not_and]
  field? name ty := Field.find?_eq_some_iff h

namespace TypeMismatch

/-- The error lists the names that only one of the record types has, each once and in order. -/
structure TellsApart (m : TypeMismatch) (expected found : RecordType) : Prop where
  missing : m.missing = expected.names.filter fun name => name ∉ found.names
  missing_ascends : m.missing.Pairwise (· < ·)
  extra : m.extra = found.names.filter fun name => name ∉ expected.names
  extra_ascends : m.extra.Pairwise (· < ·)

theorem lacking_eq_filter (r : RecordType) {s : RecordType} (hs : Field.Ascending s.fields) :
    lacking r s = r.names.filter fun name => name ∉ s.names := by
  refine List.filter_congr fun name _ => ?_
  rw [Bool.eq_iff_iff, Option.isNone_iff_eq_none, RecordType.index?, Field.index?_eq_none_iff hs,
    decide_eq_true_eq]
  rfl

theorem tellsApart_between {r s : RecordType} (hr : Field.Ascending r.fields)
    (hs : Field.Ascending s.fields) (path : Path) (span : Option Span) :
    (between r.ty s.ty path span).TellsApart r s := by
  rw [between_ty]
  exact ⟨lacking_eq_filter r hs, pairwise_lacking hr s, lacking_eq_filter s hr,
    pairwise_lacking hs r⟩

end TypeMismatch

namespace Registry

/-- The entries of registries that operations lead to find their names, and a mismatch of two such
entries, be they of one registry or not, tells them apart. -/
theorem Reachable.lookup_exact {g h : Registry} (hg : g.Reachable) (hh : h.Reachable)
    {r s : RecordType} (hr : g.Holds r) (hs : h.Holds s) :
    r.FindsNames ∧ ∀ path span, (TypeMismatch.between r.ty s.ty path span).TellsApart r s := by
  have har : Field.Ascending r.fields := hg.valid.ascending_of_holds hr
  have has : Field.Ascending s.fields := hh.valid.ascending_of_holds hs
  exact ⟨RecordType.findsNames har, TypeMismatch.tellsApart_between har has⟩

def mixedType : RecordType :=
  ⟨.registry 0, 0, [⟨.position 2, .primitive .int⟩, ⟨.position 10, .primitive .bool⟩,
    ⟨.label "a", .primitive .char⟩, ⟨.label "b", .primitive .int⟩]⟩

def mixedRegistry : Registry := ⟨.registry 0, [mixedType.fields]⟩

def triadType : RecordType :=
  ⟨.registry 1, 0, [⟨.position 1, .primitive .int⟩, ⟨.position 2, .primitive .int⟩,
    ⟨.position 3, .primitive .int⟩]⟩

def triadRegistry : Registry := ⟨.registry 1, [triadType.fields]⟩

/-- The tenth position comes behind the second and in front of the labels, and is found there. -/
theorem Reachable.lookup_exact_mixed :
    mixedRegistry.Reachable ∧ triadRegistry.Reachable ∧
      mixedType.index? (.position 10) = some 1 ∧ mixedType.index? (.label "c") = none ∧
      (TypeMismatch.between mixedType.ty triadType.ty [] none).missing =
        [.position 10, .label "a", .label "b"] ∧
      (TypeMismatch.between mixedType.ty triadType.ty [] none).extra =
        [.position 1, .position 3] := by
  have hmixed : mixedRegistry.Reachable :=
    ⟨.registry 0, [.structType [⟨.label "b", .primitive .int⟩, ⟨.position 10, .primitive .bool⟩,
      ⟨.label "a", .primitive .char⟩, ⟨.position 2, .primitive .int⟩]], rfl⟩
  have htriad : triadRegistry.Reachable :=
    ⟨.registry 1, [.tupleType [.primitive .int, .primitive .int, .primitive .int]], rfl⟩
  obtain ⟨hfinds, hbetween⟩ :=
    hmixed.lookup_exact htriad (r := mixedType) (s := triadType) rfl rfl
  have htold := hbetween [] none
  refine ⟨hmixed, htriad, (hfinds.index? _ _).2 ⟨_, rfl, rfl⟩, (hfinds.index?_none _).2 ?_, ?_, ?_⟩
  · decide
  · rw [htold.missing]
    decide
  · rw [htold.extra]
    decide

end Registry

end RecordLens
