import RecordLens.Proofs.Value.Reading
import RecordLens.Text.Unicode

/-! Printing values and reading them back. The text of a readable value of a registry is read
wherever brackets may nest as deep as its records do, and denotes that value again. -/

namespace RecordLens.Value

/-- The text of a readable value of a registry is read, wherever the limit has room for its
records, and denotes the value, records with their handles, without an entry being made. It does
so whether or not the type of the value is expected. -/
theorem text_reads_back [Alphabet] {g : Registry} (hg : g.Reachable) {v : Value} (hv : v.WellTyped)
    (hw : v.Within g) (hr : v.Readable) {limit : Nat} (hroom : v.nesting ≤ limit) :
    ∃ e, Expr.read limit v.text = .ok e ∧ ∀ path,
      (e.elaborate none path).outcome g = (.ok v, g) ∧
      (e.elaborate (some v.typeOf) path).outcome g = (.ok v, g) := by
  have hspells : Reader.Spells valueGrammar limit .ok v.text.toList v.nesting (·.Denotes g v) :=
    hr.spells hg.valid hv hw
  obtain ⟨e, he, hdenotes⟩ := hspells.read hroom
  exact ⟨e, he, hdenotes⟩

def entryType : RecordType :=
  ⟨.registry 0, 0, [⟨.position 1, .primitive .int⟩, ⟨.position 2, .primitive .string⟩]⟩

def offsetType : RecordType := ⟨.registry 0, 1, [⟨.position 1, .primitive .double⟩]⟩

def logType : RecordType :=
  ⟨.registry 0, 2, [⟨.label "at", offsetType.ty⟩, ⟨.label "é'", entryType.ty⟩]⟩

def logRegistry : Registry :=
  ⟨.registry 0, [entryType.fields, offsetType.fields, logType.fields]⟩

/-- Negative zero as a field named by position, and under a primed label a tuple of the least
integer and a string with a quote and a line break. -/
def log : Value :=
  .record logType
    [.record offsetType [.scalar (.float (.zero true))],
      .record entryType [.scalar (.int Int64.minValue), .scalar (.string "\"\n")]]

open Registry (Operation) in
theorem reachable_logRegistry : logRegistry.Reachable :=
  ⟨.registry 0, [.tupleType [.primitive .int, .primitive .string],
    .tupleType [.primitive .double],
    .structType [⟨.label "é'", entryType.ty⟩, ⟨.label "at", offsetType.ty⟩]], rfl⟩

theorem within_log : log.Within logRegistry := by
  have hoffset : (record offsetType [.scalar (.float (.zero true))]).Within logRegistry :=
    .record (by decide) (by simpa using Within.scalar _)
  have hentry : (record entryType [.scalar (.int Int64.minValue),
      .scalar (.string "\"\n")]).Within logRegistry :=
    .record (by decide) (by simpa using ⟨Within.scalar _, Within.scalar _⟩)
  exact .record (by decide) (by simpa using ⟨hoffset, hentry⟩)

theorem readable_log : log.Readable := by
  have hint (i : Int64) : (Value.scalar (.int i)).Readable := .scalar nofun
  have hstring (s : String) : (Value.scalar (.string s)).Readable := .scalar nofun
  have hzero : (Value.scalar (.float (.zero true))).Readable := by
    refine .scalar fun x hx => ?_
    obtain rfl := Scalar.float.inj hx
    trivial
  have hoffset : (record offsetType [.scalar (.float (.zero true))]).Readable :=
    .record (by decide) (by simp [offsetType, RecordType.names]) (by simpa using hzero)
  have hentry : (record entryType [.scalar (.int Int64.minValue),
      .scalar (.string "\"\n")]).Readable :=
    .record (by decide) (by simp [entryType, RecordType.names])
      (by simpa using ⟨hint Int64.minValue, hstring "\"\n"⟩)
  refine .record (by decide) ?_ (by simpa using ⟨hoffset, hentry⟩)
  intro s hs
  have hlabels : s = "at" ∨ s = "é'" := by simpa [logType, RecordType.names] using hs
  rcases hlabels with rfl | rfl <;> decide +kernel

/-- The log is read back where brackets nest two deep. -/
theorem text_reads_back_log :
    logRegistry.Reachable ∧ log.WellTyped ∧ log.Within logRegistry ∧ log.Readable ∧
      log.nesting ≤ 2 ∧
      ∃ e, Expr.read 2 log.text = .ok e ∧ ∀ path,
        (e.elaborate none path).outcome logRegistry = (.ok log, logRegistry) ∧
        (e.elaborate (some log.typeOf) path).outcome logRegistry = (.ok log, logRegistry) := by
  have hwell : log.WellTyped := by decide
  have hroom : log.nesting ≤ 2 := by decide
  exact ⟨reachable_logRegistry, hwell, within_log, readable_log, hroom,
    text_reads_back reachable_logRegistry hwell within_log readable_log hroom⟩

example : log.text =
    "\x7bat = \x7b1 = -0.0\x7d, é' = (-9223372036854775808, \"\\\"\\n\")\x7d" := by
  decide +kernel

end RecordLens.Value
