import RecordLens.Proofs.Number.Shortest
import RecordLens.Proofs.Token.Scan

/-! The printed form of a double precision number is one lexeme, which holds the number again. -/

namespace RecordLens

open Decimal (ofText)

namespace Lexeme

theorem takeWhile_digits {cs rest : List Char} (hcs : IsDigits cs)
    (h : ∀ c, rest.head? = some c → c.isDigit = false) :
    (cs ++ rest).takeWhile Char.isDigit = cs ∧ (cs ++ rest).dropWhile Char.isDigit = rest ∧
      cs.isEmpty = false := by
  obtain ⟨ht, hd⟩ := Text.takeWhile_append hcs.2 h
  exact ⟨ht, hd, by simpa using hcs.1⟩

theorem fraction?_append {fraction rest : List Char} (hf : IsDigits fraction)
    (h : ∀ c, rest.head? = some c → c.isDigit = false) :
    fraction? ('.' :: (fraction ++ rest)) = some (fraction, rest) := by
  obtain ⟨ht, hd, he⟩ := takeWhile_digits hf h
  simp [fraction?, ht, hd, hf.1]

theorem signedDigits?_append (negative : Bool) {cs rest : List Char} (hcs : IsDigits cs)
    (h : ∀ c, rest.head? = some c → c.isDigit = false) :
    signedDigits? negative (cs ++ rest) =
      some (if negative then -(digitsValue cs : Int) else digitsValue cs, rest) := by
  obtain ⟨ht, hd, he⟩ := takeWhile_digits hcs h
  simp [signedDigits?, ht, hd, hcs.1]

theorem exponent?_toString (e : Int) {rest : List Char}
    (h : ∀ c, rest.head? = some c → c.isDigit = false) :
    exponent? ('e' :: ((toString e).toList ++ rest)) = some (e, rest) := by
  have hdigits := isDigits_toDigits e.natAbs
  rw [toList_toString_int]
  by_cases he : 0 ≤ e
  · obtain ⟨c, cs, hc⟩ := List.exists_cons_of_ne_nil hdigits.1
    have hdigit : c.isDigit = true := hdigits.2 c (hc ▸ List.mem_cons_self)
    have hplus : c ≠ '+' := by rintro rfl; exact absurd hdigit (by decide)
    have hminus : c ≠ '-' := by rintro rfl; exact absurd hdigit (by decide)
    have hsigned := signedDigits?_append false hdigits h
    have hvalue : ((e.natAbs : Nat) : Int) = e := Int.natAbs_of_nonneg he
    rw [digitsValue_toDigits, hvalue, hc] at hsigned
    rw [if_pos he, hc]
    unfold exponent?
    simpa [hplus, hminus] using hsigned
  · have hsigned := signedDigits?_append true hdigits h
    have hvalue : -((e.natAbs : Nat) : Int) = e := by omega
    rw [digitsValue_toDigits, if_pos rfl, hvalue] at hsigned
    rw [if_neg he]
    unfold exponent?
    simpa using hsigned

theorem number?_append {whole tail : List Char} (hw : IsDigits whole)
    (h : ∀ c, tail.head? = some c → c.isDigit = false) :
    number? (whole ++ tail) =
      match fraction? tail with
      | none =>
        match exponent? tail with
        | none => some (.integer (String.ofList whole), tail)
        | some (e, rest) => some (.float ((ofText whole [] e).toBinary64 false), rest)
      | some (fraction, rest) =>
        match exponent? rest with
        | none => some (.float ((ofText whole fraction 0).toBinary64 false), rest)
        | some (e, rest) => some (.float ((ofText whole fraction e).toBinary64 false), rest) := by
  obtain ⟨ht, hd, he⟩ := takeWhile_digits hw h
  simp only [number?, ht, hd, he]
  rfl

variable {whole fraction rest : List Char}

theorem number?_fraction [Alphabet] (hw : IsDigits whole) (hf : IsDigits fraction)
    (h : Text.Delimited rest) :
    number? (whole ++ '.' :: (fraction ++ rest)) =
      some (.float ((ofText whole fraction 0).toBinary64 false), rest) := by
  rw [number?_append hw (by simp), fraction?_append hf h.not_isDigit]
  simp only [exponent?_of_delimited h]

theorem number?_exponent [Alphabet] (hw : IsDigits whole) (e : Int) (h : Text.Delimited rest) :
    number? (whole ++ 'e' :: ((toString e).toList ++ rest)) =
      some (.float ((ofText whole [] e).toBinary64 false), rest) := by
  rw [number?_append hw (by simp), exponent?_toString e h.not_isDigit]
  rfl

theorem number?_fraction_exponent [Alphabet] (hw : IsDigits whole) (hf : IsDigits fraction)
    (e : Int) (h : Text.Delimited rest) :
    number? (whole ++ '.' :: (fraction ++ 'e' :: ((toString e).toList ++ rest))) =
      some (.float ((ofText whole fraction e).toBinary64 false), rest) := by
  rw [number?_append hw (by simp), fraction?_append hf (by simp)]
  simp only [exponent?_toString e h.not_isDigit]

variable {digits : List Char}

theorem isDigits_zero : IsDigits ['0'] := ⟨by simp, by simp⟩

theorem isDigit_of_mem_replicate {n : Nat} {c : Char} (h : c ∈ List.replicate n '0') :
    c.isDigit = true := by
  rw [List.eq_of_mem_replicate h]
  rfl

variable [Alphabet]

theorem number?_positional_of_neg (hd : IsDigits digits) {exponent : Int} (hneg : exponent < 0)
    (h : Text.Delimited rest) :
    number? (Decimal.positional digits exponent ++ rest) =
      some (.float ((⟨digitsValue digits, exponent + 1 - digits.length⟩ :
        Decimal).toBinary64 false), rest) := by
  let zeros := List.replicate (-exponent - 1).toNat '0'
  have hf : IsDigits (zeros ++ digits) := by
    refine ⟨by simp [hd.1], fun c hc => ?_⟩
    rcases List.mem_append.1 hc with hc | hc
    · exact isDigit_of_mem_replicate hc
    · exact hd.2 c hc
  have hvalue : ofText ['0'] (zeros ++ digits) 0 =
      ⟨digitsValue digits, exponent + 1 - digits.length⟩ := by
    have hz : digitsValue ('0' :: zeros) = 0 := digitsValue_replicate_zero (_ + 1)
    have hcons : ['0'] ++ (zeros ++ digits) = ('0' :: zeros) ++ digits := rfl
    rw [ofText, hcons, digitsValue_append, hz, Nat.mul_zero, Nat.zero_add,
      List.length_append, List.length_replicate]
    congr 1
    omega
  have hn := number?_fraction isDigits_zero hf h
  rw [hvalue] at hn
  simpa [Decimal.positional, hneg, zeros] using hn

theorem number?_positional_of_lt (hd : IsDigits digits) {places : Nat}
    (hlt : places + 1 < digits.length) (h : Text.Delimited rest) :
    number? (Decimal.positional digits places ++ rest) =
      some (.float ((⟨digitsValue digits, (places : Int) + 1 - digits.length⟩ :
        Decimal).toBinary64 false), rest) := by
  have hneg : ¬(places : Int) < 0 := by omega
  have hw : IsDigits (digits.take (places + 1)) := by
    refine ⟨?_, fun c hc => hd.2 c (List.mem_of_mem_take hc)⟩
    rw [ne_eq, List.take_eq_nil_iff]
    simp [hd.1]
  have hf : IsDigits (digits.drop (places + 1)) := by
    refine ⟨?_, fun c hc => hd.2 c (List.mem_of_mem_drop hc)⟩
    rw [ne_eq, List.drop_eq_nil_iff]
    omega
  have hvalue : ofText (digits.take (places + 1)) (digits.drop (places + 1)) 0 =
      ⟨digitsValue digits, (places : Int) + 1 - digits.length⟩ := by
    rw [ofText, List.take_append_drop, List.length_drop]
    congr 1
    omega
  have hzeros : places + 1 - digits.length = 0 := by omega
  have hn := number?_fraction hw hf h
  rw [hvalue] at hn
  simpa [Decimal.positional, hneg, hzeros, hf.1] using hn

theorem number?_positional_of_le (hd : IsDigits digits) {places : Nat}
    (hle : digits.length ≤ places + 1) (h : Text.Delimited rest) :
    number? (Decimal.positional digits places ++ rest) =
      some (.float ((⟨digitsValue digits, (places : Int) + 1 - digits.length⟩ :
        Decimal).toBinary64 false), rest) := by
  have hneg : ¬(places : Int) < 0 := by omega
  obtain ⟨k, hk⟩ : ∃ k, places + 1 = digits.length + k := ⟨places + 1 - digits.length, by omega⟩
  have hw : IsDigits (digits ++ List.replicate k '0') := by
    refine ⟨by simp [hd.1], fun c hc => ?_⟩
    rcases List.mem_append.1 hc with hc | hc
    · exact hd.2 c hc
    · exact isDigit_of_mem_replicate hc
  have hvalue : (ofText (digits ++ List.replicate k '0') ['0'] 0).toBinary64 false =
      (⟨digitsValue digits, (places : Int) + 1 - digits.length⟩ : Decimal).toBinary64 false := by
    have hzeros : (digits ++ List.replicate k '0') ++ ['0'] =
        digits ++ List.replicate (k + 1) '0' := by
      rw [List.append_assoc, ← List.replicate_succ']
    have hexponent : ((places : Int) + 1 - digits.length) =
        (0 - ['0'].length : Int) + (k + 1 : Nat) := by
      simp only [List.length_cons, List.length_nil]
      omega
    rw [ofText, hzeros, digitsValue_append, digitsValue_replicate_zero, List.length_replicate,
      Nat.add_zero, Nat.mul_comm, Decimal.toBinary64_shift, hexponent]
  have htake : digits.take (places + 1) = digits := List.take_of_length_le hle
  have hdrop : digits.drop (places + 1) = [] := List.drop_eq_nil_of_le hle
  have hcount : places + 1 - digits.length = k := by omega
  have hn := number?_fraction hw isDigits_zero h
  rw [hvalue] at hn
  simpa [Decimal.positional, hneg, htake, hdrop, hcount] using hn

/-- Positional notation means the digits, the first of them at the exponent. -/
theorem number?_positional (hd : IsDigits digits) (exponent : Int) (h : Text.Delimited rest) :
    number? (Decimal.positional digits exponent ++ rest) =
      some (.float ((⟨digitsValue digits, exponent + 1 - digits.length⟩ :
        Decimal).toBinary64 false), rest) := by
  by_cases hneg : exponent < 0
  · exact number?_positional_of_neg hd hneg h
  · obtain ⟨places, rfl⟩ := Int.eq_ofNat_of_zero_le (Int.not_lt.1 hneg)
    by_cases hlt : places + 1 < digits.length
    · exact number?_positional_of_lt hd hlt h
    · exact number?_positional_of_le hd (Nat.not_lt.1 hlt) h

theorem number?_scientific (hd : IsDigits digits) (exponent : Int) (h : Text.Delimited rest) :
    number? (Decimal.scientific digits exponent ++ rest) =
      some (.float ((⟨digitsValue digits, exponent + 1 - digits.length⟩ :
        Decimal).toBinary64 false), rest) := by
  match digits, hd with
  | [], hd => exact absurd rfl hd.1
  | [first], hd =>
    have hvalue : ofText [first] [] exponent = ⟨digitsValue [first], exponent + 1 - 1⟩ := by
      rw [ofText, List.append_nil]
      congr 1
      simp
    have hn := number?_exponent hd exponent h
    rw [hvalue] at hn
    simpa [Decimal.scientific] using hn
  | first :: second :: more, hd =>
    have hw : IsDigits [first] := ⟨by simp, by simpa using hd.2 first List.mem_cons_self⟩
    have hf : IsDigits (second :: more) :=
      ⟨by simp, fun c hc => hd.2 c (List.mem_cons_of_mem first hc)⟩
    have hvalue : ofText [first] (second :: more) exponent =
        ⟨digitsValue (first :: second :: more),
          exponent + 1 - (first :: second :: more).length⟩ := by
      rw [ofText]
      congr 1
      simp only [List.length_cons]
      omega
    have hn := number?_fraction_exponent hw hf exponent h
    rw [hvalue] at hn
    simpa [Decimal.scientific] using hn

/-- The digits that are printed for a decimal read back as the number that it is. -/
theorem number?_layout {d : Decimal} (hd : d.digits ≠ 0) (h : Text.Delimited rest) :
    number? (d.layout ++ rest) = some (.float (d.toBinary64 false), rest) := by
  have hs := Decimal.isDigits_significant hd
  have hexponent : d.exponent + ((Nat.toDigits 10 d.digits).length : Int) -
        (Decimal.significant d.digits).length =
      d.exponent + ((Nat.toDigits 10 d.digits).length : Int) - 1 + 1 -
        (Decimal.significant d.digits).length := by omega
  rw [Decimal.toBinary64_significant, hexponent, Decimal.layout]
  split
  · exact number?_positional hs _ h
  · exact number?_scientific hs _ h

theorem number?_magnitudeText {rank : Nat} (hr : rank < Binary64.infiniteRank)
    (h : Text.Delimited rest) :
    number? (Binary64.magnitudeText rank ++ rest) =
      some (.float (.finite false rank hr), rest) := by
  unfold Binary64.magnitudeText
  by_cases hzero : rank = 0
  · subst hzero
    rw [if_pos rfl]
    exact number?_fraction isDigits_zero isDigits_zero h
  · rw [if_neg hzero]
    have hdigits := Decimal.digits_shortest_ne_zero hr (Nat.pos_of_ne_zero hzero)
    rw [number?_layout hdigits h, Decimal.toBinary64_shortest hr]

end Lexeme

end RecordLens
