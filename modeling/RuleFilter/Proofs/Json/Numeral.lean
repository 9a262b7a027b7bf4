import RuleFilter.Json.Written
import RuleFilter.Proofs.Binary64.Positional

/-!
Numerals as text. A numeral in the form that JSON asks for is scanned back from its text, whatever
follows that does not go on with it, and the texts of integers and of binary64 numbers are such
numerals.
-/

namespace RuleFilter.Json

/-- The characters that a numeral can go on with. -/
def isNumeralPart (c : Char) : Bool := c.isDigit || c == '.' || c == 'e' || c == 'E'

namespace Numeral

def exponentChars : Option (Bool × List Char) → List Char
  | none => []
  | some (down, ds) => 'e' :: (if down then '-' else '+') :: ds

/-- The text of a numeral, with a sign before every power of ten. -/
def chars (n : Numeral) : List Char :=
  Decimal.signed n.negative
    (n.whole ++ (if n.fraction = [] then [] else '.' :: n.fraction) ++ exponentChars n.exponent)

/-- Digits that begin with a zero only if that is all. -/
def IsWhole (ds : List Char) : Prop :=
  ds = ['0'] ∨ ds ≠ [] ∧ ds.head? ≠ some '0' ∧ ∀ c ∈ ds, c.isDigit

structure WellFormed (n : Numeral) : Prop where
  whole : IsWhole n.whole
  fraction : ∀ c ∈ n.fraction, c.isDigit
  exponent : ∀ down ds, n.exponent = some (down, ds) → ds ≠ [] ∧ ∀ c ∈ ds, c.isDigit

variable {ds rest : List Char}

theorem wellFormed_of_none {negative : Bool} {whole fraction : List Char} (hwhole : IsWhole whole)
    (hfraction : ∀ c ∈ fraction, c.isDigit) : WellFormed ⟨negative, whole, fraction, none⟩ := by
  refine ⟨hwhole, hfraction, fun down ds h => ?_⟩
  cases h

theorem IsWhole.isDigit (h : IsWhole ds) : ∀ c ∈ ds, c.isDigit := by
  obtain rfl | ⟨-, -, hds⟩ := h
  · exact List.forall_mem_singleton.2 rfl
  · exact hds

theorem IsWhole.exists_cons (h : IsWhole ds) : ∃ c cs, ds = c :: cs ∧ c.isDigit := by
  obtain ⟨c, cs, rfl⟩ : ∃ c cs, ds = c :: cs := by
    obtain rfl | ⟨hne, -, -⟩ := h
    · exact ⟨_, _, rfl⟩
    · exact List.exists_cons_of_ne_nil hne
  exact ⟨c, cs, rfl, h.isDigit c (.head _)⟩

section Scan

theorem scanDigits_append (hne : ds ≠ []) (hds : ∀ c ∈ ds, c.isDigit)
    (hrest : Text.Stops Char.isDigit rest) : scanDigits (ds ++ rest) = some (ds, rest) := by
  rw [scanDigits, Text.takeWhile_append_stop hds hrest, Text.dropWhile_append_stop hds hrest]
  split
  · exact absurd rfl hne
  · rfl

theorem scanWhole_append (h : IsWhole ds) (hrest : Text.Stops Char.isDigit rest) :
    scanWhole (ds ++ rest) = some (ds, rest) := by
  obtain rfl | ⟨hne, hhead, hds⟩ := h
  · rfl
  · obtain ⟨c, cs, rfl⟩ := List.exists_cons_of_ne_nil hne
    have hscan := scanDigits_append hne hds hrest
    rw [scanWhole]
    · exact hscan
    · rintro cs' hcs
      obtain rfl : c = '0' := (List.cons_eq_cons.1 hcs).1
      exact hhead rfl

theorem scanFraction_append (hds : ∀ c ∈ ds, c.isDigit)
    (hrest : Text.Stops (fun c => c.isDigit || c == '.') rest) :
    scanFraction ((if ds = [] then [] else '.' :: ds) ++ rest) = some (ds, rest) := by
  split
  · next hnil =>
    subst hnil
    rw [List.nil_append, scanFraction]
    rintro cs rfl
    simp at hrest
  · next hne => exact scanDigits_append hne hds (hrest.mono fun c hc => by simp [hc])

theorem scanExponent_append {e : Option (Bool × List Char)}
    (he : ∀ down ds, e = some (down, ds) → ds ≠ [] ∧ ∀ c ∈ ds, c.isDigit)
    (hrest : Text.Stops isNumeralPart rest) :
    scanExponent (exponentChars e ++ rest) = some (e, rest) := by
  cases e with
  | none =>
    cases rest with
    | nil => rfl
    | cons c rest =>
      have hc : ¬ (c = 'e' ∨ c = 'E') := by
        rintro (rfl | rfl) <;> exact absurd ((Text.stops_cons ..).1 hrest) (by decide)
      show scanExponent (c :: rest) = _
      rw [scanExponent, if_neg hc]
  | some e =>
    obtain ⟨down, ds⟩ := e
    obtain ⟨hne, hds⟩ := he down ds rfl
    have hscan := scanDigits_append hne hds (hrest.mono fun c hc => by simp [isNumeralPart, hc])
    have hsign : Decimal.splitSign ((if down then '-' else '+') :: (ds ++ rest)) =
        (down, ds ++ rest) := by
      cases down <;> rfl
    show scanExponent ('e' :: (if down then '-' else '+') :: (ds ++ rest)) = _
    rw [scanExponent, if_pos (.inl rfl), hsign]
    dsimp only
    rw [hscan]
    rfl

theorem scanNumeral_signed (negative : Bool) {c : Char} (hc : c ≠ '-') (cs : List Char) :
    scanNumeral (Decimal.signed negative (c :: cs)) = do
      let (whole, cs) ← scanWhole (c :: cs)
      let (fraction, cs) ← scanFraction cs
      let (exponent, cs) ← scanExponent cs
      return (⟨negative, whole, fraction, exponent⟩, cs) := by
  cases negative with
  | true => rfl
  | false =>
    rw [Decimal.signed, if_neg Bool.false_ne_true, scanNumeral]
    intro cs' heq
    exact hc (List.cons_eq_cons.1 heq).1

/-- A numeral is scanned from its text up to what cannot belong to it. -/
theorem scanNumeral_chars {n : Numeral} (h : n.WellFormed) (hrest : Text.Stops isNumeralPart rest) :
    scanNumeral (n.chars ++ rest) = some (n, rest) := by
  obtain ⟨negative, whole, fraction, exponent⟩ := n
  let fractionChars := if fraction = [] then [] else '.' :: fraction
  have hexponent := scanExponent_append h.exponent hrest
  have hafter : Text.Stops (fun c => c.isDigit || c == '.') (exponentChars exponent ++ rest) := by
    cases exponent with
    | none => exact hrest.mono fun c hc => by simp_all [isNumeralPart]
    | some e => exact (Text.stops_cons ..).2 rfl
  have hfraction := scanFraction_append h.fraction hafter
  have hdigits : Text.Stops Char.isDigit (fractionChars ++ (exponentChars exponent ++ rest)) := by
    unfold fractionChars
    split
    · exact hafter.mono fun c hc => by simp [hc]
    · exact (Text.stops_cons ..).2 rfl
  have hwhole := scanWhole_append h.whole hdigits
  obtain ⟨c, cs, rfl, hc⟩ := h.whole.exists_cons
  have hminus : c ≠ '-' := by
    rintro rfl
    cases hc
  have htext : chars ⟨negative, c :: cs, fraction, exponent⟩ ++ rest =
      Decimal.signed negative
        (c :: (cs ++ (fractionChars ++ (exponentChars exponent ++ rest)))) := by
    cases negative <;> simp [chars, Decimal.signed, fractionChars]
  rw [htext, scanNumeral_signed negative hminus, ← List.cons_append]
  simp only [hwhole, hfraction, hexponent, fractionChars, Option.bind_eq_bind, Option.bind_some,
    Option.pure_def]

end Scan

section Printed

variable (negative : Bool)

theorem head?_toDigits_ne {n : Nat} (h : n ≠ 0) : (Nat.toDigits 10 n).head? ≠ some '0' := by
  induction n using Nat.strongRecOn with
  | ind n ih =>
    by_cases hn : n < 10
    · have hall : ∀ n < 10, n ≠ 0 → (Nat.toDigits 10 n).head? ≠ some '0' := by decide
      exact hall n hn h
    · have hne : Nat.toDigits 10 (n / 10) ≠ [] := Nat.toDigits_ne_nil
      obtain ⟨c, cs, hcs⟩ := List.exists_cons_of_ne_nil hne
      have hrest := ih (n / 10) (by omega) (by omega)
      rw [hcs] at hrest
      rw [Nat.toDigits_of_base_le (by decide) (Nat.not_lt.1 hn), hcs]
      exact hrest

theorem isWhole_toDigits (n : Nat) : IsWhole (Nat.toDigits 10 n) := by
  by_cases h : n = 0
  · exact .inl (by rw [h, Nat.toDigits_zero])
  · exact .inr ⟨Nat.toDigits_ne_nil, head?_toDigits_ne h,
      fun c => Nat.isDigit_of_mem_toDigits (by decide) (by decide)⟩

/-- The significant digits are there and begin with another one than zero. -/
theorem exists_cons_significant {d : Decimal} (h : d.digits ≠ 0) :
    ∃ c cs, d.significant = c :: cs ∧ c ≠ '0' ∧ ∀ e ∈ c :: cs, e.isDigit := by
  obtain ⟨n, hn⟩ := Decimal.exists_significant_append h
  have hhead := head?_toDigits_ne h
  rw [hn] at hhead
  cases hds : d.significant with
  | nil =>
    rw [hds, List.nil_append] at hn hhead
    cases n with
    | zero => exact absurd hn Nat.toDigits_ne_nil
    | succ n => exact absurd rfl hhead
  | cons c cs =>
    rw [hds] at hhead
    refine ⟨c, cs, rfl, fun hc => hhead (congrArg some hc), fun e he => ?_⟩
    exact Decimal.isDigit_of_mem_significant (hds ▸ he)

section Digits

variable {c : Char} {cs : List Char} (hc : c ≠ '0') (hcs : ∀ e ∈ c :: cs, e.isDigit)
include hc hcs

theorem isWhole_cons_append {zeros : Nat} : IsWhole (c :: cs ++ List.replicate zeros '0') := by
  refine .inr ⟨List.cons_ne_nil _ _, fun h => hc (Option.some.inj h), fun e he => ?_⟩
  obtain he | he := List.mem_append.1 he
  · exact hcs e he
  · exact Decimal.isDigit_of_mem_replicate_zero he

/-- Positional text is a numeral once a whole number has its point. -/
theorem exists_numeral_placePoint (place : Int) : ∃ n : Numeral, n.WellFormed ∧
    n.chars = Decimal.signed negative (Decimal.placePoint (c :: cs) place ++
      if (c :: cs).length ≤ place then ['.', '0'] else []) := by
  cases place with
  | negSucc k =>
    refine ⟨⟨negative, ['0'], List.replicate (k + 1) '0' ++ c :: cs, none⟩,
      wellFormed_of_none (.inl rfl) fun e he => ?_, ?_⟩
    · obtain he | he := List.mem_append.1 he
      · exact Decimal.isDigit_of_mem_replicate_zero he
      · exact hcs e he
    · have hplace : ¬ ((c :: cs).length : Int) ≤ Int.negSucc k := by omega
      rw [if_neg hplace]
      simp [chars, exponentChars, Decimal.placePoint]
  | ofNat place =>
    by_cases hle : (c :: cs).length ≤ place
    · refine ⟨⟨negative, c :: cs ++ List.replicate (place - (c :: cs).length) '0', ['0'], none⟩,
        wellFormed_of_none (isWhole_cons_append hc hcs) (List.forall_mem_singleton.2 rfl), ?_⟩
      have hplace : ((c :: cs).length : Int) ≤ Int.ofNat place := Int.ofNat_le.2 hle
      rw [if_pos hplace, Decimal.placePoint, if_pos hle]
      simp [chars, exponentChars]
    · have hplace : ¬ ((c :: cs).length : Int) ≤ Int.ofNat place := mt Int.ofNat_le.1 hle
      rw [if_neg hplace, Decimal.placePoint, if_neg hle]
      by_cases hzero : place = 0
      · refine ⟨⟨negative, ['0'], c :: cs, none⟩, wellFormed_of_none (.inl rfl) hcs, ?_⟩
        rw [if_pos hzero]
        simp [chars, exponentChars]
      · obtain ⟨k, rfl⟩ := Nat.exists_eq_succ_of_ne_zero hzero
        have hshort : ¬ cs.length ≤ k := by
          rw [List.length_cons] at hle
          omega
        have hwhole : IsWhole ((c :: cs).take (k + 1)) :=
          .inr ⟨List.cons_ne_nil _ _, fun h => hc (Option.some.inj h),
            fun e he => hcs e (List.mem_of_mem_take he)⟩
        refine ⟨⟨negative, (c :: cs).take (k + 1), (c :: cs).drop (k + 1), none⟩,
          wellFormed_of_none hwhole fun e he => hcs e (List.mem_of_mem_drop he), ?_⟩
        rw [if_neg hzero]
        simp [chars, exponentChars, hshort]

end Digits

theorem exists_numeral_scientific {d : Decimal} (h : d.digits ≠ 0) :
    ∃ n : Numeral, n.WellFormed ∧ n.chars = d.scientific := by
  obtain ⟨c, cs, hds, hc, hcs⟩ := exists_cons_significant h
  let power := d.pointPlace - 1
  refine ⟨⟨d.negative, [c], cs, some (decide (power < 0), Nat.toDigits 10 power.natAbs)⟩,
    ⟨.inr ⟨List.cons_ne_nil _ _, fun h => hc (Option.some.inj h), ?_⟩, ?_, ?_⟩, ?_⟩
  · exact List.forall_mem_singleton.2 (hcs c (.head _))
  · exact fun e he => hcs e (.tail _ he)
  · rintro down ds heq
    obtain ⟨-, rfl⟩ := Prod.mk.inj (Option.some.inj heq)
    exact ⟨Nat.toDigits_ne_nil, (isWhole_toDigits _).isDigit⟩
  · simp [chars, exponentChars, Decimal.scientific, hds, power]

theorem exists_numeral_positional {d : Decimal} (h : d.digits ≠ 0) : ∃ n : Numeral, n.WellFormed ∧
    n.chars = d.positional ++ if d.significant.length ≤ d.pointPlace then ['.', '0'] else [] := by
  obtain ⟨c, cs, hds, hc, hcs⟩ := exists_cons_significant h
  obtain ⟨n, hn, htext⟩ := exists_numeral_placePoint d.negative hc hcs d.pointPlace
  refine ⟨n, hn, ?_⟩
  rw [htext, Decimal.positional, if_neg h, hds]
  cases d.negative <;> rfl

theorem exists_numeral_zero {d : Decimal} (h : d.digits = 0) : ∃ n : Numeral, n.WellFormed ∧
    n.chars = d.positional ++ ['.', '0'] := by
  refine ⟨⟨d.negative, ['0'], ['0'], none⟩,
    wellFormed_of_none (.inl rfl) (List.forall_mem_singleton.2 rfl), ?_⟩
  rw [Decimal.positional, Decimal.significant, if_pos h, if_pos h]
  cases d.negative <;> rfl

/-- The text of a binary64 number is a numeral. -/
theorem exists_numeral_jsonChars (x : Binary64.Finite) :
    ∃ n : Numeral, n.WellFormed ∧ n.chars = x.jsonChars := by
  rw [Binary64.Finite.jsonChars]
  generalize x.shortest .even = d
  by_cases hzero : d.digits = 0
  · rw [if_pos hzero]
    exact exists_numeral_zero hzero
  · rw [if_neg hzero]
    by_cases hpower : d.pointPlace < -4 ∨ 16 < d.pointPlace
    · rw [if_pos hpower]
      exact exists_numeral_scientific hzero
    · rw [if_neg hpower]
      obtain ⟨n, hn, htext⟩ := exists_numeral_positional hzero
      refine ⟨n, hn, htext.trans ?_⟩
      split
      · rfl
      · exact List.append_nil _

end Printed

section Integers

/-- The numeral of an integer. -/
def ofInt (i : Int) : Numeral := ⟨decide (i < 0), Nat.toDigits 10 i.natAbs, [], none⟩

variable (i : Int)

theorem wellFormed_ofInt : (ofInt i).WellFormed :=
  wellFormed_of_none (isWhole_toDigits _) (List.forall_mem_nil _)

theorem chars_ofInt : (ofInt i).chars = (toString i).toList := by
  rw [Int.toString_eq_repr, Int.repr_eq_if]
  by_cases hi : 0 ≤ i
  · have hnat : i.toNat = i.natAbs := by omega
    rw [if_pos hi, Nat.toList_repr, hnat]
    simp [chars, ofInt, exponentChars, Decimal.signed, hi]
  · have hnat : (-i).toNat = i.natAbs := by omega
    rw [if_neg hi, String.toList_append, Nat.toList_repr, hnat]
    simp [chars, ofInt, exponentChars, Decimal.signed, Int.not_le.1 hi]

/-- Digits that stay within the bound are all used. -/
theorem accumulate_of_le {bound n : Nat} {ds : List Char} (h : Nat.ofDigitChars 10 ds n ≤ bound) :
    accumulate bound n ds = (Nat.ofDigitChars 10 ds n, []) := by
  induction ds generalizing n with
  | nil => rfl
  | cons c ds ih =>
    rw [Nat.ofDigitChars_cons] at h ⊢
    have hpow : 0 < 10 ^ ds.length := Nat.pow_pos (by decide)
    have hstep : 10 * n + digitValue c ≤ bound := by
      refine Nat.le_trans ?_ h
      rw [Nat.ofDigitChars_eq_ofDigitChars_zero]
      exact Nat.le_trans (Nat.le_mul_of_pos_left _ hpow) (Nat.le_add_right ..)
    rw [accumulate, if_pos hstep]
    exact ih h

/-- An integer of 64 bits is read as itself. -/
theorem toJson?_ofInt (hmin : -(2 ^ 63) ≤ i) (hmax : i < 2 ^ 64) :
    (ofInt i).toJson? = some (.integer i) := by
  have hvalue : Nat.ofDigitChars 10 (Nat.toDigits 10 i.natAbs) 0 = i.natAbs :=
    Nat.ofDigitChars_ten_toDigits
  have hbound : Nat.ofDigitChars 10 (Nat.toDigits 10 i.natAbs) 0 ≤ maxSignificand := by
    have hmaxSignificand : maxSignificand = 2 ^ 64 - 1 := rfl
    omega
  have hinteger : integer? (decide (i < 0)) i.natAbs = some (.integer i) := by
    have hsize : UInt64.size = 2 ^ 64 := rfl
    by_cases hi : i < 0
    · have hrange : 0 < i.natAbs ∧ i.natAbs ≤ UInt64.size / 2 := by omega
      have hneg : -(i.natAbs : Int) = i := by omega
      rw [integer?, decide_eq_true hi, if_neg (by decide), if_pos hrange, hneg]
    · have hpos : (i.natAbs : Int) = i := by omega
      rw [integer?, decide_eq_false hi, if_pos (by decide), hpos]
  rw [toJson?, ofInt, accumulate_of_le hbound, hvalue]
  show (integer? (decide (i < 0)) i.natAbs).orElse _ = _
  rw [hinteger]
  rfl

end Integers

end Numeral

end RuleFilter.Json
