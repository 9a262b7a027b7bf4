import RuleFilter.Binary64.Layout
import RuleFilter.Proofs.Binary64.Rounding
import RuleFilter.Proofs.Text.Run

/-!
Positional text is read back. The digits that are written and the zeros that fill them up have the
magnitude of the decimal they come from, so the text of a finite number is read as that number.
-/

namespace RuleFilter

namespace Decimal

/-- Decimals of the same magnitude. -/
def SameMagnitude (x y : Decimal) : Prop :=
  x.numerator * y.denominator = y.numerator * x.denominator

namespace SameMagnitude

variable {x y z : Decimal}

theorem of_eq (hd : x.digits = y.digits) (he : x.exponent = y.exponent) : SameMagnitude x y := by
  simp [SameMagnitude, numerator, denominator, hd, he]

theorem symm (h : SameMagnitude x y) : SameMagnitude y x := Eq.symm h

theorem trans (h : SameMagnitude x y) (h' : SameMagnitude y z) : SameMagnitude x z := by
  unfold SameMagnitude at *
  apply Nat.eq_of_mul_eq_mul_right y.denominator_pos
  calc x.numerator * z.denominator * y.denominator
      = x.numerator * y.denominator * z.denominator := by ring
    _ = y.numerator * z.denominator * x.denominator := by rw [h]; ring
    _ = z.numerator * x.denominator * y.denominator := by rw [h']; ring

/-- Zeros at the end of the digits can be counted in the exponent instead. -/
theorem scale (a b : Bool) (digits n : Nat) (e : Int) :
    SameMagnitude ⟨a, digits * 10 ^ n, e⟩ ⟨b, digits, n + e⟩ := by
  unfold SameMagnitude
  cases e with
  | ofNat e =>
    have h : (n : Int) + Int.ofNat e = Int.ofNat (n + e) := rfl
    simp only [numerator, denominator, h, Nat.pow_add, Nat.mul_one, Nat.mul_assoc]
  | negSucc e =>
    by_cases hle : e + 1 ≤ n
    · obtain ⟨k, rfl⟩ := Nat.exists_eq_add_of_le hle
      have h : ((e + 1 + k : Nat) : Int) + Int.negSucc e = Int.ofNat k := by
        simp; omega
      simp only [numerator, denominator, h, Nat.pow_add, Nat.mul_one]
      ring
    · obtain ⟨k, hk⟩ := Nat.exists_eq_add_of_le (Nat.lt_of_not_le hle)
      have h : (n : Int) + Int.negSucc e = Int.negSucc k := by omega
      have hs : e + 1 = n + (k + 1) := by omega
      simp only [numerator, denominator, h, hs, Nat.pow_add]
      ring

theorem ofDecimal_eq (h : SameMagnitude x y) (hs : x.negative = y.negative) :
    Binary64.ofDecimal x = Binary64.ofDecimal y := Binary64.ofDecimal_congr hs h

end SameMagnitude

section Digits

theorem natOfDigits_append (cs ds : List Char) :
    natOfDigits (cs ++ ds) = natOfDigits cs * 10 ^ ds.length + natOfDigits ds := by
  rw [natOfDigits, Nat.ofDigitChars_append, Nat.ofDigitChars_eq_ofDigitChars_zero, Nat.mul_comm]
  rfl

theorem natOfDigits_replicate_zero (n : Nat) : natOfDigits (List.replicate n '0') = 0 := by
  rw [natOfDigits, Nat.ofDigitChars_replicate_zero, Nat.mul_zero]

theorem natOfDigits_zero_cons (ds : List Char) : natOfDigits ('0' :: ds) = natOfDigits ds := by
  simp [natOfDigits, Nat.ofDigitChars_cons]

theorem isDigit_of_mem_replicate_zero {n : Nat} {c : Char} (h : c ∈ List.replicate n '0') :
    c.isDigit := by
  rw [List.eq_of_mem_replicate h]
  rfl

/-- The significant digits, followed by the zeros they leave out, are all digits. -/
theorem exists_significant_append {d : Decimal} (h : d.digits ≠ 0) :
    ∃ n, Nat.toDigits 10 d.digits = d.significant ++ List.replicate n '0' := by
  let rev := (Nat.toDigits 10 d.digits).reverse
  have hz : ∀ c ∈ rev.takeWhile (· == '0'), c = '0' :=
    fun c hc => by simpa using (List.all_eq_true.1 List.all_takeWhile) c hc
  have hsplit := congrArg List.reverse
    (List.takeWhile_append_dropWhile (p := (· == '0')) (l := rev))
  rw [List.eq_replicate_of_mem hz, List.reverse_append, List.reverse_replicate] at hsplit
  refine ⟨(rev.takeWhile (· == '0')).length, ?_⟩
  rw [significant, if_neg h, hsplit, List.reverse_reverse]

theorem isDigit_of_mem_significant {d : Decimal} {c : Char} (hc : c ∈ d.significant) :
    c.isDigit := by
  by_cases h : d.digits = 0
  · simp [significant, h] at hc
  · obtain ⟨n, hn⟩ := exists_significant_append h
    exact Nat.isDigit_of_mem_toDigits (by decide) (by decide)
      (hn ▸ List.mem_append_left _ hc : c ∈ Nat.toDigits 10 d.digits)

end Digits

section Reading

variable (negative : Bool) {ws fs ds : List Char}

theorem splitSign_signed {c : Char} (cs : List Char) (hc : c.isDigit) :
    splitSign (signed negative (c :: cs)) = (negative, c :: cs) := by
  cases negative with
  | true => rfl
  | false =>
    have h₁ : c ≠ '-' := by rintro rfl; simp at hc
    have h₂ : c ≠ '+' := by rintro rfl; simp at hc
    simp [splitSign, signed, h₁, h₂]

theorem ofChars?_of_splitSign {cs : List Char} (hsign : splitSign cs = (negative, ws))
    (hws : ∀ c ∈ ws, c.isDigit) (hne : ws ≠ []) :
    ofChars? cs = some ⟨negative, natOfDigits ws, 0⟩ := by
  have ht := Text.takeWhile_append_stop hws (Text.stops_nil _)
  have hd := Text.dropWhile_append_stop hws (Text.stops_nil _)
  rw [List.append_nil] at ht hd
  simp [ofChars?, hsign, ht, hd, splitFraction, exponent?, hne]

theorem ofChars?_whole (hws : ∀ c ∈ ws, c.isDigit) (hne : ws ≠ []) :
    ofChars? (signed negative ws) = some ⟨negative, natOfDigits ws, 0⟩ := by
  obtain ⟨c, cs, rfl⟩ := List.exists_cons_of_ne_nil hne
  exact ofChars?_of_splitSign negative (splitSign_signed negative cs (hws c (by simp))) hws hne

/-- Each digit after the point is a decimal place. -/
theorem ofChars?_point (hws : ∀ c ∈ ws, c.isDigit) (hfs : ∀ c ∈ fs, c.isDigit) (hne : ws ≠ []) :
    ofChars? (signed negative (ws ++ '.' :: fs)) =
      some ⟨negative, natOfDigits (ws ++ fs), -fs.length⟩ := by
  obtain ⟨c, cs, rfl⟩ := List.exists_cons_of_ne_nil hne
  have hpoint : Text.Stops Char.isDigit ('.' :: fs) := by simp
  have ht := Text.takeWhile_append_stop hws hpoint
  have hd := Text.dropWhile_append_stop hws hpoint
  have ht' := Text.takeWhile_append_stop hfs (Text.stops_nil _)
  have hd' := Text.dropWhile_append_stop hfs (Text.stops_nil _)
  rw [List.append_nil] at ht' hd'
  rw [List.cons_append] at ht hd
  simp [ofChars?, splitSign_signed negative _ (hws c (by simp)), ht, hd, splitFraction, exponent?,
    ht', hd']

/-- A point set among digits is read back. -/
theorem ofChars?_placePoint (hds : ∀ c ∈ ds, c.isDigit) (place : Int) :
    ∃ d, ofChars? (signed negative (placePoint ds place)) = some d ∧ d.negative = negative ∧
      SameMagnitude d ⟨negative, natOfDigits ds, place - ds.length⟩ := by
  have hzero : ∀ c ∈ ['0'], c.isDigit := by simp
  cases place with
  | negSucc n =>
    have hfs : ∀ c ∈ List.replicate (n + 1) '0' ++ ds, c.isDigit := fun c hc =>
      (List.mem_append.1 hc).elim isDigit_of_mem_replicate_zero (hds c)
    refine ⟨_, ofChars?_point negative hzero hfs (by simp), rfl, SameMagnitude.of_eq ?_ ?_⟩
    · simp [natOfDigits_zero_cons, natOfDigits_append, natOfDigits_replicate_zero]
    · simp; omega
  | ofNat place =>
    rw [placePoint]
    split
    · next hle =>
      have hws : ∀ c ∈ ds ++ List.replicate (place - ds.length) '0', c.isDigit := fun c hc =>
        (List.mem_append.1 hc).elim (hds c) isDigit_of_mem_replicate_zero
      have hplace : ((place - ds.length : Nat) : Int) + 0 = Int.ofNat place - ds.length := by
        simp; omega
      have hscale := SameMagnitude.scale negative negative (natOfDigits ds) (place - ds.length) 0
      have hval : natOfDigits ds * 10 ^ (place - ds.length) =
          natOfDigits (ds ++ List.replicate (place - ds.length) '0') := by
        simp [natOfDigits_append, natOfDigits_replicate_zero]
      rw [hplace, hval] at hscale
      split
      · next h => exact ⟨_, ofChars?_whole negative hzero (by simp), rfl, h ▸ hscale⟩
      · next h => exact ⟨_, ofChars?_whole negative hws h, rfl, hscale⟩
    · next hlt =>
      split
      · next h0 =>
        refine ⟨_, ofChars?_point negative hzero hds (by simp), rfl, SameMagnitude.of_eq ?_ ?_⟩
        · simp [natOfDigits_zero_cons]
        · simp [h0]
      · next h0 =>
        have htake : ∀ c ∈ ds.take place, c.isDigit := fun c hc => hds c (List.mem_of_mem_take hc)
        have hdrop : ∀ c ∈ ds.drop place, c.isDigit := fun c hc => hds c (List.mem_of_mem_drop hc)
        have hne : ds.take place ≠ [] := by
          rw [Ne, List.take_eq_nil_iff]
          rintro (h | rfl)
          · exact h0 h
          · simp at hlt
        refine ⟨_, ofChars?_point negative htake hdrop hne, rfl, SameMagnitude.of_eq ?_ ?_⟩
        · simp
        · simp; omega

end Reading

theorem ofChars?_positional (d : Decimal) :
    ∃ d', ofChars? d.positional = some d' ∧ d'.negative = d.negative ∧ SameMagnitude d' d := by
  obtain ⟨d', hd', hs, hm⟩ := ofChars?_placePoint d.negative (fun _ => isDigit_of_mem_significant)
    (if d.digits = 0 then 0 else d.pointPlace)
  refine ⟨d', hd', hs, hm.trans ?_⟩
  by_cases h : d.digits = 0
  · have hn (x : Decimal) (hx : x.digits = 0) : x.numerator = 0 := by
      unfold numerator
      split <;> simp [hx]
    unfold SameMagnitude
    rw [hn d h, hn _ (by simp [significant, h, natOfDigits])]
    simp
  · obtain ⟨n, hn⟩ := exists_significant_append h
    have hlen := congrArg List.length hn
    have hval := congrArg natOfDigits hn
    rw [natOfDigits_append, natOfDigits_replicate_zero, natOfDigits, Nat.ofDigitChars_ten_toDigits,
      List.length_replicate, Nat.add_zero] at hval
    rw [List.length_append, List.length_replicate] at hlen
    have hplace : ((d.significant.length + n : Nat) : Int) + d.exponent - d.significant.length =
        n + d.exponent := by
      push_cast; ring
    have hscale :=
      SameMagnitude.scale d.negative d.negative (natOfDigits d.significant) n d.exponent
    rw [if_neg h, pointPlace, hlen, hplace]
    rw [← hval] at hscale
    exact hscale.symm

section Characters

variable {ds : List Char}

/-- Positional text without its sign is digits and points, a digit first. -/
theorem exists_cons_placePoint (hds : ∀ c ∈ ds, c.isDigit) (place : Int) :
    ∃ c cs, placePoint ds place = c :: cs ∧ c.isDigit ∧ ∀ e ∈ cs, e.isDigit || e == '.' := by
  have hdigit {cs : List Char} (hcs : ∀ c ∈ cs, c.isDigit) : ∀ c ∈ cs, c.isDigit || c == '.' :=
    fun c hc => by simp [hcs c hc]
  cases place with
  | negSucc n =>
    refine ⟨'0', '.' :: (List.replicate (n + 1) '0' ++ ds), rfl, rfl, ?_⟩
    intro e he
    rw [List.mem_cons, List.mem_append] at he
    obtain rfl | he | he := he
    · rfl
    · simp [isDigit_of_mem_replicate_zero he]
    · exact hdigit hds e he
  | ofNat place =>
    rw [placePoint]
    split
    · split
      · exact ⟨'0', [], rfl, rfl, by simp⟩
      · next h =>
        obtain ⟨c, cs, hcs⟩ := List.exists_cons_of_ne_nil h
        have hall : ∀ e ∈ c :: cs, e.isDigit := fun e he =>
          (List.mem_append.1 (hcs ▸ he)).elim (hds e) isDigit_of_mem_replicate_zero
        exact ⟨c, cs, hcs, hall c (by simp), hdigit fun e he => hall e (by simp [he])⟩
    · next hlt =>
      split
      · refine ⟨'0', '.' :: ds, rfl, rfl, fun e he => ?_⟩
        obtain rfl | he := List.mem_cons.1 he
        · rfl
        · exact hdigit hds e he
      · next h0 =>
        obtain ⟨c, cs, rfl⟩ : ∃ c cs, ds = c :: cs :=
          List.exists_cons_of_ne_nil (by rintro rfl; simp at hlt)
        obtain ⟨n, rfl⟩ := Nat.exists_eq_succ_of_ne_zero h0
        refine ⟨c, cs.take n ++ '.' :: cs.drop n, rfl, hds c (by simp), ?_⟩
        intro e he
        rw [List.mem_append, List.mem_cons] at he
        obtain he | rfl | he := he
        · exact hdigit hds e (by simp [List.mem_of_mem_take he])
        · rfl
        · exact hdigit hds e (by simp [List.mem_of_mem_drop he])

end Characters

end Decimal

namespace Binary64.Finite

/-- The text of a finite number is read as that number. -/
theorem exists_ofChars?_chars (x : Finite) :
    ∃ d, Decimal.ofChars? x.chars = some d ∧ ofDecimal d = .finite x := by
  obtain ⟨d, hd, hs, hm⟩ := Decimal.ofChars?_positional (x.shortest .up)
  exact ⟨d, hd, by rw [hm.ofDecimal_eq hs, ofDecimal_shortest]⟩

/-- The text of a finite number is a digit among digits and points, or a minus before that. -/
theorem exists_chars_eq (x : Finite) :
    ∃ c cs, x.chars = c :: cs ∧ (c.isDigit ∨ c = '-') ∧ ∀ e ∈ cs, e.isDigit || e == '.' := by
  obtain ⟨c, cs, h, hc, hcs⟩ := Decimal.exists_cons_placePoint
    (fun _ => Decimal.isDigit_of_mem_significant (d := x.shortest .up))
    (if (x.shortest .up).digits = 0 then 0 else (x.shortest .up).pointPlace)
  rw [chars, Decimal.positional, h]
  cases (x.shortest .up).negative with
  | false => exact ⟨c, cs, rfl, .inl hc, hcs⟩
  | true => exact ⟨'-', c :: cs, rfl, .inr rfl, by simpa [hc] using hcs⟩

end Binary64.Finite

end RuleFilter
