import RuleFilter.Proofs.Json.Scan

/-!
JSON text read back. The text of a value is read as the document that is written for the value, with
its numbers as numerals and its strings in pieces: the text spells the lexemes of that document, and
these build it.
-/

namespace RuleFilter.Json

/-- A property of all values holds if it holds of plain ones and passes from parts to containers. -/
@[elab_as_elim] theorem induct {motive : Json → Prop} (null : motive .null)
    (bool : ∀ b, motive (.bool b)) (integer : ∀ i, motive (.integer i))
    (real : ∀ x, motive (.real x)) (string : ∀ s, motive (.string s))
    (array : ∀ items, (∀ v ∈ items, motive v) → motive (.array items))
    (object : ∀ members : List (String × Json), (∀ m ∈ members, motive m.2) →
      motive (.object members))
    (v : Json) : motive v := by
  match v with
  | .null => exact null
  | .bool b => exact bool b
  | .integer i => exact integer i
  | .real x => exact real x
  | .string s => exact string s
  | .array items =>
    exact array items fun v _ => induct null bool integer real string array object v
  | .object members =>
    exact object members fun m _ => induct null bool integer real string array object m.2
decreasing_by
  · have := List.sizeOf_lt_of_mem ‹_›; simp; omega
  · have := sizeOf_member_lt ‹_›; simp; omega

namespace Written

theorem sizeOf_member_lt {members : List (List Piece × Written)} {m : List Piece × Written}
    (h : m ∈ members) : sizeOf m.2 < sizeOf members := by
  have := List.sizeOf_lt_of_mem h
  obtain ⟨k, w⟩ := m
  simp at this ⊢
  omega

@[elab_as_elim] theorem induct {motive : Written → Prop} (null : motive .null)
    (bool : ∀ b, motive (.bool b)) (number : ∀ n, motive (.number n))
    (string : ∀ s, motive (.string s))
    (array : ∀ items, (∀ w ∈ items, motive w) → motive (.array items))
    (object : ∀ members : List (List Piece × Written), (∀ m ∈ members, motive m.2) →
      motive (.object members))
    (w : Written) : motive w := by
  match w with
  | .null => exact null
  | .bool b => exact bool b
  | .number n => exact number n
  | .string s => exact string s
  | .array items => exact array items fun w _ => induct null bool number string array object w
  | .object members =>
    exact object members fun m _ => induct null bool number string array object m.2
decreasing_by
  · have := List.sizeOf_lt_of_mem ‹_›; simp; omega
  · have := sizeOf_member_lt ‹_›; simp; omega

def lexemes : Written → List Lexeme
  | .null => [.null]
  | .bool b => [.bool b]
  | .number n => [.number n]
  | .string s => [.string s]
  | .array items =>
    .openArray :: ([.comma].intercalate (items.map fun w => lexemes w) ++ [.closeArray])
  | .object members =>
    .openObject ::
      ([.comma].intercalate (members.map fun m => .string m.1 :: .colon :: lexemes m.2) ++
        [.closeObject])
decreasing_by
  · have := List.sizeOf_lt_of_mem ‹_›; simp; omega
  · have := sizeOf_member_lt ‹_›; simp; omega

section Build

variable {stack : List Frame} {ls : List Lexeme}

theorem intercalate_cons {α β : Type} (sep : β) (f : α → List β) (a : α) (as : List α) :
    [sep].intercalate ((a :: as).map f) = f a ++ as.flatMap fun b => sep :: f b := by
  induction as generalizing a with
  | nil => simp
  | cons b as ih =>
    rw [List.map_cons, List.map_cons, List.intercalate_cons_cons, ← List.map_cons, ih b,
      List.append_assoc]
    rfl

def Builds (w : Written) : Prop :=
  ∀ stack ls, build stack none (w.lexemes ++ ls) = build stack (some w) ls

/-- What comes after the first item of an array, up to its end. -/
theorem build_items {items : List Written} (h : ∀ w ∈ items, w.Builds) (w : Written)
    (before : List Written) :
    build (.array before :: stack) (some w)
        ((items.flatMap fun w => .comma :: w.lexemes) ++ .closeArray :: ls) =
      build stack (some (.array (before.reverse ++ w :: items))) ls := by
  induction items generalizing w before with
  | nil =>
    show build stack (some (.array (w :: before).reverse)) ls = _
    rw [List.reverse_cons]
  | cons w' items ih =>
    obtain ⟨hw', hitems⟩ := List.forall_mem_cons.1 h
    rw [List.flatMap_cons, List.append_assoc, List.cons_append, build, hw', ih hitems,
      List.reverse_cons, List.append_assoc, List.singleton_append]

/-- What comes after the first member of an object, up to its end. -/
theorem build_members {members : List (List Piece × Written)} (h : ∀ m ∈ members, m.2.Builds)
    (key : List Piece) (w : Written) (before : List (List Piece × Written)) :
    build (.object before key :: stack) (some w)
        ((members.flatMap fun m => .comma :: .string m.1 :: .colon :: m.2.lexemes) ++
          .closeObject :: ls) =
      build stack (some (.object (before.reverse ++ (key, w) :: members))) ls := by
  induction members generalizing key w before with
  | nil =>
    show build stack (some (.object ((key, w) :: before).reverse)) ls = _
    rw [List.reverse_cons]
  | cons m members ih =>
    obtain ⟨hm, hmembers⟩ := List.forall_mem_cons.1 h
    rw [List.flatMap_cons, List.append_assoc, List.cons_append, List.cons_append,
      List.cons_append, build, hm, ih hmembers, List.reverse_cons, List.append_assoc,
      List.singleton_append]

/-- An array does not begin like an empty one if a document comes first. -/
theorem build_openArray (w : Written) :
    build stack none (.openArray :: (w.lexemes ++ ls)) =
      build (.array [] :: stack) none (w.lexemes ++ ls) := by
  obtain ⟨l, ls', hl, hne⟩ : ∃ l ls', w.lexemes = l :: ls' ∧ l ≠ .closeArray := by
    cases w with
    | null | bool b | number n | string s | array items | object members =>
      rw [lexemes]
      exact ⟨_, _, rfl, nofun⟩
  rw [hl, List.cons_append, build]
  intro ls'' heq
  exact hne (List.cons_eq_cons.1 heq).1

theorem builds (w : Written) : w.Builds := by
  induction w using induct with
  | null | bool b | number n | string s =>
    intro stack ls
    rw [lexemes, List.singleton_append, build]
  | array items ih =>
    intro stack ls
    rw [lexemes]
    cases items with
    | nil =>
      show build stack none (.openArray :: .closeArray :: ls) = _
      rw [build]
    | cons w items =>
      obtain ⟨hw, hitems⟩ := List.forall_mem_cons.1 ih
      rw [intercalate_cons, List.cons_append, List.append_assoc, List.append_assoc,
        build_openArray, hw]
      exact build_items hitems w []
  | object members ih =>
    intro stack ls
    rw [lexemes]
    cases members with
    | nil =>
      show build stack none (.openObject :: .closeObject :: ls) = _
      rw [build]
    | cons m members =>
      obtain ⟨hm, hmembers⟩ := List.forall_mem_cons.1 ih
      rw [intercalate_cons, List.cons_append, List.append_assoc, List.append_assoc,
        List.cons_append, List.cons_append, build, hm]
      exact build_members hmembers m.1 m.2 []

end Build

end Written

def numeralOf (x : Binary64.Finite) : Numeral :=
  ((scanNumeral x.jsonChars).map Prod.fst).getD (.ofInt 0)

theorem chars_numeralOf (x : Binary64.Finite) :
    (numeralOf x).WellFormed ∧ (numeralOf x).chars = x.jsonChars := by
  obtain ⟨n, hn, hchars⟩ := Numeral.exists_numeral_jsonChars x
  have hscan : scanNumeral x.jsonChars = some (n, []) := by
    have hscan := Numeral.scanNumeral_chars hn (Text.stops_nil _)
    rwa [List.append_nil, hchars] at hscan
  have hnumeral : numeralOf x = n := by
    rw [numeralOf, hscan]
    rfl
  rw [hnumeral]
  exact ⟨hn, hchars⟩

/-- The document that is written for a value. -/
def written : Json → Written
  | .null => .null
  | .bool b => .bool b
  | .integer i => .number (.ofInt i)
  | .real x => .number (numeralOf x)
  | .string s => .string (pieces s)
  | .array items => .array (items.map fun v => written v)
  | .object members => .object (members.map fun m => (pieces m.1, written m.2))
decreasing_by
  · have := List.sizeOf_lt_of_mem ‹_›; simp; omega
  · have := sizeOf_member_lt ‹_›; simp; omega

theorem scanLexeme_null (rest : List Char) :
    scanLexeme ("null".toList ++ rest) = some (.null, rest) := rfl

theorem scanLexeme_bool (b : Bool) (rest : List Char) :
    scanLexeme ((if b then "true" else "false").toList ++ rest) = some (.bool b, rest) := by
  cases b <;> rfl

/-- Brackets around texts with commas between them. -/
theorem Spells.enclose {α : Type} {as : List α} {text : α → List Char}
    {spelled : α → List Lexeme} (has : ∀ a ∈ as, Spells (text a) (spelled a))
    {opening closing : Char} {l l' : Lexeme}
    (hopening : ∀ rest, scanLexeme (opening :: rest) = some (l, rest))
    (hclosing : ∀ rest, scanLexeme (closing :: rest) = some (l', rest))
    (hspace : isSpace opening = false ∧ isSpace closing = false)
    (hstop : isNumeralPart closing = false) :
    Spells (opening :: ([','].intercalate (as.map text) ++ [closing]))
      (l :: ([.comma].intercalate (as.map spelled) ++ [l'])) := by
  have hend : Spells [closing] [l'] := spells_nil.cons_mark hclosing hspace.2
  have hitems := Spells.intercalate has ((Text.stops_cons ..).2 hstop) hend
  exact hitems.cons_mark hopening hspace.1

theorem toList_enclose (opening closing : String) (texts : List String) :
    (opening ++ String.intercalate "," texts ++ closing).toList =
      opening.toList ++ ([','].intercalate (texts.map String.toList) ++ closing.toList) := by
  simp [String.toList_intercalate]

theorem spells_compact (v : Json) : Spells v.compact.toList v.written.lexemes := by
  induction v using induct with
  | null =>
    rw [compact, written, Written.lexemes, ← List.append_nil "null".toList]
    exact spells_nil.cons scanLexeme_null fun _ => (Text.stops_cons ..).2 rfl
  | bool b =>
    rw [compact, written, Written.lexemes, ← List.append_nil (String.toList _)]
    refine spells_nil.cons (scanLexeme_bool b) fun _ => ?_
    cases b <;> exact (Text.stops_cons ..).2 rfl
  | integer i =>
    rw [compact, written, Written.lexemes, ← Numeral.chars_ofInt]
    exact spells_numeral (Numeral.wellFormed_ofInt i)
  | real x =>
    obtain ⟨hnumeral, hchars⟩ := chars_numeralOf x
    rw [compact, written, Written.lexemes, String.toList_ofList, ← hchars]
    exact spells_numeral hnumeral
  | string s =>
    rw [compact, written, Written.lexemes, ← List.append_nil (String.toList _)]
    exact spells_nil.cons_string s
  | array items ih =>
    rw [compact, written, Written.lexemes, toList_enclose, List.map_map, List.map_map]
    exact Spells.enclose ih (fun _ => rfl) (fun _ => rfl) ⟨rfl, rfl⟩ rfl
  | object members ih =>
    rw [compact, written, Written.lexemes, toList_enclose, List.map_map, List.map_map]
    refine Spells.enclose (fun m hm => ?_) (fun _ => rfl) (fun _ => rfl) ⟨rfl, rfl⟩ rfl
    have hcolon : Spells (':' :: m.2.compact.toList) (.colon :: m.2.written.lexemes) :=
      (ih m hm).cons_mark (fun _ => rfl) rfl
    simpa using hcolon.cons_string m.1

/-- The text of a value is read as the document written for it. -/
theorem read?_compact (v : Json) : Written.read? v.compact = some v.written := by
  have hlexemes := spells_compact v [] (Text.stops_nil _)
  have hempty : lexemes [] = some [] := by rw [lexemes]; rfl
  rw [List.append_nil] at hlexemes
  rw [Written.read?, hlexemes, hempty, Option.map_some, Option.bind_some, Written.builds]
  rfl

end RuleFilter.Json
