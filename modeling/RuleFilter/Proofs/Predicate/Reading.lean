import RuleFilter.Proofs.Predicate.Text
import RuleFilter.Proofs.Sql.Name
import RuleFilter.Proofs.Sql.Scan
import RuleFilter.Proofs.Sql.Written

/-!
Predicates are read back from their texts. With the parameters that a predicate binds, its text
stands for the tree of its clauses, without groups of one.
-/

namespace RuleFilter

open TextReader

namespace Clause

def atom (reference : String) : Clause → Sql.Atom
  | .isNull => .test reference (.isNull false)
  | .isNotNull => .test reference (.isNull true)
  | .compare relation v => .test reference (.compare relation v)
  | .between low high => .test reference (.between low high)
  | .among negated vs => .test reference (.among negated vs)
  | .like pattern => .test reference (.like pattern '\\')
  | .always => .equation 1 1
  | .never => .equation 1 0

theorem isReadable_of (reference : String) (op : Operator) (v : Operand) :
    ((Clause.of op v).atom reference).IsReadable := by
  have hlist : ∀ negated, ((ofMembership negated v).atom reference).IsReadable := by
    intro negated
    cases v with
    | list vs => cases vs <;> simp [ofMembership, atom, Sql.Atom.IsReadable, Sql.Test.IsReadable]
    | _ => exact trivial
  cases op with
  | oneOf | noneOf => exact hlist _
  | eq | neq => cases v with
    | single v => cases v <;> exact trivial
    | _ => exact trivial
  | contains | startsWith | endsWith => cases v with
    | single v => cases v <;> exact trivial
    | _ => exact trivial
  | _ => cases v <;> exact trivial

variable {params : List Value} {n : Nat}

theorem spans_values (d : Dialect) {vs : List Value} (h : vs <+: params.drop n) :
    Spans (Sql.Scans params) n (n + vs.length)
      ([',', ' '].intercalate ((List.range' (n + 1) vs.length).map fun i =>
        (d.placeholder i).toList))
      ([Sql.Token.comma].intercalate (vs.map fun v => [.value v])) := by
  induction vs generalizing n with
  | nil => exact Sql.spans_nil
  | cons v vs ih =>
    have hv := Sql.spans_placeholder d (getElem?_of_prefix_drop h)
    have happend : [v] ++ vs <+: params.drop n := h
    have hvs := ih (prefix_drop_of_append happend)
    cases vs with
    | nil => simpa using hv
    | cons w ws =>
      have hcomma : Sql.Token.mark? ',' = some .comma := rfl
      have hjoin := Sql.spans_mark hcomma (Sql.spans_blank hvs)
      have := hv.append hjoin ((Text.stops_cons ..).2 rfl)
      simpa [List.range'_succ, List.intercalate_cons_cons, Nat.add_assoc, Nat.add_comm 1] using this

/-- The text of a clause is scanned as the tokens of its test where its values come next. -/
theorem spans_text {reference : String} (hword : Text.isWord reference.toList)
    (hname : Sql.Keyword.ofWord? reference = none) (d : Dialect) {c : Clause}
    (h : c.bound <+: params.drop n) :
    Spans (Sql.Scans params) n (n + c.bound.length) (c.text d reference n).toList
      (c.atom reference).tokens := by
  have hreference : Spans (Sql.Scans params) n n reference.toList [.name reference] := by
    have := @Sql.spans_word params n _ hword
    rwa [Sql.Token.ofWord, String.ofList_toList, hname] at this
  have hkeyword {m : Nat} (k : Sql.Keyword) :
      Spans (Sql.Scans params) m m k.text.toList [.keyword k] := Sql.spans_keyword k
  have hafter {m : Nat} {cs : List Char} {ts : List Sql.Token}
      (hcs : Spans (Sql.Scans params) n m cs ts) :
      Spans (Sql.Scans params) n m (reference.toList ++ ' ' :: cs) (.name reference :: ts) :=
    Sql.spans_blank_append hreference hcs
  cases c with
  | isNull =>
    have := hafter (Sql.spans_blank_append (hkeyword .is) (hkeyword .null))
    simpa [text, bound, atom, Sql.Atom.tokens, Sql.Test.tokens, Sql.Keyword.text] using this
  | isNotNull =>
    have := hafter (Sql.spans_blank_append (hkeyword .is)
      (Sql.spans_blank_append (hkeyword .not) (hkeyword .null)))
    simpa [text, bound, atom, Sql.Atom.tokens, Sql.Test.tokens, Sql.Keyword.text] using this
  | compare relation v =>
    have hv := Sql.spans_placeholder d (getElem?_of_prefix_drop h)
    have := hafter (Sql.spans_sign relation hv)
    simpa [text, bound, atom, Sql.Atom.tokens, Sql.Test.tokens] using this
  | between low high =>
    have happend : [low] ++ [high] <+: params.drop n := h
    have hlow := Sql.spans_placeholder d (getElem?_of_prefix_drop h)
    have hhigh := Sql.spans_placeholder d
      (getElem?_of_prefix_drop (prefix_drop_of_append happend))
    have := hafter (Sql.spans_blank_append (hkeyword .between)
      (Sql.spans_blank_append hlow (Sql.spans_blank_append (hkeyword .and) hhigh)))
    simpa [text, bound, atom, Sql.Atom.tokens, Sql.Test.tokens, Sql.Keyword.text] using this
  | among negated vs =>
    have hvs := spans_values d h
    have hclose : Spans (Sql.Scans params) (n + vs.length) (n + vs.length) [')'] [.closeParen] :=
      Sql.spans_mark rfl Sql.spans_nil
    have hlist := Sql.spans_mark (c := '(') (t := .openParen) rfl
      (hvs.append hclose ((Text.stops_cons ..).2 rfl))
    cases negated with
    | false =>
      have := hafter (Sql.spans_blank_append (hkeyword .among) hlist)
      simpa [text, bound, atom, Sql.Atom.tokens, Sql.Test.tokens, Sql.Keyword.text,
        Dialect.membership, Sql.map_placeholders, Function.comp_def] using this
    | true =>
      have := hafter (Sql.spans_blank_append (hkeyword .not)
        (Sql.spans_blank_append (hkeyword .among) hlist))
      simpa [text, bound, atom, Sql.Atom.tokens, Sql.Test.tokens, Sql.Keyword.text,
        Dialect.membership, Sql.map_placeholders, Function.comp_def] using this
  | like pattern =>
    have hpattern := Sql.spans_placeholder d (getElem?_of_prefix_drop h)
    have := hafter (Sql.spans_blank_append (hkeyword .like) (Sql.spans_blank_append hpattern
      (Sql.spans_blank_append (hkeyword .escape) Sql.spans_escape)))
    simpa [text, bound, atom, Sql.Atom.tokens, Sql.Test.tokens, Sql.Keyword.text, Dialect.like]
      using this
  | always =>
    have hone : '1'.isDigit := by decide
    show Spans (Sql.Scans params) n n (text d reference n always).toList
      [.number (Sql.Token.digitsNumber ['1']), .sign .eq, .number (Sql.Token.digitsNumber ['1'])]
    simpa [text] using Sql.spans_equation hone hone
  | never =>
    have hone : '1'.isDigit := by decide
    have hzero : '0'.isDigit := by decide
    show Spans (Sql.Scans params) n n (text d reference n never).toList
      [.number (Sql.Token.digitsNumber ['1']), .sign .eq, .number (Sql.Token.digitsNumber ['0'])]
    simpa [text] using Sql.spans_equation hone hzero

end Clause

namespace Predicate

/-- The item of a fragment that a part of the text stands for. -/
def Part.item (tableAlias : String) : Part → Sql.Item Sql.Atom
  | .condition c => .atom (c.clause.atom (Sql.qualify tableAlias c.column))
  | .always => .atom (.equation 1 1)
  | .join k => .join k
  | .openParen => .openParen
  | .closeParen => .closeParen

/-- The tree of clauses, in which groups of one have given way to their members. -/
def expr (tableAlias : String) : Predicate → Sql.Expr Sql.Atom
  | .condition c => .atom (c.clause.atom (Sql.qualify tableAlias c.column))
  | .all [] | .any [] => .atom (.equation 1 1)
  | .all [p] | .any [p] => expr tableAlias p
  | .all ps => .group .and (ps.map fun p => expr tableAlias p)
  | .any ps => .group .or (ps.map fun p => expr tableAlias p)

variable {tableAlias : String} {params : List Value} {k : Combinator} {ps : List Predicate}

theorem expr_condition (c : Condition) : expr tableAlias (condition c) =
    .atom (c.clause.atom (Sql.qualify tableAlias c.column)) := by rw [expr]

theorem expr_empty (k : Combinator) : expr tableAlias (ofGroup k []) = .atom (.equation 1 1) := by
  cases k <;> rw [ofGroup, expr]

theorem expr_singleton (k : Combinator) (p : Predicate) :
    expr tableAlias (ofGroup k [p]) = expr tableAlias p := by
  cases k <;> rw [ofGroup, expr]

theorem expr_ofGroup (k : Combinator) (h : 2 ≤ ps.length) :
    expr tableAlias (ofGroup k ps) = .group k (ps.map (expr tableAlias)) := by
  match ps, h with
  | p :: q :: ps, _ => cases k <;> rw [ofGroup, expr] <;> simp

theorem composes_scans :
    Composes (Sql.Scans params) fun part => (part.item tableAlias).tokens where
  always _ := by
    have hone : '1'.isDigit := by decide
    exact Sql.spans_equation hone hone
  join k n _ _ h := by
    have hword (k : Sql.Keyword) : Spans (Sql.Scans params) n n (' ' :: k.text.toList)
        [.keyword k] := Sql.spans_blank (Sql.spans_keyword k)
    cases k with
    | and => exact hword .and _ _ ((Text.stops_cons ..).2 rfl) h.blank
    | or => exact hword .or _ _ ((Text.stops_cons ..).2 rfl) h.blank
  openParen _ _ _ h := h.mark rfl
  closeParen _ _ _ h := h.mark rfl

theorem map_item_intercalate (tableAlias : String) (k : Combinator) (ls : List (List Part)) :
    ([Part.join k].intercalate ls).map (Part.item tableAlias) =
      [Sql.Item.join k].intercalate (ls.map (List.map (Part.item tableAlias))) := by
  induction ls with
  | nil => rfl
  | cons l ls ih =>
    cases ls with
    | nil => simp
    | cons l' ls =>
      rw [List.map_cons] at ih
      rw [List.map_cons, List.map_cons, List.intercalate_cons_cons, List.intercalate_cons_cons,
        List.map_append, List.map_append, ih]
      rfl

/-- The parts of a predicate are what is written of its tree. -/
theorem map_item_parts (tableAlias : String) (nested : Bool) (p : Predicate) :
    (p.parts nested).map (Part.item tableAlias) = (p.expr tableAlias).written nested := by
  induction p using induct_ofGroup generalizing nested with
  | condition c =>
    rw [parts_condition, expr_condition, Sql.Expr.written]
    rfl
  | group k ps ih =>
    rcases ps with _ | ⟨p, _ | ⟨q, qs⟩⟩
    · rw [parts_empty, expr_empty, Sql.Expr.written]
      rfl
    · rw [parts_singleton, expr_singleton, ih p (by simp)]
    · have hmembers : ((p :: q :: qs).map (parts true)).map (List.map (Part.item tableAlias)) =
          ((p :: q :: qs).map (expr tableAlias)).map (Sql.Expr.written true) := by
        rw [List.map_map, List.map_map]
        exact List.map_congr_left fun r hr => ih r hr true
      have hjoined := map_item_intercalate tableAlias k ((p :: q :: qs).map (parts true))
      rw [hmembers] at hjoined
      rw [parts_ofGroup k (by simp), expr_ofGroup k (by simp), Sql.Expr.written, joinLists]
      cases nested with
      | false => exact hjoined
      | true =>
        show Sql.Item.openParen :: ([Part.join k].intercalate _ ++ [Part.closeParen]).map _ = _
        rw [List.map_append, hjoined]
        rfl

theorem branching_expr (tableAlias : String) (p : Predicate) : (p.expr tableAlias).Branching := by
  induction p using induct_ofGroup with
  | condition c =>
    rw [expr_condition]
    exact .atom _
  | group k ps ih =>
    match ps with
    | [] =>
      rw [expr_empty]
      exact .atom _
    | [p] =>
      rw [expr_singleton]
      exact ih p (by simp)
    | p :: q :: qs =>
      rw [expr_ofGroup k (by simp)]
      exact .group (by simp) (List.forall_mem_map.2 ih)

section Text

variable {p : Predicate}

theorem readable_item (tableAlias : String) (nested : Bool) (p : Predicate) :
    ∀ a, .atom a ∈ (p.parts nested).map (Part.item tableAlias) → a.IsReadable := by
  intro a ha
  obtain ⟨part, -, he⟩ := List.mem_map.1 ha
  cases part with
  | condition c =>
    cases he
    exact Clause.isReadable_of _ _ _
  | always =>
    cases he
    exact trivial
  | join _ | openParen | closeParen => cases he

variable (d : Dialect) (params : List Value)
  (halias : tableAlias = "" ∨ Sql.isIdentifier tableAlias)
  (hcolumns : ∀ c ∈ p.conditions, Sql.isColumn c.column)
  (hnames : ∀ c ∈ p.conditions, Sql.Keyword.ofWord? (Sql.qualify tableAlias c.column) = none)

include halias hcolumns hnames

/-- With its parameters the text of a predicate is scanned as what is written of its tree. -/
theorem scan_toSql :
    let sql := p.toSql d tableAlias params
    Sql.scan sql.2 params.length sql.1.toList =
      some (((p.expr tableAlias).written false).flatMap Sql.Item.tokens) := by
  have hclauses : ∀ c ∈ p.conditions, ReadsCondition (Sql.Scans (p.toSql d tableAlias params).2)
      (fun part => (part.item tableAlias).tokens) d tableAlias (p.toSql d tableAlias params).2 c :=
    fun c hc n h => Clause.spans_text (Sql.isWord_qualify halias (hcolumns c hc)) (hnames c hc) d h
  have hbound : p.bound <+: (p.toSql d tableAlias params).2.drop params.length := by
    simp [toSql]
  have hspans := composes_scans.readsPredicate hclauses false params.length hbound
  have hscan := hspans [] [] (Text.stops_nil _) Sql.scans_nil
  rw [List.append_nil, List.append_nil] at hscan
  rw [← map_item_parts, List.flatMap_map]
  exact hscan

/-- The grammar gives the text its tree of clauses. -/
theorem reads_toSql :
    let sql := p.toSql d tableAlias params
    Sql.Reads sql.2 params.length sql.1 (p.expr tableAlias) := by
  have hreadable := readable_item tableAlias false p
  rw [map_item_parts] at hreadable
  exact ⟨_, scan_toSql d params halias hcolumns hnames, hreadable,
    (Sql.Expr.derives_written (branching_expr tableAlias p)).1⟩

/-- With its parameters the text of a predicate stands for its tree of clauses. -/
theorem readText_toSql :
    let sql := p.toSql d tableAlias params
    Sql.readText sql.2 params.length sql.1 = some (p.expr tableAlias) :=
  Sql.readText_of_reads (reads_toSql d params halias hcolumns hnames)

end Text

end Predicate

end RuleFilter
