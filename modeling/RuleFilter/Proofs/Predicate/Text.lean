import Mathlib.Data.List.Basic
import Mathlib.Data.List.Forall2
import RuleFilter.Predicate.Sql
import RuleFilter.Proofs.Text.Reader

/-!
The make-up of predicate texts. A text is read from the left, so what is known about the texts of
its conditions, about the words between them and about parentheses gives the same for the whole.
-/

namespace RuleFilter

namespace Predicate

variable {d : Dialect} {tableAlias : String} {nested : Bool} {n : Nat}
  {k : Combinator} {p : Predicate} {ps : List Predicate}

section Bound

@[simp] theorem bound_condition (c : Condition) : (condition c).bound = c.clause.bound := by
  simp [bound]

theorem bound_ofGroup (k : Combinator) (ps : List Predicate) :
    (ofGroup k ps).bound = ps.flatMap bound := by
  simp only [bound, conditions_ofGroup, List.flatMap_assoc]
  rfl

end Bound

section Texts

theorem text_condition (c : Condition) : text d tableAlias nested n (condition c) =
    c.clause.text d (Sql.qualify tableAlias c.column) n := by rw [text]

theorem text_empty (k : Combinator) : text d tableAlias nested n (ofGroup k []) = "1=1" := by
  cases k <;> rw [ofGroup, text]

theorem text_singleton (k : Combinator) (p : Predicate) :
    text d tableAlias nested n (ofGroup k [p]) = text d tableAlias nested n p := by
  cases k <;> rw [ofGroup, text]

theorem text_ofGroup (k : Combinator) (h : 2 ≤ ps.length) :
    text d tableAlias nested n (ofGroup k ps) =
      joinParts nested (" " ++ k.keyword ++ " ") (texts d tableAlias n ps) := by
  match ps, h with
  | p :: q :: ps, _ => cases k <;> rw [ofGroup, text] <;> first | rfl | simp

variable {a b : String} {qs : List Predicate}

/-- The texts of members are told by one member after the other, since the places in one are counted
from what those before it bind. -/
theorem texts_congr (h : List.Forall₂ (fun p q => p.bound.length = q.bound.length ∧
    ∀ nested n, text d a nested n p = text d b nested n q) ps qs) (n : Nat) :
    texts d a n ps = texts d b n qs := by
  induction h generalizing n with
  | nil => rfl
  | cons hp _ ih => rw [texts, texts, hp.1, hp.2, ih]

/-- So is the text of a group. -/
theorem text_ofGroup_congr (h : List.Forall₂ (fun p q => p.bound.length = q.bound.length ∧
    ∀ nested n, text d a nested n p = text d b nested n q) ps qs) (k : Combinator) (nested : Bool)
    (n : Nat) : text d a nested n (ofGroup k ps) = text d b nested n (ofGroup k qs) := by
  have htexts := texts_congr h n
  cases h with
  | nil => rw [text_empty, text_empty]
  | cons hp hps =>
    cases hps with
    | nil => rw [text_singleton, text_singleton, hp.2]
    | cons _ _ => rw [text_ofGroup k (by simp), text_ofGroup k (by simp), htexts]

end Texts

/-- What predicate texts are made of. -/
inductive Part where
  | condition (c : Condition)
  /-- The test that stands for a group without members. -/
  | always
  | join (k : Combinator)
  | openParen | closeParen

/-- The parts of a group from the parts of its members. -/
def joinLists (nested : Bool) (k : Combinator) (parts : List (List Part)) : List Part :=
  let joined := [Part.join k].intercalate parts
  if nested then .openParen :: (joined ++ [.closeParen]) else joined

/-- The parts of a text in order. -/
def parts (nested : Bool) : Predicate → List Part
  | .condition c => [.condition c]
  | .all [] | .any [] => [.always]
  | .all [p] | .any [p] => parts nested p
  | .all ps => joinLists nested .and (ps.map fun p => parts true p)
  | .any ps => joinLists nested .or (ps.map fun p => parts true p)

section Parts

theorem parts_condition (c : Condition) : parts nested (condition c) = [.condition c] := by
  rw [parts]

theorem parts_empty (k : Combinator) : parts nested (ofGroup k []) = [.always] := by
  cases k <;> rw [ofGroup, parts]

theorem parts_singleton (k : Combinator) (p : Predicate) :
    parts nested (ofGroup k [p]) = parts nested p := by
  cases k <;> rw [ofGroup, parts]

theorem parts_ofGroup (k : Combinator) (h : 2 ≤ ps.length) :
    parts nested (ofGroup k ps) = joinLists nested k (ps.map (parts true)) := by
  match ps, h with
  | p :: q :: ps, _ => cases k <;> rw [ofGroup, parts] <;> simp

def Part.conditions : Part → List Condition
  | .condition c => [c]
  | .always | .join _ | .openParen | .closeParen => []

theorem flatMap_conditions_joinLists (nested : Bool) (k : Combinator) (ls : List (List Part)) :
    (joinLists nested k ls).flatMap Part.conditions =
      ls.flatMap fun l => l.flatMap Part.conditions := by
  have hjoin : ([Part.join k].intercalate ls).flatMap Part.conditions =
      ls.flatMap fun l => l.flatMap Part.conditions := by
    induction ls with
    | nil => rfl
    | cons l ls ih =>
      cases ls with
      | nil => simp
      | cons l' ls => simpa [List.intercalate_cons_cons, Part.conditions] using ih
  cases nested with
  | false => exact hjoin
  | true => simp [joinLists, hjoin, Part.conditions]

theorem flatMap_conditions_parts (nested : Bool) (p : Predicate) :
    (p.parts nested).flatMap Part.conditions = p.conditions := by
  induction p using induct_ofGroup generalizing nested with
  | condition c => simp [parts_condition, Part.conditions]
  | group k ps ih =>
    rw [conditions_ofGroup]
    match ps with
    | [] => simp [parts_empty, Part.conditions]
    | [p] => simpa [parts_singleton] using ih p (by simp) nested
    | p :: q :: qs =>
      rw [parts_ofGroup k (by simp), flatMap_conditions_joinLists, List.flatMap_map]
      exact List.flatMap_congr fun r hr => ih r hr true

end Parts

end Predicate

namespace TextReader

variable {α : Type} {reads : TextReader α} {n : Nat}

/-- The parts of predicate texts other than conditions are read as `f` says. -/
structure Composes (reads : TextReader α) (f : Predicate.Part → List α) : Prop where
  always : ∀ n, Spans reads n n ['1', '=', '1'] (f .always)
  join : ∀ k n rest outs, reads n rest outs →
    reads n (' ' :: (k.keyword.toList ++ ' ' :: rest)) (f (.join k) ++ outs)
  openParen : ∀ n rest outs, reads n rest outs → reads n ('(' :: rest) (f .openParen ++ outs)
  closeParen : ∀ n rest outs, reads n rest outs → reads n (')' :: rest) (f .closeParen ++ outs)

variable {d : Dialect} {tableAlias : String} {params : List Value} {k : Combinator}

/-- The text of a condition is read as `f` says where its values are the next parameters. -/
def ReadsCondition (reads : TextReader α) (f : Predicate.Part → List α) (d : Dialect)
    (tableAlias : String) (params : List Value) (c : Condition) : Prop :=
  ∀ n, c.clause.bound <+: params.drop n → Spans reads n (n + c.clause.bound.length)
    (c.clause.text d (Sql.qualify tableAlias c.column) n).toList (f (.condition c))

/-- The same for the text of a predicate. -/
def ReadsPredicate (reads : TextReader α) (f : Predicate.Part → List α) (d : Dialect)
    (tableAlias : String) (params : List Value) (nested : Bool) (p : Predicate) : Prop :=
  ∀ n, p.bound <+: params.drop n → Spans reads n (n + p.bound.length)
    (p.text d tableAlias nested n).toList ((p.parts nested).flatMap f)

namespace Composes

variable {f : Predicate.Part → List α}

theorem texts (hreads : Composes reads f) {ps : List Predicate} (hne : ps ≠ [])
    (ih : ∀ p ∈ ps, ReadsPredicate reads f d tableAlias params true p)
    (hbound : ps.flatMap Predicate.bound <+: params.drop n) :
    Spans reads n (n + (ps.flatMap Predicate.bound).length)
      ((" " ++ k.keyword ++ " ").intercalate (Predicate.texts d tableAlias n ps)).toList
      (([Predicate.Part.join k].intercalate (ps.map (Predicate.parts true))).flatMap f) := by
  induction ps generalizing n with
  | nil => exact absurd rfl hne
  | cons p ps ih' =>
    rw [List.flatMap_cons] at hbound ⊢
    have hp := ih p (by simp) n ((List.prefix_append _ _).trans hbound)
    cases ps with
    | nil => simpa [Predicate.texts] using hp
    | cons q qs =>
      have hrest := prefix_drop_of_append hbound
      have hqs := ih' (by simp) (fun r hr => ih r (by simp [hr])) hrest
      have hjoin : Spans reads (n + p.bound.length)
          (n + (p.bound ++ (q :: qs).flatMap Predicate.bound).length)
          (' ' :: (k.keyword.toList ++ ' ' :: ((" " ++ k.keyword ++ " ").intercalate
            (Predicate.texts d tableAlias (n + p.bound.length) (q :: qs))).toList))
          (f (.join k) ++ ([Predicate.Part.join k].intercalate
            ((q :: qs).map (Predicate.parts true))).flatMap f) := by
        intro rest outs hstop hout
        rw [List.length_append, ← Nat.add_assoc] at hout
        have := hreads.join k _ _ _ (hqs rest outs hstop hout)
        simpa using this
      have := hp.append hjoin ((Text.stops_cons ..).2 rfl)
      simpa [Predicate.texts, String.toList_intercalate, List.intercalate_cons_cons] using this

/-- What holds of the conditions of a predicate holds of the predicate. -/
theorem readsPredicate (hreads : Composes reads f) {p : Predicate}
    (h : ∀ c ∈ p.conditions, ReadsCondition reads f d tableAlias params c) (nested : Bool) :
    ReadsPredicate reads f d tableAlias params nested p := by
  induction p using Predicate.induct_ofGroup generalizing nested with
  | condition c =>
    intro n hbound
    rw [Predicate.bound_condition] at hbound ⊢
    rw [Predicate.text_condition, Predicate.parts_condition, List.flatMap_singleton]
    exact h c (by simp) n hbound
  | group k ps ih =>
    rw [Predicate.conditions_ofGroup] at h
    have hps : ∀ p ∈ ps, ∀ nested, ReadsPredicate reads f d tableAlias params nested p :=
      fun p hp nested => ih p hp (fun c hc => h c (List.mem_flatMap.2 ⟨p, hp, hc⟩)) nested
    intro n hbound
    rw [Predicate.bound_ofGroup] at hbound ⊢
    match ps with
    | [] =>
      rw [Predicate.text_empty, Predicate.parts_empty]
      simpa using hreads.always n
    | [p] =>
      rw [Predicate.text_singleton, Predicate.parts_singleton]
      simpa using hps p (by simp) nested n (by simpa using hbound)
    | p :: q :: qs =>
      have htexts := hreads.texts (k := k) (by simp) (fun r hr => hps r hr true) hbound
      rw [Predicate.text_ofGroup k (by simp), Predicate.parts_ofGroup k (by simp)]
      cases nested with
      | false => simpa [Predicate.joinParts, Predicate.joinLists] using htexts
      | true =>
        intro rest outs hrest hout
        have hclose := hreads.closeParen _ _ _ hout
        have := hreads.openParen _ _ _ (htexts _ _ ((Text.stops_cons ..).2 rfl) hclose)
        simpa [Predicate.joinParts, Predicate.joinLists] using this

end Composes

end TextReader

end RuleFilter
