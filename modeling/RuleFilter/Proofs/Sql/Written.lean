import RuleFilter.Proofs.Sql.Items

/-!
Trees as fragments. A group that stands inside another one is written in one pair of parentheses and
nothing else is, and what is written is read as the tree and as no other.
-/

namespace RuleFilter.Sql

namespace Expr

variable {α : Type}

def atoms : Expr α → List α
  | .atom a => [a]
  | .group _ es => es.flatMap fun e => atoms e

/-- The items of a tree, which may stand inside a group. -/
def written (nested : Bool) : Expr α → List (Item α)
  | .atom a => [.atom a]
  | .group k es =>
    let joined := [Item.join k].intercalate (es.map fun e => written true e)
    if nested then .openParen :: (joined ++ [.closeParen]) else joined

/-- Every group has two members or more. -/
inductive Branching : Expr α → Prop
  | atom (a : α) : Branching (.atom a)
  | group {k : Combinator} {es : List (Expr α)} : 2 ≤ es.length → (∀ e ∈ es, Branching e) →
      Branching (.group k es)

theorem join_of_two_le {k : Combinator} {es : List (Expr α)} (h : 2 ≤ es.length) :
    join k es = .group k es := by
  match es, h with
  | e :: f :: es, _ => rfl

/-- What is written of a tree derives it, and inside a group as one member of that. -/
theorem derives_written {e : Expr α} (h : e.Branching) :
    Derives .disjunction (e.written false) e ∧ Derives .factor (e.written true) e := by
  induction h with
  | atom a =>
    rw [written, written]
    exact ⟨.disjunction_of_factor (.atom a), .atom a⟩
  | @group k es hlen _ ih =>
    have hmembers : ∀ x ∈ es.map fun e => (e.written true, e), Derives .factor x.1 x.2 :=
      List.forall_mem_map.2 fun e he => (ih e he).2
    have hne : es ≠ [] := List.length_pos_iff.1 (by omega)
    have hgroup := Derives.group k (List.map_eq_nil_iff.not.2 hne) hmembers
    rw [List.map_map, List.map_map, Function.comp_def, Function.comp_def, List.map_id',
      join_of_two_le hlen] at hgroup
    rw [written, written]
    exact ⟨hgroup, .paren hgroup⟩

end Expr

/-- Whether the grammar gives a tree to a text with its parameters, of which the first `n` belong to
places before the text: the tokens of the text are those of items that derive the tree. -/
def Reads (params : List Value) (n : Nat) (text : String) (e : Expr Atom) : Prop :=
  ∃ is : List (Item Atom), scan params n text.toList = some (is.flatMap Item.tokens) ∧
    (∀ a, .atom a ∈ is → a.IsReadable) ∧ Derives .disjunction is e

variable {params : List Value} {n : Nat} {text : String} {e e' : Expr Atom}

theorem readText_of_reads (h : Reads params n text e) : readText params n text = some e := by
  rcases h with ⟨is, hscan, hreadable, hderives⟩
  exact readText_eq_some hscan (items_tokens hreadable) (read_of_derives hderives)

/-- No text has two trees: each would be what the text is read as. -/
theorem Reads.unique (h : Reads params n text e) (h' : Reads params n text e') : e = e' :=
  Option.some.inj ((readText_of_reads h).symm.trans (readText_of_reads h'))

end RuleFilter.Sql
