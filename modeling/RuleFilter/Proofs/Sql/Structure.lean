import RuleFilter.Rule.Operator

/-!
The structure of fragments: tests joined by `AND` and `OR`, of which `AND` binds tighter, and
parentheses. The grammar says which tree a fragment stands for, and reading finds it, so there is
never more than one.
-/

namespace RuleFilter.Sql

/-- What a fragment is made of between its parentheses and joining words. -/
inductive Item (α : Type) where
  | atom (a : α)
  | join (k : Combinator)
  | openParen | closeParen

inductive Expr (α : Type) where
  | atom (a : α)
  | group (k : Combinator) (es : List (Expr α))

variable {α : Type}

/-- The group of a chain; a chain of one is its member. -/
def Expr.join (k : Combinator) : List (Expr α) → Expr α
  | [e] => e
  | es => .group k es

/-- How much a phrase may hold: one test or parentheses, a chain under `AND`, a chain under `OR`. -/
inductive Level where
  | factor | conjunction | disjunction

namespace Level

def chain : Combinator → Level
  | .and => .conjunction
  | .or => .disjunction

def members : Combinator → Level
  | .and => .factor
  | .or => .conjunction

end Level

/-- The grammar of fragments. A chain has one member or more. -/
inductive Derives : Level → List (Item α) → Expr α → Prop
  | atom (a : α) : Derives .factor [.atom a] (.atom a)
  | paren {is : List (Item α)} {e : Expr α} : Derives .disjunction is e →
      Derives .factor (.openParen :: (is ++ [.closeParen])) e
  | chain (k : Combinator) {phrases : List (List (Item α) × Expr α)} : phrases ≠ [] →
      (∀ x ∈ phrases, Derives (Level.members k) x.1 x.2) →
      Derives (Level.chain k) ([Item.join k].intercalate (phrases.map (·.1)))
        (Expr.join k (phrases.map (·.2)))

theorem Derives.chain_singleton (k : Combinator) {is : List (Item α)} {e : Expr α}
    (h : Derives (Level.members k) is e) : Derives (Level.chain k) is e := by
  have hphrases : ∀ x ∈ [(is, e)], Derives (Level.members k) x.1 x.2 := by simpa using h
  simpa [Expr.join] using Derives.chain k (by simp) hphrases

theorem Derives.disjunction_of_factor {is : List (Item α)} {e : Expr α}
    (h : Derives .factor is e) : Derives .disjunction is e :=
  .chain_singleton .or (.chain_singleton .and h)

/-- A chain under either word is a whole fragment. -/
theorem Derives.group (k : Combinator) {phrases : List (List (Item α) × Expr α)}
    (hne : phrases ≠ []) (h : ∀ x ∈ phrases, Derives .factor x.1 x.2) :
    Derives .disjunction ([Item.join k].intercalate (phrases.map (·.1)))
      (Expr.join k (phrases.map (·.2))) := by
  cases k with
  | and => exact .chain_singleton .or (.chain .and hne h)
  | or => exact .chain .or hne fun x hx => .chain_singleton .and (h x hx)

/-- What has been read inside one pair of parentheses: the chains under `AND` that are complete, and
the members of the one that is not. -/
structure Frame (α : Type) where
  disjuncts : List (Expr α)
  conjuncts : List (Expr α)

namespace Frame

def empty : Frame α := ⟨[], []⟩

def push (f : Frame α) (e : Expr α) : Frame α := { f with conjuncts := f.conjuncts ++ [e] }

def next (f : Frame α) : Frame α := ⟨f.disjuncts ++ [Expr.join .and f.conjuncts], []⟩

def close (f : Frame α) : Expr α := Expr.join .or f.next.disjuncts

end Frame

mutual

/-- Reads on where a test or parentheses must follow, inside frames that are still open. -/
def readOperand : List (Item α) → Frame α → List (Frame α) → Option (Expr α)
  | .atom a :: is, f, fs => readOperator is (f.push (.atom a)) fs
  | .openParen :: is, f, fs => readOperand is .empty (f :: fs)
  | _, _, _ => none

/-- Reads on where a test or parentheses have just ended. -/
def readOperator : List (Item α) → Frame α → List (Frame α) → Option (Expr α)
  | [], f, [] => some f.close
  | .join .and :: is, f, fs => readOperand is f fs
  | .join .or :: is, f, fs => readOperand is f.next fs
  | .closeParen :: is, f, g :: fs => readOperator is (g.push f.close) fs
  | _, _, _ => none

end

def read (is : List (Item α)) : Option (Expr α) := readOperand is .empty []

/-- What reading does with the items of a phrase, whatever stands after them. -/
def Simulates : Level → List (Item α) → Expr α → Prop
  | .factor, is, e => ∀ rest f fs, readOperand (is ++ rest) f fs = readOperator rest (f.push e) fs
  | .conjunction, is, e => ∃ es, Expr.join .and es = e ∧ ∀ rest ds fs,
      readOperand (is ++ rest) ⟨ds, []⟩ fs = readOperator rest ⟨ds, es⟩ fs
  | .disjunction, is, e => ∃ f : Frame α, f.close = e ∧ ∀ rest fs,
      readOperand (is ++ rest) .empty fs = readOperator rest f fs

section Chains

variable {phrases : List (List (Item α) × Expr α)}

theorem simulates_conjunction (hne : phrases ≠ []) (h : ∀ x ∈ phrases, Simulates .factor x.1 x.2)
    (rest : List (Item α)) (ds es : List (Expr α)) (fs : List (Frame α)) :
    readOperand ([Item.join .and].intercalate (phrases.map (·.1)) ++ rest) ⟨ds, es⟩ fs =
      readOperator rest ⟨ds, es ++ phrases.map (·.2)⟩ fs := by
  induction phrases generalizing es with
  | nil => exact absurd rfl hne
  | cons x xs ih =>
    have hx := h x (by simp)
    cases xs with
    | nil => simpa [Frame.push] using hx rest ⟨ds, es⟩ fs
    | cons y ys =>
      have hys := ih (by simp) (fun z hz => h z (by simp [hz])) (es ++ [x.2])
      rw [List.map_cons, List.map_cons, List.intercalate_cons_cons, List.append_assoc,
        List.append_assoc, hx, List.singleton_append, readOperator]
      rw [List.map_cons] at hys
      simpa [Frame.push] using hys

theorem simulates_disjunction (hne : phrases ≠ [])
    (h : ∀ x ∈ phrases, Simulates .conjunction x.1 x.2) (ds : List (Expr α)) :
    ∃ f : Frame α, f.next.disjuncts = ds ++ phrases.map (·.2) ∧ ∀ rest fs,
      readOperand ([Item.join .or].intercalate (phrases.map (·.1)) ++ rest) ⟨ds, []⟩ fs =
        readOperator rest f fs := by
  induction phrases generalizing ds with
  | nil => exact absurd rfl hne
  | cons x xs ih =>
    obtain ⟨es, hes, hx⟩ := h x (by simp)
    cases xs with
    | nil =>
      exact ⟨⟨ds, es⟩, by simp [Frame.next, hes], by simpa using fun rest fs => hx rest ds fs⟩
    | cons y ys =>
      obtain ⟨f, hf, hys⟩ := ih (by simp) (fun z hz => h z (by simp [hz])) (ds ++ [x.2])
      refine ⟨f, by simpa using hf, fun rest fs => ?_⟩
      rw [List.map_cons, List.map_cons, List.intercalate_cons_cons, List.append_assoc,
        List.append_assoc, hx, List.singleton_append, readOperator, ← hys]
      simp [Frame.next, hes]

end Chains

theorem simulates_of_derives {level : Level} {is : List (Item α)} {e : Expr α}
    (h : Derives level is e) : Simulates level is e := by
  induction h with
  | atom a => exact fun rest f fs => by rw [List.singleton_append, readOperand]
  | paren _ ih =>
    obtain ⟨f, rfl, hread⟩ := ih
    intro rest g fs
    rw [List.cons_append, readOperand, List.append_assoc, hread, List.singleton_append,
      readOperator]
  | chain k hne _ ih =>
    cases k with
    | and =>
      refine ⟨_, rfl, fun rest ds fs => ?_⟩
      simpa using simulates_conjunction hne ih rest ds [] fs
    | or =>
      obtain ⟨f, hf, hread⟩ := simulates_disjunction hne ih []
      exact ⟨f, by rw [Frame.close, hf, List.nil_append], hread⟩

/-- Reading finds the tree that the grammar gives to a fragment. -/
theorem read_of_derives {is : List (Item α)} {e : Expr α} (h : Derives .disjunction is e) :
    read is = some e := by
  obtain ⟨f, rfl, hread⟩ := simulates_of_derives h
  have := hread [] []
  rwa [List.append_nil, readOperator] at this

end RuleFilter.Sql
