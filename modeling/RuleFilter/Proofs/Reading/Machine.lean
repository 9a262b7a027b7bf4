import RuleFilter.Proofs.Reading.Derived

/-!
The readers as a machine. A cursor moves over the tokens, and the calls that wait for another one
stand on a stack, so that a configuration shows what reading has cost so far: how many calls were
made, how many of them are open and how far the cursor has come.
-/

namespace RuleFilter.Reading.Machine

open Grammar

/-- Tokens, none for an end of the text. The last one is such an end, and there may be others. -/
structure Stream where
  tokens : List (Option Token)
  ends : tokens.getLast? = some none

namespace Stream

def length (s : Stream) : Nat := s.tokens.length

def peek (s : Stream) (i : Nat) : Option Token := (s.tokens[min i (s.length - 1)]?).join

/-- The cursor after the token at it. It stays at the last one. -/
def advance (s : Stream) (i : Nat) : Nat := if i < s.length - 1 then i + 1 else i

/-- The tokens up to the first end of the text. -/
def front : List (Option Token) → List Token
  | some t :: ts => t :: front ts
  | _ => []

def left (s : Stream) (i : Nat) : List Token := front (s.tokens.drop i)

end Stream

section Calls

inductive Call where
  | value
  | list
  | comparison
  | phrase (ph : Phrase) (depth : Nat)

inductive Result where
  | value (v : Value)
  | values (vs : List Value)
  | comparison (c : Comparison)
  | rule (r : Rule)

/-- What a call keeps while it waits for another one. -/
inductive Wait where
  | item (before : List Value)
  | operand (field : String) (op : Operator)
  | values (field : String) (op : Operator)
  | low (field : String)
  | high (field : String) (low : Value)
  | leaf (depth : Nat)
  | inside (depth : Nat)
  | member (k : Combinator) (depth : Nat) (before : List Rule)

/-- What a call does next: it waits for another one, or ends. -/
inductive Move where
  | wait (w : Wait)
  | done (r : Result)
  | fail (e : Failure)

def Wait.call : Wait → Call
  | .item _ => .list
  | .operand _ _ | .values _ _ | .low _ | .high _ _ => .comparison
  | .leaf depth | .inside depth => .phrase .term depth
  | .member k depth _ => .phrase (.chain k) depth

def Wait.awaits : Wait → Call
  | .item _ | .operand _ _ | .low _ | .high _ _ => .value
  | .values _ _ => .list
  | .leaf _ => .comparison
  | .inside depth => .phrase (.chain .or) (depth + 1)
  | .member k depth _ => .phrase (members k) depth

def Wait.rounds : Wait → Nat
  | .item before => before.length
  | .member _ _ before => before.length
  | _ => 0

def Call.isDisjunction : Call → Bool
  | .phrase (.chain .or) _ => true
  | _ => false

end Calls

section Moves

variable (s : Stream)

/-- Goes on after the token that is expected, and fails in front of any other. -/
def expectThen (e : Expected) (i : Nat) (go : Nat → Move × Nat) : Move × Nat :=
  if (s.peek i).any fun t => e.admits t.lexeme then go (s.advance i)
  else (.fail (.unexpected e (s.peek i)), i)

def nullWord (field : String) (op : Operator) (i : Nat) : Move × Nat :=
  expectThen s (.keyword .null) i fun i => (.done (.comparison ⟨field, op, .none⟩), i)

def nullTest (field : String) (i : Nat) : Move × Nat :=
  if (s.peek i).any fun t => t.lexeme.isKeyword .not then
    nullWord s field .isNotNull (s.advance i)
  else nullWord s field .isNull i

def afterWord (field : String) : Keyword → Option (Nat → Move × Nat)
  | .among => some fun i => (.wait (.values field .oneOf), i)
  | .not => some fun i =>
    expectThen s (.keyword .among) i fun i => (.wait (.values field .noneOf), i)
  | .contains => some fun i => (.wait (.operand field .contains), i)
  | .startsWith => some fun i => (.wait (.operand field .startsWith), i)
  | .endsWith => some fun i => (.wait (.operand field .endsWith), i)
  | .starts => some fun i =>
    expectThen s (.keyword .with) i fun i => (.wait (.operand field .startsWith), i)
  | .ends => some fun i =>
    expectThen s (.keyword .with) i fun i => (.wait (.operand field .endsWith), i)
  | .between => some fun i => (.wait (.low field), i)
  | .is => some (nullTest s field)
  | .and | .or | .null | .true | .false | .with => none

/-- A word is taken before it is found to be no operator, other tokens are not. -/
def test (field : String) (i : Nat) : Move × Nat :=
  match (s.peek i).map Token.lexeme with
  | some (.compare op) => (.wait (.operand field op), s.advance i)
  | some (.word w) =>
    match (Keyword.ofWord? w).bind (afterWord s field) with
    | some go => go (s.advance i)
    | none => (.fail (.unexpected (.operator field) (s.peek i)), s.advance i)
  | _ => (.fail (.unexpected (.operator field) (s.peek i)), i)

def field? : Lexeme → Option String
  | .word w => if (Keyword.ofWord? w).isSome then none else some w
  | _ => none

/-- The first move of a call, with the cursor after it. Parentheses may nest up to `most`. -/
def opening (most : Nat) : Call → Nat → Move × Nat
  | .value, i =>
    match (s.peek i).bind fun t => t.lexeme.value? with
    | some v => (.done (.value v), s.advance i)
    | none => (.fail (.unexpected .value (s.peek i)), s.advance i)
  | .list, i => expectThen s (.mark .openBracket) i fun i =>
    if (s.peek i).map Token.lexeme = some .closeBracket then (.done (.values []), s.advance i)
    else (.wait (.item []), i)
  | .comparison, i =>
    match (s.peek i).bind fun t => field? t.lexeme with
    | some field => test s field (s.advance i)
    | none => (.fail (.unexpected .fieldName (s.peek i)), s.advance i)
  | .phrase .term depth, i =>
    if (s.peek i).map Token.lexeme = some .openParen then
      (if depth < most then .wait (.inside depth) else .fail .tooDeep, s.advance i)
    else (.wait (.leaf depth), i)
  | .phrase (.chain k) depth, i => (.wait (.member k depth []), i)

/-- The move after what was waited for; none if that is not what the wait is for. -/
def resume : Wait → Result → Nat → Option (Move × Nat)
  | .item before, .value v, i => some <|
    match (s.peek i).map Token.lexeme with
    | some .comma => (.wait (.item (before ++ [v])), s.advance i)
    | some .closeBracket => (.done (.values (before ++ [v])), s.advance i)
    | _ => (.fail (.unexpected .listSeparator (s.peek i)), s.advance i)
  | .operand field op, .value v, i => some (.done (.comparison ⟨field, op, .single v⟩), i)
  | .values field op, .values vs, i => some (.done (.comparison ⟨field, op, .list vs⟩), i)
  | .low field, .value v, i => some <|
    expectThen s (.keyword .and) i fun i => (.wait (.high field v), i)
  | .high field low, .value v, i =>
    some (.done (.comparison ⟨field, .between, .range low v⟩), i)
  | .leaf _, .comparison c, i => some (.done (.rule (.leaf c)), i)
  | .inside _, .rule r, i => some <|
    expectThen s (.mark .closeParen) i fun i => (.done (.rule r), i)
  | .member k depth before, .rule r, i => some <|
    if (s.peek i).any fun t => t.lexeme.isKeyword (joining k) then
      (.wait (.member k depth (before ++ [r])), s.advance i)
    else (.done (.rule (join k (before ++ [r]))), i)
  | _, _, _ => none

end Moves

section Steps

/-- A call that waits, and where the cursor was when it began. -/
structure Frame where
  wait : Wait
  start : Nat

inductive Task where
  | enter (call : Call)
  | leave (call : Call) (start : Nat) (result : Result)
  | failed (e : Failure)

structure Config where
  cursor : Nat
  calls : Nat
  task : Task
  stack : List Frame

/-- The configuration in which a move of a call leaves the machine. -/
def settle (call : Call) (start calls : Nat) (stack : List Frame) : Move × Nat → Config
  | (.wait w, i) => ⟨i, calls, .enter w.awaits, ⟨w, start⟩ :: stack⟩
  | (.done r, i) => ⟨i, calls, .leave call start r, stack⟩
  | (.fail e, i) => ⟨i, calls, .failed e, stack⟩

def step (s : Stream) (most : Nat) : Config → Option Config
  | ⟨i, calls, .enter call, stack⟩ =>
    some (settle call i (calls + 1) stack (opening s most call i))
  | ⟨i, calls, .leave _ _ r, f :: stack⟩ =>
    (resume s f.wait r i).map (settle f.wait.call f.start calls stack)
  | ⟨_, _, .leave _ _ _, []⟩ => none
  | ⟨_, _, .failed _, _⟩ => none

def initial : Config := ⟨0, 0, .enter (.phrase (.chain .or) 0), []⟩

/-- A number of steps from one configuration to another. -/
inductive Exec (s : Stream) (most : Nat) (c : Config) : Nat → Config → Prop
  | refl : Exec s most c 0 c
  | succ {n : Nat} {d e : Config} : Exec s most c n d → step s most d = some e →
      Exec s most c (n + 1) e

theorem Exec.trans {s : Stream} {most m n : Nat} {c d e : Config} (h : Exec s most c m d)
    (h' : Exec s most d n e) : Exec s most c (m + n) e := by
  induction h' with
  | refl => exact h
  | succ _ hstep ih => exact ih.succ hstep

/-- The calls that are open: the one at work, and those that wait. -/
def Config.openCalls (c : Config) : List Call :=
  match c.task with
  | .enter call | .leave call _ _ => call :: c.stack.map fun f => f.wait.call
  | .failed _ => c.stack.map fun f => f.wait.call

end Steps

section Streams

variable {s : Stream} {i : Nat}

theorem Stream.length_pos (s : Stream) : 0 < s.length := by
  refine List.length_pos_iff.2 fun h => ?_
  have := s.ends
  simp [h] at this

theorem Stream.peek_eq (hi : i < s.length) : s.peek i = (s.left i).head? := by
  have hmin : min i (s.length - 1) = i := by omega
  rw [peek, hmin, left, List.drop_eq_getElem_cons hi, List.getElem?_eq_getElem hi]
  cases s.tokens[i] <;> rfl

/-- Only an end of the text is last, so the cursor goes on after a token. -/
theorem Stream.advance_of_left {t : Token} {rest : List Token} (h : s.left i = t :: rest) :
    s.advance i = i + 1 ∧ i + 1 < s.length ∧ s.left (i + 1) = rest := by
  have hi : i < s.length := by
    refine Nat.lt_of_not_le fun hi => ?_
    rw [left, List.drop_eq_nil_of_le hi] at h
    cases h
  rw [left, List.drop_eq_getElem_cons hi] at h
  cases ht : s.tokens[i] with
  | none =>
    rw [ht] at h
    cases h
  | some u =>
    rw [ht, front, List.cons.injEq] at h
    have hlast : i ≠ s.length - 1 := by
      intro hlast
      have := s.ends
      rw [List.getLast?_eq_getElem?, ← length, ← hlast, List.getElem?_eq_getElem hi, ht] at this
      cases this
    have hlt : i < s.length - 1 := by omega
    exact ⟨if_pos hlt, by omega, h.2⟩

theorem Stream.le_advance (s : Stream) (i : Nat) : i ≤ s.advance i := by
  rw [advance]
  split <;> omega

theorem Stream.advance_lt (hi : i < s.length) : s.advance i < s.length := by
  rw [advance]
  split <;> omega

theorem Stream.advance_of_peek (hi : i < s.length) {t : Token} (h : s.peek i = some t) :
    s.advance i = i + 1 ∧ i + 1 < s.length := by
  rw [peek_eq hi, List.head?_eq_some_iff] at h
  obtain ⟨rest, hrest⟩ := h
  obtain ⟨hadvance, hlt, -⟩ := advance_of_left hrest
  exact ⟨hadvance, hlt⟩

end Streams

end RuleFilter.Reading.Machine
