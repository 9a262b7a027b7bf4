import RuleFilter.Limits
import RuleFilter.Token

/-!
Rules from tokens. `and` binds tighter than `or`, rules joined by one combinator form one group, and
a rule in parentheses is one member of the group it stands in. Reading stops at the first token that
cannot go on.
-/

namespace RuleFilter

namespace Reading

/-- Why reading stopped: an unexpected token, or the end of the text where none was found; or
parentheses nested too deep. -/
inductive Failure where
  | unexpected (expected : Expected) (found : Option Token)
  | tooDeep
  deriving DecidableEq

/-- Something read from the front of a list of tokens, with the tokens after it. -/
structure Read (α : Type) (ts : List Token) where
  value : α
  rest : List Token
  shorter : rest.length < ts.length

abbrev Outcome (α : Type) (ts : List Token) := Except Failure (Read α ts)

namespace Outcome

variable {α β : Type} {ts : List Token}

def map (f : α → β) : Outcome α ts → Outcome β ts
  | .ok ⟨a, rest, h⟩ => .ok ⟨f a, rest, h⟩
  | .error e => .error e

/-- Goes on reading after what was read. -/
def next (x : Outcome α ts) (f : α → (rest : List Token) → Outcome β rest) : Outcome β ts :=
  match x with
  | .error e => .error e
  | .ok ⟨a, rest, h⟩ =>
    match f a rest with
    | .error e => .error e
    | .ok ⟨b, rest', h'⟩ => .ok ⟨b, rest', Nat.lt_trans h' h⟩

def after (t : Token) : Outcome α ts → Outcome α (t :: ts)
  | .ok ⟨a, rest, h⟩ => .ok ⟨a, rest, Nat.lt_succ_of_lt h⟩
  | .error e => .error e

end Outcome

def expect (e : Expected) : (ts : List Token) → Outcome Unit ts
  | [] => .error (.unexpected e none)
  | t :: ts =>
    if e.admits t.lexeme then .ok ⟨(), ts, Nat.lt_succ_self _⟩ else .error (.unexpected e (some t))

def value : (ts : List Token) → Outcome Value ts
  | [] => .error (.unexpected .value none)
  | t :: ts =>
    match t.lexeme.value? with
    | some v => .ok ⟨v, ts, Nat.lt_succ_self _⟩
    | none => .error (.unexpected .value (some t))

/-- One or more values between commas, up to the closing bracket. -/
def items (ts : List Token) : Outcome (List Value) ts :=
  match value ts with
  | .error e => .error e
  | .ok ⟨_, [], _⟩ => .error (.unexpected .listSeparator none)
  | .ok ⟨v, t :: rest, h⟩ =>
    have h' : rest.length < ts.length := Nat.lt_of_succ_lt h
    match t.lexeme with
    | .closeBracket => .ok ⟨[v], rest, h'⟩
    | .comma =>
      match items rest with
      | .error e => .error e
      | .ok ⟨vs, rest', h''⟩ => .ok ⟨v :: vs, rest', Nat.lt_trans h'' h'⟩
    | _ => .error (.unexpected .listSeparator (some t))
termination_by ts.length

def list (ts : List Token) : Outcome (List Value) ts :=
  (expect (.mark .openBracket) ts).next fun _ rest =>
    match rest with
    | [] => items []
    | t :: rest =>
      if t.lexeme = .closeBracket then .ok ⟨[], rest, Nat.lt_succ_self _⟩ else items (t :: rest)

def single (op : Operator) (ts : List Token) : Outcome (Operator × Operand) ts :=
  (value ts).map fun v => (op, .single v)

def listed (op : Operator) (ts : List Token) : Outcome (Operator × Operand) ts :=
  (list ts).map fun vs => (op, .list vs)

def range (ts : List Token) : Outcome (Operator × Operand) ts :=
  (value ts).next fun low ts =>
    (expect (.keyword .and) ts).next fun _ ts =>
      (value ts).map fun high => (.between, .range low high)

def nullTest : (ts : List Token) → Outcome (Operator × Operand) ts
  | [] => (expect (.keyword .null) []).map fun _ => (.isNull, .none)
  | t :: ts =>
    if t.lexeme.isKeyword .not then
      ((expect (.keyword .null) ts).map fun _ => (.isNotNull, .none)).after t
    else (expect (.keyword .null) (t :: ts)).map fun _ => (.isNull, .none)

/-- What follows a word that stands for an operator or begins one. -/
def afterWord : Keyword → Option ((ts : List Token) → Outcome (Operator × Operand) ts)
  | .among => some (listed .oneOf)
  | .not => some fun ts => (expect (.keyword .among) ts).next fun _ ts => listed .noneOf ts
  | .contains => some (single .contains)
  | .startsWith => some (single .startsWith)
  | .endsWith => some (single .endsWith)
  | .starts => some fun ts => (expect (.keyword .with) ts).next fun _ ts => single .startsWith ts
  | .ends => some fun ts => (expect (.keyword .with) ts).next fun _ ts => single .endsWith ts
  | .between => some range
  | .is => some nullTest
  | .and | .or | .null | .true | .false | .with => none

def test (field : String) : (ts : List Token) → Outcome (Operator × Operand) ts
  | [] => .error (.unexpected (.operator field) none)
  | t :: ts =>
    match t.lexeme with
    | .compare op => (single op ts).after t
    | .word s =>
      match (Keyword.ofWord? s).bind afterWord with
      | some read => (read ts).after t
      | none => .error (.unexpected (.operator field) (some t))
    | _ => .error (.unexpected (.operator field) (some t))

def comparison : (ts : List Token) → Outcome Comparison ts
  | [] => .error (.unexpected .fieldName none)
  | t :: ts =>
    match t.lexeme with
    | .word s =>
      if (Keyword.ofWord? s).isSome then .error (.unexpected .fieldName (some t))
      else ((test s ts).map fun (op, operand) => ⟨s, op, operand⟩).after t
    | _ => .error (.unexpected .fieldName (some t))

/-- A comparison, or a rule in parentheses, which `inner` reads; none means that parentheses may not
nest any deeper. -/
def member (inner : Option ((ts : List Token) → Outcome Rule ts)) :
    (ts : List Token) → Outcome Rule ts
  | [] => (comparison []).map .leaf
  | t :: ts =>
    if t.lexeme = .openParen then
      match inner with
      | none => .error .tooDeep
      | some read =>
        ((read ts).next fun r ts => (expect (.mark .closeParen) ts).map fun _ => r).after t
    else (comparison (t :: ts)).map .leaf

/-- One or more rules with a keyword between them, as many as there are. -/
def chain (k : Keyword) (read : (ts : List Token) → Outcome Rule ts) (ts : List Token) :
    Outcome (List Rule) ts :=
  match read ts with
  | .error e => .error e
  | .ok ⟨r, [], h⟩ => .ok ⟨[r], [], h⟩
  | .ok ⟨r, t :: rest, h⟩ =>
    if t.lexeme.isKeyword k then
      have h' : rest.length < ts.length := Nat.lt_of_succ_lt h
      match chain k read rest with
      | .error e => .error e
      | .ok ⟨rs, rest', h''⟩ => .ok ⟨r :: rs, rest', Nat.lt_trans h'' h'⟩
    else .ok ⟨[r], t :: rest, h⟩
termination_by ts.length

/-- The group of a chain; a chain of one is its rule. -/
def join (combinator : Combinator) : List Rule → Rule
  | [r] => r
  | rs => .group combinator rs

def conjunction (inner : Option ((ts : List Token) → Outcome Rule ts)) (ts : List Token) :
    Outcome Rule ts :=
  (chain .and (member inner) ts).map (join .and)

def disjunction (inner : Option ((ts : List Token) → Outcome Rule ts)) (ts : List Token) :
    Outcome Rule ts :=
  (chain .or (conjunction inner) ts).map (join .or)

/-- A rule in which parentheses nest no deeper than the first argument says. -/
def rule : Nat → (ts : List Token) → Outcome Rule ts
  | 0, ts => disjunction none ts
  | depth + 1, ts => disjunction (some fun ts => rule depth ts) ts

/-- A rule and nothing after it. -/
def wholeRule (depth : Nat) (ts : List Token) : Except Failure Rule :=
  match rule depth ts with
  | .error e => .error e
  | .ok ⟨r, [], _⟩ => .ok r
  | .ok ⟨_, t :: _, _⟩ => .error (.unexpected .continuation (some t))

def Failure.toError (text : List Char) (limits : Limits) : Failure → FilterError
  | .unexpected e (some t) => .malformed (t.position text) (.unexpected e (some t.lexeme))
  | .unexpected e none => .malformed (Text.byteLength text) (.unexpected e none)
  | .tooDeep => .tooLarge .depth limits.depth

end Reading

namespace Rule

/-- Reads filter text: its size is checked first, the nesting of parentheses while reading, and the
number of comparisons last. -/
def parse (limits : Limits) (text : String) : Except FilterError Rule := do
  let cs := text.toList
  limits.check .size text.utf8ByteSize
  let ts ← (Token.scan cs).mapError (Token.Failure.toError cs)
  let r ← (Reading.wholeRule limits.depth ts).mapError (Reading.Failure.toError cs limits)
  limits.check .conditions r.leafCount
  return r

end Rule

end RuleFilter
