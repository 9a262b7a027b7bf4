import RuleFilter.Proofs.Reading.Grammar

/-!
How deep parentheses nest in lexemes. In what the grammar derives they are balanced, so that the
parts of a phrase can be told apart by it; and groups nest at most twice for each level of
parentheses, once under each combinator.
-/

namespace RuleFilter.Grammar

/-- The most parentheses that are open at one place, where `outer` are open before the lexemes. -/
def nesting (outer : Nat) : List Lexeme → Nat
  | [] => outer
  | .openParen :: ls => nesting (outer + 1) ls
  | .closeParen :: ls => max outer (nesting (outer - 1) ls)
  | _ :: ls => nesting outer ls

def isParen (l : Lexeme) : Bool := l == .openParen || l == .closeParen

section Nesting

variable {outer : Nat} {l : Lexeme} {ls ms : List Lexeme}

theorem nesting_cons (h : isParen l = false) : nesting outer (l :: ls) = nesting outer ls := by
  cases l with
  | openParen | closeParen => cases h
  | _ => rfl

theorem le_nesting (outer : Nat) (ls : List Lexeme) : outer ≤ nesting outer ls := by
  fun_induction nesting outer ls with
  | case1 => exact Nat.le_refl _
  | case2 => omega
  | case3 => omega
  | case4 _ _ _ _ _ ih => exact ih

theorem nesting_le_length (outer : Nat) (ls : List Lexeme) :
    nesting outer ls ≤ outer + ls.length := by
  fun_induction nesting outer ls with
  | case1 => simp
  | case2 => simp; omega
  | case3 => simp; omega
  | case4 _ _ _ _ _ ih => simp; omega

/-- Every parenthesis has its partner, so that as many are open after the lexemes as before. -/
def Balanced (ls : List Lexeme) : Prop :=
  ∀ outer ms, nesting outer (ls ++ ms) = max (outer + nesting 0 ls) (nesting outer ms)

theorem balanced_nil : Balanced [] := fun outer ms => by
  have := le_nesting outer ms
  simp [nesting, this]

theorem nesting_append (h : Balanced ls) (ms : List Lexeme) :
    nesting 0 (ls ++ ms) = max (nesting 0 ls) (nesting 0 ms) := by
  simpa using h 0 ms

theorem Balanced.append (h : Balanced ls) (h' : Balanced ms) : Balanced (ls ++ ms) :=
  fun outer ns => by
    rw [List.append_assoc, h, h', nesting_append h]
    omega

theorem Balanced.cons (hl : isParen l = false) (h : Balanced ls) : Balanced (l :: ls) :=
  fun outer ms => by rw [List.cons_append, nesting_cons hl, nesting_cons hl, h]

theorem nesting_paren (h : Balanced ls) :
    nesting 0 (.openParen :: (ls ++ [.closeParen])) = nesting 0 ls + 1 := by
  rw [nesting, h]
  simp only [nesting]
  omega

theorem Balanced.paren (h : Balanced ls) : Balanced (.openParen :: (ls ++ [.closeParen])) :=
  fun outer ms => by
    rw [nesting_paren h, List.cons_append, nesting, List.append_assoc, h, List.singleton_append,
      nesting, Nat.add_sub_cancel]
    have := le_nesting outer ms
    omega

theorem balanced_of_plain (h : ∀ l ∈ ls, isParen l = false) : Balanced ls ∧ nesting 0 ls = 0 := by
  induction ls with
  | nil => exact ⟨balanced_nil, rfl⟩
  | cons l ls ih =>
    rw [List.forall_mem_cons] at h
    obtain ⟨hls, hzero⟩ := ih h.2
    exact ⟨hls.cons h.1, by rw [nesting_cons h.1, hzero]⟩

end Nesting

section Prefixes

/-- How many parentheses are open after a lexeme where `n` are open before it. -/
def openAfter (n : Nat) : Lexeme → Nat
  | .openParen => n + 1
  | .closeParen => n - 1
  | _ => n

/-- How many of the parentheses that the lexemes open are not closed by them. -/
def unclosed (ls : List Lexeme) : Nat := ls.foldl openAfter 0

variable {outer n : Nat} {ls : List Lexeme}

theorem nesting_cons_eq_max (outer : Nat) (l : Lexeme) (ls : List Lexeme) :
    nesting outer (l :: ls) = max outer (nesting (openAfter outer l) ls) := by
  have hle := le_nesting (openAfter outer l) ls
  cases l with
  | openParen =>
    rw [openAfter] at hle ⊢
    rw [nesting]
    omega
  | closeParen => rfl
  | _ => exact (Nat.max_eq_right hle).symm

/-- Parentheses nest as deep as the most of them that are open after some of the lexemes. -/
theorem nesting_le_iff : nesting outer ls ≤ n ↔ ∀ us, us <+: ls → us.foldl openAfter outer ≤ n := by
  induction ls generalizing outer with
  | nil => simp [nesting]
  | cons l ls ih =>
    rw [nesting_cons_eq_max, Nat.max_le, ih]
    constructor
    · intro h us hus
      rcases List.prefix_cons_iff.1 hus with rfl | ⟨vs, rfl, hvs⟩
      · exact h.1
      · exact h.2 vs hvs
    · intro h
      refine ⟨h [] List.nil_prefix, fun us hus => ?_⟩
      exact h (l :: us) (List.cons_prefix_cons.2 ⟨rfl, hus⟩)

end Prefixes

section Plain

variable {k : Keyword} {l : Lexeme} {ls : List Lexeme}

theorem isParen_of_isWord (h : IsWord k l) : isParen l = false := by
  cases h with
  | word _ => rfl

theorem isParen_of_isValue {v : Value} (h : IsValue l v) : isParen l = false := by
  cases h with
  | string s => rfl
  | number x => rfl
  | true hw | false hw | null hw => exact isParen_of_isWord hw

theorem isParen_of_isValues {vs : List Value} (h : IsValues ls vs) :
    ∀ l ∈ ls, isParen l = false := by
  induction h with
  | one hv => simpa using isParen_of_isValue hv
  | more hv _ ih =>
    rw [List.forall_mem_cons, List.forall_mem_cons]
    exact ⟨isParen_of_isValue hv, rfl, ih⟩

theorem isParen_of_isList {vs : List Value} (h : IsList ls vs) : ∀ l ∈ ls, isParen l = false := by
  cases h with
  | empty => decide
  | values hvs =>
    rw [List.forall_mem_cons, List.forall_mem_append]
    exact ⟨rfl, isParen_of_isValues hvs, by decide⟩

theorem isParen_of_isTest {op : Operator} {v : Operand} (h : IsTest ls op v) :
    ∀ l ∈ ls, isParen l = false := by
  cases h with
  | compare op hv => simpa using ⟨rfl, isParen_of_isValue hv⟩
  | oneOf hw hvs => exact List.forall_mem_cons.2 ⟨isParen_of_isWord hw, isParen_of_isList hvs⟩
  | noneOf hn hw hvs =>
    rw [List.forall_mem_cons, List.forall_mem_cons]
    exact ⟨isParen_of_isWord hn, isParen_of_isWord hw, isParen_of_isList hvs⟩
  | contains hw hv | startsWith hw hv | endsWith hw hv =>
    simpa using ⟨isParen_of_isWord hw, isParen_of_isValue hv⟩
  | startsThenWith hs hw hv | endsThenWith hs hw hv =>
    simpa using ⟨isParen_of_isWord hs, isParen_of_isWord hw, isParen_of_isValue hv⟩
  | between hb hlow ha hhigh =>
    simpa using ⟨isParen_of_isWord hb, isParen_of_isValue hlow, isParen_of_isWord ha,
      isParen_of_isValue hhigh⟩
  | isNull hi hn => simpa using ⟨isParen_of_isWord hi, isParen_of_isWord hn⟩
  | isNotNull hi ht hn =>
    simpa using ⟨isParen_of_isWord hi, isParen_of_isWord ht, isParen_of_isWord hn⟩

theorem isParen_of_isComparison {c : Comparison} (h : IsComparison ls c) :
    ∀ l ∈ ls, isParen l = false := by
  cases h with
  | test hfield htest =>
    refine List.forall_mem_cons.2 ⟨?_, isParen_of_isTest htest⟩
    cases hfield with
    | word _ => rfl

end Plain

section Chains

variable {ls : List Lexeme} {links : List Link}

theorem balanced_links (hwords : ∀ x ∈ links, isParen x.word = false)
    (h : ∀ x ∈ links, Balanced x.lexemes) : Balanced (links.flatMap Link.text) := by
  induction links with
  | nil => exact balanced_nil
  | cons x links ih =>
    rw [List.forall_mem_cons] at hwords h
    exact (h.1.cons hwords.1).append (ih hwords.2 h.2)

theorem nesting_chain_le_iff (hls : Balanced ls) (hwords : ∀ x ∈ links, isParen x.word = false)
    (h : ∀ x ∈ links, Balanced x.lexemes) {n : Nat} :
    nesting 0 (ls ++ links.flatMap Link.text) ≤ n ↔
      nesting 0 ls ≤ n ∧ ∀ x ∈ links, nesting 0 x.lexemes ≤ n := by
  rw [nesting_append hls, Nat.max_le, and_congr_right_iff]
  intro _
  induction links with
  | nil => simp [nesting]
  | cons x links ih =>
    rw [List.forall_mem_cons] at hwords h ⊢
    have hx : Balanced x.text := h.1.cons hwords.1
    rw [List.flatMap_cons, nesting_append hx, Nat.max_le, ih hwords.2 h.2, Link.text,
      nesting_cons hwords.1]

end Chains

section Phrases

variable {ph : Phrase} {ls : List Lexeme} {r : Rule}

theorem balanced_of_derives (h : Derives ph ls r) : Balanced ls := by
  induction h with
  | comparison hc => exact (balanced_of_plain (isParen_of_isComparison hc)).1
  | paren _ ih => exact ih.paren
  | single k _ ih => exact ih
  | group k _ _ hwords _ ih ihs =>
    exact ih.append (balanced_links (fun x hx => isParen_of_isWord (hwords x hx)) ihs)

/-- Parentheses nest in a chain as deep as in the member in which they nest deepest. -/
theorem nesting_members_le_iff {k : Combinator} {links : List Link} {n : Nat}
    (h : Derives (members k) ls r) (hwords : ∀ x ∈ links, IsWord (joining k) x.word)
    (hlinks : ∀ x ∈ links, Derives (members k) x.lexemes x.rule) :
    nesting 0 (ls ++ links.flatMap Link.text) ≤ n ↔
      nesting 0 ls ≤ n ∧ ∀ x ∈ links, nesting 0 x.lexemes ≤ n :=
  nesting_chain_le_iff (balanced_of_derives h) (fun x hx => isParen_of_isWord (hwords x hx))
    fun x hx => balanced_of_derives (hlinks x hx)

/-- How many groups a phrase can put around its parentheses. -/
def Phrase.height : Phrase → Nat
  | .term => 0
  | .chain .and => 1
  | .chain .or => 2

theorem height_chain (k : Combinator) : (Phrase.chain k).height = (members k).height + 1 := by
  cases k <;> rfl

/-- Groups nest at most twice as deep as parentheses, and twice more. -/
theorem depth_le_of_derives (h : Derives ph ls r) : r.depth ≤ 2 * nesting 0 ls + ph.height := by
  induction h with
  | comparison _ => simp [Rule.depth]
  | paren h ih =>
    rw [nesting_paren (balanced_of_derives h)]
    simp only [Phrase.height] at ih ⊢
    omega
  | single k _ ih =>
    rw [height_chain]
    omega
  | @group k ls r links _ h hwords hlinks ih ihs =>
    have hparts := (nesting_members_le_iff h hwords hlinks).1 (Nat.le_refl _)
    rw [height_chain, ← Nat.add_assoc]
    refine Rule.depth_group_le ?_
    rw [List.forall_mem_cons, List.forall_mem_map]
    refine ⟨by omega, fun x hx => ?_⟩
    have hx' := hparts.2 x hx
    have := ihs x hx
    omega

end Phrases

end RuleFilter.Grammar
