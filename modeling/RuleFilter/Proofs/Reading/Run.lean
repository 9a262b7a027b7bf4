import RuleFilter.Proofs.Reading.Bounds

/-!
Runs of the machine. It reads what the readers read and fails where they fail.
-/

namespace RuleFilter.Reading.Machine

open Grammar

variable {α β : Type} {s : Stream} {most : Nat}

section Following

def Leads (s : Stream) (most : Nat) (c d : Config) : Prop := ∃ n, Exec s most c n d

theorem Leads.trans {c d e : Config} (h : Leads s most c d) (h' : Leads s most d e) :
    Leads s most c e := by
  obtain ⟨m, hm⟩ := h
  obtain ⟨n, hn⟩ := h'
  exact ⟨m + n, hm.trans hn⟩

theorem Leads.of_step {c d : Config} (h : step s most c = some d) : Leads s most c d :=
  ⟨1, Exec.refl.succ h⟩

/-- From the configuration on the call ends as reading does: with what was read and the same tokens
left, or with the same failure. -/
def Follows (s : Stream) (most : Nat) (call : Call) (start : Nat) (stack : List Frame)
    (c : Config) (f : α → Result) {ts : List Token} : Outcome α ts → Prop
  | .ok ⟨a, rest, _⟩ => ∃ j n, j < s.length ∧ s.left j = rest ∧
      Leads s most c ⟨j, n, .leave call start (f a), stack⟩
  | .error e => ∃ j n stack', Leads s most c ⟨j, n, .failed e, stack'⟩

/-- The move begins what ends as reading does. -/
def Carries (s : Stream) (most : Nat) (call : Call) (start : Nat) (m : Move × Nat)
    (f : α → Result) {ts : List Token} (x : Outcome α ts) : Prop :=
  ∀ n stack, Follows s most call start stack (settle call start n stack m) f x

/-- The call ends as the reader does with the tokens that are left. -/
def Performs (s : Stream) (most : Nat) (call : Call) (f : α → Result)
    (read : (ts : List Token) → Outcome α ts) : Prop :=
  ∀ i, i < s.length → Carries s most call i (opening s most call i) f (read (s.left i))

variable {call : Call} {start i : Nat} {f : α → Result} {ts rest : List Token} {x : Outcome α ts}

theorem Follows.of_leads {stack : List Frame} {c d : Config} (h : Leads s most c d)
    (hd : Follows s most call start stack d f x) : Follows s most call start stack c f x := by
  match x with
  | .ok ⟨a, rest, _⟩ =>
    obtain ⟨j, n, hj, hrest, hleads⟩ := hd
    exact ⟨j, n, hj, hrest, h.trans hleads⟩
  | .error e =>
    obtain ⟨j, n, stack', hleads⟩ := hd
    exact ⟨j, n, stack', h.trans hleads⟩

theorem carries_done {r : Result} {a : α} {h : rest.length < ts.length} (hr : r = f a)
    (hi : i < s.length) (hrest : s.left i = rest) :
    Carries s most call start (.done r, i) f (.ok ⟨a, rest, h⟩ : Outcome α ts) := by
  subst hr
  exact fun n _ => ⟨i, n, hi, hrest, 0, .refl⟩

theorem carries_fail {e : Failure} :
    Carries s most call start (.fail e, i) f (.error e : Outcome α ts) :=
  fun n stack => ⟨i, n, stack, 0, .refl⟩

/-- A call that waits ends as reading does if the one it waits for does, and if it goes on so after
that one. -/
theorem carries_wait {w : Wait} {g : β → Result} {read : (ts : List Token) → Outcome β ts}
    (hperforms : Performs s most w.awaits g read) (hi : i < s.length)
    (herror : ∀ e, read (s.left i) = .error e → x = .error e)
    (hok : ∀ b mid h j, read (s.left i) = .ok ⟨b, mid, h⟩ → j < s.length → s.left j = mid →
      ∃ m, resume s w (g b) j = some m ∧ Carries s most w.call start m f x) :
    Carries s most w.call start (.wait w, i) f x := by
  intro n stack
  have henter : Leads s most (settle w.call start n stack (.wait w, i)) _ := .of_step rfl
  have hcall := hperforms i hi (n + 1) (⟨w, start⟩ :: stack)
  match hread : read (s.left i) with
  | .error e =>
    rw [hread] at hcall
    obtain rfl := herror e hread
    exact Follows.of_leads henter hcall
  | .ok ⟨b, mid, h⟩ =>
    rw [hread] at hcall
    obtain ⟨j, n', hj, hmid, hleave⟩ := hcall
    obtain ⟨m, hm, hcarries⟩ := hok b mid h j hread hj hmid
    refine .of_leads (henter.trans (hleave.trans (.of_step ?_))) (hcarries n' stack)
    rw [step, hm]
    rfl

/-- A call that is done with what it waited for. -/
theorem carries_wait_map {w : Wait} {g : β → Result} {read : (ts : List Token) → Outcome β ts}
    {h : β → α} (hperforms : Performs s most w.awaits g read)
    (hresume : ∀ b j, resume s w (g b) j = some (.done (f (h b)), j)) (hi : i < s.length) :
    Carries s most w.call start (.wait w, i) f ((read (s.left i)).map h) := by
  refine carries_wait hperforms hi (fun e he => by rw [he]; rfl) ?_
  intro b rest hlt j hb hj hrest
  rw [hb]
  exact ⟨_, hresume b j, carries_done rfl hj hrest⟩

theorem carries_expectThen {e : Expected} {go : Nat → Move × Nat} (hi : i < s.length)
    (herror : ∀ e', expect e (s.left i) = .error e' → x = .error e')
    (hok : ∀ rest h, expect e (s.left i) = .ok ⟨(), rest, h⟩ → i + 1 < s.length →
      s.left (i + 1) = rest → Carries s most call start (go (i + 1)) f x) :
    Carries s most call start (expectThen s e i go) f x := by
  rw [expectThen, Stream.peek_eq hi]
  generalize hleft : s.left i = us at herror hok ⊢
  cases us with
  | nil =>
    obtain rfl := herror _ rfl
    exact carries_fail
  | cons t rest =>
    obtain ⟨hadvance, hlt, hrest⟩ := Stream.advance_of_left hleft
    by_cases ht : e.admits t.lexeme
    · have hexpect : expect e (t :: rest) = .ok ⟨(), rest, Nat.lt_succ_self _⟩ := if_pos ht
      rw [if_pos (by simpa using ht), hadvance]
      exact hok rest _ hexpect hlt hrest
    · have hexpect : expect e (t :: rest) = .error (.unexpected e (some t)) := if_neg ht
      obtain rfl := herror _ hexpect
      rw [if_neg (by simpa using ht)]
      exact carries_fail

theorem Carries.next {g : α → (ts : List Token) → Outcome β ts} {f : β → Result} {m : Move × Nat}
    {a : α} {h : rest.length < ts.length} (hx : x = .ok ⟨a, rest, h⟩)
    (hg : Carries s most call start m f (g a rest)) : Carries s most call start m f (x.next g) := by
  subst hx
  intro n stack
  have hfollows := hg n stack
  simp only [Outcome.next]
  split
  · next he => rwa [he] at hfollows
  · next he => rwa [he] at hfollows

theorem carries_expect_next {e : Expected} {go : Nat → Move × Nat}
    {g : Unit → (ts : List Token) → Outcome α ts} (hi : i < s.length)
    (hgo : i + 1 < s.length → Carries s most call start (go (i + 1)) f (g () (s.left (i + 1)))) :
    Carries s most call start (expectThen s e i go) f ((expect e (s.left i)).next g) := by
  refine carries_expectThen hi (fun e he => by rw [he]; rfl) ?_
  rintro rest h hexpect hlt rfl
  exact .next hexpect (hgo hlt)

theorem carries_expect_map {e : Expected} {r : Result} {a : α} (hr : r = f a)
    (hi : i < s.length) : Carries s most call start (expectThen s e i fun i => (.done r, i)) f
      ((expect e (s.left i)).map fun _ => a) := by
  refine carries_expectThen hi (fun e he => by rw [he]; rfl) ?_
  intro rest h hexpect hlt hrest
  rw [hexpect]
  exact carries_done hr hlt hrest

theorem Carries.map {g : β → α} {m : Move × Nat} {x : Outcome β ts}
    (h : Carries s most call start m (fun b => f (g b)) x) :
    Carries s most call start m f (x.map g) := by
  match x with
  | .ok _ => exact h
  | .error _ => exact h

theorem Carries.after {m : Move × Nat} (h : Carries s most call start m f x) (t : Token) :
    Carries s most call start m f (x.after t) := by
  match x with
  | .ok _ => exact h
  | .error _ => exact h

end Following

section Values

theorem performs_value : Performs s most .value .value value := by
  intro i hi
  rw [opening, Stream.peek_eq hi]
  cases hleft : s.left i with
  | nil => exact carries_fail
  | cons t rest =>
    obtain ⟨hadvance, hlt, hrest⟩ := Stream.advance_of_left hleft
    rw [value, hadvance]
    simp only [List.head?_cons, Option.bind_some]
    cases t.lexeme.value? with
    | none => exact carries_fail
    | some v => exact carries_done rfl hlt hrest

/-- A round of the list takes a value and a comma, and by induction on the tokens left the rounds
after it take the other values. -/
theorem carries_items (before : List Value) {i start : Nat} (hi : i < s.length) :
    Carries s most .list start (.wait (.item before), i) (fun vs => .values (before ++ vs))
      (items (s.left i)) := by
  refine carries_wait (w := .item before) performs_value hi (fun e he => by rw [items, he]) ?_
  intro v mid h j hv hj hmid
  refine ⟨_, rfl, ?_⟩
  rw [Stream.peek_eq hj, hmid, items, hv]
  cases mid with
  | nil => exact carries_fail
  | cons t rest =>
    obtain ⟨hadvance, hlt, rfl⟩ := Stream.advance_of_left hmid
    have hshorter : (s.left (j + 1)).length < (s.left i).length := Nat.lt_of_succ_lt h
    have hmore : Carries s most .list start _ (fun vs => .values (before ++ [v] ++ vs)) _ :=
      carries_items (before ++ [v]) hlt
    simp only [List.head?_cons, Option.map_some, hadvance]
    generalize t.lexeme = l
    cases l with
    | comma =>
      dsimp only
      cases hitems : items (s.left (j + 1)) with
      | error e =>
        rw [hitems] at hmore
        exact hmore
      | ok found =>
        simp only [hitems, List.append_assoc] at hmore
        exact hmore
    | closeBracket => exact carries_done rfl hlt rfl
    | _ => exact carries_fail
termination_by (s.left i).length

theorem performs_list : Performs s most .list .values list := by
  intro i hi
  rw [opening, list]
  refine carries_expect_next hi fun hlt => ?_
  have hitems : Carries s most .list i _ .values _ := carries_items [] hlt
  rw [Stream.peek_eq hlt]
  generalize hmid : s.left (i + 1) = mid at hitems ⊢
  cases mid with
  | nil => exact hitems
  | cons t rest =>
    obtain ⟨hadvance, hlt', hrest⟩ := Stream.advance_of_left hmid
    simp only [List.head?_cons, Option.map_some, Option.some.injEq, hadvance]
    split
    · exact carries_done rfl hlt' hrest
    · exact hitems

end Values

section Comparisons

variable {field : String} {i start : Nat}

/-- The result of a comparison, of what is read after its field. -/
def tested (field : String) (x : Operator × Operand) : Result := .comparison ⟨field, x.1, x.2⟩

theorem carries_single (op : Operator) (hi : i < s.length) :
    Carries s most .comparison start (.wait (.operand field op), i) (tested field)
      (single op (s.left i)) :=
  carries_wait_map (w := .operand field op) performs_value (fun _ _ => rfl) hi

theorem carries_listed (op : Operator) (hi : i < s.length) :
    Carries s most .comparison start (.wait (.values field op), i) (tested field)
      (listed op (s.left i)) :=
  carries_wait_map (w := .values field op) performs_list (fun _ _ => rfl) hi

theorem carries_range (hi : i < s.length) :
    Carries s most .comparison start (.wait (.low field), i) (tested field)
      (range (s.left i)) := by
  refine carries_wait (w := .low field) performs_value hi (fun e he => by rw [range, he]; rfl) ?_
  rintro low _ h j hlow hj rfl
  refine ⟨_, rfl, .next hlow (carries_expect_next hj fun hlt => ?_)⟩
  exact carries_wait_map (w := .high field low) performs_value (fun _ _ => rfl) hlt

theorem carries_nullTest (hi : i < s.length) :
    Carries s most .comparison start (nullTest s field i) (tested field)
      (Reading.nullTest (s.left i)) := by
  have hnull {j : Nat} (op : Operator) (hj : j < s.length) :
      Carries s most .comparison start (nullWord s field op j) (tested field)
        ((expect (.keyword .null) (s.left j)).map fun _ => (op, Operand.none)) :=
    carries_expect_map rfl hj
  have hisNull := hnull .isNull hi
  rw [nullTest, Stream.peek_eq hi]
  generalize hleft : s.left i = ts at hisNull ⊢
  cases ts with
  | nil => exact hisNull
  | cons t rest =>
    obtain ⟨hadvance, hlt, rfl⟩ := Stream.advance_of_left hleft
    rw [List.head?_cons, Option.any_some, hadvance, Reading.nullTest]
    split
    · exact (hnull .isNotNull hlt).after t
    · exact hisNull

/-- The moves after a word go as the reader after it does. -/
def CarriesAfter (s : Stream) (most : Nat) (field : String) (go : Nat → Move × Nat)
    (read : (ts : List Token) → Outcome (Operator × Operand) ts) : Prop :=
  ∀ start i, i < s.length →
    Carries s most .comparison start (go i) (tested field) (read (s.left i))

theorem carries_afterWord (k : Keyword) :
    Option.Rel (CarriesAfter s most field) (afterWord s field k) (Reading.afterWord k) := by
  cases k with
  | among => exact .some fun _ _ => carries_listed _
  | not => exact .some fun _ _ hi => carries_expect_next hi fun hlt => carries_listed _ hlt
  | contains | startsWith | endsWith => exact .some fun _ _ => carries_single _
  | starts | ends =>
    exact .some fun _ _ hi => carries_expect_next hi fun hlt => carries_single _ hlt
  | between => exact .some fun _ _ => carries_range
  | is => exact .some fun _ _ => carries_nullTest
  | and | or | null | true | false | «with» => exact .none

theorem carries_test (hi : i < s.length) :
    Carries s most .comparison start (test s field i) (tested field)
      (Reading.test field (s.left i)) := by
  rw [test, Stream.peek_eq hi]
  cases hleft : s.left i with
  | nil => exact carries_fail
  | cons t rest =>
    obtain ⟨hadvance, hlt, rfl⟩ := Stream.advance_of_left hleft
    rw [List.head?_cons, Option.map_some, hadvance, Reading.test]
    cases t.lexeme with
    | compare op => exact (carries_single op hlt).after t
    | word w =>
      have hword : Option.Rel (CarriesAfter s most field)
          ((Keyword.ofWord? w).bind (afterWord s field))
          ((Keyword.ofWord? w).bind Reading.afterWord) := by
        cases Keyword.ofWord? w with
        | none => exact .none
        | some k => exact carries_afterWord k
      dsimp only
      generalize (Keyword.ofWord? w).bind (afterWord s field) = go at hword ⊢
      generalize (Keyword.ofWord? w).bind Reading.afterWord = read at hword ⊢
      cases hword with
      | none => exact carries_fail
      | some h => exact (h start _ hlt).after t
    | _ => exact carries_fail

theorem performs_comparison : Performs s most .comparison .comparison comparison := by
  intro i hi
  rw [opening, Stream.peek_eq hi]
  cases hleft : s.left i with
  | nil => exact carries_fail
  | cons t rest =>
    obtain ⟨hadvance, hlt, rfl⟩ := Stream.advance_of_left hleft
    rw [List.head?_cons, Option.bind_some, hadvance, comparison]
    cases t.lexeme with
    | word w =>
      dsimp only [field?]
      cases (Keyword.ofWord? w).isSome with
      | true => exact carries_fail
      | false => exact (Carries.map (f := .comparison) (carries_test hlt)).after t
    | _ => exact carries_fail

end Comparisons

section Phrases

variable {k : Combinator} {depth n : Nat}

/-- A round of the chain takes a member and the word after it, and by induction on the tokens left
the rounds after it take the other members. -/
theorem carries_chain {read : (ts : List Token) → Outcome Rule ts}
    (hread : Performs s most (.phrase (members k) depth) .rule read) (before : List Rule)
    {i start : Nat} (hi : i < s.length) :
    Carries s most (.phrase (.chain k) depth) start (.wait (.member k depth before), i)
      (fun rs => .rule (join k (before ++ rs))) (chain (joining k) read (s.left i)) := by
  refine carries_wait (w := .member k depth before) hread hi (fun e he => by rw [chain, he]) ?_
  intro r mid h j hr hj hmid
  refine ⟨_, rfl, ?_⟩
  rw [Stream.peek_eq hj, hmid, chain, hr]
  cases mid with
  | nil => exact carries_done rfl hj hmid
  | cons t rest =>
    obtain ⟨hadvance, hlt, rfl⟩ := Stream.advance_of_left hmid
    have hshorter : (s.left (j + 1)).length < (s.left i).length := Nat.lt_of_succ_lt h
    have hmore : Carries s most (.phrase (.chain k) depth) start _
        (fun rs => .rule (join k (before ++ [r] ++ rs))) _ :=
      carries_chain hread (before ++ [r]) hlt
    simp only [List.head?_cons, Option.any_some, hadvance]
    split
    · cases hchain : chain (joining k) read (s.left (j + 1)) with
      | error e =>
        rw [hchain] at hmore
        exact hmore
      | ok found =>
        simp only [hchain, List.append_assoc] at hmore
        exact hmore
    · exact carries_done rfl hj hmid
termination_by (s.left i).length

theorem performs_chain
    (h : Performs s most (.phrase (members k) depth) .rule (phrase n (members k))) :
    Performs s most (.phrase (.chain k) depth) .rule (phrase n (.chain k)) := by
  intro i hi
  rw [phrase_chain]
  exact (carries_chain h [] hi).map

theorem performs_term (hmost : depth + n = most) (h : ∀ m, n = m + 1 →
      Performs s most (.phrase (.chain .or) (depth + 1)) .rule (phrase m (.chain .or))) :
    Performs s most (.phrase .term depth) .rule (phrase n .term) := by
  intro i hi
  have hleaf : Carries s most (.phrase .term depth) i (.wait (.leaf depth), i) .rule
      ((comparison (s.left i)).map .leaf) :=
    carries_wait_map (w := .leaf depth) performs_comparison (fun _ _ => rfl) hi
  rw [opening, Stream.peek_eq hi, phrase]
  generalize hleft : s.left i = ts at hleaf ⊢
  cases ts with
  | nil => exact hleaf
  | cons t rest =>
    obtain ⟨hadvance, hlt, rfl⟩ := Stream.advance_of_left hleft
    rw [List.head?_cons, Option.map_some, hadvance]
    simp only [member, Option.some.injEq]
    split
    · cases n with
      | zero =>
        rw [if_neg (by omega)]
        exact carries_fail
      | succ m =>
        rw [if_pos (by omega)]
        refine Carries.after ?_ t
        refine carries_wait (w := .inside depth) (h m rfl) hlt ?_ ?_
        · intro e he
          rw [← rule_eq_phrase] at he
          rw [he]
          rfl
        · rintro r _ h' j hr hj rfl
          rw [← rule_eq_phrase] at hr
          exact ⟨_, rfl, .next hr (carries_expect_map rfl hj)⟩
    · exact hleaf

theorem performs_phrase (n : Nat) (ph : Phrase) : ∀ depth, depth + n = most →
    Performs s most (.phrase ph depth) .rule (phrase n ph) := by
  induction n, ph using phrase_induct with
  | hterm n ih =>
    intro depth hmost
    exact performs_term hmost fun m hm => ih m hm (depth + 1) (by omega)
  | hchain n k ih => exact fun depth hmost => performs_chain (ih depth hmost)

end Phrases

section Whole

/-- The configuration is the last one of reading: a rule has been read and nothing waits for it, or
reading has failed. -/
def Ended (s : Stream) (c : Config) {ts : List Token} : Outcome Rule ts → Prop
  | .ok ⟨r, rest, _⟩ => c.task = .leave (.phrase (.chain .or) 0) 0 (.rule r) ∧ c.stack = [] ∧
      s.left c.cursor = rest
  | .error e => c.task = .failed e

theorem step_of_ended {c : Config} {ts : List Token} {x : Outcome Rule ts} (h : Ended s c x) :
    step s most c = none := by
  obtain ⟨i, calls, task, stack⟩ := c
  match x with
  | .ok _ =>
    obtain ⟨rfl, rfl, -⟩ := h
    rfl
  | .error _ =>
    obtain rfl := h
    rfl

theorem exists_ended (s : Stream) (most : Nat) : ∃ n c, Exec s most initial n c ∧
    Ended s c (rule most (s.left 0)) := by
  have hphrase := performs_phrase (s := s) most (.chain .or) 0 (Nat.zero_add most)
    0 s.length_pos 1 []
  rw [← rule_eq_phrase] at hphrase
  have hfollows : Follows s most (.phrase (.chain .or) 0) 0 [] initial .rule
      (rule most (s.left 0)) := .of_leads (.of_step rfl) hphrase
  match hread : rule most (s.left 0) with
  | .ok ⟨r, rest, _⟩ =>
    rw [hread] at hfollows
    obtain ⟨j, calls, -, hrest, n, hn⟩ := hfollows
    exact ⟨n, _, hn, rfl, rfl, hrest⟩
  | .error e =>
    rw [hread] at hfollows
    obtain ⟨j, calls, stack, n, hn⟩ := hfollows
    exact ⟨n, _, hn, rfl⟩

/-- Whatever the tokens are, reading stops, with what the reader of rules yields of them; and every
configuration on the way there is within the bounds, those on calls and steps linear in the number
of tokens. -/
theorem run_ends_within_bounds (limits : Limits) (s : Stream) :
    (∃ n last, Exec s limits.depth initial n last ∧ step s limits.depth last = none ∧
      Ended s last (rule limits.depth (s.left 0))) ∧
    ∀ n c, Exec s limits.depth initial n c → Bounded s limits.depth n c := by
  constructor
  · obtain ⟨n, last, hn, hlast⟩ := exists_ended s limits.depth
    exact ⟨n, last, hn, step_of_ended hlast, hlast⟩
  · exact fun n c hn => bounded_of_valid (valid_of_exec hn)

end Whole

end RuleFilter.Reading.Machine
